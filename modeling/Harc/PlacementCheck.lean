import Harc.TestbenchIr

/-!
The features of a block and the check of its capabilities against a target profile
(`src/ir/passes/placement.rs`), over the expressions and statements of the IR as the visitors of
`src/ir/visit.rs` see them: a constructor carries the operands that it evaluates, and names,
types and identifiers that neither looks at are left out.
-/

namespace Harc.PlacementCheck

open Harc.TestbenchIr

inductive PortAccess where
  | port
  | probe
  | force
deriving DecidableEq, Repr

/-! ### Expressions -/

inductive LaneIndex (Expr : Type) where
  | const (lane : Nat)
  | var (index : Expr)

structure PortRef (Expr : Type) where
  access : PortAccess
  lane : Option (LaneIndex Expr)

inductive CallTarget where
  | helper
  | builtin
  | externFn
  | transactorMethod
  | transactorSelfMethod
  | tseq
deriving DecidableEq

/-- The expressions that have no operand. -/
inductive Leaf where
  | literal
  | stringLiteral
  | wideLiteral
  | local
  | tbField
  | temporalSlot
  | tbQueueQuery
  | transactorState
  | transactorStateQueueQuery
  | scoreboardQuery
  | componentField
  | componentValue
  | componentQueueQuery
  | cycleCount
  | errorCount
  | covBin
  | covHookArg
  | seqLen

inductive Expr where
  | leaf (leaf : Leaf)
  | port (port : PortRef Expr)
  | binary (lhs rhs : Expr)
  | unary (inner : Expr)
  | bitSlice (target : Expr)
  | widthCast (inner : Expr)
  | dynamicListQuery (target : Expr)
  | ternary (cond lhs rhs : Expr)
  | bitSliceDyn (target hi lo : Expr)
  | recordField (midIndices : List Expr) (index : Option Expr)
  | transactorStateRecordField (midIndices : List Expr) (index : Option Expr)
  | tbFieldVecElement (index : Expr) (innerIndex : Option Expr)
  | componentVecElement (index : Expr) (innerIndex : Option Expr)
  | portSnapshotLane (port : PortRef Expr) (index : Expr)
  | seqIndex (index : Expr) (innerIndex : Option Expr)
  | componentIdle (n : Expr)
  | transactorIdle (n : Expr)
  | covHookParam (index : Option Expr)
  | call (target : CallTarget) (args : List Expr)
  | regRead (readsBus : Bool)

namespace PortRef

/-- `try_visit_port_lane_expr` -/
def laneExpr (port : PortRef Expr) : List Expr :=
  match port.lane with
  | some (.var index) => [index]
  | some (.const _) => []
  | none => []

end PortRef

namespace Expr

/-- `try_visit_expr_children` -/
def children : Expr → List Expr
  | .port ref => ref.laneExpr
  | .binary lhs rhs => [lhs, rhs]
  | .unary inner => [inner]
  | .bitSlice target => [target]
  | .widthCast inner => [inner]
  | .dynamicListQuery target => [target]
  | .ternary cond lhs rhs => [cond, lhs, rhs]
  | .bitSliceDyn target hi lo => [target, hi, lo]
  | .recordField midIndices index => midIndices ++ index.toList
  | .transactorStateRecordField midIndices index => midIndices ++ index.toList
  | .tbFieldVecElement index innerIndex => index :: innerIndex.toList
  | .componentVecElement index innerIndex => index :: innerIndex.toList
  | .portSnapshotLane ref index => ref.laneExpr ++ [index]
  | .seqIndex index innerIndex => index :: innerIndex.toList
  | .componentIdle n => [n]
  | .transactorIdle n => [n]
  | .covHookParam index => index.toList
  | .call _ args => args
  | .leaf _ => []
  | .regRead _ => []

theorem sizeOf_laneExpr {port : PortRef Expr} {child : Expr} (h : child ∈ port.laneExpr) :
    sizeOf child < sizeOf port := by
  obtain ⟨access, lane⟩ := port
  rcases lane with _ | ⟨n⟩ | ⟨index⟩
  · exact absurd h List.not_mem_nil
  · exact absurd h List.not_mem_nil
  · rw [List.mem_singleton.mp h]
    simp only [PortRef.mk.sizeOf_spec, Option.some.sizeOf_spec, LaneIndex.var.sizeOf_spec]
    omega

theorem sizeOf_toList {index : Option Expr} {child : Expr} (h : child ∈ index.toList) :
    sizeOf child < sizeOf index := by
  obtain rfl := Option.mem_toList.mp h
  simp only [Option.some.sizeOf_spec]
  omega

theorem sizeOf_children {e child : Expr} (h : child ∈ e.children) : sizeOf child < sizeOf e := by
  cases e
  all_goals simp only [children, List.mem_append, List.mem_cons, List.not_mem_nil, or_false] at h
  all_goals simp only [port.sizeOf_spec, binary.sizeOf_spec, unary.sizeOf_spec,
    bitSlice.sizeOf_spec, widthCast.sizeOf_spec, dynamicListQuery.sizeOf_spec, ternary.sizeOf_spec,
    bitSliceDyn.sizeOf_spec, recordField.sizeOf_spec, transactorStateRecordField.sizeOf_spec,
    tbFieldVecElement.sizeOf_spec, componentVecElement.sizeOf_spec, portSnapshotLane.sizeOf_spec,
    seqIndex.sizeOf_spec, componentIdle.sizeOf_spec, transactorIdle.sizeOf_spec,
    covHookParam.sizeOf_spec, call.sizeOf_spec]
  all_goals grind [→ sizeOf_laneExpr, → sizeOf_toList, → List.sizeOf_lt_of_mem]

/-- The expressions that `walk_expr` visits, in its order. -/
def walk (e : Expr) : List Expr :=
  e :: e.children.attach.flatMap fun child => child.1.walk
termination_by sizeOf e
decreasing_by exact sizeOf_children child.2

end Expr

/-! ### Statements -/

inductive ScoreboardOp where
  | queuePush (value : Expr)
  | queuePop
  | scalarWrite (value : Expr)

inductive Stmt where
  | assign (value : Expr)
  | dutWrite (port : PortRef Expr) (value : Expr)
  | dutRead (port : PortRef Expr)
  | probeRelease (port : PortRef Expr)
  | recordInit
  | aggregateInit
  | recordFieldWrite (midIndices : List Expr) (index : Option Expr) (value : Expr)
  | recordRead (addr : Expr)
  | recordWrite (addr value : Expr)
  | recordWriteCb (value : Expr)
  | tbFieldWrite (value : Expr)
  | tbFieldVecElementWrite (index : Expr) (innerIndex : Option Expr) (value : Expr)
  | localVecElementWrite (index : Expr) (innerIndex : Option Expr) (value : Expr)
  | tbQueuePush (value : Expr)
  | tbQueuePop
  | transactorStateWrite (value : Expr)
  | transactorStateRecordFieldWrite (midIndices : List Expr) (index : Option Expr) (value : Expr)
  | transactorStateQueuePush (value : Expr)
  | transactorStateQueuePop
  | log (args : FmtArgs Expr)
  | assertCheck (cond : Expr) (onFail : FmtArgs Expr)
  | assumeCheck (cond : Expr) (onFail : FmtArgs Expr)
  | propertyCheck (id : Nat)
  | coverCheck (id : Nat)
  | cycleHandler (id : Nat)
  | eventSubscribe
  | methodHookSubscribe
  | eventEmit (args : List Expr)
  | covReport
  | transactorCall (call : Expr)
  | transactorSelfCall (call : Expr)
  | helperCall (call : Expr)
  | failDiag (guard : Option Expr) (args : FmtArgs Expr)
  | errorIncrement
  | scoreboardOp (op : ScoreboardOp)
  | componentFieldWrite (value : Expr)
  | componentVecElementWrite (index : Expr) (innerIndex : Option Expr) (value : Expr)
  | componentEmit (args : List Expr)
  | componentCall (args : List Expr)
  | testbenchCall (args : List Expr)
  | componentQueuePush (value : Expr)
  | componentQueuePop
  | componentInit
  | componentSubAssign
  | componentAssign
  | seqPush (value : Expr)
  | tlmFork (args : List Expr)
  | tlmJoinAll (pending : List (List Expr))

/-! Schemas of the checks and handlers that a statement registers. -/

inductive PropertyShape where
  | implies (ante cons : Expr)
  | impliesNext (ante cons : Expr)
  | invariant (cond : Expr)

structure PropertyCheckSchema where
  shape : PropertyShape
  temporals : List Expr
  message : Option (FmtArgs Expr)

structure CoverCheckSchema where
  cond : Expr
  temporals : List Expr

inductive CycleHandlerKind where
  | trigger (trigger : Expr)
  | periodic (period : Expr)

structure TbProgram where
  functions : List (TbFunction Stmt Expr)
  propertyChecks : List PropertyCheckSchema
  coverChecks : List CoverCheckSchema
  cycleHandlers : List CycleHandlerKind

/-! ### Features of a block -/

structure BlockFeatures where
  /-- In the order in which the classes are first touched. -/
  accesses : List PortAccess
  hasPinStmt : Bool
  hostServiceOnly : Bool
  hasTransactorCall : Bool
  suspendsCycles : Bool
  suspendsUntil : Bool
  solves : Bool

namespace BlockFeatures

def empty : BlockFeatures := ⟨[], false, true, false, false, false, false⟩

def touch (feat : BlockFeatures) (access : PortAccess) : BlockFeatures :=
  if access ∈ feat.accesses then feat else { feat with accesses := feat.accesses ++ [access] }

def visit (feat : BlockFeatures) : Expr → BlockFeatures
  | .port port => feat.touch port.access
  | .portSnapshotLane port _ => feat.touch port.access
  | .call .transactorMethod _ => { feat with hasTransactorCall := true }
  | .regRead true => { feat with hasTransactorCall := true }
  | _ => feat

def visitExpr (feat : BlockFeatures) (e : Expr) : BlockFeatures := e.walk.foldl visit feat

def visitExprs (feat : BlockFeatures) (es : List Expr) : BlockFeatures := es.foldl visitExpr feat

def visitFmt (feat : BlockFeatures) (args : FmtArgs Expr) : BlockFeatures :=
  feat.visitExprs (args.args.map (·.expr))

/-- The statement does more than host services. -/
def work (feat : BlockFeatures) : BlockFeatures := { feat with hostServiceOnly := false }

def pin (feat : BlockFeatures) (port : PortRef Expr) : BlockFeatures :=
  { feat with hasPinStmt := true, hostServiceOnly := false }.touch port.access

def visitProperty (feat : BlockFeatures) (schema : PropertyCheckSchema) : BlockFeatures :=
  let feat :=
    match schema.shape with
    | .implies ante cons => (feat.visitExpr ante).visitExpr cons
    | .impliesNext ante cons => (feat.visitExpr ante).visitExpr cons
    | .invariant cond => feat.visitExpr cond
  let feat := feat.visitExprs schema.temporals
  match schema.message with
  | some message => feat.visitFmt message
  | none => feat

def visitCover (feat : BlockFeatures) (schema : CoverCheckSchema) : BlockFeatures :=
  (feat.visitExpr schema.cond).visitExprs schema.temporals

def visitHandler (feat : BlockFeatures) : CycleHandlerKind → BlockFeatures
  | .trigger trigger => feat.visitExpr trigger
  | .periodic period => feat.visitExpr period

/-- The arms of `block_features` over statements. -/
def visitStmt (prog : TbProgram) (feat : BlockFeatures) : Stmt → BlockFeatures
  | .dutWrite port value => (feat.pin port).visitExpr value
  | .dutRead port => feat.pin port
  | .probeRelease port => feat.pin port
  | .assign e => feat.work.visitExpr e
  | .helperCall call => feat.work.visitExpr call
  | .assertCheck cond onFail => (feat.work.visitExpr cond).visitFmt onFail
  | .assumeCheck cond onFail => (feat.work.visitExpr cond).visitFmt onFail
  | .log args => feat.visitFmt args
  | .failDiag guard args => (feat.visitExprs guard.toList).visitFmt args
  | .recordInit => feat.work
  | .componentInit => feat.work
  | .aggregateInit => feat.work
  | .recordRead addr => feat.work.visitExpr addr
  | .recordWrite addr value => (feat.work.visitExpr addr).visitExpr value
  | .recordFieldWrite midIndices index value =>
      ((feat.work.visitExprs midIndices).visitExprs index.toList).visitExpr value
  | .recordWriteCb value => feat.work.visitExpr value
  | .transactorCall call => feat.work.visitExpr call
  | .transactorSelfCall call => feat.work.visitExpr call
  | .tbFieldWrite value => feat.work.visitExpr value
  | .tbQueuePush value => feat.work.visitExpr value
  | .transactorStateWrite value => feat.work.visitExpr value
  | .transactorStateQueuePush value => feat.work.visitExpr value
  | .transactorStateRecordFieldWrite midIndices index value =>
      ((feat.work.visitExprs midIndices).visitExprs index.toList).visitExpr value
  | .transactorStateQueuePop => feat.work
  | .tbQueuePop => feat.work
  | .covReport => feat
  | .eventSubscribe => feat.work
  | .methodHookSubscribe => feat.work
  | .eventEmit _ => feat.work
  | .propertyCheck id => prog.propertyChecks[id]?.elim feat.work feat.work.visitProperty
  | .coverCheck id => prog.coverChecks[id]?.elim feat.work feat.work.visitCover
  | .cycleHandler id => prog.cycleHandlers[id]?.elim feat.work feat.work.visitHandler
  | .scoreboardOp (.queuePush value) => feat.work.visitExpr value
  | .scoreboardOp (.scalarWrite value) => feat.work.visitExpr value
  | .scoreboardOp .queuePop => feat.work
  | .componentFieldWrite value => feat.work.visitExpr value
  | .componentVecElementWrite index innerIndex value =>
      ((feat.work.visitExpr index).visitExprs innerIndex.toList).visitExpr value
  | .tbFieldVecElementWrite index innerIndex value =>
      ((feat.work.visitExpr index).visitExprs innerIndex.toList).visitExpr value
  | .localVecElementWrite index innerIndex value =>
      ((feat.work.visitExpr index).visitExprs innerIndex.toList).visitExpr value
  | .componentEmit args => feat.work.visitExprs args
  | .componentCall args => feat.work.visitExprs args
  | .testbenchCall args => feat.work.visitExprs args
  | .seqPush value => feat.work.visitExpr value
  | .componentQueuePush value => feat.work.visitExpr value
  | .componentQueuePop => feat.work
  | .componentSubAssign => feat.work
  | .componentAssign => feat.work
  | .tlmFork args => { feat.work with hasTransactorCall := true }.visitExprs args
  | .tlmJoinAll pending => { feat.work with hasTransactorCall := true }.visitExprs pending.flatten
  | .errorIncrement => feat

def visitTerminator (feat : BlockFeatures) : Terminator Expr → BlockFeatures
  | .waitCycles n _ _ => { feat with suspendsCycles := true }.visitExpr n
  | .waitCyclesSync n _ => { feat with suspendsCycles := true }.visitExpr n
  | .waitTimePs _ _ => { feat with suspendsCycles := true }
  | .waitUntil preds _ _ => { feat with suspendsUntil := true }.visitExprs (preds.map PredSrc.expr)
  | .waitUntilTimeout preds _ cycles _ _ =>
      ({ feat with suspendsUntil := true }.visitExprs (preds.map PredSrc.expr)).visitExpr cycles
  | .branch cond _ _ => feat.visitExpr cond
  | .fatal args => feat.visitFmt args
  | .randomize _ _ _ => { feat with solves := true }
  | .tbLifecycleCall _ _ => { feat with suspendsCycles := true }
  | .jump _ => feat
  | .ret => feat

end BlockFeatures

def blockFeatures (prog : TbProgram) (block : BasicBlock Stmt Expr) : BlockFeatures :=
  (block.stmts.foldl (BlockFeatures.visitStmt prog) .empty).visitTerminator block.terminator

/-! ### Classes and diagnostics -/

inductive PlacementTier where
  | tier0CoLocated
  | tier1NearProcessor
  | tier2HostService
deriving DecidableEq

inductive TimingClass where
  | cycleExact
  | timingTolerant
  | unknown
deriving DecidableEq

structure TargetProfile where
  name : String
  hasTier0 : Bool
  tier1CycleLocked : Bool
  reachPort : Bool
  reachProbe : Bool
  reachForce : Bool
  solveDeviceRejection : Bool
  solveReplayTable : Bool
  solveHostSync : Bool

namespace TargetProfile

def reaches (profile : TargetProfile) : PortAccess → Bool
  | .port => profile.reachPort
  | .probe => profile.reachProbe
  | .force => profile.reachForce

def singleSite : TargetProfile := ⟨"single-site", true, true, true, true, true, true, true, true⟩

def splitStrict : TargetProfile :=
  ⟨"split-strict", false, false, true, false, false, false, false, true⟩

end TargetProfile

def classifyTiming (feat : BlockFeatures) : TimingClass :=
  if feat.hasPinStmt && feat.suspendsCycles then .cycleExact
  else if feat.suspendsUntil || feat.hasTransactorCall then .timingTolerant
  else if feat.hasPinStmt then .unknown
  else .timingTolerant

def classifyTier (feat : BlockFeatures) (profile : TargetProfile) : PlacementTier :=
  if feat.hasPinStmt || !feat.accesses.isEmpty then
    if profile.hasTier0 then .tier0CoLocated else .tier1NearProcessor
  else if feat.solves then .tier2HostService
  else if feat.hostServiceOnly then .tier2HostService
  else .tier1NearProcessor

structure PlacementDiag where
  func : FunctionId
  funcName : String
  block : BlockId
  message : String
deriving DecidableEq

def accessText : PortAccess → String × String
  | .port => ("an architectural port", "Port")
  | .probe => ("a probe signal", "Probe")
  | .force => ("a force point", "Force")

def unreachableMessage (profile : TargetProfile) (access : PortAccess) : String :=
  "accesses " ++ (accessText access).1 ++ ", but profile `" ++ profile.name ++ "` cannot reach " ++
    (accessText access).2 ++ " access on any tier (declare the resource on the target, or " ++
    "re-place this region)"

def cycleExactMessage (profile : TargetProfile) : String :=
  "cycle-exact DUT interaction, but profile `" ++ profile.name ++ "` has no cycle-locked " ++
    "execution site (Tier 1 is free-running and there is no Tier 0 to absorb it) — route the " ++
    "pin-level half through a transactor"

def solveMessage (profile : TargetProfile) : String :=
  "constraint solve (`randomize`), but profile `" ++ profile.name ++ "` offers no solve " ++
    "strategy (no device-rejection, replay-table, or host-sync) — pre-solve the stimulus or " ++
    "re-place this region"

def capabilityCheck (func : TbFunction Stmt Expr) (block : BlockId) (feat : BlockFeatures)
    (timing : TimingClass) (profile : TargetProfile) : List PlacementDiag :=
  ((feat.accesses.filter fun access => !profile.reaches access).map (unreachableMessage profile) ++
    (if timing = .cycleExact && !profile.tier1CycleLocked && !profile.hasTier0 then
      [cycleExactMessage profile] else []) ++
    (if feat.solves && !profile.solveDeviceRejection && !profile.solveReplayTable &&
        !profile.solveHostSync then
      [solveMessage profile] else [])).map fun message => ⟨func.id, func.name, block, message⟩

structure PlacementTable where
  blocks : List ((FunctionId × BlockId) × PlacementTier × TimingClass)
  diagnostics : List PlacementDiag

/-- What `run` adds to the table for a block. -/
def checkBlock (prog : TbProgram) (profile : TargetProfile) (func : TbFunction Stmt Expr)
    (block : BasicBlock Stmt Expr) (id : BlockId) : PlacementTable :=
  let feat := blockFeatures prog block
  { blocks := [((func.id, id), classifyTier feat profile, classifyTiming feat)]
    diagnostics := capabilityCheck func id feat (classifyTiming feat) profile }

def run (prog : TbProgram) (profile : TargetProfile) : PlacementTable :=
  let tables := (prog.functions.filter fun func => func.kind ≠ .helper).flatMap fun func =>
    func.blocks.zipIdx.map fun (block, id) => checkBlock prog profile func block id
  { blocks := tables.flatMap (·.blocks), diagnostics := tables.flatMap (·.diagnostics) }

end Harc.PlacementCheck
