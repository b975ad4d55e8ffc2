import Harc.Fallible
import Harc.PlacementCheck
import Mathlib.Data.Finset.Sort

/-!
The locals of a test function that its persistent callbacks capture
(`src/ir/passes/runtime_cells.rs`), over the expressions of the IR with the locals that they
name. Checks, handlers and subscriptions run after the statement that registers them, so every
local that they read has to outlive it.
-/

namespace Harc.CallbackCaptures

open Harc.Fallible
open Harc.PlacementCheck (LaneIndex)

abbrev LocalId := Nat

inductive ComponentBase where
  | selfField
  | path (segments : List String)
  | local (l : LocalId)
  | localPath (l : LocalId) (path : List String)

/-- The expressions that have no operand and name no local. -/
inductive Leaf where
  | literal
  | stringLiteral
  | wideLiteral
  | tbField
  | temporalSlot
  | tbQueueQuery
  | transactorState
  | transactorStateQueueQuery
  | scoreboardQuery
  | cycleCount
  | errorCount
  | covBin
  | covHookArg

inductive Expr where
  | leaf (leaf : Leaf)
  | local (l : LocalId)
  | port (lane : Option (LaneIndex Expr))
  | binary (lhs rhs : Expr)
  | unary (inner : Expr)
  | bitSlice (target : Expr)
  | widthCast (inner : Expr)
  | dynamicListQuery (target : Expr)
  | ternary (cond lhs rhs : Expr)
  | bitSliceDyn (target hi lo : Expr)
  | recordField (l : LocalId) (midIndices : List Expr) (index : Option Expr)
  | transactorStateRecordField (midIndices : List Expr) (index : Option Expr)
  | tbFieldVecElement (index : Expr) (innerIndex : Option Expr)
  | componentField (base : ComponentBase)
  | componentVecElement (base : ComponentBase) (index : Expr) (innerIndex : Option Expr)
  | componentValue (base : ComponentBase)
  | componentQueueQuery (base : ComponentBase)
  | portSnapshotLane (snapshot : LocalId) (lane : Option (LaneIndex Expr)) (index : Expr)
  | seqLen (l : LocalId)
  | seqIndex (seq : LocalId) (index : Expr) (innerIndex : Option Expr)
  | componentIdle (base : ComponentBase) (n : Expr)
  | transactorIdle (n : Expr)
  | covHookParam (index : Option Expr)
  | call (args : List Expr)
  | regRead (mirror : LocalId)

/-- `try_visit_port_lane_expr` -/
def laneExpr : Option (LaneIndex Expr) → List Expr
  | some (.var index) => [index]
  | some (.const _) => []
  | none => []

namespace Expr

/-- `try_visit_expr_children` -/
def children : Expr → List Expr
  | .port lane => laneExpr lane
  | .binary lhs rhs => [lhs, rhs]
  | .unary inner => [inner]
  | .bitSlice target => [target]
  | .widthCast inner => [inner]
  | .dynamicListQuery target => [target]
  | .ternary cond lhs rhs => [cond, lhs, rhs]
  | .bitSliceDyn target hi lo => [target, hi, lo]
  | .recordField _ midIndices index => midIndices ++ index.toList
  | .transactorStateRecordField midIndices index => midIndices ++ index.toList
  | .tbFieldVecElement index innerIndex => index :: innerIndex.toList
  | .componentVecElement _ index innerIndex => index :: innerIndex.toList
  | .portSnapshotLane _ lane index => laneExpr lane ++ [index]
  | .seqIndex _ index innerIndex => index :: innerIndex.toList
  | .componentIdle _ n => [n]
  | .transactorIdle n => [n]
  | .covHookParam index => index.toList
  | .call args => args
  | .leaf _ => []
  | .local _ => []
  | .componentField _ => []
  | .componentValue _ => []
  | .componentQueueQuery _ => []
  | .seqLen _ => []
  | .regRead _ => []

theorem sizeOf_laneExpr {lane : Option (LaneIndex Expr)} {child : Expr}
    (h : child ∈ laneExpr lane) : sizeOf child < sizeOf lane := by
  rcases lane with _ | ⟨n⟩ | ⟨index⟩
  · exact absurd h List.not_mem_nil
  · exact absurd h List.not_mem_nil
  · rw [List.mem_singleton.mp h]
    simp only [Option.some.sizeOf_spec, LaneIndex.var.sizeOf_spec]
    omega

theorem sizeOf_toList {index : Option Expr} {child : Expr} (h : child ∈ index.toList) :
    sizeOf child < sizeOf index := by
  obtain rfl := Option.mem_toList.mp h
  simp only [Option.some.sizeOf_spec]
  omega

theorem sizeOf_children {e child : Expr} (h : child ∈ e.children) : sizeOf child < sizeOf e := by
  cases e
  all_goals simp only [children, List.mem_append, List.mem_cons, List.not_mem_nil, or_false] at h
  all_goals simp only [port.sizeOf_spec, binary.sizeOf_spec, unary.sizeOf_spec,
    bitSlice.sizeOf_spec, widthCast.sizeOf_spec, dynamicListQuery.sizeOf_spec, ternary.sizeOf_spec,
    bitSliceDyn.sizeOf_spec, recordField.sizeOf_spec, transactorStateRecordField.sizeOf_spec,
    tbFieldVecElement.sizeOf_spec, componentVecElement.sizeOf_spec, portSnapshotLane.sizeOf_spec,
    seqIndex.sizeOf_spec, componentIdle.sizeOf_spec, transactorIdle.sizeOf_spec,
    covHookParam.sizeOf_spec, call.sizeOf_spec]
  all_goals grind [→ sizeOf_laneExpr, → sizeOf_toList, → List.sizeOf_lt_of_mem]

/-- The expressions that `walk_expr` visits, in its order. -/
def walk (e : Expr) : List Expr :=
  e :: e.children.attach.flatMap fun child => child.1.walk
termination_by sizeOf e
decreasing_by exact sizeOf_children child.2

end Expr

/-- The local that an arm of `collect_expr_locals` inserts. -/
def nodeLocal : Expr → Option LocalId
  | .regRead mirror => some mirror
  | .local l => some l
  | .seqLen l => some l
  | .portSnapshotLane snapshot _ _ => some snapshot
  | .recordField l _ _ => some l
  | .seqIndex seq _ _ => some seq
  | .componentValue (.local l) => some l
  | .componentValue (.localPath l _) => some l
  | .componentIdle (.local l) _ => some l
  | _ => none

def collectExprLocals (expr : Expr) (locals : Finset LocalId) : Finset LocalId :=
  expr.walk.foldl
    (fun locals e => match nodeLocal e with
      | some l => insert l locals
      | none => locals)
    locals

/-! The statements that register callbacks, and their schemas. -/

inductive PropertyShape where
  | implies (ante cons : Expr)
  | impliesNext (ante cons : Expr)
  | invariant (cond : Expr)

structure PropertyCheckSchema where
  shape : PropertyShape
  temporals : List Expr
  message : Option (List Expr)

structure CoverCheckSchema where
  cond : Expr
  temporals : List Expr

inductive CycleHandlerKind where
  | trigger (trigger : Expr)
  | periodic (period : Expr)

inductive EventChannelRef where
  | local (l : LocalId)
  | component (base : ComponentBase)

inductive MethodHookTarget where
  | transactor
  | component (base : ComponentBase)

inductive Stmt where
  | propertyCheck (id : Nat)
  | coverCheck (id : Nat)
  | cycleHandler (id : Nat)
  | methodHookSubscribe (target : MethodHookTarget) (captures : List LocalId)
  | eventSubscribe (event : EventChannelRef)
  | eventEmit (event : LocalId) (args : List Expr)
  | other

structure TbProgram where
  propertyChecks : List PropertyCheckSchema
  coverChecks : List CoverCheckSchema
  cycleHandlers : List CycleHandlerKind

structure TbFunction where
  id : Nat
  localCount : Nat
  blocks : List (List Stmt)
  testbenchRecordLocals : List LocalId

def collectExprs (exprs : List Expr) (locals : Finset LocalId) : Finset LocalId :=
  exprs.foldl (fun locals e => collectExprLocals e locals) locals

def collectShape (shape : PropertyShape) (locals : Finset LocalId) : Finset LocalId :=
  match shape with
  | .implies ante cons => collectExprLocals cons (collectExprLocals ante locals)
  | .impliesNext ante cons => collectExprLocals cons (collectExprLocals ante locals)
  | .invariant cond => collectExprLocals cond locals

/-- The arms of `persistent_callback_captures` over statements. -/
def collectStmt (prog : TbProgram) (captures : Finset LocalId) :
    Stmt → Except String (Finset LocalId)
  | .propertyCheck p =>
      match prog.propertyChecks[p]? with
      | none => .error ("persistent-capture analysis references missing property p" ++ toString p)
      | some schema =>
          let captures := collectExprs schema.temporals (collectShape schema.shape captures)
          .ok (match schema.message with
            | some message => collectExprs message captures
            | none => captures)
  | .coverCheck c =>
      match prog.coverChecks[c]? with
      | none => .error ("persistent-capture analysis references missing cover c" ++ toString c)
      | some schema => .ok (collectExprs schema.temporals (collectExprLocals schema.cond captures))
  | .cycleHandler h =>
      match prog.cycleHandlers[h]? with
      | none =>
          .error ("persistent-capture analysis references missing cycle handler h" ++ toString h)
      | some (.trigger trigger) => .ok (collectExprLocals trigger captures)
      | some (.periodic _) => .ok captures
  | .methodHookSubscribe _ hookCaptures => .ok (captures ∪ hookCaptures.toFinset)
  | .eventSubscribe (.local l) => .ok (insert l captures)
  | .eventSubscribe (.component _) => .ok captures
  | .eventEmit l _ => .ok (insert l captures)
  | .other => .ok captures

def TbFunction.stmts (function : TbFunction) : List Stmt :=
  function.blocks.flatten

def persistentCallbackCaptures (prog : TbProgram) (function : TbFunction) :
    Except String (Finset LocalId) := do
  let captures ← function.stmts.foldlM (collectStmt prog) ∅
  let captures := captures.filter fun l => l ∉ function.testbenchRecordLocals
  match (captures.sort (· ≤ ·)).find? fun l => function.localCount ≤ l with
  | some l =>
      .error ("persistent-capture analysis for fn" ++ toString function.id ++
        " references missing local %" ++ toString l)
  | none => .ok captures

/-! What a callback reads. -/

namespace ComponentBase

def locals : ComponentBase → List LocalId
  | .selfField => []
  | .path _ => []
  | .local l => [l]
  | .localPath l _ => [l]

end ComponentBase

mutual

/-- The locals that an expression reads, operand by operand. -/
def Expr.reads : Expr → List LocalId
  | .leaf _ => []
  | .local l => [l]
  | .port lane => readsLane lane
  | .binary lhs rhs => lhs.reads ++ rhs.reads
  | .unary inner => inner.reads
  | .bitSlice target => target.reads
  | .widthCast inner => inner.reads
  | .dynamicListQuery target => target.reads
  | .ternary cond lhs rhs => cond.reads ++ lhs.reads ++ rhs.reads
  | .bitSliceDyn target hi lo => target.reads ++ hi.reads ++ lo.reads
  | .recordField l midIndices index => l :: readsAll midIndices ++ readsOption index
  | .transactorStateRecordField midIndices index => readsAll midIndices ++ readsOption index
  | .tbFieldVecElement index innerIndex => index.reads ++ readsOption innerIndex
  | .componentField base => base.locals
  | .componentVecElement base index innerIndex =>
      base.locals ++ index.reads ++ readsOption innerIndex
  | .componentValue base => base.locals
  | .componentQueueQuery base => base.locals
  | .portSnapshotLane snapshot lane index => snapshot :: readsLane lane ++ index.reads
  | .seqLen l => [l]
  | .seqIndex seq index innerIndex => seq :: index.reads ++ readsOption innerIndex
  | .componentIdle base n => base.locals ++ n.reads
  | .transactorIdle n => n.reads
  | .covHookParam index => readsOption index
  | .call args => readsAll args
  | .regRead mirror => [mirror]

def readsAll : List Expr → List LocalId
  | [] => []
  | e :: rest => e.reads ++ readsAll rest

def readsOption : Option Expr → List LocalId
  | none => []
  | some e => e.reads

def readsLane : Option (LaneIndex Expr) → List LocalId
  | none => []
  | some lane => readsIndex lane

def readsIndex : LaneIndex Expr → List LocalId
  | .const _ => []
  | .var e => e.reads

end

/-- A local that an expression names and no arm inserts: the base of a component field, of an
element, of a queue query, or of an idle predicate on a nested component. -/
def skippedLocal : Expr → Option LocalId
  | .componentField (.local l) => some l
  | .componentField (.localPath l _) => some l
  | .componentVecElement (.local l) _ _ => some l
  | .componentVecElement (.localPath l _) _ _ => some l
  | .componentQueueQuery (.local l) => some l
  | .componentQueueQuery (.localPath l _) => some l
  | .componentIdle (.localPath l _) _ => some l
  | _ => none

/-- The locals that are collected from an expression. -/
def Expr.collected (e : Expr) : List LocalId :=
  e.walk.filterMap nodeLocal

/-- The locals that are read in an expression where no arm inserts them. -/
def Expr.skipped (e : Expr) : List LocalId :=
  e.walk.filterMap skippedLocal

namespace PropertyShape

def exprs : PropertyShape → List Expr
  | .implies ante cons => [ante, cons]
  | .impliesNext ante cons => [ante, cons]
  | .invariant cond => [cond]

end PropertyShape

def PropertyCheckSchema.exprs (schema : PropertyCheckSchema) : List Expr :=
  schema.shape.exprs ++ schema.temporals ++ schema.message.toList.flatten

def CoverCheckSchema.exprs (schema : CoverCheckSchema) : List Expr :=
  schema.cond :: schema.temporals

/-- The expressions of a callback that are visited. -/
def visitedExprs (prog : TbProgram) : Stmt → List Expr
  | .propertyCheck p => (prog.propertyChecks[p]?).toList.flatMap PropertyCheckSchema.exprs
  | .coverCheck c => (prog.coverChecks[c]?).toList.flatMap CoverCheckSchema.exprs
  | .cycleHandler h =>
      match prog.cycleHandlers[h]? with
      | some (.trigger trigger) => [trigger]
      | _ => []
  | _ => []

/-- The period of a periodic handler. -/
def periods (prog : TbProgram) : Stmt → List Expr
  | .cycleHandler h =>
      match prog.cycleHandlers[h]? with
      | some (.periodic period) => [period]
      | _ => []
  | _ => []

/-- The component on which a subscription is made. -/
def subscribedBase : Stmt → List LocalId
  | .methodHookSubscribe (.component base) _ => base.locals
  | .eventSubscribe (.component base) => base.locals
  | _ => []

/-- The channel of a subscription and the captures of a hook. -/
def subscribedLocals : Stmt → List LocalId
  | .methodHookSubscribe _ hookCaptures => hookCaptures
  | .eventSubscribe (.local l) => [l]
  | _ => []

/-- Everything that a callback reads. -/
def callbackReads (prog : TbProgram) (stmt : Stmt) : List LocalId :=
  (visitedExprs prog stmt ++ periods prog stmt).flatMap Expr.reads ++ subscribedLocals stmt ++
    subscribedBase stmt

/-- What it reads in a period, or as the base of a component where that is skipped. -/
def skippedReads (prog : TbProgram) (stmt : Stmt) : List LocalId :=
  (visitedExprs prog stmt).flatMap Expr.skipped ++ (periods prog stmt).flatMap Expr.reads ++
    subscribedBase stmt

/-- The event channel of an `emit`. -/
def emittedEvent : Stmt → List LocalId
  | .eventEmit l _ => [l]
  | _ => []

/-- What a statement reads elsewhere. -/
def collectedReads (prog : TbProgram) (stmt : Stmt) : List LocalId :=
  (visitedExprs prog stmt).flatMap Expr.collected ++ subscribedLocals stmt ++ emittedEvent stmt

/-! Expressions. -/

theorem readsAll_eq (exprs : List Expr) : readsAll exprs = exprs.flatMap Expr.reads := by
  induction exprs with
  | nil => rfl
  | cons e rest ih => rw [readsAll, ih, List.flatMap_cons]

theorem readsOption_eq (index : Option Expr) :
    readsOption index = index.toList.flatMap Expr.reads := by
  cases index <;> simp [readsOption]

theorem readsLane_eq (lane : Option (LaneIndex Expr)) :
    readsLane lane = (laneExpr lane).flatMap Expr.reads := by
  rcases lane with _ | ⟨n⟩ | ⟨index⟩ <;> simp [readsLane, readsIndex, laneExpr]

/-- The local of an expression is inserted or skipped; the others are those of its operands. -/
theorem mem_reads_children (e : Expr) (l : LocalId) :
    l ∈ e.reads ↔
      (nodeLocal e = some l ∨ skippedLocal e = some l) ∨ ∃ c ∈ e.children, l ∈ c.reads := by
  cases e with
  | componentField base | componentValue base | componentQueueQuery base =>
      cases base <;>
        simp [Expr.reads, nodeLocal, skippedLocal, Expr.children, ComponentBase.locals, eq_comm]
  | componentVecElement base index innerIndex =>
      cases base <;>
        simp [Expr.reads, nodeLocal, skippedLocal, Expr.children, ComponentBase.locals,
          readsOption_eq, eq_comm]
  | componentIdle base n =>
      cases base <;>
        simp [Expr.reads, nodeLocal, skippedLocal, Expr.children, ComponentBase.locals, eq_comm]
  | _ =>
      simp [Expr.reads, nodeLocal, skippedLocal, Expr.children, readsAll_eq, readsOption_eq,
        readsLane_eq, or_and_right, exists_or, eq_comm]

theorem walk_eq (e : Expr) : e.walk = e :: e.children.flatMap Expr.walk := by
  rw [Expr.walk]
  simp only [List.flatMap_subtype, List.unattach_attach]

theorem mem_walk {e x : Expr} : x ∈ e.walk ↔ x = e ∨ ∃ c ∈ e.children, x ∈ c.walk := by
  rw [walk_eq, List.mem_cons, List.mem_flatMap]

/-- What an expression reads is named by the expressions that the walk visits. -/
theorem mem_reads_iff (e : Expr) (l : LocalId) :
    l ∈ e.reads ↔ ∃ x ∈ e.walk, nodeLocal x = some l ∨ skippedLocal x = some l := by
  rw [mem_reads_children]
  constructor
  · rintro (hnode | ⟨c, hc, hl⟩)
    · exact ⟨e, mem_walk.mpr (Or.inl rfl), hnode⟩
    · have hsize := Expr.sizeOf_children hc
      obtain ⟨x, hx, hnode⟩ := (mem_reads_iff c l).mp hl
      exact ⟨x, mem_walk.mpr (Or.inr ⟨c, hc, hx⟩), hnode⟩
  · rintro ⟨x, hx, hnode⟩
    rcases mem_walk.mp hx with rfl | ⟨c, hc, hx⟩
    · exact Or.inl hnode
    · have hsize := Expr.sizeOf_children hc
      exact Or.inr ⟨c, hc, (mem_reads_iff c l).mpr ⟨x, hx, hnode⟩⟩
termination_by sizeOf e

theorem mem_reads {e : Expr} {l : LocalId} :
    l ∈ e.reads ↔ l ∈ e.collected ∨ l ∈ e.skipped := by
  rw [mem_reads_iff, Expr.collected, Expr.skipped, List.mem_filterMap, List.mem_filterMap,
    ← exists_or]
  exact exists_congr fun x => and_or_left

theorem mem_collectExprLocals {e : Expr} {locals : Finset LocalId} {l : LocalId} :
    l ∈ collectExprLocals e locals ↔ l ∈ locals ∨ l ∈ e.collected := by
  rw [collectExprLocals, Expr.collected]
  generalize e.walk = visited
  induction visited generalizing locals with
  | nil => simp
  | cons x visited ih =>
      rw [List.foldl_cons, ih, List.filterMap_cons]
      cases nodeLocal x with
      | none => rfl
      | some l' =>
          change l ∈ insert l' locals ∨ _ ↔ _ ∨ l ∈ l' :: _
          rw [Finset.mem_insert, List.mem_cons, or_assoc, or_left_comm]

theorem mem_collectExprs {exprs : List Expr} {locals : Finset LocalId} {l : LocalId} :
    l ∈ collectExprs exprs locals ↔ l ∈ locals ∨ l ∈ exprs.flatMap Expr.collected := by
  rw [collectExprs]
  induction exprs generalizing locals with
  | nil => simp
  | cons e exprs ih =>
      rw [List.foldl_cons, ih, mem_collectExprLocals, List.flatMap_cons, List.mem_append, or_assoc]

/-! Statements. -/

theorem collectShape_eq (shape : PropertyShape) (locals : Finset LocalId) :
    collectShape shape locals = collectExprs shape.exprs locals := by
  cases shape <;> rfl

theorem collectExprs_append (left right : List Expr) (locals : Finset LocalId) :
    collectExprs right (collectExprs left locals) = collectExprs (left ++ right) locals := by
  rw [collectExprs, collectExprs, collectExprs, List.foldl_append]

/-- One statement adds what is collected from its expressions and its subscription. -/
theorem mem_collectStmt {prog : TbProgram} {captures result : Finset LocalId} {stmt : Stmt}
    (h : collectStmt prog captures stmt = .ok result) {l : LocalId} :
    l ∈ result ↔ l ∈ captures ∨ l ∈ collectedReads prog stmt := by
  cases stmt with
  | propertyCheck p =>
      rw [collectStmt] at h
      split at h
      · exact nomatch h
      · next schema hschema =>
          obtain rfl := Except.ok.inj h
          have hexprs : visitedExprs prog (.propertyCheck p) = schema.exprs := by
            simp [visitedExprs, hschema]
          have hcollect : (match schema.message with
              | some message =>
                  collectExprs message
                    (collectExprs schema.temporals (collectShape schema.shape captures))
              | none => collectExprs schema.temporals (collectShape schema.shape captures)) =
              collectExprs schema.exprs captures := by
            rw [PropertyCheckSchema.exprs, collectShape_eq, collectExprs_append]
            cases schema.message with
            | none => simp
            | some message => simp [collectExprs_append]
          rw [hcollect, mem_collectExprs]
          simp [collectedReads, hexprs, subscribedLocals, emittedEvent]
  | coverCheck c =>
      rw [collectStmt] at h
      split at h
      · exact nomatch h
      · next schema hschema =>
          obtain rfl := Except.ok.inj h
          have hexprs : visitedExprs prog (.coverCheck c) = schema.exprs := by
            simp [visitedExprs, hschema]
          change l ∈ collectExprs schema.exprs captures ↔ _
          rw [mem_collectExprs]
          simp [collectedReads, hexprs, subscribedLocals, emittedEvent]
  | cycleHandler c =>
      rw [collectStmt] at h
      split at h
      · exact nomatch h
      · next trigger hkind =>
          obtain rfl := Except.ok.inj h
          rw [mem_collectExprLocals]
          simp [collectedReads, visitedExprs, hkind, subscribedLocals, emittedEvent]
      · next period hkind =>
          obtain rfl := Except.ok.inj h
          simp [collectedReads, visitedExprs, hkind, subscribedLocals, emittedEvent]
  | eventSubscribe event =>
      cases event <;>
        obtain rfl := Except.ok.inj h <;>
        simp [collectedReads, visitedExprs, subscribedLocals, emittedEvent, or_comm]
  | methodHookSubscribe target hookCaptures =>
      obtain rfl := Except.ok.inj h
      simp [collectedReads, visitedExprs, subscribedLocals, emittedEvent]
  | eventEmit event args =>
      obtain rfl := Except.ok.inj h
      simp [collectedReads, visitedExprs, subscribedLocals, emittedEvent, or_comm]
  | other =>
      obtain rfl := Except.ok.inj h
      simp [collectedReads, visitedExprs, subscribedLocals, emittedEvent]

theorem mem_foldlM {prog : TbProgram} {stmts : List Stmt} {captures result : Finset LocalId}
    (h : stmts.foldlM (collectStmt prog) captures = .ok result) {l : LocalId} :
    l ∈ result ↔ l ∈ captures ∨ ∃ stmt ∈ stmts, l ∈ collectedReads prog stmt := by
  induction stmts generalizing captures with
  | nil =>
      obtain rfl := Except.ok.inj h
      simp
  | cons stmt stmts ih =>
      rw [List.foldlM_cons] at h
      obtain ⟨next, hnext, hrest⟩ := bind_eq_ok.mp h
      rw [ih hrest, mem_collectStmt hnext, or_assoc]
      simp

/-- The captures of a function. -/
theorem mem_captures {prog : TbProgram} {function : TbFunction} {captures : Finset LocalId}
    (h : persistentCallbackCaptures prog function = .ok captures) {l : LocalId} :
    l ∈ captures ↔ (∃ stmt ∈ function.stmts, l ∈ collectedReads prog stmt) ∧
      l ∉ function.testbenchRecordLocals := by
  rw [persistentCallbackCaptures] at h
  obtain ⟨all, hall, h⟩ := bind_eq_ok.mp h
  dsimp only at h
  split at h
  · exact nomatch h
  · obtain rfl := Except.ok.inj h
    rw [Finset.mem_filter, mem_foldlM hall]
    simp

/-- What a callback reads is collected or skipped. -/
theorem mem_callbackReads {prog : TbProgram} {stmt : Stmt} {l : LocalId}
    (h : l ∈ callbackReads prog stmt) :
    l ∈ collectedReads prog stmt ∨ l ∈ skippedReads prog stmt := by
  simp only [callbackReads, collectedReads, skippedReads, List.flatMap_append, List.mem_append,
    List.mem_flatMap] at h ⊢
  rcases h with ((⟨e, he, hl⟩ | hperiod) | hsubscribed) | hbase
  · rcases mem_reads.mp hl with hcollected | hskipped
    · exact Or.inl (Or.inl (Or.inl ⟨e, he, hcollected⟩))
    · exact Or.inr (Or.inl (Or.inl ⟨e, he, hskipped⟩))
  · exact Or.inr (Or.inl (Or.inr hperiod))
  · exact Or.inl (Or.inl (Or.inr hsubscribed))
  · exact Or.inr (Or.inr hbase)

/-- The captures contain every local that a callback of the function reads exactly if none of
these stands for a record of the testbench and each one that is read in a period, or as the base
of a component where that is skipped, is collected at some other place. -/
theorem captures_contain_reads_iff (prog : TbProgram) (function : TbFunction)
    (captures : Finset LocalId)
    (h : persistentCallbackCaptures prog function = .ok captures) :
    (∀ stmt ∈ function.stmts, ∀ l ∈ callbackReads prog stmt, l ∈ captures) ↔
      ∀ stmt ∈ function.stmts, ∀ l ∈ callbackReads prog stmt,
        l ∉ function.testbenchRecordLocals ∧
          (l ∈ skippedReads prog stmt →
            ∃ stmt' ∈ function.stmts, l ∈ collectedReads prog stmt') := by
  constructor
  · intro hall stmt hstmt l hl
    obtain ⟨hcollected, hrecord⟩ := (mem_captures h).mp (hall stmt hstmt l hl)
    exact ⟨hrecord, fun _ => hcollected⟩
  · intro hall stmt hstmt l hl
    obtain ⟨hrecord, hskipped⟩ := hall stmt hstmt l hl
    refine (mem_captures h).mpr ⟨?_, hrecord⟩
    rcases mem_callbackReads hl with hcollected | hskip
    · exact ⟨stmt, hstmt, hcollected⟩
    · exact hskipped hskip

/-- A handler on `!%0` and a hook that captures `%0`. -/
def triggerHandler : TbProgram × TbFunction :=
  (⟨[], [], [.trigger (.unary (.local 0))]⟩,
    ⟨0, 1, [[.cycleHandler 0], [.methodHookSubscribe .transactor [0]]], []⟩)

theorem captures_contain_reads_iff_trigger :
    persistentCallbackCaptures triggerHandler.1 triggerHandler.2 = .ok {0} ∧
      ∀ stmt ∈ triggerHandler.2.stmts, ∀ l ∈ callbackReads triggerHandler.1 stmt,
        l ∈ ({0} : Finset LocalId) := by
  have hwalk : (Expr.unary (.local 0)).walk = [.unary (.local 0), .local 0] := by
    rw [walk_eq, Expr.children, List.flatMap_cons, List.flatMap_nil, walk_eq (.local 0)]
    rfl
  have hfold : triggerHandler.2.stmts.foldlM (collectStmt triggerHandler.1) ∅ = .ok {0} := by
    simp [triggerHandler, TbFunction.stmts, collectStmt, collectExprLocals, hwalk, nodeLocal,
      bind, Except.bind, pure, Except.pure]
  have hcaptures : persistentCallbackCaptures triggerHandler.1 triggerHandler.2 = .ok {0} := by
    rw [persistentCallbackCaptures, hfold]
    simp [bind, Except.bind, triggerHandler]
  refine ⟨hcaptures,
    (captures_contain_reads_iff triggerHandler.1 triggerHandler.2 {0} hcaptures).mpr ?_⟩
  intro stmt hstmt l hl
  refine ⟨List.not_mem_nil, fun hskipped => ?_⟩
  have hcases : stmt = .cycleHandler 0 ∨ stmt = .methodHookSubscribe .transactor [0] := by
    simpa [triggerHandler, TbFunction.stmts] using hstmt
  rcases hcases with rfl | rfl
  · simp [triggerHandler, skippedReads, visitedExprs, periods, subscribedBase, Expr.skipped,
      hwalk, skippedLocal] at hskipped
  · simp [skippedReads, visitedExprs, periods, subscribedBase] at hskipped

/-- A handler that runs every `%0` cycles. -/
def periodicHandler : TbProgram × TbFunction :=
  (⟨[], [], [.periodic (.local 0)]⟩, ⟨0, 1, [[.cycleHandler 0]], []⟩)

theorem periodicHandler_captures :
    persistentCallbackCaptures periodicHandler.1 periodicHandler.2 = .ok ∅ := by
  have hfold : periodicHandler.2.stmts.foldlM (collectStmt periodicHandler.1) ∅ = .ok ∅ := rfl
  rw [persistentCallbackCaptures, hfold]
  simp [bind, Except.bind]

/-- The local of the period is not captured. -/
theorem periodicHandler_not_captured :
    ¬ ∀ captures, persistentCallbackCaptures periodicHandler.1 periodicHandler.2 = .ok captures →
      ∀ stmt ∈ periodicHandler.2.stmts, ∀ l ∈ callbackReads periodicHandler.1 stmt,
        l ∈ captures := by
  intro hall
  have hread : (0 : LocalId) ∈ callbackReads periodicHandler.1 (.cycleHandler 0) :=
    List.mem_append_left _ (List.mem_append_left _ List.mem_cons_self)
  exact absurd (hall ∅ periodicHandler_captures (.cycleHandler 0) List.mem_cons_self 0 hread)
    (Finset.notMem_empty 0)

end Harc.CallbackCaptures
