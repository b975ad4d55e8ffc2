import Harc.PlacementCheck

/-!
Which access classes a block uses, and which of them the check of its capabilities sees.
-/

namespace Harc.PlacementCheck

open Harc.TestbenchIr

/-! ### Uses -/

namespace Expr

/-- The class of the port that the expression itself reads. -/
def access : Expr → Option PortAccess
  | .port ref => some ref.access
  | .portSnapshotLane ref _ => some ref.access
  | _ => none

/-- The expression or one that it evaluates reads a port of the class. -/
inductive Uses (access : PortAccess) : Expr → Prop where
  | here {e : Expr} (h : e.access = some access) : Uses access e
  | child {e child : Expr} (hmem : child ∈ e.children) (h : Uses access child) : Uses access e

theorem walk_eq (e : Expr) : e.walk = e :: e.children.flatMap walk := by
  rw [walk]
  simp

theorem uses_iff_walk (access : PortAccess) (e : Expr) :
    Uses access e ↔ ∃ sub ∈ e.walk, sub.access = some access := by
  constructor
  · intro h
    induction h with
    | @here e h =>
        refine ⟨e, ?_, h⟩
        rw [walk_eq]
        exact List.mem_cons_self
    | @child e child hmem _ ih =>
        obtain ⟨sub, hsub, haccess⟩ := ih
        refine ⟨sub, ?_, haccess⟩
        rw [walk_eq]
        exact List.mem_cons_of_mem _ (List.mem_flatMap.mpr ⟨child, hmem, hsub⟩)
  · rintro ⟨sub, hsub, haccess⟩
    induction e using walk.induct with
    | case1 e ih =>
        rw [walk_eq] at hsub
        rcases List.mem_cons.mp hsub with rfl | hsub
        · exact .here haccess
        · obtain ⟨child, hchild, hsub⟩ := List.mem_flatMap.mp hsub
          exact .child hchild (ih ⟨child, hchild⟩ hsub)

end Expr

def UsesAny (access : PortAccess) (es : List Expr) : Prop := ∃ e ∈ es, Expr.Uses access e

section UsesAny

variable {access : PortAccess}

@[simp] theorem usesAny_nil : ¬ UsesAny access [] := by
  rintro ⟨e, he, -⟩
  exact absurd he List.not_mem_nil

@[simp] theorem usesAny_cons {e : Expr} {es : List Expr} :
    UsesAny access (e :: es) ↔ Expr.Uses access e ∨ UsesAny access es := by
  simp [UsesAny]

@[simp] theorem usesAny_append {es es' : List Expr} :
    UsesAny access (es ++ es') ↔ UsesAny access es ∨ UsesAny access es' := by
  simp [UsesAny, or_and_right, exists_or]

end UsesAny

/-! ### Operands -/

def fmtExprs (args : FmtArgs Expr) : List Expr := args.args.map (·.expr)

/-- `try_visit_stmt_exprs` -/
def Stmt.exprs : Stmt → List Expr
  | .assign e => [e]
  | .recordWriteCb value => [value]
  | .tbFieldWrite value => [value]
  | .tbQueuePush value => [value]
  | .transactorStateWrite value => [value]
  | .transactorStateQueuePush value => [value]
  | .componentFieldWrite value => [value]
  | .componentQueuePush value => [value]
  | .seqPush value => [value]
  | .dutWrite port value => port.laneExpr ++ [value]
  | .dutRead port => port.laneExpr
  | .probeRelease port => port.laneExpr
  | .recordRead addr => [addr]
  | .recordWrite addr value => [addr, value]
  | .recordFieldWrite midIndices index value => midIndices ++ index.toList ++ [value]
  | .transactorStateRecordFieldWrite midIndices index value =>
      midIndices ++ index.toList ++ [value]
  | .tbFieldVecElementWrite index innerIndex value => index :: innerIndex.toList ++ [value]
  | .localVecElementWrite index innerIndex value => index :: innerIndex.toList ++ [value]
  | .componentVecElementWrite index innerIndex value => index :: innerIndex.toList ++ [value]
  | .log args => fmtExprs args
  | .assertCheck cond onFail => cond :: fmtExprs onFail
  | .assumeCheck cond onFail => cond :: fmtExprs onFail
  | .failDiag guard args => guard.toList ++ fmtExprs args
  | .scoreboardOp (.queuePush value) => [value]
  | .scoreboardOp (.scalarWrite value) => [value]
  | .scoreboardOp .queuePop => []
  | .componentEmit args => args
  | .eventEmit args => args
  | .componentCall args => args
  | .testbenchCall args => args
  | .transactorCall call => [call]
  | .transactorSelfCall call => [call]
  | .helperCall call => [call]
  | .tlmFork args => args
  | .tlmJoinAll pending => pending.flatten
  | _ => []

def PropertyShape.exprs : PropertyShape → List Expr
  | .implies ante cons => [ante, cons]
  | .impliesNext ante cons => [ante, cons]
  | .invariant cond => [cond]

def PropertyCheckSchema.exprs (schema : PropertyCheckSchema) : List Expr :=
  schema.shape.exprs ++ schema.temporals ++ schema.message.toList.flatMap fmtExprs

def CoverCheckSchema.exprs (schema : CoverCheckSchema) : List Expr := schema.cond :: schema.temporals

def CycleHandlerKind.exprs : CycleHandlerKind → List Expr
  | .trigger cond => [cond]
  | .periodic cycles => [cycles]

/-- The expressions of a check or handler that the statement registers. -/
def Stmt.registered (prog : TbProgram) : Stmt → List Expr
  | .propertyCheck id => prog.propertyChecks[id]?.toList.flatMap (·.exprs)
  | .coverCheck id => prog.coverChecks[id]?.toList.flatMap (·.exprs)
  | .cycleHandler id => prog.cycleHandlers[id]?.toList.flatMap (·.exprs)
  | _ => []

/-- The class of the port of a raw pin statement. -/
def Stmt.pin : Stmt → Option PortAccess
  | .dutWrite port _ => some port.access
  | .dutRead port => some port.access
  | .probeRelease port => some port.access
  | _ => none

/-- `try_visit_terminator_exprs` -/
def terminatorExprs : Terminator Expr → List Expr
  | .branch cond _ _ => [cond]
  | .waitCycles cycles _ _ => [cycles]
  | .waitCyclesSync cycles _ => [cycles]
  | .waitUntil preds _ _ => preds.map PredSrc.expr
  | .waitUntilTimeout preds _ cycles _ _ => preds.map PredSrc.expr ++ [cycles]
  | .fatal args => fmtExprs args
  | _ => []

/-- The block uses the class: at a pin statement or in an expression that it evaluates. -/
def BlockUses (prog : TbProgram) (block : BasicBlock Stmt Expr) (access : PortAccess) : Prop :=
  (∃ stmt ∈ block.stmts, stmt.pin = some access ∨ UsesAny access (stmt.exprs ++ stmt.registered prog)) ∨
    UsesAny access (terminatorExprs block.terminator)

/-- The lane indices of raw pin statements and the arguments of events. -/
def Stmt.overlooked : Stmt → List Expr
  | .dutWrite port _ => port.laneExpr
  | .dutRead port => port.laneExpr
  | .probeRelease port => port.laneExpr
  | .eventEmit args => args
  | _ => []

/-- The operands of a statement without those. -/
def Stmt.examined (prog : TbProgram) : Stmt → List Expr
  | .dutWrite _ value => [value]
  | .dutRead _ => []
  | .probeRelease _ => []
  | .eventEmit _ => []
  | stmt => stmt.exprs ++ stmt.registered prog

theorem usesAny_operands (prog : TbProgram) (access : PortAccess) (stmt : Stmt) :
    UsesAny access (stmt.exprs ++ stmt.registered prog) ↔
      UsesAny access stmt.overlooked ∨ UsesAny access (stmt.examined prog) := by
  cases stmt <;> simp [Stmt.exprs, Stmt.registered, Stmt.overlooked, Stmt.examined]

/-! ### What the features see -/

namespace BlockFeatures

variable {access : PortAccess} (feat : BlockFeatures)

@[simp] theorem mem_touch {other : PortAccess} :
    access ∈ (feat.touch other).accesses ↔ access ∈ feat.accesses ∨ access = other := by
  unfold touch
  split
  · rename_i hmem
    refine ⟨Or.inl, ?_⟩
    rintro (h | rfl)
    · exact h
    · exact hmem
  · simp

@[simp] theorem mem_work : access ∈ feat.work.accesses ↔ access ∈ feat.accesses := Iff.rfl

@[simp] theorem mem_pin {port : PortRef Expr} :
    access ∈ (feat.pin port).accesses ↔ access ∈ feat.accesses ∨ access = port.access :=
  mem_touch _

theorem mem_visit {e : Expr} :
    access ∈ (feat.visit e).accesses ↔ access ∈ feat.accesses ∨ e.access = some access := by
  cases e with
  | call target args => cases target <;> simp [visit, Expr.access]
  | regRead readsBus => cases readsBus <;> simp [visit, Expr.access]
  | _ => simp [visit, Expr.access, eq_comm]

@[simp] theorem mem_visitExpr {e : Expr} :
    access ∈ (feat.visitExpr e).accesses ↔ access ∈ feat.accesses ∨ Expr.Uses access e := by
  have hfold : ∀ (subs : List Expr) (feat : BlockFeatures),
      access ∈ (subs.foldl visit feat).accesses ↔
        access ∈ feat.accesses ∨ ∃ sub ∈ subs, sub.access = some access := by
    intro subs
    induction subs with
    | nil => simp
    | cons sub subs ih =>
        intro feat
        rw [List.foldl_cons, ih, mem_visit]
        simp [or_assoc]
  rw [visitExpr, hfold, Expr.uses_iff_walk]

@[simp] theorem mem_visitExprs {es : List Expr} :
    access ∈ (feat.visitExprs es).accesses ↔ access ∈ feat.accesses ∨ UsesAny access es := by
  unfold visitExprs
  induction es generalizing feat with
  | nil => simp
  | cons e es ih =>
      rw [List.foldl_cons, ih, mem_visitExpr, usesAny_cons]
      exact or_assoc

@[simp] theorem mem_visitFmt {args : FmtArgs Expr} :
    access ∈ (feat.visitFmt args).accesses ↔
      access ∈ feat.accesses ∨ UsesAny access (fmtExprs args) :=
  mem_visitExprs feat

@[simp] theorem mem_visitProperty {schema : PropertyCheckSchema} :
    access ∈ (feat.visitProperty schema).accesses ↔
      access ∈ feat.accesses ∨ UsesAny access schema.exprs := by
  obtain ⟨shape, temporals, message⟩ := schema
  cases shape <;> cases message <;>
    simp [visitProperty, PropertyCheckSchema.exprs, PropertyShape.exprs, or_assoc]

@[simp] theorem mem_visitCover {schema : CoverCheckSchema} :
    access ∈ (feat.visitCover schema).accesses ↔
      access ∈ feat.accesses ∨ UsesAny access schema.exprs := by
  simp [visitCover, CoverCheckSchema.exprs, or_assoc]

@[simp] theorem mem_visitHandler {kind : CycleHandlerKind} :
    access ∈ (feat.visitHandler kind).accesses ↔
      access ∈ feat.accesses ∨ UsesAny access kind.exprs := by
  cases kind <;> simp [visitHandler, CycleHandlerKind.exprs]

/-- The classes that a statement adds: its own port and those of its examined operands. -/
theorem mem_visitStmt (prog : TbProgram) {stmt : Stmt} :
    access ∈ (feat.visitStmt prog stmt).accesses ↔
      access ∈ feat.accesses ∨ stmt.pin = some access ∨ UsesAny access (stmt.examined prog) := by
  cases stmt with
  | propertyCheck id =>
      cases h : prog.propertyChecks[id]? <;>
        simp [visitStmt, Stmt.pin, Stmt.examined, Stmt.exprs, Stmt.registered, h]
  | coverCheck id =>
      cases h : prog.coverChecks[id]? <;>
        simp [visitStmt, Stmt.pin, Stmt.examined, Stmt.exprs, Stmt.registered, h]
  | cycleHandler id =>
      cases h : prog.cycleHandlers[id]? <;>
        simp [visitStmt, Stmt.pin, Stmt.examined, Stmt.exprs, Stmt.registered, h]
  | scoreboardOp op =>
      cases op <;> simp [visitStmt, Stmt.pin, Stmt.examined, Stmt.exprs, Stmt.registered]
  | _ =>
      simp [visitStmt, Stmt.pin, Stmt.examined, Stmt.exprs, Stmt.registered, or_assoc, eq_comm]

theorem mem_visitTerminator {terminator : Terminator Expr} :
    access ∈ (feat.visitTerminator terminator).accesses ↔
      access ∈ feat.accesses ∨ UsesAny access (terminatorExprs terminator) := by
  cases terminator <;> simp [visitTerminator, terminatorExprs, or_assoc]

end BlockFeatures

/-- The classes in the features of a block. -/
theorem mem_blockFeatures (prog : TbProgram) (block : BasicBlock Stmt Expr) (access : PortAccess) :
    access ∈ (blockFeatures prog block).accesses ↔
      (∃ stmt ∈ block.stmts, stmt.pin = some access ∨ UsesAny access (stmt.examined prog)) ∨
        UsesAny access (terminatorExprs block.terminator) := by
  have hfold : ∀ (stmts : List Stmt) (feat : BlockFeatures),
      access ∈ (stmts.foldl (BlockFeatures.visitStmt prog) feat).accesses ↔
        access ∈ feat.accesses ∨
          ∃ stmt ∈ stmts, stmt.pin = some access ∨ UsesAny access (stmt.examined prog) := by
    intro stmts
    induction stmts with
    | nil => simp
    | cons stmt stmts ih =>
        intro feat
        rw [List.foldl_cons, ih, BlockFeatures.mem_visitStmt]
        simp [or_assoc]
  rw [blockFeatures, BlockFeatures.mem_visitTerminator, hfold]
  simp [BlockFeatures.empty]

/-! ### Completeness of the check -/

/-- Without a diagnostic of the block, the profile reaches every class that the block uses. -/
def CheckComplete (prog : TbProgram) (block : BasicBlock Stmt Expr) : Prop :=
  ∀ (profile : TargetProfile) (func : TbFunction Stmt Expr) (id : BlockId),
    (checkBlock prog profile func block id).diagnostics = [] →
      ∀ access, BlockUses prog block access → profile.reaches access = true

theorem blockUses_iff (prog : TbProgram) (block : BasicBlock Stmt Expr) (access : PortAccess) :
    BlockUses prog block access ↔
      (∃ stmt ∈ block.stmts, UsesAny access stmt.overlooked) ∨
        access ∈ (blockFeatures prog block).accesses := by
  rw [mem_blockFeatures, BlockUses]
  simp only [usesAny_operands]
  constructor
  · rintro (⟨stmt, hstmt, hpin | hover | hexamined⟩ | hterminator)
    · exact .inr (.inl ⟨stmt, hstmt, .inl hpin⟩)
    · exact .inl ⟨stmt, hstmt, hover⟩
    · exact .inr (.inl ⟨stmt, hstmt, .inr hexamined⟩)
    · exact .inr (.inr hterminator)
  · rintro (⟨stmt, hstmt, hover⟩ | ⟨stmt, hstmt, hpin | hexamined⟩ | hterminator)
    · exact .inl ⟨stmt, hstmt, .inr (.inl hover)⟩
    · exact .inl ⟨stmt, hstmt, .inl hpin⟩
    · exact .inl ⟨stmt, hstmt, .inr (.inr hexamined)⟩
    · exact .inr hterminator

theorem reaches_of_no_diagnostic {prog : TbProgram} {profile : TargetProfile}
    {func : TbFunction Stmt Expr} {block : BasicBlock Stmt Expr} {id : BlockId}
    (h : (checkBlock prog profile func block id).diagnostics = []) :
    ∀ access ∈ (blockFeatures prog block).accesses, profile.reaches access = true := by
  intro access hmem
  simp only [checkBlock, capabilityCheck, List.map_eq_nil_iff, List.append_eq_nil_iff,
    List.filter_eq_nil_iff] at h
  simpa using h.1.1 access hmem

/-- A profile that can do everything but reach one class. -/
def blindTo (access : PortAccess) : TargetProfile :=
  { TargetProfile.singleSite with
    reachPort := access ≠ .port
    reachProbe := access ≠ .probe
    reachForce := access ≠ .force }

theorem blindTo_reaches (access other : PortAccess) :
    (blindTo access).reaches other = true ↔ access ≠ other := by
  cases other <;> simp [blindTo, TargetProfile.reaches]

theorem blindTo_no_diagnostic {prog : TbProgram} {block : BasicBlock Stmt Expr} {access : PortAccess}
    (h : access ∉ (blockFeatures prog block).accesses) (func : TbFunction Stmt Expr) (id : BlockId) :
    (checkBlock prog (blindTo access) func block id).diagnostics = [] := by
  have hreaches : ((blockFeatures prog block).accesses.filter fun other =>
      !(blindTo access).reaches other) = [] := by
    rw [List.filter_eq_nil_iff]
    intro other hother
    have hne : access ≠ other := by
      rintro rfl
      exact h hother
    simp [(blindTo_reaches access other).mpr hne]
  have hlocked : (blindTo access).tier1CycleLocked = true := rfl
  have hsolves : (blindTo access).solveHostSync = true := rfl
  simp [checkBlock, capabilityCheck, hreaches, hlocked, hsolves]

/-- The check is complete exactly on the blocks whose lane indices at raw pin statements and event
arguments use no class that the rest of the block does not use too. -/
theorem checkComplete_iff (prog : TbProgram) (block : BasicBlock Stmt Expr) :
    CheckComplete prog block ↔
      ∀ access, (∃ stmt ∈ block.stmts, UsesAny access stmt.overlooked) →
        (∃ stmt ∈ block.stmts, stmt.pin = some access ∨ UsesAny access (stmt.examined prog)) ∨
          UsesAny access (terminatorExprs block.terminator) := by
  constructor
  · intro hcomplete access hover
    rw [← mem_blockFeatures]
    by_contra hnot
    have hreaches := hcomplete (blindTo access) ⟨0, "", .testBody, [], 0, []⟩ 0
      (blindTo_no_diagnostic hnot _ _) access ((blockUses_iff prog block access).mpr (.inl hover))
    exact (blindTo_reaches access access).mp hreaches rfl
  · intro h profile func id hdiagnostics access huses
    apply reaches_of_no_diagnostic hdiagnostics
    rcases (blockUses_iff prog block access).mp huses with hover | hmem
    · exact (mem_blockFeatures prog block access).mpr (h access hover)
    · exact hmem

def probeRead : Expr := .port ⟨.probe, none⟩

/-- A block that reads `dut.mem[dut.probe]`, a lane of a port that a probe selects. -/
def indexedBlock : BasicBlock Stmt Expr := ⟨[.dutRead ⟨.port, some (.var probeRead)⟩], .ret⟩

theorem indexedBlock_unchecked :
    ¬ CheckComplete ⟨[], [], [], []⟩ indexedBlock ∧
    (checkBlock ⟨[], [], [], []⟩ .splitStrict ⟨0, "run", .testBody, [indexedBlock], 0, []⟩
      indexedBlock 0).diagnostics = [] ∧
    BlockUses ⟨[], [], [], []⟩ indexedBlock .probe ∧
    TargetProfile.splitStrict.reaches .probe = false := by
  have hclean : (checkBlock ⟨[], [], [], []⟩ .splitStrict
      ⟨0, "run", .testBody, [indexedBlock], 0, []⟩ indexedBlock 0).diagnostics = [] := by
    rfl
  have huses : BlockUses ⟨[], [], [], []⟩ indexedBlock .probe :=
    .inl ⟨_, List.mem_singleton_self _, .inr ⟨probeRead, List.mem_cons_self, .here rfl⟩⟩
  refine ⟨fun hcomplete => ?_, hclean, huses, rfl⟩
  exact absurd (hcomplete .splitStrict _ 0 hclean .probe huses) (by decide)

end Harc.PlacementCheck
