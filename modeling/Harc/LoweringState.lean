import Harc.ExpansionResult
import Harc.TypedLowering

/-!
What typed lowering does to its state, whatever it lowers: the loop variables are as
before, numbers of loop variables are not used again, and an error stays.
-/

namespace Harc.LoweringState

open Harc.Ast
open Harc.TypedConstraint
open Harc.RelationExpansion
open Harc.ExpansionResult
open Harc.ConstraintSchema
open Harc.TypedLowering

/-! ### Loop variables -/

@[simp] theorem get_insert (locals : LocalMap) (name n : String) (entry : Nat × CType) :
    (locals.insert name entry).get n = if name = n then some entry else locals.get n := by
  by_cases h : name = n <;> simp [LocalMap.insert, LocalMap.get, h]

theorem get_remove (locals : LocalMap) (name n : String) :
    (locals.remove name).get n = if n = name then none else locals.get n := by
  induction locals with
  | nil => simp [LocalMap.remove, LocalMap.get]
  | cons entry locals ih =>
      obtain ⟨key, value⟩ := entry
      simp only [LocalMap.remove, LocalMap.get] at ih ⊢
      by_cases hkey : key = name
      · subst hkey
        by_cases hn : n = key
        · simp [hn]
        · have hne : (key == n) = false := by simpa using Ne.symm hn
          simpa [hn, hne] using ih
      · have hkeep : (key != name) = true := by simpa using hkey
        simp only [List.filter_cons, hkeep, if_true]
        by_cases hn : key = n
        · subst hn
          simp [hkey]
        · have hne : (key == n) = false := by simpa using hn
          simpa [hne] using ih

/-- The value that a loop variable hides is put back. -/
theorem get_restoreLocal {before after : LocalMap} {var : String} {entry : Nat × CType}
    (h : ∀ n, after.get n = (before.insert var entry).get n) (n : String) :
    (restoreLocal before after var).get n = before.get n := by
  unfold restoreLocal
  cases hold : before.get var with
  | some old =>
      rw [get_insert, h, get_insert]
      by_cases hn : var = n
      · rw [if_pos hn, ← hn, hold]
      · rw [if_neg hn, if_neg hn]
  | none =>
      rw [get_remove, h, get_insert]
      by_cases hn : n = var
      · rw [if_pos hn, hn, hold]
      · rw [if_neg hn, if_neg (Ne.symm hn)]

/-! ### Relations between states -/

/-- A relation between the state before and the state after, kept by everything that the
lowering does to its state. -/
structure StepRelation (R : LowerState → LowerState → Prop) : Prop where
  refl : ∀ st, R st st
  trans : ∀ {st₁ st₂ st₃}, R st₁ st₂ → R st₂ st₃ → R st₁ st₃
  recordError : ∀ st e, R st (st.recordError e)
  nextLocal : ∀ st : LowerState, R st { st with nextLocalId := st.nextLocalId + 1 }
  leaveLoop : ∀ {st st₁ : LowerState} {var elem},
    R (st.enterLoop var elem) st₁ → R st (st.leaveLoop st₁ var)
  mint : ∀ st, R st (mintClauseName st).2
  expandCall : ∀ rels name args (st : LowerState), R st
    { st with expand :=
        (expandTopLevelRelationCall rels relationExpansionMaxDepth [] name args st.expand).2 }
  expandClause : ∀ rels e (st : LowerState), R st
    { st with expand := (expandTopLevelClause rels e st.expand).2 }

section Expressions

variable {R : LowerState → LowerState → Prop} (h : StepRelation R)

include h

theorem report_steps (st : LowerState) (e : Option LowerError) : R st (st.report e) := by
  cases e with
  | none => exact h.refl st
  | some e => exact h.recordError st e

theorem adaptItems_steps (elem : CType) (es : List CTypedExpr) :
    ∀ st : LowerState, R st (adaptItems elem es st).2 := by
  induction es with
  | nil => exact h.refl
  | cons e es ih =>
      intro st
      exact h.trans (report_steps h st _) (ih _)

variable (ctx : LowerCtx)
  {onCall : String → List CallArg → LowerState → CTypedExpr × LowerState}

theorem lowerIdent_steps (name : String) (st : LowerState) :
    R st (lowerIdent ctx name st).2 := by
  unfold lowerIdent
  split
  · exact h.refl st
  · split
    · exact h.refl st
    · split
      · exact h.refl st
      · split
        · exact h.refl st
        · exact h.recordError st _

theorem lowerFieldAccess_steps (target : Expr) (name : String) (st : LowerState) :
    R st (lowerFieldAccess ctx target name st).2 := by
  unfold lowerFieldAccess
  split
  · exact h.recordError st _
  · dsimp only
    split
    · exact h.refl st
    · split
      · exact h.refl st
      · exact h.recordError st _

mutual

theorem lowerExpr_steps (honCall : ∀ name args st, R st (onCall name args st).2) :
    ∀ (hint : Option CType) (e : Expr) (st : LowerState),
    R st (lowerExpr ctx onCall hint e st).2
  | hint, .paren inner, st => by
      rw [lowerExpr]
      exact lowerExpr_steps honCall none inner st
  | hint, .int text, st => by
      rw [lowerExpr]
      split
      · exact h.refl st
      · exact h.recordError st _
  | hint, .ident name, st => by
      rw [lowerExpr]
      exact lowerIdent_steps h ctx name st
  | hint, .field target name, st => by
      rw [lowerExpr]
      exact lowerFieldAccess_steps h ctx target name st
  | hint, .unary op expr, st => by
      rw [lowerExpr]
      exact h.trans (lowerExpr_steps honCall none expr st) (report_steps h _ _)
  | hint, .binary op lhs rhs, st => by
      rw [lowerExpr]
      split
      · exact h.trans (h.trans (lowerExpr_steps honCall none lhs st)
          (lowerExpr_steps honCall _ rhs _)) (report_steps h _ _)
      · split
        · exact h.recordError st _
        · have hoperands := h.trans (lowerExpr_steps honCall none lhs st)
            (lowerExpr_steps honCall none rhs _)
          exact h.trans (h.trans hoperands (report_steps h _ _)) (report_steps h _ _)
  | hint, .membership lhs rhs, st => by
      rw [lowerExpr]
      exact h.trans (h.trans (lowerExpr_steps honCall none lhs st)
        (lowerExpr_steps honCall _ rhs _)) (report_steps h _ _)
  | hint, .rangeLit lo hi, st => by
      rw [lowerExpr]
      exact h.trans (lowerBound_steps honCall hint lo st) (lowerBound_steps honCall hint hi _)
  | hint, .setLit items, st => by
      rw [lowerExpr]
      have hitems := lowerItems_steps honCall hint items st
      cases hint with
      | some elem => exact hitems
      | none =>
          dsimp only [finishSetLit, finishSet]
          split
          · exact h.trans hitems (adaptItems_steps h _ _ _)
          · exact hitems
  | hint, .call callee args, st => by
      cases callee with
      | field target name =>
          rw [lowerExpr]
          have hoperands := h.trans (lowerExpr_steps honCall none target st)
            (lowerArgs_steps honCall args _)
          exact h.trans hoperands (report_steps h _ _)
      | ident name =>
          rw [lowerExpr]
          exact honCall name args st
      | _ =>
          simp only [lowerExpr]
          exact h.recordError st _
  | hint, .forEachConstraint var iter body, st => by
      rw [lowerExpr]
      have hiter := lowerExpr_steps honCall none iter st
      dsimp only
      split
      · exact h.trans (h.trans hiter (h.recordError _ _)) (h.nextLocal _)
      · exact h.trans hiter (h.leaveLoop (lowerClauses_steps honCall body _))
  | hint, .bool _, st => by
      rw [lowerExpr]
      exact h.refl st
  | hint, .string _, st | hint, .number _, st | hint, .implicitSelf, st | hint, .index _ _, st
  | hint, .bitSlice _ _ _, st | hint, .cast _ _, st | hint, .ternary _ _ _, st
  | hint, .other _, st => by
      simp only [lowerExpr]
      exact h.recordError st _

theorem lowerItems_steps (honCall : ∀ name args st, R st (onCall name args st).2) :
    ∀ (hint : Option CType) (es : List Expr) (st : LowerState),
    R st (lowerItems ctx onCall hint es st).2
  | _, [], st => h.refl st
  | hint, e :: es, st => by
      rw [lowerItems]
      exact h.trans (h.trans (lowerExpr_steps honCall none e st) (report_steps h _ _))
        (lowerItems_steps honCall hint es _)

theorem lowerBound_steps (honCall : ∀ name args st, R st (onCall name args st).2) :
    ∀ (hint : Option CType) (b : Option Expr) (st : LowerState),
    R st (lowerBound ctx onCall hint b st).2
  | _, none, st => h.refl st
  | hint, some e, st => by
      rw [lowerBound]
      exact h.trans (lowerExpr_steps honCall none e st) (report_steps h _ _)

theorem lowerArgs_steps (honCall : ∀ name args st, R st (onCall name args st).2) :
    ∀ (args : List CallArg) (st : LowerState), R st (lowerArgs ctx onCall args st).2
  | [], st => h.refl st
  | .expr value :: args, st => by
      rw [lowerArgs]
      exact h.trans (lowerExpr_steps honCall none value st) (lowerArgs_steps honCall args _)
  | .named _ value :: args, st => by
      rw [lowerArgs]
      exact h.trans (lowerExpr_steps honCall none value st) (lowerArgs_steps honCall args _)

theorem lowerClauses_steps (honCall : ∀ name args st, R st (onCall name args st).2) :
    ∀ (es : List Expr) (st : LowerState), R st (lowerClauses ctx onCall es st).2
  | [], st => h.refl st
  | e :: es, st => by
      rw [lowerClauses]
      exact h.trans (h.trans (lowerExpr_steps honCall none e st) (report_steps h _ _))
        (lowerClauses_steps honCall es _)

end

end Expressions

/-- Calls by name are lowered in steps of the relation too. -/
structure CallSteps (ctx : LowerCtx) (fuel : Nat) (R : LowerState → LowerState → Prop) : Prop
    extends StepRelation R where
  onCall : ∀ name args st, R st (lowerCall ctx fuel name args st).2

section Problems

variable {R : LowerState → LowerState → Prop} {ctx : LowerCtx} {fuel : Nat}
  (h : CallSteps ctx fuel R)

include h

theorem lowerTopClause_steps (e : Expr) (st : LowerState) :
    R st (lowerTopClause ctx fuel e st).2 :=
  h.trans (lowerExpr_steps h.toStepRelation ctx h.onCall none e st)
    (report_steps h.toStepRelation _ _)

theorem lowerExpanded_steps (guard : Option CTypedExpr) (es : List Expr) :
    ∀ st : LowerState, R st (lowerExpanded ctx fuel guard es st).2 := by
  induction es with
  | nil => exact h.refl
  | cons e es ih =>
      intro st
      rw [lowerExpanded]
      split
      · exact h.refl st
      · exact h.trans (h.trans (lowerTopClause_steps h e st) (h.mint _)) (ih _)

theorem lowerConstraint_steps (guard : Option CTypedExpr) (e : Expr) (st : LowerState) :
    R st (lowerConstraint ctx fuel guard e st).2 :=
  h.trans (h.expandClause ctx.schemas.relations e st)
    (lowerExpanded_steps h guard _ _)

theorem lowerKeeps_steps (guard : Option CTypedExpr) (es : List Expr) :
    ∀ st : LowerState, R st (lowerKeeps ctx fuel guard es st).2 := by
  induction es with
  | nil => exact h.refl
  | cons e es ih =>
      intro st
      rw [lowerKeeps]
      split
      · exact h.refl st
      · exact h.trans (lowerConstraint_steps h guard e st) (ih _)

theorem solveOrderFieldPath_steps (e : Expr) (st : LowerState) :
    R st (solveOrderFieldPath ctx e st).2 := by
  unfold solveOrderFieldPath
  split
  · exact h.refl st
  · split
    · exact h.refl st
    · split
      · exact h.refl st
      · exact h.recordError st _

theorem solveOrderFields_steps (es : List Expr) :
    ∀ st : LowerState, R st (solveOrderFields ctx es st).2 := by
  induction es with
  | nil => exact h.refl
  | cons e es ih =>
      intro st
      have hpath := solveOrderFieldPath_steps h e st
      rw [solveOrderFields]
      dsimp only
      split
      · exact h.trans hpath (ih _)
      · exact h.trans (h.trans hpath (h.recordError _ _)) (ih _)

theorem mergeSolveOrder_steps (args : List Expr) (order : Option (List FieldPath))
    (st : LowerState) : R st (mergeSolveOrder ctx args order st).2 := by
  unfold mergeSolveOrder
  split
  · exact h.recordError st _
  · exact solveOrderFields_steps h args st

theorem lowerBodyItem_steps (item : BodyItem) (out : Lowered) (st : LowerState) :
    R st (lowerBodyItem ctx fuel item out st).2 := by
  cases item with
  | solveOrder args => exact mergeSolveOrder_steps h args out.solveOrder st
  | soft weight e =>
      exact h.trans (report_steps h.toStepRelation st _) (lowerConstraint_steps h none e _)
  | clause e => exact lowerConstraint_steps h none e st

theorem lowerBody_steps (items : List BodyItem) :
    ∀ (out : Lowered) (st : LowerState), R st (lowerBody ctx fuel items out st).2 := by
  induction items with
  | nil => exact fun _ => h.refl
  | cons item items ih =>
      intro out st
      rw [lowerBody]
      split
      · exact h.refl st
      · exact h.trans (lowerBodyItem_steps h item out st) (ih _ _)

theorem lowerRangeAttr_steps (field : TxnField) (ty : CType) (guard : Option CTypedExpr)
    (lo hi : Expr) (st : LowerState) :
    R st (lowerRangeAttr ctx fuel field ty guard lo hi st).2 := by
  have hbounds := h.trans (lowerExpr_steps h.toStepRelation ctx h.onCall none lo st)
    (lowerExpr_steps h.toStepRelation ctx h.onCall none hi _)
  exact h.trans (h.trans (h.trans hbounds (report_steps h.toStepRelation _ _))
    (report_steps h.toStepRelation _ _)) (h.mint _)

theorem lowerAttrs_steps (field : TxnField) (ty : CType) (guard : Option CTypedExpr)
    (attrs : List FieldAttr) :
    ∀ st : LowerState, R st (lowerAttrs ctx fuel field ty guard attrs st).2 := by
  induction attrs with
  | nil => exact h.refl
  | cons attr attrs ih =>
      intro st
      rw [lowerAttrs]
      split
      · exact ih st
      · split
        · exact h.trans (lowerRangeAttr_steps h field ty guard _ _ st) (ih _)
        · exact h.trans (h.recordError st _) (ih _)

theorem lowerFieldAttrConstraints_steps (field : TxnField) (guard : Option CTypedExpr)
    (st : LowerState) : R st (lowerFieldAttrConstraints ctx fuel field guard st).2 := by
  unfold lowerFieldAttrConstraints
  split
  · exact h.refl st
  · split
    · exact lowerAttrs_steps h field _ guard _ st
    · exact h.refl st

theorem lowerAllFieldAttrs_steps (guard : Option CTypedExpr) (fields : List TxnField) :
    ∀ st : LowerState, R st (lowerAllFieldAttrs ctx fuel guard fields st).2 := by
  induction fields with
  | nil => exact h.refl
  | cons field fields ih =>
      intro st
      rw [lowerAllFieldAttrs]
      split
      · exact h.refl st
      · exact h.trans (lowerFieldAttrConstraints_steps h field guard st) (ih _)

mutual

theorem lowerWhenSubtype_steps :
    ∀ (w : WhenSubtype) (parent : Option CTypedExpr) (st : LowerState),
    R st (lowerWhenSubtype ctx fuel w parent st).2
  | .mk discriminant fields keeps whenSubtypes, parent, st => by
      rw [lowerWhenSubtype]
      exact h.trans (h.trans (h.trans (lowerTopClause_steps h discriminant st)
        (lowerKeeps_steps h _ keeps _)) (lowerAllFieldAttrs_steps h _ fields _))
          (lowerWhenSubtypes_steps whenSubtypes _ _)

theorem lowerWhenSubtypes_steps :
    ∀ (ws : List WhenSubtype) (parent : Option CTypedExpr) (st : LowerState),
    R st (lowerWhenSubtypes ctx fuel ws parent st).2
  | [], _, st => h.refl st
  | w :: ws, parent, st => by
      rw [lowerWhenSubtypes]
      split
      · exact h.refl st
      · exact h.trans (lowerWhenSubtype_steps w parent st) (lowerWhenSubtypes_steps ws parent _)

end

end Problems

/-! ### Steps of the state -/

/-- Nothing was reported, and every call was expanded. -/
structure Clean (st : LowerState) : Prop where
  errors : st.expand.errors = []
  exhausted : st.exhausted = false

structure Extends (st st' : LowerState) : Prop where
  locals : ∀ n, st'.locals.get n = st.locals.get n
  ids : st.nextLocalId ≤ st'.nextLocalId
  budget : Budgeted st.expand → Budgeted st'.expand
  clean : Clean st' → Clean st

namespace Extends

variable {st st₁ st₂ st₃ : LowerState}

theorem refl (st : LowerState) : Extends st st := ⟨fun _ => rfl, Nat.le_refl _, id, id⟩

theorem trans (h : Extends st₁ st₂) (h' : Extends st₂ st₃) : Extends st₁ st₃ :=
  ⟨fun n => (h'.locals n).trans (h.locals n), Nat.le_trans h.ids h'.ids,
    fun hb => h'.budget (h.budget hb), fun hc => h.clean (h'.clean hc)⟩

theorem recordError (h : Extends st st₁) (e : LowerError) : Extends st (st₁.recordError e) :=
  ⟨h.locals, h.ids, fun hb => budgeted_steps.recordError _ e (h.budget hb),
    fun hc => absurd hc.errors (ExpandState.recordError_errors _ e)⟩

theorem report (h : Extends st st₁) (e : Option LowerError) : Extends st (st₁.report e) := by
  cases e with
  | none => exact h
  | some e => exact h.recordError e

/-- What extends the state in a loop extends the state before it. -/
theorem leaveLoop {var : String} {elem : CType} (h : Extends (st.enterLoop var elem) st₁) :
    Extends st (st.leaveLoop st₁ var) := by
  refine ⟨fun n => ?_, ?_, h.budget, fun hc => ?_⟩
  · exact get_restoreLocal (fun m => h.locals m) n
  · exact Nat.le_trans (Nat.le_succ _) h.ids
  · have hclean := h.clean ⟨hc.errors, hc.exhausted⟩
    exact ⟨hclean.errors, hclean.exhausted⟩

end Extends

theorem clean_report {st : LowerState} {e : Option LowerError} :
    Clean (st.report e) ↔ Clean st ∧ e = none := by
  cases e with
  | none => exact ⟨fun h => ⟨h, rfl⟩, fun h => h.1⟩
  | some e =>
      constructor
      · exact fun h => absurd h.errors (ExpandState.recordError_errors _ e)
      · rintro ⟨-, h⟩
        simp at h

theorem not_clean_recordError {st : LowerState} {e : LowerError} :
    ¬ Clean (st.recordError e) :=
  fun h => ExpandState.recordError_errors _ e h.errors

/-- The expansion of a call keeps the errors that there are. -/
theorem expandCall_extends (rels : Relations) (name : String) (args : List CallArg)
    (st : LowerState) :
    Extends st
      { st with expand :=
          (expandTopLevelRelationCall rels relationExpansionMaxDepth [] name args st.expand).2 } :=
  ⟨fun _ => rfl, Nat.le_refl _, expandCall_steps budgeted_steps rels _ _ name args st.expand,
    fun hc => ⟨expandCall_steps RelationMeaning.clean_steps rels _ _ name args st.expand hc.errors,
      hc.exhausted⟩⟩

theorem expandClause_extends (rels : Relations) (e : Expr) (st : LowerState) :
    Extends st { st with expand := (expandTopLevelClause rels e st.expand).2 } :=
  ⟨fun _ => rfl, Nat.le_refl _,
    expandClause_steps budgeted_steps _ _
      (fun name args => expandCall_steps budgeted_steps _ _ [] name args) e st.expand,
    fun hc => ⟨expandClause_steps RelationMeaning.clean_steps _ _
      (fun name args => expandCall_steps RelationMeaning.clean_steps _ _ [] name args) e st.expand
      hc.errors, hc.exhausted⟩⟩

theorem mintClauseName_extends (st : LowerState) : Extends st (mintClauseName st).2 :=
  ⟨fun _ => rfl, Nat.le_refl _, id, fun hc => ⟨hc.errors, hc.exhausted⟩⟩

theorem extends_steps : StepRelation Extends where
  refl := Extends.refl
  trans := Extends.trans
  recordError := fun st e => (Extends.refl st).recordError e
  nextLocal := fun _ => ⟨fun _ => rfl, Nat.le_succ _, id, fun hc => ⟨hc.errors, hc.exhausted⟩⟩
  leaveLoop := Extends.leaveLoop
  mint := mintClauseName_extends
  expandCall := expandCall_extends
  expandClause := expandClause_extends

/-- A way to lower calls that extends the state. -/
def ExtendsState (onCall : String → List CallArg → LowerState → CTypedExpr × LowerState) : Prop :=
  ∀ name args st, Extends st (onCall name args st).2

theorem lowerCall_extends (ctx : LowerCtx) (fuel : Nat) : ExtendsState (lowerCall ctx fuel) := by
  induction fuel with
  | zero =>
      intro name args st
      exact ⟨fun _ => rfl, Nat.le_refl _, id, fun hc => absurd hc.exhausted (by simp [lowerCall])⟩
  | succ fuel ih =>
      intro name args st
      rw [lowerCall]
      exact (expandCall_extends ctx.schemas.relations name args st).trans
        (lowerExpr_steps extends_steps ctx ih none _ _)

theorem extends_calls {ctx : LowerCtx} {fuel : Nat} : CallSteps ctx fuel Extends where
  toStepRelation := extends_steps
  onCall := lowerCall_extends ctx fuel

/-- A relation error stops the lowering of a problem, and is kept. -/
theorem Clean.proceeds {st : LowerState} (h : Clean st) : st.shouldStop = false := by
  cases hstop : st.shouldStop with
  | false => rfl
  | true => exact absurd h.errors (st.expand.kept hstop)

end Harc.LoweringState
