import Harc.RelationMeaning

/-!
What an expansion of relations returns, apart from the state that it starts in.  An
expansion that reports nothing returns the same from every state with at least its budget.
-/

namespace Harc.ExpansionResult

open Harc.Ast
open Harc.RelationExpansion

/-- A step that reports nothing does the same from a state with more budget. -/
structure Steady {α : Type} (f : ExpandState → α × ExpandState) : Prop where
  clean : ∀ {st}, (f st).2.errors = [] → st.errors = []
  same : ∀ {st st'}, (f st).2.errors = [] → st'.errors = [] →
    st.relationBudget ≤ st'.relationBudget →
      (f st').1 = (f st).1 ∧ (f st').2.errors = [] ∧
        (f st).2.relationBudget ≤ (f st').2.relationBudget

namespace Steady

variable {α β γ : Type} {f : ExpandState → α × ExpandState} {g : ExpandState → β × ExpandState}

theorem const (a : α) : Steady fun st => (a, st) where
  clean := id
  same := fun _ hst' hle => ⟨rfl, hst', hle⟩

theorem recordError (a : α) (e : LowerError) : Steady fun st => (a, st.recordError e) where
  clean := fun h => absurd h (ExpandState.recordError_errors _ e)
  same := fun h => absurd h (ExpandState.recordError_errors _ e)

theorem map (k : α → γ) (hf : Steady f) : Steady fun st => (k (f st).1, (f st).2) where
  clean := hf.clean
  same := by
    intro st st' h hst' hle
    obtain ⟨heq, herrors, hbudget⟩ := hf.same h hst' hle
    exact ⟨congrArg k heq, herrors, hbudget⟩

/-- One step after the other. -/
theorem both (k : α → β → γ) (hf : Steady f) (hg : Steady g) :
    Steady fun st => (k (f st).1 (g (f st).2).1, (g (f st).2).2) where
  clean := fun h => hf.clean (hg.clean h)
  same := by
    intro st st' h hst' hle
    obtain ⟨heq, herrors, hbudget⟩ := hf.same (hg.clean h) hst' hle
    obtain ⟨heq', herrors', hbudget'⟩ := hg.same h herrors hbudget
    exact ⟨congrArg₂ k heq heq', herrors', hbudget'⟩

/-- A step that first takes its nodes from the budget. -/
theorem charge (hf : Steady f) (n : Nat) (a : α) (e : LowerError) :
    Steady fun st => if st.relationBudget < n then (a, st.recordError e) else f (st.charge n) where
  clean := by
    intro st h
    split at h
    · exact absurd h (ExpandState.recordError_errors _ e)
    · exact (hf.clean h : (st.charge n).errors = [])
  same := by
    intro st st' h hst' hle
    split at h
    · exact absurd h (ExpandState.recordError_errors _ e)
    · rename_i hbudget
      rw [if_neg hbudget, if_neg (by omega)]
      exact hf.same h hst' (Nat.sub_le_sub_right hle n)

end Steady

section Walk

variable (rels : Relations) {expand : String → List CallArg → ExpandState → Expr × ExpandState}

mutual

theorem walk_steady (hexpand : ∀ name args, Steady (expand name args)) :
    ∀ e : Expr, Steady (expandRelationSubtree rels expand e)
  | .call callee args => by
      cases hcall : calledRelation rels callee with
      | some name =>
          have hwalk : expandRelationSubtree rels expand (.call callee args) =
              expand name args := by
            funext st
            rw [expandRelationSubtree, hcall]
          rw [hwalk]
          exact hexpand name args
      | none =>
          have hwalk : expandRelationSubtree rels expand (.call callee args) = fun st =>
              (.call (expandRelationSubtree rels expand callee st).1
                  (expandArgs rels expand args (expandRelationSubtree rels expand callee st).2).1,
                (expandArgs rels expand args
                  (expandRelationSubtree rels expand callee st).2).2) := by
            funext st
            rw [expandRelationSubtree, hcall]
          rw [hwalk]
          exact (walk_steady hexpand callee).both Expr.call (walkArgs_steady hexpand args)
  | .field target name => (walk_steady hexpand target).map (Expr.field · name)
  | .index target index => (walk_steady hexpand target).both Expr.index (walk_steady hexpand index)
  | .bitSlice target hi lo =>
      ((walk_steady hexpand target).both Expr.bitSlice (walk_steady hexpand hi)).both (· ·)
        (walk_steady hexpand lo)
  | .forEachConstraint var iter body =>
      (walk_steady hexpand iter).both (Expr.forEachConstraint var) (walkList_steady hexpand body)
  | .cast expr ty => (walk_steady hexpand expr).map (Expr.cast · ty)
  | .unary op expr => (walk_steady hexpand expr).map (Expr.unary op)
  | .binary op lhs rhs =>
      (walk_steady hexpand lhs).both (Expr.binary op) (walk_steady hexpand rhs)
  | .ternary cond thenBranch elseBranch =>
      ((walk_steady hexpand cond).both Expr.ternary (walk_steady hexpand thenBranch)).both (· ·)
        (walk_steady hexpand elseBranch)
  | .paren inner => (walk_steady hexpand inner).map Expr.paren
  | .membership expr set =>
      (walk_steady hexpand expr).both Expr.membership (walk_steady hexpand set)
  | .setLit items => (walkList_steady hexpand items).map Expr.setLit
  | .rangeLit lo hi =>
      (walkBound_steady hexpand lo).both Expr.rangeLit (walkBound_steady hexpand hi)
  | .int text => .const (Expr.int text)
  | .bool value => .const (Expr.bool value)
  | .string text => .const (Expr.string text)
  | .number text => .const (Expr.number text)
  | .ident name => .const (Expr.ident name)
  | .implicitSelf => .const Expr.implicitSelf
  | .other text => .const (Expr.other text)

theorem walkList_steady (hexpand : ∀ name args, Steady (expand name args)) :
    ∀ es : List Expr, Steady (expandList rels expand es)
  | [] => .const []
  | e :: es => (walk_steady hexpand e).both List.cons (walkList_steady hexpand es)

theorem walkBound_steady (hexpand : ∀ name args, Steady (expand name args)) :
    ∀ b : Option Expr, Steady (expandBound rels expand b)
  | none => .const none
  | some e => (walk_steady hexpand e).map some

theorem walkArgs_steady (hexpand : ∀ name args, Steady (expand name args)) :
    ∀ args : List CallArg, Steady (expandArgs rels expand args)
  | [] => .const []
  | .expr value :: args =>
      (walk_steady hexpand value).both (fun v as => CallArg.expr v :: as)
        (walkArgs_steady hexpand args)
  | .named name value :: args =>
      (walk_steady hexpand value).both (fun v as => CallArg.named name v :: as)
        (walkArgs_steady hexpand args)

end

end Walk

section Clauses

variable (rels : Relations)
  {expand : String → List CallArg → ExpandState → List Expr × ExpandState}
  (hexpand : ∀ name args, Steady (expand name args))

include hexpand

theorem expandCallAsExpr_steady (name : String) (args : List CallArg) :
    Steady (expandRelationCallAsExpr expand name args) :=
  (hexpand name args).map andJoin

theorem expandClause_steady (e : Expr) : Steady (expandClause rels expand e) := by
  cases hcall : calledName e with
  | some call =>
      have hclause : expandClause rels expand e = expand call.1 call.2 := by
        funext st
        rw [expandClause, hcall]
      rw [hclause]
      exact hexpand call.1 call.2
  | none =>
      have hclause : expandClause rels expand e = fun st =>
          ([(expandRelationSubtree rels (expandRelationCallAsExpr expand) e st).1],
            (expandRelationSubtree rels (expandRelationCallAsExpr expand) e st).2) := by
        funext st
        rw [expandClause, hcall]
      rw [hclause]
      exact (walk_steady rels (expandCallAsExpr_steady hexpand) e).map fun f => [f]

theorem expandClauses_steady (es : List Expr) : Steady (expandClauses rels expand es) := by
  induction es with
  | nil => exact .const []
  | cons e es ih => exact (expandClause_steady rels hexpand e).both (· ++ ·) ih

end Clauses

theorem expandCall_steady (rels : Relations) (depth : Nat) : ∀ stack name args,
    Steady (expandTopLevelRelationCall rels depth stack name args) := by
  induction depth with
  | zero =>
      intro stack name args
      cases hcall : relationCall rels stack name args with
      | error e =>
          have hexpand : expandTopLevelRelationCall rels 0 stack name args =
              fun st => ([], st.recordError e) := by
            funext st
            rw [expandTopLevelRelationCall, hcall]
          rw [hexpand]
          exact .recordError [] e
      | ok bodies =>
          have hexpand : expandTopLevelRelationCall rels 0 stack name args =
              fun st => ([], st) := by
            funext st
            rw [expandTopLevelRelationCall, hcall]
          rw [hexpand]
          exact .const []
  | succ depth ih =>
      intro stack name args
      cases hcall : relationCall rels stack name args with
      | error e =>
          have hexpand : expandTopLevelRelationCall rels (depth + 1) stack name args =
              fun st => ([], st.recordError e) := by
            funext st
            rw [expandTopLevelRelationCall, hcall]
          rw [hexpand]
          exact .recordError [] e
      | ok bodies =>
          have hexpand : expandTopLevelRelationCall rels (depth + 1) stack name args = fun st =>
              if st.relationBudget < producedNodes bodies then
                ([], st.recordError (.relationExpansionTooLarge name))
              else
                expandClauses rels (expandTopLevelRelationCall rels depth (name :: stack)) bodies
                  (st.charge (producedNodes bodies)) := by
            funext st
            rw [expandTopLevelRelationCall, hcall]
          rw [hexpand]
          exact (expandClauses_steady rels (ih (name :: stack)) bodies).charge _ _ _

/-! ### Expansions on their own -/

/-- What a call by name is expanded to. -/
def expandedCall (rels : Relations) (name : String) (args : List CallArg) : Expr :=
  (expandRelationCallAsExpr (expandTopLevelRelationCall rels relationExpansionMaxDepth []) name args
    .init).1

/-- The clauses that a constraint is expanded to. -/
def expandedClauses (rels : Relations) (e : Expr) : List Expr :=
  (expandTopLevelClause rels e .init).1

/-- The state has no more budget than the first one. -/
def Budgeted (st : ExpandState) : Prop :=
  st.relationBudget ≤ relationExpansionBudget

theorem expandedCall_eq {rels : Relations} {name : String} {args : List CallArg}
    {st : ExpandState} (hbudget : Budgeted st)
    (h : (expandTopLevelRelationCall rels relationExpansionMaxDepth [] name args st).2.errors =
      []) :
    (expandRelationCallAsExpr (expandTopLevelRelationCall rels relationExpansionMaxDepth []) name
      args st).1 = expandedCall rels name args := by
  have hsteady := expandCallAsExpr_steady (expandCall_steady rels relationExpansionMaxDepth [])
  have hsame := (hsteady name args).same h (show ExpandState.init.errors = [] from rfl) hbudget
  exact hsame.1.symm

theorem expandedClauses_eq {rels : Relations} {e : Expr} {st : ExpandState}
    (hbudget : Budgeted st) (h : (expandTopLevelClause rels e st).2.errors = []) :
    (expandTopLevelClause rels e st).1 = expandedClauses rels e := by
  have hsteady := expandClause_steady rels (expandCall_steady rels relationExpansionMaxDepth []) e
  have hsame := hsteady.same h (show ExpandState.init.errors = [] from rfl) hbudget
  exact hsame.1.symm

/-- An expansion takes from the budget only. -/
theorem budgeted_steps : ExpandRelation fun st st' => Budgeted st → Budgeted st' where
  refl := fun _ => id
  trans := fun h h' hb => h' (h hb)
  recordError := fun st e hb => by
    rw [Budgeted, ExpandState.recordError_relationBudget]
    exact hb
  charge := fun st n _ hb => Nat.le_trans (Nat.sub_le st.relationBudget n) hb

end Harc.ExpansionResult
