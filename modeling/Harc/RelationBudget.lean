import Harc.LoweringState
import Mathlib.Data.List.MinMax
import Mathlib.Order.Nat

/-!
The limits of relation expansion (`constraints/typed_lower.rs`, `ast.rs`): how deep relations
nest, how many nodes an expansion makes, that lowering comes to an end, and which errors are
reported.
-/

namespace Harc.RelationBudget

open Harc.Ast
open Harc.TypedConstraint
open Harc.RelationExpansion
open Harc.ConstraintSchema
open Harc.TypedLowering
open Harc.LoweringState

/-! ### The recursion -/

/-- One call, with the expansion of the calls in its body as a parameter. -/
def relationCallStep (rels : Relations)
    (recurse : List String → String → List CallArg → ExpandState → List Expr × ExpandState)
    (stack : List String) (name : String) (args : List CallArg) (st : ExpandState) :
    List Expr × ExpandState :=
  match relationCall rels stack name args with
  | .error e => ([], st.recordError e)
  | .ok bodies =>
      if st.relationBudget < producedNodes bodies then
        ([], st.recordError (.relationExpansionTooLarge name))
      else
        expandClauses rels (recurse (name :: stack)) bodies (st.charge (producedNodes bodies))

/-- The expansion of a call below the relations of the stack. -/
def expansion (rels : Relations) (stack : List String) :
    String → List CallArg → ExpandState → List Expr × ExpandState :=
  expandTopLevelRelationCall rels (relationExpansionMaxDepth - stack.length) stack

/-- No call is expanded at the depth limit. -/
theorem relationCall_full {rels : Relations} {stack : List String}
    (hfull : relationExpansionMaxDepth ≤ stack.length) (name : String) (args : List CallArg) :
    ∃ e, relationCall rels stack name args = .error e := by
  cases hcall : relationCall rels stack name args with
  | error e => exact ⟨e, rfl⟩
  | ok bodies =>
      obtain ⟨rel, -, -, -, hdepth, -⟩ := relationCall_ok hcall
      omega

theorem expansion_step (rels : Relations) (stack : List String) :
    expansion rels stack = relationCallStep rels (expansion rels) stack := by
  funext name args st
  unfold expansion relationCallStep
  rcases Nat.lt_or_ge stack.length relationExpansionMaxDepth with hdepth | hfull
  · obtain ⟨depth, hd⟩ : ∃ depth, relationExpansionMaxDepth - stack.length = depth + 1 :=
      ⟨relationExpansionMaxDepth - stack.length - 1, by omega⟩
    have hinner : relationExpansionMaxDepth - (name :: stack).length = depth := by
      rw [List.length_cons]
      omega
    rw [hd, expandTopLevelRelationCall]
    subst hinner
    rfl
  · obtain ⟨e, he⟩ := @relationCall_full rels stack hfull name args
    rw [Nat.sub_eq_zero_of_le hfull, expandTopLevelRelationCall, he]

/-- The recursion of the source determines the expansion. -/
theorem expansion_unique {rels : Relations}
    {f : List String → String → List CallArg → ExpandState → List Expr × ExpandState}
    (hf : ∀ stack, f stack = relationCallStep rels f stack) (stack : List String) :
    f stack = expansion rels stack := by
  induction hd : relationExpansionMaxDepth - stack.length generalizing stack with
  | zero =>
      funext name args st
      obtain ⟨e, he⟩ := @relationCall_full rels stack (Nat.sub_eq_zero_iff_le.mp hd) name args
      rw [hf, expansion_step]
      unfold relationCallStep
      rw [he]
  | succ depth ih =>
      funext name args st
      have hinner : f (name :: stack) = expansion rels (name :: stack) := by
        apply ih
        rw [List.length_cons]
        omega
      rw [hf, expansion_step]
      unfold relationCallStep
      rw [hinner]

/-! ### Depth -/

/-- The calls that the expansion of a clause begins with. -/
def clauseCalls (rels : Relations) (e : Expr) : List DirectCall :=
  match calledName e with
  | some (name, args) => [⟨[], name, args⟩]
  | none => directCalls rels [] e

/-- How deep relations nest in the expansion of a call, as far as the checks of the call
allow; looked at up to a depth. -/
def callNesting (rels : Relations) : Nat → List String → String → List CallArg → Nat
  | 0, _, _, _ => 0
  | depth + 1, stack, name, args =>
      match relationCall rels stack name args with
      | .error _ => 0
      | .ok bodies =>
          ((bodies.flatMap (clauseCalls rels)).map fun c =>
            callNesting rels depth (name :: stack) c.name c.args).foldr max 0 + 1

def clauseNesting (rels : Relations) (depth : Nat) (e : Expr) : Nat :=
  ((clauseCalls rels e).map fun c => callNesting rels depth [] c.name c.args).foldr max 0

theorem callNesting_le (rels : Relations) (depth : Nat) : ∀ stack name args,
    callNesting rels depth stack name args ≤ relationExpansionMaxDepth - stack.length := by
  induction depth with
  | zero =>
      intro stack name args
      exact Nat.zero_le _
  | succ depth ih =>
      intro stack name args
      rw [callNesting]
      split
      · exact Nat.zero_le _
      · rename_i bodies hcall
        obtain ⟨rel, -, -, -, hdepth, -⟩ := relationCall_ok hcall
        have hinner : ((bodies.flatMap (clauseCalls rels)).map fun c =>
            callNesting rels depth (name :: stack) c.name c.args).foldr max 0 ≤
              relationExpansionMaxDepth - (name :: stack).length := by
          refine @List.max_le_of_forall_le Nat _ _ _ _ ?_
          rintro n hn
          obtain ⟨c, -, rfl⟩ := List.mem_map.mp hn
          exact ih (name :: stack) c.name c.args
        rw [List.length_cons] at hinner
        omega

theorem clauseNesting_le (rels : Relations) (depth : Nat) (e : Expr) :
    clauseNesting rels depth e ≤ relationExpansionMaxDepth := by
  refine @List.max_le_of_forall_le Nat _ _ _ _ ?_
  rintro n hn
  obtain ⟨c, -, rfl⟩ := List.mem_map.mp hn
  exact callNesting_le rels depth [] c.name c.args

/-! ### Nodes -/

theorem exprNodeCount_pos (e : Expr) : 0 < exprNodeCount e := by
  cases e <;> simp only [exprNodeCount] <;> omega

theorem listNodeCount_append (es fs : List Expr) :
    listNodeCount (es ++ fs) = listNodeCount es + listNodeCount fs := by
  induction es with
  | nil => rw [List.nil_append, listNodeCount, Nat.zero_add]
  | cons e es ih => rw [List.cons_append, listNodeCount, listNodeCount, ih, Nat.add_assoc]

theorem producedNodes_eq (es : List Expr) : producedNodes es = listNodeCount es := by
  unfold producedNodes
  induction es with
  | nil => rfl
  | cons e es ih => rw [List.map_cons, List.sum_cons, listNodeCount, ih]

theorem length_le_listNodeCount (es : List Expr) : es.length ≤ listNodeCount es := by
  induction es with
  | nil => exact Nat.le_refl _
  | cons e es ih =>
      have := exprNodeCount_pos e
      rw [List.length_cons, listNodeCount]
      omega

/-- A conjunction has one node more for every clause but the first. -/
theorem exprNodeCount_andJoin (e : Expr) (es : List Expr) :
    exprNodeCount (andJoin (e :: es)) + 1 = listNodeCount (e :: es) + (e :: es).length := by
  have hfold : ∀ (es : List Expr) (acc : Expr),
      exprNodeCount (es.foldl (.binary .andAnd) acc) =
        exprNodeCount acc + listNodeCount es + es.length := by
    intro es
    induction es with
    | nil => exact fun _ => rfl
    | cons f es ih =>
        intro acc
        rw [List.foldl_cons, ih, exprNodeCount, listNodeCount, List.length_cons]
        omega
  rw [andJoin, hfold, listNodeCount, List.length_cons]
  omega

section Walk

variable (rels : Relations) (expand : String → List CallArg → ExpandState → Expr × ExpandState)

mutual

/-- The walk makes at most two nodes for each one that it charges. -/
theorem walk_nodes (hexpand : ∀ name args st, exprNodeCount (expand name args st).1 +
      2 * (expand name args st).2.relationBudget ≤ 2 + 2 * st.relationBudget) :
    ∀ (e : Expr) (st : ExpandState), exprNodeCount (expandRelationSubtree rels expand e st).1 +
      2 * (expandRelationSubtree rels expand e st).2.relationBudget ≤
        exprNodeCount e + 2 * st.relationBudget
  | .call callee args, st => by
      rw [expandRelationSubtree]
      cases calledRelation rels callee with
      | some name =>
          have hcall := hexpand name args st
          have := exprNodeCount_pos callee
          simp only [exprNodeCount]
          omega
      | none =>
          have hcallee := walk_nodes hexpand callee st
          have hargs := walkArgs_nodes hexpand args (expandRelationSubtree rels expand callee st).2
          simp only [exprNodeCount]
          omega
  | .field target _, st => by
      have := walk_nodes hexpand target st
      simp only [expandRelationSubtree, exprNodeCount]
      omega
  | .index target index, st => by
      have htarget := walk_nodes hexpand target st
      have hindex := walk_nodes hexpand index (expandRelationSubtree rels expand target st).2
      simp only [expandRelationSubtree, exprNodeCount]
      omega
  | .bitSlice target hi lo, st => by
      have htarget := walk_nodes hexpand target st
      have hhi := walk_nodes hexpand hi (expandRelationSubtree rels expand target st).2
      have hlo := walk_nodes hexpand lo
        (expandRelationSubtree rels expand hi (expandRelationSubtree rels expand target st).2).2
      simp only [expandRelationSubtree, exprNodeCount]
      omega
  | .forEachConstraint _ iter body, st => by
      have hiter := walk_nodes hexpand iter st
      have hbody := walkList_nodes hexpand body (expandRelationSubtree rels expand iter st).2
      simp only [expandRelationSubtree, exprNodeCount]
      omega
  | .cast expr _, st => by
      have := walk_nodes hexpand expr st
      simp only [expandRelationSubtree, exprNodeCount]
      omega
  | .unary _ expr, st => by
      have := walk_nodes hexpand expr st
      simp only [expandRelationSubtree, exprNodeCount]
      omega
  | .binary _ lhs rhs, st => by
      have hlhs := walk_nodes hexpand lhs st
      have hrhs := walk_nodes hexpand rhs (expandRelationSubtree rels expand lhs st).2
      simp only [expandRelationSubtree, exprNodeCount]
      omega
  | .ternary cond thenBranch elseBranch, st => by
      have hcond := walk_nodes hexpand cond st
      have hthen := walk_nodes hexpand thenBranch (expandRelationSubtree rels expand cond st).2
      have helse := walk_nodes hexpand elseBranch (expandRelationSubtree rels expand thenBranch
        (expandRelationSubtree rels expand cond st).2).2
      simp only [expandRelationSubtree, exprNodeCount]
      omega
  | .paren inner, st => by
      have := walk_nodes hexpand inner st
      simp only [expandRelationSubtree, exprNodeCount]
      omega
  | .membership expr set, st => by
      have hexpr := walk_nodes hexpand expr st
      have hset := walk_nodes hexpand set (expandRelationSubtree rels expand expr st).2
      simp only [expandRelationSubtree, exprNodeCount]
      omega
  | .setLit items, st => by
      have := walkList_nodes hexpand items st
      simp only [expandRelationSubtree, exprNodeCount]
      omega
  | .rangeLit lo hi, st => by
      have hlo := walkBound_nodes hexpand lo st
      have hhi := walkBound_nodes hexpand hi (expandBound rels expand lo st).2
      simp only [expandRelationSubtree, exprNodeCount]
      omega
  | .int _, _ | .bool _, _ | .string _, _ | .number _, _ | .ident _, _
  | .implicitSelf, _ | .other _, _ => by
      simp only [expandRelationSubtree, exprNodeCount]
      exact Nat.le_refl _

theorem walkList_nodes (hexpand : ∀ name args st, exprNodeCount (expand name args st).1 +
      2 * (expand name args st).2.relationBudget ≤ 2 + 2 * st.relationBudget) :
    ∀ (es : List Expr) (st : ExpandState), listNodeCount (expandList rels expand es st).1 +
      2 * (expandList rels expand es st).2.relationBudget ≤
        listNodeCount es + 2 * st.relationBudget
  | [], _ => Nat.le_refl _
  | e :: es, st => by
      have hhead := walk_nodes hexpand e st
      have htail := walkList_nodes hexpand es (expandRelationSubtree rels expand e st).2
      simp only [expandList, listNodeCount]
      omega

theorem walkBound_nodes (hexpand : ∀ name args st, exprNodeCount (expand name args st).1 +
      2 * (expand name args st).2.relationBudget ≤ 2 + 2 * st.relationBudget) :
    ∀ (b : Option Expr) (st : ExpandState), boundNodeCount (expandBound rels expand b st).1 +
      2 * (expandBound rels expand b st).2.relationBudget ≤
        boundNodeCount b + 2 * st.relationBudget
  | none, _ => Nat.le_refl _
  | some e, st => walk_nodes hexpand e st

theorem walkArgs_nodes (hexpand : ∀ name args st, exprNodeCount (expand name args st).1 +
      2 * (expand name args st).2.relationBudget ≤ 2 + 2 * st.relationBudget) :
    ∀ (args : List CallArg) (st : ExpandState), argsNodeCount (expandArgs rels expand args st).1 +
      2 * (expandArgs rels expand args st).2.relationBudget ≤
        argsNodeCount args + 2 * st.relationBudget
  | [], _ => Nat.le_refl _
  | .expr value :: args, st => by
      have hvalue := walk_nodes hexpand value st
      have hargs := walkArgs_nodes hexpand args (expandRelationSubtree rels expand value st).2
      simp only [expandArgs, argsNodeCount]
      omega
  | .named _ value :: args, st => by
      have hvalue := walk_nodes hexpand value st
      have hargs := walkArgs_nodes hexpand args (expandRelationSubtree rels expand value st).2
      simp only [expandArgs, argsNodeCount]
      omega

end

end Walk

section Clauses

variable (rels : Relations)
  (expand : String → List CallArg → ExpandState → List Expr × ExpandState)

/-- The clauses of a call, counted with a node for joining each of them, are paid for twice. -/
def PaidTwice : Prop :=
  ∀ name args st, listNodeCount (expand name args st).1 + (expand name args st).1.length +
    2 * (expand name args st).2.relationBudget ≤ 2 * st.relationBudget

variable {expand}

theorem callAsExpr_nodes (hexpand : PaidTwice expand) (name : String) (args : List CallArg)
    (st : ExpandState) :
    exprNodeCount (expandRelationCallAsExpr expand name args st).1 +
      2 * (expandRelationCallAsExpr expand name args st).2.relationBudget ≤
        2 + 2 * st.relationBudget := by
  have hcall := hexpand name args st
  unfold expandRelationCallAsExpr
  dsimp only
  cases hout : (expand name args st).1 with
  | nil =>
      rw [hout] at hcall
      simp only [andJoin, exprNodeCount]
      omega
  | cons e es =>
      rw [hout] at hcall
      have hjoin := exprNodeCount_andJoin e es
      omega

theorem expandClause_nodes (hexpand : PaidTwice expand) (e : Expr) (st : ExpandState) :
    listNodeCount (expandClause rels expand e st).1 +
      2 * (expandClause rels expand e st).2.relationBudget ≤
        exprNodeCount e + 2 * st.relationBudget := by
  unfold expandClause
  split
  · rename_i name args _
    have := hexpand name args st
    omega
  · have := walk_nodes rels _ (callAsExpr_nodes hexpand) e st
    simp only [listNodeCount]
    omega

theorem expandClause_length (hexpand : PaidTwice expand) (e : Expr) (st : ExpandState) :
    listNodeCount (expandClause rels expand e st).1 + (expandClause rels expand e st).1.length +
      2 * (expandClause rels expand e st).2.relationBudget ≤
        exprNodeCount e + 1 + 2 * st.relationBudget := by
  unfold expandClause
  split
  · rename_i name args _
    have := hexpand name args st
    omega
  · have := walk_nodes rels _ (callAsExpr_nodes hexpand) e st
    simp only [listNodeCount, List.length_singleton]
    omega

theorem expandClauses_length (hexpand : PaidTwice expand) (es : List Expr) (st : ExpandState) :
    listNodeCount (expandClauses rels expand es st).1 +
      (expandClauses rels expand es st).1.length +
        2 * (expandClauses rels expand es st).2.relationBudget ≤
          listNodeCount es + es.length + 2 * st.relationBudget := by
  induction es generalizing st with
  | nil => exact Nat.le_refl _
  | cons e es ih =>
      have hhead := expandClause_length rels hexpand e st
      have htail := ih (expandClause rels expand e st).2
      simp only [expandClauses, listNodeCount, listNodeCount_append, List.length_append,
        List.length_cons]
      omega

end Clauses

theorem expandCall_paidTwice (rels : Relations) (depth : Nat) :
    ∀ stack, PaidTwice (expandTopLevelRelationCall rels depth stack) := by
  induction depth with
  | zero =>
      intro stack name args st
      rw [expandTopLevelRelationCall]
      split <;> simp [listNodeCount]
  | succ depth ih =>
      intro stack name args st
      rw [expandTopLevelRelationCall]
      split
      · simp [listNodeCount]
      · split
        · simp [listNodeCount]
        · rename_i bodies _ hbudget
          have hbodies := expandClauses_length rels (ih (name :: stack)) bodies
            (st.charge (producedNodes bodies))
          have hlength := length_le_listNodeCount bodies
          rw [ExpandState.charge_relationBudget, producedNodes_eq] at hbodies
          rw [producedNodes_eq] at hbudget ⊢
          omega

/-- Expansion makes at most two nodes for each node of its budget that it takes. -/
theorem expandTopLevelClause_nodes (rels : Relations) (e : Expr) (st : ExpandState) :
    listNodeCount (expandTopLevelClause rels e st).1 +
      2 * (expandTopLevelClause rels e st).2.relationBudget ≤
        exprNodeCount e + 2 * st.relationBudget :=
  expandClause_nodes rels (expandCall_paidTwice rels _ []) e st

/-! ### Errors -/

/-- The second state comes from the first by recording these errors, in this order, and by
charging nodes. -/
inductive Records : ExpandState → List LowerError → ExpandState → Prop where
  | refl (st : ExpandState) : Records st [] st
  | record {st : ExpandState} {found : List LowerError} {st' : ExpandState} (e : LowerError) :
      Records st found st' → Records st (found ++ [e]) (st'.recordError e)
  | charge {st : ExpandState} {found : List LowerError} {st' : ExpandState} (n : Nat) :
      Records st found st' → n ≤ st'.relationBudget → Records st found (st'.charge n)

theorem Records.trans {st₁ st₂ st₃ : ExpandState} {found found' : List LowerError}
    (h : Records st₁ found st₂) (h' : Records st₂ found' st₃) :
    Records st₁ (found ++ found') st₃ := by
  induction h' with
  | refl => rwa [List.append_nil]
  | record e _ ih =>
      rw [← List.append_assoc]
      exact ih.record e
  | charge n _ hn ih => exact ih.charge n hn

theorem Records.budget {st st' : ExpandState} {found : List LowerError}
    (h : Records st found st') : st'.relationBudget ≤ st.relationBudget := by
  induction h with
  | refl => exact Nat.le_refl _
  | record e _ ih => rwa [ExpandState.recordError_relationBudget]
  | charge n _ _ ih =>
      rw [ExpandState.charge_relationBudget]
      omega

theorem records_steps : ExpandRelation fun st st' => ∃ found, Records st found st' where
  refl := fun st => ⟨[], .refl st⟩
  trans := by
    rintro st₁ st₂ st₃ ⟨found, h⟩ ⟨found', h'⟩
    exact ⟨found ++ found', h.trans h'⟩
  recordError := fun st e => ⟨[e], .record e (.refl st)⟩
  charge := fun st n hn => ⟨[], .charge n (.refl st) hn⟩

/-- The errors that are kept of those found: at most one more than the number up to which
they are kept, the first of all, and the first on relations. -/
structure Keeps (found : List LowerError) (st : ExpandState) : Prop where
  few : st.errors.length ≤ if st.sawRelationError then maxErrors + 1 else maxErrors
  saw : st.sawRelationError = found.any LowerError.isRelationError
  head : st.errors.head? = found.head?
  relation : st.errors.find? LowerError.isRelationError =
    found.find? LowerError.isRelationError

/-- An error that is not recorded is neither the first one nor the first on relations. -/
theorem Keeps.drop {found : List LowerError} {st : ExpandState} (h : Keeps found st)
    {e : LowerError} (hfull : st.errors ≠ [])
    (hrel : e.isRelationError = true → st.sawRelationError = true) : Keeps (found ++ [e]) st := by
  have hfound : found ≠ [] := by
    rintro rfl
    exact hfull (List.head?_eq_none_iff.mp h.head)
  refine ⟨h.few, ?_, ?_, ?_⟩
  · rw [List.any_append, ← h.saw, List.any_cons, List.any_nil, Bool.or_false]
    cases hsaw : st.sawRelationError with
    | true => rfl
    | false =>
        cases he : e.isRelationError with
        | false => rfl
        | true => exact absurd (hrel he) (by rw [hsaw]; exact Bool.false_ne_true)
  · rw [List.head?_append_of_ne_nil _ hfound]
    exact h.head
  · rw [List.find?_append, h.relation]
    cases he : e.isRelationError with
    | false => rw [List.find?_singleton, he, if_neg Bool.false_ne_true, Option.or_none]
    | true =>
        have hany : found.any LowerError.isRelationError = true := h.saw ▸ hrel he
        obtain ⟨f, hf⟩ := Option.isSome_iff_exists.mp
          ((List.find?_isSome (p := LowerError.isRelationError)).mpr (List.any_eq_true.mp hany))
        rw [hf, Option.some_or]

theorem Keeps.record {found : List LowerError} {st : ExpandState} (h : Keeps found st)
    (e : LowerError) : Keeps (found ++ [e]) (st.recordError e) := by
  have hhead : (st.errors ++ [e]).head? = (found ++ [e]).head? := by
    rw [List.head?_append, List.head?_append, h.head]
  have hfind : (st.errors ++ [e]).find? LowerError.isRelationError =
      (found ++ [e]).find? LowerError.isRelationError := by
    rw [List.find?_append, List.find?_append, h.relation]
  have hfew := h.few
  unfold ExpandState.recordError
  split
  · rename_i he
    split
    · rename_i hsaw
      exact h.drop (st.kept hsaw) fun _ => hsaw
    · rename_i hsaw
      refine ⟨?_, ?_, hhead, hfind⟩
      · rw [if_neg hsaw] at hfew
        rw [if_pos rfl, List.length_append, List.length_singleton]
        omega
      · rw [List.any_append, List.any_cons, he, Bool.true_or, Bool.or_true]
  · rename_i he
    split
    · rename_i hlen
      refine ⟨?_, ?_, hhead, hfind⟩
      · rw [List.length_append, List.length_singleton]
        split <;> omega
      · rw [List.any_append, ← h.saw, List.any_cons, List.any_nil, Bool.or_false,
          Bool.eq_false_iff.mpr he, Bool.or_false]
    · rename_i hlen
      refine h.drop ?_ fun hrel => absurd hrel he
      rintro hnil
      rw [hnil] at hlen
      exact hlen (by decide)

theorem Records.keeps {found : List LowerError} {st : ExpandState}
    (h : Records .init found st) : Keeps found st := by
  induction h with
  | refl => exact ⟨by decide, rfl, rfl, rfl⟩
  | record e _ ih => exact ih.record e
  | charge n _ _ ih =>
      obtain ⟨hfew, hsaw, hhead, hrelation⟩ := ih
      exact ⟨hfew, hsaw, hhead, hrelation⟩

theorem Keeps.length_le {found : List LowerError} {st : ExpandState} (h : Keeps found st) :
    st.errors.length ≤ maxErrors + 1 := by
  have hfew := h.few
  split at hfew <;> omega

/-! ### Lowering comes to an end -/

/-- What a call returns is empty unless it charged a node. -/
theorem expandCall_charges (rels : Relations) (depth : Nat) (stack : List String) (name : String)
    (args : List CallArg) (st : ExpandState) :
    (expandTopLevelRelationCall rels depth stack name args st).1 = [] ∨
      (expandTopLevelRelationCall rels depth stack name args st).2.relationBudget <
        st.relationBudget := by
  cases depth with
  | zero =>
      rw [expandTopLevelRelationCall]
      split <;> exact .inl rfl
  | succ depth =>
      rw [expandTopLevelRelationCall]
      split
      · exact .inl rfl
      · rename_i bodies _
        split
        · exact .inl rfl
        · rename_i hbudget
          rcases bodies with _ | ⟨e, bodies⟩
          · exact .inl rfl
          · obtain ⟨found, hrecords⟩ := expandClauses_steps records_steps rels _
              (expandCall_steps records_steps rels depth (name :: stack)) (e :: bodies)
              (st.charge (producedNodes (e :: bodies)))
            have hpos : 0 < producedNodes (e :: bodies) := by
              have := exprNodeCount_pos e
              rw [producedNodes_eq, listNodeCount]
              omega
            have hcharged := hrecords.budget
            rw [ExpandState.charge_relationBudget] at hcharged
            refine .inr (Nat.lt_of_le_of_lt hcharged ?_)
            omega

/-- Errors are recorded and nodes charged, and with more rounds than nodes are left every call
is expanded. -/
structure Tracks (fuel : Nat) (st st' : LowerState) : Prop where
  records : ∃ found, Records st.expand found st'.expand
  ends : st.expand.relationBudget < fuel → st'.exhausted = st.exhausted

theorem tracks_steps (fuel : Nat) : StepRelation (Tracks fuel) where
  refl := fun st => ⟨records_steps.refl _, fun _ => rfl⟩
  trans := by
    rintro st₁ st₂ st₃ ⟨⟨found, h⟩, hends⟩ ⟨hrecords, hends'⟩
    refine ⟨records_steps.trans ⟨found, h⟩ hrecords, fun hfuel => ?_⟩
    have hbudget := h.budget
    exact (hends' (by omega)).trans (hends hfuel)
  recordError := fun st e => ⟨records_steps.recordError _ e, fun _ => rfl⟩
  nextLocal := fun st => ⟨records_steps.refl _, fun _ => rfl⟩
  leaveLoop := fun h => ⟨h.records, h.ends⟩
  mint := fun st => ⟨records_steps.refl _, fun _ => rfl⟩
  expandCall := fun rels name args st =>
    ⟨expandCall_steps records_steps rels _ [] name args st.expand, fun _ => rfl⟩
  expandClause := fun rels e st =>
    ⟨expandClause_steps records_steps rels _ (expandCall_steps records_steps rels _ []) e st.expand,
      fun _ => rfl⟩

theorem lowerCall_tracks (ctx : LowerCtx) (fuel : Nat) :
    ∀ name args st, Tracks fuel st (lowerCall ctx fuel name args st).2 := by
  induction fuel with
  | zero => exact fun name args st => ⟨records_steps.refl _, fun h => absurd h (Nat.not_lt_zero _)⟩
  | succ fuel ih =>
      intro name args st
      have hrecords := expandCall_steps records_steps ctx.schemas.relations
        relationExpansionMaxDepth [] name args st.expand
      rw [lowerCall]
      unfold expandRelationCallAsExpr
      dsimp only
      rcases expandCall_charges ctx.schemas.relations relationExpansionMaxDepth [] name args
        st.expand with hnil | hcharged
      · rw [hnil, andJoin, lowerExpr]
        exact ⟨hrecords, fun _ => rfl⟩
      · have hrest := lowerExpr_steps (tracks_steps fuel) ctx ih none
          (andJoin (expandTopLevelRelationCall ctx.schemas.relations relationExpansionMaxDepth []
            name args st.expand).1)
          { st with expand := (expandTopLevelRelationCall ctx.schemas.relations
              relationExpansionMaxDepth [] name args st.expand).2 }
        refine ⟨records_steps.trans hrecords hrest.records, fun hfuel => ?_⟩
        exact hrest.ends (Nat.lt_of_lt_of_le hcharged (Nat.le_of_lt_succ hfuel))

theorem tracks_calls (ctx : LowerCtx) (fuel : Nat) : CallSteps ctx fuel (Tracks fuel) where
  toStepRelation := tracks_steps fuel
  onCall := lowerCall_tracks ctx fuel

/-- The state in which the lowering of a problem ends. -/
def lowerProblemState (ctx : LowerCtx) (fuel : Nat) (body : List BodyItem) : LowerState :=
  let keeps := lowerKeeps ctx fuel none ctx.target.keeps .init
  let b := lowerBody ctx fuel body ⟨keeps.1, [], none⟩ keeps.2
  let attrs := lowerAllFieldAttrs ctx fuel none ctx.target.fields b.2
  (lowerWhenSubtypes ctx fuel ctx.target.whenSubtypes none attrs.2).2

/-- The lowering of a problem ends in a state that is reached by recording errors, and whichever
they are, it returns the problem or the errors that are kept of them. -/
structure Returns (ctx : LowerCtx) (fuel : Nat) (body : List BodyItem) : Prop where
  recorded : ∃ found, Records .init found (lowerProblemState ctx fuel body).expand
  few : (lowerProblemState ctx fuel body).errors.length ≤ maxErrors + 1
  head : ∀ found, Records .init found (lowerProblemState ctx fuel body).expand →
    (lowerProblemState ctx fuel body).errors.head? = found.head?
  relation : ∀ found, Records .init found (lowerProblemState ctx fuel body).expand →
    (lowerProblemState ctx fuel body).errors.find? LowerError.isRelationError =
      found.find? LowerError.isRelationError
  result : ∀ found, Records .init found (lowerProblemState ctx fuel body).expand →
    (found = [] ∧ ∃ problem, lowerProblem ctx fuel body = some (.ok problem)) ∨
      (found ≠ [] ∧
        lowerProblem ctx fuel body = some (.error (lowerProblemState ctx fuel body).errors))

theorem lowerProblemState_tracks (ctx : LowerCtx) (fuel : Nat) (body : List BodyItem) :
    Tracks fuel .init (lowerProblemState ctx fuel body) := by
  have h := tracks_calls ctx fuel
  exact h.trans (h.trans (h.trans
    (lowerKeeps_steps h none ctx.target.keeps .init)
    (lowerBody_steps h body ⟨(lowerKeeps ctx fuel none ctx.target.keeps .init).1, [], none⟩ _))
    (lowerAllFieldAttrs_steps h none ctx.target.fields _))
    (lowerWhenSubtypes_steps h ctx.target.whenSubtypes none _)

/-- With enough rounds the lowering returns, and what it returns depends on the errors kept. -/
theorem lowerProblem_result (ctx : LowerCtx) {fuel : Nat} (hfuel : relationExpansionBudget < fuel)
    (body : List BodyItem) :
    ((lowerProblemState ctx fuel body).errors = [] ∧
        ∃ problem, lowerProblem ctx fuel body = some (.ok problem)) ∨
      ((lowerProblemState ctx fuel body).errors ≠ [] ∧
        lowerProblem ctx fuel body = some (.error (lowerProblemState ctx fuel body).errors)) := by
  have hends : (lowerProblemState ctx fuel body).exhausted = false :=
    (lowerProblemState_tracks ctx fuel body).ends hfuel
  unfold lowerProblemState at hends ⊢
  unfold lowerProblem
  dsimp only at hends ⊢
  rw [hends, if_neg Bool.false_ne_true]
  split
  · rename_i hnone
    exact .inl ⟨hnone, _, rfl⟩
  · rename_i hsome
    exact .inr ⟨hsome, rfl⟩

theorem lowerProblem_returns (ctx : LowerCtx) {fuel : Nat} (hfuel : relationExpansionBudget < fuel)
    (body : List BodyItem) : Returns ctx fuel body where
  recorded := (lowerProblemState_tracks ctx fuel body).records
  few := by
    obtain ⟨found, hrecords⟩ := (lowerProblemState_tracks ctx fuel body).records
    exact (Records.keeps hrecords).length_le
  head := fun found hrecords => (Records.keeps hrecords).head
  relation := fun found hrecords => (Records.keeps hrecords).relation
  result := by
    intro found hrecords
    have hhead := (Records.keeps hrecords).head
    change (lowerProblemState ctx fuel body).errors.head? = found.head? at hhead
    rcases lowerProblem_result ctx hfuel body with ⟨hnone, hproblem⟩ | ⟨hsome, herrors⟩
    · rw [hnone] at hhead
      exact .inl ⟨List.head?_eq_none_iff.mp hhead.symm, hproblem⟩
    · refine .inr ⟨?_, herrors⟩
      rintro rfl
      exact hsome (List.head?_eq_none_iff.mp hhead)

/-! ### The limits -/

/-- The recursion of the source has one solution, relations nest to a depth, and the nodes of
the expanded clauses are those of the constraint and two for each one charged. -/
structure WithinLimits (rels : Relations) : Prop where
  recursion : ∀ stack, expansion rels stack = relationCallStep rels (expansion rels) stack
  unique : ∀ f, (∀ stack, f stack = relationCallStep rels f stack) →
    ∀ stack, f stack = expansion rels stack
  nesting : ∀ depth e, clauseNesting rels depth e ≤ relationExpansionMaxDepth
  budget : ∀ e st, (expandTopLevelClause rels e st).2.relationBudget ≤ st.relationBudget
  nodes : ∀ e st, listNodeCount (expandTopLevelClause rels e st).1 ≤ exprNodeCount e +
    2 * (st.relationBudget - (expandTopLevelClause rels e st).2.relationBudget)

theorem withinLimits (rels : Relations) : WithinLimits rels where
  recursion := expansion_step rels
  unique := fun _ hf stack => expansion_unique hf stack
  nesting := clauseNesting_le rels
  budget := fun e st => by
    obtain ⟨found, hrecords⟩ := expandClause_steps records_steps rels _
      (expandCall_steps records_steps rels relationExpansionMaxDepth []) e st
    exact hrecords.budget
  nodes := fun e st => by
    have := expandTopLevelClause_nodes rels e st
    omega

/-- Expansion stays within its limits, and lowering with it comes to an end. -/
theorem expansion_bounded (ctx : LowerCtx) (body : List BodyItem) (extra : Nat) :
    WithinLimits ctx.schemas.relations ∧
      Returns ctx (relationExpansionBudget + 1 + extra) body :=
  ⟨withinLimits ctx.schemas.relations, lowerProblem_returns ctx (by omega) body⟩

theorem substituteList_replicate_true (n : Nat) (subst : Subst) :
    substituteList (List.replicate n (.bool true)) subst = List.replicate n (.bool true) := by
  induction n with
  | zero => rfl
  | succ n ih => rw [List.replicate_succ, substituteList, substituteRelationIdents, ih]

theorem expandClauses_replicate_true (rels : Relations)
    (expand : String → List CallArg → ExpandState → List Expr × ExpandState) (n : Nat)
    (st : ExpandState) :
    expandClauses rels expand (List.replicate n (.bool true)) st =
      (List.replicate n (.bool true), st) := by
  induction n with
  | zero => rfl
  | succ n ih =>
      rw [List.replicate_succ, expandClauses]
      change (_ :: (expandClauses rels expand (List.replicate n (.bool true)) st).1,
        (expandClauses rels expand (List.replicate n (.bool true)) st).2) = _
      rw [ih]
      rfl

theorem listNodeCount_replicate_true (n : Nat) :
    listNodeCount (List.replicate n (.bool true)) = n := by
  induction n with
  | zero => rfl
  | succ n ih =>
      rw [List.replicate_succ, listNodeCount, ih, exprNodeCount]
      · exact Nat.add_comm 1 n
      all_goals nofun

/-- A relation with as many clauses as the budget has nodes. -/
def fullRelations : Relations where
  decls := [⟨"full", [], List.replicate relationExpansionBudget (.bool true)⟩]
  nodup := List.nodup_singleton _

section Full

theorem relationCall_fullRelations : relationCall fullRelations [] "full" [] =
    .ok (List.replicate relationExpansionBudget (.bool true)) := by
  have hfind : fullRelations.find "full" =
      some ⟨"full", [], List.replicate relationExpansionBudget (.bool true)⟩ := rfl
  rw [relationCall, hfind]
  exact congrArg Except.ok (substituteList_replicate_true relationExpansionBudget [])

theorem expandTopLevelRelationCall_full :
    expandTopLevelRelationCall fullRelations relationExpansionMaxDepth [] "full" [] .init =
      (List.replicate relationExpansionBudget (.bool true),
        ExpandState.init.charge relationExpansionBudget) := by
  have hproduced : producedNodes (List.replicate relationExpansionBudget (.bool true)) =
      relationExpansionBudget := by
    rw [producedNodes_eq, listNodeCount_replicate_true]
  rw [relationExpansionMaxDepth, expandTopLevelRelationCall, relationCall_fullRelations]
  dsimp only
  rw [hproduced, if_neg (show ¬ ExpandState.init.relationBudget < relationExpansionBudget from
    Nat.lt_irrefl _), expandClauses_replicate_true]

theorem expandTopLevelClause_full :
    expandTopLevelClause fullRelations (.paren (.call (.ident "full") [])) .init =
      ([.paren (andJoin (List.replicate relationExpansionBudget (.bool true)))],
        ExpandState.init.charge relationExpansionBudget) := by
  unfold expandTopLevelClause expandClause
  have hname : calledRelation fullRelations (.ident "full") = some "full" := rfl
  simp only [calledName, expandRelationSubtree, hname, expandRelationCallAsExpr,
    expandTopLevelRelationCall_full]

theorem exprNodeCount_replicate_true (n : Nat) :
    exprNodeCount (andJoin (List.replicate (n + 1) (.bool true))) + 1 = (n + 1) + (n + 1) := by
  have hjoin := exprNodeCount_andJoin (.bool true) (List.replicate n (.bool true))
  rwa [← List.replicate_succ, listNodeCount_replicate_true, List.length_replicate] at hjoin

theorem budget_exceeded {nodes budget : Nat} (hjoin : nodes + 1 = budget + budget)
    (hlarge : 10 ≤ budget) (hle : 1 + nodes + 0 ≤ 1 + (1 + (1 + 0)) + budget) : False := by
  omega

end Full

/-- The nodes that join the clauses of a call inside an expression are not charged. -/
theorem joined_nodes_exceed_budget :
    ¬ ∀ (rels : Relations) (e : Expr), (expandTopLevelClause rels e .init).2.errors = [] →
        listNodeCount (expandTopLevelClause rels e .init).1 ≤
          exprNodeCount e + relationExpansionBudget := by
  intro h
  have hjoin := exprNodeCount_replicate_true (relationExpansionBudget - 1)
  have hbudget : relationExpansionBudget - 1 + 1 = relationExpansionBudget := by decide
  have hle := h fullRelations (.paren (.call (.ident "full") []))
    (by rw [expandTopLevelClause_full]; rfl)
  rw [hbudget] at hjoin
  rw [expandTopLevelClause_full] at hle
  simp only [listNodeCount, exprNodeCount, argsNodeCount] at hle
  exact budget_exceeded hjoin (by decide) hle

end Harc.RelationBudget
