import Harc.RelationUnfolding

/-!
When relation expansion reports recursion.  The typed lowering and the renderer refuse a
call of a relation that is still being expanded.  Apart from the limits of depth and nodes
and from calls that are refused by themselves, that is when a cycle of relations is unfolded
or a call is nested in itself.
-/

namespace Harc.RelationRecursion

open Harc.Ast
open Harc.RelationExpansion
open Harc.ReachedCalls
open Harc.RelationNesting
open Harc.RelationUnfolding

/-! ### Well-formed calls -/

/-- A call that the renderer can expand: of a relation with its arity, or of a function or
a method. -/
def Rendered (rels : Relations) (callee : Expr) (args : List CallArg) : Prop :=
  plainCallee callee = true ∧ ∀ name rel, callee = .ident name → rels.find name = some rel →
    rel.params.length = args.length

/-- A call that the lowering accepts: the named arguments of a relation are in their places
too. -/
def Accepted (rels : Relations) (callee : Expr) (args : List CallArg) : Prop :=
  plainCallee callee = true ∧ ∀ name rel, callee = .ident name → rels.find name = some rel →
    rel.params.length = args.length ∧ misplacedArg rel.params args = none

/-- A clause that is a call by name is the call of a relation. -/
def declaredClause (rels : Relations) (e : Expr) : Bool :=
  match calledName e with
  | none => true
  | some (name, _) => (rels.find name).isSome

/-- A function that is no relation is called inside an expression only, and not in the argument
of a relation. -/
structure Declared (rels : Relations) (x : Expr) : Prop where
  clause : declaredClause rels x = true
  arguments : ∀ name args inside loops, Reaches rels x (.call (.ident name) args) inside loops →
    inside ≠ [] → (rels.find name).isSome = true

section WellFormed

variable {rels : Relations}

theorem Accepted.rendered {callee : Expr} {args : List CallArg} (h : Accepted rels callee args) :
    Rendered rels callee args :=
  ⟨h.1, fun name rel hname hrel => (h.2 name rel hname hrel).1⟩

theorem length_substituteArgs (args : List CallArg) (subst : Subst) :
    (substituteArgs args subst).length = args.length := by
  rw [substituteArgs_eq_map, List.length_map]

theorem substitutive_rendered : Substitutive (Rendered rels) := by
  intro callee args subst hkept h
  cases callee with
  | ident n =>
      rw [substitute_ident, hkept n rfl]
      refine ⟨rfl, fun name rel hname hrel => ?_⟩
      rw [length_substituteArgs]
      exact h.2 name rel hname hrel
  | field target n =>
      refine ⟨rfl, fun name rel hname _ => ?_⟩
      simp [substituteRelationIdents] at hname
  | _ => exact absurd h.1 Bool.false_ne_true

theorem substitutive_accepted : Substitutive (Accepted rels) := by
  intro callee args subst hkept h
  cases callee with
  | ident n =>
      rw [substitute_ident, hkept n rfl]
      refine ⟨rfl, fun name rel hname hrel => ?_⟩
      rw [length_substituteArgs, misplacedArg_substitute]
      exact h.2 name rel hname hrel
  | field target n =>
      refine ⟨rfl, fun name rel hname _ => ?_⟩
      simp [substituteRelationIdents] at hname
  | _ => exact absurd h.1 Bool.false_ne_true

variable {e : Expr}

theorem Declared.unfold (htexts : ∀ x, TextOf rels e x → Declared rels x)
    (hparam : ¬ CallsParameter rels e) {x : Expr} (hx : Declared rels x) {name : String}
    (hentered : Entered rels e name) {args : List CallArg} {loops : List String}
    (hcall : Reaches rels x (.call (.ident name) args) [] loops) {rel : Relation}
    (hrel : rels.find name = some rel) {clause' : Expr} (hclause' : clause' ∈ rel.unfold args) :
    Declared rels clause' := by
  constructor
  · obtain ⟨clause, hclause, rfl⟩ := substituteList_mem _ _ clause' hclause'
    have htext := htexts clause (.inr ⟨name, rel, hentered, hrel, hclause⟩)
    have hcallees := callees_unfold hparam hentered hrel args hclause
    unfold declaredClause
    cases hc : calledName (substituteRelationIdents clause
        (buildRelationSubst rel.params args)) with
    | none => rfl
    | some c =>
        obtain ⟨name', args'⟩ := c
        change (rels.find name').isSome = true
        have hcalled := calledName_eq_some hc
        cases clause with
        | ident param =>
            -- the clause is a parameter, and its value is the call
            rw [substitute_ident] at hcalled
            cases hvalue : (buildRelationSubst rel.params args).get param with
            | none => simp [hvalue] at hcalled
            | some value =>
                rw [hvalue] at hcalled
                obtain rfl : value = _ := hcalled
                obtain ⟨loops', hreaches⟩ := hcall.trans
                  (.argument hrel hclause hvalue (.here _) List.not_mem_nil (.here _))
                exact hx.arguments name' args' _ loops' hreaches (List.cons_ne_nil _ _)
        | call callee args₀ =>
            rw [substituteRelationIdents, Expr.call.injEq] at hcalled
            cases callee with
            | ident n =>
                have hkept := hcallees n args₀ [] [] (.here _) List.not_mem_nil
                rw [substitute_ident, hkept] at hcalled
                obtain rfl : n = name' := Expr.ident.inj hcalled.1
                exact htext.clause
            | _ => simp [substituteRelationIdents] at hcalled
        | _ => simp [substituteRelationIdents] at hcalled
  · intro name' args' inside loops' hreaches hinside
    rcases unfold_reaches hparam hentered hrel hclause' hreaches with
      ⟨clause, hclause, callee, args₀, subst, hg, hname', rfl, hkept⟩ | ⟨_, _, _, hg, -⟩
    · obtain rfl := callee_of_substitute hkept hname'
      exact (htexts clause (.inr ⟨name, rel, hentered, hrel, hclause⟩)).arguments name' args₀
        inside loops' hg hinside
    · obtain ⟨loops'', htrans⟩ := hcall.trans hg
      exact hx.arguments _ _ _ _ htrans (List.cons_ne_nil _ _)

end WellFormed

/-! ### The state of the walk -/

section WalkState

variable (rels : Relations) (expand : String → List CallArg → ExpandState → Expr × ExpandState)

/-- The state after the expansion of a list of calls. -/
def runCalls (cs : List DirectCall) (st : ExpandState) : ExpandState :=
  cs.foldl (fun st c => (expand c.name c.args st).2) st

theorem runCalls_append (cs ds : List DirectCall) (st : ExpandState) :
    runCalls expand (cs ++ ds) st = runCalls expand ds (runCalls expand cs st) :=
  List.foldl_append

mutual

/-- The walk changes the state by the calls that it meets only. -/
theorem walk_state : ∀ (e : Expr) (bound : List String) (st : ExpandState),
    (expandRelationSubtree rels expand e st).2 = runCalls expand (directCalls rels bound e) st
  | .call callee args, bound, st => by
      rw [expandRelationSubtree, directCalls]
      cases calledRelation rels callee with
      | some name => rfl
      | none =>
          rw [runCalls_append]
          simp only [walkArgs_state args bound, walk_state callee bound]
  | .field target _, bound, st => by
      rw [expandRelationSubtree, directCalls]
      exact walk_state target bound st
  | .index target index, bound, st => by
      rw [expandRelationSubtree, directCalls, runCalls_append]
      simp only [walk_state target bound, walk_state index bound]
  | .bitSlice target hi lo, bound, st => by
      rw [expandRelationSubtree, directCalls, runCalls_append, runCalls_append]
      simp only [walk_state target bound, walk_state hi bound, walk_state lo bound]
  | .forEachConstraint var iter body, bound, st => by
      rw [expandRelationSubtree, directCalls, runCalls_append]
      simp only [walk_state iter bound, walkList_state body (var :: bound)]
  | .cast expr _, bound, st => by
      rw [expandRelationSubtree, directCalls]
      exact walk_state expr bound st
  | .unary _ expr, bound, st => by
      rw [expandRelationSubtree, directCalls]
      exact walk_state expr bound st
  | .binary _ lhs rhs, bound, st => by
      rw [expandRelationSubtree, directCalls, runCalls_append]
      simp only [walk_state lhs bound, walk_state rhs bound]
  | .ternary cond thenBranch elseBranch, bound, st => by
      rw [expandRelationSubtree, directCalls, runCalls_append, runCalls_append]
      simp only [walk_state cond bound, walk_state thenBranch bound, walk_state elseBranch bound]
  | .paren inner, bound, st => by
      rw [expandRelationSubtree, directCalls]
      exact walk_state inner bound st
  | .membership expr set, bound, st => by
      rw [expandRelationSubtree, directCalls, runCalls_append]
      simp only [walk_state expr bound, walk_state set bound]
  | .setLit items, bound, st => by
      rw [expandRelationSubtree, directCalls]
      exact walkList_state items bound st
  | .rangeLit lo hi, bound, st => by
      rw [expandRelationSubtree, directCalls, runCalls_append]
      simp only [walkBound_state lo bound, walkBound_state hi bound]
  | .int _, _, _ | .bool _, _, _ | .string _, _, _ | .number _, _, _ | .ident _, _, _
  | .implicitSelf, _, _ | .other _, _, _ => by
      rw [expandRelationSubtree]
      simp [directCalls, runCalls]

theorem walkList_state : ∀ (es : List Expr) (bound : List String) (st : ExpandState),
    (expandList rels expand es st).2 = runCalls expand (listDirectCalls rels bound es) st
  | [], _, _ => rfl
  | e :: es, bound, st => by
      rw [expandList, listDirectCalls, runCalls_append]
      simp only [walk_state e bound, walkList_state es bound]

theorem walkBound_state : ∀ (b : Option Expr) (bound : List String) (st : ExpandState),
    (expandBound rels expand b st).2 = runCalls expand (boundDirectCalls rels bound b) st
  | none, _, _ => rfl
  | some e, bound, st => by
      rw [expandBound, boundDirectCalls]
      exact walk_state e bound st

theorem walkArgs_state : ∀ (args : List CallArg) (bound : List String) (st : ExpandState),
    (expandArgs rels expand args st).2 = runCalls expand (argsDirectCalls rels bound args) st
  | [], _, _ => rfl
  | .expr value :: args, bound, st => by
      rw [expandArgs, argsDirectCalls, runCalls_append]
      simp only [walk_state value bound, walkArgs_state args bound]
  | .named _ value :: args, bound, st => by
      rw [expandArgs, argsDirectCalls, runCalls_append]
      simp only [walk_state value bound, walkArgs_state args bound]

end

end WalkState

/-! ### Without an open relation -/

section Silent

variable {rels : Relations}

/-- No recursion is reported. -/
def Silent (st : ExpandState) : Prop := ∀ name, .recursiveRelation name ∉ st.errors

theorem Silent.recordError {st : ExpandState} (h : Silent st) {e : LowerError}
    (he : ∀ name, e ≠ .recursiveRelation name) : Silent (st.recordError e) := by
  intro name hname
  have hadded : .recursiveRelation name ∈ st.errors ++ [e] := by
    unfold ExpandState.recordError at hname
    split_ifs at hname
    · exact List.mem_append_left _ hname
    · exact hname
    · exact hname
    · exact List.mem_append_left _ hname
  rcases List.mem_append.mp hadded with hmem | hmem
  · exact h name hmem
  · exact he name (List.mem_singleton.mp hmem).symm

/-- A call is refused as recursive only if its relation is declared and open. -/
theorem relationCall_recursive {stack : List String} {name name' : String} {args : List CallArg}
    (h : relationCall rels stack name args = .error (.recursiveRelation name')) :
    (rels.find name).isSome = true ∧ name ∈ stack := by
  unfold relationCall at h
  cases hf : rels.find name with
  | none =>
      simp only [hf] at h
      split at h <;> simp at h
  | some rel =>
      simp only [hf] at h
      refine ⟨rfl, ?_⟩
      by_contra hmem
      rw [if_neg hmem] at h
      split_ifs at h
      · simp at h
      · simp at h
      · split at h <;> simp at h
      · split at h <;> simp at h

theorem runCalls_silent (expand : String → List CallArg → ExpandState → Expr × ExpandState)
    (cs : List DirectCall)
    (h : ∀ c ∈ cs, ∀ st, Silent st → Silent (expand c.name c.args st).2) :
    ∀ st, Silent st → Silent (runCalls expand cs st) := by
  induction cs with
  | nil => exact fun st hst => hst
  | cons c cs ih =>
      intro st hst
      rw [List.forall_mem_cons] at h
      exact ih h.2 _ (h.1 st hst)

theorem expandClause_silent (expand : String → List CallArg → ExpandState → List Expr × ExpandState)
    (hundeclared : ∀ name args st, rels.find name = none → Silent st →
      Silent (expand name args st).2) (e : Expr)
    (h : ∀ c ∈ directCalls rels [] e, ∀ st, Silent st → Silent (expand c.name c.args st).2) :
    ∀ st, Silent st → Silent (expandClause rels expand e st).2 := by
  intro st hst
  unfold expandClause
  cases hc : calledName e with
  | none =>
      dsimp only
      rw [walk_state rels _ e [] st]
      exact runCalls_silent _ _ h st hst
  | some c =>
      obtain ⟨name, args⟩ := c
      obtain rfl := calledName_eq_some hc
      cases hf : rels.find name with
      | none => exact hundeclared name args st hf hst
      | some rel =>
          rw [directCalls_call args [] (by rw [hf]; rfl)] at h
          exact h _ (List.mem_singleton_self _) st hst

theorem expandClauses_silent
    (expand : String → List CallArg → ExpandState → List Expr × ExpandState)
    (hundeclared : ∀ name args st, rels.find name = none → Silent st →
      Silent (expand name args st).2) (es : List Expr)
    (h : ∀ e ∈ es, ∀ c ∈ directCalls rels [] e, ∀ st, Silent st →
      Silent (expand c.name c.args st).2) :
    ∀ st, Silent st → Silent (expandClauses rels expand es st).2 := by
  induction es with
  | nil => exact fun st hst => hst
  | cons e es ih =>
      intro st hst
      rw [List.forall_mem_cons] at h
      exact ih h.2 _ (expandClause_silent expand hundeclared e h.1 st hst)

/-- Recursion is reported only if an open relation is met. -/
theorem expandCall_silent (depth : Nat) : ∀ stack name args,
    ((rels.find name).isSome = true → callMeets rels depth stack name args = false) →
      ∀ st, Silent st → Silent (expandTopLevelRelationCall rels depth stack name args st).2 := by
  have herror : ∀ {depth stack name args e},
      ((rels.find name).isSome = true → callMeets rels depth stack name args = false) →
      relationCall rels stack name args = .error e → ∀ name', e ≠ .recursiveRelation name' := by
    rintro depth stack name args e hmeets hcall name' rfl
    obtain ⟨hdeclared, hmem⟩ := relationCall_recursive hcall
    have hnone := hmeets hdeclared
    cases depth <;> simp [callMeets, hmem] at hnone
  induction depth with
  | zero =>
      intro stack name args hmeets st hst
      rw [expandTopLevelRelationCall]
      split
      · rename_i hcall
        exact hst.recordError (herror hmeets hcall)
      · exact hst
  | succ depth ih =>
      intro stack name args hmeets st hst
      rw [expandTopLevelRelationCall]
      split
      · rename_i hcall
        exact hst.recordError (herror hmeets hcall)
      · rename_i bodies hcall
        obtain ⟨rel, hrel, -, -, -, rfl⟩ := relationCall_ok hcall
        split
        · exact hst.recordError fun name' h => by cases h
        · refine expandClauses_silent _ ?_ _ ?_ _ hst
          · intro name' args' st' hf hst'
            refine ih (name :: stack) name' args' (fun hdeclared => ?_) st' hst'
            simp [hf] at hdeclared
          · intro clause hclause c hc st' hst'
            have hnone := hmeets (by rw [hrel]; rfl)
            simp only [callMeets, hrel, Bool.or_eq_false_iff, List.any_eq_false,
              Bool.not_eq_true] at hnone
            have hinner : c ∈ innerCalls rels rel args :=
              List.mem_flatMap.mpr ⟨clause, hclause, hc⟩
            exact ih (name :: stack) c.name c.args (fun _ => hnone.2 c hinner) st' hst'

end Silent

/-! ### With an open relation -/

section Reports

variable {rels : Relations}

/-- What a step does to the state: it charges nodes, and reports recursion if it meets a
relation that is still being expanded and no relation error was reported before. -/
structure Reports (st st' : ExpandState) (met : Bool) (cost : Nat) : Prop where
  budget : st'.relationBudget + cost = st.relationBudget
  silent : st.sawRelationError = true ∨ met = false →
    st'.errors = st.errors ∧ st'.sawRelationError = st.sawRelationError
  report : st.sawRelationError = false → met = true →
    st'.sawRelationError = true ∧ ∃ name, st'.errors = st.errors ++ [.recursiveRelation name]

theorem Reports.refl (st : ExpandState) : Reports st st false 0 :=
  ⟨rfl, fun _ => ⟨rfl, rfl⟩, fun _ h => absurd h Bool.false_ne_true⟩

theorem Reports.trans {st₁ st₂ st₃ : ExpandState} {met met' : Bool} {cost cost' : Nat}
    (h : Reports st₁ st₂ met cost) (h' : Reports st₂ st₃ met' cost') :
    Reports st₁ st₃ (met || met') (cost + cost') := by
  refine ⟨?_, ?_, ?_⟩
  · have := h.budget
    have := h'.budget
    omega
  · intro hquiet
    have hfirst : st₁.sawRelationError = true ∨ met = false := by
      rcases hquiet with hquiet | hquiet
      · exact Or.inl hquiet
      · exact Or.inr (Bool.or_eq_false_iff.mp hquiet).1
    obtain ⟨he, hs⟩ := h.silent hfirst
    have hsecond : st₂.sawRelationError = true ∨ met' = false := by
      rcases hquiet with hquiet | hquiet
      · exact Or.inl (hs.trans hquiet)
      · exact Or.inr (Bool.or_eq_false_iff.mp hquiet).2
    obtain ⟨he', hs'⟩ := h'.silent hsecond
    exact ⟨he'.trans he, hs'.trans hs⟩
  · intro hsaw hmet
    cases met with
    | true =>
        obtain ⟨hs, name, he⟩ := h.report hsaw rfl
        obtain ⟨he', hs'⟩ := h'.silent (Or.inl hs)
        exact ⟨hs'.trans hs, name, he'.trans he⟩
    | false =>
        obtain ⟨he, hs⟩ := h.silent (Or.inr rfl)
        obtain ⟨hs', name, he'⟩ := h'.report (hs.trans hsaw) (by simpa using hmet)
        exact ⟨hs', name, by rw [he', he]⟩

/-- The steps of a list of calls together. -/
theorem runCalls_reports (expand : String → List CallArg → ExpandState → Expr × ExpandState)
    (met : DirectCall → Bool) (cost : DirectCall → Option Nat) (cs : List DirectCall)
    (h : ∀ c ∈ cs, ∀ st n, cost c = some n → n ≤ st.relationBudget →
      Reports st (expand c.name c.args st).2 (met c) n) :
    ∀ st total, sumCosts (cs.map cost) = some total → total ≤ st.relationBudget →
      Reports st (runCalls expand cs st) (cs.any met) total := by
  induction cs with
  | nil =>
      intro st total hsum _
      obtain rfl : 0 = total := Option.some.inj hsum
      exact Reports.refl st
  | cons c cs ih =>
      intro st total hsum hle
      rw [List.forall_mem_cons] at h
      cases hc : cost c with
      | none => simp [sumCosts, hc] at hsum
      | some n =>
          simp only [List.map_cons, hc, sumCosts, Option.map_eq_some_iff] at hsum
          obtain ⟨m, hm, rfl⟩ := hsum
          have hfirst := h.1 st n hc (by omega)
          have hrest := ih h.2 (expand c.name c.args st).2 m hm (by
            have := hfirst.budget
            omega)
          exact hfirst.trans hrest

/-- The calls of a clause. -/
theorem expandClause_state (expand : String → List CallArg → ExpandState → List Expr × ExpandState)
    (e : Expr) (hd : declaredClause rels e = true) (st : ExpandState) :
    (expandClause rels expand e st).2 =
      runCalls (expandRelationCallAsExpr expand) (directCalls rels [] e) st := by
  unfold expandClause
  cases hc : calledName e with
  | none => exact walk_state rels _ e [] st
  | some c =>
      obtain ⟨name, args⟩ := c
      simp only [declaredClause, hc] at hd
      obtain rfl := calledName_eq_some hc
      rw [directCalls, calledRelation, if_pos hd]
      rfl

/-- The calls of the clauses, in their order. -/
theorem expandClauses_state (expand : String → List CallArg → ExpandState → List Expr × ExpandState)
    (es : List Expr) (hd : ∀ e ∈ es, declaredClause rels e = true) (st : ExpandState) :
    (expandClauses rels expand es st).2 =
      runCalls (expandRelationCallAsExpr expand) (es.flatMap (directCalls rels [])) st := by
  induction es generalizing st with
  | nil => rfl
  | cons e es ih =>
      rw [List.forall_mem_cons] at hd
      rw [expandClauses, List.flatMap_cons, runCalls_append, ← expandClause_state expand e hd.1]
      exact ih hd.2 _

theorem relationCall_accepted {stack : List String} {name : String} {args : List CallArg}
    {rel : Relation} (hf : rels.find name = some rel) (hlen : rel.params.length = args.length)
    (hplace : misplacedArg rel.params args = none) :
    relationCall rels stack name args =
      if name ∈ stack then .error (.recursiveRelation name)
      else if relationExpansionMaxDepth ≤ stack.length then
        .error (.relationExpansionTooLarge name)
      else .ok (rel.unfold args) := by
  simp [relationCall, hf, hlen, hplace]

variable {e : Expr}

/-- The expansion of an accepted call within the limits reports recursion exactly if the
unfolding of the call meets a relation that is still being unfolded. -/
theorem expandCall_reports (hQ : Throughout rels e (Accepted rels))
    (htexts : ∀ x, TextOf rels e x → Declared rels x) (hparam : ¬ CallsParameter rels e)
    (depth : Nat) : ∀ stack x, MadeOf rels e (Accepted rels) x → Declared rels x →
      depth + stack.length = relationExpansionMaxDepth →
      ∀ c ∈ directCalls rels [] x, ∀ st cost, callCost rels depth stack c.name c.args = some cost →
        cost ≤ st.relationBudget →
          Reports st (expandTopLevelRelationCall rels depth stack c.name c.args st).2
            (callMeets rels depth stack c.name c.args) cost := by
  have hactive : ∀ (st : ExpandState) (name : String),
      Reports st (st.recordError (.recursiveRelation name)) true 0 := by
    intro st name
    unfold ExpandState.recordError
    rw [if_pos (show (LowerError.recursiveRelation name).isRelationError = true from rfl)]
    refine ⟨?_, ?_, ?_⟩
    · split <;> rfl
    · intro hquiet
      rw [if_pos (hquiet.resolve_right (by decide))]
      exact ⟨rfl, rfl⟩
    · intro hsaw _
      rw [if_neg (by simp [hsaw])]
      exact ⟨rfl, name, rfl⟩
  induction depth with
  | zero =>
      intro stack x hx hdeclared hdepth c hc st cost hcost hle
      obtain ⟨hname, loops, hreaches⟩ := reaches_of_directCalls x [] c hc
      obtain ⟨rel, hf⟩ := Option.isSome_iff_exists.mp hname
      obtain ⟨hlen, hplace⟩ := (hx.calls _ _ _ _ hreaches).2 c.name rel rfl hf
      by_cases hmem : c.name ∈ stack
      · obtain rfl : 0 = cost := by simpa [callCost, hmem] using hcost
        rw [expandTopLevelRelationCall, relationCall_accepted hf hlen hplace, if_pos hmem]
        simp only [callMeets, List.contains_eq_mem, hmem, decide_true]
        exact hactive st c.name
      · simp [callCost, hmem] at hcost
  | succ depth ih =>
      intro stack x hx hdeclared hdepth c hc st cost hcost hle
      obtain ⟨hname, loops, hreaches⟩ := reaches_of_directCalls x [] c hc
      obtain ⟨rel, hf⟩ := Option.isSome_iff_exists.mp hname
      obtain ⟨hlen, hplace⟩ := (hx.calls _ _ _ _ hreaches).2 c.name rel rfl hf
      rw [expandTopLevelRelationCall, relationCall_accepted hf hlen hplace]
      by_cases hmem : c.name ∈ stack
      · obtain rfl : 0 = cost := by simpa [callCost, hmem] using hcost
        rw [if_pos hmem]
        simp only [callMeets, List.contains_eq_mem, hmem, decide_true, Bool.true_or]
        exact hactive st c.name
      · have hroom : ¬ relationExpansionMaxDepth ≤ stack.length := by omega
        simp only [callCost, List.contains_eq_mem, hmem, decide_false, Bool.false_eq_true,
          if_false, hf, Option.map_eq_some_iff] at hcost
        obtain ⟨inner, hinner, rfl⟩ := hcost
        have hbudget : ¬ st.relationBudget < producedNodes (rel.unfold c.args) := by omega
        have hbody : ∀ clause ∈ rel.unfold c.args, MadeOf rels e (Accepted rels) clause :=
          fun clause hclause => hx.unfold hQ substitutive_accepted hparam hreaches hf hclause
        have hclauses : ∀ clause ∈ rel.unfold c.args, Declared rels clause :=
          fun clause hclause => hdeclared.unfold htexts hparam
            (hx.entered _ _ _ _ hreaches hname) hreaches hf hclause
        rw [if_neg hmem, if_neg hroom]
        simp only [if_neg hbudget, callMeets, List.contains_eq_mem, hmem, decide_false,
          Bool.false_or, hf]
        rw [expandClauses_state _ _ fun clause hclause => (hclauses clause hclause).clause]
        have hrun := runCalls_reports
          (expandRelationCallAsExpr (expandTopLevelRelationCall rels depth (c.name :: stack)))
          (fun c' => callMeets rels depth (c.name :: stack) c'.name c'.args)
          (fun c' => callCost rels depth (c.name :: stack) c'.name c'.args)
          (innerCalls rels rel c.args) (by
            intro d hd st n hn hle
            obtain ⟨clause, hclause, hd⟩ := List.mem_flatMap.mp hd
            exact ih (c.name :: stack) clause (hbody clause hclause) (hclauses clause hclause)
              (by rw [List.length_cons]; omega) d hd st n hn hle)
          (st.charge (producedNodes (rel.unfold c.args))) inner hinner (by
            rw [ExpandState.charge_relationBudget]
            omega)
        have hcharge : Reports st (st.charge (producedNodes (rel.unfold c.args))) false
            (producedNodes (rel.unfold c.args)) := by
          refine ⟨?_, fun _ => ⟨rfl, rfl⟩, fun _ h => absurd h Bool.false_ne_true⟩
          rw [ExpandState.charge_relationBudget]
          omega
        exact hcharge.trans hrun

end Reports

/-! ### The renderer -/

section Renderer

variable {rels : Relations}

/-- No call of an expression that is walked has a computed callee. -/
def Plain (rels : Relations) (e : Expr) : Prop :=
  ∀ callee args loops, Reaches rels e (.call callee args) [] loops → plainCallee callee = true

theorem Plain.part {e c : Expr} {vars : List String} (h : Plain rels e)
    (hopened : opened rels e = none) (hc : (vars, c) ∈ parts e) : Plain rels c :=
  fun callee args _ hreaches => h callee args _ (.part hopened hc hreaches)

theorem opened_of_calledRelation {callee : Expr} (h : calledRelation rels callee = none)
    (args : List CallArg) : opened rels (.call callee args) = none := by
  cases callee with
  | ident n => simpa [calledRelation, opened] using h
  | _ => rfl

/-- What a walk of the renderer ends with: a budget, and an expression without the calls
of relations. -/
structure Leaves (rels : Relations) (names : List String) (budget rest : Nat) : Prop where
  budget_eq : budget = rest
  undeclared : ∀ n ∈ names, rels.find n = none

theorem Leaves.both {names names' : List String} {mid budget rest rest' : Nat}
    (h : Leaves rels names mid rest') (h' : Leaves rels names' budget rest) :
    Leaves rels (names ++ names') budget rest := by
  refine ⟨h'.budget_eq, fun n hn => ?_⟩
  rcases List.mem_append.mp hn with hn | hn
  · exact h.undeclared n hn
  · exact h'.undeclared n hn

/-- The calls are expanded for what they cost, and only relations are expanded. -/
structure Runs (rels : Relations)
    (expand : Bool → String → List CallArg → Nat → Option (List Expr × Nat))
    (cost : DirectCall → Option Nat) (cs : List DirectCall) (total : Nat) : Prop where
  good : ∀ c ∈ cs, ∀ top n rest, cost c = some n →
    ∃ es, expand top c.name c.args (n + rest) = some (es, rest) ∧
      ∀ m ∈ listCallNames es, rels.find m = none
  refused : ∀ top name args budget, rels.find name = none → expand top name args budget = none
  sum : sumCosts (cs.map cost) = some total

theorem Runs.append {expand : Bool → String → List CallArg → Nat → Option (List Expr × Nat)}
    {cost : DirectCall → Option Nat} {cs ds : List DirectCall} {total : Nat}
    (h : Runs rels expand cost (cs ++ ds) total) :
    ∃ a b, Runs rels expand cost cs a ∧ Runs rels expand cost ds b ∧ total = a + b := by
  have hsum := h.sum
  rw [List.map_append] at hsum
  obtain ⟨a, b, ha, hb, rfl⟩ := sumCosts_append _ _ _ hsum
  exact ⟨a, b, ⟨fun c hc => h.good c (List.mem_append_left _ hc), h.refused, ha⟩,
    ⟨fun c hc => h.good c (List.mem_append_right _ hc), h.refused, hb⟩, rfl⟩

theorem Runs.single {expand : Bool → String → List CallArg → Nat → Option (List Expr × Nat)}
    {cost : DirectCall → Option Nat} {c : DirectCall} {total : Nat}
    (h : Runs rels expand cost [c] total) (top : Bool) (rest : Nat) :
    ∃ es, expand top c.name c.args (total + rest) = some (es, rest) ∧
      ∀ m ∈ listCallNames es, rels.find m = none := by
  have hsum := h.sum
  cases hc : cost c with
  | none => simp [hc, sumCosts] at hsum
  | some n =>
      obtain rfl : n = total := by simpa [hc, sumCosts] using hsum
      exact h.good c List.mem_cons_self top n rest hc

theorem Runs.nil_total {expand : Bool → String → List CallArg → Nat → Option (List Expr × Nat)}
    {cost : DirectCall → Option Nat} {total : Nat} (h : Runs rels expand cost [] total) :
    total = 0 :=
  (Option.some.inj h.sum).symm

theorem listCallNames_append (es fs : List Expr) :
    listCallNames (es ++ fs) = listCallNames es ++ listCallNames fs := by
  induction es with
  | nil => rfl
  | cons e es ih => rw [List.cons_append, listCallNames, ih, listCallNames, List.append_assoc]

theorem callNames_andJoin (es : List Expr) :
    ∀ n ∈ callNames (andJoin es), n ∈ listCallNames es := by
  have hfold : ∀ (es : List Expr) (e : Expr),
      ∀ n ∈ callNames (es.foldl (.binary .andAnd) e), n ∈ callNames e ++ listCallNames es := by
    intro es
    induction es with
    | nil =>
        intro e n hn
        exact List.mem_append_left _ hn
    | cons f es ih =>
        intro e n hn
        have := ih (.binary .andAnd e f) n hn
        rw [callNames, List.append_assoc] at this
        exact this
  cases es with
  | nil => exact fun n hn => hn
  | cons e es => exact hfold es e

section RendererWalk

variable {expand : Bool → String → List CallArg → Nat → Option (List Expr × Nat)}
  {cost : DirectCall → Option Nat}

mutual

/-- A walk whose calls can be afforded leaves no call of a relation. -/
theorem walk_leaves : ∀ (e : Expr) (bound : List String) (total rest : Nat),
    Plain rels e → Runs rels expand cost (directCalls rels bound e) total →
      Leaves rels (callNames (rendererSubtree expand e (total + rest)).1)
        (rendererSubtree expand e (total + rest)).2 rest
  | .call callee args, bound, total, rest, hp, h => by
      rw [directCalls] at h
      cases hr : calledRelation rels callee with
      | some name =>
          rw [hr] at h
          obtain ⟨hname, -⟩ := calledRelation_eq_some hr
          obtain ⟨es, hes, hclean⟩ := h.single false rest
          have hcallee : callee = .ident name := by
            cases callee <;> simp [calleeName] at hname
            rw [hname]
          subst hcallee
          simp only [rendererSubtree, calledName, Option.bind_some, hes]
          exact ⟨rfl, fun n hn => hclean n (callNames_andJoin es n hn)⟩
      | none =>
          rw [hr] at h
          obtain ⟨a, b, ha, hb, rfl⟩ := h.append
          have hopened := opened_of_calledRelation hr args
          have hargs := walkArgs_leaves args bound b rest
            (fun a ha' => hp.part hopened (List.mem_cons_of_mem _ (List.mem_map_of_mem ha'))) hb
          cases callee with
          | ident name =>
              have hfind : rels.find name = none := by simpa [calledRelation] using hr
              obtain rfl := ha.nil_total
              rw [Nat.zero_add]
              simp only [rendererSubtree, calledName, Option.bind_some,
                hb.refused false name args (b + rest) hfind, callNames, calleeName]
              have hname : Leaves rels [name] (b + rest) (b + rest) :=
                ⟨rfl, fun n hn => List.mem_singleton.mp hn ▸ hfind⟩
              exact hname.both hargs
          | field target name =>
              have hcallee := walk_leaves (.field target name) bound a (b + rest)
                (hp.part hopened (.head _)) ha
              simp only [rendererSubtree, callNames] at hcallee
              simp only [rendererSubtree, calledName, Option.bind_none, Nat.add_assoc,
                hcallee.budget_eq, callNames, calleeName]
              exact hcallee.both hargs
          | _ => exact absurd (hp _ args [] (.here _)) Bool.false_ne_true
  | .field target name, bound, total, rest, hp, h => by
      rw [directCalls] at h
      simp only [rendererSubtree, callNames]
      exact walk_leaves target bound total rest (hp.part rfl (.head _)) h
  | .index target index, bound, total, rest, hp, h => by
      rw [directCalls] at h
      obtain ⟨a, b, ha, hb, rfl⟩ := h.append
      have ht := walk_leaves target bound a (b + rest) (hp.part rfl (.head _)) ha
      have hi := walk_leaves index bound b rest (hp.part rfl (.tail _ (.head _))) hb
      simp only [rendererSubtree, callNames, Nat.add_assoc, ht.budget_eq]
      exact ht.both hi
  | .bitSlice target hi lo, bound, total, rest, hp, h => by
      rw [directCalls] at h
      obtain ⟨a, b, ha, hb, rfl⟩ := h.append
      obtain ⟨c, d, hc, hd, rfl⟩ := hb.append
      have ht := walk_leaves target bound a (c + (d + rest)) (hp.part rfl (.head _)) ha
      have hh := walk_leaves hi bound c (d + rest) (hp.part rfl (.tail _ (.head _))) hc
      have hl := walk_leaves lo bound d rest (hp.part rfl (.tail _ (.tail _ (.head _)))) hd
      simp only [rendererSubtree, callNames, Nat.add_assoc, ht.budget_eq, hh.budget_eq]
      exact ht.both (hh.both hl)
  | .forEachConstraint var iter body, bound, total, rest, hp, h => by
      rw [directCalls] at h
      obtain ⟨a, b, ha, hb, rfl⟩ := h.append
      have hi := walk_leaves iter bound a (b + rest) (hp.part rfl (.head _)) ha
      have hbody := clauses_leave body (var :: bound) b rest
        (fun c hc => hp.part rfl (List.mem_cons_of_mem _ (List.mem_map_of_mem hc))) hb
      simp only [rendererSubtree, callNames, Nat.add_assoc, hi.budget_eq]
      exact hi.both hbody
  | .cast expr _, bound, total, rest, hp, h => by
      rw [directCalls] at h
      simp only [rendererSubtree, callNames]
      exact walk_leaves expr bound total rest (hp.part rfl (.head _)) h
  | .unary _ expr, bound, total, rest, hp, h => by
      rw [directCalls] at h
      simp only [rendererSubtree, callNames]
      exact walk_leaves expr bound total rest (hp.part rfl (.head _)) h
  | .binary _ lhs rhs, bound, total, rest, hp, h => by
      rw [directCalls] at h
      obtain ⟨a, b, ha, hb, rfl⟩ := h.append
      have hl := walk_leaves lhs bound a (b + rest) (hp.part rfl (.head _)) ha
      have hr := walk_leaves rhs bound b rest (hp.part rfl (.tail _ (.head _))) hb
      simp only [rendererSubtree, callNames, Nat.add_assoc, hl.budget_eq]
      exact hl.both hr
  | .ternary cond thenBranch elseBranch, bound, total, rest, hp, h => by
      rw [directCalls] at h
      obtain ⟨a, b, ha, hb, rfl⟩ := h.append
      obtain ⟨c, d, hc, hd, rfl⟩ := hb.append
      have hcond := walk_leaves cond bound a (c + (d + rest)) (hp.part rfl (.head _)) ha
      have hthen := walk_leaves thenBranch bound c (d + rest)
        (hp.part rfl (.tail _ (.head _))) hc
      have helse := walk_leaves elseBranch bound d rest
        (hp.part rfl (.tail _ (.tail _ (.head _)))) hd
      simp only [rendererSubtree, callNames, Nat.add_assoc, hcond.budget_eq, hthen.budget_eq]
      exact hcond.both (hthen.both helse)
  | .paren inner, bound, total, rest, hp, h => by
      rw [directCalls] at h
      simp only [rendererSubtree, callNames]
      exact walk_leaves inner bound total rest (hp.part rfl (.head _)) h
  | .membership expr set, bound, total, rest, hp, h => by
      rw [directCalls] at h
      obtain ⟨a, b, ha, hb, rfl⟩ := h.append
      have he := walk_leaves expr bound a (b + rest) (hp.part rfl (.head _)) ha
      have hs := walk_leaves set bound b rest (hp.part rfl (.tail _ (.head _))) hb
      simp only [rendererSubtree, callNames, Nat.add_assoc, he.budget_eq]
      exact he.both hs
  | .setLit items, bound, total, rest, hp, h => by
      rw [directCalls] at h
      simp only [rendererSubtree, callNames]
      exact walkList_leaves items bound total rest
        (fun c hc => hp.part rfl (List.mem_map_of_mem hc)) h
  | .rangeLit lo hi, bound, total, rest, hp, h => by
      rw [directCalls] at h
      obtain ⟨a, b, ha, hb, rfl⟩ := h.append
      have hl := walkBound_leaves lo bound a (b + rest)
        (fun c hc => hp.part rfl (List.mem_map_of_mem
          (List.mem_append_left _ (Option.mem_toList.mpr hc)))) ha
      have hh := walkBound_leaves hi bound b rest
        (fun c hc => hp.part rfl (List.mem_map_of_mem
          (List.mem_append_right _ (Option.mem_toList.mpr hc)))) hb
      simp only [rendererSubtree, callNames, Nat.add_assoc, hl.budget_eq]
      exact hl.both hh
  | .int _, _, total, rest, _, h | .bool _, _, total, rest, _, h
  | .string _, _, total, rest, _, h | .number _, _, total, rest, _, h
  | .ident _, _, total, rest, _, h | .implicitSelf, _, total, rest, _, h
  | .other _, _, total, rest, _, h => by
      have htotal : total = 0 := h.nil_total
      subst htotal
      refine ⟨?_, ?_⟩
      · rw [rendererSubtree, Nat.zero_add]
      · rw [rendererSubtree]
        simp [callNames]

theorem walkList_leaves : ∀ (es : List Expr) (bound : List String) (total rest : Nat),
    (∀ e ∈ es, Plain rels e) → Runs rels expand cost (listDirectCalls rels bound es) total →
      Leaves rels (listCallNames (rendererList expand es (total + rest)).1)
        (rendererList expand es (total + rest)).2 rest
  | [], _, total, rest, _, h => by
      have htotal : total = 0 := h.nil_total
      subst htotal
      exact ⟨Nat.zero_add rest, fun n hn => absurd hn (List.not_mem_nil)⟩
  | e :: es, bound, total, rest, hp, h => by
      rw [List.forall_mem_cons] at hp
      rw [listDirectCalls] at h
      obtain ⟨a, b, ha, hb, rfl⟩ := h.append
      have he := walk_leaves e bound a (b + rest) hp.1 ha
      have hes := walkList_leaves es bound b rest hp.2 hb
      simp only [rendererList, listCallNames, Nat.add_assoc, he.budget_eq]
      exact he.both hes

theorem walkBound_leaves : ∀ (b : Option Expr) (bound : List String) (total rest : Nat),
    (∀ e ∈ b, Plain rels e) → Runs rels expand cost (boundDirectCalls rels bound b) total →
      Leaves rels (boundCallNames (rendererBound expand b (total + rest)).1)
        (rendererBound expand b (total + rest)).2 rest
  | none, _, total, rest, _, h => by
      have htotal : total = 0 := h.nil_total
      subst htotal
      exact ⟨Nat.zero_add rest, fun n hn => absurd hn (List.not_mem_nil)⟩
  | some e, bound, total, rest, hp, h => by
      rw [boundDirectCalls] at h
      simp only [rendererBound, boundCallNames]
      exact walk_leaves e bound total rest (hp e rfl) h

theorem walkArgs_leaves : ∀ (args : List CallArg) (bound : List String) (total rest : Nat),
    (∀ a ∈ args, Plain rels a.value) →
    Runs rels expand cost (argsDirectCalls rels bound args) total →
      Leaves rels (argsCallNames (rendererArgs expand args (total + rest)).1)
        (rendererArgs expand args (total + rest)).2 rest
  | [], _, total, rest, _, h => by
      have htotal : total = 0 := h.nil_total
      subst htotal
      exact ⟨Nat.zero_add rest, fun n hn => absurd hn (List.not_mem_nil)⟩
  | .expr value :: args, bound, total, rest, hp, h => by
      rw [List.forall_mem_cons] at hp
      rw [argsDirectCalls] at h
      obtain ⟨a, b, ha, hb, rfl⟩ := h.append
      have hv := walk_leaves value bound a (b + rest) hp.1 ha
      have hargs := walkArgs_leaves args bound b rest hp.2 hb
      simp only [rendererArgs, argsCallNames, Nat.add_assoc, hv.budget_eq]
      exact hv.both hargs
  | .named _ value :: args, bound, total, rest, hp, h => by
      rw [List.forall_mem_cons] at hp
      rw [argsDirectCalls] at h
      obtain ⟨a, b, ha, hb, rfl⟩ := h.append
      have hv := walk_leaves value bound a (b + rest) hp.1 ha
      have hargs := walkArgs_leaves args bound b rest hp.2 hb
      simp only [rendererArgs, argsCallNames, Nat.add_assoc, hv.budget_eq]
      exact hv.both hargs

theorem clauses_leave : ∀ (es : List Expr) (bound : List String) (total rest : Nat),
    (∀ e ∈ es, Plain rels e) → Runs rels expand cost (listDirectCalls rels bound es) total →
      Leaves rels (listCallNames (expandRelationCallsBudgeted expand es (total + rest)).1)
        (expandRelationCallsBudgeted expand es (total + rest)).2 rest
  | [], _, total, rest, _, h => by
      have htotal : total = 0 := h.nil_total
      subst htotal
      exact ⟨Nat.zero_add rest, fun n hn => absurd hn (List.not_mem_nil)⟩
  | e :: es, bound, total, rest, hp, h => by
      rw [List.forall_mem_cons] at hp
      rw [listDirectCalls] at h
      obtain ⟨a, b, ha, hb, rfl⟩ := h.append
      have he := walk_leaves e bound a (b + rest) hp.1 ha
      have hes := clauses_leave es bound b rest hp.2 hb
      -- a clause that is not a call of a relation is walked as an expression
      have hwalk : ((calledName e).bind fun c => expand true c.1 c.2 (a + (b + rest))) = none →
          Leaves rels
            (listCallNames (expandRelationCallsBudgeted expand (e :: es) (a + b + rest)).1)
            (expandRelationCallsBudgeted expand (e :: es) (a + b + rest)).2 rest := by
        intro hout
        simp only [expandRelationCallsBudgeted, Nat.add_assoc, hout, listCallNames, he.budget_eq]
        exact he.both hes
      cases hc : calledName e with
      | none => exact hwalk (by rw [hc, Option.bind_none])
      | some c =>
          obtain ⟨name, args⟩ := c
          cases hf : rels.find name with
          | none => exact hwalk (by rw [hc, Option.bind_some]; exact hb.refused true name args _ hf)
          | some rel =>
              obtain rfl := calledName_eq_some hc
              simp only [directCalls, calledRelation, hf, Option.isSome_some, if_true] at ha
              obtain ⟨fs, hfs, hclean⟩ := ha.single true (b + rest)
              simp only [expandRelationCallsBudgeted, Nat.add_assoc, hc, Option.bind_some, hfs,
                listCallNames_append]
              have hcall : Leaves rels (listCallNames fs) (b + rest) (b + rest) := ⟨rfl, hclean⟩
              exact hcall.both hes

end

end RendererWalk

theorem expandRendererCall_undeclared (depth : Nat) (stack : List String) (top : Bool)
    (name : String) (args : List CallArg) (budget : Nat) (hf : rels.find name = none) :
    expandRendererCall rels depth stack top name args budget = none := by
  cases depth with
  | zero => rfl
  | succ depth => simp [expandRendererCall, tryExpandTopLevelCall, hf]

theorem tryExpandTopLevelCall_rendered {active : List String} {name : String}
    {args : List CallArg} {rel : Relation} {budget : Nat} (hf : rels.find name = some rel)
    (hlen : rel.params.length = args.length) (hmem : name ∉ active)
    (hdepth : active.length < relationExpansionMaxDepth)
    (hbudget : producedNodes (rel.unfold args) ≤ budget) :
    tryExpandTopLevelCall rels active name args budget =
      some (rel.unfold args, budget - producedNodes (rel.unfold args)) := by
  simp only [tryExpandTopLevelCall, hf, ne_eq, hlen, not_true_eq_false, if_false, if_neg hmem,
    if_neg (Nat.not_le.mpr hdepth), if_neg (Nat.not_lt.mpr hbudget)]

variable {e : Expr}

theorem plain_madeOf {x : Expr} (hx : MadeOf rels e (Rendered rels) x) : Plain rels x :=
  fun callee args loops hreaches => (hx.calls callee args [] loops hreaches).1

/-- A call whose unfolding meets no relation that is still being unfolded is expanded. -/
theorem expandRendererCall_leaves (hQ : Throughout rels e (Rendered rels))
    (hparam : ¬ CallsParameter rels e) (depth : Nat) :
    ∀ stack x, MadeOf rels e (Rendered rels) x → depth + stack.length = relationExpansionMaxDepth →
      ∀ c ∈ directCalls rels [] x, ∀ top cost rest,
        callMeets rels depth stack c.name c.args = false →
        callCost rels depth stack c.name c.args = some cost →
        ∃ es, expandRendererCall rels depth stack top c.name c.args (cost + rest) =
            some (es, rest) ∧ ∀ m ∈ listCallNames es, rels.find m = none := by
  induction depth with
  | zero =>
      intro stack x hx hdepth c hc top cost rest hmeets hcost
      have hmem : c.name ∉ stack := by simpa [callMeets] using hmeets
      simp [callCost, hmem] at hcost
  | succ depth ih =>
      intro stack x hx hdepth c hc top cost rest hmeets hcost
      obtain ⟨hdeclared, loops, hreaches⟩ := reaches_of_directCalls x [] c hc
      obtain ⟨rel, hf⟩ := Option.isSome_iff_exists.mp hdeclared
      have hlen := (hx.calls _ _ _ _ hreaches).2 c.name rel rfl hf
      simp only [callMeets, hf, Bool.or_eq_false_iff, List.any_eq_false,
        Bool.not_eq_true] at hmeets
      obtain ⟨hstack, hinner⟩ := hmeets
      have hmem : c.name ∉ stack := by simpa using hstack
      simp only [callCost, hstack, Bool.false_eq_true, if_false, hf,
        Option.map_eq_some_iff] at hcost
      obtain ⟨inner, hsum, rfl⟩ := hcost
      have hbody : ∀ clause ∈ rel.unfold c.args, MadeOf rels e (Rendered rels) clause :=
        fun clause hclause => hx.unfold hQ substitutive_rendered hparam hreaches hf hclause
      have hruns : Runs rels (expandRendererCall rels depth (c.name :: stack))
          (fun d => callCost rels depth (c.name :: stack) d.name d.args)
          (listDirectCalls rels [] (rel.unfold c.args)) inner := by
        refine ⟨?_, expandRendererCall_undeclared depth (c.name :: stack), ?_⟩
        · intro d hd top n rest hn
          rw [listDirectCalls_eq] at hd
          have hclear := hinner d hd
          obtain ⟨clause, hclause, hd⟩ := List.mem_flatMap.mp hd
          exact ih (c.name :: stack) clause (hbody clause hclause)
            (by rw [List.length_cons]; omega) d hd top n rest hclear hn
        · rw [listDirectCalls_eq]
          exact hsum
      have hplain : ∀ clause ∈ rel.unfold c.args, Plain rels clause :=
        fun clause hclause => plain_madeOf (hbody clause hclause)
      rw [expandRendererCall, tryExpandTopLevelCall_rendered hf hlen hmem (by omega) (by omega)]
      have hleft : producedNodes (rel.unfold c.args) + inner + rest -
          producedNodes (rel.unfold c.args) = inner + rest := by omega
      simp only [Option.map_some, hleft]
      cases top with
      | true =>
          obtain ⟨hbudget, hclean⟩ := clauses_leave _ [] inner rest hplain hruns
          exact ⟨_, congrArg some (Prod.ext rfl hbudget), hclean⟩
      | false =>
          obtain ⟨hbudget, hclean⟩ := walkList_leaves _ [] inner rest hplain hruns
          exact ⟨_, congrArg some (Prod.ext rfl hbudget), hclean⟩

end Renderer

/-! ### What is reported -/

/-- The typed lowering reports recursion for a constraint. -/
def ReportsRecursion (rels : Relations) (e : Expr) : Prop :=
  ∃ name, .recursiveRelation name ∈ (expandTopLevelClause rels e .init).2.errors

/-- The renderer leaves no call of a relation in a constraint. -/
def ExpandsFully (rels : Relations) (e : Expr) : Prop :=
  ∀ f ∈ expandRelationCalls rels [e], ∀ n ∈ callNames f, rels.find n = none

/-- Recursion is reported for the cyclic constraints and for no others, and the others are
expanded in full by the renderer. -/
def RecursionExact (rels : Relations) (e : Expr) : Prop :=
  (ReportsRecursion rels e ↔ Cyclic rels e) ∧
    (¬ Cyclic rels e → WithinLimits rels e → ExpandsFully rels e)

/-- The calls are not refused by themselves, and can be unfolded within the limits. -/
structure WellFormed (rels : Relations) (e : Expr) : Prop where
  accepted : Throughout rels e (Accepted rels)
  declared : ∀ x, TextOf rels e x → Declared rels x
  kept : ¬ CallsParameter rels e
  limits : WithinLimits rels e

/-- No call is nested in itself, or the call graph has a cycle that is met. -/
inductive CallsApart (rels : Relations) (e : Expr) : Prop
  | acyclic (hacyclic : ¬ Cyclic rels e) (hnested : ¬ NestedInItself rels e)
      (hkept : ¬ CallsParameter rels e)
      (hrendered : WithinLimits rels e → Throughout rels e (Rendered rels))
  | cyclic (hcyclic : Cyclic rels e) (hmet : OpensItself rels e ∨ NestedInItself rels e)
      (hwell : WellFormed rels e)

section Constraint

variable {rels : Relations} {e : Expr}

theorem silent_of_meetsActive (hmeets : meetsActive rels e = false) :
    ¬ ReportsRecursion rels e := by
  rw [meetsActive, List.any_eq_false] at hmeets
  rintro ⟨name, hname⟩
  refine expandClause_silent _ ?_ e ?_ .init (fun _ h => absurd h List.not_mem_nil) name hname
  · intro name' args st hf hst
    refine expandCall_silent _ [] name' args (fun hdeclared => ?_) st hst
    simp [hf] at hdeclared
  · intro c hc st hst
    exact expandCall_silent _ [] c.name c.args (fun _ => Bool.not_eq_true _ ▸ hmeets c hc) st hst

theorem reportsRecursion_of_meetsActive (h : WellFormed rels e)
    (hmeets : meetsActive rels e = true) : ReportsRecursion rels e := by
  obtain ⟨total, hsum, hle⟩ := h.limits
  have hx : MadeOf rels e (Accepted rels) e := .start h.accepted
  have hdeclared := h.declared e (.inl rfl)
  have hreports : Reports .init (expandTopLevelClause rels e .init).2 (meetsActive rels e)
      total := by
    rw [expandTopLevelClause, expandClause_state _ e hdeclared.clause]
    refine runCalls_reports _ _ _ _ ?_ .init total hsum hle
    intro c hc st n hn hbudget
    exact expandCall_reports h.accepted h.declared h.kept relationExpansionMaxDepth [] e hx
      hdeclared rfl c hc st n hn hbudget
  obtain ⟨-, name, herrors⟩ := hreports.report rfl hmeets
  refine ⟨name, ?_⟩
  rw [herrors]
  exact List.mem_append_right _ (List.mem_singleton_self _)

theorem expandsFully (hQ : Throughout rels e (Rendered rels)) (hparam : ¬ CallsParameter rels e)
    (hlimits : WithinLimits rels e) (hmeets : meetsActive rels e = false) :
    ExpandsFully rels e := by
  obtain ⟨total, hsum, hle⟩ := hlimits
  rw [meetsActive, List.any_eq_false] at hmeets
  have hx : MadeOf rels e (Rendered rels) e := .start hQ
  have hruns : Runs rels (expandRendererCall rels relationExpansionMaxDepth [])
      (fun c => callCost rels relationExpansionMaxDepth [] c.name c.args)
      (listDirectCalls rels [] [e]) total := by
    rw [listDirectCalls, listDirectCalls, List.append_nil]
    refine ⟨?_, expandRendererCall_undeclared _ _, hsum⟩
    intro c hc top n rest hn
    exact expandRendererCall_leaves hQ hparam relationExpansionMaxDepth [] e hx rfl c hc top n
      rest (Bool.not_eq_true _ ▸ hmeets c hc) hn
  have hplain : ∀ f ∈ [e], Plain rels f := by
    intro f hf
    obtain rfl := List.mem_singleton.mp hf
    exact plain_madeOf hx
  obtain ⟨rest, hrest⟩ : ∃ rest, relationExpansionBudget = total + rest :=
    Nat.exists_eq_add_of_le hle
  have hleaves := clauses_leave [e] [] total rest hplain hruns
  rw [← hrest] at hleaves
  exact fun f hf n hn => hleaves.undeclared n (mem_listCallNames hf hn)

theorem CallsApart.exact (h : CallsApart rels e) : RecursionExact rels e := by
  cases h with
  | acyclic hacyclic hnested hkept hrendered =>
      have hcycle : ¬ OpensItself rels e := fun h => hacyclic h.cyclic
      have hmeets := meetsActive_clear hcycle hnested hkept
      refine ⟨?_, fun _ hlimits => expandsFully (hrendered hlimits) hkept hlimits hmeets⟩
      exact iff_of_false (silent_of_meetsActive hmeets) hacyclic
  | cyclic hcyclic hmet hwell =>
      have hmeets := (meetsActive_iff hwell.kept hwell.limits).mpr hmet
      refine ⟨?_, fun hacyclic => absurd hcyclic hacyclic⟩
      exact iff_of_true (reportsRecursion_of_meetsActive hwell hmeets) hcyclic

theorem WellFormed.rendered (h : WellFormed rels e) : Throughout rels e (Rendered rels) :=
  fun x hx callee args inside loops hreaches =>
    (h.accepted x hx callee args inside loops hreaches).rendered

theorem RecursionExact.callsApart (hwell : WellFormed rels e) (h : RecursionExact rels e) :
    CallsApart rels e := by
  have hmeets := meetsActive_iff hwell.kept hwell.limits
  by_cases hcyclic : Cyclic rels e
  · refine .cyclic hcyclic ?_ hwell
    by_contra hnone
    have hfalse := eq_false_of_ne_true (mt hmeets.mp hnone)
    exact silent_of_meetsActive hfalse (h.1.mpr hcyclic)
  · refine .acyclic hcyclic (fun hnested => ?_) hwell.kept fun _ => hwell.rendered
    exact hcyclic (h.1.mp (reportsRecursion_of_meetsActive hwell (hmeets.mpr (.inr hnested))))

/-- A condition on the text of a body for its parameters not to be called. -/
theorem not_callsParameter
    (h : ∀ rel ∈ rels.decls, ∀ n ∈ listCallNames rel.body, n ∉ rel.params) :
    ¬ CallsParameter rels e := by
  rintro ⟨name, rel, clause, param, args, inside, loops, -, hrel, hclause, hreaches, -, hparam⟩
  have hname : param ∈ callNames clause :=
    callNames_reaches hreaches param (List.mem_append_left _ List.mem_cons_self)
  exact h rel (List.mem_of_find?_eq_some hrel) param (mem_listCallNames hclause hname) hparam

end Constraint

/-- A measure that falls along calls rules out cycles. -/
theorem not_cyclic_of_rank {rels : Relations} (rank : String → Nat)
    (h : ∀ caller callee, Calls rels caller callee → rank callee < rank caller) (e : Expr) :
    ¬ Cyclic rels e := by
  rintro ⟨start, name, -, -, -, hcycle⟩
  have hfall : ∀ a b, Relation.TransGen (Calls rels) a b → rank b < rank a := by
    intro a b hab
    induction hab with
    | single hcall => exact h _ _ hcall
    | tail _ hcall ih => exact Nat.lt_trans (h _ _ hcall) ih
  exact Nat.lt_irrefl _ (hfall name name hcycle)

/-- `relation Off(b) = !b` and `relation Quiet(x) = Off(x)`. -/
def offRelations : Relations where
  decls := [⟨"Off", ["b"], [.unary .not (.ident "b")]⟩,
    ⟨"Quiet", ["x"], [.call (.ident "Off") [.expr (.ident "x")]]⟩]
  nodup := by decide

theorem offRelations_acyclic (e : Expr) : ¬ Cyclic offRelations e := by
  apply not_cyclic_of_rank fun name => if name = "Quiet" then 1 else 0
  rintro caller callee ⟨rel, hf, hmem, -⟩
  have hname : rel.name = caller := by simpa using List.find?_some hf
  have hrel := List.mem_of_find?_eq_some hf
  simp only [offRelations, List.mem_cons, List.not_mem_nil, or_false] at hrel
  rcases hrel with rfl | rfl
  · simp [listCallNames, callNames] at hmem
  · obtain rfl : callee = "Off" := by
      simpa [listCallNames, callNames, calleeName, argsCallNames] using hmem
    subst hname
    decide

theorem offRelations_kept (e : Expr) : ¬ CallsParameter offRelations e :=
  not_callsParameter (by decide)

/-- `Quiet(flag) && foo(flag)`, where `foo` is no relation. -/
def quietBesideFoo : Expr :=
  .binary .andAnd (.call (.ident "Quiet") [.expr (.ident "flag")])
    (.call (.ident "foo") [.expr (.ident "flag")])

theorem reaches_ident {rels : Relations} {n : String} {f : Expr} {inside loops : List String}
    (h : Reaches rels (.ident n) f inside loops) : f = .ident n := by
  rcases h.self_or_part with heq | ⟨p, hp, -⟩
  · exact heq
  · exact absurd hp List.not_mem_nil

/-- The calls in a call of a name with an identifier. -/
theorem reaches_identCall {rels : Relations} {name n : String} {callee : Expr}
    {args : List CallArg} {inside loops : List String}
    (h : Reaches rels (.call (.ident name) [.expr (.ident n)]) (.call callee args) inside loops) :
    callee = .ident name ∧ args = [.expr (.ident n)] := by
  rcases h.self_or_part with heq | ⟨p, hp, _, _, h⟩
  · exact Expr.call.inj heq
  · simp only [parts, List.map_cons, List.map_nil, CallArg.value, List.mem_cons,
      List.not_mem_nil, or_false] at hp
    rcases hp with rfl | rfl
    · exact absurd (reaches_ident h) (by simp)
    · exact absurd (reaches_ident h) (by simp)

theorem rendered_quietBesideFoo :
    Throughout offRelations quietBesideFoo (Rendered offRelations) := by
  have hcall : ∀ name n, (∀ rel, offRelations.find name = some rel → rel.params.length = 1) →
      ∀ callee args inside loops, Reaches offRelations (.call (.ident name) [.expr (.ident n)])
        (.call callee args) inside loops → Rendered offRelations callee args := by
    intro name n hlen callee args inside loops h
    obtain ⟨rfl, rfl⟩ := reaches_identCall h
    refine ⟨rfl, fun name' rel hname hrel => ?_⟩
    obtain rfl := Expr.ident.inj hname
    exact hlen rel hrel
  rintro x (rfl | ⟨name, rel, -, hrel, hx⟩) callee args inside loops h
  · rcases h.self_or_part with heq | ⟨p, hp, _, _, h⟩
    · simp [quietBesideFoo] at heq
    · simp only [quietBesideFoo, parts, List.mem_cons, List.not_mem_nil, or_false] at hp
      rcases hp with rfl | rfl
      · exact hcall "Quiet" "flag" (by decide) _ _ _ _ h
      · exact hcall "foo" "flag" (by decide) _ _ _ _ h
  · have hmem := List.mem_of_find?_eq_some hrel
    simp only [offRelations, List.mem_cons, List.not_mem_nil, or_false] at hmem
    rcases hmem with rfl | rfl
    · obtain rfl := List.mem_singleton.mp hx
      rcases h.self_or_part with heq | ⟨p, hp, _, _, h⟩
      · simp at heq
      · obtain rfl := List.mem_singleton.mp hp
        exact absurd (reaches_ident h) (by simp)
    · obtain rfl := List.mem_singleton.mp hx
      exact hcall "Off" "x" (by decide) _ _ _ _ h

/-- `Off(Off(flag))` -/
def offTwice : Expr :=
  .call (.ident "Off") [.expr (.call (.ident "Off") [.expr (.ident "flag")])]

end Harc.RelationRecursion
