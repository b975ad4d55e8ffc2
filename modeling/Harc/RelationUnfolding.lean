import Harc.RelationNesting

/-!
The dynamic side of nested calls: unfolding a constraint meets a relation that is still being
unfolded, exactly if a cycle of relations is unfolded or a call is nested in itself.
-/

namespace Harc.RelationUnfolding

open Harc.Ast
open Harc.RelationExpansion
open Harc.ReachedCalls
open Harc.RelationNesting

/-! ### Unfolding -/

/-- The sum of sizes, when all are known. -/
def sumCosts : List (Option Nat) → Option Nat
  | [] => some 0
  | none :: _ => none
  | some n :: ns => (sumCosts ns).map (n + ·)

/-- The calls of an unfolded body. -/
def innerCalls (rels : Relations) (rel : Relation) (args : List CallArg) : List DirectCall :=
  (rel.unfold args).flatMap (directCalls rels [])

section Unfolding

variable (rels : Relations)

/-- Unfolding a call meets a relation that is still being unfolded. -/
def callMeets : Nat → List String → String → List CallArg → Bool
  | 0, stack, name, _ => stack.contains name
  | depth + 1, stack, name, args =>
      stack.contains name ||
        match rels.find name with
        | none => false
        | some rel => (innerCalls rels rel args).any fun c =>
            callMeets depth (name :: stack) c.name c.args

/-- The nodes that unfolding a call makes; none if more relations are nested than may be. -/
def callCost : Nat → List String → String → List CallArg → Option Nat
  | 0, stack, name, _ => if stack.contains name then some 0 else none
  | depth + 1, stack, name, args =>
      if stack.contains name then some 0
      else
        match rels.find name with
        | none => some 0
        | some rel =>
            (sumCosts ((innerCalls rels rel args).map fun c =>
              callCost depth (name :: stack) c.name c.args)).map
                (producedNodes (rel.unfold args) + ·)

/-- Unfolding a constraint meets a relation that is still being unfolded. -/
def meetsActive (e : Expr) : Bool :=
  (directCalls rels [] e).any fun c =>
    callMeets rels relationExpansionMaxDepth [] c.name c.args

def constraintCost (e : Expr) : Option Nat :=
  sumCosts ((directCalls rels [] e).map fun c =>
    callCost rels relationExpansionMaxDepth [] c.name c.args)

/-- The relations of a constraint can be unfolded within the limits of depth and nodes. -/
def WithinLimits (e : Expr) : Prop :=
  ∃ total, constraintCost rels e = some total ∧ total ≤ relationExpansionBudget

end Unfolding

theorem sumCosts_append (as bs : List (Option Nat)) (n : Nat)
    (h : sumCosts (as ++ bs) = some n) :
    ∃ a b, sumCosts as = some a ∧ sumCosts bs = some b ∧ n = a + b := by
  induction as generalizing n with
  | nil => exact ⟨0, n, rfl, h, (Nat.zero_add n).symm⟩
  | cons o as ih =>
      cases o with
      | none => simp [sumCosts] at h
      | some k =>
          simp only [List.cons_append, sumCosts, Option.map_eq_some_iff] at h
          obtain ⟨m, hm, rfl⟩ := h
          obtain ⟨a, b, ha, hb, rfl⟩ := ih m hm
          refine ⟨k + a, b, ?_, hb, (Nat.add_assoc k a b).symm⟩
          simp [sumCosts, ha]

theorem sumCosts_isSome {os : List (Option Nat)} {n : Nat} (h : sumCosts os = some n) :
    ∀ o ∈ os, o.isSome = true := by
  induction os generalizing n with
  | nil => exact fun o ho => absurd ho List.not_mem_nil
  | cons o os ih =>
      cases o with
      | none => simp [sumCosts] at h
      | some k =>
          simp only [sumCosts, Option.map_eq_some_iff] at h
          obtain ⟨m, hm, -⟩ := h
          rw [List.forall_mem_cons]
          exact ⟨rfl, ih hm⟩

/-! ### Direct calls -/

section DirectCalls

variable {rels : Relations}

theorem listDirectCalls_eq (es : List Expr) (bound : List String) :
    listDirectCalls rels bound es = es.flatMap (directCalls rels bound) := by
  induction es with
  | nil => rfl
  | cons e es ih => rw [listDirectCalls, ih, List.flatMap_cons]

theorem argsDirectCalls_eq (args : List CallArg) (bound : List String) :
    argsDirectCalls rels bound args = args.flatMap fun a => directCalls rels bound a.value := by
  induction args with
  | nil => rfl
  | cons arg args ih => cases arg <;> rw [argsDirectCalls, ih, List.flatMap_cons] <;> rfl

/-- The direct calls of an expression that is no call of a relation are those of its parts. -/
theorem directCalls_parts (e : Expr) (bound : List String) (h : opened rels e = none) :
    directCalls rels bound e = (parts e).flatMap fun p => directCalls rels (p.1 ++ bound) p.2 := by
  cases e with
  | call callee args =>
      have hcallee : calledRelation rels callee = none := by
        cases callee with
        | ident n => simp_all [opened, calledRelation]
        | _ => rfl
      rw [directCalls, hcallee, parts, List.flatMap_cons, List.flatMap_map, argsDirectCalls_eq]
      rfl
  | forEachConstraint var iter body =>
      rw [directCalls, parts, List.flatMap_cons, List.flatMap_map, listDirectCalls_eq]
      rfl
  | setLit items =>
      rw [directCalls, parts, List.flatMap_map, listDirectCalls_eq]
      rfl
  | rangeLit lo hi =>
      cases lo <;> cases hi <;> simp [directCalls, boundDirectCalls, parts]
  | _ => simp [directCalls, parts]

theorem directCalls_call {name : String} (args : List CallArg) (bound : List String)
    (h : (rels.find name).isSome = true) :
    directCalls rels bound (.call (.ident name) args) = [⟨bound, name, args⟩] := by
  rw [directCalls, calledRelation, if_pos h]

theorem sizeOf_parts {e c : Expr} {vars : List String} (hc : (vars, c) ∈ parts e) :
    sizeOf c < sizeOf e := by
  cases e with
  | call callee args =>
      rw [parts, List.mem_cons, List.mem_map] at hc
      rcases hc with hc | ⟨a, ha, heq⟩
      · obtain ⟨-, rfl⟩ := Prod.mk.inj hc
        rw [Expr.call.sizeOf_spec]
        omega
      · obtain ⟨-, rfl⟩ := Prod.mk.inj heq
        have hlt := List.sizeOf_lt_of_mem ha
        have hvalue : sizeOf a.value < sizeOf a := by
          cases a <;>
            simp only [CallArg.value, CallArg.expr.sizeOf_spec, CallArg.named.sizeOf_spec] <;>
            omega
        rw [Expr.call.sizeOf_spec]
        omega
  | forEachConstraint var iter body =>
      rw [parts, List.mem_cons, List.mem_map] at hc
      rw [Expr.forEachConstraint.sizeOf_spec]
      rcases hc with hc | ⟨f, hf, heq⟩
      · obtain ⟨-, rfl⟩ := Prod.mk.inj hc
        omega
      · obtain ⟨-, rfl⟩ := Prod.mk.inj heq
        have hlt := List.sizeOf_lt_of_mem hf
        omega
  | setLit items =>
      rw [parts, List.mem_map] at hc
      obtain ⟨f, hf, heq⟩ := hc
      obtain ⟨-, rfl⟩ := Prod.mk.inj heq
      have hlt := List.sizeOf_lt_of_mem hf
      rw [Expr.setLit.sizeOf_spec]
      omega
  | rangeLit lo hi =>
      rw [parts, List.mem_map] at hc
      obtain ⟨f, hf, heq⟩ := hc
      obtain ⟨-, rfl⟩ := Prod.mk.inj heq
      rw [Expr.rangeLit.sizeOf_spec]
      rcases List.mem_append.mp hf with hf | hf
      · obtain rfl := Option.mem_toList.mp hf
        rw [Option.some.sizeOf_spec]
        omega
      · obtain rfl := Option.mem_toList.mp hf
        rw [Option.some.sizeOf_spec]
        omega
  | _ =>
      simp only [parts, List.mem_cons, List.not_mem_nil, or_false, Prod.mk.injEq] at hc <;>
        grind

/-- The direct calls are the ones that are reached inside no relation. -/
theorem reaches_of_directCalls : ∀ (e : Expr) (bound : List String) (c : DirectCall),
    c ∈ directCalls rels bound e →
      (rels.find c.name).isSome = true ∧
        ∃ loops, Reaches rels e (.call (.ident c.name) c.args) [] loops := by
  intro e
  induction hsize : sizeOf e using Nat.strong_induction_on generalizing e with
  | _ size ih =>
      intro bound c hc
      cases hopened : opened rels e with
      | none =>
          rw [directCalls_parts e bound hopened, List.mem_flatMap] at hc
          obtain ⟨⟨vars, f⟩, hf, hc⟩ := hc
          obtain ⟨hdeclared, loops, hreaches⟩ :=
            ih (sizeOf f) (hsize ▸ sizeOf_parts hf) f rfl (vars ++ bound) c hc
          exact ⟨hdeclared, _, .part hopened hf hreaches⟩
      | some rel =>
          obtain ⟨name, args, rfl, hrel⟩ : ∃ name args, e = .call (.ident name) args ∧
              rels.find name = some rel := by
            unfold opened at hopened
            split at hopened
            · exact ⟨_, _, rfl, hopened⟩
            · simp at hopened
          have hdeclared : (rels.find name).isSome = true := by rw [hrel]; rfl
          rw [directCalls_call args bound hdeclared] at hc
          obtain rfl := List.mem_singleton.mp hc
          exact ⟨hdeclared, _, .here _⟩

theorem directCalls_of_reaches {e f : Expr} {inside loops : List String}
    (h : Reaches rels e f inside loops) {name : String} {args : List CallArg}
    (hf : f = .call (.ident name) args) (hinside : inside = [])
    (hdeclared : (rels.find name).isSome = true) :
    ∀ bound, ∃ c ∈ directCalls rels bound e, c.name = name ∧ c.args = args := by
  induction h with
  | here e =>
      subst hf
      intro bound
      rw [directCalls_call args bound hdeclared]
      exact ⟨_, List.mem_singleton_self _, rfl, rfl⟩
  | @part e c f vars inside loops hopened hc _ ih =>
      intro bound
      obtain ⟨d, hd, hname⟩ := ih hf hinside (vars ++ bound)
      rw [directCalls_parts e bound hopened]
      exact ⟨d, List.mem_flatMap.mpr ⟨_, hc, hd⟩, hname⟩
  | argument => simp at hinside

end DirectCalls

/-! ### What meets an open relation -/

section Meets

variable {rels : Relations} {e : Expr} {Q : Expr → List CallArg → Prop}

/-- Calls that stay clear of the open relations meet none. -/
theorem callMeets_clear (hQ : Throughout rels e Q) (hstable : Substitutive Q)
    (hcycle : ¬ OpensItself rels e) (hnested : ¬ NestedInItself rels e)
    (hparam : ¬ CallsParameter rels e) (depth : Nat) :
    ∀ stack x, MadeOf rels e Q x → Clear rels stack x → ∀ c ∈ directCalls rels [] x,
      callMeets rels depth stack c.name c.args = false := by
  induction depth with
  | zero =>
      intro stack x hx hclear c hc
      obtain ⟨hdeclared, loops, hreaches⟩ := reaches_of_directCalls x [] c hc
      have hmem : c.name ∉ stack := fun hmem =>
        hclear _ _ _ _ hreaches hdeclared _ (List.mem_append_left _ hmem) .refl
      simpa [callMeets] using hmem
  | succ depth ih =>
      intro stack x hx hclear c hc
      obtain ⟨hdeclared, loops, hreaches⟩ := reaches_of_directCalls x [] c hc
      have hmem : c.name ∉ stack := fun hmem =>
        hclear _ _ _ _ hreaches hdeclared _ (List.mem_append_left _ hmem) .refl
      obtain ⟨rel, hrel⟩ := Option.isSome_iff_exists.mp hdeclared
      simp only [callMeets, hrel, Bool.or_eq_false_iff, List.any_eq_false, Bool.not_eq_true]
      refine ⟨by simpa using hmem, ?_⟩
      intro d hd
      obtain ⟨clause, hclause, hd⟩ := List.mem_flatMap.mp hd
      exact ih (c.name :: stack) clause (hx.unfold hQ hstable hparam hreaches hrel hclause)
        (hclear.unfold hcycle hnested hparam hx hreaches hrel hclause) d hd

/-- Every call of an expression is unfolded without meeting an open relation. -/
def Unmet (rels : Relations) (depth : Nat) (stack : List String) (x : Expr) : Prop :=
  ∀ c ∈ directCalls rels [] x, callMeets rels depth stack c.name c.args = false ∧
    (callCost rels depth stack c.name c.args).isSome = true

/-- A direct call whose unfolding meets no open relation, and its body. -/
theorem Unmet.unfold (hQ : Throughout rels e Q) (hstable : Substitutive Q)
    (hparam : ¬ CallsParameter rels e) {depth : Nat} {stack : List String} {x : Expr}
    (hx : MadeOf rels e Q x) (hunmet : Unmet rels depth stack x) {name : String}
    {args : List CallArg} {loops : List String}
    (hcall : Reaches rels x (.call (.ident name) args) [] loops) {rel : Relation}
    (hrel : rels.find name = some rel) :
    name ∉ stack ∧ ∃ d, depth = d + 1 ∧ ∀ clause ∈ rel.unfold args,
      MadeOf rels e Q clause ∧ Unmet rels d (name :: stack) clause := by
  obtain ⟨c, hc, rfl, rfl⟩ := directCalls_of_reaches hcall rfl rfl (by rw [hrel]; rfl) []
  obtain ⟨hmeets, hcost⟩ := hunmet c hc
  have hmem : c.name ∉ stack := by
    cases depth <;> simp_all [callMeets]
  refine ⟨hmem, ?_⟩
  cases depth with
  | zero => simp [callCost, hmem] at hcost
  | succ depth =>
      simp only [callMeets, hrel, Bool.or_eq_false_iff, List.any_eq_false,
        Bool.not_eq_true] at hmeets
      simp only [callCost, List.contains_eq_mem, hmem, decide_false, Bool.false_eq_true, if_false,
        hrel, Option.isSome_map] at hcost
      obtain ⟨total, htotal⟩ := Option.isSome_iff_exists.mp hcost
      refine ⟨depth, rfl, fun clause hclause => ⟨?_, fun d hd => ?_⟩⟩
      · exact hx.unfold hQ hstable hparam hcall hrel hclause
      · have hinner : d ∈ innerCalls rels rel c.args := List.mem_flatMap.mpr ⟨clause, hclause, hd⟩
        exact ⟨hmeets.2 d hinner, sumCosts_isSome htotal _ (List.mem_map_of_mem hinner)⟩

/-- A call stands in an expression that is unfolded inside the relations of the stack. -/
def Visited (rels : Relations) (e : Expr) (Q : Expr → List CallArg → Prop)
    (stack : List String) (name : String) : Prop :=
  (rels.find name).isSome = true ∧ ∃ depth active x args loops, MadeOf rels e Q x ∧
    Unmet rels depth active x ∧ Reaches rels x (.call (.ident name) args) [] loops ∧
    ∀ n ∈ stack, n ∈ active

theorem Visited.mono {stack stack' : List String} {name : String}
    (h : Visited rels e Q stack name) (hle : ∀ n ∈ stack', n ∈ stack) :
    Visited rels e Q stack' name := by
  obtain ⟨hdeclared, depth, active, x, args, loops, hx, hunmet, hreaches, hstack⟩ := h
  exact ⟨hdeclared, depth, active, x, args, loops, hx, hunmet, hreaches,
    fun n hn => hstack n (hle n hn)⟩

section Visits

variable (hQ : Throughout rels e Q) (hstable : Substitutive Q)
  (hparam : ¬ CallsParameter rels e)

include hQ hstable hparam

theorem Visited.not_mem {stack : List String} {name : String}
    (h : Visited rels e Q stack name) : name ∉ stack := by
  obtain ⟨hdeclared, depth, active, x, args, loops, hx, hunmet, hreaches, hstack⟩ := h
  obtain ⟨rel, hrel⟩ := Option.isSome_iff_exists.mp hdeclared
  exact fun hmem => (hunmet.unfold hQ hstable hparam hx hreaches hrel).1 (hstack name hmem)

/-- What is reached from an expression is visited inside the relations that it is reached
inside. -/
theorem visited_of_reaches (depth : Nat) : ∀ stack x, MadeOf rels e Q x →
    Unmet rels depth stack x → ∀ name args inside loops,
      Reaches rels x (.call (.ident name) args) inside loops → (rels.find name).isSome = true →
        Visited rels e Q (stack ++ inside) name := by
  induction depth using Nat.strong_induction_on with
  | _ depth ih =>
      intro stack x hx hunmet name args inside loops hreaches hdeclared
      rcases hreaches.direct with rfl | ⟨outer, args', rel, clause, param, value, inside₁,
        inside₂, loops₀, loops₁, loops₂, hcall, hrel, hclause, hvalue, hp, hfree, hv, rfl⟩
      · exact ⟨hdeclared, depth, stack, x, args, loops, hx, hunmet, hreaches, by simp⟩
      · obtain ⟨-, d, rfl, hbody⟩ := hunmet.unfold hQ hstable hparam hx hcall hrel
        have hentered := hx.entered _ _ _ _ hcall (by rw [hrel]; rfl)
        -- the value of the parameter stands in the unfolded clause
        obtain ⟨loops', hp'⟩ :=
          hp.substitute _ (callees_unfold hparam hentered hrel args' hclause)
        rw [substitute_ident, get_hide, if_neg hfree, hvalue] at hp'
        obtain ⟨loops'', hreaches'⟩ := hp'.trans hv
        obtain ⟨hx', hunmet'⟩ := hbody _ (mem_unfold hclause args')
        refine (ih d (Nat.lt_succ_self d) (outer :: stack) _ hx' hunmet' name args _ loops''
          hreaches' hdeclared).mono ?_
        intro n hn
        simp only [List.cons_append, List.mem_cons, List.mem_append] at hn ⊢
        tauto

/-- What is reached from the body of a visited relation is visited inside it. -/
theorem Visited.body {stack : List String} {name : String} (h : Visited rels e Q stack name)
    {rel : Relation} (hrel : rels.find name = some rel) {clause : Expr}
    (hclause : clause ∈ rel.body) {callee : String} {args : List CallArg}
    {inside loops : List String} (hreaches : Reaches rels clause (.call (.ident callee) args)
      inside loops) (hdeclared : (rels.find callee).isSome = true) :
    Visited rels e Q (name :: (stack ++ inside)) callee := by
  obtain ⟨-, depth, active, x, args', loops', hx, hunmet, hcall, hstack⟩ := h
  obtain ⟨-, d, rfl, hbody⟩ := hunmet.unfold hQ hstable hparam hx hcall hrel
  have hentered := hx.entered _ _ _ _ hcall (by rw [hrel]; rfl)
  have hcallees := callees_unfold hparam hentered hrel args' hclause
  obtain ⟨loops'', hreaches'⟩ := hreaches.substitute _ hcallees
  have hkept : (hide (buildRelationSubst rel.params args') loops).get callee = none := by
    rw [get_hide]
    split
    · rfl
    · rename_i hfree
      exact hcallees callee args inside loops hreaches hfree
  rw [substituteRelationIdents, substitute_ident, hkept] at hreaches'
  obtain ⟨hx', hunmet'⟩ := hbody _ (mem_unfold hclause args')
  refine (visited_of_reaches hQ hstable hparam d (name :: active) _ hx' hunmet' callee _ inside
    loops'' hreaches' hdeclared).mono ?_
  intro n hn
  have := hstack n
  simp only [List.cons_append, List.mem_cons, List.mem_append] at hn ⊢
  tauto

theorem Visited.opens {stack : List String} {name callee : String}
    (h : Visited rels e Q stack name) (hopens : Opens rels name callee) :
    Visited rels e Q (name :: stack) callee := by
  obtain ⟨rel, clause, args, inside, loops, hrel, hclause, hreaches, hdeclared⟩ := hopens
  refine (h.body hQ hstable hparam hrel hclause hreaches hdeclared).mono ?_
  intro n hn
  simp only [List.mem_cons, List.mem_append] at hn ⊢
  tauto

theorem Visited.leadsTo {stack : List String} {name target : String}
    (h : Visited rels e Q stack name) (hleads : LeadsTo rels name target) :
    Visited rels e Q stack target := by
  induction hleads with
  | refl => exact h
  | tail _ hopens ih =>
      exact (ih.opens hQ hstable hparam hopens).mono fun n hn => List.mem_cons_of_mem _ hn

variable {depth : Nat} (hunmet : Unmet rels depth [] e)

include hunmet

theorem visited_of_entered {name : String} (h : Entered rels e name) :
    Visited rels e Q [] name := by
  obtain ⟨start, args, inside, loops, hreaches, hdeclared, hleads⟩ := h
  have hstart := visited_of_reaches hQ hstable hparam depth [] e (.start hQ) hunmet start args
    inside loops hreaches hdeclared
  exact (hstart.leadsTo hQ hstable hparam hleads).mono fun n hn => absurd hn List.not_mem_nil

theorem not_opensItself : ¬ OpensItself rels e := by
  rintro ⟨name, hentered, hcycle⟩
  obtain ⟨callee, hopens, hback⟩ := Relation.TransGen.head'_iff.mp hcycle
  have hvisited := visited_of_entered hQ hstable hparam hunmet hentered
  have hagain := (hvisited.opens hQ hstable hparam hopens).leadsTo hQ hstable hparam hback
  exact hagain.not_mem hQ hstable hparam List.mem_cons_self

theorem not_nestedInItself : ¬ NestedInItself rels e := by
  rintro ⟨x, name, args, inside, loops, active, htext, hreaches, hdeclared, hactive, hleads⟩
  have hvisited : Visited rels e Q inside name := by
    rcases htext with rfl | ⟨outer, rel, hentered, hrel, hclause⟩
    · exact visited_of_reaches hQ hstable hparam depth [] x (.start hQ) hunmet name args inside
        loops hreaches hdeclared
    · have houter := visited_of_entered hQ hstable hparam hunmet hentered
      exact (houter.body hQ hstable hparam hrel hclause hreaches hdeclared).mono
        fun n hn => List.mem_cons_of_mem _ hn
  exact (hvisited.leadsTo hQ hstable hparam hleads).not_mem hQ hstable hparam hactive

end Visits

theorem Unmet.constraint (hlimits : WithinLimits rels e) (hmeets : meetsActive rels e = false) :
    Unmet rels relationExpansionMaxDepth [] e := by
  obtain ⟨total, htotal, -⟩ := hlimits
  rw [meetsActive, List.any_eq_false] at hmeets
  intro c hc
  exact ⟨Bool.not_eq_true _ ▸ hmeets c hc, sumCosts_isSome htotal _ (List.mem_map_of_mem hc)⟩

/-- Unfolding meets an open relation only for a cycle or for a nested call. -/
theorem meetsActive_clear (hcycle : ¬ OpensItself rels e) (hnested : ¬ NestedInItself rels e)
    (hparam : ¬ CallsParameter rels e) : meetsActive rels e = false := by
  have hQ : Throughout rels e fun _ _ => True := fun _ _ _ _ _ _ _ => trivial
  rw [meetsActive, List.any_eq_false]
  intro c hc
  rw [Bool.not_eq_true]
  exact callMeets_clear hQ (fun _ _ _ _ _ => trivial) hcycle hnested hparam
    relationExpansionMaxDepth [] e (.start hQ) (.start hnested) c hc

/-- Within the limits, unfolding meets an open relation exactly for a cycle that is unfolded
or a call that is nested in itself. -/
theorem meetsActive_iff (hparam : ¬ CallsParameter rels e) (hlimits : WithinLimits rels e) :
    meetsActive rels e = true ↔ OpensItself rels e ∨ NestedInItself rels e := by
  have hQ : Throughout rels e fun _ _ => True := fun _ _ _ _ _ _ _ => trivial
  have hstable : Substitutive fun _ _ => True := fun _ _ _ _ _ => trivial
  constructor
  · intro hmeets
    by_contra hnone
    rw [not_or] at hnone
    exact Bool.false_ne_true ((meetsActive_clear hnone.1 hnone.2 hparam).symm.trans hmeets)
  · intro hcyclic
    cases hmeets : meetsActive rels e with
    | true => rfl
    | false =>
        have hunmet := Unmet.constraint hlimits hmeets
        rcases hcyclic with hcycle | hnested
        · exact absurd hcycle (not_opensItself hQ hstable hparam hunmet)
        · exact absurd hnested (not_nestedInItself hQ hstable hparam hunmet)

end Meets

end Harc.RelationUnfolding
