import Harc.PlacementPropagation

/-!
The order of the components of the dependency graph
(`ir/passes/callable_placement.rs`): the search closes a component after those that it depends
on, and the result lists them by their first members.
-/

namespace Harc.PlacementPropagation

open Harc.StrongComponents

/-- A component comes after those that it depends on. -/
def DependenciesFirst (n : Nat) (deps : Nat → List Nat) (components : List (List Nat)) : Prop :=
  ∀ (i : Nat) (c : List Nat), components[i]? = some c → ∀ x ∈ c, ∀ y, Edge n deps x y →
    ∃ (j : Nat) (d : List Nat), j ≤ i ∧ components[j]? = some d ∧ y ∈ d

/-- Nodes share a component if and only if each is reachable from the other. -/
def SharedIffMutual (n : Nat) (deps : Nat → List Nat) (components : List (List Nat)) : Prop :=
  ∀ x < n, ∀ y < n, (∃ c ∈ components, x ∈ c ∧ y ∈ c) ↔
    Reaches n deps x y ∧ Reaches n deps y x

variable {n : Nat} {deps : Nat → List Nat}

theorem dependenciesFirst_search : DependenciesFirst n deps (search n deps).components := by
  obtain ⟨hinv, -, -, -⟩ := visitRoots_spec (List.range n) (.init : Tarjan)
    (inv_init : Inv n deps .init) rfl (fun x hx => List.mem_range.mp hx)
  exact hinv.closed

theorem sharedIffMutual {components : List (List Nat)} (h : IsComponents n deps components) :
    SharedIffMutual n deps components := by
  rintro x hx y -
  constructor
  · rintro ⟨c, hc, hxc, hyc⟩
    exact (h.classes c hc x hxc y).mp hyc
  · rintro hboth
    obtain ⟨c, hc, hxc⟩ := List.mem_flatten.mp ((h.covers x).mpr hx)
    exact ⟨c, hc, hxc, (h.classes c hc x hxc y).mpr hboth⟩

/-- Components that are sorted by their first members have different ones. -/
theorem firsts_ascending {components : List (List Nat)} (h : IsComponents n deps components)
    (hsorted : components.Pairwise fun c d => c.headD 0 ≤ d.headD 0) :
    components.Pairwise fun c d => c.headD 0 < d.headD 0 := by
  have hfirst : ∀ c ∈ components, c.headD 0 ∈ c := by
    rintro c hc
    obtain ⟨first, rest, rfl⟩ := List.exists_cons_of_ne_nil (h.nonempty c hc)
    exact List.mem_cons_self
  have hdisjoint := (List.nodup_flatten.mp h.nodup).2
  refine (hsorted.and hdisjoint).imp_of_mem ?_
  rintro c d hc hd ⟨hle, hapart⟩
  refine Nat.lt_of_le_of_ne hle ?_
  intro heq
  exact hapart (hfirst c hc) (heq ▸ hfirst d hd)

theorem listed_ascending : (stronglyConnectedComponents n deps).Pairwise
    fun c d => c.headD 0 < d.headD 0 := by
  apply firsts_ascending isComponents_stronglyConnectedComponents
  have hsorted : (stronglyConnectedComponents n deps).Pairwise
      fun c d => decide (c.headD 0 ≤ d.headD 0) = true := by
    apply List.pairwise_mergeSort
    · intro a b c hab hbc
      exact decide_eq_true (Nat.le_trans (of_decide_eq_true hab) (of_decide_eq_true hbc))
    · intro a b
      rw [Bool.or_eq_true, decide_eq_true_eq, decide_eq_true_eq]
      exact Nat.le_total _ _
  exact hsorted.imp of_decide_eq_true

/-- The components as the search finds them, before they are sorted. -/
def foundComponents (entries : List CallablePlan) : List (List Nat) :=
  (search entries.length (dependenciesOf entries)).components

/-- The components of the dependencies, and their order in the search and in the result. -/
theorem componentsOf_listed (entries : List CallablePlan) :
    IsComponents entries.length (dependenciesOf entries) (componentsOf entries) ∧
      SharedIffMutual entries.length (dependenciesOf entries) (componentsOf entries) ∧
      (componentsOf entries).Pairwise (fun c d => c.headD 0 < d.headD 0) ∧
      (componentsOf entries).Perm (foundComponents entries) ∧
      DependenciesFirst entries.length (dependenciesOf entries) (foundComponents entries) := by
  have hcomponents : IsComponents entries.length (dependenciesOf entries) (componentsOf entries) :=
    isComponents_stronglyConnectedComponents
  refine ⟨hcomponents, sharedIffMutual hcomponents, listed_ascending, ?_, dependenciesFirst_search⟩
  exact List.mergeSort_perm _ _

/-- The callee is found first, its caller is listed first. -/
example : foundComponents [⟨0, .common, [1]⟩, ⟨1, .common, []⟩] = [[1], [0]] := by
  simp [foundComponents, search, visitRoot, visit, lookAt, dependenciesOf, planAt, Tarjan.init,
    Tarjan.discover, Tarjan.close, Tarjan.lower, Tarjan.popTo, List.range_succ]

/-- A caller whose index is lower than that of its callee is listed first. -/
theorem caller_listed_first : ¬ ∀ entries : List CallablePlan,
    IsComponents entries.length (dependenciesOf entries) (componentsOf entries) ∧
      SharedIffMutual entries.length (dependenciesOf entries) (componentsOf entries) ∧
      DependenciesFirst entries.length (dependenciesOf entries) (componentsOf entries) := by
  intro h
  obtain ⟨-, -, hfirst⟩ := h [⟨0, .common, [1]⟩, ⟨1, .common, []⟩]
  have hlisted : componentsOf [⟨0, .common, [1]⟩, ⟨1, .common, []⟩] = [[0], [1]] := by
    simp [componentsOf, stronglyConnectedComponents, search, visitRoot, visit, lookAt,
      dependenciesOf, planAt, Tarjan.init, Tarjan.discover, Tarjan.close, Tarjan.lower,
      Tarjan.popTo, List.range_succ, List.mergeSort]
  rw [hlisted] at hfirst
  obtain ⟨j, d, hj, hd, hmem⟩ := hfirst 0 [0] rfl 0 List.mem_cons_self 1
    ⟨by decide, by decide, by decide⟩
  obtain rfl := Nat.le_zero.mp hj
  cases hd
  exact absurd hmem (by decide)

end Harc.PlacementPropagation
