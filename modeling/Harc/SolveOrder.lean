import Harc.TopologicalSort
import Mathlib.Data.List.Sort

/-!
The order in which the fields of a randomize call are sampled (`solve_order`,
`randomize_renderer.rs`).  A directive asks for each of its fields before all later ones;
only free fields are ordered.
-/

namespace Harc.SolveOrder

open Harc.TopologicalSort

/-- What decides if a field is free. -/
structure TxnFieldInfo where
  name : String
  list : Bool
  width : Nat
  nonRandom : Bool
  whenGuard : Bool

/-- The leaf fields of a record, each under its path. -/
structure RecordFields where
  fields : List TxnFieldInfo
  nodup : (fields.map TxnFieldInfo.name).Nodup

def TxnFieldInfo.free (pinned : List String) (f : TxnFieldInfo) : Bool :=
  !f.list && decide (0 < f.width) && !f.nonRandom && !pinned.contains f.name && !f.whenGuard

def RecordFields.freeFields (record : RecordFields) (pinned : List String) : List TxnFieldInfo :=
  record.fields.filter (TxnFieldInfo.free pinned)

def names (fields : List TxnFieldInfo) : List String := fields.map TxnFieldInfo.name

/-- The pairs of a directive, the earlier argument first. -/
def orderedPairs : List String → List (String × String)
  | [] => []
  | src :: rest => rest.map (fun dst => (src, dst)) ++ orderedPairs rest

def addHint (free : List String) (g : Graph String) (edge : String × String) : Graph String :=
  if !free.contains edge.1 || !free.contains edge.2 then g else g.insert edge

def addDirective (free : List String) (g : Graph String) (directive : List String) :
    Graph String :=
  (orderedPairs directive).foldl (addHint free) g

def hints (free : List String) (directives : List (List String)) : Graph String :=
  directives.foldl (addDirective free) .empty

def cycleError (ty : String) : String :=
  "randomize(" ++ ty ++ ") solve-order hints form a cycle among free fields"

def sortByRank (ordered : List String) (fields : List TxnFieldInfo) : List TxnFieldInfo :=
  fields.mergeSort fun f g => decide (ordered.idxOf f.name ≤ ordered.idxOf g.name)

/-- The free fields in the order in which they are sampled, or the error; none if the
queue is not emptied. -/
def schedule (ty : String) (free : List TxnFieldInfo) (directives : List (List String)) :
    Option (Except String (List TxnFieldInfo)) :=
  if directives.isEmpty then some (.ok free)
  else
    ((hints (names free) directives).sort (names free)).map fun ordered =>
      if ordered.length ≠ free.length then .error (cycleError ty)
      else .ok (sortByRank ordered free)

/-! ### The precedence of the directives -/

/-- A directive has one free field before another. -/
def Before (free : List String) (directives : List (List String)) (a b : String) : Prop :=
  a ∈ free ∧ b ∈ free ∧
    ∃ d ∈ directives, ∃ i j : Nat, i < j ∧ d[i]? = some a ∧ d[j]? = some b

def Cyclic (free : List String) (directives : List (List String)) : Prop :=
  ∃ a, Relation.TransGen (Before free directives) a a

theorem mem_orderedPairs (d : List String) (a b : String) :
    (a, b) ∈ orderedPairs d ↔ ∃ i j : Nat, i < j ∧ d[i]? = some a ∧ d[j]? = some b := by
  induction d with
  | nil => simp [orderedPairs]
  | cons src rest ih =>
      rw [orderedPairs, List.mem_append, ih]
      constructor
      · rintro (h | ⟨i, j, hij, hi, hj⟩)
        · obtain ⟨dst, hdst, heq⟩ := List.mem_map.mp h
          obtain ⟨rfl, rfl⟩ := Prod.mk.inj heq
          obtain ⟨j, hj⟩ := List.mem_iff_getElem?.mp hdst
          exact ⟨0, j + 1, by omega, by simp, by simpa using hj⟩
        · exact ⟨i + 1, j + 1, by omega, by simpa using hi, by simpa using hj⟩
      · rintro ⟨i, j, hij, hi, hj⟩
        obtain ⟨j, rfl⟩ : ∃ k, j = k + 1 := ⟨j - 1, by omega⟩
        rw [List.getElem?_cons_succ] at hj
        rcases i with _ | i
        · obtain rfl : src = a := by simpa using hi
          exact Or.inl (List.mem_map.mpr ⟨b, List.mem_of_getElem? hj, rfl⟩)
        · exact Or.inr ⟨i, j, by omega, by simpa using hi, hj⟩

section Hints

variable (free : List String)

theorem mem_addHint {g : Graph String} {edge e : String × String} :
    e ∈ (addHint free g edge).edges ↔
      e ∈ g.edges ∨ e = edge ∧ e.1 ∈ free ∧ e.2 ∈ free := by
  rw [addHint]
  split_ifs with h
  · simp only [Bool.or_eq_true, Bool.not_eq_true', List.contains_eq_mem,
      decide_eq_false_iff_not] at h
    constructor
    · exact Or.inl
    · rintro (he | ⟨rfl, h₁, h₂⟩)
      · exact he
      · exact absurd h (by simp [h₁, h₂])
  · simp only [Bool.or_eq_true, Bool.not_eq_true', List.contains_eq_mem,
      decide_eq_false_iff_not, not_or, not_not] at h
    rw [Graph.mem_insert]
    constructor
    · rintro (rfl | he)
      · exact Or.inr ⟨rfl, h⟩
      · exact Or.inl he
    · rintro (he | ⟨rfl, -⟩)
      · exact Or.inr he
      · exact Or.inl rfl

theorem counts_addHint {g : Graph String} (h : g.Counts) (edge : String × String) :
    (addHint free g edge).Counts := by
  rw [addHint]
  split_ifs
  · exact h
  · exact h.insert edge

theorem addDirective_spec (d : List String) {g : Graph String} (h : g.Counts) :
    (addDirective free g d).Counts ∧ ∀ e, e ∈ (addDirective free g d).edges ↔
      e ∈ g.edges ∨ e ∈ orderedPairs d ∧ e.1 ∈ free ∧ e.2 ∈ free := by
  rw [addDirective]
  generalize orderedPairs d = pairs
  induction pairs generalizing g with
  | nil => exact ⟨h, by simp⟩
  | cons p pairs ih =>
      rw [List.foldl_cons]
      obtain ⟨hcounts, hmem⟩ := ih (counts_addHint free h p)
      refine ⟨hcounts, ?_⟩
      intro e
      rw [hmem, mem_addHint, List.mem_cons]
      tauto

theorem hints_spec (directives : List (List String)) :
    (hints free directives).Counts ∧ ∀ a b, (a, b) ∈ (hints free directives).edges ↔
      Before free directives a b := by
  have hfold : ∀ g : Graph String, g.Counts →
      (directives.foldl (addDirective free) g).Counts ∧
        ∀ a b, (a, b) ∈ (directives.foldl (addDirective free) g).edges ↔
          (a, b) ∈ g.edges ∨ Before free directives a b := by
    induction directives with
    | nil => exact fun g h => ⟨h, by simp [Before]⟩
    | cons d directives ih =>
        intro g h
        obtain ⟨hcounts, hmem⟩ := addDirective_spec free d h
        obtain ⟨hcounts', hmem'⟩ := ih _ hcounts
        refine ⟨hcounts', ?_⟩
        intro a b
        rw [List.foldl_cons, hmem', hmem, mem_orderedPairs]
        simp only [Before, List.mem_cons, exists_eq_or_imp]
        generalize (∃ i j : Nat, i < j ∧ d[i]? = some a ∧ d[j]? = some b) = here
        generalize (∃ d ∈ directives, ∃ i j : Nat, i < j ∧ d[i]? = some a ∧ d[j]? = some b) = there
        tauto
  obtain ⟨hcounts, hmem⟩ := hfold .empty .empty
  refine ⟨hcounts, ?_⟩
  intro a b
  rw [hints, hmem]
  simp [Graph.empty]

theorem path_hints_iff (directives : List (List String)) :
    (∃ v, Path (hints free directives).edges v v) ↔ Cyclic free directives := by
  have hrel : (fun u v => (u, v) ∈ (hints free directives).edges) = Before free directives := by
    funext a b
    exact propext ((hints_spec free directives).2 a b)
  change (∃ v, Relation.TransGen (fun u v => (u, v) ∈ (hints free directives).edges) v v) ↔ _
  rw [hrel, Cyclic]

end Hints

/-! ### The sampling order -/

theorem pairwise_idxOf {ordered : List String} (hnodup : ordered.Nodup) :
    ordered.Pairwise fun a b => ordered.idxOf a ≤ ordered.idxOf b := by
  rw [List.pairwise_iff_getElem]
  intro i j hi hj hij
  rw [hnodup.idxOf_getElem, hnodup.idxOf_getElem]
  exact hij.le

/-- Where the ranks are those of all the fields, sorting by rank gives their order. -/
theorem names_sortByRank {ordered : List String} {free : List TxnFieldInfo}
    (hperm : ordered.Perm (names free)) (hnodup : ordered.Nodup) :
    names (sortByRank ordered free) = ordered := by
  have hsorted : (names (sortByRank ordered free)).Pairwise fun a b =>
      ordered.idxOf a ≤ ordered.idxOf b := by
    rw [names, List.pairwise_map, sortByRank]
    refine (List.pairwise_mergeSort ?_ ?_ free).imp of_decide_eq_true
    · intro f g h hfg hgh
      simp only [decide_eq_true_eq] at *
      exact hfg.trans hgh
    · intro f g
      simp only [Bool.or_eq_true, decide_eq_true_eq]
      exact Nat.le_total _ _
  have hperm' : (names (sortByRank ordered free)).Perm ordered :=
    ((List.mergeSort_perm free _).map TxnFieldInfo.name).trans hperm.symm
  apply hperm'.eq_of_pairwise _ hsorted (pairwise_idxOf hnodup)
  intro a b ha hb hab hba
  exact List.idxOf_inj (hperm'.mem_iff.mp ha) |>.mp (le_antisymm hab hba)

/-- The renderer reports a cycle exactly if the directives have one among the free fields.
Else it orders the free fields, each before those that a directive has after it. -/
theorem schedule_spec (ty : String) (record : RecordFields) (pinned : List String)
    (directives : List (List String)) :
    (schedule ty (record.freeFields pinned) directives = some (.error (cycleError ty)) ↔
      Cyclic (names (record.freeFields pinned)) directives) ∧
    (¬ Cyclic (names (record.freeFields pinned)) directives →
      ∃ order, schedule ty (record.freeFields pinned) directives = some (.ok order) ∧
        order.Perm (record.freeFields pinned) ∧
        ∀ a b, Before (names (record.freeFields pinned)) directives a b →
          (names order).idxOf a < (names order).idxOf b) := by
  have hnodup : (names (record.freeFields pinned)).Nodup :=
    record.nodup.sublist (List.filter_sublist.map _)
  generalize record.freeFields pinned = free at hnodup ⊢
  rw [schedule]
  split_ifs with hempty
  · obtain rfl := List.isEmpty_iff.mp hempty
    have hnone : ∀ a b, ¬ Before (names free) [] a b := by simp [Before]
    have hacyclic : ¬ Cyclic (names free) [] := by
      rintro ⟨a, h⟩
      cases h with
      | single h => exact hnone _ _ h
      | tail _ h => exact hnone _ _ h
    refine ⟨by simp [hacyclic], fun _ => ⟨free, rfl, .refl free, ?_⟩⟩
    intro a b h
    exact absurd h (hnone a b)
  · obtain ⟨hcounts, hmem⟩ := hints_spec (names free) directives
    have hedges : ∀ e ∈ (hints (names free) directives).edges,
        e.1 ∈ names free ∧ e.2 ∈ names free := by
      rintro ⟨a, b⟩ he
      obtain ⟨ha, hb, -⟩ := (hmem a b).mp he
      exact ⟨ha, hb⟩
    obtain ⟨ordered, hsort, hsorted, hsub, hlen⟩ := Graph.sort_spec hcounts hnodup hedges
    have hnames : (names free).length = free.length := List.length_map _
    rw [path_hints_iff, hnames] at hlen
    rw [hsort, Option.map_some]
    constructor
    · rw [← not_iff_not, ← hlen]
      split_ifs with h
      · simp [h]
      · simpa using h
    · intro hacyclic
      have hlength := hlen.mpr hacyclic
      rw [if_neg (by simpa using hlength)]
      have hperm : ordered.Perm (names free) :=
        (hsorted.nodup.subperm hsub).perm_of_length_le (by omega)
      refine ⟨_, rfl, List.mergeSort_perm _ _, ?_⟩
      intro a b hab
      rw [names_sortByRank hperm hsorted.nodup]
      exact hsorted.idxOf_lt ((hmem a b).mpr hab) (hperm.mem_iff.mpr hab.2.1)

def byteField (name : String) : TxnFieldInfo := ⟨name, false, 8, false, false⟩

/-- Three bytes, of which the call pins the last one. -/
def packetFields : RecordFields where
  fields := [byteField "len", byteField "op", byteField "tag"]
  nodup := by decide

/-- `solve op before len` twice, and `solve tag before op` about the pinned field. -/
theorem schedule_spec_packet :
    ∃ order, schedule "Packet" (packetFields.freeFields ["tag"])
        [["op", "len"], ["tag", "op"], ["op", "len"]] = some (.ok order) ∧
      order.Perm (packetFields.freeFields ["tag"]) ∧
      (names order).idxOf "op" < (names order).idxOf "len" := by
  obtain ⟨-, hordered⟩ := schedule_spec "Packet" packetFields ["tag"]
    [["op", "len"], ["tag", "op"], ["op", "len"]]
  have hbefore : ∀ a b, Before (names (packetFields.freeFields ["tag"]))
      [["op", "len"], ["tag", "op"], ["op", "len"]] a b → a = "op" ∧ b = "len" := by
    rintro a b ⟨ha, hb, d, hd, hab⟩
    obtain ⟨rfl, rfl⟩ | ⟨rfl, rfl⟩ : a = "op" ∧ b = "len" ∨ a = "tag" ∧ b = "op" := by
      have hpair := (mem_orderedPairs d a b).mpr hab
      simp only [List.mem_cons, List.not_mem_nil, or_false] at hd
      rcases hd with rfl | rfl | rfl
      all_goals
        simp only [orderedPairs, List.map_cons, List.map_nil, List.append_nil, List.mem_singleton,
          Prod.mk.injEq] at hpair
      · exact Or.inl hpair
      · exact Or.inr hpair
      · exact Or.inl hpair
    · exact ⟨rfl, rfl⟩
    · exact absurd ha (by decide)
  have hacyclic : ¬ Cyclic (names (packetFields.freeFields ["tag"]))
      [["op", "len"], ["tag", "op"], ["op", "len"]] := by
    rintro ⟨a, hcycle⟩
    obtain ⟨b, hstep, -⟩ := Relation.TransGen.head'_iff.mp hcycle
    obtain ⟨c, -, hlast⟩ := Relation.TransGen.tail'_iff.mp hcycle
    exact absurd ((hbefore a b hstep).1.symm.trans (hbefore c a hlast).2) (by decide)
  obtain ⟨order, hschedule, hperm, hbeforeOrder⟩ := hordered hacyclic
  exact ⟨order, hschedule, hperm, hbeforeOrder "op" "len" ⟨by decide, by decide, _,
    List.mem_cons_self, 0, 1, by decide, rfl, rfl⟩⟩

end Harc.SolveOrder
