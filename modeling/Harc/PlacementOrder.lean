import Harc.PlacementPropagation
import Mathlib.Data.Fin.Tuple.Sort
import Mathlib.Data.List.Find
import Mathlib.Logic.Equiv.Fin.Basic

/-!
What the tiers of a placement owe to the numbering of the functions and to the order in which
dependencies are listed.
-/

namespace Harc.PlacementOrder

open Harc.StrongComponents
open Harc.PlacementPropagation
open Harc.PlacementPropagation.Tier

/-! ### Merging lists of tiers -/

section Lists

variable {tiers tiers' : List Tier}

theorem foldl_capsuleScoped (tiers : List Tier) :
    tiers.foldl merge .capsuleScoped = .capsuleScoped ∨
      tiers.foldl merge .capsuleScoped = .invalid := by
  induction tiers with
  | nil => exact Or.inl rfl
  | cons d tiers ih =>
      rw [List.foldl_cons]
      cases d with
      | common | capsuleScoped => exact ih
      | capsuleLocal _ | invalid => exact Or.inr (foldl_invalid tiers)

theorem foldl_capsuleScoped_eq (tiers : List Tier) :
    tiers.foldl merge .capsuleScoped = .capsuleScoped ↔
      ∀ d ∈ tiers, d = .common ∨ d = .capsuleScoped := by
  induction tiers with
  | nil => simp
  | cons d tiers ih =>
      rw [List.foldl_cons, List.forall_mem_cons]
      cases d <;> simp [merge, ih, foldl_invalid]

theorem foldl_capsuleLocal_eq (test : String) (tiers : List Tier) :
    tiers.foldl merge (.capsuleLocal test) = .capsuleLocal test ↔
      ∀ d ∈ tiers, d = .common ∨ d = .capsuleScoped ∨ d = .capsuleLocal test := by
  induction tiers with
  | nil => simp
  | cons d tiers ih =>
      rw [List.foldl_cons, List.forall_mem_cons]
      cases d with
      | capsuleLocal other =>
          by_cases h : test = other
          · subst h
            simp [merge, ih]
          · simp [merge, h, foldl_invalid, Ne.symm h]
      | _ => simp [merge, ih, foldl_invalid]

theorem mergeAll_append (tiers tiers' : List Tier) :
    mergeAll (tiers ++ tiers') = tiers'.foldl merge (mergeAll tiers) :=
  List.foldl_append

theorem mergeAll_common (h : ∀ d ∈ tiers, d = .common) : mergeAll tiers = .common := by
  induction tiers with
  | nil => rfl
  | cons d tiers ih =>
      rw [List.forall_mem_cons] at h
      rw [mergeAll, List.foldl_cons, h.1]
      exact ih h.2

theorem mergeAll_eq_common : mergeAll tiers = .common ↔ ∀ d ∈ tiers, d = .common :=
  ⟨fun h => (foldl_eq_common tiers .common h).2, mergeAll_common⟩

/-- A tier other than common and invalid is that of an element. -/
theorem foldl_mem : ∀ (tiers : List Tier) (c : Tier), tiers.foldl merge c ≠ .common →
    tiers.foldl merge c ≠ .invalid →
      tiers.foldl merge c = c ∨ tiers.foldl merge c ∈ tiers := by
  intro tiers
  induction tiers with
  | nil => exact fun c _ _ => Or.inl rfl
  | cons d tiers ih =>
      intro c hcommon hinvalid
      rw [List.foldl_cons] at hcommon hinvalid ⊢
      rcases ih (merge c d) hcommon hinvalid with h | h
      · have hmerge : merge c d = c ∨ merge c d = d ∨ merge c d = .invalid := by
          cases c <;> cases d <;> grind [merge]
        rcases hmerge with hc | hd | hi
        · exact Or.inl (h.trans hc)
        · exact Or.inr (by rw [h, hd]; exact List.mem_cons_self)
        · exact absurd (h.trans hi) hinvalid
      · exact Or.inr (List.mem_cons_of_mem d h)

theorem mergeAll_mem (hcommon : mergeAll tiers ≠ .common) (hinvalid : mergeAll tiers ≠ .invalid) :
    mergeAll tiers ∈ tiers :=
  (foldl_mem tiers .common hcommon hinvalid).resolve_left hcommon

/-- Tiers that are common or one other merge to that one. -/
theorem mergeAll_pair {x : Tier} (hx : merge x x = x) (hmem : x ∈ tiers)
    (hall : ∀ d ∈ tiers, d = .common ∨ d = x) : mergeAll tiers = x := by
  have hfold : ∀ (ds : List Tier) (c : Tier), c = .common ∨ c = x →
      (∀ d ∈ ds, d = .common ∨ d = x) → ds.foldl merge c = .common ∨ ds.foldl merge c = x := by
    intro ds
    induction ds with
    | nil => exact fun c hc _ => hc
    | cons d ds ih =>
        intro c hc hds
        rw [List.forall_mem_cons] at hds
        refine ih (merge c d) ?_ hds.2
        rcases hc with rfl | rfl
        · rw [Tier.common_merge]
          exact hds.1
        · rcases hds.1 with rfl | rfl
          · exact Or.inr (merge_common _)
          · exact Or.inr hx
  rcases hfold tiers .common (Or.inl rfl) hall with h | h
  · rw [mergeAll_eq_common.mp h x hmem]
    exact h
  · exact h

theorem mergeAll_eq_capsuleScoped :
    mergeAll tiers = .capsuleScoped ↔
      .capsuleScoped ∈ tiers ∧ ∀ d ∈ tiers, d = .common ∨ d = .capsuleScoped := by
  constructor
  · intro h
    have hmem : mergeAll tiers ∈ tiers := mergeAll_mem (by simp [h]) (by simp [h])
    rw [h] at hmem
    refine ⟨hmem, fun d hd => ?_⟩
    cases d with
    | common => exact Or.inl rfl
    | capsuleScoped => exact Or.inr rfl
    | capsuleLocal test =>
        rcases foldl_mem_capsuleLocal hd .common with h' | h'
        · exact absurd (h.symm.trans h') (by simp)
        · exact absurd (h.symm.trans h') (by simp)
    | invalid => exact absurd (h.symm.trans (foldl_mem_invalid hd .common)) (by simp)
  · rintro ⟨hmem, hall⟩
    exact mergeAll_pair rfl hmem hall

/-- A test comes before every scoped tier. -/
def LocalLed (tiers : List Tier) : Prop :=
  ∃ before after, tiers = before ++ after ∧ .capsuleScoped ∉ before ∧
    ∃ test, .capsuleLocal test ∈ before

/-- A scoped tier comes before every other than common. -/
def ScopedLed (tiers : List Tier) : Prop :=
  ∃ before after, tiers = before ++ .capsuleScoped :: after ∧
    ∀ d ∈ before, d = .common

/-- Of the tests in a list that merges to one, there is that one. -/
theorem eq_of_mergeAll {test other : String} (h : mergeAll tiers = .capsuleLocal test)
    (hmem : .capsuleLocal other ∈ tiers) : other = test := by
  rcases foldl_mem_capsuleLocal hmem .common with h' | h'
  · exact Tier.capsuleLocal.inj (h'.symm.trans h)
  · exact absurd (h.symm.trans h') (by simp)

theorem mergeAll_eq_capsuleLocal {test : String} (h : LocalLed tiers) :
    mergeAll tiers = .capsuleLocal test ↔ .capsuleLocal test ∈ tiers ∧
      ∀ d ∈ tiers, d = .common ∨ d = .capsuleScoped ∨ d = .capsuleLocal test := by
  constructor
  · intro heq
    have hmem : mergeAll tiers ∈ tiers := mergeAll_mem (by simp [heq]) (by simp [heq])
    rw [heq] at hmem
    refine ⟨hmem, fun d hd => ?_⟩
    cases d with
    | common => exact Or.inl rfl
    | capsuleScoped => exact Or.inr (Or.inl rfl)
    | capsuleLocal other => rw [eq_of_mergeAll heq hd]; exact Or.inr (Or.inr rfl)
    | invalid => exact absurd (heq.symm.trans (foldl_mem_invalid hd .common)) (by simp)
  · rintro ⟨-, hall⟩
    obtain ⟨before, after, rfl, hscoped, other, hother⟩ := h
    rw [List.forall_mem_append] at hall
    have hother' := hall.1 _ hother
    simp only [reduceCtorEq, false_or, Tier.capsuleLocal.injEq] at hother'
    subst hother'
    have hbefore : mergeAll before = .capsuleLocal other := by
      apply mergeAll_pair (by simp [merge]) hother
      intro d hd
      rcases hall.1 d hd with h | rfl | h
      · exact Or.inl h
      · exact absurd hd hscoped
      · exact Or.inr h
    rw [mergeAll_append, hbefore]
    exact (foldl_capsuleLocal_eq other after).mpr hall.2

theorem mergeAll_scopedLed (h : ScopedLed tiers) :
    mergeAll tiers = .capsuleScoped ∨ mergeAll tiers = .invalid := by
  obtain ⟨before, after, rfl, hbefore⟩ := h
  rw [mergeAll_append, mergeAll_common hbefore]
  exact foldl_capsuleScoped after

theorem mergeAll_localLed (h : LocalLed tiers) :
    (∃ test, mergeAll tiers = .capsuleLocal test) ∨ mergeAll tiers = .invalid := by
  obtain ⟨before, after, rfl, -, test, htest⟩ := h
  rcases foldl_mem_capsuleLocal (List.mem_append_left after htest) .common with h | h
  · exact Or.inl ⟨test, h⟩
  · exact Or.inr h

theorem tier_ext {a b : Tier} (h : ∀ x, x ≠ .invalid → (a = x ↔ b = x)) : a = b := by
  by_cases ha : a = .invalid
  · by_cases hb : b = .invalid
    · exact ha.trans hb.symm
    · exact (h b hb).mpr rfl
  · exact ((h a ha).mp rfl).symm

/-- Lists with the same tiers merge to the same if a test leads both. -/
theorem mergeAll_congr_localLed (hled : LocalLed tiers) (hled' : LocalLed tiers')
    (h : ∀ d, d ∈ tiers ↔ d ∈ tiers') : mergeAll tiers = mergeAll tiers' := by
  apply tier_ext
  intro x hx
  cases x with
  | common => simp only [mergeAll_eq_common, h]
  | capsuleScoped => simp only [mergeAll_eq_capsuleScoped, h]
  | capsuleLocal test => simp only [mergeAll_eq_capsuleLocal hled, mergeAll_eq_capsuleLocal hled', h]
  | invalid => exact absurd rfl hx

/-- Lists with the same tiers merge to the same if a test leads neither. -/
theorem mergeAll_congr_not_local (hled : ∀ test, mergeAll tiers ≠ .capsuleLocal test)
    (hled' : ∀ test, mergeAll tiers' ≠ .capsuleLocal test)
    (h : ∀ d, d ∈ tiers ↔ d ∈ tiers') : mergeAll tiers = mergeAll tiers' := by
  apply tier_ext
  intro x hx
  cases x with
  | common => simp only [mergeAll_eq_common, h]
  | capsuleScoped => simp only [mergeAll_eq_capsuleScoped, h]
  | capsuleLocal test => simp [hled, hled']
  | invalid => exact absurd rfl hx

end Lists

/-! ### Where the order matters -/

/-- A group of callables has a scoped and a test's placement at once, or has neither and
meets both among its dependencies. -/
def Contested (own below : List Tier) : Prop :=
  (.capsuleScoped ∈ own ∧ ∃ test, .capsuleLocal test ∈ own) ∨
    (∀ d ∈ own, d = .common) ∧ .capsuleScoped ∈ below ∧ ∃ test, .capsuleLocal test ∈ below

def isLocal : Tier → Bool
  | .capsuleLocal _ => true
  | _ => false

/-- The tiers of tests before the others. -/
def localFirst (tiers : List Tier) : List Tier :=
  tiers.filter isLocal ++ tiers.filter fun d => !isLocal d

section Contest

variable {own own' below below' : List Tier}

theorem isLocal_iff (d : Tier) : isLocal d = true ↔ ∃ test, d = .capsuleLocal test := by
  cases d <;> simp [isLocal]

@[simp] theorem mem_localFirst {tiers : List Tier} {d : Tier} :
    d ∈ localFirst tiers ↔ d ∈ tiers := by
  rw [localFirst, List.mem_append, List.mem_filter, List.mem_filter]
  cases isLocal d <;> simp

/-- Once scoped, a group does not become a test's. -/
theorem mergeAll_ne_capsuleLocal (hscoped : .capsuleScoped ∈ own)
    (hlocal : ∀ test, .capsuleLocal test ∉ own) (test : String) :
    mergeAll (own ++ below) ≠ .capsuleLocal test := by
  rw [mergeAll_append]
  cases hown : mergeAll own with
  | common => exact absurd (mergeAll_eq_common.mp hown _ hscoped) (by simp)
  | capsuleScoped =>
      rcases foldl_capsuleScoped below with h | h
      · simp [h]
      · simp [h]
  | capsuleLocal other =>
      have hmem : mergeAll own ∈ own := mergeAll_mem (by simp [hown]) (by simp [hown])
      rw [hown] at hmem
      exact absurd hmem (hlocal other)
  | invalid =>
      rw [foldl_invalid]
      simp

theorem localLed_append_left {test : String} (hscoped : .capsuleScoped ∉ own)
    (hlocal : .capsuleLocal test ∈ own) : LocalLed (own ++ below) :=
  ⟨own, below, rfl, hscoped, test, hlocal⟩

theorem localLed_of_notMem {tiers : List Tier} {test : String} (hscoped : .capsuleScoped ∉ tiers)
    (hlocal : .capsuleLocal test ∈ tiers) : LocalLed tiers :=
  ⟨tiers, [], (List.append_nil tiers).symm, hscoped, test, hlocal⟩

/-- Away from a contest the order does not matter. -/
theorem mergeAll_congr (h : ¬ Contested own below) (hown : ∀ d, d ∈ own ↔ d ∈ own')
    (hbelow : ∀ d, d ∈ below ↔ d ∈ below') : mergeAll (own ++ below) = mergeAll (own' ++ below') := by
  have hmem : ∀ d, d ∈ own ++ below ↔ d ∈ own' ++ below' := by
    intro d
    rw [List.mem_append, List.mem_append, hown, hbelow]
  unfold Contested at h
  push Not at h
  obtain ⟨howns, hbelows⟩ := h
  by_cases hinvalid : .invalid ∈ own ++ below
  · exact (foldl_mem_invalid hinvalid .common).trans
      (foldl_mem_invalid ((hmem _).mp hinvalid) .common).symm
  by_cases hlocal : ∃ test, .capsuleLocal test ∈ own
  · obtain ⟨test, hlocal⟩ := hlocal
    have hscoped : .capsuleScoped ∉ own := fun hs => howns hs test hlocal
    exact mergeAll_congr_localLed (localLed_append_left hscoped hlocal)
      (localLed_append_left (mt (hown _).mpr hscoped) ((hown _).mp hlocal)) hmem
  push Not at hlocal
  by_cases hscoped : .capsuleScoped ∈ own
  · exact mergeAll_congr_not_local (mergeAll_ne_capsuleLocal hscoped hlocal)
      (mergeAll_ne_capsuleLocal ((hown _).mp hscoped) fun test => mt (hown _).mpr (hlocal test)) hmem
  have hcommon : ∀ d ∈ own, d = .common := by
    intro d hd
    cases d with
    | common => rfl
    | capsuleScoped => exact absurd hd hscoped
    | capsuleLocal test => exact absurd hd (hlocal test)
    | invalid => exact absurd (List.mem_append_left below hd) hinvalid
  by_cases hscoped' : .capsuleScoped ∈ below
  · have hnone : ∀ test, .capsuleLocal test ∉ own ++ below := by
      intro test hmem'
      rcases List.mem_append.mp hmem' with h | h
      · exact hlocal test h
      · exact hbelows hcommon hscoped' test h
    have hnot : ∀ (tiers : List Tier) (test : String), (∀ d, d ∈ own ++ below ↔ d ∈ tiers) →
        mergeAll tiers ≠ .capsuleLocal test := by
      intro tiers test htiers heq
      have hmem' : mergeAll tiers ∈ tiers := mergeAll_mem (by simp [heq]) (by simp [heq])
      rw [heq, ← htiers] at hmem'
      exact hnone test hmem'
    exact mergeAll_congr_not_local (fun test => hnot _ test fun _ => Iff.rfl)
      (fun test => hnot _ test hmem) hmem
  · have hnot : .capsuleScoped ∉ own ++ below := by
      rw [List.mem_append, not_or]
      exact ⟨hscoped, hscoped'⟩
    by_cases hsome : ∃ test, .capsuleLocal test ∈ own ++ below
    · obtain ⟨test, hsome⟩ := hsome
      exact mergeAll_congr_localLed (localLed_of_notMem hnot hsome)
        (localLed_of_notMem (mt (hmem _).mpr hnot) ((hmem _).mp hsome)) hmem
    · push Not at hsome
      have hall : ∀ d ∈ own ++ below, d = .common := by
        intro d hd
        cases d with
        | common => rfl
        | capsuleScoped => exact absurd hd hnot
        | capsuleLocal test => exact absurd hd (hsome test)
        | invalid => exact absurd hd hinvalid
      rw [mergeAll_common hall, mergeAll_common fun d hd => hall d ((hmem d).mpr hd)]

/-- With the tests first, a test leads unless the group itself is scoped. -/
theorem localLed_localFirst {test : String} (hmem : .capsuleLocal test ∈ own ++ below)
    (hscoped : .capsuleScoped ∈ own → ∃ test, .capsuleLocal test ∈ own) :
    LocalLed (localFirst own ++ localFirst below) := by
  have hfilter : ∀ tiers : List Tier, Tier.capsuleScoped ∉ tiers.filter isLocal := by
    intro tiers hd
    have := (List.mem_filter.mp hd).2
    simp [isLocal] at this
  by_cases hlocal : ∃ test, .capsuleLocal test ∈ own
  · obtain ⟨other, hlocal⟩ := hlocal
    refine ⟨own.filter isLocal, (own.filter fun d => !isLocal d) ++ localFirst below, ?_,
      hfilter own, other, ?_⟩
    · rw [localFirst, List.append_assoc]
    · exact List.mem_filter.mpr ⟨hlocal, rfl⟩
  · have hnot : .capsuleScoped ∉ own := fun h => hlocal (hscoped h)
    have hbelow : .capsuleLocal test ∈ below :=
      (List.mem_append.mp hmem).resolve_left fun h => hlocal ⟨test, h⟩
    refine ⟨localFirst own ++ below.filter isLocal, below.filter fun d => !isLocal d, ?_, ?_, test, ?_⟩
    · rw [List.append_assoc]
      rfl
    · rw [List.mem_append, not_or, mem_localFirst]
      exact ⟨hnot, hfilter below⟩
    · exact List.mem_append_right _ (List.mem_filter.mpr ⟨hbelow, rfl⟩)

/-- What makes a group invalid when tests come first. -/
theorem mergeAll_localFirst_invalid
    (h : mergeAll (localFirst own ++ localFirst below) = .invalid) :
    .invalid ∈ own ++ below ∨
      (∃ first second, first ≠ second ∧ .capsuleLocal first ∈ own ++ below ∧
        .capsuleLocal second ∈ own ++ below) ∨
      .capsuleScoped ∈ own ∧ (∀ test, .capsuleLocal test ∉ own) ∧
        ∃ test, .capsuleLocal test ∈ own ++ below := by
  have hmem : ∀ d, d ∈ localFirst own ++ localFirst below ↔ d ∈ own ++ below := by
    intro d
    rw [List.mem_append, List.mem_append, mem_localFirst, mem_localFirst]
  by_contra hnot
  push Not at hnot
  obtain ⟨hinvalid, hone, hscoped⟩ := hnot
  by_cases hlocal : ∃ test, .capsuleLocal test ∈ own ++ below
  · obtain ⟨test, hlocal⟩ := hlocal
    have hled := localLed_localFirst hlocal fun hs => by
      by_contra hno
      push Not at hno
      exact hscoped hs hno test hlocal
    have heq : mergeAll (localFirst own ++ localFirst below) = .capsuleLocal test := by
      rw [mergeAll_eq_capsuleLocal hled, hmem]
      refine ⟨hlocal, fun d hd => ?_⟩
      rw [hmem] at hd
      cases d with
      | common => exact Or.inl rfl
      | capsuleScoped => exact Or.inr (Or.inl rfl)
      | capsuleLocal other =>
          refine Or.inr (Or.inr ?_)
          by_contra hne
          exact hone other test (fun heq => hne (by rw [heq])) hd hlocal
      | invalid => exact absurd hd hinvalid
    rw [h] at heq
    cases heq
  · push Not at hlocal
    have hall : ∀ d ∈ localFirst own ++ localFirst below, d = .common ∨ d = .capsuleScoped := by
      intro d hd
      rw [hmem] at hd
      cases d with
      | common => exact Or.inl rfl
      | capsuleScoped => exact Or.inr rfl
      | capsuleLocal test => exact absurd hd (hlocal test)
      | invalid => exact absurd hd hinvalid
    by_cases hs : .capsuleScoped ∈ localFirst own ++ localFirst below
    · rw [mergeAll_eq_capsuleScoped.mpr ⟨hs, hall⟩] at h
      cases h
    · rw [mergeAll_common fun d hd => (hall d hd).resolve_right fun heq => hs (heq ▸ hd)] at h
      cases h

end Contest

/-! ### Runs -/

/-- Callables of one group reach each other. -/
def Mutual (n : Nat) (deps : Nat → List Nat) (x y : Nat) : Prop :=
  Reaches n deps x y ∧ Reaches n deps y x

def tierBelow (n : Nat) (g : Nat → Tier) (d : Nat) : Tier := if d < n then g d else .invalid

/-- The tiers that the group of `i` merges, in some order. -/
structure Sees (n : Nat) (deps : Nat → List Nat) (g : Nat → Tier) (i : Nat)
    (own below : List Tier) : Prop where
  mem_own : ∀ t, t ∈ own ↔ ∃ m, Mutual n deps i m ∧ g m = t
  mem_below : ∀ t, t ∈ below ↔ ∃ m d, Mutual n deps i m ∧ d ∈ deps m ∧ tierBelow n g d = t

/-- The tiers after each round, with the tiers of a group merged in any order. -/
structure Runs (n : Nat) (deps : Nat → List Nat) (seed : Nat → Tier) (g : Nat → Nat → Tier) :
    Prop where
  start : ∀ i < n, g 0 i = seed i
  step : ∀ k, ∀ i < n, ∃ own below, Sees n deps (g k) i own below ∧
    g (k + 1) i = mergeAll (own ++ below)

/-- A run that merges the tiers of tests first. -/
structure FairRun (n : Nat) (deps : Nat → List Nat) (seed : Nat → Tier) (f : Nat → Nat → Tier) :
    Prop where
  start : ∀ i < n, f 0 i = seed i
  step : ∀ k, ∀ i < n, ∃ own below, Sees n deps (f k) i own below ∧
    f (k + 1) i = mergeAll (localFirst own ++ localFirst below)

section Runs

variable {n : Nat} {deps : Nat → List Nat} {seed : Nat → Tier} {f g : Nat → Nat → Tier}

theorem Reaches.lt {x y : Nat} (h : Reaches n deps x y) (hx : x < n) : y < n := by
  induction h with
  | refl => exact hx
  | tail _ hedge _ => exact hedge.2.1

theorem Mutual.lt {x y : Nat} (h : Mutual n deps x y) (hx : x < n) : y < n :=
  Reaches.lt h.1 hx

theorem Mutual.refl (x : Nat) : Mutual n deps x x :=
  ⟨Relation.ReflTransGen.refl, Relation.ReflTransGen.refl⟩

/-- The callables whose tiers the group of `i` merges. -/
def Feeds (n : Nat) (deps : Nat → List Nat) (i y : Nat) : Prop :=
  y < n ∧ (Mutual n deps i y ∨ ∃ m, Mutual n deps i m ∧ y ∈ deps m)

/-- The group of `i` has a dependency that does not exist. -/
def Missing (n : Nat) (deps : Nat → List Nat) (i : Nat) : Prop :=
  ∃ m d, Mutual n deps i m ∧ d ∈ deps m ∧ n ≤ d

theorem Sees.mem {h : Nat → Tier} {i : Nat} {own below : List Tier}
    (hsees : Sees n deps h i own below) (hi : i < n) (t : Tier) :
    t ∈ own ++ below ↔ (∃ y, Feeds n deps i y ∧ h y = t) ∨ t = .invalid ∧ Missing n deps i := by
  rw [List.mem_append, hsees.mem_own, hsees.mem_below]
  constructor
  · rintro (⟨m, hm, ht⟩ | ⟨m, d, hm, hd, ht⟩)
    · exact Or.inl ⟨m, ⟨hm.lt hi, Or.inl hm⟩, ht⟩
    · by_cases hlt : d < n
      · rw [tierBelow, if_pos hlt] at ht
        exact Or.inl ⟨d, ⟨hlt, Or.inr ⟨m, hm, hd⟩⟩, ht⟩
      · rw [tierBelow, if_neg hlt] at ht
        exact Or.inr ⟨ht.symm, m, d, hm, hd, Nat.le_of_not_lt hlt⟩
  · rintro (⟨y, ⟨hy, hm | ⟨m, hm, hd⟩⟩, ht⟩ | ⟨rfl, m, d, hm, hd, hn⟩)
    · exact Or.inl ⟨y, hm, ht⟩
    · refine Or.inr ⟨m, y, hm, hd, ?_⟩
      rw [tierBelow, if_pos hy]
      exact ht
    · refine Or.inr ⟨m, d, hm, hd, ?_⟩
      rw [tierBelow, if_neg (by omega)]

theorem Sees.forall_mem {h : Nat → Tier} {i : Nat} {own below : List Tier}
    (hsees : Sees n deps h i own below) (hi : i < n) {P : Tier → Prop} (hP : ¬ P .invalid) :
    (∀ t ∈ own ++ below, P t) ↔ (∀ y, Feeds n deps i y → P (h y)) ∧ ¬ Missing n deps i := by
  constructor
  · intro hall
    refine ⟨fun y hy => hall _ ((hsees.mem hi _).mpr (Or.inl ⟨y, hy, rfl⟩)), fun hmissing => hP ?_⟩
    exact hall _ ((hsees.mem hi _).mpr (Or.inr ⟨rfl, hmissing⟩))
  · rintro ⟨hfeeds, hmissing⟩ t ht
    rcases (hsees.mem hi t).mp ht with ⟨y, hy, rfl⟩ | ⟨-, h⟩
    · exact hfeeds y hy
    · exact absurd h hmissing

theorem FairRun.runs (h : FairRun n deps seed f) : Runs n deps seed f := by
  refine ⟨h.start, fun k i hi => ?_⟩
  obtain ⟨own, below, hsees, hstep⟩ := h.step k i hi
  refine ⟨localFirst own, localFirst below, ⟨?_, ?_⟩, hstep⟩
  · intro t
    rw [mem_localFirst, hsees.mem_own]
  · intro t
    rw [mem_localFirst, hsees.mem_below]

/-- In two runs the same callables are common after a round, and the same are scoped. -/
theorem Runs.agree (hf : Runs n deps seed f) (hg : Runs n deps seed g) (k : Nat) :
    ∀ i < n, (g k i = .common ↔ f k i = .common) ∧
      (g k i = .capsuleScoped ↔ f k i = .capsuleScoped) := by
  induction k with
  | zero =>
      intro i hi
      rw [hf.start i hi, hg.start i hi]
      exact ⟨Iff.rfl, Iff.rfl⟩
  | succ k ih =>
      intro i hi
      obtain ⟨own, below, hsees, hstep⟩ := hf.step k i hi
      obtain ⟨own', below', hsees', hstep'⟩ := hg.step k i hi
      have hcommon : ∀ y, Feeds n deps i y → (g k y = .common ↔ f k y = .common) :=
        fun y hy => (ih y hy.1).1
      have hscoped : ∀ y, Feeds n deps i y → (g k y = .capsuleScoped ↔ f k y = .capsuleScoped) :=
        fun y hy => (ih y hy.1).2
      rw [hstep, hstep', mergeAll_eq_common, mergeAll_eq_common, mergeAll_eq_capsuleScoped,
        mergeAll_eq_capsuleScoped, hsees.mem hi, hsees'.mem hi,
        hsees.forall_mem hi (by simp), hsees'.forall_mem hi (by simp),
        hsees.forall_mem hi (by simp), hsees'.forall_mem hi (by simp)]
      constructor
      · exact and_congr_left' (forall₂_congr hcommon)
      · refine and_congr (or_congr_left ?_) (and_congr_left' (forall₂_congr fun y hy => ?_))
        · exact exists_congr fun y => and_congr_right (hscoped y)
        · rw [hcommon y hy, hscoped y hy]

theorem feeds_self {i : Nat} (hi : i < n) : Feeds n deps i i :=
  ⟨hi, Or.inl (Mutual.refl i)⟩

theorem Runs.mergeAll_mem {i y k : Nat} (hg : Runs n deps seed g) (hi : i < n)
    (hy : Feeds n deps i y) : ∃ tiers, g k y ∈ tiers ∧ g (k + 1) i = mergeAll tiers := by
  obtain ⟨own, below, hsees, hstep⟩ := hg.step k i hi
  exact ⟨_, (hsees.mem hi _).mpr (Or.inl ⟨y, hy, rfl⟩), hstep⟩

theorem Runs.invalid_feeds {i y k : Nat} (hg : Runs n deps seed g) (hi : i < n)
    (hy : Feeds n deps i y) (hinvalid : g k y = .invalid) : g (k + 1) i = .invalid := by
  obtain ⟨tiers, hmem, hstep⟩ := hg.mergeAll_mem (k := k) hi hy
  rw [hinvalid] at hmem
  exact hstep.trans (foldl_mem_invalid hmem _)

theorem Runs.local_feeds {i y k : Nat} {test : String} (hg : Runs n deps seed g) (hi : i < n)
    (hy : Feeds n deps i y) (hlocal : g k y = .capsuleLocal test ∨ g k y = .invalid) :
    g (k + 1) i = .capsuleLocal test ∨ g (k + 1) i = .invalid := by
  rcases hlocal with hlocal | hinvalid
  · obtain ⟨tiers, hmem, hstep⟩ := hg.mergeAll_mem (k := k) hi hy
    rw [hlocal] at hmem
    rw [hstep]
    exact foldl_mem_capsuleLocal hmem _
  · exact Or.inr (hg.invalid_feeds hi hy hinvalid)

theorem Runs.missing {i k : Nat} (hg : Runs n deps seed g) (hi : i < n)
    (hmissing : Missing n deps i) : g (k + 1) i = .invalid := by
  obtain ⟨own, below, hsees, hstep⟩ := hg.step k i hi
  exact hstep.trans (foldl_mem_invalid ((hsees.mem hi _).mpr (Or.inr ⟨rfl, hmissing⟩)) _)

theorem Runs.invalid_mono {i k k' : Nat} (hg : Runs n deps seed g) (hi : i < n)
    (hinvalid : g k i = .invalid) (hk : k ≤ k') : g k' i = .invalid := by
  induction hk with
  | refl => exact hinvalid
  | step _ ih => exact hg.invalid_feeds hi (feeds_self hi) ih

/-- From some round on, `i` is placed in the test or is invalid. -/
def Tends (g : Nat → Nat → Tier) (i : Nat) (test : String) : Prop :=
  ∃ bound, ∀ k ≥ bound, g k i = .capsuleLocal test ∨ g k i = .invalid

theorem Runs.tends_self {i k : Nat} {test : String} (hg : Runs n deps seed g) (hi : i < n)
    (hlocal : g k i = .capsuleLocal test) : Tends g i test := by
  refine ⟨k, fun k' hk => ?_⟩
  induction hk with
  | refl => exact Or.inl hlocal
  | step _ ih => exact hg.local_feeds hi (feeds_self hi) ih

theorem Runs.tends_feeds {i y : Nat} {test : String} (hg : Runs n deps seed g) (hi : i < n)
    (hy : Feeds n deps i y) (h : Tends g y test) : Tends g i test := by
  obtain ⟨bound, h⟩ := h
  refine ⟨bound + 1, fun k hk => ?_⟩
  obtain ⟨k, rfl⟩ : ∃ j, k = j + 1 := ⟨k - 1, by omega⟩
  exact hg.local_feeds hi hy (h k (by omega))

/-- A test that claims a callable in one run claims it in every run, or it ends invalid there. -/
theorem Runs.tends (hf : Runs n deps seed f) (hg : Runs n deps seed g) {test : String} (k : Nat) :
    ∀ i < n, f k i = .capsuleLocal test → Tends g i test := by
  induction k with
  | zero =>
      intro i hi hlocal
      rw [hf.start i hi, ← hg.start i hi] at hlocal
      exact hg.tends_self hi hlocal
  | succ k ih =>
      intro i hi hlocal
      obtain ⟨own, below, hsees, hstep⟩ := hf.step k i hi
      rw [hstep] at hlocal
      have hmem : mergeAll (own ++ below) ∈ own ++ below :=
        PlacementOrder.mergeAll_mem (by simp [hlocal]) (by simp [hlocal])
      rw [hlocal] at hmem
      rcases (hsees.mem hi _).mp hmem with ⟨y, hy, hy'⟩ | ⟨h, -⟩
      · exact hg.tends_feeds hi hy (ih y hy.1 hy')
      · cases h

theorem Tends.invalid {i : Nat} {first second : String} (hne : first ≠ second)
    (h : Tends g i first) (h' : Tends g i second) : ∃ k, g k i = .invalid := by
  obtain ⟨bound, h⟩ := h
  obtain ⟨bound', h'⟩ := h'
  refine ⟨max bound bound', ?_⟩
  rcases h _ (le_max_left _ _) with hfirst | hinvalid
  · rcases h' _ (le_max_right _ _) with hsecond | hinvalid
    · rw [hfirst] at hsecond
      exact absurd (Tier.capsuleLocal.inj hsecond) hne
    · exact hinvalid
  · exact hinvalid

/-- A group that is scoped in one run is so in the other, and there it does not stand a test. -/
theorem Runs.scoped_invalid (hf : Runs n deps seed f) (hg : Runs n deps seed g) {k i y : Nat}
    (hi : i < n) (hgroup : ∀ m, Mutual n deps i m → f k m = .common ∨ f k m = .capsuleScoped)
    (hscoped : ∃ m, Mutual n deps i m ∧ f k m = .capsuleScoped) (hy : Feeds n deps i y)
    {test : String} (htest : f k y = .capsuleLocal test) : g (k + 1) i = .invalid := by
  obtain ⟨own, below, hsees, hstep⟩ := hg.step k i hi
  have hagree := hf.agree hg k
  have hmem : .capsuleScoped ∈ own := by
    obtain ⟨m, hm, hm'⟩ := hscoped
    exact (hsees.mem_own _).mpr ⟨m, hm, (hagree m (hm.lt hi)).2.mpr hm'⟩
  have hnone : ∀ test, .capsuleLocal test ∉ own := by
    intro test hlocal
    obtain ⟨m, hm, hm'⟩ := (hsees.mem_own _).mp hlocal
    rcases hgroup m hm with h | h
    · rw [(hagree m (hm.lt hi)).1.mpr h] at hm'
      cases hm'
    · rw [(hagree m (hm.lt hi)).2.mpr h] at hm'
      cases hm'
  have hmet : g k y ∈ own ++ below := (hsees.mem hi _).mpr (Or.inl ⟨y, hy, rfl⟩)
  rw [hstep]
  cases hmerge : mergeAll (own ++ below) with
  | common => exact absurd (mergeAll_eq_common.mp hmerge _ (List.mem_append_left _ hmem)) (by simp)
  | capsuleScoped =>
      rcases (mergeAll_eq_capsuleScoped.mp hmerge).2 _ hmet with h | h
      · rw [(hagree y hy.1).1.mp h] at htest
        cases htest
      · rw [(hagree y hy.1).2.mp h] at htest
        cases htest
  | capsuleLocal other => exact absurd hmerge (mergeAll_ne_capsuleLocal hmem hnone other)
  | invalid => rfl

/-- What the fair run makes invalid, every run does. -/
theorem FairRun.invalid (hf : FairRun n deps seed f) (hg : Runs n deps seed g) (k : Nat) :
    ∀ i < n, f k i = .invalid → ∃ k', g k' i = .invalid := by
  induction k with
  | zero =>
      intro i hi hinvalid
      rw [hf.start i hi, ← hg.start i hi] at hinvalid
      exact ⟨0, hinvalid⟩
  | succ k ih =>
      intro i hi hinvalid
      obtain ⟨own, below, hsees, hstep⟩ := hf.step k i hi
      rw [hstep] at hinvalid
      by_cases hmem : .invalid ∈ own ++ below
      · rcases (hsees.mem hi _).mp hmem with ⟨y, hy, hy'⟩ | ⟨-, hmissing⟩
        · obtain ⟨k', hk'⟩ := ih y hy.1 hy'
          exact ⟨k' + 1, hg.invalid_feeds hi hy hk'⟩
        · exact ⟨1, hg.missing hi hmissing⟩
      · rcases (mergeAll_localFirst_invalid hinvalid).resolve_left hmem with
          ⟨first, second, hne, hfirst, hsecond⟩ | ⟨hscoped, hnone, test, htest⟩
        · have htends : ∀ test, .capsuleLocal test ∈ own ++ below → Tends g i test := by
            intro test hmem
            rcases (hsees.mem hi _).mp hmem with ⟨y, hy, hy'⟩ | ⟨h, -⟩
            · exact hg.tends_feeds hi hy (hf.runs.tends hg k y hy.1 hy')
            · cases h
          exact (htends first hfirst).invalid hne (htends second hsecond)
        · have hgroup : ∀ m, Mutual n deps i m → f k m = .common ∨ f k m = .capsuleScoped := by
            intro m hm
            have hown : f k m ∈ own := (hsees.mem_own _).mpr ⟨m, hm, rfl⟩
            cases hm' : f k m with
            | common => exact Or.inl rfl
            | capsuleScoped => exact Or.inr rfl
            | capsuleLocal other => exact absurd (hm' ▸ hown) (hnone other)
            | invalid => exact absurd (List.mem_append_left _ (hm' ▸ hown)) hmem
          rcases (hsees.mem hi _).mp htest with ⟨y, hy, hy'⟩ | ⟨h, -⟩
          · exact ⟨k + 1, hf.runs.scoped_invalid hg hi hgroup ((hsees.mem_own _).mp hscoped) hy hy'⟩
          · cases h

/-! ### Runs without a contest -/

/-- A callable whose group is contested in the fair run ends invalid there. -/
def Uncontested (n : Nat) (deps : Nat → List Nat) (f : Nat → Nat → Tier) : Prop :=
  ∀ k, ∀ i < n, ∀ own below, Sees n deps (f k) i own below → Contested own below →
    ∃ k', f k' i = .invalid

/-- Without a contest every run is the fair run, up to callables that end invalid. -/
theorem FairRun.eq_or_invalid (hf : FairRun n deps seed f) (hg : Runs n deps seed g)
    (h : Uncontested n deps f) (k : Nat) :
    ∀ i < n, g k i = f k i ∨ ∃ k', f k' i = .invalid := by
  induction k with
  | zero =>
      intro i hi
      rw [hf.start i hi, hg.start i hi]
      exact Or.inl rfl
  | succ k ih =>
      intro i hi
      by_cases hends : ∃ k', f k' i = .invalid
      · exact Or.inr hends
      · refine Or.inl ?_
        have hfeeds : ∀ y, Feeds n deps i y → g k y = f k y := by
          intro y hy
          refine (ih y hy.1).resolve_right ?_
          rintro ⟨k', hk'⟩
          exact hends ⟨k' + 1, hf.runs.invalid_feeds hi hy hk'⟩
        have hpresent : ∀ m d, Mutual n deps i m → d ∈ deps m → d < n := by
          intro m d hm hd
          by_contra hlt
          exact hends ⟨1, hf.runs.missing hi ⟨m, d, hm, hd, Nat.le_of_not_lt hlt⟩⟩
        obtain ⟨own, below, hsees, hstep⟩ := hf.step k i hi
        obtain ⟨own', below', hsees', hstep'⟩ := hg.step k i hi
        have hcontest : ¬ Contested own below := fun hc => hends (h k i hi own below hsees hc)
        have hown : ∀ d, d ∈ own ↔ d ∈ own' := by
          intro d
          rw [hsees.mem_own, hsees'.mem_own]
          refine exists_congr fun m => and_congr_right fun hm => ?_
          rw [hfeeds m ⟨hm.lt hi, Or.inl hm⟩]
        have hbelow : ∀ d, d ∈ below ↔ d ∈ below' := by
          intro d
          rw [hsees.mem_below, hsees'.mem_below]
          refine exists₂_congr fun m d => and_congr_right fun hm => and_congr_right fun hd => ?_
          have hlt := hpresent m d hm hd
          rw [tierBelow, tierBelow, if_pos hlt, if_pos hlt, hfeeds d ⟨hlt, Or.inr ⟨m, hm, hd⟩⟩]
        rw [hstep, hstep', ← mergeAll_congr hcontest hown hbelow]
        exact mergeAll_congr hcontest (fun d => mem_localFirst.symm) (fun d => mem_localFirst.symm)

/-- Without a contest the runs end alike. -/
theorem FairRun.confluent (hf : FairRun n deps seed f) {g' : Nat → Nat → Tier}
    (hg : Runs n deps seed g) (hg' : Runs n deps seed g') (h : Uncontested n deps f) {i : Nat}
    (hi : i < n) (bound : Nat) {t t' : Tier} (ht : ∀ k ≥ bound, g k i = t)
    (ht' : ∀ k ≥ bound, g' k i = t') : t = t' := by
  by_cases hends : ∃ k, f k i = .invalid
  · have hinvalid : ∀ {g : Nat → Nat → Tier} {t : Tier}, Runs n deps seed g →
        (∀ k ≥ bound, g k i = t) → t = .invalid := by
      intro g t hg ht
      obtain ⟨k, hk⟩ := hends
      obtain ⟨k', hk'⟩ := hf.invalid hg k i hi hk
      rw [← ht (max bound k') (le_max_left _ _)]
      exact hg.invalid_mono hi hk' (le_max_right _ _)
    rw [hinvalid hg ht, hinvalid hg' ht']
  · rw [← ht bound (le_refl _), ← ht' bound (le_refl _),
      (hf.eq_or_invalid hg h bound i hi).resolve_right hends,
      (hf.eq_or_invalid hg' h bound i hi).resolve_right hends]

end Runs

/-! ### The fair run of a program -/

section Fair

variable (entries : List CallablePlan)

/-- The group of a callable: those it reaches and is reached from. -/
def groupOf (i : Nat) : List Nat :=
  ((componentsOf entries).find? fun c => decide (i ∈ c)).getD []

def ownTiers (g : Nat → Tier) (i : Nat) : List Tier := (groupOf entries i).map g

def belowTiers (g : Nat → Tier) (i : Nat) : List Tier :=
  ((groupOf entries i).flatMap (dependenciesOf entries)).map (tierBelow entries.length g)

/-- The tiers after each round if those of tests were merged first everywhere. -/
def fairTiers : Nat → Nat → Tier
  | 0, i => tierAt entries i
  | k + 1, i => mergeAll (localFirst (ownTiers entries (fairTiers k) i) ++
      localFirst (belowTiers entries (fairTiers k) i))

/-- A group that meets scoped and test placements at once is one that ends invalid. -/
def OrderFree : Prop :=
  ∀ k, ∀ i < entries.length,
    Contested (ownTiers entries (fairTiers entries k) i)
        (belowTiers entries (fairTiers entries k) i) →
      ∃ k', fairTiers entries k' i = .invalid

end Fair

section FairRun

variable {entries : List CallablePlan}

theorem isComponents_componentsOf (entries : List CallablePlan) :
    IsComponents entries.length (dependenciesOf entries) (componentsOf entries) :=
  isComponents_stronglyConnectedComponents

theorem groupOf_mem {i : Nat} (hi : i < entries.length) :
    groupOf entries i ∈ componentsOf entries ∧ i ∈ groupOf entries i := by
  obtain ⟨c, hc, hic⟩ :=
    List.mem_flatten.mp (((isComponents_componentsOf entries).covers i).mpr hi)
  unfold groupOf
  cases hfind : (componentsOf entries).find? fun c => decide (i ∈ c) with
  | none =>
      rw [List.find?_eq_none] at hfind
      exact absurd (decide_eq_true hic) (hfind c hc)
  | some d =>
      have hd := List.find?_some hfind
      exact ⟨List.mem_of_find?_eq_some hfind, of_decide_eq_true hd⟩

theorem mem_groupOf {i m : Nat} (hi : i < entries.length) :
    m ∈ groupOf entries i ↔ Mutual entries.length (dependenciesOf entries) i m := by
  obtain ⟨hc, hic⟩ := groupOf_mem hi
  exact (isComponents_componentsOf entries).classes _ hc i hic m

theorem sees_fairTiers {g : Nat → Tier} {i : Nat} (hi : i < entries.length) :
    Sees entries.length (dependenciesOf entries) g i (ownTiers entries g i)
      (belowTiers entries g i) := by
  constructor
  · intro t
    rw [ownTiers, List.mem_map]
    exact exists_congr fun m => and_congr_left fun _ => mem_groupOf hi
  · intro t
    rw [belowTiers, List.mem_map]
    constructor
    · rintro ⟨d, hd, ht⟩
      obtain ⟨m, hm, hd⟩ := List.mem_flatMap.mp hd
      exact ⟨m, d, (mem_groupOf hi).mp hm, hd, ht⟩
    · rintro ⟨m, d, hm, hd, ht⟩
      exact ⟨d, List.mem_flatMap.mpr ⟨m, (mem_groupOf hi).mpr hm, hd⟩, ht⟩

theorem fairRun_fairTiers :
    FairRun entries.length (dependenciesOf entries) (tierAt entries) (fairTiers entries) :=
  ⟨fun _ _ => rfl, fun _ _ hi => ⟨_, _, sees_fairTiers hi, rfl⟩⟩

theorem Contested.congr {own own' below below' : List Tier} (hown : ∀ d, d ∈ own ↔ d ∈ own')
    (hbelow : ∀ d, d ∈ below ↔ d ∈ below') (h : Contested own below) : Contested own' below' := by
  unfold Contested at h ⊢
  simp only [hown, hbelow] at h
  exact h

theorem OrderFree.uncontested (h : OrderFree entries) :
    Uncontested entries.length (dependenciesOf entries) (fairTiers entries) := by
  intro k i hi own below hsees hcontest
  have hsees' := @sees_fairTiers entries (fairTiers entries k) i hi
  refine h k i hi (hcontest.congr ?_ ?_)
  · intro d
    rw [hsees.mem_own, hsees'.mem_own]
  · intro d
    rw [hsees.mem_below, hsees'.mem_below]

end FairRun

/-! ### Numberings -/

/-- The same callables under other numbers and with their dependencies in another order. -/
structure Presents (σ : Equiv.Perm Nat) (entries entries' : List CallablePlan) : Prop where
  length : entries'.length = entries.length
  range : ∀ i, σ i < entries.length ↔ i < entries.length
  tier : ∀ i < entries.length, tierAt entries' (σ i) = tierAt entries i
  dependencies : ∀ i < entries.length,
    (dependenciesOf entries' (σ i)).Perm ((dependenciesOf entries i).map σ)

/-- The entries after each round. -/
def roundsOf (entries : List CallablePlan) (k : Nat) : List CallablePlan :=
  (fun current => (propagateRound current (componentsOf entries)).1)^[k] entries

section Present

variable {σ : Equiv.Perm Nat} {entries entries' : List CallablePlan}

theorem roundsOf_succ (entries : List CallablePlan) (k : Nat) :
    roundsOf entries (k + 1) = (propagateRound (roundsOf entries k) (componentsOf entries)).1 :=
  Function.iterate_succ_apply' _ _ _

theorem roundsOf_sameShape (entries : List CallablePlan) (k : Nat) :
    SameShape entries (roundsOf entries k) := by
  induction k with
  | zero => exact SameShape.refl entries
  | succ k ih =>
      rw [roundsOf_succ]
      have hcomponents := isComponents_componentsOf entries
      rw [← ih.length] at hcomponents
      exact ih.trans (propagateRound_sameShape hcomponents)

/-- The rounds settle on what the propagation returns. -/
theorem roundsOf_settle {rounds : Nat} {result : List CallablePlan}
    (h : propagatePlacements (componentsOf entries) rounds entries = some result) :
    ∃ bound, ∀ k ≥ bound, roundsOf entries k = result := by
  have hrun : ∀ (rounds : Nat) (current : List CallablePlan),
      propagatePlacements (componentsOf entries) rounds current = some result →
        ∃ bound, (fun e => (propagateRound e (componentsOf entries)).1)^[bound] current = result ∧
          (propagateRound result (componentsOf entries)).1 = result := by
    intro rounds
    induction rounds with
    | zero => exact fun _ h => by cases h
    | succ rounds ih =>
        intro current h
        rw [propagatePlacements] at h
        cases hflag : (propagateRound current (componentsOf entries)).2 with
        | true =>
            simp only [hflag, if_true] at h
            obtain ⟨bound, hbound, hfixed⟩ := ih _ h
            exact ⟨bound + 1, hbound, hfixed⟩
        | false =>
            simp only [hflag, Bool.false_eq_true, if_false, Option.some.injEq] at h
            have hsame : (propagateRound current (componentsOf entries)).1 = current := by
              rw [propagateRound, @placeComponents_same current _ (current, false)
                ((propagateRound_unchanged _ _).mp hflag)]
            rw [hsame] at h
            subst h
            exact ⟨0, rfl, hsame⟩
  obtain ⟨bound, hbound, hfixed⟩ := hrun rounds entries h
  refine ⟨bound, fun k hk => ?_⟩
  induction hk with
  | refl => exact hbound
  | step _ ih => rw [roundsOf_succ, ih, hfixed]

theorem Presents.edge (h : Presents σ entries entries') {x y : Nat} :
    Edge entries'.length (dependenciesOf entries') (σ x) (σ y) ↔
      Edge entries.length (dependenciesOf entries) x y := by
  unfold Edge
  rw [h.length, h.range, h.range]
  refine and_congr_right fun hx => and_congr_right fun _ => ?_
  rw [(h.dependencies x hx).mem_iff, List.mem_map]
  constructor
  · rintro ⟨d, hd, heq⟩
    rw [← σ.injective heq]
    exact hd
  · exact fun hy => ⟨y, hy, rfl⟩

theorem Presents.reaches (h : Presents σ entries entries') {x y : Nat} :
    Reaches entries'.length (dependenciesOf entries') (σ x) (σ y) ↔
      Reaches entries.length (dependenciesOf entries) x y := by
  constructor
  · intro hreach
    have hback : Edge entries'.length (dependenciesOf entries') ≤
        Function.onFun (Edge entries.length (dependenciesOf entries)) σ.symm := by
      intro a b hab
      change Edge _ _ (σ.symm a) (σ.symm b)
      rw [← h.edge, Equiv.apply_symm_apply, Equiv.apply_symm_apply]
      exact hab
    have hlift := Relation.ReflTransGen.lift σ.symm hback _ _ hreach
    change Reaches _ _ (σ.symm (σ x)) (σ.symm (σ y)) at hlift
    rw [Equiv.symm_apply_apply, Equiv.symm_apply_apply] at hlift
    exact hlift
  · exact Relation.ReflTransGen.lift σ (fun a b hab => h.edge.mpr hab) _ _

/-- The tiers of a callable after each round of another presentation. -/
def presentedTiers (σ : Equiv.Perm Nat) (entries' : List CallablePlan) (k i : Nat) : Tier :=
  tierAt (roundsOf entries' k) (σ i)

theorem Presents.mem_group (h : Presents σ entries entries') {i : Nat} {c : List Nat}
    (hc : c ∈ componentsOf entries') (hic : σ i ∈ c) (m : Nat) :
    σ m ∈ c ↔ Mutual entries.length (dependenciesOf entries) i m := by
  rw [(isComponents_componentsOf entries').classes c hc (σ i) hic (σ m), h.reaches, h.reaches]
  rfl

theorem Presents.dependencyTier_eq (h : Presents σ entries entries') (k d : Nat) :
    dependencyTier (roundsOf entries' k) (σ d) =
      tierBelow entries.length (presentedTiers σ entries' k) d := by
  rw [dependencyTier, (roundsOf_sameShape entries' k).length, h.length, tierBelow]
  simp only [h.range]
  rfl

/-- One round, by the lists that it merges. -/
theorem Presents.sees (h : Presents σ entries entries') (k : Nat) {i : Nat} (hi : i < entries.length)
    {c : List Nat} (hc : c ∈ componentsOf entries') (hic : σ i ∈ c) :
    Sees entries.length (dependenciesOf entries) (presentedTiers σ entries' k) i
      (c.map (tierAt (roundsOf entries' k)))
      ((c.flatMap (dependenciesOf entries')).map (dependencyTier (roundsOf entries' k))) := by
  have hmem := h.mem_group hc hic
  constructor
  · intro t
    rw [List.mem_map]
    constructor
    · rintro ⟨y, hy, ht⟩
      obtain ⟨m, rfl⟩ := σ.surjective y
      exact ⟨m, (hmem m).mp hy, ht⟩
    · rintro ⟨m, hm, ht⟩
      exact ⟨σ m, (hmem m).mpr hm, ht⟩
  · intro t
    rw [List.mem_map]
    constructor
    · rintro ⟨d', hd', ht⟩
      obtain ⟨m', hm', hd'⟩ := List.mem_flatMap.mp hd'
      obtain ⟨m, rfl⟩ := σ.surjective m'
      have hm := (hmem m).mp hm'
      rw [(h.dependencies m (hm.lt hi)).mem_iff, List.mem_map] at hd'
      obtain ⟨d, hd, rfl⟩ := hd'
      exact ⟨m, d, hm, hd, by rw [← h.dependencyTier_eq]; exact ht⟩
    · rintro ⟨m, d, hm, hd, ht⟩
      refine ⟨σ d, List.mem_flatMap.mpr ⟨σ m, (hmem m).mpr hm, ?_⟩, ?_⟩
      · rw [(h.dependencies m (hm.lt hi)).mem_iff]
        exact List.mem_map_of_mem hd
      · rw [h.dependencyTier_eq]
        exact ht

theorem Presents.step (k : Nat) {i : Nat} {c : List Nat} (hc : c ∈ componentsOf entries')
    (hic : σ i ∈ c) :
    presentedTiers σ entries' (k + 1) i =
      mergeAll (c.map (tierAt (roundsOf entries' k)) ++
        (c.flatMap (dependenciesOf entries')).map (dependencyTier (roundsOf entries' k))) := by
  have hcomponents := isComponents_componentsOf entries'
  have hshape := roundsOf_sameShape entries' k
  have hnonempty := hcomponents.nonempty c hc
  rw [← hshape.length] at hcomponents
  rw [presentedTiers, roundsOf_succ, tierAt_propagateRound hcomponents hc hic,
    tier_combine _ hnonempty, hshape.dependenciesOf]

theorem Presents.runs (h : Presents σ entries entries') :
    Runs entries.length (dependenciesOf entries) (tierAt entries) (presentedTiers σ entries') := by
  refine ⟨fun i hi => h.tier i hi, fun k i hi => ?_⟩
  have hi' : σ i < entries'.length := by
    rw [h.length, h.range]
    exact hi
  obtain ⟨c, hc, hic⟩ :=
    List.mem_flatten.mp (((isComponents_componentsOf entries').covers (σ i)).mpr hi')
  exact ⟨_, _, h.sees k hi hc hic, Presents.step k hc hic⟩

theorem presents_refl (entries : List CallablePlan) : Presents (Equiv.refl Nat) entries entries := by
  refine ⟨rfl, fun _ => Iff.rfl, fun _ _ => rfl, fun i _ => ?_⟩
  have hmap : (dependenciesOf entries i).map (Equiv.refl Nat) = dependenciesOf entries i :=
    List.map_id _
  rw [hmap]
  exact List.Perm.refl _

end Present

/-! ### Numberings of choice -/

section Choice

open Classical in
/-- A numbering that puts some callables before the others. -/
theorem exists_numbering (n : Nat) (first : Nat → Prop) :
    ∃ σ : Equiv.Perm Nat, (∀ i, σ i < n ↔ i < n) ∧
      ∀ i < n, ∀ j < n, first i → ¬ first j → σ i < σ j := by
  let key : Fin n → Nat := fun i => if first i then 0 else 1
  let σ : Equiv.Perm Nat := Equiv.Perm.extendDomain (Tuple.sort key).symm (Fin.equivSubtype (n := n))
  have hσ : ∀ (i : Nat) (hi : i < n), σ i = (Tuple.sort key).symm ⟨i, hi⟩ := by
    intro i hi
    exact Equiv.Perm.extendDomain_apply_subtype (p := (· < n)) _ _ hi
  refine ⟨σ, fun i => ?_, fun i hi j hj hfirst hnot => ?_⟩
  · by_cases hi : i < n
    · rw [hσ i hi]
      exact ⟨fun _ => hi, fun _ => Fin.is_lt _⟩
    · rw [show σ i = i from
        Equiv.Perm.extendDomain_apply_not_subtype (p := (· < n)) _ _ hi]
  · rw [hσ i hi, hσ j hj]
    by_contra hle
    have hmono := Tuple.monotone_sort key (not_lt.mp hle)
    simp [key, hfirst, hnot] at hmono

variable {entries : List CallablePlan}

open Classical in
noncomputable def reorder (before : Nat → Prop) (deps : List Nat) : List Nat :=
  deps.filter (fun d => before d) ++ deps.filter fun d => ¬ before d

open Classical in
theorem reorder_perm (before : Nat → Prop) (deps : List Nat) : (reorder before deps).Perm deps := by
  unfold reorder
  simp only [decide_not]
  exact List.filter_append_perm _ _

/-- A presentation that puts some callables, and some dependencies of each, before the others. -/
theorem exists_presentation (entries : List CallablePlan) (first : Nat → Prop)
    (before : Nat → Nat → Prop) :
    ∃ (σ : Equiv.Perm Nat) (entries' : List CallablePlan), Presents σ entries entries' ∧
      (∀ i < entries.length, ∀ j < entries.length, first i → ¬ first j → σ i < σ j) ∧
      ∀ i < entries.length,
        dependenciesOf entries' (σ i) = (reorder (before i) (dependenciesOf entries i)).map σ := by
  obtain ⟨σ, hrange, hfirst⟩ := exists_numbering entries.length first
  let plan : Nat → CallablePlan := fun i =>
    { planAt entries i with
      dependencies := (reorder (before i) (dependenciesOf entries i)).map σ }
  let entries' := (List.range entries.length).map fun j => plan (σ.symm j)
  have hplan : ∀ i < entries.length, planAt entries' (σ i) = plan i := by
    intro i hi
    have hlt : σ i < entries.length := (hrange i).mpr hi
    simp [planAt_eq, entries', hlt]
  refine ⟨σ, entries', ⟨by simp [entries'], hrange, fun i hi => ?_, fun i hi => ?_⟩, hfirst,
    fun i hi => ?_⟩
  · rw [tierAt, hplan i hi]
    rfl
  · rw [dependenciesOf, hplan i hi]
    exact (reorder_perm _ _).map σ
  · rw [dependenciesOf, hplan i hi]

open Classical in
theorem split_of_sorted {c : List Nat} {p : Nat → Prop} (hsorted : c.Pairwise (· ≤ ·))
    (hp : ∀ x ∈ c, ∀ y ∈ c, p x → ¬ p y → x < y) :
    c = c.filter (fun x => p x) ++ c.filter fun x => ¬ p x := by
  induction c with
  | nil => rfl
  | cons x c ih =>
      rw [List.pairwise_cons] at hsorted
      by_cases hx : p x
      · have hrest := ih hsorted.2 fun a ha b hb =>
          hp a (List.mem_cons_of_mem x ha) b (List.mem_cons_of_mem x hb)
        simp only [List.filter_cons, hx, decide_true, if_true, not_true, decide_false,
          Bool.false_eq_true, if_false, List.cons_append]
        rw [← hrest]
      · have hnone : ∀ y ∈ c, ¬ p y := by
          intro y hy hpy
          have hlt := hp y (List.mem_cons_of_mem x hy) x List.mem_cons_self hpy hx
          have hle := hsorted.1 y hy
          omega
        have hfilter : c.filter (fun x => p x) = [] := by
          rw [List.filter_eq_nil_iff]
          intro y hy
          simp [hnone y hy]
        have hfilter' : c.filter (fun x => ¬ p x) = c := by
          rw [List.filter_eq_self]
          intro y hy
          simp [hnone y hy]
        rw [List.filter_cons_of_neg (by simpa using hx), hfilter,
          List.filter_cons_of_pos (by simpa using hx), hfilter', List.nil_append]

variable {σ : Equiv.Perm Nat} {entries' : List CallablePlan} {first : Nat → Prop} {i : Nat}
  {c : List Nat}

/-- The callables put first are the first of their group. -/
theorem Presents.split (h : Presents σ entries entries')
    (hfirst : ∀ i < entries.length, ∀ j < entries.length, first i → ¬ first j → σ i < σ j)
    (hc : c ∈ componentsOf entries') :
    ∃ before after, c = before ++ after ∧ (∀ x ∈ before, first (σ.symm x)) ∧
      ∀ x ∈ after, ¬ first (σ.symm x) := by
  have hcomponents := isComponents_componentsOf entries'
  have hlt : ∀ x ∈ c, σ.symm x < entries.length := by
    intro x hx
    have hx' := (hcomponents.covers x).mp (List.mem_flatten.mpr ⟨c, hc, hx⟩)
    rw [h.length] at hx'
    rw [← h.range, Equiv.apply_symm_apply]
    exact hx'
  refine ⟨_, _, split_of_sorted (p := fun x => first (σ.symm x)) (hcomponents.sorted c hc) ?_, ?_, ?_⟩
  · intro x hx y hy hpx hpy
    have hxy := hfirst _ (hlt x hx) _ (hlt y hy) hpx hpy
    rw [Equiv.apply_symm_apply, Equiv.apply_symm_apply] at hxy
    exact hxy
  · intro x hx
    simpa using (List.mem_filter.mp hx).2
  · intro x hx
    simpa using (List.mem_filter.mp hx).2

/-- If one of a group is put first, the group begins with such a one. -/
theorem Presents.lead (h : Presents σ entries entries')
    (hfirst : ∀ i < entries.length, ∀ j < entries.length, first i → ¬ first j → σ i < σ j)
    (hc : c ∈ componentsOf entries') (hic : σ i ∈ c) {m : Nat}
    (hm : Mutual entries.length (dependenciesOf entries) i m) (hm' : first m) :
    ∃ a rest, c = σ a :: rest ∧ first a ∧
      Mutual entries.length (dependenciesOf entries) i a := by
  obtain ⟨before, after, heq, hbefore, hafter⟩ := h.split hfirst hc
  have hmem : σ m ∈ before := by
    have hσ := (h.mem_group hc hic m).mpr hm
    rw [heq, List.mem_append] at hσ
    refine hσ.resolve_right fun hno => hafter _ hno ?_
    rw [Equiv.symm_apply_apply]
    exact hm'
  obtain ⟨x, before, rfl⟩ := List.exists_cons_of_ne_nil (List.ne_nil_of_mem hmem)
  obtain ⟨a, rfl⟩ := σ.surjective x
  refine ⟨a, before ++ after, heq, ?_, ?_⟩
  · have ha := hbefore _ List.mem_cons_self
    rw [Equiv.symm_apply_apply] at ha
    exact ha
  · rw [← h.mem_group hc hic, heq]
    exact List.mem_cons_self

open Classical in
theorem reorder_lead {before : Nat → Prop} {deps : List Nat} {d : Nat} (hd : d ∈ deps)
    (hbefore : before d) : ∃ a rest, reorder before deps = a :: rest ∧ a ∈ deps ∧ before a := by
  have hmem : d ∈ deps.filter (fun d => before d) := List.mem_filter.mpr ⟨hd, by simpa using hbefore⟩
  obtain ⟨a, rest, heq⟩ := List.exists_cons_of_ne_nil (List.ne_nil_of_mem hmem)
  have ha : a ∈ deps.filter (fun d => before d) := by
    rw [heq]
    exact List.mem_cons_self
  rw [List.mem_filter] at ha
  refine ⟨a, rest ++ deps.filter fun d => ¬ before d, ?_, ha.1, by simpa using ha.2⟩
  rw [reorder, heq]
  rfl

/-- If a dependency of a group is put first, the dependencies begin with such a one. -/
theorem Presents.lead_below (h : Presents σ entries entries') {before : Nat → Nat → Prop}
    (hfirst : ∀ i < entries.length, ∀ j < entries.length, first i → ¬ first j → σ i < σ j)
    (hbefore : ∀ i < entries.length,
      dependenciesOf entries' (σ i) = (reorder (before i) (dependenciesOf entries i)).map σ)
    (hlead : ∀ a, Mutual entries.length (dependenciesOf entries) i a → first a →
      ∃ d ∈ dependenciesOf entries a, before a d)
    (hi : i < entries.length) (hc : c ∈ componentsOf entries') (hic : σ i ∈ c) {m : Nat}
    (hm : Mutual entries.length (dependenciesOf entries) i m) (hm' : first m) (k : Nat) :
    ∃ a d rest, Mutual entries.length (dependenciesOf entries) i a ∧
      d ∈ dependenciesOf entries a ∧ before a d ∧
      (c.flatMap (dependenciesOf entries')).map (dependencyTier (roundsOf entries' k)) =
        tierBelow entries.length (presentedTiers σ entries' k) d :: rest := by
  obtain ⟨a, rest, heq, ha, hmutual⟩ := h.lead hfirst hc hic hm hm'
  obtain ⟨d, hd, hdbefore⟩ := hlead a hmutual ha
  obtain ⟨e, others, horder, he, hebefore⟩ := reorder_lead hd hdbefore
  refine ⟨a, e, (others.map σ ++ rest.flatMap (dependenciesOf entries')).map
    (dependencyTier (roundsOf entries' k)), hmutual, he, hebefore, ?_⟩
  rw [heq, List.flatMap_cons, hbefore a (hmutual.lt hi), horder, List.map_cons, List.cons_append,
    List.map_cons, h.dependencyTier_eq]

/-- A contest can be lost: scoped placements are merged first, and the group is invalid. -/
theorem exists_invalid {k : Nat} (hi : i < entries.length)
    (hcontest : Contested (ownTiers entries (fairTiers entries k) i)
      (belowTiers entries (fairTiers entries k) i)) :
    ∃ σ entries', Presents σ entries entries' ∧ presentedTiers σ entries' (k + 1) i = .invalid := by
  have hsees := @sees_fairTiers entries (fairTiers entries k) i hi
  -- a group that scoped placements lead, and that a test's placement reaches, is invalid
  have hfinish : ∀ {σ : Equiv.Perm Nat} {entries' : List CallablePlan} {c : List Nat},
      Presents σ entries entries' → c ∈ componentsOf entries' → σ i ∈ c →
      ScopedLed (c.map (tierAt (roundsOf entries' k)) ++
        (c.flatMap (dependenciesOf entries')).map (dependencyTier (roundsOf entries' k))) →
      (∃ test y, Feeds entries.length (dependenciesOf entries) i y ∧
        fairTiers entries k y = .capsuleLocal test) →
      presentedTiers σ entries' (k + 1) i = .invalid := by
    rintro σ entries' c h hc hic hled ⟨test, y, hy, hlocal⟩
    rw [Presents.step k hc hic]
    refine (mergeAll_scopedLed hled).resolve_left fun hscoped => ?_
    have hmem := ((h.sees k hi hc hic).mem hi _).mpr (Or.inl ⟨y, hy, rfl⟩)
    obtain ⟨hcommon, hscoped'⟩ := fairRun_fairTiers.runs.agree h.runs k y hy.1
    rcases (mergeAll_eq_capsuleScoped.mp hscoped).2 _ hmem with heq | heq
    · rw [hcommon.mp heq] at hlocal
      cases hlocal
    · rw [hscoped'.mp heq] at hlocal
      cases hlocal
  have hgroup : ∀ {σ : Equiv.Perm Nat} {entries' : List CallablePlan},
      Presents σ entries entries' → ∃ c ∈ componentsOf entries', σ i ∈ c := by
    intro σ entries' h
    have hlt : σ i < entries'.length := by
      rw [h.length, h.range]
      exact hi
    exact List.mem_flatten.mp (((isComponents_componentsOf entries').covers (σ i)).mpr hlt)
  rcases hcontest with ⟨hscoped, test, htest⟩ | ⟨hcommon, hscoped, test, htest⟩
  · obtain ⟨m, hm, hm'⟩ := (hsees.mem_own _).mp hscoped
    obtain ⟨y, hy, hy'⟩ := (hsees.mem_own _).mp htest
    obtain ⟨σ, entries', h, hfirst, -⟩ := exists_presentation entries
      (fun m => fairTiers entries k m = .capsuleScoped) fun _ _ => True
    obtain ⟨c, hc, hic⟩ := hgroup h
    obtain ⟨a, rest, heq, ha, hmutual⟩ := h.lead hfirst hc hic hm hm'
    have hled : tierAt (roundsOf entries' k) (σ a) = .capsuleScoped :=
      (fairRun_fairTiers.runs.agree h.runs k a (hmutual.lt hi)).2.mpr ha
    refine ⟨σ, entries', h, hfinish h hc hic ?_ ⟨test, y, ⟨hy.lt hi, Or.inl hy⟩, hy'⟩⟩
    refine ⟨[], rest.map (tierAt (roundsOf entries' k)) ++
      (c.flatMap (dependenciesOf entries')).map (dependencyTier (roundsOf entries' k)), ?_, by simp⟩
    conv_lhs => rw [heq, List.map_cons, hled]
    rw [← heq]
    rfl
  · obtain ⟨m, d, hm, hd, hd'⟩ := (hsees.mem_below _).mp hscoped
    obtain ⟨σ, entries', h, hfirst, hbefore⟩ := exists_presentation entries
      (fun m => ∃ d ∈ dependenciesOf entries m,
        tierBelow entries.length (fairTiers entries k) d = .capsuleScoped)
      fun _ d => tierBelow entries.length (fairTiers entries k) d = .capsuleScoped
    obtain ⟨c, hc, hic⟩ := hgroup h
    obtain ⟨a, e, rest, hmutual, he, hscoped', heq⟩ := h.lead_below hfirst hbefore
      (fun a _ ha => ha) hi hc hic hm ⟨d, hd, hd'⟩ k
    have htest' : ∃ test y, Feeds entries.length (dependenciesOf entries) i y ∧
        fairTiers entries k y = .capsuleLocal test := by
      rcases (hsees.mem hi _).mp (List.mem_append_right _ htest) with ⟨y, hy, hy'⟩ | ⟨hno, -⟩
      · exact ⟨test, y, hy, hy'⟩
      · cases hno
    refine ⟨σ, entries', h, hfinish h hc hic ?_ htest'⟩
    have hlt : e < entries.length := by
      by_contra hlt
      rw [tierBelow, if_neg hlt] at hscoped'
      cases hscoped'
    rw [tierBelow, if_pos hlt] at hscoped' heq
    rw [(fairRun_fairTiers.runs.agree h.runs k e hlt).2.mpr hscoped'] at heq
    refine ⟨c.map (tierAt (roundsOf entries' k)), rest, by rw [heq], ?_⟩
    intro t ht
    obtain ⟨m, hm, rfl⟩ := ((h.sees k hi hc hic).mem_own t).mp ht
    rw [(fairRun_fairTiers.runs.agree h.runs k m (hm.lt hi)).1]
    exact hcommon _ ((hsees.mem_own _).mpr ⟨m, hm, rfl⟩)

theorem groupOf_congr {m : Nat}
    (hm : Mutual entries.length (dependenciesOf entries) i m) :
    groupOf entries m = groupOf entries i := by
  have hcomponents := isComponents_componentsOf entries
  unfold groupOf
  congr 1
  apply List.find?_congr
  intro c hc
  rw [decide_eq_decide]
  constructor
  · intro hmc
    exact (hcomponents.classes c hc m hmc i).mpr ⟨hm.2, hm.1⟩
  · intro hic
    exact (hcomponents.classes c hc i hic m).mpr hm

/-- After a round the callables of a group have one tier. -/
theorem fairTiers_congr {m k : Nat}
    (hm : Mutual entries.length (dependenciesOf entries) i m) :
    fairTiers entries (k + 1) m = fairTiers entries (k + 1) i := by
  simp only [fairTiers, ownTiers, belowTiers, groupOf_congr hm]

/-- The callables and dependencies whose being merged first makes a run fair. -/
def meets (entries : List CallablePlan) (i d : Nat) : Prop :=
  ∃ k, fairTiers entries k i = .common ∧
    ∃ test, tierBelow entries.length (fairTiers entries k) d = .capsuleLocal test

def meetsTest (entries : List CallablePlan) (i : Nat) : Prop :=
  (∃ test, tierAt entries i = .capsuleLocal test) ∨ ∃ d ∈ dependenciesOf entries i, meets entries i d

theorem fairTiers_local_mono {k k' : Nat} {test : String} (hi : i < entries.length)
    (h : fairTiers entries k i = .capsuleLocal test ∨ fairTiers entries k i = .invalid)
    (hk : k ≤ k') :
    fairTiers entries k' i = .capsuleLocal test ∨ fairTiers entries k' i = .invalid := by
  induction hk with
  | refl => exact h
  | step _ ih => exact fairRun_fairTiers.runs.local_feeds hi (feeds_self hi) ih

/-- A group that meets a test leaves the common tier for good. -/
theorem fairTiers_after_meet {k k' m d : Nat} {test : String} (hi : i < entries.length)
    (hm : Mutual entries.length (dependenciesOf entries) i m) (hd : d ∈ dependenciesOf entries m)
    (hlocal : tierBelow entries.length (fairTiers entries k) d = .capsuleLocal test) (hk : k < k') :
    fairTiers entries k' i = .capsuleLocal test ∨ fairTiers entries k' i = .invalid := by
  have hlt : d < entries.length := by
    by_contra hlt
    rw [tierBelow, if_neg hlt] at hlocal
    cases hlocal
  rw [tierBelow, if_pos hlt] at hlocal
  exact fairTiers_local_mono hi
    (fairRun_fairTiers.runs.local_feeds hi ⟨hlt, Or.inr ⟨m, hm, hd⟩⟩ (Or.inl hlocal)) hk

/-- The round in which a test claims a group is the last in which the group is common. -/
theorem meets_round {k m d a e : Nat} (hi : i < entries.length)
    (hcommon : fairTiers entries k a = .common)
    (ha : Mutual entries.length (dependenciesOf entries) i a)
    (hm : Mutual entries.length (dependenciesOf entries) i m) (hd : d ∈ dependenciesOf entries m)
    {test : String}
    (hlocal : tierBelow entries.length (fairTiers entries k) d = .capsuleLocal test)
    (he : e ∈ dependenciesOf entries a) (hmeets : meets entries a e) :
    ∃ test, tierBelow entries.length (fairTiers entries k) e = .capsuleLocal test := by
  obtain ⟨j, hj, other, hother⟩ := hmeets
  have hlt := ha.lt hi
  have ham : Mutual entries.length (dependenciesOf entries) a m :=
    ⟨Reaches.trans ha.2 hm.1, Reaches.trans hm.2 ha.1⟩
  rcases Nat.lt_trichotomy j k with hjk | rfl | hjk
  · have h := fairTiers_after_meet hlt (Mutual.refl a) he hother hjk
    rw [hcommon] at h
    simp at h
  · exact ⟨other, hother⟩
  · have h := fairTiers_after_meet hlt ham hd hlocal hjk
    rw [hj] at h
    simp at h

/-- In a group with both placements those that meet a test are not scoped. -/
theorem not_scoped_of_meetsTest {k m : Nat} (hm : m < entries.length) (h : meetsTest entries m) :
    fairTiers entries k m ≠ .capsuleScoped := by
  intro hscoped
  rcases h with ⟨test, htest⟩ | ⟨d, hd, j, hj, test, htest⟩
  · have h := fairTiers_local_mono hm (Or.inl htest : fairTiers entries 0 m = _ ∨ _) (Nat.zero_le k)
    rw [hscoped] at h
    simp at h
  · rcases Nat.lt_or_ge j k with hjk | hkj
    · have h := fairTiers_after_meet hm (Mutual.refl m) hd htest hjk
      rw [hscoped] at h
      simp at h
    · have hnot : ∀ k' ≥ k, fairTiers entries k' m ≠ .common := by
        intro k' hk'
        induction hk' with
        | refl => simp [hscoped]
        | step _ ih =>
            obtain ⟨tiers, hmem, hstep⟩ :=
              fairRun_fairTiers.runs.mergeAll_mem (k := _) hm (feeds_self hm)
            rw [hstep]
            exact fun hcommon => ih (mergeAll_eq_common.mp hcommon _ hmem)
      exact hnot j hkj hj

/-- A contest can be won: the fair run is that of a presentation. -/
theorem exists_fair (entries : List CallablePlan) :
    ∃ σ entries', Presents σ entries entries' ∧
      ∀ k, ∀ i < entries.length, presentedTiers σ entries' k i = fairTiers entries k i := by
  obtain ⟨σ, entries', h, hfirst, hbefore⟩ :=
    exists_presentation entries (meetsTest entries) (meets entries)
  refine ⟨σ, entries', h, fun k => ?_⟩
  induction k with
  | zero => exact fun i hi => h.tier i hi
  | succ k ih =>
      intro i hi
      have hlt : σ i < entries'.length := by
        rw [h.length, h.range]
        exact hi
      obtain ⟨c, hc, hic⟩ :=
        List.mem_flatten.mp (((isComponents_componentsOf entries').covers (σ i)).mpr hlt)
      have hsees := @sees_fairTiers entries (fairTiers entries k) i hi
      have hsees' := h.sees k hi hc hic
      have hbelowEq : ∀ d, tierBelow entries.length (presentedTiers σ entries' k) d =
          tierBelow entries.length (fairTiers entries k) d := by
        intro d
        unfold tierBelow
        split
        · rename_i hd
          exact ih d hd
        · rfl
      have hown : ∀ d, d ∈ ownTiers entries (fairTiers entries k) i ↔
          d ∈ c.map (tierAt (roundsOf entries' k)) := by
        intro d
        rw [hsees.mem_own, hsees'.mem_own]
        exact exists_congr fun m => and_congr_right fun hm => by rw [ih m (hm.lt hi)]
      have hbelow : ∀ d, d ∈ belowTiers entries (fairTiers entries k) i ↔
          d ∈ (c.flatMap (dependenciesOf entries')).map (dependencyTier (roundsOf entries' k)) := by
        intro d
        rw [hsees.mem_below, hsees'.mem_below]
        simp only [hbelowEq]
      rw [Presents.step k hc hic, fairTiers]
      by_cases hcontest : Contested (ownTiers entries (fairTiers entries k) i)
          (belowTiers entries (fairTiers entries k) i)
      · have hmem : ∀ d, d ∈ c.map (tierAt (roundsOf entries' k)) ++
            (c.flatMap (dependenciesOf entries')).map (dependencyTier (roundsOf entries' k)) ↔
              d ∈ localFirst (ownTiers entries (fairTiers entries k) i) ++
                localFirst (belowTiers entries (fairTiers entries k) i) := by
          intro d
          rw [List.mem_append, List.mem_append, mem_localFirst, mem_localFirst, hown, hbelow]
        rcases hcontest with ⟨hscoped, test, htest⟩ | ⟨hcommon, hscoped, test, htest⟩
        · refine mergeAll_congr_localLed ?_
            (localLed_localFirst (List.mem_append_left _ htest) fun _ => ⟨test, htest⟩) hmem
          -- only seeds differ within a group
          obtain ⟨m, hm, hm'⟩ := (hsees.mem_own _).mp hscoped
          obtain ⟨y, hy, hy'⟩ := (hsees.mem_own _).mp htest
          cases k with
          | succ k =>
              rw [fairTiers_congr hm] at hm'
              rw [fairTiers_congr hy, hm'] at hy'
              cases hy'
          | zero =>
              obtain ⟨before, after, heq, hbefore', hafter⟩ := h.split hfirst hc
              have hyc : σ y ∈ before := by
                have hσ := (h.mem_group hc hic y).mpr hy
                rw [heq, List.mem_append] at hσ
                refine hσ.resolve_right fun hno => hafter _ hno ?_
                rw [Equiv.symm_apply_apply]
                exact Or.inl ⟨test, hy'⟩
              refine ⟨before.map (tierAt (roundsOf entries' 0)), after.map (tierAt (roundsOf entries' 0)) ++
                (c.flatMap (dependenciesOf entries')).map (dependencyTier (roundsOf entries' 0)),
                ?_, ?_, test, ?_⟩
              · conv_lhs => rw [heq, List.map_append, List.append_assoc]
                rw [← heq]
              · intro hno
                obtain ⟨x, hx, hx'⟩ := List.mem_map.mp hno
                have hxlt : σ.symm x < entries.length := by
                  have hxc : x ∈ c := by rw [heq]; exact List.mem_append_left _ hx
                  have hxm := (h.mem_group hc hic (σ.symm x)).mp (by rwa [Equiv.apply_symm_apply])
                  exact hxm.lt hi
                have hne := not_scoped_of_meetsTest (k := 0) hxlt (hbefore' x hx)
                rw [← ih _ hxlt, presentedTiers, Equiv.apply_symm_apply] at hne
                exact hne hx'
              · refine List.mem_map.mpr ⟨σ y, hyc, ?_⟩
                exact (ih y (hy.lt hi)).trans hy'
        · refine mergeAll_congr_localLed ?_
            (localLed_localFirst (List.mem_append_right _ htest) fun hs => ?_) hmem
          · obtain ⟨m, d, hm, hd, hd'⟩ := (hsees.mem_below _).mp htest
            have hgroup : ∀ a, Mutual entries.length (dependenciesOf entries) i a →
                fairTiers entries k a = .common :=
              fun a ha => hcommon _ ((hsees.mem_own _).mpr ⟨a, ha, rfl⟩)
            have hlead : ∀ a, Mutual entries.length (dependenciesOf entries) i a →
                meetsTest entries a → ∃ d ∈ dependenciesOf entries a, meets entries a d := by
              rintro a ha (⟨other, hother⟩ | hmeets)
              · have hmono := fairTiers_local_mono (ha.lt hi)
                  (Or.inl hother : fairTiers entries 0 a = _ ∨ _) (Nat.zero_le k)
                rw [hgroup a ha] at hmono
                simp at hmono
              · exact hmeets
            obtain ⟨a, e, rest, ha, he, hmeets, heq⟩ := h.lead_below hfirst hbefore hlead hi hc hic hm
              (Or.inr ⟨d, hd, k, hgroup m hm, test, hd'⟩) k
            obtain ⟨other, hother⟩ := meets_round hi (hgroup a ha) ha hm hd hd' he hmeets
            rw [hbelowEq, hother] at heq
            refine ⟨c.map (tierAt (roundsOf entries' k)) ++ [.capsuleLocal other], rest, ?_, ?_, other, ?_⟩
            · rw [heq, List.append_assoc]
              rfl
            · rw [List.mem_append, ← hown]
              rintro (hno | hno)
              · exact absurd (hcommon _ hno) (by simp)
              · simp at hno
            · exact List.mem_append_right _ List.mem_cons_self
          · exact absurd (hcommon _ hs) (by simp)
      · rw [← mergeAll_congr hcontest hown hbelow]
        exact mergeAll_congr hcontest (fun d => mem_localFirst.symm) (fun d => mem_localFirst.symm)

end Choice

/-! ### Order independence -/

/-- Every presentation of a program ends with the same tiers. -/
def OrderIndependent (entries : List CallablePlan) : Prop :=
  ∀ (σ : Equiv.Perm Nat) (entries' : List CallablePlan), Presents σ entries entries' →
    ∀ rounds rounds' result result',
      propagatePlacements (componentsOf entries) rounds entries = some result →
      propagatePlacements (componentsOf entries') rounds' entries' = some result' →
        ∀ i < entries.length, tierAt result' (σ i) = tierAt result i

theorem exists_result (entries : List CallablePlan) :
    ∃ rounds result, propagatePlacements (componentsOf entries) rounds entries = some result := by
  obtain ⟨result, -, hrun⟩ := propagatePlacements_settled (isComponents_componentsOf entries)
  exact ⟨_, result, hrun _ (le_refl _)⟩

theorem orderIndependent_iff (entries : List CallablePlan) :
    OrderIndependent entries ↔ OrderFree entries := by
  constructor
  · intro h k i hi hcontest
    obtain ⟨rounds, result, hrun⟩ := exists_result entries
    obtain ⟨σ, entries₁, h₁, hlost⟩ := exists_invalid hi hcontest
    obtain ⟨τ, entries₂, h₂, hfair⟩ := exists_fair entries
    obtain ⟨rounds₁, result₁, hrun₁⟩ := exists_result entries₁
    obtain ⟨rounds₂, result₂, hrun₂⟩ := exists_result entries₂
    obtain ⟨bound₁, hbound₁⟩ := roundsOf_settle hrun₁
    obtain ⟨bound₂, hbound₂⟩ := roundsOf_settle hrun₂
    have htier₁ : tierAt result₁ (σ i) = .invalid := by
      rw [← hbound₁ (max bound₁ (k + 1)) (le_max_left _ _)]
      exact h₁.runs.invalid_mono hi hlost (le_max_right _ _)
    refine ⟨bound₂, ?_⟩
    rw [← hfair bound₂ i hi, presentedTiers, hbound₂ bound₂ (le_refl _),
      h τ entries₂ h₂ rounds rounds₂ result result₂ hrun hrun₂ i hi,
      ← h σ entries₁ h₁ rounds rounds₁ result result₁ hrun hrun₁ i hi]
    exact htier₁
  · intro h σ entries' hpresents rounds rounds' result result' hrun hrun' i hi
    obtain ⟨bound, hbound⟩ := roundsOf_settle hrun
    obtain ⟨bound', hbound'⟩ := roundsOf_settle hrun'
    refine fairRun_fairTiers.confluent hpresents.runs (presents_refl entries).runs h.uncontested hi
      (max bound bound') ?_ ?_
    · intro k hk
      rw [presentedTiers, hbound' k ((le_max_right _ _).trans hk)]
    · intro k hk
      rw [presentedTiers, hbound k ((le_max_left _ _).trans hk)]
      rfl

/-- A callable that depends on a scoped one and on a test's. -/
def mixedDependencies (dependencies : List FunctionId) : List CallablePlan :=
  [⟨0, .common, dependencies⟩, ⟨1, .capsuleScoped .lifecycleService, []⟩,
    ⟨2, .capsuleLocal "smoke" .testBody, []⟩]

theorem componentsOf_mixedDependencies {dependencies : List FunctionId}
    (h : dependencies = [1, 2] ∨ dependencies = [2, 1]) :
    componentsOf (mixedDependencies dependencies) = [[0], [1], [2]] := by
  rcases h with rfl | rfl <;>
    simp [componentsOf, stronglyConnectedComponents, search, mixedDependencies, List.range_succ,
      visitRoot, visit, Tarjan.init, Tarjan.discover, Tarjan.close, Tarjan.lower, Tarjan.popTo,
      lookAt, dependenciesOf, planAt, List.mergeSort, Function.update,
      List.MergeSort.Internal.splitInTwo]

theorem mixedDependencies_orderDependent : ¬ OrderIndependent (mixedDependencies [1, 2]) := by
  intro h
  have hpresents : Presents (Equiv.refl Nat) (mixedDependencies [1, 2]) (mixedDependencies [2, 1]) := by
    refine ⟨rfl, fun _ => Iff.rfl, fun i hi => ?_, fun i hi => ?_⟩
    · match i with
      | 0 | 1 | 2 => rfl
      | i + 3 => exact absurd hi (by simp [mixedDependencies])
    · match i with
      | 0 => exact List.Perm.swap 1 2 []
      | 1 | 2 => exact List.Perm.refl _
      | i + 3 => exact absurd hi (by simp [mixedDependencies])
  have hrun : (propagatePlacements (componentsOf (mixedDependencies [1, 2])) 3
      (mixedDependencies [1, 2])).map (tierAt · 0) = some .invalid := by
    rw [componentsOf_mixedDependencies (Or.inl rfl)]
    decide
  have hrun' : (propagatePlacements (componentsOf (mixedDependencies [2, 1])) 3
      (mixedDependencies [2, 1])).map (tierAt · 0) = some (.capsuleLocal "smoke") := by
    rw [componentsOf_mixedDependencies (Or.inr rfl)]
    decide
  rw [Option.map_eq_some_iff] at hrun hrun'
  obtain ⟨result, hresult, htier⟩ := hrun
  obtain ⟨result', hresult', htier'⟩ := hrun'
  have heq := h _ _ hpresents 3 3 result result' hresult hresult' 0 (by decide)
  have hself : (Equiv.refl Nat) 0 = 0 := rfl
  rw [hself, htier, htier'] at heq
  cases heq

end Harc.PlacementOrder
