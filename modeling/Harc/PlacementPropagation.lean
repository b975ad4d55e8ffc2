import Harc.StrongComponents
import Mathlib.Algebra.Order.BigOperators.Group.Finset

/-!
Where the callables of a program may be placed (`ir/passes/callable_placement.rs`): seeds
are carried along dependencies until nothing changes.
-/

namespace Harc.PlacementPropagation

open Harc.StrongComponents

abbrev FunctionId := Nat

inductive CapsulePlacementReason where
  | testBody
  | testHook
  | targetResponder
  | concreteBusBinding (binding : Nat)
  | lifecycleService
  | dependency (function : FunctionId)
deriving DecidableEq

inductive InvalidPlacementReason where
  | missingOwner
  | multipleOwners (count : Nat)
  | ownerKindMismatch
  | missingDependency (target : String)
  | unsupportedTransactorBody
  | unsupportedLifecycleHandler
  | regblockState (testbench : Nat) (callbackBearing : Bool)
  | missingConcreteBusBinding
  | conflictingBusBindings (firstTest : String) (firstBinding : Nat) (secondTest : String)
      (secondBinding : Nat)
  | conflictingCapsules (firstTest secondTest : String) (dependency : FunctionId)
  | invalidDependency (function : FunctionId)
deriving DecidableEq

inductive CallablePlacement where
  | common
  | capsuleLocal (test : String) (reason : CapsulePlacementReason)
  | capsuleScoped (reason : CapsulePlacementReason)
  | invalid (reason : InvalidPlacementReason)
deriving DecidableEq

/-- The name, the kind and the owner of a callable are left out. -/
structure CallablePlan where
  function : FunctionId
  placement : CallablePlacement
  dependencies : List FunctionId
deriving DecidableEq

instance : Inhabited CallablePlan := ⟨⟨0, .common, []⟩⟩

/-! ### Merging -/

def mergePlacement (current dependency : CallablePlacement) (dependencyFunction : FunctionId) :
    CallablePlacement :=
  match current, dependency with
  | .invalid reason, _ => .invalid reason
  | _, .invalid _ => .invalid (.invalidDependency dependencyFunction)
  | .common, .common => .common
  | .common, .capsuleScoped _ => .capsuleScoped (.dependency dependencyFunction)
  | .common, .capsuleLocal test _ => .capsuleLocal test (.dependency dependencyFunction)
  | .capsuleLocal test reason, .common => .capsuleLocal test reason
  | .capsuleScoped reason, .common | .capsuleScoped reason, .capsuleScoped _ =>
      .capsuleScoped reason
  | .capsuleLocal test reason, .capsuleScoped _ => .capsuleLocal test reason
  | .capsuleScoped _, .capsuleLocal _ _ => .invalid (.invalidDependency dependencyFunction)
  | .capsuleLocal firstTest reason, .capsuleLocal secondTest _ =>
      if firstTest = secondTest then .capsuleLocal firstTest reason
      else .invalid (.conflictingCapsules firstTest secondTest dependencyFunction)

/-! ### Propagation -/

section Propagate

def planAt (entries : List CallablePlan) (i : Nat) : CallablePlan := entries.getD i default

def dependenciesOf (entries : List CallablePlan) (i : Nat) : List Nat :=
  (planAt entries i).dependencies

variable (previous : List CallablePlan)

def mergeDependency (combined : CallablePlacement) (dependency : FunctionId) :
    CallablePlacement :=
  match previous[dependency]? with
  | some target => mergePlacement combined target.placement dependency
  | none => .invalid (.missingDependency ("fn" ++ toString dependency))

def mergeMember (combined : CallablePlacement) (member : Nat) : CallablePlacement :=
  mergePlacement combined (planAt previous member).placement (planAt previous member).function

/-- The placement of a component: those of its members, then those of what they call. -/
def combine (component : List Nat) : CallablePlacement :=
  let own := (component.drop 1).foldl (mergeMember previous)
    (planAt previous (component.headD 0)).placement
  component.foldl
    (fun combined member =>
      (dependenciesOf previous member).foldl (mergeDependency previous) combined) own

/-- Entries, and whether one of them has changed. -/
abbrev Round := List CallablePlan × Bool

def placeMember (combined : CallablePlacement) (round : Round) (member : Nat) : Round :=
  if (planAt round.1 member).placement ≠ combined then
    (round.1.modify member fun entry => { entry with placement := combined }, true)
  else round

def placeComponent (round : Round) (component : List Nat) : Round :=
  component.foldl (placeMember (combine previous component)) round

def propagateRound (components : List (List Nat)) : Round :=
  components.foldl (placeComponent previous) (previous, false)

end Propagate

/-- The rounds until nothing changes; none if the rounds run out before. -/
def propagatePlacements (components : List (List Nat)) :
    Nat → List CallablePlan → Option (List CallablePlan)
  | 0, _ => none
  | rounds + 1, entries =>
      let round := propagateRound entries components
      if round.2 then propagatePlacements components rounds round.1 else some round.1

/-- The components of the dependency graph. -/
def componentsOf (entries : List CallablePlan) : List (List Nat) :=
  stronglyConnectedComponents entries.length (dependenciesOf entries)

/-! ### Tiers -/

/-- A placement without its reason. -/
inductive Tier where
  | common
  | capsuleScoped
  | capsuleLocal (test : String)
  | invalid
deriving DecidableEq

def CallablePlacement.tier : CallablePlacement → Tier
  | .common => .common
  | .capsuleLocal test _ => .capsuleLocal test
  | .capsuleScoped _ => .capsuleScoped
  | .invalid _ => .invalid

namespace Tier

def merge : Tier → Tier → Tier
  | .invalid, _ | _, .invalid => .invalid
  | .common, d => d
  | c, .common => c
  | .capsuleScoped, .capsuleScoped => .capsuleScoped
  | .capsuleScoped, .capsuleLocal _ => .invalid
  | .capsuleLocal test, .capsuleScoped => .capsuleLocal test
  | .capsuleLocal first, .capsuleLocal second => if first = second then .capsuleLocal first else .invalid

/-- Two capsules do not merge. -/
example : merge (.capsuleLocal "a") (.capsuleLocal "b") = .invalid := by
  simp [merge]

def rank : Tier → Nat
  | .common => 0
  | .capsuleScoped | .capsuleLocal _ => 1
  | .invalid => 2

/-- What the tiers of a list make together, from the first to the last. -/
def mergeAll (tiers : List Tier) : Tier := tiers.foldl merge .common

theorem rank_le (c : Tier) : c.rank ≤ 2 := by
  cases c <;> simp [rank]

theorem merge_common (c : Tier) : merge c .common = c := by
  cases c <;> rfl

theorem merge_invalid (c : Tier) : merge c .invalid = .invalid := by
  cases c <;> rfl

theorem rank_le_merge (c d : Tier) : c.rank ≤ (merge c d).rank := by
  cases c <;> cases d <;> grind [merge, rank]

theorem merge_capsuleLocal (c : Tier) (test : String) :
    merge c (.capsuleLocal test) = .capsuleLocal test ∨ merge c (.capsuleLocal test) = .invalid := by
  cases c with
  | capsuleLocal first =>
      by_cases h : first = test
      · exact Or.inl (by rw [merge, if_pos h, h])
      · exact Or.inr (by rw [merge, if_neg h])
  | _ => simp [merge]

theorem capsuleLocal_merge (test : String) (d : Tier) :
    merge (.capsuleLocal test) d = .capsuleLocal test ∨ merge (.capsuleLocal test) d = .invalid := by
  cases d with
  | capsuleLocal second =>
      by_cases h : test = second
      · exact Or.inl (by rw [merge, if_pos h])
      · exact Or.inr (by rw [merge, if_neg h])
  | _ => simp [merge]

theorem merge_eq_common {c d : Tier} (h : merge c d = .common) : c = .common ∧ d = .common := by
  cases c <;> cases d <;> grind [merge]

theorem foldl_invalid (ds : List Tier) : ds.foldl merge .invalid = .invalid := by
  induction ds with
  | nil => rfl
  | cons d ds ih => exact ih

theorem foldl_capsuleLocal (test : String) (ds : List Tier) :
    ds.foldl merge (.capsuleLocal test) = .capsuleLocal test ∨
      ds.foldl merge (.capsuleLocal test) = .invalid := by
  induction ds with
  | nil => exact Or.inl rfl
  | cons d ds ih =>
      rw [List.foldl_cons]
      rcases capsuleLocal_merge test d with h | h
      · rw [h]
        exact ih
      · rw [h]
        exact Or.inr (foldl_invalid ds)

theorem foldl_mem_invalid {ds : List Tier} (h : .invalid ∈ ds) :
    ∀ c : Tier, ds.foldl merge c = .invalid := by
  obtain ⟨before, after, rfl⟩ := List.append_of_mem h
  intro c
  rw [List.foldl_append, List.foldl_cons, merge_invalid]
  exact foldl_invalid after

theorem foldl_mem_capsuleLocal {ds : List Tier} {test : String} (h : .capsuleLocal test ∈ ds) (c : Tier) :
    ds.foldl merge c = .capsuleLocal test ∨ ds.foldl merge c = .invalid := by
  obtain ⟨before, after, rfl⟩ := List.append_of_mem h
  rw [List.foldl_append, List.foldl_cons]
  rcases merge_capsuleLocal (before.foldl merge c) test with h | h
  · rw [h]
    exact foldl_capsuleLocal test after
  · rw [h]
    exact Or.inr (foldl_invalid after)

theorem foldl_eq_common (ds : List Tier) :
    ∀ c : Tier, ds.foldl merge c = .common → c = .common ∧ ∀ d ∈ ds, d = .common := by
  induction ds with
  | nil => exact fun c h => ⟨h, by simp⟩
  | cons d ds ih =>
      intro c h
      obtain ⟨hmerge, hds⟩ := ih (merge c d) h
      obtain ⟨hc, hd⟩ := merge_eq_common hmerge
      rw [List.forall_mem_cons]
      exact ⟨hc, hd, hds⟩

end Tier

open Tier

theorem tier_mergePlacement (c d : CallablePlacement) (f : FunctionId) :
    (mergePlacement c d f).tier = merge c.tier d.tier := by
  cases c <;> cases d <;> grind [mergePlacement, CallablePlacement.tier, merge]

/-- A merge that does not raise the tier keeps the reason as well. -/
theorem mergePlacement_of_rank {c d : CallablePlacement} {f : FunctionId}
    (h : (mergePlacement c d f).tier.rank ≤ c.tier.rank) : mergePlacement c d f = c := by
  cases c <;> cases d <;> grind [mergePlacement, CallablePlacement.tier, rank]

theorem mergePlacement_self (c : CallablePlacement) (f : FunctionId) :
    mergePlacement c c f = c := by
  apply mergePlacement_of_rank
  rw [tier_mergePlacement]
  cases c <;> simp [CallablePlacement.tier, merge, rank]

/-! ### One round -/

def setPlacement (p : CallablePlacement) (entry : CallablePlan) : CallablePlan :=
  { entry with placement := p }

/-- Entries with the same functions and dependencies. -/
structure SameShape (entries entries' : List CallablePlan) : Prop where
  length : entries'.length = entries.length
  plan : ∀ i, (planAt entries' i).function = (planAt entries i).function ∧
    (planAt entries' i).dependencies = (planAt entries i).dependencies

theorem SameShape.refl (entries : List CallablePlan) : SameShape entries entries :=
  ⟨rfl, fun _ => ⟨rfl, rfl⟩⟩

theorem SameShape.trans {e₁ e₂ e₃ : List CallablePlan} (h : SameShape e₁ e₂)
    (h' : SameShape e₂ e₃) : SameShape e₁ e₃ :=
  ⟨h'.length.trans h.length, fun i =>
    ⟨(h'.plan i).1.trans (h.plan i).1, (h'.plan i).2.trans (h.plan i).2⟩⟩

theorem modify_getElem? (entries : List CallablePlan) (p : CallablePlacement) (m i : Nat) :
    (entries.modify m (setPlacement p))[i]? =
      if m = i then (entries[i]?).map (setPlacement p) else entries[i]? := by
  rw [List.getElem?_modify]
  by_cases h : m = i
  · simp [h]
  · simp [h]

theorem placeMember_fst (p : CallablePlacement) (round : Round) (member : Nat) :
    (placeMember p round member).1 = round.1.modify member (setPlacement p) := by
  unfold placeMember
  split
  · rfl
  · rename_i hsame
    rw [not_not] at hsame
    apply List.ext_getElem?
    intro i
    rw [modify_getElem?]
    by_cases hi : member = i
    · subst hi
      rw [if_pos rfl]
      cases hget : round.1[member]? with
      | none => rfl
      | some entry =>
          have hentry : planAt round.1 member = entry := by simp [planAt, hget]
          rw [hentry] at hsame
          rw [← hsame]
          rfl
    · rw [if_neg hi]

theorem placeMembers_getElem? (p : CallablePlacement) (members : List Nat) (i : Nat) :
    ∀ round : Round, (members.foldl (placeMember p) round).1[i]? =
      if i ∈ members then (round.1[i]?).map (setPlacement p) else round.1[i]? := by
  induction members with
  | nil => intro round; simp
  | cons m members ih =>
      intro round
      rw [List.foldl_cons, ih, placeMember_fst, modify_getElem?]
      by_cases hm : m = i
      · subst hm
        simp only [List.mem_cons, true_or, if_true]
        split
        · rw [Option.map_map]
          rfl
        · rfl
      · have hne : ¬ i = m := Ne.symm hm
        simp [hm, hne, List.mem_cons]

theorem placeComponents_of_notMem (previous : List CallablePlan) (components : List (List Nat))
    (i : Nat) : ∀ round : Round, i ∉ components.flatten →
      (components.foldl (placeComponent previous) round).1[i]? = round.1[i]? := by
  induction components with
  | nil => exact fun _ _ => rfl
  | cons c components ih =>
      intro round hi
      rw [List.flatten_cons, List.mem_append, not_or] at hi
      rw [List.foldl_cons, ih _ hi.2]
      unfold placeComponent
      rw [placeMembers_getElem?, if_neg hi.1]

/-- A member of a component takes the placement of the component. -/
theorem placeComponents_of_mem (previous : List CallablePlan) (components : List (List Nat))
    {c : List Nat} {i : Nat} (hi : i ∈ c) :
    ∀ round : Round, components.flatten.Nodup → c ∈ components →
      (components.foldl (placeComponent previous) round).1[i]? =
        (round.1[i]?).map (setPlacement (combine previous c)) := by
  induction components with
  | nil => intro round _ hc; simp at hc
  | cons d components ih =>
      intro round hnodup hc
      rw [List.flatten_cons, List.nodup_append] at hnodup
      obtain ⟨-, hrest, hdisjoint⟩ := hnodup
      rw [List.foldl_cons]
      rcases List.mem_cons.mp hc with rfl | hc
      · have hnot : i ∉ components.flatten := fun hmem => hdisjoint i hi i hmem rfl
        rw [placeComponents_of_notMem previous components i _ hnot]
        unfold placeComponent
        rw [placeMembers_getElem?, if_pos hi]
      · have hnot : i ∉ d := by
          intro hmem
          exact hdisjoint i hmem i (List.mem_flatten.mpr ⟨c, hc, hi⟩) rfl
        rw [ih _ hrest hc]
        unfold placeComponent
        rw [placeMembers_getElem?, if_neg hnot]

theorem placeMembers_unchanged (p : CallablePlacement) (members : List Nat) :
    ∀ round : Round, (members.foldl (placeMember p) round).2 = false ↔
      round.2 = false ∧ ∀ m ∈ members, (planAt round.1 m).placement = p := by
  induction members with
  | nil => intro round; simp
  | cons m members ih =>
      intro round
      rw [List.foldl_cons, ih, List.forall_mem_cons]
      unfold placeMember
      by_cases hm : (planAt round.1 m).placement = p
      · simp [hm]
      · simp [hm]

theorem placeMembers_same {p : CallablePlacement} {members : List Nat} {round : Round}
    (h : ∀ m ∈ members, (planAt round.1 m).placement = p) :
    members.foldl (placeMember p) round = round := by
  induction members with
  | nil => rfl
  | cons m members ih =>
      rw [List.forall_mem_cons] at h
      rw [List.foldl_cons, placeMember, if_neg (by simpa using h.1)]
      exact ih h.2

theorem placeComponents_same {previous : List CallablePlan} {components : List (List Nat)}
    {round : Round}
    (h : ∀ c ∈ components, ∀ m ∈ c, (planAt round.1 m).placement = combine previous c) :
    components.foldl (placeComponent previous) round = round := by
  induction components with
  | nil => rfl
  | cons c components ih =>
      rw [List.forall_mem_cons] at h
      rw [List.foldl_cons, placeComponent, placeMembers_same h.1]
      exact ih h.2

/-- Every member of a component has the placement that the component combines to. -/
def Fixed (components : List (List Nat)) (entries : List CallablePlan) : Prop :=
  ∀ c ∈ components, ∀ m ∈ c, (planAt entries m).placement = combine entries c

theorem placeComponents_unchanged (previous : List CallablePlan) (components : List (List Nat)) :
    ∀ round : Round, (components.foldl (placeComponent previous) round).2 = false ↔
      round.2 = false ∧
        ∀ c ∈ components, ∀ m ∈ c, (planAt round.1 m).placement = combine previous c := by
  induction components with
  | nil => intro round; simp
  | cons c components ih =>
      intro round
      rw [List.foldl_cons, ih, List.forall_mem_cons]
      unfold placeComponent
      rw [placeMembers_unchanged]
      constructor
      · rintro ⟨⟨hflag, hc⟩, hrest⟩
        rw [placeMembers_same hc] at hrest
        exact ⟨hflag, hc, hrest⟩
      · rintro ⟨hflag, hc, hrest⟩
        rw [placeMembers_same hc]
        exact ⟨⟨hflag, hc⟩, hrest⟩

/-- A round reports no change exactly at a fixed point. -/
theorem propagateRound_unchanged (entries : List CallablePlan) (components : List (List Nat)) :
    (propagateRound entries components).2 = false ↔ Fixed components entries := by
  unfold propagateRound Fixed
  rw [placeComponents_unchanged]
  simp

section Components

variable {n : Nat} {deps : Nat → List Nat} {components : List (List Nat)}

theorem planAt_eq (entries : List CallablePlan) (i : Nat) :
    planAt entries i = entries[i]?.getD default := List.getD_eq_getElem?_getD ..

/-- The entries after a round. -/
theorem propagateRound_planAt {entries : List CallablePlan}
    (h : IsComponents entries.length deps components) {c : List Nat} (hc : c ∈ components)
    {i : Nat} (hi : i ∈ c) :
    planAt (propagateRound entries components).1 i =
      setPlacement (combine entries c) (planAt entries i) := by
  have hlt : i < entries.length := (h.covers i).mp (List.mem_flatten.mpr ⟨c, hc, hi⟩)
  rw [planAt_eq, planAt_eq, propagateRound, placeComponents_of_mem entries components hi _ h.nodup hc,
    List.getElem?_eq_getElem hlt]
  rfl

theorem propagateRound_sameShape {entries : List CallablePlan}
    (h : IsComponents entries.length deps components) :
    SameShape entries (propagateRound entries components).1 := by
  have hget : ∀ i : Nat, (propagateRound entries components).1[i]? = entries[i]? ∨
      ∃ p, (propagateRound entries components).1[i]? = (entries[i]?).map (setPlacement p) := by
    intro i
    by_cases hi : i ∈ components.flatten
    · obtain ⟨c, hc, hic⟩ := List.mem_flatten.mp hi
      exact Or.inr ⟨_, placeComponents_of_mem entries components hic _ h.nodup hc⟩
    · exact Or.inl (placeComponents_of_notMem entries components i _ hi)
  constructor
  · have hnone : ∀ i : Nat, (propagateRound entries components).1[i]? = none ↔ entries[i]? = none := by
      intro i
      rcases hget i with hi | ⟨p, hi⟩
      · rw [hi]
      · rw [hi, Option.map_eq_none_iff]
    apply Nat.le_antisymm
    · exact List.getElem?_eq_none_iff.mp ((hnone _).mpr (List.getElem?_eq_none_iff.mpr (le_refl _)))
    · exact List.getElem?_eq_none_iff.mp ((hnone _).mp (List.getElem?_eq_none_iff.mpr (le_refl _)))
  · intro i
    rw [planAt_eq, planAt_eq]
    rcases hget i with hi | ⟨p, hi⟩
    · rw [hi]
      exact ⟨rfl, rfl⟩
    · rw [hi]
      cases entries[i]? with
      | none => exact ⟨rfl, rfl⟩
      | some entry => exact ⟨rfl, rfl⟩

end Components

/-! ### The tier of a component -/

def tierAt (entries : List CallablePlan) (i : Nat) : Tier := (planAt entries i).placement.tier

/-- The tier of a dependency; one that does not exist counts as invalid. -/
def dependencyTier (entries : List CallablePlan) (i : Nat) : Tier :=
  if i < entries.length then tierAt entries i else .invalid

theorem Tier.common_merge (d : Tier) : merge .common d = d := by
  cases d <;> rfl

theorem tier_mergeDependency (previous : List CallablePlan) (c : CallablePlacement) (d : FunctionId) :
    (mergeDependency previous c d).tier = merge c.tier (dependencyTier previous d) := by
  unfold mergeDependency dependencyTier tierAt
  rw [planAt_eq]
  by_cases h : d < previous.length
  · rw [List.getElem?_eq_getElem h, if_pos h]
    exact tier_mergePlacement _ _ _
  · rw [List.getElem?_eq_none (Nat.le_of_not_lt h), if_neg h, merge_invalid]
    rfl

theorem tier_foldl_mergeDependency (previous : List CallablePlan) (ds : List FunctionId) :
    ∀ c, (ds.foldl (mergeDependency previous) c).tier =
      (ds.map (dependencyTier previous)).foldl merge c.tier := by
  induction ds with
  | nil => exact fun _ => rfl
  | cons d ds ih =>
      intro c
      rw [List.foldl_cons, ih, tier_mergeDependency, List.map_cons, List.foldl_cons]

theorem tier_foldl_mergeMember (previous : List CallablePlan) (ms : List Nat) :
    ∀ c, (ms.foldl (mergeMember previous) c).tier = (ms.map (tierAt previous)).foldl merge c.tier := by
  induction ms with
  | nil => exact fun _ => rfl
  | cons m ms ih =>
      intro c
      rw [List.foldl_cons, ih, mergeMember, tier_mergePlacement, List.map_cons, List.foldl_cons]
      rfl

theorem foldl_members (previous : List CallablePlan) (component : List Nat) (own : CallablePlacement) :
    component.foldl
        (fun combined member =>
          (dependenciesOf previous member).foldl (mergeDependency previous) combined) own =
      (component.flatMap (dependenciesOf previous)).foldl (mergeDependency previous) own := by
  rw [List.foldl_flatMap]

theorem tier_combine (previous : List CallablePlan) {c : List Nat} (hc : c ≠ []) :
    (combine previous c).tier =
      mergeAll (c.map (tierAt previous) ++
        (c.flatMap (dependenciesOf previous)).map (dependencyTier previous)) := by
  obtain ⟨m, ms, rfl⟩ := List.exists_cons_of_ne_nil hc
  unfold combine mergeAll
  rw [foldl_members, tier_foldl_mergeDependency, tier_foldl_mergeMember, List.foldl_append,
    List.map_cons, List.foldl_cons, Tier.common_merge]
  rfl

/-! ### Rounds come to an end -/

section Rounds

variable {n : Nat} {deps : Nat → List Nat} {components : List (List Nat)}

/-- With a missing dependency the outcome depends on nothing but which are missing. -/
theorem foldl_missing {entries entries' : List CallablePlan} (hlen : entries'.length = entries.length)
    (c c' : CallablePlacement) (ds : List FunctionId) :
    (∃ d ∈ ds, entries.length ≤ d) →
      ∃ reason, ds.foldl (mergeDependency entries) c = .invalid reason ∧
        ds.foldl (mergeDependency entries') c' = .invalid reason := by
  induction ds using List.reverseRecOn with
  | nil => rintro ⟨d, hd, -⟩; simp at hd
  | append_singleton ds d ih =>
      rintro ⟨x, hx, hmissing⟩
      rw [List.foldl_append, List.foldl_append, List.foldl_cons, List.foldl_cons, List.foldl_nil,
        List.foldl_nil]
      by_cases hd : entries.length ≤ d
      · refine ⟨.missingDependency ("fn" ++ toString d), ?_, ?_⟩
        · rw [mergeDependency, List.getElem?_eq_none hd]
        · rw [mergeDependency, List.getElem?_eq_none (by omega)]
      · have hne : x ≠ d := by rintro rfl; exact hd hmissing
        obtain ⟨reason, h, h'⟩ := ih ⟨x, by simpa [hne] using hx, hmissing⟩
        have hlt : d < entries.length := Nat.lt_of_not_le hd
        have hlt' : d < entries'.length := hlen ▸ hlt
        refine ⟨reason, ?_, ?_⟩
        · rw [h, mergeDependency, List.getElem?_eq_getElem hlt]
          rfl
        · rw [h', mergeDependency, List.getElem?_eq_getElem hlt']
          rfl

/-- Without a missing dependency, a fold that does not raise the tier changes nothing. -/
theorem foldl_of_rank {entries : List CallablePlan} (ds : List FunctionId) :
    ∀ c : CallablePlacement, (∀ d ∈ ds, d < entries.length) →
      c.tier.rank ≤ (ds.foldl (mergeDependency entries) c).tier.rank ∧
        ((ds.foldl (mergeDependency entries) c).tier.rank ≤ c.tier.rank →
          ds.foldl (mergeDependency entries) c = c) := by
  induction ds with
  | nil => exact fun c _ => ⟨le_refl _, fun _ => rfl⟩
  | cons d ds ih =>
      intro c hds
      rw [List.forall_mem_cons] at hds
      obtain ⟨hle, hsame⟩ := ih (mergeDependency entries c d) hds.2
      have hstep : c.tier.rank ≤ (mergeDependency entries c d).tier.rank := by
        rw [tier_mergeDependency]
        exact rank_le_merge _ _
      rw [List.foldl_cons]
      refine ⟨hstep.trans hle, fun h => ?_⟩
      rw [hsame (h.trans hstep)]
      have hrank := hle.trans h
      unfold mergeDependency at hrank ⊢
      rw [List.getElem?_eq_getElem hds.1] at hrank ⊢
      exact mergePlacement_of_rank hrank

/-- The entries as a round leaves them. -/
structure Rounded (components : List (List Nat)) (entries : List CallablePlan) : Prop where
  shared : ∀ c ∈ components, ∀ m ∈ c,
    (planAt entries m).placement = (planAt entries (c.headD 0)).placement
  missing : ∀ c ∈ components, (∃ d ∈ c.flatMap (dependenciesOf entries), entries.length ≤ d) →
    combine entries c = (planAt entries (c.headD 0)).placement

theorem SameShape.dependenciesOf {entries entries' : List CallablePlan}
    (h : SameShape entries entries') : dependenciesOf entries' = dependenciesOf entries := by
  funext i
  exact (h.plan i).2

theorem headD_mem {c : List Nat} (h : c ≠ []) : c.headD 0 ∈ c := by
  obtain ⟨m, ms, rfl⟩ := List.exists_cons_of_ne_nil h
  exact List.mem_cons_self

theorem combine_missing {entries entries' : List CallablePlan} (h : SameShape entries entries')
    {c : List Nat} (hmissing : ∃ d ∈ c.flatMap (dependenciesOf entries), entries.length ≤ d) :
    combine entries' c = combine entries c := by
  unfold combine
  rw [foldl_members, foldl_members, h.dependenciesOf]
  obtain ⟨reason, hc, hc'⟩ := foldl_missing h.length _ _ _ hmissing
  exact hc'.trans hc.symm

theorem rounded_propagateRound {entries : List CallablePlan}
    (h : IsComponents entries.length deps components) :
    Rounded components (propagateRound entries components).1 := by
  have hshape := propagateRound_sameShape h
  have hplaced : ∀ c ∈ components, ∀ m ∈ c,
      (planAt (propagateRound entries components).1 m).placement = combine entries c := by
    intro c hc m hm
    rw [propagateRound_planAt h hc hm]
    rfl
  constructor
  · intro c hc m hm
    rw [hplaced c hc m hm, hplaced c hc _ (headD_mem (h.nonempty c hc))]
  · intro c hc hmissing
    rw [hshape.dependenciesOf, hshape.length] at hmissing
    rw [hplaced c hc _ (headD_mem (h.nonempty c hc))]
    exact combine_missing hshape hmissing

theorem foldl_mergeMember_same {entries : List CallablePlan} {p : CallablePlacement} (ms : List Nat) :
    (∀ m ∈ ms, (planAt entries m).placement = p) → ms.foldl (mergeMember entries) p = p := by
  induction ms with
  | nil => exact fun _ => rfl
  | cons m ms ih =>
      intro h
      rw [List.forall_mem_cons] at h
      rw [List.foldl_cons, mergeMember, h.1, mergePlacement_self]
      exact ih h.2

/-- After a round a component keeps its placement or rises to a higher tier. -/
theorem Rounded.combine_eq_or_lt {entries : List CallablePlan} (h : Rounded components entries)
    {c : List Nat} (hc : c ∈ components) :
    combine entries c = (planAt entries (c.headD 0)).placement ∨
      (tierAt entries (c.headD 0)).rank < (combine entries c).tier.rank := by
  by_cases hmissing : ∃ d ∈ c.flatMap (dependenciesOf entries), entries.length ≤ d
  · exact Or.inl (h.missing c hc hmissing)
  · have hown : (c.drop 1).foldl (mergeMember entries) (planAt entries (c.headD 0)).placement =
        (planAt entries (c.headD 0)).placement :=
      foldl_mergeMember_same _ fun m hm => h.shared c hc m (List.mem_of_mem_drop hm)
    have hcombine : combine entries c = (c.flatMap (dependenciesOf entries)).foldl
        (mergeDependency entries) (planAt entries (c.headD 0)).placement := by
      unfold combine
      rw [foldl_members, hown]
    have hdeps : ∀ d ∈ c.flatMap (dependenciesOf entries), d < entries.length := by
      intro d hd
      by_contra hlt
      exact hmissing ⟨d, hd, by omega⟩
    obtain ⟨hle, hsame⟩ := foldl_of_rank (c.flatMap (dependenciesOf entries))
      (planAt entries (c.headD 0)).placement hdeps
    rw [hcombine]
    rcases Nat.lt_or_ge (tierAt entries (c.headD 0)).rank
        ((c.flatMap (dependenciesOf entries)).foldl (mergeDependency entries)
          (planAt entries (c.headD 0)).placement).tier.rank with hlt | hge
    · exact Or.inr hlt
    · exact Or.inl (hsame hge)

def rankSum (entries : List CallablePlan) : Nat :=
  ∑ i ∈ Finset.range entries.length, (tierAt entries i).rank

theorem rankSum_le (entries : List CallablePlan) : rankSum entries ≤ 2 * entries.length := by
  have h := Finset.sum_le_card_nsmul (Finset.range entries.length)
    (fun i => (tierAt entries i).rank) 2 fun i _ => rank_le _
  rw [Finset.card_range, Nat.nsmul_eq_mul, Nat.mul_comm] at h
  exact h

theorem tierAt_propagateRound {entries : List CallablePlan}
    (h : IsComponents entries.length deps components) {c : List Nat} (hc : c ∈ components)
    {i : Nat} (hi : i ∈ c) :
    tierAt (propagateRound entries components).1 i = (combine entries c).tier := by
  rw [tierAt, propagateRound_planAt h hc hi]
  rfl

/-- A round that changes something raises the sum of the ranks. -/
theorem Rounded.rankSum_lt {entries : List CallablePlan} (h : Rounded components entries)
    (hcomponents : IsComponents entries.length deps components)
    (hchanged : (propagateRound entries components).2 = true) :
    rankSum entries < rankSum (propagateRound entries components).1 := by
  have htier : ∀ c ∈ components, ∀ m ∈ c, tierAt entries m = tierAt entries (c.headD 0) := by
    intro c hc m hm
    rw [tierAt, h.shared c hc m hm]
    rfl
  unfold rankSum
  rw [(propagateRound_sameShape hcomponents).length]
  apply Finset.sum_lt_sum
  · intro i hi
    obtain ⟨c, hc, hic⟩ := List.mem_flatten.mp ((hcomponents.covers i).mpr (Finset.mem_range.mp hi))
    rw [tierAt_propagateRound hcomponents hc hic, htier c hc i hic]
    rcases h.combine_eq_or_lt hc with heq | hlt
    · rw [heq]
      exact le_refl _
    · exact hlt.le
  · have hfixed : ¬ Fixed components entries := by
      rw [← propagateRound_unchanged, hchanged]
      simp
    unfold Fixed at hfixed
    push Not at hfixed
    obtain ⟨c, hc, m, hm, hne⟩ := hfixed
    have hlt : m < entries.length := (hcomponents.covers m).mp (List.mem_flatten.mpr ⟨c, hc, hm⟩)
    refine ⟨m, Finset.mem_range.mpr hlt, ?_⟩
    rw [tierAt_propagateRound hcomponents hc hm, htier c hc m hm]
    rcases h.combine_eq_or_lt hc with heq | hlt
    · exact absurd ((h.shared c hc m hm).trans heq.symm) hne
    · exact hlt

/-- A fixed point of the rounds with the functions and dependencies of the entries. -/
structure Settled (components : List (List Nat)) (entries result : List CallablePlan) : Prop where
  shape : SameShape entries result
  fixed : Fixed components result

theorem propagateRound_of_unchanged {entries : List CallablePlan}
    (hflag : (propagateRound entries components).2 = false) :
    Settled components entries (propagateRound entries components).1 := by
  have hfixed := (propagateRound_unchanged entries components).mp hflag
  have hsame : (propagateRound entries components).1 = entries := by
    rw [propagateRound, @placeComponents_same entries components (entries, false) hfixed]
  rw [hsame]
  exact ⟨SameShape.refl entries, hfixed⟩

theorem Settled.trans {entries entries' result : List CallablePlan}
    (hshape : SameShape entries entries') (h : Settled components entries' result) :
    Settled components entries result :=
  ⟨hshape.trans h.shape, h.fixed⟩

theorem propagatePlacements_of_rounded (rounds : Nat) :
    ∀ entries : List CallablePlan, IsComponents entries.length deps components →
      Rounded components entries → 2 * entries.length < rankSum entries + rounds →
      ∃ result, Settled components entries result ∧
        ∀ fuel, rounds ≤ fuel → propagatePlacements components fuel entries = some result := by
  induction rounds with
  | zero =>
      intro entries _ _ hrounds
      exact absurd (rankSum_le entries) (by omega)
  | succ rounds ih =>
      intro entries hcomponents h hrounds
      have hshape := propagateRound_sameShape hcomponents
      cases hflag : (propagateRound entries components).2 with
      | false =>
          refine ⟨_, propagateRound_of_unchanged hflag, fun fuel hfuel => ?_⟩
          obtain ⟨fuel, rfl⟩ : ∃ k, fuel = k + 1 := ⟨fuel - 1, by omega⟩
          simp [propagatePlacements, hflag]
      | true =>
          have hlt := h.rankSum_lt hcomponents hflag
          have hcomponents' := hcomponents
          rw [← hshape.length] at hcomponents'
          obtain ⟨result, hsettled, hrun⟩ := ih (propagateRound entries components).1 hcomponents'
            (rounded_propagateRound hcomponents) (by rw [hshape.length]; omega)
          refine ⟨result, Settled.trans hshape hsettled, fun fuel hfuel => ?_⟩
          obtain ⟨fuel, rfl⟩ : ∃ k, fuel = k + 1 := ⟨fuel - 1, by omega⟩
          simp [propagatePlacements, hflag, hrun fuel (by omega)]

/-- The first round may lower a tier, no later one does. -/
theorem propagatePlacements_settled {entries : List CallablePlan}
    (hcomponents : IsComponents entries.length deps components) :
    ∃ result, Settled components entries result ∧
      ∀ fuel, 2 * entries.length + 2 ≤ fuel →
        propagatePlacements components fuel entries = some result := by
  have hshape := propagateRound_sameShape hcomponents
  have hcomponents' := hcomponents
  rw [← hshape.length] at hcomponents'
  cases hflag : (propagateRound entries components).2 with
  | false =>
      refine ⟨_, propagateRound_of_unchanged hflag, fun fuel hfuel => ?_⟩
      obtain ⟨fuel, rfl⟩ : ∃ k, fuel = k + 1 := ⟨fuel - 1, by omega⟩
      simp [propagatePlacements, hflag]
  | true =>
      obtain ⟨result, hsettled, hrun⟩ := propagatePlacements_of_rounded (2 * entries.length + 1)
        (propagateRound entries components).1 hcomponents' (rounded_propagateRound hcomponents)
        (by rw [hshape.length]; omega)
      refine ⟨result, Settled.trans hshape hsettled, fun fuel hfuel => ?_⟩
      obtain ⟨fuel, rfl⟩ : ∃ k, fuel = k + 1 := ⟨fuel - 1, by omega⟩
      simp [propagatePlacements, hflag, hrun fuel (by omega)]

end Rounds

/-! ### The fixed point -/

theorem Settled.tier_eq {entries result : List CallablePlan}
    (h : Settled (componentsOf entries) entries result) {i : Nat} (hi : i < entries.length) :
    ∃ c : List Nat, i ∈ c ∧ tierAt result i = mergeAll (c.map (tierAt result) ++
      (c.flatMap (dependenciesOf entries)).map (dependencyTier result)) := by
  have hcomponents : IsComponents entries.length (dependenciesOf entries) (componentsOf entries) :=
    isComponents_stronglyConnectedComponents
  obtain ⟨c, hc, hic⟩ := List.mem_flatten.mp ((hcomponents.covers i).mpr hi)
  refine ⟨c, hic, ?_⟩
  rw [tierAt, h.fixed c hc i hic, tier_combine result (hcomponents.nonempty c hc),
    h.shape.dependenciesOf]

/-- The tiers of the dependencies of a callable are among those its own is merged from. -/
theorem Settled.dependency {entries result : List CallablePlan}
    (h : Settled (componentsOf entries) entries result) {i d : Nat} (hi : i < entries.length)
    (hd : d ∈ dependenciesOf entries i) :
    ∃ tiers : List Tier, dependencyTier result d ∈ tiers ∧ tierAt result i = mergeAll tiers := by
  obtain ⟨c, hic, htier⟩ := h.tier_eq hi
  refine ⟨_, ?_, htier⟩
  rw [List.mem_append]
  exact Or.inr (List.mem_map_of_mem (List.mem_flatMap.mpr ⟨i, hic, hd⟩))

/-- A callable depends on another, directly or through others. -/
def Depends (entries : List CallablePlan) : Nat → Nat → Prop :=
  Relation.TransGen fun i d => d ∈ dependenciesOf entries i

theorem Settled.common {entries result : List CallablePlan}
    (h : Settled (componentsOf entries) entries result) {i d : Nat} (hi : i < entries.length)
    (hcommon : tierAt result i = .common) (hd : d ∈ dependenciesOf entries i) :
    d < entries.length ∧ tierAt result d = .common := by
  obtain ⟨tiers, hmem, htier⟩ := h.dependency hi hd
  have hdep : dependencyTier result d = .common :=
    (foldl_eq_common tiers .common (htier.symm.trans hcommon)).2 _ hmem
  unfold dependencyTier at hdep
  split at hdep
  · rename_i hlt
    exact ⟨h.shape.length ▸ hlt, hdep⟩
  · cases hdep

/-- The propagation ends in a placement that is sound for the dependencies. -/
theorem propagatePlacements_sound (entries : List CallablePlan) :
    ∃ result, (∀ rounds, 2 * entries.length + 2 ≤ rounds →
        propagatePlacements (componentsOf entries) rounds entries = some result) ∧
      SameShape entries result ∧
      Fixed (componentsOf entries) result ∧
      ∀ i < entries.length,
        (∀ d ∈ dependenciesOf entries i,
          (entries.length ≤ d → tierAt result i = .invalid) ∧
          (d < entries.length → tierAt result d = .invalid → tierAt result i = .invalid) ∧
          ∀ test, d < entries.length → tierAt result d = .capsuleLocal test →
            tierAt result i = .capsuleLocal test ∨ tierAt result i = .invalid) ∧
        (tierAt result i = .common →
          ∀ d, Depends entries i d → d < entries.length ∧ tierAt result d = .common) := by
  have hcomponents : IsComponents entries.length (dependenciesOf entries) (componentsOf entries) :=
    isComponents_stronglyConnectedComponents
  obtain ⟨result, h, hrun⟩ := propagatePlacements_settled hcomponents
  refine ⟨result, hrun, h.shape, h.fixed,
    fun i hi => ⟨fun d hd => ?_, fun hcommon d hd => ?_⟩⟩
  · obtain ⟨tiers, hmem, htier⟩ := h.dependency hi hd
    have hpresent : d < entries.length → dependencyTier result d = tierAt result d := by
      intro hlt
      rw [dependencyTier, if_pos (by rw [h.shape.length]; exact hlt)]
    refine ⟨fun hmissing => ?_, fun hlt hinvalid => ?_, fun test hlt hlocal => ?_⟩
    · rw [dependencyTier, if_neg (by rw [h.shape.length]; omega)] at hmem
      exact htier.trans (foldl_mem_invalid hmem _)
    · rw [hpresent hlt, hinvalid] at hmem
      exact htier.trans (foldl_mem_invalid hmem _)
    · rw [hpresent hlt, hlocal] at hmem
      rw [htier]
      exact foldl_mem_capsuleLocal hmem _
  · induction hd with
    | single hd => exact h.common hi hcommon hd
    | tail _ hd ih => exact h.common ih.1 ih.2 hd

end Harc.PlacementPropagation
