import Mathlib.Data.List.Nodup
import Mathlib.Data.List.Perm.Subperm
import Mathlib.Logic.Function.Basic

/-!
Names in nested scopes: fresh spellings, and what a name stands for.

A frame hides every scope that was open when it was opened.
-/

namespace Harc.NameScopes

/-! ### Fresh spellings -/

section Fresh

variable {Name : Type} [DecidableEq Name]

/-- The first of the candidates from `n` on that is not taken; at most `fuel` of them are. -/
def firstFree (taken : List Name) (candidate : Nat → Name) : Nat → Nat → Nat
  | 0, n => n
  | fuel + 1, n =>
      if candidate n ∈ taken then firstFree taken candidate fuel (n + 1) else n

theorem firstFree_spec (taken : List Name) (candidate : Nat → Name) (fuel n : Nat) :
    candidate (firstFree taken candidate fuel n) ∉ taken ∨
      firstFree taken candidate fuel n = n + fuel ∧ ∀ i < fuel, candidate (n + i) ∈ taken := by
  induction fuel generalizing n with
  | zero =>
      refine Or.inr ⟨rfl, fun i hi => ?_⟩
      exact absurd hi (Nat.not_lt_zero i)
  | succ fuel ih =>
      rw [firstFree]
      split_ifs with htaken
      · rcases ih (n + 1) with hfree | ⟨heq, hall⟩
        · exact Or.inl hfree
        · refine Or.inr ⟨by omega, ?_⟩
          intro i hi
          rcases i with _ | i
          · exact htaken
          · have := hall i (by omega)
            rwa [show n + 1 + i = n + (i + 1) by omega] at this
      · exact Or.inl htaken

/-- A family of distinct candidates has a free one among the first `taken.length + 1`. -/
theorem candidate_firstFree (taken : List Name) {candidate : Nat → Name}
    (hinj : Function.Injective candidate) (n : Nat) :
    candidate (firstFree taken candidate taken.length n) ∉ taken := by
  rcases firstFree_spec taken candidate taken.length n with hfree | ⟨heq, hall⟩
  · exact hfree
  · intro hlast
    rw [heq] at hlast
    have hnodup : ((List.range (taken.length + 1)).map fun i => candidate (n + i)).Nodup := by
      refine List.Nodup.map ?_ List.nodup_range
      intro i j hij
      exact Nat.add_left_cancel (hinj hij)
    have hsubset : ((List.range (taken.length + 1)).map fun i => candidate (n + i)) ⊆ taken := by
      intro name hname
      obtain ⟨i, hi, rfl⟩ := List.mem_map.mp hname
      rcases Nat.lt_or_eq_of_le (Nat.le_of_lt_succ (List.mem_range.mp hi)) with hlt | rfl
      · exact hall i hlt
      · exact hlast
    have hlength := (hnodup.subperm hsubset).length_le
    rw [List.length_map, List.length_range] at hlength
    omega

end Fresh

/-! ### Scopes and frames -/

/-- The scopes, innermost first, and for each frame, innermost first, how many of them it
hides. -/
structure Scopes (Name Id : Type) where
  scopes : List (Name → Option Id)
  floors : List Nat

/-- What happens to the scopes. -/
inductive Event (Name Id : Type) where
  | declare (name : Name) (id : Id)
  /-- A declaration outside all others of its name. -/
  | declareOuter (name : Name) (id : Id)
  /-- The innermost scope forgets a name. -/
  | hide (name : Name)
  | openScope
  | closeScope
  | openFrame
  | closeFrame

section Lookup

variable {Name Id : Type} [DecidableEq Name]

/-- The first answer of some scopes. -/
def firstSome : List (Name → Option Id) → Name → Option Id
  | [], _ => none
  | scope :: scopes, name => (scope name).or (firstSome scopes name)

namespace Scopes

/-- One scope and no frame. -/
def init : Scopes Name Id := ⟨[fun _ => none], []⟩

def depth (s : Scopes Name Id) : Nat := s.scopes.length

/-- The number of scopes that the frame behind `f` others hides. -/
def floor (s : Scopes Name Id) (f : Nat) : Nat := (s.floors[f]?).getD 0

/-- What a name stands for once `k` scopes and `f` frames are closed. -/
def lookupBehind (s : Scopes Name Id) (k f : Nat) (name : Name) : Option Id :=
  firstSome ((s.scopes.take (s.depth - s.floor f)).drop k) name

def lookup (s : Scopes Name Id) (name : Name) : Option Id := s.lookupBehind 0 0 name

def declare (s : Scopes Name Id) (name : Name) (id : Id) : Scopes Name Id :=
  { s with scopes := s.scopes.modifyHead fun scope => Function.update scope name (some id) }

def hide (s : Scopes Name Id) (name : Name) : Scopes Name Id :=
  { s with scopes := s.scopes.modifyHead fun scope => Function.update scope name none }

def step (s : Scopes Name Id) : Event Name Id → Scopes Name Id
  | .declare name id => s.declare name id
  | .declareOuter name id => if (s.lookup name).isNone then s.declare name id else s
  | .hide name => s.hide name
  | .openScope => { s with scopes := (fun _ => none) :: s.scopes }
  | .closeScope => { s with scopes := s.scopes.tail }
  | .openFrame => { s with floors := s.depth :: s.floors }
  | .closeFrame => { s with floors := s.floors.tail }

def run (s : Scopes Name Id) (events : List (Event Name Id)) : Scopes Name Id :=
  events.foldl step s

/-- Declarations, hidden names and the ends of scopes belong to a scope of the innermost frame. -/
def Fits (s : Scopes Name Id) : Event Name Id → Prop
  | .declare _ _ | .hide _ | .closeScope => s.floor 0 < s.depth
  | .declareOuter _ _ => s.floors = [] ∧ 0 < s.depth
  | _ => True

/-- Every event fits where it happens. -/
def Runs (s : Scopes Name Id) : List (Event Name Id) → Prop
  | [] => True
  | event :: events => s.Fits event ∧ (s.step event).Runs events

/-- Every frame was opened in the scopes that are still open. -/
def Nested (s : Scopes Name Id) : Prop :=
  s.floor 0 ≤ s.depth ∧ ∀ f, s.floor (f + 1) ≤ s.floor f

end Scopes

/-- What a name stands for, by the history of the scopes, the latest event first: the latest
declaration that is in no closed scope, where `k` scopes and `f` frames are closed. The search
ends where the frame was opened; for a name that is hidden in a scope it goes on behind it. -/
def visible (name : Name) : List (Event Name Id) → Nat → Nat → Option Id
  | [], _, _ => none
  | .declare other id :: past, k, f =>
      if k = 0 ∧ other = name then some id else visible name past k f
  | .declareOuter other id :: past, k, f =>
      if k = 0 ∧ other = name then (visible name past k f).or (some id)
      else visible name past k f
  | .hide other :: past, k, f =>
      if k = 0 ∧ other = name then visible name past 1 f else visible name past k f
  | .closeScope :: past, k, f => visible name past (k + 1) f
  | .openScope :: past, k, f => visible name past (k - 1) f
  | .closeFrame :: past, k, f => visible name past k (f + 1)
  | .openFrame :: past, k, f => if f = 0 then none else visible name past k (f - 1)

namespace Scopes

variable {s : Scopes Name Id} {past : List (Event Name Id)}

omit [DecidableEq Name] in
theorem Nested.floor_le (h : s.Nested) (f : Nat) : s.floor f ≤ s.floor 0 := by
  induction f with
  | zero => exact Nat.le_refl _
  | succ f ih => exact Nat.le_trans (h.2 f) ih

omit [DecidableEq Name] in
theorem nested_init : (init : Scopes Name Id).Nested := by
  refine ⟨Nat.zero_le _, ?_⟩
  intro f
  exact Nat.le_refl _

@[simp] theorem depth_declare (s : Scopes Name Id) (name : Name) (id : Id) :
    (s.declare name id).depth = s.depth := by
  rw [depth, declare, List.length_modifyHead]
  rfl

@[simp] theorem floor_declare (s : Scopes Name Id) (name : Name) (id : Id) (f : Nat) :
    (s.declare name id).floor f = s.floor f := rfl

@[simp] theorem depth_hide (s : Scopes Name Id) (name : Name) : (s.hide name).depth = s.depth := by
  rw [depth, hide, List.length_modifyHead]
  rfl

theorem step_nested {event : Event Name Id} (h : s.Nested) (hfits : s.Fits event) :
    (s.step event).Nested := by
  have hdeclare (name : Name) (id : Id) : (s.declare name id).Nested := by
    constructor
    · rw [depth_declare, floor_declare]
      exact h.1
    · exact h.2
  cases event with
  | declare name id => exact hdeclare name id
  | hide name =>
      constructor
      · rw [step, depth_hide]
        exact h.1
      · exact h.2
  | declareOuter name id =>
      rw [step]
      split_ifs
      · exact hdeclare name id
      · exact h
  | openScope => exact ⟨Nat.le_succ_of_le h.1, h.2⟩
  | closeScope =>
      refine ⟨?_, h.2⟩
      change s.floor 0 ≤ s.scopes.tail.length
      rw [List.length_tail]
      exact Nat.le_sub_one_of_lt hfits
  | openFrame =>
      refine ⟨Nat.le_refl _, ?_⟩
      intro f
      rcases f with _ | f
      · exact h.1
      · exact h.2 f
  | closeFrame =>
      have hfloor (f : Nat) : (s.step .closeFrame).floor f = s.floor (f + 1) := by
        change ((s.floors.tail)[f]?).getD 0 = _
        rw [List.getElem?_tail]
        rfl
      constructor
      · rw [hfloor]
        exact Nat.le_trans (h.2 0) h.1
      · intro f
        rw [hfloor, hfloor]
        exact h.2 (f + 1)

omit [DecidableEq Name] in
/-- The innermost scope answers first. -/
theorem lookupBehind_cons {scope : Name → Option Id} {scopes : List (Name → Option Id)}
    {floors : List Nat} {f : Nat} (hfloor : (floors[f]?).getD 0 ≤ scopes.length) (k : Nat)
    (name : Name) :
    (Scopes.mk (scope :: scopes) floors).lookupBehind k f name =
      if k = 0 then (scope name).or ((Scopes.mk scopes floors).lookupBehind 0 f name)
      else (Scopes.mk scopes floors).lookupBehind (k - 1) f name := by
  have htake : (scope :: scopes).take ((scope :: scopes).length - (floors[f]?).getD 0) =
      scope :: scopes.take (scopes.length - (floors[f]?).getD 0) := by
    rw [List.length_cons, Nat.succ_sub hfloor, List.take_succ_cons]
  change firstSome
    (((scope :: scopes).take ((scope :: scopes).length - (floors[f]?).getD 0)).drop k) name = _
  rw [htake]
  rcases k with _ | k
  · rfl
  · rfl

theorem lookupBehind_declare {f : Nat} (hfloor : s.floor f < s.depth) (other : Name) (id : Id)
    (k : Nat) (name : Name) :
    (s.declare other id).lookupBehind k f name =
      if k = 0 ∧ other = name then some id else s.lookupBehind k f name := by
  rcases s with ⟨_ | ⟨scope, scopes⟩, floors⟩
  · exact absurd hfloor (Nat.not_lt_zero _)
  · have hle : (floors[f]?).getD 0 ≤ scopes.length := Nat.le_of_lt_succ hfloor
    change (Scopes.mk (Function.update scope other (some id) :: scopes) floors).lookupBehind k f
      name = _
    rw [lookupBehind_cons hle, lookupBehind_cons hle]
    by_cases hk : k = 0
    · rw [if_pos hk, if_pos hk]
      by_cases hname : other = name
      · rw [if_pos ⟨hk, hname⟩, hname, Function.update_self]
        rfl
      · rw [if_neg fun h => hname h.2, Function.update_of_ne (Ne.symm hname)]
    · rw [if_neg hk, if_neg hk, if_neg fun h => hk h.1]

theorem lookupBehind_hide {f : Nat} (hfloor : s.floor f < s.depth) (other : Name) (k : Nat)
    (name : Name) :
    (s.hide other).lookupBehind k f name =
      if k = 0 ∧ other = name then s.lookupBehind 1 f name else s.lookupBehind k f name := by
  rcases s with ⟨_ | ⟨scope, scopes⟩, floors⟩
  · exact absurd hfloor (Nat.not_lt_zero _)
  · have hle : (floors[f]?).getD 0 ≤ scopes.length := Nat.le_of_lt_succ hfloor
    change (Scopes.mk (Function.update scope other none :: scopes) floors).lookupBehind k f
      name = _
    rw [lookupBehind_cons hle, lookupBehind_cons hle, lookupBehind_cons hle]
    by_cases hk : k = 0
    · rw [if_pos hk, if_pos hk]
      by_cases hname : other = name
      · rw [if_pos ⟨hk, hname⟩, hname, Function.update_self]
        rfl
      · rw [if_neg fun h => hname h.2, Function.update_of_ne (Ne.symm hname)]
    · rw [if_neg hk, if_neg hk, if_neg fun h => hk h.1]

/-- The scopes hold, of every name, what their history says of it. -/
def Recorded (s : Scopes Name Id) (past : List (Event Name Id)) : Prop :=
  ∀ k f name, s.lookupBehind k f name = visible name past k f

theorem recorded_init : (init : Scopes Name Id).Recorded [] := by
  intro k f name
  rcases k with _ | k
  · rfl
  · have hdrop : ([fun _ => none] : List (Name → Option Id)).drop (k + 1) = [] := List.drop_nil
    change firstSome (([fun _ => none] : List (Name → Option Id)).drop (k + 1)) name = none
    rw [hdrop]
    rfl

theorem step_recorded {event : Event Name Id} (h : s.Nested) (hfits : s.Fits event)
    (hpast : s.Recorded past) : (s.step event).Recorded (event :: past) := by
  intro k f name
  have hfloor := h.floor_le f
  cases event with
  | declare other id =>
      rw [step, lookupBehind_declare (Nat.lt_of_le_of_lt hfloor hfits), hpast, visible]
  | declareOuter other id =>
      obtain ⟨hnone, hdepth⟩ := hfits
      have hzero (f : Nat) : s.floor f = 0 := by
        rw [floor, hnone]
        rfl
      have hlookup : s.lookup name = visible name past 0 f := by
        rw [← hpast, lookup, lookupBehind, lookupBehind, hzero, hzero]
      rw [step, visible]
      split_ifs with hfree hname hname
      · obtain ⟨rfl, rfl⟩ := hname
        rw [lookupBehind_declare (by rw [hzero]; exact hdepth), if_pos ⟨rfl, rfl⟩, ← hlookup,
          Option.isNone_iff_eq_none.mp hfree]
        rfl
      · rw [lookupBehind_declare (by rw [hzero]; exact hdepth), if_neg hname, hpast]
      · obtain ⟨rfl, rfl⟩ := hname
        rw [hpast, ← hlookup]
        cases hfound : s.lookup other with
        | none => exact absurd (Option.isNone_iff_eq_none.mpr hfound) hfree
        | some found => rfl
      · rw [hpast]
  | hide other =>
      rw [step, visible, lookupBehind_hide (Nat.lt_of_le_of_lt hfloor hfits), hpast, hpast]
  | openScope =>
      rw [step, visible, lookupBehind_cons (Nat.le_trans hfloor h.1), ← hpast]
      rcases k with _ | k
      · rfl
      · rfl
  | closeScope =>
      rcases s with ⟨_ | ⟨scope, scopes⟩, floors⟩
      · exact absurd hfits (Nat.not_lt_zero _)
      · have hle : (floors[f]?).getD 0 ≤ scopes.length :=
          Nat.le_trans hfloor (Nat.le_of_lt_succ hfits)
        rw [visible, ← hpast, lookupBehind_cons hle, if_neg (Nat.succ_ne_zero k)]
        rfl
  | openFrame =>
      rw [visible]
      rcases f with _ | f
      · have hempty : s.scopes.take (s.depth - s.depth) = [] := by
          rw [Nat.sub_self, List.take_zero]
        change firstSome ((s.scopes.take (s.depth - s.depth)).drop k) name = none
        rw [hempty, List.drop_nil]
        rfl
      · exact hpast k f name
  | closeFrame =>
      rw [visible, ← hpast]
      change firstSome ((s.scopes.take (s.depth - ((s.floors.tail)[f]?).getD 0)).drop k) name = _
      rw [List.getElem?_tail]
      rfl

theorem run_recorded {events : List (Event Name Id)} (h : s.Nested) (hruns : s.Runs events)
    (hpast : s.Recorded past) : (s.run events).Recorded (events.reverse ++ past) := by
  induction events generalizing s past with
  | nil => exact hpast
  | cons event events ih =>
      obtain ⟨hfits, hrest⟩ := hruns
      rw [List.reverse_cons, List.append_assoc]
      exact ih (step_nested h hfits) hrest (step_recorded h hfits hpast)

theorem runs_append {xs ys : List (Event Name Id)} :
    s.Runs (xs ++ ys) ↔ s.Runs xs ∧ (s.run xs).Runs ys := by
  induction xs generalizing s with
  | nil => exact (and_iff_right trivial).symm
  | cons event xs ih =>
      rw [List.cons_append, Runs, ih, Runs, and_assoc]
      rfl

theorem run_append (xs ys : List (Event Name Id)) : s.run (xs ++ ys) = (s.run xs).run ys :=
  List.foldl_append

/-- A name stands for its latest declaration in the scopes that are open in the innermost
frame. -/
theorem lookup_run {events : List (Event Name Id)} (hruns : (init : Scopes Name Id).Runs events)
    (name : Name) : (init.run events).lookup name = visible name events.reverse 0 0 := by
  have hrecorded := run_recorded nested_init hruns recorded_init 0 0 name
  rwa [List.append_nil] at hrecorded

end Scopes

end Lookup

end Harc.NameScopes
