import Mathlib.Data.List.Basic
import Mathlib.Data.Nat.Init

/-!
Sweeps over a list of targets.

A turn takes the first target that is neither closed nor deferred.  A turn that finds none ends
the sweep, and the deferred targets come back.  Where every turn closes or defers the target that
it takes, no target starves.
-/

namespace Harc.Sweeps

variable {β : Type*}

/-- What is known about the targets between two turns. -/
structure Marks (β : Type*) where
  closed : β → Bool
  deferred : β → Bool

namespace Marks

def isOpen (marks : Marks β) (t : β) : Bool := !marks.closed t && !marks.deferred t

def pick (targets : List β) (marks : Marks β) : Option β := targets.find? marks.isOpen

/-- The number of targets that a sweep still has before it. -/
def openCount (targets : List β) (marks : Marks β) : Nat := targets.countP marks.isOpen

theorem isOpen_iff {marks : Marks β} {t : β} :
    marks.isOpen t = true ↔ marks.closed t = false ∧ marks.deferred t = false := by
  simp [isOpen]

end Marks

open Marks

/-- What a turn may do to the marks of the targets, as a function of what it takes. -/
structure Turn (targets : List β) (taken : Option β) (before after : Marks β) : Prop where
  closed : ∀ t ∈ targets, before.closed t = true → after.closed t = true
  /-- A turn without a target clears the deferred marks. -/
  cleared : taken = none → ∀ t ∈ targets, after.deferred t = false
  kept : ∀ t, taken = some t → ∀ u ∈ targets,
    before.deferred u = true → after.deferred u = true
  /-- Only the target of the turn is deferred. -/
  only : ∀ t, taken = some t → ∀ u ∈ targets,
    after.deferred u = true → before.deferred u = true ∨ u = t
  /-- The target of the turn does not stay open. -/
  resolved : ∀ t, taken = some t → after.isOpen t = false

theorem pick_eq_none_iff {targets : List β} {marks : Marks β} :
    pick targets marks = none ↔ openCount targets marks = 0 := by
  rw [pick, openCount, List.find?_eq_none, List.countP_eq_zero]

theorem isOpen_of_pick {targets : List β} {marks : Marks β} {t : β}
    (h : pick targets marks = some t) : t ∈ targets ∧ marks.isOpen t = true :=
  ⟨List.mem_of_find?_eq_some h, List.find?_some h⟩

theorem Turn.isOpen_before {targets : List β} {taken : Option β} {before after : Marks β}
    {t u : β} (turn : Turn targets taken before after) (ht : taken = some t) (hmem : u ∈ targets)
    (hu : after.isOpen u = true) : before.isOpen u = true := by
  rw [isOpen_iff] at hu ⊢
  constructor
  · apply eq_false_of_ne_true
    intro hclosed
    rw [turn.closed u hmem hclosed] at hu
    exact absurd hu.1 (by decide)
  · apply eq_false_of_ne_true
    intro hdeferred
    rw [turn.kept t ht u hmem hdeferred] at hu
    exact absurd hu.2 (by decide)

theorem countP_lt_countP {p q : β → Bool} {l : List β} {t : β} (ht : t ∈ l)
    (hle : ∀ u ∈ l, p u = true → q u = true) (hp : p t = false) (hq : q t = true) :
    l.countP p < l.countP q := by
  induction l with
  | nil => exact absurd ht List.not_mem_nil
  | cons u l ih =>
      rw [List.forall_mem_cons] at hle
      have htail := List.countP_mono_left hle.2
      rcases List.mem_cons.mp ht with rfl | hmem
      · rw [List.countP_cons_of_neg (by rw [hp]; exact Bool.false_ne_true),
          List.countP_cons_of_pos hq]
        omega
      · have hlt := ih hmem hle.2
        rw [List.countP_cons, List.countP_cons]
        split
        · rename_i hpu
          rw [if_pos (hle.1 hpu)]
          omega
        · omega

/-- A turn with a target leaves the sweep fewer targets than it found. -/
theorem Turn.openCount_lt {targets : List β} {before after : Marks β} {t : β}
    (turn : Turn targets (pick targets before) before after) (ht : pick targets before = some t) :
    openCount targets after < openCount targets before := by
  obtain ⟨hmem, hopen⟩ := isOpen_of_pick ht
  apply countP_lt_countP hmem
  · intro u hu hafter
    exact turn.isOpen_before ht hu hafter
  · exact turn.resolved t ht
  · exact hopen

section Runs

variable {targets : List β} {marks : Nat → Marks β}
variable (turns : ∀ n, Turn targets (pick targets (marks n)) (marks n) (marks (n + 1)))

include turns

/-- Every sweep ends. -/
theorem exists_pick_none (n : Nat) :
    ∃ k ≤ openCount targets (marks n), pick targets (marks (n + k)) = none := by
  -- Strong induction on what the sweep has before it.
  induction hcount : openCount targets (marks n) using Nat.strong_induction_on generalizing n with
  | _ count ih =>
      cases hpick : pick targets (marks n) with
      | none => exact ⟨0, Nat.zero_le _, hpick⟩
      | some t =>
          have hlt := (turns n).openCount_lt hpick
          obtain ⟨k, hk, hnone⟩ := ih _ (hcount ▸ hlt) (n + 1) rfl
          refine ⟨k + 1, by omega, ?_⟩
          rw [Nat.add_comm k 1, ← Nat.add_assoc]
          exact hnone

/-- A target that is open is taken in this sweep, or closed on the way. -/
theorem exists_pick_of_isOpen {t : β} (ht : t ∈ targets) (n : Nat)
    (hopen : (marks n).isOpen t = true) :
    ∃ k ≤ openCount targets (marks n),
      pick targets (marks (n + k)) = some t ∨ (marks (n + k)).closed t = true := by
  induction hcount : openCount targets (marks n) using Nat.strong_induction_on generalizing n with
  | _ count ih =>
      obtain ⟨u, hpick⟩ : ∃ u, pick targets (marks n) = some u := by
        rw [← Option.ne_none_iff_exists']
        intro hnone
        exact List.find?_eq_none.mp hnone t ht hopen
      rcases Classical.em (u = t) with rfl | hne
      · exact ⟨0, Nat.zero_le _, .inl hpick⟩
      have hlt := (turns n).openCount_lt hpick
      cases hclosed : (marks (n + 1)).closed t with
      | true => exact ⟨1, by omega, .inr hclosed⟩
      | false =>
          have hdeferred : (marks (n + 1)).deferred t = false := by
            apply eq_false_of_ne_true
            intro hafter
            rcases (turns n).only u hpick t ht hafter with hbefore | heq
            · rw [(isOpen_iff.mp hopen).2] at hbefore
              exact absurd hbefore (by decide)
            · exact hne heq.symm
          obtain ⟨k, hk, hdone⟩ :=
            ih _ (hcount ▸ hlt) (n + 1) (isOpen_iff.mpr ⟨hclosed, hdeferred⟩) rfl
          refine ⟨k + 1, by omega, ?_⟩
          rw [Nat.add_comm k 1, ← Nat.add_assoc]
          exact hdone

/-- No target starves: from any turn on, two sweeps take it unless it closes first. -/
theorem exists_pick {t : β} (ht : t ∈ targets) (n : Nat) :
    ∃ k ≤ 2 * targets.length + 1,
      pick targets (marks (n + k)) = some t ∨ (marks (n + k)).closed t = true := by
  obtain ⟨k, hk, hnone⟩ := exists_pick_none turns n
  have hfirst : openCount targets (marks n) ≤ targets.length := List.countP_le_length
  have hsecond : openCount targets (marks (n + k + 1)) ≤ targets.length := List.countP_le_length
  cases hclosed : (marks (n + k + 1)).closed t with
  | true => exact ⟨k + 1, by omega, .inr hclosed⟩
  | false =>
      have hopen : (marks (n + k + 1)).isOpen t = true :=
        isOpen_iff.mpr ⟨hclosed, (turns (n + k)).cleared hnone t ht⟩
      obtain ⟨m, hm, hdone⟩ := exists_pick_of_isOpen turns ht (n + k + 1) hopen
      refine ⟨k + 1 + m, by omega, ?_⟩
      rw [← Nat.add_assoc, ← Nat.add_assoc]
      exact hdone

/-- A deferred target comes back only after a turn that found none. -/
theorem exists_pick_none_between {t : β} (ht : t ∈ targets) {n k : Nat}
    (hdeferred : (marks n).deferred t = true)
    (hpick : pick targets (marks (n + k)) = some t) :
    ∃ m < k, pick targets (marks (n + m)) = none := by
  induction k generalizing n with
  | zero =>
      have hopen := (isOpen_of_pick hpick).2
      rw [isOpen_iff, Nat.add_zero, hdeferred] at hopen
      exact absurd hopen.2 (by decide)
  | succ k ih =>
      cases hfirst : pick targets (marks n) with
      | none => exact ⟨0, Nat.succ_pos k, hfirst⟩
      | some u =>
          rw [Nat.add_comm k 1, ← Nat.add_assoc] at hpick
          obtain ⟨m, hm, hnone⟩ := ih ((turns n).kept u hfirst t ht hdeferred) hpick
          refine ⟨m + 1, by omega, ?_⟩
          rw [Nat.add_comm m 1, ← Nat.add_assoc]
          exact hnone

end Runs

end Harc.Sweeps
