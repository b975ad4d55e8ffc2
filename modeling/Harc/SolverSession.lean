import Mathlib.Data.List.Basic

/-!
Incremental satisfiability checks.  A session keeps its formulas in a stack of
frames; an oracle answers each check.  The oracle is sound and complete, and free
to choose among the models, also from one check to the next.
-/

namespace Harc.SolverSession

variable {M : Type}

abbrev Formula (M : Type) := M → Bool

def Models (fs : List (Formula M)) (m : M) : Prop :=
  ∀ f ∈ fs, f m = true

instance (fs : List (Formula M)) (m : M) : Decidable (Models fs m) :=
  inferInstanceAs (Decidable (∀ f ∈ fs, f m = true))

def Satisfiable (fs : List (Formula M)) : Prop :=
  ∃ m, Models fs m

@[simp] theorem models_nil (m : M) : Models [] m := by
  simp [Models]

@[simp] theorem models_cons {f : Formula M} {fs : List (Formula M)} {m : M} :
    Models (f :: fs) m ↔ f m = true ∧ Models fs m := by
  simp [Models]

@[simp] theorem models_append {fs gs : List (Formula M)} {m : M} :
    Models (fs ++ gs) m ↔ Models fs m ∧ Models gs m := by
  simp only [Models, List.mem_append]
  constructor
  · intro h
    exact ⟨fun f hf => h f (Or.inl hf), fun f hf => h f (Or.inr hf)⟩
  · rintro ⟨hfs, hgs⟩ f (hf | hf)
    · exact hfs f hf
    · exact hgs f hf

theorem models_flatMap {α : Type} {xs : List α} {g : α → List (Formula M)} {m : M} :
    Models (xs.flatMap g) m ↔ ∀ x ∈ xs, Models (g x) m := by
  simp only [Models, List.mem_flatMap]
  constructor
  · intro h x hx f hf
    exact h f ⟨x, hx, hf⟩
  · rintro h f ⟨x, hx, hf⟩
    exact h x hx f hf

theorem models_map {α : Type} {xs : List α} {g : α → Formula M} {m : M} :
    Models (xs.map g) m ↔ ∀ x ∈ xs, g x m = true := by
  simp [Models]

theorem Satisfiable.mono {fs gs : List (Formula M)} (h : ∀ m, Models fs m → Models gs m)
    (hfs : Satisfiable fs) : Satisfiable gs := by
  obtain ⟨m, hm⟩ := hfs
  exact ⟨m, h m hm⟩

/-- The frames, innermost first, and the number of checks so far. -/
structure Session (M : Type) where
  frames : List (List (Formula M))
  asked : Nat

namespace Session

def start : Session M :=
  ⟨[[]], 0⟩

def asserted (s : Session M) : List (Formula M) :=
  s.frames.flatten

def push (s : Session M) : Session M :=
  { s with frames := [] :: s.frames }

def pop (s : Session M) : Session M :=
  { s with frames := s.frames.tail }

def add (s : Session M) (fs : List (Formula M)) : Session M :=
  { s with frames := (s.frames.headD [] ++ fs) :: s.frames.tail }

@[simp] theorem asserted_start : (start : Session M).asserted = [] := rfl

@[simp] theorem asked_start : (start : Session M).asked = 0 := rfl

@[simp] theorem asserted_push (s : Session M) : s.push.asserted = s.asserted := rfl

@[simp] theorem asked_push (s : Session M) : s.push.asked = s.asked := rfl

@[simp] theorem asked_pop (s : Session M) : s.pop.asked = s.asked := rfl

@[simp] theorem asked_add (s : Session M) (fs : List (Formula M)) :
    (s.add fs).asked = s.asked := rfl

@[simp] theorem models_add {s : Session M} {fs : List (Formula M)} {m : M} :
    Models (s.add fs).asserted m ↔ Models s.asserted m ∧ Models fs m := by
  obtain ⟨frames, asked⟩ := s
  rcases frames with _ | ⟨top, rest⟩
  · simp [add, asserted]
  · simp only [add, asserted, List.headD_cons, List.tail_cons, List.flatten_cons, models_append]
    tauto

theorem asserted_of_frames {s s' : Session M} (h : s'.frames = s.frames) :
    s'.asserted = s.asserted := by
  rw [asserted, h, asserted]

/-- Popping a frame forgets what it added. -/
theorem frames_pop {s s' : Session M} {fs : List (Formula M)}
    (h : s'.frames = (s.push.add fs).frames) : s'.pop.frames = s.frames := by
  rw [pop, h]
  rfl

end Session

structure Oracle (M : Type) where
  answer : Nat → List (Formula M) → Option M
  sound : ∀ n fs m, answer n fs = some m → Models fs m
  complete : ∀ n fs, answer n fs = none → ¬ Satisfiable fs

namespace Oracle

def check (o : Oracle M) (s : Session M) : Option M × Session M :=
  (o.answer s.asked s.asserted, { s with asked := s.asked + 1 })

variable {o : Oracle M} {s s' : Session M}

theorem check_some {m : M} (h : o.check s = (some m, s')) :
    Models s.asserted m ∧ s'.frames = s.frames := by
  rw [check, Prod.mk.injEq] at h
  obtain ⟨hanswer, rfl⟩ := h
  exact ⟨o.sound _ _ m hanswer, rfl⟩

theorem check_none (h : o.check s = (none, s')) :
    ¬ Satisfiable s.asserted ∧ s'.frames = s.frames := by
  rw [check, Prod.mk.injEq] at h
  obtain ⟨hanswer, rfl⟩ := h
  exact ⟨o.complete _ _ hanswer, rfl⟩

open Classical in
/-- The oracle that answers with `m` the check of the given number, if it can. -/
noncomputable def preferring (number : Nat) (m : M) : Oracle M where
  answer n fs :=
    if n = number ∧ Models fs m then some m
    else if h : Satisfiable fs then some h.choose else none
  sound n fs m' h := by
    split at h
    · rename_i hm
      rw [← Option.some.inj h]
      exact hm.2
    · split at h
      · rename_i hsat
        rw [← Option.some.inj h]
        exact hsat.choose_spec
      · exact absurd h (Option.some_ne_none m').symm
  complete n fs h := by
    split at h
    · exact absurd h (Option.some_ne_none m)
    · split at h
      · exact absurd h (Option.some_ne_none _)
      · assumption

theorem check_preferring {m : M} (h : Models s.asserted m) :
    ((preferring s.asked m).check s).1 = some m := by
  simp [check, preferring, h]

end Oracle

end Harc.SolverSession
