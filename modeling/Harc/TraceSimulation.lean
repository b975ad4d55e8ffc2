import Mathlib.Data.List.Basic

/-!
Structured runs and their simulation by a deterministic step machine.  A
structured run yields a trace, a final world and the way it ended.  A machine
simulates a run when it performs the same trace and stops where the run's
outcome says; the number of machine steps is kept, so that the simulation also
covers runs that do not end.
-/

namespace Harc.TraceSimulation

inductive Outcome where
  | normal
  | broke
  | continued
  | returned
  | outOfFuel
deriving DecidableEq, Repr

structure Run (Event World : Type) where
  trace : List Event
  world : World
  outcome : Outcome

variable {Event World C : Type}

/-- Continues a run that ended normally. -/
def Run.andThen (r : Run Event World) (next : World → Run Event World) :
    Run Event World :=
  match r.outcome with
  | .normal => { next r.world with trace := r.trace ++ (next r.world).trace }
  | _ => r

/-- Turns the end of a loop body by `continue` into a normal end. -/
def Run.catchContinue (r : Run Event World) : Run Event World :=
  match r.outcome with
  | .continued => { r with outcome := .normal }
  | _ => r

/-- The loop is left; `iterate` turns this into a normal end. -/
def leave (w : World) : Run Event World :=
  ⟨[], w, .broke⟩

/-- Repeats an iteration until it leaves the loop. -/
def iterate (once : World → Run Event World) : Nat → World → Run Event World
  | 0, w => ⟨[], w, .outOfFuel⟩
  | fuel + 1, w =>
      match (once w).outcome with
      | .normal =>
          let rest := iterate once fuel (once w).world
          { rest with trace := (once w).trace ++ rest.trace }
      | .broke => { once w with outcome := .normal }
      | _ => once w

/-- Execution of a given number of steps. -/
inductive Steps (step : C → Option (List Event × C)) : Nat → C → List Event → C → Prop
  | refl (c : C) : Steps step 0 c [] c
  | head {n : Nat} {c c₁ c₂ : C} {events trace : List Event}
      (hstep : step c = some (events, c₁)) (hrest : Steps step n c₁ trace c₂) :
      Steps step (n + 1) c (events ++ trace) c₂

variable {step : C → Option (List Event × C)}

theorem Steps.one {c c₁ : C} {events : List Event} (hstep : step c = some (events, c₁)) :
    Steps step 1 c events c₁ := by
  simpa using Steps.head hstep (Steps.refl c₁)

theorem Steps.trans {n m : Nat} {c c₁ c₂ : C} {trace trace' : List Event}
    (hfirst : Steps step n c trace c₁) (hsecond : Steps step m c₁ trace' c₂) :
    Steps step (n + m) c (trace ++ trace') c₂ := by
  induction hfirst with
  | refl => simpa using hsecond
  | @head n _ _ _ events trace hstep _ ih =>
      rw [List.append_assoc, Nat.add_right_comm]
      exact .head hstep (ih hsecond)

/-- The shorter of two executions from one configuration is a prefix of the
longer one. -/
theorem Steps.prefix_of_le {n m : Nat} {c c₁ c₂ : C} {trace trace' : List Event}
    (hshort : Steps step n c trace c₁) (hlong : Steps step m c trace' c₂) (hle : n ≤ m) :
    ∃ rest, trace' = trace ++ rest ∧ Steps step (m - n) c₁ rest c₂ := by
  induction hshort generalizing m trace' with
  | refl => exact ⟨trace', rfl, by simpa using hlong⟩
  | @head n _ _ _ events trace hstep _ ih =>
      cases hlong with
      | refl => omega
      | @head m _ _ _ _ trace₁ hstep' hrest' =>
          rw [hstep] at hstep'
          simp only [Option.some.injEq, Prod.mk.injEq] at hstep'
          obtain ⟨rfl, rfl⟩ := hstep'
          obtain ⟨rest, htrace, hrest⟩ := ih hrest' (by omega)
          refine ⟨rest, by rw [htrace, List.append_assoc], ?_⟩
          rwa [Nat.add_sub_add_right]

theorem Steps.eq_of_stuck {n : Nat} {c c' : C} {trace : List Event}
    (hsteps : Steps step n c trace c') (hstuck : step c = none) :
    n = 0 ∧ trace = [] ∧ c' = c := by
  cases hsteps with
  | refl => exact ⟨rfl, rfl, rfl⟩
  | head hstep _ => simp [hstuck] at hstep

/-- Two executions that cannot go on are the same. -/
theorem Steps.unique_of_stuck {n m : Nat} {c c₁ c₂ : C} {trace trace' : List Event}
    (hrun : Steps step n c trace c₁) (hrun' : Steps step m c trace' c₂)
    (hstuck : step c₁ = none) (hstuck' : step c₂ = none) :
    trace = trace' ∧ c₁ = c₂ := by
  rcases Nat.le_total n m with hle | hle
  · obtain ⟨rest, htrace, hrest⟩ := hrun.prefix_of_le hrun' hle
    obtain ⟨_, rfl, rfl⟩ := hrest.eq_of_stuck hstuck
    exact ⟨by simpa using htrace.symm, rfl⟩
  · obtain ⟨rest, htrace, hrest⟩ := hrun'.prefix_of_le hrun hle
    obtain ⟨_, rfl, rfl⟩ := hrest.eq_of_stuck hstuck'
    exact ⟨by simpa using htrace, rfl⟩

theorem Steps.invariant {inv : C → Prop}
    (hinv : ∀ c c' events, inv c → step c = some (events, c') → inv c')
    {n : Nat} {c c' : C} {trace : List Event} (hsteps : Steps step n c trace c') (hc : inv c) :
    inv c' := by
  induction hsteps with
  | refl c => exact hc
  | head hstep _ ih => exact ih (hinv _ _ _ hc hstep)

/-- A map of configurations that commutes with the steps carries executions to
executions, and every execution from a mapped configuration is of this kind. -/
theorem Steps.map_iff {D : Type} {step' : D → Option (List Event × D)} {f : C → D}
    {inv : C → Prop}
    (hcommutes : ∀ c, inv c → step' (f c) = (step c).map fun (events, c') => (events, f c'))
    (hinv : ∀ c c' events, inv c → step c = some (events, c') → inv c')
    {n : Nat} {c : C} {d : D} {trace : List Event} (hc : inv c) :
    Steps step' n (f c) trace d ↔ ∃ c', d = f c' ∧ Steps step n c trace c' := by
  constructor
  · intro hsteps
    induction n generalizing c trace with
    | zero =>
        cases hsteps
        exact ⟨c, rfl, .refl c⟩
    | succ n ih =>
        cases hsteps with
        | head hstep hrest =>
            rw [hcommutes c hc] at hstep
            obtain ⟨⟨_, c₁⟩, hstep₁, heq⟩ := Option.map_eq_some_iff.mp hstep
            cases heq
            obtain ⟨c', rfl, hsteps'⟩ := ih (hinv c c₁ _ hc hstep₁) hrest
            exact ⟨c', rfl, .head hstep₁ hsteps'⟩
  · rintro ⟨c', rfl, hsteps⟩
    induction hsteps with
    | refl c => exact .refl (f c)
    | @head _ c c₁ _ events _ hstep _ ih =>
        refine .head ?_ (ih (hinv c c₁ events hc hstep))
        rw [hcommutes c hc, hstep]
        rfl

/-- Where a run may end: by its outcome, the number of machine steps, the final
world and the configuration. -/
abbrev Exits (World C : Type) := Outcome → Nat → World → C → Prop

/-- More steps never leave the exits. -/
def Exits.Mono (exits : Exits World C) : Prop :=
  ∀ o n m w c, exits o n w c → exits o (m + n) w c

/-- From the configurations `start w`, the machine performs the traces of `run`
and ends in `exits`. -/
def Sim (step : C → Option (List Event × C)) (start : World → C) (exits : Exits World C)
    (run : World → Run Event World) : Prop :=
  ∀ w, ∃ n c, Steps step n (start w) (run w).trace c ∧
    exits (run w).outcome n (run w).world c

theorem Sim.weaken {start : World → C} {exits exits' : Exits World C}
    {run : World → Run Event World} (hsim : Sim step start exits run)
    (hexits : ∀ o n w c, exits o n w c → exits' o n w c) : Sim step start exits' run := by
  intro w
  obtain ⟨n, c, hsteps, hexit⟩ := hsim w
  exact ⟨n, c, hsteps, hexits _ _ _ _ hexit⟩

theorem Sim.nil {start : World → C} {exits : Exits World C} {o : Outcome}
    (hexit : ∀ w, exits o 0 w (start w)) :
    Sim step start exits (fun w => ⟨[], w, o⟩ : World → Run Event World) := by
  intro w
  exact ⟨0, start w, .refl _, hexit w⟩

/-- A silent step before a run. -/
theorem Sim.silent {start next : World → C} {exits : Exits World C} (hmono : exits.Mono)
    {run : World → Run Event World} (hstep : ∀ w, step (start w) = some ([], next w))
    (hsim : Sim step next exits run) : Sim step start exits run := by
  intro w
  obtain ⟨n, c, hsteps, hexit⟩ := hsim w
  refine ⟨1 + n, c, ?_, hmono _ _ _ _ _ hexit⟩
  simpa using (Steps.one (hstep w)).trans hsteps

theorem Sim.andThen {start : World → C} (mid : World → C) {exits exits' : Exits World C}
    (hmono : exits.Mono) {run next : World → Run Event World}
    (hsim : Sim step start exits' run)
    (hnormal : ∀ n w c, exits' .normal n w c → c = mid w ∧ Sim step mid exits next)
    (hother : ∀ o n w c, o ≠ .normal → exits' o n w c → exits o n w c) :
    Sim step start exits fun w => (run w).andThen next := by
  intro w
  obtain ⟨n, c, hsteps, hexit⟩ := hsim w
  by_cases ho : (run w).outcome = .normal
  · rw [ho] at hexit
    obtain ⟨rfl, hnext⟩ := hnormal _ _ _ hexit
    obtain ⟨m, c', hsteps', hexit'⟩ := hnext (run w).world
    refine ⟨n + m, c', ?_, ?_⟩
    · simpa [Run.andThen, ho] using hsteps.trans hsteps'
    · simpa [Run.andThen, ho] using hmono _ _ _ _ _ hexit'
  · have heq : (run w).andThen next = run w := by
      simp only [Run.andThen]
    change ∃ n c, Steps step n (start w) ((run w).andThen next).trace c ∧
      exits ((run w).andThen next).outcome n ((run w).andThen next).world c
    rw [heq]
    exact ⟨n, c, hsteps, hother _ _ _ _ ho hexit⟩

/-- A loop: an iteration that ends normally comes back to the start in at least
one step, and one that leaves the loop ends at its exit. -/
theorem Sim.iterate {start : World → C} {exits body : Exits World C} (hmono : exits.Mono)
    {once : World → Run Event World} (hsim : Sim step start body once)
    (hback : ∀ n w c, body .normal n w c → 0 < n ∧ c = start w)
    (hleave : ∀ n w c, body .broke n w c → exits .normal n w c)
    (hother : ∀ o n w c, o ≠ .normal → o ≠ .broke → body o n w c → exits o n w c)
    (fuel : Nat) (hfuel : ∀ n w c, fuel ≤ n → exits .outOfFuel n w c) :
    Sim step start exits (iterate once fuel) := by
  have hcount : ∀ k w, ∃ n c,
      Steps step n (start w) (TraceSimulation.iterate once k w).trace c ∧
        ((TraceSimulation.iterate once k w).outcome = .outOfFuel ∧ k ≤ n ∨
          exits (TraceSimulation.iterate once k w).outcome n
            (TraceSimulation.iterate once k w).world c) := by
    intro k
    induction k with
    | zero =>
        intro w
        exact ⟨0, start w, .refl _, .inl ⟨rfl, Nat.le_refl 0⟩⟩
    | succ k ih =>
        intro w
        obtain ⟨n, c, hsteps, hexit⟩ := hsim w
        by_cases hnormal : (once w).outcome = .normal
        · rw [hnormal] at hexit
          obtain ⟨hpos, rfl⟩ := hback _ _ _ hexit
          obtain ⟨m, c', hsteps', hrest⟩ := ih (once w).world
          refine ⟨n + m, c', ?_, ?_⟩
          · simpa [TraceSimulation.iterate, hnormal] using hsteps.trans hsteps'
          · rcases hrest with ⟨hout, hle⟩ | hrest
            · exact .inl ⟨by simpa [TraceSimulation.iterate, hnormal] using hout, by omega⟩
            · right
              simpa [TraceSimulation.iterate, hnormal] using hmono _ _ _ _ _ hrest
        · by_cases hbroke : (once w).outcome = .broke
          · rw [hbroke] at hexit
            refine ⟨n, c, ?_, .inr ?_⟩
            · simpa [TraceSimulation.iterate, hbroke] using hsteps
            · simpa [TraceSimulation.iterate, hbroke] using hleave _ _ _ hexit
          · have heq : TraceSimulation.iterate once (k + 1) w = once w := by
              simp only [TraceSimulation.iterate]
            rw [heq]
            exact ⟨n, c, hsteps, .inr (hother _ _ _ _ hnormal hbroke hexit)⟩
  intro w
  obtain ⟨n, c, hsteps, ⟨hout, hle⟩ | hexit⟩ := hcount fuel w
  · exact ⟨n, c, hsteps, by rw [hout]; exact hfuel _ _ _ hle⟩
  · exact ⟨n, c, hsteps, hexit⟩

theorem Sim.catchContinue {start : World → C} {exits body : Exits World C}
    {run : World → Run Event World} (hsim : Sim step start body run)
    (hcontinue : ∀ n w c, body .continued n w c → exits .normal n w c)
    (hother : ∀ o n w c, o ≠ .continued → body o n w c → exits o n w c) :
    Sim step start exits fun w => (run w).catchContinue := by
  intro w
  obtain ⟨n, c, hsteps, hexit⟩ := hsim w
  by_cases ho : (run w).outcome = .continued
  · rw [ho] at hexit
    refine ⟨n, c, ?_, ?_⟩
    · simpa [Run.catchContinue, ho] using hsteps
    · simpa [Run.catchContinue, ho] using hcontinue _ _ _ hexit
  · have heq : (run w).catchContinue = run w := by
      simp only [Run.catchContinue]
    change ∃ n c, Steps step n (start w) (run w).catchContinue.trace c ∧
      exits (run w).catchContinue.outcome n (run w).catchContinue.world c
    rw [heq]
    exact ⟨n, c, hsteps, hother _ _ _ _ ho hexit⟩

end Harc.TraceSimulation
