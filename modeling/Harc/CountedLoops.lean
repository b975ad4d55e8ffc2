import Harc.StructuredControl

/-!
Rules for counted loops: a loop whose head and latch are known along the values of its counter
runs its body once for each of them.  The world and the meaning of statements are arbitrary.
-/

namespace Harc.CountedLoops

open Harc.TraceSimulation
open Harc.StructuredControl

variable {Stmt Expr World : Type}

/-- The integers from `lo` to `hi`, both included, in increasing order. -/
def integers (lo hi : Int) : List Int :=
  (List.range (hi + 1 - lo).toNat).map fun k : Nat => lo + k

theorem integers_of_lt {lo hi : Int} (h : hi < lo) : integers lo hi = [] := by
  have hzero : (hi + 1 - lo).toNat = 0 := by omega
  rw [integers, hzero]
  rfl

theorem integers_cons {lo hi : Int} (h : lo ≤ hi) :
    integers lo hi = lo :: integers (lo + 1) hi := by
  obtain ⟨n, hn⟩ : ∃ n : Nat, hi = lo + n := ⟨(hi - lo).toNat, by omega⟩
  have hsucc : (hi + 1 - lo).toNat = n + 1 := by omega
  have hpred : (hi + 1 - (lo + 1)).toNat = n := by omega
  rw [integers, integers, hsucc, hpred, List.range_succ_eq_map, List.map_cons, List.map_map]
  refine List.cons_eq_cons.mpr ⟨by simp, List.map_congr_left fun k _ => ?_⟩
  simp only [Function.comp_apply]
  omega

theorem mem_integers {lo hi i : Int} : i ∈ integers lo hi ↔ lo ≤ i ∧ i ≤ hi := by
  simp only [integers, List.mem_map, List.mem_range]
  constructor
  · rintro ⟨k, hk, rfl⟩
    omega
  · rintro ⟨hlo, hhi⟩
    exact ⟨(i - lo).toNat, by omega, by omega⟩

/-- Runs the body once with the counter at each of the values. -/
def visit (set : World → Int → World) (body : World → World) : List Int → World → World
  | [], w => w
  | i :: is, w => visit set body is (body (set w i))

section Loop

variable (M : Machine Stmt Expr World) (header : Expr) (latch : Latch Stmt Expr)
  (body : World → EventRun Stmt Expr World)

/-- One round of a counted loop. -/
def round : World → EventRun Stmt Expr World :=
  M.test header (fun w => (body w).catchContinue.andThen (M.runLatch latch)) leave

/-- The loop of a counted statement after its initialization. -/
def loopRun (fuel : Nat) : World → EventRun Stmt Expr World :=
  iterate (round M header latch body) fuel

theorem runPlan_counted (fuel : Nat) (init : List (Action Stmt Expr))
    (block : PlanBlock Stmt Expr) (w : World) :
    M.runPlan fuel (.counted init header latch block) w =
      (M.runActions init w).andThen (loopRun M header latch (M.runBlock fuel block) fuel) :=
  rfl

variable {M header latch body}

/-- The body ends at its end or by `continue`. -/
def Completes (r : EventRun Stmt Expr World) : Prop :=
  r.outcome = .normal ∨ r.outcome = .continued

theorem round_of_true (latch : Latch Stmt Expr) {w : World} (hheader : M.truth header w = true)
    (hbody : Completes (body w)) :
    (round M header latch body w).outcome = (M.runLatch latch (body w).world).outcome ∧
      (round M header latch body w).world = (M.runLatch latch (body w).world).world := by
  have hcatch : (body w).catchContinue.outcome = .normal ∧
      (body w).catchContinue.world = (body w).world := by
    rcases hbody with h | h <;> simp [Run.catchContinue, h]
  simp [round, Machine.test, hheader, Run.andThen, hcatch.1, hcatch.2]

theorem loopRun_of_false (latch : Latch Stmt Expr) (body : World → EventRun Stmt Expr World)
    {fuel : Nat} {w : World} (hfuel : 0 < fuel)
    (hheader : M.truth header w = false) :
    (loopRun M header latch body fuel w).outcome = .normal ∧
      (loopRun M header latch body fuel w).world = w := by
  obtain ⟨fuel, rfl⟩ := Nat.exists_eq_add_of_lt hfuel
  simp [loopRun, iterate, round, Machine.test, hheader, leave]

theorem loopRun_of_broke {fuel : Nat} {w : World} (hfuel : 0 < fuel)
    (h : (round M header latch body w).outcome = .broke) :
    (loopRun M header latch body fuel w).outcome = .normal ∧
      (loopRun M header latch body fuel w).world = (round M header latch body w).world := by
  obtain ⟨fuel, rfl⟩ := Nat.exists_eq_add_of_lt hfuel
  simp [loopRun, iterate, h]

theorem loopRun_of_normal (fuel : Nat) {w : World}
    (h : (round M header latch body w).outcome = .normal) :
    (loopRun M header latch body (fuel + 1) w).outcome =
        (loopRun M header latch body fuel (round M header latch body w).world).outcome ∧
      (loopRun M header latch body (fuel + 1) w).world =
        (loopRun M header latch body fuel (round M header latch body w).world).world := by
  simp [loopRun, iterate, h]

/-- What every round keeps holds after the loop. -/
theorem loopRun_invariant {P : World → Prop}
    (hround : ∀ w, P w → P (round M header latch body w).world) (fuel : Nat) {w : World}
    (hw : P w) : P (loopRun M header latch body fuel w).world := by
  induction fuel generalizing w with
  | zero => exact hw
  | succ fuel ih =>
      rw [loopRun, iterate]
      cases (round M header latch body w).outcome with
      | normal => exact ih (hround w hw)
      | _ => exact hround w hw

variable {At : Int → World → Prop} {set : World → Int → World} {last : World → World}
  {lo top : Int}

/-- A loop that leaves in the latch of its last round. -/
theorem loopRun_visits (hset : ∀ i w, At i w → set w i = w)
    (hbody : ∀ i w, At i w → Completes (body w) ∧ At i (body w).world)
    (hheader : ∀ i w, lo ≤ i → i ≤ top → At i w → M.truth header w = true)
    (hstep : ∀ i w, lo ≤ i → i < top → At i w → (M.runLatch latch w).outcome = .normal ∧
      (M.runLatch latch w).world = set w (i + 1) ∧ At (i + 1) (set w (i + 1)))
    (hlast : ∀ w, At top w → (M.runLatch latch w).outcome = .broke ∧
      (M.runLatch latch w).world = last w)
    (n : Nat) : ∀ i w, lo ≤ i → i + n = top → At i w → ∀ fuel, n < fuel →
      (loopRun M header latch body fuel w).outcome = .normal ∧
        (loopRun M header latch body fuel w).world =
          last (visit set (fun w => (body w).world) (integers i top) w) := by
  induction n with
  | zero =>
      intro i w hi htop hat fuel hfuel
      obtain rfl : i = top := by omega
      obtain ⟨hcompletes, hafter⟩ := hbody i w hat
      obtain ⟨houtcome, hworld⟩ :=
        round_of_true latch (hheader i w hi (Int.le_refl i) hat) hcompletes
      obtain ⟨hbroke, hlast⟩ := hlast _ hafter
      have hloop := loopRun_of_broke hfuel (houtcome.trans hbroke)
      refine ⟨hloop.1, ?_⟩
      rw [hloop.2, hworld, hlast, integers_cons (Int.le_refl i),
        integers_of_lt (Int.lt_add_one_of_le (Int.le_refl i)), visit, visit, hset i w hat]
  | succ n ih =>
      intro i w hi htop hat fuel hfuel
      obtain ⟨fuel, rfl⟩ : ∃ k, fuel = k + 1 := ⟨fuel - 1, by omega⟩
      have hlt : i < top := by omega
      obtain ⟨hcompletes, hafter⟩ := hbody i w hat
      obtain ⟨houtcome, hworld⟩ :=
        round_of_true latch (hheader i w hi (Int.le_of_lt hlt) hat) hcompletes
      obtain ⟨hnormal, hnext, hat'⟩ := hstep i _ hi hlt hafter
      have hloop := loopRun_of_normal fuel (houtcome.trans hnormal)
      rw [hworld, hnext] at hloop
      obtain ⟨hend, hvisits⟩ := ih (i + 1) _ (by omega) (by omega) hat' fuel (by omega)
      refine ⟨hloop.1.trans hend, ?_⟩
      rw [hloop.2, hvisits, integers_cons (Int.le_of_lt hlt), visit, hset i w hat,
        integers_cons (by omega : i + 1 ≤ top), visit, visit, hset (i + 1) _ hat']

/-- A loop that leaves at its head, after a step in every round. -/
theorem loopRun_counts (hset : ∀ i w, At i w → set w i = w)
    (hbody : ∀ i w, At i w → Completes (body w) ∧ At i (body w).world)
    (hheader : ∀ i w, lo ≤ i → i ≤ top → At i w → M.truth header w = decide (i < top))
    (hstep : ∀ i w, lo ≤ i → i < top → At i w → (M.runLatch latch w).outcome = .normal ∧
      (M.runLatch latch w).world = set w (i + 1) ∧ At (i + 1) (set w (i + 1)))
    (hkeep : ∀ i j w, set (set w i) j = set w j)
    (n : Nat) : ∀ i w, lo ≤ i → i + n = top → At i w → ∀ fuel, n < fuel →
      (loopRun M header latch body fuel w).outcome = .normal ∧
        (loopRun M header latch body fuel w).world =
          set (visit set (fun w => (body w).world) (integers i (top - 1)) w) top := by
  induction n with
  | zero =>
      intro i w hi htop hat fuel hfuel
      obtain rfl : i = top := by omega
      have hfalse : M.truth header w = false := by
        rw [hheader i w hi (Int.le_refl i) hat]
        simp
      have hloop := loopRun_of_false latch body hfuel hfalse
      refine ⟨hloop.1, ?_⟩
      rw [hloop.2, integers_of_lt (by omega), visit, hset i w hat]
  | succ n ih =>
      intro i w hi htop hat fuel hfuel
      obtain ⟨fuel, rfl⟩ : ∃ k, fuel = k + 1 := ⟨fuel - 1, by omega⟩
      have hlt : i < top := by omega
      obtain ⟨hcompletes, hafter⟩ := hbody i w hat
      have htrue : M.truth header w = true := by
        rw [hheader i w hi (Int.le_of_lt hlt) hat]
        simp [hlt]
      obtain ⟨houtcome, hworld⟩ := round_of_true latch htrue hcompletes
      obtain ⟨hnormal, hnext, hat'⟩ := hstep i _ hi hlt hafter
      have hloop := loopRun_of_normal fuel (houtcome.trans hnormal)
      rw [hworld, hnext] at hloop
      obtain ⟨hend, hvisits⟩ := ih (i + 1) _ (by omega) (by omega) hat' fuel (by omega)
      refine ⟨hloop.1.trans hend, ?_⟩
      rw [hloop.2, hvisits, integers_cons (by omega : i ≤ top - 1), visit, hset i w hat]
      rcases Int.lt_or_le (top - 1) (i + 1) with hempty | hmore
      · rw [integers_of_lt hempty, visit, visit, hkeep]
      · rw [integers_cons hmore, visit, visit, hset (i + 1) _ hat']

end Loop

end Harc.CountedLoops
