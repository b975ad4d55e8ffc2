import Mathlib.Data.Int.Bitwise
import Mathlib.Tactic.Positivity
import Mathlib.Tactic.Ring

/-!
Integers as infinite two's-complement patterns: the bits of a remainder modulo a
power of two, and the range that a pattern with constant high bits lies in.
-/

namespace Harc.TwosComplement

/-- The remainder modulo `2 ^ w` keeps the low `w` bits. -/
theorem testBit_emod_two_pow (z : Int) (w i : Nat) :
    (z % 2 ^ w).toNat.testBit i = (decide (i < w) && z.testBit i) := by
  cases z with
  | ofNat m =>
      have hmod : ((m : Int) % 2 ^ w).toNat = m % 2 ^ w := by
        rw [show (2 : Int) ^ w = ((2 ^ w : Nat) : Int) by push_cast; rfl, ← Int.natCast_mod]
        exact Int.toNat_natCast _
      rw [Int.ofNat_eq_natCast, hmod, Nat.testBit_mod_two_pow]
      rfl
  | negSucc m =>
      have hlt : m % 2 ^ w < 2 ^ w := Nat.mod_lt _ (Nat.two_pow_pos w)
      have hmod : (Int.negSucc m % 2 ^ w).toNat = 2 ^ w - (m % 2 ^ w + 1) := by
        rw [Int.negSucc_emod m (by positivity),
          show (2 : Int) ^ w = ((2 ^ w : Nat) : Int) by push_cast; rfl, ← Int.natCast_mod]
        omega
      rw [hmod, Nat.testBit_two_pow_sub_succ hlt, Nat.testBit_mod_two_pow]
      by_cases hi : i < w <;> simp [hi, Int.testBit]

theorem emod_eq_of_testBit {z z' : Int} {w : Nat}
    (h : ∀ i < w, z.testBit i = z'.testBit i) : z % 2 ^ w = z' % 2 ^ w := by
  have hpos : (0 : Int) < 2 ^ w := by positivity
  have hnat : (z % 2 ^ w).toNat = (z' % 2 ^ w).toNat := by
    refine Nat.eq_of_testBit_eq fun i => ?_
    rw [testBit_emod_two_pow, testBit_emod_two_pow]
    by_cases hi : i < w
    · simp [hi, h i hi]
    · simp [hi]
  have hz := Int.toNat_of_nonneg (Int.emod_nonneg z hpos.ne')
  have hz' := Int.toNat_of_nonneg (Int.emod_nonneg z' hpos.ne')
  omega

/-- The signed range of `k + 1` bits. -/
def InRange (k : Nat) (z : Int) : Prop :=
  -2 ^ k ≤ z ∧ z < 2 ^ k

theorem InRange.mono {k k' : Nat} {z : Int} (h : InRange k z) (hle : k ≤ k') :
    InRange k' z := by
  have hpow : (2 : Int) ^ k ≤ 2 ^ k' := pow_le_pow_right₀ (by omega) hle
  unfold InRange at h ⊢
  omega

/-- The high bits of an integer in range are its sign. -/
theorem InRange.testBit_eq {k : Nat} {z : Int} (h : InRange k z) {i : Nat} (hi : k ≤ i) :
    z.testBit i = decide (z < 0) := by
  obtain ⟨hlow, hhigh⟩ := h
  have hpow : 2 ^ k ≤ 2 ^ i := Nat.pow_le_pow_right (Nat.succ_pos 1) hi
  cases z with
  | ofNat m =>
      have hm : m < 2 ^ k := by
        rw [Int.ofNat_eq_natCast] at hhigh
        exact_mod_cast hhigh
      have hbit : m.testBit i = false := Nat.testBit_lt_two_pow (by omega)
      have hneg : ¬ Int.ofNat m < 0 := by simp
      rw [decide_eq_false hneg]
      exact hbit
  | negSucc m =>
      have hm : m < 2 ^ k := by
        rw [Int.negSucc_eq] at hlow
        have : ((m : Int) + 1) ≤ 2 ^ k := by omega
        exact_mod_cast this
      have hbit : m.testBit i = false := Nat.testBit_lt_two_pow (by omega)
      have hneg : Int.negSucc m < 0 := Int.negSucc_lt_zero m
      rw [decide_eq_true hneg]
      simp [Int.testBit, hbit]

/-- Constant high bits bound an integer. -/
theorem inRange_of_testBit {k : Nat} {z : Int} {b : Bool}
    (h : ∀ i, k ≤ i → z.testBit i = b) : InRange k z := by
  -- a large enough bit shows that `b` is the sign
  have hlarge : ∀ m : Nat, m.testBit (k + m) = false := fun m =>
    Nat.testBit_lt_two_pow (Nat.lt_of_lt_of_le Nat.lt_two_pow_self
      (Nat.pow_le_pow_right (Nat.succ_pos 1) (Nat.le_add_left m k)))
  cases z with
  | ofNat m =>
      have hb : b = false := (h (k + m) (Nat.le_add_right k m)).symm.trans (hlarge m)
      have hm : m < 2 ^ k := Nat.lt_pow_two_of_testBit m fun i hi => by
        have := h i hi
        rwa [hb] at this
      have hm' : (m : Int) < 2 ^ k := by exact_mod_cast hm
      rw [InRange, Int.ofNat_eq_natCast]
      omega
  | negSucc m =>
      have hb : b = true := by
        have := h (k + m) (Nat.le_add_right k m)
        simpa [Int.testBit, hlarge m] using this.symm
      have hm : m < 2 ^ k := Nat.lt_pow_two_of_testBit m fun i hi => by
        have := h i hi
        simpa [Int.testBit, hb] using this
      have hm' : (m : Int) < 2 ^ k := by exact_mod_cast hm
      rw [InRange, Int.negSucc_eq]
      omega

/-- An integer in range is the balanced remainder of its low bits. -/
theorem InRange.bmod_eq {k : Nat} {z : Int} (h : InRange k z) :
    Int.bmod z (2 ^ (k + 1)) = z := by
  obtain ⟨hlow, hhigh⟩ := h
  have hpow : ((2 ^ (k + 1) : Nat) : Int) = 2 * 2 ^ k := by
    push_cast
    ring
  apply Int.bmod_eq_of_le
  · rw [hpow]
    omega
  · rw [hpow]
    omega

/-- A bitwise operation on two integers in range, read off its low bits. -/
theorem bmod_eq_of_bits {k : Nat} {x y z : Int} {g : Bool → Bool → Bool}
    (hx : InRange k x) (hy : InRange k y)
    (hz : ∀ i, z.testBit i = g (x.testBit i) (y.testBit i)) {p : Int}
    (hp : ∀ i, i < k + 1 → p.testBit i = g (x.testBit i) (y.testBit i)) :
    Int.bmod p (2 ^ (k + 1)) = z := by
  have hrange : InRange k z := inRange_of_testBit fun i hi => by
    rw [hz, hx.testBit_eq hi, hy.testBit_eq hi]
  have hmod : p % 2 ^ (k + 1) = z % 2 ^ (k + 1) :=
    emod_eq_of_testBit fun i hi => by rw [hp i hi, hz]
  calc
    Int.bmod p (2 ^ (k + 1)) = Int.bmod (p % (2 ^ (k + 1) : Nat)) (2 ^ (k + 1)) :=
      (Int.emod_bmod p _).symm
    _ = Int.bmod (z % (2 ^ (k + 1) : Nat)) (2 ^ (k + 1)) := by
      push_cast
      rw [hmod]
    _ = Int.bmod z (2 ^ (k + 1)) := Int.emod_bmod z _
    _ = z := hrange.bmod_eq

/-- The bits of the value of a word, with its sign above them. -/
theorem testBit_toInt {w : Nat} (hw : 0 < w) (x : BitVec w) (i : Nat) :
    x.toInt.testBit i = if i < w then x.getLsbD i else x.msb := by
  split_ifs with hi
  · have hmod : (x.toInt % 2 ^ w).toNat = x.toNat := by
      have hpow : (2 : Int) ^ w = ((2 ^ w : Nat) : Int) := by push_cast; rfl
      rw [BitVec.toInt_eq_toNat_bmod, hpow, Int.bmod_emod, ← Int.natCast_mod,
        Nat.mod_eq_of_lt x.isLt]
      exact Int.toNat_natCast _
    have hbits := testBit_emod_two_pow x.toInt w i
    rw [hmod] at hbits
    simpa [hi, BitVec.getLsbD] using hbits.symm
  · have hrange : InRange (w - 1) x.toInt := ⟨BitVec.le_toInt x, BitVec.toInt_lt⟩
    rw [hrange.testBit_eq (by omega), BitVec.msb_eq_toInt]

/-! ### Bitwise operations -/

theorem InRange.land {k : Nat} {x y : Int} (hx : InRange k x) (hy : InRange k y) :
    InRange k (Int.land x y) := inRange_of_testBit fun i hi => by
  rw [Int.testBit_land, hx.testBit_eq hi, hy.testBit_eq hi]

theorem InRange.lor {k : Nat} {x y : Int} (hx : InRange k x) (hy : InRange k y) :
    InRange k (Int.lor x y) := inRange_of_testBit fun i hi => by
  rw [Int.testBit_lor, hx.testBit_eq hi, hy.testBit_eq hi]

theorem InRange.xor {k : Nat} {x y : Int} (hx : InRange k x) (hy : InRange k y) :
    InRange k (Int.xor x y) := inRange_of_testBit fun i hi => by
  rw [Int.testBit_lxor, hx.testBit_eq hi, hy.testBit_eq hi]

/-- An integer that is not negative bounds its conjunctions. -/
theorem land_of_nonneg_left {k : Nat} {x : Int} (y : Int) (hx : 0 ≤ x) (hlt : x < 2 ^ k) :
    0 ≤ Int.land x y ∧ Int.land x y < 2 ^ k := by
  have hpow : (0 : Int) < 2 ^ k := by positivity
  have hrange : InRange k x := ⟨by omega, hlt⟩
  constructor
  · obtain ⟨m, rfl⟩ := Int.eq_ofNat_of_zero_le hx
    cases y <;> exact Int.natCast_nonneg _
  · have hbits : ∀ i, k ≤ i → (Int.land x y).testBit i = false := by
      intro i hi
      rw [Int.testBit_land, hrange.testBit_eq hi, decide_eq_false (Int.not_lt.mpr hx),
        Bool.false_and]
    exact (inRange_of_testBit hbits).2

theorem land_comm (x y : Int) : Int.land x y = Int.land y x := by
  cases x <;> cases y <;> simp [Int.land, Nat.land_comm, Nat.lor_comm]

theorem lor_nonneg {x y : Int} (hx : 0 ≤ x) (hy : 0 ≤ y) : 0 ≤ Int.lor x y := by
  obtain ⟨m, rfl⟩ := Int.eq_ofNat_of_zero_le hx
  obtain ⟨n, rfl⟩ := Int.eq_ofNat_of_zero_le hy
  exact Int.natCast_nonneg _

theorem xor_nonneg {x y : Int} (hx : 0 ≤ x) (hy : 0 ≤ y) : 0 ≤ Int.xor x y := by
  obtain ⟨m, rfl⟩ := Int.eq_ofNat_of_zero_le hx
  obtain ⟨n, rfl⟩ := Int.eq_ofNat_of_zero_le hy
  exact Int.natCast_nonneg _

end Harc.TwosComplement
