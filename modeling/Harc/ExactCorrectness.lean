import Harc.ExactArithmetic

/-!
What the integers of constant evaluation compute.  Operations that count bits
are exact as long as the counts fit in 32 bits; the others always are.
-/

namespace Harc.ExactCorrectness

open Harc.WordLists
open Harc.ExactMagnitude
open Harc.ExactArithmetic
open Harc.ExactArithmetic.ExactInt

/-- Each constructor yields the integer it is given. -/
structure ConstructorsExact : Prop where
  fromU128 : ∀ v, (fromU128 v).toInt = v.toNat
  fromI128 : ∀ v, (fromI128 v).toInt = v.toInt
  fromBits : ∀ bits signed,
    (fromBits bits signed).toInt = if signed then bits.toInt else bits.toNat
  fromWords : ∀ words, (fromWords words).toInt = value words
  pow2 : ∀ n, (pow2 n).toInt = 2 ^ n.toNat

/-- The operations that do not count bits. -/
structure OperationsExact (x y : ExactInt) (n : U32) : Prop where
  isZero : x.isZero = true ↔ x.toInt = 0
  isNegative : x.isNegative = true ↔ x.toInt < 0
  neg : x.neg.toInt = -x.toInt
  add : (x.add y).toInt = x.toInt + y.toInt
  sub : (x.sub y).toInt = x.toInt - y.toInt
  mul : (x.mul y).toInt = x.toInt * y.toInt
  divZero : y.toInt = 0 → x.divRem y = none
  shl : (x.shl n).toInt = x.toInt * 2 ^ n.toNat
  shr : (x.shr n).toInt = x.toInt / 2 ^ n.toNat
  not : x.not.toInt = Int.lnot x.toInt
  cmp : x.cmp y = compare x.toInt y.toInt
  modPow2 : (x.modPow2 n).toInt = x.toInt % 2 ^ n.toNat
  sext : (x.sext n).toInt = Int.bmod x.toInt (2 ^ n.toNat)
  normalize : ∀ signed, (x.normalize n signed).toInt =
    if signed then Int.bmod x.toInt (2 ^ n.toNat) else x.toInt % 2 ^ n.toNat
  fits : ∀ signed, x.fits n signed = true ↔
    (if signed then Int.bmod x.toInt (2 ^ n.toNat) else x.toInt % 2 ^ n.toNat) = x.toInt
  lowU64 : (x.lowU64.toNat : Int) = x.toInt % 2 ^ 64
  patternWords : (x.patternWords n).length = (n.toNat + 31) / 32 ∧
    value (x.patternWords n) = (x.toInt % 2 ^ n.toNat).toNat

/-- The operations that count the bits of `x`. -/
structure CountingExact (x y : ExactInt) : Prop where
  magnitudeBits : x.magnitudeBits.toNat = Nat.size x.toInt.natAbs
  divRem : y.toInt ≠ 0 → ∃ q r, x.divRem y = some (q, r) ∧
    q.toInt = x.toInt.tdiv y.toInt ∧ r.toInt = x.toInt.tmod y.toInt
  toI128 : x.toI128 = if -2 ^ 127 ≤ x.toInt ∧ x.toInt < 2 ^ 127 then
    some (BitVec.ofInt 128 x.toInt) else none
  fitsI64 : x.fitsI64 = true ↔ -2 ^ 63 ≤ x.toInt ∧ x.toInt < 2 ^ 63
  fitsU64 : x.fitsU64 = true ↔ 0 ≤ x.toInt ∧ x.toInt < 2 ^ 64
  toU32 : x.toU32 = if 0 ≤ x.toInt ∧ x.toInt < 2 ^ 32 then
    some (BitVec.ofInt 32 x.toInt) else none

structure BitwiseExact (x y : ExactInt) : Prop where
  and : (x.and y).toInt = Int.land x.toInt y.toInt
  or : (x.or y).toInt = Int.lor x.toInt y.toInt
  xor : (x.xor y).toInt = Int.xor x.toInt y.toInt

theorem constructors_exact : ConstructorsExact where
  fromU128 := toInt_fromU128
  fromI128 := toInt_fromI128
  fromBits := toInt_fromBits
  fromWords := toInt_fromWords
  pow2 := toInt_pow2

theorem operations_exact (x y : ExactInt) (n : U32) : OperationsExact x y n where
  isZero := isZero_iff x
  isNegative := (toInt_neg_iff x).symm
  neg := toInt_neg x
  add := toInt_add x y
  sub := toInt_sub x y
  mul := toInt_mul x y
  divZero := divRem_eq_none
  shl := toInt_shl x n
  shr := toInt_shr x n
  not := toInt_not x
  cmp := cmp_eq x y
  modPow2 := toInt_modPow2 x n
  sext := toInt_sext x n
  normalize := toInt_normalize x n
  fits := fits_iff x n
  lowU64 := toNat_lowU64 x
  patternWords := ⟨length_patternWords x n, value_patternWords x n⟩

theorem counting_exact {x : ExactInt} (y : ExactInt)
    (hx : Nat.size x.toInt.natAbs < 2 ^ 32) : CountingExact x y where
  magnitudeBits := by rw [toNat_magnitudeBits, Nat.mod_eq_of_lt hx]
  divRem := fun hy => divRem_eq hy hx
  toI128 := toI128_eq hx
  fitsI64 := fitsI64_iff hx
  fitsU64 := fitsU64_iff hx
  toU32 := toU32_eq hx

/-- The arithmetic is exact, and representations are normal forms, so that they
are equal exactly when the integers are. -/
theorem exactInt_exact (x y : ExactInt) (n : U32) :
    (Trimmed x.mag ∧ (x.toInt = 0 → x.negative = false)) ∧
    (x = y ↔ x.toInt = y.toInt) ∧
    ConstructorsExact ∧ OperationsExact x y n ∧
    (Nat.size x.toInt.natAbs < 2 ^ 32 → CountingExact x y) ∧
    (literalBits x.toInt < 2 ^ 32 → x.literalWidth.toNat = literalBits x.toInt) ∧
    (BitwiseFits x y → BitwiseExact x y) := by
  refine ⟨⟨x.trimmed, fun hzero => ?_⟩, ⟨congrArg toInt, toInt_injective⟩, constructors_exact,
    operations_exact x y n, counting_exact y, toNat_literalWidth, ?_⟩
  · rw [Bool.eq_false_iff, Ne, ← toInt_neg_iff, hzero]
    exact Int.lt_irrefl 0
  · intro hfits
    exact ⟨toInt_and hfits, toInt_or hfits, toInt_xor hfits⟩

theorem exactInt_exact_minusSeven :
    CountingExact (fromI128 (-7)) (fromI128 2) ∧
      BitwiseExact (fromI128 (-7)) (fromI128 2) := by
  have hx : (fromI128 (-7)).toInt = -7 := toInt_fromI128 _
  have hy : (fromI128 2).toInt = 2 := toInt_fromI128 _
  obtain ⟨_, _, _, _, hcounting, _, hbitwise⟩ :=
    exactInt_exact (fromI128 (-7)) (fromI128 2) 0
  refine ⟨hcounting ?_, hbitwise ⟨?_, ?_⟩⟩
  · rw [hx]
    decide
  · rw [hx]
    decide
  · rw [hy]
    decide

/-- A one behind `n` zero limbs. -/
def shiftedOne (n : Nat) : List U32 :=
  List.replicate n 0#32 ++ [1#32]

theorem shiftedOne_trimmed (n : Nat) : Trimmed (shiftedOne n) := by
  rw [shiftedOne, trimmed_concat]
  decide

theorem value_shiftedOne (n : Nat) : value (shiftedOne n) = 2 ^ (32 * n) := by
  rw [shiftedOne, value_concat, value_replicate_zero, List.length_replicate]
  simp

/-- When the bit count wraps to one, the division looks at the lowest bit only. -/
theorem magDivrem_shiftedOne {n : Nat} {b : List U32} (hb : Trimmed b) (hbpos : 0 < value b)
    (hle : value b ≤ 2 ^ (32 * n)) (hpos : 0 < n) (hwrap : (32 * n + 1) % 2 ^ 32 = 1) :
    value (magDivrem (shiftedOne n) b).1 = 0 ∧ value (magDivrem (shiftedOne n) b).2 = 0 := by
  have hcmp : magCmp (shiftedOne n) b ≠ .lt := by
    rw [magCmp_eq (shiftedOne_trimmed n) hb, Ne, Nat.compare_eq_lt, value_shiftedOne]
    omega
  have hlen : (magBitLen (shiftedOne n)).toNat = 1 := by
    rw [toNat_magBitLen (shiftedOne_trimmed n), shiftedOne, size_value_concat (by decide),
      List.length_replicate]
    exact hwrap
  have heven : value (shiftedOne n) % 2 ^ 1 = 0 := by
    obtain ⟨k, hk⟩ : ∃ k, 32 * n = k + 1 := ⟨32 * n - 1, by omega⟩
    rw [value_shiftedOne, hk, pow_succ, pow_one]
    exact Nat.mul_mod_left _ _
  obtain ⟨_, hquot, hrem⟩ := magDivremLoop_spec (a := shiftedOne n) hb hbpos 1
    (List.replicate (shiftedOne n).length 0#32) [] trimmed_nil
    (by simpa using hbpos) (by simp) (by simp [shiftedOne]; omega)
  rw [heven] at hquot hrem
  simp only [magDivrem, hcmp, if_false, hlen, value_trim]
  exact ⟨by simpa using hquot, by simpa using hrem⟩

theorem divRem_shiftedOne {n : Nat} (hpos : 0 < n) (hwrap : (32 * n + 1) % 2 ^ 32 = 1) :
    ∃ q r, (fromWords (shiftedOne n)).divRem (fromU128 1) = some (q, r) ∧
      q.toInt ≠ (fromWords (shiftedOne n)).toInt.tdiv (fromU128 1).toInt := by
  have hone : (fromU128 1).mag = [1#32] := by decide
  have hmag : (fromWords (shiftedOne n)).mag = shiftedOne n := trim_eq_self (shiftedOne_trimmed n)
  refine ⟨fromParts ((fromWords (shiftedOne n)).negative != (fromU128 1).negative)
    (magDivrem (shiftedOne n) [1#32]).1,
    fromParts (fromWords (shiftedOne n)).negative (magDivrem (shiftedOne n) [1#32]).2, ?_, ?_⟩
  · rw [divRem, isZero, hone, hmag]
    rfl
  · have hne : ((2 ^ (32 * n) : Nat) : Int) ≠ 0 :=
      Int.natCast_ne_zero.mpr (Nat.two_pow_pos _).ne'
    have honeInt : (fromU128 1).toInt = 1 := toInt_fromU128 1
    have hdiv := magDivrem_shiftedOne (b := [1#32]) (by simp [Trimmed]) (by simp)
      (by simpa using Nat.one_le_two_pow) hpos hwrap
    rw [toInt_fromParts, hdiv.1, honeInt, toInt_fromWords, value_shiftedOne, Int.tdiv_one]
    intro heq
    refine hne (heq.symm.trans ?_)
    split <;> rfl

/-- Division of a number with `2 ^ 27` zero limbs below its one. -/
theorem divRem_wraps :
    ∃ q r, (fromWords (shiftedOne (2 ^ 27))).divRem (fromU128 1) = some (q, r) ∧
      q.toInt ≠ (fromWords (shiftedOne (2 ^ 27))).toInt.tdiv (fromU128 1).toInt :=
  divRem_shiftedOne (by decide) (by decide)

end Harc.ExactCorrectness
