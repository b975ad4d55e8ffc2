import Harc.ExactMagnitude
import Harc.TwosComplement
import Mathlib.Data.Int.ModEq

/-!
Arbitrary-precision integers for constant evaluation: a sign and a magnitude.
-/

namespace Harc.ExactArithmetic

open Harc.WordLists
open Harc.ExactMagnitude
open Harc.TwosComplement

/-- A sign and a magnitude without leading zero limbs; zero is not negative. -/
structure ExactInt where
  negative : Bool
  mag : List U32
  trimmed : Trimmed mag
  sign : negative = true → mag ≠ []
deriving DecidableEq

namespace ExactInt

def fromParts (negative : Bool) (mag : List U32) : ExactInt where
  negative := negative && !(trim mag).isEmpty
  mag := trim mag
  trimmed := trim_trimmed mag
  sign := by
    intro h hnil
    simp [hnil] at h

def fromU128 (v : U128) : ExactInt :=
  fromParts false ((List.range 4).map fun i => (v >>> (32 * i)).setWidth 32)

theorem value_fromU128 (v : U128) : value (fromU128 v).mag = v.toNat := by
  have hwords : (fun i => (v >>> (32 * i)).setWidth 32) =
      fun i => BitVec.ofNat 32 (v.toNat / 2 ^ (32 * i)) := by
    funext i
    rw [← BitVec.toNat_inj, BitVec.toNat_setWidth, BitVec.toNat_ushiftRight,
      Nat.shiftRight_eq_div_pow, BitVec.toNat_ofNat]
  rw [fromU128, fromParts, value_trim, hwords, value_map_range]
  exact Nat.mod_eq_of_lt v.isLt

theorem toNat_abs (v : U128) : v.abs.toNat = v.toInt.natAbs := by
  have hv := v.isLt
  rw [BitVec.toNat_abs, BitVec.toInt_eq_msb_cond]
  split <;> omega

/-- `v` is read as a signed number; `abs` is its `unsigned_abs`. -/
def fromI128 (v : U128) : ExactInt :=
  { fromU128 v.abs with
    negative := v.slt 0
    sign := by
      intro hneg hnil
      have hvalue := value_fromU128 v.abs
      rw [hnil, toNat_abs] at hvalue
      rw [BitVec.slt_iff_toInt_lt] at hneg
      simp at hvalue hneg
      omega }

/-- A 64-bit carrier pattern read as signed or unsigned. -/
def fromBits (bits : U64) (signed : Bool) : ExactInt :=
  if signed then fromI128 (bits.signExtend 128) else fromU128 (bits.setWidth 128)

def fromWords (words : List U32) : ExactInt :=
  fromParts false words

def isZero (x : ExactInt) : Bool :=
  x.mag.isEmpty

def isNegative (x : ExactInt) : Bool :=
  x.negative

def magnitudeBits (x : ExactInt) : U32 :=
  magBitLen x.mag

def neg (x : ExactInt) : ExactInt :=
  fromParts (!x.negative) x.mag

def add (x y : ExactInt) : ExactInt :=
  if x.negative = y.negative then fromParts x.negative (magAdd x.mag y.mag)
  else
    match magCmp x.mag y.mag with
    | .lt => fromParts y.negative (magSub y.mag x.mag)
    | _ => fromParts x.negative (magSub x.mag y.mag)

def sub (x y : ExactInt) : ExactInt :=
  x.add y.neg

def mul (x y : ExactInt) : ExactInt :=
  fromParts (x.negative != y.negative) (magMul x.mag y.mag)

/-- Division truncated toward zero and its remainder. -/
def divRem (x y : ExactInt) : Option (ExactInt × ExactInt) :=
  if y.isZero then none
  else
    let (q, r) := magDivrem x.mag y.mag
    some (fromParts (x.negative != y.negative) q, fromParts x.negative r)

def shl (x : ExactInt) (n : U32) : ExactInt :=
  fromParts x.negative (magShl x.mag n)

/-- Arithmetic right shift. -/
def shr (x : ExactInt) (n : U32) : ExactInt :=
  if !x.negative then fromParts false (magShr x.mag n)
  else fromParts true (magAdd (magShr (magSub x.mag [1]) n) [1])

def pow2 (n : U32) : ExactInt :=
  (fromU128 1).shl n

/-- The width of the value as an untyped literal. -/
def literalWidth (x : ExactInt) : U32 :=
  if x.negative then (x.add (fromU128 1)).magnitudeBits + 1
  else if x.magnitudeBits.toNat < 1 then 1 else x.magnitudeBits

/-- The `for` loop of `to_i128`. -/
def packWords : List U32 → Nat → U128 → U128
  | [], _, v => v
  | w :: mag, i, v => packWords mag (i + 1) (v ||| (w.setWidth 128 <<< (32 * i % 128)))

def toI128 (x : ExactInt) : Option U128 :=
  if x.magnitudeBits.toNat > 127 then
    if x.negative && x.magnitudeBits == 128 && x.mag == [0#32, 0#32, 0#32, 1#32 <<< 31] then
      some (BitVec.intMin 128)
    else none
  else
    let v := packWords x.mag 0 0
    some (if x.negative then -v else v)

def fitsI64 (x : ExactInt) : Bool :=
  x.toI128.any fun v => -2 ^ 63 ≤ v.toInt ∧ v.toInt < 2 ^ 63

def fitsU64 (x : ExactInt) : Bool :=
  x.toI128.any fun v => 0 ≤ v.toInt ∧ v.toInt < 2 ^ 64

def toU32 (x : ExactInt) : Option U32 :=
  x.toI128.bind fun v =>
    if 0 ≤ v.toInt ∧ v.toInt < 2 ^ 32 then some (v.setWidth 32) else none

/-- The value modulo `2 ^ w`. -/
def modPow2 (x : ExactInt) (w : U32) : ExactInt :=
  let low := magLowBits x.mag w
  if !x.negative || low.isEmpty then fromParts false low
  else fromParts false (magSub (pow2 w).mag low)

/-- The low `w` bits read as a two's-complement value. -/
def sext (x : ExactInt) (w : U32) : ExactInt :=
  let u := x.modPow2 w
  if 0 < w.toNat && magBit u.mag (w.toNat - 1) then u.sub (pow2 w) else u

def normalize (x : ExactInt) (w : U32) (signed : Bool) : ExactInt :=
  if signed then x.sext w else x.modPow2 w

def fits (x : ExactInt) (w : U32) (signed : Bool) : Bool :=
  x.normalize w signed = x

def lowU64 (x : ExactInt) : U64 :=
  let m := x.modPow2 64
  let lo : U32 := m.mag.headD 0
  let hi : U32 := m.mag[1]?.getD 0
  lo.setWidth 64 ||| (hi.setWidth 64 <<< 32)

/-- The words of the `w`-bit two's-complement pattern. -/
def patternWords (x : ExactInt) (w : U32) : List U32 :=
  let m := x.modPow2 w
  let words := (w.toNat + 31) / 32
  m.mag.take words ++ List.replicate (words - m.mag.length) 0

def not (x : ExactInt) : ExactInt :=
  x.neg.sub (fromU128 1)

def bitwise (x y : ExactInt) (f : U32 → U32 → U32) : ExactInt :=
  let w := (if x.literalWidth.toNat < y.literalWidth.toNat then y.literalWidth
    else x.literalWidth) + 1
  (fromWords (List.zipWith f (x.patternWords w) (y.patternWords w))).sext w

def and (x y : ExactInt) : ExactInt :=
  x.bitwise y (· &&& ·)

def or (x y : ExactInt) : ExactInt :=
  x.bitwise y (· ||| ·)

def xor (x y : ExactInt) : ExactInt :=
  x.bitwise y (· ^^^ ·)

def cmp (x y : ExactInt) : Ordering :=
  match x.negative, y.negative with
  | false, true => .gt
  | true, false => .lt
  | false, false => magCmp x.mag y.mag
  | true, true => magCmp y.mag x.mag

/-- The integer that a sign and a magnitude denote. -/
def toInt (x : ExactInt) : Int :=
  if x.negative then -value x.mag else value x.mag

theorem natAbs_toInt (x : ExactInt) : x.toInt.natAbs = value x.mag := by
  unfold toInt
  split <;> simp

theorem toInt_of_negative {x : ExactInt} (h : x.negative = true) :
    x.toInt = -(value x.mag : Int) :=
  if_pos h

theorem toInt_of_nonneg {x : ExactInt} (h : x.negative = false) :
    x.toInt = value x.mag :=
  if_neg (by simp [h])

theorem toInt_neg_iff (x : ExactInt) : x.toInt < 0 ↔ x.negative = true := by
  unfold toInt
  split
  · rename_i hneg
    have := x.trimmed.value_pos (x.sign hneg)
    simp [hneg]
    omega
  · simp_all

/-- Equal integers have equal representations. -/
theorem toInt_injective {x y : ExactInt} (h : x.toInt = y.toInt) : x = y := by
  have hmag : x.mag = y.mag := by
    refine x.trimmed.eq_of_value_eq y.trimmed ?_
    rw [← natAbs_toInt, ← natAbs_toInt, h]
  have hneg : x.negative = y.negative := by
    rw [Bool.eq_iff_iff, ← toInt_neg_iff, ← toInt_neg_iff, h]
  obtain ⟨_, _, _, _⟩ := x
  obtain ⟨_, _, _, _⟩ := y
  simp_all

theorem toInt_fromParts (negative : Bool) (mag : List U32) :
    (fromParts negative mag).toInt = if negative then -(value mag : Int) else value mag := by
  cases negative with
  | false => simp [toInt, fromParts, value_trim]
  | true =>
      simp only [toInt, fromParts, value_trim, Bool.true_and, if_true]
      by_cases hzero : value mag = 0
      · simp [hzero]
      · have hne : trim mag ≠ [] := fun h => hzero (trim_eq_nil.mp h)
        simp [hne]

theorem toInt_fromU128 (v : U128) : (fromU128 v).toInt = v.toNat := by
  rw [← value_fromU128 v]
  rfl

theorem toInt_fromI128 (v : U128) : (fromI128 v).toInt = v.toInt := by
  have hmag : value (fromI128 v).mag = v.toInt.natAbs := by
    rw [← toNat_abs]
    exact value_fromU128 v.abs
  have hneg : (fromI128 v).negative = decide (v.toInt < 0) := by
    change v.slt 0 = _
    rw [Bool.eq_iff_iff, BitVec.slt_iff_toInt_lt]
    simp
  rw [toInt, hmag, hneg]
  by_cases hlt : v.toInt < 0
  · rw [decide_eq_true hlt, if_pos rfl]
    omega
  · rw [decide_eq_false hlt]
    simp only [Bool.false_eq_true, if_false]
    omega

theorem toInt_fromBits (bits : U64) (signed : Bool) :
    (fromBits bits signed).toInt = if signed then bits.toInt else bits.toNat := by
  unfold fromBits
  split
  · rw [toInt_fromI128]
    exact BitVec.toInt_signExtend_of_le (by omega)
  · rw [toInt_fromU128, toNat_setWidth_of_le (by omega)]

theorem toInt_fromWords (words : List U32) : (fromWords words).toInt = value words := by
  rw [fromWords, toInt_fromParts]
  rfl

theorem isZero_iff (x : ExactInt) : x.isZero = true ↔ x.toInt = 0 := by
  rw [isZero, List.isEmpty_iff, ← x.trimmed.value_eq_zero, ← natAbs_toInt, Int.natAbs_eq_zero]

theorem toInt_neg (x : ExactInt) : x.neg.toInt = -x.toInt := by
  rw [neg, toInt_fromParts, toInt]
  cases x.negative <;> simp

theorem toInt_add (x y : ExactInt) : (x.add y).toInt = x.toInt + y.toInt := by
  unfold add
  split
  · rename_i hsame
    rw [toInt_fromParts, value_magAdd, toInt, toInt, ← hsame]
    cases x.negative
    · simp
    · simp
      omega
  · rename_i hdiff
    have hother : y.negative = !x.negative := by
      cases hx : x.negative <;> cases hy : y.negative <;> simp_all
    rw [magCmp_eq x.trimmed y.trimmed]
    split
    · rename_i hlt
      have hle := Nat.le_of_lt (Nat.compare_eq_lt.mp hlt)
      rw [toInt_fromParts, value_magSub hle, toInt, toInt, hother, Nat.cast_sub hle]
      cases x.negative <;> simp <;> omega
    · rename_i hge
      have hle : value y.mag ≤ value x.mag := by
        by_contra h
        exact hge (Nat.compare_eq_lt.mpr (Nat.lt_of_not_le h))
      rw [toInt_fromParts, value_magSub hle, toInt, toInt, hother, Nat.cast_sub hle]
      cases x.negative <;> simp <;> omega

theorem toInt_sub (x y : ExactInt) : (x.sub y).toInt = x.toInt - y.toInt := by
  rw [sub, toInt_add, toInt_neg, Int.sub_eq_add_neg]

theorem toInt_mul (x y : ExactInt) : (x.mul y).toInt = x.toInt * y.toInt := by
  rw [mul, toInt_fromParts, value_magMul, toInt, toInt]
  cases x.negative <;> cases y.negative <;> simp

theorem divRem_eq {x y : ExactInt} (hy : y.toInt ≠ 0) (hx : Nat.size x.toInt.natAbs < 2 ^ 32) :
    ∃ q r, x.divRem y = some (q, r) ∧ q.toInt = x.toInt.tdiv y.toInt ∧
      r.toInt = x.toInt.tmod y.toInt := by
  have hzero : y.isZero = false := by
    rw [Bool.eq_false_iff, Ne, isZero_iff]
    exact hy
  have hpos : 0 < value y.mag := by
    rw [← natAbs_toInt]
    exact Int.natAbs_pos.mpr hy
  rw [natAbs_toInt] at hx
  obtain ⟨hquot, hrem⟩ := magDivrem_spec x.trimmed y.trimmed hpos hx
  refine ⟨fromParts (x.negative != y.negative) (magDivrem x.mag y.mag).1,
    fromParts x.negative (magDivrem x.mag y.mag).2, by rw [divRem, hzero]; rfl, ?_, ?_⟩
  · rw [toInt_fromParts, hquot, toInt, toInt]
    cases x.negative <;> cases y.negative <;> simp
  · rw [toInt_fromParts, hrem, toInt, toInt]
    have hnat : ((value x.mag % value y.mag : Nat) : Int) =
        Int.tmod (value x.mag) (value y.mag) := rfl
    cases x.negative <;> cases y.negative <;> simp [hnat]

theorem divRem_eq_none {x y : ExactInt} (hy : y.toInt = 0) : x.divRem y = none := by
  rw [divRem, if_pos ((isZero_iff y).mpr hy)]

theorem toInt_shl (x : ExactInt) (n : U32) : (x.shl n).toInt = x.toInt * 2 ^ n.toNat := by
  rw [shl, toInt_fromParts, value_magShl, toInt]
  cases x.negative <;> simp

theorem toInt_shr (x : ExactInt) (n : U32) : (x.shr n).toInt = x.toInt / 2 ^ n.toNat := by
  unfold shr
  cases hneg : x.negative with
  | false =>
      rw [Bool.not_false, if_pos rfl, toInt_fromParts, value_magShr, toInt, hneg]
      simp
  | true =>
      have hpos := x.trimmed.value_pos (x.sign hneg)
      have hone : value [(1 : U32)] = 1 := by simp
      have hsub : value (magSub x.mag [1]) = value x.mag - 1 := by
        rw [value_magSub (by rw [hone]; exact hpos), hone]
      -- floor(-m / 2 ^ n) = -((m - 1) / 2 ^ n + 1)
      have hsucc : -(value x.mag : Int) = Int.negSucc (value x.mag - 1) := by
        rw [Int.negSucc_eq]
        omega
      rw [Bool.not_true, if_neg (by simp), toInt_fromParts, value_magAdd, value_magShr, hsub,
        hone, toInt, hneg]
      simp only [if_true]
      rw [hsucc, Int.negSucc_ediv _ (by positivity)]
      push_cast
      rfl

theorem toInt_pow2 (n : U32) : (pow2 n).toInt = 2 ^ n.toNat := by
  rw [pow2, toInt_shl, toInt_fromU128]
  simp

theorem toInt_not (x : ExactInt) : x.not.toInt = Int.lnot x.toInt := by
  rw [not, toInt_sub, toInt_neg, toInt_fromU128]
  cases x.toInt with
  | ofNat m =>
      simp [Int.lnot, Int.negSucc_eq]
      omega
  | negSucc m =>
      simp [Int.lnot, Int.negSucc_eq]

theorem toInt_modPow2 (x : ExactInt) (w : U32) : (x.modPow2 w).toInt = x.toInt % 2 ^ w.toNat := by
  have hlow := value_magLowBits x.mag w
  have hpow : value (pow2 w).mag = 2 ^ w.toNat := by
    rw [← natAbs_toInt, toInt_pow2, Int.natAbs_pow]
    rfl
  have hlt : value x.mag % 2 ^ w.toNat < 2 ^ w.toNat := Nat.mod_lt _ (Nat.two_pow_pos _)
  have hcast : ((value x.mag % 2 ^ w.toNat : Nat) : Int) = (value x.mag : Int) % 2 ^ w.toNat := by
    push_cast
    rfl
  unfold modPow2
  cases hneg : x.negative with
  | false =>
      rw [if_pos (by simp), toInt_fromParts, hlow, toInt, hneg]
      exact hcast
  | true =>
      rw [toInt_of_negative hneg]
      generalize hr : value x.mag % 2 ^ w.toNat = r at hlow hlt hcast
      have hneg_mod : -(value x.mag : Int) % 2 ^ w.toNat = (-(r : Int)) % 2 ^ w.toNat := by
        rw [hcast]
        exact (Int.mod_modEq _ _).neg.symm
      by_cases hzero : r = 0
      · have hempty : magLowBits x.mag w = [] :=
          (magLowBits_trimmed x.mag w).value_eq_zero.mp (hlow.trans hzero)
        rw [hempty, if_pos (by simp), toInt_fromParts, hneg_mod, hzero]
        simp
      · have hnonempty : (magLowBits x.mag w).isEmpty = false := by
          rw [List.isEmpty_eq_false_iff]
          intro hnil
          rw [hnil] at hlow
          exact hzero hlow.symm
        have hsub : value (magSub (pow2 w).mag (magLowBits x.mag w)) = 2 ^ w.toNat - r := by
          rw [value_magSub (by rw [hlow, hpow]; exact Nat.le_of_lt hlt), hlow, hpow]
        have hlt' : (r : Int) < 2 ^ w.toNat := by exact_mod_cast hlt
        have hpos : (0 : Int) < r := by omega
        rw [hneg_mod, Int.neg_emod_eq_sub_emod, Int.emod_eq_of_lt (by omega) (by omega)]
        simp only [hnonempty, Bool.not_true, Bool.or_self, Bool.false_eq_true, if_false]
        rw [toInt_fromParts, hsub, Nat.cast_sub (Nat.le_of_lt hlt)]
        simp

theorem testBit_top {n k : Nat} (hlt : n < 2 ^ (k + 1)) :
    n.testBit k = decide (2 ^ k ≤ n) := by
  by_cases hle : 2 ^ k ≤ n
  · rw [Nat.testBit_of_two_pow_le_and_two_pow_add_one_gt hle hlt, decide_eq_true hle]
  · rw [Nat.testBit_lt_two_pow (by omega), decide_eq_false hle]

theorem toInt_sext (x : ExactInt) (w : U32) :
    (x.sext w).toInt = Int.bmod x.toInt (2 ^ w.toNat) := by
  have hmod := toInt_modPow2 x w
  have hcast : ((2 ^ w.toNat : Nat) : Int) = 2 ^ w.toNat := by
    push_cast
    rfl
  have hpos : (0 : Int) < 2 ^ w.toNat := by positivity
  have hnonneg := Int.emod_nonneg x.toInt hpos.ne'
  have hlt := Int.emod_lt_of_pos x.toInt hpos
  have hvalue : value (x.modPow2 w).mag = (x.toInt % 2 ^ w.toNat).toNat := by
    rw [← natAbs_toInt, hmod]
    omega
  rw [Int.bmod_def, hcast]
  rcases Nat.eq_zero_or_pos w.toNat with hw | hw
  · simp only [sext, hw, Nat.lt_irrefl, decide_false, Bool.false_and, Bool.false_eq_true,
      if_false, hmod]
    simp
  · obtain ⟨k, hk⟩ : ∃ k, w.toNat = k + 1 := ⟨w.toNat - 1, by omega⟩
    have htwice : (2 : Int) ^ (k + 1) = 2 * 2 ^ k := by ring
    have hnat : ((2 ^ k : Nat) : Int) = 2 ^ k := by
      push_cast
      rfl
    rw [hk] at hmod hpos hnonneg hlt hvalue ⊢
    have hbit : magBit (x.modPow2 w).mag k = decide (2 ^ k ≤ x.toInt % 2 ^ (k + 1)) := by
      rw [magBit_eq, hvalue, testBit_top]
      · rw [decide_eq_decide]
        omega
      · have : ((2 ^ (k + 1) : Nat) : Int) = 2 ^ (k + 1) := by
          push_cast
          rfl
        omega
    simp only [sext, hk, Nat.succ_pos, decide_true, Bool.true_and, Nat.add_sub_cancel, hbit,
      decide_eq_true_eq]
    by_cases hle : 2 ^ k ≤ x.toInt % 2 ^ (k + 1)
    · rw [if_pos hle, if_neg (by omega), toInt_sub, hmod, toInt_pow2, hk]
    · rw [if_neg hle, if_pos (by omega), hmod]

theorem compare_natCast (m n : Nat) : compare (m : Int) n = compare m n := by
  rcases Nat.lt_trichotomy m n with h | rfl | h
  · rw [compare_lt_iff_lt.mpr h, compare_lt_iff_lt.mpr (by omega)]
  · rw [compare_eq_iff_eq.mpr rfl, compare_eq_iff_eq.mpr rfl]
  · rw [compare_gt_iff_gt.mpr h, compare_gt_iff_gt.mpr (by omega)]

theorem compare_neg_natCast (m n : Nat) : compare (-(m : Int)) (-n) = compare n m := by
  rcases Nat.lt_trichotomy m n with h | rfl | h
  · rw [compare_gt_iff_gt.mpr h, compare_gt_iff_gt.mpr (by omega)]
  · rw [compare_eq_iff_eq.mpr rfl, compare_eq_iff_eq.mpr rfl]
  · rw [compare_lt_iff_lt.mpr h, compare_lt_iff_lt.mpr (by omega)]

theorem cmp_eq (x y : ExactInt) : x.cmp y = compare x.toInt y.toInt := by
  have hx := x.trimmed
  have hy := y.trimmed
  unfold cmp
  split
  · rename_i hxn hyn
    have := hy.value_pos (y.sign hyn)
    rw [toInt_of_nonneg hxn, toInt_of_negative hyn]
    exact (compare_gt_iff_gt.mpr (by omega)).symm
  · rename_i hxn hyn
    have := hx.value_pos (x.sign hxn)
    rw [toInt_of_negative hxn, toInt_of_nonneg hyn]
    exact (compare_lt_iff_lt.mpr (by omega)).symm
  · rename_i hxn hyn
    rw [magCmp_eq hx hy, toInt_of_nonneg hxn, toInt_of_nonneg hyn, compare_natCast]
  · rename_i hxn hyn
    rw [magCmp_eq hy hx, toInt_of_negative hxn, toInt_of_negative hyn, compare_neg_natCast]

theorem toInt_normalize (x : ExactInt) (w : U32) (signed : Bool) :
    (x.normalize w signed).toInt =
      if signed then Int.bmod x.toInt (2 ^ w.toNat) else x.toInt % 2 ^ w.toNat := by
  unfold normalize
  split
  · exact toInt_sext x w
  · exact toInt_modPow2 x w

theorem fits_iff (x : ExactInt) (w : U32) (signed : Bool) :
    x.fits w signed = true ↔
      (if signed then Int.bmod x.toInt (2 ^ w.toNat) else x.toInt % 2 ^ w.toNat) = x.toInt := by
  rw [fits, decide_eq_true_iff, ← toInt_normalize]
  exact ⟨fun h => congrArg toInt h, toInt_injective⟩

/-- The width of an integer as an untyped literal. -/
def literalBits (z : Int) : Nat :=
  if z < 0 then Nat.size (z + 1).natAbs + 1 else max 1 (Nat.size z.natAbs)

theorem toNat_magnitudeBits (x : ExactInt) :
    x.magnitudeBits.toNat = Nat.size x.toInt.natAbs % 2 ^ 32 := by
  rw [magnitudeBits, toNat_magBitLen x.trimmed, natAbs_toInt]

theorem toNat_literalWidth {x : ExactInt} (hx : literalBits x.toInt < 2 ^ 32) :
    x.literalWidth.toNat = literalBits x.toInt := by
  unfold literalWidth
  unfold literalBits at hx ⊢
  cases hneg : x.negative with
  | true =>
      have hlt := (toInt_neg_iff x).mpr hneg
      rw [if_pos hlt] at hx ⊢
      have hone : (fromU128 1).toInt = 1 := by
        rw [toInt_fromU128]
        rfl
      rw [if_pos rfl, BitVec.toNat_add, toNat_magnitudeBits, toInt_add, hone]
      simp
      omega
  | false =>
      have hge : ¬ x.toInt < 0 := by
        rw [toInt_neg_iff, hneg]
        simp
      rw [if_neg hge] at hx ⊢
      have hbits : x.magnitudeBits.toNat = Nat.size x.toInt.natAbs := by
        rw [toNat_magnitudeBits, Nat.mod_eq_of_lt (by omega)]
      simp only [Bool.false_eq_true, if_false, hbits]
      split
      · simp
        omega
      · rw [hbits]
        omega

theorem length_patternWords (x : ExactInt) (w : U32) :
    (x.patternWords w).length = (w.toNat + 31) / 32 := by
  simp only [patternWords, List.length_append, List.length_take, List.length_replicate]
  omega

theorem value_patternWords (x : ExactInt) (w : U32) :
    value (x.patternWords w) = (x.toInt % 2 ^ w.toNat).toNat := by
  have hpos : (0 : Int) < 2 ^ w.toNat := by positivity
  have hlt := Int.emod_lt_of_pos x.toInt hpos
  have hcast : ((2 ^ w.toNat : Nat) : Int) = 2 ^ w.toNat := by
    push_cast
    rfl
  have hvalue : value (x.modPow2 w).mag = (x.toInt % 2 ^ w.toNat).toNat := by
    have hnonneg := Int.emod_nonneg x.toInt hpos.ne'
    rw [← natAbs_toInt, toInt_modPow2]
    omega
  have hfits : value (x.modPow2 w).mag < 2 ^ (32 * ((w.toNat + 31) / 32)) := by
    refine Nat.lt_of_lt_of_le (m := 2 ^ w.toNat) (by omega) ?_
    exact Nat.pow_le_pow_right (Nat.succ_pos 1) (by omega)
  simp only [patternWords]
  rw [show (0 : U32) = 0#32 from rfl, value_append_zeros, value_take, Nat.mod_eq_of_lt hfits,
    hvalue]

theorem inRange_of_literalBits {z : Int} {k : Nat} (h : literalBits z ≤ k) : InRange k z := by
  unfold literalBits at h
  split at h
  · rename_i hneg
    have hlt : (z + 1).natAbs < 2 ^ k := Nat.size_le.mp (by omega)
    have hlt' : (((z + 1).natAbs : Nat) : Int) < 2 ^ k := by exact_mod_cast hlt
    constructor <;> omega
  · rename_i hneg
    have hlt : z.natAbs < 2 ^ k := Nat.size_le.mp (by omega)
    have hlt' : ((z.natAbs : Nat) : Int) < 2 ^ k := by exact_mod_cast hlt
    constructor <;> omega

/-- The bit counts of a bitwise operation fit in 32 bits. -/
def BitwiseFits (x y : ExactInt) : Prop :=
  literalBits x.toInt + 1 < 2 ^ 32 ∧ literalBits y.toInt + 1 < 2 ^ 32

theorem toInt_bitwise {x y : ExactInt} (hfits : BitwiseFits x y) {f : U32 → U32 → U32}
    {g : Bool → Bool → Bool} (hzero : g false false = false)
    (hf : ∀ a b i, i < 32 → (f a b).getLsbD i = g (a.getLsbD i) (b.getLsbD i)) {z : Int}
    (hz : ∀ i, z.testBit i = g (x.toInt.testBit i) (y.toInt.testBit i)) :
    (x.bitwise y f).toInt = z := by
  obtain ⟨hx, hy⟩ := hfits
  have hwx := toNat_literalWidth (x := x) (by omega)
  have hwy := toNat_literalWidth (x := y) (by omega)
  obtain ⟨w, hw⟩ : ∃ w, w = (if x.literalWidth.toNat < y.literalWidth.toNat then
      y.literalWidth else x.literalWidth) + 1#32 := ⟨_, rfl⟩
  obtain ⟨k, hk⟩ : ∃ k, k = max (literalBits x.toInt) (literalBits y.toInt) := ⟨_, rfl⟩
  have hwk : w.toNat = k + 1 := by
    rw [hw, BitVec.toNat_add]
    split <;> simp <;> omega
  have hbits : ∀ i, i < k + 1 →
      ((value (List.zipWith f (x.patternWords w) (y.patternWords w)) : Nat) : Int).testBit i =
        g (x.toInt.testBit i) (y.toInt.testBit i) := by
    intro i hi
    change (value _).testBit i = _
    rw [testBit_value_zipWith (by omega) hzero hf
      (by rw [length_patternWords, length_patternWords]), value_patternWords,
      value_patternWords, testBit_emod_two_pow, testBit_emod_two_pow, hwk]
    simp [hi]
  have hsext := toInt_sext (fromWords (List.zipWith f (x.patternWords w) (y.patternWords w))) w
  rw [toInt_fromWords, hwk, bmod_eq_of_bits (inRange_of_literalBits (by omega))
    (inRange_of_literalBits (by omega)) hz hbits] at hsext
  rw [hw] at hsext
  exact hsext

theorem toInt_and {x y : ExactInt} (hfits : BitwiseFits x y) :
    (x.and y).toInt = Int.land x.toInt y.toInt :=
  toInt_bitwise hfits rfl (fun _ _ _ _ => BitVec.getLsbD_and) (Int.testBit_land _ _)

theorem toInt_or {x y : ExactInt} (hfits : BitwiseFits x y) :
    (x.or y).toInt = Int.lor x.toInt y.toInt :=
  toInt_bitwise hfits rfl (fun _ _ _ _ => BitVec.getLsbD_or) (Int.testBit_lor _ _)

theorem toInt_xor {x y : ExactInt} (hfits : BitwiseFits x y) :
    (x.xor y).toInt = Int.xor x.toInt y.toInt :=
  toInt_bitwise hfits rfl (fun _ _ _ _ => BitVec.getLsbD_xor) (Int.testBit_lxor _ _)

theorem toNat_packWords (mag : List U32) (i : Nat) (v : U128) (hv : v.toNat < 2 ^ (32 * i))
    (hi : i + mag.length ≤ 4) :
    (packWords mag i v).toNat = v.toNat + 2 ^ (32 * i) * value mag := by
  induction mag generalizing i v with
  | nil => simp [packWords]
  | cons w mag ih =>
      rw [List.length_cons] at hi
      have hw := w.isLt
      have hmod : 32 * i % 128 = 32 * i := Nat.mod_eq_of_lt (by omega)
      have hpow : 2 ^ 32 * 2 ^ (32 * i) ≤ 2 ^ 128 := by
        rw [← pow_add]
        exact Nat.pow_le_pow_right (Nat.succ_pos 1) (by omega)
      have hshift : (w.setWidth 128 <<< (32 * i)).toNat = w.toNat <<< (32 * i) := by
        rw [BitVec.toNat_shiftLeft, toNat_setWidth_of_le (by omega), Nat.shiftLeft_eq]
        refine Nat.mod_eq_of_lt (Nat.lt_of_lt_of_le ?_ hpow)
        exact Nat.mul_lt_mul_of_pos_right hw (Nat.two_pow_pos _)
      have hor : (v ||| w.setWidth 128 <<< (32 * i)).toNat =
          v.toNat + 2 ^ (32 * i) * w.toNat := by
        rw [BitVec.toNat_or, hshift, Nat.lor_comm, ← Nat.shiftLeft_add_eq_or_of_lt hv,
          Nat.shiftLeft_eq, Nat.mul_comm, Nat.add_comm]
      have hnext : v.toNat + 2 ^ (32 * i) * w.toNat < 2 ^ (32 * (i + 1)) := by
        have hle : 2 ^ (32 * i) * (w.toNat + 1) ≤ 2 ^ (32 * i) * 2 ^ 32 :=
          Nat.mul_le_mul_left _ hw
        rw [Nat.mul_add, ← pow_add] at hle
        rw [Nat.mul_succ]
        omega
      rw [packWords, hmod, ih (i + 1) _ (by rw [hor]; exact hnext) (by omega), hor, value_cons,
        Nat.mul_succ, pow_add]
      ring

theorem value_minMag : value [0#32, 0#32, 0#32, 1#32 <<< 31] = 2 ^ 127 := by
  decide

theorem toI128_eq {x : ExactInt} (hx : Nat.size x.toInt.natAbs < 2 ^ 32) :
    x.toI128 = if -2 ^ 127 ≤ x.toInt ∧ x.toInt < 2 ^ 127 then some (BitVec.ofInt 128 x.toInt)
      else none := by
  have hbits : x.magnitudeBits.toNat = Nat.size (value x.mag) := by
    rw [toNat_magnitudeBits, Nat.mod_eq_of_lt hx, natAbs_toInt]
  have hmin : x.mag = [0#32, 0#32, 0#32, 1#32 <<< 31] ↔ value x.mag = 2 ^ 127 := by
    constructor
    · intro h
      rw [h, value_minMag]
    · intro h
      exact x.trimmed.eq_of_value_eq (by simp [Trimmed]) (h.trans value_minMag.symm)
  unfold toI128
  rw [hbits]
  by_cases hlarge : Nat.size (value x.mag) > 127
  · have hge : 2 ^ 127 ≤ value x.mag := Nat.lt_size.mp hlarge
    have hrange : (-2 ^ 127 ≤ x.toInt ∧ x.toInt < 2 ^ 127) ↔
        x.negative = true ∧ value x.mag = 2 ^ 127 := by
      cases hneg : x.negative with
      | true =>
          rw [toInt_of_negative hneg]
          constructor
          · rintro ⟨hlow, _⟩
            exact ⟨rfl, by omega⟩
          · rintro ⟨_, hvalue⟩
            omega
      | false =>
          rw [toInt_of_nonneg hneg]
          constructor
          · rintro ⟨_, hhigh⟩
            omega
          · rintro ⟨h, _⟩
            cases h
    rw [if_pos hlarge]
    by_cases hmatch : x.negative = true ∧ value x.mag = 2 ^ 127
    · have hsize : x.magnitudeBits = 128#32 := by
        rw [← BitVec.toNat_inj, hbits, hmatch.2, Nat.size_pow]
        rfl
      rw [if_pos (by simp [hmatch.1, hsize, hmin.mpr hmatch.2]), if_pos (hrange.mpr hmatch),
        toInt_of_negative hmatch.1, hmatch.2]
      rfl
    · have hfail : ¬ (x.negative && x.magnitudeBits == 128 &&
          x.mag == [0#32, 0#32, 0#32, 1#32 <<< 31]) = true := by
        simp only [Bool.and_eq_true, beq_iff_eq]
        rintro ⟨⟨hneg, _⟩, hmag⟩
        exact hmatch ⟨hneg, hmin.mp hmag⟩
      rw [if_neg hfail, if_neg (hrange.not.mpr hmatch)]
  · have hlt : value x.mag < 2 ^ 127 := Nat.size_le.mp (by omega)
    have hlength : x.mag.length ≤ 4 := by
      by_contra hlong
      have hne : x.mag ≠ [] := List.ne_nil_of_length_pos (by omega)
      have hge := x.trimmed.le_value hne
      have hpow : 2 ^ 127 ≤ 2 ^ (32 * (x.mag.length - 1)) :=
        Nat.pow_le_pow_right (Nat.succ_pos 1) (by omega)
      omega
    have hpack : packWords x.mag 0 0 = BitVec.ofNat 128 (value x.mag) := by
      rw [← BitVec.toNat_inj, toNat_packWords x.mag 0 0 (by simp) (by omega)]
      simp
      omega
    have hrange : -2 ^ 127 ≤ x.toInt ∧ x.toInt < 2 ^ 127 := by
      have := natAbs_toInt x
      omega
    rw [if_neg hlarge, if_pos hrange]
    simp only [hpack]
    cases hneg : x.negative with
    | true =>
        rw [toInt_of_negative hneg, BitVec.ofInt_neg, BitVec.ofInt_natCast]
        rfl
    | false =>
        rw [toInt_of_nonneg hneg, BitVec.ofInt_natCast]
        rfl

theorem toInt_ofInt_128 {z : Int} (h : -2 ^ 127 ≤ z ∧ z < 2 ^ 127) :
    (BitVec.ofInt 128 z).toInt = z := by
  rw [BitVec.toInt_ofInt]
  exact InRange.bmod_eq h

theorem fitsI64_iff {x : ExactInt} (hx : Nat.size x.toInt.natAbs < 2 ^ 32) :
    x.fitsI64 = true ↔ -2 ^ 63 ≤ x.toInt ∧ x.toInt < 2 ^ 63 := by
  rw [fitsI64, toI128_eq hx]
  by_cases h : -2 ^ 127 ≤ x.toInt ∧ x.toInt < 2 ^ 127
  · rw [if_pos h, Option.any_some, toInt_ofInt_128 h, decide_eq_true_iff]
  · rw [if_neg h]
    simp
    omega

theorem fitsU64_iff {x : ExactInt} (hx : Nat.size x.toInt.natAbs < 2 ^ 32) :
    x.fitsU64 = true ↔ 0 ≤ x.toInt ∧ x.toInt < 2 ^ 64 := by
  rw [fitsU64, toI128_eq hx]
  by_cases h : -2 ^ 127 ≤ x.toInt ∧ x.toInt < 2 ^ 127
  · rw [if_pos h, Option.any_some, toInt_ofInt_128 h, decide_eq_true_iff]
  · rw [if_neg h]
    simp
    omega

theorem toU32_eq {x : ExactInt} (hx : Nat.size x.toInt.natAbs < 2 ^ 32) :
    x.toU32 = if 0 ≤ x.toInt ∧ x.toInt < 2 ^ 32 then some (BitVec.ofInt 32 x.toInt)
      else none := by
  rw [toU32, toI128_eq hx]
  by_cases h : -2 ^ 127 ≤ x.toInt ∧ x.toInt < 2 ^ 127
  · rw [if_pos h, Option.bind_some, toInt_ofInt_128 h]
    split
    · rename_i hsmall
      rw [Option.some.injEq, ← BitVec.toNat_inj, BitVec.toNat_setWidth, BitVec.toNat_ofInt,
        BitVec.toNat_ofInt]
      omega
    · rfl
  · rw [if_neg h, if_neg (by omega)]
    rfl

theorem toNat_lowU64 (x : ExactInt) : (x.lowU64.toNat : Int) = x.toInt % 2 ^ 64 := by
  have hmod := toInt_modPow2 x 64
  have hlt := Int.emod_lt_of_pos x.toInt (show (0 : Int) < 2 ^ 64 by omega)
  have hnonneg := Int.emod_nonneg x.toInt (show (2 ^ 64 : Int) ≠ 0 by omega)
  rw [show (64 : U32).toNat = 64 from rfl] at hmod
  have hvalue := natAbs_toInt (x.modPow2 64)
  rw [hmod] at hvalue
  simp only [lowU64]
  generalize (x.modPow2 64).mag = mag at hvalue ⊢
  have hsplit := value_headD_tail mag
  have htail := value_headD_tail mag.tail
  have hlo := (mag.headD 0).isLt
  have hsecond : mag[1]?.getD (0 : U32) = mag.tail.headD 0 := by
    rcases mag with _ | ⟨a, _ | ⟨b, mag⟩⟩ <;> rfl
  have hrest : value mag.tail.tail = 0 := by omega
  rw [hsecond]
  have hlo64 : ((mag.headD 0).setWidth 64).toNat = (mag.headD 0).toNat :=
    toNat_setWidth_of_le (by omega) _
  have hhi64 : ((mag.tail.headD 0).setWidth 64 <<< 32).toNat =
      (mag.tail.headD 0).toNat <<< 32 := by
    rw [BitVec.toNat_shiftLeft, toNat_setWidth_of_le (by omega), Nat.shiftLeft_eq]
    exact Nat.mod_eq_of_lt (by omega)
  rw [BitVec.toNat_or, hlo64, hhi64, Nat.lor_comm, ← Nat.shiftLeft_add_eq_or_of_lt hlo,
    Nat.shiftLeft_eq]
  omega

end ExactInt

end Harc.ExactArithmetic
