import Harc.DecimalText
import Harc.ExactCorrectness

/-!
Reductions, literal widths and conversions of exact integers, and their decimal text
(`exact_int.rs`).
-/

namespace Harc.ExactConversions

open Harc.WordLists
open Harc.TwosComplement
open Harc.ExactMagnitude
open Harc.ExactArithmetic
open Harc.ExactArithmetic.ExactInt
open Harc.ExactCorrectness
open Harc.DecimalText

/-! The decimal text. -/

def billion : List U32 :=
  [1000000000#32]

/-- The loop of `Display` that collects the remainders. -/
def displayLoop : Nat → List U32 → List Nat
  | 0, _ => []
  | fuel + 1, m =>
      if m.isEmpty then []
      else
        let (q, r) := magDivrem m billion
        (r[0]?.getD 0#32).toNat :: displayLoop fuel q

/-- `Display`.  A quotient is at most half of the number that is divided. -/
def display (x : ExactInt) : String :=
  if x.isZero then "0"
  else
    let digits := displayLoop (32 * x.mag.length) x.mag
    String.ofList ((if x.negative then ['-'] else []) ++ chunkText 9 digits)

theorem value_billion : value billion = 10 ^ 9 := by
  decide

/-- A number below the base is its lowest word. -/
theorem toNat_head {r : List U32} (h : value r < 2 ^ 32) : (r[0]?.getD 0#32).toNat = value r := by
  cases r with
  | nil => rfl
  | cons w rest =>
      rw [value_cons] at h ⊢
      have hrest : value rest = 0 := by omega
      rw [hrest, Nat.mul_zero, Nat.add_zero]
      rfl

theorem magDivrem_trimmed {a b : List U32} : Trimmed (magDivrem a b).1 := by
  unfold magDivrem
  split
  · exact trimmed_nil
  · exact trim_trimmed _

theorem displayLoop_succ (fuel : Nat) {m : List U32} (hm : m.isEmpty = false) :
    displayLoop (fuel + 1) m = ((magDivrem m billion).2[0]?.getD 0#32).toNat ::
      displayLoop fuel (magDivrem m billion).1 := by
  rw [displayLoop, hm, if_neg (by simp)]

/-- What the loop collects, with enough fuel: chunks of the number, the highest not zero. -/
theorem displayLoop_spec {fuel : Nat} {m : List U32} (hm : Trimmed m) (hpos : 0 < value m)
    (hsize : Nat.size (value m) < 2 ^ 32) (hfuel : value m < 2 ^ fuel) :
    ∃ hne : displayLoop fuel m ≠ [], (∀ d ∈ displayLoop fuel m, d < 10 ^ 9) ∧
      (displayLoop fuel m).getLast hne ≠ 0 ∧ chunkValue 9 (displayLoop fuel m) = value m := by
  induction fuel generalizing m with
  | zero => omega
  | succ fuel ih =>
      have hnonempty : m.isEmpty = false := by
        rw [List.isEmpty_eq_false_iff]
        rintro rfl
        exact Nat.lt_irrefl 0 hpos
      obtain ⟨hq, hr⟩ := magDivrem_spec (b := billion) hm (by simp [Trimmed, billion])
        (by decide) hsize
      rw [value_billion] at hq hr
      have hchunk : ((magDivrem m billion).2[0]?.getD 0#32).toNat = value m % 10 ^ 9 := by
        rw [toNat_head (by rw [hr]; omega), hr]
      have hloop : displayLoop (fuel + 1) m =
          value m % 10 ^ 9 :: displayLoop fuel (magDivrem m billion).1 := by
        rw [displayLoop_succ fuel hnonempty, hchunk]
      have hlt : value m % 10 ^ 9 < 10 ^ 9 := Nat.mod_lt _ (by omega)
      rw [hloop]
      rcases Nat.lt_or_ge (value m) (10 ^ 9) with hsmall | hlarge
      · have hnil : (magDivrem m billion).1 = [] := by
          refine (magDivrem_trimmed.value_eq_zero).mp ?_
          rw [hq, Nat.div_eq_of_lt hsmall]
        have hrest : displayLoop fuel (magDivrem m billion).1 = [] := by
          rw [hnil]
          cases fuel <;> rfl
        rw [hrest, Nat.mod_eq_of_lt hsmall]
        refine ⟨by simp, ?_, ?_, ?_⟩
        · intro d hd
          rw [List.mem_singleton] at hd
          omega
        · rw [List.getLast_singleton]
          omega
        · simp [chunkValue]
      · obtain ⟨hne, hall, hlast, hvalue⟩ := ih (m := (magDivrem m billion).1)
          magDivrem_trimmed (by rw [hq]; exact Nat.div_pos hlarge (by omega))
          (by rw [hq]; exact Nat.lt_of_le_of_lt (Nat.size_le_size (Nat.div_le_self _ _)) hsize)
          (by rw [hq]; rw [pow_succ] at hfuel; omega)
        refine ⟨by simp, ?_, ?_, ?_⟩
        · intro d hd
          rcases List.mem_cons.mp hd with rfl | hd
          · exact hlt
          · exact hall d hd
        · rwa [List.getLast_cons hne]
        · change value m % 10 ^ 9 + 10 ^ 9 * chunkValue 9 _ = value m
          rw [hvalue, hq]
          exact Nat.mod_add_div _ _

theorem repr_natCast (n : Nat) : ((n : Int)).repr = n.repr :=
  rfl

theorem repr_neg_natCast {n : Nat} (hn : 0 < n) : (-(n : Int)).repr = "-" ++ n.repr := by
  obtain ⟨k, rfl⟩ : ∃ k, n = k + 1 := ⟨n - 1, by omega⟩
  rfl

theorem display_eq {x : ExactInt} (hx : Nat.size x.toInt.natAbs < 2 ^ 32) :
    display x = x.toInt.repr := by
  rw [display]
  cases hzero : x.isZero with
  | true =>
      rw [(isZero_iff x).mp hzero]
      rfl
  | false =>
      have hpos : 0 < value x.mag := by
        rw [← natAbs_toInt, Int.natAbs_pos, Ne, ← isZero_iff, hzero]
        simp
      rw [natAbs_toInt] at hx
      obtain ⟨hne, hall, hlast, hvalue⟩ := displayLoop_spec x.trimmed hpos hx (value_lt x.mag)
      have htext : chunkText 9 (displayLoop (32 * x.mag.length) x.mag) =
          (value x.mag).repr.toList := by
        rw [Nat.toList_repr, ← hvalue]
        exact (chunkText_eq hne hall hlast).2
      rw [if_neg (by simp)]
      change String.ofList (_ ++ chunkText 9 (displayLoop (32 * x.mag.length) x.mag)) = _
      rw [htext]
      cases hneg : x.negative with
      | false =>
          rw [toInt_of_nonneg hneg, repr_natCast, if_neg (by simp), List.nil_append,
            String.ofList_toList]
      | true =>
          rw [toInt_of_negative hneg, repr_neg_natCast hpos, if_pos rfl, ← String.toList_inj]
          simp

/-! Representatives modulo a power of two. -/

/-- The only one of `2 ^ width` consecutive integers from `lo` on that is congruent to `v`. -/
structure Representative (lo : Int) (width : Nat) (v z : Int) : Prop where
  low : lo ≤ z
  high : z < lo + 2 ^ width
  congr : z ≡ v [ZMOD 2 ^ width]
  unique : ∀ y, lo ≤ y → y < lo + 2 ^ width → y ≡ v [ZMOD 2 ^ width] → y = z

theorem representative_of_congr {lo : Int} {width : Nat} {v z : Int} (hlow : lo ≤ z)
    (hhigh : z < lo + 2 ^ width) (hcongr : z ≡ v [ZMOD 2 ^ width]) :
    Representative lo width v z where
  low := hlow
  high := hhigh
  congr := hcongr
  unique := by
    intro y hylow hyhigh hy
    have hdvd : (2 : Int) ^ width ∣ y - z := (hcongr.trans hy.symm).dvd
    have hzero := Int.eq_zero_of_abs_lt_dvd hdvd (abs_lt.mpr ⟨by omega, by omega⟩)
    omega

theorem modPow2_representative (x : ExactInt) (w : U32) :
    Representative 0 w.toNat x.toInt (x.modPow2 w).toInt := by
  have hpos : (0 : Int) < 2 ^ w.toNat := by positivity
  rw [toInt_modPow2]
  refine representative_of_congr (Int.emod_nonneg _ hpos.ne') ?_ (Int.mod_modEq _ _)
  rw [Int.zero_add]
  exact Int.emod_lt_of_pos _ hpos

theorem sext_representative (x : ExactInt) {w : U32} (hw : 0 < w.toNat) :
    Representative (-2 ^ (w.toNat - 1)) w.toNat x.toInt (x.sext w).toInt := by
  obtain ⟨k, hk⟩ : ∃ k, w.toNat = k + 1 := ⟨w.toNat - 1, by omega⟩
  have hpos : (0 : Int) < 2 ^ k := by positivity
  have hcast : ((2 ^ (k + 1) : Nat) : Int) = 2 * 2 ^ k := by
    push_cast
    rw [pow_succ, mul_comm]
  have hlow := Int.le_bmod (x := x.toInt) (m := 2 ^ (k + 1)) (by positivity)
  have hhigh := Int.bmod_lt (x := x.toInt) (m := 2 ^ (k + 1)) (by positivity)
  rw [hcast] at hlow hhigh
  rw [toInt_sext, hk, Nat.add_sub_cancel]
  refine representative_of_congr (by omega) ?_ ?_
  · have hpow : (2 : Int) ^ (k + 1) = 2 * 2 ^ k := by rw [pow_succ, mul_comm]
    rw [hpow]
    omega
  · have hmod := @Int.bmod_emod x.toInt (2 ^ (k + 1))
    rw [Int.ModEq]
    exact_mod_cast hmod

theorem fits_unsigned_iff (x : ExactInt) (w : U32) :
    x.fits w false = true ↔ 0 ≤ x.toInt ∧ x.toInt < 2 ^ w.toNat := by
  have hpos : (0 : Int) < 2 ^ w.toNat := by positivity
  rw [fits_iff, if_neg (by simp)]
  constructor
  · intro h
    rw [← h]
    exact ⟨Int.emod_nonneg _ hpos.ne', Int.emod_lt_of_pos _ hpos⟩
  · rintro ⟨hnonneg, hlt⟩
    exact Int.emod_eq_of_lt hnonneg hlt

theorem fits_signed_iff (x : ExactInt) {w : U32} (hw : 0 < w.toNat) :
    x.fits w true = true ↔ -2 ^ (w.toNat - 1) ≤ x.toInt ∧ x.toInt < 2 ^ (w.toNat - 1) := by
  have hrep := sext_representative x hw
  obtain ⟨k, hk⟩ : ∃ k, w.toNat = k + 1 := ⟨w.toNat - 1, by omega⟩
  have hpow : (2 : Int) ^ (k + 1) = 2 * 2 ^ k := by rw [pow_succ, mul_comm]
  have hlow := hrep.low
  have hhigh := hrep.high
  rw [toInt_sext] at hlow hhigh
  rw [fits_iff, if_pos rfl]
  rw [hk, Nat.add_sub_cancel] at hlow ⊢
  rw [hk, Nat.add_sub_cancel, hpow] at hhigh
  constructor
  · intro h
    rw [h] at hlow hhigh
    exact ⟨hlow, by omega⟩
  · rintro ⟨hge, hlt⟩
    exact InRange.bmod_eq ⟨hge, hlt⟩

/-- No negative number fits in zero bits. -/
theorem fits_zero_iff (x : ExactInt) (signed : Bool) : x.fits 0#32 signed = true ↔ x.toInt = 0 := by
  rw [fits_iff]
  cases signed with
  | false => simp [eq_comm]
  | true =>
      have hbmod : Int.bmod x.toInt (2 ^ (0#32).toNat) = 0 := Int.bmod_one _
      rw [if_pos rfl, hbmod, eq_comm]

/-- The width of a literal, among the positive widths. -/
theorem fits_literalBits (x : ExactInt) {w : U32} (hw : 0 < w.toNat) :
    x.fits w (decide (x.toInt < 0)) = true ↔ literalBits x.toInt ≤ w.toNat := by
  rcases Int.lt_or_le x.toInt 0 with hneg | hnonneg
  · rw [decide_eq_true hneg, fits_signed_iff x hw, literalBits, if_pos hneg]
    have hsize : Nat.size (x.toInt + 1).natAbs ≤ w.toNat - 1 ↔
        (x.toInt + 1).natAbs < 2 ^ (w.toNat - 1) := Nat.size_le
    have hcast : ((2 ^ (w.toNat - 1) : Nat) : Int) = 2 ^ (w.toNat - 1) := by
      push_cast
      rfl
    have hpos : (0 : Int) < 2 ^ (w.toNat - 1) := by positivity
    omega
  · rw [decide_eq_false (by omega), fits_unsigned_iff, literalBits, if_neg (by omega)]
    have hsize : Nat.size x.toInt.natAbs ≤ w.toNat ↔ x.toInt.natAbs < 2 ^ w.toNat := Nat.size_le
    have hcast : ((2 ^ w.toNat : Nat) : Int) = 2 ^ w.toNat := by
      push_cast
      rfl
    omega

theorem literalBits_pos (z : Int) : 0 < literalBits z := by
  rw [literalBits]
  split <;> omega

/-- The conversions of a number whose bits are counted in 32 bits. -/
structure ConversionsExact (x : ExactInt) : Prop where
  display : display x = x.toInt.repr
  toI128 : ∀ v, x.toI128 = some v ↔ (-2 ^ 127 ≤ x.toInt ∧ x.toInt < 2 ^ 127) ∧ v.toInt = x.toInt
  fitsI64 : x.fitsI64 = true ↔ -2 ^ 63 ≤ x.toInt ∧ x.toInt < 2 ^ 63
  fitsU64 : x.fitsU64 = true ↔ 0 ≤ x.toInt ∧ x.toInt < 2 ^ 64
  toU32 : ∀ v, x.toU32 = some v ↔ (0 ≤ x.toInt ∧ x.toInt < 2 ^ 32) ∧ (v.toNat : Int) = x.toInt

theorem conversions_of_size {x : ExactInt} (hx : Nat.size x.toInt.natAbs < 2 ^ 32) :
    ConversionsExact x where
  display := display_eq hx
  toI128 := by
    intro v
    rw [toI128_eq hx]
    split_ifs with h
    · rw [Option.some.injEq, and_iff_right h, ← BitVec.toInt_inj, toInt_ofInt_128 h, eq_comm]
    · exact iff_of_false (by simp) (fun hv => h hv.1)
  fitsI64 := fitsI64_iff hx
  fitsU64 := fitsU64_iff hx
  toU32 := by
    intro v
    rw [toU32_eq hx]
    split_ifs with h
    · have hvalue : ((BitVec.ofInt 32 x.toInt).toNat : Int) = x.toInt := by
        rw [BitVec.toNat_ofInt]
        omega
      rw [Option.some.injEq, and_iff_right h, ← BitVec.toNat_inj]
      omega
    · exact iff_of_false (by simp) (fun hv => h hv.1)

/-- Reductions, fitting and patterns are exact for all numbers and widths; the width of a
literal is the least positive one that fits, and the conversions are exact, as long as the bits
are counted in 32 bits. -/
theorem reductions_exact (x : ExactInt) (w : U32) :
    Representative 0 w.toNat x.toInt (x.modPow2 w).toInt ∧
    (0 < w.toNat → Representative (-2 ^ (w.toNat - 1)) w.toNat x.toInt (x.sext w).toInt) ∧
    (x.fits w false = true ↔ 0 ≤ x.toInt ∧ x.toInt < 2 ^ w.toNat) ∧
    (0 < w.toNat → (x.fits w true = true ↔
      -2 ^ (w.toNat - 1) ≤ x.toInt ∧ x.toInt < 2 ^ (w.toNat - 1))) ∧
    (w = 0#32 → (x.fits w true = true ↔ x.toInt = 0)) ∧
    ((x.patternWords w).length = (w.toNat + 31) / 32 ∧
      value (x.patternWords w) = (x.toInt % 2 ^ w.toNat).toNat) ∧
    (literalBits x.toInt < 2 ^ 32 → 0 < x.literalWidth.toNat ∧
      x.fits x.literalWidth (decide (x.toInt < 0)) = true ∧
      ∀ v : U32, 0 < v.toNat → x.fits v (decide (x.toInt < 0)) = true →
        x.literalWidth.toNat ≤ v.toNat) ∧
    (Nat.size x.toInt.natAbs < 2 ^ 32 → ConversionsExact x) := by
  refine ⟨modPow2_representative x w, sext_representative x, fits_unsigned_iff x w,
    fits_signed_iff x, ?_, ⟨length_patternWords x w, value_patternWords x w⟩, ?_,
    conversions_of_size⟩
  · rintro rfl
    exact fits_zero_iff x true
  · intro hbits
    have hwidth := toNat_literalWidth hbits
    have hpos : 0 < x.literalWidth.toNat := hwidth ▸ literalBits_pos x.toInt
    refine ⟨hpos, (fits_literalBits x hpos).mpr (Nat.le_of_eq hwidth.symm), ?_⟩
    intro v hv hfits
    rw [hwidth]
    exact (fits_literalBits x hv).mp hfits

theorem reductions_exact_minusSeven :
    (fromI128 (-7)).literalWidth.toNat ≤ 4 ∧ display (fromI128 (-7)) = "-7" := by
  have hx : (fromI128 (-7)).toInt = -7 := toInt_fromI128 _
  obtain ⟨-, -, -, -, -, -, hliteral, hconversions⟩ := reductions_exact (fromI128 (-7)) 4#32
  constructor
  · refine (hliteral ?_).2.2 4#32 (by decide) (by decide +kernel)
    rw [hx]
    decide
  · refine (hconversions ?_).display.trans ?_
    · rw [hx]
      decide
    · rw [hx]
      decide

/-- A number whose bit count wraps to one is printed as zero. -/
theorem display_shiftedOne {n : Nat} (hpos : 0 < n) (hwrap : (32 * n + 1) % 2 ^ 32 = 1) :
    display (fromWords (shiftedOne n)) = "0" := by
  have hle : value billion ≤ 2 ^ (32 * n) := by
    refine Nat.le_trans (show value billion ≤ 2 ^ 32 by decide) ?_
    exact Nat.pow_le_pow_right (by omega) (by omega)
  obtain ⟨hq, hr⟩ := magDivrem_shiftedOne (b := billion) (by simp [Trimmed, billion]) (by decide)
    hle hpos hwrap
  have hnil : (magDivrem (shiftedOne n) billion).1 = [] := magDivrem_trimmed.value_eq_zero.mp hq
  have hhead : ((magDivrem (shiftedOne n) billion).2[0]?.getD 0#32).toNat = 0 := by
    rw [toNat_head (by omega), hr]
  have hnonempty : (shiftedOne n).isEmpty = false := by
    simp [shiftedOne]
  have hmag : (fromWords (shiftedOne n)).mag = shiftedOne n := trim_eq_self (shiftedOne_trimmed n)
  have hloop : ∀ fuel, displayLoop (fuel + 1) (shiftedOne n) = [0] := by
    intro fuel
    rw [displayLoop_succ fuel hnonempty, hhead, hnil]
    cases fuel <;> rfl
  have hfuel : 32 * (shiftedOne n).length = 32 * n + 31 + 1 := by
    simp [shiftedOne]
    omega
  have hzero : (fromWords (shiftedOne n)).isZero = false := by
    rw [isZero, hmag, hnonempty]
  rw [display, hzero, if_neg (by simp)]
  change String.ofList (_ ++ chunkText 9 (displayLoop (32 * (fromWords (shiftedOne n)).mag.length)
    (fromWords (shiftedOne n)).mag)) = _
  rw [hmag, hfuel, hloop]
  rfl

theorem repr_ne_zero {n : Nat} (hn : n ≠ 0) : n.repr ≠ "0" := by
  intro h
  have hdigits : Nat.toDigits 10 n = ['0'] := by
    rw [← Nat.toList_repr, h]
    rfl
  have hvalue := @Nat.ofDigitChars_ten_toDigits n
  rw [hdigits] at hvalue
  exact hn (hvalue.symm.trans rfl)

/-- Zero fits in no bits, but its literal has one; and a number with `2 ^ 27` zero limbs below
its one is not printed as it is. -/
theorem literalWidth_zero_display_wraps :
    ((fromU128 0).fits 0#32 (decide ((fromU128 0).toInt < 0)) = true ∧
      ¬ (fromU128 0).literalWidth.toNat ≤ (0#32).toNat) ∧
    display (fromWords (shiftedOne (2 ^ 27))) ≠ (fromWords (shiftedOne (2 ^ 27))).toInt.repr := by
  refine ⟨by decide +kernel, ?_⟩
  rw [display_shiftedOne (by decide) (by decide), toInt_fromWords, value_shiftedOne, repr_natCast]
  exact (repr_ne_zero (Nat.two_pow_pos _).ne').symm

end Harc.ExactConversions
