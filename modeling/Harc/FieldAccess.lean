import Harc.BitFields
import Harc.ShiftTiers

/-!
Access to bit fields and lanes (`runtime/harc_thread_rt.h`): fields of wide integers, and lanes
of ports, which are packed scalars, arrays of words or arrays of elements.
-/

namespace Harc.FieldAccess

open Harc.WordLists
open Harc.WideRuntime
open Harc.WideBits
open Harc.DivisionTiers
open Harc.ShiftTiers
open Harc.BitFields

/-- What is written and read: an integer or a wide integer. -/
inductive Val where
  | int (v : CInt)
  | wide {M : Nat} (v : HarcWide M)

namespace Val

def toInt : Val → Int
  | int v => v.toInt
  | wide v => v.toNat

def ofU64 (v : U64) : Val :=
  int (CInt.ofU64 v)

def ofU128 (v : U128) : Val :=
  int ⟨false, 128, Nat.le_refl 128, v⟩

/-- `static_cast<uint64_t>` -/
def toU64 : Val → U64
  | int v => BitVec.ofInt 64 v.toInt
  | wide (M := M) v =>
      let low : U64 := if 1 ≤ M then (v.words[0]?.getD 0#32).setWidth 64 else 0#64
      if 2 ≤ M then low ||| ((v.words[1]?.getD 0#32).setWidth 64 <<< 32) else low

/-- The bit that is written at a position of a field. -/
def bit : Val → Nat → Bool
  | int v, b => decide (b < 128) && ((BitVec.ofInt 128 v.toInt) >>> b).getLsbD 0
  | wide v, b => wideGetBit v b

end Val

section Wide

variable {N : Nat}

/-- The loop of `harc_wide_write_bits` from bit `b` of the field on. -/
def writeBitsFrom (lo : Nat) (value : Val) : Nat → Nat → HarcWide N → HarcWide N
  | _, 0, dst => dst
  | b, count + 1, dst =>
      if (lo + b) % 2 ^ 32 < N * 32 % 2 ^ 64 then
        writeBitsFrom lo value (b + 1) count
          (if value.bit b then wideSetBit dst ((lo + b) % 2 ^ 32)
          else wideClearBit dst ((lo + b) % 2 ^ 32))
      else dst

def wideWriteBits (dst : HarcWide N) (lo width : Nat) (value : Val) : HarcWide N :=
  writeBitsFrom lo value 0 width dst

/-- The loop of `harc_wide_extract_bits`. -/
def extractBitsFrom {M : Nat} (value : HarcWide N) (lo : Nat) :
    Nat → Nat → HarcWide M → HarcWide M
  | _, 0, out => out
  | b, count + 1, out =>
      extractBitsFrom value lo (b + 1) count
        (if wideGetBit value ((lo + b) % 2 ^ 32) then wideSetBit out b else out)

def wideExtractBits (M : Nat) (value : HarcWide N) (lo width : Nat) : HarcWide M :=
  let capped := if width < M * 32 % 2 ^ 64 then width else M * 32 % 2 ^ 32
  wideMaskBits (extractBitsFrom value lo 0 capped (HarcWide.zero M)) capped

/-- `harc_wide_extract_bits` of a value of 128 bits -/
def wideExtractBitsU128 (M : Nat) (value : U128) (lo width : Nat) : HarcWide M :=
  wideExtractBits M (wideZextInt 4 ⟨false, 128, Nat.le_refl 128, value⟩) lo width

/-- A loop that collects bits in a word. -/
def collectFrom (bitAt : Nat → Bool) : Nat → Nat → U64 → U64
  | _, 0, out => out
  | b, count + 1, out =>
      collectFrom bitAt (b + 1) count (if bitAt b then out ||| (1#64 <<< b) else out)

/-- The bit of a word array, read in its word. -/
def wordBit (words : List U32) (src : Nat) : Bool :=
  ((words[src / 32]?.getD 0#32) >>> (src % 32)).getLsbD 0

/-- `harc_bits` of a wide integer -/
def harcBits (value : HarcWide N) (hi lo : Nat) : U64 :=
  if hi < lo ∨ N * 32 % 2 ^ 64 ≤ hi ∨ N * 32 % 2 ^ 64 ≤ lo then 0#64
  else
    let width := hi - lo + 1
    let capped := if 64 < width then 64 else width
    collectFrom (fun b => wordBit value.words ((lo + b) % 2 ^ 32)) 0 capped 0#64

/-- `harc_bits` of a value of 128 bits -/
def harcBitsU128 (value : U128) (hi lo : Nat) : U64 :=
  if hi < lo then 0#64
  else if 128 ≤ hi ∨ 128 ≤ lo then 0#64
  else
    let width := hi - lo + 1
    let shifted := value >>> lo
    if 64 ≤ width then shifted.setWidth 64
    else (shifted &&& ((1#128 <<< width) - 1#128)).setWidth 64

end Wide

/-! Lanes of a packed scalar of `c` bits. -/

def packedLaneRead {c : Nat} (W : Nat) (sig : BitVec c) (lane : Nat) : U128 :=
  (sig.setWidth 128 >>> (lane * W)) &&& maskU128 W

def packedLaneWrite {c : Nat} (W : Nat) (sig : BitVec c) (lane : Nat) (val : Val) : BitVec c :=
  let shift := lane % 2 ^ 32 * W % 2 ^ 32
  let fieldMask := maskU128 W <<< shift
  let ins := (val.toU64.setWidth 128 &&& maskU128 W) <<< shift
  let cur := sig.setWidth 128
  ((cur &&& ~~~fieldMask) ||| ins).setWidth c

/-! Lanes of an array of words. -/

section Words

variable {N : Nat}

def wordLaneRead (W : Nat) (sig : HarcWide N) (lane : Nat) : U64 :=
  let lo := lane % 2 ^ 32 * W % 2 ^ 32
  let capped := if 64 < W then 64 else W
  collectFrom (fun b => wordBit sig.words ((lo + b) % 2 ^ 32)) 0 capped 0#64

/-- One bit of a word array, replaced in its word. -/
def depositBit (sig : HarcWide N) (src : Nat) (bitval : Bool) : HarcWide N where
  words := sig.words.modify (src / 32) fun w =>
    (w &&& ~~~(1#32 <<< (src % 32))) ||| ((BitVec.ofBool bitval).setWidth 32 <<< (src % 32))
  length_eq := by rw [List.length_modify, sig.length_eq]

def depositFrom (lo : Nat) (v : U64) : Nat → Nat → HarcWide N → HarcWide N
  | _, 0, sig => sig
  | b, count + 1, sig =>
      depositFrom lo v (b + 1) count (depositBit sig ((lo + b) % 2 ^ 32) ((v >>> b).getLsbD 0))

def wordLaneWrite (W : Nat) (sig : HarcWide N) (lane : Nat) (val : Val) : HarcWide N :=
  let lo := lane % 2 ^ 32 * W % 2 ^ 32
  let capped := if 64 < W then 64 else W
  depositFrom lo val.toU64 0 capped sig

end Words

/-! Lanes of an array of elements.  An element is a scalar or an array of words, and the width
of the lanes is not used. -/

inductive ElementShape where
  | scalar (c : Nat)
  | words (N : Nat)
deriving DecidableEq

namespace ElementShape

def Elem : ElementShape → Type
  | scalar c => BitVec c
  | words N => HarcWide N

def size : ElementShape → Nat
  | scalar c => c
  | words N => 32 * N

/-- `harc_assign` -/
def assign : (s : ElementShape) → Val → s.Elem
  | scalar c, .int v => BitVec.ofInt c v.toInt
  | scalar c, val => val.toU64.setWidth c
  | words N, .wide v => wideZextWide N v
  | words N, .int v =>
      { words := (List.range N).map fun i =>
          if i < 4 then ((BitVec.ofInt 128 v.toInt) >>> (32 * i)).setWidth 32 else 0#32
        length_eq := by simp }

/-- `harc_read` -/
def read : (s : ElementShape) → s.Elem → Val
  | scalar c, e => .ofU128 (BitVec.setWidth 128 (w := c) e)
  | words _, e => .wide e

end ElementShape

def arrayLaneRead (_W : Nat) (s : ElementShape) {n : Nat} (sig : Fin n → s.Elem) (lane : Fin n) :
    Val :=
  s.read (sig lane)

def arrayLaneWrite (_W : Nat) (s : ElementShape) {n : Nat} (sig : Fin n → s.Elem) (lane : Fin n)
    (val : Val) : Fin n → s.Elem :=
  Function.update sig lane (s.assign val)

/-! Residues of written values. -/

/-- An integer of more than 128 bits is not sign-extended. -/
def Val.Admits (width : Nat) : Val → Prop
  | .int v => width ≤ 128 ∨ 0 ≤ v.toInt
  | .wide (M := M) _ => 32 * M < 2 ^ 32

theorem residue_mod {m n : Nat} (h : m ≤ n) (z : Int) :
    (z % 2 ^ n).toNat % 2 ^ m = (z % 2 ^ m).toNat := by
  have hdvd : ((2 : Int) ^ m) ∣ 2 ^ n := pow_dvd_pow 2 h
  have hcast : (((z % 2 ^ n).toNat % 2 ^ m : Nat) : Int) = ((z % 2 ^ m).toNat : Int) := by
    rw [Int.natCast_emod, natCast_toNat_emod, natCast_toNat_emod]
    push_cast
    exact Int.emod_emod_of_dvd z hdvd
  exact_mod_cast hcast

theorem testBit_residue {m n b : Nat} (hm : b < m) (hn : b < n) (z : Int) :
    (z % 2 ^ n).toNat.testBit b = (z % 2 ^ m).toNat.testBit b := by
  have hbelow : ∀ k, b < k →
      (z % 2 ^ k).toNat.testBit b = (z % 2 ^ (b + 1)).toNat.testBit b := by
    intro k hk
    rw [← residue_mod (show b + 1 ≤ k by omega), Nat.testBit_mod_two_pow,
      decide_eq_true (by omega), Bool.true_and]
  rw [hbelow n hn, hbelow m hm]

theorem residue_natCast (x n : Nat) : ((x : Int) % 2 ^ n).toNat = x % 2 ^ n := by
  have hcast : ((x : Int) % 2 ^ n) = ((x % 2 ^ n : Nat) : Int) := by
    push_cast
    rfl
  rw [hcast, Int.toNat_natCast]

theorem toNat_ofInt_eq (n : Nat) (z : Int) : (BitVec.ofInt n z).toNat = (z % 2 ^ n).toNat := by
  rw [BitVec.toNat_ofInt]
  push_cast
  rfl

namespace Val

theorem bit_eq {width b : Nat} {v : Val} (hv : v.Admits width) (hb : b < width) :
    v.bit b = (v.toInt % 2 ^ width).toNat.testBit b := by
  cases v with
  | wide v =>
      rw [bit, wideGetBit_eq hv, toInt, residue_natCast, Nat.testBit_mod_two_pow,
        decide_eq_true hb, Bool.true_and]
  | int v =>
      have hraw : ((BitVec.ofInt 128 v.toInt) >>> b).getLsbD 0 =
          (v.toInt % 2 ^ 128).toNat.testBit b := by
        rw [BitVec.getLsbD_ushiftRight, Nat.add_zero, BitVec.getLsbD, toNat_ofInt_eq]
      rw [bit, hraw, toInt]
      rcases Nat.lt_or_ge b 128 with hlow | hhigh
      · rw [decide_eq_true hlow, Bool.true_and, testBit_residue hb hlow]
      · have hnonneg : 0 ≤ v.toInt := by
          rcases hv with hwidth | hnonneg
          · omega
          · exact hnonneg
        have hbounds := v.toInt_bounds
        obtain ⟨x, hx⟩ := Int.eq_ofNat_of_zero_le hnonneg
        have hsmall : x < 2 ^ 128 := by omega
        have hbig : x < 2 ^ b := Nat.lt_of_lt_of_le hsmall (Nat.pow_le_pow_right (by omega) hhigh)
        rw [decide_eq_false (by omega), Bool.false_and, hx, residue_natCast,
          Nat.testBit_mod_two_pow, Nat.testBit_lt_two_pow hbig, Bool.and_false]

theorem toNat_toU64 (v : Val) : v.toU64.toNat = (v.toInt % 2 ^ 64).toNat := by
  cases v with
  | int v => exact toNat_ofInt_eq 64 v.toInt
  | wide v =>
      obtain ⟨words, rfl⟩ := v
      rw [toInt, residue_natCast, HarcWide.toNat]
      rcases words with _ | ⟨w0, _ | ⟨w1, more⟩⟩
      · rfl
      · have hw0 := w0.isLt
        have hlow : (w0.setWidth 64).toNat = w0.toNat := toNat_setWidth_of_le (by omega) w0
        rw [value_cons, value_nil, Nat.mul_zero, Nat.add_zero, Nat.mod_eq_of_lt (by omega)]
        exact hlow
      · have hw0 := w0.isLt
        have hw1 := w1.isLt
        have hpair : (wide ⟨w0 :: w1 :: more, rfl⟩).toU64 =
            w0.setWidth 64 ||| w1.setWidth 64 <<< 32 := by
          simp [toU64]
        rw [hpair, toNat_lowPair, value_cons, value_cons]
        omega

theorem getLsbD_toU64 {b : Nat} (hb : b < 64) {width : Nat} (hwidth : b < width) (v : Val) :
    v.toU64.getLsbD b = (v.toInt % 2 ^ width).toNat.testBit b := by
  rw [BitVec.getLsbD, toNat_toU64, testBit_residue hwidth hb]

end Val

/-! Fields of wide integers. -/

section WideFields

variable {N : Nat} (hN : 32 * N < 2 ^ 32)

include hN

theorem testBit_writeBitsFrom {lo : Nat} {value : Val} (count b : Nat) (dst : HarcWide N)
    (hfits : lo + b + count ≤ 32 * N) (i : Nat) :
    (writeBitsFrom lo value b count dst).toNat.testBit i =
      if lo + b ≤ i ∧ i < lo + b + count then value.bit (i - lo) else dst.toNat.testBit i := by
  induction count generalizing b dst with
  | zero => rw [writeBitsFrom, if_neg (by omega)]
  | succ count ih =>
      have hsrc : (lo + b) % 2 ^ 32 = lo + b := Nat.mod_eq_of_lt (by omega)
      have hdst : (if value.bit b then wideSetBit dst (lo + b) else
          wideClearBit dst (lo + b)).toNat.testBit i =
          if i = lo + b then value.bit b else dst.toNat.testBit i := by
        cases value.bit b with
        | true =>
            rw [if_pos rfl, testBit_wideSetBit hN]
            exact if_congr (and_iff_left (by omega)) rfl rfl
        | false =>
            rw [if_neg (by simp), testBit_wideClearBit hN]
            exact if_congr (and_iff_left (by omega)) rfl rfl
      rw [writeBitsFrom, hsrc, bitCount_eq hN, if_pos (by omega), ih _ _ (by omega), hdst]
      rcases eq_or_ne i (lo + b) with rfl | hne
      · rw [if_neg (by omega), if_pos rfl, if_pos (by omega), Nat.add_sub_cancel_left]
      · rw [if_neg hne]
        exact if_congr (by omega) rfl rfl

theorem writes_wideWriteBits (dst : HarcWide N) {lo width : Nat} (hfits : lo + width ≤ 32 * N)
    {v : Val} (hv : v.Admits width) :
    Writes lo width (v.toInt % 2 ^ width).toNat dst.toNat (wideWriteBits dst lo width v).toNat := by
  intro i
  rw [wideWriteBits, testBit_writeBitsFrom hN _ _ _ hfits, Nat.add_zero]
  split_ifs with hi
  · exact Val.bit_eq hv (by omega)
  · rfl

theorem testBit_extractBitsFrom {M : Nat} (hM : 32 * M < 2 ^ 32) {value : HarcWide N} {lo : Nat}
    (count b : Nat) (out : HarcWide M) (hlo : lo + b + count ≤ 2 ^ 32)
    (hfits : b + count ≤ 32 * M) (i : Nat) :
    (extractBitsFrom value lo b count out).toNat.testBit i =
      (out.toNat.testBit i ||
        decide (b ≤ i ∧ i < b + count) && value.toNat.testBit (lo + i)) := by
  induction count generalizing b out with
  | zero =>
      rw [extractBitsFrom, decide_eq_false (by omega), Bool.false_and, Bool.or_false]
  | succ count ih =>
      have hsrc : (lo + b) % 2 ^ 32 = lo + b := Nat.mod_eq_of_lt (by omega)
      have hout : (if value.toNat.testBit (lo + b) then wideSetBit out b else
          out).toNat.testBit i =
          (out.toNat.testBit i || decide (i = b) && value.toNat.testBit (lo + i)) := by
        rcases eq_or_ne i b with rfl | hne
        · cases hbit : value.toNat.testBit (lo + i) with
          | true =>
              rw [if_pos rfl, testBit_wideSetBit hM, if_pos (by omega), decide_eq_true rfl,
                Bool.true_and, Bool.or_true]
          | false => rw [if_neg (by simp), Bool.and_false, Bool.or_false]
        · rw [apply_ite HarcWide.toNat, apply_ite (Nat.testBit · i), testBit_wideSetBit hM,
            if_neg (c := i = b ∧ _) (by omega), ite_self, decide_eq_false hne, Bool.false_and,
            Bool.or_false]
      rw [extractBitsFrom, hsrc, wideGetBit_eq hN, ih _ _ (by omega) (by omega), hout,
        Bool.or_assoc, ← Bool.and_or_distrib_right]
      congr 2
      rw [← Bool.decide_or, decide_eq_decide]
      omega

theorem toNat_wideExtractBits {M : Nat} (hM : 32 * M < 2 ^ 32) (value : HarcWide N)
    {lo width : Nat} (hlo : lo + width ≤ 2 ^ 32) (hwidth : width ≤ 32 * M) :
    (wideExtractBits M value lo width).toNat = field lo width value.toNat := by
  have hcapped : (if width < M * 32 % 2 ^ 64 then width else M * 32 % 2 ^ 32) = width := by
    rw [bitCount_eq hM, Nat.mod_eq_of_lt (show M * 32 < 2 ^ 32 by omega)]
    split_ifs <;> omega
  rw [wideExtractBits, hcapped, eq_field_iff]
  intro i
  rw [testBit_wideMaskBits hM, testBit_extractBitsFrom hN hM _ _ _ (by omega) (by omega),
    HarcWide.toNat_zero, Nat.zero_testBit, Bool.false_or]
  rcases Nat.lt_or_ge i width with hi | hi
  · rw [decide_eq_true hi, decide_eq_true (by omega), Bool.true_and]
  · rw [decide_eq_false (by omega), Bool.false_and, Bool.false_and]

end WideFields

/-! Bits that are collected in a word. -/

theorem getLsbD_one_shiftLeft_u64 {b : Nat} (hb : b < 64) (i : Nat) :
    (1#64 <<< b).getLsbD i = decide (i = b) := by
  rw [← BitVec.twoPow_eq, BitVec.getLsbD_twoPow, decide_eq_true hb, Bool.true_and,
    decide_eq_decide]
  exact eq_comm

theorem getLsbD_collectFrom {bitAt : Nat → Bool} (count b : Nat) (out : U64)
    (hfits : b + count ≤ 64) (i : Nat) :
    (collectFrom bitAt b count out).getLsbD i =
      (out.getLsbD i || decide (b ≤ i ∧ i < b + count) && bitAt i) := by
  induction count generalizing b out with
  | zero => rw [collectFrom, decide_eq_false (by omega), Bool.false_and, Bool.or_false]
  | succ count ih =>
      have hout : (if bitAt b then out ||| (1#64 <<< b) else out).getLsbD i =
          (out.getLsbD i || decide (i = b) && bitAt i) := by
        rw [apply_ite (BitVec.getLsbD · i), BitVec.getLsbD_or,
          getLsbD_one_shiftLeft_u64 (by omega)]
        rcases eq_or_ne i b with rfl | hne
        · cases bitAt i <;> simp
        · rw [decide_eq_false hne, Bool.or_false, ite_self, Bool.false_and, Bool.or_false]
      rw [collectFrom, ih _ _ (by omega), hout, Bool.or_assoc, ← Bool.and_or_distrib_right]
      congr 2
      rw [← Bool.decide_or, decide_eq_decide]
      omega

theorem toNat_collect {N : Nat} (sig : HarcWide N) {lo width : Nat} (hwidth : width ≤ 64)
    (hlo : lo + width ≤ 2 ^ 32) :
    (collectFrom (fun b => wordBit sig.words ((lo + b) % 2 ^ 32)) 0 width 0#64).toNat =
      field lo width sig.toNat := by
  rw [eq_field_iff]
  intro i
  change BitVec.getLsbD _ i = _
  rw [getLsbD_collectFrom _ _ _ (by omega), BitVec.getLsbD_zero, Bool.false_or]
  rcases Nat.lt_or_ge i width with hi | hi
  · rw [decide_eq_true hi, decide_eq_true (by omega), Bool.true_and, Bool.true_and, wordBit,
      getLsbD_zero_ushiftRight, Nat.mod_eq_of_lt (by omega), ← testBit_toNat]
  · rw [decide_eq_false (by omega), decide_eq_false (by omega), Bool.false_and, Bool.false_and]

theorem toNat_harcBits {N : Nat} (hN : 32 * N < 2 ^ 32) (value : HarcWide N) {lo width : Nat}
    (hpos : 0 < width) (hwidth : width ≤ 64) (hfits : lo + width ≤ 32 * N) :
    (harcBits value (lo + width - 1) lo).toNat = field lo width value.toNat := by
  rw [harcBits, bitCount_eq hN, if_neg (by omega)]
  simp only [show lo + width - 1 - lo + 1 = width by omega]
  rw [if_neg (by omega)]
  exact toNat_collect value hwidth (by omega)

theorem toNat_harcBitsU128 (value : U128) {lo width : Nat} (hpos : 0 < width) (hwidth : width ≤ 64)
    (hfits : lo + width ≤ 128) :
    (harcBitsU128 value (lo + width - 1) lo).toNat = field lo width value.toNat := by
  rw [harcBitsU128, if_neg (by omega), if_neg (by omega), field]
  simp only [show lo + width - 1 - lo + 1 = width by omega]
  have hshift : (value >>> lo).toNat = value.toNat / 2 ^ lo := by
    rw [BitVec.toNat_ushiftRight, Nat.shiftRight_eq_div_pow]
  split_ifs with hfull
  · obtain rfl : width = 64 := by omega
    rw [BitVec.toNat_setWidth, hshift]
  · have hmod : ((value >>> lo) &&& ((1#128 <<< width) - 1#128)).toNat =
        value.toNat / 2 ^ lo % 2 ^ width := by
      rw [one_shiftLeft_sub_one (by omega), and_lowMask, toNat_setWidth_of_le (by omega),
        BitVec.toNat_setWidth, hshift]
    have hlt : value.toNat / 2 ^ lo % 2 ^ width < 2 ^ 64 :=
      Nat.lt_of_lt_of_le (Nat.mod_lt _ (Nat.two_pow_pos width))
        (Nat.pow_le_pow_right (by omega) hwidth)
    rw [BitVec.toNat_setWidth, hmod, Nat.mod_eq_of_lt hlt]

/-! Lanes. -/

theorem laneOffset_eq {lane W : Nat} (h : lane * W < 2 ^ 32) :
    lane % 2 ^ 32 * W % 2 ^ 32 = lane * W := by
  rw [Nat.mod_mul_mod, Nat.mod_eq_of_lt h]

section Packed

variable {c W lane : Nat} (hc : c ≤ 128) (hfits : lane * W + W ≤ c)

include hc hfits

theorem toNat_packedLaneRead (sig : BitVec c) :
    (packedLaneRead W sig lane).toNat = field (lane * W) W sig.toNat := by
  rw [packedLaneRead, toNat_and_maskU128 (by omega), BitVec.toNat_ushiftRight,
    toNat_setWidth_of_le hc, Nat.shiftRight_eq_div_pow, field]

theorem writes_packedLaneWrite (hW : W ≤ 64) (sig : BitVec c) (v : Val) :
    Writes (lane * W) W (v.toInt % 2 ^ W).toNat sig.toNat (packedLaneWrite W sig lane v).toNat := by
  have hmask : ∀ j, (maskU128 W).getLsbD j = decide (j < W) := by
    intro j
    rw [BitVec.getLsbD, toNat_maskU128 (by omega), Nat.testBit_two_pow_sub_one]
  intro i
  change BitVec.getLsbD _ i = if _ then _ else sig.getLsbD i
  rw [packedLaneWrite, laneOffset_eq (by omega), BitVec.getLsbD_setWidth, BitVec.getLsbD_or,
    BitVec.getLsbD_and, BitVec.getLsbD_not, BitVec.getLsbD_shiftLeft, BitVec.getLsbD_shiftLeft,
    BitVec.getLsbD_and, hmask, BitVec.getLsbD_setWidth, BitVec.getLsbD_setWidth]
  rcases Nat.lt_or_ge i c with hi | hi
  · rw [decide_eq_true hi, decide_eq_true (show i < 128 by omega)]
    rcases Nat.lt_or_ge i (lane * W) with hlow | hge
    · rw [decide_eq_true hlow, if_neg (by omega)]
      simp
    · rw [decide_eq_false (p := i < lane * W) (by omega)]
      rcases Nat.lt_or_ge (i - lane * W) W with hin | hout
      · rw [if_pos (by omega), ← v.getLsbD_toU64 (by omega) hin, decide_eq_true hin,
          decide_eq_true (p := i - lane * W < 128) (by omega)]
        simp
      · rw [if_neg (by omega), decide_eq_false (p := i - lane * W < W) (by omega)]
        simp
  · rw [decide_eq_false (p := i < c) (by omega), if_neg (by omega), BitVec.getLsbD_of_ge sig i hi,
      Bool.false_and]

end Packed

section WordLanes

variable {N : Nat}

theorem testBit_depositBit (hN : 32 * N < 2 ^ 32) (sig : HarcWide N) {src : Nat}
    (hsrc : src < 32 * N) (bitval : Bool) (i : Nat) :
    (depositBit sig src bitval).toNat.testBit i =
      if i = src then bitval else sig.toNat.testBit i := by
  have hmodify : depositBit sig src bitval = modifyBit (fun w =>
      (w &&& ~~~(1#32 <<< (src % 32))) ||| ((BitVec.ofBool bitval).setWidth 32 <<< (src % 32)))
      sig src := by
    rw [modifyBit, bitCount_eq hN, if_pos hsrc]
    rfl
  rw [hmodify, testBit_modifyBit hN (g := fun _ => bitval)]
  · exact if_congr (and_iff_left hsrc) rfl rfl
  · intro x j hj
    have hword : src % 32 < 32 := Nat.mod_lt src (Nat.succ_pos 31)
    rw [BitVec.getLsbD_or, BitVec.getLsbD_and, BitVec.getLsbD_not, decide_eq_true hj,
      getLsbD_one_shiftLeft hword, BitVec.getLsbD_shiftLeft, decide_eq_true hj,
      BitVec.getLsbD_setWidth, BitVec.getLsbD_ofBool]
    rcases Nat.lt_trichotomy j (src % 32) with hlow | heq | hhigh
    · simp [hlow, Nat.ne_of_lt hlow]
    · simp [heq]
    · simp [show ¬ j - src % 32 = 0 by omega, Nat.ne_of_gt hhigh]

theorem testBit_depositFrom {lo : Nat} {v : U64} (hN : 32 * N < 2 ^ 32) (count b : Nat)
    (sig : HarcWide N) (hfits : lo + b + count ≤ 32 * N) (i : Nat) :
    (depositFrom lo v b count sig).toNat.testBit i =
      if lo + b ≤ i ∧ i < lo + b + count then v.getLsbD (i - lo) else sig.toNat.testBit i := by
  induction count generalizing b sig with
  | zero => rw [depositFrom, if_neg (by omega)]
  | succ count ih =>
      have hsrc : (lo + b) % 2 ^ 32 = lo + b := Nat.mod_eq_of_lt (by omega)
      rw [depositFrom, hsrc, ih _ _ (by omega), testBit_depositBit hN _ (by omega),
        BitVec.getLsbD_ushiftRight]
      rcases eq_or_ne i (lo + b) with rfl | hne
      · rw [if_neg (by omega), if_pos rfl, if_pos (by omega), Nat.add_sub_cancel_left,
          Nat.add_zero]
      · rw [if_neg hne]
        exact if_congr (by omega) rfl rfl

variable {W lane : Nat} (hN : 32 * N < 2 ^ 32) (hW : W ≤ 64) (hfits : lane * W + W ≤ 32 * N)

include hN hW hfits

theorem toNat_wordLaneRead (sig : HarcWide N) :
    (wordLaneRead W sig lane).toNat = field (lane * W) W sig.toNat := by
  rw [wordLaneRead, laneOffset_eq (by omega), if_neg (by omega)]
  exact toNat_collect sig hW (by omega)

theorem writes_wordLaneWrite (sig : HarcWide N) (v : Val) :
    Writes (lane * W) W (v.toInt % 2 ^ W).toNat sig.toNat (wordLaneWrite W sig lane v).toNat := by
  intro i
  rw [wordLaneWrite, laneOffset_eq (by omega), if_neg (by omega),
    testBit_depositFrom hN _ _ _ (by omega), Nat.add_zero]
  split_ifs with hi
  · exact v.getLsbD_toU64 (by omega) (by omega)
  · rfl

end WordLanes

/-! Elements of arrays. -/

namespace ElementShape

/-- Scalars are integers of the host. -/
def Valid : ElementShape → Prop
  | scalar c => c ≤ 64
  | words N => 32 * N < 2 ^ 32

theorem toNat_assign_words (N : Nat) (v : CInt) :
    HarcWide.toNat (N := N) ((words N).assign (.int v)) =
      (v.toInt % 2 ^ 128).toNat % 2 ^ (32 * N) := by
  have hzext : (words N).assign (.int v) =
      wideZextInt N ⟨false, 128, Nat.le_refl 128, BitVec.ofInt 128 v.toInt⟩ := by
    simp only [assign, wideZextInt, BitVec.setWidth_eq]
    rfl
  rw [hzext]
  refine (toNat_wideZextInt N _).trans ?_
  rw [← toNat_ofInt_eq 128 v.toInt]

theorem ofInt_toNat_setWidth {c : Nat} (hc : c ≤ 128) (e : BitVec c) :
    BitVec.ofInt c ((e.setWidth 128).toNat : Int) = e := by
  rw [toNat_setWidth_of_le hc, BitVec.ofInt_natCast, BitVec.ofNat_toNat, BitVec.setWidth_eq]

theorem toInt_read_assign {s : ElementShape} (hs : s.Valid) {v : Val} (hv : v.Admits s.size) :
    (s.read (s.assign v)).toInt = v.toInt % 2 ^ s.size := by
  rw [← natCast_toNat_emod]
  cases s with
  | scalar c =>
      have hc : c ≤ 64 := hs
      have hread : ∀ e : BitVec c, ((scalar c).read e).toInt = e.toNat := by
        intro e
        change ((BitVec.setWidth 128 e).toNat : Int) = e.toNat
        rw [toNat_setWidth_of_le (by omega)]
      cases v with
      | int v =>
          refine (hread (BitVec.ofInt c v.toInt)).trans ?_
          rw [toNat_ofInt_eq]
          rfl
      | wide v =>
          refine (hread ((Val.wide v).toU64.setWidth c)).trans ?_
          rw [BitVec.toNat_setWidth, Val.toNat_toU64, residue_mod hc]
          rfl
  | words N =>
      cases v with
      | wide v =>
          change ((wideZextWide N v).toNat : Int) = _
          rw [toNat_wideZextWide, Val.toInt, residue_natCast]
          rfl
      | int v =>
          change ((HarcWide.toNat (N := N) ((words N).assign (.int v)) : Nat) : Int) =
            ((v.toInt % 2 ^ (32 * N)).toNat : Int)
          rw [toNat_assign_words]
          rcases hv with hsize | hnonneg
          · rw [residue_mod (show 32 * N ≤ 128 from hsize)]
          · obtain ⟨x, hx⟩ := Int.eq_ofNat_of_zero_le hnonneg
            have hbounds := v.toInt_bounds
            have hsmall : x < 2 ^ 128 := by omega
            rw [hx, residue_natCast, residue_natCast, Nat.mod_eq_of_lt hsmall]

theorem assign_read {s : ElementShape} (hs : s.Valid) (e : s.Elem) : s.assign (s.read e) = e := by
  cases s with
  | scalar c =>
      have hc : c ≤ 64 := hs
      exact ofInt_toNat_setWidth (by omega) e
  | words N =>
      refine HarcWide.toNat_injective ?_
      exact (toNat_wideZextWide N (M := N) e).trans (Nat.mod_eq_of_lt (HarcWide.toNat_lt e))

end ElementShape

/-! The accesses that the runtime has. -/

/-- A lane of a given width. -/
structure Lane where
  lane : Nat
  W : Nat

def Lane.span (l : Lane) : Span :=
  ⟨l.lane * l.W, l.W⟩

/-- A lane that lies in a carrier of `size` bits. -/
def Lane.In (size : Nat) (l : Lane) : Prop :=
  l.W ≤ 64 ∧ l.lane * l.W + l.W ≤ size

def Span.In (size : Nat) (s : Span) : Prop :=
  s.lo + s.width ≤ size

def wideWriter (N : Nat) : Writer (HarcWide N) Val Span where
  span := id
  Admits := Span.In (32 * N)
  write f v c := wideWriteBits c f.lo f.width v

def wordLaneWriter (N : Nat) : Writer (HarcWide N) Val Lane where
  span := Lane.span
  Admits := Lane.In (32 * N)
  write f v c := wordLaneWrite f.W c f.lane v

def packedLaneWriter (c : Nat) : Writer (BitVec c) Val Lane where
  span := Lane.span
  Admits := Lane.In c
  write f v sig := packedLaneWrite f.W sig f.lane v

/-- `harc_wide_extract_bits`, with a result of `M` words -/
def extractReader (N M : Nat) : Reader (HarcWide N) Val Span where
  span := id
  Admits g := Span.In (32 * N) g ∧ g.width ≤ 32 * M
  read g c := .wide (wideExtractBits M c g.lo g.width)

def bitsReader (N : Nat) : Reader (HarcWide N) Val Span where
  span := id
  Admits g := Span.In (32 * N) g ∧ 0 < g.width ∧ g.width ≤ 64
  read g c := .ofU64 (harcBits c (g.lo + g.width - 1) g.lo)

def wordLaneReader (N : Nat) : Reader (HarcWide N) Val Lane where
  span := Lane.span
  Admits := Lane.In (32 * N)
  read g c := .ofU64 (wordLaneRead g.W c g.lane)

def packedLaneReader (c : Nat) : Reader (BitVec c) Val Lane where
  span := Lane.span
  Admits := Lane.In c
  read g sig := .ofU128 (packedLaneRead g.W sig g.lane)

/-- `harc_bits` of a packed scalar, which is converted to 128 bits -/
def packedBitsReader (c : Nat) : Reader (BitVec c) Val Span where
  span := id
  Admits g := Span.In 128 g ∧ 0 < g.width ∧ g.width ≤ 64
  read g sig := .ofU64 (harcBitsU128 (sig.setWidth 128) (g.lo + g.width - 1) g.lo)

def packedExtractReader (c M : Nat) : Reader (BitVec c) Val Span where
  span := id
  Admits g := Span.In 128 g ∧ g.width ≤ 32 * M
  read g sig := .wide (wideExtractBitsU128 M (sig.setWidth 128) g.lo g.width)

/-- A reader of words: the number of a word decides the word. -/
theorem lawful_of_toNat {C G R : Type} {bits : C → Nat} {r : Reader C Val G} (toNat : R → Nat)
    (wrap : R → Val) {word : G → C → R} (hinj : ∀ x y, toNat x = toNat y → x = y)
    (hwrap : ∀ x, (wrap x).toInt = toNat x) (hfits : ∀ width x, (wrap x).Admits width)
    (hread : ∀ g c, r.read g c = wrap (word g c))
    (h : ∀ g c, r.Admits g → toNat (word g c) = field (r.span g).lo (r.span g).width (bits c)) :
    r.Lawful bits Val.toInt Val.Admits where
  reads := by
    intro g c hg
    rw [hread, hwrap, h g c hg]
  depends := by
    intro g c d hg hfield
    rw [hread, hread, hinj _ _ ((h g c hg).trans (hfield.trans (h g d hg).symm))]
  fits := by
    intro g c _
    rw [hread]
    exact hfits _ _

section Lawful

variable {C G : Type} {bits : C → Nat} {r : Reader C Val G}

theorem lawful_ofU64 {word : G → C → U64} (hread : ∀ g c, r.read g c = .ofU64 (word g c))
    (h : ∀ g c, r.Admits g →
      (word g c).toNat = field (r.span g).lo (r.span g).width (bits c)) :
    r.Lawful bits Val.toInt Val.Admits :=
  lawful_of_toNat BitVec.toNat Val.ofU64 (fun _ _ => BitVec.eq_of_toNat_eq) (fun _ => rfl)
    (fun _ _ => Or.inr (Int.natCast_nonneg _)) hread h

theorem lawful_ofU128 {word : G → C → U128} (hread : ∀ g c, r.read g c = .ofU128 (word g c))
    (h : ∀ g c, r.Admits g →
      (word g c).toNat = field (r.span g).lo (r.span g).width (bits c)) :
    r.Lawful bits Val.toInt Val.Admits :=
  lawful_of_toNat BitVec.toNat Val.ofU128 (fun _ _ => BitVec.eq_of_toNat_eq) (fun _ => rfl)
    (fun _ _ => Or.inr (Int.natCast_nonneg _)) hread h

theorem lawful_wide {M : Nat} (hM : 32 * M < 2 ^ 32) {word : G → C → HarcWide M}
    (hread : ∀ g c, r.read g c = .wide (word g c))
    (h : ∀ g c, r.Admits g →
      (word g c).toNat = field (r.span g).lo (r.span g).width (bits c)) :
    r.Lawful bits Val.toInt Val.Admits :=
  lawful_of_toNat HarcWide.toNat Val.wide (fun _ _ => HarcWide.toNat_injective) (fun _ => rfl)
    (fun _ _ => hM) hread h

end Lawful

section WordCarriers

variable {N : Nat} (hN : 32 * N < 2 ^ 32)

include hN

theorem wideWriter_lawful :
    (wideWriter N).Lawful HarcWide.toNat Val.toInt Val.Admits :=
  fun _ _ c hf hv => writes_wideWriteBits hN c hf hv

theorem wordLaneWriter_lawful :
    (wordLaneWriter N).Lawful HarcWide.toNat Val.toInt Val.Admits :=
  fun _ v c hf _ => writes_wordLaneWrite hN hf.1 hf.2 c v

theorem extractReader_lawful {M : Nat} (hM : 32 * M < 2 ^ 32) :
    (extractReader N M).Lawful HarcWide.toNat Val.toInt Val.Admits := by
  refine lawful_wide hM (fun _ _ => rfl) fun g c hg => ?_
  have hin : g.lo + g.width ≤ 32 * N := hg.1
  exact toNat_wideExtractBits hN hM c (by omega) hg.2

theorem bitsReader_lawful :
    (bitsReader N).Lawful HarcWide.toNat Val.toInt Val.Admits :=
  lawful_ofU64 (fun _ _ => rfl) fun _ c hg => toNat_harcBits hN c hg.2.1 hg.2.2 hg.1

theorem wordLaneReader_lawful :
    (wordLaneReader N).Lawful HarcWide.toNat Val.toInt Val.Admits :=
  lawful_ofU64 (fun _ _ => rfl) fun _ c hg => toNat_wordLaneRead hN hg.1 hg.2 c

end WordCarriers

section PackedCarriers

variable {c : Nat} (hc : c ≤ 128)

include hc

theorem packedLaneWriter_lawful :
    (packedLaneWriter c).Lawful BitVec.toNat Val.toInt Val.Admits :=
  fun _ v sig hf _ => writes_packedLaneWrite hc hf.2 hf.1 sig v

theorem packedLaneReader_lawful :
    (packedLaneReader c).Lawful BitVec.toNat Val.toInt Val.Admits :=
  lawful_ofU128 (fun _ _ => rfl) fun _ sig hg => toNat_packedLaneRead hc hg.2 sig

theorem packedBitsReader_lawful :
    (packedBitsReader c).Lawful BitVec.toNat Val.toInt Val.Admits := by
  refine lawful_ofU64 (fun _ _ => rfl) fun g sig hg => ?_
  rw [toNat_harcBitsU128 _ hg.2.1 hg.2.2 hg.1, toNat_setWidth_of_le hc]
  rfl

theorem packedExtractReader_lawful {M : Nat} (hM : 32 * M < 2 ^ 32) :
    (packedExtractReader c M).Lawful BitVec.toNat Val.toInt Val.Admits := by
  refine lawful_wide hM (fun _ _ => rfl) fun g sig hg => ?_
  have hin : g.lo + g.width ≤ 128 := hg.1
  rw [wideExtractBitsU128, toNat_wideExtractBits (by decide) hM _ (by omega) hg.2,
    toNat_wideZextInt]
  have hlt : (sig.setWidth 128).toNat < 2 ^ (32 * 4) := (sig.setWidth 128).isLt
  rw [Nat.mod_eq_of_lt hlt, toNat_setWidth_of_le hc]
  rfl

end PackedCarriers

theorem array_framed (W : Nat) {s : ElementShape} (hs : s.Valid) (n : Nat) :
    Framed (C := Fin n → s.Elem) Val.toInt Val.Admits (fun _ => s.size) (fun f g => f = g)
      (fun f g => f ≠ g) (fun _ => True) (fun lane v sig => arrayLaneWrite W s sig lane v)
      (fun _ => True) (fun lane sig => arrayLaneRead W s sig lane) where
  read_write := by
    rintro f v g sig - hv - rfl
    rw [arrayLaneRead, arrayLaneWrite, Function.update_self]
    exact ElementShape.toInt_read_assign hs hv
  read_apart := by
    intro f v g sig _ _ _ hne
    rw [arrayLaneRead, arrayLaneWrite, Function.update_of_ne hne.symm, arrayLaneRead]
  write_read := by
    rintro f g sig - - rfl
    rw [arrayLaneRead, arrayLaneWrite, ElementShape.assign_read hs, Function.update_eq_self]

/-- The writes of fields and lanes satisfy the frame laws with every way of reading the carrier,
for all fields that lie in it.  The width of a lane of an array is that of its elements. -/
theorem frame_laws :
    (∀ N M, 32 * N < 2 ^ 32 → 32 * M < 2 ^ 32 →
      Framed.onSpans Val.toInt Val.Admits (wideWriter N) (extractReader N M) ∧
      Framed.onSpans Val.toInt Val.Admits (wideWriter N) (bitsReader N) ∧
      Framed.onSpans Val.toInt Val.Admits (wordLaneWriter N) (wordLaneReader N) ∧
      Framed.onSpans Val.toInt Val.Admits (wordLaneWriter N) (extractReader N M) ∧
      Framed.onSpans Val.toInt Val.Admits (wordLaneWriter N) (bitsReader N)) ∧
    (∀ c M, c ≤ 128 → 32 * M < 2 ^ 32 →
      Framed.onSpans Val.toInt Val.Admits (packedLaneWriter c) (packedLaneReader c) ∧
      Framed.onSpans Val.toInt Val.Admits (packedLaneWriter c) (packedBitsReader c) ∧
      Framed.onSpans Val.toInt Val.Admits (packedLaneWriter c) (packedExtractReader c M)) ∧
    (∀ (W : Nat) (s : ElementShape) (n : Nat), s.Valid →
      Framed (C := Fin n → s.Elem) Val.toInt Val.Admits (fun _ => s.size) (fun f g => f = g)
        (fun f g => f ≠ g) (fun _ => True) (fun lane v sig => arrayLaneWrite W s sig lane v)
        (fun _ => True) (fun lane sig => arrayLaneRead W s sig lane)) := by
  refine ⟨?_, ?_, fun W s n hs => array_framed W hs n⟩
  · intro N M hN hM
    have hbits : ∀ c d : HarcWide N, c.toNat = d.toNat → c = d :=
      fun _ _ => HarcWide.toNat_injective
    have hwide := wideWriter_lawful hN
    have hlane := wordLaneWriter_lawful hN
    have hextract := extractReader_lawful hN hM
    have hread := bitsReader_lawful hN
    exact ⟨framed_of_lawful hbits hwide hextract, framed_of_lawful hbits hwide hread,
      framed_of_lawful hbits hlane (wordLaneReader_lawful hN),
      framed_of_lawful hbits hlane hextract, framed_of_lawful hbits hlane hread⟩
  · intro c M hc hM
    have hbits : ∀ x y : BitVec c, x.toNat = y.toNat → x = y := fun _ _ => BitVec.eq_of_toNat_eq
    have hlane := packedLaneWriter_lawful hc
    exact ⟨framed_of_lawful hbits hlane (packedLaneReader_lawful hc),
      framed_of_lawful hbits hlane (packedBitsReader_lawful hc),
      framed_of_lawful hbits hlane (packedExtractReader_lawful hc hM)⟩

/-- A field over the border of two words, and a lane of a packed scalar. -/
theorem frame_laws_border :
    (Val.ofU64 (harcBits (wideWriteBits (HarcWide.zero 2) 30 5 (.ofU64 100#64)) 34 30)).toInt = 4 ∧
      (Val.ofU128 (packedLaneRead 3 (packedLaneWrite 3 (255#8) 1 (.ofU64 9#64)) 0)).toInt = 7 := by
  obtain ⟨hwide, hpacked, -⟩ := frame_laws
  obtain ⟨-, hbits, -⟩ := hwide 2 1 (by decide) (by decide)
  obtain ⟨hlane, -⟩ := hpacked 8 1 (by decide) (by decide)
  constructor
  · exact hbits.read_write ⟨30, 5⟩ (.ofU64 100#64) ⟨30, 5⟩ (HarcWide.zero 2)
      (show 30 + 5 ≤ 32 * 2 by decide) (Or.inl (by decide))
      ⟨show 30 + 5 ≤ 32 * 2 by decide, by decide, by decide⟩ rfl
  · exact (congrArg Val.toInt (hlane.read_apart ⟨1, 3⟩ (.ofU64 9#64) ⟨0, 3⟩ 255#8
      ⟨by decide, by decide⟩ (Or.inl (by decide)) ⟨by decide, by decide⟩ (Or.inl (by decide)))).trans
      (by decide)

/-- A lane of three bits in an array of bytes keeps eight bits of a value. -/
theorem arrayLane_ignores_width :
    (arrayLaneRead (n := 3) 3 (.scalar 8)
      (arrayLaneWrite 3 (.scalar 8) (fun _ => 0#8) 0 (.ofU64 255#64)) 0).toInt ≠
      (Val.ofU64 255#64).toInt % 2 ^ 3 := by
  decide

end Harc.FieldAccess
