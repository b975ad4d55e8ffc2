import Harc.FieldAccess

/-!
Arithmetic of C++ on the values that carry scalars: integers in their common type, and wide
integers.
-/

namespace Harc.CarrierArithmetic

open Harc.TwosComplement
open Harc.WordLists
open Harc.WideRuntime
open Harc.WideBits
open Harc.DivisionTiers
open Harc.FieldAccess

inductive ArithOp where
  | add | sub | mul
deriving DecidableEq

namespace ArithOp

def apply : ArithOp → Int → Int → Int
  | add, x, y => x + y
  | sub, x, y => x - y
  | mul, x, y => x * y

def wide {N : Nat} : ArithOp → HarcWide N → HarcWide N → HarcWide N
  | add => HarcWide.add
  | sub => HarcWide.sub
  | mul => HarcWide.mul

theorem apply_congr (op : ArithOp) {m x x' y y' : Int} (hx : x ≡ x' [ZMOD m])
    (hy : y ≡ y' [ZMOD m]) : op.apply x y ≡ op.apply x' y' [ZMOD m] := by
  cases op with
  | add => exact hx.add hy
  | sub => exact hx.sub hy
  | mul => exact hx.mul hy

theorem toNat_wide {N : Nat} (hN : N < 2 ^ 32) (op : ArithOp) (x y : HarcWide N) :
    ((op.wide x y).toNat : Int) = op.apply x.toNat y.toNat % 2 ^ (32 * N) := by
  cases op with
  | add =>
      have hadd := HarcWide.toNat_add hN x y
      simp only [wide, apply, hadd]
      push_cast
      rfl
  | sub => exact HarcWide.toNat_sub hN x y
  | mul =>
      have hmul := HarcWide.toNat_mul x y
      simp only [wide, apply, hmul]
      push_cast
      rfl

end ArithOp

/-! ### Residues -/

/-- The value read from a number of low bits as a signed number. -/
def signedLow (width : Nat) (z : Int) : Int := Int.bmod z (2 ^ width)

theorem testBit_signedLow {width : Nat} (hpos : 0 < width) (z : Int) (i : Nat) :
    (signedLow width z).testBit i = z.testBit (min i (width - 1)) := by
  have hbits : ∀ j, j < width → (BitVec.ofInt width z).getLsbD j = z.testBit j := by
    intro j hj
    rw [BitVec.getLsbD, toNat_ofInt_eq, testBit_emod_two_pow, decide_eq_true hj, Bool.true_and]
  have hlow : signedLow width z = (BitVec.ofInt width z).toInt := by
    rw [signedLow, BitVec.toInt_ofInt]
  rw [hlow, testBit_toInt hpos]
  split_ifs with hi
  · rw [hbits i hi, Nat.min_eq_left (by omega)]
  · rw [BitVec.msb_eq_getLsbD_last, hbits _ (by omega), Nat.min_eq_right (by omega)]

theorem signedLow_modEq (width : Nat) (z : Int) : signedLow width z ≡ z [ZMOD 2 ^ width] := by
  have hbmod : Int.bmod z (2 ^ width) % ((2 ^ width : Nat) : Int) =
      z % ((2 ^ width : Nat) : Int) := Int.bmod_emod
  rw [signedLow, Int.ModEq]
  exact_mod_cast hbmod

theorem signedLow_of_inRange {width : Nat} (hpos : 0 < width) {z : Int}
    (h : InRange (width - 1) z) : signedLow width z = z := by
  obtain ⟨k, rfl⟩ : ∃ k, width = k + 1 := ⟨width - 1, by omega⟩
  exact InRange.bmod_eq h

theorem emod_signedLow {m width : Nat} (h : m ≤ width) (z : Int) :
    signedLow width z % 2 ^ m = z % 2 ^ m :=
  (signedLow_modEq width z).of_dvd (pow_dvd_pow 2 h)

theorem emod_emod_two_pow {m n : Nat} (h : m ≤ n) (z : Int) : z % 2 ^ n % 2 ^ m = z % 2 ^ m :=
  Int.emod_emod_of_dvd z (pow_dvd_pow 2 h)

theorem signedLow_emod {m width : Nat} (h : width ≤ m) (z : Int) :
    signedLow width (z % 2 ^ m) = signedLow width z := by
  have hmod := emod_emod_two_pow h z
  rw [signedLow, signedLow, ← Int.emod_bmod, ← Int.emod_bmod (x := z)]
  push_cast
  rw [hmod]

theorem emod_emod_of_le {m n : Nat} (h : m ≤ n) (z : Int) : z % 2 ^ m % 2 ^ n = z % 2 ^ m := by
  have hpow : (2 : Int) ^ m ≤ 2 ^ n := pow_le_pow_right₀ (by omega) h
  have hlt : z % 2 ^ m < 2 ^ m := Int.emod_lt_of_pos z (by positivity)
  exact Int.emod_eq_of_lt (Int.emod_nonneg z (by positivity)) (by omega)

theorem emod_eq_emod_iff {m n : Nat} (h : m ≤ n) (z : Int) :
    z % 2 ^ n = z % 2 ^ m ↔ z % 2 ^ n < 2 ^ m := by
  have hnonneg : 0 ≤ z % 2 ^ n := Int.emod_nonneg z (by positivity)
  rw [← emod_emod_two_pow h z]
  constructor
  · intro heq
    rw [heq]
    exact Int.emod_lt_of_pos _ (by positivity)
  · intro hlt
    exact (Int.emod_eq_of_lt hnonneg hlt).symm

/-- A number of some bits is the residue whose bits they are. -/
theorem natCast_eq_emod {n width : Nat} {z : Int}
    (h : ∀ i, n.testBit i = (decide (i < width) && z.testBit i)) : (n : Int) = z % 2 ^ width := by
  have hnat : n = (z % 2 ^ width).toNat := by
    refine Nat.eq_of_testBit_eq fun i => ?_
    rw [h, testBit_emod_two_pow]
  rw [hnat, BitFields.natCast_toNat_emod]

theorem emod_modEq {W width : Nat} (h : W ≤ width) (z : Int) : z % 2 ^ width ≡ z [ZMOD 2 ^ W] :=
  (Int.mod_modEq z (2 ^ width)).of_dvd (pow_dvd_pow 2 h)

theorem signedLow_keeps {W width : Nat} (hpos : 0 < width) {z : Int}
    (h : W ≤ width ∨ InRange (width - 1) z) : signedLow width z ≡ z [ZMOD 2 ^ W] := by
  rcases h with hwidth | hrange
  · exact (signedLow_modEq width z).of_dvd (pow_dvd_pow 2 hwidth)
  · rw [signedLow_of_inRange hpos hrange]

/-! ### Integers -/

/-- The width of a type after the integer promotion. -/
def promotedWidth (v : CInt) : Nat := if v.width < 32 then 32 else v.width

def promotedSigned (v : CInt) : Bool := if v.width < 32 then true else v.signed

/-- The common type of the usual arithmetic conversions. -/
def commonWidth (x y : CInt) : Nat := max (promotedWidth x) (promotedWidth y)

def commonSigned (x y : CInt) : Bool :=
  if promotedWidth x < promotedWidth y then promotedSigned y
  else if promotedWidth y < promotedWidth x then promotedSigned x
  else promotedSigned x && promotedSigned y

theorem promotedWidth_le (v : CInt) : promotedWidth v ≤ 128 := by
  have hwidth := v.width_le
  unfold promotedWidth
  split <;> omega

theorem le_promotedWidth (v : CInt) : 32 ≤ promotedWidth v := by
  unfold promotedWidth
  split <;> omega

theorem commonWidth_le (x y : CInt) : commonWidth x y ≤ 128 :=
  max_le (promotedWidth_le x) (promotedWidth_le y)

/-- The number as a value of a type. -/
def intOf (signed : Bool) (width : Nat) (h : width ≤ 128) (z : Int) : CInt where
  signed := signed
  width := width
  width_le := h
  bits := BitVec.ofInt width z

instance (k : Nat) (z : Int) : Decidable (InRange k z) :=
  inferInstanceAs (Decidable (_ ∧ _))

/-- An operator of C++.  An overflow of a signed type has no value. -/
def intArith (op : ArithOp) (x y : CInt) : Option CInt :=
  let type := intOf (commonSigned x y) (commonWidth x y) (commonWidth_le x y)
  let z := op.apply (type x.toInt).toInt (type y.toInt).toInt
  if commonSigned x y = true ∧ ¬ InRange (commonWidth x y - 1) z then none else some (type z)

theorem toInt_intOf_modEq (signed : Bool) {width : Nat} (h : width ≤ 128) (z : Int) :
    (intOf signed width h z).toInt ≡ z [ZMOD 2 ^ width] := by
  cases signed with
  | false =>
      have hbits : ((BitVec.ofInt width z).toNat : Int) = z % 2 ^ width := by
        rw [toNat_ofInt_eq]
        exact BitFields.natCast_toNat_emod z width
      change ((BitVec.ofInt width z).toNat : Int) ≡ z [ZMOD 2 ^ width]
      rw [hbits]
      exact Int.mod_modEq z (2 ^ width)
  | true =>
      change (BitVec.ofInt width z).toInt ≡ z [ZMOD 2 ^ width]
      rw [BitVec.toInt_ofInt]
      exact signedLow_modEq width z

theorem toInt_intOf_signed {width : Nat} (h : width ≤ 128) (hpos : 0 < width) {z : Int}
    (hrange : InRange (width - 1) z) : (intOf true width h z).toInt = z := by
  change (BitVec.ofInt width z).toInt = z
  rw [BitVec.toInt_ofInt]
  exact signedLow_of_inRange hpos hrange

theorem toInt_intOf_unsigned {width : Nat} (h : width ≤ 128) {z : Int} (hlow : 0 ≤ z)
    (hhigh : z < 2 ^ width) : (intOf false width h z).toInt = z := by
  change ((BitVec.ofInt width z).toNat : Int) = z
  rw [toNat_ofInt_eq, BitFields.natCast_toNat_emod]
  exact Int.emod_eq_of_lt hlow hhigh

theorem inRange_toInt {v : CInt} {k : Nat}
    (h : v.width ≤ k ∨ v.width = k + 1 ∧ v.signed = true) : InRange k v.toInt := by
  rcases h with hle | ⟨hwidth, hsigned⟩
  · have hpow : (2 : Int) ^ v.width ≤ 2 ^ k := pow_le_pow_right₀ (by omega) hle
    have hhigh : (v.bits.toNat : Int) < 2 ^ v.width := by exact_mod_cast v.bits.isLt
    have hlow := v.bits.le_two_mul_toInt
    have hup := v.bits.two_mul_toInt_lt
    rw [CInt.toInt, InRange]
    split_ifs
    · constructor <;> omega
    · constructor <;> omega
  · have hlow := v.bits.le_two_mul_toInt
    have hup := v.bits.two_mul_toInt_lt
    have hpow : (2 : Int) ^ v.width = 2 * 2 ^ k := by
      rw [hwidth, pow_succ]
      ring
    rw [CInt.toInt, if_pos hsigned, InRange]
    constructor <;> omega

/-- The signed common type holds both operands. -/
theorem inRange_of_promoted {v : CInt} {width : Nat}
    (h : promotedWidth v < width ∨ promotedWidth v = width ∧ promotedSigned v = true) :
    InRange (width - 1) v.toInt := by
  have hpromoted := le_promotedWidth v
  refine inRange_toInt ?_
  unfold promotedWidth promotedSigned at h
  split_ifs at h with hsmall
  · omega
  · rcases h with h | ⟨h, hsigned⟩
    · exact Or.inl (by omega)
    · exact Or.inr ⟨by omega, hsigned⟩

theorem inRange_left {x y : CInt} (h : commonSigned x y = true) :
    InRange (commonWidth x y - 1) x.toInt := by
  refine inRange_of_promoted ?_
  unfold commonSigned at h
  unfold commonWidth
  split_ifs at h with hlt hgt
  · exact Or.inl (by omega)
  · exact Or.inr ⟨by omega, h⟩
  · rw [Bool.and_eq_true] at h
    exact Or.inr ⟨by omega, h.1⟩

theorem inRange_right {x y : CInt} (h : commonSigned x y = true) :
    InRange (commonWidth x y - 1) y.toInt := by
  refine inRange_of_promoted ?_
  unfold commonSigned at h
  unfold commonWidth
  split_ifs at h with hlt hgt
  · exact Or.inr ⟨by omega, h⟩
  · exact Or.inl (by omega)
  · rw [Bool.and_eq_true] at h
    exact Or.inr ⟨by omega, h.2⟩

/-- The low `W` bits of the result are those of the integers' result. -/
def IntKeeps (W : Nat) (op : ArithOp) (x y : CInt) : Prop :=
  if commonSigned x y = true then InRange (commonWidth x y - 1) (op.apply x.toInt y.toInt)
  else W ≤ commonWidth x y ∨
    0 ≤ op.apply x.toInt y.toInt ∧ op.apply x.toInt y.toInt < 2 ^ commonWidth x y

theorem intArith_signed {op : ArithOp} {x y : CInt} (h : commonSigned x y = true) :
    intArith op x y =
      if InRange (commonWidth x y - 1) (op.apply x.toInt y.toInt) then
        some (intOf true (commonWidth x y) (commonWidth_le x y) (op.apply x.toInt y.toInt))
      else none := by
  have hpos : 0 < commonWidth x y := by
    have := le_promotedWidth x
    unfold commonWidth
    omega
  have hx := toInt_intOf_signed (commonWidth_le x y) hpos (inRange_left h)
  have hy := toInt_intOf_signed (commonWidth_le x y) hpos (inRange_right h)
  simp only [intArith, h, hx, hy, true_and, ite_not]

theorem intArith_unsigned {op : ArithOp} {x y : CInt} (h : commonSigned x y = false) :
    ∃ z, intArith op x y =
        some (intOf false (commonWidth x y) (commonWidth_le x y) z) ∧
      z ≡ op.apply x.toInt y.toInt [ZMOD 2 ^ commonWidth x y] := by
  have hle := commonWidth_le x y
  refine ⟨op.apply (intOf false (commonWidth x y) hle x.toInt).toInt
    (intOf false (commonWidth x y) hle y.toInt).toInt, ?_, ?_⟩
  · simp only [intArith, h, Bool.false_eq_true, false_and, if_false]
  · exact op.apply_congr (toInt_intOf_modEq _ _ _) (toInt_intOf_modEq _ _ _)

theorem intArith_spec {W : Nat} {op : ArithOp} {x y : CInt} (h : IntKeeps W op x y) :
    ∃ z, intArith op x y = some z ∧ z.toInt ≡ op.apply x.toInt y.toInt [ZMOD 2 ^ W] := by
  have hpos : 0 < commonWidth x y := by
    have := le_promotedWidth x
    unfold commonWidth
    omega
  unfold IntKeeps at h
  split_ifs at h with hsigned
  · have hresult := @intArith_signed op x y hsigned
    rw [if_pos h] at hresult
    refine ⟨_, hresult, ?_⟩
    rw [toInt_intOf_signed _ hpos h]
  · obtain ⟨z, hz, hmod⟩ := @intArith_unsigned op x y (Bool.eq_false_iff.mpr hsigned)
    refine ⟨_, hz, ?_⟩
    have hresult := (toInt_intOf_modEq false (commonWidth_le x y) z).trans hmod
    rcases h with hwidth | ⟨hlow, hhigh⟩
    · exact hresult.of_dvd (pow_dvd_pow 2 hwidth)
    · have hnonneg : 0 ≤ (intOf false (commonWidth x y) (commonWidth_le x y) z).toInt := by
        change (0 : Int) ≤ ((BitVec.ofInt (commonWidth x y) z).toNat : Int)
        exact Int.natCast_nonneg _
      have hlt : (intOf false (commonWidth x y) (commonWidth_le x y) z).toInt <
          2 ^ commonWidth x y := by
        change ((BitVec.ofInt (commonWidth x y) z).toNat : Int) < 2 ^ commonWidth x y
        exact_mod_cast (BitVec.ofInt (commonWidth x y) z).isLt
      have heq : (intOf false (commonWidth x y) (commonWidth_le x y) z).toInt =
          op.apply x.toInt y.toInt := by
        rw [← Int.emod_eq_of_lt hnonneg hlt, ← Int.emod_eq_of_lt hlow hhigh]
        exact hresult
      rw [heq]

/-! ### Values -/

/-- An operator on values.  Wide integers of different sizes have no operators. -/
def valArith (op : ArithOp) : Val → Val → Option Val
  | .int x, .int y => (intArith op x y).map .int
  | .wide x, .int y => some (.wide (HarcWide.mixedRight op.wide x y))
  | .int x, .wide y => some (.wide (HarcWide.mixedLeft op.wide x y))
  | .wide (M := M) x, .wide (M := M') y =>
      if h : M' = M then some (.wide (op.wide x (h ▸ y))) else none

/-- `static_cast<_harc_u128>` -/
def toU128 : Val → U128
  | .int v => BitVec.ofInt 128 v.toInt
  | .wide v => (List.range 4).foldl
      (fun out i => out ||| ((v.words[i]?.getD 0#32).setWidth 128 <<< (32 * i))) 0#128

def sextU128 (value : U128) (sourceWidth destWidth : Nat) : U128 :=
  let value := value &&& maskU128 sourceWidth
  if sourceWidth = 0 ∨ destWidth = 0 then 0#128
  else if sourceWidth ≥ destWidth then value &&& maskU128 destWidth
  else
    let sign := 1#128 <<< (sourceWidth - 1)
    if value &&& sign = 0#128 then value &&& maskU128 destWidth
    else
      let fill := maskU128 destWidth &&& ~~~maskU128 sourceWidth
      (value ||| fill) &&& maskU128 destWidth

/-- `harc_wide_mask_bits`, which takes wide integers only -/
def valMaskBits (width : Nat) : Val → Option Val
  | .int _ => none
  | .wide v => some (.wide (wideMaskBits v width))

/-- `harc_wide_trunc` -/
def valTrunc (words width : Nat) : Val → Val
  | .int v => .wide (wideMaskBits (HarcWide.ofCInt words v) width)
  | .wide v => .wide (wideMaskBits (wideZextWide words v) width)

/-- `harc_wide_zext` -/
def valZext (words : Nat) (sourceWidth : Option Nat) : Val → Val
  | .int v => .wide (match sourceWidth with
      | some w => wideMaskBits (wideZextInt words v) w
      | none => wideZextInt words v)
  | .wide v => .wide (match sourceWidth with
      | some w => wideMaskBits (wideZextWide words v) w
      | none => wideZextWide words v)

/-- `harc_wide_sext`, whose conversion narrows no wide integer -/
def valSext (words sourceWidth destWidth : Nat) : Val → Option Val
  | .int v => some (.wide (wideSextOf (HarcWide.ofCInt words v) sourceWidth destWidth))
  | .wide (M := M) v =>
      if M ≤ words then
        some (.wide (wideSextOf (wideZextWide words v) sourceWidth destWidth))
      else none

/-! ### Numbers of conversions -/

theorem getLsbD_joinWords (words : List U32) {n : Nat} (hn : n ≤ 4) (i : Nat) :
    ((List.range n).foldl
      (fun out k => out ||| ((words[k]?.getD 0#32).setWidth 128 <<< (32 * k))) 0#128).getLsbD i =
      (decide (i < 32 * n) && (words[i / 32]?.getD 0#32).getLsbD (i % 32)) := by
  induction n with
  | zero => simp
  | succ n ih =>
      rw [List.range_succ, List.foldl_append, List.foldl_cons, List.foldl_nil, BitVec.getLsbD_or,
        ih (by omega), BitVec.getLsbD_shiftLeft, BitVec.getLsbD_setWidth]
      rcases Nat.lt_trichotomy (i / 32) n with hlt | heq | hgt
      · simp [show i < 32 * n by omega, show i < 32 * (n + 1) by omega]
      · subst heq
        simp [show ¬ i < 32 * (i / 32) by omega, show i < 32 * (i / 32 + 1) by omega,
          show i < 128 by omega, show i - 32 * (i / 32) = i % 32 by omega,
          show i % 32 < 128 by omega]
      · have hout : (words[n]?.getD 0#32).getLsbD (i - 32 * n) = false :=
          BitVec.getLsbD_of_ge _ _ (by omega)
        simp [hout, show ¬ i < 32 * n by omega, show ¬ i < 32 * (n + 1) by omega]

theorem toNat_toU128 (v : Val) : ((toU128 v).toNat : Int) = v.toInt % 2 ^ 128 := by
  rcases v with v | v
  · rw [toU128, toNat_ofInt_eq, BitFields.natCast_toNat_emod]
    rfl
  · refine natCast_eq_emod fun i => ?_
    change (toU128 (.wide v)).getLsbD i = (decide (i < 128) && v.toNat.testBit i)
    rw [toU128, getLsbD_joinWords v.words (Nat.le_refl 4), testBit_toNat]

theorem toNat_maskedU128 (value : U128) (width : Nat) :
    (value &&& maskU128 width).toNat = value.toNat % 2 ^ width := by
  rcases Nat.lt_or_ge width 128 with hlt | hge
  · exact toNat_and_maskU128 (by omega) value
  · have hall : value &&& maskU128 width = value := by
      rw [maskU128, if_pos hge]
      exact BitVec.and_allOnes
    have hsmall : value.toNat < 2 ^ width :=
      Nat.lt_of_lt_of_le value.isLt (Nat.pow_le_pow_right (Nat.succ_pos 1) hge)
    rw [hall, Nat.mod_eq_of_lt hsmall]

theorem toU128_ofU128 (v : U128) : toU128 (.ofU128 v) = v := by
  change BitVec.ofInt 128 (v.toNat : Int) = v
  rw [BitVec.ofInt_natCast, BitVec.ofNat_toNat, BitVec.setWidth_eq]

theorem natCast_maskedU128 (v : Val) (width : Nat) :
    ((toU128 v &&& maskU128 width).toNat : Int) = v.toInt % 2 ^ 128 % 2 ^ width := by
  have hpow : ((2 ^ width : Nat) : Int) = 2 ^ width := by
    push_cast
    rfl
  rw [toNat_maskedU128, Int.natCast_emod, toNat_toU128, hpow]

theorem toInt_ofU128 (v : U128) : (Val.ofU128 v).toInt = v.toNat := rfl

theorem toInt_ofU64 (v : U64) : (Val.ofU64 v).toInt = v.toNat := rfl

theorem toU64_ofU64 (v : U64) : (Val.ofU64 v).toU64 = v := by
  change BitVec.ofInt 64 (v.toNat : Int) = v
  rw [BitVec.ofInt_natCast, BitVec.ofNat_toNat, BitVec.setWidth_eq]

theorem natCast_toU64 (v : Val) : (v.toU64.toNat : Int) = v.toInt % 2 ^ 64 := by
  rw [Val.toNat_toU64, BitFields.natCast_toNat_emod]

theorem toInt_and_low {width : Nat} (h : width < 64) (v : Val) :
    (Val.ofU64 (v.toU64 &&& BitVec.ofNat 64 (2 ^ width - 1))).toInt = v.toInt % 2 ^ width := by
  have hpow : 2 ^ width < 2 ^ 64 := Nat.pow_lt_pow_right (by omega) h
  have hmask : (BitVec.ofNat 64 (2 ^ width - 1)).toNat = 2 ^ width - 1 := by
    rw [BitVec.toNat_ofNat, Nat.mod_eq_of_lt (by omega)]
  rw [toInt_ofU64, BitVec.toNat_and, hmask, Nat.and_two_pow_sub_one_eq_mod]
  push_cast
  rw [natCast_toU64, emod_emod_two_pow (by omega)]

theorem getLsbD_maskU128 {width i : Nat} (hi : i < 128) :
    (maskU128 width).getLsbD i = decide (i < width) := by
  rcases Nat.lt_or_ge width 128 with hlt | hge
  · rw [BitVec.getLsbD, toNat_maskU128 (by omega), Nat.testBit_two_pow_sub_one]
  · rw [maskU128, if_pos hge, BitVec.not_zero, BitVec.getLsbD_allOnes, decide_eq_true hi,
      decide_eq_true (by omega)]

theorem getLsbD_sextU128 {sourceWidth destWidth : Nat} (hsource : 0 < sourceWidth)
    (hdest : 0 < destWidth) (hfits : destWidth ≤ 128) (value : U128) {i : Nat} (hi : i < 128) :
    (sextU128 value sourceWidth destWidth).getLsbD i =
      (decide (i < destWidth) && value.getLsbD (min i (sourceWidth - 1))) := by
  simp only [sextU128]
  rw [if_neg (by omega)]
  split_ifs with hge hsign
  · rw [BitVec.getLsbD_and, BitVec.getLsbD_and, getLsbD_maskU128 hi, getLsbD_maskU128 hi]
    rcases Nat.lt_or_ge i destWidth with hlow | hhigh
    · rw [Nat.min_eq_left (by omega)]
      simp [hlow, show i < sourceWidth by omega]
    · simp [Nat.not_lt.mpr hhigh]
  all_goals
    rw [← BitVec.twoPow_eq, BitVec.and_twoPow, BitVec.getLsbD_and, getLsbD_maskU128 (by omega),
      decide_eq_true (by omega), Bool.and_true] at hsign
  · have htop : value.getLsbD (sourceWidth - 1) = false := by
      rw [Bool.eq_false_iff]
      intro htop
      rw [if_pos htop] at hsign
      have hbit := congrArg (fun x : U128 => x.getLsbD (sourceWidth - 1)) hsign
      simp [BitVec.getLsbD_twoPow] at hbit
      omega
    rw [BitVec.getLsbD_and, BitVec.getLsbD_and, getLsbD_maskU128 hi, getLsbD_maskU128 hi]
    rcases Nat.lt_or_ge i sourceWidth with hlow | hhigh
    · rw [Nat.min_eq_left (by omega)]
      simp [hlow, show i < destWidth by omega]
    · rw [Nat.min_eq_right (by omega), htop]
      simp [Nat.not_lt.mpr hhigh]
  · have htop : value.getLsbD (sourceWidth - 1) = true := by
      rw [← Bool.not_eq_false]
      intro htop
      rw [htop, if_neg (by simp)] at hsign
      exact hsign rfl
    rw [BitVec.getLsbD_and, BitVec.getLsbD_or, BitVec.getLsbD_and, BitVec.getLsbD_and,
      BitVec.getLsbD_not, getLsbD_maskU128 hi, getLsbD_maskU128 hi, decide_eq_true hi]
    rcases Nat.lt_or_ge i sourceWidth with hlow | hhigh
    · rw [Nat.min_eq_left (by omega)]
      simp [hlow, show i < destWidth by omega]
    · rw [Nat.min_eq_right (by omega), htop]
      simp [Nat.not_lt.mpr hhigh]

theorem toNat_sextU128 {sourceWidth destWidth : Nat} (hsource : 0 < sourceWidth)
    (hdest : 0 < destWidth) (hfits : destWidth ≤ 128) (value : U128) :
    ((sextU128 value sourceWidth destWidth).toNat : Int) =
      signedLow sourceWidth value.toNat % 2 ^ destWidth := by
  refine natCast_eq_emod fun i => ?_
  change (sextU128 value sourceWidth destWidth).getLsbD i = _
  rw [testBit_signedLow hsource]
  rcases Nat.lt_or_ge i 128 with hi | hi
  · rw [getLsbD_sextU128 hsource hdest hfits value hi]
    rfl
  · rw [BitVec.getLsbD_of_ge _ _ hi, decide_eq_false (by omega), Bool.false_and]

section Words

variable {words : Nat} (hwords : 32 * words < 2 ^ 32)

include hwords

theorem toInt_wideMaskBits {width : Nat} (v : HarcWide words) :
    (Val.wide (wideMaskBits v width)).toInt = (v.toNat : Int) % 2 ^ width := by
  rw [Val.toInt, toNat_wideMaskBits hwords]
  push_cast
  rfl

theorem toInt_valTrunc {width : Nat} (hwidth : width ≤ 32 * words) (v : Val) :
    (valTrunc words width v).toInt = v.toInt % 2 ^ width := by
  rcases v with v | v
  · rw [valTrunc, toInt_wideMaskBits hwords, HarcWide.toNat_ofCInt, emod_emod_two_pow hwidth]
    rfl
  · rw [valTrunc, toInt_wideMaskBits hwords, toNat_wideZextWide]
    push_cast
    exact emod_emod_two_pow hwidth v.toNat

end Words

/-- The number whose bits zero extension takes. -/
def unsignedBits : Val → Nat
  | .int v => v.bits.toNat
  | .wide v => v.toNat

/-- The type of a negative number has all the bits. -/
def ZeroExtends (width : Nat) : Val → Prop
  | .int v => 0 ≤ v.toInt ∨ width ≤ v.width
  | .wide _ => True

theorem unsignedBits_of_nonneg {v : Val} (h : 0 ≤ v.toInt) :
    (unsignedBits v : Int) = v.toInt := by
  rcases v with v | v
  · change (v.bits.toNat : Int) = v.toInt
    change 0 ≤ v.toInt at h
    rw [CInt.toInt] at h ⊢
    split_ifs at h ⊢
    · rw [BitVec.toInt_eq_toNat_cond] at h ⊢
      split_ifs at h ⊢
      · rfl
      · have hlt : (v.bits.toNat : Int) < 2 ^ v.width := by exact_mod_cast v.bits.isLt
        push_cast at h
        omega
    · rfl
  · rfl

theorem bits_of_neg {v : CInt} (h : v.toInt < 0) :
    (v.bits.toNat : Int) = v.toInt + 2 ^ v.width := by
  rw [CInt.toInt] at h ⊢
  split_ifs at h ⊢
  · rw [BitVec.toInt_eq_toNat_cond] at h ⊢
    split_ifs at h ⊢
    · omega
    · push_cast
      omega
  · omega

theorem unsignedBits_emod_iff (width : Nat) (v : Val) :
    (unsignedBits v : Int) % 2 ^ width = v.toInt % 2 ^ width ↔ ZeroExtends width v := by
  rcases lt_or_ge v.toInt 0 with hneg | hnonneg
  · rcases v with v | v
    · change (v.bits.toNat : Int) % 2 ^ width = v.toInt % 2 ^ width ↔
        0 ≤ v.toInt ∨ width ≤ v.width
      change v.toInt < 0 at hneg
      have hdvd : ((2 : Int) ^ width ∣ 2 ^ v.width) ↔ width ≤ v.width := by
        rw [← Nat.pow_dvd_pow_iff_le_right (x := 2) (by omega), ← Int.natCast_dvd_natCast]
        push_cast
        rfl
      rw [bits_of_neg hneg, or_iff_right (not_le.mpr hneg), ← hdvd]
      constructor
      · intro hmod
        have hsame : v.toInt ≡ v.toInt + 2 ^ v.width [ZMOD 2 ^ width] := hmod.symm
        have hsub := hsame.dvd
        rwa [add_sub_cancel_left] at hsub
      · rintro ⟨k, hk⟩
        rw [hk, Int.add_mul_emod_self_left]
    · exact absurd hneg (not_lt.mpr (Int.natCast_nonneg _))
  · rw [unsignedBits_of_nonneg hnonneg, eq_self_iff_true, true_iff]
    rcases v with v | v
    · exact Or.inl hnonneg
    · trivial

section Words

variable {words : Nat} (hwords : 32 * words < 2 ^ 32)

include hwords

theorem toInt_valZext {width : Nat} (hwidth : width ≤ 32 * words) (v : Val) :
    (valZext words (some width) v).toInt = (unsignedBits v : Int) % 2 ^ width := by
  rcases v with v | v
  · simp only [valZext]
    rw [toInt_wideMaskBits hwords, toNat_wideZextInt]
    push_cast
    exact emod_emod_two_pow hwidth v.bits.toNat
  · simp only [valZext]
    rw [toInt_wideMaskBits hwords, toNat_wideZextWide]
    push_cast
    exact emod_emod_two_pow hwidth v.toNat

omit hwords in
theorem toInt_valZext_none (v : Val) :
    (valZext words none v).toInt = (unsignedBits v : Int) % 2 ^ (32 * words) := by
  rcases v with v | v
  · simp only [valZext, Val.toInt]
    rw [toNat_wideZextInt]
    push_cast
    rfl
  · simp only [valZext, Val.toInt]
    rw [toNat_wideZextWide]
    push_cast
    rfl

theorem toInt_wideSextOf {sourceWidth destWidth : Nat} (hsource : 0 < sourceWidth)
    (hdest : 0 < destWidth) (hsourceFits : sourceWidth ≤ 32 * words)
    (hdestFits : destWidth ≤ 32 * words) (v : HarcWide words) :
    (Val.wide (wideSextOf v sourceWidth destWidth)).toInt =
      signedLow sourceWidth v.toNat % 2 ^ destWidth := by
  refine natCast_eq_emod fun i => ?_
  have hsext := @testBit_wordSext v.words (by rwa [v.length_eq]) sourceWidth destWidth hsource
    hdest (by rwa [v.length_eq]) i
  rw [v.length_eq] at hsext
  change (value (wordSext v.words (words % 2 ^ 32) sourceWidth destWidth)).testBit i = _
  rw [count_eq hwords, hsext, testBit_signedLow hsource]
  have hinside : (decide (i < destWidth) && decide (i < 32 * words)) = decide (i < destWidth) := by
    rcases Nat.lt_or_ge i destWidth with hi | hi
    · simp [hi, show i < 32 * words by omega]
    · simp [Nat.not_lt.mpr hi]
  rw [hinside]
  rfl

/-- The word count of a value is no more than a given one. -/
def FitsWords (words : Nat) : Val → Prop
  | .int _ => True
  | .wide (M := M) _ => M ≤ words

theorem valSext_spec {sourceWidth destWidth : Nat} (hsource : 0 < sourceWidth)
    (hdest : 0 < destWidth) (hsourceFits : sourceWidth ≤ 32 * words)
    (hdestFits : destWidth ≤ 32 * words) {v : Val} (hv : FitsWords words v) :
    ∃ r, valSext words sourceWidth destWidth v = some r ∧
      r.toInt = signedLow sourceWidth v.toInt % 2 ^ destWidth := by
  rcases v with v | v
  · refine ⟨_, rfl, ?_⟩
    rw [toInt_wideSextOf hwords hsource hdest hsourceFits hdestFits, HarcWide.toNat_ofCInt,
      signedLow_emod hsourceFits]
    rfl
  · refine ⟨_, if_pos hv, ?_⟩
    rw [toInt_wideSextOf hwords hsource hdest hsourceFits hdestFits, toNat_wideZextWide]
    push_cast
    rw [signedLow_emod hsourceFits]
    rfl

end Words

/-! ### Low bits of the operators -/

def ValKeeps (W : Nat) (op : ArithOp) : Val → Val → Prop
  | .int x, .int y => IntKeeps W op x y
  | .wide (M := M) _, .int _ => W ≤ 32 * M ∧ 32 * M < 2 ^ 32
  | .int _, .wide (M := M) _ => W ≤ 32 * M ∧ 32 * M < 2 ^ 32
  | .wide (M := M) _, .wide (M := M') _ => M' = M ∧ W ≤ 32 * M ∧ 32 * M < 2 ^ 32

theorem wide_modEq {W M : Nat} (hW : W ≤ 32 * M) (hM : 32 * M < 2 ^ 32) (op : ArithOp)
    {x y : HarcWide M} {a b : Int} (hx : (x.toNat : Int) ≡ a [ZMOD 2 ^ (32 * M)])
    (hy : (y.toNat : Int) ≡ b [ZMOD 2 ^ (32 * M)]) :
    ((op.wide x y).toNat : Int) ≡ op.apply a b [ZMOD 2 ^ W] := by
  have hresult : ((op.wide x y).toNat : Int) ≡ op.apply a b [ZMOD 2 ^ (32 * M)] := by
    rw [ArithOp.toNat_wide (by omega)]
    exact (Int.mod_modEq _ _).trans (op.apply_congr hx hy)
  exact hresult.of_dvd (pow_dvd_pow 2 hW)

theorem toNat_ofCInt_modEq (M : Nat) (v : CInt) :
    ((HarcWide.ofCInt M v).toNat : Int) ≡ v.toInt [ZMOD 2 ^ (32 * M)] := by
  rw [HarcWide.toNat_ofCInt]
  exact Int.mod_modEq _ _

theorem valArith_spec {W : Nat} {op : ArithOp} {x y : Val} (h : ValKeeps W op x y) :
    ∃ z, valArith op x y = some z ∧ z.toInt ≡ op.apply x.toInt y.toInt [ZMOD 2 ^ W] := by
  rcases x with x | x <;> rcases y with y | y
  · obtain ⟨z, hz, hmod⟩ := intArith_spec h
    exact ⟨.int z, by rw [valArith, hz, Option.map_some], hmod⟩
  · obtain ⟨hW, hM⟩ := h
    exact ⟨_, rfl, wide_modEq hW hM op (toNat_ofCInt_modEq _ x) (Int.ModEq.refl _)⟩
  · obtain ⟨hW, hM⟩ := h
    exact ⟨_, rfl, wide_modEq hW hM op (Int.ModEq.refl _) (toNat_ofCInt_modEq _ y)⟩
  · obtain ⟨hsame, hW, hM⟩ := h
    subst hsame
    exact ⟨.wide (op.wide x y), by rw [valArith, dif_pos rfl],
      wide_modEq hW hM op (Int.ModEq.refl _) (Int.ModEq.refl _)⟩

end Harc.CarrierArithmetic
