import Harc.ArchArithmetic

/-!
Width casts (`width_cast_cpp` in `codegen/tbir/expr.rs`).  A cast picks the helper of the
carrier that its width selects.
-/

namespace Harc.WidthCasts

open Harc.TwosComplement
open Harc.WideRuntime
open Harc.WideBits
open Harc.DivisionTiers
open Harc.ShiftTiers
open Harc.FieldAccess
open Harc.CarrierArithmetic
open Harc.ArchArithmetic

inductive WidthCastKind where
  | trunc | zext | sext | resize
deriving DecidableEq

def wideScalarWords (width : Nat) : Option Nat :=
  if 128 < width then some (divCeil width) else none

/-- A cast to a wide integer. -/
def wideCastCpp (words : Nat) (kind : WidthCastKind) (width : Nat) (srcWidth : Option Nat)
    (e : Cpp) : Cpp :=
  match kind with
  | .trunc => .wideTrunc words e width
  | .zext => .wideZext words e srcWidth
  | .sext =>
      match srcWidth with
      | some sw => if sw < width then .wideSext words e sw width else .wideTrunc words e sw
      | none => .wideZext words e none
  | .resize =>
      match srcWidth with
      | some sw => if width < sw then .wideTrunc words e width else .wideZext words e (some sw)
      | none => .wideTrunc words e width

def plainCast (width : Nat) (e : Cpp) : Cpp :=
  if 64 < width then .uint128 e else .uint64 e

def truncShape (width : Nat) (e : Cpp) : Cpp :=
  if 64 < width then .truncU128 (.uint128 e) width
  else if width = 64 then .uint64 e
  else .uint64 (.and64 e (BitVec.ofNat 64 (2 ^ width - 1)))

def zextShape (width : Nat) (srcWidth : Option Nat) (e : Cpp) : Cpp :=
  match srcWidth with
  | some sw => plainCast width (.truncU128 (.uint128 e) sw)
  | none => plainCast width e

def sextShape (width : Nat) (srcWidth : Option Nat) (e : Cpp) : Cpp :=
  let relabel := if width ≤ 64 then .int64 (.uint64 e) else plainCast width e
  match srcWidth with
  | some sw =>
      if sw = width ∧ 64 < width then .truncU128 (.uint128 e) width
      else if sw = 64 ∧ width = 64 then .int64 (.uint64 e)
      else if sw ≤ width then
        if 64 < width then .sextU128 (.uint128 e) sw width
        else .int64 (.sar64 (.shl64 e (64 - sw)) (64 - sw))
      else relabel
  | none => relabel

/-- A cast to an integer of at most 128 bits. -/
def scalarCastCpp (kind : WidthCastKind) (width : Nat) (srcWidth : Option Nat) (e : Cpp) : Cpp :=
  match kind with
  | .trunc => truncShape width e
  | .zext => zextShape width srcWidth e
  | .sext => sextShape width srcWidth e
  | .resize =>
      match srcWidth with
      | some sw => if width < sw then truncShape width e else plainCast width e
      | none => truncShape width e

/-- A cast of a given text. -/
def castCpp (kind : WidthCastKind) (width : Nat) (srcWidth : Option Nat) (e : Cpp) : Cpp :=
  match wideScalarWords width with
  | some words => wideCastCpp words kind width srcWidth e
  | none => scalarCastCpp kind width srcWidth e

def widthCastCpp (kind : WidthCastKind) (width : Nat) (srcWidth : Option Nat) (inner : Expr) :
    Cpp :=
  let lowBits := decide (kind = .trunc) && decide (width ≤ 64)
  castCpp kind width srcWidth (exprCpp lowBits inner)

/-! ### What a cast names -/

/-- The number that a cast names.  Above 64 bits a signed value is held by its bits. -/
def named (kind : WidthCastKind) (width sw : Nat) (z : Int) : Int :=
  match kind with
  | .trunc => z % 2 ^ width
  | .zext => z % 2 ^ sw
  | .sext => if width ≤ 64 then signedLow sw z else signedLow sw z % 2 ^ width
  | .resize => if width < sw then z % 2 ^ width else z % 2 ^ sw

/-- A text has the number that the cast of a number names. -/
def Names (kind : WidthCastKind) (width sw : Nat) (text : Cpp) (z : Int) : Prop :=
  ∃ r, text.eval = some r ∧ r.toInt = named kind width sw z

/-- The cast of an expression has the number that it names. -/
def Means (kind : WidthCastKind) (width sw : Nat) (inner : Expr) : Prop :=
  ∀ v, (exprCpp false inner).eval = some v →
    Names kind width sw (widthCastCpp kind width (some sw) inner) v.toInt

/-- The values whose casts have the numbers that they name, where the text of the inner
expression does not depend on the mode. -/
def ExactOn (kind : WidthCastKind) (width sw : Nat) (v : Val) : Prop :=
  match kind with
  | .trunc => True
  | .zext => width ≤ 128 ∨ ZeroExtends sw v
  | .sext => width ≤ 128 ∨ sw = width ∨ FitsWords (divCeil width) v
  | .resize => width < sw ∨
      if width ≤ 64 then v.toInt % 2 ^ 64 < 2 ^ sw
      else if width ≤ 128 then v.toInt % 2 ^ 128 < 2 ^ sw
      else ZeroExtends sw v

section Texts

variable {width sw : Nat} {e : Cpp} {v : Val} (he : e.eval = some v)

include he

theorem eval_truncU128 (width : Nat) : ∃ r, (Cpp.truncU128 (.uint128 e) width).eval = some r ∧
    r.toInt = v.toInt % 2 ^ 128 % 2 ^ width := by
  refine ⟨.ofU128 (toU128 v &&& maskU128 width), ?_, natCast_maskedU128 v width⟩
  simp only [Cpp.eval, he, Option.map_some, toU128_ofU128]

theorem eval_plainCast (width : Nat) : ∃ r, (plainCast width e).eval = some r ∧
    r.toInt = if width ≤ 64 then v.toInt % 2 ^ 64 else v.toInt % 2 ^ 128 := by
  unfold plainCast
  split_ifs with hbig hsmall hsmall
  · omega
  · exact ⟨.ofU128 (toU128 v), by rw [Cpp.eval, he, Option.map_some], toNat_toU128 v⟩
  · exact ⟨.ofU64 v.toU64, by rw [Cpp.eval, he, Option.map_some], natCast_toU64 v⟩
  · omega

theorem eval_truncShape (hwidth : width ≤ 128) : ∃ r, (truncShape width e).eval = some r ∧
    r.toInt = v.toInt % 2 ^ width := by
  unfold truncShape
  split_ifs with hbig hfull
  · obtain ⟨r, hr, hvalue⟩ := eval_truncU128 he width
    exact ⟨r, hr, by rw [hvalue, emod_emod_two_pow hwidth]⟩
  · subst hfull
    exact ⟨.ofU64 v.toU64, by rw [Cpp.eval, he, Option.map_some], natCast_toU64 v⟩
  · refine ⟨.ofU64 (v.toU64 &&& BitVec.ofNat 64 (2 ^ width - 1)), ?_, ?_⟩
    · simp only [Cpp.eval, he, Option.map_some, toU64_ofU64]
    · exact toInt_and_low (by omega) v

theorem eval_zextShape (hsw : sw ≤ width) (hwidth : width ≤ 128) :
    ∃ r, (zextShape width (some sw) e).eval = some r ∧ r.toInt = v.toInt % 2 ^ sw := by
  obtain ⟨x, hx, hvalue⟩ := eval_truncU128 he sw
  obtain ⟨r, hr, hcast⟩ := eval_plainCast hx width
  have hlow : x.toInt = v.toInt % 2 ^ sw := by
    rw [hvalue, emod_emod_two_pow (by omega)]
  refine ⟨r, hr, ?_⟩
  rw [hcast, hlow]
  split_ifs with hsmall
  · exact emod_emod_of_le (by omega) v.toInt
  · exact emod_emod_of_le (by omega) v.toInt

theorem eval_relabel : ∃ r, (Cpp.int64 (.uint64 e)).eval = some r ∧
    r.toInt = signedLow 64 v.toInt := by
  refine ⟨ofI64 v.toU64, ?_, ?_⟩
  · simp only [Cpp.eval, he, Option.map_some, toU64_ofU64]
  · change v.toU64.toInt = _
    rw [BitVec.toInt_eq_toNat_bmod, natCast_toU64]
    exact signedLow_emod (Nat.le_refl 64) v.toInt

theorem eval_shiftFill (hpos : 0 < sw) (hsw : sw < 64) :
    ∃ r, (Cpp.int64 (.sar64 (.shl64 e (64 - sw)) (64 - sw))).eval = some r ∧
      r.toInt = signedLow sw v.toInt := by
  have hsext := sextI64_eq (show sw ≤ 64 by omega) v.toU64
  rw [sextI64, if_neg (by omega), if_neg (by omega), hostShl_of_lt (by omega),
    Option.bind_some] at hsext
  refine ⟨ofI64 ((v.toU64.setWidth sw).signExtend 64), ?_, ?_⟩
  · simp only [Cpp.eval, he, Option.bind_some, hostShl_of_lt (show 64 - sw < 64 by omega),
      Option.map_some, toU64_ofU64, hsext, toU64_ofI64]
  · change ((v.toU64.setWidth sw).signExtend 64).toInt = _
    rw [BitVec.toInt_signExtend_of_le (by omega), BitVec.toInt_setWidth, natCast_toU64]
    exact signedLow_emod (by omega) v.toInt

theorem eval_sextShape (hpos : 0 < sw) (hsw : sw ≤ width) (hwidth : width ≤ 128) :
    ∃ r, (sextShape width (some sw) e).eval = some r ∧
      r.toInt = if width ≤ 64 then signedLow sw v.toInt
        else signedLow sw v.toInt % 2 ^ width := by
  simp only [sextShape]
  rcases Nat.lt_or_ge 64 width with hbig | hsmall
  · simp only [show ¬ width ≤ 64 by omega, if_false, hbig, if_true]
    split_ifs with hfull hhost
    · obtain ⟨r, hr, hvalue⟩ := eval_truncU128 he width
      refine ⟨r, hr, ?_⟩
      rw [hvalue, emod_emod_two_pow hwidth, hfull.1, emod_signedLow (Nat.le_refl width)]
    · omega
    · refine ⟨.ofU128 (CarrierArithmetic.sextU128 (toU128 v) sw width), ?_, ?_⟩
      · simp only [Cpp.eval, he, Option.map_some, toU128_ofU128]
      · rw [toInt_ofU128, toNat_sextU128 hpos (by omega) hwidth, toNat_toU128,
          signedLow_emod (by omega)]
  · simp only [hsmall, if_true, show ¬ 64 < width by omega, and_false, if_false]
    split_ifs with hhost
    · rw [hhost.1]
      exact eval_relabel he
    · exact eval_shiftFill he hpos (by omega)

end Texts

section WideTexts

variable {width sw : Nat} {e : Cpp} {v : Val} (he : e.eval = some v)
  (hwords : 32 * divCeil width < 2 ^ 32)

include he hwords

theorem eval_wideTrunc {w : Nat} (hw : w ≤ width) :
    ∃ r, (Cpp.wideTrunc (divCeil width) e w).eval = some r ∧ r.toInt = v.toInt % 2 ^ w := by
  have hfits := Coercion.le_divCeil width
  exact ⟨valTrunc (divCeil width) w v, by rw [Cpp.eval, he, Option.map_some],
    toInt_valTrunc hwords (by omega) v⟩

theorem eval_wideZext (hsw : sw ≤ width) :
    ∃ r, (Cpp.wideZext (divCeil width) e (some sw)).eval = some r ∧
      (r.toInt = v.toInt % 2 ^ sw ↔ ZeroExtends sw v) := by
  have hfits := Coercion.le_divCeil width
  refine ⟨valZext (divCeil width) (some sw) v, by rw [Cpp.eval, he, Option.map_some], ?_⟩
  rw [toInt_valZext hwords (by omega)]
  exact unsignedBits_emod_iff sw v

theorem eval_wideSext (hpos : 0 < sw) (hsw : sw ≤ width) :
    (∃ r, (Cpp.wideSext (divCeil width) e sw width).eval = some r ∧
      r.toInt = signedLow sw v.toInt % 2 ^ width) ↔ FitsWords (divCeil width) v := by
  have hfits := Coercion.le_divCeil width
  have heval : (Cpp.wideSext (divCeil width) e sw width).eval =
      valSext (divCeil width) sw width v := by
    rw [Cpp.eval, he, Option.bind_some]
  rw [heval]
  constructor
  · rintro ⟨r, hr, -⟩
    rcases v with v | v
    · trivial
    · simp only [valSext] at hr
      split_ifs at hr with hv
      exact hv
  · intro hv
    exact valSext_spec hwords hpos (by omega) (by omega) hfits hv

end WideTexts

/-- A text with a value has the number that the cast names exactly if the value is `r`. -/
theorem names_iff {kind : WidthCastKind} {width sw : Nat} {text : Cpp} {z : Int} {r : Val}
    (h : text.eval = some r) : Names kind width sw text z ↔ r.toInt = named kind width sw z := by
  rw [Names, h]
  constructor
  · rintro ⟨s, hs, hvalue⟩
    obtain rfl := Option.some.inj hs
    exact hvalue
  · intro hvalue
    exact ⟨r, rfl, hvalue⟩

section Casts

variable {width sw : Nat} {e : Cpp} {v : Val}

theorem castCpp_wide (h : 128 < width) (kind : WidthCastKind) :
    castCpp kind width (some sw) e = wideCastCpp (divCeil width) kind width (some sw) e := by
  rw [castCpp, wideScalarWords, if_pos h]

theorem castCpp_scalar (h : width ≤ 128) (kind : WidthCastKind) :
    castCpp kind width (some sw) e = scalarCastCpp kind width (some sw) e := by
  rw [castCpp, wideScalarWords, if_neg (by omega)]

variable (he : e.eval = some v) (hmax : width ≤ 1024)

include he hmax

theorem names_trunc : Names .trunc width sw (castCpp .trunc width (some sw) e) v.toInt := by
  rcases Nat.lt_or_ge 128 width with hwide | hscalar
  · rw [castCpp_wide hwide]
    exact eval_wideTrunc he (by unfold divCeil; omega) (Nat.le_refl width)
  · rw [castCpp_scalar hscalar]
    exact eval_truncShape he hscalar

theorem names_zext_iff (hle : sw ≤ width) :
    Names .zext width sw (castCpp .zext width (some sw) e) v.toInt ↔
      width ≤ 128 ∨ ZeroExtends sw v := by
  rcases Nat.lt_or_ge 128 width with hwide | hscalar
  · obtain ⟨r, hr, hiff⟩ := eval_wideZext he (show 32 * divCeil width < 2 ^ 32 by
      unfold divCeil; omega) hle
    rw [castCpp_wide hwide, or_iff_right (by omega), ← hiff]
    exact names_iff hr
  · rw [castCpp_scalar hscalar, iff_true_right (Or.inl hscalar)]
    exact eval_zextShape he hle hscalar

theorem names_sext_iff (hsw : 1 ≤ sw) (hle : sw ≤ width) :
    Names .sext width sw (castCpp .sext width (some sw) e) v.toInt ↔
      width ≤ 128 ∨ sw = width ∨ FitsWords (divCeil width) v := by
  rcases Nat.lt_or_ge 128 width with hwide | hscalar
  · have hwords : 32 * divCeil width < 2 ^ 32 := by
      unfold divCeil
      omega
    rw [castCpp_wide hwide, or_iff_right (by omega)]
    simp only [wideCastCpp]
    split_ifs with hlt
    · rw [or_iff_right (by omega), ← eval_wideSext he hwords hsw hle]
      simp only [Names, named, if_neg (show ¬ width ≤ 64 by omega)]
    · obtain rfl : sw = width := by omega
      rw [iff_true_right (Or.inl rfl)]
      obtain ⟨r, hr, hvalue⟩ := eval_wideTrunc he hwords (Nat.le_refl sw)
      refine ⟨r, hr, ?_⟩
      rw [hvalue, named, if_neg (by omega), emod_signedLow (Nat.le_refl sw)]
  · rw [castCpp_scalar hscalar, iff_true_right (Or.inl hscalar)]
    exact eval_sextShape he hsw hle hscalar

theorem names_resize_iff :
    Names .resize width sw (castCpp .resize width (some sw) e) v.toInt ↔
      width < sw ∨
        if width ≤ 64 then v.toInt % 2 ^ 64 < 2 ^ sw
        else if width ≤ 128 then v.toInt % 2 ^ 128 < 2 ^ sw
        else ZeroExtends sw v := by
  have hwords : 32 * divCeil width < 2 ^ 32 := by
    unfold divCeil
    omega
  rcases Nat.lt_or_ge width sw with hnarrow | hwiden
  · -- a narrowing resize is a truncation
    rw [iff_true_right (Or.inl hnarrow), Names, named, if_pos hnarrow]
    rcases Nat.lt_or_ge 128 width with hwide | hscalar
    · simp only [castCpp_wide hwide, wideCastCpp, if_pos hnarrow]
      exact eval_wideTrunc he hwords (Nat.le_refl width)
    · simp only [castCpp_scalar hscalar, scalarCastCpp, if_pos hnarrow]
      exact eval_truncShape he hscalar
  · rw [or_iff_right (by omega)]
    have hnamed : named .resize width sw v.toInt = v.toInt % 2 ^ sw := if_neg (by omega)
    rcases Nat.lt_or_ge 128 width with hwide | hscalar
    · obtain ⟨r, hr, hiff⟩ := eval_wideZext he hwords hwiden
      rw [castCpp_wide hwide, wideCastCpp, if_neg (by omega), names_iff hr, hnamed, hiff,
        if_neg (by omega), if_neg (by omega)]
    · obtain ⟨r, hr, hvalue⟩ := eval_plainCast he width
      rw [castCpp_scalar hscalar, scalarCastCpp, if_neg (by omega), names_iff hr, hnamed, hvalue]
      split_ifs
      · exact emod_eq_emod_iff (by omega) v.toInt
      · exact emod_eq_emod_iff (by omega) v.toInt

end Casts

/-- The width casts mean what they name.  A truncation of a `+ - *` chain to at most 64 bits
does exactly where the reductions of its differences, which it drops, leave the low bits of
the chain; the other casts do exactly on the values that their helpers extend from the
declared width. -/
theorem width_casts_mean {kind : WidthCastKind} {width sw : Nat} {inner : Expr} {v : Val}
    (hmax : width ≤ 1024) (hsw : 1 ≤ sw) (hle : kind = .zext ∨ kind = .sext → sw ≤ width)
    (hv : (exprCpp false inner).eval = some v) :
    (kind = .trunc ∧ width ≤ 64 → Sound width inner →
      (Names kind width sw (widthCastCpp kind width (some sw) inner) v.toInt ↔
        reading true inner ≡ reading false inner [ZMOD 2 ^ width])) ∧
    (¬ (kind = .trunc ∧ width ≤ 64) →
      (Names kind width sw (widthCastCpp kind width (some sw) inner) v.toInt ↔
        ExactOn kind width sw v)) := by
  refine ⟨?_, ?_⟩
  · rintro ⟨rfl, hsmall⟩ hsound
    obtain ⟨v', hv', hnormal⟩ := eval_reading hsmall hsound hv false
    obtain rfl := Option.some.inj (hv.symm.trans hv')
    obtain ⟨u, hu, hlow⟩ := eval_reading hsmall hsound hv true
    obtain ⟨r, hr, hvalue⟩ := names_trunc hu hmax
    have hmode : widthCastCpp .trunc width (some sw) inner =
        castCpp .trunc width (some sw) (exprCpp true inner) := by
      simp only [widthCastCpp, hsmall, decide_true, Bool.and_self]
    rw [hmode, names_iff hr, hvalue]
    change u.toInt ≡ v.toInt [ZMOD 2 ^ width] ↔ _
    constructor
    · intro hsame
      exact (hlow.symm.trans hsame).trans hnormal
    · intro hsame
      exact (hlow.trans hsame).trans hnormal.symm
  · intro hmode
    have htext : widthCastCpp kind width (some sw) inner =
        castCpp kind width (some sw) (exprCpp false inner) := by
      have hflag : (decide (kind = .trunc) && decide (width ≤ 64)) = false := by
        rw [← Bool.decide_and]
        exact decide_eq_false hmode
      rw [widthCastCpp, hflag]
    rw [htext]
    cases kind with
    | trunc => exact iff_of_true (names_trunc hv hmax) trivial
    | zext => exact names_zext_iff hv hmax (hle (Or.inl rfl))
    | sext => exact names_sext_iff hv hmax hsw (hle (Or.inr rfl))
    | resize => exact names_resize_iff hv hmax

/-- An unsigned expression of known width in a carrier of 64 bits. -/
def unsignedOperand (width : Nat) (v : U64) : Expr :=
  .operand
    { value := .ofU64 v
      archWidth := some (width, false)
      staticWidth := fun _ => some width
      shiftWidth := fun _ => some width
      binaryWidth := fun _ => some width
      signed := false
      untyped := false
      logicalNot := false }

/-- The sum of `3` in 224 bits and the negation of `5` in 8 bits, whose carrier keeps 64. -/
def negatedSum : Expr :=
  .arith .add
    (.operand
      { value := .wide (M := 7) ⟨3#32 :: List.replicate 6 0#32, rfl⟩
        archWidth := some (224, false)
        staticWidth := fun _ => some 224
        shiftWidth := fun _ => some 224
        binaryWidth := fun _ => some 224
        signed := false
        untyped := false
        logicalNot := false })
    (unsignedOperand 8 (-5#64))

/-- A sum of two values of 64 bits, truncated to 64 bits, a sum whose negated operand of 8
bits both modes extend from 8, truncated to 16 bits, and a value of 8 bits, extended to 16. -/
theorem width_casts_mean_sum :
    Names .trunc 64 65
      (widthCastCpp .trunc 64 (some 65)
        (.arith .add (unsignedOperand 64 3#64) (unsignedOperand 64 4#64))) 7 ∧
    Names .trunc 16 225
      (widthCastCpp .trunc 16 (some 225) negatedSum) 254 ∧
    Names .zext 16 8 (widthCastCpp .zext 16 (some 8) (unsignedOperand 8 255#64)) 255 := by
  refine ⟨?_, ?_, ?_⟩
  · have hsound : Sound 64 (.arith .add (unsignedOperand 64 3#64) (unsignedOperand 64 4#64)) := by
      refine Or.inr ⟨Or.inr ⟨trivial, ?_⟩, Or.inr ⟨trivial, ?_⟩, ?_⟩
      · rintro low v ⟨⟩
        cases low <;> trivial
      · rintro low v ⟨⟩
        cases low <;> trivial
      · rintro low x y hx hy
        cases low with
        | true =>
            cases hx
            cases hy
            exact Or.inl (by decide)
        | false =>
            cases hx
            cases hy
            exact Or.inl (by decide)
    have hmean := @width_casts_mean .trunc 64 65
      (.arith .add (unsignedOperand 64 3#64) (unsignedOperand 64 4#64)) (.ofU128 7#128)
      (by decide) (by decide) (by rintro (h | h) <;> cases h) (by rfl)
    exact (hmean.1 (by decide) hsound).mpr (by rfl)
  · have hsound : Sound 16 negatedSum := by
      refine Or.inr ⟨Or.inr ⟨trivial, ?_⟩, Or.inl ⟨rfl, ?_⟩, ?_⟩
      · rintro low v ⟨⟩
        cases low with
        | true => trivial
        | false => exact ⟨by decide, Or.inl ⟨by decide, trivial⟩⟩
      · rintro v ⟨⟩
        exact ⟨_, _, rfl, rfl, by decide⟩
      · rintro low x y hx hy
        cases low with
        | true =>
            cases hx
            cases hy
            exact ⟨rfl, by decide, by decide⟩
        | false =>
            cases hx
            cases hy
            exact ⟨rfl, by decide, by decide⟩
    have hmean := @width_casts_mean .trunc 16 225 negatedSum
      (.wide (M := 8) ⟨254#32 :: List.replicate 7 0#32, rfl⟩)
      (by decide) (by decide) (by rintro (h | h) <;> cases h) (by rfl)
    exact (hmean.1 (by decide) hsound).mpr (by rfl)
  · have hmean := @width_casts_mean .zext 16 8 (unsignedOperand 8 255#64) (.ofU64 255#64)
      (by decide) (by decide) (fun _ => by decide) (by rfl)
    exact (hmean.2 (by decide)).mpr (Or.inl (by decide))

/-- The difference of `0` and `1` in 8 bits is reduced to 9 bits outside a truncation and not
inside one, and a widening resize keeps the bits that a negation leaves above the width. -/
theorem width_casts_fail :
    ¬ Means .trunc 12 17
      (.arith .mul (.arith .sub (unsignedOperand 8 0#64) (unsignedOperand 8 1#64))
        (unsignedOperand 8 2#64)) ∧
    ¬ Means .resize 16 8 (unsignedOperand 8 (-1#64)) := by
  refine ⟨fun h => ?_, fun h => ?_⟩
  · obtain ⟨r, hr, hvalue⟩ := h (.ofU64 1022#64) (by rfl)
    obtain rfl := Option.some.inj (hr.symm.trans (show _ = some (.ofU64 4094#64) by rfl))
    exact absurd hvalue (by decide)
  · obtain ⟨r, hr, hvalue⟩ := h _ rfl
    obtain rfl := Option.some.inj hr
    exact absurd hvalue (by decide)

end Harc.WidthCasts
