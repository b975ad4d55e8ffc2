import Harc.RegblockAccess
import Harc.TwosComplement

/-!
Coherence of the mirror of a register block over sequences of accesses.
-/

namespace Harc.RegblockMirror

open Harc.CppScalar
open Harc.RegblockLowering
open Harc.RegblockAccess

section Emission

variable {cc : Compiler} {v : Operand} {mask : U64} {i : Nat}

theorem lt_wideCarrier {width : Nat} (hi : i < 64) : i < (wideCarrier width).bits := by
  unfold wideCarrier Carrier.wide
  dsimp only
  omega

theorem bit_wideMask {width : Nat} (hi : i < 64) :
    (CValue.mk (wideCarrier width) (BitVec.ofNat _ mask.toNat)).bit i = mask.getLsbD i := by
  refine (CValue.bit_of_lt (lt_wideCarrier hi)).trans ?_
  rw [BitVec.getLsbD_ofNat]
  simp only [lt_wideCarrier hi, decide_true, Bool.true_and]
  rfl

/-- The low bits of a value in a wider carrier. -/
theorem bit_castMask {x : CValue} {c : Carrier} {width : Nat} (hi : i < c.bits) :
    ((x.cast c).maskBits width).bit i = (decide (i < width) && x.bit i) := by
  rw [CValue.bit_maskBits (x := x.cast c) hi, CValue.bit_cast hi]

theorem bit_maskedValue (hi : i < 64) :
    (maskedValue cc v mask).bit i = ((v.value cc).bit i && mask.getLsbD i) := by
  have hmask : (decimal cc mask.toNat).bit i = mask.getLsbD i :=
    bit_decimal mask.isLt i
  have h128 : i < Carrier.uint128.bits := by
    change i < 128
    omega
  unfold maskedValue
  dsimp only
  split_ifs with hwide hmid hunsigned
  · rw [CValue.bit_bitAnd hi, bit_wideMask hi, bit_castMask (lt_wideCarrier hi)]
    simp [show i < max (v.operandWidth.getD 0) (literalWidth mask) by omega]
  · rw [CValue.bit_bitAnd hi, bit_castMask h128, bit_castMask h128, hmask]
    simp [show i < max (v.operandWidth.getD 0) (literalWidth mask) by omega]
  · rw [CValue.bit_bitAnd hi, bit_wideMask hi]
  · rw [CValue.bit_bitAnd hi, hmask]

theorem toU64_maskedValue :
    (maskedValue cc v mask).toU64 = (v.value cc).toU64 &&& mask := by
  refine BitVec.eq_of_getLsbD_eq fun i hi => ?_
  rw [CValue.getLsbD_toU64 hi, bit_maskedValue hi, BitVec.getLsbD_and, CValue.getLsbD_toU64 hi]

theorem getLsbD_harcSextI64 {x : U64} {width : Nat} (hpos : 0 < width) (hlt : width < 64)
    (hi : i < 64) : (harcSextI64 x width).getLsbD i = x.getLsbD (min i (width - 1)) := by
  unfold harcSextI64
  rw [if_neg (by omega), if_neg (by omega), BitVec.getLsbD_sshiftRight,
    BitVec.msb_eq_getLsbD_last]
  by_cases hlow : i < width
  · rw [if_pos (by omega), BitVec.getLsbD_shiftLeft]
    simp [show ¬ 64 ≤ i by omega, show min i (width - 1) = i by omega,
      show 64 - width + i < 64 by omega]
  · rw [if_neg (by omega), BitVec.getLsbD_shiftLeft]
    simp [show ¬ 64 ≤ i by omega, show min i (width - 1) = width - 1 by omega,
      show ¬ 63 < 64 - width by omega, show 63 - (64 - width) = width - 1 by omega]

theorem harcShlUw_eq {x : U64} {pos width : Nat} (h : (x <<< pos).toNat < 2 ^ width) :
    harcShlUw x pos width = x <<< pos := by
  have hhigh := lt_iff_getLsbD.mp h
  unfold harcShlUw
  refine BitVec.eq_of_getLsbD_eq fun i hi => ?_
  by_cases hlow : width ≤ i
  · rw [hhigh i hlow hi]
    split_ifs
    · simp
    · rw [BitVec.getLsbD_and, hhigh i hlow hi, Bool.false_and]
  · split_ifs with hpos
    · simp [show i < pos by omega]
    · have hmask : (harcMaskU64 width).getLsbD i = true := by
        have heq : harcMaskU64 width = fieldMask width := by
          unfold harcMaskU64 fieldMask
          split_ifs <;> first | rfl | omega
        rw [heq, getLsbD_fieldMask hi]
        simpa using Nat.lt_of_not_le hlow
      rw [BitVec.getLsbD_and, hmask, Bool.and_true]

theorem harcShlIw_eq {x : U64} {pos width : Nat} (hlt : width < 64)
    (h : harcSextI64 (x <<< pos) width = x <<< pos) :
    harcShlIw x pos width = x <<< pos := by
  unfold harcShlIw
  split_ifs with hpos
  · rw [← h]
    refine BitVec.eq_of_getLsbD_eq fun i hi => ?_
    rcases Nat.eq_zero_or_pos width with rfl | hwidth
    · simp [harcSextI64]
    · rw [getLsbD_harcSextI64 hwidth hlt hi, BitVec.getLsbD_shiftLeft]
      simp [show min i (width - 1) < pos by omega]
  · exact h

end Emission

section FieldWrite

variable {cc : Compiler}

/-- The written value in the place of the field. -/
def shiftedField (cc : Compiler) (fld : RegFieldSchema) (v : Operand) : U64 :=
  ((v.value cc).toU64 &&& fieldMask fld.bitWidth) <<< fld.bitPos

/-- The shift to the field's place happens in the declared width of the written
expression, and loses nothing there. -/
def FieldWriteFits (cc : Compiler) (fld : RegFieldSchema) (v : Operand) : Prop :=
  64 < maskedShiftWidth v (fieldMask fld.bitWidth) ∨
    ∀ w ∈ v.declaredWidth, w < 64 →
      if maskedIsSigned v (fieldMask fld.bitWidth) then
        harcSextI64 (shiftedField cc fld v) w = shiftedField cc fld v
      else (shiftedField cc fld v).toNat < 2 ^ w

theorem getLsbD_shiftedField {fld : RegFieldSchema} {v : Operand} {i : Nat} (hi : i < 64) :
    (shiftedField cc fld v).getLsbD i =
      (!decide (i < fld.bitPos) &&
        (maskedValue cc v (fieldMask fld.bitWidth)).bit (i - fld.bitPos)) := by
  have hsub : i - fld.bitPos < 64 := by omega
  rw [shiftedField, ← toU64_maskedValue, BitVec.getLsbD_shiftLeft, CValue.getLsbD_toU64 hsub]
  simp [hi]

/-- Above 64 bits the shift keeps every bit of the field. -/
theorem bit_wideShift {x : CValue} {c : Carrier} {pos width i : Nat} (hi : i < c.bits)
    (hwidth : i < width) :
    (CValue.maskBits ⟨c, x.convert c <<< pos⟩ width).bit i =
      (!decide (i < pos) && x.bit (i - pos)) := by
  have hsub : i - pos < c.bits := by omega
  rw [CValue.bit_maskBits (x := ⟨c, x.convert c <<< pos⟩) hi,
    CValue.bit_of_lt (x := ⟨c, x.convert c <<< pos⟩) hi, BitVec.getLsbD_shiftLeft,
    CValue.getLsbD_convert hsub]
  simp [hi, hwidth]

theorem bit_insertedValue {fld : RegFieldSchema} {v : Operand} (h : FieldWriteFits cc fld v)
    (hpos : fld.bitPos < 64) {i : Nat} (hi : i < 64) :
    (insertedValue cc v (fieldMask fld.bitWidth) fld.bitPos).bit i =
      (shiftedField cc fld v).getLsbD i := by
  have hmasked : (maskedValue cc v (fieldMask fld.bitWidth)).toU64 <<< fld.bitPos =
      shiftedField cc fld v := by
    rw [toU64_maskedValue, shiftedField]
  unfold insertedValue
  dsimp only
  by_cases hwide : 128 < maskedShiftWidth v (fieldMask fld.bitWidth)
  · rw [if_pos hwide, bit_wideShift (lt_wideCarrier hi) (by omega), getLsbD_shiftedField hi]
  rw [if_neg hwide]
  by_cases hmid : 64 < maskedShiftWidth v (fieldMask fld.bitWidth)
  · have h128 : i < Carrier.uint128.bits := by
      change i < 128
      omega
    have hshl : harcShlU128 (CValue.convert (maskedValue cc v (fieldMask fld.bitWidth)) .uint128)
        fld.bitPos (maskedShiftWidth v (fieldMask fld.bitWidth)) =
        (CValue.maskBits ⟨.uint128, CValue.convert (maskedValue cc v (fieldMask fld.bitWidth))
          .uint128 <<< fld.bitPos⟩ (maskedShiftWidth v (fieldMask fld.bitWidth))).pattern :=
      if_neg (by omega)
    rw [if_pos hmid, hshl, getLsbD_shiftedField hi]
    exact bit_wideShift h128 (by omega)
  · rw [if_neg hmid]
    have hfits := h.resolve_left hmid
    cases hdeclared : v.declaredWidth.filter (· < 64) with
    | none =>
        dsimp only
        rw [CValue.bit_ofU64, hmasked]
    | some w =>
        rw [Option.filter_eq_some_iff] at hdeclared
        have hw : w < 64 := by simpa using hdeclared.2
        have hfit := hfits w hdeclared.1 hw
        rw [← hmasked] at hfit ⊢
        dsimp only
        split_ifs at hfit ⊢ with hsigned
        · rw [CValue.getLsbD_ofI64 hi, harcShlIw_eq hw hfit]
        · rw [CValue.bit_ofU64, harcShlUw_eq hfit]

/-- A field write sets the bits of the field to the written value and keeps the others. -/
theorem getLsbD_fieldWriteWord {reg : RegRegisterSchema} {fld : RegFieldSchema} {v : Operand}
    {cell : U64} (hfits : FieldWriteFits cc fld v) (hle : reg.width ≤ 64)
    (hvalid : fld.Valid reg.width) (hcell : cell.toNat < 2 ^ reg.width) {i : Nat}
    (hi : i < 64) :
    (fieldWriteWord cc cell reg fld v).getLsbD i =
      if fld.bitPos ≤ i ∧ i < fld.bitPos + fld.bitWidth then
        (v.value cc).bit (i - fld.bitPos)
      else cell.getLsbD i := by
  have hpos : fld.bitPos < 64 := by
    have := hvalid.pos
    have := hvalid.inside
    omega
  have hinserted := bit_insertedValue hfits hpos hi
  have hcleared : (CValue.bitAnd (.ofU64 cell)
      (decimal cc (fieldMask fld.bitWidth <<< fld.bitPos).toNat).bitNot).bit i =
      (cell.getLsbD i && !decide (fld.bitPos ≤ i ∧ i < fld.bitPos + fld.bitWidth)) := by
    rw [CValue.bit_bitAnd hi, CValue.bit_bitNot hi, bit_decimal (BitVec.isLt _),
      CValue.bit_ofU64]
    congr 2
    exact getLsbD_shiftedMask hi
  have hshifted : (shiftedField cc fld v).getLsbD i =
      (decide (fld.bitPos ≤ i ∧ i < fld.bitPos + fld.bitWidth) &&
        (v.value cc).bit (i - fld.bitPos)) := by
    rw [getLsbD_shiftedField hi, bit_maskedValue (by omega), getLsbD_fieldMask (by omega)]
    by_cases hle : fld.bitPos ≤ i
    · have hiff : i - fld.bitPos < fld.bitWidth ↔ i < fld.bitPos + fld.bitWidth := by omega
      simp [hle, hiff, Bool.and_comm]
    · simp [hle, Nat.lt_of_not_le hle]
  have hword : (fieldWriteWord cc cell reg fld v).getLsbD i =
      ((cell.getLsbD i && !decide (fld.bitPos ≤ i ∧ i < fld.bitPos + fld.bitWidth)) ||
        (shiftedField cc fld v).getLsbD i) := by
    unfold fieldWriteWord
    dsimp only
    split_ifs
    · rw [CValue.getLsbD_toU64 hi, CValue.bit_bitOr hi, bit_castMask (lt_wideCarrier hi),
        hcleared, hinserted]
      by_cases hin : i < reg.width
      · simp [hin]
      · simp [hin, lt_iff_getLsbD.mp hcell i (by omega) hi]
    · rw [CValue.getLsbD_toU64 hi, CValue.bit_bitOr hi, hcleared, hinserted]
  rw [hword, hshifted]
  split_ifs with hin
  · simp [hin]
  · simp [hin]

end FieldWrite

section Values

open Harc.TwosComplement

/-- The bits of the field, right-aligned. -/
def fieldBits (fld : RegFieldSchema) (word : U64) : Nat :=
  (word.toNat >>> fld.bitPos) % 2 ^ fld.bitWidth

/-- The value of the field of a word. -/
def fieldValue (fld : RegFieldSchema) (word : U64) : Int :=
  if fld.signed then Int.bmod (fieldBits fld word) (2 ^ fld.bitWidth) else fieldBits fld word

theorem toNat_eq_emod {word : U64} {z : Int} {width : Nat} (hle : width ≤ 64)
    (h : ∀ i < 64, word.getLsbD i = (decide (i < width) && z.testBit i)) :
    word.toNat = (z % 2 ^ width).toNat := by
  refine Nat.eq_of_testBit_eq fun i => ?_
  rw [testBit_emod_two_pow]
  by_cases hi : i < 64
  · exact h i hi
  · have hhigh : word.getLsbD i = false := BitVec.getLsbD_of_ge word i (Nat.le_of_not_lt hi)
    simp [show ¬ i < width by omega]
    exact hhigh

theorem fieldBits_eq_emod {fld : RegFieldSchema} {word : U64} {z : Int}
    (h : ∀ i < fld.bitWidth, word.getLsbD (fld.bitPos + i) = z.testBit i) :
    fieldBits fld word = (z % 2 ^ fld.bitWidth).toNat := by
  refine Nat.eq_of_testBit_eq fun i => ?_
  rw [testBit_emod_two_pow, fieldBits, Nat.testBit_mod_two_pow, Nat.testBit_shiftRight]
  by_cases hi : i < fld.bitWidth
  · simp [hi, ← h i hi, BitVec.getLsbD]
  · simp [hi]

theorem toNat_maskedWord {cc : Compiler} {fld : RegFieldSchema} {word : U64} :
    (CValue.bitAnd (.ofU64 (word >>> fld.bitPos))
      (decimal cc (fieldMask fld.bitWidth).toNat)).toU64.toNat = fieldBits fld word := by
  have hbits : ∀ i < 64, (CValue.bitAnd (.ofU64 (word >>> fld.bitPos))
      (decimal cc (fieldMask fld.bitWidth).toNat)).toU64.getLsbD i =
      (word.getLsbD (fld.bitPos + i) && decide (i < fld.bitWidth)) := by
    intro i hi
    have hmask : (decimal cc (fieldMask fld.bitWidth).toNat).bit i = decide (i < fld.bitWidth) :=
      (bit_decimal (BitVec.isLt _) i).trans (getLsbD_fieldMask hi)
    rw [CValue.getLsbD_toU64 hi, CValue.bit_bitAnd hi, hmask, CValue.bit_ofU64,
      BitVec.getLsbD_ushiftRight]
  refine Nat.eq_of_testBit_eq fun i => ?_
  rw [fieldBits, Nat.testBit_mod_two_pow, Nat.testBit_shiftRight]
  by_cases hi : i < 64
  · exact (hbits i hi).trans (Bool.and_comm _ _)
  · have hword : word.toNat.testBit (fld.bitPos + i) = false :=
      BitVec.getLsbD_of_ge word _ (by omega)
    rw [hword, Bool.and_false]
    exact BitVec.getLsbD_of_ge _ _ (Nat.le_of_not_lt hi)

theorem getLsbD_sextCast {fld : RegFieldSchema} (hpos : 0 < fld.bitWidth)
    (hlt : fld.bitWidth < 64) (x : CValue) {i : Nat} (hi : i < 64) :
    (fieldExtractExpr.sextCast fld x).getLsbD i = x.bit (min i (fld.bitWidth - 1)) := by
  have hsext : fieldExtractExpr.sextCast fld x = harcSextI64 x.toU64 fld.bitWidth := by
    unfold fieldExtractExpr.sextCast harcSextI64
    rw [if_neg (by omega), if_neg (by omega)]
  rw [hsext, getLsbD_harcSextI64 hpos hlt hi, CValue.getLsbD_toU64 (by omega)]

/-- The second cast only relabels the value of the first one. -/
theorem sextCast_sextCast {fld : RegFieldSchema} (hpos : 0 < fld.bitWidth)
    (hlt : fld.bitWidth < 64) (x : CValue) :
    fieldExtractExpr.sextCast fld (.ofI64 (fieldExtractExpr.sextCast fld x)) =
      fieldExtractExpr.sextCast fld x := by
  refine BitVec.eq_of_getLsbD_eq fun i hi => ?_
  have hmin : min i (fld.bitWidth - 1) < 64 := by omega
  rw [getLsbD_sextCast hpos hlt _ hi, CValue.getLsbD_ofI64 hmin,
    getLsbD_sextCast hpos hlt x hmin, getLsbD_sextCast hpos hlt x hi]
  congr 1
  omega

/-- The sign extension of a word that holds the bits of a field. -/
theorem toInt_sextCast {fld : RegFieldSchema} (hpos : 0 < fld.bitWidth)
    (hlt : fld.bitWidth < 64) (x : CValue) :
    (fieldExtractExpr.sextCast fld x).toInt = Int.bmod x.toU64.toNat (2 ^ fld.bitWidth) := by
  have hext : fieldExtractExpr.sextCast fld x =
      (x.toU64.setWidth fld.bitWidth).signExtend 64 := by
    refine BitVec.eq_of_getLsbD_eq fun i hi => ?_
    rw [getLsbD_sextCast hpos hlt x hi, BitVec.getLsbD_signExtend, BitVec.getLsbD_setWidth,
      BitVec.msb_eq_getLsbD_last, BitVec.getLsbD_setWidth,
      ← CValue.getLsbD_toU64 (show min i (fld.bitWidth - 1) < 64 by omega)]
    by_cases hlow : i < fld.bitWidth
    · simp [hi, hlow, show min i (fld.bitWidth - 1) = i by omega]
    · simp [hi, hlow, show min i (fld.bitWidth - 1) = fld.bitWidth - 1 by omega,
        show fld.bitWidth - 1 < fld.bitWidth by omega]
  rw [hext, BitVec.toInt_signExtend_of_le (Nat.le_of_lt hlt), BitVec.toInt_setWidth]

/-- A field read returns the value of the field, sign-extended if it is signed. -/
theorem toInt_fieldExtractExpr {cc : Compiler} {fld : RegFieldSchema} {word : U64}
    (hpos : 0 < fld.bitWidth) (hle : fld.bitWidth ≤ 64) :
    (fieldExtractExpr cc fld word).toInt = fieldValue fld word := by
  have hbits : (CValue.bitAnd (.ofU64 (word >>> fld.bitPos))
      (decimal cc (fieldMask fld.bitWidth).toNat)).toU64.toNat = fieldBits fld word :=
    toNat_maskedWord
  unfold fieldExtractExpr fieldValue
  dsimp only
  by_cases hsigned : fld.signed
  · rw [if_pos hsigned, if_pos hsigned]
    rcases Nat.lt_or_eq_of_le hle with hlt | heq
    · rw [if_pos hlt, if_neg (Nat.ne_of_lt hlt), sextCast_sextCast hpos hlt,
        CValue.toInt_ofI64, toInt_sextCast hpos hlt, hbits]
    · rw [if_pos heq, if_neg (show ¬ fld.bitWidth < 64 by omega), CValue.toInt_ofI64,
        BitVec.toInt_eq_toNat_bmod, hbits, heq]
  · rw [if_neg hsigned, if_neg hsigned, CValue.toInt_bitAnd_ofU64, hbits]

end Values

section Words

variable {cc : Compiler}

theorem toNat_and_fieldMask {v : CValue} {width : Nat} (hle : width ≤ 64) :
    (v.toU64 &&& fieldMask width).toNat = (v.toInt % 2 ^ width).toNat := by
  refine toNat_eq_emod hle fun i hi => ?_
  rw [BitVec.getLsbD_and, CValue.getLsbD_toU64 hi, getLsbD_fieldMask hi,
    CValue.bit_eq_testBit, Bool.and_comm]

theorem toNat_toU64 {v : CValue} : v.toU64.toNat = (v.toInt % 2 ^ 64).toNat := by
  refine toNat_eq_emod (Nat.le_refl 64) fun i hi => ?_
  rw [CValue.getLsbD_toU64 hi, CValue.bit_eq_testBit]
  simp [hi]

theorem toU64_literal {n : U64} : ((Operand.literal n).value cc).toU64 = n := by
  refine BitVec.eq_of_getLsbD_eq fun i hi => ?_
  rw [CValue.getLsbD_toU64 hi]
  exact bit_decimal n.isLt i

theorem toNat_regWriteWord {reg : RegRegisterSchema} {v : Operand} (hle : reg.width ≤ 64) :
    (regWriteWord cc reg v).toNat = ((v.value cc).toInt % 2 ^ reg.width).toNat := by
  cases v with
  | literal n =>
      have hn : n = ((Operand.literal n).value cc).toU64 := toU64_literal.symm
      change (n &&& fieldMask reg.width).toNat = _
      rw [hn, toNat_and_fieldMask hle, ← hn]
  | typed e =>
      rw [regWriteWord]
      split_ifs with h64
      · have hwidth : reg.width = 64 := by omega
        rw [toNat_toU64, hwidth]
        rfl
      · rw [toU64_maskedValue, toNat_and_fieldMask hle]

theorem toNat_recordWriteWord {reg : RegRegisterSchema} {constAddr : Bool} {v : Operand}
    (hle : reg.width ≤ 64) :
    (recordWriteWord cc constAddr reg v).toNat =
      ((v.value cc).toInt % 2 ^ reg.width).toNat := by
  unfold recordWriteWord
  split_ifs
  · rw [toU64_maskedValue, toNat_and_fieldMask hle]
  · exact toNat_and_fieldMask hle

/-- A word below the width is its own low bits. -/
theorem and_fieldMask_of_lt {word : U64} {width : Nat} (h : word.toNat < 2 ^ width) :
    word &&& fieldMask width = word := by
  refine BitVec.eq_of_getLsbD_eq fun i hi => ?_
  rw [BitVec.getLsbD_and, getLsbD_fieldMask hi]
  by_cases hlow : i < width
  · simp [hlow]
  · simp [hlow, lt_iff_getLsbD.mp h i (Nat.le_of_not_lt hlow) hi]

theorem registerReadValue_eq {width : Nat} {returned : Returned width} (hle : width ≤ 64) :
    registerReadValue cc returned = returned.raw.value.toU64 &&& fieldMask width := by
  unfold registerReadValue
  split_ifs with hexact h64
  · exact (and_fieldMask_of_lt (returned.exact_lt hexact)).symm
  · have hwidth : width = 64 := by omega
    subst hwidth
    exact (and_fieldMask_of_lt (BitVec.isLt _)).symm
  · exact toU64_maskedValue

theorem regReadExpr_eq {width : Nat} {returned : Returned width} (hle : width ≤ 64) :
    regReadExpr returned = returned.raw.value.toU64 &&& fieldMask width := by
  unfold regReadExpr
  split_ifs with hmask
  · refine BitVec.eq_of_getLsbD_eq fun i hi => ?_
    rw [CValue.getLsbD_toU64 hi, CValue.bit_bitAnd hi, CValue.bit_ofU64, BitVec.getLsbD_and,
      CValue.getLsbD_toU64 hi]
  · refine (and_fieldMask_of_lt ?_).symm
    by_cases hexact : returned.exact = true
    · exact returned.exact_lt hexact
    · have hwidth : width = 64 := by
        by_contra hne
        exact hmask ⟨by omega, by simpa using hexact⟩
      subst hwidth
      exact BitVec.isLt _

/-- Every spelling of a bus read takes the low bits of what the helper returns. -/
theorem toNat_busReadWord {width : Nat} {form : ReadForm} {returned : Returned width}
    (hle : width ≤ 64) :
    (busReadWord cc form returned).toNat = (returned.raw.value.toInt % 2 ^ width).toNat := by
  rw [← toNat_and_fieldMask hle]
  cases form with
  | letBound => exact congrArg BitVec.toNat (registerReadValue_eq hle)
  | inlineBus => exact congrArg BitVec.toNat (registerReadValue_eq hle)
  | inlineHelper => exact congrArg BitVec.toNat (regReadExpr_eq hle)

end Words

section Coherence

/-- The access sets the register to `z` modulo its width and leaves the others alone. -/
def SetsRegister (reg : RegRegisterSchema) (z : Int) (before after : Mirror) : Prop :=
  (after reg.name).toNat = (z % 2 ^ reg.width).toNat ∧
    ∀ name ≠ reg.name, after name = before name

/-- The mirror after a read, which predicts the register from the bus. -/
def Predicts (access : RegAccess) (reg : RegRegisterSchema) (returned : Returned reg.width)
    (before after : Mirror) : Prop :=
  if access.readsFromBus then SetsRegister reg returned.raw.value.toInt before after
  else after = before

/-- What an access has to do. -/
def Coherent (cc : Compiler) {regs : List RegRegisterSchema} (cells : List RecordFieldSchema)
    (before : Mirror) (out : Outcome) : Access regs → Prop
  | .regWrite reg _ v =>
      SetsRegister reg (v.value cc).toInt before out.mirror ∧
        out.writes =
          if reg.access.writesToBus then [(reg.offset, out.mirror reg.name)] else []
  | .fieldWrite reg _ fld _ v =>
      fieldBits fld (out.mirror reg.name) =
          ((v.value cc).toInt % 2 ^ fld.bitWidth).toNat ∧
        (∀ i < 64, ¬ (fld.bitPos ≤ i ∧ i < fld.bitPos + fld.bitWidth) →
          (out.mirror reg.name).getLsbD i = (before reg.name).getLsbD i) ∧
        (∀ name ≠ reg.name, out.mirror name = before name) ∧
        out.writes =
          if fld.access.writesToBus then [(reg.offset, out.mirror reg.name)] else []
  | .regRead _ reg _ returned =>
      Predicts reg.access reg returned before out.mirror ∧ out.writes = [] ∧
        out.result = some ((out.mirror reg.name).toNat : Int)
  | .fieldRead _ reg _ fld _ returned =>
      Predicts fld.access reg returned before out.mirror ∧ out.writes = [] ∧
        out.result = some (fieldValue fld (out.mirror reg.name))
  | .recordWrite _ addr v =>
      (match decode regs addr with
        | some reg => SetsRegister reg (v.value cc).toInt before out.mirror
        | none => out.mirror = before) ∧ out.writes = []
  | .recordRead addr =>
      out.mirror = before ∧ out.writes = [] ∧
        out.result = some (match decode regs addr with
          | some reg => ((before reg.name).toNat : Int)
          | none => 0)
  | .resetAll =>
      (∀ c ∈ cells, out.mirror c.name = c.default.getD 0) ∧
        (∀ name ∉ cells.map RecordFieldSchema.name, out.mirror name = before name) ∧
        out.writes = []

/-- Every cell is below its register's width. -/
def InWidth (regs : List RegRegisterSchema) (mirror : Mirror) : Prop :=
  ∀ reg ∈ regs, (mirror reg.name).toNat < 2 ^ reg.width

/-- The condition on an access: a field write loses nothing of the written value. -/
def AccessFits (cc : Compiler) {regs : List RegRegisterSchema} : Access regs → Prop
  | .fieldWrite _ _ fld _ v => FieldWriteFits cc fld v
  | _ => True

section Step

variable {cc : Compiler} {regs : List RegRegisterSchema} {cells : List RecordFieldSchema}
  {mirror : Mirror}

theorem setsRegister_update {reg : RegRegisterSchema} {z : Int} {word : U64}
    (h : word.toNat = (z % 2 ^ reg.width).toNat) :
    SetsRegister reg z mirror (Function.update mirror reg.name word) := by
  refine ⟨?_, fun name hname => Function.update_of_ne hname _ _⟩
  rw [Function.update_self]
  exact h

theorem predicts_readWord (cc : Compiler) (access : RegAccess) (form : ReadForm)
    {reg : RegRegisterSchema} (returned : Returned reg.width) (mirror : Mirror)
    (hle : reg.width ≤ 64) :
    Predicts access reg returned mirror (readWord cc access form reg returned mirror).2 ∧
      (readWord cc access form reg returned mirror).1 =
        (readWord cc access form reg returned mirror).2 reg.name := by
  unfold Predicts readWord
  split_ifs
  · dsimp only
    rw [Function.update_self]
    exact ⟨setsRegister_update (toNat_busReadWord hle), rfl⟩
  · exact ⟨rfl, rfl⟩

theorem resetCells_spec (mirror : Mirror) (hnodup : (cells.map RecordFieldSchema.name).Nodup) :
    (∀ c ∈ cells, resetCells cells mirror c.name = c.default.getD 0) ∧
      ∀ name ∉ cells.map RecordFieldSchema.name, resetCells cells mirror name = mirror name := by
  induction cells generalizing mirror with
  | nil => simp [resetCells]
  | cons c rest ih =>
      rw [List.map_cons, List.nodup_cons] at hnodup
      obtain ⟨hcells, hothers⟩ :=
        ih (Function.update mirror c.name (c.default.getD 0)) hnodup.2
      constructor
      · intro d hd
        rcases List.mem_cons.mp hd with rfl | hd
        · exact (hothers d.name hnodup.1).trans (Function.update_self ..)
        · exact hcells d hd
      · intro name hname
        rw [List.map_cons, List.mem_cons, not_or] at hname
        exact (hothers name hname.2).trans (Function.update_of_ne hname.1 _ _)

/-- What the accesses need of the lowered block. -/
structure WellFormed (regs : List RegRegisterSchema) (cells : List RecordFieldSchema) :
    Prop where
  valid : ∀ reg ∈ regs, reg.Valid
  nodup : (regs.map RegRegisterSchema.name).Nodup
  names : cells.map RecordFieldSchema.name = regs.map RegRegisterSchema.name
  default_lt : ∀ reg ∈ regs, ∀ c ∈ cells, c.name = reg.name →
    (c.default.getD 0).toNat < 2 ^ reg.width

theorem coherent_step (hwf : WellFormed regs cells) (hwidth : InWidth regs mirror)
    (access : Access regs) (hfits : AccessFits cc access) :
    Coherent cc cells mirror (step cc cells mirror access) access := by
  cases access with
  | regWrite reg hreg v =>
      refine ⟨setsRegister_update (toNat_regWriteWord (hwf.valid reg hreg).le), ?_⟩
      simp [step]
  | fieldWrite reg hreg fld hfld v =>
      have hvalid := hwf.valid reg hreg
      have hfield := hvalid.fields fld hfld
      have hword : ∀ i < 64, (fieldWriteWord cc (mirror reg.name) reg fld v).getLsbD i = _ :=
        fun i hi => getLsbD_fieldWriteWord hfits hvalid.le hfield (hwidth reg hreg) hi
      have hcell : (step cc cells mirror (.fieldWrite reg hreg fld hfld v)).mirror reg.name =
          fieldWriteWord cc (mirror reg.name) reg fld v :=
        Function.update_self ..
      have hle := hvalid.le
      have hinside := hfield.inside
      refine ⟨?_, ?_, fun name hname => Function.update_of_ne hname _ _, rfl⟩
      · refine fieldBits_eq_emod fun i hi => ?_
        rw [hcell, hword _ (by omega), if_pos (by omega),
          Nat.add_sub_cancel_left, CValue.bit_eq_testBit]
      · intro i hi hout
        rw [hcell, hword i hi, if_neg hout]
  | regRead form reg hreg returned =>
      obtain ⟨hpredicts, heq⟩ :=
        predicts_readWord cc reg.access form returned mirror (hwf.valid reg hreg).le
      refine ⟨hpredicts, rfl, ?_⟩
      simp only [step, heq]
  | fieldRead form reg hreg fld hfld returned =>
      have hvalid := hwf.valid reg hreg
      have hfield := hvalid.fields fld hfld
      have hle := hvalid.le
      have hinside := hfield.inside
      obtain ⟨hpredicts, heq⟩ := predicts_readWord cc fld.access form returned mirror hle
      refine ⟨hpredicts, rfl, ?_⟩
      rw [step, toInt_fieldExtractExpr hfield.pos (by omega), heq]
  | recordWrite constAddr addr v =>
      simp only [Coherent, step]
      cases hdecode : decode regs addr with
      | none => exact ⟨rfl, rfl⟩
      | some reg =>
          have hreg : reg ∈ regs := List.mem_of_find?_eq_some hdecode
          exact ⟨setsRegister_update (toNat_recordWriteWord (hwf.valid reg hreg).le), rfl⟩
  | recordRead addr =>
      simp only [Coherent, step]
      cases decode regs addr with
      | none => exact ⟨rfl, rfl, rfl⟩
      | some reg => exact ⟨rfl, rfl, rfl⟩
  | resetAll =>
      have hnodup : (cells.map RecordFieldSchema.name).Nodup := by
        rw [hwf.names]
        exact hwf.nodup
      obtain ⟨hcells, hothers⟩ := resetCells_spec mirror hnodup
      exact ⟨hcells, hothers, rfl⟩

theorem emod_toNat_lt (z : Int) (width : Nat) : (z % 2 ^ width).toNat < 2 ^ width := by
  have hpos : (0 : Int) < 2 ^ width := by positivity
  have hnonneg := Int.emod_nonneg z hpos.ne'
  have hlt := Int.emod_lt_of_pos z hpos
  have hcast : ((2 ^ width : Nat) : Int) = 2 ^ width := by push_cast; rfl
  omega

theorem eq_of_name {reg reg' : RegRegisterSchema} (hwf : WellFormed regs cells)
    (hreg : reg ∈ regs) (hreg' : reg' ∈ regs) (h : reg.name = reg'.name) : reg = reg' :=
  List.inj_on_of_nodup_map hwf.nodup hreg hreg' h

theorem InWidth.of_setsRegister {reg : RegRegisterSchema} {z : Int} {after : Mirror}
    (hwf : WellFormed regs cells) (hwidth : InWidth regs mirror) (hreg : reg ∈ regs)
    (h : SetsRegister reg z mirror after) : InWidth regs after := by
  intro reg' hreg'
  by_cases hname : reg'.name = reg.name
  · rw [eq_of_name hwf hreg' hreg hname, h.1]
    exact emod_toNat_lt z reg.width
  · rw [h.2 _ hname]
    exact hwidth reg' hreg'

theorem InWidth.of_predicts {access : RegAccess} {reg : RegRegisterSchema}
    {returned : Returned reg.width} {after : Mirror} (hwf : WellFormed regs cells)
    (hwidth : InWidth regs mirror) (hreg : reg ∈ regs)
    (h : Predicts access reg returned mirror after) : InWidth regs after := by
  unfold Predicts at h
  split_ifs at h
  · exact hwidth.of_setsRegister hwf hreg h
  · rw [h]
    exact hwidth

/-- A coherent access keeps the cells within their registers. -/
theorem InWidth.of_coherent {access : Access regs} {out : Outcome}
    (hwf : WellFormed regs cells) (hwidth : InWidth regs mirror)
    (h : Coherent cc cells mirror out access) : InWidth regs out.mirror := by
  cases access with
  | regWrite reg hreg v => exact hwidth.of_setsRegister hwf hreg h.1
  | fieldWrite reg hreg fld hfld v =>
      obtain ⟨-, hbits, hothers, -⟩ := h
      have hinside := ((hwf.valid reg hreg).fields fld hfld).inside
      intro reg' hreg'
      by_cases hname : reg'.name = reg.name
      · rw [eq_of_name hwf hreg' hreg hname, lt_iff_getLsbD]
        intro i hi h64
        rw [hbits i h64 (by omega)]
        exact lt_iff_getLsbD.mp (hwidth reg hreg) i hi h64
      · rw [hothers _ hname]
        exact hwidth reg' hreg'
  | regRead form reg hreg returned => exact hwidth.of_predicts hwf hreg h.1
  | fieldRead form reg hreg fld hfld returned => exact hwidth.of_predicts hwf hreg h.1
  | recordWrite constAddr addr v =>
      have hmirror := h.1
      cases hdecode : decode regs addr with
      | none =>
          rw [hdecode] at hmirror
          dsimp only at hmirror
          rw [hmirror]
          exact hwidth
      | some reg =>
          rw [hdecode] at hmirror
          exact hwidth.of_setsRegister hwf (List.mem_of_find?_eq_some hdecode) hmirror
  | recordRead addr =>
      rw [h.1]
      exact hwidth
  | resetAll =>
      intro reg hreg
      have hname : reg.name ∈ cells.map RecordFieldSchema.name := by
        rw [hwf.names]
        exact List.mem_map_of_mem hreg
      obtain ⟨c, hc, hcname⟩ := List.mem_map.mp hname
      rw [← hcname, h.1 c hc]
      exact hwf.default_lt reg hreg c hc hcname

end Step

section Runs

/-- An access, the mirror it found, and its outcome. -/
structure RunStep (regs : List RegRegisterSchema) where
  access : Access regs
  before : Mirror
  outcome : Outcome

def run (cc : Compiler) {regs : List RegRegisterSchema} (cells : List RecordFieldSchema) :
    List (Access regs) → Mirror → List (RunStep regs)
  | [], _ => []
  | access :: rest, mirror =>
      let outcome := step cc cells mirror access
      ⟨access, mirror, outcome⟩ :: run cc cells rest outcome.mirror

variable {cc : Compiler} {regs : List RegRegisterSchema} {cells : List RecordFieldSchema}

theorem run_coherent (hwf : WellFormed regs cells) {accesses : List (Access regs)}
    (hfits : ∀ access ∈ accesses, AccessFits cc access) {mirror : Mirror}
    (hwidth : InWidth regs mirror) {s : RunStep regs} (hs : s ∈ run cc cells accesses mirror) :
    Coherent cc cells s.before s.outcome s.access ∧ InWidth regs s.before ∧
      InWidth regs s.outcome.mirror := by
  induction accesses generalizing mirror with
  | nil => simp [run] at hs
  | cons access rest ih =>
      have hstep := coherent_step hwf hwidth access (hfits access List.mem_cons_self)
      have hafter := hwidth.of_coherent hwf hstep
      rcases List.mem_cons.mp hs with rfl | hs
      · exact ⟨hstep, hwidth, hafter⟩
      · exact ih (fun a ha => hfits a (List.mem_cons_of_mem access ha)) hafter hs

/-- The mirror after a sequence of accesses. -/
def finalMirror (cc : Compiler) (cells : List RecordFieldSchema)
    (accesses : List (Access regs)) (mirror : Mirror) : Mirror :=
  accesses.foldl (fun m access => (step cc cells m access).mirror) mirror

/-- The accesses that may change a cell. -/
def touches (name : String) : Access regs → Bool
  | .regWrite reg _ _ => reg.name = name
  | .fieldWrite reg _ _ _ _ => reg.name = name
  | .regRead _ reg _ _ => reg.access.readsFromBus && reg.name = name
  | .fieldRead _ reg _ fld _ _ => fld.access.readsFromBus && reg.name = name
  | .recordWrite _ addr _ => (decode regs addr).any fun reg => reg.name = name
  | .recordRead _ => false
  | .resetAll => true

theorem Predicts.cell_eq {access : RegAccess} {reg : RegRegisterSchema}
    {returned : Returned reg.width} {before after : Mirror} {name : String}
    (h : Predicts access reg returned before after)
    (htouch : (access.readsFromBus && reg.name = name) = false) :
    after name = before name := by
  unfold Predicts at h
  split_ifs at h with hbus
  · refine h.2 name fun heq => ?_
    simp [hbus, heq] at htouch
  · rw [h]

theorem Coherent.cell_eq {access : Access regs} {before : Mirror} {out : Outcome}
    {name : String} (h : Coherent cc cells before out access)
    (htouch : touches name access = false) : out.mirror name = before name := by
  cases access with
  | regWrite reg hreg v => exact h.1.2 name fun heq => by simp [touches, heq] at htouch
  | fieldWrite reg hreg fld hfld v =>
      exact h.2.2.1 name fun heq => by simp [touches, heq] at htouch
  | regRead form reg hreg returned => exact h.1.cell_eq htouch
  | fieldRead form reg hreg fld hfld returned => exact h.1.cell_eq htouch
  | recordWrite constAddr addr v =>
      have hmirror := h.1
      cases hdecode : decode regs addr with
      | none =>
          rw [hdecode] at hmirror
          exact congrFun hmirror name
      | some reg =>
          rw [hdecode] at hmirror
          exact hmirror.2 name fun heq => by simp [touches, hdecode, heq] at htouch
  | recordRead addr => rw [h.1]
  | resetAll => simp [touches] at htouch

theorem inWidth_finalMirror (hwf : WellFormed regs cells) {accesses : List (Access regs)}
    (hfits : ∀ access ∈ accesses, AccessFits cc access) {mirror : Mirror}
    (hwidth : InWidth regs mirror) : InWidth regs (finalMirror cc cells accesses mirror) := by
  induction accesses generalizing mirror with
  | nil => exact hwidth
  | cons access rest ih =>
      have hstep := coherent_step hwf hwidth access (hfits access List.mem_cons_self)
      exact ih (fun a ha => hfits a (List.mem_cons_of_mem access ha))
        (hwidth.of_coherent hwf hstep)

theorem finalMirror_untouched (hwf : WellFormed regs cells) {accesses : List (Access regs)}
    (hfits : ∀ access ∈ accesses, AccessFits cc access) {mirror : Mirror}
    (hwidth : InWidth regs mirror) {name : String}
    (htouch : ∀ access ∈ accesses, touches name access = false) :
    finalMirror cc cells accesses mirror name = mirror name := by
  induction accesses generalizing mirror with
  | nil => rfl
  | cons access rest ih =>
      have hstep := coherent_step hwf hwidth access (hfits access List.mem_cons_self)
      have hrest := ih (fun a ha => hfits a (List.mem_cons_of_mem access ha))
        (hwidth.of_coherent hwf hstep)
        (fun a ha => htouch a (List.mem_cons_of_mem access ha))
      exact hrest.trans (hstep.cell_eq (htouch access List.mem_cons_self))

/-- A written value as the field holds it. -/
def writtenField (fld : RegFieldSchema) (z : Int) : Int :=
  if fld.signed then Int.bmod z (2 ^ fld.bitWidth) else z % 2 ^ fld.bitWidth

theorem fieldValue_eq_writtenField {fld : RegFieldSchema} {word : U64} {z : Int}
    (h : fieldBits fld word = (z % 2 ^ fld.bitWidth).toNat) :
    fieldValue fld word = writtenField fld z := by
  have hnonneg : 0 ≤ z % 2 ^ fld.bitWidth := Int.emod_nonneg z (by positivity)
  have hcast : ((fieldBits fld word : Nat) : Int) = z % 2 ^ fld.bitWidth := by
    rw [h, Int.toNat_of_nonneg hnonneg]
  unfold fieldValue writtenField
  rw [hcast]
  split_ifs
  · have hpow : (2 : Int) ^ fld.bitWidth = ((2 ^ fld.bitWidth : Nat) : Int) := by
      push_cast
      rfl
    rw [hpow, Int.emod_bmod]
  · rfl

/-- A field read after a field write returns the written value, as long as nothing else
changes the register and a bus read returns the word of the mirror. -/
theorem fieldRead_after_fieldWrite (hwf : WellFormed regs cells) {mirror : Mirror}
    (hwidth : InWidth regs mirror) {reg : RegRegisterSchema} (hreg : reg ∈ regs)
    {fld : RegFieldSchema} (hfld : fld ∈ reg.fields) {v : Operand}
    (hwrite : FieldWriteFits cc fld v) {mid : List (Access regs)}
    (hmid : ∀ access ∈ mid, AccessFits cc access)
    (htouch : ∀ access ∈ mid, touches reg.name access = false) (form : ReadForm)
    (returned : Returned reg.width)
    (hbus : fld.access.readsFromBus = true →
      (returned.raw.value.toInt % 2 ^ reg.width).toNat =
        (finalMirror cc cells (.fieldWrite reg hreg fld hfld v :: mid) mirror reg.name).toNat) :
    (step cc cells (finalMirror cc cells (.fieldWrite reg hreg fld hfld v :: mid) mirror)
      (.fieldRead form reg hreg fld hfld returned)).result =
      some (writtenField fld (v.value cc).toInt) := by
  have hfits : AccessFits cc (Access.fieldWrite reg hreg fld hfld v) := hwrite
  have hstep := coherent_step hwf hwidth _ hfits
  have hwidth' := hwidth.of_coherent hwf hstep
  have hcell := finalMirror_untouched hwf hmid hwidth' htouch
  have hwidth'' := inWidth_finalMirror hwf hmid hwidth'
  change (_ → _ = (finalMirror cc cells mid _ reg.name).toNat) at hbus
  change (step cc cells (finalMirror cc cells mid _) _).result = _
  generalize finalMirror cc cells mid
    (step cc cells mirror (.fieldWrite reg hreg fld hfld v)).mirror = later
    at hcell hwidth'' hbus
  have hfitsRead : AccessFits cc (Access.fieldRead form reg hreg fld hfld returned) := trivial
  obtain ⟨hpredicts, -, hresult⟩ := coherent_step hwf hwidth'' _ hfitsRead
  have hsame : (step cc cells later (.fieldRead form reg hreg fld hfld returned)).mirror
      reg.name = later reg.name := by
    unfold Predicts at hpredicts
    split_ifs at hpredicts with hread
    · exact BitVec.eq_of_toNat_eq (hpredicts.1.trans (hbus hread))
    · rw [hpredicts]
  rw [hresult, hsame, hcell, fieldValue_eq_writtenField hstep.1]

theorem exists_lowered {out : List (RegRegisterSchema × RecordFieldSchema)} {block : String} {defaultWidth : Nat} {decls : List RegisterDecl}
    (h : List.Forall₂ (Lowered block defaultWidth) decls out)
    {o : RegRegisterSchema × RecordFieldSchema} (ho : o ∈ out) :
    ∃ decl, Lowered block defaultWidth decl o := by
  induction h with
  | nil => simp at ho
  | cons hfirst _ ih =>
      rcases List.mem_cons.mp ho with rfl | ho
      · exact ⟨_, hfirst⟩
      · exact ih ho

theorem wellFormed_of_lowered {r : RegblockDecl}
    {out : List (RegRegisterSchema × RecordFieldSchema)} (h : lowerRegblock r = .ok out) :
    WellFormed (out.map Prod.fst) (out.map Prod.snd) := by
  obtain ⟨hlowered, hnodup⟩ := lowerRegblock_ok h
  have hnames : (out.map Prod.fst).map RegRegisterSchema.name = out.map fun o => o.1.name := by
    rw [List.map_map]
    rfl
  refine ⟨?_, ?_, ?_, ?_⟩
  · intro reg hreg
    obtain ⟨o, ho, rfl⟩ := List.mem_map.mp hreg
    obtain ⟨decl, hdecl⟩ := exists_lowered hlowered ho
    exact hdecl.valid
  · rw [hnames]
    exact hnodup
  · rw [hnames, List.map_map]
    refine List.map_congr_left fun o ho => ?_
    obtain ⟨decl, hdecl⟩ := exists_lowered hlowered ho
    exact hdecl.name_eq
  · intro reg hreg c hc hname
    obtain ⟨o, ho, rfl⟩ := List.mem_map.mp hreg
    obtain ⟨o', ho', rfl⟩ := List.mem_map.mp hc
    obtain ⟨decl, hdecl⟩ := exists_lowered hlowered ho'
    rw [hdecl.name_eq] at hname
    rw [← List.inj_on_of_nodup_map hnodup ho' ho hname]
    exact hdecl.default_lt

theorem initialMirror_eq {r : RegblockDecl}
    {out : List (RegRegisterSchema × RecordFieldSchema)} (h : lowerRegblock r = .ok out)
    {o : RegRegisterSchema × RecordFieldSchema} (ho : o ∈ out) :
    initialMirror (out.map Prod.snd) o.1.name = o.2.default.getD 0 := by
  obtain ⟨hlowered, hnodup⟩ := lowerRegblock_ok h
  have hname : ∀ o' ∈ out, o'.2.name = o'.1.name := by
    intro o' ho'
    obtain ⟨decl, hdecl⟩ := exists_lowered hlowered ho'
    exact hdecl.name_eq
  have hfind : (out.map Prod.snd).find? (fun c => c.name = o.1.name) = some o.2 := by
    cases hfound : (out.map Prod.snd).find? fun c => c.name = o.1.name with
    | none =>
        have hnone := List.find?_eq_none.mp hfound o.2 (List.mem_map_of_mem ho)
        simp [hname o ho] at hnone
    | some c =>
        obtain ⟨o', ho', rfl⟩ := List.mem_map.mp (List.mem_of_find?_eq_some hfound)
        have heq : o'.2.name = o.1.name := by simpa using List.find?_some hfound
        rw [hname o' ho'] at heq
        rw [List.inj_on_of_nodup_map hnodup ho' ho heq]
  rw [initialMirror, hfind]

theorem inWidth_initialMirror {r : RegblockDecl}
    {out : List (RegRegisterSchema × RecordFieldSchema)} (h : lowerRegblock r = .ok out) :
    InWidth (out.map Prod.fst) (initialMirror (out.map Prod.snd)) := by
  intro reg hreg
  obtain ⟨o, ho, rfl⟩ := List.mem_map.mp hreg
  obtain ⟨decl, hdecl⟩ := exists_lowered (lowerRegblock_ok h).1 ho
  rw [initialMirror_eq h ho]
  exact hdecl.default_lt

/-- The register's reset overlaid by the resets of its fields. -/
def StartsAtResets (r : RegblockDecl) (mirror : Mirror) (decl : RegisterDecl)
    (o : RegRegisterSchema × RecordFieldSchema) : Prop :=
  ∃ reset fields, registerReset r.name decl.name o.1.width decl.reset = .ok reset ∧
    lowerFields r.name decl.name o.1.width [] decl.fields = .ok fields ∧
    ∀ i < 64, (mirror o.1.name).getLsbD i = resetBit reset fields i

theorem startsAtResets {r : RegblockDecl}
    {out : List (RegRegisterSchema × RecordFieldSchema)} (h : lowerRegblock r = .ok out) :
    List.Forall₂ (StartsAtResets r (initialMirror (out.map Prod.snd))) r.registers out := by
  have hlowered := (lowerRegblock_ok h).1
  have hinitial : ∀ o ∈ out, initialMirror (out.map Prod.snd) o.1.name = o.2.default.getD 0 :=
    fun o ho => initialMirror_eq h ho
  generalize initialMirror (out.map Prod.snd) = mirror at hinitial
  generalize r.registers = decls at hlowered
  clear h
  induction hlowered with
  | nil => exact List.Forall₂.nil
  | @cons decl o decls outs hdecl _ ih =>
      refine List.Forall₂.cons ?_ (ih fun o' ho' => hinitial o' (List.mem_cons_of_mem o ho'))
      obtain ⟨reset, fields, hreset, hfields, hbits⟩ := hdecl.resets
      refine ⟨reset, fields, hreset, hfields, fun i hi => ?_⟩
      rw [hinitial o List.mem_cons_self]
      exact hbits i hi

/-- The mirror of an accepted block is coherent over every sequence of accesses whose
field writes lose nothing in the shift to the field's place. -/
theorem mirror_coherent (cc : Compiler) (r : RegblockDecl)
    (out : List (RegRegisterSchema × RecordFieldSchema)) (hlower : lowerRegblock r = .ok out)
    (accesses : List (Access (out.map Prod.fst)))
    (hfits : ∀ access ∈ accesses, AccessFits cc access) :
    List.Forall₂ (StartsAtResets r (initialMirror (out.map Prod.snd))) r.registers out ∧
      (∀ s ∈ run cc (out.map Prod.snd) accesses (initialMirror (out.map Prod.snd)),
        Coherent cc (out.map Prod.snd) s.before s.outcome s.access ∧
          InWidth (out.map Prod.fst) s.before ∧ InWidth (out.map Prod.fst) s.outcome.mirror) ∧
      ∀ pre reg hreg fld hfld v mid form returned,
        accesses = pre ++ .fieldWrite reg hreg fld hfld v :: mid →
        (∀ access ∈ mid, touches reg.name access = false) →
        (fld.access.readsFromBus = true → (returned.raw.value.toInt % 2 ^ reg.width).toNat =
          (finalMirror cc (out.map Prod.snd) accesses (initialMirror (out.map Prod.snd))
            reg.name).toNat) →
        (step cc (out.map Prod.snd)
          (finalMirror cc (out.map Prod.snd) accesses (initialMirror (out.map Prod.snd)))
          (.fieldRead form reg hreg fld hfld returned)).result =
            some (writtenField fld (v.value cc).toInt) := by
  have hwf := wellFormed_of_lowered hlower
  have hwidth := inWidth_initialMirror hlower
  refine ⟨startsAtResets hlower, fun s hs => run_coherent hwf hfits hwidth hs, ?_⟩
  intro pre reg hreg fld hfld v mid form returned haccesses htouch hbus
  subst haccesses
  have hsplit : finalMirror cc (out.map Prod.snd) (pre ++ .fieldWrite reg hreg fld hfld v :: mid)
      (initialMirror (out.map Prod.snd)) = finalMirror cc (out.map Prod.snd)
        (.fieldWrite reg hreg fld hfld v :: mid)
        (finalMirror cc (out.map Prod.snd) pre (initialMirror (out.map Prod.snd))) :=
    List.foldl_append
  rw [hsplit] at hbus ⊢
  refine fieldRead_after_fieldWrite hwf (inWidth_finalMirror hwf ?_ hwidth) hreg hfld ?_ ?_
    htouch form returned hbus
  · exact fun access ha => hfits access (List.mem_append_left _ ha)
  · exact hfits (.fieldWrite reg hreg fld hfld v)
      (List.mem_append_right _ List.mem_cons_self)
  · exact fun access ha => hfits access
      (List.mem_append_right _ (List.mem_cons_of_mem _ ha))

end Runs

end Coherence

section Examples

def gcc : Compiler := ⟨.int128, Compiler.int128_holds⟩

/-- A 32-bit register with a nibble at bit 8. -/
def modeField : RegFieldSchema := ⟨"MODE", 8, 4, false, .rw⟩

def modeRegister : RegRegisterSchema := ⟨"CTRL", 0x10, 32, .rw, [modeField]⟩

def modeBlock : RegblockDecl where
  name := "Regs"
  defaultWidth := none
  registers := [{
    name := "CTRL"
    offset := .value 0x10
    width := none
    reset := none
    access := .rw
    fields := [⟨"MODE", .uint (some (.value 4)), 8, none, .rw⟩] }]

def modeCell : RecordFieldSchema := ⟨"CTRL", 32, none⟩

theorem lowerRegblock_modeBlock :
    lowerRegblock modeBlock = .ok [(modeRegister, modeCell)] := by
  rfl

/-- A local of type `uint<4>`. -/
def nibble (n : U64) : Operand :=
  .typed ⟨some 4, some 4, some 4, false, .ofU64 n⟩

def writeMode (v : Operand) : Access [modeRegister] :=
  .fieldWrite modeRegister List.mem_cons_self modeField List.mem_cons_self v

/-- The bus answers a read with `0x300`. -/
def busAnswer : Returned modeRegister.width :=
  ⟨⟨some 32, some 32, some 32, false, .ofU64 0x300⟩, false, nofun⟩

/-- A write of the nibble, a read of the register, and another write. -/
def modeAccesses : List (Access [modeRegister]) :=
  [writeMode (.literal 5), .regRead .letBound modeRegister List.mem_cons_self busAnswer,
    writeMode (.literal 7)]

theorem mirror_coherent_modeBlock :
    (run gcc [modeCell] modeAccesses (initialMirror [modeCell])).length = 3 ∧
      ∀ s ∈ run gcc [modeCell] modeAccesses (initialMirror [modeCell]),
        Coherent gcc [modeCell] s.before s.outcome s.access := by
  refine ⟨rfl, ?_⟩
  intro s hs
  refine ((mirror_coherent gcc modeBlock _ lowerRegblock_modeBlock modeAccesses ?_).2.1 s hs).1
  have hwrite : ∀ n, AccessFits gcc (writeMode (.literal n)) := fun n =>
    Or.inr fun w hw => absurd hw (by simp [Operand.declaredWidth])
  intro access haccess
  rcases List.mem_cons.mp haccess with rfl | haccess
  · exact hwrite 5
  rcases List.mem_cons.mp haccess with rfl | haccess
  · trivial
  rw [List.mem_singleton.mp haccess]
  exact hwrite 7

/-- The write of a `uint<4>` to the nibble at bit 8 shifts it out of its four bits. -/
theorem modeBlock_incoherent :
    ¬ ∀ s ∈ run gcc [modeCell] [writeMode (nibble 5)] (initialMirror [modeCell]),
      Coherent gcc [modeCell] s.before s.outcome s.access := by
  intro h
  have hfield := (h _ List.mem_cons_self).1
  exact absurd hfield (by decide)

end Examples

end Harc.RegblockMirror
