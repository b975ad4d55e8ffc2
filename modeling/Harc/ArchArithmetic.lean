import Harc.CarrierArithmetic

/-!
`+ - *` with the result widths of ARCH (`codegen/tbir/expr.rs`): what the emitter writes for
chains of them.  Inside a truncation to at most 64 bits only low bits are observed, and the
operands are not promoted to the carrier of the result.
-/

namespace Harc.ArchArithmetic

open Harc.TwosComplement
open Harc.WideRuntime
open Harc.WideBits
open Harc.DivisionTiers
open Harc.ShiftTiers
open Harc.FieldAccess
open Harc.CarrierArithmetic

/-! ### Texts of C++ -/

inductive Cpp where
  | value (v : Val)
  | arith (op : ArithOp) (a b : Cpp)
  | uint64 (e : Cpp)
  | int64 (e : Cpp)
  | uint128 (e : Cpp)
  | and64 (e : Cpp) (mask : U64)
  | and128 (e : Cpp) (width : Nat)
  | shl64 (e : Cpp) (count : Nat)
  | sar64 (e : Cpp) (count : Nat)
  | truncU128 (e : Cpp) (width : Nat)
  | sextU128 (e : Cpp) (sourceWidth destWidth : Nat)
  | wideMaskBits (e : Cpp) (width : Nat)
  | wideTrunc (words : Nat) (e : Cpp) (width : Nat)
  | wideZext (words : Nat) (e : Cpp) (sourceWidth : Option Nat)
  | wideSext (words : Nat) (e : Cpp) (sourceWidth destWidth : Nat)

theorem int64_width : 64 ≤ 128 := by
  omega

/-- `static_cast<int64_t>` -/
def ofI64 (v : U64) : Val := .int ⟨true, 64, int64_width, v⟩

theorem toU64_ofI64 (v : U64) : (ofI64 v).toU64 = v := by
  change BitVec.ofInt 64 v.toInt = v
  exact BitVec.ofInt_toInt

/-- The value of a text; one that does not compile, or overflows, has none. -/
def Cpp.eval : Cpp → Option Val
  | value v => some v
  | arith op a b => a.eval.bind fun x => b.eval.bind fun y => valArith op x y
  | uint64 e => e.eval.map fun x => .ofU64 x.toU64
  | int64 e => e.eval.map fun x => ofI64 x.toU64
  | uint128 e => e.eval.map fun x => .ofU128 (toU128 x)
  | and64 e mask => e.eval.map fun x => .ofU64 (x.toU64 &&& mask)
  | and128 e width => e.eval.map fun x => .ofU128 (toU128 x &&& maskU128 width)
  | shl64 e count => e.eval.bind fun x => (hostShl x.toU64 count).map .ofU64
  | sar64 e count => e.eval.bind fun x => (hostSar x.toU64 count).map ofI64
  | truncU128 e width => e.eval.map fun x => .ofU128 (toU128 x &&& maskU128 width)
  | sextU128 e sourceWidth destWidth =>
      e.eval.map fun x => .ofU128 (CarrierArithmetic.sextU128 (toU128 x) sourceWidth destWidth)
  | wideMaskBits e width => e.eval.bind (valMaskBits width)
  | wideTrunc words e width => e.eval.map (valTrunc words width)
  | wideZext words e sourceWidth => e.eval.map (valZext words sourceWidth)
  | wideSext words e sourceWidth destWidth => e.eval.bind (valSext words sourceWidth destWidth)

/-! ### Expressions and their widths -/

/-- An expression other than `+ - *`, with what the emitter reads of it.  Its own text is
the same in both modes; the widths that look through it at a `+ - *` are not. -/
structure Operand where
  value : Val
  archWidth : Option (Nat × Bool)
  staticWidth : Bool → Option Nat
  shiftWidth : Bool → Option Nat
  binaryWidth : Bool → Option Nat
  signed : Bool
  /-- a literal without a type -/
  untyped : Bool
  /-- a logical `not` -/
  logicalNot : Bool

inductive Expr where
  | operand (o : Operand)
  | arith (op : ArithOp) (a b : Expr)

/-- The arm of `arch_operand_width` for an operator. -/
def resultWidth (op : ArithOp) (a b : Nat) : Nat :=
  match op with
  | .add | .sub => max a b + 1
  | .mul => a + b

def archOperandWidth : Expr → Option (Nat × Bool)
  | .operand o => o.archWidth
  | .arith op a b => do
      let (aw, al) ← archOperandWidth a
      let (bw, bl) ← archOperandWidth b
      some (resultWidth op aw bw, al && bl)

def isSigned : Expr → Bool
  | .operand o => o.signed
  | .arith _ a b => isSigned a && isSigned b

def carrierTier (width : Nat) : Nat :=
  if width ≤ 64 then 0 else if width ≤ 128 then 1 else 2

def divCeil (width : Nat) : Nat := (width + 31) / 32

def needsResultCarrier (width operandWidth : Nat) (signed : Bool) : Bool :=
  decide (carrierTier operandWidth < carrierTier width) ||
    (decide (128 < width) && decide (divCeil operandWidth < divCeil width)) ||
    (signed && decide (64 < operandWidth))

/-- The maximum of two widths, where one may be unknown. -/
def maxWidth : Option Nat → Option Nat → Option Nat
  | some a, some b => some (max a b)
  | some a, none => some a
  | none, b => b

def archCrossingWidth (low : Bool) : Expr → Option Nat
  | .operand _ => none
  | .arith op a b =>
      if low then none
      else do
        let (aw, al) ← archOperandWidth a
        let (bw, bl) ← archOperandWidth b
        let (width, _) ← archOperandWidth (.arith op a b)
        let signed := (al || isSigned a) && (bl || isSigned b)
        if !(al && bl) && needsResultCarrier width (max aw bw) signed then some width else none

def exprStaticWidth (low : Bool) : Expr → Option Nat
  | .operand o => o.staticWidth low
  | .arith op a b =>
      (archCrossingWidth low (.arith op a b)).or
        (maxWidth (exprStaticWidth low a) (exprStaticWidth low b))

def exprShiftWidth (low : Bool) : Expr → Option Nat
  | .operand o => o.shiftWidth low
  | .arith _ a b => maxWidth (exprShiftWidth low a) (exprShiftWidth low b)

def exprBinaryOperandWidth (low : Bool) : Expr → Option Nat
  | .operand o => o.binaryWidth low
  | .arith op a b =>
      (archCrossingWidth low (.arith op a b)).or
        (maxWidth (exprStaticWidth low (.arith op a b)) (exprShiftWidth low (.arith op a b)))

/-! ### Coercions of operands -/

/-- What is written around the text of an operand. -/
inductive Coercion where
  | keep
  | zext (target : Nat) (sourceWidth : Option Nat)
  | sext (sourceWidth target : Nat)
  | maskBits (target : Nat)
  | low128 (target : Nat)
  | sext128 (sourceWidth target : Nat)
deriving DecidableEq

def Coercion.cpp : Coercion → Cpp → Cpp
  | keep, e => e
  | zext target sourceWidth, e => .wideZext (divCeil target) e sourceWidth
  | sext sourceWidth target, e => .wideSext (divCeil target) e sourceWidth target
  | maskBits target, e => .wideMaskBits e target
  | low128 target, e => .and128 e target
  | sext128 sourceWidth target, e => .sextU128 (.uint128 e) sourceWidth target

def wideOperandCpp (sourceWidth : Option Nat) (sourceSigned : Bool) (targetWidth : Nat) :
    Coercion :=
  match sourceWidth with
  | some width =>
      if width = targetWidth then .keep
      else if sourceSigned then .sext width targetWidth
      else .zext targetWidth (some width)
  | none => if sourceSigned then .sext 64 targetWidth else .zext targetWidth none

def unsignedWideOperandCpp (sourceWidth : Option Nat) (targetWidth : Nat) : Coercion :=
  if 128 < targetWidth then
    match sourceWidth with
    | some w => if w = targetWidth then .maskBits targetWidth else .zext targetWidth (some w)
    | none => .zext targetWidth none
  else .low128 targetWidth

def signedWideOperandCpp (sourceWidth : Option Nat) (targetWidth : Nat) : Coercion :=
  match sourceWidth with
  | some w =>
      if w = targetWidth then
        if 128 < targetWidth then .maskBits targetWidth else .low128 targetWidth
      else if 128 < targetWidth then .sext w targetWidth
      else .sext128 w targetWidth
  | none => if 128 < targetWidth then .sext 64 targetWidth else .sext128 64 targetWidth

def wideOperandToWidth (e : Expr) (sourceWidth : Option Nat) (targetWidth : Nat) : Coercion :=
  let signed := match e with
    | .operand o => if o.untyped || o.logicalNot then false else isSigned e
    | _ => isSigned e
  if signed then signedWideOperandCpp sourceWidth targetWidth
  else unsignedWideOperandCpp sourceWidth targetWidth

def coerceUnsignedWidePair (low : Bool) (lhs rhs : Expr) : Coercion × Coercion :=
  let lhsWidth := exprBinaryOperandWidth low lhs
  let rhsWidth := exprBinaryOperandWidth low rhs
  match maxWidth lhsWidth rhsWidth with
  | none => (.keep, .keep)
  | some targetWidth =>
      if 128 < targetWidth then
        let targetIsUnsigned :=
          (decide (lhsWidth = some targetWidth) && !isSigned lhs) ||
            (decide (rhsWidth = some targetWidth) && !isSigned rhs)
        if !targetIsUnsigned then (.keep, .keep)
        else
          let needsSignedExtension := fun e : Expr => isSigned e && match e with
            | .operand o => !o.untyped
            | _ => true
          (wideOperandCpp lhsWidth (needsSignedExtension lhs) targetWidth,
            wideOperandCpp rhsWidth (needsSignedExtension rhs) targetWidth)
      else (.keep, .keep)

def coerceSignedWidePair (low : Bool) (lhs rhs : Expr) : Coercion × Coercion :=
  let lhsWidth := exprBinaryOperandWidth low lhs
  let rhsWidth := exprBinaryOperandWidth low rhs
  match maxWidth lhsWidth rhsWidth with
  | none => (.keep, .keep)
  | some targetWidth =>
      if 64 < targetWidth then
        (wideOperandToWidth lhs lhsWidth targetWidth, wideOperandToWidth rhs rhsWidth targetWidth)
      else (.keep, .keep)

/-! ### Texts of the operators -/

/-- What is written for an operator and its operands. -/
inductive Emission where
  | plain (lhs rhs : Coercion)
  | reduced (width : Nat)
  | carried (lhs rhs : Coercion) (signed : Bool) (width : Nat)
deriving DecidableEq

def Emission.cpp (op : ArithOp) (a b : Cpp) : Emission → Cpp
  | plain lhs rhs => .arith op (lhs.cpp a) (rhs.cpp b)
  | reduced width => .uint64 (.and64 (.arith .sub a b) (BitVec.ofNat 64 (2 ^ width - 1)))
  | carried lhs rhs signed width =>
      let raw := .arith op (lhs.cpp a) (rhs.cpp b)
      if signed then raw
      else if 128 < width then .wideMaskBits raw width
      else .truncU128 raw width

def archArithmeticCpp (low : Bool) (op : ArithOp) (a b : Expr) : Option Emission :=
  if low then none
  else do
    let (aw, al) ← archOperandWidth a
    let (bw, bl) ← archOperandWidth b
    if al && bl then none
    else
      let width := resultWidth op aw bw
      let signed := (al || isSigned a) && (bl || isSigned b)
      let crosses := needsResultCarrier width (max aw bw) signed
      let reduce := decide (op = .sub) && !signed && decide (width < 64)
      if !crosses && !reduce then none
      else if !crosses then some (.reduced width)
      else
        some (.carried (wideOperandToWidth a (some aw) width) (wideOperandToWidth b (some bw) width)
          signed width)

/-- The coercions of the operands where the result width does not matter.  The unsigned
pair leaves two signed operands as they are. -/
def ordinaryCoercions (low : Bool) (a b : Expr) : Coercion × Coercion :=
  let signedWideArithmetic := isSigned a && isSigned b &&
    match maxWidth (exprBinaryOperandWidth low a) (exprBinaryOperandWidth low b) with
    | some width => decide (64 < width)
    | none => false
  if signedWideArithmetic then coerceSignedWidePair low a b else coerceUnsignedWidePair low a b

def emission (low : Bool) (op : ArithOp) (a b : Expr) : Emission :=
  (archArithmeticCpp low op a b).getD
    (.plain (ordinaryCoercions low a b).1 (ordinaryCoercions low a b).2)

/-- The text of an expression.  `low` is `LOW_BITS_ONLY`, which `+ - *` inherit and every
other expression resets. -/
def exprCpp (low : Bool) : Expr → Cpp
  | .operand o => .value o.value
  | .arith op a b => (emission low op a b).cpp op (exprCpp low a) (exprCpp low b)

/-! ### Low bits of one operator -/

namespace Coercion

def apply : Coercion → Val → Option Val
  | keep, x => some x
  | zext target sourceWidth, x => some (valZext (divCeil target) sourceWidth x)
  | sext sourceWidth target, x => valSext (divCeil target) sourceWidth target x
  | maskBits target, x => valMaskBits target x
  | low128 target, x => some (.ofU128 (toU128 x &&& maskU128 target))
  | sext128 sourceWidth target, x =>
      some (.ofU128 (CarrierArithmetic.sextU128 (toU128 x) sourceWidth target))

theorem eval_cpp (c : Coercion) (e : Cpp) : (c.cpp e).eval = e.eval.bind c.apply := by
  cases c with
  | keep => exact (Option.bind_fun_some e.eval).symm
  | zext target sourceWidth => exact Option.map_eq_bind
  | sext sourceWidth target => rfl
  | maskBits target => rfl
  | low128 target => exact Option.map_eq_bind
  | sext128 sourceWidth target =>
      change (e.eval.map fun x => Val.ofU128 (toU128 x)).map _ = _
      rw [Option.map_map, Option.map_eq_bind]
      refine congrArg e.eval.bind (funext fun x => ?_)
      change some (Val.ofU128 _) = _
      rw [toU128_ofU128]
      rfl

/-- What the emitter's choice of a coercion says about its widths. -/
def Formed : Coercion → Prop
  | keep => True
  | zext target sourceWidth => 128 < target ∧ ∀ w, sourceWidth = some w → w ≤ target
  | sext sourceWidth target => 128 < target ∧ sourceWidth ≤ target
  | maskBits target => 128 < target
  | low128 target => 64 < target
  | sext128 _ target => 64 < target ∧ target ≤ 128

/-- The coerced value is a wide integer. -/
def Wide : Coercion → Prop
  | zext _ _ | sext _ _ | maskBits _ => True
  | _ => False

/-- The low `W` bits of the operand are those of the coerced operand. -/
def Keeps (W : Nat) (x : Val) : Coercion → Prop
  | keep => True
  | zext target sourceWidth => 32 * divCeil target < 2 ^ 32 ∧
      match sourceWidth with
      | some w => W ≤ w ∧ ZeroExtends W x ∨ 0 ≤ x.toInt ∧ x.toInt < 2 ^ w
      | none => ZeroExtends W x
  | sext sourceWidth target => 32 * divCeil target < 2 ^ 32 ∧ 0 < sourceWidth ∧
      FitsWords (divCeil target) x ∧ (W ≤ sourceWidth ∨ InRange (sourceWidth - 1) x.toInt)
  | maskBits _ => ∃ (M : Nat) (v : HarcWide M), 32 * M < 2 ^ 32 ∧ x = .wide v
  | low128 _ => True
  | sext128 sourceWidth _ =>
      0 < sourceWidth ∧ (W ≤ sourceWidth ∨ InRange (sourceWidth - 1) x.toInt)

theorem le_divCeil (width : Nat) : width ≤ 32 * divCeil width := by
  unfold divCeil
  omega

theorem apply_spec {W : Nat} (hW : W ≤ 64) {c : Coercion} (hc : c.Formed) {x : Val}
    (h : c.Keeps W x) : ∃ x', c.apply x = some x' ∧ x'.toInt ≡ x.toInt [ZMOD 2 ^ W] := by
  cases c with
  | keep => exact ⟨x, rfl, Int.ModEq.refl _⟩
  | zext target sourceWidth =>
      obtain ⟨htarget, hsource⟩ := hc
      obtain ⟨hwords, hbits⟩ := h
      refine ⟨_, rfl, ?_⟩
      have hfits := le_divCeil target
      cases sourceWidth with
      | none =>
          rw [toInt_valZext_none]
          exact (emod_modEq (by omega) _).trans ((unsignedBits_emod_iff W x).mpr hbits)
      | some w =>
          have hw := hsource w rfl
          rw [toInt_valZext hwords (by omega)]
          rcases hbits with ⟨hwidth, hzero⟩ | ⟨hlow, hhigh⟩
          · exact (emod_modEq hwidth _).trans ((unsignedBits_emod_iff W x).mpr hzero)
          · rw [unsignedBits_of_nonneg hlow, Int.emod_eq_of_lt hlow hhigh]
  | sext sourceWidth target =>
      obtain ⟨htarget, hsource⟩ := hc
      obtain ⟨hwords, hpos, hx, hbits⟩ := h
      have hfits := le_divCeil target
      have hdest : 0 < target := by omega
      obtain ⟨r, hr, hvalue⟩ := valSext_spec hwords hpos hdest (by omega) hfits hx
      refine ⟨r, hr, ?_⟩
      rw [hvalue]
      exact (emod_modEq (by omega) _).trans (signedLow_keeps hpos hbits)
  | maskBits target =>
      obtain ⟨M, v, hM, rfl⟩ := h
      have htarget : 128 < target := hc
      refine ⟨_, rfl, ?_⟩
      rw [toInt_wideMaskBits hM]
      exact emod_modEq (by omega) _
  | low128 target =>
      have htarget : 64 < target := hc
      refine ⟨_, rfl, ?_⟩
      rw [toInt_ofU128, natCast_maskedU128]
      exact (emod_modEq (by omega) _).trans (emod_modEq (by omega) _)
  | sext128 sourceWidth target =>
      obtain ⟨htarget, hsmall⟩ := hc
      obtain ⟨hpos, hbits⟩ := h
      refine ⟨_, rfl, ?_⟩
      rw [toInt_ofU128, toNat_sextU128 hpos (by omega) hsmall, toNat_toU128]
      refine (emod_modEq (by omega) _).trans ?_
      rcases Nat.lt_or_ge 128 sourceWidth with hlarge | hfits
      · exact ((signedLow_modEq sourceWidth _).of_dvd (pow_dvd_pow 2 (by omega))).trans
          (emod_modEq (by omega) _)
      · rw [signedLow_emod hfits]
        exact signedLow_keeps hpos hbits

theorem exists_wide_of_apply {c : Coercion} (hc : c.Wide) {x x' : Val} (h : c.apply x = some x') :
    ∃ (M : Nat) (v : HarcWide M), x' = .wide v := by
  cases c with
  | keep | low128 | sext128 => exact absurd hc id
  | zext target sourceWidth =>
      obtain rfl := Option.some.inj h
      rcases x with x | x <;> exact ⟨_, _, rfl⟩
  | sext sourceWidth target =>
      rcases x with x | x
      · obtain rfl := Option.some.inj h
        exact ⟨_, _, rfl⟩
      · simp only [apply, valSext] at h
        split_ifs at h
        obtain rfl := Option.some.inj h
        exact ⟨_, _, rfl⟩
  | maskBits target =>
      rcases x with x | x
      · exact absurd h (by simp [apply, valMaskBits])
      · obtain rfl := Option.some.inj h
        exact ⟨_, _, rfl⟩

end Coercion

theorem le_of_maxWidth {lhs rhs : Option Nat} {width : Nat} (h : maxWidth lhs rhs = some width) :
    (∀ w, lhs = some w → w ≤ width) ∧ ∀ w, rhs = some w → w ≤ width := by
  rcases lhs with _ | a <;> rcases rhs with _ | b <;>
    simp only [maxWidth, Option.some.injEq, reduceCtorEq] at h
  · subst h
    refine ⟨?_, ?_⟩ <;> rintro w ⟨⟩
    exact Nat.le_refl _
  · subst h
    refine ⟨?_, ?_⟩ <;> rintro w ⟨⟩
    exact Nat.le_refl _
  · subst h
    refine ⟨?_, ?_⟩ <;> rintro w ⟨⟩
    · exact Nat.le_max_left a b
    · exact Nat.le_max_right a b

theorem formed_wideOperandCpp {sourceWidth : Option Nat} {signed : Bool} {target : Nat}
    (htarget : 128 < target) (h : ∀ w, sourceWidth = some w → w ≤ target) :
    (wideOperandCpp sourceWidth signed target).Formed := by
  unfold wideOperandCpp
  rcases sourceWidth with _ | w
  · cases signed with
    | false => exact ⟨htarget, h⟩
    | true => exact ⟨htarget, by omega⟩
  · have hw := h w rfl
    simp only
    split_ifs
    · trivial
    · exact ⟨htarget, hw⟩
    · exact ⟨htarget, h⟩

theorem formed_wideOperandToWidth (e : Expr) {sourceWidth : Option Nat} {target : Nat}
    (htarget : 64 < target) (h : ∀ w, sourceWidth = some w → w ≤ target) :
    (wideOperandToWidth e sourceWidth target).Formed ∧
      (128 < target → (wideOperandToWidth e sourceWidth target).Wide) := by
  have hsigned : (signedWideOperandCpp sourceWidth target).Formed ∧
      (128 < target → (signedWideOperandCpp sourceWidth target).Wide) := by
    unfold signedWideOperandCpp
    rcases sourceWidth with _ | w
    · simp only
      split_ifs with hbig
      · exact ⟨⟨hbig, by omega⟩, fun _ => trivial⟩
      · exact ⟨⟨htarget, by omega⟩, fun hlt => absurd hlt hbig⟩
    · have hw := h w rfl
      simp only
      split_ifs with hsame hbig hbig
      · exact ⟨hbig, fun _ => trivial⟩
      · exact ⟨htarget, fun hlt => absurd hlt hbig⟩
      · exact ⟨⟨hbig, hw⟩, fun _ => trivial⟩
      · exact ⟨⟨htarget, by omega⟩, fun hlt => absurd hlt hbig⟩
  have hunsigned : (unsignedWideOperandCpp sourceWidth target).Formed ∧
      (128 < target → (unsignedWideOperandCpp sourceWidth target).Wide) := by
    unfold unsignedWideOperandCpp
    rcases sourceWidth with _ | w
    · split_ifs with hbig
      · exact ⟨⟨hbig, h⟩, fun _ => trivial⟩
      · exact ⟨htarget, fun hlt => absurd hlt hbig⟩
    · split_ifs with hbig
      · simp only
        split_ifs
        · exact ⟨hbig, fun _ => trivial⟩
        · exact ⟨⟨hbig, h⟩, fun _ => trivial⟩
      · exact ⟨htarget, fun hlt => absurd hlt hbig⟩
  simp only [wideOperandToWidth]
  split_ifs <;> assumption

theorem formed_ordinaryCoercions (low : Bool) (a b : Expr) :
    (ordinaryCoercions low a b).1.Formed ∧ (ordinaryCoercions low a b).2.Formed := by
  have hkeep : Coercion.keep.Formed ∧ Coercion.keep.Formed := ⟨trivial, trivial⟩
  simp only [ordinaryCoercions]
  cases hmax : maxWidth (exprBinaryOperandWidth low a) (exprBinaryOperandWidth low b) with
  | none => simpa [coerceUnsignedWidePair, hmax] using hkeep
  | some width =>
      obtain ⟨ha, hb⟩ := le_of_maxWidth hmax
      split_ifs
      · simp only [coerceSignedWidePair, hmax]
        split_ifs with hwide
        · exact ⟨(formed_wideOperandToWidth a hwide ha).1,
            (formed_wideOperandToWidth b hwide hb).1⟩
        · exact hkeep
      · simp only [coerceUnsignedWidePair, hmax]
        split_ifs with hwide
        · exact hkeep
        · exact ⟨formed_wideOperandCpp hwide ha, formed_wideOperandCpp hwide hb⟩
        · exact hkeep

namespace Emission

def Formed (op : ArithOp) : Emission → Prop
  | plain lhs rhs => lhs.Formed ∧ rhs.Formed
  | reduced width => op = .sub ∧ width < 64
  | carried lhs rhs _ width =>
      64 < width ∧ lhs.Formed ∧ rhs.Formed ∧ (128 < width → lhs.Wide ∧ rhs.Wide)

end Emission

theorem lt_of_needsResultCarrier {width operandWidth : Nat} {signed : Bool}
    (hle : operandWidth ≤ width) (h : needsResultCarrier width operandWidth signed = true) :
    64 < width := by
  simp only [needsResultCarrier, Bool.or_eq_true, Bool.and_eq_true, decide_eq_true_eq] at h
  rcases h with (htier | hwords) | hsigned
  · rcases Nat.lt_or_ge 64 width with hlt | hsmall
    · exact hlt
    · rw [carrierTier, carrierTier, if_pos hsmall, if_pos (by omega)] at htier
      omega
  · omega
  · omega

theorem le_resultWidth (op : ArithOp) (a b : Nat) :
    a ≤ resultWidth op a b ∧ b ≤ resultWidth op a b := by
  cases op <;> simp only [resultWidth] <;> omega

theorem formed_emission (low : Bool) (op : ArithOp) (a b : Expr) :
    (emission low op a b).Formed op := by
  have hplain := formed_ordinaryCoercions low a b
  unfold emission
  cases harch : archArithmeticCpp low op a b with
  | none => exact hplain
  | some em =>
      rw [Option.getD_some]
      simp only [archArithmeticCpp] at harch
      split_ifs at harch with hlow
      cases ha : archOperandWidth a with
      | none => simp [ha] at harch
      | some aw =>
          cases hb : archOperandWidth b with
          | none => simp [ha, hb] at harch
          | some bw =>
              obtain ⟨hleft, hright⟩ := le_resultWidth op aw.1 bw.1
              simp only [ha, hb, Option.bind_eq_bind, Option.bind_some] at harch
              split_ifs at harch with hlit hnone hreduced
              · obtain rfl := Option.some.inj harch
                simp only [Bool.and_eq_true, Bool.not_eq_true', not_and, Bool.not_eq_false,
                  decide_eq_true_eq] at hnone hreduced
                exact ⟨(hnone hreduced).1.1, (hnone hreduced).2⟩
              · obtain rfl := Option.some.inj harch
                rw [Bool.not_eq_true', Bool.not_eq_false] at hreduced
                have hwidth := lt_of_needsResultCarrier (max_le hleft hright) hreduced
                have ha' : ∀ w, some aw.1 = some w → w ≤ resultWidth op aw.1 bw.1 := by
                  rintro w ⟨⟩
                  exact hleft
                have hb' : ∀ w, some bw.1 = some w → w ≤ resultWidth op aw.1 bw.1 := by
                  rintro w ⟨⟩
                  exact hright
                have hlhs := formed_wideOperandToWidth a hwidth ha'
                have hrhs := formed_wideOperandToWidth b hwidth hb'
                exact ⟨hwidth, hlhs.1, hrhs.1, fun hbig => ⟨hlhs.2 hbig, hrhs.2 hbig⟩⟩

namespace Emission

/-- The coercions of the operands. -/
def lhs : Emission → Coercion
  | plain lhs _ => lhs
  | reduced _ => .keep
  | carried lhs _ _ _ => lhs

def rhs : Emission → Coercion
  | plain _ rhs => rhs
  | reduced _ => .keep
  | carried _ rhs _ _ => rhs

/-- The operator on the coerced operands, and what is written around it. -/
def apply (op : ArithOp) (x y : Val) : Emission → Option Val
  | plain _ _ => valArith op x y
  | reduced width => (valArith .sub x y).map fun z =>
      .ofU64 (Val.ofU64 (z.toU64 &&& BitVec.ofNat 64 (2 ^ width - 1))).toU64
  | carried _ _ signed width => (valArith op x y).bind fun z =>
      if signed then some z
      else if 128 < width then valMaskBits width z
      else some (.ofU128 (toU128 z &&& maskU128 width))

theorem eval_cpp (em : Emission) (op : ArithOp) (a b : Cpp) :
    (em.cpp op a b).eval =
      (em.lhs.cpp a).eval.bind fun x => (em.rhs.cpp b).eval.bind fun y => em.apply op x y := by
  cases em with
  | plain lhs rhs => rfl
  | reduced width =>
      simp only [cpp, lhs, rhs, Coercion.cpp, Cpp.eval, apply, Option.map_eq_bind,
        Option.bind_assoc]
      rfl
  | carried lhs rhs signed width =>
      simp only [cpp, apply]
      split_ifs with hsigned hbig
      · simp only [Option.bind_fun_some]
        rfl
      · simp only [Cpp.eval, Option.bind_assoc]
        rfl
      · simp only [Cpp.eval, Option.map_eq_bind, Option.bind_assoc]
        rfl

/-- The integers' result, reduced where the emitter reduces it. -/
def reading (op : ArithOp) (x y : Int) : Emission → Int
  | reduced width => op.apply x y % 2 ^ width
  | _ => op.apply x y

theorem reading_congr {W : Nat} (em : Emission) (op : ArithOp) {x x' y y' : Int}
    (hx : x ≡ x' [ZMOD 2 ^ W]) (hy : y ≡ y' [ZMOD 2 ^ W]) :
    em.reading op x y ≡ em.reading op x' y' [ZMOD 2 ^ W] := by
  have hop := op.apply_congr hx hy
  cases em with
  | plain lhs rhs => exact hop
  | carried lhs rhs signed width => exact hop
  | reduced width =>
      change op.apply x y % 2 ^ width ≡ op.apply x' y' % 2 ^ width [ZMOD 2 ^ W]
      rcases Nat.le_total W width with hle | hge
      · exact ((emod_modEq hle _).trans hop).trans (emod_modEq hle _).symm
      · rw [show op.apply x y % 2 ^ width = op.apply x' y' % 2 ^ width from
          hop.of_dvd (pow_dvd_pow 2 hge)]

theorem formed_coercions {op : ArithOp} {em : Emission} (hem : em.Formed op) :
    em.lhs.Formed ∧ em.rhs.Formed := by
  cases em with
  | plain lhs rhs => exact hem
  | reduced width => exact ⟨trivial, trivial⟩
  | carried lhs rhs signed width => exact ⟨hem.2.1, hem.2.2.1⟩

/-- An operator that keeps the low bits keeps those of the reading of its coerced operands. -/
theorem apply_spec {W : Nat} (hW : W ≤ 64) {op : ArithOp} {em : Emission} (hem : em.Formed op)
    {a b x y : Val} (hx : em.lhs.apply a = some x) (hy : em.rhs.apply b = some y)
    (h : ValKeeps W op x y) :
    ∃ z, em.apply op x y = some z ∧ z.toInt ≡ em.reading op x.toInt y.toInt [ZMOD 2 ^ W] := by
  cases em with
  | plain lhs rhs => exact valArith_spec h
  | reduced width =>
      obtain ⟨rfl, hwidth⟩ := hem
      obtain ⟨z, hz, hmod⟩ := valArith_spec h
      refine ⟨_, by rw [apply, hz, Option.map_some], ?_⟩
      rw [toU64_ofU64, toInt_and_low hwidth]
      change z.toInt % 2 ^ width ≡ ArithOp.sub.apply x.toInt y.toInt % 2 ^ width [ZMOD 2 ^ W]
      rcases Nat.le_total W width with hle | hge
      · exact ((emod_modEq hle _).trans hmod).trans (emod_modEq hle _).symm
      · rw [show z.toInt % 2 ^ width = ArithOp.sub.apply x.toInt y.toInt % 2 ^ width from
          hmod.of_dvd (pow_dvd_pow 2 hge)]
  | carried lhs rhs signed width =>
      obtain ⟨hwidth, -, -, hwide⟩ := hem
      obtain ⟨z, hz, hmod⟩ := valArith_spec h
      rw [apply, hz, Option.bind_some]
      split_ifs with hsigned hbig
      · exact ⟨z, rfl, hmod⟩
      · obtain ⟨hlhsWide, hrhsWide⟩ := hwide hbig
        obtain ⟨M, u, rfl⟩ := Coercion.exists_wide_of_apply hlhsWide hx
        obtain ⟨M', v, rfl⟩ := Coercion.exists_wide_of_apply hrhsWide hy
        obtain ⟨hsame, -, hM⟩ := h
        subst hsame
        rw [valArith, dif_pos rfl] at hz
        obtain rfl := Option.some.inj hz
        refine ⟨_, rfl, ?_⟩
        rw [toInt_wideMaskBits hM]
        exact (emod_modEq (by omega) _).trans hmod
      · refine ⟨_, rfl, ?_⟩
        rw [toInt_ofU128, natCast_maskedU128]
        have hlow := (emod_modEq (show W ≤ width by omega) (z.toInt % 2 ^ 128)).trans
          (emod_modEq (show W ≤ 128 by omega) z.toInt)
        exact hlow.trans hmod

end Emission

/-! ### Low bits of a chain -/

/-- No text of the chain depends on the mode. -/
def alike : Expr → Bool
  | .operand _ => true
  | .arith op a b => decide (emission true op a b = emission false op a b) && alike a && alike b

/-- The number of a text. -/
def textValue (e : Cpp) : Int := (e.eval.map Val.toInt).getD 0

/-- The integers' value of a chain, with the reductions of a mode.  A chain that has the
same text in both modes counts as one operand, and below an operator it counts as the number
that its coercion outside a truncation makes of it. -/
def reading (low : Bool) : Expr → Int
  | .operand o => o.value.toInt
  | .arith op a b =>
      if alike (.arith op a b) then textValue (exprCpp false (.arith op a b))
      else (emission low op a b).reading op
        (if alike a then textValue ((emission false op a b).lhs.cpp (exprCpp false a))
          else reading low a)
        (if alike b then textValue ((emission false op a b).rhs.cpp (exprCpp false b))
          else reading low b)

/-- The coercions of the two modes leave the same low `W` bits of the operand. -/
def Agree (W : Nat) (e : Expr) (coercion : Bool → Coercion) : Prop :=
  ∀ v, (exprCpp false e).eval = some v → ∃ x y, (coercion true).apply v = some x ∧
    (coercion false).apply v = some y ∧ x.toInt ≡ y.toInt [ZMOD 2 ^ W]

/-- The coercion of each mode keeps the low `W` bits of the operand. -/
def Kept (W : Nat) (e : Expr) (coercion : Bool → Coercion) : Prop :=
  ∀ low v, (exprCpp low e).eval = some v → (coercion low).Keeps W v

/-- Apart from the reductions, the operators of the chain keep the low `W` bits of the
integers' results in both modes.  A coercion may lose low bits of an operand that has the
same text in both modes, where the other mode loses them too. -/
def Sound (W : Nat) : Expr → Prop
  | .operand _ => True
  | .arith op a b => alike (.arith op a b) = true ∨
      (alike a = true ∧ Agree W a (fun low => (emission low op a b).lhs) ∨
        Sound W a ∧ Kept W a fun low => (emission low op a b).lhs) ∧
      (alike b = true ∧ Agree W b (fun low => (emission low op a b).rhs) ∨
        Sound W b ∧ Kept W b fun low => (emission low op a b).rhs) ∧
      ∀ low x y, ((emission low op a b).lhs.cpp (exprCpp low a)).eval = some x →
        ((emission low op a b).rhs.cpp (exprCpp low b)).eval = some y → ValKeeps W op x y

theorem exprCpp_of_alike {e : Expr} (h : alike e = true) (low : Bool) :
    exprCpp low e = exprCpp false e := by
  cases low with
  | false => rfl
  | true =>
      induction e with
      | operand o => rfl
      | arith op a b iha ihb =>
          simp only [alike, Bool.and_eq_true, decide_eq_true_eq] at h
          obtain ⟨⟨hem, ha⟩, hb⟩ := h
          rw [exprCpp, exprCpp, hem, iha ha, ihb hb]

theorem Kept.agree {W : Nat} (hW : W ≤ 64) {e : Expr} (he : alike e = true)
    {coercion : Bool → Coercion} (hc : ∀ low, (coercion low).Formed) (h : Kept W e coercion) :
    Agree W e coercion := by
  intro v hv
  have hlow : (exprCpp true e).eval = some v := by rw [exprCpp_of_alike he, hv]
  obtain ⟨x, hx, hxmod⟩ := Coercion.apply_spec hW (hc true) (h true v hlow)
  obtain ⟨y, hy, hymod⟩ := Coercion.apply_spec hW (hc false) (h false v hv)
  exact ⟨x, y, hx, hy, hxmod.trans hymod.symm⟩

/-- The values of a coerced operand in both modes. -/
theorem eval_coerced {W : Nat} (hW : W ≤ 64) {e : Expr} {coercion : Bool → Coercion}
    (hc : ∀ low, (coercion low).Formed)
    (h : alike e = true ∧ Agree W e coercion ∨ Sound W e ∧ Kept W e coercion)
    (ih : Sound W e → ∀ low, ∃ u, (exprCpp low e).eval = some u ∧
      u.toInt ≡ reading low e [ZMOD 2 ^ W])
    {v : Val} (hv : (exprCpp false e).eval = some v) (low : Bool) :
    ∃ u x, (exprCpp low e).eval = some u ∧ (coercion low).apply u = some x ∧
      x.toInt ≡ if alike e then textValue ((coercion false).cpp (exprCpp false e))
        else reading low e [ZMOD 2 ^ W] := by
  by_cases halike : alike e = true
  · have hagree : Agree W e coercion := by
      rcases h with ⟨-, hagree⟩ | ⟨-, hkept⟩
      · exact hagree
      · exact hkept.agree hW halike hc
    obtain ⟨x, y, hx, hy, hmod⟩ := hagree v hv
    have htext : textValue ((coercion false).cpp (exprCpp false e)) = y.toInt := by
      rw [textValue, Coercion.eval_cpp, hv, Option.bind_some, hy]
      rfl
    rw [if_pos halike, htext, exprCpp_of_alike halike]
    cases low with
    | true => exact ⟨v, x, hv, hx, hmod⟩
    | false => exact ⟨v, y, hv, hy, Int.ModEq.refl _⟩
  · obtain ⟨hsound, hkept⟩ := h.resolve_left fun hagree => halike hagree.1
    obtain ⟨u, hu, humod⟩ := ih hsound low
    obtain ⟨x, hx, hxmod⟩ := Coercion.apply_spec hW (hc low) (hkept low u hu)
    rw [if_neg halike]
    exact ⟨u, x, hu, hx, hxmod.trans humod⟩

/-- The values of a chain in both modes. -/
theorem eval_reading {W : Nat} (hW : W ≤ 64) {e : Expr} (h : Sound W e) {v : Val}
    (hv : (exprCpp false e).eval = some v) (low : Bool) :
    ∃ u, (exprCpp low e).eval = some u ∧ u.toInt ≡ reading low e [ZMOD 2 ^ W] := by
  induction e generalizing v low with
  | operand o => exact ⟨o.value, rfl, Int.ModEq.refl _⟩
  | arith op a b iha ihb =>
      by_cases halike : alike (.arith op a b) = true
      · refine ⟨v, by rw [exprCpp_of_alike halike, hv], ?_⟩
        rw [reading, if_pos halike, textValue, hv]
        exact Int.ModEq.refl _
      · obtain ⟨ha, hb, hnode⟩ := h.resolve_left halike
        rw [exprCpp, Emission.eval_cpp] at hv
        simp only [Coercion.eval_cpp] at hv
        obtain ⟨x, hx, hrest⟩ := Option.bind_eq_some_iff.mp hv
        obtain ⟨x₀, hx₀, -⟩ := Option.bind_eq_some_iff.mp hx
        obtain ⟨y, hy, -⟩ := Option.bind_eq_some_iff.mp hrest
        obtain ⟨y₀, hy₀, -⟩ := Option.bind_eq_some_iff.mp hy
        have hformed := fun low => formed_emission low op a b
        obtain ⟨p, x', hp, hx', hxmod⟩ := eval_coerced hW
          (fun low => (Emission.formed_coercions (hformed low)).1) ha
          (fun hs low => iha hs hx₀ low) hx₀ low
        obtain ⟨q, y', hq, hy', hymod⟩ := eval_coerced hW
          (fun low => (Emission.formed_coercions (hformed low)).2) hb
          (fun hs low => ihb hs hy₀ low) hy₀ low
        have hleft : ((emission low op a b).lhs.cpp (exprCpp low a)).eval = some x' := by
          rw [Coercion.eval_cpp, hp, Option.bind_some, hx']
        have hright : ((emission low op a b).rhs.cpp (exprCpp low b)).eval = some y' := by
          rw [Coercion.eval_cpp, hq, Option.bind_some, hy']
        obtain ⟨z, hz, hzmod⟩ := Emission.apply_spec hW (hformed low) hx' hy'
          (hnode low x' y' hleft hright)
        refine ⟨z, ?_, ?_⟩
        · rw [exprCpp, Emission.eval_cpp, hleft, Option.bind_some, hright, Option.bind_some, hz]
        · rw [reading, if_neg halike]
          exact hzmod.trans (Emission.reading_congr _ op hxmod hymod)

end Harc.ArchArithmetic
