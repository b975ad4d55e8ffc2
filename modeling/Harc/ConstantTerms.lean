import Harc.LoweringVerified
import Harc.TypedMeaning
import Harc.TwosComplement

/-!
File-scope constants in constraints: the check of a declared type, the schema of a constant
(`collect_integer_consts`) with its 64-bit carrier, and the two places that read it, typed
lowering and the solver text.
-/

namespace Harc.ConstantTerms

open Harc.ConstraintSchema
open Harc.TypedConstraint
open Harc.TypedLowering
open Harc.LoweringVerified
open Harc.TypedMeaning
open Harc.TwosComplement

/-- The widths that the language has. -/
abbrev Width := { w : Nat // 1 ≤ w ∧ w ≤ 1024 }

/-- The argument of `uint<..>`: nothing, a decimal literal, or an expression such as the name
of another constant, with its value. -/
inductive WidthArg where
  | absent
  | literal (w : Width)
  | expression (w : Width)

inductive ConstType where
  | untyped
  | uint (arg : WidthArg)
  | sint (arg : WidthArg)
  | bool
  | bit
  | int
  | time
  | named

/-- The exact value of the initializer. -/
structure Folded where
  exact : Int
  isBoolean : Bool
  boolean_value : isBoolean = true → exact = 0 ∨ exact = 1

structure ConstVal where
  exact : Int
  signed : Bool
deriving DecidableEq

def ConstVal.bits (v : ConstVal) : BitVec 64 := BitVec.ofInt 64 v.exact

/-- `ExactInt::fits` -/
def fits (z : Int) (w : Nat) (signed : Bool) : Bool :=
  if signed then decide (-2 ^ w ≤ 2 * z) && decide (2 * z < 2 ^ w)
  else decide (0 ≤ z) && decide (z < 2 ^ w)

/-- The width as the code parses it from the argument. -/
def WidthArg.parsed : WidthArg → Option Nat
  | .literal w => some w.1
  | _ => none

def checkFits (signed : Bool) (w : Nat) (exact : Int) : Option ConstVal :=
  if fits exact w signed then some ⟨exact, signed⟩ else none

/-- `check_const_decl_type`; `none` is an error. -/
def checkConstDeclType (ty : ConstType) (v : Folded) : Option ConstVal :=
  let untyped : ConstVal := ⟨v.exact, decide (v.exact < 0) || fits v.exact 64 true⟩
  match ty with
  | .untyped => if v.isBoolean then some ⟨v.exact, true⟩ else some untyped
  | .named => some untyped
  | .uint arg => checkFits false (arg.parsed.getD 64) v.exact
  | .int | .time => checkFits false 64 v.exact
  | .sint arg =>
      match arg.parsed with
      | some w => checkFits true w v.exact
      | none => some ⟨v.exact, true⟩
  | .bool | .bit => some ⟨if v.exact = 0 then 0 else 1, false⟩

structure IntegerConstSchema where
  const : IntegerConst
  /-- the number that the literal text is written for -/
  literal : Int

def schemaShape (ty : ConstType) (signed : Bool) : Option Nat × Signedness × Bool :=
  match ty with
  | .uint arg => (some (arg.parsed.getD 64), .unsigned, false)
  | .sint arg => (some (arg.parsed.getD 64), .signed, false)
  | .bool => (some 1, .notNumeric, true)
  | .bit => (some 1, .unsigned, false)
  | .int => (some 32, .signed, false)
  | .untyped => (none, if signed then .signed else .unsigned, false)
  | .time | .named => (none, .unknown, false)

/-- The entry of one constant. -/
def collectIntegerConst (ty : ConstType) (v : ConstVal) : IntegerConstSchema :=
  let shape := schemaShape ty v.signed
  { const :=
      { value := v.bits
        width := shape.1
        signedness := shape.2.1
        isBool := shape.2.2 }
    literal :=
      if shape.2.2 then (if v.bits = 0 then 0 else 1)
      else if v.signed then v.bits.toInt
      else v.bits.toNat }

/-- Only a literal of type `long` selects an overload of `harc_z3_bv_value` for integers;
`int` and what is wider than `long` convert to each of them. -/
def isLong (z : Int) : Bool :=
  decide (2 ^ 31 ≤ z.natAbs) && decide (z.natAbs < 2 ^ 63)

/-- The bit vector that the text of a constant stands for at the solver's width; `none` is an
ambiguous call. -/
def emitConst (c : IntegerConstSchema) (w : Nat) : Option (BitVec w) :=
  if w ≤ 64 then some ((BitVec.ofInt 64 c.literal).setWidth w)
  else if isLong c.literal then some (BitVec.ofInt w c.literal)
  else none

/-! ### What the constant should denote -/

def WidthArg.width : WidthArg → Nat
  | .absent => 64
  | .literal w => w.1
  | .expression w => w.1

/-- The declared width and signedness. -/
def declared : ConstType → Option CType
  | .uint arg => some (.bv arg.width .unsigned)
  | .sint arg => some (.bv arg.width .signed)
  | .bit => some (.bv 1 .unsigned)
  | .int => some (.bv 32 .signed)
  | .bool => some .bool
  | .untyped | .time | .named => none

def readSigned {w : Nat} (signedness : Signedness) (x : BitVec w) : Int :=
  if signedness = .signed then x.toInt else x.toNat

def rankOf (x : Option FieldValue) : Option Int := x.bind FieldValue.rank

/-- Both readers give the exact value, the typed term at the declared type, or refuse. -/
structure Denotes (ty : ConstType) (v : ConstVal) : Prop where
  term : ∀ env locals, Verified env locals (lowerConst (collectIntegerConst ty v).const) →
    (∀ t ∈ declared ty, (lowerConst (collectIntegerConst ty v).const).ty = t) ∧
      ∀ values binding, rankOf (meaning values (lowerConst (collectIntegerConst ty v).const)
        binding) = some v.exact
  text : ∀ w, 64 ≤ w → ∀ x ∈ emitConst (collectIntegerConst ty v) w,
    readSigned (collectIntegerConst ty v).const.signedness x = v.exact

def WidthArg.Written : WidthArg → Prop
  | .expression w => w.1 = 64
  | _ => True

/-- The declared width is written as a number, and the value fits the 64-bit carrier. -/
def Kept : ConstType → Int → Prop
  | .untyped, z => -2 ^ 63 ≤ z ∧ z < 2 ^ 64
  | .uint arg, z => arg.Written ∧ z < 2 ^ 64
  | .sint arg, z => arg.Written ∧ -2 ^ 63 ≤ z ∧ z < 2 ^ 63
  | .int, z => z < 2 ^ 31 ∨ 2 ^ 32 ≤ z ∧ z < 2 ^ 63
  | .named, z => 0 ≤ z ∧ z < 2 ^ 64
  | .bool, _ | .bit, _ | .time, _ => True

/-! ### The typed term -/

section Term

variable {c : IntegerConst} {w : Nat}

theorem exceeds_iff {value : BitVec 128} :
    literalExceedsWidth value w = false ↔ 128 ≤ w ∨ value.toNat < 2 ^ w := by
  have hpos : 0 < 2 ^ w := Nat.two_pow_pos w
  rw [literalExceedsWidth]
  split_ifs with h
  · simp [h]
  · simp only [decide_eq_false_iff_not, h, false_or]
    omega

theorem toNat_carrier (x : BitVec 64) : (x.setWidth 128).toNat = x.toNat :=
  BitVec.toNat_setWidth_of_le (by decide)

theorem lowerConst_unsigned (hbool : c.isBool = false) (hsort : constSort c = (w, .unsigned))
    (hsign : c.signedness ≠ .signed) :
    lowerConst c = .bvLit (c.value.setWidth 128) (.bv w .unsigned) := by
  have hneg : constNegative c = false := by simp [constNegative, hsign]
  simp [lowerConst, hbool, hsort, hneg]

theorem lowerConst_signed (hbool : c.isBool = false) (hsort : constSort c = (w, .signed))
    (hsign : c.signedness = .signed) :
    lowerConst c = if c.value.toInt < 0 then
        .unary .neg (.bvLit ((-c.value).setWidth 128) (.bv w .signed)) (.bv w .signed)
      else .bvLit (c.value.setWidth 128) (.bv w .signed) := by
  simp [lowerConst, hbool, hsort, constNegative, hsign]

theorem toNat_neg_carrier {x : BitVec 64} (h : x.toInt < 0) : ((-x).toNat : Int) = -x.toInt := by
  have hlt := x.isLt
  rw [BitVec.toInt_eq_toNat_cond] at h ⊢
  rw [BitVec.toNat_neg]
  split_ifs at h ⊢ with hc
  · omega
  · rw [Nat.mod_eq_of_lt (by omega)]
    omega

theorem toNat_nonneg_carrier {x : BitVec 64} (h : ¬ x.toInt < 0) : (x.toNat : Int) = x.toInt := by
  have hlt := x.isLt
  rw [BitVec.toInt_eq_toNat_cond] at h ⊢
  split_ifs at h ⊢ with hc
  · rfl
  · omega

theorem meaning_signed (hbool : c.isBool = false) (hsort : constSort c = (w, .signed))
    (hsign : c.signedness = .signed) (values : Assignment)
    (binding : Nat → Option FieldValue) :
    rankOf (meaning values (lowerConst c) binding) = some (c.value.toInt.bmod (2 ^ w)) := by
  rw [lowerConst_signed hbool hsort hsign]
  split_ifs with h
  · simp only [meaning, unaryMeaning, wrap, Option.bind_some, rankOf, FieldValue.rank,
      toNat_carrier, toNat_neg_carrier h]
    rw [Int.bmod_neg_bmod, Int.neg_neg]
  · simp only [meaning, wrap, rankOf, Option.bind_some, FieldValue.rank, toNat_carrier,
      toNat_nonneg_carrier h]

theorem verified_unsigned (hbool : c.isBool = false) (hsort : constSort c = (w, .unsigned))
    (hsign : c.signedness ≠ .signed) {env : FieldEnv} {locals : Locals} :
    Verified env locals (lowerConst c) ↔ w ≠ 0 ∧ (128 ≤ w ∨ c.value.toNat < 2 ^ w) := by
  rw [lowerConst_unsigned hbool hsort hsign, verified_bvLit, exceeds_iff, toNat_carrier]

theorem verified_signed (hbool : c.isBool = false) (hsort : constSort c = (w, .signed))
    (hsign : c.signedness = .signed) {env : FieldEnv} {locals : Locals} :
    Verified env locals (lowerConst c) ↔
      w ≠ 0 ∧ (128 ≤ w ∨ c.value.toInt.natAbs < 2 ^ w) := by
  rw [lowerConst_signed hbool hsort hsign]
  split_ifs with h
  · have habs : (-c.value).toNat = c.value.toInt.natAbs := by
      have := toNat_neg_carrier h
      omega
    have hunary : verifyUnary .neg (.bv w .signed) (.bv w .signed) = [] := by
      simp [verifyUnary, CType.isBv, expectType]
    rw [verified_unary_iff, verified_bvLit, exceeds_iff, toNat_carrier, habs, concrete_bv,
      CTypedExpr.ty_bvLit]
    exact ⟨fun hv => hv.2.1, fun hv => ⟨hv.1, hv, hunary⟩⟩
  · have habs : c.value.toNat = c.value.toInt.natAbs := by
      have := toNat_nonneg_carrier h
      omega
    rw [verified_bvLit, exceeds_iff, toNat_carrier, habs]

/-- An unsigned term that is accepted denotes its carrier. -/
theorem meaning_unsigned (hbool : c.isBool = false) (hsort : constSort c = (w, .unsigned))
    (hsign : c.signedness ≠ .signed) (hw : 128 ≤ w ∨ c.value.toNat < 2 ^ w)
    (values : Assignment) (binding : Nat → Option FieldValue) :
    rankOf (meaning values (lowerConst c) binding) = some (c.value.toNat : Int) := by
  have hlt : c.value.toNat < 2 ^ w := by
    refine hw.elim (fun hw => ?_) id
    exact Nat.lt_of_lt_of_le c.value.isLt (Nat.pow_le_pow_right (by decide) (by omega))
  have hlt' : (c.value.toNat : Int) < 2 ^ w := by exact_mod_cast hlt
  rw [lowerConst_unsigned hbool hsort hsign]
  simp only [meaning, wrap, rankOf, Option.bind_some, FieldValue.rank, toNat_carrier]
  rw [Int.emod_eq_of_lt (by omega) hlt']

theorem ty_unsigned (hbool : c.isBool = false) (hsort : constSort c = (w, .unsigned))
    (hsign : c.signedness ≠ .signed) : (lowerConst c).ty = .bv w .unsigned := by
  rw [lowerConst_unsigned hbool hsort hsign, CTypedExpr.ty_bvLit]

theorem ty_signed (hbool : c.isBool = false) (hsort : constSort c = (w, .signed))
    (hsign : c.signedness = .signed) : (lowerConst c).ty = .bv w .signed := by
  rw [lowerConst_signed hbool hsort hsign]
  split_ifs <;> rfl

end Term

/-! ### The carrier and the text -/

theorem bits_toNat (v : ConstVal) : (v.bits.toNat : Int) = v.exact % 2 ^ 64 := by
  rw [ConstVal.bits, BitVec.toNat_ofInt]
  exact Int.toNat_of_nonneg (Int.emod_nonneg _ (by decide))

theorem bits_toInt (v : ConstVal) : v.bits.toInt = v.exact.bmod (2 ^ 64) :=
  BitVec.toInt_ofInt ..

theorem bits_toNat_eq_iff (v : ConstVal) :
    (v.bits.toNat : Int) = v.exact ↔ 0 ≤ v.exact ∧ v.exact < 2 ^ 64 := by
  rw [bits_toNat]
  omega

theorem bits_toInt_eq_iff (v : ConstVal) :
    v.bits.toInt = v.exact ↔ -2 ^ 63 ≤ v.exact ∧ v.exact < 2 ^ 63 := by
  have hlow := BitVec.le_toInt v.bits
  have hhigh := BitVec.toInt_lt (x := v.bits)
  constructor
  · rintro h
    rw [← h]
    exact ⟨hlow, hhigh⟩
  · rintro ⟨hlow, hhigh⟩
    have hrange : InRange 63 v.exact := ⟨hlow, hhigh⟩
    rw [bits_toInt, hrange.bmod_eq]

theorem emitConst_eq {c : IntegerConstSchema} {w : Nat} (hw : 64 ≤ w) {x : BitVec w}
    (h : x ∈ emitConst c w) : x = BitVec.ofInt w c.literal := by
  rw [emitConst] at h
  split_ifs at h with hle hlong
  · obtain rfl : w = 64 := by omega
    cases h
    exact BitVec.setWidth_eq _
  · exact (Option.some.inj h).symm
  · cases h

theorem emitConst_carrier (c : IntegerConstSchema) :
    BitVec.ofInt 64 c.literal ∈ emitConst c 64 := by
  rw [emitConst, if_pos (Nat.le_refl 64), BitVec.setWidth_eq]
  rfl

theorem text_signed {c : IntegerConstSchema} {z : Int} (hsign : c.const.signedness = .signed)
    (hlit : c.literal = z) (hlow : -2 ^ 63 ≤ z) (hhigh : z < 2 ^ 63) :
    ∀ w, 64 ≤ w → ∀ x ∈ emitConst c w, readSigned c.const.signedness x = z := by
  intro w hw x hx
  obtain ⟨k, rfl⟩ : ∃ k, w = k + 1 := ⟨w - 1, by omega⟩
  have hpow : (2 : Int) ^ 63 ≤ 2 ^ k := by
    exact_mod_cast Nat.pow_le_pow_right (by decide : 0 < 2) (by omega : 63 ≤ k)
  have hrange : InRange k z := ⟨by omega, by omega⟩
  rw [readSigned, if_pos hsign, emitConst_eq hw hx, hlit, BitVec.toInt_ofInt, hrange.bmod_eq]

theorem text_unsigned {c : IntegerConstSchema} {z : Int} (hsign : c.const.signedness ≠ .signed)
    (hlit : c.literal = z) (hlow : 0 ≤ z) (hhigh : z < 2 ^ 64) :
    ∀ w, 64 ≤ w → ∀ x ∈ emitConst c w, readSigned c.const.signedness x = z := by
  intro w hw x hx
  have hpow : (2 : Int) ^ 64 ≤ 2 ^ w := by
    exact_mod_cast Nat.pow_le_pow_right (by decide : 0 < 2) hw
  rw [readSigned, if_neg hsign, emitConst_eq hw hx, hlit, BitVec.toNat_ofInt]
  push_cast
  rw [Int.emod_eq_of_lt hlow (by omega), Int.toNat_of_nonneg hlow]

/-! ### Types of either sign -/

section Cases

variable {ty : ConstType} {v : ConstVal} {w : Nat}

def emptyEnv : FieldEnv := ⟨[], [], List.nodup_nil⟩

theorem denotes_unsigned_iff (hbool : (collectIntegerConst ty v).const.isBool = false)
    (hsort : constSort (collectIntegerConst ty v).const = (w, .unsigned))
    (hsign : (collectIntegerConst ty v).const.signedness ≠ .signed) (hw : w ≠ 0)
    (hfits : 128 ≤ w ∨ v.bits.toNat < 2 ^ w)
    (hlit : 0 ≤ v.exact → v.exact < 2 ^ 64 → (collectIntegerConst ty v).literal = v.exact) :
    Denotes ty v ↔
      (∀ t ∈ declared ty, .bv w .unsigned = t) ∧ 0 ≤ v.exact ∧ v.exact < 2 ^ 64 := by
  have hmeaning := meaning_unsigned hbool hsort hsign hfits
  have hty := ty_unsigned hbool hsort hsign
  constructor
  · intro h
    obtain ⟨hdeclared, hvalue⟩ := h.term emptyEnv (fun _ => none)
      ((verified_unsigned hbool hsort hsign).mpr ⟨hw, hfits⟩)
    rw [hty] at hdeclared
    refine ⟨hdeclared, (bits_toNat_eq_iff v).mp ?_⟩
    have hsame := hvalue (fun _ => .bool true) fun _ => none
    rw [hmeaning] at hsame
    exact Option.some.inj hsame
  · rintro ⟨hdeclared, hlow, hhigh⟩
    refine ⟨fun env locals _ => ⟨hty ▸ hdeclared, fun values binding => ?_⟩,
      text_unsigned hsign (hlit hlow hhigh) hlow hhigh⟩
    rw [hmeaning]
    exact congrArg some ((bits_toNat_eq_iff v).mpr ⟨hlow, hhigh⟩)

theorem denotes_signed_iff (hbool : (collectIntegerConst ty v).const.isBool = false)
    (hsort : constSort (collectIntegerConst ty v).const = (w, .signed))
    (hsign : (collectIntegerConst ty v).const.signedness = .signed) (hw : w ≠ 0)
    (hfits : 128 ≤ w ∨ v.bits.toInt.natAbs < 2 ^ w)
    (hwrap : v.bits.toInt.bmod (2 ^ w) = v.bits.toInt)
    (hlit : (collectIntegerConst ty v).literal = v.bits.toInt) :
    Denotes ty v ↔
      (∀ t ∈ declared ty, .bv w .signed = t) ∧ -2 ^ 63 ≤ v.exact ∧ v.exact < 2 ^ 63 := by
  have hmeaning : ∀ values binding,
      rankOf (meaning values (lowerConst (collectIntegerConst ty v).const) binding) =
        some v.bits.toInt := by
    intro values binding
    rw [meaning_signed hbool hsort hsign]
    exact congrArg some hwrap
  have hty := ty_signed hbool hsort hsign
  constructor
  · intro h
    obtain ⟨hdeclared, hvalue⟩ := h.term emptyEnv (fun _ => none)
      ((verified_signed hbool hsort hsign).mpr ⟨hw, hfits⟩)
    rw [hty] at hdeclared
    refine ⟨hdeclared, (bits_toInt_eq_iff v).mp ?_⟩
    have hsame := hvalue (fun _ => .bool true) fun _ => none
    rw [hmeaning] at hsame
    exact Option.some.inj hsame
  · rintro ⟨hdeclared, hlow, hhigh⟩
    have hexact := (bits_toInt_eq_iff v).mpr ⟨hlow, hhigh⟩
    refine ⟨fun env locals _ => ⟨hty ▸ hdeclared, fun values binding => ?_⟩,
      text_signed hsign (hlit.trans hexact) hlow hhigh⟩
    rw [hmeaning, hexact]

/-- The carrier of a wide type keeps its signed value. -/
theorem bmod_carrier (x : BitVec 64) (hw : 64 ≤ w) :
    x.toInt.bmod (2 ^ w) = x.toInt ∧ x.toInt.natAbs < 2 ^ w := by
  have hlow := BitVec.le_toInt x
  have hhigh := BitVec.toInt_lt (x := x)
  obtain ⟨k, rfl⟩ : ∃ k, w = k + 1 := ⟨w - 1, by omega⟩
  have hpow : (2 : Int) ^ 63 ≤ 2 ^ k := by
    exact_mod_cast Nat.pow_le_pow_right (by decide : 0 < 2) (by omega : 63 ≤ k)
  have hrange : InRange k x.toInt := ⟨by omega, by omega⟩
  refine ⟨hrange.bmod_eq, ?_⟩
  have hbig : 2 ^ 64 ≤ 2 ^ (k + 1) := Nat.pow_le_pow_right (by decide : 0 < 2) hw
  omega

theorem declared_written (arg : WidthArg) :
    arg.parsed.getD 64 = arg.width ↔ arg.Written := by
  cases arg with
  | absent => simp [WidthArg.parsed, WidthArg.width, WidthArg.Written]
  | literal w => simp [WidthArg.parsed, WidthArg.width, WidthArg.Written]
  | expression w =>
      simp only [WidthArg.parsed, WidthArg.width, WidthArg.Written, Option.getD_none]
      exact eq_comm

theorem parsed_pos (arg : WidthArg) : 1 ≤ arg.parsed.getD 64 := by
  cases arg with
  | absent => exact (by decide : 1 ≤ 64)
  | literal w => exact w.2.1
  | expression w => exact (by decide : 1 ≤ 64)

theorem denotes_uint_iff {arg : WidthArg} (hsigned : v.signed = false)
    (hfits : fits v.exact (arg.parsed.getD 64) false = true) :
    Denotes (.uint arg) v ↔ Kept (.uint arg) v.exact := by
  simp only [fits, Bool.false_eq_true, if_false, Bool.and_eq_true, decide_eq_true_eq] at hfits
  have hlt : v.bits.toNat < 2 ^ arg.parsed.getD 64 := by
    have hcarrier := bits_toNat v
    have hmod : v.exact % 2 ^ 64 ≤ v.exact := by omega
    have : (v.bits.toNat : Int) < 2 ^ arg.parsed.getD 64 := by omega
    exact_mod_cast this
  have hpos := parsed_pos arg
  have hsign : (collectIntegerConst (.uint arg) v).const.signedness ≠ .signed := by
    simp [collectIntegerConst, schemaShape]
  refine (denotes_unsigned_iff rfl rfl hsign (by omega) (Or.inr hlt) fun hlow hhigh => ?_).trans
    ?_
  · simp only [collectIntegerConst, schemaShape, hsigned, Bool.false_eq_true, if_false]
    exact (bits_toNat_eq_iff v).mpr ⟨hlow, hhigh⟩
  · simp only [declared, Option.mem_def, Option.some.injEq, forall_eq', CType.bv.injEq,
      and_true, declared_written, Kept, hfits.1, true_and]

theorem denotes_sint_iff {arg : WidthArg} (hsigned : v.signed = true)
    (hfits : ∀ w ∈ arg.parsed, fits v.exact w true = true) :
    Denotes (.sint arg) v ↔ Kept (.sint arg) v.exact := by
  have hpos := parsed_pos arg
  have hwrap : v.bits.toInt.bmod (2 ^ arg.parsed.getD 64) = v.bits.toInt ∧
      v.bits.toInt.natAbs < 2 ^ arg.parsed.getD 64 := by
    rcases Nat.lt_or_ge (arg.parsed.getD 64) 64 with hlt | hge
    · -- a narrow type holds the value, and so does the carrier
      obtain ⟨w, hw⟩ : ∃ w, arg.parsed = some w := by
        cases arg with
        | literal w => exact ⟨w, rfl⟩
        | absent => exact absurd hlt (by decide)
        | expression w => exact absurd hlt (Nat.lt_irrefl 64)
      have hfits := hfits w hw
      rw [hw, Option.getD_some] at hpos hlt ⊢
      obtain ⟨k, rfl⟩ : ∃ k, w = k + 1 := ⟨w - 1, by omega⟩
      simp only [fits, if_true, Bool.and_eq_true, decide_eq_true_eq, pow_succ] at hfits
      have hpow : (2 : Int) ^ k ≤ 2 ^ 63 := by
        exact_mod_cast Nat.pow_le_pow_right (by decide : 0 < 2) (by omega : k ≤ 63)
      have hexact : v.bits.toInt = v.exact := (bits_toInt_eq_iff v).mpr ⟨by omega, by omega⟩
      have hrange : InRange k v.exact := ⟨by omega, by omega⟩
      rw [hexact]
      refine ⟨hrange.bmod_eq, ?_⟩
      have hnat : (v.exact.natAbs : Int) < 2 ^ (k + 1) := by
        have hone : (0 : Int) < 2 ^ k := Int.pow_pos (by decide)
        rw [pow_succ]
        omega
      exact_mod_cast hnat
    · exact bmod_carrier _ hge
  refine (denotes_signed_iff rfl rfl rfl (by omega) (Or.inr hwrap.2) hwrap.1 ?_).trans ?_
  · simp only [collectIntegerConst, schemaShape, hsigned, Bool.false_eq_true, if_false, if_true]
  · simp only [declared, Option.mem_def, Option.some.injEq, forall_eq', CType.bv.injEq,
      and_true, declared_written, Kept]

/-- Without a declared type, the carrier's own width is enough. -/
theorem denotes_default_iff (hdeclared : declared ty = none)
    (hbool : (collectIntegerConst ty v).const.isBool = false)
    (hwidth : (collectIntegerConst ty v).const.width = none)
    (hsign : (collectIntegerConst ty v).const.signedness ≠ .signed)
    (hlit : 0 ≤ v.exact → v.exact < 2 ^ 64 → (collectIntegerConst ty v).literal = v.exact) :
    Denotes ty v ↔ 0 ≤ v.exact ∧ v.exact < 2 ^ 64 := by
  have hok := defaultUnsignedWidth_ok (v.bits.setWidth 128)
  have hsort : constSort (collectIntegerConst ty v).const =
      (defaultUnsignedWidth (v.bits.setWidth 128), .unsigned) := by
    rw [constSort, hwidth]
    cases hs : (collectIntegerConst ty v).const.signedness with
    | signed => exact absurd hs hsign
    | _ => rfl
  rw [exceeds_iff, toNat_carrier] at hok
  rw [denotes_unsigned_iff hbool hsort hsign hok.1 hok.2 hlit, hdeclared]
  simp

theorem denotes_untyped_iff (hsigned : v.signed = true → v.exact < 2 ^ 63)
    (hunsigned : v.signed = false → 2 ^ 63 ≤ v.exact) :
    Denotes .untyped v ↔ Kept .untyped v.exact := by
  cases hs : v.signed with
  | true =>
      have hhigh := hsigned hs
      have hlit : (collectIntegerConst .untyped v).literal = v.bits.toInt := by
        simp [collectIntegerConst, schemaShape, hs]
      have hsign : (collectIntegerConst .untyped v).const.signedness = .signed := by
        simp [collectIntegerConst, schemaShape, hs]
      have hsort : constSort (collectIntegerConst .untyped v).const = (64, .signed) := by
        simp [constSort, collectIntegerConst, schemaShape, hs]
      have hwrap := bmod_carrier v.bits (Nat.le_refl 64)
      rw [denotes_signed_iff rfl hsort hsign (by decide) (Or.inr hwrap.2) hwrap.1 hlit, declared,
        Kept]
      constructor
      · rintro ⟨-, hlow, -⟩
        exact ⟨hlow, by omega⟩
      · rintro ⟨hlow, -⟩
        exact ⟨nofun, hlow, hhigh⟩
  | false =>
      have hlow := hunsigned hs
      have hsign : (collectIntegerConst .untyped v).const.signedness ≠ .signed := by
        simp [collectIntegerConst, schemaShape, hs]
      rw [denotes_default_iff rfl rfl rfl hsign, Kept]
      · omega
      · intro hnonneg hhigh
        simp only [collectIntegerConst, schemaShape, hs, Bool.false_eq_true, if_false]
        exact (bits_toNat_eq_iff v).mpr ⟨hnonneg, hhigh⟩

theorem denotes_named_iff (hsigned : v.signed = true → v.exact < 2 ^ 63) :
    Denotes .named v ↔ Kept .named v.exact := by
  have hsign : (collectIntegerConst .named v).const.signedness ≠ .signed := by
    simp [collectIntegerConst, schemaShape]
  rw [denotes_default_iff rfl rfl rfl hsign, Kept]
  intro hlow hhigh
  simp only [collectIntegerConst, schemaShape, Bool.false_eq_true, if_false]
  split_ifs with hs
  · exact (bits_toInt_eq_iff v).mpr ⟨by omega, hsigned hs⟩
  · exact (bits_toNat_eq_iff v).mpr ⟨hlow, hhigh⟩

theorem denotes_time (hsigned : v.signed = false) (hlow : 0 ≤ v.exact)
    (hhigh : v.exact < 2 ^ 64) : Denotes .time v := by
  have hsign : (collectIntegerConst .time v).const.signedness ≠ .signed := by
    simp [collectIntegerConst, schemaShape]
  rw [denotes_default_iff rfl rfl rfl hsign]
  · exact ⟨hlow, hhigh⟩
  · intro hlow hhigh
    simp only [collectIntegerConst, schemaShape, hsigned, Bool.false_eq_true, if_false]
    exact (bits_toNat_eq_iff v).mpr ⟨hlow, hhigh⟩

theorem denotes_bit (hsigned : v.signed = false) (hvalue : v.exact = 0 ∨ v.exact = 1) :
    Denotes .bit v := by
  have hsign : (collectIntegerConst .bit v).const.signedness ≠ .signed := by
    simp [collectIntegerConst, schemaShape]
  have hcarrier : (v.bits.toNat : Int) = v.exact := (bits_toNat_eq_iff v).mpr (by omega)
  rw [denotes_unsigned_iff rfl rfl hsign (by decide) (Or.inr (by omega))]
  · refine ⟨?_, by omega⟩
    rintro t ⟨⟩
    rfl
  · intro _ _
    simpa [collectIntegerConst, schemaShape, hsigned] using hcarrier

theorem denotes_bool (hvalue : v.exact = 0 ∨ v.exact = 1) : Denotes .bool v := by
  have hlit : (collectIntegerConst .bool v).literal = v.exact := by
    rcases hvalue with h | h <;> simp [collectIntegerConst, schemaShape, ConstVal.bits, h]
  have hsign : (collectIntegerConst .bool v).const.signedness ≠ .signed := by
    simp [collectIntegerConst, schemaShape]
  refine ⟨fun env locals _ => ⟨?_, fun values binding => ?_⟩,
    text_unsigned hsign hlit (by omega) (by omega)⟩
  · rintro t ⟨⟩
    rfl
  · rcases hvalue with h | h <;>
      simp [lowerConst, collectIntegerConst, schemaShape, ConstVal.bits, h, meaning, rankOf,
        FieldValue.rank]

theorem denotes_int_iff (hsigned : v.signed = false) (hlow : 0 ≤ v.exact)
    (hhigh : v.exact < 2 ^ 64) : Denotes .int v ↔ Kept .int v.exact := by
  have hsign : (collectIntegerConst .int v).const.signedness = .signed := by
    simp [collectIntegerConst, schemaShape]
  have hnat : (v.bits.toNat : Int) = v.exact := (bits_toNat_eq_iff v).mpr ⟨hlow, hhigh⟩
  have hlit : (collectIntegerConst .int v).literal = v.exact := by
    simpa [collectIntegerConst, schemaShape, hsigned] using hnat
  have hvalue : (collectIntegerConst .int v).const.value = v.bits := rfl
  have hverified : ∀ env locals,
      Verified env locals (lowerConst (collectIntegerConst .int v).const) ↔
        v.bits.toInt.natAbs < 2 ^ 32 := by
    intro env locals
    rw [@verified_signed _ 32 rfl rfl hsign]
    simp [hvalue]
  have hmeaning : ∀ values binding,
      rankOf (meaning values (lowerConst (collectIntegerConst .int v).const) binding) =
        some (v.bits.toInt.bmod (2 ^ 32)) := fun values binding =>
    @meaning_signed _ 32 rfl rfl hsign values binding
  rw [Kept]
  constructor
  · intro h
    have htext := h.text 64 (Nat.le_refl 64) _ (emitConst_carrier _)
    rw [readSigned, if_pos hsign, hlit] at htext
    have hexact : v.bits.toInt = v.exact := htext
    have hcarrier := (bits_toInt_eq_iff v).mp hexact
    rcases Int.lt_or_le v.exact (2 ^ 32) with hlt | hle
    · obtain ⟨-, hterm⟩ := h.term emptyEnv (fun _ => none) ((hverified _ _).mpr (by omega))
      have hsame := hterm (fun _ => .bool true) fun _ => none
      rw [hmeaning, hexact] at hsame
      have hbmod := Int.bmod_lt (x := v.exact) (by decide : 0 < 2 ^ 32)
      rw [Option.some.inj hsame] at hbmod
      left
      omega
    · exact Or.inr ⟨hle, hcarrier.2⟩
  · intro h
    have hsmall : v.exact < 2 ^ 63 := by omega
    have hexact : v.bits.toInt = v.exact := (bits_toInt_eq_iff v).mpr ⟨by omega, hsmall⟩
    refine ⟨fun env locals hv => ?_, text_signed hsign hlit (by omega) hsmall⟩
    have habs := (hverified env locals).mp hv
    have hrange : InRange 31 v.exact := ⟨by omega, by omega⟩
    refine ⟨?_, fun values binding => ?_⟩
    · rintro t ⟨⟩
      exact @ty_signed _ 32 rfl rfl hsign
    · rw [hmeaning, hexact, hrange.bmod_eq]

end Cases

theorem fits_carrier (z : Int) : fits z 64 true = true ↔ -2 ^ 63 ≤ z ∧ z < 2 ^ 63 := by
  simp only [fits, if_true, Bool.and_eq_true, decide_eq_true_eq]
  omega

theorem checkFits_eq_some {signed : Bool} {w : Nat} {z : Int} {c : ConstVal}
    (h : checkFits signed w z = some c) : fits z w signed = true ∧ c = ⟨z, signed⟩ := by
  rw [checkFits, Option.ite_none_right_eq_some] at h
  exact ⟨h.1, (Option.some.inj h.2).symm⟩

/-- A constant that is accepted denotes its exact value, or is refused where it is used,
exactly when its width is written out and its value fits the carrier. -/
theorem denotes_iff (ty : ConstType) (folded : Folded) (v : ConstVal)
    (hcheck : checkConstDeclType ty folded = some v) : Denotes ty v ↔ Kept ty v.exact := by
  have huntyped : ∀ z : Int, (decide (z < 0) || fits z 64 true) = true ↔ z < 2 ^ 63 := by
    intro z
    rw [Bool.or_eq_true, decide_eq_true_eq, fits_carrier]
    omega
  cases ty with
  | untyped =>
      simp only [checkConstDeclType] at hcheck
      split_ifs at hcheck with hbool
      · cases hcheck
        have hvalue := folded.boolean_value hbool
        exact denotes_untyped_iff (fun _ => by dsimp only; omega) nofun
      · cases hcheck
        refine denotes_untyped_iff (huntyped _).mp fun hs => ?_
        have hnot : ¬ folded.exact < 2 ^ 63 := by
          rw [← huntyped]
          exact ne_true_of_eq_false hs
        exact Int.not_lt.mp hnot
  | named =>
      cases hcheck
      exact denotes_named_iff (huntyped _).mp
  | uint arg =>
      obtain ⟨hfits, rfl⟩ := checkFits_eq_some hcheck
      exact denotes_uint_iff rfl hfits
  | int =>
      obtain ⟨hfits, rfl⟩ := checkFits_eq_some hcheck
      simp only [fits, Bool.false_eq_true, if_false, Bool.and_eq_true, decide_eq_true_eq]
        at hfits
      exact denotes_int_iff rfl hfits.1 hfits.2
  | time =>
      obtain ⟨hfits, rfl⟩ := checkFits_eq_some hcheck
      simp only [fits, Bool.false_eq_true, if_false, Bool.and_eq_true, decide_eq_true_eq]
        at hfits
      exact iff_of_true (denotes_time rfl hfits.1 hfits.2) trivial
  | sint arg =>
      cases arg with
      | literal w =>
          obtain ⟨hfits, rfl⟩ := checkFits_eq_some hcheck
          refine denotes_sint_iff rfl ?_
          rintro w ⟨⟩
          exact hfits
      | absent =>
          cases hcheck
          exact denotes_sint_iff rfl nofun
      | expression w =>
          cases hcheck
          exact denotes_sint_iff rfl nofun
  | bool =>
      cases hcheck
      refine iff_of_true (denotes_bool ?_) trivial
      dsimp only
      split_ifs
      · exact Or.inl rfl
      · exact Or.inr rfl
  | bit =>
      cases hcheck
      refine iff_of_true (denotes_bit rfl ?_) trivial
      dsimp only
      split_ifs
      · exact Or.inl rfl
      · exact Or.inr rfl

/-- `const LIMIT : sint<80> = -5` -/
theorem limit_denotes : ∃ v, checkConstDeclType (.sint (.literal ⟨80, by decide⟩))
    ⟨-5, false, nofun⟩ = some v ∧ Denotes (.sint (.literal ⟨80, by decide⟩)) v :=
  ⟨⟨-5, true⟩, by decide,
    (denotes_iff _ ⟨-5, false, nofun⟩ _ (by decide)).mpr ⟨trivial, by decide, by decide⟩⟩

/-- `const BIG : uint<128> = 1 << 100`, and `const SMALL : uint<W> = 5` where `W` is `8` -/
theorem constants_not_exact :
    (∃ v, checkConstDeclType (.uint (.literal ⟨128, by decide⟩)) ⟨2 ^ 100, false, nofun⟩ =
        some v ∧ ¬ Denotes (.uint (.literal ⟨128, by decide⟩)) v) ∧
      ∃ v, checkConstDeclType (.uint (.expression ⟨8, by decide⟩)) ⟨5, false, nofun⟩ =
        some v ∧ ¬ Denotes (.uint (.expression ⟨8, by decide⟩)) v := by
  refine ⟨⟨⟨2 ^ 100, false⟩, by decide, ?_⟩, ⟨⟨5, false⟩, by decide, ?_⟩⟩
  · rw [denotes_uint_iff rfl (by decide)]
    rintro ⟨-, hlt⟩
    exact absurd hlt (by decide)
  · rw [denotes_uint_iff rfl (by decide)]
    rintro ⟨hwidth, -⟩
    exact absurd hwidth (by decide : ¬ 8 = 64)

end Harc.ConstantTerms
