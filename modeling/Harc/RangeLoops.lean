import Harc.ControlLowering
import Harc.CppExpressions
import Harc.CountedLoops
import Harc.Fallible

/-!
The loops of `for i in lo .. hi` and `repeat n`: which values the body is run for.  The counter
is a signed or an unsigned 64-bit local, by what is known of the bounds; where nothing is known
when the loop is lowered, the plan of the DUT accesses gives types to the locals later
(`ir/passes/dut_access.rs`).
-/

namespace Harc.RangeLoops

open Harc.Fallible
open Harc.TestbenchIr
open Harc.IrExpr
open Harc.CppScalar
open Harc.FunctionBuilder
open Harc.StructuredControl
open Harc.ControlLowering
open Harc.CppExpressions
open Harc.CountedLoops
open Harc.WaitBudget (isSint)

variable {Ast Atom Leaf Op LeafError : Type}

/-! ### The parts of a loop head -/

/-- What `lower_for` has lowered when it makes the loop. -/
structure RangeHead (L : LeafLowering Ast Atom Leaf Op LeafError) (names : NameTable)
    (varName : String) (lo hi : Ast) where
  loIr : LoweredExpr Leaf Op
  hiIr : LoweredExpr Leaf Op
  lo_eq : lowerBound L names lo "range lower bound" = .ok loIr
  hi_eq : L.lowerExprNoPorts
    ((loIr.names.declare varName).2.modifyScope fun scope => scope.remove varName) hi = .ok hiIr

namespace RangeHead

variable {L : LeafLowering Ast Atom Leaf Op LeafError} {names : NameTable}
  {varName : String} {lo hi : Ast} (r : RangeHead L names varName lo hi)

def var : LocalId := (r.loIr.names.declare varName).1

/-- The names after both bounds. -/
def bound : NameTable :=
  r.hiIr.names.modifyScope fun scope => scope.insert varName r.var

def loSigned : Bool := rangeBoundRequiresSigned L r.loIr.names lo r.loIr.expr

def hiSigned : Bool := rangeBoundRequiresSigned L r.bound hi r.hiIr.expr

def signed : Bool := r.loSigned || r.hiSigned

def varTy : IrType := if r.signed then .sint none else .unknown

def typed : NameTable :=
  if r.signed then r.bound.setLocalType r.var (.sint none) else r.bound

def operand : LoweredExpr Leaf Op := stashIfImpure L r.typed r.hiIr.expr r.varTy

def mixed : Bool := r.signed && unsignedUpper L r.operand.names hi r.operand.expr

def counter : LoweredCounter Leaf Op where
  init := r.loIr.actions ++ .effect (.assign r.var r.loIr.expr) :: r.hiIr.actions ++
    r.operand.actions
  header := rangeCond r.mixed r.var r.operand.expr
  latch := rangeLatch r.mixed r.var r.operand.expr
  names := r.operand.names

end RangeHead

theorem lowerRangeBounds_head {L : LeafLowering Ast Atom Leaf Op LeafError} {names : NameTable}
    {varName : String} {lo hi : Ast} {counter : LoweredCounter Leaf Op}
    (h : lowerRangeBounds L names varName lo hi = .ok counter) :
    ∃ r : RangeHead L names varName lo hi, counter = r.counter := by
  simp only [lowerRangeBounds, bind_eq_ok] at h
  obtain ⟨loIr, hlo, hiIr, hhi, -, -, -, -, hcounter⟩ := h
  refine ⟨⟨loIr, hiIr, hlo, liftLeaf_eq_ok.mp hhi⟩, ?_⟩
  exact (pure_eq_ok.mp hcounter).symm

/-- What `lower_repeat` has lowered when it makes the loop. -/
structure RepeatHead (L : LeafLowering Ast Atom Leaf Op LeafError) (names : NameTable)
    (count : Ast) where
  countIr : LoweredExpr Leaf Op
  count_eq : lowerBound L names.freshTemp.2 count "repeat count" = .ok countIr

namespace RepeatHead

variable {L : LeafLowering Ast Atom Leaf Op LeafError} {names : NameTable} {count : Ast}
  (r : RepeatHead L names count)

def var (_ : RepeatHead L names count) : LocalId := names.freshTemp.1

def signed : Bool := rangeBoundRequiresSigned L r.countIr.names count r.countIr.expr

def varTy : IrType := if r.signed then .sint none else .unknown

def typed : NameTable :=
  if r.signed then r.countIr.names.setLocalType r.var (.sint none) else r.countIr.names

def operand : LoweredExpr Leaf Op := stashIfImpure L r.typed r.countIr.expr r.varTy

def counter : LoweredCounter Leaf Op where
  init := .effect (.assign r.var (.literal 0 .unknown)) :: r.countIr.actions ++
    r.operand.actions
  header := .binary .lt (.local r.var) r.operand.expr
  latch := ⟨none, none, increment r.var⟩
  names := r.operand.names

end RepeatHead

theorem lowerRepeatCount_head {L : LeafLowering Ast Atom Leaf Op LeafError} {names : NameTable}
    {count : Ast} {counter : LoweredCounter Leaf Op}
    (h : lowerRepeatCount L names count = .ok counter) :
    ∃ r : RepeatHead L names count, counter = r.counter := by
  simp only [lowerRepeatCount, bind_eq_ok] at h
  obtain ⟨countIr, hcount, -, -, hcounter⟩ := h
  exact ⟨⟨countIr, hcount⟩, (pure_eq_ok.mp hcounter).symm⟩

/-! ### Values of bounds -/

/-- What loop heads rely on in the lowering of expressions. -/
structure LocalLaws (L : LeafLowering Ast Atom Leaf Op LeafError) : Prop where
  typeOfLiteral : ∀ names value ty, L.exprType names (.literal value ty) = some ty
  typeOfLocal : ∀ names l, L.exprType names (.local l) = (names.locals[l]?).map TypedLocal.ty
  addsLocals : ∀ names ast r, L.lowerExprNoPorts names ast = .ok r →
    names.locals.length ≤ r.names.locals.length

def InSigned (v : Int) : Prop := -2 ^ 63 ≤ v ∧ v < 2 ^ 63

def InUnsigned (v : Int) : Prop := 0 ≤ v ∧ v < 2 ^ 64

/-- The values of an integer type of at most 64 bits.  What has no known type when the loop is
lowered, as a port of the DUT, may be of either sign. -/
def InType (v : Int) : Option IrType → Prop
  | some (.sint w) => w.getD 64 ≤ 64 ∧ InSigned v
  | some (.uint w) => w.getD 64 ≤ 64 ∧ InUnsigned v
  | some .unknown | none => InUnsigned v ∨ InSigned v
  | _ => False

def literalInt (value : Nat) : IrType → Int
  | .sint _ => (BitVec.ofNat 64 value).toInt
  | .uint _ => (BitVec.ofNat 64 value).toNat
  | _ => value

/-- A bound may have the value when the loop starts. -/
structure BoundValue (L : LeafLowering Ast Atom Leaf Op LeafError) (names : NameTable)
    (ast : Ast) (e : Expr Leaf) (v : Int) : Prop where
  inType : InType v (L.exprType names e)
  const : ∀ c ∈ L.foldConst ast, c.exact = v
  literal : ∀ value ty, e = .literal value ty → value < 2 ^ 64 ∧ v = literalInt value ty

section Bounds

variable {L : LeafLowering Ast Atom Leaf Op LeafError} {names : NameTable} {ast : Ast}
  {e : Expr Leaf} {v : Int}

theorem BoundValue.inSigned (h : BoundValue L names ast e v)
    (hsigned : rangeBoundRequiresSigned L names ast e = true) : InSigned v := by
  have hin := h.inType
  have hneg : ∀ c, L.foldConst ast = some c → c.exact < 0 → v < 0 := by
    intro c hc hneg
    rwa [← h.const c hc]
  rw [rangeBoundRequiresSigned, Bool.or_eq_true] at hsigned
  rcases hsigned with hty | hconst
  · split at hty
    · rename_i heq
      rw [heq] at hin
      exact hin.2
    · cases hty
  · split at hconst
    · rename_i c heq
      have hlt := hneg c heq (of_decide_eq_true hconst)
      revert hin
      rcases L.exprType names e with _ | ty
      · rintro (hin | hin)
        · exact absurd hin.1 (Int.not_le.mpr hlt)
        · exact hin
      · cases ty with
        | sint w => exact fun hin => hin.2
        | uint w => exact fun hin => absurd hin.2.1 (Int.not_le.mpr hlt)
        | unknown =>
            rintro (hin | hin)
            · exact absurd hin.1 (Int.not_le.mpr hlt)
            · exact hin
        | _ => exact False.elim
    · cases hconst

/-- Nothing is known of the bound when the loop is lowered. -/
def Guessed (L : LeafLowering Ast Atom Leaf Op LeafError) (names : NameTable) (e : Expr Leaf) :
    Prop :=
  (∀ value ty, e ≠ .literal value ty) ∧
    (L.exprType names e = some .unknown ∨ L.exprType names e = none)

/-- A number of the unsigned carrier, or a negative one of a bound of which nothing is known. -/
def Carries (L : LeafLowering Ast Atom Leaf Op LeafError) (names : NameTable) (e : Expr Leaf)
    (v : Int) : Prop :=
  InUnsigned v ∨ v < 0 ∧ InSigned v ∧ Guessed L names e

theorem literalInt_nonneg {value : Nat} {ty : IrType} (hty : ∀ width, ty ≠ .sint width) :
    0 ≤ literalInt value ty := by
  cases ty with
  | sint width => exact absurd rfl (hty width)
  | _ => exact Int.natCast_nonneg _

theorem not_sint_of_unsigned
    (hsigned : rangeBoundRequiresSigned L names ast e = false) (width : Option Nat) :
    L.exprType names e ≠ some (.sint width) := by
  intro hty
  rw [rangeBoundRequiresSigned, hty] at hsigned
  cases hsigned

theorem BoundValue.carries (laws : LocalLaws L) (h : BoundValue L names ast e v)
    (hsigned : rangeBoundRequiresSigned L names ast e = false) : Carries L names e v := by
  have hin := h.inType
  have hsint := not_sint_of_unsigned hsigned
  have hunknown : L.exprType names e = some .unknown ∨ L.exprType names e = none →
      InUnsigned v ∨ InSigned v → Carries L names e v := by
    rintro hty (hin | hin)
    · exact Or.inl hin
    · rcases Int.lt_or_le v 0 with hneg | hpos
      · refine Or.inr ⟨hneg, hin, ?_, hty⟩
        rintro value ty rfl
        rw [(h.literal value ty rfl).2] at hneg
        refine absurd hneg (Int.not_lt.mpr (literalInt_nonneg ?_))
        rintro width rfl
        exact hsint width (laws.typeOfLiteral names value _)
      · exact Or.inl ⟨hpos, by have := hin.2; omega⟩
  rcases hty : L.exprType names e with _ | ty
  · rw [hty] at hin
    exact hunknown (Or.inr hty) hin
  · rw [hty] at hin
    cases ty with
    | sint w => exact absurd hty (hsint w)
    | uint w => exact Or.inl hin.2
    | unknown => exact hunknown (Or.inl hty) hin
    | _ => exact hin.elim

/-- The type of the temporary that holds a bound. -/
def stashTy (L : LeafLowering Ast Atom Leaf Op LeafError) (names : NameTable) (e : Expr Leaf)
    (fallback : IrType) : IrType :=
  match L.exprType names.freshTemp.2 e with
  | some ty => if ty = .unknown then fallback else ty
  | none => fallback

/-- The bound stays a literal, or is in a temporary. -/
theorem stash_cases (laws : LocalLaws L) (names : NameTable) (e : Expr Leaf)
    (fallback : IrType) :
    (∃ value ty, e = .literal value ty ∧ stashIfImpure L names e fallback = ⟨[], e, names⟩) ∨
      (∀ value ty, e ≠ .literal value ty) ∧
        (stashIfImpure L names e fallback).expr = .local names.locals.length ∧
        ((stashIfImpure L names e fallback).names.locals[names.locals.length]?).map
          TypedLocal.ty = some (stashTy L names e fallback) ∧
        L.exprType (stashIfImpure L names e fallback).names
          (stashIfImpure L names e fallback).expr = some (stashTy L names e fallback) := by
  have hother : ∀ ty : IrType,
      ((names.freshTemp.2.setLocalType names.locals.length ty).locals[names.locals.length]?).map
        TypedLocal.ty = some ty := by
    intro ty
    simp [NameTable.freshTemp, NameTable.setLocalType]
  cases e with
  | literal value ty => exact Or.inl ⟨value, ty, rfl, rfl⟩
  | _ =>
      refine Or.inr ⟨nofun, rfl, hother _, ?_⟩
      exact (laws.typeOfLocal _ _).trans (hother _)

end Bounds

/-- The plan of the DUT accesses types a local of unknown type only, by the value that it is
given; no other local changes its type. -/
def Planned (declared actual : IrType) (v : Int) : Prop :=
  actual = declared ∨ declared = .unknown ∧ (isSint actual = true → InSigned v)

/-- The temporary of the bound, if there is one, has the type in the end. -/
def PlannedOperand (operand : LoweredExpr Leaf Op) (actual : IrType) (v : Int) : Prop :=
  ∀ t, operand.expr = .local t → ∃ declared,
    (operand.names.locals[t]?).map TypedLocal.ty = some declared ∧ Planned declared actual v

/-- The bound is a literal, or is held by its temporary. -/
def Held {Rest : Type} (I : Interp Leaf Op Rest) (operand : LoweredExpr Leaf Op) (v : Int)
    (w : World Rest) : Prop :=
  ∀ t, operand.expr = .local t → w.locals t = BitVec.ofInt 64 v ∧
    PlannedOperand operand (I.types t) v

/-- The counter has the value and the bound is in place. -/
def At {Rest : Type} (I : Interp Leaf Op Rest) (var : LocalId) (operand : LoweredExpr Leaf Op)
    (last i : Int) (w : World Rest) : Prop :=
  w.locals var = BitVec.ofInt 64 i ∧ Held I operand last w

/-- The body neither assigns the counter nor the bound, and is not left early. -/
structure Quiet {Rest : Type} (var : LocalId) (operand : LoweredExpr Leaf Op)
    (body : World Rest → EventRun (Stmt Leaf Op) (Expr Leaf) (World Rest)) : Prop where
  completes : ∀ w, Completes (body w)
  keepsCounter : ∀ w, (body w).world.locals var = w.locals var
  keepsBound : ∀ w t, operand.expr = .local t → (body w).world.locals t = w.locals t

def setCounter {Rest : Type} (var : LocalId) (w : World Rest) (i : Int) : World Rest :=
  w.set var (BitVec.ofInt 64 i)

section Operands

variable {Rest : Type} (I : Interp Leaf Op Rest)

theorem toInt_ofU64 {v : Int} (h : InUnsigned v) :
    (CValue.ofU64 (BitVec.ofInt 64 v)).toInt = v := by
  have hnat : ((BitVec.ofInt 64 v).toNat : Int) = v := by
    rw [BitVec.toNat_ofInt]
    have := h.1
    have := h.2
    omega
  exact hnat

theorem toInt_ofI64 {v : Int} (h : InSigned v) :
    (CValue.ofI64 (BitVec.ofInt 64 v)).toInt = v := by
  have hrange : TwosComplement.InRange 63 v := h
  exact (BitVec.toInt_ofInt ..).trans hrange.bmod_eq

/-- An unsigned operand and one that is not negative are compared as numbers. -/
theorem compare_unsigned {rel : Int → Int → Bool} {x y : CValue}
    (hx : x.carrier = .uint64) (hxv : InUnsigned x.toInt) (hyv : InUnsigned y.toInt) :
    truthy (compare rel x y) = rel x.toInt y.toInt := by
  have hcommon : ∀ z, InUnsigned z → Represents (Carrier.common x.carrier y.carrier) z := by
    intro z hz
    obtain ⟨hlow, hhigh⟩ := hz
    rw [hx, Carrier.common]
    have hpromote : Carrier.uint64.promote = .uint64 := by decide
    rw [hpromote]
    split_ifs with hwide
    · have hbits : 64 < y.carrier.promote.bits := by
        rcases hwide with hlt | ⟨-, hsigned⟩
        · exact hlt
        · cases hsigned
      have hpow : (2 : Int) ^ 64 ≤ 2 ^ (y.carrier.promote.bits - 1) := by
        exact_mod_cast Nat.pow_le_pow_right (by decide : 0 < 2) (by omega)
      have hpow' : (2 : Int) ^ 64 ≤ 2 ^ y.carrier.promote.bits := by
        exact_mod_cast Nat.pow_le_pow_right (by decide : 0 < 2) (by omega)
      rw [Represents]
      split_ifs
      · exact ⟨by omega, by omega⟩
      · exact ⟨hlow, by omega⟩
    · exact ⟨hlow, hhigh⟩
  rw [compare_eq (hcommon _ hxv) (hcommon _ hyv), truthy_ofBool]

theorem compare_signed {rel : Int → Int → Bool} {x : BitVec 64} {y : CValue}
    (hy : y.carrier = .int64 ∨ y.carrier = .int) :
    truthy (compare rel (.ofI64 x) y) = rel x.toInt y.toInt := by
  have hcommon : Carrier.common (CValue.ofI64 x).carrier y.carrier = .int64 := by
    change Carrier.common .int64 y.carrier = .int64
    rcases hy with hy | hy
    · rw [hy]
      decide
    · rw [hy]
      decide
  have hlow := BitVec.le_toInt x
  have hhigh := BitVec.toInt_lt (x := x)
  have hrepr : Represents .int64 y.toInt := by
    obtain ⟨carrier, pattern⟩ := y
    rcases hy with rfl | rfl
    · exact ⟨BitVec.le_toInt pattern, BitVec.toInt_lt⟩
    · have hlow := BitVec.le_toInt pattern
      have hhigh := BitVec.toInt_lt (x := pattern)
      change -2 ^ 63 ≤ pattern.toInt ∧ pattern.toInt < 2 ^ 63
      change -2 ^ 31 ≤ pattern.toInt at hlow
      change pattern.toInt < 2 ^ 31 at hhigh
      omega
  rw [compare_eq (by rw [hcommon]; exact ⟨hlow, hhigh⟩) (by rw [hcommon]; exact hrepr),
    truthy_ofBool]
  rfl

/-- The word of a local of at most 64 bits. -/
def word (signed : Bool) (x : BitVec 64) : CValue :=
  if signed then .ofI64 x else .ofU64 x

/-- Words are compared as unsigned ones as soon as one of them is unsigned. -/
theorem compare_words {rel : Int → Int → Bool} {signed signed' : Bool}
    (h : (signed && signed') = false) (x y : BitVec 64) :
    truthy (compare rel (word signed x) (word signed' y)) = rel x.toNat y.toNat := by
  have hcarrier : ∀ (b : Bool) (z : BitVec 64),
      (word b z).carrier = if b then .int64 else .uint64 := by
    intro b z
    cases b <;> rfl
  have hcommon : ∀ b b' : Bool, (b && b') = false →
      Carrier.common (if b then .int64 else .uint64) (if b' then .int64 else .uint64) =
        .uint64 := by
    decide
  have hcast : ∀ (b : Bool) (z : BitVec 64), ((word b z).cast .uint64).toInt = z.toNat := by
    intro b z
    cases b with
    | false => exact congrArg (fun p : BitVec 64 => (p.toNat : Int)) (BitVec.setWidth_eq z)
    | true => exact congrArg (fun p : BitVec 64 => (p.toNat : Int)) (BitVec.signExtend_eq z)
  rw [CppExpressions.compare, truthy_ofBool, hcarrier, hcarrier, hcommon _ _ h, hcast, hcast]

theorem add_one_signed (x : BitVec 64) : add (.ofI64 x) ⟨.int, 1⟩ = .ofI64 (x + 1) := by
  have hsum : BitVec.signExtend 64 x + BitVec.signExtend 64 (1 : BitVec 32) = x + 1 := by
    rw [BitVec.signExtend_eq]
    rfl
  exact congrArg CValue.ofI64 hsum

theorem add_one_unsigned (x : BitVec 64) : add (.ofU64 x) ⟨.int, 1⟩ = .ofU64 (x + 1) := by
  have hsum : BitVec.setWidth 64 x + BitVec.signExtend 64 (1 : BitVec 32) = x + 1 := by
    rw [BitVec.setWidth_eq]
    rfl
  exact congrArg CValue.ofU64 hsum

/-- The step of a counter, whatever its type. -/
theorem exec_increment (w : World Rest) (var : LocalId) :
    exec I (increment var) w = w.set var (w.locals var + 1) := by
  have hadd : (add (localValue I w var) ⟨.int, 1⟩).toU64 = w.locals var + 1 := by
    rw [localValue]
    split_ifs
    · rw [add_one_signed]
      exact BitVec.signExtend_eq _
    · rw [add_one_unsigned]
      exact BitVec.setWidth_eq _
  change w.set var (add (localValue I w var) ⟨.int, 1⟩).toU64 = _
  rw [hadd]

theorem literalValue_toInt {value : Nat} (h : value < 2 ^ 64) (ty : IrType) :
    (literalValue I value ty).toInt = literalInt value ty := by
  cases ty with
  | sint w => rfl
  | uint w => rfl
  | _ => exact BoundedCount.decimal_toInt I.cc h

variable {I} {L : LeafLowering Ast Atom Leaf Op LeafError} {names valueNames : NameTable}
  {ast : Ast} {e : Expr Leaf} {fallback : IrType} {v : Int} {w : World Rest}

/-- The type that the code reads off the operand. -/
def operandTy (L : LeafLowering Ast Atom Leaf Op LeafError) (names : NameTable) (e : Expr Leaf)
    (fallback : IrType) : Option IrType :=
  L.exprType (stashIfImpure L names e fallback).names (stashIfImpure L names e fallback).expr

theorem operand_cases (laws : LocalLaws L) (hv : BoundValue L valueNames ast e v)
    (hheld : Held I (stashIfImpure L names e fallback) v w) :
    (∃ value ty, operandTy L names e fallback = some ty ∧ value < 2 ^ 64 ∧
        v = literalInt value ty ∧ (stashIfImpure L names e fallback).expr = .literal value ty ∧
        CppExpressions.value I w (stashIfImpure L names e fallback).expr =
          literalValue I value ty) ∨
      ∃ ty t, operandTy L names e fallback = some ty ∧
        (stashIfImpure L names e fallback).expr = .local t ∧ Planned ty (I.types t) v ∧
        CppExpressions.value I w (stashIfImpure L names e fallback).expr =
          if isSint (I.types t) then .ofI64 (BitVec.ofInt 64 v)
          else .ofU64 (BitVec.ofInt 64 v) := by
  rcases stash_cases laws names e fallback with ⟨value, ty, rfl, heq⟩ | ⟨-, hexpr, hlocal, hty⟩
  · obtain ⟨hlt, hvalue⟩ := hv.literal value ty rfl
    refine Or.inl ⟨value, ty, ?_, hlt, hvalue, congrArg LoweredExpr.expr heq, ?_⟩
    · rw [operandTy, heq]
      exact laws.typeOfLiteral names value ty
    · rw [heq]
      rfl
  · obtain ⟨hword, hplanned⟩ := hheld _ hexpr
    obtain ⟨declared, htypes, hplanned⟩ := hplanned _ hexpr
    rw [hlocal] at htypes
    obtain rfl := Option.some.inj htypes
    refine Or.inr ⟨stashTy L names e fallback, _, hty, hexpr, hplanned, ?_⟩
    rw [hexpr, CppExpressions.value, localValue, hword]

theorem operand_signed (laws : LocalLaws L) (hv : BoundValue L valueNames ast e v)
    (hheld : Held I (stashIfImpure L names e fallback) v w) {width : Option Nat}
    (hty : operandTy L names e fallback = some (.sint width)) :
    CppExpressions.value I w (stashIfImpure L names e fallback).expr =
      .ofI64 (BitVec.ofInt 64 v) := by
  rcases operand_cases laws hv hheld with
    ⟨value, ty, hty', -, hv', -, heq⟩ | ⟨ty, t, hty', -, hplanned, heq⟩
  · obtain rfl := Option.some.inj (hty'.symm.trans hty)
    rw [heq, hv', literalInt, BitVec.ofInt_toInt, literalValue]
  · obtain rfl := Option.some.inj (hty'.symm.trans hty)
    rcases hplanned with hactual | ⟨hunknown, -⟩
    · rw [heq, hactual]
      rfl
    · cases hunknown

theorem operand_unsigned (laws : LocalLaws L) (hv : BoundValue L valueNames ast e v)
    (hheld : Held I (stashIfImpure L names e fallback) v w)
    (hty : ∀ width, operandTy L names e fallback ≠ some (.sint width)) (hin : InUnsigned v) :
    (CppExpressions.value I w (stashIfImpure L names e fallback).expr).toInt = v := by
  rcases operand_cases laws hv hheld with
    ⟨value, ty, -, hlt, hv', -, heq⟩ | ⟨ty, t, hty', -, hplanned, heq⟩
  · rw [heq, hv', literalValue_toInt I hlt]
  · rw [heq]
    cases hsint : isSint (I.types t) with
    | false => exact toInt_ofU64 hin
    | true =>
        rcases hplanned with hactual | ⟨-, hsigned⟩
        · rw [hactual] at hsint
          cases ty with
          | sint width => exact absurd hty' (hty width)
          | _ => cases hsint
        · exact toInt_ofI64 (hsigned hsint)

theorem toNat_ofInt_word (v : Int) : ((BitVec.ofInt 64 v).toNat : Int) = v % 2 ^ 64 := by
  rw [BitVec.toNat_ofInt]
  omega

/-- An unsigned counter is compared with the residue of the bound. -/
theorem compare_operand (laws : LocalLaws L) (hv : BoundValue L valueNames ast e v)
    (hheld : Held I (stashIfImpure L names e fallback) v w)
    (hty : ∀ width, operandTy L names e fallback ≠ some (.sint width)) {i : Int}
    (hi : InUnsigned i) (rel : Int → Int → Bool) :
    truthy (compare rel (.ofU64 (BitVec.ofInt 64 i))
      (CppExpressions.value I w (stashIfImpure L names e fallback).expr)) =
        rel i (v % 2 ^ 64) := by
  have hcounter := toInt_ofU64 hi
  rcases operand_cases laws hv hheld with
    ⟨value, ty, hty', hlt, hv', -, heq⟩ | ⟨ty, t, -, -, -, heq⟩
  · have hread := literalValue_toInt I hlt ty
    rw [← hv'] at hread
    have hin : InUnsigned v := by
      rw [hv']
      cases ty with
      | sint width => exact absurd hty' (hty width)
      | uint width => exact ⟨Int.natCast_nonneg _, by
          have := (BitVec.ofNat 64 value).isLt
          change ((BitVec.ofNat 64 value).toNat : Int) < _
          omega⟩
      | _ => exact ⟨Int.natCast_nonneg _, by
          change (value : Int) < _
          omega⟩
    rw [heq, compare_unsigned rfl (by rwa [hcounter]) (by rwa [hread]), hcounter, hread,
      Int.emod_eq_of_lt hin.1 hin.2]
  · rw [heq]
    refine (compare_words (Bool.false_and _) _ _).trans ?_
    rw [toNat_ofInt_word, toNat_ofInt_word, Int.emod_eq_of_lt hi.1 hi.2]

/-- The operand keeps a known type. -/
theorem operandTy_of_known (laws : LocalLaws L) {ty : IrType} (hknown : ty ≠ .unknown)
    (hstable : L.exprType names.freshTemp.2 e = L.exprType valueNames e)
    (hty : L.exprType valueNames e = some ty) : operandTy L names e fallback = some ty := by
  rcases stash_cases laws names e fallback with ⟨value, ty', rfl, heq⟩ | ⟨-, -, -, hstash⟩
  · rw [laws.typeOfLiteral] at hty
    rw [operandTy, heq]
    exact (laws.typeOfLiteral names value ty').trans hty
  · rw [operandTy, hstash, stashTy, hstable, hty]
    exact congrArg some (if_neg hknown)

/-- An unknown bound is given the type of the counter. -/
theorem operandTy_of_unknown (laws : LocalLaws L) (fallback : IrType)
    (hstable : L.exprType names.freshTemp.2 e = L.exprType valueNames e)
    (hty : L.exprType valueNames e = some .unknown ∨ L.exprType valueNames e = none) :
    (∃ value, e = .literal value .unknown ∧ operandTy L names e fallback = some .unknown) ∨
      (∀ value ty, e ≠ .literal value ty) ∧ operandTy L names e fallback = some fallback := by
  rcases stash_cases laws names e fallback with ⟨value, ty', rfl, heq⟩ | ⟨hne, -, -, hstash⟩
  · rw [laws.typeOfLiteral] at hty
    obtain rfl : ty' = .unknown := by
      rcases hty with hty | hty
      · exact Option.some.inj hty
      · cases hty
    refine Or.inl ⟨value, rfl, ?_⟩
    rw [operandTy, heq]
    exact laws.typeOfLiteral names value .unknown
  · refine Or.inr ⟨hne, ?_⟩
    rw [operandTy, hstash, stashTy, hstable]
    rcases hty with hty | hty
    · rw [hty]
      rfl
    · rw [hty]

/-- A type that a bound can have. -/
theorem BoundValue.type_cases (hv : BoundValue L valueNames ast e v) :
    (∃ width, L.exprType valueNames e = some (.sint width)) ∨
      (∃ width, L.exprType valueNames e = some (.uint width) ∧ InUnsigned v) ∨
      (L.exprType valueNames e = some .unknown ∨ L.exprType valueNames e = none) := by
  have hin := hv.inType
  revert hin
  rcases L.exprType valueNames e with _ | ty
  · exact fun _ => Or.inr (Or.inr (Or.inr rfl))
  · cases ty with
    | sint width => exact fun _ => Or.inl ⟨width, rfl⟩
    | uint width => exact fun hin => Or.inr (Or.inl ⟨width, rfl, hin.2⟩)
    | unknown => exact fun _ => Or.inr (Or.inr (Or.inl rfl))
    | _ => exact False.elim

/-- A bound that is signed by its value and not by its type is negative. -/
theorem BoundValue.negative (hv : BoundValue L valueNames ast e v)
    (hsigned : rangeBoundRequiresSigned L valueNames ast e = true)
    (hty : ∀ width, L.exprType valueNames e ≠ some (.sint width)) : v < 0 := by
  rw [rangeBoundRequiresSigned, Bool.or_eq_true] at hsigned
  rcases hsigned with hsint | hconst
  · split at hsint
    · rename_i width heq
      exact absurd heq (hty width)
    · cases hsint
  · split at hconst
    · rename_i c heq
      rw [← hv.const c heq]
      exact of_decide_eq_true hconst
    · cases hconst

theorem operandTy_of_signed (laws : LocalLaws L) (hv : BoundValue L valueNames ast e v)
    (hstable : L.exprType names.freshTemp.2 e = L.exprType valueNames e)
    (hsigned : rangeBoundRequiresSigned L valueNames ast e = true) :
    ∃ width, operandTy L names e (.sint none) = some (.sint width) := by
  rcases hv.type_cases with ⟨width, hty⟩ | ⟨width, hty, hin⟩ | hty
  · exact ⟨width, operandTy_of_known laws nofun hstable hty⟩
  · have hneg : v < 0 := hv.negative hsigned fun width' hsint => by
      rw [hty] at hsint
      cases hsint
    exact absurd hin.1 (Int.not_le.mpr hneg)
  · have hneg : v < 0 := hv.negative hsigned fun width' hsint => by
      rcases hty with hty | hty <;> rw [hty] at hsint <;> cases hsint
    rcases operandTy_of_unknown laws (.sint none) hstable hty with
      ⟨value, rfl, -⟩ | ⟨-, hty'⟩
    · have hvalue : v = value := (hv.literal value .unknown rfl).2
      omega
    · exact ⟨none, hty'⟩

theorem operandTy_of_unsigned (laws : LocalLaws L) (fallback : IrType)
    (hv : BoundValue L valueNames ast e v)
    (hstable : L.exprType names.freshTemp.2 e = L.exprType valueNames e)
    (hsigned : rangeBoundRequiresSigned L valueNames ast e = false) :
    (∃ width, operandTy L names e fallback = some (.uint width)) ∨
      operandTy L names e fallback = some .unknown ∨
      Guessed L valueNames e ∧ operandTy L names e fallback = some fallback := by
  rcases hv.type_cases with ⟨width, hty⟩ | ⟨width, hty, -⟩ | hty
  · exact absurd hty (not_sint_of_unsigned hsigned width)
  · exact Or.inl ⟨width, operandTy_of_known laws nofun hstable hty⟩
  · rcases operandTy_of_unknown laws fallback hstable hty with
      ⟨value, -, hty'⟩ | ⟨hne, hty'⟩
    · exact Or.inr (Or.inl hty')
    · exact Or.inr (Or.inr ⟨⟨hne, hty⟩, hty'⟩)

theorem operandTy_of_guessed (laws : LocalLaws L) (fallback : IrType)
    (hstable : L.exprType names.freshTemp.2 e = L.exprType valueNames e)
    (hguessed : Guessed L valueNames e) : operandTy L names e fallback = some fallback := by
  rcases operandTy_of_unknown laws fallback hstable hguessed.2 with
    ⟨value, rfl, -⟩ | ⟨-, hty⟩
  · exact absurd rfl (hguessed.1 value .unknown)
  · exact hty

theorem unsignedUpper_of_sint {width : Option Nat}
    (hty : L.exprType names e = some (.sint width)) : unsignedUpper L names ast e = false := by
  rw [unsignedUpper, hty, Bool.and_false]

theorem unsignedUpper_of_unsigned
    (hsigned : rangeBoundRequiresSigned L valueNames ast e = false)
    {e' : Expr Leaf} (hty : (∃ width, L.exprType names e' = some (.uint width)) ∨
      L.exprType names e' = some .unknown) : unsignedUpper L names ast e' = true := by
  rw [rangeBoundRequiresSigned, Bool.or_eq_false_iff] at hsigned
  have hconst : ∀ c, L.foldConst ast = some c → decide (c.exact < 0) = false := by
    intro c hc
    rw [hc] at hsigned
    exact hsigned.2
  rw [unsignedUpper]
  cases hfold : L.foldConst ast with
  | none =>
      rcases hty with ⟨width, hty⟩ | hty
      all_goals
        rw [hty]
        rfl
  | some c =>
      rcases hty with ⟨width, hty⟩ | hty
      all_goals
        rw [hty]
        simp only [hconst c hfold]
        rfl

end Operands

/-! ### The three kinds of heads -/

namespace RangeHead

variable {L : LeafLowering Ast Atom Leaf Op LeafError} {names : NameTable}
  {varName : String} {lo hi : Ast} (r : RangeHead L names varName lo hi) {vlo vhi : Int}

/-- Typing the counter and adding the temporary leave the type of the upper bound. -/
def Stable : Prop :=
  L.exprType r.typed.freshTemp.2 r.hiIr.expr = L.exprType r.bound r.hiIr.expr

def LowerValue (v : Int) : Prop := BoundValue L r.loIr.names lo r.loIr.expr v

def UpperValue (v : Int) : Prop := BoundValue L r.bound hi r.hiIr.expr v

def upperTy : Option IrType := operandTy L r.typed r.hiIr.expr r.varTy

structure PlainUnsigned (vlo vhi : Int) : Prop where
  signed : r.signed = false
  upper : ∀ width, r.upperTy ≠ some (.sint width)
  lowerIn : Carries L r.loIr.names r.loIr.expr vlo
  upperIn : Carries L r.bound r.hiIr.expr vhi

structure PlainSigned : Prop where
  signed : r.signed = true
  mixed : r.mixed = false
  upper : ∃ width, r.upperTy = some (.sint width)
  guessed : r.hiSigned = false → Guessed L r.bound r.hiIr.expr

structure Mixed (vlo vhi : Int) : Prop where
  loSigned : r.loSigned = true
  hiSigned : r.hiSigned = false
  mixed : r.mixed = true
  known : ¬ Guessed L r.bound r.hiIr.expr
  upper : ∀ width, r.upperTy ≠ some (.sint width)
  lowerIn : InSigned vlo
  upperIn : InUnsigned vhi

theorem mixed_of_sint {width : Option Nat} (hty : r.upperTy = some (.sint width)) :
    r.mixed = false := by
  have hupper : unsignedUpper L r.operand.names hi r.operand.expr = false :=
    unsignedUpper_of_sint hty
  rw [mixed, hupper, Bool.and_false]

theorem head_cases (laws : LocalLaws L) (hstable : r.Stable) (hlo : r.LowerValue vlo)
    (hhi : r.UpperValue vhi) :
    r.PlainUnsigned vlo vhi ∨ r.PlainSigned ∨ r.Mixed vlo vhi := by
  cases hsigned : r.signed with
  | false =>
      obtain ⟨hloSigned, hhiSigned⟩ := Bool.or_eq_false_iff.mp hsigned
      have hvarTy : r.varTy = .unknown := by simp [varTy, hsigned]
      refine Or.inl ⟨hsigned, ?_, hlo.carries laws hloSigned, hhi.carries laws hhiSigned⟩
      intro width hty
      rw [upperTy, hvarTy] at hty
      rcases operandTy_of_unsigned laws .unknown hhi hstable hhiSigned with
        ⟨width', hty'⟩ | hty' | ⟨-, hty'⟩
      all_goals cases hty'.symm.trans hty
  | true =>
      have hvarTy : r.varTy = .sint none := by simp [varTy, hsigned]
      cases hhiSigned : r.hiSigned with
      | true =>
          obtain ⟨width, hty⟩ := operandTy_of_signed laws hhi hstable hhiSigned
          rw [← hvarTy] at hty
          refine Or.inr (Or.inl ⟨hsigned, ?_, ⟨width, hty⟩, ?_⟩)
          · exact r.mixed_of_sint hty
          · intro hfalse
            rw [hhiSigned] at hfalse
            cases hfalse
      | false =>
          have hloSigned : r.loSigned = true := by
            simpa [RangeHead.signed, hhiSigned] using hsigned
          have hlowerIn := hlo.inSigned hloSigned
          have hupperIn := hhi.carries laws hhiSigned
          have hunsigned : (∃ width, r.upperTy = some (.uint width)) ∨
              r.upperTy = some .unknown → r.Mixed vlo vhi := by
            intro hty
            have hknown : ¬ Guessed L r.bound r.hiIr.expr := by
              intro hguessed
              have hfallback := operandTy_of_guessed laws r.varTy hstable hguessed
              rw [hvarTy] at hfallback
              rcases hty with ⟨width, hty⟩ | hty
              all_goals
                rw [upperTy, hvarTy] at hty
                cases hty.symm.trans hfallback
            refine ⟨hloSigned, hhiSigned, ?_, hknown, ?_, hlowerIn,
              hupperIn.resolve_right fun hnegative => hknown hnegative.2.2⟩
            · rw [mixed, hsigned, Bool.true_and]
              exact unsignedUpper_of_unsigned hhiSigned hty
            · intro width hsint
              rcases hty with ⟨width', hty⟩ | hty
              all_goals cases hty.symm.trans hsint
          rcases operandTy_of_unsigned laws r.varTy hhi hstable hhiSigned with
            hty | hty | ⟨hguessed, hty⟩
          · exact Or.inr (Or.inr (hunsigned (Or.inl hty)))
          · exact Or.inr (Or.inr (hunsigned (Or.inr hty)))
          · have hsint : r.upperTy = some (.sint none) := hvarTy ▸ hty
            exact Or.inr (Or.inl ⟨hsigned, r.mixed_of_sint hsint, ⟨none, hsint⟩,
              fun _ => hguessed⟩)

end RangeHead

end Harc.RangeLoops
