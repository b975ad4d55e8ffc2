import Harc.TwosComplement
import Harc.WordLists

/-!
What is known of a scalar value without running the program (`src/ir/scalar.rs`): a width, a
signedness, an exact value, and whether the width bounds it as an unsigned number.

A value of 128 bits of the source is an integer, with the checks of its operations.
-/

namespace Harc.ScalarEvidence

open Harc.TwosComplement

/-! ### Expressions -/

inductive IrType where
  | uint (width : Option Nat)
  | sint (width : Option Nat)
  | bool
  | unknown
  /-- Texts, records, sequences and the like. -/
  | other
  deriving DecidableEq, Repr

inductive BinOp where
  | add | sub | mul | div | mod
  | eq | ne | lt | le | gt | ge
  | and | or
  | bitAnd | bitOr | bitXor
  | shl | shr
  deriving DecidableEq, Repr

inductive UnOp where
  | neg | not | bitNot | bitNotHost
  deriving DecidableEq, Repr

/-- Expressions; a leaf stands for every form that is read through its type. -/
inductive Expr where
  | literal (value : BitVec 64) (ty : IrType)
  | wideLiteral (words : List (BitVec 32))
  | binary (op : BinOp) (lhs rhs : Expr)
  | ternary (cond thenValue elseValue : Expr)
  | unary (op : UnOp) (inner : Expr)
  | leaf (id : Nat)
  deriving DecidableEq, Repr

/-! ### Bits -/

def nonnegativeValueBits (value : Nat) : Nat := max (Nat.size value) 1

def signedValueBits (value : Int) : Nat :=
  if value = 0 then 1
  else if 0 ≤ value then nonnegativeValueBits value.toNat + 1
  else Nat.size (-1 - value).toNat + 1

def contextualValueBits (value : Int) (signed : Bool) : Option Nat :=
  if signed then some (signedValueBits value)
  else if value < 0 then none
  else some (nonnegativeValueBits value.toNat)

/-- The place of the highest bit of the little-endian words. -/
def wideLiteralBits (words : List (BitVec 32)) : Nat :=
  match words.zipIdx.reverse.find? fun entry => entry.1 ≠ 0 with
  | none => 1
  | some (word, index) => index * 32 + Nat.size word.toNat

/-! ### Arithmetic of 128 bits -/

def inI128 (v : Int) : Prop := -2 ^ 127 ≤ v ∧ v < 2 ^ 127

instance (v : Int) : Decidable (inI128 v) := inferInstanceAs (Decidable (_ ∧ _))

def checked (v : Int) : Option Int := if inI128 v then some v else none

def checkedRem (a b : Int) : Option Int :=
  if a = -2 ^ 127 ∧ b = -1 then none else some (Int.tmod a b)

def checkedShl (v : Int) (shift : Nat) : Option Int :=
  if shift < 128 then some (Int.bmod (v * 2 ^ shift) (2 ^ 128)) else none

def checkedShr (v : Int) (shift : Nat) : Option Int :=
  if shift < 128 then some (v / 2 ^ shift) else none

def u32Max : Nat := 2 ^ 32 - 1

/-- `u32::try_from` -/
def toU32 (v : Int) : Option Nat := if 0 ≤ v ∧ v ≤ u32Max then some v.toNat else none

/-- `u32::checked_add` -/
def checkedAddU32 (a b : Nat) : Option Nat := if a + b ≤ u32Max then some (a + b) else none

/-! ### Evidence -/

structure IntegerEvidence where
  width : Option Nat
  signed : Option Bool
  exact : Option Int
  unsignedBound : Bool
  deriving DecidableEq, Repr

inductive ScalarValueEvidence where
  | bool
  | integer (e : IntegerEvidence)
  deriving DecidableEq, Repr

open ScalarValueEvidence

def fromType : IrType → Option ScalarValueEvidence
  | .bool => some .bool
  | .uint width => some (.integer ⟨width, some false, none, width.isSome⟩)
  | .sint width => some (.integer ⟨width, some true, none, false⟩)
  | _ => none

def ScalarValueEvidence.asInteger : ScalarValueEvidence → IntegerEvidence
  | .bool => ⟨some 1, some false, none, true⟩
  | .integer e => e

def commonEvidenceSign : Option Bool → Option Bool → Option Bool
  | some false, _ => some false
  | _, some false => some false
  | some true, some true => some true
  | some sign, none => some sign
  | none, some sign => some sign
  | none, none => none

def commonEvidenceWidth : Option Nat → Option Nat → Option Nat
  | some lhs, some rhs => some (max lhs rhs)
  | width, none => width
  | none, width => width

def evidenceWidthForSign (e : IntegerEvidence) (resultSigned : Bool) : Option Nat :=
  if e.signed.isNone then
    (e.exact.bind fun value => contextualValueBits value resultSigned).or e.width
  else e.width

def literalEvidence (value : BitVec 64) : IrType → Option ScalarValueEvidence
  | .bool => some .bool
  | .unknown | .uint none =>
      some (.integer ⟨some (nonnegativeValueBits value.toNat), none, some value.toNat, true⟩)
  | .sint none =>
      let exact := value.toInt
      some (.integer ⟨contextualValueBits exact (exact < 0), none, some exact, 0 ≤ exact⟩)
  | ty => fromType ty

def BinOp.isBoolean : BinOp → Bool
  | .eq | .ne | .lt | .le | .gt | .ge | .and | .or => true
  | _ => false

def shiftEvidence (op : BinOp) (l r : IntegerEvidence) : IntegerEvidence :=
  let shift := r.exact.bind toU32
  let result : Option Nat × Option Int :=
    match op, l.signed, l.exact, shift with
    | .shl, none, some value, some shift =>
        let width :=
          if value = 0 then some 1
          else (contextualValueBits value (value < 0)).bind fun width => checkedAddU32 width shift
        let exact :=
          (width.filter fun width => width ≤ if value < 0 then 128 else 127).bind fun _ =>
            checkedShl value shift
        (width, exact)
    | .shr, none, some value, some shift =>
        if shift < 128 then
          let exact := checkedShr value shift
          (exact.bind fun value => contextualValueBits value (value < 0), exact)
        else (l.width, none)
    | _, _, _, _ => (l.width, none)
  ⟨result.1, l.signed, result.2, l.unsignedBound⟩

def exactResult (op : BinOp) (l r : Option Int) : Option Int :=
  match op, l, r with
  | .add, some a, some b => checked (a + b)
  | .sub, some a, some b => checked (a - b)
  | .mul, some a, some b => checked (a * b)
  | .div, some a, some b => if b ≠ 0 then checked (Int.tdiv a b) else none
  | .mod, some a, some b => if b ≠ 0 then checkedRem a b else none
  | .bitAnd, some a, some b => some (Int.land a b)
  | .bitOr, some a, some b => some (Int.lor a b)
  | .bitXor, some a, some b => some (Int.xor a b)
  | _, _, _ => none

/-- The width of an operand that it bounds as an unsigned number. -/
def IntegerEvidence.bound (e : IntegerEvidence) : Option Nat :=
  if e.unsignedBound then e.width else none

/-- The minimum of those that are there. -/
def minWidth : Option Nat → Option Nat → Option Nat
  | some a, some b => some (min a b)
  | width, none => width
  | none, width => width

def bitAndEvidence (l r : IntegerEvidence) : IntegerEvidence :=
  let width := (minWidth l.bound r.bound).or (commonEvidenceWidth l.width r.width)
  let unsignedBound := width.isSome && (l.unsignedBound || r.unsignedBound)
  { width := width
    signed := if unsignedBound then some false else commonEvidenceSign l.signed r.signed
    exact := exactResult .bitAnd l.exact r.exact
    unsignedBound := unsignedBound }

def plainEvidence (op : BinOp) (l r : IntegerEvidence) : IntegerEvidence :=
  let exact := exactResult op l.exact r.exact
  let signed := commonEvidenceSign l.signed r.signed
  let resultSigned := signed.getD false
  let width :=
    ((exact.bind fun value => contextualValueBits value (value < 0)).filter fun _ =>
        signed.isNone).or
      (commonEvidenceWidth (evidenceWidthForSign l resultSigned)
        (evidenceWidthForSign r resultSigned))
  { width := width
    signed := signed
    exact := exact
    unsignedBound := signed == some false && width.isSome }

def binaryEvidence (op : BinOp) (l r : IntegerEvidence) : IntegerEvidence :=
  match op with
  | .shl | .shr => shiftEvidence op l r
  | .bitAnd => bitAndEvidence l r
  | _ => plainEvidence op l r

def ternaryEvidence (t e : IntegerEvidence) : IntegerEvidence :=
  let signed := commonEvidenceSign t.signed e.signed
  let resultSigned := signed.getD false
  { width := commonEvidenceWidth (evidenceWidthForSign t resultSigned)
      (evidenceWidthForSign e resultSigned)
    signed := signed
    exact := if t.exact = e.exact then t.exact else none
    unsignedBound := t.unsignedBound && e.unsignedBound }

def unaryEvidence (op : UnOp) (e : IntegerEvidence) : IntegerEvidence :=
  let exact := if op = .neg then e.exact.bind fun value => checked (-value) else none
  let width :=
    match e.signed, exact with
    | none, some value => contextualValueBits value (value < 0)
    | _, _ => e.width
  ⟨width, e.signed, exact, e.unsignedBound && op != .neg⟩

def scalarValueEvidence (leafType : Nat → Option IrType) : Expr → Option ScalarValueEvidence
  | .literal value ty => literalEvidence value ty
  | .wideLiteral words => some (.integer ⟨some (wideLiteralBits words), some false, none, true⟩)
  | .binary op lhs rhs =>
      if op.isBoolean then some .bool
      else do
        let l ← scalarValueEvidence leafType lhs
        let r ← scalarValueEvidence leafType rhs
        return .integer (binaryEvidence op l.asInteger r.asInteger)
  | .ternary _ thenValue elseValue => do
      let t ← scalarValueEvidence leafType thenValue
      let e ← scalarValueEvidence leafType elseValue
      match t, e with
      | .bool, .bool => return .bool
      | t, e => return .integer (ternaryEvidence t.asInteger e.asInteger)
  | .unary .not _ => some .bool
  | .unary op inner => do
      match ← scalarValueEvidence leafType inner with
      | .integer e => return .integer (unaryEvidence op e)
      | .bool => none
  | .leaf id => (leafType id).bind fromType

/-! ### Values -/

section Values

variable (leafType : Nat → Option IrType)

/-- The width and the signedness that an operand is declared with. -/
def declared : Expr → Option (Nat × Bool)
  | .literal _ (.uint (some w)) => some (w, false)
  | .literal _ (.sint (some w)) => some (w, true)
  | .leaf id =>
      match leafType id with
      | some (.uint (some w)) => some (w, false)
      | some (.sint (some w)) => some (w, true)
      | _ => none
  | _ => none

def literalValue (value : BitVec 64) : IrType → Int
  | .sint _ => value.toInt
  | .bool => if value = 0 then 0 else 1
  | _ => value.toNat

def ofBool (b : Bool) : Int := if b then 1 else 0

/-- A left shift stays within the width of a declared operand. -/
def shiftLeft (shape : Option (Nat × Bool)) (v count : Int) : Int :=
  let shifted := if count < 0 then 0 else v * 2 ^ count.toNat
  match shape with
  | some (w, false) => shifted % 2 ^ w
  | some (w, true) => if w = 0 then 0 else Int.bmod shifted (2 ^ w)
  | none => shifted

/-- A count that is negative is huge as the unsigned number that the shift takes. -/
def shiftRight (v count : Int) : Int :=
  if count < 0 then (if v < 0 then -1 else 0) else v / 2 ^ count.toNat

def complement (shape : Option (Nat × Bool)) (v : Int) : Int :=
  match shape with
  | some (w, false) => 2 ^ w - 1 - v
  | _ => -1 - v

/-- The result of an operator on two values; a division by zero has none. -/
def applyBinary (shape : Option (Nat × Bool)) (op : BinOp) (a b : Int) : Option Int :=
  match op with
  | .add => some (a + b)
  | .sub => some (a - b)
  | .mul => some (a * b)
  | .div => if b = 0 then none else some (Int.tdiv a b)
  | .mod => if b = 0 then none else some (Int.tmod a b)
  | .eq => some (ofBool (a = b))
  | .ne => some (ofBool (a ≠ b))
  | .lt => some (ofBool (a < b))
  | .le => some (ofBool (a ≤ b))
  | .gt => some (ofBool (b < a))
  | .ge => some (ofBool (b ≤ a))
  | .and => some (ofBool (a ≠ 0 ∧ b ≠ 0))
  | .or => some (ofBool (a ≠ 0 ∨ b ≠ 0))
  | .bitAnd => some (Int.land a b)
  | .bitOr => some (Int.lor a b)
  | .bitXor => some (Int.xor a b)
  | .shl => some (shiftLeft shape a b)
  | .shr => some (shiftRight a b)

def applyUnary (shape : Option (Nat × Bool)) (op : UnOp) (v : Int) : Int :=
  match op with
  | .neg => -v
  | .not => ofBool (v = 0)
  | .bitNot => complement shape v
  | .bitNotHost => -1 - v

variable (env : Nat → Int)

/-- The exact value of an expression, under values for the leaves.  The logical operators look
at their second operand only where the first does not decide. -/
def value : Expr → Option Int
  | .literal v ty => some (literalValue v ty)
  | .wideLiteral words => some (WordLists.value words)
  | .binary .and lhs rhs =>
      (value lhs).bind fun a =>
        if a = 0 then some 0 else (value rhs).map fun b => ofBool (b ≠ 0)
  | .binary .or lhs rhs =>
      (value lhs).bind fun a =>
        if a ≠ 0 then some 1 else (value rhs).map fun b => ofBool (b ≠ 0)
  | .binary op lhs rhs =>
      (value lhs).bind fun a =>
        (value rhs).bind fun b => applyBinary (declared leafType lhs) op a b
  | .ternary cond thenValue elseValue =>
      (value cond).bind fun c => if c ≠ 0 then value thenValue else value elseValue
  | .unary op inner => (value inner).map fun v => applyUnary (declared leafType inner) op v
  | .leaf id => some (env id)

end Values

/-- The values of a type. -/
def OfType (v : Int) : IrType → Prop
  | .uint (some w) => 0 ≤ v ∧ v < 2 ^ w
  | .sint (some w) => InRange (w - 1) v
  | .bool => v = 0 ∨ v = 1
  | _ => True

/-- The value lies in the range that the evidence reports. -/
def InReported (v : Int) : ScalarValueEvidence → Prop
  | .bool => v = 0 ∨ v = 1
  | .integer e => ∀ w s, e.width = some w → e.signed = some s →
      OfType v (if s then .sint (some w) else .uint (some w))

/-! ### The expressions on which the evidence is sound -/

namespace IntegerEvidence

/-- An operand that is not negative, within a known width. -/
def Unsigned (e : IntegerEvidence) : Prop :=
  (e.unsignedBound = true ∧ e.width.isSome = true ∧ e.signed ≠ some true) ∨
    (e.signed = none ∧ ∃ v : Int, 0 ≤ v ∧ e.exact = some v)

/-- An operand that is signed, or an untyped literal. -/
def Signed (e : IntegerEvidence) : Prop :=
  (e.signed = some true ∧ e.width.isSome = true) ∨ (e.signed = none ∧ e.exact.isSome = true)

def Untyped (l r : IntegerEvidence) : Prop := l.signed = none ∧ r.signed = none

/-- The operands have one signedness. -/
def Agree (l r : IntegerEvidence) : Prop :=
  Untyped l r ∨ (l.Unsigned ∧ r.Unsigned) ∨ (l.Signed ∧ r.Signed)

/-- The evidence follows the result of the operator. -/
def Follows (op : BinOp) (shape : Option (Nat × Bool)) (l r : IntegerEvidence) : Prop :=
  match op with
  | .add | .sub | .mul => Untyped l r
  | .div => Untyped l r ∨ (l.Unsigned ∧ r.Unsigned)
  | .mod | .bitOr | .bitXor => Agree l r
  | .bitAnd =>
      l.bound.isSome = true ∨ r.bound.isSome = true ∨
        (l.unsignedBound = false ∧ r.unsignedBound = false ∧
          (Untyped l r ∨ (l.signed = some true ∧ r.signed = some true ∧
            l.width.isSome = true ∧ r.width.isSome = true)))
  | .shl =>
      shape.isSome = true ∨
        (l.signed = none ∧ l.exact.isSome = true ∧ (r.exact.bind toU32).isSome = true ∧
          (shiftEvidence .shl l r).width.isSome = true)
  | _ => True

def UnaryFollows (op : UnOp) (shape : Option (Nat × Bool)) (e : IntegerEvidence) : Prop :=
  match op with
  | .neg => e.signed = none
  | .not => True
  | .bitNot =>
      (e.signed = some true ∧ e.unsignedBound = false) ∨ ∃ w, shape = some (w, false)
  | .bitNotHost => e.signed = some true ∧ e.unsignedBound = false

end IntegerEvidence

/-- At every operator but the Boolean ones the evidence of the operands is enough for that of
the result, and typed literals fit their types. -/
def Tracked (leafType : Nat → Option IrType) : Expr → Prop
  | .literal v ty => OfType (literalValue v ty) ty
  | .wideLiteral _ => True
  | .leaf _ => True
  | .binary op lhs rhs =>
      op.isBoolean = true ∨
        (Tracked leafType lhs ∧ Tracked leafType rhs ∧
          ∀ l r, scalarValueEvidence leafType lhs = some l →
            scalarValueEvidence leafType rhs = some r →
            IntegerEvidence.Follows op (declared leafType lhs) l.asInteger r.asInteger)
  | .ternary _ thenValue elseValue =>
      Tracked leafType thenValue ∧ Tracked leafType elseValue ∧
        ∀ t e, scalarValueEvidence leafType thenValue = some t →
          scalarValueEvidence leafType elseValue = some e →
          IntegerEvidence.Agree t.asInteger e.asInteger
  | .unary op inner =>
      op = .not ∨
        (Tracked leafType inner ∧
          ∀ e, scalarValueEvidence leafType inner = some (.integer e) →
            IntegerEvidence.UnaryFollows op (declared leafType inner) e)

/-! ### Bits of exact values -/

theorem lt_nonnegativeValueBits (n : Nat) : (n : Int) < 2 ^ nonnegativeValueBits n := by
  have hsize := Nat.lt_size_self n
  have hpow : 2 ^ Nat.size n ≤ 2 ^ nonnegativeValueBits n :=
    Nat.pow_le_pow_right (by omega) (le_max_left _ _)
  exact_mod_cast lt_of_lt_of_le hsize hpow

theorem inRange_signedValueBits (v : Int) : InRange (signedValueBits v - 1) v := by
  unfold signedValueBits
  split
  · rename_i hzero
    subst hzero
    exact ⟨by decide, by decide⟩
  · split
    · rename_i hnonneg
      have hlt := lt_nonnegativeValueBits v.toNat
      rw [Int.toNat_of_nonneg hnonneg] at hlt
      rw [Nat.add_sub_cancel]
      exact ⟨by omega, hlt⟩
    · rename_i hneg
      have hlt : ((-1 - v).toNat : Int) < 2 ^ Nat.size (-1 - v).toNat := by
        exact_mod_cast Nat.lt_size_self (-1 - v).toNat
      rw [Int.toNat_of_nonneg (by omega)] at hlt
      rw [Nat.add_sub_cancel]
      exact ⟨by omega, by omega⟩

theorem contextual_unsigned {v : Int} {w : Nat} (h : contextualValueBits v false = some w) :
    0 ≤ v ∧ v < 2 ^ w := by
  rw [contextualValueBits, if_neg Bool.false_ne_true] at h
  split at h
  · cases h
  · rename_i hneg
    rw [Option.some.injEq] at h
    have hlt := lt_nonnegativeValueBits v.toNat
    rw [Int.toNat_of_nonneg (by omega), h] at hlt
    exact ⟨by omega, hlt⟩

theorem contextual_of_nonneg {v : Int} (hv : 0 ≤ v) :
    contextualValueBits v false = some (nonnegativeValueBits v.toNat) := by
  rw [contextualValueBits, if_neg Bool.false_ne_true, if_neg (by omega)]

theorem decide_neg_of_nonneg {v : Int} (hv : 0 ≤ v) : decide (v < 0) = false :=
  decide_eq_false (by omega)

/-! ### Soundness of the parts -/

/-- What the evidence says of a value. -/
structure Sound (e : IntegerEvidence) (v : Int) : Prop where
  exact : ∀ x, e.exact = some x → v = x
  unsigned : ∀ w, e.width = some w → e.signed = some false → 0 ≤ v ∧ v < 2 ^ w
  signed : ∀ w, e.width = some w → e.signed = some true → InRange (w - 1) v
  bound : e.unsignedBound = true → ∃ w, e.width = some w ∧ 0 ≤ v ∧ v < 2 ^ w

/-- The same for evidence that may be Boolean. -/
def Holds (v : Int) : ScalarValueEvidence → Prop
  | .bool => v = 0 ∨ v = 1
  | .integer e => Sound e v

theorem Holds.asInteger {v : Int} {e : ScalarValueEvidence} (h : Holds v e) :
    Sound e.asInteger v := by
  cases e with
  | integer e => exact h
  | bool =>
      have hbit : 0 ≤ v ∧ v < 2 ^ 1 := by
        rcases h with rfl | rfl <;> decide
      refine ⟨nofun, ?_, nofun, fun _ => ⟨1, rfl, hbit⟩⟩
      rintro w ⟨⟩ -
      exact hbit

theorem Holds.inReported {v : Int} {e : ScalarValueEvidence} (h : Holds v e) : InReported v e := by
  cases e with
  | bool => exact h
  | integer e =>
      intro w s hw hs
      cases s with
      | false => exact h.unsigned w hw hs
      | true => exact h.signed w hw hs

theorem holds_fromType {v : Int} {ty : IrType} {e : ScalarValueEvidence}
    (h : fromType ty = some e) (hv : OfType v ty) : Holds v e := by
  match ty, h with
  | .bool, rfl => exact hv
  | .uint none, rfl => exact ⟨nofun, nofun, nofun, nofun⟩
  | .sint none, rfl => exact ⟨nofun, nofun, nofun, nofun⟩
  | .uint (some w), rfl =>
      refine ⟨nofun, ?_, nofun, fun _ => ⟨w, rfl, hv⟩⟩
      rintro w ⟨⟩ -
      exact hv
  | .sint (some w), rfl =>
      refine ⟨nofun, nofun, ?_, nofun⟩
      rintro w ⟨⟩ -
      exact hv

theorem holds_literal {v : BitVec 64} {ty : IrType} {e : ScalarValueEvidence}
    (h : literalEvidence v ty = some e) (hv : OfType (literalValue v ty) ty) :
    Holds (literalValue v ty) e := by
  have hunsigned : Sound ⟨some (nonnegativeValueBits v.toNat), none, some v.toNat, true⟩
      (v.toNat : Int) := by
    refine ⟨?_, nofun, nofun,
      fun _ => ⟨_, rfl, Int.natCast_nonneg _, lt_nonnegativeValueBits v.toNat⟩⟩
    rintro x ⟨⟩
    rfl
  match ty, h with
  | .unknown, rfl => exact hunsigned
  | .uint none, rfl => exact hunsigned
  | .sint none, rfl =>
      refine ⟨?_, nofun, nofun, ?_⟩
      · rintro x ⟨⟩
        rfl
      · intro hbound
        have hnonneg : 0 ≤ v.toInt := of_decide_eq_true hbound
        refine ⟨_, ?_, contextual_unsigned (contextual_of_nonneg hnonneg)⟩
        change contextualValueBits v.toInt (decide (v.toInt < 0)) = _
        rw [decide_neg_of_nonneg hnonneg]
        exact contextual_of_nonneg hnonneg
  | .bool, h => exact @holds_fromType _ .bool _ h hv
  | .uint (some w), h => exact @holds_fromType _ (.uint (some w)) _ h hv
  | .sint (some w), h => exact @holds_fromType _ (.sint (some w)) _ h hv
  | .other, h => exact @holds_fromType _ .other _ h hv

/-- The highest word that is not zero bounds the literal. -/
theorem value_lt_wideLiteralBits (words : List (BitVec 32)) :
    WordLists.value words < 2 ^ wideLiteralBits words := by
  unfold wideLiteralBits
  split
  · rename_i hnone
    have hzero : WordLists.value words = 0 := by
      rw [WordLists.value_eq_zero]
      intro x hx
      obtain ⟨i, hi⟩ := List.mem_iff_getElem?.mp hx
      have hmem : (x, i) ∈ words.zipIdx.reverse :=
        List.mem_reverse.mpr (List.mem_zipIdx_iff_getElem?.mpr hi)
      simpa using List.find?_eq_none.mp hnone (x, i) hmem
    rw [hzero]
    decide
  · rename_i word index hsome
    obtain ⟨-, above, below, hsplit, habove⟩ := List.find?_eq_some_iff_append.mp hsome
    have hwords : words.zipIdx = below.reverse ++ (word, index) :: above.reverse := by
      rw [← List.reverse_reverse words.zipIdx, hsplit]
      simp
    have hfirst : words = below.reverse.map Prod.fst ++ word :: above.reverse.map Prod.fst := by
      calc words = words.zipIdx.map Prod.fst := (List.zipIdx_map_fst 0 words).symm
        _ = _ := by rw [hwords, List.map_append, List.map_cons]
    have hindex : index = (below.reverse.map Prod.fst).length := by
      have hget : words.zipIdx[below.reverse.length]? = some (word, index) := by
        rw [hwords, List.getElem?_append_right (le_refl _), Nat.sub_self]
        rfl
      rw [List.getElem?_zipIdx] at hget
      obtain ⟨x, -, hx⟩ := Option.map_eq_some_iff.mp hget
      rw [List.length_map]
      have := congrArg Prod.snd hx
      simpa using this.symm
    have hrest : WordLists.value (above.reverse.map Prod.fst) = 0 := by
      rw [WordLists.value_eq_zero]
      intro x hx
      obtain ⟨entry, hentry, rfl⟩ := List.mem_map.mp hx
      simpa using habove entry (List.mem_reverse.mp hentry)
    have hbelow := WordLists.value_lt (below.reverse.map Prod.fst)
    have hword : word.toNat + 1 ≤ 2 ^ Nat.size word.toNat := Nat.lt_size_self word.toNat
    have hscaled := Nat.mul_le_mul_left (2 ^ (32 * index)) hword
    rw [← hindex] at hbelow
    rw [hfirst, WordLists.value_append, WordLists.value_cons, hrest, Nat.mul_zero, Nat.add_zero,
      ← hindex, pow_add, Nat.mul_comm index 32]
    rw [Nat.mul_add, Nat.mul_one] at hscaled
    omega

/-! ### Operators -/

theorem evidenceWidth_unsigned {e : IntegerEvidence} (he : e.Unsigned) :
    ∃ w, evidenceWidthForSign e false = some w ∧ ∀ v, Sound e v → 0 ≤ v ∧ v < 2 ^ w := by
  rcases he with ⟨hbound, hwidth, hsigned⟩ | ⟨hsigned, x, hx, hexact⟩
  · obtain ⟨w, hw⟩ := Option.isSome_iff_exists.mp hwidth
    have hsound : ∀ v, Sound e v → 0 ≤ v ∧ v < 2 ^ w := by
      intro v h
      obtain ⟨w', hw', hv⟩ := h.bound hbound
      rw [hw, Option.some.injEq] at hw'
      exact hw' ▸ hv
    rw [evidenceWidthForSign]
    split
    · cases hbits : e.exact.bind fun value => contextualValueBits value false with
      | none => exact ⟨w, hw, hsound⟩
      | some bits =>
          obtain ⟨x, hx, hbits⟩ := Option.bind_eq_some_iff.mp hbits
          refine ⟨bits, rfl, ?_⟩
          intro v h
          rw [h.exact x hx]
          exact contextual_unsigned hbits
    · exact ⟨w, hw, hsound⟩
  · rw [evidenceWidthForSign, hsigned, if_pos (by rfl), hexact, Option.bind_some,
      contextual_of_nonneg hx]
    refine ⟨_, rfl, ?_⟩
    intro v h
    rw [h.exact x hexact]
    exact contextual_unsigned (contextual_of_nonneg hx)

theorem evidenceWidth_signed {e : IntegerEvidence} (he : e.Signed) :
    ∃ w, evidenceWidthForSign e true = some w ∧ ∀ v, Sound e v → InRange (w - 1) v := by
  rcases he with ⟨hsigned, hwidth⟩ | ⟨hsigned, hexact⟩
  · obtain ⟨w, hw⟩ := Option.isSome_iff_exists.mp hwidth
    rw [evidenceWidthForSign, hsigned, if_neg (by decide)]
    exact ⟨w, hw, fun v h => h.signed w hw hsigned⟩
  · obtain ⟨x, hx⟩ := Option.isSome_iff_exists.mp hexact
    rw [evidenceWidthForSign, hsigned, if_pos (by rfl), hx]
    refine ⟨_, rfl, ?_⟩
    intro v h
    rw [h.exact x hx]
    exact inRange_signedValueBits x

/-- The common width of two operands that are not negative holds for each of them. -/
theorem commonWidth_unsigned {l r : IntegerEvidence} (hl : l.Unsigned) (hr : r.Unsigned) :
    ∃ w, commonEvidenceWidth (evidenceWidthForSign l false) (evidenceWidthForSign r false) =
      some w ∧ (∀ v, Sound l v → 0 ≤ v ∧ v < 2 ^ w) ∧ ∀ v, Sound r v → 0 ≤ v ∧ v < 2 ^ w := by
  obtain ⟨m, hm, hleft⟩ := evidenceWidth_unsigned hl
  obtain ⟨n, hn, hright⟩ := evidenceWidth_unsigned hr
  have hpow : ∀ {k : Nat}, k ≤ max m n → (2 : Int) ^ k ≤ 2 ^ max m n :=
    fun hk => pow_le_pow_right₀ (by omega) hk
  rw [hm, hn]
  refine ⟨max m n, rfl, ?_, ?_⟩
  · intro v h
    exact ⟨(hleft v h).1, lt_of_lt_of_le (hleft v h).2 (hpow (le_max_left _ _))⟩
  · intro v h
    exact ⟨(hright v h).1, lt_of_lt_of_le (hright v h).2 (hpow (le_max_right _ _))⟩

theorem commonWidth_signed {l r : IntegerEvidence} (hl : l.Signed) (hr : r.Signed) :
    ∃ w, commonEvidenceWidth (evidenceWidthForSign l true) (evidenceWidthForSign r true) =
      some w ∧ (∀ v, Sound l v → InRange (w - 1) v) ∧ ∀ v, Sound r v → InRange (w - 1) v := by
  obtain ⟨m, hm, hleft⟩ := evidenceWidth_signed hl
  obtain ⟨n, hn, hright⟩ := evidenceWidth_signed hr
  rw [hm, hn]
  refine ⟨max m n, rfl, ?_, ?_⟩
  · intro v h
    exact (hleft v h).mono (Nat.sub_le_sub_right (le_max_left _ _) 1)
  · intro v h
    exact (hright v h).mono (Nat.sub_le_sub_right (le_max_right _ _) 1)

/-- The sign of a result whose operands are not signed. -/
theorem commonSign_unsigned {l r : IntegerEvidence} (hl : l.Unsigned) (hr : r.Unsigned) :
    commonEvidenceSign l.signed r.signed = some false ∨
      commonEvidenceSign l.signed r.signed = none := by
  have hnot : ∀ e : IntegerEvidence, e.Unsigned → e.signed = some false ∨ e.signed = none := by
    rintro e (⟨-, -, hne⟩ | ⟨hnone, -⟩)
    · match hsigned : e.signed with
      | none => exact .inr rfl
      | some false => exact .inl rfl
      | some true => exact absurd hsigned hne
    · exact .inr hnone
  rcases hnot l hl with hl | hl <;> rcases hnot r hr with hr | hr <;> rw [hl, hr]
  · exact .inl rfl
  · exact .inl rfl
  · exact .inl rfl
  · exact .inr rfl

theorem commonSign_signed {l r : IntegerEvidence} (hl : l.Signed) (hr : r.Signed) :
    commonEvidenceSign l.signed r.signed = some true ∨
      commonEvidenceSign l.signed r.signed = none := by
  have hnot : ∀ e : IntegerEvidence, e.Signed → e.signed = some true ∨ e.signed = none := by
    rintro e (⟨htrue, -⟩ | ⟨hnone, -⟩)
    · exact .inl htrue
    · exact .inr hnone
  rcases hnot l hl with hl | hl <;> rcases hnot r hr with hr | hr <;> rw [hl, hr]
  · exact .inl rfl
  · exact .inl rfl
  · exact .inl rfl
  · exact .inr rfl

/-- What an operator has to do with the ranges of its operands for the common width. -/
inductive Keeps (l r : IntegerEvidence) (a b v : Int) : Prop where
  | untyped (h : IntegerEvidence.Untyped l r)
  | unsigned (hl : l.Unsigned) (hr : r.Unsigned)
      (h : ∀ w : Nat, 0 ≤ a ∧ a < 2 ^ w → 0 ≤ b ∧ b < 2 ^ w → 0 ≤ v ∧ v < 2 ^ w)
  | signed (hl : l.Signed) (hr : r.Signed) (h : ∀ k, InRange k a → InRange k b → InRange k v)

/-- Every definite width that is the common one of the operands holds for the result. -/
theorem Keeps.common {l r : IntegerEvidence} {a b v : Int} (h : Keeps l r a b v) (ha : Sound l a)
    (hb : Sound r b) {sign : Bool} (hsign : commonEvidenceSign l.signed r.signed = some sign) :
    ∃ w, commonEvidenceWidth (evidenceWidthForSign l sign) (evidenceWidthForSign r sign) =
      some w ∧ OfType v (if sign then .sint (some w) else .uint (some w)) := by
  cases h with
  | untyped hnone =>
      rw [hnone.1, hnone.2] at hsign
      cases hsign
  | unsigned hl hr hv =>
      rcases commonSign_unsigned hl hr with hfalse | hnone
      · rw [hfalse, Option.some.injEq] at hsign
        subst hsign
        obtain ⟨w, hw, hleft, hright⟩ := commonWidth_unsigned hl hr
        exact ⟨w, hw, hv w (hleft a ha) (hright b hb)⟩
      · rw [hnone] at hsign
        cases hsign
  | signed hl hr hv =>
      rcases commonSign_signed hl hr with htrue | hnone
      · rw [htrue, Option.some.injEq] at hsign
        subst hsign
        obtain ⟨w, hw, hleft, hright⟩ := commonWidth_signed hl hr
        exact ⟨w, hw, hv (w - 1) (hleft a ha) (hright b hb)⟩
      · rw [hnone] at hsign
        cases hsign

theorem sound_plainEvidence {op : BinOp} {l r : IntegerEvidence} {a b v : Int} (ha : Sound l a)
    (hb : Sound r b) (hexact : ∀ x, exactResult op l.exact r.exact = some x → v = x)
    (hkeeps : Keeps l r a b v) : Sound (plainEvidence op l r) v := by
  have hwidth : ∀ sign, commonEvidenceSign l.signed r.signed = some sign →
      ∀ w, (plainEvidence op l r).width = some w →
        OfType v (if sign then .sint (some w) else .uint (some w)) := by
    intro sign hsign w hw
    obtain ⟨w', hw', hv⟩ := hkeeps.common ha hb hsign
    have hnone : ((exactResult op l.exact r.exact).bind fun value =>
        contextualValueBits value (value < 0)).filter
          (fun _ => (commonEvidenceSign l.signed r.signed).isNone) = none := by
      rw [hsign]
      cases (exactResult op l.exact r.exact).bind fun value =>
        contextualValueBits value (value < 0) <;> rfl
    simp only [plainEvidence, hnone, Option.none_or] at hw
    rw [hsign, Option.getD_some, hw', Option.some.injEq] at hw
    exact hw ▸ hv
  refine ⟨hexact, ?_, ?_, ?_⟩
  · intro w hw hsigned
    exact hwidth false hsigned w hw
  · intro w hw hsigned
    exact hwidth true hsigned w hw
  · intro hbound
    change (commonEvidenceSign l.signed r.signed == some false &&
      (plainEvidence op l r).width.isSome) = true at hbound
    rw [Bool.and_eq_true, beq_iff_eq] at hbound
    obtain ⟨w, hw⟩ := Option.isSome_iff_exists.mp hbound.2
    exact ⟨w, hw, hwidth false hbound.1 w hw⟩

theorem commonEvidenceSign_comm (a b : Option Bool) :
    commonEvidenceSign a b = commonEvidenceSign b a := by
  rcases a with - | (- | -) <;> rcases b with - | (- | -) <;> rfl

theorem commonEvidenceWidth_comm (a b : Option Nat) :
    commonEvidenceWidth a b = commonEvidenceWidth b a := by
  cases a <;> cases b <;> simp [commonEvidenceWidth, Nat.max_comm]

theorem ternaryEvidence_comm (t e : IntegerEvidence) :
    ternaryEvidence t e = ternaryEvidence e t := by
  have hexact : (if t.exact = e.exact then t.exact else none) =
      if e.exact = t.exact then e.exact else none := by
    split
    · rename_i heq
      rw [if_pos heq.symm, heq]
    · rename_i hne
      rw [if_neg fun heq => hne heq.symm]
  simp only [ternaryEvidence]
  rw [commonEvidenceSign_comm e.signed, commonEvidenceWidth_comm (evidenceWidthForSign e _),
    Bool.and_comm e.unsignedBound, hexact]

theorem agree_symm {l r : IntegerEvidence} (h : l.Agree r) : r.Agree l := by
  rcases h with h | h | h
  · exact .inl ⟨h.2, h.1⟩
  · exact .inr (.inl ⟨h.2, h.1⟩)
  · exact .inr (.inr ⟨h.2, h.1⟩)

theorem isNone_of_commonSign {a b : Option Bool} (h : commonEvidenceSign a b = none) :
    a = none ∧ b = none := by
  rcases a with - | (- | -) <;> rcases b with - | (- | -) <;>
    first | exact ⟨rfl, rfl⟩ | cases h

/-- A value of the branch that is taken; the other one may have none. -/
theorem sound_ternaryEvidence {t e : IntegerEvidence} {v : Int} (ht : Sound t v)
    (hagree : t.Agree e) : Sound (ternaryEvidence t e) v := by
  have hwidth : ∀ sign, commonEvidenceSign t.signed e.signed = some sign →
      ∃ w, (ternaryEvidence t e).width = some w ∧
        OfType v (if sign then .sint (some w) else .uint (some w)) := by
    intro sign hsign
    simp only [ternaryEvidence, hsign, Option.getD_some]
    rcases hagree with ⟨htnone, henone⟩ | ⟨htu, heu⟩ | ⟨hts, hes⟩
    · rw [htnone, henone] at hsign
      cases hsign
    · rcases commonSign_unsigned htu heu with hfalse | hnone
      · rw [hfalse, Option.some.injEq] at hsign
        subst hsign
        obtain ⟨w, hw, hleft, -⟩ := commonWidth_unsigned htu heu
        exact ⟨w, hw, hleft v ht⟩
      · rw [hnone] at hsign
        cases hsign
    · rcases commonSign_signed hts hes with htrue | hnone
      · rw [htrue, Option.some.injEq] at hsign
        subst hsign
        obtain ⟨w, hw, hleft, -⟩ := commonWidth_signed hts hes
        exact ⟨w, hw, hleft v ht⟩
      · rw [hnone] at hsign
        cases hsign
  refine ⟨?_, ?_, ?_, ?_⟩
  · intro x hx
    change (if t.exact = e.exact then t.exact else none) = some x at hx
    rw [Option.ite_none_right_eq_some] at hx
    exact ht.exact x hx.2
  · intro w hw hsigned
    obtain ⟨w', hw', hv⟩ := hwidth false hsigned
    rw [hw, Option.some.injEq] at hw'
    exact hw' ▸ hv
  · intro w hw hsigned
    obtain ⟨w', hw', hv⟩ := hwidth true hsigned
    rw [hw, Option.some.injEq] at hw'
    exact hw' ▸ hv
  · intro hbound
    obtain ⟨htbound, -⟩ := Bool.and_eq_true_iff.mp hbound
    obtain ⟨m, hm, hpos, hlt⟩ := ht.bound htbound
    match hsign : commonEvidenceSign t.signed e.signed with
    | some false => exact hwidth false hsign
    | some true =>
        obtain ⟨w, hw, hv⟩ := hwidth true hsign
        have hpow : (2 : Int) ^ (w - 1) ≤ 2 ^ w := pow_le_pow_right₀ (by omega) (Nat.sub_le _ _)
        exact ⟨w, hw, hpos, lt_of_lt_of_le hv.2 hpow⟩
    | none =>
        have htnone := (isNone_of_commonSign hsign).1
        have htu : t.Unsigned :=
          .inl ⟨htbound, by rw [hm]; rfl, by rw [htnone]; nofun⟩
        obtain ⟨k, hk, hv⟩ := evidenceWidth_unsigned htu
        simp only [ternaryEvidence, hsign, Option.getD_none, hk]
        cases evidenceWidthForSign e false with
        | none => exact ⟨k, rfl, hv v ht⟩
        | some n =>
            have hpow : (2 : Int) ^ k ≤ 2 ^ max k n :=
              pow_le_pow_right₀ (by omega) (le_max_left _ _)
            exact ⟨max k n, rfl, hpos, lt_of_lt_of_le (hv v ht).2 hpow⟩

theorem bound_eq_some {e : IntegerEvidence} {w : Nat} :
    e.bound = some w ↔ e.unsignedBound = true ∧ e.width = some w := by
  rw [IntegerEvidence.bound, Option.ite_none_right_eq_some]

theorem Sound.range_of_bound {e : IntegerEvidence} {v : Int} {w : Nat} (h : Sound e v)
    (hw : e.bound = some w) : 0 ≤ v ∧ v < 2 ^ w := by
  obtain ⟨hbound, hw⟩ := bound_eq_some.mp hw
  obtain ⟨w', hw', hv⟩ := h.bound hbound
  rw [hw, Option.some.injEq] at hw'
  exact hw' ▸ hv

/-- A mask of a known width bounds a conjunction, whatever the other operand is. -/
theorem land_range_of_minWidth {l r : IntegerEvidence} {a b : Int} {w : Nat} (ha : Sound l a)
    (hb : Sound r b) (hw : minWidth l.bound r.bound = some w) :
    0 ≤ Int.land a b ∧ Int.land a b < 2 ^ w := by
  have hleft : ∀ m, l.bound = some m → 0 ≤ Int.land a b ∧ Int.land a b < 2 ^ m :=
    fun m hm => land_of_nonneg_left b (ha.range_of_bound hm).1 (ha.range_of_bound hm).2
  have hright : ∀ n, r.bound = some n → 0 ≤ Int.land a b ∧ Int.land a b < 2 ^ n := by
    intro n hn
    rw [land_comm]
    exact land_of_nonneg_left a (hb.range_of_bound hn).1 (hb.range_of_bound hn).2
  cases hl : l.bound with
  | none =>
      rw [hl] at hw
      cases hr : r.bound with
      | none =>
          rw [hr] at hw
          cases hw
      | some n =>
          rw [hr] at hw
          have heq : n = w := Option.some.inj hw
          subst heq
          exact hright n hr
  | some m =>
      rw [hl] at hw
      cases hr : r.bound with
      | none =>
          rw [hr] at hw
          have heq : m = w := Option.some.inj hw
          subst heq
          exact hleft m hl
      | some n =>
          rw [hr] at hw
          cases hw
          rcases le_total m n with hle | hle
          · rw [Nat.min_eq_left hle]
            exact hleft m hl
          · rw [Nat.min_eq_right hle]
            exact hright n hr

theorem sound_bitAndEvidence {l r : IntegerEvidence} {a b : Int} (ha : Sound l a) (hb : Sound r b)
    (hfollows : IntegerEvidence.Follows .bitAnd shape l r) :
    Sound (bitAndEvidence l r) (Int.land a b) := by
  have hexact : ∀ x, (bitAndEvidence l r).exact = some x → Int.land a b = x := by
    intro x hx
    change exactResult .bitAnd l.exact r.exact = some x at hx
    match hl : l.exact, hr : r.exact with
    | some p, some q =>
        rw [hl, hr] at hx
        rw [ha.exact p hl, hb.exact q hr]
        exact Option.some.inj hx
    | none, _ =>
        rw [hl] at hx
        cases hx
    | some _, none =>
        rw [hl, hr] at hx
        cases hx
  cases hmin : minWidth l.bound r.bound with
  | some w =>
      have hrange := land_range_of_minWidth ha hb hmin
      have hor : (l.unsignedBound || r.unsignedBound) = true := by
        rw [Bool.or_eq_true]
        cases hl : l.bound with
        | some m => exact .inl (bound_eq_some.mp hl).1
        | none =>
            cases hr : r.bound with
            | some n => exact .inr (bound_eq_some.mp hr).1
            | none =>
                rw [hl, hr] at hmin
                cases hmin
      have hevidence : bitAndEvidence l r =
          ⟨some w, some false, exactResult .bitAnd l.exact r.exact, true⟩ := by
        simp only [bitAndEvidence, hmin, hor, Option.some_or, Option.isSome_some, Bool.and_self,
          if_true]
      rw [hevidence] at hexact ⊢
      refine ⟨hexact, ?_, nofun, fun _ => ⟨w, rfl, hrange⟩⟩
      rintro w ⟨⟩ -
      exact hrange
  | none =>
      have hnone : l.bound = none ∧ r.bound = none := by
        match hl : l.bound, hr : r.bound with
        | none, none => exact ⟨rfl, rfl⟩
        | some _, none | some _, some _ | none, some _ =>
            rw [hl, hr] at hmin
            cases hmin
      rcases hfollows with hsome | hsome | ⟨hlb, hrb, hsigns⟩
      · rw [hnone.1] at hsome
        cases hsome
      · rw [hnone.2] at hsome
        cases hsome
      have hevidence : bitAndEvidence l r = ⟨commonEvidenceWidth l.width r.width,
          commonEvidenceSign l.signed r.signed, exactResult .bitAnd l.exact r.exact, false⟩ := by
        simp only [bitAndEvidence, hmin, hlb, hrb, Option.none_or, Bool.or_self, Bool.and_false]
        rfl
      rw [hevidence] at hexact ⊢
      rcases hsigns with ⟨hlnone, hrnone⟩ | ⟨hltrue, hrtrue, hlw, hrw⟩
      · rw [hlnone, hrnone]
        exact ⟨hexact, nofun, nofun, nofun⟩
      · obtain ⟨m, hm⟩ := Option.isSome_iff_exists.mp hlw
        obtain ⟨n, hn⟩ := Option.isSome_iff_exists.mp hrw
        rw [hltrue, hrtrue]
        refine ⟨hexact, nofun, ?_, nofun⟩
        intro w hw _
        rw [hm, hn] at hw
        cases hw
        exact ((ha.signed m hm hltrue).mono (Nat.sub_le_sub_right (le_max_left _ _) 1)).land
          ((hb.signed n hn hrtrue).mono (Nat.sub_le_sub_right (le_max_right _ _) 1))

/-! ### Shifts -/

theorem shiftRight_range {v count : Int} {w : Nat} (hv : 0 ≤ v ∧ v < 2 ^ w) :
    0 ≤ shiftRight v count ∧ shiftRight v count < 2 ^ w := by
  have hpow : (0 : Int) < 2 ^ count.toNat := by positivity
  rw [shiftRight]
  split
  · rw [if_neg (by omega)]
    omega
  · exact ⟨Int.ediv_nonneg hv.1 hpow.le, lt_of_le_of_lt (Int.ediv_le_self _ hv.1) hv.2⟩

theorem shiftRight_inRange {v count : Int} {k : Nat} (hv : InRange k v) :
    InRange k (shiftRight v count) := by
  rcases lt_or_ge v 0 with hneg | hpos
  · have hbig : (0 : Int) < 2 ^ k := by positivity
    have hpow : (0 : Int) < 2 ^ count.toNat := by positivity
    rw [shiftRight, if_pos hneg]
    split
    · exact ⟨by omega, by omega⟩
    · have hlow : v ≤ v / 2 ^ count.toNat := by
        rw [Int.le_ediv_iff_mul_le hpow]
        nlinarith
      have hhigh : v / 2 ^ count.toNat < 0 := Int.ediv_neg_of_neg_of_pos hneg hpow
      obtain ⟨hleft, -⟩ := hv
      exact ⟨by omega, by omega⟩
  · obtain ⟨hnonneg, hlt⟩ := @shiftRight_range v count k ⟨hpos, hv.2⟩
    exact ⟨by omega, hlt⟩

/-- A shift that keeps the width of its left operand. -/
theorem sound_kept {l : IntegerEvidence} {a v : Int} (ha : Sound l a)
    (hunsigned : ∀ w : Nat, 0 ≤ a ∧ a < 2 ^ w → 0 ≤ v ∧ v < 2 ^ w)
    (hsigned : ∀ k, InRange k a → InRange k v) :
    Sound ⟨l.width, l.signed, none, l.unsignedBound⟩ v := by
  refine ⟨nofun, fun w hw hs => hunsigned w (ha.unsigned w hw hs),
    fun w hw hs => hsigned _ (ha.signed w hw hs), ?_⟩
  intro hbound
  obtain ⟨w, hw, hv⟩ := ha.bound hbound
  exact ⟨w, hw, hunsigned w hv⟩

theorem toU32_eq_some {v : Int} {n : Nat} (h : toU32 v = some n) : v = n ∧ 0 ≤ v := by
  rw [toU32, Option.ite_none_right_eq_some, Option.some.injEq] at h
  omega

theorem sound_shr {l r : IntegerEvidence} {a b : Int} (ha : Sound l a) (hb : Sound r b) :
    Sound (shiftEvidence .shr l r) (shiftRight a b) := by
  have hkept : Sound ⟨l.width, l.signed, none, l.unsignedBound⟩ (shiftRight a b) :=
    sound_kept ha (fun _ => shiftRight_range) fun _ => shiftRight_inRange
  match hl : l.signed, hx : l.exact, hshift : r.exact.bind toU32 with
  | some _, _, _ =>
      simpa only [shiftEvidence, hl] using hkept
  | none, none, _ =>
      simpa only [shiftEvidence, hl, hx] using hkept
  | none, some x, none =>
      simpa only [shiftEvidence, hl, hx, hshift] using hkept
  | none, some x, some n =>
      rcases Nat.lt_or_ge n 128 with hlt | hge
      · obtain ⟨y, hy, hn⟩ := Option.bind_eq_some_iff.mp hshift
        obtain ⟨rfl, hpos⟩ := toU32_eq_some hn
        have hvalue : shiftRight a b = x / 2 ^ n := by
          rw [ha.exact x hx, hb.exact _ hy, shiftRight, if_neg (by omega), Int.toNat_natCast]
        have hevidence : shiftEvidence .shr l r =
            ⟨contextualValueBits (x / 2 ^ n) (x / 2 ^ n < 0), none, some (x / 2 ^ n),
              l.unsignedBound⟩ := by
          simp only [shiftEvidence, hl, hx, hshift, checkedShr, if_pos hlt]
          rfl
        rw [hevidence, hvalue]
        refine ⟨?_, nofun, nofun, ?_⟩
        · rintro z ⟨⟩
          rfl
        · intro hbound
          obtain ⟨w, -, hv⟩ := ha.bound hbound
          rw [ha.exact x hx] at hv
          have hnonneg : 0 ≤ x / 2 ^ n := Int.ediv_nonneg hv.1 (by positivity)
          refine ⟨_, ?_, contextual_unsigned (contextual_of_nonneg hnonneg)⟩
          change contextualValueBits (x / 2 ^ n) (decide (x / 2 ^ n < 0)) = _
          rw [decide_neg_of_nonneg hnonneg]
          exact contextual_of_nonneg hnonneg
      · simpa only [shiftEvidence, hl, hx, hshift, if_neg (Nat.not_lt.mpr hge)] using hkept

/-- The exact result of a left shift that the width shows to fit 128 bits. -/
theorem checkedShl_eq {x : Int} {n width : Nat}
    (hwidth : contextualValueBits x (x < 0) = some width)
    (hfits : width + n ≤ if x < 0 then 128 else 127) : checkedShl x n = some (x * 2 ^ n) := by
  have hpow : (0 : Int) < 2 ^ n := by positivity
  have hlarge : ∀ m : Nat, m ≤ 127 → (2 : Int) ^ m ≤ 2 ^ 127 :=
    fun m hm => pow_le_pow_right₀ (by omega) hm
  have hrange : -2 ^ 127 ≤ x * 2 ^ n ∧ x * 2 ^ n < 2 ^ 127 ∧ n < 128 := by
    rcases lt_or_ge x 0 with hneg | hpos
    · rw [decide_eq_true hneg] at hwidth
      rw [if_pos hneg] at hfits
      have hbits : signedValueBits x = width := Option.some.inj hwidth
      have hx := inRange_signedValueBits x
      have hposbits : 0 < signedValueBits x := by
        unfold signedValueBits
        split_ifs <;> omega
      rw [hbits] at hx hposbits
      have hlow : -2 ^ (width - 1 + n) ≤ x * 2 ^ n := by
        rw [pow_add]
        nlinarith [hx.1]
      have hle := hlarge (width - 1 + n) (by omega)
      exact ⟨by omega, by nlinarith, by omega⟩
    · rw [decide_neg_of_nonneg hpos] at hwidth
      rw [if_neg (by omega)] at hfits
      have hx := contextual_unsigned hwidth
      have hhigh : x * 2 ^ n < 2 ^ (width + n) := by
        rw [pow_add]
        nlinarith [hx.2]
      have hle := hlarge (width + n) hfits
      exact ⟨by nlinarith, by omega, by omega⟩
  obtain ⟨hlow, hhigh, hn⟩ := hrange
  rw [checkedShl, if_pos hn]
  have hbmod : Int.bmod (x * 2 ^ n) (2 ^ 128) = x * 2 ^ n := by
    apply Int.bmod_eq_of_le_mul_two
    · push_cast
      omega
    · push_cast
      omega
  rw [hbmod]

theorem sound_shl_exact {l r : IntegerEvidence} {a b : Int} (ha : Sound l a) (hb : Sound r b)
    (hl : l.signed = none) (hx : l.exact.isSome = true)
    (hshift : (r.exact.bind toU32).isSome = true)
    (hwidth : (shiftEvidence .shl l r).width.isSome = true) :
    Sound (shiftEvidence .shl l r) (shiftLeft none a b) := by
  obtain ⟨x, hx⟩ := Option.isSome_iff_exists.mp hx
  obtain ⟨n, hshift⟩ := Option.isSome_iff_exists.mp hshift
  obtain ⟨y, hy, hn⟩ := Option.bind_eq_some_iff.mp hshift
  obtain ⟨rfl, hpos⟩ := toU32_eq_some hn
  have hvalue : shiftLeft none a b = x * 2 ^ n := by
    rw [ha.exact x hx, hb.exact _ hy]
    change (if (n : Int) < 0 then 0 else x * 2 ^ (n : Int).toNat) = _
    rw [if_neg (by omega), Int.toNat_natCast]
  rw [hvalue]
  rcases eq_or_ne x 0 with rfl | hne
  · have hevidence : shiftEvidence .shl l r = ⟨some 1, none, checkedShl 0 n, l.unsignedBound⟩ := by
      simp only [shiftEvidence, hl, hx, hshift, if_true]
      rfl
    rw [hevidence, Int.zero_mul]
    refine ⟨?_, nofun, nofun, fun _ => ⟨1, rfl, by decide⟩⟩
    intro z hz
    rw [checkedShl, Option.ite_none_right_eq_some, Int.zero_mul, Int.zero_bmod,
      Option.some.injEq] at hz
    exact hz.2
  · obtain ⟨width, hwidthEq⟩ := Option.isSome_iff_exists.mp hwidth
    have hsplit : ∃ bits, contextualValueBits x (x < 0) = some bits ∧ width = bits + n := by
      simp only [shiftEvidence, hl, hx, hshift, if_neg hne] at hwidthEq
      obtain ⟨bits, hbits, hadd⟩ := Option.bind_eq_some_iff.mp hwidthEq
      rw [checkedAddU32, Option.ite_none_right_eq_some, Option.some.injEq] at hadd
      exact ⟨bits, hbits, hadd.2.symm⟩
    obtain ⟨bits, hbits, rfl⟩ := hsplit
    have hexact : ∀ z, (shiftEvidence .shl l r).exact = some z → x * 2 ^ n = z := by
      intro z hz
      simp only [shiftEvidence, hl, hx, hshift, if_neg hne] at hz hwidthEq
      rw [hwidthEq] at hz
      obtain ⟨width, hfilter, hz⟩ := Option.bind_eq_some_iff.mp hz
      obtain ⟨hsome, hfits⟩ := Option.filter_eq_some_iff.mp hfilter
      rw [Option.some.injEq] at hsome
      subst hsome
      rw [checkedShl_eq hbits (of_decide_eq_true hfits), Option.some.injEq] at hz
      exact hz
    have hsigned : (shiftEvidence .shl l r).signed = none := hl
    have hbound : (shiftEvidence .shl l r).unsignedBound = l.unsignedBound := rfl
    refine ⟨hexact, ?_, ?_, ?_⟩
    · intro w _ hfalse
      rw [hsigned] at hfalse
      cases hfalse
    · intro w _ htrue
      rw [hsigned] at htrue
      cases htrue
    · intro hunsigned
      rw [hbound] at hunsigned
      obtain ⟨w, -, hv⟩ := ha.bound hunsigned
      rw [ha.exact x hx] at hv
      rw [decide_neg_of_nonneg hv.1] at hbits
      have hpow : (0 : Int) < 2 ^ n := by positivity
      refine ⟨bits + n, hwidthEq, Int.mul_nonneg hv.1 hpow.le, ?_⟩
      rw [pow_add]
      exact mul_lt_mul_of_pos_right (contextual_unsigned hbits).2 hpow

theorem bmod_inRange (v : Int) {w : Nat} (hw : w ≠ 0) : InRange (w - 1) (Int.bmod v (2 ^ w)) := by
  have hpow : ((2 ^ w : Nat) : Int) = 2 * 2 ^ (w - 1) := by
    rw [← pow_succ', Nat.sub_add_cancel (Nat.pos_of_ne_zero hw)]
    push_cast
    rfl
  have hlow := Int.le_bmod (x := v) (Nat.two_pow_pos w)
  have hhigh := Int.bmod_lt (x := v) (Nat.two_pow_pos w)
  rw [hpow] at hlow hhigh
  exact ⟨by omega, by omega⟩

/-- A shift of a declared operand stays within its width. -/
theorem sound_shl_declared {w : Nat} {s : Bool} {r : IntegerEvidence} (a b : Int) :
    Sound (shiftEvidence .shl ⟨some w, some s, none, !s⟩ r) (shiftLeft (some (w, s)) a b) := by
  change Sound ⟨some w, some s, none, !s⟩ _
  generalize hshifted : (if b < 0 then 0 else a * 2 ^ b.toNat) = shifted
  have hpow : (0 : Int) < 2 ^ w := by positivity
  cases s with
  | false =>
      have hvalue : shiftLeft (some (w, false)) a b = shifted % 2 ^ w := by
        rw [← hshifted]
        rfl
      have hrange : 0 ≤ shifted % 2 ^ w ∧ shifted % 2 ^ w < 2 ^ w :=
        ⟨Int.emod_nonneg _ hpow.ne', Int.emod_lt_of_pos _ hpow⟩
      rw [hvalue]
      refine ⟨nofun, ?_, nofun, fun _ => ⟨w, rfl, hrange⟩⟩
      rintro w' ⟨⟩ -
      exact hrange
  | true =>
      have hvalue : shiftLeft (some (w, true)) a b =
          if w = 0 then 0 else Int.bmod shifted (2 ^ w) := by
        rw [← hshifted]
        rfl
      rw [hvalue]
      refine ⟨nofun, nofun, ?_, nofun⟩
      rintro w' ⟨⟩ -
      have hhalf : (0 : Int) < 2 ^ (w - 1) := by positivity
      split
      · exact ⟨by omega, hhalf⟩
      · rename_i hne
        exact bmod_inRange shifted hne

/-! ### Operators of one operand -/

theorem sound_unaryEvidence {op : UnOp} {shape : Option (Nat × Bool)} {e : IntegerEvidence}
    {v : Int} (hnot : op ≠ .not) (he : Sound e v)
    (hshape : ∀ w s, shape = some (w, s) → e = ⟨some w, some s, none, !s⟩)
    (hfollows : IntegerEvidence.UnaryFollows op shape e) :
    Sound (unaryEvidence op e) (applyUnary shape op v) := by
  -- Of a signed operand both complements stay in its range.
  have hsigned : e.signed = some true → e.unsignedBound = false → op ≠ .neg →
      Sound (unaryEvidence op e) (-1 - v) := by
    intro htrue hbound hne
    have hevidence : unaryEvidence op e = ⟨e.width, some true, none, false⟩ := by
      simp only [unaryEvidence, htrue, hbound, if_neg hne, Bool.false_and]
    rw [hevidence]
    refine ⟨nofun, nofun, ?_, nofun⟩
    intro w hw _
    obtain ⟨hlow, hhigh⟩ := he.signed w hw htrue
    exact ⟨by omega, by omega⟩
  match op, hfollows with
  | .not, _ => exact absurd rfl hnot
  | .bitNotHost, ⟨htrue, hbound⟩ => exact hsigned htrue hbound UnOp.noConfusion
  | .neg, hnone =>
      change e.signed = none at hnone
      have hsign : (unaryEvidence .neg e).signed = none := hnone
      refine ⟨?_, ?_, ?_, ?_⟩
      · intro x hx
        change e.exact.bind (fun value => checked (-value)) = some x at hx
        obtain ⟨y, hy, hx⟩ := Option.bind_eq_some_iff.mp hx
        rw [checked, Option.ite_none_right_eq_some, Option.some.injEq] at hx
        rw [he.exact y hy]
        exact hx.2
      · intro w _ hfalse
        rw [hsign] at hfalse
        cases hfalse
      · intro w _ htrue
        rw [hsign] at htrue
        cases htrue
      · intro hbound
        change (e.unsignedBound && UnOp.neg != UnOp.neg) = true at hbound
        rw [Bool.and_eq_true] at hbound
        exact absurd hbound.2 (by decide)
  | .bitNot, .inl ⟨htrue, hbound⟩ =>
      have hvalue : applyUnary shape .bitNot v = -1 - v := by
        match hdeclared : shape with
        | none => rfl
        | some (w, true) => rfl
        | some (w, false) =>
            rw [hshape w false rfl] at htrue
            cases htrue
      rw [hvalue]
      exact hsigned htrue hbound UnOp.noConfusion
  | .bitNot, .inr ⟨w, hw⟩ =>
      have hevidence := hshape w false hw
      subst hevidence
      have hv := he.unsigned w rfl rfl
      have hrange : 0 ≤ 2 ^ w - 1 - v ∧ 2 ^ w - 1 - v < 2 ^ w := ⟨by omega, by omega⟩
      rw [hw]
      refine ⟨nofun, ?_, nofun, fun _ => ⟨w, rfl, hrange⟩⟩
      rintro w' ⟨⟩ -
      exact hrange

/-! ### Operators of two operands -/

theorem tmod_inRange {k : Nat} {a b : Int} (ha : InRange k a) : InRange k (Int.tmod a b) := by
  have hpow : (0 : Int) < 2 ^ k := by positivity
  have habs : (Int.tmod a b).natAbs ≤ a.natAbs := by
    rw [Int.natAbs_tmod]
    exact Nat.mod_le _ _
  obtain ⟨hlow, hhigh⟩ := ha
  rcases lt_or_ge a 0 with hneg | hpos
  · have hsign : Int.tmod a b ≤ 0 := by
      have := Int.tmod_nonneg b (show 0 ≤ -a by omega)
      rw [Int.neg_tmod] at this
      omega
    exact ⟨by omega, by omega⟩
  · have hsign := Int.tmod_nonneg b hpos
    exact ⟨by omega, by omega⟩

theorem keeps_of_agree {l r : IntegerEvidence} {a b v : Int} (hagree : l.Agree r)
    (hunsigned : ∀ w : Nat, 0 ≤ a ∧ a < 2 ^ w → 0 ≤ b ∧ b < 2 ^ w → 0 ≤ v ∧ v < 2 ^ w)
    (hsigned : ∀ k, InRange k a → InRange k b → InRange k v) : Keeps l r a b v := by
  rcases hagree with hnone | ⟨hl, hr⟩ | ⟨hl, hr⟩
  · exact .untyped hnone
  · exact .unsigned hl hr hunsigned
  · exact .signed hl hr hsigned

/-- The exact value of a result is its value. -/
theorem exactResult_eq {op : BinOp} {shape : Option (Nat × Bool)} {l r : IntegerEvidence}
    {a b v x : Int} (ha : Sound l a) (hb : Sound r b) (hv : applyBinary shape op a b = some v)
    (hx : exactResult op l.exact r.exact = some x) : v = x := by
  match hl : l.exact, hr : r.exact with
  | none, _ =>
      rw [hl] at hx
      cases op <;> cases hx
  | some p, none =>
      rw [hl, hr] at hx
      cases op <;> cases hx
  | some p, some q =>
      rw [hl, hr] at hx
      rw [ha.exact p hl, hb.exact q hr] at hv
      cases op <;>
        simp only [exactResult, checked, checkedRem, applyBinary, Option.ite_none_right_eq_some,
          Option.ite_none_left_eq_some, Option.some.injEq, reduceCtorEq] at hx hv <;>
        first
          | exact hv.symm.trans hx
          | exact hv.symm.trans hx.2
          | exact hv.2.symm.trans hx.2.2

theorem sound_binaryEvidence {op : BinOp} {shape : Option (Nat × Bool)} {l r : IntegerEvidence}
    {a b v : Int} (hop : op.isBoolean = false) (ha : Sound l a) (hb : Sound r b)
    (hshape : ∀ w s, shape = some (w, s) → l = ⟨some w, some s, none, !s⟩)
    (hfollows : IntegerEvidence.Follows op shape l r) (hv : applyBinary shape op a b = some v) :
    Sound (binaryEvidence op l r) v := by
  have hexact := fun x => @exactResult_eq op shape l r a b v x ha hb hv
  match op, hop, hfollows with
  | .add, _, h => exact sound_plainEvidence ha hb hexact (.untyped h)
  | .sub, _, h => exact sound_plainEvidence ha hb hexact (.untyped h)
  | .mul, _, h => exact sound_plainEvidence ha hb hexact (.untyped h)
  | .div, _, h =>
      apply sound_plainEvidence ha hb hexact
      rw [applyBinary, Option.ite_none_left_eq_some, Option.some.injEq] at hv
      rcases h with hnone | ⟨hl, hr⟩
      · exact .untyped hnone
      · refine .unsigned hl hr ?_
        rintro w ⟨hapos, halt⟩ ⟨hbpos, -⟩
        rw [← hv.2]
        exact ⟨Int.tdiv_nonneg hapos hbpos, lt_of_le_of_lt (Int.tdiv_le_self b hapos) halt⟩
  | .mod, _, h =>
      apply sound_plainEvidence ha hb hexact
      rw [applyBinary, Option.ite_none_left_eq_some, Option.some.injEq] at hv
      rw [← hv.2]
      refine keeps_of_agree h ?_ fun k hra _ => tmod_inRange hra
      rintro w ⟨hapos, halt⟩ -
      have hpow : (0 : Int) < 2 ^ w := by positivity
      exact ⟨Int.tmod_nonneg b hapos, (@tmod_inRange w a b ⟨by omega, halt⟩).2⟩
  | .bitOr, _, h =>
      apply sound_plainEvidence ha hb hexact
      rw [← Option.some.inj hv]
      refine keeps_of_agree h ?_ fun k hra hrb => hra.lor hrb
      rintro w ⟨hapos, halt⟩ ⟨hbpos, hblt⟩
      have hpow : (0 : Int) < 2 ^ w := by positivity
      have hra : InRange w a := ⟨by omega, halt⟩
      exact ⟨lor_nonneg hapos hbpos, (hra.lor ⟨by omega, hblt⟩).2⟩
  | .bitXor, _, h =>
      apply sound_plainEvidence ha hb hexact
      rw [← Option.some.inj hv]
      refine keeps_of_agree h ?_ fun k hra hrb => hra.xor hrb
      rintro w ⟨hapos, halt⟩ ⟨hbpos, hblt⟩
      have hpow : (0 : Int) < 2 ^ w := by positivity
      have hra : InRange w a := ⟨by omega, halt⟩
      exact ⟨xor_nonneg hapos hbpos, (hra.xor ⟨by omega, hblt⟩).2⟩
  | .bitAnd, _, h =>
      rw [← Option.some.inj hv]
      exact sound_bitAndEvidence ha hb h
  | .shr, _, _ =>
      rw [← Option.some.inj hv]
      exact sound_shr ha hb
  | .shl, _, h =>
      rw [← Option.some.inj hv]
      match hdeclared : shape with
      | some (w, s) =>
          rw [hshape w s rfl]
          exact @sound_shl_declared w s r a b
      | none =>
          rcases h with hsome | ⟨hl, hx, hn, hw⟩
          · cases hsome
          · exact sound_shl_exact ha hb hl hx hn hw

/-! ### Whole expressions -/

theorem evidence_of_declared {leafType : Nat → Option IrType} {e : Expr} {w : Nat} {s : Bool}
    (h : declared leafType e = some (w, s)) :
    scalarValueEvidence leafType e = some (.integer ⟨some w, some s, none, !s⟩) := by
  match e, h with
  | .literal _ (.uint (some _)), rfl => rfl
  | .literal _ (.sint (some _)), rfl => rfl
  | .leaf id, h =>
      change (match leafType id with
        | some (.uint (some w)) => some (w, false)
        | some (.sint (some w)) => some (w, true)
        | _ => none) = some (w, s) at h
      change (leafType id).bind fromType = _
      split at h
      · rename_i hty
        cases h
        rw [hty]
        rfl
      · rename_i hty
        cases h
        rw [hty]
        rfl
      · cases h

theorem ofBool_bit (b : Bool) : ofBool b = 0 ∨ ofBool b = 1 := by
  cases b
  · exact .inl rfl
  · exact .inr rfl

theorem value_boolean {leafType : Nat → Option IrType} {env : Nat → Int} {op : BinOp}
    {lhs rhs : Expr} {v : Int} (hop : op.isBoolean = true)
    (hv : value leafType env (.binary op lhs rhs) = some v) : v = 0 ∨ v = 1 := by
  cases op <;> try exact Bool.noConfusion hop
  case and =>
      obtain ⟨a, -, hv⟩ := Option.bind_eq_some_iff.mp hv
      split at hv
      · exact .inl (Option.some.inj hv).symm
      · obtain ⟨b, -, rfl⟩ := Option.map_eq_some_iff.mp hv
        exact ofBool_bit _
  case or =>
      obtain ⟨a, -, hv⟩ := Option.bind_eq_some_iff.mp hv
      split at hv
      · exact .inr (Option.some.inj hv).symm
      · obtain ⟨b, -, rfl⟩ := Option.map_eq_some_iff.mp hv
        exact ofBool_bit _
  all_goals
    obtain ⟨a, -, hv⟩ := Option.bind_eq_some_iff.mp hv
    obtain ⟨b, -, hv⟩ := Option.bind_eq_some_iff.mp hv
    rw [← Option.some.inj hv]
    exact ofBool_bit _

theorem value_binary (leafType : Nat → Option IrType) (env : Nat → Int) {op : BinOp}
    (lhs rhs : Expr) (hop : op.isBoolean = false) :
    value leafType env (.binary op lhs rhs) =
      (value leafType env lhs).bind fun a =>
        (value leafType env rhs).bind fun b => applyBinary (declared leafType lhs) op a b := by
  cases op <;> first | rfl | cases hop

/-- The environment gives every leaf a value of its type. -/
def WellTyped (leafType : Nat → Option IrType) (env : Nat → Int) : Prop :=
  ∀ id ty, leafType id = some ty → OfType (env id) ty

theorem holds_of_tracked {leafType : Nat → Option IrType} {env : Nat → Int}
    (henv : WellTyped leafType env) (e : Expr) (htracked : Tracked leafType e) :
    ∀ ev v, scalarValueEvidence leafType e = some ev → value leafType env e = some v →
      Holds v ev := by
  induction e with
  | literal bits ty =>
      rintro ev v hev ⟨⟩
      exact holds_literal hev htracked
  | wideLiteral words =>
      rintro ev v ⟨⟩ ⟨⟩
      have hrange : 0 ≤ (WordLists.value words : Int) ∧
          (WordLists.value words : Int) < 2 ^ wideLiteralBits words :=
        ⟨Int.natCast_nonneg _, by exact_mod_cast value_lt_wideLiteralBits words⟩
      refine ⟨nofun, ?_, nofun, fun _ => ⟨_, rfl, hrange⟩⟩
      rintro w ⟨⟩ -
      exact hrange
  | leaf id =>
      rintro ev v hev ⟨⟩
      obtain ⟨ty, hty, hev⟩ := Option.bind_eq_some_iff.mp hev
      exact holds_fromType hev (henv id ty hty)
  | binary op lhs rhs ihl ihr =>
      intro ev v hev hv
      cases hop : op.isBoolean with
      | true =>
          rw [scalarValueEvidence, if_pos hop] at hev
          cases hev
          exact value_boolean hop hv
      | false =>
          obtain ⟨hl, hr, hfollows⟩ := htracked.resolve_left (by rw [hop]; exact Bool.false_ne_true)
          rw [scalarValueEvidence, if_neg (by rw [hop]; exact Bool.false_ne_true)] at hev
          obtain ⟨l, hle, hev⟩ := Option.bind_eq_some_iff.mp hev
          obtain ⟨r, hre, ⟨⟩⟩ := Option.bind_eq_some_iff.mp hev
          rw [value_binary leafType env lhs rhs hop] at hv
          obtain ⟨a, ha, hv⟩ := Option.bind_eq_some_iff.mp hv
          obtain ⟨b, hb, hv⟩ := Option.bind_eq_some_iff.mp hv
          refine sound_binaryEvidence hop (ihl hl l a hle ha).asInteger
            (ihr hr r b hre hb).asInteger ?_ (hfollows l r hle hre) hv
          intro w s hdeclared
          have hevidence := evidence_of_declared hdeclared
          rw [hle, Option.some.injEq] at hevidence
          rw [hevidence]
          rfl
  | ternary cond thenValue elseValue _ iht ihe =>
      obtain ⟨ht, he, hagree⟩ := htracked
      intro ev v hev hv
      obtain ⟨t, hte, hev⟩ := Option.bind_eq_some_iff.mp hev
      obtain ⟨e, hee, hev⟩ := Option.bind_eq_some_iff.mp hev
      obtain ⟨c, -, hv⟩ := Option.bind_eq_some_iff.mp hv
      have hbranch : Holds v t ∨ Holds v e := by
        split at hv
        · exact .inl (iht ht t v hte hv)
        · exact .inr (ihe he e v hee hv)
      have hinteger : Holds v (.integer (ternaryEvidence t.asInteger e.asInteger)) := by
        rcases hbranch with h | h
        · exact sound_ternaryEvidence h.asInteger (hagree t e hte hee)
        · rw [ternaryEvidence_comm]
          exact sound_ternaryEvidence h.asInteger (agree_symm (hagree t e hte hee))
      match t, e, hev with
      | .bool, .bool, rfl => exact hbranch.elim id id
      | .bool, .integer _, rfl => exact hinteger
      | .integer _, .bool, rfl => exact hinteger
      | .integer _, .integer _, rfl => exact hinteger
  | unary op inner ih =>
      intro ev v hev hv
      obtain ⟨x, hx, rfl⟩ := Option.map_eq_some_iff.mp hv
      rcases eq_or_ne op .not with rfl | hnot
      · cases hev
        exact ofBool_bit _
      · obtain ⟨hinner, hfollows⟩ := htracked.resolve_left hnot
        have hbind : scalarValueEvidence leafType (.unary op inner) =
            (scalarValueEvidence leafType inner).bind fun
              | .integer e => some (.integer (unaryEvidence op e))
              | .bool => none := by
          cases op <;> first | exact absurd rfl hnot | rfl
        rw [hbind] at hev
        obtain ⟨evidence, hevidence, hev⟩ := Option.bind_eq_some_iff.mp hev
        match evidence, hev with
        | .integer e, rfl =>
            refine sound_unaryEvidence hnot (ih hinner _ x hevidence hx) ?_
              (hfollows e hevidence)
            intro w s hdeclared
            have heq := evidence_of_declared hdeclared
            rw [hevidence, Option.some.injEq, ScalarValueEvidence.integer.injEq] at heq
            exact heq

/-- The evidence of a tracked expression is sound: its value lies in the reported range. -/
theorem inReported_of_tracked (leafType : Nat → Option IrType) (env : Nat → Int) (e : Expr)
    (henv : WellTyped leafType env) (htracked : Tracked leafType e) (ev : ScalarValueEvidence)
    (v : Int) (hev : scalarValueEvidence leafType e = some ev)
    (hv : value leafType env e = some v) : InReported v ev :=
  (holds_of_tracked henv e htracked ev v hev hv).inReported

theorem inReported_of_tracked_masked :
    InReported 8 (.integer ⟨some 4, some false, none, true⟩) := by
  refine inReported_of_tracked (fun _ => some (.uint (some 8))) (fun _ => 200)
    (.binary .bitAnd (.leaf 0) (.literal 15 .unknown)) ?_ ?_ _ 8 (by decide) (by decide)
  · rintro id ty ⟨⟩
    exact ⟨by norm_num, by norm_num⟩
  · refine .inr ⟨trivial, trivial, ?_⟩
    rintro l r ⟨⟩ ⟨⟩
    exact .inl rfl

/-- A sum takes the width of its operands, and its value may need one bit more. -/
theorem sum_leaves_reported :
    ¬ ∀ (leafType : Nat → Option IrType) (env : Nat → Int) (e : Expr),
        WellTyped leafType env → ∀ ev v, scalarValueEvidence leafType e = some ev →
          value leafType env e = some v → InReported v ev := by
  intro h
  have hsum := h (fun _ => some (.uint (some 8))) (fun _ => 255)
    (.binary .add (.leaf 0) (.leaf 1)) (by rintro id ty ⟨⟩; exact ⟨by norm_num, by norm_num⟩)
    (.integer ⟨some 8, some false, none, true⟩) 510 (by decide) (by decide)
  exact absurd (hsum 8 false rfl rfl).2 (by decide)

end Harc.ScalarEvidence
