import Harc.TypedConstraint
import Mathlib.Data.Int.Basic

/-!
What a typed constraint means: fields have Boolean, integer or list values, and an
operation of a bit-vector type is the operation on integers, reduced to the type.
Division by zero is that of the bit-vector theory, as the design of the IR has it.
-/

namespace Harc.TypedMeaning

open Harc.TypedConstraint

inductive FieldValue where
  | bool (value : Bool)
  | int (value : Int)
  | list (elems : List FieldValue)

/-- The number of a type that agrees with an integer on the bits of the type. -/
def wrap (sign : Sign) (width : Nat) (z : Int) : Int :=
  match sign with
  | .unsigned => z % 2 ^ width
  | .signed => z.bmod (2 ^ width)

/-- The number that a bit pattern stands for. -/
def readBits (sign : Sign) {width : Nat} (x : BitVec width) : Int :=
  match sign with
  | .unsigned => x.toNat
  | .signed => x.toInt

def quotient (a b : Int) : Int :=
  if b = 0 then (if a < 0 then 1 else -1) else a.tdiv b

/-- The exact result of an operator on the numbers of a type. -/
def exact (op : CBinaryOp) (width : Nat) (a b : Int) : Int :=
  match op with
  | .add => a + b
  | .sub => a - b
  | .mul => a * b
  | .div => quotient a b
  | .mod => a.tmod b
  | .bitAnd => (BitVec.ofInt width a &&& BitVec.ofInt width b).toInt
  | .bitOr => (BitVec.ofInt width a ||| BitVec.ofInt width b).toInt
  | .bitXor => (BitVec.ofInt width a ^^^ BitVec.ofInt width b).toInt
  | .shl => a * 2 ^ b.toNat
  | .shr => a / 2 ^ b.toNat
  | _ => 0

def ordered (op : CBinaryOp) (a b : Int) : Bool :=
  match op with
  | .lt => decide (a < b)
  | .le => decide (a ≤ b)
  | .gt => decide (b < a)
  | .ge => decide (b ≤ a)
  | _ => false

/-- The number by which values are ordered and compared. -/
def FieldValue.rank : FieldValue → Option Int
  | .bool b => some (if b then 1 else 0)
  | .int z => some z
  | .list _ => none

/-- The meaning of a binary operator whose left operand has the given type. -/
def binaryMeaning (op : CBinaryOp) (lhsTy : CType) (x y : FieldValue) : Option FieldValue :=
  match op with
  | .logicalAnd =>
      match x, y with
      | .bool a, .bool b => some (.bool (a && b))
      | _, _ => none
  | .logicalOr =>
      match x, y with
      | .bool a, .bool b => some (.bool (a || b))
      | _, _ => none
  | .eq => x.rank.bind fun a => y.rank.map fun b => .bool (decide (a = b))
  | .ne => x.rank.bind fun a => y.rank.map fun b => .bool (!decide (a = b))
  | .lt | .le | .gt | .ge => x.rank.bind fun a => y.rank.map fun b => .bool (ordered op a b)
  | _ =>
      match lhsTy, x, y with
      | .bv width sign, .int a, .int b => some (.int (wrap sign width (exact op width a b)))
      | _, _, _ => none

def unaryMeaning (op : CUnaryOp) (ty : CType) (x : FieldValue) : Option FieldValue :=
  match op, ty, x with
  | .logicalNot, _, .bool b => some (.bool !b)
  | .neg, .bv width sign, .int a => some (.int (wrap sign width (-a)))
  | .bitNot, .bv width sign, .int a => some (.int (wrap sign width (-a - 1)))
  | _, _, _ => none

/-- A value lies between two bounds, where there are any. -/
def between (lo hi : Option FieldValue) (x : FieldValue) : Option FieldValue :=
  match x.rank, lo.map FieldValue.rank, hi.map FieldValue.rank with
  | some _, none, none => some (.bool true)
  | some a, some (some l), none => some (.bool (decide (l ≤ a)))
  | some a, none, some (some h) => some (.bool (decide (a ≤ h)))
  | some a, some (some l), some (some h) => some (.bool (decide (l ≤ a) && decide (a ≤ h)))
  | _, _, _ => none

def holdsTrue : Option FieldValue → Bool
  | some (.bool true) => true
  | _ => false

/-- The values of the fields. -/
abbrev Assignment := FieldPath → FieldValue

section Meaning

variable (values : Assignment)

mutual

/-- The value of an expression, with the values of the bound variables.  A membership in
the empty set is false, and one in a range without bounds is true, for any item. -/
def meaning : CTypedExpr → (Nat → Option FieldValue) → Option FieldValue
  | .bvLit value ty, _ =>
      match ty with
      | .bv width sign => some (.int (wrap sign width value.toNat))
      | _ => none
  | .boolLit value _, _ => some (.bool value)
  | .enumLit _ variantIdx _, _ => some (.int variantIdx)
  | .fieldRef path _, _ => some (values path)
  | .localRef id _, locals => locals id
  | .unary op inner ty, locals => (meaning inner locals).bind (unaryMeaning op ty)
  | .binary op lhs rhs _, locals =>
      (meaning lhs locals).bind fun x =>
        (meaning rhs locals).bind fun y => binaryMeaning op lhs.ty x y
  | .inSet item (.set items _) _, locals =>
      if items.isEmpty then some (.bool false)
      else
        (meaning item locals).bind fun x =>
          (meanings items locals).bind fun ys =>
            x.rank.map fun a => .bool (ys.any fun y => y.rank == some a)
  | .inSet item (.range lo hi _) _, locals | .inRange item lo hi _, locals =>
      if lo.isNone && hi.isNone then some (.bool true)
      else
        (meaning item locals).bind fun x =>
          (meaningBound lo locals).bind fun l =>
            (meaningBound hi locals).bind fun h => between l h x
  | .inSet _ _ _, _ => none
  | .set _ _, _ => none
  | .range _ _ _, _ => none
  | .fieldMethodCall target .len _ ty, locals =>
      match meaning target locals, ty with
      | some (.list elems), .bv width sign => some (.int (wrap sign width elems.length))
      | _, _ => none
  | .forAll var iter body _, locals =>
      match meaning iter locals with
      | some (.list elems) =>
          some (.bool (elems.all fun x =>
            holdsTrue (meaning body fun id => if id = var then some x else locals id)))
      | _ => none

def meanings : List CTypedExpr → (Nat → Option FieldValue) → Option (List FieldValue)
  | [], _ => some []
  | e :: es, locals =>
      (meaning e locals).bind fun x => (meanings es locals).map (x :: ·)

def meaningBound : Option CTypedExpr → (Nat → Option FieldValue) → Option (Option FieldValue)
  | none, _ => some none
  | some e, locals => (meaning e locals).map some

end

end Meaning

/-- The declared domain of a field. -/
def InDomain (env : FieldEnv) : CType → FieldValue → Prop
  | .bool, .bool _ => True
  | .bv width .unsigned, .int z => 0 ≤ z ∧ z < 2 ^ width
  | .bv width .signed, .int z => -(2 ^ width) ≤ 2 * z ∧ 2 * z < 2 ^ width
  | .enum domain, .int z =>
      ∃ entry, env.enumById domain = some entry ∧ 0 ≤ z ∧ z < entry.variants.length
  | _, _ => False

/-- The values lie in the domains of the fields and satisfy every hard constraint. -/
def Satisfied (problem : CTypedProblem) (values : Assignment) : Prop :=
  (∀ f ∈ problem.env.fields, InDomain problem.env f.2.ty (values f.1)) ∧
    ∀ c ∈ problem.constraints, holdsTrue (meaning values c.expr fun _ => none) = true

/-! ### Integers and bit patterns -/

section Patterns

variable {width : Nat} (sign : Sign)

theorem readBits_ofInt (z : Int) : readBits sign (BitVec.ofInt width z) = wrap sign width z := by
  cases sign with
  | unsigned =>
      have hpos : (0 : Int) < 2 ^ width := Int.pow_pos (by decide)
      have hcast : ((2 ^ width : Nat) : Int) = 2 ^ width := by push_cast; rfl
      rw [readBits, wrap, BitVec.toNat_ofInt, hcast]
      exact Int.toNat_of_nonneg (Int.emod_nonneg z (by omega))
  | signed => simp [readBits, wrap, BitVec.toInt_ofInt]

theorem ofInt_readBits (x : BitVec width) : BitVec.ofInt width (readBits sign x) = x := by
  cases sign with
  | unsigned => simp [readBits]
  | signed => simp [readBits, BitVec.ofInt_toInt]

/-- A pattern reads as the reduction of any integer that it is the pattern of. -/
theorem readBits_eq_wrap {x : BitVec width} {z : Int} (h : x = BitVec.ofInt width z) :
    readBits sign x = wrap sign width z := by
  rw [h, readBits_ofInt]

end Patterns

end Harc.TypedMeaning
