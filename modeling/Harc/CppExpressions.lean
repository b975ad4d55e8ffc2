import Harc.WaitBudget
import Harc.StructuredControl

/-!
The C++ values of the scalar expressions that loop heads are made of.  Locals of at most 64
bits live in `int64_t` or `uint64_t`; operands are compared and added in their common type.
-/

namespace Harc.CppExpressions

open Harc.TestbenchIr
open Harc.IrExpr
open Harc.CppScalar
open Harc.TwosComplement
open Harc.WaitBudget (isSint)
open Harc.StructuredControl

/-! ### Operators -/

/-- The number is one of the type. -/
def Represents (c : Carrier) (z : Int) : Prop :=
  if c.signed then -2 ^ (c.bits - 1) ≤ z ∧ z < 2 ^ (c.bits - 1) else 0 ≤ z ∧ z < 2 ^ c.bits

theorem convert_eq (x : CValue) (c : Carrier) : x.convert c = BitVec.ofInt c.bits x.toInt := by
  rw [CValue.convert, CValue.toInt]
  split_ifs
  · rfl
  · rw [BitVec.ofInt_natCast, BitVec.ofNat_toNat]

theorem toInt_cast {x : CValue} {c : Carrier} (h : Represents c x.toInt) :
    (x.cast c).toInt = x.toInt := by
  have hpos : 0 < c.bits := by
    have hvalid := c.valid
    omega
  rw [Represents] at h
  rw [CValue.toInt, CValue.cast, convert_eq]
  split_ifs at h ⊢ with hsigned
  · obtain ⟨k, hk⟩ : ∃ k, c.bits = k + 1 := ⟨c.bits - 1, by omega⟩
    rw [hk, Nat.add_sub_cancel] at h
    have hrange : InRange k x.toInt := h
    rw [BitVec.toInt_ofInt, hk, hrange.bmod_eq]
  · rw [BitVec.toNat_ofInt]
    push_cast
    rw [Int.emod_eq_of_lt h.1 h.2, Int.toNat_of_nonneg h.1]

def ofBool (b : Bool) : CValue := ⟨.bool, BitVec.ofBool b⟩

def truthy (x : CValue) : Bool := decide (x.toInt ≠ 0)

@[simp] theorem truthy_ofBool (b : Bool) : truthy (ofBool b) = b := by
  cases b <;> decide

/-- A comparison in the common type. -/
def compare (rel : Int → Int → Bool) (x y : CValue) : CValue :=
  let c := Carrier.common x.carrier y.carrier
  ofBool (rel (x.cast c).toInt (y.cast c).toInt)

def add (x y : CValue) : CValue :=
  let c := Carrier.common x.carrier y.carrier
  ⟨c, x.convert c + y.convert c⟩

theorem compare_eq {rel : Int → Int → Bool} {x y : CValue}
    (hx : Represents (Carrier.common x.carrier y.carrier) x.toInt)
    (hy : Represents (Carrier.common x.carrier y.carrier) y.toInt) :
    compare rel x y = ofBool (rel x.toInt y.toInt) := by
  rw [compare, toInt_cast hx, toInt_cast hy]

/-! ### Expressions and statements -/

structure World (Rest : Type) where
  locals : LocalId → BitVec 64
  rest : Rest

def World.set {Rest : Type} (w : World Rest) (l : LocalId) (x : BitVec 64) : World Rest :=
  { w with locals := Function.update w.locals l x }

/-- The types of the locals, and the meaning of all that is no part of a loop head. -/
structure Interp (Leaf Op Rest : Type) where
  cc : Compiler
  types : LocalId → IrType
  other : Expr Leaf → World Rest → CValue
  effect : Stmt Leaf Op → World Rest → World Rest
  resume : Suspension (Expr Leaf) → World Rest → World Rest

section Interp

variable {Leaf Op Rest : Type} (I : Interp Leaf Op Rest)

def literalValue (value : Nat) : IrType → CValue
  | .sint _ => .ofI64 (BitVec.ofNat 64 value)
  | .uint _ => .ofU64 (BitVec.ofNat 64 value)
  | _ => decimal I.cc value

def localValue (w : World Rest) (l : LocalId) : CValue :=
  if isSint (I.types l) then .ofI64 (w.locals l) else .ofU64 (w.locals l)

def value (w : World Rest) : Expr Leaf → CValue
  | .literal value ty => literalValue I value ty
  | .local l => localValue I w l
  | .binary .lt a b => compare (fun x y => decide (x < y)) (value w a) (value w b)
  | .binary .le a b => compare (fun x y => decide (x ≤ y)) (value w a) (value w b)
  | .binary .eq a b => compare (fun x y => decide (x = y)) (value w a) (value w b)
  | .binary .add a b => add (value w a) (value w b)
  | .binary .and a b => ofBool (truthy (value w a) && truthy (value w b))
  | .binary .or a b => ofBool (truthy (value w a) || truthy (value w b))
  | .unary .not a => ofBool (!truthy (value w a))
  | .widthCast .zext 64 none a => .ofU64 (value w a).toU64
  | e => I.other e w

def exec (s : Stmt Leaf Op) (w : World Rest) : World Rest :=
  match s with
  | .assign dest e => w.set dest (value I w e).toU64
  | s => I.effect s w

def machine : Machine (Stmt Leaf Op) (Expr Leaf) (World Rest) where
  exec := exec I
  truth e w := truthy (value I w e)
  resume := I.resume

section Values

variable {w : World Rest} {a b : Expr Leaf}

theorem machine_truth (e : Expr Leaf) : (machine I).truth e w = truthy (value I w e) := rfl

theorem value_local (l : LocalId) : value I w (.local l) = localValue I w l := rfl

theorem value_lt : value I w (.binary .lt a b) =
    compare (fun x y => decide (x < y)) (value I w a) (value I w b) := rfl

theorem value_le : value I w (.binary .le a b) =
    compare (fun x y => decide (x ≤ y)) (value I w a) (value I w b) := rfl

theorem value_eq : value I w (.binary .eq a b) =
    compare (fun x y => decide (x = y)) (value I w a) (value I w b) := rfl

theorem value_and : value I w (.binary .and a b) =
    ofBool (truthy (value I w a) && truthy (value I w b)) := rfl

theorem value_or : value I w (.binary .or a b) =
    ofBool (truthy (value I w a) || truthy (value I w b)) := rfl

theorem value_not : value I w (.unary .not a) = ofBool (!truthy (value I w a)) := rfl

theorem value_unsigned : value I w (.widthCast .zext 64 none a) = .ofU64 (value I w a).toU64 :=
  rfl

end Values

end Interp

end Harc.CppExpressions
