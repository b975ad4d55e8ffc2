import Harc.SolverSession
import Harc.ConstraintExpr
import Harc.TwosComplement
import Mathlib.Data.List.Sort

/-!
A site of a constrained `randomize`: the fields of its record, the formulas of their
domains, and how the renderer sorts the constraints of the site.
-/

namespace Harc.RandomizeSite

open Harc.SolverSession
open Harc.ConstraintExpr
open Harc.TwosComplement

inductive AttrArg where
  | expr (e : Expr)
  | withinScope (scope : String)
  | other

structure Attr where
  name : String
  args : List AttrArg

structure ListFieldInfo where
  elemWidth : Nat
  elemSigned : Bool

structure TxnFieldInfo where
  name : String
  width : Nat
  signed : Bool
  enumVariants : Option Nat
  /-- The width of an enum is that of its last index. -/
  enum_fits : ∀ n ∈ enumVariants, signed = false ∧ n ≤ 2 ^ width
  list : Option ListFieldInfo
  nonRandom : Bool
  attrs : List Attr
  whenGuard : Option Expr

def txnFieldSolverWidth (f : TxnFieldInfo) : Nat :=
  match f.list with
  | some list => list.elemWidth
  | none => f.width

def fieldAttrRange (f : TxnFieldInfo) : Option (Expr × Expr) :=
  f.attrs.findSome? fun a =>
    if a.name ≠ "range" then none
    else
      match a.args with
      | .expr lo :: .expr hi :: _ => some (lo, hi)
      | _ => none

def fieldAttrUnique (f : TxnFieldInfo) : Bool :=
  f.attrs.any fun a => a.name = "unique"

def fieldAttrUniqueScope (f : TxnFieldInfo) : Option String :=
  match f.attrs.find? fun a => a.name = "unique" with
  | none => none
  | some a =>
      a.args.findSome? fun arg =>
        match arg with
        | .withinScope scope => some scope
        | _ => none

/-- A random scalar field with a persistent history. -/
def isUniqueField (f : TxnFieldInfo) : Bool :=
  f.list.isNone && f.width > 0 && !f.nonRandom && f.whenGuard.isNone &&
    (fieldAttrUniqueScope f).isSome

/-- The solver's variables: one for a scalar field, the length and the unrolled
elements for a list field. -/
inductive Var where
  | scalar (field : String)
  | len (field : String)
  | elem (field : String) (i : Nat)
deriving DecidableEq, Repr

abbrev Assignment (w : Nat) := Var → BitVec w

/-- The carriers of the target record, as bit patterns. -/
structure Target where
  scalar : String → Nat
  list : String → List Nat

/-- What the translation of constraint expressions asserts at the solver's width. -/
structure Translation (w : Nat) where
  clauses : Expr → List (Formula (Assignment w))
  guard : Expr → Formula (Assignment w)
  bound : Expr → Assignment w → BitVec w

structure Site where
  record : String
  fields : List TxnFieldInfo
  names_nodup : (fields.map TxnFieldInfo.name).Nodup
  targetRoot : Option String
  hardConstraints : List Expr
  softConstraints : List (Expr × Nat)
  listUnrollBounds : String → Option Nat

section Values

/-- The number of bits of the C++ type that carries a value of a width. -/
def carrierWidth (width : Nat) : Nat :=
  if width ≤ 64 then 64 else 32 * ((width + 31) / 32)

/-- `solver_bv_value_call` on a carrier. -/
def solverBvValue (w : Nat) (signed : Bool) (width carrier : Nat) : BitVec w :=
  if signed then (BitVec.ofNat width carrier).signExtend w else BitVec.ofNat w carrier

/-- The carrier that is read back from the model. -/
def modelCarrier {w : Nat} (width : Nat) (value : BitVec w) : Nat :=
  (value.setWidth (carrierWidth width)).toNat

theorem width_le_carrierWidth (width : Nat) : width ≤ carrierWidth width := by
  unfold carrierWidth
  split <;> omega

theorem solverBvValue_modelCarrier_unsigned {w width : Nat} {z : BitVec w}
    (hz : z.toNat < 2 ^ width) :
    solverBvValue w false width (modelCarrier width z) = z := by
  have hcarrier : z.toNat < 2 ^ carrierWidth width :=
    Nat.lt_of_lt_of_le hz (Nat.pow_le_pow_right (Nat.succ_pos 1) (width_le_carrierWidth width))
  rw [solverBvValue, modelCarrier, BitVec.toNat_setWidth, Nat.mod_eq_of_lt hcarrier]
  simp

theorem solverBvValue_modelCarrier_signed {w k : Nat} {z : BitVec w} (hw : k + 1 ≤ w)
    (hz : InRange k z.toInt) :
    solverBvValue w true (k + 1) (modelCarrier (k + 1) z) = z := by
  have hlow : BitVec.ofNat (k + 1) (z.setWidth (carrierWidth (k + 1))).toNat =
      z.setWidth (k + 1) := by
    apply BitVec.eq_of_toNat_eq
    rw [BitVec.toNat_ofNat, BitVec.toNat_setWidth, BitVec.toNat_setWidth,
      Nat.mod_mod_of_dvd _ (Nat.pow_dvd_pow 2 (width_le_carrierWidth _))]
  rw [solverBvValue, modelCarrier, if_pos rfl, hlow, ← BitVec.toInt_inj,
    BitVec.toInt_signExtend_of_le hw, BitVec.toInt_setWidth]
  calc
    Int.bmod (z.toNat : Int) (2 ^ (k + 1)) = Int.bmod z.toInt (2 ^ (k + 1)) := by
      rw [BitVec.toInt_eq_toNat_bmod, Int.bmod_bmod_of_dvd (Nat.pow_dvd_pow 2 hw)]
    _ = z.toInt := hz.bmod_eq

end Values

section Domains

variable {w : Nat}

/-- The declared domain of an integer variable. -/
def integerDomain (z : Var) (signed : Bool) (width : Nat) : List (Formula (Assignment w)) :=
  if width < w then
    if signed then
      [fun a => (BitVec.ofInt w (-2 ^ (width - 1))).sle (a z),
        fun a => (a z).sle (BitVec.ofInt w (2 ^ (width - 1) - 1))]
    else [fun a => (a z).ult (1#w <<< width)]
  else []

def solverRangeConstraint (t : Translation w) (f : TxnFieldInfo) (lo hi : Expr) :
    Formula (Assignment w) := fun a =>
  let z := a (.scalar f.name)
  if f.signed then (t.bound lo a).sle z && z.sle (t.bound hi a)
  else (t.bound lo a).ule z && z.ule (t.bound hi a)

/-- The value of a non-random field. -/
def storedValue (z : Var) (signed : Bool) (width carrier : Nat) : Formula (Assignment w) :=
  fun a => a z == solverBvValue w signed width carrier

def scalarDomain (t : Translation w) (target : Target) (f : TxnFieldInfo) :
    List (Formula (Assignment w)) :=
  let z := Var.scalar f.name
  let declared : List (Formula (Assignment w)) :=
    match f.enumVariants with
    | some n => [fun a => (a z).ule (BitVec.ofNat w (n - 1))]
    | none => integerDomain z f.signed f.width
  let stored : List (Formula (Assignment w)) :=
    if f.nonRandom then [storedValue z f.signed f.width (target.scalar f.name)] else []
  let range : List (Formula (Assignment w)) :=
    match fieldAttrRange f, f.whenGuard with
    | some (lo, hi), none => [solverRangeConstraint t f lo hi]
    | _, _ => []
  declared ++ stored ++ range

def listDomain (bounds : String → Option Nat) (target : Target) (f : TxnFieldInfo)
    (info : ListFieldInfo) : List (Formula (Assignment w)) :=
  let maxLen := (bounds f.name).getD 0
  let len := Var.len f.name
  let stored := target.list f.name
  let length : List (Formula (Assignment w)) :=
    (fun a => (a len).ule (BitVec.ofNat w maxLen)) ::
      if f.nonRandom then [fun a => a len == BitVec.ofNat w stored.length] else []
  let element (i : Nat) : List (Formula (Assignment w)) :=
    integerDomain (.elem f.name i) info.elemSigned info.elemWidth ++
      match f.nonRandom, stored[i]? with
      | true, some carrier =>
          [storedValue (.elem f.name i) info.elemSigned info.elemWidth carrier]
      | _, _ => []
  -- `[unique]` without a scope keeps the elements of one call apart
  let distinct (i j : Nat) : Formula (Assignment w) := fun a =>
    (a len).ule (BitVec.ofNat w j) || a (.elem f.name i) != a (.elem f.name j)
  let unique : List (Formula (Assignment w)) :=
    if fieldAttrUnique f && (fieldAttrUniqueScope f).isNone then
      (List.range maxLen).flatMap fun i =>
        (List.range' (i + 1) (maxLen - (i + 1))).map (distinct i)
    else []
  length ++ (List.range maxLen).flatMap element ++ unique

def fieldDomain (t : Translation w) (bounds : String → Option Nat) (target : Target)
    (f : TxnFieldInfo) : List (Formula (Assignment w)) :=
  match f.list with
  | some info => listDomain bounds target f info
  | none => if f.width = 0 then [] else scalarDomain t target f

theorem toInt_ofInt_of_inRange {k : Nat} {z : Int} (hk : k < w) (hz : InRange k z) :
    (BitVec.ofInt w z).toInt = z := by
  obtain ⟨v, rfl⟩ : ∃ v, w = v + 1 := ⟨w - 1, by omega⟩
  rw [BitVec.toInt_ofInt]
  exact (hz.mono (by omega)).bmod_eq

theorem inRange_of_integerDomain {z : Var} {k : Nat} {a : Assignment w} (hk : k + 1 ≤ w)
    (h : Models (integerDomain z true (k + 1)) a) : InRange k (a z).toInt := by
  have hpos : (0 : Int) < 2 ^ k := by positivity
  rcases Nat.lt_or_ge (k + 1) w with hlt | hge
  · have hlow : InRange k (-2 ^ k) := ⟨le_refl _, by omega⟩
    have hhigh : InRange k (2 ^ k - 1) := ⟨by omega, by omega⟩
    simp only [integerDomain, if_pos hlt, if_true, Nat.add_sub_cancel, models_cons,
      BitVec.sle_iff_toInt_le, toInt_ofInt_of_inRange (Nat.lt_of_succ_lt hlt) hlow,
      toInt_ofInt_of_inRange (Nat.lt_of_succ_lt hlt) hhigh] at h
    exact ⟨h.1, by omega⟩
  · obtain rfl : w = k + 1 := by omega
    have hlow := (a z).le_two_mul_toInt
    have hhigh := (a z).two_mul_toInt_lt
    have hpow : ((2 ^ (k + 1) : Nat) : Int) = 2 * 2 ^ k := by
      push_cast
      ring
    constructor <;> omega

theorem lt_of_integerDomain {z : Var} {width : Nat} {a : Assignment w} (hwidth : width ≤ w)
    (h : Models (integerDomain z false width) a) : (a z).toNat < 2 ^ width := by
  rcases Nat.lt_or_ge width w with hlt | hge
  · have hpow : 1 % 2 ^ w * 2 ^ width % 2 ^ w = 2 ^ width := by
      rw [Nat.mod_eq_of_lt (Nat.one_lt_two_pow (by omega)), Nat.one_mul,
        Nat.mod_eq_of_lt (Nat.pow_lt_pow_right (by omega) hlt)]
    simpa [integerDomain, hlt, BitVec.ult, Nat.shiftLeft_eq, hpow] using h
  · obtain rfl : w = width := by omega
    exact (a z).isLt

/-- A value of the declared domain is read back and asserted again as itself. -/
theorem solverBvValue_modelCarrier {t : Translation w} {target : Target} {f : TxnFieldInfo}
    {a : Assignment w} (hpos : 0 < f.width) (hw : f.width ≤ w)
    (h : Models (scalarDomain t target f) a) :
    solverBvValue w f.signed f.width (modelCarrier f.width (a (.scalar f.name))) =
      a (.scalar f.name) := by
  have hdeclared := (models_append.mp (models_append.mp h).1).1
  cases hsigned : f.signed with
  | true =>
      obtain ⟨k, hk⟩ : ∃ k, f.width = k + 1 := ⟨f.width - 1, by omega⟩
      have henum : f.enumVariants = none := by
        rw [Option.eq_none_iff_forall_ne_some]
        intro n hn
        have := (f.enum_fits n hn).1
        rw [hsigned] at this
        exact Bool.noConfusion this
      simp only [henum, hsigned, hk] at hdeclared
      rw [hk] at hw ⊢
      exact solverBvValue_modelCarrier_signed hw (inRange_of_integerDomain hw hdeclared)
  | false =>
      apply solverBvValue_modelCarrier_unsigned
      cases henum : f.enumVariants with
      | none =>
          simp only [henum, hsigned] at hdeclared
          exact lt_of_integerDomain hw hdeclared
      | some n =>
          have hfits := (f.enum_fits n henum).2
          have hle : (n - 1) % 2 ^ w ≤ n - 1 := Nat.mod_le _ _
          have hpow := Nat.two_pow_pos f.width
          simp only [henum, models_cons, BitVec.ule, decide_eq_true_eq,
            BitVec.toNat_ofNat] at hdeclared
          omega

end Domains

namespace Site

/-- The common width of the solver's variables. -/
def solverWidth (site : Site) (captureWidth : Nat) : Nat :=
  max (max ((site.fields.map txnFieldSolverWidth).foldr max 0) captureWidth) 64

theorem le_solverWidth {site : Site} {f : TxnFieldInfo} (hf : f ∈ site.fields)
    (captureWidth : Nat) : txnFieldSolverWidth f ≤ site.solverWidth captureWidth := by
  have hle : ∀ {widths : List Nat} {width : Nat}, width ∈ widths →
      width ≤ widths.foldr max 0 := by
    intro widths width hmem
    induction widths with
    | nil => simp at hmem
    | cons x xs ih =>
        rcases List.mem_cons.mp hmem with rfl | hmem
        · exact Nat.le_max_left _ _
        · exact Nat.le_trans (ih hmem) (Nat.le_max_right _ _)
  have hmem := hle (List.mem_map_of_mem (f := txnFieldSolverWidth) hf)
  unfold solverWidth
  omega

def fieldInfo (site : Site) (name : String) : Option TxnFieldInfo :=
  site.fields.find? fun f => f.name = name

def known (site : Site) (name : String) : Bool :=
  (site.fieldInfo name).isSome

def guardedBranchConstraints (site : Site) : List Expr :=
  site.hardConstraints.filter fun c => (guardedConstraintGuard c).isSome

def baseHardConstraints (site : Site) : List Expr :=
  site.hardConstraints.filter fun c => (guardedConstraintGuard c).isNone

/-- The scalar fields of a `when` branch with a range attribute. -/
def guardedFieldRanges (site : Site) : List (TxnFieldInfo × Expr × Expr × Expr) :=
  site.fields.filterMap fun f =>
    if f.list.isSome || f.width = 0 then none
    else
      match fieldAttrRange f, f.whenGuard with
      | some (lo, hi), some guard => some (f, guard, lo, hi)
      | _, _ => none

/-- The target fields that the guards read. -/
def discriminatorFields (site : Site) : List String :=
  (site.guardedBranchConstraints.flatMap fun c =>
    match guardedConstraintGuard c with
    | some guard => collectRandomizeTargetFieldRefs site.known site.targetRoot guard
    | none => []) ++
  site.guardedFieldRanges.flatMap fun r =>
    collectRandomizeTargetFieldRefs site.known site.targetRoot r.2.1

/-- The discriminators that have a scalar variable. -/
def pinnedDiscriminators (site : Site) : List String :=
  site.discriminatorFields.filter fun name =>
    match site.fieldInfo name with
    | some info => info.list.isNone && info.width ≠ 0
    | none => false

/-- The fields that an equality constraint pins. -/
def pinned (site : Site) : List String :=
  site.hardConstraints.filterMap (pinnedField site.known site.targetRoot)

def freeFields (site : Site) : List TxnFieldInfo :=
  site.fields.filter fun f =>
    f.list.isNone && f.width > 0 && !f.nonRandom && !(f.name ∈ site.pinned) &&
      f.whenGuard.isNone

def uniqueFields (site : Site) : List TxnFieldInfo :=
  site.fields.filter isUniqueField

/-- The soft constraints by descending weight, in source order among equal ones. -/
def orderedSoftConstraints (site : Site) : List (Expr × Nat) :=
  site.softConstraints.insertionSort fun a b => b.2 ≤ a.2

end Site

end Harc.RandomizeSite
