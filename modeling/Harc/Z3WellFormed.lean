import Harc.Fallible
import Harc.Z3Emission

/-!
When the script that is rendered for a verified problem is well formed.  The verifier
fixes the types of every operator application, so that only three things are left: the
names of fields and assertions, the symbols of list lengths, which are never declared,
and ranges over Boolean values, which are rendered with a bit-vector order.
-/

namespace Harc.Z3WellFormed

open Harc.Fallible
open Harc.SmtScript
open Harc.TypedConstraint
open Harc.Z3Emission

/-! ### What the verifier says of one node -/

theorem expectType_nil (context : String) (expected found : CType) :
    expectType context expected found = [] ↔ found = expected := by
  unfold expectType
  split <;> simp_all

theorem expectMatchingBv_ok (op : CBinaryOp) (lhs rhs : CType) (width : Nat) (sign : Sign) :
    expectMatchingBv op lhs rhs = .ok (width, sign) ↔
      lhs = .bv width sign ∧ rhs = .bv width sign := by
  unfold expectMatchingBv
  cases lhs <;> cases rhs <;> simp [CType.asBv]
  rename_i lw ls rw rs
  by_cases hw : lw = rw
  · by_cases hs : ls = rs
    · simp [hw, hs]
    · simp only [hw, hs, if_true, if_false]
      constructor
      · intro h
        simp at h
      · rintro ⟨⟨-, h⟩, -, h'⟩
        exact absurd (h.trans h'.symm) hs
  · simp only [hw, if_false]
    constructor
    · intro h
      simp at h
    · rintro ⟨⟨h, -⟩, h', -⟩
      exact absurd (h.trans h'.symm) hw

theorem errorsOf_expectMatchingBv (op : CBinaryOp) (lhs rhs : CType) :
    errorsOf (expectMatchingBv op lhs rhs) = [] ↔
      ∃ width sign, lhs = .bv width sign ∧ rhs = .bv width sign := by
  constructor
  · intro h
    cases hm : expectMatchingBv op lhs rhs with
    | ok r => exact ⟨r.1, r.2, (expectMatchingBv_ok op lhs rhs r.1 r.2).mp hm⟩
    | error es =>
        -- every error of this check reports one thing
        rw [hm] at h
        unfold expectMatchingBv at hm
        simp only [errorsOf] at h
        subst h
        split at hm
        · simp at hm
        · split at hm
          · simp at hm
          · split at hm
            · simp at hm
            · split at hm <;> simp at hm
  · rintro ⟨width, sign, hl, hr⟩
    rw [(expectMatchingBv_ok op lhs rhs width sign).mpr ⟨hl, hr⟩]
    rfl

inductive OpKind where
  | arithmetic
  | equality
  | comparison
  | logical
  | shift
deriving DecidableEq

def opKind : CBinaryOp → OpKind
  | .add | .sub | .mul | .div | .mod | .bitAnd | .bitOr | .bitXor => .arithmetic
  | .eq | .ne => .equality
  | .lt | .le | .gt | .ge => .comparison
  | .logicalAnd | .logicalOr => .logical
  | .shl | .shr => .shift

/-- The operand and result types that the verifier admits for a binary operator. -/
def BinaryTyped (op : CBinaryOp) (lhs rhs ty : CType) : Prop :=
  match opKind op with
  | .arithmetic => ∃ width sign, lhs = .bv width sign ∧ rhs = .bv width sign ∧
      ty = .bv width sign
  | .equality => ty = .bool ∧ lhs = rhs ∧
      (lhs = .bool ∨ (∃ domain, lhs = .enum domain) ∨ ∃ width sign, lhs = .bv width sign)
  | .comparison => ty = .bool ∧ ∃ width sign, lhs = .bv width sign ∧ rhs = .bv width sign
  | .logical => lhs = .bool ∧ rhs = .bool ∧ ty = .bool
  | .shift => ty = lhs ∧ ∃ width sign amount, lhs = .bv width sign ∧ rhs = .bv amount .unsigned

theorem verifyEquality_nil (op : CBinaryOp) (lhs rhs ty : CType)
    (h : verifyEquality op lhs rhs ty = []) :
    ty = .bool ∧ lhs = rhs ∧
      (lhs = .bool ∨ (∃ domain, lhs = .enum domain) ∨ ∃ width sign, lhs = .bv width sign) := by
  unfold verifyEquality at h
  split at h
  · exact ⟨(expectType_nil _ _ _).mp h, rfl, Or.inl rfl⟩
  · rename_i dl dr
    rw [List.append_eq_nil_iff, expectType_nil] at h
    have hd : dl = dr := by
      by_contra hne
      simp [hne] at h
    exact ⟨h.2, congrArg CType.enum hd, Or.inr (Or.inl ⟨dl, rfl⟩)⟩
  · rw [List.append_eq_nil_iff, errorsOf_expectMatchingBv, expectType_nil] at h
    obtain ⟨⟨w, s, hl, hr⟩, hty⟩ := h
    exact ⟨hty, hl.trans hr.symm, Or.inr (Or.inr ⟨w, s, hl⟩)⟩

/-- What the verifier checks of a binary operator is a matter of its kind. -/
theorem verifyBinary_eq (op : CBinaryOp) (lhs rhs ty : CType) :
    verifyBinary op lhs rhs ty =
      match opKind op with
      | .arithmetic =>
          match expectMatchingBv op lhs rhs with
          | .error es => es
          | .ok (width, sign) => expectType "binary bv result" (.bv width sign) ty
      | .equality => verifyEquality op lhs rhs ty
      | .comparison =>
          errorsOf (expectMatchingBv op lhs rhs) ++ expectType "comparison result" .bool ty
      | .logical =>
          (if lhs ≠ .bool ∨ rhs ≠ .bool then [.binaryOperandType op "bool x bool" lhs rhs]
            else []) ++ expectType "logical result" .bool ty
      | .shift =>
          (if lhs.isBv then [] else [.binaryOperandType op "bit-vector lhs" lhs rhs]) ++
          (match rhs.asBv with
            | some (_, .unsigned) => []
            | _ => [.binaryOperandType op "unsigned bit-vector shift amount" lhs rhs]) ++
          (if lhs.isBv then expectType "shift result" lhs ty else []) := by
  cases op <;> rfl

theorem verifyBinary_nil (op : CBinaryOp) (lhs rhs ty : CType)
    (h : verifyBinary op lhs rhs ty = []) : BinaryTyped op lhs rhs ty := by
  cases hop : opKind op with
  | equality =>
      have hcases : verifyBinary op lhs rhs ty = verifyEquality op lhs rhs ty := by
        rw [verifyBinary_eq, hop]
      simp only [BinaryTyped, hop]
      exact verifyEquality_nil op lhs rhs ty (hcases ▸ h)
  | arithmetic =>
      have hcases : verifyBinary op lhs rhs ty =
          match expectMatchingBv op lhs rhs with
          | .error es => es
          | .ok (width, sign) => expectType "binary bv result" (.bv width sign) ty := by
        rw [verifyBinary_eq, hop]
      rw [hcases] at h
      have hm : errorsOf (expectMatchingBv op lhs rhs) = [] := by
        cases hm : expectMatchingBv op lhs rhs with
        | ok r => rfl
        | error es =>
            rw [hm] at h
            exact h
      obtain ⟨w, s, hl, hr⟩ := (errorsOf_expectMatchingBv op lhs rhs).mp hm
      rw [(expectMatchingBv_ok op lhs rhs w s).mpr ⟨hl, hr⟩] at h
      simp only [BinaryTyped, hop]
      exact ⟨w, s, hl, hr, (expectType_nil _ _ _).mp h⟩
  | comparison =>
      have hcases : verifyBinary op lhs rhs ty =
          errorsOf (expectMatchingBv op lhs rhs) ++ expectType "comparison result" .bool ty := by
        rw [verifyBinary_eq, hop]
      rw [hcases, List.append_eq_nil_iff, errorsOf_expectMatchingBv, expectType_nil] at h
      simp only [BinaryTyped, hop]
      exact ⟨h.2, h.1⟩
  | logical =>
      have hcases : verifyBinary op lhs rhs ty =
          (if lhs ≠ .bool ∨ rhs ≠ .bool then [.binaryOperandType op "bool x bool" lhs rhs]
            else []) ++ expectType "logical result" .bool ty := by
        rw [verifyBinary_eq, hop]
      rw [hcases, List.append_eq_nil_iff, expectType_nil] at h
      simp only [BinaryTyped, hop]
      by_cases hb : lhs ≠ .bool ∨ rhs ≠ .bool
      · simp [hb] at h
      · rw [not_or, not_not, not_not] at hb
        exact ⟨hb.1, hb.2, h.2⟩
  | shift =>
      have hcases : verifyBinary op lhs rhs ty =
          (if lhs.isBv then [] else [.binaryOperandType op "bit-vector lhs" lhs rhs]) ++
          (match rhs.asBv with
            | some (_, .unsigned) => []
            | _ => [.binaryOperandType op "unsigned bit-vector shift amount" lhs rhs]) ++
          (if lhs.isBv then expectType "shift result" lhs ty else []) := by
        rw [verifyBinary_eq, hop]
      rw [hcases] at h
      simp only [BinaryTyped, hop]
      cases lhs with
      | bv w s =>
          cases rhs with
          | bv v u =>
              cases u with
              | unsigned =>
                  have hty : expectType "shift result" (.bv w s) ty = [] := h
                  exact ⟨(expectType_nil _ _ _).mp hty, w, s, v, rfl, rfl⟩
              | signed => exact nomatch h
          | _ => exact nomatch h
      | _ => exact nomatch h

theorem verifyUnary_nil (op : CUnaryOp) (inner ty : CType) (h : verifyUnary op inner ty = []) :
    ty = inner ∧ ((op = .logicalNot ∧ inner = .bool) ∨
      (op ≠ .logicalNot ∧ ∃ width sign, inner = .bv width sign)) := by
  cases op <;> cases inner <;> simp_all [verifyUnary, expectType_nil, CType.isBv]

/-! ### The sorts of rendered terms -/

mutual

/-- No list length and no bounded range over Boolean values stands in the parts of an
expression that are rendered.  The item of a membership in the empty set, or in a range
without bounds, is not rendered. -/
def renderable : CTypedExpr → Bool
  | .unary _ inner _ => renderable inner
  | .binary _ lhs rhs _ => renderable lhs && renderable rhs
  | .inSet item (.set items _) _ =>
      items.isEmpty || (renderable item && renderableItems items)
  | .inSet item (.range lo hi _) _ | .inRange item lo hi _ =>
      (lo.isNone && hi.isNone) ||
        (item.ty != .bool && renderable item && renderableBound lo && renderableBound hi)
  | .fieldMethodCall _ _ _ _ => false
  | .forAll _ _ body _ => renderable body
  | _ => true

def renderableItems : List CTypedExpr → Bool
  | [] => true
  | e :: es => renderable e && renderableItems es

def renderableBound : Option CTypedExpr → Bool
  | none => true
  | some e => renderable e

end

mutual

/-- The list fields whose length symbols are rendered. -/
def lengthPaths : CTypedExpr → List FieldPath
  | .unary _ inner _ => lengthPaths inner
  | .binary _ lhs rhs _ => lengthPaths lhs ++ lengthPaths rhs
  | .inSet item (.set items _) _ =>
      if items.isEmpty then [] else lengthPaths item ++ lengthPathsItems items
  | .inSet item (.range lo hi _) _ | .inRange item lo hi _ =>
      if lo.isNone && hi.isNone then []
      else lengthPaths item ++ lengthPathsBound lo ++ lengthPathsBound hi
  | .fieldMethodCall (.fieldRef path _) _ _ _ => [path]
  | .forAll _ _ body _ => lengthPaths body
  | _ => []

def lengthPathsItems : List CTypedExpr → List FieldPath
  | [] => []
  | e :: es => lengthPaths e ++ lengthPathsItems es

def lengthPathsBound : Option CTypedExpr → List FieldPath
  | none => []
  | some e => lengthPaths e

end

/-- The signature gives every field the sort of its type. -/
def Covers (env : FieldEnv) (sig : Signature) : Prop :=
  ∀ path info, env.lookup path = some info →
    ∃ sort, sortForType env info.ty = some sort ∧ sig.lookup (z3FieldName path) = some sort

theorem binaryOpSmt_shape (op : CBinaryOp) (ty : CType) :
    (binaryOpSmt op ty).shape =
      match opKind op with
      | .arithmetic | .shift => .bitVecZip
      | .equality => .equality
      | .comparison => .bitVecRelation
      | .logical => .junction := by
  cases op <;> simp only [binaryOpSmt, opKind] <;> first | rfl | (split <;> rfl)

theorem Op.sort_zip (op : Op) (hop : op.shape = .bitVecZip) (w : Nat) :
    op.sort [.bitVec w, .bitVec w] = some (.bitVec w) := by
  simp [Op.sort, hop]

theorem Op.sort_relation (op : Op) (hop : op.shape = .bitVecRelation) (w : Nat) :
    op.sort [.bitVec w, .bitVec w] = some .bool := by
  simp [Op.sort, hop]

theorem Op.sort_equality (op : Op) (hop : op.shape = .equality) (s : TermSort) :
    op.sort [s, s] = some .bool := by
  simp [Op.sort, hop]

theorem Op.sort_junction (op : Op) (hop : op.shape = .junction) :
    op.sort [.bool, .bool] = some .bool := by
  simp [Op.sort, hop]

theorem extendBv_sort (t : Term) (source target : Nat) (signed : Bool) (sig : Signature)
    (hle : source ≤ target) (ht : t.sort sig = some (.bitVec source)) :
    (extendBv t source target signed).sort sig = some (.bitVec target) := by
  unfold extendBv
  by_cases h : source = target
  · rw [if_pos h, ht, h]
  · have hsum : source + (target - source) = target := by omega
    rw [if_neg h]
    cases signed <;> simp [Term.sort, ht, hsum]

theorem extendBv_sort_none (t : Term) (source target : Nat) (signed : Bool) (sig : Signature)
    (ht : t.sort sig = none) : (extendBv t source target signed).sort sig = none := by
  unfold extendBv
  by_cases h : source = target
  · rw [if_pos h, ht]
  · rw [if_neg h]
    cases signed <;> simp [Term.sort, ht]

theorem joinBool_sort (op : Op) (hop : op.shape = .junction) (ts : List Term)
    (sig : Signature) (h : ∀ t ∈ ts, t.sort sig = some .bool) :
    (joinBool op ts).sort sig = some .bool := by
  match ts, h with
  | [], _ => rfl
  | [t], h => exact h t List.mem_cons_self
  | t :: u :: ts, h =>
      change ((Term.sorts (t :: u :: ts) sig).bind op.sort) = some .bool
      rw [Term.sorts_of_bool _ _ h]
      simp [Op.sort, hop]

theorem joinBool_sort_none (op : Op) (ts : List Term) (sig : Signature)
    (h : ∃ t ∈ ts, t.sort sig = none) : (joinBool op ts).sort sig = none := by
  match ts, h with
  | [t], h =>
      change t.sort sig = none
      simpa using h
  | t :: u :: ts, h =>
      change ((Term.sorts (t :: u :: ts) sig).bind op.sort) = none
      rw [Term.sorts_of_none _ _ h]
      rfl

/-- No bound variable is in scope: no rendered quantifier has a scalar iterator. -/
def noLocals : Locals := fun _ => none

variable {env : FieldEnv} {sig : Signature}

theorem sortForType_enum (domain : Nat) (h : checkTypeConcrete env (.enum domain) = []) :
    ∃ sort, sortForType env (.enum domain) = some sort := by
  cases he : env.enumById domain with
  | none => simp [checkTypeConcrete, he] at h
  | some entry =>
      refine ⟨.bitVec (enumWidth entry.variants.length), ?_⟩
      simp [sortForType, he]

/-- A verified expression is a literal of a set or range, or it has a sort. -/
theorem sort_of_verified (hc : Covers env sig) (e : CTypedExpr)
    (hv : verifyExpr env e noLocals = []) :
    (∃ items elem, e = .set items (.set elem)) ∨ (∃ lo hi elem, e = .range lo hi (.range elem)) ∨
      ∃ sort, sortForType env e.ty = some sort := by
  cases e with
  | set items ty =>
      refine Or.inl ⟨items, ?_⟩
      cases ty <;> simp_all [verifyExpr]
  | range lo hi ty =>
      refine Or.inr (Or.inl ⟨lo, hi, ?_⟩)
      cases ty <;> simp_all [verifyExpr]
  | fieldRef path ty =>
      refine Or.inr (Or.inr ?_)
      simp only [verifyExpr, verifyFieldRef, List.append_eq_nil_iff] at hv
      cases hl : env.lookup path with
      | none => simp [hl] at hv
      | some info =>
          obtain ⟨sort, hsort, -⟩ := hc path info hl
          have hty : info.ty = ty := by simpa [hl] using hv.2
          exact ⟨sort, hty ▸ hsort⟩
  | enumLit domain variantIdx ty =>
      refine Or.inr (Or.inr ?_)
      simp only [verifyExpr, verifyEnumLit, List.append_eq_nil_iff] at hv
      have hty : ty = .enum domain := by
        by_contra hne
        simp [hne] at hv
      change ∃ sort, sortForType env ty = some sort
      subst hty
      exact sortForType_enum domain hv.1
  | unary op inner ty =>
      refine Or.inr (Or.inr ?_)
      simp only [verifyExpr, List.append_eq_nil_iff] at hv
      obtain ⟨heq, ⟨-, hb⟩ | ⟨-, w, s, hb⟩⟩ := verifyUnary_nil _ _ _ hv.2
      · exact ⟨.bool, by rw [CTypedExpr.ty_unary, heq, hb]; rfl⟩
      · exact ⟨.bitVec w, by rw [CTypedExpr.ty_unary, heq, hb]; rfl⟩
  | binary op lhs rhs ty =>
      refine Or.inr (Or.inr ?_)
      simp only [verifyExpr, List.append_eq_nil_iff] at hv
      have ht := verifyBinary_nil _ _ _ _ hv.2
      change ∃ sort, sortForType env ty = some sort
      unfold BinaryTyped at ht
      split at ht
      · obtain ⟨w, s, -, -, rfl⟩ := ht
        exact ⟨_, rfl⟩
      · exact ⟨.bool, by rw [ht.1]; rfl⟩
      · exact ⟨.bool, by rw [ht.1]; rfl⟩
      · exact ⟨.bool, by rw [ht.2.2]; rfl⟩
      · obtain ⟨heq, w, s, v, hl, -⟩ := ht
        exact ⟨.bitVec w, by rw [heq, hl]; rfl⟩
  | bvLit value ty =>
      refine Or.inr (Or.inr ?_)
      cases ty <;> simp_all [verifyExpr, CType.asBv, sortForType]
  | localRef id ty => simp_all [verifyExpr, noLocals]
  | fieldMethodCall target method args ty =>
      refine Or.inr (Or.inr ?_)
      simp only [verifyExpr, verifyFieldMethod, List.append_eq_nil_iff] at hv
      cases ty <;> simp_all [CType.asBv, sortForType]
  | boolLit value ty =>
      simp only [verifyExpr, List.append_eq_nil_iff, expectType_nil] at hv
      exact Or.inr (Or.inr ⟨.bool, by rw [CTypedExpr.ty_boolLit, hv.2]; rfl⟩)
  | inSet item set ty =>
      simp only [verifyExpr, verifyInSet, List.append_eq_nil_iff] at hv
      have hty : ty = .bool := by
        have := hv.2
        split at this <;> simp_all [expectType_nil]
      exact Or.inr (Or.inr ⟨.bool, by rw [CTypedExpr.ty_inSet, hty]; rfl⟩)
  | inRange item lo hi ty =>
      simp only [verifyExpr, List.append_eq_nil_iff, expectType_nil] at hv
      exact Or.inr (Or.inr ⟨.bool, by rw [CTypedExpr.ty_inRange, hv.2]; rfl⟩)
  | forAll var iter body ty =>
      simp only [verifyExpr, List.append_eq_nil_iff, expectType_nil] at hv
      exact Or.inr (Or.inr ⟨.bool, by rw [CTypedExpr.ty_forAll, hv.2]; rfl⟩)

theorem ty_ne_list (hc : Covers env sig) (e : CTypedExpr) (hv : verifyExpr env e noLocals = [])
    (elem : CType) (maxLen : Option Nat) : e.ty ≠ .list elem maxLen := by
  intro hty
  rcases sort_of_verified hc e hv with ⟨items, el, rfl⟩ | ⟨lo, hi, el, rfl⟩ | ⟨sort, hsort⟩
  · simp at hty
  · simp at hty
  · rw [hty] at hsort
    simp [sortForType] at hsort

/-- A rendered expression has a sort. -/
theorem sort_of_lowered (hc : Covers env sig) (e : CTypedExpr) (t : Term)
    (hv : verifyExpr env e noLocals = []) (hl : lowerExpr env e = .ok t) :
    ∃ sort, sortForType env e.ty = some sort := by
  rcases sort_of_verified hc e hv with ⟨items, el, rfl⟩ | ⟨lo, hi, el, rfl⟩ | hsort
  · simp [lowerExpr] at hl
  · simp [lowerExpr] at hl
  · exact hsort

theorem rangeOp_shape (ty : CType) : (rangeOp ty).shape = .bitVecRelation := by
  unfold rangeOp
  split <;> rfl

theorem relation_sort_none (op : Op) (hop : op.shape = .bitVecRelation) (a b : Term)
    (h : a.sort sig = none ∨ b.sort sig = none ∨ a.sort sig = some .bool ∨
      b.sort sig = some .bool) : (Term.app op [a, b]).sort sig = none := by
  rw [Term.sort_app_two]
  cases ha : a.sort sig with
  | none => rfl
  | some s =>
      cases hb : b.sort sig with
      | none => rfl
      | some t =>
          have hsort : op.sort [s, t] = none := by
            rw [ha, hb] at h
            simp only [reduceCtorEq, false_or, Option.some.injEq] at h
            unfold Op.sort
            rw [hop]
            rcases h with rfl | rfl
            · rfl
            · cases s <;> rfl
          exact hsort

theorem sortForType_bitVec (ty : CType) (s : TermSort) (hs : sortForType env ty = some s)
    (hne : ty ≠ .bool) : ∃ w, s = .bitVec w := by
  cases ty with
  | bv width sign => exact ⟨width, by simpa [sortForType] using hs.symm⟩
  | enum domain =>
      simp only [sortForType, Option.map_eq_some_iff] at hs
      obtain ⟨entry, -, rfl⟩ := hs
      exact ⟨_, rfl⟩
  | bool => exact absurd rfl hne
  | _ => exact nomatch hs

/-- Operands of which one is unsorted, or which are Boolean. -/
theorem unsorted_or_bool {ty : CType} {s : TermSort} {a b : Term} {ra rb : Bool}
    (ha : a.sort sig = if ra then some s else none)
    (hb : b.sort sig = if rb then some s else none) (h : ty = .bool ∨ ra = false ∨ rb = false) :
    (a.sort sig = none ∨ b.sort sig = none) ∨ (ty = .bool ∧ a.sort sig = some s) := by
  cases ra with
  | false => exact Or.inl (Or.inl ha)
  | true =>
      rcases h with hty | hra | rfl
      · exact Or.inr ⟨hty, ha⟩
      · exact nomatch hra
      · exact Or.inl (Or.inr hb)

/-- The comparisons of a range membership are formulas exactly if there are none, or the
item is no Boolean and it and the bounds are well sorted. -/
theorem range_sort (ty : CType) (item : Term) (lo hi : Option Term) (s : TermSort)
    (ri rl rh : Bool) (hs : sortForType env ty = some s)
    (hitem : item.sort sig = if ri then some s else none)
    (hlo : ∀ t ∈ lo, t.sort sig = if rl then some s else none) (hnl : lo = none → rl = true)
    (hhi : ∀ t ∈ hi, t.sort sig = if rh then some s else none) (hnh : hi = none → rh = true) :
    (joinBool .and (rangeParts ty item lo hi)).sort sig =
      if (lo.isNone && hi.isNone) || (ty != .bool && ri && rl && rh) then some .bool
      else none := by
  have hpart : ∀ a b : Term, a.sort sig = some s → b.sort sig = some s → ty ≠ .bool →
      (Term.app (rangeOp ty) [a, b]).sort sig = some .bool := by
    intro a b ha hb hne
    obtain ⟨w, rfl⟩ := sortForType_bitVec ty s hs hne
    rw [Term.sort_app_two, ha, hb]
    exact Op.sort_relation _ (rangeOp_shape ty) w
  have hbad : ∀ a b : Term, (a.sort sig = none ∨ b.sort sig = none) ∨
      (ty = .bool ∧ a.sort sig = some s) → (Term.app (rangeOp ty) [a, b]).sort sig = none := by
    intro a b h
    refine relation_sort_none _ (rangeOp_shape ty) a b ?_
    rcases h with (h | h) | ⟨rfl, h⟩
    · exact Or.inl h
    · exact Or.inr (Or.inl h)
    · have hbool : s = .bool := by simpa [sortForType] using hs.symm
      exact Or.inr (Or.inr (Or.inl (hbool ▸ h)))
  by_cases hnone : lo = none ∧ hi = none
  · obtain ⟨rfl, rfl⟩ := hnone
    rfl
  · have hflag : (lo.isNone && hi.isNone) = false := by
      rw [Bool.and_eq_false_iff, Option.isNone_eq_false_iff, Option.isNone_eq_false_iff,
        Option.isSome_iff_ne_none, Option.isSome_iff_ne_none]
      exact not_and_or.mp hnone
    rw [hflag, Bool.false_or]
    by_cases hgood : ty ≠ .bool ∧ ri = true ∧ rl = true ∧ rh = true
    · obtain ⟨hne, rfl, rfl, rfl⟩ := hgood
      have hif : (ty != .bool && true && true && true) = true := by simpa using hne
      rw [if_pos hif]
      apply joinBool_sort _ rfl
      intro t ht
      simp only [rangeParts, List.mem_append, Option.mem_toList, Option.map_eq_some_iff] at ht
      rcases ht with ⟨b, hb, rfl⟩ | ⟨b, hb, rfl⟩
      · exact hpart b item (hlo b hb) hitem hne
      · exact hpart item b hitem (hhi b hb) hne
    · have hif : ¬ (ty != .bool && ri && rl && rh) = true := by
        simpa [and_assoc] using hgood
      rw [if_neg hif]
      -- some bound is there, and one of the comparisons has no sort
      apply joinBool_sort_none
      have hmem : ∀ t, (∃ b ∈ lo, t = Term.app (rangeOp ty) [b, item]) ∨
          (∃ b ∈ hi, t = Term.app (rangeOp ty) [item, b]) → t ∈ rangeParts ty item lo hi := by
        intro t ht
        simp only [rangeParts, List.mem_append, Option.mem_toList, Option.map_eq_some_iff]
        rcases ht with ⟨b, hb, rfl⟩ | ⟨b, hb, rfl⟩
        · exact Or.inl ⟨b, hb, rfl⟩
        · exact Or.inr ⟨b, hb, rfl⟩
      cases lo with
      | some l =>
          by_cases hl : ty = .bool ∨ rl = false ∨ ri = false
          · exact ⟨_, hmem _ (Or.inl ⟨l, rfl, rfl⟩),
              hbad _ _ (unsorted_or_bool (hlo l rfl) hitem hl)⟩
          · obtain ⟨hty, hrl, hri⟩ : ty ≠ .bool ∧ rl = true ∧ ri = true := by
              simpa only [not_or, Bool.not_eq_false] using hl
            have hrh : rh ≠ true := fun hrh => hgood ⟨hty, hri, hrl, hrh⟩
            cases hi with
            | none => exact absurd (hnh rfl) hrh
            | some h =>
                have hrh' : rh = false := by simpa only [Bool.not_eq_true] using hrh
                exact ⟨_, hmem _ (Or.inr ⟨h, rfl, rfl⟩),
                  hbad _ _ (unsorted_or_bool hitem (hhi h rfl) (Or.inr (Or.inr hrh')))⟩
      | none =>
          cases hi with
          | none => exact absurd ⟨rfl, rfl⟩ hnone
          | some h =>
              have hcase : ty = .bool ∨ ri = false ∨ rh = false := by
                by_contra hcon
                obtain ⟨hty, hri, hrh⟩ : ty ≠ .bool ∧ ri = true ∧ rh = true := by
                  simpa only [not_or, Bool.not_eq_false] using hcon
                exact hgood ⟨hty, hri, hnl rfl, hrh⟩
              exact ⟨_, hmem _ (Or.inr ⟨h, rfl, rfl⟩),
                hbad _ _ (unsorted_or_bool hitem (hhi h rfl) hcase)⟩

theorem enumWidth_spec (n : Nat) : 0 < enumWidth n ∧ n ≤ 2 ^ enumWidth n := by
  have hlt : max n 2 - 1 < 2 ^ enumWidth n := Nat.lt_size_self _
  constructor
  · unfold enumWidth
    rw [Nat.size_pos]
    omega
  · omega

theorem shift_sort (op : CBinaryOp) (hop : opKind op = .shift) (ty : CType) (lw rw : Nat)
    (l r : Term) (rl rr : Bool) (hpos : 0 < lw)
    (hl : l.sort sig = if rl then some (.bitVec lw) else none)
    (hr : r.sort sig = if rr then some (.bitVec rw) else none) :
    (shiftTerm op ty lw rw l r).sort sig = if rl && rr then some (.bitVec lw) else none := by
  have hshape : (binaryOpSmt op ty).shape = .bitVecZip := by
    rw [binaryOpSmt_shape, hop]
  unfold shiftTerm
  by_cases hgood : rl = true ∧ rr = true
  · obtain ⟨rfl, rfl⟩ := hgood
    rw [if_pos rfl] at hl hr
    have happ : (Term.app (binaryOpSmt op ty)
        [extendBv l lw (max lw rw) (isSigned ty), extendBv r rw (max lw rw) false]).sort sig =
        some (.bitVec (max lw rw)) := by
      rw [Term.sort_app_two, extendBv_sort l _ _ _ sig (Nat.le_max_left _ _) hl,
        extendBv_sort r _ _ _ sig (Nat.le_max_right _ _) hr]
      exact Op.sort_zip _ hshape _
    by_cases hw : max lw rw = lw
    · simp only [hw, if_true] at happ ⊢
      simpa using happ
    · have hlt : 0 ≤ lw - 1 ∧ lw - 1 < max lw rw := by omega
      have hback : lw - 1 - 0 + 1 = lw := by omega
      simp only [hw, if_false]
      rw [Term.sort, happ]
      simp only [hlt, and_self, if_true, hback, Bool.and_self]
  · have hflag : (rl && rr) = false := by simpa using hgood
    have happ : ∀ w, (Term.app (binaryOpSmt op ty)
        [extendBv l lw w (isSigned ty), extendBv r rw w false]).sort sig = none := by
      intro w
      rw [Term.sort_app_two]
      cases rl with
      | false => rw [extendBv_sort_none l _ _ _ sig (by simpa using hl)]; rfl
      | true =>
          have hrr : rr = false := by simpa using hflag
          rw [extendBv_sort_none r _ _ _ sig (by simpa [hrr] using hr)]
          cases (extendBv l lw w (isSigned ty)).sort sig <;> rfl
    simp only [hflag, Bool.false_eq_true, if_false]
    split
    · exact happ _
    · rw [Term.sort, happ]

theorem lowerBound_isNone (b : Option CTypedExpr) (l : Option Term)
    (h : lowerBound env b = .ok l) : l.isNone = b.isNone := by
  cases b with
  | none =>
      simp only [lowerBound, Except.ok.injEq] at h
      subst h
      rfl
  | some e =>
      simp only [lowerBound, bind_eq_ok, pure_eq_ok] at h
      obtain ⟨t, -, rfl⟩ := h
      rfl

/-- A range membership, from the sorts of its item and its bounds. -/
theorem lowerRange_sort (item : CTypedExpr) (u : Term) (lo hi : Option CTypedExpr)
    (l h : Option Term) (s : TermSort) (hs : sortForType env item.ty = some s)
    (hlo : lowerBound env lo = .ok l) (hhi : lowerBound env hi = .ok h)
    (hsorts : (lo.isNone && hi.isNone) = false →
      (u.sort sig = if renderable item then sortForType env item.ty else none) ∧
      (∀ t ∈ l, t.sort sig = if renderableBound lo then sortForType env item.ty else none) ∧
      ∀ t ∈ h, t.sort sig = if renderableBound hi then sortForType env item.ty else none) :
    (joinBool .and (rangeParts item.ty u l h)).sort sig =
      if (lo.isNone && hi.isNone) ||
        (item.ty != .bool && renderable item && renderableBound lo && renderableBound hi)
      then sortForType env .bool else none := by
  have hl := lowerBound_isNone lo l hlo
  have hh := lowerBound_isNone hi h hhi
  cases hnone : (lo.isNone && hi.isNone) with
  | true =>
      rw [← hl, ← hh, Bool.and_eq_true, Option.isNone_iff_eq_none,
        Option.isNone_iff_eq_none] at hnone
      rw [hnone.1, hnone.2]
      rfl
  | false =>
      obtain ⟨hu, hbl, hbh⟩ := hsorts hnone
      rw [hs] at hu hbl hbh
      have hrl : l = none → renderableBound lo = true := by
        rintro rfl
        cases lo with
        | none => rfl
        | some e => simp at hl
      have hrh : h = none → renderableBound hi = true := by
        rintro rfl
        cases hi with
        | none => rfl
        | some e => simp at hh
      have hrange := range_sort item.ty u l h s _ _ _ hs hu hbl hrl hbh hrh
      rw [hl, hh, hnone] at hrange
      exact hrange

/-- A membership in a set that is not empty, from the sorts of its item and elements. -/
theorem membership_sort (u : Term) (s : TermSort) (ts : List Term) (e : CTypedExpr)
    (es : List CTypedExpr) {item : CTypedExpr} {sty ty : CType}
    (hu : u.sort sig = if renderable item then some s else none)
    (hts : ∃ us : List Term, ts = us.map (fun v => .app .eq [u, v]) ∧
      us.length = (e :: es).length ∧
      ((renderableItems (e :: es) = true ∧ ∀ v ∈ us, v.sort sig = some s) ∨
        (renderableItems (e :: es) = false ∧ ∃ v ∈ us, v.sort sig = none))) :
    (joinBool .or ts).sort sig =
      if renderable (.inSet item (.set (e :: es) sty) ty) then sortForType env .bool
      else none := by
  obtain ⟨us, rfl, hlength, hus⟩ := hts
  rw [renderable, List.isEmpty_cons, Bool.false_or]
  cases hr : renderable item with
  | false =>
      rw [hr] at hu
      apply joinBool_sort_none
      cases us with
      | nil => simp at hlength
      | cons v vs =>
          refine ⟨_, List.mem_cons_self, ?_⟩
          rw [Term.sort_app_two, hu]
          rfl
  | true =>
      rw [hr, if_pos rfl] at hu
      rcases hus with ⟨hes, hall⟩ | ⟨hes, v, hv, hnone⟩
      · rw [hes, Bool.and_self, if_pos rfl]
        apply joinBool_sort _ rfl
        intro t ht
        obtain ⟨v, hv, rfl⟩ := List.mem_map.mp ht
        rw [Term.sort_app_two, hu, hall v hv]
        exact Op.sort_equality .eq rfl s
      · rw [hes, Bool.and_false, if_neg Bool.false_ne_true]
        apply joinBool_sort_none
        refine ⟨_, List.mem_map_of_mem hv, ?_⟩
        rw [Term.sort_app_two, hu, hnone]
        rfl

/-- The operands of an operator other than a shift have one sort, and the operator maps
it to the sort of its result. -/
theorem binary_operand_sort (hc : Covers env sig) (op : CBinaryOp) (lhs rhs : CTypedExpr)
    (ty : CType) (l : Term) (hv : verifyExpr env lhs noLocals = [])
    (hl : lowerExpr env lhs = .ok l) (ht : BinaryTyped op lhs.ty rhs.ty ty)
    (hop : opKind op ≠ .shift) :
    ∃ s, sortForType env lhs.ty = some s ∧ sortForType env rhs.ty = some s ∧
      (binaryOpSmt op lhs.ty).sort [s, s] = sortForType env ty := by
  have hshape := binaryOpSmt_shape op lhs.ty
  unfold BinaryTyped at ht
  cases hk : opKind op with
  | arithmetic =>
      simp only [hk] at ht hshape
      obtain ⟨w, sign, hlt, hrt, rfl⟩ := ht
      rw [hlt] at hshape ⊢
      exact ⟨.bitVec w, rfl, by rw [hrt]; rfl, Op.sort_zip _ hshape w⟩
  | equality =>
      simp only [hk] at ht hshape
      obtain ⟨rfl, heq, -⟩ := ht
      obtain ⟨s, hs⟩ := sort_of_lowered hc lhs l hv hl
      exact ⟨s, hs, heq ▸ hs, Op.sort_equality _ hshape s⟩
  | comparison =>
      simp only [hk] at ht hshape
      obtain ⟨rfl, w, sign, hlt, hrt⟩ := ht
      rw [hlt] at hshape ⊢
      exact ⟨.bitVec w, rfl, by rw [hrt]; rfl, Op.sort_relation _ hshape w⟩
  | logical =>
      simp only [hk] at ht hshape
      obtain ⟨hlt, hrt, rfl⟩ := ht
      rw [hlt] at hshape ⊢
      exact ⟨.bool, rfl, by rw [hrt]; rfl, Op.sort_junction _ hshape⟩
  | shift => exact absurd hk hop

mutual

/-- The sort of a rendered expression: that of its type, if no part of it that is
rendered is a list length or a bounded range over Boolean values. -/
theorem lowerExpr_sort (hc : Covers env sig) :
    ∀ (e : CTypedExpr) (t : Term), verifyExpr env e noLocals = [] → lowerExpr env e = .ok t →
      (∀ path ∈ lengthPaths e, sig.lookup (z3LengthName path) = none) →
      t.sort sig = if renderable e then sortForType env e.ty else none
  | .bvLit value ty, t, hv, hl, _ => by
      simp only [verifyExpr, List.append_eq_nil_iff] at hv
      cases ty with
      | bv width sign =>
          simp only [lowerExpr, bvWidth, CType.asBv, Option.map_some, Except.ok.injEq] at hl
          subst hl
          have hfit : 0 < width ∧ value.toNat < 2 ^ width := by
            have h := hv.2
            simp only [CType.asBv] at h
            by_cases hbad : width = 0 ∨ literalExceedsWidth value width = true
            · simp [hbad] at h
            · rw [not_or] at hbad
              refine ⟨Nat.pos_of_ne_zero hbad.1, ?_⟩
              have h2 := hbad.2
              unfold literalExceedsWidth at h2
              split at h2
              · rename_i hle
                exact Nat.lt_of_lt_of_le value.isLt (Nat.pow_le_pow_right (by decide) hle)
              · simp only [decide_eq_true_eq, Nat.not_lt] at h2
                have := Nat.two_pow_pos width
                omega
          simp [Term.sort, hfit, renderable, sortForType]
      | _ => simp [CType.asBv] at hv
  | .boolLit value ty, t, hv, hl, _ => by
      simp only [verifyExpr, List.append_eq_nil_iff, expectType_nil] at hv
      simp only [lowerExpr, Except.ok.injEq] at hl
      subst hl
      simp [Term.sort, renderable, hv.2, sortForType]
  | .enumLit domain variantIdx ty, t, hv, hl, _ => by
      simp only [verifyExpr, verifyEnumLit, List.append_eq_nil_iff] at hv
      have hty : ty = .enum domain := by
        by_contra hne
        simp [hne] at hv
      cases he : env.enumById domain with
      | none => simp [lowerExpr, he] at hl
      | some entry =>
          simp only [lowerExpr, he, Except.ok.injEq] at hl
          subst hl
          have hidx : variantIdx < entry.variants.length := by
            have h := hv.2.2
            simp only [he] at h
            by_contra hle
            simp [Nat.not_lt.mp hle] at h
          have hw := enumWidth_spec entry.variants.length
          have hlt : variantIdx < 2 ^ enumWidth entry.variants.length := by omega
          simp [Term.sort, renderable, hty, sortForType, he, hw.1, hlt]
  | .fieldRef path ty, t, hv, hl, _ => by
      simp only [verifyExpr, verifyFieldRef, List.append_eq_nil_iff] at hv
      simp only [lowerExpr, Except.ok.injEq] at hl
      subst hl
      cases hk : env.lookup path with
      | none => simp [hk] at hv
      | some info =>
          obtain ⟨sort, hsort, hsig⟩ := hc path info hk
          have hty : info.ty = ty := by simpa [hk] using hv.2
          simp [Term.sort, renderable, hsig, ← hty, hsort]
  | .localRef id ty, t, hv, _, _ => by
      simp [verifyExpr, noLocals] at hv
  | .unary op inner ty, t, hv, hl, hlen => by
      simp only [verifyExpr, List.append_eq_nil_iff] at hv
      simp only [lowerExpr, bind_eq_ok, pure_eq_ok] at hl
      obtain ⟨u, hu, rfl⟩ := hl
      have ih := lowerExpr_sort hc inner u hv.1.2 hu (by simpa [lengthPaths] using hlen)
      rw [Term.sort_app_one, ih]
      obtain ⟨heq, ⟨hop, hb⟩ | ⟨hop, w, s, hb⟩⟩ := verifyUnary_nil _ _ _ hv.2
      · cases hr : renderable inner <;>
          simp [renderable, hr, heq, hb, hop, sortForType, Op.sort, unaryOpSmt,
            Op.shape]
      · cases op <;> cases hr : renderable inner <;>
          simp_all [renderable, sortForType, Op.sort, unaryOpSmt, Op.shape]
  | .binary op lhs rhs ty, t, hv, hl, hlen => by
      simp only [verifyExpr, List.append_eq_nil_iff] at hv
      simp only [lengthPaths, List.mem_append] at hlen
      have hlenl : ∀ path ∈ lengthPaths lhs, sig.lookup (z3LengthName path) = none :=
        fun path h => hlen path (Or.inl h)
      have hlenr : ∀ path ∈ lengthPaths rhs, sig.lookup (z3LengthName path) = none :=
        fun path h => hlen path (Or.inr h)
      have ht := verifyBinary_nil _ _ _ _ hv.2
      rw [renderable, CTypedExpr.ty_binary]
      by_cases hop : opKind op = .shift
      · have hshift : op = .shl ∨ op = .shr := by
          cases op <;> simp [opKind] at hop <;> simp
        simp only [BinaryTyped, hop] at ht
        obtain ⟨hty, w, s, v, hlt, hrt⟩ := ht
        have hpos : 0 < w := by
          have hw := hv.1.1.1
          rw [hty, hlt] at hw
          by_contra hz
          simp [checkTypeConcrete, show w = 0 by omega] at hw
        simp only [lowerExpr, hshift, if_true, hlt, hrt, bvWidth, CType.asBv, Option.map_some,
          bind_eq_ok, pure_eq_ok] at hl
        obtain ⟨l, hll, r, hlr, rfl⟩ := hl
        have ihl := lowerExpr_sort hc lhs l hv.1.1.2 hll hlenl
        have ihr := lowerExpr_sort hc rhs r hv.1.2 hlr hlenr
        rw [hlt] at ihl
        rw [hrt] at ihr
        rw [shift_sort op hop _ w v l r _ _ hpos ihl ihr, hty, hlt]
        rfl
      · have hshift : ¬ (op = .shl ∨ op = .shr) := by
          cases op <;> simp [opKind] at hop <;> simp
        simp only [lowerExpr, hshift, if_false, bind_eq_ok, pure_eq_ok] at hl
        obtain ⟨l, hll, r, hlr, rfl⟩ := hl
        have ihl := lowerExpr_sort hc lhs l hv.1.1.2 hll hlenl
        have ihr := lowerExpr_sort hc rhs r hv.1.2 hlr hlenr
        rw [Term.sort_app_two, ihl, ihr]
        obtain ⟨s, hs, hr, hresult⟩ := binary_operand_sort hc op lhs rhs ty l hv.1.1.2 hll ht hop
        rw [hs, hr]
        cases renderable lhs <;> cases renderable rhs <;> simp [hresult]
  | .inSet item (.set items sty) ty, t, hv, hl, hlen => by
      simp only [verifyExpr, List.append_eq_nil_iff] at hv
      obtain ⟨⟨⟨-, hitem⟩, hset⟩, hin⟩ := hv
      cases sty with
      | set elem =>
          simp only [List.append_eq_nil_iff] at hset
          simp only [verifyInSet, iterableElemType, List.append_eq_nil_iff, expectType_nil,
            CTypedExpr.ty_set] at hin
          have helem : elem = item.ty := by
            by_contra hne
            simp [hne] at hin
          rw [CTypedExpr.ty_inSet, hin.2]
          simp only [lowerExpr, bind_eq_ok] at hl
          obtain ⟨u, hu, hl⟩ := hl
          cases items with
          | nil =>
              simp only [pure_eq_ok] at hl
              subst hl
              rfl
          | cons i is =>
              simp only [lengthPaths, List.isEmpty_cons, Bool.false_eq_true, if_false,
                List.mem_append] at hlen
              simp only [bind_eq_ok, pure_eq_ok] at hl
              obtain ⟨ts, hts, rfl⟩ := hl
              obtain ⟨s, hs⟩ := sort_of_lowered hc item u hitem hu
              have ih := lowerExpr_sort hc item u hitem hu fun path h => hlen path (Or.inl h)
              have ihs := lowerItems_sort hc u elem s (helem ▸ hs) (i :: is) ts hset.2.2 hts
                fun path h => hlen path (Or.inr h)
              rw [hs] at ih
              exact membership_sort u s ts i is ih ihs
      | _ => simp at hset
  | .inSet item (.range lo hi rty) ty, t, hv, hl, hlen => by
      simp only [verifyExpr, List.append_eq_nil_iff] at hv
      obtain ⟨⟨⟨-, hitem⟩, hrange⟩, hin⟩ := hv
      cases rty with
      | range elem =>
          simp only [verifyInSet, iterableElemType, List.append_eq_nil_iff, expectType_nil,
            CTypedExpr.ty_range] at hin
          have helem : elem = item.ty := by
            by_contra hne
            simp [hne] at hin
          subst helem
          simp only [List.append_eq_nil_iff] at hrange
          simp only [lowerExpr, bind_eq_ok, pure_eq_ok] at hl
          obtain ⟨u, hu, l, hlo, h, hhi, rfl⟩ := hl
          rw [CTypedExpr.ty_inSet, hin.2]
          obtain ⟨s, hs⟩ := sort_of_lowered hc item u hitem hu
          refine lowerRange_sort item u lo hi l h s hs hlo hhi ?_
          intro hsome
          simp only [lengthPaths, hsome, Bool.false_eq_true, if_false, List.mem_append] at hlen
          exact ⟨lowerExpr_sort hc item u hitem hu fun path hp => hlen path (Or.inl (Or.inl hp)),
            lowerBound_sort hc _ item.ty lo l hrange.2.1.2 hlo
              fun path hp => hlen path (Or.inl (Or.inr hp)),
            lowerBound_sort hc _ item.ty hi h hrange.2.2 hhi fun path hp => hlen path (Or.inr hp)⟩
      | _ => simp at hrange
  | .inRange item lo hi ty, t, hv, hl, hlen => by
      simp only [verifyExpr, List.append_eq_nil_iff, expectType_nil] at hv
      simp only [lowerExpr, bind_eq_ok, pure_eq_ok] at hl
      obtain ⟨u, hu, l, hlo, h, hhi, rfl⟩ := hl
      rw [CTypedExpr.ty_inRange, hv.2]
      obtain ⟨s, hs⟩ := sort_of_lowered hc item u hv.1.1.1.2 hu
      refine lowerRange_sort item u lo hi l h s hs hlo hhi ?_
      intro hsome
      simp only [lengthPaths, hsome, Bool.false_eq_true, if_false, List.mem_append] at hlen
      exact ⟨lowerExpr_sort hc item u hv.1.1.1.2 hu fun path hp => hlen path (Or.inl (Or.inl hp)),
        lowerBound_sort hc _ item.ty lo l hv.1.1.2 hlo
          fun path hp => hlen path (Or.inl (Or.inr hp)),
        lowerBound_sort hc _ item.ty hi h hv.1.2 hhi fun path hp => hlen path (Or.inr hp)⟩
  | .set items ty, t, _, hl, _ => by
      simp [lowerExpr] at hl
  | .range lo hi ty, t, _, hl, _ => by
      simp [lowerExpr] at hl
  | .fieldMethodCall target .len args ty, t, _, hl, hlen => by
      simp only [lowerExpr] at hl
      cases target with
      | fieldRef path pty =>
          cases args with
          | nil =>
              simp only [List.isEmpty_nil, if_true, Except.ok.injEq] at hl
              subst hl
              exact hlen path (by simp [lengthPaths])
          | cons a as => simp at hl
      | _ => split at hl <;> simp at hl
  | .forAll var iter body ty, t, hv, hl, _ => by
      simp only [verifyExpr, List.append_eq_nil_iff] at hv
      simp only [lowerExpr] at hl
      split at hl
      · rename_i elem maxLen hty
        exact absurd hty (ty_ne_list hc iter hv.1.1.1.2 elem maxLen)
      · simp at hl
  | .inSet item (.bvLit _ _) _, t, _, hl, _ | .inSet item (.boolLit _ _) _, t, _, hl, _
  | .inSet item (.enumLit _ _ _) _, t, _, hl, _ | .inSet item (.fieldRef _ _) _, t, _, hl, _
  | .inSet item (.localRef _ _) _, t, _, hl, _ | .inSet item (.unary _ _ _) _, t, _, hl, _
  | .inSet item (.binary _ _ _ _) _, t, _, hl, _ | .inSet item (.inSet _ _ _) _, t, _, hl, _
  | .inSet item (.inRange _ _ _ _) _, t, _, hl, _
  | .inSet item (.fieldMethodCall _ _ _ _) _, t, _, hl, _
  | .inSet item (.forAll _ _ _ _) _, t, _, hl, _ => by
      simp [lowerExpr, bind_eq_ok] at hl

theorem lowerItems_sort (hc : Covers env sig) (item : Term) (elem : CType) (s : TermSort)
    (hs : sortForType env elem = some s) :
    ∀ (es : List CTypedExpr) (ts : List Term), verifyItems env elem es noLocals = [] →
      lowerItems env item es = .ok ts →
      (∀ path ∈ lengthPathsItems es, sig.lookup (z3LengthName path) = none) →
      ∃ us : List Term, ts = us.map (fun u => .app .eq [item, u]) ∧ us.length = es.length ∧
        ((renderableItems es = true ∧ ∀ u ∈ us, u.sort sig = some s) ∨
          (renderableItems es = false ∧ ∃ u ∈ us, u.sort sig = none))
  | [], ts, _, hl, _ => by
      simp only [lowerItems, Except.ok.injEq] at hl
      subst hl
      exact ⟨[], rfl, rfl, Or.inl ⟨rfl, by simp⟩⟩
  | e :: es, ts, hv, hl, hlen => by
      simp only [verifyItems, List.append_eq_nil_iff] at hv
      simp only [lowerItems, bind_eq_ok, pure_eq_ok] at hl
      obtain ⟨t, ht, ts', hts', rfl⟩ := hl
      simp only [lengthPathsItems, List.mem_append] at hlen
      have ih := lowerExpr_sort hc e t hv.1.1 ht fun path h => hlen path (Or.inl h)
      obtain ⟨us, rfl, hlength, hus⟩ := lowerItems_sort hc item elem s hs es ts' hv.2 hts'
        fun path h => hlen path (Or.inr h)
      have hty : e.ty = elem := by
        by_contra hne
        simp [hne] at hv
      rw [hty, hs] at ih
      refine ⟨t :: us, rfl, by simp [hlength], ?_⟩
      rw [renderableItems]
      cases hr : renderable e with
      | false =>
          rw [hr] at ih
          exact Or.inr ⟨rfl, t, List.mem_cons_self, ih⟩
      | true =>
          rw [hr] at ih
          rcases hus with ⟨hes, hall⟩ | ⟨hes, u, hu, hnone⟩
          · refine Or.inl ⟨by simpa using hes, ?_⟩
            rintro u hu
            rcases List.mem_cons.mp hu with rfl | hu
            · exact ih
            · exact hall u hu
          · exact Or.inr ⟨by simpa using hes, u, List.mem_cons_of_mem _ hu, hnone⟩

theorem lowerBound_sort (hc : Covers env sig) (context : String) (elem : CType) :
    ∀ (b : Option CTypedExpr) (l : Option Term), verifyBound env context elem b noLocals = [] →
      lowerBound env b = .ok l →
      (∀ path ∈ lengthPathsBound b, sig.lookup (z3LengthName path) = none) →
      ∀ t ∈ l, t.sort sig = if renderableBound b then sortForType env elem else none
  | none, l, _, hl, _ => by
      simp only [lowerBound, Except.ok.injEq] at hl
      subst hl
      simp
  | some e, l, hv, hl, hlen => by
      simp only [verifyBound, List.append_eq_nil_iff, expectType_nil] at hv
      simp only [lowerBound, bind_eq_ok, pure_eq_ok] at hl
      obtain ⟨t, ht, rfl⟩ := hl
      have ih := lowerExpr_sort hc e t hv.1 ht (by simpa [lengthPathsBound] using hlen)
      intro u hu
      simp only [Option.mem_some_iff] at hu
      subst hu
      rw [ih, hv.2]
      rfl

end

/-! ### Names -/

theorem sanitizeChars_legal (chars : List Char) :
    ∀ c ∈ sanitizeChars chars, (c.isAlphanum || c == '_') = true := by
  have hmap : ∀ c ∈ chars.map sanitizeChar, (c.isAlphanum || c == '_') = true := by
    intro c hc
    obtain ⟨d, -, rfl⟩ := List.mem_map.mp hc
    unfold sanitizeChar
    split <;> simp_all
  unfold sanitizeChars
  split
  · simp
  · rename_i ch rest heq
    rw [heq] at hmap
    split
    · intro c hc
      rcases List.mem_cons.mp hc with rfl | hc
      · rfl
      · exact hmap c hc
    · exact hmap

theorem toList_fieldName (path : FieldPath) :
    (z3FieldName path).toList = 'f' :: '_' :: sanitizeChars path.dotted.toList := by
  simp [z3FieldName, sanitize]

theorem toList_assertionName (name : String) :
    (z3AssertionName name).toList = 'a' :: '_' :: sanitizeChars name.toList := by
  simp [z3AssertionName, sanitize]

theorem isSymbol_fieldName (path : FieldPath) : isSymbol (z3FieldName path) = true := by
  simp only [isSymbol, toList_fieldName, Bool.and_eq_true, List.all_eq_true]
  refine ⟨rfl, ?_⟩
  intro c hc
  rcases List.mem_cons.mp hc with rfl | hc
  · rfl
  · exact sanitizeChars_legal _ c hc

theorem isSymbol_assertionName (name : String) : isSymbol (z3AssertionName name) = true := by
  simp only [isSymbol, toList_assertionName, Bool.and_eq_true, List.all_eq_true]
  refine ⟨rfl, ?_⟩
  intro c hc
  rcases List.mem_cons.mp hc with rfl | hc
  · rfl
  · exact sanitizeChars_legal _ c hc

theorem fieldName_ne_assertionName (path : FieldPath) (name : String) :
    z3FieldName path ≠ z3AssertionName name := by
  intro h
  have := congrArg String.toList h
  rw [toList_fieldName, toList_assertionName] at this
  simp at this

theorem lengthName_ne_assertionName (path : FieldPath) (name : String) :
    z3LengthName path ≠ z3AssertionName name := by
  intro h
  have := congrArg String.toList h
  rw [z3LengthName, String.toList_append, toList_fieldName, toList_assertionName] at this
  simp at this

/-! ### The blocks of a script -/

theorem declareFields_ok (fields : List (FieldPath × FieldInfo)) (commands : List Command)
    (h : declareFields env fields = .ok commands) :
    ∃ entries : List (String × TermSort),
      commands = entries.map (fun e => .declareFun e.1 e.2) ∧
      entries.map Prod.fst = fields.map (fun f => z3FieldName f.1) ∧
      (∀ f ∈ fields, ∃ sort, sortForType env f.2.ty = some sort ∧
        (z3FieldName f.1, sort) ∈ entries) ∧
      ∀ e ∈ entries, ∃ f ∈ fields, sortForType env f.2.ty = some e.2 := by
  induction fields generalizing commands with
  | nil =>
      simp only [declareFields, Except.ok.injEq] at h
      subst h
      exact ⟨[], rfl, rfl, by simp, by simp⟩
  | cons field rest ih =>
      obtain ⟨path, info⟩ := field
      simp only [declareFields] at h
      cases hs : sortForType env info.ty with
      | none => simp [hs] at h
      | some sort =>
          simp only [hs, bind_eq_ok, pure_eq_ok] at h
          obtain ⟨rest', hrest, rfl⟩ := h
          obtain ⟨entries, rfl, hnames, hfwd, hback⟩ := ih rest' hrest
          refine ⟨(z3FieldName path, sort) :: entries, rfl, by simp [hnames], ?_, ?_⟩
          · intro f hf
            rcases List.mem_cons.mp hf with rfl | hf
            · exact ⟨sort, hs, List.mem_cons_self⟩
            · obtain ⟨s, hfs, hmem⟩ := hfwd f hf
              exact ⟨s, hfs, List.mem_cons_of_mem _ hmem⟩
          · intro e he
            rcases List.mem_cons.mp he with rfl | he
            · exact ⟨(path, info), List.mem_cons_self, hs⟩
            · obtain ⟨f, hf, hfs⟩ := hback e he
              exact ⟨f, List.mem_cons_of_mem _ hf, hfs⟩

/-- The bound that the script asserts for a field. -/
def enumBound (env : FieldEnv) (field : FieldPath × FieldInfo) : List (Term × String) :=
  match field.2.ty with
  | .enum domain =>
      match env.enumById domain with
      | some entry =>
          if entry.variants.length ≤ 1 ∨ isPowerOfTwo entry.variants.length = false then
            [(.app .bvult [.symbol (z3FieldName field.1),
                .bvLit entry.variants.length (enumWidth entry.variants.length)],
              "enum " ++ entry.name ++ " domain")]
          else []
      | none => []
  | _ => []

theorem enumDomains_ok (fields : List (FieldPath × FieldInfo)) (commands : List Command)
    (h : enumDomains env fields = .ok commands) :
    commands = (fields.flatMap (enumBound env)).map fun a => .assert a.1 a.2 := by
  induction fields generalizing commands with
  | nil =>
      simp only [enumDomains, Except.ok.injEq] at h
      subst h
      rfl
  | cons field rest ih =>
      obtain ⟨path, info⟩ := field
      rw [List.flatMap_cons, List.map_append]
      cases hty : info.ty with
      | enum domain =>
          simp only [enumDomains, hty] at h
          cases he : env.enumById domain with
          | none => simp [he] at h
          | some entry =>
              simp only [he, bind_eq_ok, pure_eq_ok] at h
              obtain ⟨rest', hrest, rfl⟩ := h
              rw [← ih rest' hrest]
              congr 1
              simp only [enumDomain, enumBound, hty, he]
              split <;> rfl
      | _ =>
          simp only [enumDomains, hty] at h
          rw [← ih commands h]
          simp [enumBound, hty]

theorem assertClauses_ok (clauses : List CTypedClause) (commands : List Command)
    (h : assertClauses env clauses = .ok commands) :
    ∃ asserts : List (Term × String),
      commands = asserts.map (fun a => .assertNamed a.1 a.2) ∧
      List.Forall₂ (fun c a => lowerExpr env c.expr = .ok a.1 ∧
        a.2 = z3AssertionName c.assertionName) clauses asserts := by
  induction clauses generalizing commands with
  | nil =>
      simp only [assertClauses, Except.ok.injEq] at h
      subst h
      exact ⟨[], rfl, .nil⟩
  | cons clause rest ih =>
      simp only [assertClauses, bind_eq_ok, pure_eq_ok] at h
      obtain ⟨t, ht, rest', hrest, rfl⟩ := h
      obtain ⟨asserts, rfl, hall⟩ := ih rest' hrest
      exact ⟨(t, z3AssertionName clause.assertionName) :: asserts, rfl, .cons ⟨ht, rfl⟩ hall⟩

theorem assertSoftClauses_ok (clauses : List CTypedSoftClause) (commands : List Command)
    (h : assertSoftClauses env clauses = .ok commands) :
    ∃ asserts : List (Term × Nat × String),
      commands = asserts.map (fun a => .assertSoft a.1 a.2.1 a.2.2) ∧
      List.Forall₂ (fun c a => lowerExpr env c.expr = .ok a.1) clauses asserts := by
  induction clauses generalizing commands with
  | nil =>
      simp only [assertSoftClauses, Except.ok.injEq] at h
      subst h
      exact ⟨[], rfl, .nil⟩
  | cons clause rest ih =>
      simp only [assertSoftClauses, bind_eq_ok, pure_eq_ok] at h
      obtain ⟨t, ht, rest', hrest, rfl⟩ := h
      obtain ⟨asserts, rfl, hall⟩ := ih rest' hrest
      exact ⟨(t, clause.weight, z3AssertionName clause.assertionName) :: asserts, rfl,
        .cons ht hall⟩

/-! ### Problems -/

/-- The expressions that are rendered. -/
def renderedExprs (problem : CTypedProblem) : List CTypedExpr :=
  problem.constraints.map CTypedClause.expr ++ problem.softConstraints.map CTypedSoftClause.expr

/-- Distinct fields, and the list lengths that are used, have distinct symbols. -/
structure DistinctNames (problem : CTypedProblem) : Prop where
  fields : (problem.env.fields.map fun f => z3FieldName f.1).Nodup
  lengths : ∀ e ∈ renderedExprs problem, ∀ path ∈ lengthPaths e, ∀ f ∈ problem.env.fields,
    z3LengthName path ≠ z3FieldName f.1
  between : ∀ e ∈ renderedExprs problem, ∀ path ∈ lengthPaths e,
    ∀ e' ∈ renderedExprs problem, ∀ path' ∈ lengthPaths e',
      z3LengthName path = z3LengthName path' → path = path'

/-- The names of the fields and of the hard assertions stay distinct when their characters
are replaced, and neither list lengths nor bounded ranges over Boolean values are used. -/
structure Emittable (problem : CTypedProblem) : Prop where
  fields : (problem.env.fields.map fun f => z3FieldName f.1).Nodup
  labels : (problem.constraints.map fun c => z3AssertionName c.assertionName).Nodup
  rendered : ∀ e ∈ renderedExprs problem, renderable e = true

mutual

theorem lengthPaths_of_renderable : ∀ e : CTypedExpr, renderable e = true → lengthPaths e = []
  | .unary _ inner _, h => by
      rw [renderable] at h
      rw [lengthPaths, lengthPaths_of_renderable inner h]
  | .binary _ lhs rhs _, h => by
      rw [renderable, Bool.and_eq_true] at h
      rw [lengthPaths, lengthPaths_of_renderable lhs h.1, lengthPaths_of_renderable rhs h.2]
      rfl
  | .inSet item (.set items _) _, h => by
      rw [renderable, Bool.or_eq_true, Bool.and_eq_true] at h
      rw [lengthPaths]
      rcases h with h | h
      · rw [if_pos h]
      · rw [lengthPaths_of_renderable item h.1, lengthPathsItems_of_renderable items h.2]
        simp
  | .inSet item (.range lo hi _) _, h | .inRange item lo hi _, h => by
      rw [renderable, Bool.or_eq_true] at h
      rw [lengthPaths]
      rcases h with h | h
      · rw [if_pos h]
      · simp only [Bool.and_eq_true] at h
        rw [lengthPaths_of_renderable item h.1.1.2, lengthPathsBound_of_renderable lo h.1.2,
          lengthPathsBound_of_renderable hi h.2]
        simp
  | .forAll _ _ body _, h => by
      rw [renderable] at h
      rw [lengthPaths, lengthPaths_of_renderable body h]
  | .fieldMethodCall _ _ _ _, h => by
      rw [renderable] at h
      exact absurd h Bool.false_ne_true
  | .bvLit _ _, _ | .boolLit _ _, _ | .enumLit _ _ _, _ | .fieldRef _ _, _ | .localRef _ _, _
  | .set _ _, _ | .range _ _ _, _ | .inSet _ (.bvLit _ _) _, _ | .inSet _ (.boolLit _ _) _, _
  | .inSet _ (.enumLit _ _ _) _, _ | .inSet _ (.fieldRef _ _) _, _
  | .inSet _ (.localRef _ _) _, _ | .inSet _ (.unary _ _ _) _, _
  | .inSet _ (.binary _ _ _ _) _, _ | .inSet _ (.inSet _ _ _) _, _
  | .inSet _ (.inRange _ _ _ _) _, _ | .inSet _ (.fieldMethodCall _ _ _ _) _, _
  | .inSet _ (.forAll _ _ _ _) _, _ => by
      simp [lengthPaths]

theorem lengthPathsItems_of_renderable :
    ∀ es : List CTypedExpr, renderableItems es = true → lengthPathsItems es = []
  | [], _ => rfl
  | e :: es, h => by
      rw [renderableItems, Bool.and_eq_true] at h
      rw [lengthPathsItems, lengthPaths_of_renderable e h.1, lengthPathsItems_of_renderable es h.2]
      rfl

theorem lengthPathsBound_of_renderable :
    ∀ b : Option CTypedExpr, renderableBound b = true → lengthPathsBound b = []
  | none, _ => rfl
  | some e, h => lengthPaths_of_renderable e h

end

theorem Emittable.distinctNames {problem : CTypedProblem} (h : Emittable problem) :
    DistinctNames problem where
  fields := h.fields
  lengths e he path hpath := by
    rw [lengthPaths_of_renderable e (h.rendered e he)] at hpath
    simp at hpath
  between e he path hpath := by
    rw [lengthPaths_of_renderable e (h.rendered e he)] at hpath
    simp at hpath

theorem lookup_mem {path : FieldPath} {info : FieldInfo} (h : env.lookup path = some info) :
    (path, info) ∈ env.fields := by
  simp only [FieldEnv.lookup, Option.map_eq_some_iff] at h
  obtain ⟨entry, hfind, rfl⟩ := h
  have hmem := List.mem_of_find?_eq_some hfind
  have hkey := List.find?_some hfind
  simp only [beq_iff_eq] at hkey
  exact hkey ▸ hmem

/-- The parts of a script, as the commands of one build. -/
structure Layout (problem : CTypedProblem) (script : List Command) where
  entries : List (String × TermSort)
  hard : List (Term × String)
  soft : List (Term × Nat × String)
  script_eq : script =
    [Command.comment "generated by harc typed solver scaffold", Command.setLogic "QF_BV"] ++
    (entries.map fun e => Command.declareFun e.1 e.2) ++
    ((problem.env.fields.flatMap (enumBound problem.env)).map fun a => Command.assert a.1 a.2) ++
    (hard.map fun a => Command.assertNamed a.1 a.2) ++
    (soft.map fun a => Command.assertSoft a.1 a.2.1 a.2.2) ++
    solveOrderRemark problem.solveOrder ++ [Command.checkSat]
  names : entries.map Prod.fst = problem.env.fields.map fun f => z3FieldName f.1
  declared : ∀ f ∈ problem.env.fields, ∃ sort, sortForType problem.env f.2.ty = some sort ∧
    (z3FieldName f.1, sort) ∈ entries
  sorted : ∀ e ∈ entries, ∃ f ∈ problem.env.fields, sortForType problem.env f.2.ty = some e.2
  hardTerms : List.Forall₂ (fun c a => lowerExpr problem.env c.expr = .ok a.1 ∧
    a.2 = z3AssertionName c.assertionName) problem.constraints hard
  softTerms : List.Forall₂ (fun c a => lowerExpr problem.env c.expr = .ok a.1)
    problem.softConstraints soft

theorem build_layout {problem : CTypedProblem} {script : List Command}
    (h : build problem = .ok script) :
    problemErrors problem = [] ∧ Nonempty (Layout problem script) := by
  unfold build at h
  cases hv : verifyConstraintProblem problem with
  | error errors => simp [hv] at h
  | ok u =>
      refine ⟨(verifyConstraintProblem_ok problem).mp hv, ?_⟩
      simp only [hv, buildZ3Problem, bind_eq_ok, pure_eq_ok] at h
      obtain ⟨declarations, hd, domains, he, hard, hh, soft, hs, rfl⟩ := h
      obtain ⟨entries, rfl, hnames, hfwd, hback⟩ := declareFields_ok _ _ hd
      obtain rfl := enumDomains_ok _ _ he
      obtain ⟨hard, rfl, hhard⟩ := assertClauses_ok _ _ hh
      obtain ⟨soft, rfl, hsoft⟩ := assertSoftClauses_ok _ _ hs
      exact ⟨⟨entries, hard, soft, rfl, hnames, hfwd, hback, hhard, hsoft⟩⟩

theorem forall₂_forall_iff {α β : Type} {R : α → β → Prop} {P : α → Prop} {Q : β → Prop}
    {as : List α} {bs : List β} (h : List.Forall₂ R as bs)
    (hpq : ∀ a ∈ as, ∀ b ∈ bs, R a b → (Q b ↔ P a)) : (∀ b ∈ bs, Q b) ↔ ∀ a ∈ as, P a := by
  induction h with
  | nil => simp
  | cons hr htail ih =>
      rw [List.forall_mem_cons, List.forall_mem_cons,
        hpq _ List.mem_cons_self _ List.mem_cons_self hr,
        ih fun a ha b hb => hpq a (List.mem_cons_of_mem _ ha) b (List.mem_cons_of_mem _ hb)]

theorem forall₂_exists_left {α β : Type} {R : α → β → Prop} {as : List α} {bs : List β}
    (h : List.Forall₂ R as bs) : ∀ b ∈ bs, ∃ a ∈ as, R a b := by
  induction h with
  | nil => simp
  | cons hr htail ih =>
      intro b hb
      rcases List.mem_cons.mp hb with rfl | hb
      · exact ⟨_, List.mem_cons_self, hr⟩
      · obtain ⟨a, ha, hab⟩ := ih b hb
        exact ⟨a, List.mem_cons_of_mem _ ha, hab⟩

theorem forall₂_map_eq {α β γ : Type} {R : α → β → Prop} {f : α → γ} {g : β → γ} {as : List α}
    {bs : List β} (h : List.Forall₂ R as bs) (hfg : ∀ a b, R a b → g b = f a) :
    bs.map g = as.map f := by
  induction h with
  | nil => rfl
  | cons hr htail ih => rw [List.map_cons, List.map_cons, ih, hfg _ _ hr]

theorem sort_legal {ty : CType} {sort : TermSort} (hc : checkTypeConcrete env ty = [])
    (hs : sortForType env ty = some sort) : sort.legal = true := by
  cases ty with
  | bool =>
      obtain rfl : TermSort.bool = sort := by simpa [sortForType] using hs
      rfl
  | bv width sign =>
      obtain rfl : TermSort.bitVec width = sort := by simpa [sortForType] using hs
      by_contra hz
      have hw : width = 0 := by simpa [TermSort.legal] using hz
      simp [checkTypeConcrete, hw] at hc
  | enum domain =>
      simp only [sortForType, Option.map_eq_some_iff] at hs
      obtain ⟨entry, -, rfl⟩ := hs
      simpa [TermSort.legal] using (enumWidth_spec entry.variants.length).1
  | _ => simp [sortForType] at hs

section Layout

variable {problem : CTypedProblem} {script : List Command}

theorem Layout.covers (layout : Layout problem script) (front : Signature)
    (hfront : ∀ e ∈ front, ∃ name, e.1 = z3AssertionName name)
    (hnodup : (problem.env.fields.map fun f => z3FieldName f.1).Nodup) :
    Covers problem.env (front ++ layout.entries.reverse) := by
  intro path info hlookup
  obtain ⟨sort, hsort, hmem⟩ := layout.declared (path, info) (lookup_mem hlookup)
  refine ⟨sort, hsort, ?_⟩
  rw [Signature.lookup_append_of_notMem]
  · apply Signature.lookup_of_mem
    · rw [List.map_reverse, List.nodup_reverse, layout.names]
      exact hnodup
    · exact List.mem_reverse.mpr hmem
  · intro hin
    obtain ⟨e, he, heq⟩ := List.mem_map.mp hin
    obtain ⟨name, hname⟩ := hfront e he
    exact fieldName_ne_assertionName path name (heq.symm.trans hname)

/-- The sort of a rendered formula does not depend on the labels. -/
theorem Layout.sort_eq (layout : Layout problem script) (hd : DistinctNames problem)
    (front : Signature) (hfront : ∀ e ∈ front, ∃ name, e.1 = z3AssertionName name)
    (e : CTypedExpr) (he : e ∈ renderedExprs problem) (t : Term)
    (hv : verifyExpr problem.env e noLocals = []) (hl : lowerExpr problem.env e = .ok t)
    (hty : e.ty = .bool) :
    t.sort (front ++ layout.entries.reverse) = if renderable e then some .bool else none := by
  have hsort := lowerExpr_sort (layout.covers front hfront hd.fields) e t hv hl (by
    intro path hpath
    rw [Signature.lookup_eq_none, List.map_append, List.mem_append, not_or]
    constructor
    · intro hin
      obtain ⟨entry, hentry, heq⟩ := List.mem_map.mp hin
      obtain ⟨name, hname⟩ := hfront entry hentry
      exact lengthName_ne_assertionName path name (heq.symm.trans hname)
    · intro hin
      rw [List.map_reverse, List.mem_reverse, layout.names] at hin
      obtain ⟨f, hf, heq⟩ := List.mem_map.mp hin
      exact hd.lengths e he path hpath f hf heq.symm)
  rw [hsort, hty]
  rfl

theorem verified_clause (hv : problemErrors problem = []) (c : CTypedClause)
    (hc : c ∈ problem.constraints) :
    verifyExpr problem.env c.expr noLocals = [] ∧ c.expr.ty = .bool := by
  simp only [problemErrors, List.append_eq_nil_iff, List.flatMap_eq_nil_iff] at hv
  have h := hv.1.1.2 c hc
  simp only [verifyClause, List.append_eq_nil_iff] at h
  refine ⟨h.1.2, ?_⟩
  by_contra hne
  simp [hne] at h

theorem verified_softClause (hv : problemErrors problem = []) (c : CTypedSoftClause)
    (hc : c ∈ problem.softConstraints) :
    verifyExpr problem.env c.expr noLocals = [] ∧ c.expr.ty = .bool := by
  simp only [problemErrors, List.append_eq_nil_iff, List.flatMap_eq_nil_iff] at hv
  have h := hv.1.2 c hc
  simp only [verifyClause, List.append_eq_nil_iff] at h
  refine ⟨h.1.2, ?_⟩
  by_contra hne
  simp [hne] at h

theorem verified_field (hv : problemErrors problem = []) (f : FieldPath × FieldInfo)
    (hf : f ∈ problem.env.fields) : checkTypeConcrete problem.env f.2.ty = [] := by
  simp only [problemErrors, List.append_eq_nil_iff, List.flatMap_eq_nil_iff] at hv
  have h := hv.1.1.1 f hf
  simp only [verifyField, List.append_eq_nil_iff] at h
  exact h.1

/-- The cardinality of a domain that does not fill its width is a number of that width. -/
theorem enumCount_fits (n : Nat) (hcount : n ≤ 1 ∨ isPowerOfTwo n = false) :
    n < 2 ^ enumWidth n := by
  have hw := enumWidth_spec n
  refine Nat.lt_of_le_of_ne hw.2 ?_
  intro heq
  rcases hcount with hone | hpow
  · have : 2 ^ 1 ≤ 2 ^ enumWidth n := Nat.pow_le_pow_right (by decide) hw.1
    omega
  · rw [heq] at hpow
    simp [isPowerOfTwo, Nat.log2_two_pow] at hpow

/-- The bound of an enum field is a formula: the cardinality fits the width, since the
bound of a full domain is left out. -/
theorem enumBound_sort (hc : Covers problem.env sig) (f : FieldPath × FieldInfo)
    (hlookup : problem.env.lookup f.1 = some f.2) (a : Term × String)
    (ha : a ∈ enumBound problem.env f) : a.1.sort sig = some .bool := by
  obtain ⟨sort, hsort, hsig⟩ := hc f.1 f.2 hlookup
  unfold enumBound at ha
  split at ha
  · rename_i domain hty
    split at ha
    · rename_i entry hentry
      split at ha
      · rename_i hcount
        rw [List.mem_singleton] at ha
        subst ha
        have hw := enumWidth_spec entry.variants.length
        have hfit := enumCount_fits entry.variants.length hcount
        have hs : sort = .bitVec (enumWidth entry.variants.length) := by
          simpa [hty, sortForType, hentry] using hsort.symm
        rw [Term.sort_app_two]
        simp only [Term.sort, hsig, hs, hw.1, hfit, and_self, if_true, Option.bind_some]
        exact Op.sort_relation .bvult rfl _
      · simp at ha
    · simp at ha
  · simp at ha

theorem lookup_of_mem (f : FieldPath × FieldInfo) (hf : f ∈ env.fields) :
    env.lookup f.1 = some f.2 := by
  have hfind : ∀ fields : List (FieldPath × FieldInfo), (fields.map Prod.fst).Nodup →
      f ∈ fields → fields.find? (fun entry => entry.1 == f.1) = some f := by
    intro fields
    induction fields with
    | nil => simp
    | cons g fields ih =>
        intro hnodup hmem
        rw [List.map_cons, List.nodup_cons] at hnodup
        rcases List.mem_cons.mp hmem with rfl | hmem
        · simp
        · have hne : (g.1 == f.1) = false := by
            rw [beq_eq_false_iff_ne]
            intro heq
            exact hnodup.1 (heq ▸ List.mem_map_of_mem hmem)
          rw [List.find?_cons, hne]
          exact ih hnodup.2 hmem
  simp [FieldEnv.lookup, hfind env.fields env.nodup hf]

theorem wellFormed_remark (order : Option (List FieldPath)) (sig : Signature) :
    wellFormed (solveOrderRemark order ++ [.checkSat]) sig = true := by
  cases order <;> rfl

/-- With distinct names, a script is well formed exactly if its problem is emittable. -/
theorem Layout.wellFormed_iff (layout : Layout problem script)
    (hv : problemErrors problem = []) (hd : DistinctNames problem) :
    wellFormed script [] = true ↔ Emittable problem := by
  have hempty : ∀ e ∈ ([] : Signature), ∃ name, e.1 = z3AssertionName name := by simp
  have hcovers := layout.covers [] hempty hd.fields
  have hhardSort : ∀ front : Signature, (∀ e ∈ front, ∃ name, e.1 = z3AssertionName name) →
      ∀ c ∈ problem.constraints, ∀ t, lowerExpr problem.env c.expr = .ok t →
      t.sort (front ++ layout.entries.reverse) = if renderable c.expr then some .bool else none :=
    fun front hfront c hc t ht => layout.sort_eq hd front hfront c.expr
      (List.mem_append_left _ (List.mem_map_of_mem hc)) t (verified_clause hv c hc).1 ht
      (verified_clause hv c hc).2
  have hlabel : ∀ a ∈ layout.hard, ∃ name, a.2 = z3AssertionName name := by
    intro a ha
    obtain ⟨c, -, -, hname⟩ := forall₂_exists_left layout.hardTerms a ha
    exact ⟨_, hname⟩
  have hlabels : layout.hard.map Prod.snd =
      problem.constraints.map fun c => z3AssertionName c.assertionName := by
    exact forall₂_map_eq layout.hardTerms fun c a h => h.2
  have hstable : ∀ a ∈ layout.hard, ∀ front : Signature,
      (∀ e ∈ front, ∃ b ∈ layout.hard, e.1 = b.2) →
      a.1.sort (front ++ layout.entries.reverse) = a.1.sort layout.entries.reverse := by
    intro a ha front hfront
    obtain ⟨c, hc, ht, -⟩ := forall₂_exists_left layout.hardTerms a ha
    have hfront' : ∀ e ∈ front, ∃ name, e.1 = z3AssertionName name := by
      intro e he
      obtain ⟨b, hb, heq⟩ := hfront e he
      obtain ⟨name, hname⟩ := hlabel b hb
      exact ⟨name, heq.trans hname⟩
    rw [hhardSort front hfront' c hc a.1 ht]
    exact (hhardSort [] hempty c hc a.1 ht).symm
  have hhard : (∀ a ∈ layout.hard, a.1.sort layout.entries.reverse = some .bool) ↔
      ∀ c ∈ problem.constraints, renderable c.expr = true := by
    refine forall₂_forall_iff layout.hardTerms ?_
    intro c hc a _ hca
    have := hhardSort [] hempty c hc a.1 hca.1
    rw [List.nil_append] at this
    rw [this]
    cases renderable c.expr <;> simp
  have hsoft : ∀ front : Signature, (∀ e ∈ front, ∃ name, e.1 = z3AssertionName name) →
      ((∀ a ∈ layout.soft, a.1.sort (front ++ layout.entries.reverse) = some .bool) ↔
        ∀ c ∈ problem.softConstraints, renderable c.expr = true) := by
    intro front hfront
    refine forall₂_forall_iff layout.softTerms ?_
    intro c hc a _ hca
    rw [layout.sort_eq hd front hfront c.expr
      (List.mem_append_right _ (List.mem_map_of_mem hc)) a.1 (verified_softClause hv c hc).1 hca
      (verified_softClause hv c hc).2]
    cases renderable c.expr <;> simp
  have hentries : ∀ e ∈ layout.entries, isSymbol e.1 = true ∧ e.2.legal = true ∧
      e.1 ∉ ([] : Signature).map Prod.fst := by
    intro e he
    obtain ⟨f, hf, hsort⟩ := layout.sorted e he
    refine ⟨?_, sort_legal (verified_field hv f hf) hsort, by simp⟩
    have hname : e.1 ∈ layout.entries.map Prod.fst := List.mem_map_of_mem he
    rw [layout.names] at hname
    obtain ⟨g, -, heq⟩ := List.mem_map.mp hname
    rw [← heq]
    exact isSymbol_fieldName g.1
  have hdomains : ∀ a ∈ problem.env.fields.flatMap (enumBound problem.env),
      a.1.sort layout.entries.reverse = some .bool := by
    intro a ha
    obtain ⟨f, hf, haf⟩ := List.mem_flatMap.mp ha
    exact enumBound_sort hcovers f (lookup_of_mem f hf) a haf
  have hnew : ∀ a ∈ layout.hard, isSymbol a.2 = true ∧
      a.2 ∉ layout.entries.reverse.map Prod.fst := by
    intro a ha
    obtain ⟨name, hname⟩ := hlabel a ha
    rw [hname]
    refine ⟨isSymbol_assertionName name, ?_⟩
    rw [List.map_reverse, List.mem_reverse, layout.names]
    intro hin
    obtain ⟨f, -, heq⟩ := List.mem_map.mp hin
    exact fieldName_ne_assertionName f.1 name heq
  have hfront : ∀ e ∈ (layout.hard.map fun a => (a.2, TermSort.bool)).reverse,
      ∃ name, e.1 = z3AssertionName name := by
    intro e he
    rw [List.mem_reverse, List.mem_map] at he
    obtain ⟨a, ha, rfl⟩ := he
    exact hlabel a ha
  rw [layout.script_eq]
  simp only [List.cons_append, List.nil_append, List.append_assoc, wellFormed]
  rw [wellFormed_declare, List.append_nil, wellFormed_assert,
    wellFormed_assertNamed _ _ _ hstable, wellFormed_assertSoft, hhard, hsoft _ hfront, hlabels,
    layout.names]
  constructor
  · rintro ⟨-, -, -, hr, -, hl, hs, -⟩
    refine ⟨hd.fields, hl, ?_⟩
    intro e he
    rcases List.mem_append.mp he with he | he
    · obtain ⟨c, hc, rfl⟩ := List.mem_map.mp he
      exact hr c hc
    · obtain ⟨c, hc, rfl⟩ := List.mem_map.mp he
      exact hs c hc
  · intro h
    exact ⟨hentries, hd.fields, hdomains,
      fun c hc => h.rendered _ (List.mem_append_left _ (List.mem_map_of_mem hc)), hnew, h.labels,
      fun c hc => h.rendered _ (List.mem_append_right _ (List.mem_map_of_mem hc)),
      wellFormed_remark _ _⟩

/-- The script of a verified problem is well formed, and its symbols are distinct for
distinct fields and lengths, exactly if the problem is emittable. -/
theorem build_wellFormed_iff (problem : CTypedProblem) (script : List Command)
    (h : build problem = .ok script) :
    (wellFormed script [] = true ∧ DistinctNames problem) ↔ Emittable problem := by
  obtain ⟨hv, ⟨layout⟩⟩ := build_layout h
  constructor
  · rintro ⟨hwf, hd⟩
    exact (layout.wellFormed_iff hv hd).mp hwf
  · intro he
    exact ⟨(layout.wellFormed_iff hv he.distinctNames).mpr he, he.distinctNames⟩

end Layout

/-- A packet with a length below ten and a kind of three variants. -/
def packetProblem : CTypedProblem where
  env :=
    { fields := [(["hdr", "kind"], ⟨.enum 0, false⟩), (["len"], ⟨.uint 8, false⟩)]
      enums := [⟨0, "Kind", ["Read", "Write", "Idle"]⟩]
      nodup := by decide }
  constraints :=
    [⟨.binary .lt (.fieldRef ["len"] (.uint 8)) (.bvLit 10 (.uint 8)) .bool, "c_0"⟩,
      ⟨.inSet (.fieldRef ["hdr", "kind"] (.enum 0)) (.set [.enumLit 0 1 (.enum 0)]
        (.set (.enum 0))) .bool, "c_1"⟩]
  softConstraints := []
  solveOrder := none

theorem build_wellFormed_iff_packet :
    ∃ script, build packetProblem = .ok script ∧
      (wellFormed script [] = true ∧ DistinctNames packetProblem) := by
  refine ⟨_, rfl, ?_⟩
  refine (build_wellFormed_iff packetProblem _ rfl).mpr ⟨by decide, by decide, ?_⟩
  decide

/-- A nested field `a.b` beside a field `a_b`. -/
def dottedNames : CTypedProblem where
  env :=
    { fields := [(["a", "b"], ⟨.uint 8, false⟩), (["a_b"], ⟨.uint 8, false⟩)]
      enums := []
      nodup := by decide }
  constraints := []
  softConstraints := []
  solveOrder := none

theorem dottedNames_illFormed :
    ∃ script, build dottedNames = .ok script ∧
      ¬ (wellFormed script [] = true ∧ DistinctNames dottedNames) := by
  refine ⟨_, rfl, ?_⟩
  rintro ⟨h, -⟩
  revert h
  decide

end Harc.Z3WellFormed
