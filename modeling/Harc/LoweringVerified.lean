import Harc.ConstraintTyping

/-!
Which problems that typed lowering returns the verifier accepts.  The verifier checks more
than lowering does: the items of set and range literals, the types of fields, repeated
fields of a solve order.  What else it checks holds of every lowered expression.
-/

namespace Harc.LoweringVerified

open Harc.Ast
open Harc.ConstraintExpr (UnaryOp BinaryOp)
open Harc.SmtScript (natText)
open Harc.TypedConstraint
open Harc.RelationExpansion
open Harc.ExpansionResult
open Harc.ConstraintSchema
open Harc.TypedLowering
open Harc.LoweringState
open Harc.ConstraintTyping

/-! ### Verified expressions -/

def Verified (env : FieldEnv) (locals : Locals) (e : CTypedExpr) : Prop :=
  verifyExpr env e locals = []

def Concrete (env : FieldEnv) (ty : CType) : Prop :=
  checkTypeConcrete env ty = []

/-- A truth value, or what an unresolved one is left as. -/
def Truth (e : CTypedExpr) : Prop :=
  e.ty = .bool ∨ e.ty = .bottom

section Verify

variable {env : FieldEnv} {locals : Locals}

/-- A truth value verifies in every environment. -/
example (value : Bool) : Verified env locals (.boolLit value .bool) := by
  simp [Verified, verifyExpr, checkTypeConcrete, expectType]

theorem not_concrete_bottom : ¬ Concrete env .bottom := by
  simp [Concrete, checkTypeConcrete]

theorem concrete_bool : Concrete env .bool := rfl

theorem concrete_bv {w : Nat} {s : Sign} : Concrete env (.bv w s) ↔ w ≠ 0 := by
  simp [Concrete, checkTypeConcrete]

theorem Verified.concrete {e : CTypedExpr} (h : Verified env locals e) : Concrete env e.ty := by
  unfold Verified at h
  cases e <;> simp only [verifyExpr, List.append_eq_nil_iff, List.append_assoc] at h <;>
    exact h.1

theorem Verified.ne_bottom {e : CTypedExpr} (h : Verified env locals e) : e.ty ≠ .bottom := by
  intro hty
  have hc := h.concrete
  rw [hty] at hc
  exact not_concrete_bottom hc

theorem Verified.bool {e : CTypedExpr} (h : Verified env locals e) (ht : Truth e) :
    e.ty = .bool :=
  ht.resolve_right h.ne_bottom

theorem verified_bvLit {value : BitVec 128} {w : Nat} {s : Sign} :
    Verified env locals (.bvLit value (.bv w s)) ↔
      w ≠ 0 ∧ literalExceedsWidth value w = false := by
  by_cases hw : w = 0
  · simp [Verified, verifyExpr, checkTypeConcrete, hw]
  · cases hx : literalExceedsWidth value w <;>
      simp [Verified, verifyExpr, checkTypeConcrete, CType.asBv, hw, hx]

theorem verified_boolLit {value : Bool} : Verified env locals (.boolLit value .bool) := rfl

theorem literalExceedsWidth_of_fits {value : BitVec 128} {w : Nat} {s : Sign}
    (h : literalFits value w s = true) (hw : w ≠ 0) : literalExceedsWidth value w = false := by
  unfold literalExceedsWidth
  by_cases hlarge : 128 ≤ w
  · rw [if_pos hlarge]
  · rw [if_neg hlarge]
    cases s with
    | unsigned =>
        simp only [literalFits, if_neg hlarge, decide_eq_true_eq] at h
        simpa using h
    | signed =>
        simp only [literalFits, if_neg hlarge, if_neg hw, decide_eq_true_eq] at h
        have hle : 2 ^ (w - 1) ≤ 2 ^ w := Nat.pow_le_pow_right (by omega) (by omega)
        simp only [decide_eq_false_iff_not, Nat.not_lt]
        omega

theorem defaultUnsignedWidth_ok (value : BitVec 128) :
    defaultUnsignedWidth value ≠ 0 ∧
      literalExceedsWidth value (defaultUnsignedWidth value) = false := by
  unfold defaultUnsignedWidth literalExceedsWidth
  by_cases h : value = 0
  · subst h
    simp
  · rw [if_neg h]
    refine ⟨by omega, ?_⟩
    split
    · rfl
    · have hlt : value.toNat < 2 ^ (value.toNat.log2 + 1) := Nat.lt_log2_self
      simp only [decide_eq_false_iff_not, Nat.not_lt]
      omega

/-! ### One constructor at a time -/

theorem verified_unary_iff {op : CUnaryOp} {e : CTypedExpr} {ty : CType} :
    Verified env locals (.unary op e ty) ↔
      Concrete env ty ∧ Verified env locals e ∧ verifyUnary op e.ty ty = [] := by
  simp only [Verified, Concrete, verifyExpr, List.append_eq_nil_iff, and_assoc]

theorem verified_binary_iff {op : CBinaryOp} {l r : CTypedExpr} {ty : CType} :
    Verified env locals (.binary op l r ty) ↔
      Concrete env ty ∧ Verified env locals l ∧ Verified env locals r ∧
        verifyBinary op l.ty r.ty ty = [] := by
  simp only [Verified, Concrete, verifyExpr, List.append_eq_nil_iff, and_assoc]

theorem verified_inSet_iff {e set : CTypedExpr} {ty : CType} :
    Verified env locals (.inSet e set ty) ↔
      Concrete env ty ∧ Verified env locals e ∧ Verified env locals set ∧
        verifyInSet e.ty set.ty ty = [] := by
  simp only [Verified, Concrete, verifyExpr, List.append_eq_nil_iff, and_assoc]

theorem verified_coerceFlagToBool {e : CTypedExpr} :
    Verified env locals (coerceFlagToBool e) ↔ Verified env locals e := by
  unfold coerceFlagToBool
  split
  · rename_i hbv
    have hty : e.ty = .bv 1 .unsigned := by
      cases hty : e.ty <;> simp_all [CType.asBv]
    have hzero : Verified env locals (.bvLit 0 (.bv 1 .unsigned)) :=
      verified_bvLit.mpr (by decide)
    have hop : verifyBinary .ne (.bv 1 .unsigned) (.bv 1 .unsigned) .bool = [] := by decide
    rw [verified_binary_iff, hty, CTypedExpr.ty_bvLit]
    exact ⟨fun h => h.2.1, fun h => ⟨concrete_bool, h, hzero, hop⟩⟩
  · exact Iff.rfl

theorem unaryType_ok {op : CUnaryOp} {inner : CType} (h : (unaryType op inner).2 = none)
    (hne : inner ≠ .bottom) :
    (unaryType op inner).1 = inner ∧ verifyUnary op inner inner = [] := by
  cases op <;> cases inner <;> simp_all [unaryType, verifyUnary, CType.isBv, expectType]

theorem verified_unary {op : CUnaryOp} {e : CTypedExpr} (h : (unaryType op e.ty).2 = none) :
    Verified env locals (.unary op e (unaryType op e.ty).1) ↔ Verified env locals e := by
  rw [verified_unary_iff]
  constructor
  · exact fun hv => hv.2.1
  · intro hv
    obtain ⟨hty, hcheck⟩ := unaryType_ok h hv.ne_bottom
    rw [hty]
    exact ⟨hv.concrete, hv, hcheck⟩

theorem verified_finishUnary {op : UnaryOp} {e : CTypedExpr} (h : (finishUnary op e).2 = none) :
    Verified env locals (finishUnary op e).1 ↔ Verified env locals e := by
  unfold finishUnary at h ⊢
  dsimp only at h ⊢
  rw [verified_unary h]
  split
  · exact verified_coerceFlagToBool
  · exact Iff.rfl

/-- A literal that takes a concrete type is verified. -/
theorem verified_coerceLiteral {e : CTypedExpr} {w : Nat} {s : Sign} (hl : isBvLit e = true)
    (h : (coerceLiteral e (.bv w s)).2 = none) (hc : Concrete env (.bv w s)) :
    Verified env locals (coerceLiteral e (.bv w s)).1 ∧
      (coerceLiteral e (.bv w s)).1.ty = .bv w s := by
  cases e with
  | bvLit value ty =>
      obtain ⟨heq, hfits⟩ := coerceLiteral_ok h
      have hw := concrete_bv.mp hc
      rw [heq]
      exact ⟨verified_bvLit.mpr ⟨hw, literalExceedsWidth_of_fits hfits hw⟩, rfl⟩
  | _ => simp [isBvLit] at hl

theorem expectMatchingBv_same (op : CBinaryOp) (w : Nat) (s : Sign) :
    expectMatchingBv op (.bv w s) (.bv w s) = .ok (w, s) := by
  simp [expectMatchingBv, CType.asBv]

theorem verifyEquality_bv (op : CBinaryOp) (w : Nat) (s : Sign) :
    verifyEquality op (.bv w s) (.bv w s) .bool = [] := by
  simp [verifyEquality, expectMatchingBv_same, errorsOf, expectType]

theorem equalityType_ok {op : CBinaryOp} {l r : CTypedExpr}
    (h : (equalityType op l r).2 = none) : verifyEquality op l.ty r.ty .bool = [] := by
  unfold equalityType at h
  split at h
  · rename_i hl hr
    rw [hl, hr]
    simp [verifyEquality, expectType]
  · rename_i d₁ d₂ hl hr
    rw [hl, hr]
    by_cases hd : d₁ = d₂
    · simp [hd, verifyEquality, expectType]
    · simp [hd] at h
  · obtain ⟨w, s, hl, hr, hty⟩ := compareBvType_ok h
    rw [hl, hr]
    exact verifyEquality_bv op w s

/-- The type of an operator that is not refused satisfies the verifier. -/
theorem typeCheckBinary_ok {op : CBinaryOp} {l r : CTypedExpr}
    (h : (typeCheckBinary op l r).2 = none) (hl : Verified env locals l)
    (hr : Verified env locals r) :
    Concrete env (typeCheckBinary op l r).1 ∧
      verifyBinary op l.ty r.ty (typeCheckBinary op l r).1 = [] := by
  have hne : ¬ (l.ty = .bottom ∨ r.ty = .bottom) :=
    fun hb => hb.elim hl.ne_bottom hr.ne_bottom
  have harith : ∀ o, (arithmeticType o l r).2 = none →
      Concrete env (arithmeticType o l r).1 ∧
        ∃ width sign, expectMatchingBv o l.ty r.ty = .ok (width, sign) ∧
          expectType "binary bv result" (.bv width sign) (arithmeticType o l r).1 = [] := by
    intro o ho
    obtain ⟨w, s, hlt, hrt, hty⟩ := arithmeticType_ok ho
    have hc := hl.concrete
    rw [hlt] at hc
    rw [hty, hlt, hrt, expectMatchingBv_same]
    exact ⟨hc, w, s, rfl, by simp [expectType]⟩
  have hcompare : ∀ o, (compareBvType o l r).2 = none →
      Concrete env (compareBvType o l r).1 ∧
        errorsOf (expectMatchingBv o l.ty r.ty) ++
          expectType "comparison result" .bool (compareBvType o l r).1 = [] := by
    intro o ho
    obtain ⟨w, s, hlt, hrt, hty⟩ := compareBvType_ok ho
    rw [hty, hlt, hrt, expectMatchingBv_same]
    exact ⟨concrete_bool, by simp [errorsOf, expectType]⟩
  have hequal : ∀ o, (equalityType o l r).2 = none →
      Concrete env (equalityType o l r).1 ∧
        verifyEquality o l.ty r.ty (equalityType o l r).1 = [] := by
    intro o ho
    rw [equalityType_bool ho]
    exact ⟨concrete_bool, equalityType_ok ho⟩
  unfold typeCheckBinary at h ⊢
  rw [if_neg hne] at h ⊢
  cases op with
  | add | sub | mul | div | mod | bitAnd | bitOr | bitXor =>
      obtain ⟨hc, w, s, hmatch, hresult⟩ := harith _ h
      refine ⟨hc, ?_⟩
      rw [verifyBinary, hmatch]
      exact hresult
  | eq | ne => exact hequal _ h
  | lt | le | gt | ge => exact hcompare _ h
  | logicalAnd | logicalOr =>
      obtain ⟨hlt, hrt, hty⟩ := logicalType_ok h
      dsimp only at hty ⊢
      rw [hty, hlt, hrt]
      exact ⟨concrete_bool, by decide⟩
  | shl | shr =>
      obtain ⟨w, s, v, hlt, hrt, hty⟩ := shiftType_ok h
      have hc := hl.concrete
      dsimp only at hty ⊢
      rw [hty]
      rw [hlt] at hc ⊢
      rw [hrt]
      exact ⟨hc, by simp [verifyBinary, CType.isBv, CType.asBv, expectType]⟩

theorem verified_typeCheckBinary {op : CBinaryOp} {l r : CTypedExpr}
    (h : (typeCheckBinary op l r).2 = none) :
    Verified env locals (.binary op l r (typeCheckBinary op l r).1) ↔
      Verified env locals l ∧ Verified env locals r := by
  rw [verified_binary_iff]
  constructor
  · exact fun hv => ⟨hv.2.1, hv.2.2.1⟩
  · rintro ⟨hl, hr⟩
    obtain ⟨hc, hcheck⟩ := typeCheckBinary_ok h hl hr
    exact ⟨hc, hl, hr, hcheck⟩

/-- The operands of an operator are verified, each as it is or with a new type. -/
def operandsMatch (op : CBinaryOp) (l r : Shape) (left right : Bool) : Bool :=
  if isLogical op then left && right
  else (left || takesType l r) && (right || takesType r l)

theorem isBv_of_asBv {ty : CType} {w : Nat} {s : Sign} (h : ty.asBv = some (w, s)) :
    ty.isBv = true := by
  rw [asBv_eq_some h]
  rfl

theorem verified_binaryOperands {op : CBinaryOp} {l r : CTypedExpr} {left right : Bool}
    (h : (binaryOperands op l r).2.2 = none) (hl : Verified env locals l ↔ left = true)
    (hr : Verified env locals r ↔ right = true) :
    Verified env locals (binaryOperands op l r).1 ∧
        Verified env locals (binaryOperands op l r).2.1 ↔
      operandsMatch op (shape l) (shape r) left right = true := by
  unfold binaryOperands at h ⊢
  unfold operandsMatch
  by_cases hop : isLogical op = true
  · rw [if_pos hop, if_pos hop, Bool.and_eq_true]
    exact and_congr (verified_coerceFlagToBool.trans hl) (verified_coerceFlagToBool.trans hr)
  · rw [if_neg hop] at h
    rw [if_neg hop, if_neg hop]
    unfold adaptOperands at h ⊢
    split at h
    · rename_i w s hlit hnot hbv
      have hty := asBv_eq_some hbv
      have htakes : takesType (shape l) (shape r) = true := by
        simp [takesType, hlit, hnot, isBv_of_asBv hbv]
      have hkeeps : takesType (shape r) (shape l) = false := by
        simp [takesType, hnot]
      rw [htakes, hkeeps, Bool.or_true, Bool.true_and, Bool.or_false, ← hr]
      refine ⟨fun hv => hv.2, fun hv => ⟨?_, hv⟩⟩
      have hc := hv.concrete
      rw [hty] at hc
      exact (verified_coerceLiteral hlit h hc).1
    · rename_i w s hnot hlit hbv
      have hty := asBv_eq_some hbv
      have htakes : takesType (shape r) (shape l) = true := by
        simp [takesType, hlit, hnot, isBv_of_asBv hbv]
      have hkeeps : takesType (shape l) (shape r) = false := by
        simp [takesType, hnot]
      rw [htakes, hkeeps, Bool.or_true, Bool.and_true, Bool.or_false, ← hl]
      refine ⟨fun hv => hv.1, fun hv => ⟨hv, ?_⟩⟩
      have hc := hv.concrete
      rw [hty] at hc
      exact (verified_coerceLiteral hlit h hc).1
    · rename_i hleft hright
      have h1 : takesType (shape l) (shape r) = false :=
        not_takesType fun w s hlit hnot hbv => hright w s hlit hnot hbv
      have h2 : takesType (shape r) (shape l) = false :=
        not_takesType fun w s hlit hnot hbv => hleft w s hnot hlit hbv
      rw [h1, h2, Bool.or_false, Bool.or_false, Bool.and_eq_true]
      exact and_congr hl hr

theorem membershipType_ok {elem set : CType} (h : (membershipType elem set).2 = none)
    (he : elem ≠ .bottom) (hs : set ≠ .bottom) :
    (membershipType elem set).1 = .bool ∧ verifyInSet elem set .bool = [] := by
  unfold membershipType at h ⊢
  cases set with
  | set e | range e =>
      dsimp only at h ⊢
      by_cases heq : e = elem
      · simp [heq, verifyInSet, iterableElemType, expectType]
      · simp [heq, he] at h
  | bottom => exact absurd rfl hs
  | _ => simp at h

theorem verified_membership {e set : CTypedExpr} (h : (membershipType e.ty set.ty).2 = none) :
    Verified env locals (.inSet e set (membershipType e.ty set.ty).1) ↔
      Verified env locals e ∧ Verified env locals set := by
  rw [verified_inSet_iff]
  constructor
  · exact fun hv => ⟨hv.2.1, hv.2.2.1⟩
  · rintro ⟨he, hs⟩
    obtain ⟨hty, hcheck⟩ := membershipType_ok h he.ne_bottom hs.ne_bottom
    rw [hty]
    exact ⟨concrete_bool, he, hs, hcheck⟩

/-! ### Literals with items -/

theorem verifyItems_iff {elem : CType} (items : List CTypedExpr) :
    verifyItems env elem items locals = [] ↔
      ∀ e ∈ items, Verified env locals e ∧ e.ty = elem := by
  induction items with
  | nil => simp [verifyItems]
  | cons e es ih =>
      rw [verifyItems, List.append_eq_nil_iff, List.append_eq_nil_iff, ih, List.forall_mem_cons]
      refine and_congr_left fun _ => and_congr_right fun _ => ?_
      by_cases h : e.ty = elem <;> simp [h]

theorem verified_set_iff {items : List CTypedExpr} {elem : CType} :
    Verified env locals (.set items (.set elem)) ↔
      Concrete env elem ∧ ∀ e ∈ items, Verified env locals e ∧ e.ty = elem := by
  simp only [Verified, Concrete, verifyExpr, checkTypeConcrete, List.append_eq_nil_iff]
  rw [verifyItems_iff]
  simp only [Verified]
  tauto

/-- An endpoint of a type. -/
def BoundOk (env : FieldEnv) (locals : Locals) (elem : CType) (b : Option CTypedExpr) : Prop :=
  ∀ e ∈ b, Verified env locals e ∧ e.ty = elem

theorem verifyBound_iff {context : String} {elem : CType} {b : Option CTypedExpr} :
    verifyBound env context elem b locals = [] ↔ BoundOk env locals elem b := by
  cases b with
  | none => simp [verifyBound, BoundOk]
  | some e =>
      simp only [verifyBound, BoundOk, expectType, List.append_eq_nil_iff, Verified,
        Option.mem_def, Option.some.injEq, forall_eq']
      refine and_congr_right fun _ => ?_
      by_cases h : e.ty = elem <;> simp [h]

theorem verified_range_iff {lo hi : Option CTypedExpr} {elem : CType} :
    Verified env locals (.range lo hi (.range elem)) ↔
      Concrete env elem ∧ BoundOk env locals elem lo ∧ BoundOk env locals elem hi := by
  simp only [Verified, Concrete, verifyExpr, checkTypeConcrete, List.append_eq_nil_iff]
  rw [verifyBound_iff, verifyBound_iff]
  tauto

theorem verified_inRange_iff {e : CTypedExpr} {lo hi : Option CTypedExpr} :
    Verified env locals (.inRange e lo hi .bool) ↔
      Verified env locals e ∧ BoundOk env locals e.ty lo ∧ BoundOk env locals e.ty hi := by
  simp only [Verified, verifyExpr, checkTypeConcrete, List.append_eq_nil_iff, expectType]
  rw [verifyBound_iff, verifyBound_iff]
  simp [and_assoc]

/-- An item of a literal: an expression of the type of its elements. -/
def ItemOk (env : FieldEnv) (locals : Locals) (elem : CType) (e : CTypedExpr) : Prop :=
  Verified env locals e ∧ e.ty = elem

theorem adapts_bv {e : CTypedExpr} {w : Nat} {s : Sign} :
    adapts (shape e) (.bv w s) = true ↔ isBvLit e = true ∧ e.ty.asBv ≠ (CType.bv w s).asBv := by
  unfold adapts
  rw [Bool.and_eq_true, Bool.and_eq_true, decide_eq_true_eq]
  simp [CType.isBv]

/-- What does not adapt stays as it is. -/
theorem adaptTo_of_not_adapts {e : CTypedExpr} {hint : Option CType}
    (h : adaptsTo hint (shape e) = false) : adaptTo hint e = (e, none) := by
  cases hint with
  | none => rfl
  | some elem =>
      change adapts (shape e) elem = false at h
      change adaptLiteral e elem = (e, none)
      unfold adaptLiteral
      by_cases hlit : isBvLit e = true ∧ e.ty.asBv ≠ elem.asBv
      · rw [if_pos hlit]
        cases elem with
        | bv w s => exact absurd (adapts_bv.mpr hlit) (by simp [h])
        | _ => cases e <;> simp_all [isBvLit, coerceLiteral]
      · exact if_neg hlit

/-- An item has the type of the elements if it takes that type, or is verified and has it
already. -/
theorem itemOk_adaptTo {e : CTypedExpr} {hint : Option CType} {elem : CType} {test : Bool}
    (helem : ∀ ty ∈ hint, ty = elem) (hc : ∀ ty ∈ hint, Concrete env ty)
    (h : (adaptTo hint e).2 = none) (ht : Verified env locals e ↔ test = true) :
    ItemOk env locals elem (adaptTo hint e).1 ↔
      (adaptsTo hint (shape e) || (test && decide ((shape e).ty = elem))) = true := by
  by_cases hadapts : adaptsTo hint (shape e) = true
  · rw [hadapts, Bool.true_or]
    refine ⟨fun _ => rfl, fun _ => ?_⟩
    cases hint with
    | none => simp [adaptsTo] at hadapts
    | some ty =>
        obtain rfl := helem ty rfl
        change adapts (shape e) ty = true at hadapts
        cases ty with
        | bv w s =>
            have hlit := adapts_bv.mp hadapts
            change (adaptLiteral e (.bv w s)).2 = none at h
            change ItemOk env locals (.bv w s) (adaptLiteral e (.bv w s)).1
            unfold adaptLiteral at h ⊢
            rw [if_pos hlit] at h ⊢
            exact verified_coerceLiteral hlit.1 h (hc _ rfl)
        | _ => simp [adapts, CType.isBv] at hadapts
  · rw [Bool.not_eq_true] at hadapts
    rw [adaptTo_of_not_adapts hadapts, hadapts, Bool.false_or, Bool.and_eq_true,
      decide_eq_true_eq, ← ht]
    exact Iff.rfl

theorem itemOk_adaptLiteral {e : CTypedExpr} {elem : CType} {test : Bool} (hc : Concrete env elem)
    (h : (adaptLiteral e elem).2 = none) (ht : Verified env locals e ↔ test = true) :
    ItemOk env locals elem (adaptLiteral e elem).1 ↔
      (adaptsTo (some elem) (shape e) || (test && decide ((shape e).ty = elem))) = true :=
  @itemOk_adaptTo env locals e (some elem) elem test (by simp) (by simpa using hc) h ht

/-! ### Clauses -/

theorem finishClause_truth {e : CTypedExpr} (h : (finishClause e).2 = none) :
    Truth (finishClause e).1 := by
  unfold finishClause at h ⊢
  dsimp only at h ⊢
  split at h
  · simp at h
  · rename_i hty
    rw [if_neg hty]
    unfold Truth
    tauto

theorem verified_finishClause {e : CTypedExpr} (h : (finishClause e).2 = none) :
    Verified env locals (finishClause e).1 ↔ Verified env locals e := by
  unfold finishClause at h ⊢
  dsimp only at h ⊢
  split at h
  · simp at h
  · rename_i hty
    rw [if_neg hty]
    exact verified_coerceFlagToBool

theorem verified_logicalAnd {l r : CTypedExpr} (hl : Truth l) (hr : Truth r) :
    Verified env locals
        (.binary .logicalAnd l r (if l.ty = .bool ∧ r.ty = .bool then .bool else .bottom)) ↔
      Verified env locals l ∧ Verified env locals r := by
  rw [verified_binary_iff]
  constructor
  · exact fun h => ⟨h.2.1, h.2.2.1⟩
  · rintro ⟨hvl, hvr⟩
    have htl := hvl.bool hl
    have htr := hvr.bool hr
    rw [if_pos ⟨htl, htr⟩, htl, htr]
    exact ⟨concrete_bool, hvl, hvr, by decide⟩

/-- A conjunction is verified, and a truth value, if its clauses are. -/
theorem verified_andJoinTyped (es : List CTypedExpr) (ht : ∀ e ∈ es, Truth e) :
    Verified env locals (andJoinTyped es) ∧ (andJoinTyped es).ty = .bool ↔
      ∀ e ∈ es, Verified env locals e := by
  have hfold : ∀ (es : List CTypedExpr) (acc : CTypedExpr), (∀ e ∈ es, Truth e) → Truth acc →
      Truth (es.foldl (fun acc next => .binary .logicalAnd acc next
        (if acc.ty = .bool ∧ next.ty = .bool then .bool else .bottom)) acc) ∧
      (Verified env locals (es.foldl (fun acc next => .binary .logicalAnd acc next
        (if acc.ty = .bool ∧ next.ty = .bool then .bool else .bottom)) acc) ↔
          Verified env locals acc ∧ ∀ e ∈ es, Verified env locals e) := by
    intro es
    induction es with
    | nil => exact fun acc _ hacc => ⟨hacc, by simp⟩
    | cons e es ih =>
        intro acc hes hacc
        rw [List.forall_mem_cons] at hes
        have hstep : Truth (.binary .logicalAnd acc e
            (if acc.ty = .bool ∧ e.ty = .bool then .bool else .bottom)) := by
          unfold Truth
          rw [CTypedExpr.ty_binary]
          split
          · exact Or.inl rfl
          · exact Or.inr rfl
        obtain ⟨htruth, hverified⟩ := ih _ hes.2 hstep
        refine ⟨htruth, ?_⟩
        rw [List.foldl_cons, hverified, verified_logicalAnd hacc hes.1, List.forall_mem_cons,
          and_assoc]
  cases es with
  | nil => simp [andJoinTyped, verified_boolLit]
  | cons e es =>
      rw [List.forall_mem_cons] at ht
      obtain ⟨htruth, hverified⟩ := hfold es e ht.2 ht.1
      rw [List.forall_mem_cons, ← hverified]
      exact ⟨fun h => h.1, fun h => ⟨h, h.bool htruth⟩⟩

theorem verified_forAll_iff {var : Nat} {iter body : CTypedExpr} {elem : CType}
    (h : iterableElemType iter.ty = some elem) :
    Verified env locals (.forAll var iter body .bool) ↔
      Verified env locals iter ∧ Verified env (Locals.insert locals var elem) body ∧
        body.ty = .bool := by
  simp only [Verified, verifyExpr, checkTypeConcrete, h, expectType, List.append_eq_nil_iff]
  by_cases hty : body.ty = .bool <;> simp [hty]

theorem verified_finishMethod {method : String} {target : CTypedExpr} {args : List CTypedExpr}
    (h : (finishMethod method target args).2 = none) :
    Verified env locals (finishMethod method target args).1 ↔ Verified env locals target := by
  unfold finishMethod at h ⊢
  by_cases hm : method = "len"
  · rw [if_pos hm] at h ⊢
    split at h
    · by_cases hargs : args = []
      · subst hargs
        simp only [Verified, verifyExpr, verifyArgs, verifyFieldMethod, CType.uint, CType.asBv,
          checkTypeConcrete, List.append_nil]
        simp
      · simp [hargs] at h
    · simp at h
  · simp [hm] at h

end Verify

/-! ### What lowering does not check -/

/-- The magnitude of a constant fits the width that the constant has. -/
def constFits (c : IntegerConst) : Bool :=
  c.isBool || (decide ((constSort c).1 ≠ 0) && !literalExceedsWidth
    ((if constNegative c then -c.value else c.value).setWidth 128) (constSort c).1)

section Matched

variable (ctx : LowerCtx) (onCallShape : String → List CallArg → Types → Shape)
  (onCallMatched : String → List CallArg → Types → Bool)

/-- A name of a constant needs the constant to fit. -/
def identMatched (name : String) (types : Types) : Bool :=
  (types name).isSome || (enumVariantLookup ctx.schemas name).isSome ||
    (ctx.schemas.const name).all constFits

/-- A type that a value can have. -/
def isConcrete (env : FieldEnv) (ty : CType) : Bool := (checkTypeConcrete env ty).isEmpty

mutual

/-- Each item of every set and range literal of an expression has the type of the elements
or takes it, and the constants fit. -/
def matched : Option CType → Expr → Types → Bool
  | _, .paren inner, types => matched none inner types
  | _, .ident name, types => identMatched ctx name types
  | _, .unary _ expr, types => matched none expr types
  | _, .binary op lhs rhs, types =>
      if op = .in ∨ op = .inside then
        matched none lhs types &&
          matched (membershipHint (typeExpr ctx onCallShape none lhs types).ty) rhs types
      else
        match mapBinaryOp op with
        | none => true
        | some cop =>
            operandsMatch cop (typeExpr ctx onCallShape none lhs types)
              (typeExpr ctx onCallShape none rhs types) (matched none lhs types)
              (matched none rhs types)
  | _, .membership lhs rhs, types =>
      matched none lhs types &&
        matched (membershipHint (typeExpr ctx onCallShape none lhs types).ty) rhs types
  | hint, .rangeLit lo hi, types =>
      let elem := hint.getD
        (rangeElem (typeBound ctx onCallShape lo types) (typeBound ctx onCallShape hi types))
      isConcrete ctx.env elem &&
        (boundMatched hint elem lo types && boundMatched hint elem hi types)
  | hint, .setLit items, types =>
      let elem := hint.getD (setElem (typeItems ctx onCallShape items types))
      isConcrete ctx.env elem && itemsMatched elem items types
  | _, .call (.field target _) _, types => matched none target types
  | _, .call (.ident name) args, types => onCallMatched name args types
  | _, .forEachConstraint var iter body, types =>
      matched none iter types &&
        match iterableElemType (typeExpr ctx onCallShape none iter types).ty with
        | none => true
        | some elem => clausesMatched body (types.insert var elem)
  | _, _, _ => true

def itemsMatched : CType → List Expr → Types → Bool
  | _, [], _ => true
  | elem, e :: es, types =>
      (adaptsTo (some elem) (typeExpr ctx onCallShape none e types) ||
        (matched none e types && decide ((typeExpr ctx onCallShape none e types).ty = elem))) &&
        itemsMatched elem es types

/-- An endpoint takes the type of the hint only. -/
def boundMatched : Option CType → CType → Option Expr → Types → Bool
  | _, _, none, _ => true
  | hint, elem, some e, types =>
      adaptsTo hint (typeExpr ctx onCallShape none e types) ||
        (matched none e types && decide ((typeExpr ctx onCallShape none e types).ty = elem))

def clausesMatched : List Expr → Types → Bool
  | [], _ => true
  | e :: es, types => matched none e types && clausesMatched es types

end

end Matched

def callMatched (ctx : LowerCtx) : Nat → String → List CallArg → Types → Bool
  | 0, _, _, _ => true
  | fuel + 1, name, args, types =>
      matched ctx (typeCall ctx fuel) (callMatched ctx fuel) none
        (expandedCall ctx.schemas.relations name args) types

/-! ### Names -/

/-- The fields of the record have proper types. -/
def FieldsConcrete (ctx : LowerCtx) : Prop :=
  ∀ entry ∈ ctx.env.fields, Concrete ctx.env entry.2.ty

/-- The loop variables of lowering are those of the verifier. -/
def LocalsOk (env : FieldEnv) (locals : Locals) (st : LowerState) : Prop :=
  ∀ name id ty, st.locals.get name = some (id, ty) →
    locals id = some ty ∧ Concrete env ty ∧ id < st.nextLocalId

theorem LocalsOk.extends {env : FieldEnv} {locals : Locals} {st st' : LowerState}
    (h : LocalsOk env locals st) (he : Extends st st') : LocalsOk env locals st' := by
  intro name id ty hget
  rw [he.locals] at hget
  obtain ⟨hlocal, hc, hid⟩ := h name id ty hget
  exact ⟨hlocal, hc, Nat.lt_of_lt_of_le hid he.ids⟩

theorem LocalsOk.enterLoop {env : FieldEnv} {locals : Locals} {st : LowerState}
    (h : LocalsOk env locals st) (var : String) {elem : CType} (hc : Concrete env elem) :
    LocalsOk env (Locals.insert locals st.nextLocalId elem) (st.enterLoop var elem) := by
  intro name id ty hget
  simp only [LowerState.enterLoop, get_insert] at hget ⊢
  by_cases hname : var = name
  · rw [if_pos hname] at hget
    simp only [Option.some.injEq, Prod.mk.injEq] at hget
    obtain ⟨rfl, rfl⟩ := hget
    exact ⟨by simp [Locals.insert], hc, Nat.lt_succ_self _⟩
  · rw [if_neg hname] at hget
    obtain ⟨hlocal, hty, hid⟩ := h name id ty hget
    refine ⟨?_, hty, Nat.lt_succ_of_lt hid⟩
    rw [Locals.insert, if_neg (Nat.ne_of_lt hid)]
    exact hlocal

section Names

variable {ctx : LowerCtx} {locals : Locals}

theorem verified_fieldRef (hf : FieldsConcrete ctx) {path : FieldPath} {info : FieldInfo}
    (h : ctx.env.lookup path = some info) :
    Verified ctx.env locals (.fieldRef path info.ty) := by
  obtain ⟨entry, hentry, rfl⟩ := Option.map_eq_some_iff.mp h
  have hc := hf entry (List.mem_of_find?_eq_some hentry)
  simp only [Concrete] at hc
  simp [Verified, verifyExpr, hc, verifyFieldRef, h]

theorem verified_lowerConst {c : IntegerConst} :
    Verified ctx.env locals (lowerConst c) ↔ constFits c = true := by
  unfold constFits lowerConst
  by_cases hbool : c.isBool = true
  · rw [if_pos hbool, hbool, Bool.true_or]
    exact ⟨fun _ => rfl, fun _ => verified_boolLit⟩
  · rw [if_neg hbool]
    simp only [hbool, Bool.false_or, Bool.and_eq_true, decide_eq_true_eq, Bool.not_eq_true']
    split
    · rw [verified_unary_iff, verified_bvLit]
      constructor
      · exact fun h => h.2.1
      · intro h
        exact ⟨concrete_bv.mpr h.1, h, by simp [verifyUnary, CType.isBv, expectType]⟩
    · exact verified_bvLit

theorem collectEnumEntries_id {schemas : Elaboration} {a b : EnumDomainEntry}
    (ha : a ∈ collectEnumEntries schemas) (hb : b ∈ collectEnumEntries schemas)
    (hid : a.id = b.id) : a = b := by
  obtain ⟨⟨d, i⟩, hd, rfl⟩ := List.mem_map.mp ha
  obtain ⟨⟨e, j⟩, he, rfl⟩ := List.mem_map.mp hb
  simp only at hid
  subst hid
  have hd' := List.mem_zipIdx hd
  have he' := List.mem_zipIdx he
  have heq : d = e := hd'.2.2.trans he'.2.2.symm
  rw [heq]

/-- A variant that is found belongs to a domain of the environment. -/
theorem enumVariantLookup_ok {name : String} {domain idx : Nat}
    (h : enumVariantLookup ctx.schemas name = some (domain, idx)) :
    ∃ entry, ctx.env.enumById domain = some entry ∧ idx < entry.variants.length := by
  obtain ⟨found, hfound, hvalue⟩ := Option.map_eq_some_iff.mp h
  have hmem := List.mem_reverse.mp (List.mem_of_find?_eq_some hfound)
  obtain ⟨entry, hentry, hvariant⟩ := List.mem_flatMap.mp hmem
  obtain ⟨⟨v, i⟩, hv, rfl⟩ := List.mem_map.mp hvariant
  simp only [Prod.mk.injEq] at hvalue
  obtain ⟨rfl, rfl⟩ := hvalue
  have hidx := (List.mem_zipIdx hv).2.1
  have hsome : (ctx.env.enumById entry.id).isSome = true := by
    unfold FieldEnv.enumById
    rw [List.find?_isSome]
    exact ⟨entry, hentry, by simp⟩
  obtain ⟨found', hfound'⟩ := Option.isSome_iff_exists.mp hsome
  have hid : found'.id = entry.id := by simpa using List.find?_some hfound'
  obtain rfl := collectEnumEntries_id (List.mem_of_find?_eq_some hfound') hentry hid
  exact ⟨found', hfound', by omega⟩

theorem verified_lowerIdent (hf : FieldsConcrete ctx) {st : LowerState}
    (hl : LocalsOk ctx.env locals st) (name : String)
    (hclean : Clean (lowerIdent ctx name st).2) :
    Verified ctx.env locals (lowerIdent ctx name st).1 ↔
      identMatched ctx name (localTypes st) = true := by
  unfold lowerIdent at hclean ⊢
  unfold identMatched
  cases hlocal : st.locals.get name with
  | some entry =>
      obtain ⟨id, ty⟩ := entry
      obtain ⟨hid, hc, -⟩ := hl name id ty hlocal
      simp only [Concrete] at hc
      simp [Verified, verifyExpr, hc, hid, localTypes, hlocal]
  | none =>
      simp only [hlocal] at hclean
      cases hvariant : enumVariantLookup ctx.schemas name with
      | some entry =>
          obtain ⟨domain, idx⟩ := entry
          obtain ⟨found, hfound, hidx⟩ := enumVariantLookup_ok hvariant
          simp [Verified, verifyExpr, checkTypeConcrete, verifyEnumLit, hfound, hidx]
      | none =>
          simp only [hvariant] at hclean
          cases hconst : ctx.schemas.const name with
          | some c => simpa [localTypes, hlocal] using verified_lowerConst
          | none =>
              simp only [hconst] at hclean
              cases hfield : ctx.env.lookup [name] with
              | some info => simpa using verified_fieldRef hf hfield
              | none =>
                  simp only [hfield] at hclean
                  exact absurd hclean not_clean_recordError

theorem verified_lowerFieldAccess (hf : FieldsConcrete ctx) {st : LowerState} (target : Expr)
    (name : String) (hclean : Clean (lowerFieldAccess ctx target name st).2) :
    Verified ctx.env locals (lowerFieldAccess ctx target name st).1 := by
  unfold lowerFieldAccess at hclean ⊢
  cases hparts : collectDotted target with
  | none =>
      simp only [hparts] at hclean
      exact absurd hclean not_clean_recordError
  | some parts =>
      simp only [hparts] at hclean ⊢
      cases hfull : ctx.env.lookup (parts ++ [name]) with
      | some info => exact verified_fieldRef hf hfull
      | none =>
          simp only [hfull] at hclean ⊢
          by_cases hlen : 2 ≤ (parts ++ [name]).length
          · simp only [hlen, if_true] at hclean ⊢
            cases hsuffix : ctx.env.lookup ((parts ++ [name]).drop 1) with
            | some info => exact verified_fieldRef hf hsuffix
            | none =>
                simp only [hsuffix] at hclean
                exact absurd hclean not_clean_recordError
          · simp only [hlen, if_false] at hclean
            exact absurd hclean not_clean_recordError

end Names

/-! ### Every expression -/

/-- An expression is verified exactly if a test says so. -/
def Sound (env : FieldEnv) (locals : Locals) (e : CTypedExpr) (test : Bool) : Prop :=
  Verified env locals e ↔ test = true

section Soundness

variable {env : FieldEnv} {locals : Locals}

theorem Sound.of_verified {e : CTypedExpr} (h : Verified env locals e) :
    Sound env locals e true :=
  ⟨fun _ => rfl, fun _ => h⟩

theorem sound_set {items : List CTypedExpr} {elem : CType} {test : Bool}
    (h : Concrete env elem → ((∀ e ∈ items, ItemOk env locals elem e) ↔ test = true)) :
    Sound env locals (.set items (.set elem)) (isConcrete env elem && test) := by
  unfold Sound
  rw [verified_set_iff, Bool.and_eq_true, isConcrete, List.isEmpty_iff]
  exact and_congr_right h

theorem sound_range {lo hi : Option CTypedExpr} {elem : CType} {left right : Bool}
    (hlo : BoundOk env locals elem lo ↔ left = true)
    (hhi : BoundOk env locals elem hi ↔ right = true) :
    Sound env locals (.range lo hi (.range elem)) (isConcrete env elem && (left && right)) := by
  unfold Sound
  rw [verified_range_iff, Bool.and_eq_true, Bool.and_eq_true, isConcrete, List.isEmpty_iff, hlo,
    hhi]
  exact Iff.rfl

/-- Where the elements are no bit-vectors, nothing adapts. -/
theorem adaptItems_of_not_bv {elem : CType} (h : ¬ elem.isBv = true) (items : List CTypedExpr) :
    ∀ st : LowerState, adaptItems elem items st = (items, st) := by
  induction items with
  | nil => exact fun _ => rfl
  | cons e es ih =>
      intro st
      have hadapts : adaptsTo (some elem) (shape e) = false := by
        simp [adaptsTo, adapts, h]
      have hitem : adaptLiteral e elem = (e, none) := adaptTo_of_not_adapts hadapts
      rw [adaptItems, hitem, ih]
      rfl

theorem finishSet_eq (items : List CTypedExpr) (st : LowerState) :
    finishSet items st =
      (.set (adaptItems (setElemType items) items st).1 (.set (setElemType items)),
        (adaptItems (setElemType items) items st).2) := by
  unfold finishSet
  dsimp only
  by_cases hbv : (setElemType items).isBv = true
  · rw [if_pos hbv]
  · rw [if_neg hbv, adaptItems_of_not_bv hbv]

theorem concrete_iterableElemType {ty elem : CType} (h : iterableElemType ty = some elem)
    (hc : Concrete env ty) : Concrete env elem := by
  cases ty <;> simp_all [iterableElemType, Concrete, checkTypeConcrete]

theorem membershipHint_concrete {e : CTypedExpr} (h : Verified env locals e) :
    ∀ elem ∈ membershipHint e.ty, Concrete env elem := by
  intro elem helem
  unfold membershipHint at helem
  split at helem
  · obtain rfl := Option.some.inj helem
    exact h.concrete
  · simp at helem

end Soundness

/-- What the lowering of expressions rests on. -/
structure Setting (ctx : LowerCtx)
    (onCall : String → List CallArg → LowerState → CTypedExpr × LowerState)
    (onCallShape : String → List CallArg → Types → Shape)
    (onCallMatched : String → List CallArg → Types → Bool) : Prop where
  fields : FieldsConcrete ctx
  typed : Typed onCall onCallShape
  sound : ∀ name args st locals, LocalsOk ctx.env locals st → Budgeted st.expand →
    Clean (onCall name args st).2 →
      Sound ctx.env locals (onCall name args st).1 (onCallMatched name args (localTypes st))

section Main

variable {ctx : LowerCtx}
  {onCall : String → List CallArg → LowerState → CTypedExpr × LowerState}
  {onCallShape : String → List CallArg → Types → Shape}
  {onCallMatched : String → List CallArg → Types → Bool}

/-- A membership test is verified exactly if both sides are. -/
theorem membership_sound {locals : Locals} {elem set : CTypedExpr} {m ms : Bool}
    (he : Sound ctx.env locals elem m)
    (hs : Verified ctx.env locals elem → Sound ctx.env locals set ms)
    (hok : (membershipType elem.ty set.ty).2 = none) :
    Sound ctx.env locals (.inSet elem set (membershipType elem.ty set.ty).1) (m && ms) := by
  unfold Sound at he
  unfold Sound
  rw [verified_membership hok, Bool.and_eq_true, he]
  exact and_congr_right fun hm => hs (he.mpr hm)

mutual

theorem lowerExpr_sound (hs : Setting ctx onCall onCallShape onCallMatched) :
    ∀ (hint : Option CType) (e : Expr) (st : LowerState) (locals : Locals),
    LocalsOk ctx.env locals st → Budgeted st.expand → (∀ elem ∈ hint, Concrete ctx.env elem) →
    Clean (lowerExpr ctx onCall hint e st).2 →
      Sound ctx.env locals (lowerExpr ctx onCall hint e st).1
        (matched ctx onCallShape onCallMatched hint e (localTypes st))
  | _, .paren inner, st, locals, hl, hb, _, hclean => by
      rw [lowerExpr] at hclean ⊢
      rw [matched]
      exact lowerExpr_sound hs none inner st locals hl hb (by simp) hclean
  | _, .int text, st, locals, _, _, _, hclean => by
      rw [lowerExpr] at hclean ⊢
      cases hparse : parseIntLiteral text with
      | some value => exact Sound.of_verified (verified_bvLit.mpr (defaultUnsignedWidth_ok value))
      | none =>
          simp only [hparse] at hclean
          exact absurd hclean not_clean_recordError
  | _, .bool value, st, locals, _, _, _, _ => by
      rw [lowerExpr]
      exact Sound.of_verified verified_boolLit
  | _, .ident name, st, locals, hl, _, _, hclean => by
      rw [lowerExpr] at hclean ⊢
      rw [matched]
      exact verified_lowerIdent hs.fields hl name hclean
  | _, .field target name, st, locals, _, _, _, hclean => by
      rw [lowerExpr] at hclean ⊢
      exact Sound.of_verified (verified_lowerFieldAccess hs.fields target name hclean)
  | _, .unary op expr, st, locals, hl, hb, _, hclean => by
      rw [lowerExpr] at hclean ⊢
      rw [matched]
      dsimp only at hclean ⊢
      obtain ⟨hinner, hok⟩ := clean_report.mp hclean
      have h := lowerExpr_sound hs none expr st locals hl hb (by simp) hinner
      exact (verified_finishUnary hok).trans h
  | _, .binary op lhs rhs, st, locals, hl, hb, _, hclean => by
      rw [lowerExpr] at hclean ⊢
      rw [matched]
      have hext := lowerExpr_steps extends_steps ctx hs.typed.extends_ none lhs st
      split at hclean
      · rename_i hin
        rw [if_pos hin, if_pos hin]
        dsimp only at hclean ⊢
        obtain ⟨hset, hok⟩ := clean_report.mp hclean
        have helem := (lowerExpr_steps extends_steps ctx hs.typed.extends_ _ rhs _).clean hset
        rw [← shape_lowerExpr hs.typed none lhs st hb helem]
        refine membership_sound (lowerExpr_sound hs none lhs st locals hl hb (by simp) helem) ?_ hok
        intro hv
        rw [← localTypes_eq hext]
        exact lowerExpr_sound hs _ rhs _ locals (hl.extends hext) (hext.budget hb)
          (membershipHint_concrete hv) hset
      · rename_i hin
        rw [if_neg hin, if_neg hin]
        cases hop : mapBinaryOp op with
        | none =>
            simp only [hop] at hclean
            exact absurd hclean not_clean_recordError
        | some cop =>
            simp only [hop] at hclean
            dsimp only [finishBinary] at hclean ⊢
            obtain ⟨hboth, hty⟩ := clean_report.mp hclean
            obtain ⟨hright, hadapt⟩ := clean_report.mp hboth
            have hleft :=
              (lowerExpr_steps extends_steps ctx hs.typed.extends_ none rhs _).clean hright
            have h1 := lowerExpr_sound hs none lhs st locals hl hb (by simp) hleft
            have h2 := lowerExpr_sound hs none rhs _ locals (hl.extends hext) (hext.budget hb)
              (by simp) hright
            have hshape := shape_lowerExpr hs.typed none rhs _ (hext.budget hb) hright
            rw [localTypes_eq hext] at h2 hshape
            rw [← shape_lowerExpr hs.typed none lhs st hb hleft, ← hshape]
            exact (verified_typeCheckBinary hty).trans (verified_binaryOperands hadapt h1 h2)
  | _, .membership lhs rhs, st, locals, hl, hb, _, hclean => by
      rw [lowerExpr] at hclean ⊢
      rw [matched]
      dsimp only at hclean ⊢
      have hext := lowerExpr_steps extends_steps ctx hs.typed.extends_ none lhs st
      obtain ⟨hset, hok⟩ := clean_report.mp hclean
      have helem := (lowerExpr_steps extends_steps ctx hs.typed.extends_ _ rhs _).clean hset
      rw [← shape_lowerExpr hs.typed none lhs st hb helem]
      refine membership_sound (lowerExpr_sound hs none lhs st locals hl hb (by simp) helem) ?_ hok
      intro hv
      rw [← localTypes_eq hext]
      exact lowerExpr_sound hs _ rhs _ locals (hl.extends hext) (hext.budget hb)
        (membershipHint_concrete hv) hset
  | hint, .rangeLit lo hi, st, locals, hl, hb, hc, hclean => by
      rw [matched]
      simp only [lowerExpr] at hclean ⊢
      have hext := lowerBound_steps extends_steps ctx hs.typed.extends_ hint lo st
      have hlo := (lowerBound_steps extends_steps ctx hs.typed.extends_ hint hi _).clean hclean
      have helem : hint.getD (rangeElemType (lowerBound ctx onCall hint lo st).1
          (lowerBound ctx onCall hint hi (lowerBound ctx onCall hint lo st).2).1) =
            hint.getD (rangeElem (typeBound ctx onCallShape lo (localTypes st))
              (typeBound ctx onCallShape hi (localTypes st))) := by
        cases hint with
        | some elem => rfl
        | none =>
            have h1 := shape_lowerBound hs.typed lo st hb hlo
            have h2 := shape_lowerBound hs.typed hi _ (hext.budget hb) hclean
            rw [localTypes_eq hext] at h2
            rw [← h1, ← h2, ← rangeElemType_eq]
      rw [helem]
      have hhint : ∀ elem ∈ hint, elem = hint.getD (rangeElem
          (typeBound ctx onCallShape lo (localTypes st))
          (typeBound ctx onCallShape hi (localTypes st))) := by
        rintro elem rfl
        rfl
      have h1 := lowerBound_sound hs hint lo st locals hl hb hc _ hhint hlo
      have h2 := lowerBound_sound hs hint hi _ locals (hl.extends hext) (hext.budget hb) hc _ hhint
        hclean
      rw [localTypes_eq hext] at h2
      exact sound_range h1 h2
  | hint, .setLit items, st, locals, hl, hb, hc, hclean => by
      rw [matched]
      simp only [lowerExpr] at hclean ⊢
      cases hint with
      | some elem =>
          dsimp only [finishSetLit] at hclean ⊢
          exact sound_set fun hconcrete =>
            lowerItems_sound hs items st locals hl hb elem hconcrete hclean
      | none =>
          dsimp only [finishSetLit] at hclean ⊢
          rw [finishSet_eq] at hclean ⊢
          have hitems := (adaptItems_steps extends_steps _ _ _).clean hclean
          rw [Option.getD_none, ← shape_lowerItems hs.typed items st hb hitems, ← setElemType_eq]
          exact sound_set fun hconcrete =>
            adaptItems_sound hs items st locals hl hb _ hconcrete hitems _ hclean
  | _, .call callee args, st, locals, hl, hb, _, hclean => by
      cases callee with
      | field target name =>
          rw [lowerExpr] at hclean ⊢
          rw [matched]
          dsimp only at hclean ⊢
          obtain ⟨hargs, hok⟩ := clean_report.mp hclean
          have htarget := (lowerArgs_steps extends_steps ctx hs.typed.extends_ args _).clean hargs
          have h := lowerExpr_sound hs none target st locals hl hb (by simp) htarget
          exact (verified_finishMethod hok).trans h
      | ident name =>
          rw [lowerExpr] at hclean ⊢
          rw [matched]
          exact hs.sound name args st locals hl hb hclean
      | _ =>
          simp only [lowerExpr] at hclean
          exact absurd hclean not_clean_recordError
  | _, .forEachConstraint var iter body, st, locals, hl, hb, _, hclean => by
      rw [lowerExpr] at hclean ⊢
      rw [matched]
      dsimp only at hclean ⊢
      have hext := lowerExpr_steps extends_steps ctx hs.typed.extends_ none iter st
      cases helem : iterableElemType (lowerExpr ctx onCall none iter st).1.ty with
      | none =>
          simp only [helem] at hclean
          exact absurd ⟨hclean.errors, hclean.exhausted⟩ not_clean_recordError
      | some elem =>
          simp only [helem] at hclean
          dsimp only
          have hbody : Clean (lowerClauses ctx onCall body
              ((lowerExpr ctx onCall none iter st).2.enterLoop var elem)).2 :=
            ⟨hclean.errors, hclean.exhausted⟩
          have hloop := (lowerClauses_steps extends_steps ctx hs.typed.extends_ body _).clean hbody
          have hafter : Clean (lowerExpr ctx onCall none iter st).2 :=
            ⟨hloop.errors, hloop.exhausted⟩
          have hiter := lowerExpr_sound hs none iter st locals hl hb (by simp) hafter
          rw [← shape_lowerExpr hs.typed none iter st hb hafter, shape_ty, helem]
          unfold Sound at hiter ⊢
          rw [verified_forAll_iff helem, Bool.and_eq_true, hiter]
          refine and_congr_right fun hm => ?_
          have hc := concrete_iterableElemType helem (hiter.mpr hm).concrete
          obtain ⟨hsound, htruth⟩ := lowerClauses_sound hs body _ _
            ((hl.extends hext).enterLoop var hc) (hext.budget hb) hbody
          rw [verified_andJoinTyped _ htruth, hsound, localTypes_enterLoop, localTypes_eq hext]
  | _, .string _, st, _, _, _, _, hclean | _, .number _, st, _, _, _, _, hclean
  | _, .implicitSelf, st, _, _, _, _, hclean | _, .index _ _, st, _, _, _, _, hclean
  | _, .bitSlice _ _ _, st, _, _, _, _, hclean | _, .cast _ _, st, _, _, _, _, hclean
  | _, .ternary _ _ _, st, _, _, _, _, hclean | _, .other _, st, _, _, _, _, hclean => by
      simp only [lowerExpr] at hclean
      exact absurd hclean not_clean_recordError

/-- The items of a hinted set. -/
theorem lowerItems_sound (hs : Setting ctx onCall onCallShape onCallMatched) :
    ∀ (es : List Expr) (st : LowerState) (locals : Locals),
    LocalsOk ctx.env locals st → Budgeted st.expand → ∀ elem : CType, Concrete ctx.env elem →
    Clean (lowerItems ctx onCall (some elem) es st).2 →
      ((∀ e ∈ (lowerItems ctx onCall (some elem) es st).1, ItemOk ctx.env locals elem e) ↔
        itemsMatched ctx onCallShape onCallMatched elem es (localTypes st) = true)
  | [], _, _, _, _, _, _, _ => by simp [lowerItems, itemsMatched]
  | e :: es, st, locals, hl, hb, elem, hc, hclean => by
      rw [lowerItems] at hclean ⊢
      rw [itemsMatched]
      dsimp only at hclean ⊢
      have hrest := (lowerItems_steps extends_steps ctx hs.typed.extends_ _ es _).clean hclean
      obtain ⟨hitem, hok⟩ := clean_report.mp hrest
      have h := lowerExpr_sound hs none e st locals hl hb (by simp) hitem
      have hext := (lowerExpr_steps extends_steps ctx hs.typed.extends_ none e st).report
        (adaptTo (some elem) (lowerExpr ctx onCall none e st).1).2
      have hhead := itemOk_adaptLiteral hc hok h
      rw [shape_lowerExpr hs.typed none e st hb hitem] at hhead
      rw [List.forall_mem_cons, Bool.and_eq_true, ← hhead,
        lowerItems_sound hs es _ locals (hl.extends hext) (hext.budget hb) elem hc hclean,
        localTypes_eq hext]
      exact Iff.rfl

/-- The items of an unhinted set, which adapt to its first type. -/
theorem adaptItems_sound (hs : Setting ctx onCall onCallShape onCallMatched) :
    ∀ (es : List Expr) (st : LowerState) (locals : Locals),
    LocalsOk ctx.env locals st → Budgeted st.expand → ∀ elem : CType, Concrete ctx.env elem →
    Clean (lowerItems ctx onCall none es st).2 → ∀ st' : LowerState,
    Clean (adaptItems elem (lowerItems ctx onCall none es st).1 st').2 →
      ((∀ e ∈ (adaptItems elem (lowerItems ctx onCall none es st).1 st').1,
          ItemOk ctx.env locals elem e) ↔
        itemsMatched ctx onCallShape onCallMatched elem es (localTypes st) = true)
  | [], _, _, _, _, _, _, _, _, _ => by simp [lowerItems, adaptItems, itemsMatched]
  | e :: es, st, locals, hl, hb, elem, hc, hclean, st', hadapt => by
      rw [lowerItems] at hclean hadapt ⊢
      rw [itemsMatched]
      dsimp only [adaptTo] at hclean hadapt ⊢
      rw [adaptItems] at hadapt ⊢
      dsimp only at hadapt ⊢
      have hitem := (lowerItems_steps extends_steps ctx hs.typed.extends_ none es _).clean hclean
      have hext := lowerExpr_steps extends_steps ctx hs.typed.extends_ none e st
      have hok := (clean_report.mp ((adaptItems_steps extends_steps elem _ _).clean hadapt)).2
      have h := lowerExpr_sound hs none e st locals hl hb (by simp) hitem
      have hhead := itemOk_adaptLiteral hc hok h
      rw [shape_lowerExpr hs.typed none e st hb hitem] at hhead
      have hrest := adaptItems_sound hs es _ locals (hl.extends hext) (hext.budget hb) elem hc
        hclean _ hadapt
      rw [localTypes_eq hext] at hrest
      rw [List.forall_mem_cons, Bool.and_eq_true]
      exact and_congr hhead hrest

theorem lowerBound_sound (hs : Setting ctx onCall onCallShape onCallMatched) :
    ∀ (hint : Option CType) (b : Option Expr) (st : LowerState) (locals : Locals),
    LocalsOk ctx.env locals st → Budgeted st.expand → (∀ ty ∈ hint, Concrete ctx.env ty) →
    ∀ elem : CType, (∀ ty ∈ hint, ty = elem) → Clean (lowerBound ctx onCall hint b st).2 →
      (BoundOk ctx.env locals elem (lowerBound ctx onCall hint b st).1 ↔
        boundMatched ctx onCallShape onCallMatched hint elem b (localTypes st) = true)
  | _, none, _, _, _, _, _, _, _, _ => by simp [lowerBound, boundMatched, BoundOk]
  | hint, some e, st, locals, hl, hb, hc, elem, helem, hclean => by
      rw [lowerBound] at hclean ⊢
      rw [boundMatched]
      dsimp only at hclean ⊢
      obtain ⟨hitem, hok⟩ := clean_report.mp hclean
      have h := lowerExpr_sound hs none e st locals hl hb (by simp) hitem
      have hone := itemOk_adaptTo helem hc hok h
      rw [shape_lowerExpr hs.typed none e st hb hitem] at hone
      rw [← hone]
      simp only [BoundOk, ItemOk, Option.mem_def, Option.some.injEq, forall_eq']

theorem lowerClauses_sound (hs : Setting ctx onCall onCallShape onCallMatched) :
    ∀ (es : List Expr) (st : LowerState) (locals : Locals),
    LocalsOk ctx.env locals st → Budgeted st.expand →
    Clean (lowerClauses ctx onCall es st).2 →
      ((∀ e ∈ (lowerClauses ctx onCall es st).1, Verified ctx.env locals e) ↔
        clausesMatched ctx onCallShape onCallMatched es (localTypes st) = true) ∧
      ∀ e ∈ (lowerClauses ctx onCall es st).1, Truth e
  | [], _, _, _, _, _ => ⟨by simp [lowerClauses, clausesMatched], by simp [lowerClauses]⟩
  | e :: es, st, locals, hl, hb, hclean => by
      rw [lowerClauses] at hclean ⊢
      rw [clausesMatched]
      dsimp only at hclean ⊢
      have hrest := (lowerClauses_steps extends_steps ctx hs.typed.extends_ es _).clean hclean
      obtain ⟨hclause, hok⟩ := clean_report.mp hrest
      have h := lowerExpr_sound hs none e st locals hl hb (by simp) hclause
      have hext := (lowerExpr_steps extends_steps ctx hs.typed.extends_ none e st).report
        (finishClause (lowerExpr ctx onCall none e st).1).2
      obtain ⟨hverified, htruth⟩ := lowerClauses_sound hs es _ locals (hl.extends hext)
        (hext.budget hb) hclean
      rw [localTypes_eq hext] at hverified
      constructor
      · unfold Sound at h
        rw [List.forall_mem_cons, verified_finishClause hok, h, hverified, Bool.and_eq_true]
      · rw [List.forall_mem_cons]
        exact ⟨finishClause_truth hok, htruth⟩

end

end Main

theorem lowerCall_setting {ctx : LowerCtx} (hf : FieldsConcrete ctx) (fuel : Nat) :
    Setting ctx (lowerCall ctx fuel) (typeCall ctx fuel) (callMatched ctx fuel) := by
  induction fuel with
  | zero =>
      refine ⟨hf, lowerCall_typed ctx 0, ?_⟩
      intro name args st locals hl hb hclean
      exact absurd hclean.exhausted (by simp [lowerCall])
  | succ fuel ih =>
      refine ⟨hf, lowerCall_typed ctx (fuel + 1), ?_⟩
      intro name args st locals hl hb hclean
      rw [lowerCall] at hclean ⊢
      rw [callMatched]
      have hexpand := expandCall_extends ctx.schemas.relations name args st
      have hafter := (lowerExpr_steps extends_steps ctx ih.typed.extends_ none _ _).clean hclean
      rw [← expandedCall_eq hb hafter.errors]
      exact lowerExpr_sound ih none _ _ locals (hl.extends hexpand) (hexpand.budget hb) (by simp)
        hclean

end Harc.LoweringVerified
