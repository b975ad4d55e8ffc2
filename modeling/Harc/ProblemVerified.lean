import Harc.LoweringVerified

/-!
The verifier accepts a lowered problem exactly if its fields have proper types, the items
of its literals match, and its solve order names no field twice.
-/

namespace Harc.ProblemVerified

open Harc.Ast
open Harc.SmtScript (natText)
open Harc.TypedConstraint
open Harc.RelationExpansion
open Harc.ExpansionResult
open Harc.ConstraintSchema
open Harc.TypedLowering
open Harc.LoweringState
open Harc.ConstraintTyping
open Harc.LoweringVerified

/-! ### Range attributes -/

def isSigned : CType → Bool
  | .bv _ .signed => true
  | _ => false

/-- An endpoint that takes the type of its field: a literal, or a negated one if the field
is signed. -/
def takesField (e : Shape) (ty : CType) : Bool :=
  adapts e ty || (e.isNegLit && isSigned ty)

theorem exists_of_isNegLit {e : CTypedExpr} (h : isNegLit e = true) :
    ∃ value ty ty', e = .unary .neg (.bvLit value ty) ty' := by
  cases e with
  | unary op inner ty' =>
      cases op with
      | neg =>
          cases inner with
          | bvLit value ty => exact ⟨value, ty, ty', rfl⟩
          | _ => simp [isNegLit, isBvLit] at h
      | _ => simp [isNegLit] at h
  | _ => simp [isNegLit] at h

theorem eq_signed {w : Nat} {s : Sign} (h : isSigned (.bv w s) = true) : s = .signed := by
  cases s with
  | signed => rfl
  | unsigned => simp [isSigned] at h

theorem itemOk_coerceExprToBvHint {env : FieldEnv} {locals : Locals} {e : CTypedExpr}
    {w : Nat} {s : Sign} {test : Bool} (h : Sound env locals e test)
    (hok : (coerceExprToBvHint e (.bv w s)).2 = none) (hc : Concrete env (.bv w s)) :
    ItemOk env locals (.bv w s) (coerceExprToBvHint e (.bv w s)).1 ↔
      (takesField (shape e) (.bv w s) || (test && decide ((shape e).ty = .bv w s))) = true := by
  unfold coerceExprToBvHint at hok ⊢
  unfold takesField
  by_cases hlit : isBvLit e = true ∧ e.ty.asBv ≠ (CType.bv w s).asBv
  · rw [if_pos hlit] at hok ⊢
    rw [adapts_bv.mpr hlit, Bool.true_or, Bool.true_or]
    exact ⟨fun _ => rfl, fun _ => verified_coerceLiteral hlit.1 hok hc⟩
  · have hadapts : adapts (shape e) (.bv w s) = false := by
      rw [Bool.eq_false_iff]
      exact fun hadapts => hlit (adapts_bv.mp hadapts)
    rw [if_neg hlit] at hok ⊢
    rw [hadapts, Bool.false_or]
    split at hok
    · rename_i hty
      cases hty
      dsimp only at hok ⊢
      obtain ⟨hinner, hinnerTy⟩ : Verified env locals _ ∧ _ := verified_coerceLiteral rfl hok hc
      refine ⟨fun _ => rfl, fun _ => ⟨?_, rfl⟩⟩
      rw [verified_unary_iff, hinnerTy]
      exact ⟨hc, hinner, by simp [verifyUnary, CType.isBv, expectType]⟩
    · rename_i e _ _ hother
      have hneg : (isNegLit e && isSigned (.bv w s)) = false := by
        rw [Bool.and_eq_false_imp]
        intro hneg
        rw [Bool.eq_false_iff]
        intro hsigned
        obtain ⟨value, ty, ty', rfl⟩ := exists_of_isNegLit hneg
        obtain rfl := eq_signed hsigned
        exact hother value ty ty' w rfl rfl
      change _ ↔ (isNegLit e && isSigned (.bv w s) || _) = true
      rw [hneg, Bool.false_or, Bool.and_eq_true, decide_eq_true_eq]
      exact and_congr h Iff.rfl

/-! ### Clauses of a problem -/

section Clauses

variable (ctx : LowerCtx) (fuel : Nat)

/-- Outside of loops there are no variables. -/
def noTypes : Types := fun _ => none

def topMatched (e : Expr) : Bool :=
  matched ctx (typeCall ctx fuel) (callMatched ctx fuel) none e noTypes

/-- The clauses of a constraint match, and so does the guard of each. -/
def constraintMatched (guard : Bool) (e : Expr) : Bool :=
  (expandedClauses ctx.schemas.relations e).all fun clause => guard && topMatched ctx fuel clause

def keepsMatched (guard : Bool) (keeps : List Expr) : Bool :=
  keeps.all (constraintMatched ctx fuel guard)

def bodyItemMatched : BodyItem → Bool
  | .solveOrder _ => true
  | .soft _ e | .clause e => constraintMatched ctx fuel true e

/-- An endpoint of a range attribute takes the type of the field, or matches and has it. -/
def endpointMatched (ty : CType) (e : Expr) : Bool :=
  let s := typeExpr ctx (typeCall ctx fuel) none e noTypes
  takesField s ty || (topMatched ctx fuel e && decide (s.ty = ty))

def attrMatched (guard : Bool) (ty : CType) (attr : FieldAttr) : Bool :=
  if attr.name ≠ "range" then true
  else
    match attr.args with
    | .expr lo :: .expr hi :: _ =>
        guard && (endpointMatched ctx fuel ty lo && endpointMatched ctx fuel ty hi)
    | _ => true

def fieldAttrsMatched (guard : Bool) (field : TxnField) : Bool :=
  match ctx.env.lookup field.path with
  | none => true
  | some info => !info.ty.isBv || field.attrs.all (attrMatched ctx fuel guard info.ty)

mutual

/-- The guard of a subtype holds that of its parent and the discriminant. -/
def whenMatched : Bool → WhenSubtype → Bool
  | parent, .mk discriminant fields keeps whenSubtypes =>
      let guard := parent && topMatched ctx fuel discriminant
      keepsMatched ctx fuel guard keeps && fields.all (fieldAttrsMatched ctx fuel guard) &&
        whensMatched guard whenSubtypes

def whensMatched : Bool → List WhenSubtype → Bool
  | _, [] => true
  | parent, w :: ws => whenMatched parent w && whensMatched parent ws

end

end Clauses

/-! ### Every clause -/

/-- No loop variables are in scope, and the budget is at most the first one. -/
structure AtTop (st : LowerState) : Prop where
  locals : ∀ n, st.locals.get n = none
  budget : Budgeted st.expand

theorem AtTop.init : AtTop .init := ⟨fun _ => rfl, Nat.le_refl _⟩

theorem AtTop.extends {st st' : LowerState} (h : AtTop st) (he : Extends st st') : AtTop st' :=
  ⟨fun n => (he.locals n).trans (h.locals n), he.budget h.budget⟩

theorem AtTop.localsOk {env : FieldEnv} {st : LowerState} (h : AtTop st) :
    LocalsOk env (fun _ => none) st := by
  intro name id ty hget
  rw [h.locals name] at hget
  simp at hget

theorem AtTop.types {st : LowerState} (h : AtTop st) : localTypes st = noTypes := by
  funext n
  rw [localTypes, h.locals]
  rfl

/-- A clause that the verifier accepts. -/
def ClauseOk (env : FieldEnv) (c : CTypedClause) : Prop :=
  verifyClause env c.assertionName c.expr = []

/-- A guard that is verified exactly if a test says so. -/
structure GuardSound (env : FieldEnv) (guard : Option CTypedExpr) (test : Bool) : Prop where
  truth : ∀ g ∈ guard, Truth g
  verified : (∀ g ∈ guard, Verified env (fun _ => none) g) ↔ test = true

theorem GuardSound.none {env : FieldEnv} : GuardSound env none true := ⟨by simp, by simp⟩

section ClauseLemmas

variable {env : FieldEnv}

theorem clauseOk_iff {c : CTypedClause} (hname : c.assertionName ≠ "") :
    ClauseOk env c ↔ Verified env (fun _ => Option.none) c.expr ∧ c.expr.ty = .bool := by
  unfold ClauseOk verifyClause
  rw [if_neg hname, List.nil_append, List.append_eq_nil_iff]
  refine and_congr_right fun _ => ?_
  by_cases h : c.expr.ty = .bool <;> simp [h]

theorem verified_applyGuard {e g : CTypedExpr} (he : Truth e) (hg : Truth g) :
    Verified env (fun _ => Option.none) (applyGuard e (some g)) ∧
        (applyGuard e (some g)).ty = .bool ↔
      Verified env (fun _ => Option.none) g ∧ Verified env (fun _ => Option.none) e := by
  simp only [applyGuard, CTypedExpr.ty_unary, CTypedExpr.ty_binary]
  rw [verified_binary_iff, verified_unary_iff]
  constructor
  · exact fun h => ⟨h.1.2.1.2.1, h.1.2.2.1⟩
  · rintro ⟨hvg, hve⟩
    have htg := hvg.bool hg
    have hte := hve.bool he
    simp only [htg, hte, if_true, and_self]
    have hnot : verifyUnary .logicalNot .bool .bool = [] := by decide
    have hor : verifyBinary .logicalOr .bool .bool .bool = [] := by decide
    exact ⟨⟨concrete_bool, ⟨concrete_bool, hvg, hnot⟩, hve, hor⟩, trivial⟩

/-- A guarded clause is accepted exactly if the guard and the clause are verified. -/
theorem clauseOk_applyGuard {e : CTypedExpr} {guard : Option CTypedExpr} {test : Bool}
    {name : String} (hname : name ≠ "") (he : Truth e) (hg : GuardSound env guard test) :
    ClauseOk env ⟨applyGuard e guard, name⟩ ↔
      test = true ∧ Verified env (fun _ => Option.none) e := by
  rw [clauseOk_iff hname, ← hg.verified]
  cases guard with
  | none =>
      simp only [applyGuard, Option.not_mem_none, false_imp_iff, implies_true, true_and]
      exact ⟨fun h => h.1, fun h => ⟨h, h.bool he⟩⟩
  | some g =>
      rw [verified_applyGuard he (hg.truth g rfl)]
      simp

theorem mintClauseName_ne (st : LowerState) : (mintClauseName st).1 ≠ "" := by
  intro h
  have hlen := congrArg String.length h
  simp [mintClauseName] at hlen

end ClauseLemmas

section Problem

variable {ctx : LowerCtx} (hf : FieldsConcrete ctx) (fuel : Nat)

include hf

theorem lowerTopClause_sound {e : Expr} {st : LowerState} (hn : AtTop st)
    (hclean : Clean (lowerTopClause ctx fuel e st).2) :
    Truth (lowerTopClause ctx fuel e st).1 ∧
      (Verified ctx.env (fun _ => none) (lowerTopClause ctx fuel e st).1 ↔
        topMatched ctx fuel e = true) := by
  obtain ⟨hexpr, hok⟩ := clean_report.mp hclean
  have h := lowerExpr_sound (lowerCall_setting hf fuel) none e st _ hn.localsOk hn.budget (by simp)
    hexpr
  rw [hn.types] at h
  exact ⟨finishClause_truth hok, (verified_finishClause hok).trans h⟩

theorem lowerExpanded_sound {guard : Option CTypedExpr} {test : Bool}
    (hg : GuardSound ctx.env guard test) (es : List Expr) :
    ∀ st : LowerState, AtTop st → Clean (lowerExpanded ctx fuel guard es st).2 →
      ((∀ c ∈ (lowerExpanded ctx fuel guard es st).1, ClauseOk ctx.env c) ↔
        (es.all fun clause => test && topMatched ctx fuel clause) = true) := by
  induction es with
  | nil => intro st _ _; simp [lowerExpanded]
  | cons e es ih =>
      intro st hn hclean
      have hproceed :=
        ((lowerExpanded_steps extends_calls guard (e :: es) st).clean hclean).proceeds
      have hstop : ¬ st.shouldStop = true := by simp [hproceed]
      rw [lowerExpanded, if_neg hstop] at hclean ⊢
      dsimp only at hclean ⊢
      have hmint := (lowerExpanded_steps extends_calls guard es _).clean hclean
      have htop := (mintClauseName_extends _).clean hmint
      obtain ⟨htruth, hverified⟩ := lowerTopClause_sound hf fuel hn htop
      have hrest := ih _ ((hn.extends (lowerTopClause_steps extends_calls e st)).extends
        (mintClauseName_extends _)) hclean
      rw [List.forall_mem_cons, clauseOk_applyGuard (mintClauseName_ne _) htruth hg, hverified,
        hrest, List.all_cons, Bool.and_eq_true, Bool.and_eq_true]

theorem lowerConstraint_sound {guard : Option CTypedExpr} {test : Bool}
    (hg : GuardSound ctx.env guard test) (e : Expr) (st : LowerState) (hn : AtTop st)
    (hclean : Clean (lowerConstraint ctx fuel guard e st).2) :
    (∀ c ∈ (lowerConstraint ctx fuel guard e st).1, ClauseOk ctx.env c) ↔
      constraintMatched ctx fuel test e = true := by
  have hexpand := expandClause_extends ctx.schemas.relations e st
  have hafter := (lowerExpanded_steps extends_calls guard _ _).clean hclean
  unfold constraintMatched
  rw [← expandedClauses_eq hn.budget hafter.errors]
  exact lowerExpanded_sound hf fuel hg _ _ (hn.extends hexpand) hclean

theorem lowerKeeps_sound {guard : Option CTypedExpr} {test : Bool}
    (hg : GuardSound ctx.env guard test) (es : List Expr) :
    ∀ st : LowerState, AtTop st → Clean (lowerKeeps ctx fuel guard es st).2 →
      ((∀ c ∈ (lowerKeeps ctx fuel guard es st).1, ClauseOk ctx.env c) ↔
        keepsMatched ctx fuel test es = true) := by
  induction es with
  | nil => intro st _ _; simp [lowerKeeps, keepsMatched]
  | cons e es ih =>
      intro st hn hclean
      have hproceed := ((lowerKeeps_steps extends_calls guard (e :: es) st).clean hclean).proceeds
      have hstop : ¬ st.shouldStop = true := by simp [hproceed]
      rw [lowerKeeps, if_neg hstop] at hclean ⊢
      dsimp only at hclean ⊢
      have hhead := lowerConstraint_sound hf fuel hg e st hn
        ((lowerKeeps_steps extends_calls guard es _).clean hclean)
      have hrest := ih _ (hn.extends (lowerConstraint_steps extends_calls guard e st)) hclean
      rw [List.forall_mem_append, hhead, hrest, keepsMatched, keepsMatched, List.all_cons,
        Bool.and_eq_true]

/-! #### Range attributes -/

theorem endpoint_sound {e : Expr} {st : LowerState} {w : Nat} {s : Sign} (hn : AtTop st)
    (hc : Concrete ctx.env (.bv w s))
    (hclean : Clean (lowerExpr ctx (lowerCall ctx fuel) none e st).2)
    (hok : (coerceExprToBvHint (lowerExpr ctx (lowerCall ctx fuel) none e st).1
      (.bv w s)).2 = none) :
    BoundOk ctx.env (fun _ => none) (.bv w s)
        (some (coerceExprToBvHint (lowerExpr ctx (lowerCall ctx fuel) none e st).1
          (.bv w s)).1) ↔
      endpointMatched ctx fuel (.bv w s) e = true := by
  have h := lowerExpr_sound (lowerCall_setting hf fuel) none e st _ hn.localsOk hn.budget (by simp)
    hclean
  have hshape := shape_lowerExpr (lowerCall_typed ctx fuel) none e st hn.budget hclean
  rw [hn.types] at h hshape
  unfold BoundOk endpointMatched
  rw [← hshape]
  simp only [Option.mem_def, Option.some.injEq, forall_eq']
  exact itemOk_coerceExprToBvHint h hok hc

theorem lowerRangeAttr_sound {field : TxnField} {info : FieldInfo} {guard : Option CTypedExpr}
    {test : Bool} (hg : GuardSound ctx.env guard test) {lo hi : Expr} {st : LowerState}
    (hfield : ctx.env.lookup field.path = some info) (hbv : info.ty.isBv = true)
    (hn : AtTop st)
    (hclean : Clean (lowerRangeAttr ctx fuel field info.ty guard lo hi st).2) :
    ClauseOk ctx.env (lowerRangeAttr ctx fuel field info.ty guard lo hi st).1 ↔
      (test && (endpointMatched ctx fuel info.ty lo && endpointMatched ctx fuel info.ty hi)) =
        true := by
  have href : Verified ctx.env (fun _ => none) (.fieldRef field.path info.ty) :=
    verified_fieldRef hf hfield
  cases hty : info.ty with
  | bv w s =>
      rw [hty] at hclean href
      have hcall := lowerCall_extends ctx fuel
      have hboth := (mintClauseName_extends _).clean hclean
      obtain ⟨hone, hhi⟩ := clean_report.mp hboth
      obtain ⟨hexprs, hlo⟩ := clean_report.mp hone
      have hfirst := (lowerExpr_steps extends_steps ctx hcall none hi _).clean hexprs
      have h1 := endpoint_sound hf fuel hn href.concrete hfirst hlo
      have h2 := endpoint_sound hf fuel
        (hn.extends (lowerExpr_steps extends_steps ctx hcall none lo st))
        href.concrete hexprs hhi
      unfold lowerRangeAttr
      dsimp only
      rw [clauseOk_applyGuard (mintClauseName_ne _) (Or.inl rfl) hg, verified_inRange_iff,
        CTypedExpr.ty_fieldRef, h1, h2, Bool.and_eq_true, Bool.and_eq_true]
      exact and_congr_right fun _ => ⟨fun h => h.2, fun h => ⟨href, h⟩⟩
  | _ => simp [hty, CType.isBv] at hbv

theorem lowerAttrs_sound {field : TxnField} {info : FieldInfo} {guard : Option CTypedExpr}
    {test : Bool} (hg : GuardSound ctx.env guard test)
    (hfield : ctx.env.lookup field.path = some info) (hbv : info.ty.isBv = true)
    (attrs : List FieldAttr) :
    ∀ st : LowerState, AtTop st → Clean (lowerAttrs ctx fuel field info.ty guard attrs st).2 →
      ((∀ c ∈ (lowerAttrs ctx fuel field info.ty guard attrs st).1, ClauseOk ctx.env c) ↔
        attrs.all (attrMatched ctx fuel test info.ty) = true) := by
  induction attrs with
  | nil => intro st _ _; simp [lowerAttrs]
  | cons attr attrs ih =>
      intro st hn hclean
      rw [lowerAttrs] at hclean ⊢
      rw [List.all_cons, attrMatched]
      by_cases hname : attr.name ≠ "range"
      · rw [if_pos hname] at hclean ⊢
        rw [if_pos hname, Bool.true_and]
        exact ih st hn hclean
      · rw [if_neg hname] at hclean ⊢
        rw [if_neg hname]
        split at hclean
        · rename_i lo hi rest hargs
          dsimp only at hclean ⊢
          have hhead := lowerRangeAttr_sound hf fuel hg hfield hbv hn
            ((lowerAttrs_steps extends_calls field info.ty guard attrs _).clean hclean)
          have hrest := ih _
            (hn.extends (lowerRangeAttr_steps extends_calls field info.ty guard lo hi st)) hclean
          rw [List.forall_mem_cons, hhead, hrest]
          simp only [hargs, Bool.and_eq_true]
        · exact absurd ((lowerAttrs_steps extends_calls field info.ty guard attrs _).clean hclean)
            not_clean_recordError

theorem lowerFieldAttrConstraints_sound {field : TxnField} {guard : Option CTypedExpr}
    {test : Bool} (hg : GuardSound ctx.env guard test) {st : LowerState} (hn : AtTop st)
    (hclean : Clean (lowerFieldAttrConstraints ctx fuel field guard st).2) :
    (∀ c ∈ (lowerFieldAttrConstraints ctx fuel field guard st).1, ClauseOk ctx.env c) ↔
      fieldAttrsMatched ctx fuel test field = true := by
  unfold lowerFieldAttrConstraints at hclean ⊢
  unfold fieldAttrsMatched
  cases hfield : ctx.env.lookup field.path with
  | none => simp
  | some info =>
      simp only [hfield] at hclean
      by_cases hbv : info.ty.isBv = true
      · rw [if_pos hbv] at hclean
        simp only [hbv, if_true, Bool.not_true, Bool.false_or]
        exact lowerAttrs_sound hf fuel hg hfield hbv _ st hn hclean
      · simp [hbv]

theorem lowerAllFieldAttrs_sound {guard : Option CTypedExpr} {test : Bool}
    (hg : GuardSound ctx.env guard test) (fields : List TxnField) :
    ∀ st : LowerState, AtTop st → Clean (lowerAllFieldAttrs ctx fuel guard fields st).2 →
      ((∀ c ∈ (lowerAllFieldAttrs ctx fuel guard fields st).1, ClauseOk ctx.env c) ↔
        fields.all (fieldAttrsMatched ctx fuel test) = true) := by
  induction fields with
  | nil => intro st _ _; simp [lowerAllFieldAttrs]
  | cons field fields ih =>
      intro st hn hclean
      have hproceed :=
        ((lowerAllFieldAttrs_steps extends_calls guard (field :: fields) st).clean hclean).proceeds
      have hstop : ¬ st.shouldStop = true := by simp [hproceed]
      rw [lowerAllFieldAttrs, if_neg hstop] at hclean ⊢
      dsimp only at hclean ⊢
      have hhead := lowerFieldAttrConstraints_sound hf fuel hg hn
        ((lowerAllFieldAttrs_steps extends_calls guard fields _).clean hclean)
      have hrest := ih _
        (hn.extends (lowerFieldAttrConstraints_steps extends_calls field guard st)) hclean
      rw [List.forall_mem_append, hhead, hrest, List.all_cons, Bool.and_eq_true]

/-! #### When subtypes -/

omit hf in
/-- The guard of a subtype is verified if that of its parent and the discriminant are. -/
theorem guardSound_whenGuard {parent : Option CTypedExpr} {disc : CTypedExpr} {test dtest : Bool}
    (hg : GuardSound ctx.env parent test) (ht : Truth disc)
    (hd : Verified ctx.env (fun _ => none) disc ↔ dtest = true) :
    GuardSound ctx.env (some (whenGuard parent disc)) (test && dtest) := by
  cases parent with
  | none =>
      have htest : test = true := hg.verified.mp (by simp)
      refine ⟨by simpa [whenGuard] using ht, ?_⟩
      simpa [whenGuard, htest] using hd
  | some p =>
      have hp : Verified ctx.env (fun _ => none) p ↔ test = true := by
        simpa using hg.verified
      have htruth : Truth (whenGuard (some p) disc) := by
        unfold Truth
        change (if p.ty = .bool ∧ disc.ty = .bool then CType.bool else .bottom) = .bool ∨
          (if p.ty = .bool ∧ disc.ty = .bool then CType.bool else .bottom) = .bottom
        split
        · exact Or.inl rfl
        · exact Or.inr rfl
      have hjoin : Verified ctx.env (fun _ => none) (whenGuard (some p) disc) ↔
          Verified ctx.env (fun _ => none) p ∧ Verified ctx.env (fun _ => none) disc :=
        verified_logicalAnd (hg.truth p rfl) ht
      refine ⟨by simpa using htruth, ?_⟩
      simp only [Option.mem_def, Option.some.injEq, forall_eq']
      rw [hjoin, hp, hd, Bool.and_eq_true]

end Problem

section Whens

variable {ctx : LowerCtx}

mutual

theorem lowerWhenSubtype_sound (hf : FieldsConcrete ctx) (fuel : Nat) :
    ∀ (w : WhenSubtype) (parent : Option CTypedExpr) (test : Bool) (st : LowerState),
    GuardSound ctx.env parent test → AtTop st →
    Clean (lowerWhenSubtype ctx fuel w parent st).2 →
      ((∀ c ∈ (lowerWhenSubtype ctx fuel w parent st).1, ClauseOk ctx.env c) ↔
        whenMatched ctx fuel test w = true)
  | .mk discriminant fields keeps whenSubtypes, parent, test, st, hg, hn, hclean => by
      rw [lowerWhenSubtype] at hclean ⊢
      rw [whenMatched]
      dsimp only at hclean ⊢
      have hattrs :=
        (lowerWhenSubtypes_steps (@extends_calls ctx fuel) whenSubtypes _ _).clean hclean
      have hkeeps := (lowerAllFieldAttrs_steps (@extends_calls ctx fuel) _ fields _).clean hattrs
      have hdisc := (lowerKeeps_steps (@extends_calls ctx fuel) _ keeps _).clean hkeeps
      obtain ⟨htruth, hverified⟩ := lowerTopClause_sound hf fuel hn hdisc
      have hguard := guardSound_whenGuard hg htruth hverified
      have hn1 := hn.extends (lowerTopClause_steps (@extends_calls ctx fuel) discriminant st)
      have hn2 := hn1.extends (lowerKeeps_steps (@extends_calls ctx fuel)
        (some (whenGuard parent (lowerTopClause ctx fuel discriminant st).1)) keeps _)
      have hn3 := hn2.extends (lowerAllFieldAttrs_steps (@extends_calls ctx fuel)
        (some (whenGuard parent (lowerTopClause ctx fuel discriminant st).1)) fields _)
      have h1 := lowerKeeps_sound hf fuel hguard keeps _ hn1 hkeeps
      have h2 := lowerAllFieldAttrs_sound hf fuel hguard fields _ hn2 hattrs
      have h3 := lowerWhenSubtypes_sound hf fuel whenSubtypes _ _ _ hguard hn3 hclean
      rw [List.forall_mem_append, List.forall_mem_append, h1, h2, h3, Bool.and_eq_true,
        Bool.and_eq_true]

theorem lowerWhenSubtypes_sound (hf : FieldsConcrete ctx) (fuel : Nat) :
    ∀ (ws : List WhenSubtype) (parent : Option CTypedExpr) (test : Bool) (st : LowerState),
    GuardSound ctx.env parent test → AtTop st →
    Clean (lowerWhenSubtypes ctx fuel ws parent st).2 →
      ((∀ c ∈ (lowerWhenSubtypes ctx fuel ws parent st).1, ClauseOk ctx.env c) ↔
        whensMatched ctx fuel test ws = true)
  | [], parent, test, st, _, _, _ => by simp [lowerWhenSubtypes, whensMatched]
  | w :: ws, parent, test, st, hg, hn, hclean => by
      have hproceed :=
        ((lowerWhenSubtypes_steps (@extends_calls ctx fuel) (w :: ws) parent st).clean
          hclean).proceeds
      have hstop : ¬ st.shouldStop = true := by simp [hproceed]
      rw [lowerWhenSubtypes, if_neg hstop] at hclean ⊢
      rw [whensMatched]
      dsimp only at hclean ⊢
      have hhead := lowerWhenSubtype_sound hf fuel w parent test st hg hn
        ((lowerWhenSubtypes_steps (@extends_calls ctx fuel) ws parent _).clean hclean)
      have hrest := lowerWhenSubtypes_sound hf fuel ws parent test _ hg
        (hn.extends (lowerWhenSubtype_steps (@extends_calls ctx fuel) w parent st)) hclean
      rw [List.forall_mem_append, hhead, hrest, Bool.and_eq_true]

end

end Whens

/-! #### The body -/

section Body

variable {ctx : LowerCtx} (hf : FieldsConcrete ctx) (fuel : Nat)

include hf

/-- The clauses of the body so far are accepted. -/
structure LoweredOk (env : FieldEnv) (out : Lowered) : Prop where
  hard : ∀ c ∈ out.clauses, ClauseOk env c
  soft : ∀ c ∈ out.softClauses, ClauseOk env ⟨c.expr, c.assertionName⟩

theorem lowerBodyItem_sound (item : BodyItem) (out : Lowered) (st : LowerState)
    (hn : AtTop st) (hclean : Clean (lowerBodyItem ctx fuel item out st).2) :
    LoweredOk ctx.env (lowerBodyItem ctx fuel item out st).1 ↔
      LoweredOk ctx.env out ∧ bodyItemMatched ctx fuel item = true := by
  cases item with
  | solveOrder args =>
      simp only [bodyItemMatched, and_true]
      exact ⟨fun h => ⟨h.hard, h.soft⟩, fun h => ⟨h.hard, h.soft⟩⟩
  | soft weight e =>
      have h := lowerConstraint_sound hf fuel GuardSound.none e (st.report (softWeight weight).2)
        (hn.extends ((Extends.refl st).report _)) hclean
      rw [bodyItemMatched, ← h]
      constructor
      · rintro ⟨hhard, hsoft⟩
        rw [lowerBodyItem, List.forall_mem_append, List.forall_mem_map] at hsoft
        exact ⟨⟨hhard, hsoft.1⟩, hsoft.2⟩
      · rintro ⟨⟨hhard, hsoft⟩, hnew⟩
        refine ⟨hhard, ?_⟩
        rw [lowerBodyItem, List.forall_mem_append, List.forall_mem_map]
        exact ⟨hsoft, hnew⟩
  | clause e =>
      have h := lowerConstraint_sound hf fuel GuardSound.none e st hn hclean
      rw [bodyItemMatched, ← h]
      constructor
      · rintro ⟨hhard, hsoft⟩
        rw [lowerBodyItem, List.forall_mem_append] at hhard
        exact ⟨⟨hhard.1, hsoft⟩, hhard.2⟩
      · rintro ⟨⟨hhard, hsoft⟩, hnew⟩
        refine ⟨?_, hsoft⟩
        rw [lowerBodyItem, List.forall_mem_append]
        exact ⟨hhard, hnew⟩

theorem lowerBody_sound (items : List BodyItem) :
    ∀ (out : Lowered) (st : LowerState), AtTop st →
      Clean (lowerBody ctx fuel items out st).2 →
      (LoweredOk ctx.env (lowerBody ctx fuel items out st).1 ↔
        LoweredOk ctx.env out ∧ items.all (bodyItemMatched ctx fuel) = true) := by
  induction items with
  | nil => intro out st _ _; simp [lowerBody]
  | cons item items ih =>
      intro out st hn hclean
      have hproceed :=
        ((lowerBody_steps (@extends_calls ctx fuel) (item :: items) out st).clean hclean).proceeds
      have hstop : ¬ st.shouldStop = true := by simp [hproceed]
      rw [lowerBody, if_neg hstop] at hclean ⊢
      dsimp only at hclean ⊢
      have hhead := lowerBodyItem_sound hf fuel item out st hn
        ((lowerBody_steps (@extends_calls ctx fuel) items _ _).clean hclean)
      have hafter := hn.extends (lowerBodyItem_steps (@extends_calls ctx fuel) item out st)
      rw [ih _ _ hafter hclean, hhead, List.all_cons, Bool.and_eq_true, and_assoc]

end Body

/-! ### The order of solving -/

section Order

variable (ctx : LowerCtx)

/-- The field that an argument of `solve_order` names. -/
def orderedField (e : Expr) : Option FieldPath :=
  (solveOrderFieldPath ctx e .init).1

def itemOrder : BodyItem → List FieldPath
  | .solveOrder args => args.filterMap (orderedField ctx)
  | _ => []

/-- The fields that the `solve_order` calls of a body name, in their order. -/
def orderedFields (body : List BodyItem) : List FieldPath :=
  body.flatMap (itemOrder ctx)

variable {ctx}

theorem solveOrderFieldPath_fst (e : Expr) (st : LowerState) :
    (solveOrderFieldPath ctx e st).1 = orderedField ctx e := by
  unfold orderedField solveOrderFieldPath
  split
  · rfl
  · split
    · rfl
    · split <;> rfl

theorem lookup_orderedField {e : Expr} {path : FieldPath}
    (h : orderedField ctx e = some path) : (ctx.env.lookup path).isSome = true := by
  unfold orderedField solveOrderFieldPath at h
  split at h
  · simp at h
  · split at h
    · rename_i hfull
      simp only [Option.some.injEq] at h
      exact h ▸ hfull
    · split at h
      · rename_i hsuffix
        simp only [Option.some.injEq] at h
        exact h ▸ hsuffix.2
      · simp at h

theorem solveOrderFields_fst (args : List Expr) :
    ∀ st : LowerState, (solveOrderFields ctx args st).1 = args.filterMap (orderedField ctx) := by
  induction args with
  | nil => intro st; rfl
  | cons e es ih =>
      intro st
      rw [solveOrderFields]
      simp only [solveOrderFieldPath_fst]
      cases horder : orderedField ctx e with
      | some path => rw [List.filterMap_cons_some horder, ih]
      | none => rw [List.filterMap_cons_none horder, ih]

theorem mergeSolveOrder_getD {args : List Expr} {order : Option (List FieldPath)}
    {st : LowerState} (hclean : Clean (mergeSolveOrder ctx args order st).2) :
    (mergeSolveOrder ctx args order st).1.getD [] =
      order.getD [] ++ args.filterMap (orderedField ctx) := by
  unfold mergeSolveOrder at hclean ⊢
  split at hclean
  · exact absurd hclean not_clean_recordError
  · rename_i hlen
    rw [if_neg hlen]
    dsimp only
    rw [solveOrderFields_fst]
    by_cases hempty : args.filterMap (orderedField ctx) = []
    · rw [if_pos hempty, hempty, List.append_nil]
    · rw [if_neg hempty, Option.getD_some]

/-- The order of a problem lists the named fields of the whole body. -/
theorem lowerBody_solveOrder (fuel : Nat) (items : List BodyItem) :
    ∀ (out : Lowered) (st : LowerState), Clean (lowerBody ctx fuel items out st).2 →
      (lowerBody ctx fuel items out st).1.solveOrder.getD [] =
        out.solveOrder.getD [] ++ orderedFields ctx items := by
  induction items with
  | nil => intro out st _; simp [lowerBody, orderedFields]
  | cons item items ih =>
      intro out st hclean
      have hproceed :=
        ((lowerBody_steps (@extends_calls ctx fuel) (item :: items) out st).clean hclean).proceeds
      have hstop : ¬ st.shouldStop = true := by simp [hproceed]
      rw [lowerBody, if_neg hstop] at hclean ⊢
      dsimp only at hclean ⊢
      have hitem := (lowerBody_steps (@extends_calls ctx fuel) items _ _).clean hclean
      have hstep : (lowerBodyItem ctx fuel item out st).1.solveOrder.getD [] =
          out.solveOrder.getD [] ++ itemOrder ctx item := by
        cases item with
        | solveOrder args => exact mergeSolveOrder_getD hitem
        | soft weight e => simp [lowerBodyItem, itemOrder]
        | clause e => simp [lowerBodyItem, itemOrder]
      rw [ih _ _ hclean, hstep, orderedFields, orderedFields, List.flatMap_cons,
        List.append_assoc]

theorem verifySolveOrder_iff {env : FieldEnv} (order : List FieldPath) :
    ∀ seen : List FieldPath, (∀ path ∈ order, (env.lookup path).isSome = true) →
      (verifySolveOrder env order seen = [] ↔ order.Nodup ∧ ∀ path ∈ order, path ∉ seen) := by
  induction order with
  | nil => intro seen _; simp [verifySolveOrder]
  | cons path order ih =>
      intro seen hfound
      rw [List.forall_mem_cons] at hfound
      obtain ⟨info, hinfo⟩ := Option.isSome_iff_exists.mp hfound.1
      rw [verifySolveOrder, List.append_eq_nil_iff, List.append_eq_nil_iff, ih _ hfound.2,
        List.nodup_cons, List.forall_mem_cons]
      simp only [hinfo, Option.isNone_some, Bool.false_eq_true, if_false, true_and]
      constructor
      · rintro ⟨hseen, hnodup, hrest⟩
        have hpath : path ∉ seen := by
          intro hmem
          simp [hmem] at hseen
        exact ⟨⟨fun hmem => (hrest path hmem) List.mem_cons_self, hnodup⟩, hpath,
          fun p hp hmem => hrest p hp (List.mem_cons_of_mem _ hmem)⟩
      · rintro ⟨⟨hnot, hnodup⟩, hpath, hrest⟩
        refine ⟨by simp [hpath], hnodup, fun p hp hmem => ?_⟩
        rcases List.mem_cons.mp hmem with rfl | hseen
        · exact hnot hp
        · exact hrest p hp hseen

theorem orderedFields_lookup (body : List BodyItem) :
    ∀ path ∈ orderedFields ctx body, (ctx.env.lookup path).isSome = true := by
  intro path hpath
  obtain ⟨item, -, hitem⟩ := List.mem_flatMap.mp hpath
  cases item with
  | solveOrder args =>
      obtain ⟨e, -, he⟩ := List.mem_filterMap.mp hitem
      exact lookup_orderedField he
  | _ => simp [itemOrder] at hitem

end Order

/-! ### Problems -/

/-- The literals of the keeps, the body, the attributes and the subtypes of a problem
match. -/
def problemMatched (ctx : LowerCtx) (fuel : Nat) (body : List BodyItem) : Bool :=
  keepsMatched ctx fuel true ctx.target.keeps && body.all (bodyItemMatched ctx fuel) &&
    ctx.target.fields.all (fieldAttrsMatched ctx fuel true) &&
    whensMatched ctx fuel true ctx.target.whenSubtypes

theorem insertSchemaFields_nonempty (enums : List EnumDomainEntry) (fields : List TxnField) :
    ∀ entries : List (FieldPath × FieldInfo), (∀ entry ∈ entries, entry.1 ≠ []) →
      ∀ entry ∈ insertSchemaFields enums fields entries, entry.1 ≠ [] := by
  induction fields with
  | nil => exact fun entries h => h
  | cons f fields ih =>
      intro entries h
      refine ih _ fun entry hentry => ?_
      rcases List.mem_append.mp hentry with hold | hnew
      · exact h entry (List.mem_of_mem_filter hold)
      · rw [List.mem_singleton.mp hnew]
        exact f.nonempty

theorem verifyField_iff (ctx : LowerCtx) :
    ctx.env.fields.flatMap (verifyField ctx.env) = [] ↔ FieldsConcrete ctx := by
  rw [List.flatMap_eq_nil_iff]
  refine forall₂_congr fun entry hentry => ?_
  have hpath : entry.1 ≠ [] := insertSchemaFields_nonempty _ _ [] (by simp) entry hentry
  unfold verifyField Concrete
  rw [if_neg hpath, List.append_nil]

/-- The verifier accepts a lowered problem exactly if every field has a proper type, the
items of its literals match, and no field is ordered twice. -/
theorem lowerProblem_verified_iff {ctx : LowerCtx} {fuel : Nat} {body : List BodyItem}
    {problem : CTypedProblem} (h : lowerProblem ctx fuel body = some (.ok problem)) :
    verifyConstraintProblem problem = .ok () ↔
      FieldsConcrete ctx ∧ problemMatched ctx fuel body = true ∧
        (orderedFields ctx body).Nodup := by
  unfold lowerProblem at h
  unfold problemMatched
  dsimp only at h ⊢
  have hn := AtTop.init
  have hn1 := hn.extends (lowerKeeps_steps (@extends_calls ctx fuel) none ctx.target.keeps .init)
  have hkeeps := fun hf : FieldsConcrete ctx =>
    lowerKeeps_sound hf fuel GuardSound.none ctx.target.keeps .init hn
  generalize lowerKeeps ctx fuel none ctx.target.keeps .init = keeps at h hn1 hkeeps ⊢
  have hbodyExt := lowerBody_steps (@extends_calls ctx fuel) body ⟨keeps.1, [], none⟩ keeps.2
  have hn2 := hn1.extends hbodyExt
  have hbody := fun hf : FieldsConcrete ctx =>
    lowerBody_sound hf fuel body ⟨keeps.1, [], none⟩ keeps.2 hn1
  have horder : Clean (lowerBody ctx fuel body ⟨keeps.1, [], none⟩ keeps.2).2 → _ :=
    lowerBody_solveOrder fuel body ⟨keeps.1, [], none⟩ keeps.2
  generalize lowerBody ctx fuel body ⟨keeps.1, [], none⟩ keeps.2 = b
    at h hbodyExt hn2 hbody horder ⊢
  have hattrsExt := lowerAllFieldAttrs_steps (@extends_calls ctx fuel) none ctx.target.fields b.2
  have hn3 := hn2.extends hattrsExt
  have hattrs := fun hf : FieldsConcrete ctx =>
    lowerAllFieldAttrs_sound hf fuel GuardSound.none ctx.target.fields b.2 hn2
  generalize lowerAllFieldAttrs ctx fuel none ctx.target.fields b.2 = attrs
    at h hattrsExt hn3 hattrs ⊢
  have hwhensExt :=
    lowerWhenSubtypes_steps (@extends_calls ctx fuel) ctx.target.whenSubtypes none attrs.2
  have hwhens := fun hf : FieldsConcrete ctx =>
    lowerWhenSubtypes_sound hf fuel ctx.target.whenSubtypes none true attrs.2 GuardSound.none hn3
  generalize lowerWhenSubtypes ctx fuel ctx.target.whenSubtypes none attrs.2 = whens
    at h hwhensExt hwhens ⊢
  obtain ⟨hclean, rfl⟩ : Clean whens.2 ∧ problem =
      ⟨ctx.env, b.1.clauses ++ attrs.1 ++ whens.1, b.1.softClauses, b.1.solveOrder⟩ := by
    split at h
    · simp at h
    · rename_i hexhausted
      split at h
      · rename_i herrors
        simp only [Option.some.injEq, Except.ok.injEq] at h
        exact ⟨⟨herrors, by simpa using hexhausted⟩, h.symm⟩
      · simp at h
  have hcleanAttrs := hwhensExt.clean hclean
  have hcleanBody := hattrsExt.clean hcleanAttrs
  rw [verifyConstraintProblem_ok]
  unfold problemErrors
  dsimp only
  rw [List.append_eq_nil_iff, List.append_eq_nil_iff, List.append_eq_nil_iff, verifyField_iff,
    List.flatMap_eq_nil_iff, List.flatMap_eq_nil_iff, horder hcleanBody, Option.getD_none,
    List.nil_append, verifySolveOrder_iff _ _ (orderedFields_lookup body), and_assoc, and_assoc]
  refine and_congr_right fun hf => ?_
  have h1 := hkeeps hf (hbodyExt.clean hcleanBody)
  have h2 := hbody hf hcleanBody
  have h3 := hattrs hf hcleanAttrs
  have h4 := hwhens hf hclean
  simp only [List.forall_mem_append, Bool.and_eq_true]
  constructor
  · rintro ⟨⟨⟨hb, ha⟩, hw⟩, hsoft, hnodup, -⟩
    have hlowered := h2.mp ⟨hb, hsoft⟩
    exact ⟨⟨⟨⟨h1.mp hlowered.1.hard, hlowered.2⟩, h3.mp ha⟩, h4.mp hw⟩, hnodup⟩
  · rintro ⟨⟨⟨⟨hm1, hm2⟩, hm3⟩, hm4⟩, hnodup⟩
    have hlowered := h2.mpr ⟨⟨h1.mpr hm1, by simp⟩, hm2⟩
    exact ⟨⟨⟨hlowered.hard, h3.mpr hm3⟩, h4.mpr hm4⟩, hlowered.soft, hnodup, by simp⟩

/-! #### A record with one field -/

/-- A record whose only field is a byte. -/
def byteRecord : TxnSchema where
  name := "Write"
  fields := [⟨["addr"], .uint (some 8), false, [], by decide, by decide⟩]
  keeps := []
  whenSubtypes := []

def byteCtx : LowerCtx where
  schemas := ⟨[], [byteRecord], ⟨[], RelationExpansion.Relation.nil_nodup⟩,
    [], ConstraintSchema.IntegerConst.nil_nodup⟩
  target := byteRecord

/-- `addr in {3, 7}` -/
def byteBody : List BodyItem :=
  [.clause (.binary .in (.ident "addr") (.setLit [.int "3", .int "7"]))]

/-- `addr in {3, -1}`: the negated item keeps the type of its literal. -/
def negatedBody : List BodyItem :=
  [.clause (.binary .in (.ident "addr") (.setLit [.int "3", .unary .neg (.int "1")]))]

/-- The problem of membership in a set of items. -/
def byteProblem (items : List CTypedExpr) : CTypedProblem where
  env := byteCtx.env
  constraints :=
    [⟨.inSet (.fieldRef ["addr"] (.uint 8)) (.set items (.set (.uint 8))) .bool, "c_0"⟩]
  softConstraints := []
  solveOrder := none

def literal (value : BitVec 128) (width : Nat) : CTypedExpr :=
  .bvLit value (.uint width)

theorem lowerProblem_verified_iff_byte :
    lowerProblem byteCtx 0 byteBody = some (.ok (byteProblem [literal 3 8, literal 7 8])) ∧
      verifyConstraintProblem (byteProblem [literal 3 8, literal 7 8]) = .ok () := by
  have hlower : lowerProblem byteCtx 0 byteBody =
      some (.ok (byteProblem [literal 3 8, literal 7 8])) := rfl
  have hfields : FieldsConcrete byteCtx := by
    intro entry hentry
    obtain rfl := List.mem_singleton.mp hentry
    rfl
  exact ⟨hlower, (lowerProblem_verified_iff hlower).mpr ⟨hfields, by decide, by decide⟩⟩

/-- Lowering accepts a negated literal in a set, and the verifier refuses it. -/
theorem negatedItem_refused :
    lowerProblem byteCtx 0 negatedBody =
        some (.ok (byteProblem [literal 3 8, .unary .neg (literal 1 1) (.uint 1)])) ∧
      verifyConstraintProblem (byteProblem [literal 3 8, .unary .neg (literal 1 1) (.uint 1)]) =
        .error [.setElemTypeMismatch (.uint 8) (.uint 1)] :=
  ⟨rfl, rfl⟩

end Harc.ProblemVerified
