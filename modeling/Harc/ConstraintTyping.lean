import Harc.ExpansionResult
import Harc.LoweringState

/-!
The types of constraints, read off the expressions of the parser.  An expression that is
lowered without an error gets the type that is read here.
-/

namespace Harc.ConstraintTyping

open Harc.Ast
open Harc.ConstraintExpr (UnaryOp BinaryOp)
open Harc.TypedConstraint
open Harc.RelationExpansion
open Harc.ExpansionResult
open Harc.ConstraintSchema
open Harc.TypedLowering
open Harc.LoweringState

/-! ### Shapes -/

/-- What the rules of types read of an expression: its type, and whether it is an integer
literal or a negated one. -/
structure Shape where
  ty : CType
  isLit : Bool
  isNegLit : Bool

def Shape.plain (ty : CType) : Shape := ⟨ty, false, false⟩

def isNegLit : CTypedExpr → Bool
  | .unary .neg e _ => isBvLit e
  | _ => false

/-- The shape of a typed expression. -/
def shape (e : CTypedExpr) : Shape := ⟨e.ty, isBvLit e, isNegLit e⟩

@[simp] theorem shape_ty (e : CTypedExpr) : (shape e).ty = e.ty := rfl

@[simp] theorem shape_isLit (e : CTypedExpr) : (shape e).isLit = isBvLit e := rfl

/-- The types of the loop variables. -/
abbrev Types := String → Option CType

def Types.insert (types : Types) (var : String) (ty : CType) : Types :=
  fun n => if var = n then some ty else types n

/-! ### Rules -/

/-- A flag of one bit becomes a truth value. -/
def flagToBool (s : Shape) : Shape :=
  match s.ty.asBv with
  | some (1, .unsigned) => .plain .bool
  | _ => s

def constShape (c : IntegerConst) : Shape :=
  if c.isBool then .plain .bool
  else ⟨.bv (constSort c).1 (constSort c).2, !constNegative c, constNegative c⟩

def identShape (ctx : LowerCtx) (types : Types) (name : String) : Shape :=
  match types name with
  | some ty => .plain ty
  | none =>
      match enumVariantLookup ctx.schemas name with
      | some (domain, _) => .plain (.enum domain)
      | none =>
          match ctx.schemas.const name with
          | some c => constShape c
          | none => .plain (((ctx.env.lookup [name]).map FieldInfo.ty).getD .bottom)

def fieldShape (ctx : LowerCtx) (target : Expr) (name : String) : Shape :=
  match collectDotted target with
  | none => .plain .bottom
  | some parts =>
      let full := parts ++ [name]
      let found := (ctx.env.lookup full).or
        (if 2 ≤ full.length then ctx.env.lookup (full.drop 1) else none)
      .plain ((found.map FieldInfo.ty).getD .bottom)

def unaryShape (op : UnaryOp) (s : Shape) : Shape :=
  let inner := if lowerUnaryOp op = .logicalNot then flagToBool s else s
  ⟨(unaryType (lowerUnaryOp op) inner.ty).1, false,
    decide (lowerUnaryOp op = .neg) && inner.isLit⟩

/-- A literal that takes the type of the other operand. -/
def takesType (s other : Shape) : Bool :=
  s.isLit && !other.isLit && other.ty.isBv

/-- The types of two operands, where a literal takes that of the other one. -/
def operandTypes (op : CBinaryOp) (l r : Shape) : CType × CType :=
  if isLogical op then ((flagToBool l).ty, (flagToBool r).ty)
  else (if takesType l r then r.ty else l.ty, if takesType r l then l.ty else r.ty)

def resultType (op : CBinaryOp) (l r : CType) : CType :=
  if l = .bottom ∨ r = .bottom then .bottom
  else
    match op with
    | .add | .sub | .mul | .div | .mod | .bitAnd | .bitOr | .bitXor | .shl | .shr => l
    | .eq | .ne | .lt | .le | .gt | .ge | .logicalAnd | .logicalOr => .bool

def binaryShape (op : CBinaryOp) (l r : Shape) : Shape :=
  .plain (resultType op (operandTypes op l r).1 (operandTypes op l r).2)

/-- A literal that takes the type of an element. -/
def adapts (s : Shape) (elem : CType) : Bool :=
  s.isLit && decide (s.ty.asBv ≠ elem.asBv) && elem.isBv

def adaptsTo (hint : Option CType) (s : Shape) : Bool :=
  hint.any (adapts s)

/-- The type of the first endpoint that has one. -/
def rangeElem (lo hi : Option Shape) : CType :=
  match lo with
  | some l =>
      if l.ty ≠ .bottom then l.ty else
        match hi with
        | some h => h.ty
        | none => .bottom
  | none =>
      match hi with
      | some h => h.ty
      | none => .bottom

/-- The type of the first item that is no literal, else that of the first one. -/
def setElem (items : List Shape) : CType :=
  match items.find? fun s => decide (s.ty ≠ .bottom) && !s.isLit with
  | some s => s.ty
  | none =>
      match items with
      | s :: _ => s.ty
      | [] => .bottom

def methodType (method : String) (target : CType) : CType :=
  if method = "len" then
    match target with
    | .list _ _ => .uint 32
    | _ => .bottom
  else .bottom

/-! ### Expressions -/

section Typing

variable (ctx : LowerCtx) (onCall : String → List CallArg → Types → Shape)

mutual

/-- The shape of an expression.  What lowering refuses has no type. -/
def typeExpr : Option CType → Expr → Types → Shape
  | _, .paren inner, types => typeExpr none inner types
  | _, .int text, _ =>
      match parseIntLiteral text with
      | some value => ⟨.uint (defaultUnsignedWidth value), true, false⟩
      | none => .plain .bottom
  | _, .bool _, _ => .plain .bool
  | _, .ident name, types => identShape ctx types name
  | _, .field target name, _ => fieldShape ctx target name
  | _, .unary op expr, types => unaryShape op (typeExpr none expr types)
  | _, .binary op lhs rhs, types =>
      if op = .in ∨ op = .inside then
        let elem := (typeExpr none lhs types).ty
        .plain (membershipType elem (typeExpr (membershipHint elem) rhs types).ty).1
      else
        match mapBinaryOp op with
        | none => .plain .bottom
        | some cop => binaryShape cop (typeExpr none lhs types) (typeExpr none rhs types)
  | _, .membership lhs rhs, types =>
      let elem := (typeExpr none lhs types).ty
      .plain (membershipType elem (typeExpr (membershipHint elem) rhs types).ty).1
  | hint, .rangeLit lo hi, types =>
      .plain (.range (hint.getD (rangeElem (typeBound lo types) (typeBound hi types))))
  | hint, .setLit items, types => .plain (.set (hint.getD (setElem (typeItems items types))))
  | _, .call (.field target name) _, types =>
      .plain (methodType name (typeExpr none target types).ty)
  | _, .call (.ident name) args, types => onCall name args types
  | _, .forEachConstraint _ _ _, _ => .plain .bool
  | _, _, _ => .plain .bottom

def typeItems : List Expr → Types → List Shape
  | [], _ => []
  | e :: es, types => typeExpr none e types :: typeItems es types

def typeBound : Option Expr → Types → Option Shape
  | none, _ => none
  | some e, types => some (typeExpr none e types)

end

end Typing

/-- The shape of a call by name is that of its expansion. -/
def typeCall (ctx : LowerCtx) : Nat → String → List CallArg → Types → Shape
  | 0, _, _, _ => .plain .bottom
  | fuel + 1, name, args, types =>
      typeExpr ctx (typeCall ctx fuel) none (expandedCall ctx.schemas.relations name args) types

/-! ### Shapes of lowered expressions -/

def localTypes (st : LowerState) : Types := fun n => (st.locals.get n).map Prod.snd

theorem localTypes_eq {st st' : LowerState} (h : Extends st st') :
    localTypes st' = localTypes st := by
  funext n
  rw [localTypes, localTypes, h.locals]

theorem localTypes_enterLoop (st : LowerState) (var : String) (elem : CType) :
    localTypes (st.enterLoop var elem) = (localTypes st).insert var elem := by
  funext n
  simp only [localTypes, LowerState.enterLoop, get_insert, Types.insert]
  by_cases h : var = n <;> simp [h]

theorem shape_coerceFlagToBool (e : CTypedExpr) :
    shape (coerceFlagToBool e) = flagToBool (shape e) := by
  unfold coerceFlagToBool flagToBool
  rw [shape_ty]
  cases e.ty.asBv with
  | none => rfl
  | some bv =>
      -- only the width 1 without a sign is a flag
      rcases bv with ⟨_ | _ | w, _ | _⟩ <;> rfl

theorem shape_lowerConst (c : IntegerConst) : shape (lowerConst c) = constShape c := by
  unfold lowerConst constShape
  by_cases hbool : c.isBool = true
  · rw [if_pos hbool, if_pos hbool]
    rfl
  · rw [if_neg hbool, if_neg hbool]
    cases hneg : constNegative c <;> rfl

theorem shape_lowerIdent (ctx : LowerCtx) (name : String) (st : LowerState) :
    shape (lowerIdent ctx name st).1 = identShape ctx (localTypes st) name := by
  unfold lowerIdent identShape localTypes
  cases st.locals.get name with
  | some entry => rfl
  | none =>
      cases enumVariantLookup ctx.schemas name with
      | some entry => rfl
      | none =>
          cases ctx.schemas.const name with
          | some c => exact shape_lowerConst c
          | none => cases ctx.env.lookup [name] <;> rfl

theorem shape_lowerFieldAccess (ctx : LowerCtx) (target : Expr) (name : String)
    (st : LowerState) :
    shape (lowerFieldAccess ctx target name st).1 = fieldShape ctx target name := by
  unfold lowerFieldAccess fieldShape
  cases collectDotted target with
  | none => rfl
  | some parts =>
      dsimp only
      cases ctx.env.lookup (parts ++ [name]) with
      | some info => rfl
      | none =>
          rw [Option.none_or]
          cases (if 2 ≤ (parts ++ [name]).length then
            ctx.env.lookup ((parts ++ [name]).drop 1) else none) <;> rfl

theorem shape_finishUnary (op : UnaryOp) (e : CTypedExpr) :
    shape (finishUnary op e).1 = unaryShape op (shape e) := by
  cases op with
  | neg => rfl
  | bitNot => rfl
  | not | notKw =>
      have hflag := shape_coerceFlagToBool e
      change shape (.unary .logicalNot (coerceFlagToBool e)
        (unaryType .logicalNot (coerceFlagToBool e).ty).1) =
          ⟨(unaryType .logicalNot (flagToBool (shape e)).ty).1, false, false⟩
      rw [← hflag]
      rfl

theorem coerceLiteral_ok {value : BitVec 128} {ty : CType} {w : Nat} {s : Sign}
    (h : (coerceLiteral (.bvLit value ty) (.bv w s)).2 = none) :
    (coerceLiteral (.bvLit value ty) (.bv w s)).1 = .bvLit value (.bv w s) ∧
      literalFits value w s = true := by
  unfold coerceLiteral at h ⊢
  dsimp only at h ⊢
  split at h
  · rename_i hfits
    rw [if_pos hfits]
    exact ⟨rfl, hfits⟩
  · simp at h

theorem shape_coerceLiteral {e : CTypedExpr} {w : Nat} {s : Sign} (hlit : isBvLit e = true)
    (h : (coerceLiteral e (.bv w s)).2 = none) :
    shape (coerceLiteral e (.bv w s)).1 = ⟨.bv w s, true, false⟩ := by
  cases e with
  | bvLit value ty =>
      rw [(coerceLiteral_ok h).1]
      rfl
  | _ => simp [isBvLit] at hlit

theorem asBv_eq_some {ty : CType} {w : Nat} {s : Sign} (h : ty.asBv = some (w, s)) :
    ty = .bv w s := by
  cases ty <;> simp_all [CType.asBv]

theorem not_takesType {l r : CTypedExpr}
    (h : ∀ w s, isBvLit l = true → isBvLit r = false → r.ty.asBv = some (w, s) → False) :
    takesType (shape l) (shape r) = false := by
  by_contra htakes
  simp only [takesType, Bool.and_eq_true, Bool.not_eq_true', Bool.not_eq_false] at htakes
  obtain ⟨⟨hl, hr⟩, hbv⟩ := htakes
  cases hty : r.ty with
  | bv w s => exact h w s hl hr (by rw [hty]; rfl)
  | _ => simp [shape, hty, CType.isBv] at hbv

theorem adaptOperands_types {l r : CTypedExpr} (h : (adaptOperands l r).2.2 = none) :
    (adaptOperands l r).1.ty = (if takesType (shape l) (shape r) then r.ty else l.ty) ∧
      (adaptOperands l r).2.1.ty = if takesType (shape r) (shape l) then l.ty else r.ty := by
  unfold adaptOperands at h ⊢
  unfold takesType shape
  split at h
  · rename_i w s hlit hnot hbv
    have hty := asBv_eq_some hbv
    have hcoerced := congrArg Shape.ty (shape_coerceLiteral hlit h)
    simp only [hlit, hnot, hty, CType.isBv]
    exact ⟨hcoerced, rfl⟩
  · rename_i w s hnot hlit hbv
    have hty := asBv_eq_some hbv
    have hcoerced := congrArg Shape.ty (shape_coerceLiteral hlit h)
    simp only [hlit, hnot, hty, CType.isBv]
    exact ⟨rfl, hcoerced⟩
  · rename_i hleft hright
    rw [if_neg, if_neg]
    · exact ⟨rfl, rfl⟩
    · exact Bool.eq_false_iff.mp (not_takesType fun w s hlit hnot hbv => hleft w s hnot hlit hbv)
    · exact Bool.eq_false_iff.mp (not_takesType fun w s hlit hnot hbv => hright w s hlit hnot hbv)

theorem binaryOperands_types {op : CBinaryOp} {l r : CTypedExpr}
    (h : (binaryOperands op l r).2.2 = none) :
    ((binaryOperands op l r).1.ty, (binaryOperands op l r).2.1.ty) =
      operandTypes op (shape l) (shape r) := by
  unfold binaryOperands at h ⊢
  unfold operandTypes
  by_cases hop : isLogical op = true
  · rw [if_pos hop, if_pos hop, ← shape_coerceFlagToBool, ← shape_coerceFlagToBool]
    rfl
  · rw [if_neg hop] at h
    rw [if_neg hop, if_neg hop]
    obtain ⟨hl, hr⟩ := adaptOperands_types h
    exact Prod.ext hl hr

theorem bvOperands_ok {op : CBinaryOp} {lhs rhs : CType} {l r : Nat × Sign}
    (h : bvOperands op lhs rhs = .ok (l, r)) : lhs = .bv l.1 l.2 ∧ rhs = .bv r.1 r.2 := by
  unfold bvOperands at h
  split at h
  · simp at h
  · rename_i hl
    split at h
    · simp at h
    · rename_i hr
      simp only [Except.ok.injEq, Prod.mk.injEq] at h
      obtain ⟨rfl, rfl⟩ := h
      exact ⟨asBv_eq_some hl, asBv_eq_some hr⟩

/-- An arithmetic operator that is not refused has operands of one type, and its own. -/
theorem arithmeticType_ok {op : CBinaryOp} {l r : CTypedExpr}
    (h : (arithmeticType op l r).2 = none) :
    ∃ w s, l.ty = .bv w s ∧ r.ty = .bv w s ∧ (arithmeticType op l r).1 = .bv w s := by
  unfold arithmeticType at h ⊢
  cases hops : bvOperands op l.ty r.ty with
  | error e => simp [hops] at h
  | ok operands =>
      obtain ⟨⟨lw, ls⟩, rw', rs⟩ := operands
      obtain ⟨hl, hr⟩ := bvOperands_ok hops
      simp only [hops] at h ⊢
      cases hmix : declaredSignMix l r ls rs with
      | some mix => simp [hmix] at h
      | none =>
          simp only [hmix] at h ⊢
          split at h
          · simp at h
          · rename_i hsame
            rw [not_or, not_not, not_not] at hsame
            obtain ⟨rfl, rfl⟩ := hsame
            rw [if_neg (by simp)]
            exact ⟨lw, ls, hl, hr, rfl⟩

theorem compareBvType_ok {op : CBinaryOp} {l r : CTypedExpr}
    (h : (compareBvType op l r).2 = none) :
    ∃ w s, l.ty = .bv w s ∧ r.ty = .bv w s ∧ (compareBvType op l r).1 = .bool := by
  unfold compareBvType at h ⊢
  cases hops : bvOperands op l.ty r.ty with
  | error e => simp [hops] at h
  | ok operands =>
      obtain ⟨⟨lw, ls⟩, rw', rs⟩ := operands
      obtain ⟨hl, hr⟩ := bvOperands_ok hops
      simp only [hops] at h ⊢
      cases hmix : declaredSignMix l r ls rs with
      | some mix => simp [hmix] at h
      | none =>
          simp only [hmix] at h ⊢
          by_cases hw : lw = rw'
          · by_cases hs : ls = rs
            · subst hw hs
              exact ⟨lw, ls, hl, hr, by simp⟩
            · simp [hw, hs] at h
          · simp [hw] at h

theorem equalityType_bool {op : CBinaryOp} {l r : CTypedExpr}
    (h : (equalityType op l r).2 = none) : (equalityType op l r).1 = .bool := by
  unfold equalityType at h ⊢
  split at h
  · rfl
  · rename_i d₁ d₂ hl hr
    by_cases hd : d₁ = d₂
    · rw [if_pos hd]
    · simp [hd] at h
  · obtain ⟨w, s, hl, hr, hty⟩ := compareBvType_ok h
    exact hty

theorem shiftType_ok {op : CBinaryOp} {lhs rhs : CType} (h : (shiftType op lhs rhs).2 = none) :
    ∃ w s v, lhs = .bv w s ∧ rhs = .bv v .unsigned ∧ (shiftType op lhs rhs).1 = .bv w s := by
  unfold shiftType at h ⊢
  split at h
  · simp at h
  · rename_i lw ls hl
    split at h
    · rename_i v hr
      exact ⟨lw, ls, v, asBv_eq_some hl, asBv_eq_some hr, rfl⟩
    · simp at h

theorem logicalType_ok {op : CBinaryOp} {lhs rhs : CType}
    (h : (logicalType op lhs rhs).2 = none) :
    lhs = .bool ∧ rhs = .bool ∧ (logicalType op lhs rhs).1 = .bool := by
  unfold logicalType at h ⊢
  by_cases hl : lhs = .bool
  · by_cases hr : rhs = .bool
    · simp [hl, hr]
    · simp [hl, hr] at h
  · simp [hl] at h

/-- An operator that is not refused has the type that is read of its operands. -/
theorem typeCheckBinary_type {op : CBinaryOp} {l r : CTypedExpr}
    (h : (typeCheckBinary op l r).2 = none) :
    (typeCheckBinary op l r).1 = resultType op l.ty r.ty := by
  unfold typeCheckBinary at h ⊢
  unfold resultType
  by_cases hbottom : l.ty = .bottom ∨ r.ty = .bottom
  · rw [if_pos hbottom, if_pos hbottom]
  · rw [if_neg hbottom] at h
    rw [if_neg hbottom, if_neg hbottom]
    cases op with
    | add | sub | mul | div | mod | bitAnd | bitOr | bitXor =>
        obtain ⟨w, s, hl, hr, hty⟩ := arithmeticType_ok h
        exact hty.trans hl.symm
    | eq | ne => exact equalityType_bool h
    | lt | le | gt | ge =>
        obtain ⟨w, s, hl, hr, hty⟩ := compareBvType_ok h
        exact hty
    | logicalAnd | logicalOr => exact (logicalType_ok h).2.2
    | shl | shr =>
        obtain ⟨w, s, v, hl, hr, hty⟩ := shiftType_ok h
        exact hty.trans hl.symm

theorem shape_finishBinary {op : CBinaryOp} {l r : CTypedExpr} {st : LowerState}
    (h : Clean (finishBinary op l r st).2) :
    shape (finishBinary op l r st).1 = binaryShape op (shape l) (shape r) := by
  obtain ⟨hoperands, hty⟩ := clean_report.mp h
  have htypes := binaryOperands_types (clean_report.mp hoperands).2
  have hresult := typeCheckBinary_type hty
  unfold binaryShape
  rw [← htypes, ← hresult]
  rfl

theorem rangeElemType_eq (lo hi : Option CTypedExpr) :
    rangeElemType lo hi = rangeElem (lo.map shape) (hi.map shape) := by
  cases lo with
  | none => cases hi <;> rfl
  | some l => cases hi <;> rfl

theorem setElemType_eq (items : List CTypedExpr) :
    setElemType items = setElem (items.map shape) := by
  have hfind : items.find? ((fun s : Shape => decide (s.ty ≠ .bottom) && !s.isLit) ∘ shape) =
      items.find? fun e => decide (e.ty ≠ .bottom) && !isBvLit e := rfl
  unfold setElemType setElem
  rw [List.find?_map, hfind]
  cases items.find? fun e => decide (e.ty ≠ .bottom) && !isBvLit e with
  | some e => rfl
  | none => cases items <;> rfl

theorem shape_finishSet (items : List CTypedExpr) (st : LowerState) :
    shape (finishSet items st).1 = .plain (.set (setElem (items.map shape))) := by
  rw [← setElemType_eq]
  rfl

theorem shape_finishMethod (method : String) (target : CTypedExpr) (args : List CTypedExpr) :
    shape (finishMethod method target args).1 = .plain (methodType method target.ty) := by
  unfold finishMethod methodType
  by_cases hlen : method = "len"
  · rw [if_pos hlen, if_pos hlen]
    cases target.ty <;> rfl
  · rw [if_neg hlen, if_neg hlen]
    rfl

/-! ### Every expression -/

/-- What the shapes of calls by name rest on. -/
structure Typed (onCall : String → List CallArg → LowerState → CTypedExpr × LowerState)
    (onCallShape : String → List CallArg → Types → Shape) : Prop where
  extends_ : ExtendsState onCall
  shape_eq : ∀ name args st, Budgeted st.expand → Clean (onCall name args st).2 →
    shape (onCall name args st).1 = onCallShape name args (localTypes st)

section Main

variable {ctx : LowerCtx}
  {onCall : String → List CallArg → LowerState → CTypedExpr × LowerState}
  {onCallShape : String → List CallArg → Types → Shape}

mutual

theorem shape_lowerExpr (hs : Typed onCall onCallShape) :
    ∀ (hint : Option CType) (e : Expr) (st : LowerState), Budgeted st.expand →
    Clean (lowerExpr ctx onCall hint e st).2 →
      shape (lowerExpr ctx onCall hint e st).1 = typeExpr ctx onCallShape hint e (localTypes st)
  | _, .paren inner, st, hb, hclean => by
      rw [lowerExpr] at hclean ⊢
      rw [typeExpr]
      exact shape_lowerExpr hs none inner st hb hclean
  | _, .int text, st, _, hclean => by
      rw [lowerExpr] at hclean ⊢
      rw [typeExpr]
      cases hparse : parseIntLiteral text with
      | some value => rfl
      | none =>
          simp only [hparse] at hclean
          exact absurd hclean not_clean_recordError
  | _, .bool value, st, _, _ => by
      rw [lowerExpr, typeExpr]
      rfl
  | _, .ident name, st, _, _ => by
      rw [lowerExpr, typeExpr]
      exact shape_lowerIdent ctx name st
  | _, .field target name, st, _, _ => by
      rw [lowerExpr, typeExpr]
      exact shape_lowerFieldAccess ctx target name st
  | _, .unary op expr, st, hb, hclean => by
      rw [lowerExpr] at hclean ⊢
      rw [typeExpr, ← shape_lowerExpr hs none expr st hb (clean_report.mp hclean).1]
      exact shape_finishUnary op _
  | _, .binary op lhs rhs, st, hb, hclean => by
      rw [lowerExpr] at hclean ⊢
      rw [typeExpr]
      have hext := lowerExpr_steps extends_steps ctx hs.extends_ none lhs st
      split at hclean
      · rename_i hin
        rw [if_pos hin, if_pos hin]
        have hset := (clean_report.mp hclean).1
        have helem := (lowerExpr_steps extends_steps ctx hs.extends_ _ rhs _).clean hset
        rw [← shape_lowerExpr hs none lhs st hb helem, ← localTypes_eq hext]
        dsimp only [shape_ty]
        rw [← shape_lowerExpr hs _ rhs _ (hext.budget hb) hset]
        rfl
      · rename_i hin
        rw [if_neg hin, if_neg hin]
        cases hop : mapBinaryOp op with
        | none =>
            simp only [hop] at hclean
            exact absurd hclean not_clean_recordError
        | some cop =>
            simp only [hop] at hclean
            dsimp only
            obtain ⟨hboth, -⟩ := clean_report.mp hclean
            obtain ⟨hright, -⟩ := clean_report.mp hboth
            have hleft := (lowerExpr_steps extends_steps ctx hs.extends_ none rhs _).clean hright
            rw [shape_finishBinary hclean, shape_lowerExpr hs none lhs st hb hleft,
              shape_lowerExpr hs none rhs _ (hext.budget hb) hright, localTypes_eq hext]
  | _, .membership lhs rhs, st, hb, hclean => by
      rw [lowerExpr] at hclean ⊢
      rw [typeExpr]
      have hext := lowerExpr_steps extends_steps ctx hs.extends_ none lhs st
      have hset := (clean_report.mp hclean).1
      have helem := (lowerExpr_steps extends_steps ctx hs.extends_ _ rhs _).clean hset
      rw [← shape_lowerExpr hs none lhs st hb helem, ← localTypes_eq hext]
      dsimp only [shape_ty]
      rw [← shape_lowerExpr hs _ rhs _ (hext.budget hb) hset]
      rfl
  | hint, .rangeLit lo hi, st, hb, hclean => by
      rw [typeExpr]
      simp only [lowerExpr] at hclean ⊢
      have hext := lowerBound_steps extends_steps ctx hs.extends_ hint lo st
      have hlo := (lowerBound_steps extends_steps ctx hs.extends_ hint hi _).clean hclean
      cases hint with
      | some elem => rfl
      | none =>
          have h1 := shape_lowerBound hs lo st hb hlo
          have h2 := shape_lowerBound hs hi _ (hext.budget hb) hclean
          rw [localTypes_eq hext] at h2
          rw [← h1, ← h2, ← rangeElemType_eq]
          rfl
  | hint, .setLit items, st, hb, hclean => by
      rw [typeExpr]
      simp only [lowerExpr] at hclean ⊢
      cases hint with
      | some elem => rfl
      | none =>
          dsimp only [finishSetLit] at hclean ⊢
          have hitems : Clean (lowerItems ctx onCall none items st).2 := by
            refine Extends.clean ?_ hclean
            dsimp only [finishSet]
            split
            · exact adaptItems_steps extends_steps _ _ _
            · exact Extends.refl _
          rw [shape_finishSet, shape_lowerItems hs items st hb hitems]
          rfl
  | _, .call callee args, st, hb, hclean => by
      cases callee with
      | field target name =>
          rw [lowerExpr] at hclean ⊢
          rw [typeExpr]
          have hargs := (clean_report.mp hclean).1
          have htarget := (lowerArgs_steps extends_steps ctx hs.extends_ args _).clean hargs
          rw [← shape_lowerExpr hs none target st hb htarget]
          exact shape_finishMethod name _ _
      | ident name =>
          rw [lowerExpr] at hclean ⊢
          rw [typeExpr]
          exact hs.shape_eq name args st hb hclean
      | _ =>
          simp only [lowerExpr] at hclean
          exact absurd hclean not_clean_recordError
  | _, .forEachConstraint var iter body, st, hb, hclean => by
      rw [lowerExpr] at hclean ⊢
      rw [typeExpr]
      dsimp only at hclean ⊢
      cases helem : iterableElemType (lowerExpr ctx onCall none iter st).1.ty with
      | none =>
          simp only [helem] at hclean
          exact absurd ⟨hclean.errors, hclean.exhausted⟩ not_clean_recordError
      | some elem => rfl
  | _, .string _, st, _, hclean | _, .number _, st, _, hclean
  | _, .implicitSelf, st, _, hclean | _, .index _ _, st, _, hclean
  | _, .bitSlice _ _ _, st, _, hclean | _, .cast _ _, st, _, hclean
  | _, .ternary _ _ _, st, _, hclean | _, .other _, st, _, hclean => by
      simp only [lowerExpr] at hclean
      exact absurd hclean not_clean_recordError

theorem shape_lowerItems (hs : Typed onCall onCallShape) :
    ∀ (es : List Expr) (st : LowerState), Budgeted st.expand →
    Clean (lowerItems ctx onCall none es st).2 →
      (lowerItems ctx onCall none es st).1.map shape =
        typeItems ctx onCallShape es (localTypes st)
  | [], _, _, _ => by
      rw [lowerItems, typeItems]
      rfl
  | e :: es, st, hb, hclean => by
      rw [lowerItems] at hclean ⊢
      rw [typeItems]
      have hext := lowerExpr_steps extends_steps ctx hs.extends_ none e st
      have hitem := (lowerItems_steps extends_steps ctx hs.extends_ none es _).clean hclean
      rw [← shape_lowerExpr hs none e st hb hitem, ← localTypes_eq hext,
        ← shape_lowerItems hs es _ (hext.budget hb) hclean]
      rfl

theorem shape_lowerBound (hs : Typed onCall onCallShape) :
    ∀ (b : Option Expr) (st : LowerState), Budgeted st.expand →
    Clean (lowerBound ctx onCall none b st).2 →
      (lowerBound ctx onCall none b st).1.map shape =
        typeBound ctx onCallShape b (localTypes st)
  | none, _, _, _ => by
      rw [lowerBound, typeBound]
      rfl
  | some e, st, hb, hclean => by
      rw [lowerBound] at hclean ⊢
      rw [typeBound, ← shape_lowerExpr hs none e st hb hclean]
      rfl

end

end Main

theorem lowerCall_typed (ctx : LowerCtx) (fuel : Nat) :
    Typed (lowerCall ctx fuel) (typeCall ctx fuel) := by
  induction fuel with
  | zero =>
      refine ⟨lowerCall_extends ctx 0, ?_⟩
      intro name args st hb hclean
      exact absurd hclean.exhausted (by simp [lowerCall])
  | succ fuel ih =>
      refine ⟨lowerCall_extends ctx (fuel + 1), ?_⟩
      intro name args st hb hclean
      rw [lowerCall] at hclean ⊢
      rw [typeCall]
      have hexpand := expandCall_extends ctx.schemas.relations name args st
      have hafter := (lowerExpr_steps extends_steps ctx ih.extends_ none _ _).clean hclean
      refine (shape_lowerExpr ih none _ _ (hexpand.budget hb) hclean).trans ?_
      rw [expandedCall_eq hb hafter.errors]
      rfl

end Harc.ConstraintTyping
