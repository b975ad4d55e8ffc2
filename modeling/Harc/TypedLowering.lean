import Harc.ConstraintSchema

/-!
Typed lowering of constraints (`constraints/typed_lower.rs`): expressions of the parser
become typed expressions, and what has no type is reported.  Spans and the origins of
clauses are left out.
-/

namespace Harc.TypedLowering

open Harc.Ast
open Harc.ConstraintExpr (UnaryOp BinaryOp)
open Harc.SmtScript (natText)
open Harc.TypedConstraint
open Harc.RelationExpansion
open Harc.ConstraintSchema

/-! ### Integer literals -/

/-- The value of a digit, for radices up to 36. -/
def digitValue (c : Char) : Option Nat :=
  if '0' ≤ c ∧ c ≤ '9' then some (c.toNat - '0'.toNat)
  else if 'a' ≤ c ∧ c ≤ 'z' then some (c.toNat - 'a'.toNat + 10)
  else if 'A' ≤ c ∧ c ≤ 'Z' then some (c.toNat - 'A'.toNat + 10)
  else none

def digitsValue (radix : Nat) : List Char → Nat → Option Nat
  | [], acc => some acc
  | c :: cs, acc =>
      match digitValue c with
      | none => none
      | some d => if d < radix then digitsValue radix cs (acc * radix + d) else none

/-- A number of 128 bits; a leading plus sign is accepted. -/
def fromStrRadix (radix : Nat) (text : List Char) : Option (BitVec 128) :=
  let digits := match text with
    | '+' :: rest => rest
    | _ => text
  if digits = [] then none
  else
    match digitsValue radix digits 0 with
    | none => none
    | some n => if n < 2 ^ 128 then some (BitVec.ofNat 128 n) else none

def quote : Char := Char.ofNat 39

/-- The radix and the digits that a literal without underscores denotes. -/
def literalBody (text : List Char) : Nat × List Char :=
  match text.dropWhile (· ≠ quote) with
  | _ :: rest =>
      match rest with
      | 'h' :: body | 'H' :: body => (16, body)
      | 'd' :: body | 'D' :: body => (10, body)
      | 'b' :: body | 'B' :: body => (2, body)
      | 'o' :: body | 'O' :: body => (8, body)
      | _ => (10, rest)
  | [] =>
      match text with
      | '0' :: 'x' :: body | '0' :: 'X' :: body => (16, body)
      | '0' :: 'b' :: body | '0' :: 'B' :: body => (2, body)
      | '0' :: 'o' :: body | '0' :: 'O' :: body => (8, body)
      | _ => (10, text)

def parseIntLiteral (text : String) : Option (BitVec 128) :=
  let body := literalBody (text.toList.filter (· ≠ '_'))
  fromStrRadix body.1 body.2

def defaultUnsignedWidth (value : BitVec 128) : Nat :=
  if value = 0 then 1 else value.toNat.log2 + 1

/-! ### The state -/

/-- The foreach variables in scope, the latest first. -/
abbrev LocalMap := List (String × Nat × CType)

def LocalMap.get (locals : LocalMap) (name : String) : Option (Nat × CType) :=
  (locals.find? fun entry => entry.1 == name).map Prod.snd

def LocalMap.insert (locals : LocalMap) (name : String) (entry : Nat × CType) : LocalMap :=
  (name, entry) :: locals

def LocalMap.remove (locals : LocalMap) (name : String) : LocalMap :=
  locals.filter fun entry => entry.1 != name

/-- The binding of a loop variable before the loop, put back after it. -/
def restoreLocal (before after : LocalMap) (var : String) : LocalMap :=
  match before.get var with
  | some old => after.insert var old
  | none => after.remove var

/-- `exhausted` says that expanding calls did not come to an end. -/
structure LowerState where
  expand : ExpandState
  nextClauseSeq : Nat
  nextLocalId : Nat
  locals : LocalMap
  exhausted : Bool

namespace LowerState

def init : LowerState := ⟨.init, 0, 0, [], false⟩

def recordError (st : LowerState) (e : LowerError) : LowerState :=
  { st with expand := st.expand.recordError e }

/-- Records the error of a check, if it has one. -/
def report (st : LowerState) : Option LowerError → LowerState
  | none => st
  | some e => st.recordError e

def shouldStop (st : LowerState) : Bool := st.expand.sawRelationError

def errors (st : LowerState) : List LowerError := st.expand.errors

/-- A loop variable gets the next number. -/
def enterLoop (st : LowerState) (var : String) (elem : CType) : LowerState :=
  { st with
    nextLocalId := st.nextLocalId + 1
    locals := st.locals.insert var (st.nextLocalId, elem) }

/-- After the loop its variable is what it was before. -/
def leaveLoop (before after : LowerState) (var : String) : LowerState :=
  { after with locals := restoreLocal before.locals after.locals var }

end LowerState

/-! ### Identifiers and fields -/

/-- What a lowering reads and never changes. -/
structure LowerCtx where
  schemas : Elaboration
  target : TxnSchema

def LowerCtx.env (ctx : LowerCtx) : FieldEnv := buildFieldEnv ctx.schemas ctx.target

/-- The width and sign of the literal of a file constant. -/
def constSort (c : IntegerConst) : Nat × Sign :=
  match c.width, c.signedness with
  | some width, .signed => (width, .signed)
  | some width, .unsigned => (width, .unsigned)
  | none, .signed => (64, .signed)
  | _, _ => (defaultUnsignedWidth (c.value.setWidth 128), .unsigned)

def constNegative (c : IntegerConst) : Bool :=
  decide (c.signedness = .signed) && decide (c.value.toInt < 0)

/-- The literal that a file constant stands for, negated if the constant is negative. -/
def lowerConst (c : IntegerConst) : CTypedExpr :=
  if c.isBool then .boolLit (c.value ≠ 0) .bool
  else
    let ty : CType := .bv (constSort c).1 (constSort c).2
    if constNegative c then .unary .neg (.bvLit ((-c.value).setWidth 128) ty) ty
    else .bvLit (c.value.setWidth 128) ty

/-- A foreach variable comes first, then a variant of a used enum, a constant, a field. -/
def lowerIdent (ctx : LowerCtx) (name : String) (st : LowerState) : CTypedExpr × LowerState :=
  match st.locals.get name with
  | some (id, ty) => (.localRef id ty, st)
  | none =>
      match enumVariantLookup ctx.schemas name with
      | some (domain, idx) => (.enumLit domain idx (.enum domain), st)
      | none =>
          match ctx.schemas.const name with
          | some c => (lowerConst c, st)
          | none =>
              match ctx.env.lookup [name] with
              | some info => (.fieldRef [name] info.ty, st)
              | none => (.fieldRef [name] .bottom, st.recordError (.unresolvedIdent name))

def collectDotted : Expr → Option (List String)
  | .ident name => some [name]
  | .field target name => (collectDotted target).map (· ++ [name])
  | .paren inner => collectDotted inner
  | _ => none

/-- A path is looked up as it is, and then without its first segment. -/
def lowerFieldAccess (ctx : LowerCtx) (target : Expr) (name : String) (st : LowerState) :
    CTypedExpr × LowerState :=
  match collectDotted target with
  | none =>
      (.fieldRef [name] .bottom, st.recordError (.disallowedInConstraint "field access target"))
  | some parts =>
      let full := parts ++ [name]
      match ctx.env.lookup full with
      | some info => (.fieldRef full info.ty, st)
      | none =>
          match if 2 ≤ full.length then ctx.env.lookup (full.drop 1) else none with
          | some info => (.fieldRef (full.drop 1) info.ty, st)
          | none =>
              (.fieldRef full .bottom,
                st.recordError (.fieldNotFound (FieldPath.dotted full)))

/-! ### Literals that adapt -/

def isBvLit : CTypedExpr → Bool
  | .bvLit _ _ => true
  | _ => false

/-- A literal is taken as a magnitude: the sign bit of a signed type stays free. -/
def literalFits (value : BitVec 128) (width : Nat) : Sign → Bool
  | .unsigned => if 128 ≤ width then true else value.toNat ≤ 2 ^ width - 1
  | .signed =>
      if width = 0 then value = 0
      else if 128 ≤ width then true
      else value.toNat < 2 ^ (width - 1)

def coerceLiteral (lit : CTypedExpr) (target : CType) : CTypedExpr × Option LowerError :=
  match lit, target with
  | .bvLit value _, .bv width sign =>
      if literalFits value width sign then (.bvLit value (.bv width sign), none)
      else (.bvLit value .bottom, some (.bvLitOutOfRange width value))
  | _, _ => (lit, none)

/-- A literal of another type takes the type of the hint. -/
def adaptLiteral (e : CTypedExpr) (hint : CType) : CTypedExpr × Option LowerError :=
  if isBvLit e = true ∧ e.ty.asBv ≠ hint.asBv then coerceLiteral e hint else (e, none)

/-- An item of a set or range literal takes the type of the hint, if there is one. -/
def adaptTo : Option CType → CTypedExpr → CTypedExpr × Option LowerError
  | some elem, e => adaptLiteral e elem
  | none, e => (e, none)

def coerceExprToBvHint (e : CTypedExpr) (hint : CType) : CTypedExpr × Option LowerError :=
  if isBvLit e = true ∧ e.ty.asBv ≠ hint.asBv then coerceLiteral e hint
  else
    match e, hint with
    | .unary .neg (.bvLit value ty) _, .bv width .signed =>
        let inner := coerceLiteral (.bvLit value ty) (.bv width .signed)
        (.unary .neg inner.1 (.bv width .signed), inner.2)
    | _, _ => (e, none)

def coerceFlagToBool (e : CTypedExpr) : CTypedExpr :=
  match e.ty.asBv with
  | some (1, .unsigned) => .binary .ne e (.bvLit 0 e.ty) .bool
  | _ => e

/-! ### Operators -/

def lowerUnaryOp : UnaryOp → CUnaryOp
  | .neg => .neg
  | .not | .notKw => .logicalNot
  | .bitNot => .bitNot

def mapBinaryOp : BinaryOp → Option CBinaryOp
  | .add | .addWrap => some .add
  | .sub | .subWrap => some .sub
  | .mul | .mulWrap => some .mul
  | .div => some .div
  | .mod => some .mod
  | .eq => some .eq
  | .ne => some .ne
  | .lt => some .lt
  | .le => some .le
  | .gt => some .gt
  | .ge => some .ge
  | .andAnd | .andKw => some .logicalAnd
  | .orOr | .orKw => some .logicalOr
  | .bitAnd => some .bitAnd
  | .bitOr => some .bitOr
  | .bitXor => some .bitXor
  | .shl => some .shl
  | .shr => some .shr
  | _ => none

def isLogical : CBinaryOp → Bool
  | .logicalAnd | .logicalOr => true
  | _ => false

def unaryType (op : CUnaryOp) (inner : CType) : CType × Option LowerError :=
  match op, inner with
  | _, .bottom => (.bottom, none)
  | .neg, .bv width sign | .bitNot, .bv width sign => (.bv width sign, none)
  | .neg, other => (.bottom, some (.nonBvBitwise "-" other))
  | .bitNot, other => (.bottom, some (.nonBvBitwise "~" other))
  | .logicalNot, .bool => (.bool, none)
  | .logicalNot, other => (.bottom, some (.nonBoolLogical "!" other))

def finishUnary (op : UnaryOp) (inner : CTypedExpr) : CTypedExpr × Option LowerError :=
  let cop := lowerUnaryOp op
  let inner := if cop = .logicalNot then coerceFlagToBool inner else inner
  let ty := unaryType cop inner.ty
  (.unary cop inner ty.1, ty.2)

/-- An exact value that a signed 128-bit number can hold. -/
def checked (n : Int) : Option Int :=
  if -2 ^ 127 ≤ n ∧ n < 2 ^ 127 then some n else none

def literalValue : CTypedExpr → Option Int
  | .bvLit value _ => checked value.toNat
  | .unary .neg e _ => (literalValue e).bind fun n => checked (-n)
  | .unary .bitNot e _ => (literalValue e).map fun n => -n - 1
  | .binary op lhs rhs _ =>
      (literalValue lhs).bind fun a => (literalValue rhs).bind fun b =>
        match op with
        | .add => checked (a + b)
        | .sub => checked (a - b)
        | .mul => checked (a * b)
        | _ => none
  | _ => none

def isUntypedLiteral : CTypedExpr → Bool
  | .bvLit _ _ => true
  | .unary .neg e _ | .unary .bitNot e _ => isUntypedLiteral e
  | .binary op lhs rhs _ =>
      match op with
      | .add | .sub | .mul | .div | .mod | .bitAnd | .bitOr | .bitXor | .shl | .shr =>
          isUntypedLiteral lhs && isUntypedLiteral rhs
      | _ => false
  | _ => false

def isNegative (e : CTypedExpr) : Bool :=
  match literalValue e with
  | some n => n < 0
  | none => false

/-- The signedness pair of two operands whose signedness is declared and differs. -/
def declaredSignMix (lhs rhs : CTypedExpr) (ls rs : Sign) : Option (Sign × Sign) :=
  let lLit := isUntypedLiteral lhs
  let rLit := isUntypedLiteral rhs
  if !lLit && !rLit then if ls ≠ rs then some (ls, rs) else none
  else if (lLit && !rLit && isNegative lhs) = true ∧ rs = .unsigned then some (.signed, rs)
  else if (rLit && !lLit && isNegative rhs) = true ∧ ls = .unsigned then some (ls, .signed)
  else none

/-- The operands of an operator that takes two bit-vectors. -/
def bvOperands (op : CBinaryOp) (lhs rhs : CType) :
    Except LowerError ((Nat × Sign) × (Nat × Sign)) :=
  match lhs.asBv with
  | none => .error (.nonBvBitwise op.display lhs)
  | some l =>
      match rhs.asBv with
      | none => .error (.nonBvBitwise op.display rhs)
      | some r => .ok (l, r)

def arithmeticType (op : CBinaryOp) (lhs rhs : CTypedExpr) : CType × Option LowerError :=
  match bvOperands op lhs.ty rhs.ty with
  | .error e => (.bottom, some e)
  | .ok ((lw, ls), (rw, rs)) =>
      match declaredSignMix lhs rhs ls rs with
      | some (l, r) => (.bottom, some (.signednessMismatch op.display l r true))
      | none =>
          if lw ≠ rw ∨ ls ≠ rs then
            (.bv (max lw rw) (if isUntypedLiteral lhs then rs else ls),
              some (if lw ≠ rw then .widthMismatch op.display lw rw
                else .signednessMismatch op.display ls rs false))
          else (.bv lw ls, none)

def compareBvType (op : CBinaryOp) (lhs rhs : CTypedExpr) : CType × Option LowerError :=
  match bvOperands op lhs.ty rhs.ty with
  | .error e => (.bottom, some e)
  | .ok ((lw, ls), (rw, rs)) =>
      match declaredSignMix lhs rhs ls rs with
      | some (l, r) => (.bottom, some (.signednessMismatch op.display l r true))
      | none =>
          if lw ≠ rw then (.bool, some (.widthMismatch op.display lw rw))
          else if ls ≠ rs then (.bool, some (.signednessMismatch op.display ls rs false))
          else (.bool, none)

/-- Equality also compares two truth values, and two variants of one enum. -/
def equalityType (op : CBinaryOp) (lhs rhs : CTypedExpr) : CType × Option LowerError :=
  match lhs.ty, rhs.ty with
  | .bool, .bool => (.bool, none)
  | .enum d₁, .enum d₂ =>
      if d₁ = d₂ then (.bool, none)
      else (.bottom, some (.signednessMismatch op.display .unsigned .unsigned false))
  | _, _ => compareBvType op lhs rhs

def logicalType (op : CBinaryOp) (lhs rhs : CType) : CType × Option LowerError :=
  if lhs ≠ .bool then (.bottom, some (.nonBoolLogical op.display lhs))
  else if rhs ≠ .bool then (.bottom, some (.nonBoolLogical op.display rhs))
  else (.bool, none)

def shiftType (op : CBinaryOp) (lhs rhs : CType) : CType × Option LowerError :=
  match lhs.asBv with
  | none => (.bottom, some (.nonBvBitwise op.display lhs))
  | some (lw, ls) =>
      match rhs.asBv with
      | some (_, .unsigned) => (.bv lw ls, none)
      | _ => (.bottom, some (.badShiftAmount rhs))

def typeCheckBinary (op : CBinaryOp) (lhs rhs : CTypedExpr) : CType × Option LowerError :=
  if lhs.ty = .bottom ∨ rhs.ty = .bottom then (.bottom, none)
  else
    match op with
    | .add | .sub | .mul | .div | .mod | .bitAnd | .bitOr | .bitXor => arithmeticType op lhs rhs
    | .eq | .ne => equalityType op lhs rhs
    | .lt | .le | .gt | .ge => compareBvType op lhs rhs
    | .logicalAnd | .logicalOr => logicalType op lhs.ty rhs.ty
    | .shl | .shr => shiftType op lhs.ty rhs.ty

/-- A literal operand takes the type of the other one; the error is that of the
literal. -/
def adaptOperands (lhs rhs : CTypedExpr) :
    CTypedExpr × CTypedExpr × Option LowerError :=
  match isBvLit lhs, isBvLit rhs, lhs.ty.asBv, rhs.ty.asBv with
  | true, false, _, some (w, s) =>
      let l := coerceLiteral lhs (.bv w s)
      (l.1, rhs, l.2)
  | false, true, some (w, s), _ =>
      let r := coerceLiteral rhs (.bv w s)
      (lhs, r.1, r.2)
  | _, _, _, _ => (lhs, rhs, none)

def binaryOperands (op : CBinaryOp) (lhs rhs : CTypedExpr) :
    CTypedExpr × CTypedExpr × Option LowerError :=
  if isLogical op then (coerceFlagToBool lhs, coerceFlagToBool rhs, none)
  else adaptOperands lhs rhs

def finishBinary (op : CBinaryOp) (lhs rhs : CTypedExpr) (st : LowerState) :
    CTypedExpr × LowerState :=
  let operands := binaryOperands op lhs rhs
  let ty := typeCheckBinary op operands.1 operands.2.1
  (.binary op operands.1 operands.2.1 ty.1, (st.report operands.2.2).report ty.2)

/-! ### Sets, ranges and clauses -/

def membershipType (elem rhs : CType) : CType × Option LowerError :=
  match rhs with
  | .set e | .range e =>
      if e ≠ elem ∧ elem ≠ .bottom then (.bottom, some (.setElemTypeMismatch e elem))
      else (.bool, none)
  | .bottom => (.bottom, none)
  | other => (.bottom, some (.inRhsNotSetOrRange other))

/-- The hint that an element gives to a set or range literal. -/
def membershipHint (elem : CType) : Option CType :=
  if elem.isBv then some elem else none

/-- The type of the first item that is no literal, else that of the first one. -/
def setElemType (items : List CTypedExpr) : CType :=
  match items.find? fun e => decide (e.ty ≠ .bottom) && !isBvLit e with
  | some e => e.ty
  | none =>
      match items with
      | e :: _ => e.ty
      | [] => .bottom

def adaptItems (elem : CType) : List CTypedExpr → LowerState → List CTypedExpr × LowerState
  | [], st => ([], st)
  | e :: es, st =>
      let f := adaptLiteral e elem
      let fs := adaptItems elem es (st.report f.2)
      (f.1 :: fs.1, fs.2)

def finishSet (items : List CTypedExpr) (st : LowerState) : CTypedExpr × LowerState :=
  let elem := setElemType items
  let adapted := if elem.isBv then adaptItems elem items st else (items, st)
  (.set adapted.1 (.set elem), adapted.2)

/-- A hinted set has the type of its hint. -/
def finishSetLit : Option CType → List CTypedExpr → LowerState → CTypedExpr × LowerState
  | some elem, items, st => (.set items (.set elem), st)
  | none, items, st => finishSet items st

def rangeElemType (lo hi : Option CTypedExpr) : CType :=
  match lo with
  | some l => if l.ty ≠ .bottom then l.ty else
      match hi with
      | some h => h.ty
      | none => .bottom
  | none =>
      match hi with
      | some h => h.ty
      | none => .bottom

/-- The same expression without a type. -/
def untyped : CTypedExpr → CTypedExpr
  | .bvLit value _ => .bvLit value .bottom
  | .boolLit value _ => .boolLit value .bottom
  | .enumLit domain idx _ => .enumLit domain idx .bottom
  | .fieldRef path _ => .fieldRef path .bottom
  | .localRef id _ => .localRef id .bottom
  | .unary op e _ => .unary op e .bottom
  | .binary op lhs rhs _ => .binary op lhs rhs .bottom
  | .inSet e set _ => .inSet e set .bottom
  | .inRange e lo hi _ => .inRange e lo hi .bottom
  | .set items _ => .set items .bottom
  | .range lo hi _ => .range lo hi .bottom
  | .fieldMethodCall target method args _ => .fieldMethodCall target method args .bottom
  | .forAll var iter body _ => .forAll var iter body .bottom

/-- A clause is a truth value; a flag of one bit counts as one. -/
def finishClause (e : CTypedExpr) : CTypedExpr × Option LowerError :=
  let e := coerceFlagToBool e
  if e.ty ≠ .bool ∧ e.ty ≠ .bottom then
    (untyped e, some (.nonBoolLogical "clause" e.ty))
  else (e, none)

def andJoinTyped : List CTypedExpr → CTypedExpr
  | [] => .boolLit true .bool
  | e :: es =>
      es.foldl
        (fun acc next => .binary .logicalAnd acc next
          (if acc.ty = .bool ∧ next.ty = .bool then .bool else .bottom)) e

def finishMethod (method : String) (target : CTypedExpr) (args : List CTypedExpr) :
    CTypedExpr × Option LowerError :=
  if method = "len" then
    match target.ty with
    | .list _ _ =>
        (.fieldMethodCall target .len args (.uint 32),
          if args.isEmpty then none else some (.unsupportedV1 "len() arguments"))
    | _ =>
        (.fieldMethodCall target .len args .bottom,
          some (.unsupportedV1 "len() on non-list field"))
  else (.boolLit false .bottom, some (.unsupportedV1 "field method"))

/-! ### Expressions -/

section Lower

variable (ctx : LowerCtx)
  (onCall : String → List CallArg → LowerState → CTypedExpr × LowerState)

mutual

/-- The hint is the element type that a membership test gives to a set or range literal
on its right. -/
def lowerExpr : Option CType → Expr → LowerState → CTypedExpr × LowerState
  | _, .paren inner, st => lowerExpr none inner st
  | _, .int text, st =>
      match parseIntLiteral text with
      | some value => (.bvLit value (.uint (defaultUnsignedWidth value)), st)
      | none => (.bvLit 0 .bottom, st.recordError (.intParseFailed text))
  | _, .bool value, st => (.boolLit value .bool, st)
  | _, .ident name, st => lowerIdent ctx name st
  | _, .field target name, st => lowerFieldAccess ctx target name st
  | _, .unary op expr, st =>
      let inner := lowerExpr none expr st
      let out := finishUnary op inner.1
      (out.1, inner.2.report out.2)
  | _, .binary op lhs rhs, st =>
      if op = .in ∨ op = .inside then
        let elem := lowerExpr none lhs st
        let set := lowerExpr (membershipHint elem.1.ty) rhs elem.2
        let ty := membershipType elem.1.ty set.1.ty
        (.inSet elem.1 set.1 ty.1, set.2.report ty.2)
      else
        match mapBinaryOp op with
        | none =>
            (.boolLit false .bottom, st.recordError
              (.unsupportedV1 "binary operator not supported in v1 constraints"))
        | some cop =>
            let l := lowerExpr none lhs st
            let r := lowerExpr none rhs l.2
            finishBinary cop l.1 r.1 r.2
  | _, .membership lhs rhs, st =>
      let elem := lowerExpr none lhs st
      let set := lowerExpr (membershipHint elem.1.ty) rhs elem.2
      let ty := membershipType elem.1.ty set.1.ty
      (.inSet elem.1 set.1 ty.1, set.2.report ty.2)
  | hint, .rangeLit lo hi, st =>
      let l := lowerBound hint lo st
      let h := lowerBound hint hi l.2
      (.range l.1 h.1 (.range (hint.getD (rangeElemType l.1 h.1))), h.2)
  | hint, .setLit items, st =>
      let is := lowerItems hint items st
      finishSetLit hint is.1 is.2
  | _, .string _, st =>
      (.boolLit false .bottom, st.recordError (.disallowedInConstraint "string literal"))
  | _, .number _, st =>
      (.bvLit 0 .bottom,
        st.recordError (.disallowedInConstraint "non-integer numeric literal"))
  | _, .call (.field target name) args, st =>
      let t := lowerExpr none target st
      let as := lowerArgs args t.2
      let out := finishMethod name t.1 as.1
      (out.1, as.2.report out.2)
  | _, .call (.ident name) args, st => onCall name args st
  | _, .call _ _, st =>
      (.boolLit false .bottom, st.recordError (.unsupportedV1 "constraint call callee"))
  | _, .forEachConstraint var iter body, st =>
      let i := lowerExpr none iter st
      match iterableElemType i.1.ty with
      | none =>
          (.forAll i.2.nextLocalId i.1
              (.boolLit false (if i.1.ty = .bottom then .bottom else .bool)) .bottom,
            { i.2.recordError
                (.unsupportedV1 "foreach over non-iterable constraint expression") with
              nextLocalId := i.2.nextLocalId + 1 })
      | some elem =>
          let bs := lowerClauses body (i.2.enterLoop var elem)
          (.forAll i.2.nextLocalId i.1 (andJoinTyped bs.1) .bool, i.2.leaveLoop bs.2 var)
  | _, .implicitSelf, st | _, .index _ _, st | _, .bitSlice _ _ _, st | _, .cast _ _, st
  | _, .ternary _ _ _, st | _, .other _, st =>
      (.boolLit false .bottom, st.recordError (.disallowedInConstraint "expression form"))

/-- The items of a literal, each adapted to the hint. -/
def lowerItems : Option CType → List Expr → LowerState → List CTypedExpr × LowerState
  | _, [], st => ([], st)
  | hint, e :: es, st =>
      let f := lowerExpr none e st
      let g := adaptTo hint f.1
      let fs := lowerItems hint es (f.2.report g.2)
      (g.1 :: fs.1, fs.2)

def lowerBound : Option CType → Option Expr → LowerState → Option CTypedExpr × LowerState
  | _, none, st => (none, st)
  | hint, some e, st =>
      let f := lowerExpr none e st
      let g := adaptTo hint f.1
      (some g.1, f.2.report g.2)

def lowerArgs : List CallArg → LowerState → List CTypedExpr × LowerState
  | [], st => ([], st)
  | .expr value :: args, st =>
      let v := lowerExpr none value st
      let as := lowerArgs args v.2
      (v.1 :: as.1, as.2)
  | .named _ value :: args, st =>
      let v := lowerExpr none value st
      let as := lowerArgs args v.2
      (v.1 :: as.1, as.2)

/-- The clauses of a loop. -/
def lowerClauses : List Expr → LowerState → List CTypedExpr × LowerState
  | [], st => ([], st)
  | e :: es, st =>
      let f := lowerExpr none e st
      let g := finishClause f.1
      let fs := lowerClauses es (f.2.report g.2)
      (g.1 :: fs.1, fs.2)

end

end Lower

/-- A call by name is expanded, and its expansion lowered.  The number bounds how often an
expansion can hold another call. -/
def lowerCall (ctx : LowerCtx) :
    Nat → String → List CallArg → LowerState → CTypedExpr × LowerState
  | 0, _, _, st => (.boolLit false .bottom, { st with exhausted := true })
  | fuel + 1, name, args, st =>
      let out := expandRelationCallAsExpr
        (expandTopLevelRelationCall ctx.schemas.relations relationExpansionMaxDepth [])
        name args st.expand
      lowerExpr ctx (lowerCall ctx fuel) none out.1 { st with expand := out.2 }

/-! ### Problems -/

section Problem

variable (ctx : LowerCtx) (fuel : Nat)

def lowerTopClause (e : Expr) (st : LowerState) : CTypedExpr × LowerState :=
  let f := lowerExpr ctx (lowerCall ctx fuel) none e st
  let g := finishClause f.1
  (g.1, f.2.report g.2)

def mintClauseName (st : LowerState) : String × LowerState :=
  ("c_" ++ natText st.nextClauseSeq, { st with nextClauseSeq := st.nextClauseSeq + 1 })

/-- A clause that holds where its guard does. -/
def applyGuard (e : CTypedExpr) : Option CTypedExpr → CTypedExpr
  | none => e
  | some guard =>
      let notGuard : CTypedExpr :=
        .unary .logicalNot guard (if guard.ty = .bool then .bool else .bottom)
      .binary .logicalOr notGuard e
        (if notGuard.ty = .bool ∧ e.ty = .bool then .bool else .bottom)

def lowerExpanded (guard : Option CTypedExpr) :
    List Expr → LowerState → List CTypedClause × LowerState
  | [], st => ([], st)
  | e :: es, st =>
      if st.shouldStop then ([], st)
      else
        let f := lowerTopClause ctx fuel e st
        let n := mintClauseName f.2
        let fs := lowerExpanded guard es n.2
        (⟨applyGuard f.1 guard, n.1⟩ :: fs.1, fs.2)

/-- A constraint, expanded first. -/
def lowerConstraint (guard : Option CTypedExpr) (e : Expr) (st : LowerState) :
    List CTypedClause × LowerState :=
  let out := expandTopLevelClause ctx.schemas.relations e st.expand
  lowerExpanded ctx fuel guard out.1 { st with expand := out.2 }

def lowerKeeps (guard : Option CTypedExpr) :
    List Expr → LowerState → List CTypedClause × LowerState
  | [], st => ([], st)
  | e :: es, st =>
      if st.shouldStop then ([], st)
      else
        let f := lowerConstraint ctx fuel guard e st
        let fs := lowerKeeps guard es f.2
        (f.1 ++ fs.1, fs.2)

/-- The weight of a soft constraint. -/
def softWeight : Option Expr → Nat × Option LowerError
  | none => (1, none)
  | some (.int text) =>
      match parseIntLiteral text with
      | some v =>
          if v = 0 ∨ 2 ^ 32 ≤ v.toNat then (1, some .badSoftWeight) else (v.toNat, none)
      | none => (1, some .badSoftWeight)
  | some _ => (1, some .badSoftWeight)

def solveOrderFieldPath (e : Expr) (st : LowerState) : Option FieldPath × LowerState :=
  match collectDotted e with
  | none => (none, st)
  | some full =>
      if (ctx.env.lookup full).isSome then (some full, st)
      else if 2 ≤ full.length ∧ (ctx.env.lookup (full.drop 1)).isSome = true then
        (some (full.drop 1), st)
      else (none, st.recordError (.fieldNotFound (FieldPath.dotted full)))

def solveOrderFields : List Expr → LowerState → List FieldPath × LowerState
  | [], st => ([], st)
  | e :: es, st =>
      let f := solveOrderFieldPath ctx e st
      match f.1 with
      | some path =>
          let fs := solveOrderFields es f.2
          (path :: fs.1, fs.2)
      | none => solveOrderFields es (f.2.recordError (.unsupportedV1 "solve_order argument"))

def mergeSolveOrder (args : List Expr) (order : Option (List FieldPath)) (st : LowerState) :
    Option (List FieldPath) × LowerState :=
  if args.length < 2 then
    (order, st.recordError (.unsupportedV1 "solve_order with fewer than two fields"))
  else
    let fields := solveOrderFields ctx args st
    (if fields.1 = [] then order else some (order.getD [] ++ fields.1), fields.2)

/-- An entry of the body of a randomize call. -/
inductive BodyItem where
  | solveOrder (args : List Expr)
  | soft (weight : Option Expr) (expr : Expr)
  | clause (expr : Expr)

/-- What lowering has made so far. -/
structure Lowered where
  clauses : List CTypedClause
  softClauses : List CTypedSoftClause
  solveOrder : Option (List FieldPath)

def lowerBodyItem (item : BodyItem) (out : Lowered) (st : LowerState) : Lowered × LowerState :=
  match item with
  | .solveOrder args =>
      let order := mergeSolveOrder ctx args out.solveOrder st
      ({ out with solveOrder := order.1 }, order.2)
  | .soft weight e =>
      let w := softWeight weight
      let cs := lowerConstraint ctx fuel none e (st.report w.2)
      ({ out with softClauses :=
          out.softClauses ++ cs.1.map fun c => ⟨c.expr, c.assertionName, w.1⟩ }, cs.2)
  | .clause e =>
      let cs := lowerConstraint ctx fuel none e st
      ({ out with clauses := out.clauses ++ cs.1 }, cs.2)

def lowerBody : List BodyItem → Lowered → LowerState → Lowered × LowerState
  | [], out, st => (out, st)
  | item :: items, out, st =>
      if st.shouldStop then (out, st)
      else
        let f := lowerBodyItem ctx fuel item out st
        lowerBody items f.1 f.2

/-- The clause of a range attribute. -/
def lowerRangeAttr (field : TxnField) (ty : CType) (guard : Option CTypedExpr) (lo hi : Expr)
    (st : LowerState) : CTypedClause × LowerState :=
  let l := lowerExpr ctx (lowerCall ctx fuel) none lo st
  let h := lowerExpr ctx (lowerCall ctx fuel) none hi l.2
  let cl := coerceExprToBvHint l.1 ty
  let ch := coerceExprToBvHint h.1 ty
  let n := mintClauseName ((h.2.report cl.2).report ch.2)
  (⟨applyGuard (.inRange (.fieldRef field.path ty) (some cl.1) (some ch.1) .bool) guard, n.1⟩,
    n.2)

def lowerAttrs (field : TxnField) (ty : CType) (guard : Option CTypedExpr) :
    List FieldAttr → LowerState → List CTypedClause × LowerState
  | [], st => ([], st)
  | attr :: attrs, st =>
      if attr.name ≠ "range" then lowerAttrs field ty guard attrs st
      else
        match attr.args with
        | .expr lo :: .expr hi :: _ =>
            let c := lowerRangeAttr ctx fuel field ty guard lo hi st
            let cs := lowerAttrs field ty guard attrs c.2
            (c.1 :: cs.1, cs.2)
        | _ =>
            lowerAttrs field ty guard attrs
              (st.recordError (.unsupportedV1 "range attribute arguments"))

def lowerFieldAttrConstraints (field : TxnField) (guard : Option CTypedExpr) (st : LowerState) :
    List CTypedClause × LowerState :=
  match ctx.env.lookup field.path with
  | none => ([], st)
  | some info =>
      if info.ty.isBv then lowerAttrs ctx fuel field info.ty guard field.attrs st else ([], st)

def lowerAllFieldAttrs (guard : Option CTypedExpr) :
    List TxnField → LowerState → List CTypedClause × LowerState
  | [], st => ([], st)
  | field :: fields, st =>
      if st.shouldStop then ([], st)
      else
        let c := lowerFieldAttrConstraints ctx fuel field guard st
        let cs := lowerAllFieldAttrs guard fields c.2
        (c.1 ++ cs.1, cs.2)

/-- The guard of the clauses of a subtype. -/
def whenGuard (parent : Option CTypedExpr) (disc : CTypedExpr) : CTypedExpr :=
  match parent with
  | some p => andJoinTyped [p, disc]
  | none => disc

mutual

def lowerWhenSubtype :
    WhenSubtype → Option CTypedExpr → LowerState → List CTypedClause × LowerState
  | .mk discriminant fields keeps whenSubtypes, parent, st =>
      let disc := lowerTopClause ctx fuel discriminant st
      let guard := whenGuard parent disc.1
      let ks := lowerKeeps ctx fuel (some guard) keeps disc.2
      let fs := lowerAllFieldAttrs ctx fuel (some guard) fields ks.2
      let ws := lowerWhenSubtypes whenSubtypes (some guard) fs.2
      (ks.1 ++ fs.1 ++ ws.1, ws.2)

def lowerWhenSubtypes :
    List WhenSubtype → Option CTypedExpr → LowerState → List CTypedClause × LowerState
  | [], _, st => ([], st)
  | w :: ws, parent, st =>
      if st.shouldStop then ([], st)
      else
        let f := lowerWhenSubtype w parent st
        let fs := lowerWhenSubtypes ws parent f.2
        (f.1 ++ fs.1, fs.2)

end

/-- The problem of a randomize call, or the errors of its lowering; none if it does not
come to an end. -/
def lowerProblem (body : List BodyItem) : Option (Except (List LowerError) CTypedProblem) :=
  let keeps := lowerKeeps ctx fuel none ctx.target.keeps .init
  let b := lowerBody ctx fuel body ⟨keeps.1, [], none⟩ keeps.2
  let attrs := lowerAllFieldAttrs ctx fuel none ctx.target.fields b.2
  let whens := lowerWhenSubtypes ctx fuel ctx.target.whenSubtypes none attrs.2
  if whens.2.exhausted then none
  else if whens.2.errors = [] then
    some (.ok ⟨ctx.env, b.1.clauses ++ attrs.1 ++ whens.1, b.1.softClauses, b.1.solveOrder⟩)
  else some (.error whens.2.errors)

end Problem

end Harc.TypedLowering
