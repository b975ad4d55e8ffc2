import Harc.SmtScript

/-!
The typed constraint IR (`constraints/typed.rs`) and its verifier
(`constraints/typed_verify.rs`), the trust boundary between typed lowering and the
solver backends.  Source spans are left out.
-/

namespace Harc.TypedConstraint

open Harc.SmtScript (natText)

abbrev FieldPath := List String

def FieldPath.dotted (path : FieldPath) : String :=
  ".".intercalate path

inductive Sign where
  | unsigned
  | signed
deriving DecidableEq, Repr

inductive CType where
  | bv (width : Nat) (sign : Sign)
  | bool
  | enum (domain : Nat)
  | range (elem : CType)
  | set (elem : CType)
  | list (elem : CType) (maxLen : Option Nat)
  | bottom
deriving DecidableEq, Repr

namespace CType

def uint (width : Nat) : CType := .bv width .unsigned

def sint (width : Nat) : CType := .bv width .signed

def isBv : CType → Bool
  | .bv _ _ => true
  | _ => false

def asBv : CType → Option (Nat × Sign)
  | .bv width sign => some (width, sign)
  | _ => none

def display : CType → String
  | .bv width sign => (match sign with | .unsigned => "u" | .signed => "s") ++ natText width
  | .bool => "bool"
  | .enum domain => "enum#" ++ natText domain
  | .range elem => "range<" ++ elem.display ++ ">"
  | .set elem => "set<" ++ elem.display ++ ">"
  | .list elem (some n) => "list<" ++ elem.display ++ ", max=" ++ natText n ++ ">"
  | .list elem none => "list<" ++ elem.display ++ ">"
  | .bottom => "⊥"

end CType

inductive CUnaryOp where
  | neg
  | logicalNot
  | bitNot
deriving DecidableEq, Repr

inductive CBinaryOp where
  | add | sub | mul | div | mod
  | eq | ne | lt | le | gt | ge
  | logicalAnd | logicalOr
  | bitAnd | bitOr | bitXor
  | shl | shr
deriving DecidableEq, Repr

def CUnaryOp.display : CUnaryOp → String
  | .neg => "-"
  | .logicalNot => "!"
  | .bitNot => "~"

def CBinaryOp.display : CBinaryOp → String
  | .add => "+"
  | .sub => "-"
  | .mul => "*"
  | .div => "/"
  | .mod => "%"
  | .eq => "=="
  | .ne => "!="
  | .lt => "<"
  | .le => "<="
  | .gt => ">"
  | .ge => ">="
  | .logicalAnd => "&&"
  | .logicalOr => "||"
  | .bitAnd => "&"
  | .bitOr => "|"
  | .bitXor => "^"
  | .shl => "<<"
  | .shr => ">>"

inductive BuiltinMethod where
  | len
deriving DecidableEq, Repr

/-- An expression with its resolved type.  A literal is an unsigned 128-bit number. -/
inductive CTypedExpr where
  | bvLit (value : BitVec 128) (ty : CType)
  | boolLit (value : Bool) (ty : CType)
  | enumLit (domain variantIdx : Nat) (ty : CType)
  | fieldRef (path : FieldPath) (ty : CType)
  | localRef (id : Nat) (ty : CType)
  | unary (op : CUnaryOp) (expr : CTypedExpr) (ty : CType)
  | binary (op : CBinaryOp) (lhs rhs : CTypedExpr) (ty : CType)
  | inSet (expr set : CTypedExpr) (ty : CType)
  | inRange (expr : CTypedExpr) (lo hi : Option CTypedExpr) (ty : CType)
  | set (items : List CTypedExpr) (ty : CType)
  | range (lo hi : Option CTypedExpr) (ty : CType)
  | fieldMethodCall (target : CTypedExpr) (method : BuiltinMethod) (args : List CTypedExpr)
      (ty : CType)
  | forAll (var : Nat) (iter body : CTypedExpr) (ty : CType)

def CTypedExpr.ty : CTypedExpr → CType
  | .bvLit _ ty | .boolLit _ ty | .enumLit _ _ ty | .fieldRef _ ty | .localRef _ ty
  | .unary _ _ ty | .binary _ _ _ ty | .inSet _ _ ty | .inRange _ _ _ ty | .set _ ty
  | .range _ _ ty | .fieldMethodCall _ _ _ ty | .forAll _ _ _ ty => ty

section

variable (e f : CTypedExpr) (lo hi : Option CTypedExpr) (es : List CTypedExpr) (ty : CType)

@[simp] theorem CTypedExpr.ty_bvLit (v : BitVec 128) : (CTypedExpr.bvLit v ty).ty = ty := rfl

@[simp] theorem CTypedExpr.ty_boolLit (b : Bool) : (CTypedExpr.boolLit b ty).ty = ty := rfl

@[simp] theorem CTypedExpr.ty_enumLit (d i : Nat) : (CTypedExpr.enumLit d i ty).ty = ty := rfl

@[simp] theorem CTypedExpr.ty_fieldRef (p : FieldPath) : (CTypedExpr.fieldRef p ty).ty = ty := rfl

@[simp] theorem CTypedExpr.ty_localRef (i : Nat) : (CTypedExpr.localRef i ty).ty = ty := rfl

@[simp] theorem CTypedExpr.ty_unary (op : CUnaryOp) : (CTypedExpr.unary op e ty).ty = ty := rfl

@[simp] theorem CTypedExpr.ty_binary (op : CBinaryOp) :
    (CTypedExpr.binary op e f ty).ty = ty := rfl

@[simp] theorem CTypedExpr.ty_inSet : (CTypedExpr.inSet e f ty).ty = ty := rfl

@[simp] theorem CTypedExpr.ty_inRange : (CTypedExpr.inRange e lo hi ty).ty = ty := rfl

@[simp] theorem CTypedExpr.ty_set : (CTypedExpr.set es ty).ty = ty := rfl

@[simp] theorem CTypedExpr.ty_range : (CTypedExpr.range lo hi ty).ty = ty := rfl

@[simp] theorem CTypedExpr.ty_fieldMethodCall (m : BuiltinMethod) :
    (CTypedExpr.fieldMethodCall e m es ty).ty = ty := rfl

@[simp] theorem CTypedExpr.ty_forAll (v : Nat) : (CTypedExpr.forAll v e f ty).ty = ty := rfl

end

mutual

def CTypedExpr.display : CTypedExpr → String
  | .bvLit value ty => natText value.toNat ++ ":" ++ ty.display
  | .boolLit value ty => (if value then "true" else "false") ++ ":" ++ ty.display
  | .enumLit domain variantIdx ty =>
      "enum#" ++ natText domain ++ "." ++ natText variantIdx ++ ":" ++ ty.display
  | .fieldRef path ty => path.dotted ++ ":" ++ ty.display
  | .localRef id ty => "%" ++ natText id ++ ":" ++ ty.display
  | .unary op expr ty => "(" ++ op.display ++ expr.display ++ "):" ++ ty.display
  | .binary op lhs rhs ty =>
      "(" ++ lhs.display ++ " " ++ op.display ++ " " ++ rhs.display ++ "):" ++ ty.display
  | .inSet expr set ty => "(" ++ expr.display ++ " in " ++ set.display ++ "):" ++ ty.display
  | .inRange expr lo hi ty =>
      "(" ++ expr.display ++ " in [" ++ boundDisplay lo ++ ".." ++ boundDisplay hi ++ "]):" ++
        ty.display
  | .set items ty => "\x7b" ++ itemsDisplay items ++ "\x7d:" ++ ty.display
  | .range lo hi ty => "[" ++ boundDisplay lo ++ ".." ++ boundDisplay hi ++ "]:" ++ ty.display
  | .fieldMethodCall target .len args ty =>
      target.display ++ ".len(" ++ itemsDisplay args ++ "):" ++ ty.display
  | .forAll var iter body ty =>
      "(forall %" ++ natText var ++ " in " ++ iter.display ++ ": " ++ body.display ++ "):" ++
        ty.display

def itemsDisplay : List CTypedExpr → String
  | [] => ""
  | [e] => e.display
  | e :: f :: es => e.display ++ ", " ++ itemsDisplay (f :: es)

def boundDisplay : Option CTypedExpr → String
  | none => ""
  | some e => e.display

end

structure FieldInfo where
  ty : CType
  nonRandom : Bool
deriving DecidableEq

structure EnumDomainEntry where
  id : Nat
  name : String
  variants : List String
deriving DecidableEq

/-- The fields of a problem, one entry for each path. -/
structure FieldEnv where
  fields : List (FieldPath × FieldInfo)
  enums : List EnumDomainEntry
  nodup : (fields.map Prod.fst).Nodup

def FieldEnv.lookup (env : FieldEnv) (path : FieldPath) : Option FieldInfo :=
  (env.fields.find? fun entry => entry.1 == path).map Prod.snd

def FieldEnv.enumById (env : FieldEnv) (id : Nat) : Option EnumDomainEntry :=
  env.enums.find? fun entry => entry.id == id

structure CTypedClause where
  expr : CTypedExpr
  assertionName : String

structure CTypedSoftClause where
  expr : CTypedExpr
  assertionName : String
  weight : Nat

structure CTypedProblem where
  env : FieldEnv
  constraints : List CTypedClause
  softConstraints : List CTypedSoftClause
  solveOrder : Option (List FieldPath)

/-! ### The verifier -/

inductive VerifyError where
  | bottomType
  | typeMismatch (context : String) (expected found : CType)
  | fieldNotInEnv (path : FieldPath)
  | fieldTypeMismatch (path : FieldPath) (expected found : CType)
  | enumDomainNotFound (domain : Nat)
  | enumVariantOutOfRange (domain variantIdx : Nat)
  | clauseNotBool (assertionName : String) (found : CType)
  | unaryOperandType (op : CUnaryOp) (expected : String) (found : CType)
  | binaryOperandType (op : CBinaryOp) (expected : String) (lhs rhs : CType)
  | binaryWidthMismatch (op : CBinaryOp) (lhsWidth rhsWidth : Nat)
  | binarySignMismatch (op : CBinaryOp) (lhsSign rhsSign : Sign)
  | setElemTypeMismatch (expected found : CType)
  | membershipRhsType (found : CType)
  | localNotInScope (id : Nat)
  | localTypeMismatch (id : Nat) (expected found : CType)
  | solveOrderFieldNotFound (path : FieldPath)
  | duplicateSolveOrderField (path : FieldPath)
  | emptyAssertionName
deriving DecidableEq

def maxVerifyErrors : Nat := 16

def iterableElemType : CType → Option CType
  | .set elem | .range elem | .list elem _ => some elem
  | _ => none

def literalExceedsWidth (value : BitVec 128) (width : Nat) : Bool :=
  if 128 ≤ width then false else decide (2 ^ width - 1 < value.toNat)

def expectType (context : String) (expected found : CType) : List VerifyError :=
  if found ≠ expected then [.typeMismatch context expected found] else []

def expectMatchingBv (op : CBinaryOp) (lhs rhs : CType) :
    Except (List VerifyError) (Nat × Sign) :=
  match lhs.asBv with
  | none => .error [.binaryOperandType op "bit-vector lhs" lhs rhs]
  | some (lw, ls) =>
      match rhs.asBv with
      | none => .error [.binaryOperandType op "bit-vector rhs" lhs rhs]
      | some (rw, rs) =>
          if lw ≠ rw then .error [.binaryWidthMismatch op lw rw]
          else if ls ≠ rs then .error [.binarySignMismatch op ls rs]
          else .ok (lw, ls)

section Verifier

variable (env : FieldEnv)

def checkTypeConcrete : CType → List VerifyError
  | .bottom => [.bottomType]
  | .bv width sign =>
      if width = 0 then
        [.typeMismatch "zero-width bit-vector" (.uint 1) (.bv width sign)]
      else []
  | .range elem | .set elem | .list elem _ => checkTypeConcrete elem
  | .enum domain => if (env.enumById domain).isNone then [.enumDomainNotFound domain] else []
  | .bool => []

def verifyEnumLit (domain variantIdx : Nat) (ty : CType) : List VerifyError :=
  (if ty = .enum domain then []
    else [.typeMismatch "enum literal" (.enum domain) ty]) ++
  match env.enumById domain with
  | none => [.enumDomainNotFound domain]
  | some entry =>
      if entry.variants.length ≤ variantIdx then [.enumVariantOutOfRange domain variantIdx]
      else []

def verifyFieldRef (path : FieldPath) (ty : CType) : List VerifyError :=
  match env.lookup path with
  | none => [.fieldNotInEnv path]
  | some info => if info.ty ≠ ty then [.fieldTypeMismatch path info.ty ty] else []

def verifyUnary (op : CUnaryOp) (inner ty : CType) : List VerifyError :=
  match op with
  | .neg | .bitNot =>
      (if inner.isBv then [] else [.unaryOperandType op "bit-vector" inner]) ++
        expectType "unary result" inner ty
  | .logicalNot =>
      (if inner ≠ .bool then [.unaryOperandType op "bool" inner] else []) ++
        expectType "logical-not result" .bool ty

def errorsOf (r : Except (List VerifyError) (Nat × Sign)) : List VerifyError :=
  match r with
  | .error es => es
  | .ok _ => []

def verifyEquality (op : CBinaryOp) (lhs rhs ty : CType) : List VerifyError :=
  match lhs, rhs with
  | .bool, .bool => expectType "bool equality result" .bool ty
  | .enum dl, .enum dr =>
      (if dl ≠ dr then [.binaryOperandType op "same enum domain" lhs rhs] else []) ++
        expectType "enum equality result" .bool ty
  | _, _ => errorsOf (expectMatchingBv op lhs rhs) ++ expectType "bv equality result" .bool ty

def verifyBinary (op : CBinaryOp) (lhs rhs ty : CType) : List VerifyError :=
  match op with
  | .add | .sub | .mul | .div | .mod | .bitAnd | .bitOr | .bitXor =>
      match expectMatchingBv op lhs rhs with
      | .error es => es
      | .ok (width, sign) => expectType "binary bv result" (.bv width sign) ty
  | .eq | .ne => verifyEquality op lhs rhs ty
  | .lt | .le | .gt | .ge =>
      errorsOf (expectMatchingBv op lhs rhs) ++ expectType "comparison result" .bool ty
  | .logicalAnd | .logicalOr =>
      (if lhs ≠ .bool ∨ rhs ≠ .bool then [.binaryOperandType op "bool x bool" lhs rhs]
        else []) ++ expectType "logical result" .bool ty
  | .shl | .shr =>
      (if lhs.isBv then [] else [.binaryOperandType op "bit-vector lhs" lhs rhs]) ++
      (match rhs.asBv with
        | some (_, .unsigned) => []
        | _ => [.binaryOperandType op "unsigned bit-vector shift amount" lhs rhs]) ++
      (if lhs.isBv then expectType "shift result" lhs ty else [])

def verifyInSet (item set ty : CType) : List VerifyError :=
  match iterableElemType set with
  | none => [.membershipRhsType set] ++ expectType "membership result" .bool ty
  | some elem =>
      (if elem ≠ item then [.setElemTypeMismatch elem item] else []) ++
        expectType "membership result" .bool ty

def verifyFieldMethod (method : BuiltinMethod) (args : List CTypedExpr) (ty : CType) :
    List VerifyError :=
  match method with
  | .len =>
      (if args.isEmpty then []
        else [.binaryOperandType .eq "len() has no arguments" .bool .bool]) ++
      match ty.asBv with
      | some (_, .unsigned) => []
      | _ => [.typeMismatch "len() result" (.uint 32) ty]

/-- The types of the bound variables in scope. -/
abbrev Locals := Nat → Option CType

def Locals.insert (locals : Locals) (var : Nat) (ty : CType) : Locals :=
  fun id => if id = var then some ty else locals id

mutual

/-- The errors that the verifier finds in an expression, in its order. -/
def verifyExpr : CTypedExpr → Locals → List VerifyError
  | .bvLit value ty, _ =>
      checkTypeConcrete env ty ++
        match ty.asBv with
        | none => [.typeMismatch "bv literal" (.uint 1) ty]
        | some (width, _) =>
            if width = 0 ∨ literalExceedsWidth value width = true then
              [.typeMismatch "bv literal width" (.uint (max width 1)) ty]
            else []
  | .boolLit _ ty, _ => checkTypeConcrete env ty ++ expectType "bool literal" .bool ty
  | .enumLit domain variantIdx ty, _ =>
      checkTypeConcrete env ty ++ verifyEnumLit env domain variantIdx ty
  | .fieldRef path ty, _ => checkTypeConcrete env ty ++ verifyFieldRef env path ty
  | .localRef id ty, locals =>
      checkTypeConcrete env ty ++
        match locals id with
        | none => [.localNotInScope id]
        | some expected =>
            if expected ≠ ty then [.localTypeMismatch id expected ty] else []
  | .unary op inner ty, locals =>
      checkTypeConcrete env ty ++ verifyExpr inner locals ++ verifyUnary op inner.ty ty
  | .binary op lhs rhs ty, locals =>
      checkTypeConcrete env ty ++ verifyExpr lhs locals ++ verifyExpr rhs locals ++
        verifyBinary op lhs.ty rhs.ty ty
  | .inSet item set ty, locals =>
      checkTypeConcrete env ty ++ verifyExpr item locals ++ verifyExpr set locals ++
        verifyInSet item.ty set.ty ty
  | .inRange item lo hi ty, locals =>
      checkTypeConcrete env ty ++ verifyExpr item locals ++
        verifyBound "range lower bound" item.ty lo locals ++
        verifyBound "range upper bound" item.ty hi locals ++
        expectType "range membership result" .bool ty
  | .set items ty, locals =>
      checkTypeConcrete env ty ++
        match ty with
        | .set elem => checkTypeConcrete env elem ++ verifyItems elem items locals
        | _ => [.typeMismatch "set literal" (.set .bottom) ty]
  | .range lo hi ty, locals =>
      checkTypeConcrete env ty ++
        match ty with
        | .range elem =>
            checkTypeConcrete env elem ++ verifyBound "range lower bound" elem lo locals ++
              verifyBound "range upper bound" elem hi locals
        | _ => [.typeMismatch "range literal" (.range .bottom) ty]
  | .fieldMethodCall target method args ty, locals =>
      checkTypeConcrete env ty ++ verifyExpr target locals ++ verifyArgs args locals ++
        verifyFieldMethod method args ty
  | .forAll var iter body ty, locals =>
      checkTypeConcrete env ty ++ verifyExpr iter locals ++
        (match iterableElemType iter.ty with
          | some elem => verifyExpr body (Locals.insert locals var elem)
          | none => .membershipRhsType iter.ty :: verifyExpr body locals) ++
        expectType "forall body" .bool body.ty ++ expectType "forall result" .bool ty

def verifyBound (context : String) (expected : CType) :
    Option CTypedExpr → Locals → List VerifyError
  | none, _ => []
  | some e, locals => verifyExpr e locals ++ expectType context expected e.ty

def verifyItems (elem : CType) : List CTypedExpr → Locals → List VerifyError
  | [], _ => []
  | e :: es, locals =>
      verifyExpr e locals ++
        (if e.ty ≠ elem then [.setElemTypeMismatch elem e.ty] else []) ++
        verifyItems elem es locals

def verifyArgs : List CTypedExpr → Locals → List VerifyError
  | [], _ => []
  | e :: es, locals => verifyExpr e locals ++ verifyArgs es locals

end

def verifyClause (assertionName : String) (expr : CTypedExpr) : List VerifyError :=
  (if assertionName = "" then [.emptyAssertionName] else []) ++
    verifyExpr env expr (fun _ => none) ++
    (if expr.ty ≠ .bool then [.clauseNotBool assertionName expr.ty] else [])

/-- The checks of a solve order, with the fields already seen. -/
def verifySolveOrder : List FieldPath → List FieldPath → List VerifyError
  | [], _ => []
  | path :: order, seen =>
      (if (env.lookup path).isNone then [.solveOrderFieldNotFound path] else []) ++
        (if path ∈ seen then [.duplicateSolveOrderField path] else []) ++
        verifySolveOrder order (path :: seen)

end Verifier

def verifyField (env : FieldEnv) (entry : FieldPath × FieldInfo) : List VerifyError :=
  checkTypeConcrete env entry.2.ty ++ (if entry.1 = [] then [.fieldNotInEnv entry.1] else [])

/-- All errors of a problem, before the cap. -/
def problemErrors (problem : CTypedProblem) : List VerifyError :=
  problem.env.fields.flatMap (verifyField problem.env) ++
    (problem.constraints.flatMap fun c => verifyClause problem.env c.assertionName c.expr) ++
    (problem.softConstraints.flatMap fun c => verifyClause problem.env c.assertionName c.expr) ++
    verifySolveOrder problem.env (problem.solveOrder.getD []) []

def verifyConstraintProblem (problem : CTypedProblem) : Except (List VerifyError) Unit :=
  match (problemErrors problem).take maxVerifyErrors with
  | [] => .ok ()
  | errors => .error errors

theorem verifyConstraintProblem_ok (problem : CTypedProblem) :
    verifyConstraintProblem problem = .ok () ↔ problemErrors problem = [] := by
  unfold verifyConstraintProblem
  constructor
  · intro h
    split at h
    · rename_i hnil
      simpa [maxVerifyErrors] using hnil
    · simp at h
  · intro h
    rw [h]
    rfl

end Harc.TypedConstraint
