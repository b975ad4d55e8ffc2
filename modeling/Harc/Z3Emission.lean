import Harc.TypedConstraint
import Mathlib.Data.Nat.Size

/-!
The Z3 backend (`solver/z3.rs`): a verified typed problem is rendered as a script of
SMT-LIB commands.
-/

namespace Harc.Z3Emission

open Harc.SmtScript
open Harc.TypedConstraint

inductive SolverBuildError where
  | verify (errors : List VerifyError)
  | unsupported (feature detail : String)
deriving DecidableEq

/-! ### Names, sorts and operators -/

def enumWidth (variantCount : Nat) : Nat :=
  Nat.size (max variantCount 2 - 1)

def isPowerOfTwo (n : Nat) : Bool :=
  n == 2 ^ Nat.log2 n

def sanitizeChar (ch : Char) : Char :=
  if ch.isAlphanum then ch else '_'

def sanitizeChars (chars : List Char) : List Char :=
  match chars.map sanitizeChar with
  | [] => ['_']
  | ch :: rest => if ch.isDigit then '_' :: ch :: rest else ch :: rest

def sanitize (s : String) : String :=
  String.ofList (sanitizeChars s.toList)

def z3FieldName (path : FieldPath) : String :=
  "f_" ++ sanitize path.dotted

def z3LocalName (id : Nat) : String :=
  "l_" ++ natText id

def z3AssertionName (name : String) : String :=
  "a_" ++ sanitize name

/-- The symbol of the length of a list field. -/
def z3LengthName (path : FieldPath) : String :=
  z3FieldName path ++ "__len"

def bvWidth (ty : CType) : Option Nat :=
  ty.asBv.map Prod.fst

def isSigned : CType → Bool
  | .bv _ .signed => true
  | _ => false

def sortForType (env : FieldEnv) : CType → Option TermSort
  | .bool => some .bool
  | .bv width _ => some (.bitVec width)
  | .enum domain =>
      (env.enumById domain).map fun entry => .bitVec (enumWidth entry.variants.length)
  | .range _ | .set _ | .list _ _ | .bottom => none

def unaryOpSmt : CUnaryOp → Op
  | .neg => .bvneg
  | .logicalNot => .not
  | .bitNot => .bvnot

def binaryOpSmt (op : CBinaryOp) (lhsTy : CType) : Op :=
  match op with
  | .add => .bvadd
  | .sub => .bvsub
  | .mul => .bvmul
  | .div => if isSigned lhsTy then .bvsdiv else .bvudiv
  | .mod => if isSigned lhsTy then .bvsrem else .bvurem
  | .eq => .eq
  | .ne => .distinct
  | .lt => if isSigned lhsTy then .bvslt else .bvult
  | .le => if isSigned lhsTy then .bvsle else .bvule
  | .gt => if isSigned lhsTy then .bvsgt else .bvugt
  | .ge => if isSigned lhsTy then .bvsge else .bvuge
  | .logicalAnd => .and
  | .logicalOr => .or
  | .bitAnd => .bvand
  | .bitOr => .bvor
  | .bitXor => .bvxor
  | .shl => .bvshl
  | .shr => if isSigned lhsTy then .bvashr else .bvlshr

def joinBool (op : Op) : List Term → Term
  | [] => .boolLit true
  | [t] => t
  | t :: u :: ts => .app op (t :: u :: ts)

def extendBv (value : Term) (source target : Nat) (signed : Bool) : Term :=
  if source = target then value
  else if signed then .signExtend (target - source) value
  else .zeroExtend (target - source) value

/-- The order that a range membership uses, by the type of its item. -/
def rangeOp (ty : CType) : Op :=
  if isSigned ty then .bvsle else .bvule

/-- The two comparisons of a range membership. -/
def rangeParts (ty : CType) (item : Term) (lo hi : Option Term) : List Term :=
  (lo.map fun t => Term.app (rangeOp ty) [t, item]).toList ++
    (hi.map fun t => Term.app (rangeOp ty) [item, t]).toList

/-- A shift runs in the wider of the two widths, and its result is cut back. -/
def shiftTerm (op : CBinaryOp) (lhsTy : CType) (lhsWidth rhsWidth : Nat) (lhs rhs : Term) :
    Term :=
  let width := max lhsWidth rhsWidth
  let shifted := Term.app (binaryOpSmt op lhsTy)
    [extendBv lhs lhsWidth width (isSigned lhsTy), extendBv rhs rhsWidth width false]
  if width = lhsWidth then shifted else .extract (lhsWidth - 1) 0 shifted

/-! ### Terms -/

section Terms

variable (env : FieldEnv)

mutual

def lowerExpr : CTypedExpr → Except SolverBuildError Term
  | .bvLit value ty =>
      match bvWidth ty with
      | none => .error (.unsupported "literal type" ("BV literal has type " ++ ty.display))
      | some width => .ok (.bvLit value.toNat width)
  | .boolLit value _ => .ok (.boolLit value)
  | .enumLit domain variantIdx _ =>
      match env.enumById domain with
      | none => .error (.unsupported "enum literal" ("missing enum domain #" ++ natText domain))
      | some entry => .ok (.bvLit variantIdx (enumWidth entry.variants.length))
  | .fieldRef path _ => .ok (.symbol (z3FieldName path))
  | .localRef id _ => .ok (.symbol (z3LocalName id))
  | .unary op inner _ => do
      let inner ← lowerExpr inner
      return .app (unaryOpSmt op) [inner]
  | .binary op lhs rhs _ =>
      if op = .shl ∨ op = .shr then
        match bvWidth lhs.ty with
        | none =>
            .error (.unsupported "shift lhs" ("shift lhs has type " ++ lhs.ty.display))
        | some lhsWidth =>
            match bvWidth rhs.ty with
            | none =>
                .error (.unsupported "shift rhs" ("shift rhs has type " ++ rhs.ty.display))
            | some rhsWidth => do
                let l ← lowerExpr lhs
                let r ← lowerExpr rhs
                return shiftTerm op lhs.ty lhsWidth rhsWidth l r
      else do
        let l ← lowerExpr lhs
        let r ← lowerExpr rhs
        return .app (binaryOpSmt op lhs.ty) [l, r]
  | .inSet item (.set items _) _ => do
      let t ← lowerExpr item
      match items with
      | [] => return .boolLit false
      | _ => return joinBool .or (← lowerItems t items)
  | .inSet item (.range lo hi _) _ => do
      let t ← lowerExpr item
      let l ← lowerBound lo
      let h ← lowerBound hi
      return joinBool .and (rangeParts item.ty t l h)
  | .inSet item _ _ => do
      let _ ← lowerExpr item
      .error (.unsupported "set membership" "rhs is not a set/range literal")
  | .inRange item lo hi _ => do
      let t ← lowerExpr item
      let l ← lowerBound lo
      let h ← lowerBound hi
      return joinBool .and (rangeParts item.ty t l h)
  | .set items ty =>
      .error (.unsupported "standalone aggregate expression"
        ("cannot lower `" ++ (CTypedExpr.set items ty).display ++
          "` as a standalone solver expression"))
  | .range lo hi ty =>
      .error (.unsupported "standalone aggregate expression"
        ("cannot lower `" ++ (CTypedExpr.range lo hi ty).display ++
          "` as a standalone solver expression"))
  | .fieldMethodCall target .len args _ =>
      if args.isEmpty then
        match target with
        | .fieldRef path _ => .ok (.symbol (z3LengthName path))
        | _ => .error (.unsupported "len() target" "only field-rooted list len() is supported")
      else .error (.unsupported "len()" "len() arguments are not supported")
  | .forAll var iter body _ =>
      match iter.ty with
      | .list elem _ =>
          match sortForType env elem with
          | none => .error (.unsupported "forall" ("local has type " ++ elem.display))
          | some sort => do
              let body ← lowerExpr body
              return .all (z3LocalName var) sort body
      | ty => .error (.unsupported "forall" ("iterator has type " ++ ty.display))

/-- The equations of a membership in a set literal. -/
def lowerItems (item : Term) : List CTypedExpr → Except SolverBuildError (List Term)
  | [] => .ok []
  | e :: es => do
      let t ← lowerExpr e
      let ts ← lowerItems item es
      return .app .eq [item, t] :: ts

def lowerBound : Option CTypedExpr → Except SolverBuildError (Option Term)
  | none => .ok none
  | some e => do
      let t ← lowerExpr e
      return some t

end

end Terms

/-! ### Problems -/

def declareFields (env : FieldEnv) :
    List (FieldPath × FieldInfo) → Except SolverBuildError (List Command)
  | [] => .ok []
  | (path, info) :: rest =>
      match sortForType env info.ty with
      | none =>
          .error (.unsupported "field sort"
            ("field `" ++ path.dotted ++ "` has type " ++ info.ty.display))
      | some sort => do
          let commands ← declareFields env rest
          return .declareFun (z3FieldName path) sort :: commands

/-- The bound of an enum field.  An enum whose variants fill every value of their
width has none: the cardinality would wrap to zero. -/
def enumDomain (path : FieldPath) (entry : EnumDomainEntry) : List Command :=
  let count := entry.variants.length
  if count ≤ 1 ∨ isPowerOfTwo count = false then
    [.assert (.app .bvult [.symbol (z3FieldName path), .bvLit count (enumWidth count)])
      ("enum " ++ entry.name ++ " domain")]
  else []

def enumDomains (env : FieldEnv) :
    List (FieldPath × FieldInfo) → Except SolverBuildError (List Command)
  | [] => .ok []
  | (path, info) :: rest =>
      match info.ty with
      | .enum domain =>
          match env.enumById domain with
          | none =>
              .error (.unsupported "enum domain" ("missing enum domain #" ++ natText domain))
          | some entry => do
              let commands ← enumDomains env rest
              return enumDomain path entry ++ commands
      | _ => enumDomains env rest

def assertClauses (env : FieldEnv) :
    List CTypedClause → Except SolverBuildError (List Command)
  | [] => .ok []
  | clause :: rest => do
      let t ← lowerExpr env clause.expr
      let commands ← assertClauses env rest
      return .assertNamed t (z3AssertionName clause.assertionName) :: commands

def assertSoftClauses (env : FieldEnv) :
    List CTypedSoftClause → Except SolverBuildError (List Command)
  | [] => .ok []
  | clause :: rest => do
      let t ← lowerExpr env clause.expr
      let commands ← assertSoftClauses env rest
      return .assertSoft t clause.weight (z3AssertionName clause.assertionName) :: commands

def solveOrderRemark (order : Option (List FieldPath)) : List Command :=
  (order.map fun paths =>
    Command.comment ("solve_order(" ++ ", ".intercalate (paths.map FieldPath.dotted) ++ ")")).toList

def buildZ3Problem (problem : CTypedProblem) : Except SolverBuildError (List Command) := do
  let declarations ← declareFields problem.env problem.env.fields
  let domains ← enumDomains problem.env problem.env.fields
  let hard ← assertClauses problem.env problem.constraints
  let soft ← assertSoftClauses problem.env problem.softConstraints
  return [.comment "generated by harc typed solver scaffold", .setLogic "QF_BV"] ++
    declarations ++ domains ++ hard ++ soft ++ solveOrderRemark problem.solveOrder ++ [.checkSat]

def build (problem : CTypedProblem) : Except SolverBuildError (List Command) :=
  match verifyConstraintProblem problem with
  | .error errors => .error (.verify errors)
  | .ok () => buildZ3Problem problem

end Harc.Z3Emission
