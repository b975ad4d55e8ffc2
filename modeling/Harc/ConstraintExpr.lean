import Mathlib.Data.List.Basic
import Mathlib.Algebra.Order.Ring.Int

/-!
The expressions of constraints, and what the solver renderer reads off them before
it translates them: field paths, the guard of a guarded constraint, and the target
fields that an expression refers to.
-/

namespace Harc.ConstraintExpr

inductive UnaryOp where
  | neg
  | not
  | notKw
  | bitNot
deriving DecidableEq, Repr

inductive BinaryOp where
  | add | addWrap | sub | subWrap | mul | mulWrap | div | mod
  | eq | ne | lt | le | gt | ge
  | andAnd | orOr | andKw | orKw
  | bitAnd | bitOr | bitXor | shl | shr
  | pipeImplies | pipeImpliesNext | throughout | within | intersect
  | in | inside
deriving DecidableEq, Repr

/-- `other` stands for the kinds that no constraint translation accepts, with their
subexpressions.  A literal keeps its value and the width prefix of a sized one. -/
inductive Expr where
  | int (value : Nat) (sized : Option Nat)
  | bool (value : Bool)
  | ident (name : String)
  | field (target : Expr) (name : String)
  | implicitSelf
  | index (target index : Expr)
  | bitSlice (target hi lo : Expr)
  | call (callee : Expr) (args : List Expr)
  | unary (op : UnaryOp) (expr : Expr)
  | binary (op : BinaryOp) (lhs rhs : Expr)
  | ternary (cond thenBranch elseBranch : Expr)
  | rangeLit (lo hi : Option Expr)
  | setLit (items : List Expr)
  | paren (inner : Expr)
  | forEachConstraint (var : String) (iter : Expr) (body : List Expr)
  | membership (expr set : Expr)
  | other (parts : List Expr)

def collectExprFieldPath : Expr → Option (List String)
  | .ident name => some [name]
  | .implicitSelf => some []
  | .field target name => (collectExprFieldPath target).map (· ++ [name])
  | .paren inner => collectExprFieldPath inner
  | _ => none

/-- The dotted path of a field access, without the name of the target. -/
def exprFieldPath (e : Expr) (targetRoot : Option String) : Option String :=
  match collectExprFieldPath e with
  | none => none
  | some [] => none
  | some (root :: parts) =>
      some (".".intercalate (if targetRoot = some root then parts else root :: parts))

/-- The guard of a constraint of the shape `!(guard) || body`. -/
def guardedConstraintGuard : Expr → Option Expr
  | .binary .orOr (.unary .not (.paren guard)) _ => some guard
  | .binary .orOr (.unary .not guard) _ => some guard
  | _ => none

section FieldRefs

variable (known : String → Bool) (targetRoot : Option String)

mutual

/-- The known fields that an expression refers to. -/
def collectRandomizeTargetFieldRefs : Expr → List String
  | .ident name => if known name then [name] else []
  | .field target name =>
      match exprFieldPath (.field target name) targetRoot with
      | some path => if known path then [path] else collectRandomizeTargetFieldRefs target
      | none => collectRandomizeTargetFieldRefs target
  | .index target index =>
      collectRandomizeTargetFieldRefs target ++ collectRandomizeTargetFieldRefs index
  | .bitSlice target hi lo =>
      collectRandomizeTargetFieldRefs target ++ collectRandomizeTargetFieldRefs hi ++
        collectRandomizeTargetFieldRefs lo
  | .call callee args => collectRandomizeTargetFieldRefs callee ++ collectFieldRefsOf args
  | .unary _ expr => collectRandomizeTargetFieldRefs expr
  | .binary _ lhs rhs =>
      collectRandomizeTargetFieldRefs lhs ++ collectRandomizeTargetFieldRefs rhs
  | .ternary cond thenBranch elseBranch =>
      collectRandomizeTargetFieldRefs cond ++ collectRandomizeTargetFieldRefs thenBranch ++
        collectRandomizeTargetFieldRefs elseBranch
  | .rangeLit lo hi => collectFieldRefsOfBound lo ++ collectFieldRefsOfBound hi
  | .setLit items => collectFieldRefsOf items
  | .paren inner => collectRandomizeTargetFieldRefs inner
  | .forEachConstraint _ iter body =>
      collectRandomizeTargetFieldRefs iter ++ collectFieldRefsOf body
  | .membership expr set =>
      collectRandomizeTargetFieldRefs expr ++ collectRandomizeTargetFieldRefs set
  | .other parts => collectFieldRefsOf parts
  | .int _ _ => []
  | .bool _ => []
  | .implicitSelf => []

def collectFieldRefsOf : List Expr → List String
  | [] => []
  | e :: es => collectRandomizeTargetFieldRefs e ++ collectFieldRefsOf es

def collectFieldRefsOfBound : Option Expr → List String
  | none => []
  | some e => collectRandomizeTargetFieldRefs e

end

end FieldRefs

/-- The field that an equality with a literal pins. -/
def pinnedField (known : String → Bool) (targetRoot : Option String) : Expr → Option String
  | .binary .eq lhs rhs =>
      let pinFrom : Expr → Expr → Option String := fun side other =>
        match other with
        | .int _ _ => (exprFieldPath side targetRoot).filter known
        | _ => none
      (pinFrom lhs rhs).or (pinFrom rhs lhs)
  | _ => none

end Harc.ConstraintExpr
