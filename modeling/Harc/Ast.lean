import Harc.ConstraintExpr

/-!
The expressions of constraints as the parser builds them (`ast.rs`), with the two
operations that relation expansion performs on them: substitution and counting nodes.
Spans are left out.  `soft` and `solve_order` are directives of a constraint list, not
expressions in one.
-/

namespace Harc.Ast

open Harc.ConstraintExpr (UnaryOp BinaryOp)

mutual

/-- `other` stands for the kinds that no pass over constraints looks into; they are kept
as they are.  A cast keeps the text of its type. -/
inductive Expr where
  | int (text : String)
  | bool (value : Bool)
  | string (text : String)
  | number (text : String)
  | ident (name : String)
  | field (target : Expr) (name : String)
  | implicitSelf
  | index (target index : Expr)
  | bitSlice (target hi lo : Expr)
  | call (callee : Expr) (args : List CallArg)
  | cast (expr : Expr) (ty : String)
  | unary (op : UnaryOp) (expr : Expr)
  | binary (op : BinaryOp) (lhs rhs : Expr)
  | ternary (cond thenBranch elseBranch : Expr)
  | rangeLit (lo hi : Option Expr)
  | setLit (items : List Expr)
  | paren (inner : Expr)
  | forEachConstraint (var : String) (iter : Expr) (body : List Expr)
  | membership (expr set : Expr)
  | other (text : String)

inductive CallArg where
  | expr (value : Expr)
  | named (name : String) (value : Expr)

end

def CallArg.value : CallArg → Expr
  | .expr value => value
  | .named _ value => value

/-! ### Substitution -/

/-- Replacements of identifiers, the latest first. -/
abbrev Subst := List (String × Expr)

def Subst.get (subst : Subst) (name : String) : Option Expr :=
  (subst.find? fun entry => entry.1 == name).map Prod.snd

def Subst.insert (subst : Subst) (name : String) (expr : Expr) : Subst :=
  (name, expr) :: subst

def Subst.remove (subst : Subst) (name : String) : Subst :=
  subst.filter fun entry => entry.1 != name

@[simp] theorem Subst.get_insert (subst : Subst) (name : String) (expr : Expr) (n : String) :
    (subst.insert name expr).get n = if name = n then some expr else subst.get n := by
  by_cases h : name = n <;> simp [Subst.insert, Subst.get, h]

theorem Subst.get_remove (subst : Subst) (name n : String) :
    (subst.remove name).get n = if n = name then none else subst.get n := by
  induction subst with
  | nil => simp [Subst.remove, Subst.get]
  | cons entry subst ih =>
      obtain ⟨key, expr⟩ := entry
      simp only [Subst.remove, Subst.get] at ih ⊢
      by_cases hkey : key = name
      · subst hkey
        by_cases hn : n = key
        · simp [hn]
        · have hne : (key == n) = false := by simpa using Ne.symm hn
          simpa [hn, hne] using ih
      · have hkeep : (key != name) = true := by simpa using hkey
        simp only [List.filter_cons, hkeep, if_true]
        by_cases hn : key = n
        · subst hn
          simp [hkey]
        · have hne : (key == n) = false := by simpa using hn
          simpa [hne] using ih

mutual

/-- Identifiers are replaced, the name of a called function included.  A loop variable
hides the replacement of its name in the body of the loop. -/
def substituteRelationIdents : Expr → Subst → Expr
  | .ident name, subst => (subst.get name).getD (.ident name)
  | .field target name, subst => .field (substituteRelationIdents target subst) name
  | .index target index, subst =>
      .index (substituteRelationIdents target subst) (substituteRelationIdents index subst)
  | .bitSlice target hi lo, subst =>
      .bitSlice (substituteRelationIdents target subst) (substituteRelationIdents hi subst)
        (substituteRelationIdents lo subst)
  | .call callee args, subst =>
      .call (substituteRelationIdents callee subst) (substituteArgs args subst)
  | .forEachConstraint var iter body, subst =>
      .forEachConstraint var (substituteRelationIdents iter subst)
        (substituteList body (subst.remove var))
  | .cast expr ty, subst => .cast (substituteRelationIdents expr subst) ty
  | .unary op expr, subst => .unary op (substituteRelationIdents expr subst)
  | .binary op lhs rhs, subst =>
      .binary op (substituteRelationIdents lhs subst) (substituteRelationIdents rhs subst)
  | .ternary cond thenBranch elseBranch, subst =>
      .ternary (substituteRelationIdents cond subst) (substituteRelationIdents thenBranch subst)
        (substituteRelationIdents elseBranch subst)
  | .paren inner, subst => .paren (substituteRelationIdents inner subst)
  | .membership expr set, subst =>
      .membership (substituteRelationIdents expr subst) (substituteRelationIdents set subst)
  | .setLit items, subst => .setLit (substituteList items subst)
  | .rangeLit lo hi, subst => .rangeLit (substituteBound lo subst) (substituteBound hi subst)
  | .int text, _ => .int text
  | .bool value, _ => .bool value
  | .string text, _ => .string text
  | .number text, _ => .number text
  | .implicitSelf, _ => .implicitSelf
  | .other text, _ => .other text

def substituteList : List Expr → Subst → List Expr
  | [], _ => []
  | e :: es, subst => substituteRelationIdents e subst :: substituteList es subst

def substituteBound : Option Expr → Subst → Option Expr
  | none, _ => none
  | some e, subst => some (substituteRelationIdents e subst)

def substituteArgs : List CallArg → Subst → List CallArg
  | [], _ => []
  | .expr value :: args, subst =>
      .expr (substituteRelationIdents value subst) :: substituteArgs args subst
  | .named name value :: args, subst =>
      .named name (substituteRelationIdents value subst) :: substituteArgs args subst

end

/-! ### Size -/

mutual

/-- The number of nodes, over the forms that can hold a substituted argument. -/
def exprNodeCount : Expr → Nat
  | .field target _ => 1 + exprNodeCount target
  | .index target index => 1 + (exprNodeCount target + exprNodeCount index)
  | .bitSlice target hi lo => 1 + (exprNodeCount target + exprNodeCount hi + exprNodeCount lo)
  | .call callee args => 1 + (exprNodeCount callee + argsNodeCount args)
  | .forEachConstraint _ iter body => 1 + (exprNodeCount iter + listNodeCount body)
  | .cast expr _ => 1 + exprNodeCount expr
  | .unary _ expr => 1 + exprNodeCount expr
  | .binary _ lhs rhs => 1 + (exprNodeCount lhs + exprNodeCount rhs)
  | .ternary cond thenBranch elseBranch =>
      1 + (exprNodeCount cond + exprNodeCount thenBranch + exprNodeCount elseBranch)
  | .paren inner => 1 + exprNodeCount inner
  | .membership expr set => 1 + (exprNodeCount expr + exprNodeCount set)
  | .setLit items => 1 + listNodeCount items
  | .rangeLit lo hi => 1 + (boundNodeCount lo + boundNodeCount hi)
  | _ => 1

def listNodeCount : List Expr → Nat
  | [] => 0
  | e :: es => exprNodeCount e + listNodeCount es

def boundNodeCount : Option Expr → Nat
  | none => 0
  | some e => exprNodeCount e

def argsNodeCount : List CallArg → Nat
  | [] => 0
  | .expr value :: args => exprNodeCount value + argsNodeCount args
  | .named _ value :: args => exprNodeCount value + argsNodeCount args

end

/-- The conjunction of a list of clauses, from the left. -/
def andJoin : List Expr → Expr
  | [] => .bool true
  | e :: es => es.foldl (.binary .andAnd) e

end Harc.Ast
