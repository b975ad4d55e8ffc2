import Harc.TestbenchIr

/-!
Types, expressions and statements of the testbench IR, as far as the modelled
passes build or inspect them.  The expression forms that no modelled pass looks
into (ports, record fields, queue and component queries, calls) are the leaves
`Leaf`, and the statements that they leave alone are the operations `Op`.
-/

namespace Harc.IrExpr

open Harc.TestbenchIr

abbrev RecordId := Nat
abbrev ComponentId := Nat

inductive IrType where
  | uint (width : Option Nat)
  | sint (width : Option Nat)
  | bool
  | string
  | record (id : RecordId)
  | recordSeq (id : RecordId)
  | seq (elem : IrType)
  | fixedVec (elem : IrType) (len : Nat)
  | component (id : ComponentId)
  | portSnapshot
  | event
  | unknown
deriving DecidableEq, Repr

inductive BinOp where
  | add | sub | mul | div | mod
  | eq | ne | lt | le | gt | ge
  | and | or
  | bitAnd | bitOr | bitXor
  | shl | shr
deriving DecidableEq, Repr

inductive UnOp where
  | neg
  | not
  | bitNot
  | bitNotHost
deriving DecidableEq, Repr

inductive WidthCastKind where
  | trunc
  | zext
  | sext
  | resize
deriving DecidableEq, Repr

inductive Expr (Leaf : Type) where
  | literal (value : Nat) (ty : IrType)
  /-- LSB-first 32-bit words of a literal above 64 bits. -/
  | wideLiteral (words : List Nat)
  | local (id : LocalId)
  | binary (op : BinOp) (lhs rhs : Expr Leaf)
  | unary (op : UnOp) (operand : Expr Leaf)
  | ternary (cond thenExpr elseExpr : Expr Leaf)
  | widthCast (kind : WidthCastKind) (width : Nat) (srcWidth : Option Nat)
      (inner : Expr Leaf)
  | leaf (leaf : Leaf)
deriving DecidableEq, Repr

inductive LogLevel where
  | debug
  | info
  | warn
  | error
  | fatal
deriving DecidableEq, Repr

inductive Stmt (Leaf Op : Type) where
  | assign (dest : LocalId) (value : Expr Leaf)
  | log (level : LogLevel) (args : FmtArgs (Expr Leaf))
  | errorIncrement
  | op (op : Op)
deriving DecidableEq, Repr

structure TypedLocal where
  name : String
  ty : IrType
deriving DecidableEq, Repr

end Harc.IrExpr
