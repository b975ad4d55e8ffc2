import Mathlib.Data.List.Basic
import Mathlib.Algebra.Order.Ring.Int

/-!
The control-flow layer of the testbench IR.  A function is a list of basic
blocks, each with straight-line statements and exactly one terminator; block
ids are indices into that list.  Statements and expressions are parameters
here, because no pass over this layer looks inside them.
-/

namespace Harc.TestbenchIr

abbrev FunctionId := Nat
abbrev BlockId := Nat
abbrev LocalId := Nat
abbrev ConstraintRef := Nat

structure WaitClock where
  name : String
  index : Nat
deriving DecidableEq, Repr

inductive WaitMode where
  | single
  | allOf
  | anyOf
deriving DecidableEq, Repr

structure PredSrc (Expr : Type) where
  expr : Expr
  srcText : String
deriving DecidableEq, Repr

structure FmtArg (Expr : Type) where
  expr : Expr
  wideHex : Option (Nat × Bool)
deriving DecidableEq, Repr

structure FmtArgs (Expr : Type) where
  fmt : String
  args : List (FmtArg Expr)
deriving DecidableEq, Repr

inductive Terminator (Expr : Type) where
  | jump (target : BlockId)
  | branch (cond : Expr) (thenBlock elseBlock : BlockId)
  | waitCycles (cycles : Expr) (clock : Option WaitClock) (succ : BlockId)
  | waitCyclesSync (cycles : Expr) (succ : BlockId)
  | waitTimePs (ps : Int) (succ : BlockId)
  | waitUntil (preds : List (PredSrc Expr)) (mode : WaitMode) (succ : BlockId)
  | waitUntilTimeout (preds : List (PredSrc Expr)) (mode : WaitMode)
      (cycles : Expr) (onFire onTimeout : BlockId)
  | randomize (target : LocalId) (constraints : ConstraintRef) (succ : BlockId)
  | ret
  | fatal (args : FmtArgs Expr)
  | tbLifecycleCall (function : FunctionId) (succ : BlockId)
deriving DecidableEq, Repr

/-- Successor block ids, in a stable order. -/
def Terminator.successors {Expr : Type} : Terminator Expr → List BlockId
  | .jump b => [b]
  | .branch _ t f => [t, f]
  | .waitCycles _ _ b => [b]
  | .waitCyclesSync _ b => [b]
  | .waitTimePs _ b => [b]
  | .waitUntil _ _ succ => [succ]
  | .waitUntilTimeout _ _ _ onFire onTimeout => [onFire, onTimeout]
  | .randomize _ _ succ => [succ]
  | .tbLifecycleCall _ succ => [succ]
  | .ret | .fatal _ => []

structure BasicBlock (Stmt Expr : Type) where
  stmts : List Stmt
  terminator : Terminator Expr
deriving DecidableEq, Repr

/-- The function kinds, without the identity each one carries. -/
inductive FunctionKind where
  | testBody
  | samplerAuto
  | helper
  | testbenchMethod
  | transactorBody
  | componentMethod
  | tseq
  | testHook
  | testbenchLifecycle
deriving DecidableEq, Repr

structure TbFunction (Stmt Expr : Type) where
  id : FunctionId
  name : String
  kind : FunctionKind
  blocks : List (BasicBlock Stmt Expr)
  entry : BlockId
  implicitReturns : List BlockId
deriving DecidableEq, Repr

structure TbProgram (Stmt Expr : Type) where
  functions : List (TbFunction Stmt Expr)
deriving DecidableEq, Repr

/-- The part of the verifier's acceptance that the CFG passes rely on: the
entry and every successor resolve to a block. -/
structure TbFunction.VerifyClean {Stmt Expr : Type}
    (func : TbFunction Stmt Expr) : Prop where
  entry_lt : func.entry < func.blocks.length
  successors_lt : ∀ b ∈ func.blocks, ∀ s ∈ b.terminator.successors,
    s < func.blocks.length

/-- Every function is clean and sits in the slot that its id names. -/
structure TbProgram.VerifyClean {Stmt Expr : Type}
    (prog : TbProgram Stmt Expr) : Prop where
  function_clean : ∀ func ∈ prog.functions, func.VerifyClean
  id_eq_slot : ∀ (i : Nat) (func : TbFunction Stmt Expr),
    prog.functions[i]? = some func → func.id = i

end Harc.TestbenchIr
