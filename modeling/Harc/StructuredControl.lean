import Harc.TestbenchIr
import Harc.TraceSimulation

/-!
Structured control flow over straight-line actions, with the meaning of a
statement tree and of a control-flow graph as the sequence of effects,
suspensions and condition evaluations that they perform.
-/

namespace Harc.StructuredControl

open Harc.TestbenchIr
open Harc.TraceSimulation

/-- The suspensions with one successor. -/
inductive Suspension (Expr : Type) where
  | waitCycles (cycles : Expr) (clock : Option WaitClock)
  | waitCyclesSync (cycles : Expr)
  | waitTimePs (ps : Int)
  | waitUntil (preds : List (PredSrc Expr)) (mode : WaitMode)
  | randomize (target : LocalId) (constraints : ConstraintRef)
  | tbLifecycleCall (function : FunctionId)
deriving DecidableEq, Repr

def Suspension.terminator {Expr : Type} (succ : BlockId) : Suspension Expr → Terminator Expr
  | .waitCycles cycles clock => .waitCycles cycles clock succ
  | .waitCyclesSync cycles => .waitCyclesSync cycles succ
  | .waitTimePs ps => .waitTimePs ps succ
  | .waitUntil preds mode => .waitUntil preds mode succ
  | .randomize target constraints => .randomize target constraints succ
  | .tbLifecycleCall function => .tbLifecycleCall function succ

/-- One step of an atomic statement, or of the evaluation of an expression. -/
inductive Action (Stmt Expr : Type) where
  | effect (stmt : Stmt)
  | suspend (suspension : Suspension Expr)
deriving DecidableEq, Repr

/-- A condition with the actions that its evaluation performs first. -/
structure Cond (Stmt Expr : Type) where
  prelude : List (Action Stmt Expr)
  expr : Expr
deriving DecidableEq, Repr

/-- What a counted loop does between two iterations: leave after the terminal
value, leave with the failure effects, or step the counter. -/
structure Latch (Stmt Expr : Type) where
  terminal : Option Expr
  failure : Option (Expr × List Stmt)
  step : Stmt
deriving DecidableEq, Repr

mutual

/-- Statement trees whose names have been resolved to locals. -/
inductive Plan (Stmt Expr : Type) where
  | straight (actions : List (Action Stmt Expr))
  | ifThen (cond : Cond Stmt Expr) (thenBlock : PlanBlock Stmt Expr)
      (tail : PlanTail Stmt Expr)
  | whileLoop (cond : Cond Stmt Expr) (body : PlanBlock Stmt Expr)
  | loop (body : PlanBlock Stmt Expr)
  | counted (init : List (Action Stmt Expr)) (header : Expr) (latch : Latch Stmt Expr)
      (body : PlanBlock Stmt Expr)
  | breakLoop
  | continueLoop
  | returnStmt

inductive PlanBlock (Stmt Expr : Type) where
  | nil
  | cons (stmt : Plan Stmt Expr) (rest : PlanBlock Stmt Expr)

/-- The `elsif` arms and the `else` block of an `if`. -/
inductive PlanTail (Stmt Expr : Type) where
  | none
  | otherwise (block : PlanBlock Stmt Expr)
  | elsif (cond : Cond Stmt Expr) (block : PlanBlock Stmt Expr) (tail : PlanTail Stmt Expr)

end

section

variable {Stmt Expr : Type}

mutual

/-- Every `break` and `continue` has an enclosing loop; `inLoop` says whether there
is one around the statement. -/
def Plan.Enclosed (inLoop : Bool) : Plan Stmt Expr → Prop
  | .straight _ | .returnStmt => True
  | .ifThen _ thenBlock tail => thenBlock.Enclosed inLoop ∧ tail.Enclosed inLoop
  | .whileLoop _ body | .loop body | .counted _ _ _ body => body.Enclosed true
  | .breakLoop | .continueLoop => inLoop = true

def PlanBlock.Enclosed (inLoop : Bool) : PlanBlock Stmt Expr → Prop
  | .nil => True
  | .cons stmt rest => stmt.Enclosed inLoop ∧ rest.Enclosed inLoop

def PlanTail.Enclosed (inLoop : Bool) : PlanTail Stmt Expr → Prop
  | .none => True
  | .otherwise block => block.Enclosed inLoop
  | .elsif _ block tail => block.Enclosed inLoop ∧ tail.Enclosed inLoop

end

end

inductive Event (Stmt Expr : Type) where
  | effect (stmt : Stmt)
  | suspended (suspension : Suspension Expr)
  | tested (cond : Expr) (value : Bool)
deriving DecidableEq, Repr

/-- The meaning of statements, conditions and suspensions over a world. -/
structure Machine (Stmt Expr World : Type) where
  exec : Stmt → World → World
  truth : Expr → World → Bool
  resume : Suspension Expr → World → World

abbrev EventRun (Stmt Expr World : Type) := Run (Event Stmt Expr) World

variable {Stmt Expr World : Type}

namespace Machine

variable (M : Machine Stmt Expr World)

def runAction : Action Stmt Expr → World → EventRun Stmt Expr World
  | .effect s, w => ⟨[.effect s], M.exec s w, .normal⟩
  | .suspend s, w => ⟨[.suspended s], M.resume s w, .normal⟩

def runActions : List (Action Stmt Expr) → World → EventRun Stmt Expr World
  | [], w => ⟨[], w, .normal⟩
  | a :: actions, w => (M.runAction a w).andThen (runActions actions)

/-- Evaluates a condition and continues with one of two runs. -/
def test (e : Expr) (onTrue onFalse : World → EventRun Stmt Expr World) (w : World) :
    EventRun Stmt Expr World :=
  let r := if M.truth e w then onTrue w else onFalse w
  { r with trace := .tested e (M.truth e w) :: r.trace }

def branch (cond : Cond Stmt Expr) (onTrue onFalse : World → EventRun Stmt Expr World)
    (w : World) : EventRun Stmt Expr World :=
  (M.runActions cond.prelude w).andThen (M.test cond.expr onTrue onFalse)

/-- The failure effects of a latch; the loop is left after them. -/
def runFailure (stmts : List Stmt) (w : World) : EventRun Stmt Expr World :=
  (M.runActions (stmts.map .effect) w).andThen leave

def runLatch (latch : Latch Stmt Expr) : World → EventRun Stmt Expr World :=
  let step := M.runAction (.effect latch.step)
  match latch.terminal, latch.failure with
  | none, _ => step
  | some terminal, none => M.test terminal leave step
  | some terminal, some (failure, stmts) =>
      M.test terminal leave (M.test failure (M.runFailure stmts) step)

mutual

/-- The structured meaning.  Each loop makes at most `fuel` iterations. -/
def runPlan (fuel : Nat) : Plan Stmt Expr → World → EventRun Stmt Expr World
  | .straight actions => M.runActions actions
  | .ifThen cond thenBlock tail =>
      M.branch cond (runBlock fuel thenBlock) (runTail fuel tail)
  | .whileLoop cond body =>
      iterate (M.branch cond (fun w => (runBlock fuel body w).catchContinue) leave) fuel
  | .loop body => iterate (fun w => (runBlock fuel body w).catchContinue) fuel
  | .counted init header latch body => fun w =>
      (M.runActions init w).andThen
        (iterate (M.test header
          (fun w => (runBlock fuel body w).catchContinue.andThen (M.runLatch latch)) leave)
          fuel)
  | .breakLoop => fun w => ⟨[], w, .broke⟩
  | .continueLoop => fun w => ⟨[], w, .continued⟩
  | .returnStmt => fun w => ⟨[], w, .returned⟩

def runBlock (fuel : Nat) : PlanBlock Stmt Expr → World → EventRun Stmt Expr World
  | .nil => fun w => ⟨[], w, .normal⟩
  | .cons stmt rest => fun w => (runPlan fuel stmt w).andThen (runBlock fuel rest)

def runTail (fuel : Nat) : PlanTail Stmt Expr → World → EventRun Stmt Expr World
  | .none => fun w => ⟨[], w, .normal⟩
  | .otherwise block => runBlock fuel block
  | .elsif cond block tail => M.branch cond (runBlock fuel block) (runTail fuel tail)

end

end Machine

/-- A position in a control-flow graph: the block, the number of its statements
that have been executed, and the world. -/
structure Config (World : Type) where
  block : BlockId
  offset : Nat
  world : World
deriving DecidableEq, Repr

/-- One step of a control-flow graph, with the event it performs.  Execution ends
at `ret` and `fatal`; `waitUntilTimeout` has two successors, and no statement of
a tree lowers to it. -/
def Machine.step (M : Machine Stmt Expr World) (blocks : List (BasicBlock Stmt Expr))
    (c : Config World) : Option (List (Event Stmt Expr) × Config World) :=
  let suspend (s : Suspension Expr) (succ : BlockId) :=
    some ([.suspended s], ⟨succ, 0, M.resume s c.world⟩)
  match blocks[c.block]? with
  | none => none
  | some block =>
      match block.stmts[c.offset]? with
      | some s => some ([.effect s], ⟨c.block, c.offset + 1, M.exec s c.world⟩)
      | none =>
          match block.terminator with
          | .jump target => some ([], ⟨target, 0, c.world⟩)
          | .branch cond thenBlock elseBlock =>
              some ([.tested cond (M.truth cond c.world)],
                ⟨if M.truth cond c.world then thenBlock else elseBlock, 0, c.world⟩)
          | .waitCycles cycles clock succ => suspend (.waitCycles cycles clock) succ
          | .waitCyclesSync cycles succ => suspend (.waitCyclesSync cycles) succ
          | .waitTimePs ps succ => suspend (.waitTimePs ps) succ
          | .waitUntil preds mode succ => suspend (.waitUntil preds mode) succ
          | .randomize target constraints succ => suspend (.randomize target constraints) succ
          | .tbLifecycleCall function succ => suspend (.tbLifecycleCall function) succ
          | .waitUntilTimeout .. | .ret | .fatal _ => none

/-- The graph has reached a `return`. -/
def Halted (blocks : List (BasicBlock Stmt Expr)) (c : Config World) : Prop :=
  ∃ block, blocks[c.block]? = some block ∧ block.stmts.length ≤ c.offset ∧
    block.terminator = .ret

end Harc.StructuredControl
