import Harc.ControlLowering

/-!
The blocks that lowering lays out for a statement tree.  The lowering threads
names and code together; here the names are resolved first, and the code of the
resolved tree is laid out by a total function on the code table.
-/

namespace Harc.ControlLayout

open Harc.TestbenchIr
open Harc.IrExpr
open Harc.FunctionBuilder
open Harc.StructuredControl
open Harc.ControlLowering

section Layout

variable {Stmt Expr : Type}

def pushed (code : CodeTable Stmt Expr) (s : Stmt) : CodeTable Stmt Expr :=
  { code with blocks :=
    code.blocks.modify code.current fun block => { block with stmts := block.stmts ++ [s] } }

def terminated (code : CodeTable Stmt Expr) (t : Terminator Expr) : CodeTable Stmt Expr :=
  { code with blocks :=
    code.blocks.modify code.current fun block => { block with term := some t } }

def started (code : CodeTable Stmt Expr) (b : BlockId) : CodeTable Stmt Expr :=
  { code with current := b }

/-- Appends empty blocks. -/
def reserved (k : Nat) (code : CodeTable Stmt Expr) : CodeTable Stmt Expr :=
  { code with blocks := code.blocks ++ List.replicate k ⟨[], none⟩ }

/-- Appends empty blocks and ends the current one. -/
def forked (k : Nat) (t : Terminator Expr) (code : CodeTable Stmt Expr) :
    CodeTable Stmt Expr :=
  terminated (reserved k code) t

def layoutAction (code : CodeTable Stmt Expr) : Action Stmt Expr → CodeTable Stmt Expr
  | .effect s => pushed code s
  | .suspend s =>
      let next := code.blocks.length
      started (forked 1 (s.terminator next) code) next

def layoutActions (actions : List (Action Stmt Expr)) (code : CodeTable Stmt Expr) :
    CodeTable Stmt Expr :=
  actions.foldl layoutAction code

def ensured (code : CodeTable Stmt Expr) : CodeTable Stmt Expr :=
  if code.isTerminated then started (reserved 1 code) code.blocks.length else code

def jumped (target : BlockId) (code : CodeTable Stmt Expr) : CodeTable Stmt Expr :=
  if code.isTerminated then code else terminated code (.jump target)

def layoutStep (step : Stmt) (header : BlockId) (code : CodeTable Stmt Expr) :
    CodeTable Stmt Expr :=
  terminated (pushed code step) (.jump header)

/-- The blocks of a latch with a failure check behind its block are, in order, the
step, the check and the failure. -/
def latchCheck (terminal : Expr) (exit : BlockId) (code : CodeTable Stmt Expr) :
    CodeTable Stmt Expr :=
  started (forked 3 (.branch terminal exit (code.blocks.length + 1)) code)
    (code.blocks.length + 1)

def latchFailure (terminal failureCond : Expr) (exit : BlockId) (code : CodeTable Stmt Expr) :
    CodeTable Stmt Expr :=
  started (terminated (latchCheck terminal exit code)
    (.branch failureCond (code.blocks.length + 2) code.blocks.length)) (code.blocks.length + 2)

def latchFailed (terminal failureCond : Expr) (stmts : List Stmt) (exit : BlockId)
    (code : CodeTable Stmt Expr) : CodeTable Stmt Expr :=
  layoutActions (stmts.map .effect) (latchFailure terminal failureCond exit code)

def layoutLatch (latch : Latch Stmt Expr) (header exit : BlockId)
    (code : CodeTable Stmt Expr) : CodeTable Stmt Expr :=
  let step := code.blocks.length
  match latch.terminal, latch.failure with
  | none, _ => layoutStep latch.step header code
  | some terminal, none =>
      layoutStep latch.step header (started (forked 1 (.branch terminal exit step) code) step)
  | some terminal, some (failureCond, stmts) =>
      layoutStep latch.step header (started
        (terminated (latchFailed terminal failureCond stmts exit code) (.jump exit)) step)

/-- From the end of a condition to the start of its then block. -/
def thenStart (cond : Expr) (code : CodeTable Stmt Expr) : CodeTable Stmt Expr :=
  started (forked 2 (.branch cond code.blocks.length (code.blocks.length + 1)) code)
    code.blocks.length

/-- The condition and the then block of an `if`, up to the start of its else
block. -/
def layoutThenArm (cond : Cond Stmt Expr)
    (layoutThen : CodeTable Stmt Expr → CodeTable Stmt Expr) (merge : BlockId)
    (code : CodeTable Stmt Expr) : CodeTable Stmt Expr :=
  let code := layoutActions cond.prelude code
  started (jumped merge (layoutThen (thenStart cond.expr code))) (code.blocks.length + 1)

/-- The blocks of a `loop` are, in order, the body and the exit. -/
def loopStart (code : CodeTable Stmt Expr) : CodeTable Stmt Expr :=
  started (forked 2 (.jump code.blocks.length) code) code.blocks.length

def layoutLoop (layoutBody : LoopFrame → CodeTable Stmt Expr → CodeTable Stmt Expr)
    (code : CodeTable Stmt Expr) : CodeTable Stmt Expr :=
  let body := code.blocks.length
  let exit := body + 1
  started (jumped body (layoutBody ⟨body, exit⟩ (loopStart code))) exit

/-- The blocks of a `while` are, in order, the header, the body and the exit. -/
def whileTest (cond : Cond Stmt Expr) (code : CodeTable Stmt Expr) : CodeTable Stmt Expr :=
  layoutActions cond.prelude
    (started (forked 3 (.jump code.blocks.length) code) code.blocks.length)

def whileStart (cond : Cond Stmt Expr) (code : CodeTable Stmt Expr) : CodeTable Stmt Expr :=
  started (terminated (whileTest cond code)
    (.branch cond.expr (code.blocks.length + 1) (code.blocks.length + 2)))
    (code.blocks.length + 1)

def layoutWhile (cond : Cond Stmt Expr)
    (layoutBody : LoopFrame → CodeTable Stmt Expr → CodeTable Stmt Expr)
    (code : CodeTable Stmt Expr) : CodeTable Stmt Expr :=
  let header := code.blocks.length
  let exit := header + 2
  started (jumped header (layoutBody ⟨header, exit⟩ (whileStart cond code))) exit

/-- The blocks of a counted loop are, in order, the header, the body, the latch and
the exit. -/
def countedHeader (code : CodeTable Stmt Expr) : CodeTable Stmt Expr :=
  started (forked 4 (.jump code.blocks.length) code) code.blocks.length

def countedStart (headerCond : Expr) (code : CodeTable Stmt Expr) : CodeTable Stmt Expr :=
  started (terminated (countedHeader code)
    (.branch headerCond (code.blocks.length + 1) (code.blocks.length + 3)))
    (code.blocks.length + 1)

def countedLatch (headerCond : Expr)
    (layoutBody : LoopFrame → CodeTable Stmt Expr → CodeTable Stmt Expr)
    (code : CodeTable Stmt Expr) : CodeTable Stmt Expr :=
  let latch := code.blocks.length + 2
  let exit := code.blocks.length + 3
  started (jumped latch (layoutBody ⟨latch, exit⟩ (countedStart headerCond code))) latch

def layoutCounted (headerCond : Expr) (latch : Latch Stmt Expr)
    (layoutBody : LoopFrame → CodeTable Stmt Expr → CodeTable Stmt Expr)
    (code : CodeTable Stmt Expr) : CodeTable Stmt Expr :=
  let header := code.blocks.length
  let exit := header + 3
  started (layoutLatch latch header exit (countedLatch headerCond layoutBody code)) exit

mutual

/-- The blocks of a statement, from an open current block. -/
def layoutPlan (frames : List LoopFrame) :
    Plan Stmt Expr → CodeTable Stmt Expr → CodeTable Stmt Expr
  | .straight actions, code => layoutActions actions code
  | .ifThen cond thenBlock tail, code =>
      let merge := code.blocks.length
      let code := layoutThenArm cond (layoutBlock frames thenBlock) merge (reserved 1 code)
      started (layoutTail frames tail merge code) merge
  | .whileLoop cond body, code =>
      layoutWhile cond (fun frame => layoutBlock (frame :: frames) body) code
  | .loop body, code => layoutLoop (fun frame => layoutBlock (frame :: frames) body) code
  | .counted init headerCond latch body, code =>
      layoutCounted headerCond latch (fun frame => layoutBlock (frame :: frames) body)
        (layoutActions init code)
  | .breakLoop, code =>
      match frames with
      | [] => code
      | frame :: _ => terminated code (.jump frame.breakTo)
  | .continueLoop, code =>
      match frames with
      | [] => code
      | frame :: _ => terminated code (.jump frame.continueTo)
  | .returnStmt, code => terminated code .ret

def layoutBlock (frames : List LoopFrame) :
    PlanBlock Stmt Expr → CodeTable Stmt Expr → CodeTable Stmt Expr
  | .nil, code => code
  | .cons stmt rest, code => layoutBlock frames rest (layoutPlan frames stmt (ensured code))

def layoutTail (frames : List LoopFrame) :
    PlanTail Stmt Expr → BlockId → CodeTable Stmt Expr → CodeTable Stmt Expr
  | .none, merge, code => jumped merge code
  | .otherwise block, merge, code => jumped merge (layoutBlock frames block code)
  | .elsif cond block tail, merge, code =>
      layoutTail frames tail merge (layoutThenArm cond (layoutBlock frames block) merge code)

end

end Layout

section Resolve

variable {Ast Atom Leaf Op LeafError : Type}

abbrev IrPlan (Leaf Op : Type) := Plan (Stmt Leaf Op) (Expr Leaf)
abbrev IrPlanBlock (Leaf Op : Type) := PlanBlock (Stmt Leaf Op) (Expr Leaf)
abbrev IrPlanTail (Leaf Op : Type) := PlanTail (Stmt Leaf Op) (Expr Leaf)

def LoweredExpr.cond (r : LoweredExpr Leaf Op) : Cond (Stmt Leaf Op) (Expr Leaf) :=
  ⟨r.actions, r.expr⟩

/-- What a condition means: what the leaves make of its expression, which must be a truth
value. -/
def resolveCond (L : LeafLowering Ast Atom Leaf Op LeafError) (names : NameTable) (cond : Ast)
    (what : String) : Lower LeafError (LoweredExpr Leaf Op) :=
  match L.lowerExprNoPorts names cond with
  | .error e => .error (.leaf e)
  | .ok r =>
      match L.validateTruthExpr r.names r.expr what with
      | .error e => .error (.leaf e)
      | .ok _ => .ok r

theorem lowerCond_eq (L : LeafLowering Ast Atom Leaf Op LeafError) (names : NameTable)
    (cond : Ast) (what : String) : lowerCond L names cond what = resolveCond L names cond what := by
  unfold lowerCond resolveCond
  cases L.lowerExprNoPorts names cond with
  | error e => rfl
  | ok r =>
      cases hvalid : L.validateTruthExpr r.names r.expr what with
      | error e => simp [liftLeaf, hvalid, bind, Except.bind]
      | ok _ => simp [liftLeaf, hvalid, bind, Except.bind, pure, Except.pure]

mutual

/-- Resolves the names of a statement.  `inLoop` says whether a loop encloses it. -/
def resolveStmt (L : LeafLowering Ast Atom Leaf Op LeafError) (inLoop : Bool) :
    SourceStmt Ast Atom → NameTable → Lower LeafError (IrPlan Leaf Op × NameTable)
  | .atom stmt, names => do
      let r ← liftLeaf (L.lowerAtom names stmt)
      return (.straight r.actions, r.names)
  | .ifStmt cond thenBlock tail, names => do
      let condIr ← resolveCond L names cond "if/elsif condition"
      let (thenPlan, names) ← resolveBlock L inLoop thenBlock condIr.names.pushScope
      let (tailPlan, names) ← resolveTail L inLoop tail names.popScope
      return (.ifThen (LoweredExpr.cond condIr) thenPlan tailPlan, names)
  | .whileStmt cond body, names => do
      let condIr ← resolveCond L names cond "while condition"
      let (bodyPlan, names) ← resolveBlock L true body condIr.names.pushScope
      return (.whileLoop (LoweredExpr.cond condIr) bodyPlan, names.popScope)
  | .loopStmt body, names => do
      let (bodyPlan, names) ← resolveBlock L true body names.pushScope
      return (.loop bodyPlan, names.popScope)
  | .repeatStmt count body, names => do
      let counter ← lowerRepeatCount L names.pushScope count
      let (bodyPlan, names) ← resolveBlock L true body counter.names.pushScope
      return (.counted counter.init counter.header counter.latch bodyPlan,
        names.popScope.popScope)
  | .forRange var lo hi body, names => do
      let counter ← lowerRangeBounds L names.pushScope var lo hi
      let (bodyPlan, names) ← resolveBlock L true body counter.names.pushScope
      return (.counted counter.init counter.header counter.latch bodyPlan,
        names.popScope.popScope)
  | .breakStmt, names =>
      if inLoop then .ok (.breakLoop, names)
      else .error (.invalid "`break` outside a loop")
  | .continueStmt, names =>
      if inLoop then .ok (.continueLoop, names)
      else .error (.invalid "`continue` outside a loop")
  | .returnStmt, names => .ok (.returnStmt, names)

def resolveBlock (L : LeafLowering Ast Atom Leaf Op LeafError) (inLoop : Bool) :
    SourceBlock Ast Atom → NameTable → Lower LeafError (IrPlanBlock Leaf Op × NameTable)
  | .nil, names => .ok (.nil, names)
  | .cons stmt rest, names => do
      let (stmtPlan, names) ← resolveStmt L inLoop stmt names
      let (restPlan, names) ← resolveBlock L inLoop rest names
      return (.cons stmtPlan restPlan, names)

def resolveTail (L : LeafLowering Ast Atom Leaf Op LeafError) (inLoop : Bool) :
    SourceTail Ast Atom → NameTable → Lower LeafError (IrPlanTail Leaf Op × NameTable)
  | .none, names => .ok (.none, names)
  | .otherwise block, names => do
      let (plan, names) ← resolveBlock L inLoop block names.pushScope
      return (.otherwise plan, names.popScope)
  | .elsif cond block tail, names => do
      let condIr ← resolveCond L names cond "if/elsif condition"
      let (blockPlan, names) ← resolveBlock L inLoop block condIr.names.pushScope
      let (tailPlan, names) ← resolveTail L inLoop tail names.popScope
      return (.elsif (LoweredExpr.cond condIr) blockPlan tailPlan, names)

end

end Resolve

end Harc.ControlLayout
