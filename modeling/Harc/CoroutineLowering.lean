import Mathlib.Data.Finset.Card
import Mathlib.Data.Finset.Range
import Mathlib.Logic.Function.Basic
import Harc.TestbenchIr

/-!
The `lower_coroutine` pass: every resume point of a suspending function gets a
state, and the jump/branch chains between two suspensions are flattened into
guarded transitions.
-/

namespace Harc.CoroutineLowering

open Harc.TestbenchIr

abbrev StateId := Nat

/-- One conjunct of a condition summary: a branch condition and the edge that
the path took. -/
structure GuardTerm (Expr : Type) where
  cond : Expr
  taken : Bool
deriving DecidableEq, Repr

inductive Trigger (Expr : Type) where
  | cyclesElapsed (cycles : Expr) (clock : Option WaitClock)
  | timeElapsedPs (ps : Int)
  | predsHold (preds : List (PredSrc Expr)) (mode : WaitMode)
  | timeout (cycles : Expr)
  | solved (constraints : ConstraintRef)
  | done
  | fatal
  | lifecycleInlined (function : FunctionId)
deriving DecidableEq, Repr

structure Transition (Expr : Type) where
  source : StateId
  guard : List (GuardTerm Expr)
  trigger : Trigger Expr
  target : Option StateId
deriving DecidableEq, Repr

inductive LowerCoroutineError where
  | unsuspendedLoop (func : FunctionId) (name : String) (block : BlockId)
  /-- The slice-index panic of `TbFunction::block`. -/
  | indexPanic (block : BlockId)
deriving DecidableEq, Repr

/-- The side tables of the pass, as finite maps keyed by function. -/
structure CoroutineMetadata (Expr : Type) where
  stateEnum : FunctionId → Option (List BlockId)
  transitionTable : FunctionId → Option (List (Transition Expr))

variable {Stmt Expr : Type}

/-- Resume successors of a suspending terminator, empty for the others. -/
def resumeSuccessors : Terminator Expr → List BlockId
  | .waitCycles _ _ succ => [succ]
  | .waitCyclesSync _ succ => [succ]
  | .waitTimePs _ succ => [succ]
  | .waitUntil _ _ succ => [succ]
  | .waitUntilTimeout _ _ _ onFire onTimeout => [onFire, onTimeout]
  | .randomize _ _ succ => [succ]
  | .tbLifecycleCall _ succ => [succ]
  | .jump _ | .branch _ _ _ | .ret | .fatal _ => []

/-- The transitions that `collapse` emits at a terminator that ends a chain.
`stateAt` resolves the state of a resume successor. -/
def leafTransitions (stateAt : BlockId → Option StateId) (source : StateId)
    (guard : List (GuardTerm Expr)) : Terminator Expr → List (Transition Expr)
  | .waitCycles cycles clock succ =>
      [⟨source, guard, .cyclesElapsed cycles clock, stateAt succ⟩]
  | .waitCyclesSync cycles succ =>
      [⟨source, guard, .cyclesElapsed cycles none, stateAt succ⟩]
  | .waitTimePs ps succ => [⟨source, guard, .timeElapsedPs ps, stateAt succ⟩]
  | .waitUntil preds mode succ =>
      [⟨source, guard, .predsHold preds mode, stateAt succ⟩]
  | .waitUntilTimeout preds mode cycles onFire onTimeout =>
      [⟨source, guard, .predsHold preds mode, stateAt onFire⟩,
        ⟨source, guard, .timeout cycles, stateAt onTimeout⟩]
  | .randomize _ constraints succ =>
      [⟨source, guard, .solved constraints, stateAt succ⟩]
  | .tbLifecycleCall function succ =>
      [⟨source, guard, .lifecycleInlined function, stateAt succ⟩]
  | .ret => [⟨source, guard, .done, none⟩]
  | .fatal _ => [⟨source, guard, .fatal, none⟩]
  | .jump _ | .branch _ _ _ => []

/-- Blocks that the current path has not visited; the measure of `collapse`. -/
def unvisited (func : TbFunction Stmt Expr) (path : List BlockId) : Nat :=
  ((Finset.range func.blocks.length).filter (· ∉ path)).card

theorem unvisited_append_lt (func : TbFunction Stmt Expr) (path : List BlockId)
    (block : BlockId) (hblock : block < func.blocks.length) (hpath : block ∉ path) :
    unvisited func (path ++ [block]) < unvisited func path := by
  apply Finset.card_lt_card
  rw [Finset.ssubset_iff_of_subset]
  · refine ⟨block, ?_, ?_⟩
    · simp only [Finset.mem_filter, Finset.mem_range]
      exact ⟨hblock, hpath⟩
    · simp
  · intro b hb
    simp only [Finset.mem_filter, List.mem_append, not_or] at hb ⊢
    exact ⟨hb.1, hb.2.1⟩

/-- Depth-first walk from `block` through the non-suspending terminators.  The
vectors that the code pushes to and pops from are passed down here: `guard` is
the running condition summary, `path` the current path for cycle detection and
`out` the transitions emitted so far. -/
def collapse (func : TbFunction Stmt Expr) (source : StateId) (block : BlockId)
    (guard : List (GuardTerm Expr)) (path : List BlockId)
    (stateOf : List (Option StateId)) (out : List (Transition Expr)) :
    Except LowerCoroutineError (List (Transition Expr)) :=
  if hpath : block ∈ path then
    .error (.unsuspendedLoop func.id func.name block)
  else if hblock : block < func.blocks.length then
    match func.blocks[block].terminator with
    | .jump t => collapse func source t guard (path ++ [block]) stateOf out
    | .branch cond thenBlock elseBlock =>
        match collapse func source thenBlock (guard ++ [⟨cond, true⟩])
            (path ++ [block]) stateOf out with
        | .error e => .error e
        | .ok out =>
            collapse func source elseBlock (guard ++ [⟨cond, false⟩])
              (path ++ [block]) stateOf out
    | terminator =>
        .ok (out ++ leafTransitions (fun b => (stateOf[b]?).join) source guard terminator)
  else
    .error (.indexPanic block)
termination_by unvisited func path
decreasing_by
  all_goals exact unvisited_append_lt func path block hblock hpath

/-- `is_resume`: the entry and every suspend successor. -/
def isResume (func : TbFunction Stmt Expr) : List Bool :=
  func.blocks.foldl
    (fun marks b => (resumeSuccessors b.terminator).foldl
      (fun marks s => marks.set s true) marks)
    ((List.replicate func.blocks.length false).set func.entry true)

/-- Entry first, then the remaining resume points in block order. -/
def resumeStates (func : TbFunction Stmt Expr) : List BlockId :=
  func.entry :: (isResume func).zipIdx.filterMap fun (marked, block) =>
    if marked && block != func.entry then some block else none

/-- `state_of`: the state of each resume block. -/
def stateOfBlocks (nblocks : Nat) (states : List BlockId) : List (Option StateId) :=
  states.zipIdx.foldl (fun table (b, si) => table.set b (some si))
    (List.replicate nblocks none)

/-- The loop over the states, each collapsing into the shared output. -/
def collapseStates (func : TbFunction Stmt Expr) (stateOf : List (Option StateId)) :
    List (BlockId × StateId) → List (Transition Expr) →
      Except LowerCoroutineError (List (Transition Expr))
  | [], out => .ok out
  | (resumeBlock, si) :: rest, out =>
      match collapse func si resumeBlock [] [] stateOf out with
      | .error e => .error e
      | .ok out => collapseStates func stateOf rest out

def tagFunction (func : TbFunction Stmt Expr) :
    Except LowerCoroutineError (List BlockId × List (Transition Expr)) :=
  let states := resumeStates func
  let stateOf := stateOfBlocks func.blocks.length states
  match collapseStates func stateOf states.zipIdx [] with
  | .error e => .error e
  | .ok transitions => .ok (states, transitions)

/-- The kinds that the pass tags; every other function is skipped. -/
def isTagged : FunctionKind → Bool
  | .testBody | .samplerAuto | .transactorBody => true
  | _ => false

def runFunctions : List (TbFunction Stmt Expr) → CoroutineMetadata Expr →
    Except LowerCoroutineError (CoroutineMetadata Expr)
  | [], tables => .ok tables
  | func :: rest, tables =>
      if isTagged func.kind then
        match tagFunction func with
        | .error e => .error e
        | .ok (states, transitions) =>
            runFunctions rest
              { stateEnum := Function.update tables.stateEnum func.id (some states)
                transitionTable :=
                  Function.update tables.transitionTable func.id (some transitions) }
      else
        runFunctions rest tables

def run (prog : TbProgram Stmt Expr) :
    Except LowerCoroutineError (CoroutineMetadata Expr) :=
  runFunctions prog.functions ⟨fun _ => none, fun _ => none⟩

end Harc.CoroutineLowering
