import Harc.IrExpr

/-!
The function builder of the lowering: name tables, the blocks under
construction with the insertion point, and the stack of enclosing loops.
Builders of inlined helper bodies are not modelled, so there is no inline frame
and the floors of name lookup and of the loop stack are zero.
-/

namespace Harc.FunctionBuilder

open Harc.TestbenchIr
open Harc.IrExpr

structure BlockInProgress (Stmt Expr : Type) where
  stmts : List Stmt
  term : Option (Terminator Expr)
deriving DecidableEq, Repr

structure LoopFrame where
  continueTo : BlockId
  breakTo : BlockId
deriving DecidableEq, Repr

inductive LowerError (LeafError : Type) where
  | leaf (error : LeafError)
  | invalid (message : String)
  /-- A failed `debug_assert!` or an index out of range. -/
  | panic
deriving DecidableEq, Repr

/-- One lexical scope, a finite map from source names to locals. -/
abbrev Scope := List (String × LocalId)

def Scope.remove (scope : Scope) (name : String) : Scope :=
  scope.filter fun entry => entry.1 != name

def Scope.insert (scope : Scope) (name : String) (id : LocalId) : Scope :=
  (name, id) :: Scope.remove scope name

/-- The locals of the function and the scopes, innermost first. -/
structure NameTable where
  locals : List TypedLocal
  localNames : List String
  scopes : List Scope
  tempCounter : Nat
deriving DecidableEq, Repr

namespace NameTable

def pushScope (names : NameTable) : NameTable :=
  { names with scopes := [] :: names.scopes }

def popScope (names : NameTable) : NameTable :=
  { names with scopes := names.scopes.tail }

def lookup (names : NameTable) (name : String) : Option LocalId :=
  names.scopes.findSome? fun scope => List.lookup name scope

/-- Changes the innermost scope. -/
def modifyScope (names : NameTable) (change : Scope → Scope) : NameTable :=
  match names.scopes with
  | [] => names
  | scope :: outer => { names with scopes := change scope :: outer }

/-- The first index from `n` on whose candidate is not taken. -/
def firstFree (taken : List String) (candidate : Nat → String) : Nat → Nat → Nat
  | 0, n => n
  | fuel + 1, n =>
      if candidate n ∈ taken then firstFree taken candidate fuel (n + 1) else n

/-- `base`, then `base_2`, `base_3` and so on. -/
def declareCandidate (base : String) (n : Nat) : String :=
  if n ≤ 1 then base else s!"{base}_{n}"

def declare (names : NameTable) (sourceName : String) : LocalId × NameTable :=
  let base := if sourceName = "_" then "_anon" else sourceName
  let n := firstFree names.localNames (declareCandidate base) (names.localNames.length + 1) 1
  let candidate := declareCandidate base n
  let id := names.locals.length
  let declared : NameTable := { names with
    locals := names.locals ++ [⟨candidate, .unknown⟩]
    localNames := candidate :: names.localNames }
  (id, declared.modifyScope fun scope => scope.insert sourceName id)

def tempCandidate (n : Nat) : String :=
  s!"__t{n}"

def freshTemp (names : NameTable) : LocalId × NameTable :=
  let n := firstFree names.localNames tempCandidate (names.localNames.length + 1)
    names.tempCounter
  (names.locals.length, { names with
    locals := names.locals ++ [⟨tempCandidate n, .unknown⟩]
    localNames := tempCandidate n :: names.localNames
    tempCounter := n + 1 })

def setLocalType (names : NameTable) (id : LocalId) (ty : IrType) : NameTable :=
  { names with locals := names.locals.modify id fun typed => { typed with ty := ty } }

end NameTable

/-- The blocks under construction and the insertion point. -/
structure CodeTable (Stmt Expr : Type) where
  blocks : List (BlockInProgress Stmt Expr)
  current : Nat
deriving DecidableEq, Repr

namespace CodeTable

variable {Stmt Expr : Type}

def newBlock (code : CodeTable Stmt Expr) : BlockId × CodeTable Stmt Expr :=
  (code.blocks.length, { code with blocks := code.blocks ++ [⟨[], none⟩] })

/-- The block is there and has no terminator yet. -/
def isOpenAt (code : CodeTable Stmt Expr) (b : BlockId) : Bool :=
  match code.blocks[b]? with
  | some block => block.term.isNone
  | none => false

def isTerminated (code : CodeTable Stmt Expr) : Bool :=
  match code.blocks[code.current]? with
  | some block => block.term.isSome
  | none => false

def startBlock {LeafError : Type} (code : CodeTable Stmt Expr) (b : BlockId) :
    Except (LowerError LeafError) (CodeTable Stmt Expr) :=
  if code.isOpenAt b then .ok { code with current := b } else .error .panic

def push {LeafError : Type} (code : CodeTable Stmt Expr) (s : Stmt) :
    Except (LowerError LeafError) (CodeTable Stmt Expr) :=
  if code.isOpenAt code.current then
    .ok { code with blocks :=
      code.blocks.modify code.current fun block => { block with stmts := block.stmts ++ [s] } }
  else .error .panic

def terminate {LeafError : Type} (code : CodeTable Stmt Expr) (t : Terminator Expr) :
    Except (LowerError LeafError) (CodeTable Stmt Expr) :=
  if code.isOpenAt code.current then
    .ok { code with blocks :=
      code.blocks.modify code.current fun block => { block with term := some t } }
  else .error .panic

/-- Statements after a `break`, `continue` or `return` are dead code; they go to
a fresh block that `finish` prunes. -/
def ensureOpenBlock {LeafError : Type} (code : CodeTable Stmt Expr) :
    Except (LowerError LeafError) (CodeTable Stmt Expr) :=
  if code.isTerminated then
    let (b, code) := code.newBlock
    code.startBlock b
  else .ok code

end CodeTable

structure FuncBuilder (Stmt Expr : Type) where
  names : NameTable
  code : CodeTable Stmt Expr
  /-- Innermost first. -/
  loopStack : List LoopFrame
deriving DecidableEq, Repr

/-- `FuncBuilder::new`: one scope and the entry block. -/
def FuncBuilder.new {Stmt Expr : Type} (componentFields : List String) :
    FuncBuilder Stmt Expr where
  names := { locals := [], localNames := componentFields, scopes := [[]], tempCounter := 0 }
  code := { blocks := [⟨[], none⟩], current := 0 }
  loopStack := []

/-- Applies a map to every successor of a terminator. -/
def remapTerminator {Expr : Type} (remap : BlockId → BlockId) :
    Terminator Expr → Terminator Expr
  | .jump b => .jump (remap b)
  | .branch cond a b => .branch cond (remap a) (remap b)
  | .waitCycles cycles clock b => .waitCycles cycles clock (remap b)
  | .waitCyclesSync cycles b => .waitCyclesSync cycles (remap b)
  | .waitTimePs ps b => .waitTimePs ps (remap b)
  | .waitUntil preds mode succ => .waitUntil preds mode (remap succ)
  | .waitUntilTimeout preds mode cycles onFire onTimeout =>
      .waitUntilTimeout preds mode cycles (remap onFire) (remap onTimeout)
  | .randomize target constraints succ => .randomize target constraints (remap succ)
  | .tbLifecycleCall function succ => .tbLifecycleCall function (remap succ)
  | .ret => .ret
  | .fatal args => .fatal args

/-- A block without a terminator falls through to the end of the function. -/
def sealBlock {Stmt Expr : Type} (b : BlockInProgress Stmt Expr) : BasicBlock Stmt Expr :=
  ⟨b.stmts, b.term.getD .ret⟩

theorem count_false_set_lt {marks : List Bool} {i : Nat} (hi : marks[i]? = some false) :
    (marks.set i true).count false < marks.count false := by
  obtain ⟨hlt, hi⟩ := List.getElem?_eq_some_iff.mp hi
  have hpos : 0 < marks.count false := List.count_pos_iff.mpr (hi ▸ List.getElem_mem hlt)
  have hset : (marks.set i true).count false = marks.count false - 1 := by
    rw [List.count_set hlt, hi]
    rfl
  omega

/-- Depth-first reachability with an explicit work stack, top first. -/
def reachableBlocks {Stmt Expr LeafError : Type} (blocks : List (BasicBlock Stmt Expr))
    (reachable : List Bool) (work : List BlockId) :
    Except (LowerError LeafError) (List Bool) :=
  match work with
  | [] => .ok reachable
  | i :: work =>
      match _hmark : reachable[i]?, blocks[i]? with
      | some true, _ => reachableBlocks blocks reachable work
      | some false, some block =>
          reachableBlocks blocks (reachable.set i true)
            (block.terminator.successors.reverse ++ work)
      | _, _ => .error .panic
termination_by (reachable.count false, work.length)
decreasing_by
  · exact Prod.Lex.right _ (by simp)
  · exact Prod.Lex.left _ _ (count_false_set_lt (by assumption))

/-- `remap`: the new index of each kept block. -/
def keptIndex (reachable : List Bool) (i : Nat) : BlockId :=
  if reachable[i]? = some true then (reachable.take i).count true else 0

/-- Seals all blocks, prunes the ones that the entry does not reach and remaps
the successors. -/
def FuncBuilder.finish {Stmt Expr LeafError : Type} (b : FuncBuilder Stmt Expr)
    (id : FunctionId) (name : String) (kind : FunctionKind) :
    Except (LowerError LeafError) (TbFunction Stmt Expr) := do
  let implicitReturnOld := (List.range b.code.blocks.length).filter fun i => b.code.isOpenAt i
  let sealedBlocks := b.code.blocks.map sealBlock
  let reachable ← reachableBlocks sealedBlocks (List.replicate sealedBlocks.length false) [0]
  let remap := keptIndex reachable
  let kept := (sealedBlocks.zip reachable).filterMap fun (block, marked) =>
    if marked then some { block with terminator := remapTerminator remap block.terminator }
    else none
  .ok { id, name, kind, blocks := kept, entry := 0,
        implicitReturns :=
          (implicitReturnOld.filter fun i => reachable[i]? = some true).map remap }

end Harc.FunctionBuilder
