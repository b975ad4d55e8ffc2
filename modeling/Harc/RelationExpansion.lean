import Harc.Ast
import Harc.TypedConstraint
import Mathlib.Data.List.Nodup
import Mathlib.Tactic.SplitIfs

/-!
Relation expansion, in the two places that do it: the typed lowering
(`constraints/typed_lower.rs`), which reports what it refuses, and the solver renderer
(`codegen/randomize_renderer.rs`), which leaves a refused call as it is.
-/

namespace Harc.RelationExpansion

open Harc.Ast
open Harc.TypedConstraint (CType Sign)

/-- A declared relation.  Its body is the clauses of a block, or the one of an alias. -/
structure Relation where
  name : String
  params : List String
  body : List Expr

structure Relations where
  decls : List Relation
  nodup : (decls.map Relation.name).Nodup

theorem Relation.nil_nodup : (([] : List Relation).map Relation.name).Nodup :=
  List.nodup_nil

def Relations.find (rels : Relations) (name : String) : Option Relation :=
  rels.decls.find? fun r => r.name == name

def relationExpansionBudget : Nat := 8192

def relationExpansionMaxDepth : Nat := 64

def maxErrors : Nat := 5

inductive LowerError where
  | bvLitOutOfRange (width : Nat) (value : BitVec 128)
  | widthMismatch (op : String) (lhsWidth rhsWidth : Nat)
  | signednessMismatch (op : String) (lhsSign rhsSign : Sign) (declared : Bool)
  | unresolvedIdent (name : String)
  | fieldNotFound (path : String)
  | nonBoolLogical (op : String) (found : CType)
  | nonBvBitwise (op : String) (found : CType)
  | badShiftAmount (found : CType)
  | setElemTypeMismatch (expected found : CType)
  | inRhsNotSetOrRange (found : CType)
  | unsupportedV1 (feature : String)
  | unknownRelation (name : String)
  | relationArityMismatch (name : String) (expected found : Nat)
  | recursiveRelation (name : String)
  | relationExpansionTooLarge (name : String)
  | relationNamedArgMisplaced (name arg : String) (expected : Option Nat) (found : Nat)
  | disallowedInConstraint (what : String)
  | intParseFailed (source : String)
  | badSoftWeight
deriving DecidableEq

def LowerError.isRelationError : LowerError → Bool
  | .unknownRelation _ | .relationArityMismatch _ _ _ | .recursiveRelation _
  | .relationExpansionTooLarge _ | .relationNamedArgMisplaced _ _ _ _ => true
  | _ => false

/-- The diagnostics of an expansion and the nodes it may still produce. -/
structure ExpandState where
  errors : List LowerError
  sawRelationError : Bool
  relationBudget : Nat
  kept : sawRelationError = true → errors ≠ []

namespace ExpandState

def init : ExpandState := ⟨[], false, relationExpansionBudget, by decide⟩

def charge (st : ExpandState) (nodes : Nat) : ExpandState :=
  { st with relationBudget := st.relationBudget - nodes }

/-- The first relation error is always kept, later ones never; other errors are kept up
to a number. -/
def recordError (st : ExpandState) (e : LowerError) : ExpandState :=
  if e.isRelationError then
    if st.sawRelationError then st
    else ⟨st.errors ++ [e], true, st.relationBudget, by simp⟩
  else if st.errors.length < maxErrors then
    ⟨st.errors ++ [e], st.sawRelationError, st.relationBudget, by simp⟩
  else st

/-- Recording an error leaves a trace. -/
theorem recordError_errors (st : ExpandState) (e : LowerError) :
    (st.recordError e).errors ≠ [] := by
  unfold recordError
  split
  · split
    · rename_i h
      exact st.kept h
    · simp
  · split
    · simp
    · rename_i h
      intro hnil
      simp [hnil, maxErrors] at h

@[simp] theorem recordError_relationBudget (st : ExpandState) (e : LowerError) :
    (st.recordError e).relationBudget = st.relationBudget := by
  unfold recordError
  split_ifs <;> rfl

@[simp] theorem charge_errors (st : ExpandState) (n : Nat) : (st.charge n).errors = st.errors := rfl

@[simp] theorem charge_sawRelationError (st : ExpandState) (n : Nat) :
    (st.charge n).sawRelationError = st.sawRelationError := rfl

@[simp] theorem charge_relationBudget (st : ExpandState) (n : Nat) :
    (st.charge n).relationBudget = st.relationBudget - n := rfl

end ExpandState

/-! ### One call -/

def isV1ConstraintBuiltin (name : String) (arity : Nat) : Bool :=
  name == "sum" && arity == 1

def buildRelationSubst (params : List String) (args : List CallArg) : Subst :=
  (params.zip args).foldl (fun subst p => subst.insert p.1 p.2.value) []

/-- The body of a relation for a call of it. -/
def Relation.unfold (rel : Relation) (args : List CallArg) : List Expr :=
  substituteList rel.body (buildRelationSubst rel.params args)

/-- The first argument that is named and does not stand at the position of its name. -/
def misplacedArg (params : List String) (args : List CallArg) :
    Option (String × Option Nat × Nat) :=
  args.zipIdx.findSome? fun entry =>
    match entry.1 with
    | .expr _ => none
    | .named name _ =>
        if params[entry.2]? = some name then none
        else some (name, params.findIdx? (· == name), entry.2)

/-- The checks of a call, in their order, and the substituted body. -/
def relationCall (rels : Relations) (stack : List String) (name : String)
    (args : List CallArg) : Except LowerError (List Expr) :=
  match rels.find name with
  | none =>
      .error (if isV1ConstraintBuiltin name args.length then
          .unsupportedV1 "v1 constraint builtin call"
        else .unknownRelation name)
  | some rel =>
      if rel.params.length ≠ args.length then
        .error (if isV1ConstraintBuiltin name args.length then
            .unsupportedV1 "v1 constraint builtin call"
          else .relationArityMismatch name rel.params.length args.length)
      else
        match misplacedArg rel.params args with
        | some (arg, expected, found) =>
            .error (.relationNamedArgMisplaced name arg expected found)
        | none =>
            if name ∈ stack then .error (.recursiveRelation name)
            else if relationExpansionMaxDepth ≤ stack.length then
              .error (.relationExpansionTooLarge name)
            else .ok (rel.unfold args)

/-! ### The typed lowering's expansion -/

/-- The function that a call names. -/
def calleeName : Expr → Option String
  | .ident name => some name
  | _ => none

/-- A callee is a name or a method. -/
def plainCallee : Expr → Bool
  | .ident _ => true
  | .field _ _ => true
  | _ => false

/-- The relation that a call with this callee names. -/
def calledRelation (rels : Relations) : Expr → Option String
  | .ident name => if (rels.find name).isSome then some name else none
  | _ => none

section Walk

variable (rels : Relations)
  (expand : String → List CallArg → ExpandState → Expr × ExpandState)

mutual

/-- The calls of relations in an expression are replaced, from left to right. -/
def expandRelationSubtree : Expr → ExpandState → Expr × ExpandState
  | .call callee args, st =>
      match calledRelation rels callee with
      | some name => expand name args st
      | none =>
          let c := expandRelationSubtree callee st
          let as := expandArgs args c.2
          (.call c.1 as.1, as.2)
  | .field target name, st =>
      let t := expandRelationSubtree target st
      (.field t.1 name, t.2)
  | .index target index, st =>
      let t := expandRelationSubtree target st
      let i := expandRelationSubtree index t.2
      (.index t.1 i.1, i.2)
  | .bitSlice target hi lo, st =>
      let t := expandRelationSubtree target st
      let h := expandRelationSubtree hi t.2
      let l := expandRelationSubtree lo h.2
      (.bitSlice t.1 h.1 l.1, l.2)
  | .forEachConstraint var iter body, st =>
      let i := expandRelationSubtree iter st
      let b := expandList body i.2
      (.forEachConstraint var i.1 b.1, b.2)
  | .cast expr ty, st =>
      let e := expandRelationSubtree expr st
      (.cast e.1 ty, e.2)
  | .unary op expr, st =>
      let e := expandRelationSubtree expr st
      (.unary op e.1, e.2)
  | .binary op lhs rhs, st =>
      let l := expandRelationSubtree lhs st
      let r := expandRelationSubtree rhs l.2
      (.binary op l.1 r.1, r.2)
  | .ternary cond thenBranch elseBranch, st =>
      let c := expandRelationSubtree cond st
      let t := expandRelationSubtree thenBranch c.2
      let e := expandRelationSubtree elseBranch t.2
      (.ternary c.1 t.1 e.1, e.2)
  | .paren inner, st =>
      let i := expandRelationSubtree inner st
      (.paren i.1, i.2)
  | .membership expr set, st =>
      let e := expandRelationSubtree expr st
      let s := expandRelationSubtree set e.2
      (.membership e.1 s.1, s.2)
  | .setLit items, st =>
      let is := expandList items st
      (.setLit is.1, is.2)
  | .rangeLit lo hi, st =>
      let l := expandBound lo st
      let h := expandBound hi l.2
      (.rangeLit l.1 h.1, h.2)
  | .int text, st => (.int text, st)
  | .bool value, st => (.bool value, st)
  | .string text, st => (.string text, st)
  | .number text, st => (.number text, st)
  | .ident name, st => (.ident name, st)
  | .implicitSelf, st => (.implicitSelf, st)
  | .other text, st => (.other text, st)

def expandList : List Expr → ExpandState → List Expr × ExpandState
  | [], st => ([], st)
  | e :: es, st =>
      let f := expandRelationSubtree e st
      let fs := expandList es f.2
      (f.1 :: fs.1, fs.2)

def expandBound : Option Expr → ExpandState → Option Expr × ExpandState
  | none, st => (none, st)
  | some e, st =>
      let f := expandRelationSubtree e st
      (some f.1, f.2)

def expandArgs : List CallArg → ExpandState → List CallArg × ExpandState
  | [], st => ([], st)
  | .expr value :: args, st =>
      let v := expandRelationSubtree value st
      let as := expandArgs args v.2
      (.expr v.1 :: as.1, as.2)
  | .named name value :: args, st =>
      let v := expandRelationSubtree value st
      let as := expandArgs args v.2
      (.named name v.1 :: as.1, as.2)

end

end Walk

section Clauses

variable (rels : Relations)
  (expand : String → List CallArg → ExpandState → List Expr × ExpandState)

/-- A call inside an expression stands for the conjunction of the clauses. -/
def expandRelationCallAsExpr (name : String) (args : List CallArg) (st : ExpandState) :
    Expr × ExpandState :=
  let out := expand name args st
  (andJoin out.1, out.2)

/-- The name and the arguments of a clause that is a call by name. -/
def calledName : Expr → Option (String × List CallArg)
  | .call (.ident name) args => some (name, args)
  | _ => none

def expandClause (e : Expr) (st : ExpandState) : List Expr × ExpandState :=
  match calledName e with
  | some (name, args) => expand name args st
  | none =>
      let out := expandRelationSubtree rels (expandRelationCallAsExpr expand) e st
      ([out.1], out.2)

def expandClauses : List Expr → ExpandState → List Expr × ExpandState
  | [], st => ([], st)
  | e :: es, st =>
      let f := expandClause rels expand e st
      let fs := expandClauses es f.2
      (f.1 ++ fs.1, fs.2)

end Clauses

/-- The nodes that an expansion step makes. -/
def producedNodes (bodies : List Expr) : Nat :=
  (bodies.map exprNodeCount).sum

/-- The expansion of a call, with the relations that are being expanded.  The first number
is how many more relations may be nested. -/
def expandTopLevelRelationCall (rels : Relations) :
    Nat → List String → String → List CallArg → ExpandState → List Expr × ExpandState
  | 0, stack, name, args, st =>
      match relationCall rels stack name args with
      | .error e => ([], st.recordError e)
      | .ok _ => ([], st)
  | depth + 1, stack, name, args, st =>
      match relationCall rels stack name args with
      | .error e => ([], st.recordError e)
      | .ok bodies =>
          if st.relationBudget < producedNodes bodies then
            ([], st.recordError (.relationExpansionTooLarge name))
          else
            expandClauses rels (expandTopLevelRelationCall rels depth (name :: stack)) bodies
              (st.charge (producedNodes bodies))

/-- The clauses that a constraint is expanded to. -/
def expandTopLevelClause (rels : Relations) (e : Expr) (st : ExpandState) :
    List Expr × ExpandState :=
  expandClause rels (expandTopLevelRelationCall rels relationExpansionMaxDepth []) e st

/-! ### The renderer's expansion -/

/-- The substituted body of a call, and the budget that is left.  A call that is refused
has none. -/
def tryExpandTopLevelCall (rels : Relations) (active : List String) (name : String)
    (args : List CallArg) (budget : Nat) : Option (List Expr × Nat) :=
  match rels.find name with
  | none => none
  | some rel =>
      if rel.params.length ≠ args.length then none
      else if name ∈ active then none
      else if relationExpansionMaxDepth ≤ active.length then none
      else if budget < producedNodes (rel.unfold args) then none
      else some (rel.unfold args, budget - producedNodes (rel.unfold args))

section RendererWalk

variable (expand : Bool → String → List CallArg → Nat → Option (List Expr × Nat))

mutual

/-- A call inside an expression becomes the conjunction of its clauses; the body of a
loop is a list of clauses.  A refused call is walked like any other call. -/
def rendererSubtree : Expr → Nat → Expr × Nat
  | .call callee args, budget =>
      match (calledName (.call callee args)).bind fun c => expand false c.1 c.2 budget with
      | some out => (andJoin out.1, out.2)
      | none =>
          let c := rendererSubtree callee budget
          let as := rendererArgs args c.2
          (.call c.1 as.1, as.2)
  | .field target name, budget =>
      let t := rendererSubtree target budget
      (.field t.1 name, t.2)
  | .index target index, budget =>
      let t := rendererSubtree target budget
      let i := rendererSubtree index t.2
      (.index t.1 i.1, i.2)
  | .bitSlice target hi lo, budget =>
      let t := rendererSubtree target budget
      let h := rendererSubtree hi t.2
      let l := rendererSubtree lo h.2
      (.bitSlice t.1 h.1 l.1, l.2)
  | .forEachConstraint var iter body, budget =>
      let i := rendererSubtree iter budget
      let b := expandRelationCallsBudgeted body i.2
      (.forEachConstraint var i.1 b.1, b.2)
  | .cast expr ty, budget =>
      let e := rendererSubtree expr budget
      (.cast e.1 ty, e.2)
  | .unary op expr, budget =>
      let e := rendererSubtree expr budget
      (.unary op e.1, e.2)
  | .binary op lhs rhs, budget =>
      let l := rendererSubtree lhs budget
      let r := rendererSubtree rhs l.2
      (.binary op l.1 r.1, r.2)
  | .ternary cond thenBranch elseBranch, budget =>
      let c := rendererSubtree cond budget
      let t := rendererSubtree thenBranch c.2
      let e := rendererSubtree elseBranch t.2
      (.ternary c.1 t.1 e.1, e.2)
  | .paren inner, budget =>
      let i := rendererSubtree inner budget
      (.paren i.1, i.2)
  | .membership expr set, budget =>
      let e := rendererSubtree expr budget
      let s := rendererSubtree set e.2
      (.membership e.1 s.1, s.2)
  | .setLit items, budget =>
      let is := rendererList items budget
      (.setLit is.1, is.2)
  | .rangeLit lo hi, budget =>
      let l := rendererBound lo budget
      let h := rendererBound hi l.2
      (.rangeLit l.1 h.1, h.2)
  | .int text, budget => (.int text, budget)
  | .bool value, budget => (.bool value, budget)
  | .string text, budget => (.string text, budget)
  | .number text, budget => (.number text, budget)
  | .ident name, budget => (.ident name, budget)
  | .implicitSelf, budget => (.implicitSelf, budget)
  | .other text, budget => (.other text, budget)

def rendererList : List Expr → Nat → List Expr × Nat
  | [], budget => ([], budget)
  | e :: es, budget =>
      let f := rendererSubtree e budget
      let fs := rendererList es f.2
      (f.1 :: fs.1, fs.2)

def rendererBound : Option Expr → Nat → Option Expr × Nat
  | none, budget => (none, budget)
  | some e, budget =>
      let f := rendererSubtree e budget
      (some f.1, f.2)

def rendererArgs : List CallArg → Nat → List CallArg × Nat
  | [], budget => ([], budget)
  | .expr value :: args, budget =>
      let v := rendererSubtree value budget
      let as := rendererArgs args v.2
      (.expr v.1 :: as.1, as.2)
  | .named name value :: args, budget =>
      let v := rendererSubtree value budget
      let as := rendererArgs args v.2
      (.named name v.1 :: as.1, as.2)

def expandRelationCallsBudgeted : List Expr → Nat → List Expr × Nat
  | [], budget => ([], budget)
  | e :: es, budget =>
      match (calledName e).bind fun c => expand true c.1 c.2 budget with
      | some out =>
          let fs := expandRelationCallsBudgeted es out.2
          (out.1 ++ fs.1, fs.2)
      | none =>
          let f := rendererSubtree e budget
          let fs := expandRelationCallsBudgeted es f.2
          (f.1 :: fs.1, fs.2)

end

end RendererWalk

/-- The expansion of a call, as clauses of a list or as parts of one expression. -/
def expandRendererCall (rels : Relations) :
    Nat → List String → Bool → String → List CallArg → Nat → Option (List Expr × Nat)
  | 0, _, _, _, _, _ => none
  | depth + 1, active, top, name, args, budget =>
      (tryExpandTopLevelCall rels active name args budget).map fun out =>
        if top then
          expandRelationCallsBudgeted (expandRendererCall rels depth (name :: active)) out.1 out.2
        else rendererList (expandRendererCall rels depth (name :: active)) out.1 out.2

def expandRelationCalls (rels : Relations) (exprs : List Expr) : List Expr :=
  (expandRelationCallsBudgeted (expandRendererCall rels relationExpansionMaxDepth []) exprs
    relationExpansionBudget).1

/-! ### The calls that the walk meets -/

/-- A call of a relation, with the loop variables around it. -/
structure DirectCall where
  bound : List String
  name : String
  args : List CallArg

section DirectCalls

variable (rels : Relations)

mutual

/-- The calls of relations in an expression that do not stand in an argument of another
one, in the order of the walk. -/
def directCalls : List String → Expr → List DirectCall
  | bound, .call callee args =>
      match calledRelation rels callee with
      | some name => [⟨bound, name, args⟩]
      | none => directCalls bound callee ++ argsDirectCalls bound args
  | bound, .field target _ => directCalls bound target
  | bound, .index target index => directCalls bound target ++ directCalls bound index
  | bound, .bitSlice target hi lo =>
      directCalls bound target ++ (directCalls bound hi ++ directCalls bound lo)
  | bound, .forEachConstraint var iter body =>
      directCalls bound iter ++ listDirectCalls (var :: bound) body
  | bound, .cast expr _ => directCalls bound expr
  | bound, .unary _ expr => directCalls bound expr
  | bound, .binary _ lhs rhs => directCalls bound lhs ++ directCalls bound rhs
  | bound, .ternary cond thenBranch elseBranch =>
      directCalls bound cond ++ (directCalls bound thenBranch ++ directCalls bound elseBranch)
  | bound, .paren inner => directCalls bound inner
  | bound, .membership expr set => directCalls bound expr ++ directCalls bound set
  | bound, .setLit items => listDirectCalls bound items
  | bound, .rangeLit lo hi => boundDirectCalls bound lo ++ boundDirectCalls bound hi
  | _, _ => []

def listDirectCalls : List String → List Expr → List DirectCall
  | _, [] => []
  | bound, e :: es => directCalls bound e ++ listDirectCalls bound es

def boundDirectCalls : List String → Option Expr → List DirectCall
  | _, none => []
  | bound, some e => directCalls bound e

def argsDirectCalls : List String → List CallArg → List DirectCall
  | _, [] => []
  | bound, .expr value :: args => directCalls bound value ++ argsDirectCalls bound args
  | bound, .named _ value :: args => directCalls bound value ++ argsDirectCalls bound args

end

end DirectCalls

/-! ### Calls -/

/-- A call that is not refused. -/
theorem relationCall_ok {rels : Relations} {stack : List String} {name : String}
    {args : List CallArg} {bodies : List Expr}
    (h : relationCall rels stack name args = .ok bodies) :
    ∃ rel, rels.find name = some rel ∧ rel.params.length = args.length ∧ name ∉ stack ∧
      stack.length < relationExpansionMaxDepth ∧ bodies = rel.unfold args := by
  unfold relationCall at h
  cases hf : rels.find name with
  | none => simp [hf] at h
  | some rel =>
      simp only [hf] at h
      refine ⟨rel, rfl, ?_⟩
      split at h
      · simp at h
      · rename_i hlen
        split at h
        · simp at h
        · split at h
          · simp at h
          · rename_i hstack
            split at h
            · simp at h
            · rename_i hdepth
              exact ⟨not_not.mp hlen, hstack, Nat.not_le.mp hdepth, (Except.ok.inj h).symm⟩

theorem calledRelation_eq_some {rels : Relations} {callee : Expr} {name : String}
    (h : calledRelation rels callee = some name) :
    calleeName callee = some name ∧ (rels.find name).isSome = true := by
  cases callee with
  | ident n =>
      simp only [calledRelation] at h
      split at h
      · rename_i hfind
        obtain rfl : n = name := Option.some.inj h
        exact ⟨rfl, hfind⟩
      · simp at h
  | _ => simp [calledRelation] at h

theorem calledName_eq_some {e : Expr} {name : String} {args : List CallArg}
    (h : calledName e = some (name, args)) : e = .call (.ident name) args := by
  unfold calledName at h
  split at h
  · simp only [Option.some.injEq, Prod.mk.injEq] at h
    rw [h.1, h.2]
  · simp at h

theorem substituteList_mem (es : List Expr) (subst : Subst) :
    ∀ f ∈ substituteList es subst, ∃ e ∈ es, f = substituteRelationIdents e subst := by
  induction es with
  | nil => simp [substituteList]
  | cons e es ih =>
      intro f hf
      rw [substituteList, List.mem_cons] at hf
      rcases hf with rfl | hf
      · exact ⟨e, List.mem_cons_self, rfl⟩
      · obtain ⟨g, hg, rfl⟩ := ih f hf
        exact ⟨g, List.mem_cons_of_mem _ hg, rfl⟩

/-! ### Relations between states -/

/-- A relation between the state before and the state after, kept by everything that an
expansion does to its state. -/
structure ExpandRelation (R : ExpandState → ExpandState → Prop) : Prop where
  refl : ∀ st, R st st
  trans : ∀ {st₁ st₂ st₃}, R st₁ st₂ → R st₂ st₃ → R st₁ st₃
  recordError : ∀ (st : ExpandState) e, R st (st.recordError e)
  charge : ∀ (st : ExpandState) n, n ≤ st.relationBudget → R st (st.charge n)

section Steps

variable {R : ExpandState → ExpandState → Prop} (h : ExpandRelation R) (rels : Relations)

include h

section Walk

variable (expand : String → List CallArg → ExpandState → Expr × ExpandState)

mutual

theorem walk_steps (hexpand : ∀ name args st, R st (expand name args st).2) :
    ∀ (e : Expr) (st : ExpandState), R st (expandRelationSubtree rels expand e st).2
  | .call callee args, st => by
      rw [expandRelationSubtree]
      cases calledRelation rels callee with
      | some name => exact hexpand name args st
      | none => exact h.trans (walk_steps hexpand callee st) (walkArgs_steps hexpand args _)
  | .field target _, st => by
      rw [expandRelationSubtree]
      exact walk_steps hexpand target st
  | .index target index, st => by
      rw [expandRelationSubtree]
      exact h.trans (walk_steps hexpand target st) (walk_steps hexpand index _)
  | .bitSlice target hi lo, st => by
      rw [expandRelationSubtree]
      exact h.trans (walk_steps hexpand target st)
        (h.trans (walk_steps hexpand hi _) (walk_steps hexpand lo _))
  | .forEachConstraint _ iter body, st => by
      rw [expandRelationSubtree]
      exact h.trans (walk_steps hexpand iter st) (walkList_steps hexpand body _)
  | .cast expr _, st => by
      rw [expandRelationSubtree]
      exact walk_steps hexpand expr st
  | .unary _ expr, st => by
      rw [expandRelationSubtree]
      exact walk_steps hexpand expr st
  | .binary _ lhs rhs, st => by
      rw [expandRelationSubtree]
      exact h.trans (walk_steps hexpand lhs st) (walk_steps hexpand rhs _)
  | .ternary cond thenBranch elseBranch, st => by
      rw [expandRelationSubtree]
      exact h.trans (walk_steps hexpand cond st)
        (h.trans (walk_steps hexpand thenBranch _) (walk_steps hexpand elseBranch _))
  | .paren inner, st => by
      rw [expandRelationSubtree]
      exact walk_steps hexpand inner st
  | .membership expr set, st => by
      rw [expandRelationSubtree]
      exact h.trans (walk_steps hexpand expr st) (walk_steps hexpand set _)
  | .setLit items, st => by
      rw [expandRelationSubtree]
      exact walkList_steps hexpand items st
  | .rangeLit lo hi, st => by
      rw [expandRelationSubtree]
      exact h.trans (walkBound_steps hexpand lo st) (walkBound_steps hexpand hi _)
  | .int _, st | .bool _, st | .string _, st | .number _, st | .ident _, st
  | .implicitSelf, st | .other _, st => by
      rw [expandRelationSubtree]
      exact h.refl st

theorem walkList_steps (hexpand : ∀ name args st, R st (expand name args st).2) :
    ∀ (es : List Expr) (st : ExpandState), R st (expandList rels expand es st).2
  | [], st => h.refl st
  | e :: es, st => h.trans (walk_steps hexpand e st) (walkList_steps hexpand es _)

theorem walkBound_steps (hexpand : ∀ name args st, R st (expand name args st).2) :
    ∀ (b : Option Expr) (st : ExpandState), R st (expandBound rels expand b st).2
  | none, st => h.refl st
  | some e, st => walk_steps hexpand e st

theorem walkArgs_steps (hexpand : ∀ name args st, R st (expand name args st).2) :
    ∀ (args : List CallArg) (st : ExpandState), R st (expandArgs rels expand args st).2
  | [], st => h.refl st
  | .expr value :: args, st =>
      h.trans (walk_steps hexpand value st) (walkArgs_steps hexpand args _)
  | .named _ value :: args, st =>
      h.trans (walk_steps hexpand value st) (walkArgs_steps hexpand args _)

end

end Walk

section Clauses

variable (expand : String → List CallArg → ExpandState → List Expr × ExpandState)

theorem expandClause_steps (hexpand : ∀ name args st, R st (expand name args st).2)
    (e : Expr) (st : ExpandState) : R st (expandClause rels expand e st).2 := by
  unfold expandClause
  split
  · exact hexpand _ _ st
  · exact walk_steps h rels _ (fun name args st => hexpand name args st) e st

theorem expandClauses_steps (hexpand : ∀ name args st, R st (expand name args st).2)
    (es : List Expr) (st : ExpandState) : R st (expandClauses rels expand es st).2 := by
  induction es generalizing st with
  | nil => exact h.refl st
  | cons e es ih =>
      rw [expandClauses]
      exact h.trans (expandClause_steps h rels expand hexpand e st) (ih _)

end Clauses

theorem expandCall_steps (depth : Nat) : ∀ stack name args st,
    R st (expandTopLevelRelationCall rels depth stack name args st).2 := by
  induction depth with
  | zero =>
      intro stack name args st
      rw [expandTopLevelRelationCall]
      split
      · exact h.recordError st _
      · exact h.refl st
  | succ depth ih =>
      intro stack name args st
      rw [expandTopLevelRelationCall]
      split
      · exact h.recordError st _
      · split
        · exact h.recordError st (.relationExpansionTooLarge name)
        · rename_i hbudget
          exact h.trans (h.charge st _ (Nat.not_lt.mp hbudget))
            (expandClauses_steps h rels _ (ih _) _ _)

end Steps

end Harc.RelationExpansion
