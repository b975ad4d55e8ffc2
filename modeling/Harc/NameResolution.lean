import Harc.Fallible
import Harc.LoweringState

/-!
The names in constraints are resolved twice: by the reference pass of constraint
elaboration (`constraints/mod.rs`), which records what a clause depends on, and by typed
lowering.  Both have loop variables first.  The reference pass prefers a field to a
variant of an enum, typed lowering the variant to the field.
-/

namespace Harc.NameResolution

open Harc.Fallible
open Harc.Ast
open Harc.ConstraintExpr (UnaryOp BinaryOp)
open Harc.TypedConstraint
open Harc.RelationExpansion
open Harc.ConstraintSchema
open Harc.TypedLowering
open Harc.LoweringState

/-! ### The untyped constraint IR -/

inductive ConstraintExpr where
  | ident (name : String)
  | fieldRef (root field : String)
  | intLiteral (text : String)
  | boolLiteral (value : Bool)
  | unary (op : CUnaryOp) (expr : ConstraintExpr)
  | binary (op : CBinaryOp) (lhs rhs : ConstraintExpr)
  | membership (expr set : ConstraintExpr)
  | range (lo hi : Option ConstraintExpr)
  | set (items : List ConstraintExpr)
  | relationCall (name : String) (args : List ConstraintExpr)
  | fieldMethodCall (target : ConstraintExpr) (method : String) (args : List ConstraintExpr)
  | forEach (var : String) (iter : ConstraintExpr) (body : List ConstraintExpr)

/-- A field of a name, or of a path that is one already. -/
def constraintField (target : ConstraintExpr) (name : String) : Except String ConstraintExpr :=
  match target with
  | .ident root => .ok (.fieldRef root name)
  | .fieldRef root field => .ok (.fieldRef root (field ++ "." ++ name))
  | _ => .error s!"constraint field access `{name}` has unsupported target shape"

/-- The name of an operator that no constraint has. -/
def operatorName : BinaryOp → String
  | .pipeImplies => "PipeImplies"
  | .pipeImpliesNext => "PipeImpliesNext"
  | .throughout => "Throughout"
  | .within => "Within"
  | .intersect => "Intersect"
  | _ => ""

mutual

def lowerConstraintExprInner : Expr → Except String ConstraintExpr
  | .ident name => .ok (.ident name)
  | .field target name => do
      let target ← lowerConstraintExprInner target
      constraintField target name
  | .int text => .ok (.intLiteral text)
  | .bool value => .ok (.boolLiteral value)
  | .paren inner => lowerConstraintExprInner inner
  | .unary op expr => do
      let expr ← lowerConstraintExprInner expr
      .ok (.unary (lowerUnaryOp op) expr)
  | .binary op lhs rhs =>
      if op = .in ∨ op = .inside then do
        let lhs ← lowerConstraintExprInner lhs
        let rhs ← lowerConstraintExprInner rhs
        .ok (.membership lhs rhs)
      else
        match mapBinaryOp op with
        | none =>
            .error s!"constraint operator `{operatorName op}` is not supported by typed lowering"
        | some cop => do
            let lhs ← lowerConstraintExprInner lhs
            let rhs ← lowerConstraintExprInner rhs
            .ok (.binary cop lhs rhs)
  | .membership expr set => do
      let expr ← lowerConstraintExprInner expr
      let set ← lowerConstraintExprInner set
      .ok (.membership expr set)
  | .rangeLit lo hi => do
      let lo ← lowerConstraintBound lo
      let hi ← lowerConstraintBound hi
      .ok (.range lo hi)
  | .setLit items => do
      let items ← lowerConstraintList items
      .ok (.set items)
  | .call (.field target name) args => do
      let args ← lowerConstraintArgs args
      let target ← lowerConstraintExprInner target
      .ok (.fieldMethodCall target name args)
  | .call (.ident name) args => do
      let args ← lowerConstraintArgs args
      .ok (.relationCall name args)
  | .call _ args => do
      let _ ← lowerConstraintArgs args
      .error "constraint call callee must be a relation name"
  | .forEachConstraint var iter body => do
      let iter ← lowerConstraintExprInner iter
      let body ← lowerConstraintList body
      .ok (.forEach var iter body)
  | .string _ | .number _ | .implicitSelf | .index _ _ | .bitSlice _ _ _ | .cast _ _
  | .ternary _ _ _ | .other _ =>
      .error "constraint expression is not supported by typed lowering"

def lowerConstraintList : List Expr → Except String (List ConstraintExpr)
  | [] => .ok []
  | e :: es => do
      let f ← lowerConstraintExprInner e
      let fs ← lowerConstraintList es
      .ok (f :: fs)

def lowerConstraintBound : Option Expr → Except String (Option ConstraintExpr)
  | none => .ok none
  | some e => do
      let f ← lowerConstraintExprInner e
      .ok (some f)

def lowerConstraintArgs : List CallArg → Except String (List ConstraintExpr)
  | [] => .ok []
  | .expr value :: args => do
      let f ← lowerConstraintExprInner value
      let fs ← lowerConstraintArgs args
      .ok (f :: fs)
  | .named _ value :: args => do
      let f ← lowerConstraintExprInner value
      let fs ← lowerConstraintArgs args
      .ok (f :: fs)

end

/-! ### The reference pass -/

structure EnumVariantSchema where
  enumName : String
  variant : String
  index : Nat
deriving DecidableEq

structure ConstraintFieldRef where
  root : Option String
  field : String
  ty : FieldType
  nonRandom : Bool
deriving DecidableEq

/-- What a clause refers to, and the names that the pass could not resolve. -/
structure ConstraintRefs where
  fields : List ConstraintFieldRef
  enumVariants : List EnumVariantSchema
  relationCalls : List String
  errors : List String

namespace ConstraintRefs

def empty : ConstraintRefs := ⟨[], [], [], []⟩

def append (a b : ConstraintRefs) : ConstraintRefs :=
  ⟨a.fields ++ b.fields, a.enumVariants ++ b.enumVariants, a.relationCalls ++ b.relationCalls,
    a.errors ++ b.errors⟩

def ofField (root : Option String) (name : String) (f : TxnField) : ConstraintRefs :=
  { empty with fields := [⟨root, name, f.ty, f.nonRandom⟩] }

def ofError (message : String) : ConstraintRefs :=
  { empty with errors := [message] }

@[simp] theorem empty_fields : empty.fields = [] := rfl

@[simp] theorem append_fields (a b : ConstraintRefs) :
    (a.append b).fields = a.fields ++ b.fields := rfl

@[simp] theorem ofField_fields (root : Option String) (name : String) (f : TxnField) :
    (ofField root name f).fields = [⟨root, name, f.ty, f.nonRandom⟩] := rfl

@[simp] theorem ofError_fields (message : String) : (ofError message).fields = [] := rfl

end ConstraintRefs

/-- A parameter has the name of its type, if it has one. -/
structure RefValidationCtx where
  transaction : Option TxnSchema
  params : List (String × Option String)
  records : List TxnSchema
  relationNames : List String
  enumVariants : List EnumVariantSchema
  consts : List String

section Collect

variable (ctx : RefValidationCtx)

def collectIdent (locals : List String) (name : String) : ConstraintRefs :=
  if name ∈ locals then .empty
  else if (ctx.params.find? fun p => p.1 == name).isSome then .empty
  else if name ∈ ctx.consts then .empty
  else
    match ctx.transaction.bind fun txn => findTxnField txn name with
    | some f => .ofField none name f
    | none =>
        match ctx.enumVariants.find? fun v => v.variant == name with
        | some v => { ConstraintRefs.empty with enumVariants := [v] }
        | none => .ofError s!"constraint references unknown name `{name}`"

/-- A field of a parameter. -/
def collectParamField (root field : String) (typeName : Option String) : ConstraintRefs :=
  match typeName with
  | none => .ofError s!"constraint parameter `{root}` has no transaction type for field `{field}`"
  | some ty =>
      match ctx.records.find? fun txn => txn.name == ty with
      | none => .ofError s!"constraint parameter `{root}` references unknown transaction `{ty}`"
      | some txn =>
          match findTxnField txn field with
          | some f => .ofField (some root) field f
          | none => .ofError s!"constraint references unknown field `{field}` on `{ty}`"

def collectFieldRef (locals : List String) (root field : String) : ConstraintRefs :=
  if root ∈ locals then .empty
  else
    match ctx.params.find? fun p => p.1 == root with
    | some p => collectParamField ctx root field p.2
    | none =>
        match ctx.transaction with
        | none => .ofError s!"constraint references unknown parameter `{root}`"
        | some txn =>
            match findTxnField txn (root ++ "." ++ field) with
            | some f => .ofField (some root) (root ++ "." ++ field) f
            | none =>
                match findTxnField txn field with
                | some f => .ofField (some root) field f
                | none => .ofError s!"constraint references unknown field `{field}`"

mutual

def collectConstraintRefsWithLocals : ConstraintExpr → List String → ConstraintRefs
  | .ident name, locals => collectIdent ctx locals name
  | .fieldRef root field, locals => collectFieldRef ctx locals root field
  | .unary _ expr, locals => collectConstraintRefsWithLocals expr locals
  | .binary _ lhs rhs, locals =>
      (collectConstraintRefsWithLocals lhs locals).append
        (collectConstraintRefsWithLocals rhs locals)
  | .membership expr set, locals =>
      (collectConstraintRefsWithLocals expr locals).append
        (collectConstraintRefsWithLocals set locals)
  | .range lo hi, locals => (collectBound lo locals).append (collectBound hi locals)
  | .set items, locals => collectList items locals
  | .relationCall name args, locals =>
      (if name ∈ ctx.relationNames then { ConstraintRefs.empty with relationCalls := [name] }
        else .ofError s!"constraint calls unknown relation `{name}`").append
          (collectList args locals)
  | .fieldMethodCall target _ args, locals =>
      (collectConstraintRefsWithLocals target locals).append (collectList args locals)
  | .forEach var iter body, locals =>
      (collectConstraintRefsWithLocals iter locals).append (collectList body (var :: locals))
  | .intLiteral _, _ | .boolLiteral _, _ => .empty

def collectList : List ConstraintExpr → List String → ConstraintRefs
  | [], _ => .empty
  | e :: es, locals => (collectConstraintRefsWithLocals e locals).append (collectList es locals)

def collectBound : Option ConstraintExpr → List String → ConstraintRefs
  | none, _ => .empty
  | some e, locals => collectConstraintRefsWithLocals e locals

end

end Collect

/-! ### The identifiers of a constraint -/

/-- An identifier, with the loop variables around it. -/
structure Occurrence where
  scope : List String
  name : String

mutual

/-- The identifiers of a constraint that stand for a value, in the order of the reference
pass.  Those of a dotted path are part of the path. -/
def identOccurrences : List String → Expr → List Occurrence
  | scope, .ident name => [⟨scope, name⟩]
  | scope, .paren inner => identOccurrences scope inner
  | scope, .unary _ expr => identOccurrences scope expr
  | scope, .binary _ lhs rhs => identOccurrences scope lhs ++ identOccurrences scope rhs
  | scope, .membership expr set => identOccurrences scope expr ++ identOccurrences scope set
  | scope, .rangeLit lo hi => boundOccurrences scope lo ++ boundOccurrences scope hi
  | scope, .setLit items => listOccurrences scope items
  | scope, .call (.field target _) args =>
      identOccurrences scope target ++ argsOccurrences scope args
  | scope, .call (.ident _) args => argsOccurrences scope args
  | scope, .forEachConstraint var iter body =>
      identOccurrences scope iter ++ listOccurrences (var :: scope) body
  | _, _ => []

def listOccurrences : List String → List Expr → List Occurrence
  | _, [] => []
  | scope, e :: es => identOccurrences scope e ++ listOccurrences scope es

def boundOccurrences : List String → Option Expr → List Occurrence
  | _, none => []
  | scope, some e => identOccurrences scope e

def argsOccurrences : List String → List CallArg → List Occurrence
  | _, [] => []
  | scope, .expr value :: args => identOccurrences scope value ++ argsOccurrences scope args
  | scope, .named _ value :: args => identOccurrences scope value ++ argsOccurrences scope args

end

section CollectLemmas

variable (ctx : RefValidationCtx)

/-- The references that come from identifiers; those of dotted paths have a root. -/
def ConstraintRefs.identFields (refs : ConstraintRefs) : List ConstraintFieldRef :=
  refs.fields.filter fun r => r.root.isNone

@[simp] theorem identFields_append (a b : ConstraintRefs) :
    (a.append b).identFields = a.identFields ++ b.identFields :=
  List.filter_append _ _

@[simp] theorem identFields_empty : ConstraintRefs.empty.identFields = [] := rfl

@[simp] theorem identFields_ofError (message : String) :
    (ConstraintRefs.ofError message).identFields = [] := rfl

theorem identFields_collectFieldRef (locals : List String) (root field : String) :
    (collectFieldRef ctx locals root field).identFields = [] := by
  unfold collectFieldRef collectParamField
  split
  · rfl
  · split
    · split
      · rfl
      · split
        · rfl
        · split <;> rfl
    · split
      · rfl
      · split
        · rfl
        · split <;> rfl

theorem identFields_collectIdent (locals : List String) (name : String) :
    (collectIdent ctx locals name).identFields = (collectIdent ctx locals name).fields := by
  unfold collectIdent
  split
  · rfl
  · split
    · rfl
    · split
      · rfl
      · split
        · rfl
        · split <;> rfl

theorem constraintField_ok {target ir : ConstraintExpr} {name : String}
    (h : constraintField target name = .ok ir) : ∃ root field, ir = .fieldRef root field := by
  unfold constraintField at h
  split at h
  · exact ⟨_, _, (Except.ok.inj h).symm⟩
  · exact ⟨_, _, (Except.ok.inj h).symm⟩
  · simp at h

/-- The references that a list of identifiers gives. -/
def occurrenceFields (os : List Occurrence) : List ConstraintFieldRef :=
  os.flatMap fun o => (collectIdent ctx o.scope o.name).fields

theorem occurrenceFields_append (os ps : List Occurrence) :
    occurrenceFields ctx (os ++ ps) = occurrenceFields ctx os ++ occurrenceFields ctx ps :=
  List.flatMap_append

mutual

/-- The pass looks at each identifier once, in its scope. -/
theorem collect_identFields : ∀ (e : Expr) (ir : ConstraintExpr) (locals : List String),
    lowerConstraintExprInner e = .ok ir →
      (collectConstraintRefsWithLocals ctx ir locals).identFields =
        occurrenceFields ctx (identOccurrences locals e)
  | .ident name, ir, locals, h => by
      rw [lowerConstraintExprInner] at h
      obtain rfl := Except.ok.inj h
      rw [collectConstraintRefsWithLocals, identFields_collectIdent]
      simp [identOccurrences, occurrenceFields]
  | .field target name, ir, locals, h => by
      simp only [lowerConstraintExprInner, bind_eq_ok] at h
      obtain ⟨t, -, hfield⟩ := h
      obtain ⟨root, field, rfl⟩ := constraintField_ok hfield
      rw [collectConstraintRefsWithLocals, identFields_collectFieldRef]
      rfl
  | .int text, ir, locals, h => by
      rw [lowerConstraintExprInner] at h
      obtain rfl := Except.ok.inj h
      rfl
  | .bool value, ir, locals, h => by
      rw [lowerConstraintExprInner] at h
      obtain rfl := Except.ok.inj h
      rfl
  | .paren inner, ir, locals, h => by
      rw [lowerConstraintExprInner] at h
      rw [identOccurrences]
      exact collect_identFields inner ir locals h
  | .unary op expr, ir, locals, h => by
      simp only [lowerConstraintExprInner, bind_eq_ok] at h
      obtain ⟨f, hf, hir⟩ := h
      obtain rfl := Except.ok.inj hir
      rw [collectConstraintRefsWithLocals, identOccurrences]
      exact collect_identFields expr f locals hf
  | .binary op lhs rhs, ir, locals, h => by
      rw [lowerConstraintExprInner] at h
      rw [identOccurrences, occurrenceFields_append]
      split at h
      · simp only [bind_eq_ok] at h
        obtain ⟨l, hl, r, hr, hir⟩ := h
        obtain rfl := Except.ok.inj hir
        rw [collectConstraintRefsWithLocals, identFields_append,
          collect_identFields lhs l locals hl, collect_identFields rhs r locals hr]
      · split at h
        · simp at h
        · simp only [bind_eq_ok] at h
          obtain ⟨l, hl, r, hr, hir⟩ := h
          obtain rfl := Except.ok.inj hir
          rw [collectConstraintRefsWithLocals, identFields_append,
            collect_identFields lhs l locals hl, collect_identFields rhs r locals hr]
  | .membership expr set, ir, locals, h => by
      simp only [lowerConstraintExprInner, bind_eq_ok] at h
      obtain ⟨f, hf, g, hg, hir⟩ := h
      obtain rfl := Except.ok.inj hir
      rw [collectConstraintRefsWithLocals, identFields_append, identOccurrences,
        occurrenceFields_append, collect_identFields expr f locals hf,
        collect_identFields set g locals hg]
  | .rangeLit lo hi, ir, locals, h => by
      simp only [lowerConstraintExprInner, bind_eq_ok] at h
      obtain ⟨l, hl, u, hu, hir⟩ := h
      obtain rfl := Except.ok.inj hir
      rw [collectConstraintRefsWithLocals, identFields_append, identOccurrences,
        occurrenceFields_append, collectBound_identFields lo l locals hl,
        collectBound_identFields hi u locals hu]
  | .setLit items, ir, locals, h => by
      simp only [lowerConstraintExprInner, bind_eq_ok] at h
      obtain ⟨fs, hfs, hir⟩ := h
      obtain rfl := Except.ok.inj hir
      rw [collectConstraintRefsWithLocals, identOccurrences]
      exact collectList_identFields items fs locals hfs
  | .call callee args, ir, locals, h => by
      cases callee with
      | field target name =>
          simp only [lowerConstraintExprInner, bind_eq_ok] at h
          obtain ⟨as, has, t, ht, hir⟩ := h
          obtain rfl := Except.ok.inj hir
          rw [collectConstraintRefsWithLocals, identFields_append, identOccurrences,
            occurrenceFields_append, collect_identFields target t locals ht,
            collectArgs_identFields args as locals has]
      | ident name =>
          simp only [lowerConstraintExprInner, bind_eq_ok] at h
          obtain ⟨as, has, hir⟩ := h
          obtain rfl := Except.ok.inj hir
          have hcall : (if name ∈ ctx.relationNames then
              { ConstraintRefs.empty with relationCalls := [name] }
              else .ofError s!"constraint calls unknown relation `{name}`").identFields = [] := by
            split <;> rfl
          rw [collectConstraintRefsWithLocals, identFields_append, identOccurrences, hcall,
            List.nil_append, collectArgs_identFields args as locals has]
      | _ => simp [lowerConstraintExprInner, bind_eq_ok] at h
  | .forEachConstraint var iter body, ir, locals, h => by
      simp only [lowerConstraintExprInner, bind_eq_ok] at h
      obtain ⟨i, hi, b, hb, hir⟩ := h
      obtain rfl := Except.ok.inj hir
      rw [collectConstraintRefsWithLocals, identFields_append, identOccurrences,
        occurrenceFields_append, collect_identFields iter i locals hi,
        collectList_identFields body b (var :: locals) hb]
  | .string _, _, _, h | .number _, _, _, h | .implicitSelf, _, _, h | .index _ _, _, _, h
  | .bitSlice _ _ _, _, _, h | .cast _ _, _, _, h | .ternary _ _ _, _, _, h
  | .other _, _, _, h => by
      simp [lowerConstraintExprInner] at h

theorem collectList_identFields :
    ∀ (es : List Expr) (irs : List ConstraintExpr) (locals : List String),
    lowerConstraintList es = .ok irs →
      (collectList ctx irs locals).identFields = occurrenceFields ctx (listOccurrences locals es)
  | [], irs, locals, h => by
      rw [lowerConstraintList] at h
      obtain rfl := Except.ok.inj h
      rfl
  | e :: es, irs, locals, h => by
      simp only [lowerConstraintList, bind_eq_ok] at h
      obtain ⟨f, hf, fs, hfs, hir⟩ := h
      obtain rfl := Except.ok.inj hir
      rw [collectList, identFields_append, listOccurrences, occurrenceFields_append,
        collect_identFields e f locals hf, collectList_identFields es fs locals hfs]

theorem collectBound_identFields :
    ∀ (b : Option Expr) (ir : Option ConstraintExpr) (locals : List String),
    lowerConstraintBound b = .ok ir →
      (collectBound ctx ir locals).identFields = occurrenceFields ctx (boundOccurrences locals b)
  | none, ir, locals, h => by
      rw [lowerConstraintBound] at h
      obtain rfl := Except.ok.inj h
      rfl
  | some e, ir, locals, h => by
      simp only [lowerConstraintBound, bind_eq_ok] at h
      obtain ⟨f, hf, hir⟩ := h
      obtain rfl := Except.ok.inj hir
      rw [collectBound, boundOccurrences]
      exact collect_identFields e f locals hf

theorem collectArgs_identFields :
    ∀ (args : List CallArg) (irs : List ConstraintExpr) (locals : List String),
    lowerConstraintArgs args = .ok irs →
      (collectList ctx irs locals).identFields =
        occurrenceFields ctx (argsOccurrences locals args)
  | [], irs, locals, h => by
      rw [lowerConstraintArgs] at h
      obtain rfl := Except.ok.inj h
      rfl
  | .expr value :: args, irs, locals, h => by
      simp only [lowerConstraintArgs, bind_eq_ok] at h
      obtain ⟨f, hf, fs, hfs, hir⟩ := h
      obtain rfl := Except.ok.inj hir
      rw [collectList, identFields_append, argsOccurrences, occurrenceFields_append,
        collect_identFields value f locals hf, collectArgs_identFields args fs locals hfs]
  | .named _ value :: args, irs, locals, h => by
      simp only [lowerConstraintArgs, bind_eq_ok] at h
      obtain ⟨f, hf, fs, hfs, hir⟩ := h
      obtain rfl := Except.ok.inj hir
      rw [collectList, identFields_append, argsOccurrences, occurrenceFields_append,
        collect_identFields value f locals hf, collectArgs_identFields args fs locals hfs]

end

end CollectLemmas

/-! ### The identifiers that typed lowering resolves -/

/-- A call of `lowerIdent`. -/
structure IdentCall where
  state : LowerState
  name : String

section IdentCalls

variable (ctx : LowerCtx)
  (onCall : String → List CallArg → LowerState → CTypedExpr × LowerState)

mutual

/-- The identifiers of an expression that its lowering resolves, with the state in which
it does.  Those of an expanded call belong to the expansion. -/
def identCalls : Option CType → Expr → LowerState → List IdentCall
  | _, .ident name, st => [⟨st, name⟩]
  | _, .paren inner, st => identCalls none inner st
  | _, .unary _ expr, st => identCalls none expr st
  | _, .binary op lhs rhs, st =>
      if op = .in ∨ op = .inside then
        let elem := lowerExpr ctx onCall none lhs st
        identCalls none lhs st ++ identCalls (membershipHint elem.1.ty) rhs elem.2
      else
        match mapBinaryOp op with
        | none => []
        | some _ =>
            identCalls none lhs st ++ identCalls none rhs (lowerExpr ctx onCall none lhs st).2
  | _, .membership lhs rhs, st =>
      let elem := lowerExpr ctx onCall none lhs st
      identCalls none lhs st ++ identCalls (membershipHint elem.1.ty) rhs elem.2
  | hint, .rangeLit lo hi, st =>
      boundCalls hint lo st ++ boundCalls hint hi (lowerBound ctx onCall hint lo st).2
  | hint, .setLit items, st => itemCalls hint items st
  | _, .call (.field target _) args, st =>
      identCalls none target st ++ argCalls args (lowerExpr ctx onCall none target st).2
  | _, .forEachConstraint var iter body, st =>
      let i := lowerExpr ctx onCall none iter st
      identCalls none iter st ++
        match iterableElemType i.1.ty with
        | none => []
        | some elem => clauseCalls body (i.2.enterLoop var elem)
  | _, _, _ => []

def itemCalls : Option CType → List Expr → LowerState → List IdentCall
  | _, [], _ => []
  | hint, e :: es, st =>
      let f := lowerExpr ctx onCall none e st
      identCalls none e st ++ itemCalls hint es (f.2.report (adaptTo hint f.1).2)

def boundCalls : Option CType → Option Expr → LowerState → List IdentCall
  | _, none, _ => []
  | _, some e, st => identCalls none e st

def argCalls : List CallArg → LowerState → List IdentCall
  | [], _ => []
  | .expr value :: args, st =>
      identCalls none value st ++ argCalls args (lowerExpr ctx onCall none value st).2
  | .named _ value :: args, st =>
      identCalls none value st ++ argCalls args (lowerExpr ctx onCall none value st).2

def clauseCalls : List Expr → LowerState → List IdentCall
  | [], _ => []
  | e :: es, st =>
      let f := lowerExpr ctx onCall none e st
      identCalls none e st ++ clauseCalls es (f.2.report (finishClause f.1).2)

end

end IdentCalls

/-! ### Both passes see an identifier in the same scope -/

/-- The loop variables of a state are those of a scope. -/
def InScope (scope : List String) (st : LowerState) : Prop :=
  ∀ n, n ∈ scope ↔ (st.locals.get n).isSome = true

theorem InScope.extends {scope : List String} {st st' : LowerState} (h : InScope scope st)
    (he : Extends st st') : InScope scope st' := by
  intro n
  rw [he.locals n]
  exact h n

theorem InScope.enterLoop {scope : List String} {st : LowerState} (h : InScope scope st)
    (var : String) (elem : CType) : InScope (var :: scope) (st.enterLoop var elem) := by
  intro n
  rw [LowerState.enterLoop, get_insert, List.mem_cons, h n]
  by_cases hn : var = n
  · simp [hn]
  · have hne : n ≠ var := Ne.symm hn
    simp [hn, hne]

/-- An identifier of a list that is resolved in its scope. -/
def Placed (os : List Occurrence) (c : IdentCall) : Prop :=
  ∃ o ∈ os, o.name = c.name ∧ InScope o.scope c.state

theorem Placed.left {os : List Occurrence} {c : IdentCall} (h : Placed os c)
    (ps : List Occurrence) : Placed (os ++ ps) c := by
  obtain ⟨o, ho, hc⟩ := h
  exact ⟨o, List.mem_append_left _ ho, hc⟩

theorem Placed.right {os : List Occurrence} {c : IdentCall} (h : Placed os c)
    (ps : List Occurrence) : Placed (ps ++ os) c := by
  obtain ⟨o, ho, hc⟩ := h
  exact ⟨o, List.mem_append_right _ ho, hc⟩

section Scopes

variable {ctx : LowerCtx}
  {onCall : String → List CallArg → LowerState → CTypedExpr × LowerState}

mutual

theorem identCalls_placed (honCall : ExtendsState onCall) :
    ∀ (hint : Option CType) (e : Expr) (st : LowerState) (scope : List String),
    InScope scope st → ∀ c ∈ identCalls ctx onCall hint e st,
      Placed (identOccurrences scope e) c
  | _, .ident name, st, scope, h, c, hc => by
      rw [identCalls, List.mem_singleton] at hc
      subst hc
      exact ⟨⟨scope, name⟩, List.mem_cons_self, rfl, h⟩
  | _, .paren inner, st, scope, h, c, hc => by
      rw [identCalls] at hc
      rw [identOccurrences]
      exact identCalls_placed honCall none inner st scope h c hc
  | _, .unary op expr, st, scope, h, c, hc => by
      rw [identCalls] at hc
      rw [identOccurrences]
      exact identCalls_placed honCall none expr st scope h c hc
  | _, .binary op lhs rhs, st, scope, h, c, hc => by
      rw [identCalls] at hc
      rw [identOccurrences]
      have hrest := h.extends (lowerExpr_steps extends_steps ctx honCall none lhs st)
      split at hc
      · rcases List.mem_append.mp hc with hc | hc
        · exact (identCalls_placed honCall none lhs st scope h c hc).left _
        · exact (identCalls_placed honCall _ rhs _ scope hrest c hc).right _
      · split at hc
        · simp at hc
        · rcases List.mem_append.mp hc with hc | hc
          · exact (identCalls_placed honCall none lhs st scope h c hc).left _
          · exact (identCalls_placed honCall none rhs _ scope hrest c hc).right _
  | _, .membership lhs rhs, st, scope, h, c, hc => by
      rw [identCalls] at hc
      rw [identOccurrences]
      rcases List.mem_append.mp hc with hc | hc
      · exact (identCalls_placed honCall none lhs st scope h c hc).left _
      · have hrest := h.extends (lowerExpr_steps extends_steps ctx honCall none lhs st)
        exact (identCalls_placed honCall _ rhs _ scope hrest c hc).right _
  | hint, .rangeLit lo hi, st, scope, h, c, hc => by
      rw [identCalls] at hc
      rw [identOccurrences]
      rcases List.mem_append.mp hc with hc | hc
      · exact (boundCalls_placed honCall hint lo st scope h c hc).left _
      · have hrest := h.extends (lowerBound_steps extends_steps ctx honCall hint lo st)
        exact (boundCalls_placed honCall hint hi _ scope hrest c hc).right _
  | hint, .setLit items, st, scope, h, c, hc => by
      rw [identCalls] at hc
      rw [identOccurrences]
      exact itemCalls_placed honCall hint items st scope h c hc
  | _, .call callee args, st, scope, h, c, hc => by
      cases callee with
      | field target name =>
          rw [identCalls] at hc
          rw [identOccurrences]
          rcases List.mem_append.mp hc with hc | hc
          · exact (identCalls_placed honCall none target st scope h c hc).left _
          · have hrest := h.extends (lowerExpr_steps extends_steps ctx honCall none target st)
            exact (argCalls_placed honCall args _ scope hrest c hc).right _
      | _ => simp [identCalls] at hc
  | _, .forEachConstraint var iter body, st, scope, h, c, hc => by
      rw [identCalls] at hc
      rw [identOccurrences]
      rcases List.mem_append.mp hc with hc | hc
      · exact (identCalls_placed honCall none iter st scope h c hc).left _
      · have hrest := h.extends (lowerExpr_steps extends_steps ctx honCall none iter st)
        split at hc
        · simp at hc
        · exact (clauseCalls_placed honCall body _ (var :: scope) (hrest.enterLoop var _) c hc).right _
  | _, .int _, _, _, _, c, hc | _, .bool _, _, _, _, c, hc | _, .string _, _, _, _, c, hc
  | _, .number _, _, _, _, c, hc | _, .field _ _, _, _, _, c, hc
  | _, .implicitSelf, _, _, _, c, hc | _, .index _ _, _, _, _, c, hc
  | _, .bitSlice _ _ _, _, _, _, c, hc | _, .cast _ _, _, _, _, c, hc
  | _, .ternary _ _ _, _, _, _, c, hc | _, .other _, _, _, _, c, hc => by
      simp [identCalls] at hc

theorem itemCalls_placed (honCall : ExtendsState onCall) :
    ∀ (hint : Option CType) (es : List Expr) (st : LowerState) (scope : List String),
    InScope scope st → ∀ c ∈ itemCalls ctx onCall hint es st,
      Placed (listOccurrences scope es) c
  | _, [], _, _, _, c, hc => by simp [itemCalls] at hc
  | hint, e :: es, st, scope, h, c, hc => by
      rw [itemCalls] at hc
      rw [listOccurrences]
      rcases List.mem_append.mp hc with hc | hc
      · exact (identCalls_placed honCall none e st scope h c hc).left _
      · refine (itemCalls_placed honCall hint es _ scope ?_ c hc).right _
        exact h.extends ((lowerExpr_steps extends_steps ctx honCall none e st).report _)

theorem boundCalls_placed (honCall : ExtendsState onCall) :
    ∀ (hint : Option CType) (b : Option Expr) (st : LowerState) (scope : List String),
    InScope scope st → ∀ c ∈ boundCalls ctx onCall hint b st,
      Placed (boundOccurrences scope b) c
  | _, none, _, _, _, c, hc => by simp [boundCalls] at hc
  | _, some e, st, scope, h, c, hc => by
      rw [boundCalls] at hc
      rw [boundOccurrences]
      exact identCalls_placed honCall none e st scope h c hc

theorem argCalls_placed (honCall : ExtendsState onCall) :
    ∀ (args : List CallArg) (st : LowerState) (scope : List String),
    InScope scope st → ∀ c ∈ argCalls ctx onCall args st, Placed (argsOccurrences scope args) c
  | [], _, _, _, c, hc => by simp [argCalls] at hc
  | .expr value :: args, st, scope, h, c, hc => by
      rw [argCalls] at hc
      rw [argsOccurrences]
      rcases List.mem_append.mp hc with hc | hc
      · exact (identCalls_placed honCall none value st scope h c hc).left _
      · have hrest := h.extends (lowerExpr_steps extends_steps ctx honCall none value st)
        exact (argCalls_placed honCall args _ scope hrest c hc).right _
  | .named _ value :: args, st, scope, h, c, hc => by
      rw [argCalls] at hc
      rw [argsOccurrences]
      rcases List.mem_append.mp hc with hc | hc
      · exact (identCalls_placed honCall none value st scope h c hc).left _
      · have hrest := h.extends (lowerExpr_steps extends_steps ctx honCall none value st)
        exact (argCalls_placed honCall args _ scope hrest c hc).right _

theorem clauseCalls_placed (honCall : ExtendsState onCall) :
    ∀ (es : List Expr) (st : LowerState) (scope : List String),
    InScope scope st → ∀ c ∈ clauseCalls ctx onCall es st, Placed (listOccurrences scope es) c
  | [], _, _, _, c, hc => by simp [clauseCalls] at hc
  | e :: es, st, scope, h, c, hc => by
      rw [clauseCalls] at hc
      rw [listOccurrences]
      rcases List.mem_append.mp hc with hc | hc
      · exact (identCalls_placed honCall none e st scope h c hc).left _
      · refine (clauseCalls_placed honCall es _ scope ?_ c hc).right _
        exact h.extends ((lowerExpr_steps extends_steps ctx honCall none e st).report _)

end

end Scopes

/-! ### Agreement -/

theorem dotted_eq_iff (f : TxnField) (name : String) (h : '.' ∉ name.toList) :
    f.name = name ↔ f.path = [name] := by
  obtain ⟨path, ty, nonRandom, attrs, hne, hplain⟩ := f
  simp only [TxnField.name, FieldPath.dotted]
  cases path with
  | nil => exact absurd rfl hne
  | cons s path =>
      cases path with
      | nil => simp [String.intercalate_singleton]
      | cons t path =>
          rw [String.intercalate_cons_cons]
          constructor
          · intro heq
            exact absurd (by simp [← heq]) h
          · simp

section Agreement

variable (ctx : LowerCtx) (variants : List EnumVariantSchema) (relationNames : List String)

/-- The context of the reference pass for the clauses of a record. -/
def recordRefCtx : RefValidationCtx where
  transaction := some ctx.target
  params := []
  records := (ctx.schemas.structs ++ ctx.schemas.transactions).reverse
  relationNames := relationNames
  enumVariants := variants
  consts := ctx.schemas.consts.map Prod.fst

/-- The reference pass records an identifier as a reference to a field. -/
def CollectsField (o : Occurrence) (f : TxnField) : Prop :=
  ∃ r ∈ (collectIdent (recordRefCtx ctx variants relationNames) o.scope o.name).fields,
    r.field = f.name

/-- Typed lowering makes an identifier a reference to a field. -/
def LowersToField (c : IdentCall) (f : TxnField) : Prop :=
  ∃ info, ctx.env.lookup f.path = some info ∧
    (lowerIdent ctx c.name c.state).1 = .fieldRef f.path info.ty

/-- A name that is no loop variable and no constant is not a field and a variant of an enum
in use at once. -/
def Unambiguous (scope : List String) (name : String) : Prop :=
  name ∈ scope ∨ (ctx.schemas.const name).isSome = true ∨
    (findTxnField ctx.target name).isSome = false ∨
      (enumVariantLookup ctx.schemas name).isSome = false

variable {ctx} {variants} {relationNames}

theorem const_isSome (schemas : Elaboration) (name : String) :
    (schemas.const name).isSome = true ↔ name ∈ schemas.consts.map Prod.fst := by
  unfold Elaboration.const
  rw [Option.isSome_map, List.find?_isSome, List.mem_map]
  simp only [beq_iff_eq]

theorem mem_recordRefCtx_consts (name : String) :
    name ∈ (recordRefCtx ctx variants relationNames).consts ↔
      name ∈ ctx.schemas.consts.map Prod.fst := Iff.rfl

/-- A name that is no loop variable and no constant is looked up among the fields. -/
theorem collectIdent_record (scope : List String) (name : String) (hscope : name ∉ scope)
    (hconst : name ∉ ctx.schemas.consts.map Prod.fst) :
    (collectIdent (recordRefCtx ctx variants relationNames) scope name).fields =
      ((findTxnField ctx.target name).map fun f => ⟨none, name, f.ty, f.nonRandom⟩).toList := by
  unfold collectIdent
  rw [if_neg hscope, if_neg (by simp [recordRefCtx]),
    if_neg (mt (mem_recordRefCtx_consts name).mp hconst)]
  change ConstraintRefs.fields (match findTxnField ctx.target name with
    | some f => ConstraintRefs.ofField none name f
    | none => _) = _
  cases findTxnField ctx.target name with
  | some f => rfl
  | none =>
      dsimp only
      split <;> rfl

theorem collectsField_iff (o : Occurrence) (f : TxnField) :
    CollectsField ctx variants relationNames o f ↔
      o.name ∉ o.scope ∧ (ctx.schemas.const o.name).isSome = false ∧
        (findTxnField ctx.target o.name).isSome = true ∧ f.name = o.name := by
  unfold CollectsField
  by_cases hscope : o.name ∈ o.scope
  · simp [collectIdent, hscope]
  by_cases hconst : o.name ∈ ctx.schemas.consts.map Prod.fst
  · have hsome := (const_isSome ctx.schemas o.name).mpr hconst
    have hempty : (collectIdent (recordRefCtx ctx variants relationNames) o.scope
        o.name).fields = [] := by
      unfold collectIdent
      rw [if_neg hscope, if_neg (by simp [recordRefCtx]),
        if_pos ((mem_recordRefCtx_consts o.name).mpr hconst)]
      rfl
    simp [hempty, hsome]
  · have hnone : (ctx.schemas.const o.name).isSome = false := by
      rw [← Bool.not_eq_true, const_isSome]
      exact hconst
    rw [collectIdent_record o.scope o.name hscope hconst]
    cases findTxnField ctx.target o.name with
    | some g => simp [hscope, hnone, eq_comm]
    | none => simp

theorem lowerConst_ne_fieldRef (c : IntegerConst) (path : FieldPath) (ty : CType) :
    lowerConst c ≠ .fieldRef path ty := by
  unfold lowerConst
  split
  · simp
  · dsimp only
    split <;> simp

theorem lowersToField_iff (c : IdentCall) (f : TxnField) (hf : f ∈ ctx.target.allFields) :
    LowersToField ctx c f ↔
      (c.state.locals.get c.name).isSome = false ∧
        (enumVariantLookup ctx.schemas c.name).isSome = false ∧
        (ctx.schemas.const c.name).isSome = false ∧ f.path = [c.name] := by
  obtain ⟨info, hinfo⟩ := Option.isSome_iff_exists.mp
    ((lookup_buildFieldEnv ctx.schemas ctx.target f.path).mpr ⟨f, hf, rfl⟩)
  change ctx.env.lookup f.path = some info at hinfo
  unfold LowersToField lowerIdent
  cases hlocal : c.state.locals.get c.name with
  | some entry => simp
  | none =>
      cases hvariant : enumVariantLookup ctx.schemas c.name with
      | some entry => simp
      | none =>
          cases hconst : ctx.schemas.const c.name with
          | some k => simp [lowerConst_ne_fieldRef]
          | none =>
              by_cases hpath : f.path = [c.name]
              · rw [hpath] at hinfo
                simp [hpath, hinfo]
              · cases ctx.env.lookup [c.name] <;> simp [hpath, Ne.symm hpath]

/-- The two passes agree on an identifier exactly if it is unambiguous. -/
theorem agree_iff (o : Occurrence) (c : IdentCall) (hname : o.name = c.name)
    (hscope : InScope o.scope c.state) (hplain : '.' ∉ o.name.toList) :
    (∀ f ∈ ctx.target.allFields,
        CollectsField ctx variants relationNames o f ↔ LowersToField ctx c f) ↔
      Unambiguous ctx o.scope o.name := by
  have hlocal : (c.state.locals.get c.name).isSome = false ↔ o.name ∉ o.scope := by
    rw [hscope o.name, hname, Bool.not_eq_true]
  have hfield : (findTxnField ctx.target o.name).isSome = true ↔
      ∃ f ∈ ctx.target.allFields, f.path = [o.name] := by
    unfold findTxnField
    rw [List.find?_isSome]
    simp only [beq_iff_eq, dotted_eq_iff _ _ hplain]
  have hpointwise : ∀ f ∈ ctx.target.allFields,
      ((CollectsField ctx variants relationNames o f ↔ LowersToField ctx c f) ↔
        (f.path = [o.name] → Unambiguous ctx o.scope o.name)) := by
    intro f hf
    rw [collectsField_iff, lowersToField_iff c f hf, hlocal, ← hname, dotted_eq_iff f _ hplain]
    by_cases hpath : f.path = [o.name]
    · have hsome : (findTxnField ctx.target o.name).isSome = true := hfield.mpr ⟨f, hf, hpath⟩
      by_cases hin : o.name ∈ o.scope
      · simp [Unambiguous, hin, hpath]
      · cases hconst : (ctx.schemas.const o.name).isSome <;>
          cases hvar : (enumVariantLookup ctx.schemas o.name).isSome <;>
            simp [Unambiguous, hin, hpath, hsome, hconst, hvar]
    · simp [hpath]
  constructor
  · intro h
    by_cases hsome : (findTxnField ctx.target o.name).isSome = true
    · obtain ⟨f, hf, hpath⟩ := hfield.mp hsome
      exact (hpointwise f hf).mp (h f hf) hpath
    · exact Or.inr (Or.inr (Or.inl (Bool.not_eq_true _ ▸ hsome)))
  · exact fun h f hf => (hpointwise f hf).mpr fun _ => h

end Agreement

/-- Every identifier that typed lowering resolves is an identifier of the constraint in the
scope that the reference pass has for it, and the passes agree on the field that it
stands for exactly if it is unambiguous. -/
theorem identifiers_agree_iff (ctx : LowerCtx) (variants : List EnumVariantSchema)
    (relationNames : List String) (fuel : Nat) (e : Expr) (ir : ConstraintExpr) (st : LowerState)
    (hir : lowerConstraintExprInner e = .ok ir)
    (hplain : ∀ o ∈ identOccurrences [] e, '.' ∉ o.name.toList) :
    (∀ c ∈ identCalls ctx (lowerCall ctx fuel) none e { st with locals := [] },
        Placed (identOccurrences [] e) c) ∧
      (collectConstraintRefsWithLocals (recordRefCtx ctx variants relationNames) ir
          []).identFields =
        occurrenceFields (recordRefCtx ctx variants relationNames) (identOccurrences [] e) ∧
      ∀ o ∈ identOccurrences [] e, ∀ c : IdentCall, o.name = c.name → InScope o.scope c.state →
        ((∀ f ∈ ctx.target.allFields,
            CollectsField ctx variants relationNames o f ↔ LowersToField ctx c f) ↔
          Unambiguous ctx o.scope o.name) := by
  refine ⟨?_, collect_identFields _ e ir [] hir, ?_⟩
  · refine identCalls_placed (lowerCall_extends ctx fuel) none e _ [] ?_
    intro n
    simp [LocalMap.get]
  · intro o ho c hname hscope
    exact agree_iff o c hname hscope (hplain o ho)

/-- A record with a field that is named like a variant of the enum of another field. -/
def busRecord : TxnSchema where
  name := "Bus"
  fields := [⟨["mode"], .enum ⟨"Mode", ["idle", "busy"]⟩, false, [], by decide, by decide⟩,
    ⟨["idle"], .uint (some 8), false, [], by decide, by decide⟩,
    ⟨["beats"], .list (.uint (some 8)) (some 4), false, [], by decide, by decide⟩]
  keeps := []
  whenSubtypes := []

def busCtx : LowerCtx where
  schemas := ⟨[], [busRecord], ⟨[], RelationExpansion.Relation.nil_nodup⟩,
    [], ConstraintSchema.IntegerConst.nil_nodup⟩
  target := busRecord

/-- `foreach idle in beats: idle < 4`: the loop variable hides the field and the variant. -/
def busLoop : Expr :=
  .forEachConstraint "idle" (.ident "beats") [.binary .lt (.ident "idle") (.int "4")]

theorem identifiers_agree_iff_loop :
    (∀ c ∈ identCalls busCtx (lowerCall busCtx 2) none busLoop .init,
        Placed (identOccurrences [] busLoop) c) ∧
      ∀ o ∈ identOccurrences [] busLoop, ∀ c : IdentCall, o.name = c.name →
        InScope o.scope c.state → ∀ f ∈ busRecord.allFields,
          CollectsField busCtx [] [] o f ↔ LowersToField busCtx c f := by
  obtain ⟨hplaced, -, hagree⟩ := identifiers_agree_iff busCtx [] [] 2 busLoop
    (.forEach "idle" (.ident "beats") [.binary .lt (.ident "idle") (.intLiteral "4")]) .init rfl
    (by decide)
  refine ⟨hplaced, fun o ho c hname hscope => (hagree o ho c hname hscope).mpr ?_⟩
  have hcases : o = ⟨[], "beats"⟩ ∨ o = ⟨["idle"], "idle"⟩ := by
    simpa [busLoop, identOccurrences, listOccurrences] using ho
  rcases hcases with rfl | rfl
  · exact Or.inr (Or.inr (Or.inr (by decide)))
  · exact Or.inl (by decide)

/-- In `idle < 4` the reference pass finds the field and typed lowering the variant. -/
theorem variantField_disagrees :
    ∃ o ∈ identOccurrences [] (.binary .lt (.ident "idle") (.int "4")),
      ∃ c ∈ identCalls busCtx (lowerCall busCtx 2) none (.binary .lt (.ident "idle") (.int "4"))
          .init,
        ∃ f ∈ busRecord.allFields, o.name = c.name ∧ InScope o.scope c.state ∧
          CollectsField busCtx [] [] o f ∧ ¬ LowersToField busCtx c f := by
  refine ⟨⟨[], "idle"⟩, by simp [identOccurrences], ⟨.init, "idle"⟩, by simp [identCalls, mapBinaryOp],
    ⟨["idle"], .uint (some 8), false, [], by decide, by decide⟩,
    by simp [busRecord, TxnSchema.allFields], rfl, ?_, ?_, ?_⟩
  · intro n
    simp [LowerState.init, LocalMap.get]
  · exact ⟨⟨none, "idle", .uint (some 8), false⟩, by decide, by decide⟩
  · rintro ⟨info, -, hlower⟩
    have hvariant : (lowerIdent busCtx "idle" .init).1 = .enumLit 0 0 (.enum 0) := by rfl
    rw [hvariant] at hlower
    simp at hlower

end Harc.NameResolution
