import Harc.IrExpr
import Harc.NameScopes
import Harc.PrefixCodes

/-!
The locals of a function and their names: `declare`, `declare_tb_record_field`, `fresh_temp`,
`fresh_msg_tmp_name` and `lookup` of `FuncBuilder`, and what the lowering of a body does with them
(`src/ir/lower/mod.rs`).
-/

namespace Harc.FunctionLocals

open Harc.TestbenchIr
open Harc.IrExpr
open Harc.NameScopes
open Harc.PrefixCodes

/-- A name is the list of its characters. -/
abbrev Name := Text

structure TypedLocal where
  name : Name
  ty : IrType

structure FuncBuilder where
  locals : List TypedLocal
  localNames : List Name
  scopes : Scopes Name LocalId
  tempCounter : Nat

/-- What the lowering of a body knows of its testbench. -/
structure LowerCtx where
  /-- The names of `component_fields`. -/
  componentFields : List Name
  tbRecordFields : List (Name × RecordId)

namespace FuncBuilder

def new (ctx : LowerCtx) : FuncBuilder where
  locals := []
  localNames := ctx.componentFields
  scopes := .init
  tempCounter := 0

/-! ### The operations -/

def base (sourceName : Name) : Name := if sourceName = ['_'] then "_anon".toList else sourceName

/-- The stored names that `declare` tries, in its order. -/
def declareCandidate (sourceName : Name) : Nat → Name
  | 0 => base sourceName
  | n + 1 => base sourceName ++ '_' :: Nat.toDigits 10 (n + 2)

def declare (b : FuncBuilder) (sourceName : Name) : FuncBuilder :=
  let candidate := declareCandidate sourceName
    (firstFree b.localNames (declareCandidate sourceName) b.localNames.length 0)
  { b with
    locals := b.locals ++ [⟨candidate, .unknown⟩]
    localNames := candidate :: b.localNames
    scopes := b.scopes.step (.declare sourceName b.locals.length) }

def declareTbRecordField (b : FuncBuilder) (sourceName : Name) (record : RecordId) :
    FuncBuilder :=
  { b with
    locals := b.locals ++ [⟨sourceName, .record record⟩]
    localNames := sourceName :: b.localNames
    scopes := b.scopes.step (.declareOuter sourceName b.locals.length) }

def reserveLocalName (b : FuncBuilder) (sourceName : Name) : FuncBuilder :=
  { b with localNames := sourceName :: b.localNames }

def tempName (n : Nat) : Name := "__t".toList ++ Nat.toDigits 10 n

def freshTemp (b : FuncBuilder) : FuncBuilder :=
  let n := firstFree b.localNames tempName b.localNames.length b.tempCounter
  { b with
    locals := b.locals ++ [⟨tempName n, .unknown⟩]
    localNames := tempName n :: b.localNames
    tempCounter := n + 1 }

def msgTmpName (n : Nat) : Name := "__msg_tmp".toList ++ Nat.toDigits 10 n

/-- The name is declared afterwards, so that the counter is all that changes. -/
def freshMsgTmpName (b : FuncBuilder) : Name × FuncBuilder :=
  let n := firstFree b.localNames msgTmpName b.localNames.length b.tempCounter
  (msgTmpName n, { b with tempCounter := n + 1 })

/-- The local of a module-typed parameter of a testbench method; the body reaches it as an alias
of the DUT, so that no scope holds it. -/
def pushDutParam (b : FuncBuilder) (sourceName : Name) : FuncBuilder :=
  { b with
    locals := b.locals ++ [⟨sourceName, .unknown⟩]
    localNames := sourceName :: b.localNames }

def lookup (b : FuncBuilder) (name : Name) : Option LocalId := b.scopes.lookup name

/-- What lowering does to the locals and the scopes of a function. -/
inductive Op where
  | declare (sourceName : Name)
  | declareTbRecordField (sourceName : Name) (record : RecordId)
  | reserveLocalName (sourceName : Name)
  | freshTemp
  | freshMsgTmpName
  | pushDutParam (sourceName : Name)
  /-- A loop takes its variable out of the innermost scope and puts it back. -/
  | hide (sourceName : Name)
  | restore (sourceName : Name) (id : LocalId)
  | pushScope
  | popScope
  | pushFrame
  | popFrame

def step (b : FuncBuilder) : Op → FuncBuilder
  | .declare sourceName => b.declare sourceName
  | .declareTbRecordField sourceName record => b.declareTbRecordField sourceName record
  | .reserveLocalName sourceName => b.reserveLocalName sourceName
  | .freshTemp => b.freshTemp
  | .pushDutParam sourceName => b.pushDutParam sourceName
  | .freshMsgTmpName => b.freshMsgTmpName.2
  | .hide sourceName => { b with scopes := b.scopes.step (.hide sourceName) }
  | .restore sourceName id => { b with scopes := b.scopes.step (.declare sourceName id) }
  | .pushScope => { b with scopes := b.scopes.step .openScope }
  | .popScope => { b with scopes := b.scopes.step .closeScope }
  | .pushFrame => { b with scopes := b.scopes.step .openFrame }
  | .popFrame => { b with scopes := b.scopes.step .closeFrame }

def run (b : FuncBuilder) (ops : List Op) : FuncBuilder := ops.foldl step b

end FuncBuilder

open FuncBuilder (Op base declareCandidate tempName)

/-! ### What the lowering of a body does -/

/-- A statement or an expression, by what its lowering does to the locals. -/
inductive Step where
  | declare (sourceName : Name)
  | temp
  /-- The local of a hoisted part of a message, under the name that `fresh_msg_tmp_name` gave. -/
  | messageTemp (sourceName : Name)
  /-- The blocks of branches and loops. -/
  | scope (body : List Step)
  /-- A loop over a range.  The upper bound is resolved with the loop variable hidden; `id` is
  what the scope gave back for it. -/
  | range (var : Name) (id : LocalId) (lower upper body : List Step)
  /-- A helper that is inlined with its parameters and its body. -/
  | inlineHelper (params : List Name) (body : List Step)
  /-- A helper of which only the returned expression is lowered. -/
  | inlineExpr (temps : Nat)

mutual

def Step.ops : Step → List Op
  | .declare sourceName => [.declare sourceName]
  | .temp => [.freshTemp]
  | .messageTemp sourceName => [.freshMsgTmpName, .declare sourceName]
  | .scope body => .pushScope :: (stepsOps body ++ [.popScope])
  | .range var id lower upper body =>
      .pushScope :: ((stepsOps lower ++ ([.declare var, .hide var] ++ (stepsOps upper ++
        ([.restore var id] ++ stepsOps body)))) ++ [.popScope])
  | .inlineHelper params body =>
      .pushFrame :: .pushScope :: (params.map .declare ++ (stepsOps body ++ [.popScope, .popFrame]))
  | .inlineExpr temps => .pushFrame :: (List.replicate temps .freshTemp ++ [.popFrame])

def stepsOps : List Step → List Op
  | [] => []
  | step :: steps => step.ops ++ stepsOps steps

end

inductive Param where
  | value (sourceName : Name)
  /-- A parameter of the module type of the testbench's DUT. -/
  | dut (sourceName : Name)

def Param.op : Param → Op
  | .value sourceName => .declare sourceName
  | .dut sourceName => .pushDutParam sourceName

/-- How the lowering of a body begins. -/
inductive Prologue where
  /-- `lower_function` and `lower_tb_lifecycle_body`. -/
  | testBody
  /-- `lower_method_hook_body`, `lower_testbench_method_body` and `lower_reg_cb_body`; a
  returned value has a local of its own. -/
  | callable (params : List Param) (returns : Bool)
  /-- The handlers of subscriptions and cycle triggers within a body. -/
  | handler
  /-- Every other body. -/
  | plain

def declareTbRecordFields (ctx : LowerCtx) : List Op :=
  ctx.tbRecordFields.map fun field => .declareTbRecordField field.1 field.2

def reserveTbRecordNames (ctx : LowerCtx) : List Op :=
  ctx.tbRecordFields.map fun field => .reserveLocalName field.1

def Prologue.ops (ctx : LowerCtx) : Prologue → List Op
  | .testBody => declareTbRecordFields ctx
  | .callable params returns =>
      reserveTbRecordNames ctx ++ (params.map Param.op ++ (declareTbRecordFields ctx ++
        if returns then [.declare "__ret".toList] else []))
  | .handler => reserveTbRecordNames ctx
  | .plain => []

/-! ### What a name stands for -/

/-- The number of locals that an operation adds. -/
def FuncBuilder.Op.added : Op → Nat
  | .declare _ | .declareTbRecordField _ _ | .freshTemp | .pushDutParam _ => 1
  | _ => 0

/-- What an operation does to the scopes where `n` locals are there. -/
def FuncBuilder.Op.event (n : Nat) : Op → Option (Event Name LocalId)
  | .declare sourceName => some (.declare sourceName n)
  | .declareTbRecordField sourceName _ => some (.declareOuter sourceName n)
  | .hide sourceName => some (.hide sourceName)
  | .restore sourceName id => some (.declare sourceName id)
  | .pushScope => some .openScope
  | .popScope => some .closeScope
  | .pushFrame => some .openFrame
  | .popFrame => some .closeFrame
  | _ => none

def events : List Op → Nat → List (Event Name LocalId)
  | [], _ => []
  | op :: ops, n => (op.event n).toList ++ events ops (n + op.added)

/-- The innermost visible declaration of a name, after some operations. -/
def innermost (ops : List Op) (name : Name) : Option LocalId :=
  visible name (events ops 0).reverse 0 0

section Lookup

theorem length_step (b : FuncBuilder) (op : Op) :
    (b.step op).locals.length = b.locals.length + op.added := by
  cases op with
  | declare _ | declareTbRecordField _ _ | freshTemp | pushDutParam _ => exact List.length_append
  | _ => rfl

theorem scopes_step (b : FuncBuilder) (op : Op) :
    (b.step op).scopes = b.scopes.run (op.event b.locals.length).toList := by
  cases op with
  | _ => rfl

theorem scopes_run (b : FuncBuilder) (ops : List Op) :
    (b.run ops).scopes = b.scopes.run (events ops b.locals.length) := by
  induction ops generalizing b with
  | nil => rfl
  | cons op ops ih =>
      have hrun : b.run (op :: ops) = (b.step op).run ops := rfl
      rw [hrun, ih, length_step, scopes_step, events, Scopes.run_append]

theorem events_append (xs ys : List Op) (n : Nat) :
    ∃ m, events (xs ++ ys) n = events xs n ++ events ys m := by
  induction xs generalizing n with
  | nil => exact ⟨n, rfl⟩
  | cons op xs ih =>
      obtain ⟨m, hm⟩ := ih (n + op.added)
      refine ⟨m, ?_⟩
      rw [List.cons_append, events, hm, events, List.append_assoc]

/-- Operations that, in scopes of a certain depth and with certain frames, all fit and leave the
scopes as deep as they found them. -/
def Keeps (P : Nat → List Nat → Prop) (ops : List Op) : Prop :=
  ∀ (s : Scopes Name LocalId) (n : Nat), P s.depth s.floors →
    s.Runs (events ops n) ∧ (s.run (events ops n)).depth = s.depth ∧
      (s.run (events ops n)).floors = s.floors

/-- The innermost frame has a scope. -/
def Open (depth : Nat) (floors : List Nat) : Prop := (floors[0]?).getD 0 < depth

/-- The innermost frame has a scope or none yet. -/
def Entered (depth : Nat) (floors : List Nat) : Prop := (floors[0]?).getD 0 ≤ depth

/-- There is no frame. -/
def Flat (depth : Nat) (floors : List Nat) : Prop := floors = [] ∧ 0 < depth

variable {P Q : Nat → List Nat → Prop} {xs ys : List Op}

theorem Keeps.mono (h : Keeps P xs) (hle : ∀ depth floors, Q depth floors → P depth floors) :
    Keeps Q xs :=
  fun s n hs => h s n (hle _ _ hs)

theorem keeps_nil : Keeps P [] :=
  fun _ _ _ => ⟨trivial, rfl, rfl⟩

theorem Keeps.append (hx : Keeps P xs) (hy : Keeps P ys) : Keeps P (xs ++ ys) := by
  intro s n hs
  obtain ⟨m, hm⟩ := events_append xs ys n
  obtain ⟨hruns, hdepth, hfloors⟩ := hx s n hs
  obtain ⟨hruns', hdepth', hfloors'⟩ := hy (s.run (events xs n)) m (by rwa [hdepth, hfloors])
  rw [hm, Scopes.runs_append, Scopes.run_append]
  exact ⟨⟨hruns, hruns'⟩, hdepth'.trans hdepth, hfloors'.trans hfloors⟩

theorem keeps_map {α : Type} {op : α → Op} (h : ∀ a, Keeps P [op a]) (as : List α) :
    Keeps P (as.map op) := by
  induction as with
  | nil => exact keeps_nil
  | cons a as ih => exact (h a).append ih

theorem keeps_declare (sourceName : Name) : Keeps Open [.declare sourceName] := by
  intro s n hopen
  exact ⟨⟨hopen, trivial⟩, Scopes.depth_declare s sourceName n, rfl⟩

theorem keeps_hide (sourceName : Name) : Keeps Open [.hide sourceName] := by
  intro s n hopen
  exact ⟨⟨hopen, trivial⟩, Scopes.depth_hide s sourceName, rfl⟩

theorem keeps_restore (sourceName : Name) (id : LocalId) : Keeps Open [.restore sourceName id] := by
  intro s n hopen
  exact ⟨⟨hopen, trivial⟩, Scopes.depth_declare s sourceName id, rfl⟩

theorem keeps_declareTbRecordField (sourceName : Name) (record : RecordId) :
    Keeps Flat [.declareTbRecordField sourceName record] := by
  intro s n hflat
  have hstep : s.run (events [.declareTbRecordField sourceName record] n) =
      if (s.lookup sourceName).isNone then s.declare sourceName n else s := rfl
  rw [hstep]
  refine ⟨⟨hflat, trivial⟩, ?_, ?_⟩
  · split_ifs
    · exact Scopes.depth_declare s sourceName n
    · rfl
  · split_ifs
    · rfl
    · rfl

/-- An operation that does nothing to the scopes. -/
theorem keeps_none {op : Op} (h : ∀ n, op.event n = none) : Keeps P [op] := by
  intro s n _
  have hevents : events [op] n = [] := by
    rw [events, h]
    rfl
  rw [hevents]
  exact ⟨trivial, rfl, rfl⟩

theorem keeps_temps (n : Nat) : Keeps P (List.replicate n .freshTemp) := by
  induction n with
  | zero => exact keeps_nil
  | succ n ih =>
      have hone : Keeps P [Op.freshTemp] := keeps_none fun _ => rfl
      exact hone.append ih

/-- A scope around operations that need one. -/
theorem Keeps.scope (h : Keeps Open xs) : Keeps Entered (.pushScope :: (xs ++ [.popScope])) := by
  intro s n hentered
  have hopened : Open (s.step .openScope).depth (s.step .openScope).floors :=
    Nat.lt_succ_of_le hentered
  obtain ⟨m, hm⟩ := events_append xs [.popScope] n
  obtain ⟨hruns, hdepth, hfloors⟩ := h (s.step .openScope) n hopened
  have hclose : ((s.step .openScope).run (events xs n)).floor 0 <
      ((s.step .openScope).run (events xs n)).depth := by
    rw [Scopes.floor, hfloors, hdepth]
    exact hopened
  have hevents : events (.pushScope :: (xs ++ [.popScope])) n =
      .openScope :: (events xs n ++ [.closeScope]) := by
    change .openScope :: events (xs ++ [.popScope]) n = _
    rw [hm]
    rfl
  have hrun : s.run (.openScope :: (events xs n ++ [.closeScope])) =
      ((s.step .openScope).run (events xs n)).step .closeScope := by
    change (s.step .openScope).run (events xs n ++ [.closeScope]) = _
    rw [Scopes.run_append]
    rfl
  rw [hevents, hrun, Scopes.Runs, Scopes.runs_append]
  refine ⟨⟨trivial, hruns, hclose, trivial⟩, ?_, hfloors⟩
  change ((s.step .openScope).run (events xs n)).scopes.tail.length = _
  rw [List.length_tail]
  change ((s.step .openScope).run (events xs n)).depth - 1 = _
  rw [hdepth]
  rfl

/-- A frame around operations that need one to be entered. -/
theorem Keeps.frame (h : Keeps Entered xs) : Keeps P (.pushFrame :: (xs ++ [.popFrame])) := by
  intro s n _
  obtain ⟨m, hm⟩ := events_append xs [.popFrame] n
  obtain ⟨hruns, hdepth, hfloors⟩ := h (s.step .openFrame) n (Nat.le_refl _)
  have hevents : events (.pushFrame :: (xs ++ [.popFrame])) n =
      .openFrame :: (events xs n ++ [.closeFrame]) := by
    change .openFrame :: events (xs ++ [.popFrame]) n = _
    rw [hm]
    rfl
  have hrun : s.run (.openFrame :: (events xs n ++ [.closeFrame])) =
      ((s.step .openFrame).run (events xs n)).step .closeFrame := by
    change (s.step .openFrame).run (events xs n ++ [.closeFrame]) = _
    rw [Scopes.run_append]
    rfl
  rw [hevents, hrun, Scopes.Runs, Scopes.runs_append]
  refine ⟨⟨trivial, hruns, trivial, trivial⟩, hdepth, ?_⟩
  change ((s.step .openFrame).run (events xs n)).floors.tail = _
  rw [hfloors]
  rfl

mutual

theorem Step.keeps : ∀ step : Step, Keeps Open step.ops
  | .declare sourceName => keeps_declare sourceName
  | .temp => keeps_none fun _ => rfl
  | .messageTemp sourceName => by
      have hname : Keeps Open [Op.freshMsgTmpName] := keeps_none fun _ => rfl
      exact hname.append (keeps_declare sourceName)
  | .scope body => by
      rw [Step.ops]
      exact (steps_keep body).scope.mono fun _ _ => Nat.le_of_lt
  | .range var id lower upper body => by
      have hvar : Keeps Open [Op.declare var, Op.hide var] :=
        (keeps_declare var).append (keeps_hide var)
      have hbody := (keeps_restore var id).append (steps_keep body)
      have hloop := (steps_keep lower).append (hvar.append ((steps_keep upper).append hbody))
      rw [Step.ops]
      exact hloop.scope.mono fun _ _ => Nat.le_of_lt
  | .inlineHelper params body => by
      have hbody : Keeps Open (params.map .declare ++ stepsOps body) :=
        (keeps_map keeps_declare params).append (steps_keep body)
      have hops : (Step.inlineHelper params body).ops = .pushFrame ::
          ((.pushScope :: ((params.map .declare ++ stepsOps body) ++ [.popScope])) ++
            [.popFrame]) := by
        simp only [Step.ops, List.cons_append, List.append_assoc, List.nil_append]
      rw [hops]
      exact hbody.scope.frame
  | .inlineExpr temps => by
      rw [Step.ops]
      exact (keeps_temps temps).frame

theorem steps_keep : ∀ steps : List Step, Keeps Open (stepsOps steps)
  | [] => keeps_nil
  | step :: steps => (Step.keeps step).append (steps_keep steps)

end

/-- The first operations of operations that keep the scopes all fit. -/
theorem Keeps.runs_left (h : Keeps P (xs ++ ys)) {s : Scopes Name LocalId} (n : Nat)
    (hs : P s.depth s.floors) : s.Runs (events xs n) := by
  obtain ⟨m, hm⟩ := events_append xs ys n
  have hruns := (h s n hs).1
  rw [hm, Scopes.runs_append] at hruns
  exact hruns.1

theorem Flat.open {depth : Nat} {floors : List Nat} (h : Flat depth floors) :
    Open depth floors := by
  obtain ⟨rfl, hdepth⟩ := h
  exact hdepth

theorem declareTbRecordFields_keep (ctx : LowerCtx) : Keeps Flat (declareTbRecordFields ctx) := by
  refine keeps_map ?_ ctx.tbRecordFields
  intro field
  exact keeps_declareTbRecordField field.1 field.2

theorem reserveTbRecordNames_keep (ctx : LowerCtx) : Keeps P (reserveTbRecordNames ctx) :=
  keeps_map (fun _ => keeps_none fun _ => rfl) _

theorem Param.keeps : ∀ param : Param, Keeps Flat [param.op]
  | .value sourceName => (keeps_declare sourceName).mono fun _ _ => Flat.open
  | .dut _ => keeps_none fun _ => rfl

theorem Prologue.keeps (ctx : LowerCtx) : ∀ prologue : Prologue, Keeps Flat (prologue.ops ctx)
  | .testBody => declareTbRecordFields_keep ctx
  | .callable params returns => by
      have hreturn : Keeps Flat (if returns then [.declare "__ret".toList] else []) := by
        split_ifs
        · exact (keeps_declare _).mono fun _ _ => Flat.open
        · exact keeps_nil
      exact (reserveTbRecordNames_keep ctx).append ((keeps_map Param.keeps params).append
        ((declareTbRecordFields_keep ctx).append hreturn))
  | .handler => reserveTbRecordNames_keep ctx
  | .plain => keeps_nil

/-- A name is looked up as its innermost declaration, wherever the lowering of a body stands. -/
theorem lookup_innermost (ctx : LowerCtx) (prologue : Prologue) (body : List Step)
    {done rest : List Op} (h : prologue.ops ctx ++ stepsOps body = done ++ rest) (name : Name) :
    ((FuncBuilder.new ctx).run done).lookup name = innermost done name := by
  have hkeeps : Keeps Flat (done ++ rest) := by
    rw [← h]
    exact (prologue.keeps ctx).append ((steps_keep body).mono fun _ _ => Flat.open)
  have hruns : (Scopes.init : Scopes Name LocalId).Runs (events done 0) :=
    hkeeps.runs_left 0 ⟨rfl, Nat.zero_lt_one⟩
  rw [FuncBuilder.lookup, scopes_run]
  exact Scopes.lookup_run hruns name

end Lookup

/-! ### The names of the locals -/

def FuncBuilder.names (b : FuncBuilder) : List Name := b.locals.map TypedLocal.name

/-- The record field that an operation declares under its own name. -/
def FuncBuilder.Op.recordName : Op → Option Name
  | .declareTbRecordField sourceName _ => some sourceName
  | _ => none

/-- The record fields that are still to be declared. -/
def pending (ops : List Op) : List Name := ops.filterMap FuncBuilder.Op.recordName

/-- An operation that chooses a name or takes one as it is. -/
def FuncBuilder.Op.Names : Op → Prop
  | .declare _ | .freshTemp | .pushDutParam _ => True
  | _ => False

/-- The names that an operation takes out of use beforehand. -/
def FuncBuilder.Op.reserved : Op → List Name
  | .reserveLocalName sourceName => [sourceName]
  | _ => []

/-- The names of the record fields are taken before another name is chosen. -/
def Orderly (taken : List Name) : List Op → Prop
  | [] => True
  | op :: ops => (op.Names → pending ops ⊆ taken) ∧ Orderly (op.reserved ++ taken) ops

/-- The parameter of the DUT's module type has a name of its own. -/
def FuncBuilder.Op.Apart (ctx : LowerCtx) (b : FuncBuilder) : Op → Prop
  | .pushDutParam sourceName =>
      sourceName ∉ b.names ∧ sourceName ∉ ctx.tbRecordFields.map Prod.fst
  | _ => True

/-- So has every such parameter when it is pushed. -/
def DutParamsApart (ctx : LowerCtx) (b : FuncBuilder) : List Op → Prop
  | [] => True
  | op :: ops => op.Apart ctx b ∧ DutParamsApart ctx (b.step op) ops

section Names

variable {ctx : LowerCtx} {b : FuncBuilder} {op : Op} {ops xs ys : List Op} {taken more : List Name}

theorem declareCandidate_injective (sourceName : Name) :
    Function.Injective (declareCandidate sourceName) := by
  have hne (n : Nat) : base sourceName ≠ base sourceName ++ '_' :: Nat.toDigits 10 (n + 2) := by
    intro heq
    have hlength := congrArg List.length heq
    rw [List.length_append, List.length_cons] at hlength
    omega
  intro m n heq
  rcases m with _ | m
  · rcases n with _ | n
    · rfl
    · exact absurd heq (hne n)
  · rcases n with _ | n
    · exact absurd heq.symm (hne m)
    · have hdigits := List.append_cancel_left heq
      injection hdigits with _ hdigits
      rw [Nat.add_right_cancel (toDigits_injective hdigits)]

theorem tempName_injective : Function.Injective tempName := by
  intro m n heq
  exact toDigits_injective (List.append_cancel_left heq)

/-- The locals have distinct names, none of them free for another local or the name of a record
field that is still to be declared. -/
structure NamesApart (b : FuncBuilder) (ops : List Op) : Prop where
  nodup : b.names.Nodup
  taken : b.names ⊆ b.localNames
  pendingNodup : (pending ops).Nodup
  pendingFresh : ∀ name ∈ pending ops, name ∉ b.names
  orderly : Orderly b.localNames ops

theorem Orderly.mono (h : Orderly taken ops) (hsub : taken ⊆ more) : Orderly more ops := by
  induction ops generalizing taken more with
  | nil => trivial
  | cons op ops ih =>
      refine ⟨fun hnames => List.Subset.trans (h.1 hnames) hsub, ih h.2 ?_⟩
      exact List.append_subset.mpr ⟨List.subset_append_left _ _,
        List.Subset.trans hsub (List.subset_append_right _ _)⟩

theorem pending_append (xs ys : List Op) : pending (xs ++ ys) = pending xs ++ pending ys :=
  List.filterMap_append

theorem orderly_of_pending (h : pending ops ⊆ taken) : Orderly taken ops := by
  induction ops generalizing taken with
  | nil => trivial
  | cons op ops ih =>
      have hops : pending ops ⊆ taken := by
        refine List.Subset.trans ?_ h
        exact (List.sublist_cons_self op ops).filterMap _ |>.subset
      exact ⟨fun _ => hops, ih (List.Subset.trans hops (List.subset_append_right _ _))⟩

/-- A local under a name that is not taken. -/
theorem NamesApart.push (h : NamesApart b (op :: ops)) (hpending : pending ops ⊆ b.localNames)
    {name : Name} (hnew : name ∉ b.names) (hlater : name ∉ pending ops) {b' : FuncBuilder}
    (hnames : b'.names = b.names ++ [name]) (htaken : b'.localNames = name :: b.localNames)
    (hrecord : op.recordName = none) : NamesApart b' ops := by
  have hsame : pending (op :: ops) = pending ops := by
    rw [pending, List.filterMap_cons_none hrecord]
    rfl
  refine ⟨?_, ?_, ?_, ?_, ?_⟩
  · rw [hnames, ← List.concat_eq_append]
    exact List.Nodup.concat hnew h.nodup
  · rw [hnames, htaken]
    refine List.append_subset.mpr ⟨List.Subset.trans h.taken (List.subset_cons_self _ _), ?_⟩
    exact List.cons_subset.mpr ⟨List.mem_cons_self, List.nil_subset _⟩
  · rw [← hsame]
    exact h.pendingNodup
  · intro other hother
    rw [hnames, List.mem_append, List.mem_singleton]
    rintro (hold | rfl)
    · exact h.pendingFresh other (hsame ▸ hother) hold
    · exact hlater hother
  · rw [htaken]
    exact orderly_of_pending (List.Subset.trans hpending (List.subset_cons_self _ _))

theorem NamesApart.step (h : NamesApart b (op :: ops)) (hapart : op.Apart ctx b)
    (hfields : pending ops ⊆ ctx.tbRecordFields.map Prod.fst) : NamesApart (b.step op) ops := by
  have hnames (name : Name) (ty : IrType) :
      (b.locals ++ [TypedLocal.mk name ty]).map TypedLocal.name = b.names ++ [name] :=
    List.map_append
  cases op with
  | declare sourceName =>
      have hpending := h.orderly.1 trivial
      have hfree := candidate_firstFree b.localNames (declareCandidate_injective sourceName) 0
      exact h.push hpending (fun hold => hfree (h.taken hold)) (fun hlater =>
        hfree (hpending hlater)) (hnames _ _) rfl rfl
  | freshTemp =>
      have hpending := h.orderly.1 trivial
      have hfree := candidate_firstFree b.localNames tempName_injective b.tempCounter
      exact h.push hpending (fun hold => hfree (h.taken hold)) (fun hlater =>
        hfree (hpending hlater)) (hnames _ _) rfl rfl
  | pushDutParam sourceName =>
      exact h.push (h.orderly.1 trivial) hapart.1 (fun hlater => hapart.2 (hfields hlater))
        (hnames _ _) rfl rfl
  | declareTbRecordField sourceName record =>
      have hcons : pending (.declareTbRecordField sourceName record :: ops) =
          sourceName :: pending ops := rfl
      have hnodup := h.pendingNodup
      rw [hcons, List.nodup_cons] at hnodup
      have hlist : (b.declareTbRecordField sourceName record).names = b.names ++ [sourceName] :=
        hnames _ _
      refine ⟨?_, ?_, hnodup.2, ?_, ?_⟩
      · change (b.declareTbRecordField sourceName record).names.Nodup
        rw [hlist, ← List.concat_eq_append]
        exact List.Nodup.concat (h.pendingFresh _ (hcons ▸ List.mem_cons_self)) h.nodup
      · change (b.declareTbRecordField sourceName record).names ⊆ sourceName :: b.localNames
        rw [hlist]
        refine List.append_subset.mpr ⟨List.Subset.trans h.taken (List.subset_cons_self _ _), ?_⟩
        exact List.cons_subset.mpr ⟨List.mem_cons_self, List.nil_subset _⟩
      · intro other hother
        change other ∉ (b.declareTbRecordField sourceName record).names
        rw [hlist, List.mem_append, List.mem_singleton]
        rintro (hold | rfl)
        · exact h.pendingFresh other (hcons ▸ List.mem_cons_of_mem _ hother) hold
        · exact hnodup.1 hother
      · exact h.orderly.2.mono (List.subset_cons_self _ _)
  | reserveLocalName sourceName =>
      exact ⟨h.nodup, List.Subset.trans h.taken (List.subset_cons_self _ _), h.pendingNodup,
        h.pendingFresh, h.orderly.2⟩
  | _ => exact ⟨h.nodup, h.taken, h.pendingNodup, h.pendingFresh, h.orderly.2⟩

theorem NamesApart.run {done rest : List Op} (h : NamesApart b (done ++ rest))
    (hfields : pending (done ++ rest) ⊆ ctx.tbRecordFields.map Prod.fst)
    (hapart : DutParamsApart ctx b done) : (b.run done).names.Nodup := by
  induction done generalizing b with
  | nil => exact h.nodup
  | cons op done ih =>
      have hrest : pending (done ++ rest) ⊆ ctx.tbRecordFields.map Prod.fst := by
        refine List.Subset.trans ?_ hfields
        exact (List.sublist_cons_self op (done ++ rest)).filterMap _ |>.subset
      exact ih (h.step hapart.1 hrest) hrest hapart.2

theorem pending_eq_nil_of_map {α : Type} {op : α → Op} (h : ∀ a, (op a).recordName = none)
    (as : List α) : pending (as.map op) = [] := by
  rw [pending, List.filterMap_eq_nil_iff]
  intro other hother
  obtain ⟨a, _, rfl⟩ := List.mem_map.mp hother
  exact h a

mutual

theorem pending_step : ∀ step : Step, pending step.ops = []
  | .declare _ => rfl
  | .temp => rfl
  | .messageTemp _ => rfl
  | .range var id lower upper body => by
      change pending ((stepsOps lower ++ ([.declare var, .hide var] ++ (stepsOps upper ++
        ([.restore var id] ++ stepsOps body)))) ++ [.popScope]) = []
      simp only [pending_append, pending_steps lower, pending_steps upper, pending_steps body]
      rfl
  | .scope body => by
      change pending (stepsOps body ++ [.popScope]) = []
      rw [pending_append, pending_steps body]
      rfl
  | .inlineHelper params body => by
      change pending (params.map .declare ++ (stepsOps body ++ [.popScope, .popFrame])) = []
      rw [pending_append, pending_append, pending_steps body,
        pending_eq_nil_of_map (fun _ => rfl) params]
      rfl
  | .inlineExpr temps => by
      change pending (List.replicate temps .freshTemp ++ [.popFrame]) = []
      rw [pending_append, pending, List.filterMap_replicate_of_none rfl]
      rfl

theorem pending_steps : ∀ steps : List Step, pending (stepsOps steps) = []
  | [] => rfl
  | step :: steps => by
      rw [stepsOps, pending_append, pending_step step, pending_steps steps]
      rfl

end

theorem pending_declareTbRecordFields (ctx : LowerCtx) :
    pending (declareTbRecordFields ctx) = ctx.tbRecordFields.map Prod.fst := by
  rw [pending, declareTbRecordFields, List.filterMap_map, ← List.filterMap_eq_map]
  rfl

/-- The record fields are declared once, or not at all. -/
theorem pending_prologue (ctx : LowerCtx) (prologue : Prologue) :
    pending (prologue.ops ctx) = [] ∨
      pending (prologue.ops ctx) = ctx.tbRecordFields.map Prod.fst := by
  have hreserve : pending (reserveTbRecordNames ctx) = [] :=
    pending_eq_nil_of_map (fun _ => rfl) _
  rcases prologue with _ | ⟨params, returns⟩ | _ | _
  · exact Or.inr (pending_declareTbRecordFields ctx)
  · have hparams : pending (params.map Param.op) = [] := by
      refine pending_eq_nil_of_map ?_ params
      rintro (_ | _)
      · rfl
      · rfl
    have hreturn : pending (if returns then [.declare "__ret".toList] else []) = [] := by
      split_ifs
      · rfl
      · rfl
    refine Or.inr ?_
    rw [Prologue.ops, pending_append, pending_append, pending_append, hreserve, hparams, hreturn,
      pending_declareTbRecordFields, List.append_nil]
    rfl
  · exact Or.inl hreserve
  · exact Or.inl rfl

theorem orderly_reserve (fields : List (Name × RecordId))
    (h : pending ops ⊆ (fields.map Prod.fst) ++ taken) :
    Orderly taken ((fields.map fun field => .reserveLocalName field.1) ++ ops) := by
  induction fields generalizing taken with
  | nil => exact orderly_of_pending h
  | cons field fields ih =>
      refine ⟨False.elim, ih ?_⟩
      intro name hname
      have hmem := h hname
      simp only [FuncBuilder.Op.reserved, List.map_cons, List.cons_append, List.mem_cons,
        List.mem_append, List.nil_append] at hmem ⊢
      tauto

theorem orderly_declareFields (fields : List (Name × RecordId)) (h : pending ops = []) :
    Orderly taken ((fields.map fun field => .declareTbRecordField field.1 field.2) ++ ops) := by
  induction fields generalizing taken with
  | nil => exact orderly_of_pending (h ▸ List.nil_subset _)
  | cons field fields ih => exact ⟨False.elim, ih⟩

theorem orderly_body (ctx : LowerCtx) (prologue : Prologue) (body : List Step) :
    Orderly taken (prologue.ops ctx ++ stepsOps body) := by
  have hbody := pending_steps body
  rcases prologue with _ | ⟨params, returns⟩ | _ | _
  · exact orderly_declareFields _ hbody
  · have hall : pending (Prologue.ops ctx (.callable params returns) ++ stepsOps body) ⊆
        ctx.tbRecordFields.map Prod.fst ++ taken := by
      rw [pending_append, hbody, List.append_nil]
      rcases pending_prologue ctx (.callable params returns) with hnone | hfields
      · rw [hnone]
        exact List.nil_subset _
      · rw [hfields]
        exact List.subset_append_left _ _
    rw [Prologue.ops, List.append_assoc] at hall ⊢
    refine orderly_reserve _ (List.Subset.trans ?_ hall)
    rw [pending_append (reserveTbRecordNames ctx)]
    exact List.subset_append_right _ _
  · refine orderly_reserve _ ?_
    rw [hbody]
    exact List.nil_subset _
  · refine orderly_of_pending ?_
    rw [Prologue.ops, List.nil_append, hbody]
    exact List.nil_subset _

/-- Where the record fields have distinct names and every parameter of the DUT's module type one
of its own, the locals have distinct names and every name stands for its innermost visible
declaration, wherever the lowering of a body stands. -/
theorem names_distinct (ctx : LowerCtx) (prologue : Prologue) (body : List Step)
    (hfields : (ctx.tbRecordFields.map Prod.fst).Nodup) {done rest : List Op}
    (h : prologue.ops ctx ++ stepsOps body = done ++ rest)
    (hapart : DutParamsApart ctx (.new ctx) done) :
    ((FuncBuilder.new ctx).run done).names.Nodup ∧
      ∀ name, ((FuncBuilder.new ctx).run done).lookup name = innermost done name := by
  have hpending : pending (done ++ rest) = [] ∨
      pending (done ++ rest) = ctx.tbRecordFields.map Prod.fst := by
    rw [← h, pending_append, pending_steps, List.append_nil]
    exact pending_prologue ctx prologue
  have hapartNew : NamesApart (FuncBuilder.new ctx) (done ++ rest) := by
    refine ⟨List.nodup_nil, List.nil_subset _, ?_, fun _ _ => List.not_mem_nil, ?_⟩
    · rcases hpending with hnone | hall
      · rw [hnone]
        exact List.nodup_nil
      · rw [hall]
        exact hfields
    · rw [← h]
      exact orderly_body ctx prologue body
  have hsub : pending (done ++ rest) ⊆ ctx.tbRecordFields.map Prod.fst := by
    rcases hpending with hnone | hall
    · rw [hnone]
      exact List.nil_subset _
    · rw [hall]
      exact List.Subset.refl _
  exact ⟨hapartNew.run hsub hapart, lookup_innermost ctx prologue body h⟩

/-- A method with a parameter of the DUT's module type beside another, in a testbench with a
record field; the lowering stands in the inlined helper of its body. -/
theorem names_distinct_method :
    let ctx : LowerCtx := ⟨["mon".toList], [("pkt".toList, 0)]⟩
    let ops : List Op :=
      [.reserveLocalName "pkt".toList, .pushDutParam "d".toList, .declare "pkt".toList,
        .declareTbRecordField "pkt".toList 0, .pushFrame, .pushScope, .declare "mon".toList]
    ((FuncBuilder.new ctx).run ops).names.Nodup ∧
      ∀ name, ((FuncBuilder.new ctx).run ops).lookup name = innermost ops name := by
  intro ctx ops
  have hops : Prologue.ops ctx (.callable [.dut "d".toList, .value "pkt".toList] false) ++
      stepsOps [.inlineHelper ["mon".toList] []] = ops ++ [.popScope, .popFrame] := rfl
  refine names_distinct ctx _ _ (by decide) hops ?_
  exact ⟨trivial, ⟨by decide, by decide⟩, trivial, trivial, trivial, trivial, trivial, trivial⟩

/-- A parameter of the DUT's module type with the name of a record field. -/
theorem dut_param_shares_name :
    ¬ ∀ (ctx : LowerCtx) (prologue : Prologue) (body : List Step),
      (ctx.tbRecordFields.map Prod.fst).Nodup → ∀ done rest : List Op,
        prologue.ops ctx ++ stepsOps body = done ++ rest →
          ((FuncBuilder.new ctx).run done).names.Nodup ∧
            ∀ name, ((FuncBuilder.new ctx).run done).lookup name = innermost done name := by
  intro hall
  have hnodup := (hall ⟨[], [("pkt".toList, 0)]⟩ (.callable [.dut "pkt".toList] false) []
    (by decide) _ [] (List.append_nil _).symm).1
  revert hnodup
  decide

end Names

end Harc.FunctionLocals
