import Mathlib.Logic.Relation

/-!
Temporal operators and calls in expressions (`codegen/source_transform.rs`): whether an assertion
is a concurrent one, and the temporal calls that get a delay slot.
-/

namespace Harc.TemporalOccurrences

/-! The syntax of expressions (`ast.rs`).  Spans are kept where they are read. -/

abbrev Span := Nat × Nat

inductive UnaryOp where
  | neg | not | notKw | bitNot
deriving DecidableEq

inductive BinaryOp where
  | add | addWrap | sub | subWrap | mul | mulWrap | div | mod
  | eq | ne | lt | le | gt | ge
  | andAnd | orOr | andKw | orKw
  | bitAnd | bitOr | bitXor | shl | shr
  | pipeImplies | pipeImpliesNext | throughout | within | intersect
  | isIn | inside
deriving DecidableEq

inductive SystemFn where
  | rose | fell | stable | past | clog2
deriving DecidableEq

mutual

inductive Expr where
  | int (text : String)
  | float (text : String)
  | time (text : String)
  | string (text : String)
  | bool (value : Bool)
  | ident (name : String)
  | field (target : Expr) (name : String)
  | implicitSelf
  | index (target index : Expr)
  | bitSlice (target hi lo : Expr)
  | call (span : Span) (callee : Expr) (args : List CallArg)
  | forkCall (call : Expr)
  | cast (expr : Expr) (ty : String)
  | send (target value : Expr)
  | unary (op : UnaryOp) (expr : Expr)
  | binary (op : BinaryOp) (lhs rhs : Expr)
  | ternary (cond thenBranch elseBranch : Expr)
  | hashHash (count : HashCount) (expr : Expr)
  | seqRepeat (expr : Expr) (count : HashCount)
  | rangeLit (lo hi : Option Expr)
  | setLit (items : List Expr)
  | distLit (entries : List DistEntry)
  | systemCall (span : Span) (name : SystemFn) (args : List Expr)
  | randomize (blocking : Bool) (target : Expr) (withBody : List Expr)
  | softConstraint (expr : Expr) (weight : Option Expr)
  | distDirective (target : Expr) (entries : List DistEntry)
  | paren (inner : Expr)
  | namedArg (name : String) (value : Expr)
  | structLit (ty : String) (fields : List NamedExpr)
  | coverArrow (lhs rhs : Expr) (count : Option HashCount)
  | solveOrder (args : List Expr)
  | forEachConstraint (var : String) (iter : Expr) (body : List Expr)
  | membership (expr set : Expr)

inductive CallArg where
  | expr (e : Expr)
  | named (name : String) (value : Expr)

inductive HashCount where
  | const (e : Expr)
  | range (lo hi : Expr)

inductive DistEntry where
  | entry (value weight : Expr)

inductive NamedExpr where
  | field (name : String) (value : Expr)

end

def CallArg.value : CallArg → Expr
  | .expr e => e
  | .named _ value => value

/-! The functions of the source. -/

/-- A temporal call, written as a call or as a system call, with its first argument. -/
def matchTemporalCall : Expr → Option (SystemFn × Expr)
  | .systemCall _ name args =>
      match name with
      | .past => args.head?.map fun a => (.past, a)
      | .rose => args.head?.map fun a => (.rose, a)
      | .fell => args.head?.map fun a => (.fell, a)
      | .stable => args.head?.map fun a => (.stable, a)
      | .clog2 => none
  | .call _ (.ident name) args =>
      match name with
      | "past" => args.head?.map fun a => (.past, a.value)
      | "rose" => args.head?.map fun a => (.rose, a.value)
      | "fell" => args.head?.map fun a => (.fell, a.value)
      | "stable" => args.head?.map fun a => (.stable, a.value)
      | _ => none
  | _ => none

def BinaryOp.isTemporal : BinaryOp → Bool
  | .pipeImplies | .pipeImpliesNext | .throughout | .within | .intersect => true
  | _ => false

mutual

def containsTemporal (e : Expr) : Bool :=
  if (matchTemporalCall e).isSome then true
  else
    match e with
    | .binary op lhs rhs => op.isTemporal || containsTemporal lhs || containsTemporal rhs
    | .systemCall _ _ args => anyTemporal args
    | .hashHash _ _ | .seqRepeat _ _ => true
    | .field target _ => containsTemporal target
    | .index target index => containsTemporal target || containsTemporal index
    | .bitSlice target hi lo =>
        containsTemporal target || containsTemporal hi || containsTemporal lo
    | .call _ callee args => containsTemporal callee || anyArgTemporal args
    | .unary _ expr | .cast expr _ => containsTemporal expr
    | .paren inner => containsTemporal inner
    | .send target value => containsTemporal target || containsTemporal value
    | .setLit items => anyTemporal items
    | _ => false

def anyTemporal : List Expr → Bool
  | [] => false
  | e :: rest => containsTemporal e || anyTemporal rest

def anyArgTemporal : List CallArg → Bool
  | [] => false
  | a :: rest => argTemporal a || anyArgTemporal rest

def argTemporal : CallArg → Bool
  | .expr x => containsTemporal x
  | .named _ value => containsTemporal value

end

/-- A temporal call that gets a delay slot. -/
structure Temporal where
  callSpan : Span
  kind : SystemFn
  inner : Expr

def Expr.span : Expr → Span
  | .call span _ _ => span
  | .systemCall span _ _ => span
  | _ => (0, 0)

mutual

/-- The `walk` of `collect_temporal_occurrences`. -/
def collectTemporalOccurrences (e : Expr) : List Temporal :=
  match matchTemporalCall e with
  | some (kind, inner) => [⟨e.span, kind, inner⟩]
  | none =>
      match e with
      | .field target _ => collectTemporalOccurrences target
      | .index target index =>
          collectTemporalOccurrences target ++ collectTemporalOccurrences index
      | .bitSlice target hi lo =>
          collectTemporalOccurrences target ++ collectTemporalOccurrences hi ++
            collectTemporalOccurrences lo
      | .call _ callee args => collectTemporalOccurrences callee ++ collectArgs args
      | .cast expr _ => collectTemporalOccurrences expr
      | .send target value =>
          collectTemporalOccurrences target ++ collectTemporalOccurrences value
      | .unary _ expr => collectTemporalOccurrences expr
      | .binary _ lhs rhs => collectTemporalOccurrences lhs ++ collectTemporalOccurrences rhs
      | .paren inner => collectTemporalOccurrences inner
      | .systemCall _ _ args => collectAll args
      | .hashHash _ expr => collectTemporalOccurrences expr
      | .seqRepeat expr _ => collectTemporalOccurrences expr
      | .setLit items => collectAll items
      | _ => []

def collectAll : List Expr → List Temporal
  | [] => []
  | e :: rest => collectTemporalOccurrences e ++ collectAll rest

def collectArgs : List CallArg → List Temporal
  | [] => []
  | a :: rest => collectArg a ++ collectArgs rest

def collectArg : CallArg → List Temporal
  | .expr e => collectTemporalOccurrences e
  | .named _ value => collectTemporalOccurrences value

end

/-! What the functions are for: all occurrences in the subexpressions. -/

def HashCount.operands : HashCount → List Expr
  | .const e => [e]
  | .range lo hi => [lo, hi]

def DistEntry.operands : DistEntry → List Expr
  | .entry value weight => [value, weight]

def NamedExpr.value : NamedExpr → Expr
  | .field _ value => value

namespace Expr

/-- The operands of an expression that the functions above do not visit, before and after the
others in the order of the source. -/
def skipped : Expr → List Expr × List Expr
  | forkCall inner => ([inner], [])
  | ternary cond thenBranch elseBranch => ([cond, thenBranch, elseBranch], [])
  | hashHash count _ => (count.operands, [])
  | seqRepeat _ count => ([], count.operands)
  | rangeLit lo hi => (lo.toList ++ hi.toList, [])
  | distLit entries => (entries.flatMap DistEntry.operands, [])
  | randomize _ target withBody => (target :: withBody, [])
  | softConstraint expr weight => (expr :: weight.toList, [])
  | distDirective target entries => (target :: entries.flatMap DistEntry.operands, [])
  | namedArg _ value => ([value], [])
  | structLit _ fields => (fields.map NamedExpr.value, [])
  | coverArrow lhs rhs count => (lhs :: count.toList.flatMap HashCount.operands ++ [rhs], [])
  | solveOrder args => (args, [])
  | forEachConstraint _ iter body => (iter :: body, [])
  | membership expr set => ([expr, set], [])
  | _ => ([], [])

/-- The operands that they visit. -/
def visited : Expr → List Expr
  | field target _ => [target]
  | index target i => [target, i]
  | bitSlice target hi lo => [target, hi, lo]
  | call _ callee args => callee :: args.map CallArg.value
  | cast expr _ => [expr]
  | send target value => [target, value]
  | unary _ expr => [expr]
  | binary _ lhs rhs => [lhs, rhs]
  | hashHash _ expr => [expr]
  | seqRepeat expr _ => [expr]
  | setLit items => items
  | systemCall _ _ args => args
  | paren inner => [inner]
  | _ => []

/-- All operands, in the order of the source. -/
def operands (e : Expr) : List Expr :=
  e.skipped.1 ++ e.visited ++ e.skipped.2

theorem sizeOf_optional_lt {e : Option Expr} {x : Expr} (h : x ∈ e.toList) :
    sizeOf x < sizeOf e := by
  rw [Option.mem_toList] at h
  obtain rfl := Option.mem_def.mp h
  simp

theorem sizeOf_count_lt {count : HashCount} {x : Expr} (h : x ∈ count.operands) :
    sizeOf x < sizeOf count := by
  cases count with
  | const e =>
      obtain rfl := List.mem_singleton.mp h
      simp
  | range lo hi =>
      have hmem : x = lo ∨ x = hi := by simpa [HashCount.operands] using h
      rcases hmem with rfl | rfl
      all_goals
        rw [HashCount.range.sizeOf_spec]
        omega

theorem sizeOf_entry_lt {entries : List DistEntry} {x : Expr}
    (h : x ∈ entries.flatMap DistEntry.operands) : sizeOf x < sizeOf entries := by
  obtain ⟨⟨value, weight⟩, hmem, hx⟩ := List.mem_flatMap.mp h
  have hentry := List.sizeOf_lt_of_mem hmem
  have hcases : x = value ∨ x = weight := by simpa [DistEntry.operands] using hx
  rcases hcases with rfl | rfl <;> simp at hentry <;> omega

theorem sizeOf_arg_lt {args : List CallArg} {x : Expr} (h : x ∈ args.map CallArg.value) :
    sizeOf x < sizeOf args := by
  obtain ⟨a, hmem, rfl⟩ := List.mem_map.mp h
  have harg := List.sizeOf_lt_of_mem hmem
  cases a <;> simp [CallArg.value] at harg ⊢ <;> omega

theorem sizeOf_named_lt {fields : List NamedExpr} {x : Expr}
    (h : x ∈ fields.map NamedExpr.value) : sizeOf x < sizeOf fields := by
  obtain ⟨⟨name, value⟩, hmem, rfl⟩ := List.mem_map.mp h
  have hfield := List.sizeOf_lt_of_mem hmem
  simp [NamedExpr.value] at hfield ⊢
  omega

theorem sizeOf_pattern_lt {count : Option HashCount} {x : Expr}
    (h : x ∈ count.toList.flatMap HashCount.operands) : sizeOf x < sizeOf count := by
  obtain ⟨c, hmem, hx⟩ := List.mem_flatMap.mp h
  have hcount := sizeOf_count_lt hx
  rw [Option.mem_toList] at hmem
  obtain rfl := Option.mem_def.mp hmem
  simp
  omega

theorem sizeOf_operand_lt {e x : Expr} (h : x ∈ e.operands) : sizeOf x < sizeOf e := by
  have hlist : ∀ items : List Expr, x ∈ items → sizeOf x < sizeOf items :=
    fun _ => List.sizeOf_lt_of_mem
  have hargs : ∀ args : List CallArg, x ∈ args.map CallArg.value → sizeOf x < sizeOf args :=
    fun _ => sizeOf_arg_lt
  have hentries : ∀ entries : List DistEntry, x ∈ entries.flatMap DistEntry.operands →
      sizeOf x < sizeOf entries := fun _ => sizeOf_entry_lt
  have hfields : ∀ fields : List NamedExpr, x ∈ fields.map NamedExpr.value →
      sizeOf x < sizeOf fields := fun _ => sizeOf_named_lt
  have hcount : ∀ count : HashCount, x ∈ count.operands → sizeOf x < sizeOf count :=
    fun _ => sizeOf_count_lt
  have hoption : ∀ e : Option Expr, x ∈ e.toList → sizeOf x < sizeOf e :=
    fun _ => sizeOf_optional_lt
  have hpattern : ∀ count : Option HashCount, x ∈ count.toList.flatMap HashCount.operands →
      sizeOf x < sizeOf count := fun _ => sizeOf_pattern_lt
  cases e <;>
    simp only [operands, skipped, visited, List.mem_append, List.mem_cons, List.not_mem_nil,
      or_false, List.nil_append, List.append_nil, field.sizeOf_spec, index.sizeOf_spec,
      bitSlice.sizeOf_spec, call.sizeOf_spec, forkCall.sizeOf_spec, cast.sizeOf_spec,
      send.sizeOf_spec, unary.sizeOf_spec, binary.sizeOf_spec, ternary.sizeOf_spec,
      hashHash.sizeOf_spec, seqRepeat.sizeOf_spec, rangeLit.sizeOf_spec, setLit.sizeOf_spec,
      distLit.sizeOf_spec, systemCall.sizeOf_spec, randomize.sizeOf_spec,
      softConstraint.sizeOf_spec, distDirective.sizeOf_spec, paren.sizeOf_spec,
      namedArg.sizeOf_spec, structLit.sizeOf_spec, coverArrow.sizeOf_spec, solveOrder.sizeOf_spec,
      forEachConstraint.sizeOf_spec, membership.sizeOf_spec] at h ⊢ <;>
    grind

/-- Induction over the operands. -/
theorem operand_induction {P : Expr → Prop} (h : ∀ e : Expr, (∀ x ∈ e.operands, P x) → P e)
    (e : Expr) : P e :=
  h e fun x hx =>
    have := sizeOf_operand_lt hx
    operand_induction h x
termination_by sizeOf e

theorem visited_subset {e x : Expr} (h : x ∈ e.visited) : x ∈ e.operands :=
  List.mem_append_left _ (List.mem_append_right _ h)

/-- A temporal operator, without its operands. -/
def isTemporalOperator : Expr → Bool
  | binary op _ _ => op.isTemporal
  | hashHash _ _ => true
  | seqRepeat _ _ => true
  | _ => false

def IsTemporal (e : Expr) : Prop :=
  (matchTemporalCall e).isSome = true ∨ e.isTemporalOperator = true

/-- The subexpressions of an expression, itself included. -/
def Subexpression : Expr → Expr → Prop :=
  Relation.ReflTransGen fun e x => x ∈ e.operands

/-- The subexpressions that are reached through visited operands. -/
def Visited : Expr → Expr → Prop :=
  Relation.ReflTransGen fun e x => x ∈ e.visited

/-- A temporal operator or call occurs in some subexpression. -/
def Occurs (e : Expr) : Prop :=
  ∃ x, e.Subexpression x ∧ x.IsTemporal

def OccursVisited (e : Expr) : Prop :=
  ∃ x, e.Visited x ∧ x.IsTemporal

end Expr

/-- The temporal calls that are not in the argument of another one, in the order of the
source. -/
def outermost (e : Expr) : List Temporal :=
  match matchTemporalCall e with
  | some (kind, inner) => [⟨e.span, kind, inner⟩]
  | none => e.operands.attach.flatMap fun x => outermost x.1
termination_by sizeOf e
decreasing_by exact Expr.sizeOf_operand_lt x.2

theorem outermost_of_none {e : Expr} (h : matchTemporalCall e = none) :
    outermost e = e.operands.flatMap outermost := by
  rw [outermost, h]
  simp only [List.flatMap_subtype, List.unattach_attach]

theorem outermost_of_some {e : Expr} {kind : SystemFn} {inner : Expr}
    (h : matchTemporalCall e = some (kind, inner)) : outermost e = [⟨e.span, kind, inner⟩] := by
  rw [outermost, h]

/-- The operands of an expression that is reached outside of temporal calls. -/
def Expr.Reached : Expr → Expr → Prop :=
  Relation.ReflTransGen fun e x => matchTemporalCall e = none ∧ x ∈ e.visited

/-- No temporal call lies in an operand that is skipped, unless inside another temporal call. -/
def NoHiddenCalls (e : Expr) : Prop :=
  ∀ y, e.Reached y → matchTemporalCall y = none →
    ∀ x ∈ y.skipped.1 ++ y.skipped.2, ∀ z, x.Subexpression z → matchTemporalCall z = none

theorem anyTemporal_iff (items : List Expr) :
    anyTemporal items = true ↔ ∃ x ∈ items, containsTemporal x = true := by
  induction items with
  | nil => simp [anyTemporal]
  | cons e rest ih => simp [anyTemporal, ih]

theorem anyArgTemporal_iff (args : List CallArg) :
    anyArgTemporal args = true ↔ ∃ x ∈ args.map CallArg.value, containsTemporal x = true := by
  induction args with
  | nil => simp [anyArgTemporal]
  | cons a rest ih =>
      have harg : argTemporal a = containsTemporal a.value := by
        cases a <;> rfl
      simp [anyArgTemporal, ih, harg]

theorem containsTemporal_iff (e : Expr) :
    containsTemporal e = true ↔
      e.IsTemporal ∨ ∃ x ∈ e.visited, containsTemporal x = true := by
  rw [containsTemporal.eq_def, Expr.IsTemporal]
  cases hcall : (matchTemporalCall e).isSome with
  | true => simp
  | false =>
      cases e <;> simp [Expr.visited, Expr.isTemporalOperator, anyTemporal_iff,
        anyArgTemporal_iff, or_assoc]

theorem containsTemporal_iff_visited (e : Expr) :
    containsTemporal e = true ↔ e.OccursVisited := by
  induction e using Expr.operand_induction with
  | h e ih =>
      rw [containsTemporal_iff]
      constructor
      · rintro (htemporal | ⟨x, hx, hcontains⟩)
        · exact ⟨e, .refl, htemporal⟩
        · obtain ⟨y, hpath, hy⟩ := (ih x (Expr.visited_subset hx)).mp hcontains
          exact ⟨y, .head hx hpath, hy⟩
      · rintro ⟨y, hpath, hy⟩
        rcases hpath.cases_head with rfl | ⟨x, hx, hrest⟩
        · exact Or.inl hy
        · exact Or.inr ⟨x, hx, (ih x (Expr.visited_subset hx)).mpr ⟨y, hrest, hy⟩⟩

theorem collectAll_eq (items : List Expr) :
    collectAll items = items.flatMap collectTemporalOccurrences := by
  induction items with
  | nil => rfl
  | cons e rest ih => rw [collectAll, ih, List.flatMap_cons]

theorem collectArgs_eq (args : List CallArg) :
    collectArgs args = (args.map CallArg.value).flatMap collectTemporalOccurrences := by
  induction args with
  | nil => rfl
  | cons a rest ih =>
      have harg : collectArg a = collectTemporalOccurrences a.value := by
        cases a <;> rfl
      rw [collectArgs, ih, harg, List.map_cons, List.flatMap_cons]

theorem collect_of_some {e : Expr} {kind : SystemFn} {inner : Expr}
    (h : matchTemporalCall e = some (kind, inner)) :
    collectTemporalOccurrences e = [⟨e.span, kind, inner⟩] := by
  rw [collectTemporalOccurrences.eq_def, h]

theorem collect_of_none {e : Expr} (h : matchTemporalCall e = none) :
    collectTemporalOccurrences e = e.visited.flatMap collectTemporalOccurrences := by
  rw [collectTemporalOccurrences.eq_def, h]
  cases e <;> simp [Expr.visited, collectAll_eq, collectArgs_eq]

/-! What is collected is a part of the outermost calls. -/

section Parts

variable {α β : Type} {f g : α → List β}

theorem flatMap_sublist {l : List α} (h : ∀ x ∈ l, (f x).Sublist (g x)) :
    (l.flatMap f).Sublist (l.flatMap g) := by
  induction l with
  | nil => exact List.Sublist.slnil
  | cons x l ih =>
      rw [List.flatMap_cons, List.flatMap_cons]
      exact (h x List.mem_cons_self).append (ih fun y hy => h y (List.mem_cons_of_mem x hy))

/-- Parts are equal if they are as long. -/
theorem append_eq_of_sublist {a b c d : List β} (hac : a.Sublist c) (hbd : b.Sublist d)
    (h : a ++ b = c ++ d) : a = c ∧ b = d := by
  have hlength := congrArg List.length h
  rw [List.length_append, List.length_append] at hlength
  have ha := hac.length_le
  have hb := hbd.length_le
  exact ⟨hac.eq_of_length (by omega), hbd.eq_of_length (by omega)⟩

theorem flatMap_eq_iff {l : List α} (h : ∀ x ∈ l, (f x).Sublist (g x)) :
    l.flatMap f = l.flatMap g ↔ ∀ x ∈ l, f x = g x := by
  induction l with
  | nil => simp
  | cons x l ih =>
      have hrest : ∀ y ∈ l, (f y).Sublist (g y) := fun y hy => h y (List.mem_cons_of_mem x hy)
      rw [List.flatMap_cons, List.flatMap_cons, List.forall_mem_cons, ← ih hrest]
      constructor
      · exact append_eq_of_sublist (h x List.mem_cons_self) (flatMap_sublist hrest)
      · rintro ⟨hx, hl⟩
        rw [hx, hl]

end Parts

theorem collect_sublist (e : Expr) :
    (collectTemporalOccurrences e).Sublist (outermost e) := by
  induction e using Expr.operand_induction with
  | h e ih =>
      cases hcall : matchTemporalCall e with
      | some t =>
          have hsame : collectTemporalOccurrences e = outermost e := by
            rw [collect_of_some hcall, outermost_of_some hcall]
          exact hsame ▸ List.Sublist.refl (collectTemporalOccurrences e)
      | none =>
          rw [collect_of_none hcall, outermost_of_none hcall, Expr.operands,
            List.flatMap_append, List.flatMap_append]
          have hvisited := flatMap_sublist fun x hx => ih x (Expr.visited_subset hx)
          exact (hvisited.trans (List.sublist_append_right _ _)).trans
            (List.sublist_append_left _ _)

theorem outermost_eq_nil_iff (e : Expr) :
    outermost e = [] ↔ ∀ z, e.Subexpression z → matchTemporalCall z = none := by
  induction e using Expr.operand_induction with
  | h e ih =>
      cases hcall : matchTemporalCall e with
      | some t =>
          rw [outermost_of_some hcall]
          refine iff_of_false (by simp) fun hall => ?_
          have hnone := hall e .refl
          rw [hcall] at hnone
          exact nomatch hnone
      | none =>
          rw [outermost_of_none hcall, List.flatMap_eq_nil_iff]
          constructor
          · intro hall z hpath
            rcases hpath.cases_head with rfl | ⟨x, hx, hrest⟩
            · exact hcall
            · exact (ih x hx).mp (hall x hx) z hrest
          · intro hall x hx
            exact (ih x hx).mpr fun z hpath => hall z (.head hx hpath)

/-- Visiting all operands but the skipped ones. -/
theorem noHiddenCalls_iff {e : Expr} (h : matchTemporalCall e = none) :
    NoHiddenCalls e ↔ (∀ x ∈ e.skipped.1 ++ e.skipped.2, outermost x = []) ∧
      ∀ x ∈ e.visited, NoHiddenCalls x := by
  simp only [outermost_eq_nil_iff]
  constructor
  · intro hhidden
    refine ⟨hhidden e .refl h, ?_⟩
    intro x hx y hpath
    exact hhidden y (.head ⟨h, hx⟩ hpath)
  · rintro ⟨hskipped, hvisited⟩ y hpath hy
    rcases hpath.cases_head with rfl | ⟨x, ⟨-, hx⟩, hrest⟩
    · exact hskipped
    · exact hvisited x hx y hrest hy

/-- All outermost calls are collected exactly if none is hidden. -/
theorem collect_eq_iff (e : Expr) :
    collectTemporalOccurrences e = outermost e ↔ NoHiddenCalls e := by
  induction e using Expr.operand_induction with
  | h e ih =>
      cases hcall : matchTemporalCall e with
      | some t =>
          refine iff_of_true (by rw [collect_of_some hcall, outermost_of_some hcall]) ?_
          intro y hpath hy
          rcases hpath.cases_head with rfl | ⟨x, ⟨hnone, -⟩, -⟩
          · rw [hcall] at hy
            exact nomatch hy
          · rw [hcall] at hnone
            exact nomatch hnone
      | none =>
          have hparts : ∀ x ∈ e.visited,
              (collectTemporalOccurrences x).Sublist (outermost x) :=
            fun x _ => collect_sublist x
          rw [noHiddenCalls_iff hcall, collect_of_none hcall, outermost_of_none hcall,
            Expr.operands, List.flatMap_append, List.flatMap_append]
          have hvisited : (∀ x ∈ e.visited, collectTemporalOccurrences x = outermost x) ↔
              ∀ x ∈ e.visited, NoHiddenCalls x :=
            forall₂_congr fun x hx => ih x (Expr.visited_subset hx)
          rw [← hvisited, ← flatMap_eq_iff hparts, ← List.flatMap_eq_nil_iff,
            List.flatMap_append, List.append_eq_nil_iff]
          constructor
          · intro heq
            have hlength := congrArg List.length heq
            have hle := (flatMap_sublist hparts).length_le
            simp only [List.length_append] at hlength
            refine ⟨⟨List.length_eq_zero_iff.mp (by omega), List.length_eq_zero_iff.mp (by omega)⟩,
              (flatMap_sublist hparts).eq_of_length (by omega)⟩
          · rintro ⟨⟨hbefore, hafter⟩, heq⟩
            rw [hbefore, hafter, heq, List.nil_append, List.append_nil]

/-- Both functions see all temporal occurrences exactly if no temporal call lies in a skipped
operand (unless inside another call) and, when a temporal operator or call occurs at all, one is
reached through visited operands. -/
theorem temporalOccurrences_iff (e : Expr) :
    ((containsTemporal e = true ↔ e.Occurs) ∧ collectTemporalOccurrences e = outermost e) ↔
      (e.Occurs → e.OccursVisited) ∧ NoHiddenCalls e := by
  have hsound : e.OccursVisited → e.Occurs := by
    rintro ⟨x, hpath, hx⟩
    have hle : Expr.Visited ≤ Expr.Subexpression :=
      Relation.ReflTransGen.mono fun _ _ => Expr.visited_subset
    exact ⟨x, hle e x hpath, hx⟩
  rw [containsTemporal_iff_visited, collect_eq_iff]
  refine and_congr_left fun _ => ?_
  exact ⟨fun h => h.mpr, fun h => ⟨hsound, h⟩⟩

/-- `sel ? past(a) : b` -/
def ternaryPast : Expr :=
  .ternary (.ident "sel") (.call (9, 16) (.ident "past") [.expr (.ident "a")]) (.ident "b")

/-- The call in the arm is not seen. -/
theorem ternaryPast_unseen :
    ¬ (containsTemporal ternaryPast = true ↔ ternaryPast.Occurs) ∧
      collectTemporalOccurrences ternaryPast ≠ outermost ternaryPast := by
  have hpast : matchTemporalCall (.call (9, 16) (.ident "past") [.expr (.ident "a")]) =
      some (.past, .ident "a") := rfl
  have hoperand : Expr.call (9, 16) (.ident "past") [.expr (.ident "a")] ∈ ternaryPast.operands :=
    List.mem_append_left _ (List.mem_append_left _ (List.mem_cons_of_mem _ List.mem_cons_self))
  have hcontains : containsTemporal ternaryPast = false := rfl
  have hcollect : collectTemporalOccurrences ternaryPast = [] := rfl
  constructor
  · rw [hcontains]
    intro h
    have hoccurs : ternaryPast.Occurs :=
      ⟨_, .single hoperand, Or.inl (by rw [hpast]; rfl)⟩
    exact nomatch h.mpr hoccurs
  · rw [hcollect]
    intro h
    have hnone := (outermost_eq_nil_iff ternaryPast).mp h.symm _ (.single hoperand)
    rw [hpast] at hnone
    exact nomatch hnone

end Harc.TemporalOccurrences
