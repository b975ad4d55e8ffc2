import Harc.CoroutineLowering

/-!
Executing a control-flow graph from a resume block up to the next suspension,
and the agreement of the flattened transition table with it.
-/

namespace Harc.CoroutineRefinement

open Harc.TestbenchIr
open Harc.CoroutineLowering

variable {Stmt Expr : Type}

/-- Execution stops at every terminator except `jump` and `branch`. -/
def EndsChain : Terminator Expr → Bool
  | .jump _ | .branch _ _ _ => false
  | _ => true

/-- Execution from a block up to the first terminator that suspends or ends the
function.  `ρ` resolves the branch conditions in the order in which they are
met, and the trace lists each condition with its outcome. -/
inductive RunsTo (func : TbFunction Stmt Expr) :
    (Nat → Bool) → BlockId → List (GuardTerm Expr) → Terminator Expr → Prop
  | stop {ρ : Nat → Bool} {b : BlockId} {block : BasicBlock Stmt Expr}
      (hblock : func.blocks[b]? = some block) (hend : EndsChain block.terminator) :
      RunsTo func ρ b [] block.terminator
  | jump {ρ : Nat → Bool} {b target : BlockId} {block : BasicBlock Stmt Expr}
      {trace : List (GuardTerm Expr)} {stop : Terminator Expr}
      (hblock : func.blocks[b]? = some block) (hterm : block.terminator = .jump target)
      (hrest : RunsTo func ρ target trace stop) : RunsTo func ρ b trace stop
  | branch {ρ : Nat → Bool} {b thenBlock elseBlock : BlockId}
      {block : BasicBlock Stmt Expr} {cond : Expr}
      {trace : List (GuardTerm Expr)} {stop : Terminator Expr}
      (hblock : func.blocks[b]? = some block)
      (hterm : block.terminator = .branch cond thenBlock elseBlock)
      (hrest : RunsTo func (fun n => ρ (n + 1))
        (if ρ 0 then thenBlock else elseBlock) trace stop) :
      RunsTo func ρ b (⟨cond, ρ 0⟩ :: trace) stop

theorem RunsTo.unique {func : TbFunction Stmt Expr} {ρ : Nat → Bool} {b : BlockId}
    {trace trace' : List (GuardTerm Expr)} {stop stop' : Terminator Expr}
    (hrun : RunsTo func ρ b trace stop) (hrun' : RunsTo func ρ b trace' stop') :
    trace = trace' ∧ stop = stop' := by
  induction hrun generalizing trace' stop' with
  | stop hblock hend =>
      cases hrun' with
      | stop hblock' _ =>
          rw [hblock] at hblock'
          cases hblock'
          exact ⟨rfl, rfl⟩
      | jump hblock' hterm _ =>
          rw [hblock] at hblock'
          cases hblock'
          simp [EndsChain, hterm] at hend
      | branch hblock' hterm _ =>
          rw [hblock] at hblock'
          cases hblock'
          simp [EndsChain, hterm] at hend
  | jump hblock hterm _ ih =>
      cases hrun' with
      | stop hblock' hend =>
          rw [hblock] at hblock'
          cases hblock'
          simp [EndsChain, hterm] at hend
      | jump hblock' hterm' hrest' =>
          rw [hblock] at hblock'
          cases hblock'
          rw [hterm] at hterm'
          cases hterm'
          exact ih hrest'
      | branch hblock' hterm' _ =>
          rw [hblock] at hblock'
          cases hblock'
          rw [hterm] at hterm'
          cases hterm'
  | branch hblock hterm _ ih =>
      cases hrun' with
      | stop hblock' hend =>
          rw [hblock] at hblock'
          cases hblock'
          simp [EndsChain, hterm] at hend
      | jump hblock' hterm' _ =>
          rw [hblock] at hblock'
          cases hblock'
          rw [hterm] at hterm'
          cases hterm'
      | branch hblock' hterm' hrest' =>
          rw [hblock] at hblock'
          cases hblock'
          rw [hterm] at hterm'
          cases hterm'
          obtain ⟨htrace, hstop⟩ := ih hrest'
          exact ⟨by rw [htrace], hstop⟩

/-- What the transitions of one path must say.  A suspension resumes in the
state of its successor; `waitUntilTimeout` has one transition for each edge. -/
def Describes (states : List BlockId) (source : StateId) (guard : List (GuardTerm Expr))
    (stop : Terminator Expr) (group : List (Transition Expr)) : Prop :=
  match stop with
  | .waitCycles cycles clock succ =>
      ∃ state, states[state]? = some succ ∧
        group = [⟨source, guard, .cyclesElapsed cycles clock, some state⟩]
  | .waitCyclesSync cycles succ =>
      ∃ state, states[state]? = some succ ∧
        group = [⟨source, guard, .cyclesElapsed cycles none, some state⟩]
  | .waitTimePs ps succ =>
      ∃ state, states[state]? = some succ ∧
        group = [⟨source, guard, .timeElapsedPs ps, some state⟩]
  | .waitUntil preds mode succ =>
      ∃ state, states[state]? = some succ ∧
        group = [⟨source, guard, .predsHold preds mode, some state⟩]
  | .waitUntilTimeout preds mode cycles onFire onTimeout =>
      ∃ fired expired, states[fired]? = some onFire ∧ states[expired]? = some onTimeout ∧
        group = [⟨source, guard, .predsHold preds mode, some fired⟩,
          ⟨source, guard, .timeout cycles, some expired⟩]
  | .randomize _ constraints succ =>
      ∃ state, states[state]? = some succ ∧
        group = [⟨source, guard, .solved constraints, some state⟩]
  | .tbLifecycleCall function succ =>
      ∃ state, states[state]? = some succ ∧
        group = [⟨source, guard, .lifecycleInlined function, some state⟩]
  | .ret => group = [⟨source, guard, .done, none⟩]
  | .fatal _ => group = [⟨source, guard, .fatal, none⟩]
  | .jump _ | .branch _ _ _ => False

/-- The state list and the transition table describe the function. -/
structure Refines (func : TbFunction Stmt Expr) (states : List BlockId)
    (table : List (Transition Expr)) : Prop where
  entry_first : states.head? = some func.entry
  states_nodup : states.Nodup
  mem_states_iff : ∀ b, b ∈ states ↔ b = func.entry ∨
    ∃ block ∈ func.blocks, EndsChain block.terminator ∧ b ∈ block.terminator.successors
  run_exists : ∀ (source : StateId) b, states[source]? = some b → ∀ ρ : Nat → Bool,
    ∃ trace stop, RunsTo func ρ b trace stop
  /-- One group of the state's transitions has the trace as its guard, and it
  describes the terminator that the run reaches. -/
  run_described : ∀ (source : StateId) b, states[source]? = some b →
    ∀ (ρ : Nat → Bool) trace stop, RunsTo func ρ b trace stop →
      ∃ before group after, table = before ++ group ++ after ∧
        Describes states source trace stop group ∧
        ∀ t ∈ before ++ after, ¬ (t.source = source ∧ t.guard = trace)
  /-- There are no other transitions. -/
  transition_runs : ∀ t ∈ table, ∃ b ρ stop group, states[t.source]? = some b ∧
    RunsTo func ρ b t.guard stop ∧ Describes states t.source t.guard stop group ∧ t ∈ group

/-- The transitions below a block, as the tree of paths through it. -/
inductive PathTable (func : TbFunction Stmt Expr) (stateAt : BlockId → Option StateId)
    (source : StateId) : BlockId → List (GuardTerm Expr) → List (Transition Expr) → Prop
  | stop {b : BlockId} {guard : List (GuardTerm Expr)} {block : BasicBlock Stmt Expr}
      (hblock : func.blocks[b]? = some block) (hend : EndsChain block.terminator) :
      PathTable func stateAt source b guard
        (leafTransitions stateAt source guard block.terminator)
  | jump {b target : BlockId} {guard : List (GuardTerm Expr)}
      {block : BasicBlock Stmt Expr} {table : List (Transition Expr)}
      (hblock : func.blocks[b]? = some block) (hterm : block.terminator = .jump target)
      (hrest : PathTable func stateAt source target guard table) :
      PathTable func stateAt source b guard table
  | branch {b thenBlock elseBlock : BlockId} {guard : List (GuardTerm Expr)}
      {block : BasicBlock Stmt Expr} {cond : Expr}
      {thenTable elseTable : List (Transition Expr)}
      (hblock : func.blocks[b]? = some block)
      (hterm : block.terminator = .branch cond thenBlock elseBlock)
      (hthen : PathTable func stateAt source thenBlock (guard ++ [⟨cond, true⟩]) thenTable)
      (helse : PathTable func stateAt source elseBlock (guard ++ [⟨cond, false⟩]) elseTable) :
      PathTable func stateAt source b guard (thenTable ++ elseTable)

theorem collapse_pathTable (func : TbFunction Stmt Expr) (source : StateId)
    (block : BlockId) (guard : List (GuardTerm Expr)) (path : List BlockId)
    (stateOf : List (Option StateId)) (out out' : List (Transition Expr))
    (hcollapse : collapse func source block guard path stateOf out = .ok out') :
    ∃ table, out' = out ++ table ∧
      PathTable func (fun b => (stateOf[b]?).join) source block guard table := by
  fun_induction collapse func source block guard path stateOf out generalizing out' with
  | case1 => cases hcollapse
  | case2 block guard path out hpath hblock target hterm ih =>
      obtain ⟨table, hout, htable⟩ := ih out' hcollapse
      exact ⟨table, hout, .jump (List.getElem?_eq_getElem hblock) hterm htable⟩
  | case3 => cases hcollapse
  | case4 block guard path out hpath hblock cond thenBlock elseBlock hterm out₁ hthen ihthen
      ihelse =>
      obtain ⟨thenTable, hout₁, hthenTable⟩ := ihthen out₁ hthen
      obtain ⟨elseTable, hout, helseTable⟩ := ihelse out' hcollapse
      refine ⟨thenTable ++ elseTable, ?_, ?_⟩
      · rw [hout, hout₁, List.append_assoc]
      · exact .branch (List.getElem?_eq_getElem hblock) hterm hthenTable helseTable
  | case5 block guard path out hpath hblock hjump hbranch =>
      simp only [Except.ok.injEq] at hcollapse
      refine ⟨_, hcollapse.symm, .stop (List.getElem?_eq_getElem hblock) ?_⟩
      unfold EndsChain
      split
      · rename_i hterm
        exact absurd hterm (hjump _)
      · rename_i hterm
        exact absurd hterm (hbranch _ _ _)
      · rfl
  | case6 => cases hcollapse

theorem mem_leafTransitions {stateAt : BlockId → Option StateId} {source : StateId}
    {guard : List (GuardTerm Expr)} {stop : Terminator Expr} {t : Transition Expr}
    (ht : t ∈ leafTransitions stateAt source guard stop) :
    t.source = source ∧ t.guard = guard := by
  cases stop <;> simp only [leafTransitions, List.mem_cons, List.not_mem_nil, or_false] at ht
  case waitUntilTimeout =>
      rcases ht with rfl | rfl <;> exact ⟨rfl, rfl⟩
  all_goals
    subst ht
    exact ⟨rfl, rfl⟩

/-- Every transition below a block belongs to a run from it. -/
theorem PathTable.transition_runs {func : TbFunction Stmt Expr}
    {stateAt : BlockId → Option StateId} {source : StateId} {b : BlockId}
    {guard : List (GuardTerm Expr)} {table : List (Transition Expr)}
    (htable : PathTable func stateAt source b guard table) :
    ∀ t ∈ table, ∃ ρ trace stop, RunsTo func ρ b trace stop ∧ EndsChain stop ∧
      t ∈ leafTransitions stateAt source (guard ++ trace) stop := by
  induction htable with
  | @stop b guard block hblock hend =>
      intro t ht
      exact ⟨fun _ => true, [], _, .stop hblock hend, hend, by simpa using ht⟩
  | jump hblock hterm _ ih =>
      intro t ht
      obtain ⟨ρ, trace, stop, hrun, hend, hleaf⟩ := ih t ht
      exact ⟨ρ, trace, stop, .jump hblock hterm hrun, hend, hleaf⟩
  | @branch b thenBlock elseBlock guard block cond _ _ hblock hterm _ _ ihthen ihelse =>
      intro t ht
      rcases List.mem_append.mp ht with ht | ht
      · obtain ⟨ρ, trace, stop, hrun, hend, hleaf⟩ := ihthen t ht
        refine ⟨fun n => Nat.casesOn n true ρ, ⟨cond, true⟩ :: trace, stop, ?_, hend,
          by simpa using hleaf⟩
        exact .branch hblock hterm hrun
      · obtain ⟨ρ, trace, stop, hrun, hend, hleaf⟩ := ihelse t ht
        refine ⟨fun n => Nat.casesOn n false ρ, ⟨cond, false⟩ :: trace, stop, ?_, hend,
          by simpa using hleaf⟩
        exact .branch hblock hterm hrun

theorem PathTable.guard_extends {func : TbFunction Stmt Expr}
    {stateAt : BlockId → Option StateId} {source : StateId} {b : BlockId}
    {guard : List (GuardTerm Expr)} {table : List (Transition Expr)}
    (htable : PathTable func stateAt source b guard table) {t : Transition Expr}
    (ht : t ∈ table) : t.source = source ∧ ∃ trace, t.guard = guard ++ trace := by
  obtain ⟨_, trace, _, _, _, hleaf⟩ := htable.transition_runs t ht
  obtain ⟨hsource, hguard⟩ := mem_leafTransitions hleaf
  exact ⟨hsource, trace, hguard⟩

/-- The other edge of a branch contributes no transition with this trace. -/
theorem PathTable.other_edge {func : TbFunction Stmt Expr}
    {stateAt : BlockId → Option StateId} {source : StateId} {b : BlockId}
    {guard trace : List (GuardTerm Expr)} {cond : Expr}
    {table : List (Transition Expr)} (taken : Bool)
    (htable : PathTable func stateAt source b (guard ++ [⟨cond, !taken⟩]) table) :
    ∀ t ∈ table, t.guard ≠ guard ++ ⟨cond, taken⟩ :: trace := by
  intro t ht hguard
  obtain ⟨_, rest, hrest⟩ := htable.guard_extends ht
  rw [hguard, List.append_assoc, List.append_cancel_left_eq] at hrest
  simp at hrest

/-- Every resolution reaches a leaf, and the transitions of that leaf are the
only ones below the block with the trace as guard. -/
theorem PathTable.run_group {func : TbFunction Stmt Expr}
    {stateAt : BlockId → Option StateId} {source : StateId} {b : BlockId}
    {guard : List (GuardTerm Expr)} {table : List (Transition Expr)}
    (htable : PathTable func stateAt source b guard table) (ρ : Nat → Bool) :
    ∃ trace stop before after, RunsTo func ρ b trace stop ∧ EndsChain stop ∧
      table = before ++ leafTransitions stateAt source (guard ++ trace) stop ++ after ∧
      ∀ t ∈ before ++ after, t.guard ≠ guard ++ trace := by
  induction htable generalizing ρ with
  | @stop b guard block hblock hend =>
      exact ⟨[], _, [], [], .stop hblock hend, hend, by simp, by simp⟩
  | jump hblock hterm _ ih =>
      obtain ⟨trace, stop, before, after, hrun, hrest⟩ := ih ρ
      exact ⟨trace, stop, before, after, .jump hblock hterm hrun, hrest⟩
  | @branch b thenBlock elseBlock guard block cond thenTable elseTable hblock hterm hthen helse
      ihthen ihelse =>
      cases hρ : ρ 0 with
      | true =>
          obtain ⟨trace, stop, before, after, hrun, hend, heq, hother⟩ :=
            ihthen (fun n => ρ (n + 1))
          refine ⟨⟨cond, true⟩ :: trace, stop, before, after ++ elseTable, ?_, hend, ?_, ?_⟩
          · rw [← hρ]
            exact .branch hblock hterm (by simpa [hρ] using hrun)
          · rw [heq]
            simp
          · intro t ht
            rw [← List.append_assoc, List.mem_append] at ht
            rcases ht with ht | ht
            · simpa using hother t ht
            · exact helse.other_edge true t ht
      | false =>
          obtain ⟨trace, stop, before, after, hrun, hend, heq, hother⟩ :=
            ihelse (fun n => ρ (n + 1))
          refine ⟨⟨cond, false⟩ :: trace, stop, thenTable ++ before, after, ?_, hend, ?_, ?_⟩
          · rw [← hρ]
            exact .branch hblock hterm (by simpa [hρ] using hrun)
          · rw [heq]
            simp
          · intro t ht
            rw [List.append_assoc, List.mem_append] at ht
            rcases ht with ht | ht
            · exact hthen.other_edge false t ht
            · simpa using hother t ht

theorem resumeSuccessors_eq (t : Terminator Expr) :
    resumeSuccessors t = if EndsChain t then t.successors else [] := by
  cases t <;> rfl

theorem foldl_set_getElem?_iff (xs : List BlockId) (marks : List Bool) (i : Nat) :
    (xs.foldl (fun marks s => marks.set s true) marks)[i]? = some true ↔
      marks[i]? = some true ∨ i < marks.length ∧ i ∈ xs := by
  induction xs generalizing marks with
  | nil => simp
  | cons x xs ih =>
      rw [List.foldl_cons, ih, List.length_set, List.getElem?_set]
      by_cases hx : x = i
      · subst hx
        have hlt : marks[x]? = some true → x < marks.length := fun h =>
          (List.getElem?_eq_some_iff.mp h).1
        simp only [ite_true, List.mem_cons, true_or, and_true]
        split <;> simp_all
      · have hx' : i ≠ x := fun h => hx h.symm
        simp [hx, hx']

theorem isResume_getElem?_iff (func : TbFunction Stmt Expr) (i : Nat) :
    (isResume func)[i]? = some true ↔ i < func.blocks.length ∧ (i = func.entry ∨
      ∃ block ∈ func.blocks, i ∈ resumeSuccessors block.terminator) := by
  unfold isResume
  rw [← List.foldl_flatMap, foldl_set_getElem?_iff, List.getElem?_set]
  simp only [List.length_replicate, List.length_set, List.getElem?_replicate, List.mem_flatMap]
  by_cases hentry : func.entry = i
  · subst hentry
    simp
    tauto
  · have hne : i ≠ func.entry := fun h => hentry h.symm
    simp [hentry, hne]

theorem mem_resumeStates_iff (func : TbFunction Stmt Expr) (hclean : func.VerifyClean)
    (b : BlockId) : b ∈ resumeStates func ↔ b = func.entry ∨
      ∃ block ∈ func.blocks, b ∈ resumeSuccessors block.terminator := by
  have hlt : ∀ block ∈ func.blocks, b ∈ resumeSuccessors block.terminator →
      b < func.blocks.length := by
    intro block hblock hb
    rw [resumeSuccessors_eq] at hb
    split at hb
    · exact hclean.successors_lt block hblock b hb
    · simp at hb
  have hmarked := isResume_getElem?_iff func b
  simp only [resumeStates, List.mem_cons, List.mem_filterMap, Prod.exists,
    List.mem_zipIdx_iff_getElem?]
  constructor
  · rintro (rfl | ⟨marked, i, hi, hb⟩)
    · exact .inl rfl
    · split at hb
      · rename_i hmark
        simp only [Bool.and_eq_true, bne_iff_ne] at hmark
        cases hb
        rw [hmark.1] at hi
        exact (hmarked.mp hi).2
      · cases hb
  · rintro (rfl | ⟨block, hblock, hb⟩)
    · exact .inl rfl
    · by_cases hentry : b = func.entry
      · exact .inl hentry
      · refine .inr ⟨true, b, ?_, by simp [hentry]⟩
        exact hmarked.mpr ⟨hlt block hblock hb, .inr ⟨block, hblock, hb⟩⟩

theorem resumeStates_nodup (func : TbFunction Stmt Expr) : (resumeStates func).Nodup := by
  rw [resumeStates, List.nodup_cons]
  constructor
  · simp
  · apply List.Nodup.filterMap
    · rintro ⟨marked, i⟩ ⟨marked', i'⟩ b hb hb'
      simp only [Bool.and_eq_true, bne_iff_ne, Option.mem_def, Option.ite_none_right_eq_some,
        Option.some.injEq] at hb hb'
      rw [hb.1.1, hb'.1.1, hb.2, hb'.2]
    · apply List.Nodup.of_map Prod.snd
      rw [List.zipIdx_map_snd]
      exact List.nodup_range'

theorem foldl_setState_getElem? (pairs : List (BlockId × StateId))
    (table : List (Option StateId)) (hnodup : (pairs.map Prod.fst).Nodup) {b : BlockId}
    {state : StateId} (hb : b < table.length)
    (hstate : (b, state) ∈ pairs ∨ b ∉ pairs.map Prod.fst ∧ table[b]? = some (some state)) :
    (pairs.foldl (fun table p => table.set p.1 (some p.2)) table)[b]? =
      some (some state) := by
  induction pairs generalizing table with
  | nil => simpa using hstate
  | cons p pairs ih =>
      rw [List.map_cons, List.nodup_cons] at hnodup
      rw [List.foldl_cons]
      apply ih _ hnodup.2 (by simpa using hb)
      rcases hstate with hstate | ⟨hother, hstate⟩
      · rcases List.mem_cons.mp hstate with rfl | hmem
        · refine .inr ⟨hnodup.1, ?_⟩
          simp [hb]
        · exact .inl hmem
      · simp only [List.map_cons, List.mem_cons, not_or] at hother
        refine .inr ⟨hother.2, ?_⟩
        rw [List.getElem?_set_ne (fun h => hother.1 h.symm), hstate]

theorem stateOfBlocks_getElem? (nblocks : Nat) (states : List BlockId)
    (hnodup : states.Nodup) {state : StateId} {b : BlockId} (hb : b < nblocks)
    (hstate : states[state]? = some b) :
    (stateOfBlocks nblocks states)[b]? = some (some state) := by
  apply foldl_setState_getElem?
  · rwa [List.zipIdx_map_fst]
  · simpa using hb
  · exact .inl (List.mem_zipIdx_iff_getElem?.mpr hstate)

theorem describes_leafTransitions {states : List BlockId}
    {stateAt : BlockId → Option StateId} (source : StateId)
    (guard : List (GuardTerm Expr)) {stop : Terminator Expr} (hend : EndsChain stop)
    (hsucc : ∀ succ ∈ stop.successors,
      ∃ state, stateAt succ = some state ∧ states[state]? = some succ) :
    Describes states source guard stop (leafTransitions stateAt source guard stop) := by
  cases stop with
  | jump | branch => cases hend
  | ret | fatal => rfl
  | waitUntilTimeout preds mode cycles onFire onTimeout =>
      obtain ⟨fired, hfired, hfire⟩ := hsucc onFire (by simp [Terminator.successors])
      obtain ⟨expired, hexpired, htimeout⟩ := hsucc onTimeout (by simp [Terminator.successors])
      exact ⟨fired, expired, hfire, htimeout, by simp [leafTransitions, hfired, hexpired]⟩
  | waitCycles _ _ succ | waitCyclesSync _ succ | waitTimePs _ succ | waitUntil _ _ succ
  | randomize _ _ succ | tbLifecycleCall _ succ =>
      obtain ⟨state, hat, hstate⟩ := hsucc succ (by simp [Terminator.successors])
      exact ⟨state, hstate, by simp [leafTransitions, hat]⟩

theorem RunsTo.stop_mem {func : TbFunction Stmt Expr} {ρ : Nat → Bool} {b : BlockId}
    {trace : List (GuardTerm Expr)} {stop : Terminator Expr}
    (hrun : RunsTo func ρ b trace stop) :
    EndsChain stop ∧ ∃ block ∈ func.blocks, block.terminator = stop := by
  induction hrun with
  | stop hblock hend => exact ⟨hend, _, List.mem_of_getElem? hblock, rfl⟩
  | jump _ _ _ ih => exact ih
  | branch _ _ _ ih => exact ih

/-- The loop over the states appends one path table for each of them. -/
theorem collapseStates_tables (func : TbFunction Stmt Expr)
    (stateOf : List (Option StateId)) (pairs : List (BlockId × StateId))
    (hnodup : (pairs.map Prod.snd).Nodup) (out out' : List (Transition Expr))
    (hcollapse : collapseStates func stateOf pairs out = .ok out') :
    ∃ added, out' = out ++ added ∧
      (∀ t ∈ added, ∃ p ∈ pairs, ∃ table,
        PathTable func (fun b => (stateOf[b]?).join) p.2 p.1 [] table ∧ t ∈ table) ∧
      ∀ p ∈ pairs, ∃ before table after, added = before ++ table ++ after ∧
        PathTable func (fun b => (stateOf[b]?).join) p.2 p.1 [] table ∧
        ∀ t ∈ before ++ after, t.source ≠ p.2 := by
  induction pairs generalizing out with
  | nil =>
      simp only [collapseStates, Except.ok.injEq] at hcollapse
      exact ⟨[], by simp [hcollapse], by simp, by simp⟩
  | cons p pairs ih =>
      obtain ⟨resumeBlock, source⟩ := p
      rw [List.map_cons, List.nodup_cons] at hnodup
      simp only [collapseStates] at hcollapse
      split at hcollapse
      · cases hcollapse
      · rename_i out₁ hfirst
        obtain ⟨table, hout₁, htable⟩ := collapse_pathTable _ _ _ _ _ _ _ _ hfirst
        obtain ⟨added, hout', hsound, hcomplete⟩ := ih hnodup.2 out₁ hcollapse
        have hothers : ∀ t ∈ added, t.source ∈ pairs.map Prod.snd := by
          intro t ht
          obtain ⟨p, hp, _, hpTable, htp⟩ := hsound t ht
          rw [(hpTable.guard_extends htp).1]
          exact List.mem_map_of_mem hp
        refine ⟨table ++ added, by rw [hout', hout₁, List.append_assoc], ?_, ?_⟩
        · intro t ht
          rcases List.mem_append.mp ht with ht | ht
          · exact ⟨_, List.mem_cons_self .., table, htable, ht⟩
          · obtain ⟨p, hp, hrest⟩ := hsound t ht
            exact ⟨p, List.mem_cons_of_mem _ hp, hrest⟩
        · intro p hp
          rcases List.mem_cons.mp hp with rfl | hp
          · refine ⟨[], table, added, by simp, htable, ?_⟩
            intro t ht heq
            exact hnodup.1 (heq ▸ hothers t ht)
          · obtain ⟨before, pTable, after, hadded, hpTable, hsource⟩ := hcomplete p hp
            refine ⟨table ++ before, pTable, after, by simp [hadded], hpTable, ?_⟩
            intro t ht
            rw [List.append_assoc, List.mem_append] at ht
            rcases ht with ht | ht
            · rw [(htable.guard_extends ht).1]
              intro heq
              exact hnodup.1 (List.mem_map.mpr ⟨p, hp, heq.symm⟩)
            · exact hsource t ht

theorem mem_resumeStates_iff_successor (func : TbFunction Stmt Expr)
    (hclean : func.VerifyClean) (b : BlockId) :
    b ∈ resumeStates func ↔ b = func.entry ∨ ∃ block ∈ func.blocks,
      EndsChain block.terminator ∧ b ∈ block.terminator.successors := by
  rw [mem_resumeStates_iff func hclean]
  simp only [resumeSuccessors_eq, List.mem_ite_nil_right]

theorem resumeStates_lt (func : TbFunction Stmt Expr) (hclean : func.VerifyClean)
    {b : BlockId} (hb : b ∈ resumeStates func) : b < func.blocks.length := by
  rcases (mem_resumeStates_iff_successor func hclean b).mp hb with
    rfl | ⟨block, hblock, _, hb⟩
  · exact hclean.entry_lt
  · exact hclean.successors_lt block hblock b hb

/-- The successors of the terminator that a run reaches have states, so the
transitions emitted there describe it. -/
theorem RunsTo.describes {func : TbFunction Stmt Expr} (hclean : func.VerifyClean)
    {ρ : Nat → Bool} {b : BlockId} {trace : List (GuardTerm Expr)}
    {stop : Terminator Expr} (hrun : RunsTo func ρ b trace stop) (source : StateId) :
    Describes (resumeStates func) source trace stop (leafTransitions
      (fun b => ((stateOfBlocks func.blocks.length (resumeStates func))[b]?).join)
      source trace stop) := by
  obtain ⟨hend, block, hblock, rfl⟩ := hrun.stop_mem
  apply describes_leafTransitions source trace hend
  intro succ hsucc
  have hmem : succ ∈ resumeStates func :=
    (mem_resumeStates_iff_successor func hclean succ).mpr (.inr ⟨block, hblock, hend, hsucc⟩)
  obtain ⟨state, hstate⟩ := List.mem_iff_getElem?.mp hmem
  refine ⟨state, ?_, hstate⟩
  rw [stateOfBlocks_getElem? _ _ (resumeStates_nodup func) (resumeStates_lt func hclean hmem)
    hstate]
  rfl

theorem tagFunction_refines (func : TbFunction Stmt Expr) (hclean : func.VerifyClean)
    (states : List BlockId) (table : List (Transition Expr))
    (htag : tagFunction func = .ok (states, table)) : Refines func states table := by
  simp only [tagFunction] at htag
  split at htag
  · cases htag
  · rename_i transitions hcollapse
    simp only [Except.ok.injEq, Prod.mk.injEq] at htag
    obtain ⟨rfl, rfl⟩ := htag
    have hpairs : ((resumeStates func).zipIdx.map Prod.snd).Nodup := by
      rw [List.zipIdx_map_snd]
      exact List.nodup_range'
    obtain ⟨added, hadded, hsound, hcomplete⟩ :=
      collapseStates_tables _ _ _ hpairs _ _ hcollapse
    rw [List.nil_append] at hadded
    subst hadded
    have hgroup : ∀ (source : StateId) b, (resumeStates func)[source]? = some b →
        ∀ ρ : Nat → Bool, ∃ trace stop, RunsTo func ρ b trace stop ∧
          ∃ before group after, transitions = before ++ group ++ after ∧
            Describes (resumeStates func) source trace stop group ∧
            ∀ t ∈ before ++ after, ¬ (t.source = source ∧ t.guard = trace) := by
      intro source b hb ρ
      obtain ⟨before, table, after, htransitions, htable, hsource⟩ :=
        hcomplete (b, source) (List.mem_zipIdx_iff_getElem?.mpr hb)
      obtain ⟨trace, stop, pre, post, hrun, _, hsplit, hguard⟩ := htable.run_group ρ
      refine ⟨trace, stop, hrun, before ++ pre, _, post ++ after, ?_,
        hrun.describes hclean source, ?_⟩
      · rw [htransitions, hsplit]
        simp
      · intro t ht heq
        simp only [List.mem_append] at ht
        rcases ht with (ht | ht) | (ht | ht)
        · exact hsource t (List.mem_append_left _ ht) heq.1
        · exact hguard t (List.mem_append_left _ ht) (by simpa using heq.2)
        · exact hguard t (List.mem_append_right _ ht) (by simpa using heq.2)
        · exact hsource t (List.mem_append_right _ ht) heq.1
    refine ⟨rfl, resumeStates_nodup func, mem_resumeStates_iff_successor func hclean,
      ?_, ?_, ?_⟩
    · intro source b hb ρ
      obtain ⟨trace, stop, hrun, _⟩ := hgroup source b hb ρ
      exact ⟨trace, stop, hrun⟩
    · intro source b hb ρ trace stop hrun
      obtain ⟨trace', stop', hrun', hdescribed⟩ := hgroup source b hb ρ
      obtain ⟨rfl, rfl⟩ := hrun.unique hrun'
      exact hdescribed
    · intro t ht
      obtain ⟨⟨b, source⟩, hp, table, htable, htTable⟩ := hsound t ht
      obtain ⟨ρ, trace, stop, hrun, _, hleaf⟩ := htable.transition_runs t htTable
      rw [List.nil_append] at hleaf
      obtain ⟨rfl, rfl⟩ := mem_leafTransitions hleaf
      exact ⟨b, ρ, stop, _, List.mem_zipIdx_iff_getElem?.mp hp, hrun,
        hrun.describes hclean _, hleaf⟩

theorem runFunctions_of_not_mem (funcs : List (TbFunction Stmt Expr))
    (tables tables' : CoroutineMetadata Expr) (hrun : runFunctions funcs tables = .ok tables')
    (id : FunctionId) (hid : ∀ func ∈ funcs, isTagged func.kind → func.id ≠ id) :
    tables'.stateEnum id = tables.stateEnum id ∧
      tables'.transitionTable id = tables.transitionTable id := by
  fun_induction runFunctions funcs tables with
  | case1 tables =>
      cases hrun
      exact ⟨rfl, rfl⟩
  | case2 => cases hrun
  | case3 func rest tables htagged states transitions _ ih =>
      have hne : id ≠ func.id := (hid func (List.mem_cons_self ..) htagged).symm
      obtain ⟨hstates, htable⟩ := ih hrun fun f hf => hid f (List.mem_cons_of_mem _ hf)
      rw [hstates, htable]
      exact ⟨Function.update_of_ne hne .., Function.update_of_ne hne ..⟩
  | case4 func rest tables _ ih =>
      exact ih hrun fun f hf => hid f (List.mem_cons_of_mem _ hf)

theorem runFunctions_of_mem (funcs : List (TbFunction Stmt Expr))
    (hnodup : (funcs.map TbFunction.id).Nodup) (tables tables' : CoroutineMetadata Expr)
    (hrun : runFunctions funcs tables = .ok tables') {func : TbFunction Stmt Expr}
    (hfunc : func ∈ funcs) (htagged : isTagged func.kind) :
    ∃ states table, tagFunction func = .ok (states, table) ∧
      tables'.stateEnum func.id = some states ∧
      tables'.transitionTable func.id = some table := by
  fun_induction runFunctions funcs tables with
  | case1 => simp at hfunc
  | case2 => cases hrun
  | case3 first rest tables _ states transitions htag ih =>
      rw [List.map_cons, List.nodup_cons] at hnodup
      rcases List.mem_cons.mp hfunc with rfl | hfunc
      · obtain ⟨hstates, htable⟩ := runFunctions_of_not_mem rest _ _ hrun func.id
          fun f hf _ heq => hnodup.1 (List.mem_map.mpr ⟨f, hf, heq⟩)
        exact ⟨states, transitions, htag, hstates.trans (Function.update_self ..),
          htable.trans (Function.update_self ..)⟩
      · exact ih hnodup.2 hrun hfunc
  | case4 first rest tables hskipped ih =>
      rw [List.map_cons, List.nodup_cons] at hnodup
      rcases List.mem_cons.mp hfunc with rfl | hfunc
      · exact absurd htagged hskipped
      · exact ih hnodup.2 hrun hfunc

theorem nodup_ids (prog : TbProgram Stmt Expr) (hclean : prog.VerifyClean) :
    (prog.functions.map TbFunction.id).Nodup := by
  have hids : prog.functions.map TbFunction.id = List.range prog.functions.length := by
    apply List.ext_getElem
    · simp
    · intro i hi _
      rw [List.getElem_map, List.getElem_range]
      exact hclean.id_eq_slot i _ (List.getElem?_eq_getElem (by simpa using hi))
  rw [hids]
  exact List.nodup_range

/-- The pass records, for the tagged functions and for no other, a state list and
a transition table that describe the function. -/
theorem run_refines (prog : TbProgram Stmt Expr) (hclean : prog.VerifyClean)
    (metadata : CoroutineMetadata Expr) (hrun : run prog = .ok metadata)
    (func : TbFunction Stmt Expr) (hfunc : func ∈ prog.functions) :
    if isTagged func.kind then
      ∃ states table, metadata.stateEnum func.id = some states ∧
        metadata.transitionTable func.id = some table ∧ Refines func states table
    else
      metadata.stateEnum func.id = none ∧ metadata.transitionTable func.id = none := by
  have hnodup := nodup_ids prog hclean
  split
  · rename_i htagged
    obtain ⟨states, table, htag, hstates, htable⟩ :=
      runFunctions_of_mem prog.functions hnodup _ _ hrun hfunc htagged
    exact ⟨states, table, hstates, htable,
      tagFunction_refines func (hclean.function_clean func hfunc) states table htag⟩
  · rename_i hskipped
    apply runFunctions_of_not_mem prog.functions _ _ hrun func.id
    intro other hother htagged heq
    have hsame : other = func := List.inj_on_of_nodup_map hnodup hother hfunc heq
    exact hskipped (hsame ▸ htagged)

/-- A polling loop: wait a cycle at a time until `ready`. -/
def pollLoop : TbProgram Unit String where
  functions := [{
    id := 0
    name := "poll"
    kind := .testBody
    blocks := [
      ⟨[], .branch "ready" 1 2⟩,
      ⟨[], .ret⟩,
      ⟨[], .waitCycles "1" none 0⟩]
    entry := 0
    implicitReturns := [] }]

theorem pollLoop_clean : pollLoop.VerifyClean := by
  refine ⟨?_, ?_⟩
  · intro func hfunc
    simp only [pollLoop, List.mem_singleton] at hfunc
    subst hfunc
    exact ⟨by decide, by decide⟩
  · intro i func hi
    match i, hi with
    | 0, hi =>
        cases hi
        rfl

theorem run_refines_pollLoop : ∃ metadata states table, run pollLoop = .ok metadata ∧
    metadata.stateEnum 0 = some states ∧ metadata.transitionTable 0 = some table ∧
    ∃ func ∈ pollLoop.functions, Refines func states table := by
  have hrun : ∃ metadata, run pollLoop = .ok metadata := by
    simp [run, pollLoop, runFunctions, isTagged, tagFunction, collapseStates, resumeStates,
      isResume, resumeSuccessors, collapse]
  obtain ⟨metadata, hrun⟩ := hrun
  obtain ⟨states, table, hstates, htable, hrefines⟩ :=
    run_refines pollLoop pollLoop_clean metadata hrun _ (List.mem_singleton.mpr rfl)
  exact ⟨metadata, states, table, hrun, hstates, htable, _, List.mem_singleton.mpr rfl, hrefines⟩

end Harc.CoroutineRefinement
