import Harc.ControlSimulation
import Harc.ControlTargets
import Harc.BlockPruning
import Harc.ControlResolution

/-!
Correctness of the lowering of structured statements: the finished function
behaves as the resolved statement tree.
-/

namespace Harc.ControlCorrectness

open Harc.Fallible
open Harc.TestbenchIr
open Harc.IrExpr
open Harc.FunctionBuilder
open Harc.TraceSimulation
open Harc.StructuredControl
open Harc.ControlLowering
open Harc.ControlLayout
open Harc.ControlFrame
open Harc.ControlSimulation
open Harc.ControlTargets
open Harc.BlockPruning
open Harc.ControlResolution

section Functions

variable {Stmt Expr World LeafError : Type}

/-- The table that a function body is laid out from. -/
def entryCode : CodeTable Stmt Expr :=
  { blocks := [⟨[], none⟩], current := 0 }

/-- The laid-out code of a function body. -/
def bodyCode (plan : PlanBlock Stmt Expr) : CodeTable Stmt Expr :=
  layoutBlock [] plan entryCode

theorem bodyCode_laid (plan : PlanBlock Stmt Expr) :
    Laid entryCode (bodyCode plan) (· = (bodyCode plan).current) :=
  layoutBlock_laid [] plan entryCode (Nat.zero_lt_one)

theorem bodyCode_bounded (plan : PlanBlock Stmt Expr) : Bounded (bodyCode plan) := by
  refine layoutBlock_bounded (n := 0) (fun frame hframe => absurd hframe List.not_mem_nil) plan
    entryCode Nat.zero_lt_one (Nat.zero_le _) ?_
  intro j b t hb ht
  obtain ⟨rfl, rfl⟩ : j = 0 ∧ b = ⟨[], none⟩ := by
    cases j <;> simp_all [entryCode]
  cases ht

theorem sealed_targets {code : CodeTable Stmt Expr} (hbounded : Bounded code) :
    TargetsInRange (code.blocks.map sealBlock) := by
  intro block hblock s hs
  obtain ⟨b, hb, rfl⟩ := List.mem_map.mp hblock
  obtain ⟨j, hj⟩ := List.mem_iff_getElem?.mp hb
  rw [List.length_map]
  rcases hterm : b.term with _ | t
  · simp [sealBlock, hterm, Terminator.successors] at hs
  · simp only [sealBlock, hterm, Option.getD_some] at hs
    exact hbounded j b t hj hterm s hs

theorem sealed_realized (code : CodeTable Stmt Expr) :
    Realized code (code.blocks.map sealBlock) := by
  intro j b hb
  refine ⟨sealBlock b, by simp [hb], fun _ => List.prefix_refl _, fun t ht => ?_⟩
  simp [sealBlock, ht]

/-- The fall-through block of a function returns. -/
theorem halted_fallThrough {code : CodeTable Stmt Expr} (hopen : IsOpen code) (w : World) :
    Halted (code.blocks.map sealBlock) (atEnd code w) := by
  obtain ⟨stmts, hstmts⟩ := isOpenAt_iff.mp hopen
  exact ⟨⟨stmts, .ret⟩, by simp [atEnd, hstmts, sealBlock], by simp [atEnd, stmtCount, hstmts],
    rfl⟩

theorem step_eq_none_of_halted {M : Machine Stmt Expr World}
    {blocks : List (BasicBlock Stmt Expr)} {c : Config World} (h : Halted blocks c) :
    M.step blocks c = none := by
  obtain ⟨⟨stmts, t⟩, hblock, hend, hret⟩ := h
  have hnone : stmts[c.offset]? = none := List.getElem?_eq_none hend
  change t = .ret at hret
  simp [Machine.step, hblock, hnone, hret]

/-- How a function body may be left: it halts, unless a loop runs out of fuel. -/
def bodyExits (blocks : List (BasicBlock Stmt Expr)) (fuel : Nat) :
    Exits World (Config World)
  | .normal, _, w, c | .returned, _, w, c => Halted blocks c ∧ c.world = w
  | .broke, _, _, _ | .continued, _, _, _ => False
  | .outOfFuel, n, _, _ => fuel ≤ n

theorem bodyExits_cases {blocks : List (BasicBlock Stmt Expr)} {fuel n : Nat} {o : Outcome}
    {w : World} {c : Config World} (hexit : bodyExits blocks fuel o n w c) :
    fuel ≤ n ∨ o ∈ [Outcome.normal, Outcome.returned] ∧ Halted blocks c ∧ c.world = w := by
  cases o with
  | normal | returned => exact .inr ⟨by simp, hexit⟩
  | broke | continued => exact hexit.elim
  | outOfFuel => exact .inl hexit

theorem bodyCode_sim (M : Machine Stmt Expr World) {plan : PlanBlock Stmt Expr}
    (hplan : plan.Enclosed false) (fuel : Nat) :
    Sim (M.step ((bodyCode plan).blocks.map sealBlock)) (fun w => ⟨0, 0, w⟩)
      (bodyExits ((bodyCode plan).blocks.map sealBlock) fuel) (M.runBlock fuel plan) := by
  have hfresh : Fresh (entryCode : CodeTable Stmt Expr) 0 := rfl
  have hframes : false = true → ([] : List LoopFrame) ≠ [] := fun h => by cases h
  have hsim := layoutBlock_sim M hframes plan hplan entryCode hfresh.isOpen _
    (sealed_realized (bodyCode plan)) fuel
  rw [show (entryCode : CodeTable Stmt Expr) = started entryCode 0 from rfl,
    atEnd_fresh hfresh] at hsim
  refine hsim.weaken fun o n w c hexit => ?_
  cases o with
  | normal =>
      obtain ⟨hopen, rfl⟩ := hexit
      exact ⟨halted_fallThrough hopen w, rfl⟩
  | returned | outOfFuel => exact hexit
  | broke | continued =>
      obtain ⟨_, frame, rest, hframes, _⟩ := hexit
      cases hframes

/-- A function performs what a resolved tree does, whatever its statements,
conditions and suspensions mean: it halts when the tree ends, after the same
events and in the same world, and both perform the same prefixes otherwise. -/
structure Faithful (func : TbFunction Stmt Expr) (plan : PlanBlock Stmt Expr) : Prop where
  clean : func.VerifyClean
  halts_iff : ∀ {World : Type} (M : Machine Stmt Expr World) (w : World)
    (trace : List (Event Stmt Expr)) (w' : World),
    (∃ n c, Steps (M.step func.blocks) n ⟨func.entry, 0, w⟩ trace c ∧ Halted func.blocks c ∧
      c.world = w') ↔
    ∃ fuel, (M.runBlock fuel plan w).trace = trace ∧ (M.runBlock fuel plan w).world = w' ∧
      (M.runBlock fuel plan w).outcome ∈ [.normal, .returned]
  performs : ∀ {World : Type} (M : Machine Stmt Expr World) (w : World) (fuel : Nat),
    ∃ n c, Steps (M.step func.blocks) n ⟨func.entry, 0, w⟩ (M.runBlock fuel plan w).trace c
  performed : ∀ {World : Type} (M : Machine Stmt Expr World) (w : World) (n : Nat)
    (trace : List (Event Stmt Expr)) (c : Config World),
    Steps (M.step func.blocks) n ⟨func.entry, 0, w⟩ trace c →
      ∃ fuel, trace <+: (M.runBlock fuel plan w).trace

section Body

variable {plan : PlanBlock Stmt Expr} {marks : List Bool}

/-- The kept graph simulates the body from its entry. -/
theorem keptBody_sim (M : Machine Stmt Expr World) (hplan : plan.Enclosed false)
    (hmarking : Marking ((bodyCode plan).blocks.map sealBlock) marks) (fuel : Nat) :
    Sim (M.step (keptBlocks ((bodyCode plan).blocks.map sealBlock) marks))
      (fun w => ⟨0, 0, w⟩)
      (bodyExits (keptBlocks ((bodyCode plan).blocks.map sealBlock) marks) fuel)
      (M.runBlock fuel plan) := by
  intro w
  obtain ⟨n, c, hsteps, hexit⟩ := bodyCode_sim M hplan fuel w
  have hentry : Config.kept marks ⟨0, 0, w⟩ = ⟨0, 0, w⟩ := by
    simp [Config.kept, keptIndex]
  have hmark := steps_marked hmarking hsteps hmarking.entry
  refine ⟨n, Config.kept marks c, ?_, ?_⟩
  · change Steps _ n (⟨0, 0, w⟩ : Config World) _ _
    rw [← hentry]
    exact (steps_keptBlocks hmarking hmarking.entry).mpr ⟨c, rfl, hsteps⟩
  · generalize (M.runBlock fuel plan w).outcome = o at hexit
    cases o with
    | normal | returned => exact ⟨(halted_keptBlocks hmarking hmark).mpr hexit.1, hexit.2⟩
    | broke | continued | outOfFuel => exact hexit

end Body

/-- What the simulation from the entry says about whole executions. -/
theorem halts_iff_of_sim {M : Machine Stmt Expr World} {blocks : List (BasicBlock Stmt Expr)}
    {plan : PlanBlock Stmt Expr}
    (hsim : ∀ fuel, Sim (M.step blocks) (fun w => ⟨0, 0, w⟩) (bodyExits blocks fuel)
      (M.runBlock fuel plan)) (w : World) (trace : List (Event Stmt Expr)) (w' : World) :
    (∃ n c, Steps (M.step blocks) n ⟨0, 0, w⟩ trace c ∧ Halted blocks c ∧ c.world = w') ↔
    ∃ fuel, (M.runBlock fuel plan w).trace = trace ∧ (M.runBlock fuel plan w).world = w' ∧
      (M.runBlock fuel plan w).outcome ∈ [.normal, .returned] := by
  constructor
  · rintro ⟨n, c, hsteps, hhalted, rfl⟩
    -- fuel above the length of the halting execution cannot run out
    obtain ⟨m, c', hsteps', hexit⟩ := hsim (n + 1) w
    refine ⟨n + 1, ?_⟩
    rcases bodyExits_cases hexit with hle | ⟨ho, hhalted', hworld⟩
    · obtain ⟨rest, _, hrest⟩ := hsteps.prefix_of_le hsteps' (by omega)
      have hzero := (hrest.eq_of_stuck (step_eq_none_of_halted hhalted)).1
      omega
    · obtain ⟨htrace, rfl⟩ := hsteps.unique_of_stuck hsteps' (step_eq_none_of_halted hhalted)
        (step_eq_none_of_halted hhalted')
      exact ⟨htrace.symm, hworld.symm, ho⟩
  · rintro ⟨fuel, rfl, rfl, ho⟩
    obtain ⟨n, c, hsteps, hexit⟩ := hsim fuel w
    refine ⟨n, c, hsteps, ?_⟩
    rcases List.mem_cons.mp ho with ho | ho
    · rwa [ho] at hexit
    · rwa [List.mem_singleton.mp ho] at hexit

theorem performed_of_sim {M : Machine Stmt Expr World} {blocks : List (BasicBlock Stmt Expr)}
    {plan : PlanBlock Stmt Expr}
    (hsim : ∀ fuel, Sim (M.step blocks) (fun w => ⟨0, 0, w⟩) (bodyExits blocks fuel)
      (M.runBlock fuel plan)) {w : World} {n : Nat} {trace : List (Event Stmt Expr)}
    {c : Config World} (hsteps : Steps (M.step blocks) n ⟨0, 0, w⟩ trace c) :
    trace <+: (M.runBlock n plan w).trace := by
  obtain ⟨m, c', hsteps', hexit⟩ := hsim n w
  rcases Nat.le_total n m with hle | hle
  · obtain ⟨rest, htrace, _⟩ := hsteps.prefix_of_le hsteps' hle
    exact ⟨rest, htrace.symm⟩
  · obtain ⟨rest, htrace, hrest⟩ := hsteps'.prefix_of_le hsteps hle
    rcases bodyExits_cases hexit with hge | ⟨_, hhalted, _⟩
    · rw [show n - m = 0 by omega] at hrest
      cases hrest
      exact ⟨[], by simp [htrace]⟩
    · obtain ⟨_, rfl, _⟩ := hrest.eq_of_stuck (step_eq_none_of_halted hhalted)
      exact ⟨[], by simp [htrace]⟩

/-- Only the insertion block of a finished body is open. -/
theorem bodyCode_open {plan : PlanBlock Stmt Expr} {j : Nat}
    (hopen : (bodyCode plan).isOpenAt j = true) : j = (bodyCode plan).current := by
  refine (bodyCode_laid plan).open_pending j ?_ hopen
  rcases Nat.eq_zero_or_pos j with rfl | hpos
  · exact .inl rfl
  · exact .inr hpos

/-- The old indices of the blocks that `finish` ends with an implicit return. -/
def implicitReturnOld (code : CodeTable Stmt Expr) (marks : List Bool) : List Nat :=
  ((List.range code.blocks.length).filter fun i => code.isOpenAt i).filter fun i =>
    marks[i]? = some true

theorem length_implicitReturnOld_le (plan : PlanBlock Stmt Expr) (marks : List Bool) :
    (implicitReturnOld (bodyCode plan) marks).length ≤ 1 := by
  have hnodup : (implicitReturnOld (bodyCode plan) marks).Nodup :=
    ((List.nodup_range).filter _).filter _
  have hmem : ∀ i ∈ implicitReturnOld (bodyCode plan) marks, i = (bodyCode plan).current := by
    intro i hi
    exact bodyCode_open (List.mem_filter.mp (List.mem_filter.mp hi).1).2
  rw [List.eq_replicate_of_mem hmem] at hnodup
  exact List.nodup_replicate.mp hnodup

theorem finish_eq (names : NameTable) (plan : PlanBlock Stmt Expr) (frames : List LoopFrame)
    (id : FunctionId) (name : String) (kind : FunctionKind) :
    ∃ marks, Marking ((bodyCode plan).blocks.map sealBlock) marks ∧
      FuncBuilder.finish ⟨names, bodyCode plan, frames⟩ id name kind =
        (.ok { id, name, kind, entry := 0
               blocks := keptBlocks ((bodyCode plan).blocks.map sealBlock) marks
               implicitReturns := (implicitReturnOld (bodyCode plan) marks).map
                 (keptIndex marks) } : Except (LowerError LeafError) _) := by
  have hpos : 0 < (bodyCode plan).blocks.length := (bodyCode_laid plan).length_le
  obtain ⟨marks, hmarks⟩ : ∃ marks,
      reachableBlocks ((bodyCode plan).blocks.map sealBlock)
        (List.replicate ((bodyCode plan).blocks.map sealBlock).length false) [0] =
          (.ok marks : Except (LowerError LeafError) (List Bool)) :=
    reachableBlocks_eq_ok (sealed_targets (bodyCode_bounded plan)) (by simp)
      (List.forall_mem_singleton.mpr (by simpa using hpos))
  refine ⟨marks, reachableBlocks_marking hmarks, ?_⟩
  simp only [FuncBuilder.finish, hmarks, bind, Except.bind]
  rfl

theorem faithful_of_marking {plan : PlanBlock Stmt Expr} {marks : List Bool}
    (hplan : plan.Enclosed false)
    (hmarking : Marking ((bodyCode plan).blocks.map sealBlock) marks)
    {func : TbFunction Stmt Expr} (hentry : func.entry = 0)
    (hblocks : func.blocks = keptBlocks ((bodyCode plan).blocks.map sealBlock) marks) :
    Faithful func plan := by
  have hsim : ∀ {World : Type} (M : Machine Stmt Expr World) fuel,
      Sim (M.step func.blocks) (fun w => ⟨0, 0, w⟩) (bodyExits func.blocks fuel)
        (M.runBlock fuel plan) := by
    intro World M fuel
    rw [hblocks]
    exact keptBody_sim M hplan hmarking fuel
  have hzero : keptIndex marks 0 = 0 := by
    simp [keptIndex]
  refine ⟨⟨?_, ?_⟩, ?_, ?_, ?_⟩
  · rw [hentry, hblocks]
    exact hzero ▸ keptIndex_lt hmarking hmarking.entry
  · rw [hblocks]
    exact keptBlocks_targets hmarking
  · intro World M w trace w'
    rw [hentry]
    exact halts_iff_of_sim (hsim M) w trace w'
  · intro World M w fuel
    rw [hentry]
    obtain ⟨n, c, hsteps, _⟩ := hsim M fuel w
    exact ⟨n, c, hsteps⟩
  · intro World M w n trace c hsteps
    rw [hentry] at hsteps
    exact ⟨n, performed_of_sim (hsim M) hsteps⟩

end Functions

variable {Ast Atom Leaf Op LeafError : Type}

/-- Lowering a statement moves the names and the code on and keeps the loop stack. -/
theorem lowerStmt_kept {L : LeafLowering Ast Atom Leaf Op LeafError}
    {stmt : SourceStmt Ast Atom} {b b' : Builder Leaf Op}
    (hcurrent : b.code.current < b.code.blocks.length) (hlower : lowerStmt L stmt b = .ok b') :
    b'.loopStack = b.loopStack ∧ ScopesKept b.names b'.names := by
  obtain ⟨names, code, frames⟩ := b
  rw [lowerStmt_eq L frames stmt names code hcurrent] at hlower
  cases hresolve : resolveStmt L (!frames.isEmpty) stmt names with
  | error e =>
      rw [hresolve] at hlower
      cases hlower
  | ok r =>
      rw [hresolve] at hlower
      cases hlower
      exact ⟨rfl, (resolveStmt_spec stmt hresolve).2⟩

/-- `break` ends its block with a jump to the exit of the innermost loop. -/
theorem lowerStmt_break {L : LeafLowering Ast Atom Leaf Op LeafError} {b b' : Builder Leaf Op}
    (hcurrent : b.code.current < b.code.blocks.length)
    (hlower : lowerStmt L .breakStmt b = .ok b') :
    ∃ frame rest stmts, b.loopStack = frame :: rest ∧
      b'.code.blocks[b'.code.current]? = some ⟨stmts, some (.jump frame.breakTo)⟩ := by
  obtain ⟨names, code, frames⟩ := b
  obtain ⟨stmts, hstmts⟩ := isOpenAt_iff.mp (ensured_isOpen hcurrent)
  rw [lowerStmt_eq L frames .breakStmt names code hcurrent] at hlower
  cases frames with
  | nil => cases hlower
  | cons frame rest =>
      cases hlower
      exact ⟨frame, rest, stmts, rfl, by simp [layoutPlan, terminated_getElem?, hstmts]⟩

theorem lowerStmt_continue {L : LeafLowering Ast Atom Leaf Op LeafError}
    {b b' : Builder Leaf Op} (hcurrent : b.code.current < b.code.blocks.length)
    (hlower : lowerStmt L .continueStmt b = .ok b') :
    ∃ frame rest stmts, b.loopStack = frame :: rest ∧
      b'.code.blocks[b'.code.current]? = some ⟨stmts, some (.jump frame.continueTo)⟩ := by
  obtain ⟨names, code, frames⟩ := b
  obtain ⟨stmts, hstmts⟩ := isOpenAt_iff.mp (ensured_isOpen hcurrent)
  rw [lowerStmt_eq L frames .continueStmt names code hcurrent] at hlower
  cases frames with
  | nil => cases hlower
  | cons frame rest =>
      cases hlower
      exact ⟨frame, rest, stmts, rfl, by simp [layoutPlan, terminated_getElem?, hstmts]⟩

/-- The names that a function body is lowered from. -/
def entryNames (componentFields : List String) : NameTable :=
  { locals := [], localNames := componentFields, scopes := [[]], tempCounter := 0 }

theorem lowerBlockStmts_new (L : LeafLowering Ast Atom Leaf Op LeafError)
    (body : SourceBlock Ast Atom) (fields : List String) :
    lowerBlockStmts L body (.new fields) =
      (resolveBlock L false body (entryNames fields)).map fun r =>
        ⟨r.2, bodyCode r.1, []⟩ :=
  lowerBlockStmts_eq L [] body (entryNames fields) entryCode Nat.zero_lt_one

section Function

variable (L : LeafLowering Ast Atom Leaf Op LeafError) (body : SourceBlock Ast Atom)
  (id : FunctionId) (name : String) (kind : FunctionKind) (fields : List String)

theorem lowerFunction_eq :
    lowerFunction L body id name kind fields =
      resolveBlock L false body (entryNames fields) >>= fun r =>
        FuncBuilder.finish ⟨r.2, bodyCode r.1, []⟩ id name kind := by
  simp only [lowerFunction, lowerBlockStmts_new, bind, Except.bind]
  cases resolveBlock L false body (entryNames fields) with
  | error e => rfl
  | ok r => rfl

theorem lowerFunction_noPanic : NoPanic (lowerFunction L body id name kind fields) := by
  rw [lowerFunction_eq]
  refine (resolveBlock_noPanic L false body (entryNames fields)).bind fun r => ?_
  obtain ⟨marks, _, hfinish⟩ := finish_eq r.2 r.1 [] id name kind
  rw [hfinish]
  exact .ok _

/-- Every tree whose names resolve lowers to a function. -/
theorem lowerFunction_eq_ok {r : IrPlanBlock Leaf Op × NameTable}
    (hresolve : resolveBlock L false body (entryNames fields) = .ok r) :
    ∃ func, lowerFunction L body id name kind fields = .ok func := by
  obtain ⟨marks, _, hfinish⟩ := finish_eq r.2 r.1 [] id name kind
  rw [lowerFunction_eq, hresolve]
  exact ⟨_, hfinish⟩

end Function

/-- Leaves whose expressions are lowered already and whose atoms are single
operations. -/
def plainLeaves : LeafLowering (Expr Unit) Nat Unit Nat Empty where
  lowerExprNoPorts := fun names e => .ok ⟨[], e, names⟩
  lowerAtom := fun names op => .ok ⟨[.effect (.op op)], names⟩
  validateTruthExpr := fun _ _ _ => .ok ()
  validateNumericExpr := fun _ _ _ => .ok ()
  exprType := fun _ _ => none
  foldConst := fun _ => none
  foldConstExact := fun _ => none
  lowerExprNoPorts_scopes := by
    rintro names ast r h
    cases h
    rfl
  lowerAtom_scopes := by
    rintro names op r h
    cases h
    exact ⟨rfl, rfl⟩

/-- A `for` loop with a `continue` inside an `if`, and dead code behind a `break`
in a `loop`. -/
def nestedBody : SourceBlock (Expr Unit) Nat :=
  .cons (.forRange "i" (.literal 0 .unknown) (.literal 3 .unknown)
    (.cons (.ifStmt (.leaf ()) (.cons .continueStmt .nil) (.otherwise (.cons (.atom 1) .nil)))
      (.cons (.atom 2) .nil)))
  (.cons (.loopStmt (.cons .breakStmt (.cons (.atom 3) .nil))) .nil)

end Harc.ControlCorrectness
