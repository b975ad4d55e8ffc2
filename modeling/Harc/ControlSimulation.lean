import Harc.ControlFrame

/-!
The blocks laid out for a statement tree simulate its structured meaning.
-/

namespace Harc.ControlSimulation

open Harc.TestbenchIr
open Harc.FunctionBuilder
open Harc.TraceSimulation
open Harc.StructuredControl
open Harc.ControlLayout
open Harc.ControlFrame

variable {Stmt Expr World : Type}

/-- The finished blocks contain everything laid out so far. -/
def Realized (code : CodeTable Stmt Expr) (F : List (BasicBlock Stmt Expr)) : Prop :=
  ∀ (j : Nat) b, code.blocks[j]? = some b → ∃ fb, F[j]? = some fb ∧
    (b.term = none → b.stmts <+: fb.stmts) ∧ ∀ t, b.term = some t → fb = ⟨b.stmts, t⟩

theorem Realized.of_laid {code code' : CodeTable Stmt Expr} {pending : Nat → Prop}
    {F : List (BasicBlock Stmt Expr)} (hreal : Realized code' F)
    (hlaid : Laid code code' pending) : Realized code F := by
  intro j b hb
  obtain ⟨b', hb', hle⟩ := hlaid.blocks_le j b hb
  obtain ⟨fb, hfb, hopen, hterm⟩ := hreal j b' hb'
  refine ⟨fb, hfb, ?_, ?_⟩
  · intro hnone
    rcases hle with rfl | ⟨_, hfront⟩
    · exact hopen hnone
    · rcases hb'term : b'.term with _ | t
      · exact hfront.trans (hopen hb'term)
      · rw [hterm t hb'term]
        exact hfront
  · intro t ht
    rcases hle with rfl | ⟨hnone, _⟩
    · exact hterm t ht
    · rw [hnone] at ht
      cases ht

theorem Realized.of_terminated {code : CodeTable Stmt Expr} {t : Terminator Expr}
    {F : List (BasicBlock Stmt Expr)} (hopen : IsOpen code)
    (hreal : Realized (terminated code t) F) : Realized code F :=
  hreal.of_laid ((Laid.refl hopen.current_lt).terminated hopen t)

theorem Realized.of_forked {code : CodeTable Stmt Expr} {k : Nat} {t : Terminator Expr}
    {F : List (BasicBlock Stmt Expr)} (hopen : IsOpen code)
    (hreal : Realized (forked k t code) F) : Realized code F :=
  hreal.of_laid ((Laid.refl hopen.current_lt).forked hopen k t)

theorem Realized.of_pushed {code : CodeTable Stmt Expr} {s : Stmt}
    {F : List (BasicBlock Stmt Expr)} (hopen : IsOpen code)
    (hreal : Realized (pushed code s) F) : Realized code F :=
  hreal.of_laid ((Laid.refl hopen.current_lt).pushed hopen s)

/-- The number of statements in the current block. -/
def stmtCount (code : CodeTable Stmt Expr) : Nat :=
  match code.blocks[code.current]? with
  | some block => block.stmts.length
  | none => 0

/-- The configuration at the insertion point. -/
def atEnd (code : CodeTable Stmt Expr) (w : World) : Config World :=
  ⟨code.current, stmtCount code, w⟩

theorem atEnd_reserved {code : CodeTable Stmt Expr}
    (hcurrent : code.current < code.blocks.length) (k : Nat) :
    (atEnd (reserved k code) : World → Config World) = atEnd code := by
  funext w
  simp [atEnd, stmtCount, reserved_getElem?_of_lt k hcurrent]

theorem atEnd_fresh {code : CodeTable Stmt Expr} {j : Nat} (hfresh : Fresh code j) :
    (atEnd (started code j) : World → Config World) = fun w => ⟨j, 0, w⟩ := by
  have hj : code.blocks[j]? = some ⟨[], none⟩ := hfresh
  funext w
  simp [atEnd, stmtCount, hj]

section Machine

variable {M : Machine Stmt Expr World} {F : List (BasicBlock Stmt Expr)}
  {code : CodeTable Stmt Expr}

theorem step_pushed (hopen : IsOpen code) (s : Stmt) (hreal : Realized (pushed code s) F)
    (w : World) :
    M.step F (atEnd code w) = some ([.effect s], atEnd (pushed code s) (M.exec s w)) := by
  obtain ⟨stmts, hstmts⟩ := isOpenAt_iff.mp hopen
  have hpushed : (pushed code s).blocks[code.current]? = some ⟨stmts ++ [s], none⟩ := by
    simp [pushed_getElem?, hstmts]
  obtain ⟨fb, hfb, hfront, _⟩ := hreal code.current _ hpushed
  have hstmt : fb.stmts[stmts.length]? = some s := by
    obtain ⟨rest, hrest⟩ := hfront rfl
    simp [← hrest]
  simp [Machine.step, atEnd, stmtCount, hstmts, hpushed, hfb, hstmt]

/-- A terminated block of the layout is a finished block. -/
theorem Realized.terminator (hopen : IsOpen code) {t : Terminator Expr}
    (hreal : Realized (terminated code t) F) :
    ∃ stmts, stmts.length = stmtCount code ∧ F[code.current]? = some ⟨stmts, t⟩ := by
  obtain ⟨stmts, hstmts⟩ := isOpenAt_iff.mp hopen
  have hterm : (terminated code t).blocks[code.current]? = some ⟨stmts, some t⟩ := by
    simp [terminated_getElem?, hstmts]
  obtain ⟨fb, hfb, _, hsome⟩ := hreal code.current _ hterm
  exact ⟨stmts, by simp [stmtCount, hstmts], by rw [hfb, hsome t rfl]⟩

theorem step_jump (hopen : IsOpen code) {target : Nat}
    (hreal : Realized (terminated code (.jump target)) F) (w : World) :
    M.step F (atEnd code w) = some ([], ⟨target, 0, w⟩) := by
  obtain ⟨stmts, hlength, hblock⟩ := hreal.terminator hopen
  have hend : stmts[stmtCount code]? = none := List.getElem?_eq_none (by omega)
  simp [Machine.step, atEnd, hblock, hend]

theorem step_branch (hopen : IsOpen code) {cond : Expr} {thenB elseB : Nat}
    (hreal : Realized (terminated code (.branch cond thenB elseB)) F) (w : World) :
    M.step F (atEnd code w) = some ([.tested cond (M.truth cond w)],
      ⟨if M.truth cond w then thenB else elseB, 0, w⟩) := by
  obtain ⟨stmts, hlength, hblock⟩ := hreal.terminator hopen
  have hend : stmts[stmtCount code]? = none := List.getElem?_eq_none (by omega)
  simp [Machine.step, atEnd, hblock, hend]
  rfl

theorem step_suspend (hopen : IsOpen code) (s : Suspension Expr) {next : Nat}
    (hreal : Realized (terminated code (s.terminator next)) F) (w : World) :
    M.step F (atEnd code w) = some ([.suspended s], ⟨next, 0, M.resume s w⟩) := by
  obtain ⟨stmts, hlength, hblock⟩ := hreal.terminator hopen
  have hend : stmts[stmtCount code]? = none := List.getElem?_eq_none (by omega)
  cases s <;> simp [Machine.step, atEnd, hblock, hend, Suspension.terminator]

theorem halted_ret (hopen : IsOpen code) (hreal : Realized (terminated code .ret) F)
    (w : World) : Halted F (atEnd code w) := by
  obtain ⟨stmts, hlength, hblock⟩ := hreal.terminator hopen
  exact ⟨_, hblock, by simp [atEnd, hlength], rfl⟩

end Machine

/-- Where the code of a statement may be left.  `normal` is the exit of a normal
end; `break` and `continue` go to the innermost frame. -/
def exitsVia (F : List (BasicBlock Stmt Expr)) (fuel : Nat) (frames : List LoopFrame)
    (normal : Nat → World → Config World → Prop) : Exits World (Config World)
  | .normal, n, w, c => normal n w c
  | .broke, n, w, c =>
      0 < n ∧ ∃ frame rest, frames = frame :: rest ∧ c = ⟨frame.breakTo, 0, w⟩
  | .continued, n, w, c =>
      0 < n ∧ ∃ frame rest, frames = frame :: rest ∧ c = ⟨frame.continueTo, 0, w⟩
  | .returned, _, w, c => Halted F c ∧ c.world = w
  | .outOfFuel, n, _, _ => fuel ≤ n

theorem exitsVia_mono (F : List (BasicBlock Stmt Expr)) (fuel : Nat)
    (frames : List LoopFrame) {normal : Nat → World → Config World → Prop}
    (hnormal : ∀ n m w c, normal n w c → normal (m + n) w c) :
    (exitsVia F fuel frames normal).Mono := by
  intro o n m w c hexit
  cases o with
  | normal => exact hnormal n m w c hexit
  | broke | continued => exact ⟨Nat.lt_of_lt_of_le hexit.1 (Nat.le_add_left n m), hexit.2⟩
  | returned => exact hexit
  | outOfFuel => exact Nat.le_trans hexit (Nat.le_add_left n m)

theorem exitsVia_weaken {F : List (BasicBlock Stmt Expr)} {fuel : Nat}
    {frames : List LoopFrame} {normal normal' : Nat → World → Config World → Prop}
    (hnormal : ∀ n w c, normal n w c → normal' n w c) (o : Outcome) (n : Nat) (w : World)
    (c : Config World) (hexit : exitsVia F fuel frames normal o n w c) :
    exitsVia F fuel frames normal' o n w c := by
  cases o with
  | normal => exact hnormal n w c hexit
  | broke | continued | returned | outOfFuel => exact hexit

/-- Away from the normal exit, the exits do not depend on it. -/
theorem exitsVia_other {F : List (BasicBlock Stmt Expr)} {fuel : Nat}
    {frames : List LoopFrame} {normal normal' : Nat → World → Config World → Prop}
    {o : Outcome} {n : Nat} {w : World} {c : Config World} (ho : o ≠ .normal)
    (hexit : exitsVia F fuel frames normal o n w c) :
    exitsVia F fuel frames normal' o n w c := by
  cases o with
  | normal => exact absurd rfl ho
  | broke | continued | returned | outOfFuel => exact hexit

/-- A normal end falls through to the insertion point. -/
def fallsTo (code : CodeTable Stmt Expr) (_ : Nat) (w : World) (c : Config World) : Prop :=
  IsOpen code ∧ c = atEnd code w

/-- A normal end goes to the start of a block. -/
def goesTo (target : Nat) (_ : Nat) (w : World) (c : Config World) : Prop :=
  c = ⟨target, 0, w⟩

/-- A normal end goes to the start of a block in at least one step. -/
def jumpsTo (target : Nat) (n : Nat) (w : World) (c : Config World) : Prop :=
  0 < n ∧ c = ⟨target, 0, w⟩

/-- The code laid out for a statement from an open block simulates its run. -/
def PlanSpec (M : Machine Stmt Expr World) (frames : List LoopFrame)
    (layout : CodeTable Stmt Expr → CodeTable Stmt Expr)
    (run : Nat → World → EventRun Stmt Expr World) : Prop :=
  ∀ code, IsOpen code → ∀ F, Realized (layout code) F → ∀ fuel,
    Sim (M.step F) (atEnd code) (exitsVia F fuel frames (fallsTo (layout code))) (run fuel)

/-- The arms of an `if` end at its merge block. -/
def TailSpec (M : Machine Stmt Expr World) (frames : List LoopFrame)
    (layout : Nat → CodeTable Stmt Expr → CodeTable Stmt Expr)
    (run : Nat → World → EventRun Stmt Expr World) : Prop :=
  ∀ merge code, IsOpen code → ∀ F, Realized (layout merge code) F → ∀ fuel,
    Sim (M.step F) (atEnd code) (exitsVia F fuel frames (goesTo merge)) (run fuel)

theorem Realized.of_jumped {code : CodeTable Stmt Expr} {target : Nat}
    {F : List (BasicBlock Stmt Expr)} (hcurrent : code.current < code.blocks.length)
    (hreal : Realized (jumped target code) F) : Realized code F :=
  hreal.of_laid ((Laid.refl hcurrent).jumped target)

/-- A jump after the code of a statement, unless it has ended already. -/
theorem sim_jumped {M : Machine Stmt Expr World} {F : List (BasicBlock Stmt Expr)}
    {code : CodeTable Stmt Expr} {fuel target : Nat} {frames : List LoopFrame}
    {start : World → Config World} {run : World → EventRun Stmt Expr World}
    (hreal : Realized (jumped target code) F)
    (hsim : Sim (M.step F) start (exitsVia F fuel frames (fallsTo code)) run) :
    Sim (M.step F) start (exitsVia F fuel frames (jumpsTo target)) run := by
  intro w
  obtain ⟨n, c, hsteps, hexit⟩ := hsim w
  by_cases ho : (run w).outcome = .normal
  · rw [ho] at hexit ⊢
    obtain ⟨hopen, rfl⟩ := hexit
    have hnot : ¬ code.isTerminated = true := fun h =>
      (isTerminated_iff hopen.current_lt).mp h hopen
    rw [jumped, if_neg hnot] at hreal
    refine ⟨n + 1, ⟨target, 0, (run w).world⟩, ?_, Nat.succ_pos n, rfl⟩
    simpa using hsteps.trans (Steps.one (step_jump hopen hreal _))
  · exact ⟨n, c, hsteps, exitsVia_other ho hexit⟩

theorem layoutAction_sim {M : Machine Stmt Expr World} {F : List (BasicBlock Stmt Expr)}
    {code : CodeTable Stmt Expr} (a : Action Stmt Expr) (hopen : IsOpen code)
    (hreal : Realized (layoutAction code a) F) :
    Sim (M.step F) (atEnd code)
      (fun o _ w c => o = .normal ∧ c = atEnd (layoutAction code a) w) (M.runAction a) := by
  intro w
  cases a with
  | effect s => exact ⟨1, _, .one (step_pushed hopen s hreal w), rfl, rfl⟩
  | suspend s =>
      have hfresh : Fresh (forked 1 (s.terminator code.blocks.length) code)
          code.blocks.length :=
        Fresh.forked (Nat.le_refl _) (Nat.lt_succ_self _) hopen.current_lt _
      refine ⟨1, _, .one ?_, rfl, (congrFun (atEnd_fresh hfresh) _).symm⟩
      rw [← atEnd_reserved hopen.current_lt 1]
      exact step_suspend (hopen.reserved 1) s hreal w

theorem layoutActions_sim {M : Machine Stmt Expr World} {F : List (BasicBlock Stmt Expr)}
    {code : CodeTable Stmt Expr} (actions : List (Action Stmt Expr)) (hopen : IsOpen code)
    (hreal : Realized (layoutActions actions code) F) :
    Sim (M.step F) (atEnd code)
      (fun o _ w c => o = .normal ∧ c = atEnd (layoutActions actions code) w)
      (M.runActions actions) := by
  induction actions generalizing code with
  | nil => exact Sim.nil fun w => ⟨rfl, rfl⟩
  | cons a actions ih =>
      obtain ⟨hopenA, _⟩ := layoutAction_frame a hopen
      have hrealA := hreal.of_laid (layoutActions_laid actions hopenA)
      refine Sim.andThen (atEnd (layoutAction code a)) ?_ (layoutAction_sim a hopen hrealA) ?_ ?_
      · exact fun o n m w c hexit => hexit
      · exact fun n w c hexit => ⟨hexit.2, ih hopenA hreal⟩
      · exact fun o n w c ho hexit => absurd hexit.1 ho

/-- Evaluating a condition: the actions, then the branch to one of two blocks. -/
theorem sim_branch {M : Machine Stmt Expr World} {F : List (BasicBlock Stmt Expr)}
    {code : CodeTable Stmt Expr} {exits : Exits World (Config World)} (hmono : exits.Mono)
    {cond : Expr} {thenB elseB : Nat} {onTrue onFalse : World → EventRun Stmt Expr World}
    (hopen : IsOpen code) (hreal : Realized (terminated code (.branch cond thenB elseB)) F)
    (htrue : Sim (M.step F) (fun w => ⟨thenB, 0, w⟩) exits onTrue)
    (hfalse : Sim (M.step F) (fun w => ⟨elseB, 0, w⟩) exits onFalse) :
    Sim (M.step F) (atEnd code) exits (M.test cond onTrue onFalse) := by
  intro w
  have hstep := Steps.one (step_branch (M := M) hopen hreal w)
  cases htruth : M.truth cond w with
  | true =>
      obtain ⟨n, c, hsteps, hexit⟩ := htrue w
      refine ⟨1 + n, c, ?_, ?_⟩
      · rw [htruth] at hstep
        simpa [Machine.test, htruth] using hstep.trans hsteps
      · simpa [Machine.test, htruth] using hmono _ _ _ _ _ hexit
  | false =>
      obtain ⟨n, c, hsteps, hexit⟩ := hfalse w
      refine ⟨1 + n, c, ?_, ?_⟩
      · rw [htruth] at hstep
        simpa [Machine.test, htruth] using hstep.trans hsteps
      · simpa [Machine.test, htruth] using hmono _ _ _ _ _ hexit

/-- A run that starts with the actions laid out before the insertion point. -/
theorem sim_after_actions {M : Machine Stmt Expr World} {F : List (BasicBlock Stmt Expr)}
    {code : CodeTable Stmt Expr} {exits : Exits World (Config World)} (hmono : exits.Mono)
    (hopen : IsOpen code) (actions : List (Action Stmt Expr))
    (hreal : Realized (layoutActions actions code) F)
    {next : World → EventRun Stmt Expr World}
    (hnext : Sim (M.step F) (atEnd (layoutActions actions code)) exits next) :
    Sim (M.step F) (atEnd code) exits fun w => (M.runActions actions w).andThen next := by
  refine Sim.andThen (atEnd (layoutActions actions code)) hmono
    (layoutActions_sim actions hopen hreal) ?_ ?_
  · exact fun n w c hexit => ⟨hexit.2, hnext⟩
  · exact fun o n w c ho hexit => absurd hexit.1 ho

theorem goesTo_mono (target n m : Nat) (w : World) (c : Config World)
    (h : goesTo target n w c) : goesTo target (m + n) w c := h

theorem fallsTo_mono (code : CodeTable Stmt Expr) (n m : Nat) (w : World)
    (c : Config World) (h : fallsTo code n w c) : fallsTo code (m + n) w c := h

theorem jumpsTo_goesTo (target n : Nat) (w : World) (c : Config World)
    (h : jumpsTo target n w c) : goesTo target n w c := h.2

/-- The code of a block from a fresh block to the jump at its end. -/
theorem PlanSpec.jumped {M : Machine Stmt Expr World} {frames : List LoopFrame}
    {layout : CodeTable Stmt Expr → CodeTable Stmt Expr}
    {run : Nat → World → EventRun Stmt Expr World} (hspec : PlanSpec M frames layout run)
    (hlayout : LaysOut layout) {code : CodeTable Stmt Expr} {start : Nat}
    (hfresh : Fresh code start) {target : Nat} {F : List (BasicBlock Stmt Expr)}
    (hreal : Realized (jumped target (layout (started code start))) F) (fuel : Nat) :
    Sim (M.step F) (fun w => ⟨start, 0, w⟩) (exitsVia F fuel frames (jumpsTo target))
      (run fuel) := by
  rw [← atEnd_fresh hfresh]
  have hcurrent := (hlayout (started code start) hfresh.lt).current_lt
  exact sim_jumped hreal (hspec _ hfresh.isOpen F (hreal.of_jumped hcurrent) fuel)

section ThenArm

variable {M : Machine Stmt Expr World} {frames : List LoopFrame}
  {layout : CodeTable Stmt Expr → CodeTable Stmt Expr}
  {run : Nat → World → EventRun Stmt Expr World} {code : CodeTable Stmt Expr}

/-- The then arm simulates the condition whatever the else block simulates. -/
theorem layoutThenArm_sim (hspec : PlanSpec M frames layout run) (hlayout : LaysOut layout)
    (hopen : IsOpen code) (cond : Cond Stmt Expr) {merge : Nat}
    {F : List (BasicBlock Stmt Expr)}
    (hreal : Realized (layoutThenArm cond layout merge code) F) {fuel : Nat}
    {runElse : World → EventRun Stmt Expr World}
    (helse : Sim (M.step F) (atEnd (layoutThenArm cond layout merge code))
      (exitsVia F fuel frames (goesTo merge)) runElse) :
    Sim (M.step F) (atEnd code) (exitsVia F fuel frames (goesTo merge))
      (M.branch cond (run fuel) runElse) := by
  have hopen₁ := layoutActions_isOpen cond.prelude hopen
  have hthen := thenStart_fresh hopen₁ cond.expr
  have helseFresh := else_fresh hlayout hopen₁ cond.expr merge
  have hmono : Exits.Mono (exitsVia F fuel frames (goesTo merge) : Exits World _) :=
    exitsVia_mono F fuel frames (goesTo_mono merge)
  have hreal₂ : Realized (jumped merge (layout (thenStart cond.expr
      (layoutActions cond.prelude code)))) F := hreal
  have hreal₁ : Realized (thenStart cond.expr (layoutActions cond.prelude code)) F :=
    hreal₂.of_laid (hlayout.jumped hthen.lt merge)
  refine sim_after_actions hmono hopen cond.prelude
    (Realized.of_forked hopen₁ hreal₁) ?_
  rw [← atEnd_reserved hopen₁.current_lt 2]
  refine sim_branch hmono (hopen₁.reserved 2) hreal₁ ?_ ?_
  · exact (hspec.jumped hlayout hthen hreal₂ fuel).weaken
      (exitsVia_weaken (jumpsTo_goesTo merge))
  · rw [← atEnd_fresh helseFresh]
    exact helse

end ThenArm

/-- Where one iteration of a loop ends: at `next` normally, and at `exit` when it
leaves the loop. -/
def loopExits (F : List (BasicBlock Stmt Expr)) (fuel next exit : Nat) :
    Exits World (Config World)
  | .normal, n, w, c => jumpsTo next n w c
  | .broke, n, w, c => goesTo exit n w c
  | .continued, _, _, _ => False
  | .returned, _, w, c => Halted F c ∧ c.world = w
  | .outOfFuel, n, _, _ => fuel ≤ n

theorem loopExits_mono (F : List (BasicBlock Stmt Expr)) (fuel next exit : Nat) :
    (loopExits F fuel next exit : Exits World (Config World)).Mono := by
  intro o n m w c hexit
  cases o with
  | normal => exact ⟨Nat.lt_of_lt_of_le hexit.1 (Nat.le_add_left n m), hexit.2⟩
  | broke | continued | returned => exact hexit
  | outOfFuel => exact Nat.le_trans hexit (Nat.le_add_left n m)

/-- Leaving the loop from its exit block. -/
theorem sim_leave {M : Machine Stmt Expr World} {F : List (BasicBlock Stmt Expr)}
    {fuel next exit : Nat} :
    Sim (M.step F) (fun w => ⟨exit, 0, w⟩) (loopExits F fuel next exit) leave :=
  Sim.nil fun _ => rfl

/-- The body of a loop, from its fresh block to the jump at its end. -/
theorem sim_loopBody {M : Machine Stmt Expr World} {F : List (BasicBlock Stmt Expr)}
    {frames : List LoopFrame} {fuel next exit start : Nat}
    {run : World → EventRun Stmt Expr World}
    (hsim : Sim (M.step F) (fun w => ⟨start, 0, w⟩)
      (exitsVia F fuel (⟨next, exit⟩ :: frames) (jumpsTo next)) run) :
    Sim (M.step F) (fun w => ⟨start, 0, w⟩) (loopExits F fuel next exit)
      fun w => (run w).catchContinue := by
  refine hsim.catchContinue ?_ ?_
  · rintro n w c ⟨hpos, frame, rest, hframes, rfl⟩
    cases hframes
    exact ⟨hpos, rfl⟩
  · intro o n w c ho hexit
    cases o with
    | broke =>
        obtain ⟨_, frame, rest, hframes, rfl⟩ := hexit
        cases hframes
        rfl
    | continued => exact absurd rfl ho
    | normal | returned | outOfFuel => exact hexit

/-- A loop from its header to the fresh block behind it. -/
theorem sim_iterate {M : Machine Stmt Expr World} {F : List (BasicBlock Stmt Expr)}
    {frames : List LoopFrame} {code : CodeTable Stmt Expr} {fuel header exit : Nat}
    {once : World → EventRun Stmt Expr World} (hexit : Fresh code exit)
    (hsim : Sim (M.step F) (fun w => ⟨header, 0, w⟩) (loopExits F fuel header exit) once) :
    Sim (M.step F) (fun w => ⟨header, 0, w⟩)
      (exitsVia F fuel frames (fallsTo (started code exit))) (iterate once fuel) := by
  refine Sim.iterate (exitsVia_mono F fuel frames (fallsTo_mono _)) hsim ?_ ?_ ?_ fuel ?_
  · exact fun n w c h => h
  · intro n w c h
    exact ⟨hexit.isOpen, by rw [atEnd_fresh hexit]; exact h⟩
  · intro o n w c hnormal hbroke h
    cases o with
    | normal => exact absurd rfl hnormal
    | broke => exact absurd rfl hbroke
    | continued => exact h.elim
    | returned | outOfFuel => exact h
  · exact fun n w c h => h

/-- The jump into a loop header, from the block before the loop. -/
theorem sim_enter {M : Machine Stmt Expr World} {F : List (BasicBlock Stmt Expr)}
    {code : CodeTable Stmt Expr} {exits : Exits World (Config World)} (hmono : exits.Mono)
    {k header : Nat} {run : World → EventRun Stmt Expr World} (hopen : IsOpen code)
    (hreal : Realized (forked k (.jump header) code) F)
    (hsim : Sim (M.step F) (fun w => ⟨header, 0, w⟩) exits run) :
    Sim (M.step F) (atEnd code) exits run := by
  rw [← atEnd_reserved hopen.current_lt k]
  exact Sim.silent hmono (step_jump (hopen.reserved k) hreal) hsim

section Loops

variable {M : Machine Stmt Expr World} {frames : List LoopFrame}
  {layout : LoopFrame → CodeTable Stmt Expr → CodeTable Stmt Expr}
  {run : Nat → World → EventRun Stmt Expr World}

theorem layoutLoop_sim (hspec : ∀ frame, PlanSpec M (frame :: frames) (layout frame) run)
    (hlayout : ∀ frame, LaysOut (layout frame)) :
    PlanSpec M frames (layoutLoop layout) fun fuel =>
      iterate (fun w => (run fuel w).catchContinue) fuel := by
  intro code hopen F hreal fuel
  have hbody := loopStart_fresh hopen
  have hexit := loop_exit_fresh hlayout hopen ⟨code.blocks.length, code.blocks.length + 1⟩
  have hreal₂ : Realized (jumped code.blocks.length
      (layout ⟨code.blocks.length, code.blocks.length + 1⟩ (loopStart code))) F := hreal
  have hreal₁ := hreal₂.of_laid ((hlayout _).jumped hbody.lt _)
  refine sim_enter (exitsVia_mono F fuel frames (fallsTo_mono _)) hopen hreal₁ ?_
  exact sim_iterate hexit (sim_loopBody ((hspec _).jumped (hlayout _) hbody hreal₂ fuel))

theorem layoutWhile_sim (hspec : ∀ frame, PlanSpec M (frame :: frames) (layout frame) run)
    (hlayout : ∀ frame, LaysOut (layout frame)) (cond : Cond Stmt Expr) :
    PlanSpec M frames (layoutWhile cond layout) fun fuel =>
      iterate (M.branch cond (fun w => (run fuel w).catchContinue) leave) fuel := by
  intro code hopen F hreal fuel
  have hheader := whileHeader_fresh hopen
  have hopen₂ := whileTest_isOpen hopen cond
  have hbody : Fresh (whileStart cond code) (code.blocks.length + 1) :=
    whileStart_fresh hopen cond (by omega) (by omega)
  have hexit := while_exit_fresh hlayout hopen cond
    ⟨code.blocks.length, code.blocks.length + 2⟩
  have hreal₃ : Realized (jumped code.blocks.length
      (layout ⟨code.blocks.length, code.blocks.length + 2⟩ (whileStart cond code))) F := hreal
  have hreal₂ : Realized (whileStart cond code) F :=
    hreal₃.of_laid ((hlayout _).jumped hbody.lt _)
  have hreal₁ : Realized (whileTest cond code) F := Realized.of_terminated hopen₂ hreal₂
  have hmono : Exits.Mono (loopExits F fuel code.blocks.length (code.blocks.length + 2) :
      Exits World _) := loopExits_mono F fuel _ _
  have hreal₀ := hreal₁.of_laid (whileTest_laid hopen cond)
  refine sim_enter (exitsVia_mono F fuel frames (fallsTo_mono _)) hopen hreal₀ ?_
  refine sim_iterate hexit ?_
  rw [← atEnd_fresh hheader]
  refine sim_after_actions hmono hheader.isOpen cond.prelude hreal₁ ?_
  refine sim_branch hmono hopen₂ hreal₂ ?_ sim_leave
  exact sim_loopBody ((hspec _).jumped (hlayout _) hbody hreal₃ fuel)

/-- The step of a counted loop, back to its header. -/
theorem layoutStep_sim {F : List (BasicBlock Stmt Expr)} {code : CodeTable Stmt Expr}
    {step : Stmt} {header : Nat} (hopen : IsOpen code)
    (hreal : Realized (layoutStep step header code) F) (fuel exit : Nat) :
    Sim (M.step F) (atEnd code) (loopExits F fuel header exit)
      (M.runAction (.effect step)) := by
  intro w
  have hopen' := hopen.pushed step
  have hpush := step_pushed (M := M) hopen step (hreal.of_terminated hopen') w
  have hjump := step_jump (M := M) hopen' hreal (M.exec step w)
  exact ⟨2, ⟨header, 0, M.exec step w⟩, (Steps.one hpush).trans (Steps.one hjump),
    Nat.succ_pos 1, rfl⟩

/-- Effects that leave the loop. -/
theorem sim_runFailure {F : List (BasicBlock Stmt Expr)} {code : CodeTable Stmt Expr}
    {fuel next exit : Nat} (hopen : IsOpen code) (stmts : List Stmt)
    (hreal : Realized (terminated (layoutActions (stmts.map .effect) code) (.jump exit)) F) :
    Sim (M.step F) (atEnd code) (loopExits F fuel next exit) (M.runFailure stmts) := by
  have hopen' := layoutActions_isOpen (stmts.map .effect) hopen
  have hmono : Exits.Mono (loopExits F fuel next exit : Exits World _) :=
    loopExits_mono F fuel next exit
  refine sim_after_actions hmono hopen _ (hreal.of_terminated hopen') ?_
  exact Sim.silent hmono (step_jump hopen' hreal) sim_leave

theorem layoutLatch_sim {F : List (BasicBlock Stmt Expr)} {code : CodeTable Stmt Expr}
    {latch : Latch Stmt Expr} {header exit : Nat} (hopen : IsOpen code)
    (hreal : Realized (layoutLatch latch header exit code) F) (fuel : Nat) :
    Sim (M.step F) (atEnd code) (loopExits F fuel header exit) (M.runLatch latch) := by
  have hmono : Exits.Mono (loopExits F fuel header exit : Exits World _) :=
    loopExits_mono F fuel header exit
  obtain ⟨terminal, failure, step⟩ := latch
  rcases terminal with _ | terminal
  · exact layoutStep_sim hopen hreal fuel exit
  · rcases failure with _ | ⟨failureCond, stmts⟩
    · have hstep := latchStep_fresh terminal exit hopen
      have hreal₁ := hreal.of_laid (layoutStep_laid step header hstep.isOpen)
      rw [← atEnd_reserved hopen.current_lt 1]
      refine sim_branch hmono (hopen.reserved 1) hreal₁ sim_leave ?_
      rw [← atEnd_fresh hstep]
      exact layoutStep_sim hstep.isOpen hreal fuel exit
    · have hcheck : Fresh (latchCheck terminal exit code) (code.blocks.length + 1) :=
        latchCheck_fresh terminal exit hopen (by omega) (by omega)
      have hopen₁ := latchCheck_isOpen terminal exit hopen
      have hfailure : Fresh (latchFailure terminal failureCond exit code)
          (code.blocks.length + 2) :=
        latchFailure_fresh terminal failureCond exit hopen (by omega) (by omega) (by omega)
      have hopen₂ := latchFailure_isOpen terminal failureCond exit hopen
      have hopen₃ := layoutActions_isOpen (stmts.map .effect) hopen₂
      have hstep := latchFailed_fresh terminal failureCond stmts exit hopen
      have hreal₄ := hreal.of_laid (layoutStep_laid step header hstep.isOpen)
      have hreal₃ := Realized.of_terminated hopen₃ hreal₄
      have hreal₂ : Realized (latchFailure terminal failureCond exit code) F :=
        hreal₃.of_laid (layoutActions_laid (stmts.map .effect) hopen₂)
      have hreal₁ : Realized (latchCheck terminal exit code) F :=
        Realized.of_terminated hopen₁ hreal₂
      rw [← atEnd_reserved hopen.current_lt 3]
      refine sim_branch hmono (hopen.reserved 3) hreal₁ sim_leave ?_
      rw [← atEnd_fresh hcheck]
      refine sim_branch hmono hopen₁ hreal₂ ?_ ?_
      · rw [← atEnd_fresh hfailure]
        exact sim_runFailure hopen₂ stmts hreal₄
      · rw [← atEnd_fresh hstep]
        exact layoutStep_sim hstep.isOpen hreal fuel exit

theorem layoutCounted_sim (hspec : ∀ frame, PlanSpec M (frame :: frames) (layout frame) run)
    (hlayout : ∀ frame, LaysOut (layout frame)) (headerCond : Expr) (latch : Latch Stmt Expr) :
    PlanSpec M frames (layoutCounted headerCond latch layout) fun fuel =>
      iterate (M.test headerCond
        (fun w => (run fuel w).catchContinue.andThen (M.runLatch latch)) leave) fuel := by
  intro code hopen F hreal fuel
  have hheader : Fresh (countedHeader code) code.blocks.length :=
    countedHeader_fresh hopen (Nat.le_refl _) (by omega)
  have hopen₁ := countedHeader_isOpen hopen
  have hbody : Fresh (countedStart headerCond code) (code.blocks.length + 1) :=
    countedStart_fresh headerCond hopen (by omega) (by omega)
  have hlatch : Fresh (countedLatch headerCond layout code) (code.blocks.length + 2) :=
    countedLatch_fresh headerCond hlayout hopen (by omega) (by omega)
  have hopen₃ := countedLatch_isOpen headerCond hlayout hopen
  have hexit := counted_exit_fresh headerCond latch hlayout hopen code.blocks.length
    (code.blocks.length + 3)
  have hreal₄ : Realized (layoutLatch latch code.blocks.length (code.blocks.length + 3)
      (countedLatch headerCond layout code)) F := hreal
  have hreal₃' : Realized (countedLatch headerCond layout code) F :=
    hreal₄.of_laid (layoutLatch_laid latch _ _ hopen₃)
  have hreal₃ : Realized (jumped (code.blocks.length + 2)
      (layout ⟨code.blocks.length + 2, code.blocks.length + 3⟩
        (countedStart headerCond code))) F := hreal₃'
  have hreal₂ : Realized (countedStart headerCond code) F :=
    hreal₃.of_laid ((hlayout _).jumped hbody.lt _)
  have hreal₁ : Realized (countedHeader code) F := Realized.of_terminated hopen₁ hreal₂
  have hmono : Exits.Mono (loopExits F fuel code.blocks.length (code.blocks.length + 3) :
      Exits World _) := loopExits_mono F fuel _ _
  refine sim_enter (exitsVia_mono F fuel frames (fallsTo_mono _)) hopen hreal₁ ?_
  refine sim_iterate hexit ?_
  rw [← atEnd_fresh hheader]
  refine sim_branch hmono hopen₁ hreal₂ ?_ sim_leave
  refine Sim.andThen (fun w => ⟨code.blocks.length + 2, 0, w⟩) hmono
    (sim_loopBody ((hspec _).jumped (hlayout _) hbody hreal₃ fuel)) ?_ ?_
  · intro n w c hc
    refine ⟨hc.2, ?_⟩
    rw [← atEnd_fresh hlatch]
    exact layoutLatch_sim hopen₃ hreal₄ fuel
  · intro o n w c ho hexit
    cases o with
    | normal => exact absurd rfl ho
    | broke | continued | returned | outOfFuel => exact hexit

end Loops

theorem straight_sim (M : Machine Stmt Expr World) (frames : List LoopFrame)
    (actions : List (Action Stmt Expr)) :
    PlanSpec M frames (layoutActions actions) fun _ => M.runActions actions := by
  intro code hopen F hreal fuel
  refine (layoutActions_sim actions hopen hreal).weaken ?_
  rintro o n w c ⟨rfl, rfl⟩
  exact ⟨layoutActions_isOpen actions hopen, rfl⟩

theorem ifThen_sim {M : Machine Stmt Expr World} {frames : List LoopFrame}
    {cond : Cond Stmt Expr} {thenBlock : PlanBlock Stmt Expr} {tail : PlanTail Stmt Expr}
    (hthen : PlanSpec M frames (layoutBlock frames thenBlock) (M.runBlock · thenBlock))
    (htail : TailSpec M frames (layoutTail frames tail) (M.runTail · tail)) :
    PlanSpec M frames (layoutPlan frames (.ifThen cond thenBlock tail))
      (M.runPlan · (.ifThen cond thenBlock tail)) := by
  intro code hopen F hreal fuel
  have hlayout := layoutBlock_laid frames thenBlock
  have hopen₁ := layoutThenArm_isOpen hlayout (hopen.reserved 1) cond code.blocks.length
  have htailLaid := layoutTail_laid frames tail code.blocks.length hopen₁
  have hmerge := merge_fresh hopen
    ((layoutThenArm_laid hlayout (hopen.reserved 1) cond code.blocks.length).then_laid htailLaid)
  have hreal₂ : Realized (layoutTail frames tail code.blocks.length (layoutThenArm cond
      (layoutBlock frames thenBlock) code.blocks.length (reserved 1 code))) F := hreal
  have hsim := layoutThenArm_sim hthen hlayout (hopen.reserved 1) cond
    (hreal₂.of_laid htailLaid) (htail _ _ hopen₁ F hreal₂ fuel)
  rw [atEnd_reserved hopen.current_lt 1] at hsim
  refine hsim.weaken (exitsVia_weaken ?_)
  intro n w c hc
  refine ⟨hmerge.isOpen, ?_⟩
  rw [hc]
  exact (congrFun (atEnd_fresh hmerge) w).symm

theorem counted_sim {M : Machine Stmt Expr World} {frames : List LoopFrame}
    {init : List (Action Stmt Expr)} {headerCond : Expr} {latch : Latch Stmt Expr}
    {body : PlanBlock Stmt Expr} (hbody : ∀ frame, PlanSpec M (frame :: frames)
      (layoutBlock (frame :: frames) body) (M.runBlock · body)) :
    PlanSpec M frames (layoutPlan frames (.counted init headerCond latch body))
      (M.runPlan · (.counted init headerCond latch body)) := by
  intro code hopen F hreal fuel
  have hopen₁ := layoutActions_isOpen init hopen
  have hlayout := fun frame => layoutBlock_laid (frame :: frames) body
  have hreal₁ := Realized.of_laid hreal (layoutCounted_laid headerCond latch hlayout hopen₁)
  exact sim_after_actions (exitsVia_mono F fuel frames (fallsTo_mono _)) hopen init hreal₁
    (layoutCounted_sim hbody hlayout headerCond latch _ hopen₁ F hreal fuel)

/-- A statement that ends the block with a jump out of it. -/
theorem jumpOut_sim {M : Machine Stmt Expr World} {F : List (BasicBlock Stmt Expr)}
    {code : CodeTable Stmt Expr} {o : Outcome} {target : Nat}
    {exits : Exits World (Config World)} (hopen : IsOpen code)
    (hreal : Realized (terminated code (.jump target)) F)
    (hexit : ∀ w : World, exits o 1 w ⟨target, 0, w⟩) :
    Sim (M.step F) (atEnd code) exits fun w => ⟨[], w, o⟩ := by
  intro w
  exact ⟨1, _, .one (step_jump hopen hreal w), hexit w⟩

/-- A statement, then the rest of its block.  When the statement cannot end
normally, the rest is dead code in a block of its own. -/
theorem PlanSpec.cons {M : Machine Stmt Expr World} {frames : List LoopFrame}
    {stmt : Plan Stmt Expr} {rest : PlanBlock Stmt Expr}
    (hstmt : PlanSpec M frames (layoutPlan frames stmt) (M.runPlan · stmt))
    (hrest : PlanSpec M frames (layoutBlock frames rest) (M.runBlock · rest)) :
    PlanSpec M frames (layoutBlock frames (.cons stmt rest))
      (M.runBlock · (.cons stmt rest)) := by
  intro code hopen F hreal fuel
  have heq : layoutBlock frames (.cons stmt rest) code =
      layoutBlock frames rest (layoutPlan frames stmt code) := by
    simp only [layoutBlock, ensured_of_isOpen hopen]
  rw [heq] at hreal ⊢
  have hlaid := layoutBlock_laid frames rest _ (layoutPlan_laid frames stmt hopen).current_lt
  refine Sim.andThen (atEnd (layoutPlan frames stmt code))
    (exitsVia_mono F fuel frames (fallsTo_mono _)) (hstmt code hopen F (hreal.of_laid hlaid) fuel)
    ?_ fun o n w c ho hexit => exitsVia_other ho hexit
  intro n w c hexit
  exact ⟨hexit.2, hrest _ hexit.1 F hreal fuel⟩

mutual

/-- The code of a statement simulates its structured meaning. -/
theorem layoutPlan_sim (M : Machine Stmt Expr World) {inLoop : Bool}
    {frames : List LoopFrame} (hframes : inLoop = true → frames ≠ []) :
    ∀ plan, plan.Enclosed inLoop →
      PlanSpec M frames (layoutPlan frames plan) (M.runPlan · plan)
  | .straight actions, _ => straight_sim M frames actions
  | .ifThen _ thenBlock tail, henclosed =>
      ifThen_sim (layoutBlock_sim M hframes thenBlock henclosed.1)
        (layoutTail_sim M hframes tail henclosed.2)
  | .whileLoop cond body, henclosed =>
      layoutWhile_sim (fun _ => layoutBlock_sim M (by simp) body henclosed)
        (fun frame => layoutBlock_laid (frame :: frames) body) cond
  | .loop body, henclosed =>
      layoutLoop_sim (fun _ => layoutBlock_sim M (by simp) body henclosed)
        (fun frame => layoutBlock_laid (frame :: frames) body)
  | .counted _ _ _ body, henclosed =>
      counted_sim fun _ => layoutBlock_sim M (by simp) body henclosed
  | .breakLoop, henclosed => by
      intro code hopen F hreal fuel
      cases frames with
      | nil => exact absurd rfl (hframes henclosed)
      | cons frame rest =>
          exact jumpOut_sim hopen hreal fun w => ⟨Nat.one_pos, frame, rest, rfl, rfl⟩
  | .continueLoop, henclosed => by
      intro code hopen F hreal fuel
      cases frames with
      | nil => exact absurd rfl (hframes henclosed)
      | cons frame rest =>
          exact jumpOut_sim hopen hreal fun w => ⟨Nat.one_pos, frame, rest, rfl, rfl⟩
  | .returnStmt, _ => by
      intro code hopen F hreal fuel w
      exact ⟨0, _, .refl _, halted_ret hopen hreal w, rfl⟩

theorem layoutBlock_sim (M : Machine Stmt Expr World) {inLoop : Bool}
    {frames : List LoopFrame} (hframes : inLoop = true → frames ≠ []) :
    ∀ block, block.Enclosed inLoop →
      PlanSpec M frames (layoutBlock frames block) (M.runBlock · block)
  | .nil, _ => fun _ hopen _ _ _ => Sim.nil fun _ => ⟨hopen, rfl⟩
  | .cons stmt rest, henclosed =>
      PlanSpec.cons (layoutPlan_sim M hframes stmt henclosed.1)
        (layoutBlock_sim M hframes rest henclosed.2)

theorem layoutTail_sim (M : Machine Stmt Expr World) {inLoop : Bool}
    {frames : List LoopFrame} (hframes : inLoop = true → frames ≠ []) :
    ∀ tail, tail.Enclosed inLoop →
      TailSpec M frames (layoutTail frames tail) (M.runTail · tail)
  | .none, _ => by
      intro merge code hopen F hreal fuel
      refine (sim_jumped hreal ?_).weaken (exitsVia_weaken (jumpsTo_goesTo merge))
      exact Sim.nil fun w => ⟨hopen, rfl⟩
  | .otherwise block, henclosed => by
      intro merge code hopen F hreal fuel
      have hcurrent := (layoutBlock_laid frames block code hopen.current_lt).current_lt
      refine (sim_jumped hreal ?_).weaken (exitsVia_weaken (jumpsTo_goesTo merge))
      exact layoutBlock_sim M hframes block henclosed code hopen F
        (Realized.of_jumped hcurrent hreal) fuel
  | .elsif cond block tail, henclosed => by
      intro merge code hopen F hreal fuel
      have hlayout := layoutBlock_laid frames block
      have hopen₁ := layoutThenArm_isOpen hlayout hopen cond merge
      exact layoutThenArm_sim (layoutBlock_sim M hframes block henclosed.1) hlayout hopen cond
        (Realized.of_laid hreal (layoutTail_laid frames tail merge hopen₁))
        (layoutTail_sim M hframes tail henclosed.2 merge _ hopen₁ F hreal fuel)

end

end Harc.ControlSimulation
