import Harc.ControlFrame

/-!
The jump targets of laid-out code: every successor of a terminated block is a
block of the table.
-/

namespace Harc.ControlTargets

open Harc.TestbenchIr
open Harc.FunctionBuilder
open Harc.StructuredControl
open Harc.ControlLayout
open Harc.ControlFrame

variable {Stmt Expr : Type}

def Bounded (code : CodeTable Stmt Expr) : Prop :=
  ∀ (j : Nat) b t, code.blocks[j]? = some b → b.term = some t →
    ∀ s ∈ t.successors, s < code.blocks.length

/-- The blocks that `break` and `continue` go to lie below `n`. -/
def FramesBelow (frames : List LoopFrame) (n : Nat) : Prop :=
  ∀ frame ∈ frames, frame.continueTo < n ∧ frame.breakTo < n

theorem FramesBelow.mono {frames : List LoopFrame} {n m : Nat} (h : FramesBelow frames n)
    (hle : n ≤ m) : FramesBelow frames m := by
  intro frame hframe
  obtain ⟨hcontinue, hbreak⟩ := h frame hframe
  exact ⟨Nat.lt_of_lt_of_le hcontinue hle, Nat.lt_of_lt_of_le hbreak hle⟩

theorem FramesBelow.cons {frames : List LoopFrame} {n m continueTo breakTo : Nat}
    (h : FramesBelow frames n) (hle : n ≤ m) (hcontinue : continueTo < m)
    (hbreak : breakTo < m) : FramesBelow (⟨continueTo, breakTo⟩ :: frames) m :=
  List.forall_mem_cons.mpr ⟨⟨hcontinue, hbreak⟩, h.mono hle⟩

theorem branch_below {cond : Expr} {thenB elseB n : Nat} (hthen : thenB < n)
    (helse : elseB < n) : ∀ s ∈ (Terminator.branch cond thenB elseB).successors, s < n :=
  List.forall_mem_cons.mpr ⟨hthen, List.forall_mem_singleton.mpr helse⟩

namespace Bounded

variable {code : CodeTable Stmt Expr}

theorem pushed (h : Bounded code) (s : Stmt) : Bounded (pushed code s) := by
  intro j b t hb ht target htarget
  rw [length_pushed]
  rw [pushed_getElem?] at hb
  split at hb
  · obtain ⟨b', hb', rfl⟩ := Option.map_eq_some_iff.mp hb
    exact h j b' t hb' ht target htarget
  · exact h j b t hb ht target htarget

theorem terminated (h : Bounded code) {t : Terminator Expr}
    (ht : ∀ s ∈ t.successors, s < code.blocks.length) : Bounded (terminated code t) := by
  intro j b t' hb ht' target htarget
  rw [length_terminated]
  rw [terminated_getElem?] at hb
  split at hb
  · obtain ⟨b', hb', rfl⟩ := Option.map_eq_some_iff.mp hb
    cases ht'
    exact ht target htarget
  · exact h j b t' hb ht' target htarget

theorem reserved (h : Bounded code) (k : Nat) : Bounded (reserved k code) := by
  intro j b t hb ht target htarget
  rw [length_reserved]
  by_cases hj : j < code.blocks.length
  · rw [reserved_getElem?_of_lt k hj] at hb
    exact Nat.lt_add_right k (h j b t hb ht target htarget)
  · rw [ControlLayout.reserved, List.getElem?_append_right (Nat.le_of_not_lt hj),
      List.getElem?_replicate] at hb
    split at hb
    · cases hb
      cases ht
    · cases hb

theorem forked (h : Bounded code) {k : Nat} {t : Terminator Expr}
    (ht : ∀ s ∈ t.successors, s < code.blocks.length + k) : Bounded (forked k t code) :=
  (h.reserved k).terminated (by simpa using ht)

theorem jump (h : Bounded code) {target : Nat} (htarget : target < code.blocks.length) :
    Bounded (ControlLayout.terminated code (.jump target)) :=
  h.terminated (by simpa [Terminator.successors] using htarget)

theorem jumped (h : Bounded code) {target : Nat} (htarget : target < code.blocks.length) :
    Bounded (jumped target code) := by
  unfold ControlLayout.jumped
  split
  · exact h
  · exact h.jump htarget

theorem ensured (h : Bounded code) : Bounded (ensured code) := by
  unfold ControlLayout.ensured
  split
  · exact h.reserved 1
  · exact h

theorem layoutAction (h : Bounded code) (a : Action Stmt Expr) :
    Bounded (layoutAction code a) := by
  cases a with
  | effect s => exact h.pushed s
  | suspend s =>
      refine h.forked fun target htarget => ?_
      cases s <;> simp_all [Suspension.terminator, Terminator.successors]

theorem layoutActions (h : Bounded code) (actions : List (Action Stmt Expr)) :
    Bounded (layoutActions actions code) := by
  induction actions generalizing code with
  | nil => exact h
  | cons a actions ih => exact ih (h.layoutAction a)

end Bounded

/-- A layout keeps the targets in range once the table has `n` blocks. -/
def KeepsBounded (n : Nat) (layout : CodeTable Stmt Expr → CodeTable Stmt Expr) : Prop :=
  ∀ code : CodeTable Stmt Expr, code.current < code.blocks.length → n ≤ code.blocks.length →
    Bounded code → Bounded (layout code)

section Blocks

variable {code : CodeTable Stmt Expr} {n : Nat}

theorem layoutThenArm_bounded {layout : CodeTable Stmt Expr → CodeTable Stmt Expr}
    (hlayout : LaysOut layout) (hkeeps : KeepsBounded n layout) (hopen : IsOpen code)
    (hn : n ≤ code.blocks.length) (cond : Cond Stmt Expr) {merge : Nat}
    (hmerge : merge < code.blocks.length) (h : Bounded code) :
    Bounded (layoutThenArm cond layout merge code) := by
  have hopenC := layoutActions_isOpen cond.prelude hopen
  have hlength := (layoutActions_laid cond.prelude hopen).length_le
  have hstart := (thenStart_fresh hopenC cond.expr).lt
  have hthen := (hlayout (thenStart cond.expr (layoutActions cond.prelude code)) hstart).length_le
  have hstartBounded : Bounded (thenStart cond.expr (layoutActions cond.prelude code)) :=
    (h.layoutActions cond.prelude).forked (by simp [Terminator.successors])
  have hforked : (thenStart cond.expr (layoutActions cond.prelude code)).blocks.length =
      (layoutActions cond.prelude code).blocks.length + 2 := length_forked _ _ _
  exact (hkeeps _ hstart (by omega) hstartBounded).jumped (by omega)

variable {layout : LoopFrame → CodeTable Stmt Expr → CodeTable Stmt Expr}

theorem layoutLoop_bounded (hlayout : ∀ frame, LaysOut (layout frame))
    (hkeeps : ∀ m continueTo breakTo, n ≤ m → continueTo < m → breakTo < m →
      KeepsBounded m (layout ⟨continueTo, breakTo⟩))
    (hopen : IsOpen code) (hn : n ≤ code.blocks.length) (h : Bounded code) :
    Bounded (layoutLoop layout code) := by
  have hstart := (loopStart_fresh hopen).lt
  have hlength : (loopStart code).blocks.length = code.blocks.length + 2 :=
    length_forked _ _ _
  have hbody := (hlayout ⟨code.blocks.length, code.blocks.length + 1⟩ (loopStart code)
    hstart).length_le
  have hstartBounded : Bounded (loopStart code) := h.forked (by simp [Terminator.successors])
  have hbodyBounded := hkeeps (code.blocks.length + 2) code.blocks.length
    (code.blocks.length + 1) (by omega) (by omega) (by omega) (loopStart code) hstart
    (by omega) hstartBounded
  exact hbodyBounded.jumped (by omega)

theorem layoutWhile_bounded (hlayout : ∀ frame, LaysOut (layout frame))
    (hkeeps : ∀ m continueTo breakTo, n ≤ m → continueTo < m → breakTo < m →
      KeepsBounded m (layout ⟨continueTo, breakTo⟩))
    (hopen : IsOpen code) (hn : n ≤ code.blocks.length) (cond : Cond Stmt Expr)
    (h : Bounded code) : Bounded (layoutWhile cond layout code) := by
  have hheader : Bounded (started (forked 3 (.jump code.blocks.length) code)
      code.blocks.length) := h.forked (by simp [Terminator.successors])
  have hlength := (whileTest_laid hopen cond).length_le
  rw [started_blocks, length_forked] at hlength
  have hstart : code.blocks.length + 1 < (whileStart cond code).blocks.length :=
    (whileStart_fresh hopen cond (Nat.lt_succ_self _) (by omega)).lt
  have hlengthS : (whileStart cond code).blocks.length = (whileTest cond code).blocks.length :=
    length_terminated _ _
  have hstartBounded : Bounded (whileStart cond code) :=
    Bounded.terminated (hheader.layoutActions cond.prelude)
      (branch_below (by change _ < (whileTest cond code).blocks.length; omega)
        (by change _ < (whileTest cond code).blocks.length; omega))
  have hbody := (hlayout ⟨code.blocks.length, code.blocks.length + 2⟩ (whileStart cond code)
    hstart).length_le
  have hbodyBounded := hkeeps (code.blocks.length + 3) code.blocks.length
    (code.blocks.length + 2) (by omega) (by omega) (by omega) (whileStart cond code) hstart
    (by omega) hstartBounded
  exact hbodyBounded.jumped (by omega)

theorem layoutStep_bounded (step : Stmt) {header : Nat} (hheader : header < code.blocks.length)
    (h : Bounded code) : Bounded (layoutStep step header code) :=
  (h.pushed step).jump (by simpa using hheader)

theorem layoutLatch_bounded (latch : Latch Stmt Expr) {header exit : Nat}
    (hopen : IsOpen code) (hheader : header < code.blocks.length)
    (hexit : exit < code.blocks.length) (h : Bounded code) :
    Bounded (layoutLatch latch header exit code) := by
  obtain ⟨terminal, failure, step⟩ := latch
  rcases terminal with _ | terminal
  · exact layoutStep_bounded step hheader h
  · rcases failure with _ | ⟨failureCond, stmts⟩
    · have hfork : Bounded (forked 1 (.branch terminal exit code.blocks.length) code) :=
        h.forked (branch_below (by omega) (by omega))
      exact layoutStep_bounded step (by simp; omega) hfork
    · have hcheck : Bounded (latchCheck terminal exit code) :=
        h.forked (branch_below (by omega) (by omega))
      have hlengthC : (latchCheck terminal exit code).blocks.length = code.blocks.length + 3 :=
        length_forked _ _ _
      have hfailure : Bounded (latchFailure terminal failureCond exit code) :=
        hcheck.terminated (branch_below (by omega) (by omega))
      have hlengthF : (latchFailure terminal failureCond exit code).blocks.length =
          code.blocks.length + 3 :=
        (length_terminated _ _).trans hlengthC
      have hlength := (layoutActions_laid (stmts.map .effect)
        (latchFailure_isOpen terminal failureCond exit hopen)).length_le
      have hfailed : Bounded (terminated (latchFailed terminal failureCond stmts exit code)
          (.jump exit)) :=
        (hfailure.layoutActions (stmts.map .effect)).jump (by omega)
      refine layoutStep_bounded step ?_ hfailed
      change header < (terminated _ _).blocks.length
      rw [length_terminated, latchFailed]
      omega

theorem layoutCounted_bounded (hlayout : ∀ frame, LaysOut (layout frame))
    (hkeeps : ∀ m continueTo breakTo, n ≤ m → continueTo < m → breakTo < m →
      KeepsBounded m (layout ⟨continueTo, breakTo⟩))
    (hopen : IsOpen code) (hn : n ≤ code.blocks.length) (headerCond : Expr)
    (latch : Latch Stmt Expr) (h : Bounded code) :
    Bounded (layoutCounted headerCond latch layout code) := by
  have hheader : Bounded (countedHeader code) := h.forked (by simp [Terminator.successors])
  have hlengthH : (countedHeader code).blocks.length = code.blocks.length + 4 :=
    length_forked _ _ _
  have hlengthS : (countedStart headerCond code).blocks.length = code.blocks.length + 4 :=
    (length_terminated _ _).trans hlengthH
  have hstartBounded : Bounded (countedStart headerCond code) :=
    hheader.terminated (branch_below (by omega) (by omega))
  have hstart : code.blocks.length + 1 < (countedStart headerCond code).blocks.length := by
    omega
  have hbodyBounded := hkeeps (code.blocks.length + 4) (code.blocks.length + 2)
    (code.blocks.length + 3) (by omega) (by omega) (by omega) (countedStart headerCond code)
    hstart (by omega) hstartBounded
  have hbody := (hlayout ⟨code.blocks.length + 2, code.blocks.length + 3⟩
    (countedStart headerCond code) hstart).length_le
  have hlatch : Bounded (countedLatch headerCond layout code) := hbodyBounded.jumped (by omega)
  have hlatchOpen := countedLatch_isOpen headerCond hlayout hopen
  have hexit : code.blocks.length + 3 < (countedLatch headerCond layout code).blocks.length :=
    (countedLatch_fresh headerCond hlayout hopen (by omega) (by omega)).lt
  exact layoutLatch_bounded latch hlatchOpen (by omega) hexit hlatch

end Blocks

mutual

theorem layoutPlan_bounded {frames : List LoopFrame} {n : Nat}
    (hframes : FramesBelow frames n) :
    ∀ (plan : Plan Stmt Expr) {code : CodeTable Stmt Expr}, IsOpen code →
      n ≤ code.blocks.length → Bounded code → Bounded (layoutPlan frames plan code)
  | .straight actions, _, _, _, h => h.layoutActions actions
  | .ifThen cond thenBlock tail, code, hopen, hn, h => by
      have hlaid := layoutThenArm_laid (layoutBlock_laid frames thenBlock) (hopen.reserved 1)
        cond code.blocks.length
      have hlength := hlaid.length_le
      rw [length_reserved] at hlength
      have hthen := layoutThenArm_bounded (layoutBlock_laid frames thenBlock)
        (layoutBlock_bounded hframes thenBlock) (hopen.reserved 1) (by simp; omega) cond
        (show code.blocks.length < _ by simp) (h.reserved 1)
      exact layoutTail_bounded hframes tail
        (layoutThenArm_isOpen (layoutBlock_laid frames thenBlock) (hopen.reserved 1) cond _)
        (by omega) (by omega) hthen
  | .whileLoop cond body, _, hopen, hn, h =>
      layoutWhile_bounded (fun frame => layoutBlock_laid (frame :: frames) body)
        (fun _ _ _ hle hc hb => layoutBlock_bounded (hframes.cons hle hc hb) body)
        hopen hn cond h
  | .loop body, _, hopen, hn, h =>
      layoutLoop_bounded (fun frame => layoutBlock_laid (frame :: frames) body)
        (fun _ _ _ hle hc hb => layoutBlock_bounded (hframes.cons hle hc hb) body) hopen hn h
  | .counted init headerCond latch body, _, hopen, hn, h =>
      layoutCounted_bounded (fun frame => layoutBlock_laid (frame :: frames) body)
        (fun _ _ _ hle hc hb => layoutBlock_bounded (hframes.cons hle hc hb) body)
        (layoutActions_isOpen init hopen)
        (Nat.le_trans hn (layoutActions_laid init hopen).length_le) headerCond latch
        (h.layoutActions init)
  | .breakLoop, _, _, hn, h => by
      cases frames with
      | nil => exact h
      | cons frame rest =>
          exact h.jump (Nat.lt_of_lt_of_le (hframes frame List.mem_cons_self).2 hn)
  | .continueLoop, _, _, hn, h => by
      cases frames with
      | nil => exact h
      | cons frame rest =>
          exact h.jump (Nat.lt_of_lt_of_le (hframes frame List.mem_cons_self).1 hn)
  | .returnStmt, _, _, _, h => h.terminated (by simp [Terminator.successors])

theorem layoutBlock_bounded {frames : List LoopFrame} {n : Nat}
    (hframes : FramesBelow frames n) :
    ∀ block : PlanBlock Stmt Expr, KeepsBounded n (layoutBlock frames block)
  | .nil => fun _ _ _ h => h
  | .cons stmt rest => fun code hcurrent hn h => by
      have hopen := ensured_isOpen hcurrent
      have hensured := (ensured_laid hcurrent).length_le
      have hlaid := layoutPlan_laid frames stmt hopen
      have hlength := hlaid.length_le
      exact layoutBlock_bounded hframes rest _ hlaid.current_lt (by omega)
        (layoutPlan_bounded hframes stmt hopen (by omega) h.ensured)

theorem layoutTail_bounded {frames : List LoopFrame} {n : Nat}
    (hframes : FramesBelow frames n) :
    ∀ (tail : PlanTail Stmt Expr) {merge : Nat} {code : CodeTable Stmt Expr}, IsOpen code →
      n ≤ code.blocks.length → merge < code.blocks.length → Bounded code →
      Bounded (layoutTail frames tail merge code)
  | .none, _, _, _, _, hmerge, h => h.jumped hmerge
  | .otherwise block, _, _, hopen, hn, hmerge, h => by
      have hlength := (layoutBlock_laid frames block _ hopen.current_lt).length_le
      exact (layoutBlock_bounded hframes block _ hopen.current_lt hn h).jumped (by omega)
  | .elsif cond block tail, merge, _, hopen, hn, hmerge, h => by
      have hlength := (layoutThenArm_laid (layoutBlock_laid frames block) hopen cond
        merge).length_le
      exact layoutTail_bounded hframes tail
        (layoutThenArm_isOpen (layoutBlock_laid frames block) hopen cond merge) (by omega)
        (by omega) (layoutThenArm_bounded (layoutBlock_laid frames block)
          (layoutBlock_bounded hframes block) hopen hn cond hmerge h)

end

end Harc.ControlTargets
