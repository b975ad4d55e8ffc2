import Harc.WaitBudget
import Harc.ThreadScheduler
import Mathlib.Logic.Relation

/-!
The two lowerings of `wait until … timeout N cycles`.  A wait whose conditions are pure
becomes one terminator that the scheduler counts down; a wait whose conditions have
effects becomes a polling loop of basic blocks with a counter of its own.  Both refine one
bounded wait, each with its own budget.
-/

namespace Harc.WaitTimeout

open Harc.TestbenchIr
open Harc.ThreadScheduler
open Harc.IrExpr
open Harc.WaitBudget

/-! ### A bounded wait -/

/-- The cycle at which a wait ends and whether its condition held there. -/
structure Resumption where
  cycle : Nat
  fired : Bool
deriving DecidableEq

/-- The wait ends at the first cycle up to the budget where the condition holds, or else
at the budget. -/
structure Resolves (cond : Nat → Bool) (budget : Nat) (r : Resumption) : Prop where
  before : ∀ j < r.cycle, cond j = false
  within : r.cycle ≤ budget
  truth : cond r.cycle = r.fired
  expired : r.fired = false → r.cycle = budget

theorem Resolves.cycle_le {cond : Nat → Bool} {budget : Nat} {r : Resumption}
    (h : Resolves cond budget r) {k : Nat} (hk : k ≤ budget) (hcond : cond k = true) :
    r.cycle ≤ k ∧ r.fired = true := by
  have hle : r.cycle ≤ k := by
    by_contra hlt
    rw [h.before k (by omega)] at hcond
    cases hcond
  refine ⟨hle, ?_⟩
  by_contra hfired
  rw [Bool.not_eq_true] at hfired
  have heq : r.cycle = k := by
    have := h.expired hfired
    omega
  rw [← h.truth, heq, hcond] at hfired
  cases hfired

theorem Resolves.unique {cond : Nat → Bool} {budget : Nat} {r r' : Resumption}
    (h : Resolves cond budget r) (h' : Resolves cond budget r') : r = r' := by
  have hcycle : r.cycle = r'.cycle := by
    rcases hfired : r.fired with _ | _
    · rcases hfired' : r'.fired with _ | _
      · rw [h.expired hfired, h'.expired hfired']
      · have := (h.cycle_le h'.within (h'.truth.trans hfired')).2
        rw [hfired] at this
        cases this
    · obtain ⟨hle, hfired'⟩ := h'.cycle_le h.within (h.truth.trans hfired)
      have := (h.cycle_le h'.within (h'.truth.trans hfired')).1
      omega
  have hfired : r.fired = r'.fired := by rw [← h.truth, ← h'.truth, hcycle]
  cases r
  cases r'
  simp only [Resumption.mk.injEq]
  exact ⟨hcycle, hfired⟩

/-- Waits with two budgets end alike exactly when the budgets are equal or the condition
holds within both. -/
theorem Resolves.eq_iff {cond : Nat → Bool} {c e : Nat} {r r' : Resumption}
    (h : Resolves cond c r) (h' : Resolves cond e r') :
    r = r' ↔ c = e ∨ ∃ k ≤ min c e, cond k = true := by
  constructor
  · rintro rfl
    rcases hfired : r.fired with _ | _
    · left
      rw [← h.expired hfired, ← h'.expired hfired]
    · right
      exact ⟨r.cycle, le_min h.within h'.within, h.truth.trans hfired⟩
  · rintro (rfl | ⟨k, hk, hcond⟩)
    · exact h.unique h'
    · have hfired := h.cycle_le (hk.trans (min_le_left _ _)) hcond
      have hwithin : r.cycle ≤ e := hfired.1.trans (hk.trans (min_le_right _ _))
      refine Resolves.unique ⟨h.before, hwithin, h.truth, ?_⟩ h'
      intro hfalse
      rw [hfired.2] at hfalse
      cases hfalse

/-! ### The conditions -/

variable {W : Type}

/-- `preds_cpp` -/
def predsCpp (mode : WaitMode) (preds : List (W → Bool)) (world : W) : Bool :=
  match preds, mode with
  | [pred], _ => pred world
  | _, .anyOf => preds.any fun pred => pred world
  | _, _ => preds.all fun pred => pred world

/-- The lines of a wait that timed out. -/
inductive Diag where
  | header
  | notYetTrue (condition : Nat)
  | noneOf
deriving DecidableEq

/-- What a wait leaves behind. -/
structure WaitReport where
  resumption : Resumption
  errors : Nat
  diags : List Diag

/-! ### The compact form -/

/-- What `wait_until_timeout` writes when the coroutine suspends. -/
def suspendTimeout (slot : ThreadSlot W) (pred : W → Bool) (maxCycles : Nat) : ThreadSlot W :=
  { slot with
    kind := .waitUntilTimeout, pred := some pred, cyclesRemaining := maxCycles, timedOut := false }

/-- The ticks of the scheduler from a cycle on, until the slot is ready. -/
def ticks (world : Nat → W) : Nat → Nat → ThreadSlot W → Option (Nat × ThreadSlot W)
  | 0, _, _ => none
  | fuel + 1, cycle, slot =>
      let next := slot.advance (world (cycle + 1))
      if next.kind = .ready then some (cycle + 1, next) else ticks world fuel (cycle + 1) next

/-- `co_await wait_until_timeout(…)`, entered at cycle zero. -/
def awaitTimeout (world : Nat → W) (fuel : Nat) (slot : ThreadSlot W) (pred : W → Bool)
    (maxCycles : Nat) : Option Resumption :=
  if pred (world 0) then some ⟨0, true⟩
  else if maxCycles = 0 then some ⟨0, false⟩
  else (ticks world fuel 0 (suspendTimeout slot pred maxCycles)).map fun r => ⟨r.1, !r.2.timedOut⟩

/-- The block `on_timeout`; a condition that holds has no line. -/
def timeoutDiags (mode : WaitMode) (truths : List Bool) : List Diag :=
  .header :: match mode with
    | .anyOf => [.noneOf]
    | _ => (truths.zipIdx.filter (!·.1)).map fun truth => .notYetTrue truth.2

def compactWait (world : Nat → W) (fuel : Nat) (slot : ThreadSlot W) (mode : WaitMode)
    (preds : List (W → Bool)) (maxCycles : Nat) : Option WaitReport :=
  (awaitTimeout world fuel slot (predsCpp mode preds) maxCycles).map fun r =>
    if r.fired then ⟨r, 0, []⟩
    else ⟨r, 1, timeoutDiags mode (preds.map fun pred => pred (world r.cycle))⟩

/-! ### The polling loop -/

inductive PollStmt where
  | assignIdentity (snapshot : Nat) (value : Bool)
  | assignTruth (condition : Nat)
  | decrementRemaining
  | errorIncrement
  | failDiag (guard : Option Nat) (diag : Diag)
deriving DecidableEq

inductive PollExpr where
  | snapshot (condition : Nat)
  /-- `remaining <= 0` -/
  | expired
  | one
deriving DecidableEq

abbrev PollBlock := BasicBlock PollStmt PollExpr

section Blocks

variable (mode : WaitMode) (n base : Nat)

def pollId : BlockId := base
def satisfiedId : BlockId := base + 1
def notSatisfiedId : BlockId := base + 2
/-- The block of a condition; the first is evaluated in the block `poll`. -/
def conditionId (i : Nat) : BlockId := if i = 0 then pollId base else base + 2 + i
def timedOutId : BlockId := base + n + 2
def waitId : BlockId := base + n + 3

def conditionTerminator (i : Nat) : Terminator PollExpr :=
  let next := if i + 1 = n then none else some (conditionId base (i + 1))
  match mode with
  | .single => .branch (.snapshot i) (satisfiedId base) (notSatisfiedId base)
  | .allOf => .branch (.snapshot i) (next.getD (satisfiedId base)) (notSatisfiedId base)
  | .anyOf => .branch (.snapshot i) (satisfiedId base) (next.getD (notSatisfiedId base))

def identities : List PollStmt :=
  (List.range n).map fun i => .assignIdentity i (mode == .allOf)

def conditionBlock (i : Nat) : PollBlock := ⟨[.assignTruth i], conditionTerminator mode n base i⟩

def pollBlock : PollBlock := ⟨identities mode n ++ [.assignTruth 0], conditionTerminator mode n base 0⟩

def notSatisfiedBlock : PollBlock := ⟨[], .branch .expired (timedOutId n base) (waitId n base)⟩

def breakdown : List PollStmt :=
  match mode with
  | .anyOf => [.failDiag none .noneOf]
  | _ => (List.range n).map fun i => .failDiag (some i) (.notYetTrue i)

def timedOutBlock : PollBlock :=
  ⟨.errorIncrement :: .failDiag none .header :: breakdown mode n, .jump (satisfiedId base)⟩

def waitBlock : PollBlock := ⟨[.decrementRemaining], .waitCycles .one none (pollId base)⟩

/-- The blocks from `base` on; what follows the wait is lowered into `satisfied`. -/
def lowerEffectfulWaitUntil (satisfied : PollBlock) : List PollBlock :=
  [pollBlock mode n base, satisfied, notSatisfiedBlock n base] ++
    (List.range' 1 (n - 1)).map (conditionBlock mode n base) ++
    [timedOutBlock mode n base, waitBlock base]

end Blocks

structure PollState (W : Type) where
  cycle : Nat
  remaining : BitVec 64
  snapshots : Nat → Bool
  slot : ThreadSlot W
  errors : Nat
  diags : List Diag

def setSnapshot (σ : PollState W) (i : Nat) (value : Bool) : PollState W :=
  { σ with snapshots := fun j => if j = i then value else σ.snapshots j }

def execStmt (world : Nat → W) (preds : List (W → Bool)) (σ : PollState W) :
    PollStmt → PollState W
  | .assignIdentity i value => setSnapshot σ i value
  | .assignTruth i => setSnapshot σ i (preds[i]?.any fun pred => pred (world σ.cycle))
  | .decrementRemaining => { σ with remaining := σ.remaining - 1 }
  | .errorIncrement => { σ with errors := σ.errors + 1 }
  | .failDiag none diag => { σ with diags := σ.diags ++ [diag] }
  | .failDiag (some guard) diag =>
      if σ.snapshots guard then σ else { σ with diags := σ.diags ++ [diag] }

def execStmts (world : Nat → W) (preds : List (W → Bool)) (stmts : List PollStmt)
    (σ : PollState W) : PollState W :=
  stmts.foldl (execStmt world preds) σ

def evalExpr (σ : PollState W) : PollExpr → Bool
  | .snapshot i => σ.snapshots i
  | .expired => decide (σ.remaining ≤ 0)
  | .one => true

/-- A point of the run: the block that comes next and the one before it. -/
structure Config (W : Type) where
  previous : BlockId
  block : BlockId
  state : PollState W

def execTerminator (world : Nat → W) (block : BlockId) (σ : PollState W) :
    Terminator PollExpr → Option (Config W)
  | .jump target => some ⟨block, target, σ⟩
  | .branch cond t f => some ⟨block, if evalExpr σ cond then t else f, σ⟩
  | .waitCycles .one none succ =>
      (ticks world 1 σ.cycle (σ.slot.suspendCycles 1)).map fun r =>
        ⟨block, succ, { σ with cycle := r.1, slot := r.2 }⟩
  | _ => none

/-- One block of the loop; the wait is over at the block `satisfied`. -/
def step (world : Nat → W) (preds : List (W → Bool)) (base : Nat) (blocks : List PollBlock)
    (c : Config W) : Option (Config W) :=
  if c.block = satisfiedId base ∨ c.block < base then none
  else blocks[c.block - base]?.bind fun b =>
    execTerminator world c.block (execStmts world preds b.stmts c.state) b.terminator

def run (world : Nat → W) (preds : List (W → Bool)) (base : Nat) (blocks : List PollBlock) :
    Nat → Config W → Option (Config W)
  | 0, _ => none
  | fuel + 1, c =>
      if c.block = satisfiedId base then some c
      else (step world preds base blocks c).bind (run world preds base blocks fuel)

/-- The wait as the loop runs it, entered at cycle zero. -/
def expandedWait (world : Nat → W) (fuel : Nat) (slot : ThreadSlot W) (mode : WaitMode)
    (preds : List (W → Bool)) (base : Nat) (satisfied : PollBlock) (entry : BlockId)
    (budget : BitVec 64) : Option WaitReport :=
  let blocks := lowerEffectfulWaitUntil mode preds.length base satisfied
  (run world preds base blocks fuel
      ⟨entry, pollId base, ⟨0, budget, fun _ => false, slot, 0, []⟩⟩).map fun c =>
    ⟨⟨c.state.cycle, c.previous != timedOutId preds.length base⟩, c.state.errors, c.state.diags⟩

/-! ### The compact form refines the bounded wait -/

/-- A slot that waits with a countdown and whose condition did not hold so far. -/
structure Counting (pred : W → Bool) (remaining : Nat) (slot : ThreadSlot W) : Prop where
  kind : slot.kind = .waitUntilTimeout
  pred_eq : slot.pred = some pred
  cyclesRemaining : slot.cyclesRemaining = remaining

theorem Counting.holds {pred : W → Bool} {m : Nat} {slot : ThreadSlot W}
    (h : Counting pred m slot) (world : W) : slot.holds world = pred world := by
  rw [ThreadSlot.holds, h.pred_eq]
  rfl

theorem Counting.advance_true {pred : W → Bool} {m : Nat} {slot : ThreadSlot W}
    (h : Counting pred m slot) {world : W} (hpred : pred world = true) :
    (slot.advance world).kind = .ready ∧ (slot.advance world).timedOut = false := by
  have hholds : slot.holds world = true := (h.holds world).trans hpred
  rw [ThreadSlot.advance]
  simp [h.kind, hholds]

theorem Counting.advance_last {pred : W → Bool} {slot : ThreadSlot W}
    (h : Counting pred 1 slot) {world : W} (hpred : pred world = false) :
    (slot.advance world).kind = .ready ∧ (slot.advance world).timedOut = true := by
  have hholds : slot.holds world = false := (h.holds world).trans hpred
  rw [ThreadSlot.advance]
  simp [h.kind, hholds, h.cyclesRemaining]

theorem Counting.advance_succ {pred : W → Bool} {m : Nat} {slot : ThreadSlot W}
    (h : Counting pred (m + 2) slot) {world : W} (hpred : pred world = false) :
    Counting pred (m + 1) (slot.advance world) := by
  have hholds : slot.holds world = false := (h.holds world).trans hpred
  have heq : slot.advance world = { slot with cyclesRemaining := m + 1 } := by
    rw [ThreadSlot.advance]
    simp [h.kind, hholds, h.cyclesRemaining]
  rw [heq]
  exact ⟨h.kind, h.pred_eq, rfl⟩

theorem ticks_of_ready {world : Nat → W} {cycle : Nat} {slot : ThreadSlot W}
    (hready : (slot.advance (world (cycle + 1))).kind = .ready) {fuel : Nat} (hfuel : 0 < fuel) :
    ticks world fuel cycle slot = some (cycle + 1, slot.advance (world (cycle + 1))) := by
  rcases fuel with _ | fuel
  · exact absurd hfuel (Nat.lt_irrefl 0)
  · rw [ticks]
    simp only [hready, if_true]

theorem ticks_resolves {world : Nat → W} {pred : W → Bool} (m : Nat) :
    ∀ (cycle : Nat) (slot : ThreadSlot W), Counting pred (m + 1) slot →
      (∀ j ≤ cycle, pred (world j) = false) →
      ∃ c slot', (∀ fuel, m < fuel → ticks world fuel cycle slot = some (c, slot')) ∧
        Resolves (fun j => pred (world j)) (cycle + (m + 1)) ⟨c, !slot'.timedOut⟩ := by
  induction m with
  | zero =>
      intro cycle slot hslot hbefore
      have hbefore' : ∀ j < cycle + 1, pred (world j) = false :=
        fun j hj => hbefore j (Nat.le_of_lt_succ hj)
      rcases hpred : pred (world (cycle + 1)) with _ | _
      · obtain ⟨hready, htimedOut⟩ := hslot.advance_last hpred
        refine ⟨cycle + 1, _, fun fuel hfuel => ticks_of_ready hready hfuel, ?_⟩
        rw [htimedOut]
        exact ⟨hbefore', le_refl _, hpred, fun _ => rfl⟩
      · obtain ⟨hready, htimedOut⟩ := hslot.advance_true hpred
        refine ⟨cycle + 1, _, fun fuel hfuel => ticks_of_ready hready hfuel, ?_⟩
        rw [htimedOut]
        exact ⟨hbefore', le_refl _, hpred, nofun⟩
  | succ m ih =>
      intro cycle slot hslot hbefore
      have hbefore' : ∀ j < cycle + 1, pred (world j) = false :=
        fun j hj => hbefore j (Nat.le_of_lt_succ hj)
      rcases hpred : pred (world (cycle + 1)) with _ | _
      · have hnext := hslot.advance_succ hpred
        have hsofar : ∀ j ≤ cycle + 1, pred (world j) = false := by
          intro j hj
          rcases Nat.lt_or_ge j (cycle + 1) with hlt | hge
          · exact hbefore' j hlt
          · rw [le_antisymm hj hge]
            exact hpred
        obtain ⟨c, slot', hticks, hresolves⟩ := ih (cycle + 1) _ hnext hsofar
        refine ⟨c, slot', ?_, ?_⟩
        · rintro (_ | fuel) hfuel
          · exact absurd hfuel (Nat.not_lt_zero _)
          · rw [ticks]
            simp only [hnext.kind, reduceCtorEq, if_false]
            exact hticks fuel (Nat.lt_of_succ_lt_succ hfuel)
        · rwa [show cycle + (m + 1 + 1) = cycle + 1 + (m + 1) by omega]
      · obtain ⟨hready, htimedOut⟩ := hslot.advance_true hpred
        refine ⟨cycle + 1, _, fun fuel hfuel => ticks_of_ready hready (by omega), ?_⟩
        rw [htimedOut]
        exact ⟨hbefore', by simp, hpred, nofun⟩

theorem awaitTimeout_resolves (world : Nat → W) (slot : ThreadSlot W) (pred : W → Bool)
    (maxCycles : Nat) :
    ∃ r, (∀ fuel, maxCycles ≤ fuel → awaitTimeout world fuel slot pred maxCycles = some r) ∧
      Resolves (fun j => pred (world j)) maxCycles r := by
  rcases hpred : pred (world 0) with _ | _
  · rcases maxCycles with _ | m
    · refine ⟨⟨0, false⟩, fun fuel _ => ?_, ⟨nofun, le_refl 0, hpred, fun _ => rfl⟩⟩
      simp [awaitTimeout, hpred]
    · obtain ⟨c, slot', hticks, hresolves⟩ := @ticks_resolves _ world pred m 0
        (suspendTimeout slot pred (m + 1)) ⟨rfl, rfl, rfl⟩ (by
          intro j hj
          rw [Nat.le_zero.mp hj]
          exact hpred)
      refine ⟨⟨c, !slot'.timedOut⟩, fun fuel hfuel => ?_, by rwa [Nat.zero_add] at hresolves⟩
      simp [awaitTimeout, hpred, hticks fuel hfuel]
  · refine ⟨⟨0, true⟩, fun fuel _ => ?_, ⟨nofun, Nat.zero_le _, hpred, nofun⟩⟩
    simp [awaitTimeout, hpred]

/-! ### The polling loop refines the bounded wait -/

section Loop

variable {world : Nat → W} {preds : List (W → Bool)} {mode : WaitMode} {base : Nat}
  {satisfied : PollBlock}

/-- The blocks of the loop for the conditions `preds`. -/
def loopBlocks (mode : WaitMode) (preds : List (W → Bool)) (base : Nat) (satisfied : PollBlock) :
    List PollBlock :=
  lowerEffectfulWaitUntil mode preds.length base satisfied

def Steps (world : Nat → W) (preds : List (W → Bool)) (mode : WaitMode) (base : Nat)
    (satisfied : PollBlock) : Config W → Config W → Prop :=
  Relation.ReflTransGen fun c c' =>
    step world preds base (loopBlocks mode preds base satisfied) c = some c'

theorem run_of_steps {c c' : Config W} (h : Steps world preds mode base satisfied c c')
    (hend : c'.block = satisfiedId base) :
    ∃ enough, ∀ fuel, enough ≤ fuel →
      run world preds base (loopBlocks mode preds base satisfied) fuel c = some c' := by
  induction h using Relation.ReflTransGen.head_induction_on with
  | refl =>
      refine ⟨1, ?_⟩
      rintro (_ | fuel) hfuel
      · exact absurd hfuel (Nat.not_succ_le_zero 0)
      · rw [run, if_pos hend]
  | @head first _ hstep hrest ih =>
      obtain ⟨enough, hrun⟩ := ih
      refine ⟨enough + 1, ?_⟩
      rintro (_ | fuel) hfuel
      · exact absurd hfuel (Nat.not_succ_le_zero _)
      · have hblock : first.block ≠ satisfiedId base := by
          intro heq
          rw [step, if_pos (Or.inl heq)] at hstep
          cases hstep
        rw [run, if_neg hblock, hstep]
        exact hrun fuel (Nat.le_of_succ_le_succ hfuel)

/-- A block of the loop that is not `satisfied` runs its statements and its terminator. -/
theorem step_of_block {offset : Nat} {b : PollBlock} (hoffset : offset ≠ 1)
    (hblock : (loopBlocks mode preds base satisfied)[offset]? = some b) (previous : BlockId)
    (σ : PollState W) :
    step world preds base (loopBlocks mode preds base satisfied) ⟨previous, base + offset, σ⟩ =
      execTerminator world (base + offset) (execStmts world preds b.stmts σ) b.terminator := by
  have hnot : ¬ (base + offset = satisfiedId base ∨ base + offset < base) := by
    rw [satisfiedId]
    omega
  rw [step, if_neg hnot, Nat.add_sub_cancel_left, hblock]
  rfl

theorem poll_getElem : (loopBlocks mode preds base satisfied)[0]? =
    some (pollBlock mode preds.length base) := rfl

theorem notSatisfied_getElem : (loopBlocks mode preds base satisfied)[2]? =
    some (notSatisfiedBlock preds.length base) := rfl

theorem condition_getElem {i : Nat} (hpos : 0 < i) (hi : i < preds.length) :
    (loopBlocks mode preds base satisfied)[2 + i]? =
      some (conditionBlock mode preds.length base i) := by
  rw [loopBlocks, lowerEffectfulWaitUntil, List.append_assoc,
    List.getElem?_append_right (by simp; omega), List.getElem?_append_left (by simp; omega)]
  simp only [List.length_cons, List.length_nil, List.getElem?_map]
  rw [List.getElem?_range' (by omega), Option.map_some,
    show 1 + 1 * (2 + i - (0 + 1 + 1 + 1)) = i by omega]

theorem timedOut_getElem (hne : preds ≠ []) : (loopBlocks mode preds base satisfied)[preds.length + 2]? =
    some (timedOutBlock mode preds.length base) := by
  have hpos := List.length_pos_iff.mpr hne
  rw [loopBlocks, lowerEffectfulWaitUntil, List.getElem?_append_right (by simp; omega)]
  simp only [List.length_append, List.length_cons, List.length_nil, List.length_map,
    List.length_range']
  rw [show preds.length + 2 - (0 + 1 + 1 + 1 + (preds.length - 1)) = 0 by omega]
  rfl

theorem wait_getElem (hne : preds ≠ []) : (loopBlocks mode preds base satisfied)[preds.length + 3]? =
    some (waitBlock base) := by
  have hpos := List.length_pos_iff.mpr hne
  rw [loopBlocks, lowerEffectfulWaitUntil, List.getElem?_append_right (by simp)]
  simp only [List.length_append, List.length_cons, List.length_nil, List.length_map,
    List.length_range']
  rw [show preds.length + 3 - (0 + 1 + 1 + 1 + (preds.length - 1)) = 1 by omega]
  rfl

/-- Two states that differ in the snapshots at most. -/
def Snapped (σ σ' : PollState W) : Prop := σ' = { σ with snapshots := σ'.snapshots }

theorem Snapped.trans {σ σ' σ'' : PollState W} (h : Snapped σ σ') (h' : Snapped σ' σ'') :
    Snapped σ σ'' := by
  rw [Snapped] at h h' ⊢
  rw [h', h]

theorem setSnapshot_snapped (σ : PollState W) (i : Nat) (value : Bool) :
    Snapped σ (setSnapshot σ i value) := rfl

theorem execStmts_append (stmts stmts' : List PollStmt) (σ : PollState W) :
    execStmts world preds (stmts ++ stmts') σ =
      execStmts world preds stmts' (execStmts world preds stmts σ) :=
  List.foldl_append

theorem identities_snapped (n : Nat) (σ : PollState W) :
    Snapped σ (execStmts world preds (identities mode n) σ) := by
  rw [identities, execStmts]
  induction List.range n generalizing σ with
  | nil => rfl
  | cons i rest ih =>
      rw [List.map_cons, List.foldl_cons]
      exact (setSnapshot_snapped σ i _).trans (ih _)

/-- The block after a condition with the given truth. -/
def branchTarget (mode : WaitMode) (n base i : Nat) (truth : Bool) : BlockId :=
  match mode with
  | .single => if truth then satisfiedId base else notSatisfiedId base
  | .allOf =>
      if truth then if i + 1 = n then satisfiedId base else conditionId base (i + 1)
      else notSatisfiedId base
  | .anyOf =>
      if truth then satisfiedId base
      else if i + 1 = n then notSatisfiedId base else conditionId base (i + 1)

theorem exec_conditionTerminator (n i : Nat) (block : BlockId) (σ : PollState W) :
    execTerminator world block σ (conditionTerminator mode n base i) =
      some ⟨block, branchTarget mode n base i (σ.snapshots i), σ⟩ := by
  cases mode with
  | single => rfl
  | allOf =>
      change some (Config.mk block (if σ.snapshots i then _ else _) σ) = _
      rw [branchTarget]
      split_ifs <;> rfl
  | anyOf =>
      change some (Config.mk block (if σ.snapshots i then _ else _) σ) = _
      rw [branchTarget]
      split_ifs <;> rfl

/-- What the conditions amount to. -/
def decides (mode : WaitMode) (truths : List Bool) : Bool :=
  match mode with
  | .anyOf => truths.any id
  | _ => truths.all id

def truths (preds : List (W → Bool)) (world : W) : List Bool := preds.map fun pred => pred world

def verdictId (base : Nat) (verdict : Bool) : BlockId :=
  if verdict then satisfiedId base else notSatisfiedId base

/-- The truth of a condition in the world of a cycle. -/
def truthAt (preds : List (W → Bool)) (w : W) (i : Nat) : Bool := preds[i]?.any fun pred => pred w

theorem truths_drop {i : Nat} (hi : i < preds.length) (w : W) :
    (truths preds w).drop i = truthAt preds w i :: (truths preds w).drop (i + 1) := by
  rw [truths, ← List.map_drop, ← List.map_drop, List.drop_eq_getElem_cons hi, List.map_cons,
    truthAt, List.getElem?_eq_getElem hi]
  rfl

theorem truths_drop_length (w : W) : (truths preds w).drop preds.length = [] := by
  simp [truths]

/-- From the branch after a condition the run comes to the verdict on it and the
conditions behind it. -/
theorem reach_verdict (hsingle : mode = .single → preds.length = 1) (d : Nat) :
    ∀ i, i + d + 1 = preds.length → ∀ (block : Nat) (σ : PollState W),
      block ≤ base + preds.length + 1 →
      ∃ (previous : Nat) (σ' : PollState W), Steps world preds mode base satisfied
          ⟨block, branchTarget mode preds.length base i (truthAt preds (world σ.cycle) i), σ⟩
          ⟨previous, verdictId base (decides mode ((truths preds (world σ.cycle)).drop i)), σ'⟩ ∧
        Snapped σ σ' ∧ previous ≤ base + preds.length + 1 := by
  induction d with
  | zero =>
      intro i hi block σ hblock
      have hlast : i + 1 = preds.length := hi
      have htarget : branchTarget mode preds.length base i (truthAt preds (world σ.cycle) i) =
          verdictId base (decides mode ((truths preds (world σ.cycle)).drop i)) := by
        rw [truths_drop (by omega), hlast, truths_drop_length]
        cases mode <;> simp [branchTarget, decides, verdictId, hlast]
      rw [htarget]
      exact ⟨block, σ, Relation.ReflTransGen.refl, rfl, hblock⟩
  | succ d ih =>
      intro i hi block σ hblock
      rw [truths_drop (by omega)]
      have hnot : ¬ i + 1 = preds.length := by omega
      have hmode : mode ≠ .single := fun h => by have := hsingle h; omega
      -- the block of the next condition
      let next : PollState W := setSnapshot σ (i + 1) (truthAt preds (world σ.cycle) (i + 1))
      have hnext : next.snapshots (i + 1) = truthAt preds (world σ.cycle) (i + 1) := if_pos rfl
      have hstep : step world preds base (loopBlocks mode preds base satisfied)
          ⟨block, base + (2 + (i + 1)), σ⟩ = some ⟨base + (2 + (i + 1)),
            branchTarget mode preds.length base (i + 1) (next.snapshots (i + 1)), next⟩ := by
        have hblock := @condition_getElem _ preds mode base satisfied (i + 1) (by omega) (by omega)
        rw [step_of_block (by omega) hblock]
        exact exec_conditionTerminator _ _ _ next
      obtain ⟨previous, σ', hsteps, hsnapped, hprevious⟩ := ih (i + 1) (by omega)
        (base + (2 + (i + 1))) next (by omega)
      rw [hnext] at hstep
      have hreach : Steps world preds mode base satisfied
          ⟨block, conditionId base (i + 1), σ⟩
          ⟨previous, verdictId base (decides mode ((truths preds (world σ.cycle)).drop (i + 1))),
            σ'⟩ := by
        have hid : conditionId base (i + 1) = base + (2 + (i + 1)) := by
          rw [conditionId, if_neg (Nat.succ_ne_zero i)]
          exact Nat.add_assoc base 2 (i + 1)
        rw [hid]
        exact Relation.ReflTransGen.head hstep hsteps
      rcases htruth : truthAt preds (world σ.cycle) i with _ | _
      · cases mode with
        | single => exact absurd rfl hmode
        | allOf => exact ⟨block, σ, Relation.ReflTransGen.refl, rfl, hblock⟩
        | anyOf =>
            refine ⟨previous, σ', ?_, hsnapped, hprevious⟩
            rw [branchTarget, if_neg Bool.false_ne_true, if_neg hnot]
            simpa [decides] using hreach
      · cases mode with
        | single => exact absurd rfl hmode
        | anyOf => exact ⟨block, σ, Relation.ReflTransGen.refl, rfl, hblock⟩
        | allOf =>
            refine ⟨previous, σ', ?_, hsnapped, hprevious⟩
            rw [branchTarget, if_pos rfl, if_neg hnot]
            simpa [decides] using hreach

theorem predsCpp_eq (hsingle : mode = .single → preds.length = 1) (w : W) :
    predsCpp mode preds w = decides mode (truths preds w) := by
  rcases preds with _ | ⟨pred, _ | ⟨pred', rest⟩⟩
  · cases mode with
    | single => exact absurd (hsingle rfl) Nat.zero_ne_one
    | allOf => rfl
    | anyOf => rfl
  · cases mode <;> simp [predsCpp, decides, truths]
  · cases mode with
    | single =>
        have := hsingle rfl
        simp at this
    | allOf => simp [predsCpp, decides, truths]
    | anyOf => simp [predsCpp, decides, truths]

/-- One attempt evaluates the conditions and comes to the verdict on them. -/
theorem poll_verdict (hne : preds ≠ []) (hsingle : mode = .single → preds.length = 1)
    (block : BlockId) (σ : PollState W) :
    ∃ (previous : Nat) (σ' : PollState W), Steps world preds mode base satisfied
        ⟨block, pollId base, σ⟩
        ⟨previous, verdictId base (predsCpp mode preds (world σ.cycle)), σ'⟩ ∧
      Snapped σ σ' ∧ previous ≤ base + preds.length + 1 := by
  have hpos := List.length_pos_iff.mpr hne
  let reset := execStmts world preds (identities mode preds.length) σ
  have hreset : Snapped σ reset := identities_snapped _ σ
  have hcycle : reset.cycle = σ.cycle := by rw [hreset]
  let next : PollState W := setSnapshot reset 0 (truthAt preds (world reset.cycle) 0)
  have hnext : next.snapshots 0 = truthAt preds (world next.cycle) 0 := rfl
  have hstep : step world preds base (loopBlocks mode preds base satisfied)
      ⟨block, base + 0, σ⟩ =
        some ⟨base + 0, branchTarget mode preds.length base 0 (next.snapshots 0), next⟩ := by
    rw [step_of_block (by omega) poll_getElem, pollBlock, execStmts_append]
    exact exec_conditionTerminator _ _ _ next
  obtain ⟨previous, σ', hsteps, hsnapped, hprevious⟩ :=
    @reach_verdict _ world preds mode base satisfied hsingle (preds.length - 1) 0 (by omega) base
      next (by omega)
  rw [hnext] at hstep
  refine ⟨previous, σ', ?_, hreset.trans ((setSnapshot_snapped reset 0 _).trans hsnapped), hprevious⟩
  rw [predsCpp_eq hsingle, ← hcycle]
  exact Relation.ReflTransGen.head hstep hsteps

def headers (diags : List Diag) : Nat := diags.count .header

theorem execStmts_breakdown (n : Nat) (σ : PollState W) :
    let σ' := execStmts world preds (breakdown mode n) σ
    σ'.cycle = σ.cycle ∧ σ'.errors = σ.errors ∧ headers σ'.diags = headers σ.diags := by
  have hguarded : ∀ (is : List Nat) (σ : PollState W),
      let σ' := execStmts world preds (is.map fun i => .failDiag (some i) (.notYetTrue i)) σ
      σ'.cycle = σ.cycle ∧ σ'.errors = σ.errors ∧ headers σ'.diags = headers σ.diags := by
    intro is
    induction is with
    | nil => exact fun σ => ⟨rfl, rfl, rfl⟩
    | cons i is ih =>
        intro σ
        rw [List.map_cons, execStmts, List.foldl_cons, execStmt]
        split_ifs with hsnapshot
        · exact ih σ
        · obtain ⟨hcycle, herrors, hheaders⟩ := ih { σ with diags := σ.diags ++ [.notYetTrue i] }
          refine ⟨hcycle, herrors, hheaders.trans ?_⟩
          simp [headers]
  cases mode with
  | single => exact hguarded _ σ
  | allOf => exact hguarded _ σ
  | anyOf => exact ⟨rfl, rfl, by simp [headers, execStmts, breakdown, execStmt]⟩

/-- A failed attempt without budget ends the wait with one error and one report. -/
theorem notSatisfied_expired (hne : preds ≠ []) (block : BlockId) {σ : PollState W}
    (hremaining : σ.remaining = 0) :
    ∃ σ', Steps world preds mode base satisfied ⟨block, notSatisfiedId base, σ⟩
        ⟨timedOutId preds.length base, satisfiedId base, σ'⟩ ∧
      σ'.cycle = σ.cycle ∧ σ'.errors = σ.errors + 1 ∧
      headers σ'.diags = headers σ.diags + 1 := by
  let counted : PollState W :=
    { σ with errors := σ.errors + 1, diags := σ.diags ++ [.header] }
  have hexpired : evalExpr σ .expired = true := by
    rw [evalExpr, hremaining]
    rfl
  have hfirst : step world preds base (loopBlocks mode preds base satisfied)
      ⟨block, base + 2, σ⟩ = some ⟨base + 2, timedOutId preds.length base, σ⟩ := by
    rw [step_of_block (by omega) notSatisfied_getElem]
    change some (Config.mk (base + 2) (if evalExpr σ .expired then _ else _) σ) = _
    rw [hexpired]
    rfl
  have hsecond : step world preds base (loopBlocks mode preds base satisfied)
      ⟨base + 2, base + (preds.length + 2), σ⟩ = some ⟨base + (preds.length + 2),
        satisfiedId base, execStmts world preds (breakdown mode preds.length) counted⟩ := by
    rw [step_of_block (by omega) (timedOut_getElem hne)]
    rfl
  obtain ⟨hcycle, herrors, hheaders⟩ :=
    @execStmts_breakdown _ world preds mode preds.length counted
  refine ⟨_, Relation.ReflTransGen.head hfirst (Relation.ReflTransGen.single hsecond), hcycle,
    herrors, hheaders.trans ?_⟩
  simp [counted, headers]

/-- A failed attempt with budget waits for a cycle and counts it. -/
theorem notSatisfied_waits (hne : preds ≠ []) (block : BlockId) {σ : PollState W}
    (hremaining : σ.remaining ≠ 0) :
    ∃ σ', Steps world preds mode base satisfied ⟨block, notSatisfiedId base, σ⟩
        ⟨waitId preds.length base, pollId base, σ'⟩ ∧
      σ'.cycle = σ.cycle + 1 ∧ σ'.remaining = σ.remaining - 1 ∧ σ'.errors = σ.errors ∧
      σ'.diags = σ.diags := by
  have hexpired : evalExpr σ .expired = false := by
    rw [evalExpr, decide_eq_false_iff_not, BitVec.le_def]
    intro hle
    exact hremaining (BitVec.eq_of_toNat_eq (Nat.le_zero.mp hle))
  have hfirst : step world preds base (loopBlocks mode preds base satisfied)
      ⟨block, base + 2, σ⟩ = some ⟨base + 2, waitId preds.length base, σ⟩ := by
    rw [step_of_block (by omega) notSatisfied_getElem]
    change some (Config.mk (base + 2) (if evalExpr σ .expired then _ else _) σ) = _
    rw [hexpired]
    rfl
  have hready : ((σ.slot.suspendCycles 1).advance (world (σ.cycle + 1))).kind = .ready := rfl
  let resumed : PollState W :=
    { σ with
      remaining := σ.remaining - 1, cycle := σ.cycle + 1
      slot := (σ.slot.suspendCycles 1).advance (world (σ.cycle + 1)) }
  have hsecond : step world preds base (loopBlocks mode preds base satisfied)
      ⟨base + 2, base + (preds.length + 3), σ⟩ =
        some ⟨base + (preds.length + 3), pollId base, resumed⟩ := by
    rw [step_of_block (by omega) (wait_getElem hne)]
    simp only [waitBlock, execTerminator, execStmts, List.foldl_cons, List.foldl_nil, execStmt]
    rw [ticks_of_ready hready one_pos]
    rfl
  exact ⟨resumed, Relation.ReflTransGen.head hfirst (Relation.ReflTransGen.single hsecond), rfl,
    rfl, rfl, rfl⟩

/-- The wait did not end in the block of the timeout. -/
def Config.fired (n base : Nat) (c : Config W) : Bool := c.previous != timedOutId n base

/-- The errors and the reports of a wait. -/
def lost (fired : Bool) : Nat := if fired then 0 else 1

/-- A run that came to its end from the state `σ`, with the budget that it had. -/
structure Finished (world : Nat → W) (preds : List (W → Bool)) (mode : WaitMode) (base : Nat)
    (σ : PollState W) (budget : Nat) (c : Config W) : Prop where
  block : c.block = satisfiedId base
  resolves : Resolves (fun j => predsCpp mode preds (world j)) budget
    ⟨c.state.cycle, c.fired preds.length base⟩
  errors : c.state.errors = σ.errors + lost (c.fired preds.length base)
  headers : headers c.state.diags = headers σ.diags + lost (c.fired preds.length base)

/-- An attempt whose conditions hold ends the wait. -/
theorem poll_fires (hne : preds ≠ []) (hsingle : mode = .single → preds.length = 1)
    (block : BlockId) {σ : PollState W} {budget : Nat} (hbudget : σ.cycle ≤ budget)
    (hbefore : ∀ j < σ.cycle, predsCpp mode preds (world j) = false)
    (htruth : predsCpp mode preds (world σ.cycle) = true) :
    ∃ c, Steps world preds mode base satisfied ⟨block, pollId base, σ⟩ c ∧
      Finished world preds mode base σ budget c := by
  obtain ⟨previous, σ', hsteps, hsnapped, hprevious⟩ :=
    @poll_verdict _ world preds mode base satisfied hne hsingle block σ
  rw [htruth] at hsteps
  have hfired : (Config.mk previous (verdictId base true) σ').fired preds.length base = true := by
    rw [Config.fired, bne_iff_ne]
    exact Nat.ne_of_lt (by omega : previous < base + preds.length + 2)
  refine ⟨_, hsteps, rfl, ?_, ?_, ?_⟩
  · rw [hfired, hsnapped]
    exact ⟨hbefore, hbudget, htruth, nofun⟩
  · rw [hfired, hsnapped]
    rfl
  · rw [hfired, hsnapped]
    rfl

/-- The loop from an attempt on, with the cycles that are left. -/
theorem loop_finishes (hne : preds ≠ []) (hsingle : mode = .single → preds.length = 1) (m : Nat) :
    ∀ (block : BlockId) (σ : PollState W), σ.remaining.toNat = m →
      (∀ j < σ.cycle, predsCpp mode preds (world j) = false) →
      ∃ c, Steps world preds mode base satisfied ⟨block, pollId base, σ⟩ c ∧
        Finished world preds mode base σ (σ.cycle + m) c := by
  induction m with
  | zero =>
      intro block σ hremaining hbefore
      rcases htruth : predsCpp mode preds (world σ.cycle) with _ | _
      · obtain ⟨previous, σ', hsteps, hsnapped, -⟩ :=
          @poll_verdict _ world preds mode base satisfied hne hsingle block σ
        have hzero : σ'.remaining = 0 := by
          rw [hsnapped]
          exact BitVec.eq_of_toNat_eq hremaining
        obtain ⟨σ'', hsteps', hcycle, herrors, hheaders⟩ :=
          @notSatisfied_expired _ world preds mode base satisfied hne previous σ' hzero
        rw [htruth] at hsteps
        have hfired : (Config.mk (timedOutId preds.length base) (satisfiedId base) σ'').fired
            preds.length base = false := bne_self_eq_false _
        refine ⟨_, hsteps.trans hsteps', rfl, ?_, ?_, ?_⟩
        · rw [hfired, hcycle, hsnapped]
          exact ⟨hbefore, le_refl _, htruth, fun _ => rfl⟩
        · rw [hfired, herrors, hsnapped]
          rfl
        · rw [hfired, hheaders, hsnapped]
          rfl
      · exact poll_fires hne hsingle block (le_refl _) hbefore htruth
  | succ m ih =>
      intro block σ hremaining hbefore
      rcases htruth : predsCpp mode preds (world σ.cycle) with _ | _
      · obtain ⟨previous, σ', hsteps, hsnapped, -⟩ :=
          @poll_verdict _ world preds mode base satisfied hne hsingle block σ
        have hcycle : σ'.cycle = σ.cycle := by rw [hsnapped]
        have hremaining' : σ'.remaining = σ.remaining := by rw [hsnapped]
        have hpos : σ'.remaining ≠ 0 := by
          intro hzero
          rw [← hremaining', hzero] at hremaining
          cases hremaining
        obtain ⟨σ'', hsteps', hcycle', hless, herrors, hdiags⟩ :=
          @notSatisfied_waits _ world preds mode base satisfied hne previous σ' hpos
        have hcount : σ''.remaining.toNat = m := by
          rw [hless, hremaining']
          bv_omega
        have hsofar : ∀ j < σ''.cycle, predsCpp mode preds (world j) = false := by
          intro j hj
          rw [hcycle', hcycle] at hj
          rcases Nat.lt_or_ge j σ.cycle with hlt | hge
          · exact hbefore j hlt
          · rw [le_antisymm (Nat.le_of_lt_succ hj) hge]
            exact htruth
        obtain ⟨c, hrest, hfinished⟩ := ih (waitId preds.length base) σ'' hcount hsofar
        rw [htruth] at hsteps
        refine ⟨c, hsteps.trans (hsteps'.trans hrest), hfinished.block, ?_, ?_, ?_⟩
        · have hresolves := hfinished.resolves
          rwa [hcycle', hcycle, show σ.cycle + 1 + m = σ.cycle + (m + 1) by omega] at hresolves
        · rw [hfinished.errors, herrors, hsnapped]
        · rw [hfinished.headers, hdiags, hsnapped]
      · exact poll_fires hne hsingle block (Nat.le_add_right _ _) hbefore htruth

end Loop

/-! ### The two forms -/

/-- A wait that timed out has one error and one report, any other has none. -/
def OneError (r : WaitReport) : Prop :=
  r.errors = lost r.resumption.fired ∧ headers r.diags = lost r.resumption.fired

theorem headers_timeoutDiags (mode : WaitMode) (truths : List Bool) :
    headers (timeoutDiags mode truths) = 1 := by
  cases mode <;> simp [headers, timeoutDiags, List.count_eq_zero]

section Forms

variable {world : Nat → W} {slot : ThreadSlot W} {mode : WaitMode} {preds : List (W → Bool)}
  {base : Nat} {satisfied : PollBlock} {entry : BlockId}

/-- With enough fuel the run has the result. -/
def Returns (run : Nat → Option WaitReport) (r : WaitReport) : Prop :=
  ∃ enough, ∀ fuel, enough ≤ fuel → run fuel = some r

theorem compactWait_returns (world : Nat → W) (slot : ThreadSlot W) (mode : WaitMode)
    (preds : List (W → Bool)) (maxCycles : Nat) :
    ∃ r, Returns (fun fuel => compactWait world fuel slot mode preds maxCycles) r ∧
      Resolves (fun j => predsCpp mode preds (world j)) maxCycles r.resumption ∧ OneError r := by
  obtain ⟨r, hawait, hresolves⟩ := awaitTimeout_resolves world slot (predsCpp mode preds) maxCycles
  rcases hfired : r.fired with _ | _
  · refine ⟨⟨r, 1, timeoutDiags mode (preds.map fun pred => pred (world r.cycle))⟩,
      ⟨maxCycles, fun fuel hfuel => ?_⟩, hresolves, ?_⟩
    · simp [compactWait, hawait fuel hfuel, hfired]
    · rw [OneError, headers_timeoutDiags, hfired]
      exact ⟨rfl, rfl⟩
  · refine ⟨⟨r, 0, []⟩, ⟨maxCycles, fun fuel hfuel => ?_⟩, hresolves, ?_⟩
    · simp [compactWait, hawait fuel hfuel, hfired]
    · rw [OneError, hfired]
      exact ⟨rfl, rfl⟩

theorem expandedWait_returns (world : Nat → W) (slot : ThreadSlot W) (hne : preds ≠ [])
    (hsingle : mode = .single → preds.length = 1) (base : Nat) (satisfied : PollBlock)
    (entry : BlockId) (budget : BitVec 64) :
    ∃ r, Returns (fun fuel =>
        expandedWait world fuel slot mode preds base satisfied entry budget) r ∧
      Resolves (fun j => predsCpp mode preds (world j)) budget.toNat r.resumption ∧
      OneError r := by
  obtain ⟨c, hsteps, hfinished⟩ := @loop_finishes _ world preds mode base satisfied hne hsingle
    budget.toNat entry ⟨0, budget, fun _ => false, slot, 0, []⟩ rfl nofun
  obtain ⟨enough, hrun⟩ := run_of_steps hsteps hfinished.block
  refine ⟨⟨⟨c.state.cycle, c.fired preds.length base⟩, c.state.errors, c.state.diags⟩,
    ⟨enough, fun fuel hfuel => ?_⟩, ?_, ?_⟩
  · have hfuel := hrun fuel hfuel
    rw [loopBlocks] at hfuel
    simp only [expandedWait, hfuel]
    rfl
  · have hresolves := hfinished.resolves
    rwa [show (0 : Nat) + budget.toNat = budget.toNat from Nat.zero_add _] at hresolves
  · refine ⟨?_, ?_⟩
    · rw [hfinished.errors]
      exact Nat.zero_add _
    · rw [hfinished.headers]
      exact Nat.zero_add _

end Forms

/-- The budgets of the two forms are equal. -/
def BudgetsAgree (b : Budget) : Prop :=
  0 ≤ b.held ∧ b.held ≤ 2 ^ 32 - 1 ∨ 2 ^ 64 ≤ b.held ∧ b.value % 2 ^ 64 = 2 ^ 32 - 1 ∨
    b.held < 0 ∧ b.value % 2 ^ 64 = 0

theorem expandedBudget_toNat (b : Budget) :
    (b.expandedBudget.toNat : Int) = b.value % 2 ^ 64 := by
  rw [Budget.expandedBudget, BitVec.toNat_ofInt]
  exact Int.toNat_of_nonneg (Int.emod_nonneg _ (by norm_num))

theorem budgets_eq_iff (b : Budget) :
    b.compactBudget = b.expandedBudget.toNat ↔ BudgetsAgree b := by
  have hcompact := b.compactBudget_eq
  have hexpanded := expandedBudget_toNat b
  obtain ⟨hlow, hnarrow⟩ := b.held_spec
  rw [BudgetsAgree]
  rw [Budget.cycles] at hcompact
  norm_num at hcompact hexpanded hlow hnarrow ⊢
  split_ifs at hcompact with hraw
  · have hrange := hnarrow hraw
    omega
  · omega

/-- The two forms end at the same cycle with the same outcome, and with one error when
they time out, exactly when their budgets are equal or the conditions hold within both. -/
theorem waits_agree_iff {W : Type} (world : Nat → W) (slot : ThreadSlot W) (mode : WaitMode)
    (preds : List (W → Bool)) (hne : preds ≠ []) (hsingle : mode = .single → preds.length = 1)
    (base : Nat) (satisfied : PollBlock) (entry : BlockId) (b : Budget) :
    ∃ compact expanded,
      Returns (fun fuel => compactWait world fuel slot mode preds b.compactBudget) compact ∧
      Returns (fun fuel =>
        expandedWait world fuel slot mode preds base satisfied entry b.expandedBudget) expanded ∧
      (compact.resumption = expanded.resumption ∧ OneError compact ∧ OneError expanded ↔
        BudgetsAgree b ∨ ∃ k : Nat, k ≤ b.cycles ∧ k ≤ b.value % 2 ^ 64 ∧
          predsCpp mode preds (world k) = true) := by
  obtain ⟨compact, hcompact, hresolves, honce⟩ :=
    compactWait_returns world slot mode preds b.compactBudget
  obtain ⟨expanded, hexpanded, hresolves', honce'⟩ :=
    expandedWait_returns world slot hne hsingle base satisfied entry b.expandedBudget
  refine ⟨compact, expanded, hcompact, hexpanded, ?_⟩
  have hk : ∀ k : Nat, k ≤ min b.compactBudget b.expandedBudget.toNat ↔
      (k : Int) ≤ b.cycles ∧ k ≤ b.value % 2 ^ 64 := by
    intro k
    rw [← expandedBudget_toNat, ← b.compactBudget_eq]
    omega
  rw [and_iff_left ⟨honce, honce'⟩, hresolves.eq_iff hresolves', budgets_eq_iff]
  simp only [hk, and_assoc]

/-- A budget that reads no port of the DUT. -/
def untypedBudget (v : Int) : Budget := ⟨none, v, by rintro ⟨⟩⟩

/-- A budget that reads a port `sint<8>` of the DUT. -/
def signedPortBudget (v : Int) : Budget := ⟨some (.sint (some 8)), v, by rintro ⟨⟩⟩

/-- A condition that holds from cycle two on, and the literal `-1`: both forms count it as a
large number. -/
theorem waits_agree_minusOne : ∃ compact expanded,
    Returns (fun fuel => compactWait id fuel ⟨.ready, 0, none, false, false⟩ .single [(2 ≤ ·)]
      (untypedBudget (-1)).compactBudget) compact ∧
    Returns (fun fuel => expandedWait id fuel ⟨.ready, 0, none, false, false⟩ .single [(2 ≤ ·)]
      0 ⟨[], .ret⟩ 0 (untypedBudget (-1)).expandedBudget) expanded ∧
    compact.resumption = expanded.resumption ∧ OneError compact ∧ OneError expanded := by
  obtain ⟨compact, expanded, hcompact, hexpanded, hagree⟩ :=
    waits_agree_iff id ⟨.ready, 0, none, false, false⟩ .single [fun k => decide (2 ≤ k)] (by simp)
      (fun _ => rfl) 0 ⟨[], .ret⟩ 0 (untypedBudget (-1))
  refine ⟨compact, expanded, hcompact, hexpanded, hagree.mpr (Or.inr ⟨2, ?_, ?_, rfl⟩)⟩
  · decide +kernel
  · decide +kernel

/-- A budget of `-1` and a condition that never holds: the compact form times out after all of
`uint32_t`, or at once if a port is read, and the loop counts all of `uint64_t` down. -/
theorem negative_budget_differs : ∃ compact port expanded,
    Returns (fun fuel => compactWait id fuel ⟨.ready, 0, none, false, false⟩ .single
      [fun _ : Nat => false] (untypedBudget (-1)).compactBudget) compact ∧
    Returns (fun fuel => compactWait id fuel ⟨.ready, 0, none, false, false⟩ .single
      [fun _ : Nat => false] (signedPortBudget (-1)).compactBudget) port ∧
    Returns (fun fuel => expandedWait id fuel ⟨.ready, 0, none, false, false⟩ .single
      [fun _ : Nat => false] 0 ⟨[], .ret⟩ 0 (untypedBudget (-1)).expandedBudget) expanded ∧
    compact.resumption = ⟨2 ^ 32 - 1, false⟩ ∧ port.resumption = ⟨0, false⟩ ∧
    expanded.resumption = ⟨2 ^ 64 - 1, false⟩ := by
  obtain ⟨compact, hcompact, hresolves, -⟩ := compactWait_returns id
    ⟨.ready, 0, none, false, false⟩ .single [fun _ : Nat => false]
    (untypedBudget (-1)).compactBudget
  obtain ⟨port, hport, hresolvesPort, -⟩ := compactWait_returns id
    ⟨.ready, 0, none, false, false⟩ .single [fun _ : Nat => false]
    (signedPortBudget (-1)).compactBudget
  obtain ⟨expanded, hexpanded, hresolves', -⟩ := @expandedWait_returns Nat .single
    [fun _ => false] id ⟨.ready, 0, none, false, false⟩ (by simp) (fun _ => rfl) 0 ⟨[], .ret⟩ 0
    (untypedBudget (-1)).expandedBudget
  refine ⟨compact, port, expanded, hcompact, hport, hexpanded, hresolves.unique ?_,
    hresolvesPort.unique ?_, hresolves'.unique ?_⟩
  · exact ⟨fun _ _ => rfl, by decide +kernel, rfl, fun _ => by decide +kernel⟩
  · exact ⟨fun _ _ => rfl, Nat.zero_le _, rfl, fun _ => by decide +kernel⟩
  · exact ⟨fun _ _ => rfl, by decide +kernel, rfl, fun _ => by decide +kernel⟩

end Harc.WaitTimeout
