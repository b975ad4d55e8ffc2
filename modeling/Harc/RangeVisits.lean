import Harc.RangeLoops

/-!
Runs of the loops of `for` and `repeat` from the values of their bounds: the rounds that are
made, and when they are the ones of the range.
-/

namespace Harc.RangeVisits

open Harc.Fallible
open Harc.TestbenchIr
open Harc.IrExpr
open Harc.CppScalar
open Harc.FunctionBuilder
open Harc.TraceSimulation
open Harc.StructuredControl
open Harc.ControlLowering
open Harc.CppExpressions
open Harc.CountedLoops
open Harc.RangeLoops
open Harc.WaitBudget (isSint)

variable {Ast Atom Leaf Op LeafError Rest : Type}

/-- The loop ends in the world, if it is given the rounds for it. -/
def Finishes (I : Interp Leaf Op Rest) (header : Expr Leaf)
    (latch : Latch (Stmt Leaf Op) (Expr Leaf))
    (body : World Rest → EventRun (Stmt Leaf Op) (Expr Leaf) (World Rest))
    (w w' : World Rest) : Prop :=
  ∃ n, ∀ fuel ≥ n, (loopRun (machine I) header latch body fuel w).outcome = .normal ∧
    (loopRun (machine I) header latch body fuel w).world = w'

theorem Finishes.unique {I : Interp Leaf Op Rest} {header : Expr Leaf}
    {latch : Latch (Stmt Leaf Op) (Expr Leaf)}
    {body : World Rest → EventRun (Stmt Leaf Op) (Expr Leaf) (World Rest)}
    {w x y : World Rest} (hx : Finishes I header latch body w x)
    (hy : Finishes I header latch body w y) : x = y := by
  obtain ⟨n, hx⟩ := hx
  obtain ⟨m, hy⟩ := hy
  exact (hx (max n m) (le_max_left n m)).2.symm.trans (hy (max n m) (le_max_right n m)).2

/-- The world after the body has been run for the integers of the range. -/
def visited (var : LocalId)
    (body : World Rest → EventRun (Stmt Leaf Op) (Expr Leaf) (World Rest)) (first last : Int)
    (w : World Rest) : World Rest :=
  visit (setCounter var) (fun w => (body w).world) (integers first last) w

/-- The integers of the range are values of the counter. -/
def Counts (I : Interp Leaf Op Rest) (var : LocalId) (first last : Int) : Prop :=
  ∀ i ∈ integers first last, ∀ w, (localValue I (setCounter var w i) var).toInt = i

/-- The effects of the carrier-overflow diagnostic. -/
def overflowReported (I : Interp Leaf Op Rest) (w : World Rest) : World Rest :=
  overflowEffects.foldl (fun w s => exec I s w) w

section Rounds

variable {I : Interp Leaf Op Rest} {var : LocalId} {operand : LoweredExpr Leaf Op}
  {body : World Rest → EventRun (Stmt Leaf Op) (Expr Leaf) (World Rest)} {last i : Int}
  {w : World Rest}

theorem setCounter_of_at (h : At I var operand last i w) : setCounter var w i = w := by
  have hupdate : Function.update w.locals var (BitVec.ofInt 64 i) = w.locals := by
    rw [← h.1]
    exact Function.update_eq_self var w.locals
  rw [setCounter, World.set, hupdate]

theorem setCounter_setCounter (var : LocalId) (w : World Rest) (i j : Int) :
    setCounter var (setCounter var w i) j = setCounter var w j := by
  simp [setCounter, World.set]

/-- The temporary of the bound is not the counter. -/
def Apart (var : LocalId) (operand : LoweredExpr Leaf Op) : Prop :=
  ∀ t, operand.expr = .local t → t ≠ var

theorem at_setCounter (hapart : Apart var operand) (h : At I var operand last i w) (j : Int) :
    At I var operand last j (setCounter var w j) := by
  refine ⟨Function.update_self .., fun t ht => ?_⟩
  obtain ⟨hword, hty⟩ := h.2 t ht
  refine ⟨?_, hty⟩
  rw [← hword]
  exact Function.update_of_ne (hapart t ht) ..

theorem at_body (hbody : Quiet var operand body) (h : At I var operand last i w) :
    Completes (body w) ∧ At I var operand last i (body w).world := by
  refine ⟨hbody.completes w, (hbody.keepsCounter w).trans h.1, fun t ht => ?_⟩
  obtain ⟨hword, hty⟩ := h.2 t ht
  exact ⟨(hbody.keepsBound w t ht).trans hword, hty⟩

theorem exec_increment_of_at (h : At I var operand last i w) :
    exec I (increment var) w = setCounter var w (i + 1) := by
  rw [exec_increment, h.1, setCounter, BitVec.ofInt_add]
  rfl

/-- A latch whose tests fail steps the counter. -/
theorem runLatch_step {terminal : Expr Leaf}
    {failure : Option (Expr Leaf × List (Stmt Leaf Op))} (h : At I var operand last i w)
    (hterminal : (machine I).truth terminal w = false)
    (hfailure : ∀ e stmts, failure = some (e, stmts) → (machine I).truth e w = false) :
    ((machine I).runLatch ⟨some terminal, failure, increment var⟩ w).outcome = .normal ∧
      ((machine I).runLatch ⟨some terminal, failure, increment var⟩ w).world =
        setCounter var w (i + 1) := by
  have hexec : (machine I).exec (increment var) w = setCounter var w (i + 1) :=
    exec_increment_of_at h
  cases failure with
  | none => simp [Machine.runLatch, Machine.test, Machine.runAction, hterminal, hexec]
  | some f =>
      have hfalse := hfailure f.1 f.2 rfl
      simp [Machine.runLatch, Machine.test, Machine.runAction, hterminal, hfalse, hexec]

theorem runLatch_terminal {terminal : Expr Leaf}
    {failure : Option (Expr Leaf × List (Stmt Leaf Op))} {step : Stmt Leaf Op}
    (hterminal : (machine I).truth terminal w = true) :
    ((machine I).runLatch ⟨some terminal, failure, step⟩ w).outcome = .broke ∧
      ((machine I).runLatch ⟨some terminal, failure, step⟩ w).world = w := by
  cases failure with
  | none => simp [Machine.runLatch, Machine.test, hterminal, leave]
  | some f => simp [Machine.runLatch, Machine.test, hterminal, leave]

theorem runLatch_overflow {terminal failure : Expr Leaf} {step : Stmt Leaf Op}
    (hterminal : (machine I).truth terminal w = false)
    (hfailure : (machine I).truth failure w = true) :
    ((machine I).runLatch ⟨some terminal, some (failure, overflowEffects), step⟩ w).outcome =
        .broke ∧
      ((machine I).runLatch ⟨some terminal, some (failure, overflowEffects), step⟩ w).world =
        overflowReported I w := by
  simp only [Machine.runLatch, Machine.test, hterminal, hfailure]
  exact ⟨rfl, rfl⟩

/-- A loop that is left in the latch of the round at `top`. -/
theorem finishes_visits (finish : World Rest → World Rest) {header terminal : Expr Leaf}
    {failure : Option (Expr Leaf × List (Stmt Leaf Op))} {first top : Int}
    (hapart : Apart var operand) (hbody : Quiet var operand body)
    (hle : first ≤ top)
    (hheader : ∀ i w, first ≤ i → i ≤ top → At I var operand last i w →
      (machine I).truth header w = true)
    (hstep : ∀ i w, first ≤ i → i < top → At I var operand last i w →
      (machine I).truth terminal w = false ∧
        ∀ e stmts, failure = some (e, stmts) → (machine I).truth e w = false)
    (hlast : ∀ w, At I var operand last top w →
      ((machine I).runLatch ⟨some terminal, failure, increment var⟩ w).outcome = .broke ∧
        ((machine I).runLatch ⟨some terminal, failure, increment var⟩ w).world = finish w)
    (hat : At I var operand last first w) :
    Finishes I header ⟨some terminal, failure, increment var⟩ body w
      (finish (visited var body first top w)) := by
  refine ⟨(top - first).toNat + 1, fun fuel hfuel => ?_⟩
  have hsteps : ∀ i w, first ≤ i → i < top → At I var operand last i w →
      ((machine I).runLatch ⟨some terminal, failure, increment var⟩ w).outcome = .normal ∧
        ((machine I).runLatch ⟨some terminal, failure, increment var⟩ w).world =
          setCounter var w (i + 1) ∧ At I var operand last (i + 1) (setCounter var w (i + 1)) := by
    intro i w hlo htop hat
    obtain ⟨hterminal, hfailure⟩ := hstep i w hlo htop hat
    obtain ⟨houtcome, hworld⟩ := runLatch_step hat hterminal hfailure
    exact ⟨houtcome, hworld, at_setCounter hapart hat (i + 1)⟩
  have hset : ∀ i w, At I var operand last i w → setCounter var w i = w :=
    fun i w hat => setCounter_of_at hat
  exact loopRun_visits hset (fun i w hat => at_body hbody hat) hheader hsteps hlast
    (top - first).toNat first w (Int.le_refl first) (by omega) hat fuel (by omega)

theorem finishes_empty {header : Expr Leaf} {latch : Latch (Stmt Leaf Op) (Expr Leaf)}
    {first top : Int} (hlt : top < first) (hheader : (machine I).truth header w = false) :
    Finishes I header latch body w (visited var body first top w) := by
  refine ⟨1, fun fuel hfuel => ?_⟩
  rw [visited, integers_of_lt hlt]
  exact loopRun_of_false latch body hfuel hheader

/-- A head that compares the counter with the bound as the numbers that they are. -/
theorem finishes_plain {first top : Int} (hapart : Apart var operand)
    (hbody : Quiet var operand body)
    (hcompare : ∀ i w, first ≤ i → i ≤ max first top → At I var operand last i w →
      ∀ rel, truthy (compare rel (localValue I w var) (value I w operand.expr)) = rel i top)
    (hat : At I var operand last first w) :
    Finishes I (rangeCond false var operand.expr) (rangeLatch false var operand.expr) body w
      (visited var body first top w) := by
  have hheader : ∀ i w, first ≤ i → i ≤ max first top → At I var operand last i w →
      (machine I).truth (rangeCond false var operand.expr) w = decide (i ≤ top) :=
    fun i w hlo htop hat => hcompare i w hlo htop hat _
  have hterminal : ∀ i w, first ≤ i → i ≤ max first top → At I var operand last i w →
      (machine I).truth (rangeTerminal false var operand.expr) w = decide (i = top) :=
    fun i w hlo htop hat => hcompare i w hlo htop hat _
  rcases Int.lt_or_le top first with hlt | hle
  · refine finishes_empty hlt ?_
    rw [hheader first w (Int.le_refl first) (Int.le_max_left first top) hat]
    exact decide_eq_false (Int.not_le.mpr hlt)
  · have hmax : max first top = top := Int.max_eq_right hle
    rw [hmax] at hheader hterminal
    refine finishes_visits id hapart hbody hle ?_ ?_ ?_ hat
    · intro i w hlo htop hat
      rw [hheader i w hlo htop hat]
      exact decide_eq_true htop
    · intro i w hlo htop hat
      refine ⟨?_, nofun⟩
      rw [hterminal i w hlo (Int.le_of_lt htop) hat]
      exact decide_eq_false (Int.ne_of_lt htop)
    · intro w hat
      refine runLatch_terminal ?_
      rw [hterminal top w hle (Int.le_refl top) hat]
      exact decide_eq_true rfl

/-! ### A signed counter below an unsigned bound -/

section Mixed

variable (hty : isSint (I.types var) = true) (hin : InSigned i)

theorem localValue_signed (hty : isSint (I.types var) = true) (h : At I var operand last i w) :
    localValue I w var = .ofI64 (BitVec.ofInt 64 i) := by
  rw [localValue, if_pos hty, h.1]

include hty hin

theorem truth_isNegative (h : At I var operand last i w) :
    truthy (value I w (isNegative var)) = decide (i < 0) := by
  have hzero : value I w (.literal 0 .unknown) = ⟨.int, 0⟩ := rfl
  rw [isNegative, value_lt, value_local, localValue_signed hty h, hzero,
    compare_signed (Or.inr rfl)]
  change decide ((CValue.ofI64 (BitVec.ofInt 64 i)).toInt < 0) = _
  rw [toInt_ofI64 hin]

theorem truth_carrierOverflow (h : At I var operand last i w) :
    (machine I).truth (carrierOverflow var) w = decide (i = 2 ^ 63 - 1) := by
  have hvalue : value I w (.literal (2 ^ 63 - 1) (.sint (some 64))) =
      .ofI64 (BitVec.ofNat 64 (2 ^ 63 - 1)) := by
    rw [value, literalValue]
  have htop : (CValue.ofI64 (BitVec.ofNat 64 (2 ^ 63 - 1))).toInt = 2 ^ 63 - 1 := by decide
  rw [carrierOverflow, machine_truth, value_and, truthy_ofBool, value_not, truthy_ofBool,
    truth_isNegative hty hin h, value_eq, value_local, localValue_signed hty h, hvalue,
    compare_signed (Or.inl rfl), htop]
  have hi : (BitVec.ofInt 64 i).toInt = i := toInt_ofI64 hin
  rw [hi]
  rcases Int.lt_or_le i 0 with hneg | hpos
  · rw [decide_eq_true hneg, decide_eq_false (by omega : i ≠ 2 ^ 63 - 1)]
    rfl
  · rw [decide_eq_false (Int.not_lt.mpr hpos)]
    rfl

variable (hupper : (value I w operand.expr).toInt = last) (hlast : InUnsigned last)

include hupper hlast

theorem truth_unsignedVar (h : At I var operand last i w) (hpos : 0 ≤ i)
    (rel : Int → Int → Bool) :
    truthy (compare rel (value I w (unsignedVar var)) (value I w operand.expr)) =
      rel i last := by
  have hvar : value I w (unsignedVar var) = .ofU64 (BitVec.ofInt 64 i) := by
    rw [unsignedVar, value_unsigned, value_local, localValue_signed hty h]
    exact congrArg CValue.ofU64 (BitVec.signExtend_eq _)
  have hi : InUnsigned i := ⟨hpos, by have := hin.2; omega⟩
  have hvalue := toInt_ofU64 hi
  rw [hvar, compare_unsigned rfl (by rwa [hvalue]) (by rwa [hupper]), hvalue, hupper]

theorem truth_mixedCond (h : At I var operand last i w) :
    (machine I).truth (rangeCond true var operand.expr) w = decide (i ≤ last) := by
  rw [rangeCond, if_pos rfl, machine_truth, value_or, truthy_ofBool, truth_isNegative hty hin h,
    value_le]
  rcases Int.lt_or_le i 0 with hneg | hpos
  · have hle : i ≤ last := by
      have := hlast.1
      omega
    simp [hneg, hle]
  · rw [truth_unsignedVar hty hin hupper hlast h hpos]
    simp [Int.not_lt.mpr hpos]

theorem truth_mixedTerminal (h : At I var operand last i w) :
    (machine I).truth (rangeTerminal true var operand.expr) w = decide (i = last) := by
  rw [rangeTerminal, if_pos rfl, machine_truth, value_and, truthy_ofBool, value_not,
    truthy_ofBool, truth_isNegative hty hin h, value_eq]
  rcases Int.lt_or_le i 0 with hneg | hpos
  · have hne : i ≠ last := by
      have := hlast.1
      omega
    simp [hneg, hne]
  · rw [truth_unsignedVar hty hin hupper hlast h hpos]
    simp [Int.not_lt.mpr hpos]

end Mixed

theorem finishes_mixed {first : Int} (hapart : Apart var operand)
    (hbody : Quiet var operand body) (hty : isSint (I.types var) = true)
    (hfirst : InSigned first) (hlast : InUnsigned last)
    (hupper : ∀ i w, At I var operand last i w → (value I w operand.expr).toInt = last)
    (hat : At I var operand last first w) :
    (last < 2 ^ 63 ∧ Finishes I (rangeCond true var operand.expr)
        (rangeLatch true var operand.expr) body w (visited var body first last w)) ∨
      2 ^ 63 ≤ last ∧ Finishes I (rangeCond true var operand.expr)
        (rangeLatch true var operand.expr) body w
        (overflowReported I (visited var body first (2 ^ 63 - 1) w)) := by
  have hheader : ∀ i w, InSigned i → At I var operand last i w →
      (machine I).truth (rangeCond true var operand.expr) w = decide (i ≤ last) :=
    fun i w hin hat => truth_mixedCond hty hin (hupper i w hat) hlast hat
  have hterminal : ∀ i w, InSigned i → At I var operand last i w →
      (machine I).truth (rangeTerminal true var operand.expr) w = decide (i = last) :=
    fun i w hin hat => truth_mixedTerminal hty hin (hupper i w hat) hlast hat
  -- Every round before the last one leaves both tests of the latch false.
  have hstep : ∀ i w, first ≤ i → i < last → i < 2 ^ 63 - 1 → At I var operand last i w →
      (machine I).truth (rangeTerminal true var operand.expr) w = false ∧
        ∀ e (stmts : List (Stmt Leaf Op)),
          some (carrierOverflow var, overflowEffects) = some (e, stmts) →
          (machine I).truth e w = false := by
    intro i w hlo hlt htop hat
    have hin : InSigned i := ⟨by have := hfirst.1; omega, by omega⟩
    refine ⟨?_, ?_⟩
    · rw [hterminal i w hin hat]
      exact decide_eq_false (Int.ne_of_lt hlt)
    · rintro e stmts heq
      obtain ⟨rfl, rfl⟩ := Prod.mk.inj (Option.some.inj heq)
      rw [truth_carrierOverflow hty hin hat]
      exact decide_eq_false (Int.ne_of_lt htop)
  rcases Int.lt_or_le last (2 ^ 63) with hsmall | hlarge
  · refine Or.inl ⟨hsmall, ?_⟩
    rcases Int.lt_or_le last first with hlt | hle
    · refine finishes_empty hlt ?_
      rw [hheader first w hfirst hat]
      exact decide_eq_false (Int.not_le.mpr hlt)
    · refine finishes_visits id hapart hbody hle ?_ ?_ ?_ hat
      · intro i w hlo htop hat
        rw [hheader i w ⟨by have := hfirst.1; omega, by omega⟩ hat]
        exact decide_eq_true htop
      · exact fun i w hlo hlt hat => hstep i w hlo hlt (by omega) hat
      · intro w hat
        refine runLatch_terminal ?_
        rw [hterminal last w ⟨by have := hlast.1; omega, hsmall⟩ hat]
        exact decide_eq_true rfl
  · refine Or.inr ⟨hlarge, ?_⟩
    have hmax : InSigned (2 ^ 63 - 1) := ⟨by omega, by omega⟩
    refine finishes_visits (overflowReported I) hapart hbody (by have := hfirst.2; omega)
      ?_ ?_ ?_ hat
    · intro i w hlo htop hat
      rw [hheader i w ⟨by have := hfirst.1; omega, by omega⟩ hat]
      exact decide_eq_true (by omega)
    · exact fun i w hlo hlt hat => hstep i w hlo (by omega) hlt hat
    · intro w hat
      refine runLatch_overflow ?_ ?_
      · rw [hterminal _ w hmax hat]
        exact decide_eq_false (by omega)
      · rw [truth_carrierOverflow hty hmax hat]
        exact decide_eq_true rfl

theorem counts_signed {first top : Int} (hty : isSint (I.types var) = true)
    (hfirst : -2 ^ 63 ≤ first) (htop : top < 2 ^ 63) : Counts I var first top := by
  intro i hi w
  obtain ⟨hlo, hhi⟩ := mem_integers.mp hi
  rw [localValue, if_pos hty]
  change (CValue.ofI64 (Function.update w.locals var (BitVec.ofInt 64 i) var)).toInt = i
  rw [Function.update_self, toInt_ofI64 ⟨by omega, by omega⟩]

theorem counts_unsigned {first top : Int} (hty : isSint (I.types var) = false)
    (hfirst : 0 ≤ first) (htop : top < 2 ^ 64) : Counts I var first top := by
  intro i hi w
  obtain ⟨hlo, hhi⟩ := mem_integers.mp hi
  rw [localValue, hty]
  change (CValue.ofU64 (Function.update w.locals var (BitVec.ofInt 64 i) var)).toInt = i
  rw [Function.update_self, toInt_ofU64 ⟨by omega, by omega⟩]

end Rounds

theorem modifyScope_locals (names : NameTable) (change : Scope → Scope) :
    (names.modifyScope change).locals = names.locals := by
  rw [NameTable.modifyScope]
  split <;> rfl

section Heads

variable {L : LeafLowering Ast Atom Leaf Op LeafError}

theorem stash_apart (laws : LocalLaws L) {names : NameTable} (e : Expr Leaf)
    (fallback : IrType) {var : LocalId} (h : var < names.locals.length) :
    Apart var (stashIfImpure L names e fallback) := by
  intro t ht
  rcases stash_cases laws names e fallback with ⟨value, ty, rfl, heq⟩ | ⟨-, hexpr, -⟩
  · rw [heq] at ht
    cases ht
  · cases hexpr.symm.trans ht
    exact Nat.ne_of_gt h

theorem runActions_append {Stmt Expr World : Type} (M : Machine Stmt Expr World)
    (xs ys : List (Action Stmt Expr)) (w : World) :
    (M.runActions (xs ++ ys) w).world = (M.runActions ys (M.runActions xs w).world).world := by
  induction xs generalizing w with
  | nil => rfl
  | cons x xs ih =>
      cases x with
      | effect s => exact ih _
      | suspend s => exact ih _

/-- The temporary of a bound takes its value. -/
theorem stash_held {Rest : Type} {I : Interp Leaf Op Rest}
    {names : NameTable} {e : Expr Leaf} {fallback : IrType} {v : Int} {w : World Rest}
    (htypes : ∀ t, (stashIfImpure L names e fallback).expr = .local t →
      PlannedOperand (stashIfImpure L names e fallback) (I.types t) v)
    (hvalue : (value I w e).toInt = v) :
    Held I (stashIfImpure L names e fallback) v
      ((machine I).runActions (stashIfImpure L names e fallback).actions w).world := by
  intro t ht
  refine ⟨?_, htypes t ht⟩
  have hword : (value I w e).toU64 = BitVec.ofInt 64 v := by
    rw [CValue.toU64, convert_eq, hvalue]
    rfl
  cases e with
  | literal value ty => cases ht
  | _ =>
      cases ht
      exact (Function.update_self ..).trans hword

/-! ### Ranges -/

section Range

variable {names : NameTable} {varName : String} {lo hi : Ast}
  (r : RangeHead L names varName lo hi) {vlo vhi : Int}

/-- From bounds of these values, the loop runs a body that leaves the counter alone once for
each integer of the range in increasing order, or up to the last one that the counter can hold
and then reports the overflow.  The types are those that the counter and the temporary of the
upper bound have in the end. -/
def RangeExact (counterTy boundTy : IrType) (vlo vhi : Int) : Prop :=
  ∀ (Rest : Type) (I : Interp Leaf Op Rest)
    (body : World Rest → EventRun (Stmt Leaf Op) (Expr Leaf) (World Rest)) (w : World Rest),
    I.types r.var = counterTy → (∀ t, r.operand.expr = .local t → I.types t = boundTy) →
    Quiet r.var r.operand body → At I r.var r.operand vhi vlo w →
    Counts I r.var vlo vhi ∧
        Finishes I r.counter.header r.counter.latch body w (visited r.var body vlo vhi w) ∨
      2 ^ 63 ≤ vhi ∧ Counts I r.var vlo (2 ^ 63 - 1) ∧
        Finishes I r.counter.header r.counter.latch body w
          (overflowReported I (visited r.var body vlo (2 ^ 63 - 1) w))

/-- The upper bound is emitted with a signed type. -/
def upperSigned (boundTy : IrType) : Bool :=
  match r.operand.expr with
  | .literal _ (.sint _) => true
  | .literal _ (.uint _) => false
  | .literal value _ => decide (value < 2 ^ 63)
  | _ => isSint boundTy

/-- A head that compares unsigned numbers has a bound that is none, or a counter that cannot
hold the numbers of the range. -/
def UnsignedMisread (counterTy : IrType) (vlo vhi : Int) : Prop :=
  vhi < 0 ∧ 0 ≤ vlo ∧ vlo ≤ vhi + 2 ^ 64 ∨
    vlo ≤ vhi ∧ vlo < 0 ∧ isSint counterTy = false ∨
    vlo ≤ vhi ∧ isSint counterTy = true ∧ (2 ^ 63 ≤ vhi ∨ vlo < 0 ∧ 0 ≤ vhi)

/-- A bound is taken for a number of the other sign. -/
def Misread (counterTy boundTy : IrType) (vlo vhi : Int) : Prop :=
  (r.loSigned = false ∧ r.hiSigned = true ∧ 2 ^ 63 ≤ vlo ∧ vlo - 2 ^ 64 ≤ vhi) ∨
    (r.loSigned = true ∧ r.hiSigned = false ∧ Guessed L r.bound r.hiIr.expr ∧ 2 ^ 63 ≤ vhi) ∨
    r.signed = false ∧ (isSint counterTy && upperSigned r boundTy) = false ∧
      UnsignedMisread counterTy vlo vhi

/-- The bounds have these values when they are evaluated; the evaluation of the upper one
leaves the counter alone. -/
structure RangeEvaluates (I : Interp Leaf Op Rest) (vlo vhi : Int) (start loWorld hiWorld :
    World Rest) : Prop where
  lowerWorld : loWorld = ((machine I).runActions r.loIr.actions start).world
  lower : (value I loWorld r.loIr.expr).toInt = vlo
  upperWorld : hiWorld = ((machine I).runActions r.hiIr.actions
    (loWorld.set r.var (value I loWorld r.loIr.expr).toU64)).world
  keepsCounter : hiWorld.locals r.var = (value I loWorld r.loIr.expr).toU64
  upper : (value I hiWorld r.hiIr.expr).toInt = vhi
  typed : ∀ t, r.operand.expr = .local t → PlannedOperand r.operand (I.types t) vhi

theorem range_apart (laws : LocalLaws L) : Apart r.var r.operand := by
  refine stash_apart laws r.hiIr.expr r.varTy ?_
  have hgrows := laws.addsLocals _ _ _ r.hi_eq
  rw [modifyScope_locals] at hgrows
  have hdeclare : (r.loIr.names.declare varName).2.locals.length = r.var + 1 := by
    simp [RangeHead.var, NameTable.declare, modifyScope_locals]
  have hbound : r.bound.locals = r.hiIr.names.locals := modifyScope_locals ..
  have htyped : r.typed.locals.length = r.hiIr.names.locals.length := by
    rw [RangeHead.typed]
    split_ifs
    · rw [NameTable.setLocalType, List.length_modify, hbound]
    · rw [hbound]
  rw [htyped]
  exact Nat.lt_of_lt_of_le (Nat.lt_of_lt_of_eq (Nat.lt_succ_self _) hdeclare.symm) hgrows

theorem stash_keeps {Rest : Type} (I : Interp Leaf Op Rest) {names : NameTable}
    {e : Expr Leaf} {fallback : IrType} {var : LocalId}
    (hapart : Apart var (stashIfImpure L names e fallback)) (w : World Rest) :
    ((machine I).runActions (stashIfImpure L names e fallback).actions w).world.locals var =
      w.locals var := by
  cases e with
  | literal value ty => rfl
  | _ => exact Function.update_of_ne (hapart _ rfl).symm ..

/-- The statements before the loop put the bounds in place. -/
theorem range_starts (laws : LocalLaws L) {Rest : Type} {I : Interp Leaf Op Rest}
    {start loWorld hiWorld : World Rest}
    (h : RangeEvaluates r I vlo vhi start loWorld hiWorld) :
    At I r.var r.operand vhi vlo ((machine I).runActions r.counter.init start).world := by
  have hworld : ((machine I).runActions r.counter.init start).world =
      ((machine I).runActions r.operand.actions hiWorld).world := by
    change ((machine I).runActions (r.loIr.actions ++
      (.effect (.assign r.var r.loIr.expr) :: r.hiIr.actions) ++ r.operand.actions) _).world = _
    rw [runActions_append, runActions_append, ← h.lowerWorld, h.upperWorld]
    rfl
  rw [hworld]
  refine ⟨?_, stash_held h.typed h.upper⟩
  rw [RangeHead.operand, stash_keeps I (range_apart r laws), h.keepsCounter, CValue.toU64,
    convert_eq, h.lower]
  rfl

theorem varTy_of_unsigned (hsigned : r.signed = false) : r.varTy = .unknown := by
  simp [RangeHead.varTy, hsigned]

/-- Nothing changes the type of a signed counter. -/
theorem counterTy_of_signed {counterTy : IrType} (hsigned : r.signed = true)
    (hcounter : Planned r.varTy counterTy vlo) : isSint counterTy = true := by
  have hvarTy : r.varTy = .sint none := by simp [RangeHead.varTy, hsigned]
  rw [hvarTy] at hcounter
  rcases hcounter with rfl | ⟨hunknown, -⟩
  · rfl
  · cases hunknown

theorem mixed_of_unsigned (hsigned : r.signed = false) : r.mixed = false := by
  rw [RangeHead.mixed, hsigned, Bool.false_and]

/-- The upper bound of an unsigned head where it is not a signed one. -/
theorem value_unsignedUpper (laws : LocalLaws L) {Rest : Type} {I : Interp Leaf Op Rest}
    {boundTy : IrType} {w : World Rest} (hhi : r.UpperValue vhi)
    (hboundTy : ∀ t, r.operand.expr = .local t → I.types t = boundTy)
    (hupper : upperSigned r boundTy = false)
    (hlarge : 2 ^ 63 ≤ vhi → I.cc.largeLiteral = .uint64) (hheld : Held I r.operand vhi w) :
    value I w r.operand.expr = word false (BitVec.ofInt 64 vhi) := by
  rcases operand_cases laws hhi hheld with
    ⟨n, ty, hty', hlt, hvalue, hexpr, heq⟩ | ⟨ty, t, -, hexpr, -, heq⟩
  · have hexpr : r.operand.expr = .literal n ty := hexpr
    rw [upperSigned, hexpr] at hupper
    have hdecimal : literalInt n ty = n → literalValue I n ty = decimal I.cc n →
        decide (n < 2 ^ 63) = false →
        literalValue I n ty = word false (BitVec.ofInt 64 vhi) := by
      intro hint hdec hdecide
      have hge : ¬ n < 2 ^ 63 := of_decide_eq_false hdecide
      rw [hint] at hvalue
      have hcarrier : ∀ c, c = .uint64 → (⟨c, BitVec.ofNat _ n⟩ : CValue) =
          .ofU64 (BitVec.ofNat 64 n) := by
        rintro _ rfl
        rfl
      rw [hdec, decimal, if_neg (by omega), if_neg hge, hcarrier _ (hlarge (by omega)), hvalue,
        BitVec.ofInt_natCast]
      rfl
    refine heq.trans ?_
    cases ty with
    | sint width => cases hupper
    | uint width =>
        rw [hvalue]
        change CValue.ofU64 _ = CValue.ofU64 (BitVec.ofInt 64 ((BitVec.ofNat 64 n).toNat : Int))
        rw [BitVec.ofInt_natCast, BitVec.ofNat_toNat, BitVec.setWidth_eq]
    | _ => exact hdecimal rfl rfl hupper
  · have hexpr : r.operand.expr = .local t := hexpr
    rw [upperSigned, hexpr] at hupper
    have hunsigned : isSint boundTy = false := hupper
    refine heq.trans ?_
    rw [hboundTy t hexpr]
    change word (isSint boundTy) _ = _
    rw [hunsigned]

section Runs

variable {Rest : Type} {I : Interp Leaf Op Rest} {counterTy boundTy : IrType}
  {body : World Rest → EventRun (Stmt Leaf Op) (Expr Leaf) (World Rest)} {w : World Rest}
  (laws : LocalLaws L) (hhi : r.UpperValue vhi) (hty : I.types r.var = counterTy)
  (hbody : Quiet r.var r.operand body)

include laws hhi hty hbody

/-- The loop of an unsigned head runs from and to the residues of the bounds where they are
compared as such. -/
theorem wrapped_visits (hplain : r.PlainUnsigned vlo vhi)
    (hboundTy : ∀ t, r.operand.expr = .local t → I.types t = boundTy)
    (hwords : (isSint counterTy && upperSigned r boundTy) = false)
    (hlarge : isSint counterTy = true → 2 ^ 63 ≤ vhi → I.cc.largeLiteral = .uint64)
    (hat : At I r.var r.operand vhi vlo w) :
    Finishes I r.counter.header r.counter.latch body w
      (visited r.var body (vlo % 2 ^ 64) (vhi % 2 ^ 64) w) := by
  change Finishes I (rangeCond r.mixed _ _) (rangeLatch r.mixed _ _) body w _
  rw [mixed_of_unsigned r hplain.signed]
  have hword : BitVec.ofInt 64 (vlo % 2 ^ 64) = BitVec.ofInt 64 vlo := by
    apply BitVec.eq_of_toNat_eq
    rw [BitVec.toNat_ofInt, BitVec.toNat_ofInt]
    congr 1
    omega
  have hstart : At I r.var r.operand vhi (vlo % 2 ^ 64) w := ⟨hat.1.trans hword.symm, hat.2⟩
  refine finishes_plain (range_apart r laws) hbody ?_ hstart
  intro i w hfirst htop hat rel
  have hi : InUnsigned i := ⟨by omega, by omega⟩
  have hcounter : localValue I w r.var = word (isSint counterTy) (BitVec.ofInt 64 i) := by
    rw [localValue, hty, hat.1]
    rfl
  rw [hcounter]
  cases hsint : isSint counterTy with
  | false => exact compare_operand laws hhi hat.2 hplain.upper hi rel
  | true =>
      rw [hsint, Bool.true_and] at hwords
      rw [value_unsignedUpper r laws hhi hboundTy hwords (hlarge hsint) hat.2]
      refine (compare_words rfl _ _).trans ?_
      rw [toNat_ofInt_word, toNat_ofInt_word, Int.emod_eq_of_lt hi.1 hi.2]

/-- The loop of a signed head runs from and to what the bounds are as signed numbers. -/
theorem signed_visits (hplain : r.PlainSigned) (hvar : isSint counterTy = true)
    (hat : At I r.var r.operand vhi vlo w) :
    Finishes I r.counter.header r.counter.latch body w
      (visited r.var body (BitVec.ofInt 64 vlo).toInt (BitVec.ofInt 64 vhi).toInt w) := by
  rw [← hty] at hvar
  obtain ⟨width, hsint⟩ := hplain.upper
  change Finishes I (rangeCond r.mixed _ _) (rangeLatch r.mixed _ _) body w _
  rw [hplain.mixed]
  have hstart : At I r.var r.operand vhi (BitVec.ofInt 64 vlo).toInt w :=
    ⟨by rw [BitVec.ofInt_toInt, hat.1], hat.2⟩
  refine finishes_plain (range_apart r laws) hbody ?_ hstart
  intro i w hfirst htop hat rel
  have hi : InSigned i := by
    have hlow := BitVec.le_toInt (BitVec.ofInt 64 vlo)
    have hhigh := BitVec.toInt_lt (x := BitVec.ofInt 64 vlo)
    have hhigh' := BitVec.toInt_lt (x := BitVec.ofInt 64 vhi)
    exact ⟨by omega, by omega⟩
  have hread : value I w r.operand.expr = .ofI64 (BitVec.ofInt 64 vhi) :=
    operand_signed laws hhi hat.2 hsint
  rw [localValue_signed hvar hat, hread, compare_signed (Or.inl rfl)]
  exact congrArg (fun x => rel x _) (toInt_ofI64 hi)

theorem mixed_visits (hmixed : r.Mixed vlo vhi) (hvar : isSint counterTy = true)
    (hat : At I r.var r.operand vhi vlo w) :
    Counts I r.var vlo vhi ∧
        Finishes I r.counter.header r.counter.latch body w (visited r.var body vlo vhi w) ∨
      2 ^ 63 ≤ vhi ∧ Counts I r.var vlo (2 ^ 63 - 1) ∧
        Finishes I r.counter.header r.counter.latch body w
          (overflowReported I (visited r.var body vlo (2 ^ 63 - 1) w)) := by
  rw [← hty] at hvar
  have hupper : ∀ i w, At I r.var r.operand vhi i w → (value I w r.operand.expr).toInt = vhi :=
    fun i w hat => operand_unsigned laws hhi hat.2 hmixed.upper hmixed.upperIn
  have hlow := hmixed.lowerIn.1
  change _ ∧ Finishes I (rangeCond r.mixed _ _) (rangeLatch r.mixed _ _) body w _ ∨ _ ∧ _ ∧
    Finishes I (rangeCond r.mixed _ _) (rangeLatch r.mixed _ _) body w _
  rw [hmixed.mixed]
  rcases finishes_mixed (range_apart r laws) hbody hvar hmixed.lowerIn hmixed.upperIn hupper hat
    with ⟨hsmall, hends⟩ | ⟨hlarge, hends⟩
  · exact Or.inl ⟨counts_signed hvar hlow hsmall, hends⟩
  · exact Or.inr ⟨hlarge, counts_signed hvar hlow (by omega), hends⟩

end Runs

theorem toInt_ofInt_of_inSigned {v : Int} (h : InSigned v) : (BitVec.ofInt 64 v).toInt = v :=
  toInt_ofI64 h

/-- An unsigned number that is not a signed one is taken for a negative one. -/
theorem toInt_ofInt_of_large {v : Int} (h : InUnsigned v) (hlarge : 2 ^ 63 ≤ v) :
    (BitVec.ofInt 64 v).toInt = v - 2 ^ 64 := by
  have hwrap : BitVec.ofInt 64 v = BitVec.ofInt 64 (v - 2 ^ 64) := by
    apply BitVec.eq_of_toNat_eq
    rw [BitVec.toNat_ofInt, BitVec.toNat_ofInt]
    congr 1
    omega
  have hhigh := h.2
  rw [hwrap, toInt_ofInt_of_inSigned ⟨by omega, by omega⟩]

/-- The bounds that a signed head reads as they are, or as those of an empty range too. -/
theorem signed_readings {counterTy boundTy : IrType} (laws : LocalLaws L) (hlo : r.LowerValue vlo)
    (hhi : r.UpperValue vhi) (hplain : r.PlainSigned)
    (hread : ¬ Misread r counterTy boundTy vlo vhi) :
    InSigned vlo ∧ InSigned vhi ∨
      vhi < vlo ∧ (BitVec.ofInt 64 vhi).toInt < (BitVec.ofInt 64 vlo).toInt := by
  cases hloSigned : r.loSigned with
  | true =>
      refine Or.inl ⟨hlo.inSigned hloSigned, ?_⟩
      cases hhiSigned : r.hiSigned with
      | true => exact hhi.inSigned hhiSigned
      | false =>
          rcases hhi.carries laws hhiSigned with ⟨hlow, -⟩ | ⟨-, hin, -⟩
          · have hsmall : ¬ 2 ^ 63 ≤ vhi := fun hlarge =>
              hread (Or.inr (Or.inl ⟨hloSigned, hhiSigned, hplain.guessed hhiSigned, hlarge⟩))
            exact ⟨by omega, by omega⟩
          · exact hin
  | false =>
      have hhiSigned : r.hiSigned = true := by
        simpa [RangeHead.signed, hloSigned] using hplain.signed
      have hupper := hhi.inSigned hhiSigned
      rcases hlo.carries laws hloSigned with hlower | ⟨-, hlower, -⟩
      · rcases Int.lt_or_le vlo (2 ^ 63) with hsmall | hlarge
        · have hlow := hlower.1
          exact Or.inl ⟨⟨by omega, hsmall⟩, hupper⟩
        · have hbelow : ¬ vlo - 2 ^ 64 ≤ vhi := fun hle =>
            hread (Or.inl ⟨hloSigned, hhiSigned, hlarge, hle⟩)
          have hhigh := hupper.2
          rw [toInt_ofInt_of_large hlower hlarge, toInt_ofInt_of_inSigned hupper]
          exact Or.inr ⟨by omega, by omega⟩
      · exact Or.inl ⟨hlower, hupper⟩

/-- What a plan may make of the types of a loop head. -/
structure PlannedTypes (counterTy boundTy : IrType) (vlo vhi : Int) : Prop where
  counter : Planned r.varTy counterTy vlo
  bound : PlannedOperand r.operand boundTy vhi

/-- A number of a counter that the plan types signed is a signed one. -/
theorem inSigned_of_planned {counterTy : IrType} (hsigned : r.signed = false)
    (hcounter : Planned r.varTy counterTy vlo) (hsint : isSint counterTy = true) :
    InSigned vlo := by
  rcases hcounter with rfl | ⟨-, hin⟩
  · rw [varTy_of_unsigned r hsigned] at hsint
    cases hsint
  · exact hin hsint

/-- The upper bound of an unsigned head where it is a signed one. -/
theorem value_signedUpper (laws : LocalLaws L) {Rest : Type} {I : Interp Leaf Op Rest}
    {boundTy : IrType} {w : World Rest} (hhi : r.UpperValue vhi) (hplain : r.PlainUnsigned vlo vhi)
    (hboundTy : ∀ t, r.operand.expr = .local t → I.types t = boundTy)
    (hupper : upperSigned r boundTy = true) (hheld : Held I r.operand vhi w) :
    ((value I w r.operand.expr).carrier = .int64 ∨ (value I w r.operand.expr).carrier = .int) ∧
      (value I w r.operand.expr).toInt = vhi ∧ InSigned vhi := by
  rcases operand_cases laws hhi hheld with
    ⟨n, ty, hty', hlt, hvalue, hexpr, heq⟩ | ⟨ty, t, hty', hexpr, hplanned, heq⟩
  · have hexpr : r.operand.expr = .literal n ty := hexpr
    have heq : value I w r.operand.expr = literalValue I n ty := heq
    rw [upperSigned, hexpr] at hupper
    have hread := (literalValue_toInt I hlt ty).trans hvalue.symm
    have hdecimal : literalInt n ty = n → literalValue I n ty = decimal I.cc n →
        decide (n < 2 ^ 63) = true →
        ((literalValue I n ty).carrier = .int64 ∨ (literalValue I n ty).carrier = .int) ∧
          InSigned vhi := by
      intro hint hdec hdecide
      have hsmall : n < 2 ^ 63 := of_decide_eq_true hdecide
      rw [hint] at hvalue
      rw [hdec, decimal, if_pos hsmall]
      refine ⟨?_, by omega, by omega⟩
      split_ifs
      · exact Or.inr rfl
      · exact Or.inl rfl
    rw [heq]
    cases ty with
    | sint width => exact absurd hty' (hplain.upper width)
    | uint width => cases hupper
    | _ =>
        obtain ⟨hcarrier, hin⟩ := hdecimal rfl rfl hupper
        exact ⟨hcarrier, hread, hin⟩
  · have hexpr : r.operand.expr = .local t := hexpr
    have heq : value I w r.operand.expr =
        if isSint (I.types t) then .ofI64 (BitVec.ofInt 64 vhi)
        else .ofU64 (BitVec.ofInt 64 vhi) := heq
    rw [upperSigned, hexpr] at hupper
    have hsint : isSint (I.types t) = true := (congrArg isSint (hboundTy t hexpr)).trans hupper
    have hin : InSigned vhi := by
      rcases hplanned with hactual | ⟨-, hin⟩
      · rw [hactual] at hsint
        cases ty with
        | sint width => exact absurd hty' (hplain.upper width)
        | _ => cases hsint
      · exact hin hsint
    rw [heq, if_pos hsint]
    exact ⟨Or.inl rfl, toInt_ofI64 hin, hin⟩

theorem counts_of_lt {Rest : Type} (I : Interp Leaf Op Rest) (var : LocalId) {first top : Int}
    (hlt : top < first) : Counts I var first top := by
  intro i hi
  rw [integers_of_lt hlt] at hi
  cases hi

/-- A shift of the range by the modulus leaves the words of the counter. -/
theorem visited_shift {Rest : Type} (var : LocalId)
    (body : World Rest → EventRun (Stmt Leaf Op) (Expr Leaf) (World Rest)) (first last : Int)
    (w : World Rest) :
    visited var body (first + 2 ^ 64) (last + 2 ^ 64) w = visited var body first last w := by
  have hset : ∀ (w : World Rest) (i : Int), setCounter var w (i + 2 ^ 64) = setCounter var w i := by
    intro w i
    have hword : BitVec.ofInt 64 (i + 2 ^ 64) = BitVec.ofInt 64 i := by
      apply BitVec.eq_of_toNat_eq
      rw [BitVec.toNat_ofInt, BitVec.toNat_ofInt]
      congr 1
      omega
    rw [setCounter, setCounter, hword]
  have hvisit : ∀ (is : List Int) (w : World Rest),
      visit (setCounter var) (fun w => (body w).world) (is.map fun i => i + 2 ^ 64) w =
        visit (setCounter var) (fun w => (body w).world) is w := by
    intro is
    induction is with
    | nil => exact fun w => rfl
    | cons i is ih =>
        intro w
        rw [List.map_cons, visit, visit, hset, ih]
  have hlength : (last + 2 ^ 64 + 1 - (first + 2 ^ 64)).toNat = (last + 1 - first).toNat := by
    omega
  have hintegers : integers (first + 2 ^ 64) (last + 2 ^ 64) =
      (integers first last).map fun i => i + 2 ^ 64 := by
    rw [integers, integers, hlength, List.map_map]
    refine List.map_congr_left fun k _ => ?_
    change first + 2 ^ 64 + (k : Int) = first + k + 2 ^ 64
    omega
  rw [visited, visited, hintegers, hvisit]

/-- The residues of bounds that are not misread are those of the same range. -/
theorem visited_residues {Rest : Type} {counterTy : IrType} (var : LocalId)
    (body : World Rest → EventRun (Stmt Leaf Op) (Expr Leaf) (World Rest)) (w : World Rest)
    (hlo : InUnsigned vlo ∨ vlo < 0 ∧ InSigned vlo) (hhi : InUnsigned vhi ∨ vhi < 0 ∧ InSigned vhi)
    (hread : ¬ UnsignedMisread counterTy vlo vhi) :
    visited var body (vlo % 2 ^ 64) (vhi % 2 ^ 64) w = visited var body vlo vhi w := by
  rw [UnsignedMisread] at hread
  have hempty : vhi < vlo → vhi % 2 ^ 64 < vlo % 2 ^ 64 →
      visited var body (vlo % 2 ^ 64) (vhi % 2 ^ 64) w = visited var body vlo vhi w := by
    intro hlt hlt'
    rw [visited, visited, integers_of_lt hlt, integers_of_lt hlt']
  rcases hlo with ⟨hlow, hhigh⟩ | ⟨hneg, hlow, -⟩
  · rcases hhi with ⟨hlow', hhigh'⟩ | ⟨hneg', hlow', -⟩
    · rw [Int.emod_eq_of_lt hlow hhigh, Int.emod_eq_of_lt hlow' hhigh']
    · exact hempty (by omega) (by omega)
  · rcases hhi with ⟨hlow', hhigh'⟩ | ⟨hneg', hlow', -⟩
    · -- No counter can hold the numbers of such a range.
      have hle : vlo ≤ vhi := by omega
      cases hsint : isSint counterTy with
      | false => exact absurd (Or.inr (Or.inl ⟨hle, hneg, hsint⟩)) hread
      | true => exact absurd (Or.inr (Or.inr ⟨hle, hsint, Or.inr ⟨hneg, hlow'⟩⟩)) hread
    · have hshift : vlo % 2 ^ 64 = vlo + 2 ^ 64 := by omega
      have hshift' : vhi % 2 ^ 64 = vhi + 2 ^ 64 := by omega
      rw [hshift, hshift', visited_shift]

theorem unsigned_exact {counterTy boundTy : IrType} (laws : LocalLaws L)
    (hhi : r.UpperValue vhi) (hplanned : PlannedTypes r counterTy boundTy vlo vhi)
    (hplain : r.PlainUnsigned vlo vhi) (hread : ¬ Misread r counterTy boundTy vlo vhi)
    {Rest : Type} {I : Interp Leaf Op Rest}
    {body : World Rest → EventRun (Stmt Leaf Op) (Expr Leaf) (World Rest)} {w : World Rest}
    (hty : I.types r.var = counterTy)
    (hboundTy : ∀ t, r.operand.expr = .local t → I.types t = boundTy)
    (hbody : Quiet r.var r.operand body) (hat : At I r.var r.operand vhi vlo w) :
    Counts I r.var vlo vhi ∧
      Finishes I r.counter.header r.counter.latch body w (visited r.var body vlo vhi w) := by
  have hlower := hplain.lowerIn.imp_right fun h => And.intro h.1 h.2.1
  have hupper := hplain.upperIn.imp_right fun h => And.intro h.1 h.2.1
  cases hwords : isSint counterTy && upperSigned r boundTy with
  | true =>
      obtain ⟨hsint, hupperSigned⟩ := Bool.and_eq_true_iff.mp hwords
      have hloIn := inSigned_of_planned r hplain.signed hplanned.counter hsint
      obtain ⟨-, -, hhiIn⟩ := value_signedUpper r laws hhi hplain hboundTy hupperSigned hat.2
      rw [← hty] at hsint
      refine ⟨counts_signed hsint hloIn.1 hhiIn.2, ?_⟩
      change Finishes I (rangeCond r.mixed _ _) (rangeLatch r.mixed _ _) body w _
      rw [mixed_of_unsigned r hplain.signed]
      refine finishes_plain (range_apart r laws) hbody ?_ hat
      intro i w hfirst htop hat rel
      have hi : InSigned i := by
        obtain ⟨hlow, hhigh⟩ := hloIn
        obtain ⟨-, hhigh'⟩ := hhiIn
        exact ⟨by omega, by omega⟩
      obtain ⟨hcarrier, hread', -⟩ :=
        value_signedUpper r laws hhi hplain hboundTy hupperSigned hat.2
      rw [localValue_signed hsint hat, compare_signed hcarrier, hread']
      exact congrArg (fun x => rel x _) (toInt_ofI64 hi)
  | false =>
      have hmisread : ¬ UnsignedMisread counterTy vlo vhi := fun h =>
        hread (Or.inr (Or.inr ⟨hplain.signed, hwords, h⟩))
      have hsmall : isSint counterTy = true → vhi < 2 ^ 63 := by
        intro hsint
        have hloIn := (inSigned_of_planned r hplain.signed hplanned.counter hsint).2
        rcases Int.lt_or_le vhi (2 ^ 63) with hlt | hlarge
        · exact hlt
        · exact absurd (Or.inr (Or.inr ⟨by omega, hsint, Or.inl hlarge⟩)) hmisread
      refine ⟨?_, ?_⟩
      · rcases Int.lt_or_le vhi vlo with hlt | hle
        · exact counts_of_lt I r.var hlt
        · cases hsint : isSint counterTy with
          | true =>
              have hloIn := inSigned_of_planned r hplain.signed hplanned.counter hsint
              have htop := hsmall hsint
              rw [← hty] at hsint
              exact counts_signed hsint hloIn.1 htop
          | false =>
              have hpos : 0 ≤ vlo := Int.not_lt.mp fun hneg =>
                hmisread (Or.inr (Or.inl ⟨hle, hneg, hsint⟩))
              rw [← hty] at hsint
              refine counts_unsigned hsint hpos ?_
              rcases hupper with hupper | ⟨hneg, -⟩
              · exact hupper.2
              · omega
      · rw [← visited_residues r.var body w hlower hupper hmisread]
        refine wrapped_visits r laws hhi hty hbody hplain hboundTy hwords ?_ hat
        intro hsint hlarge
        exact absurd (hsmall hsint) (Int.not_lt.mpr hlarge)

theorem rangeExact_of_read {counterTy boundTy : IrType} (laws : LocalLaws L) (hstable : r.Stable)
    (hlo : r.LowerValue vlo) (hhi : r.UpperValue vhi)
    (hplanned : PlannedTypes r counterTy boundTy vlo vhi)
    (hread : ¬ Misread r counterTy boundTy vlo vhi) : RangeExact r counterTy boundTy vlo vhi := by
  intro Rest I body w hty hboundTy hbody hat
  rcases r.head_cases laws hstable hlo hhi with hplain | hplain | hmixed
  · exact Or.inl
      (unsigned_exact r laws hhi hplanned hplain hread hty hboundTy hbody hat)
  · have hvar := counterTy_of_signed r hplain.signed hplanned.counter
    have hends := signed_visits r laws hhi hty hbody hplain hvar hat
    rw [← hty] at hvar
    rcases signed_readings r laws hlo hhi hplain hread with ⟨hlower, hupper⟩ | ⟨hempty, hempty'⟩
    · rw [toInt_ofInt_of_inSigned hlower, toInt_ofInt_of_inSigned hupper] at hends
      exact Or.inl ⟨counts_signed hvar hlower.1 hupper.2, hends⟩
    · rw [visited, integers_of_lt hempty'] at hends
      refine Or.inl ⟨counts_of_lt I r.var hempty, ?_⟩
      rw [visited, integers_of_lt hempty]
      exact hends
  · have hsigned : r.signed = true := by rw [RangeHead.signed, hmixed.loSigned, Bool.true_or]
    exact mixed_visits r laws hhi hty hbody hmixed
      (counterTy_of_signed r hsigned hplanned.counter) hat

/-! A body that counts its runs tells ranges of different lengths apart. -/

def tally (Leaf Op : Type) (w : World Nat) :
    EventRun (Stmt Leaf Op) (Expr Leaf) (World Nat) :=
  ⟨[], { w with rest := w.rest + 1 }, .normal⟩

def tallyInterp (Leaf Op : Type) (var : LocalId) (varTy boundTy : IrType) :
    Interp Leaf Op Nat where
  cc := ⟨.uint64, Or.inr ⟨rfl, rfl⟩⟩
  types l := if l = var then varTy else boundTy
  other _ _ := ofBool false
  effect _ w := w
  resume _ w := w

def tallyStart (var : LocalId) (first last : Int) : World Nat :=
  ⟨fun l => if l = var then BitVec.ofInt 64 first else BitVec.ofInt 64 last, 0⟩

theorem visited_tally (var : LocalId) (first last : Int) (w : World Nat) :
    (visited var (tally Leaf Op) first last w).rest = w.rest + (last + 1 - first).toNat := by
  have hvisit : ∀ (is : List Int) (w : World Nat),
      (visit (setCounter var) (fun w => (tally Leaf Op w).world) is w).rest =
        w.rest + is.length := by
    intro is
    induction is with
    | nil => exact fun w => rfl
    | cons i is ih =>
        intro w
        rw [visit, ih, List.length_cons, Nat.add_comm is.length 1, ← Nat.add_assoc]
        rfl
  rw [visited, hvisit, integers, List.length_map, List.length_range]

theorem tally_quiet (var : LocalId) (operand : LoweredExpr Leaf Op) :
    Quiet var operand (tally Leaf Op) :=
  ⟨fun _ => Or.inl rfl, fun _ => rfl, fun _ _ _ => rfl⟩

theorem tally_at {var : LocalId} {operand : LoweredExpr Leaf Op} (hapart : Apart var operand)
    (varTy : IrType) {boundTy : IrType} {first last : Int}
    (hbound : PlannedOperand operand boundTy last) :
    At (tallyInterp Leaf Op var varTy boundTy) var operand last first
      (tallyStart var first last) := by
  refine ⟨if_pos rfl, fun t ht => ⟨if_neg (hapart t ht), ?_⟩⟩
  have hty : (tallyInterp Leaf Op var varTy boundTy).types t = boundTy := if_neg (hapart t ht)
  rw [hty]
  exact hbound

/-- Where the tally makes the rounds of some range, an exact head counts the integers of its own
range and makes as many rounds. -/
theorem rounds_of_exact {counterTy boundTy : IrType} (laws : LocalLaws L)
    (hplanned : PlannedTypes r counterTy boundTy vlo vhi)
    (hexact : RangeExact r counterTy boundTy vlo vhi) {first last : Int}
    (hends : Finishes (tallyInterp Leaf Op r.var counterTy boundTy) r.counter.header
      r.counter.latch (tally Leaf Op) (tallyStart r.var vlo vhi)
      (visited r.var (tally Leaf Op) first last (tallyStart r.var vlo vhi))) :
    Counts (tallyInterp Leaf Op r.var counterTy boundTy) r.var vlo vhi ∧
        (last + 1 - first).toNat = (vhi + 1 - vlo).toNat ∨
      2 ^ 63 ≤ vhi ∧
        Counts (tallyInterp Leaf Op r.var counterTy boundTy) r.var vlo (2 ^ 63 - 1) ∧
        (last + 1 - first).toNat = (2 ^ 63 - vlo).toNat := by
  have hapart := range_apart r laws
  have hboundTy : ∀ t, r.operand.expr = .local t →
      (tallyInterp Leaf Op r.var counterTy boundTy).types t = boundTy :=
    fun t ht => if_neg (hapart t ht)
  rcases hexact Nat _ _ _ (if_pos rfl) hboundTy (tally_quiet r.var r.operand)
    (tally_at hapart counterTy hplanned.bound) with ⟨hcounts, hends'⟩ | ⟨hlarge, hcounts, hends'⟩
  · have hrest := congrArg World.rest (hends.unique hends')
    rw [visited_tally, visited_tally] at hrest
    exact Or.inl ⟨hcounts, Nat.add_left_cancel hrest⟩
  · have hrest := congrArg World.rest (hends.unique hends')
    change _ = (visited r.var (tally Leaf Op) vlo (2 ^ 63 - 1) _).rest at hrest
    rw [visited_tally, visited_tally] at hrest
    refine Or.inr ⟨hlarge, hcounts, ?_⟩
    rw [Nat.add_left_cancel hrest, Int.sub_add_cancel]

theorem not_exact_of_unsignedMisread {counterTy boundTy : IrType} (laws : LocalLaws L)
    (hhi : r.UpperValue vhi)
    (hplanned : PlannedTypes r counterTy boundTy vlo vhi) (hplain : r.PlainUnsigned vlo vhi)
    (hwords : (isSint counterTy && upperSigned r boundTy) = false)
    (hmisread : UnsignedMisread counterTy vlo vhi) : ¬ RangeExact r counterTy boundTy vlo vhi := by
  intro hexact
  have hapart := range_apart r laws
  have hty : (tallyInterp Leaf Op r.var counterTy boundTy).types r.var = counterTy := if_pos rfl
  have hrounds := rounds_of_exact r laws hplanned hexact
    (wrapped_visits r laws hhi hty (tally_quiet r.var r.operand) hplain
      (fun t ht => if_neg (hapart t ht)) hwords (fun _ _ => rfl)
      (tally_at hapart counterTy hplanned.bound))
  have hlower := hplain.lowerIn.imp_right fun h => And.intro h.1 h.2.1
  have hupper := hplain.upperIn.imp_right fun h => And.intro h.1 h.2.1
  rcases hmisread with ⟨hneg, hlow, hle⟩ | ⟨hle, hneg, hsint⟩ | ⟨hle, hsint, hvalues⟩
  · omega
  · have hcounts : ∀ {top : Int}, vlo ≤ top →
        ¬ Counts (tallyInterp Leaf Op r.var counterTy boundTy) r.var vlo top := by
      intro top htop hcounts
      have hread := hcounts vlo (mem_integers.mpr ⟨Int.le_refl vlo, htop⟩)
        (tallyStart r.var vlo vhi)
      rw [← hty] at hsint
      rw [localValue, if_neg (by rw [hsint]; decide)] at hread
      have hpos : 0 ≤ vlo := hread ▸ Int.natCast_nonneg _
      omega
    rcases hrounds with ⟨hcounts', -⟩ | ⟨-, hcounts', -⟩
    · exact hcounts hle hcounts'
    · exact hcounts (by omega) hcounts'
  · have hloIn := inSigned_of_planned r hplain.signed hplanned.counter hsint
    obtain ⟨hlow, hhigh⟩ := hloIn
    rcases hrounds with ⟨hcounts, hlength⟩ | ⟨hlarge, -, hlength⟩
    · have hread := hcounts vhi (mem_integers.mpr ⟨hle, Int.le_refl vhi⟩)
        (tallyStart r.var vlo vhi)
      rw [← hty] at hsint
      rw [localValue, if_pos hsint] at hread
      have htop : vhi < 2 ^ 63 := hread ▸ BitVec.toInt_lt
      omega
    · have htop : vhi < 2 ^ 64 := by
        rcases hupper with hupper | ⟨hneg, -⟩
        · exact hupper.2
        · omega
      omega

theorem not_rangeExact_of_misread {counterTy boundTy : IrType} (laws : LocalLaws L)
    (hstable : r.Stable) (hlo : r.LowerValue vlo) (hhi : r.UpperValue vhi)
    (hplanned : PlannedTypes r counterTy boundTy vlo vhi)
    (hmisread : Misread r counterTy boundTy vlo vhi) :
    ¬ RangeExact r counterTy boundTy vlo vhi := by
  intro hexact
  have hplain : r.PlainSigned := by
    rcases r.head_cases laws hstable hlo hhi with hplain | hplain | hmixed
    · obtain ⟨hloSigned, hhiSigned⟩ := Bool.or_eq_false_iff.mp hplain.signed
      rcases hmisread with ⟨-, htrue, -⟩ | ⟨htrue, -⟩ | ⟨-, hwords, hmisread⟩
      · exact absurd (htrue.symm.trans hhiSigned) (by decide)
      · exact absurd (htrue.symm.trans hloSigned) (by decide)
      · exact absurd hexact
          (not_exact_of_unsignedMisread r laws hhi hplanned hplain hwords hmisread)
    · exact hplain
    · have hsigned : r.signed = true := by rw [RangeHead.signed, hmixed.loSigned, Bool.true_or]
      rcases hmisread with ⟨-, htrue, -⟩ | ⟨-, -, hguessed, -⟩ | ⟨hfalse, -⟩
      · exact absurd (htrue.symm.trans hmixed.hiSigned) (by decide)
      · exact absurd hguessed hmixed.known
      · exact absurd (hsigned.symm.trans hfalse) (by decide)
  have hapart := range_apart r laws
  have hty : (tallyInterp Leaf Op r.var counterTy boundTy).types r.var = counterTy := if_pos rfl
  have hvar := counterTy_of_signed r hplain.signed hplanned.counter
  -- The number of rounds made, against those of the two outcomes that are allowed.
  have hrounds := rounds_of_exact r laws hplanned hexact
    (signed_visits r laws hhi hty (tally_quiet r.var r.operand) hplain hvar
      (tally_at hapart counterTy hplanned.bound))
  rcases hmisread with ⟨hloSigned, hhiSigned, hlarge, hle⟩ | ⟨hloSigned, hhiSigned, -, hlarge⟩ |
    ⟨hfalse, -⟩
  · have hupper := hhi.inSigned hhiSigned
    have hlower := (hlo.carries laws hloSigned).resolve_right fun h => by omega
    rw [toInt_ofInt_of_large hlower hlarge, toInt_ofInt_of_inSigned hupper] at hrounds
    have hhigh := hupper.2
    omega
  · have hlower := hlo.inSigned hloSigned
    have hupper := (hhi.carries laws hhiSigned).resolve_right fun h => by omega
    rw [toInt_ofInt_of_large hupper hlarge, toInt_ofInt_of_inSigned hlower] at hrounds
    have hhigh := hupper.2
    have hhigh' := hlower.2
    omega
  · exact absurd (hplain.signed.symm.trans hfalse) (by decide)

theorem rangeExact_iff {counterTy boundTy : IrType} (laws : LocalLaws L) (hstable : r.Stable)
    (hlo : r.LowerValue vlo) (hhi : r.UpperValue vhi)
    (hplanned : PlannedTypes r counterTy boundTy vlo vhi) :
    RangeExact r counterTy boundTy vlo vhi ↔ ¬ Misread r counterTy boundTy vlo vhi :=
  ⟨fun hexact hmisread =>
    not_rangeExact_of_misread r laws hstable hlo hhi hplanned hmisread hexact,
    rangeExact_of_read r laws hstable hlo hhi hplanned⟩

end Range

/-! ### Repetitions -/

section Repeat

variable {names : NameTable} {count : Ast} (r : RepeatHead L names count) {n : Int}

namespace RepeatHead

def Stable (r : RepeatHead L names count) : Prop :=
  L.exprType r.typed.freshTemp.2 r.countIr.expr = L.exprType r.countIr.names r.countIr.expr

def CountValue (r : RepeatHead L names count) (n : Int) : Prop :=
  BoundValue L r.countIr.names count r.countIr.expr n

end RepeatHead

/-- With a count of this value, the loop runs a body that leaves the counter alone `max 0 n`
times.  The type is the one that the temporary of the count has in the end. -/
def RepeatExact (boundTy : IrType) (n : Int) : Prop :=
  ∀ (Rest : Type) (I : Interp Leaf Op Rest)
    (body : World Rest → EventRun (Stmt Leaf Op) (Expr Leaf) (World Rest)) (w : World Rest),
    I.types r.var = r.varTy → (∀ t, r.operand.expr = .local t → I.types t = boundTy) →
    Quiet r.var r.operand body → At I r.var r.operand n 0 w →
    Counts I r.var 0 (n - 1) ∧
      Finishes I r.counter.header r.counter.latch body w
        (setCounter r.var (visited r.var body 0 (n - 1) w) (max 0 n))

theorem repeat_apart (laws : LocalLaws L) : Apart r.var r.operand := by
  refine stash_apart laws r.countIr.expr r.varTy ?_
  obtain ⟨bound, hbound, hrest⟩ := bind_eq_ok.mp r.count_eq
  obtain ⟨-, -, hrest⟩ := bind_eq_ok.mp hrest
  obtain rfl := pure_eq_ok.mp hrest
  have hgrows := laws.addsLocals _ _ _ (liftLeaf_eq_ok.mp hbound)
  have hfresh : names.freshTemp.2.locals.length = r.var + 1 := by
    simp [RepeatHead.var, NameTable.freshTemp]
  have htyped : r.typed.locals.length = r.countIr.names.locals.length := by
    rw [RepeatHead.typed]
    split_ifs
    · rw [NameTable.setLocalType, List.length_modify]
    · rfl
  rw [htyped]
  exact Nat.lt_of_lt_of_le (Nat.lt_of_lt_of_eq (Nat.lt_succ_self _) hfresh.symm) hgrows

structure RepeatEvaluates (I : Interp Leaf Op Rest) (n : Int) (start world : World Rest) :
    Prop where
  countWorld : world =
    ((machine I).runActions r.countIr.actions (setCounter r.var start 0)).world
  keepsCounter : world.locals r.var = 0
  count : (value I world r.countIr.expr).toInt = n
  typed : ∀ t, r.operand.expr = .local t → PlannedOperand r.operand (I.types t) n

theorem repeat_starts (laws : LocalLaws L) {Rest : Type} {I : Interp Leaf Op Rest}
    {start world : World Rest} (h : RepeatEvaluates r I n start world) :
    At I r.var r.operand n 0 ((machine I).runActions r.counter.init start).world := by
  have hworld : ((machine I).runActions r.counter.init start).world =
      ((machine I).runActions r.operand.actions world).world := by
    change ((machine I).runActions
      ((.effect (.assign r.var (.literal 0 .unknown)) :: r.countIr.actions) ++
        r.operand.actions) _).world = _
    rw [runActions_append, h.countWorld]
    rfl
  rw [hworld]
  refine ⟨?_, stash_held h.typed h.count⟩
  rw [RepeatHead.operand, stash_keeps I (repeat_apart r laws), h.keepsCounter]
  rfl

/-- A loop without a terminal test is left at its head. -/
theorem finishes_counts {Rest : Type} {I : Interp Leaf Op Rest} {var : LocalId}
    {operand : LoweredExpr Leaf Op}
    {body : World Rest → EventRun (Stmt Leaf Op) (Expr Leaf) (World Rest)} {w : World Rest}
    {header : Expr Leaf} {top : Int} (hapart : Apart var operand)
    (hbody : Quiet var operand body)
    (hheader : ∀ i w, 0 ≤ i → i ≤ max 0 top → At I var operand n i w →
      (machine I).truth header w = decide (i < top))
    (hat : At I var operand n 0 w) :
    Finishes I header ⟨none, none, increment var⟩ body w
      (setCounter var (visited var body 0 (top - 1) w) (max 0 top)) := by
  refine ⟨(max 0 top).toNat + 1, fun fuel hfuel => ?_⟩
  have hset : ∀ i w, At I var operand n i w → setCounter var w i = w :=
    fun i w hat => setCounter_of_at hat
  have hheader' : ∀ i w, 0 ≤ i → i ≤ max 0 top → At I var operand n i w →
      (machine I).truth header w = decide (i < max 0 top) := by
    intro i w hlo htop hat
    rw [hheader i w hlo htop hat]
    exact decide_eq_decide.mpr (by omega)
  have hstep : ∀ i w, 0 ≤ i → i < max 0 top → At I var operand n i w →
      ((machine I).runLatch ⟨none, none, increment var⟩ w).outcome = .normal ∧
        ((machine I).runLatch ⟨none, none, increment var⟩ w).world =
          setCounter var w (i + 1) ∧ At I var operand n (i + 1) (setCounter var w (i + 1)) :=
    fun i w _ _ hat =>
      ⟨rfl, exec_increment_of_at hat, at_setCounter hapart hat (i + 1)⟩
  have hrun := loopRun_counts hset (fun i w hat => at_body hbody hat) hheader' hstep
    (fun i j w => setCounter_setCounter var w i j) (max 0 top).toNat 0 w (Int.le_refl 0)
    (by omega) hat fuel (by omega)
  have hvisits : integers 0 (max 0 top - 1) = integers 0 (top - 1) := by
    rcases Int.lt_or_le top 0 with hneg | hpos
    · rw [integers_of_lt (by omega), integers_of_lt (by omega)]
    · rw [Int.max_eq_right hpos]
  rw [hvisits] at hrun
  exact hrun

/-- An unsigned counter runs up to the residue of the count. -/
theorem wrapped_counts (laws : LocalLaws L) (hstable : RepeatHead.Stable r)
    (hcount : RepeatHead.CountValue r n) (hsigned : r.signed = false) {Rest : Type}
    {I : Interp Leaf Op Rest}
    {body : World Rest → EventRun (Stmt Leaf Op) (Expr Leaf) (World Rest)} {w : World Rest}
    (hty : I.types r.var = r.varTy) (hbody : Quiet r.var r.operand body)
    (hat : At I r.var r.operand n 0 w) :
    Finishes I r.counter.header r.counter.latch body w
      (setCounter r.var (visited r.var body 0 (n % 2 ^ 64 - 1) w) (max 0 (n % 2 ^ 64))) := by
  have hvarTy : r.varTy = .unknown := by simp [RepeatHead.varTy, hsigned]
  have hvar : isSint (I.types r.var) = false := by
    rw [hty, hvarTy]
    rfl
  have hupper : ∀ width, operandTy L r.typed r.countIr.expr r.varTy ≠ some (.sint width) := by
    intro width hsint
    rw [hvarTy] at hsint
    rcases operandTy_of_unsigned laws .unknown hcount hstable hsigned with
      ⟨width', hty'⟩ | hty' | ⟨-, hty'⟩
    all_goals cases hty'.symm.trans hsint
  refine finishes_counts (repeat_apart r laws) hbody ?_ hat
  intro i w hlo htop hat
  have hcounter : localValue I w r.var = .ofU64 (BitVec.ofInt 64 i) := by
    rw [localValue, hvar, hat.1]
    rfl
  change truthy (compare _ (localValue I w r.var) (value I w r.operand.expr)) = _
  rw [hcounter]
  exact compare_operand laws hcount hat.2 hupper ⟨hlo, by omega⟩ _

theorem repeatExact_of_read {boundTy : IrType} (laws : LocalLaws L)
    (hstable : RepeatHead.Stable r) (hcount : RepeatHead.CountValue r n)
    (hread : r.signed = true ∨ 0 ≤ n) : RepeatExact r boundTy n := by
  intro Rest I body w hty _ hbody hat
  cases hsigned : r.signed with
  | true =>
      have hvarTy : r.varTy = .sint none := by simp [RepeatHead.varTy, hsigned]
      have hvar : isSint (I.types r.var) = true := by
        rw [hty, hvarTy]
        rfl
      have hin := BoundValue.inSigned hcount hsigned
      obtain ⟨width, hsint⟩ := operandTy_of_signed laws hcount hstable hsigned
      rw [← hvarTy] at hsint
      have hhigh := hin.2
      refine ⟨counts_signed hvar (by omega) (by omega), ?_⟩
      refine finishes_counts (repeat_apart r laws) hbody ?_ hat
      intro i w hlo htop hat
      have hread : value I w r.operand.expr = .ofI64 (BitVec.ofInt 64 n) :=
        operand_signed laws hcount hat.2 hsint
      change truthy (compare _ (localValue I w r.var) (value I w r.operand.expr)) = _
      rw [localValue_signed hvar hat, hread, compare_signed (Or.inl rfl), toInt_ofI64 hin]
      change decide ((CValue.ofI64 (BitVec.ofInt 64 i)).toInt < n) = _
      rw [toInt_ofI64 ⟨by omega, by omega⟩]
  | false =>
      have hvar : isSint (I.types r.var) = false := by
        rw [hty, RepeatHead.varTy, hsigned]
        rfl
      have hpos : 0 ≤ n := hread.resolve_left (by rw [hsigned]; decide)
      have hin := (BoundValue.carries laws hcount hsigned).resolve_right fun h => by omega
      have hends := wrapped_counts r laws hstable hcount hsigned hty hbody hat
      rw [Int.emod_eq_of_lt hpos hin.2] at hends
      have hhigh := hin.2
      exact ⟨counts_unsigned hvar (Int.le_refl 0) (by omega), hends⟩

theorem repeatExact_iff {boundTy : IrType} (laws : LocalLaws L) (hstable : RepeatHead.Stable r)
    (hcount : RepeatHead.CountValue r n) (hbound : PlannedOperand r.operand boundTy n) :
    RepeatExact r boundTy n ↔ r.signed = true ∨ 0 ≤ n := by
  refine ⟨fun hexact => ?_, repeatExact_of_read r laws hstable hcount⟩
  cases hsigned : r.signed with
  | true => exact Or.inl rfl
  | false =>
      -- The tally makes as many rounds as the residue of a negative count.
      refine Or.inr (Int.not_lt.mp fun hneg => ?_)
      have hapart := repeat_apart r laws
      have hty : (tallyInterp Leaf Op r.var r.varTy boundTy).types r.var = r.varTy := if_pos rfl
      have hquiet := tally_quiet r.var r.operand
      have hat : At _ r.var r.operand n 0 (tallyStart r.var 0 n) :=
        tally_at hapart r.varTy hbound
      have hends := wrapped_counts r laws hstable hcount hsigned hty hquiet hat
      obtain ⟨-, hends'⟩ := hexact Nat _ _ _ hty (fun t ht => if_neg (hapart t ht)) hquiet hat
      have hrest := congrArg World.rest (hends.unique hends')
      change (visited r.var (tally Leaf Op) 0 (n % 2 ^ 64 - 1) _).rest =
        (visited r.var (tally Leaf Op) 0 (n - 1) _).rest at hrest
      rw [visited_tally, visited_tally] at hrest
      have hin := ((BoundValue.carries laws hcount hsigned).resolve_left fun h => by
        have hpos := h.1
        omega).2.1.1
      omega

end Repeat

/-- A numeric range is run as it reads exactly when neither bound is misread, and `repeat`
exactly when its count is not a negative number that no type shows. -/
theorem counted_loops_exact (L : LeafLowering Ast Atom Leaf Op LeafError) (laws : LocalLaws L)
    (names : NameTable) :
    (∀ varName lo hi counter, lowerRangeBounds L names varName lo hi = .ok counter →
      ∃ r : RangeHead L names varName lo hi, counter = r.counter ∧
        (r.Stable → ∀ vlo vhi, r.LowerValue vlo → r.UpperValue vhi →
          (∀ (Rest : Type) (I : Interp Leaf Op Rest) (start loWorld hiWorld : World Rest),
            RangeEvaluates r I vlo vhi start loWorld hiWorld →
            At I r.var r.operand vhi vlo ((machine I).runActions counter.init start).world) ∧
          ∀ counterTy boundTy, PlannedTypes r counterTy boundTy vlo vhi →
            (RangeExact r counterTy boundTy vlo vhi ↔
              ¬ Misread r counterTy boundTy vlo vhi))) ∧
    ∀ count counter, lowerRepeatCount L names count = .ok counter →
      ∃ r : RepeatHead L names count, counter = r.counter ∧
        (RepeatHead.Stable r → ∀ n, RepeatHead.CountValue r n →
          (∀ (Rest : Type) (I : Interp Leaf Op Rest) (start world : World Rest),
            RepeatEvaluates r I n start world →
            At I r.var r.operand n 0 ((machine I).runActions counter.init start).world) ∧
          ∀ boundTy, PlannedOperand r.operand boundTy n →
            (RepeatExact r boundTy n ↔ r.signed = true ∨ 0 ≤ n)) := by
  refine ⟨?_, ?_⟩
  · intro varName lo hi counter hlower
    obtain ⟨r, rfl⟩ := lowerRangeBounds_head hlower
    refine ⟨r, rfl, fun hstable vlo vhi hlo hhi => ⟨?_, ?_⟩⟩
    · intro Rest I start loWorld hiWorld h
      exact range_starts r laws h
    · intro counterTy boundTy hplanned
      exact rangeExact_iff r laws hstable hlo hhi hplanned
  · intro count counter hlower
    obtain ⟨r, rfl⟩ := lowerRepeatCount_head hlower
    refine ⟨r, rfl, fun hstable n hcount => ⟨?_, ?_⟩⟩
    · intro Rest I start world h
      exact repeat_starts r laws h
    · intro boundTy hbound
      exact repeatExact_iff r laws hstable hcount hbound

end Heads

/-! ### Bounds that are expressions of the IR already -/

def scalarType (names : NameTable) : Expr Empty → Option IrType
  | .literal _ ty => some ty
  | .local l => (names.locals[l]?).map TypedLocal.ty
  | _ => none

def scalarLowering : LeafLowering (Expr Empty) Empty Empty Empty Empty where
  lowerExprNoPorts names e := .ok ⟨[], e, names⟩
  lowerAtom _ atom := atom.elim
  validateTruthExpr _ _ _ := .ok ()
  validateNumericExpr _ _ _ := .ok ()
  exprType := scalarType
  foldConst _ := none
  foldConstExact _ := none
  lowerExprNoPorts_scopes := by
    rintro names ast r ⟨⟩
    rfl
  lowerAtom_scopes := by
    rintro names atom
    exact atom.elim

theorem scalarLaws : LocalLaws scalarLowering where
  typeOfLiteral _ _ _ := rfl
  typeOfLocal _ _ := rfl
  addsLocals := by
    rintro names ast r ⟨⟩
    exact Nat.le_refl _

theorem literal_value {names : NameTable} {n : Nat} (h : n < 2 ^ 64) :
    BoundValue scalarLowering names (.literal n .unknown) (.literal n .unknown) n where
  inType := Or.inl ⟨by omega, by omega⟩
  const := nofun
  literal := by
    rintro value ty ⟨⟩
    exact ⟨h, rfl⟩

/-- What a port `s : sint<8>` of the DUT was read into: no type is known of it when the loop is
lowered. -/
def portNames : NameTable :=
  ⟨[⟨"s", .unknown⟩], ["s"], [[("s", 0)]], 0⟩

theorem port_value {names : NameTable} {v : Int} (hin : InSigned v)
    (hunknown : (names.locals[0]?).map TypedLocal.ty = some .unknown) :
    BoundValue scalarLowering names (.local 0) (.local 0) v where
  inType := by
    change InType v ((names.locals[0]?).map TypedLocal.ty)
    rw [hunknown]
    exact Or.inr hin
  const := nofun
  literal := by
    rintro value ty ⟨⟩

/-- The plan gives the temporary of the bound the type of the port. -/
theorem port_planned {operand : LoweredExpr Empty Empty} {t : LocalId} {v : Int}
    (hexpr : operand.expr = .local t) (hin : InSigned v)
    (hunknown : (operand.names.locals[t]?).map TypedLocal.ty = some .unknown) :
    PlannedOperand operand (.sint (some 8)) v := by
  intro t' ht
  cases hexpr.symm.trans ht
  exact ⟨.unknown, hunknown, Or.inr ⟨rfl, fun _ => hin⟩⟩

/-- `for i in 0 .. s` and `repeat s` where the port holds 3. -/
theorem counted_loops_exact_port :
    (∃ r : RangeHead scalarLowering portNames "i" (.literal 0 .unknown) (.local 0),
      RangeExact r .unknown (.sint (some 8)) 0 3) ∧
    ∃ r : RepeatHead scalarLowering portNames (.local 0), RepeatExact r (.sint (some 8)) 3 := by
  obtain ⟨hranges, hrepeats⟩ := counted_loops_exact scalarLowering scalarLaws portNames
  refine ⟨?_, ?_⟩
  · obtain ⟨⟨loIr, hiIr, hlo, hhi⟩, -, h⟩ := hranges "i" (.literal 0 .unknown) (.local 0) _ rfl
    obtain rfl := Except.ok.inj hlo
    obtain rfl := Except.ok.inj hhi
    refine ⟨_, ((h rfl 0 3 (literal_value (by decide)) (port_value ⟨by decide, by decide⟩ rfl)).2
      .unknown (.sint (some 8)) ⟨Or.inl rfl, port_planned rfl ⟨by decide, by decide⟩ rfl⟩).mpr ?_⟩
    rintro (⟨-, hsigned, -⟩ | ⟨hsigned, -⟩ | ⟨-, -, hneg | hneg | hlarge⟩)
    · cases hsigned
    · cases hsigned
    · exact absurd hneg (by decide)
    · exact absurd hneg (by decide)
    · exact absurd hlarge (by decide)
  · obtain ⟨⟨countIr, hcount⟩, -, h⟩ := hrepeats (.local 0) _ rfl
    obtain rfl := Except.ok.inj hcount
    exact ⟨_, ((h rfl 3 (port_value ⟨by decide, by decide⟩ rfl)).2 (.sint (some 8))
      (port_planned rfl ⟨by decide, by decide⟩ rfl)).mpr (Or.inr (by decide))⟩

/-- An unsigned lower bound of the upper half and a signed upper bound. -/
def mixedNames : NameTable :=
  ⟨[⟨"a", .uint (some 64)⟩, ⟨"b", .sint (some 8)⟩], ["b", "a"], [[("b", 1), ("a", 0)]], 0⟩

def mixedHead : RangeHead scalarLowering mixedNames "i" (.local 0) (.local 1) :=
  ⟨⟨[], .local 0, mixedNames⟩, ⟨[], .local 1, _⟩, rfl, rfl⟩

def portHead : RangeHead scalarLowering portNames "i" (.literal 0 .unknown) (.local 0) :=
  ⟨⟨[], .literal 0 .unknown, portNames⟩, ⟨[], .local 0, _⟩, rfl, rfl⟩

def portRepeat : RepeatHead scalarLowering portNames (.local 0) :=
  ⟨⟨[], .local 0, _⟩, rfl⟩

/-- `for i in a .. b` with `a = 2 ^ 63` and `b = 5`, and `for i in 0 .. s` and `repeat s` with a
port that holds `-1`, run their bodies. -/
theorem mixed_range_not_exact :
    (lowerRangeBounds scalarLowering mixedNames "i" (.local 0) (.local 1) =
        .ok mixedHead.counter ∧
      mixedHead.LowerValue (2 ^ 63) ∧ mixedHead.UpperValue 5 ∧
      ¬ RangeExact mixedHead (.sint none) (.sint (some 8)) (2 ^ 63) 5) ∧
    (lowerRangeBounds scalarLowering portNames "i" (.literal 0 .unknown) (.local 0) =
        .ok portHead.counter ∧
      portHead.LowerValue 0 ∧ portHead.UpperValue (-1) ∧
      ¬ RangeExact portHead .unknown (.sint (some 8)) 0 (-1)) ∧
    lowerRepeatCount scalarLowering portNames (.local 0) = .ok portRepeat.counter ∧
      RepeatHead.CountValue portRepeat (-1) ∧
      ¬ RepeatExact portRepeat (.sint (some 8)) (-1) := by
  refine ⟨?_, ?_, ?_⟩
  · have hlo : mixedHead.LowerValue (2 ^ 63) :=
      ⟨⟨by decide, by decide, by decide⟩, nofun, nofun⟩
    have hhi : mixedHead.UpperValue 5 := ⟨⟨by decide, by decide, by decide⟩, nofun, nofun⟩
    have hplanned : PlannedTypes mixedHead (.sint none) (.sint (some 8)) (2 ^ 63) 5 := by
      refine ⟨Or.inl rfl, ?_⟩
      rintro t ⟨⟩
      exact ⟨.sint (some 8), rfl, Or.inl rfl⟩
    refine ⟨rfl, hlo, hhi, not_rangeExact_of_misread mixedHead scalarLaws rfl hlo hhi hplanned ?_⟩
    exact Or.inl ⟨rfl, rfl, by decide, by decide⟩
  · have hlo : portHead.LowerValue 0 := literal_value (by decide)
    have hhi : portHead.UpperValue (-1) := port_value ⟨by decide, by decide⟩ rfl
    refine ⟨rfl, hlo, hhi, not_rangeExact_of_misread portHead scalarLaws rfl hlo hhi
      ⟨Or.inl rfl, port_planned rfl ⟨by decide, by decide⟩ rfl⟩ ?_⟩
    exact Or.inr (Or.inr ⟨rfl, rfl, Or.inl (by decide)⟩)
  · have hcount : RepeatHead.CountValue portRepeat (-1) := port_value ⟨by decide, by decide⟩ rfl
    refine ⟨rfl, hcount, fun hexact => ?_⟩
    rcases (repeatExact_iff portRepeat scalarLaws rfl hcount
      (port_planned rfl ⟨by decide, by decide⟩ rfl)).mp hexact with hsigned | hpos
    · cases hsigned
    · exact absurd hpos (by decide)

end Harc.RangeVisits
