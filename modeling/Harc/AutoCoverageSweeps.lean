import Harc.AutoCoverageMarks
import Harc.RandomizeSite
import Harc.Sweeps

/-!
Calls of `randomize` over the marks of automatic coverage (`src/codegen/randomize_renderer.rs`).

A call selects with the crosses first and the points after them, ends a sweep if nothing was
selected, and then marks.  Seen from outside, it is a turn of a sweep over the bins.
-/

namespace Harc.AutoCoverageSweeps

open Harc.AutoCoverageMarks
open Harc.RandomizeSite (carrierWidth solverBvValue modelCarrier width_le_carrierWidth)
open Harc.Sweeps
open Harc.Sweeps.Marks (pick)

/-! ### Calls -/

def selectors (plan : Plan) : List Op :=
  (List.range plan.crosses.length).map Op.chooseCross ++
    (List.range plan.points.length).map Op.choosePoint

def callOps (plan : Plan) (body : List Mark) : List Op :=
  .reset :: (selectors plan ++ .finish :: body.map Op.mark)

def call (plan : Plan) (state : State) (body : List Mark) : Run :=
  run plan (callOps plan body) { state := state }

/-- The state before the call number `n`. -/
def stateAt (plan : Plan) (bodies : Nat → List Mark) : Nat → State
  | 0 => {}
  | n + 1 => (call plan (stateAt plan bodies n) (bodies n)).state

/-- What the call number `n` selects. -/
def selectedAt (plan : Plan) (bodies : Nat → List Mark) (n : Nat) : Selection :=
  (call plan (stateAt plan bodies n) (bodies n)).selection

/-- The mark hits, blocks or defers the bin when it is the selected one. -/
def Settles (bin : Bin) (m : Mark) : Prop := m = .hit bin ∨ m.Blocks bin ∨ m = .defer

/-! ### A call as a turn -/

def view (plan : Plan) (state : State) : Marks Bin where
  closed bin := hit plan state bin || blocked plan state bin
  deferred := deferred plan state

theorem view_isOpen (plan : Plan) (state : State) :
    (view plan state).isOpen = isOpen plan state := by
  funext bin
  change (!(hit plan state bin || blocked plan state bin) && !deferred plan state bin) = _
  rw [Bool.not_or]
  rfl

/-- Selectors in a row: the first open bin of all their groups. -/
theorem run_selectors {plan : Plan} {α : Type} (op : α → Op) (group : α → List Bin)
    (hop : ∀ (a : α) (r : Run), Started plan r.state → step plan r (op a) =
      if r.selection.isSome then r
      else ⟨init plan r.state, (group a).find? (isOpen plan r.state)⟩) (l : List α) :
    ∀ r : Run, Started plan r.state →
      (run plan (l.map op) r).selection =
          r.selection.or ((l.flatMap group).find? (isOpen plan r.state)) ∧
        ((run plan (l.map op) r).state = r.state ∨
          (run plan (l.map op) r).state = init plan r.state) := by
  induction l with
  | nil =>
      intro r _
      exact ⟨(Option.or_none ..).symm, .inl rfl⟩
  | cons a l ih =>
      intro r h
      change (run plan (l.map op) (step plan r (op a))).selection = _ ∧
        ((run plan (l.map op) (step plan r (op a))).state = _ ∨
          (run plan (l.map op) (step plan r (op a))).state = _)
      rw [hop a r h]
      cases hselection : r.selection with
      | some bin =>
          rw [if_pos (by rfl)]
          obtain ⟨hrest, hstate⟩ := ih r h
          rw [hselection] at hrest
          exact ⟨hrest, hstate⟩
      | none =>
          rw [if_neg (by exact Bool.false_ne_true)]
          have hopen : isOpen plan (init plan r.state) = isOpen plan r.state := by
            funext bin
            exact isOpen_init h bin
          obtain ⟨hrest, hstate⟩ := ih ⟨init plan r.state, _⟩ (.inr h.init)
          rw [hrest, hopen, List.flatMap_cons, List.find?_append, Option.none_or]
          refine ⟨rfl, .inr ?_⟩
          rcases hstate with hstate | hstate
          · exact hstate
          · rw [hstate, h.init.init_eq]

theorem run_append (plan : Plan) (xs ys : List Op) (r : Run) :
    run plan (xs ++ ys) r = run plan ys (run plan xs r) := List.foldl_append

theorem run_marks (plan : Plan) (selection : Selection) (body : List Mark) :
    ∀ state : State, run plan (body.map Op.mark) ⟨state, selection⟩ =
      ⟨body.foldl (applyMark plan selection) state, selection⟩ := by
  induction body with
  | nil => exact fun _ => rfl
  | cons m body ih => exact fun state => ih (applyMark plan selection state m)

/-- The selection of a call is the first open bin, and its selectors change no flag. -/
theorem run_all_selectors {plan : Plan} {state : State} (h : Started plan state) :
    (run plan (selectors plan) { state := state }).selection =
        plan.bins.find? (isOpen plan state) ∧
      ((run plan (selectors plan) { state := state }).state = state ∨
        (run plan (selectors plan) { state := state }).state = init plan state) := by
  rw [selectors, run_append]
  obtain ⟨hcross, hcrossState⟩ := run_selectors Op.chooseCross plan.crossGroup
    (fun group r hr => step_chooseCross hr group) (List.range plan.crosses.length)
    { state := state } h
  generalize run plan ((List.range plan.crosses.length).map Op.chooseCross)
    { state := state } = r at hcross hcrossState
  rw [Option.none_or] at hcross
  have hr : Started plan r.state ∧ isOpen plan r.state = isOpen plan state := by
    rcases hcrossState with heq | heq
    · rw [heq]
      exact ⟨h, rfl⟩
    · rw [heq]
      refine ⟨.inr h.init, ?_⟩
      funext bin
      exact isOpen_init h bin
  obtain ⟨hpoint, hpointState⟩ := run_selectors Op.choosePoint plan.pointGroup
    (fun group r hr => step_choosePoint hr group) (List.range plan.points.length) r hr.1
  rw [hpoint, hcross, hr.2, Plan.bins, List.find?_append]
  refine ⟨rfl, ?_⟩
  rcases hpointState with hstate | hstate
  · rw [hstate]
    exact hcrossState
  · rw [hstate]
    rcases hcrossState with heq | heq
    · rw [heq]
      exact .inr rfl
    · rw [heq, h.init.init_eq]
      exact .inr rfl

section Bodies

variable {plan : Plan} {selection : Selection}
  (hselection : ∀ bin, selection = some bin → plan.Valid bin)

theorem started_foldl {state : State} (h : Started plan state) (body : List Mark) :
    Started plan (body.foldl (applyMark plan selection) state) := by
  induction body generalizing state with
  | nil => exact h
  | cons m body ih => exact ih h.applyMark

include hselection in
theorem closed_applyMark {state : State} (h : Started plan state) {m : Mark} (hm : m.Valid plan)
    {bin : Bin} (hbin : plan.Valid bin) (hclosed : (view plan state).closed bin = true) :
    (view plan (applyMark plan selection state m)).closed bin = true := by
  rw [view, Bool.or_eq_true] at hclosed ⊢
  rw [hit_applyMark h hm hbin, blocked_applyMark h hselection hm hbin]
  rcases hclosed with hhit | hblocked
  · exact .inl (.inl hhit)
  · rcases Classical.em (m = .hit bin) with heq | hne
    · exact .inl (.inr heq)
    · exact .inr (.inl ⟨hblocked, hne⟩)

include hselection in
theorem closed_foldl {body : List Mark} (hbody : ∀ m ∈ body, m.Valid plan) {state : State}
    (h : Started plan state) {bin : Bin} (hbin : plan.Valid bin)
    (hclosed : (view plan state).closed bin = true) :
    (view plan (body.foldl (applyMark plan selection) state)).closed bin = true := by
  induction body generalizing state with
  | nil => exact hclosed
  | cons m body ih =>
      rw [List.forall_mem_cons] at hbody
      exact ih hbody.2 h.applyMark (closed_applyMark hselection h hbody.1 hbin hclosed)

include hselection in
theorem deferred_foldl (body : List Mark) {state : State} (h : Started plan state) {bin : Bin}
    (hbin : plan.Valid bin) :
    deferred plan (body.foldl (applyMark plan selection) state) bin = true ↔
      deferred plan state bin = true ∨ (selection = some bin ∧ .defer ∈ body) := by
  induction body generalizing state with
  | nil => exact (or_iff_left fun hdefer => List.not_mem_nil hdefer.2).symm
  | cons m body ih =>
      rw [List.foldl_cons, ih h.applyMark, deferred_applyMark h hselection hbin, or_assoc,
        ← and_or_left, List.mem_cons, @eq_comm _ m]

/-- A body that settles the selected bin does not leave it open. -/
theorem isOpen_foldl {body : List Mark} (hbody : ∀ m ∈ body, m.Valid plan) {state : State}
    (h : Started plan state) {bin : Bin} (hbin : plan.Valid bin)
    (hsettles : ∃ m ∈ body, Settles bin m) :
    (view plan (body.foldl (applyMark plan (some bin)) state)).isOpen bin = false := by
  have hselected : ∀ other, some bin = some other → plan.Valid other := by
    rintro other ⟨⟩
    exact hbin
  obtain ⟨m, hm, hsettles⟩ := hsettles
  obtain ⟨first, rest, rfl⟩ := List.append_of_mem hm
  rw [List.forall_mem_append, List.forall_mem_cons] at hbody
  rw [List.foldl_append, List.foldl_cons]
  have hfirst := @started_foldl plan (some bin) state h first
  generalize first.foldl (applyMark plan (some bin)) state = before at hfirst
  rw [Marks.isOpen, Bool.and_eq_false_iff, Bool.not_eq_false', Bool.not_eq_false']
  have hclosed : hit plan (applyMark plan (some bin) before m) bin = true ∨
      blocked plan (applyMark plan (some bin) before m) bin = true →
      (view plan (rest.foldl (applyMark plan (some bin))
        (applyMark plan (some bin) before m))).closed bin = true := by
    intro hmark
    exact closed_foldl hselected hbody.2.2 hfirst.applyMark hbin ((Bool.or_eq_true _ _).mpr hmark)
  rcases hsettles with hhit | hblocks | hdefer
  · exact .inl (hclosed (.inl ((hit_applyMark hfirst hbody.2.1 hbin).mpr (.inr hhit))))
  · exact .inl (hclosed (.inr ((blocked_applyMark hfirst hselected hbody.2.1 hbin).mpr
      (.inr ⟨rfl, hblocks⟩))))
  · refine .inr ((deferred_foldl hselected rest hfirst.applyMark hbin).mpr (.inl ?_))
    exact (deferred_applyMark hfirst hselected hbin).mpr (.inr ⟨rfl, hdefer⟩)

end Bodies

theorem call_eq {plan : Plan} {state : State} (h : Started plan state) (body : List Mark) :
    ∃ chosen, Started plan chosen ∧ view plan chosen = view plan state ∧
      call plan state body =
        ⟨body.foldl (applyMark plan (pick plan.bins (view plan state)))
            (finishSelection chosen (pick plan.bins (view plan state))),
          pick plan.bins (view plan state)⟩ := by
  obtain ⟨hselection, hstate⟩ := run_all_selectors h
  rw [← view_isOpen] at hselection
  refine ⟨(run plan (selectors plan) { state := state }).state, ?_⟩
  have hcall : call plan state body = run plan (body.map Op.mark)
      (step plan (run plan (selectors plan) { state := state }) .finish) := by
    rw [call, callOps]
    exact run_append plan (selectors plan) (.finish :: body.map Op.mark) { state := state }
  rw [hcall]
  generalize run plan (selectors plan) { state := state } = r at hselection hstate
  obtain ⟨chosen, selection⟩ := r
  change selection = pick plan.bins (view plan state) at hselection
  change chosen = state ∨ chosen = init plan state at hstate
  subst hselection
  refine ⟨?_, ?_, run_marks ..⟩
  · rcases hstate with rfl | rfl
    · exact h
    · exact .inr h.init
  · rcases hstate with rfl | rfl
    · rfl
    · rw [view, Marks.mk.injEq]
      constructor
      · funext bin
        rw [hit_init h, blocked_init h]
        rfl
      · funext bin
        exact deferred_init h bin

theorem selection_call {plan : Plan} {state : State} (h : Started plan state) (body : List Mark) :
    (call plan state body).selection = pick plan.bins (view plan state) := by
  obtain ⟨chosen, -, -, hcall⟩ := call_eq h body
  rw [hcall]

theorem started_call {plan : Plan} {state : State} (h : Started plan state) (body : List Mark) :
    Started plan (call plan state body).state := by
  obtain ⟨chosen, hchosen, -, hcall⟩ := call_eq h body
  rw [hcall]
  exact started_foldl (hchosen.finishSelection _) body

/-- A call whose marks settle what it selects is a turn of a sweep. -/
theorem turn_call {plan : Plan} {state : State} (h : Started plan state) {body : List Mark}
    (hbody : ∀ m ∈ body, m.Valid plan)
    (hsettles : ∀ bin, (call plan state body).selection = some bin → ∃ m ∈ body, Settles bin m) :
    Turn plan.bins (pick plan.bins (view plan state)) (view plan state)
      (view plan (call plan state body).state) := by
  rw [selection_call h] at hsettles
  obtain ⟨chosen, hchosen, hview, hcall⟩ := call_eq h body
  rw [hcall]
  have hselected : ∀ bin, pick plan.bins (view plan state) = some bin → plan.Valid bin :=
    fun bin hbin => Plan.mem_bins.mp (isOpen_of_pick hbin).1
  have hfinish := hchosen.finishSelection (pick plan.bins (view plan state))
  have hkept : ∀ bin, pick plan.bins (view plan state) = some bin →
      finishSelection chosen (pick plan.bins (view plan state)) = chosen := by
    intro bin hbin
    rw [hbin]
    rfl
  refine ⟨?_, ?_, ?_, ?_, ?_⟩
  · intro bin hbin hclosed
    apply closed_foldl hselected hbody hfinish (Plan.mem_bins.mp hbin)
    rw [← hview, view, Bool.or_eq_true] at hclosed
    rw [view, Bool.or_eq_true, hit_finishSelection, blocked_finishSelection]
    exact hclosed
  · intro hnone bin hbin
    apply eq_false_of_ne_true
    rw [hnone]
    change ¬ deferred plan _ bin = true
    rw [deferred_foldl (by rintro bin ⟨⟩) body (hchosen.finishSelection none) (Plan.mem_bins.mp hbin),
      deferred_finishSelection_none]
    rintro (hfalse | ⟨hfalse, -⟩)
    · exact Bool.false_ne_true hfalse
    · cases hfalse
  · intro bin hbin other hother hdeferred
    rw [hkept bin hbin]
    apply (deferred_foldl hselected body hchosen (Plan.mem_bins.mp hother)).mpr
    rw [← hview] at hdeferred
    exact .inl hdeferred
  · intro bin hbin other hother hdeferred
    rw [hkept bin hbin] at hdeferred
    rcases (deferred_foldl hselected body hchosen (Plan.mem_bins.mp hother)).mp hdeferred with
      hbefore | ⟨hother, -⟩
    · rw [← hview]
      exact .inl hbefore
    · rw [hbin, Option.some.injEq] at hother
      exact .inr hother.symm
  · intro bin hbin
    rw [hbin] at hfinish ⊢
    exact isOpen_foldl hbody hfinish (hselected bin hbin) (hsettles bin hbin)

theorem started_stateAt (plan : Plan) (bodies : Nat → List Mark) (n : Nat) :
    Started plan (stateAt plan bodies n) := by
  induction n with
  | zero => exact .inl rfl
  | succ n ih => exact started_call ih (bodies n)

/-- The selection of every call settled, no deferred bin starves. -/
theorem deferred_selected_again {plan : Plan} {bodies : Nat → List Mark}
    (hbodies : ∀ n, ∀ m ∈ bodies n, m.Valid plan)
    (hsettles : ∀ n bin, selectedAt plan bodies n = some bin → ∃ m ∈ bodies n, Settles bin m)
    {n : Nat} {bin : Bin} (hbin : plan.Valid bin)
    (hdeferred : deferred plan (stateAt plan bodies n) bin = true) :
    ∃ k ≤ 2 * plan.bins.length + 1,
      (selectedAt plan bodies (n + k) = some bin ∧
        ∃ m < k, selectedAt plan bodies (n + m) = none) ∨
      hit plan (stateAt plan bodies (n + k)) bin = true ∨
      blocked plan (stateAt plan bodies (n + k)) bin = true := by
  have hturns : ∀ n, Turn plan.bins (pick plan.bins (view plan (stateAt plan bodies n)))
      (view plan (stateAt plan bodies n)) (view plan (stateAt plan bodies (n + 1))) :=
    fun n => turn_call (started_stateAt plan bodies n) (hbodies n) (hsettles n)
  have hselected : ∀ n, selectedAt plan bodies n =
      pick plan.bins (view plan (stateAt plan bodies n)) :=
    fun n => selection_call (started_stateAt plan bodies n) (bodies n)
  obtain ⟨k, hk, hpick | hclosed⟩ := exists_pick hturns (Plan.mem_bins.mpr hbin) n
  · refine ⟨k, hk, .inl ⟨(hselected _).trans hpick, ?_⟩⟩
    obtain ⟨m, hm, hnone⟩ :=
      exists_pick_none_between hturns (Plan.mem_bins.mpr hbin) hdeferred hpick
    exact ⟨m, hm, (hselected _).trans hnone⟩
  · exact ⟨k, hk, .inr ((Bool.or_eq_true _ _).mp hclosed)⟩

theorem mark_mem_callOps {plan : Plan} {body : List Mark} {m : Mark} :
    .mark m ∈ callOps plan body ↔ m ∈ body := by
  simp [callOps, selectors]

theorem valid_callOps {plan : Plan} {body : List Mark} (hbody : ∀ m ∈ body, m.Valid plan) :
    ∀ op ∈ callOps plan body, op.Valid plan := by
  intro op hop
  cases op with
  | reset => trivial
  | finish => trivial
  | mark m => exact hbody m (mark_mem_callOps.mp hop)
  | choosePoint group => simpa [callOps, selectors, Op.Valid] using hop
  | chooseCross group => simpa [callOps, selectors, Op.Valid] using hop

/-! ### The calls of the generated code -/

section Generated

/-- A free field with values to cover, each by its carrier and with its label. -/
structure Goal where
  field : String
  width : Nat
  signed : Bool
  values : List (Nat × String)

def valuesOf (goals : List Goal) (goal : Nat) : List (Nat × String) :=
  ((goals[goal]?).map Goal.values).getD []

/-- The pairs of goals that are crossed: at most sixteen, of at most sixty-four bins each. -/
def autoCrosses (goals : List Goal) : List (Nat × Nat) :=
  (((List.range goals.length).flatMap fun i =>
      ((List.range goals.length).filter (i < ·)).map (Prod.mk i)).filter fun c =>
    (valuesOf goals c.1).length * (valuesOf goals c.2).length ≤ 64).take 16

def fieldOf (goals : List Goal) (goal : Nat) : String :=
  ((goals[goal]?).map Goal.field).getD ""

def pointLabel (ty field label : String) : String := ty ++ "." ++ field ++ "=" ++ label

def autoPlan (ty : String) (site : Nat) (goals : List Goal) : Plan where
  typeName := ty
  span := site
  points := goals.map fun goal =>
    ⟨goal.values.map fun v => pointLabel ty goal.field v.2, goal.values.length⟩
  crosses := (autoCrosses goals).map fun c =>
    ⟨(valuesOf goals c.1).flatMap fun a => (valuesOf goals c.2).map fun b =>
        pointLabel ty (fieldOf goals c.1) a.2 ++ " x " ++ pointLabel ty (fieldOf goals c.2) b.2,
      (valuesOf goals c.1).length, (valuesOf goals c.2).length⟩

/-- The preferences that a selection replaces: fields with the values of the bin. -/
def preferences (goals : List Goal) : Bin → List (Nat × Nat)
  | .point group i => ((valuesOf goals group)[i]?).toList.map fun v => (group, v.1)
  | .cross group i j =>
      match (autoCrosses goals)[group]? with
      | none => []
      | some (a, b) =>
          ((valuesOf goals a)[i]?).toList.map (fun v => (a, v.1)) ++
            ((valuesOf goals b)[j]?).toList.map (fun v => (b, v.1))

theorem valid_point_autoPlan {ty : String} {site : Nat} {goals : List Goal} {group i : Nat} :
    (autoPlan ty site goals).Valid (.point group i) ↔
      group < goals.length ∧ i < (valuesOf goals group).length := by
  have hlen : (autoPlan ty site goals).len group = (valuesOf goals group).length := by
    rw [Plan.len, valuesOf, autoPlan, List.getElem?_map]
    cases goals[group]? <;> rfl
  rw [Plan.Valid, hlen, autoPlan, List.length_map]

theorem valid_cross_autoPlan {ty : String} {site : Nat} {goals : List Goal}
    {group i j a b : Nat} (hpair : (autoCrosses goals)[group]? = some (a, b)) :
    (autoPlan ty site goals).Valid (.cross group i j) ↔
      i < (valuesOf goals a).length ∧ j < (valuesOf goals b).length := by
  have hgroup : group < (autoPlan ty site goals).crosses.length := by
    rw [autoPlan, List.length_map]
    exact (List.getElem?_eq_some_iff.mp hpair).1
  rw [Plan.Valid, and_iff_right hgroup, Plan.rows, Plan.cols, autoPlan, List.getElem?_map, hpair]
  rfl

/-- The marks after a solution, with the carrier of every goal's field. -/
def hits (goals : List Goal) (val : Nat → Nat) : List Mark :=
  ((List.range goals.length).flatMap fun group =>
    (valuesOf goals group).zipIdx.filterMap fun (v, i) =>
      if val group = v.1 then some (.hit (.point group i)) else none) ++
  (autoCrosses goals).zipIdx.flatMap fun (c, group) =>
    (valuesOf goals c.1).zipIdx.flatMap fun (av, i) =>
      (valuesOf goals c.2).zipIdx.filterMap fun (bv, j) =>
        if val c.1 = av.1 ∧ val c.2 = bv.1 then some (.hit (.cross group i j)) else none

/-- What the solver answers: the vectors of the goals' fields in its model. -/
inductive Outcome (w : Nat) where
  /-- The preferences could be met. -/
  | preferred (model : Nat → BitVec w)
  /-- Only without the preferences there was a solution. -/
  | relaxed (model : Nat → BitVec w)
  | unsat

/-- The carriers that are read back from a model. -/
def readBack {w : Nat} (goals : List Goal) (model : Nat → BitVec w) (goal : Nat) : Nat :=
  modelCarrier (((goals[goal]?).map Goal.width).getD 0) (model goal)

/-- The vector that a preference for a value asserts. -/
def preferenceVector (w : Nat) (goals : List Goal) (p : Nat × Nat) : BitVec w :=
  solverBvValue w (((goals[p.1]?).map Goal.signed).getD false)
    (((goals[p.1]?).map Goal.width).getD 0) p.2

def callBody {w : Nat} (goals : List Goal) : Outcome w → List Mark
  | .preferred model => hits goals (readBack goals model)
  | .relaxed model => .defer :: hits goals (readBack goals model)
  | .unsat => [.defer]

/-- A model under the preferences has their vectors. -/
def Outcome.Meets {w : Nat} (goals : List Goal) (selection : Selection) : Outcome w → Prop
  | .preferred model =>
      ∀ bin, selection = some bin → ∀ p ∈ preferences goals bin,
        model p.1 = preferenceVector w goals p
  | _ => True

/-! Carriers that come back from the solver as they went in. -/

/-- The carrier of an unsigned value that the solver's vectors hold, or of a value of a signed
type of at most 64 bits. -/
def Goal.Fits (w : Nat) (goal : Goal) : Prop :=
  goal.width ≤ w ∧ ∀ v ∈ goal.values,
    if goal.signed then
      0 < goal.width ∧ goal.width ≤ 64 ∧
        v.1 = ((BitVec.ofNat goal.width v.1).signExtend 64).toNat
    else v.1 < 2 ^ 64 ∨ v.1 < 2 ^ goal.width

theorem modelCarrier_unsigned {w width c : Nat} (hw : 64 ≤ w) (hwidth : width ≤ w)
    (hc : c < 2 ^ 64 ∨ c < 2 ^ width) :
    modelCarrier width (solverBvValue w false width c) = c := by
  have hsmall : c < 2 ^ carrierWidth width := by
    have h64 : 64 ≤ carrierWidth width := by
      rw [carrierWidth]
      split <;> omega
    rcases hc with hc | hc
    · exact Nat.lt_of_lt_of_le hc (Nat.pow_le_pow_right (Nat.succ_pos 1) h64)
    · exact Nat.lt_of_lt_of_le hc
        (Nat.pow_le_pow_right (Nat.succ_pos 1) (width_le_carrierWidth width))
  have hlarge : c < 2 ^ w := by
    rcases hc with hc | hc
    · exact Nat.lt_of_lt_of_le hc (Nat.pow_le_pow_right (Nat.succ_pos 1) hw)
    · exact Nat.lt_of_lt_of_le hc (Nat.pow_le_pow_right (Nat.succ_pos 1) hwidth)
  rw [modelCarrier, solverBvValue, if_neg Bool.false_ne_true, BitVec.toNat_setWidth,
    BitVec.toNat_ofNat, Nat.mod_eq_of_lt hlarge, Nat.mod_eq_of_lt hsmall]

theorem modelCarrier_signed {w width c : Nat} (hw : 64 ≤ w) (hwidth : width ≤ 64)
    (hc : c = ((BitVec.ofNat width c).signExtend 64).toNat) :
    modelCarrier width (solverBvValue w true width c) = c := by
  have hcarrier : carrierWidth width = 64 := if_pos hwidth
  have hextend : ((BitVec.ofNat width c).signExtend w).setWidth 64 =
      (BitVec.ofNat width c).signExtend 64 := by
    ext i hi
    rw [BitVec.getElem_setWidth, BitVec.getLsbD_signExtend, BitVec.getElem_signExtend]
    simp [Nat.lt_of_lt_of_le hi hw]
    split_ifs with hlt
    · exact BitVec.getLsbD_eq_getElem hlt
    · rfl
  rw [modelCarrier, solverBvValue, if_pos rfl, hcarrier, hextend]
  exact hc.symm

theorem readBack_preference {w : Nat} {goals : List Goal} (hw : 64 ≤ w)
    (hfits : ∀ goal ∈ goals, goal.Fits w) {model : Nat → BitVec w} {goal : Nat}
    {v : Nat × String} (hv : v ∈ valuesOf goals goal)
    (hmodel : model goal = preferenceVector w goals (goal, v.1)) :
    readBack goals model goal = v.1 := by
  rw [valuesOf] at hv
  rw [readBack, hmodel, preferenceVector]
  cases hgoal : goals[goal]? with
  | none =>
      rw [hgoal] at hv
      cases hv
  | some g =>
      rw [hgoal] at hv
      obtain ⟨hwidth, hvalues⟩ := hfits g (List.mem_of_getElem? hgoal)
      have hvalue := hvalues v hv
      simp only [Option.map_some, Option.getD_some]
      cases hsigned : g.signed with
      | false =>
          rw [hsigned, if_neg Bool.false_ne_true] at hvalue
          exact modelCarrier_unsigned hw hwidth hvalue
      | true =>
          rw [hsigned, if_pos rfl] at hvalue
          exact modelCarrier_signed hw hvalue.2.1 hvalue.2.2

theorem mem_hits {goals : List Goal} {val : Nat → Nat} {m : Mark} :
    m ∈ hits goals val ↔
      (∃ group i v, group < goals.length ∧ (valuesOf goals group)[i]? = some v ∧ val group = v.1 ∧
        m = .hit (.point group i)) ∨
      (∃ group a b i j av bv, (autoCrosses goals)[group]? = some (a, b) ∧
        (valuesOf goals a)[i]? = some av ∧ (valuesOf goals b)[j]? = some bv ∧
        (val a = av.1 ∧ val b = bv.1) ∧ m = .hit (.cross group i j)) := by
  rw [hits, List.mem_append, List.mem_flatMap, List.mem_flatMap]
  refine or_congr ?_ ?_
  · constructor
    · rintro ⟨group, hgroup, hm⟩
      obtain ⟨⟨v, i⟩, hv, hm⟩ := List.mem_filterMap.mp hm
      rw [Option.ite_none_right_eq_some, Option.some.injEq] at hm
      exact ⟨group, i, v, List.mem_range.mp hgroup, List.mem_zipIdx_iff_getElem?.mp hv, hm.1,
        hm.2.symm⟩
    · rintro ⟨group, i, v, hgroup, hv, hval, rfl⟩
      refine ⟨group, List.mem_range.mpr hgroup, List.mem_filterMap.mpr ⟨(v, i), ?_, if_pos hval⟩⟩
      exact List.mem_zipIdx_iff_getElem?.mpr hv
  · constructor
    · rintro ⟨⟨⟨a, b⟩, group⟩, hpair, hm⟩
      obtain ⟨⟨av, i⟩, hav, hm⟩ := List.mem_flatMap.mp hm
      obtain ⟨⟨bv, j⟩, hbv, hm⟩ := List.mem_filterMap.mp hm
      rw [Option.ite_none_right_eq_some, Option.some.injEq] at hm
      exact ⟨group, a, b, i, j, av, bv, List.mem_zipIdx_iff_getElem?.mp hpair,
        List.mem_zipIdx_iff_getElem?.mp hav, List.mem_zipIdx_iff_getElem?.mp hbv, hm.1,
        hm.2.symm⟩
    · rintro ⟨group, a, b, i, j, av, bv, hpair, hav, hbv, hval, rfl⟩
      refine ⟨((a, b), group), List.mem_zipIdx_iff_getElem?.mpr hpair,
        List.mem_flatMap.mpr ⟨(av, i), List.mem_zipIdx_iff_getElem?.mpr hav,
          List.mem_filterMap.mpr ⟨(bv, j), ?_, if_pos hval⟩⟩⟩
      exact List.mem_zipIdx_iff_getElem?.mpr hbv

/-- The generated marks are within the axes, and none of them blocks. -/
theorem valid_callBody {w : Nat} (ty : String) (site : Nat) (goals : List Goal)
    (outcome : Outcome w) :
    ∀ m ∈ callBody goals outcome,
      m.Valid (autoPlan ty site goals) ∧ ∀ bin, ¬ m.Blocks bin := by
  have hhits : ∀ val, ∀ m ∈ hits goals val,
      m.Valid (autoPlan ty site goals) ∧ ∀ bin, ¬ m.Blocks bin := by
    intro val m hm
    rcases mem_hits.mp hm with
      ⟨group, i, v, hgroup, hv, -, rfl⟩ | ⟨group, a, b, i, j, av, bv, hpair, hav, hbv, -, rfl⟩
    · exact ⟨valid_point_autoPlan.mpr ⟨hgroup, (List.getElem?_eq_some_iff.mp hv).1⟩, fun _ => id⟩
    · exact ⟨(valid_cross_autoPlan hpair).mpr
        ⟨(List.getElem?_eq_some_iff.mp hav).1, (List.getElem?_eq_some_iff.mp hbv).1⟩, fun _ => id⟩
  have hdefer : Mark.Valid (autoPlan ty site goals) .defer ∧ ∀ bin, ¬ Mark.Blocks .defer bin :=
    ⟨trivial, fun _ => id⟩
  cases outcome with
  | preferred model => exact hhits _
  | relaxed model => exact List.forall_mem_cons.mpr ⟨hdefer, hhits _⟩
  | unsat => exact List.forall_mem_cons.mpr ⟨hdefer, nofun⟩

/-- A generated call settles what it selects. -/
theorem settles_callBody {w : Nat} {ty : String} {site : Nat} {goals : List Goal}
    {outcome : Outcome w} (hw : 64 ≤ w) (hfits : ∀ goal ∈ goals, goal.Fits w) {bin : Bin}
    (hbin : (autoPlan ty site goals).Valid bin)
    (houtcome : outcome.Meets goals (some bin)) :
    ∃ m ∈ callBody goals outcome, Settles bin m := by
  cases outcome with
  | relaxed model => exact ⟨.defer, List.mem_cons_self, .inr (.inr rfl)⟩
  | unsat => exact ⟨.defer, List.mem_cons_self, .inr (.inr rfl)⟩
  | preferred model =>
      refine ⟨.hit bin, mem_hits.mpr ?_, .inl rfl⟩
      have hmeets := houtcome bin rfl
      cases bin with
      | point group i =>
          rw [valid_point_autoPlan] at hbin
          have hv := List.getElem?_eq_getElem hbin.2
          have hvector := hmeets (group, _) (by
            rw [preferences, hv]
            exact List.mem_cons_self)
          exact .inl ⟨group, i, _, hbin.1, hv,
            readBack_preference hw hfits (List.getElem_mem hbin.2) hvector, rfl⟩
      | cross group i j =>
          obtain ⟨⟨a, b⟩, hpair⟩ : ∃ c, (autoCrosses goals)[group]? = some c := by
            refine ⟨_, List.getElem?_eq_getElem ?_⟩
            rw [← List.length_map]
            exact hbin.1
          rw [valid_cross_autoPlan hpair] at hbin
          have hav := List.getElem?_eq_getElem hbin.1
          have hbv := List.getElem?_eq_getElem hbin.2
          have hprefs := hmeets
          rw [preferences, hpair] at hprefs
          simp only [hav, hbv, Option.toList_some, List.map_singleton, List.singleton_append,
            List.forall_mem_cons] at hprefs
          exact .inr ⟨group, a, b, i, j, _, _, hpair, hav, hbv,
            ⟨readBack_preference hw hfits (List.getElem_mem hbin.1) hprefs.1,
              readBack_preference hw hfits (List.getElem_mem hbin.2) hprefs.2.1⟩, rfl⟩

/-- In the generated code no bin is ever blocked, and a deferred bin is selected again until it
is hit. -/
theorem generated_selected_again {w : Nat} {ty : String} {site : Nat} {goals : List Goal}
    (hw : 64 ≤ w) (hfits : ∀ goal ∈ goals, goal.Fits w) {outcomes : Nat → Outcome w}
    (houtcomes : ∀ n, (outcomes n).Meets goals
      (selectedAt (autoPlan ty site goals) (fun n => callBody goals (outcomes n)) n))
    {n : Nat} {bin : Bin} (hbin : (autoPlan ty site goals).Valid bin)
    (hdeferred : deferred (autoPlan ty site goals)
      (stateAt (autoPlan ty site goals) (fun n => callBody goals (outcomes n)) n) bin = true) :
    ∃ k, selectedAt (autoPlan ty site goals) (fun n => callBody goals (outcomes n)) (n + k) =
        some bin ∨
      hit (autoPlan ty site goals)
        (stateAt (autoPlan ty site goals) (fun n => callBody goals (outcomes n)) (n + k)) bin =
          true := by
  generalize hplan : autoPlan ty site goals = plan at *
  generalize hbodies : (fun n => callBody goals (outcomes n)) = bodies at *
  have hmarks : ∀ n, ∀ m ∈ bodies n, m.Valid plan ∧ ∀ bin, ¬ m.Blocks bin := by
    subst hplan hbodies
    exact fun n => valid_callBody ty site goals (outcomes n)
  have hvalid : ∀ n bin, selectedAt plan bodies n = some bin → plan.Valid bin := by
    intro n bin hselected
    rw [selectedAt, selection_call (started_stateAt plan bodies n)] at hselected
    exact Plan.mem_bins.mp (isOpen_of_pick hselected).1
  have hunblocked : ∀ n, blocked plan (stateAt plan bodies n) bin = false := by
    intro n
    induction n with
    | zero => cases bin <;> rfl
    | succ n ih =>
        apply eq_false_of_ne_true
        intro hblocked
        have hgood : Run.Good plan { state := stateAt plan bodies n } :=
          ⟨started_stateAt plan bodies n, by rintro bin ⟨⟩⟩
        have hbefore := blocked_run hgood
          (valid_callOps fun m hm => (hmarks n m hm).1)
          (fun m hm => (hmarks n m (mark_mem_callOps.mp hm)).2) hbin hblocked
        rw [ih] at hbefore
        exact Bool.false_ne_true hbefore
  obtain ⟨k, -, ⟨hselected, -⟩ | hhit | hblocked⟩ := deferred_selected_again
    (fun n m hm => (hmarks n m hm).1) (by
      intro n bin hselected
      subst hplan hbodies
      exact settles_callBody hw hfits (hvalid n bin hselected) (hselected ▸ houtcomes n)) hbin hdeferred
  · exact ⟨k, .inl hselected⟩
  · exact ⟨k, .inr hhit⟩
  · rw [hunblocked] at hblocked
    exact absurd hblocked Bool.false_ne_true

end Generated

/-- The goals of a flag and of a signed field with three bits. -/
def packetGoals : List Goal :=
  [⟨"flag", 1, false, [(0, "0"), (1, "1")]⟩, ⟨"delta", 3, true, [(2 ^ 64 - 4, "-4"), (3, "3")]⟩]

theorem packetGoals_fits : ∀ goal ∈ packetGoals, goal.Fits 64 := by
  intro goal hgoal
  simp only [packetGoals, List.mem_cons, List.not_mem_nil, or_false] at hgoal
  rcases hgoal with rfl | rfl
  · refine ⟨by decide, ?_⟩
    decide
  · refine ⟨by decide, ?_⟩
    decide

/-- The first call has no solution, the second one has one without its preferences only, and the
third one meets the pair `flag = 1` and `delta = -4`. -/
def packetOutcome : Nat → Outcome 64
  | 0 => .unsat
  | 1 => .relaxed fun _ => 1#64
  | 2 => .preferred fun goal => if goal = 0 then 1#64 else -4#64
  | _ + 3 => .unsat

theorem generated_selected_again_packet :
    selectedAt (autoPlan "Packet" 0 packetGoals) (fun n => callBody packetGoals (packetOutcome n))
        2 = some (.cross 0 1 0) ∧
    ∃ k, selectedAt (autoPlan "Packet" 0 packetGoals)
        (fun n => callBody packetGoals (packetOutcome n)) (1 + k) = some (.cross 0 0 0) ∨
      hit (autoPlan "Packet" 0 packetGoals)
        (stateAt (autoPlan "Packet" 0 packetGoals)
          (fun n => callBody packetGoals (packetOutcome n)) (1 + k)) (.cross 0 0 0) = true := by
  have hselected : selectedAt (autoPlan "Packet" 0 packetGoals)
      (fun n => callBody packetGoals (packetOutcome n)) 2 = some (.cross 0 1 0) := by
    decide +kernel
  have hmeets : ∀ n, (packetOutcome n).Meets packetGoals
      (selectedAt (autoPlan "Packet" 0 packetGoals)
        (fun n => callBody packetGoals (packetOutcome n)) n) := by
    intro n
    rcases n with _ | _ | _ | n
    · trivial
    · trivial
    · rw [hselected]
      rintro bin ⟨⟩
      decide +kernel
    · trivial
  refine ⟨hselected, generated_selected_again (Nat.le_refl 64) packetGoals_fits hmeets ?_ ?_⟩
  · exact ⟨by decide, by decide⟩
  · decide +kernel

/-! ### The bookkeeping -/

/-- What holds after any operations within the axes. -/
structure Kept (plan : Plan) (ops : List Op) (r : Run) : Prop where
  sized : ∀ bin, ((init plan r.state).flags bin).Sized (plan.total bin)
  selected : ∀ bin, r.selection = some bin → plan.Valid bin
  exclusive : Spares plan {} ops → ∀ bin, plan.Valid bin →
    ¬ (hit plan r.state bin = true ∧ blocked plan r.state bin = true)
  count : (report plan r.state).hit = plan.bins.countP (hit plan r.state)
  hits : ∀ bin, plan.Valid bin → (hit plan r.state bin = true ↔ .mark (.hit bin) ∈ ops)

theorem kept_run {plan : Plan} {ops : List Op} (hops : ∀ op ∈ ops, op.Valid plan) :
    Kept plan ops (run plan ops {}) := by
  have hgood := (good_start plan).run hops
  have hfalse : ∀ bin, hit plan ({} : Run).state bin = false := by
    rintro (⟨group, i⟩ | ⟨group, i, j⟩) <;> rfl
  refine ⟨hgood.started.init.flags, hgood.selected, ?_, report_hit hgood.started, ?_⟩
  · intro hspares bin hbin
    apply exclusive_run (good_start plan) hops hspares hbin
    rw [hfalse]
    exact fun hboth => Bool.false_ne_true hboth.1
  · intro bin hbin
    rw [hit_run (good_start plan) hops hbin, hfalse]
    exact or_iff_right Bool.false_ne_true

/-- The bins of a plan fill the vectors; their marks are kept over every sequence of operations;
and over every sequence of calls that settle what they select, a deferred bin is selected again
after the end of a sweep unless it is hit or blocked first. -/
theorem bookkeeping (plan : Plan) :
    (plan.bins.Nodup ∧ ∀ bin, bin ∈ plan.bins ↔ plan.Valid bin) ∧
    (∀ bin, plan.Valid bin → plan.index bin < plan.total bin) ∧
    (∀ bin other, plan.Valid bin → plan.Valid other → Plan.SameKind bin other →
      plan.index bin = plan.index other → bin = other) ∧
    (∀ ops : List Op, (∀ op ∈ ops, op.Valid plan) → Kept plan ops (run plan ops {})) ∧
    (∀ bodies : Nat → List Mark, (∀ n, ∀ m ∈ bodies n, m.Valid plan) →
      (∀ n bin, selectedAt plan bodies n = some bin → ∃ m ∈ bodies n, Settles bin m) →
      ∀ n bin, plan.Valid bin → deferred plan (stateAt plan bodies n) bin = true →
        ∃ k ≤ 2 * plan.bins.length + 1,
          (selectedAt plan bodies (n + k) = some bin ∧
            ∃ m < k, selectedAt plan bodies (n + m) = none) ∨
          hit plan (stateAt plan bodies (n + k)) bin = true ∨
          blocked plan (stateAt plan bodies (n + k)) bin = true) := by
  refine ⟨⟨plan.nodup_bins, fun bin => Plan.mem_bins⟩, fun bin => Plan.index_lt,
    fun bin other => Plan.index_inj, fun ops => kept_run, ?_⟩
  intro bodies hbodies hsettles n bin hbin hdeferred
  exact deferred_selected_again hbodies hsettles hbin hdeferred

/-- Two fields of one bit and their cross. -/
def pairPlan : Plan :=
  ⟨"Packet", 0, [⟨["Packet.flag=0", "Packet.flag=1"], 2⟩, ⟨["Packet.last=0", "Packet.last=1"], 2⟩],
    [⟨["Packet.flag=0 x Packet.last=0", "Packet.flag=0 x Packet.last=1",
      "Packet.flag=1 x Packet.last=0", "Packet.flag=1 x Packet.last=1"], 2, 2⟩]⟩

/-- The second call hits what it selects, the other ones defer it. -/
def pairBodies (n : Nat) : List Mark :=
  if n = 1 then [.hit (.point 1 1), .hit (.cross 0 0 1)] else [.defer]

theorem bookkeeping_pairPlan :
    deferred pairPlan (stateAt pairPlan pairBodies 1) (.cross 0 0 0) = true ∧
    (∃ k ≤ 2 * pairPlan.bins.length + 1,
      (selectedAt pairPlan pairBodies (1 + k) = some (.cross 0 0 0) ∧
        ∃ m < k, selectedAt pairPlan pairBodies (1 + m) = none) ∨
      hit pairPlan (stateAt pairPlan pairBodies (1 + k)) (.cross 0 0 0) = true ∨
      blocked pairPlan (stateAt pairPlan pairBodies (1 + k)) (.cross 0 0 0) = true) ∧
    Kept pairPlan [.chooseCross 0, .mark (.hit (.cross 0 0 0)), .choosePoint 1, .mark .defer]
      (run pairPlan [.chooseCross 0, .mark (.hit (.cross 0 0 0)), .choosePoint 1, .mark .defer]
        {}) := by
  have hvalid : ∀ i j, i < 2 → j < 2 → pairPlan.Valid (.cross 0 i j) :=
    fun i j hi hj => ⟨Nat.zero_lt_one, hi, hj⟩
  have hpoint : pairPlan.Valid (.point 1 1) := ⟨by decide, by decide⟩
  have hdeferred : deferred pairPlan (stateAt pairPlan pairBodies 1) (.cross 0 0 0) = true := by
    decide
  have hselected : selectedAt pairPlan pairBodies 1 = some (.cross 0 0 1) := by decide
  obtain ⟨-, -, -, hkept, hagain⟩ := bookkeeping pairPlan
  refine ⟨hdeferred, hagain _ ?_ ?_ 1 _ (hvalid 0 0 (by decide) (by decide)) hdeferred,
    hkept _ ?_⟩
  · intro n m hm
    rw [pairBodies] at hm
    split_ifs at hm
    · simp only [List.mem_cons, List.not_mem_nil, or_false] at hm
      rcases hm with rfl | rfl
      · exact hpoint
      · exact hvalid 0 1 (by decide) (by decide)
    · rw [List.mem_singleton.mp hm]
      trivial
  · intro n bin hbin
    rw [pairBodies]
    split_ifs with hn
    · rw [hn, hselected] at hbin
      obtain rfl := Option.some.inj hbin
      exact ⟨_, List.mem_cons_of_mem _ List.mem_cons_self, .inl rfl⟩
    · exact ⟨.defer, List.mem_singleton_self _, .inr (.inr rfl)⟩
  · intro op hop
    simp only [List.mem_cons, List.not_mem_nil, or_false] at hop
    rcases hop with rfl | rfl | rfl | rfl
    · exact Nat.zero_lt_one
    · exact hvalid 0 0 (by decide) (by decide)
    · exact Nat.one_lt_two
    · trivial

/-- A plan with one point of two values. -/
def bitPlan : Plan := ⟨"Packet", 0, [⟨["Packet.flag=0", "Packet.flag=1"], 2⟩], []⟩

/-- The bin of a call that is neither hit nor blocked nor deferred is selected for ever, and a
bin can be blocked after it was hit. -/
theorem bookkeeping_any_order :
    (¬ ∀ (plan : Plan) (ops : List Op), (∀ op ∈ ops, op.Valid plan) →
      ∀ bin, plan.Valid bin → ¬ (hit plan (run plan ops {}).state bin = true ∧
        blocked plan (run plan ops {}).state bin = true)) ∧
    ¬ ∀ (plan : Plan) (bodies : Nat → List Mark), (∀ n, ∀ m ∈ bodies n, m.Valid plan) →
      ∀ n bin, plan.Valid bin → deferred plan (stateAt plan bodies n) bin = true →
        ∃ k, selectedAt plan bodies (n + k) = some bin ∨
          hit plan (stateAt plan bodies (n + k)) bin = true ∨
          blocked plan (stateAt plan bodies (n + k)) bin = true := by
  have hvalid : bitPlan.Valid (.point 0 0) := ⟨by decide, by decide⟩
  constructor
  · intro h
    refine h bitPlan [.choosePoint 0, .mark (.hit (.point 0 0)), .mark (.blockPoint 0)] ?_
      (.point 0 0) hvalid (by decide)
    intro op hop
    simp only [List.mem_cons, List.not_mem_nil, or_false] at hop
    rcases hop with rfl | rfl | rfl
    · exact Nat.zero_lt_one
    · exact hvalid
    · trivial
  · intro h
    -- The first call defers its bin, the others leave theirs as it is.
    let bodies : Nat → List Mark := fun n => if n = 0 then [.defer] else []
    have hstate : ∀ k, stateAt bitPlan bodies (1 + k) = stateAt bitPlan bodies 1 := by
      intro k
      induction k with
      | zero => rfl
      | succ k ih =>
          have hbody : bodies (1 + k) = [] := if_neg (by omega)
          change (call bitPlan (stateAt bitPlan bodies (1 + k)) (bodies (1 + k))).state = _
          rw [ih, hbody]
          decide
    have hselected : ∀ k, selectedAt bitPlan bodies (1 + k) = some (.point 0 1) := by
      intro k
      have hbody : bodies (1 + k) = [] := if_neg (by omega)
      rw [selectedAt, hstate, hbody]
      decide
    have hmarks : ∀ n, ∀ m ∈ bodies n, m.Valid bitPlan := by
      intro n m hm
      have hdefer : m = .defer := by
        change m ∈ if n = 0 then _ else _ at hm
        split at hm
        · exact List.mem_singleton.mp hm
        · exact absurd hm List.not_mem_nil
      rw [hdefer]
      trivial
    obtain ⟨k, hk⟩ := h bitPlan bodies hmarks 1 (.point 0 0) hvalid (by decide)
    rw [hselected, hstate] at hk
    revert hk
    decide

end Harc.AutoCoverageSweeps
