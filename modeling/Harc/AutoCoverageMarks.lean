import Mathlib.Algebra.BigOperators.Group.List.Basic
import Mathlib.Data.List.Basic
import Mathlib.Data.List.Nodup
import Mathlib.Algebra.Order.Ring.Int

/-!
The marks of automatic coverage (`runtime/harc_random_rt.h`).

The bins of a plan are the values of its points and the pairs of values of its crosses.  The
runtime keeps three flags for each, in flat vectors: hit, blocked, and deferred until the end of
a sweep.
-/

namespace Harc.AutoCoverageMarks

/-! ### Plans and flat indices -/

structure PointMeta where
  labels : List String
  len : Nat

structure CrossMeta where
  labels : List String
  rows : Nat
  cols : Nat

structure Plan where
  typeName : String
  span : Nat
  points : List PointMeta
  crosses : List CrossMeta

inductive Bin where
  | point (group i : Nat)
  | cross (group i j : Nat)
  deriving DecidableEq, Repr

/-- `HarcAutoCovSelection`: the kind 0 is no bin, 1 a point and 2 a cross. -/
abbrev Selection := Option Bin

namespace Plan

def pointOffset (plan : Plan) (point : Nat) : Nat :=
  ((plan.points.take point).map PointMeta.len).sum

def crossOffset (plan : Plan) (cross : Nat) : Nat :=
  ((plan.crosses.take cross).map fun c => c.rows * c.cols).sum

def pointTotal (plan : Plan) : Nat := plan.pointOffset plan.points.length

def crossTotal (plan : Plan) : Nat := plan.crossOffset plan.crosses.length

/-- `plan.points[point].len` -/
def len (plan : Plan) (point : Nat) : Nat := ((plan.points[point]?).map PointMeta.len).getD 0

def rows (plan : Plan) (cross : Nat) : Nat := ((plan.crosses[cross]?).map CrossMeta.rows).getD 0

def cols (plan : Plan) (cross : Nat) : Nat := ((plan.crosses[cross]?).map CrossMeta.cols).getD 0

def index (plan : Plan) : Bin → Nat
  | .point group i => plan.pointOffset group + i
  | .cross group i j => plan.crossOffset group + i * plan.cols group + j

/-- The bins of a point, and of a cross, in the order of the loops over them. -/
def pointGroup (plan : Plan) (group : Nat) : List Bin :=
  (List.range (plan.len group)).map (Bin.point group)

def crossGroup (plan : Plan) (group : Nat) : List Bin :=
  (List.range (plan.rows group)).flatMap fun i =>
    (List.range (plan.cols group)).map (Bin.cross group i)

def pointBins (plan : Plan) : List Bin := (List.range plan.points.length).flatMap plan.pointGroup

def crossBins (plan : Plan) : List Bin := (List.range plan.crosses.length).flatMap plan.crossGroup

/-- Every bin, in the order in which a call of `randomize` tries them. -/
def bins (plan : Plan) : List Bin := plan.crossBins ++ plan.pointBins

/-- A plan without points and crosses has no bins. -/
example (typeName : String) (span : Nat) : (Plan.mk typeName span [] []).bins = [] := by
  simp [bins, pointBins, crossBins]

/-- The coordinates are within the axes. -/
def Valid (plan : Plan) : Bin → Prop
  | .point group i => group < plan.points.length ∧ i < plan.len group
  | .cross group i j =>
      group < plan.crosses.length ∧ i < plan.rows group ∧ j < plan.cols group

end Plan

/-! ### The state -/

structure Flags where
  hit : List Bool := []
  blocked : List Bool := []
  deferred : List Bool := []
  deriving DecidableEq

structure State where
  initialized : Bool := false
  points : Flags := {}
  crosses : Flags := {}
  deriving DecidableEq

def Flags.zero (n : Nat) : Flags where
  hit := List.replicate n false
  blocked := List.replicate n false
  deferred := List.replicate n false

/-- `harc_auto_cov_init` -/
def init (plan : Plan) (state : State) : State :=
  if state.initialized then state
  else ⟨true, .zero plan.pointTotal, .zero plan.crossTotal⟩

namespace State

def flags (state : State) : Bin → Flags
  | .point _ _ => state.points
  | .cross _ _ _ => state.crosses

def update (state : State) (f : Flags → Flags) : Bin → State
  | .point _ _ => { state with points := f state.points }
  | .cross _ _ _ => { state with crosses := f state.crosses }

end State

section Access

variable (plan : Plan) (state : State) (bin : Bin)

def hit : Bool := (state.flags bin).hit.getD (plan.index bin) false

def blocked : Bool := (state.flags bin).blocked.getD (plan.index bin) false

def deferred : Bool := (state.flags bin).deferred.getD (plan.index bin) false

def isOpen : Bool := !hit plan state bin && !blocked plan state bin && !deferred plan state bin

def markHit : State :=
  (init plan state).update (fun f =>
    { f with hit := f.hit.set (plan.index bin) true
             blocked := f.blocked.set (plan.index bin) false }) bin

def markBlocked : State :=
  (init plan state).update (fun f =>
    { f with blocked := f.blocked.set (plan.index bin) true }) bin

def markDeferred : State :=
  (init plan state).update (fun f =>
    { f with deferred := f.deferred.set (plan.index bin) true }) bin

end Access

/-! ### Operations -/

/-- The loop of `harc_auto_cov_apply_point_preference`, over an array of `n` values. -/
def findPoint (plan : Plan) (state : State) (group n : Nat) : Option Nat :=
  (List.range n).find? fun i => isOpen plan state (.point group i)

def applyPointPreference {T : Type} (plan : Plan) (state : State) (selection : Selection)
    (group : Nat) (values : List T) (preference : T) : Bool × State × Selection × T :=
  if selection.isSome then (false, state, selection, preference)
  else
    let state := init plan state
    match findPoint plan state group values.length with
    | some i => (true, state, some (.point group i), values.getD i preference)
    | none => (false, state, selection, preference)

/-- The loops of `harc_auto_cov_apply_cross_preference`. -/
def findCross (plan : Plan) (state : State) (group rows cols : Nat) : Option (Nat × Nat) :=
  (List.range rows).findSome? fun i =>
    ((List.range cols).find? fun j => isOpen plan state (.cross group i j)).map (Prod.mk i)

def applyCrossPreference {A B : Type} (plan : Plan) (state : State) (selection : Selection)
    (group : Nat) (aValues : List A) (bValues : List B) (aPreference : A) (bPreference : B) :
    Bool × State × Selection × A × B :=
  if selection.isSome then (false, state, selection, aPreference, bPreference)
  else
    let state := init plan state
    match findCross plan state group aValues.length bValues.length with
    | some (i, j) =>
        (true, state, some (.cross group i j), aValues.getD i aPreference,
          bValues.getD j bPreference)
    | none => (false, state, selection, aPreference, bPreference)

def Flags.clearDeferred (f : Flags) : Flags := { f with deferred := f.deferred.map fun _ => false }

def finishSelection (state : State) (selection : Selection) : State :=
  if selection.isSome then state
  else { state with points := state.points.clearDeferred, crosses := state.crosses.clearDeferred }

def deferSelected (plan : Plan) (state : State) (selection : Selection) : State :=
  match selection with
  | some bin => markDeferred plan state bin
  | none => init plan state

def markSelectedPointBlocked (plan : Plan) (state : State) (selection : Selection)
    (group : Nat) : State :=
  match selection with
  | some (.point g i) => if g = group then markBlocked plan state (.point g i) else state
  | _ => state

def markSelectedCrossBlocked (plan : Plan) (state : State) (selection : Selection)
    (group : Nat) : State :=
  match selection with
  | some (.cross g i j) => if g = group then markBlocked plan state (.cross g i j) else state
  | _ => state

def markValueHit {T : Type} [DecidableEq T] (value expected : T) (plan : Plan) (state : State)
    (point i : Nat) : State :=
  if value = expected then markHit plan state (.point point i) else state

def markCrossHit {A B : Type} [DecidableEq A] [DecidableEq B] (a expectedA : A) (b expectedB : B)
    (plan : Plan) (state : State) (cross i j : Nat) : State :=
  if a = expectedA ∧ b = expectedB then markHit plan state (.cross cross i j) else state

structure Report where
  hit : Nat
  total : Nat
  blocked : Nat
  /-- The lines of the bins: label, hit and blocked. -/
  lines : List (String × Bool × Bool)

def report (plan : Plan) (state : State) : Report :=
  let state := init plan state
  let line (labels : List String) (i : Nat) (bin : Bin) :=
    (labels.getD i "", hit plan state bin, blocked plan state bin)
  let points := plan.points.zipIdx.flatMap fun (info, point) =>
    (List.range info.len).map fun i => line info.labels i (.point point i)
  let crosses := plan.crosses.zipIdx.flatMap fun (info, cross) =>
    (List.range (info.rows * info.cols)).map fun i => line info.labels i (.cross cross 0 i)
  { hit := state.points.hit.count true + state.crosses.hit.count true
    total := state.points.hit.length + state.crosses.hit.length
    blocked := state.points.blocked.count true + state.crosses.blocked.count true
    lines := points ++ crosses }

/-! ### Sequences of operations -/

/-- What may follow a selection. -/
inductive Mark where
  | defer
  | blockPoint (group : Nat)
  | blockCross (group : Nat)
  | hit (bin : Bin)

/-- The mark blocks the bin if that is the selected one. -/
def Mark.Blocks : Mark → Bin → Prop
  | .blockPoint group, .point g _ => g = group
  | .blockCross group, .cross g _ _ => g = group
  | _, _ => False

inductive Op where
  /-- A fresh selection. -/
  | reset
  | choosePoint (group : Nat)
  | chooseCross (group : Nat)
  | finish
  | mark (m : Mark)

structure Run where
  state : State := {}
  selection : Selection := none

def applyMark (plan : Plan) (selection : Selection) (state : State) : Mark → State
  | .defer => deferSelected plan state selection
  | .blockPoint group => markSelectedPointBlocked plan state selection group
  | .blockCross group => markSelectedCrossBlocked plan state selection group
  | .hit bin => markHit plan state bin

/-- One operation.  The arrays of a selector have the lengths that the plan gives. -/
def step (plan : Plan) (r : Run) : Op → Run
  | .reset => { r with selection := none }
  | .choosePoint group =>
      let chosen := applyPointPreference plan r.state r.selection group
        (List.range (plan.len group)) 0
      ⟨chosen.2.1, chosen.2.2.1⟩
  | .chooseCross group =>
      let chosen := applyCrossPreference plan r.state r.selection group
        (List.range (plan.rows group)) (List.range (plan.cols group)) 0 0
      ⟨chosen.2.1, chosen.2.2.1⟩
  | .finish => { r with state := finishSelection r.state r.selection }
  | .mark m => { r with state := applyMark plan r.selection r.state m }

def run (plan : Plan) (ops : List Op) (r : Run) : Run := ops.foldl (step plan) r

def Mark.Valid (plan : Plan) : Mark → Prop
  | .hit bin => plan.Valid bin
  | _ => True

def Op.Valid (plan : Plan) : Op → Prop
  | .choosePoint group => group < plan.points.length
  | .chooseCross group => group < plan.crosses.length
  | .mark m => m.Valid plan
  | _ => True

/-- The operation does not block a bin that has been hit. -/
def Op.Spares (plan : Plan) (r : Run) : Op → Prop
  | .mark m => ∀ bin, r.selection = some bin → m.Blocks bin → hit plan r.state bin = false
  | _ => True

/-- No operation of a sequence blocks a bin that has been hit by then. -/
def Spares (plan : Plan) : Run → List Op → Prop
  | _, [] => True
  | r, op :: ops => op.Spares plan r ∧ Spares plan (step plan r op) ops

/-! ### Indices -/

/-- Groups one after another fill a range without gap or overlap. -/
theorem range_flatMap_offset {size offset : Nat → Nat} (hzero : offset 0 = 0)
    (hsucc : ∀ k, offset (k + 1) = offset k + size k) (k : Nat) :
    ((List.range k).flatMap fun g => (List.range (size g)).map (offset g + ·)) =
      List.range (offset k) := by
  induction k with
  | zero => rw [hzero, List.range_zero, List.flatMap_nil]
  | succ k ih =>
      rw [List.range_succ, List.flatMap_append, ih, List.flatMap_singleton, hsucc, List.range_add]

namespace Plan

theorem pointOffset_succ (plan : Plan) (k : Nat) :
    plan.pointOffset (k + 1) = plan.pointOffset k + plan.len k := by
  rw [pointOffset, List.take_add_one, List.map_append, List.sum_append, len]
  cases plan.points[k]? <;> simp [pointOffset]

theorem crossOffset_succ (plan : Plan) (k : Nat) :
    plan.crossOffset (k + 1) = plan.crossOffset k + plan.rows k * plan.cols k := by
  rw [crossOffset, List.take_add_one, List.map_append, List.sum_append, rows, cols]
  cases plan.crosses[k]? <;> simp [crossOffset]

theorem map_index_pointBins (plan : Plan) :
    plan.pointBins.map plan.index = List.range plan.pointTotal := by
  rw [pointBins, List.map_flatMap, pointTotal,
    ← range_flatMap_offset (by rfl) plan.pointOffset_succ]
  apply congrArg fun f => List.flatMap f (List.range plan.points.length)
  funext group
  rw [pointGroup, List.map_map]
  rfl

theorem map_index_crossGroup (plan : Plan) (group : Nat) :
    (plan.crossGroup group).map plan.index =
      (List.range (plan.rows group * plan.cols group)).map (plan.crossOffset group + ·) := by
  have hrows := @range_flatMap_offset (fun _ => plan.cols group) (fun i => i * plan.cols group)
    (Nat.zero_mul _) (fun k => Nat.succ_mul k _) (plan.rows group)
  rw [← hrows, crossGroup, List.map_flatMap, List.map_flatMap]
  apply congrArg fun f => List.flatMap f (List.range (plan.rows group))
  funext i
  rw [List.map_map, List.map_map]
  apply congrArg fun f => List.map f (List.range (plan.cols group))
  funext j
  exact Nat.add_assoc _ _ _

theorem map_index_crossBins (plan : Plan) :
    plan.crossBins.map plan.index = List.range plan.crossTotal := by
  rw [crossBins, List.map_flatMap, crossTotal,
    ← range_flatMap_offset (by rfl) plan.crossOffset_succ]
  apply congrArg fun f => List.flatMap f (List.range plan.crosses.length)
  funext group
  exact plan.map_index_crossGroup group

theorem mem_pointBins {plan : Plan} {group i : Nat} :
    Bin.point group i ∈ plan.pointBins ↔ plan.Valid (.point group i) := by
  simp [pointBins, pointGroup, Valid]

theorem mem_crossBins {plan : Plan} {group i j : Nat} :
    Bin.cross group i j ∈ plan.crossBins ↔ plan.Valid (.cross group i j) := by
  simp [crossBins, crossGroup, Valid]

theorem cross_notMem_pointBins {plan : Plan} {group i j : Nat} :
    Bin.cross group i j ∉ plan.pointBins := by
  simp [pointBins, pointGroup]

theorem point_notMem_crossBins {plan : Plan} {group i : Nat} :
    Bin.point group i ∉ plan.crossBins := by
  simp [crossBins, crossGroup]

theorem mem_bins {plan : Plan} {bin : Bin} : bin ∈ plan.bins ↔ plan.Valid bin := by
  rw [bins, List.mem_append]
  cases bin with
  | point group i => rw [mem_pointBins, or_iff_right point_notMem_crossBins]
  | cross group i j => rw [mem_crossBins, or_iff_left cross_notMem_pointBins]

/-- The number of flags of the kind of a bin. -/
def total (plan : Plan) : Bin → Nat
  | .point _ _ => plan.pointTotal
  | .cross _ _ _ => plan.crossTotal

theorem index_lt {plan : Plan} {bin : Bin} (h : plan.Valid bin) :
    plan.index bin < plan.total bin := by
  cases bin with
  | point group i =>
      rw [total, ← List.mem_range, ← map_index_pointBins]
      exact List.mem_map_of_mem (mem_pointBins.mpr h)
  | cross group i j =>
      rw [total, ← List.mem_range, ← map_index_crossBins]
      exact List.mem_map_of_mem (mem_crossBins.mpr h)

/-- Two bins of one kind. -/
def SameKind : Bin → Bin → Prop
  | .point _ _, .point _ _ => True
  | .cross _ _ _, .cross _ _ _ => True
  | _, _ => False

theorem index_inj {plan : Plan} {bin other : Bin} (hbin : plan.Valid bin)
    (hother : plan.Valid other) (hkind : SameKind bin other)
    (heq : plan.index bin = plan.index other) : bin = other := by
  have hpoints : (plan.pointBins.map plan.index).Nodup :=
    plan.map_index_pointBins ▸ List.nodup_range
  have hcrosses : (plan.crossBins.map plan.index).Nodup :=
    plan.map_index_crossBins ▸ List.nodup_range
  match bin, other, hkind with
  | .point _ _, .point _ _, _ =>
      exact List.inj_on_of_nodup_map hpoints (mem_pointBins.mpr hbin) (mem_pointBins.mpr hother)
        heq
  | .cross _ _ _, .cross _ _ _, _ =>
      exact List.inj_on_of_nodup_map hcrosses (mem_crossBins.mpr hbin) (mem_crossBins.mpr hother)
        heq

theorem nodup_bins (plan : Plan) : plan.bins.Nodup := by
  have hpoints : plan.pointBins.Nodup :=
    List.Nodup.of_map plan.index (plan.map_index_pointBins ▸ List.nodup_range)
  have hcrosses : plan.crossBins.Nodup :=
    List.Nodup.of_map plan.index (plan.map_index_crossBins ▸ List.nodup_range)
  refine hcrosses.append hpoints ?_
  rintro (⟨group, i⟩ | ⟨group, i, j⟩) hcross hpoint
  · exact point_notMem_crossBins hcross
  · exact cross_notMem_pointBins hpoint

end Plan

/-! ### Flags -/

structure Flags.Sized (f : Flags) (n : Nat) : Prop where
  hit : f.hit.length = n
  blocked : f.blocked.length = n
  deferred : f.deferred.length = n

structure Prepared (plan : Plan) (state : State) : Prop where
  initialized : state.initialized = true
  points : state.points.Sized plan.pointTotal
  crosses : state.crosses.Sized plan.crossTotal

/-- A state before the first operation, or with vectors as long as the plan asks for. -/
def Started (plan : Plan) (state : State) : Prop := state = {} ∨ Prepared plan state

theorem Flags.sized_zero (n : Nat) : (Flags.zero n).Sized n :=
  ⟨List.length_replicate, List.length_replicate, List.length_replicate⟩

theorem Prepared.flags {plan : Plan} {state : State} (h : Prepared plan state) (bin : Bin) :
    (state.flags bin).Sized (plan.total bin) := by
  cases bin with
  | point group i => exact h.points
  | cross group i j => exact h.crosses

theorem Prepared.init_eq {plan : Plan} {state : State} (h : Prepared plan state) :
    init plan state = state := if_pos h.initialized

theorem Started.init {plan : Plan} {state : State} (h : Started plan state) :
    Prepared plan (init plan state) := by
  rcases h with rfl | h
  · exact ⟨rfl, Flags.sized_zero _, Flags.sized_zero _⟩
  · rw [h.init_eq]
    exact h

theorem Prepared.update {plan : Plan} {state : State} (h : Prepared plan state) {f : Flags → Flags}
    (hf : ∀ (g : Flags) (n : Nat), g.Sized n → (f g).Sized n) (bin : Bin) :
    Prepared plan (state.update f bin) := by
  cases bin with
  | point group i => exact ⟨h.initialized, hf _ _ h.points, h.crosses⟩
  | cross group i j => exact ⟨h.initialized, h.points, hf _ _ h.crosses⟩

theorem getD_replicate_false (n m : Nat) : (List.replicate n false).getD m false = false := by
  rw [List.getD, List.getElem?_replicate]
  split <;> rfl

section Access

variable {plan : Plan} {state : State} (h : Started plan state) (bin : Bin)

include h

theorem Started.markHit : Prepared plan (markHit plan state bin) := by
  apply h.init.update
  rintro g n ⟨hhit, hblocked, hdeferred⟩
  exact ⟨by rw [List.length_set, hhit], by rw [List.length_set, hblocked], hdeferred⟩

theorem Started.markBlocked : Prepared plan (markBlocked plan state bin) := by
  apply h.init.update
  rintro g n ⟨hhit, hblocked, hdeferred⟩
  exact ⟨hhit, by rw [List.length_set, hblocked], hdeferred⟩

theorem Started.markDeferred : Prepared plan (markDeferred plan state bin) := by
  apply h.init.update
  rintro g n ⟨hhit, hblocked, hdeferred⟩
  exact ⟨hhit, hblocked, by rw [List.length_set, hdeferred]⟩

/-- The first flags are those of a state without vectors: none is set. -/
theorem hit_init : hit plan (init plan state) bin = hit plan state bin := by
  rcases h with rfl | h
  · cases bin <;> exact getD_replicate_false _ _
  · rw [h.init_eq]

theorem blocked_init : blocked plan (init plan state) bin = blocked plan state bin := by
  rcases h with rfl | h
  · cases bin <;> exact getD_replicate_false _ _
  · rw [h.init_eq]

theorem deferred_init : deferred plan (init plan state) bin = deferred plan state bin := by
  rcases h with rfl | h
  · cases bin <;> exact getD_replicate_false _ _
  · rw [h.init_eq]

theorem isOpen_init : isOpen plan (init plan state) bin = isOpen plan state bin := by
  rw [isOpen, hit_init h, blocked_init h, deferred_init h, isOpen]

end Access

theorem getD_set (flags : List Bool) {n : Nat} (m : Nat) (v : Bool) (hn : n < flags.length) :
    (flags.set n v).getD m false = if m = n then v else flags.getD m false := by
  rcases eq_or_ne m n with rfl | hne
  · rw [if_pos rfl, List.getD, List.getElem?_set_self hn]
    rfl
  · rw [if_neg hne, List.getD, List.getElem?_set_ne hne.symm]
    rfl

/-- A vector that a mark writes at the index of its bin. -/
theorem getD_update {plan : Plan} {state : State} {bin other : Bin} (hbin : plan.Valid bin)
    (hother : plan.Valid other) (field : Flags → List Bool) (f : Flags → Flags) (v : Bool)
    (hf : ∀ g, field (f g) = (field g).set (plan.index bin) v)
    (hlen : (field (state.flags bin)).length = plan.total bin) :
    (field ((state.update f bin).flags other)).getD (plan.index other) false =
      if other = bin then v else (field (state.flags other)).getD (plan.index other) false := by
  have hlt := hlen.symm ▸ Plan.index_lt hbin
  match bin, other with
  | .point g i, .point g' i' =>
      change (field (f state.points)).getD _ false = _
      rw [hf]
      refine (getD_set _ _ _ hlt).trans ?_
      exact if_congr ⟨Plan.index_inj hother hbin trivial, fun h => congrArg plan.index h⟩ rfl rfl
  | .cross g i j, .cross g' i' j' =>
      change (field (f state.crosses)).getD _ false = _
      rw [hf]
      refine (getD_set _ _ _ hlt).trans ?_
      exact if_congr ⟨Plan.index_inj hother hbin trivial, fun h => congrArg plan.index h⟩ rfl rfl
  | .point _ _, .cross _ _ _ => exact (if_neg Bin.noConfusion).symm
  | .cross _ _ _, .point _ _ => exact (if_neg Bin.noConfusion).symm

/-- A vector that a mark leaves alone. -/
theorem field_update {state : State} (bin other : Bin) (field : Flags → List Bool)
    {f : Flags → Flags} (hf : ∀ g, field (f g) = field g) :
    field ((state.update f bin).flags other) = field (state.flags other) := by
  cases bin <;> cases other <;> first | exact hf _ | rfl

section Marks

variable {plan : Plan} {state : State} (h : Started plan state) {bin other : Bin}
  (hbin : plan.Valid bin) (hother : plan.Valid other)

include h hbin hother

theorem hit_markHit :
    hit plan (markHit plan state bin) other = if other = bin then true else hit plan state other := by
  rw [← hit_init h]
  exact getD_update hbin hother Flags.hit _ true (fun _ => rfl) (h.init.flags bin).hit

theorem blocked_markHit :
    blocked plan (markHit plan state bin) other =
      if other = bin then false else blocked plan state other := by
  rw [← blocked_init h]
  exact getD_update hbin hother Flags.blocked _ false (fun _ => rfl) (h.init.flags bin).blocked

theorem blocked_markBlocked :
    blocked plan (markBlocked plan state bin) other =
      if other = bin then true else blocked plan state other := by
  rw [← blocked_init h]
  exact getD_update hbin hother Flags.blocked _ true (fun _ => rfl) (h.init.flags bin).blocked

theorem deferred_markDeferred :
    deferred plan (markDeferred plan state bin) other =
      if other = bin then true else deferred plan state other := by
  rw [← deferred_init h]
  exact getD_update hbin hother Flags.deferred _ true (fun _ => rfl) (h.init.flags bin).deferred

end Marks

section Frames

variable {plan : Plan} {state : State} (h : Started plan state) (bin other : Bin)

include h

theorem deferred_markHit :
    deferred plan (markHit plan state bin) other = deferred plan state other := by
  rw [← deferred_init h]
  exact congrArg (List.getD · (plan.index other) false)
    (field_update bin other Flags.deferred fun _ => rfl)

theorem hit_markBlocked : hit plan (markBlocked plan state bin) other = hit plan state other := by
  rw [← hit_init h]
  exact congrArg (List.getD · (plan.index other) false)
    (field_update bin other Flags.hit fun _ => rfl)

theorem deferred_markBlocked :
    deferred plan (markBlocked plan state bin) other = deferred plan state other := by
  rw [← deferred_init h]
  exact congrArg (List.getD · (plan.index other) false)
    (field_update bin other Flags.deferred fun _ => rfl)

theorem hit_markDeferred : hit plan (markDeferred plan state bin) other = hit plan state other := by
  rw [← hit_init h]
  exact congrArg (List.getD · (plan.index other) false)
    (field_update bin other Flags.hit fun _ => rfl)

theorem blocked_markDeferred :
    blocked plan (markDeferred plan state bin) other = blocked plan state other := by
  rw [← blocked_init h]
  exact congrArg (List.getD · (plan.index other) false)
    (field_update bin other Flags.blocked fun _ => rfl)

end Frames

/-! ### One operation -/

/-- Everything that a mark can do. -/
theorem applyMark_cases (plan : Plan) (selection : Selection) (state : State) (m : Mark) :
    (∃ bin, m = .hit bin ∧ applyMark plan selection state m = markHit plan state bin) ∨
    (∃ bin, selection = some bin ∧ m = .defer ∧
      applyMark plan selection state m = markDeferred plan state bin) ∨
    (∃ bin, selection = some bin ∧ m.Blocks bin ∧
      applyMark plan selection state m = markBlocked plan state bin) ∨
    ((∀ bin, m ≠ .hit bin) ∧ (∀ bin, selection = some bin → m ≠ .defer ∧ ¬ m.Blocks bin) ∧
      (applyMark plan selection state m = state ∨
        applyMark plan selection state m = init plan state)) := by
  match m, selection with
  | .hit bin, _ => exact .inl ⟨bin, rfl, rfl⟩
  | .defer, some bin => exact .inr (.inl ⟨bin, rfl, rfl, rfl⟩)
  | .defer, none =>
      refine .inr (.inr (.inr ⟨fun _ => Mark.noConfusion, ?_, .inr rfl⟩))
      rintro bin ⟨⟩
  | .blockPoint group, none =>
      refine .inr (.inr (.inr ⟨fun _ => Mark.noConfusion, ?_, .inl rfl⟩))
      rintro bin ⟨⟩
  | .blockCross group, none =>
      refine .inr (.inr (.inr ⟨fun _ => Mark.noConfusion, ?_, .inl rfl⟩))
      rintro bin ⟨⟩
  | .blockPoint group, some (.cross g i j) =>
      refine .inr (.inr (.inr ⟨fun _ => Mark.noConfusion, ?_, .inl rfl⟩))
      rintro bin ⟨⟩
      exact ⟨Mark.noConfusion, id⟩
  | .blockCross group, some (.point g i) =>
      refine .inr (.inr (.inr ⟨fun _ => Mark.noConfusion, ?_, .inl rfl⟩))
      rintro bin ⟨⟩
      exact ⟨Mark.noConfusion, id⟩
  | .blockPoint group, some (.point g i) =>
      rcases eq_or_ne g group with heq | hne
      · exact .inr (.inr (.inl ⟨_, rfl, heq, if_pos heq⟩))
      · refine .inr (.inr (.inr ⟨fun _ => Mark.noConfusion, ?_, .inl (if_neg hne)⟩))
        rintro bin ⟨⟩
        exact ⟨Mark.noConfusion, hne⟩
  | .blockCross group, some (.cross g i j) =>
      rcases eq_or_ne g group with heq | hne
      · exact .inr (.inr (.inl ⟨_, rfl, heq, if_pos heq⟩))
      · refine .inr (.inr (.inr ⟨fun _ => Mark.noConfusion, ?_, .inl (if_neg hne)⟩))
        rintro bin ⟨⟩
        exact ⟨Mark.noConfusion, hne⟩

section ApplyMark

variable {plan : Plan} {selection : Selection} {state : State} {m : Mark}
  (h : Started plan state) (hselection : ∀ bin, selection = some bin → plan.Valid bin)
  (hm : m.Valid plan)

include h in
theorem Started.applyMark : Started plan (applyMark plan selection state m) := by
  rcases applyMark_cases plan selection state m with
    ⟨bin, -, heq⟩ | ⟨bin, -, -, heq⟩ | ⟨bin, -, -, heq⟩ | ⟨-, -, heq | heq⟩
  · exact .inr (heq ▸ h.markHit bin)
  · exact .inr (heq ▸ h.markDeferred bin)
  · exact .inr (heq ▸ h.markBlocked bin)
  · rw [heq]
    exact h
  · exact .inr (heq ▸ h.init)

include h hm in
theorem hit_applyMark {bin : Bin} (hbin : plan.Valid bin) :
    hit plan (applyMark plan selection state m) bin = true ↔
      hit plan state bin = true ∨ m = .hit bin := by
  rcases applyMark_cases plan selection state m with
    ⟨other, rfl, heq⟩ | ⟨other, -, rfl, heq⟩ | ⟨other, -, hblocks, heq⟩ | ⟨hhit, -, heq | heq⟩
  · rw [heq, hit_markHit h hm hbin, ite_eq_left_iff, or_iff_not_imp_right, Mark.hit.injEq]
    exact ⟨fun hnot hne => hnot fun hbin => hne hbin.symm,
      fun hnot hne => hnot fun hbin => hne hbin.symm⟩
  · rw [heq, hit_markDeferred h]
    exact (or_iff_left Mark.noConfusion).symm
  · rw [heq, hit_markBlocked h]
    refine (or_iff_left ?_).symm
    rintro rfl
    exact hblocks
  · rw [heq]
    exact (or_iff_left (hhit bin)).symm
  · rw [heq, hit_init h]
    exact (or_iff_left (hhit bin)).symm

include h hselection hm in
theorem blocked_applyMark {bin : Bin} (hbin : plan.Valid bin) :
    blocked plan (applyMark plan selection state m) bin = true ↔
      (blocked plan state bin = true ∧ m ≠ .hit bin) ∨ (selection = some bin ∧ m.Blocks bin) := by
  rcases applyMark_cases plan selection state m with
    ⟨other, rfl, heq⟩ | ⟨other, -, rfl, heq⟩ | ⟨other, hother, hblocks, heq⟩ |
      ⟨hhit, hnot, heq | heq⟩
  · rw [heq, blocked_markHit h hm hbin, or_iff_left fun hblocks => hblocks.2]
    rcases eq_or_ne bin other with rfl | hne
    · rw [if_pos rfl]
      exact ⟨fun hfalse => absurd hfalse Bool.false_ne_true, fun hand => absurd rfl hand.2⟩
    · rw [if_neg hne, and_iff_left]
      intro heq
      exact hne (Mark.hit.inj heq).symm
  · rw [heq, blocked_markDeferred h, or_iff_left fun hblocks => hblocks.2]
    exact (and_iff_left Mark.noConfusion).symm
  · have hne : m ≠ .hit bin := by
      rintro rfl
      exact hblocks
    rw [heq, blocked_markBlocked h (hselection other hother) hbin, and_iff_left hne, hother]
    rcases eq_or_ne bin other with rfl | hne
    · rw [if_pos rfl]
      exact ⟨fun _ => .inr ⟨rfl, hblocks⟩, fun _ => rfl⟩
    · rw [if_neg hne, or_iff_left]
      rintro ⟨hsome, -⟩
      exact hne (Option.some.inj hsome).symm
  · rw [heq, and_iff_left (hhit bin), or_iff_left fun hblocks => (hnot bin hblocks.1).2 hblocks.2]
  · rw [heq, blocked_init h, and_iff_left (hhit bin),
      or_iff_left fun hblocks => (hnot bin hblocks.1).2 hblocks.2]

include h hselection in
theorem deferred_applyMark {bin : Bin} (hbin : plan.Valid bin) :
    deferred plan (applyMark plan selection state m) bin = true ↔
      deferred plan state bin = true ∨ (selection = some bin ∧ m = .defer) := by
  rcases applyMark_cases plan selection state m with
    ⟨other, rfl, heq⟩ | ⟨other, hother, rfl, heq⟩ | ⟨other, -, hblocks, heq⟩ |
      ⟨-, hnot, heq | heq⟩
  · rw [heq, deferred_markHit h]
    exact (or_iff_left fun hdefer => Mark.noConfusion hdefer.2).symm
  · rw [heq, deferred_markDeferred h (hselection other hother) hbin, hother]
    rcases eq_or_ne bin other with rfl | hne
    · rw [if_pos rfl]
      exact ⟨fun _ => .inr ⟨rfl, rfl⟩, fun _ => rfl⟩
    · rw [if_neg hne, or_iff_left]
      rintro ⟨hsome, -⟩
      exact hne (Option.some.inj hsome).symm
  · rw [heq, deferred_markBlocked h, or_iff_left]
    rintro ⟨-, rfl⟩
    exact hblocks
  · rw [heq, or_iff_left fun hdefer => (hnot bin hdefer.1).1 hdefer.2]
  · rw [heq, deferred_init h, or_iff_left fun hdefer => (hnot bin hdefer.1).1 hdefer.2]

end ApplyMark

/-- The loops of the selectors look for the first open bin of the group. -/
theorem findPoint_eq (plan : Plan) (state : State) (group : Nat) :
    (findPoint plan state group (plan.len group)).map (Bin.point group) =
      (plan.pointGroup group).find? (isOpen plan state) := by
  rw [Plan.pointGroup, List.find?_map]
  rfl

theorem findCross_eq (plan : Plan) (state : State) (group : Nat) :
    (findCross plan state group (plan.rows group) (plan.cols group)).map
        (fun c => Bin.cross group c.1 c.2) =
      (plan.crossGroup group).find? (isOpen plan state) := by
  rw [Plan.crossGroup, List.find?_flatMap, findCross, List.map_findSome?]
  apply congrArg fun f => List.findSome? f (List.range (plan.rows group))
  funext i
  rw [List.find?_map, Function.comp_apply, Option.map_map]
  rfl

theorem step_choosePoint {plan : Plan} {r : Run} (h : Started plan r.state) (group : Nat) :
    step plan r (.choosePoint group) =
      if r.selection.isSome then r
      else ⟨init plan r.state, (plan.pointGroup group).find? (isOpen plan r.state)⟩ := by
  rw [step, applyPointPreference]
  split
  · rfl
  · rename_i hnone
    rw [Option.not_isSome_iff_eq_none] at hnone
    have hopen : isOpen plan (init plan r.state) = isOpen plan r.state := by
      funext bin
      exact isOpen_init h bin
    rw [← hopen, ← findPoint_eq, List.length_range]
    cases hfind : findPoint plan (init plan r.state) group (plan.len group) with
    | none =>
        simp only [hfind, hnone]
        rfl
    | some i =>
        simp only [hfind]
        rfl

theorem step_chooseCross {plan : Plan} {r : Run} (h : Started plan r.state) (group : Nat) :
    step plan r (.chooseCross group) =
      if r.selection.isSome then r
      else ⟨init plan r.state, (plan.crossGroup group).find? (isOpen plan r.state)⟩ := by
  rw [step, applyCrossPreference]
  split
  · rfl
  · rename_i hnone
    rw [Option.not_isSome_iff_eq_none] at hnone
    have hopen : isOpen plan (init plan r.state) = isOpen plan r.state := by
      funext bin
      exact isOpen_init h bin
    rw [← hopen, ← findCross_eq, List.length_range, List.length_range]
    cases hfind : findCross plan (init plan r.state) group (plan.rows group) (plan.cols group) with
    | none =>
        simp only [hfind, hnone]
        rfl
    | some c =>
        simp only [hfind]
        rfl

/-- The vectors are as long as the plan asks for and the selection is one of its bins. -/
structure Run.Good (plan : Plan) (r : Run) : Prop where
  started : Started plan r.state
  selected : ∀ bin, r.selection = some bin → plan.Valid bin

theorem valid_of_mem_pointGroup {plan : Plan} {group : Nat} (hgroup : group < plan.points.length)
    {bin : Bin} (hbin : bin ∈ plan.pointGroup group) : plan.Valid bin := by
  obtain ⟨i, hi, rfl⟩ := List.mem_map.mp hbin
  exact ⟨hgroup, List.mem_range.mp hi⟩

theorem valid_of_mem_crossGroup {plan : Plan} {group : Nat} (hgroup : group < plan.crosses.length)
    {bin : Bin} (hbin : bin ∈ plan.crossGroup group) : plan.Valid bin := by
  obtain ⟨i, hi, hbin⟩ := List.mem_flatMap.mp hbin
  obtain ⟨j, hj, rfl⟩ := List.mem_map.mp hbin
  exact ⟨hgroup, List.mem_range.mp hi, List.mem_range.mp hj⟩

theorem Started.finishSelection {plan : Plan} {state : State} (h : Started plan state)
    (selection : Selection) : Started plan (finishSelection state selection) := by
  rw [AutoCoverageMarks.finishSelection]
  split
  · exact h
  · rcases h with rfl | ⟨hinit, ⟨hph, hpb, hpd⟩, ⟨hch, hcb, hcd⟩⟩
    · exact .inl rfl
    · exact .inr ⟨hinit, ⟨hph, hpb, (List.length_map _).trans hpd⟩,
        ⟨hch, hcb, (List.length_map _).trans hcd⟩⟩

theorem hit_finishSelection (plan : Plan) (state : State) (selection : Selection) (bin : Bin) :
    hit plan (finishSelection state selection) bin = hit plan state bin := by
  rw [finishSelection]
  split
  · rfl
  · cases bin <;> rfl

theorem blocked_finishSelection (plan : Plan) (state : State) (selection : Selection) (bin : Bin) :
    blocked plan (finishSelection state selection) bin = blocked plan state bin := by
  rw [finishSelection]
  split
  · rfl
  · cases bin <;> rfl

theorem deferred_finishSelection_none (plan : Plan) (state : State) (bin : Bin) :
    deferred plan (finishSelection state none) bin = false := by
  have hclear : ∀ f : Flags, f.clearDeferred.deferred.getD (plan.index bin) false = false := by
    intro f
    rw [Flags.clearDeferred, List.getD, List.getElem?_map]
    cases f.deferred[plan.index bin]? <;> rfl
  cases bin <;> exact hclear _

section Steps

variable {plan : Plan} {r : Run} (h : r.Good plan)

include h

theorem Run.Good.step {op : Op} (hop : op.Valid plan) : (step plan r op).Good plan := by
  cases op with
  | reset => exact ⟨h.started, nofun⟩
  | finish => exact ⟨h.started.finishSelection _, h.selected⟩
  | mark m => exact ⟨h.started.applyMark, h.selected⟩
  | choosePoint group =>
      rw [step_choosePoint h.started]
      split
      · exact h
      · exact ⟨.inr h.started.init,
          fun bin hbin => valid_of_mem_pointGroup hop (List.mem_of_find?_eq_some hbin)⟩
  | chooseCross group =>
      rw [step_chooseCross h.started]
      split
      · exact h
      · exact ⟨.inr h.started.init,
          fun bin hbin => valid_of_mem_crossGroup hop (List.mem_of_find?_eq_some hbin)⟩

/-- Only marks change what is hit and what is blocked. -/
theorem closed_step {op : Op} (hop : ∀ m, op ≠ .mark m) (bin : Bin) :
    hit plan (step plan r op).state bin = hit plan r.state bin ∧
      blocked plan (step plan r op).state bin = blocked plan r.state bin := by
  cases op with
  | reset => exact ⟨rfl, rfl⟩
  | finish => exact ⟨hit_finishSelection .., blocked_finishSelection ..⟩
  | mark m => exact absurd rfl (hop m)
  | choosePoint group =>
      rw [step_choosePoint h.started]
      split
      · exact ⟨rfl, rfl⟩
      · exact ⟨hit_init h.started bin, blocked_init h.started bin⟩
  | chooseCross group =>
      rw [step_chooseCross h.started]
      split
      · exact ⟨rfl, rfl⟩
      · exact ⟨hit_init h.started bin, blocked_init h.started bin⟩

theorem hit_step {op : Op} (hop : op.Valid plan) {bin : Bin} (hbin : plan.Valid bin) :
    hit plan (AutoCoverageMarks.step plan r op).state bin = true ↔
      hit plan r.state bin = true ∨ op = .mark (.hit bin) := by
  rcases Classical.em (∃ m, op = .mark m) with ⟨m, rfl⟩ | hnot
  · refine (hit_applyMark h.started hop hbin).trans (or_congr_right ?_)
    rw [Op.mark.injEq]
  · rw [not_exists] at hnot
    rw [(closed_step h hnot bin).1, or_iff_left (hnot _)]

/-- No bin is both hit and blocked. -/
theorem exclusive_step {op : Op} (hop : op.Valid plan) (hspares : op.Spares plan r) {bin : Bin}
    (hbin : plan.Valid bin)
    (hbefore : ¬ (hit plan r.state bin = true ∧ blocked plan r.state bin = true)) :
    ¬ (hit plan (AutoCoverageMarks.step plan r op).state bin = true ∧
      blocked plan (AutoCoverageMarks.step plan r op).state bin = true) := by
  rcases Classical.em (∃ m, op = .mark m) with ⟨m, rfl⟩ | hnot
  · rintro ⟨hhit, hblocked⟩
    change hit plan (applyMark plan r.selection r.state m) bin = true at hhit
    change blocked plan (applyMark plan r.selection r.state m) bin = true at hblocked
    rw [hit_applyMark h.started hop hbin] at hhit
    rw [blocked_applyMark h.started h.selected hop hbin] at hblocked
    rcases hblocked with ⟨hblocked, hne⟩ | ⟨hselected, hblocks⟩
    · exact hbefore ⟨hhit.resolve_right hne, hblocked⟩
    · rcases hhit with hhit | rfl
      · rw [hspares bin hselected hblocks] at hhit
        exact Bool.false_ne_true hhit
      · exact hblocks
  · rw [not_exists] at hnot
    rw [(closed_step h hnot bin).1, (closed_step h hnot bin).2]
    exact hbefore

end Steps

/-! ### Whole sequences -/

section Runs

variable {plan : Plan} {ops : List Op} {r : Run} (h : r.Good plan) (hops : ∀ op ∈ ops, op.Valid plan)

include h hops

theorem Run.Good.run : (run plan ops r).Good plan := by
  induction ops generalizing r with
  | nil => exact h
  | cons op ops ih =>
      rw [List.forall_mem_cons] at hops
      exact ih (h.step hops.1) hops.2

theorem hit_run {bin : Bin} (hbin : plan.Valid bin) :
    hit plan (AutoCoverageMarks.run plan ops r).state bin = true ↔
      hit plan r.state bin = true ∨ .mark (.hit bin) ∈ ops := by
  induction ops generalizing r with
  | nil => exact (or_iff_left List.not_mem_nil).symm
  | cons op ops ih =>
      rw [List.forall_mem_cons] at hops
      refine (ih (h.step hops.1) hops.2).trans ?_
      rw [hit_step h hops.1 hbin, or_assoc, List.mem_cons, @eq_comm _ op]

theorem exclusive_run (hspares : Spares plan r ops) {bin : Bin} (hbin : plan.Valid bin)
    (hbefore : ¬ (hit plan r.state bin = true ∧ blocked plan r.state bin = true)) :
    ¬ (hit plan (AutoCoverageMarks.run plan ops r).state bin = true ∧
      blocked plan (AutoCoverageMarks.run plan ops r).state bin = true) := by
  induction ops generalizing r with
  | nil => exact hbefore
  | cons op ops ih =>
      rw [List.forall_mem_cons] at hops
      exact ih (h.step hops.1) hops.2 hspares.2
        (exclusive_step h hops.1 hspares.1 hbin hbefore)

theorem blocked_run (hnot : ∀ m, .mark m ∈ ops → ∀ bin, ¬ m.Blocks bin) {bin : Bin}
    (hbin : plan.Valid bin) (hblocked : blocked plan (AutoCoverageMarks.run plan ops r).state bin) :
    blocked plan r.state bin = true := by
  induction ops generalizing r with
  | nil => exact hblocked
  | cons op ops ih =>
      rw [List.forall_mem_cons] at hops
      have hstep := ih (h.step hops.1) hops.2 (fun m hm => hnot m (List.mem_cons_of_mem _ hm))
        hblocked
      rcases Classical.em (∃ m, op = .mark m) with ⟨m, rfl⟩ | hother
      · rcases (blocked_applyMark h.started h.selected hops.1 hbin).mp hstep with hbefore | hblocks
        · exact hbefore.1
        · exact absurd hblocks.2 (hnot m List.mem_cons_self bin)
      · rw [not_exists] at hother
        rw [← (closed_step h hother bin).2]
        exact hstep

end Runs

theorem good_start (plan : Plan) : Run.Good plan {} := ⟨.inl rfl, nofun⟩

/-! ### Counting -/

theorem countP_getD (flags : List Bool) :
    (List.range flags.length).countP (fun n => flags.getD n false) = flags.count true := by
  have hflags : (List.range flags.length).map (fun n => flags.getD n false) = flags := by
    apply List.ext_getElem
    · rw [List.length_map, List.length_range]
    · intro n hn hn'
      rw [List.getElem_map, List.getElem_range, List.getD, List.getElem?_eq_getElem hn']
      rfl
  calc (List.range flags.length).countP (fun n => flags.getD n false)
      = ((List.range flags.length).map (fun n => flags.getD n false)).countP (· == true) := by
        rw [List.countP_map]
        apply congrArg fun p => List.countP p _
        funext n
        exact (beq_true _).symm
    _ = flags.count true := by
        rw [hflags]
        rfl

theorem countP_hit {plan : Plan} {state : State} (h : Prepared plan state) :
    plan.bins.countP (hit plan state) =
      state.points.hit.count true + state.crosses.hit.count true := by
  have hpoints : plan.pointBins.countP (hit plan state) = state.points.hit.count true := by
    rw [← countP_getD, h.points.hit, ← plan.map_index_pointBins, List.countP_map]
    apply List.countP_congr
    rintro (⟨group, i⟩ | ⟨group, i, j⟩) hbin
    · rfl
    · exact absurd hbin Plan.cross_notMem_pointBins
  have hcrosses : plan.crossBins.countP (hit plan state) = state.crosses.hit.count true := by
    rw [← countP_getD, h.crosses.hit, ← plan.map_index_crossBins, List.countP_map]
    apply List.countP_congr
    rintro (⟨group, i⟩ | ⟨group, i, j⟩) hbin
    · exact absurd hbin Plan.point_notMem_crossBins
    · rfl
  rw [Plan.bins, List.countP_append, hpoints, hcrosses, Nat.add_comm]

/-- The report counts the bins that are hit. -/
theorem report_hit {plan : Plan} {state : State} (h : Started plan state) :
    (report plan state).hit = plan.bins.countP (hit plan state) := by
  have hinit : hit plan (init plan state) = hit plan state := by
    funext bin
    exact hit_init h bin
  rw [← hinit, countP_hit h.init]
  rfl

end Harc.AutoCoverageMarks
