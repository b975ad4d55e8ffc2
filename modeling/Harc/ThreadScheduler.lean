import Mathlib.Data.List.Basic

/-!
The cooperative scheduler of the runtime (`runtime/harc_thread_rt.h`).

A slot is known by its place in the scheduler's vector.  What a coroutine does between two
suspensions is a parameter: any change of the scheduler and of the world around it.  Reading the
vector of flags of a tick outside its bounds is a fault.
-/

namespace Harc.ThreadScheduler

inductive WaitKind where
  | ready
  | waitUntil
  | waitUntilTimeout
  | waitCycles
  | done
deriving DecidableEq

structure ThreadSlot (W : Type) where
  kind : WaitKind
  cyclesRemaining : Nat
  pred : Option (W → Bool)
  timedOut : Bool
  /-- `thread.done()` -/
  finished : Bool

namespace ThreadSlot

variable {W : Type}

def holds (slot : ThreadSlot W) (world : W) : Bool := slot.pred.any fun pred => pred world

/-- What `wait_cycles` writes when the coroutine suspends. -/
def suspendCycles (slot : ThreadSlot W) (n : Nat) : ThreadSlot W :=
  { slot with kind := .waitCycles, cyclesRemaining := n }

/-- The first pass of a tick over one slot. -/
def advance (world : W) (slot : ThreadSlot W) : ThreadSlot W :=
  match slot.kind with
  | .waitCycles =>
      { slot with
        cyclesRemaining := slot.cyclesRemaining - 1
        kind := if slot.cyclesRemaining - 1 = 0 then .ready else .waitCycles }
  | .waitUntil => if slot.holds world then { slot with kind := .ready } else slot
  | .waitUntilTimeout =>
      if slot.holds world then { slot with kind := .ready, timedOut := false }
      else if 0 < slot.cyclesRemaining then
        if slot.cyclesRemaining - 1 = 0 then
          { slot with cyclesRemaining := 0, kind := .ready, timedOut := true }
        else { slot with cyclesRemaining := slot.cyclesRemaining - 1 }
      else { slot with kind := .ready, timedOut := true }
  | _ => slot

end ThreadSlot

structure Scheduler (W : Type) where
  slots : List (ThreadSlot W)
  world : W

/-- What the coroutine of a slot does from its resumption to its next suspension. -/
abbrev Body (W : Type) := Nat → Scheduler W → Scheduler W

inductive Fault where
  | outOfBounds
  | outOfFuel
deriving DecidableEq

/-- A tick that is going on, with the slots that it has resumed and what they became. -/
structure Tick (W : Type) where
  scheduler : Scheduler W
  resumed : List Bool
  changed : Bool
  log : List (Nat × ThreadSlot W)

section Tick

variable {W : Type}

def advanceAll (excluded : Option Nat) (s : Scheduler W) : Scheduler W :=
  { s with
    slots := s.slots.mapIdx fun i slot => if excluded = some i then slot else slot.advance s.world }

/-- `thread.resume()` and the mark of a coroutine that has come to its end. -/
def resumeAt (body : Body W) (i : Nat) (slot : ThreadSlot W) (s : Scheduler W) : Scheduler W :=
  let s := if slot.finished then s else body i s
  { s with
    slots := s.slots.modify i fun slot =>
      if slot.finished then { slot with kind := .done } else slot }

def resumeStep (body : Body W) (excluded : Option Nat) (i : Nat) (t : Tick W) :
    Except Fault (Tick W) :=
  if excluded = some i then .ok t
  else
    match t.scheduler.slots[i]? with
    | none => .ok t
    | some slot =>
        if slot.kind = .ready then
          match t.resumed[i]? with
          | none => .error .outOfBounds
          | some true => .ok t
          | some false =>
              let s := resumeAt body i slot t.scheduler
              .ok
                { scheduler := s
                  resumed := t.resumed.set i true
                  changed := true
                  log := t.log ++ s.slots[i]?.toList.map fun slot => (i, slot) }
        else .ok t

/-- A slot whose predicate has come to hold. -/
def wake (world : W) (slot : ThreadSlot W) : Option (ThreadSlot W) :=
  if slot.kind = .waitUntil ∧ slot.holds world then some { slot with kind := .ready }
  else if slot.kind = .waitUntilTimeout ∧ slot.holds world then
    some { slot with kind := .ready, timedOut := false }
  else none

def predStep (excluded : Option Nat) (i : Nat) (t : Tick W) : Except Fault (Tick W) :=
  if excluded = some i then .ok t
  else
    match t.resumed[i]? with
    | none => .error .outOfBounds
    | some true => .ok t
    | some false =>
        match t.scheduler.slots[i]?.bind (wake t.scheduler.world) with
        | none => .ok t
        | some slot =>
            .ok { t with
              scheduler := { t.scheduler with slots := t.scheduler.slots.set i slot }
              changed := true }

/-- A loop over the slots that reads their number again at every turn. -/
def forSlots (step : Nat → Tick W → Except Fault (Tick W)) :
    Nat → Nat → Tick W → Except Fault (Tick W)
  | 0, _, _ => .error .outOfFuel
  | fuel + 1, i, t =>
      if i < t.scheduler.slots.length then
        match step i t with
        | .error fault => .error fault
        | .ok t' => forSlots step fuel (i + 1) t'
      else .ok t

def settle (body : Body W) (excluded : Option Nat) : Nat → Tick W → Except Fault (Tick W)
  | 0, _ => .error .outOfFuel
  | fuel + 1, t =>
      match forSlots (resumeStep body excluded) fuel 0 { t with changed := false } with
      | .error fault => .error fault
      | .ok t' =>
          match forSlots (predStep excluded) fuel 0 t' with
          | .error fault => .error fault
          | .ok t'' => if t''.changed then settle body excluded fuel t'' else .ok t''

/-- A tick that is given no turns does not settle. -/
example (body : Body W) (t : Tick W) : settle body none 1 t = .error .outOfFuel := by
  simp [settle, forSlots]

def tickStart (excluded : Option Nat) (s : Scheduler W) : Tick W where
  scheduler := advanceAll excluded s
  resumed := List.replicate s.slots.length false
  changed := true
  log := []

def tickExcept (fuel : Nat) (body : Body W) (excluded : Option Nat) (s : Scheduler W) :
    Except Fault (Tick W) :=
  settle body excluded fuel (tickStart excluded s)

def bootStep (body : Body W) (i : Nat) (t : Tick W) : Except Fault (Tick W) :=
  match t.scheduler.slots[i]? with
  | none => .ok t
  | some slot =>
      if slot.kind = .ready then
        let s := resumeAt body i slot t.scheduler
        .ok { t with
          scheduler := s
          log := t.log ++ s.slots[i]?.toList.map fun slot => (i, slot) }
      else .ok t

/-- The slots run to their first wait, before the first edge. -/
def bootstrap (fuel : Nat) (body : Body W) (s : Scheduler W) : Except Fault (Tick W) :=
  forSlots (bootStep body) fuel 0 ⟨s, [], false, []⟩

end Tick

end Harc.ThreadScheduler
