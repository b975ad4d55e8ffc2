import Mathlib.Logic.Relation
import Mathlib.Algebra.BigOperators.Group.List.Basic
import Mathlib.Algebra.Order.Ring.Int

/-!
The handshake between the simulator thread and the testbench thread
(`runtime/harc_cosim_rt.h`).

A section under the mutex is one step.  A wait on the condition variable is a place whose
steps evaluate the predicate under the mutex; one that finds it false changes nothing.  Which
thread sleeps, and what wakes it, is added in the last part.
-/

namespace Harc.CosimBridge

def rcSettle : Int := 0
def rcDonePass : Int := -1
def rcDoneFail : Int := -2

structure Bridge where
  turnTb : Bool
  started : Bool
  done : Bool
  exitCode : Int
  request : Int
  nowPs : Int
  nextEdgePs : Int
  halfPeriodPs : Int
  /-- Whether a body has been selected. -/
  body : Bool
deriving DecidableEq

/-- The member function that a body is in while it waits for the simulator. -/
inductive Call where
  | settle
  | advanceToNextEdge
deriving DecidableEq

inductive TbPlace where
  | notStarted
  /-- Waits for its first turn. -/
  | firstWait
  /-- In the code of the body. -/
  | running
  /-- Waits in `yield_to_sim`. -/
  | waiting (call : Call)
  /-- Back from `yield_to_sim`. -/
  | resumed (call : Call)
  /-- The body has returned. -/
  | exiting (rc : Int)
  /-- Past its last section. -/
  | leaving
  | finished
deriving DecidableEq

inductive SimPlace where
  /-- Outside of `run_until_request`. -/
  | outside
  | waiting
  | joining
deriving DecidableEq

structure System where
  bridge : Bridge
  tb : TbPlace
  sim : SimPlace
  /-- The requests passed to `yield_to_sim`. -/
  passed : List Int
  /-- The codes that calls of `run_until_request` have returned. -/
  returned : List Int
  /-- What the body has returned. -/
  outcome : Option Int
deriving DecidableEq

def initial (halfPeriodPs : Int) (body : Bool) : System where
  bridge := ⟨false, false, false, 1, rcSettle, 0, 0, halfPeriodPs, body⟩
  tb := .notStarted
  sim := .outside
  passed := []
  returned := []
  outcome := none

/-! ### The testbench thread -/

namespace System

def yieldToSim (s : System) (call : Call) (rc : Int) : System :=
  { s with
    bridge := { s.bridge with request := rc, turnTb := false }
    tb := .waiting call
    passed := s.passed ++ [rc] }

def settle (s : System) : System := s.yieldToSim .settle rcSettle

def advanceToNextEdge (s : System) : System :=
  let nextEdgePs := s.bridge.nextEdgePs + s.bridge.halfPeriodPs
  let advanced := { s with bridge := { s.bridge with nextEdgePs := nextEdgePs } }
  if nextEdgePs > s.bridge.nowPs then
    advanced.yieldToSim .advanceToNextEdge (nextEdgePs - s.bridge.nowPs)
  else advanced

/-- The rest of the member function, after `yield_to_sim`. -/
def afterYield (s : System) : Call → System
  | .settle =>
      { s with bridge := { s.bridge with nowPs := s.bridge.nowPs + 1 }, tb := .running }
  | .advanceToNextEdge =>
      { s with bridge := { s.bridge with nowPs := s.bridge.nextEdgePs }, tb := .running }

def wakeTb (s : System) (call : Call) : System :=
  if s.bridge.turnTb then { s with tb := .resumed call } else s

def wakeFirst (s : System) : System :=
  if s.bridge.turnTb then
    if s.bridge.body then { s with tb := .running }
    else { s with tb := .exiting 1, outcome := some 1 }
  else s

def bodyReturns (s : System) (rc : Int) : System :=
  { s with tb := .exiting rc, outcome := some rc }

/-- The last section of the thread. -/
def publish (s : System) (rc : Int) : System :=
  { s with
    bridge := { s.bridge with exitCode := rc, done := true, turnTb := false }
    tb := .leaving }

/-! ### The simulator thread -/

def doneCode (rc : Int) : Int := if rc = 0 then rcDonePass else rcDoneFail

def returns (s : System) (code : Int) : System :=
  { s with sim := .outside, returned := s.returned ++ [code] }

/-- A call of `run_until_request` up to its wait. -/
def runUntilRequest (s : System) : System :=
  if s.bridge.done then s.returns (doneCode s.bridge.exitCode)
  else
    { s with
      bridge := { s.bridge with started := true, turnTb := true }
      tb := if s.bridge.started then s.tb else .firstWait
      sim := .waiting }

def wakeSim (s : System) : System :=
  if s.bridge.turnTb then s
  else if s.bridge.done then { s with sim := .joining }
  else s.returns s.bridge.request

def joined (s : System) : System := s.returns (doneCode s.bridge.exitCode)

end System

/-! ### Interleavings -/

inductive Step : System → System → Prop where
  | call {s} (h : s.sim = .outside) : Step s s.runUntilRequest
  | wakeSim {s} (h : s.sim = .waiting) : Step s s.wakeSim
  | join {s} (h : s.sim = .joining) (htb : s.tb = .finished) : Step s s.joined
  | wakeFirst {s} (h : s.tb = .firstWait) : Step s s.wakeFirst
  | wakeTb {s call} (h : s.tb = .waiting call) : Step s (s.wakeTb call)
  | afterYield {s call} (h : s.tb = .resumed call) : Step s (s.afterYield call)
  | settle {s} (h : s.tb = .running) : Step s s.settle
  | advanceToNextEdge {s} (h : s.tb = .running) : Step s s.advanceToNextEdge
  | bodyReturns {s} (rc : Int) (h : s.tb = .running) : Step s (s.bodyReturns rc)
  | publish {s rc} (h : s.tb = .exiting rc) : Step s (s.publish rc)
  | leave {s} (h : s.tb = .leaving) : Step s { s with tb := .finished }

def Reachable (s : System) : Prop :=
  ∃ halfPeriodPs body, Relation.ReflTransGen Step (initial halfPeriodPs body) s

/-! ### The invariant -/

/-- The simulated time that a request takes. -/
def duration (request : Int) : Int := if request > 0 then request else 1

/-- The requests whose member functions have returned to the body. -/
def System.answered (s : System) : List Int :=
  match s.tb with
  | .waiting _ | .resumed _ => s.passed.dropLast
  | _ => s.passed

def totalTime (requests : List Int) : Int := (requests.map duration).sum

/-- The request a waiting or resumed body has passed. -/
def Owes (b : Bridge) (request : Int) : Call → Prop
  | .settle => request = rcSettle
  | .advanceToNextEdge => 0 < request ∧ b.nowPs + request = b.nextEdgePs

/-- A request that waits to be returned, the simulator at work, or the turn given back. -/
inductive Waiting (b : Bridge) (request : Int) (answered returned : List Int) : SimPlace → Prop where
  | pending (hturn : b.turnTb = false) (hrequest : b.request = request)
      (hreturned : returned = answered) : Waiting b request answered returned .waiting
  | atWork (hturn : b.turnTb = false) (hreturned : returned = answered ++ [request]) :
      Waiting b request answered returned .outside
  | givenBack (hturn : b.turnTb = true) (hreturned : returned = answered ++ [request]) :
      Waiting b request answered returned .waiting

/-- What holds while the body has the turn. -/
structure TbTurn (s : System) : Prop where
  started : s.bridge.started = true
  notDone : s.bridge.done = false
  turn : s.bridge.turnTb = true
  sim : s.sim = .waiting
  returned : s.returned = s.passed

/-- What holds once the body's outcome is published. -/
structure Published (s : System) (rc : Int) : Prop where
  done : s.bridge.done = true
  exitCode : s.bridge.exitCode = rc
  turn : s.bridge.turnTb = false

/-- What holds at each place of the testbench thread. -/
inductive Phase (s : System) : TbPlace → Prop where
  | notStarted (hstarted : s.bridge.started = false) (hdone : s.bridge.done = false)
      (hsim : s.sim = .outside) (hpassed : s.passed = []) (hreturned : s.returned = [])
      (houtcome : s.outcome = none) : Phase s .notStarted
  | firstWait (h : TbTurn s) (hpassed : s.passed = []) (houtcome : s.outcome = none) :
      Phase s .firstWait
  | running (h : TbTurn s) (houtcome : s.outcome = none) : Phase s .running
  | waiting (call : Call) (hstarted : s.bridge.started = true) (hdone : s.bridge.done = false)
      (answered : List Int) (request : Int) (hpassed : s.passed = answered ++ [request])
      (howes : Owes s.bridge request call)
      (hsim : Waiting s.bridge request answered s.returned s.sim)
      (houtcome : s.outcome = none) : Phase s (.waiting call)
  | resumed (call : Call) (h : TbTurn s) (answered : List Int) (request : Int)
      (hpassed : s.passed = answered ++ [request]) (howes : Owes s.bridge request call)
      (houtcome : s.outcome = none) : Phase s (.resumed call)
  | exiting (rc : Int) (h : TbTurn s) (houtcome : s.outcome = some rc) : Phase s (.exiting rc)
  | leaving (rc : Int) (h : Published s rc) (hsim : s.sim ≠ .outside)
      (hreturned : s.returned = s.passed) (houtcome : s.outcome = some rc) : Phase s .leaving
  | finished (rc : Int) (h : Published s rc) (calls : Nat)
      (hreturned : s.returned = s.passed ++ List.replicate calls (System.doneCode rc))
      (houtcome : s.outcome = some rc) : Phase s .finished

structure Inv (s : System) : Prop where
  phase : Phase s s.tb
  requests : ∀ r ∈ s.passed, 0 ≤ r
  time : s.bridge.nowPs = totalTime s.answered

theorem inv_initial (halfPeriodPs : Int) (body : Bool) : Inv (initial halfPeriodPs body) :=
  ⟨.notStarted rfl rfl rfl rfl rfl rfl, by simp [initial], rfl⟩

/-! ### Steps of the simulator -/

section Steps

variable {s : System}

theorem Inv.call (h : Inv s) (hsim : s.sim = .outside) : Inv s.runUntilRequest := by
  obtain ⟨⟨turnTb, started, done, exitCode, request, nowPs, nextEdgePs, halfPeriodPs, body⟩, tb, sim,
    passed, returned, outcome⟩ := s
  obtain ⟨hphase, hrequests, htime⟩ := h
  cases hsim
  cases hphase with
  | notStarted hstarted hdone _ hpassed hreturned houtcome =>
      cases hstarted
      cases hdone
      exact ⟨.firstWait ⟨rfl, rfl, rfl, rfl, hreturned.trans hpassed.symm⟩ hpassed houtcome,
        hrequests, htime⟩
  | waiting call hstarted hdone answered request hpassed howes hwaiting houtcome =>
      cases hstarted
      cases hdone
      cases hwaiting with
      | atWork _ hreturned =>
          refine ⟨.waiting call rfl rfl answered request hpassed ?_ (.givenBack rfl hreturned) houtcome,
            hrequests, htime⟩
          cases call <;> exact howes
  | finished rc hpublished calls hreturned houtcome =>
      obtain ⟨hdone, hexit, hturn⟩ := hpublished
      cases hdone
      cases hexit
      refine ⟨.finished exitCode ⟨rfl, rfl, hturn⟩ (calls + 1) ?_ houtcome, hrequests, htime⟩
      dsimp only at hreturned
      simp [System.runUntilRequest, System.returns, hreturned, List.replicate_succ']
  | firstWait hturn | running hturn | resumed _ hturn | exiting _ hturn => cases hturn.sim
  | leaving rc _ hne => exact absurd rfl hne

theorem Inv.wakeSim (h : Inv s) (hsim : s.sim = .waiting) : Inv s.wakeSim := by
  have hinv := h
  obtain ⟨⟨turnTb, started, done, exitCode, request, nowPs, nextEdgePs, halfPeriodPs, body⟩, tb, sim,
    passed, returned, outcome⟩ := s
  obtain ⟨hphase, hrequests, htime⟩ := h
  cases hsim
  -- a simulator that finds the turn with the testbench goes back to its wait
  cases turnTb with
  | true => exact hinv
  | false =>
      cases hphase with
      | notStarted _ _ hsim => cases hsim
      | waiting call hstarted hdone answered request hpassed howes hwaiting houtcome =>
          cases hdone
          cases hwaiting with
          | pending _ hrequest hreturned =>
              cases hrequest
              refine ⟨.waiting call hstarted rfl answered _ hpassed howes (.atWork rfl ?_) houtcome,
                hrequests, htime⟩
              cases hreturned
              rfl
          | givenBack hturn => cases hturn
      | finished rc hpublished calls hreturned houtcome =>
          obtain ⟨hdone, hexit, hturn⟩ := hpublished
          cases hdone
          exact ⟨.finished rc ⟨rfl, hexit, rfl⟩ calls hreturned houtcome, hrequests, htime⟩
      | leaving rc hpublished _ hreturned houtcome =>
          obtain ⟨hdone, hexit, hturn⟩ := hpublished
          cases hdone
          exact ⟨.leaving rc ⟨rfl, hexit, rfl⟩ (by simp [System.wakeSim]) hreturned houtcome,
            hrequests, htime⟩
      | firstWait hturn | running hturn | resumed _ hturn | exiting _ hturn => cases hturn.turn

theorem Inv.join (h : Inv s) (htb : s.tb = .finished) : Inv s.joined := by
  obtain ⟨b, tb, sim, passed, returned, outcome⟩ := s
  obtain ⟨hphase, hrequests, htime⟩ := h
  cases htb
  cases hphase with
  | finished rc hpublished calls hreturned houtcome =>
      refine ⟨.finished rc ⟨hpublished.done, hpublished.exitCode, hpublished.turn⟩ (calls + 1) ?_
        houtcome, hrequests, htime⟩
      have hexit : b.exitCode = rc := hpublished.exitCode
      dsimp only at hreturned
      simp [System.joined, System.returns, hexit, hreturned, List.replicate_succ']

/-! ### Steps of the testbench -/

theorem Inv.wakeFirst (h : Inv s) (htb : s.tb = .firstWait) : Inv s.wakeFirst := by
  obtain ⟨⟨turnTb, started, done, exitCode, request, nowPs, nextEdgePs, halfPeriodPs, body⟩, tb, sim,
    passed, returned, outcome⟩ := s
  obtain ⟨hphase, hrequests, htime⟩ := h
  cases htb
  cases hphase with
  | firstWait hturn hpassed houtcome =>
      obtain ⟨hstarted, hdone, hturn, hsim, hreturned⟩ := hturn
      cases hturn
      cases body with
      | true => exact ⟨.running ⟨hstarted, hdone, rfl, hsim, hreturned⟩ houtcome, hrequests, htime⟩
      | false => exact ⟨.exiting 1 ⟨hstarted, hdone, rfl, hsim, hreturned⟩ rfl, hrequests, htime⟩

theorem Inv.wakeTb {call : Call} (h : Inv s) (htb : s.tb = .waiting call) : Inv (s.wakeTb call) := by
  have hinv := h
  obtain ⟨⟨turnTb, started, done, exitCode, request, nowPs, nextEdgePs, halfPeriodPs, body⟩, tb, sim,
    passed, returned, outcome⟩ := s
  obtain ⟨hphase, hrequests, htime⟩ := h
  cases htb
  cases turnTb with
  | false => exact hinv
  | true =>
      cases hphase with
      | waiting _ hstarted hdone answered request hpassed howes hwaiting houtcome =>
          cases hwaiting with
          | givenBack _ hreturned =>
              exact ⟨.resumed call ⟨hstarted, hdone, rfl, rfl, hreturned.trans hpassed.symm⟩ answered
                request hpassed howes houtcome, hrequests, htime⟩
          | pending hturn | atWork hturn => cases hturn

theorem totalTime_append (requests : List Int) (request : Int) :
    totalTime (requests ++ [request]) = totalTime requests + duration request := by
  simp [totalTime]

theorem Inv.afterYield {call : Call} (h : Inv s) (htb : s.tb = .resumed call) :
    Inv (s.afterYield call) := by
  obtain ⟨b, tb, sim, passed, returned, outcome⟩ := s
  obtain ⟨hphase, hrequests, htime⟩ := h
  cases htb
  cases hphase with
  | resumed _ hturn answered request hpassed howes houtcome =>
      obtain ⟨hstarted, hdone, hturn, hsim, hreturned⟩ := hturn
      cases hpassed
      change b.nowPs = totalTime (answered ++ [request]).dropLast at htime
      rw [List.dropLast_concat] at htime
      cases call with
      | settle =>
          cases howes
          refine ⟨.running ⟨hstarted, hdone, hturn, hsim, hreturned⟩ houtcome, hrequests, ?_⟩
          change b.nowPs + 1 = totalTime (answered ++ [rcSettle])
          rw [totalTime_append, htime]
          rfl
      | advanceToNextEdge =>
          obtain ⟨hpos, hedge⟩ := howes
          refine ⟨.running ⟨hstarted, hdone, hturn, hsim, hreturned⟩ houtcome, hrequests, ?_⟩
          change b.nextEdgePs = totalTime (answered ++ [request])
          rw [totalTime_append, ← htime, duration, if_pos hpos]
          exact hedge.symm

/-- A request passed from the body. -/
theorem Inv.yieldToSim {call : Call} {request : Int} (h : Inv s) (htb : s.tb = .running)
    (hrequest : 0 ≤ request) (howes : Owes s.bridge request call) :
    Inv (s.yieldToSim call request) := by
  obtain ⟨b, tb, sim, passed, returned, outcome⟩ := s
  obtain ⟨hphase, hrequests, htime⟩ := h
  cases htb
  cases hphase with
  | running hturn houtcome =>
      obtain ⟨hstarted, hdone, -, hsim, hreturned⟩ := hturn
      cases hsim
      cases hreturned
      refine ⟨.waiting call hstarted hdone passed request rfl ?_ (.pending rfl rfl rfl) houtcome, ?_, ?_⟩
      · cases call <;> exact howes
      · intro r hr
        rcases List.mem_append.mp hr with hr | hr
        · exact hrequests r hr
        · rw [List.mem_singleton.mp hr]
          exact hrequest
      · change b.nowPs = totalTime (passed ++ [request]).dropLast
        rw [List.dropLast_concat]
        exact htime

theorem Inv.settle (h : Inv s) (htb : s.tb = .running) : Inv s.settle :=
  h.yieldToSim htb (Int.le_refl 0) rfl

/-- The place of the next edge is the body's alone while it runs. -/
theorem Inv.nextEdge (h : Inv s) (htb : s.tb = .running) (nextEdgePs : Int) :
    Inv { s with bridge := { s.bridge with nextEdgePs := nextEdgePs } } := by
  obtain ⟨b, tb, sim, passed, returned, outcome⟩ := s
  obtain ⟨hphase, hrequests, htime⟩ := h
  cases htb
  cases hphase with
  | running hturn houtcome =>
      obtain ⟨hstarted, hdone, hturn, hsim, hreturned⟩ := hturn
      exact ⟨.running ⟨hstarted, hdone, hturn, hsim, hreturned⟩ houtcome, hrequests, htime⟩

theorem Inv.advanceToNextEdge (h : Inv s) (htb : s.tb = .running) : Inv s.advanceToNextEdge := by
  have hmoved := h.nextEdge htb (s.bridge.nextEdgePs + s.bridge.halfPeriodPs)
  unfold System.advanceToNextEdge
  dsimp only
  split
  · rename_i hlate
    apply hmoved.yieldToSim htb
    · omega
    · refine ⟨by omega, ?_⟩
      dsimp only
      omega
  · exact hmoved

theorem Inv.bodyReturns (h : Inv s) (htb : s.tb = .running) (rc : Int) : Inv (s.bodyReturns rc) := by
  obtain ⟨b, tb, sim, passed, returned, outcome⟩ := s
  obtain ⟨hphase, hrequests, htime⟩ := h
  cases htb
  cases hphase with
  | running hturn houtcome =>
      obtain ⟨hstarted, hdone, hturn, hsim, hreturned⟩ := hturn
      exact ⟨.exiting rc ⟨hstarted, hdone, hturn, hsim, hreturned⟩ rfl, hrequests, htime⟩

theorem Inv.publish {rc : Int} (h : Inv s) (htb : s.tb = .exiting rc) : Inv (s.publish rc) := by
  obtain ⟨b, tb, sim, passed, returned, outcome⟩ := s
  obtain ⟨hphase, hrequests, htime⟩ := h
  cases htb
  cases hphase with
  | exiting _ hturn houtcome =>
      obtain ⟨-, -, -, hsim, hreturned⟩ := hturn
      cases hsim
      exact ⟨.leaving rc ⟨rfl, rfl, rfl⟩ (by simp [System.publish]) hreturned houtcome, hrequests, htime⟩

theorem Inv.leave (h : Inv s) (htb : s.tb = .leaving) : Inv { s with tb := .finished } := by
  obtain ⟨b, tb, sim, passed, returned, outcome⟩ := s
  obtain ⟨hphase, hrequests, htime⟩ := h
  cases htb
  cases hphase with
  | leaving rc hpublished hsim hreturned houtcome =>
      refine ⟨.finished rc ⟨hpublished.done, hpublished.exitCode, hpublished.turn⟩ 0 ?_ houtcome,
        hrequests, htime⟩
      cases hreturned
      simp

theorem Inv.step {s' : System} (h : Inv s) (hstep : Step s s') : Inv s' := by
  cases hstep with
  | call hsim => exact h.call hsim
  | wakeSim hsim => exact h.wakeSim hsim
  | join _ htb => exact h.join htb
  | wakeFirst htb => exact h.wakeFirst htb
  | wakeTb htb => exact h.wakeTb htb
  | afterYield htb => exact h.afterYield htb
  | settle htb => exact h.settle htb
  | advanceToNextEdge htb => exact h.advanceToNextEdge htb
  | bodyReturns rc htb => exact h.bodyReturns htb rc
  | publish htb => exact h.publish htb
  | leave htb => exact h.leave htb

end Steps

theorem Reachable.inv {s : System} (h : Reachable s) : Inv s := by
  obtain ⟨halfPeriodPs, body, hrun⟩ := h
  induction hrun with
  | refl => exact inv_initial halfPeriodPs body
  | tail _ hstep ih => exact ih.step hstep

/-! ### The handshake -/

/-- The thread is outside of every wait. -/
def TbPlace.isRunning : TbPlace → Bool
  | .running | .resumed _ | .exiting _ | .leaving => true
  | _ => false

namespace System

/-- The request that the simulator has still to return. -/
def pending (s : System) : List Int :=
  if s.sim = .waiting ∧ s.bridge.turnTb = false ∧ s.bridge.done = false then [s.bridge.request]
  else []

/-- The requests among the codes returned; the done codes are negative. -/
def returnedRequests (s : System) : List Int := s.returned.filter fun c => decide (0 ≤ c)

end System

theorem doneCode_neg (rc : Int) : System.doneCode rc < 0 := by
  unfold System.doneCode rcDonePass rcDoneFail
  split <;> decide

section Handshake

variable {s : System}

theorem Inv.exclusive (h : Inv s) : ¬ (s.sim = .outside ∧ s.tb.isRunning = true) := by
  rintro ⟨hsim, hrunning⟩
  obtain ⟨b, tb, sim, passed, returned, outcome⟩ := s
  obtain ⟨hphase, -, -⟩ := h
  cases hsim
  cases hphase with
  | notStarted | firstWait | waiting | finished => cases hrunning
  | running hturn | resumed _ hturn | exiting _ hturn => cases hturn.sim
  | leaving _ _ hsim => exact hsim rfl

theorem filter_requests {requests : List Int} (h : ∀ r ∈ requests, 0 ≤ r) :
    requests.filter (fun c => decide (0 ≤ c)) = requests := by
  rw [List.filter_eq_self]
  intro r hr
  simpa using h r hr

theorem filter_doneCodes (calls : Nat) (rc : Int) :
    (List.replicate calls (System.doneCode rc)).filter (fun c => decide (0 ≤ c)) = [] := by
  rw [List.filter_eq_nil_iff]
  intro c hc
  rw [List.eq_of_mem_replicate hc]
  simpa using doneCode_neg rc

theorem TbTurn.pending (h : TbTurn s) : s.pending = [] := by
  rw [System.pending, if_neg]
  rintro ⟨-, hturn, -⟩
  rw [h.turn] at hturn
  cases hturn

theorem Published.pending {rc : Int} (h : Published s rc) : s.pending = [] := by
  rw [System.pending, if_neg]
  rintro ⟨-, -, hdone⟩
  rw [h.done] at hdone
  cases hdone

theorem TbTurn.delivered (h : TbTurn s) (hrequests : ∀ r ∈ s.passed, 0 ≤ r) :
    s.passed = s.returnedRequests ++ s.pending := by
  rw [h.pending, System.returnedRequests, h.returned, filter_requests hrequests, List.append_nil]

/-- What is returned is what was passed, but for the request that is pending. -/
theorem Inv.delivered (h : Inv s) : s.passed = s.returnedRequests ++ s.pending := by
  have hrequests := filter_requests h.requests
  have hphase := h.phase
  generalize s.tb = tb at hphase
  cases hphase with
  | notStarted _ _ hsim hpassed hreturned =>
      simp [hpassed, hreturned, System.pending, System.returnedRequests, hsim]
  | firstWait hturn | running hturn | resumed _ hturn | exiting _ hturn =>
      exact hturn.delivered h.requests
  | waiting _ _ hdone answered request hpassed _ hwaiting =>
      unfold System.returnedRequests
      generalize hsim : s.sim = sim at hwaiting
      cases hwaiting with
      | pending hturn hrequest hreturned =>
          have hanswered : ∀ r ∈ answered, 0 ≤ r := by
            intro r hr
            apply h.requests
            rw [hpassed]
            exact List.mem_append_left _ hr
          rw [System.pending, if_pos ⟨hsim, hturn, hdone⟩, hreturned, filter_requests hanswered,
            hrequest, hpassed]
      | atWork hturn hreturned =>
          rw [System.pending, if_neg (by simp [hsim]), hreturned, ← hpassed, hrequests,
            List.append_nil]
      | givenBack hturn hreturned =>
          rw [System.pending, if_neg (by simp [hturn]), hreturned, ← hpassed, hrequests,
            List.append_nil]
  | leaving _ hpublished _ hreturned =>
      rw [hpublished.pending, System.returnedRequests, hreturned, hrequests, List.append_nil]
  | finished rc hpublished calls hreturned =>
      rw [hpublished.pending, System.returnedRequests, hreturned, List.filter_append,
        filter_doneCodes, hrequests, List.append_nil, List.append_nil]

/-- The done codes are those of the body's outcome. -/
theorem Inv.codes (h : Inv s) {c : Int} (hc : c ∈ s.returned) (hneg : c < 0) :
    ∃ rc, s.outcome = some rc ∧ c = System.doneCode rc := by
  have hnot : c ∉ s.passed := fun hmem => absurd (h.requests c hmem) (by omega)
  have hphase := h.phase
  generalize s.tb = tb at hphase
  cases hphase with
  | notStarted _ _ _ _ hreturned => simp [hreturned] at hc
  | firstWait hturn | running hturn | resumed _ hturn | exiting _ hturn =>
      exact absurd (hturn.returned ▸ hc) hnot
  | waiting _ _ _ answered request hpassed _ hwaiting =>
      generalize s.sim = sim at hwaiting
      cases hwaiting with
      | pending _ _ hreturned =>
          rw [hpassed] at hnot
          exact absurd (List.mem_append_left _ (hreturned ▸ hc)) hnot
      | atWork _ hreturned | givenBack _ hreturned =>
          rw [hpassed] at hnot
          exact absurd (hreturned ▸ hc) hnot
  | leaving _ _ _ hreturned => exact absurd (hreturned ▸ hc) hnot
  | finished rc _ calls hreturned houtcome =>
      rw [hreturned] at hc
      exact ⟨rc, houtcome, List.eq_of_mem_replicate ((List.mem_append.mp hc).resolve_left hnot)⟩

/-- The body has returned and the thread has published it, or it has not returned. -/
theorem Inv.outcome_of_done (h : Inv s) (hdone : s.bridge.done = true) :
    s.outcome = some s.bridge.exitCode := by
  have hphase := h.phase
  generalize s.tb = tb at hphase
  cases hphase with
  | notStarted _ hnot => exact absurd (hdone.symm.trans hnot) (by simp)
  | firstWait hturn | running hturn | resumed _ hturn | exiting _ hturn =>
      exact absurd (hdone.symm.trans hturn.notDone) (by simp)
  | waiting _ _ hnot => exact absurd (hdone.symm.trans hnot) (by simp)
  | leaving rc hpublished _ _ houtcome => rw [houtcome, hpublished.exitCode]
  | finished rc hpublished _ _ houtcome => rw [houtcome, hpublished.exitCode]

/-- A body that does not have the turn and has not ended has not returned. -/
theorem Inv.outcome_of_pending (h : Inv s) (hturn : s.bridge.turnTb = false)
    (hdone : s.bridge.done = false) : s.outcome = none := by
  have hphase := h.phase
  generalize s.tb = tb at hphase
  cases hphase with
  | notStarted _ _ _ _ _ houtcome | waiting _ _ _ _ _ _ _ _ houtcome => exact houtcome
  | firstWait hturn' | running hturn' | resumed _ hturn' | exiting _ hturn' =>
      exact absurd (hturn.symm.trans hturn'.turn) (by simp)
  | leaving _ hpublished | finished _ hpublished =>
      exact absurd (hdone.symm.trans hpublished.done) (by simp)

/-- What a step adds to the codes returned. -/
inductive Returns (s s' : System) : Prop where
  | none (h : s'.returned = s.returned)
  | request (r : Int) (houtcome : s.outcome = none) (hr : 0 ≤ r) (hpending : s.pending = [r])
      (h : s'.returned = s.returned ++ [r])
  | done (rc : Int) (houtcome : s.outcome = some rc)
      (h : s'.returned = s.returned ++ [System.doneCode rc])

theorem Inv.returns {s' : System} (h : Inv s) (hstep : Step s s') : Returns s s' := by
  cases hstep with
  | call hsim =>
      unfold System.runUntilRequest
      split
      · rename_i hdone
        exact .done _ (h.outcome_of_done hdone) rfl
      · exact .none rfl
  | wakeSim hsim =>
      unfold System.wakeSim
      split
      · exact .none rfl
      · rename_i hturn
        rw [Bool.not_eq_true] at hturn
        split
        · exact .none rfl
        · rename_i hdone
          rw [Bool.not_eq_true] at hdone
          have hpending : s.pending = [s.bridge.request] := if_pos ⟨hsim, hturn, hdone⟩
          refine .request _ (h.outcome_of_pending hturn hdone) ?_ hpending rfl
          apply h.requests
          rw [h.delivered, hpending]
          exact List.mem_append_right _ List.mem_cons_self
  | join _ htb =>
      have hphase := h.phase
      rw [htb] at hphase
      cases hphase with
      | finished rc hpublished => exact .done _ (h.outcome_of_done hpublished.done) rfl
  | wakeFirst =>
      unfold System.wakeFirst
      split
      · split <;> exact .none rfl
      · exact .none rfl
  | wakeTb =>
      unfold System.wakeTb
      split <;> exact .none rfl
  | advanceToNextEdge =>
      unfold System.advanceToNextEdge
      dsimp only
      split <;> exact .none rfl
  | afterYield =>
      rename_i call _
      cases call <;> exact .none rfl
  | settle | bodyReturns | publish | leave => exact .none rfl

/-- While a request is pending nothing can happen but its return. -/
theorem Inv.pending_step {s' : System} {r : Int} (h : Inv s) (hpending : s.pending = [r])
    (hstep : Step s s') : s' = s ∨ s' = s.returns r := by
  unfold System.pending at hpending
  split at hpending
  · rename_i hplace
    obtain ⟨hsim, hturn, hdone⟩ := hplace
    have hr : s.bridge.request = r := by simpa using hpending
    -- the testbench is in `yield_to_sim`, since it has neither the turn nor ended
    have hphase := h.phase
    generalize htb : s.tb = tb at hphase
    have hwaits : ∃ call, s.tb = .waiting call := by
      cases hphase with
      | notStarted _ _ hno => exact absurd (hsim.symm.trans hno) (by simp)
      | firstWait hturn' | running hturn' | resumed _ hturn' | exiting _ hturn' =>
          exact absurd (hturn.symm.trans hturn'.turn) (by simp)
      | waiting call => exact ⟨call, htb⟩
      | leaving _ hpublished | finished _ hpublished =>
          exact absurd (hdone.symm.trans hpublished.done) (by simp)
    obtain ⟨call, hcall⟩ := hwaits
    cases hstep with
    | wakeSim => exact Or.inr (by simp [System.wakeSim, hturn, hdone, hr])
    | wakeTb => exact Or.inl (by simp [System.wakeTb, hturn])
    | call hno | join hno => exact absurd (hsim.symm.trans hno) (by simp)
    | wakeFirst hno | afterYield hno | settle hno | advanceToNextEdge hno =>
        exact absurd (hcall.symm.trans hno) (by simp)
    | bodyReturns _ hno | publish hno | leave hno =>
        exact absurd (hcall.symm.trans hno) (by simp)
  · cases hpending

theorem pending_return {r : Int} (hpending : s.pending = [r]) : Step s (s.returns r) := by
  unfold System.pending at hpending
  split at hpending
  · rename_i hplace
    obtain ⟨hsim, hturn, hdone⟩ := hplace
    have hr : s.bridge.request = r := by simpa using hpending
    have hwake : s.wakeSim = s.returns r := by simp [System.wakeSim, hturn, hdone, hr]
    rw [← hwake]
    exact .wakeSim hsim
  · cases hpending

/-- A call made after the body has returned comes back at once. -/
theorem Inv.later (h : Inv s) (hsim : s.sim = .outside) {rc : Int} (houtcome : s.outcome = some rc) :
    s.runUntilRequest = s.returns (System.doneCode rc) := by
  have hphase := h.phase
  generalize s.tb = tb at hphase
  cases hphase with
  | notStarted _ _ _ _ _ hnone | firstWait _ _ hnone | running _ hnone =>
      exact absurd (houtcome.symm.trans hnone) (by simp)
  | waiting _ _ _ _ _ _ _ _ hnone | resumed _ _ _ _ _ _ hnone =>
      exact absurd (houtcome.symm.trans hnone) (by simp)
  | exiting _ hturn => exact absurd (hsim.symm.trans hturn.sim) (by simp)
  | leaving _ _ hno => exact absurd hsim hno
  | finished _ hpublished =>
      have hexit := h.outcome_of_done hpublished.done
      rw [houtcome, Option.some.injEq] at hexit
      rw [System.runUntilRequest, if_pos hpublished.done, hexit]

/-- After the body has returned its outcome stays, and only the done code is returned. -/
theorem Inv.ending {s' : System} (h : Inv s) {rc : Int} (houtcome : s.outcome = some rc)
    (hstep : Step s s') : s'.outcome = some rc ∧
      (s'.returned = s.returned ∨ s'.returned = s.returned ++ [System.doneCode rc]) := by
  refine ⟨?_, ?_⟩
  · have hrunning : s.tb ≠ .running := by
      intro htb
      have hphase := h.phase
      rw [htb] at hphase
      cases hphase with
      | running _ hnone => cases houtcome.symm.trans hnone
    cases hstep with
    | call =>
        unfold System.runUntilRequest
        split <;> exact houtcome
    | wakeSim =>
        unfold System.wakeSim
        split
        · exact houtcome
        · split <;> exact houtcome
    | wakeFirst htb =>
        have hphase := h.phase
        rw [htb] at hphase
        cases hphase with
        | firstWait _ _ hnone => cases houtcome.symm.trans hnone
    | wakeTb =>
        unfold System.wakeTb
        split <;> exact houtcome
    | @afterYield call => cases call <;> exact houtcome
    | join | publish | leave => exact houtcome
    | settle htb | advanceToNextEdge htb | bodyReturns _ htb => exact absurd htb hrunning
  · cases h.returns hstep with
    | none hreturned => exact Or.inl hreturned
    | request _ hnone => cases houtcome.symm.trans hnone
    | done rc' houtcome' hreturned =>
        cases houtcome.symm.trans houtcome'
        exact Or.inr hreturned

end Handshake

/-- What the handshake guarantees in a state. -/
structure Handshake (s : System) : Prop where
  exclusive : ¬ (s.sim = .outside ∧ s.tb.isRunning = true)
  delivered : s.passed = s.returnedRequests ++ s.pending
  pendingReturns : ∀ r, s.pending = [r] → Step s (s.returns r) ∧
    ∀ s', Step s s' → s' = s ∨ s' = s.returns r
  returns : ∀ s', Step s s' → Returns s s'
  codes : ∀ c ∈ s.returned, c < 0 → ∃ rc, s.outcome = some rc ∧ c = System.doneCode rc
  later : s.sim = .outside → ∀ rc, s.outcome = some rc →
    s.runUntilRequest = s.returns (System.doneCode rc)
  /-- A call in progress when the body returns can only end with the done code. -/
  ending : ∀ rc, s.outcome = some rc → ∀ s', Step s s' → s'.outcome = some rc ∧
    (s'.returned = s.returned ∨ s'.returned = s.returned ++ [System.doneCode rc])
  time : s.bridge.nowPs = totalTime s.answered

theorem handshake_of_reachable {s : System} (h : Reachable s) : Handshake s where
  exclusive := h.inv.exclusive
  delivered := h.inv.delivered
  pendingReturns := fun _ hr => ⟨pending_return hr, fun _ hstep => h.inv.pending_step hr hstep⟩
  returns := fun _ hstep => h.inv.returns hstep
  codes := fun _ hc hneg => h.inv.codes hc hneg
  later := fun hsim _ houtcome => h.inv.later hsim houtcome
  ending := fun _ houtcome _ hstep => h.inv.ending houtcome hstep
  time := h.inv.time

/-- A body that has advanced to an edge, settled, and waits for the simulator. -/
def settling : System :=
  ((initial 5000 true).runUntilRequest.wakeFirst.advanceToNextEdge.wakeSim.runUntilRequest.wakeTb
    .advanceToNextEdge).afterYield .advanceToNextEdge |>.settle

theorem reachable_settling : Reachable settling := by
  refine ⟨5000, true, ?_⟩
  refine .tail (.tail (.tail (.tail (.tail (.tail (.tail (.tail .refl
    (.call rfl)) (.wakeFirst rfl)) (.advanceToNextEdge rfl)) (.wakeSim rfl)) (.call rfl))
    (@Step.wakeTb _ .advanceToNextEdge rfl)) (@Step.afterYield _ .advanceToNextEdge rfl))
    (.settle rfl)

/-- The body has returned in the middle of the next call. -/
def returning : System :=
  ((settling.wakeSim.runUntilRequest.wakeTb .settle).afterYield .settle).bodyReturns 0

/-- That call has ended. -/
def ended : System :=
  System.joined { (returning.publish 0).wakeSim with tb := .finished }

theorem handshake_ended : Reachable ended ∧ Handshake ended ∧ Handshake returning ∧
    returning.sim = .waiting ∧ ended.returned = returning.returned ++ [rcDonePass] := by
  have hreturning : Reachable returning := by
    obtain ⟨halfPeriodPs, body, hreached⟩ := reachable_settling
    exact ⟨halfPeriodPs, body, .tail (.tail (.tail (.tail (.tail hreached (.wakeSim rfl))
      (.call rfl)) (@Step.wakeTb _ .settle rfl)) (@Step.afterYield _ .settle rfl))
      (.bodyReturns 0 rfl)⟩
  have hended : Reachable ended := by
    obtain ⟨halfPeriodPs, body, hreached⟩ := hreturning
    exact ⟨halfPeriodPs, body, .tail (.tail (.tail (.tail hreached (.publish rfl))
      (.wakeSim rfl)) (.leave rfl)) (.join rfl rfl)⟩
  exact ⟨hended, handshake_of_reachable hended, handshake_of_reachable hreturning, rfl, rfl⟩

/-! ### Progress of a call -/

/-- A step that is neither a wake-up without effect nor one that the body makes in its own
code. -/
def Effective (s s' : System) : Prop := s' ≠ s ∧ ¬ (s.tb = .running ∧ s'.tb = .running)

instance (s s' : System) : Decidable (Effective s s') := inferInstanceAs (Decidable (_ ∧ _))

/-- How many effective steps a call of `run_until_request` still makes at most. -/
def System.debt (s : System) : Nat :=
  match s.sim with
  | .outside => 0
  | .joining => if s.tb = .finished then 1 else 2
  | .waiting =>
      match s.tb with
      | .waiting _ => if s.bridge.turnTb then 7 else 1
      | .firstWait | .resumed _ => 6
      | .running => 5
      | .exiting _ => 4
      | .leaving => 3
      | .finished => 2
      | .notStarted => 0

section Progress

variable {s s' : System}

theorem effective_of_tb (htb : s'.tb ≠ s.tb) : Effective s s' := by
  constructor
  · rintro rfl
    exact htb rfl
  · rintro ⟨hbefore, hafter⟩
    exact htb (hafter.trans hbefore.symm)

theorem effective_of_sim (hsim : s'.sim ≠ s.sim) (htb : s.tb ≠ .running) : Effective s s' := by
  constructor
  · rintro rfl
    exact hsim rfl
  · exact fun hboth => htb hboth.1

theorem System.debt_le (s : System) : s.debt ≤ 7 := by
  unfold System.debt
  split
  · exact Nat.zero_le 7
  · split <;> omega
  · split
    · split <;> omega
    all_goals omega

/-- Inside of a call some effective step is possible, which brings its end nearer. -/
theorem Inv.progress (h : Inv s) (hsim : s.sim ≠ .outside) :
    ∃ s', Step s s' ∧ Effective s s' ∧ s'.debt < s.debt := by
  obtain ⟨b, tb, sim, passed, returned, outcome⟩ := s
  obtain ⟨hphase, -, -⟩ := h
  cases hphase with
  | notStarted _ _ hout => exact absurd hout hsim
  | firstWait hturn =>
      obtain rfl : sim = .waiting := hturn.sim
      have hb : b.turnTb = true := hturn.turn
      refine ⟨_, .wakeFirst rfl, effective_of_tb ?_, ?_⟩
      · rcases hbody : b.body <;> simp [System.wakeFirst, hb, hbody]
      · rcases hbody : b.body <;> simp [System.wakeFirst, hb, hbody, System.debt]
  | running hturn =>
      obtain rfl : sim = .waiting := hturn.sim
      refine ⟨_, .settle rfl, effective_of_tb ?_, ?_⟩
      · rintro ⟨⟩
      · change 1 < 5
        omega
  | waiting call _ hdone answered request _ _ hwaiting =>
      cases hwaiting with
      | pending hturn =>
          have hb : b.turnTb = false := hturn
          have hdone' : b.done = false := hdone
          refine ⟨_, .wakeSim rfl, effective_of_sim ?_ ?_, ?_⟩
          · simp [System.wakeSim, System.returns, hb, hdone']
          · rintro ⟨⟩
          · simp [System.wakeSim, System.returns, hb, hdone', System.debt]
      | atWork => exact absurd rfl hsim
      | givenBack hturn =>
          have hb : b.turnTb = true := hturn
          refine ⟨_, @Step.wakeTb _ call rfl, effective_of_tb ?_, ?_⟩
          · simp [System.wakeTb, hb]
          · simp [System.wakeTb, hb, System.debt]
  | resumed call hturn =>
      obtain rfl : sim = .waiting := hturn.sim
      refine ⟨_, @Step.afterYield _ call rfl, effective_of_tb ?_, ?_⟩
      · cases call <;> rintro ⟨⟩
      · cases call
        · change 5 < 6
          omega
        · change 5 < 6
          omega
  | exiting rc hturn =>
      obtain rfl : sim = .waiting := hturn.sim
      refine ⟨_, @Step.publish _ rc rfl, effective_of_tb ?_, ?_⟩
      · rintro ⟨⟩
      · change 3 < 4
        omega
  | leaving rc =>
      refine ⟨_, .leave rfl, effective_of_tb ?_, ?_⟩
      · rintro ⟨⟩
      · rcases sim with _ | _ | _
        · exact absurd rfl hsim
        · change 2 < 3
          omega
        · change 1 < 2
          omega
  | finished rc hpublished =>
      have hturn : b.turnTb = false := hpublished.turn
      have hdone : b.done = true := hpublished.done
      rcases sim with _ | _ | _
      · exact absurd rfl hsim
      · refine ⟨_, .wakeSim rfl, effective_of_sim ?_ ?_, ?_⟩
        · simp [System.wakeSim, hturn, hdone]
        · rintro ⟨⟩
        · simp [System.wakeSim, hturn, hdone, System.debt]
      · refine ⟨_, .join rfl rfl, effective_of_sim ?_ ?_, ?_⟩
        · rintro ⟨⟩
        · rintro ⟨⟩
        · change 0 < 1
          omega

/-- Every effective step of a call brings its end nearer. -/
theorem Inv.debt_step (h : Inv s) (hsim : s.sim ≠ .outside) (hstep : Step s s')
    (heffective : Effective s s') : s'.debt < s.debt := by
  have hpos : 0 < s.debt := by
    obtain ⟨nearer, -, -, hlt⟩ := h.progress hsim
    exact Nat.zero_lt_of_lt hlt
  obtain ⟨b, tb, sim, passed, returned, outcome⟩ := s
  obtain ⟨hphase, -, -⟩ := h
  cases hstep with
  | call hno => exact absurd hno hsim
  | wakeSim hwaiting =>
      obtain rfl : sim = .waiting := hwaiting
      rcases hturn : b.turnTb
      · rcases hdone : b.done
        · refine lt_of_eq_of_lt ?_ hpos
          simp [System.wakeSim, hturn, hdone, System.returns, System.debt]
        · cases hphase with
          | notStarted _ _ hout => exact absurd hout hsim
          | firstWait hno | running hno | resumed _ hno | exiting _ hno =>
              exact absurd (hno.notDone.symm.trans hdone) Bool.false_ne_true
          | waiting _ _ hno => exact absurd (hno.symm.trans hdone) Bool.false_ne_true
          | leaving | finished => simp [System.wakeSim, hturn, hdone, System.debt]
      · exact absurd (if_pos hturn) heffective.1
  | join => exact hpos
  | wakeFirst htb =>
      obtain rfl : tb = .firstWait := htb
      cases hphase with
      | firstWait hturn =>
          obtain rfl : sim = .waiting := hturn.sim
          have hb : b.turnTb = true := hturn.turn
          rcases hbody : b.body <;> simp [System.wakeFirst, hb, hbody, System.debt]
  | @wakeTb call htb =>
      obtain rfl : tb = .waiting call := htb
      cases hphase with
      | waiting _ _ _ _ _ _ _ hwaiting =>
          cases hwaiting with
          | pending hturn =>
              refine absurd (if_neg ?_) heffective.1
              rw [hturn]
              exact Bool.false_ne_true
          | atWork => exact absurd rfl hsim
          | givenBack hturn =>
              have hb : b.turnTb = true := hturn
              simp [System.wakeTb, hb, System.debt]
  | @afterYield call htb =>
      obtain rfl : tb = .resumed call := htb
      cases hphase with
      | resumed _ hturn =>
          obtain rfl : sim = .waiting := hturn.sim
          cases call <;> simp [System.afterYield, System.debt]
  | settle htb =>
      obtain rfl : tb = .running := htb
      cases hphase with
      | running hturn =>
          obtain rfl : sim = .waiting := hturn.sim
          change 1 < 5
          omega
  | advanceToNextEdge htb =>
      obtain rfl : tb = .running := htb
      cases hphase with
      | running hturn =>
          obtain rfl : sim = .waiting := hturn.sim
          by_cases hlater : b.nextEdgePs + b.halfPeriodPs > b.nowPs
          · simp [System.advanceToNextEdge, hlater, System.yieldToSim, System.debt]
          · refine absurd ⟨rfl, ?_⟩ heffective.2
            simp [System.advanceToNextEdge, hlater]
  | bodyReturns rc htb =>
      obtain rfl : tb = .running := htb
      cases hphase with
      | running hturn =>
          obtain rfl : sim = .waiting := hturn.sim
          change 4 < 5
          omega
  | @publish rc htb =>
      obtain rfl : tb = .exiting rc := htb
      cases hphase with
      | exiting _ hturn =>
          obtain rfl : sim = .waiting := hturn.sim
          change 3 < 4
          omega
  | leave htb =>
      obtain rfl : tb = .leaving := htb
      rcases sim with _ | _ | _
      · exact absurd rfl hsim
      · change 2 < 3
        omega
      · change 1 < 2
        omega

theorem System.debt_le_of_running (htb : s.tb = .running) : s.debt ≤ 5 := by
  unfold System.debt
  rw [htb]
  split <;> simp

theorem Inv.debt_of_running (h : Inv s) (htb : s.tb = .running) : s.debt = 5 := by
  have hphase := h.phase
  rw [htb] at hphase
  cases hphase with
  | running hturn => simp [System.debt, hturn.sim, htb]

theorem Inv.debt_le_of_not_effective (h : Inv s) (hidle : ¬ Effective s s') :
    s'.debt ≤ s.debt := by
  by_cases hsame : s' = s
  · rw [hsame]
  · obtain ⟨hbefore, hafter⟩ := not_not.mp fun hboth => hidle ⟨hsame, hboth⟩
    rw [h.debt_of_running hbefore]
    exact System.debt_le_of_running hafter

end Progress

/-- How many of the first `n` steps of a run are effective. -/
def effectiveSteps (f : Nat → System) (n : Nat) : Nat :=
  (List.range n).countP fun i => Effective (f i) (f (i + 1))

theorem effectiveSteps_add_debt {f : Nat → System} {n : Nat} (hinv : ∀ i ≤ n, Inv (f i))
    (hrun : ∀ i < n, f (i + 1) = f i ∨ Step (f i) (f (i + 1)))
    (hinside : ∀ i ≤ n, (f i).sim ≠ .outside) :
    effectiveSteps f n + (f n).debt ≤ (f 0).debt := by
  induction n with
  | zero => exact Nat.le_of_eq (Nat.zero_add _)
  | succ n ih =>
      have hbefore := ih (fun i hi => hinv i (by omega)) (fun i hi => hrun i (by omega))
        fun i hi => hinside i (by omega)
      have hcount : effectiveSteps f (n + 1) =
          effectiveSteps f n + if Effective (f n) (f (n + 1)) then 1 else 0 := by
        unfold effectiveSteps
        rw [List.range_succ, List.countP_append, List.countP_singleton]
        simp only [decide_eq_true_eq]
      rw [hcount]
      by_cases heffective : Effective (f n) (f (n + 1))
      · have hstep := (hrun n (Nat.lt_succ_self n)).resolve_left heffective.1
        have hlt := (hinv n (by omega)).debt_step (hinside n (by omega)) hstep heffective
        rw [if_pos heffective]
        omega
      · rw [if_neg heffective]
        have hle := (hinv n (by omega)).debt_le_of_not_effective heffective
        omega

/-! ### Sleeping and waking -/

/-- The threads, with the flags of those that sleep on the condition variable. -/
structure Threads where
  system : System
  simAsleep : Bool
  tbAsleep : Bool

namespace Threads

/-- `cv.notify_all` -/
def notifyAll (t : Threads) : Threads := { t with simAsleep := false, tbAsleep := false }

/-- The simulator thread evaluates `!turn_tb` and goes to sleep if it is false. -/
def waitSim (t : Threads) : Threads := { t with simAsleep := t.system.bridge.turnTb }

/-- The testbench thread evaluates `turn_tb` and goes to sleep if it is false. -/
def waitTb (t : Threads) : Threads := { t with tbAsleep := !t.system.bridge.turnTb }

def after (t : Threads) (s : System) : Threads := { t with system := s }

def runUntilRequest (t : Threads) : Threads :=
  if t.system.bridge.done then t.after t.system.runUntilRequest
  else (t.after t.system.runUntilRequest).notifyAll.waitSim

/-- The code of the body, which may call `yield_to_sim`. -/
def bodyStep (t : Threads) (s : System) : Threads :=
  match s.tb with
  | .waiting _ => (t.after s).notifyAll.waitTb
  | _ => t.after s

def publish (t : Threads) (rc : Int) : Threads := (t.after (t.system.publish rc)).notifyAll

end Threads

/-- A step of a thread that is not asleep. -/
inductive AwakeStep (t : Threads) : Threads → Prop where
  | call (h : t.system.sim = .outside) : AwakeStep t t.runUntilRequest
  | wakeSim (h : t.system.sim = .waiting) (hawake : t.simAsleep = false) :
      AwakeStep t (t.after t.system.wakeSim).waitSim
  | join (h : t.system.sim = .joining) (htb : t.system.tb = .finished) :
      AwakeStep t (t.after t.system.joined)
  | wakeFirst (h : t.system.tb = .firstWait) (hawake : t.tbAsleep = false) :
      AwakeStep t (t.after t.system.wakeFirst).waitTb
  | wakeTb (call : Call) (h : t.system.tb = .waiting call) (hawake : t.tbAsleep = false) :
      AwakeStep t (t.after (t.system.wakeTb call)).waitTb
  | afterYield (call : Call) (h : t.system.tb = .resumed call) :
      AwakeStep t (t.after (t.system.afterYield call))
  | settle (h : t.system.tb = .running) : AwakeStep t (t.bodyStep t.system.settle)
  | advanceToNextEdge (h : t.system.tb = .running) :
      AwakeStep t (t.bodyStep t.system.advanceToNextEdge)
  | bodyReturns (rc : Int) (h : t.system.tb = .running) :
      AwakeStep t (t.after (t.system.bodyReturns rc))
  | publish (rc : Int) (h : t.system.tb = .exiting rc) : AwakeStep t (t.publish rc)
  | leave (h : t.system.tb = .leaving) :
      AwakeStep t (t.after { t.system with tb := .finished })

/-- A step of the threads; a thread may also wake up without a notification. -/
inductive ThreadStep (t : Threads) : Threads → Prop where
  | awake {t' : Threads} (h : AwakeStep t t') : ThreadStep t t'
  | spuriousSim : ThreadStep t { t with simAsleep := false }
  | spuriousTb : ThreadStep t { t with tbAsleep := false }

def ReachableThreads (t : Threads) : Prop :=
  ∃ halfPeriodPs body,
    Relation.ReflTransGen ThreadStep ⟨initial halfPeriodPs body, false, false⟩ t

/-- The places at which the testbench thread waits. -/
def TbPlace.Waits (place : TbPlace) : Prop := place = .firstWait ∨ ∃ call, place = .waiting call

/-- No thread sleeps at its wait while its predicate is true. -/
structure Alert (t : Threads) : Prop where
  sim : t.system.sim = .waiting → t.simAsleep = true → t.system.bridge.turnTb = true
  tb : t.system.tb.Waits → t.tbAsleep = true → t.system.bridge.turnTb = false

section Threads

variable {t t' : Threads}

theorem Threads.system_bodyStep (s : System) : (t.bodyStep s).system = s := by
  unfold Threads.bodyStep
  split <;> rfl

theorem Threads.system_runUntilRequest :
    t.runUntilRequest.system = t.system.runUntilRequest := by
  unfold Threads.runUntilRequest
  split <;> rfl

/-- The flags only decide who may take a step. -/
theorem AwakeStep.system (h : AwakeStep t t') : Step t.system t'.system := by
  cases h with
  | call h =>
      rw [Threads.system_runUntilRequest]
      exact .call h
  | wakeSim h => exact .wakeSim h
  | join h htb => exact .join h htb
  | wakeFirst h => exact .wakeFirst h
  | wakeTb call h => exact .wakeTb h
  | afterYield call h => exact .afterYield h
  | settle h =>
      rw [Threads.system_bodyStep]
      exact .settle h
  | advanceToNextEdge h =>
      rw [Threads.system_bodyStep]
      exact .advanceToNextEdge h
  | bodyReturns rc h => exact .bodyReturns rc h
  | publish rc h => exact .publish h
  | leave h => exact .leave h

theorem ThreadStep.system (h : ThreadStep t t') :
    t'.system = t.system ∨ Step t.system t'.system := by
  cases h with
  | awake h => exact Or.inr h.system
  | spuriousSim | spuriousTb => exact Or.inl rfl

/-- A step that leaves the turn as it is, and enters no wait. -/
theorem Alert.after (h : Alert t) {s : System}
    (hturn : s.bridge.turnTb = t.system.bridge.turnTb)
    (hsim : s.sim = .waiting → t.system.sim = .waiting) (htb : s.tb.Waits → t.system.tb.Waits) :
    Alert (t.after s) :=
  ⟨fun hwaiting hasleep => hturn.trans (h.sim (hsim hwaiting) hasleep),
    fun hwaits hasleep => hturn.trans (h.tb (htb hwaits) hasleep)⟩

theorem alert_notifyAll : Alert t.notifyAll := by
  refine ⟨fun _ hasleep => ?_, fun _ hasleep => ?_⟩
  · cases hasleep
  · cases hasleep

/-- A thread that goes to sleep has found its predicate false. -/
theorem Alert.waitSim (h : Alert t) : Alert t.waitSim :=
  ⟨fun _ hasleep => hasleep, h.tb⟩

theorem Alert.waitTb (h : Alert t) : Alert t.waitTb :=
  ⟨h.sim, fun _ hasleep => (Bool.not_eq_true' _).mp hasleep⟩

theorem Alert.bodyStep (h : Alert t) {s : System}
    (hsame : (∀ call, s.tb ≠ .waiting call) → s.bridge.turnTb = t.system.bridge.turnTb ∧
      s.sim = t.system.sim ∧ ¬ s.tb.Waits) : Alert (t.bodyStep s) := by
  unfold Threads.bodyStep
  split
  · exact alert_notifyAll.waitTb
  · rename_i hother
    obtain ⟨hturn, hsim, hwaits⟩ := hsame hother
    exact h.after hturn (fun hwaiting => hsim.symm.trans hwaiting) fun hno => absurd hno hwaits

theorem Alert.step (h : Alert t) (hstep : ThreadStep t t') : Alert t' := by
  have hrunning : ∀ rc, ¬ TbPlace.running.Waits ∧ ¬ (TbPlace.exiting rc).Waits ∧
      ¬ TbPlace.finished.Waits := by
    refine fun rc => ⟨?_, ?_, ?_⟩
    all_goals rintro (⟨⟨⟩⟩ | ⟨call, ⟨⟩⟩)
  cases hstep with
  | spuriousSim => exact ⟨fun _ hasleep => absurd hasleep Bool.false_ne_true, h.tb⟩
  | spuriousTb => exact ⟨h.sim, fun _ hasleep => absurd hasleep Bool.false_ne_true⟩
  | awake hstep =>
      cases hstep with
      | call hout =>
          unfold Threads.runUntilRequest
          split
          · rename_i hdone
            have hreturns : t.system.runUntilRequest =
                t.system.returns (System.doneCode t.system.bridge.exitCode) := if_pos hdone
            rw [hreturns]
            refine h.after rfl ?_ id
            rintro ⟨⟩
          · exact alert_notifyAll.waitSim
      | wakeSim hwaiting =>
          refine Alert.waitSim (h.after ?_ (fun _ => hwaiting) ?_)
          · unfold System.wakeSim
            split
            · rfl
            · split <;> rfl
          · unfold System.wakeSim
            split
            · exact id
            · split <;> exact id
      | join =>
          refine h.after rfl ?_ id
          rintro ⟨⟩
      | wakeFirst hfirst =>
          refine Alert.waitTb (h.after ?_ ?_ fun _ => Or.inl hfirst)
          · unfold System.wakeFirst
            split
            · split <;> rfl
            · rfl
          · unfold System.wakeFirst
            split
            · split <;> exact id
            · exact id
      | wakeTb call hcall =>
          refine Alert.waitTb (h.after ?_ ?_ fun _ => Or.inr ⟨call, hcall⟩)
          · unfold System.wakeTb
            split <;> rfl
          · unfold System.wakeTb
            split <;> exact id
      | afterYield call =>
          cases call
          all_goals exact h.after rfl id fun hwaits => absurd hwaits (hrunning 0).1
      | settle => exact h.bodyStep fun hno => absurd rfl (hno .settle)
      | advanceToNextEdge htb =>
          refine h.bodyStep ?_
          unfold System.advanceToNextEdge
          dsimp only
          split
          · exact fun hno => absurd rfl (hno .advanceToNextEdge)
          · refine fun _ => ⟨rfl, rfl, ?_⟩
            change ¬ t.system.tb.Waits
            rw [htb]
            exact (hrunning 0).1
      | bodyReturns rc => exact h.after rfl id fun hwaits => absurd hwaits (hrunning rc).2.1
      | publish rc => exact alert_notifyAll
      | leave => exact h.after rfl id fun hwaits => absurd hwaits (hrunning 0).2.2

end Threads

theorem ReachableThreads.reachable {t : Threads} (h : ReachableThreads t) :
    Reachable t.system := by
  obtain ⟨halfPeriodPs, body, hreached⟩ := h
  refine ⟨halfPeriodPs, body, ?_⟩
  induction hreached with
  | refl => exact .refl
  | tail _ hstep ih =>
      rcases hstep.system with hsame | hstep
      · rw [hsame]
        exact ih
      · exact ih.tail hstep

theorem ReachableThreads.alert {t : Threads} (h : ReachableThreads t) : Alert t := by
  obtain ⟨halfPeriodPs, body, hreached⟩ := h
  induction hreached with
  | refl =>
      refine ⟨fun _ hasleep => ?_, fun _ hasleep => ?_⟩
      · cases hasleep
      · cases hasleep
  | tail _ hstep ih => exact ih.step hstep

theorem reachable_run {f : Nat → Threads} {n : Nat} (hstart : ReachableThreads (f 0))
    (hrun : ∀ i < n, ThreadStep (f i) (f (i + 1))) : ∀ i ≤ n, ReachableThreads (f i) := by
  intro i hi
  induction i with
  | zero => exact hstart
  | succ i ih =>
      obtain ⟨halfPeriodPs, body, hreached⟩ := ih (by omega)
      exact ⟨halfPeriodPs, body, hreached.tail (hrun i hi)⟩

/-- What brings a call nearer to its end needs no wake-up: the thread that can do it is awake. -/
theorem Alert.awake {t : Threads} (h : Alert t) {s' : System} (hstep : Step t.system s')
    (heffective : Effective t.system s') : ∃ t', AwakeStep t t' ∧ t'.system = s' := by
  have htbAwake : t.system.tb.Waits → t.system.bridge.turnTb = true → t.tbAsleep = false := by
    intro hwaits hturn
    rw [← Bool.not_eq_true]
    intro hasleep
    cases hturn.symm.trans (h.tb hwaits hasleep)
  cases hstep with
  | call hout => exact ⟨_, .call hout, Threads.system_runUntilRequest⟩
  | wakeSim hwaiting =>
      have hturn : t.system.bridge.turnTb = false := by
        rw [← Bool.not_eq_true]
        exact fun hturn => heffective.1 (if_pos hturn)
      have hawake : t.simAsleep = false := by
        rw [← Bool.not_eq_true]
        intro hasleep
        cases hturn.symm.trans (h.sim hwaiting hasleep)
      exact ⟨_, .wakeSim hwaiting hawake, rfl⟩
  | join hjoining htb => exact ⟨_, .join hjoining htb, rfl⟩
  | wakeFirst hfirst =>
      have hturn : t.system.bridge.turnTb = true := by
        rw [← Bool.not_eq_false]
        exact fun hturn => heffective.1 (if_neg (by rw [hturn]; exact Bool.false_ne_true))
      exact ⟨_, .wakeFirst hfirst (htbAwake (Or.inl hfirst) hturn), rfl⟩
  | @wakeTb call hcall =>
      have hturn : t.system.bridge.turnTb = true := by
        rw [← Bool.not_eq_false]
        exact fun hturn => heffective.1 (if_neg (by rw [hturn]; exact Bool.false_ne_true))
      exact ⟨_, .wakeTb call hcall (htbAwake (Or.inr ⟨call, hcall⟩) hturn), rfl⟩
  | @afterYield call hcall => exact ⟨_, .afterYield call hcall, rfl⟩
  | settle htb => exact ⟨_, .settle htb, Threads.system_bodyStep _⟩
  | advanceToNextEdge htb => exact ⟨_, .advanceToNextEdge htb, Threads.system_bodyStep _⟩
  | bodyReturns rc htb => exact ⟨_, .bodyReturns rc htb, rfl⟩
  | @publish rc htb => exact ⟨_, .publish rc htb, rfl⟩
  | leave htb => exact ⟨_, .leave htb, rfl⟩

/-- No wake-up of the handshake is lost.  A call makes at most six effective steps before the one
that ends it, and until then a thread that is awake can take an effective step. -/
theorem call_returns {f : Nat → Threads} {n : Nat} (hstart : ReachableThreads (f 0))
    (hrun : ∀ i < n, ThreadStep (f i) (f (i + 1)))
    (hinside : ∀ i ≤ n, (f i).system.sim ≠ .outside) :
    Alert (f n) ∧ effectiveSteps (fun i => (f i).system) n ≤ 6 ∧
      ∃ t', AwakeStep (f n) t' ∧ Effective (f n).system t'.system := by
  have hreachable := reachable_run hstart hrun
  have halert := (hreachable n (Nat.le_refl n)).alert
  have hinv : ∀ i ≤ n, Inv (f i).system := fun i hi => (hreachable i hi).reachable.inv
  obtain ⟨s', hstep, heffective, hlt⟩ :=
    (hinv n (Nat.le_refl n)).progress (hinside n (Nat.le_refl n))
  obtain ⟨t', hawake, rfl⟩ := halert.awake hstep heffective
  have hcount := effectiveSteps_add_debt hinv (fun i hi => (hrun i hi).system) hinside
  have hle := (f 0).system.debt_le
  exact ⟨halert, by omega, t', hawake, heffective⟩

/-- The body has passed its first request and sleeps; the simulator is outside of its calls. -/
def asleep : Threads :=
  ((⟨initial 5000 true, false, false⟩ : Threads).runUntilRequest.after
    (initial 5000 true).runUntilRequest.wakeFirst).waitTb.bodyStep
      (initial 5000 true).runUntilRequest.wakeFirst.settle |>.after
        (initial 5000 true).runUntilRequest.wakeFirst.settle.wakeSim |>.waitSim

/-- The next call, which wakes the body. -/
def secondCall : Nat → Threads
  | 0 => asleep.runUntilRequest
  | 1 => (asleep.runUntilRequest.after
      (asleep.runUntilRequest.system.wakeTb .settle)).waitTb
  | _ => { (asleep.runUntilRequest.after
      (asleep.runUntilRequest.system.wakeTb .settle)).waitTb with simAsleep := false }

theorem call_returns_secondCall :
    asleep.tbAsleep = true ∧ Alert (secondCall 2) ∧
      effectiveSteps (fun i => (secondCall i).system) 2 ≤ 6 ∧
      ∃ t', AwakeStep (secondCall 2) t' ∧ Effective (secondCall 2).system t'.system := by
  refine ⟨rfl, call_returns ?_ ?_ ?_⟩
  · refine ⟨5000, true, .tail (.tail (.tail (.tail (.tail .refl (.awake (.call rfl)))
      (.awake (.wakeFirst rfl rfl))) (.awake (.settle rfl))) (.awake (.wakeSim rfl rfl)))
      (.awake (.call rfl))⟩
  · intro i hi
    rcases i with _ | _ | i
    · exact .awake (.wakeTb .settle rfl rfl)
    · exact .spuriousSim
    · omega
  · intro i hi
    rcases i with _ | _ | i <;> rintro ⟨⟩

end Harc.CosimBridge
