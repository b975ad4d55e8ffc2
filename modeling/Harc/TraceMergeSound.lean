import Harc.TraceMergeLoop

/-!
A merged dump has every line and every event at its time, and its valid signals are up where
there are events.
-/

namespace Harc.TraceMerge

section Loop

variable {emitAt : Nat → Output} {zero : Output} {current : Option Nat} {pending : List Nat}
  {active : Bool} {lines : List Line} {out : Output}

/-! ### Times -/

theorem timesOf_insertTime {t : Nat} (ht : t ≤ u128Max) (hquiet : Quiet (emitAt t)) (rest : Output) :
    timesOf (insertTime emitAt t ++ rest) = t :: timesOf rest := by
  rw [insertTime, List.cons_append, timesOf_stamp (timeOf_timeLine ht), timesOf_append,
    hquiet.timesOf, List.nil_append]

/-- The times of the output do not go back. -/
theorem Merged.times (hquiet : ∀ t, Quiet (emitAt t)) (hzero : Quiet zero)
    (h : Merged emitAt zero current pending active lines out) :
    (timesOf out).Pairwise (· ≤ ·) ∧ ∀ c ∈ current, ∀ t ∈ timesOf out, c ≤ t := by
  have hstamp : ∀ {current : Option Nat} {time : Nat} {times : List Nat},
      (∀ c ∈ current, c ≤ time) →
      times.Pairwise (· ≤ ·) ∧ (∀ c ∈ some time, ∀ t ∈ times, c ≤ t) →
      (time :: times).Pairwise (· ≤ ·) ∧ ∀ c ∈ current, ∀ t ∈ time :: times, c ≤ t := by
    intro current time times hnow hrest
    have htime := hrest.2 time rfl
    refine ⟨List.pairwise_cons.mpr ⟨htime, hrest.1⟩, fun c hc t ht => ?_⟩
    rcases List.mem_cons.mp ht with rfl | ht
    · exact hnow c hc
    · exact (hnow c hc).trans (htime t ht)
  induction h with
  | @line current pending active line lines out htime _ ih =>
      rwa [show timesOf ((Mark.original, line) :: out) = timesOf out by
        simp [timesOf, htime]]
  | @early current pending active line lines out time t htime hnow hlines hbound _ ih =>
      rw [timesOf_insertTime hbound (hquiet t)]
      exact hstamp (fun c hc => (hnow c hc).le) ih
  | @equal current pending active line lines out time htime hnow hbound _ ih =>
      rw [timesOf_stamp htime, timesOf_append, (hquiet time).timesOf, List.nil_append]
      exact hstamp (fun c hc => (hnow c hc).le) ih
  | lower htime hnow hlater _ ih =>
      rw [timesOf_stamp htime, timesOf_append, hzero.timesOf, List.nil_append]
      exact hstamp hnow ih
  | quiet htime hnow hlater _ ih =>
      rw [timesOf_stamp htime]
      exact hstamp hnow ih
  | @late current pending active out t hnow hbound _ ih =>
      rw [timesOf_insertTime hbound (hquiet t)]
      exact hstamp (fun c hc => (hnow c hc).le) ih
  | @lowerLast c hbound =>
      rw [timesOf_stamp (timeOf_timeLine (Nat.min_le_right _ _)), hzero.timesOf]
      refine ⟨List.pairwise_singleton _ _, ?_⟩
      rintro c ⟨⟩ t ht
      rw [List.mem_singleton.mp ht]
      exact Nat.le_min.mpr ⟨Nat.le_succ c, hbound⟩
  | done => exact ⟨List.Pairwise.nil, fun _ _ _ ht => absurd ht List.not_mem_nil⟩

/-! ### Lines of the dump -/

def original (lines : List Line) : Output := lines.map fun line => (.original, line)

/-- The entries of one kind, with their times. -/
def timedOf (mark : Mark) (current : Option Nat) (out : Output) : List (Mark × Line × Option Nat) :=
  (timed current out).filter fun entry => entry.1 = mark

theorem Quiet.timedOf {block : Output} (h : Quiet block) (mark : Mark) (current : Option Nat)
    (rest : Output) :
    timedOf mark current (block ++ rest) =
      (block.filter fun entry => entry.1 = mark).map (fun entry => (entry.1, entry.2, current)) ++
        timedOf mark current rest := by
  unfold TraceMerge.timedOf
  rw [h.timed, List.filter_append, List.filter_map]
  rfl

theorem timedOf_stamp {entry : Mark × Line} {time : Nat} (h : timeOf entry.2 = some time)
    (mark : Mark) (current : Option Nat) (rest : Output) :
    timedOf mark current (entry :: rest) =
      (if entry.1 = mark then [(entry.1, entry.2, some time)] else []) ++
        timedOf mark (some time) rest := by
  unfold timedOf
  rw [timed_stamp h, List.filter_cons]
  split <;> simp_all

theorem timedOf_insertTime {t : Nat} (ht : t ≤ u128Max) (hquiet : Quiet (emitAt t))
    {mark : Mark} (hmark : mark ≠ .stamp) (current : Option Nat) (rest : Output) :
    timedOf mark current (insertTime emitAt t ++ rest) =
      ((emitAt t).filter fun entry => entry.1 = mark).map (fun entry => (entry.1, entry.2, some t)) ++
        timedOf mark (some t) rest := by
  rw [insertTime, List.cons_append, timedOf_stamp (timeOf_timeLine ht), if_neg hmark.symm,
    List.nil_append, hquiet.timedOf]

/-- The lines of the dump are there, in their order and at their times. -/
theorem Merged.lines_kept (hquiet : ∀ t, Quiet (emitAt t)) (hzero : Quiet zero)
    (hmark : ∀ t, ∀ entry ∈ emitAt t, entry.1 ≠ .original)
    (hmarkZero : ∀ entry ∈ zero, entry.1 ≠ .original)
    (h : Merged emitAt zero current pending active lines out) :
    timedOf .original current out = timed current (original lines) := by
  have hnone : ∀ {block : Output}, (∀ entry ∈ block, entry.1 ≠ .original) →
      (block.filter fun entry => entry.1 = Mark.original) = [] := by
    intro block hblock
    rw [List.filter_eq_nil_iff]
    intro entry hentry
    simpa using hblock entry hentry
  induction h with
  | @line current pending active line lines out htime _ ih =>
      have hline : Quiet [(Mark.original, line)] := by
        intro entry hentry
        rw [List.mem_singleton.mp hentry]
        exact htime
      change timedOf .original current ([(Mark.original, line)] ++ out) =
        timed current ([(Mark.original, line)] ++ original lines)
      rw [hline.timedOf, hline.timed, ih]
      rfl
  | @early current pending active line lines out time t htime hnow hlines hbound _ ih =>
      rw [timedOf_insertTime hbound (hquiet t) (by decide), hnone (hmark t), ih]
      -- the line sets its own time
      change timed (some t) ((Mark.original, line) :: original lines) =
        timed current ((Mark.original, line) :: original lines)
      rw [timed_stamp htime, timed_stamp htime]
  | @equal current pending active line lines out time htime hnow hbound _ ih =>
      rw [timedOf_stamp htime, (hquiet time).timedOf, hnone (hmark time), ih]
      change _ = timed current ((Mark.original, line) :: original lines)
      rw [timed_stamp htime]
      rfl
  | @lower current pending line lines out time htime hnow hlater _ ih =>
      rw [timedOf_stamp htime, hzero.timedOf, hnone hmarkZero, ih]
      change _ = timed current ((Mark.original, line) :: original lines)
      rw [timed_stamp htime]
      rfl
  | @quiet current pending line lines out time htime hnow hlater _ ih =>
      rw [timedOf_stamp htime, ih]
      change _ = timed current ((Mark.original, line) :: original lines)
      rw [timed_stamp htime]
      rfl
  | @late current pending active out t hnow hbound _ ih =>
      rw [timedOf_insertTime hbound (hquiet t) (by decide), hnone (hmark t), ih]
      rfl
  | lowerLast hbound =>
      rw [timedOf_stamp (timeOf_timeLine (Nat.min_le_right _ _)), ← List.append_nil zero,
        hzero.timedOf, hnone hmarkZero]
      rfl
  | done => rfl

/-! ### Events -/

/-- The entries of the events of a time. -/
def block (emitAt : Nat → Output) (t : Nat) : List (Mark × Line × Option Nat) :=
  ((emitAt t).filter fun entry => entry.1 = Mark.event).map fun entry => (entry.1, entry.2, some t)

/-- The entries of the events are those of the pending times, each at its time. -/
theorem Merged.events_kept (hquiet : ∀ t, Quiet (emitAt t)) (hzero : Quiet zero)
    (hmarkZero : ∀ entry ∈ zero, entry.1 ≠ .event)
    (h : Merged emitAt zero current pending active lines out) :
    timedOf .event current out = pending.flatMap (block emitAt) := by
  have hnone : (zero.filter fun entry => entry.1 = Mark.event) = [] := by
    rw [List.filter_eq_nil_iff]
    intro entry hentry
    simpa using hmarkZero entry hentry
  induction h with
  | @line current pending active line lines out htime _ ih =>
      have hline : Quiet [(Mark.original, line)] := by
        intro entry hentry
        rw [List.mem_singleton.mp hentry]
        exact htime
      change timedOf .event current ([(Mark.original, line)] ++ out) = _
      rw [hline.timedOf, ih]
      rfl
  | @early current pending active line lines out time t htime hnow hlines hbound _ ih =>
      rw [timedOf_insertTime hbound (hquiet t) (by decide), ih, List.flatMap_cons]
      rfl
  | @equal current pending active line lines out time htime hnow hbound _ ih =>
      rw [timedOf_stamp htime, (hquiet time).timedOf, ih, List.flatMap_cons]
      rfl
  | lower htime hnow hlater _ ih =>
      rw [timedOf_stamp htime, hzero.timedOf, hnone, ih]
      rfl
  | quiet htime hnow hlater _ ih =>
      rw [timedOf_stamp htime, ih]
      rfl
  | @late current pending active out t hnow hbound _ ih =>
      rw [timedOf_insertTime hbound (hquiet t) (by decide), ih, List.flatMap_cons]
      rfl
  | lowerLast hbound =>
      rw [timedOf_stamp (timeOf_timeLine (Nat.min_le_right _ _)), ← List.append_nil zero,
        hzero.timedOf, hnone]
      rfl
  | done => rfl

/-! ### Values of a signal -/

section Signal

-- the times of the events, those of the lines, and when the signal is to be up
variable (all times : List Nat) (up : Nat → Bool)

def started (time : Nat) : Bool := all.any (· ≤ time)

/-- The value of a signal that is not up: it has none before the first event. -/
def resting (current : Option Nat) : Option Line :=
  if current.any (started all) then some ['0'] else none

/-- The value that a signal has to have at a time. -/
def Follows (time : Nat) (value : Option Line) : Prop :=
  (up time = true → times.count time ≤ 1 → time < u128Max → value = some ['1']) ∧
    (up time = false → value = resting all (some time))

structure Tracked (current : Option Nat) (pending : List Nat) (active : Bool) (lines : List Line)
    (value : Option Line) : Prop where
  split : ∀ t ∈ all, t ∈ pending ∨ ∃ c ∈ current, t ≤ c
  pending : ∀ t ∈ pending, t ∈ all
  follows : ∀ c ∈ current, Follows all times up c value
  down : active = false → value = resting all current
  active : active = true → ∃ c ∈ current, started all c = true
  seen : ∃ seen, times = seen ++ lineTimes lines ∧
    ∀ c ∈ current, up c = true → c ∈ seen ∨ ∀ time ∈ lineTimes lines, c < time

variable {all times up} {value : Option Line}

theorem started_of_mem {t : Nat} (h : t ∈ all) : started all t = true :=
  List.any_eq_true.mpr ⟨t, h, by simp⟩

theorem started_mono {c t : Nat} (hle : c ≤ t) (h : started all c = true) : started all t = true := by
  obtain ⟨e, he, hec⟩ := List.any_eq_true.mp h
  exact List.any_eq_true.mpr ⟨e, he, by simpa using (by simpa using hec : e ≤ c).trans hle⟩

theorem resting_of_started {t : Nat} (h : started all t = true) :
    resting all (some t) = some ['0'] := by
  simp [resting, h]

/-- The value that the events of a time leave. -/
theorem follows_bit {t : Nat} (ht : t ∈ all) :
    Follows all times up t (some [if up t then '1' else '0']) := by
  refine ⟨fun hup _ _ => by rw [hup]; rfl, fun hup => ?_⟩
  rw [hup, resting_of_started (started_of_mem ht)]
  rfl

namespace Tracked

theorem line {line : Line} (h : Tracked all times up current pending active (line :: lines) value)
    (htime : timeOf line = none) : Tracked all times up current pending active lines value := by
  obtain ⟨hsplit, hpending, hfollows, hdown, hactive, hseen⟩ := h
  rw [lineTimes_cons_none lines htime] at hseen
  exact ⟨hsplit, hpending, hfollows, hdown, hactive, hseen⟩

/-- After the events of the first pending time. -/
theorem raise {t : Nat} (h : Tracked all times up current (t :: pending) active lines value)
    (hnow : ∀ c ∈ current, c < t) {lines' : List Line}
    (hseen : ∃ seen, times = seen ++ lineTimes lines' ∧
      (t ∈ seen ∨ ∀ time ∈ lineTimes lines', t < time)) :
    Tracked all times up (some t) pending true lines' (some [if up t then '1' else '0']) := by
  have hmem : t ∈ all := h.pending t List.mem_cons_self
  refine ⟨?_, fun s hs => h.pending s (List.mem_cons_of_mem t hs), ?_, fun h => absurd h.symm
    Bool.false_ne_true, fun _ => ⟨t, rfl, started_of_mem hmem⟩, ?_⟩
  · intro s hs
    rcases h.split s hs with hs | ⟨c, hc, hle⟩
    · rcases List.mem_cons.mp hs with rfl | hs
      · exact .inr ⟨s, rfl, Nat.le_refl s⟩
      · exact .inl hs
    · exact .inr ⟨t, rfl, hle.trans (hnow c hc).le⟩
  · rintro c ⟨⟩
    exact follows_bit hmem
  · obtain ⟨seen, htimes, ht⟩ := hseen
    refine ⟨seen, htimes, ?_⟩
    rintro c ⟨⟩ _
    exact ht

/-- At a line without events, every event time that is not pending was before. -/
theorem split_next {time : Nat} (h : Tracked all times up current pending active lines value)
    (hnow : ∀ c ∈ current, c ≤ time) : ∀ t ∈ all, t ∈ pending ∨ ∃ c ∈ some time, t ≤ c := by
  intro t ht
  rcases h.split t ht with ht | ⟨c, hc, hle⟩
  · exact .inl ht
  · exact .inr ⟨time, rfl, hle.trans (hnow c hc)⟩

theorem seen_next {line : Line} {time : Nat}
    (h : Tracked all times up current pending active (line :: lines) value)
    (htime : timeOf line = some time) :
    ∃ seen, times = seen ++ lineTimes lines ∧ time ∈ seen := by
  obtain ⟨seen, htimes, -⟩ := h.seen
  refine ⟨seen ++ [time], ?_, by simp⟩
  rw [htimes, lineTimes_cons_some lines htime, List.append_assoc]
  rfl

/-- A time of events at which nothing is pending is the current one. -/
theorem current_of_up {time : Nat} (h : Tracked all times up current pending active lines value)
    (hnow : ∀ c ∈ current, c ≤ time) (hlater : ∀ t ∈ pending, time < t) (hmem : time ∈ all) :
    current = some time := by
  rcases h.split time hmem with hpending | ⟨c, hc, hle⟩
  · exact absurd (hlater time hpending) (Nat.lt_irrefl time)
  · rw [hc, Nat.le_antisymm (hnow c hc) hle]

theorem lower {line : Line} {time : Nat}
    (h : Tracked all times up current pending true (line :: lines) value)
    (hup : ∀ t, up t = true → t ∈ all) (htime : timeOf line = some time)
    (hnow : ∀ c ∈ current, c ≤ time) (hlater : ∀ t ∈ pending, time < t) :
    Tracked all times up (some time) pending false lines (some ['0']) := by
  obtain ⟨c, hc, hstarted⟩ := h.active rfl
  have hresting := resting_of_started (started_mono (hnow c hc) hstarted)
  refine ⟨h.split_next hnow, h.pending, ?_, fun _ => hresting.symm, fun h => absurd h
    Bool.false_ne_true, ?_⟩
  · rintro now ⟨⟩
    refine ⟨fun hsignal hcount _ => ?_, fun _ => hresting.symm⟩
    -- a second line of the time
    exfalso
    obtain ⟨seen, htimes, hseen⟩ := h.seen
    rw [lineTimes_cons_some lines htime] at htimes hseen
    have hcurrent := h.current_of_up hnow hlater (hup time hsignal)
    rcases hseen time hcurrent hsignal with hmem | hlt
    · have hpos := List.count_pos_iff.mpr hmem
      rw [htimes, List.count_append, List.count_cons_self] at hcount
      omega
    · exact absurd (hlt time List.mem_cons_self) (Nat.lt_irrefl time)
  · obtain ⟨seen, htimes, hmem⟩ := h.seen_next htime
    refine ⟨seen, htimes, ?_⟩
    rintro now ⟨⟩ _
    exact .inl hmem

theorem quiet {line : Line} {time : Nat}
    (h : Tracked all times up current pending false (line :: lines) value)
    (hup : ∀ t, up t = true → t ∈ all) (htime : timeOf line = some time)
    (hnow : ∀ c ∈ current, c ≤ time) (hlater : ∀ t ∈ pending, time < t) :
    Tracked all times up (some time) pending false lines value := by
  have hresting : value = resting all (some time) := by
    rw [h.down rfl, resting, resting]
    congr 1
    rw [eq_iff_iff, Option.any_some]
    constructor
    · intro hany
      obtain ⟨c, hc, hstarted⟩ := (Option.any_eq_true _ _).mp hany
      exact started_mono (hnow c hc) hstarted
    · intro hstarted
      obtain ⟨e, he, hle⟩ := List.any_eq_true.mp hstarted
      have hle : e ≤ time := by simpa using hle
      rcases h.split e he with hpending | ⟨c, hc, hec⟩
      · exact absurd (hlater e hpending) (Nat.not_lt.mpr hle)
      · exact (Option.any_eq_true _ _).mpr
          ⟨c, hc, List.any_eq_true.mpr ⟨e, he, by simpa using hec⟩⟩
  refine ⟨h.split_next hnow, h.pending, ?_, fun _ => hresting, fun h => absurd h
    Bool.false_ne_true, ?_⟩
  · rintro now ⟨⟩
    refine ⟨fun hsignal => ?_, fun _ => hresting⟩
    exact (h.follows time (h.current_of_up hnow hlater (hup time hsignal))).1 hsignal
  · obtain ⟨seen, htimes, hmem⟩ := h.seen_next htime
    refine ⟨seen, htimes, ?_⟩
    rintro now ⟨⟩ _
    exact .inl hmem

end Tracked

/-- What the lines and the blocks of the output do to a signal. -/
structure Drives (emitAt : Nat → Output) (zero : Output) (all : List Nat) (up : Nat → Bool)
    (id : Line) : Prop where
  raise : ∀ t ∈ all, ∀ value, (emitAt t).foldl (update id) value = some [if up t then '1' else '0']
  lower : ∀ value, zero.foldl (update id) value = some ['0']
  up : ∀ t, up t = true → t ∈ all

/-- A signal has its value at every time of the output. -/
theorem Merged.samples_follow {id : Line} (hquiet : ∀ t, Quiet (emitAt t)) (hzero : Quiet zero)
    (hdrives : Drives emitAt zero all up id)
    (h : Merged emitAt zero current pending active lines out) :
    (∀ line ∈ lines, ∀ value, update id value (.original, line) = value) →
    ∀ value, Tracked all times up current pending active lines value →
      ∀ sample ∈ samples id current value out, Follows all times up sample.1 sample.2 := by
  -- the sample that a new time ends
  have hended : ∀ {current : Option Nat} {value : Option Line} {rest : List (Nat × Option Line)},
      (∀ c ∈ current, Follows all times up c value) →
      (∀ sample ∈ rest, Follows all times up sample.1 sample.2) →
      ∀ sample ∈ current.toList.map (fun time => (time, value)) ++ rest,
        Follows all times up sample.1 sample.2 := by
    intro current value rest hcurrent hrest sample hsample
    rcases List.mem_append.mp hsample with hsample | hsample
    · obtain ⟨c, hc, rfl⟩ := List.mem_map.mp hsample
      exact hcurrent c (Option.mem_toList.mp hc)
    · exact hrest sample hsample
  induction h with
  | @line current pending active line lines out htime _ ih =>
      intro hlines value htracked
      rw [List.forall_mem_cons] at hlines
      have hline : Quiet [(Mark.original, line)] := by
        intro entry hentry
        rw [List.mem_singleton.mp hentry]
        exact htime
      rw [← List.singleton_append, hline.samples, List.foldl_cons, List.foldl_nil, hlines.1 value]
      exact ih hlines.2 value (htracked.line htime)
  | @early current pending active line lines out time t htime hnow hearly hbound _ ih =>
      intro hlines value htracked
      rw [insertTime, List.cons_append, samples_stamp (timeOf_timeLine hbound), (hquiet t).samples,
        hdrives.raise t (htracked.pending t List.mem_cons_self)]
      refine hended htracked.follows (ih hlines _ (htracked.raise hnow ?_))
      obtain ⟨seen, htimes, -⟩ := htracked.seen
      exact ⟨seen, htimes, .inr hearly⟩
  | @equal current pending active line lines out time htime hnow hbound _ ih =>
      intro hlines value htracked
      rw [samples_stamp htime, (hquiet time).samples,
        hdrives.raise time (htracked.pending time List.mem_cons_self)]
      refine hended htracked.follows
        (ih (List.forall_mem_cons.mp hlines).2 _ (htracked.raise hnow ?_))
      obtain ⟨seen, htimes, hmem⟩ := htracked.seen_next htime
      exact ⟨seen, htimes, .inl hmem⟩
  | lower htime hnow hlater _ ih =>
      intro hlines value htracked
      rw [samples_stamp htime, hzero.samples, hdrives.lower]
      exact hended htracked.follows (ih (List.forall_mem_cons.mp hlines).2 _
        (htracked.lower hdrives.up htime hnow hlater))
  | quiet htime hnow hlater _ ih =>
      intro hlines value htracked
      rw [samples_stamp htime]
      exact hended htracked.follows (ih (List.forall_mem_cons.mp hlines).2 _
        (htracked.quiet hdrives.up htime hnow hlater))
  | @late current pending active out t hnow hbound _ ih =>
      intro hlines value htracked
      rw [insertTime, List.cons_append, samples_stamp (timeOf_timeLine hbound), (hquiet t).samples,
        hdrives.raise t (htracked.pending t List.mem_cons_self)]
      refine hended htracked.follows (ih hlines _ (htracked.raise hnow ?_))
      obtain ⟨seen, htimes, -⟩ := htracked.seen
      exact ⟨seen, htimes, .inr fun time htime => absurd htime (by simp [lineTimes])⟩
  | @lowerLast c hbound =>
      intro _ value htracked
      rw [samples_stamp (timeOf_timeLine (Nat.min_le_right _ _)), ← List.append_nil zero,
        hzero.samples, hdrives.lower]
      refine hended htracked.follows ?_
      intro sample hsample
      obtain rfl := List.mem_singleton.mp hsample
      obtain ⟨c, ⟨⟩, hstarted⟩ := htracked.active rfl
      have hle : c ≤ min (c + 1) u128Max := Nat.le_min.mpr ⟨Nat.le_succ c, hbound⟩
      refine ⟨fun hsignal _ hlt => ?_, fun _ => (resting_of_started (started_mono hle hstarted)).symm⟩
      -- the time after the last one has no events
      rcases htracked.split _ (hdrives.up _ hsignal) with hmem | ⟨_, ⟨⟩, hback⟩
      · exact absurd hmem List.not_mem_nil
      · simp only at hlt hback
        omega
  | done =>
      intro _ value htracked
      have hlast := @hended _ value [] htracked.follows (fun _ h => absurd h List.not_mem_nil)
      rwa [List.append_nil] at hlast

end Signal

end Loop

end Harc.TraceMerge
