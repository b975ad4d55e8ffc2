import Harc.TraceMergeReading

/-!
The loop of the merge as a relation: one rule for each thing that it can do at a line or at a
pending time, with the order of times that holds there.
-/

namespace Harc.TraceMerge

/-! ### Lines without a time -/

/-- None of the lines announces a time. -/
def Quiet (out : Output) : Prop := ∀ entry ∈ out, timeOf entry.2 = none

theorem timesOf_append (out out' : Output) : timesOf (out ++ out') = timesOf out ++ timesOf out' :=
  List.filterMap_append

theorem Quiet.timesOf {out : Output} (h : Quiet out) : timesOf out = [] := by
  unfold TraceMerge.timesOf
  rw [List.filterMap_eq_nil_iff]
  exact h

theorem Quiet.timed {out : Output} (h : Quiet out) (current : Option Nat) (rest : Output) :
    timed current (out ++ rest) =
      out.map (fun entry => (entry.1, entry.2, current)) ++ timed current rest := by
  induction out with
  | nil => rfl
  | cons entry out ih =>
      obtain ⟨hentry, hout⟩ := List.forall_mem_cons.mp h
      rw [List.cons_append, List.map_cons, List.cons_append, TraceMerge.timed, hentry, Option.none_or,
        ih hout]

theorem Quiet.samples {out : Output} (h : Quiet out) (id : Line) (current : Option Nat)
    (rest : Output) : ∀ value : Option Line,
      samples id current value (out ++ rest) =
        samples id current (out.foldl (update id) value) rest := by
  induction out with
  | nil => exact fun _ => rfl
  | cons entry out ih =>
      intro value
      obtain ⟨hentry, hout⟩ := List.forall_mem_cons.mp h
      rw [List.cons_append, TraceMerge.samples, hentry, List.foldl_cons]
      exact ih hout _

theorem timed_stamp {entry : Mark × Line} {time : Nat} (h : timeOf entry.2 = some time)
    (current : Option Nat) (rest : Output) :
    timed current (entry :: rest) = (entry.1, entry.2, some time) :: timed (some time) rest := by
  rw [TraceMerge.timed, h]
  rfl

theorem samples_stamp {entry : Mark × Line} {time : Nat} (h : timeOf entry.2 = some time)
    (id : Line) (current : Option Nat) (value : Option Line) (rest : Output) :
    samples id current value (entry :: rest) =
      current.toList.map (fun time => (time, value)) ++ samples id (some time) value rest := by
  rw [TraceMerge.samples, h]

theorem timesOf_stamp {entry : Mark × Line} {time : Nat} (h : timeOf entry.2 = some time)
    (rest : Output) : timesOf (entry :: rest) = time :: timesOf rest := by
  unfold timesOf
  rw [List.filterMap_cons, h]

/-! ### Merging, one decision at a time -/

def lineTimes (lines : List Line) : List Nat := lines.filterMap timeOf

section Merge

variable (emitAt : Nat → Output) (zero : Output)

/-- The output for the lines, the pending times and the state of the signals, with what is known
of the order of times at each decision. -/
inductive Merged : Option Nat → List Nat → Bool → List Line → Output → Prop where
  | line {current pending active line lines out} (htime : timeOf line = none)
      (h : Merged current pending active lines out) :
      Merged current pending active (line :: lines) ((.original, line) :: out)
  | early {current pending active line lines out time t} (htime : timeOf line = some time)
      (hnow : ∀ c ∈ current, c < t) (hlines : ∀ time ∈ lineTimes (line :: lines), t < time)
      (hbound : t ≤ u128Max)
      (h : Merged (some t) pending true (line :: lines) out) :
      Merged current (t :: pending) active (line :: lines) (insertTime emitAt t ++ out)
  | equal {current pending active line lines out time} (htime : timeOf line = some time)
      (hnow : ∀ c ∈ current, c < time) (hbound : time ≤ u128Max)
      (h : Merged (some time) pending true lines out) :
      Merged current (time :: pending) active (line :: lines)
        ((.original, line) :: (emitAt time ++ out))
  | lower {current pending line lines out time} (htime : timeOf line = some time)
      (hnow : ∀ c ∈ current, c ≤ time) (hlater : ∀ t ∈ pending, time < t)
      (h : Merged (some time) pending false lines out) :
      Merged current pending true (line :: lines) ((.original, line) :: (zero ++ out))
  | quiet {current pending line lines out time} (htime : timeOf line = some time)
      (hnow : ∀ c ∈ current, c ≤ time) (hlater : ∀ t ∈ pending, time < t)
      (h : Merged (some time) pending false lines out) :
      Merged current pending false (line :: lines) ((.original, line) :: out)
  | late {current pending active out t} (hnow : ∀ c ∈ current, c < t) (hbound : t ≤ u128Max)
      (h : Merged (some t) pending true [] out) :
      Merged current (t :: pending) active [] (insertTime emitAt t ++ out)
  | lowerLast {c} (hbound : c ≤ u128Max) :
      Merged (some c) [] true [] ((.stamp, timeLine (min (c + 1) u128Max)) :: zero)
  | done {current} : Merged current [] false [] []

end Merge

/-- The times that are still to come, after the current one. -/
structure Ordered (current : Option Nat) (pending : List Nat) (lines : List Line) : Prop where
  pairwise : pending.Pairwise (· < ·)
  bound : ∀ t ∈ pending, t ≤ u128Max
  after : ∀ c ∈ current, ∀ t ∈ pending, c < t
  sorted : (lineTimes lines).Pairwise (· ≤ ·)
  from_current : ∀ c ∈ current, ∀ time ∈ lineTimes lines, c ≤ time

theorem lineTimes_cons_none {line : Line} (lines : List Line) (h : timeOf line = none) :
    lineTimes (line :: lines) = lineTimes lines := by
  unfold lineTimes
  rw [List.filterMap_cons, h]

theorem lineTimes_cons_some {line : Line} (lines : List Line) {time : Nat}
    (h : timeOf line = some time) : lineTimes (line :: lines) = time :: lineTimes lines := by
  unfold lineTimes
  rw [List.filterMap_cons, h]

theorem timeOf_le {line : Line} {time : Nat} (h : timeOf line = some time) : time ≤ u128Max := by
  unfold timeOf parseVcdTimeLine at h
  split at h
  · simp only [parseU128] at h
    split at h
    · exact absurd h (by simp)
    · split at h
      · rename_i hle
        exact Option.some.inj h ▸ hle
      · exact absurd h (by simp)
  · exact absurd h (by simp)

namespace Ordered

variable {current : Option Nat} {pending : List Nat} {line : Line} {lines : List Line}

theorem skip (h : Ordered current pending (line :: lines)) (htime : timeOf line = none) :
    Ordered current pending lines := by
  have hlines := h.sorted
  have hfrom := h.from_current
  rw [lineTimes_cons_none lines htime] at hlines hfrom
  exact ⟨h.pairwise, h.bound, h.after, hlines, hfrom⟩

/-- After a line that announces a time. -/
theorem next {time : Nat} (h : Ordered current pending (line :: lines))
    (htime : timeOf line = some time) {later : List Nat} (hlater : later.Sublist pending)
    (hafter : ∀ t ∈ later, time < t) : Ordered (some time) later lines := by
  have hlines := h.sorted
  rw [lineTimes_cons_some lines htime, List.pairwise_cons] at hlines
  refine ⟨h.pairwise.sublist hlater, fun t ht => h.bound t (hlater.subset ht), ?_, hlines.2, ?_⟩
  · rintro c ⟨⟩
    exact hafter
  · rintro c ⟨⟩
    exact hlines.1

/-- After a pending time before all lines. -/
theorem insert {t : Nat} (h : Ordered current (t :: pending) lines)
    (hlines : ∀ time ∈ lineTimes lines, t < time) : Ordered (some t) pending lines := by
  obtain ⟨hfirst, hrest⟩ := List.pairwise_cons.mp h.pairwise
  refine ⟨hrest, (List.forall_mem_cons.mp h.bound).2, ?_, h.sorted, ?_⟩
  · rintro c ⟨⟩
    exact hfirst
  · rintro c ⟨⟩ time htime
    exact (hlines time htime).le

theorem le_time {time : Nat} (h : Ordered current pending (line :: lines))
    (htime : timeOf line = some time) : ∀ c ∈ current, c ≤ time := by
  intro c hc
  apply h.from_current c hc
  rw [lineTimes_cons_some lines htime]
  exact List.mem_cons_self

theorem lt_head {t : Nat} (h : Ordered current (t :: pending) lines) : ∀ c ∈ current, c < t :=
  fun c hc => h.after c hc t List.mem_cons_self

end Ordered

section Loop

variable {emitAt : Nat → Output} {zero : Output}

/-- The early times of a line, one after the other. -/
theorem Merged.earlyTimes {line : Line} {lines : List Line} {out : Output} {time : Nat}
    (htime : timeOf line = some time) (pending : List Nat) :
    ∀ (current : Option Nat) (active : Bool), Ordered current pending (line :: lines) →
      (∀ current, Ordered current (pending.dropWhile (· < time)) (line :: lines) →
        Merged emitAt zero current (pending.dropWhile (· < time))
          (active || !(pending.takeWhile (· < time)).isEmpty) (line :: lines) out) →
      Merged emitAt zero current pending active (line :: lines)
        ((pending.takeWhile (· < time)).flatMap (insertTime emitAt) ++ out) := by
  induction pending with
  | nil =>
      intro current active hordered h
      simpa using h current hordered
  | cons t pending ih =>
      intro current active hordered h
      rcases Nat.lt_or_ge t time with ht | ht
      · rw [List.takeWhile_cons_of_pos (by simpa using ht), List.flatMap_cons, List.append_assoc]
        have hlines : ∀ next ∈ lineTimes (line :: lines), t < next := by
          have hsorted := hordered.sorted
          rw [lineTimes_cons_some lines htime] at hsorted ⊢
          intro next hnext
          rcases List.mem_cons.mp hnext with rfl | hnext
          · exact ht
          · exact ht.trans_le ((List.pairwise_cons.mp hsorted).1 next hnext)
        refine .early htime hordered.lt_head hlines (hordered.bound t List.mem_cons_self)
          (ih (some t) true (hordered.insert hlines) fun current hnow => ?_)
        rw [List.takeWhile_cons_of_pos (by simpa using ht),
          List.dropWhile_cons_of_pos (by simpa using ht)] at h
        simpa using h current hnow
      · rw [List.takeWhile_cons_of_neg (by simpa using ht)]
        rw [List.takeWhile_cons_of_neg (by simpa using ht),
          List.dropWhile_cons_of_neg (by simpa using ht)] at h
        simpa using h current hordered

/-- The time that is current after the lines. -/
def lastOf (current : Option Nat) (lines : List Line) : Option Nat :=
  (lineTimes lines).getLast?.or current

theorem lastOf_cons_none {line : Line} (current : Option Nat) (lines : List Line)
    (h : timeOf line = none) : lastOf current (line :: lines) = lastOf current lines := by
  rw [lastOf, lineTimes_cons_none lines h, lastOf]

theorem lastOf_cons_some {line : Line} (current : Option Nat) (lines : List Line) {time : Nat}
    (h : timeOf line = some time) : lastOf current (line :: lines) = lastOf (some time) lines := by
  rw [lastOf, lineTimes_cons_some lines h, lastOf, List.getLast?_cons]
  cases (lineTimes lines).getLast? <;> rfl

variable (emitAt zero) in
/-- What is left after the lines, and that its output completes theirs. -/
structure Completes (current : Option Nat) (pending : List Nat) (active : Bool)
    (lines : List Line) (result : Output × List Nat × Bool) : Prop where
  ordered : Ordered (lastOf current lines) result.2.1 []
  up : result.2.2 = true → (lastOf current lines).isSome
  merged : ∀ out, Merged emitAt zero (lastOf current lines) result.2.1 result.2.2 [] out →
    Merged emitAt zero current pending active lines (result.1 ++ out)

theorem mergeBody_none {line : Line} (h : timeOf line = none) (pending : List Nat) (active : Bool)
    (lines : List Line) :
    mergeBody emitAt zero pending active (line :: lines) =
      ((.original, line) :: (mergeBody emitAt zero pending active lines).1,
        (mergeBody emitAt zero pending active lines).2) := by
  rw [mergeBody, h]

theorem mem_dropWhile_lt {pending : List Nat} (h : pending.Pairwise (· < ·)) (time : Nat) :
    ∀ t ∈ pending.dropWhile (· < time), time ≤ t := by
  induction pending with
  | nil => exact fun t ht => absurd ht (by simp)
  | cons first pending ih =>
      obtain ⟨hfirst, hpending⟩ := List.pairwise_cons.mp h
      intro t ht
      rcases Nat.lt_or_ge first time with hlt | hge
      · rw [List.dropWhile_cons_of_pos (by simpa using hlt)] at ht
        exact ih hpending t ht
      · rw [List.dropWhile_cons_of_neg (by simpa using hge)] at ht
        rcases List.mem_cons.mp ht with rfl | ht
        · exact hge
        · exact hge.trans (hfirst t ht).le

theorem lt_of_head_ne {later : List Nat} {time : Nat} (hsorted : later.Pairwise (· < ·))
    (hge : ∀ t ∈ later, time ≤ t) (hhead : later.head? ≠ some time) : ∀ t ∈ later, time < t := by
  cases later with
  | nil => exact fun t ht => absurd ht (by simp)
  | cons first rest =>
      have hfirst : time < first := by
        refine Nat.lt_of_le_of_ne (hge first List.mem_cons_self) ?_
        rintro rfl
        exact hhead rfl
      intro t ht
      rcases List.mem_cons.mp ht with rfl | ht
      · exact hfirst
      · exact hfirst.trans ((List.pairwise_cons.mp hsorted).1 t ht)

/-- The step of the loop at a line with a time. -/
theorem Completes.step {line : Line} {lines : List Line} {time : Nat}
    (htime : timeOf line = some time)
    (ih : ∀ (pending : List Nat) (active : Bool) (current : Option Nat),
      Ordered current pending lines → (active = true → current.isSome) →
        Completes emitAt zero current pending active lines (mergeBody emitAt zero pending active lines))
    (pending : List Nat) (active : Bool) (current : Option Nat)
    (hordered : Ordered current pending (line :: lines)) :
    Completes emitAt zero current pending active (line :: lines)
      (mergeBody emitAt zero pending active (line :: lines)) := by
  have hlast := lastOf_cons_some current lines htime
  have hsublist : (pending.dropWhile (· < time)).Sublist pending := List.dropWhile_sublist _
  have hge := mem_dropWhile_lt hordered.pairwise time
  rw [mergeBody, htime]
  simp only
  split
  · -- the line has the time of events
    rename_i hhead
    obtain ⟨rest, hrest⟩ : ∃ rest, pending.dropWhile (· < time) = time :: rest := by
      rw [List.head?_eq_some_iff] at hhead
      exact hhead
    have hnodup := hordered.pairwise.sublist hsublist
    rw [hrest, List.pairwise_cons] at hnodup
    have hdrop : (pending.dropWhile (· < time)).drop 1 = rest := by rw [hrest]; rfl
    have hnext := hordered.next htime (List.Sublist.trans (hrest ▸ List.sublist_cons_self time rest)
      hsublist) hnodup.1
    obtain ⟨hordered', hup, hmerged⟩ := ih rest true (some time) hnext fun _ => rfl
    rw [hdrop]
    refine ⟨hlast ▸ hordered', hlast ▸ hup, fun out hout => ?_⟩
    rw [hlast] at hout
    simp only [List.append_assoc, List.singleton_append]
    refine Merged.earlyTimes htime pending current active hordered fun now hnow => ?_
    rw [hrest] at hnow ⊢
    exact .equal htime hnow.lt_head (timeOf_le htime) (hmerged out hout)
  · rename_i hhead
    have hlt := lt_of_head_ne (hordered.pairwise.sublist hsublist) hge hhead
    have hnext := hordered.next htime hsublist hlt
    obtain ⟨hordered', hup, hmerged⟩ := ih _ false (some time) hnext fun _ => rfl
    split
    · -- signals that are up are put down
      rename_i hactive
      refine ⟨hlast ▸ hordered', hlast ▸ hup, fun out hout => ?_⟩
      rw [hlast] at hout
      simp only [List.append_assoc, List.singleton_append]
      refine Merged.earlyTimes htime pending current active hordered fun now hnow => ?_
      rw [hactive]
      exact .lower htime (hnow.le_time htime) hlt (hmerged out hout)
    · rename_i hactive
      have hdown := Bool.eq_false_iff.mpr hactive
      have hinactive : active = false := (Bool.or_eq_false_iff.mp hdown).1
      rw [hinactive] at hdown ⊢
      refine ⟨hlast ▸ hordered', hlast ▸ hup, fun out hout => ?_⟩
      rw [hlast] at hout
      simp only [List.append_assoc, List.singleton_append]
      refine Merged.earlyTimes htime pending current false hordered fun now hnow => ?_
      rw [hdown]
      exact .quiet htime (hnow.le_time htime) hlt (hmerged out hout)

theorem mergeBody_completes (lines : List Line) :
    ∀ (pending : List Nat) (active : Bool) (current : Option Nat),
      Ordered current pending lines → (active = true → current.isSome) →
        Completes emitAt zero current pending active lines
          (mergeBody emitAt zero pending active lines) := by
  induction lines with
  | nil =>
      intro pending active current hordered hactive
      exact ⟨hordered, hactive, fun out hout => hout⟩
  | cons line lines ih =>
      intro pending active current hordered hactive
      cases htime : timeOf line with
      | none =>
          obtain ⟨hordered', hup, hmerged⟩ := ih pending active current (hordered.skip htime) hactive
          have hlast := lastOf_cons_none current lines htime
          rw [mergeBody_none htime]
          refine ⟨hlast ▸ hordered', hlast ▸ hup, fun out hout => ?_⟩
          rw [hlast] at hout
          exact .line htime (hmerged out hout)
      | some time => exact Completes.step htime ih pending active current hordered

/-- The times after the last line, and the last fall of the signals. -/
theorem mergeTail_merged (pending : List Nat) :
    ∀ (current : Option Nat) (last : Nat) (active : Bool), Ordered current pending [] →
      (∀ t ∈ pending, last ≤ t) → (active = true → current = some last) → last ≤ u128Max →
      ∃ tail last' active', mergeTail emitAt last active pending = some (tail, last', active') ∧
        Merged emitAt zero current pending active [] (tail ++ closing zero last' active') := by
  induction pending with
  | nil =>
      intro current last active _ _ hactive hlast
      refine ⟨[], last, active, rfl, ?_⟩
      cases active with
      | false => exact .done
      | true =>
          rw [hactive rfl]
          exact .lowerLast hlast
  | cons t pending ih =>
      intro current last active hordered hge hactive hlast
      have hbound := hordered.bound t List.mem_cons_self
      have hfirst := (List.pairwise_cons.mp hordered.pairwise).1
      obtain ⟨tail, last', active', htail, hmerged⟩ := ih (some t) t true
        (hordered.insert fun time htime => absurd htime (by simp [lineTimes]))
        (fun next hnext => (hfirst next hnext).le) (fun _ => rfl) hbound
      refine ⟨insertTime emitAt t ++ tail, last', active', ?_, ?_⟩
      · rw [mergeTail, if_neg (Nat.not_lt.mpr (hge t List.mem_cons_self)), htail]
      · rw [List.append_assoc]
        exact .late hordered.lt_head hbound hmerged

theorem foldl_max_of_pairwise (times : List Nat) :
    ∀ first : Nat, times.Pairwise (· ≤ ·) → (∀ time ∈ times, first ≤ time) →
      times.foldl max first = times.getLast?.getD first := by
  induction times with
  | nil => exact fun _ _ _ => rfl
  | cons time times ih =>
      intro first hsorted hfirst
      obtain ⟨htime, hrest⟩ := List.pairwise_cons.mp hsorted
      rw [List.foldl_cons, max_eq_right (hfirst time List.mem_cons_self), ih time hrest htime,
        List.getLast?_cons]
      rfl

/-- The lines and the events of a whole dump. -/
theorem merged_of_ordered {lines : List Line} {pending : List Nat}
    (hordered : Ordered none pending lines) :
    ∃ tail last active,
      mergeTail emitAt ((lineTimes lines).foldl max 0)
        (mergeBody emitAt zero pending false lines).2.2
        (mergeBody emitAt zero pending false lines).2.1 = some (tail, last, active) ∧
      Merged emitAt zero none pending false lines
        ((mergeBody emitAt zero pending false lines).1 ++ (tail ++ closing zero last active)) := by
  obtain ⟨hleft, hup, hmerged⟩ :=
    @mergeBody_completes emitAt zero lines pending false none hordered
      fun h => absurd h Bool.false_ne_true
  have hlast : (lineTimes lines).foldl max 0 = (lastOf none lines).getD 0 := by
    rw [foldl_max_of_pairwise _ 0 hordered.sorted fun _ _ => Nat.zero_le _, lastOf, Option.or_none]
  rw [hlast]
  have hge : ∀ t ∈ (mergeBody emitAt zero pending false lines).2.1, (lastOf none lines).getD 0 ≤ t := by
    intro t ht
    cases hcurrent : lastOf none lines with
    | none => exact Nat.zero_le t
    | some c => exact (hleft.after c hcurrent t ht).le
  have hbound : (lastOf none lines).getD 0 ≤ u128Max := by
    cases hcurrent : lastOf none lines with
    | none => exact Nat.zero_le _
    | some c =>
        rw [lastOf, Option.or_none] at hcurrent
        obtain ⟨line, -, hline⟩ := List.mem_filterMap.mp (List.mem_of_getLast? hcurrent)
        exact timeOf_le hline
  have hcurrent : (mergeBody emitAt zero pending false lines).2.2 = true →
      lastOf none lines = some ((lastOf none lines).getD 0) := by
    intro h
    obtain ⟨c, hc⟩ := Option.isSome_iff_exists.mp (hup h)
    rw [hc]
    rfl
  obtain ⟨tail, last, active, htail, hrest⟩ :=
    mergeTail_merged _ _ ((lastOf none lines).getD 0) _ hleft hge hcurrent hbound
  exact ⟨tail, last, active, htail, hmerged _ hrest⟩

end Loop

end Harc.TraceMerge
