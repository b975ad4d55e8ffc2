import Harc.TraceMergeSound

/-!
The blocks that the merge writes for the events of a time, and whole dumps.
-/

namespace Harc.TraceMerge

/-! ### Changes of one signal -/

theorem foldl_update_of_not {id : Line} {out : Output}
    (h : ∀ entry ∈ out, ∀ new, valueChange entry.2 ≠ some (id, new)) (value : Option Line) :
    out.foldl (update id) value = value := by
  induction out with
  | nil => rfl
  | cons entry out ih =>
      obtain ⟨hentry, hout⟩ := List.forall_mem_cons.mp h
      have hsame : update id value entry = value := by
        unfold update
        split
        · rename_i changed new hchange
          rw [if_neg]
          rintro rfl
          exact hentry new hchange
        · rfl
      rw [List.foldl_cons, hsame]
      exact ih hout

/-- The last change of a signal counts; here all of them agree. -/
theorem foldl_update_of_agree {id new : Line} {out : Output}
    (hagree : ∀ entry ∈ out, ∀ other, valueChange entry.2 = some (id, other) → other = new)
    (hchange : ∃ entry ∈ out, valueChange entry.2 = some (id, new)) (value : Option Line) :
    out.foldl (update id) value = some new := by
  induction out generalizing value with
  | nil =>
      obtain ⟨entry, hmem, -⟩ := hchange
      exact absurd hmem List.not_mem_nil
  | cons entry out ih =>
      obtain ⟨hentry, hout⟩ := List.forall_mem_cons.mp hagree
      rw [List.foldl_cons]
      by_cases hlater : ∃ entry ∈ out, valueChange entry.2 = some (id, new)
      · exact ih hout hlater _
      · have hquiet : ∀ entry ∈ out, ∀ other, valueChange entry.2 ≠ some (id, other) := by
          intro entry hmem other heq
          obtain rfl := hout entry hmem other heq
          exact hlater ⟨entry, hmem, heq⟩
        obtain ⟨found, hmem, hfound⟩ := hchange
        obtain rfl : found = entry := by
          rcases List.mem_cons.mp hmem with rfl | hmem
          · rfl
          · exact absurd ⟨found, hmem, hfound⟩ hlater
        rw [foldl_update_of_not hquiet, update, hfound]
        exact if_pos rfl

/-! ### Blocks of events -/

section Lanes

variable (gen : VcdIdGen)

/-- The entry changes the signal number `k` of the generator. -/
def Changes (entry : Mark × Line) (k : Nat) (value : Line) : Prop :=
  valueChange entry.2 = some (gen.nth k, value) ∧ timeOf entry.2 = none

variable {gen}

theorem changes_bit (mark : Mark) {b : Char} (k : Nat) (hb : b = '0' ∨ b = '1') :
    Changes gen (mark, b :: gen.nth k) k [b] := by
  refine ⟨valueChange_bit _ hb, timeOf_cons _ ?_ ?_⟩ <;> rcases hb with rfl | rfl <;> decide

theorem changes_emitInt (mark : Mark) (k value width : Nat) :
    ∃ bits, Changes gen (mark, emitInt (gen.nth k) value width) k bits := by
  obtain ⟨bits, hbits⟩ := valueChange_emitInt (VcdIdGen.advance^[k] gen).number value width
  exact ⟨bits, hbits, timeOf_cons _ (by decide) (by decide)⟩

/-- An entry of an event changes one of the fourteen signals of its lane, and the first only to
one. -/
theorem emitEvent_changes (maps : StringTables) (event : SemanticEvent) (lane : Nat) :
    ∀ entry ∈ emitEvent (signalIds gen lane) maps event,
      ∃ k < 14, ∃ value, Changes gen entry (14 * lane + k) value ∧ (k = 0 → value = ['1']) := by
  have hint : ∀ (k value width : Nat), 0 < k → k < 14 →
      ∃ k' < 14, ∃ bits, Changes gen (.event, emitInt (gen.nth (14 * lane + k)) value width)
        (14 * lane + k') bits ∧ (k' = 0 → bits = ['1']) := by
    intro k value width hpos hlt
    obtain ⟨bits, hbits⟩ := @changes_emitInt gen .event (14 * lane + k) value width
    exact ⟨k, hlt, bits, hbits, fun h => absurd h (by omega)⟩
  intro entry hentry
  obtain ⟨line, hline, rfl⟩ := List.mem_map.mp hentry
  simp only [List.mem_cons, List.not_mem_nil, or_false] at hline
  rcases hline with rfl | rfl | rfl | rfl | rfl | rfl | rfl | rfl | rfl | rfl | rfl | rfl | rfl | rfl
  · exact hint 1 _ _ (by decide) (by decide)
  · exact hint 2 _ _ (by decide) (by decide)
  · exact hint 3 _ _ (by decide) (by decide)
  · exact hint 4 _ _ (by decide) (by decide)
  · exact hint 5 _ _ (by decide) (by decide)
  · exact hint 6 _ _ (by decide) (by decide)
  · exact hint 7 _ _ (by decide) (by decide)
  · exact hint 8 _ _ (by decide) (by decide)
  · exact hint 9 _ _ (by decide) (by decide)
  · exact hint 10 _ _ (by decide) (by decide)
  · exact hint 12 _ _ (by decide) (by decide)
  · exact hint 13 _ _ (by decide) (by decide)
  · exact ⟨11, by decide, _, changes_bit .event (14 * lane + 11) (by split <;> simp),
      fun h => absurd h (by decide)⟩
  · exact ⟨0, by decide, ['1'], changes_bit .event (14 * lane) (.inr rfl), fun _ => rfl⟩

theorem valid_mem_emitEvent (ids : SignalIds) (maps : StringTables) (event : SemanticEvent) :
    (Mark.event, '1' :: ids.valid) ∈ emitEvent ids maps event := by
  simp [emitEvent]

theorem emitValidZero_changes (lanes : List Nat) :
    ∀ entry ∈ emitValidZero (lanes.map (signalIds gen)),
      ∃ lane ∈ lanes, ∃ k, (k = 0 ∨ k = 11) ∧ entry = (Mark.zero, '0' :: gen.nth (14 * lane + k)) := by
  intro entry hentry
  obtain ⟨ids, hids, hentry⟩ := List.mem_flatMap.mp hentry
  obtain ⟨lane, hlane, rfl⟩ := List.mem_map.mp hids
  rcases List.mem_cons.mp hentry with rfl | hentry
  · exact ⟨lane, hlane, 0, .inl rfl, rfl⟩
  · exact ⟨lane, hlane, 11, .inr rfl, List.mem_singleton.mp hentry⟩

theorem zip_signals {α : Type} (f : Nat → α) (n : Nat) (events : List SemanticEvent)
    (h : events.length ≤ n) :
    ((List.range n).map f).zip events = events.zipIdx.map fun (event, lane) => (f lane, event) := by
  apply List.ext_getElem
  · simp [h]
  · intro i hi hi'
    simp

/-! ### Times of events -/

theorem mem_pendingTimes {events : List SemanticEvent} {t : Nat} :
    t ∈ pendingTimes events ↔ ∃ event ∈ events, event.vcdTime = t := by
  rw [pendingTimes, List.mem_insertionSort, List.mem_dedup, List.mem_map]

theorem pendingTimes_pairwise (events : List SemanticEvent) :
    (pendingTimes events).Pairwise (· < ·) := by
  have hsorted : (pendingTimes events).Pairwise (· ≤ ·) := List.pairwise_insertionSort _ _
  have hnodup : (pendingTimes events).Nodup :=
    (List.perm_insertionSort _ _).nodup_iff.mpr (List.nodup_dedup _)
  exact (hsorted.and hnodup).imp fun h => Nat.lt_of_le_of_ne h.1 h.2

theorem length_eventsAt_pos {events : List SemanticEvent} {t : Nat} :
    0 < (eventsAt events t).length ↔ t ∈ pendingTimes events := by
  rw [List.length_pos_iff_exists_mem, mem_pendingTimes]
  simp [eventsAt]

theorem length_eventsAt_le (events : List SemanticEvent) (t : Nat) :
    (eventsAt events t).length ≤ laneCount events := by
  rcases Nat.eq_zero_or_pos (eventsAt events t).length with hzero | hpos
  · omega
  · have hmem : (eventsAt events t).length ∈
        (pendingTimes events).map fun time => (eventsAt events time).length :=
      List.mem_map_of_mem (length_eventsAt_pos.mp hpos)
    have hle : (eventsAt events t).length ≤
        ((pendingTimes events).map fun time => (eventsAt events time).length).foldl max 0 := by
      rw [List.foldl_max_eq_max (List.ne_nil_of_mem hmem)]
      exact (List.le_max_of_mem hmem).trans (Nat.le_max_right _ _)
    exact hle.trans (Nat.le_max_left _ _)

/-! ### The valid signal of a lane -/

section Valid

variable (gen : VcdIdGen) (events : List SemanticEvent)

def laneSignals : List SignalIds := (List.range (laneCount events)).map (signalIds gen)

def emitted (t : Nat) : Output :=
  emitEventsAtTime (laneSignals gen events) (stringTables events) (eventsAt events t)

variable {gen events}

theorem lane_of_nth {lane l k : Nat} (hk : k < 14) (h : gen.nth (14 * l + k) = gen.nth (14 * lane)) :
    l = lane ∧ k = 0 := by
  have := gen.nth_injective h
  omega

theorem Changes.eq_of_valid {entry : Mark × Line} {lane l k : Nat} {value other : Line}
    (h : Changes gen entry (14 * l + k) value) (hk : k < 14)
    (hvalid : valueChange entry.2 = some (gen.nth (14 * lane), other)) :
    l = lane ∧ k = 0 ∧ other = value := by
  rw [h.1, Option.some.injEq, Prod.mk.injEq] at hvalid
  obtain ⟨hlane, hzero⟩ := lane_of_nth hk hvalid.1
  exact ⟨hlane, hzero, hvalid.2.symm⟩

theorem zero_lowers {lane : Nat} (hlane : lane < laneCount events) (value : Option Line) :
    (emitValidZero (laneSignals gen events)).foldl (update (gen.nth (14 * lane))) value =
      some ['0'] := by
  apply foldl_update_of_agree
  · intro entry hentry other hother
    obtain ⟨l, -, k, hk, rfl⟩ := emitValidZero_changes _ entry hentry
    exact ((changes_bit .zero (14 * l + k) (.inl rfl)).eq_of_valid (by omega) hother).2.2
  · refine ⟨(.zero, '0' :: gen.nth (14 * lane)), ?_, (changes_bit .zero _ (.inl rfl)).1⟩
    refine List.mem_flatMap.mpr ⟨signalIds gen lane, ?_, List.mem_cons_self⟩
    exact List.mem_map_of_mem (List.mem_range.mpr hlane)

/-- The part of the events in the block of a time. -/
def eventPart (gen : VcdIdGen) (events : List SemanticEvent) (t : Nat) : Output :=
  (eventsAt events t).zipIdx.flatMap fun (event, lane) =>
    emitEvent (signalIds gen lane) (stringTables events) event

theorem emitted_eq (t : Nat) :
    emitted gen events t = emitValidZero (laneSignals gen events) ++ eventPart gen events t := by
  unfold emitted emitEventsAtTime laneSignals eventPart
  rw [zip_signals _ _ _ (length_eventsAt_le events t), List.flatMap_map]

theorem mem_eventPart {t : Nat} {entry : Mark × Line} :
    entry ∈ eventPart gen events t ↔
      ∃ lane event, (eventsAt events t)[lane]? = some event ∧
        entry ∈ emitEvent (signalIds gen lane) (stringTables events) event := by
  unfold eventPart
  rw [List.mem_flatMap]
  constructor
  · rintro ⟨⟨event, lane⟩, hmem, hentry⟩
    exact ⟨lane, event, List.mem_zipIdx_iff_getElem?.mp hmem, hentry⟩
  · rintro ⟨lane, event, hmem, hentry⟩
    exact ⟨(event, lane), List.mem_zipIdx_iff_getElem?.mpr hmem, hentry⟩

theorem emitted_drives {lane : Nat} (hlane : lane < laneCount events) :
    Drives (emitted gen events) (emitValidZero (laneSignals gen events)) (pendingTimes events)
      (fun t => decide (lane < (eventsAt events t).length)) (signalIds gen lane).valid := by
  refine ⟨fun t _ value => ?_, zero_lowers hlane, fun t ht => ?_⟩
  · change (emitted gen events t).foldl (update (gen.nth (14 * lane))) value = _
    rw [emitted_eq, List.foldl_append, zero_lowers hlane]
    rcases Nat.lt_or_ge lane (eventsAt events t).length with hlt | hge
    · rw [if_pos (decide_eq_true hlt)]
      apply foldl_update_of_agree
      · intro entry hentry other hother
        obtain ⟨l, event, -, hentry⟩ := mem_eventPart.mp hentry
        obtain ⟨k, hk, value, hchanges, hone⟩ := emitEvent_changes _ event l entry hentry
        obtain ⟨-, hzero, rfl⟩ := hchanges.eq_of_valid hk hother
        exact hone hzero
      · refine ⟨(.event, '1' :: gen.nth (14 * lane)), ?_, (changes_bit .event _ (.inr rfl)).1⟩
        exact mem_eventPart.mpr ⟨lane, _, List.getElem?_eq_getElem hlt, valid_mem_emitEvent _ _ _⟩
    · rw [if_neg (by simpa using hge)]
      apply foldl_update_of_not
      intro entry hentry new hnew
      obtain ⟨l, event, hevent, hentry⟩ := mem_eventPart.mp hentry
      obtain ⟨k, hk, value, hchanges, -⟩ := emitEvent_changes _ event l entry hentry
      obtain ⟨rfl, -, -⟩ := hchanges.eq_of_valid hk hnew
      obtain ⟨hlt, -⟩ := List.getElem?_eq_some_iff.mp hevent
      omega
  · exact length_eventsAt_pos.mp (Nat.zero_lt_of_lt (of_decide_eq_true ht))

theorem zero_quiet : Quiet (emitValidZero (laneSignals gen events)) := by
  intro entry hentry
  obtain ⟨l, -, k, -, rfl⟩ := emitValidZero_changes _ entry hentry
  exact (changes_bit .zero (14 * l + k) (.inl rfl)).2

theorem emitted_quiet (t : Nat) : Quiet (emitted gen events t) := by
  intro entry hentry
  rw [emitted_eq] at hentry
  rcases List.mem_append.mp hentry with hentry | hentry
  · exact zero_quiet entry hentry
  · obtain ⟨l, event, -, hentry⟩ := mem_eventPart.mp hentry
    obtain ⟨k, -, value, hchanges, -⟩ := emitEvent_changes _ event l entry hentry
    exact hchanges.2

theorem zero_mark : ∀ entry ∈ emitValidZero (laneSignals gen events), entry.1 = .zero := by
  intro entry hentry
  obtain ⟨_, _, _, _, rfl⟩ := emitValidZero_changes _ entry hentry
  rfl

theorem eventPart_mark (t : Nat) : ∀ entry ∈ eventPart gen events t, entry.1 = .event := by
  intro entry hentry
  obtain ⟨_, _, _, hentry⟩ := mem_eventPart.mp hentry
  obtain ⟨_, _, rfl⟩ := List.mem_map.mp hentry
  rfl

theorem block_emitted (t : Nat) :
    block (emitted gen events) t =
      (eventPart gen events t).map fun entry => (entry.1, entry.2, some t) := by
  unfold block
  rw [emitted_eq, List.filter_append, List.filter_eq_nil_iff.mpr, List.filter_eq_self.mpr,
    List.nil_append]
  · intro entry hentry
    simpa using eventPart_mark t entry hentry
  · intro entry hentry
    rw [zero_mark entry hentry]
    decide

theorem emitted_mark (t : Nat) : ∀ entry ∈ emitted gen events t, entry.1 ≠ .original := by
  intro entry hentry
  rw [emitted_eq] at hentry
  rcases List.mem_append.mp hentry with hentry | hentry
  · rw [zero_mark entry hentry]
    decide
  · rw [eventPart_mark t entry hentry]
    decide

end Valid

end Lanes

/-! ### Definitions -/

theorem trim_cons_cons {c d : Char} (line : Line) (hc : isWhitespace c = false)
    (hd : isWhitespace d = false) : ∃ rest, trim (c :: d :: line) = c :: d :: rest := by
  unfold trim
  rw [List.dropWhile_cons_of_neg (by simp [hc]), List.reverse_cons, List.reverse_cons,
    List.append_assoc, List.dropWhile_append]
  split
  · refine ⟨[], ?_⟩
    rw [List.singleton_append, List.dropWhile_cons_of_neg (by simp [hd])]
    rfl
  · exact ⟨(line.reverse.dropWhile isWhitespace).reverse, by simp⟩

theorem isEnddefinitions_cons {c : Char} (line : Line) (hc : isWhitespace c = false) (hne : c ≠ 'e') :
    isEnddefinitions ('$' :: c :: line) = false := by
  obtain ⟨rest, hrest⟩ := trim_cons_cons line (by decide : isWhitespace '$' = false) hc
  rw [isEnddefinitions, hrest, beq_eq_false_iff_ne]
  intro heq
  exact hne (List.cons.inj (List.cons.inj heq).2).1

theorem timeOf_of_isEnddefinitions {line : Line} (h : isEnddefinitions line = true) :
    timeOf line = none := by
  rw [timeOf, eq_of_beq h]
  rfl

theorem emitSemanticHeader_plain (signals : List SignalIds) (maps : StringTables) :
    ∀ line ∈ emitSemanticHeader signals maps, isEnddefinitions line = false := by
  have hcomment : ∀ (name : String) (table : IdTable), ∀ line ∈ emitMapComments name table,
      isEnddefinitions line = false := by
    intro name table line hline
    obtain ⟨value, -, rfl⟩ := List.mem_map.mp hline
    exact isEnddefinitions_cons _ (by decide : isWhitespace 'c' = false) (by decide)
  have hvar : ∀ (kind : String) (id : Line) (lane : Nat) (name : String),
      isEnddefinitions (declaration kind id lane name) = false :=
    fun _ _ _ _ => isEnddefinitions_cons _ (by decide : isWhitespace 'v' = false) (by decide)
  intro line hline
  simp only [emitSemanticHeader, List.mem_append, List.mem_cons, List.not_mem_nil, or_false,
    List.mem_flatMap] at hline
  rcases hline with (((((((((((rfl | rfl) | h) | h) | h) | h) | h) | h) | h) | h) | h) | rfl)
  · exact isEnddefinitions_cons _ (by decide : isWhitespace 's' = false) (by decide)
  · exact isEnddefinitions_cons _ (by decide : isWhitespace 'c' = false) (by decide)
  all_goals first
    | exact hcomment _ _ line h
    | exact isEnddefinitions_cons _ (by decide : isWhitespace 'u' = false) (by decide)
    | skip
  obtain ⟨⟨ids, lane⟩, -, hline⟩ := h
  rcases hline with rfl | rfl | rfl | rfl | rfl | rfl | rfl | rfl | rfl | rfl | rfl | rfl | rfl | rfl
  all_goals exact hvar _ _ _ _

/-! ### Whole dumps -/

def definitionsOf (lines : List Line) : List Line := lines.takeWhile fun line => !isEnddefinitions line

def bodyOf (lines : List Line) : List Line :=
  (lines.dropWhile fun line => !isEnddefinitions line).drop 1

/-- The part of the output after the definitions. -/
def changesOf (out : Output) : Output :=
  (out.dropWhile fun entry => !isEnddefinitions entry.2).drop 1

/-- A dump that is written one time or one change a line, with times that do not go back. -/
structure WellFormed (lines : List Line) : Prop where
  ends : ∃ line ∈ lines, isEnddefinitions line = true
  untimed : lineTimes (definitionsOf lines) = []
  sorted : (lineTimes (bodyOf lines)).Pairwise (· ≤ ·)
  declared : ∀ line ∈ bodyOf lines, ∀ id value, valueChange line = some (id, value) →
    id ∈ collectVcdIds (definitionsOf lines)

theorem mem_definitionsOf {lines : List Line} :
    ∀ line ∈ definitionsOf lines, isEnddefinitions line = false := by
  intro line hline
  have hall := List.all_takeWhile (p := fun line => !isEnddefinitions line) (l := lines)
  simpa using List.all_eq_true.mp hall line hline

/-- The definitions, their end and the body. -/
theorem WellFormed.lines_eq {lines : List Line} (h : WellFormed lines) :
    ∃ last, isEnddefinitions last = true ∧ lines = definitionsOf lines ++ last :: bodyOf lines := by
  have hsplit := List.takeWhile_append_dropWhile (p := fun line => !isEnddefinitions line) (l := lines)
  cases hrest : lines.dropWhile fun line => !isEnddefinitions line with
  | nil =>
      obtain ⟨line, hline, hend⟩ := h.ends
      rw [hrest, List.append_nil] at hsplit
      rw [← hsplit] at hline
      have hplain := mem_definitionsOf line hline
      rw [hend] at hplain
      exact absurd hplain (by decide)
  | cons last rest =>
      have hlast : isEnddefinitions last = true := by
        have hhead := List.head_dropWhile_not (fun line => !isEnddefinitions line) (l := lines)
          (by rw [hrest]; exact List.cons_ne_nil _ _)
        simpa [hrest] using hhead
      refine ⟨last, hlast, ?_⟩
      unfold definitionsOf bodyOf
      rw [hrest]
      exact (hrest ▸ hsplit).symm

theorem samples_times (id : Line) (out : Output) : ∀ (current : Option Nat) (value : Option Line),
    (samples id current value out).map Prod.fst = current.toList ++ timesOf out := by
  induction out with
  | nil =>
      intro current value
      cases current <;> rfl
  | cons entry out ih =>
      intro current value
      cases htime : timeOf entry.2 with
      | none =>
          rw [samples, htime]
          simp only [ih]
          simp [timesOf, htime]
      | some time =>
          rw [samples_stamp htime, timesOf_stamp htime, List.map_append, ih]
          cases current <;> rfl

theorem eventsAt_perm_filter (events : List SemanticEvent) (times : List Nat) (h : times.Nodup) :
    (times.flatMap (eventsAt events)).Perm (events.filter fun event => event.vcdTime ∈ times) := by
  induction times with
  | nil => simp
  | cons t times ih =>
      obtain ⟨hnot, hnodup⟩ := List.nodup_cons.mp h
      have hsplit := List.filter_append_perm (fun event : SemanticEvent => event.vcdTime = t)
        (events.filter fun event => event.vcdTime ∈ t :: times)
      rw [List.filter_filter, List.filter_filter] at hsplit
      rw [List.flatMap_cons]
      refine ((ih hnodup).append_left _).trans (.trans (.of_eq ?_) hsplit)
      congr 1
      · apply List.filter_congr
        intro event _
        by_cases heq : event.vcdTime = t <;> simp [heq]
      · apply List.filter_congr
        intro event _
        by_cases heq : event.vcdTime = t <;> simp [heq, hnot]

/-- Every event is at one of the times, once. -/
theorem eventsAt_perm (events : List SemanticEvent) :
    ((pendingTimes events).flatMap (eventsAt events)).Perm events := by
  have hnodup : (pendingTimes events).Nodup :=
    (pendingTimes_pairwise events).imp fun h => Nat.ne_of_lt h
  refine (eventsAt_perm_filter events _ hnodup).trans (.of_eq ?_)
  rw [List.filter_eq_self]
  intro event hevent
  exact decide_eq_true (mem_pendingTimes.mpr ⟨event, hevent, rfl⟩)

def freshIds (lines : List Line) : VcdIdGen :=
  ⟨collectVcdIds (lines.take ((definitionsOf lines).length + 1)), 0⟩

/-- What a merged dump says about the lines of the dump and about the events. -/
structure Faithful (lines : List Line) (events : List SemanticEvent) (out : Output) : Prop where
  /-- Every line is there, in its order. -/
  kept : (out.filter fun entry => entry.1 = Mark.original).map Prod.snd = lines
  times : (timesOf (changesOf out)).Pairwise (· ≤ ·)
  /-- The lines of the body are at their times. -/
  atTime : timedOf .original none (changesOf out) = timed none (original (bodyOf lines))
  /-- Every event is at one of the times of the events, once. -/
  once : ((pendingTimes events).flatMap (eventsAt events)).Perm events
  /-- The entries of events are those of the lanes at each of these times, at that time. -/
  changes : timedOf .event none (changesOf out) = (pendingTimes events).flatMap fun t =>
    ((eventsAt events t).zipIdx.flatMap fun (event, lane) =>
      emitEvent (signalIds (freshIds lines) lane) (stringTables events) event).map
        fun entry => (entry.1, entry.2, some t)
  sampled : ∀ id, (samples id none none (changesOf out)).map Prod.fst = timesOf (changesOf out)
  /-- The valid signal of a lane is up where there are events enough for it. -/
  valid : ∀ lane < laneCount events,
    ∀ sample ∈ samples (signalIds (freshIds lines) lane).valid none none (changesOf out),
      Follows (pendingTimes events) (lineTimes (bodyOf lines))
        (fun t => decide (lane < (eventsAt events t).length)) sample.1 sample.2

/-- The output before the body. -/
def head (lines : List Line) (events : List SemanticEvent) : Output :=
  original (definitionsOf lines) ++
    (emitSemanticHeader (laneSignals (freshIds lines) events) (stringTables events)).map
      fun line => (Mark.header, line)

theorem findIdx?_of_split {definitions body : List Line} {last : Line}
    (hplain : ∀ line ∈ definitions, isEnddefinitions line = false)
    (hlast : isEnddefinitions last = true) :
    (definitions ++ last :: body).findIdx? isEnddefinitions = some definitions.length := by
  rw [List.findIdx?_append, List.findIdx?_eq_none_iff.mpr hplain, List.findIdx?_cons, hlast]
  simp

/-- The signals put down. -/
def lowered (lines : List Line) (events : List SemanticEvent) : Output :=
  emitValidZero (laneSignals (freshIds lines) events)

/-- What the loop leaves after the lines of the body. -/
def loopResult (lines : List Line) (events : List SemanticEvent) : Output × List Nat × Bool :=
  mergeBody (emitted (freshIds lines) events) (lowered lines events) (pendingTimes events) false
    (bodyOf lines)

theorem mergeTraceIntoVcd_of_tail {lines : List Line} {events : List SemanticEvent} {last : Line}
    (hlast : isEnddefinitions last = true)
    (hlines : lines = definitionsOf lines ++ last :: bodyOf lines)
    (huntimed : lineTimes (definitionsOf lines) = []) {tail : Output} {time : Nat} {active : Bool}
    (htail : mergeTail (emitted (freshIds lines) events) ((lineTimes (bodyOf lines)).foldl max 0)
      (loopResult lines events).2.2 (loopResult lines events).2.1 = some (tail, time, active)) :
    mergeTraceIntoVcd lines events = some (head lines events ++ (Mark.original, last) ::
      ((loopResult lines events).1 ++ (tail ++ closing (lowered lines events) time active))) := by
  have hindex : lines.findIdx? isEnddefinitions = some (definitionsOf lines).length := by
    rw [hlines]
    nth_rewrite 2 [← hlines]
    exact findIdx?_of_split mem_definitionsOf hlast
  have htake : lines.take (definitionsOf lines).length = definitionsOf lines := by
    nth_rewrite 2 [hlines]
    rw [List.take_left]
  have hdrop : lines.drop (definitionsOf lines).length = last :: bodyOf lines := by
    nth_rewrite 2 [hlines]
    rw [List.drop_left]
  have hbody : lines.drop ((definitionsOf lines).length + 1) = bodyOf lines := by
    rw [← List.drop_drop, hdrop]
    rfl
  have htimes : lastTime lines = (lineTimes (bodyOf lines)).foldl max 0 := by
    unfold lastTime
    nth_rewrite 1 [hlines]
    rw [List.filterMap_append, List.filterMap_cons, timeOf_of_isEnddefinitions hlast]
    change List.foldl max 0 (lineTimes (definitionsOf lines) ++ _) = _
    rw [huntimed]
    rfl
  unfold mergeTraceIntoVcd
  rw [hindex]
  simp only [htake, hdrop, hbody, htimes]
  erw [htail]
  simp only [List.append_assoc, List.take_succ_cons, List.take_zero, List.map_cons, List.map_nil,
    List.singleton_append, head]
  rfl

theorem head_plain (lines : List Line) (events : List SemanticEvent) :
    ∀ entry ∈ head lines events, isEnddefinitions entry.2 = false := by
  intro entry hentry
  rcases List.mem_append.mp hentry with hentry | hentry
  · obtain ⟨line, hline, rfl⟩ := List.mem_map.mp hentry
    exact mem_definitionsOf line hline
  · obtain ⟨line, hline, rfl⟩ := List.mem_map.mp hentry
    exact emitSemanticHeader_plain _ _ line hline

theorem changesOf_head (lines : List Line) (events : List SemanticEvent) {last : Line}
    (hlast : isEnddefinitions last = true) (out : Output) :
    changesOf (head lines events ++ (Mark.original, last) :: out) = out := by
  unfold changesOf
  rw [List.dropWhile_append_of_pos (by simpa using head_plain lines events),
    List.dropWhile_cons_of_neg (by simpa using hlast)]
  rfl

theorem filter_head (lines : List Line) (events : List SemanticEvent) :
    ((head lines events).filter fun entry => entry.1 = Mark.original).map Prod.snd =
      definitionsOf lines := by
  unfold head
  rw [List.filter_append, List.filter_eq_self.mpr, List.filter_eq_nil_iff.mpr, List.append_nil]
  · simp [original, Function.comp_def]
  · intro entry hentry
    obtain ⟨line, -, rfl⟩ := List.mem_map.mp hentry
    simp
  · intro entry hentry
    obtain ⟨line, -, rfl⟩ := List.mem_map.mp hentry
    rfl

theorem timed_map_snd (out : Output) : ∀ current : Option Nat,
    (timed current out).map (fun entry => (entry.1, entry.2.1)) = out := by
  induction out with
  | nil => exact fun _ => rfl
  | cons entry out ih =>
      intro current
      rw [timed, List.map_cons, ih]

/-- The kept lines, read without their times. -/
theorem filter_of_timedOf {out : Output} {lines : List Line}
    (h : timedOf .original none out = timed none (original lines)) :
    (out.filter fun entry => entry.1 = Mark.original).map Prod.snd = lines := by
  have hmap := congrArg (List.map fun entry => (entry.1, entry.2.1)) h
  rw [timed_map_snd] at hmap
  have hfilter : (timedOf .original none out).map (fun entry => (entry.1, entry.2.1)) =
      out.filter fun entry => entry.1 = Mark.original := by
    nth_rewrite 2 [← timed_map_snd out none]
    rw [timedOf, List.filter_map]
    rfl
  rw [← hfilter, hmap]
  simp [original, Function.comp_def]

theorem update_declared {lines : List Line} (h : WellFormed lines) {last : Line}
    (hlines : lines = definitionsOf lines ++ last :: bodyOf lines) (k : Nat) :
    ∀ line ∈ bodyOf lines, ∀ value,
      update ((freshIds lines).nth k) value (.original, line) = value := by
  intro line hline value
  unfold update
  split
  · rename_i changed new hchange
    rw [if_neg]
    rintro rfl
    apply (freshIds lines).nth_notMem k
    have hmem := h.declared line hline _ _ hchange
    have htake : lines.take ((definitionsOf lines).length + 1) = definitionsOf lines ++ [last] := by
      nth_rewrite 2 [hlines]
      rw [List.take_append, List.take_of_length_le (Nat.le_succ _)]
      simp
    change _ ∈ collectVcdIds (lines.take ((definitionsOf lines).length + 1))
    rw [htake, collectVcdIds, List.filterMap_append]
    exact List.mem_append_left _ hmem
  · rfl

theorem mergeTraceIntoVcd_faithful (lines : List Line) (events : List SemanticEvent)
    (h : WellFormed lines) :
    ∃ out, mergeTraceIntoVcd lines events = some out ∧ Faithful lines events out := by
  obtain ⟨last, hlast, hlines⟩ := h.lines_eq
  have hordered : Ordered none (pendingTimes events) (bodyOf lines) := by
    refine ⟨pendingTimes_pairwise events, fun t ht => ?_, by simp, h.sorted, by simp⟩
    obtain ⟨event, -, rfl⟩ := mem_pendingTimes.mp ht
    exact event.isU128
  obtain ⟨tail, time, active, htail, hmerged⟩ := @merged_of_ordered
    (emitted (freshIds lines) events) (lowered lines events) _ _ hordered
  refine ⟨_, mergeTraceIntoVcd_of_tail hlast hlines h.untimed htail, ?_⟩
  change Merged _ _ _ _ _ _ ((loopResult lines events).1 ++ _) at hmerged
  have hzeroMark : ∀ mark : Mark, mark ≠ .zero → ∀ entry ∈ lowered lines events, entry.1 ≠ mark := by
    intro mark hne entry hentry
    rw [zero_mark entry hentry]
    exact hne.symm
  have hkept := hmerged.lines_kept emitted_quiet zero_quiet emitted_mark
    (hzeroMark .original (by decide))
  have hevents := hmerged.events_kept emitted_quiet zero_quiet (hzeroMark .event (by decide))
  have htracked : ∀ up : Nat → Bool, Tracked (pendingTimes events) (lineTimes (bodyOf lines)) up none
      (pendingTimes events) false (bodyOf lines) none :=
    fun up => ⟨fun t ht => .inl ht, fun t ht => ht, by simp, fun _ => rfl,
      fun h => absurd h Bool.false_ne_true, [], rfl, by simp⟩
  have hchanges := changesOf_head lines events hlast
    ((loopResult lines events).1 ++ (tail ++ closing (lowered lines events) time active))
  constructor
  case kept =>
    rw [List.filter_append, List.map_append, filter_head, List.filter_cons_of_pos (by rfl),
      List.map_cons, filter_of_timedOf hkept]
    exact hlines.symm
  case once => exact eventsAt_perm events
  case sampled => exact fun id => samples_times id _ none none
  all_goals rw [hchanges]
  case times => exact (hmerged.times emitted_quiet zero_quiet).1
  case atTime => exact hkept
  case changes =>
    rw [hevents, funext block_emitted]
    rfl
  case valid =>
    intro lane hlane
    exact hmerged.samples_follow emitted_quiet zero_quiet (emitted_drives hlane)
      (update_declared h hlines (14 * lane)) none (htracked _)

/-! ### A clock and events -/

def clockDump : List Line :=
  ["$var wire 1 ! clk $end", "$enddefinitions $end", "#0", "0!", "#10", "1!"].map String.toList

def clockEvent : SemanticEvent where
  typ := "bus".toList
  seq := 1
  cycle := 1
  vcdTime := 10
  clock := "clk".toList
  clockCycle := 1
  component := []
  bus := []
  method := []
  phase := []
  direction := []
  tag := none
  label := []
  isU128 := by decide

theorem clockDump_wellFormed : WellFormed clockDump := by
  have hdeclared : ∀ line ∈ bodyOf clockDump, ∀ change ∈ valueChange line,
      change.1 ∈ collectVcdIds (definitionsOf clockDump) := by decide
  exact ⟨by decide, by decide, by decide, fun line hline id value h => hdeclared line hline (id, value) h⟩

/-- Two events at one time of the dump, and one between two times. -/
def clockEvents : List SemanticEvent :=
  [{ clockEvent with seq := 2, vcdTime := 5, isU128 := by decide }, clockEvent,
    { clockEvent with seq := 3, tag := some 1, isU128 := by decide }]

theorem clockDump_faithful : WellFormed clockDump ∧
    ∃ out, mergeTraceIntoVcd clockDump clockEvents = some out ∧
      Faithful clockDump clockEvents out :=
  ⟨clockDump_wellFormed, mergeTraceIntoVcd_faithful clockDump clockEvents clockDump_wellFormed⟩

/-- Before the first event the valid signal has no value. -/
theorem clockDump_valid_undefined : WellFormed clockDump ∧ clockEvent.vcdTime ≠ 0 ∧
    ∃ out, mergeTraceIntoVcd clockDump [clockEvent] = some out ∧ 0 ∈ timesOf (changesOf out) ∧
      (0, none) ∈ samples (signalIds (freshIds clockDump) 0).valid none none (changesOf out) := by
  have hout : (mergeTraceIntoVcd clockDump [clockEvent]).any (fun out =>
      decide (0 ∈ timesOf (changesOf out)) &&
      decide ((0, none) ∈ samples (signalIds (freshIds clockDump) 0).valid none none
        (changesOf out))) = true := by
    decide +kernel
  obtain ⟨out, hmerge, hout⟩ := (Option.any_eq_true _ _).mp hout
  rw [Bool.and_eq_true, decide_eq_true_eq, decide_eq_true_eq] at hout
  exact ⟨clockDump_wellFormed, by decide, out, hmerge, hout⟩

end Harc.TraceMerge
