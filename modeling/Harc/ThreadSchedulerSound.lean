import Harc.ThreadScheduler

/-!
A tick comes to an end, resumes no slot twice and none that it excludes, and counts down the
waits of the others, as long as the coroutines that it resumes leave the scheduler alone.
-/

namespace Harc.ThreadScheduler

variable {W : Type}

/-! ### Steps -/

/-- The coroutine adds and removes no slot. -/
def Keeps (body : Body W) : Prop := ∀ i s, (body i s).slots.length = s.slots.length

/-- The coroutine changes no slot but its own; it may add some. -/
def Own (body : Body W) : Prop :=
  ∀ i s j slot, j ≠ i → s.slots[j]? = some slot → (body i s).slots[j]? = some slot

/-- The coroutine leaves the scheduler alone. -/
structure Contained (body : Body W) : Prop where
  keeps : Keeps body
  own : Own body

theorem resumeAt_length {body : Body W} (hbody : Keeps body) (i : Nat) (slot : ThreadSlot W)
    (s : Scheduler W) : (resumeAt body i slot s).slots.length = s.slots.length := by
  simp only [resumeAt, List.length_modify]
  split
  · rfl
  · exact hbody i s

theorem resumeAt_getElem? {body : Body W} (hbody : Own body) {i j : Nat} (h : j ≠ i)
    (slot : ThreadSlot W) {s : Scheduler W} {other : ThreadSlot W} (hj : s.slots[j]? = some other) :
    (resumeAt body i slot s).slots[j]? = some other := by
  unfold resumeAt
  simp only
  rw [List.getElem?_modify_ne _ _ h.symm]
  split
  · exact hj
  · exact hbody i s j other h hj

/-- A slot that is ready and was not resumed in the tick. -/
def Due (excluded : Option Nat) (t : Tick W) (i : Nat) : Prop :=
  excluded ≠ some i ∧ (∃ slot, t.scheduler.slots[i]? = some slot ∧ slot.kind = .ready) ∧
    t.resumed[i]? = some false

/-- The tick after the resumption of a slot. -/
def resumeTick (body : Body W) (i : Nat) (slot : ThreadSlot W) (t : Tick W) : Tick W where
  scheduler := resumeAt body i slot t.scheduler
  resumed := t.resumed.set i true
  changed := true
  log := t.log ++ (resumeAt body i slot t.scheduler).slots[i]?.toList.map fun slot => (i, slot)

theorem resumeStep_cases {body : Body W} {excluded : Option Nat} {i : Nat} {t t' : Tick W}
    (h : resumeStep body excluded i t = .ok t') :
    (t' = t ∧ ¬ Due excluded t i) ∨ (Due excluded t i ∧ ∃ slot, t' = resumeTick body i slot t) := by
  unfold resumeStep at h
  split at h
  · rename_i hexcluded
    exact .inl ⟨(Except.ok.inj h).symm, fun hdue => hdue.1 hexcluded⟩
  · rename_i hexcluded
    split at h
    · rename_i hslot
      refine .inl ⟨(Except.ok.inj h).symm, ?_⟩
      rintro ⟨-, ⟨slot, hsome, -⟩, -⟩
      rw [hslot] at hsome
      exact absurd hsome (by simp)
    · rename_i slot hslot
      split at h
      · rename_i hready
        split at h
        · exact absurd h (by simp)
        · rename_i hresumed
          refine .inl ⟨(Except.ok.inj h).symm, ?_⟩
          rintro ⟨-, -, hfalse⟩
          rw [hresumed] at hfalse
          exact absurd hfalse (by simp)
        · rename_i hresumed
          exact .inr ⟨⟨hexcluded, ⟨slot, hslot, hready⟩, hresumed⟩, slot, (Except.ok.inj h).symm⟩
      · rename_i hready
        refine .inl ⟨(Except.ok.inj h).symm, ?_⟩
        rintro ⟨-, ⟨other, hother, hkind⟩, -⟩
        rw [hslot] at hother
        exact hready (Option.some.inj hother ▸ hkind)

theorem resumeStep_total (body : Body W) (excluded : Option Nat) {i : Nat} {t : Tick W}
    (hi : i < t.resumed.length) : ∃ t', resumeStep body excluded i t = .ok t' := by
  unfold resumeStep
  split
  · exact ⟨_, rfl⟩
  · split
    · exact ⟨_, rfl⟩
    · split
      · split
        · rename_i hnone
          rw [List.getElem?_eq_none_iff] at hnone
          omega
        · exact ⟨_, rfl⟩
        · exact ⟨_, rfl⟩
      · exact ⟨_, rfl⟩

/-- The tick after a predicate has come to hold. -/
def wakeTick (i : Nat) (slot : ThreadSlot W) (t : Tick W) : Tick W :=
  { t with
    scheduler := { t.scheduler with slots := t.scheduler.slots.set i slot }
    changed := true }

theorem wake_ready {world : W} {slot slot' : ThreadSlot W} (h : wake world slot = some slot') :
    slot'.kind = .ready := by
  unfold wake at h
  split at h
  · exact Option.some.inj h ▸ rfl
  · split at h
    · exact Option.some.inj h ▸ rfl
    · exact absurd h (by simp)

theorem wake_of_waitCycles {world : W} {slot : ThreadSlot W} (h : slot.kind = .waitCycles) :
    wake world slot = none := by
  unfold wake
  rw [h, if_neg (by simp), if_neg (by simp)]

theorem predStep_cases {excluded : Option Nat} {i : Nat} {t t' : Tick W}
    (h : predStep excluded i t = .ok t') :
    t' = t ∨ (excluded ≠ some i ∧ t.resumed[i]? = some false ∧ ∃ slot slot',
      t.scheduler.slots[i]? = some slot ∧ wake t.scheduler.world slot = some slot' ∧
        t' = wakeTick i slot' t) := by
  unfold predStep at h
  split at h
  · exact .inl (Except.ok.inj h).symm
  · rename_i hexcluded
    split at h
    · exact absurd h (by simp)
    · exact .inl (Except.ok.inj h).symm
    · rename_i hresumed
      split at h
      · exact .inl (Except.ok.inj h).symm
      · rename_i slot' hwake
        obtain ⟨slot, hslot, hwake⟩ := Option.bind_eq_some_iff.mp hwake
        exact .inr ⟨hexcluded, hresumed, slot, slot', hslot, hwake, (Except.ok.inj h).symm⟩

theorem predStep_total (excluded : Option Nat) {i : Nat} {t : Tick W} (hi : i < t.resumed.length) :
    ∃ t', predStep excluded i t = .ok t' := by
  unfold predStep
  split
  · exact ⟨_, rfl⟩
  · split
    · rename_i hnone
      rw [List.getElem?_eq_none_iff] at hnone
      omega
    · exact ⟨_, rfl⟩
    · split
      · exact ⟨_, rfl⟩
      · exact ⟨_, rfl⟩

/-! ### Loops -/

section Loop

variable {step : Nat → Tick W → Except Fault (Tick W)}

theorem forSlots_total {n : Nat} {P : Nat → Tick W → Prop}
    (hlength : ∀ i t, P i t → t.scheduler.slots.length = n)
    (hstep : ∀ i t, i < n → P i t → ∃ t', step i t = .ok t' ∧ P (i + 1) t') (fuel : Nat) :
    ∀ i t, i ≤ n → n - i < fuel → P i t → ∃ t', forSlots step fuel i t = .ok t' ∧ P n t' := by
  induction fuel with
  | zero => exact fun i t _ hfuel => absurd hfuel (Nat.not_lt_zero _)
  | succ fuel ih =>
      intro i t hi hfuel h
      rw [forSlots, hlength i t h]
      split
      · rename_i hlt
        obtain ⟨t', ht', h'⟩ := hstep i t hlt h
        rw [ht']
        exact ih (i + 1) t' hlt (by omega) h'
      · obtain rfl : i = n := by omega
        exact ⟨t, rfl, h⟩

/-- What each turn keeps holds after the loop, at an index past the last slot. -/
theorem forSlots_indexed {P : Nat → Tick W → Prop}
    (hstep : ∀ i t t', step i t = .ok t' → P i t → P (i + 1) t') (fuel : Nat) :
    ∀ i t t', forSlots step fuel i t = .ok t' → P i t →
      ∃ k, t'.scheduler.slots.length ≤ k ∧ P k t' := by
  induction fuel with
  | zero => exact fun i t t' h => absurd h (by simp [forSlots])
  | succ fuel ih =>
      intro i t t' h hP
      rw [forSlots] at h
      split at h
      · split at h
        · exact absurd h (by simp)
        · rename_i next hnext
          exact ih (i + 1) next t' h (hstep i t next hnext hP)
      · rename_i hge
        obtain rfl := Except.ok.inj h
        exact ⟨i, Nat.le_of_not_lt hge, hP⟩

theorem forSlots_invariant {P : Tick W → Prop}
    (hstep : ∀ i t t', step i t = .ok t' → P t → P t') {fuel i : Nat} {t t' : Tick W}
    (h : forSlots step fuel i t = .ok t') (hP : P t) : P t' := by
  obtain ⟨_, -, hP'⟩ := @forSlots_indexed W step (fun _ => P) (fun i => hstep i) fuel i t t' h hP
  exact hP'

theorem forSlots_mono (fuel : Nat) :
    ∀ i t t' fuel', fuel ≤ fuel' → forSlots step fuel i t = .ok t' →
      forSlots step fuel' i t = .ok t' := by
  induction fuel with
  | zero => exact fun i t t' fuel' _ h => absurd h (by simp [forSlots])
  | succ fuel ih =>
      intro i t t' fuel' hle h
      obtain ⟨fuel', rfl⟩ : ∃ more, fuel' = more + 1 := ⟨fuel' - 1, by omega⟩
      rw [forSlots] at h ⊢
      split at h
      · rename_i hlt
        rw [if_pos hlt]
        split at h
        · exact absurd h (by simp)
        · rename_i next hnext
          exact ih (i + 1) next t' fuel' (by omega) h
      · rename_i hge
        rw [if_neg hge]
        exact h

end Loop

section Settle

variable {body : Body W} {excluded : Option Nat}

/-- One turn of the fixed point, and what follows it. -/
theorem settle_cases {fuel : Nat} {t t' : Tick W} (h : settle body excluded fuel t = .ok t') :
    ∃ less t₁ t₂, fuel = less + 1 ∧
      forSlots (resumeStep body excluded) less 0 { t with changed := false } = .ok t₁ ∧
      forSlots (predStep excluded) less 0 t₁ = .ok t₂ ∧
      ((t₂.changed = true ∧ settle body excluded less t₂ = .ok t') ∨
        (t₂.changed = false ∧ t' = t₂)) := by
  cases fuel with
  | zero => exact absurd h (by simp [settle])
  | succ less =>
      rw [settle] at h
      split at h
      · exact absurd h (by simp)
      · rename_i t₁ hresume
        split at h
        · exact absurd h (by simp)
        · rename_i t₂ hpred
          refine ⟨less, t₁, t₂, rfl, hresume, hpred, ?_⟩
          split at h
          · rename_i hchanged
            exact .inl ⟨hchanged, h⟩
          · rename_i hchanged
            exact .inr ⟨by simpa using hchanged, (Except.ok.inj h).symm⟩

theorem settle_invariant {P : Tick W → Prop} (hreset : ∀ t, P t → P { t with changed := false })
    (hresume : ∀ i t t', resumeStep body excluded i t = .ok t' → P t → P t')
    (hpred : ∀ i t t', predStep excluded i t = .ok t' → P t → P t') (fuel : Nat) :
    ∀ t t', settle body excluded fuel t = .ok t' → P t → P t' := by
  induction fuel with
  | zero => exact fun t t' h => absurd h (by simp [settle])
  | succ fuel ih =>
      intro t t' h hP
      obtain ⟨less, t₁, t₂, hfuel, hfirst, hsecond, hrest⟩ := settle_cases h
      obtain rfl : fuel = less := by omega
      have hP₂ := forSlots_invariant hpred hsecond (forSlots_invariant hresume hfirst (hreset t hP))
      rcases hrest with ⟨-, hrest⟩ | ⟨-, rfl⟩
      · exact ih t₂ t' hrest hP₂
      · exact hP₂

theorem settle_mono (fuel : Nat) : ∀ t t' fuel', fuel ≤ fuel' →
    settle body excluded fuel t = .ok t' → settle body excluded fuel' t = .ok t' := by
  induction fuel with
  | zero => exact fun t t' fuel' _ h => absurd h (by simp [settle])
  | succ fuel ih =>
      intro t t' fuel' hle h
      obtain ⟨less, t₁, t₂, hfuel, hfirst, hsecond, hrest⟩ := settle_cases h
      obtain rfl : fuel = less := by omega
      obtain ⟨fuel', rfl⟩ : ∃ more, fuel' = more + 1 := ⟨fuel' - 1, by omega⟩
      have hle : fuel ≤ fuel' := by omega
      rw [settle, forSlots_mono fuel _ _ _ fuel' hle hfirst]
      simp only
      rw [forSlots_mono fuel _ _ _ fuel' hle hsecond]
      simp only
      rcases hrest with ⟨hchanged, hrest⟩ | ⟨hchanged, rfl⟩
      · rw [if_pos hchanged]
        exact ih t₂ t' fuel' hle hrest
      · rw [if_neg (by rw [hchanged]; exact Bool.false_ne_true)]

end Settle

/-! ### Termination -/

/-- The flags are as many as the slots. -/
def Sized (n : Nat) (t : Tick W) : Prop :=
  t.scheduler.slots.length = n ∧ t.resumed.length = n

/-- The slots that were not resumed in the tick. -/
def unresumed (t : Tick W) : Nat := t.resumed.count false

theorem Due.unresumed_pos {excluded : Option Nat} {t : Tick W} {i : Nat} (h : Due excluded t i) :
    0 < unresumed t :=
  List.count_pos_iff.mpr (List.mem_of_getElem? h.2.2)

section Termination

variable {body : Body W} {excluded : Option Nat} {n : Nat}

theorem Sized.resumeTick (hbody : Keeps body) {t : Tick W} (h : Sized n t) (i : Nat)
    (slot : ThreadSlot W) : Sized n (resumeTick body i slot t) := by
  refine ⟨?_, ?_⟩
  · rw [ThreadScheduler.resumeTick, resumeAt_length hbody]
    exact h.1
  · rw [ThreadScheduler.resumeTick, List.length_set]
    exact h.2

theorem unresumed_resumeTick {t : Tick W} {i : Nat} (h : Due excluded t i) (slot : ThreadSlot W) :
    unresumed (resumeTick body i slot t) < unresumed t := by
  obtain ⟨hi, hfalse⟩ := List.getElem?_eq_some_iff.mp h.2.2
  have hpos := h.unresumed_pos
  unfold unresumed at hpos ⊢
  rw [resumeTick, List.count_set hi, hfalse]
  simp only [beq_self_eq_true, if_true]
  have hne : (true == false) = false := rfl
  rw [hne]
  simp only [Bool.false_eq_true, if_false]
  omega

variable (excluded n) in
/-- The slots before `k` in a pass of resumptions from `t`. -/
def Resuming (t : Tick W) (k : Nat) (u : Tick W) : Prop :=
  Sized n u ∧ (unresumed u < unresumed t ∨ (u = t ∧ ∀ i < k, ¬ Due excluded t i))

theorem Resuming.step (hbody : Keeps body) {t u : Tick W} {k : Nat} (hk : k < n)
    (h : Resuming excluded n t k u) :
    ∃ u', resumeStep body excluded k u = .ok u' ∧ Resuming excluded n t (k + 1) u' := by
  obtain ⟨hsized, hresult⟩ := h
  obtain ⟨u', hu'⟩ := resumeStep_total body excluded (hsized.2.symm ▸ hk : k < u.resumed.length)
  refine ⟨u', hu', ?_⟩
  rcases resumeStep_cases hu' with ⟨rfl, hnot⟩ | ⟨hdue, slot, rfl⟩
  · refine ⟨hsized, hresult.imp_right ?_⟩
    rintro ⟨rfl, hnone⟩
    refine ⟨rfl, fun i hi => ?_⟩
    rcases Nat.lt_succ_iff_lt_or_eq.mp hi with hi | rfl
    · exact hnone i hi
    · exact hnot
  · refine ⟨hsized.resumeTick hbody k slot, .inl ?_⟩
    have hlt := @unresumed_resumeTick W body excluded u k hdue slot
    rcases hresult with hless | ⟨rfl, -⟩
    · exact Nat.lt_trans hlt hless
    · exact hlt

/-- A pass of resumptions resumes a slot if one is due. -/
theorem resumePass_total (hbody : Keeps body) {fuel : Nat} {t : Tick W} (ht : Sized n t)
    (hfuel : n < fuel) :
    ∃ t', forSlots (resumeStep body excluded) fuel 0 t = .ok t' ∧ Sized n t' ∧
      (unresumed t' < unresumed t ∨ (t' = t ∧ ∀ i, ¬ Due excluded t i)) := by
  have hstart : Resuming excluded n t 0 t :=
    ⟨ht, .inr ⟨rfl, fun i hi => absurd hi (Nat.not_lt_zero i)⟩⟩
  obtain ⟨t', hpass, hsized, hresult⟩ := @forSlots_total W (resumeStep body excluded) n
    (Resuming excluded n t) (fun _ _ h => h.1.1) (fun k u hk h => h.step hbody hk) fuel 0 t
    (Nat.zero_le n) hfuel hstart
  refine ⟨t', hpass, hsized, hresult.imp_right ?_⟩
  rintro ⟨rfl, hnone⟩
  refine ⟨rfl, fun i hdue => ?_⟩
  obtain ⟨hi, -⟩ := List.getElem?_eq_some_iff.mp hdue.2.2
  exact hnone i (ht.2 ▸ hi) hdue

variable (excluded n) in
/-- The slots before `k` in a pass over the predicates from `t`. -/
def Waking (t : Tick W) (_ : Nat) (u : Tick W) : Prop :=
  Sized n u ∧ unresumed u = unresumed t ∧ (u = t ∨ ∃ i, Due excluded u i)

theorem Waking.step {t u : Tick W} {k : Nat} (hk : k < n) (h : Waking excluded n t k u) :
    ∃ u', predStep excluded k u = .ok u' ∧ Waking excluded n t (k + 1) u' := by
  obtain ⟨hsized, hsame, hresult⟩ := h
  obtain ⟨u', hu'⟩ := predStep_total excluded (hsized.2.symm ▸ hk : k < u.resumed.length)
  refine ⟨u', hu', ?_⟩
  rcases predStep_cases hu' with rfl | ⟨hexcluded, hresumed, slot, slot', hslot, hwake, rfl⟩
  · exact ⟨hsized, hsame, hresult⟩
  · refine ⟨⟨?_, hsized.2⟩, hsame, .inr ⟨k, hexcluded, ⟨slot', ?_, wake_ready hwake⟩, hresumed⟩⟩
    · rw [wakeTick, List.length_set]
      exact hsized.1
    · obtain ⟨hlt, -⟩ := List.getElem?_eq_some_iff.mp hslot
      rw [wakeTick, List.getElem?_set_self hlt]

/-- A pass over the predicates leaves a slot due if it changes anything. -/
theorem predPass_total {fuel : Nat} {t : Tick W} (ht : Sized n t) (hfuel : n < fuel) :
    ∃ t', forSlots (predStep excluded) fuel 0 t = .ok t' ∧ Sized n t' ∧
      unresumed t' = unresumed t ∧ (t' = t ∨ ∃ i, Due excluded t' i) :=
  @forSlots_total W (predStep excluded) n (Waking excluded n t) (fun _ _ h => h.1.1)
    (fun _ _ hk h => h.step hk) fuel 0 t (Nat.zero_le n) hfuel ⟨ht, rfl, .inl rfl⟩

/-- Every second turn resumes a slot. -/
theorem settle_total (hbody : Keeps body) (k : Nat) : ∀ (fuel : Nat) (t : Tick W), Sized n t →
    ((∃ i, Due excluded t i) ∧ 2 * unresumed t ≤ k ∨ 2 * unresumed t + 1 ≤ k) → n + 1 + k ≤ fuel →
    ∃ t', settle body excluded fuel t = .ok t' := by
  induction k with
  | zero =>
      rintro fuel t _ (⟨⟨i, hdue⟩, hbound⟩ | hbound) _
      · have := hdue.unresumed_pos
        omega
      · omega
  | succ k ih =>
      intro fuel t ht hbound hfuel
      obtain ⟨fuel, rfl⟩ : ∃ less, fuel = less + 1 := ⟨fuel - 1, by omega⟩
      obtain ⟨t₁, hfirst, hsized₁, hresult₁⟩ := @resumePass_total W body excluded n hbody fuel
        { t with changed := false } ht (by omega)
      obtain ⟨t₂, hsecond, hsized₂, hsame, hresult₂⟩ := @predPass_total W excluded n fuel t₁ hsized₁
        (by omega)
      rw [settle, hfirst]
      simp only
      rw [hsecond]
      simp only
      split
      · rename_i hchanged
        refine ih fuel t₂ hsized₂ ?_ (by omega)
        have hunchanged : unresumed { t with changed := false } = unresumed t := rfl
        rcases hresult₁ with hless | ⟨rfl, hnone⟩
        · right
          omega
        · -- nothing was due, so a predicate has come to hold
          rcases hresult₂ with rfl | hdue
          · exact absurd hchanged Bool.false_ne_true
          · refine .inl ⟨hdue, ?_⟩
            rcases hbound with ⟨⟨i, hdue'⟩, -⟩ | hbound
            · exact absurd hdue' (hnone i)
            · omega
      · exact ⟨t₂, rfl⟩

end Termination

/-! ### Resumptions of a tick -/

/-- Every slot in the log was resumed once, is not excluded and is as its coroutine left it. -/
structure Disciplined (excluded : Option Nat) (t : Tick W) : Prop where
  nodup : (t.log.map Prod.fst).Nodup
  resumed : ∀ entry ∈ t.log, t.resumed[entry.1]? = some true
  excluded : ∀ entry ∈ t.log, excluded ≠ some entry.1
  kept : ∀ entry ∈ t.log, t.scheduler.slots[entry.1]? = some entry.2

section Resumptions

variable {body : Body W} {excluded : Option Nat}

theorem ne_of_unresumed {t : Tick W} (h : Disciplined excluded t) {i : Nat}
    (hi : t.resumed[i]? = some false) : ∀ entry ∈ t.log, entry.1 ≠ i := by
  rintro entry hentry rfl
  have htrue := h.resumed entry hentry
  rw [hi] at htrue
  exact absurd htrue (by simp)

theorem mem_log_resumeTick {t : Tick W} {i : Nat} {slot : ThreadSlot W}
    {entry : Nat × ThreadSlot W} (h : entry ∈ (resumeTick body i slot t).log) :
    entry ∈ t.log ∨
      (entry.1 = i ∧ (resumeTick body i slot t).scheduler.slots[i]? = some entry.2) := by
  rcases List.mem_append.mp h with h | h
  · exact .inl h
  · obtain ⟨left, hleft, rfl⟩ := List.mem_map.mp h
    exact .inr ⟨rfl, Option.mem_toList.mp hleft⟩

theorem Disciplined.resumeStep (hbody : Own body) {i : Nat} {t t' : Tick W}
    (hstep : resumeStep body excluded i t = .ok t') (h : Disciplined excluded t) :
    Disciplined excluded t' := by
  rcases resumeStep_cases hstep with ⟨rfl, -⟩ | ⟨hdue, slot, rfl⟩
  · exact h
  · have hne := ne_of_unresumed h hdue.2.2
    obtain ⟨hlt, -⟩ := List.getElem?_eq_some_iff.mp hdue.2.2
    refine ⟨?_, fun entry hentry => ?_, fun entry hentry => ?_, fun entry hentry => ?_⟩
    · rw [resumeTick, List.map_append, List.nodup_append]
      refine ⟨h.nodup, ?_, ?_⟩
      · cases (resumeAt body i slot t.scheduler).slots[i]? <;> simp
      · intro j hj k hk
        obtain ⟨entry, hentry, rfl⟩ := List.mem_map.mp hj
        simp only [List.map_map, List.mem_map] at hk
        obtain ⟨_, _, rfl⟩ := hk
        exact hne entry hentry
    · rcases mem_log_resumeTick hentry with hold | ⟨hnew, -⟩
      · rw [resumeTick, List.getElem?_set_ne (hne entry hold).symm]
        exact h.resumed entry hold
      · rw [hnew, resumeTick, List.getElem?_set_self hlt]
    · rcases mem_log_resumeTick hentry with hold | ⟨hnew, -⟩
      · exact h.excluded entry hold
      · exact hnew ▸ hdue.1
    · rcases mem_log_resumeTick hentry with hold | ⟨hnew, hleft⟩
      · exact resumeAt_getElem? hbody (hne entry hold) slot (h.kept entry hold)
      · exact hnew ▸ hleft

theorem Disciplined.predStep {i : Nat} {t t' : Tick W} (hstep : predStep excluded i t = .ok t')
    (h : Disciplined excluded t) : Disciplined excluded t' := by
  rcases predStep_cases hstep with rfl | ⟨-, hresumed, slot, slot', -, -, rfl⟩
  · exact h
  · refine ⟨h.nodup, h.resumed, h.excluded, fun entry hentry => ?_⟩
    rw [wakeTick, List.getElem?_set_ne (ne_of_unresumed h hresumed entry hentry).symm]
    exact h.kept entry hentry

theorem tickExcept_disciplined (hbody : Own body) {fuel : Nat} {s : Scheduler W} {t : Tick W}
    (h : tickExcept fuel body excluded s = .ok t) : Disciplined excluded t := by
  refine settle_invariant (fun _ h => ⟨h.nodup, h.resumed, h.excluded, h.kept⟩)
    (fun i t t' => Disciplined.resumeStep hbody) (fun i t t' => Disciplined.predStep) fuel _ t h ?_
  exact ⟨List.nodup_nil, fun _ h => absurd h List.not_mem_nil, fun _ h => absurd h List.not_mem_nil,
    fun _ h => absurd h List.not_mem_nil⟩

/-! ### Waiting slots -/

/-- The slot is as it was, and the tick has not resumed it. -/
def Untouched (i : Nat) (slot : ThreadSlot W) (t : Tick W) : Prop :=
  t.scheduler.slots[i]? = some slot ∧ i ∉ t.log.map Prod.fst

theorem Untouched.resumeTick (hbody : Own body) {i j : Nat} {slot resumedSlot : ThreadSlot W}
    {t : Tick W} (h : Untouched i slot t) (hne : i ≠ j) :
    Untouched i slot (resumeTick body j resumedSlot t) := by
  refine ⟨resumeAt_getElem? hbody hne resumedSlot h.1, fun hmem => ?_⟩
  obtain ⟨entry, hentry, rfl⟩ := List.mem_map.mp hmem
  rcases mem_log_resumeTick hentry with hold | ⟨hnew, -⟩
  · exact h.2 (List.mem_map_of_mem hold)
  · exact hne hnew

/-- A tick leaves a slot alone that counts cycles or that it excludes. -/
theorem settle_untouched (hbody : Own body) {i : Nat} {slot : ThreadSlot W}
    (hslot : excluded = some i ∨ slot.kind = .waitCycles) {fuel : Nat} {t t' : Tick W}
    (h : settle body excluded fuel t = .ok t') (ht : Untouched i slot t) : Untouched i slot t' := by
  refine @settle_invariant W body excluded (Untouched i slot) (fun _ h => h) ?_ ?_ fuel t t' h ht
  · intro j u u' hstep hu
    rcases resumeStep_cases hstep with ⟨rfl, -⟩ | ⟨hdue, resumedSlot, rfl⟩
    · exact hu
    · refine hu.resumeTick hbody ?_
      rintro rfl
      rcases hslot with hexcluded | hwait
      · exact hdue.1 hexcluded
      · obtain ⟨ready, hready, hkind⟩ := hdue.2.1
        rw [hu.1, Option.some.injEq] at hready
        rw [← hready, hwait] at hkind
        exact absurd hkind (by decide)
  · intro j u u' hstep hu
    rcases predStep_cases hstep with rfl | ⟨hexcluded, -, woken, woken', hwoken, hwake, rfl⟩
    · exact hu
    · refine ⟨?_, hu.2⟩
      rw [wakeTick, List.getElem?_set_ne]
      · exact hu.1
      · rintro rfl
        rcases hslot with hout | hwait
        · exact hexcluded hout
        · rw [hu.1, Option.some.injEq] at hwoken
          rw [← hwoken, wake_of_waitCycles hwait] at hwake
          exact absurd hwake (by simp)

theorem log_resumeStep {i j : Nat} {t t' : Tick W} (hstep : resumeStep body excluded j t = .ok t')
    (h : i ∈ t.log.map Prod.fst) : i ∈ t'.log.map Prod.fst := by
  rcases resumeStep_cases hstep with ⟨rfl, -⟩ | ⟨-, slot, rfl⟩
  · exact h
  · rw [resumeTick, List.map_append]
    exact List.mem_append_left _ h

theorem log_predStep {i j : Nat} {t t' : Tick W} (hstep : predStep excluded j t = .ok t')
    (h : i ∈ t.log.map Prod.fst) : i ∈ t'.log.map Prod.fst := by
  rcases predStep_cases hstep with rfl | ⟨-, -, _, _, -, -, rfl⟩
  · exact h
  · exact h

theorem Due.resumeTick (hbody : Own body) {i j : Nat} {t : Tick W} (h : Due excluded t i)
    (hne : i ≠ j) (slot : ThreadSlot W) : Due excluded (resumeTick body j slot t) i := by
  obtain ⟨hexcluded, ⟨ready, hready, hkind⟩, hresumed⟩ := h
  refine ⟨hexcluded, ⟨ready, resumeAt_getElem? hbody hne slot hready, hkind⟩, ?_⟩
  rw [ThreadScheduler.resumeTick, List.getElem?_set_ne hne.symm]
  exact hresumed

theorem mem_log_of_due (hbody : Keeps body) {i : Nat} {t : Tick W} (h : Due excluded t i)
    (slot : ThreadSlot W) : i ∈ (resumeTick body i slot t).log.map Prod.fst := by
  obtain ⟨-, ⟨ready, hready, -⟩, -⟩ := h
  obtain ⟨hlt, -⟩ := List.getElem?_eq_some_iff.mp hready
  rw [← resumeAt_length hbody i slot t.scheduler] at hlt
  rw [resumeTick, List.getElem?_eq_getElem hlt]
  simp

/-- The first pass resumes a slot that is due, since no coroutine before it changes that. -/
theorem resumePass_due (hbody : Contained body) {i fuel : Nat} {t t' : Tick W}
    (hdue : Due excluded t i) (h : forSlots (resumeStep body excluded) fuel 0 t = .ok t') :
    i ∈ t'.log.map Prod.fst := by
  obtain ⟨k, hk, hresult⟩ := @forSlots_indexed W (resumeStep body excluded)
    (fun k u => k ≤ i ∧ Due excluded u i ∨ i ∈ u.log.map Prod.fst) (by
      rintro k u u' hstep (⟨hle, hdue⟩ | hlog)
      · rcases resumeStep_cases hstep with ⟨rfl, hnot⟩ | ⟨-, slot, rfl⟩
        · refine .inl ⟨Nat.lt_of_le_of_ne hle ?_, hdue⟩
          rintro rfl
          exact hnot hdue
        · rcases Nat.lt_or_eq_of_le hle with hlt | rfl
          · exact .inl ⟨hlt, hdue.resumeTick hbody.own (Nat.ne_of_gt hlt) slot⟩
          · exact .inr (mem_log_of_due hbody.keeps hdue slot)
      · exact .inr (log_resumeStep hstep hlog)) fuel 0 t t' h (.inl ⟨Nat.zero_le i, hdue⟩)
  rcases hresult with ⟨hle, -, ⟨slot, hslot, -⟩, -⟩ | hlog
  · obtain ⟨hlt, -⟩ := List.getElem?_eq_some_iff.mp hslot
    omega
  · exact hlog

theorem tickExcept_due (hbody : Contained body) {i fuel : Nat} {s : Scheduler W} {t : Tick W}
    (hdue : Due excluded (tickStart excluded s) i) (h : tickExcept fuel body excluded s = .ok t) :
    i ∈ t.log.map Prod.fst := by
  obtain ⟨less, t₁, t₂, -, hfirst, hsecond, hrest⟩ := settle_cases h
  have hlog := forSlots_invariant (fun _ _ _ => log_predStep) hsecond
    (resumePass_due hbody (t := { tickStart excluded s with changed := false }) hdue hfirst)
  rcases hrest with ⟨-, hrest⟩ | ⟨-, rfl⟩
  · exact @settle_invariant W body excluded (fun t => i ∈ t.log.map Prod.fst) (fun _ h => h)
      (fun _ _ _ => log_resumeStep) (fun _ _ _ => log_predStep) less t₂ t hrest hlog
  · exact hlog

theorem advance_of_lt {world : W} {slot : ThreadSlot W} (hkind : slot.kind = .waitCycles)
    (h : 1 < slot.cyclesRemaining) :
    slot.advance world = { slot with cyclesRemaining := slot.cyclesRemaining - 1 } := by
  unfold ThreadSlot.advance
  rw [hkind]
  simp only
  rw [if_neg (by omega), ← hkind]

theorem advance_of_le {world : W} {slot : ThreadSlot W} (hkind : slot.kind = .waitCycles)
    (h : slot.cyclesRemaining ≤ 1) : (slot.advance world).kind = .ready := by
  unfold ThreadSlot.advance
  rw [hkind]
  exact if_pos (by omega)

/-- What a tick does to a slot that counts cycles. -/
theorem tickExcept_waitCycles (hbody : Contained body) {i fuel : Nat} {s : Scheduler W} {t : Tick W}
    {slot : ThreadSlot W} (hslot : s.slots[i]? = some slot) (hkind : slot.kind = .waitCycles)
    (h : tickExcept fuel body excluded s = .ok t) :
    (excluded = some i ∧ Untouched i slot t) ∨
    (excluded ≠ some i ∧ 1 < slot.cyclesRemaining ∧
      Untouched i { slot with cyclesRemaining := slot.cyclesRemaining - 1 } t) ∨
    (excluded ≠ some i ∧ slot.cyclesRemaining ≤ 1 ∧ i ∈ t.log.map Prod.fst) := by
  have hstart : (tickStart excluded s).scheduler.slots[i]? =
      some (if excluded = some i then slot else slot.advance s.world) := by
    simp [tickStart, advanceAll, hslot]
  by_cases hexcluded : excluded = some i
  · rw [if_pos hexcluded] at hstart
    exact .inl ⟨hexcluded, settle_untouched hbody.own (.inl hexcluded) h
      ⟨hstart, List.not_mem_nil⟩⟩
  · rw [if_neg hexcluded] at hstart
    rcases Nat.lt_or_ge 1 slot.cyclesRemaining with hlt | hge
    · refine .inr (.inl ⟨hexcluded, hlt, ?_⟩)
      rw [advance_of_lt hkind hlt] at hstart
      have hcounting : ({ slot with cyclesRemaining := slot.cyclesRemaining - 1 } :
          ThreadSlot W).kind = .waitCycles := hkind
      exact settle_untouched hbody.own (.inr hcounting) h ⟨hstart, List.not_mem_nil⟩
    · refine .inr (.inr ⟨hexcluded, hge, ?_⟩)
      obtain ⟨hlt, -⟩ := List.getElem?_eq_some_iff.mp hslot
      refine tickExcept_due hbody ⟨hexcluded, ⟨_, hstart, advance_of_le hkind hge⟩, ?_⟩ h
      rw [tickStart, List.getElem?_replicate, if_pos hlt]

end Resumptions

/-! ### Runs -/

inductive Label (W : Type) where
  | tick (excluded : Option Nat) (log : List (Nat × ThreadSlot W))
  | bootstrap (log : List (Nat × ThreadSlot W))
  | outside

/-- The slots that were resumed. -/
def Label.resumed : Label W → List Nat
  | .tick _ log => log.map Prod.fst
  | .bootstrap log => log.map Prod.fst
  | .outside => []

/-- A tick whose coroutines leave the scheduler alone, the start, which may add slots, or the
test's own loop, which may too. -/
inductive Step : Scheduler W → Label W → Scheduler W → Prop where
  | tick {s t fuel body excluded} (hbody : Contained body)
      (h : tickExcept fuel body excluded s = .ok t) : Step s (.tick excluded t.log) t.scheduler
  | bootstrap {s t fuel body} (hbody : Own body) (h : bootstrap fuel body s = .ok t) :
      Step s (.bootstrap t.log) t.scheduler
  | outside {s s'} (h : ∀ (i : Nat) slot, s.slots[i]? = some slot → s'.slots[i]? = some slot) :
      Step s .outside s'

inductive Run : Scheduler W → List (Label W) → Scheduler W → Prop where
  | nil {s} : Run s [] s
  | cons {s s' s'' label labels} (hstep : Step s label s') (hrun : Run s' labels s'') :
      Run s (label :: labels) s''

/-- The ticks in which the slot is not excluded. -/
def counted (i : Nat) (labels : List (Label W)) : Nat :=
  labels.countP fun label =>
    match label with
    | .tick excluded _ => excluded ≠ some i
    | _ => false

theorem bootstrap_untouched {body : Body W} (hbody : Own body) {i fuel : Nat} {s : Scheduler W}
    {t : Tick W} {slot : ThreadSlot W} (hslot : s.slots[i]? = some slot)
    (hkind : slot.kind = .waitCycles) (h : bootstrap fuel body s = .ok t) : Untouched i slot t := by
  refine @forSlots_invariant W (bootStep body) (Untouched i slot) ?_ fuel 0 _ t h
    ⟨hslot, List.not_mem_nil⟩
  intro j u u' hstep hu
  unfold bootStep at hstep
  split at hstep
  · exact Except.ok.inj hstep ▸ hu
  · rename_i ready hready
    split at hstep
    · rename_i hreadyKind
      have hne : i ≠ j := by
        rintro rfl
        rw [hu.1, Option.some.injEq] at hready
        rw [← hready, hkind] at hreadyKind
        exact absurd hreadyKind (by decide)
      obtain rfl := Except.ok.inj hstep
      exact hu.resumeTick hbody hne
    · exact Except.ok.inj hstep ▸ hu

/-- One step of a run and a slot that counts cycles. -/
theorem Step.waitCycles {s s' : Scheduler W} {label : Label W} (h : Step s label s') {i : Nat}
    {slot : ThreadSlot W} (hslot : s.slots[i]? = some slot) (hkind : slot.kind = .waitCycles) :
    (counted i [label] = 0 ∧ i ∉ label.resumed ∧ s'.slots[i]? = some slot) ∨
    (counted i [label] = 1 ∧ 1 < slot.cyclesRemaining ∧ i ∉ label.resumed ∧
      s'.slots[i]? = some { slot with cyclesRemaining := slot.cyclesRemaining - 1 }) ∨
    (counted i [label] = 1 ∧ slot.cyclesRemaining ≤ 1 ∧ i ∈ label.resumed) := by
  cases h with
  | tick hbody h =>
      rcases tickExcept_waitCycles hbody hslot hkind h with ⟨hexcluded, hsame⟩ |
        ⟨hexcluded, hlt, hsame⟩ | ⟨hexcluded, hle, hlog⟩
      · exact .inl ⟨by simp [counted, hexcluded], hsame.2, hsame.1⟩
      · exact .inr (.inl ⟨by simp [counted, hexcluded], hlt, hsame.2, hsame.1⟩)
      · exact .inr (.inr ⟨by simp [counted, hexcluded], hle, hlog⟩)
  | bootstrap hbody h =>
      have hsame := bootstrap_untouched hbody hslot hkind h
      exact .inl ⟨rfl, hsame.2, hsame.1⟩
  | outside h => exact .inl ⟨rfl, List.not_mem_nil, h i slot hslot⟩

theorem counted_cons (i : Nat) (label : Label W) (labels : List (Label W)) :
    counted i (label :: labels) = counted i [label] + counted i labels := by
  rw [counted, ← List.singleton_append, List.countP_append]
  rfl

/-- A slot that waits for `n` cycles is resumed at the tick number `n` that counts for it. -/
theorem Run.waitCycles {s s' : Scheduler W} {labels : List (Label W)} (h : Run s labels s')
    {i : Nat} : ∀ slot : ThreadSlot W, s.slots[i]? = some slot → slot.kind = .waitCycles →
      1 ≤ slot.cyclesRemaining → ∀ before label after, labels = before ++ label :: after →
        counted i before < slot.cyclesRemaining →
        (i ∈ label.resumed ↔ counted i (before ++ [label]) = slot.cyclesRemaining) := by
  induction h with
  | nil =>
      intro slot _ _ _ before label after hlabels
      exact absurd hlabels (by simp)
  | @cons s s' s'' first labels hstep _ ih =>
      intro slot hslot hkind hpos before label after hlabels hcounted
      cases before with
      | nil =>
          obtain ⟨rfl, -⟩ := List.cons.inj hlabels
          rw [List.nil_append]
          rcases hstep.waitCycles hslot hkind with ⟨hcount, hnot, -⟩ | ⟨hcount, hlt, hnot, -⟩ |
            ⟨hcount, hle, hmem⟩
          · exact iff_of_false hnot (by omega)
          · exact iff_of_false hnot (by omega)
          · exact iff_of_true hmem (by omega)
      | cons head before =>
          obtain ⟨rfl, rfl⟩ := List.cons.inj hlabels
          rw [List.cons_append, counted_cons]
          rw [counted_cons] at hcounted
          rcases hstep.waitCycles hslot hkind with ⟨hcount, -, hsame⟩ | ⟨hcount, hlt, -, hsame⟩ |
            ⟨hcount, hle, -⟩
          · rw [ih slot hsame hkind hpos before label after rfl (by omega)]
            omega
          · rw [ih _ hsame hkind (by simp only; omega) before label after rfl (by simp only; omega)]
            simp only
            omega
          · omega

/-- Ticks and waits in runs whose coroutines leave the scheduler alone. -/
theorem run_discipline {s s' : Scheduler W} {labels : List (Label W)} (h : Run s labels s') :
    (∀ body : Body W, Contained body → ∀ excluded, ∃ t,
      (∀ fuel ≥ 3 * s'.slots.length + 2, tickExcept fuel body excluded s' = .ok t) ∧
        Disciplined excluded t) ∧
    ∀ (i : Nat) slot, s.slots[i]? = some slot → slot.kind = .waitCycles → 1 ≤ slot.cyclesRemaining →
      ∀ before label after, labels = before ++ label :: after →
        counted i before < slot.cyclesRemaining →
        (i ∈ label.resumed ↔ counted i (before ++ [label]) = slot.cyclesRemaining) := by
  refine ⟨fun body hbody excluded => ?_, fun i slot => h.waitCycles slot⟩
  have hsized : Sized s'.slots.length (tickStart excluded s') := by
    simp [Sized, tickStart, advanceAll]
  have hcount : unresumed (tickStart excluded s') = s'.slots.length := by
    simp [unresumed, tickStart]
  obtain ⟨t, ht⟩ := @settle_total W body excluded s'.slots.length hbody.keeps
    (2 * s'.slots.length + 1) (3 * s'.slots.length + 2) _ hsized (.inr (by omega)) (by omega)
  exact ⟨t, fun fuel hfuel => settle_mono _ _ t fuel hfuel ht, tickExcept_disciplined hbody.own ht⟩

def waiting (n : Nat) : ThreadSlot Unit := ⟨.waitCycles, n, none, false, false⟩

/-- A coroutine that waits for two cycles again and again. -/
def pacing : Body Unit := fun i s => { s with slots := s.slots.modify i (·.suspendCycles 2) }

theorem pacing_contained : Contained pacing := by
  refine ⟨fun i s => List.length_modify _ _ _, fun i s j slot hne hslot => ?_⟩
  rw [pacing, List.getElem?_modify_ne _ _ hne.symm]
  exact hslot

theorem pacing_run : Run ⟨[waiting 2], ()⟩ [.tick none [], .tick none [(0, waiting 2)]]
    ⟨[waiting 2], ()⟩ :=
  .cons (@Step.tick Unit _ ⟨⟨[waiting 1], ()⟩, [false], false, []⟩ 8 pacing none pacing_contained rfl)
    (.cons (@Step.tick Unit _ ⟨⟨[waiting 2], ()⟩, [true], false, [(0, waiting 2)]⟩ 8 pacing none
      pacing_contained rfl) .nil)

theorem pacing_discipline : Run ⟨[waiting 2], ()⟩ [.tick none [], .tick none [(0, waiting 2)]]
      ⟨[waiting 2], ()⟩ ∧
    (0 ∈ (Label.tick none [] : Label Unit).resumed ↔ 1 = 2) ∧
    (0 ∈ (Label.tick none [(0, waiting 2)]).resumed ↔ 2 = 2) :=
  ⟨pacing_run,
    (run_discipline pacing_run).2 0 (waiting 2) rfl rfl (by decide) [] _ _ rfl (by decide),
    (run_discipline pacing_run).2 0 (waiting 2) rfl rfl (by decide) [.tick none []] _ [] rfl (by decide)⟩

/-- A coroutine that registers another one before it waits. -/
def spawning : Body Unit := fun i s =>
  { s with slots := s.slots.modify i (·.suspendCycles 1) ++ [waiting 1] }

/-- A coroutine that ticks the others before it waits. -/
def nesting : Body Unit := fun i s =>
  match tickExcept 8 pacing (some i) s with
  | .ok t => { t.scheduler with slots := t.scheduler.slots.modify i (·.suspendCycles 1) }
  | .error _ => s

/-- A tick in which a slot is registered reads outside its flags, and one in which another tick
runs leaves a slot to it that waits for one cycle. -/
theorem reentered_tick_fails :
    (∀ fuel t, tickExcept fuel spawning none ⟨[waiting 1], ()⟩ ≠ .ok t) ∧
    ∃ t, tickExcept 8 nesting none ⟨[waiting 1, waiting 1], ()⟩ = .ok t ∧
      1 ∉ t.log.map Prod.fst := by
  refine ⟨fun fuel t => ?_, _, rfl, by decide⟩
  rcases fuel with _ | _ | _ | _ | fuel
  · exact fun h => absurd h (by simp [tickExcept, settle])
  · exact fun h => absurd h (by simp [tickExcept, settle, forSlots])
  · intro h
    rw [show tickExcept 2 spawning none ⟨[waiting 1], ()⟩ = .error .outOfFuel from rfl] at h
    exact absurd h (by simp)
  · intro h
    rw [show tickExcept 3 spawning none ⟨[waiting 1], ()⟩ = .error .outOfFuel from rfl] at h
    exact absurd h (by simp)
  · intro h
    rw [show tickExcept (fuel + 4) spawning none ⟨[waiting 1], ()⟩ = .error .outOfBounds from rfl] at h
    exact absurd h (by simp)

end Harc.ThreadScheduler
