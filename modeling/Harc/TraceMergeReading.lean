import Harc.PrefixCodes
import Harc.TraceMerge
import Mathlib.Data.List.Induction

/-!
What a dump says: its times, the time of each line and the values of a signal, and what the
lines that the merge writes are read as.
-/

namespace Harc.TraceMerge

/-! ### Readers -/

/-- The signal that a line changes, and its value. -/
def valueChange (line : Line) : Option (Line × Line) :=
  match trim line with
  | [] => none
  | c :: rest =>
      if c ∈ "01xXzZ".toList then if rest = [] then none else some (rest, [c])
      else if c ∈ "bBrR".toList then
        match splitWhitespace (c :: rest) with
        | [value, id] => some (id, value)
        | _ => none
      else none

def timesOf (out : Output) : List Nat := out.filterMap fun entry => timeOf entry.2

/-- The lines with the time that is current at each. -/
def timed : Option Nat → Output → List (Mark × Line × Option Nat)
  | _, [] => []
  | current, (mark, line) :: out =>
      let now := (timeOf line).or current
      (mark, line, now) :: timed now out

def update (id : Line) (value : Option Line) (entry : Mark × Line) : Option Line :=
  match valueChange entry.2 with
  | some (changed, new) => if changed = id then some new else value
  | none => value

/-- The values of a signal at the end of each stretch of one time. -/
def samples (id : Line) : Option Nat → Option Line → Output → List (Nat × Option Line)
  | current, value, [] => current.toList.map fun time => (time, value)
  | current, value, entry :: out =>
      match timeOf entry.2 with
      | some time => current.toList.map (fun time => (time, value)) ++ samples id (some time) value out
      | none => samples id current (update id value entry) out

/-! ### Reading what is written -/

theorem trim_cons {c : Char} (line : Line) (hc : isWhitespace c = false) :
    ∃ rest, trim (c :: line) = c :: rest := by
  unfold trim
  rw [List.dropWhile_cons_of_neg (by simp [hc]), List.reverse_cons, List.dropWhile_append]
  split
  · refine ⟨[], ?_⟩
    rw [List.dropWhile_cons_of_neg (by simp [hc])]
    rfl
  · exact ⟨(line.reverse.dropWhile isWhitespace).reverse, by simp⟩

theorem trim_eq {c d : Char} (line : Line) (hc : isWhitespace c = false)
    (hd : isWhitespace d = false) : trim (c :: (line ++ [d])) = c :: (line ++ [d]) := by
  unfold trim
  rw [List.dropWhile_cons_of_neg (by simp [hc]), List.reverse_cons, List.reverse_append,
    List.reverse_singleton, List.singleton_append, List.cons_append,
    List.dropWhile_cons_of_neg (by simp [hd])]
  simp

theorem timeOf_cons {c : Char} (line : Line) (hc : isWhitespace c = false) (hne : c ≠ '#') :
    timeOf (c :: line) = none := by
  obtain ⟨rest, hrest⟩ := trim_cons line hc
  rw [timeOf, hrest]
  unfold parseVcdTimeLine
  split
  · rename_i heq
    exact absurd (List.cons.inj heq).1 hne
  · rfl

theorem isWhitespace_of_isDigit {c : Char} (h : c.isDigit = true) : isWhitespace c = false := by
  have hrange : 48 ≤ c.toNat ∧ c.toNat ≤ 57 := by
    unfold Char.isDigit at h
    rw [Bool.and_eq_true, decide_eq_true_eq, decide_eq_true_eq] at h
    exact ⟨UInt32.le_iff_toNat_le.mp h.1, UInt32.le_iff_toNat_le.mp h.2⟩
  simp only [isWhitespace, Bool.or_eq_false_iff, Bool.and_eq_false_iff, decide_eq_false_iff_not,
    beq_eq_false_iff_ne, ne_eq]
  omega

theorem exists_toDigits_concat (n : Nat) :
    ∃ before d, Nat.toDigits 10 n = before ++ [d] ∧ isWhitespace d = false := by
  have hne : Nat.toDigits 10 n ≠ [] := Nat.toDigits_ne_nil
  refine ⟨(Nat.toDigits 10 n).dropLast, (Nat.toDigits 10 n).getLast hne,
    (List.dropLast_concat_getLast hne).symm, ?_⟩
  exact isWhitespace_of_isDigit
    (Nat.isDigit_of_mem_toDigits (by decide) (by decide) (List.getLast_mem hne))

theorem parseU128_toDigits {n : Nat} (h : n ≤ u128Max) : parseU128 (Nat.toDigits 10 n) = some n := by
  have hdigits : ∀ c ∈ Nat.toDigits 10 n, c.isDigit = true :=
    fun c hc => Nat.isDigit_of_mem_toDigits (by decide) (by decide) hc
  have hplain : stripPlus (Nat.toDigits 10 n) = Nat.toDigits 10 n := by
    unfold stripPlus
    split
    · rename_i rest heq
      have hplus := hdigits '+' (by rw [heq]; exact List.mem_cons_self)
      exact absurd hplus (by decide)
    · rfl
  have hempty : (Nat.toDigits 10 n).isEmpty = false := by
    simp
  have hall : (Nat.toDigits 10 n).all Char.isDigit = true := List.all_eq_true.mpr hdigits
  simp [parseU128, hplain, hempty, hall, h]

theorem timeOf_timeLine {time : Nat} (h : time ≤ u128Max) : timeOf (timeLine time) = some time := by
  obtain ⟨before, d, hdigits, hd⟩ := exists_toDigits_concat time
  rw [timeOf, timeLine, hdigits, trim_eq before (by decide) hd, ← hdigits]
  exact parseU128_toDigits h

/-! ### Identifiers of lanes -/

theorem candidate_injective {m n : Nat} (h : candidate m = candidate n) : m = n := by
  have hdigits : Nat.toDigits 10 m = Nat.toDigits 10 n := List.append_cancel_left h
  exact PrefixCodes.toDigits_injective hdigits

namespace VcdIdGen

theorem le_search (used : List Line) (tries : Nat) : ∀ n, n ≤ search used tries n := by
  induction tries with
  | zero => exact fun n => Nat.le_refl n
  | succ tries ih =>
      intro n
      rw [search]
      split
      · exact (Nat.le_succ n).trans (ih (n + 1))
      · exact Nat.le_refl n

theorem search_taken (used : List Line) (tries : Nat) :
    ∀ n, candidate (search used tries n) ∈ used → ∀ i ≤ tries, candidate (n + i) ∈ used := by
  induction tries with
  | zero =>
      intro n h i hi
      obtain rfl : i = 0 := by omega
      exact h
  | succ tries ih =>
      intro n h i hi
      rw [search] at h
      split at h
      · rename_i htaken
        cases i with
        | zero => exact htaken
        | succ i =>
            have hnext := ih (n + 1) h i (by omega)
            rwa [Nat.add_right_comm] at hnext
      · rename_i hfree
        exact absurd h hfree

/-- There are more numbers than identifiers in use. -/
theorem id_notMem (gen : VcdIdGen) : gen.id ∉ gen.used := by
  intro h
  have htaken := search_taken gen.used gen.used.length gen.next h
  have hsubset : (List.range (gen.used.length + 1)).map (fun i => candidate (gen.next + i)) ⊆
      gen.used := by
    intro line hline
    obtain ⟨i, hi, rfl⟩ := List.mem_map.mp hline
    exact htaken i (by have := List.mem_range.mp hi; omega)
  have hnodup : ((List.range (gen.used.length + 1)).map fun i => candidate (gen.next + i)).Nodup := by
    refine List.nodup_range.map_on ?_
    intro i _ j _ heq
    have := candidate_injective heq
    omega
  have hlength := (List.subperm_of_subset hnodup hsubset).length_le
  rw [List.length_map, List.length_range] at hlength
  omega

theorem iterate_advance_succ (gen : VcdIdGen) (k : Nat) :
    advance^[k + 1] gen = (advance^[k] gen).advance :=
  Function.iterate_succ_apply' _ _ _

/-- The identifiers returned before are in use. -/
theorem used_iterate (gen : VcdIdGen) (k : Nat) :
    gen.used ⊆ (advance^[k] gen).used ∧ ∀ j < k, gen.nth j ∈ (advance^[k] gen).used := by
  induction k with
  | zero => exact ⟨fun _ h => h, fun j hj => absurd hj (by omega)⟩
  | succ k ih =>
      rw [iterate_advance_succ]
      refine ⟨fun line h => List.mem_cons_of_mem _ (ih.1 h), fun j hj => ?_⟩
      rcases Nat.lt_succ_iff_lt_or_eq.mp hj with hj | rfl
      · exact List.mem_cons_of_mem _ (ih.2 j hj)
      · exact List.mem_cons_self

theorem nth_notMem (gen : VcdIdGen) (k : Nat) : gen.nth k ∉ gen.used :=
  fun h => id_notMem _ ((used_iterate gen k).1 h)

theorem nth_injective (gen : VcdIdGen) {j k : Nat} (h : gen.nth j = gen.nth k) : j = k := by
  have hlt : ∀ {j k : Nat}, j < k → gen.nth j ≠ gen.nth k := by
    intro j k hjk heq
    apply id_notMem (advance^[k] gen)
    change gen.nth k ∈ _
    rw [← heq]
    exact (used_iterate gen k).2 j hjk
  rcases Nat.lt_trichotomy j k with hjk | hjk | hjk
  · exact absurd h (hlt hjk)
  · exact hjk
  · exact absurd h.symm (hlt hjk)

end VcdIdGen

/-! ### Value changes -/

theorem splitWhitespace_cons_of_not {c : Char} {rest : Line} (hc : isWhitespace c = false) :
    splitWhitespace (c :: rest) = attach c rest (splitWhitespace rest) := by
  rw [splitWhitespace, if_neg (by rw [hc]; exact Bool.false_ne_true)]

theorem attach_of_not {c d : Char} {rest word : Line} {words : List Line}
    (hd : isWhitespace d = false) : attach c (d :: rest) (word :: words) = (c :: word) :: words := by
  rw [attach, if_neg (by rw [hd]; exact Bool.false_ne_true)]

theorem splitWhitespace_word (word : Line) :
    ∀ c : Char, (∀ d ∈ c :: word, isWhitespace d = false) → splitWhitespace (c :: word) = [c :: word] := by
  induction word with
  | nil =>
      intro c hc
      rw [splitWhitespace_cons_of_not (hc c List.mem_cons_self)]
      rfl
  | cons d word ih =>
      intro c hc
      rw [List.forall_mem_cons] at hc
      rw [splitWhitespace_cons_of_not hc.1, ih d hc.2, attach_of_not (hc.2 d List.mem_cons_self)]

theorem splitWhitespace_append (word rest : Line) :
    ∀ c : Char, (∀ d ∈ c :: word, isWhitespace d = false) →
      splitWhitespace (c :: (word ++ ' ' :: rest)) = (c :: word) :: splitWhitespace rest := by
  have hblank : isWhitespace ' ' = true := by decide
  have hspace : splitWhitespace (' ' :: rest) = splitWhitespace rest := by
    rw [splitWhitespace, if_pos hblank]
  induction word with
  | nil =>
      intro c hc
      rw [List.nil_append, splitWhitespace_cons_of_not (hc c List.mem_cons_self), hspace]
      cases splitWhitespace rest with
      | nil => rfl
      | cons word words => rw [attach, if_pos hblank]
  | cons d word ih =>
      intro c hc
      rw [List.forall_mem_cons] at hc
      rw [List.cons_append, splitWhitespace_cons_of_not hc.1, ih d hc.2,
        attach_of_not (hc.2 d List.mem_cons_self)]

theorem candidate_concat (n : Nat) :
    ∃ before d, candidate n = before ++ [d] ∧ isWhitespace d = false := by
  obtain ⟨before, d, hdigits, hd⟩ := exists_toDigits_concat n
  exact ⟨"HARC".toList ++ before, d, by rw [candidate, hdigits, List.append_assoc], hd⟩

theorem candidate_word (n : Nat) : ∀ c ∈ candidate n, isWhitespace c = false := by
  intro c hc
  rcases List.mem_append.mp hc with hc | hc
  · have hletters : (['H', 'A', 'R', 'C'].all fun c => !isWhitespace c) = true := by decide
    simpa using List.all_eq_true.mp hletters c hc
  · exact isWhitespace_of_isDigit (Nat.isDigit_of_mem_toDigits (by decide) (by decide) hc)

/-- A scalar change, as the merge writes it. -/
theorem valueChange_bit {b : Char} (n : Nat) (hb : b = '0' ∨ b = '1') :
    valueChange (b :: candidate n) = some (candidate n, [b]) := by
  obtain ⟨before, d, hcandidate, hd⟩ := candidate_concat n
  have htrim : trim (b :: candidate n) = b :: candidate n := by
    rw [hcandidate]
    exact trim_eq before (by rcases hb with rfl | rfl <;> decide) hd
  have hmem : b ∈ "01xXzZ".toList := by rcases hb with rfl | rfl <;> decide
  have hne : candidate n ≠ [] := by simp [candidate]
  rw [valueChange, htrim]
  simp only [hmem, hne, if_true, if_false]

theorem valueChange_emitInt (n value width : Nat) :
    ∃ bits, valueChange (emitInt (candidate n) value width) = some (candidate n, bits) := by
  obtain ⟨before, d, hcandidate, hd⟩ := candidate_concat n
  have htrim : trim (emitInt (candidate n) value width) = emitInt (candidate n) value width := by
    unfold emitInt
    rw [hcandidate, List.cons_append, ← List.cons_append (a := ' '), ← List.append_assoc]
    exact trim_eq _ (by decide) hd
  have hword : ∀ c ∈ 'b' :: (List.range width).reverse.map
      (fun bit => if value.testBit bit then '1' else '0'), isWhitespace c = false := by
    rw [List.forall_mem_cons]
    refine ⟨by decide, fun c hc => ?_⟩
    obtain ⟨bit, -, rfl⟩ := List.mem_map.mp hc
    split <;> decide
  have hid : splitWhitespace (candidate n) = [candidate n] :=
    splitWhitespace_word _ 'H' (candidate_word n)
  rw [valueChange, htrim]
  unfold emitInt
  rw [List.cons_append]
  have hscalar : 'b' ∉ "01xXzZ".toList := by decide
  have hvector : 'b' ∈ "bBrR".toList := by decide
  simp only [hscalar, hvector, if_false, if_true, splitWhitespace_append _ _ 'b' hword, hid]
  exact ⟨_, rfl⟩

end Harc.TraceMerge
