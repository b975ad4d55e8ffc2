import Mathlib.Data.Nat.Digits.Lemmas
import Mathlib.Data.Nat.Bitwise
import Mathlib.Data.Nat.Size
import Mathlib.Data.List.DropRight

/-!
Little-endian lists of words of a fixed width, and the natural numbers they
denote.
-/

namespace Harc.WordLists

variable {w : Nat}

/-- The number with the given words, least significant first. -/
def value (ws : List (BitVec w)) : Nat :=
  Nat.ofDigits (2 ^ w) (ws.map BitVec.toNat)

@[simp] theorem value_nil : value ([] : List (BitVec w)) = 0 := rfl

@[simp] theorem value_cons (x : BitVec w) (xs : List (BitVec w)) :
    value (x :: xs) = x.toNat + 2 ^ w * value xs := by
  simp [value, Nat.ofDigits_cons]

theorem value_append (xs ys : List (BitVec w)) :
    value (xs ++ ys) = value xs + 2 ^ (w * xs.length) * value ys := by
  simp [value, Nat.ofDigits_append, pow_mul]

theorem value_concat (xs : List (BitVec w)) (x : BitVec w) :
    value (xs ++ [x]) = value xs + 2 ^ (w * xs.length) * x.toNat := by
  simp [value_append]

@[simp] theorem value_replicate_zero (n : Nat) :
    value (List.replicate n 0#w) = 0 := by
  induction n with
  | zero => rfl
  | succ n ih => simp [List.replicate_succ, ih]

theorem value_append_zeros (xs : List (BitVec w)) (n : Nat) :
    value (xs ++ List.replicate n 0#w) = value xs := by
  rw [value_append, value_replicate_zero, Nat.mul_zero, Nat.add_zero]

theorem value_lt (xs : List (BitVec w)) : value xs < 2 ^ (w * xs.length) := by
  induction xs with
  | nil => simp
  | cons x xs ih =>
      have hx := x.isLt
      have hstep : 2 ^ w * (value xs + 1) ≤ 2 ^ w * 2 ^ (w * xs.length) :=
        Nat.mul_le_mul_left _ ih
      rw [value_cons, List.length_cons, Nat.mul_succ, Nat.add_comm (w * _), pow_add]
      rw [Nat.mul_add] at hstep
      omega

/-- The first words are the remainder and the others the quotient. -/
theorem value_take_add_drop (xs : List (BitVec w)) (k : Nat) :
    value xs = value (xs.take k) + 2 ^ (w * k) * value (xs.drop k) := by
  rcases Nat.lt_or_ge xs.length k with hk | hk
  · rw [List.take_of_length_le (Nat.le_of_lt hk), List.drop_eq_nil_of_le (Nat.le_of_lt hk)]
    simp
  · calc
      value xs = value (xs.take k ++ xs.drop k) := by rw [List.take_append_drop]
      _ = value (xs.take k) + 2 ^ (w * k) * value (xs.drop k) := by
        rw [value_append, List.length_take_of_le hk]

theorem value_take_lt (xs : List (BitVec w)) (k : Nat) : value (xs.take k) < 2 ^ (w * k) := by
  refine Nat.lt_of_lt_of_le (value_lt _) ?_
  exact Nat.pow_le_pow_right (Nat.succ_pos 1)
    (Nat.mul_le_mul_left _ (List.length_take_le k xs))

theorem value_take (xs : List (BitVec w)) (k : Nat) :
    value (xs.take k) = value xs % 2 ^ (w * k) := by
  rw [value_take_add_drop xs k, Nat.add_mul_mod_self_left,
    Nat.mod_eq_of_lt (value_take_lt xs k)]

theorem value_drop (xs : List (BitVec w)) (k : Nat) :
    value (xs.drop k) = value xs / 2 ^ (w * k) := by
  rw [value_take_add_drop xs k, Nat.add_mul_div_left _ _ (Nat.two_pow_pos _),
    Nat.div_eq_of_lt (value_take_lt xs k), Nat.zero_add]

/-- The words of a number. -/
theorem value_map_range (v n : Nat) :
    value ((List.range n).map fun i => BitVec.ofNat w (v / 2 ^ (w * i))) =
      v % 2 ^ (w * n) := by
  induction n with
  | zero => simp [Nat.mod_one]
  | succ n ih =>
      rw [List.range_succ, List.map_append, List.map_singleton, value_concat, ih,
        List.length_map, List.length_range, BitVec.toNat_ofNat, Nat.mul_succ, pow_add,
        Nat.mod_mul]

theorem value_eq_zero {xs : List (BitVec w)} : value xs = 0 ↔ ∀ x ∈ xs, x = 0#w := by
  induction xs with
  | nil => simp
  | cons x xs ih =>
      have hhead : x.toNat = 0 ↔ x = 0#w := by
        rw [← BitVec.toNat_inj, BitVec.toNat_zero]
      simp [ih, hhead]

theorem value_injective {xs ys : List (BitVec w)} (hlength : xs.length = ys.length)
    (hvalue : value xs = value ys) : xs = ys := by
  induction xs generalizing ys with
  | nil => exact (List.eq_nil_of_length_eq_zero hlength.symm).symm
  | cons x xs ih =>
      rcases ys with _ | ⟨y, ys⟩
      · simp at hlength
      rw [value_cons, value_cons] at hvalue
      have hx := x.isLt
      have hy := y.isLt
      have hhead : x.toNat = y.toNat := by
        have := congrArg (· % 2 ^ w) hvalue
        simpa [Nat.add_mul_mod_self_left, Nat.mod_eq_of_lt hx, Nat.mod_eq_of_lt hy] using this
      rw [hhead] at hvalue
      have htail : value xs = value ys :=
        Nat.eq_of_mul_eq_mul_left (Nat.two_pow_pos w) (Nat.add_left_cancel hvalue)
      rw [BitVec.toNat_inj.mp hhead, ih (Nat.succ.inj hlength) htail]

/-- The bits of a number, read from its words. -/
theorem testBit_value (hw : 0 < w) (xs : List (BitVec w)) (i : Nat) :
    (value xs).testBit i = ((xs[i / w]?).getD 0#w).getLsbD (i % w) := by
  induction xs generalizing i with
  | nil => simp
  | cons x xs ih =>
      rw [value_cons, Nat.add_comm, Nat.mul_comm, ← Nat.shiftLeft_eq,
        Nat.shiftLeft_add_eq_or_of_lt x.isLt, Nat.testBit_or, Nat.testBit_shiftLeft]
      rcases Nat.lt_or_ge i w with hi | hi
      · simp [Nat.not_le_of_lt hi, Nat.div_eq_of_lt hi, Nat.mod_eq_of_lt hi, BitVec.getLsbD]
      · have hdiv : i / w = (i - w) / w + 1 := by
          rw [Nat.div_eq_sub_div hw hi]
        have hmod : i % w = (i - w) % w := Nat.mod_eq_sub_mod hi
        have hhigh : x.toNat.testBit i = false :=
          Nat.testBit_lt_two_pow (Nat.lt_of_lt_of_le x.isLt
            (Nat.pow_le_pow_right (Nat.succ_pos 1) hi))
        rw [ih, hhigh, hdiv, hmod]
        simp [hi]

/-- A bitwise operation word by word is the operation on the numbers. -/
theorem testBit_value_zipWith (hw : 0 < w) {f : BitVec w → BitVec w → BitVec w}
    {g : Bool → Bool → Bool} (hzero : g false false = false)
    (hf : ∀ x y i, i < w → (f x y).getLsbD i = g (x.getLsbD i) (y.getLsbD i))
    {xs ys : List (BitVec w)} (hlength : xs.length = ys.length) (i : Nat) :
    (value (List.zipWith f xs ys)).testBit i =
      g ((value xs).testBit i) ((value ys).testBit i) := by
  rw [testBit_value hw, testBit_value hw, testBit_value hw, List.getElem?_zipWith]
  have hi : i % w < w := Nat.mod_lt i hw
  rcases Nat.lt_or_ge (i / w) xs.length with hlt | hge
  · rw [List.getElem?_eq_getElem hlt, List.getElem?_eq_getElem (hlength ▸ hlt)]
    exact hf _ _ _ hi
  · rw [List.getElem?_eq_none hge, List.getElem?_eq_none (hlength ▸ hge)]
    simp [hzero]

theorem testBit_value_modify (hw : 0 < w) {f : BitVec w → BitVec w} {k : Nat}
    {xs : List (BitVec w)} (hk : k / w < xs.length)
    (hf : ∀ x i, i < w → (f x).getLsbD i = (x.getLsbD i || decide (i = k % w))) (i : Nat) :
    (value (xs.modify (k / w) f)).testBit i = ((value xs).testBit i || decide (i = k)) := by
  rw [testBit_value hw, testBit_value hw, List.getElem?_modify]
  have hi : i % w < w := Nat.mod_lt i hw
  by_cases hword : k / w = i / w
  · have hbit : i = k ↔ i % w = k % w := by
      constructor
      · rintro rfl
        rfl
      · intro hmod
        rw [← Nat.div_add_mod i w, ← Nat.div_add_mod k w, hword, hmod]
    rw [List.getElem?_eq_getElem (hword ▸ hk)]
    simp only [hword, if_true, Option.map_eq_map, Option.map_some, Option.getD_some]
    rw [hf _ _ hi, decide_eq_decide.mpr hbit]
  · have hne : i ≠ k := fun h => hword (h ▸ rfl)
    simp [hword, hne]

/-- A change of each word by itself is a change of each bit. -/
theorem testBit_value_of_words (hw : 0 < w) {xs ys : List (BitVec w)}
    {f : Nat → BitVec w → BitVec w} {g : Nat → Bool → Bool}
    (hys : ∀ k, ys[k]? = (xs[k]?).map (f k))
    (hf : ∀ k x j, k < xs.length → j < w → (f k x).getLsbD j = g (w * k + j) (x.getLsbD j))
    (i : Nat) :
    (value ys).testBit i = (decide (i < w * xs.length) && g i ((value xs).testBit i)) := by
  rw [testBit_value hw, testBit_value hw, hys]
  rcases Nat.lt_or_ge (i / w) xs.length with hlt | hge
  · have hi : i < w * xs.length := by
      rw [Nat.mul_comm]
      exact (Nat.div_lt_iff_lt_mul hw).mp hlt
    rw [List.getElem?_eq_getElem hlt, decide_eq_true hi, Bool.true_and]
    simp only [Option.map_some, Option.getD_some]
    rw [hf _ _ _ hlt (Nat.mod_lt i hw), Nat.div_add_mod]
  · have hi : ¬ i < w * xs.length := by
      rw [Nat.not_lt, Nat.mul_comm]
      exact (Nat.le_div_iff_mul_le hw).mp hge
    rw [List.getElem?_eq_none hge, decide_eq_false hi]
    simp

/-- The highest word is not zero. -/
def Trimmed (xs : List (BitVec w)) : Prop :=
  xs.getLast? ≠ some 0#w

theorem trimmed_nil : Trimmed ([] : List (BitVec w)) := by
  simp [Trimmed]

theorem trimmed_concat {xs : List (BitVec w)} {x : BitVec w} :
    Trimmed (xs ++ [x]) ↔ x ≠ 0#w := by
  simp [Trimmed]

theorem trimmed_of_last_eq {xs ys : List (BitVec w)} (h : xs.getLast? = ys.getLast?)
    (hxs : Trimmed xs) : Trimmed ys := by
  rwa [Trimmed, ← h]

/-- A trimmed list uses all of its words. -/
theorem Trimmed.le_value {xs : List (BitVec w)} (hxs : Trimmed xs) (hne : xs ≠ []) :
    2 ^ (w * (xs.length - 1)) ≤ value xs := by
  obtain ⟨ys, x, rfl⟩ := List.eq_nil_or_concat' xs |>.resolve_left hne
  rw [trimmed_concat] at hxs
  have hpos : 0 < x.toNat := by
    rw [Nat.pos_iff_ne_zero]
    exact fun h => hxs (BitVec.toNat_inj.mp (by simpa using h))
  have hmul : 2 ^ (w * ys.length) * 1 ≤ 2 ^ (w * ys.length) * x.toNat :=
    Nat.mul_le_mul_left _ hpos
  rw [value_concat, List.length_append, List.length_singleton, Nat.add_sub_cancel]
  omega

theorem Trimmed.value_pos {xs : List (BitVec w)} (hxs : Trimmed xs) (hne : xs ≠ []) :
    0 < value xs :=
  Nat.lt_of_lt_of_le (Nat.two_pow_pos _) (hxs.le_value hne)

theorem Trimmed.value_eq_zero {xs : List (BitVec w)} (hxs : Trimmed xs) :
    value xs = 0 ↔ xs = [] := by
  constructor
  · intro h
    by_contra hne
    exact absurd h (hxs.value_pos hne).ne'
  · rintro rfl
    rfl

theorem Trimmed.value_lt_of_length_lt {xs ys : List (BitVec w)} (hys : Trimmed ys)
    (hlength : xs.length < ys.length) : value xs < value ys := by
  have hne : ys ≠ [] := List.ne_nil_of_length_pos (Nat.zero_lt_of_lt hlength)
  calc
    value xs < 2 ^ (w * xs.length) := value_lt xs
    _ ≤ 2 ^ (w * (ys.length - 1)) :=
      Nat.pow_le_pow_right (Nat.succ_pos 1) (Nat.mul_le_mul_left _ (by omega))
    _ ≤ value ys := hys.le_value hne

/-- Trimmed lists are determined by their numbers. -/
theorem Trimmed.eq_of_value_eq {xs ys : List (BitVec w)} (hxs : Trimmed xs)
    (hys : Trimmed ys) (hvalue : value xs = value ys) : xs = ys := by
  rcases Nat.lt_trichotomy xs.length ys.length with hlt | heq | hgt
  · exact absurd hvalue (hys.value_lt_of_length_lt hlt).ne
  · exact value_injective heq hvalue
  · exact absurd hvalue (hxs.value_lt_of_length_lt hgt).ne'

theorem value_concat_lt {xs ys : List (BitVec w)} {x y : BitVec w}
    (hlength : xs.length = ys.length) (hlt : x.toNat < y.toNat) :
    value (xs ++ [x]) < value (ys ++ [y]) := by
  have hxs := value_lt xs
  have hmul : 2 ^ (w * xs.length) * (x.toNat + 1) ≤ 2 ^ (w * xs.length) * y.toNat :=
    Nat.mul_le_mul_left _ hlt
  rw [Nat.mul_add] at hmul
  rw [value_concat, value_concat, ← hlength]
  omega

theorem size_value_concat {xs : List (BitVec w)} {x : BitVec w} (hx : x ≠ 0#w) :
    Nat.size (value (xs ++ [x])) = w * xs.length + Nat.size x.toNat := by
  have hpos : x.toNat ≠ 0 := fun h => hx (BitVec.toNat_inj.mp (by simpa using h))
  have hlow := value_lt xs
  apply Nat.le_antisymm
  · rw [Nat.size_le, value_concat, pow_add]
    have hsize : x.toNat + 1 ≤ 2 ^ Nat.size x.toNat := Nat.lt_size_self _
    have hmul := Nat.mul_le_mul_left (2 ^ (w * xs.length)) hsize
    rw [Nat.mul_add] at hmul
    omega
  · have hsize : 0 < Nat.size x.toNat := Nat.size_pos.mpr (Nat.pos_of_ne_zero hpos)
    have hle : 2 ^ (Nat.size x.toNat - 1) ≤ x.toNat :=
      Nat.lt_size.mp (by omega)
    have hmul := Nat.mul_le_mul_left (2 ^ (w * xs.length)) hle
    rw [← pow_add] at hmul
    have hgoal : w * xs.length + (Nat.size x.toNat - 1) < Nat.size (value (xs ++ [x])) := by
      rw [Nat.lt_size, value_concat]
      omega
    omega

section Shifts

variable {b : Nat}

/-- A word moved up by `b` bits: the part that stays and the part that leaves. -/
theorem shl_word_split (hb : b ≤ w) (x : Nat) :
    2 ^ b * (x % 2 ^ (w - b)) + 2 ^ w * (x / 2 ^ (w - b)) = x * 2 ^ b := by
  have hpow : 2 ^ w = 2 ^ b * 2 ^ (w - b) := by
    rw [← pow_add, Nat.add_sub_cancel' hb]
  calc
    _ = 2 ^ b * (2 ^ (w - b) * (x / 2 ^ (w - b)) + x % 2 ^ (w - b)) := by
      rw [hpow]
      ring
    _ = _ := by rw [Nat.div_add_mod, Nat.mul_comm]

/-- A number moved down by `b` bits, word by word. -/
theorem shr_cons_split (hb : b ≤ w) (x v : Nat) :
    (x + 2 ^ w * v) / 2 ^ b =
      x / 2 ^ b + 2 ^ (w - b) * (v % 2 ^ b) + 2 ^ w * (v / 2 ^ b) := by
  have hpow : 2 ^ w = 2 ^ b * 2 ^ (w - b) := by
    rw [← pow_add, Nat.add_sub_cancel' hb]
  calc
    _ = x / 2 ^ b + 2 ^ (w - b) * v := by
      rw [hpow, Nat.mul_assoc, Nat.add_mul_div_left _ _ (Nat.two_pow_pos b)]
    _ = x / 2 ^ b + 2 ^ (w - b) * (2 ^ b * (v / 2 ^ b) + v % 2 ^ b) := by
      rw [Nat.div_add_mod]
    _ = _ := by
      rw [hpow]
      ring

theorem toNat_shiftLeft_or (hb : b ≤ w) (x : BitVec w) {low : BitVec w}
    (hlow : low.toNat < 2 ^ b) :
    ((x <<< b) ||| low).toNat = 2 ^ b * (x.toNat % 2 ^ (w - b)) + low.toNat := by
  have hpow : 2 ^ w = 2 ^ b * 2 ^ (w - b) := by
    rw [← pow_add, Nat.add_sub_cancel' hb]
  have hshift : (x <<< b).toNat = (x.toNat % 2 ^ (w - b)) <<< b := by
    rw [BitVec.toNat_shiftLeft, Nat.shiftLeft_eq, Nat.shiftLeft_eq, Nat.mul_comm, hpow,
      Nat.mul_mod_mul_left, Nat.mul_comm]
  rw [BitVec.toNat_or, hshift, ← Nat.shiftLeft_add_eq_or_of_lt hlow, Nat.shiftLeft_eq,
    Nat.mul_comm]

end Shifts

section Accumulators

variable {d : Nat}

/-- One word of a sum in an accumulator: the word and the carry. -/
def addWord (x y : BitVec w) (carry : BitVec d) : BitVec w × BitVec d :=
  let s := x.setWidth d + y.setWidth d + carry
  (s.setWidth w, s >>> w)

/-- One word of a multiply-accumulate: the word and the carry. -/
def mulWord (acc x y : BitVec w) (carry : BitVec d) : BitVec w × BitVec d :=
  let t := acc.setWidth d + x.setWidth d * y.setWidth d + carry
  (t.setWidth w, t >>> w)

/-- Splitting an accumulator that has not overflowed. -/
theorem split_accumulator (s : BitVec d) {n : Nat} (hs : s.toNat = n) :
    (s.setWidth w).toNat + 2 ^ w * (s >>> w).toNat = n ∧ (s >>> w).toNat = n / 2 ^ w := by
  rw [BitVec.toNat_setWidth, BitVec.toNat_ushiftRight, Nat.shiftRight_eq_div_pow, hs]
  exact ⟨Nat.mod_add_div n (2 ^ w), rfl⟩

theorem toNat_setWidth_of_le (hd : w ≤ d) (x : BitVec w) : (x.setWidth d).toNat = x.toNat := by
  rw [BitVec.toNat_setWidth]
  exact Nat.mod_eq_of_lt (Nat.lt_of_lt_of_le x.isLt (Nat.pow_le_pow_right (Nat.succ_pos 1) hd))

theorem addWord_spec (hd : w + 1 ≤ d) (x y : BitVec w) {carry : BitVec d}
    (hcarry : carry.toNat ≤ 1) :
    (addWord x y carry).1.toNat + 2 ^ w * (addWord x y carry).2.toNat =
      x.toNat + y.toNat + carry.toNat ∧ (addWord x y carry).2.toNat ≤ 1 := by
  have hx := x.isLt
  have hy := y.isLt
  have hpow : 2 ^ (w + 1) ≤ 2 ^ d := Nat.pow_le_pow_right (Nat.succ_pos 1) hd
  rw [pow_succ] at hpow
  have hsum : (x.setWidth d + y.setWidth d + carry).toNat =
      x.toNat + y.toNat + carry.toNat := by
    rw [BitVec.toNat_add, BitVec.toNat_add, toNat_setWidth_of_le (by omega),
      toNat_setWidth_of_le (by omega), Nat.mod_add_mod]
    exact Nat.mod_eq_of_lt (by omega)
  obtain ⟨hsplit, hhigh⟩ := split_accumulator (w := w) _ hsum
  refine ⟨hsplit, ?_⟩
  rw [addWord, hhigh]
  exact Nat.le_of_lt_succ (Nat.div_lt_of_lt_mul (by omega))

theorem mulWord_spec (hd : w + w ≤ d) (acc x y : BitVec w) {carry : BitVec d}
    (hcarry : carry.toNat < 2 ^ w) :
    (mulWord acc x y carry).1.toNat + 2 ^ w * (mulWord acc x y carry).2.toNat =
      acc.toNat + x.toNat * y.toNat + carry.toNat ∧
        (mulWord acc x y carry).2.toNat < 2 ^ w := by
  have hacc := acc.isLt
  have hpow : 2 ^ (w + w) ≤ 2 ^ d := Nat.pow_le_pow_right (Nat.succ_pos 1) hd
  rw [pow_add] at hpow
  have hmul : x.toNat * y.toNat ≤ (2 ^ w - 1) * (2 ^ w - 1) :=
    Nat.mul_le_mul (Nat.le_sub_one_of_lt x.isLt) (Nat.le_sub_one_of_lt y.isLt)
  have hbound : acc.toNat + x.toNat * y.toNat + carry.toNat < 2 ^ w * 2 ^ w := by
    have hpos := Nat.two_pow_pos w
    obtain ⟨k, hk⟩ : ∃ k, 2 ^ w = k + 1 := ⟨2 ^ w - 1, by omega⟩
    rw [hk] at hmul hacc hcarry ⊢
    rw [Nat.add_sub_cancel] at hmul
    have hsquare : (k + 1) * (k + 1) = k * k + 2 * k + 1 := by ring
    omega
  have hsum : (acc.setWidth d + x.setWidth d * y.setWidth d + carry).toNat =
      acc.toNat + x.toNat * y.toNat + carry.toNat := by
    rw [BitVec.toNat_add, BitVec.toNat_add, BitVec.toNat_mul, toNat_setWidth_of_le (by omega),
      toNat_setWidth_of_le (by omega), toNat_setWidth_of_le (by omega), Nat.add_mod_mod,
      Nat.mod_add_mod]
    exact Nat.mod_eq_of_lt (by omega)
  obtain ⟨hsplit, hhigh⟩ := split_accumulator (w := w) _ hsum
  refine ⟨hsplit, ?_⟩
  rw [mulWord, hhigh]
  exact Nat.div_lt_of_lt_mul hbound

end Accumulators

end Harc.WordLists
