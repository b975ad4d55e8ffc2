import Harc.WideRuntime

/-!
Single bits and widths of the wide integers: masking to a width, the bits that are read and
set one by one, and the extensions from a narrower width.
-/

namespace Harc.WideBits

open Harc.WordLists
open Harc.WideRuntime

variable {N : Nat}

/-- The loop that clears the words from `first` on. -/
def zeroFrom (first count : Nat) (words : List U32) : List U32 :=
  words.mapIdx fun i x => if first ≤ i ∧ i < count then 0 else x

def wordMask (words : List U32) (count width : Nat) : List U32 :=
  if count * 32 % 2 ^ 32 ≤ width then words
  else
    let keepWords := width / 32
    let keepBits := width % 32
    let zeroed := zeroFrom (if keepBits ≠ 0 then keepWords + 1 else keepWords) count words
    if keepWords < count then
      if keepBits = 0 then zeroFrom keepWords count zeroed
      else zeroed.modify keepWords (· &&& ((1#32 <<< keepBits) - 1#32))
    else zeroed

/-- The words of the sign, put above the source width. -/
def signWords (sourceWidth count : Nat) (words : List U32) : List U32 :=
  words.mapIdx fun i x =>
    let low := i * 32
    if ¬ i < count then x
    else if sourceWidth ≤ low then BitVec.allOnes 32
    else if sourceWidth < low + 32 then x ||| (BitVec.allOnes 32 <<< (sourceWidth - low))
    else x

def wordSext (words : List U32) (count sourceWidth destWidth : Nat) : List U32 :=
  let words := wordMask words count sourceWidth
  if sourceWidth = 0 ∨ destWidth = 0 then zeroFrom 0 count words
  else
    let signBit := sourceWidth - 1
    let neg := decide (signBit / 32 < count) &&
      ((words[signBit / 32]?.getD 0#32) >>> (signBit % 32)).getLsbD 0
    wordMask (if neg then signWords sourceWidth count words else words) count destWidth

theorem length_wordMask (words : List U32) (count width : Nat) :
    (wordMask words count width).length = words.length := by
  simp only [wordMask, zeroFrom]
  split_ifs <;> simp

theorem length_wordSext (words : List U32) (count sourceWidth destWidth : Nat) :
    (wordSext words count sourceWidth destWidth).length = words.length := by
  simp only [wordSext, zeroFrom, signWords]
  split_ifs <;> simp [length_wordMask]

/-- The words of a mask, one by one. -/
theorem getElem?_wordMask {words : List U32} {width : Nat} (h : width < 32 * words.length)
    (hcount : 32 * words.length < 2 ^ 32) (k : Nat) :
    (wordMask words words.length width)[k]? = (words[k]?).map fun x =>
      if k < width / 32 then x
      else if k = width / 32 ∧ width % 32 ≠ 0 then x &&& ((1#32 <<< (width % 32)) - 1#32)
      else 0 := by
  have htotal : ¬ words.length * 32 % 2 ^ 32 ≤ width := by
    rw [Nat.mod_eq_of_lt (by omega)]
    omega
  have hwords : width / 32 < words.length := by omega
  have hk : k < words.length ∨ words.length ≤ k := Nat.lt_or_ge k words.length
  simp only [wordMask, zeroFrom, htotal, if_false, hwords, if_true]
  by_cases hbits : width % 32 = 0
  · simp only [hbits, if_true, ne_eq, not_true_eq_false, if_false, List.getElem?_mapIdx,
      Option.map_map, and_false]
    rcases hk with hk | hk
    · rw [List.getElem?_eq_getElem hk]
      simp only [Option.map_some, Function.comp_apply, hk, and_true, Option.some.injEq]
      split_ifs <;> first | rfl | omega
    · rw [List.getElem?_eq_none hk]
      rfl
  · simp only [hbits, if_false, ne_eq, not_false_eq_true, if_true, List.getElem?_modify,
      List.getElem?_mapIdx, Option.map_map, and_true, Option.map_eq_map]
    rcases hk with hk | hk
    · rw [List.getElem?_eq_getElem hk]
      simp only [Option.map_some, Function.comp_apply, hk, and_true]
      rcases Nat.lt_trichotomy k (width / 32) with hlt | rfl | hgt
      · rw [if_neg (by omega), if_pos hlt, if_neg (by omega)]
      · simp
      · have hlow : ¬ k < width / 32 := by omega
        have htop : ¬ width / 32 = k := by omega
        simp [hlow, htop, hgt.ne', Nat.succ_le_of_lt hgt]
    · rw [List.getElem?_eq_none hk]
      simp

/-- The low `b` bits of a word. -/
theorem getLsbD_lowBits {b : Nat} (hb : b < 32) (j : Nat) :
    ((1#32 <<< b) - 1#32).getLsbD j = decide (j < b) := by
  have hpow : 2 ^ b < 2 ^ 32 := Nat.pow_lt_pow_right (by omega) hb
  have hmask : ((1#32 <<< b) - 1#32).toNat = 2 ^ b - 1 := by
    have hpos := Nat.two_pow_pos b
    rw [BitVec.toNat_sub, BitVec.toNat_shiftLeft, Nat.shiftLeft_eq]
    simp only [BitVec.toNat_ofNat, Nat.one_mod, Nat.one_mul]
    rw [Nat.mod_eq_of_lt hpow]
    omega
  rw [BitVec.getLsbD, hmask, Nat.testBit_two_pow_sub_one]

theorem testBit_wordMask {words : List U32} (hcount : 32 * words.length < 2 ^ 32)
    (width i : Nat) :
    (value (wordMask words words.length width)).testBit i =
      (decide (i < width) && (value words).testBit i) := by
  rcases Nat.lt_or_ge width (32 * words.length) with hlt | hge
  · rw [testBit_value_of_words (Nat.succ_pos 31) (getElem?_wordMask hlt hcount)
      (g := fun i b => decide (i < width) && b)]
    · rcases Nat.lt_or_ge i width with hi | hi
      · rw [decide_eq_true (by omega), Bool.true_and]
      · rw [decide_eq_false (p := i < width) (by omega), Bool.false_and, Bool.and_false]
    · intro k x j hk hj
      split_ifs with hlow htop
      · rw [decide_eq_true (by omega), Bool.true_and]
      · rw [BitVec.getLsbD_and, getLsbD_lowBits (by omega), Bool.and_comm]
        congr 1
        rw [decide_eq_decide]
        omega
      · rw [decide_eq_false (by omega), Bool.false_and]
        exact BitVec.getLsbD_zero
  · have htotal : words.length * 32 % 2 ^ 32 ≤ width := by
      rw [Nat.mod_eq_of_lt (by omega)]
      omega
    rw [wordMask, if_pos htotal]
    rcases Nat.lt_or_ge i width with hi | hi
    · rw [decide_eq_true hi, Bool.true_and]
    · rw [decide_eq_false (by omega), Bool.false_and]
      exact Nat.testBit_lt_two_pow (Nat.lt_of_lt_of_le (value_lt words)
        (Nat.pow_le_pow_right (Nat.succ_pos 1) (by omega)))

theorem value_wordMask {words : List U32} (hcount : 32 * words.length < 2 ^ 32) (width : Nat) :
    value (wordMask words words.length width) = value words % 2 ^ width := by
  refine Nat.eq_of_testBit_eq fun i => ?_
  rw [testBit_wordMask hcount, Nat.testBit_mod_two_pow]

/-- The words of the sign, one by one. -/
theorem testBit_signWords (words : List U32) (sourceWidth i : Nat) :
    (value (signWords sourceWidth words.length words)).testBit i =
      (decide (i < 32 * words.length) &&
        (decide (sourceWidth ≤ i) || (value words).testBit i)) := by
  refine testBit_value_of_words (by omega)
    (f := fun k x => if sourceWidth ≤ k * 32 then BitVec.allOnes 32
      else if sourceWidth < k * 32 + 32 then
        x ||| (BitVec.allOnes 32 <<< (sourceWidth - k * 32))
      else x) (g := fun i b => decide (sourceWidth ≤ i) || b) ?_ ?_ i
  · intro k
    simp only [signWords, List.getElem?_mapIdx]
    rcases Nat.lt_or_ge k words.length with hk | hk
    · rw [List.getElem?_eq_getElem hk]
      simp only [Option.map_some, hk, not_true_eq_false, if_false]
    · rw [List.getElem?_eq_none hk]
      rfl
  · intro k x j _ hj
    split_ifs with hall hpart
    · rw [BitVec.getLsbD_allOnes, decide_eq_true hj, decide_eq_true (by omega), Bool.true_or]
    · rw [BitVec.getLsbD_or, BitVec.getLsbD_shiftLeft, BitVec.getLsbD_allOnes, Bool.or_comm]
      congr 1
      rw [decide_eq_true hj, Bool.true_and]
      rcases Nat.lt_or_ge j (sourceWidth - k * 32) with hlow | hhigh
      · have hbelow : ¬ sourceWidth ≤ 32 * k + j := by omega
        simp [hlow, hbelow]
      · have habove : sourceWidth ≤ 32 * k + j := by omega
        have hshift : j - (sourceWidth - k * 32) < 32 := by omega
        simp [Nat.not_lt.mpr hhigh, habove, hshift]
    · rw [decide_eq_false (by omega), Bool.false_or]

theorem value_zeroFrom_zero (words : List U32) :
    value (zeroFrom 0 words.length words) = 0 := by
  rw [value_eq_zero]
  intro x hx
  obtain ⟨i, hi, rfl⟩ := List.mem_iff_getElem.mp hx
  have hlength : i < words.length := by simpa [zeroFrom] using hi
  simp [zeroFrom, hlength]

theorem getLsbD_zero_ushiftRight (x : U32) (k : Nat) : (x >>> k).getLsbD 0 = x.getLsbD k := by
  rw [BitVec.getLsbD_ushiftRight, Nat.add_zero]

/-- Sign extension bit by bit. -/
theorem testBit_wordSext {words : List U32} (hcount : 32 * words.length < 2 ^ 32)
    {sourceWidth destWidth : Nat} (hsource : 0 < sourceWidth) (hdest : 0 < destWidth)
    (hfits : sourceWidth ≤ 32 * words.length) (i : Nat) :
    (value (wordSext words words.length sourceWidth destWidth)).testBit i =
      (decide (i < destWidth) && decide (i < 32 * words.length) &&
        (value words).testBit (min i (sourceWidth - 1))) := by
  have hbit : (((wordMask words words.length sourceWidth)[(sourceWidth - 1) / 32]?.getD 0#32) >>>
      ((sourceWidth - 1) % 32)).getLsbD 0 = (value words).testBit (sourceWidth - 1) := by
    rw [getLsbD_zero_ushiftRight, ← testBit_value (Nat.succ_pos 31), testBit_wordMask hcount,
      decide_eq_true (by omega), Bool.true_and]
  have hword : (sourceWidth - 1) / 32 < words.length := by omega
  have hhigh : ¬ i < 32 * words.length → (value words).testBit i = false := by
    intro hi
    exact Nat.testBit_lt_two_pow (Nat.lt_of_lt_of_le (value_lt words)
      (Nat.pow_le_pow_right (Nat.succ_pos 1) (by omega)))
  have hlength := length_wordMask words words.length sourceWidth
  simp only [wordSext, hbit, hword, decide_true, Bool.true_and]
  rw [if_neg (by omega)]
  cases hsign : (value words).testBit (sourceWidth - 1) with
  | true =>
      have hmask := @testBit_wordMask (signWords sourceWidth words.length
        (wordMask words words.length sourceWidth))
        (by simpa [signWords, hlength] using hcount) destWidth i
      have hsigned := testBit_signWords (wordMask words words.length sourceWidth)
        sourceWidth i
      rw [hlength] at hsigned
      rw [show (signWords sourceWidth words.length
        (wordMask words words.length sourceWidth)).length = words.length by
          simp [signWords, hlength]] at hmask
      rw [if_pos rfl, hmask, hsigned, testBit_wordMask hcount, Bool.and_assoc]
      rcases Nat.lt_or_ge i sourceWidth with hlow | hge
      · rw [Nat.min_eq_left (by omega), decide_eq_false (p := sourceWidth ≤ i) (by omega),
          decide_eq_true hlow, Bool.false_or, Bool.true_and]
      · rw [Nat.min_eq_right (by omega), hsign, decide_eq_true hge, Bool.true_or]
  | false =>
      have hmask := @testBit_wordMask (wordMask words words.length sourceWidth)
        (by rwa [hlength]) destWidth i
      rw [hlength] at hmask
      rw [if_neg (by simp), hmask, testBit_wordMask hcount, Bool.and_assoc]
      rcases Nat.lt_or_ge i sourceWidth with hlow | hge
      · rw [Nat.min_eq_left (by omega), decide_eq_true hlow, Bool.true_and,
          decide_eq_true (p := i < 32 * words.length) (by omega), Bool.true_and]
      · rw [Nat.min_eq_right (by omega), hsign, decide_eq_false (p := i < sourceWidth) (by omega)]
        simp

/-- `harc_wide_mask_bits` -/
def wideMaskBits (value : HarcWide N) (width : Nat) : HarcWide N where
  words := wordMask value.words (N % 2 ^ 32) width
  length_eq := by rw [length_wordMask, value.length_eq]

def wideGetBit (v : HarcWide N) (bit : Nat) : Bool :=
  decide (bit < N * 32 % 2 ^ 64) && ((v.words[bit / 32]?.getD 0#32) >>> (bit % 32)).getLsbD 0

/-- One word changed, if the bit is in range. -/
def modifyBit (f : U32 → U32) (v : HarcWide N) (bit : Nat) : HarcWide N :=
  if bit < N * 32 % 2 ^ 64 then
    { words := v.words.modify (bit / 32) f
      length_eq := by rw [List.length_modify, v.length_eq] }
  else v

def wideSetBit (v : HarcWide N) (bit : Nat) : HarcWide N :=
  modifyBit (· ||| (1#32 <<< (bit % 32))) v bit

def wideClearBit (v : HarcWide N) (bit : Nat) : HarcWide N :=
  modifyBit (· &&& ~~~(1#32 <<< (bit % 32))) v bit

def wideIsZero (value : HarcWide N) : Bool :=
  value.words.all (· == 0#32)

/-- `harc_wide_zext` of an integer of at most 128 bits -/
def wideZextInt (N : Nat) (value : CInt) : HarcWide N where
  words :=
    let u : BitVec 128 := value.bits.setWidth 128
    (List.range N).map fun i => if i < 4 then (u >>> (32 * i)).setWidth 32 else 0#32
  length_eq := by simp

/-- `harc_wide_zext` of a wide integer -/
def wideZextWide (N : Nat) {M : Nat} (value : HarcWide M) : HarcWide N where
  words := value.words.take N ++ List.replicate (N - M) 0#32
  length_eq := by
    simp [value.length_eq]
    omega

/-- The widening constructor. -/
def widen (N : Nat) {M : Nat} (h : M < N) (other : HarcWide M) : HarcWide N where
  words := other.words ++ List.replicate (N - M) 0#32
  length_eq := by
    simp [other.length_eq]
    omega

def wideSextOf (value : HarcWide N) (sourceWidth destWidth : Nat) : HarcWide N where
  words := wordSext value.words (N % 2 ^ 32) sourceWidth destWidth
  length_eq := by rw [length_wordSext, value.length_eq]

theorem getLsbD_one_shiftLeft {b : Nat} (hb : b < 32) (j : Nat) :
    (1#32 <<< b).getLsbD j = decide (j = b) := by
  rw [← BitVec.twoPow_eq, BitVec.getLsbD_twoPow, decide_eq_true hb, Bool.true_and,
    decide_eq_decide]
  exact eq_comm

theorem testBit_toNat (v : HarcWide N) (i : Nat) :
    v.toNat.testBit i = (v.words[i / 32]?.getD 0#32).getLsbD (i % 32) :=
  testBit_value (Nat.succ_pos 31) v.words i

theorem testBit_eq_false_of_le {v : HarcWide N} {i : Nat} (h : 32 * N ≤ i) :
    v.toNat.testBit i = false :=
  Nat.testBit_lt_two_pow (Nat.lt_of_lt_of_le v.toNat_lt
    (Nat.pow_le_pow_right (Nat.succ_pos 1) h))

theorem wideIsZero_iff (v : HarcWide N) : wideIsZero v = true ↔ v.toNat = 0 := by
  rw [wideIsZero, HarcWide.toNat, value_eq_zero]
  simp

theorem toNat_wideZextInt (N : Nat) (v : CInt) :
    (wideZextInt N v).toNat = v.bits.toNat % 2 ^ (32 * N) := by
  have hlt : v.bits.toNat < 2 ^ 128 := Nat.lt_of_lt_of_le v.bits.isLt
    (Nat.pow_le_pow_right (Nat.succ_pos 1) v.width_le)
  have hu : (v.bits.setWidth 128).toNat = v.bits.toNat := by
    rw [BitVec.toNat_setWidth]
    exact Nat.mod_eq_of_lt hlt
  have hwords : (wideZextInt N v).words =
      (List.range N).map fun i => BitVec.ofNat 32 (v.bits.toNat / 2 ^ (32 * i)) := by
    refine List.map_congr_left fun i _ => ?_
    rw [← BitVec.toNat_inj]
    split_ifs with hi
    · rw [BitVec.toNat_setWidth, BitVec.toNat_ushiftRight, hu, BitVec.toNat_ofNat,
        Nat.shiftRight_eq_div_pow]
    · have hzero : v.bits.toNat / 2 ^ (32 * i) = 0 := by
        refine Nat.div_eq_of_lt (Nat.lt_of_lt_of_le hlt ?_)
        exact Nat.pow_le_pow_right (Nat.succ_pos 1) (by omega)
      rw [hzero]
  rw [HarcWide.toNat, hwords, value_map_range]

theorem toNat_wideZextWide (N : Nat) {M : Nat} (v : HarcWide M) :
    (wideZextWide N v).toNat = v.toNat % 2 ^ (32 * N) := by
  rw [HarcWide.toNat, wideZextWide, value_append_zeros, value_take]
  rfl

theorem toNat_widen {M : Nat} (h : M < N) (v : HarcWide M) : (widen N h v).toNat = v.toNat := by
  rw [HarcWide.toNat, widen, value_append_zeros]
  rfl

section Bits

variable (hN : 32 * N < 2 ^ 32)

include hN

theorem count_eq : N % 2 ^ 32 = N := Nat.mod_eq_of_lt (by omega)

theorem bitCount_eq : N * 32 % 2 ^ 64 = 32 * N := by
  rw [Nat.mod_eq_of_lt (by omega), Nat.mul_comm]

theorem testBit_wideMaskBits (v : HarcWide N) (width i : Nat) :
    (wideMaskBits v width).toNat.testBit i = (decide (i < width) && v.toNat.testBit i) := by
  have hmask := @testBit_wordMask v.words (by rwa [v.length_eq]) width i
  rw [v.length_eq] at hmask
  change (value (wordMask v.words (N % 2 ^ 32) width)).testBit i = _
  rw [count_eq hN]
  exact hmask

theorem toNat_wideMaskBits (v : HarcWide N) (width : Nat) :
    (wideMaskBits v width).toNat = v.toNat % 2 ^ width := by
  refine Nat.eq_of_testBit_eq fun i => ?_
  rw [testBit_wideMaskBits hN, Nat.testBit_mod_two_pow]

theorem wideGetBit_eq (v : HarcWide N) (i : Nat) : wideGetBit v i = v.toNat.testBit i := by
  rw [wideGetBit, bitCount_eq hN, getLsbD_zero_ushiftRight, ← testBit_toNat]
  rcases Nat.lt_or_ge i (32 * N) with hi | hi
  · rw [decide_eq_true hi, Bool.true_and]
  · rw [decide_eq_false (by omega), Bool.false_and, testBit_eq_false_of_le hi]

theorem testBit_modifyBit {f : U32 → U32} {g : Bool → Bool} {bit : Nat}
    (hf : ∀ x j, j < 32 → (f x).getLsbD j = if j = bit % 32 then g (x.getLsbD j)
      else x.getLsbD j) (v : HarcWide N) (i : Nat) :
    (modifyBit f v bit).toNat.testBit i =
      if i = bit ∧ bit < 32 * N then g (v.toNat.testBit i) else v.toNat.testBit i := by
  rw [modifyBit, bitCount_eq hN]
  rcases Nat.lt_or_ge bit (32 * N) with hbit | hbit
  · rw [if_pos hbit, testBit_toNat, testBit_toNat]
    rw [List.getElem?_modify]
    by_cases hword : bit / 32 = i / 32
    · have hlength : i / 32 < v.words.length := by
        rw [v.length_eq]
        omega
      have hiff : i = bit ∧ bit < 32 * N ↔ i % 32 = bit % 32 := by
        constructor
        · rintro ⟨rfl, _⟩
          rfl
        · intro hmod
          omega
      rw [List.getElem?_eq_getElem hlength]
      simp only [hword, if_true, Option.map_eq_map, Option.map_some, Option.getD_some]
      rw [hf _ _ (Nat.mod_lt i (Nat.succ_pos 31))]
      exact if_congr hiff.symm rfl rfl
    · rw [if_neg (by omega)]
      simp [hword]
  · rw [if_neg (by omega), if_neg (by omega)]

theorem testBit_wideSetBit (v : HarcWide N) (bit i : Nat) :
    (wideSetBit v bit).toNat.testBit i =
      if i = bit ∧ bit < 32 * N then true else v.toNat.testBit i := by
  refine testBit_modifyBit hN (g := fun _ => true) (fun x j hj => ?_) v i
  rw [BitVec.getLsbD_or, getLsbD_one_shiftLeft (Nat.mod_lt bit (Nat.succ_pos 31))]
  split_ifs with h <;> simp [h]

theorem testBit_wideClearBit (v : HarcWide N) (bit i : Nat) :
    (wideClearBit v bit).toNat.testBit i =
      if i = bit ∧ bit < 32 * N then false else v.toNat.testBit i := by
  refine testBit_modifyBit hN (g := fun _ => false) (fun x j hj => ?_) v i
  rw [BitVec.getLsbD_and, BitVec.getLsbD_not, decide_eq_true hj,
    getLsbD_one_shiftLeft (Nat.mod_lt bit (Nat.succ_pos 31))]
  split_ifs with h <;> simp [h]

end Bits

end Harc.WideBits
