import Mathlib.Data.Int.ModEq
import Mathlib.Data.List.Induction
import Mathlib.Data.Nat.ModEq
import Mathlib.Tactic.IntervalCases
import Mathlib.Tactic.Ring
import Mathlib.Tactic.Linarith

/-!
The 64-bit FNV-1a hash, and byte strings made of terminated texts and words.
-/

namespace Harc.FnvHash

def offsetBasis : Nat := 0xcbf29ce484222325
def prime : Nat := 0x100000001b3

def absorb (hash : Nat) (byte : UInt8) : Nat := (hash ^^^ byte.toNat) * prime % 2 ^ 64

def fnv (hash : Nat) (bytes : List UInt8) : Nat := bytes.foldl absorb hash

theorem absorb_lt (hash : Nat) (byte : UInt8) : absorb hash byte < 2 ^ 64 :=
  Nat.mod_lt _ (by decide)

theorem fnv_append (hash : Nat) (bytes bytes' : List UInt8) :
    fnv hash (bytes ++ bytes') = fnv (fnv hash bytes) bytes' :=
  List.foldl_append

theorem fnv_concat (hash : Nat) (bytes : List UInt8) (byte : UInt8) :
    fnv hash (bytes ++ [byte]) = absorb (fnv hash bytes) byte := by
  unfold fnv
  rw [List.foldl_append, List.foldl_cons, List.foldl_nil]

theorem fnv_lt {hash : Nat} (h : hash < 2 ^ 64) (bytes : List UInt8) : fnv hash bytes < 2 ^ 64 := by
  induction bytes using List.reverseRecOn with
  | nil => simpa only [fnv, List.foldl_nil] using h
  | append_singleton bytes byte _ =>
      rw [fnv_concat]
      exact absorb_lt _ _

/-! ### Short inputs do not collide -/

/-- A byte changes the low eight bits only. -/
theorem xor_div (hash : Nat) (byte : UInt8) : (hash ^^^ byte.toNat) / 2 ^ 8 = hash / 2 ^ 8 := by
  have hbyte : byte.toNat / 2 ^ 8 = 0 := Nat.div_eq_of_lt byte.toNat_lt
  rw [Nat.xor_div_two_pow, hbyte, Nat.xor_zero]

theorem xor_sub (hash : Nat) (byte : UInt8) :
    ∃ e : Int, |e| ≤ 255 ∧ ((hash ^^^ byte.toNat : Nat) : Int) = hash + e := by
  have hdiv := xor_div hash byte
  refine ⟨((hash ^^^ byte.toNat : Nat) : Int) - hash, ?_, by ring⟩
  rw [abs_le]
  omega

/-- How far the hashes of two inputs of one length can be apart, as a multiple of 435. -/
def drift : Nat → Int
  | 0 => 0
  | n + 1 => 435 * drift n + 510

/-- Modulo `2 ^ 40` the prime is 435, so that the distance of two hashes stays small. -/
theorem absorb_modEq (hash : Nat) (byte : UInt8) :
    (absorb hash byte : Int) ≡ 435 * ((hash ^^^ byte.toNat : Nat) : Int) [ZMOD 2 ^ 40] := by
  have hprime : (prime : Int) ≡ 435 [ZMOD 2 ^ 40] := by decide
  have hmod : (absorb hash byte : Int) ≡ ((hash ^^^ byte.toNat : Nat) : Int) * prime [ZMOD 2 ^ 40] := by
    unfold absorb
    push_cast
    exact (Int.mod_modEq _ _).of_dvd (by decide)
  calc (absorb hash byte : Int)
      ≡ ((hash ^^^ byte.toNat : Nat) : Int) * prime [ZMOD 2 ^ 40] := hmod
    _ ≡ ((hash ^^^ byte.toNat : Nat) : Int) * 435 [ZMOD 2 ^ 40] := hprime.mul_left _
    _ = 435 * ((hash ^^^ byte.toNat : Nat) : Int) := by ring

theorem exists_concat {bytes : List UInt8} (h : bytes ≠ []) :
    ∃ before byte, bytes = before ++ [byte] :=
  ⟨bytes.dropLast, bytes.getLast h, (List.dropLast_concat_getLast h).symm⟩

theorem fnv_drift (hash : Nat) (bytes : List UInt8) :
    ∀ bytes' : List UInt8, bytes'.length = bytes.length →
      ∃ d : Int, |d| ≤ drift bytes.length ∧
        (fnv hash bytes : Int) - fnv hash bytes' ≡ 435 * d [ZMOD 2 ^ 40] := by
  induction bytes using List.reverseRecOn with
  | nil =>
      intro bytes' hlength
      rw [List.eq_nil_of_length_eq_zero hlength]
      exact ⟨0, by simp [drift], by rw [sub_self]; exact Int.ModEq.refl _⟩
  | append_singleton bytes byte ih =>
      intro bytes' hlength
      obtain ⟨bytes', byte', rfl⟩ := exists_concat (by
        rintro rfl
        simp at hlength : bytes' ≠ [])
      rw [List.length_append, List.length_append, List.length_singleton, List.length_singleton]
        at hlength
      obtain ⟨d, hd, hmod⟩ := ih bytes' (by omega)
      obtain ⟨e, he, hxor⟩ := xor_sub (fnv hash bytes) byte
      obtain ⟨e', he', hxor'⟩ := xor_sub (fnv hash bytes') byte'
      refine ⟨435 * d + (e - e'), ?_, ?_⟩
      · rw [List.length_append, List.length_singleton, drift]
        rw [abs_le] at hd he he' ⊢
        omega
      · rw [fnv_concat, fnv_concat]
        have hsum : ((fnv hash bytes ^^^ byte.toNat : Nat) : Int) -
            ((fnv hash bytes' ^^^ byte'.toNat : Nat) : Int) ≡ 435 * d + (e - e') [ZMOD 2 ^ 40] := by
          rw [hxor, hxor']
          have heq : (fnv hash bytes : Int) + e - (fnv hash bytes' + e') =
              ((fnv hash bytes : Int) - fnv hash bytes') + (e - e') := by ring
          rw [heq]
          exact hmod.add_right _
        calc (absorb (fnv hash bytes) byte : Int) - absorb (fnv hash bytes') byte'
            ≡ 435 * ((fnv hash bytes ^^^ byte.toNat : Nat) : Int) -
                435 * ((fnv hash bytes' ^^^ byte'.toNat : Nat) : Int) [ZMOD 2 ^ 40] :=
              (absorb_modEq _ _).sub (absorb_modEq _ _)
          _ = 435 * (((fnv hash bytes ^^^ byte.toNat : Nat) : Int) -
                ((fnv hash bytes' ^^^ byte'.toNat : Nat) : Int)) := by ring
          _ ≡ 435 * (435 * d + (e - e')) [ZMOD 2 ^ 40] := hsum.mul_left _

/-- The prime is odd, so that a round can be undone. -/
theorem absorb_inj {hash hash' : Nat} {byte byte' : UInt8} (hlt : hash < 2 ^ 64)
    (hlt' : hash' < 2 ^ 64) (h : absorb hash byte = absorb hash' byte') :
    hash ^^^ byte.toNat = hash' ^^^ byte'.toNat := by
  have hbyte : ∀ b : UInt8, b.toNat < 2 ^ 64 := fun b => lt_of_lt_of_le b.toNat_lt (by decide)
  have hmod : hash ^^^ byte.toNat ≡ hash' ^^^ byte'.toNat [MOD 2 ^ 64] := by
    apply Nat.ModEq.cancel_right_of_coprime (c := prime)
    · decide
    · exact h
  exact hmod.eq_of_lt_of_lt (Nat.xor_lt_two_pow hlt (hbyte _)) (Nat.xor_lt_two_pow hlt' (hbyte _))

/-- Up to four bytes can be told from the hash. -/
theorem fnv_injective {hash : Nat} (hlt : hash < 2 ^ 64) (bytes : List UInt8) :
    ∀ bytes' : List UInt8, bytes'.length = bytes.length → bytes.length ≤ 4 →
      fnv hash bytes = fnv hash bytes' → bytes = bytes' := by
  induction bytes using List.reverseRecOn with
  | nil =>
      intro bytes' hlength _ _
      rw [List.eq_nil_of_length_eq_zero hlength]
  | append_singleton bytes byte ih =>
      intro bytes' hlength hshort heq
      obtain ⟨bytes', byte', rfl⟩ := exists_concat (by
        rintro rfl
        simp at hlength : bytes' ≠ [])
      rw [List.length_append, List.length_append, List.length_singleton, List.length_singleton]
        at hlength
      rw [List.length_append, List.length_singleton] at hshort
      rw [fnv_concat, fnv_concat] at heq
      have hxor := absorb_inj (fnv_lt hlt _) (fnv_lt hlt _) heq
      -- the two hashes before the last byte agree above the low eight bits
      have hdiv : fnv hash bytes / 2 ^ 8 = fnv hash bytes' / 2 ^ 8 := by
        rw [← xor_div (fnv hash bytes) byte, hxor, xor_div]
      obtain ⟨d, hd, hmod⟩ := fnv_drift hash bytes bytes' (by omega)
      have hbound : drift bytes.length ≤ 96727110 := by
        have hlen : bytes.length ≤ 3 := by omega
        interval_cases bytes.length <;> decide
      have hfront : fnv hash bytes = fnv hash bytes' := by
        have hsmall : |435 * d - ((fnv hash bytes : Int) - fnv hash bytes')| < 2 ^ 40 := by
          rw [abs_le] at hd
          rw [abs_lt]
          omega
        have hzero := Int.eq_zero_of_abs_lt_dvd hmod.dvd hsmall
        omega
      have hbyte : byte = byte' := by
        rw [hfront] at hxor
        apply UInt8.toNat_inj.mp
        simpa [← Nat.xor_assoc] using congrArg (fnv hash bytes' ^^^ ·) hxor
      rw [ih bytes' (by omega) (by omega) hfront, hbyte]

/-! ### Texts and words as bytes -/

def asBytes (text : String) : List UInt8 := text.toByteArray.data.toList

def terminator : UInt8 := 0xff

def toLeBytes (word : UInt32) : List UInt8 :=
  [UInt8.ofNat (word.toNat % 256), UInt8.ofNat (word.toNat / 256 % 256),
    UInt8.ofNat (word.toNat / 65536 % 256), UInt8.ofNat (word.toNat / 16777216 % 256)]

theorem asBytes_inj {text text' : String} (h : asBytes text = asBytes text') : text = text' := by
  apply String.toByteArray_inj.mp
  apply ByteArray.ext
  exact Array.toList_inj.mp h

/-- No character has the terminator in its UTF-8 form. -/
theorem terminator_notMem_utf8EncodeChar (c : Char) : terminator ∉ String.utf8EncodeChar c := by
  intro h
  unfold String.utf8EncodeChar at h
  have hbyte : ∀ n : Nat, n < 255 → terminator ≠ UInt8.ofNat n := by
    intro n hn heq
    have := congrArg UInt8.toNat heq
    rw [UInt8.toNat_ofNat', Nat.mod_eq_of_lt (by omega)] at this
    change 255 = n at this
    omega
  dsimp only at h
  split at h
  · rename_i hv
    rw [List.mem_singleton] at h
    exact hbyte _ (by omega) h
  · split at h
    · simp only [List.mem_cons, List.not_mem_nil, or_false] at h
      rcases h with h | h
      · exact hbyte _ (by omega) h
      · exact hbyte _ (by omega) h
    · split at h
      · simp only [List.mem_cons, List.not_mem_nil, or_false] at h
        rcases h with h | h | h
        · exact hbyte _ (by omega) h
        · exact hbyte _ (by omega) h
        · exact hbyte _ (by omega) h
      · simp only [List.mem_cons, List.not_mem_nil, or_false] at h
        rcases h with h | h | h | h
        · exact hbyte _ (by omega) h
        · exact hbyte _ (by omega) h
        · exact hbyte _ (by omega) h
        · exact hbyte _ (by omega) h

theorem terminator_notMem (text : String) : terminator ∉ asBytes text := by
  obtain ⟨chars, rfl⟩ := text.exists_eq_ofList
  unfold asBytes
  rw [String.toByteArray_ofList, List.utf8Encode]
  simp only [List.data_toByteArray]
  rw [List.mem_flatMap]
  rintro ⟨c, -, hc⟩
  exact terminator_notMem_utf8EncodeChar c hc

/-- A byte and the number above it determine the number from the byte on. -/
theorem byte_step (k : Nat) {m n : Nat}
    (hbyte : UInt8.ofNat (m / 2 ^ k % 256) = UInt8.ofNat (n / 2 ^ k % 256))
    (habove : m / 2 ^ (k + 8) = n / 2 ^ (k + 8)) : m / 2 ^ k = n / 2 ^ k := by
  have hsplit : ∀ a : Nat, a / 2 ^ (k + 8) = a / 2 ^ k / 256 := by
    intro a
    rw [Nat.div_div_eq_div_mul, Nat.pow_add]
  have hlow := congrArg UInt8.toNat hbyte
  rw [UInt8.toNat_ofNat', UInt8.toNat_ofNat'] at hlow
  rw [hsplit, hsplit] at habove
  omega

theorem toLeBytes_inj {word word' : UInt32} (h : toLeBytes word = toLeBytes word') : word = word' := by
  simp only [toLeBytes, List.cons.injEq, and_true] at h
  obtain ⟨h₀, h₁, h₂, h₃⟩ := h
  have hlast : word.toNat / 2 ^ 32 = word'.toNat / 2 ^ 32 := by
    rw [Nat.div_eq_of_lt word.toNat_lt, Nat.div_eq_of_lt word'.toNat_lt]
  have hall := byte_step 0 (by simpa using h₀)
    (byte_step 8 h₁ (byte_step 16 h₂ (byte_step 24 h₃ hlast)))
  apply UInt32.toNat_inj.mp
  simpa only [Nat.pow_zero, Nat.div_one] using hall

theorem toLeBytes_length (word : UInt32) : (toLeBytes word).length = 4 := rfl

/-- Terminated texts can be told apart within a longer byte string. -/
theorem terminated_inj {text text' : String} {rest rest' : List UInt8}
    (h : asBytes text ++ terminator :: rest = asBytes text' ++ terminator :: rest') :
    text = text' ∧ rest = rest' := by
  have hsplit : ∀ bytes bytes' : List UInt8, terminator ∉ bytes → terminator ∉ bytes' →
      bytes ++ terminator :: rest = bytes' ++ terminator :: rest' → bytes = bytes' ∧ rest = rest' := by
    intro bytes
    induction bytes with
    | nil =>
        intro bytes' _ hnot heq
        cases bytes' with
        | nil => exact ⟨rfl, (List.cons.inj heq).2⟩
        | cons b bytes' =>
            have hb : terminator = b := (List.cons.inj heq).1
            exact absurd (hb ▸ List.mem_cons_self) hnot
    | cons b bytes ih =>
        intro bytes' hnot hnot' heq
        cases bytes' with
        | nil =>
            have hb : b = terminator := (List.cons.inj heq).1
            exact absurd (hb ▸ List.mem_cons_self) hnot
        | cons b' bytes' =>
            obtain ⟨hb, hrest⟩ := List.cons.inj heq
            obtain ⟨hbytes, hr⟩ := ih bytes' (fun hm => hnot (List.mem_cons_of_mem _ hm))
              (fun hm => hnot' (List.mem_cons_of_mem _ hm)) hrest
            rw [hb, hbytes]
            exact ⟨rfl, hr⟩
  obtain ⟨htext, hrest⟩ := hsplit _ _ (terminator_notMem text) (terminator_notMem text') h
  exact ⟨asBytes_inj htext, hrest⟩

end Harc.FnvHash
