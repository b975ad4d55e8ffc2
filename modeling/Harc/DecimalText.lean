import Mathlib.Data.Nat.Digits.Defs

/-!
Decimal text in chunks of digits.
-/

namespace Harc.DecimalText

open Nat (toDigits)

/-- The decimal digits, filled up with zeros on the left. -/
def padded (width n : Nat) : List Char :=
  List.replicate (width - (toDigits 10 n).length) '0' ++ toDigits 10 n

theorem padded_one {r : Nat} (hr : r < 10) : padded 1 r = toDigits 10 r := by
  rw [padded, Nat.toDigits_of_lt_base hr]
  rfl

theorem padded_succ (k r : Nat) :
    padded (k + 2) r = padded (k + 1) (r / 10) ++ toDigits 10 (r % 10) := by
  have hlast : r % 10 < 10 := Nat.mod_lt r (by omega)
  rcases Nat.lt_or_ge r 10 with hr | hr
  · rw [Nat.div_eq_of_lt hr, Nat.mod_eq_of_lt hr, padded, padded, Nat.toDigits_of_lt_base hr,
      Nat.toDigits_zero]
    exact congrArg (· ++ [r.digitChar]) List.replicate_succ'
  · rw [padded, Nat.toDigits_of_base_le (by omega) hr, padded, Nat.toDigits_of_lt_base hlast,
      List.length_append, List.length_singleton, List.append_assoc,
      show k + 2 - ((toDigits 10 (r / 10)).length + 1) =
        k + 1 - (toDigits 10 (r / 10)).length by omega]

theorem toDigits_append_padded (k : Nat) {q r : Nat} (hq : 0 < q) (hr : r < 10 ^ (k + 1)) :
    toDigits 10 q ++ padded (k + 1) r = toDigits 10 (10 ^ (k + 1) * q + r) := by
  induction k generalizing r with
  | zero =>
      have hdigit : r < 10 := by simpa using hr
      rw [Nat.zero_add, padded_one hdigit, Nat.toDigits_append_toDigits (by omega) hq hdigit,
        pow_one]
  | succ k ih =>
      have hpow : 10 ^ (k + 1 + 1) = 10 ^ (k + 1) * 10 := pow_succ 10 (k + 1)
      have hhigh : r / 10 < 10 ^ (k + 1) := by omega
      have hpos : 0 < 10 ^ (k + 1) * q + r / 10 := by positivity
      have hsplit : 10 ^ (k + 1 + 1) * q + r = 10 * (10 ^ (k + 1) * q + r / 10) + r % 10 := by
        rw [hpow, Nat.mul_add, ← Nat.mul_assoc, Nat.mul_comm 10 (10 ^ (k + 1)), Nat.add_assoc,
          Nat.div_add_mod]
      rw [padded_succ, ← List.append_assoc, ih hhigh, hsplit,
        Nat.toDigits_append_toDigits (by omega) hpos (Nat.mod_lt r (by omega))]

/-- The number that chunks of `k` digits denote, the lowest one first. -/
def chunkValue (k : Nat) (chunks : List Nat) : Nat :=
  chunks.foldr (fun d rest => d + 10 ^ k * rest) 0

/-- The text of the chunks: the highest one as it is, then the others filled up. -/
def chunkText (k : Nat) (chunks : List Nat) : List Char :=
  match chunks.reverse with
  | [] => []
  | first :: rest => toDigits 10 first ++ rest.flatMap (padded k)

theorem chunkText_singleton (k d : Nat) : chunkText k [d] = toDigits 10 d :=
  List.append_nil _

theorem chunkText_cons {k d : Nat} {chunks : List Nat} (h : chunks ≠ []) :
    chunkText k (d :: chunks) = chunkText k chunks ++ padded k d := by
  obtain ⟨first, rest, hreverse⟩ := List.exists_cons_of_ne_nil (List.reverse_ne_nil_iff.mpr h)
  rw [chunkText, chunkText, List.reverse_cons, hreverse]
  simp

/-- Chunks below the base whose highest is not zero print the number. -/
theorem chunkText_eq {k : Nat} {chunks : List Nat} (hne : chunks ≠ [])
    (hlt : ∀ d ∈ chunks, d < 10 ^ (k + 1)) (hlast : chunks.getLast hne ≠ 0) :
    0 < chunkValue (k + 1) chunks ∧
      chunkText (k + 1) chunks = toDigits 10 (chunkValue (k + 1) chunks) := by
  induction chunks with
  | nil => exact absurd rfl hne
  | cons d chunks ih =>
      rcases eq_or_ne chunks [] with rfl | hchunks
      · have hd : d ≠ 0 := hlast
        rw [chunkText_singleton]
        simp [chunkValue]
        omega
      · obtain ⟨hpos, htext⟩ := ih hchunks (fun x hx => hlt x (List.mem_cons_of_mem d hx))
          (by rwa [List.getLast_cons hchunks] at hlast)
        have hvalue : chunkValue (k + 1) (d :: chunks) =
            10 ^ (k + 1) * chunkValue (k + 1) chunks + d := Nat.add_comm _ _
        refine ⟨by rw [hvalue]; positivity, ?_⟩
        rw [chunkText_cons hchunks, htext, hvalue,
          toDigits_append_padded k hpos (hlt d List.mem_cons_self)]

end Harc.DecimalText
