import Mathlib.Data.Nat.Size
import Mathlib.Tactic.Ring

/-!
Numbers written with digits in a base, the highest digit first.
-/

namespace Harc.PositionalDigits

def digitsValue (base : Nat) (digits : List Nat) : Nat :=
  digits.foldl (fun acc d => acc * base + d) 0

section

variable {base : Nat}

theorem foldl_digits (digits : List Nat) (acc : Nat) :
    digits.foldl (fun acc d => acc * base + d) acc =
      acc * base ^ digits.length + digitsValue base digits := by
  induction digits generalizing acc with
  | nil => simp [digitsValue]
  | cons d digits ih =>
      have hcons : digitsValue base (d :: digits) =
          digits.foldl (fun acc d => acc * base + d) (0 * base + d) := rfl
      rw [List.foldl_cons, ih, hcons, ih, List.length_cons, pow_succ]
      ring

@[simp] theorem digitsValue_nil : digitsValue base [] = 0 := rfl

theorem digitsValue_cons (d : Nat) (digits : List Nat) :
    digitsValue base (d :: digits) = d * base ^ digits.length + digitsValue base digits := by
  rw [digitsValue, List.foldl_cons, foldl_digits, Nat.zero_mul, Nat.zero_add]

theorem digitsValue_lt {digits : List Nat} (h : ∀ d ∈ digits, d < base) :
    digitsValue base digits < base ^ digits.length := by
  induction digits with
  | nil => simp
  | cons d digits ih =>
      have hd := h d List.mem_cons_self
      have hrest := ih fun x hx => h x (List.mem_cons_of_mem d hx)
      rw [digitsValue_cons, List.length_cons, pow_succ]
      calc d * base ^ digits.length + digitsValue base digits
          < d * base ^ digits.length + base ^ digits.length := Nat.add_lt_add_left hrest _
        _ = (d + 1) * base ^ digits.length := by ring
        _ ≤ base * base ^ digits.length := Nat.mul_le_mul_right _ hd
        _ = base ^ digits.length * base := Nat.mul_comm _ _

/-- Leading zeros do not count. -/
theorem digitsValue_dropWhile (digits : List Nat) :
    digitsValue base (digits.dropWhile (· == 0)) = digitsValue base digits := by
  induction digits with
  | nil => rfl
  | cons d digits ih =>
      rw [List.dropWhile_cons]
      split_ifs with hd
      · rw [ih, digitsValue_cons, beq_iff_eq.mp hd, Nat.zero_mul, Nat.zero_add]
      · rfl

theorem digitsValue_pos {d : Nat} {digits : List Nat} (hbase : 0 < base) (hd : d ≠ 0) :
    0 < digitsValue base (d :: digits) := by
  rw [digitsValue_cons]
  have := Nat.mul_pos (Nat.pos_of_ne_zero hd) (Nat.pow_pos hbase (n := digits.length))
  omega

end

/-- The bits of a number behind `m` lower ones. -/
theorem size_mul_two_pow_add {d m r : Nat} (hd : d ≠ 0) (hr : r < 2 ^ m) :
    Nat.size (d * 2 ^ m + r) = m + Nat.size d := by
  have hlow : 2 ^ (Nat.size d - 1) ≤ d := by
    have hpos : 0 < Nat.size d := Nat.size_pos.mpr (Nat.pos_of_ne_zero hd)
    exact Nat.lt_size.mp (by omega)
  have hhigh : d < 2 ^ Nat.size d := Nat.lt_size_self d
  have hpos : 0 < Nat.size d := Nat.size_pos.mpr (Nat.pos_of_ne_zero hd)
  refine Nat.le_antisymm (Nat.size_le.mpr ?_) ?_
  · calc d * 2 ^ m + r < d * 2 ^ m + 2 ^ m := Nat.add_lt_add_left hr _
      _ = (d + 1) * 2 ^ m := by ring
      _ ≤ 2 ^ Nat.size d * 2 ^ m := Nat.mul_le_mul_right _ hhigh
      _ = 2 ^ (m + Nat.size d) := by rw [pow_add, Nat.mul_comm]
  · have hlt : m + Nat.size d - 1 < Nat.size (d * 2 ^ m + r) := by
      rw [Nat.lt_size]
      calc 2 ^ (m + Nat.size d - 1) = 2 ^ (Nat.size d - 1) * 2 ^ m := by
            rw [← pow_add]
            congr 1
            omega
        _ ≤ d * 2 ^ m := Nat.mul_le_mul_right _ hlow
        _ ≤ d * 2 ^ m + r := Nat.le_add_right _ _
    omega

/-- The bits of a number whose base is a power of two. -/
theorem size_digitsValue {k d : Nat} {digits : List Nat} (hd : d ≠ 0)
    (h : ∀ x ∈ digits, x < 2 ^ k) :
    Nat.size (digitsValue (2 ^ k) (d :: digits)) = digits.length * k + Nat.size d := by
  have hrest := digitsValue_lt h
  rw [digitsValue_cons, ← pow_mul, Nat.mul_comm k]
  rw [← pow_mul, Nat.mul_comm k] at hrest
  exact size_mul_two_pow_add hd hrest

end Harc.PositionalDigits
