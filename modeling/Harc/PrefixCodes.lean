import Mathlib.Data.List.Basic
import Mathlib.Algebra.Order.Ring.Int

/-!
Prefix codes: spellings that can be read off the front of a text, whatever follows. Decimal
numbers before a separator and names after their length are such spellings, and so are
spellings put together from others.
-/

namespace Harc.PrefixCodes

abbrev Text := List Char

/-- No spelling is continued by another one. -/
def PrefixFree {α : Type} (code : α → Text) : Prop :=
  ∀ {a b : α} {x y : Text}, code a ++ x = code b ++ y → a = b ∧ x = y

namespace PrefixFree

variable {α β : Type} {code : α → Text} {code' : β → Text}

theorem injective (h : PrefixFree code) {a b : α} (heq : code a = code b) : a = b := by
  have happend : code a ++ [] = code b ++ [] := by rw [heq]
  exact (h happend).1

theorem literal (h : PrefixFree code) (text : Text) : PrefixFree fun a => text ++ code a := by
  intro a b x y heq
  rw [List.append_assoc, List.append_assoc] at heq
  exact h (List.append_cancel_left heq)

theorem append (h : PrefixFree code) (h' : PrefixFree code') :
    PrefixFree fun p : α × β => code p.1 ++ code' p.2 := by
  rintro ⟨a, b⟩ ⟨a', b'⟩ x y heq
  rw [List.append_assoc, List.append_assoc] at heq
  obtain ⟨rfl, hrest⟩ := h heq
  obtain ⟨rfl, hxy⟩ := h' hrest
  exact ⟨rfl, hxy⟩

end PrefixFree

/-! ### Numbers -/

theorem toDigits_injective {m n : Nat} (h : Nat.toDigits 10 m = Nat.toDigits 10 n) : m = n := by
  calc m = Nat.ofDigitChars 10 (Nat.toDigits 10 m) 0 := Nat.ofDigitChars_ten_toDigits.symm
    _ = Nat.ofDigitChars 10 (Nat.toDigits 10 n) 0 := by rw [h]
    _ = n := Nat.ofDigitChars_ten_toDigits

/-- The digits are those up to the first character that is no digit. -/
theorem takeWhile_toDigits (n : Nat) {rest : Text} (hrest : rest.takeWhile Char.isDigit = []) :
    (Nat.toDigits 10 n ++ rest).takeWhile Char.isDigit = Nat.toDigits 10 n := by
  rw [List.takeWhile_append_of_pos
    fun c hc => Nat.isDigit_of_mem_toDigits (by decide) (by decide) hc, hrest, List.append_nil]

theorem toDigits_append_inj {m n : Nat} {x y : Text} (hx : x.takeWhile Char.isDigit = [])
    (hy : y.takeWhile Char.isDigit = [])
    (h : Nat.toDigits 10 m ++ x = Nat.toDigits 10 n ++ y) : m = n ∧ x = y := by
  have hdigits : Nat.toDigits 10 m = Nat.toDigits 10 n := by
    rw [← takeWhile_toDigits m hx, h, takeWhile_toDigits n hy]
  rw [hdigits] at h
  exact ⟨toDigits_injective hdigits, List.append_cancel_left h⟩

/-- A number before a separator. -/
theorem prefixFree_number {c : Char} (hc : c.isDigit = false) :
    PrefixFree fun n => Nat.toDigits 10 n ++ [c] := by
  intro m n x y h
  rw [List.append_assoc, List.append_assoc] at h
  have hstop : ∀ z : Text, ([c] ++ z).takeWhile Char.isDigit = [] := by
    intro z
    rw [List.singleton_append, List.takeWhile_cons_of_neg (by rw [hc]; exact Bool.false_ne_true)]
  obtain ⟨rfl, hrest⟩ := toDigits_append_inj (hstop x) (hstop y) h
  exact ⟨rfl, List.append_cancel_left hrest⟩

/-! ### Names after their length -/

def byteLength (name : Text) : Nat := (name.map Char.utf8Size).sum

theorem eq_nil_of_byteLength {name : Text} (h : byteLength name = 0) : name = [] := by
  cases name with
  | nil => rfl
  | cons c rest =>
      have hpos := Char.utf8Size_pos c
      rw [byteLength, List.map_cons, List.sum_cons] at h
      omega

theorem byteLength_append (a b : Text) : byteLength (a ++ b) = byteLength a + byteLength b := by
  rw [byteLength, List.map_append, List.sum_append]
  rfl

theorem append_inj_of_byteLength {a b x y : Text} (h : a ++ x = b ++ y)
    (hlength : byteLength a = byteLength b) : a = b ∧ x = y := by
  rcases List.append_eq_append_iff.mp h with ⟨more, rfl, rfl⟩ | ⟨more, rfl, rfl⟩
  · rw [byteLength_append] at hlength
    obtain rfl := eq_nil_of_byteLength (by omega : byteLength more = 0)
    exact ⟨(List.append_nil a).symm, rfl⟩
  · rw [byteLength_append] at hlength
    obtain rfl := eq_nil_of_byteLength (by omega : byteLength more = 0)
    exact ⟨List.append_nil b, rfl⟩

/-- A name after its length and an underscore. -/
def counted (name : Text) : Text := Nat.toDigits 10 (byteLength name) ++ '_' :: name

theorem prefixFree_counted : PrefixFree counted := by
  intro a b x y h
  have hnumber : ∀ name z : Text,
      counted name ++ z = (Nat.toDigits 10 (byteLength name) ++ ['_']) ++ (name ++ z) := by
    intro name z
    rw [counted, List.append_assoc, List.append_assoc, List.cons_append, List.singleton_append]
  rw [hnumber, hnumber] at h
  obtain ⟨hlength, hrest⟩ := prefixFree_number (by decide) h
  exact append_inj_of_byteLength hrest hlength

/-! ### Literal texts -/

/-- Texts that go on from literals have literals of which one is a prefix of the other. -/
theorem prefix_total {a b x y : Text} (h : a ++ x = b ++ y) : a <+: b ∨ b <+: a := by
  rcases List.append_eq_append_iff.mp h with ⟨more, rfl, -⟩ | ⟨more, rfl, -⟩
  · exact .inl (List.prefix_append a more)
  · exact .inr (List.prefix_append b more)

end Harc.PrefixCodes
