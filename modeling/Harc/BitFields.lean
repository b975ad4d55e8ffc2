import Mathlib.Data.Nat.Bitwise
import Mathlib.Tactic.Positivity

/-!
Bit fields of natural numbers, and the frame laws of accesses to them.
-/

namespace Harc.BitFields

/-- The bits from `lo` on, `width` of them. -/
def field (lo width x : Nat) : Nat :=
  x / 2 ^ lo % 2 ^ width

theorem testBit_field (lo width x i : Nat) :
    (field lo width x).testBit i = (decide (i < width) && x.testBit (lo + i)) := by
  rw [field, Nat.testBit_mod_two_pow, Nat.testBit_div_two_pow, Nat.add_comm]

theorem eq_field_iff {lo width x y : Nat} :
    y = field lo width x ↔ ∀ i, y.testBit i = (decide (i < width) && x.testBit (lo + i)) := by
  constructor
  · rintro rfl i
    exact testBit_field lo width x i
  · intro h
    refine Nat.eq_of_testBit_eq fun i => ?_
    rw [h, testBit_field]

theorem field_congr {lo width x y : Nat}
    (h : ∀ i, i < width → x.testBit (lo + i) = y.testBit (lo + i)) :
    field lo width x = field lo width y := by
  rw [eq_field_iff]
  intro i
  rw [testBit_field]
  rcases Nat.lt_or_ge i width with hi | hi
  · rw [h i hi]
  · rw [decide_eq_false (by omega), Bool.false_and, Bool.false_and]

/-- `after` is `before` with the bits of `value` in a field. -/
def Writes (lo width value before after : Nat) : Prop :=
  ∀ i, after.testBit i =
    if lo ≤ i ∧ i < lo + width then value.testBit (i - lo) else before.testBit i

section Writes

variable {lo width value before after : Nat} (h : Writes lo width value before after)

include h

theorem Writes.field_eq : field lo width after = value % 2 ^ width := by
  refine Nat.eq_of_testBit_eq fun i => ?_
  rw [testBit_field, Nat.testBit_mod_two_pow, h]
  rcases Nat.lt_or_ge i width with hi | hi
  · rw [if_pos (by omega), Nat.add_sub_cancel_left]
  · rw [decide_eq_false (by omega), Bool.false_and, Bool.false_and]

theorem Writes.field_apart {lo' width' : Nat}
    (hapart : lo' + width' ≤ lo ∨ lo + width ≤ lo') :
    field lo' width' after = field lo' width' before := by
  refine field_congr fun i hi => ?_
  rw [h, if_neg (by omega)]

theorem Writes.eq_self (hvalue : value % 2 ^ width = field lo width before) : after = before := by
  refine Nat.eq_of_testBit_eq fun i => ?_
  rw [h]
  split_ifs with hi
  · have hbit := congrArg (Nat.testBit · (i - lo)) hvalue
    simp only [Nat.testBit_mod_two_pow, testBit_field] at hbit
    rwa [decide_eq_true (by omega), Bool.true_and, Bool.true_and,
      show lo + (i - lo) = i by omega] at hbit
  · rfl

end Writes

/-! A carrier is accessed through fields; what is written and read are values with a number. -/

/-- Where a field lies. -/
structure Span where
  lo : Nat
  width : Nat

def Span.Apart (s t : Span) : Prop :=
  t.lo + t.width ≤ s.lo ∨ s.lo + s.width ≤ t.lo

structure Writer (C V F : Type) where
  span : F → Span
  Admits : F → Prop
  write : F → V → C → C

structure Reader (C V F : Type) where
  span : F → Span
  Admits : F → Prop
  read : F → C → V

/-- The frame laws, for fields that are the same or apart: what is read is what was written,
reduced to the width; other fields keep their values; and a field that is written back does not
change the carrier.  Values that do not fit a width are not written. -/
structure Framed {C V F G : Type} (number : V → Int) (fits : Nat → V → Prop) (width : F → Nat)
    (same apart : F → G → Prop) (admitsWrite : F → Prop) (write : F → V → C → C)
    (admitsRead : G → Prop) (read : G → C → V) : Prop where
  read_write : ∀ f v g c, admitsWrite f → fits (width f) v → admitsRead g → same f g →
    number (read g (write f v c)) = number v % 2 ^ width f
  read_apart : ∀ f v g c, admitsWrite f → fits (width f) v → admitsRead g → apart f g →
    read g (write f v c) = read g c
  write_read : ∀ f g c, admitsWrite f → admitsRead g → same f g → write f (read g c) c = c

/-- The frame laws of fields that lie in one pattern of bits. -/
def Framed.onSpans {C V F G : Type} (number : V → Int) (fits : Nat → V → Prop)
    (w : Writer C V F) (r : Reader C V G) : Prop :=
  Framed number fits (fun f => (w.span f).width) (fun f g => w.span f = r.span g)
    (fun f g => (w.span f).Apart (r.span g)) w.Admits w.write r.Admits r.read

section Lawful

variable {C V F G : Type} (bits : C → Nat) (number : V → Int) (fits : Nat → V → Prop)

def Writer.Lawful (w : Writer C V F) : Prop :=
  ∀ f v c, w.Admits f → fits (w.span f).width v →
    Writes (w.span f).lo (w.span f).width (number v % 2 ^ (w.span f).width).toNat
      (bits c) (bits (w.write f v c))

structure Reader.Lawful (r : Reader C V G) : Prop where
  reads : ∀ g c, r.Admits g → number (r.read g c) = field (r.span g).lo (r.span g).width (bits c)
  depends : ∀ g c d, r.Admits g →
    field (r.span g).lo (r.span g).width (bits c) =
      field (r.span g).lo (r.span g).width (bits d) → r.read g c = r.read g d
  fits : ∀ g c, r.Admits g → fits (r.span g).width (r.read g c)

variable {bits number fits}

theorem toNat_emod_lt (z : Int) (width : Nat) : (z % 2 ^ width).toNat < 2 ^ width := by
  have hlt : z % 2 ^ width < 2 ^ width := Int.emod_lt_of_pos z (by positivity)
  have hpow : ((2 ^ width : Nat) : Int) = 2 ^ width := by push_cast; rfl
  omega

theorem natCast_toNat_emod (z : Int) (width : Nat) :
    ((z % 2 ^ width).toNat : Int) = z % 2 ^ width :=
  Int.toNat_of_nonneg (Int.emod_nonneg z (by positivity))

/-- A writer and a reader that follow the bits satisfy the frame laws. -/
theorem framed_of_lawful {w : Writer C V F} {r : Reader C V G}
    (hbits : ∀ c d, bits c = bits d → c = d) (hw : w.Lawful bits number fits)
    (hr : r.Lawful bits number fits) : Framed.onSpans number fits w r where
  read_write := by
    intro f v g c hf hv hg hsame
    rw [hr.reads g _ hg, ← hsame, (hw f v c hf hv).field_eq,
      Nat.mod_eq_of_lt (toNat_emod_lt _ _), natCast_toNat_emod]
  read_apart := by
    intro f v g c hf hv hg hapart
    exact hr.depends g _ _ hg ((hw f v c hf hv).field_apart hapart)
  write_read := by
    intro f g c hf hg hsame
    have hfits : fits (w.span f).width (r.read g c) := hsame ▸ hr.fits g c hg
    refine hbits _ _ ((hw f _ c hf hfits).eq_self ?_)
    rw [Nat.mod_eq_of_lt (toNat_emod_lt _ _), hr.reads g c hg, hsame, field]
    have hcast : ((2 : Int) ^ (r.span g).width) = ((2 ^ (r.span g).width : Nat) : Int) := by
      push_cast
      rfl
    rw [hcast, ← Int.natCast_emod, Int.toNat_natCast, Nat.mod_mod]

end Lawful

end Harc.BitFields
