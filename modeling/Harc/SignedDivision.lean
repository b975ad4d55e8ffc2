import Harc.TwosComplement

/-!
Signed division at a width by way of the magnitudes, over any type of carriers that denote
natural numbers.  The low bits of a carrier are a pattern of the width; a carrier without
other bits holds the pattern.
-/

namespace Harc.SignedDivision

open Harc.TwosComplement

/-- The operations on carriers that signed division is made of. -/
structure Tier (α : Type) where
  toNat : α → Nat
  zero : α
  /-- the low bits -/
  mask : α → Nat → α
  isZero : α → Bool
  /-- the highest bit of a width -/
  signBit : α → Nat → Bool
  negate : α → Nat → α
  div : α → α → α
  rem : α → α → α
  isMin : α → Nat → Bool
  isMinusOne : α → Nat → Bool

/-- A result with the fault that was reported on the way. -/
structure Checked (α : Type) where
  fault : Option String
  value : α

/-- An operation behind a test of its right operand. -/
def guardZero {α : Type} (isZero : α → Bool) (zero : α) (op : α → α → α) (message : String)
    (lhs rhs : α) : Checked α :=
  if isZero rhs then ⟨some message, zero⟩ else ⟨none, op lhs rhs⟩

/-- An operation on naturals whose right operand is zero exactly in case of a fault. -/
def Guarded {α : Type} (toNat : α → Nat) (f : α → α → Checked α) (op : Nat → Nat → Nat) : Prop :=
  ∀ lhs rhs, ((f lhs rhs).fault ≠ none ↔ toNat rhs = 0) ∧
    ((f lhs rhs).fault = none → toNat (f lhs rhs).value = op (toNat lhs) (toNat rhs))

theorem guarded_guardZero {α : Type} {toNat : α → Nat} {isZero : α → Bool} {zero : α}
    {op : α → α → α} {nop : Nat → Nat → Nat} (message : String)
    (hzero : ∀ c, isZero c = true ↔ toNat c = 0)
    (hop : ∀ c d, toNat d ≠ 0 → toNat (op c d) = nop (toNat c) (toNat d)) :
    Guarded toNat (guardZero isZero zero op message) nop := by
  intro lhs rhs
  rw [guardZero, ← hzero]
  split_ifs with h
  · exact ⟨by simp [h], by simp⟩
  · refine ⟨by simp [h], fun _ => hop lhs rhs ?_⟩
    rwa [Ne, ← hzero]

namespace Tier

variable {α : Type} (t : Tier α)

def magnitude (c : α) (width : Nat) : α :=
  if t.signBit c width then t.negate c width else c

def sdiv (lhs rhs : α) (width : Nat) : α :=
  let lhs := t.mask lhs width
  let rhs := t.mask rhs width
  if t.isZero rhs || width == 0 then t.zero
  else
    let quotient := t.div (t.magnitude lhs width) (t.magnitude rhs width)
    if t.signBit lhs width != t.signBit rhs width then t.negate quotient width else quotient

def smod (lhs rhs : α) (width : Nat) : α :=
  let lhs := t.mask lhs width
  let rhs := t.mask rhs width
  if t.isZero rhs || width == 0 then lhs
  else
    let remainder := t.rem (t.magnitude lhs width) (t.magnitude rhs width)
    if t.signBit lhs width then t.negate remainder width else remainder

def sdivChecked (zeroMessage overflowMessage : String) (lhs rhs : α) (width : Nat) :
    Checked α :=
  if t.isZero (t.mask rhs width) then ⟨some zeroMessage, t.zero⟩
  else if t.isMinusOne rhs width && t.isMin lhs width then
    ⟨some overflowMessage, t.mask lhs width⟩
  else ⟨none, t.sdiv lhs rhs width⟩

def smodChecked (zeroMessage overflowMessage : String) (lhs rhs : α) (width : Nat) :
    Checked α :=
  if t.isZero (t.mask rhs width) then ⟨some zeroMessage, t.zero⟩
  else if t.isMinusOne rhs width && t.isMin lhs width then ⟨some overflowMessage, t.zero⟩
  else ⟨none, t.smod lhs rhs width⟩

/-- The operations do what they are named after, at a width. -/
structure Lawful (width : Nat) : Prop where
  zero : t.toNat t.zero = 0
  mask : ∀ c, t.toNat (t.mask c width) = t.toNat c % 2 ^ width
  isZero : ∀ c, t.isZero c = true ↔ t.toNat c = 0
  signBit : ∀ c, t.toNat c < 2 ^ width → t.signBit c width = decide (2 ^ (width - 1) ≤ t.toNat c)
  negate : ∀ c, t.toNat c < 2 ^ width →
    t.toNat (t.negate c width) = (2 ^ width - t.toNat c) % 2 ^ width
  div : ∀ c d, t.toNat d ≠ 0 → t.toNat (t.div c d) = t.toNat c / t.toNat d
  rem : ∀ c d, t.toNat d ≠ 0 → t.toNat (t.rem c d) = t.toNat c % t.toNat d
  isMin : ∀ c, t.isMin c width = true ↔ t.toNat c % 2 ^ width = 2 ^ (width - 1)
  isMinusOne : ∀ c, t.isMinusOne c width = true ↔ t.toNat c % 2 ^ width = 2 ^ width - 1

/-- The low bits of a carrier. -/
def pattern (c : α) (width : Nat) : BitVec width :=
  BitVec.ofNat width (t.toNat c)

/-- The carrier is the pattern, without other bits. -/
def Holds {width : Nat} (c : α) (x : BitVec width) : Prop :=
  t.toNat c = x.toNat

variable {t} {width : Nat} {c d : α} {x y : BitVec width}

theorem Holds.pattern_eq (h : t.Holds c x) : t.pattern c width = x := by
  rw [pattern, h, BitVec.ofNat_toNat, BitVec.setWidth_eq]

theorem magnitude_ne_zero (h : x ≠ BitVec.ofNat width 0) :
    (if x.msb then -x else x) ≠ BitVec.ofNat width 0 := by
  split
  · intro hneg
    exact h (BitVec.neg_eq_zero_iff.mp hneg)
  · exact h

section

variable (ht : t.Lawful width)

include ht

theorem holds_mask (c : α) : t.Holds (t.mask c width) (t.pattern c width) := by
  rw [Holds, ht.mask, pattern, BitVec.toNat_ofNat]

theorem signBit_eq (h : t.Holds c x) : t.signBit c width = x.msb := by
  have hlt : t.toNat c < 2 ^ width := lt_of_eq_of_lt h x.isLt
  rw [ht.signBit c hlt, BitVec.msb_eq_decide, h]

theorem holds_negate (h : t.Holds c x) : t.Holds (t.negate c width) (-x) := by
  have hlt : t.toNat c < 2 ^ width := lt_of_eq_of_lt h x.isLt
  rw [Holds, ht.negate c hlt, BitVec.toNat_neg, h]

theorem holds_magnitude (h : t.Holds c x) :
    t.Holds (t.magnitude c width) (if x.msb then -x else x) := by
  rw [magnitude, signBit_eq ht h]
  split
  · exact holds_negate ht h
  · exact h

theorem holds_div (hc : t.Holds c x) (hd : t.Holds d y) (hy : y ≠ BitVec.ofNat width 0) :
    t.Holds (t.div c d) (x.udiv y) := by
  have hne : t.toNat d ≠ 0 := by
    intro hzero
    apply hy
    rw [← BitVec.toNat_inj, ← hd, hzero]
    rfl
  rw [Holds, ht.div c d hne, hc, hd]
  rfl

theorem holds_rem (hc : t.Holds c x) (hd : t.Holds d y) (hy : y ≠ BitVec.ofNat width 0) :
    t.Holds (t.rem c d) (x.umod y) := by
  have hne : t.toNat d ≠ 0 := by
    intro hzero
    apply hy
    rw [← BitVec.toNat_inj, ← hd, hzero]
    rfl
  rw [Holds, ht.rem c d hne, hc, hd]
  rfl

theorem isZero_iff (h : t.Holds c x) :
    t.isZero c = true ↔ x = BitVec.ofNat width 0 := by
  rw [ht.isZero, h, ← BitVec.toNat_inj]
  rfl

/-- Division by way of the magnitudes is the signed division of the patterns. -/
theorem holds_sdiv (lhs rhs : α) :
    t.Holds (t.sdiv lhs rhs width) ((t.pattern lhs width).sdiv (t.pattern rhs width)) := by
  have hl := holds_mask ht lhs
  have hr := holds_mask ht rhs
  simp only [sdiv, Bool.or_eq_true, beq_iff_eq]
  split_ifs with hzero hsigns
  · rcases hzero with hzero | hwidth
    · rw [(isZero_iff ht hr).mp hzero, BitVec.sdiv_zero]
      exact ht.zero
    · subst hwidth
      rw [Holds, ht.zero, BitVec.of_length_zero (x := BitVec.sdiv _ _)]
      rfl
  all_goals
    obtain ⟨hne, -⟩ := not_or.mp hzero
    rw [isZero_iff ht hr] at hne
    have hquotient := holds_div ht (holds_magnitude ht hl) (holds_magnitude ht hr)
      (magnitude_ne_zero hne)
    rw [signBit_eq ht hl, signBit_eq ht hr] at hsigns
    rw [BitVec.sdiv_eq]
  · have hneg := holds_negate ht hquotient
    cases hx : (t.pattern lhs width).msb <;> cases hy : (t.pattern rhs width).msb <;>
      simp_all
  · cases hx : (t.pattern lhs width).msb <;> cases hy : (t.pattern rhs width).msb <;>
      simp_all

theorem holds_smod (lhs rhs : α) :
    t.Holds (t.smod lhs rhs width) ((t.pattern lhs width).srem (t.pattern rhs width)) := by
  have hl := holds_mask ht lhs
  have hr := holds_mask ht rhs
  simp only [smod, Bool.or_eq_true, beq_iff_eq]
  split_ifs with hzero hsign
  · rcases hzero with hzero | hwidth
    · rw [(isZero_iff ht hr).mp hzero, BitVec.srem_zero]
      exact hl
    · subst hwidth
      rw [Holds, hl, BitVec.of_length_zero (x := BitVec.srem _ _),
        BitVec.of_length_zero (x := t.pattern lhs 0)]
  all_goals
    obtain ⟨hne, -⟩ := not_or.mp hzero
    rw [isZero_iff ht hr] at hne
    have hrem := holds_rem ht (holds_magnitude ht hl) (holds_magnitude ht hr)
      (magnitude_ne_zero hne)
    rw [signBit_eq ht hl] at hsign
    rw [BitVec.srem_eq]
  · have hneg := holds_negate ht hrem
    cases hy : (t.pattern rhs width).msb <;> simp_all
  · cases hy : (t.pattern rhs width).msb <;> simp_all

end

end Tier

section Overflow

variable {width : Nat} {x y : BitVec width}

theorem inRange_toInt (hwidth : 0 < width) (x : BitVec width) : InRange (width - 1) x.toInt := by
  obtain ⟨k, rfl⟩ : ∃ k, width = k + 1 := ⟨width - 1, by omega⟩
  exact ⟨BitVec.le_toInt x, BitVec.toInt_lt⟩

/-- The only quotient that a width cannot hold. -/
theorem inRange_tdiv_iff (hwidth : 0 < width) :
    InRange (width - 1) (x.toInt.tdiv y.toInt) ↔
      ¬ (x = BitVec.intMin width ∧ y = -BitVec.ofNat width 1) := by
  constructor
  · rintro ⟨-, hlt⟩ ⟨rfl, rfl⟩
    rw [BitVec.toInt_intMin_of_pos hwidth, BitVec.neg_one_eq_allOnes, BitVec.toInt_allOnes,
      if_pos hwidth] at hlt
    simp at hlt
  · intro h
    rw [← BitVec.toInt_sdiv_of_ne_or_ne x y (not_and_or.mp h)]
    exact inRange_toInt hwidth _

end Overflow

namespace Tier

variable {α : Type} (t : Tier α)

/-- The value of the low bits as a signed number. -/
def signed (c : α) (width : Nat) : Int :=
  (t.pattern c width).toInt

/-- The quotients and remainders of a tier at a width, and its faults. -/
structure Exact (width : Nat) : Prop where
  sdiv : ∀ lhs rhs, t.signed rhs width ≠ 0 → (t.toNat (t.sdiv lhs rhs width) : Int) =
    (t.signed lhs width).tdiv (t.signed rhs width) % 2 ^ width
  smod : ∀ lhs rhs, t.signed rhs width ≠ 0 → (t.toNat (t.smod lhs rhs width) : Int) =
    (t.signed lhs width).tmod (t.signed rhs width) % 2 ^ width
  sdivFault : ∀ zeroMessage overflowMessage lhs rhs,
    (t.sdivChecked zeroMessage overflowMessage lhs rhs width).fault ≠ none ↔
      t.signed rhs width = 0 ∨
        ¬ InRange (width - 1) ((t.signed lhs width).tdiv (t.signed rhs width))
  smodFault : ∀ zeroMessage overflowMessage lhs rhs,
    (t.smodChecked zeroMessage overflowMessage lhs rhs width).fault ≠ none ↔
      t.signed rhs width = 0 ∨
        ¬ InRange (width - 1) ((t.signed lhs width).tdiv (t.signed rhs width))
  sdivValue : ∀ zeroMessage overflowMessage lhs rhs,
    (t.sdivChecked zeroMessage overflowMessage lhs rhs width).fault = none →
      (t.sdivChecked zeroMessage overflowMessage lhs rhs width).value = t.sdiv lhs rhs width
  smodValue : ∀ zeroMessage overflowMessage lhs rhs,
    (t.smodChecked zeroMessage overflowMessage lhs rhs width).fault = none →
      (t.smodChecked zeroMessage overflowMessage lhs rhs width).value = t.smod lhs rhs width

variable {t} {width : Nat}

theorem signed_eq_zero_iff {c : α} :
    t.signed c width = 0 ↔ t.pattern c width = BitVec.ofNat width 0 := by
  rw [signed, ← BitVec.toInt_inj, BitVec.toInt_zero]

theorem natCast_toNat_eq_emod (x : BitVec width) : (x.toNat : Int) = x.toInt % 2 ^ width := by
  have hpow : (2 : Int) ^ width = ((2 ^ width : Nat) : Int) := by
    push_cast
    rfl
  rw [hpow, BitVec.toInt_eq_toNat_bmod, Int.bmod_emod]
  exact (Int.emod_eq_of_lt (Int.natCast_nonneg _) (by exact_mod_cast x.isLt)).symm

section

variable (ht : t.Lawful width) (hwidth : 0 < width)

include ht hwidth

theorem isMin_iff (c : α) : t.isMin c width = true ↔ t.pattern c width = BitVec.intMin width := by
  have hpow : 2 ^ (width - 1) < 2 ^ width := Nat.pow_lt_pow_right (by omega) (by omega)
  rw [ht.isMin, ← BitVec.toNat_inj, pattern, BitVec.toNat_ofNat, BitVec.toNat_intMin,
    Nat.mod_eq_of_lt hpow]

omit hwidth in
theorem isMinusOne_iff (c : α) :
    t.isMinusOne c width = true ↔ t.pattern c width = -BitVec.ofNat width 1 := by
  rw [ht.isMinusOne, ← BitVec.toNat_inj, pattern, BitVec.toNat_ofNat, BitVec.neg_one_eq_allOnes,
    BitVec.toNat_allOnes]

/-- The two tests of a checked division. -/
theorem faults_iff (lhs rhs : α) :
    (t.isZero (t.mask rhs width) = true ∨
        (t.isMinusOne rhs width && t.isMin lhs width) = true) ↔
      t.signed rhs width = 0 ∨
        ¬ InRange (width - 1) ((t.signed lhs width).tdiv (t.signed rhs width)) := by
  rw [isZero_iff ht (holds_mask ht rhs), signed_eq_zero_iff, signed, signed,
    inRange_tdiv_iff hwidth, Bool.and_eq_true, isMinusOne_iff ht, isMin_iff ht hwidth,
    not_not, and_comm (a := t.pattern rhs width = _)]

theorem exact_of_lawful : t.Exact width where
  sdiv := by
    intro lhs rhs _
    have hholds := holds_sdiv ht lhs rhs
    rw [hholds, natCast_toNat_eq_emod, BitVec.toInt_sdiv]
    have hpow : (2 : Int) ^ width = ((2 ^ width : Nat) : Int) := by
      push_cast
      rfl
    rw [hpow, Int.bmod_emod]
    rfl
  smod := by
    intro lhs rhs _
    have hholds := holds_smod ht lhs rhs
    rw [hholds, natCast_toNat_eq_emod, BitVec.toInt_srem]
    rfl
  sdivFault := by
    intro zeroMessage overflowMessage lhs rhs
    rw [← faults_iff ht hwidth, sdivChecked]
    split_ifs <;> simp_all
  smodFault := by
    intro zeroMessage overflowMessage lhs rhs
    rw [← faults_iff ht hwidth, smodChecked]
    split_ifs <;> simp_all
  sdivValue := by
    intro zeroMessage overflowMessage lhs rhs
    rw [sdivChecked]
    split_ifs <;> simp
  smodValue := by
    intro zeroMessage overflowMessage lhs rhs
    rw [smodChecked]
    split_ifs <;> simp

end

theorem Holds.signed_eq {c : α} {x : BitVec width} (h : t.Holds c x) :
    t.signed c width = x.toInt := by
  rw [signed, h.pattern_eq]

theorem signed_sdiv (ht : t.Lawful width) (hwidth : 0 < width) {l r : α}
    (h : InRange (width - 1) ((t.signed l width).tdiv (t.signed r width))) :
    t.signed (t.sdiv l r width) width = (t.signed l width).tdiv (t.signed r width) := by
  rw [(holds_sdiv ht l r).signed_eq]
  exact BitVec.toInt_sdiv_of_ne_or_ne _ _ (not_and_or.mp ((inRange_tdiv_iff hwidth).mp h))

theorem signed_smod (ht : t.Lawful width) (l r : α) :
    t.signed (t.smod l r width) width = (t.signed l width).tmod (t.signed r width) := by
  rw [(holds_smod ht l r).signed_eq]
  exact BitVec.toInt_srem _ _

/-- Two tiers agree on carriers with the same low bits. -/
theorem sdiv_agree {β : Type} {u : Tier β} (ht : t.Lawful width) (hu : u.Lawful width)
    {l r : α} {l' r' : β} (hl : t.pattern l width = u.pattern l' width)
    (hr : t.pattern r width = u.pattern r' width) :
    t.toNat (t.sdiv l r width) = u.toNat (u.sdiv l' r' width) ∧
      t.toNat (t.smod l r width) = u.toNat (u.smod l' r' width) := by
  constructor
  · rw [holds_sdiv ht l r, holds_sdiv hu l' r', hl, hr]
  · rw [holds_smod ht l r, holds_smod hu l' r', hl, hr]

/-- A test of one tier for each test of the other. -/
theorem tests_agree {β : Type} {u : Tier β} (ht : t.Lawful width) (hu : u.Lawful width)
    (hwidth : 0 < width) {l r : α} {l' r' : β} (hl : t.pattern l width = u.pattern l' width)
    (hr : t.pattern r width = u.pattern r' width) :
    t.isZero (t.mask r width) = u.isZero (u.mask r' width) ∧
      (t.isMinusOne r width && t.isMin l width) =
        (u.isMinusOne r' width && u.isMin l' width) := by
  constructor
  · rw [Bool.eq_iff_iff, isZero_iff ht (holds_mask ht r), isZero_iff hu (holds_mask hu r'), hr]
  · rw [Bool.eq_iff_iff, Bool.and_eq_true, Bool.and_eq_true, isMinusOne_iff ht, isMinusOne_iff hu,
      isMin_iff ht hwidth, isMin_iff hu hwidth, hl, hr]

theorem sdivChecked_agree {β : Type} {u : Tier β} (ht : t.Lawful width) (hu : u.Lawful width)
    (hwidth : 0 < width) {l r : α} {l' r' : β} (hl : t.pattern l width = u.pattern l' width)
    (hr : t.pattern r width = u.pattern r' width) (zeroMessage overflowMessage : String) :
    (t.sdivChecked zeroMessage overflowMessage l r width).fault =
        (u.sdivChecked zeroMessage overflowMessage l' r' width).fault ∧
      t.toNat (t.sdivChecked zeroMessage overflowMessage l r width).value =
        u.toNat (u.sdivChecked zeroMessage overflowMessage l' r' width).value := by
  obtain ⟨hzero, hoverflow⟩ := tests_agree ht hu hwidth hl hr
  rw [sdivChecked, sdivChecked, hzero, hoverflow]
  split_ifs
  · exact ⟨rfl, ht.zero.trans hu.zero.symm⟩
  · refine ⟨rfl, ?_⟩
    rw [holds_mask ht l, holds_mask hu l', hl]
  · exact ⟨rfl, (sdiv_agree ht hu hl hr).1⟩

theorem smodChecked_agree {β : Type} {u : Tier β} (ht : t.Lawful width) (hu : u.Lawful width)
    (hwidth : 0 < width) {l r : α} {l' r' : β} (hl : t.pattern l width = u.pattern l' width)
    (hr : t.pattern r width = u.pattern r' width) (zeroMessage overflowMessage : String) :
    (t.smodChecked zeroMessage overflowMessage l r width).fault =
        (u.smodChecked zeroMessage overflowMessage l' r' width).fault ∧
      t.toNat (t.smodChecked zeroMessage overflowMessage l r width).value =
        u.toNat (u.smodChecked zeroMessage overflowMessage l' r' width).value := by
  obtain ⟨hzero, hoverflow⟩ := tests_agree ht hu hwidth hl hr
  rw [smodChecked, smodChecked, hzero, hoverflow]
  split_ifs
  · exact ⟨rfl, ht.zero.trans hu.zero.symm⟩
  · exact ⟨rfl, ht.zero.trans hu.zero.symm⟩
  · exact ⟨rfl, (sdiv_agree ht hu hl hr).2⟩

end Tier

end Harc.SignedDivision
