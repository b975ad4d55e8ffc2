import Harc.SignedDivision
import Harc.WideBits

/-!
Division in the runtime (`runtime/harc_thread_rt.h`), on its three kinds of carriers: signed
64-bit values, unsigned 128-bit patterns and wide integers.
-/

namespace Harc.DivisionTiers

open Harc.WordLists
open Harc.TwosComplement
open Harc.WideRuntime
open Harc.WideBits
open Harc.SignedDivision

abbrev U128 := BitVec 128
abbrev I64 := BitVec 64

def divZeroMessage : String := "runtime arithmetic error: division by zero"
def modZeroMessage : String := "runtime arithmetic error: modulo by zero"
def divOverflowMessage : String :=
  "runtime arithmetic error: signed division overflow (MIN / -1)"
def modOverflowMessage : String :=
  "runtime arithmetic error: signed modulo overflow (MIN % -1)"

/-! Unsigned 128-bit patterns. -/

def maskU128 (width : Nat) : U128 :=
  if width ≥ 128 then ~~~0#128
  else if width = 0 then 0#128
  else (1#128 <<< width) - 1#128

def negateU128 (value : U128) (width : Nat) : U128 :=
  (~~~value + 1#128) &&& maskU128 width

def isSminU128 (value : U128) (width : Nat) : Bool :=
  if width = 0 then false else (value &&& maskU128 width) == (1#128 <<< (width - 1))

def isMinusOneU128 (value : U128) (width : Nat) : Bool :=
  width != 0 && (value &&& maskU128 width) == maskU128 width

def u128 : Tier U128 where
  toNat := BitVec.toNat
  zero := 0#128
  mask value width := value &&& maskU128 width
  isZero value := value == 0#128
  signBit value width := ((value >>> (width - 1)) &&& 1#128) != 0#128
  negate := negateU128
  div lhs rhs := lhs / rhs
  rem lhs rhs := lhs % rhs
  isMin := isSminU128
  isMinusOne := isMinusOneU128

def sdivU128 (lhs rhs : U128) (width : Nat) : U128 := u128.sdiv lhs rhs width

def smodU128 (lhs rhs : U128) (width : Nat) : U128 := u128.smod lhs rhs width

def sdivU128Checked (lhs rhs : U128) (width : Nat) : Checked U128 :=
  u128.sdivChecked divZeroMessage divOverflowMessage lhs rhs width

def smodU128Checked (lhs rhs : U128) (width : Nat) : Checked U128 :=
  u128.smodChecked modZeroMessage modOverflowMessage lhs rhs width

theorem toNat_maskU128 {width : Nat} (h : width ≤ 128) : (maskU128 width).toNat = 2 ^ width - 1 := by
  unfold maskU128
  split_ifs with hfull hzero
  · obtain rfl : width = 128 := by omega
    rfl
  · subst hzero
    rfl
  · have hpow : 2 ^ width < 2 ^ 128 := Nat.pow_lt_pow_right (by omega) (by omega)
    have hpos := Nat.two_pow_pos width
    rw [BitVec.toNat_sub, BitVec.toNat_shiftLeft, Nat.shiftLeft_eq]
    simp only [BitVec.toNat_ofNat, Nat.one_mod, Nat.one_mul]
    rw [Nat.mod_eq_of_lt hpow]
    omega

theorem toNat_and_maskU128 {width : Nat} (h : width ≤ 128) (value : U128) :
    (value &&& maskU128 width).toNat = value.toNat % 2 ^ width := by
  rw [BitVec.toNat_and, toNat_maskU128 h, Nat.and_two_pow_sub_one_eq_mod]

theorem toNat_one_shiftLeft {width : Nat} (h : width < 128) :
    (1#128 <<< width).toNat = 2 ^ width := by
  have hpow : 2 ^ width < 2 ^ 128 := Nat.pow_lt_pow_right (by omega) h
  rw [BitVec.toNat_shiftLeft, Nat.shiftLeft_eq]
  simp only [BitVec.toNat_ofNat, Nat.one_mod, Nat.one_mul]
  exact Nat.mod_eq_of_lt hpow

/-- The complement in a larger width, reduced to a smaller one. -/
theorem two_pow_sub_mod {c width total : Nat} (hc : c ≤ 2 ^ width) (h : width ≤ total) :
    (2 ^ total - c) % 2 ^ total % 2 ^ width = (2 ^ width - c) % 2 ^ width := by
  obtain ⟨k, rfl⟩ := Nat.exists_eq_add_of_le h
  obtain ⟨m, hm⟩ : ∃ m, 2 ^ k = m + 1 := ⟨2 ^ k - 1, by have := Nat.two_pow_pos k; omega⟩
  have hsplit : 2 ^ (width + k) - c = 2 ^ width - c + 2 ^ width * m := by
    rw [pow_add, hm, Nat.mul_succ]
    omega
  rw [Nat.mod_mod_of_dvd _ (pow_dvd_pow 2 h), hsplit, Nat.add_mul_mod_self_left]

/-- The bit at the top of a number of a width. -/
theorem div_two_pow_pred {c width : Nat} (hpos : 0 < width) (hlt : c < 2 ^ width) :
    c / 2 ^ (width - 1) = if 2 ^ (width - 1) ≤ c then 1 else 0 := by
  have hpow : 2 ^ width = 2 ^ (width - 1) * 2 := by
    rw [← pow_succ, Nat.sub_add_cancel hpos]
  split_ifs with h
  · exact Nat.div_eq_of_lt_le (by omega) (by omega)
  · exact Nat.div_eq_of_lt (by omega)

theorem u128_lawful {width : Nat} (hpos : 0 < width) (h : width ≤ 128) : u128.Lawful width where
  zero := rfl
  mask := toNat_and_maskU128 h
  isZero := by
    intro c
    change (c == 0#128) = true ↔ _
    rw [beq_iff_eq, ← BitVec.toNat_inj]
    rfl
  signBit := by
    intro c hlt
    change (((c >>> (width - 1)) &&& 1#128) != 0#128) = decide (2 ^ (width - 1) ≤ c.toNat)
    have hlt : c.toNat < 2 ^ width := hlt
    have hbit : ((c >>> (width - 1)) &&& 1#128).toNat =
        if 2 ^ (width - 1) ≤ c.toNat then 1 else 0 := by
      rw [BitVec.toNat_and, BitVec.toNat_ushiftRight, Nat.shiftRight_eq_div_pow,
        div_two_pow_pred hpos hlt]
      split_ifs <;> rfl
    rw [Bool.eq_iff_iff, bne_iff_ne, Ne, ← BitVec.toNat_inj, hbit, decide_eq_true_iff]
    split_ifs <;> simp_all
  negate := by
    intro c hlt
    change (negateU128 c width).toNat = (2 ^ width - c.toNat) % 2 ^ width
    rw [negateU128, ← BitVec.neg_eq_not_add, toNat_and_maskU128 h, BitVec.toNat_neg]
    exact two_pow_sub_mod hlt.le h
  div := fun c d _ => BitVec.toNat_udiv
  rem := fun c d _ => BitVec.toNat_umod
  isMin := by
    intro c
    change isSminU128 c width = true ↔ _
    rw [isSminU128, if_neg (by omega), beq_iff_eq, ← BitVec.toNat_inj, toNat_and_maskU128 h,
      toNat_one_shiftLeft (by omega)]
    rfl
  isMinusOne := by
    intro c
    change isMinusOneU128 c width = true ↔ _
    rw [isMinusOneU128, Bool.and_eq_true, beq_iff_eq, ← BitVec.toNat_inj, toNat_and_maskU128 h,
      toNat_maskU128 h, and_iff_right (by simpa using hpos.ne')]
    rfl

/-! Wide integers. -/

section Wide

variable {N : Nat}

/-- The assignment `r.words[0] |= 1u`. -/
def orOne (r : HarcWide N) : HarcWide N where
  words := r.words.modify 0 (· ||| 1#32)
  length_eq := by rw [List.length_modify, r.length_eq]

/-- The remainder with the next bit of the dividend. -/
def bringDown (lhs : HarcWide N) (bit : Nat) (r : HarcWide N) : HarcWide N :=
  if wideGetBit lhs bit then orOne (r.shl (CInt.ofI32 1)) else r.shl (CInt.ofI32 1)

/-- One round of the long division. -/
def divmodBit (lhs rhs : HarcWide N) (bit : Nat) (q r : HarcWide N) : HarcWide N × HarcWide N :=
  let r := bringDown lhs bit r
  if r.ge rhs then (wideSetBit q bit, r.sub rhs) else (q, r)

def divmodLoop (lhs rhs : HarcWide N) : Nat → HarcWide N → HarcWide N → HarcWide N × HarcWide N
  | 0, q, r => (q, r)
  | bit + 1, q, r =>
      let next := divmodBit lhs rhs bit q r
      divmodLoop lhs rhs bit next.1 next.2

/-- The quotient and the remainder; those of a zero divisor are zero and the dividend. -/
def wideDivmod (lhs rhs : HarcWide N) : HarcWide N × HarcWide N :=
  if wideIsZero rhs then (HarcWide.zero N, lhs)
  else divmodLoop lhs rhs (N * 32 % 2 ^ 32) (HarcWide.zero N) (HarcWide.zero N)

def wideNegate (value : HarcWide N) (width : Nat) : HarcWide N :=
  wideMaskBits ((wideMaskBits value width).not.add (HarcWide.ofCInt N (CInt.ofI32 1))) width

def wideIsSmin (value : HarcWide N) (width : Nat) : Bool :=
  if width = 0 then false
  else wideMaskBits value width == wideSetBit (HarcWide.zero N) (width - 1)

def wideIsMinusOne (value : HarcWide N) (width : Nat) : Bool :=
  if width = 0 then false
  else wideMaskBits value width == wideMaskBits (HarcWide.zero N).not width

def wide (N : Nat) : Tier (HarcWide N) where
  toNat := HarcWide.toNat
  zero := HarcWide.zero N
  mask := wideMaskBits
  isZero := wideIsZero
  signBit value width := wideGetBit value (width - 1)
  negate := wideNegate
  div lhs rhs := (wideDivmod lhs rhs).1
  rem lhs rhs := (wideDivmod lhs rhs).2
  isMin := wideIsSmin
  isMinusOne := wideIsMinusOne

def wideSdiv (lhs rhs : HarcWide N) (width : Nat) : HarcWide N := (wide N).sdiv lhs rhs width

def wideSmod (lhs rhs : HarcWide N) (width : Nat) : HarcWide N := (wide N).smod lhs rhs width

def wideSdivChecked (lhs rhs : HarcWide N) (width : Nat) : Checked (HarcWide N) :=
  (wide N).sdivChecked divZeroMessage divOverflowMessage lhs rhs width

def wideSmodChecked (lhs rhs : HarcWide N) (width : Nat) : Checked (HarcWide N) :=
  (wide N).smodChecked modZeroMessage modOverflowMessage lhs rhs width

/-- One round of long division: the remainder so far and the next bit of the dividend. -/
theorem restoring_step {p d : Nat} (hd : 0 < d) (b : Bool) :
    (2 * p + b.toNat) / d = 2 * (p / d) + (decide (d ≤ 2 * (p % d) + b.toNat)).toNat ∧
      (2 * p + b.toNat) % d = 2 * (p % d) + b.toNat -
        (if d ≤ 2 * (p % d) + b.toNat then d else 0) := by
  have hp := Nat.div_add_mod p d
  have hlt := Nat.mod_lt p hd
  have hb := Bool.toNat_le b
  have hsum : 2 * p + b.toNat = d * (2 * (p / d)) + (2 * (p % d) + b.toNat) := by
    rw [Nat.mul_left_comm]
    omega
  have hbound : 2 * (p % d) + b.toNat < 2 * d := by omega
  rw [hsum, Nat.mul_add_div hd, Nat.mul_add_mod]
  generalize 2 * (p % d) + b.toNat = r at hbound ⊢
  split_ifs with hle
  · have hone : r / d = 1 := Nat.div_eq_of_lt_le (by omega) (by omega)
    have hrest : r % d = r - d := by
      rw [Nat.mod_eq_sub_mod hle]
      exact Nat.mod_eq_of_lt (by omega)
    rw [decide_eq_true hle, hone, hrest]
    exact ⟨rfl, rfl⟩
  · have hnone : r / d = 0 := Nat.div_eq_of_lt (by omega)
    have hrest : r % d = r := Nat.mod_eq_of_lt (by omega)
    rw [decide_eq_false hle, hnone, hrest]
    exact ⟨rfl, rfl⟩

/-- The quotient and the remainder of the dividend without its last `k` bits. -/
structure Divided (lhs rhs q r : Nat) (k : Nat) : Prop where
  quotient : q = 2 ^ k * (lhs / 2 ^ k / rhs)
  remainder : r = lhs / 2 ^ k % rhs

theorem or_two_pow_eq_add {q k : Nat} (h : q % 2 ^ (k + 1) = 0) : q ||| 2 ^ k = q + 2 ^ k := by
  obtain ⟨m, rfl⟩ := Nat.dvd_of_mod_eq_zero h
  have hlt : 2 ^ k < 2 ^ (k + 1) := Nat.pow_lt_pow_right (by omega) (Nat.lt_succ_self k)
  rw [Nat.mul_comm, ← Nat.shiftLeft_eq]
  exact (Nat.shiftLeft_add_eq_or_of_lt hlt m).symm

section

variable (hN : 32 * N < 2 ^ 32)

include hN

theorem toNat_wideSetBit {q : HarcWide N} {k : Nat} (hk : k < 32 * N)
    (h : q.toNat % 2 ^ (k + 1) = 0) : (wideSetBit q k).toNat = q.toNat + 2 ^ k := by
  rw [← or_two_pow_eq_add h]
  refine Nat.eq_of_testBit_eq fun i => ?_
  rw [testBit_wideSetBit hN, Nat.testBit_or, Nat.testBit_two_pow]
  split_ifs with hi
  · simp [hi.1]
  · have hne : ¬ k = i := by
      rintro rfl
      exact hi ⟨rfl, hk⟩
    simp [hne]

theorem toNat_orOne {r : HarcWide N} (hpos : 0 < N) (heven : r.toNat % 2 = 0) :
    (orOne r).toNat = r.toNat + 1 := by
  have hset : orOne r = wideSetBit r 0 := by
    rw [wideSetBit, modifyBit, bitCount_eq hN, if_pos (by omega)]
    rfl
  rw [hset, toNat_wideSetBit hN (by omega) heven, pow_zero]

theorem toNat_bringDown {lhs r : HarcWide N} (hpos : 0 < N) (bit : Nat)
    (hr : 2 * r.toNat < 2 ^ (32 * N)) :
    (bringDown lhs bit r).toNat = 2 * r.toNat + (lhs.toNat.testBit bit).toNat := by
  have hshift : (r.shl (CInt.ofI32 1)).toNat = 2 * r.toNat := by
    rw [HarcWide.toNat_shl (by omega), show (CInt.ofI32 1).toInt = 1 by decide, if_neg (by omega)]
    change r.toNat * 2 ^ 1 % _ = _
    rw [Nat.mod_eq_of_lt (by omega), pow_one, Nat.mul_comm]
  rw [bringDown, wideGetBit_eq hN]
  cases lhs.toNat.testBit bit with
  | true =>
      rw [if_pos rfl, toNat_orOne hN (by omega) (by omega), hshift]
      rfl
  | false =>
      rw [if_neg (by simp), hshift]
      rfl

theorem toNat_sub_of_le {l r : HarcWide N} (h : r.toNat ≤ l.toNat) :
    (l.sub r).toNat = l.toNat - r.toNat := by
  have hsub := HarcWide.toNat_sub (show N < 2 ^ 32 by omega) l r
  have hlt : (l.toNat : Int) < 2 ^ (32 * N) := by exact_mod_cast l.toNat_lt
  rw [Int.emod_eq_of_lt (by omega) (by omega)] at hsub
  omega

theorem divmodBit_spec {lhs rhs q r : HarcWide N} {k : Nat} (hrhs : 0 < rhs.toNat)
    (hk : k < 32 * N) (h : Divided lhs.toNat rhs.toNat q.toNat r.toNat (k + 1)) :
    Divided lhs.toNat rhs.toNat (divmodBit lhs rhs k q r).1.toNat
      (divmodBit lhs rhs k q r).2.toNat k := by
  obtain ⟨hq, hr⟩ := h
  -- the dividend without its last bits is twice the one before, with the next bit
  have hfront : lhs.toNat / 2 ^ k = 2 * (lhs.toNat / 2 ^ (k + 1)) +
      (lhs.toNat.testBit k).toNat := by
    rw [Nat.toNat_testBit, pow_succ, ← Nat.div_div_eq_div_mul]
    omega
  have hsmall : 2 * r.toNat < 2 ^ (32 * N) := by
    have hrle : r.toNat ≤ lhs.toNat / 2 ^ (k + 1) := hr ▸ Nat.mod_le _ _
    have hle : lhs.toNat / 2 ^ k ≤ lhs.toNat := Nat.div_le_self _ _
    have hlt := lhs.toNat_lt
    omega
  obtain ⟨hdiv, hmod⟩ := restoring_step (p := lhs.toNat / 2 ^ (k + 1)) hrhs (lhs.toNat.testBit k)
  rw [← hfront, ← hr, ← toNat_bringDown hN (by omega) k hsmall] at hdiv hmod
  have hlow : q.toNat % 2 ^ (k + 1) = 0 := by
    rw [hq]
    exact Nat.mul_mod_right _ _
  simp only [divmodBit, HarcWide.ge_eq, ge_iff_le, decide_eq_true_eq]
  split_ifs at hmod ⊢ with hle
  · rw [decide_eq_true hle, Bool.toNat_true] at hdiv
    refine ⟨?_, ?_⟩
    · rw [toNat_wideSetBit hN hk hlow, hq, hdiv, pow_succ]
      ring
    · rw [toNat_sub_of_le hN hle, hmod]
  · rw [decide_eq_false hle, Bool.toNat_false, Nat.add_zero] at hdiv
    refine ⟨?_, ?_⟩
    · rw [hq, hdiv, pow_succ, Nat.mul_assoc]
    · rw [hmod, Nat.sub_zero]

theorem divmodLoop_spec {lhs rhs q r : HarcWide N} {k : Nat} (hrhs : 0 < rhs.toNat)
    (hk : k ≤ 32 * N) (h : Divided lhs.toNat rhs.toNat q.toNat r.toNat k) :
    Divided lhs.toNat rhs.toNat (divmodLoop lhs rhs k q r).1.toNat
      (divmodLoop lhs rhs k q r).2.toNat 0 := by
  induction k generalizing q r with
  | zero => exact h
  | succ k ih =>
      rw [divmodLoop]
      exact ih (by omega) (divmodBit_spec hN hrhs (by omega) h)

theorem wideDivmod_spec {lhs rhs : HarcWide N} (hrhs : rhs.toNat ≠ 0) :
    (wideDivmod lhs rhs).1.toNat = lhs.toNat / rhs.toNat ∧
      (wideDivmod lhs rhs).2.toNat = lhs.toNat % rhs.toNat := by
  have hzero : ¬ wideIsZero rhs = true := by
    rw [wideIsZero_iff]
    exact hrhs
  have hstart : Divided lhs.toNat rhs.toNat (HarcWide.zero N).toNat (HarcWide.zero N).toNat
      (32 * N) := by
    constructor <;> simp [Nat.div_eq_of_lt lhs.toNat_lt]
  have hend := divmodLoop_spec hN (Nat.pos_of_ne_zero hrhs) le_rfl hstart
  rw [wideDivmod, if_neg hzero, Nat.mod_eq_of_lt (by omega), Nat.mul_comm]
  exact ⟨by simpa using hend.quotient, by simpa using hend.remainder⟩

theorem toNat_wideNegate {c : HarcWide N} {width : Nat} (hwidth : 0 < width)
    (hfits : width ≤ 32 * N) (hc : c.toNat < 2 ^ width) :
    (wideNegate c width).toNat = (2 ^ width - c.toNat) % 2 ^ width := by
  have hmask : (wideMaskBits c width).toNat = c.toNat := by
    rw [toNat_wideMaskBits hN, Nat.mod_eq_of_lt hc]
  have hone : (HarcWide.ofCInt N (CInt.ofI32 1)).toNat = 1 := by
    have hresidue := HarcWide.toNat_ofCInt N (CInt.ofI32 1)
    have hpow : (1 : Int) < 2 ^ (32 * N) := one_lt_pow₀ (by omega) (by omega)
    rw [show (CInt.ofI32 1).toInt = 1 by decide, Int.emod_eq_of_lt (by omega) hpow] at hresidue
    exact_mod_cast hresidue
  have hlt := c.toNat_lt
  rw [wideNegate, toNat_wideMaskBits hN, HarcWide.toNat_add (by omega), HarcWide.toNat_not, hmask,
    hone, show 2 ^ (32 * N) - 1 - c.toNat + 1 = 2 ^ (32 * N) - c.toNat by omega]
  exact two_pow_sub_mod hc.le hfits

theorem wide_lawful {width : Nat} (hwidth : 0 < width) (hfits : width ≤ 32 * N) :
    (wide N).Lawful width where
  zero := HarcWide.toNat_zero
  mask := fun c => toNat_wideMaskBits hN c width
  isZero := wideIsZero_iff
  signBit := by
    intro c hlt
    change wideGetBit c (width - 1) = _
    have htop : c.toNat / 2 ^ (width - 1) = if 2 ^ (width - 1) ≤ c.toNat then 1 else 0 :=
      div_two_pow_pred hwidth hlt
    rw [wideGetBit_eq hN, Nat.testBit_eq_decide_div_mod_eq, htop, decide_eq_decide]
    change _ ↔ 2 ^ (width - 1) ≤ c.toNat
    split_ifs with h <;> simp [h]
  negate := fun c hlt => toNat_wideNegate hN hwidth hfits hlt
  div := fun c d hd => (wideDivmod_spec hN hd).1
  rem := fun c d hd => (wideDivmod_spec hN hd).2
  isMin := by
    intro c
    change wideIsSmin c width = true ↔ c.toNat % 2 ^ width = 2 ^ (width - 1)
    have hmin : (wideSetBit (HarcWide.zero N) (width - 1)).toNat = 2 ^ (width - 1) := by
      rw [toNat_wideSetBit hN (by omega) (by simp), HarcWide.toNat_zero, Nat.zero_add]
    rw [wideIsSmin, if_neg (by omega), beq_iff_eq, ← toNat_wideMaskBits hN, ← hmin]
    exact ⟨congrArg HarcWide.toNat, HarcWide.toNat_injective⟩
  isMinusOne := by
    intro c
    change wideIsMinusOne c width = true ↔ c.toNat % 2 ^ width = 2 ^ width - 1
    have hones : (wideMaskBits (HarcWide.zero N).not width).toNat = 2 ^ width - 1 := by
      obtain ⟨k, hk⟩ := Nat.exists_eq_add_of_le hfits
      have hpow : 2 ^ (32 * N) - 1 = 2 ^ width - 1 + 2 ^ width * (2 ^ k - 1) := by
        have hpos := Nat.two_pow_pos width
        have hposk := Nat.two_pow_pos k
        rw [hk, pow_add, Nat.mul_sub, Nat.mul_one]
        have hle := Nat.le_mul_of_pos_right (2 ^ width) hposk
        omega
      rw [toNat_wideMaskBits hN, HarcWide.toNat_not, HarcWide.toNat_zero, Nat.sub_zero, hpow,
        Nat.add_mul_mod_self_left]
      exact Nat.mod_eq_of_lt (Nat.sub_lt (Nat.two_pow_pos width) Nat.one_pos)
    rw [wideIsMinusOne, if_neg (by omega), beq_iff_eq, ← toNat_wideMaskBits hN, ← hones]
    exact ⟨congrArg HarcWide.toNat, HarcWide.toNat_injective⟩

end

end Wide

/-! Signed 64-bit values.  A value of a smaller width is sign-extended in its carrier. -/

def isSminI64 (value : I64) (width : Nat) : Bool :=
  if width = 0 ∨ width ≥ 64 then value == BitVec.intMin 64
  else value == -(1#64 <<< (width - 1))

def sdivI64 (lhs rhs : I64) (width : Nat) : Checked I64 :=
  if rhs = 0#64 then ⟨some divZeroMessage, 0#64⟩
  else if rhs == -1#64 && isSminI64 lhs width then ⟨some divOverflowMessage, lhs⟩
  else ⟨none, lhs.sdiv rhs⟩

def smodI64 (lhs rhs : I64) (width : Nat) : Checked I64 :=
  if rhs = 0#64 then ⟨some modZeroMessage, 0#64⟩
  else if rhs == -1#64 && isSminI64 lhs width then ⟨some modOverflowMessage, 0#64⟩
  else ⟨none, lhs.srem rhs⟩

section Narrow

variable {width : Nat} (hwidth : 0 < width) (hle : width ≤ 64)

include hwidth hle

theorem inRange_pred (z : Int) (h : InRange (width - 1) z) : InRange 63 z :=
  h.mono (by omega)

theorem isSminI64_iff (value : I64) :
    isSminI64 value width = true ↔ value.toInt = -2 ^ (width - 1) := by
  have hmin : isSminI64 value width = true ↔ value = BitVec.ofInt 64 (-2 ^ (width - 1)) := by
    rw [isSminI64]
    split_ifs with hfull
    · obtain rfl : width = 64 := by omega
      exact beq_iff_eq
    · have hshift : BitVec.ofInt 64 (2 ^ (width - 1)) = 1#64 <<< (width - 1) := by
        rw [show (2 : Int) ^ (width - 1) = ((2 ^ (width - 1) : Nat) : Int) by push_cast; rfl,
          BitVec.ofInt_natCast, ← BitVec.twoPow_eq, ← BitVec.toNat_inj, BitVec.toNat_twoPow,
          BitVec.toNat_ofNat]
      rw [beq_iff_eq, BitVec.ofInt_neg, hshift]
  have hrange : InRange 63 (-2 ^ (width - 1)) :=
    inRange_pred hwidth hle _ ⟨le_rfl, by
      have : (0 : Int) < 2 ^ (width - 1) := by positivity
      omega⟩
  rw [hmin]
  constructor
  · rintro rfl
    rw [BitVec.toInt_ofInt]
    exact hrange.bmod_eq
  · intro h
    rw [← h, BitVec.ofInt_toInt]

/-- The test for an overflow finds the quotient that the width cannot hold. -/
theorem overflow_iff {lhs rhs : I64} (hl : InRange (width - 1) lhs.toInt)
    (hr : InRange (width - 1) rhs.toInt) :
    (rhs == -1#64 && isSminI64 lhs width) = true ↔
      ¬ InRange (width - 1) (lhs.toInt.tdiv rhs.toInt) := by
  obtain ⟨k, rfl⟩ : ∃ k, width = k + 1 := ⟨width - 1, by omega⟩
  have hx : (BitVec.ofInt (k + 1) lhs.toInt).toInt = lhs.toInt := by
    rw [BitVec.toInt_ofInt]
    exact hl.bmod_eq
  have hy : (BitVec.ofInt (k + 1) rhs.toInt).toInt = rhs.toInt := by
    rw [BitVec.toInt_ofInt]
    exact hr.bmod_eq
  have hone : rhs = -1#64 ↔ rhs.toInt = -1 := by
    rw [← BitVec.toInt_inj]
    rfl
  have hmin := inRange_tdiv_iff (x := BitVec.ofInt (k + 1) lhs.toInt)
    (y := BitVec.ofInt (k + 1) rhs.toInt) hwidth
  rw [hx, hy, ← BitVec.toInt_inj, ← BitVec.toInt_inj, hx, hy,
    BitVec.toInt_intMin_of_pos hwidth, BitVec.neg_one_eq_allOnes, BitVec.toInt_allOnes,
    if_pos hwidth] at hmin
  rw [Bool.and_eq_true, beq_iff_eq, hone, isSminI64_iff hwidth hle, hmin, not_not, and_comm]

/-- Both checked operations make the same tests. -/
theorem faultsI64_iff {lhs rhs : I64} (hl : InRange (width - 1) lhs.toInt)
    (hr : InRange (width - 1) rhs.toInt) :
    (rhs = 0#64 ∨ (rhs == -1#64 && isSminI64 lhs width) = true) ↔
      rhs.toInt = 0 ∨ ¬ InRange (width - 1) (lhs.toInt.tdiv rhs.toInt) := by
  rw [overflow_iff hwidth hle hl hr, ← BitVec.toInt_inj]
  rfl

end Narrow

/-- The checked operations on 64-bit carriers of values of a width. -/
structure ExactI64 (width : Nat) (lhs rhs : I64) : Prop where
  sdivFault : (sdivI64 lhs rhs width).fault ≠ none ↔
    rhs.toInt = 0 ∨ ¬ InRange (width - 1) (lhs.toInt.tdiv rhs.toInt)
  smodFault : (smodI64 lhs rhs width).fault ≠ none ↔
    rhs.toInt = 0 ∨ ¬ InRange (width - 1) (lhs.toInt.tdiv rhs.toInt)
  sdivValue : (sdivI64 lhs rhs width).fault = none →
    (sdivI64 lhs rhs width).value.toInt = lhs.toInt.tdiv rhs.toInt
  smodValue : (smodI64 lhs rhs width).fault = none →
    (smodI64 lhs rhs width).value.toInt = lhs.toInt.tmod rhs.toInt

theorem exactI64 {width : Nat} (hwidth : 0 < width) (hle : width ≤ 64) {lhs rhs : I64}
    (hl : InRange (width - 1) lhs.toInt) (hr : InRange (width - 1) rhs.toInt) :
    ExactI64 width lhs rhs := by
  have hfaults := faultsI64_iff hwidth hle hl hr
  refine ⟨?_, ?_, ?_, ?_⟩
  · rw [← hfaults, sdivI64]
    split_ifs <;> simp_all
  · rw [← hfaults, smodI64]
    split_ifs <;> simp_all
  · intro hnone
    have hrange : InRange (width - 1) (lhs.toInt.tdiv rhs.toInt) := by
      by_contra hout
      rw [← overflow_iff hwidth hle hl hr] at hout
      rw [sdivI64] at hnone
      split_ifs at hnone
    have hvalue : (sdivI64 lhs rhs width).value = lhs.sdiv rhs := by
      rw [sdivI64] at hnone ⊢
      split_ifs at hnone ⊢
      rfl
    rw [hvalue, BitVec.toInt_sdiv]
    exact (inRange_pred hwidth hle _ hrange).bmod_eq
  · intro hnone
    rw [smodI64] at hnone ⊢
    split_ifs at hnone ⊢
    exact BitVec.toInt_srem _ _

/-- A carrier of another tier with the same value gives the same result. -/
theorem sdivI64_agree {α : Type} {t : Tier α} {width : Nat} (ht : t.Lawful width)
    (hwidth : 0 < width) (hle : width ≤ 64) {lhs rhs : I64} {l r : α}
    (hl : t.signed l width = lhs.toInt) (hr : t.signed r width = rhs.toInt) :
    (sdivI64 lhs rhs width).fault =
        (t.sdivChecked divZeroMessage divOverflowMessage l r width).fault ∧
      (sdivI64 lhs rhs width).value.toInt =
        t.signed (t.sdivChecked divZeroMessage divOverflowMessage l r width).value width ∧
      (smodI64 lhs rhs width).fault =
        (t.smodChecked modZeroMessage modOverflowMessage l r width).fault ∧
      (smodI64 lhs rhs width).value.toInt =
        t.signed (t.smodChecked modZeroMessage modOverflowMessage l r width).value width := by
  have hlrange : InRange (width - 1) lhs.toInt := hl ▸ inRange_toInt hwidth _
  have hrrange : InRange (width - 1) rhs.toInt := hr ▸ inRange_toInt hwidth _
  have hzero : (rhs = 0#64) ↔ t.isZero (t.mask r width) = true := by
    rw [Tier.isZero_iff ht (Tier.holds_mask ht r), ← Tier.signed_eq_zero_iff, hr,
      ← BitVec.toInt_inj]
    rfl
  have hoverflow : (rhs == -1#64 && isSminI64 lhs width) =
      (t.isMinusOne r width && t.isMin l width) := by
    rw [Bool.eq_iff_iff, overflow_iff hwidth hle hlrange hrrange, Bool.and_eq_true,
      Tier.isMinusOne_iff ht, Tier.isMin_iff ht hwidth, ← hl, ← hr, Tier.signed, Tier.signed,
      inRange_tdiv_iff hwidth, not_not, and_comm]
  have hzeroValue : t.signed t.zero width = 0 := by
    have hholds : t.Holds t.zero (BitVec.ofNat width 0) := ht.zero
    rw [hholds.signed_eq, BitVec.toInt_zero]
  have hmaskValue : t.signed (t.mask l width) width = lhs.toInt :=
    (Tier.holds_mask ht l).signed_eq.trans hl
  rw [sdivI64, smodI64, Tier.sdivChecked, Tier.smodChecked, hoverflow]
  simp only [hzero]
  split_ifs with hisZero hisOverflow
  · exact ⟨rfl, hzeroValue.symm, rfl, hzeroValue.symm⟩
  · exact ⟨rfl, hmaskValue.symm, rfl, hzeroValue.symm⟩
  · have hrange : InRange (width - 1) (lhs.toInt.tdiv rhs.toInt) := by
      by_contra hout
      rw [← overflow_iff hwidth hle hlrange hrrange, hoverflow] at hout
      exact hisOverflow hout
    refine ⟨rfl, ?_, rfl, ?_⟩
    · rw [Tier.signed_sdiv ht hwidth (by rwa [hl, hr]), hl, hr, BitVec.toInt_sdiv]
      exact (inRange_pred hwidth hle _ hrange).bmod_eq
    · rw [Tier.signed_smod ht, hl, hr]
      exact BitVec.toInt_srem _ _

/-! Unsigned division (`harc_checked_div`, `harc_checked_mod`) on each type of carriers. -/

def checkedDivU64 (lhs rhs : U64) : Checked U64 :=
  guardZero (· == 0#64) 0#64 (· / ·) divZeroMessage lhs rhs

def checkedModU64 (lhs rhs : U64) : Checked U64 :=
  guardZero (· == 0#64) 0#64 (· % ·) modZeroMessage lhs rhs

def checkedDivU128 (lhs rhs : U128) : Checked U128 :=
  guardZero (· == 0#128) 0#128 (· / ·) divZeroMessage lhs rhs

def checkedModU128 (lhs rhs : U128) : Checked U128 :=
  guardZero (· == 0#128) 0#128 (· % ·) modZeroMessage lhs rhs

def checkedDivWide {N : Nat} (lhs rhs : HarcWide N) : Checked (HarcWide N) :=
  guardZero wideIsZero (HarcWide.zero N) (fun l r => (wideDivmod l r).1) divZeroMessage lhs rhs

def checkedModWide {N : Nat} (lhs rhs : HarcWide N) : Checked (HarcWide N) :=
  guardZero wideIsZero (HarcWide.zero N) (fun l r => (wideDivmod l r).2) modZeroMessage lhs rhs

theorem beq_zero_iff {w : Nat} (c : BitVec w) : (c == 0#w) = true ↔ c.toNat = 0 := by
  rw [beq_iff_eq, ← BitVec.toNat_inj]
  rfl

/-- The unsigned operations of every type of carriers. -/
structure UnsignedExact (N : Nat) : Prop where
  divU64 : Guarded BitVec.toNat checkedDivU64 (· / ·)
  modU64 : Guarded BitVec.toNat checkedModU64 (· % ·)
  divU128 : Guarded BitVec.toNat checkedDivU128 (· / ·)
  modU128 : Guarded BitVec.toNat checkedModU128 (· % ·)
  divWide : Guarded HarcWide.toNat (checkedDivWide (N := N)) (· / ·)
  modWide : Guarded HarcWide.toNat (checkedModWide (N := N)) (· % ·)

theorem unsignedExact {N : Nat} (hN : 32 * N < 2 ^ 32) : UnsignedExact N where
  divU64 := guarded_guardZero divZeroMessage beq_zero_iff fun _ _ _ => BitVec.toNat_udiv
  modU64 := guarded_guardZero modZeroMessage beq_zero_iff fun _ _ _ => BitVec.toNat_umod
  divU128 := guarded_guardZero divZeroMessage beq_zero_iff fun _ _ _ => BitVec.toNat_udiv
  modU128 := guarded_guardZero modZeroMessage beq_zero_iff fun _ _ _ => BitVec.toNat_umod
  divWide := guarded_guardZero divZeroMessage wideIsZero_iff fun _ _ h => (wideDivmod_spec hN h).1
  modWide := guarded_guardZero modZeroMessage wideIsZero_iff fun _ _ h => (wideDivmod_spec hN h).2

/-- Carriers of any width tier, with the widths that they can hold. -/
inductive Carried : {α : Type} → Tier α → Nat → Prop
  | u128 {width : Nat} (hwidth : 0 < width) (h : width ≤ 128) : Carried u128 width
  | wide {N width : Nat} (hN : 32 * N < 2 ^ 32) (hwidth : 0 < width) (h : width ≤ 32 * N) :
      Carried (wide N) width

theorem Carried.pos {α : Type} {t : Tier α} {width : Nat} (h : Carried t width) : 0 < width := by
  cases h with
  | u128 hwidth _ => exact hwidth
  | wide _ hwidth _ => exact hwidth

theorem Carried.lawful {α : Type} {t : Tier α} {width : Nat} (h : Carried t width) :
    t.Lawful width := by
  cases h with
  | u128 hwidth h => exact u128_lawful hwidth h
  | wide hN hwidth h => exact wide_lawful hN hwidth h

/-- The tiers agree at a width: on patterns with the same low bits, and with the 64-bit
carriers of the same values. -/
structure Agree {α β : Type} (t : Tier α) (u : Tier β) (width : Nat) : Prop where
  unchecked : ∀ l r l' r', t.pattern l width = u.pattern l' width →
    t.pattern r width = u.pattern r' width →
    t.toNat (t.sdiv l r width) = u.toNat (u.sdiv l' r' width) ∧
      t.toNat (t.smod l r width) = u.toNat (u.smod l' r' width)
  checked : ∀ l r l' r' zeroMessage overflowMessage, t.pattern l width = u.pattern l' width →
    t.pattern r width = u.pattern r' width →
    ((t.sdivChecked zeroMessage overflowMessage l r width).fault =
        (u.sdivChecked zeroMessage overflowMessage l' r' width).fault ∧
      t.toNat (t.sdivChecked zeroMessage overflowMessage l r width).value =
        u.toNat (u.sdivChecked zeroMessage overflowMessage l' r' width).value) ∧
    ((t.smodChecked zeroMessage overflowMessage l r width).fault =
        (u.smodChecked zeroMessage overflowMessage l' r' width).fault ∧
      t.toNat (t.smodChecked zeroMessage overflowMessage l r width).value =
        u.toNat (u.smodChecked zeroMessage overflowMessage l' r' width).value)

theorem agree_of_lawful {α β : Type} {t : Tier α} {u : Tier β} {width : Nat}
    (ht : t.Lawful width) (hu : u.Lawful width) (hwidth : 0 < width) : Agree t u width where
  unchecked := fun _ _ _ _ hl hr => Tier.sdiv_agree ht hu hl hr
  checked := fun _ _ _ _ zeroMessage overflowMessage hl hr =>
    ⟨Tier.sdivChecked_agree ht hu hwidth hl hr zeroMessage overflowMessage,
      Tier.smodChecked_agree ht hu hwidth hl hr zeroMessage overflowMessage⟩

/-- The division helpers: long division is exact, every tier divides the signed values at its
width and reports exactly the quotients that do not exist, and the tiers agree. -/
theorem division_exact :
    (∀ N, 32 * N < 2 ^ 32 → ∀ lhs rhs : HarcWide N, rhs.toNat ≠ 0 →
      lhs.toNat = (wideDivmod lhs rhs).1.toNat * rhs.toNat + (wideDivmod lhs rhs).2.toNat ∧
        (wideDivmod lhs rhs).2.toNat < rhs.toNat) ∧
    (∀ {α : Type} (t : Tier α) width, Carried t width → t.Exact width) ∧
    (∀ width, 0 < width → width ≤ 64 → ∀ lhs rhs : I64, InRange (width - 1) lhs.toInt →
      InRange (width - 1) rhs.toInt → ExactI64 width lhs rhs) ∧
    (∀ {α β : Type} (t : Tier α) (u : Tier β) width, Carried t width → Carried u width →
      Agree t u width) ∧
    (∀ {α : Type} (t : Tier α) width, Carried t width → width ≤ 64 →
      ∀ (lhs rhs : I64) (l r : α), t.signed l width = lhs.toInt → t.signed r width = rhs.toInt →
      (sdivI64 lhs rhs width).fault =
          (t.sdivChecked divZeroMessage divOverflowMessage l r width).fault ∧
        (sdivI64 lhs rhs width).value.toInt =
          t.signed (t.sdivChecked divZeroMessage divOverflowMessage l r width).value width ∧
        (smodI64 lhs rhs width).fault =
          (t.smodChecked modZeroMessage modOverflowMessage l r width).fault ∧
        (smodI64 lhs rhs width).value.toInt =
          t.signed (t.smodChecked modZeroMessage modOverflowMessage l r width).value width) ∧
    (∀ N, 32 * N < 2 ^ 32 → UnsignedExact N) := by
  refine ⟨?_, ?_, ?_, ?_, ?_, ?_⟩
  · intro N hN lhs rhs hrhs
    obtain ⟨hdiv, hmod⟩ := @wideDivmod_spec N hN lhs rhs hrhs
    rw [hdiv, hmod]
    exact ⟨(Nat.div_add_mod' _ _).symm, Nat.mod_lt _ (Nat.pos_of_ne_zero hrhs)⟩
  · intro α t width h
    exact Tier.exact_of_lawful h.lawful h.pos
  · intro width hwidth hle lhs rhs hl hr
    exact exactI64 hwidth hle hl hr
  · intro α β t u width ht hu
    exact agree_of_lawful ht.lawful hu.lawful ht.pos
  · intro α t width ht hle lhs rhs l r hl hr
    exact sdivI64_agree ht.lawful ht.pos hle hl hr
  · intro N hN
    exact unsignedExact hN

/-- `-7 / 2` in 8 bits of 64-bit carriers and of 128-bit patterns, and `7` divided by `2` in one
word. -/
theorem division_exact_minusSeven :
    (HarcWide.ofCInt 1 (CInt.ofU64 7)).toNat =
        (wideDivmod (HarcWide.ofCInt 1 (CInt.ofU64 7))
            (HarcWide.ofCInt 1 (CInt.ofU64 2))).1.toNat *
            (HarcWide.ofCInt 1 (CInt.ofU64 2)).toNat +
          (wideDivmod (HarcWide.ofCInt 1 (CInt.ofU64 7))
            (HarcWide.ofCInt 1 (CInt.ofU64 2))).2.toNat ∧
      (sdivI64 (-7) 2 8).value.toInt = -3 ∧
      (sdivU128 0xF9 2 8).toNat = 0xFD ∧
      (sdivI64 (-7) 2 8).fault = (sdivU128Checked 0xF9 2 8).fault := by
  obtain ⟨hwide, hexact, hnarrow, -, hagree, -⟩ := division_exact
  have hi64 := hnarrow 8 (by decide) (by decide) (-7) 2 ⟨by decide, by decide⟩
    ⟨by decide, by decide⟩
  have hu128 := hexact u128 8 (.u128 (by decide) (by decide))
  refine ⟨?_, ?_, ?_, ?_⟩
  · exact (hwide 1 (by decide) (HarcWide.ofCInt 1 (CInt.ofU64 7))
      (HarcWide.ofCInt 1 (CInt.ofU64 2)) (by decide +kernel)).1
  · exact hi64.sdivValue (by decide +kernel)
  · have hquotient := hu128.sdiv 0xF9 2 (by decide +kernel)
    have hvalue : (u128.signed 0xF9 8).tdiv (u128.signed 2 8) % 2 ^ 8 = 0xFD := by
      decide +kernel
    rw [hvalue] at hquotient
    exact Int.ofNat.inj hquotient
  · exact (hagree u128 8 (.u128 (by decide) (by decide)) (by decide) (-7) 2 0xF9 2
      (by decide +kernel) (by decide +kernel)).1

/-- Without a round nothing is divided. -/
theorem wideDivmod_ne {N : Nat} (hpos : 0 < N) (hN : N * 32 % 2 ^ 32 = 0) :
    (HarcWide.ofCInt N (CInt.ofU64 1)).toNat ≠ 0 ∧
      (HarcWide.ofCInt N (CInt.ofU64 1)).toNat ≠
        (wideDivmod (HarcWide.ofCInt N (CInt.ofU64 1)) (HarcWide.ofCInt N (CInt.ofU64 1))).1.toNat *
          (HarcWide.ofCInt N (CInt.ofU64 1)).toNat +
        (wideDivmod (HarcWide.ofCInt N (CInt.ofU64 1))
          (HarcWide.ofCInt N (CInt.ofU64 1))).2.toNat := by
  have hone := HarcWide.toNat_ofU64_one hpos
  have hzero : ¬ wideIsZero (HarcWide.ofCInt N (CInt.ofU64 1)) = true := by
    rw [wideIsZero_iff, hone]
    exact Nat.one_ne_zero
  rw [wideDivmod, if_neg hzero, hN, divmodLoop, hone, HarcWide.toNat_zero]
  exact ⟨Nat.one_ne_zero, by omega⟩

/-- With `2 ^ 27` words the number of rounds wraps to zero. -/
theorem wideDivmod_wraps :
    (HarcWide.ofCInt (2 ^ 27) (CInt.ofU64 1)).toNat ≠ 0 ∧
      (HarcWide.ofCInt (2 ^ 27) (CInt.ofU64 1)).toNat ≠
        (wideDivmod (HarcWide.ofCInt (2 ^ 27) (CInt.ofU64 1))
            (HarcWide.ofCInt (2 ^ 27) (CInt.ofU64 1))).1.toNat *
          (HarcWide.ofCInt (2 ^ 27) (CInt.ofU64 1)).toNat +
        (wideDivmod (HarcWide.ofCInt (2 ^ 27) (CInt.ofU64 1))
            (HarcWide.ofCInt (2 ^ 27) (CInt.ofU64 1))).2.toNat :=
  wideDivmod_ne (by decide) (by decide)

end Harc.DivisionTiers
