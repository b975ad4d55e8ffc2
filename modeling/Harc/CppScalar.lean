import Harc.TwosComplement
import Mathlib.Data.Nat.Size

/-!
Integer values of C++ with the type that carries them, and the operators that act on
bits.  A value is read as an infinite two's-complement pattern, so that the operators
can be described bit by bit whatever conversions they make.
-/

namespace Harc.CppScalar

open Harc.TwosComplement

/-- An integer type: `bool`, `int`, or one of at least 64 bits. -/
structure Carrier where
  bits : Nat
  signed : Bool
  valid : bits = 1 ∧ signed = false ∨ bits = 32 ∧ signed = true ∨ 64 ≤ bits
deriving DecidableEq

namespace Carrier

def bool : Carrier := ⟨1, false, by decide⟩

def int : Carrier := ⟨32, true, by decide⟩

def int64 : Carrier := ⟨64, true, by decide⟩

def uint64 : Carrier := ⟨64, false, by decide⟩

def int128 : Carrier := ⟨128, true, by decide⟩

def uint128 : Carrier := ⟨128, false, by decide⟩

/-- Consecutive 32-bit words. -/
def wide (words : Nat) (h : 2 ≤ words) : Carrier := ⟨32 * words, false, by omega⟩

/-- The integer promotion. -/
def promote (c : Carrier) : Carrier :=
  if c.bits < 32 then int else c

/-- The usual arithmetic conversions. -/
def common (c d : Carrier) : Carrier :=
  if c.promote.bits < d.promote.bits ∨ c.promote.bits = d.promote.bits ∧ c.promote.signed then
    d.promote
  else c.promote

theorem promote_of_lt {c : Carrier} (h : c.promote.bits < 64) :
    c.promote.bits = 32 ∧ c.promote.signed = true ∧
      (c.bits = 1 ∧ c.signed = false ∨ c.bits = 32 ∧ c.signed = true) := by
  have hvalid := c.valid
  unfold promote at h ⊢
  split_ifs at h ⊢ with hbits
  · exact ⟨rfl, rfl, by rcases hvalid with h | h | h <;> [exact .inl h; exact .inr h; omega]⟩
  · rcases hvalid with h' | h' | h'
    · omega
    · exact ⟨h'.1, h'.2, Or.inr h'⟩
    · omega

theorem common_of_lt {c d : Carrier} (h : (common c d).bits < 64) :
    c.promote.bits < 64 ∧ d.promote.bits < 64 ∧ (common c d).bits = 32 ∧
      (common c d).signed = true := by
  unfold common at h ⊢
  split_ifs at h ⊢ with hle
  · have hd := promote_of_lt h
    exact ⟨by omega, h, hd.1, hd.2.1⟩
  · have hc := promote_of_lt h
    have hlt : d.promote.bits < 64 := by omega
    exact ⟨h, hlt, hc.1, hc.2.1⟩

end Carrier

/-- A value of an integer type. -/
structure CValue where
  carrier : Carrier
  pattern : BitVec carrier.bits

namespace CValue

/-- The bits of the value, its sign included. -/
def bit (x : CValue) (i : Nat) : Bool :=
  if i < x.carrier.bits then x.pattern.getLsbD i else x.carrier.signed && x.pattern.msb

def toInt (x : CValue) : Int :=
  if x.carrier.signed then x.pattern.toInt else x.pattern.toNat

/-- The pattern of the value in another type. -/
def convert (x : CValue) (c : Carrier) : BitVec c.bits :=
  if x.carrier.signed then x.pattern.signExtend c.bits else x.pattern.setWidth c.bits

def cast (c : Carrier) (x : CValue) : CValue :=
  ⟨c, x.convert c⟩

def bitAnd (x y : CValue) : CValue :=
  let c := Carrier.common x.carrier y.carrier
  ⟨c, x.convert c &&& y.convert c⟩

def bitOr (x y : CValue) : CValue :=
  let c := Carrier.common x.carrier y.carrier
  ⟨c, x.convert c ||| y.convert c⟩

def bitNot (x : CValue) : CValue :=
  ⟨x.carrier.promote, ~~~ x.convert x.carrier.promote⟩

/-- The low `width` bits, in the same carrier. -/
def maskBits (x : CValue) (width : Nat) : CValue :=
  ⟨x.carrier, x.pattern &&& (BitVec.ofNat _ (2 ^ width - 1))⟩

def ofU64 (v : BitVec 64) : CValue :=
  ⟨.uint64, v⟩

def ofI64 (v : BitVec 64) : CValue :=
  ⟨.int64, v⟩

def toU64 (x : CValue) : BitVec 64 :=
  x.convert .uint64

theorem getLsbD_convert {x : CValue} {c : Carrier} {i : Nat} (hi : i < c.bits) :
    (x.convert c).getLsbD i = x.bit i := by
  unfold convert bit
  split
  · rename_i hsigned
    rw [BitVec.getLsbD_signExtend]
    simp [hi, hsigned]
  · rename_i hsigned
    rw [BitVec.getLsbD_setWidth]
    by_cases hlt : i < x.carrier.bits
    · simp [hi, hlt]
    · simp [hlt, hsigned, BitVec.getLsbD_of_ge _ _ (Nat.le_of_not_lt hlt)]

theorem bit_of_lt {x : CValue} {i : Nat} (hi : i < x.carrier.bits) :
    x.bit i = x.pattern.getLsbD i :=
  if_pos hi

theorem bit_of_ge {x : CValue} {i : Nat} (hi : ¬ i < x.carrier.bits) :
    x.bit i = (x.carrier.signed && x.pattern.msb) :=
  if_neg hi

theorem bit_eq_testBit {x : CValue} (i : Nat) : x.bit i = x.toInt.testBit i := by
  have hpos : 0 < x.carrier.bits := by
    have hvalid := x.carrier.valid
    omega
  unfold toInt
  split_ifs with hsigned
  · rw [testBit_toInt hpos, bit, hsigned, Bool.true_and]
  · have hbit : x.bit i = x.pattern.getLsbD i := by
      by_cases hi : i < x.carrier.bits
      · exact bit_of_lt hi
      · rw [bit_of_ge hi, BitVec.getLsbD_of_ge _ _ (Nat.le_of_not_lt hi)]
        simp [hsigned]
    rw [hbit]
    rfl

theorem msb_eq {w : Nat} (v : BitVec w) (h : w = 32) : v.msb = v.getLsbD 31 := by
  subst h
  exact BitVec.msb_eq_getLsbD_last v

/-- A `bool` or an `int` keeps all its bits in an `int`. -/
theorem msb_convert {x : CValue} {c : Carrier} (hbits : c.bits = 32)
    (hx : x.carrier.promote.bits < 64) {i : Nat} (hi : 32 ≤ i) :
    (x.convert c).msb = x.bit i := by
  have hlast : (x.convert c).getLsbD 31 = x.bit 31 := getLsbD_convert (by omega)
  rw [msb_eq _ hbits, hlast]
  unfold bit
  obtain ⟨-, -, h | h⟩ := Carrier.promote_of_lt hx
  · rw [if_neg (by omega), if_neg (by omega)]
  · rw [if_pos (by omega), if_neg (by omega), h.2, msb_eq _ h.1, Bool.true_and]

section Operators

variable {x y : CValue} {i : Nat}

theorem bit_bitAnd (hi : i < 64) : (bitAnd x y).bit i = (x.bit i && y.bit i) := by
  by_cases hc : i < (Carrier.common x.carrier y.carrier).bits
  · refine (bit_of_lt hc).trans ?_
    simp only [bitAnd, BitVec.getLsbD_and, getLsbD_convert hc]
  · obtain ⟨hx, hy, hbits, hsigned⟩ :=
      Carrier.common_of_lt (c := x.carrier) (d := y.carrier) (by omega)
    have h32 : 32 ≤ i := by omega
    refine (bit_of_ge hc).trans ?_
    simp only [bitAnd, hsigned, BitVec.msb_and, msb_convert hbits hx h32,
      msb_convert hbits hy h32, Bool.true_and]

theorem bit_bitOr (hi : i < 64) : (bitOr x y).bit i = (x.bit i || y.bit i) := by
  by_cases hc : i < (Carrier.common x.carrier y.carrier).bits
  · refine (bit_of_lt hc).trans ?_
    simp only [bitOr, BitVec.getLsbD_or, getLsbD_convert hc]
  · obtain ⟨hx, hy, hbits, hsigned⟩ :=
      Carrier.common_of_lt (c := x.carrier) (d := y.carrier) (by omega)
    have h32 : 32 ≤ i := by omega
    refine (bit_of_ge hc).trans ?_
    simp only [bitOr, hsigned, BitVec.msb_or, msb_convert hbits hx h32,
      msb_convert hbits hy h32, Bool.true_and]

theorem bit_bitNot (hi : i < 64) : (bitNot x).bit i = !x.bit i := by
  by_cases hc : i < x.carrier.promote.bits
  · refine (bit_of_lt hc).trans ?_
    simp only [bitNot, BitVec.getLsbD_not, hc, decide_true, Bool.true_and, getLsbD_convert hc]
  · have hx : x.carrier.promote.bits < 64 := by omega
    obtain ⟨hbits, hsigned, -⟩ := Carrier.promote_of_lt hx
    refine (bit_of_ge hc).trans ?_
    simp only [bitNot, hsigned, BitVec.msb_not, hbits,
      msb_convert hbits hx (show 32 ≤ i by omega)]
    simp

theorem bit_cast {c : Carrier} (hi : i < c.bits) : (cast c x).bit i = x.bit i := by
  rw [bit_of_lt hi]
  exact getLsbD_convert hi

theorem bit_maskBits {width : Nat} (hi : i < x.carrier.bits) :
    (maskBits x width).bit i = (decide (i < width) && x.bit i) := by
  refine (bit_of_lt (x := maskBits x width) hi).trans ?_
  rw [bit_of_lt hi]
  simp only [maskBits, BitVec.getLsbD_and, BitVec.getLsbD_ofNat, hi, decide_true,
    Bool.true_and, Nat.testBit_two_pow_sub_one]
  exact Bool.and_comm _ _

theorem getLsbD_toU64 (hi : i < 64) : x.toU64.getLsbD i = x.bit i :=
  getLsbD_convert hi

@[simp] theorem bit_ofU64 {v : BitVec 64} : (ofU64 v).bit i = v.getLsbD i := by
  unfold bit ofU64 Carrier.uint64
  by_cases hi : i < 64
  · simp [hi]
  · simp [hi, BitVec.getLsbD_of_ge _ _ (Nat.le_of_not_lt hi)]

@[simp] theorem toU64_ofU64 {v : BitVec 64} : (ofU64 v).toU64 = v := by
  refine BitVec.eq_of_getLsbD_eq fun i hi => ?_
  rw [getLsbD_toU64 hi, bit_ofU64]

theorem getLsbD_ofI64 {v : BitVec 64} (hi : i < 64) : (ofI64 v).bit i = v.getLsbD i :=
  bit_of_lt hi

theorem toInt_ofI64 (v : BitVec 64) : (ofI64 v).toInt = v.toInt := rfl

/-- An unsigned 64-bit operand bounds the result, whatever the type of the other one. -/
theorem toInt_bitAnd_ofU64 {v : BitVec 64} :
    (bitAnd (ofU64 v) y).toInt = ((bitAnd (ofU64 v) y).toU64.toNat : Int) := by
  have hcommon : 64 ≤ (Carrier.common .uint64 y.carrier).bits ∧
      ((Carrier.common .uint64 y.carrier).signed = true →
        64 < (Carrier.common .uint64 y.carrier).bits) := by
    unfold Carrier.common
    split_ifs with h
    · have hlt : Carrier.uint64.promote.bits < y.carrier.promote.bits := by
        rcases h with h | h
        · exact h
        · exact absurd h.2 (by decide)
      exact ⟨Nat.le_of_lt hlt, fun _ => hlt⟩
    · exact ⟨by decide, by decide⟩
  obtain ⟨hle, hsigned⟩ := hcommon
  have hhigh : ∀ i, 64 ≤ i → (bitAnd (ofU64 v) y).pattern.getLsbD i = false := by
    intro i hi
    by_cases hc : i < (Carrier.common .uint64 y.carrier).bits
    · have hzero : (CValue.convert (ofU64 v) (Carrier.common .uint64 y.carrier)).getLsbD i =
          false := by
        rw [getLsbD_convert hc, bit_ofU64, BitVec.getLsbD_of_ge _ _ hi]
      exact (BitVec.getLsbD_and ..).trans (Bool.and_eq_false_iff.mpr (Or.inl hzero))
    · exact BitVec.getLsbD_of_ge _ _ (Nat.le_of_not_lt hc)
  have hnat : (bitAnd (ofU64 v) y).pattern.toNat = (bitAnd (ofU64 v) y).toU64.toNat := by
    refine Nat.eq_of_testBit_eq fun i => ?_
    by_cases hi : i < 64
    · refine Eq.trans ?_ (getLsbD_toU64 hi).symm
      exact (bit_of_lt (Nat.lt_of_lt_of_le hi hle)).symm
    · have hge : 64 ≤ i := Nat.le_of_not_lt hi
      exact (hhigh i hge).trans (BitVec.getLsbD_of_ge _ _ hge).symm
  rw [← hnat, toInt]
  split_ifs with hs
  · have hmsb : (bitAnd (ofU64 v) y).pattern.msb = false := by
      rw [BitVec.msb_eq_getLsbD_last]
      exact hhigh _ (Nat.le_sub_one_of_lt (hsigned hs))
    exact BitVec.toInt_eq_toNat_of_msb hmsb
  · rfl

end Operators

end CValue

section Literals

/-- The type of a decimal literal that no signed type of at most 64 bits holds is left to
the compiler. -/
structure Compiler where
  largeLiteral : Carrier
  holds : 64 < largeLiteral.bits ∨ 64 = largeLiteral.bits ∧ largeLiteral.signed = false

theorem Compiler.int128_holds :
    64 < Carrier.int128.bits ∨
      64 = Carrier.int128.bits ∧ Carrier.int128.signed = false :=
  Or.inl (by decide)

/-- A decimal literal without a suffix. -/
def decimal (cc : Compiler) (n : Nat) : CValue :=
  if n < 2 ^ 31 then ⟨.int, BitVec.ofNat _ n⟩
  else if n < 2 ^ 63 then ⟨.int64, BitVec.ofNat _ n⟩
  else ⟨cc.largeLiteral, BitVec.ofNat _ n⟩

/-- A literal is not negative. -/
theorem bit_ofNat {c : Carrier} {n : Nat} (hn : n < 2 ^ c.bits)
    (hsigned : c.signed = true → 0 < c.bits ∧ n < 2 ^ (c.bits - 1)) (i : Nat) :
    (CValue.mk c (BitVec.ofNat _ n)).bit i = n.testBit i := by
  by_cases hi : i < c.bits
  · rw [CValue.bit_of_lt (x := CValue.mk c (BitVec.ofNat _ n)) hi, BitVec.getLsbD_ofNat]
    simp [hi]
  · have hhigh : n.testBit i = false :=
      Nat.testBit_lt_two_pow
        (Nat.lt_of_lt_of_le hn (Nat.pow_le_pow_right (by omega) (Nat.le_of_not_lt hi)))
    rw [CValue.bit_of_ge (x := CValue.mk c (BitVec.ofNat _ n)) hi, hhigh]
    cases hs : c.signed with
    | false => simp
    | true =>
        obtain ⟨hpos, hlt⟩ := hsigned hs
        have hlast : c.bits - 1 < c.bits := by omega
        rw [BitVec.msb_eq_getLsbD_last, BitVec.getLsbD_ofNat, Nat.testBit_lt_two_pow hlt]
        simp

theorem bit_decimal {cc : Compiler} {n : Nat} (hn : n < 2 ^ 64) (i : Nat) :
    (decimal cc n).bit i = n.testBit i := by
  unfold decimal
  split_ifs with h31 h63
  · exact bit_ofNat (c := .int) (Nat.lt_trans h31 (by decide)) (fun _ => ⟨by decide, h31⟩) i
  · exact bit_ofNat (c := .int64) (Nat.lt_trans h63 (by decide)) (fun _ => ⟨by decide, h63⟩) i
  · have hle : 2 ^ 64 ≤ 2 ^ cc.largeLiteral.bits :=
      Nat.pow_le_pow_right (by omega) (by have := cc.holds; omega)
    refine bit_ofNat (Nat.lt_of_lt_of_le hn hle) (fun hs => ?_) i
    have hbits : 64 < cc.largeLiteral.bits := by
      rcases cc.holds with h | h
      · exact h
      · rw [hs] at h
        exact absurd h.2 (by decide)
    exact ⟨by omega, Nat.lt_of_lt_of_le hn (Nat.pow_le_pow_right (by omega) (by omega))⟩

end Literals

end Harc.CppScalar
