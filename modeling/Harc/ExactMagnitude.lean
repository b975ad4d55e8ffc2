import Harc.WordLists

/-!
Magnitudes of arbitrary-precision integers: little-endian lists of 32-bit
limbs.  Bit counts are 32-bit and wrap.
-/

namespace Harc.ExactMagnitude

open Harc.WordLists

abbrev U32 := BitVec 32
abbrev U64 := BitVec 64
abbrev U128 := BitVec 128

def trim (mag : List U32) : List U32 :=
  mag.rdropWhile (· == 0#32)

theorem trim_trimmed (mag : List U32) : Trimmed (trim mag) := by
  intro h
  have hne : trim mag ≠ [] := by
    rintro hnil
    rw [hnil] at h
    cases h
  have hlast := List.rdropWhile_last_not (· == 0#32) mag hne
  rw [List.getLast?_eq_some_getLast hne, Option.some.injEq] at h
  exact hlast (beq_iff_eq.mpr h)

/-- The loop of `mag_cmp`, over the limbs from the highest on. -/
def magCmpLoop : List U32 → List U32 → Ordering
  | x :: a, y :: b => if x ≠ y then compare x.toNat y.toNat else magCmpLoop a b
  | _, _ => .eq

def magCmp (a b : List U32) : Ordering :=
  if a.length ≠ b.length then compare a.length b.length
  else magCmpLoop a.reverse b.reverse

/-- The loop of `mag_add` for the remaining number of limbs. -/
def magAddLoop : Nat → List U32 → List U32 → U64 → List U32
  | 0, _, _, carry => if carry ≠ 0 then [carry.setWidth 32] else []
  | n + 1, a, b, carry =>
      let s := addWord (a.headD 0) (b.headD 0) carry
      s.1 :: magAddLoop n a.tail b.tail s.2

def magAdd (a b : List U32) : List U32 :=
  trim (magAddLoop (max a.length b.length) a b 0)

def magSubLoop : List U32 → List U32 → Int → List U32
  | [], _, _ => []
  | x :: a, b, borrow =>
      let d : Int := x.toNat - (b.headD 0).toNat - borrow
      if d < 0 then BitVec.ofInt 32 (d + 2 ^ 32) :: magSubLoop a b.tail 1
      else BitVec.ofInt 32 d :: magSubLoop a b.tail 0

/-- `a - b` for `a ≥ b`. -/
def magSub (a b : List U32) : List U32 :=
  trim (magSubLoop a b 0)

/-- The `while carry != 0` loop of `mag_mul`. -/
def magMulCarry : List U32 → U64 → List U32
  | [], _ => []
  | o :: out, carry =>
      if carry = 0 then o :: out
      else
        let t := o.setWidth 64 + carry
        t.setWidth 32 :: magMulCarry out (t >>> 32)

/-- One row of `mag_mul`, on the limbs of `out` from the row's index on. -/
def magMulRow (x : U32) : List U32 → List U32 → U64 → List U32
  | o :: out, y :: b, carry =>
      let t := mulWord o x y carry
      t.1 :: magMulRow x out b t.2
  | out, _, carry => magMulCarry out carry

/-- The rows of `mag_mul`; a row leaves the limbs below its index alone. -/
def magMulLoop : List U32 → List U32 → List U32 → List U32
  | [], _, out => out
  | x :: a, b, out =>
      match magMulRow x out b 0 with
      | [] => []
      | o :: out => o :: magMulLoop a b out

def magMul (a b : List U32) : List U32 :=
  if a.isEmpty || b.isEmpty then []
  else trim (magMulLoop a b (List.replicate (a.length + b.length) 0))

def leadingZeros (x : U32) : Nat :=
  32 - Nat.size x.toNat

def magBitLen (a : List U32) : U32 :=
  match a.getLast? with
  | none => 0
  | some top =>
      (BitVec.ofNat 32 a.length - 1) * 32 + (32 - BitVec.ofNat 32 (leadingZeros top))

def magBit (a : List U32) (bit : Nat) : Bool :=
  match a[bit / 32]? with
  | some w => (w >>> (bit % 32)) &&& 1 == 1
  | none => false

def magShlLoop (bits : Nat) : List U32 → U32 → List U32
  | [], carry => if carry ≠ 0 then [carry] else []
  | x :: a, carry =>
      if bits = 0 then x :: magShlLoop bits a carry
      else ((x <<< bits) ||| carry) :: magShlLoop bits a (x >>> (32 - bits))

def magShl (a : List U32) (n : U32) : List U32 :=
  if a.isEmpty then []
  else trim (List.replicate (n.toNat / 32) 0 ++ magShlLoop (n.toNat % 32) a 0)

def magShrLoop (bits : Nat) : List U32 → List U32
  | [] => []
  | x :: src =>
      let hi := if bits = 0 then 0 else (src.head?.map fun h : U32 => h <<< (32 - bits)).getD 0
      ((x >>> bits) ||| hi) :: magShrLoop bits src

def magShr (a : List U32) (n : U32) : List U32 :=
  if a.length ≤ n.toNat / 32 then []
  else trim (magShrLoop (n.toNat % 32) (a.drop (n.toNat / 32)))

/-- The low `w` bits of a magnitude. -/
def magLowBits (a : List U32) (w : U32) : List U32 :=
  let words := (w.toNat + 31) / 32
  let out := a.take words
  if out.length = words ∧ w.toNat % 32 ≠ 0 then
    trim (out.modify (words - 1) fun last => last &&& ((1#32 <<< (w.toNat % 32)) - 1))
  else trim out

/-- The remainder with the next bit of the dividend. -/
def bringDown (a : List U32) (bit : Nat) (r : List U32) : List U32 :=
  if magBit a bit then
    match magShl r 1 with
    | [] => [1]
    | low :: rest => (low ||| 1) :: rest
  else magShl r 1

/-- One bit of the shift-subtract division, on the quotient and the remainder. -/
def magDivremBit (a b : List U32) (bit : Nat) (q r : List U32) : List U32 × List U32 :=
  let r := bringDown a bit r
  if magCmp r b ≠ .lt then
    (q.modify (bit / 32) fun w => w ||| (1#32 <<< (bit % 32)), magSub r b)
  else (q, r)

/-- The bits below the given one, from the highest on. -/
def magDivremLoop (a b : List U32) : Nat → List U32 → List U32 → List U32 × List U32
  | 0, q, r => (q, r)
  | bit + 1, q, r =>
      let (q, r) := magDivremBit a b bit q r
      magDivremLoop a b bit q r

/-- Truncated magnitude division, for a divisor that is not zero. -/
def magDivrem (a b : List U32) : List U32 × List U32 :=
  if magCmp a b = .lt then ([], a)
  else
    let (q, r) := magDivremLoop a b (magBitLen a).toNat (List.replicate a.length 0) []
    (trim q, r)

theorem value_trim (mag : List U32) : value (trim mag) = value mag := by
  induction mag using List.reverseRecOn with
  | nil => rfl
  | append_singleton mag x ih =>
      rw [trim, List.rdropWhile_concat]
      by_cases hx : x = 0#32
      · rw [if_pos (by simpa using hx), value_concat, hx]
        change value (trim mag) = _
        simpa using ih
      · rw [if_neg (by simpa using hx)]

theorem trim_eq_self {mag : List U32} (h : Trimmed mag) : trim mag = mag :=
  (trim_trimmed mag).eq_of_value_eq h (value_trim mag)

theorem trim_eq_nil {mag : List U32} : trim mag = [] ↔ value mag = 0 := by
  rw [← value_trim mag, (trim_trimmed mag).value_eq_zero]

section Comparison

/-- The limbs of equally long magnitudes, from the highest on. -/
theorem magCmpLoop_eq {a b : List U32} (hlength : a.length = b.length) :
    magCmpLoop a b = compare (value a.reverse) (value b.reverse) := by
  induction a generalizing b with
  | nil =>
      rw [List.eq_nil_of_length_eq_zero hlength.symm]
      rfl
  | cons x a ih =>
      rcases b with _ | ⟨y, b⟩
      · simp at hlength
      have htail : a.length = b.length := Nat.succ.inj hlength
      have hreverse : a.reverse.length = b.reverse.length := by simpa using htail
      rw [magCmpLoop, List.reverse_cons, List.reverse_cons]
      by_cases hxy : x = y
      · rw [if_neg (by simpa using hxy), ih htail, value_concat, value_concat, hreverse, hxy]
        rcases Nat.lt_trichotomy (value a.reverse) (value b.reverse) with h | h | h
        · rw [Nat.compare_eq_lt.mpr h, Nat.compare_eq_lt.mpr (by omega)]
        · rw [h]
          simp
        · rw [Nat.compare_eq_gt.mpr h, Nat.compare_eq_gt.mpr (by omega)]
      · rw [if_pos hxy]
        have hne : x.toNat ≠ y.toNat := fun h => hxy (BitVec.toNat_inj.mp h)
        rcases Nat.lt_or_gt_of_ne hne with h | h
        · rw [Nat.compare_eq_lt.mpr h, Nat.compare_eq_lt.mpr (value_concat_lt hreverse h)]
        · rw [Nat.compare_eq_gt.mpr h, Nat.compare_eq_gt.mpr (value_concat_lt hreverse.symm h)]

theorem magCmp_eq {a b : List U32} (ha : Trimmed a) (hb : Trimmed b) :
    magCmp a b = compare (value a) (value b) := by
  unfold magCmp
  split
  · rename_i hlength
    rcases Nat.lt_or_gt_of_ne hlength with h | h
    · rw [Nat.compare_eq_lt.mpr h, Nat.compare_eq_lt.mpr (hb.value_lt_of_length_lt h)]
    · rw [Nat.compare_eq_gt.mpr h, Nat.compare_eq_gt.mpr (ha.value_lt_of_length_lt h)]
  · rename_i hlength
    rw [magCmpLoop_eq (by simpa using hlength)]
    simp

end Comparison

section Sums

theorem value_headD_tail (a : List U32) :
    value a = (a.headD 0).toNat + 2 ^ 32 * value a.tail := by
  cases a <;> simp

theorem value_magAddLoop {n : Nat} {a b : List U32} {carry : U64} (ha : a.length ≤ n)
    (hb : b.length ≤ n) (hcarry : carry.toNat ≤ 1) :
    value (magAddLoop n a b carry) = value a + value b + carry.toNat := by
  induction n generalizing a b carry with
  | zero =>
      rw [List.eq_nil_of_length_eq_zero (Nat.le_zero.mp ha),
        List.eq_nil_of_length_eq_zero (Nat.le_zero.mp hb), magAddLoop]
      split
      · have hlt : carry.toNat < 4294967296 := by omega
        simpa using hlt
      · rename_i hzero
        have : carry = 0#64 := by simpa using hzero
        simp [this]
  | succ n ih =>
      obtain ⟨hsum, hnext⟩ := addWord_spec (by omega) (a.headD 0) (b.headD 0) hcarry
      have hrest := ih (a := a.tail) (b := b.tail) (by simp; omega) (by simp; omega) hnext
      rw [magAddLoop, value_cons, hrest, value_headD_tail a, value_headD_tail b]
      omega

theorem value_magAdd (a b : List U32) : value (magAdd a b) = value a + value b := by
  rw [magAdd, value_trim,
    value_magAddLoop (Nat.le_max_left _ _) (Nat.le_max_right _ _) (by simp)]
  simp

/-- The borrow is subtracted too, and none is left at the end. -/
theorem value_magSubLoop (a b : List U32) (borrow : Nat) (hborrow : borrow ≤ 1)
    (hle : value b + borrow ≤ value a) :
    value (magSubLoop a b borrow) = value a - value b - borrow := by
  induction a generalizing b borrow with
  | nil =>
      rw [value_nil] at hle
      simp [magSubLoop]
  | cons x a ih =>
      have hx := x.isLt
      have hy := (b.headD 0).isLt
      rw [value_headD_tail b, value_cons] at hle
      rw [value_headD_tail b, value_cons, magSubLoop]
      split
      · rename_i hneg
        have hrest := ih b.tail 1 (Nat.le_refl 1) (by omega)
        have hword : (BitVec.ofInt 32
            ((x.toNat : Int) - (b.headD 0).toNat - borrow + 2 ^ 32)).toNat =
              x.toNat + 2 ^ 32 - (b.headD 0).toNat - borrow := by
          rw [BitVec.toNat_ofInt]
          omega
        rw [value_cons, hword, Nat.cast_one.symm, hrest]
        omega
      · rename_i hnonneg
        have hrest := ih b.tail 0 (Nat.zero_le 1) (by omega)
        have hword : (BitVec.ofInt 32
            ((x.toNat : Int) - (b.headD 0).toNat - borrow)).toNat =
              x.toNat - (b.headD 0).toNat - borrow := by
          rw [BitVec.toNat_ofInt]
          omega
        rw [Nat.cast_zero] at hrest
        rw [value_cons, hword, hrest]
        omega

theorem value_magSub {a b : List U32} (hle : value b ≤ value a) :
    value (magSub a b) = value a - value b := by
  rw [magSub, value_trim]
  exact value_magSubLoop a b 0 (Nat.zero_le 1) hle

end Sums

section Products

theorem length_magMulCarry (out : List U32) (carry : U64) :
    (magMulCarry out carry).length = out.length := by
  induction out generalizing carry with
  | nil => rfl
  | cons o out ih =>
      rw [magMulCarry]
      split
      · rfl
      · simp [ih]

theorem value_magMulCarry (out : List U32) (carry : U64) (hcarry : carry.toNat < 2 ^ 32)
    (hfits : value out + carry.toNat < 2 ^ (32 * out.length)) :
    value (magMulCarry out carry) = value out + carry.toNat := by
  induction out generalizing carry with
  | nil =>
      have : carry.toNat = 0 := by simpa using hfits
      simp [magMulCarry, this]
  | cons o out ih =>
      rw [magMulCarry]
      split
      · rename_i hzero
        simp [hzero]
      · have ho := o.isLt
        have hsum : (o.setWidth 64 + carry).toNat = o.toNat + carry.toNat := by
          rw [BitVec.toNat_add, toNat_setWidth_of_le (by omega)]
          exact Nat.mod_eq_of_lt (by omega)
        obtain ⟨hsplit, hhigh⟩ := split_accumulator (w := 32) _ hsum
        have hpow : 2 ^ (32 * (o :: out).length) = 2 ^ 32 * 2 ^ (32 * out.length) := by
          rw [← pow_add, List.length_cons]
          ring_nf
        rw [value_cons, hpow] at hfits
        have hrest := ih ((o.setWidth 64 + carry) >>> 32) (by omega) (by omega)
        rw [value_cons, value_cons, hrest]
        omega

theorem length_magMulRow (x : U32) (out b : List U32) (carry : U64) :
    (magMulRow x out b carry).length = out.length := by
  induction out generalizing b carry with
  | nil => simp [magMulRow, magMulCarry]
  | cons o out ih =>
      cases b with
      | nil => simp [magMulRow, length_magMulCarry]
      | cons y b => simp [magMulRow, ih]

theorem value_magMulRow (x : U32) (out b : List U32) (carry : U64)
    (hcarry : carry.toNat < 2 ^ 32)
    (hfits : value out + x.toNat * value b + carry.toNat < 2 ^ (32 * out.length)) :
    value (magMulRow x out b carry) = value out + x.toNat * value b + carry.toNat := by
  induction out generalizing b carry with
  | nil =>
      have : x.toNat * value b + carry.toNat = 0 := by simpa using hfits
      simp [magMulRow, magMulCarry, this]
  | cons o out ih =>
      cases b with
      | nil =>
          rw [value_nil, Nat.mul_zero, Nat.add_zero] at hfits ⊢
          exact value_magMulCarry (o :: out) carry hcarry hfits
      | cons y b =>
          obtain ⟨hsum, hnext⟩ := mulWord_spec (by omega) o x y hcarry
          have hpow : 2 ^ (32 * (o :: out).length) = 2 ^ 32 * 2 ^ (32 * out.length) := by
            rw [← pow_add, List.length_cons]
            ring_nf
          have hmul : x.toNat * (y.toNat + 2 ^ 32 * value b) =
              x.toNat * y.toNat + 2 ^ 32 * (x.toNat * value b) := by ring
          rw [value_cons, value_cons, hmul, hpow] at hfits
          have hrest := ih b _ hnext (by omega)
          rw [magMulRow, value_cons, hrest, value_cons, value_cons, hmul]
          omega

theorem value_magMulLoop (a b out : List U32) (hlength : a.length ≤ out.length)
    (hfits : value out + value a * value b < 2 ^ (32 * out.length)) :
    value (magMulLoop a b out) = value out + value a * value b := by
  induction a generalizing out with
  | nil => simp [magMulLoop]
  | cons x a ih =>
      have hmul : value (x :: a) * value b =
          x.toNat * value b + 2 ^ 32 * (value a * value b) := by
        rw [value_cons]
        ring
      rw [hmul] at hfits ⊢
      have hrow := value_magMulRow x out b 0 (by simp) (by simp; omega)
      have hlengthRow := length_magMulRow x out b 0
      rw [magMulLoop]
      cases hout : magMulRow x out b 0 with
      | nil =>
          rw [hout] at hlengthRow
          simp [← hlengthRow] at hlength
      | cons o rest =>
          rw [hout, value_cons] at hrow
          rw [hout] at hlengthRow
          have hpow : 2 ^ (32 * out.length) = 2 ^ 32 * 2 ^ (32 * rest.length) := by
            rw [← pow_add, ← hlengthRow, List.length_cons]
            ring_nf
          simp only [BitVec.ofNat_eq_ofNat, BitVec.toNat_ofNat, Nat.zero_mod,
            Nat.add_zero] at hrow
          have hrest := ih rest (by simp at hlengthRow hlength; omega) (by omega)
          simp only [value_cons, hrest]
          omega

theorem value_magMul (a b : List U32) : value (magMul a b) = value a * value b := by
  unfold magMul
  split
  · rename_i hempty
    rcases Bool.or_eq_true_iff.mp hempty with h | h <;> simp [List.isEmpty_iff.mp h]
  · rw [value_trim, value_magMulLoop]
    · simp
    · simp
    · rw [show (0 : U32) = 0#32 from rfl, value_replicate_zero, List.length_replicate,
        Nat.zero_add, Nat.mul_add, pow_add]
      exact Nat.mul_lt_mul'' (value_lt a) (value_lt b)

end Products

section Bits

theorem size_le_of_lt {w : Nat} (x : BitVec w) : Nat.size x.toNat ≤ w :=
  Nat.size_le.mpr x.isLt

theorem toNat_magBitLen {a : List U32} (ha : Trimmed a) :
    (magBitLen a).toNat = Nat.size (value a) % 2 ^ 32 := by
  rcases List.eq_nil_or_concat' a with rfl | ⟨xs, top, rfl⟩
  · simp [magBitLen]
  · rw [trimmed_concat] at ha
    have hsize := size_le_of_lt top
    rw [size_value_concat ha, magBitLen]
    simp only [List.getLast?_append, List.getLast?_singleton, Option.some_or,
      List.length_append, List.length_singleton, leadingZeros, BitVec.toNat_add,
      BitVec.toNat_mul, BitVec.toNat_sub, BitVec.ofNat_eq_ofNat, BitVec.toNat_ofNat]
    omega

theorem and_one_beq_one (w : U32) (k : Nat) :
    ((w >>> k) &&& 1 == 1) = w.getLsbD k := by
  rw [Bool.eq_iff_iff, beq_iff_eq, ← BitVec.toNat_inj]
  simp [BitVec.getLsbD, Nat.testBit, Nat.and_one_is_mod, Nat.one_and_eq_mod_two]

theorem magBit_eq (a : List U32) (bit : Nat) : magBit a bit = (value a).testBit bit := by
  rw [testBit_value (by omega), magBit]
  cases a[bit / 32]? with
  | none => simp
  | some w => exact and_one_beq_one w (bit % 32)

theorem value_magShlLoop {bits : Nat} (hbits : bits < 32) (a : List U32) (carry : U32)
    (hcarry : carry.toNat < 2 ^ bits) :
    value (magShlLoop bits a carry) = value a * 2 ^ bits + carry.toNat := by
  induction a generalizing carry with
  | nil =>
      rw [magShlLoop]
      split
      · simp
      · rename_i hzero
        have : carry = 0#32 := by simpa using hzero
        simp [this]
  | cons x a ih =>
      rw [magShlLoop]
      split
      · rename_i hzero
        subst hzero
        have : carry.toNat = 0 := by simpa using hcarry
        rw [value_cons, ih carry hcarry, value_cons, this]
        simp
      · have hnext : (x >>> (32 - bits)).toNat = x.toNat / 2 ^ (32 - bits) := by
          rw [BitVec.toNat_ushiftRight, Nat.shiftRight_eq_div_pow]
        have hnext_lt : (x >>> (32 - bits)).toNat < 2 ^ bits := by
          rw [hnext]
          refine Nat.div_lt_of_lt_mul ?_
          rw [← pow_add, Nat.sub_add_cancel (Nat.le_of_lt hbits)]
          exact x.isLt
        have hsplit := shl_word_split (Nat.le_of_lt hbits) x.toNat
        rw [value_cons, toNat_shiftLeft_or (Nat.le_of_lt hbits) x hcarry, ih _ hnext_lt, hnext,
          value_cons, Nat.add_mul, ← hsplit]
        ring

theorem value_magShl (a : List U32) (n : U32) : value (magShl a n) = value a * 2 ^ n.toNat := by
  unfold magShl
  split
  · rename_i hempty
    simp [List.isEmpty_iff.mp hempty]
  · rw [value_trim, value_append, show (0 : U32) = 0#32 from rfl, value_replicate_zero,
      value_magShlLoop (Nat.mod_lt _ (by omega)) a 0#32 (by simp), List.length_replicate]
    calc
      _ = value a * 2 ^ (32 * (n.toNat / 32) + n.toNat % 32) := by
        rw [pow_add]
        simp
        ring
      _ = _ := by rw [Nat.div_add_mod]

theorem value_magShrLoop {bits : Nat} (hbits : bits < 32) (a : List U32) :
    value (magShrLoop bits a) = value a / 2 ^ bits := by
  induction a with
  | nil => simp [magShrLoop]
  | cons x src ih =>
      have hpow : 2 ^ 32 = 2 ^ bits * 2 ^ (32 - bits) := by
        rw [← pow_add, Nat.add_sub_cancel' (Nat.le_of_lt hbits)]
      have hlow : (x >>> bits).toNat < 2 ^ (32 - bits) := by
        rw [BitVec.toNat_ushiftRight, Nat.shiftRight_eq_div_pow]
        exact Nat.div_lt_of_lt_mul (by rw [← hpow]; exact x.isLt)
      have hhi : ∀ h : U32, ((h <<< (32 - bits)) ||| (x >>> bits)).toNat =
          2 ^ (32 - bits) * (h.toNat % 2 ^ bits) + x.toNat / 2 ^ bits := by
        intro h
        rw [toNat_shiftLeft_or (Nat.sub_le 32 bits) h hlow, Nat.sub_sub_self (Nat.le_of_lt hbits),
          BitVec.toNat_ushiftRight, Nat.shiftRight_eq_div_pow]
      have hword : ((x >>> bits) ||| (if bits = 0 then (0 : U32) else
          (src.head?.map fun h : U32 => h <<< (32 - bits)).getD 0)).toNat =
            x.toNat / 2 ^ bits + 2 ^ (32 - bits) * (value src % 2 ^ bits) := by
        split
        · rename_i hzero
          simp [hzero, Nat.mod_one]
        · cases src with
          | nil => simp [Nat.shiftRight_eq_div_pow]
          | cons h rest =>
              have hmod : value (h :: rest) % 2 ^ bits = h.toNat % 2 ^ bits := by
                rw [value_cons, hpow, Nat.mul_assoc, Nat.add_mul_mod_self_left]
              rw [hmod, BitVec.or_comm]
              exact (hhi h).trans (Nat.add_comm _ _)
      rw [magShrLoop, value_cons, ih, hword, value_cons, shr_cons_split (Nat.le_of_lt hbits)]

theorem value_magShr (a : List U32) (n : U32) : value (magShr a n) = value a / 2 ^ n.toNat := by
  have hsplit : 2 ^ n.toNat = 2 ^ (32 * (n.toNat / 32)) * 2 ^ (n.toNat % 32) := by
    rw [← pow_add, Nat.div_add_mod]
  unfold magShr
  split
  · rename_i hlength
    rw [value_nil, hsplit, ← Nat.div_div_eq_div_mul, ← value_drop,
      List.drop_eq_nil_of_le hlength]
    simp
  · rw [value_trim, value_magShrLoop (Nat.mod_lt _ (by omega)), value_drop, hsplit,
      Nat.div_div_eq_div_mul]

theorem and_mask_toNat (x : U32) {k : Nat} (hk : k < 32) :
    (x &&& ((1#32 <<< k) - 1)).toNat = x.toNat % 2 ^ k := by
  have hmask : ((1#32 <<< k) - 1#32).toNat = 2 ^ k - 1 := by
    have hlt : 2 ^ k < 2 ^ 32 := Nat.pow_lt_pow_right (by omega) hk
    have hpos := Nat.two_pow_pos k
    rw [BitVec.toNat_sub, BitVec.toNat_shiftLeft, Nat.shiftLeft_eq]
    simp only [BitVec.toNat_ofNat]
    rw [Nat.mod_eq_of_lt (a := 1) (by omega), Nat.one_mul, Nat.mod_eq_of_lt hlt]
    omega
  rw [BitVec.toNat_and]
  exact (congrArg _ hmask).trans (Nat.and_two_pow_sub_one_eq_mod _ _)

theorem value_magLowBits (a : List U32) (w : U32) :
    value (magLowBits a w) = value a % 2 ^ w.toNat := by
  have hw : w.toNat = 32 * (w.toNat / 32) + w.toNat % 32 := (Nat.div_add_mod _ _).symm
  have hbits : w.toNat % 32 < 32 := Nat.mod_lt _ (by omega)
  unfold magLowBits
  generalize hk : w.toNat / 32 = k at hw
  generalize w.toNat % 32 = j at hw hbits
  have hwords : (w.toNat + 31) / 32 = if j = 0 then k else k + 1 := by
    split <;> omega
  simp only [hwords]
  rcases Nat.eq_zero_or_pos j with rfl | hj
  · rw [if_neg (by simp), value_trim, value_take, hw]
    simp
  · simp only [Nat.pos_iff_ne_zero.mp hj, if_false, ne_eq, not_false_eq_true, and_true,
      Nat.add_sub_cancel]
    rcases Nat.lt_or_ge k a.length with hlt | hge
    · have hlength : (a.take (k + 1)).length = k + 1 := List.length_take_of_le hlt
      have hsplit : a.drop k = a.get ⟨k, hlt⟩ :: a.drop (k + 1) := List.drop_eq_getElem_cons hlt
      have hdrop : value (a.drop k) % 2 ^ j = (a.get ⟨k, hlt⟩).toNat % 2 ^ j := by
        have hpow : 2 ^ 32 = 2 ^ j * 2 ^ (32 - j) := by
          rw [← pow_add]
          congr 1
          omega
        rw [hsplit, value_cons, hpow, Nat.mul_assoc, Nat.add_mul_mod_self_left]
      rw [if_pos hlength, value_trim,
        List.modify_eq_take_cons_drop (by rw [hlength]; exact Nat.lt_succ_self k)]
      rw [List.drop_eq_nil_of_le (by omega), value_concat, and_mask_toNat _ hbits,
        List.take_take, Nat.min_eq_left (Nat.le_succ k), List.getElem_take,
        List.length_take_of_le (Nat.le_of_lt hlt), hw, pow_add, Nat.mod_mul, ← value_take,
        ← value_drop, hdrop]
      rfl
    · have hshort : a.take (k + 1) = a := List.take_of_length_le (by omega)
      rw [hshort, if_neg (by omega), value_trim]
      refine (Nat.mod_eq_of_lt (Nat.lt_of_lt_of_le (value_lt a) ?_)).symm
      exact Nat.pow_le_pow_right (Nat.succ_pos 1) (by omega)

theorem magLowBits_trimmed (a : List U32) (w : U32) : Trimmed (magLowBits a w) := by
  simp only [magLowBits]
  split <;> exact trim_trimmed _

end Bits

section Division

theorem value_or_one {low : U32} {rest : List U32} (heven : value (low :: rest) % 2 = 0) :
    value ((low ||| 1) :: rest) = value (low :: rest) + 1 := by
  have hlow : low.toNat % 2 = 0 := by
    rw [value_cons] at heven
    omega
  have hor : (low ||| 1#32).toNat = low.toNat + 1 := by
    rw [BitVec.toNat_or]
    obtain ⟨k, hk⟩ := Nat.dvd_of_mod_eq_zero hlow
    have hone := Nat.shiftLeft_add_eq_or_of_lt (b := 1) (i := 1) (by omega) k
    rw [Nat.shiftLeft_eq, pow_one, Nat.mul_comm, ← hk] at hone
    exact hone.symm
  rw [value_cons, value_cons]
  exact (congrArg (· + _) hor).trans (Nat.add_right_comm _ _ _)

theorem trimmed_or_one {low : U32} {rest : List U32} (h : Trimmed (low :: rest)) :
    Trimmed ((low ||| 1) :: rest) := by
  rcases rest with _ | ⟨x, rest⟩
  · intro hlast
    simp at hlast
  · exact trimmed_of_last_eq (by simp) h

theorem magShl_trimmed (a : List U32) (n : U32) : Trimmed (magShl a n) := by
  unfold magShl
  split
  · exact trimmed_nil
  · exact trim_trimmed _

theorem bringDown_spec (a : List U32) (bit : Nat) (r : List U32) :
    Trimmed (bringDown a bit r) ∧
      value (bringDown a bit r) = 2 * value r + ((value a).testBit bit).toNat := by
  have htrimmed := magShl_trimmed r 1
  have hvalue : value (magShl r 1) = 2 * value r := by
    rw [value_magShl]
    simp [Nat.mul_comm]
  unfold bringDown
  rw [magBit_eq]
  cases (value a).testBit bit with
  | false => exact ⟨by simpa using htrimmed, by simpa using hvalue⟩
  | true =>
      simp only [if_true, Bool.toNat_true]
      cases hshl : magShl r 1 with
      | nil =>
          rw [hshl] at hvalue
          exact ⟨by simp [Trimmed], by simp at hvalue ⊢; omega⟩
      | cons low rest =>
          rw [hshl] at hvalue htrimmed
          exact ⟨trimmed_or_one htrimmed, by rw [value_or_one (by omega), hvalue]⟩

theorem value_setBit {q : List U32} {bit : Nat} (hq : value q % 2 ^ (bit + 1) = 0)
    (hbit : bit < 32 * q.length) :
    value (q.modify (bit / 32) fun w => w ||| (1#32 <<< (bit % 32))) = value q + 2 ^ bit := by
  have hword : ∀ (x : U32) i, i < 32 → (x ||| (1#32 <<< (bit % 32))).getLsbD i =
      (x.getLsbD i || decide (i = bit % 32)) := by
    intro x i hi
    have hmod : bit % 32 < 32 := Nat.mod_lt _ (by omega)
    change (x ||| BitVec.twoPow 32 (bit % 32)).getLsbD i = _
    rw [BitVec.getLsbD_or, BitVec.getLsbD_twoPow]
    simp [hmod, eq_comm]
  have hor : value (q.modify (bit / 32) fun w => w ||| (1#32 <<< (bit % 32))) =
      value q ||| 2 ^ bit := by
    refine Nat.eq_of_testBit_eq fun i => ?_
    rw [testBit_value_modify (by omega) (Nat.div_lt_of_lt_mul hbit) hword, Nat.testBit_or,
      Nat.testBit_two_pow]
    simp [eq_comm]
  obtain ⟨m, hm⟩ := Nat.dvd_of_mod_eq_zero hq
  have hshift : value q = m <<< (bit + 1) := by
    rw [hm, Nat.shiftLeft_eq, Nat.mul_comm]
  rw [hor, hshift]
  exact (Nat.shiftLeft_add_eq_or_of_lt
    (Nat.pow_lt_pow_right (by omega) (Nat.lt_succ_self bit)) m).symm

theorem testBit_add_mod (n k : Nat) :
    n % 2 ^ (k + 1) = (n.testBit k).toNat * 2 ^ k + n % 2 ^ k := by
  rw [pow_succ, Nat.mod_mul, ← Nat.toNat_testBit, Nat.mul_comm, Nat.add_comm]

/-- The loop divides the remainder followed by the bits still to come. -/
theorem magDivremLoop_spec {a b : List U32} (hb : Trimmed b) (hbpos : 0 < value b) (k : Nat)
    (q r : List U32) (hr : Trimmed r) (hlt : value r < value b) (hq : value q % 2 ^ k = 0)
    (hk : k ≤ 32 * q.length) :
    Trimmed (magDivremLoop a b k q r).2 ∧
      value (magDivremLoop a b k q r).1 =
        value q + (value r * 2 ^ k + value a % 2 ^ k) / value b ∧
      value (magDivremLoop a b k q r).2 = (value r * 2 ^ k + value a % 2 ^ k) % value b := by
  induction k generalizing q r with
  | zero =>
      simp only [magDivremLoop, pow_zero, Nat.mul_one, Nat.mod_one, Nat.add_zero]
      exact ⟨hr, by rw [Nat.div_eq_of_lt hlt, Nat.add_zero], (Nat.mod_eq_of_lt hlt).symm⟩
  | succ bit ih =>
      obtain ⟨hdown, hdownValue⟩ := bringDown_spec a bit r
      have hsum : value r * 2 ^ (bit + 1) + value a % 2 ^ (bit + 1) =
          value (bringDown a bit r) * 2 ^ bit + value a % 2 ^ bit := by
        rw [testBit_add_mod, hdownValue, pow_succ]
        ring
      have hqbit : value q % 2 ^ bit = 0 := by
        obtain ⟨m, hm⟩ := Nat.dvd_of_mod_eq_zero hq
        rw [hm, pow_succ, Nat.mul_assoc]
        exact Nat.mul_mod_right _ _
      rw [magDivremLoop, magDivremBit, hsum]
      by_cases hcmp : magCmp (bringDown a bit r) b = .lt
      · simp only [hcmp, ne_eq, not_true_eq_false, if_false]
        rw [magCmp_eq hdown hb, Nat.compare_eq_lt] at hcmp
        exact ih q _ hdown hcmp hqbit (by omega)
      · simp only [hcmp, ne_eq, not_false_eq_true, if_true]
        rw [magCmp_eq hdown hb, Nat.compare_eq_lt, Nat.not_lt] at hcmp
        have hset := value_setBit hq (by omega)
        have hsub := value_magSub hcmp
        have hbit := Bool.toNat_le ((value a).testBit bit)
        obtain ⟨htrimmed, hquot, hrem⟩ := ih (q.modify (bit / 32) fun w => w ||| (1#32 <<< (bit % 32)))
          (magSub (bringDown a bit r) b) (trim_trimmed _) (by omega)
          (by rw [hset, Nat.add_mod, hqbit]; simp) (by simp; omega)
        have hsplit : value (bringDown a bit r) * 2 ^ bit + value a % 2 ^ bit =
            value (magSub (bringDown a bit r) b) * 2 ^ bit + value a % 2 ^ bit +
              value b * 2 ^ bit := by
          rw [hsub, Nat.add_right_comm, ← Nat.add_mul, Nat.sub_add_cancel hcmp]
        refine ⟨htrimmed, ?_, ?_⟩
        · rw [hquot, hset, hsplit, Nat.add_mul_div_left _ _ hbpos]
          omega
        · rw [hrem, hsplit, Nat.add_mul_mod_self_left]

theorem magDivrem_spec {a b : List U32} (ha : Trimmed a) (hb : Trimmed b)
    (hbpos : 0 < value b) (hsize : Nat.size (value a) < 2 ^ 32) :
    value (magDivrem a b).1 = value a / value b ∧
      value (magDivrem a b).2 = value a % value b := by
  unfold magDivrem
  split
  · rename_i hlt
    rw [magCmp_eq ha hb, Nat.compare_eq_lt] at hlt
    exact ⟨(Nat.div_eq_of_lt hlt).symm, (Nat.mod_eq_of_lt hlt).symm⟩
  · have hlen : (magBitLen a).toNat = Nat.size (value a) := by
      rw [toNat_magBitLen ha, Nat.mod_eq_of_lt hsize]
    have hle : Nat.size (value a) ≤ 32 * a.length := Nat.size_le.mpr (value_lt a)
    have hmod : value a % 2 ^ Nat.size (value a) = value a :=
      Nat.mod_eq_of_lt (Nat.lt_size_self _)
    obtain ⟨_, hquot, hrem⟩ := magDivremLoop_spec (a := a) hb hbpos (Nat.size (value a))
      (List.replicate a.length 0#32) [] trimmed_nil (by simpa using hbpos) (by simp)
      (by simpa using hle)
    rw [hmod] at hquot hrem
    simp only [value_replicate_zero, value_nil, Nat.zero_mul, Nat.zero_add] at hquot hrem
    exact ⟨by rw [value_trim, hlen]; exact hquot, by rw [hlen]; exact hrem⟩

end Division

end Harc.ExactMagnitude
