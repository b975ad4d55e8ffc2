import Harc.WordLists
import Harc.TwosComplement
import Mathlib.Data.BitVec
import Mathlib.Data.Int.ModEq

/-!
The wide integers of the C++ runtime: `HarcWide<N>` is an array of `N` 32-bit
words, least significant first.  `unsigned` is 32 bits and `std::size_t` 64.
-/

namespace Harc.WideRuntime

open Harc.WordLists
open Harc.TwosComplement

abbrev U32 := BitVec 32
abbrev U64 := BitVec 64

structure HarcWide (N : Nat) where
  words : List U32
  length_eq : words.length = N
deriving DecidableEq

/-- A value of a C++ integer type of at most 128 bits. -/
structure CInt where
  signed : Bool
  width : Nat
  width_le : width ≤ 128
  bits : BitVec width

def CInt.toInt (v : CInt) : Int :=
  if v.signed then v.bits.toInt else v.bits.toNat

/-- A value of type `uint64_t`. -/
def CInt.ofU64 (v : U64) : CInt where
  signed := false
  width := 64
  width_le := by omega
  bits := v

/-- A value of type `int`. -/
def CInt.ofI32 (v : U32) : CInt where
  signed := true
  width := 32
  width_le := by omega
  bits := v

theorem CInt.toInt_bounds (v : CInt) : -2 ^ 127 ≤ v.toInt ∧ v.toInt < 2 ^ 128 := by
  have hpow : (2 : Nat) ^ v.width ≤ 2 ^ 128 :=
    Nat.pow_le_pow_right (Nat.succ_pos 1) v.width_le
  have hpowInt : (2 : Int) ^ v.width ≤ 2 ^ 128 := by exact_mod_cast hpow
  unfold CInt.toInt
  split
  · have hlow := v.bits.le_two_mul_toInt
    have hhigh := v.bits.two_mul_toInt_lt
    constructor <;> omega
  · have := v.bits.isLt
    constructor <;> omega

theorem CInt.toInt_nonneg {v : CInt} (h : (v.signed && decide (v.toInt < 0)) = false) :
    0 ≤ v.toInt := by
  cases hsigned : v.signed with
  | false =>
      simp [CInt.toInt, hsigned]
  | true =>
      rw [hsigned] at h
      simpa using h

def wordAddLoop : List U32 → List U32 → U64 → List U32
  | x :: lhs, y :: rhs, carry =>
      let sum := addWord x y carry
      sum.1 :: wordAddLoop lhs rhs sum.2
  | _, _, _ => []

def wordSubLoop : List U32 → List U32 → U64 → List U32
  | x :: lhs, y :: rhs, borrow =>
      let l : U64 := x.setWidth 64
      let r : U64 := y.setWidth 64 + borrow
      (l - r).setWidth 32 :: wordSubLoop lhs rhs (if l.toNat < r.toNat then 1 else 0)
  | _, _, _ => []

/-- A row of the product on the words of `out` from the row's index on; it stops
where `out` ends. -/
def wordMulRow (x : U32) : List U32 → List U32 → U64 → List U32
  | o :: out, y :: rhs, carry =>
      let cur := mulWord o x y carry
      cur.1 :: wordMulRow x out rhs cur.2
  | out, _, _ => out

def wordMulLoop : List U32 → List U32 → List U32 → List U32
  | [], _, out => out
  | x :: lhs, rhs, out =>
      match wordMulRow x out rhs 0 with
      | [] => []
      | o :: out => o :: wordMulLoop lhs rhs out

/-- The words from the shifted index on; `high` is what the word below put into
the next one. -/
def wordShlLoop (bitShift : Nat) : List U32 → U32 → List U32
  | [], _ => []
  | x :: words, high =>
      let part : U64 := x.setWidth 64 <<< bitShift
      (high ||| part.setWidth 32) ::
        wordShlLoop bitShift words (if bitShift ≠ 0 then (part >>> 32).setWidth 32 else 0)

def wordShrLoop (bitShift : Nat) : List U32 → List U32
  | [] => []
  | x :: words =>
      let above : U64 := (words.headD 0).setWidth 64 <<< 32
      let part : U64 := if bitShift ≠ 0 then x.setWidth 64 ||| above else x.setWidth 64
      (part >>> bitShift).setWidth 32 :: wordShrLoop bitShift words

/-- The words from the highest on. -/
def wordLtLoop : List U32 → List U32 → Bool
  | x :: lhs, y :: rhs => if x ≠ y then x.toNat < y.toNat else wordLtLoop lhs rhs
  | _, _ => false

theorem length_wordAddLoop {lhs rhs : List U32} (h : lhs.length = rhs.length) (carry : U64) :
    (wordAddLoop lhs rhs carry).length = lhs.length := by
  induction lhs generalizing rhs carry with
  | nil => simp [wordAddLoop]
  | cons x lhs ih =>
      rcases rhs with _ | ⟨y, rhs⟩
      · simp at h
      simp [wordAddLoop, ih (Nat.succ.inj h)]

theorem length_wordSubLoop {lhs rhs : List U32} (h : lhs.length = rhs.length) (borrow : U64) :
    (wordSubLoop lhs rhs borrow).length = lhs.length := by
  induction lhs generalizing rhs borrow with
  | nil => simp [wordSubLoop]
  | cons x lhs ih =>
      rcases rhs with _ | ⟨y, rhs⟩
      · simp at h
      simp [wordSubLoop, ih (Nat.succ.inj h)]

theorem length_wordMulRow (x : U32) (out rhs : List U32) (carry : U64) :
    (wordMulRow x out rhs carry).length = out.length := by
  induction out generalizing rhs carry with
  | nil => simp [wordMulRow]
  | cons o out ih =>
      cases rhs with
      | nil => simp [wordMulRow]
      | cons y rhs => simp [wordMulRow, ih]

theorem length_wordMulLoop (lhs rhs out : List U32) (h : lhs.length ≤ out.length) :
    (wordMulLoop lhs rhs out).length = out.length := by
  induction lhs generalizing out with
  | nil => rfl
  | cons x lhs ih =>
      have hrow := length_wordMulRow x out rhs 0
      rw [wordMulLoop]
      rw [List.length_cons] at h
      split
      · rename_i hnil
        rw [hnil] at hrow
        exact hrow
      · rename_i o rest hcons
        rw [hcons, List.length_cons] at hrow
        rw [List.length_cons, ih rest (by omega)]
        exact hrow

theorem length_wordShlLoop (bitShift : Nat) (words : List U32) (high : U32) :
    (wordShlLoop bitShift words high).length = words.length := by
  induction words generalizing high with
  | nil => rfl
  | cons x words ih => simp [wordShlLoop, ih]

theorem length_wordShrLoop (bitShift : Nat) (words : List U32) :
    (wordShrLoop bitShift words).length = words.length := by
  induction words with
  | nil => rfl
  | cons x words ih => simp [wordShrLoop, ih]

namespace HarcWide

variable {N : Nat}

/-- The number that the words denote. -/
def toNat (w : HarcWide N) : Nat :=
  value w.words

/-- The default constructor. -/
def zero (N : Nat) : HarcWide N where
  words := List.replicate N 0
  length_eq := List.length_replicate

/-- The converting constructor. -/
def ofCInt (N : Nat) (v : CInt) : HarcWide N where
  words :=
    let u : BitVec 128 := BitVec.ofInt 128 v.toInt
    let fill : U32 := if v.signed && v.toInt < 0 then 0xFFFFFFFF else 0
    (List.range N).map fun i => if i < 4 then (u >>> (32 * i)).setWidth 32 else fill
  length_eq := by simp

/-- Runs a kernel on the first `unsigned(N)` words; the others keep their zeros. -/
def kernel (run : List U32 → List U32 → U64 → List U32)
    (hrun : ∀ lhs rhs, lhs.length = rhs.length → (run lhs rhs 0).length = lhs.length)
    (lhs rhs : HarcWide N) : HarcWide N where
  words :=
    let count := N % 2 ^ 32
    run (lhs.words.take count) (rhs.words.take count) 0 ++ List.replicate (N - count) 0
  length_eq := by
    have hcount : N % 2 ^ 32 ≤ N := Nat.mod_le _ _
    have hlhs := lhs.length_eq
    have hrhs := rhs.length_eq
    simp only [List.length_append, List.length_replicate]
    rw [hrun _ _ (by simp [hlhs, hrhs]), List.length_take]
    omega

def add (lhs rhs : HarcWide N) : HarcWide N :=
  kernel wordAddLoop (fun _ _ h => length_wordAddLoop h 0) lhs rhs

def sub (lhs rhs : HarcWide N) : HarcWide N :=
  kernel wordSubLoop (fun _ _ h => length_wordSubLoop h 0) lhs rhs

def mul (lhs rhs : HarcWide N) : HarcWide N where
  words := wordMulLoop lhs.words rhs.words (List.replicate N 0)
  length_eq := by
    rw [length_wordMulLoop _ _ _ (by simp [lhs.length_eq]), List.length_replicate]

/-- The operators `&`, `|` and `^`. -/
def zipWords (f : U32 → U32 → U32) (lhs rhs : HarcWide N) : HarcWide N where
  words := List.zipWith f lhs.words rhs.words
  length_eq := by simp [lhs.length_eq, rhs.length_eq]

def and (lhs rhs : HarcWide N) : HarcWide N :=
  zipWords (· &&& ·) lhs rhs

def or (lhs rhs : HarcWide N) : HarcWide N :=
  zipWords (· ||| ·) lhs rhs

def xor (lhs rhs : HarcWide N) : HarcWide N :=
  zipWords (· ^^^ ·) lhs rhs

def not (w : HarcWide N) : HarcWide N where
  words := w.words.map (~~~ ·)
  length_eq := by simp [w.length_eq]

/-- The shift count is out of range: negative, or at least `N * 32`. -/
def shiftsOut (N : Nat) (shift : CInt) : Bool :=
  (shift.signed && shift.toInt < 0) ||
    decide (N * 32 % 2 ^ 64 ≤ (shift.toInt % 2 ^ 128).toNat)

/-- `static_cast<unsigned>` of a shift count. -/
def shiftCount (shift : CInt) : Nat :=
  (shift.toInt % 2 ^ 32).toNat

theorem shiftCount_lt {shift : CInt} (h : shiftsOut N shift = false) :
    shiftCount shift / 32 < N := by
  obtain ⟨hsign, hcount⟩ := Bool.or_eq_false_iff.mp h
  have hnonneg := CInt.toInt_nonneg hsign
  have hbounds := shift.toInt_bounds
  have hwrap : N * 32 % 2 ^ 64 ≤ N * 32 := Nat.mod_le _ _
  have hlt : (shift.toInt % 2 ^ 128).toNat < N * 32 % 2 ^ 64 := by simpa using hcount
  unfold shiftCount
  omega

def shl (w : HarcWide N) (shift : CInt) : HarcWide N :=
  if h : shiftsOut N shift = true then zero N
  else
    { words := List.replicate (shiftCount shift / 32) 0 ++
        wordShlLoop (shiftCount shift % 32) (w.words.take (N - shiftCount shift / 32)) 0
      length_eq := by
        have hlt := shiftCount_lt (Bool.eq_false_iff.mpr h)
        simp [length_wordShlLoop, w.length_eq]
        omega }

def shr (w : HarcWide N) (shift : CInt) : HarcWide N :=
  if h : shiftsOut N shift = true then zero N
  else
    { words := wordShrLoop (shiftCount shift % 32) (w.words.drop (shiftCount shift / 32)) ++
        List.replicate (shiftCount shift / 32) 0
      length_eq := by
        have hlt := shiftCount_lt (Bool.eq_false_iff.mpr h)
        simp [length_wordShrLoop, w.length_eq]
        omega }

def lt (lhs rhs : HarcWide N) : Bool :=
  wordLtLoop lhs.words.reverse rhs.words.reverse

def gt (lhs rhs : HarcWide N) : Bool :=
  rhs.lt lhs

def le (lhs rhs : HarcWide N) : Bool :=
  !rhs.lt lhs

def ge (lhs rhs : HarcWide N) : Bool :=
  !lhs.lt rhs

/-- A `HARC_WIDE_MIXED_OP` with the integer on the right. -/
def mixedRight (op : HarcWide N → HarcWide N → HarcWide N) (lhs : HarcWide N) (rhs : CInt) :
    HarcWide N :=
  op lhs (ofCInt N rhs)

/-- A `HARC_WIDE_MIXED_OP` with the integer on the left. -/
def mixedLeft (op : HarcWide N → HarcWide N → HarcWide N) (lhs : CInt) (rhs : HarcWide N) :
    HarcWide N :=
  op (ofCInt N lhs) rhs

end HarcWide

section Kernels

theorem value_wordAddLoop {lhs rhs : List U32} (h : lhs.length = rhs.length) (carry : U64)
    (hcarry : carry.toNat ≤ 1) :
    value (wordAddLoop lhs rhs carry) ≡ value lhs + value rhs + carry.toNat
      [MOD 2 ^ (32 * lhs.length)] := by
  induction lhs generalizing rhs carry with
  | nil =>
      simp [Nat.modEq_one]
  | cons x lhs ih =>
      rcases rhs with _ | ⟨y, rhs⟩
      · simp at h
      obtain ⟨hsum, hnext⟩ := addWord_spec (by omega) x y hcarry
      have hrest := (ih (Nat.succ.inj h) _ hnext).mul_left' (2 ^ 32)
      rw [← pow_add, show 32 + 32 * lhs.length = 32 * (x :: lhs).length by simp; omega] at hrest
      rw [wordAddLoop, value_cons, value_cons, value_cons]
      have hsplit : x.toNat + 2 ^ 32 * value lhs + (y.toNat + 2 ^ 32 * value rhs) + carry.toNat =
          (addWord x y carry).1.toNat +
            2 ^ 32 * (value lhs + value rhs + (addWord x y carry).2.toNat) := by
        omega
      rw [hsplit]
      exact hrest.add_left _

theorem value_wordSubLoop {lhs rhs : List U32} (h : lhs.length = rhs.length) (borrow : U64)
    (hborrow : borrow.toNat ≤ 1) :
    value (wordSubLoop lhs rhs borrow) + value rhs + borrow.toNat ≡ value lhs
      [MOD 2 ^ (32 * lhs.length)] := by
  induction lhs generalizing rhs borrow with
  | nil =>
      simp [Nat.modEq_one]
  | cons x lhs ih =>
      rcases rhs with _ | ⟨y, rhs⟩
      · simp at h
      obtain ⟨borrow', hborrow'⟩ : ∃ b : U64, b = if (x.setWidth 64).toNat <
          (y.setWidth 64 + borrow).toNat then 1 else 0 := ⟨_, rfl⟩
      have hx := x.isLt
      have hy := y.isLt
      have hl : (x.setWidth 64).toNat = x.toNat := toNat_setWidth_of_le (by omega) x
      have hr : (y.setWidth 64 + borrow).toNat = y.toNat + borrow.toNat := by
        rw [BitVec.toNat_add, toNat_setWidth_of_le (by omega)]
        exact Nat.mod_eq_of_lt (by omega)
      have hnext : borrow'.toNat = if x.toNat < y.toNat + borrow.toNat then 1 else 0 := by
        rw [hborrow', hl, hr]
        split <;> rfl
      have hword : ((x.setWidth 64 - (y.setWidth 64 + borrow)).setWidth 32).toNat +
          y.toNat + borrow.toNat = x.toNat + 2 ^ 32 * borrow'.toNat := by
        rw [BitVec.toNat_setWidth, BitVec.toNat_sub, hl, hr, hnext]
        split <;> omega
      have hle : borrow'.toNat ≤ 1 := by
        rw [hnext]
        split <;> omega
      have hrest := (ih (Nat.succ.inj h) _ hle).mul_left' (2 ^ 32)
      rw [← pow_add, show 32 + 32 * lhs.length = 32 * (x :: lhs).length by simp; omega] at hrest
      simp only [wordSubLoop, value_cons, ← hborrow']
      have hsplit : ((x.setWidth 64 - (y.setWidth 64 + borrow)).setWidth 32).toNat +
          2 ^ 32 * value (wordSubLoop lhs rhs borrow') + (y.toNat + 2 ^ 32 * value rhs) +
            borrow.toNat =
          x.toNat +
            2 ^ 32 * (value (wordSubLoop lhs rhs borrow') + value rhs + borrow'.toNat) := by
        omega
      rw [hsplit]
      exact hrest.add_left _

theorem value_wordMulRow (x : U32) {out rhs : List U32} (h : out.length ≤ rhs.length)
    (carry : U64) (hcarry : carry.toNat < 2 ^ 32) :
    value (wordMulRow x out rhs carry) ≡ value out + x.toNat * value rhs + carry.toNat
      [MOD 2 ^ (32 * out.length)] := by
  induction out generalizing rhs carry with
  | nil =>
      simp [Nat.modEq_one]
  | cons o out ih =>
      rcases rhs with _ | ⟨y, rhs⟩
      · simp at h
      obtain ⟨hsum, hnext⟩ := mulWord_spec (by omega) o x y hcarry
      have hrest := (ih (Nat.le_of_succ_le_succ h) _ hnext).mul_left' (2 ^ 32)
      rw [← pow_add, show 32 + 32 * out.length = 32 * (o :: out).length by simp; omega] at hrest
      rw [wordMulRow, value_cons, value_cons, value_cons]
      have hsplit : o.toNat + 2 ^ 32 * value out + x.toNat * (y.toNat + 2 ^ 32 * value rhs) +
          carry.toNat = (mulWord o x y carry).1.toNat +
            2 ^ 32 * (value out + x.toNat * value rhs + (mulWord o x y carry).2.toNat) := by
        have hdistrib : x.toNat * (y.toNat + 2 ^ 32 * value rhs) =
            x.toNat * y.toNat + 2 ^ 32 * (x.toNat * value rhs) := by ring
        rw [hdistrib]
        omega
      rw [hsplit]
      exact hrest.add_left _

theorem value_wordMulLoop (lhs rhs out : List U32) (hout : out.length ≤ rhs.length)
    (hlhs : lhs.length ≤ out.length) :
    value (wordMulLoop lhs rhs out) ≡ value out + value lhs * value rhs
      [MOD 2 ^ (32 * out.length)] := by
  induction lhs generalizing out with
  | nil => simpa [wordMulLoop] using Nat.ModEq.rfl
  | cons x lhs ih =>
      have hlength := length_wordMulRow x out rhs 0#64
      have hrow := value_wordMulRow x hout 0#64 (by simp)
      rw [List.length_cons] at hlhs
      rw [wordMulLoop]
      cases hcons : wordMulRow x out rhs 0#64 with
      | nil =>
          rw [hcons, List.length_nil] at hlength
          omega
      | cons o rest =>
          rw [hcons, List.length_cons] at hlength
          have hrest := (ih rest (by omega) (by omega)).mul_left' (2 ^ 32)
          rw [← pow_add, show 32 + 32 * rest.length = 32 * out.length by omega] at hrest
          rw [hcons, value_cons, BitVec.toNat_zero, Nat.add_zero] at hrow
          have hsplit : value (x :: lhs) * value rhs =
              x.toNat * value rhs + 2 ^ 32 * (value lhs * value rhs) := by
            rw [value_cons]
            ring
          simp only [value_cons o, hsplit]
          calc
            o.toNat + 2 ^ 32 * value (wordMulLoop lhs rhs rest)
              ≡ o.toNat + 2 ^ 32 * (value rest + value lhs * value rhs)
                [MOD 2 ^ (32 * out.length)] := hrest.add_left _
            _ = o.toNat + 2 ^ 32 * value rest + 2 ^ 32 * (value lhs * value rhs) := by ring
            _ ≡ value out + x.toNat * value rhs + 2 ^ 32 * (value lhs * value rhs)
                [MOD 2 ^ (32 * out.length)] := hrow.add_right _
            _ = value out + (x.toNat * value rhs + 2 ^ 32 * (value lhs * value rhs)) := by ring

/-- A word moved up in the 64-bit accumulator. -/
theorem toNat_shlPart {bitShift : Nat} (hbits : bitShift < 32) (x : U32) :
    (x.setWidth 64 <<< bitShift : U64).toNat = x.toNat * 2 ^ bitShift := by
  have hx := x.isLt
  have hpow : 2 ^ 32 * 2 ^ bitShift ≤ 2 ^ 64 := by
    rw [← pow_add]
    exact Nat.pow_le_pow_right (Nat.succ_pos 1) (by omega)
  rw [BitVec.toNat_shiftLeft, toNat_setWidth_of_le (by omega), Nat.shiftLeft_eq]
  exact Nat.mod_eq_of_lt (Nat.lt_of_lt_of_le
    (Nat.mul_lt_mul_of_pos_right hx (Nat.two_pow_pos _)) hpow)

theorem value_wordShlLoop {bitShift : Nat} (hbits : bitShift < 32) (words : List U32)
    (high : U32) (hhigh : high.toNat < 2 ^ bitShift) :
    value (wordShlLoop bitShift words high) ≡ value words * 2 ^ bitShift + high.toNat
      [MOD 2 ^ (32 * words.length)] := by
  induction words generalizing high with
  | nil =>
      simp [Nat.modEq_one]
  | cons x words ih =>
      have hx := x.isLt
      obtain ⟨part, hpart⟩ : ∃ part : U64, part = x.setWidth 64 <<< bitShift := ⟨_, rfl⟩
      have htoNat : part.toNat = x.toNat * 2 ^ bitShift := by
        rw [hpart, toNat_shlPart hbits]
      have hpow : 2 ^ 32 = 2 ^ bitShift * 2 ^ (32 - bitShift) := by
        rw [← pow_add, Nat.add_sub_cancel' (Nat.le_of_lt hbits)]
      obtain ⟨next, hdef⟩ : ∃ next : U32,
          next = if bitShift ≠ 0 then (part >>> 32).setWidth 32 else 0 := ⟨_, rfl⟩
      have hnext : next.toNat = x.toNat / 2 ^ (32 - bitShift) := by
        rw [hdef]
        split
        · rw [BitVec.toNat_setWidth, BitVec.toNat_ushiftRight, Nat.shiftRight_eq_div_pow,
            htoNat, Nat.mul_comm, hpow, Nat.mul_div_mul_left _ _ (Nat.two_pow_pos _)]
          have hle := Nat.div_le_self x.toNat (2 ^ (32 - bitShift))
          exact Nat.mod_eq_of_lt (by omega)
        · rename_i hzero
          have hzero : bitShift = 0 := by simpa using hzero
          subst hzero
          exact (Nat.div_eq_of_lt hx).symm
      have hnextLt : next.toNat < 2 ^ bitShift := by
        rw [hnext]
        exact Nat.div_lt_of_lt_mul (by rwa [Nat.mul_comm, ← hpow])
      have hword : (high ||| part.setWidth 32).toNat =
          2 ^ bitShift * (x.toNat % 2 ^ (32 - bitShift)) + high.toNat := by
        have hlow : part.setWidth 32 = x <<< bitShift := by
          rw [← BitVec.toNat_inj, BitVec.toNat_setWidth, htoNat, BitVec.toNat_shiftLeft,
            Nat.shiftLeft_eq]
        rw [BitVec.or_comm, hlow, toNat_shiftLeft_or (Nat.le_of_lt hbits) x hhigh]
      have hrest := (ih next hnextLt).mul_left' (2 ^ 32)
      rw [← pow_add, show 32 + 32 * words.length = 32 * (x :: words).length by simp; omega]
        at hrest
      simp only [wordShlLoop, value_cons, ← hpart, ← hdef, hword]
      have hsplit : (x.toNat + 2 ^ 32 * value words) * 2 ^ bitShift + high.toNat =
          2 ^ bitShift * (x.toNat % 2 ^ (32 - bitShift)) + high.toNat +
            2 ^ 32 * (value words * 2 ^ bitShift + next.toNat) := by
        have hsplitWord := shl_word_split (Nat.le_of_lt hbits) x.toNat
        rw [hnext, Nat.add_mul, ← hsplitWord]
        ring
      rw [hsplit]
      exact hrest.add_left _

/-- The low bits of the word above come in at the top. -/
theorem toNat_shrWord {bitShift : Nat} (hbits : bitShift < 32) (x next : U32) :
    (((if bitShift ≠ 0 then x.setWidth 64 ||| next.setWidth 64 <<< 32
        else x.setWidth 64 : U64) >>> bitShift).setWidth 32).toNat =
      x.toNat / 2 ^ bitShift + 2 ^ (32 - bitShift) * (next.toNat % 2 ^ bitShift) := by
  have hx := x.isLt
  have hnext := next.isLt
  rw [BitVec.toNat_setWidth, BitVec.toNat_ushiftRight, Nat.shiftRight_eq_div_pow]
  by_cases hzero : bitShift = 0
  · subst hzero
    simp only [ne_eq, not_true_eq_false, if_false, pow_zero, Nat.div_one, Nat.mod_one,
      Nat.mul_zero, Nat.add_zero]
    rw [toNat_setWidth_of_le (by omega)]
    exact Nat.mod_eq_of_lt hx
  · have hor : (x.setWidth 64 ||| next.setWidth 64 <<< 32 : U64).toNat =
        x.toNat + 2 ^ 32 * next.toNat := by
      rw [BitVec.or_comm, toNat_shiftLeft_or (by omega), toNat_setWidth_of_le (by omega),
        toNat_setWidth_of_le (by omega), Nat.mod_eq_of_lt hnext, Nat.add_comm]
      rwa [toNat_setWidth_of_le (by omega)]
    rw [if_pos hzero, hor, shr_cons_split (Nat.le_of_lt hbits), Nat.add_mul_mod_self_left]
    have hpow : 2 ^ 32 = 2 ^ (32 - bitShift) * 2 ^ bitShift := by
      rw [← pow_add, Nat.sub_add_cancel (Nat.le_of_lt hbits)]
    have hlow : x.toNat / 2 ^ bitShift < 2 ^ (32 - bitShift) :=
      Nat.div_lt_of_lt_mul (by rwa [Nat.mul_comm, ← hpow])
    have hhigh : 2 ^ (32 - bitShift) * (next.toNat % 2 ^ bitShift + 1) ≤
        2 ^ (32 - bitShift) * 2 ^ bitShift :=
      Nat.mul_le_mul_left _ (Nat.mod_lt _ (Nat.two_pow_pos _))
    rw [Nat.mul_add] at hhigh
    exact Nat.mod_eq_of_lt (by omega)

theorem value_wordShrLoop {bitShift : Nat} (hbits : bitShift < 32) (words : List U32) :
    value (wordShrLoop bitShift words) = value words / 2 ^ bitShift := by
  induction words with
  | nil => simp [wordShrLoop]
  | cons x words ih =>
      have hnext : (words.headD 0).toNat % 2 ^ bitShift = value words % 2 ^ bitShift := by
        have hdvd : 2 ^ bitShift ∣ 2 ^ 32 := pow_dvd_pow 2 (Nat.le_of_lt hbits)
        cases words with
        | nil => rfl
        | cons y rest =>
            rw [value_cons, Nat.add_mod, Nat.mod_eq_zero_of_dvd (Dvd.dvd.mul_right hdvd _),
              Nat.add_zero, Nat.mod_mod]
            rfl
      simp only [wordShrLoop, value_cons]
      rw [toNat_shrWord hbits, ih, hnext, shr_cons_split (Nat.le_of_lt hbits)]

theorem wordLtLoop_eq {lhs rhs : List U32} (h : lhs.length = rhs.length) :
    wordLtLoop lhs rhs = decide (value lhs.reverse < value rhs.reverse) := by
  induction lhs generalizing rhs with
  | nil =>
      rw [List.eq_nil_of_length_eq_zero h.symm]
      rfl
  | cons x lhs ih =>
      rcases rhs with _ | ⟨y, rhs⟩
      · simp at h
      have htail : lhs.length = rhs.length := Nat.succ.inj h
      have hreverse : lhs.reverse.length = rhs.reverse.length := by simpa using htail
      rw [wordLtLoop, List.reverse_cons, List.reverse_cons]
      by_cases hxy : x = y
      · rw [if_neg (by simpa using hxy), ih htail, value_concat, value_concat, hreverse, hxy,
          decide_eq_decide]
        omega
      · rw [if_pos hxy, decide_eq_decide]
        have hne : x.toNat ≠ y.toNat := fun heq => hxy (BitVec.toNat_inj.mp heq)
        rcases Nat.lt_or_gt_of_ne hne with hlt | hgt
        · exact iff_of_true hlt (value_concat_lt hreverse hlt)
        · have hgt' := value_concat_lt hreverse.symm hgt
          omega

end Kernels

namespace HarcWide

variable {N : Nat}

theorem toNat_lt (w : HarcWide N) : w.toNat < 2 ^ (32 * N) := by
  have hlt := value_lt w.words
  rwa [w.length_eq] at hlt

theorem toNat_injective {w w' : HarcWide N} (h : w.toNat = w'.toNat) : w = w' := by
  obtain ⟨words, hlength⟩ := w
  obtain ⟨words', hlength'⟩ := w'
  have hwords : words = words' := value_injective (hlength.trans hlength'.symm) h
  subst hwords
  rfl

@[simp] theorem toNat_zero : (zero N).toNat = 0 :=
  value_replicate_zero N

/-- With a word count that `unsigned` holds, a kernel runs on all the words. -/
theorem words_kernel (hN : N < 2 ^ 32) (run : List U32 → List U32 → U64 → List U32)
    (hrun : ∀ lhs rhs, lhs.length = rhs.length → (run lhs rhs 0).length = lhs.length)
    (lhs rhs : HarcWide N) :
    (kernel run hrun lhs rhs).words = run lhs.words rhs.words 0 := by
  have hlhs : lhs.words.take N = lhs.words := List.take_of_length_le lhs.length_eq.le
  have hrhs : rhs.words.take N = rhs.words := List.take_of_length_le rhs.length_eq.le
  simp only [kernel, Nat.mod_eq_of_lt hN, hlhs, hrhs, Nat.sub_self, List.replicate_zero,
    List.append_nil]

theorem toNat_add (hN : N < 2 ^ 32) (lhs rhs : HarcWide N) :
    (lhs.add rhs).toNat = (lhs.toNat + rhs.toNat) % 2 ^ (32 * N) := by
  have hsum := value_wordAddLoop (lhs.length_eq.trans rhs.length_eq.symm) 0 (by decide)
  rw [lhs.length_eq] at hsum
  rw [← Nat.mod_eq_of_lt (lhs.add rhs).toNat_lt, toNat, add, words_kernel hN]
  exact hsum

theorem toNat_sub (hN : N < 2 ^ 32) (lhs rhs : HarcWide N) :
    ((lhs.sub rhs).toNat : Int) = ((lhs.toNat : Int) - rhs.toNat) % 2 ^ (32 * N) := by
  have hdiff := value_wordSubLoop (lhs.length_eq.trans rhs.length_eq.symm) 0 (by decide)
  rw [lhs.length_eq] at hdiff
  have hlt : ((lhs.sub rhs).toNat : Int) < 2 ^ (32 * N) := by
    exact_mod_cast (lhs.sub rhs).toNat_lt
  have hwords : value (wordSubLoop lhs.words rhs.words 0) = (lhs.sub rhs).toNat := by
    rw [toNat, sub, words_kernel hN]
  rw [hwords] at hdiff
  have hint : ((lhs.sub rhs).toNat : Int) + rhs.toNat ≡ lhs.toNat [ZMOD 2 ^ (32 * N)] := by
    exact_mod_cast Int.natCast_modEq_iff.mpr hdiff
  have hsub := hint.sub_right (rhs.toNat : Int)
  rw [add_sub_cancel_right] at hsub
  rw [← Int.emod_eq_of_lt (Int.natCast_nonneg _) hlt]
  exact hsub

theorem toNat_mul (lhs rhs : HarcWide N) :
    (lhs.mul rhs).toNat = lhs.toNat * rhs.toNat % 2 ^ (32 * N) := by
  have hmul := value_wordMulLoop lhs.words rhs.words (List.replicate N 0#32)
    (by simp [rhs.length_eq]) (by simp [lhs.length_eq])
  rw [List.length_replicate, value_replicate_zero, Nat.zero_add] at hmul
  rw [← Nat.mod_eq_of_lt (lhs.mul rhs).toNat_lt]
  exact hmul

theorem toNat_zipWords {f : U32 → U32 → U32} {g : Bool → Bool → Bool}
    (hzero : g false false = false)
    (hf : ∀ x y i, i < 32 → (f x y).getLsbD i = g (x.getLsbD i) (y.getLsbD i))
    {lhs rhs : HarcWide N} {n : Nat}
    (hn : ∀ i, n.testBit i = g (lhs.toNat.testBit i) (rhs.toNat.testBit i)) :
    (zipWords f lhs rhs).toNat = n := by
  refine Nat.eq_of_testBit_eq fun i => ?_
  rw [hn]
  exact testBit_value_zipWith (Nat.succ_pos 31) hzero hf
    (lhs.length_eq.trans rhs.length_eq.symm) i

theorem toNat_and (lhs rhs : HarcWide N) :
    (lhs.and rhs).toNat = lhs.toNat &&& rhs.toNat :=
  toNat_zipWords (g := Bool.and) rfl (fun _ _ _ _ => BitVec.getLsbD_and)
    fun _ => Nat.testBit_and ..

theorem toNat_or (lhs rhs : HarcWide N) :
    (lhs.or rhs).toNat = lhs.toNat ||| rhs.toNat :=
  toNat_zipWords (g := Bool.or) rfl (fun _ _ _ _ => BitVec.getLsbD_or)
    fun _ => Nat.testBit_or ..

theorem toNat_xor (lhs rhs : HarcWide N) :
    (lhs.xor rhs).toNat = lhs.toNat ^^^ rhs.toNat :=
  toNat_zipWords (g := Bool.xor) rfl (fun _ _ _ _ => BitVec.getLsbD_xor)
    fun _ => Nat.testBit_xor ..

theorem toNat_not (w : HarcWide N) : w.not.toNat = 2 ^ (32 * N) - 1 - w.toNat := by
  have hsum : ∀ words : List U32,
      value (words.map (~~~ ·)) + value words + 1 = 2 ^ (32 * words.length) := by
    intro words
    induction words with
    | nil => rfl
    | cons x words ih =>
        have hx := x.isLt
        rw [List.map_cons, value_cons, value_cons, List.length_cons, Nat.mul_succ, pow_add,
          ← ih, BitVec.toNat_not]
        omega
  have hw := hsum w.words
  rw [w.length_eq] at hw
  change value (w.words.map (~~~ ·)) = _ - value w.words
  omega

theorem lt_eq (lhs rhs : HarcWide N) : lhs.lt rhs = decide (lhs.toNat < rhs.toNat) := by
  have hlength : lhs.words.reverse.length = rhs.words.reverse.length := by
    simp [lhs.length_eq, rhs.length_eq]
  rw [lt, wordLtLoop_eq hlength, List.reverse_reverse, List.reverse_reverse]
  rfl

theorem gt_eq (lhs rhs : HarcWide N) : lhs.gt rhs = decide (lhs.toNat > rhs.toNat) :=
  lt_eq rhs lhs

theorem le_eq (lhs rhs : HarcWide N) : lhs.le rhs = decide (lhs.toNat ≤ rhs.toNat) := by
  rw [le, lt_eq, ← decide_not, decide_eq_decide]
  exact Nat.not_lt

theorem ge_eq (lhs rhs : HarcWide N) : lhs.ge rhs = decide (lhs.toNat ≥ rhs.toNat) :=
  le_eq rhs lhs

section Shifts

variable {shift : CInt}

/-- With at most `2 ^ 32` bits the range check compares the count with the width. -/
theorem shiftsOut_iff (hN : 32 * N ≤ 2 ^ 32) :
    shiftsOut N shift = true ↔ shift.toInt < 0 ∨ (32 * N : Int) ≤ shift.toInt := by
  have hbounds := shift.toInt_bounds
  cases hsign : (shift.signed && decide (shift.toInt < 0)) with
  | true =>
      have hneg : shift.toInt < 0 := of_decide_eq_true (Bool.and_eq_true_iff.mp hsign).2
      rw [shiftsOut, hsign, Bool.true_or]
      exact iff_of_true rfl (Or.inl hneg)
  | false =>
      have hnonneg := CInt.toInt_nonneg hsign
      rw [shiftsOut, hsign, Bool.false_or, decide_eq_true_iff]
      omega

theorem shiftCount_eq (hN : 32 * N ≤ 2 ^ 32) (h : ¬ shiftsOut N shift = true) :
    (shiftCount shift : Int) = shift.toInt := by
  rw [shiftsOut_iff hN] at h
  unfold shiftCount
  omega

theorem words_shl (w : HarcWide N) (h : ¬ shiftsOut N shift = true) :
    (w.shl shift).words = List.replicate (shiftCount shift / 32) 0#32 ++
      wordShlLoop (shiftCount shift % 32) (w.words.take (N - shiftCount shift / 32)) 0#32 := by
  rw [shl, dif_neg h]
  rfl

theorem words_shr (w : HarcWide N) (h : ¬ shiftsOut N shift = true) :
    (w.shr shift).words =
      wordShrLoop (shiftCount shift % 32) (w.words.drop (shiftCount shift / 32)) ++
        List.replicate (shiftCount shift / 32) 0#32 := by
  rw [shr, dif_neg h]
  rfl

theorem toNat_shl (hN : 32 * N ≤ 2 ^ 32) (w : HarcWide N) (shift : CInt) :
    (w.shl shift).toNat =
      if shift.toInt < 0 ∨ (32 * N : Int) ≤ shift.toInt then 0
      else w.toNat * 2 ^ shift.toInt.toNat % 2 ^ (32 * N) := by
  by_cases hout : shiftsOut N shift = true
  · rw [shl, dif_pos hout, if_pos ((shiftsOut_iff hN).mp hout), toNat_zero]
  · have hcount := shiftCount_eq hN hout
    have hlt := shiftCount_lt (Bool.eq_false_iff.mpr hout)
    rw [← Nat.mod_eq_of_lt (w.shl shift).toNat_lt,
      if_neg (fun h => hout ((shiftsOut_iff hN).mpr h)), ← hcount, Int.toNat_natCast]
    rw [toNat, words_shl w hout]
    generalize shiftCount shift = count at hlt
    -- the low part of the value moves up by whole words and then by bits
    have hloop := value_wordShlLoop (Nat.mod_lt count (Nat.succ_pos 31))
      (w.words.take (N - count / 32)) 0#32 (Nat.two_pow_pos _)
    have htake : value (w.words.take (N - count / 32)) ≡ w.toNat
        [MOD 2 ^ (32 * (N - count / 32))] := by
      rw [value_take]
      exact Nat.mod_modEq _ _
    rw [List.length_take, w.length_eq, Nat.min_eq_left (Nat.sub_le _ _),
      BitVec.toNat_zero, Nat.add_zero] at hloop
    have hscaled := (hloop.trans (htake.mul_right _)).mul_left' (2 ^ (32 * (count / 32)))
    rw [← pow_add, ← Nat.mul_add, Nat.add_sub_cancel' (Nat.le_of_lt hlt)] at hscaled
    rw [value_append, value_replicate_zero, Nat.zero_add, List.length_replicate]
    have hpow : w.toNat * 2 ^ count =
        2 ^ (32 * (count / 32)) * (w.toNat * 2 ^ (count % 32)) := by
      calc
        w.toNat * 2 ^ count = w.toNat * 2 ^ (32 * (count / 32) + count % 32) := by
          rw [Nat.div_add_mod]
        _ = 2 ^ (32 * (count / 32)) * (w.toNat * 2 ^ (count % 32)) := by
          rw [pow_add]
          ring
    rw [hpow]
    exact hscaled

theorem toNat_shr (hN : 32 * N ≤ 2 ^ 32) (w : HarcWide N) (shift : CInt) :
    (w.shr shift).toNat =
      if shift.toInt < 0 ∨ (32 * N : Int) ≤ shift.toInt then 0
      else w.toNat / 2 ^ shift.toInt.toNat := by
  by_cases hout : shiftsOut N shift = true
  · rw [shr, dif_pos hout, if_pos ((shiftsOut_iff hN).mp hout), toNat_zero]
  · have hcount := shiftCount_eq hN hout
    rw [if_neg (fun h => hout ((shiftsOut_iff hN).mpr h)), ← hcount, Int.toNat_natCast,
      toNat, words_shr w hout, value_append_zeros, value_wordShrLoop (Nat.mod_lt _ (Nat.succ_pos 31)), value_drop, Nat.div_div_eq_div_mul,
      ← pow_add, Nat.div_add_mod]
    rfl

end Shifts

theorem toNat_ofCInt (N : Nat) (v : CInt) :
    ((ofCInt N v).toNat : Int) = v.toInt % 2 ^ (32 * N) := by
  have hrange : InRange 128 v.toInt := by
    have hbounds := v.toInt_bounds
    constructor <;> omega
  obtain ⟨r, hr⟩ : ∃ r, r = (v.toInt % 2 ^ (32 * N)).toNat := ⟨_, rfl⟩
  have hnonneg : 0 ≤ v.toInt % 2 ^ (32 * N) := Int.emod_nonneg _ (by positivity)
  have hcast : (r : Int) = v.toInt % 2 ^ (32 * N) := by
    rw [hr, Int.toNat_of_nonneg hnonneg]
  have hlt : r < 2 ^ (32 * N) := by
    have := Int.emod_lt_of_pos v.toInt (show (0 : Int) < 2 ^ (32 * N) by positivity)
    rw [← hcast] at this
    exact_mod_cast this
  -- every word holds the bits of the residue at its place
  have hwords : (ofCInt N v).words =
      (List.range N).map fun i => BitVec.ofNat 32 (r / 2 ^ (32 * i)) := by
    refine List.map_congr_left fun i hi => BitVec.eq_of_getLsbD_eq fun j hj => ?_
    have hi : i < N := List.mem_range.mp hi
    have hbit : (BitVec.ofNat 32 (r / 2 ^ (32 * i))).getLsbD j =
        v.toInt.testBit (32 * i + j) := by
      rw [BitVec.getLsbD_ofNat, Nat.testBit_div_two_pow, hr, testBit_emod_two_pow]
      simp [hj, show j + 32 * i < 32 * N by omega, Nat.add_comm]
    rw [hbit]
    split
    · rename_i hlow
      rw [BitVec.getLsbD_setWidth, BitVec.getLsbD_ushiftRight, BitVec.getLsbD,
        BitVec.toNat_ofInt, show ((2 ^ 128 : Nat) : Int) = 2 ^ 128 from rfl,
        testBit_emod_two_pow]
      simp [hj, show 32 * i + j < 128 by omega]
    · rename_i hhigh
      rw [hrange.testBit_eq (by omega)]
      have hsign : (v.signed && decide (v.toInt < 0)) = decide (v.toInt < 0) := by
        cases hsigned : v.signed with
        | true => rfl
        | false => simp [CInt.toInt, hsigned]
      rw [hsign]
      by_cases hneg : v.toInt < 0
      · have hones : (0xFFFFFFFF : U32) = BitVec.allOnes 32 := rfl
        simp only [hneg, decide_true, if_true, hones, BitVec.getLsbD_allOnes, hj]
      · simp [hneg]
  rw [toNat, hwords, value_map_range, Nat.mod_eq_of_lt hlt, hcast]

/-- The converted integer is the only wide value with its residue. -/
theorem ofCInt_eq {v : CInt} {w : HarcWide N}
    (h : (w.toNat : Int) = v.toInt % 2 ^ (32 * N)) : ofCInt N v = w := by
  apply toNat_injective
  have hv := toNat_ofCInt N v
  omega

/-- The wide operators compute on the denoted naturals modulo `2 ^ (32 * N)`.  Addition
and subtraction need a word count that `unsigned` holds, and the shifts a bit count. -/
theorem operators_exact (N : Nat) (x y : HarcWide N) (v : CInt) :
    (N < 2 ^ 32 →
      (x.add y).toNat = (x.toNat + y.toNat) % 2 ^ (32 * N) ∧
      ((x.sub y).toNat : Int) = ((x.toNat : Int) - y.toNat) % 2 ^ (32 * N)) ∧
    (x.mul y).toNat = x.toNat * y.toNat % 2 ^ (32 * N) ∧
    (x.and y).toNat = x.toNat &&& y.toNat ∧
    (x.or y).toNat = x.toNat ||| y.toNat ∧
    (x.xor y).toNat = x.toNat ^^^ y.toNat ∧
    x.not.toNat = 2 ^ (32 * N) - 1 - x.toNat ∧
    (32 * N ≤ 2 ^ 32 →
      (x.shl v).toNat =
        (if v.toInt < 0 ∨ (32 * N : Int) ≤ v.toInt then 0
          else x.toNat * 2 ^ v.toInt.toNat % 2 ^ (32 * N)) ∧
      (x.shr v).toNat =
        if v.toInt < 0 ∨ (32 * N : Int) ≤ v.toInt then 0
          else x.toNat / 2 ^ v.toInt.toNat) ∧
    x.lt y = decide (x.toNat < y.toNat) ∧
    x.gt y = decide (x.toNat > y.toNat) ∧
    x.le y = decide (x.toNat ≤ y.toNat) ∧
    x.ge y = decide (x.toNat ≥ y.toNat) ∧
    ((ofCInt N v).toNat : Int) = v.toInt % 2 ^ (32 * N) ∧
    (∀ w : HarcWide N, (w.toNat : Int) = v.toInt % 2 ^ (32 * N) →
      ∀ op ∈ [add, sub, mul, and, or, xor],
        mixedRight op x v = op x w ∧ mixedLeft op v x = op w x) := by
  refine ⟨fun hN => ⟨toNat_add hN x y, toNat_sub hN x y⟩, toNat_mul x y, toNat_and x y,
    toNat_or x y, toNat_xor x y, toNat_not x, fun hN => ⟨toNat_shl hN x v, toNat_shr hN x v⟩,
    lt_eq x y, gt_eq x y, le_eq x y, ge_eq x y, toNat_ofCInt N v, ?_⟩
  intro w hw op _
  rw [mixedRight, mixedLeft, ofCInt_eq hw]
  exact ⟨rfl, rfl⟩

/-- `-1 + 2` over two words, and the shift of the sum by 33. -/
theorem operators_exact_two :
    ((ofCInt 2 (CInt.ofI32 (-1))).add (ofCInt 2 (CInt.ofU64 2))).toNat = 1 ∧
      ((ofCInt 2 (CInt.ofU64 1)).shl (CInt.ofU64 33)).toNat = 2 ^ 33 ∧
      mixedRight add (ofCInt 2 (CInt.ofU64 2)) (CInt.ofI32 (-1)) =
        add (ofCInt 2 (CInt.ofU64 2)) (ofCInt 2 (CInt.ofI32 (-1))) := by
  obtain ⟨hadd, -⟩ := operators_exact 2 (ofCInt 2 (CInt.ofI32 (-1)))
    (ofCInt 2 (CInt.ofU64 2)) (CInt.ofU64 33)
  obtain ⟨-, -, -, -, -, -, hshift, -⟩ := operators_exact 2 (ofCInt 2 (CInt.ofU64 1))
    (ofCInt 2 (CInt.ofU64 2)) (CInt.ofU64 33)
  obtain ⟨-, -, -, -, -, -, -, -, -, -, -, hres, hmixed⟩ := operators_exact 2
    (ofCInt 2 (CInt.ofU64 2)) (ofCInt 2 (CInt.ofU64 2)) (CInt.ofI32 (-1))
  refine ⟨?_, ?_, (hmixed _ hres add (by simp)).1⟩
  · rw [(hadd (by decide)).1]
    decide
  · rw [(hshift (by decide)).1]
    decide

section LargeCounts

theorem toInt_ofU64_two_pow : (CInt.ofU64 (2 ^ 32)).toInt = 2 ^ 32 := by
  decide

theorem toNat_ofU64_one (hN : 0 < N) : (ofCInt N (CInt.ofU64 1)).toNat = 1 := by
  have hresidue := toNat_ofCInt N (CInt.ofU64 1)
  have hpow : (1 : Int) < 2 ^ (32 * N) := one_lt_pow₀ (by omega) (by omega)
  rw [show (CInt.ofU64 1).toInt = 1 by decide, Int.emod_eq_of_lt (by omega) hpow] at hresidue
  exact_mod_cast hresidue

/-- A count of `2 ^ 32` is in range of a wider value, and its `unsigned` is zero. -/
theorem shiftsOut_two_pow (hlow : 2 ^ 32 < 32 * N) (hhigh : 32 * N < 2 ^ 64) :
    ¬ shiftsOut N (CInt.ofU64 (2 ^ 32)) = true := by
  rw [shiftsOut, toInt_ofU64_two_pow, Bool.or_eq_true_iff, decide_eq_true_iff]
  rintro (hneg | hle)
  · exact absurd hneg (by decide)
  · omega

theorem shiftCount_two_pow : shiftCount (CInt.ofU64 (2 ^ 32)) = 0 := by
  decide

theorem toNat_shl_two_pow (hlow : 2 ^ 32 < 32 * N) (hhigh : 32 * N < 2 ^ 64)
    (w : HarcWide N) : (w.shl (CInt.ofU64 (2 ^ 32))).toNat = w.toNat := by
  have hloop := value_wordShlLoop (Nat.succ_pos 31) w.words 0#32 (by decide)
  rw [pow_zero, Nat.mul_one, BitVec.toNat_zero, Nat.add_zero, w.length_eq] at hloop
  rw [← Nat.mod_eq_of_lt (w.shl _).toNat_lt, ← Nat.mod_eq_of_lt w.toNat_lt, toNat,
    words_shl w (shiftsOut_two_pow hlow hhigh), shiftCount_two_pow, Nat.zero_div,
    Nat.zero_mod, List.replicate_zero, List.nil_append, Nat.sub_zero,
    List.take_of_length_le w.length_eq.le]
  exact hloop

theorem toNat_shr_two_pow (hlow : 2 ^ 32 < 32 * N) (hhigh : 32 * N < 2 ^ 64)
    (w : HarcWide N) : (w.shr (CInt.ofU64 (2 ^ 32))).toNat = w.toNat := by
  rw [toNat, words_shr w (shiftsOut_two_pow hlow hhigh), shiftCount_two_pow, Nat.zero_div,
    Nat.zero_mod, List.replicate_zero, List.append_nil, List.drop_zero,
    value_wordShrLoop (Nat.succ_pos 31), pow_zero, Nat.div_one]
  rfl

/-- `unsigned` of such a word count is zero, and a kernel runs on no words. -/
theorem toNat_kernel_wrap (hN : N % 2 ^ 32 = 0)
    (run : List U32 → List U32 → U64 → List U32)
    (hrun : ∀ lhs rhs, lhs.length = rhs.length → (run lhs rhs 0).length = lhs.length)
    (lhs rhs : HarcWide N) : (kernel run hrun lhs rhs).toNat = 0 := by
  have hnil : run [] [] 0 = [] := List.eq_nil_of_length_eq_zero (hrun [] [] rfl)
  rw [toNat, kernel]
  simp only [hN, List.take_zero, hnil, List.nil_append]
  exact value_replicate_zero _

theorem shl_ne (hlow : 2 ^ 32 < 32 * N) (hhigh : 32 * N < 2 ^ 64) :
    ((ofCInt N (CInt.ofU64 1)).shl (CInt.ofU64 (2 ^ 32))).toNat ≠
      (ofCInt N (CInt.ofU64 1)).toNat * 2 ^ (CInt.ofU64 (2 ^ 32)).toInt.toNat %
        2 ^ (32 * N) := by
  have hone := toNat_ofU64_one (show 0 < N by omega)
  have hcount : (CInt.ofU64 (2 ^ 32)).toInt.toNat = 2 ^ 32 := by decide
  rw [toNat_shl_two_pow hlow hhigh, hone, hcount, Nat.one_mul,
    Nat.mod_eq_of_lt (Nat.pow_lt_pow_right (by omega) hlow)]
  generalize hk : 2 ^ 32 = k
  exact (one_lt_pow₀ (by omega) (by omega)).ne

theorem one_ne_one_div {k : Nat} (hk : 0 < k) : 1 ≠ 1 / 2 ^ k := by
  rw [Nat.div_eq_of_lt (one_lt_pow₀ (by omega) (by omega))]
  omega

theorem shr_ne (hlow : 2 ^ 32 < 32 * N) (hhigh : 32 * N < 2 ^ 64) :
    ((ofCInt N (CInt.ofU64 1)).shr (CInt.ofU64 (2 ^ 32))).toNat ≠
      (ofCInt N (CInt.ofU64 1)).toNat / 2 ^ (CInt.ofU64 (2 ^ 32)).toInt.toNat := by
  have hone := toNat_ofU64_one (show 0 < N by omega)
  have hcount : 0 < (CInt.ofU64 (2 ^ 32)).toInt.toNat := by decide
  rw [toNat_shr_two_pow hlow hhigh, hone]
  exact one_ne_one_div hcount

theorem add_ne (hpos : 0 < N) (hN : N % 2 ^ 32 = 0) :
    ((ofCInt N (CInt.ofU64 1)).add (ofCInt N (CInt.ofU64 1))).toNat ≠
      ((ofCInt N (CInt.ofU64 1)).toNat + (ofCInt N (CInt.ofU64 1)).toNat) %
        2 ^ (32 * N) := by
  have hpow : 1 + 1 < 2 ^ (32 * N) :=
    lt_of_eq_of_lt (pow_one 2).symm (Nat.pow_lt_pow_right (by omega) (by omega))
  rw [add, toNat_kernel_wrap hN, toNat_ofU64_one hpos, Nat.mod_eq_of_lt hpow]
  omega

theorem sub_ne (hpos : 0 < N) (hN : N % 2 ^ 32 = 0) :
    (((ofCInt N (CInt.ofU64 1)).sub (zero N)).toNat : Int) ≠
      (((ofCInt N (CInt.ofU64 1)).toNat : Int) - (zero N).toNat) % 2 ^ (32 * N) := by
  have hpow : (1 : Int) < 2 ^ (32 * N) := one_lt_pow₀ (by omega) (by omega)
  rw [sub, toNat_kernel_wrap hN, toNat_ofU64_one hpos, toNat_zero]
  simp only [Nat.cast_zero, Nat.cast_one, sub_zero]
  rw [Int.emod_eq_of_lt (by omega) hpow]
  omega

/-- A shift by `2 ^ 32` keeps one at one, and over `2 ^ 32` words `1 + 1` and `1 - 0` are
zero. -/
theorem operators_wrap :
    ((ofCInt (2 ^ 27 + 1) (CInt.ofU64 1)).shl (CInt.ofU64 (2 ^ 32))).toNat ≠
        (ofCInt (2 ^ 27 + 1) (CInt.ofU64 1)).toNat *
          2 ^ (CInt.ofU64 (2 ^ 32)).toInt.toNat % 2 ^ (32 * (2 ^ 27 + 1)) ∧
      ((ofCInt (2 ^ 27 + 1) (CInt.ofU64 1)).shr (CInt.ofU64 (2 ^ 32))).toNat ≠
        (ofCInt (2 ^ 27 + 1) (CInt.ofU64 1)).toNat /
          2 ^ (CInt.ofU64 (2 ^ 32)).toInt.toNat ∧
      ((ofCInt (2 ^ 32) (CInt.ofU64 1)).add (ofCInt (2 ^ 32) (CInt.ofU64 1))).toNat ≠
        ((ofCInt (2 ^ 32) (CInt.ofU64 1)).toNat + (ofCInt (2 ^ 32) (CInt.ofU64 1)).toNat) %
          2 ^ (32 * 2 ^ 32) ∧
      (((ofCInt (2 ^ 32) (CInt.ofU64 1)).sub (zero (2 ^ 32))).toNat : Int) ≠
        (((ofCInt (2 ^ 32) (CInt.ofU64 1)).toNat : Int) - (zero (2 ^ 32)).toNat) %
          2 ^ (32 * 2 ^ 32) :=
  ⟨shl_ne (by decide) (by decide), shr_ne (by decide) (by decide),
    add_ne (by decide) (by decide), sub_ne (by decide) (by decide)⟩

end LargeCounts

end HarcWide

end Harc.WideRuntime
