import Harc.CppScalar
import Harc.IrExpr
import Mathlib.Data.Nat.Bitwise
import Mathlib.Data.BitVec

/-!
Counts for the timing interfaces of the host (`bounded_count_expr_cpp`).  The text that is
emitted for a count saturates at the limit of its consumer; which text it is depends on
the width and the sign that are known of the expression.  What the rendered expression
itself evaluates to is a parameter.
-/

namespace Harc.BoundedCount

open Harc.CppScalar
open Harc.IrExpr

/-! ### The runtime -/

def u64ShiftCount (value limit : BitVec 64) : BitVec 64 :=
  if limit ≤ value then limit else value

def u128ShiftCount (value : BitVec 128) (limit : BitVec 64) : BitVec 64 :=
  if value >>> 64 ≠ 0 then limit else u64ShiftCount (value.setWidth 64) limit

/-- A word of a value that is held in consecutive 32-bit words. -/
def word (value : CValue) (i : Nat) : BitVec 32 := value.pattern.extractLsb' (32 * i) 32

def wordCount (value : CValue) : Nat := value.carrier.bits / 32

def lowWords (value : CValue) : BitVec 64 :=
  let low := (word value 0).setWidth 64
  if 1 < wordCount value then low ||| (word value 1).setWidth 64 <<< 32 else low

def wideShiftCount (value : CValue) (limit : BitVec 64) : BitVec 64 :=
  if (List.range' 2 (wordCount value - 2)).any fun i => word value i != 0 then limit
  else u64ShiftCount (lowWords value) limit

def wideGetBit (value : CValue) (i : Nat) : Bool :=
  decide (i < wordCount value * 32) && ((word value (i / 32)) >>> (i % 32)).getLsbD 0

/-! ### The emitted text -/

/-- `(int64_t)`; the conversion to `uint64_t` is `CValue.toU64`. -/
def toI64 (x : CValue) : BitVec 64 := x.convert .int64

def toU128 (x : CValue) : BitVec 128 := x.convert .uint128

/-- An expression that is no literal, as `bounded_count_expr_cpp` sees it. -/
structure Operand where
  /-- `expr_static_width` -/
  width : Option Nat
  /-- `expr_is_signed` -/
  isSigned : Bool
  /-- The expression is a unary minus. -/
  isNeg : Bool
  /-- What the rendered text evaluates to. -/
  text : CValue

def Operand.signed (o : Operand) : Bool := o.isSigned || o.isNeg

def widthFits (limit : BitVec 64) (width : Nat) : Bool :=
  if width = 0 then true
  else if width ≤ 63 then decide (2 ^ width - 1 ≤ limit.toNat)
  else decide (width = 64 ∧ limit = BitVec.allOnes 64)

/-- The carriers that hold a width: a host scalar, `_harc_u128` or `HarcWide`. -/
inductive Tier where
  | host
  | u128 (width : Nat)
  | wide (width : Nat)
deriving DecidableEq

def tier : Option Nat → Tier
  | none => .host
  | some width => if 128 < width then .wide width else if 64 < width then .u128 width else .host

def hostCount (o : Operand) (limit : BitVec 64) : Int :=
  if o.signed then
    let count := toI64 o.text
    if count.toInt ≤ 0 then 0 else (u64ShiftCount count limit).toNat
  else (u64ShiftCount o.text.toU64 limit).toNat

def u128Count (o : Operand) (width : Nat) (limit : BitVec 64) : Int :=
  let count := toU128 o.text
  if o.signed && (count >>> (width - 1)).getLsbD 0 then 0 else (u128ShiftCount count limit).toNat

def wideCount (o : Operand) (width : Nat) (limit : BitVec 64) : Int :=
  if o.signed && wideGetBit o.text (width - 1) then 0 else (wideShiftCount o.text limit).toNat

/-- The text is emitted as it is. -/
def unclamped (o : Operand) (limit : BitVec 64) : Bool :=
  !o.signed && o.width.any (widthFits limit)

def operandCount (o : Operand) (limit : BitVec 64) : Int :=
  match tier o.width with
  | .wide width => wideCount o width limit
  | .u128 width => u128Count o width limit
  | .host => if unclamped o limit then o.text.toInt else hostCount o limit

structure Literal where
  value : BitVec 64
  ty : IrType

def Literal.negative (l : Literal) : Bool :=
  match l.ty with
  | .sint (some width) => decide (1 ≤ width ∧ width ≤ 64) && l.value.getLsbD (width - 1)
  | .sint none => l.value.msb
  | _ => false

/-- What the literal's own text evaluates to. -/
def Literal.text (cc : Compiler) (l : Literal) : CValue :=
  match l.ty with
  | .sint _ => .ofI64 l.value
  | .uint _ => .ofU64 l.value
  | _ => decimal cc l.value.toNat

def literalCount (cc : Compiler) (l : Literal) (limit : BitVec 64) : Int :=
  if l.negative then 0
  else if l.value ≤ limit then (l.text cc).toInt
  else limit.toNat

/-! ### What the runtime computes -/

theorem convert_eq_ofInt (x : CValue) (c : Carrier) :
    x.convert c = BitVec.ofInt c.bits x.toInt := by
  rw [CValue.convert, CValue.toInt]
  split_ifs with hsigned
  · rfl
  · rw [BitVec.ofInt_natCast]
    apply BitVec.eq_of_toNat_eq
    simp

theorem u64ShiftCount_toNat (value limit : BitVec 64) :
    (u64ShiftCount value limit).toNat = min value.toNat limit.toNat := by
  rw [u64ShiftCount]
  split_ifs with h
  · rw [BitVec.le_def] at h
    exact (Nat.min_eq_right h).symm
  · rw [BitVec.le_def] at h
    exact (Nat.min_eq_left (by omega)).symm

/-- A count above 64 bits is at least any limit. -/
theorem min_limit_of_le {n : Nat} (h : 2 ^ 64 ≤ n) (limit : BitVec 64) :
    limit.toNat = min n limit.toNat :=
  (Nat.min_eq_right (le_trans (Nat.le_of_lt limit.isLt) h)).symm

theorem u128ShiftCount_toNat (value : BitVec 128) (limit : BitVec 64) :
    (u128ShiftCount value limit).toNat = min value.toNat limit.toNat := by
  have hshift : value >>> 64 = 0 ↔ value.toNat < 2 ^ 64 := by
    rw [← BitVec.toNat_inj, BitVec.toNat_ushiftRight, Nat.shiftRight_eq_div_pow]
    simp only [BitVec.ofNat_eq_ofNat, BitVec.toNat_ofNat, Nat.zero_mod]
    omega
  rw [u128ShiftCount]
  split_ifs with h
  · exact min_limit_of_le (Nat.not_lt.mp fun hlt => h (hshift.mpr hlt)) limit
  · rw [not_not, hshift] at h
    rw [u64ShiftCount_toNat, BitVec.toNat_setWidth, Nat.mod_eq_of_lt h]

theorem getLsbD_word {value : CValue} {i : Nat} :
    (word value (i / 32)).getLsbD (i % 32) = value.pattern.toNat.testBit i := by
  have hmod : i % 32 < 32 := Nat.mod_lt _ (by decide)
  rw [word, BitVec.getLsbD_extractLsb', BitVec.testBit_toNat, Nat.div_add_mod]
  simp [hmod]

/-- The value lives in consecutive words. -/
def InWords (value : CValue) : Prop := value.carrier.bits = 32 * wordCount value

theorem InWords.lt_of_testBit {value : CValue} (h : InWords value) {i : Nat}
    (hbit : value.pattern.toNat.testBit i = true) : i / 32 < wordCount value := by
  have hi : i < value.carrier.bits := by
    by_contra hge
    rw [Nat.testBit_lt_two_pow (lt_of_lt_of_le value.pattern.isLt
      (Nat.pow_le_pow_right (by decide) (Nat.le_of_not_lt hge)))] at hbit
    cases hbit
  rw [InWords] at h
  omega

/-- A number is below `2 ^ 64` exactly when its words from the third on are zero. -/
theorem InWords.any_word {value : CValue} (h : InWords value) :
    (List.range' 2 (wordCount value - 2)).any (fun i => word value i != 0) = true ↔
      2 ^ 64 ≤ value.pattern.toNat := by
  rw [List.any_eq_true]
  constructor
  · rintro ⟨i, hi, hword⟩
    rw [bne_iff_ne, ne_eq, ← BitVec.toNat_inj] at hword
    obtain ⟨j, hj⟩ := Nat.exists_testBit_of_ne_zero hword
    have hj32 : j < 32 := by
      by_contra hge
      rw [Nat.testBit_lt_two_pow (lt_of_lt_of_le (word value i).isLt
        (Nat.pow_le_pow_right (by decide) (Nat.le_of_not_lt hge)))] at hj
      cases hj
    have hdiv : (32 * i + j) / 32 = i := by omega
    have hmod : (32 * i + j) % 32 = j := by omega
    have hbit := @getLsbD_word value (32 * i + j)
    rw [hdiv, hmod, ← BitVec.testBit_toNat, hj] at hbit
    have hi2 := (List.mem_range'_1.mp hi).1
    exact le_trans (Nat.pow_le_pow_right (by decide) (by omega))
      (Nat.ge_two_pow_of_testBit hbit.symm)
  · intro hlarge
    obtain ⟨k, hk, hbit⟩ := Nat.exists_ge_and_testBit_of_ge_two_pow hlarge
    refine ⟨k / 32, List.mem_range'_1.mpr ⟨by omega, ?_⟩, ?_⟩
    · have := h.lt_of_testBit hbit
      omega
    · rw [bne_iff_ne]
      intro hzero
      rw [← getLsbD_word, hzero] at hbit
      simp at hbit

theorem getLsbD_lowWords (value : CValue) (i : Nat) :
    (lowWords value).getLsbD i = ((word value 0).getLsbD i ||
      decide (1 < wordCount value ∧ 32 ≤ i ∧ i < 64) && (word value 1).getLsbD (i - 32)) := by
  have hlow : ((word value 0).setWidth 64).getLsbD i = (word value 0).getLsbD i := by
    rw [BitVec.getLsbD_setWidth]
    rcases Nat.lt_or_ge i 64 with hi | hi
    · simp [hi]
    · simp [BitVec.getLsbD_of_ge (word value 0) i (by omega)]
  rw [lowWords]
  split_ifs with hcount
  · rw [BitVec.getLsbD_or, hlow, BitVec.getLsbD_shiftLeft, BitVec.getLsbD_setWidth]
    rcases Nat.lt_or_ge i 64 with hi | hi
    · have hlt : i - 32 < 64 := by omega
      rcases Nat.lt_or_ge i 32 with hlow | hhigh
      · simp [hlow, show ¬ 32 ≤ i by omega]
      · simp [hi, hcount, hlt, hhigh, show ¬ i < 32 by omega]
    · simp [show ¬ i < 64 by omega]
  · rw [hlow]
    simp [hcount]

theorem InWords.lowWords_toNat {value : CValue} (h : InWords value)
    (hsmall : value.pattern.toNat < 2 ^ 64) :
    (lowWords value).toNat = value.pattern.toNat := by
  apply Nat.eq_of_testBit_eq
  intro i
  rw [BitVec.testBit_toNat, getLsbD_lowWords]
  have hword := @getLsbD_word value i
  rcases Nat.lt_or_ge i 32 with hi | hi
  · rw [Nat.div_eq_of_lt hi, Nat.mod_eq_of_lt hi] at hword
    rw [hword]
    simp [show ¬ 32 ≤ i by omega]
  · rw [BitVec.getLsbD_of_ge (word value 0) i hi, Bool.false_or]
    rcases hbit : value.pattern.toNat.testBit i with _ | _
    · rcases Nat.lt_or_ge i 64 with hlt | hge
      · rw [show i / 32 = 1 by omega, show i % 32 = i - 32 by omega, hbit] at hword
        rw [hword, Bool.and_false]
      · simp [show ¬ i < 64 by omega]
    · have hlt : i < 64 :=
        (Nat.pow_lt_pow_iff_right (by decide)).mp
          (lt_of_le_of_lt (Nat.ge_two_pow_of_testBit hbit) hsmall)
      have hcount := h.lt_of_testBit hbit
      rw [show i / 32 = 1 by omega, show i % 32 = i - 32 by omega, hbit] at hword
      rw [show i / 32 = 1 by omega] at hcount
      simp [hword, hcount, hi, hlt]

theorem InWords.wideShiftCount_toNat {value : CValue} (h : InWords value) (limit : BitVec 64) :
    (wideShiftCount value limit).toNat = min value.pattern.toNat limit.toNat := by
  rw [wideShiftCount]
  split_ifs with hany
  · exact min_limit_of_le (h.any_word.mp hany) limit
  · have hsmall : value.pattern.toNat < 2 ^ 64 :=
      Nat.lt_of_not_le fun hlarge => hany (h.any_word.mpr hlarge)
    rw [u64ShiftCount_toNat, h.lowWords_toNat hsmall]

theorem InWords.wideGetBit_eq {value : CValue} (h : InWords value) (i : Nat) :
    wideGetBit value i = value.pattern.toNat.testBit i := by
  rw [wideGetBit, BitVec.getLsbD_ushiftRight, Nat.add_zero, getLsbD_word]
  rcases hbit : value.pattern.toNat.testBit i with _ | _
  · simp
  · have := h.lt_of_testBit hbit
    simp
    omega

/-! ### The mathematical value -/

/-- The bits in which a signed value is looked at. -/
def countBits (width : Option Nat) : Nat :=
  match tier width with
  | .host => 64
  | .u128 width | .wide width => width

/-- The rendered text above 128 bits is held in words. -/
def Operand.Carried (o : Operand) : Prop :=
  match tier o.width with
  | .wide _ => InWords o.text ∧ o.text.carrier.signed = false
  | _ => True

/-- An expression with its mathematical value.  The text need not evaluate to it: a sum may be
above its static width, and a minus below the root, as in `c ? -a : b`, is taken in the carrier
of an unsigned operand. -/
structure Count where
  operand : Operand
  value : Int
  carried : operand.Carried

/-- The text agrees with the value in the bits in which a count looks at it. -/
def Count.Congruent (c : Count) : Prop :=
  c.operand.text.toInt % 2 ^ countBits c.operand.width = c.value % 2 ^ countBits c.operand.width

/-- A literal of the width and sign of its type; the pattern of a signed one may be
extended by zeros or by its sign. -/
def Literal.WellFormed (l : Literal) : Prop :=
  match l.ty with
  | .uint (some width) => l.value.toNat < 2 ^ width
  | .sint (some width) => 0 < width ∧
      (l.value.toNat < 2 ^ width ∨ l.value = ((l.value.setWidth width).signExtend 64))
  | _ => True

/-- The value at the width and sign of the type. -/
def Literal.toInt (l : Literal) : Int :=
  match l.ty with
  | .sint (some width) => (l.value.setWidth width).toInt
  | .sint none => l.value.toInt
  | _ => l.value.toNat

inductive CountExpr where
  | literal (l : Literal) (wellFormed : l.WellFormed)
  | scalar (c : Count)

def CountExpr.value : CountExpr → Int
  | .literal l _ => l.toInt
  | .scalar c => c.value

/-- What the text of `bounded_count_expr_cpp` evaluates to. -/
def boundedCount (cc : Compiler) : CountExpr → BitVec 64 → Int
  | .literal l _, limit => literalCount cc l limit
  | .scalar c, limit => operandCount c.operand limit

/-- A pattern with the sign bit of its width set, if it is read with a sign, is negative. -/
def readAt (signed : Bool) (width : Nat) (pattern : Int) : Int :=
  if signed ∧ 2 ^ (width - 1) ≤ pattern % 2 ^ width then pattern % 2 ^ width - 2 ^ width
  else pattern

/-- The number that is compared with the limit: a host scalar in 64 bits, with a sign or
without one, and above 64 bits what the carrier holds, unless the bit of a sign is set. -/
def Count.seen (c : Count) : Int :=
  match tier c.operand.width with
  | .host =>
      if c.operand.signed then c.operand.text.toInt.bmod (2 ^ 64)
      else c.operand.text.toInt % 2 ^ 64
  | .u128 width => readAt c.operand.signed width (c.operand.text.toInt % 2 ^ 128)
  | .wide width => readAt c.operand.signed width c.operand.text.toInt

/-- A number stands for another one below a limit. -/
def StandsFor (seen value : Int) (limit : Nat) : Prop :=
  seen = value ∨ (seen ≤ 0 ∧ value ≤ 0) ∨ (limit ≤ seen ∧ limit ≤ value) ∨ limit = 0

/-- The condition under which the text saturates. -/
def CountExpr.Within : CountExpr → BitVec 64 → Prop
  | .literal l _, limit =>
      ∀ width, l.ty = .sint (some width) → 64 < width → l.value.msb = true → limit < l.value
  | .scalar c, limit =>
      StandsFor c.seen c.value limit.toNat ∧
        (unclamped c.operand limit = true →
          0 ≤ c.operand.text.toInt ∧ c.operand.text.toInt ≤ limit.toNat)

theorem unclamped_of_tier {o : Operand} {limit : BitVec 64} (h : tier o.width ≠ .host) :
    unclamped o limit = false := by
  rcases hwidth : o.width with _ | width
  · simp [tier, hwidth] at h
  · have hlarge : 64 < width := by
      rw [hwidth, tier] at h
      split_ifs at h with h128 h64
      · omega
      · exact h64
      · exact absurd rfl h
    simp [unclamped, hwidth, widthFits, show width ≠ 0 by omega, show ¬ width ≤ 63 by omega,
      show width ≠ 64 by omega]

theorem convert_toNat (x : CValue) (c : Carrier) :
    ((x.convert c).toNat : Int) = x.toInt % 2 ^ c.bits := by
  rw [convert_eq_ofInt, BitVec.toNat_ofInt]
  have hpos : (0 : Int) < 2 ^ c.bits := by positivity
  push_cast
  exact Int.toNat_of_nonneg (Int.emod_nonneg _ hpos.ne')

theorem toU64_toNat (x : CValue) : (x.toU64.toNat : Int) = x.toInt % 2 ^ 64 :=
  convert_toNat x .uint64

theorem toU128_toNat (x : CValue) : ((toU128 x).toNat : Int) = x.toInt % 2 ^ 128 :=
  convert_toNat x .uint128

theorem toI64_toInt (x : CValue) : (toI64 x).toInt = x.toInt.bmod (2 ^ 64) := by
  change (x.convert .int64).toInt = _
  rw [convert_eq_ofInt]
  exact BitVec.toInt_ofInt _

theorem toInt_of_unsigned {x : CValue} (h : x.carrier.signed = false) :
    x.toInt = x.pattern.toNat := by
  rw [CValue.toInt, h]
  rfl

/-- The bit of the sign divides the residues of a width. -/
theorem testBit_sign (p : Nat) {w : Nat} (hw : 0 < w) :
    p.testBit (w - 1) = true ↔ 2 ^ (w - 1) ≤ p % 2 ^ w := by
  have hpow : 2 ^ w = 2 ^ (w - 1) * 2 := by
    rw [← Nat.pow_succ]
    congr 1
    omega
  have hpos : 0 < 2 ^ (w - 1) := Nat.two_pow_pos _
  have hlt : p % 2 ^ w < 2 ^ w := Nat.mod_lt _ (by omega)
  rw [Nat.testBit_eq_decide_div_mod_eq, decide_eq_true_eq, ← Nat.mod_mul_right_div_self, ← hpow]
  constructor
  · intro h
    by_contra hsmall
    rw [Nat.div_eq_of_lt (by omega)] at h
    cases h
  · intro h
    exact Nat.div_eq_of_lt_le (by omega) (by omega)

section Tiers

variable {c : Count} {limit : BitVec 64}

/-- A host scalar is compared as it is seen. -/
theorem hostCount_seen (hhost : tier c.operand.width = .host) :
    hostCount c.operand limit = max 0 (min c.seen limit.toNat) := by
  rw [hostCount, Count.seen, hhost]
  dsimp only
  rcases hsigned : c.operand.signed with _ | _
  · have hnat := toU64_toNat c.operand.text
    have hnonneg := Int.emod_nonneg c.operand.text.toInt (show (2 : Int) ^ 64 ≠ 0 by norm_num)
    rw [if_neg Bool.false_ne_true, if_neg Bool.false_ne_true, u64ShiftCount_toNat, Nat.cast_min,
      hnat]
    omega
  · have hcount := toI64_toInt c.operand.text
    have hpattern := BitVec.toInt_eq_toNat_cond (toI64 c.operand.text)
    rw [hcount] at hpattern
    rw [if_pos rfl, if_pos rfl]
    simp only [hcount, u64ShiftCount_toNat]
    split_ifs at hpattern ⊢ <;> omega

/-- A carrier of more than 64 bits that holds the number `p`. -/
theorem pattern_count_seen {p width : Nat} {signed : Bool} (hwidth : 0 < width) :
    (if signed && p.testBit (width - 1) then (0 : Int) else (min p limit.toNat : Nat)) =
      max 0 (min (readAt signed width p) limit.toNat) := by
  have hless := Int.emod_lt_of_pos p (show (0 : Int) < 2 ^ width by positivity)
  have hbit : p.testBit (width - 1) = true ↔ (2 : Int) ^ (width - 1) ≤ p % 2 ^ width := by
    rw [testBit_sign p hwidth]
    exact_mod_cast Iff.rfl
  rw [readAt]
  simp only [Bool.and_eq_true, hbit]
  split_ifs <;> omega

theorem width_pos_of_tier {o : Option Nat} {width : Nat} :
    (tier o = .u128 width → 64 < width ∧ width ≤ 128) ∧ (tier o = .wide width → 128 < width) := by
  rcases o with _ | w
  · constructor <;> rintro ⟨⟩
  · rw [tier]
    split_ifs with h128 h64
    · exact ⟨by rintro ⟨⟩, by rintro ⟨⟩; exact h128⟩
    · exact ⟨by rintro ⟨⟩; omega, by rintro ⟨⟩⟩
    · constructor <;> rintro ⟨⟩

theorem u128Count_seen {width : Nat} (htier : tier c.operand.width = .u128 width) :
    u128Count c.operand width limit = max 0 (min c.seen limit.toNat) := by
  obtain ⟨hwidth, -⟩ := width_pos_of_tier.1 htier
  rw [Count.seen, htier]
  dsimp only
  rw [← toU128_toNat, ← pattern_count_seen (by omega), u128Count, u128ShiftCount_toNat,
    BitVec.getLsbD_ushiftRight, Nat.add_zero, BitVec.testBit_toNat]

theorem wideCount_seen {width : Nat} (htier : tier c.operand.width = .wide width) :
    wideCount c.operand width limit = max 0 (min c.seen limit.toNat) := by
  have hwidth := width_pos_of_tier.2 htier
  obtain ⟨hwords, hunsigned⟩ : InWords c.operand.text ∧
      c.operand.text.carrier.signed = false := by
    have hcarried := c.carried
    rw [Operand.Carried, htier] at hcarried
    exact hcarried
  rw [Count.seen, htier]
  dsimp only
  rw [toInt_of_unsigned hunsigned, ← pattern_count_seen (by omega), wideCount,
    hwords.wideGetBit_eq, hwords.wideShiftCount_toNat]

end Tiers

/-- What is emitted for an expression that is no literal. -/
theorem operandCount_seen (c : Count) (limit : BitVec 64) :
    operandCount c.operand limit =
      if unclamped c.operand limit then c.operand.text.toInt
      else max 0 (min c.seen limit.toNat) := by
  rcases htier : tier c.operand.width with _ | width | width
  · rw [operandCount, htier]
    dsimp only
    rw [hostCount_seen htier]
  · rw [operandCount, htier, unclamped_of_tier (by rw [htier]; rintro ⟨⟩),
      if_neg Bool.false_ne_true]
    exact u128Count_seen htier
  · rw [operandCount, htier, unclamped_of_tier (by rw [htier]; rintro ⟨⟩),
      if_neg Bool.false_ne_true]
    exact wideCount_seen htier

theorem standsFor_iff {seen value : Int} {limit : Nat} :
    max 0 (min seen limit) = max 0 (min value limit) ↔ StandsFor seen value limit := by
  rw [StandsFor]
  omega

/-- A text that is emitted as it is has the number that would be compared, if it is one
that the limit allows. -/
theorem seen_of_unclamped {c : Count} {limit : BitVec 64}
    (hraw : unclamped c.operand limit = true) (hnonneg : 0 ≤ c.operand.text.toInt)
    (hle : c.operand.text.toInt ≤ limit.toNat) : c.seen = c.operand.text.toInt := by
  have hhost : tier c.operand.width = .host := by
    by_contra htier
    rw [unclamped_of_tier htier] at hraw
    cases hraw
  have hsigned : c.operand.signed = false := by
    rw [unclamped, Bool.and_eq_true, Bool.not_eq_true'] at hraw
    exact hraw.1
  have hlimit := limit.isLt
  rw [Count.seen, hhost]
  dsimp only
  rw [hsigned, if_neg Bool.false_ne_true]
  exact Int.emod_eq_of_lt hnonneg (by omega)

/-- A host scalar that agrees with its value in 64 bits is seen as the value in 64 bits. -/
theorem Count.Congruent.seen_host {c : Count} (h : c.Congruent)
    (hhost : tier c.operand.width = .host) :
    c.seen = if c.operand.signed then c.value.bmod (2 ^ 64) else c.value % 2 ^ 64 := by
  rw [Count.Congruent, countBits, hhost] at h
  dsimp only at h
  rw [Count.seen, hhost]
  dsimp only
  split_ifs
  · rw [Int.bmod_def, Int.bmod_def]
    norm_num at h ⊢
    rw [h]
  · exact h

/-- The count of an expression that is no literal. -/
theorem operandCount_iff (c : Count) (limit : BitVec 64) :
    operandCount c.operand limit = max 0 (min c.value limit.toNat) ↔
      StandsFor c.seen c.value limit.toNat ∧
        (unclamped c.operand limit = true →
          0 ≤ c.operand.text.toInt ∧ c.operand.text.toInt ≤ limit.toNat) := by
  rw [operandCount_seen, ← standsFor_iff]
  rcases hraw : unclamped c.operand limit with _ | _
  · simp only [Bool.false_eq_true, if_false, false_implies, and_true]
  · rw [if_pos rfl]
    constructor
    · intro heq
      have hrange : 0 ≤ c.operand.text.toInt ∧ c.operand.text.toInt ≤ limit.toNat := by omega
      rw [seen_of_unclamped hraw hrange.1 hrange.2]
      exact ⟨by omega, fun _ => hrange⟩
    · rintro ⟨heq, hrange⟩
      obtain ⟨hnonneg, hle⟩ := hrange rfl
      rw [seen_of_unclamped hraw hnonneg hle] at heq
      omega

/-! ### Literals -/

theorem toInt_of_lt {w : Nat} {v : BitVec w} {h : Nat} (hlt : v.toNat < 2 ^ h) (hw : h < w) :
    v.toInt = v.toNat := by
  refine BitVec.toInt_eq_toNat_of_lt ?_
  calc 2 * v.toNat < 2 * 2 ^ h := by omega
    _ = 2 ^ (h + 1) := (Nat.pow_succ').symm
    _ ≤ 2 ^ w := Nat.pow_le_pow_right (by decide) hw

theorem decimal_toInt (cc : Compiler) {n : Nat} (hn : n < 2 ^ 64) : (decimal cc n).toInt = n := by
  have hnonneg : ∀ {c : Carrier} {h : Nat}, n < 2 ^ h → h < c.bits →
      (⟨c, BitVec.ofNat _ n⟩ : CValue).toInt = n := by
    intro c h hlt hbits
    have hle : 2 ^ h ≤ 2 ^ c.bits := Nat.pow_le_pow_right (by decide) hbits.le
    have hnat : (BitVec.ofNat c.bits n).toNat = n := by
      rw [BitVec.toNat_ofNat, Nat.mod_eq_of_lt (lt_of_lt_of_le hlt hle)]
    change (if c.signed then (BitVec.ofNat c.bits n).toInt else ((BitVec.ofNat c.bits n).toNat : Int))
      = n
    rw [toInt_of_lt (hnat.symm ▸ hlt) hbits, hnat]
    split_ifs <;> rfl
  rw [decimal]
  split_ifs with h31 h63
  · exact hnonneg h31 (by decide)
  · exact hnonneg h63 (by decide)
  · rcases cc.holds with hlarge | ⟨hlarge, hunsigned⟩
    · exact hnonneg hn hlarge
    · rw [toInt_of_unsigned hunsigned]
      change ((BitVec.ofNat cc.largeLiteral.bits n).toNat : Int) = n
      rw [BitVec.toNat_ofNat, ← hlarge, Nat.mod_eq_of_lt hn]

/-- The pattern of a signed literal whose bit of the sign is clear. -/
theorem Literal.value_lt {value : BitVec 64} {width : Nat} (hpos : 0 < width)
    (hwellFormed : value.toNat < 2 ^ width ∨ value = (value.setWidth width).signExtend 64)
    (hclear : value.getLsbD (width - 1) = false) : value.toNat < 2 ^ (width - 1) := by
  have hlt : value.toNat < 2 ^ width := by
    rcases hwellFormed with hlt | hextended
    · exact hlt
    · have hmsb : (value.setWidth width).msb = false := by
        rw [BitVec.msb_eq_getLsbD_last, BitVec.getLsbD_setWidth, hclear, Bool.and_false]
      rw [BitVec.signExtend_eq_setWidth_of_msb_false hmsb] at hextended
      rw [hextended, BitVec.toNat_setWidth, BitVec.toNat_setWidth]
      exact lt_of_le_of_lt (Nat.mod_le _ _) (Nat.mod_lt _ (Nat.two_pow_pos _))
  by_contra hlarge
  have hbit := (testBit_sign value.toNat hpos).mpr (by rw [Nat.mod_eq_of_lt hlt]; omega)
  rw [BitVec.testBit_toNat, hclear] at hbit
  cases hbit

/-- A text that holds the value saturates. -/
theorem literalCount_of_text {cc : Compiler} {l : Literal} {limit : BitVec 64}
    (hnegative : l.negative = false) (htext : (l.text cc).toInt = l.value.toNat)
    (hvalue : l.toInt = l.value.toNat) :
    literalCount cc l limit = max 0 (min l.toInt limit.toNat) := by
  rw [literalCount, hnegative, if_neg Bool.false_ne_true, htext, hvalue]
  split_ifs with h
  · rw [BitVec.le_def] at h
    omega
  · rw [BitVec.le_def] at h
    omega

theorem literalCount_of_negative {cc : Compiler} {l : Literal} {limit : BitVec 64}
    (hnegative : l.negative = true) (hvalue : l.toInt < 0) :
    literalCount cc l limit = max 0 (min l.toInt limit.toNat) := by
  rw [literalCount, if_pos hnegative]
  omega

theorem literalCount_sint {cc : Compiler} {value limit : BitVec 64} {width : Nat}
    (hwellFormed : (Literal.mk value (.sint (some width))).WellFormed) :
    literalCount cc ⟨value, .sint (some width)⟩ limit =
        max 0 (min (Literal.toInt ⟨value, .sint (some width)⟩) limit.toNat) ↔
      (64 < width → value.msb = true → limit < value) := by
  obtain ⟨hpos, hpattern⟩ := hwellFormed
  rcases Nat.lt_or_ge 64 width with hwide | hnarrow
  · have hvalue : (value.setWidth width).toInt = value.toNat := by
      have hlt := value.isLt
      have hnat : (value.setWidth width).toNat = value.toNat :=
        BitVec.toNat_setWidth_of_le hwide.le
      rw [toInt_of_lt (hnat.symm ▸ hlt) hwide, hnat]
    have hnegative : (Literal.mk value (.sint (some width))).negative = false := by
      simp [Literal.negative, show ¬ width ≤ 64 by omega]
    rcases hmsb : value.msb with _ | _
    · have htext : value.toInt = value.toNat := BitVec.toInt_eq_toNat_of_msb hmsb
      simpa [hwide] using literalCount_of_text hnegative htext hvalue
    · have htext : value.toInt < 0 := BitVec.toInt_neg_of_msb_true hmsb
      rw [literalCount, hnegative, if_neg Bool.false_ne_true]
      change (if value ≤ limit then value.toInt else (limit.toNat : Int)) =
        max 0 (min (value.setWidth width).toInt limit.toNat) ↔ _
      rw [hvalue, BitVec.lt_def]
      simp only [hwide, true_implies]
      split_ifs with hle <;> rw [BitVec.le_def] at hle <;> omega
  · have hvacuous : 64 < width → value.msb = true → limit < value := by omega
    rw [iff_true_right hvacuous]
    rcases hbit : value.getLsbD (width - 1) with _ | _
    · have hlt := Literal.value_lt hpos hpattern hbit
      have hnat : (value.setWidth width).toNat = value.toNat := by
        rw [BitVec.toNat_setWidth, Nat.mod_eq_of_lt]
        exact lt_of_lt_of_le hlt (Nat.pow_le_pow_right (by decide) (by omega))
      refine literalCount_of_text ?_ ?_ ?_
      · simp [Literal.negative, hbit]
      · change value.toInt = value.toNat
        exact toInt_of_lt hlt (by omega)
      · change (value.setWidth width).toInt = _
        rw [toInt_of_lt (hnat.symm ▸ hlt) (by omega), hnat]
    · refine literalCount_of_negative ?_ ?_
      · simp [Literal.negative, hbit, hnarrow]
        omega
      · apply BitVec.toInt_neg_of_msb_true
        rw [BitVec.msb_eq_getLsbD_last, BitVec.getLsbD_setWidth, hbit]
        simp
        omega

theorem literalCount_iff {cc : Compiler} {l : Literal} (hwellFormed : l.WellFormed)
    (limit : BitVec 64) :
    literalCount cc l limit = max 0 (min l.toInt limit.toNat) ↔
      ∀ width, l.ty = .sint (some width) → 64 < width → l.value.msb = true →
        limit < l.value := by
  obtain ⟨value, ty⟩ := l
  by_cases hsint : ∃ width, ty = .sint (some width)
  · obtain ⟨width, rfl⟩ := hsint
    rw [literalCount_sint hwellFormed]
    simp
  · have hvacuous : ∀ width, ty = .sint (some width) → 64 < width → value.msb = true →
        limit < value := fun width h => absurd ⟨width, h⟩ hsint
    rw [iff_true_right hvacuous]
    by_cases hnone : ty = .sint none
    · subst hnone
      rcases hmsb : value.msb with _ | _
      · have htext : value.toInt = value.toNat := BitVec.toInt_eq_toNat_of_msb hmsb
        exact literalCount_of_text hmsb htext htext
      · exact literalCount_of_negative hmsb (BitVec.toInt_neg_of_msb_true hmsb)
    · have hdecimal := decimal_toInt cc value.isLt
      rcases ty with w | (_ | w) | _ | _ | _ | _ | _ | _ | _ | _ | _ | _
      · exact literalCount_of_text rfl rfl rfl
      · exact absurd rfl hnone
      · exact absurd ⟨w, rfl⟩ hsint
      all_goals exact literalCount_of_text rfl hdecimal rfl

def gnu : Compiler := ⟨.int128, Compiler.int128_holds⟩

/-- `a + b` for two `uint<32>` with the values `2 ^ 32 - 1` and `1`.  The sum is computed in
`uint64_t`, and its static width is that of its operands. -/
def sumOfWords : Count where
  operand := ⟨some 32, false, false, .ofU64 (2 ^ 32 - 1 + 1)⟩
  value := 2 ^ 32
  carried := trivial

/-- `a + b` for two `sint<100>` with the values `-1` and `1`.  Both are extended to 101 bits
and added in `_harc_u128`. -/
def signedSum : Count where
  operand := ⟨some 101, true, false, ⟨.uint128, (2 ^ 101 - 1 + 1 : BitVec 128)⟩⟩
  value := 0
  carried := trivial

/-- `-a` for a `uint<64>` with the value `2 ^ 63 + 1`. -/
def negated : Count where
  operand := ⟨some 64, false, true, .ofU64 (-(2 ^ 63 + 1))⟩
  value := -(2 ^ 63 + 1)
  carried := trivial

/-- `c ? -a : b` for two `uint<8>`, where `c` holds and `a` is `1`.  The minus is not at the
root, so that the static width and sign are those of `a`. -/
def chosenNegation : Count where
  operand := ⟨some 8, false, false, .ofU64 (-1)⟩
  value := -1
  carried := trivial

end Harc.BoundedCount
