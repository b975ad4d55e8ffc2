import Harc.BoundedCount
import Harc.DivisionTiers

/-!
Shifts in the runtime (`runtime/harc_thread_rt.h`).  A shift of the host is undefined if its
count is at least the width of the shifted type; a helper that makes such a shift has no value.
-/

namespace Harc.ShiftTiers

open Harc.WordLists
open Harc.WideRuntime
open Harc.WideBits
open Harc.DivisionTiers
open Harc.BoundedCount (u64ShiftCount u128ShiftCount u64ShiftCount_toNat u128ShiftCount_toNat
  min_limit_of_le)

/-! Shifts of the host. -/

def hostShl {n : Nat} (value : BitVec n) (count : Nat) : Option (BitVec n) :=
  if count < n then some (value <<< count) else none

def hostShr {n : Nat} (value : BitVec n) (count : Nat) : Option (BitVec n) :=
  if count < n then some (value >>> count) else none

/-- The shift of a signed type. -/
def hostSar {n : Nat} (value : BitVec n) (count : Nat) : Option (BitVec n) :=
  if count < n then some (value.sshiftRight count) else none

/-! Carriers of 64 bits. -/

def shlU64 (value shift : U64) : Option U64 :=
  if 64 ≤ shift.toNat then some 0#64 else hostShl value shift.toNat

def shrU64 (value shift : U64) : Option U64 :=
  if 64 ≤ shift.toNat then some 0#64 else hostShr value shift.toNat

def ashrI64 (value : I64) (shift : U64) : Option I64 :=
  if 64 ≤ shift.toNat then some (if value.toInt < 0 then -1#64 else 0#64)
  else hostSar value shift.toNat

def maskU64 (width : Nat) : Option U64 :=
  if 64 ≤ width then some (~~~0#64) else (hostShl 1#64 width).map (· - 1#64)

def sextI64 (value : U64) (width : Nat) : Option I64 :=
  if width = 0 then some 0#64
  else if 64 ≤ width then some value
  else (hostShl value (64 - width)).bind fun v => hostSar v (64 - width)

def shlUw (value shift : U64) (width : Nat) : Option U64 :=
  if width ≤ shift.toNat then some 0#64
  else do
    let shifted ← hostShl value shift.toNat
    let mask ← maskU64 width
    some (shifted &&& mask)

def shlIw (value : I64) (shift : U64) (width : Nat) : Option I64 :=
  if width ≤ shift.toNat then some 0#64
  else (hostShl value shift.toNat).bind fun v => sextI64 v width

def shrUw (value shift : U64) (width : Nat) : Option U64 :=
  if width ≤ shift.toNat then some 0#64
  else (maskU64 width).bind fun mask => hostShr (value &&& mask) shift.toNat

def ashrIw (value : I64) (shift : U64) (width : Nat) : Option I64 :=
  (sextI64 value width).bind fun v =>
    if width ≤ shift.toNat then some (if v.toInt < 0 then -1#64 else 0#64)
    else hostSar v shift.toNat

/-! Carriers of 128 bits. -/

/-- `harc_mask_u128`, with the shift that it makes -/
def hostMaskU128 (width : Nat) : Option U128 :=
  if 128 ≤ width then some (~~~0#128)
  else if width = 0 then some 0#128
  else (hostShl 1#128 width).map (· - 1#128)

def truncU128 (value : U128) (width : Nat) : Option U128 :=
  (hostMaskU128 width).map (value &&& ·)

def shlU128 (value : U128) (shift : U64) (width : Nat) : Option U128 :=
  if 128 ≤ shift.toNat then some 0#128
  else (hostShl value shift.toNat).bind fun v => truncU128 v width

def shrU128 (value : U128) (shift : U64) (width : Nat) : Option U128 :=
  if width ≤ shift.toNat ∨ 128 ≤ shift.toNat then some 0#128
  else (truncU128 value width).bind fun v => hostShr v shift.toNat

def ashrU128 (value : U128) (shift : U64) (width : Nat) : Option U128 := do
  let value ← truncU128 value width
  if width = 0 then some 0#128
  else
    let top ← hostShr value (width - 1)
    let negative := (top &&& 1#128) != 0#128
    let full ← hostMaskU128 width
    if width ≤ shift.toNat then some (if negative then full else 0#128)
    else
      let out ← hostShr value shift.toNat
      let keep ← hostMaskU128 (width - shift.toNat)
      truncU128 (if negative && shift.toNat != 0 then out ||| (full &&& ~~~keep) else out) width

/-! Wide carriers. -/

section Wide

variable {N : Nat}

/-- The loop that sets the bits from `first` on. -/
def setBits (first : Nat) : Nat → HarcWide N → HarcWide N
  | 0, v => v
  | count + 1, v => setBits (first + 1) count (wideSetBit v first)

def wideAshr (value : HarcWide N) (shift : U64) (width : Nat) : HarcWide N :=
  let value := wideMaskBits value width
  if width = 0 then HarcWide.zero N
  else
    let negative := wideGetBit value (width - 1)
    if width ≤ shift.toNat then
      if negative then setBits 0 width (HarcWide.zero N) else HarcWide.zero N
    else
      let out := value.shr (CInt.ofU64 shift)
      wideMaskBits (if negative then setBits (width - shift.toNat) shift.toNat out else out) width

/-- The text that is emitted for a left shift of a wide value. -/
def wideShl (value : HarcWide N) (shift : U64) (width : Nat) : HarcWide N :=
  wideMaskBits (value.shl (CInt.ofU64 shift)) width

/-- The text that is emitted for a logical right shift of a wide value. -/
def wideShr (value : HarcWide N) (shift : U64) (width : Nat) : HarcWide N :=
  wideMaskBits (value.shr (CInt.ofU64 shift)) width

def wideShiftCount (value : HarcWide N) (limit : U64) : U64 :=
  if (value.words.drop 2).any (· != 0#32) then limit
  else
    let low : U64 := (value.words[0]?.getD 0#32).setWidth 64
    u64ShiftCount
      (if 1 < N then low ||| ((value.words[1]?.getD 0#32).setWidth 64 <<< 32) else low) limit

end Wide

/-! Counts. -/

/-- A shift count: an unsigned 64-bit value as it is, or clamped in the carrier of its width. -/
inductive Count where
  | raw (value : U64)
  | u64 (value : U64)
  | u128 (value : U128)
  | wide {N : Nat} (value : HarcWide N) (hN : 0 < N)

def Count.toNat : Count → Nat
  | .raw value => value.toNat
  | .u64 value => value.toNat
  | .u128 value => value.toNat
  | .wide value _ => value.toNat

/-- The count as the helpers take it. -/
def Count.clamp (limit : U64) : Count → U64
  | .raw value => value
  | .u64 value => u64ShiftCount value limit
  | .u128 value => u128ShiftCount value limit
  | .wide value _ => wideShiftCount value limit

/-- Two words, joined in a word of 64 bits. -/
theorem toNat_lowPair (w0 w1 : U32) :
    (w0.setWidth 64 ||| w1.setWidth 64 <<< 32 : U64).toNat = w0.toNat + 2 ^ 32 * w1.toNat := by
  have hw0 := w0.isLt
  have hw1 := w1.isLt
  rw [BitVec.or_comm, toNat_shiftLeft_or (by omega), toNat_setWidth_of_le (by omega),
    toNat_setWidth_of_le (by omega), Nat.mod_eq_of_lt hw1, Nat.add_comm]
  rwa [toNat_setWidth_of_le (by omega)]

theorem toNat_wideShiftCount {N : Nat} (hN : 0 < N) (value : HarcWide N) (limit : U64) :
    (wideShiftCount value limit).toNat = min value.toNat limit.toNat := by
  obtain ⟨words, rfl⟩ := value
  rcases words with _ | ⟨w0, _ | ⟨w1, more⟩⟩
  · simp at hN
  · have hlow : (w0.setWidth 64).toNat = w0.toNat := toNat_setWidth_of_le (by omega) w0
    simp [wideShiftCount, u64ShiftCount_toNat, HarcWide.toNat, hlow]
  · have hw0 := w0.isLt
    have hw1 := w1.isLt
    have hvalue : HarcWide.toNat ⟨w0 :: w1 :: more, rfl⟩ =
        w0.toNat + 2 ^ 32 * (w1.toNat + 2 ^ 32 * WordLists.value more) := by
      rw [HarcWide.toNat, value_cons, value_cons]
    rw [wideShiftCount, hvalue]
    simp only [List.drop_succ_cons, List.drop_zero]
    split_ifs with hany hone
    · refine min_limit_of_le ?_ limit
      have hpos : WordLists.value more ≠ 0 := by
        rw [Ne, value_eq_zero]
        intro hzero
        obtain ⟨x, hx, hne⟩ := List.any_eq_true.mp hany
        rw [hzero x hx] at hne
        simp at hne
      have := Nat.pos_of_ne_zero hpos
      omega
    · have hzero : WordLists.value more = 0 := by
        rw [value_eq_zero]
        intro x hx
        by_contra hne
        exact hany (List.any_eq_true.mpr ⟨x, hx, by simpa using hne⟩)
      rw [u64ShiftCount_toNat, hzero]
      simp only [List.getElem?_cons_zero, List.getElem?_cons_succ, Option.getD_some, Nat.mul_zero,
        Nat.add_zero]
      rw [toNat_lowPair]
    · simp at hone

/-- The three kinds of shifts, on the patterns of a width. -/
inductive ShiftOp where
  | left
  | right
  | arithmeticRight
deriving DecidableEq

def ShiftOp.apply {width : Nat} : ShiftOp → BitVec width → Nat → BitVec width
  | .left, x, count => x <<< count
  | .right, x, count => x >>> count
  | .arithmeticRight, x, count => x.sshiftRight count

theorem sshiftRight_of_le {width : Nat} {x : BitVec width} {count : Nat} (h : width ≤ count) :
    x.sshiftRight count = if x.msb then BitVec.allOnes width else BitVec.ofNat width 0 := by
  refine BitVec.eq_of_getLsbD_eq fun i hi => ?_
  rw [BitVec.getLsbD_sshiftRight, if_neg (by omega), decide_eq_false (by omega)]
  cases x.msb <;> simp [hi]

/-- Beyond the width all counts are the same. -/
theorem ShiftOp.apply_of_le {width : Nat} (op : ShiftOp) (x : BitVec width) {m n : Nat}
    (hm : width ≤ m) (hn : width ≤ n) : op.apply x m = op.apply x n := by
  cases op with
  | left =>
      change x <<< m = x <<< n
      rw [BitVec.shiftLeft_eq_zero hm, BitVec.shiftLeft_eq_zero hn]
  | right =>
      change x >>> m = x >>> n
      rw [BitVec.ushiftRight_eq_zero hm, BitVec.ushiftRight_eq_zero hn]
  | arithmeticRight =>
      change x.sshiftRight m = x.sshiftRight n
      rw [sshiftRight_of_le hm, sshiftRight_of_le hn]

theorem ShiftOp.apply_clamp {width : Nat} (op : ShiftOp) (x : BitVec width) (count : Count)
    {limit : U64} (h : width ≤ limit.toNat) :
    op.apply x (count.clamp limit).toNat = op.apply x count.toNat := by
  have hmin : (count.clamp limit).toNat = count.toNat ∨
      (count.clamp limit).toNat = min count.toNat limit.toNat := by
    cases count with
    | raw value => exact Or.inl rfl
    | u64 value => exact Or.inr (u64ShiftCount_toNat value limit)
    | u128 value => exact Or.inr (u128ShiftCount_toNat value limit)
    | wide value hN => exact Or.inr (toNat_wideShiftCount hN value limit)
  rcases hmin with heq | hmin
  · rw [heq]
  · rcases Nat.le_total count.toNat limit.toNat with hle | hle
    · rw [hmin, Nat.min_eq_left hle]
    · rw [hmin, Nat.min_eq_right hle]
      exact op.apply_of_le x h (by omega)

/-! The helpers on machine words.  The result is the shifted pattern, extended to the carrier. -/

section Words

variable {n width : Nat}

theorem hostShl_of_lt {value : BitVec n} {count : Nat} (h : count < n) :
    hostShl value count = some (value <<< count) :=
  if_pos h

theorem hostShr_of_lt {value : BitVec n} {count : Nat} (h : count < n) :
    hostShr value count = some (value >>> count) :=
  if_pos h

theorem hostSar_of_lt {value : BitVec n} {count : Nat} (h : count < n) :
    hostSar value count = some (value.sshiftRight count) :=
  if_pos h

/-- The word with the low `width` bits set. -/
def lowMask (n width : Nat) : BitVec n :=
  (BitVec.allOnes width).setWidth n

theorem getLsbD_lowMask (i : Nat) :
    (lowMask n width).getLsbD i = (decide (i < n) && decide (i < width)) := by
  rw [lowMask, BitVec.getLsbD_setWidth, BitVec.getLsbD_allOnes]

theorem and_lowMask (value : BitVec n) :
    value &&& lowMask n width = (value.setWidth width).setWidth n := by
  refine BitVec.eq_of_getLsbD_eq fun i hi => ?_
  rw [BitVec.getLsbD_and, getLsbD_lowMask, BitVec.getLsbD_setWidth, BitVec.getLsbD_setWidth,
    decide_eq_true hi, Bool.true_and, Bool.true_and, Bool.and_comm]

theorem one_shiftLeft_sub_one (h : width < n) : (1#n <<< width) - 1#n = lowMask n width := by
  have hpow : 2 ^ width < 2 ^ n := Nat.pow_lt_pow_right (by omega) h
  have hpos := Nat.two_pow_pos width
  have hone : (1#n).toNat = 1 := by
    rw [BitVec.toNat_ofNat]
    exact Nat.mod_eq_of_lt (by omega)
  rw [← BitVec.toNat_inj, lowMask, toNat_setWidth_of_le (by omega), BitVec.toNat_allOnes,
    BitVec.toNat_sub, BitVec.toNat_shiftLeft, Nat.shiftLeft_eq, hone, Nat.one_mul,
    Nat.mod_eq_of_lt hpow]
  rw [show 2 ^ n - 1 + 2 ^ width = 2 ^ width - 1 + 2 ^ n by omega, Nat.add_mod_right]
  exact Nat.mod_eq_of_lt (by omega)

theorem not_zero_eq_lowMask (h : n ≤ width) : ~~~0#n = lowMask n width := by
  refine BitVec.eq_of_getLsbD_eq fun i hi => ?_
  rw [getLsbD_lowMask, decide_eq_true hi, decide_eq_true (by omega)]
  simp [hi]

theorem maskU64_eq (width : Nat) : maskU64 width = some (lowMask 64 width) := by
  rw [maskU64]
  split_ifs with h
  · rw [not_zero_eq_lowMask h]
  · rw [hostShl_of_lt (by omega), Option.map_some, one_shiftLeft_sub_one (by omega)]

theorem hostMaskU128_eq (width : Nat) : hostMaskU128 width = some (lowMask 128 width) := by
  rw [hostMaskU128]
  split_ifs with hfull hzero
  · rw [not_zero_eq_lowMask hfull]
  · subst hzero
    rfl
  · rw [hostShl_of_lt (by omega), Option.map_some, one_shiftLeft_sub_one (by omega)]

theorem truncU128_eq (value : U128) (width : Nat) :
    truncU128 value width = some ((value.setWidth width).setWidth 128) := by
  rw [truncU128, hostMaskU128_eq, Option.map_some, and_lowMask]

theorem sextI64_eq (h : width ≤ 64) (value : U64) :
    sextI64 value width = some ((value.setWidth width).signExtend 64) := by
  rw [sextI64]
  split_ifs with hzero hfull
  · subst hzero
    rw [BitVec.of_length_zero (x := value.setWidth 0)]
    rfl
  · obtain rfl : width = 64 := by omega
    rw [BitVec.setWidth_eq, BitVec.signExtend_eq]
  · rw [hostShl_of_lt (by omega), Option.bind_some, hostSar_of_lt (by omega), Option.some.injEq]
    refine BitVec.eq_of_getLsbD_eq fun i hi => ?_
    have hmsb : (value <<< (64 - width)).msb = (value.setWidth width).msb := by
      rw [BitVec.msb_eq_getLsbD_last, BitVec.msb_eq_getLsbD_last, BitVec.getLsbD_shiftLeft,
        BitVec.getLsbD_setWidth, decide_eq_true (by omega), decide_eq_false (by omega),
        decide_eq_true (by omega), show 64 - 1 - (64 - width) = width - 1 by omega]
      rfl
    rw [BitVec.getLsbD_sshiftRight, BitVec.getLsbD_signExtend, hmsb, BitVec.getLsbD_setWidth,
      BitVec.getLsbD_shiftLeft]
    rcases Nat.lt_or_ge i width with hlow | hhigh
    · rw [if_pos (by omega), if_pos hlow, Nat.add_sub_cancel_left]
      simp [hi, hlow, show 64 - width + i < 64 by omega]
    · rw [if_neg (by omega), if_neg (by omega)]
      simp [hi]

/-- Extension and arithmetic shift commute. -/
theorem sshiftRight_signExtend (h : width ≤ n) (x : BitVec width)
    (count : Nat) :
    (x.signExtend n).sshiftRight count = (x.sshiftRight count).signExtend n := by
  rw [← BitVec.toInt_inj, BitVec.toInt_sshiftRight, BitVec.toInt_signExtend_of_le h,
    BitVec.toInt_signExtend_of_le h, BitVec.toInt_sshiftRight]

theorem signExtend_zero : (BitVec.ofNat width 0).signExtend n = 0#n := by
  rw [BitVec.signExtend_eq_setWidth_of_msb_false BitVec.msb_zero, BitVec.setWidth_zero]

theorem signExtend_allOnes (hpos : 0 < width) :
    (BitVec.allOnes width).signExtend n = BitVec.allOnes n := by
  have hmsb : (BitVec.allOnes width).msb = true := by
    rw [BitVec.msb_allOnes hpos]
  refine BitVec.eq_of_getLsbD_eq fun i hi => ?_
  rw [BitVec.getLsbD_signExtend, hmsb, BitVec.getLsbD_allOnes, BitVec.getLsbD_allOnes]
  split_ifs with hlow <;> simp [hi, hlow]

/-- The sign of a value, in all bits. -/
theorem sign_fill (value : BitVec 64) :
    (if value.toInt < 0 then -1#64 else 0#64) =
      if value.msb then BitVec.allOnes 64 else 0#64 := by
  rw [BitVec.msb_eq_toInt, BitVec.neg_one_eq_allOnes]
  simp only [decide_eq_true_eq]

theorem shlU64_eq (value shift : U64) : shlU64 value shift = some (value <<< shift.toNat) := by
  rw [shlU64]
  split_ifs with h
  · rw [BitVec.shiftLeft_eq_zero h]
  · exact hostShl_of_lt (by omega)

theorem shrU64_eq (value shift : U64) : shrU64 value shift = some (value >>> shift.toNat) := by
  rw [shrU64]
  split_ifs with h
  · rw [BitVec.ushiftRight_eq_zero h]
  · exact hostShr_of_lt (by omega)

theorem ashrI64_eq (value : I64) (shift : U64) :
    ashrI64 value shift = some (value.sshiftRight shift.toNat) := by
  rw [ashrI64]
  split_ifs with h hneg
  · rw [sshiftRight_of_le h, ← sign_fill, if_pos hneg]
  · rw [sshiftRight_of_le h, ← sign_fill, if_neg hneg]
  · exact hostSar_of_lt (by omega)

section Narrow

variable (h : width ≤ 64) (value shift : U64)

include h

theorem shlUw_eq : shlUw value shift width =
    some ((value.setWidth width <<< shift.toNat).setWidth 64) := by
  rw [shlUw]
  split_ifs with hout
  · rw [BitVec.shiftLeft_eq_zero hout, BitVec.setWidth_zero]
  · rw [hostShl_of_lt (by omega), maskU64_eq]
    change some (value <<< shift.toNat &&& lowMask 64 width) = _
    rw [and_lowMask, BitVec.setWidth_shiftLeft_of_le h]

theorem shlIw_eq : shlIw value shift width =
    some ((value.setWidth width <<< shift.toNat).signExtend 64) := by
  rw [shlIw]
  split_ifs with hout
  · rw [BitVec.shiftLeft_eq_zero hout, signExtend_zero]
  · rw [hostShl_of_lt (by omega), Option.bind_some, sextI64_eq h,
      BitVec.setWidth_shiftLeft_of_le h]

theorem shrUw_eq : shrUw value shift width =
    some ((value.setWidth width >>> shift.toNat).setWidth 64) := by
  rw [shrUw]
  split_ifs with hout
  · rw [BitVec.ushiftRight_eq_zero hout, BitVec.setWidth_zero]
  · rw [maskU64_eq, Option.bind_some, hostShr_of_lt (by omega), and_lowMask,
      BitVec.setWidth_ushiftRight h]

theorem ashrIw_eq : ashrIw value shift width =
    some (((value.setWidth width).sshiftRight shift.toNat).signExtend 64) := by
  rw [ashrIw, sextI64_eq h, Option.bind_some]
  split_ifs with hout hneg
  · rw [BitVec.toInt_signExtend_of_le h] at hneg
    have hmsb : (value.setWidth width).msb = true := by
      rw [BitVec.msb_eq_toInt, decide_eq_true hneg]
    have hpos : 0 < width := by
      rcases Nat.eq_zero_or_pos width with rfl | hpos
      · rw [BitVec.of_length_zero (x := value.setWidth 0)] at hmsb
        cases hmsb
      · exact hpos
    rw [sshiftRight_of_le hout, if_pos hmsb, BitVec.neg_one_eq_allOnes, signExtend_allOnes hpos]
  · rw [BitVec.toInt_signExtend_of_le h] at hneg
    have hmsb : (value.setWidth width).msb = false := by
      rw [BitVec.msb_eq_toInt, decide_eq_false hneg]
    rw [sshiftRight_of_le hout, if_neg (by simp [hmsb]), signExtend_zero]
  · rw [hostSar_of_lt (by omega), sshiftRight_signExtend h]

end Narrow

section Middle

variable (h : width ≤ 128) (value : U128) (shift : U64)

include h

theorem shlU128_eq : shlU128 value shift width =
    some ((value.setWidth width <<< shift.toNat).setWidth 128) := by
  rw [shlU128]
  split_ifs with hout
  · rw [BitVec.shiftLeft_eq_zero (by omega), BitVec.setWidth_zero]
  · rw [hostShl_of_lt (by omega), Option.bind_some, truncU128_eq,
      BitVec.setWidth_shiftLeft_of_le h]

theorem shrU128_eq : shrU128 value shift width =
    some ((value.setWidth width >>> shift.toNat).setWidth 128) := by
  rw [shrU128]
  split_ifs with hout
  · rw [BitVec.ushiftRight_eq_zero (by omega), BitVec.setWidth_zero]
  · rw [truncU128_eq, Option.bind_some, hostShr_of_lt (by omega),
      BitVec.setWidth_ushiftRight h]

theorem ashrU128_eq : ashrU128 value shift width =
    some (((value.setWidth width).sshiftRight shift.toNat).setWidth 128) := by
  obtain ⟨x, hx⟩ : ∃ x, x = value.setWidth width := ⟨_, rfl⟩
  rw [ashrU128, truncU128_eq, ← hx]
  simp only [Option.bind_eq_bind, Option.bind_some]
  rcases Nat.eq_zero_or_pos width with rfl | hpos
  · rw [if_pos rfl, BitVec.of_length_zero (x := x.sshiftRight _)]
    rfl
  have hsign : (((x.setWidth 128) >>> (width - 1) &&& 1#128) != 0#128) = x.msb :=
    SignedDivision.Tier.signBit_eq (u128_lawful hpos h) (toNat_setWidth_of_le h x)
  rw [if_neg (by omega), hostShr_of_lt (by omega), hostMaskU128_eq]
  simp only [Option.bind_some, hsign]
  rcases Nat.lt_or_ge shift.toNat width with hlt | hout
  · rw [if_neg (by omega), hostShr_of_lt (by omega), hostMaskU128_eq]
    simp only [Option.bind_some, truncU128_eq]
    congr 2
    refine BitVec.eq_of_getLsbD_eq fun i hi => ?_
    have hshift : ((x.setWidth 128) >>> shift.toNat).getLsbD i = x.getLsbD (shift.toNat + i) := by
      rw [BitVec.getLsbD_ushiftRight, BitVec.getLsbD_setWidth]
      rcases Nat.lt_or_ge (shift.toNat + i) 128 with hlow | hhigh
      · rw [decide_eq_true hlow, Bool.true_and]
      · rw [BitVec.getLsbD_of_ge x _ (by omega), Bool.and_false]
    have hfill : (lowMask 128 width &&& ~~~lowMask 128 (width - shift.toNat)).getLsbD i =
        decide (width ≤ shift.toNat + i) := by
      rw [BitVec.getLsbD_and, BitVec.getLsbD_not, getLsbD_lowMask, getLsbD_lowMask]
      rcases Nat.lt_or_ge (shift.toNat + i) width with hlow | hhigh
      · simp [show i < width - shift.toNat by omega, show i < 128 by omega, hlow]
      · simp [show ¬ i < width - shift.toNat by omega, show i < 128 by omega, hi, hhigh]
    have hright : (x.sshiftRight shift.toNat).getLsbD i =
        if shift.toNat + i < width then x.getLsbD (shift.toNat + i) else x.msb := by
      rw [BitVec.getLsbD_sshiftRight, decide_eq_false (by omega)]
      rfl
    rw [BitVec.getLsbD_setWidth, decide_eq_true hi, Bool.true_and, hright]
    rcases Nat.lt_or_ge (shift.toNat + i) width with hlow | hhigh
    · rw [if_pos (c := shift.toNat + i < width) hlow, apply_ite (BitVec.getLsbD · i),
        BitVec.getLsbD_or, hshift, hfill, decide_eq_false (by omega), Bool.or_false, ite_self]
    · have hhole : x.getLsbD (shift.toNat + i) = false := BitVec.getLsbD_of_ge x _ hhigh
      have hne : (shift.toNat != 0) = true := bne_iff_ne.mpr (by omega)
      rw [if_neg (c := shift.toNat + i < width) (by omega), apply_ite (BitVec.getLsbD · i),
        BitVec.getLsbD_or, hshift, hfill, decide_eq_true hhigh, hhole, hne]
      simp
  · rw [if_pos hout, sshiftRight_of_le hout]
    cases x.msb with
    | true => rfl
    | false => rw [if_neg (by simp), if_neg (by simp), BitVec.setWidth_zero]

end Middle

end Words

/-! The helpers on wide carriers. -/

section WideHelpers

variable {N width : Nat} (hN : 32 * N < 2 ^ 32)

theorem toInt_ofU64 (shift : U64) : (CInt.ofU64 shift).toInt = shift.toNat :=
  rfl

include hN

theorem testBit_setBits (count first : Nat) (v : HarcWide N) (i : Nat) :
    (setBits first count v).toNat.testBit i =
      if first ≤ i ∧ i < first + count ∧ i < 32 * N then true else v.toNat.testBit i := by
  induction count generalizing first v with
  | zero => rw [setBits, if_neg (by omega)]
  | succ count ih =>
      rw [setBits, ih, testBit_wideSetBit hN]
      split_ifs <;> first | rfl | omega

variable (hwidth : width ≤ 32 * N)

include hwidth

theorem toNat_wideShl (v : HarcWide N) (shift : U64) :
    (wideShl v shift width).toNat = (BitVec.ofNat width v.toNat <<< shift.toNat).toNat := by
  rw [wideShl, toNat_wideMaskBits hN, HarcWide.toNat_shl (by omega), toInt_ofU64,
    BitVec.toNat_shiftLeft, BitVec.toNat_ofNat, Nat.shiftLeft_eq, Nat.mod_mul_mod, Int.toNat_natCast]
  split_ifs with hout
  · have hle : width ≤ shift.toNat := by omega
    have hdvd : 2 ^ width ∣ v.toNat * 2 ^ shift.toNat :=
      Dvd.dvd.mul_left (Nat.pow_dvd_pow 2 hle) _
    rw [Nat.zero_mod, Nat.mod_eq_zero_of_dvd hdvd]
  · exact Nat.mod_mod_of_dvd _ (Nat.pow_dvd_pow 2 hwidth)

/-- The logical shift reads the bits of the carrier: the value has to be one of the width. -/
theorem toNat_wideShr (v : HarcWide N) (hv : v.toNat < 2 ^ width) (shift : U64) :
    (wideShr v shift width).toNat = (BitVec.ofNat width v.toNat >>> shift.toNat).toNat := by
  rw [wideShr, toNat_wideMaskBits hN, HarcWide.toNat_shr (by omega), toInt_ofU64,
    BitVec.toNat_ushiftRight, BitVec.toNat_ofNat, Nat.mod_eq_of_lt hv, Nat.shiftRight_eq_div_pow,
    Int.toNat_natCast]
  have hsmall : v.toNat / 2 ^ shift.toNat < 2 ^ width :=
    Nat.lt_of_le_of_lt (Nat.div_le_self _ _) hv
  split_ifs with hout
  · have hpow : 2 ^ width ≤ 2 ^ shift.toNat := Nat.pow_le_pow_right (by omega) (by omega)
    rw [Nat.zero_mod, Nat.div_eq_of_lt (by omega)]
  · exact Nat.mod_eq_of_lt hsmall

theorem toNat_wideAshr (v : HarcWide N) (shift : U64) :
    (wideAshr v shift width).toNat =
      ((BitVec.ofNat width v.toNat).sshiftRight shift.toNat).toNat := by
  obtain ⟨x, hx⟩ : ∃ x, x = BitVec.ofNat width v.toNat := ⟨_, rfl⟩
  have hmask : (wideMaskBits v width).toNat = x.toNat := by
    rw [toNat_wideMaskBits hN, hx, BitVec.toNat_ofNat]
  rw [wideAshr, ← hx]
  rcases Nat.eq_zero_or_pos width with rfl | hpos
  · rw [if_pos rfl, BitVec.of_length_zero (x := x.sshiftRight _), HarcWide.toNat_zero]
    rfl
  have hsign : wideGetBit (wideMaskBits v width) (width - 1) = x.msb := by
    rw [wideGetBit_eq hN, hmask, BitVec.msb_eq_getLsbD_last]
    rfl
  simp only [hsign]
  rw [if_neg (by omega)]
  refine Nat.eq_of_testBit_eq fun i => ?_
  change _ = (x.sshiftRight shift.toNat).getLsbD i
  rcases Nat.lt_or_ge shift.toNat width with hlt | hout
  · have hshift : ((wideMaskBits v width).shr (CInt.ofU64 shift)).toNat.testBit i =
        x.getLsbD (shift.toNat + i) := by
      rw [HarcWide.toNat_shr (by omega), toInt_ofU64, if_neg (by omega), hmask,
        Int.toNat_natCast, Nat.testBit_div_two_pow, Nat.add_comm]
      rfl
    rw [if_neg (by omega), testBit_wideMaskBits hN, BitVec.getLsbD_sshiftRight]
    rcases Nat.lt_or_ge i width with hi | hi
    · rw [decide_eq_true hi, decide_eq_false (p := width ≤ i) (by omega), Bool.true_and,
        Bool.not_false, Bool.true_and, apply_ite HarcWide.toNat, apply_ite (Nat.testBit · i),
        testBit_setBits hN, hshift]
      rcases Nat.lt_or_ge (shift.toNat + i) width with hlow | hhigh
      · rw [if_neg (c := width - shift.toNat ≤ i ∧ _) (by omega), if_pos hlow, ite_self]
      · rw [if_pos (c := width - shift.toNat ≤ i ∧ _) (by omega),
          if_neg (c := shift.toNat + i < width) (by omega), BitVec.getLsbD_of_ge x _ hhigh]
        cases x.msb <;> rfl
    · rw [decide_eq_false (p := i < width) (by omega), decide_eq_true hi]
      rfl
  · rw [if_pos hout, sshiftRight_of_le hout]
    cases x.msb with
    | true =>
        rw [if_pos rfl, if_pos rfl, testBit_setBits hN, BitVec.getLsbD_allOnes,
          HarcWide.toNat_zero, Nat.zero_testBit]
        split_ifs with hlow
        · rw [decide_eq_true (by omega)]
        · rw [decide_eq_false (by omega)]
    | false =>
        rw [if_neg (by simp), if_neg (by simp), HarcWide.toNat_zero, Nat.zero_testBit,
          BitVec.getLsbD_zero]

end WideHelpers

/-! All helpers. -/

/-- The shift helpers; those on wide carriers are the texts that are emitted for the shift. -/
inductive Helper where
  | shlU64
  | shrU64
  | ashrI64
  | shlUw
  | shlIw
  | shrUw
  | ashrIw
  | shlU128
  | shrU128
  | ashrU128
  | wideShl (N : Nat)
  | wideShr (N : Nat)
  | wideAshr (N : Nat)
deriving DecidableEq

namespace Helper

def op : Helper → ShiftOp
  | shlU64 | shlUw | shlIw | shlU128 | wideShl _ => .left
  | shrU64 | shrUw | shrU128 | wideShr _ => .right
  | ashrI64 | ashrIw | ashrU128 | wideAshr _ => .arithmeticRight

def Carrier : Helper → Type
  | shlU64 | shrU64 | ashrI64 | shlUw | shlIw | shrUw | ashrIw => U64
  | shlU128 | shrU128 | ashrU128 => U128
  | wideShl N | wideShr N | wideAshr N => HarcWide N

/-- The bits that a carrier stores. -/
def bits : (h : Helper) → h.Carrier → Nat
  | shlU64, v | shrU64, v | ashrI64, v | shlUw, v | shlIw, v | shrUw, v | ashrIw, v =>
      BitVec.toNat (w := 64) v
  | shlU128, v | shrU128, v | ashrU128, v => BitVec.toNat (w := 128) v
  | wideShl N, v | wideShr N, v | wideAshr N, v => HarcWide.toNat (N := N) v

/-- The helper, called at a width. -/
def run (width : Nat) (shift : U64) : (h : Helper) → h.Carrier → Option h.Carrier
  | shlU64, v => ShiftTiers.shlU64 v shift
  | shrU64, v => ShiftTiers.shrU64 v shift
  | ashrI64, v => ShiftTiers.ashrI64 v shift
  | shlUw, v => ShiftTiers.shlUw v shift width
  | shlIw, v => ShiftTiers.shlIw v shift width
  | shrUw, v => ShiftTiers.shrUw v shift width
  | ashrIw, v => ShiftTiers.ashrIw v shift width
  | shlU128, v => ShiftTiers.shlU128 v shift width
  | shrU128, v => ShiftTiers.shrU128 v shift width
  | ashrU128, v => ShiftTiers.ashrU128 v shift width
  | wideShl _, v => some (ShiftTiers.wideShl v shift width)
  | wideShr _, v => some (ShiftTiers.wideShr v shift width)
  | wideAshr _, v => some (ShiftTiers.wideAshr v shift width)

/-- The widths that a helper serves.  A wide carrier has fewer than `2 ^ 32` bits; the language
uses at most 32 words. -/
def AppliesAt (width : Nat) : Helper → Prop
  | shlU64 | shrU64 | ashrI64 => width = 64
  | shlUw | shlIw | shrUw | ashrIw => width ≤ 64
  | shlU128 | shrU128 | ashrU128 => width ≤ 128
  | wideShl N | wideShr N | wideAshr N => width ≤ 32 * N ∧ 32 * N < 2 ^ 32

/-- The values that stand for a pattern of the width.  Only the logical right shift of a wide
value does not reduce its operand first. -/
def Accepts (width : Nat) : (h : Helper) → h.Carrier → Prop
  | wideShr N, v => HarcWide.toNat (N := N) v < 2 ^ width
  | _, _ => True

/-- The stored bits of a pattern: those of a signed value in 64 bits are sign-extended. -/
def stored {width : Nat} (x : BitVec width) : Helper → Nat
  | ashrI64 | shlIw | ashrIw => (x.signExtend 64).toNat
  | _ => x.toNat

def pattern (width : Nat) (h : Helper) (v : h.Carrier) : BitVec width :=
  BitVec.ofNat width (h.bits v)

/-- A stored pattern is read back. -/
theorem ofNat_stored (h : Helper) (happ : h.AppliesAt width) (x : BitVec width) :
    BitVec.ofNat width (h.stored x) = x := by
  have hsign : width ≤ 64 → BitVec.ofNat width (x.signExtend 64).toNat = x := by
    intro hle
    refine BitVec.eq_of_getLsbD_eq fun i hi => ?_
    rw [BitVec.ofNat_toNat, BitVec.getLsbD_setWidth, BitVec.getLsbD_signExtend, if_pos hi,
      decide_eq_true hi, decide_eq_true (by omega), Bool.true_and, Bool.true_and]
  have hzero : BitVec.ofNat width x.toNat = x := by
    rw [BitVec.ofNat_toNat, BitVec.setWidth_eq]
  cases h with
  | ashrI64 => exact hsign (Nat.le_of_eq happ)
  | shlIw => exact hsign happ
  | ashrIw => exact hsign happ
  | _ => exact hzero

section Stored

variable {n : Nat} (op : ShiftOp) (v : BitVec n) (shift : Nat)

theorem toNat_apply_setWidth (h : width ≤ n) :
    ((op.apply (v.setWidth width) shift).setWidth n).toNat =
      (op.apply (BitVec.ofNat width v.toNat) shift).toNat := by
  rw [toNat_setWidth_of_le h, BitVec.ofNat_toNat]

theorem toNat_apply_signExtend (width : Nat) :
    ((op.apply (v.setWidth width) shift).signExtend n).toNat =
      ((op.apply (BitVec.ofNat width v.toNat) shift).signExtend n).toNat := by
  rw [BitVec.ofNat_toNat]

theorem toNat_apply_self :
    (op.apply v shift).toNat = (op.apply (BitVec.ofNat n v.toNat) shift).toNat := by
  rw [BitVec.ofNat_toNat, BitVec.setWidth_eq]

end Stored

/-- Every helper shifts the pattern of its operand. -/
theorem run_spec (h : Helper) (happ : h.AppliesAt width) {v : h.Carrier}
    (hv : h.Accepts width v) (shift : U64) :
    ∃ r, h.run width shift v = some r ∧
      h.bits r = h.stored (h.op.apply (h.pattern width v) shift.toNat) := by
  cases h with
  | shlU64 =>
      obtain rfl : width = 64 := happ
      exact ⟨_, shlU64_eq v shift, toNat_apply_self .left v _⟩
  | shrU64 =>
      obtain rfl : width = 64 := happ
      exact ⟨_, shrU64_eq v shift, toNat_apply_self .right v _⟩
  | ashrI64 =>
      obtain rfl : width = 64 := happ
      refine ⟨_, ashrI64_eq v shift, (toNat_apply_self .arithmeticRight v _).trans ?_⟩
      rw [stored, BitVec.signExtend_eq]
      rfl
  | shlUw => exact ⟨_, shlUw_eq happ v shift, toNat_apply_setWidth .left v _ happ⟩
  | shlIw => exact ⟨_, shlIw_eq happ v shift, toNat_apply_signExtend .left v _ width⟩
  | shrUw => exact ⟨_, shrUw_eq happ v shift, toNat_apply_setWidth .right v _ happ⟩
  | ashrIw =>
      exact ⟨_, ashrIw_eq happ v shift, toNat_apply_signExtend .arithmeticRight v _ width⟩
  | shlU128 => exact ⟨_, shlU128_eq happ v shift, toNat_apply_setWidth .left v _ happ⟩
  | shrU128 => exact ⟨_, shrU128_eq happ v shift, toNat_apply_setWidth .right v _ happ⟩
  | ashrU128 =>
      exact ⟨_, ashrU128_eq happ v shift, toNat_apply_setWidth .arithmeticRight v _ happ⟩
  | wideShl N => exact ⟨_, rfl, toNat_wideShl happ.2 happ.1 v shift⟩
  | wideShr N => exact ⟨_, rfl, toNat_wideShr happ.2 happ.1 v hv shift⟩
  | wideAshr N => exact ⟨_, rfl, toNat_wideAshr happ.2 happ.1 v shift⟩

end Helper

open Helper in
/-- For every width, value and count each helper that serves the width returns (no host shift is
undefined) the shifted value of the width, reduced to the width and stored in its carrier; the
count may be clamped in any carrier.  Helpers of two tiers for one operation agree. -/
theorem shifts_exact (width : Nat) (count : Count) (limit : U64) (hlimit : width ≤ limit.toNat) :
    (∀ (h : Helper) (v : h.Carrier), h.AppliesAt width → h.Accepts width v →
      ∃ r, h.run width (count.clamp limit) v = some r ∧
        h.pattern width r = h.op.apply (h.pattern width v) count.toNat ∧
        h.bits r = h.stored (h.pattern width r)) ∧
    (∀ (h h' : Helper) (v : h.Carrier) (v' : h'.Carrier), h.op = h'.op →
      h.AppliesAt width → h'.AppliesAt width → h.Accepts width v → h'.Accepts width v' →
      h.pattern width v = h'.pattern width v' →
      (h.run width (count.clamp limit) v).map (h.pattern width) =
        (h'.run width (count.clamp limit) v').map (h'.pattern width)) := by
  have hone : ∀ (h : Helper) (v : h.Carrier), h.AppliesAt width → h.Accepts width v →
      ∃ r, h.run width (count.clamp limit) v = some r ∧
        h.pattern width r = h.op.apply (h.pattern width v) count.toNat ∧
        h.bits r = h.stored (h.pattern width r) := by
    intro h v happ hv
    obtain ⟨r, hrun, hbits⟩ := run_spec h happ hv (count.clamp limit)
    rw [ShiftOp.apply_clamp _ _ _ hlimit] at hbits
    have hpattern : h.pattern width r = h.op.apply (h.pattern width v) count.toNat := by
      rw [pattern, hbits, ofNat_stored h happ]
    exact ⟨r, hrun, hpattern, by rw [hpattern, hbits]⟩
  refine ⟨hone, ?_⟩
  intro h h' v v' hop happ happ' hv hv' heq
  obtain ⟨r, hrun, hr, -⟩ := hone h v happ hv
  obtain ⟨r', hrun', hr', -⟩ := hone h' v' happ' hv'
  rw [hrun, hrun', Option.map_some, Option.map_some, hr, hr', hop, heq]

/-- An arithmetic right shift of `-8` in five bits by `2 ^ 64`, in two tiers. -/
theorem shifts_exact_minusEight :
    (∃ r, Helper.run 5 ((Count.u128 18446744073709551616#128).clamp 5) .ashrIw (24#64) = some r ∧
      Helper.pattern 5 .ashrIw r = 31#5) ∧
    (Helper.run 5 ((Count.u128 18446744073709551616#128).clamp 5) .ashrIw (24#64)).map
        (Helper.pattern 5 .ashrIw) =
      (Helper.run 5 ((Count.u128 18446744073709551616#128).clamp 5) .ashrU128 (24#128)).map
        (Helper.pattern 5 .ashrU128) := by
  have hnarrow : Helper.AppliesAt 5 .ashrIw := by
    change 5 ≤ 64
    decide
  have hmiddle : Helper.AppliesAt 5 .ashrU128 := by
    change 5 ≤ 128
    decide
  have hcount : 5 ≤ (Count.u128 18446744073709551616#128).toNat := by
    decide
  obtain ⟨hone, hagree⟩ := shifts_exact 5 (.u128 18446744073709551616#128) 5 (by decide)
  obtain ⟨r, hrun, hpattern, -⟩ := hone .ashrIw 24#64 hnarrow trivial
  refine ⟨⟨r, hrun, hpattern.trans ?_⟩,
    hagree .ashrIw .ashrU128 24#64 24#128 rfl hnarrow hmiddle trivial trivial (by decide)⟩
  rw [ShiftOp.apply_of_le _ _ hcount (Nat.le_refl 5)]
  decide

end Harc.ShiftTiers
