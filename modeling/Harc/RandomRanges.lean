import Mathlib.Algebra.BigOperators.Group.List.Basic
import Mathlib.Algebra.Order.Ring.Int
import Mathlib.Tactic.Linarith
import Harc.SplitMix

/-!
Draws from ranges and from weighted bins (`runtime/harc_random_rt.h`).  Words are unsigned
and wrap; signed sums and differences that leave 64 bits are undefined.
-/

namespace Harc.RandomRanges

open Harc.SplitMix

/-! ### Signed words -/

def InI64 (x : Int) : Prop := -2 ^ 63 ≤ x ∧ x < 2 ^ 63

instance (x : Int) : Decidable (InI64 x) := inferInstanceAs (Decidable (_ ∧ _))

/-- None if the number is out of range: the operation that gives it is undefined. -/
def checkedI64 (x : Int) : Option Int64 := if InI64 x then some (.ofInt x) else none

theorem checkedI64_eq_some {x : Int} {v : Int64} :
    checkedI64 x = some v ↔ InI64 x ∧ v.toInt = x := by
  rw [checkedI64]
  constructor
  · intro h
    split_ifs at h with hrange
    obtain rfl := Option.some.inj h
    exact ⟨hrange, Int64.toInt_ofInt_of_le hrange.1 hrange.2⟩
  · rintro ⟨hrange, rfl⟩
    rw [if_pos hrange, Int64.ofInt_toInt]

theorem exists_checkedI64 {x : Int} : (∃ v, checkedI64 x = some v) ↔ InI64 x := by
  constructor
  · rintro ⟨v, hv⟩
    exact (checkedI64_eq_some.mp hv).1
  · intro h
    exact ⟨.ofInt x, if_pos h⟩

theorem inI64_toInt (x : Int64) : InI64 x.toInt := ⟨x.le_toInt, x.toInt_lt⟩

def addI64 (x y : Int64) : Option Int64 := checkedI64 (x.toInt + y.toInt)

def subI64 (x y : Int64) : Option Int64 := checkedI64 (x.toInt - y.toInt)

/-- The word as a signed number, without a conversion that is out of range. -/
def signedOf (bits : BitVec 64) : Int :=
  if bits.toNat ≤ 2 ^ 63 - 1 then bits.toNat else -1 - ((2 ^ 64 - 1 - bits.toNat : Nat) : Int)

theorem signedOf_eq (bits : BitVec 64) : signedOf bits = bits.toInt := by
  have hlt := bits.isLt
  rw [signedOf, BitVec.toInt_eq_toNat_cond]
  split_ifs <;> omega

/-- An offset up to the distance of two signed numbers leads from one to a number between. -/
theorem toInt_add_offset {lo hi : Int64} {offset : BitVec 64}
    (h : (offset.toNat : Int) ≤ hi.toInt - lo.toInt) :
    (lo.toBitVec + offset).toInt = lo.toInt + offset.toNat := by
  have hlo := lo.le_toInt
  have hhi := hi.toInt_lt
  have hword := lo.toBitVec.isLt
  have hsigned : lo.toInt = lo.toBitVec.toInt := rfl
  rw [BitVec.toInt_eq_toNat_cond] at hsigned ⊢
  rw [BitVec.toNat_add]
  split_ifs at hsigned ⊢ <;> omega

theorem toNat_distance {lo hi : Int64} (h : lo.toInt ≤ hi.toInt) :
    ((hi.toBitVec - lo.toBitVec).toNat : Int) = hi.toInt - lo.toInt := by
  have hlo := lo.toBitVec.isLt
  have hhi := hi.toBitVec.isLt
  have hsigned : lo.toInt = lo.toBitVec.toInt := rfl
  have hsigned' : hi.toInt = hi.toBitVec.toInt := rfl
  rw [BitVec.toInt_eq_toNat_cond] at hsigned hsigned'
  rw [BitVec.toNat_sub]
  split_ifs at hsigned hsigned' <;> omega

/-! ### Ranges -/

def harcPreferenceDraw (seed : BitVec 64) (salt : BitVec 32) : BitVec 64 :=
  splitmix64 (seed ^^^ (salt.setWidth 64 * 0x9E3779B97F4A7C15#64))

/-- The draws below the threshold are drawn again; none if the rounds are used up. -/
def redraw (threshold : BitVec 64) : Nat → BitVec 64 → Option (BitVec 64)
  | 0, _ => none
  | rounds + 1, draw =>
      if draw < threshold then redraw threshold rounds (splitmix64 draw) else some draw

def rejectionThreshold (span : BitVec 64) : BitVec 64 := -span % span

def harcPreferRangeU64 (rounds : Nat) (seed : BitVec 64) (salt : BitVec 32)
    (lo hi : BitVec 64) : Option (BitVec 64) :=
  if hi ≤ lo then some lo
  else
    let span := hi - lo + 1
    let draw := harcPreferenceDraw seed salt
    if span = 0 then some draw
    else
      match redraw (rejectionThreshold span) rounds draw with
      | none => none
      | some draw => some (lo + draw % span)

def harcPreferRangeI64 (rounds : Nat) (seed : BitVec 64) (salt : BitVec 32) (lo hi : Int64) :
    Option Int :=
  if hi ≤ lo then some lo.toInt
  else
    let distance := hi.toBitVec - lo.toBitVec
    match harcPreferRangeU64 rounds seed salt 0 distance with
    | none => none
    | some offset => some (signedOf (lo.toBitVec + offset))

/-- None if the difference or the sum overflows. -/
def harcPreferRange (seed : BitVec 64) (salt : BitVec 32) (lo hi : Int64) : Option Int64 :=
  if hi ≤ lo then some lo
  else
    match subI64 hi lo with
    | none => none
    | some distance =>
        let span := distance.toBitVec + 1
        addI64 lo (.ofBitVec (harcPreferenceDraw seed salt % span))

def harcPreferSint (seed : BitVec 64) (salt : BitVec 32) (width : Nat) : Option Int64 :=
  if width = 0 then some 0
  else if 63 ≤ width then some (.ofBitVec (harcPreferenceDraw seed salt))
  else
    let half : Int := 2 ^ (width - 1)
    harcPreferRange seed salt (.ofInt (-half)) (.ofInt (half - 1))

/-- `next` is what the generator gives; it is called at most once. -/
def harcRngRange (next : BitVec 64) (lo hi : Int64) : Int :=
  if hi ≤ lo then lo.toInt
  else
    let span := hi.toBitVec - lo.toBitVec + 1
    let offset := if span = 0 then next else next % span
    signedOf (lo.toBitVec + offset)

/-! ### Bins -/

structure HarcDistBin where
  lo : Int64
  hi : Int64
  weight : Int64

def totalWeight : Int64 → List HarcDistBin → Option Int64
  | total, [] => some total
  | total, bin :: bins =>
      match addI64 total bin.weight with
      | none => none
      | some total => totalWeight total bins

/-- The first bin with a sum of weights above the pick, and its place. -/
def scan (pick : Int64) : Int64 → BitVec 32 → List HarcDistBin →
    Option (Option (BitVec 32 × HarcDistBin))
  | _, _, [] => some none
  | acc, binSalt, bin :: bins =>
      match addI64 acc bin.weight with
      | none => none
      | some acc =>
          if pick < acc then some (some (binSalt, bin)) else scan pick acc (binSalt + 1) bins

/-- The loop over the bins for a positive total. -/
def pickBin (draw : BitVec 64) (total : Int64) (bins : List HarcDistBin) :
    Option (Option (BitVec 32 × HarcDistBin)) :=
  scan (.ofBitVec (draw % total.toBitVec)) 0 0 bins

/-- What is returned when the loop ends without a bin. -/
def firstLo (bins : List HarcDistBin) : Int64 := bins.head?.elim 0 (·.lo)

def harcPreferDist (seed : BitVec 64) (salt : BitVec 32) (bins : List HarcDistBin) :
    Option Int64 :=
  match totalWeight 0 bins with
  | none => none
  | some total =>
      if total ≤ 0 then some 0
      else
        match pickBin (harcPreferenceDraw seed salt) total bins with
        | none => none
        | some none => some (firstLo bins)
        | some (some (binSalt, bin)) =>
            harcPreferRange seed (salt ^^^ (0xA5A5A5A5#32 + binSalt)) bin.lo bin.hi

/-- `next` is the stream of the generator. -/
def harcRngDist (next : Nat → BitVec 64) (bins : List HarcDistBin) : Option Int :=
  match totalWeight 0 bins with
  | none => none
  | some total =>
      if total ≤ 0 then some 0
      else
        match pickBin (next 0) total bins with
        | none => none
        | some none => some (firstLo bins).toInt
        | some (some (_, bin)) => some (harcRngRange (next 1) bin.lo bin.hi)

/-! ### Offsets -/

/-- A draw, reduced to an offset up to a distance. -/
theorem offset_le (draw distance : BitVec 64) :
    (if distance + 1 = 0 then draw else draw % (distance + 1)).toNat ≤ distance.toNat := by
  have hdraw := draw.isLt
  have hdistance := distance.isLt
  split_ifs with hspan
  · have hzero : (distance + 1).toNat = 0 := by rw [hspan]; rfl
    rw [BitVec.toNat_add] at hzero
    have hone : (1 : BitVec 64).toNat = 1 := rfl
    omega
  · have hpos : 0 < (distance + 1).toNat := by
      rw [Nat.pos_iff_ne_zero]
      intro hzero
      exact hspan (BitVec.eq_of_toNat_eq hzero)
    have hmod := Nat.mod_lt draw.toNat hpos
    have hle : (distance + 1).toNat ≤ distance.toNat + 1 := by
      rw [BitVec.toNat_add]
      exact Nat.mod_le _ _
    rw [BitVec.toNat_umod]
    omega

theorem le_of_not_le {lo hi : Int64} (h : ¬ hi ≤ lo) : lo.toInt < hi.toInt := by
  rw [Int64.le_iff_toInt_le] at h
  omega

/-- A signed number with an offset up to the distance to another one. -/
theorem signedOf_between {lo hi : Int64} {offset : BitVec 64} (h : lo.toInt ≤ hi.toInt)
    (hoffset : offset.toNat ≤ (hi.toBitVec - lo.toBitVec).toNat) :
    lo.toInt ≤ signedOf (lo.toBitVec + offset) ∧ signedOf (lo.toBitVec + offset) ≤ hi.toInt := by
  have hdistance := toNat_distance h
  rw [signedOf_eq, toInt_add_offset (by omega : (offset.toNat : Int) ≤ hi.toInt - lo.toInt)]
  omega

/-! ### Draws from ranges -/

theorem harcRngRange_between (next : BitVec 64) {lo hi : Int64} (h : lo ≤ hi) :
    lo.toInt ≤ harcRngRange next lo hi ∧ harcRngRange next lo hi ≤ hi.toInt := by
  rw [Int64.le_iff_toInt_le] at h
  rw [harcRngRange]
  split_ifs with hle
  · exact ⟨Int.le_refl _, h⟩
  · exact signedOf_between h (offset_le next _)

/-- The draws that are tried one after the other reach a threshold. -/
def Reaches (threshold draw : BitVec 64) : Prop := ∃ n, ¬ splitmix64^[n] draw < threshold

theorem redraw_iff {threshold draw : BitVec 64} :
    (∃ rounds result, redraw threshold rounds draw = some result) ↔ Reaches threshold draw := by
  constructor
  · rintro ⟨rounds, result, h⟩
    induction rounds generalizing draw with
    | zero => simp [redraw] at h
    | succ rounds ih =>
        rw [redraw] at h
        split_ifs at h with hlt
        · obtain ⟨n, hn⟩ := ih h
          rw [← Function.iterate_succ_apply] at hn
          exact ⟨n + 1, hn⟩
        · exact ⟨0, hlt⟩
  · rintro ⟨n, hn⟩
    induction n generalizing draw with
    | zero => exact ⟨1, draw, if_neg hn⟩
    | succ n ih =>
        rw [Function.iterate_succ_apply] at hn
        rcases em (draw < threshold) with hlt | hlt
        · obtain ⟨rounds, result, h⟩ := ih hn
          refine ⟨rounds + 1, result, ?_⟩
          rw [redraw, if_pos hlt, h]
        · exact ⟨1, draw, if_neg hlt⟩

theorem rejectionThreshold_zero : rejectionThreshold 0 = 0 := by decide

theorem reaches_zero (draw : BitVec 64) : Reaches 0 draw := ⟨0, BitVec.not_lt_zero⟩

theorem zero_le_word {x : BitVec 64} : (0 : BitVec 64) ≤ x := BitVec.le_def.mpr (Nat.zero_le _)

theorem sub_zero_word (x : BitVec 64) : x - (0 : BitVec 64) = x := BitVec.sub_zero x

theorem harcPreferRangeU64_between {rounds : Nat} {seed : BitVec 64} {salt : BitVec 32}
    {lo hi v : BitVec 64} (h : lo ≤ hi) (hv : harcPreferRangeU64 rounds seed salt lo hi = some v) :
    lo ≤ v ∧ v ≤ hi := by
  have hhi := hi.isLt
  rw [BitVec.le_def] at h
  have hdistance : (hi - lo).toNat = hi.toNat - lo.toNat := BitVec.toNat_sub_of_le h
  have hbetween : ∀ offset : BitVec 64, offset.toNat ≤ (hi - lo).toNat →
      lo ≤ lo + offset ∧ lo + offset ≤ hi := by
    intro offset hoffset
    rw [BitVec.le_def, BitVec.le_def, BitVec.toNat_add, Nat.mod_eq_of_lt (by omega)]
    omega
  simp only [harcPreferRangeU64] at hv
  split_ifs at hv with hle hspan
  · obtain rfl := Option.some.inj hv
    exact ⟨BitVec.le_refl _, h⟩
  · obtain rfl := Option.some.inj hv
    have hfull := offset_le (harcPreferenceDraw seed salt - lo) (hi - lo)
    rw [if_pos hspan] at hfull
    have heq : lo + (harcPreferenceDraw seed salt - lo) = harcPreferenceDraw seed salt := by
      rw [BitVec.add_comm, BitVec.sub_add_cancel]
    exact heq ▸ hbetween _ hfull
  · rcases hdraw : redraw (rejectionThreshold (hi - lo + 1)) rounds
        (harcPreferenceDraw seed salt) with _ | draw
    · rw [hdraw] at hv
      simp at hv
    · rw [hdraw] at hv
      obtain rfl := Option.some.inj hv
      have hoffset := offset_le draw (hi - lo)
      rw [if_neg hspan] at hoffset
      exact hbetween _ hoffset

/-- A draw from an unsigned range ends exactly if the draws reach the threshold. -/
theorem harcPreferRangeU64_ends {seed : BitVec 64} {salt : BitVec 32} {lo hi : BitVec 64}
    (h : lo ≤ hi) :
    (∃ rounds v, harcPreferRangeU64 rounds seed salt lo hi = some v) ↔
      Reaches (rejectionThreshold (hi - lo + 1)) (harcPreferenceDraw seed salt) := by
  simp only [harcPreferRangeU64]
  split_ifs with hle hspan
  · obtain rfl : hi = lo := BitVec.le_antisymm hle h
    rw [BitVec.sub_self, BitVec.zero_add, show rejectionThreshold 1 = 0 by decide]
    exact ⟨fun _ => reaches_zero _, fun _ => ⟨0, hi, rfl⟩⟩
  · rw [hspan, rejectionThreshold_zero]
    exact ⟨fun _ => reaches_zero _, fun _ => ⟨0, _, rfl⟩⟩
  · rw [← redraw_iff]
    constructor
    · rintro ⟨rounds, v, hv⟩
      rcases hdraw : redraw (rejectionThreshold (hi - lo + 1)) rounds
          (harcPreferenceDraw seed salt) with _ | draw
      · rw [hdraw] at hv
        simp at hv
      · exact ⟨rounds, draw, hdraw⟩
    · rintro ⟨rounds, draw, hdraw⟩
      exact ⟨rounds, _, by rw [hdraw]⟩

theorem harcPreferRangeI64_between {rounds : Nat} {seed : BitVec 64} {salt : BitVec 32}
    {lo hi : Int64} {v : Int} (h : lo ≤ hi)
    (hv : harcPreferRangeI64 rounds seed salt lo hi = some v) : lo.toInt ≤ v ∧ v ≤ hi.toInt := by
  rw [Int64.le_iff_toInt_le] at h
  simp only [harcPreferRangeI64] at hv
  split_ifs at hv with hle
  · obtain rfl := Option.some.inj hv
    exact ⟨Int.le_refl _, h⟩
  · rcases hoffset : harcPreferRangeU64 rounds seed salt 0 (hi.toBitVec - lo.toBitVec) with
      _ | offset
    · rw [hoffset] at hv
      simp at hv
    · rw [hoffset] at hv
      obtain rfl := Option.some.inj hv
      exact signedOf_between h (harcPreferRangeU64_between zero_le_word hoffset).2

theorem harcPreferRangeI64_ends {seed : BitVec 64} {salt : BitVec 32} {lo hi : Int64}
    (h : lo ≤ hi) :
    (∃ rounds v, harcPreferRangeI64 rounds seed salt lo hi = some v) ↔
      Reaches (rejectionThreshold (hi.toBitVec - lo.toBitVec + 1))
        (harcPreferenceDraw seed salt) := by
  have hword := @harcPreferRangeU64_ends seed salt 0 (hi.toBitVec - lo.toBitVec) zero_le_word
  rw [sub_zero_word] at hword
  rw [← hword]
  simp only [harcPreferRangeI64]
  split_ifs with hle
  · obtain rfl : hi = lo := Int64.le_antisymm hle h
    refine ⟨fun _ => ⟨0, 0, ?_⟩, fun _ => ⟨0, hi.toInt, rfl⟩⟩
    rw [harcPreferRangeU64, if_pos]
    rw [BitVec.sub_self]
    exact BitVec.le_refl _
  · constructor
    · rintro ⟨rounds, v, hv⟩
      rcases hoffset : harcPreferRangeU64 rounds seed salt 0 (hi.toBitVec - lo.toBitVec) with
        _ | offset
      · rw [hoffset] at hv
        simp at hv
      · exact ⟨rounds, offset, hoffset⟩
    · rintro ⟨rounds, offset, hoffset⟩
      exact ⟨rounds, _, by rw [hoffset]⟩

/-- A range whose distance is a signed 64-bit number. -/
def Narrow (lo hi : Int64) : Prop := hi.toInt - lo.toInt < 2 ^ 63

instance (lo hi : Int64) : Decidable (Narrow lo hi) := inferInstanceAs (Decidable (_ < _))

theorem harcPreferRange_of_narrow (seed : BitVec 64) (salt : BitVec 32) {lo hi : Int64}
    (h : lo ≤ hi) (hnarrow : Narrow lo hi) :
    ∃ v, harcPreferRange seed salt lo hi = some v ∧ lo ≤ v ∧ v ≤ hi := by
  have h' := Int64.le_iff_toInt_le.mp h
  have hlo := lo.le_toInt
  have hhi := hi.toInt_lt
  rw [harcPreferRange]
  split_ifs with hle
  · exact ⟨lo, rfl, Int64.le_refl _, h⟩
  · obtain ⟨distance, hdistance⟩ := exists_checkedI64.mpr
      (⟨by omega, hnarrow⟩ : InI64 (hi.toInt - lo.toInt))
    obtain ⟨-, hvalue⟩ := checkedI64_eq_some.mp hdistance
    rw [subI64, hdistance]
    have hsigned : distance.toInt = distance.toBitVec.toInt := rfl
    have hword := distance.toBitVec.isLt
    rw [BitVec.toInt_eq_toNat_cond] at hsigned
    have hoffset := offset_le (harcPreferenceDraw seed salt) distance.toBitVec
    have hnat : (distance.toBitVec.toNat : Int) = hi.toInt - lo.toInt := by
      split_ifs at hsigned <;> omega
    have hspan : distance.toBitVec + 1 ≠ 0 := by
      intro hzero
      have htoNat := congrArg BitVec.toNat hzero
      rw [BitVec.toNat_add] at htoNat
      have hone : (1 : BitVec 64).toNat = 1 := rfl
      have hzero' : (0 : BitVec 64).toNat = 0 := rfl
      rw [Narrow] at hnarrow
      omega
    rw [if_neg hspan] at hoffset
    have hsmall : ((harcPreferenceDraw seed salt % (distance.toBitVec + 1)).toInt : Int) =
        (harcPreferenceDraw seed salt % (distance.toBitVec + 1)).toNat := by
      rw [BitVec.toInt_eq_toNat_cond, if_pos]
      rw [Narrow] at hnarrow
      omega
    obtain ⟨v, hv⟩ := exists_checkedI64.mpr
      (⟨by omega, by omega⟩ : InI64 (lo.toInt +
        (harcPreferenceDraw seed salt % (distance.toBitVec + 1)).toNat))
    obtain ⟨-, hvalue'⟩ := checkedI64_eq_some.mp hv
    refine ⟨v, ?_, ?_, ?_⟩
    · simp only [addI64, Int64.toInt_ofBitVec, hsmall, hv]
    · rw [Int64.le_iff_toInt_le]
      omega
    · rw [Int64.le_iff_toInt_le]
      omega

/-- A draw from a signed range is in it exactly if the distance of its ends does not
overflow. -/
theorem harcPreferRange_iff (seed : BitVec 64) (salt : BitVec 32) {lo hi : Int64} (h : lo ≤ hi) :
    (∃ v, harcPreferRange seed salt lo hi = some v ∧ lo ≤ v ∧ v ≤ hi) ↔ Narrow lo hi := by
  constructor
  · rintro ⟨v, hv, -, -⟩
    rw [harcPreferRange] at hv
    split_ifs at hv with hle
    · obtain rfl : hi = lo := Int64.le_antisymm hle h
      rw [Narrow, Int.sub_self]
      decide
    · rcases hdistance : subI64 hi lo with _ | distance
      · rw [hdistance] at hv
        simp at hv
      · exact (checkedI64_eq_some.mp hdistance).1.2
  · exact harcPreferRange_of_narrow seed salt h

/-- The numbers of a signed type with some bits. -/
def InSint (width : Nat) (x : Int) : Prop := -2 ^ (width - 1) ≤ x ∧ x < 2 ^ (width - 1)

theorem InI64.sint {x : Int} (h : InI64 x) {width : Nat} (hwidth : 64 ≤ width) :
    InSint width x := by
  have hpow : (2 : Int) ^ 63 ≤ 2 ^ (width - 1) := pow_le_pow_right₀ (by decide) (by omega)
  exact ⟨by linarith [h.1], lt_of_lt_of_le h.2 hpow⟩

/-- A draw of a signed type is in it, except that a 63-bit type gets all 64 bits. -/
theorem harcPreferSint_iff (seed : BitVec 64) (salt : BitVec 32) {width : Nat}
    (hwidth : 0 < width) :
    (∃ v, harcPreferSint seed salt width = some v ∧ InSint width v.toInt) ↔
      (width = 63 → InSint 63 (harcPreferenceDraw seed salt).toInt) := by
  rw [harcPreferSint, if_neg (Nat.pos_iff_ne_zero.mp hwidth)]
  split_ifs with hwide
  · constructor
    · rintro ⟨v, hv, hrange⟩ rfl
      obtain rfl := Option.some.inj hv
      exact hrange
    · intro h
      refine ⟨_, rfl, ?_⟩
      rcases Nat.eq_or_lt_of_le hwide with rfl | hlt
      · exact h rfl
      · exact (inI64_toInt _).sint hlt
  · refine ⟨fun _ heq => absurd heq.ge hwide, fun _ => ?_⟩
    have hpos : (1 : Int) ≤ 2 ^ (width - 1) := one_le_pow₀ (by decide)
    have hpow : (2 : Int) ^ (width - 1) ≤ 2 ^ 61 := pow_le_pow_right₀ (by decide) (by omega)
    have hlo : (Int64.ofInt (-2 ^ (width - 1))).toInt = -2 ^ (width - 1) :=
      Int64.toInt_ofInt_of_le (by linarith) (by linarith)
    have hhi : (Int64.ofInt (2 ^ (width - 1) - 1)).toInt = 2 ^ (width - 1) - 1 :=
      Int64.toInt_ofInt_of_le (by linarith) (by linarith)
    have hordered : Int64.ofInt (-2 ^ (width - 1)) ≤ Int64.ofInt (2 ^ (width - 1) - 1) := by
      rw [Int64.le_iff_toInt_le, hlo, hhi]
      linarith
    obtain ⟨v, hv, hlo', hhi'⟩ := harcPreferRange_of_narrow seed salt hordered
      (by rw [Narrow, hlo, hhi]; linarith)
    rw [Int64.le_iff_toInt_le] at hlo' hhi'
    exact ⟨v, hv, by rw [← hlo]; exact hlo', by linarith⟩

/-! ### Sums of weights -/

/-- The weights of the first bins. -/
def weightOf (bins : List HarcDistBin) : Int := (bins.map (·.weight.toInt)).sum

theorem weightOf_cons (bin : HarcDistBin) (bins : List HarcDistBin) :
    weightOf (bin :: bins) = bin.weight.toInt + weightOf bins := rfl

/-- No sum of weights from the first bin on overflows. -/
def WeightsFit (acc : Int) (bins : List HarcDistBin) : Prop :=
  ∀ n, InI64 (acc + weightOf (bins.take n))

theorem weightsFit_cons {acc : Int64} {bin : HarcDistBin} {bins : List HarcDistBin} :
    WeightsFit acc.toInt (bin :: bins) ↔ WeightsFit (acc.toInt + bin.weight.toInt) bins := by
  constructor
  · intro h n
    have hn := h (n + 1)
    rwa [List.take_succ_cons, weightOf_cons, ← Int.add_assoc] at hn
  · rintro h (_ | n)
    · rw [List.take_zero, show weightOf [] = 0 from rfl, Int.add_zero]
      exact inI64_toInt acc
    · rw [List.take_succ_cons, weightOf_cons, ← Int.add_assoc]
      exact h n

theorem totalWeight_eq_some {bins : List HarcDistBin} : ∀ {acc total : Int64},
    totalWeight acc bins = some total ↔
      WeightsFit acc.toInt bins ∧ total.toInt = acc.toInt + weightOf bins := by
  induction bins with
  | nil =>
      intro acc total
      rw [totalWeight, Option.some_inj, show weightOf [] = 0 from rfl, Int.add_zero,
        Int64.toInt_inj]
      constructor
      · rintro rfl
        refine ⟨fun n => ?_, rfl⟩
        rw [List.take_nil, show weightOf [] = 0 from rfl, Int.add_zero]
        exact inI64_toInt acc
      · exact fun h => h.2.symm
  | cons bin bins ih =>
      intro acc total
      rw [totalWeight, weightsFit_cons, weightOf_cons]
      rcases hadd : addI64 acc bin.weight with _ | sum
      · have hrange : ¬ InI64 (acc.toInt + bin.weight.toInt) := by
          intro h
          obtain ⟨v, hv⟩ := exists_checkedI64.mpr h
          rw [addI64, hv] at hadd
          simp at hadd
        simp only [reduceCtorEq, false_iff, not_and]
        intro hfit
        have hzero := hfit 0
        rw [List.take_zero, show weightOf [] = 0 from rfl, Int.add_zero] at hzero
        exact absurd hzero hrange
      · obtain ⟨-, hsum⟩ := checkedI64_eq_some.mp hadd
        simp only
        rw [ih, hsum, Int.add_assoc]

/-- The first bin with a sum of weights above a number. -/
def binAbove (p : Int) : Int → List HarcDistBin → Option HarcDistBin
  | _, [] => none
  | acc, bin :: bins =>
      if p < acc + bin.weight.toInt then some bin else binAbove p (acc + bin.weight.toInt) bins

theorem binAbove_isSome {p : Int} {bins : List HarcDistBin} :
    ∀ {acc : Int}, acc ≤ p → p < acc + weightOf bins → ∃ bin, binAbove p acc bins = some bin := by
  induction bins with
  | nil =>
      intro acc hacc hp
      rw [show weightOf [] = 0 from rfl] at hp
      omega
  | cons bin bins ih =>
      intro acc hacc hp
      rw [weightOf_cons] at hp
      rw [binAbove]
      split_ifs with hlt
      · exact ⟨bin, rfl⟩
      · exact ih (by omega) (by omega)

theorem binAbove_weight {p : Int} {bins : List HarcDistBin} {bin : HarcDistBin} :
    ∀ {acc : Int}, acc ≤ p → binAbove p acc bins = some bin → 0 < bin.weight.toInt := by
  induction bins with
  | nil =>
      intro acc _ h
      simp [binAbove] at h
  | cons first bins ih =>
      intro acc hacc h
      rw [binAbove] at h
      split_ifs at h with hlt
      · obtain rfl := Option.some.inj h
        omega
      · exact ih (by omega) h

theorem scan_eq {pick : Int64} {bins : List HarcDistBin} : ∀ {acc : Int64} (binSalt : BitVec 32),
    WeightsFit acc.toInt bins →
    ∃ found, scan pick acc binSalt bins = some found ∧
      found.map Prod.snd = binAbove pick.toInt acc.toInt bins := by
  induction bins with
  | nil =>
      intro acc binSalt _
      exact ⟨none, rfl, rfl⟩
  | cons bin bins ih =>
      intro acc binSalt hfit
      rw [weightsFit_cons] at hfit
      have hzero := hfit 0
      rw [List.take_zero, show weightOf [] = 0 from rfl, Int.add_zero] at hzero
      obtain ⟨sum, hadd⟩ := exists_checkedI64.mpr hzero
      obtain ⟨-, hsum⟩ := checkedI64_eq_some.mp hadd
      rw [scan, binAbove, show addI64 acc bin.weight = some sum from hadd, ← hsum]
      simp only [Int64.lt_iff_toInt_lt]
      split_ifs with hlt
      · exact ⟨_, rfl, rfl⟩
      · exact ih (binSalt + 1) (hsum ▸ hfit)

/-! ### Draws from bins -/

/-- The bin that a draw selects. -/
def Selected (draw : BitVec 64) (bins : List HarcDistBin) (bin : HarcDistBin) : Prop :=
  ∃ total binSalt, totalWeight 0 bins = some total ∧ ¬ total ≤ 0 ∧
    pickBin draw total bins = some (some (binSalt, bin))

/-- The weights have a positive sum and none of their sums overflows. -/
structure Weighted (bins : List HarcDistBin) : Prop where
  fit : WeightsFit 0 bins
  positive : 0 < weightOf bins

/-- The pick of a draw is its remainder by the sum of the weights. -/
theorem Weighted.pick {bins : List HarcDistBin} (h : Weighted bins) (draw : BitVec 64) :
    ∃ total, totalWeight 0 bins = some total ∧ ¬ total ≤ 0 ∧ ∃ found,
      pickBin draw total bins = some found ∧
      found.map Prod.snd = binAbove ((draw.toNat : Int) % weightOf bins) 0 bins := by
  have hall := h.fit bins.length
  rw [List.take_length, Int.zero_add] at hall
  have htotal : totalWeight 0 bins = some (.ofInt (weightOf bins)) := by
    rw [totalWeight_eq_some, Int64.toInt_ofInt_of_le hall.1 hall.2]
    exact ⟨h.fit, (Int.zero_add _).symm⟩
  have hvalue : (Int64.ofInt (weightOf bins)).toInt = weightOf bins :=
    Int64.toInt_ofInt_of_le hall.1 hall.2
  have hpositive := h.positive
  refine ⟨_, htotal, ?_, ?_⟩
  · rw [Int64.le_iff_toInt_le, hvalue]
    change ¬ weightOf bins ≤ 0
    omega
  · have hword : ((Int64.ofInt (weightOf bins)).toBitVec.toNat : Int) = weightOf bins := by
      have hsigned : (Int64.ofInt (weightOf bins)).toInt =
        (Int64.ofInt (weightOf bins)).toBitVec.toInt := rfl
      have hlt := (Int64.ofInt (weightOf bins)).toBitVec.isLt
      rw [hvalue, BitVec.toInt_eq_toNat_cond] at hsigned
      split_ifs at hsigned <;> omega
    have hmod : ((draw % (Int64.ofInt (weightOf bins)).toBitVec).toNat : Int) =
        (draw.toNat : Int) % weightOf bins := by
      rw [BitVec.toNat_umod, Int.natCast_mod, hword]
    have hpick : (Int64.ofBitVec (draw % (Int64.ofInt (weightOf bins)).toBitVec)).toInt =
        (draw.toNat : Int) % weightOf bins := by
      have hlt := Int.emod_lt_of_pos (draw.toNat : Int) hpositive
      have hupper := hall.2
      rw [Int64.toInt_ofBitVec, BitVec.toInt_eq_toNat_cond, if_pos (by omega), hmod]
    obtain ⟨found, hfound, heq⟩ := @scan_eq
      (Int64.ofBitVec (draw % (Int64.ofInt (weightOf bins)).toBitVec)) bins 0 0 h.fit
    rw [hpick] at heq
    exact ⟨found, hfound, heq⟩

theorem selected_iff {draw : BitVec 64} {bins : List HarcDistBin} {bin : HarcDistBin} :
    Selected draw bins bin ↔
      Weighted bins ∧ binAbove ((draw.toNat : Int) % weightOf bins) 0 bins = some bin := by
  constructor
  · rintro ⟨total, binSalt, htotal, hpositive, hpick⟩
    obtain ⟨hfit, hvalue⟩ := totalWeight_eq_some.mp htotal
    rw [Int64.le_iff_toInt_le] at hpositive
    change ¬ total.toInt ≤ 0 at hpositive
    change total.toInt = 0 + _ at hvalue
    have hweighted : Weighted bins := ⟨hfit, by omega⟩
    obtain ⟨total', htotal', -, found, hfound, heq⟩ := hweighted.pick draw
    rw [htotal] at htotal'
    obtain rfl := Option.some.inj htotal'
    rw [hpick] at hfound
    obtain rfl := Option.some.inj hfound
    exact ⟨hweighted, heq.symm⟩
  · rintro ⟨hweighted, habove⟩
    obtain ⟨total, htotal, hpositive, found, hfound, heq⟩ := hweighted.pick draw
    rw [habove, Option.map_eq_some_iff] at heq
    obtain ⟨⟨binSalt, bin'⟩, rfl, rfl⟩ := heq
    exact ⟨total, binSalt, htotal, hpositive, hfound⟩

theorem Selected.weight {draw : BitVec 64} {bins : List HarcDistBin} {bin : HarcDistBin}
    (h : Selected draw bins bin) : 0 < bin.weight.toInt := by
  obtain ⟨hweighted, habove⟩ := selected_iff.mp h
  exact binAbove_weight (Int.emod_nonneg _ (ne_of_gt hweighted.positive)) habove

/-- A draw whose result is in the bin that it selects, and that has a positive weight. -/
def DrawsWell (draw : BitVec 64) (bins : List HarcDistBin) (result : Option Int) : Prop :=
  ∃ bin v, Selected draw bins bin ∧ 0 < bin.weight.toInt ∧ result = some v ∧
    bin.lo.toInt ≤ v ∧ v ≤ bin.hi.toInt

/-- The bins that some pick selects are all proper. -/
def SelectableBins (proper : HarcDistBin → Prop) (bins : List HarcDistBin) : Prop :=
  ∀ p : Int, 0 ≤ p → p < weightOf bins → ∀ bin, binAbove p 0 bins = some bin → proper bin

/-- Draws are in their bins for all words exactly if the weights have a positive sum that
does not overflow and the bins that can be selected are proper. -/
theorem forall_drawsWell {ι : Type} [Inhabited ι] {draw : ι → BitVec 64}
    {result : ι → Option Int} {proper : HarcDistBin → Prop} {bins : List HarcDistBin}
    (hsurjective : ∀ word, ∃ i, draw i = word)
    (hproper : ∀ i bin, Selected (draw i) bins bin →
      ((∃ v, result i = some v ∧ bin.lo.toInt ≤ v ∧ v ≤ bin.hi.toInt) ↔ proper bin)) :
    (∀ i, DrawsWell (draw i) bins (result i)) ↔ Weighted bins ∧ SelectableBins proper bins := by
  constructor
  · intro h
    obtain ⟨_, _, hselected, -⟩ := h default
    have hweighted := (selected_iff.mp hselected).1
    have hall := hweighted.fit bins.length
    rw [List.take_length, Int.zero_add] at hall
    refine ⟨hweighted, ?_⟩
    rintro p hp hlt bin habove
    have hupper := hall.2
    obtain ⟨i, hi⟩ := hsurjective (BitVec.ofNat 64 p.toNat)
    have hword : ((draw i).toNat : Int) % weightOf bins = p := by
      rw [hi, BitVec.toNat_ofNat, Nat.mod_eq_of_lt (by omega), Int.toNat_of_nonneg hp]
      exact Int.emod_eq_of_lt hp hlt
    obtain ⟨bin', v, hselected', -, hv, hlo, hhi⟩ := h i
    have hbin := (selected_iff.mp hselected').2
    rw [hword, habove] at hbin
    obtain rfl := Option.some.inj hbin
    exact (hproper i bin hselected').mp ⟨v, hv, hlo, hhi⟩
  · rintro ⟨hweighted, hselectable⟩ i
    have hlow := Int.emod_nonneg ((draw i).toNat : Int) (ne_of_gt hweighted.positive)
    have hlt := Int.emod_lt_of_pos ((draw i).toNat : Int) hweighted.positive
    obtain ⟨bin, hbin⟩ := binAbove_isSome hlow (by rw [Int.zero_add]; exact hlt)
    have hselected := selected_iff.mpr ⟨hweighted, hbin⟩
    obtain ⟨v, hv, hlo, hhi⟩ := (hproper i bin hselected).mpr (hselectable _ hlow hlt bin hbin)
    exact ⟨bin, v, hselected, hselected.weight, hv, hlo, hhi⟩

theorem harcPreferenceDraw_surjective (salt : BitVec 32) (word : BitVec 64) :
    ∃ seed, harcPreferenceDraw seed salt = word := by
  obtain ⟨value, hvalue⟩ := splitmix64_surjective word
  refine ⟨value ^^^ (salt.setWidth 64 * 0x9E3779B97F4A7C15#64), ?_⟩
  rw [harcPreferenceDraw, BitVec.xor_assoc, BitVec.xor_self, BitVec.xor_zero, hvalue]

/-- A bin that a preference can be drawn from. -/
def Preferable (bin : HarcDistBin) : Prop := bin.lo ≤ bin.hi ∧ Narrow bin.lo bin.hi

theorem harcPreferDist_iff (salt : BitVec 32) (bins : List HarcDistBin) :
    (∀ seed, DrawsWell (harcPreferenceDraw seed salt) bins
        ((harcPreferDist seed salt bins).map Int64.toInt)) ↔
      Weighted bins ∧ SelectableBins Preferable bins := by
  apply forall_drawsWell (harcPreferenceDraw_surjective salt)
  rintro seed bin ⟨total, binSalt, htotal, hpositive, hpick⟩
  rw [harcPreferDist, htotal]
  simp only [if_neg hpositive, hpick]
  constructor
  · rintro ⟨v, hv, hlo, hhi⟩
    obtain ⟨v', hv', rfl⟩ := Option.map_eq_some_iff.mp hv
    have hle : bin.lo ≤ bin.hi := by
      rw [Int64.le_iff_toInt_le]
      exact hlo.trans hhi
    rw [← Int64.le_iff_toInt_le] at hlo hhi
    exact ⟨hle, (harcPreferRange_iff _ _ hle).mp ⟨v', hv', hlo, hhi⟩⟩
  · rintro ⟨hle, hnarrow⟩
    obtain ⟨v, hv, hlo, hhi⟩ := harcPreferRange_of_narrow seed
      (salt ^^^ (0xA5A5A5A5#32 + binSalt)) hle hnarrow
    rw [Int64.le_iff_toInt_le] at hlo hhi
    exact ⟨v.toInt, by rw [hv]; rfl, hlo, hhi⟩

theorem harcRngDist_iff (bins : List HarcDistBin) :
    (∀ next, DrawsWell (next 0) bins (harcRngDist next bins)) ↔
      Weighted bins ∧ SelectableBins (fun bin => bin.lo ≤ bin.hi) bins := by
  apply forall_drawsWell (fun word => ⟨fun _ => word, rfl⟩)
  rintro next bin ⟨total, binSalt, htotal, hpositive, hpick⟩
  rw [harcRngDist, htotal]
  simp only [if_neg hpositive, hpick]
  constructor
  · rintro ⟨v, -, hlo, hhi⟩
    rw [Int64.le_iff_toInt_le]
    exact hlo.trans hhi
  · intro hle
    exact ⟨_, rfl, harcRngRange_between (next 1) hle⟩

/-! ### All draws -/

/-- Draws of the generator are always in their range.  Those of a seed are exactly if the
tries reach the threshold of the range, if the distance of its ends does not overflow, or
if the type does not have 63 bits; those from bins are for all seeds or generators exactly
if the weights sum up to a positive number without overflow and the bins that can be
selected are ranges. -/
theorem draws_in_bounds (bins : List HarcDistBin) :
    (∀ (next : BitVec 64) (lo hi : Int64), lo ≤ hi →
      lo.toInt ≤ harcRngRange next lo hi ∧ harcRngRange next lo hi ≤ hi.toInt) ∧
    (∀ (seed : BitVec 64) (salt : BitVec 32) (lo hi : BitVec 64), lo ≤ hi →
      (∀ rounds v, harcPreferRangeU64 rounds seed salt lo hi = some v → lo ≤ v ∧ v ≤ hi) ∧
      ((∃ rounds v, harcPreferRangeU64 rounds seed salt lo hi = some v) ↔
        Reaches (rejectionThreshold (hi - lo + 1)) (harcPreferenceDraw seed salt))) ∧
    (∀ (seed : BitVec 64) (salt : BitVec 32) (lo hi : Int64), lo ≤ hi →
      (∀ rounds v, harcPreferRangeI64 rounds seed salt lo hi = some v →
        lo.toInt ≤ v ∧ v ≤ hi.toInt) ∧
      ((∃ rounds v, harcPreferRangeI64 rounds seed salt lo hi = some v) ↔
        Reaches (rejectionThreshold (hi.toBitVec - lo.toBitVec + 1))
          (harcPreferenceDraw seed salt))) ∧
    (∀ (seed : BitVec 64) (salt : BitVec 32) (lo hi : Int64), lo ≤ hi →
      ((∃ v, harcPreferRange seed salt lo hi = some v ∧ lo ≤ v ∧ v ≤ hi) ↔ Narrow lo hi)) ∧
    (∀ (seed : BitVec 64) (salt : BitVec 32) (width : Nat), 0 < width →
      ((∃ v, harcPreferSint seed salt width = some v ∧ InSint width v.toInt) ↔
        (width = 63 → InSint 63 (harcPreferenceDraw seed salt).toInt))) ∧
    (∀ salt : BitVec 32,
      (∀ seed, DrawsWell (harcPreferenceDraw seed salt) bins
          ((harcPreferDist seed salt bins).map Int64.toInt)) ↔
        Weighted bins ∧ SelectableBins Preferable bins) ∧
    ((∀ next, DrawsWell (next 0) bins (harcRngDist next bins)) ↔
      Weighted bins ∧ SelectableBins (fun bin => bin.lo ≤ bin.hi) bins) := by
  refine ⟨fun next _ _ h => harcRngRange_between next h, ?_, ?_,
    fun seed salt _ _ h => harcPreferRange_iff seed salt h,
    fun seed salt _ h => harcPreferSint_iff seed salt h,
    fun salt => harcPreferDist_iff salt bins, harcRngDist_iff bins⟩
  · intro seed salt lo hi h
    exact ⟨fun _ _ hv => harcPreferRangeU64_between h hv, harcPreferRangeU64_ends h⟩
  · intro seed salt lo hi h
    exact ⟨fun _ _ hv => harcPreferRangeI64_between h hv, harcPreferRangeI64_ends h⟩

theorem draws_in_bounds_nibble :
    0 < 4 ∧ (∀ next : BitVec 64, -8 ≤ harcRngRange next (-8) 7 ∧ harcRngRange next (-8) 7 ≤ 7) ∧
      ∃ v, harcPreferRange 1 0 (-8) 7 = some v ∧ -8 ≤ v ∧ v ≤ 7 :=
  ⟨by decide, fun next => (draws_in_bounds []).1 next (-8) 7 (by decide),
    ((draws_in_bounds []).2.2.2.1 1 0 (-8) 7 (by decide)).mpr (by decide)⟩

/-- The whole range of a signed word overflows. -/
theorem harcPreferRange_whole :
    ¬ ∀ (seed : BitVec 64) (salt : BitVec 32) (lo hi : Int64), lo ≤ hi →
      ∃ v, harcPreferRange seed salt lo hi = some v ∧ lo ≤ v ∧ v ≤ hi := by
  intro h
  have hwhole := h 0 0 Int64.minValue Int64.maxValue (by decide)
  rw [harcPreferRange_iff _ _ (by decide)] at hwhole
  exact absurd hwhole (by decide)

end Harc.RandomRanges
