import Harc.TwosComplement
import Mathlib.Data.Nat.Digits.Lemmas

/-!
The `[range]` of a field in two readings: the constraint that the renderer asserts for it, and
the interval from which a preferred value of the field is drawn.
-/

namespace Harc.FieldRanges

open Harc.TwosComplement

/-! ### Integer literals -/

inductive Radix where
  | decimal
  | hex
  | binary
deriving DecidableEq, Repr

def Radix.base : Radix → Nat
  | .decimal => 10
  | .hex => 16
  | .binary => 2

/-- The digits of a literal without its width and underscores, most significant first. -/
structure IntText where
  radix : Radix
  digits : List Nat
deriving DecidableEq, Repr

namespace IntText

def number (t : IntText) : Nat := Nat.ofDigits t.radix.base t.digits.reverse

/-- `parse_int_str` -/
def parseIntStr (t : IntText) : Option Nat :=
  if t.number < 2 ^ 64 then some t.number else none

/-- C++ reads digits after a zero as octal ones. -/
def octal (t : IntText) : Bool :=
  t.radix == .decimal && t.digits.head? == some 0 && decide (1 < t.digits.length)

/-- What the text of `normalized_int_literal` denotes in C++. -/
def cppNumber (t : IntText) : Option Nat :=
  if t.octal then
    if t.digits.all (· < 8) then some (Nat.ofDigits 8 t.digits.reverse) else none
  else some t.number

/-- `c_int_literal` and `c_value_literal` compose long hexadecimal literals from words. -/
def composed (t : IntText) : Bool := t.radix == .hex && decide (16 < t.digits.length)

/-- `ExprKind::Int` of `emit_constraint_expr_w`; a literal that is not composed has to be one of
`uint64_t`, and passes through `int64_t` when the solver is wider. -/
def solverValue (width : Nat) (t : IntText) : Option (BitVec width) :=
  if t.composed then
    some (BitVec.ofNat width (if width ≤ 64 then t.number % 2 ^ 64 else t.number))
  else
    t.cppNumber.bind fun n =>
      if n < 2 ^ 64 then
        some (if width ≤ 64 then BitVec.ofNat width n
          else BitVec.ofInt width (BitVec.ofNat 64 n).toInt)
      else none

theorem cppNumber_le {t : IntText} {n : Nat} (h : t.cppNumber = some n) : n ≤ t.number := by
  rw [cppNumber] at h
  split_ifs at h with hoctal hdigits
  · have hradix : t.radix = .decimal := by
      simp only [octal, Bool.and_eq_true, beq_iff_eq] at hoctal
      exact hoctal.1.1
    rw [← Option.some.inj h, number, hradix]
    exact Nat.ofDigits_monotone _ (by decide)
  · exact (Option.some.inj h).symm.le

/-- A literal whose number is a signed one of 64 bits, or of a solver of 64 bits. -/
theorem solverValue_eq {width : Nat} {t : IntText} (hnumber : t.number < 2 ^ 64)
    (hwide : 64 < width → t.number < 2 ^ 63) :
    t.solverValue width = t.cppNumber.map (BitVec.ofNat width) := by
  cases hcomposed : t.composed with
  | true =>
      have hoctal : t.octal = false := by
        simp only [composed, Bool.and_eq_true, beq_iff_eq] at hcomposed
        simp [octal, hcomposed.1]
      rw [solverValue, if_pos hcomposed, cppNumber, hoctal, Nat.mod_eq_of_lt hnumber, ite_self]
      rfl
  | false =>
      rw [solverValue, hcomposed]
      cases hcpp : t.cppNumber with
      | none => rfl
      | some n =>
          have hle := cppNumber_le hcpp
          have hlt : n < 2 ^ 64 := by omega
          change (if n < 2 ^ 64 then _ else _) = some (BitVec.ofNat width n)
          rw [if_pos hlt]
          congr 1
          split_ifs with hnarrow
          · rfl
          · have hsmall := hwide (by omega)
            have hrange : InRange 63 (n : Int) := ⟨by omega, by omega⟩
            have hread : (BitVec.ofNat 64 n).toInt = n := by
              rw [← BitVec.ofInt_natCast, BitVec.toInt_ofInt]
              exact hrange.bmod_eq
            rw [hread, BitVec.ofInt_natCast]

end IntText

/-! ### Bounds -/

/-- A bound of a range.  What is no literal with signs and parentheses is left open. -/
inductive BoundExpr (Other : Type) where
  | int (text : IntText)
  | paren (inner : BoundExpr Other)
  | neg (inner : BoundExpr Other)
  | other (expr : Other)
deriving DecidableEq, Repr

namespace BoundExpr

variable {Other : Type}

/-- The number that the bound is in the source. -/
def value (env : Other → Int) : BoundExpr Other → Int
  | .int t => t.number
  | .paren e => e.value env
  | .neg e => -e.value env
  | .other x => env x

def isNeg : BoundExpr Other → Bool
  | .neg _ => true
  | _ => false

/-- The number that the emitted text of a literal bound denotes; two minus signs in a row are
the decrement operator. -/
def cppValue : BoundExpr Other → Option Int
  | .int t => t.cppNumber.map Int.ofNat
  | .paren e => e.cppValue
  | .neg e => if e.isNeg then none else e.cppValue.map (- ·)
  | .other _ => none

/-- `emit_constraint_expr_w` on a bound. -/
def solverValue {width : Nat} (env : Other → Option (BitVec width)) :
    BoundExpr Other → Option (BitVec width)
  | .int t => t.solverValue width
  | .paren e => e.solverValue env
  | .neg e => if e.isNeg then none else (e.solverValue env).map (- ·)
  | .other x => env x

/-- `bound` of `literal_range_preference` -/
def bound (solverWidth : Nat) : BoundExpr Other → Option Int
  | .int t => t.parseIntStr.bind fun v =>
      if 64 < solverWidth ∧ 2 ^ 63 - 1 < v then none else some (v : Int)
  | .paren e => e.bound solverWidth
  | .neg e => (e.bound solverWidth).map (- ·)
  | .other _ => none

/-- A number that is not further from zero than another, on the same side. -/
def Within (c r : Int) : Prop := 0 ≤ c ∧ c ≤ r ∨ r ≤ c ∧ c ≤ 0

theorem Within.neg {c r : Int} (h : Within c r) : Within (-c) (-r) := by
  rcases h with h | h
  · exact Or.inr (by omega)
  · exact Or.inl (by omega)

/-- Where the preference reads a number, the solver gets the number that C++ reads. -/
theorem solverValue_of_bound {width : Nat} (env : Other → Option (BitVec width))
    {e : BoundExpr Other} {r : Int} (h : e.bound width = some r) :
    e.solverValue env = e.cppValue.map (BitVec.ofInt width) ∧
      ∀ c, e.cppValue = some c → Within c r := by
  induction e generalizing r with
  | int t =>
      rw [bound, IntText.parseIntStr] at h
      split_ifs at h with hnumber
      · rw [Option.bind_some] at h
        split_ifs at h with hlarge
        have hr := Option.some.inj h
        refine ⟨?_, ?_⟩
        · rw [solverValue, IntText.solverValue_eq hnumber (by omega), cppValue, Option.map_map]
          rfl
        · intro c hc
          rw [cppValue, Option.map_eq_some_iff] at hc
          obtain ⟨n, hn, rfl⟩ := hc
          have hle := IntText.cppNumber_le hn
          rw [← hr]
          exact Or.inl ⟨Int.natCast_nonneg n, Int.ofNat_le.mpr hle⟩
      · cases h
  | paren e ih => exact ih h
  | neg e ih =>
      rw [bound, Option.map_eq_some_iff] at h
      obtain ⟨r, hr, rfl⟩ := h
      obtain ⟨hvalue, hwithin⟩ := ih hr
      rw [solverValue, cppValue]
      split_ifs with hneg
      · exact ⟨rfl, nofun⟩
      · refine ⟨?_, ?_⟩
        · rw [hvalue, Option.map_map, Option.map_map]
          congr 1
          funext c
          exact (BitVec.ofInt_neg ..).symm
        · intro c hc
          rw [Option.map_eq_some_iff] at hc
          obtain ⟨c, hc, rfl⟩ := hc
          exact (hwithin c hc).neg
  | other x => cases h

/-- What the preference reads is the number of the source. -/
theorem value_of_bound {width : Nat} (env : Other → Int) {e : BoundExpr Other} {r : Int}
    (h : e.bound width = some r) : e.value env = r := by
  induction e generalizing r with
  | int t =>
      rw [bound, IntText.parseIntStr] at h
      split_ifs at h with hnumber
      · rw [Option.bind_some] at h
        split_ifs at h
        exact Option.some.inj h
      · cases h
  | paren e ih => exact ih h
  | neg e ih =>
      rw [bound, Option.map_eq_some_iff] at h
      obtain ⟨r, hr, rfl⟩ := h
      rw [value, ih hr]
  | other x => cases h

end BoundExpr

/-! ### Fields -/

/-- A scalar field of a record, with its `[range]`, the number of variants of an enumeration
and for how many of them a label is known. -/
structure RangedField (Other : Type) where
  width : Nat
  signed : Bool
  range : Option (BoundExpr Other × BoundExpr Other)
  enumVariants : Option Nat
  enumVariantLabels : Nat
deriving DecidableEq, Repr

namespace RangedField

variable {Other : Type} (f : RangedField Other)

/-- The least and the greatest number of the type. -/
def least : Int := if f.signed then -2 ^ (f.width - 1) else 0

def greatest : Int := if f.signed then 2 ^ (f.width - 1) - 1 else 2 ^ f.width - 1

def InType (v : Int) : Prop := 0 < f.width ∧ f.least ≤ v ∧ v ≤ f.greatest

/-- `literal_range_preference`: the interval from which the value is drawn. -/
def literalRangePreference (solverWidth : Nat) : Option (Int × Int) := do
  let (lo, hi) ← f.range
  let lo ← lo.bound solverWidth
  let hi ← hi.bound solverWidth
  if f.width = 0 then none
  else if f.signed then
    if 64 < f.width ∨ lo < -2 ^ 63 ∨ 2 ^ 63 - 1 < hi then none
    else
      let half : Int := 2 ^ (f.width - 1)
      let lo := max lo (-half)
      let hi := min hi (half - 1)
      if hi < lo then none else some (lo, hi)
  else
    if lo < 0 ∨ 2 ^ 64 - 1 < hi then none
    else
      let greatest : Int := if 64 ≤ f.width then 2 ^ 64 - 1 else 2 ^ f.width - 1
      let hi := min hi greatest
      if hi < lo then none else some (lo, hi)

/-- `emit_solver_range_constraint_expr`: what is asserted of the solver variable. -/
def rangeConstraint {width : Nat} (env : Other → Option (BitVec width)) (lo hi : BoundExpr Other) :
    Option (BitVec width → Bool) := do
  let lo ← lo.solverValue env
  let hi ← hi.solverValue env
  return if f.signed then fun z => lo.sle z && z.sle hi else fun z => lo.ule z && z.ule hi

/-- The interval is not empty and has exactly the values of the type for which the asserted
constraint holds. -/
def PreferenceExact {width : Nat} (env : Other → Option (BitVec width)) : Prop :=
  ∀ lo hi, f.literalRangePreference width = some (lo, hi) → lo ≤ hi ∧
    ∃ bounds constraint, f.range = some bounds ∧
      f.rangeConstraint env bounds.1 bounds.2 = some constraint ∧
      ∀ v, lo ≤ v ∧ v ≤ hi ↔ f.InType v ∧ constraint (BitVec.ofInt width v) = true

/-- The text of each bound denotes, up to the limits of the type, the number of the source. -/
def ReadAlike (width : Nat) : Prop :=
  ∀ lo hi rlo rhi, f.range = some (lo, hi) → lo.bound width = some rlo →
    hi.bound width = some rhi → (f.literalRangePreference width).isSome →
    ∃ clo chi, lo.cppValue = some clo ∧ hi.cppValue = some chi ∧
      max clo f.least = max rlo f.least ∧ min chi f.greatest = min rhi f.greatest

/-- What is known when an interval is answered. -/
structure Answered (solverWidth : Nat) (lo hi : BoundExpr Other) (rlo rhi first last : Int) :
    Prop where
  range : f.range = some (lo, hi)
  lower : lo.bound solverWidth = some rlo
  upper : hi.bound solverWidth = some rhi
  pos : 0 < f.width
  ordered : first ≤ last
  first_eq : first = max rlo f.least
  last_eq : last = min rhi f.greatest
  carrier : if f.signed then f.width ≤ 64 ∧ -2 ^ 63 ≤ rlo ∧ rhi < 2 ^ 63
    else 0 ≤ rlo ∧ rhi < 2 ^ 64

variable {f}

theorem answered_of_preference {solverWidth : Nat} {first last : Int}
    (h : f.literalRangePreference solverWidth = some (first, last)) :
    ∃ lo hi rlo rhi, f.Answered solverWidth lo hi rlo rhi first last := by
  simp only [literalRangePreference, Option.bind_eq_bind, Option.bind_eq_some_iff] at h
  obtain ⟨⟨lo, hi⟩, hrange, rlo, hlo, rhi, hhi, hrest⟩ := h
  refine ⟨lo, hi, rlo, rhi, ?_⟩
  by_cases hwidth : f.width = 0
  · rw [if_pos hwidth] at hrest
    cases hrest
  rw [if_neg hwidth] at hrest
  by_cases hsigned : f.signed = true
  · have hleast : f.least = -2 ^ (f.width - 1) := if_pos hsigned
    have hgreatest : f.greatest = 2 ^ (f.width - 1) - 1 := if_pos hsigned
    rw [if_pos hsigned] at hrest
    split_ifs at hrest with hcarrier hempty
    obtain ⟨rfl, rfl⟩ := Prod.mk.inj (Option.some.inj hrest)
    refine ⟨hrange, hlo, hhi, by omega, by omega, by rw [hleast], by rw [hgreatest], ?_⟩
    rw [if_pos hsigned]
    omega
  · have hleast : f.least = 0 := if_neg hsigned
    have hgreatest : f.greatest = 2 ^ f.width - 1 := if_neg hsigned
    rw [if_neg hsigned] at hrest
    split_ifs at hrest with hcarrier hwide hempty hempty
    · obtain ⟨rfl, rfl⟩ := Prod.mk.inj (Option.some.inj hrest)
      have hpow : (2 : Int) ^ 64 ≤ 2 ^ f.width := by
        exact_mod_cast Nat.pow_le_pow_right (by decide : 0 < 2) hwide
      refine ⟨hrange, hlo, hhi, by omega, by omega, by omega, by omega, ?_⟩
      rw [if_neg hsigned]
      omega
    · obtain ⟨rfl, rfl⟩ := Prod.mk.inj (Option.some.inj hrest)
      refine ⟨hrange, hlo, hhi, by omega, by omega, by omega, by rw [hgreatest], ?_⟩
      rw [if_neg hsigned]
      omega

theorem pow_le_pow_of_le {m n : Nat} (h : m ≤ n) : (2 : Int) ^ m ≤ 2 ^ n := by
  exact_mod_cast Nat.pow_le_pow_right (by decide : 0 < 2) h

theorem toInt_ofInt_of_le {k width : Nat} {x : Int} (hk : k < width) (h : InRange k x) :
    (BitVec.ofInt width x).toInt = x := by
  obtain ⟨j, rfl⟩ : ∃ j, width = j + 1 := ⟨width - 1, by omega⟩
  have hrange : InRange j x := h.mono (by omega)
  rw [BitVec.toInt_ofInt, hrange.bmod_eq]

theorem toNat_ofInt_of_lt {k width : Nat} {x : Int} (hk : k ≤ width) (hlow : 0 ≤ x)
    (hhigh : x < 2 ^ k) : ((BitVec.ofInt width x).toNat : Int) = x := by
  have hpow := pow_le_pow_of_le hk
  rw [BitVec.toNat_ofInt]
  push_cast
  rw [Int.emod_eq_of_lt hlow (by omega), Int.toNat_of_nonneg hlow]

/-- The values of the type for which a constraint between numbers of 64 bits holds. -/
theorem constraint_iff {width : Nat} {clo chi v : Int} (hwidth : f.width ≤ width)
    (hwidth' : 64 ≤ width) (hv : f.InType v)
    (hcarrier : if f.signed then InRange 63 clo ∧ InRange 63 chi
      else 0 ≤ clo ∧ clo < 2 ^ 64 ∧ 0 ≤ chi ∧ chi < 2 ^ 64) :
    (if f.signed then
        fun z => (BitVec.ofInt width clo).sle z && z.sle (BitVec.ofInt width chi)
      else fun z => (BitVec.ofInt width clo).ule z && z.ule (BitVec.ofInt width chi))
        (BitVec.ofInt width v) = true ↔ clo ≤ v ∧ v ≤ chi := by
  obtain ⟨hpos, hlow, hhigh⟩ := hv
  rw [least] at hlow
  rw [greatest] at hhigh
  split_ifs at hcarrier hlow hhigh ⊢
  · have hrange : InRange (f.width - 1) v := ⟨hlow, by omega⟩
    rw [Bool.and_eq_true, BitVec.sle_iff_toInt_le, BitVec.sle_iff_toInt_le,
      toInt_ofInt_of_le (by omega) hcarrier.1, toInt_ofInt_of_le (by omega) hcarrier.2,
      toInt_ofInt_of_le (by omega) hrange]
  · have hlower := toNat_ofInt_of_lt hwidth' hcarrier.1 hcarrier.2.1
    have hupper := toNat_ofInt_of_lt hwidth' hcarrier.2.2.1 hcarrier.2.2.2
    have hvalue := toNat_ofInt_of_lt hwidth hlow (by omega)
    rw [Bool.and_eq_true, BitVec.ule_eq_decide, BitVec.ule_eq_decide, decide_eq_true_eq,
      decide_eq_true_eq]
    omega

/-- Bounds that are not further from zero than answered ones are numbers of 64 bits too. -/
theorem Answered.carrier_of_within {width : Nat} {lo hi : BoundExpr Other}
    {rlo rhi first last clo chi : Int} (h : f.Answered width lo hi rlo rhi first last)
    (hlo : BoundExpr.Within clo rlo) (hhi : BoundExpr.Within chi rhi) :
    if f.signed then InRange 63 clo ∧ InRange 63 chi
      else 0 ≤ clo ∧ clo < 2 ^ 64 ∧ 0 ≤ chi ∧ chi < 2 ^ 64 := by
  have hcarrier := h.carrier
  have hordered := h.ordered
  have hfirst := h.first_eq
  have hlast := h.last_eq
  have hpos := h.pos
  rw [least] at hfirst
  rw [greatest] at hlast
  split_ifs at hcarrier hfirst hlast ⊢
  · have hpow := pow_le_pow_of_le (by omega : f.width - 1 ≤ 63)
    rw [BoundExpr.Within] at hlo hhi
    rw [InRange, InRange]
    omega
  · rw [BoundExpr.Within] at hlo hhi
    omega

/-- Intervals within the limits of the type are the same set when their ends are. -/
theorem interval_iff {least greatest first last clo chi : Int} (hordered : first ≤ last)
    (hleast : least ≤ first) (hgreatest : last ≤ greatest) :
    (∀ v, first ≤ v ∧ v ≤ last ↔ (least ≤ v ∧ v ≤ greatest) ∧ clo ≤ v ∧ v ≤ chi) ↔
      max clo least = first ∧ min chi greatest = last := by
  constructor
  · intro h
    have hfirst := (h first).mp ⟨Int.le_refl first, hordered⟩
    have hlast := (h last).mp ⟨hordered, Int.le_refl last⟩
    have hlower := (h (max clo least)).mpr (by omega)
    have hupper := (h (min chi greatest)).mpr (by omega)
    omega
  · rintro ⟨hfirst, hlast⟩ v
    omega

/-- The constraint that is asserted when an interval is answered. -/
theorem Answered.rangeConstraint_iff {width : Nat} {lo hi : BoundExpr Other}
    {rlo rhi first last : Int} (h : f.Answered width lo hi rlo rhi first last)
    (env : Other → Option (BitVec width)) {constraint : BitVec width → Bool} :
    f.rangeConstraint env lo hi = some constraint ↔
      ∃ clo chi, lo.cppValue = some clo ∧ hi.cppValue = some chi ∧
        (if f.signed then
            fun z => (BitVec.ofInt width clo).sle z && z.sle (BitVec.ofInt width chi)
          else fun z => (BitVec.ofInt width clo).ule z && z.ule (BitVec.ofInt width chi)) =
          constraint := by
  rw [rangeConstraint, (BoundExpr.solverValue_of_bound env h.lower).1,
    (BoundExpr.solverValue_of_bound env h.upper).1]
  cases lo.cppValue with
  | none => simp
  | some clo =>
      cases hi.cppValue with
      | none => simp
      | some chi => simp [pure]

/-- The interval is exact when its ends are those that C++ reads. -/
theorem Answered.exact_iff {width : Nat} {lo hi : BoundExpr Other}
    {rlo rhi first last clo chi : Int} (h : f.Answered width lo hi rlo rhi first last)
    (hwidth : f.width ≤ width) (hwidth' : 64 ≤ width) (hlo : lo.cppValue = some clo)
    (hhi : hi.cppValue = some chi) (env : Other → Option (BitVec width)) :
    (∀ v, first ≤ v ∧ v ≤ last ↔ f.InType v ∧
        (if f.signed then
            fun z => (BitVec.ofInt width clo).sle z && z.sle (BitVec.ofInt width chi)
          else fun z => (BitVec.ofInt width clo).ule z && z.ule (BitVec.ofInt width chi))
          (BitVec.ofInt width v) = true) ↔
      max clo f.least = max rlo f.least ∧ min chi f.greatest = min rhi f.greatest := by
  have hcarrier := h.carrier_of_within ((BoundExpr.solverValue_of_bound env h.lower).2 clo hlo)
    ((BoundExpr.solverValue_of_bound env h.upper).2 chi hhi)
  rw [← h.first_eq, ← h.last_eq, ← interval_iff h.ordered (by rw [h.first_eq]; omega)
    (by rw [h.last_eq]; omega)]
  refine forall_congr' fun v => iff_congr Iff.rfl ?_
  constructor
  · rintro ⟨hv, hconstraint⟩
    exact ⟨hv.2, (constraint_iff hwidth hwidth' hv hcarrier).mp hconstraint⟩
  · rintro ⟨hv, hbetween⟩
    exact ⟨⟨h.pos, hv⟩, (constraint_iff hwidth hwidth' ⟨h.pos, hv⟩ hcarrier).mpr hbetween⟩

theorem preferenceExact_iff {width : Nat} (env : Other → Option (BitVec width))
    (hwidth : f.width ≤ width) (hwidth' : 64 ≤ width) :
    f.PreferenceExact env ↔ f.ReadAlike width := by
  constructor
  · intro hexact lo hi rlo rhi hrange hlo hhi hsome
    obtain ⟨⟨first, last⟩, hpref⟩ := Option.isSome_iff_exists.mp hsome
    obtain ⟨lo', hi', rlo', rhi', hanswered⟩ := answered_of_preference hpref
    obtain ⟨rfl, rfl⟩ := Prod.mk.inj (Option.some.inj (hanswered.range.symm.trans hrange))
    obtain rfl := Option.some.inj (hanswered.lower.symm.trans hlo)
    obtain rfl := Option.some.inj (hanswered.upper.symm.trans hhi)
    obtain ⟨-, bounds, constraint, hbounds, hconstraint, hset⟩ := hexact first last hpref
    obtain rfl := Option.some.inj (hbounds.symm.trans hrange)
    obtain ⟨clo, chi, hclo, hchi, rfl⟩ := (hanswered.rangeConstraint_iff env).mp hconstraint
    obtain ⟨hfirst, hlast⟩ := (hanswered.exact_iff hwidth hwidth' hclo hchi env).mp hset
    exact ⟨clo, chi, hclo, hchi, hfirst, hlast⟩
  · intro halike first last hpref
    obtain ⟨lo, hi, rlo, rhi, hanswered⟩ := answered_of_preference hpref
    obtain ⟨clo, chi, hclo, hchi, hfirst, hlast⟩ := halike lo hi rlo rhi hanswered.range
      hanswered.lower hanswered.upper (Option.isSome_iff_exists.mpr ⟨_, hpref⟩)
    refine ⟨hanswered.ordered, (lo, hi), _, hanswered.range,
      (hanswered.rangeConstraint_iff env).mpr ⟨clo, chi, hclo, hchi, rfl⟩, ?_⟩
    exact (hanswered.exact_iff hwidth hwidth' hclo hchi env).mpr ⟨hfirst, hlast⟩

end RangedField

end Harc.FieldRanges
