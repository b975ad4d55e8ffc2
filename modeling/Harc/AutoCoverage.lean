import Harc.FieldRanges
import Harc.WordLists

/-!
The coverage goals that are made for a field without being asked for: the values of an
enumeration, the ends of the range, or the ends of the type with walking bits.
-/

namespace Harc.AutoCoverage

open Harc.WordLists
open Harc.TwosComplement
open Harc.FieldRanges

/-! ### Words -/

def wordCount (width : Nat) : Nat := max 1 ((width + 31) / 32)

/-- `unsigned_max_words` -/
def unsignedMaxWords (width : Nat) : List (BitVec 32) :=
  let words := List.replicate (wordCount width) (BitVec.allOnes 32)
  if width % 32 ≠ 0 then
    words.set (wordCount width - 1) (BitVec.ofNat 32 (2 ^ (width % 32) - 1))
  else words

/-- A single bit. -/
def bitWords (count bit : Nat) : List (BitVec 32) :=
  (List.replicate count 0#32).set (bit / 32) (1#32 <<< (bit % 32))

/-- `signed_min_words` -/
def signedMinWords (width : Nat) : List (BitVec 32) := bitWords (wordCount width) (width - 1)

/-- `signed_max_words` -/
def signedMaxWords (width : Nat) : List (BitVec 32) :=
  (unsignedMaxWords width).modify ((width - 1) / 32) (· &&& ~~~(1#32 <<< ((width - 1) % 32)))

@[simp] theorem length_unsignedMaxWords (width : Nat) :
    (unsignedMaxWords width).length = wordCount width := by
  rw [unsignedMaxWords]
  split_ifs <;> simp

@[simp] theorem length_bitWords (count bit : Nat) : (bitWords count bit).length = count := by
  simp [bitWords]

theorem wordCount_eq {width : Nat} (hpos : 0 < width) : wordCount width = (width + 31) / 32 := by
  rw [wordCount]
  omega

theorem testBit_unsignedMaxWords {width : Nat} (hpos : 0 < width) (i : Nat) :
    (value (unsignedMaxWords width)).testBit i = decide (i < width) := by
  have hcount := wordCount_eq hpos
  have hbit : i % 32 < 32 := Nat.mod_lt i (by decide)
  rw [testBit_value (by decide)]
  rcases Nat.lt_or_ge (i / 32) (wordCount width) with hword | hword
  · have hones : ((List.replicate (wordCount width) (BitVec.allOnes 32))[i / 32]?).getD 0#32 =
        BitVec.allOnes 32 := by
      rw [List.getElem?_replicate, if_pos hword]
      rfl
    rw [unsignedMaxWords]
    split_ifs with hrem
    · rw [List.getElem?_set, List.length_replicate]
      split_ifs with hlast
      · rw [Option.getD_some, BitVec.getLsbD_ofNat, Nat.testBit_two_pow_sub_one]
        simp only [hbit, decide_true, Bool.true_and]
        exact decide_eq_decide.mpr (by omega)
      · omega
      · rw [hones, BitVec.getLsbD_allOnes]
        exact decide_eq_decide.mpr (by omega)
    · rw [hones, BitVec.getLsbD_allOnes]
      exact decide_eq_decide.mpr (by omega)
  · rw [List.getElem?_eq_none (by rw [length_unsignedMaxWords]; exact hword), Option.getD_none,
      BitVec.getLsbD_zero]
    exact (decide_eq_false (by omega)).symm

theorem testBit_bitWords {count bit : Nat} (hbit : bit / 32 < count) (i : Nat) :
    (value (bitWords count bit)).testBit i = decide (i = bit) := by
  have hmod : i % 32 < 32 := Nat.mod_lt i (by decide)
  have hmod' : bit % 32 < 32 := Nat.mod_lt bit (by decide)
  rw [testBit_value (by decide), bitWords, List.getElem?_set, List.length_replicate]
  split_ifs with hword
  · rw [Option.getD_some, BitVec.getLsbD_shiftLeft, BitVec.getLsbD_one]
    by_cases heq : i = bit
    · subst heq
      simp [hmod]
    · have hne : i % 32 ≠ bit % 32 := by omega
      rcases Nat.lt_or_gt_of_ne hne with hlt | hgt
      · simp [heq, hlt]
      · have hpos : i % 32 - bit % 32 ≠ 0 := by omega
        simp [heq, hpos]
  · have hne : i ≠ bit := by
      rintro rfl
      exact hword rfl
    have hzero : ((List.replicate count 0#32)[i / 32]?).getD 0#32 = 0#32 := by
      rw [List.getElem?_replicate]
      split_ifs <;> rfl
    rw [hzero, BitVec.getLsbD_zero]
    exact (decide_eq_false hne).symm

/-- A change of one bit, by a function that keeps the others. -/
theorem testBit_modify {words : List (BitVec 32)} {bit : Nat} {change : BitVec 32 → BitVec 32}
    {g : Bool → Bool} (hbit : bit / 32 < words.length)
    (hchange : ∀ x i, i < 32 → (change x).getLsbD i =
      if i = bit % 32 then g (x.getLsbD i) else x.getLsbD i) (i : Nat) :
    (value (words.modify (bit / 32) change)).testBit i =
      if i = bit then g ((value words).testBit i) else (value words).testBit i := by
  have hmod : i % 32 < 32 := Nat.mod_lt i (by decide)
  rw [testBit_value (by decide), testBit_value (by decide), List.getElem?_modify]
  by_cases hword : bit / 32 = i / 32
  · have heq : i = bit ↔ i % 32 = bit % 32 := by omega
    rw [List.getElem?_eq_getElem (hword ▸ hbit)]
    simp only [hword, if_true, Option.map_eq_map, Option.map_some, Option.getD_some]
    rw [hchange _ _ hmod, if_congr heq rfl rfl]
  · have hne : i ≠ bit := fun h => hword (h ▸ rfl)
    simp [hword, hne]

theorem value_bitWords {count bit : Nat} (hbit : bit / 32 < count) :
    value (bitWords count bit) = 2 ^ bit := by
  refine Nat.eq_of_testBit_eq fun i => ?_
  rw [testBit_bitWords hbit, Nat.testBit_two_pow]
  exact decide_eq_decide.mpr eq_comm

theorem value_signedMaxWords {width : Nat} (hpos : 0 < width) :
    value (signedMaxWords width) = 2 ^ (width - 1) - 1 := by
  have hcount := wordCount_eq hpos
  have hclear : ∀ (x : BitVec 32) i, i < 32 →
      (x &&& ~~~(1#32 <<< ((width - 1) % 32))).getLsbD i =
        if i = (width - 1) % 32 then false else x.getLsbD i := by
    intro x i hi
    rw [BitVec.getLsbD_and, BitVec.getLsbD_not, BitVec.getLsbD_shiftLeft, BitVec.getLsbD_one]
    split_ifs with heq
    · simp [heq]
    · rcases Nat.lt_or_gt_of_ne heq with hlt | hgt
      · simp [hi, hlt]
      · have hne : i - (width - 1) % 32 ≠ 0 := by omega
        simp [hi, hne]
  refine Nat.eq_of_testBit_eq fun i => ?_
  rw [signedMaxWords, testBit_modify (g := fun _ => false)
    (by rw [length_unsignedMaxWords]; omega) hclear,
    testBit_unsignedMaxWords hpos, Nat.testBit_two_pow_sub_one]
  split_ifs with heq
  · exact (decide_eq_false (by omega)).symm
  · exact decide_eq_decide.mpr (by omega)

/-! ### Goals -/

/-- A goal: the number that its C++ text denotes, and its words. -/
structure AutoCoverageValue where
  cExpr : Int
  words : List (BitVec 32)
deriving DecidableEq, Repr

namespace AutoCoverageValue

def unsigned (v : Nat) : AutoCoverageValue :=
  ⟨v, [BitVec.ofNat 32 v, BitVec.ofNat 32 (v / 2 ^ 32)]⟩

def signed (v : Int) : AutoCoverageValue :=
  ⟨v, [BitVec.ofInt 32 v, BitVec.ofInt 32 (v / 2 ^ 32)]⟩

def fromWords (words : List (BitVec 32)) : AutoCoverageValue := ⟨value words, words⟩

def variant (labels i : Nat) : AutoCoverageValue :=
  if i < labels then ⟨i, [BitVec.ofNat 32 i, 0]⟩ else unsigned i

end AutoCoverageValue

open AutoCoverageValue

/-- `push_auto_coverage_value_unique` -/
def pushUnique (values : List AutoCoverageValue) (x : AutoCoverageValue) :
    List AutoCoverageValue :=
  if values.any fun v => v.words = x.words then values else values ++ [x]

def walkingBitCap : Nat := 16

/-- `walking_auto_coverage_bit_positions` -/
def walkingBitPositions (width : Nat) : List Nat :=
  if width = 0 then []
  else
    let count := min width walkingBitCap
    if count = width then List.range width
    else
      let maxPos := width - 1
      let maxIdx := count - 1
      (List.range count).foldl (fun positions i =>
        let pos := (i * maxPos + maxIdx / 2) / maxIdx
        if pos ∈ positions then positions else positions ++ [pos]) []

/-- `fold_int_literal` -/
def foldIntLiteral {Other : Type} : BoundExpr Other → Option Nat
  | .int t => t.parseIntStr
  | _ => none

/-- `fold_signed_int_literal` -/
def foldSignedIntLiteral {Other : Type} : BoundExpr Other → Option Int
  | .int t => t.parseIntStr.bind fun v => if v ≤ 2 ^ 63 - 1 then some (v : Int) else none
  | .neg e => (foldIntLiteral e).bind fun v => if v ≤ 2 ^ 63 - 1 then some (-v : Int) else none
  | .paren e => foldSignedIntLiteral e
  | .other _ => none

section Goals

variable {Other : Type} (f : RangedField Other)

/-- `natural_auto_coverage_endpoints` -/
def naturalEndpoints : List AutoCoverageValue :=
  if f.width = 0 then []
  else if f.signed then
    if 64 < f.width then [fromWords (signedMinWords f.width), fromWords (signedMaxWords f.width)]
    else
      let shift := f.width - 1
      let lo : Int := if 63 ≤ shift then -2 ^ 63 else -2 ^ shift
      let hi : Int := if 63 ≤ shift then 2 ^ 63 - 1 else 2 ^ shift - 1
      if hi ≠ lo then [signed lo, signed hi] else [signed lo]
  else
    let hiWords := unsignedMaxWords f.width
    let ends := pushUnique (pushUnique [] (fromWords (List.replicate hiWords.length 0#32)))
      (fromWords hiWords)
    (walkingBitPositions f.width).foldl (fun values bit =>
      pushUnique (pushUnique values (fromWords (bitWords hiWords.length bit)))
        (fromWords (hiWords.modify (bit / 32) (· ^^^ 1#32 <<< (bit % 32))))) ends

/-- `auto_coverage_values` -/
def autoCoverageValues : List AutoCoverageValue :=
  match f.enumVariants with
  | some n => (List.range n).map (variant f.enumVariantLabels)
  | none =>
      if f.width = 1 ∧ f.signed = false then [unsigned 0, unsigned 1]
      else
        match f.range with
        | some (lo, hi) =>
            if f.signed then
              match foldSignedIntLiteral lo, foldSignedIntLiteral hi with
              | some lo, some hi => if hi ≠ lo then [signed lo, signed hi] else [signed lo]
              | _, _ => []
            else
              match foldIntLiteral lo, foldIntLiteral hi with
              | some lo, some hi => if hi ≠ lo then [unsigned lo, unsigned hi] else [unsigned lo]
              | _, _ => []
        | none => naturalEndpoints f

/-- The value of the field that a goal asks for.  The text of a goal of a wide signed field is
its pattern. -/
def fieldValue (x : AutoCoverageValue) : Int :=
  if f.enumVariants.isNone ∧ f.signed ∧ 64 < f.width then (BitVec.ofInt f.width x.cExpr).toInt
  else x.cExpr

/-- The values of the declared type; those of an enumeration are its variants. -/
def InDomain (v : Int) : Prop :=
  match f.enumVariants with
  | some n => 0 ≤ v ∧ v < n
  | none => f.InType v

/-- The field can have the value under its type and its `[range]`. -/
def Possible (env : Other → Int) (v : Int) : Prop :=
  InDomain f v ∧ ∀ lo hi, f.range = some (lo, hi) → lo.value env ≤ v ∧ v ≤ hi.value env

/-- The goals are different values of the field, and it can have each of them. -/
def CoverageExact (env : Other → Int) : Prop :=
  ((autoCoverageValues f).map (fieldValue f)).Nodup ∧
    ∀ x ∈ autoCoverageValues f, Possible f env (fieldValue f x)

def Folds (e : BoundExpr Other) : Prop :=
  if f.signed then (foldSignedIntLiteral e).isSome else (foldIntLiteral e).isSome

/-- The range leaves the goals possible: all variants, both values of one bit, or its own ends,
which are ordered and in the type. -/
def RangeFits (env : Other → Int) : Prop :=
  ∀ lo hi, f.range = some (lo, hi) →
    match f.enumVariants with
    | some n => 0 < n → lo.value env ≤ 0 ∧ (n : Int) - 1 ≤ hi.value env
    | none =>
        if f.width = 1 ∧ f.signed = false then lo.value env ≤ 0 ∧ 1 ≤ hi.value env
        else Folds f lo → Folds f hi → lo.value env ≤ hi.value env ∧
          f.InType (lo.value env) ∧ f.InType (hi.value env)

end Goals

/-! ### Walking bits -/

/-- The position that is interpolated for an index. -/
def spreadPosition (width i : Nat) : Nat := (i * (width - 1) + 7) / 15

theorem spreadPosition_lt {width i j : Nat} (hwidth : 16 < width) (h : i < j) :
    spreadPosition width i < spreadPosition width j := by
  have hmul : (i + 1) * (width - 1) ≤ j * (width - 1) := Nat.mul_le_mul_right _ h
  rw [Nat.add_mul, Nat.one_mul] at hmul
  rw [spreadPosition, spreadPosition]
  omega

/-- Interpolated positions are never the same, so all of them are kept. -/
theorem walkingBitPositions_of_lt {width : Nat} (hwidth : 16 < width) :
    walkingBitPositions width = (List.range 16).map (spreadPosition width) := by
  have hcount : min width walkingBitCap = 16 := Nat.min_eq_right (Nat.le_of_lt hwidth)
  have hkeep : ∀ n, (List.range n).foldl (fun positions i =>
      let pos := (i * (width - 1) + (16 - 1) / 2) / (16 - 1)
      if pos ∈ positions then positions else positions ++ [pos]) [] =
        (List.range n).map (spreadPosition width) := by
    intro n
    induction n with
    | zero => rfl
    | succ n ih =>
        have hnew : spreadPosition width n ∉ (List.range n).map (spreadPosition width) := by
          intro hmem
          obtain ⟨i, hi, heq⟩ := List.mem_map.mp hmem
          exact Nat.ne_of_lt (spreadPosition_lt hwidth (List.mem_range.mp hi)) heq
        rw [List.range_succ, List.foldl_append, ih, List.map_append]
        exact if_neg hnew
  rw [walkingBitPositions, if_neg (by omega)]
  simp only [hcount]
  rw [if_neg (by omega)]
  exact hkeep 16

/-- Strictly increasing positions of the word, its lowest and its highest bit among them. -/
structure Walks (width : Nat) (positions : List Nat) : Prop where
  increasing : positions.Pairwise (· < ·)
  within : ∀ bit ∈ positions, bit < width
  lowest : 0 ∈ positions
  highest : width - 1 ∈ positions

theorem walks {width : Nat} (hpos : 0 < width) : Walks width (walkingBitPositions width) := by
  rcases Nat.lt_or_ge 16 width with hlarge | hsmall
  · rw [walkingBitPositions_of_lt hlarge]
    refine ⟨?_, ?_, ?_, ?_⟩
    · rw [List.pairwise_map]
      exact List.pairwise_lt_range.imp fun h => spreadPosition_lt hlarge h
    · intro bit hbit
      obtain ⟨i, hi, rfl⟩ := List.mem_map.mp hbit
      have hmul : i * (width - 1) ≤ 15 * (width - 1) :=
        Nat.mul_le_mul_right _ (Nat.le_of_lt_succ (List.mem_range.mp hi))
      rw [spreadPosition]
      omega
    · exact List.mem_map.mpr ⟨0, by decide, by rw [spreadPosition]; omega⟩
    · exact List.mem_map.mpr ⟨15, by decide, by rw [spreadPosition]; omega⟩
  · have hcount : min width walkingBitCap = width := Nat.min_eq_left hsmall
    have hall : walkingBitPositions width = List.range width := by
      rw [walkingBitPositions, if_neg (by omega)]
      exact if_pos hcount
    rw [hall]
    exact ⟨List.pairwise_lt_range, fun bit hbit => List.mem_range.mp hbit,
      List.mem_range.mpr hpos, List.mem_range.mpr (by omega)⟩

/-! ### Goals of unsigned types -/

/-- Goals with different words, each of a number of the type. -/
structure Spread (width : Nat) (values : List AutoCoverageValue) : Prop where
  distinct : (values.map AutoCoverageValue.words).Nodup
  form : ∀ x ∈ values, x = fromWords x.words ∧ x.words.length = wordCount width ∧
    value x.words < 2 ^ width

theorem Spread.push {width : Nat} {values : List AutoCoverageValue} {words : List (BitVec 32)}
    (h : Spread width values) (hlength : words.length = wordCount width)
    (hvalue : value words < 2 ^ width) : Spread width (pushUnique values (fromWords words)) := by
  rw [pushUnique]
  split_ifs with hany
  · exact h
  · refine ⟨?_, ?_⟩
    · rw [List.map_append, List.nodup_append]
      refine ⟨h.distinct, by simp, ?_⟩
      rintro ws hws _ hlast rfl
      obtain ⟨x, hx, rfl⟩ := List.mem_map.mp hws
      have hwords : x.words = words := by simpa [fromWords] using hlast
      exact hany (List.any_eq_true.mpr ⟨x, hx, decide_eq_true hwords⟩)
    · intro x hx
      rcases List.mem_append.mp hx with hx | hx
      · exact h.form x hx
      · obtain rfl := List.mem_singleton.mp hx
        exact ⟨rfl, hlength, hvalue⟩

theorem Spread.nodup {width : Nat} {values : List AutoCoverageValue} (h : Spread width values) :
    (values.map AutoCoverageValue.cExpr).Nodup := by
  have hdistinct := h.distinct
  rw [List.Nodup, List.pairwise_map] at hdistinct ⊢
  refine hdistinct.imp_of_mem ?_
  intro x y hx hy hne heq
  obtain ⟨hxform, hxlength, -⟩ := h.form x hx
  obtain ⟨hyform, hylength, -⟩ := h.form y hy
  rw [hxform, hyform] at heq
  exact hne (value_injective (hxlength.trans hylength.symm) (Int.ofNat.inj heq))

theorem getLsbD_flip (x : BitVec 32) {bit : Nat} (hbit : bit < 32) (i : Nat) :
    (x ^^^ 1#32 <<< bit).getLsbD i = if i = bit then !x.getLsbD i else x.getLsbD i := by
  rw [BitVec.getLsbD_xor, BitVec.getLsbD_shiftLeft, BitVec.getLsbD_one]
  split_ifs with heq
  · simp [heq, hbit]
  · rcases Nat.lt_or_gt_of_ne heq with hlt | hgt
    · simp [hlt]
    · have hne : i - bit ≠ 0 := by omega
      simp [hne]

/-- The goals of one walking bit. -/
theorem Spread.walk {width bit : Nat} {values : List AutoCoverageValue}
    (h : Spread width values) (hbit : bit < width) :
    Spread width (pushUnique
      (pushUnique values (fromWords (bitWords (unsignedMaxWords width).length bit)))
      (fromWords ((unsignedMaxWords width).modify (bit / 32) (· ^^^ 1#32 <<< (bit % 32))))) := by
  have hpos : 0 < width := by omega
  have hcount := wordCount_eq hpos
  have hword : bit / 32 < (unsignedMaxWords width).length := by
    rw [length_unsignedMaxWords]
    omega
  refine (h.push ?_ ?_).push ?_ ?_
  · rw [length_bitWords, length_unsignedMaxWords]
  · rw [value_bitWords hword]
    exact Nat.pow_lt_pow_right (by decide) hbit
  · rw [List.length_modify, length_unsignedMaxWords]
  · refine Nat.lt_pow_two_of_testBit _ fun i hi => ?_
    rw [testBit_modify (g := fun b => !b) hword
      fun x i _ => getLsbD_flip x (Nat.mod_lt bit (by decide)) i]
    rw [if_neg (by omega), testBit_unsignedMaxWords hpos]
    exact decide_eq_false (by omega)

section Natural

variable {Other : Type} {f : RangedField Other}

theorem naturalEndpoints_spread (hpos : 0 < f.width) (hsigned : f.signed = false) :
    Spread f.width (naturalEndpoints f) := by
  have hends : Spread f.width
      (pushUnique (pushUnique [] (fromWords (List.replicate (unsignedMaxWords f.width).length 0#32)))
        (fromWords (unsignedMaxWords f.width))) := by
    have hnil : Spread f.width [] := ⟨List.nodup_nil, nofun⟩
    refine (hnil.push ?_ ?_).push ?_ ?_
    · rw [List.length_replicate, length_unsignedMaxWords]
    · rw [value_replicate_zero]
      exact Nat.two_pow_pos _
    · exact length_unsignedMaxWords _
    · refine Nat.lt_pow_two_of_testBit _ fun i hi => ?_
      rw [testBit_unsignedMaxWords hpos]
      exact decide_eq_false (by omega)
  have hfold : ∀ (positions : List Nat) (values : List AutoCoverageValue),
      (∀ bit ∈ positions, bit < f.width) → Spread f.width values →
      Spread f.width (positions.foldl (fun values bit =>
        pushUnique
          (pushUnique values (fromWords (bitWords (unsignedMaxWords f.width).length bit)))
          (fromWords ((unsignedMaxWords f.width).modify (bit / 32)
            (· ^^^ 1#32 <<< (bit % 32))))) values) := by
    intro positions
    induction positions with
    | nil => exact fun values _ h => h
    | cons bit positions ih =>
        intro values hwithin h
        exact ih _ (fun b hb => hwithin b (List.mem_cons_of_mem _ hb))
          (h.walk (hwithin bit List.mem_cons_self))
  rw [naturalEndpoints, if_neg (Nat.ne_of_gt hpos), hsigned]
  exact hfold _ _ (walks hpos).within hends

/-- The pattern with only the sign bit. -/
theorem toInt_ofInt_signBit {width : Nat} (hpos : 0 < width) :
    (BitVec.ofInt width (2 ^ (width - 1))).toInt = -2 ^ (width - 1) := by
  obtain ⟨k, rfl⟩ : ∃ k, width = k + 1 := ⟨width - 1, by omega⟩
  rw [Nat.add_sub_cancel]
  have hwrap : BitVec.ofInt (k + 1) (2 ^ k) = BitVec.ofInt (k + 1) (-2 ^ k) := by
    have hpow : (2 : Int) ^ k = -2 ^ k + ((2 ^ (k + 1) : Nat) : Int) := by
      push_cast
      rw [pow_succ]
      omega
    apply BitVec.eq_of_toNat_eq
    rw [BitVec.toNat_ofInt, BitVec.toNat_ofInt, hpow, Int.add_emod_right, ← hpow]
  have hpow : (0 : Int) < 2 ^ k := Int.pow_pos (by decide)
  have hrange : InRange k (-2 ^ k) := ⟨Int.le_refl _, by omega⟩
  rw [hwrap, BitVec.toInt_ofInt, hrange.bmod_eq]

/-- The ends of a signed type. -/
theorem naturalEndpoints_signed (hpos : 0 < f.width) (hsigned : f.signed = true)
    (henum : f.enumVariants = none) :
    (naturalEndpoints f).map (fieldValue f) = [-2 ^ (f.width - 1), 2 ^ (f.width - 1) - 1] := by
  have hpow : (0 : Int) < 2 ^ (f.width - 1) := Int.pow_pos (by decide)
  have hcount := wordCount_eq hpos
  rw [naturalEndpoints, if_neg (Nat.ne_of_gt hpos), if_pos hsigned]
  split_ifs with hwide
  · have hread : ∀ x, fieldValue f x = (BitVec.ofInt f.width x.cExpr).toInt := fun x =>
      if_pos ⟨by rw [henum]; rfl, hsigned, hwide⟩
    have hmin : fieldValue f (fromWords (signedMinWords f.width)) = -2 ^ (f.width - 1) := by
      rw [hread, fromWords, signedMinWords, value_bitWords (by omega)]
      push_cast
      exact toInt_ofInt_signBit hpos
    have hmax : fieldValue f (fromWords (signedMaxWords f.width)) = 2 ^ (f.width - 1) - 1 := by
      have hin : InRange (f.width - 1) (2 ^ (f.width - 1) - 1) := ⟨by omega, by omega⟩
      rw [hread, fromWords, value_signedMaxWords hpos]
      have hcast : ((2 ^ (f.width - 1) - 1 : Nat) : Int) = 2 ^ (f.width - 1) - 1 := by
        have := Nat.two_pow_pos (f.width - 1)
        push_cast [Nat.cast_sub (Nat.succ_le_of_lt this)]
        rfl
      rw [hcast]
      exact RangedField.toInt_ofInt_of_le (by omega) hin
    rw [List.map_cons, List.map_cons, List.map_nil, hmin, hmax]
  · have hread : ∀ x, fieldValue f x = x.cExpr := fun x => if_neg fun h => hwide h.2.2
    have hlo : (if 63 ≤ f.width - 1 then -2 ^ 63 else -2 ^ (f.width - 1) : Int) =
        -2 ^ (f.width - 1) := by
      split_ifs with h63
      · rw [show f.width - 1 = 63 by omega]
      · rfl
    have hhi : (if 63 ≤ f.width - 1 then 2 ^ 63 - 1 else 2 ^ (f.width - 1) - 1 : Int) =
        2 ^ (f.width - 1) - 1 := by
      split_ifs with h63
      · rw [show f.width - 1 = 63 by omega]
      · rfl
    simp only [hlo, hhi]
    rw [if_pos (by omega)]
    simp only [List.map_cons, List.map_nil, hread]
    rfl

theorem naturalEndpoints_exact (henum : f.enumVariants = none) :
    ((naturalEndpoints f).map (fieldValue f)).Nodup ∧
      ∀ x ∈ naturalEndpoints f, f.InType (fieldValue f x) := by
  rcases Nat.eq_zero_or_pos f.width with hzero | hpos
  · rw [naturalEndpoints, if_pos hzero]
    exact ⟨List.nodup_nil, nofun⟩
  have hpow : (0 : Int) < 2 ^ (f.width - 1) := Int.pow_pos (by decide)
  cases hsigned : f.signed with
  | false =>
      have hspread := naturalEndpoints_spread hpos hsigned
      have hread : ∀ x, fieldValue f x = x.cExpr := fun x =>
        if_neg fun h => by rw [hsigned] at h; cases h.2.1
      refine ⟨?_, ?_⟩
      · rw [funext hread]
        exact hspread.nodup
      · intro x hx
        obtain ⟨hform, -, hlt⟩ := hspread.form x hx
        have hcast : ((value x.words : Nat) : Int) < 2 ^ f.width := by exact_mod_cast hlt
        rw [hread, hform]
        refine ⟨hpos, ?_, ?_⟩
        · rw [RangedField.least, hsigned]
          exact Int.natCast_nonneg _
        · rw [RangedField.greatest, hsigned]
          exact Int.le_sub_one_of_lt hcast
  | true =>
      have hends := naturalEndpoints_signed hpos hsigned henum
      refine ⟨?_, ?_⟩
      · rw [hends, List.nodup_cons]
        exact ⟨by rw [List.mem_singleton]; omega, List.nodup_singleton _⟩
      · intro x hx
        have hmem : fieldValue f x ∈ [-2 ^ (f.width - 1), 2 ^ (f.width - 1) - 1] :=
          hends ▸ List.mem_map_of_mem hx
        have hleast : f.least = -2 ^ (f.width - 1) := if_pos hsigned
        have hgreatest : f.greatest = 2 ^ (f.width - 1) - 1 := if_pos hsigned
        refine ⟨hpos, ?_⟩
        rw [hleast, hgreatest]
        rcases List.mem_pair.mp hmem with h | h
        · rw [h]
          exact ⟨Int.le_refl _, by omega⟩
        · rw [h]
          exact ⟨by omega, Int.le_refl _⟩

end Natural

/-! ### When the goals can be met -/

section Exact

variable {Other : Type} {f : RangedField Other} {env : Other → Int}

theorem value_of_foldIntLiteral (env : Other → Int) {e : BoundExpr Other} {v : Nat}
    (h : foldIntLiteral e = some v) : e.value env = v ∧ v < 2 ^ 64 := by
  cases e with
  | int t =>
      rw [foldIntLiteral, IntText.parseIntStr] at h
      split_ifs at h with hlt
      obtain rfl := Option.some.inj h
      exact ⟨rfl, hlt⟩
  | _ => cases h

theorem value_of_foldSignedIntLiteral (env : Other → Int) {e : BoundExpr Other} {v : Int}
    (h : foldSignedIntLiteral e = some v) : e.value env = v ∧ InRange 63 v := by
  induction e with
  | int t =>
      rw [foldSignedIntLiteral, IntText.parseIntStr] at h
      split_ifs at h with hlt
      · rw [Option.bind_some] at h
        split_ifs at h with hsmall
        obtain rfl := Option.some.inj h
        exact ⟨rfl, by omega, by omega⟩
      · cases h
  | neg e =>
      rw [foldSignedIntLiteral] at h
      obtain ⟨n, hn, h⟩ := Option.bind_eq_some_iff.mp h
      split_ifs at h with hsmall
      obtain rfl := Option.some.inj h
      rw [BoundExpr.value, (value_of_foldIntLiteral env hn).1]
      exact ⟨rfl, by omega, by omega⟩
  | paren e ih => exact ih h
  | other x => cases h

/-- A list of one or two different goals. -/
theorem pair_exact {α : Type} [DecidableEq α] {goal : α → AutoCoverageValue} {number : α → Int}
    (hnumber : Function.Injective number) {lo hi : α} (P : Int → Prop)
    (hlo : fieldValue f (goal lo) = number lo) (hhi : fieldValue f (goal hi) = number hi) :
    ((if hi ≠ lo then [goal lo, goal hi] else [goal lo]).map (fieldValue f)).Nodup ∧
      ((∀ x ∈ (if hi ≠ lo then [goal lo, goal hi] else [goal lo]), P (fieldValue f x)) ↔
        P (number lo) ∧ P (number hi)) := by
  split_ifs with hne
  · have hne' : number lo ≠ number hi := fun h => hne (hnumber h).symm
    simp [hlo, hhi, hne']
  · obtain rfl : hi = lo := not_not.mp hne
    simp [hlo]

theorem coverageExact_of_enum {n : Nat} (henum : f.enumVariants = some n) :
    CoverageExact f env ↔ RangeFits f env := by
  have hvalues : autoCoverageValues f = (List.range n).map (variant f.enumVariantLabels) := by
    rw [autoCoverageValues, henum]
  have hread : ∀ i, fieldValue f (variant f.enumVariantLabels i) = i := by
    intro i
    rw [fieldValue, henum, if_neg (fun h => by cases h.1), variant]
    split_ifs <;> rfl
  have hnodup : ((autoCoverageValues f).map (fieldValue f)).Nodup := by
    rw [hvalues, List.map_map]
    refine List.nodup_range.map ?_
    intro i j heq
    simp only [Function.comp_apply, hread] at heq
    exact Int.ofNat.inj heq
  have hmem : (∀ x ∈ autoCoverageValues f, Possible f env (fieldValue f x)) ↔
      ∀ i < n, Possible f env i := by
    rw [hvalues]
    simp only [List.mem_map, List.mem_range, forall_exists_index, and_imp,
      forall_apply_eq_imp_iff₂, hread]
  have hdomain : ∀ i : Nat, i < n → InDomain f i := by
    intro i hi
    rw [InDomain, henum]
    exact ⟨Int.natCast_nonneg i, Int.ofNat_lt.mpr hi⟩
  rw [CoverageExact, hmem, RangeFits, henum]
  constructor
  · rintro ⟨-, hpossible⟩ lo hi hrange hpos
    have hfirst := (hpossible 0 hpos).2 lo hi hrange
    have hlast := (hpossible (n - 1) (by omega)).2 lo hi hrange
    omega
  · intro hfits
    refine ⟨hnodup, fun i hi => ⟨hdomain i hi, fun lo hi' hrange => ?_⟩⟩
    have hends := hfits lo hi' hrange (by omega)
    omega

theorem coverageExact_of_bit (henum : f.enumVariants = none)
    (hbit : f.width = 1 ∧ f.signed = false) : CoverageExact f env ↔ RangeFits f env := by
  have hvalues : autoCoverageValues f = [unsigned 0, unsigned 1] := by
    rw [autoCoverageValues, henum]
    exact if_pos hbit
  have hread : ∀ x, fieldValue f x = x.cExpr := fun x => if_neg fun h => by
    rw [hbit.2] at h
    cases h.2.1
  have hleast : f.least = 0 := by rw [RangedField.least, hbit.2]; rfl
  have hgreatest : f.greatest = 1 := by rw [RangedField.greatest, hbit.2, hbit.1]; rfl
  have hdomain : ∀ v : Int, 0 ≤ v → v ≤ 1 → InDomain f v := by
    intro v hlow hhigh
    rw [InDomain, henum]
    exact ⟨by omega, by omega, by omega⟩
  have hfits : RangeFits f env ↔ ∀ lo hi, f.range = some (lo, hi) →
      lo.value env ≤ 0 ∧ 1 ≤ hi.value env := by
    rw [RangeFits, henum]
    simp only [if_pos hbit]
  rw [CoverageExact, hvalues, hfits]
  simp only [List.map_cons, List.map_nil, List.mem_cons, List.not_mem_nil, or_false,
    forall_eq_or_imp, forall_eq, hread]
  constructor
  · rintro ⟨-, hzero, hone⟩ lo hi hrange
    exact ⟨(hzero.2 lo hi hrange).1, (hone.2 lo hi hrange).2⟩
  · intro hends
    refine ⟨by decide, ⟨hdomain 0 (by decide) (by decide), fun lo hi hrange => ?_⟩,
      ⟨hdomain 1 (by decide) (by decide), fun lo hi hrange => ?_⟩⟩
    · have hend := hends lo hi hrange
      exact ⟨hend.1, by change (0 : Int) ≤ _; omega⟩
    · have hend := hends lo hi hrange
      exact ⟨by change _ ≤ (1 : Int); omega, hend.2⟩

section Range

variable {lo hi : BoundExpr Other} (henum : f.enumVariants = none)
  (hrange : f.range = some (lo, hi))

include henum hrange

/-- The ends of the range are possible when they are ordered and in the type. -/
theorem possible_ends (env : Other → Int) :
    Possible f env (lo.value env) ∧ Possible f env (hi.value env) ↔
      lo.value env ≤ hi.value env ∧ f.InType (lo.value env) ∧ f.InType (hi.value env) := by
  have hdomain : ∀ v, InDomain f v ↔ f.InType v := by
    intro v
    rw [InDomain, henum]
  have hbetween : ∀ v, Possible f env v ↔ f.InType v ∧ lo.value env ≤ v ∧ v ≤ hi.value env := by
    intro v
    rw [Possible, hdomain]
    refine and_congr_right fun _ => ⟨fun h => h lo hi hrange, ?_⟩
    rintro h lo' hi' hrange'
    obtain ⟨rfl, rfl⟩ := Prod.mk.inj (Option.some.inj (hrange.symm.trans hrange'))
    exact h
  rw [hbetween, hbetween]
  constructor
  · rintro ⟨⟨hlo, -, hle⟩, hhi, -, -⟩
    exact ⟨hle, hlo, hhi⟩
  · rintro ⟨hle, hlo, hhi⟩
    exact ⟨⟨hlo, Int.le_refl _, hle⟩, hhi, hle, Int.le_refl _⟩

variable (hbit : ¬ (f.width = 1 ∧ f.signed = false))

include hbit

theorem rangeFits_of_range : RangeFits f env ↔
    (Folds f lo → Folds f hi → lo.value env ≤ hi.value env ∧ f.InType (lo.value env) ∧
      f.InType (hi.value env)) := by
  rw [RangeFits, henum]
  simp only [if_neg hbit]
  constructor
  · exact fun h => h lo hi hrange
  · rintro h lo' hi' hrange'
    obtain ⟨rfl, rfl⟩ := Prod.mk.inj (Option.some.inj (hrange.symm.trans hrange'))
    exact h

theorem coverageExact_of_signedRange (hsigned : f.signed = true) :
    CoverageExact f env ↔ RangeFits f env := by
  have hends := possible_ends henum hrange env
  have hvalues : autoCoverageValues f =
      match foldSignedIntLiteral lo, foldSignedIntLiteral hi with
      | some lo, some hi => if hi ≠ lo then [signed lo, signed hi] else [signed lo]
      | _, _ => [] := by
    rw [autoCoverageValues, henum]
    simp only [if_neg hbit, hrange, if_pos hsigned]
  have hfolds : ∀ e : BoundExpr Other, Folds f e ↔ (foldSignedIntLiteral e).isSome := by
    intro e
    rw [Folds, if_pos hsigned]
  have hread : ∀ v, InRange 63 v → fieldValue f (signed v) = v := by
    intro v hv
    rw [fieldValue]
    split_ifs with hwide
    · exact RangedField.toInt_ofInt_of_le (by omega) hv
    · rfl
  rw [rangeFits_of_range henum hrange hbit, CoverageExact, hvalues, hfolds, hfolds]
  cases hlo : foldSignedIntLiteral lo with
  | none => simp
  | some vlo =>
      cases hhi : foldSignedIntLiteral hi with
      | none => simp
      | some vhi =>
          obtain ⟨hlov, hloin⟩ := value_of_foldSignedIntLiteral env hlo
          obtain ⟨hhiv, hhiin⟩ := value_of_foldSignedIntLiteral env hhi
          obtain ⟨hnodup, hall⟩ := pair_exact Function.injective_id (Possible f env)
            (hread vlo hloin) (hread vhi hhiin)
          rw [hlov, hhiv] at hends ⊢
          have hiff := hall.trans hends
          exact ⟨fun h _ _ => hiff.mp h.2, fun h => ⟨hnodup, hiff.mpr (h rfl rfl)⟩⟩

theorem coverageExact_of_unsignedRange (hsigned : f.signed = false) :
    CoverageExact f env ↔ RangeFits f env := by
  have hends := possible_ends henum hrange env
  have hvalues : autoCoverageValues f =
      match foldIntLiteral lo, foldIntLiteral hi with
      | some lo, some hi => if hi ≠ lo then [unsigned lo, unsigned hi] else [unsigned lo]
      | _, _ => [] := by
    have hunsigned : ¬ f.signed = true := by
      rw [hsigned]
      decide
    rw [autoCoverageValues, henum]
    simp only [if_neg hbit, hrange, if_neg hunsigned]
  have hfolds : ∀ e : BoundExpr Other, Folds f e ↔ (foldIntLiteral e).isSome := by
    intro e
    rw [Folds, hsigned]
    rfl
  have hread : ∀ v : Nat, fieldValue f (unsigned v) = v := fun v => if_neg fun h => by
    rw [hsigned] at h
    cases h.2.1
  rw [rangeFits_of_range henum hrange hbit, CoverageExact, hvalues, hfolds, hfolds]
  cases hlo : foldIntLiteral lo with
  | none => simp
  | some vlo =>
      cases hhi : foldIntLiteral hi with
      | none => simp
      | some vhi =>
          obtain ⟨hlov, -⟩ := value_of_foldIntLiteral env hlo
          obtain ⟨hhiv, -⟩ := value_of_foldIntLiteral env hhi
          obtain ⟨hnodup, hall⟩ := pair_exact Int.ofNat_injective (Possible f env) (hread vlo)
            (hread vhi)
          rw [hlov, hhiv] at hends ⊢
          have hiff := hall.trans hends
          exact ⟨fun h _ _ => hiff.mp h.2, fun h => ⟨hnodup, hiff.mpr (h rfl rfl)⟩⟩

end Range

theorem coverageExact_iff : CoverageExact f env ↔ RangeFits f env := by
  cases henum : f.enumVariants with
  | some n => exact coverageExact_of_enum henum
  | none =>
      by_cases hbit : f.width = 1 ∧ f.signed = false
      · exact coverageExact_of_bit henum hbit
      · cases hrange : f.range with
        | some bounds =>
            cases hsigned : f.signed with
            | true => exact coverageExact_of_signedRange henum hrange hbit hsigned
            | false => exact coverageExact_of_unsignedRange henum hrange hbit hsigned
        | none =>
            have hvalues : autoCoverageValues f = naturalEndpoints f := by
              rw [autoCoverageValues, henum]
              simp only [if_neg hbit, hrange]
            obtain ⟨hnodup, hin⟩ := naturalEndpoints_exact henum
            have hfits : RangeFits f env := by
              rintro lo hi hsome
              rw [hrange] at hsome
              cases hsome
            refine iff_of_true ⟨hvalues ▸ hnodup, ?_⟩ hfits
            intro x hx
            refine ⟨?_, fun lo hi hsome => ?_⟩
            · rw [InDomain, henum]
              exact hin x (hvalues ▸ hx)
            · rw [hrange] at hsome
              cases hsome

end Exact

/-- Preferences are drawn from exactly the legal values, and the goals are different legal
values, exactly when C++ reads the bounds as the source does and the range fits the goals. -/
theorem preferences_and_goals_exact {Other : Type} (f : RangedField Other) {width : Nat}
    (hwidth : f.width ≤ width) (hwidth' : 64 ≤ width) (solverEnv : Other → Option (BitVec width))
    (env : Other → Int) :
    (f.PreferenceExact solverEnv ∧ CoverageExact f env ∧
        (0 < f.width → Walks f.width (walkingBitPositions f.width))) ↔
      f.ReadAlike width ∧ RangeFits f env := by
  rw [RangedField.preferenceExact_iff solverEnv hwidth hwidth', coverageExact_iff]
  constructor
  · rintro ⟨halike, hfits, -⟩
    exact ⟨halike, hfits⟩
  · rintro ⟨halike, hfits⟩
    exact ⟨halike, hfits, walks⟩

/-- `uint<W> [range(lo, hi)]` with decimal bounds. -/
def decimalField (width : Nat) (lo hi : List Nat) : RangedField Empty :=
  ⟨width, false, some (.int ⟨.decimal, lo⟩, .int ⟨.decimal, hi⟩), none, 0⟩

/-- `uint<8> [range(3, 10)]` -/
theorem preferences_and_goals_exact_byte :
    @RangedField.PreferenceExact Empty (decimalField 8 [3] [1, 0]) 64 (fun x => x.elim) ∧
      CoverageExact (decimalField 8 [3] [1, 0]) (fun x => x.elim) ∧
      (0 < 8 → Walks 8 (walkingBitPositions 8)) := by
  refine (preferences_and_goals_exact (decimalField 8 [3] [1, 0]) (by decide) (Nat.le_refl 64)
    (fun x => x.elim) (fun x => x.elim)).mpr ⟨?_, ?_⟩
  · rintro lo hi rlo rhi ⟨⟩ ⟨⟩ ⟨⟩ -
    exact ⟨3, 10, rfl, rfl, rfl, rfl⟩
  · rintro lo hi ⟨⟩ - -
    exact ⟨by decide, ⟨by decide, by decide, by decide⟩, by decide, by decide, by decide⟩

/-- `uint<4> [range(0, 100)]` has the goal 100. -/
theorem goal_outside_type :
    autoCoverageValues (decimalField 4 [0] [1, 0, 0]) = [unsigned 0, unsigned 100] ∧
      ¬ CoverageExact (decimalField 4 [0] [1, 0, 0]) (fun x => x.elim) := by
  refine ⟨by decide, ?_⟩
  rintro ⟨-, hpossible⟩
  have hgoal := hpossible (unsigned 100) (by decide)
  exact absurd hgoal.1.2.2 (by decide)

end Harc.AutoCoverage
