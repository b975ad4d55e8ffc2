import Harc.SizedLiterals
import Harc.WordLists
import Mathlib.Data.List.DropRight

/-!
The readers of integer literals: one for values of 64 bits and one for wide values, for each
radix and for plain and sized literals (`ir/lower/exprs.rs`).
-/

namespace Harc.IntLiterals

open Harc.PositionalDigits
open Harc.SizedLiterals
open Harc.WordLists

/-! ### The readers -/

/-- `s.replace('_', "")` -/
def withoutUnderscores (s : List Char) : List Char := s.filter (· != '_')

/-- The loop of `from_str_radix` for an unsigned type with values up to `max`. -/
def fromStrRadixLoop (max radix : Nat) : List Char → Nat → Option Nat
  | [], acc => some acc
  | c :: text, acc =>
      (toDigit radix c).bind fun d =>
        if acc * radix + d ≤ max then fromStrRadixLoop max radix text (acc * radix + d) else none

/-- `from_str_radix` of an unsigned type with values up to `max` -/
def fromStrRadix (max radix : Nat) : List Char → Option Nat
  | [] => none
  | c :: text =>
      if c = '+' then if text.isEmpty then none else fromStrRadixLoop max radix text 0
      else fromStrRadixLoop max radix (c :: text) 0

def isDigits (radix : Nat) (text : List Char) : Bool :=
  text.all fun c => (toDigit radix c).isSome

/-- The rest of a text behind a zero and a letter in either case. -/
def stripRadix (lower upper : Char) : List Char → Option (List Char)
  | '0' :: c :: digits => if c = lower ∨ c = upper then some digits else none
  | _ => none

inductive IntLiteralErr where
  | overflows
  | notAnInteger

/-- The digits and the radix of a plain literal. -/
def radixDigits (t : List Char) : List Char × Nat :=
  match stripRadix 'x' 'X' t, stripRadix 'b' 'B' t, stripRadix 'o' 'O' t with
  | some digits, _, _ => (digits, 16)
  | none, some digits, _ => (digits, 2)
  | none, none, some digits => (digits, 8)
  | none, none, none => (t, 10)

def parseIntLiteralChecked (s : List Char) : Except IntLiteralErr (BitVec 64) :=
  let (digits, radix) := radixDigits (withoutUnderscores s)
  if digits.isEmpty ∨ isDigits radix digits = false then .error .notAnInteger
  else
    match fromStrRadix (2 ^ 64 - 1) radix digits with
    | none => .error .overflows
    | some v => .ok (BitVec.ofNat 64 v)

def parseIntLiteral (s : List Char) : Option (BitVec 64) :=
  match parseIntLiteralChecked s with
  | .ok v => some v
  | .error _ => none

/-- The texts before and behind the first tick. -/
def splitTick (t : List Char) : Option (List Char × List Char) :=
  match t.span (· != '\'') with
  | (_, []) => none
  | (widthTxt, _ :: rest) => some (widthTxt, rest)

def parseSizedIntLiteralWithWidth (s : List Char) : Option (Nat × BitVec 64) := do
  let (widthTxt, rest) ← splitTick (withoutUnderscores s)
  let width ← parseUnsigned (2 ^ 32 - 1) widthTxt
  let radixCh ← rest.head?
  let radix ←
    if radixCh = 'h' ∨ radixCh = 'H' then some 16
    else if radixCh = 'd' ∨ radixCh = 'D' then some 10
    else if radixCh = 'b' ∨ radixCh = 'B' then some 2
    else none
  let value ← fromStrRadix (2 ^ 64 - 1) radix rest.tail
  some (width, BitVec.ofNat 64 value)

def parseSizedIntLiteral (s : List Char) : Option (BitVec 64) :=
  (parseSizedIntLiteralWithWidth s).map Prod.snd

/-- The loop that splits the first `remaining` digits into words of `size` digits each, from the
end of the text on. -/
def chunkLoop (size radix : Nat) [NeZero size] (digits : List Char) (remaining : Nat) :
    Option (List (BitVec 32)) :=
  if remaining = 0 then some []
  else do
    let start := remaining - size
    let word ← fromStrRadix (2 ^ 32 - 1) radix ((digits.take remaining).drop start)
    let words ← chunkLoop size radix digits start
    some (BitVec.ofNat 32 word :: words)
termination_by remaining
decreasing_by
  have := NeZero.pos size
  omega

def parseWideHexLiteral (s : List Char) : Option (List (BitVec 32)) := do
  let hex ← stripRadix 'x' 'X' (withoutUnderscores s)
  if hex.length ≤ 16 ∨ isDigits 16 hex = false then none
  else chunkLoop 8 16 hex hex.length

def parseWideBinaryLiteral (s : List Char) : Option (List (BitVec 32)) := do
  let digits ← stripRadix 'b' 'B' (withoutUnderscores s)
  let significant := digits.dropWhile (· == '0')
  if significant.length ≤ 64 ∨ isDigits 2 significant = false then none
  else chunkLoop 32 2 significant significant.length

/-- One pass over the words that multiplies by ten and adds a carry. -/
def mulAdd : List (BitVec 32) → BitVec 64 → List (BitVec 32)
  | [], carry => if carry ≠ 0 then [carry.setWidth 32] else []
  | word :: words, carry =>
      let value := word.setWidth 64 * 10 + carry
      value.setWidth 32 :: mulAdd words (value >>> 32)

def decimalLiteralWords (digits : List Char) : Option (List (BitVec 32)) :=
  let words := digits.foldl
    (fun words c => mulAdd words (BitVec.ofNat 64 (c.toNat - '0'.toNat))) [0]
  let words := words.rdropWhile (· == 0)
  if words.isEmpty then none else some words

def parseWideDecimalLiteral (s : List Char) : Option (List (BitVec 32)) :=
  let t := withoutUnderscores s
  if t.isEmpty ∨ isDigits 10 t = false then none
  else
    (decimalLiteralWords t).bind fun words => if 2 < words.length then some words else none

/-- The declared width and the digits of a sized literal with a radix of the given letters. -/
def sizedDigits (lower upper : Char) (radix : Nat) (s : List Char) :
    Option (Nat × List Char) := do
  let (widthTxt, rest) ← splitTick (withoutUnderscores s)
  let width ← parseUnsigned (2 ^ 32 - 1) widthTxt
  let radixCh ← rest.head?
  let digits := rest.tail
  if radixCh ≠ lower ∧ radixCh ≠ upper then none
  else if width = 0 ∨ digits.isEmpty ∨ isDigits radix digits = false then none
  else some (width, digits)

def parseWideSizedHexLiteral (s : List Char) : Option (List (BitVec 32)) := do
  let (width, digits) ← sizedDigits 'h' 'H' 16 s
  let significant := digits.dropWhile (· == '0')
  if significant.length ≤ 16 then none
  else
    let first ← significant.head?.bind (toDigit 16)
    let firstBits := 32 - leadingZeros 32 first
    let valueBits := (significant.length - 1) * 4 + firstBits
    if width < valueBits then none
    else chunkLoop 8 16 significant significant.length

def parseWideSizedBinaryLiteral (s : List Char) : Option (List (BitVec 32)) := do
  let (width, digits) ← sizedDigits 'b' 'B' 2 s
  let significant := digits.dropWhile (· == '0')
  if significant.length ≤ 64 ∨ width < significant.length then none
  else chunkLoop 32 2 significant significant.length

def parseWideSizedDecimalLiteral (s : List Char) : Option (List (BitVec 32)) := do
  let (width, digits) ← sizedDigits 'd' 'D' 10 s
  let words ← decimalLiteralWords digits
  if words.length ≤ 2 then none
  else
    let last ← words.getLast?
    let valueBits := (words.length - 1) * 32 + (32 - leadingZeros 32 last.toNat)
    if valueBits ≤ width then some words else none

def parseWideIntLiteral (s : List Char) : Option (List (BitVec 32)) :=
  (parseWideHexLiteral s).or <| (parseWideBinaryLiteral s).or <|
    (parseWideDecimalLiteral s).or <| (parseWideSizedBinaryLiteral s).or <|
    (parseWideSizedDecimalLiteral s).or <| parseWideSizedHexLiteral s

def parseIntLiteralWords (s : List Char) : Option (List (BitVec 32)) := do
  let words ←
    match (parseIntLiteral s).or (parseSizedIntLiteral s) with
    | some v => some [v.setWidth 32, (v >>> 32).setWidth 32]
    | none =>
        (parseWideHexLiteral s).or <| (parseWideBinaryLiteral s).or <|
          (parseWideDecimalLiteral s).or <| (parseWideSizedHexLiteral s).or <|
          (parseWideSizedBinaryLiteral s).or <| parseWideSizedDecimalLiteral s
  let words := words.rdropWhile (· == 0)
  some (if words.isEmpty then [0] else words)

/-! ### The literals -/

/-- The literals that the parser accepts and the numbers that they denote. -/
inductive Denotes : List Char → Nat → Prop where
  | hex {d : Char} {body : List Char} (hd : (toDigit 16 d).isSome = true)
      (hbody : Valid 16 (withoutUnderscores body)) :
      Denotes ('0' :: 'x' :: d :: body) (textValue 16 (d :: withoutUnderscores body))
  | bin {d : Char} {body : List Char} (hd : (toDigit 2 d).isSome = true)
      (hbody : Valid 2 (withoutUnderscores body)) :
      Denotes ('0' :: 'b' :: d :: body) (textValue 2 (d :: withoutUnderscores body))
  | dec {d : Char} {body : List Char} (hd : (toDigit 10 d).isSome = true)
      (hbody : Valid 10 (withoutUnderscores body)) :
      Denotes (d :: body) (textValue 10 (d :: withoutUnderscores body))
  /-- A sized literal also passes the check of the parser. -/
  | sized {widthTxt body : List Char} {radixCh : Char} {radix : Nat} (hne : widthTxt ≠ [])
      (hwidth : Valid 10 widthTxt) (hletter : radixCh ∈ ['b', 'h', 'd'])
      (hradix : radixOf radixCh = some radix)
      (hcheck : checkSizedLiteral (widthTxt ++ '\'' :: radixCh :: body) = .ok ()) :
      Denotes (widthTxt ++ '\'' :: radixCh :: body) (textValue radix (withoutUnderscores body))

/-! ### Numbers of digits -/

section Digits

variable {radix : Nat} {text : List Char}

theorem textValue_append (radix : Nat) (xs ys : List Char) :
    textValue radix (xs ++ ys) =
      textValue radix xs * radix ^ ys.length + textValue radix ys := by
  rw [textValue, List.map_append, digitsValue, List.foldl_append, foldl_digits, List.length_map]
  rfl

theorem textValue_lt (h : Valid radix text) : textValue radix text < radix ^ text.length := by
  have hlt : ∀ d ∈ text.map (digitOf radix), d < radix := by
    intro d hd
    obtain ⟨c, hc, rfl⟩ := List.mem_map.mp hd
    exact digitOf_lt (h c hc)
  have := digitsValue_lt hlt
  rwa [List.length_map] at this

theorem isDigits_iff : isDigits radix text = true ↔ Valid radix text := List.all_eq_true

/-- Signs and ticks are no digits. -/
theorem not_mem_of_valid {c : Char} (h : Valid radix text) (hc : c.toNat < 48) : c ∉ text := by
  intro hmem
  obtain ⟨-, hcases⟩ := toDigit_cases (toDigit_eq (h c hmem))
  omega

theorem underscore_not_mem (h : Valid radix text) (hradix : radix ≤ 16) : '_' ∉ text := by
  intro hmem
  obtain ⟨hlt, hcases⟩ := toDigit_cases (toDigit_eq (h '_' hmem))
  have hcode : '_'.toNat = 95 := rfl
  omega

theorem withoutUnderscores_eq (h : Valid radix text) (hradix : radix ≤ 16) :
    withoutUnderscores text = text := by
  refine List.filter_eq_self.mpr ?_
  intro c hc
  rw [bne_iff_ne]
  rintro rfl
  exact underscore_not_mem h hradix hc

theorem fromStrRadixLoop_eq {max acc : Nat} (h : Valid radix text) (hacc : acc ≤ max) :
    fromStrRadixLoop max radix text acc =
      if acc * radix ^ text.length + textValue radix text ≤ max then
        some (acc * radix ^ text.length + textValue radix text) else none := by
  induction text generalizing acc with
  | nil =>
      have hvalue : acc * radix ^ ([] : List Char).length + textValue radix [] = acc := by
        simp [textValue]
      rw [hvalue, if_pos hacc]
      rfl
  | cons c text ih =>
      have hvalue : acc * radix ^ (c :: text).length + textValue radix (c :: text) =
          (acc * radix + digitOf radix c) * radix ^ text.length + textValue radix text := by
        rw [textValue_cons, List.length_cons, pow_succ]
        ring
      have hdigit := digitOf_lt (h c List.mem_cons_self)
      have hpow : 0 < radix ^ text.length := Nat.pow_pos (Nat.zero_lt_of_lt hdigit)
      rw [fromStrRadixLoop, toDigit_eq (h c List.mem_cons_self), Option.bind_some, hvalue]
      split_ifs with hsmall htotal htotal
      · rw [ih h.tail hsmall, if_pos htotal]
      · rw [ih h.tail hsmall, if_neg htotal]
      · have := Nat.le_mul_of_pos_right (acc * radix + digitOf radix c) hpow
        omega
      · rfl

theorem fromStrRadix_eq {max : Nat} (hne : text ≠ []) (h : Valid radix text) :
    fromStrRadix max radix text =
      if textValue radix text ≤ max then some (textValue radix text) else none := by
  have hloop := fromStrRadixLoop_eq h (Nat.zero_le max)
  rw [Nat.zero_mul, Nat.zero_add] at hloop
  rcases text with _ | ⟨c, text⟩
  · exact absurd rfl hne
  · have hplus : c ≠ '+' := by
      rintro rfl
      exact not_mem_of_valid h (by decide) List.mem_cons_self
    rw [fromStrRadix, if_neg hplus, hloop]

end Digits

/-! ### Words of digits -/

section Words

variable {radix : Nat} {digits : List Char}

theorem chunkLoop_value {size : Nat} [NeZero size] (hsize : radix ^ size = 2 ^ 32)
    (h : Valid radix digits) (remaining : Nat) (hle : remaining ≤ digits.length) :
    ∃ words, chunkLoop size radix digits remaining = some words ∧
      value words = textValue radix (digits.take remaining) := by
  induction remaining using Nat.strong_induction_on with
  | h remaining ih =>
      rw [chunkLoop]
      rcases Nat.eq_zero_or_pos remaining with rfl | hpos
      · exact ⟨[], if_pos rfl, rfl⟩
      · have hstart : remaining - size < remaining := by
          have := NeZero.pos size
          omega
        obtain ⟨words, hwords, hvalue⟩ := ih (remaining - size) hstart (by omega)
        have hlength : ((digits.take remaining).drop (remaining - size)).length =
            remaining - (remaining - size) := by
          rw [List.length_drop, List.length_take, Nat.min_eq_left hle]
        have hvalid : Valid radix ((digits.take remaining).drop (remaining - size)) :=
          fun c hc => h c (List.mem_of_mem_take (List.mem_of_mem_drop hc))
        have hchunk := textValue_lt hvalid
        have hsplit : textValue radix (digits.take remaining) =
            textValue radix (digits.take (remaining - size)) *
              radix ^ ((digits.take remaining).drop (remaining - size)).length +
            textValue radix ((digits.take remaining).drop (remaining - size)) := by
          rw [← textValue_append]
          congr 1
          conv_lhs => rw [← List.take_append_drop (remaining - size) (digits.take remaining)]
          rw [List.take_take, Nat.min_eq_left (Nat.sub_le _ _)]
        have hradix : 0 < radix := by
          refine Nat.pos_of_ne_zero ?_
          rintro rfl
          rw [Nat.zero_pow (NeZero.pos size)] at hsize
          exact absurd hsize (by decide)
        have hfits :
            textValue radix ((digits.take remaining).drop (remaining - size)) < 2 ^ 32 := by
          refine Nat.lt_of_lt_of_le hchunk ?_
          rw [← hsize]
          exact Nat.pow_le_pow_right hradix (by omega)
        have hne : (digits.take remaining).drop (remaining - size) ≠ [] := by
          refine List.ne_nil_of_length_pos ?_
          omega
        have hword := @fromStrRadix_eq _ _ (2 ^ 32 - 1) hne hvalid
        rw [if_pos (by omega)] at hword
        refine ⟨BitVec.ofNat 32 (textValue radix ((digits.take remaining).drop
          (remaining - size))) :: words, ?_, ?_⟩
        · rw [if_neg hpos.ne']
          simp only [hword, hwords]
          rfl
        · rw [value_cons, BitVec.toNat_ofNat, Nat.mod_eq_of_lt hfits, hsplit, hvalue, hlength]
          rcases Nat.eq_zero_or_pos (remaining - size) with hzero | hmore
          · rw [hzero, List.take_zero]
            simp [textValue]
          · have hfull : remaining - (remaining - size) = size := by omega
            rw [hfull, hsize]
            ring

/-- Multiplying by ten and adding a carry. -/
theorem value_mulAdd {carry : BitVec 64} (hcarry : carry.toNat < 2 ^ 32)
    (words : List (BitVec 32)) :
    value (mulAdd words carry) = value words * 10 + carry.toNat := by
  induction words generalizing carry with
  | nil =>
      rw [mulAdd]
      split_ifs with hzero
      · rw [value_cons, value_nil, BitVec.toNat_setWidth, Nat.mod_eq_of_lt hcarry]
        omega
      · rw [not_not.mp hzero]
        rfl
  | cons word words ih =>
      have hword := word.isLt
      have hsum : (word.setWidth 64 * 10 + carry).toNat = word.toNat * 10 + carry.toNat := by
        have hten : (10 : BitVec 64).toNat = 10 := rfl
        rw [BitVec.toNat_add, BitVec.toNat_mul, toNat_setWidth_of_le (by omega), hten]
        omega
      obtain ⟨hsplit, hhigh⟩ := @split_accumulator 32 _ _ _ hsum
      change value ((word.setWidth 64 * 10 + carry).setWidth 32 ::
        mulAdd words ((word.setWidth 64 * 10 + carry) >>> 32)) = _
      rw [value_cons, ih (by omega), value_cons]
      omega

theorem value_rdropWhile (words : List (BitVec 32)) :
    value (words.rdropWhile (· == 0)) = value words := by
  induction words using List.reverseRecOn with
  | nil => rfl
  | append_singleton words word ih =>
      rw [List.rdropWhile_concat]
      split_ifs with hzero
      · rw [ih, value_concat, beq_iff_eq.mp hzero]
        simp
      · rfl

theorem trimmed_rdropWhile (words : List (BitVec 32)) :
    Trimmed (words.rdropWhile (· == 0)) := by
  induction words using List.reverseRecOn with
  | nil => exact trimmed_nil
  | append_singleton words word ih =>
      rw [List.rdropWhile_concat]
      split_ifs with hzero
      · exact ih
      · rw [trimmed_concat]
        exact fun h => hzero (beq_iff_eq.mpr h)

theorem value_foldl_mulAdd (h : Valid 10 digits) (words : List (BitVec 32)) :
    value (digits.foldl
      (fun words c => mulAdd words (BitVec.ofNat 64 (c.toNat - '0'.toNat))) words) =
        value words * 10 ^ digits.length + textValue 10 digits := by
  induction digits generalizing words with
  | nil => simp [textValue]
  | cons c digits ih =>
      have hdigit := digitOf_lt (h c List.mem_cons_self)
      have hcarry : (BitVec.ofNat 64 (c.toNat - '0'.toNat)).toNat = digitOf 10 c := by
        rw [digitOf_ten (h c List.mem_cons_self), BitVec.toNat_ofNat]
        exact Nat.mod_eq_of_lt (by omega)
      rw [List.foldl_cons, ih h.tail, value_mulAdd (by omega), hcarry, textValue_cons,
        List.length_cons, pow_succ]
      ring

theorem decimalLiteralWords_eq (h : Valid 10 digits) :
    ∃ words, decimalLiteralWords digits = (if words.isEmpty then none else some words) ∧
      value words = textValue 10 digits ∧ Trimmed words := by
  refine ⟨_, rfl, ?_, trimmed_rdropWhile _⟩
  rw [value_rdropWhile, value_foldl_mulAdd h]
  simp

end Words

/-! ### What the readers answer -/

/-- The answer of a reader for 64 bits. -/
def narrow (v : Nat) : Option (BitVec 64) := if v < 2 ^ 64 then some (BitVec.ofNat 64 v) else none

/-- The answer of a reader of wide values: it may be missing for the others. -/
def WideAnswer (answer : Option (List (BitVec 32))) (v : Nat) : Prop :=
  (∀ words, answer = some words → value words = v) ∧ (2 ^ 64 ≤ v → answer.isSome = true)

section Readers

variable {radix : Nat} {s digits : List Char}

theorem fromStrRadix_narrow (hne : digits ≠ []) (h : Valid radix digits) :
    (fromStrRadix (2 ^ 64 - 1) radix digits).map (BitVec.ofNat 64) =
      narrow (textValue radix digits) := by
  rw [fromStrRadix_eq hne h, narrow]
  split_ifs with hle hlt hlt
  · rfl
  · omega
  · omega
  · rfl

theorem parseIntLiteral_eq (hradix : radixDigits (withoutUnderscores s) = (digits, radix))
    (hne : digits ≠ []) (h : Valid radix digits) :
    parseIntLiteral s = narrow (textValue radix digits) := by
  have hguard : ¬ (digits.isEmpty = true ∨ isDigits radix digits = false) := by
    rw [isDigits_iff.mpr h, List.isEmpty_iff]
    simpa using hne
  rw [← fromStrRadix_narrow hne h, parseIntLiteral, parseIntLiteralChecked, hradix]
  simp only [if_neg hguard]
  cases fromStrRadix (2 ^ 64 - 1) radix digits with
  | none => rfl
  | some v => rfl

theorem parseIntLiteral_none (hradix : radixDigits (withoutUnderscores s) = (digits, radix))
    (h : ¬ Valid radix digits) : parseIntLiteral s = none := by
  rw [← isDigits_iff, Bool.not_eq_true] at h
  rw [parseIntLiteral, parseIntLiteralChecked, hradix]
  simp only [if_pos (Or.inr h)]

theorem chunks_answer {size : Nat} [NeZero size] (hsize : radix ^ size = 2 ^ 32)
    (h : Valid radix digits) :
    ∃ words, chunkLoop size radix digits digits.length = some words ∧
      value words = textValue radix digits := by
  obtain ⟨words, hwords, hvalue⟩ := chunkLoop_value hsize h digits.length (Nat.le_refl _)
  rw [List.take_length] at hvalue
  exact ⟨words, hwords, hvalue⟩

theorem wideAnswer_none {v : Nat} (h : v < 2 ^ 64) : WideAnswer none v :=
  ⟨fun _ hnone => (nomatch hnone), fun hle => absurd h (Nat.not_lt.mpr hle)⟩

theorem wideAnswer_some {words : List (BitVec 32)} {v : Nat} (h : value words = v) :
    WideAnswer (some words) v := by
  refine ⟨?_, fun _ => rfl⟩
  intro words' heq
  rw [← Option.some.inj heq, h]

/-- A reader that splits the digits into words unless a guard shows that the value is small. -/
theorem chunks_wideAnswer {size : Nat} [NeZero size] {guard : Prop} [Decidable guard]
    (hsize : radix ^ size = 2 ^ 32) (h : Valid radix digits)
    (hguard : guard → textValue radix digits < 2 ^ 64) :
    WideAnswer (if guard then none else chunkLoop size radix digits digits.length)
      (textValue radix digits) := by
  obtain ⟨words, hwords, hvalue⟩ := chunks_answer hsize h
  rw [hwords]
  split_ifs with hsmall
  · exact wideAnswer_none (hguard hsmall)
  · exact wideAnswer_some hvalue

theorem textValue_lt_of_length {n : Nat} (h : Valid radix digits) (hpos : 0 < radix)
    (hpow : radix ^ n = 2 ^ 64) (hle : digits.length ≤ n) : textValue radix digits < 2 ^ 64 := by
  rw [← hpow]
  exact Nat.lt_of_lt_of_le (textValue_lt h) (Nat.pow_le_pow_right hpos hle)

theorem parseWideHexLiteral_eq (hstrip : stripRadix 'x' 'X' (withoutUnderscores s) = some digits)
    (h : Valid 16 digits) : WideAnswer (parseWideHexLiteral s) (textValue 16 digits) := by
  rw [parseWideHexLiteral, hstrip]
  refine chunks_wideAnswer (by norm_num) h ?_
  rintro (hle | hdigits)
  · exact textValue_lt_of_length h (by omega) (by norm_num) hle
  · rw [isDigits_iff.mpr h] at hdigits
    exact nomatch hdigits

theorem valid_significant (h : Valid radix digits) : Valid radix (digits.dropWhile (· == '0')) :=
  fun c hc => h c ((List.dropWhile_sublist _).subset hc)

theorem parseWideBinaryLiteral_eq
    (hstrip : stripRadix 'b' 'B' (withoutUnderscores s) = some digits) (h : Valid 2 digits) :
    WideAnswer (parseWideBinaryLiteral s) (textValue 2 digits) := by
  rw [parseWideBinaryLiteral, hstrip, ← textValue_dropWhile h]
  refine chunks_wideAnswer (by norm_num) (valid_significant h) ?_
  rintro (hle | hdigits)
  · exact textValue_lt_of_length (valid_significant h) (by omega) (by norm_num) hle
  · rw [isDigits_iff.mpr (valid_significant h)] at hdigits
    exact nomatch hdigits

/-- Two words hold exactly the values of 64 bits. -/
theorem length_gt_two {words : List (BitVec 32)} (hvalue : 2 ^ 64 ≤ value words) :
    2 < words.length := by
  by_contra hle
  have hlt := value_lt words
  have hpow : 2 ^ (32 * words.length) ≤ 2 ^ 64 := Nat.pow_le_pow_right (by omega) (by omega)
  omega

theorem parseWideDecimalLiteral_eq (hne : withoutUnderscores s ≠ [])
    (h : Valid 10 (withoutUnderscores s)) :
    WideAnswer (parseWideDecimalLiteral s) (textValue 10 (withoutUnderscores s)) := by
  obtain ⟨words, hwords, hvalue, htrim⟩ := decimalLiteralWords_eq h
  have hguard : ¬ ((withoutUnderscores s).isEmpty = true ∨
      isDigits 10 (withoutUnderscores s) = false) := by
    rw [isDigits_iff.mpr h, List.isEmpty_iff]
    simpa using hne
  rw [parseWideDecimalLiteral]
  simp only [if_neg hguard, hwords, ← hvalue]
  split_ifs with hempty
  · rw [List.isEmpty_iff.mp hempty]
    exact wideAnswer_none (Nat.two_pow_pos 64)
  · rw [Option.bind_some]
    split_ifs with hlength
    · exact wideAnswer_some rfl
    · exact wideAnswer_none (Nat.not_le.mp fun hle => hlength (length_gt_two hle))

/-- The bits of a hexadecimal number, by its first digit that is not zero. -/
theorem valueBits_hex {c : Char} {rest : List Char} (h : Valid 16 digits)
    (hsignificant : digits.dropWhile (· == '0') = c :: rest) :
    rest.length * 4 + (32 - leadingZeros 32 (digitOf 16 c)) =
      Nat.size (textValue 16 digits) := by
  have hvalid := valid_significant h
  rw [hsignificant] at hvalid
  rw [← significantBits_eq (Or.inr (Or.inr rfl)) h, significantBits, hsignificant]
  change _ = rest.length * 4 +
    (32 - leadingZeros 32 ((toDigit 16 c).getD 0))
  rfl

theorem valueBits_bin (h : Valid 2 digits) :
    (digits.dropWhile (· == '0')).length = Nat.size (textValue 2 digits) := by
  rw [← significantBits_eq (Or.inl rfl) h, significantBits]
  cases digits.dropWhile (· == '0') with
  | nil => rfl
  | cons c rest => rfl

variable {width : Nat}

theorem parseWideSizedHexLiteral_eq (hsized : sizedDigits 'h' 'H' 16 s = some (width, digits))
    (h : Valid 16 digits) (hfits : textValue 16 digits < 2 ^ width) :
    WideAnswer (parseWideSizedHexLiteral s) (textValue 16 digits) := by
  have hvalid := valid_significant h
  have hsmall : (digits.dropWhile (· == '0')).length ≤ 16 → textValue 16 digits < 2 ^ 64 := by
    rw [← textValue_dropWhile h]
    exact textValue_lt_of_length hvalid (by omega) (by norm_num)
  have hvalue := textValue_dropWhile h
  obtain ⟨words, hwords, hwordsValue⟩ := chunks_answer (show 16 ^ 8 = 2 ^ 32 by norm_num) hvalid
  rw [parseWideSizedHexLiteral, hsized]
  simp only [Option.bind_eq_bind, Option.bind_some]
  split_ifs with hlength
  · exact wideAnswer_none (hsmall hlength)
  · rcases hsignificant : digits.dropWhile (· == '0') with _ | ⟨c, rest⟩
    · rw [hsignificant] at hlength
      exact absurd (Nat.zero_le 16) hlength
    · have hbits := valueBits_hex h hsignificant
      have hsize := Nat.size_le.mpr hfits
      rw [hsignificant] at hvalid hwords
      rw [List.head?_cons, Option.bind_some, toDigit_eq (hvalid c List.mem_cons_self),
        Option.bind_some, List.length_cons, Nat.add_sub_cancel, hbits, if_neg (by omega), ← hvalue]
      rw [List.length_cons] at hwords
      rw [hwords]
      exact wideAnswer_some hwordsValue

theorem parseWideSizedBinaryLiteral_eq (hsized : sizedDigits 'b' 'B' 2 s = some (width, digits))
    (h : Valid 2 digits) (hfits : textValue 2 digits < 2 ^ width) :
    WideAnswer (parseWideSizedBinaryLiteral s) (textValue 2 digits) := by
  rw [parseWideSizedBinaryLiteral, hsized, ← textValue_dropWhile h]
  refine chunks_wideAnswer (by norm_num) (valid_significant h) ?_
  rintro (hle | hlt)
  · exact textValue_lt_of_length (valid_significant h) (by omega) (by norm_num) hle
  · rw [valueBits_bin h] at hlt
    exact absurd (Nat.size_le.mpr hfits) (Nat.not_le.mpr hlt)

theorem parseWideSizedDecimalLiteral_eq
    (hsized : sizedDigits 'd' 'D' 10 s = some (width, digits)) (h : Valid 10 digits)
    (hfits : textValue 10 digits < 2 ^ width) :
    WideAnswer (parseWideSizedDecimalLiteral s) (textValue 10 digits) := by
  obtain ⟨words, hwords, hvalue, htrim⟩ := decimalLiteralWords_eq h
  rw [← hvalue] at hfits
  have hsize := Nat.size_le.mpr hfits
  rw [parseWideSizedDecimalLiteral, hsized]
  simp only [Option.bind_eq_bind, Option.bind_some, hwords, ← hvalue]
  split_ifs with hempty
  · rw [List.isEmpty_iff.mp hempty]
    exact wideAnswer_none (Nat.two_pow_pos 64)
  · rw [Option.bind_some]
    split_ifs with hlength
    · refine wideAnswer_none (Nat.not_le.mp fun hle => ?_)
      exact absurd (length_gt_two hle) (Nat.not_lt.mpr hlength)
    · obtain ⟨low, last, rfl⟩ := (List.eq_nil_or_concat' words).resolve_left fun hnil =>
        hempty (List.isEmpty_iff.mpr hnil)
      have hbits := @size_value_concat 32 low last (trimmed_concat.mp htrim)
      have hlast := sub_leadingZeros last.isLt
      have hlow : (low ++ [last]).length - 1 = low.length := by
        rw [List.length_append, List.length_singleton, Nat.add_sub_cancel]
      rw [List.getLast?_concat, Option.bind_some, hlast, hlow, if_pos (by omega)]
      exact wideAnswer_some rfl

end Readers

/-! ### The literals -/

section Literals

variable {radix v : Nat} {s digits : List Char}

theorem splitTick_none (h : '\'' ∉ s) : splitTick s = none := by
  have hdrop : s.dropWhile (· != '\'') = [] := by
    refine List.dropWhile_eq_nil_iff.mpr ?_
    intro c hc
    rw [bne_iff_ne]
    rintro rfl
    exact h hc
  rw [splitTick, List.span_eq_takeWhile_dropWhile, hdrop]

theorem splitTick_eq {widthTxt rest : List Char} (h : Valid 10 widthTxt) :
    splitTick (widthTxt ++ '\'' :: rest) = some (widthTxt, rest) := by
  rw [splitTick, span_tick h]

/-- The second character of a decimal text is no letter. -/
theorem stripRadix_none {lower upper c : Char} (h : ∀ x ∈ s.head?, x.toNat < 58)
    (hlower : 58 ≤ lower.toNat) (hupper : 58 ≤ upper.toNat) :
    stripRadix lower upper (c :: s) = none := by
  rw [stripRadix.eq_def]
  split
  · next x digits heq =>
      obtain ⟨-, rfl⟩ := List.cons.inj heq
      have hx := h x rfl
      refine if_neg (not_or.mpr ⟨?_, ?_⟩)
      · rintro rfl
        exact absurd hx (Nat.not_lt.mpr hlower)
      · rintro rfl
        exact absurd hx (Nat.not_lt.mpr hupper)
  · rfl

theorem radixDigits_decimal {c : Char} (h : ∀ x ∈ s.head?, x.toNat < 58) :
    radixDigits (c :: s) = (c :: s, 10) := by
  rw [radixDigits, stripRadix_none h (by decide) (by decide),
    stripRadix_none h (by decide) (by decide), stripRadix_none h (by decide) (by decide)]

theorem decimal_lt {c : Char} (h : (toDigit 10 c).isSome = true) : c.toNat < 58 := by
  obtain ⟨hlt, hcases⟩ := toDigit_cases (toDigit_eq h)
  omega

theorem withoutUnderscores_cons {c : Char} (h : c ≠ '_') :
    withoutUnderscores (c :: s) = c :: withoutUnderscores s :=
  List.filter_cons_of_pos (bne_iff_ne.mpr h)

theorem ne_underscore {c : Char} (h : (toDigit radix c).isSome = true) (hradix : radix ≤ 16) :
    c ≠ '_' := by
  rintro rfl
  exact underscore_not_mem (List.forall_mem_singleton.mpr h) hradix List.mem_cons_self

theorem parseWideHexLiteral_none (h : stripRadix 'x' 'X' (withoutUnderscores s) = none) :
    parseWideHexLiteral s = none := by
  rw [parseWideHexLiteral, h]
  rfl

theorem parseWideBinaryLiteral_none (h : stripRadix 'b' 'B' (withoutUnderscores s) = none) :
    parseWideBinaryLiteral s = none := by
  rw [parseWideBinaryLiteral, h]
  rfl

theorem parseWideDecimalLiteral_none (h : ¬ Valid 10 (withoutUnderscores s)) :
    parseWideDecimalLiteral s = none := by
  rw [← isDigits_iff, Bool.not_eq_true] at h
  rw [parseWideDecimalLiteral]
  exact if_pos (Or.inr h)

/-- One reader of 64 bits gives the value if it can, and a reader of wide values gives it if it
is wide. -/
structure Reads (s : List Char) (v : Nat) : Prop where
  narrow : parseIntLiteral s = narrow v ∧ parseSizedIntLiteral s = none ∨
    parseIntLiteral s = none ∧ parseSizedIntLiteral s = narrow v
  wide : WideAnswer (parseWideIntLiteral s) v
  words : ((parseWideHexLiteral s).or <| (parseWideBinaryLiteral s).or <|
    (parseWideDecimalLiteral s).or <| (parseWideSizedHexLiteral s).or <|
    (parseWideSizedBinaryLiteral s).or <| parseWideSizedDecimalLiteral s) = parseWideIntLiteral s

/-- A literal without a tick. -/
theorem reads_plain (htick : '\'' ∉ withoutUnderscores s) (hnarrow : parseIntLiteral s = narrow v)
    (hwide : WideAnswer ((parseWideHexLiteral s).or <| (parseWideBinaryLiteral s).or <|
      parseWideDecimalLiteral s) v) : Reads s v := by
  have hsplit := splitTick_none htick
  have hsized (lower upper : Char) (radix : Nat) : sizedDigits lower upper radix s = none := by
    rw [sizedDigits, hsplit]
    rfl
  have hhex : parseWideSizedHexLiteral s = none := by
    rw [parseWideSizedHexLiteral, hsized]
    rfl
  have hbin : parseWideSizedBinaryLiteral s = none := by
    rw [parseWideSizedBinaryLiteral, hsized]
    rfl
  have hdec : parseWideSizedDecimalLiteral s = none := by
    rw [parseWideSizedDecimalLiteral, hsized]
    rfl
  have hnone : parseSizedIntLiteral s = none := by
    rw [parseSizedIntLiteral, parseSizedIntLiteralWithWidth, hsplit]
    rfl
  refine ⟨Or.inl ⟨hnarrow, hnone⟩, ?_, ?_⟩
  · rw [parseWideIntLiteral, hhex, hbin, hdec]
    simpa only [Option.or_none] using hwide
  · rw [parseWideIntLiteral, hhex, hbin, hdec]

theorem reads_hex {d : Char} {body : List Char} (hd : (toDigit 16 d).isSome = true)
    (hbody : Valid 16 (withoutUnderscores body)) :
    Reads ('0' :: 'x' :: d :: body) (textValue 16 (d :: withoutUnderscores body)) := by
  have hvalid : Valid 16 (d :: withoutUnderscores body) := List.forall_mem_cons.mpr ⟨hd, hbody⟩
  have htext : withoutUnderscores ('0' :: 'x' :: d :: body) =
      '0' :: 'x' :: d :: withoutUnderscores body := by
    rw [withoutUnderscores_cons (by decide), withoutUnderscores_cons (by decide),
      withoutUnderscores_cons (ne_underscore hd (by decide))]
  have hbin : parseWideBinaryLiteral ('0' :: 'x' :: d :: body) = none := by
    refine parseWideBinaryLiteral_none ?_
    rw [htext]
    rfl
  have hdec : parseWideDecimalLiteral ('0' :: 'x' :: d :: body) = none := by
    refine parseWideDecimalLiteral_none ?_
    rw [htext]
    intro h
    exact absurd (h 'x' (List.mem_cons_of_mem _ List.mem_cons_self)) (by decide)
  refine reads_plain ?_ (parseIntLiteral_eq (by rw [htext]; rfl) (List.cons_ne_nil _ _) hvalid) ?_
  · rw [htext, List.mem_cons, List.mem_cons]
    rintro (h | h | h)
    · exact absurd h (by decide)
    · exact absurd h (by decide)
    · exact not_mem_of_valid hvalid (by decide) h
  · rw [hbin, hdec, Option.or_none, Option.or_none]
    exact parseWideHexLiteral_eq (by rw [htext]; rfl) hvalid

theorem reads_bin {d : Char} {body : List Char} (hd : (toDigit 2 d).isSome = true)
    (hbody : Valid 2 (withoutUnderscores body)) :
    Reads ('0' :: 'b' :: d :: body) (textValue 2 (d :: withoutUnderscores body)) := by
  have hvalid : Valid 2 (d :: withoutUnderscores body) := List.forall_mem_cons.mpr ⟨hd, hbody⟩
  have htext : withoutUnderscores ('0' :: 'b' :: d :: body) =
      '0' :: 'b' :: d :: withoutUnderscores body := by
    rw [withoutUnderscores_cons (by decide), withoutUnderscores_cons (by decide),
      withoutUnderscores_cons (ne_underscore hd (by decide))]
  have hhex : parseWideHexLiteral ('0' :: 'b' :: d :: body) = none := by
    refine parseWideHexLiteral_none ?_
    rw [htext]
    rfl
  have hdec : parseWideDecimalLiteral ('0' :: 'b' :: d :: body) = none := by
    refine parseWideDecimalLiteral_none ?_
    rw [htext]
    intro h
    exact absurd (h 'b' (List.mem_cons_of_mem _ List.mem_cons_self)) (by decide)
  refine reads_plain ?_ (parseIntLiteral_eq (by rw [htext]; rfl) (List.cons_ne_nil _ _) hvalid) ?_
  · rw [htext, List.mem_cons, List.mem_cons]
    rintro (h | h | h)
    · exact absurd h (by decide)
    · exact absurd h (by decide)
    · exact not_mem_of_valid hvalid (by decide) h
  · rw [hhex, hdec, Option.none_or, Option.or_none]
    exact parseWideBinaryLiteral_eq (by rw [htext]; rfl) hvalid

theorem reads_dec {d : Char} {body : List Char} (hd : (toDigit 10 d).isSome = true)
    (hbody : Valid 10 (withoutUnderscores body)) :
    Reads (d :: body) (textValue 10 (d :: withoutUnderscores body)) := by
  have hvalid : Valid 10 (d :: withoutUnderscores body) := List.forall_mem_cons.mpr ⟨hd, hbody⟩
  have htext : withoutUnderscores (d :: body) = d :: withoutUnderscores body :=
    withoutUnderscores_cons (ne_underscore hd (by decide))
  have hhead : ∀ x ∈ (withoutUnderscores body).head?, x.toNat < 58 :=
    fun x hx => decimal_lt (hbody x (List.mem_of_mem_head? hx))
  have hhex : parseWideHexLiteral (d :: body) = none := by
    refine parseWideHexLiteral_none ?_
    rw [htext]
    exact stripRadix_none hhead (by decide) (by decide)
  have hbin : parseWideBinaryLiteral (d :: body) = none := by
    refine parseWideBinaryLiteral_none ?_
    rw [htext]
    exact stripRadix_none hhead (by decide) (by decide)
  refine reads_plain ?_ (parseIntLiteral_eq ?_ (List.cons_ne_nil _ _) hvalid) ?_
  · rw [htext]
    exact not_mem_of_valid hvalid (by decide)
  · rw [htext]
    exact radixDigits_decimal hhead
  · rw [hhex, hbin, Option.none_or, Option.none_or]
    rw [← htext] at hvalid ⊢
    exact parseWideDecimalLiteral_eq (htext ▸ List.cons_ne_nil _ _) hvalid

/-- What the check of the parser says of a sized literal. -/
theorem accepted {widthTxt body : List Char} {radixCh : Char} (hne : widthTxt ≠ [])
    (hwidth : Valid 10 widthTxt) (hradix : radixOf radixCh = some radix)
    (hcheck : checkSizedLiteral (widthTxt ++ '\'' :: radixCh :: body) = .ok ()) :
    parseUnsigned (2 ^ 32 - 1) widthTxt = some (textValue 10 widthTxt) ∧
      textValue 10 widthTxt ≠ 0 ∧ withoutUnderscores body ≠ [] ∧
      Valid radix (withoutUnderscores body) ∧
      textValue radix (withoutUnderscores body) < 2 ^ textValue 10 widthTxt := by
  rw [checkSizedLiteral, span_tick hwidth] at hcheck
  simp only [hradix, parseUnsigned_eq hne hwidth] at hcheck
  rw [parseUnsigned_eq hne hwidth]
  split_ifs at hcheck ⊢ with hfits
  · change checkDigits _ _ _ _ _ = _ at hcheck
    rw [checkDigits_ok_iff] at hcheck
    obtain ⟨hpos, hdigits, -, hvalid, hbits⟩ := hcheck
    rw [significantBits_eq (radixOf_cases hradix) hvalid, Nat.size_le] at hbits
    exact ⟨rfl, hpos, hdigits, hvalid, hbits⟩

theorem radixOf_letter {c : Char} (hletter : c ∈ ['b', 'h', 'd'])
    (hradix : radixOf c = some radix) :
    c = 'h' ∧ radix = 16 ∨ c = 'd' ∧ radix = 10 ∨ c = 'b' ∧ radix = 2 := by
  simp only [List.mem_cons, List.not_mem_nil, or_false] at hletter
  rcases hletter with rfl | rfl | rfl
  · exact Or.inr (Or.inr ⟨rfl, (Option.some.inj hradix).symm⟩)
  · exact Or.inl ⟨rfl, (Option.some.inj hradix).symm⟩
  · exact Or.inr (Or.inl ⟨rfl, (Option.some.inj hradix).symm⟩)

theorem sizedDigits_eq {widthTxt : List Char} {radixCh lower upper : Char} {width : Nat}
    (htext : withoutUnderscores s = widthTxt ++ '\'' :: radixCh :: digits)
    (hvalid : Valid 10 widthTxt) (hwidth : parseUnsigned (2 ^ 32 - 1) widthTxt = some width) :
    sizedDigits lower upper radix s =
      if radixCh ≠ lower ∧ radixCh ≠ upper then none
      else if width = 0 ∨ digits.isEmpty ∨ isDigits radix digits = false then none
      else some (width, digits) := by
  rw [sizedDigits, htext, splitTick_eq hvalid]
  simp only [Option.bind_eq_bind, Option.bind_some, hwidth, List.head?_cons, List.tail_cons]
  rfl

theorem parseSized_eq {widthTxt : List Char} {radixCh : Char} {width : Nat}
    (htext : withoutUnderscores s = widthTxt ++ '\'' :: radixCh :: digits)
    (hvalid : Valid 10 widthTxt) (hwidth : parseUnsigned (2 ^ 32 - 1) widthTxt = some width)
    (hletter : radixCh ∈ ['b', 'h', 'd']) (hradix : radixOf radixCh = some radix)
    (hne : digits ≠ []) (hdigits : Valid radix digits) :
    parseSizedIntLiteral s = narrow (textValue radix digits) := by
  rw [← fromStrRadix_narrow hne hdigits, parseSizedIntLiteral, parseSizedIntLiteralWithWidth,
    htext, splitTick_eq hvalid]
  simp only [Option.bind_eq_bind, Option.bind_some, hwidth, List.head?_cons, List.tail_cons]
  have hread (r : Nat) : Option.map Prod.snd ((fromStrRadix (2 ^ 64 - 1) r digits).bind
      fun value => some (width, BitVec.ofNat 64 value)) =
        (fromStrRadix (2 ^ 64 - 1) r digits).map (BitVec.ofNat 64) := by
    cases fromStrRadix (2 ^ 64 - 1) r digits with
    | none => rfl
    | some value => rfl
  rw [← hread]
  rcases radixOf_letter hletter hradix with ⟨rfl, rfl⟩ | ⟨rfl, rfl⟩ | ⟨rfl, rfl⟩
  · rfl
  · rfl
  · rfl

theorem reads_sized {widthTxt body : List Char} {radixCh : Char} (hne : widthTxt ≠ [])
    (hvalid : Valid 10 widthTxt) (hletter : radixCh ∈ ['b', 'h', 'd'])
    (hradix : radixOf radixCh = some radix)
    (hcheck : checkSizedLiteral (widthTxt ++ '\'' :: radixCh :: body) = .ok ()) :
    Reads (widthTxt ++ '\'' :: radixCh :: body) (textValue radix (withoutUnderscores body)) := by
  obtain ⟨hwidth, hpos, hdigits, hbody, hfits⟩ := accepted hne hvalid hradix hcheck
  have hne_tick : radixCh ≠ '_' := by
    rcases radixOf_letter hletter hradix with ⟨rfl, -⟩ | ⟨rfl, -⟩ | ⟨rfl, -⟩
    · decide
    · decide
    · decide
  have htext : withoutUnderscores (widthTxt ++ '\'' :: radixCh :: body) =
      widthTxt ++ '\'' :: radixCh :: withoutUnderscores body := by
    have htail : withoutUnderscores ('\'' :: radixCh :: body) =
        '\'' :: radixCh :: withoutUnderscores body := by
      rw [withoutUnderscores_cons (by decide), withoutUnderscores_cons hne_tick]
    rw [← htail]
    exact (List.filter_append _ _).trans (congrArg (· ++ _)
      (withoutUnderscores_eq hvalid (by decide)))
  have hnotDecimal : ¬ Valid 10 (widthTxt ++ '\'' :: radixCh :: withoutUnderscores body) := by
    intro h
    refine not_mem_of_valid h (c := '\'') (by decide) ?_
    exact List.mem_append_right _ List.mem_cons_self
  obtain ⟨first, more, rfl⟩ := List.exists_cons_of_ne_nil hne
  have hhead : ∀ x ∈ (more ++ '\'' :: radixCh :: withoutUnderscores body).head?,
      x.toNat < 58 := by
    intro x hx
    rcases more with _ | ⟨second, more⟩
    · obtain rfl := Option.some.inj hx
      decide
    · obtain rfl := Option.some.inj hx
      exact decimal_lt (hvalid _ (List.mem_cons_of_mem _ List.mem_cons_self))
  have hplain := parseIntLiteral_none (by rw [htext]; exact radixDigits_decimal hhead) hnotDecimal
  have hhex := parseWideHexLiteral_none
    (by rw [htext]; exact stripRadix_none hhead (by decide) (by decide))
  have hbin := parseWideBinaryLiteral_none
    (by rw [htext]; exact stripRadix_none hhead (by decide) (by decide))
  have hdec := parseWideDecimalLiteral_none (by rw [htext]; exact hnotDecimal)
  have hnarrow := parseSized_eq htext hvalid hwidth hletter hradix hdigits hbody
  have hsized (lower upper : Char) (h : radixCh = lower ∨ radixCh = upper) :
      sizedDigits lower upper radix (first :: more ++ '\'' :: radixCh :: body) =
        some (textValue 10 (first :: more), withoutUnderscores body) := by
    rw [sizedDigits_eq htext hvalid hwidth, if_neg (by tauto), if_neg]
    rw [isDigits_iff.mpr hbody, List.isEmpty_iff]
    simp [hpos, hdigits]
  have hother (lower upper : Char) (r : Nat) (h : radixCh ≠ lower ∧ radixCh ≠ upper) :
      sizedDigits lower upper r (first :: more ++ '\'' :: radixCh :: body) = none := by
    rw [sizedDigits_eq htext hvalid hwidth, if_pos h]
  generalize first :: more ++ '\'' :: radixCh :: body = s at *
  have hsizedHex (h : radixCh ≠ 'h' ∧ radixCh ≠ 'H') : parseWideSizedHexLiteral s = none := by
    rw [parseWideSizedHexLiteral, hother _ _ _ h]
    rfl
  have hsizedBin (h : radixCh ≠ 'b' ∧ radixCh ≠ 'B') : parseWideSizedBinaryLiteral s = none := by
    rw [parseWideSizedBinaryLiteral, hother _ _ _ h]
    rfl
  have hsizedDec (h : radixCh ≠ 'd' ∧ radixCh ≠ 'D') : parseWideSizedDecimalLiteral s = none := by
    rw [parseWideSizedDecimalLiteral, hother _ _ _ h]
    rfl
  refine ⟨Or.inr ⟨hplain, hnarrow⟩, ?_, ?_⟩
  · rw [parseWideIntLiteral, hhex, hbin, hdec]
    simp only [Option.none_or]
    rcases radixOf_letter hletter hradix with ⟨rfl, rfl⟩ | ⟨rfl, rfl⟩ | ⟨rfl, rfl⟩
    · rw [hsizedBin (by decide), hsizedDec (by decide)]
      exact parseWideSizedHexLiteral_eq (hsized _ _ (Or.inl rfl)) hbody hfits
    · rw [hsizedBin (by decide), hsizedHex (by decide), Option.or_none]
      exact parseWideSizedDecimalLiteral_eq (hsized _ _ (Or.inl rfl)) hbody hfits
    · rw [hsizedDec (by decide), hsizedHex (by decide), Option.or_none, Option.or_none]
      exact parseWideSizedBinaryLiteral_eq (hsized _ _ (Or.inl rfl)) hbody hfits
  · rw [parseWideIntLiteral, hhex, hbin, hdec]
    simp only [Option.none_or]
    rcases radixOf_letter hletter hradix with ⟨rfl, -⟩ | ⟨rfl, -⟩ | ⟨rfl, -⟩
    · rw [hsizedBin (by decide), hsizedDec (by decide)]
      simp only [Option.none_or, Option.or_none]
    · rw [hsizedBin (by decide), hsizedHex (by decide)]
      simp only [Option.none_or, Option.or_none]
    · rw [hsizedDec (by decide), hsizedHex (by decide)]
      simp only [Option.none_or, Option.or_none]

theorem Denotes.reads (h : Denotes s v) : Reads s v := by
  rcases h with ⟨hd, hbody⟩ | ⟨hd, hbody⟩ | ⟨hd, hbody⟩ | ⟨hne, hwidth, hletter, hradix, hcheck⟩
  · exact reads_hex hd hbody
  · exact reads_bin hd hbody
  · exact reads_dec hd hbody
  · exact reads_sized hne hwidth hletter hradix hcheck

theorem narrow_eq_some {x : BitVec 64} (h : narrow v = some x) : x.toNat = v := by
  rw [narrow] at h
  split_ifs at h with hlt
  rw [← Option.some.inj h, BitVec.toNat_ofNat, Nat.mod_eq_of_lt hlt]

theorem isSome_narrow : (narrow v).isSome = true ↔ v < 2 ^ 64 := by
  rw [narrow]
  split_ifs with h
  · exact iff_of_true rfl h
  · exact iff_of_false nofun h

theorem value_narrow (x : BitVec 64) :
    value [x.setWidth 32, (x >>> 32).setWidth 32] = x.toNat := by
  have hx := x.isLt
  rw [value_cons, value_cons, value_nil, BitVec.toNat_setWidth, BitVec.toNat_setWidth,
    BitVec.toNat_ushiftRight, Nat.shiftRight_eq_div_pow]
  omega

/-- The words without high zero words, or the word zero. -/
theorem trimmed_words (words : List (BitVec 32)) :
    let trimmed := words.rdropWhile (· == 0)
    let words' := if trimmed.isEmpty then [0] else trimmed
    value words' = value words ∧ (words' = [0] ∨ words' ≠ [] ∧ Trimmed words') := by
  intro trimmed words'
  have hvalue := value_rdropWhile words
  by_cases hempty : trimmed.isEmpty = true
  · have hwords : words' = [0] := if_pos hempty
    rw [hwords]
    refine ⟨?_, Or.inl rfl⟩
    change value trimmed = _ at hvalue
    rw [← hvalue, List.isEmpty_iff.mp hempty]
    rfl
  · have hwords : words' = trimmed := if_neg hempty
    rw [hwords]
    exact ⟨hvalue, Or.inr ⟨fun h => hempty (List.isEmpty_iff.mpr h), trimmed_rdropWhile words⟩⟩

/-- Every reader that answers for a literal gives its number, those of 64 bits exactly if it has
64 bits; the words have no high zero word. -/
theorem literals_denote (h : Denotes s v) :
    (∃ words, parseIntLiteralWords s = some words ∧ value words = v ∧
      (words = [0] ∨ words ≠ [] ∧ Trimmed words)) ∧
    (∀ x, parseIntLiteral s = some x → x.toNat = v) ∧
    (∀ x, parseSizedIntLiteral s = some x → x.toNat = v) ∧
    ((parseIntLiteral s).isSome = true ∨ (parseSizedIntLiteral s).isSome = true ↔ v < 2 ^ 64) ∧
    (∀ words, parseWideIntLiteral s = some words → value words = v) ∧
    (2 ^ 64 ≤ v → (parseWideIntLiteral s).isSome = true) := by
  obtain ⟨hnarrow, hwide, hwords⟩ := h.reads
  have hor : (parseIntLiteral s).or (parseSizedIntLiteral s) = narrow v := by
    rcases hnarrow with ⟨hplain, hsized⟩ | ⟨hplain, hsized⟩
    · rw [hplain, hsized, Option.or_none]
    · rw [hplain, hsized, Option.none_or]
  refine ⟨?_, ?_, ?_, ?_, hwide⟩
  · have hall : ∃ words : List (BitVec 32), value words = v ∧ parseIntLiteralWords s =
        some (if (words.rdropWhile (· == 0)).isEmpty then [0]
          else words.rdropWhile (· == 0)) := by
      rw [parseIntLiteralWords, hor, hwords]
      rcases hfound : narrow v with _ | x
      · have hbig : ¬ v < 2 ^ 64 := by
          rw [← isSome_narrow, hfound]
          exact nofun
        obtain ⟨words, hsome⟩ := Option.isSome_iff_exists.mp (hwide.2 (Nat.not_lt.mp hbig))
        refine ⟨words, hwide.1 words hsome, ?_⟩
        simp only [hsome]
        rfl
      · exact ⟨_, (value_narrow x).trans (narrow_eq_some hfound), rfl⟩
    obtain ⟨words, hvalue, hparse⟩ := hall
    obtain ⟨hsame, hform⟩ := trimmed_words words
    exact ⟨_, hparse, hsame.trans hvalue, hform⟩
  · intro x hx
    rcases hnarrow with ⟨hplain, -⟩ | ⟨hplain, -⟩
    · exact narrow_eq_some (hplain.symm.trans hx)
    · rw [hplain] at hx
      exact nomatch hx
  · intro x hx
    rcases hnarrow with ⟨-, hsized⟩ | ⟨-, hsized⟩
    · rw [hsized] at hx
      exact nomatch hx
    · exact narrow_eq_some (hsized.symm.trans hx)
  · rcases hnarrow with ⟨hplain, hsized⟩ | ⟨hplain, hsized⟩
    · rw [hplain, hsized, isSome_narrow]
      simp
    · rw [hplain, hsized, isSome_narrow]
      simp

theorem literals_denote_wide :
    2 ^ 64 ≤ 2 ^ 64 + 0xA5 ∧ ∃ words,
      parseWideIntLiteral "0x1_0000_0000_0000_00A5".toList = some words ∧
        value words = 2 ^ 64 + 0xA5 := by
  have hdenotes : Denotes "0x1_0000_0000_0000_00A5".toList (2 ^ 64 + 0xA5) :=
    Denotes.hex (by decide) (isDigits_iff.mp (by decide))
  obtain ⟨-, -, -, -, hvalue, hsome⟩ := literals_denote hdenotes
  obtain ⟨words, hwords⟩ := Option.isSome_iff_exists.mp (hsome (by decide))
  exact ⟨by decide, words, hwords, hvalue words hwords⟩

end Literals

/-- What the readers make of a sized literal that the parser has checked fits its width. -/
theorem sized_literals_fit {widthTxt body : List Char} {radixCh : Char} {radix : Nat}
    (hne : widthTxt ≠ []) (hvalid : Valid 10 widthTxt) (hletter : radixCh ∈ ['b', 'h', 'd'])
    (hradix : radixOf radixCh = some radix)
    (hcheck : checkSizedLiteral (widthTxt ++ '\'' :: radixCh :: body) = .ok ()) :
    (∀ x, (parseIntLiteral (widthTxt ++ '\'' :: radixCh :: body) = some x ∨
      parseSizedIntLiteral (widthTxt ++ '\'' :: radixCh :: body) = some x) →
        x.toNat < 2 ^ textValue 10 widthTxt) ∧
    (∀ words, parseWideIntLiteral (widthTxt ++ '\'' :: radixCh :: body) = some words →
      value words < 2 ^ textValue 10 widthTxt) ∧
    ((parseIntLiteral (widthTxt ++ '\'' :: radixCh :: body)).isSome = true ∨
      (parseSizedIntLiteral (widthTxt ++ '\'' :: radixCh :: body)).isSome = true ∨
      (parseWideIntLiteral (widthTxt ++ '\'' :: radixCh :: body)).isSome = true) := by
  obtain ⟨-, -, -, -, hfits⟩ := accepted hne hvalid hradix hcheck
  obtain ⟨hnarrow, hwide, -⟩ := reads_sized hne hvalid hletter hradix hcheck
  generalize textValue radix (withoutUnderscores body) = v at hfits hnarrow hwide
  refine ⟨?_, fun words hwords => (hwide.1 words hwords).trans_lt hfits, ?_⟩
  · intro x hx
    rcases hnarrow with ⟨hplain, hsized⟩ | ⟨hplain, hsized⟩
    · rw [hplain, hsized] at hx
      rcases hx with hx | hx
      · exact (narrow_eq_some hx).trans_lt hfits
      · cases hx
    · rw [hplain, hsized] at hx
      rcases hx with hx | hx
      · cases hx
      · exact (narrow_eq_some hx).trans_lt hfits
  · rcases Nat.lt_or_ge v (2 ^ 64) with hsmall | hlarge
    · rcases hnarrow with ⟨hplain, -⟩ | ⟨-, hsized⟩
      · exact .inl (hplain ▸ isSome_narrow.mpr hsmall)
      · exact .inr (.inl (hsized ▸ isSome_narrow.mpr hsmall))
    · exact .inr (.inr (hwide.2 hlarge))

/-- A literal above 64 bits, which only the wide reader answers. -/
theorem sized_literals_fit_wide :
    ((∀ x, (parseIntLiteral "68'hA_0123456789ABCDEF".toList = some x ∨
      parseSizedIntLiteral "68'hA_0123456789ABCDEF".toList = some x) →
        x.toNat < 2 ^ textValue 10 ['6', '8']) ∧
    (∀ words, parseWideIntLiteral "68'hA_0123456789ABCDEF".toList = some words →
      value words < 2 ^ textValue 10 ['6', '8']) ∧
    ((parseIntLiteral "68'hA_0123456789ABCDEF".toList).isSome = true ∨
      (parseSizedIntLiteral "68'hA_0123456789ABCDEF".toList).isSome = true ∨
      (parseWideIntLiteral "68'hA_0123456789ABCDEF".toList).isSome = true)) ∧
    parseIntLiteral "68'hA_0123456789ABCDEF".toList = none ∧
    parseSizedIntLiteral "68'hA_0123456789ABCDEF".toList = none :=
  ⟨@sized_literals_fit ['6', '8'] "A_0123456789ABCDEF".toList 'h' 16 (by decide)
    (isDigits_iff.mp (by decide)) (by decide) (by decide) (by decide), by decide, by decide⟩

end Harc.IntLiterals
