import Harc.PositionalDigits
import Mathlib.Data.List.TakeDrop

/-!
Sized literals such as `8'hAB` (`parser.rs`): the digits have to agree with the radix and the
value with the width that the literal declares.
-/

namespace Harc.SizedLiterals

open Harc.PositionalDigits

def maxExactDecimalDigits : Nat :=
  4096

/-- `char::to_digit` -/
def toDigit (radix : Nat) (c : Char) : Option Nat :=
  let digit :=
    if '0' ≤ c ∧ c ≤ '9' then some (c.toNat - '0'.toNat)
    else if 'a' ≤ c ∧ c ≤ 'z' then some (c.toNat - 'a'.toNat + 10)
    else if 'A' ≤ c ∧ c ≤ 'Z' then some (c.toNat - 'A'.toNat + 10)
    else none
  digit.filter (· < radix)

/-- The loop of `str::parse` for an unsigned type with values up to `max`. -/
def parseDigits (max : Nat) : List Char → Nat → Option Nat
  | [], acc => some acc
  | c :: text, acc =>
      (toDigit 10 c).bind fun d =>
        if acc * 10 + d ≤ max then parseDigits max text (acc * 10 + d) else none

/-- `str::parse` for an unsigned type with values up to `max` -/
def parseUnsigned (max : Nat) : List Char → Option Nat
  | [] => none
  | ['+'] => none
  | '+' :: text => parseDigits max text 0
  | text => parseDigits max text 0

/-- `leading_zeros` of a value of `width` bits -/
def leadingZeros (width value : Nat) : Nat :=
  width - Nat.size value

/-- One pass over the decimal digits, from the highest one on, that halves the number. -/
def halve (carry : Nat) : List Nat → List Nat
  | [] => []
  | x :: rest => (carry * 10 + x) / 2 :: halve ((carry * 10 + x) % 2) rest

theorem length_halve (carry : Nat) (digits : List Nat) :
    (halve carry digits).length = digits.length := by
  induction digits generalizing carry with
  | nil => rfl
  | cons x rest ih => rw [halve, List.length_cons, List.length_cons, ih]

theorem digitsValue_halve {carry : Nat} (hcarry : carry ≤ 1) (digits : List Nat) :
    digitsValue 10 (halve carry digits) =
      (carry * 10 ^ digits.length + digitsValue 10 digits) / 2 := by
  induction digits generalizing carry with
  | nil =>
      rw [halve, digitsValue_nil, List.length_nil, pow_zero]
      omega
  | cons x rest ih =>
      have hmod : (carry * 10 + x) % 2 ≤ 1 := by omega
      have hsplit : (carry * 10 + x) * 10 ^ rest.length =
          2 * ((carry * 10 + x) / 2 * 10 ^ rest.length) +
            (carry * 10 + x) % 2 * 10 ^ rest.length := by
        calc (carry * 10 + x) * 10 ^ rest.length
            = (2 * ((carry * 10 + x) / 2) + (carry * 10 + x) % 2) * 10 ^ rest.length := by
              rw [Nat.div_add_mod]
          _ = _ := by ring
      have hvalue : carry * 10 ^ (rest.length + 1) + (x * 10 ^ rest.length + digitsValue 10 rest) =
          (carry * 10 + x) * 10 ^ rest.length + digitsValue 10 rest := by
        rw [pow_succ]
        ring
      rw [halve, digitsValue_cons, ih hmod, length_halve, digitsValue_cons, List.length_cons,
        hvalue, hsplit]
      omega

/-- The loop that counts how often the number can be halved until it is zero. -/
def halvingLoop (d : List Nat) (bits : Nat) : Nat :=
  match h : d.dropWhile (· == 0) with
  | [] => bits
  | x :: rest => halvingLoop (halve 0 (x :: rest)) (bits + 1)
termination_by digitsValue 10 d
decreasing_by
  have hx : x ≠ 0 := by
    have hhead := List.head?_dropWhile_not (· == 0) d
    rw [h] at hhead
    simpa using hhead
  have hpos : 0 < digitsValue 10 (x :: rest) := digitsValue_pos (by omega) hx
  rw [digitsValue_halve (by omega), Nat.zero_mul, Nat.zero_add, ← digitsValue_dropWhile d, h]
  omega

def significantBits (digits : List Char) (radix : Nat) : Nat :=
  let trimmed := digits.dropWhile (· == '0')
  if trimmed.isEmpty then 0
  else
    let len := trimmed.length
    if radix = 2 then len
    else if radix = 16 then
      let first := (trimmed.head?.bind (toDigit 16)).getD 0
      (len - 1) * 4 + (32 - leadingZeros 32 first)
    else
      match parseUnsigned (2 ^ 128 - 1) trimmed with
      | some v => 128 - leadingZeros 128 v
      | none => halvingLoop (trimmed.map fun c => c.toNat - '0'.toNat) 0

/-- An error of a literal. -/
structure InvalidLiteral where
  message : String
  help : String
deriving DecidableEq

/-- Names, valid digits and the other radices, for a message. -/
def radixTexts (radix : Nat) : String × String × String :=
  if radix = 2 then ("binary", "0 and 1", "`'h` for hexadecimal or `'d` for decimal")
  else if radix = 10 then ("decimal", "0-9", "`'h` for hexadecimal or `'b` for binary")
  else ("hexadecimal", "0-9, a-f and A-F", "`'d` for decimal or `'b` for binary")

def radixOf (c : Char) : Option Nat :=
  match c.toLower with
  | 'b' => some 2
  | 'd' => some 10
  | 'h' => some 16
  | _ => none

/-- The check of the digits behind the radix, for a width that was read. -/
def checkDigits (text : String) (radixCh : Char) (radix width : Nat) (digits : List Char) :
    Except InvalidLiteral Unit :=
  if width = 0 then
    .error ⟨"sized literal `" ++ text ++ "` declares a width of 0",
      "a sized literal must declare at least 1 bit"⟩
  else if digits.isEmpty then
    .error ⟨"sized literal `" ++ text ++ "` has no digits",
      "write a value after `'" ++ radixCh.toString ++ "`, as in `" ++ toString width ++ "'" ++
        radixCh.toString ++ "0`"⟩
  else if radix = 10 ∧ maxExactDecimalDigits < digits.length then
    .error ⟨"sized decimal literal has " ++ toString digits.length ++
      " digits; the maximum is " ++ toString maxExactDecimalDigits,
      "write the value in hexadecimal (`'h`) or binary (`'b`) — those are " ++
        "sized exactly at any length"⟩
  else
    match digits.find? fun c => (toDigit radix c).isNone with
    | some bad =>
        let (name, valid, others) := radixTexts radix
        .error ⟨"sized literal `" ++ text ++ "` has digit `" ++ bad.toString ++
          "`, which is not " ++ name,
          "valid " ++ name ++ " digits are " ++ valid ++ "; use " ++ others⟩
    | none =>
        let bits := significantBits digits radix
        if width < bits then
          .error ⟨"sized literal `" ++ text ++ "` needs " ++ toString bits ++
            " bits, but declares " ++ toString width,
            "widen the literal to `" ++ toString bits ++ "'" ++ radixCh.toString ++
              String.ofList digits ++ "`, or write a value that fits in " ++ toString width ++
              " bits"⟩
        else .ok ()

def checkSizedLiteral (text : List Char) : Except InvalidLiteral Unit :=
  match text.span (· != '\'') with
  | (_, []) => .ok ()
  | (_, [_]) => .ok ()
  | (widthTxt, _ :: radixCh :: body) =>
      match radixOf radixCh with
      | none => .ok ()
      | some radix =>
          match parseUnsigned (2 ^ 32 - 1) widthTxt with
          | none =>
              .error ⟨"sized literal `" ++ String.ofList text ++
                "` declares a width that is too large", "the declared width must fit in 32 bits"⟩
          | some width =>
              checkDigits (String.ofList text) radixCh radix width (body.filter (· != '_'))

/-! The values of digit strings. -/

/-- Every character is a digit of the radix. -/
def Valid (radix : Nat) (text : List Char) : Prop :=
  ∀ c ∈ text, (toDigit radix c).isSome = true

def digitOf (radix : Nat) (c : Char) : Nat :=
  (toDigit radix c).getD 0

/-- The number that a digit string denotes. -/
def textValue (radix : Nat) (text : List Char) : Nat :=
  digitsValue radix (text.map (digitOf radix))

section Digits

variable {radix : Nat} {c : Char}

theorem toDigit_eq (h : (toDigit radix c).isSome = true) :
    toDigit radix c = some (digitOf radix c) := by
  obtain ⟨d, hd⟩ := Option.isSome_iff_exists.mp h
  rw [digitOf, hd]
  rfl

/-- The digits, by the number of the character. -/
theorem toDigit_cases {d : Nat} (h : toDigit radix c = some d) :
    d < radix ∧ ((48 ≤ c.toNat ∧ c.toNat ≤ 57 ∧ d = c.toNat - 48) ∨
      (97 ≤ c.toNat ∧ d = c.toNat - 97 + 10) ∨ (65 ≤ c.toNat ∧ d = c.toNat - 65 + 10)) := by
  rw [toDigit, Option.filter_eq_some_iff] at h
  obtain ⟨hdigit, hlt⟩ := h
  refine ⟨by simpa using hlt, ?_⟩
  split_ifs at hdigit with hnum hlow hup
  · obtain rfl := Option.some.inj hdigit
    exact Or.inl ⟨hnum.1, hnum.2, rfl⟩
  · obtain rfl := Option.some.inj hdigit
    exact Or.inr (Or.inl ⟨hlow.1, rfl⟩)
  · obtain rfl := Option.some.inj hdigit
    exact Or.inr (Or.inr ⟨hup.1, rfl⟩)

theorem digitOf_lt (h : (toDigit radix c).isSome = true) : digitOf radix c < radix :=
  (toDigit_cases (toDigit_eq h)).1

theorem digitOf_eq_zero (h : (toDigit radix c).isSome = true) : digitOf radix c = 0 ↔ c = '0' := by
  obtain ⟨-, hcases⟩ := toDigit_cases (toDigit_eq h)
  have hzero : c = '0' ↔ c.toNat = 48 := Char.toNat_inj.symm
  rw [hzero]
  omega

theorem digitOf_ten (h : (toDigit 10 c).isSome = true) : c.toNat - '0'.toNat = digitOf 10 c := by
  obtain ⟨hlt, hcases⟩ := toDigit_cases (toDigit_eq h)
  have hzero : '0'.toNat = 48 := rfl
  omega

end Digits

theorem Valid.tail {radix : Nat} {c : Char} {text : List Char} (h : Valid radix (c :: text)) :
    Valid radix text :=
  fun x hx => h x (List.mem_cons_of_mem c hx)

theorem textValue_cons (radix : Nat) (c : Char) (text : List Char) :
    textValue radix (c :: text) =
      digitOf radix c * radix ^ text.length + textValue radix text := by
  rw [textValue, List.map_cons, digitsValue_cons, List.length_map]
  rfl

theorem parseDigits_eq {max : Nat} {text : List Char} (h : Valid 10 text) {acc : Nat}
    (hacc : acc ≤ max) :
    parseDigits max text acc =
      if acc * 10 ^ text.length + textValue 10 text ≤ max then
        some (acc * 10 ^ text.length + textValue 10 text) else none := by
  induction text generalizing acc with
  | nil =>
      have hvalue : acc * 10 ^ ([] : List Char).length + textValue 10 [] = acc := by
        simp [textValue]
      rw [hvalue, if_pos hacc]
      rfl
  | cons c text ih =>
      have hvalue : acc * 10 ^ (c :: text).length + textValue 10 (c :: text) =
          (acc * 10 + digitOf 10 c) * 10 ^ text.length + textValue 10 text := by
        rw [textValue_cons, List.length_cons, pow_succ]
        ring
      have hpow : 0 < 10 ^ text.length := Nat.pow_pos (by omega)
      rw [parseDigits, toDigit_eq (h c List.mem_cons_self), Option.bind_some, hvalue]
      split_ifs with hsmall htotal htotal
      · rw [ih h.tail hsmall, if_pos htotal]
      · rw [ih h.tail hsmall, if_neg htotal]
      · have := Nat.le_mul_of_pos_right (acc * 10 + digitOf 10 c) hpow
        omega
      · rfl

theorem parseUnsigned_eq {max : Nat} {text : List Char} (hne : text ≠ []) (h : Valid 10 text) :
    parseUnsigned max text = if textValue 10 text ≤ max then some (textValue 10 text) else none := by
  have hparse := parseDigits_eq h (Nat.zero_le max)
  rw [Nat.zero_mul, Nat.zero_add] at hparse
  rw [← hparse]
  cases text with
  | nil => exact absurd rfl hne
  | cons c text =>
      have hplus : c ≠ '+' := by
        rintro rfl
        exact absurd (h '+' List.mem_cons_self) (by decide)
      rw [parseUnsigned]
      · simp
      · intro hcons
        exact hplus (List.cons.inj hcons).1
      · intro rest hcons
        exact hplus (List.cons.inj hcons).1

theorem size_eq_succ {n : Nat} (hn : n ≠ 0) : Nat.size n = Nat.size (n / 2) + 1 := by
  rcases Nat.eq_zero_or_pos (n / 2) with hhalf | hhalf
  · obtain rfl : n = 1 := by omega
    rfl
  · have hsize := size_mul_two_pow_add (m := 1) (r := n % 2) hhalf.ne' (by omega)
    rw [pow_one, Nat.div_add_mod'] at hsize
    omega

theorem halvingLoop_eq (d : List Nat) (bits : Nat) :
    halvingLoop d bits = bits + Nat.size (digitsValue 10 d) := by
  fun_induction halvingLoop d bits with
  | case1 d bits h =>
      rw [← digitsValue_dropWhile d, h]
      simp
  | case2 d bits x rest h ih =>
      have hx : x ≠ 0 := by
        have hhead := List.head?_dropWhile_not (· == 0) d
        rw [h] at hhead
        simpa using hhead
      have hpos : 0 < digitsValue 10 (x :: rest) := digitsValue_pos (by omega) hx
      rw [ih, digitsValue_halve (by omega), Nat.zero_mul, Nat.zero_add, ← digitsValue_dropWhile d,
        h, size_eq_succ hpos.ne']
      omega

/-- Leading zeros of a digit string. -/
theorem map_dropWhile_zero {radix : Nat} {text : List Char} (h : Valid radix text) :
    (text.dropWhile (· == '0')).map (digitOf radix) =
      (text.map (digitOf radix)).dropWhile (· == 0) := by
  induction text with
  | nil => rfl
  | cons c text ih =>
      have hzero := digitOf_eq_zero (h c List.mem_cons_self)
      rw [List.map_cons, List.dropWhile_cons, List.dropWhile_cons]
      rcases eq_or_ne c '0' with hc | hc
      · rw [if_pos (beq_iff_eq.mpr hc), if_pos (beq_iff_eq.mpr (hzero.mpr hc)), ih h.tail]
      · rw [if_neg (by simpa using hc), if_neg (by simpa using fun h0 => hc (hzero.mp h0)),
          List.map_cons]

theorem textValue_dropWhile {radix : Nat} {text : List Char} (h : Valid radix text) :
    textValue radix (text.dropWhile (· == '0')) = textValue radix text := by
  rw [textValue, map_dropWhile_zero h, digitsValue_dropWhile]
  rfl

theorem sub_leadingZeros {width value : Nat} (h : value < 2 ^ width) :
    width - leadingZeros width value = Nat.size value := by
  have hsize : Nat.size value ≤ width := Nat.size_le.mpr h
  rw [leadingZeros]
  omega

/-- The bit length of the number that a digit string denotes. -/
theorem significantBits_eq {radix : Nat} (hradix : radix = 2 ∨ radix = 10 ∨ radix = 16)
    {digits : List Char} (h : Valid radix digits) :
    significantBits digits radix = Nat.size (textValue radix digits) := by
  have htrim : Valid radix (digits.dropWhile (· == '0')) :=
    fun c hc => h c ((List.dropWhile_sublist _).subset hc)
  rw [significantBits, ← textValue_dropWhile h]
  cases hcons : digits.dropWhile (· == '0') with
  | nil => rfl
  | cons c rest =>
      rw [hcons] at htrim
      have hc : digitOf radix c ≠ 0 := by
        rw [Ne, digitOf_eq_zero (htrim c List.mem_cons_self)]
        have hhead := List.head?_dropWhile_not (· == '0') digits
        rw [hcons] at hhead
        simpa using hhead
      have hlt : ∀ x ∈ rest.map (digitOf radix), x < radix := by
        intro x hx
        obtain ⟨y, hy, rfl⟩ := List.mem_map.mp hx
        exact digitOf_lt (htrim.tail y hy)
      have hfirst := digitOf_lt (htrim c List.mem_cons_self)
      rw [if_neg (by simp)]
      rcases hradix with rfl | rfl | rfl
      · have hone : digitOf 2 c = 1 := by omega
        have hsize : Nat.size (textValue 2 (c :: rest)) =
            (rest.map (digitOf 2)).length * 1 + Nat.size (digitOf 2 c) :=
          size_digitsValue (k := 1) hc hlt
        rw [if_pos rfl, hsize, List.length_map, hone, List.length_cons, Nat.mul_one]
        rfl
      · have hparse := @parseUnsigned_eq (2 ^ 128 - 1) (c :: rest) (List.cons_ne_nil c rest) htrim
        have hmap : ((c :: rest).map fun c => c.toNat - '0'.toNat) =
            (c :: rest).map (digitOf 10) :=
          List.map_congr_left fun x hx => digitOf_ten (htrim x hx)
        rw [if_neg (by omega), if_neg (by omega), hparse]
        split_ifs with hfits
        · exact sub_leadingZeros (by omega)
        · change halvingLoop _ 0 = _
          rw [hmap, halvingLoop_eq, Nat.zero_add]
          rfl
      · have hsize : Nat.size (textValue 16 (c :: rest)) =
            (rest.map (digitOf 16)).length * 4 + Nat.size (digitOf 16 c) :=
          size_digitsValue (k := 4) hc hlt
        rw [if_neg (by omega), if_pos rfl, List.head?_cons, Option.bind_some,
          toDigit_eq (htrim c List.mem_cons_self), Option.getD_some, hsize, List.length_map,
          List.length_cons, Nat.add_sub_cancel]
        change rest.length * 4 + (32 - leadingZeros 32 (digitOf 16 c)) = _
        rw [sub_leadingZeros (by omega)]

/-- A guard of a check. -/
theorem ite_error_eq_ok {p : Prop} [Decidable p] {e : InvalidLiteral}
    {next : Except InvalidLiteral Unit} :
    (if p then .error e else next) = .ok () ↔ ¬ p ∧ next = .ok () := by
  split_ifs with h
  · exact iff_of_false (fun hok => nomatch hok) (fun hok => hok.1 h)
  · exact (and_iff_right h).symm

theorem checkDigits_ok_iff {text : String} {radixCh : Char} {radix width : Nat}
    {digits : List Char} :
    checkDigits text radixCh radix width digits = .ok () ↔
      width ≠ 0 ∧ digits ≠ [] ∧ ¬ (radix = 10 ∧ maxExactDecimalDigits < digits.length) ∧
        Valid radix digits ∧ significantBits digits radix ≤ width := by
  rw [checkDigits, ite_error_eq_ok, ite_error_eq_ok, ite_error_eq_ok, List.isEmpty_iff]
  refine and_congr_right fun _ => and_congr_right fun _ => and_congr_right fun _ => ?_
  cases hfind : digits.find? fun c => (toDigit radix c).isNone with
  | some bad =>
      refine iff_of_false (fun hok => nomatch hok) ?_
      rintro ⟨hvalid, -⟩
      have hbad := hvalid bad (List.mem_of_find?_eq_some hfind)
      have hnone := List.find?_some hfind
      rw [Option.isSome_iff_ne_none] at hbad
      exact hbad (Option.isNone_iff_eq_none.mp hnone)
  | none =>
      have hvalid : Valid radix digits := by
        intro c hc
        have hsome := List.find?_eq_none.mp hfind c hc
        rw [Option.isNone_iff_eq_none] at hsome
        exact Option.isSome_iff_ne_none.mpr hsome
      change (if _ then _ else _) = _ ↔ _
      rw [ite_error_eq_ok, and_iff_right hvalid, and_iff_left rfl, Nat.not_lt]

theorem radixOf_cases {c : Char} {radix : Nat} (h : radixOf c = some radix) :
    radix = 2 ∨ radix = 10 ∨ radix = 16 := by
  rw [radixOf] at h
  split at h
  · exact Or.inl (Option.some.inj h).symm
  · exact Or.inr (Or.inl (Option.some.inj h).symm)
  · exact Or.inr (Or.inr (Option.some.inj h).symm)
  · exact nomatch h

/-- The digits of the width end at the tick. -/
theorem span_tick {widthTxt rest : List Char} (h : Valid 10 widthTxt) :
    (widthTxt ++ '\'' :: rest).span (· != '\'') = (widthTxt, '\'' :: rest) := by
  have hno : ∀ c ∈ widthTxt, (c != '\'') = true := by
    intro c hc
    rw [bne_iff_ne]
    rintro rfl
    exact absurd (h _ hc) (by decide)
  rw [List.span_eq_takeWhile_dropWhile, List.takeWhile_append_of_pos hno,
    List.dropWhile_append_of_pos hno]
  simp

/-- The check accepts a literal exactly if its width is a positive number of 32 bits, it has
digits, all of the radix and, if decimal, not too many, and their value fits the width. -/
theorem sizedLiterals_exact :
    (∀ (widthTxt : List Char) (radixCh : Char) (radix : Nat) (body : List Char),
      widthTxt ≠ [] → Valid 10 widthTxt → radixOf radixCh = some radix →
      (checkSizedLiteral (widthTxt ++ '\'' :: radixCh :: body) = .ok () ↔
        (1 ≤ textValue 10 widthTxt ∧ textValue 10 widthTxt ≤ 2 ^ 32 - 1) ∧
        body.filter (· != '_') ≠ [] ∧ Valid radix (body.filter (· != '_')) ∧
        (radix = 10 → (body.filter (· != '_')).length ≤ maxExactDecimalDigits) ∧
        textValue radix (body.filter (· != '_')) < 2 ^ textValue 10 widthTxt)) ∧
    (∀ (radix : Nat) (digits : List Char), radix = 2 ∨ radix = 10 ∨ radix = 16 →
      Valid radix digits → significantBits digits radix = Nat.size (textValue radix digits)) := by
  refine ⟨?_, fun radix digits hradix => significantBits_eq hradix⟩
  intro widthTxt radixCh radix body hne hwidth hradix
  rw [checkSizedLiteral, span_tick hwidth]
  simp only [hradix, parseUnsigned_eq hne hwidth]
  split_ifs with hfits
  · change checkDigits _ _ _ _ _ = _ ↔ _
    rw [checkDigits_ok_iff]
    constructor
    · rintro ⟨hpos, hdigits, hcap, hvalid, hbits⟩
      rw [significantBits_eq (radixOf_cases hradix) hvalid, Nat.size_le] at hbits
      exact ⟨⟨by omega, hfits⟩, hdigits, hvalid, by omega, hbits⟩
    · rintro ⟨⟨hpos, -⟩, hdigits, hvalid, hcap, hbits⟩
      rw [← Nat.size_le, ← significantBits_eq (radixOf_cases hradix) hvalid] at hbits
      exact ⟨by omega, hdigits, by omega, hvalid, hbits⟩
  · refine iff_of_false (fun hok => nomatch hok) ?_
    rintro ⟨⟨-, hlt⟩, -⟩
    exact hfits hlt

theorem sizedLiterals_exact_byte :
    checkSizedLiteral "8'hA_5".toList = .ok () ∧ significantBits ['A', '5'] 16 = 8 := by
  obtain ⟨hcheck, hbits⟩ := sizedLiterals_exact
  constructor
  · refine (hcheck ['8'] 'h' 16 ['A', '_', '5'] (by decide) ?_ rfl).mpr ?_
    · intro c hc
      rw [List.mem_singleton.mp hc]
      decide
    · refine ⟨by decide, by decide, ?_, by decide, by decide⟩
      intro c hc
      have hmem : c = 'A' ∨ c = '5' := by simpa using hc
      rcases hmem with rfl | rfl <;> decide
  · refine (hbits 16 ['A', '5'] (Or.inr (Or.inr rfl)) ?_).trans (by decide)
    intro c hc
    have hmem : c = 'A' ∨ c = '5' := by simpa using hc
    rcases hmem with rfl | rfl <;> decide

/-- A literal without digits is rejected, although no digit is wrong and zero fits. -/
theorem checkSizedLiteral_noDigits :
    checkSizedLiteral "8'h_".toList ≠ .ok () ∧
      (1 ≤ textValue 10 ['8'] ∧ textValue 10 ['8'] ≤ 2 ^ 32 - 1) ∧
      Valid 16 (['_'].filter (· != '_')) ∧
      textValue 16 (['_'].filter (· != '_')) < 2 ^ textValue 10 ['8'] := by
  refine ⟨?_, by decide, ?_, by decide⟩
  · have herror : checkSizedLiteral "8'h_".toList = .error ⟨"sized literal `8'h_` has no digits",
        "write a value after `'h`, as in `8'h0`"⟩ := by
      decide +kernel
    rw [herror]
    simp
  · intro c hc
    exact absurd hc (by simp)

end Harc.SizedLiterals
