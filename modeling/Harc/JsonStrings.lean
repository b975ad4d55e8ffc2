import Harc.TraceMergeDump
import Mathlib.Data.Nat.Digits.Defs
import Mathlib.Tactic.NormNum

/-!
The strings of the semantic trace and the fresh identifiers of the merged dump
(`src/trace_merge.rs`).

A text under the parser is the list of its bytes and a position an index into it.
-/

namespace Harc.JsonStrings

open Harc.TraceMerge

/-! ### Parsing -/

inductive JsonError where
  /-- A message of the parser itself. -/
  | message (text : String)
  /-- `std::str::Utf8Error` -/
  | utf8
  /-- `std::num::ParseIntError` -/
  | parseInt
  deriving DecidableEq, Repr

/-- `bytes.get(first..last)` -/
def slice (bytes : List UInt8) (first last : Nat) : Option (List UInt8) :=
  if first ≤ last ∧ last ≤ bytes.length then some ((bytes.drop first).take (last - first))
  else none

/-- `std::str::from_utf8` -/
def fromUtf8 (bytes : List UInt8) : Except JsonError (List Char) :=
  match bytes.toByteArray.utf8Decode? with
  | some chars => .ok chars.toList
  | none => .error .utf8

def hexDigit (c : Char) : Option Nat :=
  if '0' ≤ c ∧ c ≤ '9' then some (c.toNat - '0'.toNat)
  else if 'a' ≤ c ∧ c ≤ 'f' then some (c.toNat - 'a'.toNat + 10)
  else if 'A' ≤ c ∧ c ≤ 'F' then some (c.toNat - 'A'.toNat + 10)
  else none

/-- `u16::from_str_radix` at radix 16, on at most four digits. -/
def fromStrRadix (text : List Char) : Except JsonError Nat :=
  let digits := stripPlus text
  match digits.mapM hexDigit with
  | some [] => .error .parseInt
  | some values => .ok (Nat.ofDigits 16 values.reverse)
  | none => .error .parseInt

def parseJsonUnicodeEscape (bytes : List UInt8) (i : Nat) : Except JsonError (Nat × Nat) :=
  match slice bytes (i + 1) (i + 5) with
  | none => .error (.message "short JSON unicode escape")
  | some hex => do
      let s ← fromUtf8 hex
      let unit ← fromStrRadix s
      return (unit, i + 5)

/-- How one turn of the loop ends: at the closing quote, or with a character and the cursor
`ahead` bytes after the one that the turn began with. -/
inductive Reading where
  | close
  | push (c : Char) (ahead : Nat)
  deriving DecidableEq, Repr

def lonelyHigh : JsonError :=
  .message "JSON high surrogate is not followed by a low surrogate"

/-- The `\u` escape whose backslash is at `i`. -/
def unicodeEscape (bytes : List UInt8) (i : Nat) : Except JsonError Reading := do
  let (unit, next) ← parseJsonUnicodeEscape bytes (i + 1)
  if 0xD800 ≤ unit ∧ unit ≤ 0xDBFF then
    if slice bytes next (next + 2) ≠ some [0x5C, 0x75] then throw lonelyHigh
    let (low, last) ← parseJsonUnicodeEscape bytes (next + 1)
    if ¬ (0xDC00 ≤ low ∧ low ≤ 0xDFFF) then throw lonelyHigh
    let cp := 0x10000 + ((unit - 0xD800) <<< 10) + (low - 0xDC00)
    return .push (Char.ofNat cp) (last - 1 - i)
  else if 0xDC00 ≤ unit ∧ unit ≤ 0xDFFF then
    throw (.message "JSON low surrogate has no high surrogate")
  else
    return .push (Char.ofNat unit) (next - 1 - i)

/-- The escape whose backslash is at `i`. -/
def escape (bytes : List UInt8) (i : Nat) : Except JsonError Reading :=
  match bytes[i + 1]? with
  | none => .error (.message "unterminated JSON escape")
  | some esc =>
      if esc = 0x22 then .ok (.push '"' 1)
      else if esc = 0x5C then .ok (.push '\\' 1)
      else if esc = 0x2F then .ok (.push '/' 1)
      else if esc = 0x62 then .ok (.push '\x08' 1)
      else if esc = 0x66 then .ok (.push '\x0c' 1)
      else if esc = 0x6E then .ok (.push '\n' 1)
      else if esc = 0x72 then .ok (.push '\r' 1)
      else if esc = 0x74 then .ok (.push '\t' 1)
      else if esc = 0x75 then unicodeEscape bytes i
      else .error (.message "unsupported JSON escape")

def invalidUtf8 : JsonError := .message "invalid UTF-8 in JSON string"

def utf8Width (b : UInt8) : Option Nat :=
  if 0xC2 ≤ b ∧ b ≤ 0xDF then some 2
  else if 0xE0 ≤ b ∧ b ≤ 0xEF then some 3
  else if 0xF0 ≤ b ∧ b ≤ 0xF4 then some 4
  else none

/-- The character of several bytes of which `b`, at `i`, is the first. -/
def scalar (bytes : List UInt8) (i : Nat) (b : UInt8) : Except JsonError Reading :=
  match utf8Width b with
  | none => .error invalidUtf8
  | some width =>
      match slice bytes i (i + width) with
      | none => .error invalidUtf8
      | some scalar => do
          match (← fromUtf8 scalar)[0]? with
          | none => throw invalidUtf8
          | some ch => return .push ch (width - 1)

def readChar (bytes : List UInt8) (i : Nat) (b : UInt8) : Except JsonError Reading :=
  if b = 0x22 then .ok .close
  else if b = 0x5C then escape bytes i
  else if b < 0x20 then .error (.message "unescaped JSON control character")
  else if b < 0x80 then .ok (.push (Char.ofNat b.toNat) 0)
  else scalar bytes i b

def parseChars (bytes : List UInt8) (i : Nat) (out : String) : Except JsonError (String × Nat) :=
  match _h : bytes[i]? with
  | none => .error (.message "unterminated JSON string")
  | some b =>
      match readChar bytes i b with
      | .error e => .error e
      | .ok .close => .ok (out, i + 1)
      | .ok (.push c ahead) => parseChars bytes (i + ahead + 1) (out.push c)
  termination_by bytes.length - i
  decreasing_by
    have hlt := (List.getElem?_eq_some_iff.mp _h).1
    omega

def parseJsonString (bytes : List UInt8) (i : Nat) : Except JsonError (String × Nat) :=
  if bytes[i]? ≠ some 0x22 then .error (.message "expected JSON string")
  else parseChars bytes (i + 1) ""

/-! ### Escaping -/

/-- `{:04x}` -/
def hex04 (n : Nat) : List Char :=
  List.replicate (4 - (Nat.toDigits 16 n).length) '0' ++ Nat.toDigits 16 n

def escapeChar (c : Char) : List Char :=
  if c = '"' then ['\\', '"']
  else if c = '\\' then ['\\', '\\']
  else if c = '\n' then ['\\', 'n']
  else if c = '\r' then ['\\', 'r']
  else if c = '\t' then ['\\', 't']
  else if c < ' ' then '\\' :: 'u' :: hex04 c.toNat
  else [c]

def jsonEscape (s : String) : List Char := s.toList.flatMap escapeChar

def utf8 (text : List Char) : List UInt8 := text.flatMap String.utf8EncodeChar

/-- The bytes of the escaped string between quotes. -/
def quoted (s : String) : List UInt8 := utf8 ('"' :: (jsonEscape s ++ ['"']))

/-! ### Reading back what was escaped -/

theorem utf8_append (xs ys : List Char) : utf8 (xs ++ ys) = utf8 xs ++ utf8 ys :=
  List.flatMap_append

theorem utf8_singleton (c : Char) : utf8 [c] = String.utf8EncodeChar c :=
  List.flatMap_singleton ..

theorem fromUtf8_utf8 (text : List Char) : fromUtf8 (utf8 text) = .ok text := by
  have hdecode : (utf8 text).toByteArray.utf8Decode? = some text.toArray :=
    List.utf8Decode?_utf8Encode
  rw [fromUtf8, hdecode]

theorem slice_append {before mid after : List UInt8} {i j : Nat} (hi : i = before.length)
    (hj : j = i + mid.length) : slice (before ++ (mid ++ after)) i j = some mid := by
  subst hi hj
  have hbound : before.length ≤ before.length + mid.length ∧
      before.length + mid.length ≤ (before ++ (mid ++ after)).length := by
    simp only [List.length_append]
    omega
  rw [slice, if_pos hbound, List.drop_left, Nat.add_sub_cancel_left, List.take_left]

theorem hex04_control :
    ∀ n < 32, (utf8 (hex04 n)).length = 4 ∧ fromStrRadix (hex04 n) = .ok n := by
  decide

/-- What one turn of the loop has to do with the escaped form of a character. -/
def ReadsBack (c : Char) : Prop :=
  ∃ b rest, utf8 (escapeChar c) = b :: rest ∧
    ∀ before after, readChar (before ++ (b :: rest ++ after)) before.length b =
      .ok (.push c rest.length)

theorem escape_at {before after : List UInt8} {esc : UInt8} :
    (before ++ ([0x5C, esc] ++ after))[before.length + 1]? = some esc := by
  rw [List.getElem?_append_right (by omega), Nat.add_sub_cancel_left]
  rfl

theorem readsBack_short {c : Char} (esc : UInt8) (hutf8 : utf8 (escapeChar c) = [0x5C, esc])
    (hescape : ∀ bytes i, bytes[i + 1]? = some esc → escape bytes i = .ok (.push c 1)) :
    ReadsBack c := by
  refine ⟨0x5C, [esc], hutf8, ?_⟩
  intro before after
  exact hescape _ _ escape_at

theorem unicodeEscape_control {c : Char} (hc : c.toNat < 32) (before after : List UInt8) :
    unicodeEscape (before ++ ([0x5C, 0x75] ++ utf8 (hex04 c.toNat) ++ after)) before.length =
      .ok (.push c 5) := by
  obtain ⟨hlength, hradix⟩ := hex04_control c.toNat hc
  have hslice : slice (before ++ ([0x5C, 0x75] ++ utf8 (hex04 c.toNat) ++ after))
      (before.length + 1 + 1) (before.length + 1 + 5) = some (utf8 (hex04 c.toNat)) := by
    rw [List.append_assoc [0x5C, 0x75], ← List.append_assoc before]
    apply slice_append
    · rw [List.length_append]
      rfl
    · rw [hlength]
  have hunit : parseJsonUnicodeEscape
      (before ++ ([0x5C, 0x75] ++ utf8 (hex04 c.toNat) ++ after)) (before.length + 1) =
      .ok (c.toNat, before.length + 1 + 5) := by
    rw [parseJsonUnicodeEscape, hslice]
    change (fromUtf8 _ >>= _) = _
    rw [fromUtf8_utf8]
    change (fromStrRadix _ >>= _) = _
    rw [hradix]
    rfl
  rw [unicodeEscape, hunit]
  change (if _ then _ else _) = _
  rw [if_neg (by omega), if_neg (by omega), Char.ofNat_toNat]
  have hahead : before.length + 1 + 5 - 1 - before.length = 5 := by omega
  rw [hahead]
  rfl

theorem readsBack_control {c : Char} (hc : c.toNat < 32)
    (hescape : escapeChar c = '\\' :: 'u' :: hex04 c.toNat) : ReadsBack c := by
  have hutf8 : utf8 (escapeChar c) = 0x5C :: 0x75 :: utf8 (hex04 c.toNat) := by
    rw [hescape]
    rfl
  refine ⟨0x5C, 0x75 :: utf8 (hex04 c.toNat), hutf8, ?_⟩
  intro before after
  have hlength : (0x75 :: utf8 (hex04 c.toNat)).length = 5 := by
    rw [List.length_cons, (hex04_control c.toNat hc).1]
  rw [hlength]
  have hnext : (before ++ (0x5C :: 0x75 :: utf8 (hex04 c.toNat) ++ after))[before.length + 1]? =
      some 0x75 := escape_at
  change escape _ _ = _
  rw [escape, hnext]
  exact unicodeEscape_control hc before after

theorem utf8Width_two :
    ∀ k < 32, 2 ≤ k → 0x80 ≤ UInt8.ofNat (k + 0xC0) ∧ utf8Width (UInt8.ofNat (k + 0xC0)) = some 2 := by
  decide

theorem utf8Width_three :
    ∀ k < 16, 0x80 ≤ UInt8.ofNat (k + 0xE0) ∧ utf8Width (UInt8.ofNat (k + 0xE0)) = some 3 := by
  decide

theorem utf8Width_four :
    ∀ k < 5, 0x80 ≤ UInt8.ofNat (k + 0xF0) ∧ utf8Width (UInt8.ofNat (k + 0xF0)) = some 4 := by
  decide

theorem toNat_lt (c : Char) : c.val.toNat < 0x110000 := by
  rcases c.valid with h | h
  · exact lt_trans h (by decide)
  · exact h.2

/-- The first byte of an encoding tells how many there are. -/
theorem utf8Width_utf8EncodeChar {c : Char} (hc : 0x80 ≤ c.val.toNat) :
    ∃ b rest, String.utf8EncodeChar c = b :: rest ∧ 0x80 ≤ b ∧
      utf8Width b = some (rest.length + 1) := by
  have hbound := toNat_lt c
  rw [String.utf8EncodeChar, if_neg (by omega)]
  rcases Nat.lt_or_ge 0x7ff c.val.toNat with htwo | htwo
  · rw [if_neg (by omega)]
    rcases Nat.lt_or_ge 0xffff c.val.toNat with hthree | hthree
    · rw [if_neg (by omega)]
      exact ⟨_, _, rfl, utf8Width_four _ (by omega)⟩
    · rw [if_pos (by omega)]
      exact ⟨_, _, rfl, utf8Width_three _ (by omega)⟩
  · rw [if_pos (by omega)]
    exact ⟨_, _, rfl, utf8Width_two _ (by omega) (by omega)⟩

theorem scalar_utf8EncodeChar {c : Char} {b : UInt8} {rest : List UInt8}
    (hutf8 : String.utf8EncodeChar c = b :: rest) (hwidth : utf8Width b = some (rest.length + 1))
    (before after : List UInt8) :
    scalar (before ++ (b :: rest ++ after)) before.length b = .ok (.push c rest.length) := by
  have hslice : slice (before ++ (b :: rest ++ after)) before.length
      (before.length + (rest.length + 1)) = some (b :: rest) := slice_append rfl rfl
  rw [scalar, hwidth]
  simp only [hslice]
  have hchars : fromUtf8 (b :: rest) = .ok [c] := by
    rw [← hutf8, ← utf8_singleton]
    exact fromUtf8_utf8 [c]
  rw [hchars]
  rfl

theorem readsBack_verbatim {c : Char} (hspace : 32 ≤ c.val.toNat) (hquote : c ≠ '"')
    (hbackslash : c ≠ '\\') (hescape : escapeChar c = [c]) : ReadsBack c := by
  rcases Nat.lt_or_ge c.val.toNat 0x80 with hascii | hwide
  · have hutf8 : utf8 (escapeChar c) = [UInt8.ofNat c.val.toNat] := by
      rw [hescape, utf8_singleton, String.utf8EncodeChar, if_pos (by omega)]
    refine ⟨_, [], hutf8, ?_⟩
    intro before after
    have hbyte : (UInt8.ofNat c.val.toNat).toNat = c.val.toNat := by
      rw [UInt8.toNat_ofNat']
      exact Nat.mod_eq_of_lt (by omega)
    have hchar : Char.ofNat (UInt8.ofNat c.val.toNat).toNat = c := by
      rw [hbyte]
      exact Char.ofNat_toNat c
    have hnot : ∀ (d : Char) (b : UInt8), b.toNat = d.val.toNat → c ≠ d →
        UInt8.ofNat c.val.toNat ≠ b := by
      rintro d b hb hne rfl
      rw [hbyte] at hb
      exact hne (Char.ext (UInt32.toNat_inj.mp hb))
    rw [readChar, if_neg (hnot '"' _ rfl hquote), if_neg (hnot '\\' _ rfl hbackslash),
      if_neg (by rw [UInt8.lt_iff_toNat_lt, hbyte]; exact Nat.not_lt.mpr hspace),
      if_pos (by rw [UInt8.lt_iff_toNat_lt, hbyte]; exact hascii), hchar]
    rfl
  · obtain ⟨b, rest, hutf8, hb, hwidth⟩ := utf8Width_utf8EncodeChar hwide
    refine ⟨b, rest, by rw [hescape, utf8_singleton, hutf8], ?_⟩
    intro before after
    rw [UInt8.le_iff_toNat_le] at hb
    have hnot : ∀ d : UInt8, d.toNat < 0x80 → b ≠ d := by
      rintro d hd rfl
      exact absurd hb (Nat.not_le.mpr hd)
    have hge : ∀ d : UInt8, d.toNat ≤ 0x80 → ¬ b < d := by
      intro d hd hlt
      rw [UInt8.lt_iff_toNat_lt] at hlt
      exact absurd hb (Nat.not_le.mpr (lt_of_lt_of_le hlt hd))
    rw [readChar, if_neg (hnot _ (by decide)), if_neg (hnot _ (by decide)),
      if_neg (hge _ (by decide)), if_neg (hge _ (by decide))]
    exact scalar_utf8EncodeChar hutf8 hwidth before after

/-- Every character is read back from its escaped form, in one turn. -/
theorem readsBack (c : Char) : ReadsBack c := by
  rcases eq_or_ne c '"' with rfl | hquote
  · exact readsBack_short 0x22 (by decide) fun bytes i h => by rw [escape, h]; rfl
  rcases eq_or_ne c '\\' with rfl | hbackslash
  · exact readsBack_short 0x5C (by decide) fun bytes i h => by rw [escape, h]; rfl
  rcases eq_or_ne c '\n' with rfl | hn
  · exact readsBack_short 0x6E (by decide) fun bytes i h => by rw [escape, h]; rfl
  rcases eq_or_ne c '\r' with rfl | hr
  · exact readsBack_short 0x72 (by decide) fun bytes i h => by rw [escape, h]; rfl
  rcases eq_or_ne c '\t' with rfl | ht
  · exact readsBack_short 0x74 (by decide) fun bytes i h => by rw [escape, h]; rfl
  have hrest : escapeChar c =
      if c < ' ' then '\\' :: 'u' :: hex04 c.toNat else [c] := by
    rw [escapeChar, if_neg hquote, if_neg hbackslash, if_neg hn, if_neg hr, if_neg ht]
  rcases Nat.lt_or_ge c.toNat 32 with hcontrol | hspace
  · exact readsBack_control hcontrol (by rw [hrest, if_pos]; exact hcontrol)
  · exact readsBack_verbatim hspace hquote hbackslash
      (by rw [hrest, if_neg]; exact Nat.not_lt.mpr hspace)

theorem parseChars_of_some {bytes : List UInt8} {i : Nat} {b : UInt8} (out : String)
    (h : bytes[i]? = some b) :
    parseChars bytes i out =
      match readChar bytes i b with
      | .error e => .error e
      | .ok .close => .ok (out, i + 1)
      | .ok (.push c ahead) => parseChars bytes (i + ahead + 1) (out.push c) := by
  rw [parseChars]
  split
  · rename_i hnone
    rw [hnone] at h
    cases h
  · rename_i d hsome
    rw [hsome, Option.some.injEq] at h
    rw [h]

theorem parseChars_escapeChar (c : Char) (before after : List UInt8) (out : String) :
    parseChars (before ++ (utf8 (escapeChar c) ++ after)) before.length out =
      parseChars (before ++ (utf8 (escapeChar c) ++ after))
        (before ++ utf8 (escapeChar c)).length (out.push c) := by
  obtain ⟨b, rest, hutf8, hread⟩ := readsBack c
  rw [hutf8]
  have hfirst : (before ++ (b :: rest ++ after))[before.length]? = some b := by
    rw [List.getElem?_append_right (le_refl _), Nat.sub_self]
    rfl
  rw [parseChars_of_some out hfirst, hread, List.length_append, List.length_cons]
  rfl

/-- The loop over the characters of an escaped text, from any position and with any output. -/
theorem parseChars_escaped (after : List UInt8) (text : List Char) :
    ∀ (before : List UInt8) (out : String),
      parseChars (before ++ (utf8 (text.flatMap escapeChar) ++ 0x22 :: after)) before.length out =
        .ok (out ++ String.ofList text,
          before.length + (utf8 (text.flatMap escapeChar)).length + 1) := by
  induction text with
  | nil =>
      intro before out
      have hquote : (before ++ ([] ++ 0x22 :: after))[before.length]? = some (0x22 : UInt8) := by
        rw [List.nil_append, List.getElem?_append_right (le_refl _), Nat.sub_self]
        rfl
      change parseChars (before ++ ([] ++ 0x22 :: after)) before.length out = _
      rw [parseChars_of_some out hquote]
      change Except.ok (out, before.length + 1) = .ok (out ++ "", before.length + 0 + 1)
      rw [String.append_empty, Nat.add_zero]
  | cons c text ih =>
      intro before out
      rw [List.flatMap_cons, utf8_append, List.append_assoc, parseChars_escapeChar,
        ← List.append_assoc before, ih]
      have hout : out.push c ++ String.ofList text = out ++ String.ofList (c :: text) := by
        rw [String.ext_iff]
        simp
      rw [hout, List.length_append, List.length_append, ← Nat.add_assoc]

/-- A quoted string anywhere in a text is read back, and nothing after it is looked at. -/
theorem parseJsonString_quoted (s : String) (before after : List UInt8) :
    parseJsonString (before ++ quoted s ++ after) before.length =
      .ok (s, before.length + (quoted s).length) := by
  have hquoted : quoted s = 0x22 :: (utf8 (s.toList.flatMap escapeChar) ++ [0x22]) := by
    rw [quoted, ← List.singleton_append, utf8_append, utf8_append]
    rfl
  have hbytes : before ++ quoted s ++ after =
      before ++ [0x22] ++ (utf8 (s.toList.flatMap escapeChar) ++ 0x22 :: after) := by
    rw [hquoted]
    simp
  have hfirst : (before ++ quoted s ++ after)[before.length]? = some 0x22 := by
    rw [List.append_assoc, List.getElem?_append_right (le_refl _), Nat.sub_self, hquoted]
    rfl
  have hscan := parseChars_escaped after s.toList (before ++ [0x22]) ""
  rw [← hbytes, List.length_append, String.ofList_toList, String.empty_append] at hscan
  rw [parseJsonString, if_neg (not_not_intro hfirst)]
  refine hscan.trans ?_
  rw [hquoted]
  simp only [List.length_cons, List.length_append, List.length_nil]
  congr 2
  omega

/-! ### Identifiers of the dump -/

/-- The identifiers that the `$var` declarations of a dump give, word by word: the format lets
a declaration go over several lines. -/
def declaredIds : List Line → List Line
  | [] => []
  | word :: rest =>
      (if word = "$var".toList then (rest[2]?).toList else []) ++ declaredIds rest

/-- The lines up to the end of the definitions. -/
def header (lines : List Line) : List Line := lines.take ((definitionsOf lines).length + 1)

/-- A declaration on this line begins it, and has all of its words but the last there. -/
def DeclaresOnLine (line : Line) : Prop :=
  "$var".toList ∉ (splitWhitespace line).tail ∧
    ((splitWhitespace line).head? = some "$var".toList → 5 ≤ (splitWhitespace line).length)

instance (line : Line) : Decidable (DeclaresOnLine line) :=
  inferInstanceAs (Decidable (_ ∧ (_ → _)))

theorem declaredIds_append_of_notMem {words : List Line} (more : List Line)
    (hwords : "$var".toList ∉ words) : declaredIds (words ++ more) = declaredIds more := by
  induction words with
  | nil => rfl
  | cons word words ih =>
      rw [List.mem_cons, not_or] at hwords
      rw [List.cons_append, declaredIds, if_neg fun h => hwords.1 h.symm, List.nil_append]
      exact ih hwords.2

theorem declaredIds_line {line : Line} (more : List Line) (hline : DeclaresOnLine line) :
    declaredIds (splitWhitespace line ++ more) = collectVcdIds [line] ++ declaredIds more := by
  obtain ⟨htail, hlong⟩ := hline
  rw [collectVcdIds, List.filterMap_cons, List.filterMap_nil]
  have hshort : ∀ (keyword : Line) (rest : List Line),
      splitWhitespace line = keyword :: rest → rest.length < 4 →
        declaredIds (keyword :: rest ++ more) = declaredIds more := by
    intro keyword rest hwords hlen
    rw [hwords] at htail hlong
    rw [List.cons_append, declaredIds, if_neg fun h => by
      have := hlong (congrArg some h)
      rw [List.length_cons] at this
      omega]
    exact declaredIds_append_of_notMem more htail
  rcases hwords : splitWhitespace line with
    _ | ⟨keyword, _ | ⟨kind, _ | ⟨size, _ | ⟨id, _ | ⟨reference, rest⟩⟩⟩⟩⟩
  · rfl
  · exact hshort _ _ hwords (by decide)
  · exact hshort _ _ hwords (by simp)
  · exact hshort _ _ hwords (by simp)
  · exact hshort _ _ hwords (by simp)
  · rw [hwords] at htail
    have hrest : declaredIds (kind :: size :: id :: reference :: rest ++ more) =
        declaredIds more := declaredIds_append_of_notMem more htail
    rw [List.cons_append, declaredIds, hrest]
    rcases eq_or_ne keyword "$var".toList with hkeyword | hkeyword
    · simp only [if_pos hkeyword]
      rfl
    · simp only [if_neg hkeyword]

/-- Where every declaration is on a line of its own, the collected identifiers are all. -/
theorem declaredIds_eq_collectVcdIds {lines : List Line} (hlines : ∀ line ∈ lines, DeclaresOnLine line) :
    declaredIds (lines.flatMap splitWhitespace) = collectVcdIds lines := by
  induction lines with
  | nil => rfl
  | cons line lines ih =>
      rw [List.forall_mem_cons] at hlines
      rw [List.flatMap_cons, declaredIds_line _ hlines.1, ih hlines.2, ← List.singleton_append]
      exact List.filterMap_append.symm

/-- Every string is read back from its escaped and quoted form, wherever it stands in a text;
and the identifiers for the semantic signals differ from each other, from every collected
identifier, and from every declared one if the declarations have lines of their own. -/
theorem strings_read_back_and_ids_fresh :
    (∀ (s : String) (before after : List UInt8),
      parseJsonString (before ++ quoted s ++ after) before.length =
        .ok (s, before.length + (quoted s).length)) ∧
    ∀ lines : List Line,
      (∀ j k, (freshIds lines).nth j = (freshIds lines).nth k → j = k) ∧
      (∀ k, (freshIds lines).nth k ∉ collectVcdIds (header lines)) ∧
      ((∀ line ∈ header lines, DeclaresOnLine line) →
        ∀ k, (freshIds lines).nth k ∉ declaredIds ((header lines).flatMap splitWhitespace)) := by
  refine ⟨parseJsonString_quoted, ?_⟩
  intro lines
  have hfresh : ∀ k, (freshIds lines).nth k ∉ collectVcdIds (header lines) :=
    VcdIdGen.nth_notMem (freshIds lines)
  refine ⟨fun j k => VcdIdGen.nth_injective (freshIds lines), hfresh, ?_⟩
  intro hlines k
  rw [declaredIds_eq_collectVcdIds hlines]
  exact hfresh k

/-- A dump whose only declaration, of `HARC0`, goes over two lines. -/
def splitDump : List Line :=
  ["$timescale 1ns $end".toList, "$scope module top $end".toList, "$var wire 1".toList,
    "HARC0 clk $end".toList, "$upscope $end".toList, "$enddefinitions $end".toList,
    "#0".toList, "1HARC0".toList]

/-- The same dump with the declaration on one line. -/
def wholeDump : List Line :=
  ["$timescale 1ns $end".toList, "$scope module top $end".toList,
    "$var wire 1 HARC0 clk $end".toList, "$upscope $end".toList, "$enddefinitions $end".toList,
    "#0".toList, "1HARC0".toList]

theorem ids_fresh_wholeDump :
    (∀ line ∈ header wholeDump, DeclaresOnLine line) ∧
      "HARC0".toList ∈ declaredIds ((header wholeDump).flatMap splitWhitespace) ∧
      (freshIds wholeDump).nth 0 ∉ declaredIds ((header wholeDump).flatMap splitWhitespace) := by
  have hlines : ∀ line ∈ header wholeDump, DeclaresOnLine line := by decide +kernel
  exact ⟨hlines, by decide +kernel,
    (strings_read_back_and_ids_fresh.2 wholeDump).2.2 hlines 0⟩

theorem ids_not_fresh_splitDump :
    ¬ ∀ (lines : List Line) (k : Nat),
      (freshIds lines).nth k ∉ declaredIds ((header lines).flatMap splitWhitespace) := by
  intro h
  exact h splitDump 0 (by decide +kernel)

end Harc.JsonStrings
