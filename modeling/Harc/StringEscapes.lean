import Harc.CppLiterals

/-!
How a string becomes the text of a C++ string literal: `escape_cpp_string`
(`src/solver/runtime.rs`), `escape_c` (`src/codegen/tbir/expr.rs`) and
`string_value_literal_cpp` (`src/codegen/source_transform.rs`).

A string is the list of its characters.
-/

namespace Harc.StringEscapes

open Harc.CppLiterals

/-! ### The escapers -/

/-- `char::is_control`: the general category Cc. -/
def isControl (c : Char) : Prop := c.toNat ≤ 0x1F ∨ (0x7F ≤ c.toNat ∧ c.toNat ≤ 0x9F)

instance (c : Char) : Decidable (isControl c) := inferInstanceAs (Decidable (_ ∨ _))

/-- `{:02x}` -/
def hex02 (n : Nat) : List Char :=
  List.replicate (2 - (Nat.toDigits 16 n).length) '0' ++ Nat.toDigits 16 n

/-- The characters that every escaper spells the same. -/
def commonEscape (c : Char) : Option (List Char) :=
  if c = '\\' then some ['\\', '\\']
  else if c = '"' then some ['\\', '"']
  else if c = '\n' then some ['\\', 'n']
  else if c = '\r' then some ['\\', 'r']
  else if c = '\t' then some ['\\', 't']
  else none

def escapeCppChar (c : Char) : List Char :=
  match commonEscape c with
  | some text => text
  | none => if isControl c then '\\' :: 'x' :: hex02 c.toNat else [c]

def escapeCppString (s : List Char) : List Char := s.flatMap escapeCppChar

def escapeC (s : List Char) : List Char := s.flatMap fun c => (commonEscape c).getD [c]

/-- A character outside an escape of the raw token. -/
def valueChar (c : Char) : List Char :=
  if c = '"' then ['\\', '"']
  else if c = '\n' then ['\\', 'n']
  else if c = '\r' then ['\\', 'r']
  else if c = '\t' then ['\\', 't']
  else if c = '\x00' then ['\\', '0', '0', '0']
  else [c]

/-- The character behind a backslash of the raw token. -/
def valueEscape (c : Char) : List Char :=
  if c = '0' then ['\\', '0', '0', '0']
  else if c ∈ ['\\', '"', 'n', 'r', 't'] then ['\\', c]
  else ['\\', '\\', c]

def stringValueChars : List Char → List Char
  | [] => []
  | c :: chars =>
      if c ≠ '\\' then valueChar c ++ stringValueChars chars
      else
        match chars with
        | [] => ['\\', '\\']
        | next :: rest => valueEscape next ++ stringValueChars rest

def stringValueLiteralCpp (raw : List Char) : List Char := quoted (stringValueChars raw)

/-! ### What they have to mean -/

/-- The UTF-8 bytes of a string. -/
def utf8 (s : List Char) : List UInt8 := s.flatMap String.utf8EncodeChar

/-- A recognised HARC escape, or `none`. -/
def harcEscape (c : Char) : Option Char :=
  match c with
  | '0' => some '\x00'
  | '\\' => some '\\'
  | '"' => some '"'
  | 'n' => some '\n'
  | 'r' => some '\r'
  | 't' => some '\t'
  | _ => none

/-- The value of a raw token: every recognised escape is decoded once, any other backslash
stays. -/
def decodeEscapes : List Char → List Char
  | [] => []
  | c :: chars =>
      if c ≠ '\\' then c :: decodeEscapes chars
      else
        match chars with
        | [] => ['\\']
        | next :: rest =>
            match harcEscape next with
            | some value => value :: decodeEscapes rest
            | none => '\\' :: next :: decodeEscapes rest

/-- The characters that `escape_cpp_string` writes in hexadecimal. -/
def HexEscaped (c : Char) : Prop := commonEscape c = none ∧ isControl c

instance (c : Char) : Decidable (HexEscaped c) := inferInstanceAs (Decidable (_ ∧ _))

/-- Every character written in hexadecimal is an ASCII one that no hexadecimal digit follows. -/
def HexEscapesEnd : List Char → Prop
  | [] => True
  | c :: s =>
      (HexEscaped c → c.toNat < 0x80 ∧ ∀ d ∈ s.head?, digit 16 d = none) ∧ HexEscapesEnd s

/-- No backslash that opens an escape stands before the end of a line. -/
def EscapesOnOneLine : List Char → Prop
  | [] => True
  | c :: chars =>
      if c ≠ '\\' then EscapesOnOneLine chars
      else
        match chars with
        | [] => True
        | next :: rest => ¬ LineEnd next ∧ EscapesOnOneLine rest

/-! ### Reading the texts back -/

section

variable {c : Char} {s : List Char}

@[simp] theorem utf8_nil : utf8 [] = [] := rfl

@[simp] theorem utf8_cons (c : Char) (s : List Char) :
    utf8 (c :: s) = String.utf8EncodeChar c ++ utf8 s := rfl

theorem plain_of_commonEscape (h : commonEscape c = none) : Plain c := by
  unfold commonEscape at h
  split_ifs at h with hslash hquote hnewline hreturn htab
  refine ⟨hquote, hslash, ?_⟩
  rintro (hline | hline)
  · exact hnewline hline
  · exact hreturn hline

theorem read_commonEscape {text : List Char} (h : commonEscape c = some text)
    (rest : List Char) :
    read (text ++ rest) .plain = (read rest .plain).map (String.utf8EncodeChar c ++ ·) := by
  unfold commonEscape at h
  split_ifs at h with hslash hquote hnewline hreturn htab
  all_goals
    subst c
    cases h
    exact read_simple (by decide) (by decide) rfl

theorem read_escapeC (s : List Char) : read (escapeC s ++ ['"']) .plain = some (utf8 s) := by
  induction s with
  | nil => rfl
  | cons c s ih =>
      have hchar (rest : List Char) : read ((commonEscape c).getD [c] ++ rest) .plain =
          (read rest .plain).map (String.utf8EncodeChar c ++ ·) := by
        match hcommon : commonEscape c with
        | some text => exact read_commonEscape hcommon rest
        | none => exact read_plain (plain_of_commonEscape hcommon)
      have hcons : escapeC (c :: s) = (commonEscape c).getD [c] ++ escapeC s := rfl
      rw [hcons, List.append_assoc, hchar, ih]
      rfl

/-! ### Hexadecimal escapes -/

theorem map_digit_hex02 :
    ∀ n < 256, (hex02 n).map (digit 16) = [some (n / 16), some (n % 16)] := by
  decide +kernel

theorem read_hexEscaped (h : HexEscaped c) (rest : List Char) :
    read (escapeCppChar c ++ rest) .plain = read rest (.hex c.toNat) := by
  obtain ⟨hcommon, hcontrol⟩ := h
  have hlt : c.toNat < 256 := by
    rcases hcontrol with hlow | ⟨_, hhigh⟩
    · omega
    · omega
  have hmap := map_digit_hex02 c.toNat hlt
  obtain ⟨high, tail, hhex, hhigh, htail⟩ := List.map_eq_cons_iff.mp hmap
  obtain ⟨low, rest', rfl, hlow, hnil⟩ := List.map_eq_cons_iff.mp htail
  obtain rfl := List.map_eq_nil_iff.mp hnil
  have hchar : escapeCppChar c = ['\\', 'x', high, low] := by
    rw [escapeCppChar, hcommon, ← hhex]
    exact if_pos hcontrol
  have hvalue : c.toNat / 16 * 16 + c.toNat % 16 = c.toNat := Nat.div_add_mod' _ _
  rw [hchar]
  change read ('\\' :: 'x' :: high :: low :: rest) .plain = _
  rw [read_hexEscape hhigh hlow, hvalue]

theorem read_escapeCppChar (h : ¬ HexEscaped c) (rest : List Char) :
    read (escapeCppChar c ++ rest) .plain =
      (read rest .plain).map (String.utf8EncodeChar c ++ ·) := by
  match hcommon : commonEscape c with
  | some text =>
      have hchar : escapeCppChar c = text := by rw [escapeCppChar, hcommon]
      rw [hchar]
      exact read_commonEscape hcommon rest
  | none =>
      have hcontrol : ¬ isControl c := fun hcontrol => h ⟨hcommon, hcontrol⟩
      have hchar : escapeCppChar c = [c] := by
        rw [escapeCppChar, hcommon]
        exact if_neg hcontrol
      rw [hchar]
      exact read_plain (plain_of_commonEscape hcommon)

theorem digit_range {d : Nat} (h : digit 16 c = some d) : 0x30 ≤ c.toNat ∧ c.toNat ≤ 0x66 := by
  have hrange (low high : Char) (hc : low ≤ c ∧ c ≤ high) :
      low.toNat ≤ c.toNat ∧ c.toNat ≤ high.toNat :=
    ⟨Char.le_def.mp hc.1, Char.le_def.mp hc.2⟩
  unfold digit at h
  dsimp only at h
  split_ifs at h with hdecimal hlower hupper
  · have := hrange _ _ hdecimal
    exact ⟨this.1, Nat.le_trans this.2 (by decide)⟩
  · have := hrange _ _ hlower
    exact ⟨Nat.le_trans (by decide) this.1, this.2⟩
  · have := hrange _ _ hupper
    exact ⟨Nat.le_trans (by decide) this.1, Nat.le_trans this.2 (by decide)⟩
  · cases h

theorem escapeCppChar_of_digit {d : Nat} (h : digit 16 c = some d) : escapeCppChar c = [c] := by
  have hcommon : commonEscape c = none := by
    by_contra hsome
    obtain ⟨text, htext⟩ := Option.ne_none_iff_exists'.mp hsome
    unfold commonEscape at htext
    split_ifs at htext
    all_goals
      subst c
      exact absurd h (by decide +revert)
  have hcontrol : ¬ isControl c := by
    have := digit_range h
    rintro (hlow | ⟨hhigh, _⟩)
    · omega
    · omega
  rw [escapeCppChar, hcommon]
  exact if_neg hcontrol

theorem escapeCppChar_of_not_digit (h : digit 16 c = none) :
    ∃ d tail, escapeCppChar c = d :: tail ∧ digit 16 d = none := by
  unfold escapeCppChar
  match hcommon : commonEscape c with
  | some text =>
      unfold commonEscape at hcommon
      split_ifs at hcommon
      all_goals
        cases hcommon
        exact ⟨'\\', _, rfl, by decide⟩
  | none =>
      by_cases hcontrol : isControl c
      · exact ⟨'\\', 'x' :: hex02 c.toNat, if_pos hcontrol, by decide⟩
      · exact ⟨c, [], if_neg hcontrol, h⟩

/-- Where the next character is no digit, the hexadecimal escape before it ends. -/
theorem read_hex_end {value : Nat} (h : ∀ d ∈ s.head?, digit 16 d = none) :
    read (escapeCppString s ++ ['"']) (.hex value) =
      emit value (read (escapeCppString s ++ ['"']) .plain) := by
  cases s with
  | nil => exact read_hex_none (by decide)
  | cons c s =>
      obtain ⟨d, tail, hchar, hdigit⟩ := escapeCppChar_of_not_digit (h c rfl)
      have hcons : escapeCppString (c :: s) = escapeCppChar c ++ escapeCppString s := rfl
      rw [hcons, hchar]
      exact read_hex_none hdigit

theorem read_hex_digit {value d : Nat} (h : digit 16 c = some d) (s : List Char) :
    read (escapeCppString (c :: s) ++ ['"']) (.hex value) =
      read (escapeCppString s ++ ['"']) (.hex (value * 16 + d)) := by
  have hcons : escapeCppString (c :: s) = escapeCppChar c ++ escapeCppString s := rfl
  rw [hcons, escapeCppChar_of_digit h]
  exact read_hex_some h

theorem read_cons_hexEscaped (h : HexEscaped c) (s : List Char) :
    read (escapeCppString (c :: s) ++ ['"']) .plain =
      read (escapeCppString s ++ ['"']) (.hex c.toNat) := by
  have hcons : escapeCppString (c :: s) = escapeCppChar c ++ escapeCppString s := rfl
  rw [hcons, List.append_assoc, read_hexEscaped h]

theorem read_cons_plain (h : ¬ HexEscaped c) (s : List Char) :
    read (escapeCppString (c :: s) ++ ['"']) .plain =
      (read (escapeCppString s ++ ['"']) .plain).map (String.utf8EncodeChar c ++ ·) := by
  have hcons : escapeCppString (c :: s) = escapeCppChar c ++ escapeCppString s := rfl
  rw [hcons, List.append_assoc, read_escapeCppChar h]

theorem utf8_cons_length (c : Char) (s : List Char) :
    (utf8 (c :: s)).length = c.utf8Size + (utf8 s).length := by
  rw [utf8_cons, List.length_append, String.length_utf8EncodeChar]

/-- An escape that runs on into its successor loses bytes, and nothing behind it makes up for
them: no text is read as more bytes than its string has. -/
theorem length_read_le (s : List Char) :
    (∀ bytes, read (escapeCppString s ++ ['"']) .plain = some bytes →
      bytes.length ≤ (utf8 s).length) ∧
    ∀ value bytes, read (escapeCppString s ++ ['"']) (.hex value) = some bytes →
      bytes.length ≤ (utf8 s).length + 1 := by
  induction s with
  | nil =>
      constructor
      · intro bytes h
        cases h
        exact Nat.le_refl _
      · intro value bytes h
        obtain ⟨tail, htail, rfl⟩ := emit_eq_some ((read_hex_end (s := []) (by simp)).symm.trans h)
        cases htail
        exact Nat.le_refl _
  | cons c s ih =>
      obtain ⟨ihplain, ihhex⟩ := ih
      have hsize := Char.utf8Size_pos c
      have hplain : ∀ bytes, read (escapeCppString (c :: s) ++ ['"']) .plain = some bytes →
          bytes.length ≤ (utf8 (c :: s)).length := by
        intro bytes h
        rw [utf8_cons_length]
        by_cases hhex : HexEscaped c
        · rw [read_cons_hexEscaped hhex] at h
          have := ihhex _ _ h
          omega
        · rw [read_cons_plain hhex] at h
          obtain ⟨tail, htail, rfl⟩ := Option.map_eq_some_iff.mp h
          have := ihplain _ htail
          rw [List.length_append, String.length_utf8EncodeChar]
          omega
      refine ⟨hplain, ?_⟩
      intro value bytes h
      match hdigit : digit 16 c with
      | some d =>
          rw [read_hex_digit hdigit] at h
          have := ihhex _ _ h
          rw [utf8_cons_length]
          omega
      | none =>
          have hend : ∀ d ∈ (c :: s).head?, digit 16 d = none := by
            intro d hd
            cases hd
            exact hdigit
          rw [read_hex_end hend] at h
          obtain ⟨tail, htail, rfl⟩ := emit_eq_some h
          have := hplain _ htail
          rw [List.length_cons]
          omega

theorem utf8EncodeChar_ascii (h : c.toNat < 0x80) :
    String.utf8EncodeChar c = [UInt8.ofNat c.toNat] := by
  have hval : c.val ≤ 127 := UInt32.le_iff_toNat_le.mpr (Nat.le_of_lt_succ h)
  exact String.utf8EncodeChar_eq_singleton (Char.utf8Size_eq_one_iff.mpr hval)

theorem two_le_utf8Size (h : ¬ c.toNat < 0x80) : 2 ≤ c.utf8Size := by
  have hpos := Char.utf8Size_pos c
  have hone : c.utf8Size ≠ 1 := by
    intro hsize
    have hval := UInt32.le_iff_toNat_le.mp (Char.utf8Size_eq_one_iff.mp hsize)
    exact h (Nat.lt_succ_of_le hval)
  omega

/-- The hexadecimal escape of one character in front of a string that is read back. -/
theorem read_hexEscaped_iff (s : List Char) :
    read (escapeCppString s ++ ['"']) (.hex c.toNat) = some (utf8 (c :: s)) ↔
      (c.toNat < 0x80 ∧ ∀ d ∈ s.head?, digit 16 d = none) ∧
        read (escapeCppString s ++ ['"']) .plain = some (utf8 s) := by
  constructor
  · intro h
    have hend : ∀ d ∈ s.head?, digit 16 d = none := by
      intro d hd
      by_contra hsome
      obtain ⟨x, hx⟩ := Option.ne_none_iff_exists'.mp hsome
      cases s with
      | nil => cases hd
      | cons d' s =>
          cases hd
          rw [read_hex_digit hx] at h
          have hle := (length_read_le s).2 _ _ h
          have hsize := Char.utf8Size_pos c
          have hsize' := Char.utf8Size_pos d
          rw [utf8_cons_length, utf8_cons_length] at hle
          omega
    rw [read_hex_end hend] at h
    obtain ⟨tail, htail, hbytes⟩ := emit_eq_some h
    have hascii : c.toNat < 0x80 := by
      by_contra hnot
      have hle := (length_read_le s).1 _ htail
      have hsize := two_le_utf8Size hnot
      have hlength := congrArg List.length hbytes
      rw [utf8_cons_length, List.length_cons] at hlength
      omega
    rw [utf8_cons, utf8EncodeChar_ascii hascii] at hbytes
    have htailEq : utf8 s = tail := (List.cons.inj hbytes).2
    exact ⟨⟨hascii, hend⟩, htailEq ▸ htail⟩
  · rintro ⟨⟨hascii, hend⟩, hread⟩
    rw [read_hex_end hend, hread, emit, if_pos (by omega), utf8_cons, utf8EncodeChar_ascii hascii]
    rfl

theorem read_escapeCppString_iff (s : List Char) :
    read (escapeCppString s ++ ['"']) .plain = some (utf8 s) ↔ HexEscapesEnd s := by
  induction s with
  | nil => exact iff_of_true rfl trivial
  | cons c s ih =>
      by_cases hhex : HexEscaped c
      · rw [read_cons_hexEscaped hhex, read_hexEscaped_iff, ih, HexEscapesEnd]
        exact and_congr_left fun _ => (imp_iff_right hhex).symm
      · have hcancel : ((read (escapeCppString s ++ ['"']) .plain).map
            (String.utf8EncodeChar c ++ ·) = some (utf8 (c :: s))) ↔
            read (escapeCppString s ++ ['"']) .plain = some (utf8 s) := by
          rw [utf8_cons, ← Option.map_some (f := (String.utf8EncodeChar c ++ ·))]
          exact (Option.map_injective (List.append_right_injective _)).eq_iff
        rw [read_cons_plain hhex, hcancel, ih, HexEscapesEnd]
        exact ⟨fun h => ⟨fun h' => absurd h' hhex, h⟩, fun h => h.2⟩

/-! ### String values -/

theorem read_valueChar (h : c ≠ '\\') {rest : List Char} (hrest : rest ≠ []) :
    read (valueChar c ++ rest) .plain =
      (read rest .plain).map (String.utf8EncodeChar c ++ ·) := by
  unfold valueChar
  split_ifs with hquote hnewline hreturn htab hzero
  · subst c
    exact read_simple (by decide) (by decide) rfl
  · subst c
    exact read_simple (by decide) (by decide) rfl
  · subst c
    exact read_simple (by decide) (by decide) rfl
  · subst c
    exact read_simple (by decide) (by decide) rfl
  · subst c
    exact read_zeroEscape hrest
  · refine read_plain ⟨hquote, h, ?_⟩
    rintro (hline | hline)
    · exact hnewline hline
    · exact hreturn hline

/-- What an escape of the raw token stands for. -/
def escapeValue (c : Char) : List Char :=
  match harcEscape c with
  | some value => [value]
  | none => ['\\', c]

theorem harcEscape_none (hzero : c ≠ '0') (hmem : c ∉ ['\\', '"', 'n', 'r', 't']) :
    harcEscape c = none := by
  unfold harcEscape
  split
  · exact absurd rfl hzero
  all_goals first | exact absurd (by decide) hmem | rfl

theorem read_valueEscape {rest : List Char} (hline : ¬ LineEnd c) (hrest : rest ≠ []) :
    read (valueEscape c ++ rest) .plain =
      (read rest .plain).map (utf8 (escapeValue c) ++ ·) := by
  unfold valueEscape
  split_ifs with hzero hmem
  · subst c
    exact read_zeroEscape hrest
  · simp only [List.mem_cons, List.not_mem_nil, or_false] at hmem
    rcases hmem with rfl | rfl | rfl | rfl | rfl
    all_goals exact read_simple (by decide) (by decide) rfl
  · have hplain : Plain c := by
      refine ⟨?_, ?_, hline⟩
      · rintro rfl
        exact hmem (by decide)
      · rintro rfl
        exact hmem (by decide)
    have hvalue : escapeValue c = ['\\', c] := by
      rw [escapeValue, harcEscape_none hzero hmem]
    have hslash : read (['\\', '\\', c] ++ rest) .plain =
        (read (c :: rest) .plain).map (0x5C :: ·) :=
      read_simple (by decide) (by decide) rfl
    rw [hslash, read_plain hplain, hvalue, Option.map_map]
    congr 1
    funext bytes
    simp only [Function.comp_apply, utf8_cons, utf8_nil, List.append_nil]
    rfl

theorem read_valueEscape_lineEnd (hline : LineEnd c) (rest : List Char) :
    read (valueEscape c ++ rest) .plain = none := by
  have hvalue : valueEscape c = ['\\', '\\', c] := by
    rcases hline with rfl | rfl
    · rfl
    · rfl
  have hslash : read (['\\', '\\', c] ++ rest) .plain =
      (read (c :: rest) .plain).map (0x5C :: ·) :=
    read_simple (by decide) (by decide) rfl
  rw [hvalue, hslash, read_lineEnd hline]
  rfl

theorem decodeEscapes_char (hc : c ≠ '\\') (chars : List Char) :
    decodeEscapes (c :: chars) = c :: decodeEscapes chars := by
  rw [decodeEscapes.eq_def]
  exact if_pos hc

theorem decodeEscapes_escape (next : Char) (rest : List Char) :
    decodeEscapes ('\\' :: next :: rest) = escapeValue next ++ decodeEscapes rest := by
  rw [decodeEscapes, if_neg (by simp), escapeValue]
  split <;> rfl

theorem escapesOnOneLine_char (hc : c ≠ '\\') (chars : List Char) :
    EscapesOnOneLine (c :: chars) ↔ EscapesOnOneLine chars := by
  rw [EscapesOnOneLine.eq_def]
  exact iff_of_eq (if_pos hc)

theorem escapesOnOneLine_escape (next : Char) (rest : List Char) :
    EscapesOnOneLine ('\\' :: next :: rest) ↔ ¬ LineEnd next ∧ EscapesOnOneLine rest := by
  rw [EscapesOnOneLine.eq_def]
  exact iff_of_eq (if_neg (by simp))

theorem utf8_append (s t : List Char) : utf8 (s ++ t) = utf8 s ++ utf8 t :=
  List.flatMap_append

theorem read_stringValueChars (raw : List Char) :
    (EscapesOnOneLine raw →
      read (stringValueChars raw ++ ['"']) .plain = some (utf8 (decodeEscapes raw))) ∧
    (¬ EscapesOnOneLine raw → read (stringValueChars raw ++ ['"']) .plain = none) := by
  have hclosed (text : List Char) : text ++ ['"'] ≠ [] :=
    List.append_ne_nil_of_right_ne_nil text (List.cons_ne_nil _ _)
  fun_induction stringValueChars raw with
  | case1 => exact ⟨fun _ => rfl, fun h => absurd trivial h⟩
  | case2 c chars hc ih =>
      obtain ⟨ihread, ihstuck⟩ := ih
      rw [escapesOnOneLine_char hc, List.append_assoc, read_valueChar hc (hclosed _),
        decodeEscapes_char hc]
      constructor
      · intro h
        rw [ihread h]
        rfl
      · intro h
        rw [ihstuck h]
        rfl
  | case3 c hc =>
      obtain rfl := not_not.mp hc
      exact ⟨fun _ => rfl, fun h => absurd trivial h⟩
  | case4 c hc next rest ih =>
      obtain rfl := not_not.mp hc
      obtain ⟨ihread, ihstuck⟩ := ih
      rw [escapesOnOneLine_escape, List.append_assoc, decodeEscapes_escape]
      by_cases hline : LineEnd next
      · refine ⟨fun h => absurd hline h.1, fun _ => ?_⟩
        exact read_valueEscape_lineEnd hline _
      · rw [read_valueEscape hline (hclosed _)]
        constructor
        · intro h
          rw [ihread h.2, utf8_append]
          rfl
        · intro h
          rw [ihstuck fun hrest => h ⟨hline, hrest⟩]
          rfl

theorem read_stringValueChars_iff (raw : List Char) :
    read (stringValueChars raw ++ ['"']) .plain = some (utf8 (decodeEscapes raw)) ↔
      EscapesOnOneLine raw := by
  obtain ⟨hread, hstuck⟩ := read_stringValueChars raw
  refine ⟨fun h => ?_, hread⟩
  by_contra hnot
  rw [hstuck hnot] at h
  cases h

/-- The three escapers are lossless exactly where no hexadecimal escape runs on and no line ends
behind a backslash. -/
theorem literals_lossless_iff (s raw : List Char) :
    (literalBytes (quoted (escapeCppString s)) = some (utf8 s) ∧
      literalBytes (quoted (escapeC s)) = some (utf8 s) ∧
      literalBytes (stringValueLiteralCpp raw) = some (utf8 (decodeEscapes raw))) ↔
      HexEscapesEnd s ∧ EscapesOnOneLine raw := by
  simp only [stringValueLiteralCpp, literalBytes_quoted, read_escapeCppString_iff,
    read_stringValueChars_iff, read_escapeC, true_and]

/-- U+0001 in front of an `A` is read back as the one byte 0x1A. -/
theorem hex_escape_runs_on :
    ¬ ∀ s raw : List Char, literalBytes (quoted (escapeCppString s)) = some (utf8 s) ∧
      literalBytes (quoted (escapeC s)) = some (utf8 s) ∧
      literalBytes (stringValueLiteralCpp raw) = some (utf8 (decodeEscapes raw)) := by
  intro h
  exact absurd (h ['\x01', 'A'] []).1 (by decide +kernel)

end

end Harc.StringEscapes
