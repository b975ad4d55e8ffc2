import Mathlib.Data.List.Basic
import Mathlib.Data.Option.Basic

/-!
The bytes that a C++ string literal stands for.

A hexadecimal escape takes every hexadecimal digit that follows it, an octal one at most three
digits, and a character outside an escape is its own UTF-8 bytes. The escapes of universal
characters are not read.
-/

namespace Harc.CppLiterals

/-- The value of a digit. -/
def digit (base : Nat) (c : Char) : Option Nat :=
  let value :=
    if '0' ≤ c ∧ c ≤ '9' then some (c.toNat - '0'.toNat)
    else if 'a' ≤ c ∧ c ≤ 'f' then some (c.toNat - 'a'.toNat + 10)
    else if 'A' ≤ c ∧ c ≤ 'F' then some (c.toNat - 'A'.toNat + 10)
    else none
  value.filter (· < base)

def simpleEscape (c : Char) : Option UInt8 :=
  match c with
  | '\'' => some 0x27
  | '"' => some 0x22
  | '?' => some 0x3F
  | '\\' => some 0x5C
  | 'a' => some 0x07
  | 'b' => some 0x08
  | 'f' => some 0x0C
  | 'n' => some 0x0A
  | 'r' => some 0x0D
  | 't' => some 0x09
  | 'v' => some 0x0B
  | _ => none

/-- Where the reader is. -/
inductive Mode where
  | plain
  | escape
  | hexStart
  | hex (value : Nat)
  | octal (value left : Nat)

/-- A line that ends inside a literal is an error. -/
def LineEnd (c : Char) : Prop := c = '\n' ∨ c = '\r'

instance (c : Char) : Decidable (LineEnd c) := inferInstanceAs (Decidable (_ ∨ _))

/-- A numeric escape has to fit a byte. -/
def emit (value : Nat) (rest : Option (List UInt8)) : Option (List UInt8) :=
  if value < 256 then rest.map (UInt8.ofNat value :: ·) else none

/-- One character outside an escape; the closing quote ends the text. -/
def plainStep (c : Char) (last : Bool) (next : Mode → Option (List UInt8)) :
    Option (List UInt8) :=
  if c = '"' then if last then some [] else none
  else if c = '\\' then next .escape
  else if LineEnd c then none
  else (next .plain).map (String.utf8EncodeChar c ++ ·)

def escapeStep (c : Char) (next : Mode → Option (List UInt8)) : Option (List UInt8) :=
  if c = 'x' then next .hexStart
  else
    match digit 8 c with
    | some d => next (.octal d 2)
    | none =>
        match simpleEscape c with
        | some b => (next .plain).map (b :: ·)
        | none => none

def read : List Char → Mode → Option (List UInt8)
  | [], _ => none
  | c :: cs, .plain => plainStep c cs.isEmpty (read cs)
  | c :: cs, .escape => escapeStep c (read cs)
  | c :: cs, .hexStart => (digit 16 c).bind fun d => read cs (.hex d)
  | c :: cs, .hex value =>
      match digit 16 c with
      | some d => read cs (.hex (value * 16 + d))
      | none => emit value (plainStep c cs.isEmpty (read cs))
  | c :: cs, .octal value 0 => emit value (plainStep c cs.isEmpty (read cs))
  | c :: cs, .octal value (left + 1) =>
      match digit 8 c with
      | some d => read cs (.octal (value * 8 + d) left)
      | none => emit value (plainStep c cs.isEmpty (read cs))

/-- A literal that ends within an escape is no literal. -/
example : read ['\\'] .plain = none := by
  simp [read, plainStep]

/-- The bytes of a text that is one whole string literal. -/
def literalBytes : List Char → Option (List UInt8)
  | '"' :: text => read text .plain
  | _ => none

def quoted (body : List Char) : List Char :=
  '"' :: (body ++ ['"'])

section

variable {c : Char} {text : List Char}

@[simp] theorem literalBytes_quoted (body : List Char) :
    literalBytes (quoted body) = read (body ++ ['"']) .plain := rfl

theorem read_close : read ['"'] .plain = some [] := rfl

/-- A character that a literal may hold as it is. -/
def Plain (c : Char) : Prop := c ≠ '"' ∧ c ≠ '\\' ∧ ¬ LineEnd c

theorem read_plain (hplain : Plain c) :
    read (c :: text) .plain = (read text .plain).map (String.utf8EncodeChar c ++ ·) := by
  obtain ⟨hquote, hslash, hline⟩ := hplain
  rw [read, plainStep, if_neg hquote, if_neg hslash, if_neg hline]

theorem read_lineEnd (hline : LineEnd c) : read (c :: text) .plain = none := by
  have hquote : c ≠ '"' := by
    rintro rfl
    exact absurd hline (by decide)
  have hslash : c ≠ '\\' := by
    rintro rfl
    exact absurd hline (by decide)
  rw [read, plainStep, if_neg hquote, if_neg hslash, if_pos hline]

theorem read_simple {b : UInt8} (hx : c ≠ 'x') (hdigit : digit 8 c = none)
    (hsimple : simpleEscape c = some b) :
    read ('\\' :: c :: text) .plain = (read text .plain).map (b :: ·) := by
  have hescape : read ('\\' :: c :: text) .plain = read (c :: text) .escape := rfl
  rw [hescape, read, escapeStep, if_neg hx, hdigit, hsimple]

/-- Where no digit follows, the hexadecimal escape ends. -/
theorem read_hex_none {value : Nat} (hdigit : digit 16 c = none) :
    read (c :: text) (.hex value) = emit value (read (c :: text) .plain) := by
  have hplain : read (c :: text) .plain = plainStep c text.isEmpty (read text) := rfl
  rw [hplain, read, hdigit]

theorem read_hex_some {value d : Nat} (hdigit : digit 16 c = some d) :
    read (c :: text) (.hex value) = read text (.hex (value * 16 + d)) := by
  rw [read, hdigit]

/-- Two digits open a hexadecimal escape. -/
theorem read_hexEscape {high low : Char} {x y : Nat} (hhigh : digit 16 high = some x)
    (hlow : digit 16 low = some y) :
    read ('\\' :: 'x' :: high :: low :: text) .plain = read text (.hex (x * 16 + y)) := by
  have hescape : read ('\\' :: 'x' :: high :: low :: text) .plain =
      read (high :: low :: text) .hexStart := rfl
  rw [hescape, read, hhigh, Option.bind_some, read_hex_some hlow]

/-- The third octal digit ends the escape, whatever follows. -/
theorem read_zeroEscape (htext : text ≠ []) :
    read ('\\' :: '0' :: '0' :: '0' :: text) .plain = (read text .plain).map (0 :: ·) := by
  have hescape : read ('\\' :: '0' :: '0' :: '0' :: text) .plain = read text (.octal 0 0) := rfl
  cases text with
  | nil => exact absurd rfl htext
  | cons c text =>
      have hplain : read (c :: text) .plain = plainStep c text.isEmpty (read text) := rfl
      rw [hescape, hplain]
      rfl

theorem emit_eq_some {value : Nat} {rest : Option (List UInt8)} {bytes : List UInt8}
    (h : emit value rest = some bytes) :
    ∃ tail, rest = some tail ∧ bytes = UInt8.ofNat value :: tail := by
  unfold emit at h
  split_ifs at h with hvalue
  obtain ⟨tail, htail, rfl⟩ := Option.map_eq_some_iff.mp h
  exact ⟨tail, htail, rfl⟩

end

end Harc.CppLiterals
