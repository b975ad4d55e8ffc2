import Harc.Fallible
import Harc.SizedLiterals
import Mathlib.Data.List.DropRight
import Mathlib.Data.List.Infix

/-!
Interpolations in string literals, `"x=${x:04x}"`: how the backends take a literal apart
(`codegen/source_transform.rs`) and what the parser checks about it before (`parser.rs`). The
source scans the bytes of the text. The bytes it looks for are ASCII and occur in no other
character, so that the scanners are over characters here.
-/

namespace Harc.InterpolatedStrings

open Harc.SizedLiterals Harc.Fallible

/-- `char::is_whitespace` -/
def isWhitespace (c : Char) : Bool :=
  let n := c.toNat
  decide ((0x09 ≤ n ∧ n ≤ 0x0D) ∨ (0x2000 ≤ n ∧ n ≤ 0x200A)) ||
    [0x20, 0x85, 0xA0, 0x1680, 0x2028, 0x2029, 0x202F, 0x205F, 0x3000].contains n

/-- `str::trim` -/
def trim (text : List Char) : List Char :=
  (text.dropWhile isWhitespace).rdropWhile isWhitespace

/-- The text before and after the last `:`. -/
def splitLastColon : List Char → Option (List Char × List Char)
  | [] => none
  | c :: rest =>
      match splitLastColon rest with
      | some (before, after) => some (c :: before, after)
      | none => if c = ':' then some ([], rest) else none

/-- The text before the first `}` and the text after it. -/
def closing : List Char → Option (List Char × List Char)
  | [] => none
  | c :: rest =>
      if c = '}' then some ([], rest)
      else (closing rest).map fun (inner, after) => (c :: inner, after)

theorem closing_length {text inner after : List Char} (h : closing text = some (inner, after)) :
    after.length < text.length := by
  induction text generalizing inner with
  | nil => exact nomatch h
  | cons c rest ih =>
      rw [closing] at h
      split_ifs at h with hc
      · obtain ⟨-, rfl⟩ := Prod.mk.inj (Option.some.inj h)
        exact Nat.lt_succ_self _
      · obtain ⟨⟨inner', after'⟩, hrest, heq⟩ := Option.map_eq_some_iff.mp h
        obtain ⟨-, rfl⟩ := Prod.mk.inj heq
        exact Nat.lt_succ_of_lt (ih hrest)

/-! Code generation. -/

/-- One `${expr:spec}` capture. -/
structure InterpCap where
  expr : List Char
  wideHex : Option (Nat × Bool)
deriving DecidableEq

/-- The width digits of a prefix, after the zeros in front of them. -/
def specWidth (pre : List Char) : Nat :=
  (parseUnsigned (2 ^ 64 - 1)
    ((pre.dropWhile (· == '0')).takeWhile fun c => c.isDigit)).getD 0

def translateFmtSpec (spec : List Char) : List Char × Option (Nat × Bool) :=
  match spec.getLast? with
  | none => ("%lld".toList, none)
  | some last =>
      let pre := spec.dropLast
      let width := specWidth pre
      if last = 'd' then ('%' :: pre ++ "lld".toList, none)
      else if last = 'o' then ('%' :: pre ++ "llo".toList, none)
      else if (last = 'x' ∨ last = 'X') ∧ 16 < width then
        ("%s".toList, some (width, last == 'X'))
      else if last = 'x' then ('%' :: pre ++ "llx".toList, none)
      else if last = 'X' then ('%' :: pre ++ "llX".toList, none)
      else ("%lld".toList, none)

/-- Expression and format spec of a capture. -/
def splitSpec (inner : List Char) : List Char × List Char :=
  match splitLastColon inner with
  | some (before, after) => (trim before, trim after)
  | none => (inner, [])

/-- The bytes of a character, each pushed as a character. -/
def pushBytes (c : Char) : List Char :=
  (String.utf8EncodeChar c).map fun b => Char.ofNat b.toNat

def processInterp : List Char → List Char × List InterpCap
  | [] => ([], [])
  | '$' :: '{' :: rest =>
      match _h : closing rest with
      | none => ([], [])
      | some (inner, after) =>
          let (expr, spec) := splitSpec (trim inner)
          let (token, wideHex) := translateFmtSpec spec
          let (fmt, captures) := processInterp after
          (token ++ fmt, ⟨expr, wideHex⟩ :: captures)
  | '%' :: rest =>
      let (fmt, captures) := processInterp rest
      ('%' :: '%' :: fmt, captures)
  | c :: rest =>
      let (fmt, captures) := processInterp rest
      (pushBytes c ++ fmt, captures)
termination_by text => text.length
decreasing_by
  · have := closing_length _h
    simp only [List.length_cons]
    omega
  · simp
  · simp

/-! The check of the parser. -/

def isLiteralDigit (c : Char) : Bool :=
  (toDigit 16 c).isSome || c == '_'

/-- Digits, a tick, a letter for the radix and what may be digits. -/
def sizedLiteralsIn : List Char → List (List Char)
  | [] => []
  | c :: rest =>
      if _h : c.isDigit = true then
        let digits := (c :: rest).takeWhile fun c => c.isDigit
        match _hafter : (c :: rest).dropWhile fun c => c.isDigit with
        | '\'' :: radixCh :: body =>
            if radixCh ∈ ['b', 'h', 'd', 'B', 'H', 'D'] then
              (digits ++ '\'' :: radixCh :: body.takeWhile isLiteralDigit) ::
                sizedLiteralsIn (body.dropWhile isLiteralDigit)
            else sizedLiteralsIn ('\'' :: radixCh :: body)
        | after => sizedLiteralsIn after
      else sizedLiteralsIn rest
termination_by text => text.length
decreasing_by
  all_goals
    have hshort : (rest.dropWhile fun c => c.isDigit).length ≤ rest.length :=
      (List.dropWhile_sublist _).length_le
  · have hbody : (body.dropWhile isLiteralDigit).length ≤ body.length :=
      (List.dropWhile_sublist _).length_le
    rw [List.dropWhile_cons_of_pos _h] at _hafter
    rw [_hafter] at hshort
    simp only [List.length_cons] at hshort ⊢
    omega
  · rw [List.dropWhile_cons_of_pos _h] at _hafter
    rw [_hafter] at hshort
    simp only [List.length_cons] at hshort ⊢
    omega
  · rw [List.dropWhile_cons_of_pos _h] at _hafter
    rw [_hafter] at hshort
    simp only [List.length_cons]
    omega
  · simp

def checkSizedLiterals : List (List Char) → Except InvalidLiteral Unit
  | [] => .ok ()
  | lit :: rest => do
      checkSizedLiteral lit
      checkSizedLiterals rest

/-- The error of a capture that is no expression. -/
def notAnExpression (inner : List Char) : InvalidLiteral :=
  let construct :=
    if '?' ∈ inner then some "ternary"
    else if '[' ∈ inner ∧ ':' ∈ inner then some "bit-slice"
    else none
  let (why, help) := match construct with
    | some what =>
        (": a capture is split on its LAST `:`, which collides with the " ++ what ++ "'s own",
          "add an explicit format spec to move the split point — `$\x7ba ? b : c:d\x7d`, " ++
            "`$\x7bx[7:0]:02x\x7d` — or assign the value to a `let` first")
    | none =>
        ("", "an interpolation holds one complete expression, optionally followed by `:` and a " ++
          "format spec")
  ⟨"`$\x7b" ++ String.ofList inner ++ "\x7d` is not an expression" ++ why, help⟩

section Parser

variable {Token Expr Err : Type} (tokenize : List Char → Except Err (List Token))
variable (parseExpr : List Char → List Token → Except Err (Expr × List Token))
variable (unexpectedToken : Token → Err)

/-- The expression of a fragment that is consumed entirely. `parseExpr` reads the tokens and
the source text behind them, and leaves the tokens it did not use. -/
def parseExprFragmentComplete (source : List Char) : Except Err Expr := do
  let tokens ← tokenize source
  let (e, rest) ← parseExpr source tokens
  match rest with
  | [] => .ok e
  | k :: _ => .error (unexpectedToken k)

/-- What is checked about one capture. The result is its expression text. -/
def checkCapture (inner : List Char) : Except InvalidLiteral (List Char) := do
  let exprSrc := match splitLastColon inner with
    | some (before, _) => trim before
    | none => inner
  checkSizedLiterals (sizedLiteralsIn exprSrc)
  match parseExprFragmentComplete tokenize parseExpr unexpectedToken exprSrc with
  | .ok _ => .ok exprSrc
  | .error _ => .error (notAnExpression inner)

/-- The loop over the text. The result lists the expression texts that were checked. -/
def checkCaptures : List Char → Except InvalidLiteral (List (List Char))
  | [] => .ok []
  | [_] => .ok []
  | c :: d :: rest =>
      if c ≠ '$' ∨ d ≠ '{' then checkCaptures (d :: rest)
      else
        match _h : closing rest with
        | none => .ok []
        | some (inner, after) => do
            let exprSrc ← checkCapture tokenize parseExpr unexpectedToken (trim inner)
            let captures ← checkCaptures after
            .ok (exprSrc :: captures)
termination_by text => text.length
decreasing_by
  · simp
  · have := closing_length _h
    simp only [List.length_cons]
    omega

def checkInterpolatedSizedLiterals (s : List Char) : Except InvalidLiteral (List (List Char)) :=
  if ¬ ['$', '{'] <:+: s then .ok []
  else checkCaptures tokenize parseExpr unexpectedToken s

end Parser

/-! The pieces of a text. -/

/-- A character outside the captures, what stands between `${` and the next `}`, or what
stands behind a `${` without a `}`. -/
inductive Segment where
  | text (c : Char)
  | capture (inner : List Char)
  | unmatched (rest : List Char)
deriving DecidableEq

def segments : List Char → List Segment
  | [] => []
  | '$' :: '{' :: rest =>
      match _h : closing rest with
      | none => [.unmatched rest]
      | some (inner, after) => .capture inner :: segments after
  | c :: rest => .text c :: segments rest
termination_by text => text.length
decreasing_by
  · have := closing_length _h
    simp only [List.length_cons]
    omega
  · simp

/-- A dollar sign alone is text. -/
example : segments ['$', 'x'] = [.text '$', .text 'x'] := by
  simp [segments]

/-- The text between the braces of each capture. -/
def captureTexts : List Segment → List (List Char)
  | [] => []
  | .capture inner :: rest => trim inner :: captureTexts rest
  | _ :: rest => captureTexts rest

def fmtToken (inner : List Char) : List Char :=
  (translateFmtSpec (splitSpec (trim inner)).2).1

/-- The format of the pieces. -/
def formatOf : List Segment → List Char
  | [] => []
  | .text c :: rest => (if c = '%' then ['%', '%'] else pushBytes c) ++ formatOf rest
  | .capture inner :: rest => fmtToken inner ++ formatOf rest
  | .unmatched _ :: rest => formatOf rest

section Segments

variable {c : Char} {rest inner after : List Char}

theorem segments_unmatched (h : closing rest = none) :
    segments ('$' :: '{' :: rest) = [.unmatched rest] := by
  rw [segments]
  split
  · rfl
  · next hsome => exact nomatch h.symm.trans hsome

theorem segments_capture (h : closing rest = some (inner, after)) :
    segments ('$' :: '{' :: rest) = .capture inner :: segments after := by
  rw [segments]
  split
  · next hnone => exact nomatch h.symm.trans hnone
  · next hsome =>
      obtain ⟨rfl, rfl⟩ := Prod.mk.inj (Option.some.inj (h.symm.trans hsome))
      rfl

theorem segments_text (h : ∀ rest', c = '$' → rest = '{' :: rest' → False) :
    segments (c :: rest) = .text c :: segments rest := by
  rw [segments]
  exact h

end Segments

/-- Code generation takes the text apart into its pieces. -/
theorem processInterp_eq (s : List Char) :
    processInterp s = (formatOf (segments s), (captureTexts (segments s)).map fun inner =>
      ⟨(splitSpec inner).1, (translateFmtSpec (splitSpec inner).2).2⟩) := by
  fun_induction processInterp s with
  | case1 =>
      rw [segments]
      rfl
  | case2 rest h =>
      rw [segments_unmatched h]
      rfl
  | case3 rest inner after h expr spec hsplit token wideHex htoken fmt captures hrec ih =>
      rw [hrec] at ih
      obtain ⟨rfl, rfl⟩ := Prod.mk.inj ih
      rw [segments_capture h, formatOf, captureTexts, List.map_cons, fmtToken, hsplit, htoken]
  | case4 rest fmt captures hrec ih =>
      rw [hrec] at ih
      obtain ⟨rfl, rfl⟩ := Prod.mk.inj ih
      rw [segments_text (fun _ hc => absurd hc (by decide)), formatOf, if_pos rfl]
      rfl
  | case5 c rest hopen hpercent fmt captures hrec ih =>
      rw [hrec] at ih
      obtain ⟨rfl, rfl⟩ := Prod.mk.inj ih
      rw [segments_text hopen, formatOf, if_neg hpercent, captureTexts]
      exact fun inner h => nomatch h

/-- Without a `${` there is no capture. -/
theorem captureTexts_of_no_opening {s : List Char} (h : ¬ ['$', '{'] <:+: s) :
    captureTexts (segments s) = [] := by
  fun_induction segments s with
  | case1 => rfl
  | case2 rest _ => rfl
  | case3 rest inner after _ ih => exact absurd (List.prefix_append ['$', '{'] rest).isInfix h
  | case4 c rest hopen ih =>
      rw [captureTexts]
      · exact ih fun hrest => h (hrest.trans (List.suffix_cons c rest).isInfix)
      · exact fun inner hseg => nomatch hseg

section Parser

variable {Token Expr Err : Type} {tokenize : List Char → Except Err (List Token)}
variable {parseExpr : List Char → List Token → Except Err (Expr × List Token)}
variable {unexpectedToken : Token → Err}

theorem parseExprFragmentComplete_ok {source : List Char} {e : Expr}
    (h : parseExprFragmentComplete tokenize parseExpr unexpectedToken source = .ok e) :
    ∃ tokens, tokenize source = .ok tokens ∧ parseExpr source tokens = .ok (e, []) := by
  rw [parseExprFragmentComplete] at h
  obtain ⟨tokens, htokens, h⟩ := bind_eq_ok.mp h
  obtain ⟨⟨e', rest⟩, hparse, h⟩ := bind_eq_ok.mp h
  cases rest with
  | nil =>
      obtain rfl : e' = e := Except.ok.inj h
      exact ⟨tokens, htokens, hparse⟩
  | cons k rest => exact nomatch h

/-- A capture that passes gives the text that code generation takes, and it is an expression. -/
theorem checkCapture_ok {inner exprSrc : List Char}
    (h : checkCapture tokenize parseExpr unexpectedToken inner = .ok exprSrc) :
    exprSrc = (splitSpec inner).1 ∧
      ∃ tokens e, tokenize exprSrc = .ok tokens ∧ parseExpr exprSrc tokens = .ok (e, []) := by
  rw [checkCapture] at h
  obtain ⟨-, -, h⟩ := bind_eq_ok.mp h
  split at h
  · next e hparse =>
      obtain rfl := Except.ok.inj h
      obtain ⟨tokens, htokens, hrest⟩ := parseExprFragmentComplete_ok hparse
      refine ⟨?_, tokens, e, htokens, hrest⟩
      rw [splitSpec]
      split <;> rfl
  · exact nomatch h

theorem checkCaptures_ok {s : List Char} {captures : List (List Char)}
    (h : checkCaptures tokenize parseExpr unexpectedToken s = .ok captures) :
    captures = (captureTexts (segments s)).map (fun inner => (splitSpec inner).1) ∧
      ∀ c ∈ captures,
        ∃ tokens e, tokenize c = .ok tokens ∧ parseExpr c tokens = .ok (e, []) := by
  fun_induction checkCaptures tokenize parseExpr unexpectedToken s generalizing captures with
  | case1 =>
      obtain rfl := Except.ok.inj h
      rw [segments]
      exact ⟨rfl, fun c hc => nomatch hc⟩
  | case2 c =>
      obtain rfl := Except.ok.inj h
      rw [segments_text (fun _ _ hrest => List.cons_ne_nil _ _ hrest.symm), segments]
      exact ⟨rfl, fun c hc => nomatch hc⟩
  | case3 c d rest hopen ih =>
      have htext : ∀ rest', c = '$' → d :: rest = '{' :: rest' → False := by
        rintro rest' rfl hrest
        exact hopen.elim (fun hc => hc rfl) fun hd => hd (List.cons.inj hrest).1
      rw [segments_text htext]
      exact ih h
  | case4 c d rest hopen hclose =>
      obtain ⟨rfl, rfl⟩ := not_or.mp hopen |>.imp not_not.mp not_not.mp
      obtain rfl := Except.ok.inj h
      rw [segments_unmatched hclose]
      exact ⟨rfl, fun c hc => nomatch hc⟩
  | case5 c d rest hopen inner after hclose ih =>
      obtain ⟨rfl, rfl⟩ := not_or.mp hopen |>.imp not_not.mp not_not.mp
      obtain ⟨exprSrc, hcapture, h⟩ := bind_eq_ok.mp h
      obtain ⟨more, hmore, h⟩ := bind_eq_ok.mp h
      obtain rfl := Except.ok.inj h
      obtain ⟨rfl, hexpr⟩ := checkCapture_ok hcapture
      obtain ⟨rfl, hrest⟩ := ih hmore
      rw [segments_capture hclose]
      refine ⟨rfl, ?_⟩
      intro c hc
      rcases List.mem_cons.mp hc with rfl | hc
      · exact hexpr
      · exact hrest c hc

/-- The parser accepts a literal only if the captures it found are those of code generation, in
their order, and each of them is one expression. -/
theorem captures_agree (s : List Char) (captures : List (List Char))
    (h : checkInterpolatedSizedLiterals tokenize parseExpr unexpectedToken s = .ok captures) :
    captures = (processInterp s).2.map InterpCap.expr ∧
      ∀ c ∈ captures,
        ∃ tokens e, tokenize c = .ok tokens ∧ parseExpr c tokens = .ok (e, []) := by
  have hcaptures : (processInterp s).2.map InterpCap.expr =
      (captureTexts (segments s)).map fun inner => (splitSpec inner).1 := by
    rw [processInterp_eq, List.map_map]
    rfl
  rw [hcaptures]
  rw [checkInterpolatedSizedLiterals] at h
  split_ifs at h with hopen
  · exact checkCaptures_ok h
  · obtain rfl := Except.ok.inj h
    rw [captureTexts_of_no_opening hopen]
    exact ⟨rfl, fun c hc => nomatch hc⟩

end Parser

/-- A tokenizer and a parser for fragments that are one name. -/
def nameTokens (source : List Char) : Except Unit (List (List Char)) :=
  if source.all Char.isAlpha then .ok [source] else .error ()

def nameOf (source : List Char) (tokens : List (List Char)) :
    Except Unit (List Char × List (List Char)) :=
  match tokens with
  | [] => .error ()
  | name :: rest => if source.isEmpty then .error () else .ok (name, rest)

theorem captures_agree_twoNames :
    [['a'], ['b']] =
        (processInterp "$$\x7b a :04x\x7d%$\x7bb\x7d".toList).2.map InterpCap.expr ∧
      ∀ c ∈ [['a'], ['b']],
        ∃ tokens e, nameTokens c = .ok tokens ∧ nameOf c tokens = .ok (e, []) :=
  @captures_agree _ _ _ nameTokens nameOf (fun _ => ()) "$$\x7b a :04x\x7d%$\x7bb\x7d".toList
    [['a'], ['b']] (by decide +kernel)

end Harc.InterpolatedStrings
