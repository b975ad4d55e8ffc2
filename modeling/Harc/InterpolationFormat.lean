import Harc.InterpolatedStrings
import Harc.PrintfFormat

/-!
The formats of interpolated strings, read by `printf`. A literal text of ASCII characters is
shown as it is, and each capture with a plain format spec takes one argument.
-/

namespace Harc.InterpolationFormat

open Harc.InterpolatedStrings Harc.PrintfFormat

/-- No spec, a width for hexadecimal beyond 16 digits, a conversion to the default, or flags,
digits and a precision of digits before the conversion. -/
def plainSpec (spec : List Char) : Bool :=
  match spec.getLast? with
  | none => true
  | some last =>
      let pre := spec.dropLast
      if last = 'd' ∨ last = 'o' then Phase.plain .start pre
      else if last = 'x' ∨ last = 'X' then
        decide (16 < specWidth pre) || Phase.plain .start pre
      else true

/-- The text before an unmatched `${`, without the captures. -/
def shownText : List Segment → List Char
  | [] => []
  | .text c :: rest => c :: shownText rest
  | .capture _ :: rest => shownText rest
  | .unmatched _ :: rest => shownText rest

/-- The text outside the captures. -/
def outsideText : List Segment → List Char
  | [] => []
  | .text c :: rest => c :: outsideText rest
  | .capture _ :: rest => outsideText rest
  | .unmatched tail :: rest => '$' :: '{' :: tail ++ outsideText rest

def AsciiText (segs : List Segment) : Prop :=
  ∀ c, .text c ∈ segs → 0 < c.toNat ∧ c.toNat < 128

def PlainSpecs (segs : List Segment) : Prop :=
  ∀ inner, .capture inner ∈ segs → plainSpec (splitSpec (trim inner)).2 = true

/-! One character. -/

theorem toNat_ofByte {n : Nat} (h : n < 256) :
    (Char.ofNat (UInt8.ofNat n).toNat).toNat = n := by
  have hbyte : (UInt8.ofNat n).toNat = n := Nat.mod_eq_of_lt h
  have hvalid : n.isValidChar := Or.inl (by omega)
  rw [hbyte, Char.ofNat, dif_pos hvalid]
  rfl

theorem pushBytes_ascii {c : Char} (h : c.toNat < 128) : pushBytes c = [c] := by
  have hle : c.val.toNat ≤ 0x7f := Nat.le_of_lt_succ h
  rw [pushBytes, String.utf8EncodeChar, if_pos hle, List.map_cons, List.map_nil]
  exact congrArg (fun x => [x]) (Char.toNat_inj.mp (toNat_ofByte (by omega)))

theorem pushBytes_other {c : Char} (h : 128 ≤ c.toNat) :
    2 ≤ (pushBytes c).length ∧ ∀ x ∈ pushBytes c, 128 ≤ x.toNat := by
  have hgt : ¬ c.val.toNat ≤ 0x7f := Nat.not_le.mpr h
  rw [pushBytes, String.utf8EncodeChar, if_neg hgt]
  split_ifs
  all_goals
    refine ⟨by simp, ?_⟩
    simp only [List.map_cons, List.map_nil, List.forall_mem_cons]
    repeat' apply And.intro
  all_goals
    first
      | exact fun x hx => nomatch hx
      | rw [toNat_ofByte (by omega)]
        omega

/-! One capture. -/

/-- A token is a conversion of `long long` behind the text of the spec, or `%s`. -/
theorem translateFmtSpec_cases (spec : List Char) :
    (∃ pre c, isConversion c = true ∧
      (translateFmtSpec spec).1 = '%' :: (pre ++ ['l', 'l', c]) ∧
      (plainSpec spec = true ↔ Phase.plain .start pre = true)) ∨
    ((translateFmtSpec spec).1 = ['%', 's'] ∧ plainSpec spec = true) := by
  rw [translateFmtSpec, plainSpec]
  cases spec.getLast? with
  | none => exact Or.inl ⟨[], 'd', rfl, rfl, Iff.rfl⟩
  | some last =>
      rcases eq_or_ne last 'd' with rfl | hd
      · exact Or.inl ⟨spec.dropLast, 'd', rfl, rfl, Iff.rfl⟩
      rcases eq_or_ne last 'o' with rfl | ho
      · exact Or.inl ⟨spec.dropLast, 'o', rfl, rfl, Iff.rfl⟩
      rcases em ((last = 'x' ∨ last = 'X') ∧ 16 < specWidth spec.dropLast) with hwide | hwide
      · right
        simp [hd, ho, hwide]
      rcases eq_or_ne last 'x' with rfl | hx
      · have hnarrow : ¬ 16 < specWidth spec.dropLast := fun h => hwide ⟨Or.inl rfl, h⟩
        refine Or.inl ⟨spec.dropLast, 'x', rfl, ?_, ?_⟩
        · simp [hnarrow]
        · simp [hnarrow]
      rcases eq_or_ne last 'X' with rfl | hX
      · have hnarrow : ¬ 16 < specWidth spec.dropLast := fun h => hwide ⟨Or.inr rfl, h⟩
        refine Or.inl ⟨spec.dropLast, 'X', rfl, ?_, ?_⟩
        · simp [hnarrow]
        · simp [hnarrow]
      · refine Or.inl ⟨[], 'd', rfl, ?_, ?_⟩
        · simp [hd, ho, hx, hX]
        · simp [hd, ho, hx, hX, Phase.plain]

theorem run_percent {text : List Char} {m : Mode} {r : Reading} :
    run .text ('%' :: text) = some (m, r) ↔ run (.conversion .start 0) text = some (m, r) := by
  have hstep : step .text '%' = some (.conversion .start 0, .empty) := rfl
  rw [run_cons]
  constructor
  · rintro ⟨m', a, b, hpercent, hrun, hab⟩
    obtain ⟨rfl, rfl⟩ := Prod.mk.inj (Option.some.inj (hstep.symm.trans hpercent))
    rw [Reading.empty_append] at hab
    rw [hrun, ← hab]
  · intro hrun
    exact ⟨_, _, r, hstep, hrun, (Reading.empty_append r).symm⟩

/-- A plain spec takes one argument. -/
theorem run_token {spec : List Char} (h : plainSpec spec = true) :
    run .text (translateFmtSpec spec).1 = some (.text, .conversion 1) := by
  rcases translateFmtSpec_cases spec with ⟨pre, c, hc, htoken, hplain⟩ | ⟨htoken, -⟩
  · rw [htoken, run_percent]
    exact run_plain hc (hplain.mp h) 0
  · rw [htoken]
    rfl

/-- A spec that prints no text and takes one argument is plain. -/
theorem plainSpec_of_run {spec : List Char} {m : Mode} {r : Reading}
    (h : run .text (translateFmtSpec spec).1 = some (m, r)) :
    m = .text ∧ (r.text = [] → 0 < r.args.sum ∧ (r.args.sum = 1 → plainSpec spec = true)) := by
  rcases translateFmtSpec_cases spec with ⟨pre, c, hc, htoken, hplain⟩ | ⟨htoken, hspec⟩
  · rw [htoken, run_percent] at h
    obtain ⟨hm, hrest⟩ := run_longLong hc h
    exact ⟨hm, fun htext => (hrest htext).imp_right fun hone hsum => hplain.mpr (hone hsum)⟩
  · rw [htoken] at h
    have hrun : run .text ['%', 's'] = some (.text, .conversion 1) := rfl
    obtain ⟨rfl, rfl⟩ := Prod.mk.inj (Option.some.inj (hrun.symm.trans h))
    exact ⟨rfl, fun _ => ⟨Nat.one_pos, fun _ => hspec⟩⟩

/-! The pieces of a string. -/

def pushText (c : Char) : List Char :=
  if c = '%' then ['%', '%'] else pushBytes c

theorem run_pushText_ascii {c : Char} (hpos : 0 < c.toNat) (hlt : c.toNat < 128) :
    run .text (pushText c) = some (.text, .literal c) := by
  rw [pushText]
  split_ifs with hc
  · rw [hc]
    rfl
  · rw [pushBytes_ascii hlt]
    refine run_literal ?_
    intro x hx
    obtain rfl := List.mem_singleton.mp hx
    refine ⟨?_, hc⟩
    rintro rfl
    exact absurd hpos (by decide)

theorem run_pushText_other {c : Char} (h : 128 ≤ c.toNat) :
    run .text (pushText c) = some (.text, ⟨pushBytes c, []⟩) := by
  have hpercent : c ≠ '%' := by
    rintro rfl
    exact absurd h (by decide)
  rw [pushText, if_neg hpercent]
  refine run_literal ?_
  intro x hx
  have hx := (pushBytes_other h).2 x hx
  constructor
  · rintro rfl
    exact absurd hx (by decide)
  · rintro rfl
    exact absurd hx (by decide)

/-- A character shows as text, and as itself only if it is ASCII. -/
theorem ascii_of_run {c : Char} {m : Mode} {r : Reading}
    (h : run .text (pushText c) = some (m, r)) :
    m = .text ∧ r.args = [] ∧ 1 ≤ r.text.length ∧
      (r.text.length = 1 → 0 < c.toNat ∧ c.toNat < 128) := by
  rcases Nat.lt_or_ge c.toNat 128 with hlt | hge
  · rcases Nat.eq_zero_or_pos c.toNat with hzero | hpos
    · obtain rfl : c = '\x00' := Char.toNat_inj.mp hzero
      exact nomatch h
    · obtain ⟨rfl, rfl⟩ := Prod.mk.inj (Option.some.inj ((run_pushText_ascii hpos hlt).symm.trans h))
      exact ⟨rfl, rfl, Nat.le_refl 1, fun _ => ⟨hpos, hlt⟩⟩
  · obtain ⟨rfl, rfl⟩ := Prod.mk.inj (Option.some.inj ((run_pushText_other hge).symm.trans h))
    have hlen : 2 ≤ (pushBytes c).length := (pushBytes_other hge).1
    refine ⟨rfl, rfl, Nat.le_of_succ_le hlen, fun hone => ?_⟩
    change (pushBytes c).length = 1 at hone
    omega

/-- The format shows the text and takes one argument for each capture. -/
theorem run_formatOf {segs : List Segment} (htext : AsciiText segs) (hspecs : PlainSpecs segs) :
    run .text (formatOf segs) =
      some (.text, ⟨shownText segs, List.replicate (captureTexts segs).length 1⟩) := by
  induction segs with
  | nil => rfl
  | cons seg segs ih =>
      have hrest := ih (fun c hc => htext c (List.mem_cons_of_mem seg hc))
        (fun inner hc => hspecs inner (List.mem_cons_of_mem seg hc))
      cases seg with
      | text c =>
          obtain ⟨hpos, hlt⟩ := htext c List.mem_cons_self
          exact run_append.mpr ⟨_, _, _, run_pushText_ascii hpos hlt, hrest, rfl⟩
      | capture inner =>
          exact run_append.mpr
            ⟨_, _, _, run_token (hspecs inner List.mem_cons_self), hrest, rfl⟩
      | unmatched tail => exact hrest

/-- A format with a text of the length of the source, and as many arguments as captures, has
ASCII text and plain specs. -/
theorem plain_of_run {segs : List Segment} {m : Mode} {r : Reading}
    (h : run .text (formatOf segs) = some (m, r)) :
    m = .text ∧ (shownText segs).length ≤ r.text.length ∧
      (r.text.length = (shownText segs).length → AsciiText segs ∧
        (captureTexts segs).length ≤ r.args.sum ∧
          (r.args.sum = (captureTexts segs).length → PlainSpecs segs)) := by
  induction segs generalizing r with
  | nil =>
      obtain ⟨rfl, rfl⟩ := Prod.mk.inj (Option.some.inj h)
      exact ⟨rfl, Nat.le_refl _, fun _ => ⟨fun c hc => absurd hc List.not_mem_nil,
        Nat.le_refl _, fun _ inner hc => absurd hc List.not_mem_nil⟩⟩
  | cons seg segs ih =>
      cases seg with
      | text c =>
          obtain ⟨m', a, b, hpush, hrun, rfl⟩ := run_append.mp h
          obtain ⟨rfl, hargs, hlen, hascii⟩ := ascii_of_run hpush
          obtain ⟨rfl, hle, hrest⟩ := ih hrun
          rw [Reading.append_text, List.length_append, Reading.append_args, hargs,
            List.nil_append, shownText, List.length_cons]
          refine ⟨rfl, by omega, fun heq => ?_⟩
          obtain ⟨htext, hcount, hspecs⟩ := hrest (by omega)
          refine ⟨?_, hcount, fun hsum inner hc => ?_⟩
          · intro x hx
            rcases List.mem_cons.mp hx with hx | hx
            · obtain rfl := Segment.text.inj hx
              exact hascii (by omega)
            · exact htext x hx
          · rcases List.mem_cons.mp hc with hc | hc
            · cases hc
            · exact hspecs hsum inner hc
      | capture inner =>
          obtain ⟨m', a, b, htoken, hrun, rfl⟩ := run_append.mp h
          obtain ⟨rfl, hplain⟩ := plainSpec_of_run htoken
          obtain ⟨rfl, hle, hrest⟩ := ih hrun
          rw [Reading.append_text, List.length_append, Reading.append_args, List.sum_append,
            shownText, captureTexts, List.length_cons]
          refine ⟨rfl, by omega, fun heq => ?_⟩
          have hnil : a.text = [] := List.length_eq_zero_iff.mp (by omega)
          obtain ⟨hpos, hspec⟩ := hplain hnil
          obtain ⟨htext, hcount, hspecs⟩ := hrest (by omega)
          refine ⟨?_, by omega, fun hsum x hc => ?_⟩
          · intro x hx
            rcases List.mem_cons.mp hx with hx | hx
            · cases hx
            · exact htext x hx
          · rcases List.mem_cons.mp hc with hc | hc
            · obtain rfl := Segment.capture.inj hc
              exact hspec (by omega)
            · exact hspecs (by omega) x hc
      | unmatched tail =>
          obtain ⟨rfl, hle, hrest⟩ := ih h
          refine ⟨rfl, hle, fun heq => ?_⟩
          obtain ⟨htext, hcount, hspecs⟩ := hrest heq
          refine ⟨?_, hcount, fun hsum x hc => ?_⟩
          · intro x hx
            rcases List.mem_cons.mp hx with hx | hx
            · cases hx
            · exact htext x hx
          · rcases List.mem_cons.mp hc with hc | hc
            · cases hc
            · exact hspecs hsum x hc

/-- Exactly the strings with ASCII text and plain specs are shown as they are up to an unmatched
`${`, with an argument for each capture. -/
theorem readFormat_iff (s : List Char) :
    (∃ r, readFormat (processInterp s).1 = some r ∧ r.text = shownText (segments s) ∧
      r.args.sum = (processInterp s).2.length) ↔
    AsciiText (segments s) ∧ PlainSpecs (segments s) := by
  rw [processInterp_eq, List.length_map]
  constructor
  · rintro ⟨r, hread, htext, hsum⟩
    obtain ⟨-, -, hrest⟩ := plain_of_run (readFormat_eq_some.mp hread)
    obtain ⟨hascii, -, hspecs⟩ := hrest (by rw [htext])
    exact ⟨hascii, hspecs hsum⟩
  · rintro ⟨hascii, hspecs⟩
    refine ⟨_, readFormat_eq_some.mpr (run_formatOf hascii hspecs), rfl, ?_⟩
    change (List.replicate _ 1).sum = _
    rw [List.sum_replicate_nat, Nat.mul_one]

/-- The format of a string with ASCII text and plain specs: it shows the text outside the
captures up to an unmatched `${`, and each conversion takes one argument, in the order of the
captures. -/
theorem interpolation_format (s : List Char) (htext : AsciiText (segments s))
    (hspecs : PlainSpecs (segments s)) :
    readFormat (processInterp s).1 =
        some ⟨shownText (segments s), List.replicate (processInterp s).2.length 1⟩ ∧
      (processInterp s).2.map InterpCap.expr =
        (captureTexts (segments s)).map fun inner => (splitSpec inner).1 := by
  rw [processInterp_eq, List.length_map, List.map_map]
  exact ⟨readFormat_eq_some.mpr (run_formatOf htext hspecs), rfl⟩

theorem interpolation_format_percent :
    readFormat (processInterp "5%: $\x7bx:04x\x7d $\x7by:20x\x7d$\x7b".toList).1 =
        some ⟨"5%:  ".toList, [1, 1]⟩ ∧
      (processInterp "5%: $\x7bx:04x\x7d $\x7by:20x\x7d$\x7b".toList).2.map InterpCap.expr =
        [['x'], ['y']] := by
  have hsegments : segments "5%: $\x7bx:04x\x7d $\x7by:20x\x7d$\x7b".toList =
      [.text '5', .text '%', .text ':', .text ' ', .capture "x:04x".toList, .text ' ',
        .capture "y:20x".toList, .unmatched []] := by
    decide +kernel
  have hcaptures : (processInterp "5%: $\x7bx:04x\x7d $\x7by:20x\x7d$\x7b".toList).2 =
      [⟨['x'], none⟩, ⟨['y'], some (20, false)⟩] := by
    decide +kernel
  have hascii : AsciiText (segments "5%: $\x7bx:04x\x7d $\x7by:20x\x7d$\x7b".toList) := by
    rw [hsegments]
    intro c hc
    have hmem : c = '5' ∨ c = '%' ∨ c = ':' ∨ c = ' ' := by simpa using hc
    rcases hmem with rfl | rfl | rfl | rfl <;> decide
  have hspecs : PlainSpecs (segments "5%: $\x7bx:04x\x7d $\x7by:20x\x7d$\x7b".toList) := by
    rw [hsegments]
    intro inner hc
    have hmem : inner = "x:04x".toList ∨ inner = "y:20x".toList := by simpa using hc
    rcases hmem with rfl | rfl <;> decide +kernel
  have hformat := interpolation_format "5%: $\x7bx:04x\x7d $\x7by:20x\x7d$\x7b".toList hascii
    hspecs
  rw [hcaptures, hsegments] at hformat
  rw [hcaptures]
  exact hformat

/-- What stands behind an unmatched `${` is not shown. -/
theorem unmatched_dropped :
    ¬ ∃ r, readFormat (processInterp "a$\x7bb".toList).1 = some r ∧
      r.text = outsideText (segments "a$\x7bb".toList) ∧
      r.args.sum = (processInterp "a$\x7bb".toList).2.length := by
  have hread : readFormat (processInterp "a$\x7bb".toList).1 = some ⟨['a'], []⟩ := by
    decide +kernel
  have hsegments : segments "a$\x7bb".toList = [.text 'a', .unmatched ['b']] := by
    decide +kernel
  rintro ⟨r, hr, htext, -⟩
  obtain rfl := Option.some.inj (hread.symm.trans hr)
  rw [hsegments] at htext
  exact absurd htext (by decide)

end Harc.InterpolationFormat
