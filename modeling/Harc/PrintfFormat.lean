import Mathlib.Data.List.Basic
import Mathlib.Algebra.Order.Ring.Int

/-!
How `printf` reads a format: literal text, `%%`, and conversions of flags, width, precision,
length and a conversion character. The reader is an automaton, so that formats can be read piece
by piece. For a format it yields the literal text and, for each conversion, how many arguments it
takes.
-/

namespace Harc.PrintfFormat

/-- What a format prints besides its arguments, and the arguments of each conversion. -/
@[ext]
structure Reading where
  text : List Char
  args : List Nat
deriving DecidableEq

namespace Reading

def empty : Reading := ⟨[], []⟩

def literal (c : Char) : Reading := ⟨[c], []⟩

def conversion (n : Nat) : Reading := ⟨[], [n]⟩

def append (a b : Reading) : Reading := ⟨a.text ++ b.text, a.args ++ b.args⟩

@[simp] theorem empty_text : empty.text = [] := rfl
@[simp] theorem empty_args : empty.args = [] := rfl
@[simp] theorem append_text (a b : Reading) : (a.append b).text = a.text ++ b.text := rfl
@[simp] theorem append_args (a b : Reading) : (a.append b).args = a.args ++ b.args := rfl

@[simp] theorem append_empty (a : Reading) : a.append empty = a := by
  ext1 <;> simp

@[simp] theorem empty_append (a : Reading) : empty.append a = a := by
  ext1 <;> simp

theorem append_assoc (a b c : Reading) : (a.append b).append c = a.append (b.append c) := by
  ext1 <;> simp

end Reading

/-- Where the reader stands in a conversion. -/
inductive Phase where
  | start
  | flags
  | width
  | widthStar
  | dot
  | precision
  | precisionStar
  | length (c : Char) (doubled : Bool)
deriving DecidableEq

/-- Outside the conversions, or in one that has read some `*` so far. -/
inductive Mode where
  | text
  | conversion (phase : Phase) (stars : Nat)
deriving DecidableEq

def isFlag (c : Char) : Bool :=
  ['-', '+', ' ', '#', '0'].contains c

def isLength (c : Char) : Bool :=
  ['h', 'l', 'j', 'z', 't', 'L'].contains c

def isConversion (c : Char) : Bool :=
  ['d', 'i', 'o', 'u', 'x', 'X', 'f', 'F', 'e', 'E', 'g', 'G', 'a', 'A', 'c', 's', 'p',
    'n'].contains c

/-- The next phase at a flag, a width or a precision, and the arguments that it takes. -/
def Phase.next : Phase → Char → Option (Phase × Nat)
  | .start, c | .flags, c =>
      if isFlag c then some (.flags, 0)
      else if c.isDigit then some (.width, 0)
      else if c = '*' then some (.widthStar, 1)
      else if c = '.' then some (.dot, 0)
      else none
  | .width, c =>
      if c.isDigit then some (.width, 0) else if c = '.' then some (.dot, 0) else none
  | .widthStar, c => if c = '.' then some (.dot, 0) else none
  | .dot, c =>
      if c.isDigit then some (.precision, 0)
      else if c = '*' then some (.precisionStar, 1)
      else none
  | .precision, c => if c.isDigit then some (.precision, 0) else none
  | .precisionStar, _ => none
  | .length _ _, _ => none

/-- The next phase at a length. -/
def Phase.nextLength : Phase → Char → Option Phase
  | .length l doubled, c =>
      if c = l ∧ (c = 'h' ∨ c = 'l') ∧ doubled = false then some (.length c true) else none
  | _, c => if isLength c then some (.length c false) else none

/-- A NUL ends the format before its end. -/
def step : Mode → Char → Option (Mode × Reading)
  | .text, c =>
      if c = '\x00' then none
      else if c = '%' then some (.conversion .start 0, .empty)
      else some (.text, .literal c)
  | .conversion phase stars, c =>
      if phase = .start ∧ c = '%' then some (.text, .literal '%')
      else match phase.next c with
        | some (phase', star) => some (.conversion phase' (stars + star), .empty)
        | none => match phase.nextLength c with
          | some phase' => some (.conversion phase' stars, .empty)
          | none => if isConversion c then some (.text, .conversion (stars + 1)) else none

def run : Mode → List Char → Option (Mode × Reading)
  | m, [] => some (m, .empty)
  | m, c :: text => do
      let (m', a) ← step m c
      let (m'', b) ← run m' text
      some (m'', a.append b)

/-- The empty format reads nothing. -/
example : run .text [] = some (.text, .empty) := by
  simp [run]

/-- The reading of a format that ends outside the conversions. -/
def readFormat (fmt : List Char) : Option Reading :=
  match run .text fmt with
  | some (.text, reading) => some reading
  | _ => none

theorem readFormat_eq_some {fmt : List Char} {reading : Reading} :
    readFormat fmt = some reading ↔ run .text fmt = some (.text, reading) := by
  rw [readFormat]
  split
  · next h => rw [h, Option.some.injEq, Option.some.injEq, Prod.mk.injEq, and_iff_right rfl]
  · next h =>
      refine iff_of_false (fun hsome => nomatch hsome) ?_
      exact fun hrun => h reading hrun

theorem run_cons {m : Mode} {c : Char} {text : List Char} {result : Mode × Reading} :
    run m (c :: text) = some result ↔
      ∃ m' a b, step m c = some (m', a) ∧ run m' text = some (result.1, b) ∧
        result.2 = a.append b := by
  obtain ⟨m'', r⟩ := result
  simp only [run, Option.bind_eq_bind, Option.bind_eq_some_iff, Prod.exists, Option.some.injEq,
    Prod.mk.injEq]
  constructor
  · rintro ⟨m', a, hstep, n, b, hrun, rfl, rfl⟩
    exact ⟨m', a, b, hstep, hrun, rfl⟩
  · rintro ⟨m', a, b, hstep, hrun, rfl⟩
    exact ⟨m', a, hstep, m'', b, hrun, rfl, rfl⟩

/-- A format is read piece by piece. -/
theorem run_append {m : Mode} {left right : List Char} {result : Mode × Reading} :
    run m (left ++ right) = some result ↔
      ∃ m' a b, run m left = some (m', a) ∧ run m' right = some (result.1, b) ∧
        result.2 = a.append b := by
  induction left generalizing m result with
  | nil =>
      simp only [List.nil_append, run, Option.some.injEq, Prod.mk.injEq]
      constructor
      · intro h
        exact ⟨m, .empty, result.2, ⟨rfl, rfl⟩, h, (Reading.empty_append _).symm⟩
      · rintro ⟨_, _, b, ⟨rfl, rfl⟩, hrun, hb⟩
        rw [hrun, ← Reading.empty_append b, ← hb]
  | cons c left ih =>
      rw [List.cons_append, run_cons]
      constructor
      · rintro ⟨m', a, b, hstep, hrun, hab⟩
        obtain ⟨n, a', b', hleft, hright, rfl⟩ := ih.mp hrun
        refine ⟨n, a.append a', b', run_cons.mpr ⟨m', a, a', hstep, hleft, rfl⟩, hright, ?_⟩
        rw [hab, Reading.append_assoc]
      · rintro ⟨n, a, b, hleft, hright, hab⟩
        obtain ⟨m', a₁, a₂, hstep, hrun, rfl⟩ := run_cons.mp hleft
        refine ⟨m', a₁, a₂.append b, hstep, ih.mpr ⟨n, a₂, b, hrun, hright, rfl⟩, ?_⟩
        rw [hab, Reading.append_assoc]

theorem run_literal {text : List Char} (h : ∀ c ∈ text, c ≠ '\x00' ∧ c ≠ '%') :
    run .text text = some (.text, ⟨text, []⟩) := by
  induction text with
  | nil => rfl
  | cons c text ih =>
      obtain ⟨hnul, hpercent⟩ := h c List.mem_cons_self
      rw [run_cons]
      refine ⟨.text, .literal c, ⟨text, []⟩, ?_, ih fun x hx => h x (List.mem_cons_of_mem c hx), rfl⟩
      rw [step, if_neg hnul, if_neg hpercent]

/-! Plain conversions: flags, digits and a precision of digits. -/

/-- What may stand between the phase and the length so that no argument is read for it. -/
def Phase.plain : Phase → List Char → Bool
  | .start, text | .flags, text =>
      match (text.dropWhile isFlag).dropWhile (fun c => c.isDigit) with
      | [] => true
      | c :: rest => c == '.' && rest.all fun c => c.isDigit
  | .width, text =>
      match text.dropWhile (fun c => c.isDigit) with
      | [] => true
      | c :: rest => c == '.' && rest.all fun c => c.isDigit
  | .widthStar, [] => true
  | .widthStar, c :: rest => c == '.' && rest.all fun c => c.isDigit
  | .dot, text | .precision, text => text.all fun c => c.isDigit
  | .precisionStar, text => text.isEmpty
  | .length _ _, _ => false

theorem Phase.plain_nil {phase : Phase} :
    phase.plain [] = true ↔ ∀ c doubled, phase ≠ .length c doubled := by
  cases phase <;> simp [Phase.plain]

/-- A plain text goes on without an argument. -/
theorem Phase.plain_cons {phase : Phase} {c : Char} {text : List Char} :
    phase.plain (c :: text) = true ↔
      ∃ phase', phase.next c = some (phase', 0) ∧ phase'.plain text = true := by
  have hdot : '.'.isDigit = false := rfl
  have hstar : '*'.isDigit = false := rfl
  have hflagDot : isFlag '.' = false := rfl
  have hflagStar : isFlag '*' = false := rfl
  cases phase with
  | start | flags =>
      rw [Phase.next]
      split_ifs <;> simp_all [Phase.plain]
  | width | dot =>
      rw [Phase.next]
      split_ifs <;> simp_all [Phase.plain]
  | widthStar | precision =>
      rw [Phase.next]
      split_ifs <;> simp_all [Phase.plain]
  | precisionStar => simp [Phase.plain, Phase.next]
  | length l doubled => simp [Phase.plain, Phase.next]

theorem step_next {phase phase' : Phase} {c : Char} {star : Nat} (stars : Nat)
    (h : phase.next c = some (phase', star)) :
    step (.conversion phase stars) c = some (.conversion phase' (stars + star), .empty) := by
  have hpercent : ¬ (phase = .start ∧ c = '%') := by
    rintro ⟨rfl, rfl⟩
    have hnone : Phase.next .start '%' = none := rfl
    exact nomatch hnone.symm.trans h
  rw [step, if_neg hpercent, h]

/-- What one character does in a conversion. -/
theorem step_conversion {phase : Phase} {stars : Nat} {c : Char} {m : Mode} {a : Reading}
    (h : step (.conversion phase stars) c = some (m, a)) :
    (∃ phase' star, phase.next c = some (phase', star) ∧ m = .conversion phase' (stars + star) ∧
      a = .empty) ∨
    (∃ l doubled, m = .conversion (.length l doubled) stars ∧ a = .empty) ∨
    (m = .text ∧ (a = .literal '%' ∨ a = .conversion (stars + 1))) := by
  rw [step] at h
  split at h
  · obtain ⟨rfl, rfl⟩ := Prod.mk.inj (Option.some.inj h)
    exact Or.inr (Or.inr ⟨rfl, Or.inl rfl⟩)
  · split at h
    · next phase' star hnext =>
        obtain ⟨rfl, rfl⟩ := Prod.mk.inj (Option.some.inj h)
        exact Or.inl ⟨phase', star, hnext, rfl, rfl⟩
    · split at h
      · next phase' hlength =>
          obtain ⟨rfl, rfl⟩ := Prod.mk.inj (Option.some.inj h)
          rw [Phase.nextLength.eq_def] at hlength
          split at hlength
          all_goals
            split_ifs at hlength
            obtain rfl := Option.some.inj hlength
            exact Or.inr (Or.inl ⟨_, _, rfl, rfl⟩)
      · split_ifs at h
        obtain ⟨rfl, rfl⟩ := Prod.mk.inj (Option.some.inj h)
        exact Or.inr (Or.inr ⟨rfl, Or.inr rfl⟩)

theorem run_length_longLong (l c : Char) (doubled : Bool) (stars : Nat) :
    run (.conversion (.length l doubled) stars) ['l', 'l', c] = none := by
  have hll : step (.conversion (.length 'l' true) stars) 'l' = none := rfl
  rcases eq_or_ne l 'l' with rfl | hl
  · cases doubled with
    | true => simp [run, hll]
    | false =>
        have hl : step (.conversion (.length 'l' false) stars) 'l' =
            some (.conversion (.length 'l' true) stars, .empty) := rfl
        simp [run, hl, hll]
  · have hstep : step (.conversion (.length l doubled) stars) 'l' = none := by
      have hother : isConversion 'l' = false := rfl
      simp [step, Phase.next, Phase.nextLength, hl.symm, hother]
    simp [run, hstep]

section LongLong

variable {c : Char} (hc : isConversion c = true)

include hc

theorem run_text_longLong : run .text ['l', 'l', c] = some (.text, ⟨['l', 'l', c], []⟩) := by
  have hnul : c ≠ '\x00' := by
    rintro rfl
    exact absurd hc (by decide)
  have hpercent : c ≠ '%' := by
    rintro rfl
    exact absurd hc (by decide)
  simp [run, step, hnul, hpercent, Reading.append, Reading.literal]

theorem run_conversion_longLong {phase : Phase} (hphase : ∀ l doubled, phase ≠ .length l doubled)
    (stars : Nat) :
    run (.conversion phase stars) ['l', 'l', c] = some (.text, .conversion (stars + 1)) := by
  have hl : step (.conversion phase stars) 'l' =
      some (.conversion (.length 'l' false) stars, .empty) := by
    cases phase with
    | length l doubled => exact absurd rfl (hphase l doubled)
    | _ => rfl
  have hll : step (.conversion (.length 'l' false) stars) 'l' =
      some (.conversion (.length 'l' true) stars, .empty) := rfl
  have hlast : step (.conversion (.length 'l' true) stars) c =
      some (.text, .conversion (stars + 1)) := by
    simp [step, Phase.next, Phase.nextLength, hc]
  simp [run, hl, hll, hlast]

/-- A plain conversion takes one argument. -/
theorem run_plain {phase : Phase} {pre : List Char} (h : phase.plain pre = true) (stars : Nat) :
    run (.conversion phase stars) (pre ++ ['l', 'l', c]) =
      some (.text, .conversion (stars + 1)) := by
  induction pre generalizing phase with
  | nil => exact run_conversion_longLong hc (Phase.plain_nil.mp h) stars
  | cons x pre ih =>
      obtain ⟨phase', hnext, hplain⟩ := Phase.plain_cons.mp h
      rw [List.cons_append, run_cons]
      exact ⟨_, _, _, step_next stars hnext, ih hplain, (Reading.empty_append _).symm⟩

/-- Any other text prints something or takes more than one argument. -/
theorem run_longLong {mode m : Mode} {pre : List Char} {r : Reading}
    (h : run mode (pre ++ ['l', 'l', c]) = some (m, r)) :
    m = .text ∧ (r.text = [] → match mode with
      | .text => 0 < r.args.sum
      | .conversion phase stars =>
          stars < r.args.sum ∧ (r.args.sum = 1 → phase.plain pre = true)) := by
  induction pre generalizing mode m r with
  | nil =>
      cases mode with
      | text =>
          obtain ⟨rfl, rfl⟩ := Prod.mk.inj (Option.some.inj ((run_text_longLong hc).symm.trans h))
          exact ⟨rfl, fun htext => nomatch htext⟩
      | conversion phase stars =>
          rcases em (∃ l doubled, phase = .length l doubled) with ⟨l, doubled, rfl⟩ | hphase
          · exact nomatch (run_length_longLong l c doubled stars).symm.trans h
          · push Not at hphase
            obtain ⟨rfl, rfl⟩ := Prod.mk.inj
              (Option.some.inj ((run_conversion_longLong hc hphase stars).symm.trans h))
            exact ⟨rfl, fun _ => ⟨Nat.lt_succ_self stars, fun _ => Phase.plain_nil.mpr hphase⟩⟩
  | cons x pre ih =>
      rw [List.cons_append, run_cons] at h
      obtain ⟨m', a, b, hstep, hrun, rfl⟩ := h
      obtain ⟨rfl, hrest⟩ := ih hrun
      refine ⟨rfl, fun htext => ?_⟩
      rw [Reading.append_text, List.append_eq_nil_iff] at htext
      have hsum := hrest htext.2
      rw [Reading.append_args, List.sum_append]
      cases mode with
      | text =>
          rw [step] at hstep
          split_ifs at hstep
          · obtain ⟨rfl, rfl⟩ := Prod.mk.inj (Option.some.inj hstep)
            exact Nat.lt_add_left _ hsum.1
          · obtain ⟨rfl, rfl⟩ := Prod.mk.inj (Option.some.inj hstep)
            exact nomatch htext.1
      | conversion phase stars =>
          rcases step_conversion hstep with ⟨phase', star, hnext, rfl, rfl⟩ |
            ⟨l, doubled, rfl, rfl⟩ | ⟨rfl, rfl | rfl⟩
          · obtain ⟨hlt, hplain⟩ := hsum
            rw [Reading.empty_args, List.sum_nil, Nat.zero_add]
            refine ⟨by omega, fun hone => Phase.plain_cons.mpr ⟨phase', ?_, hplain hone⟩⟩
            obtain rfl : star = 0 := by omega
            exact hnext
          · obtain ⟨hlt, hplain⟩ := hsum
            rw [Reading.empty_args, List.sum_nil, Nat.zero_add]
            exact ⟨hlt, fun hone => Bool.noConfusion (hplain hone)⟩
          · exact nomatch htext.1
          · have hargs : (Reading.conversion (stars + 1)).args.sum = stars + 1 := rfl
            rw [hargs]
            change 0 < b.args.sum at hsum
            exact ⟨by omega, fun hone => by omega⟩

end LongLong

end Harc.PrintfFormat
