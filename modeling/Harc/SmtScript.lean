import Mathlib.Data.List.Nodup
import Mathlib.Algebra.Order.Ring.Int

/-!
Scripts over the theories of Booleans and fixed-size bit-vectors of SMT-LIB: terms,
their sorts, their values, and the commands that declare symbols and assert terms.
-/

namespace Harc.SmtScript

inductive TermSort where
  | bool
  | bitVec (width : Nat)
deriving DecidableEq, Repr

/-- The text of a natural number in decimal. -/
def natText (n : Nat) : String :=
  String.ofList (Nat.toDigits 10 n)

def TermSort.text : TermSort → String
  | .bool => "Bool"
  | .bitVec width => "(_ BitVec " ++ natText width ++ ")"

inductive Op where
  | not | and | or | eq | distinct
  | bvneg | bvnot
  | bvadd | bvsub | bvmul | bvudiv | bvsdiv | bvurem | bvsrem
  | bvand | bvor | bvxor | bvshl | bvlshr | bvashr
  | bvult | bvule | bvugt | bvuge | bvslt | bvsle | bvsgt | bvsge
deriving DecidableEq, Repr

def Op.text : Op → String
  | .not => "not"
  | .and => "and"
  | .or => "or"
  | .eq => "="
  | .distinct => "distinct"
  | .bvneg => "bvneg"
  | .bvnot => "bvnot"
  | .bvadd => "bvadd"
  | .bvsub => "bvsub"
  | .bvmul => "bvmul"
  | .bvudiv => "bvudiv"
  | .bvsdiv => "bvsdiv"
  | .bvurem => "bvurem"
  | .bvsrem => "bvsrem"
  | .bvand => "bvand"
  | .bvor => "bvor"
  | .bvxor => "bvxor"
  | .bvshl => "bvshl"
  | .bvlshr => "bvlshr"
  | .bvashr => "bvashr"
  | .bvult => "bvult"
  | .bvule => "bvule"
  | .bvugt => "bvugt"
  | .bvuge => "bvuge"
  | .bvslt => "bvslt"
  | .bvsle => "bvsle"
  | .bvsgt => "bvsgt"
  | .bvsge => "bvsge"

inductive Term where
  | symbol (name : String)
  | bvLit (value width : Nat)
  | boolLit (value : Bool)
  | app (op : Op) (args : List Term)
  | zeroExtend (amount : Nat) (arg : Term)
  | signExtend (amount : Nat) (arg : Term)
  | extract (hi lo : Nat) (arg : Term)
  | all (var : String) (sort : TermSort) (body : Term)

mutual

def Term.text : Term → String
  | .symbol name => name
  | .bvLit value width => "(_ bv" ++ natText value ++ " " ++ natText width ++ ")"
  | .boolLit value => if value then "true" else "false"
  | .app op args => "(" ++ op.text ++ Term.argsText args ++ ")"
  | .zeroExtend amount arg => "((_ zero_extend " ++ natText amount ++ ") " ++ arg.text ++ ")"
  | .signExtend amount arg => "((_ sign_extend " ++ natText amount ++ ") " ++ arg.text ++ ")"
  | .extract hi lo arg =>
      "((_ extract " ++ natText hi ++ " " ++ natText lo ++ ") " ++ arg.text ++ ")"
  | .all var sort body => "(forall ((" ++ var ++ " " ++ sort.text ++ ")) " ++ body.text ++ ")"

def Term.argsText : List Term → String
  | [] => ""
  | t :: ts => " " ++ t.text ++ Term.argsText ts

end

/-! ### Sorts -/

/-- The declared symbols, the latest first. -/
abbrev Signature := List (String × TermSort)

def Signature.lookup (sig : Signature) (name : String) : Option TermSort :=
  (sig.find? fun entry => entry.1 == name).map Prod.snd

/-- How an operator takes its operands. -/
inductive Shape where
  | negation
  | junction
  | equality
  | bitVecMap
  | bitVecZip
  | bitVecRelation
deriving DecidableEq

def Op.shape : Op → Shape
  | .not => .negation
  | .and | .or => .junction
  | .eq | .distinct => .equality
  | .bvneg | .bvnot => .bitVecMap
  | .bvadd | .bvsub | .bvmul | .bvudiv | .bvsdiv | .bvurem | .bvsrem
  | .bvand | .bvor | .bvxor | .bvshl | .bvlshr | .bvashr => .bitVecZip
  | .bvult | .bvule | .bvugt | .bvuge | .bvslt | .bvsle | .bvsgt | .bvsge => .bitVecRelation

/-- The sort of an application, when the operands have the sorts the operator needs. -/
def Op.sort (op : Op) (operands : List TermSort) : Option TermSort :=
  match op.shape, operands with
  | .negation, [.bool] => some .bool
  | .junction, s :: t :: rest =>
      if (s :: t :: rest).all (· == .bool) then some .bool else none
  | .equality, [s, t] => if s = t then some .bool else none
  | .bitVecMap, [.bitVec w] => some (.bitVec w)
  | .bitVecZip, [.bitVec v, .bitVec w] => if v = w then some (.bitVec v) else none
  | .bitVecRelation, [.bitVec v, .bitVec w] => if v = w then some .bool else none
  | _, _ => none

/-- Words of different widths are not added. -/
example : Op.bvadd.sort [.bitVec 1, .bitVec 2] = none := by
  simp [Op.sort, Op.shape]

mutual

/-- The sort of a term; none for a term that uses an undeclared symbol or applies an
operator to operands of other sorts. -/
def Term.sort : Term → Signature → Option TermSort
  | .symbol name, sig => sig.lookup name
  | .bvLit value width, _ =>
      if 0 < width ∧ value < 2 ^ width then some (.bitVec width) else none
  | .boolLit _, _ => some .bool
  | .app op args, sig => (Term.sorts args sig).bind op.sort
  | .zeroExtend amount arg, sig | .signExtend amount arg, sig =>
      match arg.sort sig with
      | some (.bitVec w) => some (.bitVec (w + amount))
      | _ => none
  | .extract hi lo arg, sig =>
      match arg.sort sig with
      | some (.bitVec w) => if lo ≤ hi ∧ hi < w then some (.bitVec (hi - lo + 1)) else none
      | _ => none
  | .all var sort body, sig =>
      match body.sort ((var, sort) :: sig) with
      | some .bool => some .bool
      | _ => none

def Term.sorts : List Term → Signature → Option (List TermSort)
  | [], _ => some []
  | t :: ts, sig =>
      match t.sort sig, Term.sorts ts sig with
      | some s, some ss => some (s :: ss)
      | _, _ => none

end

/-! ### Values -/

inductive Value where
  | bool (value : Bool)
  | bitVec (width : Nat) (value : BitVec width)
deriving DecidableEq

def Value.sort : Value → TermSort
  | .bool _ => .bool
  | .bitVec width _ => .bitVec width

def TermSort.values : TermSort → List Value
  | .bool => [.bool false, .bool true]
  | .bitVec width => (List.range (2 ^ width)).map fun n => .bitVec width (BitVec.ofNat width n)

/-- The Boolean values of a list, when all are Boolean. -/
def Value.bools : List Value → Option (List Bool)
  | [] => some []
  | .bool b :: vs => (Value.bools vs).map (b :: ·)
  | .bitVec _ _ :: _ => none

def Op.mapBitVec : Op → ∀ w, BitVec w → BitVec w
  | .bvneg, _, x => -x
  | .bvnot, _, x => ~~~x
  | _, _, x => x

def Op.zipBitVec : Op → ∀ w, BitVec w → BitVec w → BitVec w
  | .bvadd, _, x, y => x + y
  | .bvsub, _, x, y => x - y
  | .bvmul, _, x, y => x * y
  | .bvudiv, _, x, y => x.smtUDiv y
  | .bvsdiv, _, x, y => x.smtSDiv y
  | .bvurem, _, x, y => x % y
  | .bvsrem, _, x, y => x.srem y
  | .bvand, _, x, y => x &&& y
  | .bvor, _, x, y => x ||| y
  | .bvxor, _, x, y => x ^^^ y
  | .bvshl, _, x, y => x <<< y
  | .bvlshr, _, x, y => x >>> y
  | .bvashr, _, x, y => x.sshiftRight' y
  | _, _, x, _ => x

def Op.relateBitVec : Op → ∀ w, BitVec w → BitVec w → Bool
  | .bvult, _, x, y => x.ult y
  | .bvule, _, x, y => x.ule y
  | .bvugt, _, x, y => y.ult x
  | .bvuge, _, x, y => y.ule x
  | .bvslt, _, x, y => x.slt y
  | .bvsle, _, x, y => x.sle y
  | .bvsgt, _, x, y => y.slt x
  | .bvsge, _, x, y => y.sle x
  | _, _, _, _ => false

/-- The value of an application; none where it has no sort. -/
def Op.eval (op : Op) (operands : List Value) : Option Value :=
  match op.shape, operands with
  | .negation, [.bool b] => some (.bool !b)
  | .junction, u :: v :: rest =>
      (Value.bools (u :: v :: rest)).map fun bs =>
        .bool (if op = .and then bs.all id else bs.any id)
  | .equality, [u, v] =>
      if u.sort = v.sort then
        some (.bool (if op = .eq then decide (u = v) else !decide (u = v)))
      else none
  | .bitVecMap, [.bitVec w x] => some (.bitVec w (op.mapBitVec w x))
  | .bitVecZip, [.bitVec v x, .bitVec w y] =>
      if h : w = v then some (.bitVec v (op.zipBitVec v x (y.cast h))) else none
  | .bitVecRelation, [.bitVec v x, .bitVec w y] =>
      if h : w = v then some (.bool (op.relateBitVec v x (y.cast h))) else none
  | _, _ => none

/-- The values of the symbols. -/
abbrev Valuation := String → Option Value

mutual

def Term.eval : Term → Valuation → Option Value
  | .symbol name, val => val name
  | .bvLit value width, _ => some (.bitVec width (BitVec.ofNat width value))
  | .boolLit value, _ => some (.bool value)
  | .app op args, val => (Term.evals args val).bind op.eval
  | .zeroExtend amount arg, val =>
      match arg.eval val with
      | some (.bitVec w x) => some (.bitVec (w + amount) (x.setWidth (w + amount)))
      | _ => none
  | .signExtend amount arg, val =>
      match arg.eval val with
      | some (.bitVec w x) => some (.bitVec (w + amount) (x.signExtend (w + amount)))
      | _ => none
  | .extract hi lo arg, val =>
      match arg.eval val with
      | some (.bitVec _ x) => some (.bitVec (hi - lo + 1) (x.extractLsb hi lo))
      | _ => none
  | .all var sort body, val =>
      some (.bool (sort.values.all fun v =>
        body.eval (fun name => if name = var then some v else val name) == some (.bool true)))

def Term.evals : List Term → Valuation → Option (List Value)
  | [], _ => some []
  | t :: ts, val =>
      match t.eval val, Term.evals ts val with
      | some v, some vs => some (v :: vs)
      | _, _ => none

end

/-! ### Scripts -/

inductive Command where
  | comment (text : String)
  | setLogic (name : String)
  | declareFun (name : String) (sort : TermSort)
  | assert (term : Term) (remark : String)
  | assertNamed (term : Term) (name : String)
  | assertSoft (term : Term) (weight : Nat) (id : String)
  | checkSat

def Command.text : Command → String
  | .comment text => "; " ++ text ++ "\n"
  | .setLogic name => "(set-logic " ++ name ++ ")\n"
  | .declareFun name sort => "(declare-fun " ++ name ++ " () " ++ sort.text ++ ")\n"
  | .assert term remark => "(assert " ++ term.text ++ ") ; " ++ remark ++ "\n"
  | .assertNamed term name => "(assert (! " ++ term.text ++ " :named " ++ name ++ "))\n"
  | .assertSoft term weight id =>
      "(assert-soft " ++ term.text ++ " :weight " ++ natText weight ++ " :id " ++ id ++ ")\n"
  | .checkSat => "(check-sat)\n"

/-- A simple symbol of letters, digits and underscores. -/
def isSymbol (name : String) : Bool :=
  match name.toList with
  | [] => false
  | c :: cs => (c.isAlpha || c == '_') && cs.all fun d => d.isAlphanum || d == '_'

def TermSort.legal : TermSort → Bool
  | .bool => true
  | .bitVec width => 0 < width

/-- A new symbol may be declared: it is a legal one and not declared yet. -/
def Signature.admits (sig : Signature) (name : String) : Bool :=
  isSymbol name && (sig.lookup name).isNone

/-- Every symbol is declared once, before its uses, and every asserted term is a
well-sorted formula.  A label of an assertion is a symbol too. -/
def wellFormed : List Command → Signature → Bool
  | [], _ => true
  | .declareFun name sort :: rest, sig =>
      sig.admits name && sort.legal && wellFormed rest ((name, sort) :: sig)
  | .assert term _ :: rest, sig => term.sort sig == some .bool && wellFormed rest sig
  | .assertNamed term name :: rest, sig =>
      term.sort sig == some .bool && sig.admits name &&
        wellFormed rest ((name, .bool) :: sig)
  | .assertSoft term _ _ :: rest, sig => term.sort sig == some .bool && wellFormed rest sig
  | .comment _ :: rest, sig | .setLogic _ :: rest, sig | .checkSat :: rest, sig =>
      wellFormed rest sig

/-- The hard assertions. -/
def assertions : List Command → List Term
  | [] => []
  | .assert term _ :: rest | .assertNamed term _ :: rest => term :: assertions rest
  | _ :: rest => assertions rest

/-- A valuation satisfies a script that the solver accepts. -/
def Satisfies (val : Valuation) (script : List Command) : Prop :=
  wellFormed script [] = true ∧ ∀ t ∈ assertions script, t.eval val = some (.bool true)

/-! ### Lemmas on sorts -/

theorem Signature.lookup_cons (sig : Signature) (entry : String × TermSort) (name : String) :
    Signature.lookup (entry :: sig) name =
      if entry.1 = name then some entry.2 else sig.lookup name := by
  by_cases h : entry.1 = name
  · simp [Signature.lookup, h]
  · simp [Signature.lookup, h]

theorem Signature.lookup_eq_none (sig : Signature) (name : String) :
    sig.lookup name = none ↔ name ∉ sig.map Prod.fst := by
  simp only [Signature.lookup, Option.map_eq_none_iff, List.find?_eq_none, beq_iff_eq,
    List.mem_map, not_exists, not_and]

theorem Signature.lookup_append_of_notMem (front sig : Signature) (name : String)
    (h : name ∉ front.map Prod.fst) : Signature.lookup (front ++ sig) name = sig.lookup name := by
  induction front with
  | nil => rfl
  | cons entry front ih =>
      rw [List.map_cons, List.mem_cons, not_or] at h
      rw [List.cons_append, Signature.lookup_cons, if_neg (Ne.symm h.1), ih h.2]

theorem Signature.lookup_of_mem (sig : Signature) (name : String) (sort : TermSort)
    (hnodup : (sig.map Prod.fst).Nodup) (hmem : (name, sort) ∈ sig) :
    sig.lookup name = some sort := by
  induction sig with
  | nil => simp at hmem
  | cons entry sig ih =>
      rw [List.map_cons, List.nodup_cons] at hnodup
      rw [Signature.lookup_cons]
      rcases List.mem_cons.mp hmem with h | h
      · rw [← h, if_pos rfl]
      · have hne : entry.1 ≠ name := by
          intro heq
          apply hnodup.1
          rw [heq]
          exact List.mem_map.mpr ⟨(name, sort), h, rfl⟩
        rw [if_neg hne, ih hnodup.2 h]

theorem Term.sort_app_one (op : Op) (a : Term) (sig : Signature) :
    (Term.app op [a]).sort sig = (a.sort sig).bind fun s => op.sort [s] := by
  cases h : a.sort sig <;> simp [Term.sort, Term.sorts, h]

theorem Term.sort_app_two (op : Op) (a b : Term) (sig : Signature) :
    (Term.app op [a, b]).sort sig =
      (a.sort sig).bind fun s => (b.sort sig).bind fun t => op.sort [s, t] := by
  cases h : a.sort sig <;> cases h' : b.sort sig <;> simp [Term.sort, Term.sorts, h, h']

theorem Term.sorts_of_bool (ts : List Term) (sig : Signature)
    (h : ∀ t ∈ ts, t.sort sig = some .bool) :
    Term.sorts ts sig = some (ts.map fun _ => .bool) := by
  induction ts with
  | nil => rfl
  | cons t ts ih =>
      rw [List.forall_mem_cons] at h
      simp [Term.sorts, h.1, ih h.2]

theorem Term.sorts_of_none (ts : List Term) (sig : Signature)
    (h : ∃ t ∈ ts, t.sort sig = none) : Term.sorts ts sig = none := by
  induction ts with
  | nil => simp at h
  | cons t ts ih =>
      rw [List.exists_mem_cons_iff] at h
      rcases h with h | h
      · simp [Term.sorts, h]
      · cases h' : t.sort sig <;> simp [Term.sorts, h', ih h]

/-- A declared block of symbols. -/
theorem wellFormed_declare (entries : List (String × TermSort)) (rest : List Command)
    (sig : Signature) :
    wellFormed ((entries.map fun e => Command.declareFun e.1 e.2) ++ rest) sig = true ↔
      (∀ e ∈ entries, isSymbol e.1 = true ∧ e.2.legal = true ∧ e.1 ∉ sig.map Prod.fst) ∧
        (entries.map Prod.fst).Nodup ∧ wellFormed rest (entries.reverse ++ sig) = true := by
  induction entries generalizing sig with
  | nil => simp
  | cons entry entries ih =>
      simp only [List.map_cons, List.cons_append, wellFormed, Bool.and_eq_true,
        Signature.admits, Option.isNone_iff_eq_none, Signature.lookup_eq_none, ih,
        List.forall_mem_cons, List.nodup_cons, List.reverse_cons, List.append_assoc,
        List.nil_append]
      constructor
      · rintro ⟨⟨⟨hsym, hnew⟩, hlegal⟩, hrest, hnodup, hwf⟩
        refine ⟨⟨⟨hsym, hlegal, hnew⟩, fun e he => ?_⟩, ⟨?_, hnodup⟩, hwf⟩
        · obtain ⟨hs, hl, hn⟩ := hrest e he
          exact ⟨hs, hl, fun h => hn (List.mem_cons_of_mem _ h)⟩
        · intro hmem
          obtain ⟨e, he, heq⟩ := List.mem_map.mp hmem
          exact (hrest e he).2.2 (heq ▸ List.mem_cons_self)
      · rintro ⟨⟨⟨hsym, hlegal, hnew⟩, hrest⟩, ⟨hnot, hnodup⟩, hwf⟩
        refine ⟨⟨⟨hsym, hnew⟩, hlegal⟩, fun e he => ?_, hnodup, hwf⟩
        refine ⟨(hrest e he).1, (hrest e he).2.1, ?_⟩
        intro h
        rcases List.mem_cons.mp h with h | h
        · exact hnot (h ▸ List.mem_map_of_mem he)
        · exact (hrest e he).2.2 h

/-- A block of assertions without labels. -/
theorem wellFormed_assert (asserts : List (Term × String)) (rest : List Command)
    (sig : Signature) :
    wellFormed ((asserts.map fun a => Command.assert a.1 a.2) ++ rest) sig = true ↔
      (∀ a ∈ asserts, a.1.sort sig = some .bool) ∧ wellFormed rest sig = true := by
  induction asserts with
  | nil => simp
  | cons a asserts ih =>
      simp only [List.map_cons, List.cons_append, wellFormed, Bool.and_eq_true, beq_iff_eq, ih,
        List.forall_mem_cons, and_assoc]

/-- A block of labelled assertions whose sorts do not depend on the labels. -/
theorem wellFormed_assertNamed (asserts : List (Term × String)) (rest : List Command)
    (sig : Signature)
    (hstable : ∀ a ∈ asserts, ∀ front : Signature,
      (∀ e ∈ front, ∃ b ∈ asserts, e.1 = b.2) → a.1.sort (front ++ sig) = a.1.sort sig) :
    wellFormed ((asserts.map fun a => Command.assertNamed a.1 a.2) ++ rest) sig = true ↔
      (∀ a ∈ asserts, a.1.sort sig = some .bool) ∧
        (∀ a ∈ asserts, isSymbol a.2 = true ∧ a.2 ∉ sig.map Prod.fst) ∧
        (asserts.map Prod.snd).Nodup ∧
        wellFormed rest ((asserts.map fun a => (a.2, TermSort.bool)).reverse ++ sig) = true := by
  induction asserts generalizing sig with
  | nil => simp
  | cons a asserts ih =>
      have hsort : ∀ b ∈ asserts, b.1.sort ((a.2, TermSort.bool) :: sig) = b.1.sort sig := by
        intro b hb
        refine hstable b (List.mem_cons_of_mem _ hb) [(a.2, .bool)] ?_
        simp
      have hih := ih ((a.2, TermSort.bool) :: sig) (by
        intro b hb front hfront
        rw [hsort b hb]
        have := hstable b (List.mem_cons_of_mem _ hb) (front ++ [(a.2, .bool)]) (by
          intro e he
          rcases List.mem_append.mp he with he | he
          · obtain ⟨c, hc, heq⟩ := hfront e he
            exact ⟨c, List.mem_cons_of_mem _ hc, heq⟩
          · exact ⟨a, List.mem_cons_self, by simp at he; rw [he]⟩)
        simpa using this)
      simp only [List.map_cons, List.cons_append, wellFormed, Bool.and_eq_true, beq_iff_eq,
        Signature.admits, Option.isNone_iff_eq_none, Signature.lookup_eq_none, hih,
        List.forall_mem_cons, List.nodup_cons, List.reverse_cons, List.append_assoc,
        List.nil_append]
      constructor
      · rintro ⟨⟨ha, hsym, hnew⟩, hs, hl, hnodup, hwf⟩
        refine ⟨⟨ha, fun b hb => ?_⟩, ⟨⟨hsym, hnew⟩, fun b hb => ?_⟩, ⟨?_, hnodup⟩, hwf⟩
        · rw [← hsort b hb]
          exact hs b hb
        · exact ⟨(hl b hb).1, fun h => (hl b hb).2 (List.mem_cons_of_mem _ h)⟩
        · intro hmem
          obtain ⟨b, hb, heq⟩ := List.mem_map.mp hmem
          exact (hl b hb).2 (heq ▸ List.mem_cons_self)
      · rintro ⟨⟨ha, hs⟩, ⟨⟨hsym, hnew⟩, hl⟩, ⟨hnot, hnodup⟩, hwf⟩
        refine ⟨⟨ha, hsym, hnew⟩, fun b hb => ?_, fun b hb => ?_, hnodup, hwf⟩
        · rw [hsort b hb]
          exact hs b hb
        · refine ⟨(hl b hb).1, ?_⟩
          intro h
          rcases List.mem_cons.mp h with h | h
          · exact hnot (h ▸ List.mem_map_of_mem hb)
          · exact (hl b hb).2 h

/-- A block of soft assertions. -/
theorem wellFormed_assertSoft (asserts : List (Term × Nat × String)) (rest : List Command)
    (sig : Signature) :
    wellFormed ((asserts.map fun a => Command.assertSoft a.1 a.2.1 a.2.2) ++ rest) sig = true ↔
      (∀ a ∈ asserts, a.1.sort sig = some .bool) ∧ wellFormed rest sig = true := by
  induction asserts with
  | nil => simp
  | cons a asserts ih =>
      simp only [List.map_cons, List.cons_append, wellFormed, Bool.and_eq_true, beq_iff_eq, ih,
        List.forall_mem_cons, and_assoc]

end Harc.SmtScript
