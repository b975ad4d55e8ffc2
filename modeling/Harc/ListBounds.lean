import Harc.ConstraintExpr
import Mathlib.Order.Lattice.Nat
import Mathlib.Logic.Function.Basic

/-!
The bounds to which list fields are unrolled (`infer_list_unroll_bounds`), and when they
exclude no length that the hard constraints allow.
-/

namespace Harc.ListBounds

open Harc.ConstraintExpr

/-- A list field of the record, with its declared maximum. -/
structure ListField where
  name : String
  declaredMaxLen : Option Nat

def constUsizeExpr : Expr → Option Nat
  | .paren inner => constUsizeExpr inner
  | .int value none => if value < 2 ^ 64 then some value else none
  | _ => none

/-- The upper end of an item of a set. -/
def itemUpperBound : Expr → Option Nat
  | .rangeLit _ (some hi) => constUsizeExpr hi
  | item => constUsizeExpr item

def setUpperBound : Expr → Option Nat
  | .rangeLit _ (some hi) => constUsizeExpr hi
  | .setLit items => (items.filterMap itemUpperBound).max?
  | set => constUsizeExpr set

def checkedPred : Nat → Option Nat
  | 0 => none
  | n + 1 => some n

def minBound : Option Nat → Option Nat → Option Nat
  | some a, some b => some (min a b)
  | some a, none => some a
  | none, b => b

section Inference

variable (isList : String → Bool) (targetRoot : Option String)

def listFieldNameFromExpr (e : Expr) : Option String :=
  (exprFieldPath e targetRoot).filter isList

def listLenCallFieldName : Expr → Option String
  | .call (.field target name) [] =>
      if name = "len" then listFieldNameFromExpr isList targetRoot target else none
  | _ => none

/-- The bound that a comparison of the length with a constant gives. -/
def compareUpperBound (op : BinaryOp) (lhs rhs : Expr) (lhsIsLen rhsIsLen : Bool) :
    Option Nat :=
  match op with
  | .le => if lhsIsLen then constUsizeExpr rhs else none
  | .lt => if lhsIsLen then (constUsizeExpr rhs).bind checkedPred else none
  | .ge => if rhsIsLen then constUsizeExpr lhs else none
  | .gt => if rhsIsLen then (constUsizeExpr lhs).bind checkedPred else none
  | .eq =>
      if lhsIsLen then constUsizeExpr rhs
      else if rhsIsLen then constUsizeExpr lhs
      else none
  | _ => none

def isLen (field : String) (e : Expr) : Bool :=
  listLenCallFieldName isList targetRoot e == some field

def isConjunction (op : BinaryOp) : Bool := op == .andAnd || op == .andKw

def listLenUpperBoundFromExpr (field : String) : Expr → Option Nat
  | .paren inner => listLenUpperBoundFromExpr field inner
  | .membership expr set =>
      if isLen isList targetRoot field expr then setUpperBound set else none
  | .binary op lhs rhs =>
      if (guardedConstraintGuard (.binary op lhs rhs)).isSome then
        listLenUpperBoundFromExpr field rhs
      else if isConjunction op then
        minBound (listLenUpperBoundFromExpr field lhs) (listLenUpperBoundFromExpr field rhs)
      else
        compareUpperBound op lhs rhs (isLen isList targetRoot field lhs)
          (isLen isList targetRoot field rhs)
  | _ => none

/-- The bound of one field over all hard constraints. -/
def fieldUnrollBound (hardConstraints : List Expr) (f : ListField) : Option Nat :=
  hardConstraints.foldl
    (fun bound c => minBound bound (listLenUpperBoundFromExpr isList targetRoot f.name c))
    f.declaredMaxLen

/-- `insert` into the table of bounds -/
def insertBound (out : String → Option Nat) (name : String) (bound : Option Nat) :
    String → Option Nat :=
  if bound.isSome then Function.update out name bound else out

def inferListUnrollBounds (fields : List ListField) (hardConstraints : List Expr) :
    String → Option Nat :=
  fields.foldl
    (fun out f => insertBound out f.name
      (fieldUnrollBound isList targetRoot hardConstraints f))
    fun _ => none

end Inference

/-! ### What a constraint says about the lengths -/

/-- Lengths of the lists, and what the expressions denote that the inference does not read. -/
structure Assignment where
  lengths : String → Nat
  value : Expr → Int
  truth : Expr → Prop

section Meaning

variable (isList : String → Bool) (targetRoot : Option String) (a : Assignment)

def callTerm (e : Expr) : Int :=
  match listLenCallFieldName isList targetRoot e with
  | some field => a.lengths field
  | none => a.value e

def term : Expr → Int
  | .int value _ => value
  | .paren inner => term inner
  | .call callee args => callTerm isList targetRoot a (.call callee args)
  | e => a.value e

mutual

/-- Membership in a set, a range (both ends included) or a single value. -/
def memberOf (v : Int) : Expr → Prop
  | .rangeLit lo hi =>
      (∀ l ∈ lo, term isList targetRoot a l ≤ v) ∧ ∀ h ∈ hi, v ≤ term isList targetRoot a h
  | .setLit items => memberOfAny v items
  | .paren inner => memberOf v inner
  | e => v = term isList targetRoot a e

def memberOfAny (v : Int) : List Expr → Prop
  | [] => False
  | e :: es => memberOf v e ∨ memberOfAny v es

end

def holds : Expr → Prop
  | .paren inner => holds inner
  | .unary .not e => ¬ holds e
  | .unary .notKw e => ¬ holds e
  | .binary .andAnd l r => holds l ∧ holds r
  | .binary .andKw l r => holds l ∧ holds r
  | .binary .orOr l r => holds l ∨ holds r
  | .binary .orKw l r => holds l ∨ holds r
  | .binary .le l r => term isList targetRoot a l ≤ term isList targetRoot a r
  | .binary .lt l r => term isList targetRoot a l < term isList targetRoot a r
  | .binary .ge l r => term isList targetRoot a l ≥ term isList targetRoot a r
  | .binary .gt l r => term isList targetRoot a l > term isList targetRoot a r
  | .binary .eq l r => term isList targetRoot a l = term isList targetRoot a r
  | .membership e set => memberOf isList targetRoot a (term isList targetRoot a e) set
  | e => a.truth e

/-- All hard constraints hold and no list is longer than declared. -/
structure Satisfies (fields : List ListField) (hardConstraints : List Expr) : Prop where
  constraints : ∀ c ∈ hardConstraints, holds isList targetRoot a c
  declared : ∀ f ∈ fields, ∀ n ∈ f.declaredMaxLen, a.lengths f.name ≤ n

end Meaning

/-! ### Bounds that lose nothing -/

/-- Either every item of the set has a constant upper end or none has. -/
def Complete : Expr → Prop
  | .setLit items =>
      (∃ item ∈ items, (itemUpperBound item).isSome) →
        ∀ item ∈ items, (itemUpperBound item).isSome
  | _ => True

section Sound

variable (isList : String → Bool) (targetRoot : Option String)

/-- No bound for the field is taken from behind a guard or from a part of a set. -/
def Lossless (field : String) : Expr → Prop
  | .paren inner => Lossless field inner
  | .membership expr set => isLen isList targetRoot field expr = true → Complete set
  | .binary op lhs rhs =>
      if (guardedConstraintGuard (.binary op lhs rhs)).isSome then
        listLenUpperBoundFromExpr isList targetRoot field rhs = none
      else if isConjunction op then Lossless field lhs ∧ Lossless field rhs
      else True
  | _ => True

variable {isList targetRoot} {a : Assignment} {field : String}

theorem term_of_const {e : Expr} {n : Nat} (h : constUsizeExpr e = some n) :
    term isList targetRoot a e = n := by
  induction e using constUsizeExpr.induct with
  | case1 inner ih =>
      rw [constUsizeExpr] at h
      rw [term]
      exact ih h
  | case2 value hlt =>
      rw [constUsizeExpr, if_pos hlt] at h
      rw [term, Option.some.inj h]
  | case3 value hle =>
      rw [constUsizeExpr, if_neg hle] at h
      cases h
  | case4 e hparen hint =>
      rw [constUsizeExpr] at h
      · cases h
      · exact hparen
      · exact hint

theorem term_of_isLen {e : Expr} (h : isLen isList targetRoot field e = true) :
    term isList targetRoot a e = a.lengths field := by
  rw [isLen, beq_iff_eq] at h
  cases e with
  | call callee args => rw [term, callTerm, h]
  | _ => cases h

theorem memberOf_of_const {v : Int} {e : Expr} {n : Nat} (h : constUsizeExpr e = some n)
    (hv : memberOf isList targetRoot a v e) : v = n := by
  induction e using constUsizeExpr.induct with
  | case1 inner ih =>
      rw [constUsizeExpr] at h
      rw [memberOf] at hv
      exact ih h hv
  | case2 value hlt =>
      rw [memberOf, term_of_const h] at hv
      · exact hv
      all_goals nofun
  | case3 value hle =>
      rw [constUsizeExpr, if_neg hle] at h
      cases h
  | case4 e hparen hint =>
      rw [constUsizeExpr] at h
      · cases h
      · exact hparen
      · exact hint

theorem memberOf_le_itemUpperBound {v : Int} {item : Expr} {n : Nat}
    (h : itemUpperBound item = some n) (hv : memberOf isList targetRoot a v item) : v ≤ n := by
  have hconst : itemUpperBound item = constUsizeExpr item → v ≤ n := fun heq =>
    Int.le_of_eq (memberOf_of_const (heq ▸ h) hv)
  cases item with
  | rangeLit lo hi =>
      cases hi with
      | none => exact hconst rfl
      | some hi =>
          rw [memberOf] at hv
          have hle := hv.2 hi rfl
          rwa [term_of_const h] at hle
  | _ => exact hconst rfl

theorem exists_of_memberOfAny {v : Int} {items : List Expr}
    (h : memberOfAny isList targetRoot a v items) :
    ∃ item ∈ items, memberOf isList targetRoot a v item := by
  induction items with
  | nil => exact h.elim
  | cons item items ih =>
      rw [memberOfAny] at h
      rcases h with h | h
      · exact ⟨item, List.mem_cons_self, h⟩
      · obtain ⟨other, hmem, hother⟩ := ih h
        exact ⟨other, List.mem_cons_of_mem item hmem, hother⟩

theorem memberOf_le_setUpperBound {v : Int} {set : Expr} {n : Nat} (hset : Complete set)
    (h : setUpperBound set = some n) (hv : memberOf isList targetRoot a v set) : v ≤ n := by
  have hitem : setUpperBound set = itemUpperBound set → v ≤ n := fun heq =>
    memberOf_le_itemUpperBound (heq ▸ h) hv
  cases set with
  | setLit items =>
      obtain ⟨hmem, hmax⟩ := List.max?_eq_some_iff.mp h
      obtain ⟨first, hfirst, hbound⟩ := List.mem_filterMap.mp hmem
      rw [memberOf] at hv
      obtain ⟨item, hitem, hv⟩ := exists_of_memberOfAny hv
      have hall := hset ⟨first, hfirst, Option.isSome_iff_exists.mpr ⟨n, hbound⟩⟩ item hitem
      obtain ⟨m, hm⟩ := Option.isSome_iff_exists.mp hall
      have hle : v ≤ m := memberOf_le_itemUpperBound hm hv
      have hmn : m ≤ n := hmax m (List.mem_filterMap.mpr ⟨item, hitem, hm⟩)
      omega
  | rangeLit lo hi => cases hi <;> exact hitem rfl
  | _ => exact hitem rfl

theorem le_of_minBound {x y : Option Nat} {n k : Nat} (h : minBound x y = some n)
    (hx : ∀ m ∈ x, k ≤ m) (hy : ∀ m ∈ y, k ≤ m) : k ≤ n := by
  cases x with
  | none =>
      cases y with
      | none => cases h
      | some m => exact hy n h
  | some l =>
      cases y with
      | none => exact hx n h
      | some m =>
          cases h
          exact le_min (hx l rfl) (hy m rfl)

theorem lt_of_checkedPred {e : Expr} {n : Nat}
    (h : (constUsizeExpr e).bind checkedPred = some n) :
    term isList targetRoot a e = n + 1 := by
  obtain ⟨m, hm, hpred⟩ := Option.bind_eq_some_iff.mp h
  cases m with
  | zero => cases hpred
  | succ m =>
      cases hpred
      rw [term_of_const hm]
      rfl

theorem le_compareUpperBound {op : BinaryOp} {l r : Expr} {n : Nat}
    (h : compareUpperBound op l r (isLen isList targetRoot field l)
      (isLen isList targetRoot field r) = some n)
    (hholds : holds isList targetRoot a (.binary op l r)) : a.lengths field ≤ n := by
  cases op with
  | le =>
      simp only [compareUpperBound, Option.ite_none_right_eq_some] at h
      rw [holds, term_of_isLen h.1, term_of_const h.2] at hholds
      omega
  | lt =>
      simp only [compareUpperBound, Option.ite_none_right_eq_some] at h
      rw [holds, term_of_isLen h.1, lt_of_checkedPred h.2] at hholds
      omega
  | ge =>
      simp only [compareUpperBound, Option.ite_none_right_eq_some] at h
      rw [holds, term_of_isLen h.1, term_of_const h.2] at hholds
      omega
  | gt =>
      simp only [compareUpperBound, Option.ite_none_right_eq_some] at h
      rw [holds, term_of_isLen h.1, lt_of_checkedPred h.2] at hholds
      omega
  | eq =>
      rw [compareUpperBound] at h
      rw [holds] at hholds
      split_ifs at h with hl hr
      · rw [term_of_isLen hl, term_of_const h] at hholds
        omega
      · rw [term_of_isLen hr, term_of_const h] at hholds
        omega
  | _ => cases h

theorem le_listLenUpperBoundFromExpr {e : Expr} {n : Nat}
    (hlossless : Lossless isList targetRoot field e)
    (h : listLenUpperBoundFromExpr isList targetRoot field e = some n)
    (hholds : holds isList targetRoot a e) : a.lengths field ≤ n := by
  induction e using listLenUpperBoundFromExpr.induct isList targetRoot field
    generalizing n with
  | case1 inner ih =>
      rw [listLenUpperBoundFromExpr] at h
      rw [Lossless] at hlossless
      rw [holds] at hholds
      exact ih hlossless h hholds
  | case2 expr set hlen =>
      rw [listLenUpperBoundFromExpr, if_pos hlen] at h
      rw [Lossless] at hlossless
      rw [holds, term_of_isLen hlen] at hholds
      exact Int.ofNat_le.mp (memberOf_le_setUpperBound (hlossless hlen) h hholds)
  | case3 expr set hlen =>
      rw [listLenUpperBoundFromExpr, if_neg hlen] at h
      cases h
  | case4 op lhs rhs hguard ih =>
      rw [listLenUpperBoundFromExpr, if_pos hguard] at h
      rw [Lossless, if_pos hguard, h] at hlossless
      cases hlossless
  | case5 op lhs rhs hguard hconj ihl ihr =>
      rw [listLenUpperBoundFromExpr, if_neg hguard, if_pos hconj] at h
      rw [Lossless, if_neg hguard, if_pos hconj] at hlossless
      have hboth : holds isList targetRoot a lhs ∧ holds isList targetRoot a rhs := by
        rw [isConjunction, Bool.or_eq_true, beq_iff_eq, beq_iff_eq] at hconj
        rcases hconj with rfl | rfl <;> exact hholds
      exact le_of_minBound h (fun m hm => ihl hlossless.1 hm hboth.1)
        (fun m hm => ihr hlossless.2 hm hboth.2)
  | case6 op lhs rhs hguard hconj =>
      rw [listLenUpperBoundFromExpr, if_neg hguard, if_neg hconj] at h
      exact le_compareUpperBound h hholds
  | case7 e hparen hmember hbinary =>
      rw [listLenUpperBoundFromExpr] at h
      · cases h
      · exact hparen
      · exact hmember
      · exact hbinary

theorem le_fieldUnrollBound {hardConstraints : List Expr} {f : ListField} {n : Nat}
    (hlossless : ∀ c ∈ hardConstraints, Lossless isList targetRoot f.name c)
    (hholds : ∀ c ∈ hardConstraints, holds isList targetRoot a c)
    (hdeclared : ∀ m ∈ f.declaredMaxLen, a.lengths f.name ≤ m)
    (h : fieldUnrollBound isList targetRoot hardConstraints f = some n) :
    a.lengths f.name ≤ n := by
  -- the bound so far is one for the length
  have hrun : ∀ (cs : List Expr) (bound : Option Nat),
      (∀ c ∈ cs, Lossless isList targetRoot f.name c) →
      (∀ c ∈ cs, holds isList targetRoot a c) → (∀ m ∈ bound, a.lengths f.name ≤ m) →
      ∀ m ∈ cs.foldl (fun bound c =>
        minBound bound (listLenUpperBoundFromExpr isList targetRoot f.name c)) bound,
        a.lengths f.name ≤ m := by
    intro cs
    induction cs with
    | nil => exact fun bound _ _ hbound => hbound
    | cons c cs ih =>
        intro bound hlossless hholds hbound
        obtain ⟨hc, hlossless⟩ := List.forall_mem_cons.mp hlossless
        obtain ⟨hc', hholds⟩ := List.forall_mem_cons.mp hholds
        refine ih _ hlossless hholds fun m hm => ?_
        exact le_of_minBound hm hbound fun k hk => le_listLenUpperBoundFromExpr hc hk hc'
  exact hrun hardConstraints f.declaredMaxLen hlossless hholds hdeclared n h

theorem mem_insertBound {out : String → Option Nat} {name other : String}
    {bound : Option Nat} {m : Nat} (h : m ∈ insertBound out name bound other) :
    (other = name ∧ m ∈ bound) ∨ m ∈ out other := by
  unfold insertBound at h
  split_ifs at h
  · rcases eq_or_ne other name with rfl | hne
    · rw [Function.update_self] at h
      exact Or.inl ⟨rfl, h⟩
    · rw [Function.update_of_ne hne] at h
      exact Or.inr h
  · exact Or.inr h

/-- Where no bound is lost, a bound excludes no length that the constraints allow. -/
theorem inferListUnrollBounds_sound (fields : List ListField) (hardConstraints : List Expr)
    (hlossless : ∀ f ∈ fields, ∀ c ∈ hardConstraints, Lossless isList targetRoot f.name c)
    (name : String) (n : Nat)
    (h : inferListUnrollBounds isList targetRoot fields hardConstraints name = some n)
    (a : Assignment) (ha : Satisfies isList targetRoot a fields hardConstraints) :
    a.lengths name ≤ n := by
  have hrun : ∀ (fs : List ListField) (out : String → Option Nat), (∀ f ∈ fs, f ∈ fields) →
      (∀ name, ∀ m ∈ out name, a.lengths name ≤ m) →
      ∀ name, ∀ m ∈ fs.foldl (fun out f => insertBound out f.name
        (fieldUnrollBound isList targetRoot hardConstraints f)) out name,
        a.lengths name ≤ m := by
    intro fs
    induction fs with
    | nil => exact fun out _ hout => hout
    | cons f fs ih =>
        intro out hfields hout
        obtain ⟨hf, hfields⟩ := List.forall_mem_cons.mp hfields
        refine ih _ hfields fun name m hm => ?_
        rcases mem_insertBound hm with ⟨rfl, hbound⟩ | hm
        · exact le_fieldUnrollBound (hlossless f hf) ha.constraints (ha.declared f hf) hbound
        · exact hout name m hm
  exact hrun fields _ (fun f hf => hf) (fun _ _ hm => absurd hm (by simp)) name n h

end Sound

/-- `data.len()` -/
def dataLen : Expr := .call (.field (.ident "data") "len") []

def dataField : ListField := ⟨"data", some 8⟩

/-- `data.len() in {2, 0..4} && data.len() < 4` -/
def boundedConstraint : Expr :=
  .binary .andAnd
    (.membership dataLen
      (.setLit [.int 2 none, .rangeLit (some (.int 0 none)) (some (.int 4 none))]))
    (.binary .lt dataLen (.int 4 none))

theorem boundedConstraint_bound :
    inferListUnrollBounds (· == "data") none [dataField] [boundedConstraint] "data" = some 3 ∧
      ∀ a : Assignment, Satisfies (· == "data") none a [dataField] [boundedConstraint] →
        a.lengths "data" ≤ 3 := by
  have hbound : inferListUnrollBounds (· == "data") none [dataField] [boundedConstraint] "data" =
      some 3 := by decide
  refine ⟨hbound, fun a ha => inferListUnrollBounds_sound [dataField] [boundedConstraint] ?_
    "data" 3 hbound a ha⟩
  intro f hf c hc
  rw [List.mem_singleton.mp hf, List.mem_singleton.mp hc]
  refine ⟨fun _ _ item hitem => ?_, trivial⟩
  rcases List.mem_cons.mp hitem with rfl | hitem
  · rfl
  · rw [List.mem_singleton.mp hitem]
    rfl

/-- `!(mode) || data.len() <= 3`, as a `keep` in a `when` item is written -/
def guardedConstraint : Expr :=
  .binary .orOr (.unary .not (.paren (.ident "mode")))
    (.binary .le dataLen (.int 3 none))

/-- `data.len() in {2, 8'd6}` -/
def sizedConstraint : Expr :=
  .membership dataLen (.setLit [.int 2 none, .int 6 (some 8)])

theorem legal_lengths_excluded :
    (∃ a : Assignment, inferListUnrollBounds (· == "data") none [dataField]
        [guardedConstraint] "data" = some 3 ∧
      Satisfies (· == "data") none a [dataField] [guardedConstraint] ∧ a.lengths "data" = 8) ∧
    ∃ a : Assignment, inferListUnrollBounds (· == "data") none [dataField]
        [sizedConstraint] "data" = some 2 ∧
      Satisfies (· == "data") none a [dataField] [sizedConstraint] ∧ a.lengths "data" = 6 := by
  have hdeclared : ∀ n ≤ 8, ∀ f ∈ [dataField], ∀ m ∈ f.declaredMaxLen, n ≤ m := by
    intro n hn f hf m hm
    rw [List.mem_singleton.mp hf] at hm
    cases hm
    exact hn
  refine ⟨⟨⟨fun _ => 8, fun _ => 0, fun _ => False⟩, by decide, ⟨?_, ?_⟩, rfl⟩,
    ⟨⟨fun _ => 6, fun _ => 0, fun _ => False⟩, by decide, ⟨?_, ?_⟩, rfl⟩⟩
  · intro c hc
    rw [List.mem_singleton.mp hc]
    exact Or.inl id
  · exact hdeclared 8 (Nat.le_refl 8)
  · intro c hc
    rw [List.mem_singleton.mp hc]
    exact Or.inr (Or.inl rfl)
  · exact hdeclared 6 (by decide)

end Harc.ListBounds
