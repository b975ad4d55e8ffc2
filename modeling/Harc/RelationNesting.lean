import Harc.ReachedCalls

/-!
Which relations are open when a call is expanded.  A relation stays open while its body is
walked, and with it the arguments that stand in the body.  So a call finds its own relation
open if the relations call each other in a cycle, or if the call is substituted into the
unfolding of a relation that it leads to.
-/

namespace Harc.RelationNesting

open Harc.Ast
open Harc.RelationExpansion
open Harc.ReachedCalls

/-! ### The call graph -/

mutual

/-- The names of all calls by name, those in arguments included. -/
def callNames : Expr → List String
  | .call callee args =>
      (match calleeName callee with
        | some name => [name]
        | none => callNames callee) ++ argsCallNames args
  | .field target _ => callNames target
  | .index target index => callNames target ++ callNames index
  | .bitSlice target hi lo => callNames target ++ (callNames hi ++ callNames lo)
  | .forEachConstraint _ iter body => callNames iter ++ listCallNames body
  | .cast expr _ => callNames expr
  | .unary _ expr => callNames expr
  | .binary _ lhs rhs => callNames lhs ++ callNames rhs
  | .ternary cond thenBranch elseBranch =>
      callNames cond ++ (callNames thenBranch ++ callNames elseBranch)
  | .paren inner => callNames inner
  | .membership expr set => callNames expr ++ callNames set
  | .setLit items => listCallNames items
  | .rangeLit lo hi => boundCallNames lo ++ boundCallNames hi
  | _ => []

def listCallNames : List Expr → List String
  | [] => []
  | e :: es => callNames e ++ listCallNames es

def boundCallNames : Option Expr → List String
  | none => []
  | some e => callNames e

def argsCallNames : List CallArg → List String
  | [] => []
  | .expr value :: args => callNames value ++ argsCallNames args
  | .named _ value :: args => callNames value ++ argsCallNames args

end

/-- A relation calls another one in its body. -/
def Calls (rels : Relations) (caller callee : String) : Prop :=
  ∃ rel, rels.find caller = some rel ∧ callee ∈ listCallNames rel.body ∧
    (rels.find callee).isSome = true

/-- A cycle of the call graph can be reached from a constraint. -/
def Cyclic (rels : Relations) (e : Expr) : Prop :=
  ∃ start name, start ∈ callNames e ∧ (rels.find start).isSome = true ∧
    Relation.ReflTransGen (Calls rels) start name ∧ Relation.TransGen (Calls rels) name name

theorem mem_listCallNames {es : List Expr} {e : Expr} (he : e ∈ es) {n : String}
    (hn : n ∈ callNames e) : n ∈ listCallNames es := by
  induction es with
  | nil => exact absurd he List.not_mem_nil
  | cons f es ih =>
      rw [listCallNames, List.mem_append]
      rcases List.mem_cons.mp he with rfl | he
      · exact .inl hn
      · exact .inr (ih he)

theorem mem_argsCallNames {args : List CallArg} {arg : CallArg} (harg : arg ∈ args) {n : String}
    (hn : n ∈ callNames arg.value) : n ∈ argsCallNames args := by
  induction args with
  | nil => exact absurd harg List.not_mem_nil
  | cons a args ih =>
      rcases List.mem_cons.mp harg with rfl | harg'
      · cases arg <;> exact List.mem_append_left _ hn
      · have hrest := ih harg'
        cases a <;> exact List.mem_append_right _ hrest

theorem callNames_parts {e c : Expr} {vars : List String} (hc : (vars, c) ∈ parts e) :
    ∀ n ∈ callNames c, n ∈ callNames e := by
  intro n hn
  cases e with
  | call callee args =>
      rw [parts, List.mem_cons, List.mem_map] at hc
      rw [callNames, List.mem_append]
      rcases hc with hc | ⟨a, ha, heq⟩
      · obtain ⟨-, rfl⟩ := Prod.mk.inj hc
        cases c with
        | ident name => exact absurd hn List.not_mem_nil
        | _ => exact .inl hn
      · obtain ⟨-, rfl⟩ := Prod.mk.inj heq
        exact .inr (mem_argsCallNames ha hn)
  | forEachConstraint var iter body =>
      rw [parts, List.mem_cons, List.mem_map] at hc
      rw [callNames, List.mem_append]
      rcases hc with hc | ⟨f, hf, heq⟩
      · obtain ⟨-, rfl⟩ := Prod.mk.inj hc
        exact .inl hn
      · obtain ⟨-, rfl⟩ := Prod.mk.inj heq
        exact .inr (mem_listCallNames hf hn)
  | setLit items =>
      rw [parts, List.mem_map] at hc
      obtain ⟨f, hf, heq⟩ := hc
      obtain ⟨-, rfl⟩ := Prod.mk.inj heq
      exact mem_listCallNames hf hn
  | rangeLit lo hi =>
      rw [parts, List.mem_map] at hc
      obtain ⟨f, hf, heq⟩ := hc
      obtain ⟨-, rfl⟩ := Prod.mk.inj heq
      rw [callNames, List.mem_append]
      rcases List.mem_append.mp hf with hf | hf
      · obtain rfl := Option.mem_toList.mp hf
        exact .inl hn
      · obtain rfl := Option.mem_toList.mp hf
        exact .inr hn
  | _ =>
      simp only [parts, List.mem_cons, List.not_mem_nil, or_false, Prod.mk.injEq] at hc <;>
        grind [callNames]

/-- Every call that is reached stands in the text. -/
theorem callNames_reaches {rels : Relations} {e f : Expr} {inside loops : List String}
    (h : Reaches rels e f inside loops) : ∀ n ∈ callNames f, n ∈ callNames e := by
  induction h with
  | here e => exact fun n hn => hn
  | part hopened hc _ ih => exact fun n hn => callNames_parts hc n (ih n hn)
  | @argument name param args rel clause value f inside inside' loops loops' hrel hclause
      hvalue hparam hfree _ _ ih =>
      intro n hn
      obtain ⟨-, a, ha, rfl⟩ := buildRelationSubst_get _ _ _ _ hvalue
      have hpart : ([], a.value) ∈ parts (.call (.ident name) args) :=
        List.mem_cons_of_mem _ (List.mem_map_of_mem ha)
      exact callNames_parts hpart n (ih n hn)

/-! ### Where calls are substituted -/

section Opening

variable (rels : Relations)

/-- The unfolding of a relation comes to a call of another one that its body makes. -/
def Opens (caller callee : String) : Prop :=
  ∃ rel clause args inside loops, rels.find caller = some rel ∧ clause ∈ rel.body ∧
    Reaches rels clause (.call (.ident callee) args) inside loops ∧
    (rels.find callee).isSome = true

def LeadsTo : String → String → Prop := Relation.ReflTransGen (Opens rels)

/-- The relations that the expansion of a constraint comes to. -/
def Entered (e : Expr) (name : String) : Prop :=
  ∃ start args inside loops, Reaches rels e (.call (.ident start) args) inside loops ∧
    (rels.find start).isSome = true ∧ LeadsTo rels start name

/-- The constraint itself, and the bodies of the relations that it comes to. -/
def TextOf (e x : Expr) : Prop :=
  x = e ∨ ∃ name rel, Entered rels e name ∧ rels.find name = some rel ∧ x ∈ rel.body

/-- A cycle of relations is unfolded. -/
def OpensItself (e : Expr) : Prop :=
  ∃ name, Entered rels e name ∧ Relation.TransGen (Opens rels) name name

/-- A call is substituted into the unfolding of a relation that it leads to. -/
def NestedInItself (e : Expr) : Prop :=
  ∃ x name args inside loops active, TextOf rels e x ∧
    Reaches rels x (.call (.ident name) args) inside loops ∧ (rels.find name).isSome = true ∧
    active ∈ inside ∧ LeadsTo rels name active

/-- A relation that is unfolded calls one of its parameters. -/
def CallsParameter (e : Expr) : Prop :=
  ∃ name rel clause param args inside loops, Entered rels e name ∧ rels.find name = some rel ∧
    clause ∈ rel.body ∧ Reaches rels clause (.call (.ident param) args) inside loops ∧
    param ∉ loops ∧ param ∈ rel.params

end Opening

section Nesting

variable {rels : Relations} {e : Expr}

theorem Opens.calls {caller callee : String} (h : Opens rels caller callee) :
    Calls rels caller callee := by
  obtain ⟨rel, clause, args, inside, loops, hrel, hclause, hreaches, hdeclared⟩ := h
  have hname : callee ∈ callNames clause :=
    callNames_reaches hreaches callee (List.mem_append_left _ List.mem_cons_self)
  exact ⟨rel, hrel, mem_listCallNames hclause hname, hdeclared⟩

/-- A cycle that is unfolded is one of the call graph. -/
theorem OpensItself.cyclic (h : OpensItself rels e) : Cyclic rels e := by
  obtain ⟨name, ⟨start, args, inside, loops, hreaches, hdeclared, hleads⟩, hcycle⟩ := h
  have hstart : start ∈ callNames e :=
    callNames_reaches hreaches start (List.mem_append_left _ List.mem_cons_self)
  have hle : Opens rels ≤ Calls rels := fun _ _ h => h.calls
  exact ⟨start, name, hstart, hdeclared, Relation.ReflTransGen.mono hle _ _ hleads,
    Relation.TransGen.mono hle _ _ hcycle⟩

theorem Entered.step {name callee : String} (h : Entered rels e name)
    (hopens : Opens rels name callee) : Entered rels e callee := by
  obtain ⟨start, args, inside, loops, hreaches, hdeclared, hleads⟩ := h
  exact ⟨start, args, inside, loops, hreaches, hdeclared, hleads.tail hopens⟩

/-- A body that calls no parameter keeps its calls. -/
theorem callees_unfold (hparam : ¬ CallsParameter rels e) {name : String}
    (hentered : Entered rels e name) {rel : Relation} (hrel : rels.find name = some rel)
    (args : List CallArg) {clause : Expr} (hclause : clause ∈ rel.body) :
    Callees rels clause (buildRelationSubst rel.params args) := by
  intro n args₁ inside₁ loops₁ hn hfree
  cases hget : (buildRelationSubst rel.params args).get n with
  | none => rfl
  | some value =>
      exact absurd ⟨name, rel, clause, n, args₁, inside₁, loops₁, hentered, hrel, hclause, hn,
        hfree, (buildRelationSubst_get _ _ _ _ hget).1⟩ hparam

/-- What is reached in an unfolded body is reached in the text of the body, or in the call
that is unfolded. -/
theorem unfold_reaches (hparam : ¬ CallsParameter rels e) {name : String}
    (hentered : Entered rels e name) {rel : Relation} (hrel : rels.find name = some rel)
    {args : List CallArg} {clause' : Expr} (hclause' : clause' ∈ rel.unfold args)
    {callee' : Expr} {args' : List CallArg} {inside loops : List String}
    (h : Reaches rels clause' (.call callee' args') inside loops) :
    (∃ clause ∈ rel.body, ∃ callee args₀ subst, Reaches rels clause (.call callee args₀) inside
        loops ∧ callee' = substituteRelationIdents callee subst ∧
        args' = substituteArgs args₀ subst ∧ ∀ n, callee = .ident n → subst.get n = none) ∨
      ∃ inside₁ inside₂ loops₂, Reaches rels (.call (.ident name) args) (.call callee' args')
        (name :: (inside₁ ++ inside₂)) loops₂ ∧ inside = inside₁ ++ inside₂ := by
  obtain ⟨clause, hclause, rfl⟩ := substituteList_mem _ _ clause' hclause'
  have hcallees := callees_unfold hparam hentered hrel args hclause
  have hvalue : ∀ {n : String} {value : Expr} {inside₁ inside₂ loops₁ loops₂ : List String},
      Reaches rels clause (.ident n) inside₁ loops₁ → n ∉ loops₁ →
      (buildRelationSubst rel.params args).get n = some value →
      Reaches rels value (.call callee' args') inside₂ loops₂ →
      Reaches rels (.call (.ident name) args) (.call callee' args')
        (name :: (inside₁ ++ inside₂)) loops₂ :=
    fun hn hfree hget hv => .argument hrel hclause hget hn hfree hv
  rcases reaches_of_substitute h clause _ rfl hcallees with
    ⟨g, hg, heq⟩ | ⟨n, value, inside₁, inside₂, loops₁, loops₂, hn, hfree, hget, hv, rfl⟩
  · cases g with
    | ident n =>
        rw [substitute_ident, get_hide] at heq
        split at heq
        · simp at heq
        · rename_i hfree
          cases hget : (buildRelationSubst rel.params args).get n with
          | none => simp [hget] at heq
          | some value =>
              rw [hget] at heq
              obtain rfl : _ = value := heq
              exact .inr ⟨inside, [], [], hvalue hg hfree hget (.here _),
                (List.append_nil inside).symm⟩
    | call callee args₀ =>
        rw [substituteRelationIdents, Expr.call.injEq] at heq
        refine .inl ⟨clause, hclause, callee, args₀, _, hg, heq.1, heq.2, ?_⟩
        rintro n rfl
        rw [get_hide]
        split
        · rfl
        · rename_i hfree
          exact hcallees n args₀ inside loops hg hfree
    | _ => simp [substituteRelationIdents] at heq
  · exact .inr ⟨inside₁, inside₂, loops₂, hvalue hn hfree hget hv, rfl⟩

/-! ### The expressions of an expansion -/

/-- The calls of all texts have a property. -/
def Throughout (rels : Relations) (e : Expr) (Q : Expr → List CallArg → Prop) : Prop :=
  ∀ x, TextOf rels e x → ∀ callee args inside loops,
    Reaches rels x (.call callee args) inside loops → Q callee args

/-- A property of calls that does not depend on what is substituted. -/
def Substitutive (Q : Expr → List CallArg → Prop) : Prop :=
  ∀ callee args subst, (∀ n, callee = .ident n → subst.get n = none) → Q callee args →
    Q (substituteRelationIdents callee subst) (substituteArgs args subst)

/-- An expression that the expansion of a constraint comes to. -/
structure MadeOf (rels : Relations) (e : Expr) (Q : Expr → List CallArg → Prop) (x : Expr) :
    Prop where
  calls : ∀ callee args inside loops, Reaches rels x (.call callee args) inside loops →
    Q callee args
  entered : ∀ name args inside loops, Reaches rels x (.call (.ident name) args) inside loops →
    (rels.find name).isSome = true → Entered rels e name

variable {Q : Expr → List CallArg → Prop}

theorem MadeOf.start (hQ : Throughout rels e Q) : MadeOf rels e Q e where
  calls := hQ e (.inl rfl)
  entered name args inside loops hreaches hdeclared :=
    ⟨name, args, inside, loops, hreaches, hdeclared, .refl⟩

/-- A name that is called after a replacement is called before it. -/
theorem callee_of_substitute {callee : Expr} {subst : Subst} {name : String}
    (hkept : ∀ n, callee = .ident n → subst.get n = none)
    (hname : Expr.ident name = substituteRelationIdents callee subst) : callee = .ident name := by
  cases callee with
  | ident n =>
      rw [substitute_ident, hkept n rfl] at hname
      exact hname.symm
  | _ => simp [substituteRelationIdents] at hname

/-- The call of a relation that an unfolded body makes by itself. -/
theorem opens_of_text {name : String} {rel : Relation} (hrel : rels.find name = some rel)
    {clause callee : Expr} (hclause : clause ∈ rel.body) {args : List CallArg}
    {inside loops : List String} (h : Reaches rels clause (.call callee args) inside loops)
    {subst : Subst} (hkept : ∀ n, callee = .ident n → subst.get n = none) {name' : String}
    (hname' : Expr.ident name' = substituteRelationIdents callee subst)
    (hdeclared : (rels.find name').isSome = true) : Opens rels name name' := by
  obtain rfl := callee_of_substitute hkept hname'
  exact ⟨rel, clause, args, inside, loops, hrel, hclause, h, hdeclared⟩

theorem MadeOf.unfold (hQ : Throughout rels e Q) (hstable : Substitutive Q)
    (hparam : ¬ CallsParameter rels e) {x : Expr} (hx : MadeOf rels e Q x) {name : String}
    {args : List CallArg} {inside loops : List String}
    (hcall : Reaches rels x (.call (.ident name) args) inside loops) {rel : Relation}
    (hrel : rels.find name = some rel) {clause' : Expr} (hclause' : clause' ∈ rel.unfold args) :
    MadeOf rels e Q clause' := by
  have hentered := hx.entered name args inside loops hcall (by rw [hrel]; rfl)
  constructor
  · intro callee' args' inside' loops' hreaches
    rcases unfold_reaches hparam hentered hrel hclause' hreaches with
      ⟨clause, hclause, callee, args₀, subst, hg, rfl, rfl, hkept⟩ | ⟨_, _, _, hg, -⟩
    · exact hstable callee args₀ subst hkept
        (hQ clause (.inr ⟨name, rel, hentered, hrel, hclause⟩) _ _ _ _ hg)
    · obtain ⟨loops'', htrans⟩ := hcall.trans hg
      exact hx.calls _ _ _ _ htrans
  · intro name' args' inside' loops' hreaches hdeclared
    rcases unfold_reaches hparam hentered hrel hclause' hreaches with
      ⟨clause, hclause, callee, args₀, subst, hg, hname', rfl, hkept⟩ | ⟨_, _, _, hg, -⟩
    · exact hentered.step (opens_of_text hrel hclause hg hkept hname' hdeclared)
    · obtain ⟨loops'', htrans⟩ := hcall.trans hg
      exact hx.entered _ _ _ _ htrans hdeclared

/-- No call of an expression leads to a relation that is open where the call is reached. -/
def Clear (rels : Relations) (stack : List String) (x : Expr) : Prop :=
  ∀ name args inside loops, Reaches rels x (.call (.ident name) args) inside loops →
    (rels.find name).isSome = true → ∀ active ∈ stack ++ inside, ¬ LeadsTo rels name active

theorem Clear.start (hnested : ¬ NestedInItself rels e) : Clear rels [] e :=
  fun name args inside loops hreaches hdeclared active hactive hleads =>
    hnested ⟨e, name, args, inside, loops, active, .inl rfl, hreaches, hdeclared, hactive,
      hleads⟩

theorem Clear.unfold (hcycle : ¬ OpensItself rels e) (hnested : ¬ NestedInItself rels e)
    (hparam : ¬ CallsParameter rels e) {stack : List String} {x : Expr}
    (hx : MadeOf rels e Q x) (hclear : Clear rels stack x) {name : String}
    {args : List CallArg} {loops : List String}
    (hcall : Reaches rels x (.call (.ident name) args) [] loops) {rel : Relation}
    (hrel : rels.find name = some rel) {clause' : Expr} (hclause' : clause' ∈ rel.unfold args) :
    Clear rels (name :: stack) clause' := by
  have hdeclared : (rels.find name).isSome = true := by rw [hrel]; rfl
  have hentered := hx.entered name args [] loops hcall hdeclared
  intro name' args' inside' loops' hreaches hdeclared' active hactive hleads
  rcases unfold_reaches hparam hentered hrel hclause' hreaches with
    ⟨clause, hclause, callee, args₀, subst, hg, hname', rfl, hkept⟩ |
      ⟨inside₁, inside₂, loops₂, hg, rfl⟩
  · have hopens := opens_of_text hrel hclause hg hkept hname' hdeclared'
    rw [List.cons_append, List.mem_cons, List.mem_append] at hactive
    rcases hactive with rfl | hactive | hactive
    · exact hcycle ⟨active, hentered, Relation.TransGen.head' hopens hleads⟩
    · exact hclear name args [] loops hcall hdeclared active (List.mem_append_left _ hactive)
        (Relation.ReflTransGen.head hopens hleads)
    · obtain rfl := callee_of_substitute hkept hname'
      exact hnested ⟨clause, name', args₀, inside', loops', active,
        .inr ⟨name, rel, hentered, hrel, hclause⟩, hg, hdeclared', hactive, hleads⟩
  · obtain ⟨loops'', htrans⟩ := hcall.trans hg
    refine hclear name' args' _ loops'' htrans hdeclared' active ?_ hleads
    simp only [List.cons_append, List.nil_append, List.mem_cons, List.mem_append] at hactive ⊢
    tauto

end Nesting

end Harc.RelationNesting
