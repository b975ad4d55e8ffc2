import Harc.RelationExpansion
import Mathlib.Logic.Relation

/-!
Where the calls of a constraint end up.  A relation is expanded by substituting its
arguments, unexpanded, into its body; what stands in an argument is then walked inside the
relation that it is passed to, and inside every relation that this one passes it to.
-/

namespace Harc.ReachedCalls

open Harc.Ast
open Harc.RelationExpansion

/-! ### Parts of an expression -/

/-- The parts of an expression, each with the loop variable that is bound in it. -/
def parts : Expr → List (List String × Expr)
  | .call callee args => ([], callee) :: args.map fun a => ([], a.value)
  | .field target _ => [([], target)]
  | .index target index => [([], target), ([], index)]
  | .bitSlice target hi lo => [([], target), ([], hi), ([], lo)]
  | .forEachConstraint var iter body => ([], iter) :: body.map fun c => ([var], c)
  | .cast expr _ => [([], expr)]
  | .unary _ expr => [([], expr)]
  | .binary _ lhs rhs => [([], lhs), ([], rhs)]
  | .ternary cond thenBranch elseBranch => [([], cond), ([], thenBranch), ([], elseBranch)]
  | .paren inner => [([], inner)]
  | .membership expr set => [([], expr), ([], set)]
  | .setLit items => items.map fun i => ([], i)
  | .rangeLit lo hi => (lo.toList ++ hi.toList).map fun b => ([], b)
  | _ => []

/-- The replacements that are left inside a loop over these variables. -/
def hide (subst : Subst) (vars : List String) : Subst := vars.foldl Subst.remove subst

theorem get_hide (vars : List String) (n : String) : ∀ subst : Subst,
    (hide subst vars).get n = if n ∈ vars then none else subst.get n := by
  induction vars with
  | nil => exact fun subst => rfl
  | cons var vars ih =>
      intro subst
      change (hide (subst.remove var) vars).get n = _
      rw [ih, Subst.get_remove]
      by_cases hn : n = var <;> by_cases hmem : n ∈ vars <;> simp [hn, hmem]

theorem substituteList_eq_map (es : List Expr) (subst : Subst) :
    substituteList es subst = es.map fun e => substituteRelationIdents e subst := by
  induction es with
  | nil => rfl
  | cons e es ih => rw [substituteList, ih, List.map_cons]

theorem mem_unfold {rel : Relation} {clause : Expr} (h : clause ∈ rel.body)
    (args : List CallArg) :
    substituteRelationIdents clause (buildRelationSubst rel.params args) ∈ rel.unfold args := by
  rw [Relation.unfold, substituteList_eq_map]
  exact List.mem_map_of_mem h

/-- The replacement in an argument. -/
def substituteArg (subst : Subst) : CallArg → CallArg
  | .expr value => .expr (substituteRelationIdents value subst)
  | .named name value => .named name (substituteRelationIdents value subst)

theorem value_substituteArg (subst : Subst) (arg : CallArg) :
    (substituteArg subst arg).value = substituteRelationIdents arg.value subst := by
  cases arg <;> rfl

theorem substituteArgs_eq_map (args : List CallArg) (subst : Subst) :
    substituteArgs args subst = args.map (substituteArg subst) := by
  induction args with
  | nil => rfl
  | cons arg args ih => cases arg <;> rw [substituteArgs, ih] <;> rfl

theorem substituteBound_eq_map (b : Option Expr) (subst : Subst) :
    substituteBound b subst = b.map fun e => substituteRelationIdents e subst := by
  cases b <;> rfl

theorem misplacedArg_substitute (params : List String) (args : List CallArg) (subst : Subst) :
    misplacedArg params (substituteArgs args subst) = misplacedArg params args := by
  rw [misplacedArg, misplacedArg, substituteArgs_eq_map, List.zipIdx_map, List.findSome?_map]
  apply congrArg (fun f => args.zipIdx.findSome? f)
  funext entry
  obtain ⟨arg, i⟩ := entry
  cases arg <;> rfl

/-- The parts of an expression after a replacement. -/
theorem parts_substitute (e : Expr) (subst : Subst) (he : ∀ n, e ≠ .ident n) :
    parts (substituteRelationIdents e subst) =
      (parts e).map fun p => (p.1, substituteRelationIdents p.2 (hide subst p.1)) := by
  cases e with
  | ident n => exact absurd rfl (he n)
  | call callee args =>
      simp [substituteRelationIdents, parts, hide, substituteArgs_eq_map, value_substituteArg]
  | forEachConstraint var iter body =>
      simp [substituteRelationIdents, parts, hide, substituteList_eq_map]
  | setLit items => simp [substituteRelationIdents, parts, hide, substituteList_eq_map]
  | rangeLit lo hi =>
      rw [substituteRelationIdents, substituteBound_eq_map, substituteBound_eq_map]
      cases lo <;> cases hi <;> rfl
  | _ => rfl

theorem buildRelationSubst_get (params : List String) (args : List CallArg) (n : String)
    (e : Expr) (h : (buildRelationSubst params args).get n = some e) :
    n ∈ params ∧ ∃ a ∈ args, e = a.value := by
  have hgen : ∀ (pairs : List (String × CallArg)) (subst : Subst),
      (∀ m f, subst.get m = some f → m ∈ params ∧ ∃ a ∈ args, f = a.value) →
      (∀ p ∈ pairs, p.1 ∈ params ∧ p.2 ∈ args) →
      ∀ m f, (pairs.foldl (fun s p => s.insert p.1 p.2.value) subst).get m = some f →
        m ∈ params ∧ ∃ a ∈ args, f = a.value := by
    intro pairs
    induction pairs with
    | nil => exact fun subst hs _ => hs
    | cons p pairs ih =>
        intro subst hs hp
        rw [List.forall_mem_cons] at hp
        refine ih (subst.insert p.1 p.2.value) ?_ hp.2
        intro m f hm
        rw [Subst.get_insert] at hm
        split at hm
        · rename_i heq
          exact ⟨heq ▸ hp.1.1, p.2, hp.1.2, (Option.some.inj hm).symm⟩
        · exact hs m f hm
  refine hgen (params.zip args) [] (by simp [Subst.get]) ?_ n e h
  intro p hp
  exact ⟨(List.of_mem_zip hp).1, (List.of_mem_zip hp).2⟩

/-! ### What is reached -/

/-- The relation that an expression is a call of. -/
def opened (rels : Relations) : Expr → Option Relation
  | .call (.ident name) _ => rels.find name
  | _ => none

/-- The walk of an expression comes to a part of it, inside the given relations and loops.
A part of an argument is reached where the parameter stands in the body of the relation. -/
inductive Reaches (rels : Relations) : Expr → Expr → List String → List String → Prop
  | here (e : Expr) : Reaches rels e e [] []
  | part {e c f : Expr} {vars inside loops : List String} (hopened : opened rels e = none)
      (hc : (vars, c) ∈ parts e) (h : Reaches rels c f inside loops) :
      Reaches rels e f inside (vars ++ loops)
  | argument {name param : String} {args : List CallArg} {rel : Relation}
      {clause value f : Expr} {inside inside' loops loops' : List String}
      (hrel : rels.find name = some rel) (hclause : clause ∈ rel.body)
      (hvalue : (buildRelationSubst rel.params args).get param = some value)
      (hparam : Reaches rels clause (.ident param) inside loops) (hfree : param ∉ loops)
      (h : Reaches rels value f inside' loops') :
      Reaches rels (.call (.ident name) args) f (name :: (inside ++ inside')) loops'

section Reaches

variable {rels : Relations}

theorem Reaches.trans {e f g : Expr} {inside inside' loops loops' : List String}
    (h : Reaches rels e f inside loops) (h' : Reaches rels f g inside' loops') :
    ∃ loops'', Reaches rels e g (inside ++ inside') loops'' := by
  induction h with
  | here e => exact ⟨loops', h'⟩
  | part hopened hc _ ih =>
      obtain ⟨loops'', hreaches⟩ := ih h'
      exact ⟨_, .part hopened hc hreaches⟩
  | @argument name param args rel clause value f inside₁ inside₂ loops₁ loops₂ hrel hclause
      hvalue hparam hfree _ _ ih =>
      obtain ⟨loops'', hreaches⟩ := ih h'
      refine ⟨loops'', ?_⟩
      rw [List.cons_append, List.append_assoc]
      exact .argument hrel hclause hvalue hparam hfree hreaches

/-- What is reached inside a relation is reached in an argument of a direct call. -/
theorem Reaches.direct {e f : Expr} {inside loops : List String}
    (h : Reaches rels e f inside loops) :
    inside = [] ∨ ∃ name args rel clause param value inside₁ inside₂ loops₀ loops₁ loops₂,
      Reaches rels e (.call (.ident name) args) [] loops₀ ∧ rels.find name = some rel ∧
      clause ∈ rel.body ∧ (buildRelationSubst rel.params args).get param = some value ∧
      Reaches rels clause (.ident param) inside₁ loops₁ ∧ param ∉ loops₁ ∧
      Reaches rels value f inside₂ loops₂ ∧ inside = name :: (inside₁ ++ inside₂) := by
  induction h with
  | here e => exact .inl rfl
  | part hopened hc _ ih =>
      rcases ih with hinside | ⟨name, args, rel, clause, param, value, inside₁, inside₂, loops₀,
        loops₁, loops₂, hcall, hrest⟩
      · exact .inl hinside
      · exact .inr ⟨name, args, rel, clause, param, value, inside₁, inside₂, _, loops₁, loops₂,
          .part hopened hc hcall, hrest⟩
  | @argument name param args rel clause value f inside inside' loops loops' hrel hclause
      hvalue hparam hfree h _ =>
      exact .inr ⟨name, args, rel, clause, param, value, inside, inside', [], loops, loops',
        .here _, hrel, hclause, hvalue, hparam, hfree, h, rfl⟩

/-- What is reached is the expression itself or stands in one of its parts. -/
theorem Reaches.self_or_part {e f : Expr} {inside loops : List String}
    (h : Reaches rels e f inside loops) :
    f = e ∨ ∃ p ∈ parts e, ∃ inside' loops', Reaches rels p.2 f inside' loops' := by
  cases h with
  | here => exact .inl rfl
  | part hopened hc h => exact .inr ⟨_, hc, _, _, h⟩
  | argument hrel hclause hvalue hparam hfree h =>
      obtain ⟨-, a, ha, rfl⟩ := buildRelationSubst_get _ _ _ _ hvalue
      exact .inr ⟨_, List.mem_cons_of_mem _ (List.mem_map_of_mem ha), _, _, h⟩

/-- A replaced identifier is the only expression that is not replaced part by part. -/
theorem substitute_ident (n : String) (subst : Subst) :
    substituteRelationIdents (.ident n) subst = (subst.get n).getD (.ident n) := rfl

/-- The names that are called are not replaced. -/
def Callees (rels : Relations) (e : Expr) (subst : Subst) : Prop :=
  ∀ n args inside loops, Reaches rels e (.call (.ident n) args) inside loops →
    n ∉ loops → subst.get n = none

theorem Callees.part {e c : Expr} {subst : Subst} {vars : List String}
    (h : Callees rels e subst) (hopened : opened rels e = none) (hc : (vars, c) ∈ parts e) :
    Callees rels c (hide subst vars) := by
  intro n args inside loops hreaches hfree
  rw [get_hide]
  split
  · rfl
  · rename_i hvars
    exact h n args inside (vars ++ loops) (.part hopened hc hreaches)
      (List.mem_append.not.mpr (not_or.mpr ⟨hvars, hfree⟩))

theorem buildRelationSubst_substitute (params : List String) (args : List CallArg)
    (subst : Subst) (param : String) :
    (buildRelationSubst params (substituteArgs args subst)).get param =
      ((buildRelationSubst params args).get param).map
        fun value => substituteRelationIdents value subst := by
  have hfold : ∀ (pairs : List (String × CallArg)) (s s' : Subst),
      s'.get param = (s.get param).map (fun v => substituteRelationIdents v subst) →
      (pairs.foldl (fun s p => s.insert p.1 (substituteArg subst p.2).value) s').get param =
        ((pairs.foldl (fun s p => s.insert p.1 p.2.value) s).get param).map
          fun v => substituteRelationIdents v subst := by
    intro pairs
    induction pairs with
    | nil => exact fun s s' h => h
    | cons p pairs ih =>
        intro s s' h
        refine ih _ _ ?_
        rw [Subst.get_insert, Subst.get_insert, h, value_substituteArg]
        split <;> rfl
  rw [buildRelationSubst, buildRelationSubst, substituteArgs_eq_map, List.zip_map_right,
    List.foldl_map]
  exact hfold (params.zip args) [] [] rfl

/-- What is reached after a replacement is reached in the expression, or in the value of an
identifier that is reached. -/
theorem reaches_of_substitute {e' f : Expr} {inside loops : List String}
    (h : Reaches rels e' f inside loops) : ∀ (e : Expr) (subst : Subst),
    e' = substituteRelationIdents e subst → Callees rels e subst →
    (∃ g, Reaches rels e g inside loops ∧ f = substituteRelationIdents g (hide subst loops)) ∨
      ∃ n value inside₁ inside₂ loops₁ loops₂, Reaches rels e (.ident n) inside₁ loops₁ ∧
        n ∉ loops₁ ∧ subst.get n = some value ∧ Reaches rels value f inside₂ loops₂ ∧
        inside = inside₁ ++ inside₂ := by
  induction h with
  | here e' => exact fun e subst he _ => .inl ⟨e, .here e, he⟩
  | @part e' c' f vars inside loops hopened hc hreaches ih =>
      intro e subst he hcallees
      by_cases hident : ∃ n, e = .ident n
      · obtain ⟨n, rfl⟩ := hident
        rw [substitute_ident] at he
        cases hn : subst.get n with
        | none =>
            rw [hn] at he
            subst he
            simp [parts] at hc
        | some value =>
            rw [hn] at he
            obtain rfl : e' = value := he
            exact .inr ⟨n, e', [], inside, [], _, .here _, List.not_mem_nil, hn,
              .part hopened hc hreaches, rfl⟩
      · have hparts := parts_substitute e subst fun n hn => hident ⟨n, hn⟩
        rw [← he] at hparts
        rw [hparts, List.mem_map] at hc
        obtain ⟨⟨vars', c⟩, hc, heq⟩ := hc
        obtain ⟨rfl, rfl⟩ := Prod.mk.inj heq
        have hunopened : opened rels e = none := by
          cases e with
          | call callee args =>
              cases callee with
              | ident n =>
                  have hkept := hcallees n args [] [] (.here _) List.not_mem_nil
                  rw [he, substituteRelationIdents, substitute_ident, hkept] at hopened
                  exact hopened
              | _ => rfl
          | _ => rfl
        rcases ih c (hide subst vars') rfl (hcallees.part hunopened hc) with
          ⟨g, hg, rfl⟩ | ⟨n, value, inside₁, inside₂, loops₁, loops₂, hn, hfree, hget, hv, rfl⟩
        · refine .inl ⟨g, .part hunopened hc hg, ?_⟩
          rw [hide, hide, hide, List.foldl_append]
        · rw [get_hide] at hget
          split at hget
          · exact absurd hget (Option.some_ne_none value).symm
          · rename_i hvars
            exact .inr ⟨n, value, inside₁, inside₂, vars' ++ loops₁, loops₂,
              .part hunopened hc hn, List.mem_append.not.mpr (not_or.mpr ⟨hvars, hfree⟩), hget,
              hv, rfl⟩
  | @argument name param args' rel clause value' f inside inside' loops loops' hrel hclause
      hvalue hparam hfree hreaches _ ih =>
      intro e subst he hcallees
      by_cases hident : ∃ n, e = .ident n
      · obtain ⟨n, rfl⟩ := hident
        rw [substitute_ident] at he
        cases hn : subst.get n with
        | none => simp [hn] at he
        | some value =>
            rw [hn] at he
            obtain rfl : _ = value := he
            exact .inr ⟨n, _, [], _, [], _, .here _, List.not_mem_nil, hn,
              .argument hrel hclause hvalue hparam hfree hreaches, rfl⟩
      · obtain ⟨args, rfl, rfl⟩ : ∃ args, e = .call (.ident name) args ∧
            args' = substituteArgs args subst := by
          cases e with
          | ident n => exact absurd ⟨n, rfl⟩ hident
          | call callee args =>
              rw [substituteRelationIdents, Expr.call.injEq] at he
              obtain ⟨hcallee, hargs⟩ := he
              cases callee with
              | ident n =>
                  have hkept := hcallees n args [] [] (.here _) List.not_mem_nil
                  rw [substitute_ident, hkept] at hcallee
                  obtain rfl : name = n := Expr.ident.inj hcallee
                  exact ⟨args, rfl, hargs⟩
              | _ => simp [substituteRelationIdents] at hcallee
          | _ => simp [substituteRelationIdents] at he
        rw [buildRelationSubst_substitute, Option.map_eq_some_iff] at hvalue
        obtain ⟨value, hvalue, rfl⟩ := hvalue
        have hargument : ∀ {g : Expr} {inside₂ loops₂ : List String},
            Reaches rels value g inside₂ loops₂ →
              Reaches rels (.call (.ident name) args) g (name :: (inside ++ inside₂)) loops₂ :=
          fun hg => .argument hrel hclause hvalue hparam hfree hg
        rcases ih value subst rfl fun n args inside₂ loops₂ hn =>
            hcallees n args _ loops₂ (hargument hn) with
          ⟨g, hg, rfl⟩ | ⟨n, v, inside₁, inside₂, loops₁, loops₂, hn, hfree, hget, hv, rfl⟩
        · exact .inl ⟨g, hargument hg, rfl⟩
        · refine .inr ⟨n, v, name :: (inside ++ inside₁), inside₂, loops₁, loops₂, hargument hn,
            hfree, hget, hv, ?_⟩
          rw [List.cons_append, List.append_assoc]

/-- What is reached is still reached after a replacement. -/
theorem Reaches.substitute {e f : Expr} {inside loops : List String}
    (h : Reaches rels e f inside loops) : ∀ subst : Subst, Callees rels e subst →
    ∃ loops', Reaches rels (substituteRelationIdents e subst)
      (substituteRelationIdents f (hide subst loops)) inside loops' := by
  induction h with
  | here e => exact fun subst _ => ⟨[], .here _⟩
  | @part e c f vars inside loops hopened hc _ ih =>
      intro subst hcallees
      obtain ⟨loops', hreaches⟩ := ih (hide subst vars) (hcallees.part hopened hc)
      have hident : ∀ n, e ≠ .ident n := by
        rintro n rfl
        simp [parts] at hc
      have hunopened : opened rels (substituteRelationIdents e subst) = none := by
        cases e with
        | ident n => exact absurd rfl (hident n)
        | call callee args =>
            cases callee with
            | ident n =>
                have hkept := hcallees n args [] [] (.here _) List.not_mem_nil
                rw [substituteRelationIdents, substitute_ident, hkept]
                exact hopened
            | _ => rfl
        | _ => rfl
      have hpart : (vars, substituteRelationIdents c (hide subst vars)) ∈
          parts (substituteRelationIdents e subst) := by
        rw [parts_substitute e subst hident]
        exact List.mem_map.mpr ⟨_, hc, rfl⟩
      refine ⟨vars ++ loops', ?_⟩
      rw [hide, List.foldl_append]
      exact .part hunopened hpart hreaches
  | @argument name param args rel clause value f inside inside' loops loops' hrel hclause
      hvalue hparam hfree _ _ ih =>
      intro subst hcallees
      have hkept := hcallees name args [] [] (.here _) List.not_mem_nil
      obtain ⟨loops'', hreaches⟩ := ih subst fun n args' inside₂ loops₂ hn =>
        hcallees n args' _ loops₂ (.argument hrel hclause hvalue hparam hfree hn)
      refine ⟨loops'', ?_⟩
      rw [substituteRelationIdents, substitute_ident, hkept]
      refine .argument hrel hclause ?_ hparam hfree hreaches
      rw [buildRelationSubst_substitute, hvalue, Option.map_some]

end Reaches

end Harc.ReachedCalls
