import Harc.RecordKeeps

/-!
The keeps collected on a record hold exactly if every record in it satisfies the keeps of
its type.  The conditions say where no name is captured and no keep is passed over.
-/

namespace Harc.RecordKeepsSound

open Harc.Ast
open Harc.RelationExpansion (calleeName)
open Harc.RelationMeaning
open Harc.KeepCollection
open Harc.RecordKeeps

/-! ### What prefixing has to leave alone -/

/-- The places of an expression that prefixing does not replace: loop variables, names of
functions, and what it does not look into. -/
inductive Mark where
  | loop (var : String)
  | callee (name : String)
  | untraversed
deriving DecidableEq

mutual

def marks : Expr → List Mark
  | .field target _ => marks target
  | .index target index => marks target ++ marks index
  | .bitSlice target hi lo => marks target ++ marks hi ++ marks lo
  | .call callee args =>
      match calleeName callee with
      | some name => .callee name :: argsMarks args
      | none => marks callee ++ argsMarks args
  | .cast expr _ => marks expr
  | .unary _ expr => marks expr
  | .binary _ lhs rhs => marks lhs ++ marks rhs
  | .ternary cond thenBranch elseBranch => marks cond ++ marks thenBranch ++ marks elseBranch
  | .rangeLit lo hi => boundMarks lo ++ boundMarks hi
  | .setLit items => listMarks items
  | .paren inner => marks inner
  | .forEachConstraint var iter body => .loop var :: (marks iter ++ listMarks body)
  | .membership expr set => marks expr ++ marks set
  | .implicitSelf => [.untraversed]
  | .other _ => [.untraversed]
  | .int _ => []
  | .bool _ => []
  | .string _ => []
  | .number _ => []
  | .ident _ => []

def listMarks : List Expr → List Mark
  | [] => []
  | e :: es => marks e ++ listMarks es

def boundMarks : Option Expr → List Mark
  | none => []
  | some e => marks e

def argsMarks : List CallArg → List Mark
  | [] => []
  | .expr value :: args => marks value ++ argsMarks args
  | .named _ value :: args => marks value ++ argsMarks args

end

/-- No loop is over one of the first names, and no function has one of the others. -/
def Mark.clear (loops names : List String) : Mark → Bool
  | .loop var => !loops.contains var
  | .callee name => !names.contains name
  | .untraversed => false

section Prefix

/-- Under loops over other variables than `loops`, the fields of a part of `fields` are
those without the loop variable. -/
def Scopes (innerFields : String → List String → List String) (loops fields : List String) :
    Prop :=
  ∀ var ∉ loops, ∀ part, part ⊆ fields → innerFields var part = part.filter (· != var)

theorem sourceTransform_scopes {loops fields : List String} (h : fields ⊆ loops) :
    Scopes SourceTransform.innerFields loops fields := by
  intro var hvar part hpart
  have hnot : var ∉ part := fun hmem => hvar (h (hpart hmem))
  rw [SourceTransform.innerFields, if_neg (by simpa using hnot)]
  refine (List.filter_eq_self.mpr ?_).symm
  rintro n hn
  simp only [bne_iff_ne, ne_eq]
  rintro rfl
  exact hnot hn

theorem constraints_scopes (loops fields : List String) :
    Scopes Constraints.innerFields loops fields :=
  fun _ _ _ _ => rfl

variable {innerFields : String → List String → List String} {loops fields : List String}

theorem calleeName_prefixExpr (base callee : Expr) (part : List String)
    (h : calleeName callee = none) :
    calleeName (prefixExpr innerFields base callee part) = none := by
  cases callee with
  | ident name => simp [calleeName] at h
  | _ => simp [prefixExpr, calleeName]

theorem eq_ident_of_calleeName {callee : Expr} {f : String} (h : calleeName callee = some f) :
    callee = .ident f := by
  cases callee with
  | ident g => simpa [calleeName] using h
  | _ => simp [calleeName] at h

theorem notMem_of_clear {part : List String} {f : String} (hpart : part ⊆ fields)
    (h : (Mark.callee f).clear loops fields = true) : f ∉ part := by
  intro hmem
  simp [Mark.clear, hpart hmem] at h

theorem prefixExpr_ident_of_notMem (base : Expr) (name : String) (part : List String)
    (h : name ∉ part) :
    prefixExpr innerFields base (.ident name) part = .ident name := by
  rw [prefixExpr, if_neg (by simpa using h)]

variable {V : Type} (sem : RecordSemantics V) (calls : String → List V → V)
  (inner outer : V) (name : String)

/-- The names of the inner scope as the outer scope has them. -/
def Bound (part : List String) (env env' : Env V) (n : String) : Prop :=
  env' n = if n ∈ part then sem.field (env name) n else env n

theorem Bound.bind {sem : RecordSemantics V} {name : String} {part : List String}
    {env env' : Env V} {var : String} (hvar : name ≠ var) (v : V) {n : String}
    (h : n ≠ var → Bound sem name part env env' n) :
    Bound sem name (part.filter (· != var)) (env.bind var v) (env'.bind var v) n := by
  unfold Bound Env.bind
  by_cases hn : n = var
  · simp [hn]
  · rw [if_neg hn, if_neg hvar, if_neg hn, h hn]
    simp [hn]

mutual

-- The loops change the scopes and the fields that are left, so both are general here.
theorem eval_prefixExpr (hscopes : Scopes innerFields loops fields) (hname : name ∈ loops) :
    ∀ (e : Expr) (part : List String) (env env' : Env V), part ⊆ fields →
      (∀ m ∈ marks e, m.clear loops fields = true) →
      (∀ n ∈ freeNames e, Bound sem name part env env' n) →
      eval (sem.at outer).toSemantics calls (prefixExpr innerFields (.ident name) e part) env =
        eval (sem.at inner).toSemantics calls e env'
  | .ident n, part, env, env', _, _, henv => by
      have hn := henv n (by simp [freeNames])
      rw [Bound] at hn
      by_cases hmem : n ∈ part
      · rw [prefixExpr, if_pos (by simpa using hmem), eval, eval, eval, hn, if_pos hmem]
        rfl
      · rw [prefixExpr, if_neg (by simpa using hmem), eval, eval, hn, if_neg hmem]
  | .field target n, part, env, env', hpart, hm, henv => by
      rw [prefixExpr, eval, eval, eval_prefixExpr hscopes hname target part env env' hpart
        (by simpa [marks] using hm) (by simpa [freeNames] using henv)]
      rfl
  | .index target index, part, env, env', hpart, hm, henv => by
      simp only [marks, freeNames, List.forall_mem_append] at hm henv
      rw [prefixExpr, eval, eval,
        eval_prefixExpr hscopes hname target part env env' hpart hm.1 henv.1,
        eval_prefixExpr hscopes hname index part env env' hpart hm.2 henv.2]
      rfl
  | .bitSlice target hi lo, part, env, env', hpart, hm, henv => by
      simp only [marks, freeNames, List.forall_mem_append] at hm henv
      rw [prefixExpr, eval, eval,
        eval_prefixExpr hscopes hname target part env env' hpart hm.1.1 henv.1.1,
        eval_prefixExpr hscopes hname hi part env env' hpart hm.1.2 henv.1.2,
        eval_prefixExpr hscopes hname lo part env env' hpart hm.2 henv.2]
      rfl
  | .call callee args, part, env, env', hpart, hm, henv => by
      rw [marks] at hm
      rw [freeNames] at henv
      rw [prefixExpr, eval, eval]
      cases hc : calleeName callee with
      | some f =>
          obtain rfl := eq_ident_of_calleeName hc
          rw [hc] at hm henv
          simp only [List.forall_mem_cons] at hm
          rw [prefixExpr_ident_of_notMem _ _ _ (notMem_of_clear hpart hm.1)]
          simp only [calleeName]
          rw [evalArgs_prefixArgs hscopes hname args part env env' hpart hm.2 henv]
      | none =>
          rw [hc] at hm henv
          simp only [List.forall_mem_append] at hm henv
          rw [calleeName_prefixExpr _ _ _ hc]
          simp only
          rw [eval_prefixExpr hscopes hname callee part env env' hpart hm.1 henv.1,
            evalArgs_prefixArgs hscopes hname args part env env' hpart hm.2 henv.2]
          rfl
  | .forEachConstraint var iter body, part, env, env', hpart, hm, henv => by
      simp only [marks, List.forall_mem_cons, List.forall_mem_append] at hm
      simp only [freeNames, List.forall_mem_append] at henv
      have hvar : var ∉ loops := by simpa [Mark.clear] using hm.1
      have hne : name ≠ var := by
        rintro rfl
        exact hvar hname
      rw [prefixExpr, eval, eval,
        eval_prefixExpr hscopes hname iter part env env' hpart hm.2.1 henv.1,
        hscopes var hvar part hpart]
      change sem.forEachConstraint _ _ = sem.forEachConstraint _ _
      congr 1
      funext v
      refine evalList_prefixList hscopes hname body _ _ _
        (fun n hn => hpart (List.mem_of_mem_filter hn)) hm.2.2 ?_
      intro n hn
      apply Bound.bind hne
      intro hnvar
      exact henv.2 n (List.mem_filter.mpr ⟨hn, by simpa using hnvar⟩)
  | .cast expr ty, part, env, env', hpart, hm, henv => by
      rw [prefixExpr, eval, eval, eval_prefixExpr hscopes hname expr part env env' hpart
        (by simpa [marks] using hm) (by simpa [freeNames] using henv)]
      rfl
  | .unary op expr, part, env, env', hpart, hm, henv => by
      rw [prefixExpr, eval, eval, eval_prefixExpr hscopes hname expr part env env' hpart
        (by simpa [marks] using hm) (by simpa [freeNames] using henv)]
      rfl
  | .binary op lhs rhs, part, env, env', hpart, hm, henv => by
      simp only [marks, freeNames, List.forall_mem_append] at hm henv
      rw [prefixExpr, eval, eval,
        eval_prefixExpr hscopes hname lhs part env env' hpart hm.1 henv.1,
        eval_prefixExpr hscopes hname rhs part env env' hpart hm.2 henv.2]
      rfl
  | .ternary cond thenBranch elseBranch, part, env, env', hpart, hm, henv => by
      simp only [marks, freeNames, List.forall_mem_append] at hm henv
      rw [prefixExpr, eval, eval,
        eval_prefixExpr hscopes hname cond part env env' hpart hm.1.1 henv.1.1,
        eval_prefixExpr hscopes hname thenBranch part env env' hpart hm.1.2 henv.1.2,
        eval_prefixExpr hscopes hname elseBranch part env env' hpart hm.2 henv.2]
      rfl
  | .rangeLit lo hi, part, env, env', hpart, hm, henv => by
      simp only [marks, freeNames, List.forall_mem_append] at hm henv
      rw [prefixExpr, eval, eval,
        evalBound_prefixBound hscopes hname lo part env env' hpart hm.1 henv.1,
        evalBound_prefixBound hscopes hname hi part env env' hpart hm.2 henv.2]
      rfl
  | .setLit items, part, env, env', hpart, hm, henv => by
      rw [prefixExpr, eval, eval, evalList_prefixList hscopes hname items part env env' hpart
        (by simpa [marks] using hm) (by simpa [freeNames] using henv)]
      rfl
  | .paren e, part, env, env', hpart, hm, henv => by
      rw [prefixExpr, eval, eval, eval_prefixExpr hscopes hname e part env env' hpart
        (by simpa [marks] using hm) (by simpa [freeNames] using henv)]
  | .membership expr set, part, env, env', hpart, hm, henv => by
      simp only [marks, freeNames, List.forall_mem_append] at hm henv
      rw [prefixExpr, eval, eval,
        eval_prefixExpr hscopes hname expr part env env' hpart hm.1 henv.1,
        eval_prefixExpr hscopes hname set part env env' hpart hm.2 henv.2]
      rfl
  | .int _, _, _, _, _, _, _ | .bool _, _, _, _, _, _, _ | .string _, _, _, _, _, _, _
  | .number _, _, _, _, _, _, _ => by
      rw [prefixExpr, eval, eval]
      rfl
  | .implicitSelf, _, _, _, _, hm, _ | .other _, _, _, _, _, hm, _ => by
      simp [marks, Mark.clear] at hm

theorem evalList_prefixList (hscopes : Scopes innerFields loops fields) (hname : name ∈ loops) :
    ∀ (es : List Expr) (part : List String) (env env' : Env V), part ⊆ fields →
      (∀ m ∈ listMarks es, m.clear loops fields = true) →
      (∀ n ∈ listFreeNames es, Bound sem name part env env' n) →
      evalList (sem.at outer).toSemantics calls
          (prefixList innerFields (.ident name) es part) env =
        evalList (sem.at inner).toSemantics calls es env'
  | [], _, _, _, _, _, _ => rfl
  | e :: es, part, env, env', hpart, hm, henv => by
      simp only [listMarks, listFreeNames, List.forall_mem_append] at hm henv
      rw [prefixList, evalList, evalList,
        eval_prefixExpr hscopes hname e part env env' hpart hm.1 henv.1,
        evalList_prefixList hscopes hname es part env env' hpart hm.2 henv.2]

theorem evalBound_prefixBound (hscopes : Scopes innerFields loops fields)
    (hname : name ∈ loops) :
    ∀ (b : Option Expr) (part : List String) (env env' : Env V), part ⊆ fields →
      (∀ m ∈ boundMarks b, m.clear loops fields = true) →
      (∀ n ∈ boundFreeNames b, Bound sem name part env env' n) →
      evalBound (sem.at outer).toSemantics calls
          (prefixBound innerFields (.ident name) b part) env =
        evalBound (sem.at inner).toSemantics calls b env'
  | none, _, _, _, _, _, _ => rfl
  | some e, part, env, env', hpart, hm, henv => by
      rw [prefixBound, evalBound, evalBound,
        eval_prefixExpr hscopes hname e part env env' hpart hm henv]

theorem evalArgs_prefixArgs (hscopes : Scopes innerFields loops fields) (hname : name ∈ loops) :
    ∀ (args : List CallArg) (part : List String) (env env' : Env V), part ⊆ fields →
      (∀ m ∈ argsMarks args, m.clear loops fields = true) →
      (∀ n ∈ argsFreeNames args, Bound sem name part env env' n) →
      evalArgs (sem.at outer).toSemantics calls
          (prefixArgs innerFields (.ident name) args part) env =
        evalArgs (sem.at inner).toSemantics calls args env'
  | [], _, _, _, _, _, _ => rfl
  | .expr value :: args, part, env, env', hpart, hm, henv => by
      simp only [argsMarks, argsFreeNames, List.forall_mem_append] at hm henv
      rw [prefixArgs, evalArgs, evalArgs,
        eval_prefixExpr hscopes hname value part env env' hpart hm.1 henv.1,
        evalArgs_prefixArgs hscopes hname args part env env' hpart hm.2 henv.2]
  | .named _ value :: args, part, env, env', hpart, hm, henv => by
      simp only [argsMarks, argsFreeNames, List.forall_mem_append] at hm henv
      rw [prefixArgs, evalArgs, evalArgs,
        eval_prefixExpr hscopes hname value part env env' hpart hm.1 henv.1,
        evalArgs_prefixArgs hscopes hname args part env env' hpart hm.2 henv.2]

end

/-- The marks stay, and the names that are left are the name of the field and names that
are no fields. -/
structure Leaves (part : List String) (ms ms' : List Mark) (ns ns' : List String) : Prop where
  marks : ms' = ms
  names : ∀ n ∈ ns', n = name ∨ n ∈ ns ∧ n ∉ part

theorem Leaves.nil (part : List String) : Leaves name part [] [] [] [] := ⟨rfl, by simp⟩

theorem Leaves.append {name : String} {part : List String} {ms₁ ms₁' ms₂ ms₂' : List Mark}
    {ns₁ ns₁' ns₂ ns₂' : List String} (h₁ : Leaves name part ms₁ ms₁' ns₁ ns₁')
    (h₂ : Leaves name part ms₂ ms₂' ns₂ ns₂') :
    Leaves name part (ms₁ ++ ms₂) (ms₁' ++ ms₂') (ns₁ ++ ns₂) (ns₁' ++ ns₂') := by
  refine ⟨by rw [h₁.marks, h₂.marks], ?_⟩
  rw [List.forall_mem_append]
  constructor
  · intro n hn
    exact (h₁.names n hn).imp_right fun h => ⟨List.mem_append_left _ h.1, h.2⟩
  · intro n hn
    exact (h₂.names n hn).imp_right fun h => ⟨List.mem_append_right _ h.1, h.2⟩

theorem Leaves.loop {name : String} {part : List String} {ms ms' : List Mark}
    {ns ns' : List String} {var : String}
    (h : Leaves name (part.filter (· != var)) ms ms' ns ns') :
    Leaves name part ms ms' (ns.filter (· != var)) (ns'.filter (· != var)) := by
  refine ⟨h.marks, ?_⟩
  intro n hn
  obtain ⟨hmem, hvar⟩ := List.mem_filter.mp hn
  refine (h.names n hmem).imp_right ?_
  rintro ⟨hn', hpart⟩
  refine ⟨List.mem_filter.mpr ⟨hn', hvar⟩, ?_⟩
  intro hp
  exact hpart (List.mem_filter.mpr ⟨hp, hvar⟩)

mutual

theorem prefixExpr_leaves (hscopes : Scopes innerFields loops fields) (hname : name ∈ loops) :
    ∀ (e : Expr) (part : List String), part ⊆ fields →
      (∀ m ∈ marks e, m.clear loops fields = true) →
      Leaves name part (marks e) (marks (prefixExpr innerFields (.ident name) e part))
        (freeNames e) (freeNames (prefixExpr innerFields (.ident name) e part))
  | .ident n, part, _, _ => by
      rw [prefixExpr]
      split_ifs with hmem
      · refine ⟨by simp [marks], ?_⟩
        simp [freeNames]
      · refine ⟨rfl, ?_⟩
        rw [freeNames, List.forall_mem_singleton]
        exact Or.inr ⟨List.mem_singleton.mpr rfl, by simpa using hmem⟩
  | .field target _, part, hpart, hm => by
      simp only [prefixExpr, marks, freeNames]
      exact prefixExpr_leaves hscopes hname target part hpart (by simpa [marks] using hm)
  | .index target index, part, hpart, hm => by
      simp only [marks, List.forall_mem_append] at hm
      simp only [prefixExpr, marks, freeNames]
      exact (prefixExpr_leaves hscopes hname target part hpart hm.1).append
        (prefixExpr_leaves hscopes hname index part hpart hm.2)
  | .bitSlice target hi lo, part, hpart, hm => by
      simp only [marks, List.forall_mem_append] at hm
      simp only [prefixExpr, marks, freeNames]
      exact ((prefixExpr_leaves hscopes hname target part hpart hm.1.1).append
        (prefixExpr_leaves hscopes hname hi part hpart hm.1.2)).append
        (prefixExpr_leaves hscopes hname lo part hpart hm.2)
  | .call callee args, part, hpart, hm => by
      rw [marks] at hm
      rw [prefixExpr, marks, marks, freeNames, freeNames]
      cases hc : calleeName callee with
      | some f =>
          obtain rfl := eq_ident_of_calleeName hc
          rw [hc] at hm
          simp only [List.forall_mem_cons] at hm
          rw [prefixExpr_ident_of_notMem _ _ _ (notMem_of_clear hpart hm.1)]
          obtain ⟨hmarks, hnames⟩ := prefixArgs_leaves hscopes hname args part hpart hm.2
          simp only [calleeName]
          exact ⟨by rw [hmarks], hnames⟩
      | none =>
          rw [hc] at hm
          simp only [List.forall_mem_append] at hm
          rw [calleeName_prefixExpr _ _ _ hc]
          exact (prefixExpr_leaves hscopes hname callee part hpart hm.1).append
            (prefixArgs_leaves hscopes hname args part hpart hm.2)
  | .forEachConstraint var iter body, part, hpart, hm => by
      simp only [marks, List.forall_mem_cons, List.forall_mem_append] at hm
      have hvar : var ∉ loops := by simpa [Mark.clear] using hm.1
      have hiter := prefixExpr_leaves hscopes hname iter part hpart hm.2.1
      have hbody := prefixList_leaves hscopes hname body (part.filter (· != var))
        (fun n hn => hpart (List.mem_of_mem_filter hn)) hm.2.2
      obtain ⟨hmarks, hnames⟩ := hiter.append hbody.loop
      simp only [prefixExpr, marks, freeNames, hscopes var hvar part hpart]
      exact ⟨by rw [hmarks], hnames⟩
  | .cast expr _, part, hpart, hm => by
      simp only [prefixExpr, marks, freeNames]
      exact prefixExpr_leaves hscopes hname expr part hpart (by simpa [marks] using hm)
  | .unary _ expr, part, hpart, hm => by
      simp only [prefixExpr, marks, freeNames]
      exact prefixExpr_leaves hscopes hname expr part hpart (by simpa [marks] using hm)
  | .binary _ lhs rhs, part, hpart, hm => by
      simp only [marks, List.forall_mem_append] at hm
      simp only [prefixExpr, marks, freeNames]
      exact (prefixExpr_leaves hscopes hname lhs part hpart hm.1).append
        (prefixExpr_leaves hscopes hname rhs part hpart hm.2)
  | .ternary cond thenBranch elseBranch, part, hpart, hm => by
      simp only [marks, List.forall_mem_append] at hm
      simp only [prefixExpr, marks, freeNames]
      exact ((prefixExpr_leaves hscopes hname cond part hpart hm.1.1).append
        (prefixExpr_leaves hscopes hname thenBranch part hpart hm.1.2)).append
        (prefixExpr_leaves hscopes hname elseBranch part hpart hm.2)
  | .rangeLit lo hi, part, hpart, hm => by
      simp only [marks, List.forall_mem_append] at hm
      simp only [prefixExpr, marks, freeNames]
      exact (prefixBound_leaves hscopes hname lo part hpart hm.1).append
        (prefixBound_leaves hscopes hname hi part hpart hm.2)
  | .setLit items, part, hpart, hm => by
      simp only [prefixExpr, marks, freeNames]
      exact prefixList_leaves hscopes hname items part hpart (by simpa [marks] using hm)
  | .paren e, part, hpart, hm => by
      simp only [prefixExpr, marks, freeNames]
      exact prefixExpr_leaves hscopes hname e part hpart (by simpa [marks] using hm)
  | .membership expr set, part, hpart, hm => by
      simp only [marks, List.forall_mem_append] at hm
      simp only [prefixExpr, marks, freeNames]
      exact (prefixExpr_leaves hscopes hname expr part hpart hm.1).append
        (prefixExpr_leaves hscopes hname set part hpart hm.2)
  | .int _, part, _, _ | .bool _, part, _, _ | .string _, part, _, _ | .number _, part, _, _
  | .implicitSelf, part, _, _ | .other _, part, _, _ => by
      refine ⟨rfl, ?_⟩
      simp [prefixExpr, freeNames]

theorem prefixList_leaves (hscopes : Scopes innerFields loops fields) (hname : name ∈ loops) :
    ∀ (es : List Expr) (part : List String), part ⊆ fields →
      (∀ m ∈ listMarks es, m.clear loops fields = true) →
      Leaves name part (listMarks es) (listMarks (prefixList innerFields (.ident name) es part))
        (listFreeNames es) (listFreeNames (prefixList innerFields (.ident name) es part))
  | [], part, _, _ => Leaves.nil name part
  | e :: es, part, hpart, hm => by
      simp only [listMarks, List.forall_mem_append] at hm
      simp only [prefixList, listMarks, listFreeNames]
      exact (prefixExpr_leaves hscopes hname e part hpart hm.1).append
        (prefixList_leaves hscopes hname es part hpart hm.2)

theorem prefixBound_leaves (hscopes : Scopes innerFields loops fields) (hname : name ∈ loops) :
    ∀ (b : Option Expr) (part : List String), part ⊆ fields →
      (∀ m ∈ boundMarks b, m.clear loops fields = true) →
      Leaves name part (boundMarks b)
        (boundMarks (prefixBound innerFields (.ident name) b part))
        (boundFreeNames b) (boundFreeNames (prefixBound innerFields (.ident name) b part))
  | none, part, _, _ => Leaves.nil name part
  | some e, part, hpart, hm => prefixExpr_leaves hscopes hname e part hpart hm

theorem prefixArgs_leaves (hscopes : Scopes innerFields loops fields) (hname : name ∈ loops) :
    ∀ (args : List CallArg) (part : List String), part ⊆ fields →
      (∀ m ∈ argsMarks args, m.clear loops fields = true) →
      Leaves name part (argsMarks args)
        (argsMarks (prefixArgs innerFields (.ident name) args part))
        (argsFreeNames args) (argsFreeNames (prefixArgs innerFields (.ident name) args part))
  | [], part, _, _ => Leaves.nil name part
  | .expr value :: args, part, hpart, hm | .named _ value :: args, part, hpart, hm => by
      simp only [argsMarks, List.forall_mem_append] at hm
      simp only [prefixArgs, argsMarks, argsFreeNames]
      exact (prefixExpr_leaves hscopes hname value part hpart hm.1).append
        (prefixArgs_leaves hscopes hname args part hpart hm.2)

end

end Prefix

/-! ### Expressions of a nested record -/

/-- An expression of a nested record that stays right when it is prefixed: no loop is over
one of `loops`, and of the fields of the records around, `names`, it has only those of its
own record, `direct`. -/
def tidy (loops names direct : List String) (e : Expr) : Bool :=
  (marks e).all (Mark.clear loops names) &&
    (freeNames e).all fun n => direct.contains n || !names.contains n

structure Tidy (loops names direct : List String) (e : Expr) : Prop where
  marks : ∀ m ∈ marks e, m.clear loops names = true
  free : ∀ n ∈ freeNames e, n ∈ direct ∨ n ∉ names

theorem tidy_iff {loops names direct : List String} {e : Expr} :
    tidy loops names direct e = true ↔ Tidy loops names direct e := by
  rw [tidy, Bool.and_eq_true, List.all_eq_true, List.all_eq_true]
  constructor
  · rintro ⟨hmarks, hfree⟩
    exact ⟨hmarks, by simpa using hfree⟩
  · rintro ⟨hmarks, hfree⟩
    exact ⟨hmarks, by simpa using hfree⟩

theorem Mark.clear_mono {loops loops' names names' : List String} (hloops : loops' ⊆ loops)
    (hnames : names' ⊆ names) {m : Mark} (h : m.clear loops names = true) :
    m.clear loops' names' = true := by
  cases m with
  | loop var =>
      simp only [Mark.clear, Bool.not_eq_true', List.contains_eq_mem, decide_eq_false_iff_not] at *
      exact fun hmem => h (hloops hmem)
  | callee name =>
      simp only [Mark.clear, Bool.not_eq_true', List.contains_eq_mem, decide_eq_false_iff_not] at *
      exact fun hmem => h (hnames hmem)
  | untraversed => exact h

theorem Tidy.prefixed {innerFields : String → List String → List String}
    {loops loops' names names' direct direct' : List String} {name : String} {e : Expr}
    (h : Tidy loops names direct e) (hscopes : Scopes innerFields loops direct)
    (hname : name ∈ loops) (hdirect : direct ⊆ names) (hloops : loops' ⊆ loops)
    (hnames : names' ⊆ names) (hmem : name ∈ direct') :
    Tidy loops' names' direct' (prefixExpr innerFields (.ident name) e direct) := by
  obtain ⟨hmarks, hfree⟩ := prefixExpr_leaves name hscopes hname e direct (fun _ hn => hn)
    fun m hm => Mark.clear_mono (fun _ hn => hn) hdirect (h.marks m hm)
  constructor
  · rw [hmarks]
    exact fun m hm => Mark.clear_mono hloops hnames (h.marks m hm)
  · intro n hn
    rcases hfree n hn with rfl | ⟨hn, hnot⟩
    · exact Or.inl hmem
    · exact Or.inr fun hn' => ((h.free n hn).resolve_left hnot) (hnames hn')

theorem directFieldNames_subset (items : List TxnBodyItem) :
    directFieldNames items ⊆ fieldNames items := by
  induction items with
  | nil => simp [directFieldNames, directFields]
  | cons item items ih =>
      cases item with
      | field name record =>
          rw [directFieldNames, directFields, fieldNames, itemFieldNames, List.map_cons]
          exact List.cons_subset_cons _ ih
      | keep expr =>
          rw [fieldNames]
          exact fun _ hn => List.mem_append_right _ (ih hn)
      | when discriminant inner =>
          rw [fieldNames]
          exact fun _ hn => List.mem_append_right _ (ih hn)

/-- The prefixed expression means in the outer record what the expression means in the
inner one. -/
theorem Tidy.holds_iff {innerFields : String → List String → List String}
    {loops names : List String} {name : String} {items body : List TxnBodyItem} {e : Expr}
    (h : Tidy loops names (directFieldNames body) e)
    (hscopes : Scopes innerFields loops (directFieldNames body)) (hname : name ∈ loops)
    (hbody : fieldNames body ⊆ names) (hitems : fieldNames items ⊆ names)
    (hmem : name ∈ fieldNames items) {V : Type} (sem : RecordSemantics V)
    (calls : String → List V → V) (globals : Env V) (record : V) :
    holds sem calls globals items record
        (prefixExpr innerFields (.ident name) e (directFieldNames body)) ↔
      holds sem calls globals body (sem.field record name) e := by
  have hdirect := directFieldNames_subset body
  rw [holds, holds]
  rw [eval_prefixExpr sem calls (sem.field record name) record name hscopes hname e
    (directFieldNames body) _ (scope sem globals body (sem.field record name))
    (fun _ hn => hn)
    (fun m hm => Mark.clear_mono (fun _ hn => hn) (fun _ hn => hbody (hdirect hn))
      (h.marks m hm))]
  intro n hn
  rw [Bound, scope, scope, scope, if_pos hmem]
  rcases h.free n hn with hin | hout
  · rw [if_pos (hdirect hin), if_pos hin]
  · rw [if_neg fun hn' => hout (hbody hn'), if_neg fun hn' => hout (hbody (hdirect hn')),
      if_neg fun hn' => hout (hitems hn')]

/-! ### Items outside of subtypes -/

mutual

theorem itemGuardedKeeps_length : ∀ (item : TxnBodyItem) (guards : List Expr),
    ∀ k ∈ itemGuardedKeeps item guards, guards.length ≤ k.guards.length
  | .keep expr, guards => by simp [itemGuardedKeeps]
  | .when discriminant items, guards => by
      intro k hk
      rw [itemGuardedKeeps] at hk
      have h := guardedKeeps_length items _ k hk
      rw [List.length_append] at h
      omega
  | .field _ _, _ => by simp [itemGuardedKeeps]

theorem guardedKeeps_length : ∀ (items : List TxnBodyItem) (guards : List Expr),
    ∀ k ∈ guardedKeeps items guards, guards.length ≤ k.guards.length
  | [], _ => by simp [guardedKeeps]
  | item :: items, guards => by
      rw [guardedKeeps, List.forall_mem_append]
      exact ⟨itemGuardedKeeps_length item guards, guardedKeeps_length items guards⟩

end

mutual

theorem itemGuardedFields_length : ∀ (item : TxnBodyItem) (guards : List Expr),
    ∀ f ∈ itemGuardedFields item guards, guards.length ≤ f.guards.length
  | .field _ _, guards => by simp [itemGuardedFields]
  | .when discriminant items, guards => by
      intro f hf
      rw [itemGuardedFields] at hf
      have h := guardedFields_length items _ f hf
      rw [List.length_append] at h
      omega
  | .keep _, _ => by simp [itemGuardedFields]

theorem guardedFields_length : ∀ (items : List TxnBodyItem) (guards : List Expr),
    ∀ f ∈ guardedFields items guards, guards.length ≤ f.guards.length
  | [], _ => by simp [guardedFields]
  | item :: items, guards => by
      rw [guardedFields, List.forall_mem_append]
      exact ⟨itemGuardedFields_length item guards, guardedFields_length items guards⟩

end

theorem mem_directKeeps_iff (items : List TxnBodyItem) (guards : List Expr) (e : Expr) :
    e ∈ directKeeps items ↔ ⟨guards, e⟩ ∈ guardedKeeps items guards := by
  induction items with
  | nil => simp [directKeeps, guardedKeeps]
  | cons item items ih =>
      rw [guardedKeeps, List.mem_append, ← ih]
      cases item with
      | keep expr => simp [directKeeps, itemGuardedKeeps]
      | field name record => simp [directKeeps, itemGuardedKeeps]
      | when discriminant inner =>
          have hnot : ⟨guards, e⟩ ∉ itemGuardedKeeps (.when discriminant inner) guards := by
            intro hmem
            rw [itemGuardedKeeps] at hmem
            have h := guardedKeeps_length inner _ _ hmem
            rw [List.length_append, List.length_singleton] at h
            exact Nat.not_succ_le_self _ h
          rw [directKeeps]
          exact (or_iff_right hnot).symm

theorem mem_directFields_iff (items : List TxnBodyItem) (guards : List Expr) (name : String)
    (record : Option String) :
    (name, record) ∈ directFields items ↔ ⟨guards, name, record⟩ ∈ guardedFields items guards := by
  induction items with
  | nil => simp [directFields, guardedFields]
  | cons item items ih =>
      rw [guardedFields, List.mem_append, ← ih]
      cases item with
      | keep expr => simp [directFields, itemGuardedFields]
      | field n r => simp [directFields, itemGuardedFields]
      | when discriminant inner =>
          have hnot :
              ⟨guards, name, record⟩ ∉ itemGuardedFields (.when discriminant inner) guards := by
            intro hmem
            rw [itemGuardedFields] at hmem
            have h := guardedFields_length inner _ _ hmem
            rw [List.length_append, List.length_singleton] at h
            exact Nat.not_succ_le_self _ h
          rw [directFields]
          exact (or_iff_right hnot).symm

/-! ### Records without keeps -/

/-- Neither the record nor any record in it has a keep. -/
def keepless (recs : Records) : Nat → List TxnBodyItem → Bool
  | 0, _ => false
  | depth + 1, items =>
      (guardedKeeps items []).isEmpty && (guardedFields items []).all fun f =>
        ((recs.record f.record).map (keepless recs depth)).getD true

section Sound

variable {recs : Records}

theorem keepless_satisfied {V : Type} (sem : RecordSemantics V) (calls : String → List V → V)
    (globals : Env V) (depth : Nat) : ∀ (items : List TxnBodyItem) (record : V),
    keepless recs depth items = true → Satisfied sem calls globals recs items record := by
  induction depth with
  | zero => simp [keepless]
  | succ depth ih =>
      intro items record h
      rw [keepless, Bool.and_eq_true, List.isEmpty_iff, List.all_eq_true] at h
      rw [satisfied_iff, h.1]
      refine ⟨by simp, ?_⟩
      intro f hf body hbody _
      have hinner := h.2 f hf
      rw [hbody] at hinner
      exact ih body _ hinner

end Sound

/-- The record satisfies its own keeps. -/
def OwnSatisfied {V : Type} (sem : RecordSemantics V) (calls : String → List V → V)
    (globals : Env V) (items : List TxnBodyItem) (record : V) : Prop :=
  ∀ k ∈ guardedKeeps items [], (∀ g ∈ k.guards, holds sem calls globals items record g) →
    holds sem calls globals items record k.keep

/-! ### When collecting is right -/

/-- A way to collect keeps, with the condition on the keeps of a nested record itself and
the names that loops in it may not be over. -/
structure Rule extends Collector where
  ownOk : List String → List String → List TxnBodyItem → Bool
  barred : List TxnBodyItem → List String
  scopes : ∀ name loops body,
    Scopes innerFields (name :: (barred body ++ loops)) (directFieldNames body)
  own_tidy : ∀ loops names items, ownOk loops names items = true →
    ∀ e ∈ own items, Tidy loops names (directFieldNames items) e
  own_holds : ∀ loops names items, ownOk loops names items = true →
    ∀ {V : Type} (sem : RecordSemantics V) (calls : String → List V → V) (globals : Env V)
      (record : V), (∀ e ∈ own items, holds sem calls globals items record e) ↔
        OwnSatisfied sem calls globals items record

namespace Rule

variable (rule : Rule) (recs : Records)

/-- A type that is passed over is an enum or not declared. -/
def agrees : Option String → Bool
  | none => true
  | some name => (rule.skips name == recs.enums name) || (recs.bodies name).isNone

def fieldOk (nestedOk : List String → List String → List TxnBodyItem → Bool)
    (loops names : List String) (field : String × Option String) : Bool :=
  rule.agrees recs field.2 &&
    ((recs.record field.2).map fun body =>
      nestedOk (field.1 :: (rule.barred body ++ loops)) (names ++ fieldNames body) body).getD true

/-- A field in a subtype has no keeps in it. -/
def guardedFieldOk (depth : Nat)
    (nestedOk : List String → List String → List TxnBodyItem → Bool)
    (loops names : List String) (f : GuardedField) : Bool :=
  if f.guards.isEmpty then rule.fieldOk recs nestedOk loops names (f.name, f.record)
  else ((recs.record f.record).map (keepless recs depth)).getD true

/-- The keeps of a nested record are collected right.  No loop in it is over one of
`loops`, and `names` are the fields of the records around it and its own. -/
def nestedOk : Nat → List String → List String → List TxnBodyItem → Bool
  | 0, _, _, _ => false
  | depth + 1, loops, names, items =>
      rule.ownOk loops names items &&
        (guardedFields items []).all
          (rule.guardedFieldOk recs depth (nestedOk depth) loops names)

theorem bodyOf_eq {record : Option String} (h : rule.agrees recs record = true) :
    rule.bodyOf recs record = recs.record record := by
  cases record with
  | none => rfl
  | some name =>
      rw [agrees, Bool.or_eq_true, beq_iff_eq, Option.isNone_iff_eq_none] at h
      rw [Collector.bodyOf, Records.record]
      rcases h with h | h
      · rw [h]
      · rw [h, ite_self, ite_self]

end Rule

/-- What collecting the keeps of a nested record gives. -/
structure Collected (recs : Records) (loops names : List String) (items : List TxnBodyItem)
    (keeps : List Expr) : Prop where
  tidy : ∀ e ∈ keeps, Tidy loops names (directFieldNames items) e
  holds : ∀ {V : Type} (sem : RecordSemantics V) (calls : String → List V → V)
    (globals : Env V) (record : V),
    (∀ e ∈ keeps, holds sem calls globals items record e) ↔
      Satisfied sem calls globals recs items record

section Nested

variable {rule : Rule} {recs : Records} {depth : Nat}

-- `outer` is the record whose fields, or some of them, are looked at.
theorem nested_sound {loops names direct : List String} {outer : List TxnBodyItem}
    (hnames : fieldNames outer ⊆ names)
    (hnested : ∀ loops names items, fieldNames items ⊆ names →
      rule.nestedOk recs depth loops names items = true →
      ∃ keeps, rule.collect recs depth items = some keeps ∧
        Collected recs loops names items keeps)
    (fields : List (String × Option String)) (hdirect : ∀ f ∈ fields, f.1 ∈ direct)
    (houter : ∀ f ∈ fields, f.1 ∈ fieldNames outer)
    (hfields : ∀ f ∈ fields,
      rule.fieldOk recs (rule.nestedOk recs depth) loops names f = true) :
    ∃ keeps, rule.nested recs (rule.collect recs depth) fields = some keeps ∧
      (∀ e ∈ keeps, Tidy loops names direct e) ∧
      ∀ {V : Type} (sem : RecordSemantics V) (calls : String → List V → V) (globals : Env V)
        (record : V), (∀ e ∈ keeps, holds sem calls globals outer record e) ↔
          ∀ f ∈ fields, ∀ body, recs.record f.2 = some body →
            Satisfied sem calls globals recs body (sem.field record f.1) := by
  induction fields with
  | nil => exact ⟨[], rfl, by simp, by simp⟩
  | cons f fields ih =>
      rw [List.forall_mem_cons] at hdirect houter hfields
      obtain ⟨keeps, hkeeps, htidy, hholds⟩ := ih hdirect.2 houter.2 hfields.2
      have hf := hfields.1
      rw [Rule.fieldOk, Bool.and_eq_true] at hf
      rw [Collector.nested, rule.bodyOf_eq recs hf.1]
      cases hrecord : recs.record f.2 with
      | none =>
          refine ⟨keeps, hkeeps, htidy, ?_⟩
          intro V sem calls globals record
          rw [hholds sem calls globals record, List.forall_mem_cons, hrecord]
          simp
      | some body =>
          rw [hrecord] at hf
          have hbody : fieldNames body ⊆ names ++ fieldNames body :=
            fun _ hn => List.mem_append_right _ hn
          have hscopes := rule.scopes f.1 loops body
          have hhead : f.1 ∈ f.1 :: (rule.barred body ++ loops) := List.mem_cons_self
          obtain ⟨inner, hinner, hcollected⟩ := hnested _ _ body hbody hf.2
          refine ⟨rule.prefixed f.1 body inner ++ keeps, ?_, ?_, ?_⟩
          · simp only
            rw [hinner, hkeeps]
            rfl
          · rw [List.forall_mem_append]
            refine ⟨?_, htidy⟩
            rw [Collector.prefixed, List.forall_mem_map]
            intro e he
            exact (hcollected.tidy e he).prefixed hscopes hhead
              (fun _ hn => hbody (directFieldNames_subset body hn))
              (fun _ hn => List.mem_cons_of_mem _ (List.mem_append_right _ hn))
              (fun _ hn => List.mem_append_left _ hn) hdirect.1
          · intro V sem calls globals record
            rw [List.forall_mem_append, List.forall_mem_cons, hholds sem calls globals record]
            refine and_congr ?_ Iff.rfl
            rw [Collector.prefixed, List.forall_mem_map]
            have hiff : ∀ e ∈ inner, (holds sem calls globals outer record
                (prefixExpr rule.innerFields (.ident f.1) e (directFieldNames body)) ↔
                  holds sem calls globals body (sem.field record f.1) e) := by
              intro e he
              exact (hcollected.tidy e he).holds_iff hscopes hhead hbody
                (fun _ hn => List.mem_append_left _ (hnames hn)) houter.1 sem calls globals record
            rw [forall₂_congr hiff, hcollected.holds sem calls globals]
            constructor
            · intro h body' hbody'
              obtain rfl := Option.some.inj (hrecord.symm.trans hbody')
              exact h
            · intro h
              exact h body hrecord

theorem guardedFields_sound {loops names : List String} {items : List TxnBodyItem}
    (hnames : fieldNames items ⊆ names)
    (hnested : ∀ loops names items, fieldNames items ⊆ names →
      rule.nestedOk recs depth loops names items = true →
      ∃ keeps, rule.collect recs depth items = some keeps ∧
        Collected recs loops names items keeps)
    (hfields : ∀ f ∈ guardedFields items [],
      rule.guardedFieldOk recs depth (rule.nestedOk recs depth) loops names f = true) :
    ∃ keeps, rule.nested recs (rule.collect recs depth) (directFields items) = some keeps ∧
      (∀ e ∈ keeps, Tidy loops names (directFieldNames items) e) ∧
      ∀ {V : Type} (sem : RecordSemantics V) (calls : String → List V → V) (globals : Env V)
        (record : V), (∀ e ∈ keeps, holds sem calls globals items record e) ↔
          ∀ f ∈ guardedFields items [], ∀ body, recs.record f.record = some body →
            (∀ g ∈ f.guards, holds sem calls globals items record g) →
              Satisfied sem calls globals recs body (sem.field record f.name) := by
  have hdirect : ∀ f ∈ directFields items, f.1 ∈ directFieldNames items :=
    fun f hf => List.mem_map_of_mem hf
  obtain ⟨keeps, hkeeps, htidy, hholds⟩ := nested_sound hnames hnested (directFields items)
    hdirect (fun f hf => directFieldNames_subset items (hdirect f hf)) (by
      intro f hf
      have h := hfields _ ((mem_directFields_iff items [] f.1 f.2).mp hf)
      simpa [Rule.guardedFieldOk] using h)
  refine ⟨keeps, hkeeps, htidy, ?_⟩
  intro V sem calls globals record
  rw [hholds sem calls globals record]
  constructor
  · rintro h ⟨guards, name, record'⟩ hf body hbody _
    have hok := hfields _ hf
    rw [Rule.guardedFieldOk, hbody] at hok
    split_ifs at hok with hempty
    · obtain rfl : guards = [] := List.isEmpty_iff.mp hempty
      exact h (name, record') ((mem_directFields_iff items [] name record').mpr hf) body hbody
    · exact keepless_satisfied sem calls globals depth body _ hok
  · intro h f hf body hbody
    exact h _ ((mem_directFields_iff items [] f.1 f.2).mp hf) body hbody (by simp)

/-- The keeps of a nested record are collected right, by induction on the depth. -/
theorem collect_sound (rule : Rule) (recs : Records) (depth : Nat) :
    ∀ (loops names : List String) (items : List TxnBodyItem), fieldNames items ⊆ names →
      rule.nestedOk recs depth loops names items = true →
      ∃ keeps, rule.collect recs depth items = some keeps ∧
        Collected recs loops names items keeps := by
  induction depth with
  | zero => simp [Rule.nestedOk]
  | succ depth ih =>
      intro loops names items hnames h
      rw [Rule.nestedOk, Bool.and_eq_true, List.all_eq_true] at h
      obtain ⟨keeps, hkeeps, htidy, hholds⟩ := guardedFields_sound hnames ih h.2
      refine ⟨rule.own items ++ keeps, ?_, ?_, ?_⟩
      · rw [Collector.collect, hkeeps]
        rfl
      · rw [List.forall_mem_append]
        exact ⟨rule.own_tidy loops names items h.1, htidy⟩
      · intro V sem calls globals record
        rw [List.forall_mem_append, rule.own_holds loops names items h.1, hholds, satisfied_iff]
        rfl

end Nested

end Harc.RecordKeepsSound
