import Harc.RelationExpansion
import Mathlib.Tactic.SplitIfs

/-!
What relation expansion means.  Under a semantics of expressions in which the call of a
relation stands for its body, with the parameters bound to the values of the arguments,
the expanded clauses hold exactly if the constraint does, as long as no loop variable
captures a name: the substitution renames nothing.
-/

namespace Harc.RelationMeaning

open Harc.Ast
open Harc.ConstraintExpr (UnaryOp BinaryOp)
open Harc.RelationExpansion

/-- The values of expressions.  Conjunction is that of the truth values. -/
structure Semantics (V : Type) where
  int : String → V
  bool : Bool → V
  string : String → V
  number : String → V
  implicitSelf : V
  other : String → V
  field : V → String → V
  index : V → V → V
  bitSlice : V → V → V → V
  apply : V → List V → V
  cast : V → String → V
  unary : UnaryOp → V → V
  binary : BinaryOp → V → V → V
  ternary : V → V → V → V
  rangeLit : Option V → Option V → V
  setLit : List V → V
  forEachConstraint : V → (V → List V) → V
  membership : V → V → V
  and_assoc : ∀ a b c,
    binary .andAnd (binary .andAnd a b) c = binary .andAnd a (binary .andAnd b c)
  and_true : ∀ a, binary .andAnd a (bool true) = a
  true_and : ∀ a, binary .andAnd (bool true) a = a
  and_eq_true : ∀ a b,
    binary .andAnd a b = bool true ↔ a = bool true ∧ b = bool true

/-- The values of the names that are in scope. -/
abbrev Env (V : Type) := String → V

def Env.bind {V : Type} (env : Env V) (name : String) (v : V) : Env V :=
  fun n => if n = name then v else env n

section Eval

variable {V : Type} (sem : Semantics V) (calls : String → List V → V)

mutual

/-- The value of an expression, where `calls` gives the meaning of the calls by name. -/
def eval : Expr → Env V → V
  | .int text, _ => sem.int text
  | .bool value, _ => sem.bool value
  | .string text, _ => sem.string text
  | .number text, _ => sem.number text
  | .ident name, env => env name
  | .field target name, env => sem.field (eval target env) name
  | .implicitSelf, _ => sem.implicitSelf
  | .index target index, env => sem.index (eval target env) (eval index env)
  | .bitSlice target hi lo, env =>
      sem.bitSlice (eval target env) (eval hi env) (eval lo env)
  | .call callee args, env =>
      match calleeName callee with
      | some name => calls name (evalArgs args env)
      | none => sem.apply (eval callee env) (evalArgs args env)
  | .cast expr ty, env => sem.cast (eval expr env) ty
  | .unary op expr, env => sem.unary op (eval expr env)
  | .binary op lhs rhs, env => sem.binary op (eval lhs env) (eval rhs env)
  | .ternary cond thenBranch elseBranch, env =>
      sem.ternary (eval cond env) (eval thenBranch env) (eval elseBranch env)
  | .rangeLit lo hi, env => sem.rangeLit (evalBound lo env) (evalBound hi env)
  | .setLit items, env => sem.setLit (evalList items env)
  | .paren inner, env => eval inner env
  | .forEachConstraint var iter body, env =>
      sem.forEachConstraint (eval iter env) fun v => evalList body (env.bind var v)
  | .membership expr set, env => sem.membership (eval expr env) (eval set env)
  | .other text, _ => sem.other text

def evalList : List Expr → Env V → List V
  | [], _ => []
  | e :: es, env => eval e env :: evalList es env

def evalBound : Option Expr → Env V → Option V
  | none, _ => none
  | some e, env => some (eval e env)

def evalArgs : List CallArg → Env V → List V
  | [], _ => []
  | .expr value :: args, env => eval value env :: evalArgs args env
  | .named _ value :: args, env => eval value env :: evalArgs args env

end

end Eval

/-! ### Names -/

mutual

/-- The names that the value of an expression depends on. -/
def freeNames : Expr → List String
  | .ident name => [name]
  | .field target _ => freeNames target
  | .index target index => freeNames target ++ freeNames index
  | .bitSlice target hi lo => freeNames target ++ freeNames hi ++ freeNames lo
  | .call callee args =>
      match calleeName callee with
      | some _ => argsFreeNames args
      | none => freeNames callee ++ argsFreeNames args
  | .cast expr _ => freeNames expr
  | .unary _ expr => freeNames expr
  | .binary _ lhs rhs => freeNames lhs ++ freeNames rhs
  | .ternary cond thenBranch elseBranch =>
      freeNames cond ++ freeNames thenBranch ++ freeNames elseBranch
  | .rangeLit lo hi => boundFreeNames lo ++ boundFreeNames hi
  | .setLit items => listFreeNames items
  | .paren inner => freeNames inner
  | .forEachConstraint var iter body =>
      freeNames iter ++ (listFreeNames body).filter (· != var)
  | .membership expr set => freeNames expr ++ freeNames set
  | _ => []

def listFreeNames : List Expr → List String
  | [] => []
  | e :: es => freeNames e ++ listFreeNames es

def boundFreeNames : Option Expr → List String
  | none => []
  | some e => freeNames e

def argsFreeNames : List CallArg → List String
  | [] => []
  | .expr value :: args => freeNames value ++ argsFreeNames args
  | .named _ value :: args => freeNames value ++ argsFreeNames args

end

/-- The callee keeps its name. -/
def calleeKept : Expr → Subst → Bool
  | .ident name, subst => (subst.get name).isNone
  | _, _ => true

/-- No name that is replaced under a loop over `var` has `var` in its replacement. -/
def loopCaptureFree (var : String) (names : List String) (subst : Subst) : Bool :=
  names.all fun n =>
    n == var || match subst.get n with
      | none => true
      | some e => !(freeNames e).contains var

mutual

/-- The substitution captures no name and replaces no function name. -/
def captureFree : Expr → Subst → Bool
  | .field target _, subst => captureFree target subst
  | .index target index, subst => captureFree target subst && captureFree index subst
  | .bitSlice target hi lo, subst =>
      captureFree target subst && captureFree hi subst && captureFree lo subst
  | .call callee args, subst =>
      calleeKept callee subst && captureFree callee subst && argsCaptureFree args subst
  | .cast expr _, subst => captureFree expr subst
  | .unary _ expr, subst => captureFree expr subst
  | .binary _ lhs rhs, subst => captureFree lhs subst && captureFree rhs subst
  | .ternary cond thenBranch elseBranch, subst =>
      captureFree cond subst && captureFree thenBranch subst && captureFree elseBranch subst
  | .rangeLit lo hi, subst => boundCaptureFree lo subst && boundCaptureFree hi subst
  | .setLit items, subst => listCaptureFree items subst
  | .paren inner, subst => captureFree inner subst
  | .forEachConstraint var iter body, subst =>
      captureFree iter subst && loopCaptureFree var (listFreeNames body) subst &&
        listCaptureFree body (subst.remove var)
  | .membership expr set, subst => captureFree expr subst && captureFree set subst
  | _, _ => true

def listCaptureFree : List Expr → Subst → Bool
  | [], _ => true
  | e :: es, subst => captureFree e subst && listCaptureFree es subst

def boundCaptureFree : Option Expr → Subst → Bool
  | none, _ => true
  | some e, subst => captureFree e subst

def argsCaptureFree : List CallArg → Subst → Bool
  | [], _ => true
  | .expr value :: args, subst => captureFree value subst && argsCaptureFree args subst
  | .named _ value :: args, subst => captureFree value subst && argsCaptureFree args subst

end

mutual

/-- Every call is the call of a name or of a method. -/
def plainCalls : Expr → Bool
  | .field target _ => plainCalls target
  | .index target index => plainCalls target && plainCalls index
  | .bitSlice target hi lo => plainCalls target && plainCalls hi && plainCalls lo
  | .call callee args => plainCallee callee && plainCalls callee && argsPlainCalls args
  | .cast expr _ => plainCalls expr
  | .unary _ expr => plainCalls expr
  | .binary _ lhs rhs => plainCalls lhs && plainCalls rhs
  | .ternary cond thenBranch elseBranch =>
      plainCalls cond && plainCalls thenBranch && plainCalls elseBranch
  | .rangeLit lo hi => boundPlainCalls lo && boundPlainCalls hi
  | .setLit items => listPlainCalls items
  | .paren inner => plainCalls inner
  | .forEachConstraint _ iter body => plainCalls iter && listPlainCalls body
  | .membership expr set => plainCalls expr && plainCalls set
  | _ => true

def listPlainCalls : List Expr → Bool
  | [] => true
  | e :: es => plainCalls e && listPlainCalls es

def boundPlainCalls : Option Expr → Bool
  | none => true
  | some e => plainCalls e

def argsPlainCalls : List CallArg → Bool
  | [] => true
  | .expr value :: args => plainCalls value && argsPlainCalls args
  | .named _ value :: args => plainCalls value && argsPlainCalls args

end

/-- While a constraint is unfolded, no loop variable captures a name of an argument, and
no loop variable around a call is a name of the relation's body that is no parameter. -/
def hygienic (rels : Relations) : Nat → List String → Expr → Bool
  | 0, _, e => plainCalls e
  | depth + 1, bound, e =>
      plainCalls e && (directCalls rels bound e).all fun c =>
        match rels.find c.name with
        | none => true
        | some rel =>
            let subst := buildRelationSubst rel.params c.args
            rel.body.all fun b =>
              captureFree b subst &&
                (freeNames b).all (fun n => rel.params.contains n || !c.bound.contains n) &&
                hygienic rels depth c.bound (substituteRelationIdents b subst)

/-! ### The value depends on the free names only -/

section Laws

variable {V : Type} (sem : Semantics V) (calls : String → List V → V)

mutual

theorem eval_congr : ∀ (e : Expr) (env env' : Env V),
    (∀ n ∈ freeNames e, env n = env' n) → eval sem calls e env = eval sem calls e env'
  | .ident name, env, env', h => h name (by simp [freeNames])
  | .field target name, env, env', h => by
      rw [eval, eval, eval_congr target env env' (by simpa [freeNames] using h)]
  | .index target index, env, env', h => by
      simp only [freeNames, List.forall_mem_append] at h
      rw [eval, eval, eval_congr target env env' h.1, eval_congr index env env' h.2]
  | .bitSlice target hi lo, env, env', h => by
      simp only [freeNames, List.forall_mem_append] at h
      rw [eval, eval, eval_congr target env env' h.1.1, eval_congr hi env env' h.1.2,
        eval_congr lo env env' h.2]
  | .call callee args, env, env', h => by
      rw [freeNames] at h
      rw [eval, eval]
      cases hc : calleeName callee with
      | some name =>
          rw [hc] at h
          rw [evalArgs_congr args env env' h]
      | none =>
          rw [hc, List.forall_mem_append] at h
          rw [eval_congr callee env env' h.1, evalArgs_congr args env env' h.2]
  | .cast expr ty, env, env', h => by
      rw [eval, eval, eval_congr expr env env' (by simpa [freeNames] using h)]
  | .unary op expr, env, env', h => by
      rw [eval, eval, eval_congr expr env env' (by simpa [freeNames] using h)]
  | .binary op lhs rhs, env, env', h => by
      simp only [freeNames, List.forall_mem_append] at h
      rw [eval, eval, eval_congr lhs env env' h.1, eval_congr rhs env env' h.2]
  | .ternary cond thenBranch elseBranch, env, env', h => by
      simp only [freeNames, List.forall_mem_append] at h
      rw [eval, eval, eval_congr cond env env' h.1.1, eval_congr thenBranch env env' h.1.2,
        eval_congr elseBranch env env' h.2]
  | .rangeLit lo hi, env, env', h => by
      simp only [freeNames, List.forall_mem_append] at h
      rw [eval, eval, evalBound_congr lo env env' h.1, evalBound_congr hi env env' h.2]
  | .setLit items, env, env', h => by
      rw [eval, eval, evalList_congr items env env' (by simpa [freeNames] using h)]
  | .paren inner, env, env', h => by
      rw [eval, eval, eval_congr inner env env' (by simpa [freeNames] using h)]
  | .forEachConstraint var iter body, env, env', h => by
      simp only [freeNames, List.forall_mem_append] at h
      rw [eval, eval, eval_congr iter env env' h.1]
      congr 1
      funext v
      apply evalList_congr body
      intro n hn
      unfold Env.bind
      by_cases hv : n = var
      · rw [if_pos hv, if_pos hv]
      · rw [if_neg hv, if_neg hv]
        exact h.2 n (List.mem_filter.mpr ⟨hn, by simpa using hv⟩)
  | .membership expr set, env, env', h => by
      simp only [freeNames, List.forall_mem_append] at h
      rw [eval, eval, eval_congr expr env env' h.1, eval_congr set env env' h.2]
  | .int _, _, _, _ | .bool _, _, _, _ | .string _, _, _, _ | .number _, _, _, _
  | .implicitSelf, _, _, _ | .other _, _, _, _ => by
      rw [eval, eval]

theorem evalList_congr : ∀ (es : List Expr) (env env' : Env V),
    (∀ n ∈ listFreeNames es, env n = env' n) →
      evalList sem calls es env = evalList sem calls es env'
  | [], _, _, _ => rfl
  | e :: es, env, env', h => by
      simp only [listFreeNames, List.forall_mem_append] at h
      rw [evalList, evalList, eval_congr e env env' h.1, evalList_congr es env env' h.2]

theorem evalBound_congr : ∀ (b : Option Expr) (env env' : Env V),
    (∀ n ∈ boundFreeNames b, env n = env' n) →
      evalBound sem calls b env = evalBound sem calls b env'
  | none, _, _, _ => rfl
  | some e, env, env', h => by
      rw [evalBound, evalBound, eval_congr e env env' h]

theorem evalArgs_congr : ∀ (args : List CallArg) (env env' : Env V),
    (∀ n ∈ argsFreeNames args, env n = env' n) →
      evalArgs sem calls args env = evalArgs sem calls args env'
  | [], _, _, _ => rfl
  | .expr value :: args, env, env', h => by
      simp only [argsFreeNames, List.forall_mem_append] at h
      rw [evalArgs, evalArgs, eval_congr value env env' h.1, evalArgs_congr args env env' h.2]
  | .named _ value :: args, env, env', h => by
      simp only [argsFreeNames, List.forall_mem_append] at h
      rw [evalArgs, evalArgs, eval_congr value env env' h.1, evalArgs_congr args env env' h.2]

end

/-! ### Substitution -/

/-- The names of an environment, with those that a substitution replaces. -/
def substEnv (subst : Subst) (env : Env V) : Env V := fun n =>
  match subst.get n with
  | some e => eval sem calls e env
  | none => env n

theorem calleeName_substitute (callee : Expr) (subst : Subst)
    (h : calleeKept callee subst = true) :
    calleeName (substituteRelationIdents callee subst) = calleeName callee := by
  cases callee with
  | ident name =>
      have hnone : subst.get name = none := by simpa [calleeKept] using h
      simp [substituteRelationIdents, hnone]
  | _ => rfl

/-- Under a loop the replacements are read outside of it: none of them mentions the loop
variable. -/
theorem substEnv_bind (var : String) (names : List String) (subst : Subst) (env : Env V) (v : V)
    (h : loopCaptureFree var names subst = true) :
    ∀ n ∈ names, substEnv sem calls (subst.remove var) (env.bind var v) n =
      Env.bind (substEnv sem calls subst env) var v n := by
  intro n hn
  simp only [loopCaptureFree, List.all_eq_true, Bool.or_eq_true, beq_iff_eq] at h
  by_cases hv : n = var
  · simp [substEnv, Subst.get_remove, Env.bind, hv]
  · have hout : Env.bind (substEnv sem calls subst env) var v n = substEnv sem calls subst env n :=
      if_neg hv
    rw [hout]
    simp only [substEnv, Subst.get_remove, if_neg hv]
    cases hget : subst.get n with
    | none => simp [Env.bind, hv]
    | some e =>
        have hfree : var ∉ freeNames e := by
          have := (h n hn).resolve_left hv
          simpa [hget] using this
        apply eval_congr
        intro m hm
        have hne : m ≠ var := fun heq => hfree (heq ▸ hm)
        simp [Env.bind, hne]

mutual

/-- Without capture, substituting is binding the values of the replacements. -/
theorem eval_substitute : ∀ (e : Expr) (subst : Subst) (env : Env V),
    captureFree e subst = true →
      eval sem calls (substituteRelationIdents e subst) env =
        eval sem calls e (substEnv sem calls subst env)
  | .ident name, subst, env, _ => by
      rw [substituteRelationIdents, eval, substEnv]
      cases subst.get name with
      | none => rfl
      | some e => rfl
  | .field target name, subst, env, h => by
      rw [captureFree] at h
      rw [substituteRelationIdents, eval, eval, eval_substitute target subst env h]
  | .index target index, subst, env, h => by
      simp only [captureFree, Bool.and_eq_true] at h
      rw [substituteRelationIdents, eval, eval, eval_substitute target subst env h.1,
        eval_substitute index subst env h.2]
  | .bitSlice target hi lo, subst, env, h => by
      simp only [captureFree, Bool.and_eq_true] at h
      rw [substituteRelationIdents, eval, eval, eval_substitute target subst env h.1.1,
        eval_substitute hi subst env h.1.2, eval_substitute lo subst env h.2]
  | .call callee args, subst, env, h => by
      simp only [captureFree, Bool.and_eq_true] at h
      rw [substituteRelationIdents, eval, eval, calleeName_substitute callee subst h.1.1,
        evalArgs_substitute args subst env h.2]
      cases calleeName callee with
      | some name => rfl
      | none => rw [eval_substitute callee subst env h.1.2]
  | .cast expr ty, subst, env, h => by
      rw [captureFree] at h
      rw [substituteRelationIdents, eval, eval, eval_substitute expr subst env h]
  | .unary op expr, subst, env, h => by
      rw [captureFree] at h
      rw [substituteRelationIdents, eval, eval, eval_substitute expr subst env h]
  | .binary op lhs rhs, subst, env, h => by
      simp only [captureFree, Bool.and_eq_true] at h
      rw [substituteRelationIdents, eval, eval, eval_substitute lhs subst env h.1,
        eval_substitute rhs subst env h.2]
  | .ternary cond thenBranch elseBranch, subst, env, h => by
      simp only [captureFree, Bool.and_eq_true] at h
      rw [substituteRelationIdents, eval, eval, eval_substitute cond subst env h.1.1,
        eval_substitute thenBranch subst env h.1.2, eval_substitute elseBranch subst env h.2]
  | .rangeLit lo hi, subst, env, h => by
      simp only [captureFree, Bool.and_eq_true] at h
      rw [substituteRelationIdents, eval, eval, evalBound_substitute lo subst env h.1,
        evalBound_substitute hi subst env h.2]
  | .setLit items, subst, env, h => by
      rw [captureFree] at h
      rw [substituteRelationIdents, eval, eval, evalList_substitute items subst env h]
  | .paren inner, subst, env, h => by
      rw [captureFree] at h
      rw [substituteRelationIdents, eval, eval, eval_substitute inner subst env h]
  | .forEachConstraint var iter body, subst, env, h => by
      simp only [captureFree, Bool.and_eq_true] at h
      rw [substituteRelationIdents, eval, eval, eval_substitute iter subst env h.1.1]
      congr 1
      funext v
      rw [evalList_substitute body (subst.remove var) (env.bind var v) h.2]
      exact evalList_congr sem calls body _ _
        (substEnv_bind sem calls var (listFreeNames body) subst env v h.1.2)
  | .membership expr set, subst, env, h => by
      simp only [captureFree, Bool.and_eq_true] at h
      rw [substituteRelationIdents, eval, eval, eval_substitute expr subst env h.1,
        eval_substitute set subst env h.2]
  | .int _, _, _, _ | .bool _, _, _, _ | .string _, _, _, _ | .number _, _, _, _
  | .implicitSelf, _, _, _ | .other _, _, _, _ => by
      rw [substituteRelationIdents, eval, eval]

theorem evalList_substitute : ∀ (es : List Expr) (subst : Subst) (env : Env V),
    listCaptureFree es subst = true →
      evalList sem calls (substituteList es subst) env =
        evalList sem calls es (substEnv sem calls subst env)
  | [], _, _, _ => rfl
  | e :: es, subst, env, h => by
      simp only [listCaptureFree, Bool.and_eq_true] at h
      rw [substituteList, evalList, evalList, eval_substitute e subst env h.1,
        evalList_substitute es subst env h.2]

theorem evalBound_substitute : ∀ (b : Option Expr) (subst : Subst) (env : Env V),
    boundCaptureFree b subst = true →
      evalBound sem calls (substituteBound b subst) env =
        evalBound sem calls b (substEnv sem calls subst env)
  | none, _, _, _ => rfl
  | some e, subst, env, h => by
      rw [boundCaptureFree] at h
      rw [substituteBound, evalBound, evalBound, eval_substitute e subst env h]

theorem evalArgs_substitute : ∀ (args : List CallArg) (subst : Subst) (env : Env V),
    argsCaptureFree args subst = true →
      evalArgs sem calls (substituteArgs args subst) env =
        evalArgs sem calls args (substEnv sem calls subst env)
  | [], _, _, _ => rfl
  | .expr value :: args, subst, env, h => by
      simp only [argsCaptureFree, Bool.and_eq_true] at h
      rw [substituteArgs, evalArgs, evalArgs, eval_substitute value subst env h.1,
        evalArgs_substitute args subst env h.2]
  | .named _ value :: args, subst, env, h => by
      simp only [argsCaptureFree, Bool.and_eq_true] at h
      rw [substituteArgs, evalArgs, evalArgs, eval_substitute value subst env h.1,
        evalArgs_substitute args subst env h.2]

end

/-- The environment of a body: the parameters have the values of the arguments, and of two
parameters of one name the later counts. -/
def bindParams (env : Env V) (params : List String) (vs : List V) : Env V :=
  (params.zip vs).foldl (fun env p => env.bind p.1 p.2) env

theorem evalArgs_length (args : List CallArg) (env : Env V) :
    (evalArgs sem calls args env).length = args.length := by
  induction args with
  | nil => rfl
  | cons a args ih => cases a <;> simp [evalArgs, ih]

theorem substEnv_params (params : List String) (args : List CallArg) (env base : Env V)
    (n : String) (h : n ∉ params → env n = base n) (hlen : params.length = args.length) :
    substEnv sem calls (buildRelationSubst params args) env n =
      bindParams base params (evalArgs sem calls args env) n := by
  -- the two folds bind the same names, one to expressions and one to their values
  have hgen : ∀ (params : List String) (args : List CallArg) (subst : Subst) (acc : Env V),
      params.length = args.length →
      (n ∉ params → substEnv sem calls subst env n = acc n) →
      substEnv sem calls ((params.zip args).foldl (fun s p => s.insert p.1 p.2.value) subst)
        env n = bindParams acc params (evalArgs sem calls args env) n := by
    intro params
    induction params with
    | nil =>
        intro args subst acc _ hacc
        exact hacc (by simp)
    | cons p params ih =>
        intro args subst acc hlen hacc
        cases args with
        | nil => simp at hlen
        | cons a args =>
            have hvalue : evalArgs sem calls (a :: args) env =
                eval sem calls a.value env :: evalArgs sem calls args env := by
              cases a <;> rfl
            rw [hvalue]
            refine ih args (subst.insert p a.value) (acc.bind p (eval sem calls a.value env))
              (by simpa using hlen) ?_
            intro hn
            unfold substEnv Env.bind
            rw [Subst.get_insert]
            by_cases hp : p = n
            · simp [hp]
            · have hmem : n ∉ p :: params := by simpa [hn] using Ne.symm hp
              rw [if_neg hp, if_neg (Ne.symm hp), ← hacc hmem]
              rfl
  refine hgen params args [] base hlen ?_
  intro hn
  exact h hn

/-! ### Conjunctions -/

def conj : List V → V
  | [] => sem.bool true
  | v :: vs => vs.foldl (sem.binary .andAnd) v

theorem conj_cons (v : V) (vs : List V) :
    conj sem (v :: vs) = sem.binary .andAnd v (conj sem vs) := by
  cases vs with
  | nil => exact (sem.and_true v).symm
  | cons w vs =>
      have hfold : ∀ (ws : List V) (a b : V),
          ws.foldl (sem.binary .andAnd) (sem.binary .andAnd a b) =
            sem.binary .andAnd a (ws.foldl (sem.binary .andAnd) b) := by
        intro ws
        induction ws with
        | nil => simp
        | cons c ws ih =>
            intro a b
            rw [List.foldl_cons, List.foldl_cons, sem.and_assoc, ih]
      exact hfold vs v w

theorem conj_append (vs ws : List V) :
    conj sem (vs ++ ws) = sem.binary .andAnd (conj sem vs) (conj sem ws) := by
  induction vs with
  | nil => exact (sem.true_and _).symm
  | cons v vs ih => rw [List.cons_append, conj_cons, ih, conj_cons, sem.and_assoc]

theorem conj_eq_true (vs : List V) :
    conj sem vs = sem.bool true ↔ ∀ v ∈ vs, v = sem.bool true := by
  induction vs with
  | nil => simp [conj]
  | cons v vs ih => rw [conj_cons, sem.and_eq_true, ih, List.forall_mem_cons]

theorem eval_andJoin (es : List Expr) (env : Env V) :
    eval sem calls (andJoin es) env = conj sem (evalList sem calls es env) := by
  cases es with
  | nil => rw [andJoin, eval]; rfl
  | cons e es =>
      have hfold : ∀ (es : List Expr) (acc : Expr),
          eval sem calls (es.foldl (.binary .andAnd) acc) env =
            (evalList sem calls es env).foldl (sem.binary .andAnd) (eval sem calls acc env) := by
        intro es
        induction es with
        | nil => intro acc; rfl
        | cons f es ih =>
            intro acc
            rw [List.foldl_cons, ih, eval, evalList, List.foldl_cons]
      exact hfold es e

theorem evalList_append (es fs : List Expr) (env : Env V) :
    evalList sem calls (es ++ fs) env =
      evalList sem calls es env ++ evalList sem calls fs env := by
  induction es with
  | nil => rfl
  | cons e es ih => rw [List.cons_append, evalList, evalList, ih, List.cons_append]

/-! ### The walk -/

section Walk

variable (rels : Relations) (expand : String → List CallArg → ExpandState → Expr × ExpandState)

/-- What ends without an error began without one. -/
theorem clean_steps : ExpandRelation fun st st' => st'.errors = [] → st.errors = [] where
  refl := fun _ => id
  trans := fun h h' hc => h (h' hc)
  recordError := fun st e hc => absurd hc (ExpandState.recordError_errors st e)
  charge := fun _ _ _ => id

/-- An environment that differs from another one on the given names only. -/
def AgreesOff (base : Env V) (bound : List String) (env : Env V) : Prop :=
  ∀ n, n ∉ bound → env n = base n

theorem AgreesOff.bind {base env : Env V} {bound : List String}
    (h : AgreesOff base bound env) (var : String) (v : V) :
    AgreesOff base (var :: bound) (env.bind var v) := by
  intro n hn
  rw [List.mem_cons, not_or] at hn
  unfold Env.bind
  rw [if_neg hn.1]
  exact h n hn.2

/-- The expansion of the calls that the walk meets keeps their meaning. -/
def CallsKept (base : Env V) (cs : List DirectCall) : Prop :=
  ∀ c ∈ cs, ∀ st env, AgreesOff base c.bound env → (expand c.name c.args st).2.errors = [] →
    eval sem calls (expand c.name c.args st).1 env = calls c.name (evalArgs sem calls c.args env)

variable {sem calls expand}

theorem CallsKept.left {base : Env V} {cs ds : List DirectCall}
    (h : CallsKept sem calls expand base (cs ++ ds)) : CallsKept sem calls expand base cs :=
  fun c hc => h c (List.mem_append_left _ hc)

theorem CallsKept.right {base : Env V} {cs ds : List DirectCall}
    (h : CallsKept sem calls expand base (cs ++ ds)) : CallsKept sem calls expand base ds :=
  fun c hc => h c (List.mem_append_right _ hc)

theorem calleeName_walk (callee : Expr) (st : ExpandState) (h : plainCallee callee = true) :
    calleeName (expandRelationSubtree rels expand callee st).1 = calleeName callee := by
  cases callee with
  | ident name => rw [expandRelationSubtree]
  | field target name => rw [expandRelationSubtree]; rfl
  | _ => simp [plainCallee] at h

mutual

/-- The walk keeps the value of an expression, if the expansion of each call does. -/
theorem walk_eval (hmono : ∀ name args st, (expand name args st).2.errors = [] → st.errors = [])
    (base : Env V) :
    ∀ (e : Expr) (bound : List String) (st : ExpandState) (env : Env V), plainCalls e = true →
      CallsKept sem calls expand base (directCalls rels bound e) → AgreesOff base bound env →
      (expandRelationSubtree rels expand e st).2.errors = [] →
      eval sem calls (expandRelationSubtree rels expand e st).1 env = eval sem calls e env
  | .call callee args, bound, st, env, hp, hk, ha, h => by
      simp only [plainCalls, Bool.and_eq_true] at hp
      rw [directCalls] at hk
      rw [expandRelationSubtree] at h ⊢
      cases hc : calledRelation rels callee with
      | some name =>
          rw [hc] at h hk
          rw [eval, (calledRelation_eq_some hc).1]
          exact hk ⟨bound, name, args⟩ List.mem_cons_self st env ha h
      | none =>
          rw [hc] at h hk
          have hcallee := walkArgs_steps clean_steps rels expand hmono args _ h
          change eval sem calls (.call _ _) env = _
          rw [eval, eval, calleeName_walk rels callee st hp.1.1,
            walkArgs_eval hmono base args bound _ env hp.2 hk.right ha h]
          cases calleeName callee with
          | some name => rfl
          | none => rw [walk_eval hmono base callee bound st env hp.1.2 hk.left ha hcallee]
  | .field target name, bound, st, env, hp, hk, ha, h => by
      rw [plainCalls] at hp
      rw [directCalls] at hk
      rw [expandRelationSubtree] at h ⊢
      rw [eval, eval, walk_eval hmono base target bound st env hp hk ha h]
  | .index target index, bound, st, env, hp, hk, ha, h => by
      simp only [plainCalls, Bool.and_eq_true] at hp
      rw [directCalls] at hk
      rw [expandRelationSubtree] at h ⊢
      have h1 := walk_steps clean_steps rels expand hmono index _ h
      rw [eval, eval, walk_eval hmono base target bound st env hp.1 hk.left ha h1,
        walk_eval hmono base index bound _ env hp.2 hk.right ha h]
  | .bitSlice target hi lo, bound, st, env, hp, hk, ha, h => by
      simp only [plainCalls, Bool.and_eq_true] at hp
      rw [directCalls] at hk
      rw [expandRelationSubtree] at h ⊢
      have h2 := walk_steps clean_steps rels expand hmono lo _ h
      have h1 := walk_steps clean_steps rels expand hmono hi _ h2
      rw [eval, eval, walk_eval hmono base target bound st env hp.1.1 hk.left ha h1,
        walk_eval hmono base hi bound _ env hp.1.2 hk.right.left ha h2,
        walk_eval hmono base lo bound _ env hp.2 hk.right.right ha h]
  | .forEachConstraint var iter body, bound, st, env, hp, hk, ha, h => by
      simp only [plainCalls, Bool.and_eq_true] at hp
      rw [directCalls] at hk
      rw [expandRelationSubtree] at h ⊢
      have h1 := walkList_steps clean_steps rels expand hmono body _ h
      rw [eval, eval, walk_eval hmono base iter bound st env hp.1 hk.left ha h1]
      congr 1
      funext v
      exact walkList_eval hmono base body (var :: bound) _ (env.bind var v) hp.2 hk.right
        (ha.bind var v) h
  | .cast expr ty, bound, st, env, hp, hk, ha, h => by
      rw [plainCalls] at hp
      rw [directCalls] at hk
      rw [expandRelationSubtree] at h ⊢
      rw [eval, eval, walk_eval hmono base expr bound st env hp hk ha h]
  | .unary op expr, bound, st, env, hp, hk, ha, h => by
      rw [plainCalls] at hp
      rw [directCalls] at hk
      rw [expandRelationSubtree] at h ⊢
      rw [eval, eval, walk_eval hmono base expr bound st env hp hk ha h]
  | .binary op lhs rhs, bound, st, env, hp, hk, ha, h => by
      simp only [plainCalls, Bool.and_eq_true] at hp
      rw [directCalls] at hk
      rw [expandRelationSubtree] at h ⊢
      have h1 := walk_steps clean_steps rels expand hmono rhs _ h
      rw [eval, eval, walk_eval hmono base lhs bound st env hp.1 hk.left ha h1,
        walk_eval hmono base rhs bound _ env hp.2 hk.right ha h]
  | .ternary cond thenBranch elseBranch, bound, st, env, hp, hk, ha, h => by
      simp only [plainCalls, Bool.and_eq_true] at hp
      rw [directCalls] at hk
      rw [expandRelationSubtree] at h ⊢
      have h2 := walk_steps clean_steps rels expand hmono elseBranch _ h
      have h1 := walk_steps clean_steps rels expand hmono thenBranch _ h2
      rw [eval, eval, walk_eval hmono base cond bound st env hp.1.1 hk.left ha h1,
        walk_eval hmono base thenBranch bound _ env hp.1.2 hk.right.left ha h2,
        walk_eval hmono base elseBranch bound _ env hp.2 hk.right.right ha h]
  | .paren inner, bound, st, env, hp, hk, ha, h => by
      rw [plainCalls] at hp
      rw [directCalls] at hk
      rw [expandRelationSubtree] at h ⊢
      rw [eval, eval, walk_eval hmono base inner bound st env hp hk ha h]
  | .membership expr set, bound, st, env, hp, hk, ha, h => by
      simp only [plainCalls, Bool.and_eq_true] at hp
      rw [directCalls] at hk
      rw [expandRelationSubtree] at h ⊢
      have h1 := walk_steps clean_steps rels expand hmono set _ h
      rw [eval, eval, walk_eval hmono base expr bound st env hp.1 hk.left ha h1,
        walk_eval hmono base set bound _ env hp.2 hk.right ha h]
  | .setLit items, bound, st, env, hp, hk, ha, h => by
      rw [plainCalls] at hp
      rw [directCalls] at hk
      rw [expandRelationSubtree] at h ⊢
      rw [eval, eval, walkList_eval hmono base items bound st env hp hk ha h]
  | .rangeLit lo hi, bound, st, env, hp, hk, ha, h => by
      simp only [plainCalls, Bool.and_eq_true] at hp
      rw [directCalls] at hk
      rw [expandRelationSubtree] at h ⊢
      have h1 := walkBound_steps clean_steps rels expand hmono hi _ h
      rw [eval, eval, walkBound_eval hmono base lo bound st env hp.1 hk.left ha h1,
        walkBound_eval hmono base hi bound _ env hp.2 hk.right ha h]
  | .int _, _, _, _, _, _, _, _ | .bool _, _, _, _, _, _, _, _ | .string _, _, _, _, _, _, _, _
  | .number _, _, _, _, _, _, _, _ | .ident _, _, _, _, _, _, _, _
  | .implicitSelf, _, _, _, _, _, _, _ | .other _, _, _, _, _, _, _, _ => by
      rw [expandRelationSubtree]

theorem walkList_eval
    (hmono : ∀ name args st, (expand name args st).2.errors = [] → st.errors = [])
    (base : Env V) :
    ∀ (es : List Expr) (bound : List String) (st : ExpandState) (env : Env V),
      listPlainCalls es = true →
      CallsKept sem calls expand base (listDirectCalls rels bound es) → AgreesOff base bound env →
      (expandList rels expand es st).2.errors = [] →
      evalList sem calls (expandList rels expand es st).1 env = evalList sem calls es env
  | [], _, _, _, _, _, _, _ => rfl
  | e :: es, bound, st, env, hp, hk, ha, h => by
      simp only [listPlainCalls, Bool.and_eq_true] at hp
      rw [listDirectCalls] at hk
      rw [expandList] at h ⊢
      have h1 := walkList_steps clean_steps rels expand hmono es _ h
      rw [evalList, evalList, walk_eval hmono base e bound st env hp.1 hk.left ha h1,
        walkList_eval hmono base es bound _ env hp.2 hk.right ha h]

theorem walkBound_eval
    (hmono : ∀ name args st, (expand name args st).2.errors = [] → st.errors = [])
    (base : Env V) :
    ∀ (b : Option Expr) (bound : List String) (st : ExpandState) (env : Env V),
      boundPlainCalls b = true →
      CallsKept sem calls expand base (boundDirectCalls rels bound b) → AgreesOff base bound env →
      (expandBound rels expand b st).2.errors = [] →
      evalBound sem calls (expandBound rels expand b st).1 env = evalBound sem calls b env
  | none, _, _, _, _, _, _, _ => rfl
  | some e, bound, st, env, hp, hk, ha, h => by
      rw [boundPlainCalls] at hp
      rw [boundDirectCalls] at hk
      rw [expandBound] at h ⊢
      rw [evalBound, evalBound, walk_eval hmono base e bound st env hp hk ha h]

theorem walkArgs_eval
    (hmono : ∀ name args st, (expand name args st).2.errors = [] → st.errors = [])
    (base : Env V) :
    ∀ (args : List CallArg) (bound : List String) (st : ExpandState) (env : Env V),
      argsPlainCalls args = true →
      CallsKept sem calls expand base (argsDirectCalls rels bound args) →
      AgreesOff base bound env → (expandArgs rels expand args st).2.errors = [] →
      evalArgs sem calls (expandArgs rels expand args st).1 env = evalArgs sem calls args env
  | [], _, _, _, _, _, _, _ => rfl
  | .expr value :: args, bound, st, env, hp, hk, ha, h => by
      simp only [argsPlainCalls, Bool.and_eq_true] at hp
      rw [argsDirectCalls] at hk
      rw [expandArgs] at h ⊢
      have h1 := walkArgs_steps clean_steps rels expand hmono args _ h
      rw [evalArgs, evalArgs, walk_eval hmono base value bound st env hp.1 hk.left ha h1,
        walkArgs_eval hmono base args bound _ env hp.2 hk.right ha h]
  | .named _ value :: args, bound, st, env, hp, hk, ha, h => by
      simp only [argsPlainCalls, Bool.and_eq_true] at hp
      rw [argsDirectCalls] at hk
      rw [expandArgs] at h ⊢
      have h1 := walkArgs_steps clean_steps rels expand hmono args _ h
      rw [evalArgs, evalArgs, walk_eval hmono base value bound st env hp.1 hk.left ha h1,
        walkArgs_eval hmono base args bound _ env hp.2 hk.right ha h]

end

end Walk

/-! ### Calls -/

section Calls

variable (rels : Relations)

section Clauses

variable (expand : String → List CallArg → ExpandState → List Expr × ExpandState)

theorem expandClause_eval
    (hmono : ∀ name args st, (expand name args st).2.errors = [] → st.errors = [])
    (hunknown : ∀ name args st, rels.find name = none → (expand name args st).2.errors ≠ [])
    (base : Env V) (e : Expr) (bound : List String) (st : ExpandState) (env : Env V)
    (hp : plainCalls e = true)
    (hk : CallsKept sem calls (expandRelationCallAsExpr expand) base (directCalls rels bound e))
    (ha : AgreesOff base bound env) (h : (expandClause rels expand e st).2.errors = []) :
    conj sem (evalList sem calls (expandClause rels expand e st).1 env) =
      eval sem calls e env := by
  unfold expandClause at h ⊢
  cases hc : calledName e with
  | some c =>
      obtain ⟨name, args⟩ := c
      simp only [hc] at h ⊢
      obtain rfl := calledName_eq_some hc
      cases hf : rels.find name with
      | none => exact absurd h (hunknown name args st hf)
      | some rel =>
          have hd : directCalls rels bound (.call (.ident name) args) = [⟨bound, name, args⟩] := by
            simp [directCalls, calledRelation, hf]
          rw [hd] at hk
          have := hk ⟨bound, name, args⟩ List.mem_cons_self st env ha h
          rw [expandRelationCallAsExpr, eval_andJoin] at this
          rw [this, eval]
          rfl
  | none =>
      simp only [hc] at h ⊢
      exact walk_eval rels (fun name args st hc => hmono name args st hc) base e bound st env hp
        hk ha h

theorem expandClauses_eval
    (hmono : ∀ name args st, (expand name args st).2.errors = [] → st.errors = [])
    (hunknown : ∀ name args st, rels.find name = none → (expand name args st).2.errors ≠ [])
    (base : Env V) (es : List Expr) (bound : List String) (st : ExpandState) (env : Env V)
    (hp : ∀ e ∈ es, plainCalls e = true)
    (hk : ∀ e ∈ es,
      CallsKept sem calls (expandRelationCallAsExpr expand) base (directCalls rels bound e))
    (ha : AgreesOff base bound env) (h : (expandClauses rels expand es st).2.errors = []) :
    conj sem (evalList sem calls (expandClauses rels expand es st).1 env) =
      conj sem (evalList sem calls es env) := by
  induction es generalizing st with
  | nil => rfl
  | cons e es ih =>
      rw [expandClauses] at h ⊢
      rw [List.forall_mem_cons] at hp hk
      have hrest := ih _ hp.2 hk.2 h
      have hhead := expandClause_eval sem calls rels expand hmono hunknown base e bound st env hp.1
        hk.1 ha (expandClauses_steps clean_steps rels expand hmono es _ h)
      change conj sem (evalList sem calls (_ ++ _) env) = _
      rw [evalList_append, conj_append, hhead, evalList, conj_cons]
      exact congrArg _ hrest

end Clauses

theorem expandCall_unknown (depth : Nat) (stack : List String) (name : String)
    (args : List CallArg) (st : ExpandState) (hf : rels.find name = none) :
    (expandTopLevelRelationCall rels depth stack name args st).2.errors ≠ [] := by
  have hcall : ∃ e, relationCall rels stack name args = .error e := by
    unfold relationCall
    rw [hf]
    exact ⟨_, rfl⟩
  obtain ⟨e, he⟩ := hcall
  cases depth <;> rw [expandTopLevelRelationCall, he] <;>
    exact ExpandState.recordError_errors st e

/-- Every call of a relation stands for the body of the relation, with the parameters bound
to the values of the arguments. -/
def Interprets (base : Env V) : Prop :=
  ∀ name rel, rels.find name = some rel → ∀ vs : List V, vs.length = rel.params.length →
    calls name vs = conj sem (evalList sem calls rel.body (bindParams base rel.params vs))

theorem listCaptureFree_of_forall (es : List Expr) (subst : Subst)
    (h : ∀ e ∈ es, captureFree e subst = true) : listCaptureFree es subst = true := by
  induction es with
  | nil => rfl
  | cons e es ih =>
      rw [List.forall_mem_cons] at h
      rw [listCaptureFree, h.1, ih h.2]
      rfl

theorem mem_listFreeNames {es : List Expr} {n : String} (h : n ∈ listFreeNames es) :
    ∃ e ∈ es, n ∈ freeNames e := by
  induction es with
  | nil => simp [listFreeNames] at h
  | cons e es ih =>
      rw [listFreeNames, List.mem_append] at h
      rcases h with h | h
      · exact ⟨e, List.mem_cons_self, h⟩
      · obtain ⟨f, hf, hn⟩ := ih h
        exact ⟨f, List.mem_cons_of_mem _ hf, hn⟩

/-- The substituted body of a call has the meaning of the call. -/
theorem unfold_eval (base env : Env V) (hi : Interprets sem calls rels base) (bound : List String)
    (ha : AgreesOff base bound env) (name : String) (rel : Relation) (args : List CallArg)
    (hf : rels.find name = some rel) (hlen : rel.params.length = args.length)
    (hcap : ∀ b ∈ rel.body, captureFree b (buildRelationSubst rel.params args) = true)
    (hfree : ∀ b ∈ rel.body, ∀ n ∈ freeNames b, n ∈ rel.params ∨ n ∉ bound) :
    conj sem (evalList sem calls (rel.unfold args) env) =
      calls name (evalArgs sem calls args env) := by
  have hvs : (evalArgs sem calls args env).length = rel.params.length := by
    rw [evalArgs_length, hlen]
  rw [hi name rel hf _ hvs, Relation.unfold,
    evalList_substitute sem calls rel.body _ env (listCaptureFree_of_forall _ _ hcap)]
  congr 1
  apply evalList_congr
  intro n hn
  obtain ⟨b, hb, hn⟩ := mem_listFreeNames hn
  apply substEnv_params sem calls rel.params args env base n _ hlen
  intro hparam
  exact ha n ((hfree b hb n hn).resolve_left hparam)

/-- What `hygienic` says of a call that the walk meets. -/
theorem hygienic_call {rels : Relations} {depth : Nat} {bound : List String} {e : Expr}
    (h : hygienic rels (depth + 1) bound e = true) (c : DirectCall)
    (hc : c ∈ directCalls rels bound e) (rel : Relation) (hf : rels.find c.name = some rel) :
    (∀ b ∈ rel.body, captureFree b (buildRelationSubst rel.params c.args) = true) ∧
      (∀ b ∈ rel.body, ∀ n ∈ freeNames b, n ∈ rel.params ∨ n ∉ c.bound) ∧
      ∀ b ∈ rel.body, hygienic rels depth c.bound
        (substituteRelationIdents b (buildRelationSubst rel.params c.args)) = true := by
  simp only [hygienic, Bool.and_eq_true, List.all_eq_true] at h
  have hcall := h.2 c hc
  simp only [hf, List.all_eq_true, Bool.and_eq_true, Bool.or_eq_true, List.contains_eq_mem,
    decide_eq_true_eq, Bool.not_eq_true', decide_eq_false_iff_not] at hcall
  exact ⟨fun b hb => (hcall b hb).1.1, fun b hb => (hcall b hb).1.2, fun b hb => (hcall b hb).2⟩

theorem hygienic_plain {rels : Relations} {depth : Nat} {bound : List String} {e : Expr}
    (h : hygienic rels depth bound e = true) : plainCalls e = true := by
  cases depth with
  | zero => exact h
  | succ depth =>
      rw [hygienic, Bool.and_eq_true] at h
      exact h.1

/-- The calls that a hygienic expression meets keep their meaning, by induction on how many
more relations may be nested. -/
theorem hygienic_kept (base : Env V) (hi : Interprets sem calls rels base) (depth : Nat) :
    ∀ (stack bound : List String) (e : Expr),
      depth + stack.length = relationExpansionMaxDepth → hygienic rels depth bound e = true →
      CallsKept sem calls (expandRelationCallAsExpr (expandTopLevelRelationCall rels depth stack))
        base (directCalls rels bound e) := by
  induction depth with
  | zero =>
      intro stack bound e hdepth _ c _ st env _ h
      -- as many relations are nested as may be: the call is refused
      simp only [expandRelationCallAsExpr, expandTopLevelRelationCall] at h
      split at h
      · exact absurd h (ExpandState.recordError_errors st _)
      · rename_i bodies hcall
        obtain ⟨rel, -, -, -, hlt, -⟩ := relationCall_ok hcall
        omega
  | succ depth ih =>
      intro stack bound e hdepth hyg c hc st env ha h
      simp only [expandRelationCallAsExpr, expandTopLevelRelationCall] at h ⊢
      split at h
      · exact absurd h (ExpandState.recordError_errors st _)
      · rename_i bodies hcall
        split at h
        · exact absurd h (ExpandState.recordError_errors st _)
        · rename_i hbudget
          obtain ⟨rel, hf, hlen, -, -, rfl⟩ := relationCall_ok hcall
          obtain ⟨hcap, hfree, hrec⟩ := hygienic_call hyg c hc rel hf
          have hbody : ∀ b ∈ rel.unfold c.args, hygienic rels depth c.bound b = true := by
            intro b hb
            obtain ⟨b', hb', rfl⟩ := substituteList_mem _ _ b hb
            exact hrec b' hb'
          simp only [if_neg hbudget]
          rw [eval_andJoin, expandClauses_eval sem calls rels _ (expandCall_steps clean_steps rels depth _)
            (expandCall_unknown rels depth _) base _ c.bound _ env
            (fun b hb => hygienic_plain (hbody b hb))
            (fun b hb => ih (c.name :: stack) c.bound b (by simp; omega) (hbody b hb)) ha h]
          exact unfold_eval sem calls rels base env hi c.bound ha c.name rel c.args hf hlen hcap
            hfree

end Calls

/-- The clauses that a constraint is expanded to hold exactly if the constraint does. -/
theorem expandTopLevelClause_meaning (rels : Relations) (base : Env V)
    (hi : Interprets sem calls rels base) (e : Expr)
    (hclean : (expandTopLevelClause rels e .init).2.errors = [])
    (hyg : hygienic rels relationExpansionMaxDepth [] e = true) :
    (∀ f ∈ (expandTopLevelClause rels e .init).1, eval sem calls f base = sem.bool true) ↔
      eval sem calls e base = sem.bool true := by
  have heval := expandClause_eval sem calls rels _ (expandCall_steps clean_steps rels _ [])
    (expandCall_unknown rels _ []) base e [] .init base (hygienic_plain hyg)
    (hygienic_kept sem calls rels base hi _ [] [] e rfl hyg) (fun _ _ => rfl) hclean
  change conj sem (evalList sem calls (expandTopLevelClause rels e .init).1 base) = _ at heval
  rw [← heval, conj_eq_true]
  generalize (expandTopLevelClause rels e .init).1 = out
  induction out with
  | nil => simp [evalList]
  | cons f out ih =>
      rw [List.forall_mem_cons, evalList, List.forall_mem_cons]
      exact and_congr Iff.rfl ih

end Laws

/-! ### A relation under a loop -/

/-- Truth values, integers and lists of integers. -/
inductive Val where
  | bool (value : Bool)
  | int (value : Int)
  | list (elems : List Int)
  | bad
deriving DecidableEq

def Val.and : Val → Val → Val
  | .bool true, v => v
  | v, .bool true => v
  | .bool false, .bool false => .bool false
  | _, _ => .bad

def Val.lt : Val → Val → Val
  | .int a, .int b => .bool (decide (a < b))
  | _, _ => .bad

def Val.all : Val → (Val → List Val) → Val
  | .list xs, body => .bool (xs.all fun x => (body (.int x)).all (· == .bool true))
  | _, _ => .bad

def valSemantics : Semantics Val where
  int text := .int (text.toNat?.getD 0)
  bool := .bool
  string _ := .bad
  number _ := .bad
  implicitSelf := .bad
  other _ := .bad
  field _ _ := .bad
  index _ _ := .bad
  bitSlice _ _ _ := .bad
  apply _ _ := .bad
  cast _ _ := .bad
  unary _ _ := .bad
  binary op a b :=
    match op with
    | .andAnd => a.and b
    | .lt => a.lt b
    | _ => .bad
  ternary _ _ _ := .bad
  rangeLit _ _ := .bad
  setLit _ := .bad
  forEachConstraint := Val.all
  membership _ _ := .bad
  and_assoc a b c := by
    cases a with
    | bool p => cases p <;> cases b with
      | bool q => cases q <;> cases c with
        | bool r => cases r <;> rfl
        | _ => rfl
      | _ => cases c with
        | bool r => cases r <;> rfl
        | _ => rfl
    | _ => cases b with
      | bool q => cases q <;> cases c with
        | bool r => cases r <;> rfl
        | _ => rfl
      | _ => cases c with
        | bool r => cases r <;> rfl
        | _ => rfl
  and_true a := by
    cases a with
    | bool p => cases p <;> rfl
    | _ => rfl
  true_and a := rfl
  and_eq_true a b := by
    cases a with
    | bool p => cases p <;> cases b with
      | bool q => cases q <;> decide
      | _ => simp [Val.and]
    | _ => cases b with
      | bool q => cases q <;> simp [Val.and]
      | _ => simp [Val.and]

/-- A value is below the field `limit`. -/
def limRelation : Relation where
  name := "Lim"
  params := ["v"]
  body := [.binary .lt (.ident "v") (.ident "limit")]

def limRelations : Relations := ⟨[limRelation], by decide⟩

/-- The call for every element of `items`. -/
def limLoop (var : String) : Expr :=
  .forEachConstraint var (.ident "items") [.call (.ident "Lim") [.expr (.ident var)]]

/-- The body of the relation has no calls. -/
def limCalls (base : Env Val) : String → List Val → Val := fun _ vs =>
  conj valSemantics (evalList valSemantics (fun _ _ => .bad) limRelation.body
    (bindParams base limRelation.params vs))

def packetValues : Env Val := fun name =>
  if name = "items" then .list [1, 2] else .int 5

theorem limCalls_interprets :
    Interprets valSemantics (limCalls packetValues) limRelations packetValues := by
  intro name rel hf vs _
  have hrel : rel = limRelation := by
    have hmem := List.mem_of_find?_eq_some hf
    simpa [limRelations] using hmem
  subst hrel
  rfl

theorem expandTopLevelClause_meaning_lim :
    (∀ f ∈ (expandTopLevelClause limRelations (limLoop "item") .init).1,
        eval valSemantics (limCalls packetValues) f packetValues = .bool true) ↔
      eval valSemantics (limCalls packetValues) (limLoop "item") packetValues =
        .bool true :=
  expandTopLevelClause_meaning valSemantics (limCalls packetValues) limRelations packetValues
    limCalls_interprets (limLoop "item") rfl (by decide)

/-- A loop variable named like the field captures it: `limit < limit` is left. -/
theorem expandTopLevelClause_captures :
    ∃ (rels : Relations) (e : Expr) (base : Env Val) (calls : String → List Val → Val),
      Interprets valSemantics calls rels base ∧
      (expandTopLevelClause rels e .init).2.errors = [] ∧
      ¬ ((∀ f ∈ (expandTopLevelClause rels e .init).1, eval valSemantics calls f base =
          .bool true) ↔ eval valSemantics calls e base = .bool true) := by
  refine ⟨limRelations, limLoop "limit", packetValues, limCalls packetValues,
    limCalls_interprets, rfl, ?_⟩
  decide

end Harc.RelationMeaning
