import Harc.RelationMeaning
import Harc.TypedLowering
import Harc.TypedMeaning

/-!
Keeps under `when` subtypes.  The code generator collects the keeps of a transaction and
moves the guards of the enclosing subtypes into them (`collect_txn_keeps` in
`source_transform.rs`); the typed lowering puts the guard around the lowered clause.  In
both a keep is to hold where all its guards do.
-/

namespace Harc.KeepCollection

open Harc.Ast
open Harc.RelationMeaning

/-! ### The collector -/

/-- An item in the body of a transaction.  A field has the name of the record type that it
is declared with, if its type has a name. -/
inductive TxnBodyItem where
  | field (name : String) (record : Option String)
  | keep (expr : Expr)
  | when (discriminant : Expr) (items : List TxnBodyItem)

mutual

/-- A keep under a guard.  The guard of a loop is that of each of its clauses. -/
def guardedKeepExpr (guard : Expr) : Expr → Expr
  | .forEachConstraint var iter body =>
      .forEachConstraint var iter (guardedKeepClauses guard body)
  | keep => .binary .orOr (.unary .not (.paren guard)) keep

def guardedKeepClauses (guard : Expr) : List Expr → List Expr
  | [] => []
  | clause :: clauses => guardedKeepExpr guard clause :: guardedKeepClauses guard clauses

end

def keepUnder : Option Expr → Expr → Expr
  | some guard, keep => guardedKeepExpr guard keep
  | none, keep => keep

def nextGuard : Option Expr → Expr → Expr
  | some guard, discriminant => andJoin [guard, discriminant]
  | none, discriminant => discriminant

mutual

def collectItemKeeps : TxnBodyItem → Option Expr → List Expr
  | .keep expr, guard => [keepUnder guard expr]
  | .when discriminant items, guard =>
      collectTxnKeepsWithGuard items (some (nextGuard guard discriminant))
  | .field _ _, _ => []

def collectTxnKeepsWithGuard : List TxnBodyItem → Option Expr → List Expr
  | [], _ => []
  | item :: items, guard => collectItemKeeps item guard ++ collectTxnKeepsWithGuard items guard

end

def collectTxnKeeps (items : List TxnBodyItem) : List Expr :=
  collectTxnKeepsWithGuard items none

/-! ### The keeps with their guards -/

/-- A keep and the discriminants of the subtypes around it, the outermost first. -/
structure GuardedKeep where
  guards : List Expr
  keep : Expr

mutual

def itemGuardedKeeps : TxnBodyItem → List Expr → List GuardedKeep
  | .keep expr, guards => [⟨guards, expr⟩]
  | .when discriminant items, guards => guardedKeeps items (guards ++ [discriminant])
  | .field _ _, _ => []

def guardedKeeps : List TxnBodyItem → List Expr → List GuardedKeep
  | [], _ => []
  | item :: items, guards => itemGuardedKeeps item guards ++ guardedKeeps items guards

end

/-- The guards as the collector passes them on. -/
def joinedGuard : List Expr → Option Expr
  | [] => none
  | g :: gs => some (andJoin (g :: gs))

theorem nextGuard_joinedGuard (guards : List Expr) (discriminant : Expr) :
    some (nextGuard (joinedGuard guards) discriminant) =
      joinedGuard (guards ++ [discriminant]) := by
  cases guards with
  | nil => rfl
  | cons g gs =>
      change some (Expr.binary .andAnd (gs.foldl (.binary .andAnd) g) discriminant) =
        some ((gs ++ [discriminant]).foldl (.binary .andAnd) g)
      rw [List.foldl_append, List.foldl_cons, List.foldl_nil]

mutual

theorem collectItemKeeps_eq : ∀ (item : TxnBodyItem) (guards : List Expr),
    collectItemKeeps item (joinedGuard guards) =
      (itemGuardedKeeps item guards).map fun k => keepUnder (joinedGuard k.guards) k.keep
  | .keep expr, guards => by
      rw [collectItemKeeps, itemGuardedKeeps, List.map_singleton]
  | .when discriminant items, guards => by
      rw [collectItemKeeps, itemGuardedKeeps, nextGuard_joinedGuard]
      exact collectTxnKeepsWithGuard_eq items (guards ++ [discriminant])
  | .field _ _, _ => by
      rw [collectItemKeeps, itemGuardedKeeps, List.map_nil]

/-- The collector makes one constraint of every keep and the conjunction of its guards. -/
theorem collectTxnKeepsWithGuard_eq : ∀ (items : List TxnBodyItem) (guards : List Expr),
    collectTxnKeepsWithGuard items (joinedGuard guards) =
      (guardedKeeps items guards).map fun k => keepUnder (joinedGuard k.guards) k.keep
  | [], _ => rfl
  | item :: items, guards => by
      rw [collectTxnKeepsWithGuard, guardedKeeps, List.map_append,
        collectItemKeeps_eq item guards, collectTxnKeepsWithGuard_eq items guards]

end

/-! ### What a collected keep means -/

/-- A semantics with implications and loops: a constraint over a list holds if its clauses
hold of every element. -/
structure GuardSemantics (V : Type) extends Semantics V where
  elements : V → List V
  implies : ∀ guard keep,
    binary .orOr (unary .not guard) keep = bool true ↔ (guard = bool true → keep = bool true)
  forEach : ∀ iter clauses, forEachConstraint iter clauses = bool true ↔
    ∀ v ∈ elements iter, ∀ y ∈ clauses v, y = bool true

mutual

/-- No clause of the keep is in a loop over one of the names.  The flag says if the keep is
in such a loop itself. -/
def guardKept (names : List String) : Bool → Expr → Bool
  | captured, .forEachConstraint var _ body =>
      clausesGuardKept names (captured || names.contains var) body
  | captured, _ => !captured

def clausesGuardKept (names : List String) : Bool → List Expr → Bool
  | _, [] => true
  | captured, clause :: clauses =>
      guardKept names captured clause && clausesGuardKept names captured clauses

end

mutual

def itemGuardsKept : TxnBodyItem → List String → Bool
  | .keep expr, names => guardKept names false expr
  | .when discriminant items, names => guardsKept items (names ++ freeNames discriminant)
  | .field _ _, _ => true

/-- No loop of a keep binds a name of a guard around the keep. -/
def guardsKept : List TxnBodyItem → List String → Bool
  | [], _ => true
  | item :: items, names => itemGuardsKept item names && guardsKept items names

end

section Collected

variable {V : Type} (sem : GuardSemantics V) (calls : String → List V → V)

/-- The keep holds if all its guards do, each in the scope of the transaction. -/
def GuardedKeep.Implied (k : GuardedKeep) (env : Env V) : Prop :=
  (∀ g ∈ k.guards, eval sem.toSemantics calls g env = sem.bool true) →
    eval sem.toSemantics calls k.keep env = sem.bool true

theorem eval_bind_of_notMem {e : Expr} {var : String} (h : var ∉ freeNames e) (env : Env V)
    (v : V) : eval sem.toSemantics calls e (env.bind var v) =
      eval sem.toSemantics calls e env := by
  apply eval_congr
  intro n hn
  rw [Env.bind, if_neg]
  rintro rfl
  exact h hn

theorem forall_evalList (es : List Expr) (env : Env V) (P : V → Prop) :
    (∀ y ∈ evalList sem.toSemantics calls es env, P y) ↔
      ∀ e ∈ es, P (eval sem.toSemantics calls e env) := by
  induction es with
  | nil => simp [evalList]
  | cons e es ih => rw [evalList, List.forall_mem_cons, List.forall_mem_cons, ih]

/-- A clause that is no loop. -/
theorem eval_guarded (guard keep : Expr) (env : Env V) :
    eval sem.toSemantics calls (.binary .orOr (.unary .not (.paren guard)) keep) env =
        sem.bool true ↔
      (eval sem.toSemantics calls guard env = sem.bool true →
        eval sem.toSemantics calls keep env = sem.bool true) := by
  rw [eval, eval, eval]
  exact sem.implies _ _

mutual

-- `base` is the scope of the transaction and `env` that of a clause in some loops.
theorem eval_guardedKeepExpr (guard : Expr) (base : Env V) : ∀ (keep : Expr) (captured : Bool)
    (env : Env V), guardKept (freeNames guard) captured keep = true →
      (captured = false → eval sem.toSemantics calls guard env =
        eval sem.toSemantics calls guard base) →
      (eval sem.toSemantics calls (guardedKeepExpr guard keep) env = sem.bool true ↔
        (eval sem.toSemantics calls guard base = sem.bool true →
          eval sem.toSemantics calls keep env = sem.bool true))
  | .forEachConstraint var iter body, captured, env, hkept, hguard => by
      rw [guardedKeepExpr, eval, eval, sem.forEach, sem.forEach]
      rw [guardKept] at hkept
      have hbody : ∀ v,
          (∀ y ∈ evalList sem.toSemantics calls (guardedKeepClauses guard body)
              (env.bind var v), y = sem.bool true) ↔
            (eval sem.toSemantics calls guard base = sem.bool true →
              ∀ y ∈ evalList sem.toSemantics calls body (env.bind var v), y = sem.bool true) := by
        intro v
        apply eval_guardedKeepClauses guard base body _ (env.bind var v) hkept
        intro hfree
        rw [Bool.or_eq_false_iff] at hfree
        rw [eval_bind_of_notMem sem calls (by simpa using hfree.2), hguard hfree.1]
      constructor
      · intro h hg v hv
        exact (hbody v).mp (h v hv) hg
      · intro h v hv
        exact (hbody v).mpr fun hg => h hg v hv
  | .int _, captured, env, hkept, hguard | .bool _, captured, env, hkept, hguard
  | .string _, captured, env, hkept, hguard | .number _, captured, env, hkept, hguard
  | .ident _, captured, env, hkept, hguard | .field _ _, captured, env, hkept, hguard
  | .implicitSelf, captured, env, hkept, hguard | .index _ _, captured, env, hkept, hguard
  | .bitSlice _ _ _, captured, env, hkept, hguard | .call _ _, captured, env, hkept, hguard
  | .cast _ _, captured, env, hkept, hguard | .unary _ _, captured, env, hkept, hguard
  | .binary _ _ _, captured, env, hkept, hguard | .ternary _ _ _, captured, env, hkept, hguard
  | .rangeLit _ _, captured, env, hkept, hguard | .setLit _, captured, env, hkept, hguard
  | .paren _, captured, env, hkept, hguard | .membership _ _, captured, env, hkept, hguard
  | .other _, captured, env, hkept, hguard => by
      have hfree : captured = false := by simpa [guardKept] using hkept
      rw [← hguard hfree]
      exact eval_guarded sem calls guard _ env

theorem eval_guardedKeepClauses (guard : Expr) (base : Env V) : ∀ (clauses : List Expr)
    (captured : Bool) (env : Env V), clausesGuardKept (freeNames guard) captured clauses = true →
      (captured = false → eval sem.toSemantics calls guard env =
        eval sem.toSemantics calls guard base) →
      ((∀ y ∈ evalList sem.toSemantics calls (guardedKeepClauses guard clauses) env,
          y = sem.bool true) ↔
        (eval sem.toSemantics calls guard base = sem.bool true →
          ∀ y ∈ evalList sem.toSemantics calls clauses env, y = sem.bool true))
  | [], _, _, _, _ => by
      simp [guardedKeepClauses, evalList]
  | clause :: clauses, captured, env, hkept, hguard => by
      rw [clausesGuardKept, Bool.and_eq_true] at hkept
      rw [guardedKeepClauses, evalList, evalList, List.forall_mem_cons, List.forall_mem_cons,
        eval_guardedKeepExpr guard base clause captured env hkept.1 hguard,
        eval_guardedKeepClauses guard base clauses captured env hkept.2 hguard]
      exact imp_and.symm

end

theorem eval_andJoin_eq_true (guards : List Expr) (env : Env V) :
    eval sem.toSemantics calls (andJoin guards) env = sem.bool true ↔
      ∀ g ∈ guards, eval sem.toSemantics calls g env = sem.bool true := by
  rw [eval_andJoin, conj_eq_true, forall_evalList]

/-- The names of the guards around a keep. -/
def GuardedKeep.names (k : GuardedKeep) : List String := listFreeNames k.guards

theorem freeNames_andJoin (g : Expr) (gs : List Expr) :
    freeNames (andJoin (g :: gs)) = listFreeNames (g :: gs) := by
  have hfold : ∀ (gs : List Expr) (acc : Expr),
      freeNames (gs.foldl (.binary .andAnd) acc) = freeNames acc ++ listFreeNames gs := by
    intro gs
    induction gs with
    | nil => simp [listFreeNames]
    | cons g gs ih =>
        intro acc
        rw [List.foldl_cons, ih, freeNames, listFreeNames, List.append_assoc]
  exact hfold gs g

theorem keepUnder_holds_iff (k : GuardedKeep) (env : Env V)
    (h : guardKept k.names false k.keep = true) :
    eval sem.toSemantics calls (keepUnder (joinedGuard k.guards) k.keep) env = sem.bool true ↔
      k.Implied sem calls env := by
  rcases k with ⟨guards, keep⟩
  cases guards with
  | nil => simp [joinedGuard, keepUnder, GuardedKeep.Implied]
  | cons g gs =>
      rw [GuardedKeep.names, ← freeNames_andJoin] at h
      rw [GuardedKeep.Implied, ← eval_andJoin_eq_true]
      exact eval_guardedKeepExpr sem calls (andJoin (g :: gs)) env keep false env h fun _ => rfl

theorem listFreeNames_append (es fs : List Expr) :
    listFreeNames (es ++ fs) = listFreeNames es ++ listFreeNames fs := by
  induction es with
  | nil => rfl
  | cons e es ih => rw [List.cons_append, listFreeNames, listFreeNames, ih, List.append_assoc]

mutual

theorem itemGuardedKeeps_kept : ∀ (item : TxnBodyItem) (guards : List Expr),
    itemGuardsKept item (listFreeNames guards) = true →
      ∀ k ∈ itemGuardedKeeps item guards, guardKept k.names false k.keep = true
  | .keep expr, guards, h => by
      rw [itemGuardedKeeps, List.forall_mem_singleton]
      exact h
  | .when discriminant items, guards, h => by
      rw [itemGuardedKeeps]
      apply guardedKeeps_kept items
      rw [listFreeNames_append, listFreeNames, listFreeNames, List.append_nil]
      exact h
  | .field _ _, _, _ => by
      simp [itemGuardedKeeps]

theorem guardedKeeps_kept : ∀ (items : List TxnBodyItem) (guards : List Expr),
    guardsKept items (listFreeNames guards) = true →
      ∀ k ∈ guardedKeeps items guards, guardKept k.names false k.keep = true
  | [], _, _ => by
      simp [guardedKeeps]
  | item :: items, guards, h => by
      rw [guardsKept, Bool.and_eq_true] at h
      rw [guardedKeeps, List.forall_mem_append]
      exact ⟨itemGuardedKeeps_kept item guards h.1, guardedKeeps_kept items guards h.2⟩

end

/-- The collected keeps hold exactly if every keep holds where its guards do. -/
theorem collectTxnKeeps_holds_iff (items : List TxnBodyItem)
    (h : guardsKept items [] = true) (env : Env V) :
    (∀ e ∈ collectTxnKeeps items, eval sem.toSemantics calls e env = sem.bool true) ↔
      ∀ k ∈ guardedKeeps items [], k.Implied sem calls env := by
  have hkept := guardedKeeps_kept items [] h
  change (∀ e ∈ collectTxnKeepsWithGuard items (joinedGuard []), _) ↔ _
  rw [collectTxnKeepsWithGuard_eq, List.forall_mem_map]
  apply forall₂_congr
  intro k hk
  exact keepUnder_holds_iff sem calls k env (hkept k hk)

end Collected

/-! ### The typed lowering -/

section Typed

open Harc.TypedConstraint
open Harc.TypedMeaning
open Harc.TypedLowering
open Harc.ConstraintSchema

/-- A clause and the guards around it, each lowered on its own. -/
structure GuardedClause where
  guards : List CTypedExpr
  clause : CTypedClause

def typedGuard : List CTypedExpr → Option CTypedExpr
  | [] => none
  | g :: gs => some (andJoinTyped (g :: gs))

/-- A clause with the guard around it. -/
def guardClause (guard : Option CTypedExpr) (c : CTypedClause) : CTypedClause :=
  ⟨applyGuard c.expr guard, c.assertionName⟩

def GuardedClause.lowered (c : GuardedClause) : CTypedClause :=
  guardClause (typedGuard c.guards) c.clause

section Parts

variable (ctx : LowerCtx) (fuel : Nat)

mutual

/-- The clauses of a subtype, lowered without the guards. -/
def whenClauses : WhenSubtype → List CTypedExpr → LowerState → List GuardedClause × LowerState
  | .mk discriminant fields keeps whenSubtypes, guards, st =>
      let disc := lowerTopClause ctx fuel discriminant st
      let inner := guards ++ [disc.1]
      let ks := lowerKeeps ctx fuel none keeps disc.2
      let fs := lowerAllFieldAttrs ctx fuel none fields ks.2
      let ws := allWhenClauses whenSubtypes inner fs.2
      ((ks.1 ++ fs.1).map (⟨inner, ·⟩) ++ ws.1, ws.2)

def allWhenClauses :
    List WhenSubtype → List CTypedExpr → LowerState → List GuardedClause × LowerState
  | [], _, st => ([], st)
  | w :: ws, guards, st =>
      if st.shouldStop then ([], st)
      else
        let f := whenClauses w guards st
        let fs := allWhenClauses ws guards f.2
        (f.1 ++ fs.1, fs.2)

end

/-- The hard constraints of a problem with the guards around them. -/
def problemClauses (body : List BodyItem) : List GuardedClause :=
  let keeps := lowerKeeps ctx fuel none ctx.target.keeps .init
  let b := lowerBody ctx fuel body ⟨keeps.1, [], none⟩ keeps.2
  let attrs := lowerAllFieldAttrs ctx fuel none ctx.target.fields b.2
  (b.1.clauses ++ attrs.1).map (⟨[], ·⟩) ++
    (allWhenClauses ctx fuel ctx.target.whenSubtypes [] attrs.2).1

theorem whenGuard_typedGuard (guards : List CTypedExpr) (disc : CTypedExpr) :
    some (whenGuard (typedGuard guards) disc) = typedGuard (guards ++ [disc]) := by
  cases guards with
  | nil => rfl
  | cons g gs =>
      rw [List.cons_append, typedGuard, typedGuard, andJoinTyped, andJoinTyped,
        List.foldl_append]
      rfl

theorem guardClause_none (c : CTypedClause) : guardClause none c = c := rfl

/-! A guard changes neither the lowering of the clauses nor the state it leaves. -/

theorem lowerExpanded_guard (guard : Option CTypedExpr) (es : List Expr) : ∀ st : LowerState,
    lowerExpanded ctx fuel guard es st =
      ((lowerExpanded ctx fuel none es st).1.map (guardClause guard),
        (lowerExpanded ctx fuel none es st).2) := by
  induction es with
  | nil => intro st; rfl
  | cons e es ih =>
      intro st
      rw [lowerExpanded, lowerExpanded]
      split_ifs
      · rfl
      · simp only
        rw [ih]
        rfl

theorem lowerConstraint_guard (guard : Option CTypedExpr) (e : Expr) (st : LowerState) :
    lowerConstraint ctx fuel guard e st =
      ((lowerConstraint ctx fuel none e st).1.map (guardClause guard),
        (lowerConstraint ctx fuel none e st).2) :=
  lowerExpanded_guard ctx fuel guard _ _

theorem lowerKeeps_guard (guard : Option CTypedExpr) (es : List Expr) : ∀ st : LowerState,
    lowerKeeps ctx fuel guard es st =
      ((lowerKeeps ctx fuel none es st).1.map (guardClause guard),
        (lowerKeeps ctx fuel none es st).2) := by
  induction es with
  | nil => intro st; rfl
  | cons e es ih =>
      intro st
      rw [lowerKeeps, lowerKeeps]
      split_ifs
      · rfl
      · simp only
        rw [lowerConstraint_guard, ih, List.map_append]

theorem lowerAttrs_guard (field : TxnField) (ty : CType) (guard : Option CTypedExpr)
    (attrs : List FieldAttr) : ∀ st : LowerState,
    lowerAttrs ctx fuel field ty guard attrs st =
      ((lowerAttrs ctx fuel field ty none attrs st).1.map (guardClause guard),
        (lowerAttrs ctx fuel field ty none attrs st).2) := by
  induction attrs with
  | nil => intro st; rfl
  | cons attr attrs ih =>
      intro st
      rw [lowerAttrs, lowerAttrs]
      split_ifs
      · exact ih st
      · split
        · simp only
          rw [ih]
          rfl
        · exact ih _

theorem lowerFieldAttrConstraints_guard (field : TxnField) (guard : Option CTypedExpr)
    (st : LowerState) :
    lowerFieldAttrConstraints ctx fuel field guard st =
      ((lowerFieldAttrConstraints ctx fuel field none st).1.map (guardClause guard),
        (lowerFieldAttrConstraints ctx fuel field none st).2) := by
  rw [lowerFieldAttrConstraints, lowerFieldAttrConstraints]
  cases ctx.env.lookup field.path with
  | none => rfl
  | some info =>
      simp only
      split_ifs
      · exact lowerAttrs_guard ctx fuel field info.ty guard field.attrs st
      · rfl

theorem lowerAllFieldAttrs_guard (guard : Option CTypedExpr) (fields : List TxnField) :
    ∀ st : LowerState, lowerAllFieldAttrs ctx fuel guard fields st =
      ((lowerAllFieldAttrs ctx fuel none fields st).1.map (guardClause guard),
        (lowerAllFieldAttrs ctx fuel none fields st).2) := by
  induction fields with
  | nil => intro st; rfl
  | cons field fields ih =>
      intro st
      rw [lowerAllFieldAttrs, lowerAllFieldAttrs]
      split_ifs
      · rfl
      · simp only
        rw [lowerFieldAttrConstraints_guard, ih, List.map_append]

mutual

theorem lowerWhenSubtype_eq : ∀ (w : WhenSubtype) (guards : List CTypedExpr) (st : LowerState),
    lowerWhenSubtype ctx fuel w (typedGuard guards) st =
      ((whenClauses ctx fuel w guards st).1.map GuardedClause.lowered,
        (whenClauses ctx fuel w guards st).2)
  | .mk discriminant fields keeps whenSubtypes, guards, st => by
      rw [lowerWhenSubtype, whenClauses]
      simp only
      rw [whenGuard_typedGuard, lowerKeeps_guard, lowerAllFieldAttrs_guard,
        lowerWhenSubtypes_eq whenSubtypes, List.map_append, List.map_map, List.map_append]
      rfl

/-- Every clause of a subtype has the conjunction of its guards around it. -/
theorem lowerWhenSubtypes_eq : ∀ (ws : List WhenSubtype) (guards : List CTypedExpr)
    (st : LowerState), lowerWhenSubtypes ctx fuel ws (typedGuard guards) st =
      ((allWhenClauses ctx fuel ws guards st).1.map GuardedClause.lowered,
        (allWhenClauses ctx fuel ws guards st).2)
  | [], _, _ => rfl
  | w :: ws, guards, st => by
      rw [lowerWhenSubtypes, allWhenClauses]
      split_ifs
      · rfl
      · simp only
        rw [lowerWhenSubtype_eq w, lowerWhenSubtypes_eq ws, List.map_append]

end

theorem lowerProblem_constraints {body : List BodyItem} {problem : CTypedProblem}
    (h : lowerProblem ctx fuel body = some (.ok problem)) :
    problem.constraints = (problemClauses ctx fuel body).map GuardedClause.lowered := by
  rw [lowerProblem] at h
  split_ifs at h with hexhausted herrors
  · obtain rfl := Except.ok.inj (Option.some.inj h)
    rw [problemClauses, List.map_append, List.map_map]
    change _ ++ (lowerWhenSubtypes ctx fuel ctx.target.whenSubtypes (typedGuard []) _).1 = _
    rw [lowerWhenSubtypes_eq]
    congr 1
    exact (List.map_id _).symm
  · cases h

end Parts

section Implication

variable (values : Assignment)

/-- The truth value of an expression in the scope of the transaction, with no loop around
it. -/
def truth (e : CTypedExpr) : Option Bool :=
  match meaning values e fun _ => none with
  | some (.bool b) => some b
  | _ => none

/-- The clause and its guards have truth values, and the clause holds if all its guards do. -/
structure GuardedClause.Implied (c : GuardedClause) : Prop where
  guardsTruth : ∀ g ∈ c.guards, truth values g ≠ none
  clauseTruth : truth values c.clause.expr ≠ none
  implied : (∀ g ∈ c.guards, truth values g = some true) →
    truth values c.clause.expr = some true

theorem holdsTrue_iff (e : CTypedExpr) :
    holdsTrue (meaning values e fun _ => none) = true ↔ truth values e = some true := by
  rw [truth]
  rcases meaning values e fun _ => none with _ | (_ | _) | _ | _
  all_goals simp [holdsTrue]

theorem truth_and (lhs rhs : CTypedExpr) (ty : CType) :
    truth values (.binary .logicalAnd lhs rhs ty) =
      (truth values lhs).bind fun a => (truth values rhs).map (a && ·) := by
  rw [truth, truth, truth, meaning]
  rcases meaning values lhs fun _ => none with _ | _ | _ | _
  all_goals rcases meaning values rhs fun _ => none with _ | _ | _ | _
  all_goals rfl

theorem truth_or (lhs rhs : CTypedExpr) (ty : CType) :
    truth values (.binary .logicalOr lhs rhs ty) =
      (truth values lhs).bind fun a => (truth values rhs).map (a || ·) := by
  rw [truth, truth, truth, meaning]
  rcases meaning values lhs fun _ => none with _ | _ | _ | _
  all_goals rcases meaning values rhs fun _ => none with _ | _ | _ | _
  all_goals rfl

theorem truth_not (e : CTypedExpr) (ty : CType) :
    truth values (.unary .logicalNot e ty) = (truth values e).map (!·) := by
  rw [truth, truth, meaning]
  rcases meaning values e fun _ => none with _ | _ | _ | _
  all_goals rfl

theorem truth_andJoinTyped (g : CTypedExpr) (gs : List CTypedExpr) :
    (truth values (andJoinTyped (g :: gs)) ≠ none ↔ ∀ e ∈ g :: gs, truth values e ≠ none) ∧
      (truth values (andJoinTyped (g :: gs)) = some true ↔
        ∀ e ∈ g :: gs, truth values e = some true) := by
  rw [andJoinTyped]
  induction gs generalizing g with
  | nil => simp
  | cons e es ih =>
      rw [List.foldl_cons]
      obtain ⟨hsome, htrue⟩ := ih (.binary .logicalAnd g e
        (if g.ty = .bool ∧ e.ty = .bool then .bool else .bottom))
      rw [hsome, htrue]
      simp only [List.forall_mem_cons, truth_and, ← and_assoc]
      constructor
      · refine and_congr_left fun _ => ?_
        cases truth values g <;> cases truth values e <;> simp
      · refine and_congr_left fun _ => ?_
        cases truth values g <;> cases truth values e <;> simp

theorem truth_applyGuard (e guard : CTypedExpr) :
    truth values (applyGuard e (some guard)) = some true ↔
      truth values guard ≠ none ∧ truth values e ≠ none ∧
        (truth values guard = some true → truth values e = some true) := by
  rw [applyGuard, truth_or, truth_not]
  rcases truth values guard with _ | (_ | _)
  all_goals rcases truth values e with _ | _
  all_goals simp

theorem GuardedClause.lowered_holds_iff (c : GuardedClause) :
    holdsTrue (meaning values c.lowered.expr fun _ => none) = true ↔ c.Implied values := by
  rcases c with ⟨guards, clause⟩
  rw [holdsTrue_iff]
  cases guards with
  | nil =>
      constructor
      · intro h
        refine ⟨by simp, ?_, fun _ => h⟩
        change truth values clause.expr ≠ none
        rw [show truth values clause.expr = some true from h]
        simp
      · intro h
        exact h.implied (by simp)
  | cons g gs =>
      obtain ⟨hsome, htrue⟩ := truth_andJoinTyped values g gs
      change truth values (applyGuard clause.expr (some (andJoinTyped (g :: gs)))) = some true ↔ _
      rw [truth_applyGuard, hsome, htrue]
      constructor
      · rintro ⟨hguards, hclause, himplied⟩
        exact ⟨hguards, hclause, himplied⟩
      · rintro ⟨hguards, hclause, himplied⟩
        exact ⟨hguards, hclause, himplied⟩

end Implication

/-- Keeps under subtypes are implications.  The collected keeps hold exactly if every keep
holds where all the guards around it do, as long as no loop of a keep binds a name of a
guard; so do the constraints of the lowered problem, without a condition. -/
theorem guardedKeeps_imply (items : List TxnBodyItem) (hkept : guardsKept items [] = true)
    (ctx : LowerCtx) (fuel : Nat) (body : List BodyItem) (problem : CTypedProblem)
    (hlower : lowerProblem ctx fuel body = some (.ok problem)) :
    (∀ (V : Type) (sem : GuardSemantics V) (calls : String → List V → V) (env : Env V),
      (∀ e ∈ collectTxnKeeps items, eval sem.toSemantics calls e env = sem.bool true) ↔
        ∀ k ∈ guardedKeeps items [], k.Implied sem calls env) ∧
    ∀ values : Assignment,
      (∀ c ∈ problem.constraints, holdsTrue (meaning values c.expr fun _ => none) = true) ↔
        ∀ c ∈ problemClauses ctx fuel body, c.Implied values := by
  constructor
  · intro V sem calls env
    exact collectTxnKeeps_holds_iff sem calls items hkept env
  · intro values
    rw [lowerProblem_constraints ctx fuel hlower, List.forall_mem_map]
    apply forall₂_congr
    intro c hc
    exact c.lowered_holds_iff values

end Typed

/-! #### A packet with a subtype -/

section Packet

open Harc.ConstraintExpr (UnaryOp BinaryOp)
open Harc.TypedConstraint
open Harc.TypedMeaning
open Harc.TypedLowering
open Harc.ConstraintSchema

def Val.elements : Val → List Val
  | .list xs => xs.map .int
  | _ => []

def Val.unary (op : UnaryOp) (a : Val) : Val :=
  match op with
  | .not => .bool (a != .bool true)
  | _ => valSemantics.unary op a

def Val.binary (op : BinaryOp) (a b : Val) : Val :=
  match op with
  | .orOr => .bool (a == .bool true || b == .bool true)
  | _ => valSemantics.binary op a b

def packetSemantics : GuardSemantics Val where
  toSemantics :=
    { valSemantics with
      unary := Val.unary
      binary := Val.binary
      forEachConstraint := fun iter clauses =>
        .bool ((Val.elements iter).all fun v => (clauses v).all (· == .bool true))
      and_assoc := valSemantics.and_assoc
      and_true := valSemantics.and_true
      true_and := valSemantics.true_and
      and_eq_true := valSemantics.and_eq_true }
  elements := Val.elements
  implies guard keep := by
    change Val.bool _ = Val.bool true ↔ (guard = .bool true → keep = .bool true)
    simp [imp_iff_not_or, Val.unary]
  forEach iter clauses := by
    change Val.bool _ = Val.bool true ↔ ∀ v ∈ Val.elements iter, ∀ y ∈ clauses v, y = .bool true
    simp

/-- `when i < size` with the keep `for var in xs  var < limit`. -/
def packetItems (var : String) : List TxnBodyItem :=
  [.field "i" none, .field "size" none, .field "limit" none, .field "xs" none,
    .when (.binary .lt (.ident "i") (.ident "size"))
      [.keep (.forEachConstraint var (.ident "xs")
        [.binary .lt (.ident var) (.ident "limit")])]]

theorem mode_ne_nil : (["mode"] : FieldPath) ≠ [] := by
  decide

theorem mode_plain : ∀ s ∈ (["mode"] : FieldPath), '.' ∉ s.toList := by
  decide

/-- `when mode == 1` with the keep `len < 4`. -/
def packetRecord : TxnSchema where
  name := "Packet"
  fields := [⟨["mode"], .uint (some 8), false, [], mode_ne_nil, mode_plain⟩,
    ⟨["len"], .uint (some 8), false, [], by decide, by decide⟩]
  keeps := []
  whenSubtypes := [.mk (.binary .eq (.ident "mode") (.int "1")) []
    [.binary .lt (.ident "len") (.int "4")] []]

def packetCtx : LowerCtx where
  schemas := ⟨[], [packetRecord], ⟨[], RelationExpansion.Relation.nil_nodup⟩,
    [], ConstraintSchema.IntegerConst.nil_nodup⟩
  target := packetRecord

theorem guardedKeeps_imply_packet :
    ∃ problem, lowerProblem packetCtx 0 [] = some (.ok problem) ∧
      (∀ (V : Type) (sem : GuardSemantics V) (calls : String → List V → V) (env : Env V),
        (∀ e ∈ collectTxnKeeps (packetItems "j"),
            eval sem.toSemantics calls e env = sem.bool true) ↔
          ∀ k ∈ guardedKeeps (packetItems "j") [], k.Implied sem calls env) ∧
      ∀ values : Assignment,
        (∀ c ∈ problem.constraints, holdsTrue (meaning values c.expr fun _ => none) = true) ↔
          ∀ c ∈ problemClauses packetCtx 0 [], c.Implied values :=
  ⟨_, rfl, guardedKeeps_imply (packetItems "j") (by decide) packetCtx 0 [] _ rfl⟩

def packetFields : Env Val := fun name =>
  if name = "xs" then .list [3]
  else if name = "size" then .int 4
  else if name = "limit" then .int 2
  else .int 9

/-- The guard does not hold, `i` being 9, but the loop over `i` captures it: as the element
3 is below the size, the collected keep asks that it is below the limit. -/
theorem guard_captured :
    ∃ (items : List TxnBodyItem) (env : Env Val) (calls : String → List Val → Val),
      ¬ ((∀ e ∈ collectTxnKeeps items,
          eval packetSemantics.toSemantics calls e env = packetSemantics.bool true) ↔
        ∀ k ∈ guardedKeeps items [], k.Implied packetSemantics calls env) := by
  refine ⟨packetItems "i", packetFields, fun _ _ => .bad, ?_⟩
  intro hiff
  have hcollected := hiff.mpr (by
    intro k hk hguards
    obtain rfl : k = ⟨[.binary .lt (.ident "i") (.ident "size")],
        .forEachConstraint "i" (.ident "xs") [.binary .lt (.ident "i") (.ident "limit")]⟩ := by
      simpa [guardedKeeps, itemGuardedKeeps, packetItems] using hk
    exact absurd (hguards _ (List.mem_singleton.mpr rfl)) (by decide))
  revert hcollected
  decide

end Packet

end Harc.KeepCollection
