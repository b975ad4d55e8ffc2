import Harc.ControlFrame
import Harc.Fallible

/-!
The lowering of structured statements resolves the statement tree and lays out
its code, without failing an assertion of the builder, and restores the scopes.
-/

namespace Harc.ControlResolution

open Harc.Fallible
open Harc.TestbenchIr
open Harc.IrExpr
open Harc.FunctionBuilder
open Harc.StructuredControl
open Harc.ControlLowering
open Harc.ControlLayout
open Harc.ControlFrame

section Operations

variable {Stmt Expr LeafError : Type} {code : CodeTable Stmt Expr}

theorem newBlock_eq (code : CodeTable Stmt Expr) :
    code.newBlock = (code.blocks.length, reserved 1 code) := rfl

theorem reserved_reserved (k m : Nat) (code : CodeTable Stmt Expr) :
    reserved k (reserved m code) = reserved (m + k) code := by
  simp [reserved, List.append_assoc]

theorem push_eq (hopen : IsOpen code) (s : Stmt) :
    code.push s = (.ok (pushed code s) : Lower LeafError _) :=
  if_pos hopen

theorem terminate_eq (hopen : IsOpen code) (t : Terminator Expr) :
    code.terminate t = (.ok (terminated code t) : Lower LeafError _) :=
  if_pos hopen

theorem terminate_reserved_eq (hopen : IsOpen code) (k : Nat) (t : Terminator Expr) :
    (reserved k code).terminate t = (.ok (forked k t code) : Lower LeafError _) :=
  if_pos (hopen.reserved k)

theorem startBlock_eq {j : Nat} (hfresh : Fresh code j) :
    code.startBlock j = (.ok (started code j) : Lower LeafError _) :=
  if_pos hfresh.isOpen

theorem ensureOpenBlock_eq (code : CodeTable Stmt Expr) :
    code.ensureOpenBlock = (.ok (ensured code) : Lower LeafError _) := by
  unfold CodeTable.ensureOpenBlock ensured
  split
  · have hfresh : Fresh (reserved 1 code) code.blocks.length :=
      Fresh.reserved (Nat.le_refl _) (Nat.lt_succ_self _)
    exact startBlock_eq hfresh
  · rfl

theorem jumpUnlessTerminated_eq (hcurrent : code.current < code.blocks.length)
    (target : Nat) :
    jumpUnlessTerminated code target = (.ok (jumped target code) : Lower LeafError _) := by
  unfold jumpUnlessTerminated jumped
  split
  · rfl
  · rename_i hterm
    have hopen : IsOpen code := by
      by_contra h
      exact hterm ((isTerminated_iff hcurrent).mpr h)
    exact terminate_eq hopen _

theorem emitAction_eq (hopen : IsOpen code) (a : Action Stmt Expr) :
    emitAction code a = (.ok (layoutAction code a) : Lower LeafError _) := by
  cases a with
  | effect s => exact push_eq hopen s
  | suspend s =>
      have hfresh : Fresh (forked 1 (s.terminator code.blocks.length) code)
          code.blocks.length :=
        Fresh.forked (Nat.le_refl _) (Nat.lt_succ_self _) hopen.current_lt _
      simp only [emitAction, newBlock_eq, terminate_reserved_eq hopen, startBlock_eq hfresh,
        layoutAction, bind, Except.bind]

theorem emitActions_eq (hopen : IsOpen code) (actions : List (Action Stmt Expr)) :
    emitActions code actions = (.ok (layoutActions actions code) : Lower LeafError _) := by
  induction actions generalizing code with
  | nil => rfl
  | cons a actions ih =>
      simp only [emitActions, emitAction_eq hopen, bind, Except.bind,
        ih (layoutAction_frame a hopen).1]
      rfl

theorem lowerLatch_eq (hopen : IsOpen code) (latch : Latch Stmt Expr) (header exit : Nat) :
    lowerLatch latch header exit code =
      (.ok (layoutLatch latch header exit code) : Lower LeafError _) := by
  obtain ⟨terminal, failure, step⟩ := latch
  rcases terminal with _ | terminal
  · simp only [lowerLatch, push_eq hopen, terminate_eq (hopen.pushed step), bind, Except.bind]
    rfl
  · rcases failure with _ | ⟨failureCond, stmts⟩
    · have hstep := latchStep_fresh terminal exit hopen
      simp only [lowerLatch, newBlock_eq, terminate_reserved_eq hopen, startBlock_eq hstep,
        push_eq hstep.isOpen, terminate_eq (hstep.isOpen.pushed step), bind, Except.bind]
      rfl
    · have hcheck : Fresh (forked 3 (.branch terminal exit (code.blocks.length + 1)) code)
          (code.blocks.length + 1) :=
        Fresh.forked (Nat.le_succ _) (by omega) hopen.current_lt _
      have hopenC := latchCheck_isOpen terminal exit hopen
      have hfailure : Fresh (terminated (latchCheck terminal exit code)
          (.branch failureCond (code.blocks.length + 2) code.blocks.length))
          (code.blocks.length + 2) :=
        latchFailure_fresh terminal failureCond exit hopen (by omega) (by omega) (by omega)
      have hopenF := latchFailure_isOpen terminal failureCond exit hopen
      have hopenE := layoutActions_isOpen (stmts.map .effect) hopenF
      have hstep := latchFailed_fresh terminal failureCond stmts exit hopen
      simp only [lowerLatch, newBlock_eq, reserved_reserved, length_reserved,
        terminate_reserved_eq hopen, startBlock_eq hcheck, bind, Except.bind]
      rw [show started (forked (1 + 1 + 1) (.branch terminal exit (code.blocks.length + 1)) code)
        (code.blocks.length + 1) = latchCheck terminal exit code from rfl]
      simp only [terminate_eq hopenC, startBlock_eq hfailure]
      rw [show started (terminated (latchCheck terminal exit code)
        (.branch failureCond (code.blocks.length + 2) code.blocks.length))
        (code.blocks.length + 2) = latchFailure terminal failureCond exit code from rfl]
      simp only [emitActions_eq hopenF, terminate_eq hopenE]
      rw [show layoutActions (stmts.map .effect) (latchFailure terminal failureCond exit code) =
        latchFailed terminal failureCond stmts exit code from rfl]
      simp only [startBlock_eq hstep, push_eq hstep.isOpen,
        terminate_eq (hstep.isOpen.pushed step)]
      rfl

end Operations

section Lowering

variable {Ast Atom Leaf Op LeafError : Type}

/-- The scope stack keeps its depth, and every scope but the innermost its names. -/
def ScopesKept (names names' : NameTable) : Prop :=
  names'.scopes.length = names.scopes.length ∧ names'.scopes.tail = names.scopes.tail

theorem ScopesKept.of_eq {names names' : NameTable} (h : names'.scopes = names.scopes) :
    ScopesKept names names' := by
  rw [ScopesKept, h]
  exact ⟨rfl, rfl⟩

theorem ScopesKept.trans {names names' names'' : NameTable} (h : ScopesKept names names')
    (h' : ScopesKept names' names'') : ScopesKept names names'' :=
  ⟨h'.1.trans h.1, h'.2.trans h.2⟩

theorem ScopesKept.popScope {names names' : NameTable}
    (h : ScopesKept names.pushScope names') : names'.popScope.scopes = names.scopes :=
  h.2

theorem ScopesKept.modifyScope (names : NameTable) (change : Scope → Scope) :
    ScopesKept names (names.modifyScope change) := by
  unfold NameTable.modifyScope
  split
  · exact .of_eq rfl
  · rename_i h
    exact ⟨by simp [h], by simp [h]⟩

theorem resolveCond_scopes {L : LeafLowering Ast Atom Leaf Op LeafError} {names : NameTable}
    {ast : Ast} {what : String} {r : LoweredExpr Leaf Op}
    (h : resolveCond L names ast what = .ok r) : r.names.scopes = names.scopes := by
  unfold resolveCond at h
  cases hcond : L.lowerExprNoPorts names ast with
  | error e => simp [hcond] at h
  | ok cond =>
      simp only [hcond] at h
      split at h
      · cases h
      · cases h
        exact L.lowerExprNoPorts_scopes names ast _ hcond

theorem lowerBound_scopes {L : LeafLowering Ast Atom Leaf Op LeafError} {names : NameTable}
    {ast : Ast} {what : String} {r : LoweredExpr Leaf Op}
    (h : lowerBound L names ast what = .ok r) : r.names.scopes = names.scopes := by
  obtain ⟨bound, hbound, h⟩ := bind_eq_ok.mp h
  obtain ⟨_, _, h⟩ := bind_eq_ok.mp h
  cases h
  exact L.lowerExprNoPorts_scopes names ast _ (liftLeaf_eq_ok.mp hbound)

theorem stashIfImpure_scopes (L : LeafLowering Ast Atom Leaf Op LeafError)
    (names : NameTable) (e : Expr Leaf) (fallback : IrType) :
    (stashIfImpure L names e fallback).names.scopes = names.scopes := by
  unfold stashIfImpure
  split <;> rfl

theorem lowerRepeatCount_scopes {L : LeafLowering Ast Atom Leaf Op LeafError}
    {names : NameTable} {count : Ast} {r : LoweredCounter Leaf Op}
    (h : lowerRepeatCount L names count = .ok r) : ScopesKept names r.names := by
  obtain ⟨countIr, hcount, h⟩ := bind_eq_ok.mp h
  obtain ⟨_, _, h⟩ := bind_eq_ok.mp h
  cases h
  refine .of_eq ?_
  rw [stashIfImpure_scopes]
  have hscopes := lowerBound_scopes hcount
  split <;> exact hscopes

theorem lowerRangeBounds_scopes {L : LeafLowering Ast Atom Leaf Op LeafError}
    {names : NameTable} {var : String} {lo hi : Ast} {r : LoweredCounter Leaf Op}
    (h : lowerRangeBounds L names var lo hi = .ok r) : ScopesKept names r.names := by
  obtain ⟨loIr, hlo, h⟩ := bind_eq_ok.mp h
  obtain ⟨hiIr, hhi, h⟩ := bind_eq_ok.mp h
  obtain ⟨_, _, h⟩ := bind_eq_ok.mp h
  obtain ⟨_, _, h⟩ := bind_eq_ok.mp h
  cases h
  have hhi := L.lowerExprNoPorts_scopes _ hi _ (liftLeaf_eq_ok.mp hhi)
  have hlo' : ScopesKept names loIr.names := .of_eq (lowerBound_scopes hlo)
  have hdeclare : ScopesKept loIr.names (loIr.names.declare var).2 :=
    ScopesKept.modifyScope _ _
  have hhidden := ScopesKept.modifyScope (loIr.names.declare var).2 fun scope =>
    scope.remove var
  have hinsert := ScopesKept.modifyScope hiIr.names fun scope =>
    scope.insert var (loIr.names.declare var).1
  have hkept := ((hlo'.trans hdeclare).trans hhidden).trans
    ((ScopesKept.of_eq hhi).trans hinsert)
  refine hkept.trans (.of_eq ?_)
  rw [stashIfImpure_scopes]
  split <;> rfl

mutual

theorem resolveStmt_spec {L : LeafLowering Ast Atom Leaf Op LeafError} {inLoop : Bool} :
    ∀ (stmt : SourceStmt Ast Atom) {names : NameTable} {r : IrPlan Leaf Op × NameTable},
      resolveStmt L inLoop stmt names = .ok r →
        r.1.Enclosed inLoop ∧ ScopesKept names r.2
  | .atom stmt, names, r, h => by
      obtain ⟨atom, hatom, h⟩ := bind_eq_ok.mp h
      cases h
      exact ⟨trivial, L.lowerAtom_scopes names stmt atom (liftLeaf_eq_ok.mp hatom)⟩
  | .ifStmt cond thenBlock tail, names, r, h => by
      obtain ⟨condIr, hcond, h⟩ := bind_eq_ok.mp h
      obtain ⟨⟨thenPlan, names₁⟩, hthen, h⟩ := bind_eq_ok.mp h
      obtain ⟨⟨tailPlan, names₂⟩, htail, h⟩ := bind_eq_ok.mp h
      cases h
      obtain ⟨hthenE, hthenS⟩ := resolveBlock_spec thenBlock hthen
      obtain ⟨htailE, htailS⟩ := resolveTail_spec tail htail
      have hscopes := hthenS.popScope.trans (resolveCond_scopes hcond)
      exact ⟨⟨hthenE, htailE⟩, (ScopesKept.of_eq hscopes).trans htailS⟩
  | .whileStmt cond body, names, r, h => by
      obtain ⟨condIr, hcond, h⟩ := bind_eq_ok.mp h
      obtain ⟨⟨plan, names₁⟩, hbody, h⟩ := bind_eq_ok.mp h
      cases h
      obtain ⟨hbodyE, hbodyS⟩ := resolveBlock_spec body hbody
      exact ⟨hbodyE, .of_eq (hbodyS.popScope.trans (resolveCond_scopes hcond))⟩
  | .loopStmt body, names, r, h => by
      obtain ⟨⟨plan, names₁⟩, hbody, h⟩ := bind_eq_ok.mp h
      cases h
      obtain ⟨hbodyE, hbodyS⟩ := resolveBlock_spec body hbody
      exact ⟨hbodyE, .of_eq hbodyS.popScope⟩
  | .repeatStmt count body, names, r, h => by
      obtain ⟨counter, hcounter, h⟩ := bind_eq_ok.mp h
      obtain ⟨⟨plan, names₁⟩, hbody, h⟩ := bind_eq_ok.mp h
      cases h
      obtain ⟨hbodyE, hbodyS⟩ := resolveBlock_spec body hbody
      have hkept := (lowerRepeatCount_scopes hcounter).trans (.of_eq hbodyS.popScope)
      exact ⟨hbodyE, .of_eq hkept.popScope⟩
  | .forRange var lo hi body, names, r, h => by
      obtain ⟨counter, hcounter, h⟩ := bind_eq_ok.mp h
      obtain ⟨⟨plan, names₁⟩, hbody, h⟩ := bind_eq_ok.mp h
      cases h
      obtain ⟨hbodyE, hbodyS⟩ := resolveBlock_spec body hbody
      have hkept := (lowerRangeBounds_scopes hcounter).trans (.of_eq hbodyS.popScope)
      exact ⟨hbodyE, .of_eq hkept.popScope⟩
  | .breakStmt, names, r, h => by
      simp only [resolveStmt] at h
      split at h
      · rename_i hloop
        cases h
        exact ⟨hloop, .of_eq rfl⟩
      · cases h
  | .continueStmt, names, r, h => by
      simp only [resolveStmt] at h
      split at h
      · rename_i hloop
        cases h
        exact ⟨hloop, .of_eq rfl⟩
      · cases h
  | .returnStmt, names, r, h => by
      cases h
      exact ⟨trivial, .of_eq rfl⟩

theorem resolveBlock_spec {L : LeafLowering Ast Atom Leaf Op LeafError} {inLoop : Bool} :
    ∀ (block : SourceBlock Ast Atom) {names : NameTable}
      {r : IrPlanBlock Leaf Op × NameTable},
      resolveBlock L inLoop block names = .ok r →
        r.1.Enclosed inLoop ∧ ScopesKept names r.2
  | .nil, names, r, h => by
      cases h
      exact ⟨trivial, .of_eq rfl⟩
  | .cons stmt rest, names, r, h => by
      obtain ⟨⟨plan, names₁⟩, hstmt, h⟩ := bind_eq_ok.mp h
      obtain ⟨⟨restPlan, names₂⟩, hrest, h⟩ := bind_eq_ok.mp h
      cases h
      obtain ⟨hstmtE, hstmtS⟩ := resolveStmt_spec stmt hstmt
      obtain ⟨hrestE, hrestS⟩ := resolveBlock_spec rest hrest
      exact ⟨⟨hstmtE, hrestE⟩, hstmtS.trans hrestS⟩

theorem resolveTail_spec {L : LeafLowering Ast Atom Leaf Op LeafError} {inLoop : Bool} :
    ∀ (tail : SourceTail Ast Atom) {names : NameTable} {r : IrPlanTail Leaf Op × NameTable},
      resolveTail L inLoop tail names = .ok r →
        r.1.Enclosed inLoop ∧ ScopesKept names r.2
  | .none, names, r, h => by
      cases h
      exact ⟨trivial, .of_eq rfl⟩
  | .otherwise block, names, r, h => by
      obtain ⟨⟨plan, names₁⟩, hblock, h⟩ := bind_eq_ok.mp h
      cases h
      obtain ⟨hblockE, hblockS⟩ := resolveBlock_spec block hblock
      exact ⟨hblockE, .of_eq hblockS.popScope⟩
  | .elsif cond block tail, names, r, h => by
      obtain ⟨condIr, hcond, h⟩ := bind_eq_ok.mp h
      obtain ⟨⟨plan, names₁⟩, hblock, h⟩ := bind_eq_ok.mp h
      obtain ⟨⟨tailPlan, names₂⟩, htail, h⟩ := bind_eq_ok.mp h
      cases h
      obtain ⟨hblockE, hblockS⟩ := resolveBlock_spec block hblock
      obtain ⟨htailE, htailS⟩ := resolveTail_spec tail htail
      have hscopes := hblockS.popScope.trans (resolveCond_scopes hcond)
      exact ⟨⟨hblockE, htailE⟩, (ScopesKept.of_eq hscopes).trans htailS⟩

end

/-- Lowering with `lowerBody` resolves a block and lays out its code, wherever it
starts; no assertion of the builder fails on the way. -/
def LowersTo (lowerBody : Builder Leaf Op → Lower LeafError (Builder Leaf Op))
    (frames : List LoopFrame) (names : NameTable)
    (resolved : Lower LeafError (IrPlanBlock Leaf Op × NameTable)) : Prop :=
  ∀ code : CodeTable (Stmt Leaf Op) (Expr Leaf), code.current < code.blocks.length →
    lowerBody ⟨names, code, frames⟩ = resolved.map fun r =>
      ⟨r.2, layoutBlock frames r.1 code, frames⟩

section Blocks

variable {lowerBody : Builder Leaf Op → Lower LeafError (Builder Leaf Op)}
  {resolved : Lower LeafError (IrPlanBlock Leaf Op × NameTable)} {names : NameTable}
  {code : CodeTable (Stmt Leaf Op) (Expr Leaf)} {frames : List LoopFrame}

theorem lowerLoopBody_eq {frame : LoopFrame} {start : Nat} (next : Nat)
    (hstart : Fresh code start)
    (hbody : LowersTo lowerBody (frame :: frames) names.pushScope resolved) :
    lowerLoopBody lowerBody frame start next ⟨names, code, frames⟩ = resolved.map fun r =>
      ⟨r.2.popScope, jumped next (layoutBlock (frame :: frames) r.1 (started code start)),
        frames⟩ := by
  have hbody' := hbody (started code start) hstart.lt
  simp only [lowerLoopBody, startBlock_eq hstart, bind, Except.bind, hbody']
  cases resolved with
  | error e => rfl
  | ok r =>
      have hcurrent := (layoutBlock_laid (frame :: frames) r.1 (started code start)
        hstart.lt).current_lt
      simp only [Except.map, jumpUnlessTerminated_eq hcurrent]
      rfl

theorem lowerCountedLoop_eq (headerCond : Expr Leaf)
    (latch : Latch (Stmt Leaf Op) (Expr Leaf)) (hopen : IsOpen code)
    (hbody : ∀ frame, LowersTo lowerBody (frame :: frames) names.pushScope resolved) :
    lowerCountedLoop headerCond latch lowerBody ⟨names, code, frames⟩ = resolved.map fun r =>
      ⟨r.2.popScope, layoutCounted headerCond latch
        (fun frame => layoutBlock (frame :: frames) r.1) code, frames⟩ := by
  have hheader : Fresh (forked 4 (.jump code.blocks.length) code) code.blocks.length :=
    countedHeader_fresh hopen (Nat.le_refl _) (by omega)
  have hstart : Fresh (terminated (countedHeader code)
      (.branch headerCond (code.blocks.length + 1) (code.blocks.length + 3)))
      (code.blocks.length + 1) :=
    countedStart_fresh headerCond hopen (Nat.lt_succ_self _) (by omega)
  simp only [lowerCountedLoop, newBlock_eq, reserved_reserved, length_reserved,
    terminate_reserved_eq hopen, startBlock_eq hheader, bind, Except.bind]
  rw [show started (forked (1 + 1 + 1 + 1) (.jump code.blocks.length) code)
    code.blocks.length = countedHeader code from rfl]
  simp only [terminate_eq (countedHeader_isOpen hopen), Nat.reduceAdd]
  rw [lowerLoopBody_eq _ hstart (hbody _)]
  cases resolved with
  | error e => rfl
  | ok r =>
      have hlayout : ∀ frame, LaysOut (layoutBlock (frame :: frames) r.1) :=
        fun frame => layoutBlock_laid (frame :: frames) r.1
      have hlatch : Fresh (jumped (code.blocks.length + 2)
          (layoutBlock (⟨code.blocks.length + 2, code.blocks.length + 3⟩ :: frames) r.1
            (countedStart headerCond code))) (code.blocks.length + 2) :=
        countedLatch_fresh headerCond hlayout hopen (Nat.lt_succ_self _) (by omega)
      have hexit := counted_exit_fresh headerCond latch hlayout hopen code.blocks.length
        (code.blocks.length + 3)
      simp only [Except.map]
      erw [startBlock_eq hlatch]
      simp only
      erw [lowerLatch_eq (countedLatch_isOpen headerCond hlayout hopen)]
      simp only
      erw [startBlock_eq hexit]
      rfl

theorem lowerThenArm_eq (cond : LoweredExpr Leaf Op) (merge : Nat) (hopen : IsOpen code)
    (hthen : LowersTo lowerBody frames cond.names.pushScope resolved) :
    lowerThenArm cond lowerBody merge ⟨names, code, frames⟩ = resolved.map fun r =>
      ⟨r.2.popScope,
        layoutThenArm (LoweredExpr.cond cond) (layoutBlock frames r.1) merge code, frames⟩ := by
  have hopenC := layoutActions_isOpen cond.actions hopen
  have hstart : Fresh (forked 2 (.branch cond.expr (layoutActions cond.actions code).blocks.length
      ((layoutActions cond.actions code).blocks.length + 1)) (layoutActions cond.actions code))
      (layoutActions cond.actions code).blocks.length :=
    thenStart_fresh hopenC cond.expr
  have hthen' := hthen (thenStart cond.expr (layoutActions cond.actions code)) hstart.lt
  simp only [lowerThenArm, emitActions_eq hopen, newBlock_eq, reserved_reserved,
    length_reserved, terminate_reserved_eq hopenC, startBlock_eq hstart, bind, Except.bind]
  erw [hthen']
  cases resolved with
  | error e => rfl
  | ok r =>
      have hcurrent := (layoutBlock_laid frames r.1
        (thenStart cond.expr (layoutActions cond.actions code)) hstart.lt).current_lt
      have helse := else_fresh (layoutBlock_laid frames r.1) hopenC cond.expr merge
      simp only [Except.map]
      erw [jumpUnlessTerminated_eq hcurrent]
      simp only
      erw [startBlock_eq helse]
      rfl

end Blocks

mutual

theorem lowerStmt_eq (L : LeafLowering Ast Atom Leaf Op LeafError) (frames : List LoopFrame) :
    ∀ (stmt : SourceStmt Ast Atom) (names : NameTable)
      (code : CodeTable (Stmt Leaf Op) (Expr Leaf)), code.current < code.blocks.length →
      lowerStmt L stmt ⟨names, code, frames⟩ =
        (resolveStmt L (!frames.isEmpty) stmt names).map fun r =>
          ⟨r.2, layoutPlan frames r.1 (ensured code), frames⟩
  | .atom stmt, names, code, hcurrent => by
      have hopen := ensured_isOpen hcurrent
      simp only [lowerStmt, resolveStmt, ensureOpenBlock_eq, bind, Except.bind]
      cases liftLeaf (L.lowerAtom names stmt) with
      | error e => rfl
      | ok r =>
          simp only [emitActions_eq hopen]
          rfl
  | .ifStmt cond thenBlock tail, names, code, hcurrent => by
      have hopen := ensured_isOpen hcurrent
      simp only [lowerStmt, resolveStmt, lowerCond_eq, ensureOpenBlock_eq, newBlock_eq, bind,
        Except.bind]
      cases resolveCond L names cond "if/elsif condition" with
      | error e => rfl
      | ok condIr =>
          simp only [lowerThenArm_eq condIr _ (hopen.reserved 1)
            (lowerBlockStmts_eq L frames thenBlock condIr.names.pushScope)]
          cases resolveBlock L (!frames.isEmpty) thenBlock condIr.names.pushScope with
          | error e => rfl
          | ok r =>
              have hopenElse := layoutThenArm_isOpen (layoutBlock_laid frames r.1)
                (hopen.reserved 1) (LoweredExpr.cond condIr) (ensured code).blocks.length
              simp only [Except.map, lowerIfTail_eq L frames tail _ _ _ hopenElse]
              cases resolveTail L (!frames.isEmpty) tail r.2.popScope with
              | error e => rfl
              | ok rt =>
                  have hmerge := merge_fresh hopen ((layoutThenArm_laid
                    (layoutBlock_laid frames r.1) (hopen.reserved 1) (LoweredExpr.cond condIr)
                    (ensured code).blocks.length).then_laid
                    (layoutTail_laid frames rt.1 (ensured code).blocks.length hopenElse))
                  simp only [startBlock_eq hmerge]
                  rfl
  | .whileStmt cond body, names, code, hcurrent => by
      have hopen := ensured_isOpen hcurrent
      have hheader := whileHeader_fresh hopen
      simp only [lowerStmt, resolveStmt, lowerCond_eq, ensureOpenBlock_eq, newBlock_eq,
        reserved_reserved, length_reserved, terminate_reserved_eq hopen, startBlock_eq hheader, bind,
        Except.bind]
      cases resolveCond L names cond "while condition" with
      | error e => rfl
      | ok condIr =>
          have hbody : Fresh (terminated (whileTest (LoweredExpr.cond condIr) (ensured code))
              (.branch condIr.expr ((ensured code).blocks.length + 1)
                ((ensured code).blocks.length + 2))) ((ensured code).blocks.length + 1) :=
            whileStart_fresh hopen (LoweredExpr.cond condIr) (Nat.lt_succ_self _) (by omega)
          simp only [emitActions_eq hheader.isOpen]
          rw [show layoutActions condIr.actions (started (forked (1 + 1 + 1)
            (.jump (ensured code).blocks.length) (ensured code)) (ensured code).blocks.length) =
            whileTest (LoweredExpr.cond condIr) (ensured code) from rfl]
          simp only [terminate_eq (whileTest_isOpen hopen _), Nat.reduceAdd]
          rw [lowerLoopBody_eq _ hbody (lowerBlockStmts_eq L (_ :: frames) body _)]
          simp only [List.isEmpty_cons, Bool.not_false]
          cases resolveBlock L true body condIr.names.pushScope with
          | error e => rfl
          | ok r =>
              have hexit := while_exit_fresh
                (fun frame => layoutBlock_laid (frame :: frames) r.1) hopen
                (LoweredExpr.cond condIr)
                ⟨(ensured code).blocks.length, (ensured code).blocks.length + 2⟩
              simp only [Except.map]
              erw [startBlock_eq hexit]
              rfl
  | .loopStmt body, names, code, hcurrent => by
      have hopen := ensured_isOpen hcurrent
      have hbody : Fresh (forked 2 (.jump (ensured code).blocks.length) (ensured code))
          (ensured code).blocks.length := loopStart_fresh hopen
      simp only [lowerStmt, resolveStmt, ensureOpenBlock_eq, newBlock_eq, reserved_reserved,
        length_reserved, terminate_reserved_eq hopen, bind, Except.bind, Nat.reduceAdd]
      rw [lowerLoopBody_eq _ hbody (lowerBlockStmts_eq L (_ :: frames) body _)]
      simp only [List.isEmpty_cons, Bool.not_false]
      cases resolveBlock L true body names.pushScope with
      | error e => rfl
      | ok r =>
          have hexit := loop_exit_fresh
            (fun frame => layoutBlock_laid (frame :: frames) r.1) hopen
            ⟨(ensured code).blocks.length, (ensured code).blocks.length + 1⟩
          simp only [Except.map]
          erw [startBlock_eq hexit]
          rfl
  | .repeatStmt count body, names, code, hcurrent => by
      have hopen := ensured_isOpen hcurrent
      simp only [lowerStmt, resolveStmt, ensureOpenBlock_eq, bind, Except.bind]
      cases lowerRepeatCount L names.pushScope count with
      | error e => rfl
      | ok counter =>
          have hbody : ∀ frame, LowersTo (lowerBlockStmts L body) (frame :: frames)
              counter.names.pushScope (resolveBlock L true body counter.names.pushScope) :=
            fun frame => lowerBlockStmts_eq L (frame :: frames) body _
          simp only [emitActions_eq hopen,
            lowerCountedLoop_eq _ _ (layoutActions_isOpen counter.init hopen) hbody]
          cases resolveBlock L true body counter.names.pushScope with
          | error e => rfl
          | ok r => rfl
  | .forRange var lo hi body, names, code, hcurrent => by
      have hopen := ensured_isOpen hcurrent
      simp only [lowerStmt, resolveStmt, ensureOpenBlock_eq, bind, Except.bind]
      cases lowerRangeBounds L names.pushScope var lo hi with
      | error e => rfl
      | ok counter =>
          have hbody : ∀ frame, LowersTo (lowerBlockStmts L body) (frame :: frames)
              counter.names.pushScope (resolveBlock L true body counter.names.pushScope) :=
            fun frame => lowerBlockStmts_eq L (frame :: frames) body _
          simp only [emitActions_eq hopen,
            lowerCountedLoop_eq _ _ (layoutActions_isOpen counter.init hopen) hbody]
          cases resolveBlock L true body counter.names.pushScope with
          | error e => rfl
          | ok r => rfl
  | .breakStmt, names, code, hcurrent => by
      have hopen := ensured_isOpen hcurrent
      simp only [lowerStmt, resolveStmt, ensureOpenBlock_eq, bind, Except.bind]
      cases frames with
      | nil => rfl
      | cons frame rest =>
          simp only [terminate_eq hopen]
          rfl
  | .continueStmt, names, code, hcurrent => by
      have hopen := ensured_isOpen hcurrent
      simp only [lowerStmt, resolveStmt, ensureOpenBlock_eq, bind, Except.bind]
      cases frames with
      | nil => rfl
      | cons frame rest =>
          simp only [terminate_eq hopen]
          rfl
  | .returnStmt, names, code, hcurrent => by
      have hopen := ensured_isOpen hcurrent
      simp only [lowerStmt, resolveStmt, ensureOpenBlock_eq, terminate_eq hopen, bind,
        Except.bind]
      rfl

theorem lowerBlockStmts_eq (L : LeafLowering Ast Atom Leaf Op LeafError)
    (frames : List LoopFrame) :
    ∀ (block : SourceBlock Ast Atom) (names : NameTable),
      LowersTo (lowerBlockStmts L block) frames names
        (resolveBlock L (!frames.isEmpty) block names)
  | .nil, names => fun code hcurrent => rfl
  | .cons stmt rest, names => fun code hcurrent => by
      simp only [lowerBlockStmts, resolveBlock, lowerStmt_eq L frames stmt names code hcurrent,
        bind, Except.bind]
      cases resolveStmt L (!frames.isEmpty) stmt names with
      | error e => rfl
      | ok r =>
          have hlaid := (ensured_laid hcurrent).then_laid
            (layoutPlan_laid frames r.1 (ensured_isOpen hcurrent))
          simp only [Except.map, lowerBlockStmts_eq L frames rest r.2 _ hlaid.current_lt]
          cases resolveBlock L (!frames.isEmpty) rest r.2 with
          | error e => rfl
          | ok rs => rfl

theorem lowerIfTail_eq (L : LeafLowering Ast Atom Leaf Op LeafError)
    (frames : List LoopFrame) :
    ∀ (tail : SourceTail Ast Atom) (merge : Nat) (names : NameTable)
      (code : CodeTable (Stmt Leaf Op) (Expr Leaf)), IsOpen code →
      lowerIfTail L tail merge ⟨names, code, frames⟩ =
        (resolveTail L (!frames.isEmpty) tail names).map fun r =>
          ⟨r.2, layoutTail frames r.1 merge code, frames⟩
  | .none, merge, names, code, hopen => by
      simp only [lowerIfTail, jumpUnlessTerminated_eq hopen.current_lt, bind, Except.bind]
      rfl
  | .otherwise block, merge, names, code, hopen => by
      simp only [lowerIfTail, resolveTail,
        lowerBlockStmts_eq L frames block names.pushScope code hopen.current_lt, bind,
        Except.bind]
      cases resolveBlock L (!frames.isEmpty) block names.pushScope with
      | error e => rfl
      | ok r =>
          have hcurrent := (layoutBlock_laid frames r.1 code hopen.current_lt).current_lt
          simp only [Except.map, jumpUnlessTerminated_eq hcurrent]
          rfl
  | .elsif cond block tail, merge, names, code, hopen => by
      simp only [lowerIfTail, resolveTail, lowerCond_eq, bind, Except.bind]
      cases resolveCond L names cond "if/elsif condition" with
      | error e => rfl
      | ok condIr =>
          simp only [lowerThenArm_eq condIr _ hopen
            (lowerBlockStmts_eq L frames block condIr.names.pushScope)]
          cases resolveBlock L (!frames.isEmpty) block condIr.names.pushScope with
          | error e => rfl
          | ok r =>
              have hopenElse := layoutThenArm_isOpen (layoutBlock_laid frames r.1) hopen
                (LoweredExpr.cond condIr) merge
              simp only [Except.map, lowerIfTail_eq L frames tail _ _ _ hopenElse]
              cases resolveTail L (!frames.isEmpty) tail r.2.popScope with
              | error e => rfl
              | ok rt => rfl

end

end Lowering

section NoPanic

variable {Ast Atom Leaf Op LeafError : Type}

/-- The lowering does not fail an assertion. -/
def NoPanic {α : Type} (x : Lower LeafError α) : Prop :=
  x ≠ .error .panic

theorem NoPanic.ok {α : Type} (a : α) : NoPanic (.ok a : Lower LeafError α) := by
  simp [NoPanic]

theorem NoPanic.bind {α β : Type} {x : Lower LeafError α} {f : α → Lower LeafError β}
    (hx : NoPanic x) (hf : ∀ a, NoPanic (f a)) : NoPanic (x >>= f) := by
  cases x with
  | error e => simpa [NoPanic, Bind.bind, Except.bind] using hx
  | ok a => exact hf a

theorem NoPanic.liftLeaf {α : Type} (x : Except LeafError α) : NoPanic (liftLeaf x) := by
  cases x <;> simp [NoPanic, ControlLowering.liftLeaf]

theorem resolveCond_noPanic (L : LeafLowering Ast Atom Leaf Op LeafError) (names : NameTable)
    (ast : Ast) (what : String) : NoPanic (resolveCond L names ast what) := by
  rw [← lowerCond_eq]
  exact (NoPanic.liftLeaf _).bind fun _ => (NoPanic.liftLeaf _).bind fun _ => .ok _

theorem lowerBound_noPanic (L : LeafLowering Ast Atom Leaf Op LeafError) (names : NameTable)
    (ast : Ast) (what : String) : NoPanic (lowerBound L names ast what) :=
  (NoPanic.liftLeaf _).bind fun _ => (NoPanic.liftLeaf _).bind fun _ => .ok _

theorem rejectLargeUpper_noPanic (L : LeafLowering Ast Atom Leaf Op LeafError)
    (signedRange : Bool) (hi : Ast) : NoPanic (rejectLargeUpper L signedRange hi) := by
  unfold rejectLargeUpper
  split
  · split <;> simp [NoPanic]
  · exact .ok ()

theorem rejectNegativeCount_noPanic (L : LeafLowering Ast Atom Leaf Op LeafError)
    (count : Ast) : NoPanic (rejectNegativeCount L count) := by
  unfold rejectNegativeCount
  split
  · split <;> simp [NoPanic]
  · exact .ok ()

theorem lowerRangeBounds_noPanic (L : LeafLowering Ast Atom Leaf Op LeafError)
    (names : NameTable) (var : String) (lo hi : Ast) :
    NoPanic (lowerRangeBounds L names var lo hi) :=
  (lowerBound_noPanic L names lo _).bind fun _ => (NoPanic.liftLeaf _).bind fun _ =>
    (NoPanic.liftLeaf _).bind fun _ => (rejectLargeUpper_noPanic L _ hi).bind fun _ => .ok _

theorem lowerRepeatCount_noPanic (L : LeafLowering Ast Atom Leaf Op LeafError)
    (names : NameTable) (count : Ast) : NoPanic (lowerRepeatCount L names count) :=
  (lowerBound_noPanic L _ count _).bind fun _ =>
    (rejectNegativeCount_noPanic L count).bind fun _ => .ok _

mutual

theorem resolveStmt_noPanic (L : LeafLowering Ast Atom Leaf Op LeafError) (inLoop : Bool) :
    ∀ (stmt : SourceStmt Ast Atom) (names : NameTable),
      NoPanic (resolveStmt L inLoop stmt names)
  | .atom _, _ => (NoPanic.liftLeaf _).bind fun _ => .ok _
  | .ifStmt _ thenBlock tail, names =>
      (resolveCond_noPanic L names _ _).bind fun _ =>
        (resolveBlock_noPanic L inLoop thenBlock _).bind fun _ =>
          (resolveTail_noPanic L inLoop tail _).bind fun _ => .ok _
  | .whileStmt _ body, names =>
      (resolveCond_noPanic L names _ _).bind fun _ =>
        (resolveBlock_noPanic L true body _).bind fun _ => .ok _
  | .loopStmt body, _ => (resolveBlock_noPanic L true body _).bind fun _ => .ok _
  | .repeatStmt _ body, _ =>
      (lowerRepeatCount_noPanic L _ _).bind fun _ =>
        (resolveBlock_noPanic L true body _).bind fun _ => .ok _
  | .forRange _ _ _ body, _ =>
      (lowerRangeBounds_noPanic L _ _ _ _).bind fun _ =>
        (resolveBlock_noPanic L true body _).bind fun _ => .ok _
  | .breakStmt, _ => by
      simp only [resolveStmt]
      split <;> simp [NoPanic]
  | .continueStmt, _ => by
      simp only [resolveStmt]
      split <;> simp [NoPanic]
  | .returnStmt, _ => .ok _

theorem resolveBlock_noPanic (L : LeafLowering Ast Atom Leaf Op LeafError) (inLoop : Bool) :
    ∀ (block : SourceBlock Ast Atom) (names : NameTable),
      NoPanic (resolveBlock L inLoop block names)
  | .nil, _ => .ok _
  | .cons stmt rest, names =>
      (resolveStmt_noPanic L inLoop stmt names).bind fun _ =>
        (resolveBlock_noPanic L inLoop rest _).bind fun _ => .ok _

theorem resolveTail_noPanic (L : LeafLowering Ast Atom Leaf Op LeafError) (inLoop : Bool) :
    ∀ (tail : SourceTail Ast Atom) (names : NameTable),
      NoPanic (resolveTail L inLoop tail names)
  | .none, _ => .ok _
  | .otherwise block, _ => (resolveBlock_noPanic L inLoop block _).bind fun _ => .ok _
  | .elsif _ block tail, names =>
      (resolveCond_noPanic L names _ _).bind fun _ =>
        (resolveBlock_noPanic L inLoop block _).bind fun _ =>
          (resolveTail_noPanic L inLoop tail _).bind fun _ => .ok _

end

end NoPanic

end Harc.ControlResolution
