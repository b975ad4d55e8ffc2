import Harc.FunctionBuilder
import Harc.Fallible
import Harc.StructuredControl

/-!
Sealing a function: the blocks that `finish` keeps are the ones that the entry
reaches, and the kept graph behaves as the whole one.
-/

namespace Harc.BlockPruning

open Harc.Fallible
open Harc.TestbenchIr
open Harc.FunctionBuilder
open Harc.TraceSimulation
open Harc.StructuredControl

variable {Stmt Expr World LeafError : Type}

/-- Every successor is a block of the graph. -/
def TargetsInRange (blocks : List (BasicBlock Stmt Expr)) : Prop :=
  ∀ block ∈ blocks, ∀ s ∈ block.terminator.successors, s < blocks.length

/-- The marked blocks are closed under successors. -/
structure Marking (blocks : List (BasicBlock Stmt Expr)) (marks : List Bool) : Prop where
  length_eq : marks.length = blocks.length
  entry : marks[0]? = some true
  closed : ∀ (i : Nat) block, blocks[i]? = some block → marks[i]? = some true →
    ∀ s ∈ block.terminator.successors, marks[s]? = some true

section Reachability

variable {blocks : List (BasicBlock Stmt Expr)} {marks marks' : List Bool} {i : Nat}
  {work : List BlockId}

theorem reachableBlocks_marked (hmark : marks[i]? = some true) :
    (reachableBlocks blocks marks (i :: work) : Except (LowerError LeafError) _) =
      reachableBlocks blocks marks work := by
  rw [reachableBlocks]
  split <;> simp_all

theorem reachableBlocks_visit {block : BasicBlock Stmt Expr} (hmark : marks[i]? = some false)
    (hblock : blocks[i]? = some block) :
    (reachableBlocks blocks marks (i :: work) : Except (LowerError LeafError) _) =
      reachableBlocks blocks (marks.set i true)
        (block.terminator.successors.reverse ++ work) := by
  rw [reachableBlocks]
  split <;> simp_all

theorem reachableBlocks_stuck (hmark : marks[i]? ≠ some true)
    (hstuck : ∀ block, marks[i]? = some false → blocks[i]? = some block → False) :
    reachableBlocks blocks marks (i :: work) =
      (.error .panic : Except (LowerError LeafError) (List Bool)) := by
  rw [reachableBlocks]
  split <;> simp_all

theorem reachableBlocks_eq_ok (htargets : TargetsInRange blocks)
    (hlength : marks.length = blocks.length) (hwork : ∀ i ∈ work, i < blocks.length) :
    ∃ marks', reachableBlocks blocks marks work =
      (.ok marks' : Except (LowerError LeafError) (List Bool)) := by
  induction marks, work using reachableBlocks.induct blocks with
  | case1 marks =>
      exact ⟨marks, by rw [reachableBlocks]⟩
  | case2 marks i work hmark ih =>
      rw [reachableBlocks_marked hmark]
      exact ih hlength fun j hj => hwork j (List.mem_cons_of_mem i hj)
  | case3 marks i work block hmark hblock ih =>
      rw [reachableBlocks_visit hmark hblock]
      refine ih (by simpa using hlength) fun j hj => ?_
      rcases List.mem_append.mp hj with hj | hj
      · exact htargets block (List.mem_of_getElem? hblock) j (List.mem_reverse.mp hj)
      · exact hwork j (List.mem_cons_of_mem i hj)
  | case4 marks i work hmark hstuck =>
      have hi : i < blocks.length := hwork i List.mem_cons_self
      have hmarks : marks[i]? = some (marks.get ⟨i, hlength ▸ hi⟩) :=
        List.getElem?_eq_getElem _
      generalize marks.get ⟨i, hlength ▸ hi⟩ = mark at hmarks
      cases mark with
      | false => exact (hstuck _ hmarks (List.getElem?_eq_getElem hi)).elim
      | true => exact (hmark hmarks).elim

/-- Marks stay, the work is marked, and so are the successors of what is newly
marked. -/
theorem reachableBlocks_spec
    (h : reachableBlocks blocks marks work =
      (.ok marks' : Except (LowerError LeafError) (List Bool))) :
    marks'.length = marks.length ∧
      (∀ i : Nat, marks[i]? = some true → marks'[i]? = some true) ∧
      (∀ i ∈ work, marks'[i]? = some true) ∧
      ∀ (i : Nat) block, blocks[i]? = some block → marks'[i]? = some true →
        marks[i]? = some true ∨ ∀ s ∈ block.terminator.successors, marks'[s]? = some true := by
  induction marks, work using reachableBlocks.induct blocks with
  | case1 marks =>
      rw [reachableBlocks] at h
      cases h
      exact ⟨rfl, fun _ h => h, fun _ h => absurd h List.not_mem_nil, fun _ _ _ h => .inl h⟩
  | case2 marks i work hmark ih =>
      rw [reachableBlocks_marked hmark] at h
      obtain ⟨hlength, hkept, hwork, hclosed⟩ := ih h
      exact ⟨hlength, hkept, List.forall_mem_cons.mpr ⟨hkept i hmark, hwork⟩, hclosed⟩
  | case3 marks i work block hmark hblock ih =>
      rw [reachableBlocks_visit hmark hblock] at h
      obtain ⟨hlength, hkept, hwork, hclosed⟩ := ih h
      have hi : i < marks.length := (List.getElem?_eq_some_iff.mp hmark).1
      have hmarked : marks'[i]? = some true := hkept i (List.getElem?_set_self hi)
      refine ⟨by simpa using hlength, ?_, ?_, ?_⟩
      · intro j hj
        by_cases hij : i = j
        · exact hij ▸ hmarked
        · exact hkept j (by rwa [List.getElem?_set_ne hij])
      · exact List.forall_mem_cons.mpr
          ⟨hmarked, fun j hj => hwork j (List.mem_append_right _ hj)⟩
      · intro j other hother hj
        by_cases hij : i = j
        · subst hij
          cases hblock.symm.trans hother
          exact .inr fun s hs => hwork s (List.mem_append_left _ (List.mem_reverse.mpr hs))
        · have := hclosed j other hother hj
          rwa [List.getElem?_set_ne hij] at this
  | case4 marks i work hmark hstuck =>
      rw [reachableBlocks_stuck hmark hstuck] at h
      cases h

theorem reachableBlocks_marking
    (h : reachableBlocks blocks (List.replicate blocks.length false) [0] =
      (.ok marks : Except (LowerError LeafError) (List Bool))) : Marking blocks marks := by
  obtain ⟨hlength, _, hwork, hclosed⟩ := reachableBlocks_spec h
  refine ⟨by simpa using hlength, hwork 0 List.mem_cons_self, ?_⟩
  intro i block hblock hmark
  rcases hclosed i block hblock hmark with hfalse | hsuccs
  · rw [List.getElem?_replicate] at hfalse
    split at hfalse <;> cases hfalse
  · exact hsuccs

end Reachability

/-- The blocks that `finish` keeps, with their successors renamed. -/
def keptBlocks (blocks : List (BasicBlock Stmt Expr)) (marks : List Bool) :
    List (BasicBlock Stmt Expr) :=
  (blocks.zip marks).filterMap fun (block, marked) =>
    if marked then
      some { block with terminator := remapTerminator (keptIndex marks) block.terminator }
    else none

theorem filterMap_zip_getElem? {α β : Type} (f : α → β) {xs : List α} {marks : List Bool}
    {i : Nat} {x : α} (hx : xs[i]? = some x) (hmark : marks[i]? = some true) :
    ((xs.zip marks).filterMap fun (x, marked) =>
      if marked then some (f x) else none)[(marks.take i).count true]? = some (f x) := by
  induction i generalizing xs marks with
  | zero =>
      obtain ⟨xs, rfl⟩ : ∃ rest, xs = x :: rest := by
        cases xs <;> simp_all
      obtain ⟨marks, rfl⟩ : ∃ rest, marks = true :: rest := by
        cases marks <;> simp_all
      simp
  | succ i ih =>
      rcases xs with _ | ⟨y, xs⟩
      · simp at hx
      rcases marks with _ | ⟨mark, marks⟩
      · simp at hmark
      have hrest := ih (by simpa using hx) (by simpa using hmark)
      cases mark <;> simpa [List.count_cons] using hrest

section Kept

variable {blocks : List (BasicBlock Stmt Expr)} {marks : List Bool}

theorem keptBlocks_getElem? {i : Nat} {block : BasicBlock Stmt Expr}
    (hblock : blocks[i]? = some block) (hmark : marks[i]? = some true) :
    (keptBlocks blocks marks)[keptIndex marks i]? =
      some { block with terminator := remapTerminator (keptIndex marks) block.terminator } := by
  rw [keptIndex, if_pos hmark]
  exact filterMap_zip_getElem? (fun block : BasicBlock Stmt Expr =>
    { block with terminator := remapTerminator (keptIndex marks) block.terminator })
    hblock hmark

theorem Marking.getElem?_eq_some (hmarking : Marking blocks marks) {i : Nat}
    (hmark : marks[i]? = some true) : ∃ block, blocks[i]? = some block := by
  have hi := (List.getElem?_eq_some_iff.mp hmark).1
  rw [hmarking.length_eq] at hi
  exact ⟨_, List.getElem?_eq_getElem hi⟩

theorem keptIndex_lt (hmarking : Marking blocks marks) {i : Nat}
    (hmark : marks[i]? = some true) : keptIndex marks i < (keptBlocks blocks marks).length := by
  obtain ⟨block, hblock⟩ := hmarking.getElem?_eq_some hmark
  exact (List.getElem?_eq_some_iff.mp (keptBlocks_getElem? hblock hmark)).1

@[simp] theorem successors_remapTerminator (remap : BlockId → BlockId) (t : Terminator Expr) :
    (remapTerminator remap t).successors = t.successors.map remap := by
  cases t <;> rfl

theorem keptBlocks_targets (hmarking : Marking blocks marks) :
    TargetsInRange (keptBlocks blocks marks) := by
  intro kept hkept s hs
  obtain ⟨⟨block, marked⟩, hmem, hsome⟩ := List.mem_filterMap.mp hkept
  obtain ⟨i, hi⟩ := List.mem_iff_getElem?.mp hmem
  obtain ⟨hblock, hmark⟩ := List.getElem?_zip_eq_some.mp hi
  cases marked with
  | false => simp at hsome
  | true =>
      simp only [ite_true, Option.some.injEq] at hsome
      subst hsome
      rw [successors_remapTerminator] at hs
      obtain ⟨target, htarget, rfl⟩ := List.mem_map.mp hs
      exact keptIndex_lt hmarking (hmarking.closed i block hblock hmark target htarget)

/-- The configuration of the kept graph for one of the whole graph. -/
def Config.kept (marks : List Bool) (c : Config World) : Config World :=
  { c with block := keptIndex marks c.block }

theorem step_keptBlocks (M : Machine Stmt Expr World) (hmarking : Marking blocks marks)
    {c : Config World} (hmark : marks[c.block]? = some true) :
    M.step (keptBlocks blocks marks) (Config.kept marks c) =
      (M.step blocks c).map fun (events, c') => (events, Config.kept marks c') := by
  obtain ⟨⟨stmts, t⟩, hblock⟩ := hmarking.getElem?_eq_some hmark
  have hkept := keptBlocks_getElem? hblock hmark
  simp only [Machine.step, Config.kept, hblock, hkept]
  cases stmts[c.offset]? with
  | some s => rfl
  | none =>
      cases t with
      | branch cond thenBlock elseBlock =>
          simp only [remapTerminator, Option.map_some, apply_ite (keptIndex marks)]
          rfl
      | _ => rfl

/-- A step stays in the block or goes to a successor of it. -/
theorem step_block {M : Machine Stmt Expr World} {c c' : Config World}
    {events : List (Event Stmt Expr)} (hstep : M.step blocks c = some (events, c')) :
    c'.block = c.block ∨
      ∃ block, blocks[c.block]? = some block ∧ c'.block ∈ block.terminator.successors := by
  unfold Machine.step at hstep
  rcases hblock : blocks[c.block]? with _ | ⟨stmts, t⟩
  · simp [hblock] at hstep
  · simp only [hblock] at hstep
    cases hstmt : stmts[c.offset]? with
    | some s =>
        simp only [hstmt, Option.some.injEq, Prod.mk.injEq] at hstep
        exact .inl (hstep.2 ▸ rfl)
    | none =>
        refine .inr ⟨⟨stmts, t⟩, rfl, ?_⟩
        cases t with
        | branch cond thenBlock elseBlock =>
            simp only [hstmt, Option.some.injEq, Prod.mk.injEq] at hstep
            rw [← hstep.2]
            simp only [Terminator.successors]
            split <;> simp
        | waitUntilTimeout | ret | fatal => simp [hstmt] at hstep
        | _ =>
            simp only [hstmt, Option.some.injEq, Prod.mk.injEq] at hstep
            rw [← hstep.2]
            exact List.mem_cons_self

theorem step_marked {M : Machine Stmt Expr World} (hmarking : Marking blocks marks)
    {c c' : Config World} {events : List (Event Stmt Expr)}
    (hmark : marks[c.block]? = some true) (hstep : M.step blocks c = some (events, c')) :
    marks[c'.block]? = some true := by
  rcases step_block hstep with hsame | ⟨block, hblock, hsucc⟩
  · rwa [hsame]
  · exact hmarking.closed c.block block hblock hmark c'.block hsucc

theorem halted_keptBlocks (hmarking : Marking blocks marks) {c : Config World}
    (hmark : marks[c.block]? = some true) :
    Halted (keptBlocks blocks marks) (Config.kept marks c) ↔ Halted blocks c := by
  obtain ⟨⟨stmts, t⟩, hblock⟩ := hmarking.getElem?_eq_some hmark
  have hkept := keptBlocks_getElem? hblock hmark
  simp only [Halted, Config.kept, hblock, hkept, Option.some.injEq, exists_eq_left']
  cases t <;> simp [remapTerminator]

theorem steps_marked {M : Machine Stmt Expr World} (hmarking : Marking blocks marks) {n : Nat}
    {c c' : Config World} {trace : List (Event Stmt Expr)}
    (hsteps : Steps (M.step blocks) n c trace c') (hmark : marks[c.block]? = some true) :
    marks[c'.block]? = some true :=
  hsteps.invariant (fun _ _ _ hmark hstep => step_marked hmarking hmark hstep) hmark

theorem steps_keptBlocks {M : Machine Stmt Expr World} (hmarking : Marking blocks marks)
    {n : Nat} {c d : Config World} {trace : List (Event Stmt Expr)}
    (hmark : marks[c.block]? = some true) :
    Steps (M.step (keptBlocks blocks marks)) n (Config.kept marks c) trace d ↔
      ∃ c', d = Config.kept marks c' ∧ Steps (M.step blocks) n c trace c' :=
  Steps.map_iff (fun _ hmark => step_keptBlocks M hmarking hmark)
    (fun _ _ _ hmark hstep => step_marked hmarking hmark hstep) hmark

end Kept

/-! ### Kept blocks are reached -/

/-- A block is a successor of another one. -/
def Follows (blocks : List (BasicBlock Stmt Expr)) (i s : Nat) : Prop :=
  ∃ block, blocks[i]? = some block ∧ s ∈ block.terminator.successors

section Reached

variable {blocks : List (BasicBlock Stmt Expr)} {marks marks' : List Bool}

/-- What holds of the marked blocks and the work, and of the successors of each block of which
it holds, holds of all blocks that the search marks. -/
theorem reachableBlocks_closed {P : Nat → Prop}
    (hnext : ∀ i s, P i → Follows blocks i s → P s) {work : List BlockId}
    (hmarks : ∀ i : Nat, marks[i]? = some true → P i) (hwork : ∀ i ∈ work, P i)
    (h : reachableBlocks blocks marks work =
      (.ok marks' : Except (LowerError LeafError) (List Bool))) :
    ∀ i : Nat, marks'[i]? = some true → P i := by
  induction marks, work using reachableBlocks.induct blocks with
  | case1 marks =>
      rw [reachableBlocks] at h
      cases h
      exact hmarks
  | case2 marks i work hmark ih =>
      rw [reachableBlocks_marked hmark] at h
      exact ih hmarks (fun j hj => hwork j (List.mem_cons_of_mem i hj)) h
  | case3 marks i work block hmark hblock ih =>
      rw [reachableBlocks_visit hmark hblock] at h
      have hi : P i := hwork i List.mem_cons_self
      refine ih ?_ ?_ h
      · intro j hj
        by_cases hij : i = j
        · exact hij ▸ hi
        · exact hmarks j (by rwa [List.getElem?_set_ne hij] at hj)
      · intro j hj
        rcases List.mem_append.mp hj with hj | hj
        · exact hnext i j hi ⟨block, hblock, List.mem_reverse.mp hj⟩
        · exact hwork j (List.mem_cons_of_mem i hj)
  | case4 marks i work hmark hstuck =>
      rw [reachableBlocks_stuck hmark hstuck] at h
      cases h

theorem exists_of_lt_filterMap_zip {α β : Type} (f : α → β) (xs : List α) :
    ∀ (marks : List Bool) (j : Nat),
      j < ((xs.zip marks).filterMap fun (x, marked) =>
        if marked then some (f x) else none).length →
      ∃ i : Nat, marks[i]? = some true ∧ (marks.take i).count true = j := by
  induction xs with
  | nil =>
      intro marks j hj
      exact absurd hj (Nat.not_lt_zero j)
  | cons x xs ih =>
      rintro (_ | ⟨mark, marks⟩) j hj
      · exact absurd hj (Nat.not_lt_zero j)
      · rcases mark
        · obtain ⟨i, hmark, hcount⟩ := ih marks j (by simpa using hj)
          exact ⟨i + 1, hmark, by simpa using hcount⟩
        · rcases j with _ | j
          · exact ⟨0, rfl, rfl⟩
          · obtain ⟨i, hmark, hcount⟩ := ih marks j (by simpa using hj)
            exact ⟨i + 1, hmark, by simpa using hcount⟩

theorem exists_keptIndex {j : Nat} (hj : j < (keptBlocks blocks marks).length) :
    ∃ i : Nat, marks[i]? = some true ∧ keptIndex marks i = j := by
  obtain ⟨i, hmark, hcount⟩ := exists_of_lt_filterMap_zip
    (fun block : BasicBlock Stmt Expr => (⟨block.stmts,
      remapTerminator (keptIndex marks) block.terminator⟩ : BasicBlock Stmt Expr)) blocks marks j hj
  exact ⟨i, hmark, by rw [keptIndex, if_pos hmark, hcount]⟩

theorem keptIndex_zero (marks : List Bool) : keptIndex marks 0 = 0 := by
  simp [keptIndex]

/-- A path of the whole graph is one of the kept graph. -/
theorem reached_keptIndex (hmarking : Marking blocks marks) {i : Nat}
    (hpath : Relation.ReflTransGen (Follows blocks) 0 i) :
    marks[i]? = some true ∧
      Relation.ReflTransGen (Follows (keptBlocks blocks marks)) 0 (keptIndex marks i) := by
  induction hpath with
  | refl =>
      refine ⟨hmarking.entry, ?_⟩
      rw [keptIndex_zero]
  | tail _ hfollows ih =>
      obtain ⟨hmark, hpath⟩ := ih
      obtain ⟨block, hblock, hs⟩ := hfollows
      refine ⟨hmarking.closed _ block hblock hmark _ hs, hpath.tail ?_⟩
      refine ⟨_, keptBlocks_getElem? hblock hmark, ?_⟩
      rw [successors_remapTerminator]
      exact List.mem_map_of_mem hs

theorem finish_eq_ok {b : FuncBuilder Stmt Expr} {id : FunctionId} {name : String}
    {kind : FunctionKind} {func : TbFunction Stmt Expr}
    (h : b.finish id name kind = (.ok func : Except (LowerError LeafError) _)) :
    func.id = id ∧ func.entry = 0 ∧ ∃ marks,
      reachableBlocks (b.code.blocks.map sealBlock)
        (List.replicate (b.code.blocks.map sealBlock).length false) [0] =
          (.ok marks : Except (LowerError LeafError) (List Bool)) ∧
      func.blocks = keptBlocks (b.code.blocks.map sealBlock) marks := by
  obtain ⟨marks, hmarks, hfunc⟩ := bind_eq_ok.mp h
  obtain rfl := Except.ok.inj hfunc
  exact ⟨rfl, rfl, marks, hmarks, rfl⟩

theorem finish_clean {b : FuncBuilder Stmt Expr} {id : FunctionId} {name : String}
    {kind : FunctionKind} {func : TbFunction Stmt Expr}
    (h : b.finish id name kind = (.ok func : Except (LowerError LeafError) _)) :
    func.VerifyClean := by
  obtain ⟨-, hentry, marks, hmarks, hblocks⟩ := finish_eq_ok h
  have hmarking := reachableBlocks_marking hmarks
  constructor
  · have hlt := keptIndex_lt hmarking hmarking.entry
    rw [keptIndex_zero] at hlt
    rw [hentry, hblocks]
    exact hlt
  · rw [hblocks]
    exact keptBlocks_targets hmarking

theorem finish_reached {b : FuncBuilder Stmt Expr} {id : FunctionId} {name : String}
    {kind : FunctionKind} {func : TbFunction Stmt Expr}
    (h : b.finish id name kind = (.ok func : Except (LowerError LeafError) _)) {j : Nat}
    (hj : j < func.blocks.length) :
    Relation.ReflTransGen (Follows func.blocks) func.entry j := by
  obtain ⟨-, hentry, marks, hmarks, hblocks⟩ := finish_eq_ok h
  rw [hblocks] at hj ⊢
  rw [hentry]
  obtain ⟨i, hmark, rfl⟩ := exists_keptIndex hj
  have hunmarked : ∀ i : Nat,
      (List.replicate (b.code.blocks.map sealBlock).length false)[i]? = some true →
        Relation.ReflTransGen (Follows (b.code.blocks.map sealBlock)) 0 i := by
    intro i hi
    rw [List.getElem?_replicate] at hi
    split at hi <;> cases hi
  have hpath := reachableBlocks_closed (fun i s hi hs => Relation.ReflTransGen.tail hi hs)
    hunmarked (List.forall_mem_singleton.mpr .refl) hmarks i hmark
  exact (reached_keptIndex (reachableBlocks_marking hmarks) hpath).2

/-- Finishing a function keeps exactly the blocks that its entry reaches: every successor is a
block, every block is reached, and the statements of every reached block are kept. -/
theorem finish_prunes {b : FuncBuilder Stmt Expr} {id : FunctionId} {name : String}
    {kind : FunctionKind} {func : TbFunction Stmt Expr}
    (h : b.finish id name kind = (.ok func : Except (LowerError LeafError) _)) :
    func.VerifyClean ∧
      (∀ j < func.blocks.length, Relation.ReflTransGen (Follows func.blocks) func.entry j) ∧
      ∀ (i : Nat) block, Relation.ReflTransGen (Follows (b.code.blocks.map sealBlock)) 0 i →
        (b.code.blocks.map sealBlock)[i]? = some block →
          ∃ j kept, Relation.ReflTransGen (Follows func.blocks) func.entry j ∧
            func.blocks[j]? = some kept ∧ kept.stmts = block.stmts := by
  refine ⟨finish_clean h, fun j => finish_reached h, fun i block hpath hblock => ?_⟩
  obtain ⟨-, hentry, marks, hmarks, hblocks⟩ := finish_eq_ok h
  obtain ⟨hmark, hkept⟩ := reached_keptIndex (reachableBlocks_marking hmarks) hpath
  rw [hentry, hblocks]
  exact ⟨_, _, hkept, keptBlocks_getElem? hblock hmark, rfl⟩

end Reached

/-- A body that ends at once, and a block that nothing leads to. -/
def abandoned : FuncBuilder Nat Nat where
  names := (FuncBuilder.new [] : FuncBuilder Nat Nat).names
  code := ⟨[⟨[1], some .ret⟩, ⟨[2], none⟩], 1⟩
  loopStack := []

theorem abandoned_finishes : ∃ func, abandoned.finish 0 "run" .testBody =
    (.ok func : Except (LowerError Empty) (TbFunction Nat Nat)) := by
  have htargets : TargetsInRange (abandoned.code.blocks.map sealBlock) := by
    change ∀ block ∈ abandoned.code.blocks.map sealBlock, ∀ s ∈ block.terminator.successors, s < 2
    decide
  obtain ⟨marks, hmarks⟩ := @reachableBlocks_eq_ok Nat Nat Empty _ (List.replicate 2 false) [0]
    htargets rfl (by decide)
  have hlength : (abandoned.code.blocks.map sealBlock).length = 2 := rfl
  rw [← hlength] at hmarks
  simp only [FuncBuilder.finish, hmarks, bind, Except.bind]
  exact ⟨_, rfl⟩

theorem finish_prunes_abandoned :
    ∃ func, abandoned.finish 0 "run" .testBody =
        (.ok func : Except (LowerError Empty) (TbFunction Nat Nat)) ∧ func.VerifyClean ∧
      ∀ j < func.blocks.length, Relation.ReflTransGen (Follows func.blocks) func.entry j := by
  obtain ⟨func, hfunc⟩ := abandoned_finishes
  obtain ⟨hclean, hreached, -⟩ := finish_prunes hfunc
  exact ⟨func, hfunc, hclean, hreached⟩

end Harc.BlockPruning
