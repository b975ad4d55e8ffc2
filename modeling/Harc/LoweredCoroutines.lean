import Harc.BlockPruning
import Harc.CoroutineLoops

/-!
The `lower_coroutine` pass on functions that the builder has finished.
-/

namespace Harc.LoweredCoroutines

open Harc.TestbenchIr
open Harc.FunctionBuilder
open Harc.BlockPruning
open Harc.CoroutineLowering
open Harc.CoroutineRefinement
open Harc.CoroutineLoops

variable {Stmt Expr LeafError : Type}

/-- The functions of the program are finished by a builder, each with its slot as its number. -/
def Finished (LeafError : Type) (prog : TbProgram Stmt Expr) : Prop :=
  ∀ (i : Nat) func, prog.functions[i]? = some func →
    ∃ (b : FuncBuilder Stmt Expr) (name : String) (kind : FunctionKind),
      b.finish i name kind = (.ok func : Except (LowerError LeafError) _)

/-- From the entry of a function a cycle of jumps and branches is reached. -/
def EntersLoop (func : TbFunction Stmt Expr) : Prop :=
  ∃ v, Relation.ReflTransGen (Follows func.blocks) func.entry v ∧
    Relation.TransGen (Flows func) v v

section

variable {prog : TbProgram Stmt Expr}

theorem Finished.slot (h : Finished LeafError prog) {func : TbFunction Stmt Expr}
    (hfunc : func ∈ prog.functions) : func.VerifyClean ∧
      ∀ j < func.blocks.length, Relation.ReflTransGen (Follows func.blocks) func.entry j := by
  obtain ⟨i, hi⟩ := List.mem_iff_getElem?.mp hfunc
  obtain ⟨b, name, kind, hfinish⟩ := h i func hi
  exact ⟨finish_clean hfinish, fun j hj => finish_reached hfinish hj⟩

theorem Finished.clean (h : Finished LeafError prog) : prog.VerifyClean := by
  constructor
  · exact fun func hfunc => (h.slot hfunc).1
  · intro i func hi
    obtain ⟨b, name, kind, hfinish⟩ := h i func hi
    exact (finish_eq_ok hfinish).1

theorem Unsuspended.entersLoop {func : TbFunction Stmt Expr} (h : Unsuspended func)
    (hreached : ∀ j < func.blocks.length,
      Relation.ReflTransGen (Follows func.blocks) func.entry j) : EntersLoop func := by
  obtain ⟨-, b, -, v, -, hloop⟩ := h
  refine ⟨v, hreached v ?_, hloop⟩
  obtain ⟨t, ⟨block, hblock, -⟩, -⟩ := Relation.TransGen.head'_iff.mp hloop
  exact (List.getElem?_eq_some_iff.mp hblock).1

/-- On a program of finished functions the pass does not panic.  Either every suspending function
gets a table that refines its graph, or the pass reports a loop without a suspension, and then
some function enters such a loop from its entry. -/
theorem coroutines_of_finished (h : Finished LeafError prog) :
    (∃ metadata, run prog = .ok metadata ∧
      ∀ func ∈ prog.functions, isTagged func.kind = true →
        ∃ states table, metadata.stateEnum func.id = some states ∧
          metadata.transitionTable func.id = some table ∧ Refines func states table) ∨
    (∃ id name block, run prog = .error (.unsuspendedLoop id name block)) ∧
      ∃ func ∈ prog.functions, isTagged func.kind = true ∧ EntersLoop func := by
  have hclean := h.clean
  obtain ⟨hloop, hfine⟩ := runFunctions_unsuspended prog.functions hclean.function_clean
    ⟨fun _ => none, fun _ => none⟩
  rcases em (∃ func ∈ prog.functions, Unsuspended func) with hsome | hnone
  · obtain ⟨func, hfunc, hunsuspended⟩ := hsome
    refine .inr ⟨hloop ⟨func, hfunc, hunsuspended⟩, func, hfunc, hunsuspended.1, ?_⟩
    exact Unsuspended.entersLoop hunsuspended (h.slot hfunc).2
  · obtain ⟨metadata, hrun⟩ := hfine fun func hfunc hloops => hnone ⟨func, hfunc, hloops⟩
    refine .inl ⟨metadata, hrun, fun func hfunc htagged => ?_⟩
    obtain ⟨states, table, htag, hstates, htable⟩ :=
      runFunctions_of_mem prog.functions (nodup_ids prog hclean) _ _ hrun hfunc htagged
    exact ⟨states, table, hstates, htable,
      tagFunction_refines func (hclean.function_clean func hfunc) states table htag⟩

end

/-- A body that waits for three cycles.  It jumps over a block that nothing leads to. -/
def waiting : FuncBuilder Nat Nat where
  names := (FuncBuilder.new [] : FuncBuilder Nat Nat).names
  code := ⟨[⟨[1], some (.jump 2)⟩, ⟨[9], none⟩, ⟨[2], some (.waitCycles 3 none 3)⟩,
    ⟨[4], some .ret⟩], 3⟩
  loopStack := []

theorem waiting_finishes : ∃ func, waiting.finish 0 "run" .testBody =
    (.ok func : Except (LowerError Empty) (TbFunction Nat Nat)) := by
  have htargets : TargetsInRange (waiting.code.blocks.map sealBlock) := by
    change ∀ block ∈ waiting.code.blocks.map sealBlock, ∀ s ∈ block.terminator.successors, s < 4
    decide
  obtain ⟨marks, hmarks⟩ := @reachableBlocks_eq_ok Nat Nat Empty _ (List.replicate 4 false) [0]
    htargets rfl (by decide)
  have hlength : (waiting.code.blocks.map sealBlock).length = 4 := rfl
  rw [← hlength] at hmarks
  simp only [FuncBuilder.finish, hmarks, bind, Except.bind]
  exact ⟨_, rfl⟩

theorem coroutines_of_finished_waiting :
    ∃ func : TbFunction Nat Nat,
      waiting.finish 0 "run" .testBody =
        (.ok func : Except (LowerError Empty) (TbFunction Nat Nat)) ∧
      ((∃ metadata, run ⟨[func]⟩ = .ok metadata ∧
        ∀ f ∈ [func], isTagged f.kind = true →
          ∃ states table, metadata.stateEnum f.id = some states ∧
            metadata.transitionTable f.id = some table ∧ Refines f states table) ∨
      (∃ id name block, run ⟨[func]⟩ = .error (.unsuspendedLoop id name block)) ∧
        ∃ f ∈ [func], isTagged f.kind = true ∧ EntersLoop f) := by
  obtain ⟨func, hfunc⟩ := waiting_finishes
  have hfinished : Finished Empty (⟨[func]⟩ : TbProgram Nat Nat) := by
    rintro (_ | i) f hf
    · obtain rfl := Option.some.inj hf
      exact ⟨waiting, "run", .testBody, hfunc⟩
    · cases hf
  exact ⟨func, hfunc, coroutines_of_finished hfinished⟩

end Harc.LoweredCoroutines
