import Mathlib.Logic.Relation
import Harc.CoroutineRefinement

/-!
The loops that the `lower_coroutine` pass refuses: a cycle of jumps and branches that a
resume point leads to without a suspension.
-/

namespace Harc.CoroutineLoops

open Harc.TestbenchIr
open Harc.CoroutineLowering
open Harc.CoroutineRefinement

variable {Stmt Expr : Type}

section Function

variable (func : TbFunction Stmt Expr)

/-- A jump or a branch leads from one block to another one. -/
def Flows (b t : BlockId) : Prop :=
  ∃ block, func.blocks[b]? = some block ∧ EndsChain block.terminator = false ∧
    t ∈ block.terminator.successors

/-- From a block, a cycle of jumps and branches is reached by jumps and branches. -/
def Spins (b : BlockId) : Prop :=
  ∃ v, Relation.ReflTransGen (Flows func) b v ∧ Relation.TransGen (Flows func) v v

/-- From a block, jumps and branches lead back to a block of the path or of the way. -/
inductive Revisits : List BlockId → BlockId → Prop
  | here {path : List BlockId} {b : BlockId} (hb : b ∈ path) : Revisits path b
  | flow {path : List BlockId} {b t : BlockId} (hflow : Flows func b t)
      (hrest : Revisits (path ++ [b]) t) : Revisits path b

/-- The entry and the successors of the suspensions. -/
def ResumeBlock (b : BlockId) : Prop :=
  b = func.entry ∨ ∃ block ∈ func.blocks, b ∈ resumeSuccessors block.terminator

/-- What the pass reports of one function. -/
def Reports {α : Type} (result : Except LowerCoroutineError α) : Prop :=
  ∃ block, result = .error (.unsuspendedLoop func.id func.name block)

end Function

variable {func : TbFunction Stmt Expr}

theorem flows_of_jump {b t : BlockId} {block : BasicBlock Stmt Expr}
    (hblock : func.blocks[b]? = some block) (hterm : block.terminator = .jump t) (u : BlockId) :
    Flows func b u ↔ u = t := by
  constructor
  · rintro ⟨block', hblock', -, hmem⟩
    rw [hblock] at hblock'
    obtain rfl := Option.some.inj hblock'
    simpa [hterm, Terminator.successors] using hmem
  · rintro rfl
    exact ⟨block, hblock, by simp [hterm, EndsChain], by simp [hterm, Terminator.successors]⟩

theorem flows_of_branch {b thenBlock elseBlock : BlockId} {cond : Expr}
    {block : BasicBlock Stmt Expr} (hblock : func.blocks[b]? = some block)
    (hterm : block.terminator = .branch cond thenBlock elseBlock) (u : BlockId) :
    Flows func b u ↔ u = thenBlock ∨ u = elseBlock := by
  constructor
  · rintro ⟨block', hblock', -, hmem⟩
    rw [hblock] at hblock'
    obtain rfl := Option.some.inj hblock'
    simpa [hterm, Terminator.successors] using hmem
  · intro hu
    exact ⟨block, hblock, by simp [hterm, EndsChain], by simpa [hterm, Terminator.successors]⟩

theorem Flows.lt (hclean : func.VerifyClean) {b t : BlockId} (h : Flows func b t) :
    t < func.blocks.length := by
  obtain ⟨block, hblock, -, hmem⟩ := h
  exact hclean.successors_lt block (List.mem_of_getElem? hblock) t hmem

theorem revisits_iff {path : List BlockId} {b : BlockId} (hb : b ∉ path) :
    Revisits func path b ↔ ∃ t, Flows func b t ∧ Revisits func (path ++ [b]) t := by
  constructor
  · rintro (hmem | ⟨hflow, hrest⟩)
    · exact absurd hmem hb
    · exact ⟨_, hflow, hrest⟩
  · rintro ⟨t, hflow, hrest⟩
    exact .flow hflow hrest

/-! ### Collapsing -/

/-- The walk from a block fails exactly if it comes back to the path or to itself. -/
theorem collapse_revisits (hclean : func.VerifyClean) (source : StateId) (block : BlockId)
    (guard : List (GuardTerm Expr)) (path : List BlockId) (stateOf : List (Option StateId))
    (out : List (Transition Expr)) (hblock : block < func.blocks.length) :
    (Revisits func path block → Reports func (collapse func source block guard path stateOf out)) ∧
      (¬ Revisits func path block →
        ∃ out', collapse func source block guard path stateOf out = .ok out') := by
  fun_induction collapse func source block guard path stateOf out with
  | case1 block guard path out hpath =>
      exact ⟨fun _ => ⟨block, rfl⟩, fun hnot => absurd (.here hpath) hnot⟩
  | case2 block guard path out hpath hlt target hterm ih =>
      have hflows := flows_of_jump (List.getElem?_eq_getElem hlt) hterm
      have htarget := Flows.lt hclean ((hflows target).mpr rfl)
      have hiff : Revisits func path block ↔ Revisits func (path ++ [block]) target := by
        rw [revisits_iff hpath]
        constructor
        · rintro ⟨t, hflow, hrest⟩
          exact (hflows t).mp hflow ▸ hrest
        · intro hrest
          exact ⟨target, (hflows target).mpr rfl, hrest⟩
      rw [hiff]
      exact ih htarget
  | case3 block guard path out hpath hlt cond thenBlock elseBlock hterm e hthen ih =>
      have hflows := flows_of_branch (List.getElem?_eq_getElem hlt) hterm
      have hih := ih (Flows.lt hclean ((hflows thenBlock).mpr (.inl rfl)))
      rw [hthen] at hih
      have hrevisits : Revisits func (path ++ [block]) thenBlock := by
        by_contra hnot
        obtain ⟨out', hout⟩ := hih.2 hnot
        simp at hout
      refine ⟨fun _ => hih.1 hrevisits, ?_⟩
      intro hnot
      exact absurd (.flow ((hflows thenBlock).mpr (.inl rfl)) hrevisits) hnot
  | case4 block guard path out hpath hlt cond thenBlock elseBlock hterm out₁ hthen ihthen ihelse =>
      have hflows := flows_of_branch (List.getElem?_eq_getElem hlt) hterm
      have hih := ihthen (Flows.lt hclean ((hflows thenBlock).mpr (.inl rfl)))
      have hnotThen : ¬ Revisits func (path ++ [block]) thenBlock := by
        intro hrevisits
        obtain ⟨loop, hloop⟩ := hih.1 hrevisits
        rw [hthen] at hloop
        simp at hloop
      have hiff : Revisits func path block ↔ Revisits func (path ++ [block]) elseBlock := by
        rw [revisits_iff hpath]
        constructor
        · rintro ⟨t, hflow, hrest⟩
          rcases (hflows t).mp hflow with rfl | rfl
          · exact absurd hrest hnotThen
          · exact hrest
        · intro hrest
          exact ⟨elseBlock, (hflows elseBlock).mpr (.inr rfl), hrest⟩
      rw [hiff]
      exact ihelse (Flows.lt hclean ((hflows elseBlock).mpr (.inr rfl)))
  | case5 block guard path out hpath hlt hjump hbranch =>
      refine ⟨?_, fun _ => ⟨_, rfl⟩⟩
      intro hrevisits
      obtain ⟨t, ⟨found, hfound, hend, -⟩, -⟩ := (revisits_iff hpath).mp hrevisits
      rw [List.getElem?_eq_getElem hlt] at hfound
      obtain rfl := Option.some.inj hfound
      exfalso
      unfold EndsChain at hend
      split at hend
      · rename_i hterm
        exact hjump _ hterm
      · rename_i hterm
        exact hbranch _ _ _ hterm
      · simp at hend
  | case6 block guard path out hpath hlt => exact absurd hblock hlt

/-! ### Coming back is spinning -/

theorem Revisits.spins {path : List BlockId} {b : BlockId} (h : Revisits func path b) :
    (∀ p ∈ path, Relation.TransGen (Flows func) p b) → Spins func b := by
  induction h with
  | here hb =>
      intro hpath
      exact ⟨_, .refl, hpath _ hb⟩
  | @flow path b t hflow _ ih =>
      intro hpath
      obtain ⟨v, hv, hcycle⟩ := ih (by
        intro p hp
        rcases List.mem_append.mp hp with hp | hp
        · exact (hpath p hp).tail hflow
        · exact List.mem_singleton.mp hp ▸ .single hflow)
      exact ⟨v, .head hflow hv, hcycle⟩

theorem Spins.exists_flow {b : BlockId} (h : Spins func b) :
    ∃ t, Flows func b t ∧ Spins func t := by
  obtain ⟨v, hv, hcycle⟩ := h
  rcases Relation.ReflTransGen.cases_head hv with rfl | ⟨t, hflow, hrest⟩
  · obtain ⟨t, hflow, hrest⟩ := Relation.TransGen.head'_iff.mp hcycle
    exact ⟨t, hflow, b, hrest, hcycle⟩
  · exact ⟨t, hflow, v, hrest, hcycle⟩

/-- A way that never ends comes back: there are only so many blocks. -/
theorem Spins.revisits {b : BlockId} (h : Spins func b) (path : List BlockId) :
    Revisits func path b := by
  rcases em (b ∈ path) with hmem | hmem
  · exact .here hmem
  · obtain ⟨t, hflow, hspins⟩ := h.exists_flow
    have hlt : b < func.blocks.length := by
      obtain ⟨block, hblock, -, -⟩ := hflow
      exact (List.getElem?_eq_some_iff.mp hblock).1
    have hless := unvisited_append_lt func path b hlt hmem
    exact .flow hflow (hspins.revisits (path ++ [b]))
termination_by unvisited func path

theorem revisits_nil_iff {b : BlockId} : Revisits func [] b ↔ Spins func b :=
  ⟨fun h => h.spins (by simp), fun h => h.revisits []⟩

/-! ### Functions and programs -/

theorem collapseStates_spins (hclean : func.VerifyClean) (stateOf : List (Option StateId))
    (pairs : List (BlockId × StateId)) (hpairs : ∀ p ∈ pairs, p.1 < func.blocks.length) :
    ∀ out, ((∃ p ∈ pairs, Spins func p.1) → Reports func (collapseStates func stateOf pairs out)) ∧
      ((∀ p ∈ pairs, ¬ Spins func p.1) →
        ∃ out', collapseStates func stateOf pairs out = .ok out') := by
  induction pairs with
  | nil =>
      intro out
      exact ⟨by simp, fun _ => ⟨out, rfl⟩⟩
  | cons p pairs ih =>
      intro out
      obtain ⟨b, source⟩ := p
      obtain ⟨hspin, hrest⟩ := collapse_revisits hclean source b [] [] stateOf out
        (hpairs (b, source) (by simp))
      rw [revisits_nil_iff] at hspin hrest
      rw [collapseStates]
      rcases em (Spins func b) with hb | hb
      · obtain ⟨loop, hloop⟩ := hspin hb
        rw [hloop]
        exact ⟨fun _ => ⟨loop, rfl⟩, fun hnot => absurd hb (hnot (b, source) (by simp))⟩
      · obtain ⟨out', hout⟩ := hrest hb
        rw [hout]
        obtain ⟨hspins, hfine⟩ := ih (fun q hq => hpairs q (by simp [hq])) out'
        refine ⟨?_, fun hnot => hfine fun q hq => hnot q (by simp [hq])⟩
        rintro ⟨q, hq, hspin'⟩
        rcases List.mem_cons.mp hq with rfl | hq
        · exact absurd hspin' hb
        · exact hspins ⟨q, hq, hspin'⟩

theorem mem_resumeStates (hclean : func.VerifyClean) (b : BlockId) :
    b ∈ resumeStates func ↔ ResumeBlock func b :=
  mem_resumeStates_iff func hclean b

theorem tagFunction_spins (hclean : func.VerifyClean) :
    ((∃ b, ResumeBlock func b ∧ Spins func b) → Reports func (tagFunction func)) ∧
      ((∀ b, ResumeBlock func b → ¬ Spins func b) → ∃ result, tagFunction func = .ok result) := by
  have hmem : ∀ p ∈ (resumeStates func).zipIdx, p.1 ∈ resumeStates func :=
    fun p hp => List.fst_mem_of_mem_zipIdx hp
  obtain ⟨hspins, hfine⟩ := collapseStates_spins hclean
    (stateOfBlocks func.blocks.length (resumeStates func)) (resumeStates func).zipIdx
    (fun p hp => resumeStates_lt func hclean (hmem p hp)) []
  rw [tagFunction]
  constructor
  · rintro ⟨b, hresume, hb⟩
    obtain ⟨i, hi, hget⟩ := List.mem_iff_getElem.mp ((mem_resumeStates hclean b).mpr hresume)
    obtain ⟨loop, hloop⟩ := hspins ⟨(b, i), by
      rw [List.mem_zipIdx_iff_getElem?, List.getElem?_eq_getElem hi, hget], hb⟩
    simp only [hloop]
    exact ⟨loop, rfl⟩
  · intro hnot
    obtain ⟨out, hout⟩ := hfine fun p hp => hnot p.1 ((mem_resumeStates hclean p.1).mp (hmem p hp))
    simp only [hout]
    exact ⟨_, rfl⟩

/-- A function that the pass tags has a loop without a suspension. -/
def Unsuspended (func : TbFunction Stmt Expr) : Prop :=
  isTagged func.kind = true ∧ ∃ b, ResumeBlock func b ∧ Spins func b

theorem runFunctions_unsuspended (functions : List (TbFunction Stmt Expr))
    (hclean : ∀ func ∈ functions, func.VerifyClean) :
    ∀ tables, ((∃ func ∈ functions, Unsuspended func) →
        ∃ id name block, runFunctions functions tables = .error (.unsuspendedLoop id name block)) ∧
      ((∀ func ∈ functions, ¬ Unsuspended func) →
        ∃ tables', runFunctions functions tables = .ok tables') := by
  induction functions with
  | nil =>
      intro tables
      exact ⟨by simp, fun _ => ⟨tables, rfl⟩⟩
  | cons func functions ih =>
      intro tables
      have ih := ih fun f hf => hclean f (by simp [hf])
      obtain ⟨hspins, hfine⟩ := tagFunction_spins (hclean func (by simp))
      rw [runFunctions]
      split_ifs with htagged
      · rcases em (∃ b, ResumeBlock func b ∧ Spins func b) with hloop | hloop
        · obtain ⟨block, hblock⟩ := hspins hloop
          rw [hblock]
          exact ⟨fun _ => ⟨_, _, block, rfl⟩,
            fun hnot => absurd ⟨htagged, hloop⟩ (hnot func (by simp))⟩
        · obtain ⟨⟨states, transitions⟩, htag⟩ := hfine fun b hb hspin => hloop ⟨b, hb, hspin⟩
          rw [htag]
          refine ⟨?_, fun hnot => (ih _).2 fun f hf => hnot f (by simp [hf])⟩
          rintro ⟨f, hf, hunsuspended⟩
          rcases List.mem_cons.mp hf with rfl | hf
          · exact absurd hunsuspended.2 hloop
          · exact (ih _).1 ⟨f, hf, hunsuspended⟩
      · refine ⟨?_, fun hnot => (ih _).2 fun f hf => hnot f (by simp [hf])⟩
        rintro ⟨f, hf, hunsuspended⟩
        rcases List.mem_cons.mp hf with rfl | hf
        · exact absurd hunsuspended.1 htagged
        · exact (ih _).1 ⟨f, hf, hunsuspended⟩

/-- The pass reports a loop exactly if a tagged function has a cycle of jumps and branches
that its entry or a resume block leads to without a suspension; otherwise it succeeds. -/
theorem run_unsuspendedLoop_iff (prog : TbProgram Stmt Expr) (hclean : prog.VerifyClean) :
    ((∃ id name block, run prog = .error (.unsuspendedLoop id name block)) ↔
      ∃ func ∈ prog.functions, isTagged func.kind = true ∧
        ∃ b, ResumeBlock func b ∧ Spins func b) ∧
      ((∃ metadata, run prog = .ok metadata) ∨
        ∃ id name block, run prog = .error (.unsuspendedLoop id name block)) := by
  obtain ⟨hloop, hfine⟩ := runFunctions_unsuspended prog.functions hclean.function_clean
    ⟨fun _ => none, fun _ => none⟩
  rcases em (∃ func ∈ prog.functions, Unsuspended func) with hsome | hnone
  · exact ⟨⟨fun _ => hsome, fun _ => hloop hsome⟩, Or.inr (hloop hsome)⟩
  · obtain ⟨tables, htables⟩ := hfine fun func hfunc hloops => hnone ⟨func, hfunc, hloops⟩
    refine ⟨⟨?_, fun h => absurd h hnone⟩, Or.inl ⟨tables, htables⟩⟩
    rintro ⟨id, name, block, herror⟩
    rw [run, htables] at herror
    simp at herror

theorem run_unsuspendedLoop_iff_pollLoop :
    (∃ id name block, run pollLoop = .error (.unsuspendedLoop id name block)) ↔
      ∃ func ∈ pollLoop.functions, isTagged func.kind = true ∧
        ∃ b, ResumeBlock func b ∧ Spins func b :=
  (run_unsuspendedLoop_iff pollLoop pollLoop_clean).1

end Harc.CoroutineLoops
