import Harc.ControlLayout

/-!
Frame properties of the layout: code laid out from a block changes that block and
the ones it appends, closes every block that it leaves behind, and finds the
blocks it has reserved still empty.
-/

namespace Harc.ControlFrame

open Harc.TestbenchIr
open Harc.FunctionBuilder
open Harc.StructuredControl
open Harc.ControlLayout

variable {Stmt Expr : Type}

def IsOpen (code : CodeTable Stmt Expr) : Prop :=
  code.isOpenAt code.current = true

/-- The block is empty and open. -/
def Fresh (code : CodeTable Stmt Expr) (j : Nat) : Prop :=
  code.blocks[j]? = some ⟨[], none⟩

/-- A terminated block stays as it is; an open one only gets longer. -/
def BlockLe (b b' : BlockInProgress Stmt Expr) : Prop :=
  b = b' ∨ b.term = none ∧ b.stmts <+: b'.stmts

theorem BlockLe.trans {b b' b'' : BlockInProgress Stmt Expr} (h : BlockLe b b')
    (h' : BlockLe b' b'') : BlockLe b b'' := by
  rcases h with rfl | ⟨hterm, hfront⟩
  · exact h'
  · rcases h' with rfl | ⟨_, hfront'⟩
    · exact .inr ⟨hterm, hfront⟩
    · exact .inr ⟨hterm, hfront.trans hfront'⟩

@[simp] theorem pushed_current (code : CodeTable Stmt Expr) (s : Stmt) :
    (pushed code s).current = code.current := rfl

@[simp] theorem terminated_current (code : CodeTable Stmt Expr) (t : Terminator Expr) :
    (terminated code t).current = code.current := rfl

@[simp] theorem started_current (code : CodeTable Stmt Expr) (j : Nat) :
    (started code j).current = j := rfl

@[simp] theorem started_blocks (code : CodeTable Stmt Expr) (j : Nat) :
    (started code j).blocks = code.blocks := rfl

@[simp] theorem reserved_current (k : Nat) (code : CodeTable Stmt Expr) :
    (reserved k code).current = code.current := rfl

@[simp] theorem forked_current (k : Nat) (t : Terminator Expr) (code : CodeTable Stmt Expr) :
    (forked k t code).current = code.current := rfl

@[simp] theorem length_pushed (code : CodeTable Stmt Expr) (s : Stmt) :
    (pushed code s).blocks.length = code.blocks.length := by
  simp [pushed]

@[simp] theorem length_terminated (code : CodeTable Stmt Expr) (t : Terminator Expr) :
    (terminated code t).blocks.length = code.blocks.length := by
  simp [terminated]

@[simp] theorem length_reserved (k : Nat) (code : CodeTable Stmt Expr) :
    (reserved k code).blocks.length = code.blocks.length + k := by
  simp [reserved]

@[simp] theorem length_forked (k : Nat) (t : Terminator Expr) (code : CodeTable Stmt Expr) :
    (forked k t code).blocks.length = code.blocks.length + k := by
  simp [forked]

theorem pushed_getElem? (code : CodeTable Stmt Expr) (s : Stmt) (j : Nat) :
    (pushed code s).blocks[j]? =
      if j = code.current then
        (code.blocks[j]?).map fun block => { block with stmts := block.stmts ++ [s] }
      else code.blocks[j]? := by
  simp only [pushed, List.getElem?_modify]
  by_cases h : code.current = j
  · simp [h]
  · have h' : j ≠ code.current := fun heq => h heq.symm
    simp [h, h']

theorem terminated_getElem? (code : CodeTable Stmt Expr) (t : Terminator Expr)
    (j : Nat) :
    (terminated code t).blocks[j]? =
      if j = code.current then
        (code.blocks[j]?).map fun block => { block with term := some t }
      else code.blocks[j]? := by
  simp only [terminated, List.getElem?_modify]
  by_cases h : code.current = j
  · simp [h]
  · have h' : j ≠ code.current := fun heq => h heq.symm
    simp [h, h']

theorem reserved_getElem?_of_lt {code : CodeTable Stmt Expr} {j : Nat} (k : Nat)
    (hj : j < code.blocks.length) : (reserved k code).blocks[j]? = code.blocks[j]? :=
  List.getElem?_append_left hj

theorem isOpenAt_iff {code : CodeTable Stmt Expr} {j : Nat} :
    code.isOpenAt j = true ↔ ∃ stmts, code.blocks[j]? = some ⟨stmts, none⟩ := by
  unfold CodeTable.isOpenAt
  rcases h : code.blocks[j]? with _ | ⟨stmts, term⟩
  · simp
  · cases term <;> simp

theorem IsOpen.current_lt {code : CodeTable Stmt Expr} (hopen : IsOpen code) :
    code.current < code.blocks.length := by
  obtain ⟨stmts, hstmts⟩ := isOpenAt_iff.mp hopen
  exact (List.getElem?_eq_some_iff.mp hstmts).1

/-- The blocks that laying out code from here may change. -/
def Own (code : CodeTable Stmt Expr) (j : Nat) : Prop :=
  j = code.current ∨ code.blocks.length ≤ j

/-- `code'` has been laid out from `code`: it changes only owned blocks, and its
open owned blocks are in `pending`. -/
structure Laid (code code' : CodeTable Stmt Expr) (pending : Nat → Prop) : Prop where
  length_le : code.blocks.length ≤ code'.blocks.length
  blocks_le : ∀ (j : Nat) b, code.blocks[j]? = some b →
    ∃ b', code'.blocks[j]? = some b' ∧ BlockLe b b'
  untouched : ∀ j : Nat, j < code.blocks.length → ¬ Own code j →
    code'.blocks[j]? = code.blocks[j]?
  current_lt : code'.current < code'.blocks.length
  current_own : Own code code'.current
  open_pending : ∀ j, Own code j → code'.isOpenAt j = true → pending j

namespace Laid

variable {code code' code'' : CodeTable Stmt Expr} {pending : Nat → Prop}

theorem refl (hcurrent : code.current < code.blocks.length) :
    Laid code code (· = code.current) where
  length_le := Nat.le_refl _
  blocks_le := fun j b hb => ⟨b, hb, .inl rfl⟩
  untouched := fun _ _ _ => rfl
  current_lt := hcurrent
  current_own := .inl rfl
  open_pending := by
    rintro j (rfl | hj) hopen
    · rfl
    · obtain ⟨stmts, hstmts⟩ := isOpenAt_iff.mp hopen
      have := (List.getElem?_eq_some_iff.mp hstmts).1
      omega

theorem weaken {pending' : Nat → Prop} (hlaid : Laid code code' pending)
    (hpending : ∀ j, pending j → pending' j) : Laid code code' pending' :=
  { hlaid with open_pending := fun j hown hopen => hpending j (hlaid.open_pending j hown hopen) }

theorem own_of_own (hlaid : Laid code code' pending) {j : Nat} (hown : Own code' j) :
    Own code j := by
  rcases hown with rfl | hj
  · exact hlaid.current_own
  · exact .inr (Nat.le_trans hlaid.length_le hj)

theorem trans {pending' : Nat → Prop} (hfirst : Laid code code' pending)
    (hsecond : Laid code' code'' pending') :
    Laid code code'' fun j => pending' j ∨ pending j ∧ j ≠ code'.current where
  length_le := Nat.le_trans hfirst.length_le hsecond.length_le
  blocks_le := by
    intro j b hb
    obtain ⟨b', hb', hle⟩ := hfirst.blocks_le j b hb
    obtain ⟨b'', hb'', hle'⟩ := hsecond.blocks_le j b' hb'
    exact ⟨b'', hb'', hle.trans hle'⟩
  untouched := by
    intro j hj hown
    rw [hsecond.untouched j (Nat.lt_of_lt_of_le hj hfirst.length_le)
      (fun h => hown (hfirst.own_of_own h)), hfirst.untouched j hj hown]
  current_lt := hsecond.current_lt
  current_own := hfirst.own_of_own hsecond.current_own
  open_pending := by
    intro j hown hopen
    by_cases hown' : Own code' j
    · exact .inl (hsecond.open_pending j hown' hopen)
    · have hne : j ≠ code'.current := fun h => hown' (.inl h)
      have hlt : j < code'.blocks.length := by
        by_contra h
        exact hown' (.inr (by omega))
      refine .inr ⟨hfirst.open_pending j hown ?_, hne⟩
      simpa [CodeTable.isOpenAt, hsecond.untouched j hlt hown'] using hopen

theorem reserved (hlaid : Laid code code' pending) (k : Nat) :
    Laid code (reserved k code') fun j =>
      code'.blocks.length ≤ j ∧ j < code'.blocks.length + k ∨ pending j where
  length_le := by
    have := hlaid.length_le
    simp
    omega
  blocks_le := by
    intro j b hb
    obtain ⟨b', hb', hle⟩ := hlaid.blocks_le j b hb
    refine ⟨b', ?_, hle⟩
    rw [reserved_getElem?_of_lt k (List.getElem?_eq_some_iff.mp hb').1, hb']
  untouched := by
    intro j hj hown
    rw [reserved_getElem?_of_lt k (Nat.lt_of_lt_of_le hj hlaid.length_le),
      hlaid.untouched j hj hown]
  current_lt := by
    have := hlaid.current_lt
    simp
    omega
  current_own := hlaid.current_own
  open_pending := by
    intro j hown hopen
    by_cases hj : j < code'.blocks.length
    · refine .inr (hlaid.open_pending j hown ?_)
      simpa [CodeTable.isOpenAt, reserved_getElem?_of_lt k hj] using hopen
    · obtain ⟨stmts, hstmts⟩ := isOpenAt_iff.mp hopen
      have hlt := (List.getElem?_eq_some_iff.mp hstmts).1
      simp only [length_reserved] at hlt
      exact .inl ⟨by omega, hlt⟩

theorem pushed (hlaid : Laid code code' pending) (hopen : IsOpen code') (s : Stmt) :
    Laid code (pushed code' s) pending where
  length_le := by simpa using hlaid.length_le
  blocks_le := by
    intro j b hb
    obtain ⟨b', hb', hle⟩ := hlaid.blocks_le j b hb
    rw [pushed_getElem?]
    split
    · rename_i hj
      obtain ⟨stmts, hstmts⟩ := isOpenAt_iff.mp hopen
      rw [← hj, hb'] at hstmts
      cases hstmts
      refine ⟨⟨stmts ++ [s], none⟩, by simp [hb'], hle.trans (.inr ⟨rfl, ?_⟩)⟩
      exact List.prefix_append stmts [s]
    · exact ⟨b', hb', hle⟩
  untouched := by
    intro j hj hown
    have hne : j ≠ code'.current := fun h => hown (h ▸ hlaid.current_own)
    rw [pushed_getElem?, if_neg hne, hlaid.untouched j hj hown]
  current_lt := by simpa using hlaid.current_lt
  current_own := hlaid.current_own
  open_pending := by
    intro j hown hopen'
    refine hlaid.open_pending j hown ?_
    by_cases hj : j = code'.current
    · rw [hj]
      exact hopen
    · simpa [CodeTable.isOpenAt, pushed_getElem?, hj] using hopen'

theorem terminated (hlaid : Laid code code' pending) (hopen : IsOpen code')
    (t : Terminator Expr) :
    Laid code (terminated code' t) fun j => pending j ∧ j ≠ code'.current where
  length_le := by simpa using hlaid.length_le
  blocks_le := by
    intro j b hb
    obtain ⟨b', hb', hle⟩ := hlaid.blocks_le j b hb
    rw [terminated_getElem?]
    split
    · rename_i hj
      obtain ⟨stmts, hstmts⟩ := isOpenAt_iff.mp hopen
      rw [← hj, hb'] at hstmts
      cases hstmts
      refine ⟨⟨stmts, some t⟩, by simp [hb'], hle.trans (.inr ⟨rfl, ?_⟩)⟩
      exact List.prefix_refl stmts
    · exact ⟨b', hb', hle⟩
  untouched := by
    intro j hj hown
    have hne : j ≠ code'.current := fun h => hown (h ▸ hlaid.current_own)
    rw [terminated_getElem?, if_neg hne, hlaid.untouched j hj hown]
  current_lt := by simpa using hlaid.current_lt
  current_own := hlaid.current_own
  open_pending := by
    intro j hown hopen'
    by_cases hj : j = code'.current
    · obtain ⟨stmts, hstmts⟩ := isOpenAt_iff.mp hopen'
      simp [terminated_getElem?, hj] at hstmts
    · refine ⟨hlaid.open_pending j hown ?_, hj⟩
      simpa [CodeTable.isOpenAt, terminated_getElem?, hj] using hopen'

theorem started {j : Nat} (hlaid : Laid code code' pending)
    (hj : j < code'.blocks.length) (hown : Own code j) :
    Laid code (started code' j) pending :=
  { hlaid with current_lt := hj, current_own := hown }

end Laid

theorem IsOpen.reserved {code : CodeTable Stmt Expr} (hopen : IsOpen code) (k : Nat) :
    IsOpen (reserved k code) := by
  simpa [IsOpen, CodeTable.isOpenAt, reserved_getElem?_of_lt k hopen.current_lt] using hopen

/-- Ending the current block leaves open what has been appended. -/
theorem Laid.forked {code code' : CodeTable Stmt Expr}
    (hlaid : Laid code code' (· = code'.current)) (hopen : IsOpen code') (k : Nat)
    (t : Terminator Expr) :
    Laid code (forked k t code') fun j =>
      code'.blocks.length ≤ j ∧ j < code'.blocks.length + k := by
  refine ((hlaid.reserved k).terminated (hopen.reserved k) t).weaken ?_
  rintro j ⟨hj | hj, hne⟩
  · exact hj
  · exact absurd hj hne

theorem IsOpen.pushed {code : CodeTable Stmt Expr} (hopen : IsOpen code) (s : Stmt) :
    IsOpen (pushed code s) := by
  obtain ⟨stmts, hstmts⟩ := isOpenAt_iff.mp hopen
  exact isOpenAt_iff.mpr ⟨stmts ++ [s], by simp [pushed_getElem?, hstmts]⟩

namespace Fresh

variable {code : CodeTable Stmt Expr} {j : Nat}

theorem lt (hfresh : Fresh code j) : j < code.blocks.length :=
  (List.getElem?_eq_some_iff.mp hfresh).1

theorem reserved {k : Nat} (hle : code.blocks.length ≤ j) (hlt : j < code.blocks.length + k) :
    Fresh (reserved k code) j := by
  rw [Fresh, ControlLayout.reserved, List.getElem?_append_right hle, List.getElem?_replicate]
  exact if_pos (by omega)

theorem terminated (hfresh : Fresh code j) (hj : j ≠ code.current) (t : Terminator Expr) :
    Fresh (terminated code t) j := by
  rwa [Fresh, terminated_getElem?, if_neg hj]

theorem forked {k : Nat} (hle : code.blocks.length ≤ j) (hlt : j < code.blocks.length + k)
    (hcurrent : code.current < code.blocks.length) (t : Terminator Expr) :
    Fresh (forked k t code) j :=
  (Fresh.reserved hle hlt).terminated (by simp; omega) t

theorem laid {code' : CodeTable Stmt Expr} {pending : Nat → Prop}
    (hfresh : Fresh code j) (hlaid : Laid code code' pending) (hown : ¬ Own code j) :
    Fresh code' j := by
  rwa [Fresh, hlaid.untouched j hfresh.lt hown]

theorem isOpen (hfresh : Fresh code j) : IsOpen (started code j) :=
  isOpenAt_iff.mpr ⟨[], hfresh⟩

end Fresh

theorem isTerminated_iff {code : CodeTable Stmt Expr}
    (hcurrent : code.current < code.blocks.length) :
    code.isTerminated = true ↔ ¬ IsOpen code := by
  unfold CodeTable.isTerminated IsOpen CodeTable.isOpenAt
  rw [List.getElem?_eq_getElem hcurrent]
  simp [Option.isSome_iff_ne_none]

theorem Laid.jumped {code code' : CodeTable Stmt Expr}
    (hlaid : Laid code code' (· = code'.current)) (target : Nat) :
    Laid code (jumped target code') fun _ => False := by
  unfold ControlLayout.jumped
  split
  · rename_i hterm
    have hclosed := (isTerminated_iff hlaid.current_lt).mp hterm
    refine { hlaid with open_pending := ?_ }
    intro j hown hopen
    have hj : j = code'.current := hlaid.open_pending j hown hopen
    rw [hj] at hopen
    exact hclosed hopen
  · rename_i hterm
    have hopen : IsOpen code' := by
      by_contra h
      exact hterm ((isTerminated_iff hlaid.current_lt).mpr h)
    exact (hlaid.terminated hopen _).weaken fun j hj => hj.2 hj.1

theorem Laid.then_laid {code code' code'' : CodeTable Stmt Expr} {pending : Nat → Prop}
    (hfirst : Laid code code' (· = code'.current)) (hsecond : Laid code' code'' pending) :
    Laid code code'' pending := by
  refine (hfirst.trans hsecond).weaken ?_
  rintro j (h | ⟨h, hne⟩)
  · exact h
  · exact absurd h hne

theorem ensured_isOpen {code : CodeTable Stmt Expr}
    (hcurrent : code.current < code.blocks.length) : IsOpen (ensured code) := by
  unfold ensured
  split
  · exact (Fresh.reserved (Nat.le_refl _) (Nat.lt_succ_self _)).isOpen
  · rename_i hterm
    by_contra h
    exact hterm ((isTerminated_iff hcurrent).mpr h)

theorem ensured_of_isOpen {code : CodeTable Stmt Expr} (hopen : IsOpen code) :
    ensured code = code :=
  if_neg fun hterm => (isTerminated_iff hopen.current_lt).mp hterm hopen

theorem ensured_laid {code : CodeTable Stmt Expr}
    (hcurrent : code.current < code.blocks.length) :
    Laid code (ensured code) (· = (ensured code).current) := by
  unfold ensured
  split
  · rename_i hterm
    have hclosed := (isTerminated_iff hcurrent).mp hterm
    have hlaid := ((Laid.refl hcurrent).reserved 1).started
      (Fresh.reserved (Nat.le_refl _) (Nat.lt_succ_self _)).lt (.inr (Nat.le_refl _))
    refine { hlaid with open_pending := ?_ }
    intro j hown hopen
    rcases hlaid.open_pending j hown hopen with ⟨hle, hlt⟩ | rfl
    · rw [started_current]
      omega
    · refine absurd ?_ hclosed
      simpa [IsOpen, CodeTable.isOpenAt, reserved_getElem?_of_lt 1 hcurrent] using hopen
  · exact Laid.refl hcurrent

theorem layoutAction_frame (a : Action Stmt Expr) {code : CodeTable Stmt Expr}
    (hopen : IsOpen code) :
    IsOpen (layoutAction code a) ∧
      Laid code (layoutAction code a) (· = (layoutAction code a).current) := by
  have hrefl := Laid.refl hopen.current_lt
  cases a with
  | effect s => exact ⟨hopen.pushed s, hrefl.pushed hopen s⟩
  | suspend s =>
      have hfresh : Fresh (forked 1 (s.terminator code.blocks.length) code)
          code.blocks.length :=
        Fresh.forked (Nat.le_refl _) (Nat.lt_succ_self _) hopen.current_lt _
      refine ⟨hfresh.isOpen, ?_⟩
      refine ((hrefl.forked hopen 1 _).started hfresh.lt (.inr (Nat.le_refl _))).weaken ?_
      rintro j ⟨hle, hlt⟩
      change j = code.blocks.length
      omega

theorem layoutActions_frame (actions : List (Action Stmt Expr)) {code : CodeTable Stmt Expr}
    (hopen : IsOpen code) :
    IsOpen (layoutActions actions code) ∧
      Laid code (layoutActions actions code) (· = (layoutActions actions code).current) := by
  induction actions generalizing code with
  | nil => exact ⟨hopen, Laid.refl hopen.current_lt⟩
  | cons a actions ih =>
      obtain ⟨hopenA, hlaidA⟩ := layoutAction_frame a hopen
      obtain ⟨hopenR, hlaidR⟩ := ih hopenA
      exact ⟨hopenR, hlaidA.then_laid hlaidR⟩

theorem layoutActions_isOpen (actions : List (Action Stmt Expr))
    {code : CodeTable Stmt Expr} (hopen : IsOpen code) : IsOpen (layoutActions actions code) :=
  (layoutActions_frame actions hopen).1

theorem layoutActions_laid (actions : List (Action Stmt Expr)) {code : CodeTable Stmt Expr}
    (hopen : IsOpen code) :
    Laid code (layoutActions actions code) (· = (layoutActions actions code).current) :=
  (layoutActions_frame actions hopen).2

/-- A layout that keeps the frame, from any current block. -/
def LaysOut (layout : CodeTable Stmt Expr → CodeTable Stmt Expr) : Prop :=
  ∀ code : CodeTable Stmt Expr, code.current < code.blocks.length →
    Laid code (layout code) (· = (layout code).current)

/-- A block is not owned from a started block when it lies below the end. -/
theorem not_own_started {code : CodeTable Stmt Expr} {start j : Nat} (hne : j ≠ start)
    (hlt : j < code.blocks.length) : ¬ Own (started code start) j := by
  rintro (h | h)
  · exact hne h
  · rw [started_blocks] at h
    omega

/-- A body laid out from a fresh block and closed by a jump. -/
theorem LaysOut.jumped {layout : CodeTable Stmt Expr → CodeTable Stmt Expr}
    (hlayout : LaysOut layout) {code : CodeTable Stmt Expr} {start : Nat}
    (hstart : start < code.blocks.length) (target : Nat) :
    Laid (started code start) (jumped target (layout (started code start))) fun _ => False :=
  (hlayout _ hstart).jumped target

section ThenArm

variable {layout : CodeTable Stmt Expr → CodeTable Stmt Expr} {code : CodeTable Stmt Expr}

theorem thenStart_fresh (hopen : IsOpen code) (cond : Expr) :
    Fresh (thenStart cond code) code.blocks.length :=
  Fresh.forked (Nat.le_refl _) (by omega) hopen.current_lt _

theorem thenStart_isOpen (hopen : IsOpen code) (cond : Expr) : IsOpen (thenStart cond code) :=
  (thenStart_fresh hopen cond).isOpen

theorem else_fresh (hlayout : LaysOut layout) (hopen : IsOpen code) (cond : Expr)
    (merge : Nat) :
    Fresh (jumped merge (layout (thenStart cond code))) (code.blocks.length + 1) := by
  have hfresh : Fresh (thenStart cond code) (code.blocks.length + 1) :=
    Fresh.forked (Nat.le_succ _) (by omega) hopen.current_lt _
  exact hfresh.laid (hlayout.jumped (thenStart_fresh hopen cond).lt merge)
    (not_own_started (Nat.succ_ne_self _) hfresh.lt)

theorem thenArm_laid (hlayout : LaysOut layout) (hopen : IsOpen code) (cond : Expr)
    (merge : Nat) :
    Laid code (started (jumped merge (layout (thenStart cond code))) (code.blocks.length + 1))
      (· = code.blocks.length + 1) := by
  have hthen := thenStart_fresh hopen cond
  have helse := else_fresh hlayout hopen cond merge
  refine (((((Laid.refl hopen.current_lt).forked hopen 2 _).started hthen.lt
    (.inr (Nat.le_refl _))).trans (hlayout.jumped hthen.lt merge)).started helse.lt
    (.inr (Nat.le_succ _))).weaken ?_
  rintro j (h | ⟨⟨hle, hlt⟩, hne⟩)
  · exact h.elim
  · rw [started_current] at hne
    omega

theorem layoutThenArm_isOpen (hlayout : LaysOut layout) (hopen : IsOpen code)
    (cond : Cond Stmt Expr) (merge : Nat) :
    IsOpen (layoutThenArm cond layout merge code) :=
  (else_fresh hlayout (layoutActions_isOpen cond.prelude hopen) cond.expr merge).isOpen

theorem layoutThenArm_laid (hlayout : LaysOut layout) (hopen : IsOpen code)
    (cond : Cond Stmt Expr) (merge : Nat) :
    Laid code (layoutThenArm cond layout merge code)
      (· = (layoutThenArm cond layout merge code).current) :=
  (layoutActions_laid cond.prelude hopen).then_laid
    (thenArm_laid hlayout (layoutActions_isOpen cond.prelude hopen) cond.expr merge)

end ThenArm

section Loops

variable {layout : LoopFrame → CodeTable Stmt Expr → CodeTable Stmt Expr}
  {code : CodeTable Stmt Expr}

theorem loopStart_fresh (hopen : IsOpen code) : Fresh (loopStart code) code.blocks.length :=
  Fresh.forked (Nat.le_refl _) (by omega) hopen.current_lt _

theorem loop_exit_fresh (hlayout : ∀ frame, LaysOut (layout frame)) (hopen : IsOpen code)
    (frame : LoopFrame) :
    Fresh (jumped code.blocks.length (layout frame (loopStart code)))
      (code.blocks.length + 1) := by
  have hfresh : Fresh (loopStart code) (code.blocks.length + 1) :=
    Fresh.forked (Nat.le_succ _) (by omega) hopen.current_lt _
  exact hfresh.laid ((hlayout frame).jumped (loopStart_fresh hopen).lt _)
    (not_own_started (Nat.succ_ne_self _) hfresh.lt)

theorem layoutLoop_laid (hlayout : ∀ frame, LaysOut (layout frame)) (hopen : IsOpen code) :
    Laid code (layoutLoop layout code) (· = (layoutLoop layout code).current) := by
  have hbody := loopStart_fresh hopen
  refine (((((Laid.refl hopen.current_lt).forked hopen 2 _).started hbody.lt
    (.inr (Nat.le_refl _))).trans ((hlayout _).jumped hbody.lt _)).started
    (loop_exit_fresh hlayout hopen _).lt (.inr (Nat.le_succ _))).weaken ?_
  rintro j (h | ⟨⟨hle, hlt⟩, hne⟩)
  · exact h.elim
  · rw [started_current] at hne
    change j = code.blocks.length + 1
    omega

theorem whileHeader_fresh (hopen : IsOpen code) :
    Fresh (forked 3 (.jump code.blocks.length) code) code.blocks.length :=
  Fresh.forked (Nat.le_refl _) (by omega) hopen.current_lt _

theorem whileTest_isOpen (hopen : IsOpen code) (cond : Cond Stmt Expr) :
    IsOpen (whileTest cond code) :=
  layoutActions_isOpen cond.prelude (whileHeader_fresh hopen).isOpen

theorem whileTest_laid (hopen : IsOpen code) (cond : Cond Stmt Expr) :
    Laid (started (forked 3 (.jump code.blocks.length) code) code.blocks.length)
      (whileTest cond code) (· = (whileTest cond code).current) :=
  layoutActions_laid cond.prelude (whileHeader_fresh hopen).isOpen

theorem whileTest_current (hopen : IsOpen code) (cond : Cond Stmt Expr) :
    (whileTest cond code).current = code.blocks.length ∨
      code.blocks.length + 3 ≤ (whileTest cond code).current := by
  have hown := (whileTest_laid hopen cond).current_own
  rwa [Own, started_current, started_blocks, length_forked] at hown

/-- The body and the exit of a `while` are still fresh behind its condition. -/
theorem whileStart_fresh (hopen : IsOpen code) (cond : Cond Stmt Expr) {j : Nat}
    (hlt : code.blocks.length < j) (hlt' : j < code.blocks.length + 3) :
    Fresh (whileStart cond code) j := by
  have hfresh : Fresh (started (forked 3 (.jump code.blocks.length) code)
      code.blocks.length) j :=
    Fresh.forked (Nat.le_of_lt hlt) hlt' hopen.current_lt _
  have hcurrent := whileTest_current hopen cond
  refine Fresh.terminated (hfresh.laid (whileTest_laid hopen cond) ?_) (by omega) _
  exact not_own_started (Nat.ne_of_gt hlt) (by rw [length_forked]; exact hlt')

theorem while_exit_fresh (hlayout : ∀ frame, LaysOut (layout frame)) (hopen : IsOpen code)
    (cond : Cond Stmt Expr) (frame : LoopFrame) :
    Fresh (jumped code.blocks.length (layout frame (whileStart cond code)))
      (code.blocks.length + 2) := by
  have hbody := whileStart_fresh hopen cond (Nat.lt_succ_self _) (by omega)
  have hexit : Fresh (whileStart cond code) (code.blocks.length + 2) :=
    whileStart_fresh hopen cond (by omega) (by omega)
  exact hexit.laid ((hlayout frame).jumped hbody.lt _) (not_own_started (by omega) hexit.lt)

theorem layoutWhile_laid (hlayout : ∀ frame, LaysOut (layout frame)) (hopen : IsOpen code)
    (cond : Cond Stmt Expr) :
    Laid code (layoutWhile cond layout code) (· = (layoutWhile cond layout code).current) := by
  have hheader := whileHeader_fresh hopen
  have hbody := whileStart_fresh hopen cond (Nat.lt_succ_self _) (by omega)
  have hown : ∀ j, code.blocks.length ≤ j → Own code j := fun j hj => .inr hj
  refine (((((((Laid.refl hopen.current_lt).forked hopen 3 _).started hheader.lt
    (hown _ (Nat.le_refl _))).trans (whileTest_laid hopen cond)).terminated
    (whileTest_isOpen hopen cond) _).started hbody.lt (hown _ (by omega))).trans
    ((hlayout _).jumped hbody.lt _)).started (while_exit_fresh hlayout hopen cond _).lt
    (hown _ (by omega)) |>.weaken ?_
  rintro j (h | ⟨⟨h | ⟨⟨hle, hlt⟩, hne⟩, hne'⟩, hne''⟩)
  · exact h.elim
  · exact absurd h hne'
  · rw [started_current] at hne hne''
    change j = code.blocks.length + 2
    omega

end Loops

section Latch

variable {code : CodeTable Stmt Expr}

theorem layoutStep_laid (step : Stmt) (header : Nat) (hopen : IsOpen code) :
    Laid code (layoutStep step header code) fun _ => False := by
  refine (((Laid.refl hopen.current_lt).pushed hopen step).terminated
    (hopen.pushed step) _).weaken ?_
  exact fun j hj => hj.2 hj.1

theorem latchStep_fresh (terminal : Expr) (exit : Nat) (hopen : IsOpen code) :
    Fresh (forked 1 (.branch terminal exit code.blocks.length) code) code.blocks.length :=
  Fresh.forked (Nat.le_refl _) (by omega) hopen.current_lt _

theorem latchCheck_fresh (terminal : Expr) (exit : Nat) (hopen : IsOpen code) {j : Nat}
    (hle : code.blocks.length ≤ j) (hlt : j < code.blocks.length + 3) :
    Fresh (latchCheck terminal exit code) j :=
  Fresh.forked hle hlt hopen.current_lt _

theorem latchCheck_isOpen (terminal : Expr) (exit : Nat) (hopen : IsOpen code) :
    IsOpen (latchCheck terminal exit code) :=
  (latchCheck_fresh terminal exit hopen (Nat.le_succ _) (by omega)).isOpen

theorem latchFailure_fresh (terminal failureCond : Expr) (exit : Nat) (hopen : IsOpen code)
    {j : Nat} (hle : code.blocks.length ≤ j) (hlt : j < code.blocks.length + 3)
    (hne : j ≠ code.blocks.length + 1) : Fresh (latchFailure terminal failureCond exit code) j :=
  (latchCheck_fresh terminal exit hopen hle hlt).terminated hne _

theorem latchFailure_isOpen (terminal failureCond : Expr) (exit : Nat) (hopen : IsOpen code) :
    IsOpen (latchFailure terminal failureCond exit code) :=
  (latchFailure_fresh terminal failureCond exit hopen (by omega) (by omega) (by omega)).isOpen

/-- The step block is still fresh behind the failure effects. -/
theorem latchFailed_fresh (terminal failureCond : Expr) (stmts : List Stmt) (exit : Nat)
    (hopen : IsOpen code) :
    Fresh (terminated (latchFailed terminal failureCond stmts exit code) (.jump exit))
      code.blocks.length := by
  have hfresh := latchFailure_fresh terminal failureCond exit hopen (Nat.le_refl _)
    (by omega) (by omega)
  have hlaid := layoutActions_laid (stmts.map .effect)
    (latchFailure_isOpen terminal failureCond exit hopen)
  have hlength : (latchFailure terminal failureCond exit code).blocks.length =
      code.blocks.length + 3 := by
    simp [latchFailure, latchCheck]
  have hcurrent : (latchFailure terminal failureCond exit code).current =
      code.blocks.length + 2 := rfl
  have hne : code.blocks.length ≠
      (latchFailed terminal failureCond stmts exit code).current := by
    have hown := hlaid.current_own
    rw [Own, hlength, hcurrent] at hown
    rw [latchFailed]
    omega
  refine Fresh.terminated (hfresh.laid hlaid ?_) hne _
  rw [Own, hlength, hcurrent]
  omega

theorem layoutLatch_laid (latch : Latch Stmt Expr) (header exit : Nat) (hopen : IsOpen code) :
    Laid code (layoutLatch latch header exit code) fun _ => False := by
  have hrefl := Laid.refl hopen.current_lt
  have hown : ∀ j, code.blocks.length ≤ j → Own code j := fun j hj => .inr hj
  obtain ⟨terminal, failure, step⟩ := latch
  rcases terminal with _ | terminal
  · exact layoutStep_laid step header hopen
  · rcases failure with _ | ⟨failureCond, stmts⟩
    · have hstep := latchStep_fresh terminal exit hopen
      refine (((hrefl.forked hopen 1 _).started hstep.lt (hown _ (Nat.le_refl _))).trans
        (layoutStep_laid step header hstep.isOpen)).weaken ?_
      rintro j (h | ⟨⟨hle, hlt⟩, hne⟩)
      · exact h
      · rw [started_current] at hne
        omega
    · have hcheck : Fresh (latchCheck terminal exit code) (code.blocks.length + 1) :=
        latchCheck_fresh terminal exit hopen (by omega) (by omega)
      have hfailure : Fresh (latchFailure terminal failureCond exit code)
          (code.blocks.length + 2) :=
        latchFailure_fresh terminal failureCond exit hopen (by omega) (by omega) (by omega)
      have hopenF := latchFailure_isOpen terminal failureCond exit hopen
      have hstep := latchFailed_fresh terminal failureCond stmts exit hopen
      refine (((((((hrefl.forked hopen 3 _).started hcheck.lt
        (hown _ (by omega))).terminated (latchCheck_isOpen terminal exit hopen) _).started
        hfailure.lt (hown _ (by omega))).trans
        (layoutActions_laid (stmts.map .effect) hopenF)).terminated
        (layoutActions_isOpen _ hopenF) _).started hstep.lt (hown _ (Nat.le_refl _))).trans
        (layoutStep_laid step header hstep.isOpen) |>.weaken ?_
      rintro j (h | ⟨⟨h | ⟨⟨⟨hle, hlt⟩, hne₁⟩, hne₂⟩, hne₃⟩, hne⟩)
      · exact h
      · exact absurd h hne₃
      · rw [started_current] at hne₁ hne₂ hne
        omega

end Latch

section Counted

variable {layout : LoopFrame → CodeTable Stmt Expr → CodeTable Stmt Expr}
  {code : CodeTable Stmt Expr}

theorem countedHeader_fresh (hopen : IsOpen code) {j : Nat} (hle : code.blocks.length ≤ j)
    (hlt : j < code.blocks.length + 4) : Fresh (countedHeader code) j :=
  Fresh.forked hle hlt hopen.current_lt _

theorem countedHeader_isOpen (hopen : IsOpen code) : IsOpen (countedHeader code) :=
  (countedHeader_fresh hopen (Nat.le_refl _) (by omega)).isOpen

theorem countedStart_fresh (headerCond : Expr) (hopen : IsOpen code) {j : Nat}
    (hlt : code.blocks.length < j) (hlt' : j < code.blocks.length + 4) :
    Fresh (countedStart headerCond code) j :=
  (countedHeader_fresh hopen (Nat.le_of_lt hlt) hlt').terminated (Nat.ne_of_gt hlt) _

/-- The latch and the exit of a counted loop are still fresh behind its body. -/
theorem countedLatch_fresh (headerCond : Expr) (hlayout : ∀ frame, LaysOut (layout frame))
    (hopen : IsOpen code) {j : Nat} (hlt : code.blocks.length + 1 < j)
    (hlt' : j < code.blocks.length + 4) : Fresh (countedLatch headerCond layout code) j := by
  have hbody := countedStart_fresh headerCond hopen (Nat.lt_succ_self _) (by omega)
  have hfresh := countedStart_fresh headerCond hopen (Nat.lt_of_succ_lt hlt) hlt'
  change Fresh (jumped (code.blocks.length + 2)
    (layout ⟨code.blocks.length + 2, code.blocks.length + 3⟩ (countedStart headerCond code))) j
  exact hfresh.laid ((hlayout _).jumped hbody.lt _)
    (not_own_started (Nat.ne_of_gt hlt) hfresh.lt)

theorem countedLatch_isOpen (headerCond : Expr) (hlayout : ∀ frame, LaysOut (layout frame))
    (hopen : IsOpen code) : IsOpen (countedLatch headerCond layout code) :=
  (countedLatch_fresh headerCond hlayout hopen (Nat.lt_succ_self _) (by omega)).isOpen

theorem counted_exit_fresh (headerCond : Expr) (latch : Latch Stmt Expr)
    (hlayout : ∀ frame, LaysOut (layout frame)) (hopen : IsOpen code) (header exit : Nat) :
    Fresh (layoutLatch latch header exit (countedLatch headerCond layout code))
      (code.blocks.length + 3) := by
  have hfresh := countedLatch_fresh headerCond hlayout hopen
    (show code.blocks.length + 1 < code.blocks.length + 3 by omega) (by omega)
  exact hfresh.laid
    (layoutLatch_laid latch header exit (countedLatch_isOpen headerCond hlayout hopen))
    (not_own_started (by omega) hfresh.lt)

theorem layoutCounted_laid (headerCond : Expr) (latch : Latch Stmt Expr)
    (hlayout : ∀ frame, LaysOut (layout frame)) (hopen : IsOpen code) :
    Laid code (layoutCounted headerCond latch layout code)
      (· = (layoutCounted headerCond latch layout code).current) := by
  have hheader : Fresh (countedHeader code) code.blocks.length :=
    countedHeader_fresh hopen (Nat.le_refl _) (by omega)
  have hbody : Fresh (countedStart headerCond code) (code.blocks.length + 1) :=
    countedStart_fresh headerCond hopen (by omega) (by omega)
  have hlatch := countedLatch_fresh headerCond hlayout hopen (Nat.lt_succ_self _) (by omega)
  have hopenL := countedLatch_isOpen headerCond hlayout hopen
  have hown : ∀ j, code.blocks.length ≤ j → Own code j := fun j hj => .inr hj
  refine ((((((((Laid.refl hopen.current_lt).forked hopen 4 _).started hheader.lt
    (hown _ (Nat.le_refl _))).terminated (countedHeader_isOpen hopen) _).started hbody.lt
    (hown _ (by omega))).trans ((hlayout _).jumped hbody.lt _)).started hlatch.lt
    (hown _ (by omega))).trans (layoutLatch_laid latch _ _ hopenL)).started
    (counted_exit_fresh headerCond latch hlayout hopen _ _).lt (hown _ (by omega)) |>.weaken ?_
  rintro j (h | ⟨h | ⟨⟨⟨hle, hlt⟩, hne₁⟩, hne₂⟩, hne₃⟩)
  · exact h.elim
  · exact h.elim
  · rw [started_current] at hne₁ hne₂ hne₃
    change j = code.blocks.length + 3
    omega

end Counted

section IfThen

variable {code : CodeTable Stmt Expr}

theorem merge_fresh {code' : CodeTable Stmt Expr} {pending : Nat → Prop}
    (hopen : IsOpen code) (hlaid : Laid (reserved 1 code) code' pending) :
    Fresh code' code.blocks.length := by
  have hcurrent := hopen.current_lt
  refine (Fresh.reserved (Nat.le_refl _) (Nat.lt_succ_self _)).laid hlaid ?_
  rintro (h | h)
  · rw [reserved_current] at h
    omega
  · rw [length_reserved] at h
    omega

theorem merge_laid {code' : CodeTable Stmt Expr} (hopen : IsOpen code)
    (hlaid : Laid (reserved 1 code) code' fun _ => False) :
    Laid code (started code' code.blocks.length) (· = code.blocks.length) := by
  refine ((((Laid.refl hopen.current_lt).reserved 1).trans hlaid).started
    (merge_fresh hopen hlaid).lt (.inr (Nat.le_refl _))).weaken ?_
  rintro j (h | ⟨⟨hle, hlt⟩ | h, hne⟩)
  · exact h.elim
  · omega
  · exact absurd h hne

end IfThen

theorem terminated_laid {code : CodeTable Stmt Expr} (hopen : IsOpen code)
    (t : Terminator Expr) :
    Laid code (terminated code t) (· = (terminated code t).current) :=
  ((Laid.refl hopen.current_lt).terminated hopen t).weaken fun _ hj => hj.1

mutual

theorem layoutPlan_laid (frames : List LoopFrame) :
    ∀ (plan : Plan Stmt Expr) {code : CodeTable Stmt Expr}, IsOpen code →
      Laid code (layoutPlan frames plan code) (· = (layoutPlan frames plan code).current)
  | .straight actions, _, hopen => layoutActions_laid actions hopen
  | .ifThen cond thenBlock tail, _, hopen =>
      merge_laid hopen ((layoutThenArm_laid (layoutBlock_laid frames thenBlock)
        (hopen.reserved 1) cond _).then_laid (layoutTail_laid frames tail _
          (layoutThenArm_isOpen (layoutBlock_laid frames thenBlock) (hopen.reserved 1) cond _)))
  | .whileLoop cond body, _, hopen =>
      layoutWhile_laid (fun frame => layoutBlock_laid (frame :: frames) body) hopen cond
  | .loop body, _, hopen =>
      layoutLoop_laid (fun frame => layoutBlock_laid (frame :: frames) body) hopen
  | .counted init headerCond latch body, _, hopen =>
      (layoutActions_laid init hopen).then_laid (layoutCounted_laid headerCond latch
        (fun frame => layoutBlock_laid (frame :: frames) body) (layoutActions_isOpen init hopen))
  | .breakLoop, _, hopen => by
      cases frames with
      | nil => exact Laid.refl hopen.current_lt
      | cons frame _ => exact terminated_laid hopen (.jump frame.breakTo)
  | .continueLoop, _, hopen => by
      cases frames with
      | nil => exact Laid.refl hopen.current_lt
      | cons frame _ => exact terminated_laid hopen (.jump frame.continueTo)
  | .returnStmt, _, hopen => terminated_laid hopen .ret

theorem layoutBlock_laid (frames : List LoopFrame) :
    ∀ block : PlanBlock Stmt Expr, LaysOut (layoutBlock frames block)
  | .nil => fun _ hcurrent => Laid.refl hcurrent
  | .cons stmt rest => fun _ hcurrent => by
      have hstmt := (ensured_laid hcurrent).then_laid
        (layoutPlan_laid frames stmt (ensured_isOpen hcurrent))
      exact hstmt.then_laid (layoutBlock_laid frames rest _ hstmt.current_lt)

theorem layoutTail_laid (frames : List LoopFrame) :
    ∀ (tail : PlanTail Stmt Expr) (merge : Nat) {code : CodeTable Stmt Expr}, IsOpen code →
      Laid code (layoutTail frames tail merge code) fun _ => False
  | .none, merge, _, hopen => (Laid.refl hopen.current_lt).jumped merge
  | .otherwise block, merge, _, hopen =>
      (layoutBlock_laid frames block _ hopen.current_lt).jumped merge
  | .elsif cond block tail, merge, _, hopen =>
      (layoutThenArm_laid (layoutBlock_laid frames block) hopen cond merge).then_laid
        (layoutTail_laid frames tail merge
          (layoutThenArm_isOpen (layoutBlock_laid frames block) hopen cond merge))

end

end Harc.ControlFrame
