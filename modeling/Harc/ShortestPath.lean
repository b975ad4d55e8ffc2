import Mathlib.Data.List.Chain
import Mathlib.Data.Finset.Card
import Mathlib.Logic.Function.Basic
import Mathlib.Logic.Relation

/-!
Breadth-first search for a shortest path to a goal.  The queue has whole paths; a node is
looked at when a path to it comes to the front for the first time.
-/

namespace Harc.ShortestPath

variable {α ε : Type*}

/-- A path that is never empty, by its last node. -/
structure Path (α : Type*) where
  init : List α
  last : α

namespace Path

def toList (p : Path α) : List α := p.init ++ [p.last]

def push (p : Path α) (node : α) : Path α := ⟨p.toList, node⟩

def extend (p : Path α) (next : List α) : List (Path α) := next.map p.push

def length (p : Path α) : Nat := p.init.length

@[simp] theorem last_push (p : Path α) (node : α) : (p.push node).last = node := rfl

@[simp] theorem length_push (p : Path α) (node : α) : (p.push node).length = p.length + 1 := by
  simp [push, length, toList]

end Path

/-! ### The search -/

section Search

/-- What a node is found to be, from the nodes that can be looked at. -/
structure Graph (α ε : Type*) where
  nodes : Finset α
  missing : α → ε
  isGoal : α → Bool
  next : α → Except ε (List α)

variable [DecidableEq α] (g : Graph α ε)

def search (queue : List (Path α)) (visited : Finset α) : Except ε (Option (Path α)) :=
  match queue with
  | [] => .ok none
  | path :: queue =>
      if _hvisited : path.last ∈ visited then search queue visited
      else if _hnode : path.last ∈ g.nodes then
        if g.isGoal path.last then .ok (some path)
        else
          match g.next path.last with
          | .error e => .error e
          | .ok next => search (queue ++ path.extend next) (insert path.last visited)
      else .error (g.missing path.last)
termination_by ((g.nodes \ visited).card, queue.length)
decreasing_by
  · apply Prod.Lex.right
    simp
  · apply Prod.Lex.left
    apply Finset.card_lt_card
    rw [Finset.ssubset_iff_of_subset (Finset.sdiff_subset_sdiff (by rfl) (Finset.subset_insert _ _))]
    exact ⟨path.last, by simp [_hnode, _hvisited], by simp⟩

/-- The search from a root. -/
def searchFrom (root : α) : Except ε (Option (Path α)) := search g [⟨[], root⟩] ∅

end Search

/-! ### Walks -/

section Walks

variable (g : Graph α ε)

def Edge (v w : α) : Prop := ∃ next, g.next v = .ok next ∧ w ∈ next

def Reaches : α → α → Prop := Relation.ReflTransGen (Edge g)

/-- A way from a root along the edges. -/
def IsWalk (root : α) (walk : List α) : Prop :=
  walk.head? = some root ∧ walk.IsChain (Edge g)

/-- A shortest walk from a root to a goal. -/
structure Shortest (root : α) (walk : List α) : Prop where
  isWalk : IsWalk g root walk
  goal : ∃ v, walk.getLast? = some v ∧ g.isGoal v
  shortest : ∀ walk', IsWalk g root walk' → (∃ v, walk'.getLast? = some v ∧ g.isGoal v) →
    walk.length ≤ walk'.length

end Walks

variable {g : Graph α ε} {root : α}

theorem Path.isWalk_push {p : Path α} {w : α} (h : IsWalk g root p.toList) (hw : Edge g p.last w) :
    IsWalk g root (p.push w).toList := by
  obtain ⟨hhead, hchain⟩ := h
  refine ⟨?_, ?_⟩
  · rw [toList, push, List.head?_append, hhead]
    rfl
  · refine List.isChain_append.mpr ⟨hchain, List.isChain_singleton _, ?_⟩
    rintro a ha b hb
    rw [List.head?_singleton, Option.mem_some_iff] at hb
    rw [push, toList, List.getLast?_concat, Option.mem_some_iff] at ha
    subst ha hb
    exact hw

theorem IsWalk.reaches {walk : List α} {v : α} (h : IsWalk g root walk)
    (hv : walk.getLast? = some v) : Reaches g root v := by
  obtain ⟨hhead, hchain⟩ := h
  induction walk generalizing root with
  | nil => simp at hhead
  | cons a walk ih =>
      obtain rfl : a = root := by simpa using hhead
      rcases walk with _ | ⟨b, walk⟩
      · obtain rfl : a = v := by simpa using hv
        exact .refl
      · obtain ⟨hab, hb⟩ := List.isChain_cons_cons.mp hchain
        exact .head hab (ih (by simpa using hv) rfl hb)

theorem Reaches.exists_walk {v : α} (h : Reaches g root v) :
    ∃ walk, IsWalk g root walk ∧ walk.getLast? = some v := by
  induction h with
  | refl => exact ⟨[root], ⟨rfl, List.isChain_singleton _⟩, rfl⟩
  | @tail v w _ hvw ih =>
      obtain ⟨walk, hwalk, hlast⟩ := ih
      obtain ⟨init, rfl⟩ : ∃ init, walk = init ++ [v] :=
        ⟨walk.dropLast, (List.dropLast_append_getLast? v hlast).symm⟩
      exact ⟨_, Path.isWalk_push (p := ⟨init, v⟩) hwalk hvw, by simp [Path.push, Path.toList]⟩

/-! ### What holds of the queue -/

/-- The nodes looked at have a level, no more than the length of a path in the queue, and
their edges lead to nodes at most one level on, or to the end of such a path. -/
structure Invariant (g : Graph α ε) (root : α) (level : α → Nat) (queue : List (Path α))
    (visited : Finset α) : Prop where
  walks : ∀ p ∈ queue, IsWalk g root p.toList
  sorted : queue.Pairwise fun p q => p.length ≤ q.length
  narrow : ∀ p ∈ queue, ∀ q ∈ queue, q.length ≤ p.length + 1
  below : ∀ v ∈ visited, ∀ p ∈ queue, level v ≤ p.length
  notGoal : ∀ v ∈ visited, g.isGoal v = false
  start : root ∈ visited ∧ level root = 0 ∨ ∃ p ∈ queue, p.last = root ∧ p.length = 0
  edges : ∀ v ∈ visited, ∀ w, Edge g v w →
    w ∈ visited ∧ level w ≤ level v + 1 ∨ ∃ p ∈ queue, p.last = w ∧ p.length ≤ level v + 1

theorem invariant_start : Invariant g root (fun _ => 0) [⟨[], root⟩] ∅ where
  walks := by
    rintro p hp
    obtain rfl := List.mem_singleton.mp hp
    exact ⟨rfl, List.isChain_singleton _⟩
  sorted := List.pairwise_singleton _ _
  narrow := by simp
  below := by simp
  notGoal := by simp
  start := Or.inr ⟨_, List.mem_singleton_self _, rfl, rfl⟩
  edges := by simp

section Turn

variable {level : α → Nat} {path : Path α} {queue : List (Path α)} {visited : Finset α}

theorem Invariant.head_le (h : Invariant g root level (path :: queue) visited) {p : Path α}
    (hp : p ∈ path :: queue) : path.length ≤ p.length := by
  rcases List.mem_cons.mp hp with rfl | hp
  · exact Nat.le_refl _
  · exact List.rel_of_pairwise_cons h.sorted hp

/-- A path to a node that has been looked at is dropped. -/
theorem Invariant.skip (h : Invariant g root level (path :: queue) visited)
    (hvisited : path.last ∈ visited) : Invariant g root level queue visited where
  walks p hp := h.walks p (by simp [hp])
  sorted := h.sorted.of_cons
  narrow p hp q hq := h.narrow p (by simp [hp]) q (by simp [hq])
  below v hv p hp := h.below v hv p (by simp [hp])
  notGoal := h.notGoal
  start := by
    rcases h.start with hstart | ⟨p, hp, hlast, hlength⟩
    · exact Or.inl hstart
    · rcases List.mem_cons.mp hp with rfl | hp
      · have hlevel := h.below p.last hvisited p (by simp)
        rw [hlast] at hvisited hlevel
        exact Or.inl ⟨hvisited, by omega⟩
      · exact Or.inr ⟨p, hp, hlast, hlength⟩
  edges := by
    intro v hv w hw
    rcases h.edges v hv w hw with hdone | ⟨p, hp, hlast, hlength⟩
    · exact Or.inl hdone
    · rcases List.mem_cons.mp hp with rfl | hp
      · have hlevel := h.below p.last hvisited p (by simp)
        rw [hlast] at hvisited hlevel
        exact Or.inl ⟨hvisited, by omega⟩
      · exact Or.inr ⟨p, hp, hlast, hlength⟩

/-- The nodes of a walk have a level at their place, or the queue has a path to one of them. -/
theorem Invariant.covers (h : Invariant g root level queue visited) (walk : List α) :
    ∀ {v : α}, IsWalk g root walk → walk.getLast? = some v →
      v ∈ visited ∧ level v + 1 ≤ walk.length ∨ ∃ p ∈ queue, p.length + 1 ≤ walk.length := by
  induction walk using List.reverseRecOn with
  | nil => simp
  | append_singleton walk w ih =>
      rintro v ⟨hhead, hchain⟩ hv
      obtain rfl : w = v := by simpa using hv
      rcases hwalk : walk.getLast? with _ | u
      · obtain rfl := List.getLast?_eq_none_iff.mp hwalk
        obtain rfl : w = root := by simpa using hhead
        rcases h.start with ⟨hroot, hzero⟩ | ⟨p, hp, -, hzero⟩
        · exact Or.inl ⟨hroot, by simp [hzero]⟩
        · exact Or.inr ⟨p, hp, by simp [hzero]⟩
      · obtain ⟨hinit, -, hlast⟩ := List.isChain_append.mp hchain
        have hhead' : walk.head? = some root := by
          rcases walk with _ | ⟨a, walk⟩
          · simp at hwalk
          · simpa using hhead
        have huw : Edge g u w := hlast u hwalk w (by simp)
        rcases ih ⟨hhead', hinit⟩ hwalk with ⟨hu, hle⟩ | ⟨p, hp, hle⟩
        · rcases h.edges u hu w huw with ⟨hw, hle'⟩ | ⟨p, hp, -, hle'⟩
          · refine Or.inl ⟨hw, ?_⟩
            simp
            omega
          · refine Or.inr ⟨p, hp, ?_⟩
            simp
            omega
        · refine Or.inr ⟨p, hp, ?_⟩
          simp
          omega

variable [DecidableEq α]

/-- A node that is looked at gets the length of its path as level. -/
theorem Invariant.expand (h : Invariant g root level (path :: queue) visited)
    (hvisited : path.last ∉ visited) (hgoal : g.isGoal path.last = false) {next : List α}
    (hnext : g.next path.last = .ok next) :
    Invariant g root (Function.update level path.last path.length)
      (queue ++ path.extend next) (insert path.last visited) := by
  have hlevel : ∀ v ∈ visited, Function.update level path.last path.length v = level v := by
    rintro v hv
    rcases eq_or_ne v path.last with rfl | hne
    · exact absurd hv hvisited
    · exact Function.update_of_ne hne _ _
  have hself : Function.update level path.last path.length path.last = path.length :=
    Function.update_self ..
  have hlength : ∀ p ∈ queue ++ path.extend next,
      path.length ≤ p.length ∧ p.length ≤ path.length + 1 := by
    intro p hp
    rcases List.mem_append.mp hp with hp | hp
    · exact ⟨h.head_le (by simp [hp]), h.narrow path (by simp) p (by simp [hp])⟩
    · obtain ⟨w, -, rfl⟩ := List.mem_map.mp hp
      simp
  have hkeep : ∀ {w : α} {n : Nat}, (∃ p ∈ path :: queue, p.last = w ∧ p.length ≤ n) →
      w ∈ insert path.last visited ∧ Function.update level path.last path.length w ≤ n ∨
        ∃ p ∈ queue ++ path.extend next, p.last = w ∧ p.length ≤ n := by
    rintro w n ⟨p, hp, rfl, hn⟩
    rcases List.mem_cons.mp hp with rfl | hp
    · exact Or.inl ⟨Finset.mem_insert_self _ _, hself.trans_le hn⟩
    · exact Or.inr ⟨p, List.mem_append_left _ hp, rfl, hn⟩
  refine ⟨?_, ?_, ?_, ?_, ?_, ?_, ?_⟩
  · intro p hp
    rcases List.mem_append.mp hp with hp | hp
    · exact h.walks p (by simp [hp])
    · obtain ⟨w, hw, rfl⟩ := List.mem_map.mp hp
      exact Path.isWalk_push (h.walks path (by simp)) ⟨next, hnext, hw⟩
  · refine List.pairwise_append.mpr ⟨h.sorted.of_cons, ?_, ?_⟩
    · exact List.pairwise_map.mpr (List.pairwise_of_forall fun _ _ => by simp)
    · intro p hp q hq
      obtain ⟨w, -, rfl⟩ := List.mem_map.mp hq
      rw [Path.length_push]
      exact (hlength p (List.mem_append_left _ hp)).2
  · intro p hp q hq
    exact (hlength q hq).2.trans (Nat.succ_le_succ (hlength p hp).1)
  · intro v hv p hp
    rcases Finset.mem_insert.mp hv with rfl | hv
    · exact hself.trans_le (hlength p hp).1
    · exact (hlevel v hv).trans_le ((h.below v hv path (by simp)).trans (hlength p hp).1)
  · intro v hv
    rcases Finset.mem_insert.mp hv with rfl | hv
    · exact hgoal
    · exact h.notGoal v hv
  · rcases h.start with ⟨hroot, hzero⟩ | ⟨p, hp, hlast, hzero⟩
    · exact Or.inl ⟨Finset.mem_insert_of_mem hroot, (hlevel root hroot).trans hzero⟩
    · rcases hkeep ⟨p, hp, hlast, hzero.le⟩ with ⟨hmem, hle⟩ | ⟨q, hq, hqlast, hle⟩
      · exact Or.inl ⟨hmem, Nat.le_zero.mp hle⟩
      · exact Or.inr ⟨q, hq, hqlast, Nat.le_zero.mp hle⟩
  · intro v hv w hw
    rcases Finset.mem_insert.mp hv with rfl | hv
    · obtain ⟨next', hnext', hmem⟩ := hw
      rw [hnext] at hnext'
      obtain rfl := Except.ok.inj hnext'
      refine Or.inr ⟨path.push w, List.mem_append_right _ (List.mem_map_of_mem hmem), rfl, ?_⟩
      rw [hself, Path.length_push]
    · rw [hlevel v hv]
      rcases h.edges v hv w hw with ⟨hdone, hle⟩ | hqueue
      · exact Or.inl ⟨Finset.mem_insert_of_mem hdone, (hlevel w hdone).trans_le hle⟩
      · exact hkeep hqueue

end Turn

/-! ### The whole search -/

/-- A node that cannot be looked at. -/
def Unknown (g : Graph α ε) (e : ε) (v : α) : Prop :=
  v ∉ g.nodes ∧ e = g.missing v ∨ v ∈ g.nodes ∧ g.next v = .error e

def Outcome (g : Graph α ε) (root : α) : Except ε (Option (Path α)) → Prop
  | .ok (some path) => Shortest g root path.toList
  | .ok none => ∀ v, Reaches g root v → g.isGoal v = false
  | .error e => ∃ v, Reaches g root v ∧ Unknown g e v

variable [DecidableEq α]

theorem search_outcome (queue : List (Path α)) (visited : Finset α) :
    ∀ level : α → Nat, Invariant g root level queue visited →
      Outcome g root (search g queue visited) := by
  induction queue, visited using search.induct (g := g) with
  | case1 visited =>
      intro level h
      rw [search]
      intro v hv
      obtain ⟨walk, hwalk, hlast⟩ := hv.exists_walk
      rcases h.covers walk hwalk hlast with ⟨hmem, -⟩ | ⟨p, hp, -⟩
      · exact h.notGoal v hmem
      · simp at hp
  | case2 visited path queue hvisited ih =>
      intro level h
      rw [search, dif_pos hvisited]
      exact ih level (h.skip hvisited)
  | case3 visited path queue hvisited hnode hgoal =>
      intro level h
      rw [search, dif_neg hvisited, dif_pos hnode, if_pos hgoal]
      refine ⟨h.walks path (by simp), ⟨path.last, by simp [Path.toList], hgoal⟩, ?_⟩
      rintro walk hwalk ⟨v, hv, hvgoal⟩
      rcases h.covers walk hwalk hv with ⟨hmem, -⟩ | ⟨p, hp, hle⟩
      · rw [h.notGoal v hmem] at hvgoal
        simp at hvgoal
      · have hhead := h.head_le hp
        simp only [Path.toList, List.length_append, List.length_singleton]
        exact (Nat.succ_le_succ hhead).trans hle
  | case4 visited path queue hvisited hnode hgoal e he =>
      intro level h
      rw [search, dif_neg hvisited, dif_pos hnode, if_neg hgoal, he]
      exact ⟨path.last, (h.walks path (by simp)).reaches (by simp [Path.toList]), Or.inr ⟨hnode, he⟩⟩
  | case5 visited path queue hvisited hnode hgoal next hnext ih =>
      intro level h
      rw [search, dif_neg hvisited, dif_pos hnode, if_neg hgoal, hnext]
      exact ih _ (h.expand hvisited (by simpa using hgoal) hnext)
  | case6 visited path queue hvisited hnode =>
      intro level h
      rw [search, dif_neg hvisited, dif_neg hnode]
      exact ⟨path.last, (h.walks path (by simp)).reaches (by simp [Path.toList]),
        Or.inl ⟨hnode, rfl⟩⟩

theorem searchFrom_outcome (g : Graph α ε) (root : α) : Outcome g root (searchFrom g root) :=
  search_outcome _ _ _ invariant_start

end Harc.ShortestPath
