import Mathlib.Data.Fintype.Card
import Mathlib.Data.Set.Finite.Basic
import Mathlib.Data.List.Nodup
import Mathlib.Data.List.Perm.Subperm
import Mathlib.Logic.Relation
import Mathlib.Order.WellFounded

/-!
Topological sorting by in-degrees.  Nodes without open predecessors wait in a queue; the
node at its front is taken into the order and removed from the graph.  The order has all
nodes exactly if the graph has no cycle.
-/

namespace Harc.TopologicalSort

variable {α : Type*} [DecidableEq α]

/-! ### The algorithm -/

/-- A graph by its edges, with the number of edges that go into each node. -/
structure Graph (α : Type*) where
  edges : List (α × α)
  indegree : α → Nat

namespace Graph

def empty : Graph α := ⟨[], fun _ => 0⟩

def insert (g : Graph α) (edge : α × α) : Graph α :=
  if edge ∈ g.edges then g
  else ⟨g.edges ++ [edge], Function.update g.indegree edge.2 (g.indegree edge.2 + 1)⟩

end Graph

structure Queue (α : Type*) where
  indegree : α → Nat
  ready : List α
  ordered : List α

/-- Removes the edges from a node to the candidates.  Those that have none left are ready. -/
def release (edges : List (α × α)) (name : α) :
    List α → (α → Nat) → List α → (α → Nat) × List α
  | [], indegree, ready => (indegree, ready)
  | candidate :: candidates, indegree, ready =>
      if (name, candidate) ∈ edges then
        let n := indegree candidate - 1
        release edges name candidates (Function.update indegree candidate n)
          (if n = 0 then ready ++ [candidate] else ready)
      else release edges name candidates indegree ready

/-- Takes nodes from the queue until it is empty; none if the number of turns is not
enough. -/
def drain (edges : List (α × α)) (nodes : List α) : Nat → Queue α → Option (List α)
  | _, ⟨_, [], ordered⟩ => some ordered
  | 0, ⟨_, _ :: _, _⟩ => none
  | turns + 1, ⟨indegree, name :: ready, ordered⟩ =>
      let next := release edges name nodes indegree ready
      drain edges nodes turns ⟨next.1, next.2, ordered ++ [name]⟩

def Graph.start (g : Graph α) (nodes : List α) : Queue α :=
  ⟨g.indegree, nodes.filter fun name => g.indegree name == 0, []⟩

def Graph.sort (g : Graph α) (nodes : List α) : Option (List α) :=
  drain g.edges nodes nodes.length (g.start nodes)

/-! ### Counting edges -/

/-- The number of edges into a node from nodes that are not in the order. -/
def waiting (edges : List (α × α)) (ordered : List α) (v : α) : Nat :=
  edges.countP fun e => e.2 = v ∧ e.1 ∉ ordered

theorem waiting_eq_zero {edges : List (α × α)} {ordered : List α} {v : α} :
    waiting edges ordered v = 0 ↔ ∀ u, (u, v) ∈ edges → u ∈ ordered := by
  rw [waiting, List.countP_eq_zero]
  constructor
  · intro h u hu
    by_contra hnot
    exact h _ hu (by simp [hnot])
  · rintro h ⟨u, w⟩ he
    simp only [decide_eq_true_eq, not_and, not_not]
    rintro rfl
    exact h u he

theorem waiting_append (edges : List (α × α)) (ordered : List α) {name : α}
    (hname : name ∉ ordered) (v : α) :
    waiting edges ordered v = waiting edges (ordered ++ [name]) v + edges.count (name, v) := by
  induction edges with
  | nil => rfl
  | cons e edges ih =>
      rw [waiting, waiting] at ih
      rw [waiting, waiting, List.countP_cons, List.countP_cons, List.count_cons, ih]
      rcases e with ⟨u, w⟩
      by_cases hw : w = v
      · by_cases hu : u = name
        · subst hu hw
          simp [hname]
          omega
        · by_cases hin : u ∈ ordered
          · simp [hw, hu, hin]
          · simp [hw, hu, hin]
            omega
      · simp [hw]

structure Graph.Counts (g : Graph α) : Prop where
  nodup : g.edges.Nodup
  indegree : ∀ v, g.indegree v = waiting g.edges [] v

theorem Graph.Counts.empty : (Graph.empty : Graph α).Counts :=
  ⟨List.nodup_nil, fun _ => rfl⟩

theorem Graph.mem_insert {g : Graph α} {edge e : α × α} :
    e ∈ (g.insert edge).edges ↔ e = edge ∨ e ∈ g.edges := by
  rw [Graph.insert]
  split_ifs with hmem
  · constructor
    · exact Or.inr
    · rintro (rfl | h)
      · exact hmem
      · exact h
  · simp [or_comm]

theorem Graph.Counts.insert {g : Graph α} (h : g.Counts) (edge : α × α) :
    (g.insert edge).Counts := by
  rw [Graph.insert]
  split_ifs with hmem
  · exact h
  · refine ⟨?_, ?_⟩
    · rw [List.nodup_append]
      refine ⟨h.nodup, List.nodup_singleton _, ?_⟩
      rintro a ha b hb rfl
      exact hmem (List.mem_singleton.mp hb ▸ ha)
    · intro v
      rw [waiting, List.countP_append, List.countP_singleton]
      have hv := h.indegree v
      rw [waiting] at hv
      by_cases hedge : edge.2 = v
      · subst hedge
        simp [hv]
      · simp [hedge, Function.update_of_ne (Ne.symm hedge), hv]

/-! ### One turn -/

theorem release_eq (edges : List (α × α)) (name : α) (candidates : List α)
    (hnodup : candidates.Nodup) : ∀ (indegree : α → Nat) (ready : List α),
    release edges name candidates indegree ready =
      (fun v => if v ∈ candidates ∧ (name, v) ∈ edges then indegree v - 1 else indegree v,
        ready ++ candidates.filter fun c =>
          decide ((name, c) ∈ edges) && (indegree c - 1 == 0)) := by
  induction candidates with
  | nil => simp [release]
  | cons c candidates ih =>
      intro indegree ready
      obtain ⟨hc, hnodup⟩ := List.nodup_cons.mp hnodup
      rw [release]
      split_ifs with hedge
      · have hfilter : ∀ n, (candidates.filter fun x => decide ((name, x) ∈ edges) &&
            (Function.update indegree c n x - 1 == 0)) =
            candidates.filter fun x => decide ((name, x) ∈ edges) && (indegree x - 1 == 0) := by
          intro n
          apply List.filter_congr
          intro x hx
          rw [Function.update_of_ne]
          rintro rfl
          exact hc hx
        simp only
        rw [ih hnodup, hfilter]
        refine Prod.ext ?_ ?_
        · funext v
          by_cases hv : v = c
          · subst hv
            simp [hc, hedge]
          · simp [hv]
        · by_cases hzero : indegree c - 1 = 0
          · simp [hedge, hzero]
          · simp [hzero]
      · rw [ih hnodup]
        refine Prod.ext ?_ ?_
        · funext v
          by_cases hv : v = c
          · subst hv
            simp [hc, hedge]
          · simp [hv]
        · simp [hedge]

/-- What holds of the queue all the time: the nodes in it and in the order are those with
no edge from a node outside of the order, and all predecessors of a node in the order
come before it. -/
structure Invariant (edges : List (α × α)) (nodes : List α) (q : Queue α) : Prop where
  nodup : (q.ordered ++ q.ready).Nodup
  subset : ∀ v ∈ q.ordered ++ q.ready, v ∈ nodes
  count : ∀ v ∈ nodes, q.indegree v = waiting edges q.ordered v
  zero : ∀ v ∈ nodes, v ∈ q.ordered ++ q.ready ↔ q.indegree v = 0
  closed : ∀ before v after, q.ordered = before ++ v :: after →
    ∀ u, (u, v) ∈ edges → u ∈ before

theorem Invariant.start {g : Graph α} (hcounts : g.Counts) {nodes : List α}
    (hnodup : nodes.Nodup) : Invariant g.edges nodes (g.start nodes) where
  nodup := hnodup.filter _
  subset v hv := List.mem_of_mem_filter hv
  count v _ := hcounts.indegree v
  zero v hv := by simp [Graph.start, hv]
  closed before v after h := by
    simp [Graph.start] at h

theorem Invariant.next {edges : List (α × α)} (hedges : edges.Nodup) {nodes : List α}
    (hnodes : nodes.Nodup) {indegree : α → Nat} {name : α} {ready ordered : List α}
    (h : Invariant edges nodes ⟨indegree, name :: ready, ordered⟩) :
    Invariant edges nodes ⟨(release edges name nodes indegree ready).1,
      (release edges name nodes indegree ready).2, ordered ++ [name]⟩ := by
  rw [release_eq edges name nodes hnodes]
  have hall := h.nodup
  simp only at hall
  have hname : name ∉ ordered := fun hmem =>
    List.disjoint_of_nodup_append hall hmem List.mem_cons_self
  have hin : name ∈ nodes := h.subset name (by simp)
  -- The edges from the node are those that are no longer waited for.
  have hwaiting : ∀ v ∈ nodes, waiting edges (ordered ++ [name]) v =
      if v ∈ nodes ∧ (name, v) ∈ edges then indegree v - 1 else indegree v := by
    intro v hv
    have hcount := h.count v hv
    simp only at hcount
    rw [hcount, waiting_append edges ordered hname v, hedges.count]
    by_cases hedge : (name, v) ∈ edges
    · simp [hv, hedge]
    · simp [hedge]
  have hpreds : ∀ u, (u, name) ∈ edges → u ∈ ordered := by
    rw [← waiting_eq_zero, ← h.count name hin]
    exact (h.zero name hin).mp (by simp)
  have hopen : ∀ v ∈ nodes, (name, v) ∈ edges → v ∉ ordered ++ name :: ready := by
    intro v hv hedge hmem
    have hzero := (h.zero v hv).mp hmem
    rw [h.count v hv, waiting_eq_zero] at hzero
    exact hname (hzero name hedge)
  constructor
  · simp only
    rw [← List.append_assoc, List.append_assoc ordered [name] ready, List.nodup_append]
    refine ⟨hall, hnodes.filter _, ?_⟩
    rintro a ha b hb rfl
    rw [List.mem_filter, Bool.and_eq_true, decide_eq_true_eq] at hb
    exact hopen a hb.1 hb.2.1 ha
  · intro v hv
    simp only [List.mem_append, List.mem_singleton, List.mem_filter] at hv
    rcases hv with (hv | rfl) | hv | hv
    · exact h.subset v (by simp [hv])
    · exact hin
    · exact h.subset v (by simp [hv])
    · exact hv.1
  · intro v hv
    exact (hwaiting v hv).symm
  · intro v hv
    have hzero := h.zero v hv
    simp only [List.mem_append, List.mem_cons] at hzero
    simp only [List.mem_append, List.mem_singleton, List.mem_filter, Bool.and_eq_true,
      decide_eq_true_eq, beq_iff_eq]
    by_cases hedge : (name, v) ∈ edges
    · have hnot := hopen v hv hedge
      simp only [List.mem_append, List.mem_cons, not_or] at hnot
      simp [hv, hedge, hnot]
    · simp only [hedge, and_false, false_and, or_false, if_false, ← hzero]
      tauto
  · intro before v after heq u hu
    simp only at heq
    rcases List.eq_nil_or_concat after with rfl | ⟨front, last, rfl⟩
    · obtain ⟨rfl, hlast⟩ := List.append_inj' heq rfl
      obtain rfl : name = v := by simpa using hlast
      exact hpreds u hu
    · have heq' : ordered ++ [name] = (before ++ v :: front) ++ [last] := by simpa using heq
      obtain ⟨hfront, -⟩ := List.append_inj' heq' rfl
      exact h.closed before v front hfront u hu

theorem drain_spec {edges : List (α × α)} (hedges : edges.Nodup) {nodes : List α}
    (hnodes : nodes.Nodup) (turns : Nat) : ∀ q : Queue α, Invariant edges nodes q →
    nodes.length ≤ turns + q.ordered.length →
    ∃ indegree order, drain edges nodes turns q = some order ∧
      Invariant edges nodes ⟨indegree, [], order⟩ := by
  induction turns with
  | zero =>
      rintro ⟨indegree, _ | ⟨name, ready⟩, ordered⟩ h hlen
      · exact ⟨indegree, ordered, rfl, h⟩
      · have hle := (h.nodup.subperm h.subset).length_le
        simp at hle hlen
        omega
  | succ turns ih =>
      rintro ⟨indegree, _ | ⟨name, ready⟩, ordered⟩ h hlen
      · exact ⟨indegree, ordered, rfl, h⟩
      · rw [drain]
        apply ih _ (h.next hedges hnodes)
        simp at hlen ⊢
        omega

/-! ### The order -/

/-- An order that has no node twice and all predecessors of a node before it. -/
structure Sorted (edges : List (α × α)) (order : List α) : Prop where
  nodup : order.Nodup
  closed : ∀ before v after, order = before ++ v :: after → ∀ u, (u, v) ∈ edges → u ∈ before

theorem Sorted.idxOf_lt {edges : List (α × α)} {order : List α} (h : Sorted edges order)
    {u v : α} (hedge : (u, v) ∈ edges) (hv : v ∈ order) : order.idxOf u < order.idxOf v := by
  obtain ⟨before, after, rfl⟩ := List.append_of_mem hv
  have hu := h.closed before v after rfl u hedge
  have hnot : v ∉ before := fun hmem =>
    List.disjoint_of_nodup_append h.nodup hmem List.mem_cons_self
  rw [List.idxOf_append_of_mem hu, List.idxOf_append_of_notMem hnot, List.idxOf_cons_self]
  have hlt := List.idxOf_lt_length_iff.mpr hu
  omega

/-- A path of edges. -/
def Path (edges : List (α × α)) : α → α → Prop :=
  Relation.TransGen fun u v => (u, v) ∈ edges

theorem Sorted.path_idxOf_lt {edges : List (α × α)} {order : List α} (h : Sorted edges order)
    (hall : ∀ e ∈ edges, e.2 ∈ order) {u v : α} (hpath : Path edges u v) :
    order.idxOf u < order.idxOf v := by
  induction hpath with
  | single hedge => exact h.idxOf_lt hedge (hall _ hedge)
  | tail _ hedge ih => exact ih.trans (h.idxOf_lt hedge (hall _ hedge))

/-- Nodes that all have a predecessor among them lie on a cycle or come after one. -/
theorem exists_cycle {edges : List (α × α)} {nodes rest : List α}
    (hrest : ∀ v ∈ rest, v ∈ nodes) (hne : rest ≠ [])
    (hpred : ∀ v ∈ rest, ∃ u ∈ rest, (u, v) ∈ edges) : ∃ v, Path edges v v := by
  by_contra hacyclic
  have htrans : IsTrans {v // v ∈ nodes} fun u v => Path edges u.1 v.1 :=
    ⟨fun _ _ _ h₁ h₂ => h₁.trans h₂⟩
  have hirrefl : Std.Irrefl fun u v : {v // v ∈ nodes} => Path edges u.1 v.1 :=
    ⟨fun v h => hacyclic ⟨v.1, h⟩⟩
  have hfinite : Finite {v // v ∈ nodes} :=
    Finite.of_equiv {v // v ∈ nodes.toFinset} (Equiv.subtypeEquivRight fun _ => List.mem_toFinset)
  have hwf := Finite.wellFounded_of_trans_of_irrefl
    fun u v : {v // v ∈ nodes} => Path edges u.1 v.1
  obtain ⟨w, hw⟩ := List.exists_mem_of_ne_nil rest hne
  obtain ⟨v, hv, hmin⟩ := hwf.has_min {v | v.1 ∈ rest} ⟨⟨w, hrest w hw⟩, hw⟩
  obtain ⟨u, hu, hedge⟩ := hpred v.1 hv
  exact hmin ⟨u, hrest u hu⟩ hu (Relation.TransGen.single hedge)

/-- Sorting ends with an order of nodes, and it has all nodes exactly if no path comes back
to where it starts. -/
theorem Graph.sort_spec {g : Graph α} (hcounts : g.Counts) {nodes : List α}
    (hnodes : nodes.Nodup) (hedges : ∀ e ∈ g.edges, e.1 ∈ nodes ∧ e.2 ∈ nodes) :
    ∃ order, g.sort nodes = some order ∧ Sorted g.edges order ∧ order ⊆ nodes ∧
      (order.length = nodes.length ↔ ¬ ∃ v, Path g.edges v v) := by
  obtain ⟨indegree, order, hdrain, hinv⟩ := drain_spec hcounts.nodup hnodes nodes.length
    (g.start nodes) (.start hcounts hnodes) (Nat.le_add_right _ _)
  have hsorted : Sorted g.edges order :=
    ⟨by simpa using hinv.nodup, hinv.closed⟩
  have hsub : order ⊆ nodes := fun v hv => hinv.subset v (by simpa using hv)
  refine ⟨order, hdrain, hsorted, hsub, ?_⟩
  constructor
  · rintro hlen ⟨v, hpath⟩
    have hperm := (hsorted.nodup.subperm hsub).perm_of_length_le hlen.ge
    have hall : ∀ e ∈ g.edges, e.2 ∈ order := fun e he => hperm.mem_iff.mpr (hedges e he).2
    exact lt_irrefl _ (hsorted.path_idxOf_lt hall hpath)
  · intro hacyclic
    by_contra hlen
    apply hacyclic
    refine @exists_cycle α _ g.edges nodes (nodes.filter (· ∉ order))
      (fun v hv => List.mem_of_mem_filter hv) ?_ ?_
    · intro hnil
      rw [List.filter_eq_nil_iff] at hnil
      have hsub' : nodes ⊆ order := fun v hv => by simpa using hnil v hv
      exact hlen (le_antisymm (hsorted.nodup.subperm hsub).length_le
        (hnodes.subperm hsub').length_le)
    · intro v hv
      rw [List.mem_filter, decide_eq_true_eq] at hv
      have hcount : indegree v = waiting g.edges order v := hinv.count v hv.1
      have hzero : ¬ indegree v = 0 := by
        rw [← hinv.zero v hv.1]
        simpa using hv.2
      rw [hcount, waiting_eq_zero] at hzero
      push Not at hzero
      obtain ⟨u, hedge, hu⟩ := hzero
      exact ⟨u, List.mem_filter.mpr ⟨(hedges _ hedge).1, by simpa using hu⟩, hedge⟩

end Harc.TopologicalSort
