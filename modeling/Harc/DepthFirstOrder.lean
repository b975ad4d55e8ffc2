import Mathlib.Data.List.Nodup
import Mathlib.Data.List.Chain
import Mathlib.Logic.Function.Basic
import Mathlib.Logic.Relation

/-!
Depth-first search for an order in which every node comes after those it depends on.  A
node that is met again while its own visit is open closes a cycle; if none is met, the
order has all nodes.
-/

namespace Harc.DepthFirstOrder

variable {α : Type*}

/-! ### The search -/

inductive Mark where
  | fresh
  | active
  | done
deriving DecidableEq, Repr

/-- The last node of the stack is the one that was entered last. -/
structure Search (α : Type*) where
  mark : α → Mark
  stack : List α
  order : List α

namespace Search

def init : Search α := ⟨fun _ => .fresh, [], []⟩

variable [DecidableEq α]

def enter (s : Search α) (node : α) : Search α :=
  { s with mark := Function.update s.mark node .active, stack := s.stack ++ [node] }

def leave (s : Search α) (node : α) : Search α where
  mark := Function.update s.mark node .done
  stack := s.stack.dropLast
  order := s.order ++ [node]

/-- The open visits from a node on, and the node again. -/
def cycleAt (s : Search α) (node : α) : List α :=
  s.stack.drop ((s.stack.findIdx? (· = node)).getD 0) ++ [node]

end Search

/-- A cycle, or the search after a visit; none if the depth is used up. -/
abbrev Visit (α : Type*) := Option (Except (List α) (Search α))

def visitAll (visit : α → Search α → Visit α) : List α → Search α → Visit α
  | [], s => some (.ok s)
  | dep :: deps, s =>
      match visit dep s with
      | some (.ok s') => visitAll visit deps s'
      | stopped => stopped

section Sorting

variable [DecidableEq α] (next : α → List α)

def visit : Nat → α → Search α → Visit α
  | 0, _, _ => none
  | depth + 1, node, s =>
      match s.mark node with
      | .done => some (.ok s)
      | .active => some (.error (s.cycleAt node))
      | .fresh =>
          match visitAll (visit depth) (next node) (s.enter node) with
          | some (.ok s') => some (.ok (s'.leave node))
          | stopped => stopped

def sort (nodes : List α) : Visit α :=
  visitAll (visit next (nodes.length + 1)) nodes .init

end Sorting

/-! ### What it finds -/

section Result

variable (next : α → List α)

/-- Each of the nodes once, after the nodes that it leads to. -/
structure Sorted (nodes order : List α) : Prop where
  nodup : order.Nodup
  mem_iff : ∀ v, v ∈ order ↔ v ∈ nodes
  closed : ∀ before v after, order = before ++ v :: after → ∀ w ∈ next v, w ∈ before

/-- A way from a node back to it. -/
def IsCycle (nodes cycle : List α) : Prop :=
  ∃ v inner, v ∈ nodes ∧ cycle = v :: (inner ++ [v]) ∧ cycle.IsChain fun a b => b ∈ next a

def Acyclic (nodes : List α) : Prop :=
  ∀ v ∈ nodes, ¬ Relation.TransGen (fun a b => b ∈ next a) v v

structure Invariant (nodes : List α) (s : Search α) : Prop where
  active : ∀ v, s.mark v = .active ↔ v ∈ s.stack
  done : ∀ v, s.mark v = .done ↔ v ∈ s.order
  stackNodup : s.stack.Nodup
  chain : s.stack.IsChain fun a b => b ∈ next a
  nodup : s.order.Nodup
  subset : ∀ v ∈ s.order, v ∈ nodes
  closed : ∀ before v after, s.order = before ++ v :: after → ∀ w ∈ next v, w ∈ before

end Result

variable {next : α → List α} {nodes : List α}

theorem IsCycle.not_acyclic {cycle : List α} (h : IsCycle next nodes cycle) :
    ¬ Acyclic next nodes := by
  rintro hacyclic
  obtain ⟨v, inner, hv, rfl, hchain⟩ := h
  refine hacyclic v hv ?_
  have hreach : ∀ (inner : List α) (a : α),
      (a :: (inner ++ [v])).IsChain (fun a b => b ∈ next a) →
      Relation.TransGen (fun a b => b ∈ next a) a v := by
    intro inner
    induction inner with
    | nil =>
        intro a ha
        exact .single (List.isChain_cons_cons.mp ha).1
    | cons b inner ih =>
        intro a ha
        obtain ⟨hab, hb⟩ := List.isChain_cons_cons.mp ha
        exact .head hab (ih b hb)
  exact hreach inner v hchain

/-- A node leads, in one step or more, only to nodes before it. -/
theorem Sorted.before {order : List α} (h : Sorted next nodes order) {v w : α}
    (hvw : Relation.TransGen (fun a b => b ∈ next a) v w) :
    ∀ before after, order = before ++ v :: after → w ∈ before := by
  induction hvw with
  | single hw =>
      intro before after heq
      exact h.closed before v after heq _ hw
  | tail _ hw ih =>
      intro before after heq
      obtain ⟨first, second, rfl⟩ := List.append_of_mem (ih before after heq)
      rw [List.append_assoc, List.cons_append] at heq
      exact List.mem_append_left _ (h.closed _ _ _ heq _ hw)

theorem Sorted.acyclic {order : List α} (h : Sorted next nodes order) : Acyclic next nodes := by
  rintro v hmem hv
  obtain ⟨before, after, heq⟩ := List.append_of_mem ((h.mem_iff v).mpr hmem)
  have hbefore := h.before hv before after heq
  have hnodup := h.nodup
  rw [heq, List.nodup_append] at hnodup
  exact hnodup.2.2 v hbefore v (by simp) rfl

/-! ### One visit -/

/-- The number of nodes that are not visited yet. -/
def freshCount (nodes : List α) (s : Search α) : Nat := nodes.countP fun v => s.mark v = .fresh

/-- What a visit leaves behind. -/
structure Extends (next : α → List α) (nodes : List α) (s s' : Search α) : Prop where
  invariant : Invariant next nodes s'
  stack : s'.stack = s.stack
  order : s.order <+: s'.order

def Good (next : α → List α) (nodes : List α) (s : Search α) (found : Search α → Prop) :
    Visit α → Prop
  | none => False
  | some (.error cycle) => IsCycle next nodes cycle
  | some (.ok s') => Extends next nodes s s' ∧ found s'

def VisitsWell (next : α → List α) (nodes : List α) (depth : Nat)
    (visit : α → Search α → Visit α) : Prop :=
  ∀ node s, Invariant next nodes s → node ∈ nodes → (∀ top ∈ s.stack.getLast?, node ∈ next top) →
    freshCount nodes s < depth → Good next nodes s (fun s' => node ∈ s'.order) (visit node s)

theorem Extends.trans {s s' s'' : Search α} (h : Extends next nodes s s')
    (h' : Extends next nodes s' s'') : Extends next nodes s s'' :=
  ⟨h'.invariant, h'.stack.trans h.stack, h.order.trans h'.order⟩

theorem Invariant.fresh_iff {s : Search α} (h : Invariant next nodes s) (v : α) :
    s.mark v = .fresh ↔ v ∉ s.stack ∧ v ∉ s.order := by
  rw [← h.active, ← h.done]
  rcases s.mark v <;> simp

theorem Extends.freshCount_le {s s' : Search α} (hs : Invariant next nodes s)
    (h : Extends next nodes s s') : freshCount nodes s' ≤ freshCount nodes s := by
  apply List.countP_mono_left
  intro v _ hv
  have hv' := (h.invariant.fresh_iff v).mp (of_decide_eq_true hv)
  rw [h.stack] at hv'
  exact decide_eq_true ((hs.fresh_iff v).mpr ⟨hv'.1, fun hmem => hv'.2 (h.order.subset hmem)⟩)

theorem invariant_init : Invariant next nodes .init :=
  ⟨by simp [Search.init], by simp [Search.init], List.nodup_nil, List.isChain_nil,
    List.nodup_nil, by simp [Search.init], by simp [Search.init]⟩

variable [DecidableEq α]

theorem freshCount_enter_lt {s : Search α} {node : α} (hnode : node ∈ nodes)
    (hfresh : s.mark node = .fresh) : freshCount nodes (s.enter node) < freshCount nodes s := by
  induction nodes with
  | nil => simp at hnode
  | cons v nodes ih =>
      have hle : freshCount nodes (s.enter node) ≤ freshCount nodes s := by
        apply List.countP_mono_left
        intro w _ hw
        rcases eq_or_ne w node with rfl | hne
        · exact decide_eq_true hfresh
        · simpa [Search.enter, hne] using hw
      rcases List.mem_cons.mp hnode with rfl | hmem
      · simp only [freshCount, List.countP_cons] at hle ⊢
        simp only [Search.enter, Function.update_self, hfresh] at hle ⊢
        simp
        omega
      · have hlt := ih hmem
        simp only [freshCount, List.countP_cons] at hlt ⊢
        rcases eq_or_ne v node with rfl | hne
        · simp only [Search.enter, Function.update_self, hfresh] at hlt ⊢
          simp
          omega
        · simp only [Search.enter, Function.update_of_ne hne] at hlt ⊢
          omega

theorem Invariant.enter {s : Search α} {node : α} (h : Invariant next nodes s)
    (hfresh : s.mark node = .fresh) (htop : ∀ top ∈ s.stack.getLast?, node ∈ next top) :
    Invariant next nodes (s.enter node) := by
  obtain ⟨hstack, horder⟩ := (h.fresh_iff node).mp hfresh
  refine ⟨?_, ?_, ?_, ?_, h.nodup, h.subset, h.closed⟩
  · intro v
    rcases eq_or_ne v node with rfl | hne
    · simp [Search.enter]
    · simp [Search.enter, hne, h.active]
  · intro v
    rcases eq_or_ne v node with rfl | hne
    · simp [Search.enter, horder]
    · simp [Search.enter, hne, h.done]
  · exact List.nodup_append.mpr ⟨h.stackNodup, List.nodup_singleton _, by
      rintro a ha b hb rfl
      exact hstack (List.mem_singleton.mp hb ▸ ha)⟩
  · refine List.isChain_append.mpr ⟨h.chain, List.isChain_singleton _, ?_⟩
    rintro top htop' b hb
    rw [List.head?_singleton, Option.mem_some_iff] at hb
    subst hb
    exact htop top htop'

theorem Invariant.leave {s s' : Search α} {node : α} (h : Extends next nodes (s.enter node) s')
    (hs : Invariant next nodes s) (hnode : node ∈ nodes) (hnext : ∀ w ∈ next node, w ∈ s'.order) :
    Extends next nodes s (s'.leave node) := by
  obtain ⟨h, hstack, horder⟩ := h
  have hstack' : s'.stack = s.stack ++ [node] := hstack
  have hmark : s'.mark node = .active := (h.active node).mpr (by simp [hstack'])
  have hnot : node ∉ s'.order := by
    rw [← h.done, hmark]
    simp
  have hnot' : node ∉ s.stack := by
    have hnodup := h.stackNodup
    rw [hstack', List.nodup_append] at hnodup
    exact fun hmem => hnodup.2.2 node hmem node (List.mem_singleton_self _) rfl
  refine ⟨⟨?_, ?_, ?_, ?_, ?_, ?_, ?_⟩, by simp [Search.leave, hstack'],
    horder.trans (List.prefix_append _ _)⟩
  · intro v
    rcases eq_or_ne v node with rfl | hne
    · simp [Search.leave, hstack', hnot']
    · simp [Search.leave, hne, h.active, hstack']
  · intro v
    rcases eq_or_ne v node with rfl | hne
    · simp [Search.leave]
    · simp [Search.leave, hne, h.done]
  · simpa [Search.leave, hstack'] using hs.stackNodup
  · simpa [Search.leave, hstack'] using hs.chain
  · exact List.nodup_append.mpr ⟨h.nodup, List.nodup_singleton _, by
      rintro a ha b hb rfl
      exact hnot (List.mem_singleton.mp hb ▸ ha)⟩
  · intro v hv
    rcases List.mem_append.mp hv with hv | hv
    · exact h.subset v hv
    · exact List.mem_singleton.mp hv ▸ hnode
  · intro before v after heq w hw
    rcases List.eq_nil_or_concat after with rfl | ⟨after', last, rfl⟩
    · obtain ⟨rfl, hv⟩ := List.append_inj' heq rfl
      obtain rfl : node = v := by simpa using hv
      exact hnext w hw
    · have heq' : s'.order ++ [node] = (before ++ v :: after') ++ [last] := by
        rw [show s'.order ++ [node] = (s'.leave node).order from rfl, heq]
        simp
      exact h.closed before v after' (List.append_inj' heq' rfl).1 w hw

/-- The open visits from a node of the stack on make a cycle with an edge back to it. -/
theorem Invariant.cycleAt {s : Search α} {node : α} (h : Invariant next nodes s)
    (hnode : node ∈ nodes) (hactive : s.mark node = .active)
    (htop : ∀ top ∈ s.stack.getLast?, node ∈ next top) :
    IsCycle next nodes (s.cycleAt node) := by
  have hmem := (h.active node).mp hactive
  obtain ⟨below, above, hsplit, hbelow⟩ := List.eq_append_cons_of_mem hmem
  have hidx : s.stack.findIdx? (· = node) = some below.length := by
    rw [hsplit, List.findIdx?_append]
    have hnone : below.findIdx? (· = node) = none := by
      rw [List.findIdx?_eq_none_iff]
      intro x hx
      exact decide_eq_false fun heq => hbelow (heq ▸ hx)
    rw [hnone]
    simp [List.findIdx?_cons]
  have hcycle : s.cycleAt node = node :: (above ++ [node]) := by
    rw [Search.cycleAt, hidx, hsplit]
    simp
  refine ⟨node, above, hnode, hcycle, ?_⟩
  rw [hcycle, ← List.cons_append]
  have hchain := h.chain
  rw [hsplit] at hchain htop
  refine List.isChain_append.mpr ⟨(List.isChain_append.mp hchain).2.1, List.isChain_singleton _, ?_⟩
  rintro top htop' b hb
  rw [List.head?_singleton, Option.mem_some_iff] at hb
  subst hb
  apply htop
  rw [List.getLast?_append]
  rw [Option.mem_def] at htop' ⊢
  rw [htop']
  rfl

omit [DecidableEq α] in
theorem VisitsWell.visitAll {depth : Nat} {visit : α → Search α → Visit α}
    (h : VisitsWell next nodes depth visit) (deps : List α) (hdeps : ∀ w ∈ deps, w ∈ nodes) :
    ∀ s, Invariant next nodes s → (∀ top ∈ s.stack.getLast?, ∀ w ∈ deps, w ∈ next top) →
      freshCount nodes s < depth →
      Good next nodes s (fun s' => ∀ w ∈ deps, w ∈ s'.order) (visitAll visit deps s) := by
  induction deps with
  | nil =>
      intro s hs _ _
      exact ⟨⟨hs, rfl, List.prefix_refl _⟩, by simp⟩
  | cons dep deps ih =>
      intro s hs htop hfresh
      have hdep := h dep s hs (hdeps dep (by simp)) (fun top ht => htop top ht dep (by simp)) hfresh
      rw [DepthFirstOrder.visitAll]
      rcases hvisit : visit dep s with _ | _ | s'
      · rw [hvisit] at hdep
        exact hdep
      · rw [hvisit] at hdep
        exact hdep
      · rw [hvisit] at hdep
        obtain ⟨hextends, hfound⟩ := hdep
        have hrest := ih (fun w hw => hdeps w (by simp [hw])) s' hextends.invariant
          (fun top ht w hw => htop top (hextends.stack ▸ ht) w (by simp [hw]))
          ((hextends.freshCount_le hs).trans_lt hfresh)
        change Good next nodes s _ (DepthFirstOrder.visitAll visit deps s')
        rcases hall : DepthFirstOrder.visitAll visit deps s' with _ | _ | s''
        · rw [hall] at hrest
          exact hrest
        · rw [hall] at hrest
          exact hrest
        · rw [hall] at hrest
          refine ⟨hextends.trans hrest.1, ?_⟩
          intro w hw
          rcases List.mem_cons.mp hw with rfl | hw
          · exact hrest.1.order.subset hfound
          · exact hrest.2 w hw

theorem visit_visitsWell (hnext : ∀ v ∈ nodes, ∀ w ∈ next v, w ∈ nodes) (depth : Nat) :
    VisitsWell next nodes depth (visit next depth) := by
  induction depth with
  | zero => exact fun _ _ _ _ _ hfresh => absurd hfresh (Nat.not_lt_zero _)
  | succ depth ih =>
      intro node s hs hnode htop hfresh
      rw [visit]
      rcases hmark : s.mark node with _ | _ | _
      · have hlt := freshCount_enter_lt hnode hmark
        have henter := hs.enter hmark htop
        have hall := ih.visitAll (next node) (hnext node hnode) (s.enter node) henter
          (by simp [Search.enter]) (by omega)
        change Good next nodes s _ (match visitAll (visit next depth) (next node) (s.enter node) with
          | some (.ok s') => some (.ok (s'.leave node))
          | stopped => stopped)
        rcases hvisit : visitAll (visit next depth) (next node) (s.enter node) with _ | _ | s'
        · rw [hvisit] at hall
          exact hall
        · rw [hvisit] at hall
          exact hall
        · rw [hvisit] at hall
          exact ⟨Invariant.leave hall.1 hs hnode hall.2, by simp [Search.leave]⟩
      · exact hs.cycleAt hnode hmark htop
      · exact ⟨⟨hs, rfl, List.prefix_refl _⟩, (hs.done node).mp hmark⟩

/-! ### The whole search -/

theorem sort_spec (hnext : ∀ v ∈ nodes, ∀ w ∈ next v, w ∈ nodes) :
    (∃ s, sort next nodes = some (.ok s) ∧ Sorted next nodes s.order) ∨
      ∃ cycle, sort next nodes = some (.error cycle) ∧ IsCycle next nodes cycle := by
  have hcount : freshCount nodes (.init : Search α) < nodes.length + 1 :=
    Nat.lt_succ_of_le List.countP_le_length
  have h := (visit_visitsWell hnext (nodes.length + 1)).visitAll nodes (fun _ hw => hw) .init
    invariant_init (by simp [Search.init]) hcount
  change Good next nodes _ _ (sort next nodes) at h
  rcases hsort : sort next nodes with _ | cycle | s
  · rw [hsort] at h
    exact h.elim
  · rw [hsort] at h
    exact Or.inr ⟨cycle, rfl, h⟩
  · rw [hsort] at h
    obtain ⟨hextends, hfound⟩ := h
    exact Or.inl ⟨s, rfl, hextends.invariant.nodup,
      fun v => ⟨hextends.invariant.subset v, hfound v⟩, hextends.invariant.closed⟩

end Harc.DepthFirstOrder
