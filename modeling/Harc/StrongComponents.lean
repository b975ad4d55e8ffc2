import Mathlib.Data.List.Nodup
import Mathlib.Logic.Function.Basic
import Mathlib.Logic.Relation

/-!
Tarjan's search for the strongly connected components of a graph on the numbers below a
bound, and its correctness: the components partition the nodes, and two nodes share one
exactly if each is reachable from the other.
-/

namespace Harc.StrongComponents

/-! ### The search -/

/-- The state of the search.  The top of the stack comes first, and the components are in
the order in which they are closed. -/
structure Tarjan where
  next : Nat
  indices : Nat → Option Nat
  low : Nat → Nat
  stack : List Nat
  onStack : Nat → Bool
  components : List (List Nat)

namespace Tarjan

def init : Tarjan := ⟨0, fun _ => none, fun _ => 0, [], fun _ => false, []⟩

def discover (t : Tarjan) (node : Nat) : Tarjan where
  next := t.next + 1
  indices := Function.update t.indices node (some t.next)
  low := Function.update t.low node t.next
  stack := node :: t.stack
  onStack := Function.update t.onStack node true
  components := t.components

def lower (t : Tarjan) (node value : Nat) : Tarjan :=
  { t with low := Function.update t.low node (min (t.low node) value) }

/-- The members above a node with the node itself, and the rest of the stack. -/
def popTo (node : Nat) : List Nat → List Nat × List Nat
  | [] => ([], [])
  | member :: rest =>
      if member = node then ([member], rest)
      else
        let popped := popTo node rest
        (member :: popped.1, popped.2)

/-- Closes the component of a node that reaches nothing older on the stack. -/
def close (t : Tarjan) (node : Nat) : Tarjan :=
  if some (t.low node) = t.indices node then
    let popped := popTo node t.stack
    { t with
      stack := popped.2
      onStack := fun x => t.onStack x && !popped.1.contains x
      components := t.components ++ [popped.1.mergeSort] }
  else t

end Tarjan

section Search

variable (n : Nat) (deps : Nat → List Nat)

/-- One dependency of a node; `visitNode` visits a node that is new. -/
def lookAt (visitNode : Nat → Tarjan → Tarjan) (node : Nat) (t : Tarjan) (dep : Nat) : Tarjan :=
  if n ≤ dep then t
  else
    match t.indices dep with
    | none =>
        let visited := visitNode dep t
        visited.lower node (visited.low dep)
    | some index => if t.onStack dep then t.lower node index else t

def visit : Nat → Nat → Tarjan → Tarjan
  | 0, _, t => t
  | fuel + 1, node, t =>
      ((deps node).foldl (lookAt n (visit fuel) node) (t.discover node)).close node

def visitRoot (t : Tarjan) (node : Nat) : Tarjan :=
  match t.indices node with
  | none => visit n deps n node t
  | some _ => t

def search : Tarjan :=
  (List.range n).foldl (visitRoot n deps) .init

/-- The components, in the order of their first members. -/
def stronglyConnectedComponents : List (List Nat) :=
  (search n deps).components.mergeSort fun c d => c.headD 0 ≤ d.headD 0

/-! ### Reachability -/

def Edge (x y : Nat) : Prop :=
  x < n ∧ y < n ∧ y ∈ deps x

def Reaches : Nat → Nat → Prop :=
  Relation.ReflTransGen (Edge n deps)

end Search

variable {n : Nat} {deps : Nat → List Nat}

theorem Reaches.trans {x y z : Nat} (h : Reaches n deps x y) (h' : Reaches n deps y z) :
    Reaches n deps x z :=
  Relation.ReflTransGen.trans h h'

theorem Reaches.head {x y z : Nat} (h : Edge n deps x y) (h' : Reaches n deps y z) :
    Reaches n deps x z :=
  Relation.ReflTransGen.head h h'

/-- A node that was found before the search went on. -/
def Tarjan.Found (t : Tarjan) (x : Nat) : Prop :=
  ∃ i, t.indices x = some i

/-- What holds of the state between the visits of nodes. -/
structure Inv (n : Nat) (deps : Nat → List Nat) (t : Tarjan) : Prop where
  index_lt : ∀ x i, t.indices x = some i → i < t.next
  index_inj : ∀ x y i, t.indices x = some i → t.indices y = some i → x = y
  range : ∀ x, t.Found x → x < n
  placed : ∀ x, t.Found x ↔ x ∈ t.components.flatten ∨ x ∈ t.stack
  nodup : (t.components.flatten ++ t.stack).Nodup
  onStack : ∀ x, t.onStack x = true ↔ x ∈ t.stack
  connected : ∀ c ∈ t.components, ∀ x ∈ c, ∀ y ∈ c, Reaches n deps x y
  shape : ∀ c ∈ t.components, c ≠ [] ∧ c.Pairwise (· ≤ ·)
  closed : ∀ (i : Nat) c, t.components[i]? = some c → ∀ x ∈ c, ∀ y, Edge n deps x y →
    ∃ (j : Nat) (d : List Nat), j ≤ i ∧ t.components[j]? = some d ∧ y ∈ d

/-- What stays as it was while new nodes are visited. -/
structure Grows (t t' : Tarjan) : Prop where
  next : t.next ≤ t'.next
  indices : ∀ x i, t.indices x = some i → t'.indices x = some i
  old : ∀ x i, t'.indices x = some i → i < t.next → t.indices x = some i
  low : ∀ x, t.Found x → t'.low x = t.low x
  components : t.components <+: t'.components

theorem Grows.refl (t : Tarjan) : Grows t t :=
  ⟨Nat.le_refl _, fun _ _ hi => hi, fun _ _ hi _ => hi, fun _ _ => rfl, List.prefix_refl _⟩

theorem Grows.found {t t' : Tarjan} (h : Grows t t') {x : Nat} (hx : t.Found x) : t'.Found x := by
  obtain ⟨i, hi⟩ := hx
  exact ⟨i, h.indices x i hi⟩

theorem Grows.trans {t t' t'' : Tarjan} (h : Grows t t') (h' : Grows t' t'') : Grows t t'' := by
  refine ⟨Nat.le_trans h.next h'.next, ?_, ?_, ?_, h.components.trans h'.components⟩
  · exact fun x i hi => h'.indices x i (h.indices x i hi)
  · exact fun x i hi hlt => h.old x i (h'.old x i hi (Nat.lt_of_lt_of_le hlt h.next)) hlt
  · exact fun x hx => (h'.low x (h.found hx)).trans (h.low x hx)

theorem Grows.mem_components {t t' : Tarjan} (h : Grows t t') {x : Nat}
    (hx : x ∈ t.components.flatten) : x ∈ t'.components.flatten := by
  obtain ⟨c, hc, hxc⟩ := List.mem_flatten.mp hx
  exact List.mem_flatten.mpr ⟨c, h.components.subset hc, hxc⟩

/-- The nodes that are not found yet. -/
def unfound (n : Nat) (t : Tarjan) : Nat :=
  (List.range n).countP fun x => (t.indices x).isNone

theorem unfound_le {t t' : Tarjan} (h : Grows t t') : unfound n t' ≤ unfound n t := by
  refine List.countP_mono_left fun x _ hx => ?_
  cases hi : t.indices x with
  | none => rfl
  | some i =>
      rw [h.indices x i hi] at hx
      exact hx

theorem unfound_discover {t : Tarjan} {node : Nat} (hn : node < n)
    (hnew : t.indices node = none) : unfound n (t.discover node) < unfound n t := by
  unfold unfound
  have hmem : node ∈ List.range n := List.mem_range.mpr hn
  obtain ⟨before, after, hsplit⟩ := List.append_of_mem hmem
  have hle : ∀ xs : List Nat,
      xs.countP (fun x => ((t.discover node).indices x).isNone) ≤
        xs.countP fun x => (t.indices x).isNone := by
    intro xs
    refine List.countP_mono_left fun x _ hx => ?_
    by_cases hxn : x = node
    · rw [hxn, hnew]
      rfl
    · simpa [Tarjan.discover, Function.update_of_ne hxn] using hx
  have h1 := hle before
  have h2 := hle after
  rw [hsplit, List.countP_append, List.countP_append, List.countP_cons_of_neg,
    List.countP_cons_of_pos]
  · omega
  · rw [hnew]
    rfl
  · simp [Tarjan.discover]

/-! ### Visits -/

/-- A node that reaches an older one of the stack, above a bound. -/
def Escapes (n : Nat) (deps : Nat → List Nat) (t : Tarjan) (bound x : Nat) : Prop :=
  ∃ y ∈ t.stack, ∃ i j, t.indices x = some i ∧ t.indices y = some j ∧ j < i ∧ bound ≤ j ∧
    Reaches n deps x y

/-- A dependency that is closed, or on the stack above a bound. -/
def Settled (t : Tarjan) (bound y : Nat) : Prop :=
  y ∈ t.components.flatten ∨ y ∈ t.stack ∧ ∃ j, t.indices y = some j ∧ bound ≤ j

/-- A node that stays on the stack after its visit. -/
structure Stays (n : Nat) (deps : Nat → List Nat) (t : Tarjan) (bound root x : Nat) : Prop where
  reached : Reaches n deps root x
  escapes : Escapes n deps t bound x
  settled : ∀ y, Edge n deps x y → Settled t bound y

/-- The visit of a node, from its start to its end. -/
structure Visited (n : Nat) (deps : Nat → List Nat) (t t' : Tarjan) (node : Nat) : Prop where
  inv : Inv n deps t'
  grows : Grows t t'
  index : t'.indices node = some t.next
  stack : ∃ new, t'.stack = new ++ t.stack ∧
    (∀ x ∈ new, Stays n deps t' (t'.low node) node x) ∧
    (new = [] ∧ t'.low node = t.next ∨
      ∃ y ∈ t.stack, t'.indices y = some (t'.low node) ∧ Reaches n deps node y)

/-- The visit of a node while its dependencies are looked at. -/
structure Visiting (n : Nat) (deps : Nat → List Nat) (t t' : Tarjan) (node : Nat)
    (seen : List Nat) : Prop where
  inv : Inv n deps t'
  grows : Grows t t'
  index : t'.indices node = some t.next
  fresh : t.indices node = none
  stack : ∃ above, t'.stack = above ++ node :: t.stack ∧
    ∀ x ∈ above, Stays n deps t' (t'.low node) node x
  low_le : t'.low node ≤ t.next
  lowTo : ∃ y ∈ t'.stack, t'.indices y = some (t'.low node) ∧ Reaches n deps node y
  seen : ∀ y ∈ seen, y < n → Settled t' (t'.low node) y

theorem Escapes.mono {t t' : Tarjan} {bound bound' x : Nat} (h : Escapes n deps t bound x)
    (hstack : t.stack ⊆ t'.stack) (hindices : ∀ x i, t.indices x = some i → t'.indices x = some i)
    (hbound : bound' ≤ bound) : Escapes n deps t' bound' x := by
  obtain ⟨y, hy, i, j, hi, hj, hlt, hle, hreach⟩ := h
  exact ⟨y, hstack hy, i, j, hindices x i hi, hindices y j hj, hlt, Nat.le_trans hbound hle, hreach⟩

theorem Settled.mono {t t' : Tarjan} {bound bound' y : Nat} (h : Settled t bound y)
    (hcomponents : y ∈ t.components.flatten → y ∈ t'.components.flatten)
    (hstack : t.stack ⊆ t'.stack) (hindices : ∀ x i, t.indices x = some i → t'.indices x = some i)
    (hbound : bound' ≤ bound) : Settled t' bound' y := by
  rcases h with hclosed | ⟨hy, j, hj, hle⟩
  · exact Or.inl (hcomponents hclosed)
  · exact Or.inr ⟨hstack hy, j, hindices y j hj, Nat.le_trans hbound hle⟩

theorem Stays.mono {t t' : Tarjan} {bound bound' root x : Nat} (h : Stays n deps t bound root x)
    (hcomponents : ∀ y, y ∈ t.components.flatten → y ∈ t'.components.flatten)
    (hstack : t.stack ⊆ t'.stack) (hindices : ∀ x i, t.indices x = some i → t'.indices x = some i)
    (hbound : bound' ≤ bound) : Stays n deps t' bound' root x :=
  ⟨h.reached, h.escapes.mono hstack hindices hbound,
    fun y hy => (h.settled y hy).mono (hcomponents y) hstack hindices hbound⟩

theorem Inv.lower {t : Tarjan} (h : Inv n deps t) (node value : Nat) :
    Inv n deps (t.lower node value) :=
  ⟨h.index_lt, h.index_inj, h.range, h.placed, h.nodup, h.onStack, h.connected, h.shape, h.closed⟩

theorem Tarjan.low_lower (t : Tarjan) (node value : Nat) :
    (t.lower node value).low node = min (t.low node) value := by
  simp [Tarjan.lower]

theorem Visiting.grows_lower {t t' : Tarjan} {node : Nat} {seen : List Nat}
    (h : Visiting n deps t t' node seen) (t'' : Tarjan) (hg : Grows t' t'') (value : Nat) :
    Grows t (t''.lower node value) := by
  have hall := h.grows.trans hg
  refine ⟨hall.next, hall.indices, hall.old, fun x hx => ?_, hall.components⟩
  have hne : x ≠ node := by
    rintro rfl
    obtain ⟨i, hi⟩ := hx
    rw [h.fresh] at hi
    simp at hi
  simp only [Tarjan.lower, Function.update_of_ne hne]
  exact hall.low x hx

/-- What a visit rests on: the node is new, and its dependencies can still be visited. -/
def VisitsNew (n : Nat) (deps : Nat → List Nat) (fuel : Nat)
    (visitNode : Nat → Tarjan → Tarjan) : Prop :=
  ∀ node t, node < n → t.indices node = none → Inv n deps t → unfound n t ≤ fuel →
    Visited n deps t (visitNode node t) node

theorem Inv.found_of_stack {t : Tarjan} (h : Inv n deps t) {x : Nat} (hx : x ∈ t.stack) :
    t.Found x := (h.placed x).mpr (Or.inr hx)

theorem Inv.not_closed_of_stack {t : Tarjan} (h : Inv n deps t) {x : Nat} (hx : x ∈ t.stack) :
    x ∉ t.components.flatten :=
  fun hc => (List.nodup_append.mp h.nodup).2.2 x hc x hx rfl

/-- The node that is being visited takes a smaller bound. -/
theorem Visiting.lower {t t' : Tarjan} {node : Nat} {seen : List Nat}
    (h : Visiting n deps t t' node seen) {value y : Nat} (hy : y ∈ t'.stack)
    (hindex : t'.indices y = some value) (hreach : Reaches n deps node y) :
    Visiting n deps t (t'.lower node value) node seen := by
  have hle : (t'.lower node value).low node ≤ t'.low node := by
    rw [Tarjan.low_lower]
    exact Nat.min_le_left _ _
  have hmono : ∀ x, Stays n deps t' (t'.low node) node x →
      Stays n deps (t'.lower node value) ((t'.lower node value).low node) node x :=
    fun x hx => hx.mono (fun _ hc => hc) (fun _ hs => hs) (fun _ _ hi => hi) hle
  have hgrows : Grows t (t'.lower node value) := by
    refine ⟨h.grows.next, h.grows.indices, h.grows.old, fun x hx => ?_, h.grows.components⟩
    have hne : x ≠ node := by
      rintro rfl
      obtain ⟨i, hi⟩ := hx
      rw [h.fresh] at hi
      simp at hi
    simp only [Tarjan.lower, Function.update_of_ne hne]
    exact h.grows.low x hx
  obtain ⟨above, habove, hstays⟩ := h.stack
  refine ⟨h.inv.lower node value, hgrows, h.index, h.fresh,
    ⟨above, habove, fun x hx => hmono x (hstays x hx)⟩, Nat.le_trans hle h.low_le, ?_, ?_⟩
  · rw [Tarjan.low_lower]
    rcases Nat.le_total (t'.low node) value with hmin | hmin
    · rw [Nat.min_eq_left hmin]
      exact h.lowTo
    · rw [Nat.min_eq_right hmin]
      exact ⟨y, hy, hindex, hreach⟩
  · intro z hz hlt
    exact (h.seen z hz hlt).mono (fun hc => hc) (fun _ hs => hs) (fun _ _ hi => hi) hle

/-- A child of the node that is being visited. -/
theorem Visiting.child {t t' t'' : Tarjan} {node dep : Nat} {seen : List Nat}
    (h : Visiting n deps t t' node seen) (hchild : Visited n deps t' t'' dep)
    (hnew : t'.indices dep = none) (hedge : Edge n deps node dep) :
    Visiting n deps t (t''.lower node (t''.low dep)) node (dep :: seen) := by
  obtain ⟨above, habove, hstays⟩ := h.stack
  obtain ⟨new, hnewStack, hnewStays, hend⟩ := hchild.stack
  have hsub : t'.stack ⊆ t''.stack := by
    rw [hnewStack]
    exact List.subset_append_right new t'.stack
  have hlow : t''.low node = t'.low node := hchild.grows.low node ⟨_, h.index⟩
  have hlt : t.next < t'.next := h.inv.index_lt node _ h.index
  have hbound : (t''.lower node (t''.low dep)).low node = min (t'.low node) (t''.low dep) := by
    rw [Tarjan.low_lower, hlow]
  have hleft : (t''.lower node (t''.low dep)).low node ≤ t'.low node := by omega
  have hright : (t''.lower node (t''.low dep)).low node ≤ t''.low dep := by omega
  refine ⟨hchild.inv.lower node _, h.grows_lower t'' hchild.grows _,
    hchild.grows.indices node _ h.index, h.fresh, ⟨new ++ above, ?_, ?_⟩,
    Nat.le_trans hleft h.low_le, ?_, ?_⟩
  · change t''.stack = _
    rw [hnewStack, habove, List.append_assoc]
  · intro x hx
    rcases List.mem_append.mp hx with hx | hx
    · have hstay : Stays n deps (t''.lower node (t''.low dep)) _ dep x :=
        (hnewStays x hx).mono (fun _ hc => hc) (fun _ hs => hs) (fun _ _ hi => hi) hright
      exact ⟨hstay.reached.head hedge, hstay.escapes, hstay.settled⟩
    · exact (hstays x hx).mono (fun _ hc => hchild.grows.mem_components hc) hsub
        hchild.grows.indices hleft
  · rw [hbound]
    rcases Nat.le_total (t'.low node) (t''.low dep) with hmin | hmin
    · rw [Nat.min_eq_left hmin]
      obtain ⟨y, hy, hindex, hreach⟩ := h.lowTo
      exact ⟨y, hsub hy, hchild.grows.indices y _ hindex, hreach⟩
    · rcases hend with ⟨-, hend⟩ | ⟨y, hy, hindex, hreach⟩
      · have hle := h.low_le
        omega
      · rw [Nat.min_eq_right hmin]
        exact ⟨y, hsub hy, hindex, hreach.head hedge⟩
  · intro y hy hylt
    rcases List.mem_cons.mp hy with rfl | hy
    · rcases (hchild.inv.placed y).mp ⟨_, hchild.index⟩ with hclosed | hstack
      · exact Or.inl hclosed
      · have hle := h.low_le
        exact Or.inr ⟨hstack, _, hchild.index, by omega⟩
    · exact (h.seen y hy hylt).mono (fun hc => hchild.grows.mem_components hc) hsub
        hchild.grows.indices hleft

/-- Looking at one dependency keeps what is known of the visit. -/
theorem Visiting.lookAt {t t' : Tarjan} {node dep fuel : Nat} {seen : List Nat}
    {visitNode : Nat → Tarjan → Tarjan} (hvisit : VisitsNew n deps fuel visitNode)
    (h : Visiting n deps t t' node seen) (hdep : dep ∈ deps node)
    (hfuel : unfound n t' ≤ fuel) :
    Visiting n deps t (lookAt n visitNode node t' dep) node (dep :: seen) ∧
      unfound n (StrongComponents.lookAt n visitNode node t' dep) ≤ fuel := by
  have hnode : node < n := h.inv.range node ⟨_, h.index⟩
  unfold StrongComponents.lookAt
  by_cases hlarge : n ≤ dep
  · rw [if_pos hlarge]
    refine ⟨⟨h.inv, h.grows, h.index, h.fresh, h.stack, h.low_le, h.lowTo, ?_⟩, hfuel⟩
    intro y hy hlt
    rcases List.mem_cons.mp hy with rfl | hy
    · omega
    · exact h.seen y hy hlt
  · rw [if_neg hlarge]
    have hedge : Edge n deps node dep := ⟨hnode, by omega, hdep⟩
    cases hindex : t'.indices dep with
    | none =>
        have hchild := hvisit dep t' (by omega) hindex h.inv hfuel
        refine ⟨h.child hchild hindex hedge, ?_⟩
        change unfound n (visitNode dep t') ≤ fuel
        exact Nat.le_trans (unfound_le hchild.grows) hfuel
    | some index =>
        dsimp only
        by_cases hon : t'.onStack dep = true
        · rw [if_pos hon]
          have hstack := (h.inv.onStack dep).mp hon
          have hlower := h.lower hstack hindex (Relation.ReflTransGen.single hedge)
          refine ⟨⟨hlower.inv, hlower.grows, hlower.index, hlower.fresh, hlower.stack,
            hlower.low_le, hlower.lowTo, ?_⟩, hfuel⟩
          intro y hy hlt
          rcases List.mem_cons.mp hy with rfl | hy
          · refine Or.inr ⟨hstack, index, hindex, ?_⟩
            rw [Tarjan.low_lower]
            exact Nat.min_le_right _ _
          · exact hlower.seen y hy hlt
        · rw [if_neg hon]
          refine ⟨⟨h.inv, h.grows, h.index, h.fresh, h.stack, h.low_le, h.lowTo, ?_⟩, hfuel⟩
          intro y hy hlt
          rcases List.mem_cons.mp hy with rfl | hy
          · rcases (h.inv.placed y).mp ⟨index, hindex⟩ with hclosed | hstack
            · exact Or.inl hclosed
            · exact absurd ((h.inv.onStack y).mpr hstack) hon
          · exact h.seen y hy hlt

theorem Visiting.lookAtAll {t : Tarjan} {node fuel : Nat} {visitNode : Nat → Tarjan → Tarjan}
    (hvisit : VisitsNew n deps fuel visitNode) (ds : List Nat) :
    ∀ (t' : Tarjan) (seen : List Nat), Visiting n deps t t' node seen → ds ⊆ deps node →
      unfound n t' ≤ fuel →
      Visiting n deps t (ds.foldl (StrongComponents.lookAt n visitNode node) t') node
        (ds.reverse ++ seen) := by
  induction ds with
  | nil => exact fun t' seen h _ _ => h
  | cons d ds ih =>
      intro t' seen h hsub hfuel
      obtain ⟨hnext, hnextFuel⟩ := h.lookAt hvisit (hsub List.mem_cons_self) hfuel
      have hall := ih _ _ hnext (fun x hx => hsub (List.mem_cons_of_mem d hx)) hnextFuel
      rw [List.foldl_cons, List.reverse_cons, List.append_assoc]
      exact hall

theorem popTo_append {node : Nat} {above below : List Nat} (h : node ∉ above) :
    Tarjan.popTo node (above ++ node :: below) = (above ++ [node], below) := by
  induction above with
  | nil => simp [Tarjan.popTo]
  | cons x above ih =>
      rw [List.mem_cons, not_or] at h
      rw [List.cons_append, Tarjan.popTo, if_neg (Ne.symm h.1), ih h.2]
      rfl

/-- A node that reaches nothing older is reached by everything above it. -/
theorem Visiting.reaches_root {t t' : Tarjan} {node : Nat} {seen above : List Nat}
    (h : Visiting n deps t t' node seen) (ht : Inv n deps t)
    (habove : t'.stack = above ++ node :: t.stack)
    (hstays : ∀ x ∈ above, Stays n deps t' (t'.low node) node x) (hroot : t'.low node = t.next) :
    ∀ (i x : Nat), t'.indices x = some i → x ∈ above ++ [node] → Reaches n deps x node := by
  intro i
  induction i using Nat.strongRecOn with
  | ind i ih =>
      intro x hi hx
      rcases List.mem_append.mp hx with hx | hx
      · obtain ⟨y, hy, i', j, hi', hj, hlt, hle, hreach⟩ := (hstays x hx).escapes
        rw [hi, Option.some.injEq] at hi'
        subst hi'
        rw [habove] at hy
        have hmem : y ∈ above ++ [node] := by
          rcases List.mem_append.mp hy with hy | hy
          · exact List.mem_append_left _ hy
          · rcases List.mem_cons.mp hy with rfl | hy
            · exact List.mem_append_right _ (List.mem_singleton_self y)
            · obtain ⟨k, hk⟩ := ht.found_of_stack hy
              have hkj := h.grows.indices y k hk
              rw [hj, Option.some.injEq] at hkj
              have hklt := ht.index_lt y k hk
              omega
        exact hreach.trans (ih j hlt y hj hmem)
      · rw [List.mem_singleton.mp hx]
        exact Relation.ReflTransGen.refl

/-- The members above a node form its component. -/
theorem Visiting.close_root {t t' : Tarjan} {node : Nat} {seen : List Nat}
    (h : Visiting n deps t t' node seen) (ht : Inv n deps t) (hall : ∀ y ∈ deps node, y ∈ seen)
    (hroot : t'.low node = t.next) : Visited n deps t (t'.close node) node := by
  obtain ⟨above, habove, hstays⟩ := h.stack
  have hnodup := h.inv.nodup
  rw [habove] at hnodup
  have hstackNodup := (List.nodup_append.mp hnodup).2.1
  have hnot : node ∉ above := by
    intro hmem
    exact (List.nodup_append.mp hstackNodup).2.2 node hmem node List.mem_cons_self rfl
  have hclose : t'.close node =
      { t' with
        stack := t.stack
        onStack := fun x => t'.onStack x && !(above ++ [node]).contains x
        components := t'.components ++ [(above ++ [node]).mergeSort] } := by
    unfold Tarjan.close
    rw [if_pos (by rw [h.index, hroot]), habove, popTo_append hnot]
  have hmembers : ∀ x, x ∈ (above ++ [node]).mergeSort ↔ x ∈ above ++ [node] :=
    fun x => List.mem_mergeSort
  have hto := h.reaches_root ht habove hstays hroot
  have hfrom : ∀ x ∈ above ++ [node], Reaches n deps node x := by
    intro x hx
    rcases List.mem_append.mp hx with hx | hx
    · exact (hstays x hx).reached
    · rw [List.mem_singleton.mp hx]
      exact Relation.ReflTransGen.refl
  have hstackMem : ∀ x, x ∈ t'.stack ↔ x ∈ above ++ [node] ∨ x ∈ t.stack := by
    intro x
    rw [habove, List.mem_append, List.mem_cons, List.mem_append, List.mem_singleton, or_assoc]
  have hfound : ∀ x ∈ above ++ [node], t'.Found x :=
    fun x hx => h.inv.found_of_stack ((hstackMem x).mpr (Or.inl hx))
  have hsettled : ∀ x ∈ above ++ [node], ∀ y, Edge n deps x y →
      y ∈ t'.components.flatten ∨ y ∈ above ++ [node] := by
    intro x hx y hedge
    have hy : Settled t' (t'.low node) y := by
      rcases List.mem_append.mp hx with hx | hx
      · exact (hstays x hx).settled y hedge
      · rw [List.mem_singleton.mp hx] at hedge
        exact h.seen y (hall y hedge.2.2) hedge.2.1
    rcases hy with hy | ⟨hy, j, hj, hle⟩
    · exact Or.inl hy
    · rcases (hstackMem y).mp hy with hy | hy
      · exact Or.inr hy
      · obtain ⟨k, hk⟩ := ht.found_of_stack hy
        have hkj := h.grows.indices y k hk
        rw [hj, Option.some.injEq] at hkj
        have hklt := ht.index_lt y k hk
        omega
  have hflatten : (t'.components ++ [(above ++ [node]).mergeSort]).flatten =
      t'.components.flatten ++ (above ++ [node]).mergeSort := by simp
  have hclosed : ∀ x, x ∈ (t'.components ++ [(above ++ [node]).mergeSort]).flatten ↔
      x ∈ t'.components.flatten ∨ x ∈ above ++ [node] := by
    intro x
    rw [hflatten, List.mem_append]
    exact or_congr_right (hmembers x)
  have hperm : (t'.components.flatten ++ (above ++ [node]).mergeSort ++ t.stack).Perm
      (t'.components.flatten ++ t'.stack) := by
    rw [habove, List.append_assoc, List.append_cons above node t.stack]
    exact ((List.mergeSort_perm _ _).append_right _).append_left _
  have hdisjoint : ∀ x ∈ above ++ [node], x ∉ t.stack := by
    intro x hx hstack
    rw [List.append_cons] at hstackNodup
    exact (List.nodup_append.mp hstackNodup).2.2 x hx x hstack rfl
  rw [hclose]
  refine ⟨⟨h.inv.index_lt, h.inv.index_inj, h.inv.range, ?_, ?_, ?_, ?_, ?_, ?_⟩,
    ⟨h.grows.next, h.grows.indices, h.grows.old, h.grows.low,
      h.grows.components.trans (List.prefix_append _ _)⟩, h.index,
    [], rfl, by simp, Or.inl ⟨rfl, hroot⟩⟩
  · intro x
    change t'.Found x ↔ _
    rw [h.inv.placed, hstackMem, hclosed, or_assoc]
  · rw [hflatten]
    exact hperm.nodup_iff.mpr h.inv.nodup
  · intro x
    simp only [Bool.and_eq_true, Bool.not_eq_true', List.contains_eq_mem, decide_eq_false_iff_not]
    rw [h.inv.onStack, hstackMem]
    constructor
    · rintro ⟨hx | hx, hnotMem⟩
      · exact absurd hx hnotMem
      · exact hx
    · exact fun hx => ⟨Or.inr hx, fun hmem => hdisjoint x hmem hx⟩
  · intro c hc x hx y hy
    rcases List.mem_append.mp hc with hc | hc
    · exact h.inv.connected c hc x hx y hy
    · rw [List.mem_singleton.mp hc] at hx hy
      obtain ⟨i, hi⟩ := hfound x ((hmembers x).mp hx)
      exact (hto i x hi ((hmembers x).mp hx)).trans (hfrom y ((hmembers y).mp hy))
  · intro c hc
    rcases List.mem_append.mp hc with hc | hc
    · exact h.inv.shape c hc
    · rw [List.mem_singleton.mp hc]
      refine ⟨List.ne_nil_of_mem ((hmembers node).mpr (by simp)), ?_⟩
      have hsorted : ((above ++ [node]).mergeSort).Pairwise fun a b => decide (a ≤ b) = true := by
        refine List.pairwise_mergeSort (fun a b c hab hbc => ?_) (fun a b => ?_) _
        · simp only [decide_eq_true_eq] at hab hbc ⊢
          omega
        · simp only [Bool.or_eq_true, decide_eq_true_eq]
          omega
      exact hsorted.imp (by simp)
  · intro i c hc x hx y hedge
    rcases Nat.lt_or_ge i t'.components.length with hi | hi
    · rw [List.getElem?_append_left hi] at hc
      obtain ⟨j, d, hj, hd, hy⟩ := h.inv.closed i c hc x hx y hedge
      exact ⟨j, d, hj, by rw [List.getElem?_append_left (by omega)]; exact hd, hy⟩
    · rw [List.getElem?_append_right hi] at hc
      have hlast : i = t'.components.length := by
        have hlt := (List.getElem?_eq_some_iff.mp hc).1
        simp only [List.length_singleton] at hlt
        omega
      subst hlast
      simp only [Nat.sub_self, List.getElem?_cons_zero, Option.some.injEq] at hc
      subst hc
      rcases hsettled x ((hmembers x).mp hx) y hedge with hy | hy
      · obtain ⟨d, hd, hyd⟩ := List.mem_flatten.mp hy
        obtain ⟨j, hj, hget⟩ := List.getElem_of_mem hd
        refine ⟨j, d, Nat.le_of_lt hj, ?_, hyd⟩
        rw [List.getElem?_append_left hj, List.getElem?_eq_getElem hj, hget]
      · exact ⟨_, _, Nat.le_refl _, by simp, (hmembers y).mpr hy⟩

/-- A node that reaches an older one stays on the stack. -/
theorem Visiting.close_stays {t t' : Tarjan} {node : Nat} {seen : List Nat}
    (h : Visiting n deps t t' node seen) (ht : Inv n deps t) (hall : ∀ y ∈ deps node, y ∈ seen)
    (hroot : t'.low node ≠ t.next) : Visited n deps t (t'.close node) node := by
  have hclose : t'.close node = t' := by
    unfold Tarjan.close
    rw [if_neg (by rw [h.index]; simpa using hroot)]
  obtain ⟨above, habove, hstays⟩ := h.stack
  obtain ⟨y, hy, hindex, hreach⟩ := h.lowTo
  have hlt : t'.low node < t.next := Nat.lt_of_le_of_ne h.low_le hroot
  have holder : y ∈ t.stack := by
    rcases (ht.placed y).mp ⟨_, h.grows.old y _ hindex hlt⟩ with hclosed | hstack
    · exact absurd (h.grows.mem_components hclosed) (h.inv.not_closed_of_stack hy)
    · exact hstack
  rw [hclose]
  refine ⟨h.inv, h.grows, h.index, above ++ [node], ?_, ?_, Or.inr ⟨y, holder, hindex, hreach⟩⟩
  · rw [habove, List.append_cons]
  · intro x hx
    rcases List.mem_append.mp hx with hx | hx
    · exact hstays x hx
    · rw [List.mem_singleton.mp hx]
      refine ⟨Relation.ReflTransGen.refl, ⟨y, hy, _, _, h.index, hindex, hlt, Nat.le_refl _, hreach⟩,
        fun z hedge => h.seen z (hall z hedge.2.2) hedge.2.1⟩

/-- The start of a visit. -/
theorem visiting_discover {t : Tarjan} {node : Nat} (h : Inv n deps t) (hn : node < n)
    (hnew : t.indices node = none) : Visiting n deps t (t.discover node) node [] := by
  have hnotFound : ¬ t.Found node := by
    rintro ⟨i, hi⟩
    rw [hnew] at hi
    simp at hi
  have hindices : ∀ x i, t.indices x = some i → (t.discover node).indices x = some i := by
    intro x i hi
    have hne : x ≠ node := fun hx => hnotFound ⟨i, hx ▸ hi⟩
    simpa [Tarjan.discover, Function.update_of_ne hne] using hi
  have hback : ∀ x i, (t.discover node).indices x = some i →
      x = node ∧ i = t.next ∨ t.indices x = some i := by
    intro x i hi
    by_cases hx : x = node
    · subst hx
      simp only [Tarjan.discover, Function.update_self, Option.some.injEq] at hi
      exact Or.inl ⟨rfl, hi.symm⟩
    · simp only [Tarjan.discover, Function.update_of_ne hx] at hi
      exact Or.inr hi
  have hself : (t.discover node).indices node = some t.next := by simp [Tarjan.discover]
  have hplaced : node ∉ t.components.flatten ++ t.stack := by
    rw [List.mem_append, ← h.placed]
    exact hnotFound
  refine ⟨⟨?_, ?_, ?_, ?_, ?_, ?_, h.connected, h.shape, h.closed⟩, ⟨Nat.le_succ _, hindices,
    ?_, ?_, List.prefix_refl _⟩, hself, hnew, ⟨[], rfl, by simp⟩, by simp [Tarjan.discover],
    ⟨node, List.mem_cons_self, by simp [Tarjan.discover], Relation.ReflTransGen.refl⟩, by simp⟩
  · intro x i hi
    rcases hback x i hi with ⟨-, rfl⟩ | hi
    · exact Nat.lt_succ_self _
    · exact Nat.lt_succ_of_lt (h.index_lt x i hi)
  · intro x y i hx hy
    rcases hback x i hx with ⟨hxn, hi⟩ | hxold
    · rcases hback y i hy with ⟨hyn, -⟩ | hyold
      · rw [hxn, hyn]
      · exact absurd (h.index_lt y i hyold) (by omega)
    · rcases hback y i hy with ⟨-, hi⟩ | hyold
      · exact absurd (h.index_lt x i hxold) (by omega)
      · exact h.index_inj x y i hxold hyold
  · rintro x ⟨i, hi⟩
    rcases hback x i hi with ⟨rfl, -⟩ | hi
    · exact hn
    · exact h.range x ⟨i, hi⟩
  · intro x
    constructor
    · rintro ⟨i, hi⟩
      rcases hback x i hi with ⟨rfl, -⟩ | hi
      · exact Or.inr List.mem_cons_self
      · exact ((h.placed x).mp ⟨i, hi⟩).imp_right (List.mem_cons_of_mem node)
    · rintro (hx | hx)
      · obtain ⟨i, hi⟩ := (h.placed x).mpr (Or.inl hx)
        exact ⟨i, hindices x i hi⟩
      · rcases List.mem_cons.mp hx with rfl | hx
        · exact ⟨_, hself⟩
        · obtain ⟨i, hi⟩ := h.found_of_stack hx
          exact ⟨i, hindices x i hi⟩
  · change (t.components.flatten ++ node :: t.stack).Nodup
    rw [List.nodup_middle]
    exact List.nodup_cons.mpr ⟨hplaced, h.nodup⟩
  · intro x
    by_cases hx : x = node
    · simp [Tarjan.discover, hx]
    · simp only [Tarjan.discover, Function.update_of_ne hx, List.mem_cons, hx, false_or]
      exact h.onStack x
  · intro x i hi hlt
    rcases hback x i hi with ⟨-, rfl⟩ | hi
    · exact absurd hlt (Nat.lt_irrefl _)
    · exact hi
  · intro x hx
    have hne : x ≠ node := by
      rintro rfl
      exact hnotFound hx
    simp [Tarjan.discover, Function.update_of_ne hne]

theorem visit_visitsNew (fuel : Nat) : VisitsNew n deps fuel (visit n deps fuel) := by
  induction fuel with
  | zero =>
      intro node t hn hnew _ hfuel
      have hlt := unfound_discover hn hnew
      omega
  | succ fuel ih =>
      intro node t hn hnew h hfuel
      have hstart := visiting_discover h hn hnew
      have hlt := unfound_discover hn hnew
      have hloop := Visiting.lookAtAll ih (deps node) _ [] hstart (List.Subset.refl _) (by omega)
      have hall : ∀ y ∈ deps node, y ∈ (deps node).reverse ++ [] := by simp
      rw [visit]
      by_cases hroot : ((deps node).foldl (lookAt n (visit n deps fuel) node)
          (t.discover node)).low node = t.next
      · exact hloop.close_root h hall hroot
      · exact hloop.close_stays h hall hroot

/-! ### The whole search -/

theorem inv_init : Inv n deps .init := by
  constructor <;> simp [Tarjan.init, Tarjan.Found]

/-- Between roots the stack is empty. -/
theorem visitRoot_spec {t : Tarjan} {node : Nat} (h : Inv n deps t) (hstack : t.stack = [])
    (hn : node < n) :
    Inv n deps (visitRoot n deps t node) ∧ (visitRoot n deps t node).stack = [] ∧
      (visitRoot n deps t node).Found node ∧ Grows t (visitRoot n deps t node) := by
  unfold visitRoot
  cases hnew : t.indices node with
  | some index =>
      exact ⟨h, hstack, ⟨index, hnew⟩, Grows.refl t⟩
  | none =>
      have hfuel : unfound n t ≤ n := by
        have hle := List.countP_le_length (p := fun x => (t.indices x).isNone) (l := List.range n)
        rwa [List.length_range] at hle
      have hvisited := visit_visitsNew n node t hn hnew h hfuel
      refine ⟨hvisited.inv, ?_, ⟨_, hvisited.index⟩, hvisited.grows⟩
      obtain ⟨new, hnewStack, -, hend⟩ := hvisited.stack
      rcases hend with ⟨hnil, -⟩ | ⟨y, hy, -⟩
      · dsimp only
        rw [hnewStack, hnil, hstack, List.nil_append]
      · rw [hstack] at hy
        simp at hy

theorem visitRoots_spec (nodes : List Nat) :
    ∀ t : Tarjan, Inv n deps t → t.stack = [] → (∀ x ∈ nodes, x < n) →
      Inv n deps (nodes.foldl (visitRoot n deps) t) ∧
        (nodes.foldl (visitRoot n deps) t).stack = [] ∧
        Grows t (nodes.foldl (visitRoot n deps) t) ∧
        ∀ x ∈ nodes, (nodes.foldl (visitRoot n deps) t).Found x := by
  induction nodes with
  | nil =>
      intro t h hstack _
      exact ⟨h, hstack, Grows.refl t, by simp⟩
  | cons node nodes ih =>
      intro t h hstack hlt
      rw [List.forall_mem_cons] at hlt
      obtain ⟨hinv, hempty, hfound, hgrows⟩ := visitRoot_spec h hstack hlt.1
      obtain ⟨hinv', hempty', hgrows', hfound'⟩ := ih _ hinv hempty hlt.2
      refine ⟨hinv', hempty', hgrows.trans hgrows', ?_⟩
      rw [List.forall_mem_cons]
      exact ⟨hgrows'.found hfound, hfound'⟩

/-- The components of a graph: a partition into the classes of mutual reachability, each
in increasing order. -/
structure IsComponents (n : Nat) (deps : Nat → List Nat) (components : List (List Nat)) :
    Prop where
  nodup : components.flatten.Nodup
  covers : ∀ x, x ∈ components.flatten ↔ x < n
  nonempty : ∀ c ∈ components, c ≠ []
  sorted : ∀ c ∈ components, c.Pairwise (· ≤ ·)
  classes : ∀ c ∈ components, ∀ x ∈ c, ∀ y, y ∈ c ↔ Reaches n deps x y ∧ Reaches n deps y x

/-- What a member of a component reaches was closed no later. -/
theorem Inv.closed_reaches {t : Tarjan} (h : Inv n deps t) {x y : Nat}
    (hreach : Reaches n deps x y) :
    ∀ (i : Nat) (c : List Nat), t.components[i]? = some c → x ∈ c →
      ∃ (j : Nat) (d : List Nat), j ≤ i ∧ t.components[j]? = some d ∧ y ∈ d := by
  induction hreach with
  | refl => exact fun i c hc hx => ⟨i, c, Nat.le_refl _, hc, hx⟩
  | tail _ hedge ih =>
      intro i c hc hx
      obtain ⟨j, d, hj, hd, hy⟩ := ih i c hc hx
      obtain ⟨k, e, hk, he, hz⟩ := h.closed j d hd _ hy _ hedge
      exact ⟨k, e, Nat.le_trans hk hj, he, hz⟩

theorem index_eq_of_mem {cs : List (List Nat)} (h : cs.flatten.Nodup) {i j : Nat}
    {c d : List Nat} {x : Nat} (hc : cs[i]? = some c) (hd : cs[j]? = some d) (hxc : x ∈ c)
    (hxd : x ∈ d) : i = j := by
  have hdisjoint := (List.nodup_flatten.mp h).2
  rw [List.pairwise_iff_getElem] at hdisjoint
  obtain ⟨hi, rfl⟩ := List.getElem?_eq_some_iff.mp hc
  obtain ⟨hj, rfl⟩ := List.getElem?_eq_some_iff.mp hd
  rcases Nat.lt_trichotomy i j with hlt | heq | hlt
  · exact absurd hxd (hdisjoint i j hi hj hlt hxc)
  · exact heq
  · exact absurd hxc (hdisjoint j i hj hi hlt hxd)

theorem isComponents_search : IsComponents n deps (search n deps).components := by
  have hinit : Inv n deps .init := inv_init
  obtain ⟨hinv, hstack, -, hfound⟩ := visitRoots_spec (List.range n) .init
    hinit rfl (fun x hx => List.mem_range.mp hx)
  change Inv n deps (search n deps) at hinv
  change (search n deps).stack = [] at hstack
  have hnodup := hinv.nodup
  rw [hstack, List.append_nil] at hnodup
  have hplaced : ∀ x, (search n deps).Found x ↔ x ∈ (search n deps).components.flatten := by
    intro x
    rw [hinv.placed, hstack]
    simp
  refine ⟨hnodup, ?_, fun c hc => (hinv.shape c hc).1, fun c hc => (hinv.shape c hc).2, ?_⟩
  · intro x
    rw [← hplaced]
    exact ⟨hinv.range x, fun hx => hfound x (List.mem_range.mpr hx)⟩
  · intro c hc x hx y
    constructor
    · exact fun hy => ⟨hinv.connected c hc x hx y hy, hinv.connected c hc y hy x hx⟩
    · rintro ⟨hxy, hyx⟩
      obtain ⟨i, hi, rfl⟩ := List.getElem_of_mem hc
      have hget := List.getElem?_eq_getElem hi
      obtain ⟨j, d, hj, hd, hy⟩ := hinv.closed_reaches hxy i _ hget hx
      obtain ⟨k, e, hk, he, hx'⟩ := hinv.closed_reaches hyx j d hd hy
      have hik := index_eq_of_mem hnodup hget he hx hx'
      obtain rfl : i = j := by omega
      rw [hget, Option.some.injEq] at hd
      rw [hd]
      exact hy

theorem isComponents_stronglyConnectedComponents :
    IsComponents n deps (stronglyConnectedComponents n deps) := by
  have h : IsComponents n deps (search n deps).components := isComponents_search
  have hperm : (stronglyConnectedComponents n deps).Perm (search n deps).components :=
    List.mergeSort_perm _ _
  refine ⟨hperm.flatten.nodup_iff.mpr h.nodup, ?_, ?_, ?_, ?_⟩
  · intro x
    rw [hperm.flatten.mem_iff]
    exact h.covers x
  · exact fun c hc => h.nonempty c (hperm.mem_iff.mp hc)
  · exact fun c hc => h.sorted c (hperm.mem_iff.mp hc)
  · exact fun c hc => h.classes c (hperm.mem_iff.mp hc)

end Harc.StrongComponents
