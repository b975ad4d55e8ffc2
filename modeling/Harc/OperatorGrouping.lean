import Mathlib.Data.List.Basic
import Mathlib.Data.Nat.Basic

/-!
Trees of operators with binding powers.  Next to operators with a left and a right
operand there are suffixes, which take a left operand only, and one operator with a middle
part between two delimiters.  Every sequence of operands and operators is the sequence of
exactly one tree that respects the powers; here the existence is shown, by appending to the
right edge of a tree.
-/

namespace Harc.OperatorGrouping

/-- How much an operator pulls its left and holds its right operand. -/
structure Powers (Op Suf : Type) where
  left : Op → Nat
  right : Op → Nat
  suffix : Suf → Nat
  ternaryLeft : Nat
  ternaryRight : Nat

inductive Tree (Op Suf α : Type) where
  | leaf (a : α)
  | binary (o : Op) (l r : Tree Op Suf α)
  | suffix (s : Suf) (l : Tree Op Suf α)
  | ternary (l m r : Tree Op Suf α)

inductive Symbol (Op Suf α : Type) where
  | item (a : α)
  | op (o : Op)
  | suffix (s : Suf)
  | opening
  | closing

/-- A sequence of operands with operators between them, from the left. -/
inductive Sentence (Op Suf α : Type) where
  | item (a : α)
  | binary (s : Sentence Op Suf α) (o : Op) (a : α)
  | suffix (s : Sentence Op Suf α) (x : Suf)
  | ternary (s middle : Sentence Op Suf α) (a : α)

section

variable {Op Suf α : Type}

namespace Sentence

def symbols : Sentence Op Suf α → List (Symbol Op Suf α)
  | item a => [.item a]
  | binary s o a => s.symbols ++ [.op o, .item a]
  | suffix s x => s.symbols ++ [.suffix x]
  | ternary s middle a => s.symbols ++ .opening :: middle.symbols ++ [.closing, .item a]

end Sentence

namespace Tree

def symbols : Tree Op Suf α → List (Symbol Op Suf α)
  | leaf a => [.item a]
  | binary o l r => l.symbols ++ .op o :: r.symbols
  | suffix s l => l.symbols ++ [.suffix s]
  | ternary l m r => l.symbols ++ .opening :: m.symbols ++ .closing :: r.symbols

/-- The powers that pull at the left edge. -/
def leftEdge (P : Powers Op Suf) : Tree Op Suf α → List Nat
  | leaf _ => []
  | binary o l _ => P.left o :: leftEdge P l
  | suffix s l => P.suffix s :: leftEdge P l
  | ternary l _ _ => P.ternaryLeft :: leftEdge P l

/-- The powers that hold at the right edge. -/
def rightEdge (P : Powers Op Suf) : Tree Op Suf α → List Nat
  | leaf _ => []
  | binary o _ r => P.right o :: rightEdge P r
  | suffix _ _ => []
  | ternary _ _ r => P.ternaryRight :: rightEdge P r

/-- No operator takes an operand from one that holds it at least as tight. -/
def WellGrouped (P : Powers Op Suf) : Tree Op Suf α → Prop
  | leaf _ => True
  | binary o l r => l.WellGrouped P ∧ r.WellGrouped P ∧
      (∀ p ∈ l.rightEdge P, P.left o < p) ∧ ∀ p ∈ r.leftEdge P, P.right o ≤ p
  | suffix s l => l.WellGrouped P ∧ ∀ p ∈ l.rightEdge P, P.suffix s < p
  | ternary l m r => l.WellGrouped P ∧ m.WellGrouped P ∧ r.WellGrouped P ∧
      (∀ p ∈ l.rightEdge P, P.ternaryLeft < p) ∧ ∀ p ∈ r.leftEdge P, P.ternaryRight ≤ p

end Tree

/-- What holds as tight as the right operand of some operator does so at both edges. -/
def Powers.Regular (P : Powers Op Suf) : Prop :=
  ∀ k, k = P.ternaryRight ∨ (∃ o, k = P.right o) →
    (∀ o, k ≤ P.left o → k ≤ P.right o) ∧ (k ≤ P.ternaryLeft → k ≤ P.ternaryRight)

namespace Tree

theorem WellGrouped.le_rightEdge {P : Powers Op Suf} (hP : P.Regular) {t : Tree Op Suf α}
    (h : t.WellGrouped P) {k : Nat} (hk : k = P.ternaryRight ∨ ∃ o, k = P.right o)
    (hleft : ∀ p ∈ t.leftEdge P, k ≤ p) : ∀ p ∈ t.rightEdge P, k ≤ p := by
  induction t with
  | leaf a => simp [rightEdge]
  | binary o l r _ ih =>
      obtain ⟨-, hr, -, hright⟩ := h
      have hko : k ≤ P.right o := (hP k hk).1 o (hleft _ List.mem_cons_self)
      refine List.forall_mem_cons.mpr ⟨hko, ih hr fun p hp => ?_⟩
      exact Nat.le_trans hko (hright p hp)
  | suffix s l _ => simp [rightEdge]
  | ternary l m r _ _ ih =>
      obtain ⟨-, -, hr, -, hright⟩ := h
      have hkt : k ≤ P.ternaryRight := (hP k hk).2 (hleft _ List.mem_cons_self)
      refine List.forall_mem_cons.mpr ⟨hkt, ih hr fun p hp => ?_⟩
      exact Nat.le_trans hkt (hright p hp)

/-- An operator that is put on top of a tree with the power `n` and more symbols. -/
structure Top (P : Powers Op Suf) (n : Nat) (more : List (Symbol Op Suf α))
    (top : Tree Op Suf α → Tree Op Suf α) : Prop where
  symbols : ∀ t, (top t).symbols = t.symbols ++ more
  leftEdge : ∀ t, (top t).leftEdge P = n :: t.leftEdge P
  wellGrouped : ∀ t, t.WellGrouped P → (∀ p ∈ t.rightEdge P, n < p) → (top t).WellGrouped P

/-- Puts the operator where it takes the part of the right edge that holds tighter. -/
def attach (P : Powers Op Suf) (n : Nat) (top : Tree Op Suf α → Tree Op Suf α) :
    Tree Op Suf α → Tree Op Suf α
  | leaf a => top (leaf a)
  | binary o l r =>
      if P.right o ≤ n then binary o l (attach P n top r) else top (binary o l r)
  | suffix s l => top (suffix s l)
  | ternary l m r =>
      if P.ternaryRight ≤ n then ternary l m (attach P n top r) else top (ternary l m r)

theorem Top.attach_leftEdge {P : Powers Op Suf} {n k : Nat} {more : List (Symbol Op Suf α)}
    {top : Tree Op Suf α → Tree Op Suf α} (htop : Top P n more top) (t : Tree Op Suf α)
    (hleft : ∀ p ∈ t.leftEdge P, k ≤ p) (hn : k ≤ n) :
    ∀ p ∈ (attach P n top t).leftEdge P, k ≤ p := by
  have hon : ∀ t : Tree Op Suf α, (∀ p ∈ t.leftEdge P, k ≤ p) →
      ∀ p ∈ (top t).leftEdge P, k ≤ p := by
    intro t ht
    rw [htop.leftEdge]
    exact List.forall_mem_cons.mpr ⟨hn, ht⟩
  cases t with
  | leaf a => exact hon _ hleft
  | binary o l r =>
      rw [attach]
      split_ifs
      · exact hleft
      · exact hon _ hleft
  | suffix s l => exact hon _ hleft
  | ternary l m r =>
      rw [attach]
      split_ifs
      · exact hleft
      · exact hon _ hleft

theorem Top.attach_symbols {P : Powers Op Suf} {n : Nat} {more : List (Symbol Op Suf α)}
    {top : Tree Op Suf α → Tree Op Suf α} (htop : Top P n more top) (t : Tree Op Suf α) :
    (attach P n top t).symbols = t.symbols ++ more := by
  induction t with
  | leaf a => exact htop.symbols _
  | binary o l r _ ih =>
      rw [attach]
      split_ifs
      · rw [Tree.symbols, Tree.symbols, ih, List.append_assoc, List.cons_append]
      · exact htop.symbols _
  | suffix s l _ => exact htop.symbols _
  | ternary l m r _ _ ih =>
      rw [attach]
      split_ifs
      · simp [Tree.symbols, ih]
      · exact htop.symbols _

theorem Top.attach_wellGrouped {P : Powers Op Suf} (hP : P.Regular) {n : Nat}
    {more : List (Symbol Op Suf α)} {top : Tree Op Suf α → Tree Op Suf α}
    (htop : Top P n more top) {t : Tree Op Suf α} (h : t.WellGrouped P) :
    (attach P n top t).WellGrouped P := by
  induction t with
  | leaf a => exact htop.wellGrouped _ h (by simp [rightEdge])
  | binary o l r _ ih =>
      rw [attach]
      split_ifs with hle
      · obtain ⟨hl, hr, hedge, hright⟩ := h
        exact ⟨hl, ih hr, hedge, htop.attach_leftEdge r hright hle⟩
      · refine htop.wellGrouped _ h ?_
        obtain ⟨-, hr, -, hright⟩ := h
        have hlt : n < P.right o := Nat.lt_of_not_le hle
        refine List.forall_mem_cons.mpr ⟨hlt, fun p hp => ?_⟩
        exact lt_of_lt_of_le hlt (hr.le_rightEdge hP (Or.inr ⟨o, rfl⟩) hright p hp)
  | suffix s l _ => exact htop.wellGrouped _ h (by simp [rightEdge])
  | ternary l m r _ _ ih =>
      rw [attach]
      split_ifs with hle
      · obtain ⟨hl, hm, hr, hedge, hright⟩ := h
        exact ⟨hl, hm, ih hr, hedge, htop.attach_leftEdge r hright hle⟩
      · refine htop.wellGrouped _ h ?_
        obtain ⟨-, -, hr, -, hright⟩ := h
        have hlt : n < P.ternaryRight := Nat.lt_of_not_le hle
        refine List.forall_mem_cons.mpr ⟨hlt, fun p hp => ?_⟩
        exact lt_of_lt_of_le hlt (hr.le_rightEdge hP (Or.inl rfl) hright p hp)

/-- Every sentence has a tree that is well grouped. -/
theorem exists_wellGrouped {P : Powers Op Suf} (hP : P.Regular) (s : Sentence Op Suf α) :
    ∃ t : Tree Op Suf α, t.WellGrouped P ∧ t.symbols = s.symbols := by
  induction s with
  | item a => exact ⟨leaf a, trivial, rfl⟩
  | binary s o a ih =>
      obtain ⟨t, ht, hsymbols⟩ := ih
      have htop : Top P (P.left o) [.op o, .item a] fun t : Tree Op Suf α =>
          binary o t (leaf a) :=
        ⟨fun _ => rfl, fun _ => rfl, fun _ h hedge => ⟨h, trivial, hedge, nofun⟩⟩
      exact ⟨_, htop.attach_wellGrouped hP ht, by rw [htop.attach_symbols, hsymbols]; rfl⟩
  | suffix s x ih =>
      obtain ⟨t, ht, hsymbols⟩ := ih
      have htop : Top P (P.suffix x) [.suffix x] fun t : Tree Op Suf α => suffix x t :=
        ⟨fun _ => rfl, fun _ => rfl, fun _ h hedge => ⟨h, hedge⟩⟩
      exact ⟨_, htop.attach_wellGrouped hP ht, by rw [htop.attach_symbols, hsymbols]; rfl⟩
  | ternary s middle a ih ihm =>
      obtain ⟨t, ht, hsymbols⟩ := ih
      obtain ⟨m, hm, hmiddle⟩ := ihm
      have htop : Top P P.ternaryLeft (.opening :: m.symbols ++ [.closing, .item a])
          fun t : Tree Op Suf α => ternary t m (leaf a) := by
        refine ⟨fun _ => ?_, fun _ => rfl, fun _ h hedge => ⟨h, hm, trivial, hedge, nofun⟩⟩
        simp [symbols]
      refine ⟨_, htop.attach_wellGrouped hP ht, ?_⟩
      rw [htop.attach_symbols, hsymbols, hmiddle, Sentence.symbols, List.append_assoc]

end Tree

end

end Harc.OperatorGrouping
