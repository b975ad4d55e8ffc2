import Harc.OperatorGrouping
import Harc.Fallible

/-!
The expression parser over binding powers (`parse_expr_bp`).  What one unary expression or
the entries of a distribution take from the input is one token here.
-/

namespace Harc.InfixParser

open Harc.OperatorGrouping
open Harc.Fallible

inductive BinaryOp where
  | pipeImplies | pipeImpliesNext
  | orOr | orKw | andAnd | andKw
  | bitOr | bitXor | bitAnd
  | eq | ne | lt | le | gt | ge | in_ | inside
  | throughout | within | intersect
  | shl | shr
  | addWrap | add | subWrap | sub
  | mulWrap | mul | div | mod
deriving DecidableEq

/-- The tokens that the parser asks for. -/
inductive TokenKind where
  | pipeImplies | pipeImpliesNext | question
  | pipePipe | or | ampAmp | and
  | pipe | caret | amp
  | eqEq | bangEq | lt | ltEq | gt | gtEq | in_ | inside
  | throughout | within | intersect | dist
  | shl | shr
  | plusPercent | plus | minusPercent | minus
  | starPercent | star | slash | percent
  | dotDot
  | comma | rParen | rBracket | rBrace | semi | end_ | else_ | elsIf | default | with_
  | branch | joinAll | joinAny | joinNone | colonSlash
  | colon
  | other
deriving DecidableEq

inductive Token (α δ : Type) where
  | operand (a : α)
  | entries (d : δ)
  | kind (k : TokenKind)

inductive Expr (α δ : Type) where
  | operand (a : α)
  | binary (op : BinaryOp) (lhs rhs : Expr α δ)
  | rangeLit (lo hi : Expr α δ)
  | ternary (cond thenBranch elseBranch : Expr α δ)
  | membership (expr set : Expr α δ)
  | distDirective (target : Expr α δ) (entries : δ)
deriving DecidableEq

def isTerminator : TokenKind → Bool
  | .comma | .rParen | .rBracket | .rBrace | .semi | .end_ | .else_ | .elsIf | .default
  | .with_ | .branch | .joinAll | .joinAny | .joinNone | .colonSlash => true
  | _ => false

/-- The tokens that end an expression in a list of type arguments. -/
def isAngle : TokenKind → Bool
  | .gt | .gtEq | .shr => true
  | _ => false

def infixBp : TokenKind → Option (Nat × Nat × BinaryOp)
  | .pipeImplies => some (5, 4, .pipeImplies)
  | .pipeImpliesNext => some (5, 4, .pipeImpliesNext)
  | .question => some (7, 6, .bitAnd)
  | .pipePipe => some (10, 11, .orOr)
  | .or => some (10, 11, .orKw)
  | .ampAmp => some (12, 13, .andAnd)
  | .and => some (12, 13, .andKw)
  | .pipe => some (14, 15, .bitOr)
  | .caret => some (16, 17, .bitXor)
  | .amp => some (18, 19, .bitAnd)
  | .eqEq => some (20, 21, .eq)
  | .bangEq => some (20, 21, .ne)
  | .lt => some (22, 23, .lt)
  | .ltEq => some (22, 23, .le)
  | .gt => some (22, 23, .gt)
  | .gtEq => some (22, 23, .ge)
  | .in_ => some (22, 23, .in_)
  | .inside => some (22, 23, .inside)
  | .throughout => some (24, 25, .throughout)
  | .within => some (24, 25, .within)
  | .intersect => some (24, 25, .intersect)
  | .dist => some (24, 25, .bitAnd)
  | .shl => some (26, 27, .shl)
  | .shr => some (26, 27, .shr)
  | .plusPercent => some (28, 29, .addWrap)
  | .plus => some (28, 29, .add)
  | .minusPercent => some (28, 29, .subWrap)
  | .minus => some (28, 29, .sub)
  | .starPercent => some (30, 31, .mulWrap)
  | .star => some (30, 31, .mul)
  | .slash => some (30, 31, .div)
  | .percent => some (30, 31, .mod)
  | .dotDot => some (8, 9, .add)
  | _ => none

inductive ParseError where
  | unary
  | distEntries
  | expected (k : TokenKind)
  | outOfFuel
deriving DecidableEq

section Parser

variable {α δ : Type}

def parseUnary : List (Token α δ) → Except ParseError (Expr α δ × List (Token α δ))
  | .operand a :: rest => .ok (.operand a, rest)
  | _ => .error .unary

def parseDistEntries : List (Token α δ) → Except ParseError (δ × List (Token α δ))
  | .entries d :: rest => .ok (d, rest)
  | _ => .error .distEntries

def expect (k : TokenKind) : List (Token α δ) → Except ParseError (Unit × List (Token α δ))
  | .kind k' :: rest => if k' = k then .ok ((), rest) else .error (.expected k)
  | _ => .error (.expected k)

/-- The operator with which the loop goes on, with its powers. -/
def continues (noAngle : Bool) (minBp : Nat) : List (Token α δ) →
    Option (TokenKind × Nat × BinaryOp × List (Token α δ))
  | .kind op :: rest =>
      if isTerminator op || noAngle && isAngle op then none
      else
        match infixBp op with
        | none => none
        | some (lBp, rBp, opKind) => if lBp < minBp then none else some (op, rBp, opKind, rest)
  | _ => none

mutual

def parseExprBp (noAngle : Bool) : Nat → Nat → List (Token α δ) →
    Except ParseError (Expr α δ × List (Token α δ))
  | 0, _, _ => .error .outOfFuel
  | fuel + 1, minBp, ts => do
      let (lhs, ts) ← parseUnary ts
      parseLoop noAngle fuel minBp lhs ts

def parseLoop (noAngle : Bool) : Nat → Nat → Expr α δ → List (Token α δ) →
    Except ParseError (Expr α δ × List (Token α δ))
  | 0, _, _, _ => .error .outOfFuel
  | fuel + 1, minBp, lhs, ts =>
      match continues noAngle minBp ts with
      | none => .ok (lhs, ts)
      | some (.dotDot, rBp, _, rest) => do
          let (rhs, rest) ← parseExprBp noAngle fuel rBp rest
          parseLoop noAngle fuel minBp (.rangeLit lhs rhs) rest
      | some (.question, rBp, _, rest) => do
          let (thenBranch, rest) ← parseExprBp noAngle fuel 0 rest
          let (_, rest) ← expect .colon rest
          let (elseBranch, rest) ← parseExprBp noAngle fuel rBp rest
          parseLoop noAngle fuel minBp (.ternary lhs thenBranch elseBranch) rest
      | some (.inside, _, _, rest) => do
          let (set, rest) ← parseUnary rest
          parseLoop noAngle fuel minBp (.membership lhs set) rest
      | some (.in_, rBp, _, rest) => do
          let (set, rest) ← parseExprBp noAngle fuel rBp rest
          parseLoop noAngle fuel minBp (.membership lhs set) rest
      | some (.dist, _, _, rest) => do
          let (entries, rest) ← parseDistEntries rest
          parseLoop noAngle fuel minBp (.distDirective lhs entries) rest
      | some (_, rBp, op, rest) => do
          let (rhs, rest) ← parseExprBp noAngle fuel rBp rest
          parseLoop noAngle fuel minBp (.binary op lhs rhs) rest

end

/-- A loop without turns is out of fuel. -/
example (lhs : Expr α δ) (ts : List (Token α δ)) :
    parseLoop noAngle 0 0 lhs ts = .error .outOfFuel := by
  simp [parseLoop]

end Parser

/-! ### The declared grammar -/

def lBp (k : TokenKind) : Nat := ((infixBp k).map fun bp => bp.1).getD 0

def rBp (k : TokenKind) : Nat := ((infixBp k).map fun bp => bp.2.1).getD 0

def opKind (k : TokenKind) : BinaryOp := ((infixBp k).map fun bp => bp.2.2).getD .add

/-- The operators between two expressions. -/
def isBinary (k : TokenKind) : Bool :=
  (infixBp k).isSome && k != .question && k != .inside && k != .dist

abbrev BinaryToken := { k : TokenKind // isBinary k = true }

/-- What follows an expression and takes one item with it. -/
inductive Suffix (α δ : Type) where
  | inside (a : α)
  | dist (d : δ)

def Suffix.kind {α δ : Type} : Suffix α δ → TokenKind
  | .inside _ => .inside
  | .dist _ => .dist

/-- Operators to the right of which equal precedence groups. -/
def rightAssociative : TokenKind → Bool
  | .pipeImplies | .pipeImpliesNext | .question => true
  | _ => false

/-- The powers of the operators that group to the right are `5, 4` and `7, 6`. -/
theorem powers_shape : ∀ k : TokenKind, (infixBp k).isSome = true → lBp k ≠ 4 ∧ lBp k ≠ 6 ∧
    (rightAssociative k = false ∧ rBp k = lBp k + 1 ∨
      rightAssociative k = true ∧ rBp k + 1 = lBp k ∧ (rBp k = 4 ∨ rBp k = 6)) := by
  intro k
  cases k <;> decide

/-- An operator pulls its left operand from another exactly when it is tighter, or they are
equal and group to the right; and it leaves its right operand to the other in the same way. -/
theorem precedence {o p : TokenKind} (ho : (infixBp o).isSome) (hp : (infixBp p).isSome) :
    (lBp o < rBp p ↔ lBp o < lBp p ∨ lBp o = lBp p ∧ rightAssociative p = false) ∧
      (rBp o ≤ lBp p ↔ lBp o < lBp p ∨ lBp o = lBp p ∧ rightAssociative o = true) := by
  obtain ⟨ho4, ho6, hoassoc⟩ := powers_shape o ho
  obtain ⟨hp4, hp6, hpassoc⟩ := powers_shape p hp
  rcases hoassoc with ⟨hol, hor⟩ | ⟨hol, hor, hor'⟩ <;>
    rcases hpassoc with ⟨hpl, hpr⟩ | ⟨hpl, hpr, hpr'⟩ <;>
    simp only [hol, hpl, and_true, and_false, or_false, reduceCtorEq] <;> omega

theorem rBp_le {o p : TokenKind} (ho : (infixBp o).isSome) (hp : (infixBp p).isSome)
    (hle : rBp o ≤ lBp p) : rBp o ≤ rBp p := by
  obtain ⟨ho4, ho6, hoassoc⟩ := powers_shape o ho
  obtain ⟨hp4, hp6, hpassoc⟩ := powers_shape p hp
  omega

section Grammar

variable {α δ : Type}

def powers : Powers BinaryToken (Suffix α δ) where
  left o := lBp o.1
  right o := rBp o.1
  suffix s := lBp s.kind
  ternaryLeft := lBp .question
  ternaryRight := rBp .question

theorem infixBp_isSome (o : BinaryToken) : (infixBp o.1).isSome := by
  have h := o.2
  simp only [isBinary, Bool.and_eq_true] at h
  exact h.1.1.1

theorem powers_regular : (@powers α δ).Regular := by
  have hregular : ∀ o : TokenKind, (infixBp o).isSome →
      (∀ p : BinaryToken, rBp o ≤ lBp p.1 → rBp o ≤ rBp p.1) ∧
        (rBp o ≤ lBp .question → rBp o ≤ rBp .question) :=
    fun o ho => ⟨fun p => rBp_le ho (infixBp_isSome p), rBp_le ho rfl⟩
  rintro k (rfl | ⟨o, rfl⟩)
  · exact hregular .question rfl
  · exact hregular o.1 (infixBp_isSome o)

/-- The expression that the parser makes of an operator. -/
def build (k : TokenKind) (lhs rhs : Expr α δ) : Expr α δ :=
  match k with
  | .dotDot => .rangeLit lhs rhs
  | .in_ => .membership lhs rhs
  | k => .binary (opKind k) lhs rhs

def attachSuffix (lhs : Expr α δ) : Suffix α δ → Expr α δ
  | .inside a => .membership lhs (.operand a)
  | .dist d => .distDirective lhs d

def toExpr : Tree BinaryToken (Suffix α δ) α → Expr α δ
  | .leaf a => .operand a
  | .binary o l r => build o.1 (toExpr l) (toExpr r)
  | .suffix s l => attachSuffix (toExpr l) s
  | .ternary l m r => .ternary (toExpr l) (toExpr m) (toExpr r)

def Suffix.tokens : Suffix α δ → List (Token α δ)
  | .inside a => [.kind .inside, .operand a]
  | .dist d => [.kind .dist, .entries d]

def symbolTokens : Symbol BinaryToken (Suffix α δ) α → List (Token α δ)
  | .item a => [.operand a]
  | .op o => [.kind o.1]
  | .suffix s => s.tokens
  | .opening => [.kind .question]
  | .closing => [.kind .colon]

def tokens (symbols : List (Symbol BinaryToken (Suffix α δ) α)) : List (Token α δ) :=
  symbols.flatMap symbolTokens

theorem tokens_append (x y : List (Symbol BinaryToken (Suffix α δ) α)) :
    tokens (x ++ y) = tokens x ++ tokens y :=
  List.flatMap_append

theorem tokens_cons (x : Symbol BinaryToken (Suffix α δ) α)
    (y : List (Symbol BinaryToken (Suffix α δ) α)) :
    tokens (x :: y) = symbolTokens x ++ tokens y :=
  List.flatMap_cons

/-- Whether a token ends the expression although it is an operator. -/
def blocked (noAngle : Bool) (k : TokenKind) : Bool := noAngle && isAngle k

/-- In a list of type arguments the sequence has none of the closing operators. -/
def Unblocked (noAngle : Bool) (symbols : List (Symbol BinaryToken (Suffix α δ) α)) : Prop :=
  ∀ o : BinaryToken, .op o ∈ symbols → blocked noAngle o.1 = false

end Grammar

/-! ### One turn of the loop -/

section Loop

variable {α δ : Type} {noAngle : Bool} {m : Nat} {k : TokenKind}

theorem isTerminator_of_infix : ∀ k : TokenKind, (infixBp k).isSome = true →
    isTerminator k = false := by
  intro k
  cases k <;> decide

theorem infixBp_eq (hk : (infixBp k).isSome) : infixBp k = some (lBp k, rBp k, opKind k) := by
  obtain ⟨bp, hbp⟩ := Option.isSome_iff_exists.mp hk
  simp only [lBp, rBp, opKind, hbp, Option.map_some, Option.getD_some]

theorem continues_lt (hk : (infixBp k).isSome) (hlt : lBp k < m) (rest : List (Token α δ)) :
    continues noAngle m (.kind k :: rest) = none := by
  rw [continues, infixBp_eq hk]
  simp only [hlt, if_true, ite_self]

theorem continues_some (hk : (infixBp k).isSome) (hblocked : blocked noAngle k = false)
    (hle : m ≤ lBp k) (rest : List (Token α δ)) :
    continues noAngle m (.kind k :: rest) = some (k, rBp k, opKind k, rest) := by
  rw [blocked] at hblocked
  rw [continues, isTerminator_of_infix k hk, hblocked, infixBp_eq hk]
  simp only [Bool.or_self, Bool.false_eq_true, if_false, Nat.not_lt.mpr hle]

theorem continues_colon (rest : List (Token α δ)) :
    continues noAngle m (.kind .colon :: rest) = none := by
  rw [continues]
  exact ite_self none

theorem continues_mono {n : Nat} (hmn : m ≤ n) {rest : List (Token α δ)}
    (h : continues noAngle m rest = none) : continues noAngle n rest = none := by
  cases rest with
  | nil => rfl
  | cons t rest =>
      cases t with
      | operand a => rfl
      | entries d => rfl
      | kind k =>
          rw [continues] at h ⊢
          split_ifs at h ⊢ with hend
          · rfl
          · cases hbp : infixBp k with
            | none => rfl
            | some bp =>
                obtain ⟨l, r, op⟩ := bp
                simp only [hbp, ite_eq_left_iff, reduceCtorEq, imp_false, not_not] at h ⊢
                exact Nat.lt_of_lt_of_le h hmn

theorem parseLoop_stops {fuel : Nat} (hfuel : 0 < fuel) {lhs : Expr α δ}
    {rest : List (Token α δ)} (h : continues noAngle m rest = none) :
    parseLoop noAngle fuel m lhs rest = .ok (lhs, rest) := by
  obtain ⟨fuel, rfl⟩ := Nat.exists_eq_add_of_lt hfuel
  rw [Nat.zero_add, parseLoop, h]

theorem parseLoop_binary (o : BinaryToken) (hblocked : blocked noAngle o.1 = false)
    (hle : m ≤ lBp o.1) {fuel : Nat} {lhs rhs : Expr α δ} {ts rest : List (Token α δ)}
    (hrhs : parseExprBp noAngle fuel (rBp o.1) ts = .ok (rhs, rest)) :
    parseLoop noAngle (fuel + 1) m lhs (.kind o.1 :: ts) =
      parseLoop noAngle fuel m (build o.1 lhs rhs) rest := by
  rw [parseLoop, continues_some (infixBp_isSome o) hblocked hle]
  obtain ⟨k, hk⟩ := o
  cases k <;> first | exact absurd hk (by decide) | (simp only [hrhs]; rfl)

theorem parseLoop_suffix (s : Suffix α δ) (hle : m ≤ lBp s.kind) {fuel : Nat}
    {lhs : Expr α δ} {rest : List (Token α δ)} :
    parseLoop noAngle (fuel + 1) m lhs (s.tokens ++ rest) =
      parseLoop noAngle fuel m (attachSuffix lhs s) rest := by
  cases s with
  | inside a =>
      change parseLoop noAngle (fuel + 1) m lhs (.kind .inside :: .operand a :: rest) = _
      have hblocked : blocked noAngle .inside = false := Bool.and_false noAngle
      rw [parseLoop, @continues_some _ _ _ _ .inside rfl hblocked hle]
      rfl
  | dist d =>
      change parseLoop noAngle (fuel + 1) m lhs (.kind .dist :: .entries d :: rest) = _
      have hblocked : blocked noAngle .dist = false := Bool.and_false noAngle
      rw [parseLoop, @continues_some _ _ _ _ .dist rfl hblocked hle]
      rfl

theorem parseLoop_ternary (hle : m ≤ lBp .question) {fuel : Nat}
    {cond thenBranch elseBranch : Expr α δ} {ts rest rest' : List (Token α δ)}
    (hthen : parseExprBp noAngle fuel 0 ts = .ok (thenBranch, .kind .colon :: rest))
    (helse : parseExprBp noAngle fuel (rBp .question) rest = .ok (elseBranch, rest')) :
    parseLoop noAngle (fuel + 1) m cond (.kind .question :: ts) =
      parseLoop noAngle fuel m (.ternary cond thenBranch elseBranch) rest' := by
  have hblocked : blocked noAngle .question = false := Bool.and_false noAngle
  rw [parseLoop, continues_some rfl hblocked hle]
  simp only [hthen]
  change (do
    let (elseBranch, rest) ← parseExprBp noAngle fuel (rBp .question) rest
    parseLoop noAngle fuel m (.ternary cond thenBranch elseBranch) rest) = _
  rw [helse]
  rfl

end Loop

/-! ### Well grouped sequences are parsed to their tree -/

section Parse

variable {α δ : Type} {noAngle : Bool}

/-- How many turns the parser has made at the end of the tree. -/
def turns : Tree BinaryToken (Suffix α δ) α → Nat
  | .leaf _ => 1
  | .binary _ l _ => turns l + 1
  | .suffix _ l => turns l + 1
  | .ternary l _ _ => turns l + 1

theorem turns_le (t : Tree BinaryToken (Suffix α δ) α) : turns t ≤ (tokens t.symbols).length := by
  induction t with
  | leaf a => exact Nat.le_refl 1
  | binary o l r ihl _ =>
      rw [Tree.symbols, tokens_append, tokens_cons, turns]
      simp only [symbolTokens, List.length_append, List.length_cons, List.length_nil]
      omega
  | suffix s l ih =>
      have hs : 1 ≤ s.tokens.length := by cases s <;> exact Nat.le_succ 1
      rw [Tree.symbols, tokens_append, tokens_cons, turns]
      simp only [symbolTokens, List.length_append]
      omega
  | ternary l m r ihl _ _ =>
      simp only [Tree.symbols, tokens_append, tokens_cons, turns, symbolTokens,
        List.length_append, List.length_cons, List.length_nil]
      omega

/-- The parser reads a well grouped tree and is then in its loop with the tree's expression. -/
theorem parseExprBp_tree (t : Tree BinaryToken (Suffix α δ) α) (ht : t.WellGrouped powers)
    (hangle : Unblocked noAngle t.symbols) {m fuel : Nat} {rest : List (Token α δ)}
    (hleft : ∀ p ∈ t.leftEdge powers, m ≤ p)
    (hright : ∀ p ∈ t.rightEdge powers, continues noAngle p rest = none)
    (hfuel : (tokens t.symbols).length < fuel) :
    parseExprBp noAngle fuel m (tokens t.symbols ++ rest) =
      parseLoop noAngle (fuel - turns t) m (toExpr t) rest := by
  induction t generalizing m fuel rest with
  | leaf a =>
      obtain ⟨fuel, rfl⟩ := Nat.exists_eq_add_of_lt hfuel
      rfl
  | binary o l r ihl ihr =>
      obtain ⟨hl, hr, hedge, hinner⟩ := ht
      obtain ⟨hle, hleft⟩ := List.forall_mem_cons.mp hleft
      obtain ⟨hend, hright⟩ := List.forall_mem_cons.mp hright
      have hturns := turns_le l
      have hlen : (tokens (l.symbols ++ .op o :: r.symbols)).length =
          (tokens l.symbols).length + ((tokens r.symbols).length + 1) := by
        rw [tokens_append, tokens_cons, List.length_append]
        rfl
      rw [Tree.symbols, hlen] at hfuel
      have hstart : parseExprBp noAngle fuel m
            (tokens l.symbols ++ .kind o.1 :: (tokens r.symbols ++ rest)) =
          parseLoop noAngle (fuel - turns l) m (toExpr l)
            (.kind o.1 :: (tokens r.symbols ++ rest)) :=
        ihl hl (fun o' h => hangle o' (List.mem_append_left _ h)) hleft
          (fun p hp => continues_lt (infixBp_isSome o) (hedge p hp) _) (by omega)
      have hrhs : parseExprBp noAngle (fuel - (turns l + 1)) (rBp o.1)
            (tokens r.symbols ++ rest) = .ok (toExpr r, rest) := by
        have hturns' := turns_le r
        refine (ihr hr (fun o' h => hangle o' (by simp [Tree.symbols, h])) hinner hright
          (by omega)).trans ?_
        exact parseLoop_stops (by omega) hend
      have hsplit : fuel - turns l = fuel - (turns l + 1) + 1 := by omega
      rw [Tree.symbols, tokens_append, tokens_cons, List.append_assoc]
      change parseExprBp noAngle fuel m
        (tokens l.symbols ++ .kind o.1 :: (tokens r.symbols ++ rest)) = _
      rw [hstart, hsplit, parseLoop_binary o (hangle o (by simp [Tree.symbols])) hle hrhs]
      rfl
  | suffix s l ih =>
      obtain ⟨hl, hedge⟩ := ht
      obtain ⟨hle, hleft⟩ := List.forall_mem_cons.mp hleft
      have hturns := turns_le l
      obtain ⟨tail, htail⟩ : ∃ tail, s.tokens = .kind s.kind :: tail := by
        cases s <;> exact ⟨_, rfl⟩
      have hlen : (tokens (l.symbols ++ [.suffix s])).length =
          (tokens l.symbols).length + (tail.length + 1) := by
        rw [tokens_append, List.length_append, ← List.length_cons, ← htail]
        exact congrArg _ (congrArg _ (List.append_nil _))
      rw [Tree.symbols, hlen] at hfuel
      have hstart : parseExprBp noAngle fuel m (tokens l.symbols ++ (s.tokens ++ rest)) =
          parseLoop noAngle (fuel - turns l) m (toExpr l) (s.tokens ++ rest) := by
        rw [htail]
        refine ih hl (fun o' h => hangle o' (List.mem_append_left _ h)) hleft
          (fun p hp => continues_lt ?_ (hedge p hp) _) (by omega)
        cases s <;> rfl
      have hsplit : fuel - turns l = fuel - (turns l + 1) + 1 := by omega
      have htokens : tokens [Symbol.suffix s] = s.tokens := List.append_nil _
      rw [Tree.symbols, tokens_append, htokens, List.append_assoc, hstart, hsplit,
        parseLoop_suffix s hle]
      rfl
  | ternary l mid r ihl ihm ihr =>
      obtain ⟨hl, hm, hr, hedge, hinner⟩ := ht
      obtain ⟨hle, hleft⟩ := List.forall_mem_cons.mp hleft
      obtain ⟨hend, hright⟩ := List.forall_mem_cons.mp hright
      have hturns := turns_le l
      have hlen : (tokens (Tree.ternary l mid r).symbols).length = (tokens l.symbols).length +
          ((tokens mid.symbols).length + (tokens r.symbols).length + 2) := by
        simp only [Tree.symbols, tokens_append, tokens_cons, symbolTokens, List.length_append,
          List.length_cons, List.length_nil]
        omega
      have htokens : tokens (Tree.ternary l mid r).symbols ++ rest = tokens l.symbols ++
          .kind .question :: (tokens mid.symbols ++
            .kind .colon :: (tokens r.symbols ++ rest)) := by
        simp [Tree.symbols, tokens_append, tokens_cons, symbolTokens]
      rw [hlen] at hfuel
      rw [htokens]
      have hstart : parseExprBp noAngle fuel m (tokens l.symbols ++ .kind .question ::
            (tokens mid.symbols ++ .kind .colon :: (tokens r.symbols ++ rest))) =
          parseLoop noAngle (fuel - turns l) m (toExpr l) (.kind .question ::
            (tokens mid.symbols ++ .kind .colon :: (tokens r.symbols ++ rest))) :=
        ihl hl (fun o' h => hangle o' (by simp [Tree.symbols, h])) hleft
          (fun p hp => continues_lt rfl (hedge p hp) _) (by omega)
      have hthen : parseExprBp noAngle (fuel - (turns l + 1)) 0 (tokens mid.symbols ++
            .kind .colon :: (tokens r.symbols ++ rest)) =
          .ok (toExpr mid, .kind .colon :: (tokens r.symbols ++ rest)) := by
        have hturns' := turns_le mid
        rw [ihm hm (fun o' h => hangle o' (by simp [Tree.symbols, h]))
          (fun p _ => Nat.zero_le p) (fun p _ => continues_colon _) (by omega)]
        exact parseLoop_stops (by omega) (continues_colon _)
      have helse : parseExprBp noAngle (fuel - (turns l + 1)) (rBp .question)
            (tokens r.symbols ++ rest) = .ok (toExpr r, rest) := by
        have hturns' := turns_le r
        refine (ihr hr (fun o' h => hangle o' (by simp [Tree.symbols, h])) hinner hright
          (by omega)).trans ?_
        exact parseLoop_stops (by omega) hend
      have hsplit : fuel - turns l = fuel - (turns l + 1) + 1 := by omega
      rw [hstart, hsplit, parseLoop_ternary hle hthen helse]
      rfl

/-- The expression is the one of the only well grouped tree for the sequence, and nothing of
the sequence is left over. -/
theorem parseExprBp_grammar (s : Sentence BinaryToken (Suffix α δ) α)
    (hangle : Unblocked noAngle s.symbols) (rest : List (Token α δ))
    (hrest : continues noAngle 0 rest = none) (fuel : Nat)
    (hfuel : (tokens s.symbols).length < fuel) :
    ∃ e : Expr α δ, parseExprBp noAngle fuel 0 (tokens s.symbols ++ rest) = .ok (e, rest) ∧
      (∃ t : Tree BinaryToken (Suffix α δ) α,
        t.WellGrouped powers ∧ t.symbols = s.symbols ∧ toExpr t = e) ∧
      (∀ t : Tree BinaryToken (Suffix α δ) α,
        t.WellGrouped powers → t.symbols = s.symbols → toExpr t = e) ∧
      ∀ o p : TokenKind, (infixBp o).isSome → (infixBp p).isSome →
        (lBp o < rBp p ↔ lBp o < lBp p ∨ lBp o = lBp p ∧ rightAssociative p = false) ∧
          (rBp o ≤ lBp p ↔ lBp o < lBp p ∨ lBp o = lBp p ∧ rightAssociative o = true) := by
  have hparse : ∀ t : Tree BinaryToken (Suffix α δ) α, t.WellGrouped powers →
      t.symbols = s.symbols →
      parseExprBp noAngle fuel 0 (tokens s.symbols ++ rest) = .ok (toExpr t, rest) := by
    intro t ht hsymbols
    rw [← hsymbols] at hangle hfuel ⊢
    have hturns := turns_le t
    rw [parseExprBp_tree t ht hangle (fun p _ => Nat.zero_le p)
      (fun p _ => continues_mono (Nat.zero_le p) hrest) hfuel]
    exact parseLoop_stops (by omega) hrest
  obtain ⟨t, ht, hsymbols⟩ := Tree.exists_wellGrouped powers_regular s
  refine ⟨toExpr t, hparse t ht hsymbols, ⟨t, ht, hsymbols, rfl⟩, fun t' ht' hsymbols' => ?_,
    fun o p ho hp => precedence ho hp⟩
  have hsame := (hparse t' ht' hsymbols').symm.trans (hparse t ht hsymbols)
  exact (Prod.mk.inj (Except.ok.inj hsame)).1

end Parse

/-- `0 |-> 1 + 2 ? 3 : 4 inside 5` -/
def implication : Sentence BinaryToken (Suffix Nat Nat) Nat :=
  .suffix (.ternary (.binary (.binary (.item 0) ⟨.pipeImplies, rfl⟩ 1) ⟨.plus, rfl⟩ 2)
    (.item 3) 4) (.inside 5)

theorem implication_parsed :
    ∃ e : Expr Nat Nat, parseExprBp false 12 0 (tokens implication.symbols ++ [.kind .semi]) =
        .ok (e, [.kind .semi]) ∧
      e = .binary .pipeImplies (.operand 0)
        (.ternary (.binary .add (.operand 1) (.operand 2)) (.operand 3)
          (.membership (.operand 4) (.operand 5))) := by
  obtain ⟨e, hparse, -, -, -⟩ := @parseExprBp_grammar _ _ false implication (fun _ _ => rfl)
    [.kind .semi] rfl 12 (by decide)
  refine ⟨e, hparse, ?_⟩
  have hrun : parseExprBp false 12 0 (tokens implication.symbols ++ [.kind .semi]) =
      .ok (.binary .pipeImplies (.operand 0)
        (.ternary (.binary .add (.operand 1) (.operand 2)) (.operand 3)
          (.membership (.operand 4) (.operand 5))), [.kind .semi]) := rfl
  exact (Prod.mk.inj (Except.ok.inj (hparse.symm.trans hrun))).1

/-- The powers where every operator, `inside` too, has a whole expression on its right. -/
def tablePowers : Powers TokenKind Empty where
  left := lBp
  right := rBp
  suffix := nofun
  ternaryLeft := lBp .question
  ternaryRight := rBp .question

/-- By the table `0 inside 1 + 2` is `0 inside (1 + 2)`, but `inside` takes one operand. -/
theorem inside_takes_one_operand :
    (Tree.binary .inside (.leaf 0) (.binary .plus (.leaf 1) (.leaf 2))).WellGrouped
        tablePowers ∧
      ¬ (Tree.binary .plus (.binary .inside (.leaf 0) (.leaf 1)) (.leaf 2)).WellGrouped
        tablePowers ∧
      @parseExprBp Nat Nat false 10 0
          [.operand 0, .kind .inside, .operand 1, .kind .plus, .operand 2] =
        .ok (.binary .add (.membership (.operand 0) (.operand 1)) (.operand 2), []) := by
  refine ⟨⟨trivial, ⟨trivial, trivial, nofun, nofun⟩, nofun, ?_⟩, ?_, rfl⟩
  · exact List.forall_mem_cons.mpr ⟨by decide, nofun⟩
  · rintro ⟨-, -, hedge, -⟩
    exact absurd (hedge _ List.mem_cons_self) (by decide)

end Harc.InfixParser
