import Harc.BoundedCount

/-!
The budget of `wait until … timeout N cycles` in the two lowerings of the wait: the local
that holds it and the count that is made of it.
-/

namespace Harc.WaitBudget

open Harc.BoundedCount
open Harc.IrExpr
open Harc.CppScalar

def irTypeWidth : IrType → Option Nat
  | .uint w | .sint w => w
  | .bool => some 1
  | _ => none

def isSint : IrType → Bool
  | .sint _ => true
  | _ => false

/-- The carrier of a local; a wide one has at least five words. -/
def wordsOf (w : Nat) : Nat := max 5 ((w + 31) / 32)

def hostScalarCty : IrType → Carrier
  | .bool => .bool
  | .sint _ => .int64
  | _ => .uint64

def localScalarCty (ty : IrType) : Carrier :=
  match tier (irTypeWidth ty) with
  | .wide w => .wide (wordsOf w) (le_trans (by decide) (le_max_left 5 _))
  | .u128 _ => .uint128
  | .host => hostScalarCty ty

/-- A wide local holds as many bits as its width. -/
def storedInt (ty : IrType) (v : Int) : Int :=
  match tier (irTypeWidth ty) with
  | .wide w | .u128 w => v % 2 ^ w
  | .host => v

def stored (ty : IrType) (v : Int) : CValue :=
  ⟨localScalarCty ty, BitVec.ofInt _ (storedInt ty v)⟩

/-- `Expr::Local(budget)` -/
def budgetOperand (ty : IrType) (v : Int) : Operand := ⟨irTypeWidth ty, isSint ty, false, stored ty v⟩

/-- The value of a budget.  Its local is a fresh one of unknown type, which gets a type only where
the plan of the DUT accesses infers one from a port that the expression reads. -/
structure Budget where
  inferred : Option IrType
  value : Int
  /-- A truth value is 0 or 1. -/
  truth : inferred = some .bool → value = 0 ∨ value = 1

namespace Budget

variable (b : Budget)

def localType : IrType := b.inferred.getD .unknown

/-- The count of the compact form: `bounded_count_expr_cpp` with the limit of `uint32_t`, and the
cast to it. -/
def compactBudget : Nat :=
  (operandCount (budgetOperand b.localType b.value) 0xFFFFFFFF % 2 ^ 32).toNat

/-- The count of the polling loop, a local of type `uint64_t`. -/
def expandedBudget : BitVec 64 := BitVec.ofInt 64 b.value

/-- The budget as its local holds it. -/
def held : Int :=
  match tier (irTypeWidth b.localType) with
  | .host => if isSint b.localType then b.value.bmod (2 ^ 64) else b.value % 2 ^ 64
  | .u128 w | .wide w => readAt (isSint b.localType) w (b.value % 2 ^ w)

/-- The count is emitted without a clamp: an unsigned type of at most 32 bits. -/
def narrow : Bool :=
  !isSint b.localType && (irTypeWidth b.localType).any fun w => decide (w ≤ 32)

/-- The cycles for which the compact form waits at most. -/
def cycles : Int :=
  if b.narrow then b.held % 2 ^ 32 else max 0 (min b.held (2 ^ 32 - 1))

end Budget

theorem ofInt_toInt {c : Carrier} {x : Int} (hunsigned : c.signed = false) :
    (⟨c, BitVec.ofInt _ x⟩ : CValue).toInt = x % 2 ^ c.bits := by
  rw [toInt_of_unsigned hunsigned]
  change ((BitVec.ofInt c.bits x).toNat : Int) = _
  have hcast : ((2 ^ c.bits : Nat) : Int) = 2 ^ c.bits := by push_cast; rfl
  have hpos : (0 : Int) < 2 ^ c.bits := by positivity
  rw [BitVec.toNat_ofInt, hcast, Int.toNat_of_nonneg (Int.emod_nonneg _ hpos.ne')]

/-- A carrier of more than 64 bits is unsigned and has the bits of the width. -/
theorem localScalarCty_of_wide {ty : IrType} {w : Nat}
    (h : tier (irTypeWidth ty) = .u128 w ∨ tier (irTypeWidth ty) = .wide w) :
    (localScalarCty ty).signed = false ∧ w ≤ (localScalarCty ty).bits := by
  rw [localScalarCty]
  rcases h with htier | htier
  · rw [htier]
    exact ⟨rfl, (width_pos_of_tier.1 htier).2⟩
  · rw [htier]
    refine ⟨rfl, ?_⟩
    change w ≤ 32 * wordsOf w
    rw [wordsOf]
    omega

/-- A wide local holds the residue of its width. -/
theorem stored_toInt_of_wide {ty : IrType} {w : Nat} (v : Int)
    (h : tier (irTypeWidth ty) = .u128 w ∨ tier (irTypeWidth ty) = .wide w) :
    (stored ty v).toInt = v % 2 ^ w := by
  obtain ⟨hunsigned, hbits⟩ := localScalarCty_of_wide h
  have hstored : storedInt ty v = v % 2 ^ w := by
    rw [storedInt]
    rcases h with htier | htier <;> rw [htier]
  have hpos : (0 : Int) < 2 ^ w := by positivity
  have hle : (2 : Int) ^ w ≤ 2 ^ (localScalarCty ty).bits := pow_le_pow_right₀ (by norm_num) hbits
  rw [stored, hstored, ofInt_toInt hunsigned]
  refine Int.emod_eq_of_lt (Int.emod_nonneg _ hpos.ne') ?_
  exact lt_of_lt_of_le (Int.emod_lt_of_pos _ hpos) hle

theorem stored_toInt_of_host {ty : IrType} {v : Int} (h : tier (irTypeWidth ty) = .host)
    (htruth : ty = .bool → v = 0 ∨ v = 1) :
    (stored ty v).toInt = if isSint ty then v.bmod (2 ^ 64) else v % 2 ^ 64 := by
  have hstored : stored ty v = ⟨hostScalarCty ty, BitVec.ofInt _ v⟩ := by
    rw [stored, storedInt, localScalarCty, h]
  rw [hstored]
  rcases ty with _ | _ | _ | _ | _ | _ | _ | _ | _ | _ | _ | _
  case sint => exact BitVec.toInt_ofInt v
  case bool =>
    rcases htruth rfl with rfl | rfl <;> rfl
  all_goals exact ofInt_toInt rfl

theorem stored_carried (ty : IrType) (v : Int) : (budgetOperand ty v).Carried := by
  have hwidth : (budgetOperand ty v).width = irTypeWidth ty := rfl
  rw [Operand.Carried, hwidth]
  rcases htier : tier (irTypeWidth ty) with _ | w | w
  · trivial
  · trivial
  · refine ⟨?_, (localScalarCty_of_wide (.inr htier)).1⟩
    have hbits : (localScalarCty ty).bits = 32 * wordsOf w := by
      rw [localScalarCty, htier]
      rfl
    change (localScalarCty ty).bits = 32 * ((localScalarCty ty).bits / 32)
    omega

def Budget.count (b : Budget) : Count where
  operand := budgetOperand b.localType b.value
  value := b.value
  carried := stored_carried b.localType b.value

theorem Budget.truth_localType (b : Budget) (h : b.localType = .bool) :
    b.value = 0 ∨ b.value = 1 := by
  apply b.truth
  rw [localType] at h
  rcases hinferred : b.inferred with _ | ty
  · rw [hinferred] at h
    cases h
  · rw [hinferred] at h
    exact congrArg some h

theorem Budget.count_signed (b : Budget) : b.count.operand.signed = isSint b.localType :=
  Bool.or_false _

/-- The count compares what the local holds. -/
theorem Budget.seen_count (b : Budget) : b.count.seen = b.held := by
  have hwidth : b.count.operand.width = irTypeWidth b.localType := rfl
  have htext : b.count.operand.text = stored b.localType b.value := rfl
  rw [Count.seen, held, hwidth, b.count_signed, htext]
  rcases htier : tier (irTypeWidth b.localType) with _ | w | w
  · dsimp only
    rw [stored_toInt_of_host htier b.truth_localType]
    split_ifs
    · exact Int.bmod_bmod
    · exact Int.emod_emod _ _
  · dsimp only
    have hle := (width_pos_of_tier.1 htier).2
    have hpos : (0 : Int) < 2 ^ w := by positivity
    have hpow : (2 : Int) ^ w ≤ 2 ^ 128 := pow_le_pow_right₀ (by norm_num) hle
    rw [stored_toInt_of_wide b.value (.inl htier), Int.emod_eq_of_lt (Int.emod_nonneg _ hpos.ne')
      (lt_of_lt_of_le (Int.emod_lt_of_pos _ hpos) hpow)]
  · dsimp only
    rw [stored_toInt_of_wide b.value (.inr htier)]

theorem widthFits_word (w : Nat) : widthFits 0xFFFFFFFF w = decide (w ≤ 32) := by
  rw [Bool.eq_iff_iff, decide_eq_true_eq, widthFits]
  have hlimit : (0xFFFFFFFF : BitVec 64).toNat = 2 ^ 32 - 1 := by decide
  split_ifs with hzero hsmall
  · simp [hzero]
  · rw [decide_eq_true_eq, hlimit]
    constructor
    · intro hle
      by_contra hlarge
      have := Nat.pow_le_pow_right (show 0 < 2 by decide) (show 33 ≤ w by omega)
      omega
    · intro hle
      exact Nat.sub_le_sub_right (Nat.pow_le_pow_right (by decide) hle) 1
  · rw [decide_eq_true_eq]
    constructor
    · rintro ⟨-, hlimit⟩
      exact absurd hlimit (by decide)
    · omega

theorem Budget.unclamped_count (b : Budget) :
    unclamped b.count.operand 0xFFFFFFFF = b.narrow := by
  have hwidth : b.count.operand.width = irTypeWidth b.localType := rfl
  have hfits : widthFits 0xFFFFFFFF = fun w => decide (w ≤ 32) := by
    funext w
    exact widthFits_word w
  rw [unclamped, b.count_signed, hwidth, hfits, narrow]

theorem Budget.held_of_narrow (b : Budget) (h : b.narrow = true) :
    tier (irTypeWidth b.localType) = .host ∧ isSint b.localType = false ∧
      b.held = b.value % 2 ^ 64 := by
  have hhost : tier (irTypeWidth b.localType) = .host := by
    by_contra htier
    rw [← b.unclamped_count, unclamped_of_tier htier] at h
    cases h
  have hunsigned : isSint b.localType = false := by
    rw [narrow, Bool.and_eq_true, Bool.not_eq_true'] at h
    exact h.1
  refine ⟨hhost, hunsigned, ?_⟩
  rw [held, hhost]
  dsimp only
  rw [hunsigned, if_neg Bool.false_ne_true]

/-- The compact form waits for the cycles of the budget. -/
theorem Budget.compactBudget_eq (b : Budget) : (b.compactBudget : Int) = b.cycles := by
  have hcount := operandCount_seen b.count 0xFFFFFFFF
  have hlimit : (((0xFFFFFFFF : BitVec 64).toNat : Nat) : Int) = 2 ^ 32 - 1 := by decide
  rw [b.seen_count, hlimit, b.unclamped_count] at hcount
  change (((operandCount b.count.operand 0xFFFFFFFF) % 2 ^ 32).toNat : Int) = _
  rw [hcount, Int.toNat_of_nonneg (Int.emod_nonneg _ (by norm_num)), cycles]
  split_ifs with hraw
  · obtain ⟨hhost, hunsigned, hheld⟩ := b.held_of_narrow hraw
    have htext : b.count.operand.text = stored b.localType b.value := rfl
    rw [htext, stored_toInt_of_host hhost b.truth_localType, hunsigned,
      if_neg Bool.false_ne_true, hheld]
  · exact Int.emod_eq_of_lt (by omega) (by omega)

theorem readAt_emod {signed : Bool} {w : Nat} (hw : 64 < w) (v : Int) :
    readAt signed w (v % 2 ^ w) % 2 ^ 64 = v % 2 ^ 64 := by
  have hdvd : (2 : Int) ^ 64 ∣ 2 ^ w := pow_dvd_pow 2 hw.le
  rw [readAt, Int.emod_emod]
  split_ifs
  · rw [Int.sub_emod, Int.emod_emod_of_dvd _ hdvd, Int.emod_eq_zero_of_dvd hdvd, sub_zero,
      Int.emod_emod]
  · exact Int.emod_emod_of_dvd _ hdvd

/-- The local keeps the low 64 bits of the value, and if it is not wide no others. -/
theorem Budget.held_spec (b : Budget) :
    b.held % 2 ^ 64 = b.value % 2 ^ 64 ∧
      (b.narrow = true → 0 ≤ b.held ∧ b.held < 2 ^ 64) := by
  constructor
  · rw [held]
    rcases htier : tier (irTypeWidth b.localType) with _ | w | w
    · dsimp only
      split_ifs
      · exact Int.bmod_emod
      · exact Int.emod_emod _ _
    · exact readAt_emod (width_pos_of_tier.1 htier).1 b.value
    · exact readAt_emod (lt_trans (by decide) (width_pos_of_tier.2 htier)) b.value
  · intro hnarrow
    rw [(b.held_of_narrow hnarrow).2.2]
    exact ⟨Int.emod_nonneg _ (by norm_num), Int.emod_lt_of_pos _ (by norm_num)⟩

end Harc.WaitBudget
