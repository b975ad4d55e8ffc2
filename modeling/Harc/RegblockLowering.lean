import Harc.Fallible
import Mathlib.Tactic.Common
import Mathlib.Algebra.Order.Ring.Int

/-!
The declaration of a `regblock` and its lowering to the registers of the frontdoor and
the cells of the mirror record.
-/

namespace Harc.RegblockLowering

open Harc.Fallible

abbrev U64 := BitVec 64

inductive LowerError where
  | invalid (message : String)
  | notImplemented (what detail : String)
deriving DecidableEq, Repr

/-- A constant expression, by what the folder makes of it. -/
inductive ConstExpr where
  | bool (b : Bool)
  | value (z : Int)
  | unsupported (detail : String)
  | invalid (detail : String)
deriving DecidableEq, Repr

inductive RegAccess where
  | rw
  | ro
  | wo
deriving DecidableEq, Repr

def RegAccess.writesToBus : RegAccess → Bool
  | .rw | .wo => true
  | .ro => false

def RegAccess.readsFromBus : RegAccess → Bool
  | .rw | .ro => true
  | .wo => false

/-- The type of a field, with its width argument if it has exactly one. -/
inductive FieldTy where
  | bit
  | uint (width : Option ConstExpr)
  | sint (width : Option ConstExpr)
  | other
deriving DecidableEq, Repr

structure RegFieldDecl where
  name : String
  ty : FieldTy
  bitPos : Nat
  reset : Option ConstExpr
  access : RegAccess

structure RegisterDecl where
  name : String
  offset : ConstExpr
  width : Option Nat
  reset : Option ConstExpr
  access : RegAccess
  fields : List RegFieldDecl

structure RegblockDecl where
  name : String
  defaultWidth : Option Nat
  registers : List RegisterDecl

structure RegFieldSchema where
  name : String
  bitPos : Nat
  bitWidth : Nat
  signed : Bool
  access : RegAccess
deriving DecidableEq, Repr

structure RegRegisterSchema where
  name : String
  offset : Nat
  width : Nat
  access : RegAccess
  fields : List RegFieldSchema
deriving DecidableEq, Repr

/-- A cell of the mirror record. -/
structure RecordFieldSchema where
  name : String
  width : Nat
  default : Option U64
deriving DecidableEq, Repr

def fieldMask (width : Nat) : U64 :=
  if width = 0 then 0
  else if width < 64 then (1#64 <<< width) - 1
  else BitVec.allOnes 64

section Constants

/-- An error if the condition holds. -/
def reject (c : Prop) [Decidable c] (error : LowerError) : Except LowerError Unit :=
  if c then .error error else .ok ()

@[simp] theorem reject_eq_ok {c : Prop} [Decidable c] {error : LowerError} {u : Unit} :
    reject c error = .ok u ↔ ¬ c := by
  unfold reject
  split_ifs with h <;> simp [h]

def foldConst (what : String) : ConstExpr → Except LowerError Int
  | .bool b => .ok (if b then 1 else 0)
  | .value z => .ok z
  | .unsupported detail => .error (.notImplemented s!"a non-constant {what}" detail)
  | .invalid detail => .error (.invalid s!"the {what}: {detail}")

def foldAddrConst (what : String) (e : ConstExpr) : Except LowerError Nat := do
  let z ← foldConst what e
  reject (z < 0)
    (.invalid s!"the {what} folds to {z}, and must not be negative.")
  reject (2 ^ 64 ≤ z)
    (.invalid s!"the {what} folds to {z}, which does not fit 64 bits.")
  return z.toNat

def foldSignedConst (what : String) (e : ConstExpr) : Except LowerError Int := do
  let z ← foldConst what e
  reject (z < -2 ^ 127 ∨ 2 ^ 127 ≤ z)
    (.invalid s!"the {what} folds to {z}, which does not fit 128 bits")
  return z

end Constants

section Fields

def widthArgument (what : String) : Option ConstExpr → Except LowerError Nat
  | none =>
      .error (.invalid
        s!"the {what} must be a single constant width argument, as in `uint<8>`")
  | some e => do
      let w ← foldAddrConst what e
      reject (2 ^ 32 ≤ w)
        (.invalid
          s!"the {what} is {w}, which exceeds every register width (at most 64)")
      return w

def fieldBitWidth (what : String) : FieldTy → Except LowerError Nat
  | .bit => .ok 1
  | .uint width => widthArgument what width
  | .sint width => widthArgument what width
  | .other => .ok 1

def fieldIsSigned : FieldTy → Bool
  | .sint _ => true
  | _ => false

def hexDigits (n : Nat) : String :=
  "0x" ++ (String.ofList (Nat.toDigits 16 n)).toUpper

/-- The reset value of a field as the pattern of its bits. -/
def fieldResetValue (block register : String) (fld : RegFieldDecl) (bitWidth : Nat) :
    ConstExpr → Except LowerError Nat
  | .bool b =>
      if fieldIsSigned fld.ty then signedReset (.bool b) else .ok (if b then 1 else 0)
  | e =>
      if fieldIsSigned fld.ty then signedReset e
      else
        foldAddrConst
          s!"reset value on regblock `{block}` register `{register}` field `{fld.name}`" e
where
  signedReset (e : ConstExpr) : Except LowerError Nat := do
    let value ← foldSignedConst
      s!"reset value on regblock `{block}` register `{register}` field `{fld.name}`" e
    let low : Int := -2 ^ (bitWidth - 1)
    let high : Int := 2 ^ (bitWidth - 1) - 1
    let hint :=
      if high < value ∧ value < 2 ^ bitWidth then
        s!"; to store the bit pattern {hexDigits value.toNat}, write {value - 2 ^ bitWidth}"
      else ""
    reject (value < low ∨ high < value)
      (.invalid
        (s!"the reset value on regblock `{block}` register `{register}` field " ++
          s!"`{fld.name}` is {value}, which is outside the range of its signed " ++
          s!"{bitWidth}-bit type [{low}, {high}]{hint}"))
    return (BitVec.ofInt 64 value &&& fieldMask bitWidth).toNat

/-- A field and its reset, which has to fit. -/
def lowerField (block register : String) (width : Nat) (seen : List RegFieldSchema)
    (fld : RegFieldDecl) : Except LowerError (RegFieldSchema × Option U64) := do
  reject (seen.any (·.name = fld.name))
    (.invalid
      (s!"regblock `{block}` register `{register}` declares field `{fld.name}` more " ++
        "than once"))
  let bitWidth ← fieldBitWidth
    s!"width of regblock `{block}` register `{register}` field `{fld.name}`" fld.ty
  reject (bitWidth = 0)
    (.invalid
      (s!"regblock `{block}` register `{register}` field `{fld.name}` has zero width: a " ++
        "field must hold at least one bit"))
  reject (width < fld.bitPos + bitWidth)
    (.invalid
      (s!"regblock `{block}` register `{register}` field `{fld.name}` " ++
        s!"([{fld.bitPos}+:{bitWidth}]) exceeds the register width {width}"))
  let schema : RegFieldSchema :=
    ⟨fld.name, fld.bitPos, bitWidth, fieldIsSigned fld.ty, fld.access⟩
  match fld.reset with
  | none => return (schema, none)
  | some e =>
      let reset ← fieldResetValue block register fld bitWidth e
      reject ((fieldMask bitWidth).toNat < reset)
        (.invalid
          (s!"the reset value on regblock `{block}` register `{register}` field " ++
            s!"`{fld.name}` is {reset}, which does not fit its {bitWidth}-bit width " ++
            s!"(max {(fieldMask bitWidth).toNat})"))
      return (schema, some (BitVec.ofNat 64 reset))

/-- The fields in declaration order, each with its reset. -/
def lowerFields (block register : String) (width : Nat) :
    List RegFieldSchema → List RegFieldDecl →
      Except LowerError (List (RegFieldSchema × Option U64))
  | _, [] => .ok []
  | seen, fld :: rest => do
      let lowered ← lowerField block register width seen fld
      let rest ← lowerFields block register width (seen ++ [lowered.1]) rest
      return lowered :: rest

end Fields

section Registers

/-- The reset of a field over its bits of the mirror word. -/
def overlayReset (word : U64) (fld : RegFieldSchema) (reset : U64) : U64 :=
  let mask := fieldMask fld.bitWidth <<< fld.bitPos
  (word &&& ~~~ mask) ||| ((reset <<< fld.bitPos) &&& mask)

def mirrorDefault (reset : Option U64) (fields : List (RegFieldSchema × Option U64)) : U64 :=
  fields.foldl (fun word f =>
    match f.2 with
    | some r => overlayReset word f.1 r
    | none => word) (reset.getD 0)

def registerResetValue (what : String) : ConstExpr → Except LowerError Nat
  | .bool b => .ok (if b then 1 else 0)
  | e => foldAddrConst what e

def registerReset (block register : String) (width : Nat) :
    Option ConstExpr → Except LowerError (Option U64)
  | none => .ok none
  | some e => do
      let reset ← registerResetValue
        s!"reset value on regblock `{block}` register `{register}`" e
      reject (width < 64 ∧ 2 ^ width ≤ reset)
        (.invalid
          (s!"the reset value on regblock `{block}` register `{register}` is {reset}, " ++
            s!"which does not fit its {width}-bit width (max {2 ^ width - 1})"))
      return some (BitVec.ofNat 64 reset)

def lowerRegister (block : String) (defaultWidth : Nat) (seen : List RegRegisterSchema)
    (reg : RegisterDecl) : Except LowerError (RegRegisterSchema × RecordFieldSchema) := do
  reject (seen.any (·.name = reg.name))
    (.invalid s!"regblock `{block}` declares register `{reg.name}` more than once")
  let width := reg.width.getD defaultWidth
  let source :=
    if reg.width.isSome then s!"register `{reg.name}`"
    else s!"default width (register `{reg.name}` declares none)"
  reject (width = 0 ∨ 64 < width)
    (.invalid
      (s!"regblock `{block}` {source} has width {width}: the value model is 64-bit, " ++
        "so register widths must be 1..=64"))
  let fields ← lowerFields block reg.name width [] reg.fields
  let offset ← foldAddrConst
    s!"`@ <addr>` offset on regblock `{block}` register `{reg.name}`" reg.offset
  let reset ← registerReset block reg.name width reg.reset
  let explicit := reset.isSome || fields.any (·.2.isSome)
  return (⟨reg.name, offset, width, reg.access, fields.map Prod.fst⟩,
    ⟨reg.name, width, if explicit then some (mirrorDefault reset fields) else none⟩)

def lowerRegisters (block : String) (defaultWidth : Nat) :
    List RegRegisterSchema → List RegisterDecl →
      Except LowerError (List (RegRegisterSchema × RecordFieldSchema))
  | _, [] => .ok []
  | seen, reg :: rest => do
      let lowered ← lowerRegister block defaultWidth seen reg
      let rest ← lowerRegisters block defaultWidth (seen ++ [lowered.1]) rest
      return lowered :: rest

/-- The registers of a block, each with its cell of the mirror. -/
def lowerRegblock (r : RegblockDecl) :
    Except LowerError (List (RegRegisterSchema × RecordFieldSchema)) := do
  let registers ← lowerRegisters r.name (r.defaultWidth.getD 32) [] r.registers
  reject (registers.isEmpty)
    (.invalid s!"regblock `{r.name}` declares no registers")
  return registers

end Registers

section WellFormed

theorem getLsbD_fieldMask {width i : Nat} (hi : i < 64) :
    (fieldMask width).getLsbD i = decide (i < width) := by
  unfold fieldMask
  split_ifs with hzero hlt
  · simp [hzero]
  · have hpow : (1#64 <<< width) - 1 = BitVec.ofNat 64 (2 ^ width - 1) := by
      refine BitVec.eq_of_toNat_eq ?_
      have hsmall : 2 ^ width < 2 ^ 64 := Nat.pow_lt_pow_right (by omega) hlt
      have hpos : 0 < 2 ^ width := Nat.two_pow_pos width
      simp [BitVec.toNat_sub, Nat.shiftLeft_eq]
      omega
    rw [hpow, BitVec.getLsbD_ofNat, Nat.testBit_two_pow_sub_one]
    simp [hi]
  · have hin : i < width := by omega
    rw [BitVec.getLsbD_allOnes]
    simp [hi, hin]

/-- The checks on a field. -/
structure RegFieldSchema.Valid (fld : RegFieldSchema) (width : Nat) : Prop where
  pos : 0 < fld.bitWidth
  inside : fld.bitPos + fld.bitWidth ≤ width

/-- The checks on a register. -/
structure RegRegisterSchema.Valid (reg : RegRegisterSchema) : Prop where
  pos : 0 < reg.width
  le : reg.width ≤ 64
  fields : ∀ f ∈ reg.fields, f.Valid reg.width
  fields_nodup : (reg.fields.map RegFieldSchema.name).Nodup

theorem lowerField_ok {block register : String} {width : Nat} {seen : List RegFieldSchema}
    {fld : RegFieldDecl} {out : RegFieldSchema × Option U64}
    (h : lowerField block register width seen fld = .ok out) :
    (∀ f ∈ seen, f.name ≠ out.1.name) ∧ out.1.Valid width := by
  simp only [lowerField, bind_eq_ok, reject_eq_ok] at h
  obtain ⟨-, hseen, bitWidth, -, -, hzero, -, hinside, h⟩ := h
  have hschema : out.1 = ⟨fld.name, fld.bitPos, bitWidth, fieldIsSigned fld.ty, fld.access⟩ := by
    cases hreset : fld.reset with
    | none =>
        rw [hreset] at h
        simp only [pure_eq_ok] at h
        rw [← h]
    | some e =>
        rw [hreset] at h
        simp only [bind_eq_ok, pure_eq_ok] at h
        obtain ⟨reset, -, -, -, rfl⟩ := h
        rfl
  rw [hschema]
  exact ⟨by simpa using hseen, ⟨Nat.pos_of_ne_zero hzero, Nat.le_of_not_lt hinside⟩⟩

theorem lowerFields_ok {block register : String} {width : Nat} {seen : List RegFieldSchema}
    {fields : List RegFieldDecl} {out : List (RegFieldSchema × Option U64)}
    (h : lowerFields block register width seen fields = .ok out) :
    (∀ f ∈ out, f.1.Valid width) ∧ (out.map fun f => f.1.name).Nodup ∧
      ∀ f ∈ seen, ∀ g ∈ out, f.name ≠ g.1.name := by
  induction fields generalizing seen out with
  | nil =>
      simp only [lowerFields, Except.ok.injEq] at h
      subst h
      simp
  | cons fld fields ih =>
      simp only [lowerFields, bind_eq_ok, pure_eq_ok] at h
      obtain ⟨lowered, hfield, rest, hrest, rfl⟩ := h
      obtain ⟨hseen, hvalid⟩ := lowerField_ok hfield
      obtain ⟨hvalids, hnodup, hfresh⟩ := ih hrest
      refine ⟨?_, ?_, ?_⟩
      · intro f hf
        rcases List.mem_cons.mp hf with rfl | hf
        · exact hvalid
        · exact hvalids f hf
      · rw [List.map_cons, List.nodup_cons]
        refine ⟨?_, hnodup⟩
        intro hmem
        obtain ⟨g, hg, hname⟩ := List.mem_map.mp hmem
        exact hfresh lowered.1 (by simp) g hg hname.symm
      · intro f hf g hg
        rcases List.mem_cons.mp hg with rfl | hg
        · exact hseen f hf
        · exact hfresh f (List.mem_append_left _ hf) g hg

theorem getLsbD_shiftedMask {fld : RegFieldSchema} {i : Nat} (hi : i < 64) :
    (fieldMask fld.bitWidth <<< fld.bitPos).getLsbD i =
      decide (fld.bitPos ≤ i ∧ i < fld.bitPos + fld.bitWidth) := by
  rw [BitVec.getLsbD_shiftLeft]
  by_cases hle : fld.bitPos ≤ i
  · have hiff : i - fld.bitPos < fld.bitWidth ↔ i < fld.bitPos + fld.bitWidth := by omega
    rw [getLsbD_fieldMask (by omega)]
    simp [hi, hle, hiff]
  · simp [hle, Nat.lt_of_not_le hle]

theorem getLsbD_overlayReset {word reset : U64} {fld : RegFieldSchema} {i : Nat}
    (hi : i < 64) :
    (overlayReset word fld reset).getLsbD i =
      if fld.bitPos ≤ i ∧ i < fld.bitPos + fld.bitWidth then reset.getLsbD (i - fld.bitPos)
      else word.getLsbD i := by
  unfold overlayReset
  rw [BitVec.getLsbD_or, BitVec.getLsbD_and, BitVec.getLsbD_not, BitVec.getLsbD_and,
    getLsbD_shiftedMask hi, BitVec.getLsbD_shiftLeft]
  split_ifs with hin
  · simp [hin, hi]
  · simp [hin, hi]

/-- Bits above the width stay clear. -/
theorem lt_iff_getLsbD {word : U64} {width : Nat} :
    word.toNat < 2 ^ width ↔ ∀ i, width ≤ i → i < 64 → word.getLsbD i = false := by
  constructor
  · intro h i hi _
    exact Nat.testBit_lt_two_pow (Nat.lt_of_lt_of_le h (Nat.pow_le_pow_right (by omega) hi))
  · intro h
    refine Nat.lt_pow_two_of_testBit _ fun i hi => ?_
    by_cases h64 : i < 64
    · exact h i hi h64
    · exact BitVec.getLsbD_of_ge word i (Nat.le_of_not_lt h64)

theorem mirrorDefault_lt {width : Nat} {reset : Option U64}
    (hreset : (reset.getD 0).toNat < 2 ^ width) {fields : List (RegFieldSchema × Option U64)}
    (hfields : ∀ f ∈ fields, f.1.Valid width) :
    (mirrorDefault reset fields).toNat < 2 ^ width := by
  unfold mirrorDefault
  generalize reset.getD 0 = word at hreset
  induction fields generalizing word with
  | nil => exact hreset
  | cons f rest ih =>
      rw [List.foldl_cons]
      refine ih (fun g hg => hfields g (List.mem_cons_of_mem f hg)) _ ?_
      have hvalid := hfields f List.mem_cons_self
      cases f.2 with
      | none => exact hreset
      | some r =>
          rw [lt_iff_getLsbD] at hreset ⊢
          intro i hi h64
          have hinside := hvalid.inside
          rw [getLsbD_overlayReset h64, if_neg (by omega)]
          exact hreset i hi h64

theorem registerReset_lt {block register : String} {width : Nat} (hle : width ≤ 64)
    {e : Option ConstExpr} {reset : Option U64}
    (h : registerReset block register width e = .ok reset) :
    (reset.getD 0).toNat < 2 ^ width := by
  cases e with
  | none =>
      simp only [registerReset, Except.ok.injEq] at h
      subst h
      exact Nat.two_pow_pos width
  | some e =>
      simp only [registerReset, bind_eq_ok, reject_eq_ok, pure_eq_ok] at h
      obtain ⟨value, -, -, hfits, rfl⟩ := h
      have hmod : value % 2 ^ 64 < 2 ^ 64 := Nat.mod_lt _ (by decide)
      rw [Option.getD_some, BitVec.toNat_ofNat]
      rcases Nat.lt_or_eq_of_le hle with hlt | rfl
      · have hvalue : value < 2 ^ width := by
          by_contra hge
          exact hfits ⟨hlt, Nat.le_of_not_lt hge⟩
        exact Nat.lt_of_le_of_lt (Nat.mod_le _ _) hvalue
      · exact hmod

/-- The resets of the fields over the bits of the register's, in declaration order. -/
def resetBit (reset : Option U64) (fields : List (RegFieldSchema × Option U64)) (i : Nat) :
    Bool :=
  fields.foldl (fun b f =>
    match f.2 with
    | some r =>
        if f.1.bitPos ≤ i ∧ i < f.1.bitPos + f.1.bitWidth then r.getLsbD (i - f.1.bitPos)
        else b
    | none => b) ((reset.getD 0).getLsbD i)

theorem getLsbD_mirrorDefault {reset : Option U64}
    {fields : List (RegFieldSchema × Option U64)} {i : Nat} (hi : i < 64) :
    (mirrorDefault reset fields).getLsbD i = resetBit reset fields i := by
  unfold mirrorDefault resetBit
  generalize reset.getD 0 = word
  induction fields generalizing word with
  | nil => rfl
  | cons f rest ih =>
      rw [List.foldl_cons, List.foldl_cons, ih]
      congr 1
      cases f.2 with
      | none => rfl
      | some r => exact getLsbD_overlayReset hi

/-- What the lowering of a register guarantees. -/
structure Lowered (block : String) (defaultWidth : Nat) (reg : RegisterDecl)
    (out : RegRegisterSchema × RecordFieldSchema) : Prop where
  valid : out.1.Valid
  name_eq : out.2.name = out.1.name
  default_lt : (out.2.default.getD 0).toNat < 2 ^ out.1.width
  resets : ∃ reset fields, registerReset block reg.name out.1.width reg.reset = .ok reset ∧
    lowerFields block reg.name out.1.width [] reg.fields = .ok fields ∧
    ∀ i < 64, (out.2.default.getD 0).getLsbD i = resetBit reset fields i

theorem mirrorDefault_of_none {reset : Option U64} {fields : List (RegFieldSchema × Option U64)}
    (h : (reset.isSome || fields.any fun f => f.2.isSome) = false) :
    mirrorDefault reset fields = 0 := by
  rw [Bool.or_eq_false_iff, Option.isSome_eq_false_iff, Option.isNone_iff_eq_none,
    List.any_eq_false] at h
  obtain ⟨rfl, hfields⟩ := h
  unfold mirrorDefault
  rw [Option.getD_none]
  induction fields with
  | nil => rfl
  | cons f rest ih =>
      have hnone : f.2 = none := by simpa using hfields f List.mem_cons_self
      rw [List.foldl_cons, hnone]
      exact ih fun g hg => hfields g (List.mem_cons_of_mem f hg)

theorem lowerRegister_ok {block : String} {defaultWidth : Nat}
    {seen : List RegRegisterSchema} {reg : RegisterDecl}
    {out : RegRegisterSchema × RecordFieldSchema}
    (h : lowerRegister block defaultWidth seen reg = .ok out) :
    (∀ r ∈ seen, r.name ≠ out.1.name) ∧ Lowered block defaultWidth reg out := by
  simp only [lowerRegister, bind_eq_ok, reject_eq_ok, pure_eq_ok] at h
  obtain ⟨-, hseen, -, hwidth, fields, hfields, offset, -, reset, hreset, rfl⟩ := h
  obtain ⟨hvalids, hnodup, -⟩ := lowerFields_ok hfields
  have hle : reg.width.getD defaultWidth ≤ 64 := by omega
  have hdefault : (if (reset.isSome || fields.any fun f => f.2.isSome) = true then
      some (mirrorDefault reset fields) else none).getD 0 = mirrorDefault reset fields := by
    split_ifs with hexplicit
    · rfl
    · rw [mirrorDefault_of_none (by simpa using hexplicit)]
      rfl
  refine ⟨by simpa using hseen, ⟨⟨?_, hle, ?_, ?_⟩, rfl, ?_, reset, fields, hreset, hfields, ?_⟩⟩
  · exact Nat.pos_of_ne_zero fun hzero => hwidth (Or.inl hzero)
  · intro f hf
    obtain ⟨g, hg, rfl⟩ := List.mem_map.mp hf
    exact hvalids g hg
  · rw [List.map_map]
    exact hnodup
  · dsimp only
    rw [hdefault]
    exact mirrorDefault_lt (registerReset_lt hle hreset) hvalids
  · intro i hi
    dsimp only
    rw [hdefault]
    exact getLsbD_mirrorDefault hi

theorem lowerRegisters_ok {block : String} {defaultWidth : Nat}
    {seen : List RegRegisterSchema} {regs : List RegisterDecl}
    {out : List (RegRegisterSchema × RecordFieldSchema)}
    (h : lowerRegisters block defaultWidth seen regs = .ok out) :
    List.Forall₂ (Lowered block defaultWidth) regs out ∧ (out.map fun r => r.1.name).Nodup ∧
      ∀ r ∈ seen, ∀ s ∈ out, r.name ≠ s.1.name := by
  induction regs generalizing seen out with
  | nil =>
      simp only [lowerRegisters, Except.ok.injEq] at h
      subst h
      simp
  | cons reg regs ih =>
      simp only [lowerRegisters, bind_eq_ok, pure_eq_ok] at h
      obtain ⟨lowered, hregister, rest, hrest, rfl⟩ := h
      obtain ⟨hseen, hlowered⟩ := lowerRegister_ok hregister
      obtain ⟨hlowereds, hnodup, hfresh⟩ := ih hrest
      refine ⟨List.Forall₂.cons hlowered hlowereds, ?_, ?_⟩
      · rw [List.map_cons, List.nodup_cons]
        refine ⟨?_, hnodup⟩
        intro hmem
        obtain ⟨s, hs, hname⟩ := List.mem_map.mp hmem
        exact hfresh lowered.1 (by simp) s hs hname.symm
      · intro r hr s hs
        rcases List.mem_cons.mp hs with rfl | hs
        · exact hseen r hr
        · exact hfresh r (List.mem_append_left _ hr) s hs

theorem lowerRegblock_ok {r : RegblockDecl}
    {out : List (RegRegisterSchema × RecordFieldSchema)} (h : lowerRegblock r = .ok out) :
    List.Forall₂ (Lowered r.name (r.defaultWidth.getD 32)) r.registers out ∧
      (out.map fun reg => reg.1.name).Nodup := by
  simp only [lowerRegblock, bind_eq_ok, reject_eq_ok, pure_eq_ok] at h
  obtain ⟨registers, hregisters, -, -, rfl⟩ := h
  obtain ⟨hlowered, hnodup, -⟩ := lowerRegisters_ok hregisters
  exact ⟨hlowered, hnodup⟩

end WellFormed

end Harc.RegblockLowering
