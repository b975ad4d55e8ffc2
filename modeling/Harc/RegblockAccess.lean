import Harc.CppScalar
import Harc.RegblockLowering

/-!
The accesses to a register block: the statements that the lowering makes of them and
what the emitted C++ does to the cells of the mirror and on the bus.
-/

namespace Harc.RegblockAccess

open Harc.CppScalar
open Harc.RegblockLowering

/-- A written expression, by what the emitter reads off it and the value of its text. -/
structure Typed where
  /-- `shift_declared_width` -/
  declaredWidth : Option Nat
  /-- `expr_shift_width` -/
  shiftWidth : Option Nat
  /-- `expr_binary_operand_width` -/
  operandWidth : Option Nat
  /-- `expr_is_signed` -/
  signed : Bool
  value : CValue

inductive Operand where
  /-- A literal without a type. -/
  | literal (n : U64)
  | typed (e : Typed)

/-- The significant bits of a literal. -/
def literalWidth (n : U64) : Nat :=
  max 1 n.toNat.size

/-- A literal without a type is signed if it fits `int64_t`. -/
def literalIsSigned (n : U64) : Bool :=
  n.toNat < 2 ^ 63

namespace Operand

def declaredWidth : Operand → Option Nat
  | .literal _ => none
  | .typed e => e.declaredWidth

def shiftBound : Operand → Option Nat
  | .literal n => some (literalWidth n)
  | .typed e => e.shiftWidth

def operandWidth : Operand → Option Nat
  | .literal n => some (literalWidth n)
  | .typed e => e.operandWidth

def isSigned : Operand → Bool
  | .literal n => literalIsSigned n
  | .typed e => e.signed

def value (cc : Compiler) : Operand → CValue
  | .literal n => decimal cc n.toNat
  | .typed e => e.value

end Operand

section Emission

variable (cc : Compiler)

/-- `HarcWide` of a width above 128 bits. -/
def wideCarrier (width : Nat) : Carrier :=
  .wide (max 5 ((width + 31) / 32)) (by omega)

/-- `expr_is_signed` of `v & mask`. -/
def maskedIsSigned (v : Operand) (mask : U64) : Bool :=
  v.isSigned && literalIsSigned mask

/-- `expr_shift_width` of `v & mask`. -/
def maskedShiftWidth (v : Operand) (mask : U64) : Nat :=
  let b := literalWidth mask
  match v.shiftBound with
  | none => b
  | some a =>
      if a < b ∧ v.isSigned = false then a
      else if b < a ∧ literalIsSigned mask = false then b
      else max a b

/-- The value of `v & mask`, with the operands brought to a common carrier above 64 bits. -/
def maskedValue (v : Operand) (mask : U64) : CValue :=
  let target := max (v.operandWidth.getD 0) (literalWidth mask)
  let wideMask : CValue := ⟨wideCarrier target, BitVec.ofNat _ mask.toNat⟩
  if maskedIsSigned v mask ∧ 128 < target then
    CValue.bitAnd (((v.value cc).cast (wideCarrier target)).maskBits target) wideMask
  else if maskedIsSigned v mask ∧ 64 < target then
    CValue.bitAnd (((v.value cc).cast .uint128).maskBits target)
      (((decimal cc mask.toNat).cast .uint128).maskBits target)
  else if 128 < target ∧ v.isSigned = false then CValue.bitAnd (v.value cc) wideMask
  else CValue.bitAnd (v.value cc) (decimal cc mask.toNat)

def harcMaskU64 (width : Nat) : U64 :=
  if 64 ≤ width then BitVec.allOnes 64 else (1#64 <<< width) - 1

def harcSextI64 (value : U64) (width : Nat) : U64 :=
  if width = 0 then 0
  else if 64 ≤ width then value
  else (value <<< (64 - width)).sshiftRight (64 - width)

def harcShlUw (value : U64) (shift width : Nat) : U64 :=
  if width ≤ shift then 0 else (value <<< shift) &&& harcMaskU64 width

def harcShlIw (value : U64) (shift width : Nat) : U64 :=
  if width ≤ shift then 0 else harcSextI64 (value <<< shift) width

def harcShlU128 (value : BitVec 128) (shift width : Nat) : BitVec 128 :=
  if 128 ≤ shift then 0 else (value <<< shift) &&& BitVec.ofNat 128 (2 ^ width - 1)

/-- The value of `(v & mask) << pos`. -/
def insertedValue (v : Operand) (mask : U64) (pos : Nat) : CValue :=
  let masked := maskedValue cc v mask
  let width := maskedShiftWidth v mask
  if 128 < width then
    CValue.maskBits ⟨wideCarrier width, masked.convert (wideCarrier width) <<< pos⟩ width
  else if 64 < width then
    ⟨.uint128, harcShlU128 (masked.convert .uint128) pos width⟩
  else
    match v.declaredWidth.filter (· < 64) with
    | some declared =>
        if maskedIsSigned v mask then .ofI64 (harcShlIw masked.toU64 pos declared)
        else .ofU64 (harcShlUw masked.toU64 pos declared)
    | none => .ofU64 (masked.toU64 <<< pos)

/-- The word of a field write, `(mirror.REG & ~(mask << pos)) | ((v & mask) << pos)`. -/
def fieldWriteWord (cell : U64) (reg : RegRegisterSchema) (fld : RegFieldSchema)
    (v : Operand) : U64 :=
  let mask := fieldMask fld.bitWidth
  let cleared := CValue.bitAnd (.ofU64 cell)
    (decimal cc (mask <<< fld.bitPos).toNat).bitNot
  let inserted := insertedValue cc v mask fld.bitPos
  let width := maskedShiftWidth v mask
  if 128 < width ∧ maskedIsSigned v mask = false then
    (CValue.bitOr ((cleared.cast (wideCarrier width)).maskBits reg.width) inserted).toU64
  else (CValue.bitOr cleared inserted).toU64

/-- The value that a register write passes to the mirror and to the bus. -/
def regWriteWord (reg : RegRegisterSchema) : Operand → U64
  | .literal n => n &&& fieldMask reg.width
  | .typed e =>
      if 64 ≤ reg.width then e.value.toU64
      else (maskedValue cc (.typed e) (fieldMask reg.width)).toU64

/-- `data & mask` of a recorded write, from a constant or a decoded address. -/
def recordWriteWord (constAddr : Bool) (reg : RegRegisterSchema) (v : Operand) : U64 :=
  if constAddr then (maskedValue cc v (fieldMask reg.width)).toU64
  else (v.value cc).toU64 &&& fieldMask reg.width

/-- The field of a word, sign-extended if the field is signed. -/
def fieldExtractExpr (fld : RegFieldSchema) (word : U64) : CValue :=
  let bits := CValue.bitAnd (.ofU64 (word >>> fld.bitPos))
    (decimal cc (fieldMask fld.bitWidth).toNat)
  if fld.signed then
    let value := if fld.bitWidth < 64 then .ofI64 (sextCast bits) else bits
    .ofI64 (if fld.bitWidth = 64 then value.toU64 else sextCast value)
  else bits
where
  sextCast (x : CValue) : U64 :=
    (x.toU64 <<< (64 - fld.bitWidth)).sshiftRight (64 - fld.bitWidth)

end Emission

/-- What a bus read of a register of the given width returns. -/
structure Returned (width : Nat) where
  raw : Typed
  /-- The helper's `read` returns `uint<width>`. -/
  exact : Bool
  exact_lt : exact = true → raw.value.toU64.toNat < 2 ^ width

/-- The spellings of a register read. -/
inductive ReadForm where
  | letBound
  | inlineBus
  | inlineHelper
deriving DecidableEq, Repr

section Reads

variable (cc : Compiler) {width : Nat}

/-- `register_read_value` -/
def registerReadValue (returned : Returned width) : U64 :=
  if returned.exact then returned.raw.value.toU64
  else if 64 ≤ width then returned.raw.value.toU64
  else (maskedValue cc (.typed returned.raw) (fieldMask width)).toU64

/-- `Expr::RegRead`, whose mask is an unsigned 64-bit literal. -/
def regReadExpr (returned : Returned width) : U64 :=
  if width < 64 ∧ returned.exact = false then
    (CValue.bitAnd returned.raw.value (.ofU64 (fieldMask width))).toU64
  else returned.raw.value.toU64

def busReadWord (form : ReadForm) (returned : Returned width) : U64 :=
  match form with
  | .letBound | .inlineBus => registerReadValue cc returned
  | .inlineHelper => regReadExpr returned

end Reads

section Machine

abbrev Mirror := String → U64

inductive Access (regs : List RegRegisterSchema) where
  | regWrite (reg : RegRegisterSchema) (hreg : reg ∈ regs) (v : Operand)
  | fieldWrite (reg : RegRegisterSchema) (hreg : reg ∈ regs) (fld : RegFieldSchema)
      (hfld : fld ∈ reg.fields) (v : Operand)
  | regRead (form : ReadForm) (reg : RegRegisterSchema) (hreg : reg ∈ regs)
      (returned : Returned reg.width)
  | fieldRead (form : ReadForm) (reg : RegRegisterSchema) (hreg : reg ∈ regs)
      (fld : RegFieldSchema) (hfld : fld ∈ reg.fields) (returned : Returned reg.width)
  | recordWrite (constAddr : Bool) (addr : U64) (v : Operand)
  | recordRead (addr : U64)
  | resetAll

structure Outcome where
  mirror : Mirror
  /-- The bus writes, as offsets and data. -/
  writes : List (Nat × U64)
  result : Option Int

/-- The register at an address: the first one in declaration order. -/
def decode (regs : List RegRegisterSchema) (addr : U64) : Option RegRegisterSchema :=
  regs.find? fun r => r.offset = addr.toNat

/-- The record with its default member initializers. -/
def initialMirror (cells : List RecordFieldSchema) : Mirror := fun name =>
  match cells.find? fun c => c.name = name with
  | some c => c.default.getD 0
  | none => 0

def resetCells (cells : List RecordFieldSchema) (mirror : Mirror) : Mirror :=
  cells.foldl (fun m c => Function.update m c.name (c.default.getD 0)) mirror

/-- The word of a read and the mirror after it. -/
def readWord (cc : Compiler) (access : RegAccess) (form : ReadForm) (reg : RegRegisterSchema)
    (returned : Returned reg.width) (mirror : Mirror) : U64 × Mirror :=
  if access.readsFromBus then
    let word := busReadWord cc form returned
    (word, Function.update mirror reg.name word)
  else (mirror reg.name, mirror)

def step (cc : Compiler) {regs : List RegRegisterSchema} (cells : List RecordFieldSchema)
    (mirror : Mirror) : Access regs → Outcome
  | .regWrite reg _ v =>
      let word := regWriteWord cc reg v
      ⟨Function.update mirror reg.name word,
        if reg.access.writesToBus then [(reg.offset, word)] else [], none⟩
  | .fieldWrite reg _ fld _ v =>
      let mirror := Function.update mirror reg.name
        (fieldWriteWord cc (mirror reg.name) reg fld v)
      ⟨mirror, if fld.access.writesToBus then [(reg.offset, mirror reg.name)] else [], none⟩
  | .regRead form reg _ returned =>
      let read := readWord cc reg.access form reg returned mirror
      ⟨read.2, [], some read.1.toNat⟩
  | .fieldRead form reg _ fld _ returned =>
      let read := readWord cc fld.access form reg returned mirror
      ⟨read.2, [], some (fieldExtractExpr cc fld read.1).toInt⟩
  | .recordWrite constAddr addr v =>
      match decode regs addr with
      | some reg =>
          ⟨Function.update mirror reg.name (recordWriteWord cc constAddr reg v), [], none⟩
      | none => ⟨mirror, [], none⟩
  | .recordRead addr =>
      match decode regs addr with
      | some reg => ⟨mirror, [], some (mirror reg.name).toNat⟩
      | none => ⟨mirror, [], some 0⟩
  | .resetAll => ⟨resetCells cells mirror, [], none⟩

end Machine

end Harc.RegblockAccess
