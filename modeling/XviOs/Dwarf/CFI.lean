import Mathlib.Tactic
import XviOs.Dwarf.LEB128

namespace XviOs.Dwarf

/-- The bytes of the address space. -/
abbrev Memory := BitVec 64 → BitVec 8

/-- Bytes are read through a pointer that is moved behind them. Nothing is read where the read is not defined. -/
abbrev Reader := StateT (BitVec 64) Option

namespace Memory

variable (m : Memory)

def bytes (ptr : BitVec 64) : Nat → List (BitVec 8)
  | 0 => []
  | n + 1 => m ptr :: bytes (ptr + 1) n

def word (ptr : BitVec 64) : Nat → BitVec 64
  | 0 => 0
  | n + 1 => (m ptr).setWidth 64 ||| word (ptr + 1) n <<< 8

end Memory

/-- The read of an unsigned integer of `size` bytes, and the step over it. -/
def unalignedRead (m : Memory) (size : Nat) : Reader (BitVec 64) := fun ptr =>
  some (m.word ptr size, ptr + BitVec.ofNat 64 size)

/-- No encoding is defined of which more than five bytes are read. -/
def lebBytes : Nat := 5

def readLEB128 (m : Memory) (decode : List (BitVec 8) → Option (BitVec 64 × List (BitVec 8))) :
    Reader (BitVec 64) := fun ptr =>
  (decode (m.bytes ptr lebBytes)).map fun (value, rest) => (value, ptr + BitVec.ofNat 64 (lebBytes - rest.length))

def readULEB128 (m : Memory) : Reader (BitVec 64) := readLEB128 m decodeULEB128

def readSLEB128 (m : Memory) : Reader (BitVec 64) := readLEB128 m decodeSLEB128

def kDwarfPtrAbs : BitVec 8 := 0x00
def kDwarfPtrOmit : BitVec 8 := 0xff
def kDwarfPtrTypeMask : BitVec 8 := 0x0f
def kDwarfPtrRelMask : BitVec 8 := 0x70
def kDwarfPtrIndirect : BitVec 8 := 0x80

/-- `DwPtrType` and `DwPtrRel` by their numbers. -/
inductive DwPtrType
  | uleb128 | udata2 | udata4 | udata8 | sleb128 | sdata2 | sdata4 | sdata8

inductive DwPtrRel
  | abs | pc | text | data | func

def DwPtrType.ofByte (b : BitVec 8) : Option DwPtrType :=
  match b.toNat with
  | 0x01 => some .uleb128
  | 0x02 => some .udata2
  | 0x03 => some .udata4
  | 0x04 => some .udata8
  | 0x09 => some .sleb128
  | 0x0a => some .sdata2
  | 0x0b => some .sdata4
  | 0x0c => some .sdata8
  | _ => none

def DwPtrRel.ofByte (b : BitVec 8) : Option DwPtrRel :=
  match b.toNat with
  | 0x00 => some .abs
  | 0x10 => some .pc
  | 0x20 => some .text
  | 0x30 => some .data
  | 0x40 => some .func
  | _ => none

/-- The points that a pointer may be relative to. Zero stands for one that is omitted. -/
structure RelativePoints where
  pc : BitVec 64 := 0
  text : BitVec 64 := 0
  data : BitVec 64 := 0
  func : BitVec 64 := 0

def readPointer (m : Memory) : DwPtrType → Reader (BitVec 64)
  | .uleb128 => readULEB128 m
  | .udata2 => unalignedRead m 2
  | .udata4 => unalignedRead m 4
  | .udata8 => unalignedRead m 8
  | .sleb128 => readSLEB128 m
  | .sdata2 => do return ((← unalignedRead m 2).setWidth 16).signExtend 64
  | .sdata4 => do return ((← unalignedRead m 4).setWidth 32).signExtend 64
  | .sdata8 => unalignedRead m 8

/-- The point to add. None is an error: it is not known, or it is omitted and has no default. -/
def RelativePoints.base (points : RelativePoints) (loc : BitVec 64) : DwPtrRel → Option (BitVec 64)
  | .abs => some 0
  | .pc => some (if points.pc ≠ 0 then points.pc else loc)
  | .text => if points.text = 0 then none else some points.text
  | .data => if points.data = 0 then none else some points.data
  | .func => if points.func = 0 then none else some points.func

/-- `DwarfPointerDecoder::decode` that does not preserve null. An error gives zero. -/
def RelativePoints.decode (m : Memory) (points : RelativePoints) (encoding : BitVec 8) : Reader (BitVec 64) := do
  if encoding = kDwarfPtrOmit then return 0
  if encoding = kDwarfPtrAbs then return (← unalignedRead m 8)
  let originalLoc ← get
  match DwPtrType.ofByte (encoding &&& kDwarfPtrTypeMask) with
  | none => return 0
  | some type =>
    let ptr ← readPointer m type
    match (DwPtrRel.ofByte (encoding &&& kDwarfPtrRelMask)).bind (points.base originalLoc) with
    | none => return 0
    | some base =>
      if encoding &&& kDwarfPtrIndirect ≠ 0 then return m.word (ptr + base) 8
      return ptr + base

end XviOs.Dwarf

namespace XviOs.Dwarf

/-- The fields of a CIE that the interpreter reads. -/
structure DwarfCIE where
  codeFactor : BitVec 32
  dataFactor : BitVec 32
  returnRegister : BitVec 32
  fdeEncoding : BitVec 8
  instructions : BitVec 64
  instructionsLength : BitVec 64

structure DwarfFDE where
  cie : DwarfCIE
  codeStart : BitVec 64
  codeLength : BitVec 64
  instructions : BitVec 64
  instructionsLength : BitVec 64

def DwarfCIE.isValid (cie : DwarfCIE) : Bool := cie.codeFactor ≠ 0

def DwarfCIE.getCodeFactor (cie : DwarfCIE) : BitVec 64 := cie.codeFactor.setWidth 64

def DwarfCIE.getDataFactor (cie : DwarfCIE) : BitVec 64 := cie.dataFactor.signExtend 64

def DwarfCIE.getReturnRegister (cie : DwarfCIE) : BitVec 64 := cie.returnRegister.setWidth 64

def DwarfFDE.getCodeRangeEnd (fde : DwarfFDE) : BitVec 64 := fde.codeStart + fde.codeLength

inductive DwarfCfiMisc
  | nop | setLoc | advanceLoc1 | advanceLoc2 | advanceLoc4 | offsetExtended | restoreExtended | undefined | sameValue
  | reg | rememberState | restoreState | defCfa | defCfaRegister | defCfaOffset | defCfaExpression | expression
  | offsetExtendedSf | defCfaSf | defCfaOffsetSf | valOffset | valOffsetSf | valExpression | mipsAdvanceLoc8
  | gnuWindowSave | gnuArgsSize | gnuNegativeOffsetExtended | advanceLoc | offset | restore
  deriving DecidableEq

def kDwarfCFIMajorMask : BitVec 8 := 0xc0
def kDwarfCFIMinorMask : BitVec 8 := 0x3f

def DwarfCfiMisc.ofMinor (minor : BitVec 8) : Option DwarfCfiMisc :=
  match minor.toNat with
  | 0x00 => some .nop
  | 0x01 => some .setLoc
  | 0x02 => some .advanceLoc1
  | 0x03 => some .advanceLoc2
  | 0x04 => some .advanceLoc4
  | 0x05 => some .offsetExtended
  | 0x06 => some .restoreExtended
  | 0x07 => some .undefined
  | 0x08 => some .sameValue
  | 0x09 => some .reg
  | 0x0a => some .rememberState
  | 0x0b => some .restoreState
  | 0x0c => some .defCfa
  | 0x0d => some .defCfaRegister
  | 0x0e => some .defCfaOffset
  | 0x0f => some .defCfaExpression
  | 0x10 => some .expression
  | 0x11 => some .offsetExtendedSf
  | 0x12 => some .defCfaSf
  | 0x13 => some .defCfaOffsetSf
  | 0x14 => some .valOffset
  | 0x15 => some .valOffsetSf
  | 0x16 => some .valExpression
  | 0x1d => some .mipsAdvanceLoc8
  | 0x2d => some .gnuWindowSave
  | 0x2e => some .gnuArgsSize
  | 0x2f => some .gnuNegativeOffsetExtended
  | _ => none

/-- A decoded instruction. -/
structure DwarfCfiOp where
  opcode : DwarfCfiMisc
  op1 : BitVec 64 := 0
  op2 : BitVec 64 := 0
  op3 : BitVec 64 := 0
  raw : BitVec 64 := 0
  rawLength : BitVec 64 := 0
  deriving DecidableEq

/-- The product of two `intptr_t`. It is not defined when it overflows. -/
def mulIntptr (x y : BitVec 64) : Option (BitVec 64) := if BitVec.smulOverflow x y then none else some (x * y)

/-- The product of an offset that was read and the data factor. -/
def factored (m : Memory) (cie : DwarfCIE) : Reader (BitVec 64) := do
  return (← readULEB128 m) * cie.getDataFactor

def signedFactored (m : Memory) (cie : DwarfCIE) : Reader (BitVec 64) := do
  mulIntptr (← readSLEB128 m) cie.getDataFactor

/-- A block of bytes that begins with its length: its address and its length. -/
def readBlock (m : Memory) : Reader (BitVec 64 × BitVec 64) := do
  let len ← readULEB128 m
  let ptr ← get
  set (ptr + len)
  return (ptr, len)

/-- The operands of an instruction whose number is in the low bits of its first byte. -/
def decodeMisc (m : Memory) (cie : DwarfCIE) (minor : DwarfCfiMisc) : Reader DwarfCfiOp := do
  match minor with
  | .setLoc =>
    let loc ← ({} : RelativePoints).decode m cie.fdeEncoding
    if loc = 0 then failure
    return { opcode := minor, op1 := loc }
  | .advanceLoc1 => return { opcode := minor, op1 := (← unalignedRead m 1) * cie.getCodeFactor }
  | .advanceLoc2 => return { opcode := minor, op1 := (← unalignedRead m 2) * cie.getCodeFactor }
  | .advanceLoc4 => return { opcode := minor, op1 := (← unalignedRead m 4) * cie.getCodeFactor }
  | .mipsAdvanceLoc8 => return { opcode := minor, op1 := (← unalignedRead m 8) * cie.getCodeFactor }
  | .offsetExtended | .valOffset =>
    return { opcode := minor, op1 := (← readULEB128 m), op2 := (← factored m cie) }
  | .offsetExtendedSf | .defCfaSf | .valOffsetSf =>
    return { opcode := minor, op1 := (← readULEB128 m), op2 := (← signedFactored m cie) }
  | .restoreExtended | .undefined | .sameValue | .defCfaRegister | .defCfaOffset | .gnuArgsSize =>
    return { opcode := minor, op1 := (← readULEB128 m) }
  | .reg | .defCfa => return { opcode := minor, op1 := (← readULEB128 m), op2 := (← readULEB128 m) }
  | .defCfaOffsetSf => return { opcode := minor, op1 := (← signedFactored m cie) }
  | .defCfaExpression =>
    let (ptr, len) ← readBlock m
    return { opcode := minor, op1 := ptr, op2 := len }
  | .expression | .valExpression =>
    let reg ← readULEB128 m
    let (ptr, len) ← readBlock m
    return { opcode := minor, op1 := reg, op2 := ptr, op3 := len }
  | .gnuNegativeOffsetExtended =>
    return { opcode := minor, op1 := (← readULEB128 m), op2 := -(← factored m cie) }
  | .nop | .rememberState | .restoreState | .gnuWindowSave | .advanceLoc | .offset | .restore =>
    return { opcode := minor }

/-- The operands of any instruction. The product of an advance is one of `uint32_t`. -/
def decodeOpcode (m : Memory) (cie : DwarfCIE) (opcode : BitVec 8) : Reader DwarfCfiOp := do
  let minor := opcode &&& kDwarfCFIMinorMask
  match (opcode &&& kDwarfCFIMajorMask).toNat with
  | 0x40 => return { opcode := .advanceLoc, op1 := (minor.setWidth 32 * cie.codeFactor).setWidth 64 }
  | 0x80 => return { opcode := .offset, op1 := minor.setWidth 64, op2 := (← factored m cie) }
  | 0xc0 => return { opcode := .restore, op1 := minor.setWidth 64 }
  | _ =>
    match DwarfCfiMisc.ofMinor minor with
    | none => failure
    | some minor => decodeMisc m cie minor

def cfiDecodeOne (m : Memory) (cie : DwarfCIE) (ptr len : BitVec 64) : Option DwarfCfiOp :=
  if len = 0 then none
  else
    match (decodeOpcode m cie (m ptr)).run (ptr + 1) with
    | none => none
    | some (op, next) =>
      if len < next - ptr then none else some { op with raw := ptr, rawLength := next - ptr }

/-- The instructions that `CFIDecode` passes to a callback that always goes on. Every one takes a byte at least, so
that no more than `len` are decoded. -/
def cfiDecodeLoop (m : Memory) (cie : DwarfCIE) : Nat → BitVec 64 → BitVec 64 → Option (List DwarfCfiOp)
  | fuel, ptr, len =>
    if len = 0 then some []
    else
      match fuel with
      | 0 => none
      | fuel + 1 =>
        match cfiDecodeOne m cie ptr len with
        | none => none
        | some op => (cfiDecodeLoop m cie fuel (ptr + op.rawLength) (len - op.rawLength)).map (op :: ·)

def cfiDecode (m : Memory) (cie : DwarfCIE) (ptr len : BitVec 64) : Option (List DwarfCfiOp) :=
  cfiDecodeLoop m cie len.toNat ptr len

end XviOs.Dwarf
