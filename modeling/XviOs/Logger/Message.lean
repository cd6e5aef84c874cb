import XviOs.Dwarf.LEB128

namespace XviOs.Logger

open Dwarf (lshiftInt)

abbrev Byte := BitVec 8

/-- A buffer that grows. Bytes are written at the position, which lies in the range or at its end. -/
structure OutputBuffer where
  range : List Byte
  pos : Nat

namespace OutputBuffer

def atEnd (range : List Byte) : OutputBuffer := ⟨range, range.length⟩

def seekBegin (buffer : OutputBuffer) : OutputBuffer := { buffer with pos := 0 }

def writeData (buffer : OutputBuffer) (data : List Byte) : OutputBuffer :=
  ⟨buffer.range.take buffer.pos ++ data ++ buffer.range.drop (buffer.pos + data.length), buffer.pos + data.length⟩

end OutputBuffer

/-- The `n` low bytes of an integer, the lowest first. -/
def integerBytes (n : Nat) (value : BitVec 64) : List Byte :=
  (List.range n).map fun k => (value >>> (8 * k)).setWidth 8

def writeUInt32le (buffer : OutputBuffer) (value : BitVec 64) : OutputBuffer :=
  buffer.writeData (integerBytes 4 value)

def readUInt32le : List Byte → Option (BitVec 32 × List Byte)
  | b0 :: b1 :: b2 :: b3 :: input => some (b3 ++ b2 ++ b1 ++ b0, input)
  | _ => none

/-- All bits but the low seven. -/
def highBits (val : BitVec 64) : BitVec 64 := val &&& ~~~0x7f

theorem toNat_shift_seven (val : BitVec 64) : (val >>> 7).toNat = val.toNat / 128 := by
  rw [BitVec.toNat_ushiftRight, Nat.shiftRight_eq_div_pow]

theorem highBits_eq_shift (val : BitVec 64) : highBits val = (val >>> 7) <<< 7 := by
  have hmask : ∀ i < 64, (~~~(0x7f : BitVec 64)).getLsbD i = decide (7 ≤ i) := by decide
  apply BitVec.eq_of_getLsbD_eq
  intro i hi
  rw [highBits, BitVec.getLsbD_and, hmask i hi, BitVec.getLsbD_shiftLeft, BitVec.getLsbD_ushiftRight]
  by_cases h : 7 ≤ i
  · rw [Nat.add_sub_cancel' h]
    simp [h, hi]
  · simp [h]

theorem highBits_eq_zero_iff (val : BitVec 64) : highBits val = 0 ↔ val.toNat < 128 := by
  have hval := val.isLt
  have hle : val.toNat / 128 * 2 ^ 7 < 2 ^ 64 := by omega
  rw [highBits_eq_shift, ← BitVec.toNat_inj, BitVec.toNat_shiftLeft, toNat_shift_seven, Nat.shiftLeft_eq,
    Nat.mod_eq_of_lt hle]
  change _ = 0 ↔ _
  omega

def writeVarInt (buffer : OutputBuffer) (val : BitVec 64) : OutputBuffer :=
  if highBits val ≠ 0 then writeVarInt (buffer.writeData [(0x80 ||| val &&& 0x7f).setWidth 8]) (val >>> 7)
  else buffer.writeData [val.setWidth 8]
termination_by val.toNat
decreasing_by
  rw [toNat_shift_seven]
  have hbig := mt (highBits_eq_zero_iff val).mpr ‹_›
  omega

def varIntLength (val : BitVec 64) : Nat :=
  if highBits val ≠ 0 then varIntLength (val >>> 7) + 1 else 1
termination_by val.toNat
decreasing_by
  rw [toNat_shift_seven]
  have hbig := mt (highBits_eq_zero_iff val).mpr ‹_›
  omega

/-- A group that is shifted out of an `int` is not defined either. -/
def readVarIntLoop : List Byte → BitVec 64 → Nat → Option (BitVec 64 × List Byte)
  | [], _, _ => none
  | i :: input, val, shift =>
    match lshiftInt (i.setWidth 32 &&& 0x7f) shift with
    | none => none
    | some group =>
      if i &&& 0x80 ≠ 0 then readVarIntLoop input (val ||| group.signExtend 64) (shift + 7)
      else some (val ||| group.signExtend 64, input)

def readVarInt (input : List Byte) : Option (BitVec 64 × List Byte) := readVarIntLoop input 0 0

/-- The underlying values of `var_type`. -/
abbrev VarType := BitVec 32

def VarType.string : VarType := 0
def VarType.signedInteger : VarType := 1

/-- A `string_view` as its bytes. -/
def bytesOf (s : String) : List Byte := s.toList.map fun c => BitVec.ofNat 8 c.toNat

namespace SystemVariable

def message : List Byte := bytesOf "System.Message"
def facility : List Byte := bytesOf "System.Facility"
def priority : List Byte := bytesOf "System.Priority"

end SystemVariable

/-- The underlying values of `priority`. -/
abbrev Priority := BitVec 32

def Priority.info : Priority := 0

structure Variable where
  name : List Byte
  type : VarType
  data : List Byte
  deriving DecidableEq

structure MessageInternal where
  msg : List Byte := []
  vars : List Variable := []
  encoded : List Byte := []
  preEncoded : List Byte := []

namespace MessageInternal

def encodingCurrent : BitVec 64 := 0

/-- The lengths are converted to 32 bits, and only that much of the name is written. -/
def addVariable (m : MessageInternal) (v : Variable) : MessageInternal :=
  let nameLength := BitVec.ofNat 32 v.name.length
  let dataLength := BitVec.ofNat 32 v.data.length
  let contentLength := varIntLength (v.type.setWidth 64) + varIntLength (nameLength.setWidth 64) +
    nameLength.toNat + dataLength.toNat
  let buffer := OutputBuffer.atEnd m.encoded
  let buffer := writeVarInt buffer (BitVec.ofNat 64 contentLength)
  let buffer := writeVarInt buffer (v.type.setWidth 64)
  let buffer := writeVarInt buffer (nameLength.setWidth 64)
  let buffer := buffer.writeData (v.name.take nameLength.toNat)
  let buffer := buffer.writeData v.data
  { m with encoded := buffer.range }

def addString (m : MessageInternal) (name value : List Byte) : MessageInternal :=
  m.addVariable ⟨name, .string, value⟩

/-- The least of 1, 2, 4 and 8 bytes that hold a signed integer. -/
def signedSize (value : BitVec 64) : Nat :=
  if (value.setWidth 8).signExtend 64 = value then 1
  else if (value.setWidth 16).signExtend 64 = value then 2
  else if (value.setWidth 32).signExtend 64 = value then 4
  else 8

def addSigned (m : MessageInternal) (name : List Byte) (value : BitVec 64) : MessageInternal :=
  m.addVariable ⟨name, .signedInteger, integerBytes (signedSize value) value⟩

/-- The space for the size comes first. -/
def create (facility : List Byte) (p : Priority) (message : List Byte) : MessageInternal :=
  let buffer := writeUInt32le (OutputBuffer.atEnd []) 0
  let buffer := writeVarInt buffer encodingCurrent
  let m : MessageInternal := { encoded := buffer.range }
  ((m.addString SystemVariable.facility facility).addSigned SystemVariable.priority (p.signExtend 64)).addString
    SystemVariable.message message

def finalise (m : MessageInternal) : MessageInternal :=
  let buffer := (OutputBuffer.atEnd m.encoded).seekBegin
  let buffer := writeUInt32le buffer (BitVec.ofNat 64 m.encoded.length)
  { m with encoded := buffer.range, preEncoded := buffer.range }

/-- What `log` makes of its arguments. -/
def encode (facility : List Byte) (p : Priority) (message : List Byte) (vars : List Variable) : MessageInternal :=
  (vars.foldl addVariable (create facility p message)).finalise

def decodeVariable (input : List Byte) : Option (Variable × List Byte) := do
  let (varLen, input) ← readVarInt input
  if input.length < varLen.toNat then none
  let before := input.length
  let (type, input) ← readVarInt input
  let (nameLen, input) ← readVarInt input
  let headerLen := before - input.length
  if input.length < nameLen.toNat ∨ varLen.toNat < nameLen.toNat + headerLen then none
  let name := input.take nameLen.toNat
  let input := input.drop nameLen.toNat
  let valueLen := varLen.toNat - nameLen.toNat - headerLen
  pure (⟨name, type.setWidth 32, input.take valueLen⟩, input.drop valueLen)

/-- The last variable with the name of the message gives the message. -/
def pushVariable (m : MessageInternal) (v : Variable) : MessageInternal :=
  { m with vars := m.vars ++ [v], msg := if v.name = SystemVariable.message then v.data else m.msg }

/-- The loop of `decode`. Every variable takes a byte of the input. -/
def decodeLoop : Nat → List Byte → MessageInternal → Bool × MessageInternal
  | 0, input, m => (input.isEmpty, m)
  | fuel + 1, input, m =>
    if input.isEmpty then (true, m)
    else
      match decodeVariable input with
      | none => (false, m)
      | some (v, input) => decodeLoop fuel input (m.pushVariable v)

def decode (m : MessageInternal) : Bool × MessageInternal :=
  if m.vars ≠ [] then (true, m)
  else
    match readUInt32le m.preEncoded with
    | none => (false, m)
    | some (len, input) =>
      if m.preEncoded.length < len.toNat then (false, m)
      else
        match readVarInt input with
        | none => (false, m)
        | some (encoding, input) =>
          if encodingCurrent < encoding then (false, m) else decodeLoop input.length input m

/-- The message over a buffer of encoded bytes. -/
def ofEncoded (buffer : List Byte) : MessageInternal := (decode { preEncoded := buffer }).2

/-- The load of an `int` of 1, 2 or 4 bytes. -/
def loadPriority (data : List Byte) : Priority :=
  let byte (k : Nat) := data.getD k 0
  if data.length = 1 then (byte 0).signExtend 32
  else if data.length = 2 then (byte 1 ++ byte 0).signExtend 32
  else byte 3 ++ byte 2 ++ byte 1 ++ byte 0

/-- The first variable with the name of the priority gives the priority. -/
def getPriority (m : MessageInternal) : Priority :=
  match m.vars.find? fun v => v.name = SystemVariable.priority with
  | none => .info
  | some v => loadPriority v.data

end MessageInternal

end XviOs.Logger
