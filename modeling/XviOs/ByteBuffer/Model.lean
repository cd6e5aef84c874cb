import XviOs.ByteBuffer.Endian
import XviOs.Library.StateProgram

namespace XviOs.ByteBuffer

open Library.ByteOrder Library.ThrowingProgram

/-- The exceptions `std::out_of_range` and `std::length_error`. -/
inductive Error
  | outOfRange (what : String)
  | lengthError

/-- The values of `whence`. -/
inductive Whence
  | fromBegin
  | fromEnd
  | fromCurrent

/-- The greatest size of a vector of bytes. -/
def maxSize : ℕ := 2 ^ 63 - 1

/-- The position that a seek is to, in the arithmetic of `difference_type`. -/
def target (pos : BitVec 64) (size tell : ℕ) : Whence → BitVec 64
  | .fromEnd => BitVec.ofNat 64 size - pos
  | .fromCurrent => pos + BitVec.ofNat 64 tell
  | .fromBegin => pos

/-- An `input_byte_buffer` over a span, where the iterator is an index. -/
structure Input where
  range : List UInt8
  pos : ℕ
  endian : Endian

/-- An `output_byte_buffer` over a vector. -/
structure Output where
  range : List UInt8
  pos : ℕ
  endian : Endian

namespace Input

def setEndian (e : Endian) : Program Error Input Unit := modify fun s => { s with endian := e }

def size (s : Input) : ℕ := s.range.length

def remaining (s : Input) : ℕ := s.range.length - s.pos

def tell (s : Input) : ℕ := s.pos

def seek (pos : BitVec 64) (w : Whence) : Program Error Input Unit := do
  let s ← get
  let pos := target pos s.size s.tell w
  if pos.toInt < 0 ∨ s.size < pos.toNat then throw (.outOfRange "invalid seek position")
  else set { s with pos := pos.toNat }

def readData (n : ℕ) : Program Error Input (List UInt8) := do
  let s ← get
  if s.remaining < n then throw (.outOfRange "buffer underrun")
  else do
    set { s with pos := s.pos + n }
    return (s.range.drop s.pos).take n

/-- The bytes that `data` has afterwards. -/
def readDataTo (n : ℕ) (data : List UInt8) : Program Error Input (List UInt8) := do
  return (← readData n) ++ data.drop n

/-- `read` for a type that has an order. -/
def readEndian (native : Endian) (t : IntType) (e : Endian) : Program Error Input t.Value := do
  let data ← readDataTo t.size (List.replicate t.size 0)
  let x : FixedEndianType native t e := ⟨ofObjectBytes native data⟩
  return x.value

def readByte : Program Error Input UInt8 := do return (← readData 1).headD 0

/-- `read` for an integer type. -/
def read (native : Endian) (t : IntType) : Program Error Input t.Value :=
  if t.width = .one then do return t.convert (← readByte).toNat
  else do
    let s ← get
    if s.endian = .little then readEndian native t .little else readEndian native t .big

end Input

namespace Output

def setEndian (e : Endian) : Program Error Output Unit := modify fun s => { s with endian := e }

def size (s : Output) : ℕ := s.range.length

def tell (s : Output) : ℕ := s.pos

def seek (pos : BitVec 64) (w : Whence) : Program Error Output Unit := do
  let s ← get
  let pos := target pos s.size s.tell w
  if pos.toInt < 0 ∨ s.size < pos.toNat then throw (.outOfRange "invalid seek position")
  else set { s with pos := pos.toNat }

/-- The vector's `resize` to more bytes, and the iterator to where it was. -/
def grow (n : ℕ) : Program Error Output Unit := do
  let s ← get
  if maxSize < n then throw .lengthError
  else set { s with range := s.range ++ List.replicate (n - s.size) 0 }

def pushBack (b : UInt8) : Program Error Output Unit := do
  let s ← get
  if s.size = maxSize then throw .lengthError else set { s with range := s.range ++ [b] }

def writeNext (b : UInt8) : Program Error Output Unit := do
  let s ← get
  if s.pos = s.range.length then do
    pushBack b
    modify fun s => { s with pos := s.pos + 1 }
  else set { s with range := s.range.set s.pos b, pos := s.pos + 1 }

def writeAll : List UInt8 → Program Error Output Unit
  | [] => return
  | b :: data => do
    writeNext b
    writeAll data

def writeData (data : List UInt8) : Program Error Output Unit := do
  let s ← get
  if s.size < s.tell + data.length then do
    grow (s.tell + data.length)
    writeAll data
  else writeAll data

/-- `write` for a type that has an order. -/
def writeEndian (native : Endian) (t : IntType) (e : Endian) (i : ℤ) : Program Error Output Unit :=
  let x : FixedEndianType native t e := .ofValue (t.convert i)
  writeData (objectBytes native x.store)

/-- `write` for an integer type. -/
def write (native : Endian) (t : IntType) (i : ℤ) : Program Error Output Unit :=
  if t.width = .one then writeData [UInt8.ofNat (t.toUnsigned (t.convert i))]
  else do
    let s ← get
    if s.endian = .little then writeEndian native t .little i else writeEndian native t .big i

end Output

/-- A type with the order that it is read and written in: that of the type, or one that the buffer is set to before. -/
structure Format where
  type : IntType
  order : Endian
  fixed : Bool

/-- A value that is written. -/
structure Item where
  format : Format
  value : format.type.Value

def Input.readItem (native : Endian) (f : Format) : Program Error Input f.type.Value :=
  if f.fixed then Input.readEndian native f.type f.order
  else do
    Input.setEndian f.order
    Input.read native f.type

def Output.writeItem (native : Endian) (i : Item) : Program Error Output Unit :=
  if i.format.fixed then Output.writeEndian native i.format.type i.format.order i.value.1
  else do
    Output.setEndian i.format.order
    Output.write native i.format.type i.value.1

def Output.writeItems (native : Endian) : List Item → Program Error Output Unit
  | [] => return
  | i :: items => do
    Output.writeItem native i
    writeItems native items

def Input.readItems (native : Endian) : List Format → Program Error Input (List ℤ)
  | [] => return []
  | f :: formats => do
    let x ← Input.readItem native f
    return x.1 :: (← readItems native formats)

end XviOs.ByteBuffer
