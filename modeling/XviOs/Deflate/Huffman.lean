import Mathlib.Data.List.GetD
import Mathlib.Logic.Function.Basic
import Mathlib.Tactic
import XviOs.Library.CanonicalCode

namespace XviOs.Deflate

inductive Fault
  /-- a read or write outside of an array -/
  | outOfBounds
  /-- the exception for a code that is too long -/
  | invalidBitlength
  deriving DecidableEq

def overflowSize : Nat := 4

/-- The buffer, the position in it in bits, the end of the previous buffer, and the chunks
that the callback still has, if there is a callback. -/
structure Bitstream where
  buffer : List UInt8 := []
  offset : Int := 0
  atEnd : Bool := true
  overflow : List UInt8 := List.replicate overflowSize 0
  more : Option (List (List UInt8)) := none

namespace Bitstream

variable (s : Bitstream)

def eof : Bool := s.atEnd

def setInput (buffer : List UInt8) : Bitstream := { s with buffer := buffer, offset := 0, atEnd := false }

def setMoreInputFn (more : List (List UInt8)) : Bitstream := { s with more := some more, atEnd := false }

/-- The last bytes of the buffer. A small buffer is copied behind as many of the earlier
bytes as it has itself, which is the end of the array only for two bytes. -/
def saveOverflow : Except Fault (List UInt8) :=
  let size := s.buffer.length
  if size ≥ overflowSize then .ok (s.buffer.drop (size - overflowSize))
  else
    let moved := s.overflow.drop size ++ s.overflow.drop (overflowSize - size)
    if size + size ≤ overflowSize then .ok (moved.take size ++ s.buffer ++ moved.drop (size + size))
    else .error .outOfBounds

/-- The callback's answer goes into a local variable that hides the member: the buffer
stays as it is. -/
def refillBuffer : Except Fault (Bool × Bitstream) :=
  match s.more with
  | none => .ok (false, s)
  | some chunks => do
    let overflow ← s.saveOverflow
    let buffer := chunks.headD []
    return (!buffer.isEmpty, { s with
      offset := s.offset - 8 * s.buffer.length
      overflow := overflow
      more := some chunks.tail })

/-- `canReadBits`, which may call itself that many times. -/
def canReadBitsFrom (count : Nat) : Nat → Bitstream → Except Fault (Bool × Bitstream)
  | 0, s => .ok (false, s)
  | calls + 1, s =>
    if count > overflowSize * 8 then .ok (false, s)
    else if (count : Int) ≤ 8 * s.buffer.length - s.offset then .ok (true, s)
    else do
      match ← s.refillBuffer with
      | (false, s) => return (false, s)
      | (true, s) => canReadBitsFrom count calls s

/-- Each refill takes a chunk from the callback, so there is at most one call for each
chunk after the first. -/
def canReadBits (count : Nat) : Except Fault (Bool × Bitstream) :=
  canReadBitsFrom count ((s.more.getD []).length + 1) s

/-- The byte at an index that is in range. -/
def byteAt (bytes : List UInt8) (i : Int) : Except Fault UInt8 :=
  if 0 ≤ i ∧ i < bytes.length then .ok (bytes.getD i.toNat 0) else .error .outOfBounds

/-- The part of `readBit` after the buffer has been refilled. A negative offset counts
back from the end of the overflow buffer. -/
def nextBit : Except Fault (BitVec 32 × Bitstream) := do
  let byteOffset := if s.offset ≥ 0 then s.offset / 8 else overflowSize - (-s.offset) / 8
  let bitOffset := if s.offset ≥ 0 then s.offset % 8 else 8 - (-s.offset) % 8
  let byte ← byteAt (if s.offset ≥ 0 then s.buffer else s.overflow) byteOffset
  return ((BitVec.ofNat 32 byte.toNat >>> bitOffset.toNat) &&& 1, { s with offset := s.offset + 1 })

def readBit : Except Fault (BitVec 32 × Bitstream) :=
  if s.eof then .ok (0, s)
  else if s.offset > 0 ∧ s.offset / 8 = s.buffer.length then do
    match ← s.refillBuffer with
    | (false, s) => return (0, s)
    | (true, s) => s.nextBit
  else s.nextBit

/-- The rest of the loop of `read`, from bit `offset` on. -/
def readFrom : Nat → Nat → BitVec 32 → Bitstream → Except Fault (BitVec 32 × Bitstream)
  | 0, _, value, s => .ok (value, s)
  | count + 1, offset, value, s => do
    let (bit, s) ← s.readBit
    readFrom count (offset + 1) (value ||| bit <<< offset) s

def read (count : Nat) : Except Fault (BitVec 32 × Bitstream) := do
  match ← s.canReadBits count with
  | (false, s) => return (0, s)
  | (true, s) => readFrom count 0 0 s

/-- The results of some reads, one after the other. -/
def reads : List Nat → Bitstream → Except Fault (List (BitVec 32))
  | [], _ => .ok []
  | count :: counts, s => do
    let (value, s) ← s.read count
    return value :: (← reads counts s)

end Bitstream

end XviOs.Deflate

namespace XviOs.Deflate

def maxBitLength : Nat := 15

def symbolCount : Nat := 288

def maxNodes : Nat := 2 * symbolCount + maxBitLength

def invalidSymbol : Nat := 0xFFFF

/-- A node: its symbol, and how far away in the array its children are. -/
structure Node where
  value : Nat := invalidSymbol
  zero : Int := 0
  one : Int := 0

structure HuffmanTree where
  nodes : Nat → Node := fun _ => {}
  usedNodes : Nat := 0

namespace HuffmanTree

/-- The number of symbols with each length. -/
def lengthCount (lengths : List Nat) : Nat → BitVec 16 :=
  lengths.foldl (fun count l => Function.update count l (count l + 1)) fun _ => 0

/-- The loop ends before the longest length, whose entry keeps its initial value. -/
def initialCode (count : Nat → BitVec 16) : Nat → BitVec 16
  | 0 => 0
  | i + 1 => if i + 1 < maxBitLength then (initialCode count i + count i) <<< 1 else 0

/-- The values of the symbols, given the next value for each length. -/
def values : List Nat → (Nat → BitVec 16) → List (BitVec 16)
  | [], _ => []
  | l :: lengths, nextCode =>
    if l ≠ 0 then nextCode l :: values lengths (Function.update nextCode l (nextCode l + 1))
    else 0 :: values lengths nextCode

variable (t : HuffmanTree)

/-- `node->one()` or `node->zero()` -/
def child (n : Nat) (bit : Bool) : Option Nat :=
  let offset := if bit then (t.nodes n).one else (t.nodes n).zero
  if offset ≠ 0 then some (n + offset).toNat else none

def setChild (n c : Nat) (bit : Bool) : HuffmanTree :=
  let node := t.nodes n
  let offset : Int := c - n
  { t with nodes := Function.update t.nodes n (if bit then { node with one := offset } else { node with zero := offset }) }

/-- Takes the next node of the array. -/
def newNode : Except Fault (Nat × HuffmanTree) :=
  if t.usedNodes < maxNodes then
    .ok (t.usedNodes, ⟨Function.update t.nodes t.usedNodes {}, t.usedNodes + 1⟩)
  else .error .outOfBounds

/-- The root, and a leaf for each symbol. -/
def insertTerminals : HuffmanTree :=
  (List.range symbolCount).foldl
    (fun t i => ⟨Function.update t.nodes t.usedNodes { value := i }, t.usedNodes + 1⟩)
    ⟨Function.update t.nodes 0 {}, 1⟩

/-- Follows the bits of `code` from bit `bit` down to bit 1, and makes the nodes that are missing. -/
def descend (code : BitVec 16) : Nat → Nat → HuffmanTree → Except Fault (Nat × HuffmanTree)
  | 0, node, t => .ok (node, t)
  | bit + 1, node, t =>
    let one := code.getLsbD (bit + 1)
    match t.child node one with
    | some next => descend code bit next t
    | none => do
      let (new, t) ← t.newNode
      descend code bit new (t.setChild node new one)

/-- One round of the loop that inserts the interior nodes. -/
def insertSymbol (i length : Nat) (code : BitVec 16) : Except Fault HuffmanTree :=
  if length = 0 then .ok t
  else do
    let (node, t) ← descend code (length - 1) 0 t
    return t.setChild node (i + 1) (code.getLsbD 0)

/-- The rounds for the symbols from `i` on. -/
def insertSymbols : Nat → List (Nat × BitVec 16) → HuffmanTree → Except Fault HuffmanTree
  | _, [], t => .ok t
  | i, (length, code) :: symbols, t => do insertSymbols (i + 1) symbols (← t.insertSymbol i length code)

/-- The callers pass an array with a length for each symbol. -/
def buildTree (symbolLengths : Vector UInt8 symbolCount) : Except Fault HuffmanTree :=
  let lengths := symbolLengths.toList.map UInt8.toNat
  if ∃ l ∈ lengths, l > maxBitLength then .error .invalidBitlength
  else
    let codes := values lengths (initialCode (lengthCount lengths))
    insertSymbols 0 (lengths.zip codes) t.insertTerminals

/-- The node that the bits of a code lead to from the root. -/
def lookup (bits : List Bool) : Option Nat := Library.Trie.walk t.child 0 bits

end HuffmanTree

end XviOs.Deflate
