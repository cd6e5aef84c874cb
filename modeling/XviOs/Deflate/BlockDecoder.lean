import XviOs.Deflate.Huffman

namespace XviOs.Deflate

namespace Bitstream

/-- The mask is the complement of an unsigned 32-bit number, so it clears the upper half of
the offset too. -/
def byteAlign (s : Bitstream) : Bitstream :=
  { s with offset := ((BitVec.ofInt 64 s.offset + 7) &&& BitVec.setWidth 64 (~~~ (7 : BitVec 32))).toInt }

end Bitstream

namespace HuffmanTree

/-- The lengths that the ranges of the standard expand to. -/
def staticLengths : Vector UInt8 symbolCount :=
  Vector.ofFn fun i => if i.val ≤ 143 then 8 else if i.val ≤ 255 then 9 else if i.val ≤ 279 then 7 else 8

def staticTree : Except Fault HuffmanTree := buildTree {} staticLengths

end HuffmanTree

inductive BlockType
  | uncompressed
  | staticHuffman
  | dynamicHuffman
  | invalid

def BlockType.ofBits (bits : BitVec 32) : BlockType :=
  match bits.toNat with
  | 0 => uncompressed
  | 1 => staticHuffman
  | 2 => dynamicHuffman
  | _ => invalid

inductive DecoderState
  | initial
  | haveBlockType
  | codeLengths
  | mainTree
  | distanceTree
  | data
  | ended
  deriving DecidableEq

inductive DecoderFault
  /-- a write past the end of `m_codeLengths` -/
  | codeLengthsOverrun
  /-- a step from the null pointer -/
  | nullState
  /-- the model's loop has run out of rounds -/
  | outOfFuel
  | fault (f : Fault)

def codeLengthMap : List Nat := [16, 17, 18, 0, 8, 7, 9, 6, 10, 5, 11, 4, 12, 3, 13, 2, 14, 1, 15]

/-- `huffmanState` is a node of the code length tree, and of the main tree in the data.
`built` is not in the source: it lists what `buildTree` has been called with. -/
structure BlockDecoder where
  state : DecoderState := .initial
  input : Bitstream := {}
  final : Bool := false
  type : BlockType := .invalid
  mainSymbolCount : Nat := 0
  distanceSymbolCount : Nat := 0
  codeLengthSymbolCount : Nat := 0
  codeLengthTree : HuffmanTree := {}
  mainTree : HuffmanTree := {}
  distanceTree : HuffmanTree := {}
  huffmanState : Option Nat := none
  uncompressedBytesRemaining : Nat := 0
  codeLengths : Vector UInt8 symbolCount := Vector.replicate symbolCount 0
  codeLengthsRead : Nat := 0
  built : List (Vector UInt8 symbolCount) := []

namespace BlockDecoder

def stream {α : Type} (r : Except Fault α) : Except DecoderFault α := r.mapError .fault

variable (d : BlockDecoder)

/-- `m_codeLengths[index] = length` -/
def setCodeLength (index : Nat) (length : UInt8) : Except DecoderFault BlockDecoder :=
  if h : index < symbolCount then .ok { d with codeLengths := d.codeLengths.set index length h }
  else .error .codeLengthsOverrun

def processInitial : Except DecoderFault (Bool × BlockDecoder) := do
  let (ok, input) ← stream (d.input.canReadBits 3)
  if ok then
    let (final, input) ← stream (input.read 1)
    let (type, input) ← stream (input.read 2)
    return (true, { d with input, final := final ≠ 0, type := .ofBits type, state := .haveBlockType })
  else return (false, { d with input })

def processBlockType : Except DecoderFault (Bool × BlockDecoder) :=
  match d.type with
  | .uncompressed => do
    let (ok, input) ← stream (d.input.byteAlign.canReadBits 16)
    if ok then
      let (length, input) ← stream (input.read 16)
      return (true, { d with input, uncompressedBytesRemaining := length.toNat, state := .data })
    else return (false, { d with input })
  | .staticHuffman => do
    let mainTree ← stream HuffmanTree.staticTree
    return (true, { d with
      mainSymbolCount := 288
      distanceSymbolCount := 32
      codeLengthSymbolCount := 0
      codeLengthTree := {}
      mainTree := mainTree
      distanceTree := {}
      state := .data })
  | .dynamicHuffman => do
    let (ok, input) ← stream (d.input.canReadBits 14)
    if ok then
      let (main, input) ← stream (input.read 5)
      let (distance, input) ← stream (input.read 5)
      let (codeLength, input) ← stream (input.read 4)
      return (true, { d with
        input
        mainSymbolCount := 257 + main.toNat
        distanceSymbolCount := 1 + distance.toNat
        codeLengthSymbolCount := 4 + codeLength.toNat
        codeLengths := Vector.replicate symbolCount 0
        codeLengthsRead := 0
        state := .codeLengths })
    else return (false, { d with input })
  | .invalid => .ok (false, d)

/-- All lengths of the code length code have been read. -/
def finishCodeLengths : Except DecoderFault (Bool × BlockDecoder) := do
  let tree ← stream (HuffmanTree.buildTree {} d.codeLengths)
  return (true, { d with
    codeLengthTree := tree
    huffmanState := some 0
    codeLengthsRead := 0
    codeLengths := Vector.replicate symbolCount 0
    state := .mainTree
    built := d.built ++ [d.codeLengths] })

def readCodeLengths : Nat → BlockDecoder → Except DecoderFault (Bool × BlockDecoder)
  | 0, _ => .error .outOfFuel
  | fuel + 1, d => do
    let (ok, input) ← stream (d.input.canReadBits 3)
    if ok then
      match codeLengthMap[d.codeLengthsRead]? with
      | none => .error (.fault .outOfBounds)
      | some index =>
        let (length, input) ← stream (input.read 3)
        let d ← { d with input }.setCodeLength index (UInt8.ofNat length.toNat)
        let d := { d with codeLengthsRead := d.codeLengthsRead + 1 }
        if d.codeLengthsRead = d.codeLengthSymbolCount then d.finishCodeLengths
        else readCodeLengths fuel d
    else return (true, { d with input })

def processCodeLengths (fuel : Nat) : Except DecoderFault (Bool × BlockDecoder) := do
  let (ok, input) ← stream (d.input.canReadBits 3)
  if ok then readCodeLengths fuel { d with input }
  else return (false, { d with input })

/-- The number of lengths in the tree that is being read. -/
def target : Nat := if d.state = .mainTree then d.mainSymbolCount else d.distanceSymbolCount

/-- All lengths of the main tree or the distance tree have been read. -/
def finishTree : Except DecoderFault (Bool × BlockDecoder) := do
  let tree ← stream (HuffmanTree.buildTree {} d.codeLengths)
  let d := { d with
    huffmanState := some 0
    codeLengthsRead := 0
    codeLengths := Vector.replicate symbolCount 0
    built := d.built ++ [d.codeLengths] }
  if d.state = .mainTree then return (true, { d with mainTree := tree, state := .distanceTree })
  else return (true, { d with distanceTree := tree, state := .data })

/-- One round for each bit. -/
def readTree : Nat → BlockDecoder → Except DecoderFault (Bool × BlockDecoder)
  | 0, _ => .error .outOfFuel
  | fuel + 1, d => do
    let (ok, input) ← stream (d.input.canReadBits 1)
    if ok then
      let (bit, input) ← stream input.readBit
      match d.huffmanState with
      | none => .error .nullState
      | some node =>
        match d.codeLengthTree.child node (bit ≠ 0) with
        | none => return (false, { d with input, huffmanState := none })
        | some next =>
          let value := (d.codeLengthTree.nodes next).value
          if value ≠ invalidSymbol then
            let d ← { d with input, huffmanState := some next }.setCodeLength d.codeLengthsRead (UInt8.ofNat value)
            let d := { d with codeLengthsRead := d.codeLengthsRead + 1 }
            if d.codeLengthsRead = d.target then d.finishTree
            else readTree fuel { d with huffmanState := some 0 }
          else readTree fuel { d with input, huffmanState := some next }
    else return (true, { d with input })

def processTree (fuel : Nat) : Except DecoderFault (Bool × BlockDecoder) := do
  let (ok, input) ← stream (d.input.canReadBits 1)
  if ok then readTree fuel { d with input }
  else return (false, { d with input })

/-- `processData` stands for the stage that reads the data, whose functions have no body in
the source. An exception of `buildTree` ends the decoding. -/
def process (processData : BlockDecoder → Except DecoderFault (Bool × BlockDecoder)) (fuel : Nat) :
    Except DecoderFault (Bool × BlockDecoder) :=
  match d.state with
  | .initial => d.processInitial
  | .haveBlockType => d.processBlockType
  | .codeLengths => d.processCodeLengths fuel
  | .mainTree => d.processTree fuel
  | .distanceTree => d.processTree fuel
  | .data => processData d
  | .ended => .ok (false, d)

end BlockDecoder

end XviOs.Deflate
