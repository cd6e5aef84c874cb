import Mathlib.Tactic
import XviOs.Library.BitField

namespace XviOs.VM86

open Library.LittleEndian

/-- The opcodes and prefixes that are emulated. -/
inductive Opcode where
  | o32 | a32 | cs | ds | es | fs | gs | ss | lock | rep | repne
  | cli | sti | pushf | popf | int | iret
  | inb | inbi8 | inw | inwi8 | outb | outbi8 | outw | outwi8
  | insb | insw | outsb | outsw
  deriving DecidableEq

def Opcode.code : Opcode → UInt8
  | .o32 => 0x66
  | .a32 => 0x67
  | .cs => 0x2E
  | .ds => 0x3E
  | .es => 0x26
  | .fs => 0x64
  | .gs => 0x65
  | .ss => 0x36
  | .lock => 0xF0
  | .rep => 0xF3
  | .repne => 0xF2
  | .cli => 0xFA
  | .sti => 0xFB
  | .pushf => 0x9C
  | .popf => 0x9D
  | .int => 0xCD
  | .iret => 0xCF
  | .inb => 0xEC
  | .inbi8 => 0xE4
  | .inw => 0xED
  | .inwi8 => 0xE5
  | .outb => 0xEE
  | .outbi8 => 0xE6
  | .outw => 0xEF
  | .outwi8 => 0xE7
  | .insb => 0x6C
  | .insw => 0x6D
  | .outsb => 0x6E
  | .outsw => 0x6F

def Opcode.all : List Opcode :=
  [.o32, .a32, .cs, .ds, .es, .fs, .gs, .ss, .lock, .rep, .repne, .cli, .sti, .pushf, .popf, .int, .iret, .inb, .inbi8,
    .inw, .inwi8, .outb, .outbi8, .outw, .outwi8, .insb, .insw, .outsb, .outsw]

def Opcode.ofCode (c : UInt8) : Option Opcode := Opcode.all.find? fun op => op.code == c

theorem Opcode.ofCode_code (op : Opcode) : Opcode.ofCode op.code = some op := by
  cases op <;> rfl

structure RealmodePtr where
  segment : BitVec 16
  offset : BitVec 16

def RealmodePtr.linear (p : RealmodePtr) : Nat := p.segment.toNat <<< 4 + p.offset.toNat

/-- The pointer so many bytes on. -/
def RealmodePtr.add (p : RealmodePtr) (x : Int) : RealmodePtr := { p with offset := p.offset + BitVec.ofInt 16 x }

inductive Direction where
  | input
  | output
  deriving DecidableEq

inductive OperationSize where
  | byte
  | word
  | long
  deriving DecidableEq

def OperationSize.bytes : OperationSize → Nat
  | .byte => 1
  | .word => 2
  | .long => 4

/-- `x` of a register `ex`. -/
def low (r : BitVec 32) : BitVec 16 := r.setWidth 16

def setLow (r : BitVec 32) (x : BitVec 16) : BitVec 32 := r.extractLsb' 16 16 ++ x

def setLowByte (r : BitVec 32) (x : BitVec 8) : BitVec 32 := r.extractLsb' 8 24 ++ x

/-- The interrupt frame. -/
structure Frame where
  errorCode : BitVec 32
  eip : BitVec 32
  cs : BitVec 32
  eflags : BitVec 32
  esp : BitVec 32
  ss : BitVec 32
  es : BitVec 32
  ds : BitVec 32
  fs : BitVec 32
  gs : BitVec 32

structure Regs where
  edi : BitVec 32
  esi : BitVec 32
  ebp : BitVec 32
  esp : BitVec 32
  ebx : BitVec 32
  edx : BitVec 32
  ecx : BitVec 32
  eax : BitVec 32

/-- The positions of the flags. -/
def interruptFlag : Nat := 9

def directionFlag : Nat := 10

def vmFlag : Nat := 17

def Frame.flag (frame : Frame) (i : Nat) : Bool := frame.eflags.getLsbD i

def Frame.setFlag (frame : Frame) (i : Nat) (b : Bool) : Frame :=
  { frame with eflags := if b then frame.eflags ||| (1#32 <<< i) else frame.eflags &&& ~~~(1#32 <<< i) }

/-- The opcode has no initial value. -/
structure DecodedInsn where
  ip : RealmodePtr
  length : BitVec 8 := 0
  op : Option Opcode := none
  a32 : Bool := false
  o32 : Bool := false
  rep : Bool := false
  lock : Bool := false
  segment : Opcode := .ds
  immediate : BitVec 8 := 0

structure IoParams where
  port : BitVec 16
  direction : Direction
  size : OperationSize
  count : BitVec 32
  stringPtr : Option RealmodePtr := none

/-- What a hook decides. One that has handled the action itself leaves its frame and registers. -/
inductive PolicyResult where
  | ignore (frame : Frame) (regs : Regs)
  | emulate
  | fault
  | fatal

structure Transfer where
  direction : Direction
  port : BitVec 16
  size : OperationSize
  stringPtr : Option RealmodePtr
  value : Nat

/-- What has happened, to be read by statements about it only. -/
inductive Event where
  | decision (result : PolicyResult)
  | transfer (t : Transfer)
  | segmentOverrun (vector : Nat)

structure Machine where
  frame : Frame
  regs : Regs
  mem : Bytes
  events : List Event

/-- The emulator, and what the ports of the machine answer after what has happened. -/
structure Emulator where
  ivt : Nat
  softwareInterruptHook : Option (DecodedInsn → Frame → Regs → BitVec 8 → PolicyResult)
  fatalErrorHook : Option (Frame → Regs → Frame × Regs)
  interruptFlagHook : Option (DecodedInsn → Frame → Regs → PolicyResult)
  ioHook : Option (DecodedInsn → Frame → Regs → IoParams → PolicyResult)
  answer : List Event → BitVec 16 → OperationSize → Nat

def Machine.record (m : Machine) (event : Event) : Machine := { m with events := m.events ++ [event] }

/-- `*--sp = value`. -/
def push (m : Machine) (sp : RealmodePtr) (value : BitVec 16) : Machine × RealmodePtr :=
  ({ m with mem := writeLE m.mem (sp.add (-2)).linear 2 value.toNat }, sp.add (-2))

def stackVector : Nat := 12

def protectionVector : Nat := 13

def injectInterrupt (e : Emulator) (m : Machine) (vector : Nat) : Machine :=
  let s1 := push m ⟨low m.frame.ss, low m.frame.esp⟩ (low m.frame.eflags)
  let s2 := push s1.1 s1.2 (low m.frame.cs)
  let s3 := push s2.1 s2.2 (low m.frame.eip)
  { s3.1 with
    frame := { m.frame with
      esp := s3.2.offset.setWidth 32
      cs := BitVec.ofNat 32 (readLE s3.1.mem (e.ivt + 4 * vector + 2) 2)
      eip := BitVec.ofNat 32 (readLE s3.1.mem (e.ivt + 4 * vector) 2) } }

def fatalError (e : Emulator) (m : Machine) : Machine :=
  match e.fatalErrorHook with
  | none => m
  | some hook => { m with frame := (hook m.frame m.regs).1, regs := (hook m.frame m.regs).2 }

/-- What becomes of a decision: whether the action is to be emulated. -/
def applyPolicy (e : Emulator) (m : Machine) : PolicyResult → Bool × Machine
  | .emulate => (true, m)
  | .fatal => (false, fatalError e m)
  | .fault => (false, injectInterrupt e m protectionVector)
  | .ignore frame regs => (false, { m with frame := frame, regs := regs })

def readWord (m : Machine) (p : RealmodePtr) : BitVec 16 := BitVec.ofNat 16 (readLE m.mem p.linear 2)

def readLong (m : Machine) (p : RealmodePtr) : BitVec 32 := BitVec.ofNat 32 (readLE m.mem p.linear 4)

section InterruptFlag

def checkInterruptFlagChange (e : Emulator) (m : Machine) (insn : DecodedInsn) : Bool × Machine :=
  applyPolicy e m (match e.interruptFlagHook with
    | none => .fatal
    | some hook => hook insn m.frame m.regs)

def flagChanges (m : Machine) (insn : DecodedInsn) (sp : RealmodePtr) : Bool :=
  match insn.op with
  | some .cli | some .sti => true
  | some .popf => m.frame.flag interruptFlag != (readLong m sp).getLsbD interruptFlag
  | _ => false

def emulateFlagChange (m : Machine) (insn : DecodedInsn) (sp : RealmodePtr) : Machine :=
  match insn.op with
  | some .cli => { m with frame := m.frame.setFlag interruptFlag false }
  | some .sti => { m with frame := m.frame.setFlag interruptFlag true }
  | some .pushf =>
    if insn.o32 then
      { m with
        mem := writeLE m.mem (sp.add (-4)).linear 4 m.frame.eflags.toNat
        frame := { m.frame with esp := setLow m.frame.esp (sp.add (-4)).offset } }
    else
      let s := push m sp (low m.frame.eflags)
      { s.1 with frame := { m.frame with esp := setLow m.frame.esp s.2.offset } }
  | some .popf =>
    if insn.o32 then
      { m with
        frame := Frame.setFlag
          { m.frame with eflags := readLong m sp, esp := setLow m.frame.esp (sp.add 4).offset } vmFlag true }
    else
      { m with
        frame := { m.frame with
          eflags := setLow m.frame.eflags (readWord m sp)
          esp := setLow m.frame.esp (sp.add 2).offset } }
  | some .iret =>
    if insn.o32 then
      { m with
        frame := { m.frame with
          eip := readLong m sp
          cs := (low (readLong m (sp.add 4))).setWidth 32
          eflags := (readLong m (sp.add 8) &&& 0x00257FD5#32) ||| (m.frame.eflags &&& 0x001A0000#32)
          esp := setLow m.frame.esp (sp.add 12).offset } }
    else
      { m with
        frame := { m.frame with
          eip := setLow m.frame.eip (readWord m sp)
          cs := (readWord m (sp.add 2)).setWidth 32
          eflags := setLow m.frame.eflags (readWord m (sp.add 4))
          esp := setLow m.frame.esp (sp.add 6).offset } }
  | _ => m

def checkAndEmulateInterruptFlagChange (e : Emulator) (m : Machine) (insn : DecodedInsn) : Machine :=
  let sp : RealmodePtr := ⟨low m.frame.ss, low m.frame.esp⟩
  if flagChanges m insn sp then
    match checkInterruptFlagChange e m insn with
    | (false, m') => m'
    | (true, m') => emulateFlagChange m' insn sp
  else emulateFlagChange m insn sp

end InterruptFlag

def dispatchSoftwareInterrupt (e : Emulator) (m : Machine) (insn : DecodedInsn) (vector : BitVec 8) : Machine :=
  match applyPolicy e m (match e.softwareInterruptHook with
    | none => .emulate
    | some hook => hook insn m.frame m.regs vector) with
  | (false, m') => m'
  | (true, m') =>
    let ip := insn.ip.offset + insn.length.setWidth 16
    injectInterrupt e { m' with frame := { m'.frame with eip := setLow m'.frame.eip ip } } vector.toNat

section PortAccess

/-- The second operand of the disjunction is the sum and not a comparison of it. -/
def validOffset (offset : BitVec 32) (accessSize : Nat) : Bool :=
  if offset.toNat > 0xFFFF ∨ offset + BitVec.ofNat 32 accessSize ≠ 0 then false else true

def checkAndRaiseSegmentOverrun (e : Emulator) (m : Machine) (segment : Opcode) (offset : BitVec 32)
    (accessSize : Nat) : Bool × Machine :=
  if validOffset offset accessSize then (false, m)
  else
    let vector := if segment = .ss then stackVector else protectionVector
    (true, injectInterrupt e (m.record (.segmentOverrun vector)) vector)

/-- The decision of the hook, if there is one. -/
def ioPolicy (e : Emulator) (insn : DecodedInsn) (frame : Frame) (regs : Regs) (io : IoParams) : PolicyResult :=
  match e.ioHook with
  | none => .fatal
  | some hook => hook insn frame regs io

def checkIo (e : Emulator) (m : Machine) (insn : DecodedInsn) (io : IoParams) : Bool × Machine :=
  applyPolicy e (m.record (.decision (ioPolicy e insn m.frame m.regs io))) (ioPolicy e insn m.frame m.regs io)

/-- `inb`, `inw` and `inl`. -/
def portIn (e : Emulator) (m : Machine) (port : BitVec 16) (size : OperationSize) : Nat :=
  e.answer m.events port size % 256 ^ size.bytes

def setAccumulator (regs : Regs) (value : Nat) : OperationSize → Regs
  | .byte => { regs with eax := setLowByte regs.eax (BitVec.ofNat 8 value) }
  | .word => { regs with eax := setLow regs.eax (BitVec.ofNat 16 value) }
  | .long => { regs with eax := BitVec.ofNat 32 value }

/-- The access to the port, from or to memory if there is a pointer. -/
def transfer (e : Emulator) (m : Machine) (io : IoParams) : Machine :=
  match io.stringPtr, io.direction with
  | none, .input =>
    let value := portIn e m io.port io.size
    Machine.record { m with regs := setAccumulator m.regs value io.size }
      (.transfer ⟨.input, io.port, io.size, none, value⟩)
  | none, .output =>
    m.record (.transfer ⟨.output, io.port, io.size, none, m.regs.eax.toNat % 256 ^ io.size.bytes⟩)
  | some p, .input =>
    let value := portIn e m io.port io.size
    Machine.record { m with mem := writeLE m.mem p.linear io.size.bytes value }
      (.transfer ⟨.input, io.port, io.size, some p, value⟩)
  | some p, .output =>
    m.record (.transfer ⟨.output, io.port, io.size, some p, readLE m.mem p.linear io.size.bytes⟩)

/-- `checkAndEmulateIO` for one access. -/
def emulateOne (e : Emulator) (m : Machine) (insn : DecodedInsn) (io : IoParams) : Bool × Machine :=
  let overrun := if insn.a32 ∧ io.stringPtr.isSome then
      checkAndRaiseSegmentOverrun e m insn.segment (if io.direction = .input then m.regs.edi else m.regs.esi)
        io.size.bytes
    else (false, m)
  if overrun.1 then (false, overrun.2)
  else
    let checked := checkIo e overrun.2 insn io
    if checked.1 then (true, transfer e checked.2 io) else (true, checked.2)

/-- The distance to the next location. -/
def increment (m : Machine) (io : IoParams) : Int :=
  if m.frame.flag directionFlag then -io.size.bytes else io.size.bytes

def advance (insn : DecodedInsn) (direction : Direction) (x : Int) (regs : Regs) : Regs :=
  match direction with
  | .input =>
    { regs with edi := if insn.a32 then regs.edi + BitVec.ofInt 32 x
                       else setLow regs.edi (low regs.edi + BitVec.ofInt 16 x) }
  | .output =>
    { regs with esi := if insn.a32 then regs.esi + BitVec.ofInt 32 x
                       else setLow regs.esi (low regs.esi + BitVec.ofInt 16 x) }

def IoParams.next (x : Int) (io : IoParams) : IoParams := { io with stringPtr := io.stringPtr.map (·.add x) }

/-- The loop over a string, of accesses that are made one by one. -/
def repeatOne (e : Emulator) (insn : DecodedInsn) : Nat → Machine → IoParams → Bool × Machine
  | 0, m, _ => (true, m)
  | n + 1, m, io =>
    match emulateOne e m insn io with
    | (false, m') => (false, m')
    | (true, m') =>
      repeatOne e insn n { m' with regs := advance insn io.direction (increment m' io) m'.regs } (io.next (increment m' io))

def checkAndEmulateIo (e : Emulator) (m : Machine) (insn : DecodedInsn) (io : IoParams) : Bool × Machine :=
  if io.stringPtr.isSome ∧ io.count > 1 then repeatOne e insn io.count.toNat m { io with count := 1 }
  else emulateOne e m insn io

end PortAccess

section Decode

def getSegment (segment : Opcode) (frame : Frame) : BitVec 16 :=
  low (match segment with
    | .es => frame.es
    | .fs => frame.fs
    | .gs => frame.gs
    | .ss => frame.ss
    | .cs => frame.cs
    | _ => frame.ds)

/-- The variables of the decoder. -/
structure Decoding where
  ip : RealmodePtr
  insn : DecodedInsn
  explicitSegment : Bool := false

def applyPrefix (d : Decoding) (op : Opcode) : Option Decoding :=
  match op with
  | .o32 => some { d with insn := { d.insn with o32 := true } }
  | .a32 => some { d with insn := { d.insn with a32 := true } }
  | .cs | .ds | .es | .fs | .gs | .ss => some { d with insn := { d.insn with segment := op }, explicitSegment := true }
  | .lock => some { d with insn := { d.insn with lock := true } }
  | .rep => some { d with insn := { d.insn with rep := true } }
  | _ => none

/-- The byte behind the opcode. -/
def readImmediate (m : Machine) (d : Decoding) : Decoding :=
  let ip := d.ip.add 1
  { d with
    ip := ip
    insn := { d.insn with immediate := (m.mem ip.linear).toBitVec, length := d.insn.length + 1 } }

def wideSize (insn : DecodedInsn) : OperationSize := if insn.o32 then .long else .word

/-- An access of the accumulator to a port. -/
def registerIo (e : Emulator) (m : Machine) (d : Decoding) (direction : Direction) (size : OperationSize)
    (port : BitVec 16) : Machine × RealmodePtr :=
  ((checkAndEmulateIo e m d.insn ⟨port, direction, size, 0, none⟩).2, d.ip)

def immediateIo (e : Emulator) (m : Machine) (d : Decoding) (direction : Direction) (size : OperationSize) :
    Machine × RealmodePtr :=
  registerIo e m (readImmediate m d) direction size ((readImmediate m d).insn.immediate.setWidth 16)

def stringCount (insn : DecodedInsn) (regs : Regs) : BitVec 32 :=
  if insn.rep then if insn.o32 then regs.ecx else (low regs.ecx).setWidth 32 else 1

def insIo (e : Emulator) (m : Machine) (d : Decoding) (size : OperationSize) : Machine × RealmodePtr :=
  let insn := { d.insn with segment := if d.explicitSegment then d.insn.segment else .es }
  let di : RealmodePtr := ⟨low m.frame.es, low m.regs.edi⟩
  ((checkAndEmulateIo e m insn ⟨low m.regs.edx, .input, size, stringCount insn m.regs, some di⟩).2, d.ip)

def outsIo (e : Emulator) (m : Machine) (d : Decoding) (size : OperationSize) : Machine × RealmodePtr :=
  let si : RealmodePtr := ⟨getSegment d.insn.segment m.frame, low m.regs.esi⟩
  ((checkAndEmulateIo e m d.insn ⟨low m.regs.edx, .output, size, stringCount d.insn m.regs, some si⟩).2, d.ip)

/-- The emulation of an opcode, and the last byte that was read. -/
def dispatch (e : Emulator) (m : Machine) (d : Decoding) : Opcode → Option (Machine × RealmodePtr)
  | .cli | .sti | .pushf | .popf | .iret => some (checkAndEmulateInterruptFlagChange e m d.insn, d.ip)
  | .int =>
    let d' := readImmediate m d
    some (dispatchSoftwareInterrupt e m d'.insn d'.insn.immediate, d'.ip)
  | .inb => some (registerIo e m d .input .byte (low m.regs.edx))
  | .inbi8 => some (immediateIo e m d .input .byte)
  | .inw => some (registerIo e m d .input (wideSize d.insn) (low m.regs.edx))
  | .inwi8 => some (immediateIo e m d .input (wideSize d.insn))
  | .outb => some (registerIo e m d .output .byte (low m.regs.edx))
  | .outbi8 => some (immediateIo e m d .output .byte)
  | .outw => some (registerIo e m d .output (wideSize d.insn) (low m.regs.edx))
  | .outwi8 => some (immediateIo e m d .output (wideSize d.insn))
  | .insb => some (insIo e m d .byte)
  | .insw => some (insIo e m d (wideSize d.insn))
  | .outsb => some (outsIo e m d .byte)
  | .outsw => some (outsIo e m d (wideSize d.insn))
  | _ => none

/-- The loop over the prefixes. An inner none is an instruction that is not emulated. -/
def decodeLoop (e : Emulator) (m : Machine) : Nat → Decoding → Option (Option (Machine × RealmodePtr))
  | 0, _ => none
  | fuel + 1, d =>
    match Opcode.ofCode (m.mem d.ip.linear) with
    | none => some none
    | some op =>
      let read := { d with insn := { d.insn with op := some op, length := d.insn.length + 1 } }
      match applyPrefix read op with
      | some d' => decodeLoop e m fuel { d' with ip := d'.ip.add 1 }
      | none => some ((dispatch e m read op).map fun s => (s.1, s.2.add 1))

def generalProtectionException (fuel : Nat) (e : Emulator) (m : Machine) : Option (Bool × Machine) :=
  if m.frame.errorCode ≠ 0 then some (false, m)
  else
    let ip : RealmodePtr := ⟨low m.frame.cs, low m.frame.eip⟩
    (decodeLoop e m fuel ⟨ip, { ip := ip }, false⟩).map fun s =>
      match s with
      | none => (false, m)
      | some (m', ip') =>
        -- an exception has left a pointer of its own
        if ip.segment.setWidth 32 = m'.frame.cs ∧ ip.offset = low m'.frame.eip then
          (true, { m' with frame := { m'.frame with eip := setLow m'.frame.eip ip'.offset } })
        else (true, m')

end Decode

end XviOs.VM86
