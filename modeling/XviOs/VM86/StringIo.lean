import XviOs.VM86.Emulator

namespace XviOs.VM86

/-- The step of the decoder for a prefix. -/
def readOp (d : Decoding) (op : Opcode) : Decoding :=
  { d with insn := { d.insn with op := some op, length := d.insn.length + 1 } }

def afterPrefix (d : Decoding) (op : Opcode) : Decoding :=
  match applyPrefix (readOp d op) op with
  | some d' => { d' with ip := d'.ip.add 1 }
  | none => d

def Opcode.isPrefix (op : Opcode) : Bool :=
  [.o32, .a32, .cs, .ds, .es, .fs, .gs, .ss, .lock, .rep].contains op

def Opcode.isSegment (op : Opcode) : Bool := [.cs, .ds, .es, .fs, .gs, .ss].contains op

def Opcode.isString (op : Opcode) : Bool := [.insb, .insw, .outsb, .outsw].contains op

/-- A string instruction for a port, with its prefixes. -/
structure StringInsn where
  prefixes : List Opcode
  op : Opcode
  isPrefix : ∀ p ∈ prefixes, p.isPrefix
  isString : op.isString

namespace StringInsn

variable (insn : StringInsn) (m : Machine)

def opcodes : List Opcode := insn.prefixes ++ [insn.op]

def a32 : Bool := insn.prefixes.contains .a32

def rep : Bool := insn.prefixes.contains .rep

def direction : Direction := if insn.op = .insb ∨ insn.op = .insw then .input else .output

def size : OperationSize :=
  if insn.op = .insb ∨ insn.op = .outsb then .byte else if insn.prefixes.contains .o32 then .long else .word

/-- The register that points to the string. -/
def index (regs : Regs) : BitVec 32 := if insn.direction = .input then regs.edi else regs.esi

/-- The distance between two locations. -/
def step : Int := if m.frame.flag directionFlag then -insn.size.bytes else insn.size.bytes

/-- The number of accesses. The registers are the wide ones with the prefix for addresses. -/
def count : Nat :=
  if insn.rep then if insn.a32 then m.regs.ecx.toNat else (low m.regs.ecx).toNat else 1

def offset (i : Nat) : Nat :=
  if insn.a32 then (insn.index m.regs + BitVec.ofInt 32 (i * insn.step m)).toNat
  else (low (insn.index m.regs) + BitVec.ofInt 16 (i * insn.step m)).toNat

/-- Some access goes past the segment. -/
def Passes : Prop := ∃ i < insn.count m, 0xFFFF < insn.offset m i + insn.size.bytes - 1

def segment : BitVec 16 :=
  if insn.direction = .input then low m.frame.es
  else getSegment ((insn.prefixes.filter Opcode.isSegment).getLastD .ds) m.frame

end StringInsn

/-- What an access goes from and to. -/
structure Access where
  direction : Direction
  port : BitVec 16
  size : OperationSize
  stringPtr : Option RealmodePtr

def accesses (events : List Event) : List Access :=
  events.filterMap fun event =>
    match event with
    | .transfer t => some ⟨t.direction, t.port, t.size, t.stringPtr⟩
    | _ => none

/-- What the processor does for the instruction when nothing intervenes. -/
structure Performs (insn : StringInsn) (m m' : Machine) (events : List Event) : Prop where
  transfers : accesses events = (List.range (insn.count m)).map fun i =>
    ⟨insn.direction, low m.regs.edx, insn.size, some ⟨insn.segment m, BitVec.ofNat 16 (insn.offset m i)⟩⟩
  pointer : if insn.a32 then insn.index m'.regs = insn.index m.regs + BitVec.ofInt 32 (insn.count m * insn.step m)
    else low (insn.index m'.regs) = low (insn.index m.regs) + BitVec.ofInt 16 (insn.count m * insn.step m)
  counter : if insn.a32 then m'.regs.ecx = if insn.rep then 0 else m.regs.ecx
    else low m'.regs.ecx = if insn.rep then 0 else low m.regs.ecx

/-- The action was left to the emulator, and no exception stopped it. -/
def Event.Emulated : Event → Prop
  | .decision .emulate => True
  | .transfer _ => True
  | _ => False

def Completes (events : List Event) : Prop := ∀ event ∈ events, event.Emulated

def Raises (events : List Event) : Prop := ∃ vector, .segmentOverrun vector ∈ events

structure EmulatesRight (insn : StringInsn) (m m' : Machine) (events : List Event) : Prop where
  performs : Completes events → Performs insn m m' events
  raises : Raises events ↔ insn.Passes m

/-- The processor has stopped at the instruction. -/
structure Fetched (m : Machine) (insn : StringInsn) : Prop where
  errorCode : m.frame.errorCode = 0
  code : ∀ i (h : i < insn.opcodes.length),
    m.mem ((RealmodePtr.mk (low m.frame.cs) (low m.frame.eip)).add i).linear = insn.opcodes[i].code

section Decode

theorem RealmodePtr.add_add (p : RealmodePtr) (x y : Int) : (p.add x).add y = p.add (x + y) := by
  rw [add, add, add, BitVec.ofInt_add, BitVec.add_assoc]

@[simp] theorem RealmodePtr.add_zero (p : RealmodePtr) : p.add 0 = p := by simp [add]

theorem applyPrefix_of_isPrefix {op : Opcode} (h : op.isPrefix) (d : Decoding) :
    ∃ d', applyPrefix d op = some d' ∧ d'.ip = d.ip ∧ d'.insn.a32 = (d.insn.a32 || .a32 == op) ∧
      d'.insn.rep = (d.insn.rep || .rep == op) := by
  cases op <;> first | exact absurd h (by decide) | exact ⟨_, rfl, rfl, by simp, by simp⟩

/-- What the decoder keeps of the prefixes. -/
structure Follows (d d' : Decoding) (ops : List Opcode) : Prop where
  ip : d'.ip = d.ip.add ops.length
  a32 : d'.insn.a32 = (d.insn.a32 || ops.contains .a32)
  rep : d'.insn.rep = (d.insn.rep || ops.contains .rep)

theorem follows_afterPrefixes {ops : List Opcode} (hops : ∀ p ∈ ops, p.isPrefix) (d : Decoding) :
    Follows d (ops.foldl afterPrefix d) ops := by
  induction ops generalizing d with
  | nil => exact ⟨d.ip.add_zero.symm, by simp, by simp⟩
  | cons op ops ih =>
    obtain ⟨d', hd', hip, ha32, hrep⟩ := applyPrefix_of_isPrefix (hops op List.mem_cons_self) (readOp d op)
    have hafter : afterPrefix d op = { d' with ip := d'.ip.add 1 } := by rw [afterPrefix, hd']
    obtain ⟨hip', ha32', hrep'⟩ := ih (fun p hp => hops p (List.mem_cons_of_mem op hp)) (afterPrefix d op)
    rw [hafter] at hip' ha32' hrep'
    rw [List.foldl_cons, hafter]
    constructor
    · rw [hip', RealmodePtr.add_add, hip, List.length_cons, Nat.cast_add_one, add_comm]
      rfl
    · rw [ha32', ha32, List.contains_cons, Bool.or_assoc]
      rfl
    · rw [hrep', hrep, List.contains_cons, Bool.or_assoc]
      rfl

theorem decodeLoop_prefixes {e : Emulator} {m : Machine} {ops : List Opcode} (hops : ∀ p ∈ ops, p.isPrefix)
    {d : Decoding} (hcode : ∀ i (h : i < ops.length), m.mem (d.ip.add i).linear = ops[i].code) (fuel : Nat) :
    decodeLoop e m (ops.length + fuel) d = decodeLoop e m fuel (ops.foldl afterPrefix d) := by
  induction ops generalizing d with
  | nil => rw [List.length_nil, Nat.zero_add, List.foldl_nil]
  | cons op ops ih =>
    obtain ⟨d', hd', hip, -, -⟩ := applyPrefix_of_isPrefix (hops op List.mem_cons_self) (readOp d op)
    have hafter : afterPrefix d op = { d' with ip := d'.ip.add 1 } := by rw [afterPrefix, hd']
    have hbyte : Opcode.ofCode (m.mem d.ip.linear) = some op := by
      have hfirst := hcode 0 (Nat.succ_pos _)
      rw [Nat.cast_zero, RealmodePtr.add_zero] at hfirst
      rw [hfirst]
      exact Opcode.ofCode_code op
    rw [List.length_cons, Nat.add_right_comm, decodeLoop, hbyte]
    dsimp only
    rw [← readOp, hd', List.foldl_cons, hafter]
    apply ih (fun p hp => hops p (List.mem_cons_of_mem op hp))
    intro i hi
    have hrest := hcode (i + 1) (Nat.succ_lt_succ hi)
    rw [hip]
    rw [Nat.cast_add_one, add_comm] at hrest
    rw [RealmodePtr.add_add]
    exact hrest

end Decode

section Access

variable {e : Emulator} {m : Machine} {insn : DecodedInsn} {io : IoParams} {p : RealmodePtr}

/-- The test fails for every offset. -/
theorem validOffset_eq (offset : BitVec 32) (size : OperationSize) : validOffset offset size.bytes = false := by
  apply if_pos
  by_contra h
  rw [not_or, not_lt, not_not] at h
  obtain ⟨hle, hsum⟩ := h
  have hvalue := congrArg BitVec.toNat hsum
  rw [BitVec.toNat_add, BitVec.toNat_ofNat] at hvalue
  have hzero : (0 : BitVec 32).toNat = 0 := rfl
  cases size <;> simp only [OperationSize.bytes, hzero] at hvalue <;> omega

theorem injectInterrupt_events (e : Emulator) (m : Machine) (vector : Nat) :
    (injectInterrupt e m vector).events = m.events := by
  obtain ⟨frame, regs, mem, events⟩ := m
  -- the memories are not to be compared
  change _ = events
  rfl

theorem checkAndRaiseSegmentOverrun_raises (e : Emulator) (m : Machine) (segment : Opcode) (offset : BitVec 32)
    (size : OperationSize) :
    ∃ m' vector, checkAndRaiseSegmentOverrun e m segment offset size.bytes = (true, m') ∧
      m'.events = m.events ++ [.segmentOverrun vector] := by
  have hcall : checkAndRaiseSegmentOverrun e m segment offset size.bytes = _ := if_neg (by simp [validOffset_eq])
  exact ⟨_, _, hcall, injectInterrupt_events _ _ _⟩

/-- With the prefix for addresses nothing but the exception happens. -/
theorem emulateOne_a32 (ha32 : insn.a32) (hio : io.stringPtr.isSome) :
    ∃ m' vector, emulateOne e m insn io = (false, m') ∧ m'.events = m.events ++ [.segmentOverrun vector] := by
  obtain ⟨m', vector, hraise, hevents⟩ := checkAndRaiseSegmentOverrun_raises e m insn.segment
    (if io.direction = .input then m.regs.edi else m.regs.esi) io.size
  refine ⟨m', vector, ?_, hevents⟩
  simp only [emulateOne, ha32, hio, and_self, if_true, hraise]

theorem applyPolicy_events (e : Emulator) (m : Machine) (result : PolicyResult) :
    (applyPolicy e m result).2.events = m.events := by
  cases result with
  | fatal =>
    rw [applyPolicy, fatalError]
    split <;> rfl
  | fault => exact injectInterrupt_events e m protectionVector
  | _ => rfl

theorem emulateOne_eq (ha32 : insn.a32 = false) :
    emulateOne e m insn io =
      if (checkIo e m insn io).1 then (true, transfer e (checkIo e m insn io).2 io)
      else (true, (checkIo e m insn io).2) := by
  have hnot : ¬ (insn.a32 = true ∧ io.stringPtr.isSome = true) := fun h =>
    absurd h.1 (by rw [ha32]; exact Bool.false_ne_true)
  rw [emulateOne, if_neg hnot]
  exact if_neg Bool.false_ne_true

/-- What a call that the policy leaves to the emulator does to the machine. -/
structure Transfers (m m' : Machine) : Prop where
  frame : m'.frame = m.frame
  regs : m'.regs = m.regs
  events : ∃ t, m'.events = m.events ++ [.decision .emulate, .transfer t]

theorem emulateOne_emulate (ha32 : insn.a32 = false) (hio : io.stringPtr = some p)
    (hpolicy : ioPolicy e insn m.frame m.regs io = .emulate) :
    ∃ m', emulateOne e m insn io = (true, m') ∧ Transfers m m' := by
  refine ⟨transfer e (m.record (.decision .emulate)) io, ?_, ?_⟩
  · rw [emulateOne_eq ha32, checkIo, hpolicy]
    rfl
  · rw [transfer, hio]
    cases io.direction with
    | input => exact ⟨rfl, rfl, _, List.append_assoc ..⟩
    | output => exact ⟨rfl, rfl, _, List.append_assoc ..⟩

theorem emulateOne_other (ha32 : insn.a32 = false) (hpolicy : ioPolicy e insn m.frame m.regs io ≠ .emulate) :
    ∃ m', emulateOne e m insn io = (true, m') ∧
      m'.events = m.events ++ [.decision (ioPolicy e insn m.frame m.regs io)] := by
  refine ⟨(checkIo e m insn io).2, ?_, ?_⟩
  · rw [emulateOne_eq ha32, if_neg]
    rw [checkIo]
    cases hresult : ioPolicy e insn m.frame m.regs io with
    | emulate => exact absurd hresult hpolicy
    | _ => exact Bool.false_ne_true
  · rw [checkIo, applyPolicy_events]
    rfl

/-- What the policy decides for an access when all those before it were emulated. -/
def policyAt (e : Emulator) (insn : DecodedInsn) (m : Machine) (io : IoParams) (i : Nat) : PolicyResult :=
  ioPolicy e insn m.frame ((advance insn io.direction (increment m io))^[i] m.regs)
    ((IoParams.next (increment m io))^[i] io)

/-- The accesses of a call that is not stopped. -/
structure Runs (e : Emulator) (insn : DecodedInsn) (m : Machine) (io : IoParams) (n k : Nat) (m' : Machine)
    (events : List Event) : Prop where
  events_eq : m'.events = m.events ++ events
  quiet : ¬ Raises events
  emulated : (∀ i < n, policyAt e insn m io i = .emulate) → Completes events ∧ (accesses events).length = n ∧
    m'.frame = m.frame ∧ m'.regs = (advance insn io.direction (increment m io))^[k] m.regs
  stopped : (∃ i < n, policyAt e insn m io i ≠ .emulate) → ¬ Completes events

theorem emulateOne_runs (ha32 : insn.a32 = false) (hio : io.stringPtr = some p) :
    ∃ m' events, emulateOne e m insn io = (true, m') ∧ Runs e insn m io 1 0 m' events := by
  by_cases hpolicy : ioPolicy e insn m.frame m.regs io = .emulate
  · obtain ⟨m', hcall, hframe, hregs, t, hevents⟩ := emulateOne_emulate ha32 hio hpolicy
    refine ⟨m', _, hcall, hevents, ?_, fun _ => ⟨?_, rfl, hframe, hregs⟩, ?_⟩
    · rintro ⟨vector, hmem⟩
      simp at hmem
    · intro event hmem
      simp only [List.mem_cons, List.not_mem_nil, or_false] at hmem
      obtain rfl | rfl := hmem
      · trivial
      · trivial
    · rintro ⟨i, hi, hne⟩
      obtain rfl : i = 0 := by omega
      exact absurd hpolicy hne
  · obtain ⟨m', hcall, hevents⟩ := emulateOne_other ha32 hpolicy
    refine ⟨m', _, hcall, hevents, ?_, fun hall => absurd (hall 0 Nat.one_pos) hpolicy, fun _ hcompletes => ?_⟩
    · rintro ⟨vector, hmem⟩
      simp at hmem
    · have hdecision : (Event.decision (ioPolicy e insn m.frame m.regs io)).Emulated :=
        hcompletes _ (List.mem_singleton_self _)
      cases hresult : ioPolicy e insn m.frame m.regs io with
      | emulate => exact hpolicy hresult
      | ignore frame regs => rw [hresult] at hdecision; exact hdecision
      | fault => rw [hresult] at hdecision; exact hdecision
      | fatal => rw [hresult] at hdecision; exact hdecision

theorem completes_append {events events' : List Event} :
    Completes (events ++ events') ↔ Completes events ∧ Completes events' := List.forall_mem_append

theorem raises_append {events events' : List Event} (h : ¬ Raises events) (h' : ¬ Raises events') :
    ¬ Raises (events ++ events') := by
  rintro ⟨vector, hmem⟩
  obtain hmem | hmem := List.mem_append.mp hmem
  · exact h ⟨vector, hmem⟩
  · exact h' ⟨vector, hmem⟩

/-- What follows an access that was emulated. -/
theorem policyAt_succ {m' : Machine} (hframe : m'.frame = m.frame)
    (hregs : m'.regs = advance insn io.direction (increment m io) m.regs) (i : Nat) :
    policyAt e insn m' (io.next (increment m io)) i = policyAt e insn m io (i + 1) := by
  have hincrement : increment m' (io.next (increment m io)) = increment m io := by
    rw [increment, hframe]
    rfl
  rw [policyAt, hincrement, hframe, hregs]
  rfl

theorem repeatOne_runs (ha32 : insn.a32 = false) (hio : io.stringPtr.isSome) (n : Nat) :
    ∃ m' events, repeatOne e insn n m io = (true, m') ∧ Runs e insn m io n n m' events := by
  induction n generalizing m io with
  | zero =>
    refine ⟨m, [], rfl, (List.append_nil _).symm, ?_, fun _ => ⟨?_, rfl, rfl, rfl⟩, ?_⟩
    · rintro ⟨vector, hmem⟩
      exact absurd hmem List.not_mem_nil
    · exact fun event hmem => absurd hmem List.not_mem_nil
    · rintro ⟨i, hi, -⟩
      exact absurd hi (Nat.not_lt_zero i)
  | succ n ih =>
    obtain ⟨p, hp⟩ := Option.isSome_iff_exists.mp hio
    obtain ⟨m1, events1, hcall, hruns⟩ : ∃ m' events, emulateOne e m insn io = (true, m') ∧
      Runs e insn m io 1 0 m' events := emulateOne_runs ha32 hp
    let m2 : Machine := { m1 with regs := advance insn io.direction (increment m1 io) m1.regs }
    have hnext : (io.next (increment m1 io)).stringPtr.isSome := by
      rw [IoParams.next, Option.isSome_map]
      exact hio
    obtain ⟨m', events', hcall', hruns'⟩ : ∃ m' events, repeatOne e insn n m2 (io.next (increment m1 io)) = (true, m') ∧
      Runs e insn m2 (io.next (increment m1 io)) n n m' events := ih hnext
    have hshift (h : policyAt e insn m io 0 = .emulate) : Completes events1 ∧ (accesses events1).length = 1 ∧
        m2.frame = m.frame ∧ m2.regs = advance insn io.direction (increment m io) m.regs ∧
        increment m1 io = increment m io := by
      obtain ⟨hcompletes, hlength, hframe, hregs⟩ := hruns.emulated fun i hi => by
        obtain rfl : i = 0 := Nat.lt_one_iff.mp hi
        exact h
      have hincrement : increment m1 io = increment m io := by rw [increment, hframe, increment]
      have hsame : m1.regs = m.regs := hregs
      exact ⟨hcompletes, hlength, hframe, by rw [← hsame, ← hincrement], hincrement⟩
    refine ⟨m', events1 ++ events', ?_, ?_, raises_append hruns.quiet hruns'.quiet, ?_, ?_⟩
    · rw [repeatOne, hcall]
      exact hcall'
    · rw [hruns'.events_eq, ← List.append_assoc]
      exact congrArg (· ++ events') hruns.events_eq
    · intro hall
      obtain ⟨hcompletes, hlength, hframe, hregs, hincrement⟩ := hshift (hall 0 (Nat.succ_pos n))
      rw [hincrement] at hruns'
      obtain ⟨hcompletes', hlength', hframe', hregs'⟩ := hruns'.emulated fun i hi => by
        rw [policyAt_succ hframe hregs]
        exact hall (i + 1) (Nat.succ_lt_succ hi)
      refine ⟨completes_append.mpr ⟨hcompletes, hcompletes'⟩, ?_, hframe'.trans hframe, ?_⟩
      · rw [accesses, List.filterMap_append, List.length_append]
        exact (congrArg₂ (· + ·) hlength hlength').trans (Nat.add_comm 1 n)
      · have hsame : increment m2 (io.next (increment m io)) = increment m io := by
          rw [increment, hframe]
          rfl
        rw [hregs', hsame, hregs]
        rfl
    · rintro ⟨i, hi, hne⟩ hcompletes
      rw [completes_append] at hcompletes
      by_cases h : policyAt e insn m io 0 = .emulate
      · obtain ⟨-, -, hframe, hregs, hincrement⟩ := hshift h
        rw [hincrement] at hruns'
        cases i with
        | zero => exact hne h
        | succ i =>
          apply hruns'.stopped ⟨i, Nat.lt_of_succ_lt_succ hi, ?_⟩ hcompletes.2
          rw [policyAt_succ hframe hregs]
          exact hne
      · exact hruns.stopped ⟨0, Nat.one_pos, h⟩ hcompletes.1

/-- The number of accesses that are made. -/
def accessCount (io : IoParams) : Nat := if io.count > 1 then io.count.toNat else 1

/-- The parameters of the first of them. -/
def firstAccess (io : IoParams) : IoParams := if io.count > 1 then { io with count := 1 } else io

theorem checkAndEmulateIo_runs (ha32 : insn.a32 = false) (hio : io.stringPtr = some p) :
    ∃ m' events, checkAndEmulateIo e m insn io = (true, m') ∧
      Runs e insn m (firstAccess io) (accessCount io) (if io.count > 1 then io.count.toNat else 0) m' events := by
  by_cases hcount : io.count > 1
  · rw [checkAndEmulateIo, if_pos ⟨by rw [hio]; rfl, hcount⟩, firstAccess, if_pos hcount, accessCount, if_pos hcount,
      if_pos hcount]
    exact repeatOne_runs ha32 (by rw [hio]; rfl) _
  · rw [checkAndEmulateIo, if_neg fun h => hcount h.2, firstAccess, if_neg hcount, accessCount, if_neg hcount,
      if_neg hcount]
    exact emulateOne_runs ha32 hio

theorem repeatOne_a32 (ha32 : insn.a32) (hio : io.stringPtr.isSome) (n : Nat) :
    ∃ m' vector, repeatOne e insn (n + 1) m io = (false, m') ∧ m'.events = m.events ++ [.segmentOverrun vector] := by
  obtain ⟨m', vector, hcall, hevents⟩ : ∃ m' vector, emulateOne e m insn io = (false, m') ∧
    m'.events = m.events ++ [.segmentOverrun vector] := emulateOne_a32 ha32 hio
  exact ⟨m', vector, by rw [repeatOne, hcall], hevents⟩

theorem checkAndEmulateIo_a32 (ha32 : insn.a32) (hio : io.stringPtr.isSome) :
    ∃ m' vector, checkAndEmulateIo e m insn io = (false, m') ∧ m'.events = m.events ++ [.segmentOverrun vector] := by
  by_cases hcount : io.count > 1
  · have hpos : 1 < io.count.toNat := hcount
    obtain ⟨n, hn⟩ : ∃ n, io.count.toNat = n + 1 := ⟨io.count.toNat - 1, by omega⟩
    have hone : ({ io with count := 1 } : IoParams).stringPtr.isSome := hio
    rw [checkAndEmulateIo, if_pos ⟨hio, hcount⟩, hn]
    exact repeatOne_a32 ha32 hone n
  · rw [checkAndEmulateIo, if_neg fun h => hcount h.2]
    exact emulateOne_a32 ha32 hio

end Access

namespace StringInsn

variable (insn : StringInsn) (m : Machine)

/-- The state of the decoder at the opcode. -/
def decoding : Decoding :=
  let ip : RealmodePtr := ⟨low m.frame.cs, low m.frame.eip⟩
  readOp (insn.prefixes.foldl afterPrefix ⟨ip, { ip := ip }, false⟩) insn.op

/-- What the hook is given of the instruction. -/
def decoded : DecodedInsn :=
  let d := insn.decoding m
  if insn.direction = .input then { d.insn with segment := if d.explicitSegment then d.insn.segment else .es } else d.insn

def params : IoParams where
  port := low m.regs.edx
  direction := insn.direction
  size := if insn.op = .insb ∨ insn.op = .outsb then .byte else wideSize (insn.decoding m).insn
  count := stringCount (insn.decoding m).insn m.regs
  stringPtr := some (if insn.direction = .input then ⟨low m.frame.es, low m.regs.edi⟩
    else ⟨getSegment (insn.decoding m).insn.segment m.frame, low m.regs.esi⟩)

/-- The policy leaves the accesses that the code makes to the emulator. -/
def Allowed (e : Emulator) : Prop :=
  ∀ i < accessCount (insn.params m), policyAt e (insn.decoded m) m (firstAccess (insn.params m)) i = .emulate

variable {insn m}

theorem decoding_flags : (insn.decoding m).insn.a32 = insn.a32 ∧ (insn.decoding m).insn.rep = insn.rep := by
  obtain ⟨-, ha32, hrep⟩ := follows_afterPrefixes insn.isPrefix
    ⟨⟨low m.frame.cs, low m.frame.eip⟩, { ip := ⟨low m.frame.cs, low m.frame.eip⟩ }, false⟩
  exact ⟨ha32, hrep⟩

theorem decoded_a32 : (insn.decoded m).a32 = insn.a32 := by
  rw [← decoding_flags.1, decoded]
  split <;> rfl

/-- The four opcodes are told apart by their parameters only. -/
theorem dispatch_eq (e : Emulator) :
    dispatch e m (insn.decoding m) insn.op =
      some ((checkAndEmulateIo e m (insn.decoded m) (insn.params m)).2, (insn.decoding m).ip) := by
  have hstring := insn.isString
  rw [decoded, params, direction]
  cases hop : insn.op <;> first | (rw [hop] at hstring; exact absurd hstring (by decide)) | rfl

theorem decodeLoop_eq (e : Emulator) (h : Fetched m insn) {fuel : Nat} (hfuel : insn.prefixes.length < fuel) :
    ∃ ip, decodeLoop e m fuel ⟨⟨low m.frame.cs, low m.frame.eip⟩, { ip := ⟨low m.frame.cs, low m.frame.eip⟩ }, false⟩ =
      some (some ((checkAndEmulateIo e m (insn.decoded m) (insn.params m)).2, ip)) := by
  obtain ⟨rest, rfl⟩ : ∃ rest, fuel = insn.prefixes.length + (rest + 1) := ⟨fuel - insn.prefixes.length - 1, by omega⟩
  let start : Decoding := ⟨⟨low m.frame.cs, low m.frame.eip⟩, { ip := ⟨low m.frame.cs, low m.frame.eip⟩ }, false⟩
  have hprefixes : ∀ i (hi : i < insn.prefixes.length), m.mem (start.ip.add i).linear = insn.prefixes[i].code := by
    intro i hi
    have hcode := h.code i (by rw [opcodes, List.length_append]; omega)
    rw [hcode]
    congr 1
    exact List.getElem_append_left hi
  have hbyte : Opcode.ofCode (m.mem (insn.prefixes.foldl afterPrefix start).ip.linear) = some insn.op := by
    have hlt : insn.prefixes.length < insn.opcodes.length := by
      rw [opcodes, List.length_append, List.length_singleton]
      exact Nat.lt_succ_self _
    have hcode := h.code insn.prefixes.length hlt
    have hop : insn.opcodes[insn.prefixes.length] = insn.op := List.getElem_concat_length rfl _
    rw [hop] at hcode
    rw [(follows_afterPrefixes insn.isPrefix start).ip, hcode]
    exact Opcode.ofCode_code insn.op
  have hnone : applyPrefix (insn.decoding m) insn.op = none := by
    have hstring := insn.isString
    cases hop : insn.op <;> first | (rw [hop] at hstring; exact absurd hstring (by decide)) | rfl
  refine ⟨(insn.decoding m).ip.add 1, ?_⟩
  have hdispatch : dispatch e m (insn.decoding m) insn.op = _ := dispatch_eq e
  rw [decoding, readOp] at hnone hdispatch
  rw [decodeLoop_prefixes insn.isPrefix hprefixes, decodeLoop, hbyte]
  dsimp only
  rw [hnone]
  dsimp only
  rw [hdispatch]
  rfl

/-- The exception handler does nothing to the registers or the ports on its own. -/
theorem generalProtectionException_eq (e : Emulator) (h : Fetched m insn) {fuel : Nat}
    (hfuel : insn.prefixes.length < fuel) :
    ∃ m', generalProtectionException fuel e m = some (true, m') ∧
      m'.regs = (checkAndEmulateIo e m (insn.decoded m) (insn.params m)).2.regs ∧
      m'.events = (checkAndEmulateIo e m (insn.decoded m) (insn.params m)).2.events := by
  obtain ⟨ip, hloop⟩ := decodeLoop_eq e h hfuel
  rw [generalProtectionException, if_neg (not_not.mpr h.errorCode)]
  dsimp only
  rw [hloop, Option.map_some]
  dsimp only
  split
  · exact ⟨_, rfl, rfl, rfl⟩
  · exact ⟨_, rfl, rfl, rfl⟩

theorem iterate_advance_ecx (d : DecodedInsn) (direction : Direction) (x : Int) (n : Nat) (regs : Regs) :
    ((advance d direction x)^[n] regs).ecx = regs.ecx := by
  induction n generalizing regs with
  | zero => rfl
  | succ n ih =>
    rw [Function.iterate_succ_apply, ih]
    cases direction <;> rfl

theorem accessCount_pos (params : IoParams) : 0 < accessCount params := by
  rw [accessCount]
  split
  · next h =>
    have hlt : 1 < params.count.toNat := h
    omega
  · exact Nat.one_pos

/-- The registers are left wrong after every number of accesses. -/
theorem not_performs (ha32 : insn.a32 = false) {m' : Machine} {events : List Event}
    (hlength : (accesses events).length = accessCount (insn.params m)) {d : DecodedInsn} {x : Int}
    (hregs : m'.regs = (advance d insn.direction x)^[if (insn.params m).count > 1 then (insn.params m).count.toNat
      else 0] m.regs) : ¬ Performs insn m m' events := by
  intro h
  by_cases hrep : insn.rep
  · have hcounter := h.counter
    rw [ha32, hrep, if_neg Bool.false_ne_true, if_pos rfl, hregs, iterate_advance_ecx] at hcounter
    have hcount : insn.count m = 0 := by
      rw [count, if_pos hrep, ha32, if_neg Bool.false_ne_true, hcounter]
      rfl
    have htransfers := congrArg List.length h.transfers
    rw [List.length_map, List.length_range, hcount, hlength] at htransfers
    exact absurd htransfers (accessCount_pos _).ne'
  · have hone : (insn.params m).count = 1 := by
      rw [params, stringCount, decoding_flags.2, if_neg hrep]
    have hcount : insn.count m = 1 := if_neg hrep
    have hsame : m'.regs = m.regs := by
      rw [hregs, hone]
      rfl
    have hpointer := h.pointer
    rw [ha32, if_neg Bool.false_ne_true, hsame, hcount, BitVec.self_eq_add_right, step, Nat.cast_one, one_mul] at hpointer
    cases hsize : insn.size <;> rw [hsize] at hpointer <;> split at hpointer <;> exact absurd hpointer (by decide)

theorem stringPtr_isSome : (insn.params m).stringPtr.isSome := rfl

/-- Every access that is made is left to the emulator: its result is a wrong one. -/
theorem emulated_wrong (e : Emulator) (h : Fetched m insn) {fuel : Nat} (hfuel : insn.prefixes.length < fuel)
    (ha32 : insn.a32 = false) :
    ∃ m' events, generalProtectionException fuel e m = some (true, m') ∧ m'.events = m.events ++ events ∧
      ¬ Raises events ∧ (insn.Allowed m e → ¬ EmulatesRight insn m m' events) ∧
      (¬ insn.Allowed m e → ¬ Completes events) := by
  obtain ⟨m', hcall, hregs, hevents⟩ := generalProtectionException_eq e h hfuel
  have hsome : (insn.params m).stringPtr.isSome := stringPtr_isSome
  obtain ⟨p, hp⟩ := Option.isSome_iff_exists.mp hsome
  obtain ⟨m1, events, hio, hruns⟩ := checkAndEmulateIo_runs (e := e) (decoded_a32.trans ha32) hp
  rw [hio] at hregs hevents
  refine ⟨m', events, hcall, hevents.trans hruns.events_eq, hruns.quiet, fun hall hright => ?_, fun hnot => ?_⟩
  · obtain ⟨hcompletes, hlength, -, hadvanced⟩ := hruns.emulated hall
    have hdirection : (firstAccess (insn.params m)).direction = insn.direction := by
      rw [firstAccess]
      split <;> rfl
    rw [hdirection] at hadvanced
    exact not_performs ha32 hlength (hregs.trans hadvanced) (hright.performs hcompletes)
  · apply hruns.stopped
    simpa [Allowed] using hnot

/-- The emulation is right exactly when the instruction has the prefix for addresses and goes past the segment, or it
has not, stays in the segment and is not left to the emulator. -/
theorem emulatesRight_iff (e : Emulator) (m : Machine) (insn : StringInsn) (h : Fetched m insn) {fuel : Nat}
    (hfuel : insn.prefixes.length < fuel) :
    ∃ m' events, generalProtectionException fuel e m = some (true, m') ∧ m'.events = m.events ++ events ∧
      (EmulatesRight insn m m' events ↔
        (insn.a32 ∧ insn.Passes m) ∨ (insn.a32 = false ∧ ¬ insn.Passes m ∧ ¬ insn.Allowed m e)) := by
  cases ha32 : insn.a32 with
  | false =>
    obtain ⟨m', events, hcall, hevents, hquiet, hallowed, hstopped⟩ := emulated_wrong e h hfuel ha32
    refine ⟨m', events, hcall, hevents, fun hright => .inr ⟨rfl, ?_, fun hall => hallowed hall hright⟩, ?_⟩
    · exact fun hpasses => hquiet (hright.raises.mpr hpasses)
    · rintro (⟨hfalse, -⟩ | ⟨-, hpasses, hnot⟩)
      · exact absurd hfalse Bool.false_ne_true
      · exact ⟨fun hcompletes => absurd hcompletes (hstopped hnot), iff_of_false hquiet hpasses⟩
  | true =>
    obtain ⟨m', hcall, -, hevents⟩ := generalProtectionException_eq e h hfuel
    have hsome : (insn.params m).stringPtr.isSome := stringPtr_isSome
    obtain ⟨m1, vector, hio, hraised⟩ := checkAndEmulateIo_a32 (e := e) (decoded_a32.trans ha32) hsome
    rw [hio] at hevents
    have hraises : Raises [.segmentOverrun vector] := ⟨vector, List.mem_singleton_self _⟩
    refine ⟨m', [.segmentOverrun vector], hcall, hevents.trans hraised, fun hright => ?_, ?_⟩
    · exact .inl ⟨rfl, hright.raises.mp hraises⟩
    · rintro (⟨-, hpasses⟩ | ⟨hfalse, -⟩)
      · exact ⟨fun hcompletes => absurd (hcompletes _ (List.mem_singleton_self _)) id, iff_of_true hraises hpasses⟩
      · exact absurd hfalse.symm Bool.false_ne_true

def insb : StringInsn where
  prefixes := []
  op := .insb
  isPrefix := fun _ hp => absurd hp List.not_mem_nil
  isString := rfl

/-- A machine that has stopped at the instruction. -/
def atInsb : Machine where
  frame := ⟨0, 0, 0, 0, 0, 0, 0, 0, 0, 0⟩
  regs := ⟨0, 0, 0, 0, 0, 0, 0, 0⟩
  mem := fun x => if x = 0 then Opcode.insb.code else 0
  events := []

/-- An emulator that is left everything. -/
def permissive : Emulator where
  ivt := 0
  softwareInterruptHook := none
  fatalErrorHook := none
  interruptFlagHook := none
  ioHook := some fun _ _ _ _ => .emulate
  answer := fun _ _ _ => 0

theorem fetched_insb : Fetched atInsb insb := by
  refine ⟨rfl, fun i h => ?_⟩
  obtain rfl : i = 0 := Nat.lt_one_iff.mp h
  rfl

theorem emulatesRight_insb :
    ∃ m' events, generalProtectionException 1 permissive atInsb = some (true, m') ∧
      m'.events = atInsb.events ++ events ∧ (EmulatesRight insb atInsb m' events ↔
        (insb.a32 ∧ insb.Passes atInsb) ∨ (insb.a32 = false ∧ ¬ insb.Passes atInsb ∧ ¬ insb.Allowed atInsb permissive)) :=
  emulatesRight_iff permissive atInsb insb fetched_insb Nat.one_pos

/-- The index is not advanced. -/
theorem emulatesRight_not_insb :
    ¬ ∀ (e : Emulator) (m : Machine) (insn : StringInsn), Fetched m insn → ∀ fuel > insn.prefixes.length,
      ∃ m' events, generalProtectionException fuel e m = some (true, m') ∧ m'.events = m.events ++ events ∧
        EmulatesRight insn m m' events := by
  intro h
  obtain ⟨m', events, hcall, hevents, hright⟩ := h permissive atInsb insb fetched_insb 1 Nat.one_pos
  obtain ⟨m1, events1, hcall1, hevents1, -, hallowed, -⟩ := emulated_wrong permissive fetched_insb Nat.one_pos rfl
  rw [hcall, Option.some_inj, Prod.mk.injEq] at hcall1
  obtain ⟨-, rfl⟩ := hcall1
  obtain rfl := List.append_cancel_left (hevents.symm.trans hevents1)
  exact hallowed (fun _ _ => rfl) hright

end StringInsn

end XviOs.VM86
