import XviOs.Deflate.BitstreamSpec

namespace XviOs.Deflate.Bitstream

/-- A call of the reader. -/
inductive Call
  | readBit
  | read (count : Nat)

namespace Call

def bits : Call → Nat
  | readBit => 1
  | read count => count

def run : Call → Bitstream → Except Fault (BitVec 32 × Bitstream)
  | readBit, s => s.readBit
  | read count, s => s.read count

/-- The calls of `read` that the results have room for. -/
def Allowed : Call → Prop
  | readBit => True
  | read count => 1 ≤ count ∧ count ≤ 32

theorem Allowed.bits_pos {call : Call} (h : call.Allowed) : 0 < call.bits := by
  cases call with
  | readBit => exact Nat.one_pos
  | read count => exact h.1

end Call

/-- A stream over a buffer with no data behind it: there is no callback, or it has nothing more to give. -/
def stream (buffer : List UInt8) (callback : Bool) : Bitstream :=
  if callback then (setInput {} buffer).setMoreInputFn [] else setInput {} buffer

/-- The calls take the bits of the buffer from position `p` on, and a call that there are too few bits for changes
nothing. -/
def Delivers (bytes : List UInt8) : Nat → List Call → Bitstream → Prop
  | p, [], s => s.offset = p ∧ p ≤ 8 * bytes.length
  | p, call :: calls, s => (s.offset = p ∧ p ≤ 8 * bytes.length) ∧ ∃ v t, call.run s = .ok (v, t) ∧
      if p + call.bits ≤ 8 * bytes.length then IsBits bytes p call.bits v ∧ Delivers bytes (p + call.bits) calls t
      else v = 0 ∧ t = s ∧ Delivers bytes p calls t

section Calls

variable {buffer : List UInt8} {callback : Bool} {call : Call} {p : Nat}

theorem stream_at (buffer : List UInt8) (callback : Bool) (p : Nat) : ((stream buffer callback).moveTo p).At p := by
  cases callback <;> exact ⟨rfl, rfl⟩

theorem buffer_stream (buffer : List UInt8) (callback : Bool) : (stream buffer callback).buffer = buffer := by
  cases callback <;> rfl

theorem isBits_one (bytes : List UInt8) (p : Nat) :
    IsBits bytes p 1 (BitVec.setWidth 32 (BitVec.ofBool (bitAt bytes p))) := by
  intro i hi
  have h := getLsbD_bit_shiftLeft (bitAt bytes p) (k := 0) hi
  rw [BitVec.shiftLeft_zero] at h
  rw [h]
  by_cases h0 : i = 0
  · rw [h0]
    rfl
  · rw [decide_eq_false h0, decide_eq_false (show ¬ i < 1 by omega), Bool.false_and, Bool.false_and]

/-- A call that there are enough bits for. -/
theorem run_of_le (callback : Bool) (hcall : call.Allowed) (hp : p + call.bits ≤ 8 * buffer.length) :
    ∃ v, call.run ((stream buffer callback).moveTo p) = .ok (v, (stream buffer callback).moveTo (p + call.bits)) ∧
      IsBits buffer p call.bits v := by
  have hat := stream_at buffer callback p
  have hbuffer : ((stream buffer callback).moveTo p).buffer = buffer := buffer_stream buffer callback
  cases call with
  | readBit =>
      have hread := readBit_at hat (by rw [hbuffer]; exact hp)
      rw [hbuffer] at hread
      exact ⟨_, hread, isBits_one buffer p⟩
  | read count =>
      obtain ⟨v, hread, hbits⟩ := read_at hat hcall.2 (by rw [hbuffer]; exact hp)
      rw [hbuffer] at hbits
      exact ⟨v, hread, hbits⟩

/-- Without a callback, a call at the end of a buffer with something in it changes nothing. -/
theorem run_short (hne : buffer ≠ []) (hle : p ≤ 8 * buffer.length) (hp : ¬ p + call.bits ≤ 8 * buffer.length) :
    call.run ((stream buffer false).moveTo p) = .ok (0, (stream buffer false).moveTo p) := by
  cases call with
  | readBit =>
      have hpos : 0 < buffer.length := List.length_pos_of_ne_nil hne
      have hlen : p = 8 * buffer.length := by
        change ¬ p + 1 ≤ _ at hp
        omega
      have hend : (p : Int) > 0 ∧ (p : Int) / 8 = buffer.length := by omega
      change readBit { stream buffer false with offset := p } = _
      rw [readBit]
      change (if (p : Int) > 0 ∧ (p : Int) / 8 = buffer.length then _ else _) = _
      rw [if_pos hend]
      rfl
  | read count => exact read_short (stream_at buffer false p) rfl (not_le.mp hp)

/-- The answer of a callback that has nothing more, after the offset has been moved back by the buffer. -/
theorem refillBuffer_exhausted {s : Bitstream} (hmore : s.more = some []) :
    s.refillBuffer = s.saveOverflow.map fun overflow =>
      (false, { s with offset := s.offset - 8 * s.buffer.length, overflow := overflow }) := by
  obtain ⟨buffer, offset, atEnd, overflow, more⟩ := s
  change more = some [] at hmore
  subst hmore
  rw [refillBuffer]
  cases saveOverflow _ <;> rfl

theorem canReadBits_exhausted {s : Bitstream} {count : Nat} (hmore : s.more = some []) (hcount : count ≤ 32)
    (hlt : ¬ (count : Int) ≤ 8 * s.buffer.length - s.offset) : s.canReadBits count = s.refillBuffer := by
  rw [canReadBits, canReadBitsFrom, if_neg (by exact not_lt.mpr hcount), if_neg hlt, refillBuffer_exhausted hmore]
  cases s.saveOverflow <;> rfl

/-- With a callback, a call that there are too few bits for ends in a refill. -/
theorem run_exhausted (hcall : call.Allowed) (hle : p ≤ 8 * buffer.length) (hp : ¬ p + call.bits ≤ 8 * buffer.length)
    (hread : call = .readBit → buffer ≠ []) :
    call.run ((stream buffer true).moveTo p) = ((stream buffer true).moveTo p).refillBuffer.map fun r => (0, r.2) := by
  have hmore : ((stream buffer true).moveTo p).more = some [] := rfl
  cases call with
  | readBit =>
      have hpos : 0 < buffer.length := List.length_pos_of_ne_nil (hread rfl)
      have hlen : p = 8 * buffer.length := by
        change ¬ p + 1 ≤ _ at hp
        omega
      have hend : (p : Int) > 0 ∧ (p : Int) / 8 = buffer.length := by omega
      change readBit ((stream buffer true).moveTo p) = _
      rw [readBit]
      change (if (p : Int) > 0 ∧ (p : Int) / 8 = buffer.length then _ else _) = _
      rw [if_pos hend, refillBuffer_exhausted hmore]
      cases ((stream buffer true).moveTo p).saveOverflow <;> rfl
  | read count =>
      have hlt : ¬ (count : Int) ≤ 8 * buffer.length - p := by
        change ¬ p + count ≤ _ at hp
        omega
      change read ((stream buffer true).moveTo p) count = _
      rw [read, canReadBits_exhausted hmore hcall.2 hlt, refillBuffer_exhausted hmore]
      cases ((stream buffer true).moveTo p).saveOverflow <;> rfl

/-- The refill moves the offset, so that the call changes the stream. -/
theorem run_exhausted_ne (hne : buffer ≠ []) (hcall : call.Allowed) (hle : p ≤ 8 * buffer.length)
    (hp : ¬ p + call.bits ≤ 8 * buffer.length) (v : BitVec 32) :
    call.run ((stream buffer true).moveTo p) ≠ .ok (v, (stream buffer true).moveTo p) := by
  have hmore : ((stream buffer true).moveTo p).more = some [] := rfl
  rw [run_exhausted hcall hle hp fun _ => hne, refillBuffer_exhausted hmore]
  cases ((stream buffer true).moveTo p).saveOverflow with
  | error e => nofun
  | ok overflow =>
      intro h
      have hoffset := congrArg (fun r => r.2.offset) (Except.ok.inj h)
      have hpos : 0 < buffer.length := List.length_pos_of_ne_nil hne
      change (p : Int) - 8 * buffer.length = p at hoffset
      omega

/-- The first bit of an empty buffer is outside of it. -/
theorem readBit_empty (callback : Bool) : Call.readBit.run (stream [] callback) = .error .outOfBounds := by
  cases callback <;> rfl

theorem read_empty {count : Nat} (hcall : (Call.read count).Allowed) (callback : Bool) :
    (Call.read count).run (stream [] callback) = .ok (0, stream [] callback) := by
  have hpos := hcall.1
  have hlt : ¬ 0 + count ≤ 8 * ([] : List UInt8).length := by
    rw [List.length_nil]
    omega
  cases callback with
  | false => exact read_short (stream_at [] false 0) rfl (not_le.mp hlt)
  | true => exact run_exhausted hcall (Nat.zero_le _) hlt Call.noConfusion

end Calls

section Runs

variable {buffer : List UInt8} {callback : Bool} {calls : List Call} {p : Nat}

/-- No single bit is asked of an empty buffer, and a callback is never asked for more than there is. -/
def WithinBuffer (buffer : List UInt8) (callback : Bool) (calls : List Call) (p : Nat) : Prop :=
  if buffer = [] then Call.readBit ∉ calls
  else callback = true → p + (calls.map Call.bits).sum ≤ 8 * buffer.length

theorem delivers_cons_of_le {call : Call} (hcall : call.Allowed) (hp : p + call.bits ≤ 8 * buffer.length) :
    Delivers buffer p (call :: calls) ((stream buffer callback).moveTo p) ↔
      Delivers buffer (p + call.bits) calls ((stream buffer callback).moveTo (p + call.bits)) := by
  obtain ⟨v, hrun, hbits⟩ := run_of_le callback hcall hp
  rw [Delivers]
  constructor
  · rintro ⟨-, w, t, hwt, hrest⟩
    rw [hrun] at hwt
    obtain ⟨rfl, rfl⟩ := Prod.mk.inj (Except.ok.inj hwt)
    rw [if_pos hp] at hrest
    exact hrest.2
  · intro h
    refine ⟨⟨rfl, by omega⟩, v, _, hrun, ?_⟩
    rw [if_pos hp]
    exact ⟨hbits, h⟩

theorem delivers_cons_of_short {call : Call} (hle : p ≤ 8 * buffer.length) (hp : ¬ p + call.bits ≤ 8 * buffer.length)
    (hrun : call.run ((stream buffer callback).moveTo p) = .ok (0, (stream buffer callback).moveTo p)) :
    Delivers buffer p (call :: calls) ((stream buffer callback).moveTo p) ↔
      Delivers buffer p calls ((stream buffer callback).moveTo p) := by
  rw [Delivers]
  constructor
  · rintro ⟨-, w, t, hwt, hrest⟩
    rw [hrun] at hwt
    obtain ⟨rfl, rfl⟩ := Prod.mk.inj (Except.ok.inj hwt)
    rw [if_neg hp] at hrest
    exact hrest.2.2
  · intro h
    refine ⟨⟨rfl, hle⟩, 0, _, hrun, ?_⟩
    rw [if_neg hp]
    exact ⟨rfl, rfl, h⟩

theorem not_delivers_cons {call : Call} {s : Bitstream} (hp : ¬ p + call.bits ≤ 8 * buffer.length)
    (hrun : ∀ v, call.run s ≠ .ok (v, s)) : ¬ Delivers buffer p (call :: calls) s := by
  rw [Delivers]
  rintro ⟨-, v, t, hvt, hrest⟩
  rw [if_neg hp] at hrest
  rw [hrest.2.1] at hvt
  exact hrun v hvt

/-- A call on an empty buffer. -/
theorem delivers_empty_iff {call : Call} (hcall : call.Allowed)
    (ih : Delivers [] 0 calls ((stream [] callback).moveTo 0) ↔ WithinBuffer [] callback calls 0) :
    Delivers [] 0 (call :: calls) ((stream [] callback).moveTo 0) ↔ WithinBuffer [] callback (call :: calls) 0 := by
  have hstart : (stream [] callback).moveTo 0 = stream [] callback := by cases callback <;> rfl
  have hp : ¬ 0 + call.bits ≤ 8 * ([] : List UInt8).length := not_le.mpr (by
    rw [Nat.zero_add]
    exact hcall.bits_pos)
  cases call with
  | readBit =>
      refine iff_of_false (not_delivers_cons hp fun v => ?_) ?_
      · rw [hstart, readBit_empty]
        nofun
      · rw [WithinBuffer, if_pos rfl]
        exact fun h => h List.mem_cons_self
  | read count =>
      have hrun := read_empty hcall callback
      rw [← hstart] at hrun
      rw [delivers_cons_of_short (Nat.zero_le _) hp hrun, ih, WithinBuffer, WithinBuffer, if_pos rfl, if_pos rfl]
      simp

theorem delivers_iff (hcalls : ∀ call ∈ calls, call.Allowed) (hle : p ≤ 8 * buffer.length) :
    Delivers buffer p calls ((stream buffer callback).moveTo p) ↔ WithinBuffer buffer callback calls p := by
  induction calls generalizing p with
  | nil =>
      rw [Delivers, WithinBuffer]
      refine iff_of_true ⟨rfl, hle⟩ ?_
      split
      · exact List.not_mem_nil
      · exact fun _ => hle
  | cons call calls ih =>
      have hcall := hcalls call List.mem_cons_self
      have hrest : ∀ call ∈ calls, call.Allowed := fun c hc => hcalls c (List.mem_cons_of_mem _ hc)
      by_cases hp : p + call.bits ≤ 8 * buffer.length
      · have hne : buffer ≠ [] := by
          rintro rfl
          exact absurd (hcall.bits_pos.trans_le (Nat.le_add_left _ p)) (not_lt.mpr hp)
        rw [delivers_cons_of_le hcall hp, ih hrest hp, WithinBuffer, WithinBuffer, if_neg hne, if_neg hne,
          List.map_cons, List.sum_cons, Nat.add_assoc]
      · by_cases hne : buffer = []
        · subst hne
          obtain rfl : p = 0 := Nat.le_zero.mp hle
          exact delivers_empty_iff hcall (ih hrest hle)
        · cases callback with
          | false =>
              rw [delivers_cons_of_short hle hp (run_short hne hle hp), ih hrest hle, WithinBuffer, WithinBuffer,
                if_neg hne, if_neg hne]
              exact iff_of_true nofun nofun
          | true =>
              rw [WithinBuffer, if_neg hne, List.map_cons, List.sum_cons]
              refine iff_of_false ?_ fun h => ?_
              · exact not_delivers_cons hp (run_exhausted_ne hne hcall hle hp)
              · have := h rfl
                omega

end Runs

/-- The calls on a stream with no data behind its buffer. -/
theorem delivers_stream_iff (buffer : List UInt8) (callback : Bool) (calls : List Call)
    (hcalls : ∀ call ∈ calls, call.Allowed) :
    Delivers buffer 0 calls (stream buffer callback) ↔ WithinBuffer buffer callback calls 0 := by
  have hstart : (stream buffer callback).moveTo 0 = stream buffer callback := by cases callback <;> rfl
  rw [← hstart]
  exact delivers_iff hcalls (Nat.zero_le _)

theorem delivers_stream_iff_two_bytes : Delivers [0x55, 0xAA] 0 [.readBit, .read 12, .read 4] (stream [0x55, 0xAA] false) ↔
    WithinBuffer [0x55, 0xAA] false [.readBit, .read 12, .read 4] 0 :=
  delivers_stream_iff _ _ _ (by
    rintro call (_ | ⟨_, _ | ⟨_, _ | ⟨_, ⟨⟩⟩⟩⟩)
    exacts [trivial, ⟨by decide, by decide⟩, ⟨by decide, by decide⟩])

/-- One bit of an empty buffer. -/
theorem not_delivers_empty : ¬ ∀ (buffer : List UInt8) (callback : Bool) (calls : List Call),
    (∀ call ∈ calls, call.Allowed) → Delivers buffer 0 calls (stream buffer callback) := by
  intro h
  obtain ⟨-, v, t, hrun, -⟩ := h [] false [.readBit] (fun call hcall => by
    rw [List.mem_singleton.mp hcall]
    trivial)
  rw [readBit_empty] at hrun
  exact nomatch hrun

end XviOs.Deflate.Bitstream
