import XviOs.Library.Ring
import XviOs.Library.Runs
import XviOs.Logger.RoundTrip

namespace XviOs.Logger

open Library.Ring Library.Refinement

def encodedMessageSize (data : List Byte) : Nat :=
  match readUInt32le data with
  | some (size, _) => size.toNat
  | none => 0

/-- Offsets are reduced by the size of the buffer, which is not empty. -/
structure CircularBuffer where
  buffer : List Byte
  read : Nat
  write : Nat

namespace CircularBuffer

def ofBuffer (buffer : List Byte) : CircularBuffer := ⟨buffer, 0, 0⟩

variable (b : CircularBuffer)

def size : Nat := b.buffer.length

/-- One byte is not used, so that the two offsets differ when the buffer is full. -/
def maxCapacity : Nat := b.size - 1

def usedCapacityUnlocked : Nat :=
  if b.read ≤ b.write then b.write - b.read else b.size - (b.read - b.write)

def availableCapacityUnlocked : Nat := b.maxCapacity - b.usedCapacityUnlocked

/-- The sum is one of two 64-bit words. -/
def advance (ptr n : Nat) : Nat := (ptr + n) % 2 ^ 64 % b.size

def copyTo (n : Nat) : Option (List Byte) :=
  if b.usedCapacityUnlocked < n then none
  else
    let copyOne := min n (b.size - b.read)
    some ((b.buffer.drop b.read).take copyOne ++ b.buffer.take (n - copyOne))

def copyFrom (n : Nat) (data : List Byte) : CircularBuffer :=
  let copyOne := min n (b.size - b.write)
  let copyTwo := n - copyOne
  { b with buffer := store (store b.buffer b.write (data.take copyOne)) 0 ((data.drop copyOne).take copyTwo) }

def peekNextMessageSize : Nat :=
  if b.usedCapacityUnlocked < 4 then 0
  else
    match b.copyTo 4 with
    | none => 0
    | some data => if encodedMessageSize data > b.usedCapacityUnlocked then 0 else encodedMessageSize data

/-- The loop of `add` that discards messages until `n` bytes are free. -/
def discard (n : Nat) : Nat → CircularBuffer → Option CircularBuffer
  | 0, _ => none
  | fuel + 1, b =>
    if n > b.availableCapacityUnlocked then
      if b.peekNextMessageSize = 0 then some { b with read := b.write }
      else discard n fuel { b with read := b.advance b.read b.peekNextMessageSize }
    else some b

/-- Every pass of the loop discards a byte. -/
def add (data : List Byte) : Option (Bool × CircularBuffer) :=
  let n := min data.length (encodedMessageSize data)
  if n > b.maxCapacity then some (false, b)
  else do
    let b ← discard n (b.usedCapacityUnlocked + 1) b
    let b := b.copyFrom n data
    return (true, { b with write := b.advance b.write n })

/-- The size that is returned, and what is written to a space of `space` bytes. -/
def extractTo (offset space : Nat) (remove : Bool) : Nat × List Byte × CircularBuffer :=
  if remove = true ∧ offset ≠ 0 then (0, [], b)
  else
    let at' := { b with read := b.advance b.read offset }
    let n := at'.peekNextMessageSize
    if n = 0 then (0, [], b)
    else if n > space then (n, [], b)
    else (n, (at'.copyTo n).getD [], if remove then { at' with read := at'.advance at'.read n } else b)

/-- The loop of `buffer_message_processor::read`, with what it has read so far. -/
def readMessages (offset space : Nat) (remove : Bool) (sizeRead : Nat) (out : List Byte) (b : CircularBuffer) :
    Nat × List Byte × CircularBuffer :=
  match b.extractTo offset space remove with
  | (n, message, b) =>
    if _h : n > space ∨ n = 0 then (if sizeRead = 0 then n else sizeRead, out, b)
    else readMessages offset (space - n) remove (sizeRead + n) (out ++ message) b
termination_by space
decreasing_by omega

end CircularBuffer

/-! ## The messages in a buffer -/

/-- A message says how long it is. -/
def Framed (message : List Byte) : Prop := 4 ≤ message.length ∧ encodedMessageSize message = message.length

theorem encodedMessageSize_take {data : List Byte} {n : Nat} (h : 4 ≤ n) :
    encodedMessageSize (data.take n) = encodedMessageSize data := by
  obtain ⟨n, rfl⟩ := Nat.exists_eq_add_of_le' h
  match data with
  | [] | [_] | [_, _] | [_, _, _] => rfl
  | _ :: _ :: _ :: _ :: _ => rfl

theorem encodedMessageSize_append {message : List Byte} (h : 4 ≤ message.length) (rest : List Byte) :
    encodedMessageSize ((message ++ rest).take 4) = encodedMessageSize message := by
  rw [List.take_append_of_le_length h, encodedMessageSize_take le_rfl]

/-- The messages that are left when the oldest ones are discarded until the rest takes at most `room` bytes. -/
def keepLatest (room : Nat) : List (List Byte) → List (List Byte)
  | [] => []
  | message :: queue => if (message :: queue).flatten.length ≤ room then message :: queue else keepLatest room queue

theorem length_keepLatest_le (room : Nat) (queue : List (List Byte)) :
    (keepLatest room queue).flatten.length ≤ room := by
  induction queue with
  | nil => exact Nat.zero_le room
  | cons message queue ih =>
    rw [keepLatest]
    split
    · assumption
    · exact ih

/-- The queue with one message more, if that fits at all. -/
def enqueue (capacity : Nat) (queue : List (List Byte)) (message : List Byte) : List (List Byte) :=
  if message.length ≤ capacity then keepLatest (capacity - message.length) queue ++ [message] else queue

/-- The message that begins `offset` bytes behind the oldest one. -/
def messageAt : List (List Byte) → Nat → Option (List Byte)
  | [], _ => none
  | message :: queue, offset => if offset = 0 then some message else messageAt queue (offset - message.length)

/-- Some messages of the queue take `offset` bytes, and the others come after them. -/
def OnBoundary (queue : List (List Byte)) (offset : Nat) : Prop :=
  ∃ front rest, queue = front ++ rest ∧ offset = front.flatten.length

/-- What reading a message of a queue returns, and the queue after it. -/
structure Extracted where
  size : Nat
  out : List Byte
  queue : List (List Byte)

def extract (queue : List (List Byte)) (offset space : Nat) (remove : Bool) : Extracted :=
  if remove = true ∧ offset ≠ 0 then ⟨0, [], queue⟩
  else
    match messageAt queue offset with
    | none => ⟨0, [], queue⟩
    | some message =>
      if message.length > space then ⟨message.length, [], queue⟩
      else ⟨message.length, message, if remove then queue.tail else queue⟩

namespace CircularBuffer

/-- The buffer holds the messages, the oldest one first. -/
structure Holds (b : CircularBuffer) (queue : List (List Byte)) : Prop where
  size_pos : 0 < b.size
  size_le : b.size ≤ 2 ^ 63
  read_lt : b.read < b.size
  write_lt : b.write < b.size
  framed : ∀ message ∈ queue, Framed message
  contents : window b.buffer b.read b.usedCapacityUnlocked = queue.flatten

variable {b : CircularBuffer} {queue : List (List Byte)} {message data : List Byte} {n offset space fuel : Nat}

theorem used_of_write_eq {u : Nat} (hread : b.read < b.size) (hu : u < b.size)
    (h : b.write = (b.read + u) % b.size) : b.usedCapacityUnlocked = u := by
  rw [usedCapacityUnlocked, h]
  by_cases hlt : b.read + u < b.size
  · rw [Nat.mod_eq_of_lt hlt, if_pos (Nat.le_add_right ..), Nat.add_sub_cancel_left]
  · rw [Nat.mod_eq_sub_mod (Nat.le_of_not_lt hlt), Nat.mod_eq_of_lt (by omega)]
    split
    · omega
    · omega

namespace Holds

theorem used_lt (h : b.Holds queue) : b.usedCapacityUnlocked < b.size := by
  have hread := h.read_lt
  have hwrite := h.write_lt
  rw [usedCapacityUnlocked]
  split
  · omega
  · omega

theorem used_eq (h : b.Holds queue) : b.usedCapacityUnlocked = queue.flatten.length := by
  rw [← h.contents, length_window h.used_lt.le]

theorem write_eq (h : b.Holds queue) : b.write = (b.read + b.usedCapacityUnlocked) % b.size := by
  have hread := h.read_lt
  have hwrite := h.write_lt
  rw [usedCapacityUnlocked]
  split
  · rw [Nat.add_sub_cancel' ‹_›, Nat.mod_eq_of_lt hwrite]
  · rw [show b.read + (b.size - (b.read - b.write)) = b.write + b.size by omega, Nat.add_mod_right,
      Nat.mod_eq_of_lt hwrite]

theorem advance_eq (h : b.Holds queue) {ptr : Nat} (hptr : ptr ≤ b.size) (hn : n < b.size) :
    b.advance ptr n = (ptr + n) % b.size := by
  have hsize := h.size_le
  rw [advance, Nat.mod_eq_of_lt (a := ptr + n) (b := 2 ^ 64) (by omega)]

/-- A window of whole messages between the offsets is held. -/
theorem of_window {c : CircularBuffer} {u : Nat} (h : b.Holds queue) (hsize : c.size = b.size)
    (hread : c.read < c.size) (hu : u < c.size) (hwrite : c.write = (c.read + u) % c.size) {queue' : List (List Byte)}
    (hframed : ∀ message ∈ queue', Framed message) (hwindow : window c.buffer c.read u = queue'.flatten) :
    c.Holds queue' where
  size_pos := hsize ▸ h.size_pos
  size_le := hsize ▸ h.size_le
  read_lt := hread
  write_lt := hwrite ▸ Nat.mod_lt _ (hsize ▸ h.size_pos)
  framed := hframed
  contents := by rw [used_of_write_eq hread hu hwrite, hwindow]

/-- Skipping some of the messages leaves the others. -/
theorem skip (front : List (List Byte)) {rest : List (List Byte)} (h : b.Holds (front ++ rest))
    (hn : n = front.flatten.length) :
    Holds { b with read := b.advance b.read n } rest := by
  have hused := h.used_eq
  have hlt := h.used_lt
  have hcontents := h.contents
  rw [List.flatten_append] at hcontents
  rw [List.flatten_append, List.length_append, ← hn] at hused
  have hread : b.advance b.read n = (b.read + n) % b.size := h.advance_eq h.read_lt.le (by omega)
  apply of_window (c := { b with read := b.advance b.read n }) (u := b.usedCapacityUnlocked - n) h rfl
  · change b.advance b.read n < b.size
    rw [hread]
    exact Nat.mod_lt _ h.size_pos
  · change b.usedCapacityUnlocked - n < b.size
    omega
  · change b.write = (b.advance b.read n + (b.usedCapacityUnlocked - n)) % b.size
    rw [hread, Nat.mod_add_mod, h.write_eq]
    congr 1
    omega
  · intro message hmem
    exact h.framed message (List.mem_append_right _ hmem)
  · change window b.buffer (b.advance b.read n) (b.usedCapacityUnlocked - n) = _
    rw [hread]
    change window b.buffer ((b.read + n) % b.buffer.length) _ = _
    rw [window_mod, window_skip (by omega) hlt.le, hcontents, hn, List.drop_left]

theorem copyTo_eq (h : b.Holds queue) (hn : n ≤ b.usedCapacityUnlocked) :
    b.copyTo n = some (queue.flatten.take n) := by
  have hlt := h.used_lt
  have hle : n ≤ b.buffer.length := hn.trans hlt.le
  rw [copyTo, if_neg (Nat.not_lt.mpr hn), ← h.contents, window_take hn, window_eq_pieces h.read_lt.le hle]
  rfl

theorem peek_nil (h : b.Holds []) : b.peekNextMessageSize = 0 := by
  have hused : b.usedCapacityUnlocked = 0 := h.used_eq
  rw [peekNextMessageSize, if_pos (by omega)]

theorem peek_cons (h : b.Holds (message :: queue)) : b.peekNextMessageSize = message.length := by
  obtain ⟨hfour, hframed⟩ := h.framed message (List.mem_cons_self ..)
  have hused := h.used_eq
  rw [List.flatten_cons, List.length_append] at hused
  rw [peekNextMessageSize, if_neg (by omega), h.copyTo_eq (by omega)]
  change (if _ then _ else _) = _
  rw [List.flatten_cons, encodedMessageSize_append hfour, hframed, if_neg (by omega)]

theorem size_copyFrom (h : b.Holds queue) (hn : n ≤ b.size) : (b.copyFrom n data).size = b.size := by
  have hwrite := h.write_lt
  change (store (store b.buffer b.write _) 0 _).length = _
  have hfirst : (store b.buffer b.write (data.take (min n (b.size - b.write)))).length = b.buffer.length := by
    apply length_store
    rw [List.length_take]
    change b.write + _ ≤ b.size
    omega
  rw [length_store, hfirst]
  · rfl
  · rw [hfirst, List.length_take, List.length_drop]
    change _ ≤ b.size
    omega

/-- The data stands behind the messages that the buffer holds. -/
theorem append (h : b.Holds queue) (hn : n ≤ b.availableCapacityUnlocked) (hdata : n ≤ data.length)
    (hframed : Framed (data.take n)) :
    Holds { b.copyFrom n data with write := (b.copyFrom n data).advance b.write n } (queue ++ [data.take n]) := by
  have hlt := h.used_lt
  have hsize := h.size_pos
  have hroom : b.usedCapacityUnlocked + n < b.size := by
    rw [availableCapacityUnlocked, maxCapacity] at hn
    omega
  have hlength : (data.take n).length = n := List.length_take_of_le hdata
  have hpieces : (b.copyFrom n data).buffer = store (store b.buffer b.write ((data.take n).take (b.size - b.write))) 0
      ((data.take n).drop (b.size - b.write)) := by
    rw [copyFrom, List.take_take, List.drop_take]
    by_cases hpiece : n ≤ b.size - b.write
    · simp [Nat.min_eq_left hpiece, Nat.min_eq_right hpiece, Nat.sub_eq_zero_of_le hpiece]
    · have hle := Nat.le_of_not_le hpiece
      simp [Nat.min_eq_left hle, Nat.min_eq_right hle]
  have hbuffer : (b.copyFrom n data).size = b.size := h.size_copyFrom (by omega)
  have hadvance : (b.copyFrom n data).advance b.write n = (b.write + n) % b.size := by
    rw [advance, hbuffer]
    exact h.advance_eq h.write_lt.le (by omega)
  apply of_window (c := { b.copyFrom n data with write := (b.copyFrom n data).advance b.write n })
    (u := b.usedCapacityUnlocked + n) h hbuffer
  · exact hbuffer ▸ h.read_lt
  · exact hbuffer ▸ hroom
  · change (b.copyFrom n data).advance b.write n = (b.read + _) % (b.copyFrom n data).size
    rw [hadvance, hbuffer, h.write_eq, Nat.mod_add_mod, Nat.add_assoc]
  · intro message hmem
    obtain hmem | hmem := List.mem_append.mp hmem
    · exact h.framed message hmem
    · exact List.mem_singleton.mp hmem ▸ hframed
  · have hrotate : (b.copyFrom n data).buffer.rotate (b.read + b.usedCapacityUnlocked) =
        data.take n ++ (b.buffer.rotate (b.read + b.usedCapacityUnlocked)).drop (data.take n).length := by
      rw [← List.rotate_mod, show (b.copyFrom n data).buffer.length = b.size from hbuffer, ← h.write_eq, hpieces,
        ← List.rotate_mod b.buffer, show b.buffer.length = b.size from rfl, ← h.write_eq]
      exact rotate_store_pieces h.write_lt.le (by rw [hlength]; change n ≤ b.size; omega)
    have hwindow := window_extend hbuffer (by rw [hlength]; exact hroom.le) hrotate
    rw [hlength] at hwindow
    change window (b.copyFrom n data).buffer b.read _ = _
    rw [hwindow, h.contents, List.flatten_append, List.flatten_singleton]

theorem discard_spec (h : b.Holds queue) (hn : n ≤ b.maxCapacity) (hfuel : b.usedCapacityUnlocked < fuel) :
    ∃ c, discard n fuel b = some c ∧ c.Holds (keepLatest (b.maxCapacity - n) queue) ∧ c.size = b.size ∧
      n ≤ c.availableCapacityUnlocked := by
  induction fuel generalizing b queue with
  | zero => exact absurd hfuel (Nat.not_lt_zero _)
  | succ fuel ih =>
    have hused := h.used_eq
    have hmax : b.usedCapacityUnlocked ≤ b.maxCapacity := Nat.le_sub_one_of_lt h.used_lt
    rw [discard]
    by_cases hroom : n > b.availableCapacityUnlocked
    · rw [if_pos hroom]
      have hover : b.maxCapacity - n < queue.flatten.length := by
        rw [availableCapacityUnlocked] at hroom
        omega
      cases queue with
      | nil => exact absurd hover (Nat.not_lt_zero _)
      | cons message queue =>
        have hlength := (h.framed message (List.mem_cons_self ..)).1
        have hskip := h.skip [message] (n := message.length) (by simp)
        have hused' := hskip.used_eq
        rw [List.flatten_cons, List.length_append] at hused
        rw [h.peek_cons, if_neg (by omega), keepLatest, if_neg (Nat.not_le.mpr hover)]
        exact ih hskip hn (by rw [hused']; omega)
    · have hfits : queue.flatten.length ≤ b.maxCapacity - n := by
        rw [availableCapacityUnlocked] at hroom
        omega
      have hkeep : keepLatest (b.maxCapacity - n) queue = queue := by
        cases queue with
        | nil => rfl
        | cons message queue => rw [keepLatest, if_pos hfits]
      rw [if_neg hroom, hkeep]
      exact ⟨b, rfl, h, rfl, Nat.le_of_not_lt hroom⟩

theorem add_spec (h : b.Holds queue) (data : List Byte) (hfour : 4 ≤ encodedMessageSize data)
    (hdata : encodedMessageSize data ≤ data.length) :
    ∃ c, b.add data = some (decide (encodedMessageSize data ≤ b.maxCapacity), c) ∧ c.size = b.size ∧
      c.Holds (enqueue b.maxCapacity queue (data.take (encodedMessageSize data))) := by
  have hlength : (data.take (encodedMessageSize data)).length = encodedMessageSize data := List.length_take_of_le hdata
  rw [add, Nat.min_eq_right hdata, enqueue, hlength]
  by_cases hfits : encodedMessageSize data ≤ b.maxCapacity
  · obtain ⟨c, hdiscard, hc, hsize, hroom⟩ := h.discard_spec hfits (Nat.lt_succ_self _)
    have hframed : Framed (data.take (encodedMessageSize data)) := by
      rw [Framed, List.length_take_of_le hdata, encodedMessageSize_take hfour]
      exact ⟨hfour, rfl⟩
    have happend := hc.append hroom hdata hframed
    have hcopied : (c.copyFrom (encodedMessageSize data) data).size = c.size :=
      hc.size_copyFrom (hroom.trans ((Nat.sub_le ..).trans (Nat.sub_le ..)))
    rw [if_neg (Nat.not_lt.mpr hfits), hdiscard, decide_eq_true hfits, if_pos hfits]
    exact ⟨_, rfl, hcopied.trans hsize, happend⟩
  · rw [if_pos (Nat.lt_of_not_le hfits), decide_eq_false hfits, if_neg hfits]
    exact ⟨b, rfl, rfl, h⟩

theorem messageAt_append {front : List (List Byte)} (rest : List (List Byte)) (h : ∀ message ∈ front, Framed message) :
    messageAt (front ++ rest) front.flatten.length = rest.head? := by
  induction front with
  | nil => cases rest with
    | nil => rfl
    | cons message rest => simp [messageAt]
  | cons message front ih =>
    obtain ⟨hmessage, hfront⟩ := List.forall_mem_cons.mp h
    have hlength := hmessage.1
    rw [List.cons_append, messageAt, List.flatten_cons, List.length_append, if_neg (by omega), Nat.add_sub_cancel_left,
      ih hfront]

theorem extractTo_spec (h : b.Holds queue) (offset space : Nat) (remove : Bool)
    (hoffset : remove = false → OnBoundary queue offset) :
    ∃ c, b.extractTo offset space remove =
        ((extract queue offset space remove).size, (extract queue offset space remove).out, c) ∧
      c.size = b.size ∧ c.Holds (extract queue offset space remove).queue := by
  by_cases hrefused : remove = true ∧ offset ≠ 0
  · rw [extractTo, extract, if_pos hrefused, if_pos hrefused]
    exact ⟨b, rfl, rfl, h⟩
  · obtain ⟨front, rest, rfl, rfl, hfront⟩ :
        ∃ front rest, queue = front ++ rest ∧ offset = front.flatten.length ∧ (remove = true → front = []) := by
      cases remove with
      | false =>
        obtain ⟨front, rest, hqueue, hlength⟩ := hoffset rfl
        exact ⟨front, rest, hqueue, hlength, fun hr => Bool.noConfusion hr⟩
      | true => exact ⟨[], queue, rfl, not_not.mp fun hne => hrefused ⟨rfl, hne⟩, fun _ => rfl⟩
    have hseek := h.skip front (n := front.flatten.length) rfl
    have hat := messageAt_append rest fun message hmem => h.framed message (List.mem_append_left _ hmem)
    rw [extractTo, extract, if_neg hrefused, if_neg hrefused, hat]
    cases rest with
    | nil =>
      have hpeek := hseek.peek_nil
      refine ⟨b, ?_, rfl, h⟩
      simp only [hpeek, if_true, List.head?_nil]
    | cons message rest =>
      have hpeek := hseek.peek_cons
      have hlength := (h.framed message (by simp)).1
      have hcopy := hseek.copyTo_eq (n := message.length) (by
        rw [hseek.used_eq, List.flatten_cons, List.length_append]
        exact Nat.le_add_right ..)
      rw [List.flatten_cons, List.take_left] at hcopy
      have hnext := hseek.skip [message] (n := message.length) (by simp)
      have hpos : message.length ≠ 0 := by omega
      simp only [hpeek, if_neg hpos, hcopy, Option.getD_some, List.head?_cons]
      by_cases hspace : message.length > space
      · simp only [if_pos hspace]
        exact ⟨b, rfl, rfl, h⟩
      · simp only [if_neg hspace]
        cases remove with
        | false => exact ⟨b, rfl, rfl, h⟩
        | true =>
          obtain rfl := hfront rfl
          exact ⟨_, rfl, rfl, hnext⟩

end Holds

/-! ## Runs -/

inductive Call
  | add (data : List Byte)
  | extractTo (offset space : Nat) (remove : Bool)

inductive Answer
  | added (ok : Bool)
  | extracted (size : Nat) (out : List Byte)

/-- The answers so far and the buffer after one more call. -/
def call (s : List Answer × CircularBuffer) : Call → Option (List Answer × CircularBuffer)
  | .add data => (s.2.add data).map fun r => (s.1 ++ [.added r.1], r.2)
  | .extractTo offset space remove =>
    let r := s.2.extractTo offset space remove
    some (s.1 ++ [.extracted r.1 r.2.1], r.2.2)

/-- The answers so far and the queue after one more call, for a queue of at most `capacity` bytes. -/
def serve (capacity : Nat) (s : List Answer × List (List Byte)) : Call → List Answer × List (List Byte)
  | .add data =>
    (s.1 ++ [.added (decide (encodedMessageSize data ≤ capacity))],
      enqueue capacity s.2 (data.take (encodedMessageSize data)))
  | .extractTo offset space remove =>
    let r := extract s.2 offset space remove
    (s.1 ++ [.extracted r.size r.out], r.queue)

/-- What is added is at least as long as it says, and what is read without being removed is a message. -/
def Allowed (s : List Answer × List (List Byte)) : Call → Prop
  | .add data => 4 ≤ encodedMessageSize data ∧ encodedMessageSize data ≤ data.length
  | .extractTo offset _ remove => remove = false → OnBoundary s.2 offset

theorem holds_ofBuffer {buffer : List Byte} (hbuffer : buffer ≠ []) (hsize : buffer.length ≤ 2 ^ 63) :
    (ofBuffer buffer).Holds [] where
  size_pos := List.length_pos_iff.mpr hbuffer
  size_le := hsize
  read_lt := List.length_pos_iff.mpr hbuffer
  write_lt := List.length_pos_iff.mpr hbuffer
  framed := fun _ hmem => absurd hmem List.not_mem_nil
  contents := rfl

/-- Every run of calls is answered as by a queue of whole messages that gives up its oldest ones to make room. -/
theorem circularBuffer_refines {buffer : List Byte} (hbuffer : buffer ≠ []) (hsize : buffer.length ≤ 2 ^ 63)
    {calls : List Call} (hcalls : AllAllowed (serve (buffer.length - 1)) Allowed ([], []) calls) :
    ∃ b, calls.foldlM call ([], ofBuffer buffer) = some ((calls.foldl (serve (buffer.length - 1)) ([], [])).1, b) ∧
      b.Holds (calls.foldl (serve (buffer.length - 1)) ([], [])).2 := by
  -- the answers agree, and the buffer holds the queue
  have hstep (a : List Answer × List (List Byte)) (s : List Answer × CircularBuffer) (c : Call)
      (hR : a.1 = s.1 ∧ s.2.size = buffer.length ∧ s.2.Holds a.2) (hallowed : Allowed a c) :
      ∃ t, call s c = some t ∧ (serve (buffer.length - 1) a c).1 = t.1 ∧ t.2.size = buffer.length ∧
        t.2.Holds (serve (buffer.length - 1) a c).2 := by
    obtain ⟨answers, b⟩ := s
    obtain ⟨rfl, hb, hholds⟩ := hR
    cases c with
    | add data =>
      obtain ⟨c, hadd, hc, hholds'⟩ := hholds.add_spec data hallowed.1 hallowed.2
      rw [show b.maxCapacity = buffer.length - 1 from congrArg (· - 1) hb] at hadd hholds'
      refine ⟨_, by rw [call, hadd]; rfl, rfl, hc.trans hb, hholds'⟩
    | extractTo offset space remove =>
      obtain ⟨c, hextract, hc, hholds'⟩ := hholds.extractTo_spec offset space remove hallowed
      refine ⟨_, rfl, ?_, ?_, ?_⟩
      · rw [hextract]
        rfl
      · rw [hextract]
        exact hc.trans hb
      · rw [hextract]
        exact hholds'
  obtain ⟨⟨answers, b⟩, hfold, hanswers, -, hholds⟩ :=
    run_refines hstep (s := ([], ofBuffer buffer)) ⟨rfl, rfl, holds_ofBuffer hbuffer hsize⟩ hcalls
  obtain rfl : _ = answers := hanswers
  exact ⟨b, hfold, hholds⟩

/-- The second message takes the place of the first one, and is read. -/
theorem circularBuffer_refines_replaced :
    ∃ b, [Call.add [5, 0, 0, 0, 7], .add [7, 0, 0, 0, 1, 2, 3], .extractTo 0 8 true].foldlM call
        ([], ofBuffer (List.replicate 12 0)) =
      some ([.added true, .added true, .extracted 7 [7, 0, 0, 0, 1, 2, 3]], b) ∧ b.Holds [] :=
  circularBuffer_refines (by decide) (by decide)
    ⟨⟨by decide, by decide⟩, ⟨by decide, by decide⟩, fun h => Bool.noConfusion h, trivial⟩

/-! ## Logging -/

/-- The longest tail of a list of messages that takes at most `room` bytes. -/
structure LongestTail (room : Nat) (messages tail : List (List Byte)) : Prop where
  suffix : tail <:+ messages
  fits : tail.flatten.length ≤ room
  longest : ∀ t, t <:+ messages → t.flatten.length ≤ room → t <:+ tail

theorem longestTail_keepLatest (room : Nat) (queue : List (List Byte)) :
    LongestTail room queue (keepLatest room queue) where
  suffix := by
    induction queue with
    | nil => exact List.suffix_rfl
    | cons message queue ih =>
      rw [keepLatest]
      split
      · exact List.suffix_rfl
      · exact ih.trans (List.suffix_cons ..)
  fits := length_keepLatest_le room queue
  longest := by
    induction queue with
    | nil => exact fun t ht _ => ht
    | cons message queue ih =>
      intro t ht hroom
      rw [keepLatest]
      split
      · exact ht
      · obtain rfl | ht := List.suffix_cons_iff.mp ht
        · exact absurd hroom ‹_›
        · exact ih t ht hroom

/-- One more message leaves the longest tail that fits. -/
theorem LongestTail.enqueue {capacity : Nat} {messages tail : List (List Byte)}
    (h : LongestTail capacity messages tail) (hfits : message.length ≤ capacity) :
    LongestTail capacity (messages ++ [message]) (Logger.enqueue capacity tail message) := by
  have hkeep := longestTail_keepLatest (capacity - message.length) tail
  have hroom := hkeep.fits
  rw [Logger.enqueue, if_pos hfits]
  refine ⟨List.suffix_append_self_iff.mpr (hkeep.suffix.trans h.suffix), ?_, ?_⟩
  · rw [List.flatten_append, List.flatten_singleton, List.length_append]
    omega
  · intro t ht hlength
    obtain rfl | ⟨older, rfl, holder⟩ := List.suffix_concat_iff.mp ht
    · exact List.nil_suffix
    · rw [List.flatten_append, List.flatten_singleton, List.length_append] at hlength
      have hfront := h.longest older holder (by omega)
      exact List.suffix_append_self_iff.mpr (hkeep.longest older hfront (by omega))

/-- What `buffer_message_processor::processEncodedMessage` does for each of the messages. -/
def processAll (messages : List (List Byte)) (b : CircularBuffer) : Option CircularBuffer :=
  messages.foldlM (fun b data => (b.add data).map Prod.snd) b

/-- After any messages the buffer holds the longest tail of them that fits, of those that can fit at all. -/
theorem processAll_spec {buffer : List Byte} (hbuffer : buffer ≠ []) (hsize : buffer.length ≤ 2 ^ 63)
    (messages : List (List Byte)) (hframed : ∀ message ∈ messages, Framed message) :
    ∃ b tail, processAll messages (ofBuffer buffer) = some b ∧ b.size = buffer.length ∧ b.Holds tail ∧
      LongestTail (buffer.length - 1) (messages.filter fun m => m.length ≤ buffer.length - 1) tail := by
  induction messages using List.reverseRecOn with
  | nil => exact ⟨_, [], rfl, rfl, holds_ofBuffer hbuffer hsize, List.suffix_rfl, Nat.zero_le _, fun _ ht _ => ht⟩
  | append_singleton messages message ih =>
    obtain ⟨b, tail, hprocess, hb, hholds, htail⟩ := ih fun m hm => hframed m (List.mem_append_left _ hm)
    obtain ⟨hfour, hlength⟩ := hframed message (by simp)
    obtain ⟨c, hadd, hc, hholds'⟩ := hholds.add_spec message (by omega) hlength.le
    rw [hlength, List.take_length, show b.maxCapacity = buffer.length - 1 from congrArg (· - 1) hb] at hholds'
    refine ⟨c, _, ?_, hc.trans hb, hholds', ?_⟩
    · rw [processAll, List.foldlM_append]
      change (processAll messages (ofBuffer buffer)).bind _ = _
      rw [hprocess]
      simp [hadd]
    · rw [List.filter_append]
      by_cases hfits : message.length ≤ buffer.length - 1
      · rw [List.filter_cons_of_pos (by simpa using hfits), List.filter_nil]
        exact htail.enqueue hfits
      · rw [List.filter_cons_of_neg (by simpa using hfits), List.filter_nil, List.append_nil, Logger.enqueue,
          if_neg hfits]
        exact htail

/-- With room for all messages a read takes them all. -/
theorem Holds.readMessages_all (h : b.Holds queue) (hspace : queue.flatten.length ≤ space) (sizeRead : Nat)
    (out : List Byte) :
    ∃ c, b.readMessages 0 space true sizeRead out = (sizeRead + queue.flatten.length, out ++ queue.flatten, c) ∧
      c.Holds [] := by
  induction queue generalizing b space sizeRead out with
  | nil =>
    obtain ⟨c, hextract, -, hc⟩ := h.extractTo_spec 0 space true fun hr => Bool.noConfusion hr
    change b.extractTo 0 space true = (0, [], c) at hextract
    refine ⟨c, ?_, hc⟩
    rw [readMessages, hextract]
    by_cases hzero : sizeRead = 0
    · simp [hzero]
    · simp [hzero]
  | cons message queue ih =>
    have hlength := (h.framed message (List.mem_cons_self ..)).1
    rw [List.flatten_cons, List.length_append] at hspace
    obtain ⟨c, hextract, -, hc⟩ := h.extractTo_spec 0 space true fun hr => Bool.noConfusion hr
    have hfits : ¬ message.length > space := by omega
    have hfirst : extract (message :: queue) 0 space true = ⟨message.length, message, queue⟩ := by
      simp [extract, messageAt, hfits]
    rw [hfirst] at hextract hc
    have hroom : queue.flatten.length ≤ space - message.length := by omega
    obtain ⟨d, hread, hd⟩ := ih hc hroom (sizeRead + message.length) (out ++ message)
    refine ⟨d, ?_, hd⟩
    rw [readMessages, hextract]
    simp only [dif_neg (show ¬ (message.length > space ∨ message.length = 0) by omega)]
    rw [hread, List.flatten_cons, List.length_append, Nat.add_assoc, List.append_assoc]

end CircularBuffer

/-- What a call of `log` is given. -/
structure LogRecord where
  facility : List Byte
  priority : Priority
  message : List Byte
  vars : List Variable

namespace LogRecord

open MessageInternal CircularBuffer

def encoded (r : LogRecord) : List Byte := (encode r.facility r.priority r.message r.vars).preEncoded

theorem framed_encoded {r : LogRecord} (h : r.encoded.length < 2 ^ 31) : Framed r.encoded := by
  obtain ⟨bytes, -, hpre, -⟩ := encode_eq r.facility r.priority r.message r.vars
  have hencoded : r.encoded = integerBytes 4 (BitVec.ofNat 64 (bytes.length + 4)) ++ bytes := hpre
  have hlength : r.encoded.length = bytes.length + 4 := by
    rw [hencoded, List.length_append, length_integerBytes, Nat.add_comm]
  refine ⟨by omega, ?_⟩
  rw [encodedMessageSize, hlength, hencoded, readUInt32le_integerBytes]
  change ((BitVec.ofNat 64 (bytes.length + 4)).setWidth 32).toNat = _
  rw [BitVec.toNat_setWidth, toNat_ofNat_length (by omega), Nat.mod_eq_of_lt (by omega)]

/-- What is read from the buffer after any number of records is the longest tail of them that fits, whole and in
order, and each one decodes to its variables. -/
theorem logged_read_back {buffer : List Byte} (hbuffer : buffer ≠ []) (hsize : buffer.length ≤ 2 ^ 63)
    (records : List LogRecord) (hrecords : ∀ r ∈ records, r.encoded.length < 2 ^ 31) {space : Nat}
    (hspace : buffer.length ≤ space) :
    ∃ b c latest, processAll (records.map encoded) (ofBuffer buffer) = some b ∧
      b.readMessages 0 space true 0 [] = ((latest.map encoded).flatten.length, (latest.map encoded).flatten, c) ∧
      c.Holds [] ∧ latest <:+ records.filter (fun r => r.encoded.length ≤ buffer.length - 1) ∧
      LongestTail (buffer.length - 1) ((records.filter fun r => r.encoded.length ≤ buffer.length - 1).map encoded)
        (latest.map encoded) ∧
      ∀ r ∈ latest, (ofEncoded r.encoded).vars =
        (systemVariables r.facility r.priority r.message ++ r.vars).map stored := by
  obtain ⟨b, tail, hprocess, hb, hholds, htail⟩ := processAll_spec hbuffer hsize (records.map encoded) fun m hm => by
    obtain ⟨r, hr, rfl⟩ := List.mem_map.mp hm
    exact framed_encoded (hrecords r hr)
  rw [List.filter_map] at htail
  obtain ⟨latest, hlatest, rfl⟩ := List.suffix_map_iff.mp htail.suffix
  obtain ⟨c, hread, hc⟩ := hholds.readMessages_all (htail.fits.trans (by omega : buffer.length - 1 ≤ space)) 0 []
  rw [Nat.zero_add, List.nil_append] at hread
  refine ⟨b, c, latest, hprocess, hread, hc, hlatest, htail, ?_⟩
  intro r hr
  have hmem := (List.mem_filter.mp (hlatest.subset hr)).1
  obtain ⟨-, -, -, hencoded⟩ := encode_eq r.facility r.priority r.message r.vars
  have hlt : (encode r.facility r.priority r.message r.vars).encoded.length < 2 ^ 31 := by
    rw [hencoded]
    exact hrecords r hmem
  exact congrArg MessageInternal.vars (ofEncoded_encode r.facility r.priority r.message r.vars hlt)

theorem logged_read_back_extra :
    ∃ b c, ∃ latest : List LogRecord,
      processAll ([⟨[], .info, [], [extraVariable [7]]⟩].map encoded) (ofBuffer (List.replicate 100 0)) = some b ∧
      b.readMessages 0 100 true 0 [] = ((latest.map encoded).flatten.length, (latest.map encoded).flatten, c) ∧
      c.Holds [] := by
  have hempty : List.replicate 100 (0 : Byte) ≠ [] := by decide
  have hshort : ∀ r ∈ [(⟨[], .info, [], [extraVariable [7]]⟩ : LogRecord)], r.encoded.length < 2 ^ 31 := by
    intro r hr
    obtain ⟨-, -, -, hencoded⟩ := encode_eq [] .info [] [extraVariable [7]]
    rw [List.mem_singleton.mp hr, encoded, ← hencoded]
    exact length_encode_extra (by decide)
  obtain ⟨b, c, latest, hprocess, hread, hc, -⟩ := logged_read_back hempty (by decide) _ hshort
    (by decide : (List.replicate 100 (0 : Byte)).length ≤ 100)
  exact ⟨b, c, latest, hprocess, hread, hc⟩

end LogRecord

end XviOs.Logger
