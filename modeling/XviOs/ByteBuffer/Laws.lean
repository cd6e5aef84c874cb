import XviOs.ByteBuffer.RoundTrip

namespace XviOs.ByteBuffer

open Library.ByteOrder Library.ThrowingProgram Library.Slices

variable {native : Endian} {size tell : ℕ}

/-- The position that a seek is to. -/
def aimed (pos : BitVec 64) (size tell : ℕ) : Whence → ℤ
  | .fromEnd => size - pos.toInt
  | .fromCurrent => tell + pos.toInt
  | .fromBegin => pos.toInt

/-- The end may be sought too. -/
def Within (size : ℕ) (z : ℤ) : Prop := 0 ≤ z ∧ z ≤ size

/-- The arithmetic of the seek wraps to a negative position only where the position is out of range anyway. -/
theorem target_of_within (pos : BitVec 64) (w : Whence) (htell : tell ≤ size) (hsize : size ≤ maxSize)
    (h : Within size (aimed pos size tell w)) :
    ¬ ((target pos size tell w).toInt < 0 ∨ size < (target pos size tell w).toNat) ∧
      ((target pos size tell w).toNat : ℤ) = aimed pos size tell w := by
  have hpos := pos.isLt
  obtain ⟨hnonneg, hle⟩ := h
  rw [maxSize] at hsize
  cases w <;>
    simp only [aimed, target, BitVec.toInt_eq_toNat_cond, BitVec.toNat_sub, BitVec.toNat_add, BitVec.toNat_ofNat]
      at hnonneg hle ⊢ <;>
    omega

theorem target_of_not_within (pos : BitVec 64) (w : Whence) (htell : tell ≤ size) (hsize : size ≤ maxSize)
    (h : ¬ Within size (aimed pos size tell w)) :
    (target pos size tell w).toInt < 0 ∨ size < (target pos size tell w).toNat := by
  have hpos := pos.isLt
  rw [Within] at h
  rw [maxSize] at hsize
  cases w <;>
    simp only [aimed, target, BitVec.toInt_eq_toNat_cond, BitVec.toNat_sub, BitVec.toNat_add, BitVec.toNat_ofNat]
      at h ⊢ <;>
    omega

theorem Output.seek_within {s : Output} (h : s.Valid) (pos : BitVec 64) (w : Whence)
    (hin : Within s.range.length (aimed pos s.range.length s.pos w)) :
    ∃ p : ℕ, (p : ℤ) = aimed pos s.range.length s.pos w ∧ p ≤ s.range.length ∧
      seek pos w s = (.ok (), { s with pos := p }) := by
  have htarget := target_of_within pos w h.pos_le h.length_le hin
  refine ⟨_, htarget.2, Nat.not_lt.mp fun hlt => htarget.1 (Or.inr hlt), ?_⟩
  apply (bind_ok (get_apply s)).trans
  rw [size, tell, if_neg htarget.1]
  rfl

theorem Output.seek_throws {s : Output} (h : s.Valid) (pos : BitVec 64) (w : Whence)
    (hout : ¬ Within s.range.length (aimed pos s.range.length s.pos w)) :
    seek pos w s = (.error (.outOfRange "invalid seek position"), s) := by
  apply (bind_ok (get_apply s)).trans
  rw [size, tell, if_pos (target_of_not_within pos w h.pos_le h.length_le hout)]
  rfl

/-- The iterator is within the span. -/
structure Input.Valid (s : Input) : Prop where
  pos_le : s.pos ≤ s.range.length
  length_le : s.range.length ≤ maxSize

theorem Input.seek_throws {s : Input} (h : s.Valid) (pos : BitVec 64) (w : Whence)
    (hout : ¬ Within s.range.length (aimed pos s.range.length s.pos w)) :
    seek pos w s = (.error (.outOfRange "invalid seek position"), s) := by
  apply (bind_ok (get_apply s)).trans
  rw [size, tell, if_pos (target_of_not_within pos w h.pos_le h.length_le hout)]
  rfl

/-- What is done to an output buffer. -/
inductive Command
  | setEndian (e : Endian)
  | seek (pos : BitVec 64) (w : Whence)
  | write (i : Item)

def Command.run (native : Endian) : Command → Program Error Output Unit
  | setEndian e => Output.setEndian e
  | seek pos w => Output.seek pos w
  | write i => Output.writeItem native i

/-- The buffer after a command, whether it throws or not. -/
def Output.after (native : Endian) (s : Output) (c : Command) : Output := (c.run native s).2

/-- The constructors. -/
def Output.make (range : List UInt8) (w : Whence) (e : Endian) : Output :=
  ⟨range, match w with
    | .fromBegin => 0
    | .fromCurrent | .fromEnd => range.length, e⟩

theorem Output.Valid.after {s : Output} (h : s.Valid) (c : Command) : (s.after native c).Valid := by
  cases c with
  | setEndian e => exact ⟨h.pos_le, h.length_le⟩
  | seek pos w =>
    by_cases hin : Within s.range.length (aimed pos s.range.length s.pos w)
    · obtain ⟨p, -, hp, hseek⟩ := seek_within h pos w hin
      rw [Output.after, Command.run, hseek]
      exact ⟨hp, h.length_le⟩
    · rw [Output.after, Command.run, seek_throws h pos w hin]
      exact h
  | write i =>
    by_cases hi : s.pos + i.format.type.size ≤ maxSize
    · have hput : (s.put i.bytes).Valid := h.put (by rwa [Item.bytes, length_encode])
      rw [Output.after, Command.run, writeItem_eq h i hi]
      exact ⟨hput.pos_le, hput.length_le⟩
    · rw [Output.after, Command.run, writeItem_lengthError h i (Nat.lt_of_not_le hi)]
      exact ⟨h.pos_le, h.length_le⟩

theorem Output.valid_make {range : List UInt8} (h : range.length ≤ maxSize) (w : Whence) (e : Endian) :
    (make range w e).Valid := by
  refine ⟨?_, h⟩
  cases w
  · exact Nat.zero_le _
  · exact le_refl _
  · exact le_refl _

theorem Output.Valid.run {s : Output} (h : s.Valid) (cs : List Command) : (cs.foldl (Output.after native) s).Valid := by
  induction cs generalizing s with
  | nil => exact h
  | cons c cs ih => exact ih (h.after c)

/-- The buffers that are reached from a constructor. -/
def Output.Reached (native : Endian) (s : Output) : Prop :=
  ∃ (range : List UInt8) (w : Whence) (e : Endian) (cs : List Command), range.length ≤ maxSize ∧
    s = cs.foldl (Output.after native) (make range w e)

theorem Output.Reached.valid {s : Output} (h : s.Reached native) : s.Valid := by
  obtain ⟨range, w, e, cs, hlen, rfl⟩ := h
  exact (valid_make hlen w e).run cs

/-- What was written from a position on is read from there. -/
theorem readItems_writeItems {s : Output} (h : s.Valid) (items : List Item) (e : Endian)
    (hitems : s.pos + (bytesOfItems items).length ≤ maxSize) :
    ∃ s' t, Output.writeItems native items s = (.ok (), s') ∧
      Input.readItems native (items.map Item.format) ⟨s'.range, s.pos, e⟩ = (.ok (items.map fun i => i.value.1), t) ∧
      t.range = s'.range ∧ t.pos = s'.pos := by
  have hdrop : (splice s.range s.pos (bytesOfItems items)).drop s.pos =
      bytesOfItems items ++ s.range.drop (s.pos + (bytesOfItems items).length) := by
    rw [splice]
    exact List.drop_left' (List.length_take_of_le h.pos_le)
  exact ⟨_, _, Output.writeItems_eq h hitems, Input.readItems_eq hdrop, rfl, rfl⟩

/-- After any sequence of commands, a sequence of values that is written is read back, a value that is written after a
seek takes the place of the bytes there, and what is past the end can be neither sought nor read. -/
theorem byteBuffer_laws (native : Endian) (s : Output) (h : s.Reached native) :
    (∀ (items : List Item) (e : Endian), s.pos + (bytesOfItems items).length ≤ maxSize →
      ∃ s' t, Output.writeItems native items s = (.ok (), s') ∧
        Input.readItems native (items.map Item.format) ⟨s'.range, s.pos, e⟩ =
          (.ok (items.map fun i => i.value.1), t) ∧ t.range = s'.range ∧ t.pos = s'.pos) ∧
    (∀ (pos : BitVec 64) (w : Whence) (i : Item), Within s.range.length (aimed pos s.range.length s.pos w) →
      ∃ p : ℕ, (p : ℤ) = aimed pos s.range.length s.pos w ∧
        Output.seek pos w s = (.ok (), { s with pos := p }) ∧
        (p + i.format.type.size ≤ maxSize → ∃ s', Output.writeItem native i { s with pos := p } = (.ok (), s') ∧
          s'.range = s.range.take p ++ (encode i.format.order i.value ++ s.range.drop (p + i.format.type.size)) ∧
          s'.range.length = max s.range.length (p + i.format.type.size) ∧ s'.pos = p + i.format.type.size)) ∧
    (∀ (pos : BitVec 64) (w : Whence), ¬ Within s.range.length (aimed pos s.range.length s.pos w) →
      Output.seek pos w s = (.error (.outOfRange "invalid seek position"), s)) ∧
    ∀ t : Input, t.range = s.range → t.pos ≤ t.range.length →
      (∀ f, t.remaining < f.type.size → ∃ t', Input.readItem native f t =
        (.error (.outOfRange "buffer underrun"), t') ∧ t'.range = t.range ∧ t'.pos = t.pos) ∧
      ∀ (pos : BitVec 64) (w : Whence), ¬ Within t.range.length (aimed pos t.range.length t.pos w) →
        Input.seek pos w t = (.error (.outOfRange "invalid seek position"), t) := by
  have hvalid := h.valid
  refine ⟨fun items e hitems => readItems_writeItems hvalid items e hitems, fun pos w i hin => ?_,
    fun pos w hout => Output.seek_throws hvalid pos w hout, fun t ht hpos => ⟨fun f hf => ?_, fun pos w hout => ?_⟩⟩
  · obtain ⟨p, haimed, hp, hseek⟩ := Output.seek_within hvalid pos w hin
    refine ⟨p, haimed, hseek, fun hi => ?_⟩
    have hlen := length_splice hp i.bytes
    rw [Item.bytes, length_encode] at hlen
    refine ⟨_, Output.writeItem_eq (s := { s with pos := p }) ⟨hp, hvalid.length_le⟩ i hi, ?_, hlen, ?_⟩
    · change splice s.range p (encode i.format.order i.value) = _
      rw [splice, length_encode]
    · exact congrArg (p + ·) (length_encode _ _)
  · exact ⟨_, Input.readItem_underrun f hf, rfl, rfl⟩
  · exact Input.seek_throws ⟨hpos, ht ▸ hvalid.length_le⟩ pos w hout

theorem byteBuffer_laws_overlap :
    ∃ s' t, Output.writeItems .little
        [⟨⟨⟨.two, true⟩, .big, true⟩, IntType.convert _ (-2)⟩, ⟨⟨⟨.four, false⟩, .little, false⟩, IntType.convert _ 7⟩]
        (Output.make [1, 2, 3] .fromBegin .big) = (.ok (), s') ∧
      Input.readItems .little [⟨⟨.two, true⟩, .big, true⟩, ⟨⟨.four, false⟩, .little, false⟩] ⟨s'.range, 0, .big⟩ =
        (.ok [-2, 7], t) := by
  obtain ⟨s', t, hwrite, hread, -, -⟩ := (byteBuffer_laws .little (Output.make [1, 2, 3] .fromBegin .big)
    ⟨[1, 2, 3], .fromBegin, .big, [], by decide, rfl⟩).1
      [⟨⟨⟨.two, true⟩, .big, true⟩, IntType.convert _ (-2)⟩, ⟨⟨⟨.four, false⟩, .little, false⟩, IntType.convert _ 7⟩] .big
      (by decide)
  exact ⟨s', t, hwrite, hread⟩

end XviOs.ByteBuffer
