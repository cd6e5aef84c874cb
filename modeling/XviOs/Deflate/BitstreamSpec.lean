import XviOs.Deflate.Huffman

namespace XviOs.Deflate

/-- Bit `i` of some bytes, each of which starts with its least significant bit. -/
def bitAt (bytes : List UInt8) (i : Nat) : Bool := (bytes.getD (i / 8) 0).toNat.testBit (i % 8)

/-- The number whose low `n` bits are those from position `p` on. -/
def IsBits (bytes : List UInt8) (p n : Nat) (v : BitVec 32) : Prop :=
  ∀ i < 32, v.getLsbD i = (decide (i < n) && bitAt bytes (p + i))

theorem bitAt_append {bytes rest : List UInt8} {i : Nat} (hi : i < 8 * bytes.length) :
    bitAt (bytes ++ rest) i = bitAt bytes i := by
  have hlt : i / 8 < bytes.length := by omega
  rw [bitAt, bitAt, List.getD_append _ _ _ _ hlt]

theorem IsBits.unique {bytes : List UInt8} {p n : Nat} {v v' : BitVec 32} (h : IsBits bytes p n v)
    (h' : IsBits bytes p n v') : v = v' := by
  apply BitVec.eq_of_getLsbD_eq
  intro i hi
  rw [h i hi, h' i hi]

namespace Bitstream

variable {s : Bitstream} {p n : Nat} {v : BitVec 32}

/-- The stream stands at bit `p` of its buffer. -/
structure At (s : Bitstream) (p : Nat) : Prop where
  eof : s.eof = false
  offset : s.offset = p

/-- The stream moved to bit `p`. -/
def moveTo (s : Bitstream) (p : Nat) : Bitstream := { s with offset := p }

@[simp] theorem buffer_moveTo : (s.moveTo p).buffer = s.buffer := rfl

@[simp] theorem more_moveTo : (s.moveTo p).more = s.more := rfl

theorem At.moveTo_self (hs : s.At p) : s.moveTo p = s := by
  rw [moveTo, ← hs.offset]

theorem At.move (hs : s.At p) (q : Nat) : (s.moveTo q).At q := ⟨hs.eof, rfl⟩

theorem shiftRight_and_one (byte : UInt8) (r : Nat) :
    (BitVec.ofNat 32 byte.toNat >>> r) &&& 1 = BitVec.setWidth 32 (BitVec.ofBool (byte.toNat.testBit r)) := by
  have hbyte := byte.toNat_lt
  apply BitVec.eq_of_toNat_eq
  have hmod : byte.toNat % 2 ^ 32 = byte.toNat := Nat.mod_eq_of_lt (by omega)
  rw [BitVec.toNat_and, BitVec.toNat_ushiftRight, BitVec.toNat_ofNat, hmod, Nat.testBit_eq_decide_div_mod_eq]
  rw [Nat.shiftRight_eq_div_pow]
  change byte.toNat / 2 ^ r &&& 1 = _
  rw [Nat.and_one_is_mod]
  rcases Nat.mod_two_eq_zero_or_one (byte.toNat / 2 ^ r) with h | h <;> simp [h]

theorem getLsbD_bit_shiftLeft (b : Bool) {k i : Nat} (hi : i < 32) :
    (BitVec.setWidth 32 (BitVec.ofBool b) <<< k).getLsbD i = (decide (i = k) && b) := by
  rw [BitVec.getLsbD_shiftLeft, decide_eq_true hi, Bool.true_and, BitVec.getLsbD_setWidth]
  rcases lt_trichotomy i k with h | rfl | h
  · simp [h, h.ne]
  · simp
  · have h0 : ¬ i - k = 0 := by omega
    simp [h0, h.ne']

theorem readBit_at (hs : s.At p) (hp : p < 8 * s.buffer.length) :
    s.readBit = .ok (BitVec.setWidth 32 (BitVec.ofBool (bitAt s.buffer p)), s.moveTo (p + 1)) := by
  obtain ⟨heof, hoff⟩ := hs
  have hnext : ¬ (s.offset > 0 ∧ s.offset / 8 = s.buffer.length) := by
    rw [hoff]
    omega
  have hpos : s.offset ≥ 0 := by omega
  have hin : 0 ≤ s.offset / 8 ∧ s.offset / 8 < s.buffer.length := by
    rw [hoff]
    omega
  have hbyte : byteAt s.buffer (s.offset / 8) = .ok (s.buffer.getD (p / 8) 0) := by
    rw [byteAt, if_pos hin, hoff]
    rfl
  have hbit : (s.offset % 8).toNat = p % 8 := by
    rw [hoff]
    omega
  rw [readBit, heof, if_neg (by decide), if_neg hnext, nextBit, if_pos hpos, if_pos hpos, if_pos hpos, hbyte, hbit]
  change Except.ok _ = _
  rw [shiftRight_and_one, hoff]
  rfl

/-- The loop of `read` where all of its bits are in the buffer. -/
theorem readFrom_at (count offset : Nat) (v : BitVec 32) (hs : s.At p) (hp : p + count ≤ 8 * s.buffer.length) :
    ∃ v', readFrom count offset v s = .ok (v', s.moveTo (p + count)) ∧
      ∀ i < 32, v'.getLsbD i = (v.getLsbD i ||
        (decide (offset ≤ i) && decide (i < offset + count) && bitAt s.buffer (p + (i - offset)))) := by
  induction count generalizing s p offset v with
  | zero =>
      refine ⟨v, ?_, fun i _ => ?_⟩
      · rw [readFrom, Nat.add_zero, hs.moveTo_self]
      · have hno : ¬ (offset ≤ i ∧ i < offset + 0) := by omega
        rw [← Bool.decide_and, decide_eq_false hno, Bool.false_and, Bool.or_false]
  | succ count ih =>
      have hbit := readBit_at hs (by omega)
      obtain ⟨v', hread, hbits⟩ := ih (offset + 1)
        (v ||| BitVec.setWidth 32 (BitVec.ofBool (bitAt s.buffer p)) <<< offset) (hs.move (p + 1))
        (by rw [buffer_moveTo]; omega)
      refine ⟨v', ?_, fun i hi => ?_⟩
      · rw [readFrom, hbit]
        change readFrom count (offset + 1) _ _ = _
        rw [hread, Nat.add_assoc, Nat.add_comm 1 count]
        rfl
      · rw [hbits i hi, BitVec.getLsbD_or, getLsbD_bit_shiftLeft _ hi, buffer_moveTo, Bool.or_assoc]
        congr 1
        -- the bit just read stands at `offset`, and the later ones behind it
        rcases lt_trichotomy i offset with h | rfl | h
        · simp [h.ne, show ¬ offset + 1 ≤ i by omega, show ¬ offset ≤ i by omega]
        · simp
        · have hle : offset + 1 ≤ i := h
          have hpos : p + 1 + (i - (offset + 1)) = p + (i - offset) := by omega
          simp [h.ne', hle, h.le, hpos, Nat.add_assoc, Nat.add_comm 1 count]

theorem canReadBits_at (hs : s.At p) (hn : n ≤ 32) (hp : p + n ≤ 8 * s.buffer.length) :
    s.canReadBits n = .ok (true, s) := by
  have hle : (n : Int) ≤ 8 * s.buffer.length - s.offset := by
    rw [hs.offset]
    omega
  rw [canReadBits, canReadBitsFrom, if_neg (by exact not_lt.mpr hn), if_pos hle]

theorem read_at (hs : s.At p) (hn : n ≤ 32) (hp : p + n ≤ 8 * s.buffer.length) :
    ∃ v, s.read n = .ok (v, s.moveTo (p + n)) ∧ IsBits s.buffer p n v := by
  obtain ⟨v, hv, hbits⟩ := readFrom_at n 0 0 hs hp
  refine ⟨v, ?_, fun i hi => ?_⟩
  · rw [read, canReadBits_at hs hn hp]
    exact hv
  · rw [hbits i hi]
    simp

/-- Without a callback, a read that the buffer is too short for changes nothing. -/
theorem read_short (hs : s.At p) (hmore : s.more = none) (hp : 8 * s.buffer.length < p + n) :
    s.read n = .ok (0, s) := by
  have hcan : s.canReadBits n = .ok (false, s) := by
    rw [canReadBits, canReadBitsFrom]
    split
    · rfl
    · have hlt : ¬ (n : Int) ≤ 8 * s.buffer.length - s.offset := by
        rw [hs.offset]
        omega
      rw [if_neg hlt, refillBuffer, hmore]
      rfl
  rw [read, hcan]
  rfl

/-- A stream with a callback and an empty buffer. -/
structure Starved (s : Bitstream) : Prop where
  eof : s.eof = false
  buffer : s.buffer = []
  offset : s.offset = 0
  overflow : s.overflow.length = overflowSize
  more : s.more ≠ none

/-- The chunk that the callback hands over is dropped. -/
theorem refillBuffer_starved (hs : s.Starved) : ∃ ok t, s.refillBuffer = .ok (ok, t) ∧ t.Starved := by
  obtain ⟨chunks, hchunks⟩ := Option.ne_none_iff_exists'.mp hs.more
  have hover : s.saveOverflow = .ok s.overflow := by
    rw [saveOverflow, hs.buffer, List.length_nil, if_neg (by decide), if_pos (by decide), List.take_zero,
      List.drop_zero, List.nil_append, List.nil_append, Nat.sub_zero, ← hs.overflow, List.drop_length, List.append_nil]
    rfl
  have hoff : s.offset - 8 * s.buffer.length = 0 := by
    rw [hs.offset, hs.buffer]
    rfl
  refine ⟨!(chunks.headD []).isEmpty, { s with offset := 0, more := some chunks.tail }, ?_,
    hs.eof, hs.buffer, rfl, hs.overflow, by simp⟩
  rw [refillBuffer, hchunks]
  change Except.bind s.saveOverflow _ = _
  rw [hover, ← hoff]
  rfl

theorem canReadBitsFrom_starved (calls : Nat) (hs : s.Starved) (hn : 0 < n) :
    ∃ t, canReadBitsFrom n calls s = .ok (false, t) ∧ t.Starved := by
  induction calls generalizing s with
  | zero => exact ⟨s, rfl, hs⟩
  | succ calls ih =>
      rw [canReadBitsFrom]
      split
      · exact ⟨s, rfl, hs⟩
      · have hlt : ¬ (n : Int) ≤ 8 * s.buffer.length - s.offset := by
          rw [hs.offset, hs.buffer, List.length_nil]
          omega
        obtain ⟨ok, t, ht, hst⟩ := refillBuffer_starved hs
        rw [if_neg hlt, ht]
        cases ok with
        | false => exact ⟨t, rfl, hst⟩
        | true => exact ih hst

theorem read_starved (hs : s.Starved) (hn : n ≤ 32) : ∃ t, s.read n = .ok (0, t) ∧ t.Starved := by
  rcases Nat.eq_zero_or_pos n with rfl | hpos
  · refine ⟨s, ?_, hs⟩
    have hat : s.At 0 := ⟨hs.eof, hs.offset⟩
    rw [read, canReadBits_at hat hn (by omega)]
    rfl
  · obtain ⟨t, ht, hst⟩ := canReadBitsFrom_starved ((s.more.getD []).length + 1) hs hpos
    refine ⟨t, ?_, hst⟩
    rw [read, canReadBits, ht]
    rfl

/-- The position after some reads of `total` bits: a read that is too long is left out. -/
def position (total : Nat) : Nat → List Nat → Nat
  | p, [] => p
  | p, n :: counts => position total (if p + n ≤ total then p + n else p) counts

theorem le_position (total p : Nat) (counts : List Nat) : p ≤ position total p counts := by
  induction counts generalizing p with
  | nil => exact Nat.le_refl p
  | cons n counts ih =>
      rw [position]
      split
      · exact (Nat.le_add_right p n).trans (ih (p + n))
      · exact ih p

theorem reads_cons {t : Bitstream} {counts : List Nat} (h : s.read n = .ok (v, t)) :
    reads (n :: counts) s = (reads counts t).bind fun vs => .ok (v :: vs) := by
  rw [reads, h]
  rfl

theorem bind_cons_eq {r : Except Fault (List (BitVec 32))} {w : BitVec 32} {ws : List (BitVec 32)} :
    r.bind (fun vs => .ok (v :: vs)) = .ok (w :: ws) ↔ v = w ∧ r = .ok ws := by
  cases r with
  | error e => simp [Except.bind]
  | ok vs => simp [Except.bind]

theorem reads_starved {counts : List Nat} (hs : s.Starved) (hn : ∀ n ∈ counts, n ≤ 32) :
    reads counts s = .ok (List.replicate counts.length 0) := by
  induction counts generalizing s with
  | nil => rfl
  | cons n counts ih =>
      obtain ⟨t, ht, hst⟩ := read_starved hs (hn n (by simp))
      rw [reads_cons ht, List.length_cons, List.replicate_succ, bind_cons_eq]
      exact ⟨rfl, ih hst fun m hm => hn m (by simp [hm])⟩

theorem getLsbD_zero' (i : Nat) : (0 : BitVec 32).getLsbD i = false := BitVec.getLsbD_zero

theorem isBits_zero_iff {bytes : List UInt8} (hn : n ≤ 32) (hv : IsBits bytes p n v) :
    v = 0 ↔ ∀ i, p ≤ i → i < p + n → bitAt bytes i = false := by
  constructor
  · rintro rfl i hi hin
    have h := hv (i - p) (by omega)
    rwa [decide_eq_true (by omega), Bool.true_and, Nat.add_sub_cancel' hi, eq_comm, getLsbD_zero'] at h
  · intro h
    apply BitVec.eq_of_getLsbD_eq
    intro i hi
    rw [hv i hi, getLsbD_zero']
    by_cases hin : i < n
    · rw [h (p + i) (by omega) (by omega), Bool.and_false]
    · rw [decide_eq_false hin, Bool.false_and]

/-- The reads of a buffer are all zero if all the bits that they take are. -/
theorem reads_zero_iff {counts : List Nat} (hs : s.At p) (hmore : s.more = none) (hn : ∀ n ∈ counts, n ≤ 32) :
    reads counts s = .ok (List.replicate counts.length 0) ↔
      ∀ i, p ≤ i → i < position (8 * s.buffer.length) p counts → bitAt s.buffer i = false := by
  induction counts generalizing s p with
  | nil => simp only [reads, position, List.length_nil, List.replicate_zero, true_iff]; omega
  | cons n counts ih =>
      have hn' : ∀ m ∈ counts, m ≤ 32 := fun m hm => hn m (by simp [hm])
      rw [position, List.length_cons, List.replicate_succ]
      by_cases hp : p + n ≤ 8 * s.buffer.length
      · obtain ⟨v, hv, hbits⟩ := read_at hs (hn n (by simp)) hp
        have hih := ih (hs.move (p + n)) hmore hn'
        have hle := le_position (8 * s.buffer.length) (p + n) counts
        rw [buffer_moveTo] at hih
        rw [reads_cons hv, bind_cons_eq, isBits_zero_iff (hn n (by simp)) hbits, hih, if_pos hp]
        constructor
        · rintro ⟨hfirst, hrest⟩ i hi hlt
          by_cases h : i < p + n
          · exact hfirst i hi h
          · exact hrest i (by omega) hlt
        · intro h
          exact ⟨fun i hi hlt => h i hi (by omega), fun i hi hlt => h i (by omega) hlt⟩
      · rw [reads_cons (read_short hs hmore (by omega)), bind_cons_eq, ih hs hmore hn', if_neg hp]
        exact ⟨fun h => h.2, fun h => ⟨rfl, h⟩⟩

/-- Two streams whose buffers agree as far as the reads go. -/
theorem reads_congr {counts : List Nat} {t : Bitstream} (hs : s.At p) (ht : t.At p) (hn : ∀ n ∈ counts, n ≤ 32)
    (hps : p + counts.sum ≤ 8 * s.buffer.length) (hpt : p + counts.sum ≤ 8 * t.buffer.length)
    (heq : ∀ i < p + counts.sum, bitAt s.buffer i = bitAt t.buffer i) : reads counts s = reads counts t := by
  induction counts generalizing s t p with
  | nil => rfl
  | cons n counts ih =>
      rw [List.sum_cons, ← Nat.add_assoc] at hps hpt heq
      obtain ⟨v, hv, hbits⟩ := read_at hs (hn n (by simp)) (by omega)
      obtain ⟨w, hw, hbits'⟩ := read_at ht (hn n (by simp)) (by omega)
      obtain rfl : v = w := by
        apply hbits.unique
        intro i hi
        rw [hbits' i hi]
        by_cases hin : i < n
        · rw [heq (p + i) (by omega)]
        · rw [decide_eq_false hin, Bool.false_and, Bool.false_and]
      rw [reads_cons hv, reads_cons hw,
        ih (hs.move (p + n)) (ht.move (p + n)) (fun m hm => hn m (by simp [hm])) hps hpt heq]

/-- Reads that end within the first chunk give the same results as those of the whole string. -/
theorem reads_within_chunk {counts : List Nat} {first rest : List UInt8} {chunks : List (List UInt8)}
    (hn : ∀ n ∈ counts, n ≤ 32) (hsum : counts.sum ≤ 8 * first.length) :
    reads counts ((setInput {} first).setMoreInputFn chunks) = reads counts (setInput {} (first ++ rest)) := by
  have hfirst : ((setInput {} first).setMoreInputFn chunks).At 0 := ⟨rfl, rfl⟩
  have hwhole : (setInput {} (first ++ rest)).At 0 := ⟨rfl, rfl⟩
  refine reads_congr hfirst hwhole hn ?_ ?_ fun i hi => (bitAt_append ?_).symm
  · rwa [Nat.zero_add]
  · change 0 + counts.sum ≤ 8 * (first ++ rest).length
    rw [List.length_append]
    omega
  · change i < 8 * first.length
    omega

/-- Where the callback hands over all of the string, each read is zero: the results are
those of the whole string if all of the bits that are read are zero, and not otherwise. -/
theorem reads_chunked_iff (chunks : List (List UInt8)) (counts : List Nat) (hn : ∀ n ∈ counts, n ≤ 32) :
    reads counts (setMoreInputFn {} chunks) = reads counts (setInput {} chunks.flatten) ↔
      ∀ i < position (8 * chunks.flatten.length) 0 counts, bitAt chunks.flatten i = false := by
  have hstarved : (setMoreInputFn {} chunks).Starved := ⟨rfl, rfl, rfl, rfl, by simp [setMoreInputFn]⟩
  have hwhole : (setInput {} chunks.flatten).At 0 := ⟨rfl, rfl⟩
  rw [reads_starved hstarved hn, eq_comm, reads_zero_iff hwhole rfl hn]
  exact ⟨fun h i hi => h i (Nat.zero_le i) hi, fun h i _ hi => h i hi⟩

theorem reads_chunked_zero : reads [8] (setMoreInputFn {} [[0], [1]]) = reads [8] (setInput {} [0, 1]) :=
  (reads_chunked_iff [[0], [1]] [8] (by decide)).mpr (by decide)

/-- The bytes 1 and 2, handed over one at a time, are read as 0. -/
theorem reads_chunked_ne : reads [16] (setMoreInputFn {} [[1], [2]]) ≠ reads [16] (setInput {} [1, 2]) := by
  decide

end Bitstream

end XviOs.Deflate
