import Mathlib.Tactic
import XviOs.Library.Slices
import XviOs.StringImpl.Search

namespace XviOs.StringImpl

open Library.LittleEndian Library.Slices

/-- The memory, and where it was written. -/
structure Buffer where
  mem : Bytes
  written : List Nat

def Buffer.put (b : Buffer) (dest : Nat) (c : UInt8) : Buffer := ⟨store b.mem dest [c], dest :: b.written⟩

def Buffer.puts (b : Buffer) (dest : Nat) : List UInt8 → Buffer
  | [] => b
  | c :: data => (b.put dest c).puts (dest + 1) data

def memorySet (b : Buffer) (array : Nat) (value : UInt8) (count : Nat) : Buffer :=
  (List.range count).foldl (fun b i => b.put (array + i) value) b

/-- What `string_copy_n` leaves in `dest` and `n`. Nothing is the result of a read past the source. -/
def copyNLoop (b : Buffer) (dest : Nat) : List UInt8 → Nat → Option (Buffer × Nat × Nat)
  | _, 0 => some (b, dest, 0)
  | [], _ + 1 => none
  | c :: source, n + 1 => if c ≠ 0 then copyNLoop (b.put dest c) (dest + 1) source n else some (b, dest, n + 1)

def stringCopyN (b : Buffer) (dest : Nat) (source : List UInt8) (n : Nat) : Option Buffer :=
  (copyNLoop b dest source n).map fun s => memorySet s.1 s.2.1 0 s.2.2

/-- `string_length` with a bound. -/
def stringLengthN (mem : Bytes) (string : Nat) : Nat → Nat
  | 0 => 0
  | n + 1 => if mem string ≠ 0 then stringLengthN mem (string + 1) n + 1 else 0

/-- `string_length` of the destination, which need not be terminated. -/
def stringLengthAt (mem : Bytes) (string : Nat) : Nat → Option Nat
  | 0 => none
  | fuel + 1 => if mem string ≠ 0 then (stringLengthAt mem (string + 1) fuel).map (· + 1) else some 0

/-- The result of `n--`, which wraps to the greatest `size_t`. -/
def decrement (sizeMax n : Nat) : Nat := if n = 0 then sizeMax else n - 1

/-- What `string_copy_l` leaves in its variables. -/
structure CopyState where
  buffer : Buffer
  dest : Nat
  source : List UInt8
  n : Nat
  copied : Nat

def copyLLoop (sizeMax : Nat) (b : Buffer) (dest : Nat) (source : List UInt8) (n copied : Nat) : Option CopyState :=
  if n > 1 then
    match source with
    | [] => none
    | c :: rest =>
      if c ≠ 0 then copyLLoop sizeMax (b.put dest c) (dest + 1) rest (n - 1) (copied + 1)
      else some ⟨b, dest, c :: rest, n - 1, copied⟩
  else some ⟨b, dest, source, decrement sizeMax n, copied⟩

def stringCopyL (sizeMax : Nat) (b : Buffer) (dest : Nat) (source : List UInt8) (n : Nat) : Option (Buffer × Nat) :=
  (copyLLoop sizeMax b dest source n 0).bind fun s =>
    (if s.n ≥ 1 then some s.copied else (stringLength s.source).map (s.copied + ·)).map fun length =>
      (s.buffer.put s.dest 0, length)

def stringConcatenateN (fuel : Nat) (b : Buffer) (dest : Nat) (source : List UInt8) (n : Nat) : Option Buffer :=
  (stringLengthAt b.mem dest fuel).bind fun destLen => stringCopyN b (dest + destLen) source n

def stringConcatenateL (sizeMax : Nat) (b : Buffer) (dest : Nat) (source : List UInt8) (n : Nat) :
    Option (Buffer × Nat) :=
  let destLen := stringLengthN b.mem dest n
  if destLen ≥ n then some (b, n)
  else (stringCopyL sizeMax b (dest + destLen) source (n - destLen)).map fun s => (s.1, destLen + s.2)

/-- A string, and what can be read behind it. -/
structure Source where
  chars : List UInt8
  tail : List UInt8
  zero_notMem : 0 ∉ chars

def Source.text (s : Source) : List UInt8 := s.chars ++ 0 :: s.tail

/-- The memory holds a string. -/
def HasString (mem : Bytes) (a : Nat) (chars : List UInt8) : Prop :=
  slice mem a chars.length = chars ∧ mem (a + chars.length) = 0

/-- Some characters from `a` on were written, and nothing else. -/
structure Within (mem : Bytes) (a n : Nat) (b : Buffer) : Prop where
  bounds : ∀ x ∈ b.written, a ≤ x ∧ x < a + n
  kept : ∀ x ∉ b.written, b.mem x = mem x

structure CopyRight (mem : Bytes) (dest : Nat) (s : Source) (n : Nat) (b : Buffer) (length : Nat) : Prop where
  within : Within mem dest n b
  terminated : 0 < n → HasString b.mem dest (s.chars.take (n - 1))
  returned : length = s.chars.length

/-- The first NUL of the destination. -/
structure Terminated (mem : Bytes) (dest k : Nat) : Prop where
  zero : mem (dest + k) = 0
  ne_zero : ∀ i < k, mem (dest + i) ≠ 0

/-- The characters that are appended to a string of length `k`. -/
structure AppendRight (mem : Bytes) (dest k : Nat) (s : Source) (n : Nat) (b : Buffer) : Prop where
  within : Within mem (dest + k) (n + 1) b
  appended : slice b.mem (dest + k) (min n s.chars.length) = s.chars.take n

variable {b : Buffer} {dest n : Nat} {data data' : List UInt8}

theorem puts_append : b.puts dest (data ++ data') = (b.puts dest data).puts (dest + data.length) data' := by
  induction data generalizing b dest with
  | nil => rfl
  | cons c data ih =>
    rw [List.cons_append, Buffer.puts, ih, Buffer.puts, List.length_cons, Nat.add_right_comm, Nat.add_assoc]

theorem mem_puts : (b.puts dest data).mem = store b.mem dest data := by
  induction data generalizing b dest with
  | nil => exact (store_nil _ _).symm
  | cons c data ih => rw [Buffer.puts, ih, Buffer.put, store_cons]

theorem mem_written_puts {x : Nat} :
    x ∈ (b.puts dest data).written ↔ x ∈ b.written ∨ (dest ≤ x ∧ x < dest + data.length) := by
  induction data generalizing b dest with
  | nil => simp [Buffer.puts]
  | cons c data ih =>
    have hhead : x = dest ∨ (dest + 1 ≤ x ∧ x < dest + 1 + data.length) ↔
        dest ≤ x ∧ x < dest + (c :: data).length := by
      rw [List.length_cons]
      omega
    rw [Buffer.puts, ih, Buffer.put, List.mem_cons, or_assoc, or_left_comm, hhead]

theorem memorySet_eq (value : UInt8) (count : Nat) :
    memorySet b dest value count = b.puts dest (List.replicate count value) := by
  induction count with
  | zero => rfl
  | succ count ih =>
    rw [memorySet, List.range_succ, List.foldl_append, ← memorySet, ih, List.replicate_succ', puts_append,
      List.length_replicate]
    rfl

theorem copyNLoop_eq {chars : List UInt8} (hchars : 0 ∉ chars) (tail : List UInt8) (n : Nat) :
    copyNLoop b dest (chars ++ 0 :: tail) n =
      some (b.puts dest (chars.take n), dest + (chars.take n).length, n - chars.length) := by
  induction chars generalizing b dest n with
  | nil =>
    cases n with
    | zero => rfl
    | succ n => exact if_neg (by simp)
  | cons c chars ih =>
    rw [List.mem_cons, not_or] at hchars
    cases n with
    | zero => simp [copyNLoop, Buffer.puts]
    | succ n =>
      rw [List.cons_append, copyNLoop, if_pos (Ne.symm hchars.1), ih hchars.2, List.take_succ_cons, Buffer.puts,
        List.length_cons, List.length_cons, Nat.add_sub_add_right, Nat.add_right_comm, Nat.add_assoc]

/-- The characters that fit, and as many zeros as are left of the bound. -/
theorem stringCopyN_eq (s : Source) (n : Nat) :
    stringCopyN b dest s.text n =
      some (b.puts dest (s.chars.take n ++ List.replicate (n - s.chars.length) 0)) := by
  rw [stringCopyN, Source.text, copyNLoop_eq s.zero_notMem, Option.map_some, memorySet_eq, puts_append]

theorem copyLLoop_eq (sizeMax : Nat) {chars : List UInt8} (hchars : 0 ∉ chars) (tail : List UInt8) (hn : 0 < n)
    (copied : Nat) :
    copyLLoop sizeMax b dest (chars ++ 0 :: tail) n copied =
      some ⟨b.puts dest (chars.take (n - 1)), dest + (chars.take (n - 1)).length, chars.drop (n - 1) ++ 0 :: tail,
        n - 1 - chars.length, copied + (chars.take (n - 1)).length⟩ := by
  induction chars generalizing b dest n copied with
  | nil =>
    rw [List.nil_append, copyLLoop]
    split
    · simp [Buffer.puts]
    · have hone : n = 1 := by omega
      simp [hone, decrement, Buffer.puts]
  | cons c chars ih =>
    rw [List.mem_cons, not_or] at hchars
    rw [List.cons_append, copyLLoop]
    split
    · obtain ⟨m, rfl⟩ : ∃ m, n = m + 2 := ⟨n - 2, by omega⟩
      have hsub : m + 2 - 1 - 1 - chars.length = m + 2 - 1 - (c :: chars).length := by
        rw [List.length_cons]
        omega
      rw [if_pos (Ne.symm hchars.1), ih hchars.2 (by omega), hsub]
      simp [Buffer.puts, Nat.add_assoc, Nat.add_comm 1]
    · have hone : n = 1 := by omega
      simp [hone, decrement, Buffer.puts]

/-- The characters that fit in front of the terminator. -/
theorem stringCopyL_eq (sizeMax : Nat) (s : Source) (hn : 0 < n) :
    stringCopyL sizeMax b dest s.text n = some (b.puts dest (s.chars.take (n - 1) ++ [0]), s.chars.length) := by
  have hrest : 0 ∉ s.chars.drop (n - 1) := fun h => s.zero_notMem (List.mem_of_mem_drop h)
  have hlength : (if n - 1 - s.chars.length ≥ 1 then some (0 + (s.chars.take (n - 1)).length)
      else (stringLength (s.chars.drop (n - 1) ++ 0 :: s.tail)).map (0 + (s.chars.take (n - 1)).length + ·)) =
      some s.chars.length := by
    split
    · rw [List.length_take]
      congr 1
      omega
    · rw [stringLength_append hrest, Option.map_some, List.length_take, List.length_drop]
      congr 1
      omega
  rw [stringCopyL, Source.text, copyLLoop_eq sizeMax s.zero_notMem s.tail hn, Option.bind_some, hlength, Option.map_some,
    puts_append]
  rfl

section Length

variable {mem : Bytes} {k : Nat}

theorem Terminated.head (h : Terminated mem dest (k + 1)) : mem dest ≠ 0 := h.ne_zero 0 (Nat.succ_pos k)

theorem Terminated.tail (h : Terminated mem dest (k + 1)) : Terminated mem (dest + 1) k := by
  constructor
  · rw [Nat.add_right_comm, Nat.add_assoc]
    exact h.zero
  · intro i hi
    rw [Nat.add_right_comm, Nat.add_assoc]
    exact h.ne_zero (i + 1) (Nat.succ_lt_succ hi)

theorem stringLengthN_terminated (h : Terminated mem dest k) (hk : k ≤ n) : stringLengthN mem dest n = k := by
  induction n generalizing dest k with
  | zero => exact (Nat.le_zero.mp hk).symm
  | succ n ih =>
    rw [stringLengthN]
    cases k with
    | zero => exact if_neg (not_not.mpr h.zero)
    | succ k => rw [if_pos h.head, ih h.tail (Nat.le_of_succ_le_succ hk)]

theorem stringLengthN_unterminated (h : ∀ i < n, mem (dest + i) ≠ 0) : stringLengthN mem dest n = n := by
  induction n generalizing dest with
  | zero => rfl
  | succ n ih =>
    have hhead : mem dest ≠ 0 := h 0 (Nat.succ_pos n)
    rw [stringLengthN, if_pos hhead, ih]
    intro i hi
    rw [Nat.add_right_comm, Nat.add_assoc]
    exact h (i + 1) (Nat.succ_lt_succ hi)

theorem stringLengthAt_terminated {fuel : Nat} (h : Terminated mem dest k) (hfuel : k < fuel) :
    stringLengthAt mem dest fuel = some k := by
  induction fuel generalizing dest k with
  | zero => exact absurd hfuel (Nat.not_lt_zero k)
  | succ fuel ih =>
    rw [stringLengthAt]
    cases k with
    | zero => exact if_neg (not_not.mpr h.zero)
    | succ k => rw [if_pos h.head, ih h.tail (Nat.lt_of_succ_lt_succ hfuel), Option.map_some]

end Length

section Results

variable {mem : Bytes} {s : Source} {a k sizeMax : Nat}

theorem within_puts (h : data.length ≤ n) : Within mem a n (Buffer.puts ⟨mem, []⟩ a data) := by
  constructor
  · intro x hx
    rw [mem_written_puts] at hx
    obtain hx | hx := hx
    · exact absurd hx List.not_mem_nil
    · omega
  · intro x hx
    rw [mem_written_puts, not_or] at hx
    rw [mem_puts]
    exact store_of_not_mem hx.2

theorem Within.mono {b : Buffer} {a' n' : Nat} (h : Within mem a n b) (ha : a' ≤ a) (hn : a + n ≤ a' + n') :
    Within mem a' n' b := by
  refine ⟨fun x hx => ?_, h.kept⟩
  have hbounds := h.bounds x hx
  omega

theorem slice_puts : slice (Buffer.puts ⟨mem, []⟩ a (data ++ data')).mem a data.length = data ∧
    slice (Buffer.puts ⟨mem, []⟩ a (data ++ data')).mem (a + data.length) data'.length = data' := by
  have hself := slice_store_self mem a (data ++ data')
  rw [List.length_append, ← slice_append] at hself
  rw [mem_puts]
  exact ⟨List.append_inj_left hself (length_slice _ _ _), List.append_inj_right hself (length_slice _ _ _)⟩

theorem hasString_puts (rest : List UInt8) : HasString (Buffer.puts ⟨mem, []⟩ a (data ++ 0 :: rest)).mem a data := by
  obtain ⟨hdata, hrest⟩ : slice (Buffer.puts ⟨mem, []⟩ a (data ++ 0 :: rest)).mem a data.length = data ∧
      slice (Buffer.puts ⟨mem, []⟩ a (data ++ 0 :: rest)).mem (a + data.length) (0 :: rest).length = 0 :: rest := slice_puts
  rw [List.length_cons, slice_cons, List.cons.injEq] at hrest
  exact ⟨hdata, hrest.1⟩

theorem stringCopyL_right (hn : 0 < n) :
    ∃ b length, stringCopyL sizeMax ⟨mem, []⟩ dest s.text n = some (b, length) ∧ CopyRight mem dest s n b length := by
  refine ⟨_, _, stringCopyL_eq sizeMax s hn, within_puts ?_, fun _ => hasString_puts [], rfl⟩
  rw [List.length_append, List.length_take, List.length_singleton]
  omega

/-- A destination with a terminator in front of the bound. -/
theorem stringConcatenateL_terminated (h : Terminated mem dest k) (hk : k < n) :
    ∃ b, stringConcatenateL sizeMax ⟨mem, []⟩ dest s.text n = some (b, k + s.chars.length) ∧ Within mem dest n b := by
  have hlength := stringLengthN_terminated h hk.le
  obtain ⟨b, length, hcopy, hright⟩ : ∃ b length, stringCopyL sizeMax ⟨mem, []⟩ (dest + k) s.text (n - k) =
      some (b, length) ∧ CopyRight mem (dest + k) s (n - k) b length := stringCopyL_right (Nat.sub_pos_of_lt hk)
  refine ⟨b, ?_, hright.within.mono (Nat.le_add_right dest k) (by omega)⟩
  rw [stringConcatenateL]
  dsimp only
  rw [hlength, if_neg (by omega), hcopy, Option.map_some, hright.returned]

theorem stringConcatenateL_full (h : ∀ i < n, mem (dest + i) ≠ 0) :
    stringConcatenateL sizeMax ⟨mem, []⟩ dest s.text n = some (⟨mem, []⟩, n) := by
  rw [stringConcatenateL]
  dsimp only
  rw [stringLengthN_unterminated h, if_pos le_rfl]

theorem terminated_or_full (mem : Bytes) (dest n : Nat) :
    (∃ k < n, Terminated mem dest k) ∨ ∀ i < n, mem (dest + i) ≠ 0 := by
  by_cases h : ∃ k, mem (dest + k) = 0 ∧ k < n
  · refine .inl ⟨Nat.find h, (Nat.find_spec h).2, (Nat.find_spec h).1, fun i hi hzero => ?_⟩
    exact Nat.find_min h hi ⟨hzero, hi.trans (Nat.find_spec h).2⟩
  · exact .inr fun i hi hzero => h ⟨i, hzero, hi⟩

theorem Terminated.unique {k' : Nat} (h : Terminated mem dest k) (h' : Terminated mem dest k') : k = k' := by
  apply le_antisymm
  · by_contra hlt
    exact h.ne_zero k' (by omega) h'.zero
  · by_contra hlt
    exact h'.ne_zero k (by omega) h.zero

theorem stringConcatenateN_right (h : Terminated mem dest k) {fuel : Nat} (hfuel : k < fuel) :
    ∃ b, stringConcatenateN fuel ⟨mem, []⟩ dest s.text n = some b ∧ AppendRight mem dest k s n b ∧
      (s.chars.length < n → HasString b.mem (dest + k) (s.chars.take n)) := by
  have hcall : stringConcatenateN fuel ⟨mem, []⟩ dest s.text n = some (Buffer.puts ⟨mem, []⟩ (dest + k)
      (s.chars.take n ++ List.replicate (n - s.chars.length) 0)) := by
    rw [stringConcatenateN, stringLengthAt_terminated h hfuel, Option.bind_some, stringCopyN_eq]
  refine ⟨_, hcall, ⟨within_puts ?_, ?_⟩, ?_⟩
  · rw [List.length_append, List.length_take, List.length_replicate]
    omega
  · rw [← List.length_take]
    exact slice_puts.1
  · intro hlt
    obtain ⟨m, hm⟩ : ∃ m, n - s.chars.length = m + 1 := ⟨n - s.chars.length - 1, by omega⟩
    rw [hm, List.replicate_succ]
    exact hasString_puts _

end Results

/-- The bounded copy, and the two concatenations. -/
theorem bounded_right (sizeMax : Nat) (mem : Bytes) (dest : Nat) (s : Source) (n : Nat) :
    (0 < n → ∃ b length, stringCopyL sizeMax ⟨mem, []⟩ dest s.text n = some (b, length) ∧
      CopyRight mem dest s n b length) ∧
    (∃ b length, stringConcatenateL sizeMax ⟨mem, []⟩ dest s.text n = some (b, length) ∧ Within mem dest n b ∧
      (∀ k < n, Terminated mem dest k → length = k + s.chars.length) ∧
      ((∀ i < n, mem (dest + i) ≠ 0) → length = n)) ∧
    ∀ k, Terminated mem dest k → ∃ m, ∀ fuel ≥ m, ∃ b, stringConcatenateN fuel ⟨mem, []⟩ dest s.text n = some b ∧
      AppendRight mem dest k s n b ∧ (s.chars.length < n → HasString b.mem (dest + k) (s.chars.take n)) := by
  refine ⟨fun hn => stringCopyL_right hn, ?_, fun k h => ⟨k + 1, fun fuel hfuel => stringConcatenateN_right h hfuel⟩⟩
  obtain ⟨k, hk, h⟩ | h := terminated_or_full mem dest n
  · obtain ⟨b, hcall, hwithin⟩ : ∃ b, stringConcatenateL sizeMax ⟨mem, []⟩ dest s.text n =
        some (b, k + s.chars.length) ∧ Within mem dest n b := stringConcatenateL_terminated h hk
    refine ⟨b, _, hcall, hwithin, fun k' _ h' => by rw [h.unique h'], fun hfull => ?_⟩
    exact absurd h.zero (hfull k hk)
  · refine ⟨_, _, stringConcatenateL_full h, ?_, fun k hk h' => ?_, fun _ => rfl⟩
    · exact ⟨fun x hx => absurd hx List.not_mem_nil, fun _ _ => rfl⟩
    · exact absurd h'.zero (h k hk)

/-- The destination of five characters is full, and its terminator follows. -/
theorem bounded_full :
    ¬ ∀ (sizeMax : Nat) (mem : Bytes) (dest : Nat) (s : Source) (n : Nat),
      (∃ b length, stringCopyL sizeMax ⟨mem, []⟩ dest s.text n = some (b, length) ∧ CopyRight mem dest s n b length) ∧
      (∃ b length, stringConcatenateL sizeMax ⟨mem, []⟩ dest s.text n = some (b, length) ∧ Within mem dest n b ∧
        ∀ k, Terminated mem dest k → length = k + s.chars.length) ∧
      ∀ k, Terminated mem dest k → ∃ m, ∀ fuel ≥ m, ∃ b, stringConcatenateN fuel ⟨mem, []⟩ dest s.text n = some b ∧
        AppendRight mem dest k s n b ∧ HasString b.mem (dest + k) (s.chars.take n) := by
  intro h
  let hello : Bytes := fun x => "Hello".toList.map Char.toUInt8 |>.getD x 0
  obtain ⟨-, ⟨b, length, hcall, -, hlength⟩, -⟩ := h 255 hello 0 ⟨[33], [], by decide⟩ 5
  have hfull : ∀ i < 5, hello (0 + i) ≠ 0 := by decide
  rw [stringConcatenateL_full hfull, Option.some_inj, Prod.mk.injEq] at hcall
  have hsum := hlength 5 ⟨by decide, hfull⟩
  rw [← hcall.2] at hsum
  exact absurd hsum (by decide)

end XviOs.StringImpl
