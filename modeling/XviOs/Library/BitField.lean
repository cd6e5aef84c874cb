import Mathlib.Tactic

namespace XviOs.Library.Bits

/-- `std::bit_width`. -/
def bitWidth (x : Nat) : Nat := if x = 0 then 0 else Nat.log2 x + 1

/-- `std::bit_floor`. -/
def bitFloor (x : Nat) : Nat := if x = 0 then 0 else 2 ^ Nat.log2 x

/-- `std::has_single_bit`. -/
def hasSingleBit (x : Nat) : Bool := x != 0 && (x &&& (x - 1)) == 0

theorem hasSingleBit_pow {x : Nat} (h : hasSingleBit x = true) : ∃ k, x = 2 ^ k := by
  rw [hasSingleBit, Bool.and_eq_true, bne_iff_ne, beq_iff_eq] at h
  exact Nat.ne_zero_and_sub_one_eq_zero_iff_isPowerOfTwo.mp h

/-- `~(x - 1)` for a number `x > 0` of `w` bits. -/
def alignMask (w x : Nat) : Nat := 2 ^ w - x

/-- `(x + a - 1) & ~(a - 1)` in `w`-bit arithmetic. -/
def alignUp (w x a : Nat) : Nat := (x + a - 1) % 2 ^ w &&& alignMask w a

theorem and_alignMask {w k x : Nat} (hk : k ≤ w) (hx : x < 2 ^ w) :
    x &&& alignMask w (2 ^ k) = x - x % 2 ^ k := by
  have hpos : 0 < 2 ^ k := Nat.pow_pos (by decide)
  have hlt : 2 ^ k - 1 < 2 ^ w := by
    have := Nat.pow_le_pow_right (show 0 < 2 by decide) hk
    omega
  have hmask : alignMask w (2 ^ k) = 2 ^ w - (2 ^ k - 1 + 1) := by
    rw [alignMask, Nat.sub_add_cancel hpos]
  have hw : x - x % 2 ^ k = x >>> k <<< k := by
    have := Nat.div_add_mod x (2 ^ k)
    rw [Nat.shiftLeft_eq, Nat.shiftRight_eq_div_pow, Nat.mul_comm]
    omega
  rw [hmask, hw]
  apply Nat.eq_of_testBit_eq
  intro i
  rw [Nat.testBit_and, Nat.testBit_two_pow_sub_succ hlt, Nat.testBit_two_pow_sub_one, Nat.testBit_shiftLeft]
  by_cases hi : i < k
  · have : ¬ k ≤ i := by omega
    simp [hi, this]
  · have hki : k ≤ i := by omega
    rw [Nat.testBit_shiftRight, show k + (i - k) = i by omega]
    by_cases hb : i < w
    · simp [hi, hb, hki]
    · have : x.testBit i = false :=
        Nat.testBit_lt_two_pow (hx.trans_le (Nat.pow_le_pow_right (by decide) (by omega)))
      simp [this]

theorem alignUp_eq {w k x : Nat} (hk : k ≤ w) (h : x + 2 ^ k - 1 < 2 ^ w) :
    alignUp w x (2 ^ k) = (x + 2 ^ k - 1) / 2 ^ k * 2 ^ k := by
  have hd := Nat.div_add_mod (x + 2 ^ k - 1) (2 ^ k)
  rw [alignUp, Nat.mod_eq_of_lt h, and_alignMask hk h, Nat.mul_comm]
  omega

end XviOs.Library.Bits

namespace XviOs.Library.LittleEndian

/-- Byte-addressed storage: a memory, a disk sector, a buffer. -/
abbrev Bytes := Nat → UInt8

def readLE (m : Bytes) (a : Nat) : Nat → Nat
  | 0 => 0
  | n + 1 => (m a).toNat + 256 * readLE m (a + 1) n

def writeLE (m : Bytes) (a n v : Nat) : Bytes :=
  fun x => if a ≤ x ∧ x < a + n then UInt8.ofNat (v / 256 ^ (x - a)) else m x

/-- The two storages hold the same bytes from `lo` up to `hi`. -/
def EqOn (m m' : Bytes) (lo hi : Nat) : Prop := ∀ x, lo ≤ x → x < hi → m' x = m x

variable {m m' m'' : Bytes} {a b n k v lo hi : Nat}

theorem EqOn.refl (m : Bytes) (lo hi : Nat) : EqOn m m lo hi := fun _ _ _ => rfl

theorem EqOn.trans (h : EqOn m m' lo hi) (h' : EqOn m' m'' lo hi) : EqOn m m'' lo hi :=
  fun x hl hh => (h' x hl hh).trans (h x hl hh)

theorem EqOn.mono (h : EqOn m m' lo hi) (hlo : lo ≤ a) (hhi : b ≤ hi) : EqOn m m' a b :=
  fun x hl hh => h x (by omega) (by omega)

theorem readLE_lt (m : Bytes) (a n : Nat) : readLE m a n < 256 ^ n := by
  induction n generalizing a with
  | zero => simp [readLE]
  | succ n ih =>
      have h := ih (a + 1)
      have hb := (m a).toNat_lt
      simp only [readLE, Nat.pow_succ]
      omega

/-- The same bytes in another place make the same number. -/
theorem readLE_shift (h : ∀ x, x < n → m' (b + x) = m (a + x)) : readLE m' b n = readLE m a n := by
  induction n generalizing a b with
  | zero => rfl
  | succ n ih =>
      have h0 : m' b = m a := h 0 (by omega)
      have ht : ∀ x, x < n → m' (b + 1 + x) = m (a + 1 + x) := fun x hx => by
        rw [show b + 1 + x = b + (x + 1) by omega, show a + 1 + x = a + (x + 1) by omega]
        exact h (x + 1) (by omega)
      rw [readLE, readLE, h0, ih ht]

theorem readLE_congr (h : EqOn m m' a (a + n)) : readLE m' a n = readLE m a n :=
  readLE_shift (fun x hx => h (a + x) (by omega) (by omega))

/-- Distinct contents give distinct numbers: a span is determined by its value. -/
theorem readLE_inj (h : readLE m a n = readLE m' a n) : EqOn m m' a (a + n) := by
  induction n generalizing a with
  | zero => intro x hl hh; omega
  | succ n ih =>
      have hm := (m a).toNat_lt
      have hm' := (m' a).toNat_lt
      simp only [readLE] at h
      have h0 : (m a).toNat = (m' a).toNat := by omega
      have ht : EqOn m m' (a + 1) (a + 1 + n) := ih (by omega)
      intro x hl hh
      rcases Nat.eq_or_lt_of_le hl with rfl | hl'
      · exact UInt8.toNat_inj.mp h0.symm
      · exact ht x hl' (by omega)

theorem writeLE_eqOn (m : Bytes) (a n v : Nat) (h : hi ≤ a ∨ a + n ≤ lo) :
    EqOn m (writeLE m a n v) lo hi := by
  intro x hl hh
  simp only [writeLE]
  rw [if_neg (by omega)]

theorem readLE_writeLE_of_disjoint (m : Bytes) (v : Nat) (h : a + n ≤ b ∨ b + k ≤ a) :
    readLE (writeLE m a n v) b k = readLE m b k :=
  readLE_congr (writeLE_eqOn m a n v (by omega))

theorem readLE_writeLE_self (m : Bytes) (a n v : Nat) :
    readLE (writeLE m a n v) a n = v % 256 ^ n := by
  induction n generalizing a v with
  | zero => simp [readLE, Nat.mod_one]
  | succ n ih =>
      have h0 : (writeLE m a (n + 1) v a).toNat = v % 256 := by
        simp [writeLE]
      have ht : readLE (writeLE m a (n + 1) v) (a + 1) n = readLE (writeLE m (a + 1) n (v / 256)) (a + 1) n := by
        apply readLE_congr
        intro x hl hh
        have hx : x - a = (x - (a + 1)) + 1 := by omega
        simp only [writeLE]
        rw [if_pos (by omega), if_pos (by omega), hx, Nat.pow_succ, Nat.mul_comm, Nat.div_div_eq_div_mul]
      rw [readLE, h0, ht, ih, Nat.pow_succ, Nat.mul_comm (256 ^ n) 256, Nat.mod_mul]

/-- Writing back what a span already holds changes nothing. -/
theorem writeLE_readLE (m : Bytes) (a n : Nat) : writeLE m a n (readLE m a n) = m := by
  funext x
  by_cases hx : a ≤ x ∧ x < a + n
  · have h : EqOn m (writeLE m a n (readLE m a n)) a (a + n) :=
      readLE_inj (by rw [readLE_writeLE_self, Nat.mod_eq_of_lt (readLE_lt m a n)])
    exact h x hx.1 hx.2
  · simp [writeLE, hx]

/-- The lowest byte of a number can be written by itself. -/
theorem writeLE_succ (m : Bytes) (a n v : Nat) :
    writeLE m a (n + 1) v = writeLE (writeLE m (a + 1) n (v / 256)) a 1 v := by
  funext x
  simp only [writeLE]
  by_cases hx : a + 1 ≤ x ∧ x < a + 1 + n
  · have hk : x - a = (x - (a + 1)) + 1 := by omega
    rw [if_pos (by omega), if_neg (by omega), if_pos hx, hk, Nat.pow_succ, Nat.mul_comm, Nat.div_div_eq_div_mul]
  · by_cases ha : a ≤ x ∧ x < a + 1
    · rw [if_pos (by omega), if_pos ha]
    · rw [if_neg (by omega), if_neg ha, if_neg hx]

theorem writeLE_writeLE (m : Bytes) (a n v w : Nat) : writeLE (writeLE m a n v) a n w = writeLE m a n w := by
  funext x
  by_cases hx : a ≤ x ∧ x < a + n <;> simp [writeLE, hx]

def read64 (m : Bytes) (a : Nat) : Nat := readLE m a 8

def write64 (m : Bytes) (a v : Nat) : Bytes := writeLE m a 8 v

theorem read64_lt (m : Bytes) (a : Nat) : read64 m a < 2 ^ 64 := readLE_lt m a 8

theorem read64_congr (h : EqOn m m' a (a + 8)) : read64 m' a = read64 m a := readLE_congr h

theorem read64_write64_self (m : Bytes) (a : Nat) (h : v < 2 ^ 64) : read64 (write64 m a v) a = v := by
  rw [read64, write64, readLE_writeLE_self]
  exact Nat.mod_eq_of_lt h

theorem read64_write64_of_disjoint (m : Bytes) (v : Nat) (h : a + 8 ≤ b ∨ b + 8 ≤ a) :
    read64 (write64 m a v) b = read64 m b :=
  readLE_writeLE_of_disjoint m v h

theorem write64_eqOn (m : Bytes) (a v : Nat) (h : hi ≤ a ∨ a + 8 ≤ lo) :
    EqOn m (write64 m a v) lo hi :=
  writeLE_eqOn m a 8 v h

/-- The storage with each of the words `(address, value)` written. -/
def storeWords : List (Nat × Nat) → Bytes → Bytes
  | [], m => m
  | c :: cs, m => write64 (storeWords cs m) c.1 c.2

/-- Words that lie apart can all be read back. -/
theorem read64_storeWords {cs : List (Nat × Nat)} (h : cs.Pairwise (fun c d => c.1 + 8 ≤ d.1 ∨ d.1 + 8 ≤ c.1))
    (hv : ∀ c ∈ cs, c.2 < 2 ^ 64) : ∀ c ∈ cs, read64 (storeWords cs m) c.1 = c.2 := by
  induction cs with
  | nil => simp
  | cons c cs ih =>
      obtain ⟨hc, ht⟩ := List.pairwise_cons.mp h
      intro d hd
      rcases List.mem_cons.mp hd with rfl | hd
      · exact read64_write64_self _ _ (hv d (by simp))
      · exact (read64_write64_of_disjoint _ _ (hc d hd)).trans (ih ht (fun e he => hv e (by simp [he])) d hd)

end XviOs.Library.LittleEndian

namespace XviOs.Library.BitField

open LittleEndian

/-- Bit `i` of the storage, the lowest bit of byte 0 being the first. -/
def bit (m : Bytes) (i : Nat) : Bool := (m (i / 8)).toNat.testBit (i % 8)

/-- The number in the `w` bits from bit `o` on. -/
def field (m : Bytes) (o w : Nat) : Nat := readLE m (o / 8) (w / 8 + 2) / 2 ^ (o % 8) % 2 ^ w

/-- `m'` is `m` with the number `v` in the `w` bits from bit `o` on. -/
def FieldSet (m m' : Bytes) (o w v : Nat) : Prop :=
  ∀ i, bit m' i = if o ≤ i ∧ i < o + w then v.testBit (i - o) else bit m i

variable {m m' : Bytes} {a n o w p v i j : Nat}

theorem testBit_readLE (m : Bytes) (a n j : Nat) :
    (readLE m a n).testBit j = (decide (j < 8 * n) && bit m (8 * a + j)) := by
  induction n generalizing a j with
  | zero => simp [readLE]
  | succ n ih =>
      have hb := (m a).toNat_lt
      rw [readLE, Nat.add_comm, show 256 = 2 ^ 8 from rfl, Nat.testBit_two_pow_mul_add _ hb, ih]
      split
      · next hj =>
          have h8 : (8 * a + j) / 8 = a := by omega
          have hm : (8 * a + j) % 8 = j := by omega
          simp [bit, h8, hm, show j < 8 * (n + 1) by omega]
      · next hj =>
          rw [show 8 * (a + 1) + (j - 8) = 8 * a + j by omega]
          congr 1
          exact decide_eq_decide.mpr (by omega)

theorem bit_writeLE (m : Bytes) (a n v i : Nat) :
    bit (writeLE m a n v) i = if 8 * a ≤ i ∧ i < 8 * (a + n) then v.testBit (i - 8 * a) else bit m i := by
  by_cases h : 8 * a ≤ i ∧ i < 8 * (a + n)
  · have hin : a ≤ i / 8 ∧ i / 8 < a + n := by omega
    have h256 : (256 : Nat) ^ (i / 8 - a) = 2 ^ (8 * (i / 8 - a)) := by
      rw [show (256 : Nat) = 2 ^ 8 from rfl, ← Nat.pow_mul]
    have hj : 8 * (i / 8 - a) + i % 8 = i - 8 * a := by omega
    simp only [bit, writeLE, if_pos hin, if_pos h, UInt8.toNat_ofNat', h256]
    rw [Nat.testBit_mod_two_pow, Nat.testBit_div_two_pow, Nat.add_comm, hj]
    simp [Nat.mod_lt]
  · have hout : ¬ (a ≤ i / 8 ∧ i / 8 < a + n) := by omega
    simp only [bit, writeLE, if_neg hout, if_neg h]

theorem testBit_field (m : Bytes) (o w j : Nat) :
    (field m o w).testBit j = (decide (j < w) && bit m (o + j)) := by
  rw [field, Nat.testBit_mod_two_pow, Nat.testBit_div_two_pow, testBit_readLE]
  by_cases hj : j < w
  · rw [show 8 * (o / 8) + (j + o % 8) = o + j by omega]
    simp [hj, show j + o % 8 < 8 * (w / 8 + 2) by omega]
  · simp [hj]

/-- A number whose bits are those of the field is the field. -/
theorem eq_field (h : ∀ j, v.testBit j = (decide (j < w) && bit m (o + j))) : v = field m o w :=
  Nat.eq_of_testBit_eq (fun j => (h j).trans (testBit_field m o w j).symm)

theorem field_lt (m : Bytes) (o w : Nat) : field m o w < 2 ^ w := Nat.mod_lt _ (Nat.two_pow_pos w)

/-- The high bits of a field are a field. -/
theorem field_div (m : Bytes) (o w k : Nat) : field m o w / 2 ^ k = field m (o + k) (w - k) := by
  apply eq_field
  intro j
  rw [Nat.testBit_div_two_pow, testBit_field, show o + (j + k) = o + k + j by omega]
  congr 1
  exact decide_eq_decide.mpr (by omega)

theorem FieldSet.field_self (h : FieldSet m m' o w v) : field m' o w = v % 2 ^ w := by
  apply Nat.eq_of_testBit_eq
  intro j
  rw [testBit_field, Nat.testBit_mod_two_pow, h (o + j)]
  by_cases hj : j < w
  · simp [hj]
  · simp [hj]

theorem FieldSet.field_of_disjoint (h : FieldSet m m' o w v) (hd : p + n ≤ o ∨ o + w ≤ p) :
    field m' p n = field m p n := by
  apply Nat.eq_of_testBit_eq
  intro j
  rw [testBit_field, testBit_field, h (p + j)]
  by_cases hj : j < n
  · rw [if_neg (by omega)]
  · simp [hj]

end XviOs.Library.BitField
