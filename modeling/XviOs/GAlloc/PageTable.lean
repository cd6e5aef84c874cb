import Mathlib.Tactic

namespace XviOs.GAlloc

inductive PageType where
  | pool
  | medium
  | direct
  | subAlloc
  deriving DecidableEq

def PageType.bits : PageType → BitVec 64
  | .pool => 0
  | .medium => 1
  | .direct => 2
  | .subAlloc => 3

/-- What ends an insertion other than its last entry. -/
inductive Fault where
  | error
  | endless
  deriving DecidableEq

/-- An entry, with the table that its address is of when it is valid and no leaf. -/
structure Slot (T : Type) where
  entry : BitVec 64
  sub : T

/-- A page table with `n` levels below it. -/
def Table : Nat → Type
  | 0 => Nat → BitVec 64
  | n + 1 => Nat → Slot (Table n)

namespace Table

/-- A new table holds zeroes only. -/
def zero : (n : Nat) → Table n
  | 0 => fun _ => 0
  | n + 1 => fun _ => ⟨0, zero n⟩

def slot {n : Nat} (t : Table (n + 1)) (i : Nat) : Slot (Table n) := t i

def set {n : Nat} (t : Table (n + 1)) (i : Nat) (s : Slot (Table n)) : Table (n + 1) := fun j => if j = i then s else t j

def last (t : Table 0) (i : Nat) : BitVec 64 := t i

def setLast (t : Table 0) (i : Nat) (entry : BitVec 64) : Table 0 := fun j => if j = i then entry else t j

end Table

def pageOrder : Nat := 12

def addressBitsPerPage : Nat := 9

/-- The top level takes the place of two levels, the upper of which would decode 7 bits. -/
def pageTableLevels : Nat := 5

def topPageTableBits : Nat := 16

def flagValid : BitVec 64 := 0x001

def flagLeaf : BitVec 64 := 0x002

def flagType : BitVec 64 := 0x00C

def flagsMaskLeaf : BitVec 64 := 0x00F

/-- The levels are counted from the bottom. -/
def indexShift (n : Nat) : Nat := pageOrder + n * addressBitsPerPage

def indexBits (n : Nat) : Nat := if n + 1 = pageTableLevels then topPageTableBits else addressBitsPerPage

def entrySpanSize (n : Nat) : Nat := 2 ^ indexBits n

def getIndex (n address : Nat) : Nat := address / 2 ^ indexShift n % 2 ^ indexBits n

def isLargeCandidate (n address size : Nat) : Bool :=
  decide (entrySpanSize n ≤ size) && address &&& (entrySpanSize n - 1) == 0

def getType (entry : BitVec 64) : PageType :=
  match (entry &&& flagType) >>> 2 with
  | 0 => .pool
  | 1 => .medium
  | 2 => .direct
  | _ => .subAlloc

def getAddressAndType (entry : BitVec 64) : BitVec 64 × PageType := (entry &&& ~~~flagsMaskLeaf, getType entry)

def isValid (entry : BitVec 64) : Bool := entry &&& flagValid != 0

def isLeaf (entry : BitVec 64) : Bool := entry &&& flagLeaf != 0

def lookup : (n : Nat) → Table n → Nat → BitVec 64 × PageType
  | 0, t, address =>
    let entry := t.last (getIndex 0 address)
    if !isValid entry then (0, .pool) else getAddressAndType entry
  | n + 1, t, address =>
    let slot := t.slot (getIndex (n + 1) address)
    if !isValid slot.entry then (0, .pool)
    else if isLeaf slot.entry then getAddressAndType slot.entry
    else lookup n slot.sub address

/-- The pointer and the type that an entry holds. -/
def valueOf (ptr : BitVec 64) (type : PageType) : BitVec 64 := ptr ||| type.bits <<< 2

/-- A table and the number of tables that were allocated so far. -/
abbrev Result (n : Nat) := Except Fault (Table n × Nat)

/-- The loop at the last level. Its sizes wrap around. -/
def lastLoop (value : BitVec 64) : Nat → Nat → Nat → Table 0 × Nat → Result 0
  | 0, _, size, st => if size = 0 then .ok st else .error .endless
  | fuel + 1, address, size, st =>
    if size = 0 then .ok st
    else
      lastLoop value fuel ((address + entrySpanSize 0) % 2 ^ 64) ((size + 2 ^ 64 - entrySpanSize 0) % 2 ^ 64)
        (st.1.setLast (getIndex 0 address) (value ||| flagValid), st.2)

/-- The entry of a slot that is not valid yet is made to be one of a new table. The exchange that does it leaves the old
value in `entry`, so that a second table is allocated, and freed. -/
def ensureTable {n : Nat} (allocateTable : Nat → BitVec 64) (slot : Slot (Table n)) (calls : Nat) :
    Slot (Table n) × Nat :=
  if isValid slot.entry then (slot, calls) else (⟨allocateTable calls ||| flagValid, Table.zero n⟩, calls + 2)

/-- The loop at the other levels, with the insertion into a table of the next level. -/
def loop {n : Nat} (allocateTable : Nat → BitVec 64) (value : BitVec 64)
    (insertNext : Nat → Nat → Table n × Nat → Result n) : Nat → Nat → Nat → Table (n + 1) × Nat → Result (n + 1)
  | 0, _, size, st => if size = 0 then .ok st else .error .endless
  | fuel + 1, address, size, st =>
    if size = 0 then .ok st
    else
      let index := getIndex (n + 1) address
      let span := entrySpanSize (n + 1)
      if isLargeCandidate (n + 1) address size then
        loop allocateTable value insertNext fuel ((address + span) % 2 ^ 64) (size - span)
          (st.1.set index ⟨value ||| flagValid ||| flagLeaf, (st.1.slot index).sub⟩, st.2)
      else
        let r := ensureTable allocateTable (st.1.slot index) st.2
        if isLeaf r.1.entry then .error .error
        else
          match insertNext address (min size span) (r.1.sub, r.2) with
          | .error fault => .error fault
          | .ok (sub, calls) =>
            loop allocateTable value insertNext fuel ((address + span) % 2 ^ 64) (size - min size span)
              (st.1.set index ⟨r.1.entry, sub⟩, calls)

/-- The insertion. A loop that comes to an end does so within `size` steps. -/
def insert (allocateTable : Nat → BitVec 64) (ptr : BitVec 64) (type : PageType) :
    (n : Nat) → Nat → Nat → Table n × Nat → Result n
  | 0, address, size, st =>
    if ptr &&& flagsMaskLeaf ≠ 0 then .error .error else lastLoop (valueOf ptr type) size address size st
  | n + 1, address, size, st =>
    if ptr &&& flagsMaskLeaf ≠ 0 then .error .error
    else loop allocateTable (valueOf ptr type) (insert allocateTable ptr type n) size address size st

end XviOs.GAlloc

namespace XviOs.GAlloc

variable {n k fuel address size c m a r calls calls' : Nat} {t t' t'' : Table (n + 1)} {T T' T'' : Table 4}
  {allocateTable : Nat → BitVec 64} {ptr entry x y : BitVec 64} {type : PageType} {hit hit' : Nat → Prop}

section Entries

theorem and_low {mask : BitVec 64} (hx : x &&& flagsMaskLeaf = 0#64) (hm : flagsMaskLeaf &&& mask = mask) :
    (x ||| y) &&& mask = y &&& mask := by
  have hxm : x &&& mask = 0#64 := by
    rw [← hm, ← BitVec.and_assoc, hx, BitVec.zero_and]
  rw [BitVec.and_or_distrib_right, hxm, BitVec.zero_or]

theorem and_high (hx : x &&& flagsMaskLeaf = 0#64) (hy : y &&& ~~~flagsMaskLeaf = 0#64) :
    (x ||| y) &&& ~~~flagsMaskLeaf = x := by
  have hall : flagsMaskLeaf ||| ~~~flagsMaskLeaf = BitVec.allOnes 64 := by decide
  calc (x ||| y) &&& ~~~flagsMaskLeaf = x &&& ~~~flagsMaskLeaf := by
        rw [BitVec.and_or_distrib_right, hy, BitVec.or_zero]
    _ = x &&& (flagsMaskLeaf ||| ~~~flagsMaskLeaf) := by rw [BitVec.and_or_distrib_left, hx, BitVec.zero_or]
    _ = x := by rw [hall, BitVec.and_allOnes]

/-- The entry of a leaf above the last level. -/
def leafEntry (ptr : BitVec 64) (type : PageType) : BitVec 64 := valueOf ptr type ||| flagValid ||| flagLeaf

theorem leafEntry_eq (ptr : BitVec 64) (type : PageType) :
    leafEntry ptr type = ptr ||| (type.bits <<< 2 ||| flagValid ||| flagLeaf) := by
  rw [leafEntry, valueOf, BitVec.or_assoc, BitVec.or_assoc, BitVec.or_assoc]

theorem isValid_leafEntry (hptr : ptr &&& flagsMaskLeaf = 0) : isValid (leafEntry ptr type) = true := by
  rw [isValid, leafEntry_eq, and_low hptr (by decide)]
  cases type <;> decide

theorem isLeaf_leafEntry (hptr : ptr &&& flagsMaskLeaf = 0) : isLeaf (leafEntry ptr type) = true := by
  rw [isLeaf, leafEntry_eq, and_low hptr (by decide)]
  cases type <;> decide

/-- What is stored is what is found. -/
theorem getAddressAndType_leafEntry (hptr : ptr &&& flagsMaskLeaf = 0) :
    getAddressAndType (leafEntry ptr type) = (ptr, type) := by
  rw [getAddressAndType, leafEntry_eq, and_high hptr (by cases type <;> decide), getType, and_low hptr (by decide)]
  cases type <;> rfl

theorem newEntry {table : BitVec 64} (htable : table &&& 0xFFF = 0#64) :
    isValid (table ||| flagValid) = true ∧ isLeaf (table ||| flagValid) = false := by
  have hlow : table &&& flagsMaskLeaf = 0#64 := by
    rw [show flagsMaskLeaf = 0xFFF &&& flagsMaskLeaf by decide, ← BitVec.and_assoc, htable, BitVec.zero_and]
  rw [isValid, isLeaf, and_low hlow (by decide), and_low hlow (by decide)]
  exact ⟨by decide, by decide⟩

end Entries

section Indices

theorem isLarge_iff : isLargeCandidate n address size = true ↔ entrySpanSize n ≤ size ∧ entrySpanSize n ∣ address := by
  rw [isLargeCandidate, Bool.and_eq_true, decide_eq_true_eq, beq_iff_eq, entrySpanSize, Nat.and_two_pow_sub_one_eq_mod,
    Nat.dvd_iff_mod_eq_zero]

theorem span_pos (n : Nat) : 0 < entrySpanSize n := Nat.two_pow_pos _

/-- Addresses that one step of a loop covers have one index. -/
theorem getIndex_eq (hbits : indexBits n ≤ indexShift n) (ha : entrySpanSize n ∣ address) {x : Nat} (hle : address ≤ x)
    (hlt : x < address + entrySpanSize n) : getIndex n x = getIndex n address := by
  obtain ⟨q, rfl⟩ := ha
  have hpow : 2 ^ indexShift n = entrySpanSize n * 2 ^ (indexShift n - indexBits n) := by
    rw [entrySpanSize, ← pow_add, Nat.add_sub_cancel' hbits]
  have hx : x / entrySpanSize n = q := by
    apply Nat.div_eq_of_lt_le
    · rwa [Nat.mul_comm]
    · rw [Nat.mul_comm, Nat.mul_succ]
      exact hlt
  rw [getIndex, getIndex, hpow, ← Nat.div_div_eq_div_mul, ← Nat.div_div_eq_div_mul, hx,
    Nat.mul_div_cancel_left _ (span_pos n)]

/-- The index is one of an address from `address` on, of which there are `size`. -/
def Covers (n address size j : Nat) : Prop := ∃ x, address ≤ x ∧ x < address + size ∧ getIndex n x = j

theorem covers_span (hbits : indexBits n ≤ indexShift n) (ha : entrySpanSize n ∣ address) (j : Nat) :
    Covers n address (entrySpanSize n) j ↔ getIndex n address = j := by
  constructor
  · rintro ⟨x, hle, hlt, rfl⟩
    exact (getIndex_eq hbits ha hle hlt).symm
  · intro h
    exact ⟨address, le_rfl, Nat.lt_add_of_pos_right (span_pos n), h⟩

theorem covers_add (n address size size' j : Nat) :
    Covers n address (size + size') j ↔ Covers n address size j ∨ Covers n (address + size) size' j := by
  constructor
  · rintro ⟨x, hle, hlt, hx⟩
    by_cases h : x < address + size
    · exact Or.inl ⟨x, hle, h, hx⟩
    · exact Or.inr ⟨x, not_lt.mp h, by omega, hx⟩
  · rintro (⟨x, hle, hlt, hx⟩ | ⟨x, hle, hlt, hx⟩)
    · exact ⟨x, hle, by omega, hx⟩
    · exact ⟨x, by omega, by omega, hx⟩

theorem not_covers_zero (n address j : Nat) : ¬ Covers n address 0 j := by
  rintro ⟨x, hle, hlt, -⟩
  omega

end Indices

section Large

theorem slot_set_self (t : Table (n + 1)) (i : Nat) (s : Slot (Table n)) : (t.set i s).slot i = s := if_pos rfl

theorem slot_set_of_ne (t : Table (n + 1)) (s : Slot (Table n)) {i j : Nat} (h : j ≠ i) : (t.set i s).slot j = t.slot j :=
  if_neg h

/-- The entry is stored at the indices that are hit. -/
structure Stored (t t' : Table (n + 1)) (entry : BitVec 64) (hit : Nat → Prop) : Prop where
  stored : ∀ j, hit j → (t'.slot j).entry = entry
  others : ∀ j, ¬ hit j → t'.slot j = t.slot j

theorem stored_set (t : Table (n + 1)) (entry : BitVec 64) (i : Nat) :
    Stored t (t.set i ⟨entry, (t.slot i).sub⟩) entry (i = ·) := by
  refine ⟨?_, ?_⟩
  · rintro j rfl
    rw [slot_set_self]
  · intro j hj
    exact slot_set_of_ne t _ (Ne.symm hj)

theorem Stored.trans {both : Nat → Prop} (h : Stored t t' entry hit) (h' : Stored t' t'' entry hit')
    (hboth : ∀ j, both j ↔ hit j ∨ hit' j) : Stored t t'' entry both := by
  refine ⟨?_, ?_⟩
  · intro j hj
    by_cases hj' : hit' j
    · exact h'.stored j hj'
    · rw [h'.others j hj', h.stored j (((hboth j).mp hj).resolve_right hj')]
  · intro j hj
    obtain ⟨hj₁, hj₂⟩ := not_or.mp ((hboth j).not.mp hj)
    rw [h'.others j hj₂, h.others j hj₁]

variable {insertNext : Nat → Nat → Table n × Nat → Result n}

theorem loop_zero (allocateTable : Nat → BitVec 64) (value : BitVec 64) (fuel address : Nat) (st : Table (n + 1) × Nat) :
    loop allocateTable value insertNext fuel address 0 st = .ok st := by
  cases fuel with
  | zero => rfl
  | succ fuel => rfl

theorem loop_large_step {value : BitVec 64} (hlarge : isLargeCandidate (n + 1) address size = true) :
    loop allocateTable value insertNext (fuel + 1) address size (t, calls) =
      loop allocateTable value insertNext fuel ((address + entrySpanSize (n + 1)) % 2 ^ 64)
        (size - entrySpanSize (n + 1))
        (t.set (getIndex (n + 1) address)
          ⟨value ||| flagValid ||| flagLeaf, (t.slot (getIndex (n + 1) address)).sub⟩, calls) := by
  have hsize : size ≠ 0 := by
    have hle := (isLarge_iff.mp hlarge).1
    have hpos := span_pos (n + 1)
    omega
  rw [loop, if_neg hsize]
  dsimp only
  rw [if_pos hlarge]

/-- The steps of a loop that store large entries. -/
theorem loop_large (allocateTable : Nat → BitVec 64) (value : BitVec 64)
    (insertNext : Nat → Nat → Table n × Nat → Result n) (hbits : indexBits (n + 1) ≤ indexShift (n + 1))
    (ha : entrySpanSize (n + 1) ∣ address) (hlt : address < 2 ^ 64)
    (hend : address + k * entrySpanSize (n + 1) ≤ 2 ^ 64) (t : Table (n + 1)) (calls fuel r : Nat) :
    ∃ t', loop allocateTable value insertNext (k + fuel) address (k * entrySpanSize (n + 1) + r) (t, calls) =
        loop allocateTable value insertNext fuel ((address + k * entrySpanSize (n + 1)) % 2 ^ 64) r (t', calls) ∧
      Stored t t' (value ||| flagValid ||| flagLeaf) (Covers (n + 1) address (k * entrySpanSize (n + 1))) := by
  induction k generalizing address t with
  | zero =>
    refine ⟨t, ?_, fun j hj => ?_, fun j _ => rfl⟩
    · simp only [Nat.zero_mul, Nat.zero_add, Nat.add_zero, Nat.mod_eq_of_lt hlt]
    · rw [Nat.zero_mul] at hj
      exact absurd hj (not_covers_zero _ _ j)
  | succ k ih =>
    have hpos := span_pos (n + 1)
    have hsucc : (k + 1) * entrySpanSize (n + 1) = entrySpanSize (n + 1) + k * entrySpanSize (n + 1) := by
      rw [Nat.succ_mul, Nat.add_comm]
    rw [hsucc] at hend ⊢
    have hlarge : isLargeCandidate (n + 1) address (entrySpanSize (n + 1) + k * entrySpanSize (n + 1) + r) = true :=
      isLarge_iff.mpr ⟨by omega, ha⟩
    have hfirst := stored_set t (value ||| flagValid ||| flagLeaf) (getIndex (n + 1) address)
    have hsize : entrySpanSize (n + 1) + k * entrySpanSize (n + 1) + r - entrySpanSize (n + 1) =
        k * entrySpanSize (n + 1) + r := by omega
    rw [Nat.add_right_comm, loop_large_step hlarge, hsize]
    by_cases hk : address + entrySpanSize (n + 1) < 2 ^ 64
    · rw [Nat.mod_eq_of_lt hk]
      obtain ⟨t', ht', hstored⟩ := ih (t := t.set (getIndex (n + 1) address)
          ⟨value ||| flagValid ||| flagLeaf, (t.slot (getIndex (n + 1) address)).sub⟩)
        ((Nat.dvd_add_right ha).mpr dvd_rfl) hk (by omega)
      refine ⟨t', ?_, hfirst.trans hstored ?_⟩
      · rw [ht', Nat.add_assoc]
      · intro j
        rw [covers_add, covers_span hbits ha]
    · -- the last step of the address space
      have hmany : k * entrySpanSize (n + 1) = 0 := by omega
      obtain rfl : k = 0 := (Nat.mul_eq_zero.mp hmany).resolve_right hpos.ne'
      refine ⟨t.set (getIndex (n + 1) address)
        ⟨value ||| flagValid ||| flagLeaf, (t.slot (getIndex (n + 1) address)).sub⟩, ?_, ?_⟩
      · simp only [Nat.zero_mul, Nat.zero_add, Nat.add_zero]
      · simp only [Nat.zero_mul, Nat.add_zero]
        refine ⟨fun j hj => hfirst.stored j ?_, fun j hj => hfirst.others j ?_⟩
        · exact (covers_span hbits ha j).mp hj
        · exact fun h => hj ((covers_span hbits ha j).mpr h)

end Large

end XviOs.GAlloc

namespace XviOs.GAlloc

variable {n k fuel address size c c' m m' a r calls : Nat} {t t' t'' : Table n} {T T' : Table 4} {u u' : Table 3}
  {allocateTable : Nat → BitVec 64} {ptr : BitVec 64} {type : PageType} {p : BitVec 64 × PageType} {hit hit' : Nat → Prop}

/-- The addresses that are hit lead to `p`, and the others to where they led before. -/
def Writes (t t' : Table n) (p : BitVec 64 × PageType) (hit : Nat → Prop) : Prop :=
  ∀ a, (hit a → lookup n t' a = p) ∧ (¬ hit a → lookup n t' a = lookup n t a)

/-- A leaf of the top level is in the way of an insertion into the next level. -/
def Blocked (T : Table 4) (a : Nat) : Prop :=
  isValid (T.slot (getIndex 4 a)).entry = true ∧ isLeaf (T.slot (getIndex 4 a)).entry = true

/-- The part of `size` that is stored at the top level. -/
def bigSize (address size : Nat) : Nat :=
  if entrySpanSize 4 ∣ address then size / entrySpanSize 4 * entrySpanSize 4 else 0

/-- The calls for the next level, which have at most the span size of the top level. -/
def Chunk (address size c m : Nat) : Prop :=
  ∃ k, c = address + k * entrySpanSize 4 ∧ k * entrySpanSize 4 < size ∧
    m = min (size - k * entrySpanSize 4) (entrySpanSize 4)

/-- The address is below an entry that an insertion stores. -/
def Written (address size a : Nat) : Prop :=
  Covers 4 address (bigSize address size) (getIndex 4 a) ∨
    ∃ c m, Chunk (address + bigSize address size) (size - bigSize address size) c m ∧
      getIndex 4 a = getIndex 4 c ∧ Covers 3 c m (getIndex 3 a)

section Lookups

theorem Writes.trans {both : Nat → Prop} (h : Writes t t' p hit) (h' : Writes t' t'' p hit')
    (hboth : ∀ a, both a ↔ hit a ∨ hit' a) : Writes t t'' p both := by
  intro a
  refine ⟨?_, ?_⟩
  · intro ha
    by_cases ha' : hit' a
    · exact (h' a).1 ha'
    · rw [(h' a).2 ha', (h a).1 (((hboth a).mp ha).resolve_right ha')]
  · intro ha
    obtain ⟨ha₁, ha₂⟩ := not_or.mp ((hboth a).not.mp ha)
    rw [(h' a).2 ha₂, (h a).2 ha₁]

theorem Writes.congr (h : Writes t t' p hit) (hiff : ∀ a, hit' a ↔ hit a) : Writes t t' p hit' := by
  intro a
  rw [hiff]
  exact h a

theorem lookup_zero (n a : Nat) : lookup n (Table.zero n) a = (0, .pool) := by
  have hzero : (!isValid (0 : BitVec 64)) = true := by decide
  cases n with
  | zero =>
    rw [lookup]
    exact if_pos hzero
  | succ n =>
    rw [lookup]
    exact if_pos hzero

theorem lookup_of_not_valid {t : Table (n + 1)} (h : isValid (t.slot (getIndex (n + 1) a)).entry = false) :
    lookup (n + 1) t a = (0, .pool) := by
  rw [lookup]
  rw [h, Bool.not_false, if_pos rfl]

theorem lookup_of_leaf {t : Table (n + 1)} (h : isValid (t.slot (getIndex (n + 1) a)).entry = true)
    (hleaf : isLeaf (t.slot (getIndex (n + 1) a)).entry = true) :
    lookup (n + 1) t a = getAddressAndType (t.slot (getIndex (n + 1) a)).entry := by
  rw [lookup]
  rw [h, Bool.not_true, if_neg (by decide), if_pos hleaf]

theorem lookup_of_table {t : Table (n + 1)} (h : isValid (t.slot (getIndex (n + 1) a)).entry = true)
    (hleaf : isLeaf (t.slot (getIndex (n + 1) a)).entry = false) :
    lookup (n + 1) t a = lookup n (t.slot (getIndex (n + 1) a)).sub a := by
  rw [lookup]
  rw [h, Bool.not_true, if_neg (by decide), hleaf, if_neg (by decide)]

theorem lookup_congr {t t' : Table (n + 1)} (h : t'.slot (getIndex (n + 1) a) = t.slot (getIndex (n + 1) a)) :
    lookup (n + 1) t' a = lookup (n + 1) t a := by
  rw [lookup, lookup, h]

theorem Stored.writes {t t' : Table (n + 1)} {hit : Nat → Prop} (hptr : ptr &&& flagsMaskLeaf = 0#64)
    (h : Stored t t' (leafEntry ptr type) hit) :
    Writes t t' (ptr, type) (fun a => hit (getIndex (n + 1) a)) := by
  intro a
  refine ⟨?_, fun ha => lookup_congr (h.others _ ha)⟩
  intro ha
  have hentry := h.stored _ ha
  rw [lookup_of_leaf (by rw [hentry, isValid_leafEntry hptr]) (by rw [hentry, isLeaf_leafEntry hptr]), hentry,
    getAddressAndType_leafEntry hptr]

end Lookups

section Chunks

theorem span_three : entrySpanSize 3 = 512 := by decide

theorem span_four : entrySpanSize 4 = 65536 := by decide

/-- Below the top level every entry of a range of pages is a large one. -/
theorem insert_three (allocateTable : Nat → BitVec 64) (type : PageType) (hptr : ptr &&& flagsMaskLeaf = 0#64)
    (hc : 512 ∣ c) (hm : 512 ∣ m) (hlt : c < 2 ^ 64) (hend : c + m ≤ 2 ^ 64) (u : Table 3) (calls : Nat) :
    ∃ u', insert allocateTable ptr type 3 c m (u, calls) = .ok (u', calls) ∧
      Stored u u' (leafEntry ptr type) (Covers 3 c m) := by
  obtain ⟨k, rfl⟩ := hm
  rw [Nat.mul_comm] at hend ⊢
  have hspan : entrySpanSize (2 + 1) = 512 := span_three
  have hptr' : ¬ ptr &&& flagsMaskLeaf ≠ 0 := not_not.mpr hptr
  obtain ⟨u', hloop, hstored⟩ := loop_large (n := 2) allocateTable (valueOf ptr type) (insert allocateTable ptr type 2)
    (by decide) (span_three ▸ hc) hlt (span_three ▸ hend) u calls (k * 512 - k) 0
  have hfuel : k + (k * 512 - k) = k * 512 := Nat.add_sub_cancel' (Nat.le_mul_of_pos_right k (by decide))
  simp only [hspan, Nat.add_zero, hfuel, loop_zero] at hloop
  rw [hspan] at hstored
  refine ⟨u', ?_, hstored⟩
  rw [insert, if_neg hptr']
  exact hloop

/-- A slot that leads to a table: what it leads to is what it led to before. -/
theorem ensureTable_spec (halloc : ∀ k, allocateTable k &&& 0xFFF = 0#64) (s : Slot (Table 3)) (calls : Nat) :
    isValid (ensureTable allocateTable s calls).1.entry = true ∧
      isLeaf (ensureTable allocateTable s calls).1.entry = (isValid s.entry && isLeaf s.entry) ∧
      (isValid s.entry = false → (ensureTable allocateTable s calls).1.sub = Table.zero 3) ∧
      (isValid s.entry = true → (ensureTable allocateTable s calls).1 = s) := by
  rw [ensureTable]
  cases hs : isValid s.entry with
  | true =>
    rw [if_pos rfl, Bool.true_and]
    exact ⟨hs, rfl, fun h => absurd h (by decide), fun _ => rfl⟩
  | false =>
    obtain ⟨hvalid, hleaf⟩ := newEntry (halloc calls)
    rw [if_neg (by decide), Bool.false_and]
    exact ⟨hvalid, hleaf, fun _ => rfl, fun h => absurd h (by decide)⟩

theorem blocked_iff (T : Table 4) (a : Nat) : Blocked T a ↔
    (isValid (T.slot (getIndex 4 a)).entry && isLeaf (T.slot (getIndex 4 a)).entry) = true := by
  rw [Bool.and_eq_true]
  rfl

/-- The table that a slot leads to is written. -/
theorem writes_set (hptr : ptr &&& flagsMaskLeaf = 0#64) (halloc : ∀ k, allocateTable k &&& 0xFFF = 0#64)
    (hblocked : ¬ Blocked T c)
    (hu : Stored (ensureTable allocateTable (T.slot (getIndex 4 c)) calls).1.sub u' (leafEntry ptr type) hit) :
    Writes T (T.set (getIndex 4 c) ⟨(ensureTable allocateTable (T.slot (getIndex 4 c)) calls).1.entry, u'⟩) (ptr, type)
        (fun a => getIndex 4 a = getIndex 4 c ∧ hit (getIndex 3 a)) ∧
      ∀ a, Blocked (T.set (getIndex 4 c) ⟨(ensureTable allocateTable (T.slot (getIndex 4 c)) calls).1.entry, u'⟩) a ↔
        Blocked T a := by
  obtain ⟨hvalid, hleaf, hzero, hsame⟩ := ensureTable_spec halloc (T.slot (getIndex 4 c)) calls
  rw [blocked_iff, Bool.not_eq_true] at hblocked
  rw [hblocked] at hleaf
  constructor
  · intro a
    by_cases ha : getIndex 4 a = getIndex 4 c
    · have hslot := slot_set_self T (getIndex 4 a)
        ⟨(ensureTable allocateTable (T.slot (getIndex 4 c)) calls).1.entry, u'⟩
      rw [← ha] at hvalid hleaf hzero hsame hblocked hu ⊢
      rw [← ha] at hslot
      have hnew := lookup_of_table (n := 3) (a := a) (by rw [hslot]; exact hvalid) (by rw [hslot]; exact hleaf)
      have hold : lookup 4 T a = lookup 3 (ensureTable allocateTable (T.slot (getIndex 4 a)) calls).1.sub a := by
        cases hs : isValid (T.slot (getIndex 4 a)).entry with
        | false => rw [hzero hs, lookup_zero, lookup_of_not_valid hs]
        | true =>
          rw [hs, Bool.true_and] at hblocked
          rw [hsame hs, lookup_of_table hs hblocked]
      rw [hslot] at hnew
      have hwrites := hu.writes hptr a
      rw [hnew, hold]
      exact ⟨fun h => hwrites.1 h.2, fun h => hwrites.2 fun hh => h ⟨rfl, hh⟩⟩
    · exact ⟨fun h => absurd h.1 ha, fun _ => lookup_congr (slot_set_of_ne T _ ha)⟩
  · intro a
    rw [blocked_iff, blocked_iff]
    by_cases ha : getIndex 4 a = getIndex 4 c
    · rw [ha, slot_set_self, hblocked]
      dsimp only
      rw [hleaf, Bool.and_false]
    · rw [slot_set_of_ne T _ ha]

end Chunks

end XviOs.GAlloc
