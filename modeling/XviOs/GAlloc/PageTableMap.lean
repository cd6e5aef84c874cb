import Mathlib.Tactic
import XviOs.GAlloc.PageTable

namespace XviOs.GAlloc

variable {k fuel address size c c' m m' a r calls : Nat} {T T' : Table 4} {allocateTable : Nat → BitVec 64}
  {ptr : BitVec 64} {type : PageType} {p : BitVec 64 × PageType}

section Chunks

theorem chunk_iff (c size c' m' : Nat) : Chunk c size c' m' ↔
    size ≠ 0 ∧ c' = c ∧ m' = min size (entrySpanSize 4) ∨
      entrySpanSize 4 < size ∧ Chunk (c + entrySpanSize 4) (size - entrySpanSize 4) c' m' := by
  have hpos := span_pos 4
  constructor
  · rintro ⟨k, hc, hk, hm⟩
    cases k with
    | zero =>
      rw [Nat.zero_mul] at hc hk hm
      exact Or.inl ⟨by omega, hc, hm⟩
    | succ k =>
      rw [Nat.succ_mul] at hc hk hm
      exact Or.inr ⟨by omega, k, by omega, by omega, by omega⟩
  · rintro (⟨hsize, rfl, rfl⟩ | ⟨hlt, k, hc, hk, hm⟩)
    · exact ⟨0, by omega, by omega, by omega⟩
    · refine ⟨k + 1, ?_, ?_, ?_⟩
      · rw [Nat.succ_mul]
        omega
      · rw [Nat.succ_mul]
        omega
      · rw [Nat.succ_mul]
        omega

theorem chunk_zero (c c' m' : Nat) : ¬ Chunk c 0 c' m' := by
  rintro ⟨k, -, hk, -⟩
  omega

/-- One step of the loop of the top level that goes to the next level. -/
theorem loop_chunk (type : PageType) (hptr : ptr &&& flagsMaskLeaf = 0#64) (halloc : ∀ k, allocateTable k &&& 0xFFF = 0#64)
    (hlarge : isLargeCandidate 4 c size = false) (hsize : size ≠ 0) (hc : 512 ∣ c) (hs : 512 ∣ size) (hlt : c < 2 ^ 64)
    (hend : c + size ≤ 2 ^ 64) (T : Table 4) (calls fuel : Nat) :
    (Blocked T c → loop allocateTable (valueOf ptr type) (insert allocateTable ptr type 3) (fuel + 1) c size (T, calls) =
      .error .error) ∧
    (¬ Blocked T c → ∃ T' calls',
      loop allocateTable (valueOf ptr type) (insert allocateTable ptr type 3) (fuel + 1) c size (T, calls) =
        loop allocateTable (valueOf ptr type) (insert allocateTable ptr type 3) fuel
          ((c + entrySpanSize 4) % 2 ^ 64) (size - min size (entrySpanSize 4)) (T', calls') ∧
      Writes T T' (ptr, type)
        (fun a => getIndex 4 a = getIndex 4 c ∧ Covers 3 c (min size (entrySpanSize 4)) (getIndex 3 a)) ∧
      ∀ a, Blocked T' a ↔ Blocked T a) := by
  have hleaf := (ensureTable_spec halloc (T.slot (getIndex 4 c)) calls).2.1
  rw [loop, if_neg hsize]
  dsimp only
  rw [hlarge, if_neg (by decide), hleaf]
  constructor
  · intro hblocked
    rw [if_pos ((blocked_iff T c).mp hblocked)]
  · intro hblocked
    rw [if_neg fun h => hblocked ((blocked_iff T c).mpr h)]
    have hm : 512 ∣ min size (entrySpanSize 4) := by
      rw [span_four]
      omega
    obtain ⟨u', hinsert, hstored⟩ := insert_three allocateTable type hptr hc hm hlt (by omega)
      (ensureTable allocateTable (T.slot (getIndex 4 c)) calls).1.sub
      (ensureTable allocateTable (T.slot (getIndex 4 c)) calls).2
    rw [hinsert]
    obtain ⟨hwrites, hsame⟩ := writes_set hptr halloc hblocked hstored
    exact ⟨_, _, rfl, hwrites, hsame⟩

theorem loop_chunks_zero (fuel start c : Nat) (T : Table 4) (calls : Nat) :
    ((∃ c' m', Chunk c 0 c' m' ∧ Blocked T c') →
      loop allocateTable (valueOf ptr type) (insert allocateTable ptr type 3) fuel start 0 (T, calls) = .error .error) ∧
    ((∀ c' m', Chunk c 0 c' m' → ¬ Blocked T c') → ∃ T' calls',
      loop allocateTable (valueOf ptr type) (insert allocateTable ptr type 3) fuel start 0 (T, calls) = .ok (T', calls') ∧
      Writes T T' (ptr, type)
        (fun a => ∃ c' m', Chunk c 0 c' m' ∧ getIndex 4 a = getIndex 4 c' ∧ Covers 3 c' m' (getIndex 3 a))) := by
  constructor
  · rintro ⟨c', m', hchunk, -⟩
    exact absurd hchunk (chunk_zero c c' m')
  · intro _
    refine ⟨T, calls, loop_zero _ _ _ _ _, fun a => ⟨?_, fun _ => rfl⟩⟩
    rintro ⟨c', m', hchunk, -⟩
    exact absurd hchunk (chunk_zero c c' m')

/-- The steps of the loop of the top level that go to the next level. -/
theorem loop_chunks (hptr : ptr &&& flagsMaskLeaf = 0#64) (halloc : ∀ k, allocateTable k &&& 0xFFF = 0#64)
    (hsmall : entrySpanSize 4 ∣ c → size < entrySpanSize 4) (hc : 512 ∣ c) (hs : 512 ∣ size) (hlt : c < 2 ^ 64)
    (hend : c + size ≤ 2 ^ 64) (hfuel : size ≤ fuel) (T : Table 4) (calls : Nat) :
    ((∃ c' m', Chunk c size c' m' ∧ Blocked T c') →
      loop allocateTable (valueOf ptr type) (insert allocateTable ptr type 3) fuel c size (T, calls) = .error .error) ∧
    ((∀ c' m', Chunk c size c' m' → ¬ Blocked T c') → ∃ T' calls',
      loop allocateTable (valueOf ptr type) (insert allocateTable ptr type 3) fuel c size (T, calls) = .ok (T', calls') ∧
      Writes T T' (ptr, type)
        (fun a => ∃ c' m', Chunk c size c' m' ∧ getIndex 4 a = getIndex 4 c' ∧ Covers 3 c' m' (getIndex 3 a))) := by
  have hpos := span_pos 4
  induction fuel generalizing c size T calls with
  | zero =>
    obtain rfl : size = 0 := by omega
    exact loop_chunks_zero 0 c c T calls
  | succ fuel ih =>
    obtain rfl | hsize := eq_or_ne size 0
    · exact loop_chunks_zero (fuel + 1) c c T calls
    have hlarge : isLargeCandidate 4 c size = false := by
      rw [Bool.eq_false_iff]
      intro h
      obtain ⟨hle, hdvd⟩ := isLarge_iff.mp h
      have := hsmall hdvd
      omega
    obtain ⟨herror, hstep⟩ := loop_chunk type hptr halloc hlarge hsize hc hs hlt hend T calls fuel
    have hfirst : Chunk c size c (min size (entrySpanSize 4)) := (chunk_iff _ _ _ _).mpr (Or.inl ⟨hsize, rfl, rfl⟩)
    by_cases hblocked : Blocked T c
    · refine ⟨fun _ => herror hblocked, ?_⟩
      intro hfree
      exact absurd hblocked (hfree c _ hfirst)
    obtain ⟨T₁, calls₁, hloop, hwrites, hsame⟩ := hstep hblocked
    rw [hloop]
    by_cases hlast : size ≤ entrySpanSize 4
    · -- the last chunk
      have honly : ∀ c' m', Chunk c size c' m' ↔ c' = c ∧ m' = min size (entrySpanSize 4) := by
        intro c' m'
        rw [chunk_iff]
        constructor
        · rintro (⟨-, h⟩ | ⟨h, -⟩)
          · exact h
          · omega
        · exact fun h => Or.inl ⟨hsize, h⟩
      rw [Nat.min_eq_left hlast, Nat.sub_self, loop_zero]
      constructor
      · rintro ⟨c', m', hchunk, hblocked'⟩
        rw [((honly c' m').mp hchunk).1] at hblocked'
        exact absurd hblocked' hblocked
      · intro _
        refine ⟨T₁, calls₁, rfl, ?_⟩
        have hhit : ∀ a, (∃ c' m', Chunk c size c' m' ∧ getIndex 4 a = getIndex 4 c' ∧ Covers 3 c' m' (getIndex 3 a)) ↔
            getIndex 4 a = getIndex 4 c ∧ Covers 3 c (min size (entrySpanSize 4)) (getIndex 3 a) := by
          intro a
          constructor
          · rintro ⟨c', m', hchunk, ha⟩
            obtain ⟨rfl, rfl⟩ := (honly c' m').mp hchunk
            exact ha
          · exact fun ha => ⟨c, _, hfirst, ha⟩
        exact hwrites.congr hhit
    · -- the chunks after the first one
      have hnext : c + entrySpanSize 4 < 2 ^ 64 := by omega
      have hdvd : ¬ entrySpanSize 4 ∣ c := fun h => by
        have := hsmall h
        omega
      have hspan : 512 ∣ entrySpanSize 4 := by rw [span_four]; decide
      rw [Nat.min_eq_right (not_le.mp hlast).le, Nat.mod_eq_of_lt hnext]
      rw [Nat.min_eq_right (not_le.mp hlast).le] at hwrites
      have hcases : ∀ c' m', Chunk c size c' m' ↔ c' = c ∧ m' = entrySpanSize 4 ∨
          Chunk (c + entrySpanSize 4) (size - entrySpanSize 4) c' m' := by
        intro c' m'
        rw [chunk_iff, Nat.min_eq_right (not_le.mp hlast).le, and_iff_right hsize, and_iff_right (not_le.mp hlast)]
      obtain ⟨hrest, hrest'⟩ := ih (fun h => absurd ((Nat.dvd_add_left dvd_rfl).mp h) hdvd)
        (Nat.dvd_add hc hspan) (Nat.dvd_sub hs hspan) hnext (by omega) (by omega) T₁ calls₁
      constructor
      · rintro ⟨c', m', hchunk, hblocked'⟩
        apply hrest
        obtain ⟨rfl, rfl⟩ | hchunk := (hcases c' m').mp hchunk
        · exact absurd hblocked' hblocked
        · exact ⟨c', m', hchunk, (hsame c').mpr hblocked'⟩
      · intro hfree
        obtain ⟨T', calls', hok, hwrites'⟩ := hrest' fun c' m' hchunk hblocked' =>
          hfree c' m' ((hcases c' m').mpr (Or.inr hchunk)) ((hsame c').mp hblocked')
        refine ⟨T', calls', hok, hwrites.trans hwrites' ?_⟩
        intro a
        constructor
        · rintro ⟨c', m', hchunk, ha⟩
          obtain ⟨rfl, rfl⟩ | hchunk := (hcases c' m').mp hchunk
          · exact Or.inl ha
          · exact Or.inr ⟨c', m', hchunk, ha⟩
        · rintro (ha | ⟨c', m', hchunk, ha⟩)
          · exact ⟨c, _, (hcases _ _).mpr (Or.inl ⟨rfl, rfl⟩), ha⟩
          · exact ⟨c', m', (hcases c' m').mpr (Or.inr hchunk), ha⟩

end Chunks

section Insert

/-- A top-level entry is stored, or was a leaf before. -/
theorem blocked_stored (hptr : ptr &&& flagsMaskLeaf = 0#64) {hit : Nat → Prop}
    (h : Stored (n := 3) T T' (leafEntry ptr type) hit) (a : Nat) :
    Blocked T' a ↔ Blocked T a ∨ hit (getIndex 4 a) := by
  by_cases ha : hit (getIndex 4 a)
  · have hentry := h.stored _ ha
    refine iff_of_true ⟨?_, ?_⟩ (Or.inr ha)
    · rw [hentry, isValid_leafEntry hptr]
    · rw [hentry, isLeaf_leafEntry hptr]
  · rw [Blocked, Blocked, h.others _ ha, or_iff_left ha]

theorem bigSize_le (address size : Nat) : bigSize address size ≤ size := by
  rw [bigSize]
  split
  · exact Nat.div_mul_le_self _ _
  · exact Nat.zero_le _

theorem bigSize_dvd (address size : Nat) : 512 ∣ bigSize address size := by
  rw [bigSize]
  split
  · exact Nat.dvd_mul_left_of_dvd (span_four ▸ by decide) _
  · exact Nat.dvd_zero _

theorem rest_lt (address size : Nat) (h : entrySpanSize 4 ∣ address + bigSize address size) :
    size - bigSize address size < entrySpanSize 4 := by
  rw [bigSize] at h ⊢
  split at h
  · next hdvd =>
    rw [if_pos hdvd]
    have hmod := Nat.mod_add_div' size (entrySpanSize 4)
    have hlt := Nat.mod_lt size (span_pos 4)
    omega
  · next hdvd => exact absurd h hdvd

/-- The steps of the loop of the top level that stay there. -/
theorem loop_big (allocateTable : Nat → BitVec 64) (ptr : BitVec 64) (type : PageType)
    (hlt : address < 2 ^ 64) (hend : address + size ≤ 2 ^ 64) (T : Table 4)
    (calls : Nat) :
    ∃ T₁, loop allocateTable (valueOf ptr type) (insert allocateTable ptr type 3) size address size (T, calls) =
        loop allocateTable (valueOf ptr type) (insert allocateTable ptr type 3)
          (size - bigSize address size / entrySpanSize 4) ((address + bigSize address size) % 2 ^ 64)
          (size - bigSize address size) (T₁, calls) ∧
      Stored (n := 3) T T₁ (leafEntry ptr type) (Covers 4 address (bigSize address size)) := by
  have hpos := span_pos 4
  rw [bigSize]
  split
  · next hdvd =>
    have hmul := Nat.div_mul_le_self size (entrySpanSize 4)
    have hle : size / entrySpanSize 4 ≤ size := Nat.div_le_self _ _
    obtain ⟨T₁, hloop, hstored⟩ := loop_large (n := 3) allocateTable (valueOf ptr type)
      (insert allocateTable ptr type 3) (by decide) hdvd hlt
      (show address + size / entrySpanSize 4 * entrySpanSize 4 ≤ 2 ^ 64 by omega) T calls
      (size - size / entrySpanSize 4) (size - size / entrySpanSize 4 * entrySpanSize 4)
    refine ⟨T₁, ?_, hstored⟩
    rw [Nat.mul_div_cancel _ hpos]
    refine Eq.trans ?_ hloop
    congr 1
    · omega
    · exact (Nat.add_sub_cancel' hmul).symm
  · refine ⟨T, ?_, fun j hj => absurd hj (not_covers_zero _ _ j), fun _ _ => rfl⟩
    simp only [Nat.zero_div, Nat.sub_zero, Nat.add_zero, Nat.mod_eq_of_lt hlt]

/-- What an insertion of pages does: it fails if a leaf is in the way, and else leads the addresses below the entries
that it stores to the payload. -/
theorem insert_spec (type : PageType) (hptr : ptr &&& flagsMaskLeaf = 0#64) (halloc : ∀ k, allocateTable k &&& 0xFFF = 0#64)
    (ha : 4096 ∣ address) (hs : 4096 ∣ size) (hlt : address < 2 ^ 64) (hend : address + size ≤ 2 ^ 64) (T : Table 4)
    (calls : Nat) :
    ((∃ c m, Chunk (address + bigSize address size) (size - bigSize address size) c m ∧
        (Blocked T c ∨ Covers 4 address (bigSize address size) (getIndex 4 c))) →
      insert allocateTable ptr type 4 address size (T, calls) = .error .error) ∧
    ((∀ c m, Chunk (address + bigSize address size) (size - bigSize address size) c m →
        ¬ (Blocked T c ∨ Covers 4 address (bigSize address size) (getIndex 4 c))) →
      ∃ T' calls', insert allocateTable ptr type 4 address size (T, calls) = .ok (T', calls') ∧
        Writes T T' (ptr, type) (Written address size)) := by
  have hptr' : ¬ ptr &&& flagsMaskLeaf ≠ 0 := not_not.mpr hptr
  have hpos := span_pos 4
  have h512 : 512 ∣ address := Nat.dvd_trans (by decide) ha
  have h512' : 512 ∣ size := Nat.dvd_trans (by decide) hs
  have hinsert : insert allocateTable ptr type 4 address size (T, calls) =
      loop allocateTable (valueOf ptr type) (insert allocateTable ptr type 3) size address size (T, calls) := by
    rw [insert, if_neg hptr']
  obtain ⟨T₁, hloop, hstored⟩ := loop_big allocateTable ptr type hlt hend T calls
  have hle := bigSize_le address size
  obtain ⟨herror, hok⟩ : ((∃ c' m', Chunk (address + bigSize address size) (size - bigSize address size) c' m' ∧
        Blocked T₁ c') → insert allocateTable ptr type 4 address size (T, calls) = .error .error) ∧
      ((∀ c' m', Chunk (address + bigSize address size) (size - bigSize address size) c' m' → ¬ Blocked T₁ c') →
        ∃ T' calls', insert allocateTable ptr type 4 address size (T, calls) = .ok (T', calls') ∧
          Writes T₁ T' (ptr, type) (fun a => ∃ c' m',
            Chunk (address + bigSize address size) (size - bigSize address size) c' m' ∧ getIndex 4 a = getIndex 4 c' ∧
              Covers 3 c' m' (getIndex 3 a))) := by
    rw [hinsert, hloop]
    obtain hzero | hsize := eq_or_ne (size - bigSize address size) 0
    · rw [hzero]
      exact loop_chunks_zero _ _ _ _ _
    have hdiv := Nat.div_le_self (bigSize address size) (entrySpanSize 4)
    have hmod : (address + bigSize address size) % 2 ^ 64 = address + bigSize address size :=
      Nat.mod_eq_of_lt (by omega)
    rw [hmod]
    exact loop_chunks hptr halloc (rest_lt address size) (Nat.dvd_add h512 (bigSize_dvd address size))
      (Nat.dvd_sub h512' (bigSize_dvd address size)) (by omega) (by omega) (by omega) T₁ calls
  constructor
  · rintro ⟨c, m, hchunk, hblocked⟩
    exact herror ⟨c, m, hchunk, (blocked_stored hptr hstored c).mpr hblocked⟩
  · intro hfree
    obtain ⟨T', calls', h, hwrites⟩ := hok fun c m hchunk hblocked =>
      hfree c m hchunk ((blocked_stored hptr hstored c).mp hblocked)
    exact ⟨T', calls', h, (hstored.writes hptr).trans hwrites fun _ => Iff.rfl⟩

/-- The payload is found at every address of the range, and elsewhere what was found before. -/
def InsertsMap (allocateTable : Nat → BitVec 64) (ptr : BitVec 64) (type : PageType) (T : Table 4)
    (calls address size : Nat) : Prop :=
  ∃ T' calls', insert allocateTable ptr type 4 address size (T, calls) = .ok (T', calls') ∧
    ∀ a < 2 ^ 64, lookup 4 T' a = if address ≤ a ∧ a < address + size then (ptr, type) else lookup 4 T a

/-- The pointer leaves room for the flags, no leaf is in the way of a call for the next level, and the payload is found
already at the addresses of the range that are not below a stored entry, and at those below one that are not of the
range. -/
def FitsEntries (ptr : BitVec 64) (type : PageType) (T : Table 4) (address size : Nat) : Prop :=
  ptr &&& flagsMaskLeaf = 0 ∧
    (∀ c m, Chunk (address + bigSize address size) (size - bigSize address size) c m →
      ¬ (Blocked T c ∨ Covers 4 address (bigSize address size) (getIndex 4 c))) ∧
    ∀ a < 2 ^ 64, (Written address size a ↔ address ≤ a ∧ a < address + size) ∨ lookup 4 T a = (ptr, type)

theorem insert_unaligned (hptr : ptr &&& flagsMaskLeaf ≠ 0) (T : Table 4) (calls address size : Nat) :
    insert allocateTable ptr type 4 address size (T, calls) = .error .error := by
  rw [insert, if_pos hptr]

/-- An insertion of a range of pages never hangs, and makes the table a map exactly if its entries fit. -/
theorem insert_iff (halloc : ∀ k, allocateTable k &&& 0xFFF = 0#64) (ptr : BitVec 64) (type : PageType) (T : Table 4)
    (calls : Nat) (ha : 4096 ∣ address) (hs : 4096 ∣ size) (hlt : address < 2 ^ 64) (hend : address + size ≤ 2 ^ 64) :
    insert allocateTable ptr type 4 address size (T, calls) ≠ .error .endless ∧
      (InsertsMap allocateTable ptr type T calls address size ↔ FitsEntries ptr type T address size) := by
  by_cases hptr : ptr &&& flagsMaskLeaf ≠ 0
  · rw [insert_unaligned hptr]
    refine ⟨by simp, ?_, fun h => absurd h.1 hptr⟩
    rintro ⟨T', calls', h, -⟩
    rw [insert_unaligned hptr] at h
    exact absurd h (by simp)
  have hptr' : ptr &&& flagsMaskLeaf = 0#64 := not_not.mp hptr
  obtain ⟨herror, hok⟩ := insert_spec type hptr' halloc ha hs hlt hend T calls
  by_cases hfree : ∀ c m, Chunk (address + bigSize address size) (size - bigSize address size) c m →
      ¬ (Blocked T c ∨ Covers 4 address (bigSize address size) (getIndex 4 c))
  · obtain ⟨T', calls', h, hwrites⟩ := hok hfree
    have hmap : InsertsMap allocateTable ptr type T calls address size ↔ ∀ a < 2 ^ 64, lookup 4 T' a =
        if address ≤ a ∧ a < address + size then (ptr, type) else lookup 4 T a := by
      constructor
      · rintro ⟨T'', calls'', h', hlookup⟩
        obtain ⟨rfl, -⟩ := Prod.mk.inj (Except.ok.inj (h.symm.trans h'))
        exact hlookup
      · exact fun hlookup => ⟨T', calls', h, hlookup⟩
    refine ⟨by rw [h]; simp, hmap.trans ?_⟩
    rw [FitsEntries, and_iff_right (show ptr &&& flagsMaskLeaf = 0 from hptr'), and_iff_right hfree]
    refine forall_congr' fun a => forall_congr' fun halt => ?_
    by_cases hwritten : Written address size a
    · rw [(hwrites a).1 hwritten, iff_true_left hwritten]
      by_cases hrange : address ≤ a ∧ a < address + size
      · exact iff_of_true (if_pos hrange).symm (Or.inl hrange)
      · rw [if_neg hrange, or_iff_right hrange]
        exact eq_comm
    · rw [(hwrites a).2 hwritten, iff_false_left hwritten]
      by_cases hrange : address ≤ a ∧ a < address + size
      · rw [if_pos hrange, or_iff_right (not_not.mpr hrange)]
      · exact iff_of_true (if_neg hrange).symm (Or.inl hrange)
  · have hblocked : insert allocateTable ptr type 4 address size (T, calls) = .error .error := by
      apply herror
      obtain ⟨c, hc⟩ := not_forall.mp hfree
      obtain ⟨m, hm⟩ := not_forall.mp hc
      obtain ⟨hchunk, hm⟩ := Classical.not_imp.mp hm
      exact ⟨c, m, hchunk, not_not.mp hm⟩
    refine ⟨by rw [hblocked]; simp, ?_, fun h => absurd h.2.1 hfree⟩
    rintro ⟨T', calls', h, -⟩
    rw [hblocked] at h
    exact absurd h (by simp)

/-- One new page after the other. -/
def nextPage (k : Nat) : BitVec 64 := BitVec.ofNat 64 (k + 1) <<< 12

theorem nextPage_aligned (k : Nat) : nextPage k &&& 0xFFF = 0#64 := by
  apply BitVec.eq_of_getLsbD_eq
  intro i hi
  rw [nextPage, BitVec.getLsbD_and, BitVec.getLsbD_shiftLeft, BitVec.getLsbD_zero]
  by_cases hlow : i < 12
  · simp [hlow]
  · have hmask : (0xFFF : BitVec 64).getLsbD i = false := by
      apply Nat.testBit_lt_two_pow
      exact Nat.lt_of_lt_of_le (by decide) (Nat.pow_le_pow_right (by decide) (not_lt.mp hlow))
    rw [hmask, Bool.and_false]

/-- The whole span of the first entry of the top level. -/
theorem insert_first_span :
    InsertsMap nextPage 16 .medium (Table.zero 4) 0 0 (2 ^ 48) := by
  apply ((insert_iff nextPage_aligned 16 .medium (Table.zero 4) 0 (by decide) (by decide) (by decide) (by decide)).2).mpr
  have hbig : bigSize 0 (2 ^ 48) = 2 ^ 48 := by decide
  refine ⟨by decide, ?_, ?_⟩
  · intro c m hchunk
    rw [hbig, Nat.sub_self] at hchunk
    exact absurd hchunk (chunk_zero _ c m)
  · intro a ha
    refine Or.inl ?_
    rw [Written, hbig, Nat.sub_self]
    constructor
    · rintro (⟨x, -, hx, hindex⟩ | ⟨c, m, hchunk, -⟩)
      · change x / 2 ^ 48 % 2 ^ 16 = a / 2 ^ 48 % 2 ^ 16 at hindex
        omega
      · exact absurd hchunk (chunk_zero _ c m)
    · rintro ⟨-, hlt⟩
      exact Or.inl ⟨a, Nat.zero_le a, hlt, rfl⟩

/-- A page that is inserted into a new table is found at the next page as well. -/
theorem insert_first_page :
    ¬ ∀ (allocateTable : Nat → BitVec 64) ptr type T calls address size, (∀ k, allocateTable k &&& 0xFFF = 0#64) →
      ptr &&& flagsMaskLeaf = 0 → 4096 ∣ address → 4096 ∣ size → address < 2 ^ 64 → address + size ≤ 2 ^ 64 →
        InsertsMap allocateTable ptr type T calls address size := by
  intro h
  obtain ⟨T', calls', hok, hlookup⟩ := h nextPage 16 .medium (Table.zero 4) 0 0 4096 nextPage_aligned (by decide)
    (by decide) (by decide) (by decide) (by decide)
  have hbig : bigSize 0 4096 = 0 := by decide
  have hchunk : ∀ c m, Chunk (0 + bigSize 0 4096) (4096 - bigSize 0 4096) c m ↔ c = 0 ∧ m = 4096 := by
    intro c m
    rw [hbig, chunk_iff]
    constructor
    · rintro (⟨-, h⟩ | ⟨h, -⟩)
      · exact h
      · exact absurd h (by decide)
    · exact fun h => Or.inl ⟨by decide, h⟩
  have hfree : ∀ c m, Chunk (0 + bigSize 0 4096) (4096 - bigSize 0 4096) c m →
      ¬ (Blocked (Table.zero 4) c ∨ Covers 4 0 (bigSize 0 4096) (getIndex 4 c)) := by
    intro c m hc
    rw [hbig, ((hchunk c m).mp hc).1]
    rintro (⟨hvalid, -⟩ | hcovers)
    · exact absurd hvalid (by decide)
    · exact not_covers_zero _ _ _ hcovers
  obtain ⟨T'', calls'', hok', hwrites⟩ := (insert_spec .medium (show (16 : BitVec 64) &&& flagsMaskLeaf = 0#64 by decide)
    nextPage_aligned (by decide) (by decide) (by decide) (by decide) (Table.zero 4) 0).2 hfree
  obtain ⟨rfl, -⟩ := Prod.mk.inj (Except.ok.inj (hok.symm.trans hok'))
  have hwritten : Written 0 4096 4096 :=
    Or.inr ⟨0, 4096, (hchunk 0 4096).mpr ⟨rfl, rfl⟩, by decide, 0, le_rfl, by decide, by decide⟩
  have hafter := hlookup 4096 (by decide)
  rw [(hwrites 4096).1 hwritten, if_neg (by decide), lookup_zero] at hafter
  exact absurd hafter (by decide)

end Insert

end XviOs.GAlloc
