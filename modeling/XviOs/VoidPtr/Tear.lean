import XviOs.VoidPtr.Model

namespace XviOs.VoidPtr

open Library.StateProgram Algorithm

variable {compare : List Byte → List Byte → ℤ} {size lo hi first i j n : ℕ} {f g : ℕ → Byte}

theorem distance_add (hsize : 0 < size) (first n : ℕ) : distance size first (first + n * size) = n := by
  rw [distance, Nat.add_sub_cancel_left, Nat.mul_div_cancel n hsize]

theorem place_eq_iff (hsize : 0 < size) : first + i * size = first + j * size ↔ i = j := by
  rw [Nat.add_left_cancel_iff, Nat.mul_left_inj hsize.ne']

theorem place_succ (first i size : ℕ) : first + i * size + size = first + (i + 1) * size := by
  rw [Nat.succ_mul, Nat.add_assoc]

theorem place_pred (first size : ℕ) (hi : 0 < i) : first + i * size - size = first + (i - 1) * size := by
  rw [← Nat.sub_one_add_one hi.ne', ← place_succ, Nat.add_sub_cancel, Nat.add_sub_cancel]

/-- No element can be compared with a local variable that holds one of its bytes. -/
theorem wrappedPred_temporary_fails (hsize : 1 < size) (tmp : Byte) (r : Ref) :
    wrappedPred compare size lo hi (.temporary tmp) r f = none := by
  rw [wrappedPred]
  apply bind_eq_none
  intro x t h
  rw [element, if_neg hsize.ne'] at h
  cases h

theorem wrappedPred_value_fails (hsize : 1 < size) (value : Byte) (r : Ref) :
    wrappedPred compare size lo hi r (.temporary value) f = none := by
  rw [wrappedPred]
  apply bind_eq_none
  intro x t _
  apply bind_eq_none
  intro y u h
  rw [element, if_neg hsize.ne'] at h
  cases h

theorem insertionSort_fails (hsize : 1 < size) (hn : 2 ≤ n) :
    insertionSort compare size lo hi first (first + n * size) f = none := by
  rw [insertionSort, distance_add (Nat.lt_trans Nat.one_pos hsize), if_neg (Nat.not_lt.mpr hn)]
  obtain ⟨k, rfl⟩ : ∃ k, n = k + 2 := ⟨n - 2, by omega⟩
  apply bind_eq_none
  intro _ t h
  obtain ⟨tmp, t, -, h⟩ := bind_eq_some_iff.mp h
  obtain ⟨j, u, h, -⟩ := bind_eq_some_iff.mp h
  obtain ⟨b, v, h, -⟩ := bind_eq_some_iff.mp h
  rw [wrappedPred_temporary_fails hsize] at h
  cases h

section Partition

variable {pred : ℕ → Sorter Byte Bool}

theorem scanUp_place (hsize : 0 < size) {m r : ℕ} (hij : i ≤ j)
    (h : scanUp size pred m (first + i * size) (first + j * size) f = some (r, g)) :
    ∃ k, i ≤ k ∧ k ≤ j ∧ r = first + k * size := by
  induction m generalizing i f with
  | zero => cases h
  | succ m ih =>
    rw [scanUp] at h
    split_ifs at h with heq <;> rw [place_eq_iff hsize] at heq
    · cases h
      exact ⟨i, le_refl i, hij, rfl⟩
    · obtain ⟨b, t, -, h⟩ := bind_eq_some_iff.mp h
      cases b with
      | false =>
        cases h
        exact ⟨i, le_refl i, hij, rfl⟩
      | true =>
        rw [if_pos rfl, place_succ] at h
        obtain ⟨k, hk, hkj, hr⟩ := ih (by omega) h
        exact ⟨k, by omega, hkj, hr⟩

theorem scanDown_place (hsize : 0 < size) {m r : ℕ} (hij : i ≤ j)
    (h : scanDown size pred m (first + i * size) (first + j * size) f = some (r, g)) :
    ∃ k, i ≤ k ∧ k ≤ j ∧ r = first + k * size := by
  induction m generalizing j f with
  | zero => cases h
  | succ m ih =>
    rw [scanDown] at h
    split_ifs at h with heq <;> rw [place_eq_iff hsize] at heq
    · cases h
      exact ⟨j, hij, le_refl j, rfl⟩
    · obtain ⟨b, t, -, h⟩ := bind_eq_some_iff.mp h
      cases b with
      | true =>
        cases h
        exact ⟨j, hij, le_refl j, rfl⟩
      | false =>
        rw [if_neg Bool.false_ne_true, place_pred first size (by omega)] at h
        obtain ⟨k, hk, hkj, hr⟩ := ih (by omega) h
        exact ⟨k, hk, by omega, hr⟩

theorem partitionLoop_place (hsize : 0 < size) {m r : ℕ} (hij : i ≤ j)
    (h : partitionLoop size lo hi pred m (first + i * size) (first + j * size) f = some (r, g)) :
    ∃ k, i ≤ k ∧ k ≤ j ∧ r = first + k * size := by
  induction m generalizing i j f with
  | zero => cases h
  | succ m ih =>
    obtain ⟨_, t, hup, h⟩ := bind_eq_some_iff.mp h
    obtain ⟨i', hi, hij', rfl⟩ := scanUp_place hsize hij hup
    obtain ⟨_, u, hdown, h⟩ := bind_eq_some_iff.mp h
    obtain ⟨j', hi', hj, rfl⟩ := scanDown_place hsize hij' hdown
    by_cases heq : i' = j'
    · rw [if_pos ((place_eq_iff hsize).mpr heq)] at h
      cases h
      exact ⟨i', hi, hij', rfl⟩
    · rw [if_neg (mt (place_eq_iff hsize).mp heq)] at h
      obtain ⟨_, v, -, h⟩ := bind_eq_some_iff.mp h
      rw [place_succ] at h
      by_cases hmeet : i' + 1 = j'
      · rw [if_neg (not_not.mpr ((place_eq_iff hsize).mpr hmeet))] at h
        obtain ⟨k, hk, hkj, hr⟩ := ih (by omega) h
        exact ⟨k, by omega, by omega, hr⟩
      · rw [if_pos (mt (place_eq_iff hsize).mp hmeet), place_pred first size (by omega)] at h
        obtain ⟨k, hk, hkj, hr⟩ := ih (by omega) h
        exact ⟨k, by omega, by omega, hr⟩

end Partition

/-- The pivot is put at a place of the range. -/
theorem quickStep_place (hsize : 0 < size) (hn : 0 < n) {p : ℕ}
    (h : quickStep compare size lo hi first (first + n * size) f = some (p, g)) : ∃ k < n, p = first + k * size := by
  obtain ⟨_, t, -, h⟩ := bind_eq_some_iff.mp h
  obtain ⟨_, u, -, h⟩ := bind_eq_some_iff.mp h
  obtain ⟨pivot, v, hpartition, h⟩ := bind_eq_some_iff.mp h
  obtain ⟨_, w, -, h⟩ := bind_eq_some_iff.mp h
  cases h
  rw [place_pred first size hn, partition] at hpartition
  have hplace := partitionLoop_place (i := 0) hsize (Nat.zero_le (n - 1))
    (by rw [Nat.zero_mul, Nat.add_zero]; exact hpartition)
  obtain ⟨k, -, hk, rfl⟩ := hplace
  exact ⟨k, by omega, rfl⟩

theorem reverseLoop_passed (hsize : 0 < size) (m : ℕ) {last : ℕ} (h : last < first) :
    reverseLoop size lo hi m first last f = none := by
  induction m generalizing first last f with
  | zero => rfl
  | succ m ih =>
    rw [reverseLoop, if_neg h.ne', if_neg (by omega)]
    apply bind_eq_none
    intro _ t _
    exact ih (by omega)

theorem heapSort_fails (hsize : 0 < size) (n : ℕ) :
    (do
      makeHeap compare size lo hi first (first + n * size)
      sortHeap compare size lo hi first (first + n * size) : Sorter Byte Unit) f = none := by
  apply bind_eq_none
  intro _ t _
  apply bind_eq_none
  intro _ u _
  rw [distance_add hsize, Nat.add_sub_cancel, reverse]
  split_ifs
  · rfl
  · exact reverseLoop_passed hsize _ (by omega)

/-- Two elements of more than one byte cannot be sorted. -/
theorem introsort_fails (hsize : 1 < size) (depth : ℕ) (hn : 2 ≤ n) :
    introsort compare size lo hi depth first (first + n * size) f = none := by
  have hpos : 0 < size := Nat.lt_trans Nat.one_pos hsize
  induction depth generalizing first n f with
  | zero =>
    rw [introsort, distance_add hpos, if_neg (by omega)]
    split_ifs
    · exact insertionSort_fails hsize hn
    · exact heapSort_fails hpos n
  | succ depth ih =>
    rw [introsort, distance_add hpos, if_neg (by omega)]
    split_ifs with hshort
    · exact insertionSort_fails hsize hn
    have hlong : 16 < n := Nat.lt_of_not_le hshort
    apply bind_eq_none
    intro p t hstep
    obtain ⟨k, hk, rfl⟩ := quickStep_place hpos (by omega) hstep
    by_cases hleft : 2 ≤ k
    · apply bind_eq_none
      intro _ u h
      rw [ih hleft] at h
      cases h
    · apply bind_eq_none
      intro _ u _
      have hlast : first + n * size = first + (k + 1) * size + (n - (k + 1)) * size := by
        rw [Nat.add_assoc, ← Nat.add_mul, Nat.add_sub_cancel' hk]
      rw [place_succ, hlast]
      exact ih (by omega)

end XviOs.VoidPtr
