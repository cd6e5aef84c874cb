import Mathlib.Data.List.GetD
import Mathlib.Tactic

namespace XviOs.Library.Bitmap

variable {w : Nat}

/-- `std::countr_one`. -/
def countrOne (x : BitVec w) : Nat := (List.range w).findIdx (fun i => !x.getLsbD i)

theorem getLsbD_of_lt_countrOne {x : BitVec w} {i : Nat} (hi : i < countrOne x) : x.getLsbD i = true := by
  have h := List.not_of_lt_findIdx hi
  simpa using h

theorem getLsbD_countrOne {x : BitVec w} (h : countrOne x < w) : x.getLsbD (countrOne x) = false := by
  have h' : countrOne x < (List.range w).length := by simpa using h
  have hbit : (!x.getLsbD ((List.range w).get ⟨countrOne x, h'⟩)) = true := List.findIdx_getElem (w := h')
  rwa [List.get_eq_getElem, List.getElem_range, Bool.not_eq_true'] at hbit

/-- Bit `i` of a bitmap of `w`-bit words. -/
def bit (m : List (BitVec w)) (i : Nat) : Bool := (m.getD (i / w) 0).getLsbD (i % w)

/-- `m[i / w] |= 1 << (i % w)` -/
def setBit (m : List (BitVec w)) (i : Nat) : List (BitVec w) := m.modify (i / w) (· ||| 1#w <<< (i % w))

/-- The number of clear bits among the first `n`. -/
def clearBits (m : List (BitVec w)) (n : Nat) : Nat := (List.range n).countP (fun i => !bit m i)

variable {m : List (BitVec w)} {i j n : Nat}

@[simp] theorem length_setBit : (setBit m i).length = m.length := by simp [setBit]

theorem getLsbD_or_one (x : BitVec w) (hi : i < w) (hj : j < w) :
    (x ||| 1#w <<< i).getLsbD j = (decide (i = j) || x.getLsbD j) := by
  rw [BitVec.getLsbD_or, BitVec.getLsbD_shiftLeft, Bool.or_comm]
  congr 1
  rcases lt_trichotomy i j with h | rfl | h
  · have : ¬ j - i = 0 := by omega
    simp [this, hj, h.ne]
  · have hw : 0 < w := by omega
    simp [hi, hw]
  · simp [h, hj, h.ne']

theorem getLsbD_one_shiftLeft (hi : i < w) (hj : j < w) : (1#w <<< i).getLsbD j = decide (i = j) := by
  have hone := getLsbD_or_one (0#w) hi hj
  rwa [BitVec.zero_or, BitVec.getLsbD_zero, Bool.or_false] at hone

theorem and_one_shiftLeft_ne_zero (x : BitVec w) (hi : i < w) : (x &&& 1#w <<< i != 0#w) = x.getLsbD i := by
  have hzero : x &&& 1#w <<< i = 0#w ↔ x.getLsbD i = false := by
    constructor
    · intro h
      have hbit := congrArg (fun y => BitVec.getLsbD y i) h
      simpa [getLsbD_one_shiftLeft hi hi] using hbit
    · intro h
      apply BitVec.eq_of_getLsbD_eq
      intro j hj
      rw [BitVec.getLsbD_and, getLsbD_one_shiftLeft hi hj, BitVec.getLsbD_zero, Bool.and_eq_false_iff]
      by_cases hij : i = j
      · exact Or.inl (hij ▸ h)
      · exact Or.inr (decide_eq_false hij)
  rw [Bool.eq_iff_iff, bne_iff_ne, ne_eq, hzero, Bool.not_eq_false]

theorem bit_setBit (hw : 0 < w) (hi : i / w < m.length) :
    bit (setBit m i) j = (decide (i = j) || bit m j) := by
  unfold bit setBit
  rw [List.getD_eq_getElem?_getD, List.getElem?_modify, List.getD_eq_getElem?_getD]
  by_cases h : i / w = j / w
  · have hj : j / w < m.length := h ▸ hi
    have hd : decide (i % w = j % w) = decide (i = j) := by
      rw [decide_eq_decide]
      constructor
      · intro hm
        rw [← Nat.div_add_mod i w, ← Nat.div_add_mod j w, h, hm]
      · rintro rfl
        rfl
    simp only [List.getElem?_eq_getElem hj, h, if_true, Option.map_eq_map, Option.map_some, Option.getD_some]
    rw [getLsbD_or_one _ (Nat.mod_lt _ hw) (Nat.mod_lt _ hw), hd]
  · have hne : i ≠ j := by
      rintro rfl
      exact h rfl
    simp [h, hne]

theorem clearBits_le (m : List (BitVec w)) (n : Nat) : clearBits m n ≤ n := by
  have h : clearBits m n ≤ (List.range n).length := List.countP_le_length
  rwa [List.length_range] at h

theorem setBit_of_bit (hi : bit m i = true) : setBit m i = m := by
  apply List.ext_getElem (by simp)
  intro k hk hk'
  by_cases h : i / w = k
  · subst h
    simp only [setBit, List.getElem_modify, if_true]
    apply BitVec.eq_of_getLsbD_eq
    intro j hj
    have hi' : m[i / w].getLsbD (i % w) = true := by
      rw [bit, List.getD_eq_getElem _ _ hk'] at hi
      exact hi
    rw [getLsbD_or_one _ (Nat.mod_lt _ (by omega)) hj]
    by_cases he : i % w = j
    · rw [← he, hi', Bool.or_true]
    · simp [he]
  · simp [setBit, h]

/-- A bit that was clear is clear no longer, and is the only one to change. -/
theorem clearBits_setBit (hw : 0 < w) (hm : i / w < m.length) (hi : i < n) (hb : bit m i = false) :
    clearBits (setBit m i) n + 1 = clearBits m n := by
  unfold clearBits
  have hp := (List.perm_cons_erase (List.mem_range.mpr hi)).countP_eq
  rw [hp, hp, List.countP_cons, List.countP_cons, bit_setBit hw hm, hb]
  simp only [decide_true, Bool.true_or, Bool.not_true, Bool.not_false, if_true, Bool.false_eq_true, if_false,
    Nat.add_zero, Nat.add_right_cancel_iff]
  apply List.countP_congr
  intro j hj
  have hne : i ≠ j := ((List.nodup_range).mem_erase_iff.mp hj).1.symm
  rw [bit_setBit hw hm]
  simp [hne]

/-- `m[i / w].set(i % w, b)` -/
def assignBit (m : List (BitVec w)) (i : Nat) (b : Bool) : List (BitVec w) :=
  m.modify (i / w) fun x => if b then x ||| 1#w <<< (i % w) else x &&& ~~~(1#w <<< (i % w))

@[simp] theorem length_assignBit (b : Bool) : (assignBit m i b).length = m.length := by simp [assignBit]

theorem getLsbD_and_not_one (x : BitVec w) (hi : i < w) (hj : j < w) :
    (x &&& ~~~(1#w <<< i)).getLsbD j = (!decide (i = j) && x.getLsbD j) := by
  rw [BitVec.getLsbD_and, BitVec.getLsbD_not, getLsbD_one_shiftLeft hi hj, decide_eq_true hj, Bool.true_and, Bool.and_comm]

theorem bit_assignBit (hw : 0 < w) (hi : i / w < m.length) (b : Bool) :
    bit (assignBit m i b) j = if i = j then b else bit m j := by
  cases b with
  | true =>
    have hset := bit_setBit (j := j) hw hi
    rw [assignBit]
    by_cases h : i = j
    · simpa [h, setBit] using hset
    · simpa [h, setBit] using hset
  | false =>
    rw [bit, assignBit, List.getD_eq_getElem?_getD, List.getElem?_modify, bit, List.getD_eq_getElem?_getD]
    by_cases h : i / w = j / w
    · have hj : j / w < m.length := h ▸ hi
      have hd : i % w = j % w ↔ i = j := by
        constructor
        · intro hm
          rw [← Nat.div_add_mod i w, ← Nat.div_add_mod j w, h, hm]
        · rintro rfl
          rfl
      simp only [List.getElem?_eq_getElem hj, h, if_true, Option.map_eq_map, Option.map_some, Option.getD_some,
        Bool.false_eq_true, if_false]
      rw [getLsbD_and_not_one _ (Nat.mod_lt _ hw) (Nat.mod_lt _ hw)]
      by_cases heq : i = j
      · simp [heq]
      · simp [heq, hd]
    · have hne : i ≠ j := by
        rintro rfl
        exact h rfl
      simp [h, hne]

end XviOs.Library.Bitmap
