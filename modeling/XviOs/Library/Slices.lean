import Mathlib.Data.List.GetD
import XviOs.Library.BitField

namespace XviOs.Library.Slices

open LittleEndian

/-- The `n` bytes from `a` on. -/
def slice (m : Bytes) (a n : Nat) : List UInt8 := (List.range n).map (fun i => m (a + i))

/-- The storage with the bytes `data` put at `a`. -/
def store (m : Bytes) (a : Nat) (data : List UInt8) : Bytes :=
  fun x => if a ≤ x ∧ x < a + data.length then data.getD (x - a) 0 else m x

/-- A list with `data` in the place of what stands at `a`, and longer if `data` is. -/
def splice (l : List UInt8) (a : Nat) (data : List UInt8) : List UInt8 :=
  l.take a ++ (data ++ l.drop (a + data.length))

variable {m m' : Bytes} {a b n k x : Nat} {data data' : List UInt8}

@[simp] theorem length_slice (m : Bytes) (a n : Nat) : (slice m a n).length = n := by simp [slice]

theorem getElem_slice (h : x < (slice m a n).length) : (slice m a n)[x] = m (a + x) := by simp [slice]

theorem slice_append (m : Bytes) (a n k : Nat) : slice m a n ++ slice m (a + n) k = slice m a (n + k) := by
  simp only [slice, List.range_add, List.map_append, List.map_map]
  congr 1
  apply List.map_congr_left
  intro x _
  simp [Nat.add_assoc]

theorem slice_cons (m : Bytes) (a n : Nat) : slice m a (n + 1) = m a :: slice m (a + 1) n := by
  rw [Nat.add_comm, ← slice_append]
  rfl

theorem store_of_mem (h : a ≤ x ∧ x < a + data.length) : store m a data x = data.getD (x - a) 0 := if_pos h

theorem store_of_not_mem (h : ¬ (a ≤ x ∧ x < a + data.length)) : store m a data x = m x := if_neg h

@[simp] theorem store_nil (m : Bytes) (a : Nat) : store m a [] = m := by
  funext x
  exact store_of_not_mem (by simp)

/-- Two pieces that follow one another are stored as one. -/
theorem store_append (m : Bytes) (a : Nat) (data data' : List UInt8) :
    store (store m a data) (a + data.length) data' = store m a (data ++ data') := by
  funext x
  simp only [store, List.length_append]
  by_cases h : a + data.length ≤ x ∧ x < a + data.length + data'.length
  · rw [if_pos h, if_pos (by omega), List.getD_append_right _ _ _ _ (by omega), Nat.sub_sub]
  · rw [if_neg h]
    by_cases h' : a ≤ x ∧ x < a + data.length
    · rw [if_pos h', if_pos (by omega), List.getD_append _ _ _ _ (by omega)]
    · rw [if_neg h', if_neg (by omega)]

theorem store_cons (m : Bytes) (a : Nat) (c : UInt8) (data : List UInt8) :
    store (store m a [c]) (a + 1) data = store m a (c :: data) := store_append m a [c] data

theorem slice_store_self (m : Bytes) (a : Nat) (data : List UInt8) : slice (store m a data) a data.length = data := by
  apply List.ext_getElem (length_slice _ _ _)
  intro x hx hx'
  rw [getElem_slice, store_of_mem (by omega), Nat.add_sub_cancel_left, List.getD_eq_getElem _ _ hx']

theorem length_splice {l : List UInt8} (h : a ≤ l.length) (data : List UInt8) :
    (splice l a data).length = max l.length (a + data.length) := by
  rw [splice, List.length_append, List.length_append, List.length_take, List.length_drop]
  omega

theorem splice_nil (l : List UInt8) (a : Nat) : splice l a [] = l := by
  rw [splice, List.nil_append, List.length_nil, Nat.add_zero, List.take_append_drop]

/-- Two pieces that follow one another are put in as one. -/
theorem splice_splice {l : List UInt8} (h : a ≤ l.length) (data data' : List UInt8) :
    splice (splice l a data) (a + data.length) data' = splice l a (data ++ data') := by
  have hfront : (l.take a ++ data).length = a + data.length := by
    rw [List.length_append, List.length_take_of_le h]
  have hsplit : splice l a data = (l.take a ++ data) ++ l.drop (a + data.length) := (List.append_assoc ..).symm
  have hdrop : (splice l a data).drop (a + data.length + data'.length) =
      l.drop (a + (data ++ data').length) := by
    rw [hsplit, ← hfront, List.drop_length_add_append, List.drop_drop, hfront, List.length_append, Nat.add_assoc]
  rw [splice, hdrop, hsplit, ← hfront, List.take_left, splice, List.append_assoc, List.append_assoc]

/-- What is put in reaches to the end of what is longer. -/
theorem splice_append {l pad : List UInt8} (h : a ≤ l.length) (hlen : l.length + pad.length = a + data.length) :
    splice (l ++ pad) a data = splice l a data := by
  rw [splice, splice, List.take_append_of_le_length h, List.drop_eq_nil_of_le (by rw [List.length_append, hlen]),
    List.drop_eq_nil_of_le (by omega)]

end XviOs.Library.Slices
