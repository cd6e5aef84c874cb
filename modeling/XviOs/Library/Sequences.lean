import Mathlib.Data.List.Destutter
import Mathlib.Logic.Function.Basic

namespace XviOs.Library.Sequences

variable {ι α β : Type*}

def insertAt (xs : List α) (i : ℕ) (ys : List α) : List α := xs.take i ++ ys ++ xs.drop i

/-- The list without what is from one position on, before another. -/
def eraseBetween (xs : List α) (a b : ℕ) : List α := xs.take a ++ xs.drop b

def slice (xs : List α) (a b : ℕ) : List α := (xs.take b).drop a

def resized (xs : List α) (n : ℕ) (x : α) : List α := xs.take n ++ List.replicate (n - xs.length) x

/-- A slice of one list moves to a position of a list, which can be the same one. The position is one in the list as it
was before. -/
def move [DecidableEq ι] (lists : ι → List α) (k : ι) (i : ℕ) (j : ι) (a b : ℕ) : ι → List α :=
  let rest := Function.update lists j (eraseBetween (lists j) a b)
  Function.update rest k (insertAt (rest k) (if k = j ∧ b ≤ i then i - (b - a) else i) (slice (lists j) a b))

variable {xs ys : List α} {a b i n : ℕ} {x : α} (f : α → β)

theorem map_insertAt : (insertAt xs i ys).map f = insertAt (xs.map f) i (ys.map f) := by
  simp only [insertAt, List.map_append, List.map_take, List.map_drop]

theorem map_eraseBetween : (eraseBetween xs a b).map f = eraseBetween (xs.map f) a b := by
  simp only [eraseBetween, List.map_append, List.map_take, List.map_drop]

theorem map_slice : (slice xs a b).map f = slice (xs.map f) a b := by
  simp only [slice, List.map_take, List.map_drop]

theorem map_update [DecidableEq ι] (lists : ι → List α) (k : ι) (ys : List α) :
    (fun l => (Function.update lists k ys l).map f) = Function.update (fun l => (lists l).map f) k (ys.map f) := by
  funext l
  obtain rfl | hl := eq_or_ne l k
  · rw [Function.update_self, Function.update_self]
  · rw [Function.update_of_ne hl, Function.update_of_ne hl]

theorem map_move [DecidableEq ι] (lists : ι → List α) (k : ι) (i : ℕ) (j : ι) (a b : ℕ) :
    (fun l => (move lists k i j a b l).map f) = move (fun l => (lists l).map f) k i j a b := by
  simp only [move]
  rw [map_update, map_update, map_insertAt, map_slice, map_eraseBetween]
  congr 2
  obtain rfl | hk := eq_or_ne k j
  · rw [Function.update_self, Function.update_self, map_eraseBetween]
  · rw [Function.update_of_ne hk, Function.update_of_ne hk]

theorem insertAt_append (xs ys zs : List α) : insertAt (xs ++ zs) xs.length ys = xs ++ ys ++ zs := by
  rw [insertAt, List.take_left, List.drop_left]

theorem insertAt_nil : insertAt xs i [] = xs := by
  rw [insertAt, List.append_nil, List.take_append_drop]

theorem insertAt_insertAt (hi : i ≤ xs.length) (ys zs : List α) :
    insertAt (insertAt xs i ys) (i + ys.length) zs = insertAt xs i (ys ++ zs) := by
  have hlen : (xs.take i ++ ys).length = i + ys.length := by
    rw [List.length_append, List.length_take, Nat.min_eq_left hi]
  rw [insertAt, ← hlen, insertAt, List.take_left, List.drop_left, insertAt, List.append_assoc (xs.take i)]

theorem insertAt_same (hi : i ≤ xs.length) (ys zs : List α) :
    insertAt (insertAt xs i ys) i zs = insertAt xs i (zs ++ ys) := by
  have hlen : (xs.take i).length = i := by rw [List.length_take, Nat.min_eq_left hi]
  have hsplit : insertAt xs i ys = xs.take i ++ (ys ++ xs.drop i) := List.append_assoc _ _ _
  rw [hsplit, insertAt, List.take_left' hlen, List.drop_left' hlen, insertAt]
  simp only [List.append_assoc]

/-- What a new node contains is put in where the node is. -/
theorem map_insert_fresh [DecidableEq ι] [DecidableEq α] {chain : ι → List α} {k : ι} {C D : List α} {e : α}
    (hk : chain k = C ++ D) (hfresh : ∀ i, e ∉ chain i) (data : α → β) (x : β) :
    (fun i => (Function.update chain k (C ++ [e] ++ D) i).map (Function.update data e x)) =
      Function.update (fun i => (chain i).map data) k (insertAt ((chain k).map data) C.length [x]) := by
  have hsame : ∀ i, (chain i).map (Function.update data e x) = (chain i).map data := by
    intro i
    apply List.map_congr_left
    intro y hy
    apply Function.update_of_ne
    rintro rfl
    exact hfresh i hy
  have hkeep := hsame k
  rw [hk, List.map_append, List.map_append] at hkeep
  obtain ⟨hC, hD⟩ := List.append_inj hkeep (by rw [List.length_map, List.length_map])
  rw [map_update, List.map_append, List.map_append, List.map_singleton, Function.update_self, hC, hD, hk,
    List.map_append, ← List.length_map data, insertAt_append]
  simp only [hsame]

/-- What a node contains is overwritten. -/
theorem map_write [DecidableEq ι] [DecidableEq α] {chain : ι → List α} {k : ι} {C D : List α} {e : α}
    (hk : chain k = C ++ [e] ++ D) (hC : e ∉ C) (hD : e ∉ D) (hother : ∀ i, i ≠ k → e ∉ chain i) (data : α → β)
    (x : β) :
    (fun i => (chain i).map (Function.update data e x)) =
      Function.update (fun i => (chain i).map data) k (C.map data ++ [x] ++ D.map data) := by
  have hsame : ∀ l : List α, e ∉ l → l.map (Function.update data e x) = l.map data := by
    intro l hl
    apply List.map_congr_left
    intro y hy
    apply Function.update_of_ne
    rintro rfl
    exact hl hy
  funext i
  obtain rfl | hik := eq_or_ne i k
  · rw [Function.update_self, hk, List.map_append, List.map_append, hsame C hC, hsame D hD, List.map_singleton,
      Function.update_self]
  · rw [Function.update_of_ne hik, hsame _ (hother i hik)]

theorem take_append_slice (hab : a ≤ b) : xs.take a ++ slice xs a b = xs.take b := by
  have h := List.take_append_drop a (xs.take b)
  rwa [List.take_take, Nat.min_eq_left hab] at h

/-- What moves to where it begins, or to where it ends, stays where it is. -/
theorem move_self [DecidableEq ι] (lists : ι → List α) {k : ι} (hab : a ≤ b) (hb : b ≤ (lists k).length)
    (hi : i = a ∨ i = b) : move lists k i k a b = lists := by
  have hpos : (if k = k ∧ b ≤ i then i - (b - a) else i) = (List.take a (lists k)).length := by
    rw [List.length_take, Nat.min_eq_left (hab.trans hb)]
    split_ifs with h
    · omega
    · have hib : ¬ b ≤ i := fun hbi => h ⟨rfl, hbi⟩
      omega
  unfold move
  dsimp only
  rw [hpos, Function.update_self, Function.update_idem, eraseBetween, insertAt_append, take_append_slice hab,
    List.take_append_drop, Function.update_eq_self]

theorem slice_succ (ha : a < xs.length) : slice xs a (a + 1) = [xs[a]] := by
  have hlen : (xs.take a).length = a := by rw [List.length_take, Nat.min_eq_left ha.le]
  rw [slice, List.take_succ_eq_append_getElem ha, List.drop_left' hlen]

/-- An empty slice can be moved anywhere. -/
theorem move_empty [DecidableEq ι] (lists : ι → List α) (k : ι) (i : ℕ) (j : ι) (a : ℕ) :
    move lists k i j a a = lists := by
  have hrest : Function.update lists j (eraseBetween (lists j) a a) = lists :=
    Function.update_eq_self_iff.mpr (List.take_append_drop a (lists j))
  have hslice : slice (lists j) a a = [] := List.drop_eq_nil_of_le (List.length_take_le a (lists j))
  unfold move
  dsimp only
  rw [hrest, hslice, insertAt_nil, Function.update_eq_self]

theorem move_nil [DecidableEq ι] {lists : ι → List α} {j : ι} (hj : lists j = []) (k : ι) (i : ℕ) :
    move lists k i j 0 (lists j).length = lists := by
  rw [hj]
  exact move_empty lists k i j 0

theorem eq_slices (hab : a ≤ b) : xs = xs.take a ++ slice xs a b ++ xs.drop b := by
  rw [take_append_slice hab, List.take_append_drop]

end XviOs.Library.Sequences
