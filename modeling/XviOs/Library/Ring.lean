import Mathlib.Data.List.Rotate
import Mathlib.Tactic

namespace XviOs.Library.Ring

variable {α : Type*} {cells data : List α} {start used w n : Nat}

/-- The `n` cells of a ring from `start` on. -/
def window (cells : List α) (start n : Nat) : List α := (cells.rotate start).take n

/-- The cells with `data` in them from `pos` on. -/
def store (cells : List α) (pos : Nat) (data : List α) : List α :=
  cells.take pos ++ data ++ cells.drop (pos + data.length)

theorem length_store (h : w + data.length ≤ cells.length) : (store cells w data).length = cells.length := by
  simp only [store, List.length_append, List.length_take, List.length_drop]
  omega

theorem length_window (h : n ≤ cells.length) : (window cells start n).length = n := by
  rw [window, List.length_take, List.length_rotate]
  exact Nat.min_eq_left h

/-- A window is read in two pieces: up to the last cell, and from the first one on. -/
theorem window_eq_pieces (hstart : start ≤ cells.length) (hn : n ≤ cells.length) :
    window cells start n =
      (cells.drop start).take (min n (cells.length - start)) ++ cells.take (n - min n (cells.length - start)) := by
  have hback : (cells.drop start).length = cells.length - start := List.length_drop ..
  rw [window, List.rotate_eq_drop_append_take hstart, List.take_append, List.take_take, hback]
  by_cases h : n ≤ cells.length - start
  · simp [Nat.min_eq_left h, Nat.sub_eq_zero_of_le h]
  · have hle : cells.length - start ≤ n := Nat.le_of_not_le h
    rw [Nat.min_eq_right hle, List.take_of_length_le (hback.trans_le hle), List.take_of_length_le hback.le,
      Nat.min_eq_left (by omega)]

/-- What is written in two pieces stands in one piece in front of the cells behind it. -/
theorem rotate_store_pieces (hw : w ≤ cells.length) (hdata : data.length ≤ cells.length) :
    (store (store cells w (data.take (cells.length - w))) 0 (data.drop (cells.length - w))).rotate w =
      data ++ (cells.rotate w).drop data.length := by
  have hrotate := List.rotate_eq_drop_append_take hw
  have hback : (cells.drop w).length = cells.length - w := List.length_drop ..
  by_cases h : data.length ≤ cells.length - w
  · have hstored : (store cells w data).length = cells.length := length_store (by omega)
    have hhead : (cells.take w).length = w := List.length_take_of_le hw
    have hplain : store (store cells w data) 0 [] = store cells w data := rfl
    rw [List.take_of_length_le h, List.drop_eq_nil_of_le h, hplain, List.rotate_eq_drop_append_take (by omega),
      hrotate, store, List.append_assoc, List.drop_left' hhead, List.take_left' hhead,
      List.drop_append_of_le_length (by rw [List.length_drop]; exact h), List.drop_drop, List.append_assoc]
  · have hle : cells.length - w ≤ data.length := Nat.le_of_not_le h
    have hfirst : (data.take (cells.length - w)).length = cells.length - w := List.length_take_of_le hle
    have hsecond : (data.drop (cells.length - w)).length ≤ w := by
      rw [List.length_drop]
      omega
    have hone : store cells w (data.take (cells.length - w)) = cells.take w ++ data.take (cells.length - w) := by
      rw [store, hfirst, Nat.add_sub_cancel' hw, List.drop_length, List.append_nil]
    have htwo : store (cells.take w ++ data.take (cells.length - w)) 0 (data.drop (cells.length - w)) =
        (data.drop (cells.length - w) ++ (cells.take w).drop (data.drop (cells.length - w)).length) ++
          data.take (cells.length - w) := by
      rw [store, List.take_zero, List.nil_append, Nat.zero_add,
        List.drop_append_of_le_length (by rw [List.length_take_of_le hw]; exact hsecond), List.append_assoc]
    have hhead : (data.drop (cells.length - w) ++
        (cells.take w).drop (data.drop (cells.length - w)).length).length = w := by
      rw [List.length_append, List.length_drop (l := cells.take w), List.length_take_of_le hw]
      omega
    rw [hone, htwo, List.rotate_eq_drop_append_take (by rw [List.length_append, hhead]; exact Nat.le_add_right _ _),
      List.drop_left' hhead, List.take_left' hhead, ← List.append_assoc, List.take_append_drop, hrotate,
      List.drop_append, hback, List.drop_eq_nil_of_le (hback.trans_le hle), List.nil_append, List.length_drop]

/-- Data that is written behind a window makes it longer. -/
theorem window_extend {cells' : List α} (hlength : cells'.length = cells.length)
    (hroom : used + data.length ≤ cells.length)
    (h : cells'.rotate (start + used) = data ++ (cells.rotate (start + used)).drop data.length) :
    window cells' start (used + data.length) = window cells start used ++ data := by
  rw [← List.rotate_rotate, ← List.rotate_rotate] at h
  simp only [window]
  have hlen : (cells.rotate start).length = cells.length := List.length_rotate ..
  have hlen' : (cells'.rotate start).length = cells.length := (List.length_rotate ..).trans hlength
  generalize cells.rotate start = front at *
  generalize cells'.rotate start = front' at *
  have hused : used ≤ front.length := by omega
  rw [List.rotate_eq_drop_append_take (by omega), List.rotate_eq_drop_append_take hused,
    List.drop_append_of_le_length (by rw [List.length_drop]; omega), ← List.append_assoc] at h
  obtain ⟨hdrop, htake⟩ := List.append_inj' h (by simp [List.length_take, hlen, hlen'])
  rw [← htake, ← List.take_append_drop used front', List.take_append, List.length_take, List.take_take, hdrop]
  simp [hlen', Nat.min_eq_left (show used ≤ cells.length by omega)]

theorem window_skip (h : n ≤ used) (hused : used ≤ cells.length) :
    window cells (start + n) (used - n) = (window cells start used).drop n := by
  rw [window, ← List.rotate_rotate, List.rotate_eq_drop_append_take (by rw [List.length_rotate]; omega),
    List.take_append_of_le_length (by rw [List.length_drop, List.length_rotate]; omega), window, List.drop_take]

theorem window_mod (start n : Nat) : window cells (start % cells.length) n = window cells start n := by
  rw [window, List.rotate_mod, window]

theorem window_take (h : n ≤ used) : (window cells start used).take n = window cells start n := by
  rw [window, List.take_take, Nat.min_eq_left h, window]

end XviOs.Library.Ring
