import Mathlib.Tactic

namespace XviOs.Library.Queue

variable {α : Type*} {q : List α} {a b t x : α}

/-- In the queue `q`, `t` stands right behind `a`. -/
def Behind (q : List α) (a t : α) : Prop := [a, t] <:+: q

theorem behind_cons : Behind (x :: q) a t ↔ (a = x ∧ q.head? = some t) ∨ Behind q a t := by
  rw [Behind, List.infix_cons_iff, List.cons_prefix_cons]
  refine or_congr (and_congr_right fun _ => ?_) Iff.rfl
  cases q with
  | nil => simp
  | cons y q => simp [eq_comm]

theorem not_behind_nil : ¬ Behind [] a t := by
  simp [Behind]

theorem Behind.mem_left (h : Behind q a t) : a ∈ q := h.subset (by simp)

theorem Behind.mem_right (h : Behind q a t) : t ∈ q := h.subset (by simp)

theorem Behind.mem_tail (h : Behind q a t) : t ∈ q.tail := by
  cases q with
  | nil => exact absurd h not_behind_nil
  | cons x q =>
    obtain ⟨-, hhead⟩ | hbehind := behind_cons.mp h
    · exact List.mem_of_mem_head? hhead
    · exact hbehind.mem_right

/-- Nothing stands in front of the head. -/
theorem Behind.ne_head (h : Behind q a t) (hq : q.Nodup) : q.head? ≠ some t := by
  cases q with
  | nil => simp
  | cons x q =>
    intro hx
    obtain rfl := Option.some.inj hx
    exact (List.nodup_cons.mp hq).1 h.mem_tail

theorem Behind.ne (h : Behind q a t) (hq : q.Nodup) : a ≠ t := by
  rintro rfl
  induction q with
  | nil => exact not_behind_nil h
  | cons x q ih =>
    obtain ⟨rfl, hhead⟩ | hbehind := behind_cons.mp h
    · exact (List.nodup_cons.mp hq).1 (List.mem_of_mem_head? hhead)
    · exact ih (List.nodup_cons.mp hq).2 hbehind

theorem Behind.unique (h : Behind q a t) (h' : Behind q b t) (hq : q.Nodup) : a = b := by
  induction q with
  | nil => exact absurd h not_behind_nil
  | cons x q ih =>
    have hq' := (List.nodup_cons.mp hq).2
    obtain ⟨rfl, hhead⟩ | hbehind := behind_cons.mp h
    · obtain ⟨rfl, -⟩ | hbehind' := behind_cons.mp h'
      · rfl
      · exact absurd hhead (hbehind'.ne_head hq')
    · obtain ⟨rfl, hhead'⟩ | hbehind' := behind_cons.mp h'
      · exact absurd hhead' (hbehind.ne_head hq')
      · exact ih hbehind hbehind' hq'

theorem Behind.unique_left (h : Behind q a t) (h' : Behind q a x) (hq : q.Nodup) : t = x := by
  induction q with
  | nil => exact absurd h not_behind_nil
  | cons y q ih =>
    obtain ⟨hy, hq'⟩ := List.nodup_cons.mp hq
    obtain ⟨rfl, hhead⟩ | hbehind := behind_cons.mp h
    · obtain ⟨-, hhead'⟩ | hbehind' := behind_cons.mp h'
      · exact Option.some.inj (hhead.symm.trans hhead')
      · exact absurd hbehind'.mem_left hy
    · obtain ⟨rfl, -⟩ | hbehind' := behind_cons.mp h'
      · exact absurd hbehind.mem_left hy
      · exact ih hbehind hbehind' hq'

theorem Behind.ne_last (h : Behind q a t) (hq : q.Nodup) : q.getLast? ≠ some a := by
  intro hlast
  induction q with
  | nil => exact not_behind_nil h
  | cons x q ih =>
    obtain ⟨hx, hq'⟩ := List.nodup_cons.mp hq
    cases q with
    | nil =>
      obtain ⟨-, hhead⟩ | hbehind := behind_cons.mp h
      · cases hhead
      · exact not_behind_nil hbehind
    | cons y q =>
      rw [List.getLast?_cons_cons] at hlast
      obtain ⟨rfl, -⟩ | hbehind := behind_cons.mp h
      · exact hx (List.mem_of_getLast? hlast)
      · exact ih hbehind hq' hlast

theorem Behind.concat (h : Behind q a t) (x : α) : Behind (q ++ [x]) a t := List.infix_append_of_infix_left h

/-- The one who joins stands behind the last. -/
theorem behind_last (h : q.getLast? = some a) (x : α) : Behind (q ++ [x]) a x := by
  induction q with
  | nil => cases h
  | cons y q ih =>
    rw [List.cons_append, behind_cons]
    cases q with
    | nil =>
      obtain rfl := Option.some.inj h
      exact Or.inl ⟨rfl, rfl⟩
    | cons z q =>
      rw [List.getLast?_cons_cons] at h
      exact Or.inr (ih h)

/-- Without the head the others stand as they did. -/
theorem Behind.of_cons (h : Behind (x :: q) a t) (hne : q.head? ≠ some t) : Behind q a t := by
  obtain ⟨-, hhead⟩ | hbehind := behind_cons.mp h
  · exact absurd hhead hne
  · exact hbehind

end XviOs.Library.Queue
