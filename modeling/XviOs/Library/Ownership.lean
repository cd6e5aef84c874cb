import Mathlib.Data.Set.Card
import Mathlib.Data.List.Count

namespace XviOs.Library.Ownership

variable {ι κ : Type*} [DecidableEq κ]

/-- Each count is the number of places that own the thing, and of the references to it that a program holds. -/
def Tally (owner : ι → Option κ) (held : List κ) (count : κ → ℕ) : Prop :=
  ∀ k, (count k : ℕ∞) = {x | owner x = some k}.encard + held.count k

variable {owner : ι → Option κ} {held held' : List κ} {count : κ → ℕ} {k : κ} {v : Option κ} {x : ι}

namespace Tally

theorem pos_of_owner (h : Tally owner held count) (hx : owner x = some k) : 0 < count k := by
  have hne : {y | owner y = some k}.encard ≠ 0 := Set.encard_ne_zero.mpr ⟨x, hx⟩
  have hcount := h k
  rw [Nat.pos_iff_ne_zero]
  intro hzero
  rw [hzero, Nat.cast_zero, eq_comm, add_eq_zero] at hcount
  exact hne hcount.1

theorem pos_of_held (h : Tally owner (k :: held) count) : 0 < count k := by
  have hcount := h k
  rw [Nat.pos_iff_ne_zero]
  intro hzero
  rw [hzero, Nat.cast_zero, eq_comm, add_eq_zero, List.count_cons_self] at hcount
  exact absurd hcount.2 (by simp)

/-- A reference is taken. -/
theorem take (h : Tally owner held count) (k : κ) :
    Tally owner (k :: held) (Function.update count k (count k + 1)) := by
  intro k'
  obtain rfl | hne := eq_or_ne k' k
  · rw [Function.update_self, List.count_cons_self, Nat.cast_add, h k', Nat.cast_add, add_assoc]
  · rw [Function.update_of_ne hne, List.count_cons_of_ne hne.symm]
    exact h k'

/-- A reference is given back. -/
theorem drop (h : Tally owner (k :: held) count) : Tally owner held (Function.update count k (count k - 1)) := by
  intro k'
  obtain rfl | hne := eq_or_ne k' k
  · have hcount := h k'
    have hpos := h.pos_of_held
    rw [← Nat.sub_one_add_one hpos.ne', List.count_cons_self, Nat.cast_add, Nat.cast_add, ← add_assoc] at hcount
    rw [Function.update_self]
    exact WithTop.add_right_cancel ENat.one_ne_top hcount
  · rw [Function.update_of_ne hne]
    have hcount := h k'
    rwa [List.count_cons_of_ne hne.symm] at hcount

end Tally

theorem encard_eq_add (s : Set ι) (x : ι) [Decidable (x ∈ s)] :
    s.encard = (s \ {x}).encard + if x ∈ s then 1 else 0 := by
  split_ifs with hx
  · exact (Set.encard_sdiff_singleton_add_one hx).symm
  · rw [Set.sdiff_singleton_eq_self hx, add_zero]

theorem count_toList (v : Option κ) (k : κ) : v.toList.count k = if v = some k then 1 else 0 := by
  cases v with
  | none => rfl
  | some k' => simp [List.count_singleton]

variable [DecidableEq ι]

/-- A place gets the reference that is held, and what it had is held then. -/
theorem Tally.exchange (h : Tally owner (v.toList ++ held) count) (x : ι) :
    Tally (Function.update owner x v) ((owner x).toList ++ held) count := by
  intro k
  have hrest : {y | Function.update owner x v y = some k} \ {x} = {y | owner y = some k} \ {x} := by
    ext y
    simp only [Set.mem_sdiff, Set.mem_ofPred_eq, Set.mem_singleton_iff, and_congr_left_iff]
    intro hy
    rw [Function.update_of_ne hy]
  classical
  rw [h k, encard_eq_add {y | owner y = some k} x, encard_eq_add {y | Function.update owner x v y = some k} x, hrest,
    List.count_append, List.count_append, count_toList, count_toList]
  simp only [Set.mem_ofPred_eq, Function.update_self, Nat.cast_add, Nat.cast_ite, Nat.cast_one, Nat.cast_zero]
  exact add_add_add_comm _ _ _ _

/-- A place is changed where there is one more that owns nothing. -/
theorem update_elim_none {β : Type*} (p : ι → Option β) (x : ι) (s : Option β) :
    Function.update (fun z : Option ι => z.elim none p) (some x) s =
      fun z => z.elim none (Function.update p x s) := by
  funext z
  cases z with
  | none => exact Function.update_of_ne (Option.some_ne_none x).symm _ _
  | some z =>
    obtain rfl | hne := eq_or_ne z x
    · rw [Function.update_self]
      exact (Function.update_self (f := p) ..).symm
    · rw [Function.update_of_ne (mt Option.some_inj.mp hne)]
      exact (Function.update_of_ne hne s p).symm

end XviOs.Library.Ownership
