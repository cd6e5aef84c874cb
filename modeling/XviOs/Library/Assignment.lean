import Mathlib.Tactic

namespace XviOs.Library.Assignment

variable {ι κ β : Type*} [DecidableEq κ]

/-- A step that writes its place, or that leaves it unchanged. -/
def assign (place : κ) (value : Option β) (s : κ → β) : κ → β :=
  match value with
  | none => s
  | some v => Function.update s place v

/-- The steps of a list, one after another, with values that were fixed in advance. -/
def assignAll (place : ι → κ) (value : ι → Option β) (l : List ι) (s : κ → β) : κ → β :=
  l.foldl (fun t i => assign (place i) (value i) t) s

variable {place : ι → κ} {value : ι → Option β} {l : List ι} {s : κ → β} {k : κ}

theorem assign_self (v : Option β) : assign k v s k = v.getD (s k) := by
  cases v with
  | none => rfl
  | some v => exact Function.update_self k v s

theorem assign_of_ne {p : κ} (h : k ≠ p) (v : Option β) : assign p v s k = s k := by
  cases v with
  | none => rfl
  | some v => exact Function.update_of_ne h v s

theorem assignAll_concat (i : ι) :
    assignAll place value (l ++ [i]) s = assign (place i) (value i) (assignAll place value l s) :=
  List.foldl_concat _ _ _ _

/-- A place that no step writes is kept. -/
theorem assignAll_frame (h : ∀ i ∈ l, k ≠ place i) : assignAll place value l s k = s k := by
  induction l using List.reverseRecOn with
  | nil => rfl
  | append_singleton l i ih =>
    rw [assignAll_concat, assign_of_ne (h i (by simp))]
    exact ih fun j hj => h j (List.mem_append_left _ hj)

/-- A place that only one step writes gets the value of that step. -/
theorem assignAll_of_unique {i : ι} (hi : i ∈ l) (hl : l.Nodup) (h : ∀ j ∈ l, place i = place j → i = j) :
    assignAll place value l s (place i) = (value i).getD (s (place i)) := by
  induction l using List.reverseRecOn with
  | nil => cases hi
  | append_singleton l j ih =>
    obtain ⟨hnodup, -, hdisj⟩ := List.nodup_append'.mp hl
    rw [assignAll_concat]
    by_cases hij : i = j
    · subst hij
      rw [assign_self, assignAll_frame]
      intro j hj hplace
      obtain rfl := h j (List.mem_append_left _ hj) hplace
      exact hdisj hj (List.mem_singleton_self _)
    · have hmem : i ∈ l := (List.mem_append.mp hi).resolve_right fun hi => hij (List.mem_singleton.mp hi)
      rw [assign_of_ne fun hplace => hij (h j (by simp) hplace)]
      exact ih hmem hnodup fun j hj => h j (List.mem_append_left _ hj)

end XviOs.Library.Assignment
