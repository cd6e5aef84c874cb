import XviOs.Algorithm.SetOperations

namespace XviOs.Algorithm

section Definitions

variable {α : Type}

/-- The loop of `partition_point`, `lower_bound` and `upper_bound`. They differ in the test that moves `__first`. There
is nothing to read at the end of the range or behind that, and none too is a loop that has not ended after so many
rounds. -/
def boundLoop (test : α → Bool) (range : List α) : Nat → Nat → Nat → Nat → Option Nat
  | 0, _, _, _ => none
  | n + 1, first, last, length =>
    if first = last then some first
    else do
      let mid := length / 2
      let middle := first + mid
      if test (← range[middle]?) then boundLoop test range n (middle + 1) last (length - (mid + 1))
      else boundLoop test range n first middle mid

def partitionPoint (pred : α → Bool) (range : List α) : Option Nat :=
  boundLoop pred range (range.length + 1) 0 range.length range.length

variable (comp : α → α → Bool) (range : List α) (value : α)

def lowerBound : Option Nat :=
  boundLoop (fun x => comp x value) range (range.length + 1) 0 range.length range.length

def upperBound : Option Nat :=
  boundLoop (fun x => !comp value x) range (range.length + 1) 0 range.length range.length

def equalRange : Option (Nat × Nat) := do return (← lowerBound comp range value, ← upperBound comp range value)

def binarySearchLoop : Nat → Nat → Nat → Nat → Option Bool
  | 0, _, _, _ => none
  | n + 1, first, last, length =>
    if first = last then some false
    else do
      let mid := length / 2
      let middle := first + mid
      let x ← range[middle]?
      if comp x value then binarySearchLoop n (middle + 1) last (length - (mid + 1))
      else if comp value x then binarySearchLoop n first middle mid
      else some true

def binarySearch : Option Bool :=
  binarySearchLoop comp range value (range.length + 1) 0 range.length range.length

/-- No element without the property is before one with it. -/
def PartitionedBy (pred : α → Bool) (l : List α) : Prop := l.Pairwise fun a b => pred b = true → pred a = true

/-- The property is that of the elements before the position. -/
def Divides (pred : α → Bool) (l : List α) (p : Nat) : Prop := ∀ i x, l[i]? = some x → (pred x = true ↔ i < p)

end Definitions

section Bounds

variable {α : Type} {pred : α → Bool} {l : List α} {p first last n : Nat}

theorem PartitionedBy.divides (h : PartitionedBy pred l) : Divides pred l (l.findIdx fun x => !pred x) := by
  intro i x hx
  obtain ⟨hi, rfl⟩ := List.getElem?_eq_some_iff.mp hx
  constructor
  · intro hpred
    by_contra! hle
    have hlt : (l.findIdx fun x => !pred x) < l.length := hle.trans_lt hi
    have hfound := List.findIdx_getElem (w := hlt)
    rw [Bool.not_eq_true'] at hfound
    obtain heq | hlt := hle.eq_or_lt
    · simp only [heq] at hfound
      rw [hpred] at hfound
      cases hfound
    · rw [List.pairwise_iff_getElem.mp h _ _ _ hi hlt hpred] at hfound
      cases hfound
  · intro hlt
    simpa using List.not_of_lt_findIdx hlt

/-- The position stays between `__first` and `__last`. -/
theorem boundLoop_eq (hp : Divides pred l p) (hfirst : first ≤ p) (hlast : p ≤ last) (hlen : last ≤ l.length)
    (hn : last - first < n) : boundLoop pred l n first last (last - first) = some p := by
  induction n generalizing first last with
  | zero => exact absurd hn (Nat.not_lt_zero _)
  | succ n ih =>
    rw [boundLoop]
    by_cases hend : first = last
    · rw [if_pos hend]
      exact congrArg some (by omega)
    have hmid : first + (last - first) / 2 < l.length := by omega
    have hiff := hp _ _ (List.getElem?_eq_getElem hmid)
    rw [if_neg hend]
    dsimp only
    rw [List.getElem?_eq_getElem hmid]
    simp only [Option.bind_eq_bind, Option.bind_some]
    split_ifs with htest
    · have hlt := hiff.mp htest
      have hrest := ih (show first + (last - first) / 2 + 1 ≤ p by omega) hlast hlen (by omega)
      rwa [show last - (first + (last - first) / 2 + 1) = last - first - ((last - first) / 2 + 1) by omega] at hrest
    · have hle : p ≤ first + (last - first) / 2 := by
        by_contra! hlt
        exact htest (hiff.mpr hlt)
      have hrest := ih hfirst hle (by omega) (by omega)
      rwa [Nat.add_sub_cancel_left] at hrest

/-- The first position without the property, or the end. -/
theorem boundLoop_findIdx (h : PartitionedBy pred l) :
    boundLoop pred l (l.length + 1) 0 l.length l.length = some (l.findIdx fun x => !pred x) :=
  boundLoop_eq h.divides (Nat.zero_le _) List.findIdx_le_length (Nat.le_refl _) (Nat.lt_succ_self _)

end Bounds

section Ordered

variable {α : Type} {comp : α → α → Bool} {l : List α} {value : α} {p q first last n : Nat}

theorem Sorted.partitionedBy_less (hcomp : StrictWeak comp) (h : Sorted comp l) (value : α) :
    PartitionedBy (fun x => comp x value) l := by
  apply h.imp
  intro a b hab hb
  exact hcomp.less_of_le_of_less hab hb

theorem Sorted.partitionedBy_not_greater (hcomp : StrictWeak comp) (h : Sorted comp l) (value : α) :
    PartitionedBy (fun x => !comp value x) l := by
  apply h.imp
  intro a b hab hb
  rw [Bool.not_eq_true'] at hb ⊢
  exact hcomp.not_less_trans hab hb

/-- What is equivalent is between the two positions. -/
theorem binarySearchLoop_eq (hp : Divides (fun x => comp x value) l p) (hq : Divides (fun x => !comp value x) l q)
    (hpq : p ≤ q) (hfirst : first ≤ p) (hlast : q ≤ last) (hlen : last ≤ l.length) (hn : last - first < n) :
    binarySearchLoop comp l value n first last (last - first) = some (decide (p < q)) := by
  induction n generalizing first last with
  | zero => exact absurd hn (Nat.not_lt_zero _)
  | succ n ih =>
    rw [binarySearchLoop]
    by_cases hend : first = last
    · rw [if_pos hend, decide_eq_false (by omega)]
    have hmid : first + (last - first) / 2 < l.length := by omega
    obtain ⟨x, hget⟩ : ∃ x, l[first + (last - first) / 2]? = some x := ⟨_, List.getElem?_eq_getElem hmid⟩
    have hless : comp x value = true ↔ _ := hp _ x hget
    have hgreater : (!comp value x) = true ↔ _ := hq _ x hget
    rw [Bool.not_eq_true'] at hgreater
    rw [if_neg hend]
    dsimp only
    rw [hget]
    simp only [Option.bind_eq_bind, Option.bind_some]
    split_ifs with htest htest'
    · have hlt := hless.mp htest
      have hrest := ih (show first + (last - first) / 2 + 1 ≤ p by omega) hlast hlen (by omega)
      rwa [show last - (first + (last - first) / 2 + 1) = last - first - ((last - first) / 2 + 1) by omega] at hrest
    · have hle : q ≤ first + (last - first) / 2 := by
        by_contra! hlt
        rw [hgreater.mpr hlt] at htest'
        cases htest'
      have hrest := ih hfirst hle (by omega) (by omega)
      rwa [Nat.add_sub_cancel_left] at hrest
    · have hle : p ≤ first + (last - first) / 2 := by
        by_contra! hlt
        exact htest (hless.mpr hlt)
      have hlt := hgreater.mp (Bool.not_eq_true _ ▸ htest')
      rw [decide_eq_true (hle.trans_lt hlt)]

theorem Divides.le_of_asymm (hcomp : StrictWeak comp) (hp : Divides (fun x => comp x value) l p)
    (hq : Divides (fun x => !comp value x) l q) (hlen : p ≤ l.length) : p ≤ q := by
  by_contra! hlt
  obtain ⟨x, hget⟩ : ∃ x, l[q]? = some x := ⟨_, List.getElem?_eq_getElem (hlt.trans_le hlen)⟩
  have hless : comp x value = true := (hp q x hget).mpr hlt
  have hgreater : (!comp value x) = true ↔ q < q := hq q x hget
  rw [hcomp.asymm hless] at hgreater
  exact Nat.lt_irrefl q (hgreater.mp rfl)

theorem Divides.lt_iff_exists (hp : Divides (fun x => comp x value) l p)
    (hq : Divides (fun x => !comp value x) l q) (hlen : q ≤ l.length) :
    p < q ↔ ∃ x ∈ l, comp x value = false ∧ comp value x = false := by
  constructor
  · intro hlt
    obtain ⟨x, hget⟩ : ∃ x, l[p]? = some x := ⟨_, List.getElem?_eq_getElem (hlt.trans_le hlen)⟩
    have hgreater : (!comp value x) = true := (hq p x hget).mpr hlt
    refine ⟨x, List.mem_of_getElem? hget, ?_, by simpa using hgreater⟩
    by_contra hless
    exact Nat.lt_irrefl p ((hp p x hget).mp (by simpa using hless))
  · rintro ⟨x, hx, hless, hgreater⟩
    obtain ⟨i, hget⟩ := List.mem_iff_getElem?.mp hx
    have hbefore : comp x value = true ↔ i < p := hp i x hget
    have hbehind : (!comp value x) = true ↔ i < q := hq i x hget
    rw [hless] at hbefore
    rw [hgreater] at hbehind
    exact (not_lt.mp fun hlt => Bool.false_ne_true (hbefore.mpr hlt)).trans_lt (hbehind.mp rfl)

theorem binarySearch_eq (hcomp : StrictWeak comp) (h : Sorted comp l) (value : α) :
    ∃ b, binarySearch comp l value = some b ∧ (b = true ↔ ∃ x ∈ l, comp x value = false ∧ comp value x = false) := by
  have hp := (h.partitionedBy_less hcomp value).divides
  have hq := (h.partitionedBy_not_greater hcomp value).divides
  have hlen : (l.findIdx fun x => !!comp value x) ≤ l.length := List.findIdx_le_length
  refine ⟨_, binarySearchLoop_eq hp hq (hp.le_of_asymm hcomp hq List.findIdx_le_length) (Nat.zero_le _) hlen
    (Nat.le_refl _) (Nat.lt_succ_self _), ?_⟩
  rw [decide_eq_true_iff]
  exact hp.lt_iff_exists hq hlen

end Ordered

/-- `equal_range` is the pair of the two bounds. The first position that an element has not a property from on is the
end when there is none. -/
theorem binary_searches {α : Type} (pred : α → Bool) (comp : α → α → Bool) (l : List α) (value : α) :
    (PartitionedBy pred l → partitionPoint pred l = some (l.findIdx fun x => !pred x)) ∧
    (PartitionedBy (fun x => comp x value) l →
      lowerBound comp l value = some (l.findIdx fun x => !comp x value)) ∧
    (PartitionedBy (fun x => !comp value x) l →
      upperBound comp l value = some (l.findIdx fun x => comp value x)) ∧
    (StrictWeak comp → Sorted comp l →
      lowerBound comp l value = some (l.findIdx fun x => !comp x value) ∧
      upperBound comp l value = some (l.findIdx fun x => comp value x) ∧
      equalRange comp l value = some (l.findIdx fun x => !comp x value, l.findIdx fun x => comp value x) ∧
      ∃ b, binarySearch comp l value = some b ∧
        (b = true ↔ ∃ x ∈ l, comp x value = false ∧ comp value x = false)) := by
  have hlower : PartitionedBy (fun x => comp x value) l →
      lowerBound comp l value = some (l.findIdx fun x => !comp x value) := boundLoop_findIdx
  have hupper : PartitionedBy (fun x => !comp value x) l →
      upperBound comp l value = some (l.findIdx fun x => comp value x) := by
    intro h
    rw [upperBound, boundLoop_findIdx h]
    simp only [Bool.not_not]
  refine ⟨boundLoop_findIdx, hlower, hupper, ?_⟩
  intro hcomp hsorted
  have hfirst := hlower (hsorted.partitionedBy_less hcomp value)
  have hsecond := hupper (hsorted.partitionedBy_not_greater hcomp value)
  refine ⟨hfirst, hsecond, ?_, binarySearch_eq hcomp hsorted value⟩
  rw [equalRange, hfirst, hsecond]
  rfl

theorem binary_searches_twos :
    partitionPoint (fun x => lessNat x 2) [1, 2, 2, 3] = some 1 ∧ lowerBound lessNat [1, 2, 2, 3] 2 = some 1 ∧
      upperBound lessNat [1, 2, 2, 3] 2 = some 3 ∧ equalRange lessNat [1, 2, 2, 3] 2 = some (1, 3) := by
  obtain ⟨hpoint, hlower, hupper, hsorted⟩ := binary_searches (fun x => lessNat x 2) lessNat [1, 2, 2, 3] 2
  have hless : PartitionedBy (fun x => lessNat x 2) [1, 2, 2, 3] := by simp [PartitionedBy, lessNat]
  have hnot : PartitionedBy (fun x => !lessNat 2 x) [1, 2, 2, 3] := by simp [PartitionedBy, lessNat]
  have hordered := hsorted strictWeak_lessNat (by simp [Sorted, lessNat])
  exact ⟨hpoint hless, hlower hless, hupper hnot, hordered.2.2.1⟩

end XviOs.Algorithm
