import XviOs.Algorithm.Partition

namespace XviOs.Algorithm

open Library.StateProgram Library.Rearrange

variable {α : Type} {comp : α → α → Bool} {lo hi first last : Nat} {f g h : Nat → α}

def IsChild (i c : Nat) : Prop := c = heapLeft i ∨ c = heapRight i

theorem IsChild.lt {i c : Nat} (h : IsChild i c) : i < c := by
  unfold IsChild heapLeft heapRight at h
  omega

theorem IsChild.unique {i j c : Nat} (h : IsChild i c) (h' : IsChild j c) : i = j := by
  unfold IsChild heapLeft heapRight at *
  omega

theorem exists_isChild {c : Nat} (h : 0 < c) : ∃ i, IsChild i c := by
  refine ⟨(c - 1) / 2, ?_⟩
  unfold IsChild heapLeft heapRight
  omega

/-- From index `m` on, no element is less than a child of it. -/
def HeapFrom (comp : α → α → Bool) (first length m : Nat) (f : Nat → α) : Prop :=
  ∀ i c, m ≤ i → IsChild i c → c < length → comp (f (first + i)) (f (first + c)) = false

/-- The heap is in order but for one index, whose parent is not less than its children. -/
structure SiftReady (comp : α → α → Bool) (first length m index : Nat) (f : Nat → α) : Prop where
  le : m ≤ index
  others : ∀ i c, m ≤ i → i ≠ index → IsChild i c → c < length → comp (f (first + i)) (f (first + c)) = false
  grand : ∀ q c, m ≤ q → IsChild q index → IsChild index c → c < length → comp (f (first + q)) (f (first + c)) = false

/-- What the tests of the children find. -/
structure Largest (comp : α → α → Bool) (first length index k : Nat) (f : Nat → α) : Prop where
  place : k = index ∨ (IsChild index k ∧ k < length)
  index_le : comp (f (first + k)) (f (first + index)) = false
  child_le : ∀ c, IsChild index c → c < length → comp (f (first + k)) (f (first + c)) = false

theorem larger_leads (hcomp : StrictWeak comp) {length largest child : Nat} (hlo : lo ≤ first)
    (hhi : first + length ≤ hi) (hlargest : largest < length ∨ length ≤ child) :
    Leads (larger comp lo hi first length largest child) f fun k g => g = f ∧
      (k = largest ∨ (k = child ∧ child < length)) ∧ comp (f (first + k)) (f (first + largest)) = false ∧
        (child < length → comp (f (first + k)) (f (first + child)) = false) := by
  rw [larger]
  by_cases hchild : child < length
  · rw [if_pos hchild]
    apply Leads.bind_eq (read_eq (by omega) (by omega))
    apply Leads.bind_eq (read_eq (by omega) (by omega))
    by_cases hless : comp (f (first + largest)) (f (first + child)) = true
    · rw [if_pos hless]
      exact Leads.pure ⟨rfl, Or.inr ⟨rfl, hchild⟩, hcomp.asymm hless, fun _ => hcomp.irrefl _⟩
    · rw [if_neg hless]
      exact Leads.pure ⟨rfl, Or.inl rfl, hcomp.irrefl _, fun _ => by simpa using hless⟩
  · rw [if_neg hchild]
    exact Leads.pure ⟨rfl, Or.inl rfl, hcomp.irrefl _, fun h => absurd h hchild⟩

theorem SiftReady.heapFrom {length m index : Nat} (h : SiftReady comp first length m index f)
    (hlargest : Largest comp first length index index f) : HeapFrom comp first length m f := by
  intro i c hi1 hchild hc
  by_cases heq : i = index
  · subst heq
    exact hlargest.child_le c hchild hc
  · exact h.others i c hi1 heq hchild hc

/-- The index out of order moves down to the larger child. -/
theorem SiftReady.move {length m index k : Nat} (h : SiftReady comp first length m index f)
    (hlargest : Largest comp first length index k f) (hk : IsChild index k) (hklen : k < length) :
    SiftReady comp first length m k (f ∘ Equiv.swap (first + index) (first + k)) := by
  have hlt := hk.lt
  have hother : ∀ i, i ≠ index → i ≠ k →
      (f ∘ Equiv.swap (first + index) (first + k)) (first + i) = f (first + i) := by
    intro i h1 h2
    rw [Function.comp_apply, Equiv.swap_apply_of_ne_of_ne (by omega) (by omega)]
  have hindex : (f ∘ Equiv.swap (first + index) (first + k)) (first + index) = f (first + k) := by
    rw [Function.comp_apply, Equiv.swap_apply_left]
  have hkk : (f ∘ Equiv.swap (first + index) (first + k)) (first + k) = f (first + index) := by
    rw [Function.comp_apply, Equiv.swap_apply_right]
  refine ⟨h.le.trans hlt.le, ?_, ?_⟩
  · intro i c hi1 hik hchild hc
    by_cases heq : i = index
    · subst heq
      rw [hindex]
      by_cases hck : c = k
      · rw [hck, hkk]
        exact hlargest.index_le
      · rw [hother c (Nat.ne_of_gt hchild.lt) hck]
        exact hlargest.child_le c hchild hc
    · rw [hother i heq hik]
      have hck : c ≠ k := fun hck => heq ((hck ▸ hchild).unique hk)
      by_cases hcindex : c = index
      · rw [hcindex, hindex]
        exact h.grand i k hi1 (hcindex ▸ hchild) hk hklen
      · rw [hother c hcindex hck]
        exact h.others i c hi1 heq hchild hc
  · intro q c _ hq hchild hc
    rw [hq.unique hk, hindex, hother c (Nat.ne_of_gt (hlt.trans hchild.lt)) (Nat.ne_of_gt hchild.lt)]
    exact h.others k c (h.le.trans hlt.le) (Nat.ne_of_gt hlt) hchild hc

/-- Both tests together. -/
theorem largest_leads (hcomp : StrictWeak comp) {length index : Nat} (hlo : lo ≤ first) (hhi : first + length ≤ hi) :
    Leads (do
      let largest ← larger comp lo hi first length index (heapLeft index)
      larger comp lo hi first length largest (heapRight index)) f fun k g =>
        g = f ∧ Largest comp first length index k f := by
  have hleft : index < length ∨ length ≤ heapLeft index := by
    unfold heapLeft
    omega
  apply (larger_leads hcomp hlo hhi hleft).bind
  rintro k _ ⟨rfl, hk, hkindex, hkleft⟩
  have hright : k < length ∨ length ≤ heapRight index := by
    unfold heapLeft heapRight at *
    omega
  apply (larger_leads hcomp hlo hhi hright).mono
  rintro l _ ⟨rfl, hl, hlk, hlright⟩
  refine ⟨rfl, ?_, hcomp.not_less_trans hkindex hlk, ?_⟩
  · obtain rfl | ⟨rfl, hlen⟩ := hl
    · obtain rfl | ⟨rfl, hlen⟩ := hk
      · exact Or.inl rfl
      · exact Or.inr ⟨Or.inl rfl, hlen⟩
    · exact Or.inr ⟨Or.inr rfl, hlen⟩
  · rintro c (rfl | rfl) hc
    · exact hcomp.not_less_trans (hkleft hc) hlk
    · exact hlright hc

theorem heapifyLoop_leads (hcomp : StrictWeak comp) {m index n : Nat} (hlo : lo ≤ first) (hhi : last ≤ hi)
    (hle : first ≤ last) (hn : last - first - index < n) (h : SiftReady comp first (last - first) m index f) :
    Leads (heapifyLoop comp lo hi n first last index) f fun _ g =>
      HeapFrom comp first (last - first) m g ∧ Rearranges (Set.Ico first last) f g := by
  induction n generalizing index f with
  | zero => exact absurd hn (Nat.not_lt_zero _)
  | succ n ih =>
    rw [heapifyLoop, ← bind_assoc]
    apply (largest_leads hcomp hlo (by omega)).bind
    rintro k _ ⟨rfl, hlargest⟩
    by_cases hk : k = index
    · subst hk
      rw [if_neg (not_not.mpr rfl)]
      exact Leads.pure ⟨h.heapFrom hlargest, Rearranges.refl _ _⟩
    · obtain ⟨hchild, hlen⟩ := hlargest.place.resolve_left hk
      have hlt := hchild.lt
      rw [if_pos hk]
      apply (iterSwap_leads first last hlo hhi (by omega) (by omega) (by omega) (by omega)).bind
      rintro _ _ ⟨rfl, hswap⟩
      apply (ih (by omega) (h.move hlargest hchild hlen)).bind
      rintro _ g ⟨hheap, hrearr⟩
      exact Leads.pure ⟨hheap, hswap.trans hrearr⟩

theorem heapify_leads (hcomp : StrictWeak comp) {m index : Nat} (hlo : lo ≤ first) (hhi : last ≤ hi)
    (hle : first ≤ last) (h : SiftReady comp first (last - first) m index f) :
    Leads (heapify comp lo hi first last index) f fun _ g =>
      HeapFrom comp first (last - first) m g ∧ Rearranges (Set.Ico first last) f g :=
  heapifyLoop_leads hcomp hlo hhi hle (by omega) h

theorem makeHeap_leads (hcomp : StrictWeak comp) (hlo : lo ≤ first) (hhi : last ≤ hi) (hle : first ≤ last) :
    Leads (makeHeap comp lo hi first last) f fun _ g =>
      HeapFrom comp first (last - first) 0 g ∧ Rearranges (Set.Ico first last) f g := by
  have hinit : HeapFrom comp first (last - first) (last - first - 0) f := by
    intro i c hi1 hchild hc
    have hlt := hchild.lt
    omega
  refine (Leads.repeatFrom
    (fun i g => HeapFrom comp first (last - first) (last - first - i) g ∧ Rearranges (Set.Ico first last) f g)
    ⟨hinit, Rearranges.refl _ f⟩ ?_).mono ?_
  · rintro i g - hi ⟨hheap, hrearr⟩
    have hready : SiftReady comp first (last - first) (last - first - (i + 1)) (last - first - i - 1) g := by
      refine ⟨by omega, ?_, ?_⟩
      · intro j c hj hne hchild hc
        exact hheap j c (by omega) hchild hc
      · intro q c hq hchild
        have hlt := hchild.lt
        omega
    apply (heapify_leads hcomp hlo hhi hle hready).bind
    rintro _ h ⟨hheap', hrearr'⟩
    exact Leads.pure ⟨hheap', hrearr.trans hrearr'⟩
  · rintro _ g ⟨hheap, hrearr⟩
    rw [Nat.zero_add, Nat.sub_self] at hheap
    exact ⟨hheap, hrearr⟩

/-- Nothing is greater than the root of a heap. -/
theorem HeapFrom.root (hcomp : StrictWeak comp) {length : Nat} (h : HeapFrom comp first length 0 f) :
    ∀ i, i < length → comp (f first) (f (first + i)) = false := by
  intro i
  induction i using Nat.strong_induction_on with
  | _ i ih =>
    intro hi
    obtain rfl | hpos := Nat.eq_zero_or_pos i
    · exact hcomp.irrefl _
    · obtain ⟨p, hp⟩ := exists_isChild hpos
      exact hcomp.not_less_trans (h p i (Nat.zero_le p) hp hi) (ih p hp.lt (hp.lt.trans hi))

theorem popHeap_leads (hcomp : StrictWeak comp) (hlo : lo ≤ first) (hhi : last ≤ hi) (hlt : first < last)
    (h : HeapFrom comp first (last - first) 0 f) :
    Leads (popHeap comp lo hi first last) f fun _ g =>
      HeapFrom comp first (last - 1 - first) 0 g ∧ g (last - 1) = f first ∧
        Rearranges (Set.Ico first last) f g := by
  apply (iterSwap_leads first last hlo hhi (Nat.le_refl _) hlt (by omega) (by omega)).bind
  rintro _ _ ⟨rfl, hswap⟩
  have hother : ∀ i, 0 < i → i < last - 1 - first →
      (f ∘ Equiv.swap first (last - 1)) (first + i) = f (first + i) := by
    intro i h1 h2
    rw [Function.comp_apply, Equiv.swap_apply_of_ne_of_ne (by omega) (by omega)]
  have hready : SiftReady comp first (last - 1 - first) 0 0 (f ∘ Equiv.swap first (last - 1)) := by
    refine ⟨Nat.le_refl 0, ?_, ?_⟩
    · intro i c _ hne hchild hc
      have hic := hchild.lt
      rw [hother i (by omega) (by omega), hother c (by omega) hc]
      exact h i c (Nat.zero_le i) hchild (by omega)
    · intro q c _ hq
      exact absurd hq.lt (Nat.not_lt_zero q)
  have hsub : Set.Ico first (last - 1) ⊆ Set.Ico first last := Set.Ico_subset_Ico_right (by omega)
  apply (heapify_leads hcomp hlo (by omega) (by omega) hready).bind
  rintro _ g ⟨hheap, hrearr⟩
  refine Leads.pure ⟨hheap, ?_, hswap.trans (hrearr.mono hsub)⟩
  rw [hrearr.eq_of_notMem (by simp), Function.comp_apply, Equiv.swap_apply_right]

/-- The loop of `sort_heap` has a heap in front of the elements that are sorted, none of which is less. -/
structure HeapSorted (comp : α → α → Bool) (first middle last : Nat) (g : Nat → α) : Prop where
  heap : HeapFrom comp first (middle - first) 0 g
  sorted : NonDecreasing comp middle last g
  above : ∀ a b, first ≤ a → a < middle → middle ≤ b → b < last → comp (g b) (g a) = false

theorem HeapSorted.pop (hcomp : StrictWeak comp) {middle : Nat} (hs : HeapSorted comp first middle last f)
    (hlt : first < middle) (hheap : HeapFrom comp first (middle - 1 - first) 0 g) (hroot : g (middle - 1) = f first)
    (hrearr : Rearranges (Set.Ico first middle) f g) : HeapSorted comp first (middle - 1) last g := by
  have hbehind : ∀ b, middle ≤ b → g b = f b := fun b hb => hrearr.eq_of_notMem (by simp [hb])
  have hroots : ∀ a ∈ Set.Ico first middle, comp (f first) (g a) = false := by
    refine hrearr.forall_mem (P := fun x => comp (f first) x = false) ?_
    rintro a ⟨ha, ham⟩
    obtain ⟨i, rfl⟩ := Nat.exists_eq_add_of_le ha
    exact hs.heap.root hcomp i (by omega)
  have hle : ∀ b, middle ≤ b → b < last → ∀ a ∈ Set.Ico first middle, comp (g b) (g a) = false := by
    intro b hb hbl
    rw [hbehind b hb]
    refine hrearr.forall_mem (P := fun x => comp (f b) x = false) ?_
    rintro a ⟨ha, ham⟩
    exact hs.above a b ha ham hb hbl
  refine ⟨hheap, ?_, ?_⟩
  · intro i j hi1 hij hj
    by_cases him : i = middle - 1
    · subst him
      exact hle j (by omega) hj _ (Set.mem_Ico.mpr ⟨by omega, by omega⟩)
    · rw [hbehind i (by omega), hbehind j (by omega)]
      exact hs.sorted i j (by omega) hij hj
  · intro a b ha ham hb hbl
    by_cases hbm : b = middle - 1
    · rw [hbm, hroot]
      exact hroots a (Set.mem_Ico.mpr ⟨ha, by omega⟩)
    · exact hle b (by omega) hbl a (Set.mem_Ico.mpr ⟨ha, by omega⟩)

/-- The loop of `sort_heap` sorts the range. -/
theorem sortHeapLoop_leads (hcomp : StrictWeak comp) (hlo : lo ≤ first) (hhi : last ≤ hi) (hle : first ≤ last)
    (h : HeapFrom comp first (last - first) 0 f) :
    Leads (repeatFrom (fun i => popHeap comp lo hi first (last - i)) 0 (last - first)) f fun _ g =>
      NonDecreasing comp first last g ∧ Rearranges (Set.Ico first last) f g := by
  have hinit : HeapSorted comp first (last - 0) last f :=
    ⟨h, fun i j hi1 hij hj => by omega, fun a b _ _ hb hbl => by omega⟩
  refine (Leads.repeatFrom
    (fun i g => HeapSorted comp first (last - i) last g ∧ Rearranges (Set.Ico first last) f g)
    ⟨hinit, Rearranges.refl _ f⟩ ?_).mono ?_
  · rintro i g - hi ⟨hs, hrearr⟩
    apply (popHeap_leads hcomp hlo (by omega) (by omega) hs.heap).mono
    rintro _ g' ⟨hheap, hroot, hrearr'⟩
    exact ⟨hs.pop hcomp (by omega) hheap hroot hrearr',
      hrearr.trans (hrearr'.mono (Set.Ico_subset_Ico_right (Nat.sub_le _ _)))⟩
  · rintro _ g ⟨hs, hrearr⟩
    rw [Nat.zero_add, Nat.sub_sub_self hle] at hs
    exact ⟨hs.sorted, hrearr⟩

/-- The mirror of a place in the range whose last place is `last`. -/
def mirror (first last i : Nat) : Nat := if first ≤ i ∧ i ≤ last then first + last - i else i

theorem mirror_involutive (first last : Nat) : Function.Involutive (mirror first last) := by
  intro i
  unfold mirror
  split_ifs <;> omega

theorem rearranges_mirror (hlt : first < last) (f : Nat → α) :
    Rearranges (Set.Ico first last) f (f ∘ mirror first (last - 1)) := by
  refine ⟨(mirror_involutive first (last - 1)).toPerm, fun i hi => if_neg ?_, rfl⟩
  rw [Set.mem_Ico] at hi
  omega

theorem reverseLoop_leads {n : Nat} (hlo : lo ≤ first) (hhi : last < hi) (hle : first ≤ last) (hn : last - first < n) :
    Leads (reverseLoop lo hi n first last) f fun _ g => g = f ∘ mirror first last := by
  induction n generalizing first last f with
  | zero => exact absurd hn (Nat.not_lt_zero _)
  | succ n ih =>
    rw [reverseLoop]
    by_cases hend : first = last
    · rw [if_pos hend]
      apply Leads.pure
      funext i
      rw [Function.comp_apply, mirror]
      congr 1
      split_ifs <;> omega
    rw [if_neg hend]
    apply Leads.bind_eq (iterSwap_eq hlo (by omega) (by omega) hhi)
    by_cases hmeet : first + 1 = last
    · rw [if_pos hmeet]
      apply Leads.pure
      funext i
      rw [Function.comp_apply, Function.comp_apply, mirror, Equiv.swap_apply_def]
      congr 1
      split_ifs <;> omega
    · rw [if_neg hmeet]
      apply (ih (by omega) (by omega) (by omega) (by omega)).mono
      rintro _ _ rfl
      funext i
      rw [Function.comp_apply, Function.comp_apply, Function.comp_apply, mirror, mirror, Equiv.swap_apply_def]
      congr 1
      split_ifs <;> omega

theorem reverse_leads (hlo : lo ≤ first) (hhi : last ≤ hi) (hlt : first < last) :
    Leads (reverse lo hi first last) f fun _ g => g = f ∘ mirror first (last - 1) := by
  rw [reverse, if_neg (Nat.ne_zero_of_lt hlt)]
  exact reverseLoop_leads hlo (by omega) (by omega) (by omega)

/-- When the two places have passed each other they go on until one of them is outside. -/
theorem reverseLoop_passed (n : Nat) (h : last < first) : reverseLoop lo hi n first last f = none := by
  induction n generalizing first last f with
  | zero => rfl
  | succ n ih =>
    rw [reverseLoop, if_neg h.ne', if_neg (by omega)]
    change (iterSwap lo hi first last f).bind (fun r => reverseLoop lo hi n (first + 1) (last - 1) r.2) = none
    rw [Option.bind_eq_none_iff]
    exact fun r _ => ih (by omega)

theorem reverse_empty : reverse lo hi first first f = none := by
  rw [reverse]
  split_ifs with hzero
  · rfl
  · exact reverseLoop_passed _ (by omega)

/-- `sort_heap` leaves the range when it turns round what is left of it. -/
theorem sortHeap_fails (hle : first ≤ last) : sortHeap comp lo hi first last f = none := by
  rw [sortHeap, Nat.sub_sub_self hle]
  change (repeatFrom _ 0 (last - first) f).bind (fun r => reverse lo hi first first r.2) = none
  rw [Option.bind_eq_none_iff]
  exact fun r _ => reverse_empty

/-- The fallback of the quicksort. -/
theorem heapSort_fails (hle : first ≤ last) :
    (do
      makeHeap comp lo hi first last
      sortHeap comp lo hi first last : Sorter α Unit) f = none := by
  change (makeHeap comp lo hi first last f).bind (fun r => sortHeap comp lo hi first last r.2) = none
  rw [Option.bind_eq_none_iff]
  exact fun r _ => sortHeap_fails hle

end XviOs.Algorithm
