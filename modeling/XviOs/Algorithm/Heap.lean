import XviOs.Algorithm.Introsort

namespace XviOs.Algorithm

open Library.StateProgram Library.Rearrange

section Pushing

variable {α : Type} (comp : α → α → Bool) (lo hi : Nat)

def heapParent (i : Nat) : Nat := (i - 1) / 2

/-- The way from one parent to the next. The first argument bounds its rounds. -/
def pushHeapLoop (first last : Nat) : Nat → Nat → Sorter α Unit
  | 0, _ => fun _ => none
  | n + 1, parent => do
    let more ← heapify comp lo hi first last parent
    if !more || parent = 0 then pure () else pushHeapLoop first last n (heapParent parent)

def pushHeap (first last : Nat) : Sorter α Unit :=
  let i := last - first - 1
  if i = 0 then pure () else pushHeapLoop comp lo hi first last i (heapParent i)

end Pushing

variable {α : Type} {comp : α → α → Bool} {lo hi first last length : Nat} {f g : Nat → α}

theorem isChild_heapParent {c : Nat} (hc : 0 < c) : IsChild (heapParent c) c := by
  unfold IsChild heapParent heapLeft heapRight
  omega

/-- The heap is in order but for one child, and the parent of that child is not less than what is below it. -/
structure PushReady (comp : α → α → Bool) (first length k : Nat) (f : Nat → α) : Prop where
  others : ∀ i c, IsChild i c → c < length → c ≠ k → comp (f (first + i)) (f (first + c)) = false
  grand : ∀ p d, IsChild p k → IsChild k d → d < length → comp (f (first + p)) (f (first + d)) = false

theorem PushReady.of_heap (h : HeapFrom comp first length 0 f) : PushReady comp first (length + 1) length f := by
  constructor
  · intro i c hchild hc hne
    exact h i c (Nat.zero_le i) hchild (by omega)
  · intro p d _ hchild hd
    have hlt := hchild.lt
    omega

/-- The root is the child of nothing. -/
theorem PushReady.heapFrom (h : PushReady comp first length 0 f) : HeapFrom comp first length 0 f := by
  intro i c _ hchild hc
  exact h.others i c hchild hc (Nat.ne_of_gt ((Nat.zero_le i).trans_lt hchild.lt))

theorem PushReady.heapFrom_of_le {p k : Nat} (h : PushReady comp first length k f) (hk : IsChild p k)
    (hle : comp (f (first + p)) (f (first + k)) = false) : HeapFrom comp first length 0 f := by
  intro i c _ hchild hc
  by_cases hck : c = k
  · subst hck
    rwa [hchild.unique hk]
  · exact h.others i c hchild hc hck

/-- A child that is greater than its parent moves up. -/
theorem PushReady.move {p k : Nat} (hcomp : StrictWeak comp) (h : PushReady comp first length k f) (hk : IsChild p k)
    (hklen : k < length) (hless : comp (f (first + p)) (f (first + k)) = true) :
    PushReady comp first length p (f ∘ Equiv.swap (first + p) (first + k)) := by
  have hlt := hk.lt
  have hother : ∀ i, i ≠ p → i ≠ k → (f ∘ Equiv.swap (first + p) (first + k)) (first + i) = f (first + i) := by
    intro i h1 h2
    rw [Function.comp_apply, Equiv.swap_apply_of_ne_of_ne (by omega) (by omega)]
  have hparent : (f ∘ Equiv.swap (first + p) (first + k)) (first + p) = f (first + k) := by
    rw [Function.comp_apply, Equiv.swap_apply_left]
  have hchild : (f ∘ Equiv.swap (first + p) (first + k)) (first + k) = f (first + p) := by
    rw [Function.comp_apply, Equiv.swap_apply_right]
  constructor
  · intro i c hic hc hcp
    by_cases hck : c = k
    · subst hck
      rw [hic.unique hk, hparent, hchild]
      exact hcomp.asymm hless
    rw [hother c hcp hck]
    by_cases hip : i = p
    · subst hip
      rw [hparent]
      exact hcomp.not_less_trans (h.others i c hic hc hck) (hcomp.asymm hless)
    by_cases hik : i = k
    · subst hik
      rw [hchild]
      exact h.grand p c hk hic hc
    · rw [hother i hip hik]
      exact h.others i c hic hc hck
  · intro q d hq hd hdlen
    have hqp := hq.lt
    have hqle := h.others q p hq (hlt.trans hklen) (Nat.ne_of_lt hlt)
    rw [hother q (Nat.ne_of_lt hqp) (Nat.ne_of_lt (hqp.trans hlt))]
    by_cases hdk : d = k
    · subst hdk
      rwa [hchild]
    · rw [hother d (Nat.ne_of_gt hd.lt) hdk]
      exact hcomp.not_less_trans (h.others p d hd hdlen hdk) hqle

theorem larger_eq {largest child : Nat} (hlo : lo ≤ first) (hhi : first + length ≤ hi) (hlt : largest < child) :
    larger comp lo hi first length largest child f =
      some (if child < length ∧ comp (f (first + largest)) (f (first + child)) = true then child else largest, f) := by
  rw [larger]
  by_cases hchild : child < length
  · have hread (i : Nat) (hi1 : i ≤ child) : read lo hi (first + i) f = some (f (first + i), f) :=
      read_eq (by omega) (by omega)
    rw [if_pos hchild]
    change (read lo hi (first + largest) f).bind (fun r => (read lo hi (first + child) r.2).bind _) = _
    rw [hread largest hlt.le, Option.bind_some, hread child (Nat.le_refl _), Option.bind_some]
    simp only [hchild, true_and]
    rfl
  · rw [if_neg hchild, if_neg (fun h => hchild h.1)]
    rfl

/-- A parent that is not less than its children stays where it is. -/
theorem heapifyLoop_stays {index : Nat} (hlo : lo ≤ first) (hhi : first + (last - first) ≤ hi)
    (hheap : ∀ c, IsChild index c → c < last - first → comp (f (first + index)) (f (first + c)) = false) (n : Nat) :
    Leads (heapifyLoop comp lo hi (n + 1) first last index) f fun more g => more = false ∧ g = f := by
  have hstay : ∀ c, IsChild index c → larger comp lo hi first (last - first) index c f = some (index, f) := by
    intro c hchild
    rw [larger_eq hlo hhi hchild.lt, if_neg]
    rintro ⟨hlt, hless⟩
    rw [hheap c hchild hlt] at hless
    cases hless
  rw [heapifyLoop]
  apply Leads.bind_eq (hstay _ (Or.inl rfl))
  apply Leads.bind_eq (hstay _ (Or.inr rfl))
  rw [if_neg (not_not.mpr rfl)]
  exact Leads.pure ⟨rfl, rfl⟩

/-- The child that is too great is found, whichever of the two it is. -/
theorem PushReady.largest_leads {p k : Nat} (hcomp : StrictWeak comp) (h : PushReady comp first length k f)
    (hk : IsChild p k) (hklen : k < length) (hlo : lo ≤ first) (hhi : first + length ≤ hi)
    (hless : comp (f (first + p)) (f (first + k)) = true) :
    Leads (do
      let largest ← larger comp lo hi first length p (heapLeft p)
      larger comp lo hi first length largest (heapRight p)) f fun largest g => largest = k ∧ g = f := by
  have hne : heapLeft p ≠ heapRight p := by
    unfold heapLeft heapRight
    omega
  obtain rfl | rfl := hk
  · have hleft : larger comp lo hi first length p (heapLeft p) f = some (heapLeft p, f) := by
      rw [larger_eq hlo hhi (IsChild.lt (Or.inl rfl)), if_pos ⟨hklen, hless⟩]
    apply Leads.bind_eq hleft
    apply Leads.of_eq (larger_eq hlo hhi (by unfold heapLeft heapRight; omega))
    refine ⟨if_neg ?_, rfl⟩
    rintro ⟨hlt, hright⟩
    have hle := hcomp.not_less_trans (h.others p _ (Or.inr rfl) hlt hne.symm) (hcomp.asymm hless)
    rw [hle] at hright
    cases hright
  · have hlt : heapLeft p < length := lt_trans (Nat.lt_succ_self _) hklen
    have hleft : larger comp lo hi first length p (heapLeft p) f = some (p, f) := by
      rw [larger_eq hlo hhi (IsChild.lt (Or.inl rfl)), if_neg (by simp [h.others p _ (Or.inl rfl) hlt hne])]
    apply Leads.bind_eq hleft
    exact Leads.of_eq (larger_eq hlo hhi (IsChild.lt (Or.inr rfl))) ⟨if_pos ⟨hklen, hless⟩, rfl⟩

/-- The child moves up to its parent, and the parent's element goes no further down. -/
theorem PushReady.heapify_leads {p k : Nat} (hcomp : StrictWeak comp) (h : PushReady comp first (last - first) k f)
    (hk : IsChild p k) (hklen : k < last - first) (hlo : lo ≤ first) (hhi : last ≤ hi)
    (hless : comp (f (first + p)) (f (first + k)) = true) :
    Leads (heapify comp lo hi first last p) f fun more g =>
      more = true ∧ g = f ∘ Equiv.swap (first + p) (first + k) := by
  have hlt := hk.lt
  have hbound : first + (last - first) ≤ hi := by omega
  rw [heapify, heapifyLoop, ← bind_assoc]
  apply (h.largest_leads hcomp hk hklen hlo hbound hless).bind
  rintro _ _ ⟨rfl, rfl⟩
  rw [if_pos (Nat.ne_of_gt hlt)]
  apply Leads.bind_eq (iterSwap_eq (by omega) (by omega) (by omega) (by omega))
  obtain ⟨n, hn⟩ := Nat.exists_eq_succ_of_ne_zero (by omega : last - first ≠ 0)
  rw [hn]
  have hmoved := h.move hcomp hk hklen hless
  have hstay := heapifyLoop_stays hlo hbound
    (fun c hchild hc => hmoved.others _ c hchild hc (Nat.ne_of_gt (hlt.trans hchild.lt))) n
  apply hstay.bind
  rintro _ _ ⟨-, rfl⟩
  exact Leads.pure ⟨rfl, rfl⟩

theorem pushHeapLoop_leads (hcomp : StrictWeak comp) {n k : Nat} (hlo : lo ≤ first) (hhi : last ≤ hi) (hn : k ≤ n)
    (hpos : 0 < k) (hklen : k < last - first) (h : PushReady comp first (last - first) k f) :
    Leads (pushHeapLoop comp lo hi first last n (heapParent k)) f fun _ g =>
      HeapFrom comp first (last - first) 0 g ∧ Rearranges (Set.Ico first last) f g := by
  induction n generalizing k f with
  | zero => omega
  | succ n ih =>
    have hk := isChild_heapParent hpos
    have hlt := hk.lt
    rw [pushHeapLoop]
    cases hless : comp (f (first + heapParent k)) (f (first + k)) with
    | false =>
      have hheap := h.heapFrom_of_le hk hless
      have hstay := heapifyLoop_stays hlo (by omega : first + (last - first) ≤ hi)
        (hheap (heapParent k) · (Nat.zero_le _)) (last - first)
      apply Leads.bind hstay
      rintro _ _ ⟨rfl, rfl⟩
      exact Leads.pure ⟨hheap, Rearranges.refl _ _⟩
    | true =>
      apply (h.heapify_leads hcomp hk hklen hlo hhi hless).bind
      rintro _ _ ⟨rfl, rfl⟩
      have hmoved := h.move hcomp hk hklen hless
      have hswap : Rearranges (Set.Ico first last) f
          (f ∘ Equiv.swap (first + heapParent k) (first + k)) :=
        Rearranges.swap (Set.mem_Ico.mpr ⟨by omega, by omega⟩) (Set.mem_Ico.mpr ⟨by omega, by omega⟩) f
      by_cases hroot : heapParent k = 0
      · rw [hroot] at hmoved hswap ⊢
        exact Leads.pure ⟨hmoved.heapFrom, hswap⟩
      · rw [if_neg (by simpa using hroot)]
        apply (ih (by omega) (Nat.pos_of_ne_zero hroot) (hlt.trans hklen) hmoved).mono
        rintro _ g ⟨hheap, hrearr⟩
        exact ⟨hheap, hswap.trans hrearr⟩

/-- The elements of the range are a heap. -/
def Heap (comp : α → α → Bool) (first last : Nat) (f : Nat → α) : Prop := HeapFrom comp first (last - first) 0 f

theorem pushHeap_leads (hcomp : StrictWeak comp) (hlo : lo ≤ first) (hhi : last ≤ hi) (hlt : first < last)
    (h : Heap comp first (last - 1) f) :
    Leads (pushHeap comp lo hi first last) f fun _ g =>
      Heap comp first last g ∧ Rearranges (Set.Ico first last) f g := by
  have hready : PushReady comp first (last - first) (last - first - 1) f := by
    have hheap : HeapFrom comp first (last - first - 1) 0 f := by rwa [Nat.sub_right_comm]
    have hready := PushReady.of_heap hheap
    rwa [Nat.sub_add_cancel (by omega)] at hready
  simp only [pushHeap]
  split
  · next hone =>
    rw [hone] at hready
    exact Leads.pure ⟨hready.heapFrom, Rearranges.refl _ f⟩
  · next hmore =>
    exact pushHeapLoop_leads hcomp hlo hhi (Nat.le_refl _) (Nat.pos_of_ne_zero hmore) (by omega) hready

/-- `make_heap`, `push_heap` and `pop_heap` keep to the range. -/
theorem heap_algorithms (hcomp : StrictWeak comp) (hle : first ≤ last) (f : Nat → α) :
    Leads (makeHeap comp first last first last) f
        (fun _ g => Heap comp first last g ∧ Rearranges (Set.Ico first last) f g) ∧
      (first < last → Heap comp first (last - 1) f → Leads (pushHeap comp first last first last) f fun _ g =>
        Heap comp first last g ∧ Rearranges (Set.Ico first last) f g) ∧
      (first < last → Heap comp first last f → Leads (popHeap comp first last first last) f fun _ g =>
        Heap comp first (last - 1) g ∧ Rearranges (Set.Ico first last) f g ∧
          ∀ i, first ≤ i → i < last → comp (g (last - 1)) (g i) = false) := by
  refine ⟨makeHeap_leads hcomp (Nat.le_refl _) (Nat.le_refl _) hle, ?_, ?_⟩
  · exact fun hlt => pushHeap_leads hcomp (Nat.le_refl _) (Nat.le_refl _) hlt
  · intro hlt hheap
    apply (popHeap_leads hcomp (Nat.le_refl _) (Nat.le_refl _) hlt hheap).mono
    rintro _ g ⟨hrest, htop, hrearr⟩
    refine ⟨hrest, hrearr, fun i hi1 hi2 => ?_⟩
    rw [htop]
    refine hrearr.forall_mem (P := fun x => comp (f first) x = false) ?_ i (Set.mem_Ico.mpr ⟨hi1, hi2⟩)
    rintro j ⟨hj, hjl⟩
    obtain ⟨k, rfl⟩ := Nat.exists_eq_add_of_le hj
    exact hheap.root hcomp k (by omega)

theorem heap_falling (last : Nat) : Heap lessNat 0 last fun i => 3 - i := by
  intro i c _ hchild _
  have hlt := hchild.lt
  have hle : 3 - (0 + c) ≤ 3 - (0 + i) := Nat.sub_le_sub_left (Nat.add_le_add_left hlt.le 0) 3
  exact decide_eq_false (Nat.not_lt.mpr hle)

/-- The three numbers that fall are a heap, from which the first is taken. -/
theorem heap_algorithms_falling :
    Leads (pushHeap lessNat 0 3 0 3) (fun i => 3 - i) (fun _ g => Heap lessNat 0 3 g) ∧
      Leads (popHeap lessNat 0 3 0 3) (fun i => 3 - i) fun _ g => Heap lessNat 0 2 g ∧ lessNat (g 2) (g 0) = false := by
  obtain ⟨-, hpush, hpop⟩ := heap_algorithms strictWeak_lessNat (Nat.zero_le 3) fun i => 3 - i
  constructor
  · apply (hpush (by decide) (heap_falling 2)).mono
    exact fun _ g h => h.1
  · apply (hpop (by decide) (heap_falling 3)).mono
    rintro _ g ⟨hheap, -, htop⟩
    exact ⟨hheap, htop 0 (Nat.zero_le 0) (by decide)⟩

end XviOs.Algorithm
