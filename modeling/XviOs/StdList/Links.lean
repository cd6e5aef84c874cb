import XviOs.Library.Sequences
import XviOs.StdList.Model

namespace XviOs.StdList

open Library.Links Library.Sequences

variable {ι α : Type} {m m' : Memory ι α} {chain : ι → List ℕ} {k l : ι} {A B M : List ℕ} {e p v : ℕ} {x : α}
  {s : ι ⊕ ℕ}

namespace Memory

/-- Where the start of a list, or an element, leads on to. -/
def nextLink (m : Memory ι α) : ι ⊕ ℕ → ℕ := Sum.elim m.list m.next

/-- Where the end of a list, or an element, leads back to. -/
def prevLink (m : Memory ι α) : ι ⊕ ℕ → ℕ := Sum.elim m.last m.prev

def freed (p : ℕ) (m : Memory ι α) : Memory ι α := { m with live := m.live.erase p }

def written (p : ℕ) (x : α) (m : Memory ι α) : Memory ι α := { m with data := Function.update m.data p x }

/-- With one more element. -/
def allocated (A : Allocator) (x : α) (m : Memory ι α) : Memory ι α :=
  let p := A.allocate m.live
  { m with
    next := Function.update m.next p 0
    prev := Function.update m.prev p 0
    data := Function.update m.data p x
    live := insert p m.live }

variable [DecidableEq ι]

def setNext (m : Memory ι α) : ι ⊕ ℕ → ℕ → Memory ι α
  | .inl l, v => { m with list := Function.update m.list l v }
  | .inr p, v => { m with next := Function.update m.next p v }

def setPrev (m : Memory ι α) : ι ⊕ ℕ → ℕ → Memory ι α
  | .inl l, v => { m with last := Function.update m.last l v }
  | .inr p, v => { m with prev := Function.update m.prev p v }

def counted (l : ι) (n : ℕ) (m : Memory ι α) : Memory ι α := { m with count := Function.update m.count l n }

@[simp]
theorem nextLink_setNext : (m.setNext s v).nextLink = Function.update m.nextLink s v := by
  cases s with
  | inl l => exact Sum.update_elim_inl.symm
  | inr p => exact Sum.update_elim_inr.symm

@[simp]
theorem prevLink_setPrev : (m.setPrev s v).prevLink = Function.update m.prevLink s v := by
  cases s with
  | inl l => exact Sum.update_elim_inl.symm
  | inr p => exact Sum.update_elim_inr.symm

@[simp]
theorem prevLink_setNext : (m.setNext s v).prevLink = m.prevLink := by cases s <;> rfl

@[simp]
theorem nextLink_setPrev : (m.setPrev s v).nextLink = m.nextLink := by cases s <;> rfl

@[simp]
theorem live_setNext : (m.setNext s v).live = m.live := by cases s <;> rfl

@[simp]
theorem live_setPrev : (m.setPrev s v).live = m.live := by cases s <;> rfl

@[simp]
theorem data_setNext : (m.setNext s v).data = m.data := by cases s <;> rfl

@[simp]
theorem data_setPrev : (m.setPrev s v).data = m.data := by cases s <;> rfl

@[simp]
theorem count_setNext : (m.setNext s v).count = m.count := by cases s <;> rfl

@[simp]
theorem count_setPrev : (m.setPrev s v).count = m.count := by cases s <;> rfl

@[simp]
theorem nextLink_counted : (m.counted l v).nextLink = m.nextLink := rfl

@[simp]
theorem prevLink_counted : (m.counted l v).prevLink = m.prevLink := rfl

@[simp]
theorem live_counted : (m.counted l v).live = m.live := rfl

@[simp]
theorem data_counted : (m.counted l v).data = m.data := rfl

@[simp]
theorem count_counted : (m.counted l v).count = Function.update m.count l v := rfl

variable {a : Allocator}

@[simp]
theorem nextLink_allocated :
    (m.allocated a x).nextLink = Function.update m.nextLink (.inr (a.allocate m.live)) 0 := Sum.update_elim_inr.symm

@[simp]
theorem prevLink_allocated :
    (m.allocated a x).prevLink = Function.update m.prevLink (.inr (a.allocate m.live)) 0 := Sum.update_elim_inr.symm

omit [DecidableEq ι]

@[simp]
theorem live_allocated : (m.allocated a x).live = insert (a.allocate m.live) m.live := rfl

@[simp]
theorem data_allocated : (m.allocated a x).data = Function.update m.data (a.allocate m.live) x := rfl

@[simp]
theorem count_allocated : (m.allocated a x).count = m.count := rfl

@[simp]
theorem nextLink_freed : (m.freed e).nextLink = m.nextLink := rfl

@[simp]
theorem prevLink_freed : (m.freed e).prevLink = m.prevLink := rfl

@[simp]
theorem live_freed : (m.freed e).live = m.live.erase e := rfl

@[simp]
theorem data_freed : (m.freed e).data = m.data := rfl

@[simp]
theorem count_freed : (m.freed e).count = m.count := rfl

end Memory

/-- The elements of the lists are those that are allocated, and each is in one list. A list leads through its elements,
and back, and has their number. -/
structure Holds (m : Memory ι α) (chain : ι → List ℕ) : Prop where
  apart : Apart 0 chain
  forward : Threads 0 m.nextLink chain
  backward : Threads 0 m.prevLink fun i => (chain i).reverse
  count : ∀ i, m.count i = (chain i).length
  live : ∀ p, p ∈ m.live ↔ ∃ i, p ∈ chain i

/-- What the elements of the lists contain. -/
def contents (m : Memory ι α) (chain : ι → List ℕ) (l : ι) : List α := (chain l).map m.data

theorem contents_congr (h : ∀ i, ∀ x ∈ chain i, m'.data x = m.data x) : contents m' chain = contents m chain := by
  funext i
  exact List.map_congr_left (h i)

namespace Holds

theorem mem_live (h : Holds m chain) (he : e ∈ chain k) : e ∈ m.live := (h.live e).mpr ⟨k, he⟩

theorem of_eq (h : Holds m chain) (hnext : m'.nextLink = m.nextLink) (hprev : m'.prevLink = m.prevLink)
    (hcount : m'.count = m.count) (hlive : m'.live = m.live) : Holds m' chain :=
  ⟨h.apart, hnext ▸ h.forward, hprev ▸ h.backward, hcount ▸ h.count, hlive ▸ h.live⟩

/-- What a place is linked to is an element in use, or none. -/
theorem headD_live (h : Holds m chain) (hk : chain k = A ++ B) : B.headD 0 = 0 ∨ B.headD 0 ∈ m.live := by
  cases B with
  | nil => exact Or.inl rfl
  | cons b B => exact Or.inr (h.mem_live (k := k) (by simp [hk]))

theorem reverse_headD_live (h : Holds m chain) (hk : chain k = A ++ B) :
    A.reverse.headD 0 = 0 ∨ A.reverse.headD 0 ∈ m.live := by
  obtain rfl | ⟨A, a, rfl⟩ := List.eq_nil_or_concat A
  · exact Or.inl rfl
  · refine Or.inr (h.mem_live (k := k) ?_)
    simp [hk]

/-- The place behind which the list goes on with a part of it. -/
theorem slotOf_headD (h : Holds m chain) (hk : chain k = A ++ B) : slotOf 0 k (B.headD 0) = endOf (.inl k) B.reverse := by
  have hB : 0 ∉ B.reverse := fun hB => h.apart.null_notMem k (by simp_all)
  rw [endOf_eq_slotOf hB, List.reverse_reverse]

theorem slotOf_reverse_headD (h : Holds m chain) (hk : chain k = A ++ B) :
    slotOf 0 k (A.reverse.headD 0) = endOf (.inl k) A := by
  have hA : 0 ∉ A := fun hA => h.apart.null_notMem k (by simp_all)
  rw [endOf_eq_slotOf hA]

theorem nextLink_eq (h : Holds m chain) (hk : chain k = A ++ B) :
    m.nextLink (slotOf 0 k (A.reverse.headD 0)) = B.headD 0 := by
  rw [h.slotOf_reverse_headD hk, h.forward.link_endOf hk]

theorem prevLink_eq (h : Holds m chain) (hk : chain k = A ++ B) :
    m.prevLink (slotOf 0 k (B.headD 0)) = A.reverse.headD 0 := by
  rw [h.slotOf_headD hk, h.backward.link_endOf (by rw [hk, List.reverse_append])]

variable [DecidableEq ι]

/-- An element is new at its place. -/
theorem insert (h : Holds m chain) (hk : chain k = A ++ B) (he : e ∉ m.live) (hnull : e ≠ 0)
    (hnext : m'.nextLink = Function.update (Function.update m.nextLink (.inr e) (B.headD 0))
      (slotOf 0 k (A.reverse.headD 0)) e)
    (hprev : m'.prevLink = Function.update (Function.update m.prevLink (.inr e) (A.reverse.headD 0))
      (slotOf 0 k (B.headD 0)) e)
    (hcount : m'.count = Function.update m.count k (m.count k + 1))
    (hlive : m'.live = Insert.insert e m.live) : Holds m' (Function.update chain k (A ++ [e] ++ B)) := by
  have hfresh : ∀ i, e ∉ chain i := fun i hi => he (h.mem_live hi)
  have hreplaces := replaces_insert hk hnull hfresh
  rw [h.slotOf_reverse_headD hk] at hnext
  rw [h.slotOf_headD hk] at hprev
  refine ⟨hreplaces.apart h.apart, h.apart.threads_insert h.forward hk hnull hfresh hnext, ?_, fun i => ?_, fun p => ?_⟩
  · rw [update_reverse, List.reverse_append, List.reverse_append, ← List.append_assoc]
    apply h.apart.reverse.threads_insert h.backward _ hnull (by simpa using hfresh) hprev
    rw [hk, List.reverse_append]
  · rw [hcount]
    obtain rfl | hik := eq_or_ne i k
    · rw [Function.update_self, Function.update_self, h.count, hk]
      simp only [List.length_append, List.length_singleton]
      omega
    · rw [Function.update_of_ne hik, Function.update_of_ne hik, h.count]
  · rw [hlive, Finset.mem_insert, h.live, hreplaces.exists_mem_iff h.apart, List.mem_singleton,
      and_iff_left List.not_mem_nil]

/-- An element is taken out of its list. -/
theorem erase (h : Holds m chain) (hk : chain k = A ++ [e] ++ B)
    (hnext : ∀ r, r ≠ .inr e →
      m'.nextLink r = Function.update m.nextLink (slotOf 0 k (A.reverse.headD 0)) (B.headD 0) r)
    (hprev : ∀ r, r ≠ .inr e →
      m'.prevLink r = Function.update m.prevLink (slotOf 0 k (B.headD 0)) (A.reverse.headD 0) r)
    (hcount : m'.count = Function.update m.count k (m.count k - 1))
    (hlive : m'.live = m.live.erase e) : Holds m' (Function.update chain k (A ++ [] ++ B)) := by
  have hreplaces := Apart.replaces_nil 0 hk
  rw [h.slotOf_reverse_headD (hk.trans (List.append_assoc _ _ _))] at hnext
  rw [h.slotOf_headD hk] at hprev
  refine ⟨hreplaces.apart h.apart, h.apart.threads_erase h.forward hk hnext, ?_, fun i => ?_, fun p => ?_⟩
  · rw [update_reverse, List.reverse_append, List.reverse_append, ← List.append_assoc]
    apply h.apart.reverse.threads_erase h.backward (e := e) _ hprev
    simp [hk]
  · rw [hcount]
    obtain rfl | hik := eq_or_ne i k
    · rw [Function.update_self, Function.update_self, h.count, hk]
      simp only [List.length_append, List.length_singleton, List.length_nil]
      omega
    · rw [Function.update_of_ne hik, Function.update_of_ne hik, h.count]
  · rw [hlive, Finset.mem_erase, h.live, hreplaces.exists_mem_iff h.apart, List.mem_singleton,
      or_iff_right List.not_mem_nil, and_comm]

end Holds

end XviOs.StdList
