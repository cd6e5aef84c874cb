import XviOs.StdList.Links

namespace XviOs.StdList

open Library.Links Library.StateProgram Library.Sequences

variable {ι α : Type} {a : Allocator} {m m' : Memory ι α} {chain : ι → List ℕ} {k l : ι}
  {A B M : List ℕ} {e p v pos : ℕ} {x : α}

theorem getList_eq (l : ι) (m : Memory ι α) : getList l m = some (m.nextLink (.inl l), m) := rfl

theorem getLast_eq (l : ι) (m : Memory ι α) : getLast l m = some (m.prevLink (.inl l), m) := rfl

theorem getCount_eq (l : ι) (m : Memory ι α) : getCount l m = some (m.count l, m) := rfl

theorem readNext_eq (hp : p ∈ m.live) : readNext p m = some (m.nextLink (.inr p), m) := if_pos hp

theorem readPrev_eq (hp : p ∈ m.live) : readPrev p m = some (m.prevLink (.inr p), m) := if_pos hp

theorem newElement_eq (a : Allocator) (x : α) (m : Memory ι α) :
    newElement a x m = some (a.allocate m.live, m.allocated a x) := rfl

theorem deleteElement_eq (he : e ∈ m.live) : deleteElement e m = some ((), m.freed e) := if_pos he

theorem writeData_eq (hp : p ∈ m.live) (x : α) : writeData p x m = some ((), m.written p x) := if_pos hp

/-- What stands before a position. -/
theorem before_eq (hp : p = 0 ∨ p ∈ m.live) :
    before l p m = some (m.prevLink (slotOf 0 l p), m) := by
  rw [before, slotOf]
  split_ifs with h0
  · rfl
  · exact readPrev_eq (hp.resolve_left h0)

variable [DecidableEq ι]

theorem setCount_eq (l : ι) (n : ℕ) (m : Memory ι α) : setCount l n m = some ((), m.counted l n) := rfl

theorem writeNext_eq (hp : p ∈ m.live) (v : ℕ) : writeNext p v m = some ((), m.setNext (.inr p) v) := if_pos hp

theorem writePrev_eq (hp : p ∈ m.live) (v : ℕ) : writePrev p v m = some ((), m.setPrev (.inr p) v) := if_pos hp

theorem linkNext_eq (hp : p = 0 ∨ p ∈ m.live) (v : ℕ) :
    linkNext l p v m = some ((), m.setNext (slotOf 0 l p) v) := by
  rw [linkNext, slotOf]
  split_ifs with h0
  · rfl
  · exact writeNext_eq (hp.resolve_left h0) v

theorem linkPrev_eq (hp : p = 0 ∨ p ∈ m.live) (v : ℕ) :
    linkPrev l p v m = some ((), m.setPrev (slotOf 0 l p) v) := by
  rw [linkPrev, slotOf]
  split_ifs with h0
  · rfl
  · exact writePrev_eq (hp.resolve_left h0) v

/-- The element behind which a new one is put in is not `nullptr`. -/
theorem insertAfter_eq (hpos : pos ∈ m.live) (hpos0 : pos ≠ 0) (he : e ∈ m.live) (hne : pos ≠ e)
    (hv : m.nextLink (.inr pos) = v) (hvlive : v = 0 ∨ v ∈ m.live) :
    insertAfter l pos e m = some (e, ((((m.setNext (.inr e) v).setPrev (.inr e) pos).setNext (slotOf 0 l pos) e).setPrev
      (slotOf 0 l v) e).counted l (m.count l + 1)) := by
  have hslot : slotOf 0 l pos = .inr pos := if_neg hpos0
  have hread : (((m.setNext (.inr e) v).setPrev (.inr e) pos).setNext (.inr pos) e).nextLink (.inr e) = v := by
    simp [hne.symm]
  simp [insertAfter, bind, StateT.bind, readNext_eq, writeNext_eq, writePrev_eq, linkNext_eq, linkPrev_eq,
    getCount_eq, setCount_eq, hpos, he, hv, hslot, hne.symm, hvlive, pure_apply]

theorem remove_eq {n : ℕ} (he : e ∈ m.live) (hp : m.prevLink (.inr e) = p) (hn : m.nextLink (.inr e) = n)
    (hplive : p = 0 ∨ p ∈ m.live) (hnlive : n = 0 ∨ n ∈ m.live) (hpe : slotOf 0 l p ≠ .inr e) :
    remove l e m = some (n, ((((m.setNext (slotOf 0 l p) n).setPrev (slotOf 0 l n) p).setNext (.inr e) 0).setPrev
      (.inr e) 0).counted l (m.count l - 1)) := by
  simp [remove, bind, StateT.bind, readNext_eq, readPrev_eq, writeNext_eq, writePrev_eq, linkNext_eq, linkPrev_eq,
    getCount_eq, setCount_eq, he, hp, hn, hplive, hnlive, hpe.symm, pure_apply]

omit [DecidableEq ι] in
theorem Holds.reverse_headD_mem (hk : chain k = A ++ B) (hA : A ≠ []) : A.reverse.headD 0 ∈ chain k := by
  obtain rfl | ⟨A, y, rfl⟩ := List.eq_nil_or_concat A
  · exact absurd rfl hA
  · simp [hk]

theorem Holds.contents_insert (h : Holds m chain) (hk : chain k = A ++ B) (he : e ∉ m.live)
    (hdata : m'.data = Function.update m.data e x) :
    contents m' (Function.update chain k (A ++ [e] ++ B)) =
      Function.update (contents m chain) k (insertAt (contents m chain k) A.length [x]) := by
  have hins := map_insert_fresh hk (fun i hi => he (h.mem_live hi)) m.data x
  rw [← hdata] at hins
  exact hins

/-- A new element is linked in behind another. -/
theorem insertAfter_spec (h : Holds m chain) (hk : chain k = A ++ B) (hA : A ≠ []) (x : α) :
    Leads (insertAfter k (A.reverse.headD 0) (a.allocate m.live)) (m.allocated a x) fun e m' =>
      Holds m' (Function.update chain k (A ++ [e] ++ B)) ∧
      contents m' (Function.update chain k (A ++ [e] ++ B)) =
        Function.update (contents m chain) k (insertAt (contents m chain k) A.length [x]) := by
  have he := a.allocate_notMem m.live
  have hmem := Holds.reverse_headD_mem hk hA
  have hpos := h.mem_live hmem
  have hpos0 := h.apart.ne_null hmem
  have hne : A.reverse.headD 0 ≠ a.allocate m.live := fun heq => he (heq ▸ hpos)
  have hv : (m.allocated a x).nextLink (.inr (A.reverse.headD 0)) = B.headD 0 := by
    rw [Memory.nextLink_allocated, Function.update_of_ne (Sum.inr_injective.ne hne), ← h.nextLink_eq hk, slotOf,
      if_neg hpos0]
  have hvlive : B.headD 0 = 0 ∨ B.headD 0 ∈ (m.allocated a x).live :=
    (h.headD_live hk).imp_right Finset.mem_insert_of_mem
  refine Leads.of_eq (insertAfter_eq (Finset.mem_insert_of_mem hpos) hpos0 (Finset.mem_insert_self _ _) hne hv hvlive)
    ⟨h.insert hk he (a.allocate_ne_null m.live) ?_ ?_ ?_ ?_, ?_⟩
  · simp
  · simp
  · simp
  · simp
  · exact h.contents_insert hk he (by simp)

theorem insertNewElementAfter_spec (h : Holds m chain) (hk : chain k = A ++ B) (hA : A ≠ []) (x : α) :
    Leads (insertNewElementAfter a k (A.reverse.headD 0) x) m fun e m' =>
      Holds m' (Function.update chain k (A ++ [e] ++ B)) ∧
      contents m' (Function.update chain k (A ++ [e] ++ B)) =
        Function.update (contents m chain) k (insertAt (contents m chain k) A.length [x]) :=
  Leads.bind_eq (newElement_eq a x m) (insertAfter_spec h hk hA x)

theorem emplace_spec (h : Holds m chain) (hk : chain k = A ++ B) (hA : A ≠ []) (x : α) :
    Leads (emplace a k (B.headD 0) x) m fun e m' =>
      Holds m' (Function.update chain k (A ++ [e] ++ B)) ∧
      contents m' (Function.update chain k (A ++ [e] ++ B)) =
        Function.update (contents m chain) k (insertAt (contents m chain k) A.length [x]) := by
  have he := a.allocate_notMem m.live
  have hlive : B.headD 0 = 0 ∨ B.headD 0 ∈ (m.allocated a x).live :=
    (h.headD_live hk).imp_right Finset.mem_insert_of_mem
  have hslot : slotOf 0 k (B.headD 0) ≠ (.inr (a.allocate m.live) : ι ⊕ ℕ) := by
    rw [slotOf]
    split_ifs with h0
    · exact Sum.inl_ne_inr
    · intro heq
      exact he (Sum.inr_injective heq ▸ (h.headD_live hk).resolve_left h0)
  have hread : (m.allocated a x).prevLink (slotOf 0 k (B.headD 0)) = A.reverse.headD 0 := by
    rw [Memory.prevLink_allocated, Function.update_of_ne hslot, h.prevLink_eq hk]
  apply Leads.bind_eq (newElement_eq a x m)
  apply Leads.bind_eq (before_eq hlive)
  rw [hread]
  exact insertAfter_spec h hk hA x

theorem insertLoop_spec (h : Holds m chain) (hk : chain k = A ++ B) {xs : List α} (hA : A ≠ [] ∨ xs = []) :
    Leads (insertLoop a k (B.headD 0) xs) m fun _ m' => ∃ chain', Holds m' chain' ∧
      contents m' chain' = Function.update (contents m chain) k (insertAt (contents m chain k) A.length xs) := by
  induction xs generalizing m chain A with
  | nil =>
    refine Leads.pure ⟨chain, h, ?_⟩
    rw [insertAt_nil, Function.update_eq_self]
  | cons x xs ih =>
    apply Leads.bind (emplace_spec h hk (hA.resolve_right (List.cons_ne_nil x xs)) x)
    rintro e m₁ ⟨h₁, hcontents⟩
    have hk₁ : Function.update chain k (A ++ [e] ++ B) k = (A ++ [e]) ++ B := Function.update_self _ _ _
    apply (ih h₁ hk₁ (Or.inl (by simp))).mono
    rintro _ m₂ ⟨chain₂, h₂, hcontents₂⟩
    refine ⟨chain₂, h₂, ?_⟩
    have hlen : A.length ≤ (contents m chain k).length := by simp [contents, hk]
    have hins := insertAt_insertAt hlen [x] xs
    rw [List.length_singleton] at hins
    rw [hcontents₂, hcontents, Function.update_self, Function.update_idem, List.length_append, List.length_singleton,
      hins, List.singleton_append]

theorem insertRange_spec (h : Holds m chain) (hk : chain k = A ++ B) {xs : List α} (hA : A ≠ [] ∨ xs = []) :
    Leads (insertRange a k (B.headD 0) xs) m fun _ m' => ∃ chain', Holds m' chain' ∧
      contents m' chain' = Function.update (contents m chain) k (insertAt (contents m chain k) A.length xs) := by
  have hread : ∃ q, prevOrNull (B.headD 0) m = some (q, m) := by
    unfold prevOrNull
    split_ifs with h0
    · exact ⟨0, rfl⟩
    · exact ⟨_, readPrev_eq ((h.headD_live hk).resolve_left h0)⟩
  obtain ⟨q, hq⟩ := hread
  apply Leads.bind_eq hq
  apply Leads.bind (insertLoop_spec h hk hA)
  rintro _ m' hm'
  split_ifs
  · exact Leads.of_eq (getList_eq k m') hm'
  · exact Leads.pure hm'

theorem insertCopies_spec (h : Holds m chain) (hk : chain k = A ++ B) {n : ℕ} (hA : A ≠ [] ∨ n = 0) (x : α) :
    Leads (insertCopies a k x n (B.headD 0)) m fun _ m' => ∃ chain', Holds m' chain' ∧
      contents m' chain' =
        Function.update (contents m chain) k (insertAt (contents m chain k) A.length (List.replicate n x)) := by
  induction n generalizing m chain B with
  | zero =>
    refine Leads.pure ⟨chain, h, ?_⟩
    rw [List.replicate_zero, insertAt_nil, Function.update_eq_self]
  | succ n ih =>
    have hA' := hA.resolve_right (Nat.succ_ne_zero n)
    apply Leads.bind (emplace_spec h hk hA' x)
    rintro e m₁ ⟨h₁, hcontents⟩
    have hk₁ : Function.update chain k (A ++ [e] ++ B) k = A ++ (e :: B) := by
      rw [Function.update_self, List.append_assoc, List.singleton_append]
    apply (ih h₁ hk₁ (Or.inl hA')).mono
    rintro _ m₂ ⟨chain₂, h₂, hcontents₂⟩
    refine ⟨chain₂, h₂, ?_⟩
    have hlen : A.length ≤ (contents m chain k).length := by simp [contents, hk]
    rw [hcontents₂, hcontents, Function.update_self, Function.update_idem, insertAt_same hlen, ← List.replicate_succ']

theorem removeAndDeleteElement_spec (h : Holds m chain) (hk : chain k = A ++ [e] ++ B) :
    Leads (removeAndDeleteElement k e) m fun _ m' =>
      Holds m' (Function.update chain k (A ++ [] ++ B)) ∧ m'.data = m.data := by
  have hk' : chain k = A ++ ([e] ++ B) := hk.trans (List.append_assoc _ _ _)
  have hmem : e ∈ chain k := by simp [hk]
  have he := h.mem_live hmem
  have he0 := h.apart.ne_null hmem
  have hslot : slotOf 0 k e = .inr e := if_neg he0
  have hp : m.prevLink (.inr e) = A.reverse.headD 0 := by
    have hlink := h.prevLink_eq hk'
    rwa [List.singleton_append, List.headD_cons, hslot] at hlink
  have hn : m.nextLink (.inr e) = B.headD 0 := by
    have hlink := h.nextLink_eq hk
    rwa [List.reverse_append, List.reverse_singleton, List.singleton_append, List.headD_cons, hslot] at hlink
  have hpe : slotOf 0 k (A.reverse.headD 0) ≠ .inr e := by
    rw [h.slotOf_reverse_headD hk']
    exact h.apart.endOf_ne hk e List.mem_cons_self
  have hrun := remove_eq (l := k) he hp hn (h.reverse_headD_live hk') (h.headD_live hk) hpe
  apply Leads.bind_eq hrun
  refine Leads.of_eq (deleteElement_eq (by simpa using he)) ⟨h.erase hk ?_ ?_ ?_ ?_, by simp⟩
  · intro r hr
    simp [hr]
  · intro r hr
    simp [hr]
  · simp
  · simp

theorem erase_spec (h : Holds m chain) (hk : chain k = A ++ [e] ++ B) :
    Leads (erase k e) m fun q m' => q = B.headD 0 ∧ Holds m' (Function.update chain k (A ++ B)) ∧ m'.data = m.data := by
  have he := h.mem_live (k := k) (e := e) (by simp [hk])
  have hlast : m.prevLink (.inl k) = (chain k).reverse.headD 0 := (h.backward k).link_eq
  have hnext : m.nextLink (.inr e) = B.headD 0 := by
    have hlink := h.forward.link_endOf hk
    rwa [endOf_concat] at hlink
  have hremove := removeAndDeleteElement_spec h hk
  rw [List.append_nil] at hremove
  apply Leads.bind_eq (getLast_eq k m)
  split_ifs with hend
  · apply hremove.bind
    rintro _ m' hm'
    refine Leads.pure ⟨?_, hm'⟩
    -- the last element has none behind it
    cases B with
    | nil => rfl
    | cons b B =>
      rw [hlast, hk, List.reverse_append] at hend
      have hmem : e ∈ b :: B := by
        obtain ⟨c, B', hB⟩ := List.exists_cons_of_ne_nil (List.reverse_ne_nil_iff.mpr (List.cons_ne_nil b B))
        rw [hB, List.cons_append, List.headD_cons] at hend
        rw [← List.mem_reverse, hB, hend]
        exact List.mem_cons_self
      obtain ⟨-, -, -, -, hapart⟩ := (Apart.replaces_nil 0 hk).nodup_parts h.apart
      exact absurd hmem (hapart e List.mem_cons_self)
  · apply Leads.bind_eq (readNext_eq he)
    apply hremove.bind
    rintro _ m' hm'
    exact Leads.pure ⟨hnext, hm'⟩

end XviOs.StdList
