import XviOs.ForwardList.Model
import XviOs.Library.Sequences

namespace XviOs.ForwardList

open Library.Links Library.StateProgram Library.Sequences

variable {ι α : Type} {A : Allocator} {m m' : Memory ι α} {chain : ι → List ℕ} {k j : ι} {s p : Element ι}
  {B C D M N : List ℕ} {e v : ℕ} {x : α}

namespace Memory

/-- With one more element. -/
def allocated (A : Allocator) (x : α) (m : Memory ι α) : Memory ι α :=
  let p := A.allocate m.live
  { m with next := Function.update m.next p 0, data := Function.update m.data p x, live := insert p m.live }

def freed (p : ℕ) (m : Memory ι α) : Memory ι α := { m with live := m.live.erase p }

@[simp]
theorem link_allocated [DecidableEq ι] :
    (m.allocated A x).link = Function.update m.link (.inr (A.allocate m.live)) 0 :=
  link_setLink m (.inr (A.allocate m.live)) 0

@[simp]
theorem live_allocated : (m.allocated A x).live = insert (A.allocate m.live) m.live := rfl

@[simp]
theorem data_allocated : (m.allocated A x).data = Function.update m.data (A.allocate m.live) x := rfl

@[simp]
theorem link_freed : (m.freed e).link = m.link := rfl

@[simp]
theorem live_freed : (m.freed e).live = m.live.erase e := rfl

@[simp]
theorem data_freed : (m.freed e).data = m.data := rfl

end Memory

theorem newElement_eq (A : Allocator) (x : α) (m : Memory ι α) :
    newElement A x m = some (A.allocate m.live, m.allocated A x) := rfl

theorem deleteElement_eq (he : e ∈ m.live) : deleteElement e m = some ((), m.freed e) := if_pos he

theorem contents_congr (h : ∀ i, ∀ x ∈ chain i, m'.data x = m.data x) : contents m' chain = contents m chain := by
  funext i
  exact List.map_congr_left (h i)

variable [DecidableEq ι]

theorem contents_update (m : Memory ι α) (chain : ι → List ℕ) (k : ι) (l : List ℕ) :
    contents m (Function.update chain k l) = Function.update (contents m chain) k (l.map m.data) :=
  map_update m.data chain k l

theorem linkAfter_eq (hp : m.Readable p) (he : e ∈ m.live) :
    linkAfter p e m = some (e, (m.setLink (.inr e) (m.link p)).setLink p e) := by
  simp [linkAfter, bind, StateT.bind, readNext_eq hp, writeNext_eq, hp, he, pure_apply]

theorem Holds.contents_insert (h : Holds m chain) (hk : chain k = C ++ D) (he : e ∉ m.live)
    (hdata : m'.data = Function.update m.data e x) :
    contents m' (Function.update chain k (C ++ [e] ++ D)) =
      Function.update (contents m chain) k (insertAt (contents m chain k) C.length [x]) := by
  have hins := map_insert_fresh hk (fun i hi => he ((h.live e).mpr ⟨i, hi⟩)) m.data x
  rw [← hdata] at hins
  exact hins

theorem emplaceFront_spec (h : Holds m chain) (x : α) :
    Leads (emplaceFront A k x) m fun _ m' => ∃ chain', Holds m' chain' ∧
      contents m' chain' = Function.update (contents m chain) k (insertAt (contents m chain k) 0 [x]) := by
  have he := A.allocate_notMem m.live
  have hrun : emplaceFront A k x m = some ((), ((m.allocated A x).setLink (.inr (A.allocate m.live))
      (m.link (.inl k))).setLink (.inl k) (A.allocate m.live)) := by
    simp [emplaceFront, bind, StateT.bind, newElement_eq, getList, writeNext_eq, setList_eq]
    rfl
  refine Leads.of_eq hrun ⟨_, h.insert (List.nil_append (chain k)).symm he (A.allocate_ne_null m.live) ?_ ?_, ?_⟩
  · simp [(h.threads k).link_eq]
  · simp
  · exact h.contents_insert (List.nil_append (chain k)).symm he (by simp)

theorem popFront_spec (h : Holds m chain) :
    Leads (popFront k) m fun _ m' => ∃ chain', Holds m' chain' ∧
      contents m' chain' = Function.update (contents m chain) k (contents m chain k).tail := by
  have hlink : m.list k = (chain k).headD 0 := (h.threads k).link_eq
  cases hk : chain k with
  | nil =>
    rw [hk] at hlink
    have hrun : popFront k m = some ((), m) := by
      simp [popFront, bind, StateT.bind, getList, hlink, pure_apply]
    refine Leads.of_eq hrun ⟨chain, h, ?_⟩
    simp [contents, hk]
  | cons e D =>
    rw [hk] at hlink
    have hmem : e ∈ chain k := hk ▸ List.mem_cons_self
    have he : e ∈ m.live := (h.live e).mpr ⟨k, hmem⟩
    have hne : e ≠ 0 := h.apart.ne_null hmem
    have hnext : m.link (.inr e) = D.headD 0 := h.threads.link_endOf (A := [e]) hk
    have hrun : popFront k m = some ((), (m.setLink (.inl k) (D.headD 0)).freed e) := by
      simp [popFront, bind, StateT.bind, getList, hlink, hne, readNext_eq, he, setList_eq, deleteElement_eq, hnext]
    refine Leads.of_eq hrun ⟨_, h.erase (A := []) hk (by simp) (by simp), ?_⟩
    rw [contents_update, contents_congr (m := m) fun _ _ _ => by simp]
    simp [contents, hk]

theorem emplaceAfter_spec (h : Holds m chain) (hk : chain k = C ++ D) (hC : C ≠ []) (x : α) :
    Leads (emplaceAfter A (endOf (.inl k) C) x) m fun p m' => ∃ e, p = endOf (.inl k) (C ++ [e]) ∧
      Holds m' (Function.update chain k (C ++ [e] ++ D)) ∧
      contents m' (Function.update chain k (C ++ [e] ++ D)) =
        Function.update (contents m chain) k (insertAt (contents m chain k) C.length [x]) := by
  have he := A.allocate_notMem m.live
  have hp : (m.allocated A x).Readable (endOf (.inl k) C) := by
    obtain ⟨p, hp, heq⟩ := h.readable hk hC
    exact ⟨p, Finset.mem_insert_of_mem hp, heq⟩
  have hne : endOf (.inl k) C ≠ (.inr (A.allocate m.live) : Element ι) := by
    obtain ⟨p, hp, heq⟩ := h.readable hk hC
    rw [heq]
    rintro ⟨⟩
    exact he hp
  have hlink : (m.allocated A x).link (endOf (.inl k) C) = D.headD 0 := by
    rw [Memory.link_allocated, Function.update_of_ne hne, h.threads.link_endOf hk]
  apply Leads.bind_eq (newElement_eq A x m)
  apply Leads.bind_eq (linkAfter_eq hp (Finset.mem_insert_self _ _))
  refine Leads.pure ⟨A.allocate m.live, endOf_concat.symm, ?_, ?_⟩
  · apply h.insert hk he (A.allocate_ne_null m.live)
    · simp [hlink]
    · simp
  · exact h.contents_insert hk he (by simp)

theorem insertAfterRange_spec (h : Holds m chain) (hk : chain k = C ++ D) {xs : List α} (hC : C ≠ [] ∨ xs = []) :
    Leads (insertAfterRange A xs (endOf (.inl k) C)) m fun _ m' => ∃ chain', Holds m' chain' ∧
      contents m' chain' = Function.update (contents m chain) k (insertAt (contents m chain k) C.length xs) := by
  induction xs generalizing m chain C with
  | nil =>
    refine Leads.pure ⟨chain, h, ?_⟩
    rw [insertAt_nil, Function.update_eq_self]
  | cons x xs ih =>
    apply Leads.bind (emplaceAfter_spec h hk (hC.resolve_right (List.cons_ne_nil x xs)) x)
    rintro _ m₁ ⟨e, rfl, h₁, hcontents⟩
    have hk₁ : Function.update chain k (C ++ [e] ++ D) k = (C ++ [e]) ++ D := Function.update_self _ _ _
    apply (ih h₁ hk₁ (Or.inl (by simp))).mono
    rintro _ m₂ ⟨chain₂, h₂, hcontents₂⟩
    refine ⟨chain₂, h₂, ?_⟩
    have hlen : C.length ≤ (contents m chain k).length := by simp [contents, hk]
    have hins := insertAt_insertAt hlen [x] xs
    rw [List.length_singleton] at hins
    rw [hcontents₂, hcontents, Function.update_self, Function.update_idem, List.length_append, List.length_singleton,
      hins, List.singleton_append]

omit [DecidableEq ι] in
theorem insertAfterCopies_eq (x : α) (n : ℕ) (p : Element ι) :
    insertAfterCopies A x n p = insertAfterRange A (List.replicate n x) p := by
  induction n generalizing p with
  | zero => rfl
  | succ n ih =>
    rw [insertAfterCopies, List.replicate_succ, insertAfterRange]
    simp only [ih]

theorem eraseAfter_spec (h : Holds m chain) (hk : chain k = C ++ [e] ++ D) (hC : C ≠ []) :
    Leads (eraseAfter (endOf (.inl k) C)) m fun q m' => q = D.headD 0 ∧
      Holds m' (Function.update chain k (C ++ [] ++ D)) ∧ m'.data = m.data := by
  have hk' : chain k = C ++ ([e] ++ D) := hk.trans (List.append_assoc _ _ _)
  have hp := h.readable hk' hC
  have hfirst : m.link (endOf (.inl k) C) = e := h.threads.link_endOf hk'
  have hnext : m.link (.inr e) = D.headD 0 := by
    rw [← h.threads.link_endOf hk, endOf_concat]
  have he : e ∈ m.live := (h.live e).mpr ⟨k, by simp [hk]⟩
  have hp' : ((m.setLink (endOf (.inl k) C) (D.headD 0)).freed e).Readable (endOf (.inl k) C) := by
    obtain ⟨p, hpC, heq⟩ := endOf_mem (s := (.inl k : Element ι)) hC
    refine ⟨p, Finset.mem_erase.mpr ⟨?_, by simpa [heq] using hp⟩, heq⟩
    rintro rfl
    have hnodup := h.apart.nodup k
    rw [hk', List.nodup_append] at hnodup
    exact hnodup.2.2 p hpC p List.mem_cons_self rfl
  have hrun : eraseAfter (endOf (.inl k) C) m =
      some (D.headD 0, (m.setLink (endOf (.inl k) C) (D.headD 0)).freed e) := by
    simp [eraseAfter, bind, StateT.bind, readNext_eq hp, readNext_eq hp', readNext_eq, writeNext_eq hp, hfirst, hnext,
      he, deleteElement_eq, -List.headD_eq_head?_getD]
  exact Leads.of_eq hrun ⟨rfl, h.erase hk (by simp) (by simp), by simp⟩

theorem eraseAfterUntil_spec (h : Holds m chain) (hk : chain k = C ++ M ++ D) (hC : C ≠ []) {n : ℕ}
    (hn : M.length < n) :
    Leads (eraseAfterUntil (endOf (.inl k) C) (D.headD 0) n) m fun _ m' =>
      Holds m' (Function.update chain k (C ++ D)) ∧ m'.data = m.data := by
  induction n generalizing m chain M with
  | zero => exact absurd hn (Nat.not_lt_zero _)
  | succ n ih =>
    have hk' : chain k = C ++ (M ++ D) := hk.trans (List.append_assoc _ _ _)
    apply Leads.bind_eq (readNext_eq (h.readable hk' hC))
    rw [h.threads.link_endOf hk']
    cases M with
    | nil =>
      rw [List.nil_append] at hk'
      rw [List.nil_append, if_neg (not_not.mpr rfl), ← hk', Function.update_eq_self]
      exact Leads.pure ⟨h, rfl⟩
    | cons e M =>
      have hne : e ≠ D.headD 0 := by
        rintro rfl
        exact h.apart.headD_notMem hk List.mem_cons_self
      have he : chain k = C ++ [e] ++ (M ++ D) := by simp [hk]
      rw [List.cons_append, List.headD_cons, if_pos hne]
      apply Leads.bind (eraseAfter_spec h he hC)
      rintro q m₁ ⟨-, h₁, hdata⟩
      rw [List.append_nil] at h₁
      have hk₁ : Function.update chain k (C ++ (M ++ D)) k = C ++ M ++ D := by
        rw [Function.update_self, List.append_assoc]
      apply (ih h₁ hk₁ (Nat.lt_of_succ_lt_succ hn)).mono
      rintro _ m₂ ⟨h₂, hdata₂⟩
      rw [Function.update_idem] at h₂
      exact ⟨h₂, hdata₂.trans hdata⟩

theorem eraseAfterRange_spec (h : Holds m chain) (hk : chain k = C ++ M ++ D) (hC : C ≠ []) :
    Leads (eraseAfterRange (endOf (.inl k) C) (D.headD 0)) m fun q m' =>
      q = D.headD 0 ∧ Holds m' (Function.update chain k (C ++ D)) ∧ m'.data = m.data := by
  apply Leads.bind_eq (show bound m = some (m.live.card + 1, m) from rfl)
  apply Leads.bind (eraseAfterUntil_spec h hk hC (Nat.lt_succ_of_le (h.card_le hk)))
  intro _ m' hm'
  exact Leads.pure ⟨rfl, hm'⟩

omit [DecidableEq ι] in
theorem lastBefore_spec (hreadable : ∀ x ∈ M, x ∈ m.live) (hpath : Path m.link s M v) (hs : m.Readable s) (hv : v ∉ M)
    {n : ℕ} (hn : M.length < n) : lastBefore v n s m = some (endOf s M, m) := by
  induction n generalizing s M with
  | zero => exact absurd hn (Nat.not_lt_zero _)
  | succ n ih =>
    cases M with
    | nil =>
      have hlink : m.link s = v := hpath
      simp [lastBefore, bind, StateT.bind, readNext_eq hs, hlink, pure_apply]
    | cons x M =>
      rw [List.forall_mem_cons] at hreadable
      rw [List.mem_cons, not_or] at hv
      have hrest := ih hreadable.2 hpath.2 (Memory.readable_inr.mpr hreadable.1) hv.2 (Nat.lt_of_succ_lt_succ hn)
      simp [lastBefore, bind, StateT.bind, readNext_eq hs, hpath.1, Ne.symm hv.1, hrest]

end XviOs.ForwardList

namespace XviOs.ForwardList

open Library.Links Library.StateProgram

variable {ι α : Type} [DecidableEq ι] {m m' : Memory ι α} {chain : ι → List ℕ} {k j : ι} {p f z : Element ι}
  {A B C D M : List ℕ} {n last : ℕ}

namespace Holds

omit [DecidableEq ι] in
theorem of_link_eq (h : Holds m chain) (hlink : m'.link = m.link) (hlive : m'.live = m.live) : Holds m' chain :=
  ⟨h.apart, hlink ▸ h.threads, hlive ▸ h.live⟩

/-- A place that is left when a segment has gone is behind an element in use. -/
theorem readable_moved (h : Holds m chain) (hj : chain j = C ++ M ++ D)
    (hk : Function.update chain j (C ++ [] ++ D) k = A ++ B) (hA : A ≠ []) : m.Readable (endOf (.inl k) A) := by
  obtain ⟨x, hx, heq⟩ := endOf_mem (s := (.inl k : Element ι)) hA
  refine ⟨x, (h.live x).mpr ?_, heq⟩
  have hout := ((Apart.replaces_nil 0 hj).exists_mem_iff h.apart).mp ⟨k, hk ▸ List.mem_append_left B hx⟩
  exact (hout.resolve_left List.not_mem_nil).1

/-- The links that a segment's move writes, in the order of the source. -/
theorem splice (h : Holds m chain) (hj : chain j = C ++ M ++ D)
    (hk : Function.update chain j (C ++ [] ++ D) k = A ++ B) (hne : endOf (.inl k) A ≠ endOf (.inl j) C)
    (hlink : m'.link = Function.update (Function.update (Function.update m.link (endOf (.inl k) A)
      (m.link (endOf (.inl j) C))) (endOf (.inl j) C) (D.headD 0)) (endOf (endOf (.inl k) A) M)
        (m.link (endOf (.inl k) A)))
    (hlive : m'.live = m.live) :
    Holds m' (Function.update (Function.update chain j (C ++ [] ++ D)) k (A ++ M ++ B)) := by
  have hp := h.apart.endOf_ne_moved hj hk
  have hf := h.apart.endOf_ne hj
  have hnodup := (h.apart.replaces_moved hj hk).nodup
  have hsegment := h.threads.segment hj
  apply h.move hj hk _ _ hlive
  · rw [Function.update_of_ne hne]
    have hpath : Path (Function.update (Function.update m.link (endOf (.inl k) A) (m.link (endOf (.inl j) C)))
        (endOf (.inl j) C) (D.headD 0)) (endOf (.inl k) A) M (D.headD 0) := by
      apply hsegment.congr
      · rw [Function.update_of_ne hne, Function.update_self]
      · intro x hx
        rw [Function.update_of_ne (hf x hx).symm, Function.update_of_ne (hp x hx).symm]
    apply hpath.divert hp hnodup
    · intro r hr _
      rw [hlink, Function.update_of_ne hr]
    · rw [hlink, Function.update_self]
  · intro r hr hM
    rw [hlink, Function.update_of_ne]
    · by_cases hrf : r = endOf (.inl j) C
      · rw [hrf, Function.update_self, Function.update_self]
      · rw [Function.update_of_ne hrf, Function.update_of_ne hrf, Function.update_of_ne hr]
    · obtain hend | ⟨x, hx, hend⟩ := endOf_cases (endOf (.inl k) A) M
      · rwa [hend]
      · rw [hend]
        exact hM x hx

end Holds

/-- The memory in which `splice_after` for a range looks for the end of the range. -/
def cutAt (m : Memory ι α) (p f : Element ι) (last : ℕ) : Memory ι α := (m.setLink p (m.link f)).setLink f last

@[simp]
theorem link_cutAt : (cutAt m p f last).link = Function.update (Function.update m.link p (m.link f)) f last := by
  simp [cutAt]

@[simp]
theorem live_cutAt : (cutAt m p f last).live = m.live := by simp [cutAt]

theorem spliceAfterRange_eq (hp : m.Readable p) (hf : m.Readable f) (hz : m.Readable z)
    (hwalk : lastBefore last (m.live.card + 1) p (cutAt m p f last) = some (z, cutAt m p f last)) :
    spliceAfterRange p f last m = some ((), (cutAt m p f last).setLink z (m.link p)) := by
  have hz' : (cutAt m p f last).Readable z := by simpa [Memory.Readable] using hz
  have hwrite := writeNext_eq hz' (m.link p)
  simp only [cutAt] at hwalk hwrite ⊢
  simp [spliceAfterRange, bind, StateT.bind, bound, readNext_eq, writeNext_eq, hp, hf, hwalk, hwrite]

theorem spliceAfterRange_spec (h : Holds m chain) (hj : chain j = C ++ M ++ D)
    (hk : Function.update chain j (C ++ [] ++ D) k = A ++ B) (hA : A ≠ []) (hC : C ≠ [])
    (hne : endOf (.inl k) A ≠ endOf (.inl j) C) :
    Leads (spliceAfterRange (endOf (.inl k) A) (endOf (.inl j) C) (D.headD 0)) m fun _ m' =>
      Holds m' (Function.update (Function.update chain j (C ++ [] ++ D)) k (A ++ M ++ B)) ∧ m'.data = m.data := by
  have hp := h.readable_moved hj hk hA
  have hf := h.readable (hj.trans (List.append_assoc C M D)) hC
  have hpM := h.apart.endOf_ne_moved hj hk
  have hfM := h.apart.endOf_ne hj
  have hlive : ∀ x ∈ M, x ∈ m.live := fun x hx => (h.live x).mpr ⟨j, by simp [hj, hx]⟩
  have hpath : Path (cutAt m (endOf (.inl k) A) (endOf (.inl j) C) (D.headD 0)).link (endOf (.inl k) A) M
      (D.headD 0) := by
    apply (h.threads.segment hj).congr
    · rw [link_cutAt, Function.update_of_ne hne, Function.update_self]
    · intro x hx
      rw [link_cutAt, Function.update_of_ne (hfM x hx).symm, Function.update_of_ne (hpM x hx).symm]
  have hwalk := lastBefore_spec (n := m.live.card + 1) (by simpa using hlive) hpath (by simpa [Memory.Readable] using hp)
    (h.apart.headD_notMem hj) (Nat.lt_succ_of_le (h.card_le hj))
  have hz : m.Readable (endOf (endOf (.inl k) A) M) := by
    obtain hend | ⟨x, hx, hend⟩ := endOf_cases (endOf (.inl k : Element ι) A) M
    · rwa [hend]
    · rw [hend]
      exact Memory.readable_inr.mpr (hlive x hx)
  refine Leads.of_eq (spliceAfterRange_eq hp hf hz hwalk) ⟨h.splice hj hk hne ?_ (by simp), by simp [cutAt]⟩
  simp

/-- Behind the element that it follows, a range stays where it is. -/
theorem spliceAfterRange_self (h : Holds m chain) (hf : m.Readable f) (last : ℕ) :
    Leads (spliceAfterRange f f last) m fun _ m' => Holds m' chain ∧ m'.data = m.data := by
  have hwalk : lastBefore last (m.live.card + 1) f (cutAt m f f last) = some (f, cutAt m f f last) :=
    lastBefore_spec (M := []) (by simp) (by simp) (by simpa [Memory.Readable] using hf) List.not_mem_nil (by simp)
  refine Leads.of_eq (spliceAfterRange_eq hf hf hf hwalk) ⟨h.of_link_eq ?_ (by simp), by simp [cutAt]⟩
  simp

theorem spliceAfterOne_spec (h : Holds m chain) (hj : chain j = C ++ [n] ++ D)
    (hk : Function.update chain j (C ++ [] ++ D) k = A ++ B) (hA : A ≠ []) (hC : C ≠ [])
    (hne : endOf (.inl k) A ≠ endOf (.inl j) C) :
    Leads (spliceAfterOne (endOf (.inl k) A) (endOf (.inl j) C)) m fun _ m' =>
      Holds m' (Function.update (Function.update chain j (C ++ [] ++ D)) k (A ++ [n] ++ B)) ∧ m'.data = m.data := by
  have hp := h.readable_moved hj hk hA
  have hj' : chain j = C ++ ([n] ++ D) := hj.trans (List.append_assoc _ _ _)
  have hf := h.readable hj' hC
  have hn : n ∈ m.live := (h.live n).mpr ⟨j, by simp [hj]⟩
  have hpn := h.apart.endOf_ne_moved hj hk n List.mem_cons_self
  have hlinkf : m.link (endOf (.inl j) C) = n := h.threads.link_endOf hj'
  have hlinkn : m.link (.inr n) = D.headD 0 := by rw [← h.threads.link_endOf hj, endOf_concat]
  have hrun : spliceAfterOne (endOf (.inl k) A) (endOf (.inl j) C) m = some ((),
      ((m.setLink (endOf (.inl k) A) n).setLink (endOf (.inl j) C) (D.headD 0)).setLink (.inr n)
        (m.link (endOf (.inl k) A))) := by
    simp [spliceAfterOne, bind, StateT.bind, readNext_eq, writeNext_eq, hp, hf, hlinkf, hlinkn, hn, hne, hne.symm, hpn.symm,
      -List.headD_eq_head?_getD]
  refine Leads.of_eq hrun ⟨h.splice hj hk hne ?_ (by simp), by simp⟩
  simp [hlinkf]

theorem spliceAfterOne_self (h : Holds m chain) (hj : chain j = C ++ [n] ++ D) (hC : C ≠ []) :
    Leads (spliceAfterOne (.inr n) (endOf (.inl j) C)) m fun _ m' => Holds m' chain ∧ m'.data = m.data := by
  have hj' : chain j = C ++ ([n] ++ D) := hj.trans (List.append_assoc _ _ _)
  have hf := h.readable hj' hC
  have hn : n ∈ m.live := (h.live n).mpr ⟨j, by simp [hj]⟩
  have hfn := h.apart.endOf_ne hj n List.mem_cons_self
  have hlinkf : m.link (endOf (.inl j) C) = n := h.threads.link_endOf hj'
  have hlinkn : m.link (.inr n) = D.headD 0 := by rw [← h.threads.link_endOf hj, endOf_concat]
  have hrun : spliceAfterOne (.inr n) (endOf (.inl j) C) m = some ((),
      ((m.setLink (.inr n) n).setLink (endOf (.inl j) C) n).setLink (.inr n) (D.headD 0)) := by
    simp [spliceAfterOne, bind, StateT.bind, readNext_eq, writeNext_eq, hf, hlinkf, hlinkn, hn, hfn, hfn.symm,
      -List.headD_eq_head?_getD]
  refine Leads.of_eq hrun ⟨h.of_link_eq ?_ (by simp), by simp⟩
  have hself : Function.update m.link (endOf (.inl j) C) n = m.link := Function.update_eq_self_iff.mpr hlinkf.symm
  simp only [Memory.link_setLink]
  rw [Function.update_comm hfn, Function.update_idem, Function.update_comm hfn.symm, hself,
    ← hlinkn, Function.update_eq_self]

theorem spliceAfterAll_spec (h : Holds m chain) (hp : m.Readable p) (hj : chain j = []) :
    Leads (spliceAfterAll p j) m fun _ m' => Holds m' chain ∧ m'.data = m.data := by
  have hlist : m.list j = 0 := by
    have hpath := h.threads j
    rwa [hj] at hpath
  have hne : p ≠ .inl j := by
    obtain ⟨x, -, rfl⟩ := hp
    exact Sum.inr_ne_inl
  have hrun : spliceAfterAll p j m =
      some ((), ((m.setLink p 0).setLink (.inl j) 0).setLink p (m.link p)) := by
    have hlist' : (m.setLink p 0).list j = 0 := by
      obtain ⟨x, -, rfl⟩ := hp
      exact hlist
    simp [spliceAfterAll, bind, StateT.bind, getList, setList_eq, readNext_eq, writeNext_eq, hp, hlist, hne]
  refine Leads.of_eq hrun ⟨h.of_link_eq ?_ (by simp), by simp⟩
  have hzero : Function.update m.link (.inl j) 0 = m.link := Function.update_eq_self_iff.mpr hlist.symm
  simp only [Memory.link_setLink]
  rw [Function.update_comm hne, Function.update_idem, hzero, Function.update_eq_self]

end XviOs.ForwardList
