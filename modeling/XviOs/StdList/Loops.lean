import XviOs.StdList.Operations

namespace XviOs.StdList

open Library.Links Library.StateProgram Library.Sequences

variable {ι α : Type} [DecidableEq ι] {a : Allocator} {m m' : Memory ι α} {chain : ι → List ℕ} {k l : ι}
  {A B M : List ℕ} {e n : ℕ} {x : α}

omit [DecidableEq ι] in
theorem Holds.length_le (h : Holds m chain) (hk : chain k = A ++ M ++ B) : M.length ≤ m.live.card := by
  have hnodup := h.apart.nodup k
  rw [hk, List.nodup_append, List.nodup_append] at hnodup
  rw [← List.toFinset_card_of_nodup hnodup.1.2.1]
  apply Finset.card_le_card
  intro x hx
  rw [List.mem_toFinset] at hx
  exact h.mem_live (k := k) (by simp [hk, hx])

omit [DecidableEq ι] in
theorem contents_of_data (hdata : m'.data = m.data) (chain : ι → List ℕ) : contents m' chain = contents m chain :=
  contents_congr fun _ _ _ => by rw [hdata]

theorem contents_update (m : Memory ι α) (chain : ι → List ℕ) (k : ι) (l : List ℕ) :
    contents m (Function.update chain k l) = Function.update (contents m chain) k (l.map m.data) :=
  map_update m.data chain k l

theorem eraseLoop_spec (h : Holds m chain) (hk : chain k = A ++ M ++ B) (hn : M.length < n) (parent : Option ι) :
    Leads (eraseLoop k ⟨parent, B.headD 0⟩ n ⟨parent, (M ++ B).headD 0⟩) m fun _ m' =>
      Holds m' (Function.update chain k (A ++ B)) ∧ m'.data = m.data := by
  induction n generalizing m chain M with
  | zero => exact absurd hn (Nat.not_lt_zero _)
  | succ n ih =>
    unfold eraseLoop
    cases M with
    | nil =>
      rw [List.nil_append, if_neg (not_not.mpr rfl), ← List.append_nil A, ← hk, Function.update_eq_self]
      exact Leads.pure ⟨h, rfl⟩
    | cons e M =>
      have hne : (⟨parent, e⟩ : ConstIterator ι) ≠ ⟨parent, B.headD 0⟩ := by
        rintro heq
        cases heq
        exact h.apart.headD_notMem hk List.mem_cons_self
      have he : chain k = A ++ [e] ++ (M ++ B) := by simp [hk]
      rw [List.cons_append, List.headD_cons, if_pos hne]
      apply (erase_spec h he).bind
      rintro _ m₁ ⟨rfl, h₁, hdata⟩
      have hk₁ : Function.update chain k (A ++ (M ++ B)) k = A ++ M ++ B := by
        rw [Function.update_self, List.append_assoc]
      apply (ih h₁ hk₁ (Nat.lt_of_succ_lt_succ hn)).mono
      rintro _ m₂ ⟨h₂, hdata₂⟩
      rw [Function.update_idem] at h₂
      exact ⟨h₂, hdata₂.trans hdata⟩

theorem eraseRange_spec (h : Holds m chain) (hk : chain k = A ++ M ++ B) (parent : Option ι) :
    Leads (eraseRange k ⟨parent, (M ++ B).headD 0⟩ ⟨parent, B.headD 0⟩) m fun _ m' =>
      Holds m' (Function.update chain k (A ++ B)) ∧ m'.data = m.data := by
  apply Leads.bind_eq (show bound m = some (m.live.card + 1, m) from rfl)
  exact eraseLoop_spec h hk (Nat.lt_succ_of_le (h.length_le hk)) parent

/-- From a place on all elements are erased. -/
theorem eraseToEnd_spec (h : Holds m chain) (hk : chain k = A ++ B) :
    Leads (eraseRange k ⟨none, B.headD 0⟩ ⟨none, 0⟩) m fun _ m' =>
      Holds m' (Function.update chain k A) ∧ m'.data = m.data := by
  have hspec := eraseRange_spec (M := B) (B := []) h (by rw [hk, List.append_nil]) none
  rwa [List.append_nil, List.append_nil] at hspec

theorem clear_spec (h : Holds m chain) :
    Leads (clear k) m fun _ m' => Holds m' (Function.update chain k []) ∧ m'.data = m.data := by
  apply Leads.bind_eq (getList_eq k m)
  rw [(h.forward k).link_eq]
  exact eraseToEnd_spec h (List.nil_append _).symm

theorem popFront_spec (h : Holds m chain) :
    Leads (popFront k) m fun _ m' => Holds m' (Function.update chain k (chain k).tail) ∧ m'.data = m.data := by
  apply Leads.bind_eq (getList_eq k m)
  rw [(h.forward k).link_eq]
  cases hk : chain k with
  | nil =>
    rw [if_neg (by simp), List.tail_nil, Function.update_eq_self_iff.mpr hk.symm]
    exact Leads.pure ⟨h, rfl⟩
  | cons e B =>
    have he0 : e ≠ 0 := h.apart.ne_null (k := k) (by simp [hk])
    rw [List.headD_cons, if_pos he0]
    exact removeAndDeleteElement_spec (A := []) h hk

theorem popBack_spec (h : Holds m chain) :
    Leads (popBack k) m fun _ m' => Holds m' (Function.update chain k (chain k).dropLast) ∧ m'.data = m.data := by
  have hlast : m.prevLink (.inl k) = (chain k).reverse.headD 0 := (h.backward k).link_eq
  apply Leads.bind_eq (getLast_eq k m)
  rw [hlast]
  obtain hk | ⟨A, e, hk⟩ := List.eq_nil_or_concat (chain k)
  · rw [hk, if_neg (by simp), List.dropLast_nil, Function.update_eq_self_iff.mpr hk.symm]
    exact Leads.pure ⟨h, rfl⟩
  · rw [List.concat_eq_append] at hk
    have he0 : e ≠ 0 := h.apart.ne_null (k := k) (by simp [hk])
    have hspec := removeAndDeleteElement_spec (A := A) (B := []) h (by rw [hk, List.append_nil])
    rw [hk, List.reverse_concat, List.headD_cons, if_pos he0, List.dropLast_concat]
    rwa [List.append_nil, List.append_nil] at hspec

omit [DecidableEq ι] in
theorem advance_eq (h : Holds m chain) (hk : chain k = A ++ B) (hn : n ≤ B.length) :
    advance n (B.headD 0) m = some ((B.drop n).headD 0, m) := by
  induction n generalizing A B with
  | zero => rfl
  | succ n ih =>
    cases B with
    | nil => cases hn
    | cons x B =>
      have hk' : chain k = (A ++ [x]) ++ B := by simp [hk]
      have hlink : m.nextLink (.inr x) = B.headD 0 := by rw [← h.forward.link_endOf hk', endOf_concat]
      rw [advance, List.headD_cons]
      change (readNext x m).bind _ = _
      rw [readNext_eq (h.mem_live (k := k) (by simp [hk])), hlink]
      exact ih hk' (Nat.le_of_succ_le_succ hn)

/-- As many elements are kept as there are to go. -/
theorem shrink_spec (h : Holds m chain) (n : ℕ) :
    Leads (shrink k n) m fun _ m' =>
      Holds m' (Function.update chain k ((chain k).take ((chain k).length - n))) ∧ m'.data = m.data := by
  have hlist : m.nextLink (.inl k) = (chain k).headD 0 := (h.forward k).link_eq
  apply Leads.bind_eq (getCount_eq k m)
  apply Leads.bind_eq (getList_eq k m)
  rw [hlist, h.count]
  apply Leads.bind_eq (advance_eq h (List.nil_append _).symm (Nat.sub_le _ n))
  exact eraseToEnd_spec h (List.take_append_drop _ _).symm

theorem emplaceBack_spec (h : Holds m chain) (hk : chain k ≠ []) (x : α) :
    Leads (emplaceBack a k x) m fun _ m' => ∃ chain', Holds m' chain' ∧ chain' k ≠ [] ∧
      contents m' chain' = Function.update (contents m chain) k (contents m chain k ++ [x]) := by
  have hlast : m.prevLink (.inl k) = (chain k).reverse.headD 0 := (h.backward k).link_eq
  apply Leads.bind_eq (getLast_eq k m)
  rw [hlast]
  apply (insertNewElementAfter_spec h (List.append_nil (chain k)).symm hk x).bind
  rintro e m' ⟨h', hcontents⟩
  refine Leads.pure ⟨_, h', by simp, ?_⟩
  have hlen : (chain k).length = (contents m chain k).length := (List.length_map _).symm
  rw [hcontents, hlen, insertAt, List.take_length, List.drop_length, List.append_nil]

theorem emplaceBacks_spec (h : Holds m chain) (hk : chain k ≠ []) (x : α) (n : ℕ) :
    Leads (emplaceBacks a k x n) m fun _ m' => ∃ chain', Holds m' chain' ∧
      contents m' chain' = Function.update (contents m chain) k (contents m chain k ++ List.replicate n x) := by
  induction n generalizing m chain with
  | zero =>
    refine Leads.pure ⟨chain, h, ?_⟩
    rw [List.replicate_zero, List.append_nil, Function.update_eq_self]
  | succ n ih =>
    apply (emplaceBack_spec h hk x).bind
    rintro _ m₁ ⟨chain₁, h₁, hk₁, hcontents⟩
    apply (ih h₁ hk₁).mono
    rintro _ m₂ ⟨chain₂, h₂, hcontents₂⟩
    refine ⟨chain₂, h₂, ?_⟩
    rw [hcontents₂, hcontents, Function.update_self, Function.update_idem, List.append_assoc, List.replicate_succ,
      List.singleton_append]

theorem assignLoop_spec (h : Holds m chain) (hk : chain k = A ++ B) (xs : List α) :
    Leads (assignLoop xs (B.headD 0)) m fun r m' => r = ((B.drop xs.length).headD 0, xs.drop B.length) ∧
      Holds m' chain ∧ contents m' chain = Function.update (contents m chain) k
        (A.map m.data ++ xs.take B.length ++ (B.drop xs.length).map m.data) := by
  have hcontents : contents m chain k = A.map m.data ++ B.map m.data := by rw [contents, hk, List.map_append]
  induction xs generalizing m A B with
  | nil =>
    refine Leads.pure ⟨by simp, h, ?_⟩
    rw [List.take_nil, List.append_nil, List.length_nil, List.drop_zero, ← hcontents, Function.update_eq_self]
  | cons x xs ih =>
    cases B with
    | nil =>
      refine Leads.pure ⟨by simp, h, ?_⟩
      rw [List.map_nil, List.append_nil] at hcontents
      rw [List.length_nil, List.take_zero, List.append_nil, List.drop_nil, List.map_nil, List.append_nil, ← hcontents,
        Function.update_eq_self]
    | cons b B =>
      have hk' : chain k = A ++ [b] ++ B := by simp [hk]
      have hb : b ∈ m.live := h.mem_live (k := k) (by simp [hk])
      have hlink : m.nextLink (.inr b) = B.headD 0 := by rw [← h.forward.link_endOf hk', endOf_concat]
      obtain ⟨-, -, hbA, -, hbB⟩ := (Apart.replaces_nil 0 hk').nodup_parts h.apart
      have hA : b ∉ A := fun hA => hbA b hA List.mem_cons_self
      have hB : b ∉ B := hbB b List.mem_cons_self
      have hb0 : b ≠ 0 := h.apart.ne_null (k := k) (by simp [hk])
      have hother : ∀ i, i ≠ k → b ∉ chain i := fun i hik hi => hik (h.apart.disjoint i k b hi (by simp [hk]))
      have hsame : ∀ l : List ℕ, b ∉ l → l.map (Function.update m.data b x) = l.map m.data := by
        intro l hl
        apply List.map_congr_left
        intro y hy
        apply Function.update_of_ne
        rintro rfl
        exact hl hy
      have hwrite : contents (m.written b x) chain =
          Function.update (contents m chain) k (A.map m.data ++ [x] ++ B.map m.data) :=
        map_write hk' hA hB hother m.data x
      rw [assignLoop, List.headD_cons, if_neg hb0]
      apply Leads.bind_eq (writeData_eq hb x)
      apply Leads.bind_eq (readNext_eq (m := m.written b x) hb)
      have hnext : (m.written b x).nextLink (.inr b) = B.headD 0 := hlink
      have hdata : (m.written b x).data = Function.update m.data b x := rfl
      rw [hnext]
      have hrest := ih (m := m.written b x) (h.of_eq rfl rfl rfl rfl) hk' (by
        rw [hwrite, hdata, Function.update_self, List.map_append, hsame A hA, hsame B hB, List.map_singleton,
          Function.update_self])
      apply hrest.mono
      rintro r m' ⟨hr, h', hcontents'⟩
      refine ⟨hr, h', ?_⟩
      rw [hcontents', hwrite, hdata, Function.update_idem, List.map_append, hsame A hA, List.map_singleton,
        Function.update_self, hsame _ fun hmem => hB (List.mem_of_mem_drop hmem)]
      simp

/-- What is left to do after the loop of an assignment: the elements behind the last one assigned to are erased, or new
ones are put in for the values that are left. -/
theorem assign_spec (insertRest : ℕ → List α → Program ι α ℕ) (h : Holds m chain) (xs : List α)
    (hxs : chain k ≠ [] ∨ xs = [])
    (hinsert : ∀ (m' : Memory ι α) (rest : List α), Holds m' chain → (chain k ≠ [] ∨ rest = []) →
      Leads (insertRest 0 rest) m' fun _ m'' => ∃ chain', Holds m'' chain' ∧
        (rest = xs.drop (chain k).length → contents m'' chain' =
          Function.update (contents m' chain) k (insertAt (contents m' chain k) (chain k).length rest))) :
    Leads (do
      let (i, rest) ← assignLoop xs (← getList k)
      if i ≠ 0 then
        eraseRange k ⟨none, i⟩ ⟨none, 0⟩
      else
        let _ ← insertRest i rest) m fun _ m' => ∃ chain', Holds m' chain' ∧
      contents m' chain' = Function.update (contents m chain) k xs := by
  have hlist : m.nextLink (.inl k) = (chain k).headD 0 := (h.forward k).link_eq
  apply Leads.bind_eq (getList_eq k m)
  rw [hlist]
  apply (assignLoop_spec h (List.nil_append _).symm xs).bind
  rintro _ m₁ ⟨rfl, h₁, hcontents⟩
  rw [List.map_nil, List.nil_append] at hcontents
  have hsplit := (List.take_append_drop xs.length (chain k)).symm
  dsimp only
  split_ifs with hi
  · have hlt : xs.length < (chain k).length := by
      by_contra hle
      exact hi (by rw [List.drop_eq_nil_of_le (Nat.le_of_not_lt hle)]; rfl)
    apply (eraseToEnd_spec h₁ hsplit).mono
    rintro _ m₂ ⟨h₂, hdata⟩
    refine ⟨_, h₂, ?_⟩
    have hk := congrFun hcontents k
    rw [Function.update_self, List.take_of_length_le hlt.le] at hk
    rw [contents_of_data hdata, contents_update, hcontents, Function.update_idem, List.map_take]
    congr 1
    change (contents m₁ chain k).take xs.length = xs
    rw [hk, List.take_left]
  · have hle : (chain k).length ≤ xs.length := by
      by_contra hlt
      rw [List.drop_eq_getElem_cons (Nat.lt_of_not_le hlt), List.headD_cons, ne_eq, not_not] at hi
      exact h.apart.ne_null (List.getElem_mem _) hi
    rw [not_not] at hi
    rw [hi]
    have hrest : chain k ≠ [] ∨ xs.drop (chain k).length = [] := hxs.imp_right fun hnil => by rw [hnil, List.drop_nil]
    apply (hinsert m₁ _ h₁ hrest).bind
    rintro _ m₂ ⟨chain₂, h₂, hcontents₂⟩
    refine Leads.pure ⟨chain₂, h₂, ?_⟩
    have htake : (xs.take (chain k).length).length = (chain k).length := by
      rw [List.length_take, Nat.min_eq_left hle]
    rw [List.drop_eq_nil_of_le hle, List.map_nil, List.append_nil] at hcontents
    rw [hcontents₂ rfl, hcontents, Function.update_self, Function.update_idem, insertAt, List.take_of_length_le htake.le,
      List.drop_eq_nil_of_le htake.le, List.append_nil, List.take_append_drop]

theorem assignRange_spec (h : Holds m chain) (xs : List α) (hxs : chain k ≠ [] ∨ xs = []) :
    Leads (assignRange a k xs) m fun _ m' => ∃ chain', Holds m' chain' ∧
      contents m' chain' = Function.update (contents m chain) k xs := by
  apply assign_spec (insertRange a k) h xs hxs
  intro m' rest h' hrest
  apply (insertRange_spec (B := []) h' (List.append_nil _).symm hrest).mono
  rintro _ m'' ⟨chain', h'', hcontents⟩
  exact ⟨chain', h'', fun _ => hcontents⟩

theorem assignCopies_spec (h : Holds m chain) (n : ℕ) (x : α) (hn : chain k ≠ [] ∨ n = 0) :
    Leads (assignCopies a k n x) m fun _ m' => ∃ chain', Holds m' chain' ∧
      contents m' chain' = Function.update (contents m chain) k (List.replicate n x) := by
  have hxs : chain k ≠ [] ∨ List.replicate n x = [] := hn.imp_right fun h0 => by rw [h0, List.replicate_zero]
  apply assign_spec (fun i rest => insertCopies a k x rest.length i) h _ hxs
  intro m' rest h' hrest
  have hlen : chain k ≠ [] ∨ rest.length = 0 := hrest.imp_right List.length_eq_zero_iff.mpr
  apply (insertCopies_spec (B := []) h' (List.append_nil _).symm hlen x).mono
  rintro _ m'' ⟨chain', h'', hcontents⟩
  refine ⟨chain', h'', fun hcopies => ?_⟩
  rw [hcontents]
  congr 2
  rw [hcopies, List.drop_replicate, List.length_replicate]

theorem removeLoop_spec (h : Holds m chain) (hk : chain k = A ++ B) (pred : α → Bool) {fuel : ℕ}
    (hfuel : B.length < fuel) (n : ℕ) :
    Leads (removeLoop k pred fuel (B.headD 0) n) m fun _ m' =>
      Holds m' (Function.update chain k (A ++ B.filter fun e => !pred (m.data e))) ∧ m'.data = m.data := by
  induction fuel generalizing m chain A B n with
  | zero => exact absurd hfuel (Nat.not_lt_zero _)
  | succ fuel ih =>
    unfold removeLoop
    cases B with
    | nil =>
      rw [List.headD_nil, if_pos rfl, List.filter_nil, ← hk, Function.update_eq_self]
      exact Leads.pure ⟨h, rfl⟩
    | cons e B =>
      have hk' : chain k = A ++ [e] ++ B := by simp [hk]
      have he : e ∈ m.live := h.mem_live (k := k) (by simp [hk])
      have he0 : e ≠ 0 := h.apart.ne_null (k := k) (by simp [hk])
      have hlink : m.nextLink (.inr e) = B.headD 0 := by rw [← h.forward.link_endOf hk', endOf_concat]
      rw [List.headD_cons, if_neg he0]
      apply Leads.bind_eq (show readData e m = some (m.data e, m) from if_pos he)
      cases hpred : pred (m.data e) with
      | true =>
        rw [if_pos rfl, List.filter_cons_of_neg (by simp [hpred])]
        apply (erase_spec h hk').bind
        rintro _ m₁ ⟨rfl, h₁, hdata⟩
        have hrest := ih h₁ (Function.update_self k (A ++ B) chain) (Nat.lt_of_succ_lt_succ hfuel) (n + 1)
        rw [Function.update_idem, hdata] at hrest
        exact hrest
      | false =>
        rw [if_neg Bool.false_ne_true, List.filter_cons_of_pos (by simp [hpred])]
        apply Leads.bind_eq (readNext_eq he)
        rw [hlink]
        have hrest := ih h hk' (Nat.lt_of_succ_lt_succ hfuel) n
        rwa [List.append_assoc, List.singleton_append] at hrest

theorem removeIf_spec (h : Holds m chain) (pred : α → Bool) :
    Leads (removeIf k pred) m fun _ m' =>
      Holds m' (Function.update chain k ((chain k).filter fun e => !pred (m.data e))) ∧ m'.data = m.data := by
  have hlist : m.nextLink (.inl k) = (chain k).headD 0 := (h.forward k).link_eq
  have hlen : (chain k).length ≤ m.live.card := h.length_le (k := k) (A := []) (B := []) (by simp)
  apply Leads.bind_eq (show bound m = some (m.live.card + 1, m) from rfl)
  apply Leads.bind_eq (getList_eq k m)
  rw [hlist]
  exact removeLoop_spec h (List.nil_append _).symm pred (Nat.lt_succ_of_le hlen) 0

theorem uniqueLoop_spec (h : Holds m chain) (hk : chain k = A ++ [e] ++ B) (pred : α → α → Bool) {fuel : ℕ}
    (hfuel : B.length < fuel) (n : ℕ) :
    Leads (uniqueLoop k pred fuel e (B.headD 0) n) m fun _ m' =>
      Holds m' (Function.update chain k (A ++ B.destutter' (fun p q => pred (m.data p) (m.data q) = false) e)) ∧
        m'.data = m.data := by
  induction fuel generalizing m chain A B e n with
  | zero => exact absurd hfuel (Nat.not_lt_zero _)
  | succ fuel ih =>
    unfold uniqueLoop
    cases B with
    | nil =>
      rw [List.headD_nil, if_pos rfl, List.destutter'_nil, ← List.append_nil (A ++ [e]), ← hk, Function.update_eq_self]
      exact Leads.pure ⟨h, rfl⟩
    | cons b B =>
      have hk' : chain k = A ++ [e] ++ [b] ++ B := by simp [hk]
      have he : e ∈ m.live := h.mem_live (k := k) (by simp [hk])
      have hb : b ∈ m.live := h.mem_live (k := k) (by simp [hk])
      have hb0 : b ≠ 0 := h.apart.ne_null (k := k) (by simp [hk])
      have hlink : m.nextLink (.inr b) = B.headD 0 := by rw [← h.forward.link_endOf hk', endOf_concat]
      rw [List.headD_cons, if_neg hb0]
      apply Leads.bind_eq (show readData e m = some (m.data e, m) from if_pos he)
      apply Leads.bind_eq (show readData b m = some (m.data b, m) from if_pos hb)
      cases hpred : pred (m.data e) (m.data b) with
      | true =>
        rw [if_pos rfl, List.destutter'_cons_neg _ (by simp [hpred])]
        apply (erase_spec h hk').bind
        rintro _ m₁ ⟨rfl, h₁, hdata⟩
        have hrest := ih h₁ (Function.update_self k (A ++ [e] ++ B) chain) (Nat.lt_of_succ_lt_succ hfuel) (n + 1)
        rw [Function.update_idem, hdata] at hrest
        exact hrest
      | false =>
        rw [if_neg Bool.false_ne_true, List.destutter'_cons_pos _ (by simp [hpred])]
        apply Leads.bind_eq (readNext_eq hb)
        rw [hlink]
        have hrest := ih h hk' (Nat.lt_of_succ_lt_succ hfuel) n
        rwa [List.append_assoc, List.singleton_append] at hrest

theorem unique_spec (h : Holds m chain) (pred : α → α → Bool) :
    Leads (unique k pred) m fun _ m' =>
      Holds m' (Function.update chain k ((chain k).destutter fun p q => pred (m.data p) (m.data q) = false)) ∧
        m'.data = m.data := by
  have hlist : m.nextLink (.inl k) = (chain k).headD 0 := (h.forward k).link_eq
  apply Leads.bind_eq (getList_eq k m)
  rw [hlist]
  cases hk : chain k with
  | nil =>
    rw [List.headD_nil, if_pos rfl, List.destutter_nil, Function.update_eq_self_iff.mpr hk.symm]
    exact Leads.pure ⟨h, rfl⟩
  | cons e B =>
    have he : e ∈ m.live := h.mem_live (k := k) (by simp [hk])
    have he0 : e ≠ 0 := h.apart.ne_null (k := k) (by simp [hk])
    have hlink : m.nextLink (.inr e) = B.headD 0 := h.forward.link_endOf (A := [e]) hk
    have hlen : B.length ≤ m.live.card := h.length_le (k := k) (A := [e]) (B := []) (by simp [hk])
    rw [List.headD_cons, if_neg he0]
    apply Leads.bind_eq (show bound m = some (m.live.card + 1, m) from rfl)
    apply Leads.bind_eq (readNext_eq he)
    rw [hlink]
    exact uniqueLoop_spec (A := []) h hk pred (Nat.lt_succ_of_le hlen) 0

end XviOs.StdList
