import Mathlib.Data.List.Nodup
import Mathlib.Tactic

namespace XviOs.Library.LinkedList

variable {α : Type} [DecidableEq α]

/-- The doubly linked list threaded by `next` and `prev` from `head`, whose
first node points back at `before` and whose last node points on to `null`. -/
def DList (null : α) (next prev : α → α) (head before : α) : List α → Prop
  | [] => head = null
  | a :: l => head = a ∧ a ≠ null ∧ prev a = before ∧ DList null next prev (next a) a l

variable {null : α} {next prev next' prev' : α → α} {head before a : α} {l l₁ l₂ : List α}

omit [DecidableEq α] in
theorem DList.ne_null (h : DList null next prev head before l) : ∀ x ∈ l, x ≠ null := by
  induction l generalizing head before with
  | nil => simp
  | cons a l ih =>
      obtain ⟨_, hne, _, ht⟩ := h
      intro x hx
      rcases List.mem_cons.mp hx with rfl | hx
      · exact hne
      · exact ih ht x hx

omit [DecidableEq α] in
theorem DList.head_eq (h : DList null next prev head before l) : head = l.headD null := by
  cases l with
  | nil => exact h
  | cons a l => exact h.1

omit [DecidableEq α] in
theorem DList.congr (h : DList null next prev head before l)
    (hn : ∀ x ∈ l, next' x = next x) (hp : ∀ x ∈ l, prev' x = prev x) :
    DList null next' prev' head before l := by
  induction l generalizing head before with
  | nil => exact h
  | cons a l ih =>
      obtain ⟨hh, hne, hpa, ht⟩ := h
      refine ⟨hh, hne, (hp a (by simp)).trans hpa, ?_⟩
      rw [hn a (by simp)]
      exact ih ht (fun x hx => hn x (by simp [hx])) (fun x hx => hp x (by simp [hx]))

omit [DecidableEq α] in
theorem DList.next_eq (h : DList null next prev head before (l₁ ++ a :: l₂)) :
    next a = l₂.headD null := by
  induction l₁ generalizing head before with
  | nil => exact DList.head_eq h.2.2.2
  | cons b l₁ ih => exact ih h.2.2.2

omit [DecidableEq α] in
theorem DList.prev_eq (h : DList null next prev head before (l₁ ++ a :: l₂)) :
    prev a = l₁.getLastD before := by
  induction l₁ generalizing head before with
  | nil => exact h.2.2.1
  | cons b l₁ ih =>
      rw [ih h.2.2.2]
      cases l₁ <;> rfl

omit [DecidableEq α] in
theorem getLastD_mem {b : α} (h : l ≠ []) : l.getLastD b ∈ l := by
  cases l with
  | nil => exact absurd rfl h
  | cons a l =>
      rw [List.getLastD_cons]
      cases l with
      | nil => simp
      | cons c l => simp [List.getLastD_eq_getLast?, List.getLast?_eq_some_getLast (List.cons_ne_nil c l)]

/-- Bypassing a node: its neighbours are threaded to each other, every other
thread is kept, and the threads of the node itself do not matter any more. -/
theorem DList.unlink (h : DList null next prev head before (l₁ ++ a :: l₂))
    (hnodup : (l₁ ++ a :: l₂).Nodup) (hfresh : before ∉ l₁ ++ a :: l₂)
    (hn : ∀ x ∈ l₁ ++ l₂, next' x = if x = prev a then next a else next x)
    (hp : ∀ x ∈ l₁ ++ l₂, prev' x = if x = next a then prev a else prev x) :
    DList null next' prev' (if l₁ = [] then next a else head) before (l₁ ++ l₂) := by
  induction l₁ generalizing head before with
  | nil =>
      obtain ⟨_, _, hpa, ht⟩ := h
      simp only [List.nil_append, List.mem_cons, not_or] at hfresh
      simp only [List.nil_append, List.nodup_cons] at hnodup
      cases l₂ with
      | nil => exact ht
      | cons b l₂ =>
          obtain ⟨hb, hbn, _, hbt⟩ := ht
          have hnot : ∀ x ∈ b :: l₂, x ≠ prev a := by
            intro x hx he
            exact hfresh.2 (by rw [← hpa, ← he]; exact hx)
          have hb' : prev' b = before := by rw [hp b (by simp), if_pos hb.symm, hpa]
          have hnb : next' b = next b := by rw [hn b (by simp), if_neg (hnot b (by simp))]
          refine ⟨by simpa using hb, hbn, hb', ?_⟩
          rw [hnb]
          refine hbt.congr (fun x hx => ?_) (fun x hx => ?_)
          · rw [hn x (by simp [hx]), if_neg (hnot x (by simp [hx]))]
          · have hxb : x ≠ b := by
              rintro rfl
              exact (List.nodup_cons.mp hnodup.2).1 hx
            rw [hp x (by simp [hx]), if_neg (by rw [hb]; exact hxb)]
  | cons c l₁ ih =>
      have hpa := DList.prev_eq h
      have hna := DList.next_eq h
      obtain ⟨hh, hcn, hpc, ht⟩ := h
      simp only [List.cons_append, List.nodup_cons, List.mem_append, List.mem_cons, not_or] at hnodup
      have hcfresh : c ∉ l₁ ++ a :: l₂ := by simpa using hnodup.1
      have ih' := ih ht hnodup.2 hcfresh (fun x hx => hn x (by simp at hx ⊢; tauto))
        (fun x hx => hp x (by simp at hx ⊢; tauto))
      have hcnext : c ≠ next a := by
        rw [hna]
        cases l₂ with
        | nil => exact hcn
        | cons b l₂ => intro he; exact hnodup.1.2.2 (by simp [he])
      have hcp : prev' c = before := by rw [hp c (by simp), if_neg hcnext, hpc]
      refine ⟨by simpa using hh, hcn, hcp, ?_⟩
      have hsame : (if l₁ = [] then next a else next c) = next' c := by
        rw [hn c (by simp)]
        by_cases hl : l₁ = []
        · subst hl
          have : prev a = c := by simpa using hpa
          rw [if_pos rfl, if_pos this.symm]
        · have hne : c ≠ prev a := by
            intro he
            have hm : prev a ∈ l₁ := by
              rw [hpa, List.getLastD_cons]
              exact getLastD_mem hl
            exact hnodup.1.1 (by rw [he]; exact hm)
          rw [if_neg hl, if_neg hne]
      rw [← hsame]
      exact ih'

/-- Threading a new node in between `l₁` and `l₂`. -/
theorem DList.link (h : DList null next prev head before (l₁ ++ l₂))
    (hnodup : (l₁ ++ l₂).Nodup) (ha : a ≠ null)
    (hna : next' a = l₂.headD null) (hpa : prev' a = l₁.getLastD before)
    (hn : ∀ x ∈ l₁ ++ l₂, next' x = if l₁.getLast? = some x then a else next x)
    (hp : ∀ x ∈ l₁ ++ l₂, prev' x = if l₂.head? = some x then a else prev x) :
    DList null next' prev' (if l₁ = [] then a else head) before (l₁ ++ a :: l₂) := by
  induction l₁ generalizing head before with
  | nil =>
      refine ⟨by simp, ha, by simpa using hpa, ?_⟩
      rw [hna]
      cases l₂ with
      | nil => rfl
      | cons b l₂ =>
          obtain ⟨_, hbn, _, hbt⟩ := h
          have hnb : next' b = next b := by rw [hn b (by simp)]; simp
          have hpb : prev' b = a := by rw [hp b (by simp)]; simp
          refine ⟨rfl, hbn, hpb, ?_⟩
          rw [hnb]
          refine hbt.congr (fun x hx => ?_) (fun x hx => ?_)
          · rw [hn x (by simp [hx])]; simp
          · have hbx : b ≠ x := by
              rintro rfl
              exact (List.nodup_cons.mp hnodup).1 hx
            rw [hp x (by simp [hx])]; simp [hbx]
  | cons c l₁ ih =>
      obtain ⟨hh, hcn, hpc, ht⟩ := h
      simp only [List.cons_append, List.nodup_cons, List.mem_append, not_or] at hnodup
      have hlast (x : α) (hx : x ∈ l₁ ++ l₂) :
          (c :: l₁).getLast? = some x ↔ l₁.getLast? = some x := by
        cases l₁ with
        | nil =>
            have hcx : c ≠ x := by rintro rfl; exact hnodup.1.2 (by simpa using hx)
            simp [hcx]
        | cons d l₁ => simp [List.getLast?_cons_cons]
      have ih' := ih ht hnodup.2 (by rw [hpa, List.getLastD_cons])
        (fun x hx => by
          rw [hn x (by simp at hx ⊢; tauto)]
          exact if_congr (hlast x hx) rfl rfl)
        (fun x hx => hp x (by simp at hx ⊢; tauto))
      have hcp : prev' c = before := by
        rw [hp c (by simp), if_neg, hpc]
        intro he
        exact hnodup.1.2 (List.mem_of_mem_head? he)
      refine ⟨by simpa using hh, hcn, hcp, ?_⟩
      have hsame : (if l₁ = [] then a else next c) = next' c := by
        rw [hn c (by simp)]
        cases l₁ with
        | nil => simp
        | cons d l₁ =>
            have hne : (c :: d :: l₁).getLast? ≠ some c := by
              rw [List.getLast?_cons_cons]
              intro he
              exact hnodup.1.1 (List.mem_of_getLast? he)
            rw [if_neg (by simp), if_neg hne]
      rw [← hsame]
      exact ih'

end XviOs.Library.LinkedList

namespace XviOs.Library.LinkedList

variable {α ι : Type} [DecidableEq α] [DecidableEq ι]

omit [DecidableEq α] [DecidableEq ι] in
/-- Lists that share their threads, and no nodes. -/
structure Family (null : α) (next prev : α → α) (head : ι → α) (chain : ι → List α) : Prop where
  list : ∀ k, DList null next prev (head k) null (chain k)
  nodup : ∀ k, (chain k).Nodup
  disjoint : ∀ j k a, a ∈ chain j → a ∈ chain k → j = k

variable {null a : α} {next prev next' prev' : α → α} {head : ι → α} {chain : ι → List α} {j k : ι}

namespace Family

omit [DecidableEq α] [DecidableEq ι] in
theorem ne_null (h : Family null next prev head chain) (ha : a ∈ chain k) : a ≠ null := (h.list k).ne_null a ha

omit [DecidableEq α] [DecidableEq ι] in
theorem head_mem (h : Family null next prev head chain) (hk : head k ≠ null) : head k ∈ chain k := by
  have heq := (h.list k).head_eq
  cases hl : chain k with
  | nil =>
    rw [hl] at heq
    exact absurd heq hk
  | cons b l =>
    rw [hl] at heq
    rw [heq]
    exact List.mem_cons_self

/-- A node leaves its list. -/
theorem remove (h : Family null next prev head chain) (ha : a ∈ chain k)
    (hn : ∀ x, x ≠ a → x ≠ null → next' x = if x = prev a then next a else next x)
    (hp : ∀ x, x ≠ a → x ≠ null → prev' x = if x = next a then prev a else prev x) :
    Family null next' prev' (Function.update head k (if prev a = null then next a else head k))
      (Function.update chain k ((chain k).erase a)) := by
  obtain ⟨l₁, l₂, hchain⟩ := List.append_of_mem ha
  have hlist := h.list k
  have hnodup := h.nodup k
  rw [hchain] at hlist hnodup
  have hne : ∀ x ∈ l₁ ++ l₂, x ≠ a := by
    rintro x hx rfl
    rw [List.nodup_middle, List.nodup_cons] at hnodup
    exact hnodup.1 hx
  have herase : (l₁ ++ a :: l₂).erase a = l₁ ++ l₂ := by
    rw [List.erase_append_right _ fun hx => hne a (List.mem_append_left _ hx) rfl, List.erase_cons_head]
  have hmem : ∀ x ∈ l₁ ++ l₂, x ∈ chain k := by
    intro x hx
    rw [hchain]
    obtain hx | hx := List.mem_append.mp hx
    · exact List.mem_append_left _ hx
    · exact List.mem_append_right _ (List.mem_cons_of_mem _ hx)
  have hprev : prev a = null ∨ prev a ∈ chain k := by
    rw [hlist.prev_eq]
    cases l₁ with
    | nil => exact Or.inl rfl
    | cons b l => exact Or.inr (hmem _ (List.mem_append_left _ (getLastD_mem (by simp))))
  have hnext : next a = null ∨ next a ∈ chain k := by
    rw [hlist.next_eq]
    cases l₂ with
    | nil => exact Or.inl rfl
    | cons b l => exact Or.inr (hmem b (List.mem_append_right _ List.mem_cons_self))
  have hfirst : prev a = null ↔ l₁ = [] := by
    rw [hlist.prev_eq]
    cases l₁ with
    | nil => exact iff_of_true rfl rfl
    | cons b l =>
      refine iff_of_false ?_ (by simp)
      exact h.ne_null (hmem _ (List.mem_append_left _ (getLastD_mem (by simp))))
  refine ⟨?_, ?_, ?_⟩
  · intro i
    obtain rfl | hik := eq_or_ne i k
    · rw [Function.update_self, Function.update_self, hchain, herase]
      simp only [hfirst]
      refine hlist.unlink hnodup ?_ ?_ ?_
      · intro hnull
        exact h.ne_null (hchain ▸ hnull) rfl
      · exact fun x hx => hn x (hne x hx) (h.ne_null (hmem x hx))
      · exact fun x hx => hp x (hne x hx) (h.ne_null (hmem x hx))
    · rw [Function.update_of_ne hik, Function.update_of_ne hik]
      have hother : ∀ x ∈ chain i, x ∉ chain k := fun x hx hx' => hik (h.disjoint i k x hx hx')
      apply (h.list i).congr
      · intro x hx
        rw [hn x (fun hxa => hother x hx (hxa ▸ ha)) (h.ne_null hx), if_neg]
        rintro rfl
        exact hprev.elim (h.ne_null hx) (hother _ hx)
      · intro x hx
        rw [hp x (fun hxa => hother x hx (hxa ▸ ha)) (h.ne_null hx), if_neg]
        rintro rfl
        exact hnext.elim (h.ne_null hx) (hother _ hx)
  · intro i
    obtain rfl | hik := eq_or_ne i k
    · rw [Function.update_self]
      exact (h.nodup i).erase a
    · rw [Function.update_of_ne hik]
      exact h.nodup i
  · have hsub : ∀ i x, x ∈ Function.update chain k ((chain k).erase a) i → x ∈ chain i := by
      intro i x hx
      obtain rfl | hik := eq_or_ne i k
      · rw [Function.update_self] at hx
        exact List.mem_of_mem_erase hx
      · rwa [Function.update_of_ne hik] at hx
    exact fun i j x hi hj => h.disjoint i j x (hsub i x hi) (hsub j x hj)

/-- A new node becomes the first of a list. -/
theorem insert (h : Family null next prev head chain) (ha : a ≠ null) (hfresh : ∀ j, a ∉ chain j)
    (hna : next' a = head k) (hpa : prev' a = null) (hn : ∀ x, x ≠ a → x ≠ null → next' x = next x)
    (hp : ∀ x, x ≠ a → x ≠ null → prev' x = if x = head k then a else prev x) :
    Family null next' prev' (Function.update head k a) (Function.update chain k (a :: chain k)) := by
  have hne : ∀ i, ∀ x ∈ chain i, x ≠ a := by
    rintro i x hx rfl
    exact hfresh i hx
  have hhead := (h.list k).head_eq
  refine ⟨?_, ?_, ?_⟩
  · intro i
    obtain rfl | hik := eq_or_ne i k
    · rw [Function.update_self, Function.update_self]
      have hlink : DList null next' prev' (if ([] : List α) = [] then a else head i) null ([] ++ a :: chain i) := by
        apply (h.list i).link (h.nodup i) ha (hna.trans hhead) hpa
        · intro x hx
          rw [hn x (hne i x hx) (h.ne_null hx), if_neg (by simp)]
        · intro x hx
          rw [hp x (hne i x hx) (h.ne_null hx)]
          apply if_congr _ rfl rfl
          rw [hhead]
          cases hl : chain i with
          | nil => exact absurd (hl ▸ hx) (by simp)
          | cons b l => simp [eq_comm]
      rwa [if_pos rfl] at hlink
    · rw [Function.update_of_ne hik, Function.update_of_ne hik]
      apply (h.list i).congr
      · exact fun x hx => hn x (hne i x hx) (h.ne_null hx)
      · intro x hx
        rw [hp x (hne i x hx) (h.ne_null hx), if_neg]
        rintro rfl
        exact hik (h.disjoint i k _ hx (h.head_mem (h.ne_null hx)))
  · intro i
    obtain rfl | hik := eq_or_ne i k
    · rw [Function.update_self]
      exact List.nodup_cons.mpr ⟨hfresh i, h.nodup i⟩
    · rw [Function.update_of_ne hik]
      exact h.nodup i
  · have hcases : ∀ i x, x ∈ Function.update chain k (a :: chain k) i → x = a ∧ i = k ∨ x ∈ chain i := by
      intro i x hx
      obtain rfl | hik := eq_or_ne i k
      · rw [Function.update_self] at hx
        exact (List.mem_cons.mp hx).imp_left fun hxa => ⟨hxa, rfl⟩
      · rw [Function.update_of_ne hik] at hx
        exact Or.inr hx
    intro i j x hi hj
    obtain ⟨rfl, rfl⟩ | hi' := hcases i x hi
    · obtain ⟨-, rfl⟩ | hj' := hcases j x hj
      · rfl
      · exact absurd hj' (hfresh j)
    · obtain ⟨rfl, -⟩ | hj' := hcases j x hj
      · exact absurd hi' (hfresh i)
      · exact h.disjoint i j x hi' hj'

end Family

end XviOs.Library.LinkedList
