import Mathlib.Data.List.Sort
import XviOs.Library.ListFamily
import XviOs.Allocator.Chunk

namespace XviOs.Allocator.BinList

open Library.LittleEndian Library.LinkedList Chunk

/-- The bin list of the chunks `l`, in order, with the given head. -/
def ListAt (m : Mem) (head : Nat) (l : List Nat) : Prop := DList 0 (next m) (prev m) head 0 l

/-- The `next` and `prev` fields of two chunks do not overlap. -/
def Apart (x y : Nat) : Prop := x + 24 ≤ y ∨ y + 24 ≤ x

/-- Nothing but `next` and `prev` fields of chunks of `l` differs. -/
def OnlyLinks (l : List Nat) (m m' : Mem) : Prop := ∀ y, (∀ x ∈ l, y < x + 8 ∨ x + 24 ≤ y) → m' y = m y

variable {m m' m'' : Mem} {c x head v : Nat} {l l₁ l₂ : List Nat}

theorem OnlyLinks.refl (l : List Nat) (m : Mem) : OnlyLinks l m m := fun _ _ => rfl

theorem OnlyLinks.trans (h : OnlyLinks l m m') (h' : OnlyLinks l m' m'') : OnlyLinks l m m'' :=
  fun y hy => (h' y hy).trans (h y hy)

theorem OnlyLinks.eqOn (h : OnlyLinks l m m') {lo hi : Nat} (hd : ∀ x ∈ l, hi ≤ x + 8 ∨ x + 24 ≤ lo) :
    EqOn m m' lo hi := by
  intro y hl hh
  refine h y (fun x hx => ?_)
  have := hd x hx
  omega

theorem setNext_onlyLinks (hc : c ∈ l) : OnlyLinks l m (setNext m c v) := by
  intro y hy
  have := hy c hc
  have h : EqOn m (setNext m c v) y (y + 1) := write64_eqOn m (c + 8) v (by omega)
  exact h y (by omega) (by omega)

theorem setPrev_onlyLinks (hc : c ∈ l) : OnlyLinks l m (setPrev m c v) := by
  intro y hy
  have := hy c hc
  have h : EqOn m (setPrev m c v) y (y + 1) := write64_eqOn m (c + 16) v (by omega)
  exact h y (by omega) (by omega)

theorem next_lt (m : Mem) (c : Nat) : next m c < 2 ^ 64 := read64_lt m (c + 8)

theorem prev_lt (m : Mem) (c : Nat) : prev m c < 2 ^ 64 := read64_lt m (c + 16)

theorem next_setNext (hv : v < 2 ^ 64) (h : x = c ∨ Apart x c) :
    next (setNext m c v) x = if x = c then v else next m x := by
  by_cases hx : x = c
  · rw [if_pos hx, hx]
    exact read64_write64_self m (c + 8) hv
  · rw [if_neg hx]
    refine read64_write64_of_disjoint m v ?_
    rcases h with h | h | h <;> omega

theorem prev_setPrev (hv : v < 2 ^ 64) (h : x = c ∨ Apart x c) :
    prev (setPrev m c v) x = if x = c then v else prev m x := by
  by_cases hx : x = c
  · rw [if_pos hx, hx]
    exact read64_write64_self m (c + 16) hv
  · rw [if_neg hx]
    refine read64_write64_of_disjoint m v ?_
    rcases h with h | h | h <;> omega

theorem next_setPrev (h : x = c ∨ Apart x c) : next (setPrev m c v) x = next m x := by
  refine read64_write64_of_disjoint m v ?_
  rcases h with h | h | h <;> omega

theorem prev_setNext (h : x = c ∨ Apart x c) : prev (setNext m c v) x = prev m x := by
  refine read64_write64_of_disjoint m v ?_
  rcases h with h | h | h <;> omega

/-- Chunks of which any two are equal or apart. -/
def Spread (l : List Nat) : Prop := ∀ x ∈ l, ∀ y ∈ l, x = y ∨ Apart x y

theorem ListAt.congr (h : ListAt m head l) (he : ∀ x ∈ l, EqOn m m' (x + 8) (x + 24)) : ListAt m' head l :=
  DList.congr h (fun x hx => read64_congr ((he x hx).mono (by omega) (by omega)))
    (fun x hx => read64_congr ((he x hx).mono (by omega) (by omega)))

/-- `if (p) p->prev = v;` -/
def setPrevIf (m : Mem) (p v : Nat) : Mem := if p ≠ 0 then setPrev m p v else m

/-- `if (p) p->next = v;` -/
def setNextIf (m : Mem) (p v : Nat) : Mem := if p ≠ 0 then setNext m p v else m

theorem setPrevIf_spec {p : Nat} (hs : Spread l) (hv : v < 2 ^ 64) (hp : p = 0 ∨ p ∈ l) (hne : ∀ x ∈ l, x ≠ 0) :
    OnlyLinks l m (setPrevIf m p v) ∧ (∀ x ∈ l, next (setPrevIf m p v) x = next m x) ∧
      ∀ x ∈ l, prev (setPrevIf m p v) x = if x = p then v else prev m x := by
  unfold setPrevIf
  split
  · rename_i h0
    have hmem := hp.resolve_left h0
    exact ⟨setPrev_onlyLinks hmem, fun x hx => next_setPrev (hs x hx p hmem), fun x hx => prev_setPrev hv (hs x hx p hmem)⟩
  · rename_i h0
    refine ⟨OnlyLinks.refl l m, fun _ _ => rfl, fun x hx => ?_⟩
    have hxp : x ≠ p := fun he => h0 (he ▸ hne x hx)
    rw [if_neg hxp]

theorem setNextIf_spec {p : Nat} (hs : Spread l) (hv : v < 2 ^ 64) (hp : p = 0 ∨ p ∈ l) (hne : ∀ x ∈ l, x ≠ 0) :
    OnlyLinks l m (setNextIf m p v) ∧ (∀ x ∈ l, prev (setNextIf m p v) x = prev m x) ∧
      ∀ x ∈ l, next (setNextIf m p v) x = if x = p then v else next m x := by
  unfold setNextIf
  split
  · rename_i h0
    have hmem := hp.resolve_left h0
    exact ⟨setNext_onlyLinks hmem, fun x hx => prev_setNext (hs x hx p hmem), fun x hx => next_setNext hv (hs x hx p hmem)⟩
  · rename_i h0
    refine ⟨OnlyLinks.refl l m, fun _ _ => rfl, fun x hx => ?_⟩
    have hxp : x ≠ p := fun he => h0 (he ▸ hne x hx)
    rw [if_neg hxp]

section Unlink

/-- The neighbours of a chunk in its list are chunks of the list, if they exist. -/
theorem ListAt.neighbours (h : ListAt m head (l₁ ++ c :: l₂)) :
    (next m c = 0 ∨ next m c ∈ l₂) ∧ (prev m c = 0 ∨ prev m c ∈ l₁) := by
  constructor
  · rw [DList.next_eq h]
    cases l₂ <;> simp
  · rw [DList.prev_eq h]
    by_cases hl : l₁ = []
    · simp [hl]
    · exact .inr (getLastD_mem hl)

theorem ListAt.unlinked (h : ListAt m head (l₁ ++ c :: l₂)) (hnodup : (l₁ ++ c :: l₂).Nodup)
    (hn : ∀ x ∈ l₁ ++ l₂, next m' x = if x = prev m c then next m c else next m x)
    (hp : ∀ x ∈ l₁ ++ l₂, prev m' x = if x = next m c then prev m c else prev m x) :
    ListAt m' (if l₁ = [] then next m c else head) (l₁ ++ l₂) :=
  DList.unlink h hnodup (fun h0 => DList.ne_null h 0 h0 rfl) hn hp

theorem unlinkFromList_spec (h : ListAt m head (l₁ ++ c :: l₂)) (hnodup : (l₁ ++ c :: l₂).Nodup)
    (hs : Spread (l₁ ++ c :: l₂)) :
    ListAt (unlinkFromList m c head).1 (unlinkFromList m c head).2 (l₁ ++ l₂) ∧
      OnlyLinks (l₁ ++ c :: l₂) m (unlinkFromList m c head).1 := by
  obtain ⟨hnc, hpc⟩ := h.neighbours
  have hne := DList.ne_null h
  have hcmem : c ∈ l₁ ++ c :: l₂ := by simp
  have hcn : next m c ≠ c := by
    rcases hnc with h0 | hm
    · rw [h0]
      exact (hne c hcmem).symm
    · intro he
      rw [he] at hm
      exact (List.nodup_cons.mp (List.nodup_append.mp hnodup).2.1).1 hm
  have hnmem : next m c = 0 ∨ next m c ∈ l₁ ++ c :: l₂ := hnc.imp_right fun h => by simp [h]
  have hpmem : prev m c = 0 ∨ prev m c ∈ l₁ ++ c :: l₂ := hpc.imp_right fun h => by simp [h]
  obtain ⟨hlinks₁, hnext₁, hprev₁⟩ := setPrevIf_spec hs (prev_lt m c) hnmem hne
  obtain ⟨hlinks₂, hprev₂, hnext₂⟩ := setNextIf_spec (m := setPrevIf m (next m c) (prev m c)) hs (next_lt m c) hpmem hne
  have hprevc : prev (setPrevIf m (next m c) (prev m c)) c = prev m c := by
    rw [hprev₁ c hcmem, if_neg hcn.symm]
  have hresult : unlinkFromList m c head =
      (setNext (setPrev (setNextIf (setPrevIf m (next m c) (prev m c)) (prev m c) (next m c)) c 0) c 0,
        if prev m c ≠ 0 then head else next m c) := by
    have hnextc := hnext₁ c hcmem
    rw [setPrevIf] at hprevc hnextc
    simp only [unlinkFromList, setPrevIf, setNextIf, hprevc, hnextc]
    by_cases h0 : prev m c = 0 <;> simp [h0]
  have hhead : (if prev m c ≠ 0 then head else next m c) = if l₁ = [] then next m c else head := by
    have hpe := DList.prev_eq h
    by_cases hl : l₁ = []
    · subst hl
      rw [if_pos rfl, if_neg (by rw [hpe]; simp)]
    · rw [if_neg hl, if_pos]
      rw [hpe]
      exact hne _ (List.mem_append_left _ (getLastD_mem hl))
  have hmem : ∀ x ∈ l₁ ++ l₂, x ∈ l₁ ++ c :: l₂ ∧ x ≠ c := fun x hx => by
    refine ⟨?_, ?_⟩
    · rcases List.mem_append.mp hx with h | h <;> simp [h]
    rintro rfl
    exact (List.nodup_cons.mp (List.nodup_middle.mp hnodup)).1 hx
  rw [hresult, hhead]
  constructor
  · refine h.unlinked hnodup (fun x hx => ?_) (fun x hx => ?_)
    · obtain ⟨hx', hxc⟩ := hmem x hx
      have hap := hs x hx' c hcmem
      rw [next_setNext (Nat.two_pow_pos 64) hap, if_neg hxc, next_setPrev hap, hnext₂ x hx', hnext₁ x hx']
    · obtain ⟨hx', hxc⟩ := hmem x hx
      have hap := hs x hx' c hcmem
      rw [prev_setNext hap, prev_setPrev (Nat.two_pow_pos 64) hap, if_neg hxc, hprev₂ x hx', hprev₁ x hx']
  · exact hlinks₁.trans (hlinks₂.trans ((setPrev_onlyLinks hcmem).trans (setNext_onlyLinks hcmem)))

end Unlink

section Link

theorem ListAt.linked (h : ListAt m head (l₁ ++ l₂)) (hnodup : (l₁ ++ l₂).Nodup) (hc : c ≠ 0)
    (hnc : next m' c = l₂.headD 0) (hpc : prev m' c = l₁.getLastD 0)
    (hn : ∀ x ∈ l₁ ++ l₂, next m' x = if l₁.getLast? = some x then c else next m x)
    (hp : ∀ x ∈ l₁ ++ l₂, prev m' x = if l₂.head? = some x then c else prev m x) :
    ListAt m' (if l₁ = [] then c else head) (l₁ ++ c :: l₂) :=
  DList.link h hnodup hc hnc hpc hn hp

/-- The chunks of the list that are smaller than `s`, and the rest. -/
def smaller (m : Mem) (s : Nat) (l : List Nat) : List Nat := l.takeWhile (fun x => size m x < s)
def notSmaller (m : Mem) (s : Nat) (l : List Nat) : List Nat := l.dropWhile (fun x => size m x < s)

theorem smaller_append (m : Mem) (s : Nat) (l : List Nat) : smaller m s l ++ notSmaller m s l = l :=
  List.takeWhile_append_dropWhile

theorem smaller_congr {s : Nat} (h : ∀ x ∈ l, size m' x = size m x) : smaller m' s l = smaller m s l := by
  induction l with
  | nil => rfl
  | cons p l ih =>
      have hp := h p (by simp)
      have ht := ih (fun x hx => h x (by simp [hx]))
      simp only [smaller, List.takeWhile_cons, hp] at ht ⊢
      rw [ht]

theorem scanSmaller_spec {p before s fuel : Nat} (h : DList 0 (next m) (prev m) p before (p :: l))
    (hf : l.length < fuel) : scanSmaller m s fuel p = some ((smaller m s l).getLastD p) := by
  induction l generalizing p before fuel with
  | nil =>
      obtain ⟨fuel, rfl⟩ : ∃ k, fuel = k + 1 := ⟨fuel - 1, by omega⟩
      have hn : next m p = 0 := h.2.2.2
      simp [scanSmaller, hn, smaller]
  | cons q l ih =>
      obtain ⟨fuel, rfl⟩ : ∃ k, fuel = k + 1 := ⟨fuel - 1, by omega⟩
      have ht : DList 0 (next m) (prev m) (next m p) p (q :: l) := h.2.2.2
      have hq : next m p = q := ht.1
      rw [hq] at ht
      rw [scanSmaller, hq]
      by_cases hs : size m q < s
      · rw [if_pos ⟨ht.2.1, hs⟩, ih ht (by simp only [List.length_cons] at hf; omega)]
        simp only [smaller, List.takeWhile_cons, hs, decide_true, if_true, List.getLastD_cons]
      · rw [if_neg (fun hc => hs hc.2)]
        simp [smaller, hs]

theorem bestFitInList_spec {before s fuel : Nat} (h : DList 0 (next m) (prev m) head before l)
    (hf : l.length < fuel) : bestFitInList m s fuel head = some ((notSmaller m s l).headD 0) := by
  induction l generalizing head before fuel with
  | nil =>
      obtain ⟨fuel, rfl⟩ : ∃ k, fuel = k + 1 := ⟨fuel - 1, by omega⟩
      have hh : head = 0 := h
      simp [bestFitInList, hh, notSmaller]
  | cons p l ih =>
      obtain ⟨fuel, rfl⟩ : ∃ k, fuel = k + 1 := ⟨fuel - 1, by omega⟩
      obtain ⟨rfl, hne, _, ht⟩ := h
      rw [bestFitInList]
      by_cases hs : size m head < s
      · rw [if_pos ⟨hne, hs⟩, ih ht (by simp only [List.length_cons] at hf; omega)]
        simp [notSmaller, hs]
      · rw [if_neg (fun hc => hs hc.2)]
        simp [notSmaller, hs]

theorem OnlyLinks.size_eq (h : OnlyLinks l m m') (hx : x ∈ l) (hs : Spread l) : size m' x = size m x := by
  have he : EqOn m m' x (x + 8) := h.eqOn fun y hy => by
    rcases hs x hx y hy with rfl | ha | ha <;> omega
  rw [size, size, chunkData, chunkData, read64_congr he]

/-- A list, and beside it a chunk whose links are null. -/
structure Beside (m : Mem) (head c : Nat) (l : List Nat) : Prop where
  list : ListAt m head l
  nodup : (c :: l).Nodup
  spread : Spread (c :: l)
  ne_zero : c ≠ 0
  lt : ∀ x ∈ c :: l, x < 2 ^ 64
  next_eq : next m c = 0
  prev_eq : prev m c = 0

theorem beside_cleared (h : ListAt m head l) (hnodup : (c :: l).Nodup) (hs : Spread (c :: l)) (hc : c ≠ 0)
    (hlt : ∀ x ∈ c :: l, x < 2 ^ 64) : Beside (setNext (setPrev m c 0) c 0) head c l where
  list := by
    have hself (x : Nat) (hx : x ∈ l) : x ≠ c := by
      rintro rfl
      exact (List.nodup_cons.mp hnodup).1 hx
    have hap (x : Nat) (hx : x ∈ l) : x = c ∨ Apart x c := hs x (by simp [hx]) c (by simp)
    refine DList.congr h (fun x hx => ?_) (fun x hx => ?_)
    · rw [next_setNext (Nat.two_pow_pos 64) (hap x hx), if_neg (hself x hx), next_setPrev (hap x hx)]
    · rw [prev_setNext (hap x hx), prev_setPrev (Nat.two_pow_pos 64) (hap x hx), if_neg (hself x hx)]
  nodup := hnodup
  spread := hs
  ne_zero := hc
  lt := hlt
  next_eq := by rw [next_setNext (Nat.two_pow_pos 64) (.inl rfl), if_pos rfl]
  prev_eq := by rw [prev_setNext (.inl rfl), prev_setPrev (Nat.two_pow_pos 64) (.inl rfl), if_pos rfl]

namespace Beside

theorem ne (h : Beside m head c l) (hx : x ∈ l) : x ≠ c := by
  rintro rfl
  exact (List.nodup_cons.mp h.nodup).1 hx

theorem apart (h : Beside m head c l) (hx : x ∈ c :: l) : x = c ∨ Apart x c := h.spread x hx c List.mem_cons_self

/-- The chunk becomes the new head. -/
theorem linkHead (h : Beside m head c (head :: l)) :
    ListAt (setPrev (setNext m c head) head c) c (c :: head :: l) ∧
      OnlyLinks (c :: head :: l) m (setPrev (setNext m c head) head c) := by
  have hhc : c ≠ head := (h.ne List.mem_cons_self).symm
  have hhead := h.lt head (by simp)
  have hc := h.lt c (by simp)
  have haph (x : Nat) (hx : x ∈ c :: head :: l) : x = head ∨ Apart x head := h.spread x hx head (by simp)
  constructor
  · refine ListAt.linked (show ListAt m head ([] ++ head :: l) from h.list) (List.nodup_cons.mp h.nodup).2 h.ne_zero
      ?_ ?_ (fun x hx => ?_) (fun x hx => ?_)
    · rw [next_setPrev (haph c (by simp)), next_setNext hhead (.inl rfl), if_pos rfl]
      rfl
    · rw [prev_setPrev hc (haph c (by simp)), if_neg hhc, prev_setNext (.inl rfl), h.prev_eq]
      rfl
    · have hx' : x ∈ c :: head :: l := List.mem_cons_of_mem c hx
      rw [next_setPrev (haph x hx'), next_setNext hhead (h.apart hx'), if_neg (h.ne hx)]
      simp
    · have hx' : x ∈ c :: head :: l := List.mem_cons_of_mem c hx
      rw [prev_setPrev hc (haph x hx'), prev_setNext (h.apart hx')]
      simp [eq_comm]
  · exact (setNext_onlyLinks (by simp)).trans (setPrev_onlyLinks (by simp))

/-- The links of the chunk and the one from `p` to it are set. -/
def linkedAfter (m : Mem) (c p : Nat) : Mem := setNext (setPrev (setNext m c (next m p)) c p) p c

/-- Where the three assignments leave every link of the list but the one back to the chunk. -/
theorem linkedAfter_spec {p : Nat} (h : Beside m head c l) (hp : p ∈ l) :
    OnlyLinks (c :: l) m (linkedAfter m c p) ∧ next (linkedAfter m c p) c = next m p ∧
      prev (linkedAfter m c p) c = p ∧
      (∀ x ∈ l, next (linkedAfter m c p) x = if x = p then c else next m x) ∧
      ∀ x ∈ l, prev (linkedAfter m c p) x = prev m x := by
  have hpl : p ∈ c :: l := List.mem_cons_of_mem c hp
  have hplt := h.lt p hpl
  have hclt := h.lt c List.mem_cons_self
  have hcp : c = p ∨ Apart c p := h.spread c List.mem_cons_self p hpl
  unfold linkedAfter
  refine ⟨?_, ?_, ?_, fun x hx => ?_, fun x hx => ?_⟩
  · exact (setNext_onlyLinks List.mem_cons_self).trans
      ((setPrev_onlyLinks List.mem_cons_self).trans (setNext_onlyLinks hpl))
  · rw [next_setNext hclt hcp, if_neg (h.ne hp).symm, next_setPrev (.inl rfl), next_setNext (next_lt m p) (.inl rfl),
      if_pos rfl]
  · rw [prev_setNext hcp, prev_setPrev hplt (.inl rfl), if_pos rfl]
  · have hx' : x ∈ c :: l := List.mem_cons_of_mem c hx
    rw [next_setNext hclt (h.spread x hx' p hpl), next_setPrev (h.apart hx'), next_setNext (next_lt m p) (h.apart hx'),
      if_neg (h.ne hx)]
  · have hx' : x ∈ c :: l := List.mem_cons_of_mem c hx
    rw [prev_setNext (h.spread x hx' p hpl), prev_setPrev hplt (h.apart hx'), if_neg (h.ne hx), prev_setNext (h.apart hx')]

/-- The chunk follows `p`, and the one that followed `p` is linked back to it. -/
theorem linkAfter {pre post : List Nat} {p : Nat} (h : Beside m head c (pre ++ post)) (hp : pre.getLast? = some p) :
    ListAt (setPrevIf (linkedAfter m c p) (next (linkedAfter m c p) c) c) head (pre ++ c :: post) ∧
      OnlyLinks (c :: (pre ++ post)) m (setPrevIf (linkedAfter m c p) (next (linkedAfter m c p) c) c) := by
  obtain ⟨front, rfl⟩ : ∃ front, pre = front ++ [p] := List.getLast?_eq_some_iff.mp hp
  have hpmem : p ∈ front ++ [p] ++ post := by simp
  obtain ⟨hlinks, hnextc, hprevc, hnext, hprev⟩ := h.linkedAfter_spec hpmem
  have hnextp : next m p = post.headD 0 := by
    have hsplit := h.list
    rw [List.append_assoc] at hsplit
    exact DList.next_eq hsplit
  rw [hnextp] at hnextc
  have hne (x : Nat) (hx : x ∈ c :: (front ++ [p] ++ post)) : x ≠ 0 := by
    obtain rfl | hx := List.mem_cons.mp hx
    · exact h.ne_zero
    · exact DList.ne_null h.list x hx
  have hpost : post.headD 0 = 0 ∨ post.headD 0 ∈ c :: (front ++ [p] ++ post) := by
    cases post <;> simp
  have hfollows (x : Nat) (hx : x ∈ c :: (front ++ [p] ++ post)) : x = post.headD 0 ↔ post.head? = some x := by
    cases post with
    | nil => simp [hne x hx]
    | cons b post => simp [eq_comm]
  rw [hnextc]
  obtain ⟨hlinks', hnext', hprev'⟩ := setPrevIf_spec h.spread (h.lt c List.mem_cons_self) hpost hne (m := linkedAfter m c p)
  have hhead : (if front ++ [p] = [] then c else head) = head := if_neg (by simp)
  refine ⟨?_, hlinks.trans hlinks'⟩
  rw [← hhead]
  refine ListAt.linked h.list (List.nodup_cons.mp h.nodup).2 h.ne_zero ?_ ?_ (fun x hx => ?_) (fun x hx => ?_)
  · rw [hnext' c List.mem_cons_self, hnextc]
  · have hch : post.head? ≠ some c := fun he => h.ne (List.mem_append_right _ (List.mem_of_mem_head? he)) rfl
    rw [hprev' c List.mem_cons_self, if_neg ((hfollows c List.mem_cons_self).not.mpr hch), hprevc]
    simp
  · rw [hnext' x (List.mem_cons_of_mem c hx), hnext x hx]
    simp [eq_comm]
  · rw [hprev' x (List.mem_cons_of_mem c hx), hprev x hx]
    exact if_congr (hfollows x (List.mem_cons_of_mem c hx)) rfl rfl

end Beside

/-- The chunk is linked in after the chunks smaller than itself. -/
theorem linkIntoSortedList_spec (h : ListAt m head l) (hnodup : (c :: l).Nodup) (hs : Spread (c :: l))
    (hc : c ≠ 0) (hlt : ∀ x ∈ c :: l, x < 2 ^ 64) (hlen : l.length < loopBound) :
    ∃ m' head', linkIntoSortedList m c head = some (m', head') ∧
      ListAt m' head' (smaller m (size m c) l ++ c :: notSmaller m (size m c) l) ∧
      OnlyLinks (c :: l) m m' := by
  have hbeside := beside_cleared h hnodup hs hc hlt
  have hlinks : OnlyLinks (c :: l) m (setNext (setPrev m c 0) c 0) :=
    (setPrev_onlyLinks (by simp)).trans (setNext_onlyLinks (by simp))
  have hsize (x : Nat) (hx : x ∈ c :: l) : size (setNext (setPrev m c 0) c 0) x = size m x := hlinks.size_eq hx hs
  unfold linkIntoSortedList
  generalize setNext (setPrev m c 0) c 0 = m₀ at hbeside hlinks hsize
  dsimp only
  cases l with
  | nil =>
      have hh : head = 0 := h
      exact ⟨m₀, c, by simp [hh], ⟨rfl, hc, hbeside.prev_eq, hbeside.next_eq⟩, hlinks⟩
  | cons q l =>
      obtain ⟨rfl, hq0, _, _⟩ := h
      rw [hsize head (by simp), hsize c (by simp)]
      by_cases hge : size m head ≥ size m c
      · -- smaller than all the others: the new head
        have hsm : smaller m (size m c) (head :: l) = [] := by
          simp [smaller, Nat.not_lt.mpr hge]
        have hns : notSmaller m (size m c) (head :: l) = head :: l := by
          simp [notSmaller, Nat.not_lt.mpr hge]
        obtain ⟨hlist, honly⟩ := hbeside.linkHead
        refine ⟨setPrev (setNext m₀ c head) head c, c, by simp [hq0, hge], ?_, hlinks.trans honly⟩
        rw [hsm, hns]
        exact hlist
      · -- after the last chunk that is smaller
        have happ := smaller_append m (size m c) (head :: l)
        have hcons : smaller m (size m c) (head :: l) = head :: smaller m (size m c) l := by
          simp [smaller, Nat.not_le.mp hge]
        have hsm : smaller m₀ (size m c) l = smaller m (size m c) l :=
          smaller_congr (fun x hx => hsize x (by simp [hx]))
        have hscan : scanSmaller m₀ (size m c) loopBound head = some ((smaller m (size m c) l).getLastD head) := by
          rw [scanSmaller_spec hbeside.list (by simp only [List.length_cons] at hlen; omega), hsm]
        have hlast : (smaller m (size m c) (head :: l)).getLast? = some ((smaller m (size m c) l).getLastD head) := by
          rw [hcons, List.getLast?_cons, List.getLastD_eq_getLast?]
        rw [← happ] at hbeside
        obtain ⟨hlist, honly⟩ := hbeside.linkAfter hlast
        rw [happ] at honly
        exact ⟨_, head, by simp [hq0, hge, hscan, setPrevIf, Beside.linkedAfter], hlist, hlinks.trans honly⟩

/-- The chunk ends up before the chunks that are at least as big. -/
theorem smaller_cons_notSmaller (m : Mem) (c : Nat) (l : List Nat) :
    smaller m (size m c) l ++ c :: notSmaller m (size m c) l =
      l.orderedInsert (fun x y => size m x ≤ size m y) c := by
  simp only [List.orderedInsert_eq_take_drop, smaller, notSmaller, Nat.not_le]

end Link

end XviOs.Allocator.BinList
