import XviOs.ForwardList.Refines
import XviOs.StdList.Refines

namespace XviOs.StdList

open Library.Links Library.StateProgram

/-- The elements of a list in an order of the comparison, the equivalent ones among them as they were. -/
structure StablySorted {α : Type} (comp : α → α → Bool) (data : ℕ → α) (old new : List ℕ) : Prop where
  perm : new.Perm old
  sorted : new.Pairwise fun p q => comp (data q) (data p) = false
  stable : ∀ x, new.filter (fun p => !comp x (data p) && !comp (data p) x) =
    old.filter fun p => !comp x (data p) && !comp (data p) x

theorem StablySorted.of_length_le_one {α : Type} {comp : α → α → Bool} {data : ℕ → α} {l : List ℕ}
    (h : l.length ≤ 1) : StablySorted comp data l l := by
  refine ⟨List.Perm.refl l, ?_, fun _ => rfl⟩
  match l, h with
  | [], _ => exact List.Pairwise.nil
  | [p], _ => exact List.pairwise_singleton _ p

variable {ι α : Type} [DecidableEq ι]

/-- The constructor of a list. -/
def newList (l : ι) : Program ι α Unit := do
  setList l 0
  setLast l 0
  setCount l 0

/-- A round of the loop of `merge`. -/
def mergeStep (comp : α → α → Bool) (temp l x : ι) (i j : ℕ) : Program ι α Unit := do
  if comp (← readData j) (← readData i) then
    spliceOne temp 0 x ⟨none, j⟩
  else
    spliceOne temp 0 l ⟨none, i⟩

def mergeLoop (comp : α → α → Bool) (temp l x : ι) : ℕ → Program ι α Unit
  | 0 => failure
  | n + 1 => do
    let i ← getList l
    let j ← getList x
    if i ≠ 0 ∧ j ≠ 0 then
      mergeStep comp temp l x i j
      mergeLoop comp temp l x n

/-- With the list `__list` of its own. -/
def merge (comp : α → α → Bool) (temp l x : ι) : Program ι α Unit :=
  if x = l then pure () else do
    newList temp
    mergeLoop comp temp l x (← bound)
    spliceAll temp 0 l
    spliceAll temp 0 x
    spliceAll l (← getList l) temp

/-- `begin() == end() || next(begin()) == end()`. -/
def atMostOne (l : ι) : Program ι α Bool := do
  let e ← getList l
  if e = 0 then return true else return (← readNext e) = 0

def splitLoop (left right l : ι) : ℕ → ℕ → Program ι α Unit
  | 0, _ => failure
  | n + 1, i => do
    let e ← getList l
    if e ≠ 0 then
      spliceOne (if i % 2 = 1 then left else right) 0 l ⟨none, e⟩
      splitLoop left right l n (i + 1)

/-- The body of `sort`, whose lists `__left` and `__right`, and that of `merge`, are three of those in `locals`. The
comparison is not passed on: the rest is sorted and merged by `less`. -/
def sortFrom (less : α → α → Bool) (locals : ℕ → ι) : ℕ → (comp : α → α → Bool) → ι → Program ι α Unit
  | 0, _, _ => failure
  | n + 1, _, l => do
    if (← atMostOne l) = true then
      return
    newList (locals (3 * n))
    newList (locals (3 * n + 1))
    splitLoop (locals (3 * n)) (locals (3 * n + 1)) l (← bound) 0
    sortFrom less locals n less (locals (3 * n))
    sortFrom less locals n less (locals (3 * n + 1))
    merge less (locals (3 * n + 2)) (locals (3 * n)) (locals (3 * n + 1))
    spliceAll l (← getList l) (locals (3 * n))

def sort (less : α → α → Bool) (locals : ℕ → ι) (comp : α → α → Bool) (l : ι) : Program ι α Unit := do
  sortFrom less locals (← bound) comp l

/-- The elements of the list are sorted, and the other lists are as they were. -/
def SortRight (less : α → α → Bool) (locals : ℕ → ι) (comp : α → α → Bool) (l : ι) (m : Memory ι α)
    (chain : ι → List ℕ) : Prop :=
  Leads (sort less locals comp l) m fun _ m' => ∃ chain', Holds m' chain' ∧ m'.data = m.data ∧
    StablySorted comp m.data (chain l) (chain' l) ∧ ∀ j, j ≠ l → chain' j = chain j

/-- The one list holds the elements of both, those of its own first among equivalent ones, and the other list none. -/
def MergeRight (comp : α → α → Bool) (temp l x : ι) (m : Memory ι α) (chain : ι → List ℕ) : Prop :=
  Leads (merge comp temp l x) m fun _ m' => ∃ chain', Holds m' chain' ∧ m'.data = m.data ∧
    StablySorted comp m.data (chain l ++ chain x) (chain' l) ∧ chain' x = [] ∧
    ∀ j, j ≠ l → j ≠ x → chain' j = chain j

variable {m : Memory ι α} {chain : ι → List ℕ} {l x t : ι} {e : ℕ}
  {rest : List ℕ} {comp less : α → α → Bool} {locals : ℕ → ι}

theorem newList_eq (h : Holds m chain) (ht : chain t = []) : newList t m = some ((), m) := by
  have hlist : m.list t = 0 := by
    have hlink := (h.forward t).link_eq
    rwa [ht] at hlink
  have hlast : m.last t = 0 := by
    have hlink : m.prevLink (.inl t) = (chain t).reverse.headD 0 := (h.backward t).link_eq
    rwa [ht] at hlink
  have hcount : m.count t = 0 := by rw [h.count, ht, List.length_nil]
  change some ((), { m with
    list := Function.update m.list t 0
    last := Function.update m.last t 0
    count := Function.update m.count t 0 }) = _
  rw [Function.update_eq_self_iff.mpr hlist.symm, Function.update_eq_self_iff.mpr hlast.symm,
    Function.update_eq_self_iff.mpr hcount.symm]

/-- In an empty list there is no element to be put in behind of. -/
theorem insertBefore_fails (hnull : 0 ∉ m.live) (ht : m.prevLink (.inl t) = 0) : insertBefore t 0 e m = none := by
  have hread : readNext 0 m = none := if_neg hnull
  simp [insertBefore, before, getLast_eq, ht, insertAfter, bind, StateT.bind, hread]

omit [DecidableEq ι] in
theorem Holds.null_notMem (h : Holds m chain) : 0 ∉ m.live := by
  intro hnull
  obtain ⟨i, hi⟩ := (h.live 0).mp hnull
  exact h.apart.null_notMem i hi

omit [DecidableEq ι] in
theorem Holds.last_eq_null (h : Holds m chain) (ht : chain t = []) : m.prevLink (.inl t) = 0 := by
  have hlink : m.prevLink (.inl t) = (chain t).reverse.headD 0 := (h.backward t).link_eq
  rwa [ht] at hlink

omit [DecidableEq ι] in
/-- The end that is made from an iterator has no parent. -/
theorem prevOf_end : prevOf (⟨none, 0⟩ : ConstIterator ι) m = none := by
  rw [prevOf, if_neg (not_not.mpr rfl)]
  rfl

/-- The first element of a list cannot be spliced to an empty one. -/
theorem spliceOne_fails (h : Holds m chain) (ht : chain t = []) (hx : chain x = e :: rest) :
    spliceOne t 0 x ⟨none, e⟩ m = none := by
  have hmem : e ∈ chain x := by simp [hx]
  have he := h.mem_live hmem
  have he0 := h.apart.ne_null hmem
  have hxt : x ≠ t := by
    rintro rfl
    rw [ht] at hx
    cases hx
  have hlist : m.list x = e := by
    have hlink := (h.forward x).link_eq
    rwa [hx] at hlink
  have hprev : m.prevLink (.inr e) = 0 := by
    have hlink := h.prevLink_eq (A := []) hx
    rwa [List.headD_cons, slotOf, if_neg he0] at hlink
  have hnext : m.nextLink (.inr e) = rest.headD 0 := by
    have hlink := h.nextLink_eq (A := [e]) hx
    rwa [List.reverse_singleton, List.headD_cons, slotOf, if_neg he0] at hlink
  have hlive := h.headD_live (A := [e]) hx
  have hne : e ≠ rest.headD 0 := by
    cases rest with
    | nil => exact he0
    | cons y rest =>
      have hnodup := h.apart.nodup x
      rw [hx] at hnodup
      rintro rfl
      simp at hnodup
  generalize rest.headD 0 = n at *
  have hread : readNext e m = some (n, m) := by rw [readNext_eq he, hnext]
  have hrange : spliceRange t 0 x ⟨none, e⟩ ⟨none, n⟩ m = none := by
    unfold spliceRange
    rw [if_neg hxt]
    change (if (⟨none, e⟩ : ConstIterator ι) = ⟨none, m.list x⟩ ∧ (⟨none, n⟩ : ConstIterator ι) = ⟨none, 0⟩ then _
      else _ : Program ι α Unit) m = none
    by_cases hall : (⟨none, e⟩ : ConstIterator ι) = ⟨none, m.list x⟩ ∧ (⟨none, n⟩ : ConstIterator ι) = ⟨none, 0⟩
    · rw [if_pos hall, if_pos (by simpa using hne)]
      obtain rfl : n = 0 := congrArg ConstIterator.element hall.2
      exact bind_none prevOf_end
    · rw [if_neg hall]
      change spliceLoop t 0 x ⟨none, e⟩ ⟨none, n⟩ (m.live.card + 1) m = none
      unfold spliceLoop
      rw [if_pos (by simpa using hne)]
      have hslot : (.inl t : ι ⊕ ℕ) ≠ slotOf 0 x n := by
        rw [slotOf]
        split
        · simpa using hxt.symm
        · exact Sum.inl_ne_inr
      have hremove := remove_eq (l := x) he hprev hnext (Or.inl rfl) hlive Sum.inl_ne_inr
      refine (bind_some hremove).trans (bind_none (insertBefore_fails ?_ ?_))
      · simpa using h.null_notMem
      · simpa [hslot] using h.last_eq_null ht
  unfold spliceOne
  rw [if_pos (by simpa using he0)]
  exact (bind_some hread).trans hrange

/-- A list that is not empty cannot be spliced as a whole. -/
theorem spliceAll_fails (h : Holds m chain) (hxt : x ≠ t) (hx : chain x ≠ []) (p : ℕ) : spliceAll t p x m = none := by
  obtain ⟨e, rest, hx⟩ := List.exists_cons_of_ne_nil hx
  have hmem : e ∈ chain x := by simp [hx]
  have hlist : m.list x = e := by
    have hlink := (h.forward x).link_eq
    rwa [hx] at hlink
  have hne : (⟨none, m.list x⟩ : ConstIterator ι) ≠ ⟨none, 0⟩ := by
    rw [hlist]
    simpa using h.apart.ne_null hmem
  change spliceRange t p x ⟨none, m.list x⟩ ⟨none, 0⟩ m = none
  unfold spliceRange
  rw [if_neg hxt]
  apply (bind_some (getList_eq x m)).trans
  rw [if_pos ⟨rfl, rfl⟩, if_pos hne]
  exact bind_none prevOf_end

omit [DecidableEq ι] in
theorem atMostOne_eq (h : Holds m chain) : atMostOne l m = some (decide ((chain l).length ≤ 1), m) := by
  have hlink := (h.forward l).link_eq
  apply (bind_some (getList_eq l m)).trans
  rw [hlink]
  match hl : chain l with
  | [] => rfl
  | e :: rest =>
    have hmem : e ∈ chain l := by simp [hl]
    have hnext : m.nextLink (.inr e) = rest.headD 0 := by
      have hlink := h.nextLink_eq (A := [e]) hl
      rwa [List.reverse_singleton, List.headD_cons, slotOf, if_neg (h.apart.ne_null hmem)] at hlink
    rw [List.headD_cons, if_neg (h.apart.ne_null hmem)]
    apply (bind_some (readNext_eq (h.mem_live hmem))).trans
    rw [hnext, pure_apply]
    cases rest with
    | nil => simp
    | cons y rest => simp [h.apart.ne_null (show y ∈ chain l by simp [hl])]

theorem sort_right_of_length_le_one (h : Holds m chain) (hl : (chain l).length ≤ 1) :
    SortRight less locals comp l m chain := by
  apply Leads.bind_eq (show bound m = some (m.live.card + 1, m) from rfl)
  unfold sortFrom
  apply Leads.bind_eq (atMostOne_eq h)
  rw [if_pos (decide_eq_true hl)]
  exact Leads.pure ⟨chain, h, rfl, StablySorted.of_length_le_one hl, fun _ _ => rfl⟩

theorem sort_fails (h : Holds m chain) (hlocals : ∀ n, chain (locals n) = []) (hl : 1 < (chain l).length) :
    sort less locals comp l m = none := by
  obtain ⟨e, rest, hk⟩ := List.exists_cons_of_length_pos (Nat.zero_lt_of_lt hl)
  have hmem : e ∈ chain l := by simp [hk]
  have hlist : m.nextLink (.inl l) = e := by
    have hlink := (h.forward l).link_eq
    rwa [hk] at hlink
  have hsplit : ∀ left right n, chain right = [] → splitLoop left right l (n + 1) 0 m = none := by
    intro left right n hright
    apply (bind_some (getList_eq l m)).trans
    rw [hlist, if_pos (h.apart.ne_null hmem)]
    exact bind_none (spliceOne_fails h hright hk)
  apply (bind_some (show bound m = some (m.live.card + 1, m) from rfl)).trans
  unfold sortFrom
  apply (bind_some (atMostOne_eq h)).trans
  rw [if_neg (by simpa using hl)]
  apply (bind_some (newList_eq h (hlocals _))).trans
  apply (bind_some (newList_eq h (hlocals _))).trans
  apply (bind_some (show bound m = some (m.live.card + 1, m) from rfl)).trans
  exact bind_none (hsplit _ _ _ (hlocals _))

theorem sort_right_list_iff (h : Holds m chain) (hlocals : ∀ n, chain (locals n) = []) :
    SortRight less locals comp l m chain ↔ (chain l).length ≤ 1 := by
  constructor
  · intro hright
    by_contra hl
    obtain ⟨b, m', hrun, -⟩ := hright
    rw [sort_fails h hlocals (not_le.mp hl)] at hrun
    cases hrun
  · exact sort_right_of_length_le_one h

theorem merge_right_of_nil (h : Holds m chain) (htemp : chain t = []) (htl : l ≠ t) (htx : x ≠ t) (hlx : l ≠ x)
    (hl : chain l = []) (hx : chain x = []) : MergeRight comp t l x m chain := by
  have hnull : ∀ {j}, chain j = [] → m.nextLink (.inl j) = 0 := by
    intro j hj
    have hlink := (h.forward j).link_eq
    rwa [hj] at hlink
  have hloop : ∀ n, mergeLoop comp t l x (n + 1) m = some ((), m) := by
    intro n
    apply (bind_some (getList_eq l m)).trans
    apply (bind_some (getList_eq x m)).trans
    rw [if_neg fun hne => hne.1 (hnull hl)]
    rfl
  unfold MergeRight merge
  rw [if_neg hlx.symm]
  apply Leads.bind_eq (newList_eq h htemp)
  apply Leads.bind_eq (show bound m = some (m.live.card + 1, m) from rfl)
  apply Leads.bind_eq (hloop _)
  apply Leads.bind_eq (spliceAll_nil h hl htl)
  apply Leads.bind_eq (spliceAll_nil h hx htx)
  apply Leads.bind_eq (getList_eq l m)
  apply Leads.of_eq (spliceAll_nil h htemp htl.symm)
  refine ⟨chain, h, rfl, ?_, hx, fun _ _ _ => rfl⟩
  rw [hl, hx]
  exact StablySorted.of_length_le_one (Nat.zero_le 1)

theorem merge_fails (h : Holds m chain) (htemp : chain t = []) (htl : l ≠ t) (htx : x ≠ t) (hlx : l ≠ x)
    (hne : ¬ (chain l = [] ∧ chain x = [])) : merge comp t l x m = none := by
  have hlist : ∀ {j}, m.nextLink (.inl j) = (chain j).headD 0 := fun {j} => (h.forward j).link_eq
  have hnull : ∀ {j}, (chain j).headD 0 ≠ 0 ↔ chain j ≠ [] := by
    intro j
    cases hj : chain j with
    | nil => simp
    | cons e rest => simpa using h.apart.ne_null (show e ∈ chain j by simp [hj])
  unfold merge
  rw [if_neg hlx.symm]
  apply (bind_some (newList_eq h htemp)).trans
  apply (bind_some (show bound m = some (m.live.card + 1, m) from rfl)).trans
  by_cases hboth : chain l ≠ [] ∧ chain x ≠ []
  · apply bind_none
    apply (bind_some (getList_eq l m)).trans
    apply (bind_some (getList_eq x m)).trans
    rw [hlist, hlist, if_pos ⟨hnull.mpr hboth.1, hnull.mpr hboth.2⟩]
    obtain ⟨i, rest, hi⟩ := List.exists_cons_of_ne_nil hboth.1
    obtain ⟨j, rest', hj⟩ := List.exists_cons_of_ne_nil hboth.2
    apply bind_none
    rw [hi, hj]
    have hreadj : readData j m = some (m.data j, m) := if_pos (h.mem_live (k := x) (by simp [hj]))
    have hreadi : readData i m = some (m.data i, m) := if_pos (h.mem_live (k := l) (by simp [hi]))
    apply (bind_some hreadj).trans
    apply (bind_some hreadi).trans
    split
    · exact spliceOne_fails h htemp hj
    · exact spliceOne_fails h htemp hi
  · have hloop : mergeLoop comp t l x (m.live.card + 1) m = some ((), m) := by
      apply (bind_some (getList_eq l m)).trans
      apply (bind_some (getList_eq x m)).trans
      rw [hlist, hlist, if_neg (by rwa [hnull, hnull])]
      rfl
    apply (bind_some hloop).trans
    by_cases hl : chain l = []
    · apply (bind_some (spliceAll_nil h hl htl)).trans
      exact bind_none (spliceAll_fails h htx (fun hx => hne ⟨hl, hx⟩) 0)
    · exact bind_none (spliceAll_fails h htl hl 0)

theorem merge_right_list_iff (h : Holds m chain) (htemp : chain t = []) (htl : l ≠ t) (htx : x ≠ t) (hlx : l ≠ x) :
    MergeRight comp t l x m chain ↔ chain l = [] ∧ chain x = [] := by
  constructor
  · intro hright
    by_contra hne
    obtain ⟨b, m', hrun, -⟩ := hright
    rw [merge_fails h htemp htl htx hlx hne] at hrun
    cases hrun
  · rintro ⟨hl, hx⟩
    exact merge_right_of_nil h htemp htl htx hlx hl hx

end XviOs.StdList

namespace XviOs.ForwardList

open Library.Links Library.StateProgram StdList

variable {ι α : Type} [DecidableEq ι]

/-- A round of the loop of `merge`. -/
def mergeStep (comp : α → α → Bool) (l x : ι) (out : Element ι) (i j : ℕ) : Program ι α Unit := do
  if comp (← readData (.inr j)) (← readData (.inr i)) then
    spliceAfterOne out (.inl x)
  else
    spliceAfterOne out (.inl l)

def mergeLoop (comp : α → α → Bool) (l x : ι) : ℕ → Element ι → Program ι α (Element ι)
  | 0, _ => failure
  | n + 1, out => do
    let i ← getList l
    let j ← getList x
    if i ≠ 0 ∧ j ≠ 0 then
      mergeStep comp l x out i j
      mergeLoop comp l x n (.inr (← readNext out))
    else
      return out

/-- With the list `__list` of its own. What is left of a list is spliced as a single element. -/
def merge (comp : α → α → Bool) (temp l x : ι) : Program ι α Unit := do
  setList temp 0
  let out ← mergeLoop comp l x (← bound) (.inl temp)
  spliceAfterOne out (.inl x)
  spliceAfterOne out (.inl l)
  spliceAfterAll (.inl l) temp

/-- `begin() == end() || next(begin()) == end()`. -/
def atMostOne (l : ι) : Program ι α Bool := do
  let e ← getList l
  if e = 0 then return true else return (← readNext (.inr e)) = 0

def splitLoop (left right l : ι) : ℕ → ℕ → Program ι α Unit
  | 0, _ => failure
  | n + 1, i => do
    if (← getList l) ≠ 0 then
      spliceAfterOne (.inl (if i % 2 = 1 then left else right)) (.inl l)
      splitLoop left right l n (i + 1)

/-- The lists of its own are those of `locals`, and the comparison is not passed on. -/
def sortFrom (less : α → α → Bool) (locals : ℕ → ι) : ℕ → (comp : α → α → Bool) → ι → Program ι α Unit
  | 0, _, _ => failure
  | n + 1, _, l => do
    if (← atMostOne l) = true then
      return
    setList (locals (3 * n)) 0
    setList (locals (3 * n + 1)) 0
    splitLoop (locals (3 * n)) (locals (3 * n + 1)) l (← bound) 0
    sortFrom less locals n less (locals (3 * n))
    sortFrom less locals n less (locals (3 * n + 1))
    merge less (locals (3 * n + 2)) (locals (3 * n)) (locals (3 * n + 1))
    spliceAfterOne (.inl l) (.inl (locals (3 * n)))

def sort (less : α → α → Bool) (locals : ℕ → ι) (comp : α → α → Bool) (l : ι) : Program ι α Unit := do
  sortFrom less locals (← bound) comp l

def SortRight (less : α → α → Bool) (locals : ℕ → ι) (comp : α → α → Bool) (l : ι) (m : Memory ι α)
    (chain : ι → List ℕ) : Prop :=
  Leads (sort less locals comp l) m fun _ m' => ∃ chain', Holds m' chain' ∧ m'.data = m.data ∧
    StablySorted comp m.data (chain l) (chain' l) ∧ ∀ j, j ≠ l → chain' j = chain j

def MergeRight (comp : α → α → Bool) (temp l x : ι) (m : Memory ι α) (chain : ι → List ℕ) : Prop :=
  Leads (merge comp temp l x) m fun _ m' => ∃ chain', Holds m' chain' ∧ m'.data = m.data ∧
    StablySorted comp m.data (chain l ++ chain x) (chain' l) ∧ chain' x = [] ∧
    ∀ j, j ≠ l → j ≠ x → chain' j = chain j

variable {m : Memory ι α} {chain : ι → List ℕ} {l x t : ι} {comp less : α → α → Bool} {locals : ℕ → ι}

omit [DecidableEq ι] in
/-- There is no place before a list to be read. -/
theorem spliceAfterOne_fails (t : ι) (s : Element ι) (m : Memory ι α) : spliceAfterOne (.inl t) s m = none :=
  bind_none rfl

theorem setList_nil (h : Holds m chain) (ht : chain t = []) : setList t 0 m = some ((), m) := by
  have hlist : m.list t = 0 := by
    have hlink := (h.threads t).link_eq
    rwa [ht] at hlink
  change some ((), { m with list := Function.update m.list t 0 }) = _
  rw [Function.update_eq_self_iff.mpr hlist.symm]

omit [DecidableEq ι] in
theorem atMostOne_eq (h : Holds m chain) : atMostOne l m = some (decide ((chain l).length ≤ 1), m) := by
  have hlink := (h.threads l).link_eq
  apply (bind_some (show getList l m = some (m.link (.inl l), m) from rfl)).trans
  rw [hlink]
  match hl : chain l with
  | [] => rfl
  | e :: rest =>
    have hmem : e ∈ chain l := by simp [hl]
    have hnext : m.link (.inr e) = rest.headD 0 := h.threads.link_endOf (A := [e]) hl
    rw [List.headD_cons, if_neg (h.apart.ne_null hmem)]
    apply (bind_some (readNext_eq (Memory.readable_inr.mpr ((h.live e).mpr ⟨l, hmem⟩)))).trans
    rw [hnext, pure_apply]
    cases rest with
    | nil => simp
    | cons y rest => simp [h.apart.ne_null (show y ∈ chain l by simp [hl])]

theorem sort_fails (h : Holds m chain) (hlocals : ∀ n, chain (locals n) = []) (hl : 1 < (chain l).length) :
    sort less locals comp l m = none := by
  obtain ⟨e, rest, hk⟩ := List.exists_cons_of_length_pos (Nat.zero_lt_of_lt hl)
  have hmem : e ∈ chain l := by simp [hk]
  have hlist : getList l m = some (e, m) := by
    have hlink := (h.threads l).link_eq
    rw [hk] at hlink
    change some (m.link (.inl l), m) = _
    rw [hlink]
    rfl
  have hsplit : ∀ left right n, splitLoop left right l (n + 1) 0 m = none := by
    intro left right n
    apply (bind_some hlist).trans
    rw [if_pos (h.apart.ne_null hmem)]
    exact bind_none (spliceAfterOne_fails _ _ m)
  apply (bind_some (show bound m = some (m.live.card + 1, m) from rfl)).trans
  unfold sortFrom
  apply (bind_some (atMostOne_eq h)).trans
  rw [if_neg (by simpa using hl)]
  apply (bind_some (setList_nil h (hlocals _))).trans
  apply (bind_some (setList_nil h (hlocals _))).trans
  apply (bind_some (show bound m = some (m.live.card + 1, m) from rfl)).trans
  exact bind_none (hsplit _ _ _)

theorem sort_right_forward_iff (h : Holds m chain) (hlocals : ∀ n, chain (locals n) = []) :
    SortRight less locals comp l m chain ↔ (chain l).length ≤ 1 := by
  constructor
  · rintro ⟨b, m', hrun, -⟩
    by_contra hl
    rw [sort_fails h hlocals (not_le.mp hl)] at hrun
    cases hrun
  · intro hl
    apply Leads.bind_eq (show bound m = some (m.live.card + 1, m) from rfl)
    unfold sortFrom
    apply Leads.bind_eq (atMostOne_eq h)
    rw [if_pos (decide_eq_true hl)]
    exact Leads.pure ⟨chain, h, rfl, StablySorted.of_length_le_one hl, fun _ _ => rfl⟩

/-- What is put in first would stand behind the place before `__list`. -/
theorem merge_fails (comp : α → α → Bool) (t l x : ι) (m : Memory ι α) : merge comp t l x m = none := by
  apply bind_eq_none
  rintro _ m₁ -
  apply bind_eq_none
  rintro n m₂ hbound
  apply bind_eq_none
  rintro out m₃ hloop
  suffices hout : out = .inl t by
    rw [hout]
    exact bind_none (spliceAfterOne_fails _ _ m₃)
  cases n with
  | zero => cases hloop
  | succ n =>
    obtain ⟨i, _, hi, hloop⟩ := bind_eq_some_iff.mp hloop
    obtain ⟨j, _, hj, hloop⟩ := bind_eq_some_iff.mp hloop
    split at hloop
    · obtain ⟨_, m₄, hstep, -⟩ := bind_eq_some_iff.mp hloop
      obtain ⟨y, _, hy, hstep⟩ := bind_eq_some_iff.mp hstep
      obtain ⟨z, _, hz, hstep⟩ := bind_eq_some_iff.mp hstep
      split at hstep <;> rw [spliceAfterOne_fails] at hstep <;> cases hstep
    · cases hloop
      rfl

theorem not_merge_right : ¬ MergeRight comp t l x m chain := by
  rintro ⟨b, m', hrun, -⟩
  rw [merge_fails] at hrun
  cases hrun

end XviOs.ForwardList

namespace XviOs.StdList

open Library.Links Library.StateProgram

/-- Only a list with at most one element is sorted, and only empty lists, that are not singly linked, are merged. -/
theorem sort_merge_right_iff {ι α : Type} [DecidableEq ι] (less comp : α → α → Bool) (locals : ℕ → ι) (temp l x : ι) :
    (∀ (m : Memory ι α) chain, Holds m chain → (∀ n, chain (locals n) = []) →
      (SortRight less locals comp l m chain ↔ (chain l).length ≤ 1)) ∧
    (∀ (m : Memory ι α) chain, Holds m chain → chain temp = [] → l ≠ temp → x ≠ temp → l ≠ x →
      (MergeRight comp temp l x m chain ↔ chain l = [] ∧ chain x = [])) ∧
    (∀ (m : ForwardList.Memory ι α) chain, ForwardList.Holds m chain → (∀ n, chain (locals n) = []) →
      (ForwardList.SortRight less locals comp l m chain ↔ (chain l).length ≤ 1)) ∧
    ∀ (m : ForwardList.Memory ι α) chain, ¬ ForwardList.MergeRight comp temp l x m chain :=
  ⟨fun _ _ h hlocals => sort_right_list_iff h hlocals,
    fun _ _ h htemp htl htx hlx => merge_right_list_iff h htemp htl htx hlx,
    fun _ _ h hlocals => ForwardList.sort_right_forward_iff h hlocals, fun _ _ => ForwardList.not_merge_right⟩

/-- The list 0 with two elements, the other lists empty. -/
def pair : Memory ℕ ℕ where
  list l := if l = 0 then 1 else 0
  last l := if l = 0 then 2 else 0
  count l := if l = 0 then 2 else 0
  next p := if p = 1 then 2 else 0
  prev p := if p = 2 then 1 else 0
  data p := p
  live := {1, 2}

def pairChain (l : ℕ) : List ℕ := if l = 0 then [1, 2] else []

theorem mem_pairChain {l p : ℕ} : p ∈ pairChain l ↔ l = 0 ∧ (p = 1 ∨ p = 2) := by
  rw [pairChain]
  split <;> simp_all

theorem holds_pair : Holds pair pairChain := by
  refine ⟨⟨?_, ?_, ?_⟩, ?_, ?_, ?_, ?_⟩
  · intro l
    simp [mem_pairChain]
  · intro l
    rw [pairChain]
    split <;> decide
  · intro i j p hi hj
    rw [mem_pairChain] at hi hj
    rw [hi.1, hj.1]
  · intro l
    rw [pairChain]
    split <;> simp_all [pair, Memory.nextLink]
  · intro l
    simp only [pairChain]
    split <;> simp_all [pair, Memory.prevLink]
  · intro l
    simp only [pair, pairChain]
    split <;> rfl
  · intro p
    simp [pair, mem_pairChain]

/-- The list 1 is empty, and sorted and merged. -/
theorem sort_merge_right_pair :
    SortRight (fun x y => x < y) (fun n => n + 1) (fun x y => y < x) 1 pair pairChain ∧
      MergeRight (fun x y => y < x) 3 1 2 pair pairChain ∧
      ∃ chain, ForwardList.SortRight (fun x y => x < y) (fun n => n) (fun x y => y < x) 0
        (ForwardList.initial ℕ fun _ => 0) chain := by
  obtain ⟨chain, h, hchain⟩ := ForwardList.represents_initial (ι := ℕ) fun _ => 0
  have hnil : ∀ l, chain l = [] := fun l => List.map_eq_nil_iff.mp (congrFun hchain l)
  have hright := sort_merge_right_iff (fun x y : ℕ => x < y) (fun x y => y < x) (fun n => n + 1) 3 1 2
  have hright' := sort_merge_right_iff (fun x y : ℕ => x < y) (fun x y => y < x) (fun n => n) 3 0 2
  refine ⟨(hright.1 pair pairChain holds_pair fun n => rfl).mpr (Nat.zero_le 1),
    (hright.2.1 pair pairChain holds_pair rfl (by decide) (by decide) (by decide)).mpr ⟨rfl, rfl⟩, chain,
    (hright'.2.2.1 _ chain h hnil).mpr ?_⟩
  rw [hnil]
  exact Nat.zero_le 1

theorem sort_pair_fails :
    ¬ ∀ (m : Memory ℕ ℕ) chain l, Holds m chain → (∀ n, chain (n + 1) = []) →
      SortRight (fun x y => x < y) (fun n => n + 1) (fun x y => y < x) l m chain := by
  intro h
  obtain ⟨b, m', hrun, -⟩ := h pair pairChain 0 holds_pair fun n => rfl
  rw [sort_fails holds_pair (fun n => rfl) (show 1 < (pairChain 0).length by decide)] at hrun
  cases hrun

end XviOs.StdList
