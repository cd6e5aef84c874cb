import XviOs.Library.Runs
import XviOs.StdList.Loops

namespace XviOs.StdList

open Library.Links Library.StateProgram Library.Sequences Library.Refinement

variable {ι α : Type} [DecidableEq ι]

/-- `next(begin(), i)`. -/
def elementAt (l : ι) (i : ℕ) : Program ι α ℕ := do advance i (← getList l)

/-- `next(begin(), i)`, converted, or `next(cbegin(), i)`. -/
def iteratorAt (l : ι) (i : ℕ) (const : Bool) : Program ι α (ConstIterator ι) :=
  return ⟨if const then some l else none, ← elementAt l i⟩

/-- The operations on some lists. A position is the number of elements before it, and may be given by a `const_iterator`
of the list's own. -/
inductive Command (ι α : Type)
  | emplaceFront (l : ι) (x : α)
  | emplaceBack (l : ι) (x : α)
  | popFront (l : ι)
  | popBack (l : ι)
  | emplace (l : ι) (i : ℕ) (x : α)
  | insertCopies (l : ι) (i n : ℕ) (x : α)
  | insertRange (l : ι) (i : ℕ) (xs : List α)
  | erase (l : ι) (i : ℕ)
  | eraseRange (l : ι) (i b : ℕ) (const const' : Bool)
  | clear (l : ι)
  | resize (l : ι) (sz : ℕ) (x : α)
  | resizeCopies (l : ι) (sz : ℕ) (x : α)
  | assignRange (l : ι) (xs : List α)
  | assignCopies (l : ι) (n : ℕ) (x : α)
  | spliceAll (l : ι) (i : ℕ) (j : ι)
  | spliceOne (l : ι) (i : ℕ) (j : ι) (b : ℕ) (const : Bool)
  | spliceRange (l : ι) (i : ℕ) (j : ι) (b c : ℕ) (const const' : Bool)
  | removeIf (l : ι) (pred : α → Bool)
  | unique (l : ι) (pred : α → α → Bool)
  | reverse (l : ι)

namespace Command

def run (a : Allocator) (temp : ι) : Command ι α → Program ι α Unit
  | emplaceFront l x => StdList.emplaceFront a l x
  | emplaceBack l x => StdList.emplaceBack a l x
  | popFront l => StdList.popFront l
  | popBack l => StdList.popBack l
  | emplace l i x => do discard <| StdList.emplace a l (← elementAt l i) x
  | insertCopies l i n x => do discard <| StdList.insertCopies a l x n (← elementAt l i)
  | insertRange l i xs => do discard <| StdList.insertRange a l (← elementAt l i) xs
  | erase l i => do discard <| StdList.erase l (← elementAt l i)
  | eraseRange l i b const const' => do StdList.eraseRange l (← iteratorAt l i const) (← iteratorAt l b const')
  | clear l => StdList.clear l
  | resize l sz x => StdList.resize a l sz x
  | resizeCopies l sz x => StdList.resizeCopies a l sz x
  | assignRange l xs => StdList.assignRange a l xs
  | assignCopies l n x => StdList.assignCopies a l n x
  | spliceAll l i j => do StdList.spliceAll l (← elementAt l i) j
  | spliceOne l i j b const => do StdList.spliceOne l (← elementAt l i) j (← iteratorAt j b const)
  | spliceRange l i j b c const const' => do
    StdList.spliceRange l (← elementAt l i) j (← iteratorAt j b const) (← iteratorAt j c const')
  | removeIf l pred => discard <| StdList.removeIf l pred
  | unique l pred => discard <| StdList.unique l pred
  | reverse l => StdList.reverse temp l

/-- The lists that the operation is on. -/
def lists : Command ι α → List ι
  | emplaceFront l _ | emplaceBack l _ | popFront l | popBack l | emplace l _ _ | insertCopies l _ _ _
  | insertRange l _ _ | erase l _ | eraseRange l _ _ _ _ | clear l | resize l _ _ | resizeCopies l _ _
  | assignRange l _ | assignCopies l _ _ | removeIf l _ | unique l _ | reverse l => [l]
  | spliceAll l _ j | spliceOne l _ j _ _ | spliceRange l _ j _ _ _ _ => [l, j]

/-- The positions are in the lists, a range ends where it begins or behind that, and what moves does not move to a place
in itself. -/
def InLists (lists : ι → List α) : Command ι α → Prop
  | emplace l i _ | insertCopies l i _ _ | insertRange l i _ => i ≤ (lists l).length
  | erase l i => i < (lists l).length
  | eraseRange l i b _ _ => i ≤ b ∧ b ≤ (lists l).length
  | spliceAll l i j => i ≤ (lists l).length ∧ l ≠ j
  | spliceOne l i j b _ => i ≤ (lists l).length ∧ b < (lists j).length
  | spliceRange l i j b c _ _ =>
    i ≤ (lists l).length ∧ b ≤ c ∧ c ≤ (lists j).length ∧ (l = j → i < b ∨ c ≤ i)
  | _ => True

/-- No list is the one that `reverse` keeps for itself. -/
def Valid (temp : ι) (lists : ι → List α) (c : Command ι α) : Prop := temp ∉ c.lists ∧ c.InLists lists

/-- What the operation does is right: nothing is put in before the first element, or in an empty list. Of two
iterators that are compared none or both are a `const_iterator` from the beginning. Nothing is spliced, and what is
reversed is empty. -/
def Sound (lists : ι → List α) : Command ι α → Prop
  | emplaceFront _ _ | spliceOne _ _ _ _ _ => False
  | popFront _ | popBack _ | erase _ _ | clear _ | removeIf _ _ | unique _ _ => True
  | emplaceBack l _ => lists l ≠ []
  | emplace _ i _ => 0 < i
  | insertCopies _ i n _ => 0 < i ∨ n = 0
  | insertRange _ i xs => 0 < i ∨ xs = []
  | eraseRange _ _ _ const const' => const = const'
  | resize l sz _ | resizeCopies l sz _ =>
    lists l ≠ [] ∧ (lists l).length < sz ∨ (lists l).length = 2 * sz
  | assignRange l xs => lists l ≠ [] ∨ xs = []
  | assignCopies l n _ => lists l ≠ [] ∨ n = 0
  | spliceAll _ _ j => lists j = []
  | spliceRange l i j b c const const' =>
    if l = j then i = b ∧ b = c ∧ 0 < b ∧ b < (lists l).length else b = c ∧ const = const'
  | reverse l => lists l = []

end Command

def step (a : Allocator) (temp : ι) (m : Memory ι α) (c : Command ι α) : Option (Memory ι α) :=
  (c.run a temp m).map Prod.snd

/-- What the operations do to the lists that the elements make up. -/
def absStep (lists : ι → List α) : Command ι α → ι → List α
  | .emplaceFront l x => Function.update lists l (x :: lists l)
  | .emplaceBack l x => Function.update lists l (lists l ++ [x])
  | .popFront l => Function.update lists l (lists l).tail
  | .popBack l => Function.update lists l (lists l).dropLast
  | .emplace l i x => Function.update lists l (insertAt (lists l) i [x])
  | .insertCopies l i n x => Function.update lists l (insertAt (lists l) i (List.replicate n x))
  | .insertRange l i xs => Function.update lists l (insertAt (lists l) i xs)
  | .erase l i => Function.update lists l (eraseBetween (lists l) i (i + 1))
  | .eraseRange l i b _ _ => Function.update lists l (eraseBetween (lists l) i b)
  | .clear l => Function.update lists l []
  | .resize l sz x | .resizeCopies l sz x => Function.update lists l (resized (lists l) sz x)
  | .assignRange l xs => Function.update lists l xs
  | .assignCopies l n x => Function.update lists l (List.replicate n x)
  | .spliceAll l i j => move lists l i j 0 (lists j).length
  | .spliceOne l i j b _ => move lists l i j b (b + 1)
  | .spliceRange l i j b c _ _ => move lists l i j b c
  | .removeIf l pred => Function.update lists l ((lists l).filter fun x => !pred x)
  | .unique l pred => Function.update lists l ((lists l).destutter fun x y => pred x y = false)
  | .reverse l => Function.update lists l (lists l).reverse

/-- Each list is what its elements contain, in their order, and each element that is allocated is in one list. -/
def Represents (lists : ι → List α) (m : Memory ι α) : Prop := ∃ chain, Holds m chain ∧ contents m chain = lists

def traverseFrom (follow : ℕ → Program ι α ℕ) : ℕ → ℕ → Program ι α (List α)
  | 0, _ => failure
  | n + 1, p => do
    if p = 0 then
      return []
    let x ← readData p
    return x :: (← traverseFrom follow n (← follow p))

def traverse (l : ι) : Program ι α (List α) := do traverseFrom readNext (← bound) (← getList l)

def traverseBack (l : ι) : Program ι α (List α) := do traverseFrom readPrev (← bound) (← getLast l)

variable {a : Allocator} {temp : ι} {m m' : Memory ι α} {lists : ι → List α} {chain : ι → List ℕ} {l j k : ι}
  {i n p : ℕ} {A B : List ℕ}

omit [DecidableEq ι] in
theorem elementAt_eq (h : Holds m chain) (hi : i ≤ (chain l).length) :
    elementAt l i m = some (((chain l).drop i).headD 0, m) := by
  have hlist : m.list l = (chain l).headD 0 := (h.forward l).link_eq
  change advance i (m.list l) m = _
  rw [hlist]
  exact advance_eq h (List.nil_append _).symm hi

omit [DecidableEq ι] in
theorem iteratorAt_eq (h : Holds m chain) (hi : i ≤ (chain l).length) (const : Bool) :
    iteratorAt l i const m = some (⟨if const then some l else none, ((chain l).drop i).headD 0⟩, m) := by
  change (elementAt l i m).bind _ = _
  rw [elementAt_eq h hi]
  rfl

omit [DecidableEq ι] in
theorem traverseFrom_eq (h : Holds m chain) {follow : ℕ → Program ι α ℕ} {link : ι ⊕ ℕ → ℕ}
    (hfollow : ∀ p ∈ m.live, follow p m = some (link (.inr p), m)) {s : ι ⊕ ℕ} (hpath : Path link s A 0)
    (hA : ∀ x ∈ A, x ∈ chain l) (hn : A.length < n) :
    traverseFrom follow n (link s) m = some (A.map m.data, m) := by
  induction n generalizing A s with
  | zero => exact absurd hn (Nat.not_lt_zero _)
  | succ n ih =>
    rw [hpath.link_eq]
    cases A with
    | nil => rfl
    | cons x A =>
      rw [List.forall_mem_cons] at hA
      have hx := h.mem_live hA.1
      have hrest := ih hpath.2 hA.2 (Nat.lt_of_succ_lt_succ hn)
      simp [traverseFrom, bind, StateT.bind, h.apart.ne_null hA.1, readData, hx, hfollow x hx, hrest, pure_apply]

omit [DecidableEq ι] in
theorem traverse_eq (h : Holds m chain) (l : ι) : traverse l m = some (contents m chain l, m) := by
  apply traverseFrom_eq h (fun p hp => readNext_eq hp) (h.forward l) fun _ hx => hx
  exact Nat.lt_succ_of_le (h.length_le (k := l) (A := []) (B := []) (by simp))

omit [DecidableEq ι] in
theorem traverseBack_eq (h : Holds m chain) (l : ι) : traverseBack l m = some ((contents m chain l).reverse, m) := by
  rw [contents, ← List.map_reverse]
  apply traverseFrom_eq (l := l) h (fun p hp => readPrev_eq hp) (h.backward l) fun _ hx => List.mem_reverse.mp hx
  rw [List.length_reverse]
  exact Nat.lt_succ_of_le (h.length_le (k := l) (A := []) (B := []) (by simp))

theorem represents_update {L : List ℕ} {xs : List α} (h : Holds m' (Function.update chain k L))
    (hdata : m'.data = m.data) (hL : L.map m.data = xs) :
    Represents (Function.update (contents m chain) k xs) m' :=
  ⟨_, h, by rw [contents_of_data hdata, contents_update, hL]⟩

theorem resize_spec (grow : ℕ → Program ι α Unit) (h : Holds m chain) (x : α)
    (hn : contents m chain k ≠ [] ∧ (contents m chain k).length < n ∨ (contents m chain k).length = 2 * n)
    (hgrow : chain k ≠ [] → ∀ n, Leads (grow n) m fun _ m' =>
      Represents (Function.update (contents m chain) k (contents m chain k ++ List.replicate n x)) m') :
    Leads (do if n > (← getCount k) then grow (n - (← getCount k)) else shrink k n) m fun _ m' =>
      Represents (Function.update (contents m chain) k (resized (contents m chain k) n x)) m' := by
  have hlen : (contents m chain k).length = (chain k).length := List.length_map _
  have hcount := h.count k
  apply Leads.bind_eq (getCount_eq k m)
  rw [resized]
  obtain ⟨hne, hlt⟩ | heq := hn
  · rw [hcount, if_pos (hlen ▸ hlt)]
    apply Leads.bind_eq (getCount_eq k m)
    rw [hcount, ← hlen, List.take_of_length_le hlt.le]
    exact hgrow (fun hnil => hne (List.map_eq_nil_iff.mpr hnil)) _
  · rw [hcount, if_neg (by omega)]
    apply (shrink_spec h n).mono
    rintro _ m' ⟨h', hdata⟩
    apply represents_update h' hdata
    rw [List.map_take, ← hlen, heq, Nat.sub_eq_zero_of_le (show n ≤ 2 * n by omega), List.replicate_zero,
      List.append_nil, show 2 * n - n = n by omega]
    rfl

theorem spliceRange_nil (hlj : j ≠ l) (first : ConstIterator ι) : spliceRange l p j first first m = some ((), m) := by
  unfold spliceRange
  rw [if_neg hlj]
  change (if first = ⟨none, m.list j⟩ ∧ first = ⟨none, 0⟩ then _ else _ : Program ι α Unit) m = _
  by_cases hall : first = ⟨none, m.list j⟩ ∧ first = ⟨none, 0⟩
  · rw [if_pos hall, if_neg (not_not.mpr rfl)]
    rfl
  · rw [if_neg hall]
    change spliceLoop l p j first first (m.live.card + 1) m = _
    unfold spliceLoop
    rw [if_neg (not_not.mpr rfl)]
    rfl

theorem spliceAll_nil (h : Holds m chain) (hj : chain j = []) (hlj : j ≠ l) : spliceAll l p j m = some ((), m) := by
  have hlist : m.list j = 0 := by
    have hlink := (h.forward j).link_eq
    rwa [hj] at hlink
  change spliceRange l p j ⟨none, m.list j⟩ ⟨none, 0⟩ m = _
  rw [hlist]
  exact spliceRange_nil hlj _

/-- An element that is linked in before itself, as an empty range, stays where it is. -/
theorem spliceRange_self (h : Holds m chain) {e : ℕ} (hk : chain k = A ++ (e :: B)) (hA : A ≠ [])
    (parent parent' : Option ι) :
    Leads (spliceRange k e k ⟨parent, e⟩ ⟨parent', e⟩) m fun _ m' => Holds m' chain ∧ m'.data = m.data := by
  have hmem : e ∈ chain k := by simp [hk]
  have he := h.mem_live hmem
  have he0 := h.apart.ne_null hmem
  have hq := Holds.reverse_headD_mem hk hA
  have hprev : m.prevLink (.inr e) = A.reverse.headD 0 := by
    have hlink := h.prevLink_eq hk
    rwa [List.headD_cons, slotOf, if_neg he0] at hlink
  have hnext : m.nextLink (.inr (A.reverse.headD 0)) = e := by
    have hlink := h.nextLink_eq hk
    rwa [slotOf, if_neg (h.apart.ne_null hq), List.headD_cons] at hlink
  generalize A.reverse.headD 0 = q at *
  have hqlive := h.mem_live hq
  have hq0 := h.apart.ne_null hq
  have hsame : Function.update m.nextLink (.inr q) e = m.nextLink := Function.update_eq_self_iff.mpr hnext.symm
  have hsame' : Function.update m.prevLink (.inr e) q = m.prevLink := Function.update_eq_self_iff.mpr hprev.symm
  have hrun : spliceRange k e k ⟨parent, e⟩ ⟨parent', e⟩ m =
      some ((), (((m.setPrev (.inr e) q).setNext (.inr q) e).setPrev (.inr e) q).setNext (.inr q) e) := by
    simp [spliceRange, bind, StateT.bind, prevOf, he0, readPrev_eq he, before, linkRange, hprev, writePrev_eq, writeNext_eq,
      he, hqlive, linkPrev, linkNext, hq0]
  refine Leads.of_eq hrun ⟨h.of_eq ?_ ?_ (by simp) (by simp), by simp⟩
  · simp [hsame]
  · simp [hsame']

theorem reverse_nil (h : Holds m chain) (hl : chain l = []) (htemp : chain temp = []) (hne : temp ≠ l) :
    Leads (reverse temp l) m fun _ m' => Holds m' chain ∧ m'.data = m.data := by
  have hlist : m.nextLink (.inl temp) = 0 := by
    have hlink := (h.forward temp).link_eq
    rwa [htemp] at hlink
  have hlast : m.prevLink (.inl temp) = 0 := by
    have hlink : m.prevLink (.inl temp) = (chain temp).reverse.headD 0 := (h.backward temp).link_eq
    rwa [htemp] at hlink
  have hcount : m.count temp = 0 := by rw [h.count, htemp, List.length_nil]
  have h₁ : Holds (((m.setNext (.inl temp) 0).setPrev (.inl temp) 0).counted temp 0) chain := by
    apply h.of_eq
    · simpa using hlist.symm
    · simpa using hlast.symm
    · simpa using hcount.symm
    · simp
  have hl₁ := (h₁.forward l).link_eq
  rw [hl, List.headD_nil] at hl₁
  have hdata : (((m.setNext (.inl temp) 0).setPrev (.inl temp) 0).counted temp 0).data = m.data := rfl
  apply Leads.bind_eq (show setList temp 0 m = some ((), m.setNext (.inl temp) 0) from rfl)
  apply Leads.bind_eq (show setLast temp 0 _ = some ((), (m.setNext (.inl temp) 0).setPrev (.inl temp) 0) from rfl)
  apply Leads.bind_eq (setCount_eq temp 0 _)
  generalize ((m.setNext (.inl temp) 0).setPrev (.inl temp) 0).counted temp 0 = m₁ at *
  have hloop : reverseLoop temp l (m₁.live.card + 1) m₁ = some ((), m₁) := by
    unfold reverseLoop
    change (if m₁.nextLink (.inl l) ≠ 0 then _ else pure () : Program ι α Unit) m₁ = _
    rw [if_neg (not_not.mpr hl₁)]
    rfl
  apply Leads.bind_eq (show bound m₁ = some (m₁.live.card + 1, m₁) from rfl)
  apply Leads.bind_eq hloop
  apply Leads.bind_eq (getList_eq l m₁)
  refine Leads.of_eq (spliceAll_nil h₁ htemp hne) ⟨h₁, hdata⟩

theorem run_spec (h : Holds m chain) (c : Command ι α) (htemp : contents m chain temp = [])
    (hvalid : c.Valid temp (contents m chain)) (hsound : c.Sound (contents m chain)) :
    Leads (c.run a temp) m fun _ m' => Represents (absStep (contents m chain) c) m' := by
  have hlength : ∀ l, (contents m chain l).length = (chain l).length := fun l => List.length_map m.data
  have hnil : ∀ {l}, contents m chain l = [] → chain l = [] := fun hl => List.map_eq_nil_iff.mp hl
  have hne : ∀ {l}, contents m chain l ≠ [] → chain l ≠ [] := fun hl hnil => hl (by rw [contents, hnil]; rfl)
  have hsame : ∀ {m'}, Holds m' chain ∧ m'.data = m.data → Represents (contents m chain) m' :=
    fun hm' => ⟨chain, hm'.1, contents_of_data hm'.2 chain⟩
  have hsplit : ∀ {l i}, i ≤ (chain l).length → (0 < i → (chain l).take i ≠ []) ∧ ((chain l).take i).length = i := by
    intro l i hi
    have hlen : ((chain l).take i).length = i := by rw [List.length_take, Nat.min_eq_left hi]
    exact ⟨fun hpos => List.ne_nil_of_length_pos (hpos.trans_eq hlen.symm), hlen⟩
  obtain ⟨hnames, hvalid⟩ := hvalid
  cases c with
  | emplaceFront l x => exact hsound.elim
  | spliceOne l i j b const => exact hsound.elim
  | emplaceBack l x =>
    apply (emplaceBack_spec h (hne hsound) x).mono
    rintro _ m' ⟨chain', h', -, hcontents⟩
    exact ⟨chain', h', hcontents⟩
  | popFront l =>
    apply (popFront_spec h).mono
    rintro _ m' ⟨h', hdata⟩
    exact represents_update h' hdata List.map_tail
  | popBack l =>
    apply (popBack_spec h).mono
    rintro _ m' ⟨h', hdata⟩
    exact represents_update h' hdata List.map_dropLast
  | emplace l i x =>
    rw [Command.InLists, hlength] at hvalid
    obtain ⟨hpos, hlen⟩ := hsplit hvalid
    apply Leads.bind_eq (elementAt_eq h hvalid)
    apply Leads.discard
    apply (emplace_spec h (List.take_append_drop i (chain l)).symm (hpos hsound) x).mono
    rintro e m' ⟨h', hcontents⟩
    rw [hlen] at hcontents
    exact ⟨_, h', hcontents⟩
  | insertCopies l i n x =>
    rw [Command.InLists, hlength] at hvalid
    obtain ⟨hpos, hlen⟩ := hsplit hvalid
    apply Leads.bind_eq (elementAt_eq h hvalid)
    apply Leads.discard
    have hspec := insertCopies_spec (a := a) h (List.take_append_drop i (chain l)).symm (hsound.imp_left hpos) x
    rwa [hlen] at hspec
  | insertRange l i xs =>
    rw [Command.InLists, hlength] at hvalid
    obtain ⟨hpos, hlen⟩ := hsplit hvalid
    apply Leads.bind_eq (elementAt_eq h hvalid)
    apply Leads.discard
    have hspec := insertRange_spec (a := a) h (List.take_append_drop i (chain l)).symm (hsound.imp_left hpos)
    rwa [hlen] at hspec
  | erase l i =>
    rw [Command.InLists, hlength] at hvalid
    have hk : chain l = (chain l).take i ++ [(chain l)[i]] ++ (chain l).drop (i + 1) := by
      rw [← List.take_succ_eq_append_getElem hvalid, List.take_append_drop]
    apply Leads.bind_eq (elementAt_eq h hvalid.le)
    rw [List.drop_eq_getElem_cons hvalid, List.headD_cons]
    apply Leads.discard
    apply (erase_spec h hk).mono
    rintro _ m' ⟨-, h', hdata⟩
    exact represents_update h' hdata (map_eraseBetween m.data)
  | eraseRange l i b const const' =>
    rw [Command.InLists, hlength] at hvalid
    obtain ⟨hib, hb⟩ := hvalid
    obtain rfl : const = const' := hsound
    have hdrop : slice (chain l) i b ++ (chain l).drop b = (chain l).drop i := by
      have heq : chain l = _ := eq_slices hib
      rw [List.append_assoc] at heq
      conv_rhs => rw [heq]
      rw [List.drop_left' (hsplit (hib.trans hb)).2]
    apply Leads.bind_eq (iteratorAt_eq h (hib.trans hb) const)
    apply Leads.bind_eq (iteratorAt_eq h hb const)
    rw [← hdrop]
    apply (eraseRange_spec h (eq_slices hib) _).mono
    rintro _ m' ⟨h', hdata⟩
    exact represents_update h' hdata (map_eraseBetween m.data)
  | clear l =>
    apply (clear_spec h).mono
    rintro _ m' ⟨h', hdata⟩
    exact represents_update h' hdata rfl
  | resize l sz x =>
    apply resize_spec _ h x hsound
    intro hk n
    exact emplaceBacks_spec h hk x n
  | resizeCopies l sz x =>
    refine resize_spec (fun n => do let _ ← insertCopies a l x n 0) h x hsound fun hk n => ?_
    apply (insertCopies_spec (B := []) h (List.append_nil (chain l)).symm (Or.inl hk) x).bind
    rintro _ m' ⟨chain', h', hcontents⟩
    refine Leads.pure ⟨chain', h', ?_⟩
    rw [hcontents, ← hlength, insertAt, List.take_length, List.drop_length, List.append_nil]
  | assignRange l xs => exact assignRange_spec h xs (hsound.imp_left hne)
  | assignCopies l n x => exact assignCopies_spec h n x (hsound.imp_left hne)
  | spliceAll l i j =>
    rw [Command.InLists, hlength] at hvalid
    have hj := hnil hsound
    apply Leads.bind_eq (elementAt_eq h hvalid.1)
    refine Leads.of_eq (spliceAll_nil h hj hvalid.2.symm) ?_
    simp only [absStep]
    rw [move_nil hsound]
    exact hsame ⟨h, rfl⟩
  | spliceRange l i j b c const const' =>
    rw [Command.InLists, hlength, hlength] at hvalid
    obtain ⟨hi, hbc, hc, -⟩ := hvalid
    rw [Command.Sound] at hsound
    apply Leads.bind_eq (elementAt_eq h hi)
    apply Leads.bind_eq (iteratorAt_eq h (hbc.trans hc) const)
    apply Leads.bind_eq (iteratorAt_eq h hc const')
    split_ifs at hsound with hlj
    · obtain ⟨rfl, rfl, hpos, hlt⟩ := hsound
      subst hlj
      rw [hlength] at hlt
      have hk : chain l = (chain l).take i ++ ((chain l)[i] :: (chain l).drop (i + 1)) := by
        rw [← List.drop_eq_getElem_cons hlt, List.take_append_drop]
      rw [List.drop_eq_getElem_cons hlt, List.headD_cons]
      apply (spliceRange_self h hk ((hsplit hi).1 hpos) _ _).mono
      intro _ m' hm'
      rw [absStep, move_empty]
      exact hsame hm'
    · obtain ⟨rfl, rfl⟩ := hsound
      refine Leads.of_eq (spliceRange_nil (Ne.symm hlj) _) ?_
      rw [absStep, move_empty]
      exact hsame ⟨h, rfl⟩
  | removeIf l pred =>
    apply Leads.discard
    apply (removeIf_spec h pred).mono
    rintro _ m' ⟨h', hdata⟩
    apply represents_update h' hdata
    rw [contents, List.filter_map]
    rfl
  | unique l pred =>
    apply Leads.discard
    apply (unique_spec h pred).mono
    rintro _ m' ⟨h', hdata⟩
    apply represents_update h' hdata
    exact List.map_destutter fun _ _ _ _ => Iff.rfl
  | reverse l =>
    have hl : contents m chain l = [] := hsound
    have hlt : temp ≠ l := fun heq => hnames (heq ▸ List.mem_cons_self)
    apply (reverse_nil h (hnil hl) (hnil htemp) hlt).mono
    intro _ m' hm'
    rw [absStep, hl, List.reverse_nil, Function.update_eq_self_iff.mpr hl.symm]
    exact hsame hm'

/-- An operation changes only the lists that it is on. -/
theorem absStep_of_notMem (lists : ι → List α) {c : Command ι α} (hc : l ∉ c.lists) : absStep lists c l = lists l := by
  cases c <;> simp only [Command.lists, List.mem_cons, List.not_mem_nil, or_false, not_or] at hc <;>
    simp [absStep, move, hc]

/-- Every run of operations that are right is one on sequences. -/
theorem list_refines (a : Allocator) (temp : ι) (lists : ι → List α) (m : Memory ι α) (hm : Represents lists m)
    (htemp : lists temp = []) (cs : List (Command ι α))
    (hcs : AllAllowed absStep (fun lists c => c.Valid temp lists ∧ c.Sound lists) lists cs) :
    ∃ m', cs.foldlM (step a temp) m = some m' ∧ Represents (cs.foldl absStep lists) m' ∧
      ∀ l, traverse l m' = some (cs.foldl absStep lists l, m') ∧
        traverseBack l m' = some ((cs.foldl absStep lists l).reverse, m') ∧
        m'.count l = (cs.foldl absStep lists l).length := by
  have hstep : ∀ lists m (c : Command ι α), Represents lists m ∧ lists temp = [] → c.Valid temp lists ∧ c.Sound lists →
      ∃ m', step a temp m c = some m' ∧ Represents (absStep lists c) m' ∧ absStep lists c temp = [] := by
    rintro _ m c ⟨⟨chain, h, rfl⟩, htemp⟩ ⟨hvalid, hsound⟩
    obtain ⟨⟨⟩, m', hrun, hm'⟩ : Leads (c.run a temp) m fun _ m' => Represents (absStep (contents m chain) c) m' :=
      run_spec h c htemp hvalid hsound
    exact ⟨m', by rw [step, hrun]; rfl, hm', (absStep_of_notMem _ hvalid.1).trans htemp⟩
  obtain ⟨m', hrun, hm', -⟩ := run_refines hstep ⟨hm, htemp⟩ hcs
  refine ⟨m', hrun, hm', fun l => ?_⟩
  obtain ⟨chain, h, hcontents⟩ := hm'
  rw [← hcontents]
  exact ⟨traverse_eq h l, traverseBack_eq h l, (h.count l).trans (List.length_map _).symm⟩

/-- An allocator that takes the address behind all others. -/
def allocateBehind : Allocator where
  allocate live := live.sup id + 1
  allocate_notMem := sup_succ_notMem
  allocate_ne_null := sup_succ_ne_zero

/-- One list with one element, and an empty one. -/
def single : Memory Bool ℕ where
  list l := if l then 0 else 1
  last l := if l then 0 else 1
  count l := if l then 0 else 1
  next _ := 0
  prev _ := 0
  data _ := 5
  live := {1}

theorem represents_single : Represents (fun l => if l then [] else [5]) single := by
  refine ⟨fun l => if l then [] else [1], ⟨⟨?_, ?_, ?_⟩, ?_, ?_, ?_, ?_⟩, ?_⟩
  · decide
  · decide
  · intro i j x hi hj
    cases i <;> cases j <;> simp_all
  · intro l
    cases l <;> simp [single, Memory.nextLink]
  · intro l
    cases l <;> simp [single, Memory.prevLink]
  · decide
  · intro p
    simp [single]
  · funext l
    cases l <;> rfl

theorem list_refines_single :
    ∃ m, [Command.emplaceBack false 7, .insertRange false 1 [6, 6], .unique false fun x y => x == y, .erase false 0,
        .assignRange false [1, 2, 3], .spliceRange false 1 false 1 1 false true, .resize false 5 9, .popBack false,
        .removeIf false fun x => x == 2].foldlM (step allocateBehind true) single = some m ∧
      traverse false m = some ([1, 3, 9], m) := by
  obtain ⟨m, hrun, -, hlists⟩ := list_refines allocateBehind true _ single represents_single rfl
    [Command.emplaceBack false 7, .insertRange false 1 [6, 6], .unique false fun x y => x == y, .erase false 0,
      .assignRange false [1, 2, 3], .spliceRange false 1 false 1 1 false true, .resize false 5 9, .popBack false,
      .removeIf false fun x => x == 2]
    (by
      simp [AllAllowed, Command.Valid, Command.lists, Command.InLists, Command.Sound, absStep, insertAt, move_empty,
        eraseBetween]
      decide)
  exact ⟨m, hrun, (hlists false).1⟩

/-- The first element of a list cannot be put in. -/
theorem emplaceFront_fails :
    ¬ ∀ lists (m : Memory Bool ℕ) (cs : List (Command Bool ℕ)), Represents lists m → lists true = [] →
      AllAllowed absStep (fun lists c => c.Valid true lists) lists cs →
      ∃ m', cs.foldlM (step allocateBehind true) m = some m' := by
  intro h
  obtain ⟨m', hrun⟩ := h _ single [.emplaceFront false 1] represents_single rfl ⟨⟨by decide, trivial⟩, trivial⟩
  have hnone : (([.emplaceFront false 1] : List (Command Bool ℕ)).foldlM (step allocateBehind true) single).isNone := by
    decide
  rw [hrun] at hnone
  cases hnone

end XviOs.StdList
