import XviOs.Library.Runs
import XviOs.ForwardList.Operations

namespace XviOs.ForwardList

open Library.Links Library.StateProgram Library.Sequences Library.Refinement

variable {ι α : Type} [DecidableEq ι]

def advance : ℕ → ℕ → Program ι α ℕ
  | 0, p => return p
  | n + 1, p => do advance n (← readNext (.inr p))

/-- The iterator `next(begin(), i)`. -/
def iteratorAt (l : ι) (i : ℕ) : Program ι α ℕ := do advance i (← getList l)

/-- The iterator `next(before_begin(), i)`, as it comes from the list's own elements. -/
def positionAt (l : ι) : ℕ → Program ι α (Element ι)
  | 0 => return .inl l
  | i + 1 => return .inr (← iteratorAt l i)

def traverseFrom : ℕ → ℕ → Program ι α (List α)
  | 0, _ => failure
  | n + 1, p => do
    if p = 0 then
      return []
    let x ← readData (.inr p)
    return x :: (← traverseFrom n (← readNext (.inr p)))

def traverse (l : ι) : Program ι α (List α) := do traverseFrom (← bound) (← getList l)

/-- The operations on some lists. A position is the number of elements before it: 0 is `before_begin()`. A range is
after its first position, and before the element of its last. -/
inductive Command (ι α : Type)
  | pushFront (l : ι) (x : α)
  | popFront (l : ι)
  | emplaceAfter (l : ι) (i : ℕ) (x : α)
  | insertAfterCopies (l : ι) (i n : ℕ) (x : α)
  | insertAfterRange (l : ι) (i : ℕ) (xs : List α)
  | eraseAfter (l : ι) (i : ℕ)
  | eraseAfterRange (l : ι) (i b : ℕ)
  | resize (l : ι) (sz : ℕ) (x : α)
  | clear (l : ι)
  | spliceAfterAll (l : ι) (i : ℕ) (j : ι)
  | spliceAfterOne (l : ι) (i : ℕ) (j : ι) (a : ℕ)
  | spliceAfterRange (l : ι) (i : ℕ) (j : ι) (a b : ℕ)
  | removeIf (l : ι) (pred : α → Bool)
  | unique (l : ι) (pred : α → α → Bool)
  | reverse (l : ι)

def Command.run (A : Allocator) (temp : ι) : Command ι α → Program ι α Unit
  | pushFront l x => ForwardList.emplaceFront A l x
  | popFront l => ForwardList.popFront l
  | emplaceAfter l i x => do discard <| ForwardList.emplaceAfter A (← positionAt l i) x
  | insertAfterCopies l i n x => do discard <| ForwardList.insertAfterCopies A x n (← positionAt l i)
  | insertAfterRange l i xs => do discard <| ForwardList.insertAfterRange A xs (← positionAt l i)
  | eraseAfter l i => do discard <| ForwardList.eraseAfter (← positionAt l i)
  | eraseAfterRange l i b => do discard <| ForwardList.eraseAfterRange (← positionAt l i) (← iteratorAt l b)
  | resize l sz x => ForwardList.resize A l sz x
  | clear l => ForwardList.clear l
  | spliceAfterAll l i j => do ForwardList.spliceAfterAll (← positionAt l i) j
  | spliceAfterOne l i j a => do ForwardList.spliceAfterOne (← positionAt l i) (← positionAt j a)
  | spliceAfterRange l i j a b => do
    ForwardList.spliceAfterRange (← positionAt l i) (← positionAt j a) (← iteratorAt j b)
  | removeIf l pred => discard <| ForwardList.removeIf pred l
  | unique l pred => discard <| ForwardList.unique pred l
  | reverse l => ForwardList.reverse temp l

def step (A : Allocator) (temp : ι) (m : Memory ι α) (c : Command ι α) : Option (Memory ι α) :=
  (c.run A temp m).map Prod.snd

/-- What the operations do to the lists that the elements make up. -/
def absStep (lists : ι → List α) : Command ι α → ι → List α
  | .pushFront l x => Function.update lists l (insertAt (lists l) 0 [x])
  | .popFront l => Function.update lists l (lists l).tail
  | .emplaceAfter l i x => Function.update lists l (insertAt (lists l) i [x])
  | .insertAfterCopies l i n x => Function.update lists l (insertAt (lists l) i (List.replicate n x))
  | .insertAfterRange l i xs => Function.update lists l (insertAt (lists l) i xs)
  | .eraseAfter l i => Function.update lists l (eraseBetween (lists l) i (i + 1))
  | .eraseAfterRange l i b => Function.update lists l (eraseBetween (lists l) i b)
  | .resize l sz x => Function.update lists l (resized (lists l) sz x)
  | .clear l => Function.update lists l []
  | .spliceAfterAll l i j => move lists l i j 0 (lists j).length
  | .spliceAfterOne l i j a => move lists l i j a (a + 1)
  | .spliceAfterRange l i j a b => move lists l i j a b
  | .removeIf l pred => Function.update lists l ((lists l).filter fun x => !pred x)
  | .unique l pred => Function.update lists l ((lists l).destutter fun x y => pred x y = false)
  | .reverse l => Function.update lists l (lists l).reverse

/-- The positions are in the lists, a range ends where it begins or behind that, and what moves does not move to a place
in itself. -/
def Command.Valid (lists : ι → List α) : Command ι α → Prop
  | emplaceAfter l i _ | insertAfterCopies l i _ _ | insertAfterRange l i _ => i ≤ (lists l).length
  | eraseAfter l i => i < (lists l).length
  | eraseAfterRange l i b => i ≤ b ∧ b ≤ (lists l).length
  | spliceAfterAll l i j => i ≤ (lists l).length ∧ l ≠ j
  | spliceAfterOne l i j a => i ≤ (lists l).length ∧ a < (lists j).length
  | spliceAfterRange l i j a b =>
    i ≤ (lists l).length ∧ a ≤ b ∧ b ≤ (lists j).length ∧ (l = j → i ≤ a ∨ b < i)
  | _ => True

/-- What the operation does is right: nothing is read through `before_begin()`, among others by `resize`, `remove_if` and
`reverse`. A list is not spliced whole or cleared, an element does not move behind its predecessor, where it is, and
`unique` has nothing to erase. -/
def Command.Sound (lists : ι → List α) : Command ι α → Prop
  | pushFront _ _ | popFront _ => True
  | emplaceAfter _ i _ | eraseAfter _ i | eraseAfterRange _ i _ => 0 < i
  | insertAfterCopies _ i n _ => 0 < i ∨ n = 0
  | insertAfterRange _ i xs => 0 < i ∨ xs = []
  | resize _ _ _ | clear _ | reverse _ => False
  | spliceAfterAll _ i j => 0 < i ∧ lists j = []
  | spliceAfterOne l i j a => 0 < i ∧ 0 < a ∧ (l = j → i ≠ a)
  | spliceAfterRange _ i _ a _ => 0 < i ∧ 0 < a
  | removeIf l _ => lists l = []
  | unique l pred => (lists l).IsChain fun x y => pred x y = false

/-- Each list is what its elements contain, in their order, and each element that is allocated is in one list. -/
def Represents (lists : ι → List α) (m : Memory ι α) : Prop := ∃ chain, Holds m chain ∧ contents m chain = lists

variable {A : Allocator} {temp : ι} {m : Memory ι α} {lists : ι → List α} {chain : ι → List ℕ} {l j k : ι} {i n p : ℕ}
  {B C : List ℕ}

omit [DecidableEq ι] in
theorem advance_eq (h : Holds m chain) (hk : chain k = B ++ C) (hn : n ≤ C.length) :
    advance n (C.headD 0) m = some ((C.drop n).headD 0, m) := by
  induction n generalizing B C with
  | zero => rfl
  | succ n ih =>
    cases C with
    | nil => cases hn
    | cons x C =>
      have hk' : chain k = (B ++ [x]) ++ C := by simp [hk]
      have hx : x ∈ m.live := (h.live x).mpr ⟨k, by simp [hk]⟩
      have hlink : m.link (.inr x) = C.headD 0 := by rw [← h.threads.link_endOf hk', endOf_concat]
      rw [advance, List.headD_cons]
      change (readNext (.inr x) m).bind _ = _
      rw [readNext_eq (Memory.readable_inr.mpr hx), hlink]
      exact ih hk' (Nat.le_of_succ_le_succ hn)

omit [DecidableEq ι] in
theorem iteratorAt_eq (h : Holds m chain) (hi : i ≤ (chain l).length) :
    iteratorAt l i m = some (((chain l).drop i).headD 0, m) := by
  have hlist : m.list l = (chain l).headD 0 := (h.threads l).link_eq
  change advance i (m.list l) m = _
  rw [hlist]
  exact advance_eq h (List.nil_append _).symm hi

omit [DecidableEq ι] in
theorem positionAt_eq (h : Holds m chain) (hi : i ≤ (chain l).length) :
    positionAt l i m = some (endOf (.inl l) ((chain l).take i), m) := by
  cases i with
  | zero => rfl
  | succ i =>
    change (iteratorAt l i m).bind _ = _
    rw [iteratorAt_eq h (Nat.le_of_succ_le hi), List.take_succ_eq_append_getElem hi, endOf_concat,
      List.drop_eq_getElem_cons hi]
    rfl

omit [DecidableEq ι] in
theorem traverse_eq (h : Holds m chain) (l : ι) : traverse l m = some (contents m chain l, m) := by
  have hwalk : ∀ {n : ℕ} {B C : List ℕ}, chain l = B ++ C → C.length < n →
      traverseFrom n (C.headD 0) m = some (C.map m.data, m) := by
    intro n
    induction n with
    | zero => exact fun _ hn => absurd hn (Nat.not_lt_zero _)
    | succ n ih =>
      intro B C hk hn
      cases C with
      | nil => rfl
      | cons x C =>
        have hk' : chain l = (B ++ [x]) ++ C := by simp [hk]
        have hmem : x ∈ chain l := by simp [hk]
        have hx : x ∈ m.live := (h.live x).mpr ⟨l, hmem⟩
        have hlink : m.link (.inr x) = C.headD 0 := by rw [← h.threads.link_endOf hk', endOf_concat]
        have hrest := ih hk' (Nat.lt_of_succ_lt_succ hn)
        simp [traverseFrom, h.apart.ne_null hmem, bind, StateT.bind, readData, hx, readNext_eq, hlink, hrest,
          pure_apply, -List.headD_eq_head?_getD]
  have hlist : m.list l = (chain l).headD 0 := (h.threads l).link_eq
  change traverseFrom (m.live.card + 1) (m.list l) m = _
  rw [hlist]
  apply hwalk (List.nil_append _).symm
  apply Nat.lt_succ_of_le
  exact h.card_le (k := l) (A := []) (B := []) (by simp)

/-- Since `__prev` is never moved from `before_begin()`, nothing is erased. -/
theorem unique_eq (h : Holds m chain) (pred : α → α → Bool) (l : ι) : unique pred l m = some (0, m) := by
  have hwalk : ∀ {n : ℕ} {B C : List ℕ}, chain l = B ++ C → C.length < n →
      uniqueLoop pred l n (C.headD 0) (.inl l) 0 m = some (0, m) := by
    intro n
    induction n with
    | zero => exact fun _ hn => absurd hn (Nat.not_lt_zero _)
    | succ n ih =>
      intro B C hk hn
      cases C with
      | nil => rfl
      | cons x C =>
        have hk' : chain l = (B ++ [x]) ++ C := by simp [hk]
        have hmem : x ∈ chain l := by simp [hk]
        have hx : x ∈ m.live := (h.live x).mpr ⟨l, hmem⟩
        have hlink : m.link (.inr x) = C.headD 0 := by rw [← h.threads.link_endOf hk', endOf_concat]
        have hrest := ih hk' (Nat.lt_of_succ_lt_succ hn)
        simp [uniqueLoop, h.apart.ne_null hmem, bind, StateT.bind, hx, readNext_eq, hlink, hrest,
          -List.headD_eq_head?_getD]
  have hlist : m.list l = (chain l).headD 0 := (h.threads l).link_eq
  change uniqueLoop pred l (m.live.card + 1) (m.list l) (.inl l) 0 m = _
  rw [hlist]
  apply hwalk (List.nil_append _).symm
  apply Nat.lt_succ_of_le
  exact h.card_le (k := l) (A := []) (B := []) (by simp)

/-- The place that a position is at, when a segment has left its list. -/
theorem endOf_take_rest (chain : ι → List ℕ) {a b : ℕ} (hab : a ≤ b) (hb : b ≤ (chain j).length)
    (hi : i ≤ (chain l).length) (hself : l = j → i ≤ a ∨ b < i) :
    endOf (.inl l : Element ι) ((Function.update chain j (eraseBetween (chain j) a b) l).take
      (if l = j ∧ b ≤ i then i - (b - a) else i)) = endOf (.inl l) ((chain l).take i) := by
  obtain rfl | hlj := eq_or_ne l j
  · rw [Function.update_self, eraseBetween]
    obtain hia | hbi := hself rfl
    · have hpos : (if l = l ∧ b ≤ i then i - (b - a) else i) = i := by
        split_ifs with h
        · omega
        · rfl
      rw [hpos, List.take_append_of_le_length (by simp; omega), List.take_take, Nat.min_eq_left hia]
    · have hlen : ((chain l).take a).length = a := by
        rw [List.length_take, Nat.min_eq_left (hab.trans hb)]
      have hpos : i - (b - a) = ((chain l).take a).length + (i - b) := by omega
      rw [if_pos ⟨rfl, hbi.le⟩, hpos, List.take_length_add_append, endOf_append]
      have hsplit : (chain l).take i = (chain l).take b ++ ((chain l).drop b).take (i - b) := by
        rw [← List.take_add, Nat.add_sub_cancel' hbi.le]
      rw [hsplit, endOf_append]
      apply endOf_eq_of_ne_nil
      apply List.ne_nil_of_length_pos
      rw [List.length_take, List.length_drop]
      omega
  · rw [Function.update_of_ne hlj, if_neg fun h => hlj h.1]

omit [DecidableEq ι] in
theorem take_ne_nil (hi : i ≤ (chain l).length) (hpos : 0 < i) : (chain l).take i ≠ [] := by
  apply List.ne_nil_of_length_pos
  rwa [List.length_take, Nat.min_eq_left hi]

omit [DecidableEq ι] in
/-- Places behind different elements are different. -/
theorem endOf_take_inj (h : Apart 0 chain) {a : ℕ} (hi : i ≤ (chain l).length) (ha : a ≤ (chain j).length)
    (hipos : 0 < i) (hapos : 0 < a)
    (heq : endOf (.inl l : Element ι) ((chain l).take i) = endOf (.inl j) ((chain j).take a)) : l = j ∧ i = a := by
  obtain ⟨i, rfl⟩ := Nat.exists_eq_succ_of_ne_zero hipos.ne'
  obtain ⟨a, rfl⟩ := Nat.exists_eq_succ_of_ne_zero hapos.ne'
  rw [List.take_succ_eq_append_getElem hi, List.take_succ_eq_append_getElem ha, endOf_concat, endOf_concat] at heq
  have helem := Sum.inr_injective heq
  obtain rfl := h.disjoint l j _ (List.getElem_mem hi) (helem ▸ List.getElem_mem ha)
  exact ⟨rfl, congrArg Nat.succ ((h.nodup l).getElem_inj_iff.mp helem)⟩

/-- A range that moves from behind one element of a list to behind another. -/
theorem leads_move (prog : Element ι → Element ι → Program ι α Unit) (h : Holds m chain) {a b : ℕ} (hab : a ≤ b)
    (hb : b ≤ (chain j).length) (hi : i ≤ (chain l).length) (hipos : 0 < i) (hapos : 0 < a)
    (hself : l = j → i ≤ a ∨ b < i) (hne : l = j → i ≠ a)
    (hspec : ∀ A' B' : List ℕ, Function.update chain j ((chain j).take a ++ [] ++ (chain j).drop b) l = A' ++ B' →
      A' ≠ [] → endOf (.inl l) A' ≠ endOf (.inl j) ((chain j).take a) →
      Leads (prog (endOf (.inl l) A') (endOf (.inl j) ((chain j).take a))) m fun _ m' =>
        Holds m' (Function.update (Function.update chain j ((chain j).take a ++ [] ++ (chain j).drop b)) l
          (A' ++ slice (chain j) a b ++ B')) ∧ m'.data = m.data) :
    Leads (prog (endOf (.inl l) ((chain l).take i)) (endOf (.inl j) ((chain j).take a))) m fun _ m' =>
      Represents (move (contents m chain) l i j a b) m' := by
  have hplace := endOf_take_rest chain hab hb hi hself
  have hrest : (chain j).take a ++ [] ++ (chain j).drop b = eraseBetween (chain j) a b := by
    rw [List.append_nil, eraseBetween]
  rw [hrest] at hspec
  have hends : endOf (.inl l : Element ι) ((chain l).take i) ≠ endOf (.inl j) ((chain j).take a) := by
    intro heq
    obtain ⟨hlj, hia⟩ := endOf_take_inj h.apart hi (hab.trans hb) hipos hapos heq
    exact hne hlj hia
  have hspec := hspec _ _ (List.take_append_drop (if l = j ∧ b ≤ i then i - (b - a) else i) _).symm ?_
    (hplace ▸ hends)
  · rw [hplace] at hspec
    apply hspec.mono
    rintro _ m' ⟨h', hdata⟩
    refine ⟨_, h', ?_⟩
    have hmap := map_move m.data chain l i j a b
    rw [contents_congr (m := m) fun _ _ _ => by rw [hdata]]
    exact hmap
  · intro hnil
    rw [hnil] at hplace
    obtain ⟨x, -, hx⟩ := endOf_mem (s := (.inl l : Element ι)) (take_ne_nil hi hipos)
    rw [hx] at hplace
    cases hplace

omit [DecidableEq ι] in
theorem Holds.represents {m' : Memory ι α} (h : Holds m' chain) (hdata : m'.data = m.data) :
    Represents (contents m chain) m' := ⟨chain, h, contents_congr fun _ _ _ => by rw [hdata]⟩

theorem leads_insertAt {xs : List α} (h : Holds m chain) (hi : i ≤ (chain l).length) (hsound : 0 < i ∨ xs = []) :
    Leads (insertAfterRange A xs (endOf (.inl l) ((chain l).take i))) m fun _ m' =>
      Represents (Function.update (contents m chain) l (insertAt (contents m chain l) i xs)) m' := by
  have hspec := insertAfterRange_spec (A := A) h (List.take_append_drop i (chain l)).symm
    (hsound.imp_left (take_ne_nil hi))
  rwa [List.length_take, Nat.min_eq_left hi] at hspec

theorem Represents.of_eraseBetween {a b : ℕ} {m' : Memory ι α} (hdata : m'.data = m.data)
    (h : Holds m' (Function.update chain l (eraseBetween (chain l) a b))) :
    Represents (Function.update (contents m chain) l (eraseBetween (contents m chain l) a b)) m' := by
  refine ⟨_, h, ?_⟩
  rw [contents_congr (m := m) fun _ _ _ => by rw [hdata], contents_update, map_eraseBetween]
  rfl

theorem run_spec (h : Holds m chain) (c : Command ι α) (hvalid : c.Valid (contents m chain))
    (hsound : c.Sound (contents m chain)) :
    Leads (c.run A temp) m fun _ m' => Represents (absStep (contents m chain) c) m' := by
  have hlength : ∀ l, (contents m chain l).length = (chain l).length := fun l => List.length_map m.data
  cases c with
  | pushFront l x => exact emplaceFront_spec h x
  | popFront l => exact popFront_spec h
  | emplaceAfter l i x =>
    rw [Command.Valid, hlength] at hvalid
    have hsplit := (List.take_append_drop i (chain l)).symm
    apply Leads.bind_eq (positionAt_eq h hvalid)
    apply Leads.discard
    apply (emplaceAfter_spec h hsplit (take_ne_nil hvalid hsound) x).mono
    rintro _ m' ⟨e, -, h', hcontents⟩
    refine ⟨_, h', ?_⟩
    rw [hcontents, List.length_take, Nat.min_eq_left hvalid]
    rfl
  | insertAfterCopies l i n x =>
    rw [Command.Valid, hlength] at hvalid
    apply Leads.bind_eq (positionAt_eq h hvalid)
    rw [insertAfterCopies_eq]
    exact Leads.discard (leads_insertAt h hvalid (hsound.imp_right fun hn => by rw [hn, List.replicate_zero]))
  | insertAfterRange l i xs =>
    rw [Command.Valid, hlength] at hvalid
    apply Leads.bind_eq (positionAt_eq h hvalid)
    exact Leads.discard (leads_insertAt h hvalid hsound)
  | eraseAfter l i =>
    rw [Command.Valid, hlength] at hvalid
    have hsplit : chain l = (chain l).take i ++ [(chain l)[i]] ++ (chain l).drop (i + 1) := by
      rw [← List.take_succ_eq_append_getElem hvalid, List.take_append_drop]
    apply Leads.bind_eq (positionAt_eq h hvalid.le)
    apply Leads.discard
    apply (eraseAfter_spec h hsplit (take_ne_nil hvalid.le hsound)).mono
    rintro _ m' ⟨-, h', hdata⟩
    rw [List.append_nil] at h'
    exact Represents.of_eraseBetween hdata h'
  | eraseAfterRange l i b =>
    rw [Command.Valid, hlength] at hvalid
    apply Leads.bind_eq (positionAt_eq h (hvalid.1.trans hvalid.2))
    apply Leads.bind_eq (iteratorAt_eq h hvalid.2)
    apply Leads.discard
    apply (eraseAfterRange_spec h (eq_slices hvalid.1) (take_ne_nil (hvalid.1.trans hvalid.2) hsound)).mono
    rintro _ m' ⟨-, h', hdata⟩
    exact Represents.of_eraseBetween hdata h'
  | resize l sz x => exact hsound.elim
  | clear l => exact hsound.elim
  | reverse l => exact hsound.elim
  | spliceAfterAll l i j =>
    rw [Command.Valid, hlength] at hvalid
    obtain ⟨hipos, hj⟩ := hsound
    have hj' : chain j = [] := List.map_eq_nil_iff.mp hj
    apply Leads.bind_eq (positionAt_eq h hvalid.1)
    apply (spliceAfterAll_spec h (h.readable (List.take_append_drop i (chain l)).symm
      (take_ne_nil hvalid.1 hipos)) hj').mono
    rintro _ m' ⟨h', hdata⟩
    simp only [absStep]
    rw [move_nil hj]
    exact h'.represents hdata
  | spliceAfterOne l i j a =>
    rw [Command.Valid, hlength, hlength] at hvalid
    obtain ⟨hi, ha⟩ := hvalid
    obtain ⟨hipos, hapos, hne⟩ := hsound
    have hslice := slice_succ ha
    apply Leads.bind_eq (positionAt_eq h hi)
    apply Leads.bind_eq (positionAt_eq h ha.le)
    by_cases hself : l = j ∧ i = a + 1
    · obtain ⟨rfl, rfl⟩ := hself
      rw [List.take_succ_eq_append_getElem ha, endOf_concat]
      apply (spliceAfterOne_self h (hslice ▸ eq_slices (Nat.le_succ a)) (take_ne_nil ha.le hapos)).mono
      rintro _ m' ⟨h', hdata⟩
      simp only [absStep]
      rw [move_self _ (Nat.le_succ a) (by rwa [hlength]) (Or.inr rfl)]
      exact h'.represents hdata
    · apply leads_move spliceAfterOne h (Nat.le_succ a) ha hi hipos hapos (fun hlj => ?_) hne
      · intro A' B' hk hA' hends
        rw [hslice]
        exact spliceAfterOne_spec h (hslice ▸ eq_slices (Nat.le_succ a)) hk hA' (take_ne_nil ha.le hapos) hends
      · have := hne hlj
        have : i ≠ a + 1 := fun hia => hself ⟨hlj, hia⟩
        omega
  | spliceAfterRange l i j a b =>
    rw [Command.Valid, hlength, hlength] at hvalid
    obtain ⟨hi, hab, hb, hself⟩ := hvalid
    obtain ⟨hipos, hapos⟩ := hsound
    apply Leads.bind_eq (positionAt_eq h hi)
    apply Leads.bind_eq (positionAt_eq h (hab.trans hb))
    apply Leads.bind_eq (iteratorAt_eq h hb)
    by_cases hsame : l = j ∧ i = a
    · obtain ⟨rfl, rfl⟩ := hsame
      have hreadable := h.readable (List.take_append_drop i (chain l)).symm (take_ne_nil hi hipos)
      apply (spliceAfterRange_self h hreadable _).mono
      rintro _ m' ⟨h', hdata⟩
      simp only [absStep]
      rw [move_self _ hab (by rwa [hlength]) (Or.inl rfl)]
      exact h'.represents hdata
    · apply leads_move (fun p f => spliceAfterRange p f _) h hab hb hi hipos hapos hself
        fun hlj hia => hsame ⟨hlj, hia⟩
      intro A' B' hk hA' hends
      exact spliceAfterRange_spec h (eq_slices hab) hk hA' (take_ne_nil (hab.trans hb) hapos) hends
  | removeIf l pred =>
    have hl : contents m chain l = [] := hsound
    have hrun : removeIf pred l m = some (0, m) := by
      have hlist : m.list l = 0 := by
        have hlink := (h.threads l).link_eq
        rwa [List.map_eq_nil_iff.mp hl] at hlink
      simp [removeIf, removeLoop, bind, StateT.bind, bound, getList, hlist, pure_apply]
    apply Leads.discard
    refine Leads.of_eq hrun ⟨chain, h, ?_⟩
    rw [absStep, hl, List.filter_nil, Function.update_eq_self_iff.mpr hl.symm]
  | unique l pred =>
    apply Leads.discard
    refine Leads.of_eq (unique_eq h pred l) ⟨chain, h, ?_⟩
    rw [absStep, (List.destutter_eq_self_iff _ _).mpr hsound, Function.update_eq_self]

/-- The lists before the first operation, which are empty. -/
def initial (ι : Type) (data : ℕ → α) : Memory ι α := ⟨fun _ => 0, fun _ => 0, data, ∅⟩

omit [DecidableEq ι] in
theorem represents_initial (data : ℕ → α) : Represents (fun _ => []) (initial ι data) := by
  refine ⟨fun _ => [], ⟨⟨?_, ?_, ?_⟩, fun _ => rfl, ?_⟩, rfl⟩ <;> simp [initial]

/-- Every run of operations that are right is one on sequences. -/
theorem forwardList_refines (A : Allocator) (temp : ι) (data : ℕ → α) (cs : List (Command ι α))
    (hcs : AllAllowed absStep (fun lists c => c.Valid lists ∧ c.Sound lists) (fun _ => []) cs) :
    ∃ m, cs.foldlM (step A temp) (initial ι data) = some m ∧ Represents (cs.foldl absStep fun _ => []) m ∧
      ∀ l, traverse l m = some (cs.foldl absStep (fun _ => []) l, m) := by
  have hstep : ∀ lists m (c : Command ι α), Represents lists m → c.Valid lists ∧ c.Sound lists →
      ∃ m', step A temp m c = some m' ∧ Represents (absStep lists c) m' := by
    rintro _ m c ⟨chain, h, rfl⟩ ⟨hvalid, hsound⟩
    obtain ⟨⟨⟩, m', hrun, hm'⟩ : Leads (c.run A temp) m fun _ m' => Represents (absStep (contents m chain) c) m' :=
      run_spec h c hvalid hsound
    exact ⟨m', by rw [step, hrun]; rfl, hm'⟩
  obtain ⟨m, hrun, hm⟩ := run_refines hstep (represents_initial data) hcs
  refine ⟨m, hrun, hm, fun l => ?_⟩
  obtain ⟨chain, h, hcontents⟩ := hm
  rw [← hcontents]
  exact traverse_eq h l

/-- An allocator that takes the address behind all others. -/
def allocateBehind : Allocator where
  allocate live := live.sup id + 1
  allocate_notMem := sup_succ_notMem
  allocate_ne_null := sup_succ_ne_zero

theorem forwardList_refines_moves :
    ∃ m, [Command.pushFront false 3, .pushFront false 1, .insertAfterRange false 1 [2, 2], .pushFront true 7,
        .unique true fun x y => x == y, .spliceAfterOne true 1 false 1, .spliceAfterRange false 2 false 1 1,
        .eraseAfter false 1, .spliceAfterRange true 2 false 1 2].foldlM (step allocateBehind true)
          (initial Bool fun _ => 0) = some m ∧ traverse true m = some ([7, 2, 3], m) := by
  obtain ⟨m, hrun, -, htraverse⟩ := forwardList_refines allocateBehind true (fun _ => (0 : ℕ))
    [Command.pushFront false 3, .pushFront false 1, .insertAfterRange false 1 [2, 2], .pushFront true 7,
      .unique true fun x y => x == y, .spliceAfterOne true 1 false 1, .spliceAfterRange false 2 false 1 1,
      .eraseAfter false 1, .spliceAfterRange true 2 false 1 2]
    (by simp [AllAllowed, Command.Valid, Command.Sound, absStep, insertAt, move, eraseBetween, slice])
  exact ⟨m, hrun, htraverse true⟩

theorem clear_keeps_first :
    ¬ ∀ cs : List (Command Unit ℕ), AllAllowed absStep (fun lists c => c.Valid lists) (fun _ => []) cs →
      ∃ m, cs.foldlM (step allocateBehind ()) (initial Unit fun _ => 0) = some m ∧
        ∀ l, traverse l m = some (cs.foldl absStep (fun _ => []) l, m) := by
  intro h
  obtain ⟨m, hrun, htraverse⟩ := h [.pushFront () 1, .clear ()] ⟨trivial, trivial, trivial⟩
  have hleft : (([.pushFront () 1, .clear ()] : List (Command Unit ℕ)).foldlM (step allocateBehind ())
      (initial Unit fun _ => 0)).bind (fun m => (traverse () m).map Prod.fst) = some [1] := by
    decide
  rw [hrun, Option.bind_some, htraverse] at hleft
  cases hleft

end XviOs.ForwardList
