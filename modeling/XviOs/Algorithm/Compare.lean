import XviOs.Algorithm.Sequence

namespace XviOs.Algorithm

section Definitions

variable {α β : Type}

/-- The categories of iterators that can be compared. -/
inductive IteratorCategory
  | input
  | forward
  | bidirectional
  | randomAccess
  | contiguous

/-- `is_base_of_v<random_access_iterator_tag, iterator_category>`. -/
def IteratorCategory.isRandomAccess : IteratorCategory → Bool
  | randomAccess | contiguous => true
  | _ => false

variable (pred : α → β → Bool) (first : List α) (second : List β)

/-- An iterator is the number of elements before it. There is nothing to read at the end of its range or behind that,
and a loop fails too when it has not ended after so many rounds. -/
def equalLoop : Nat → Nat → Nat → Option Bool
  | 0, _, _ => none
  | n + 1, first1, first2 =>
    if first1 ≠ first.length ∧ first2 ≠ second.length then do
      if pred (← first[first1]?) (← second[first2]?) = false then some false
      else equalLoop n (first1 + 1) (first2 + 1)
    else some true

/-- `equal` of two ranges. -/
def equal (category category' : IteratorCategory) : Option Bool :=
  if category.isRandomAccess ∧ category'.isRandomAccess ∧ first.length ≠ second.length then some false
  else equalLoop pred first second (first.length + 1) 0 0

def mismatchLoop : Nat → Nat → Nat → Option (Nat × Nat)
  | 0, _, _ => none
  | n + 1, first1, first2 =>
    if first1 ≠ first.length ∧ first2 ≠ second.length then do
      if pred (← first[first1]?) (← second[first2]?) = false then some (first1, first2)
      else mismatchLoop n (first1 + 1) (first2 + 1)
    else some (first1, first2)

/-- `mismatch` of two ranges. -/
def mismatch : Option (Nat × Nat) := mismatchLoop pred first second (first.length + 1) 0 0

def countIfLoop (pred : α → Bool) (range : List α) : Nat → Nat → Nat → Option Nat
  | 0, _, _ => none
  | n + 1, first, count =>
    if first ≠ range.length then do
      countIfLoop pred range n (first + 1) (if pred (← range[first]?) then count + 1 else count)
    else some count

def countIf (pred : α → Bool) (range : List α) (first : Nat) : Option Nat :=
  countIfLoop pred range (range.length + 1) first 0

def isPermutationLoop (pred : α → α → Bool) (first second : List α) (start2 : Nat) : Nat → Nat → Option Bool
  | 0, _ => none
  | n + 1, start1 =>
    if start1 ≠ first.length then do
      let x ← first[start1]?
      -- the first range is counted from where the loop is, the second one from its start
      let n1 ← countIf (pred x) first start1
      let n2 ← countIf (pred x) second start2
      if n1 ≠ n2 then some false else isPermutationLoop pred first second start2 n (start1 + 1)
    else some true

/-- `is_permutation` of two ranges. -/
def isPermutation (pred : α → α → Bool) (first second : List α) (category category' : IteratorCategory) :
    Option Bool :=
  if category.isRandomAccess ∧ category'.isRandomAccess ∧ first.length ≠ second.length then some false
  else do
    let (start1, start2) ← mismatch pred first second
    if start1 = first.length ∧ start2 = second.length then some true
    else isPermutationLoop pred first second start2 (first.length + 1) start1

/-- As many elements, and each matches the one in its place. -/
def Matches : List α → List β → Prop := List.Forall₂ fun a b => pred a b = true

/-- Some rearrangement of the second range matches the first. -/
def Rearranged (pred : α → α → Bool) (l l' : List α) : Prop := ∃ r, r.Perm l' ∧ Matches pred l r

/-- The answer, whatever the categories of the iterators are. -/
def EqualRight : Prop :=
  ∀ category category', ∃ b, equal pred first second category category' = some b ∧
    (b = true ↔ Matches pred first second)

/-- An input iterator cannot be given to `is_permutation`. -/
def PermutationRight (pred : α → α → Bool) (first second : List α) : Prop :=
  ∀ category category', category ≠ .input → category' ≠ .input →
    ∃ b, isPermutation pred first second category category' = some b ∧
    (b = true ↔ Rearranged pred first second)

/-- What is left of two ranges without the beginning that they have in common. -/
def remainders : List α → List β → List α × List β
  | x :: l, y :: l' => if pred x y then remainders l l' else (x :: l, y :: l')
  | l, l' => (l, l')

/-- No two elements match. -/
def Distinct (pred : α → α → Bool) (l : List α) : Prop := l.Pairwise fun a b => pred a b = false

/-- Each element of the one range matches exactly one of the other. -/
def Once (pred : α → α → Bool) (l l' : List α) : Prop := ∀ x ∈ l, l'.countP (pred x) = 1

end Definitions

section Positions

variable {α : Type} {range rest : List α} {x : α} {i : Nat}

/-- These elements are from the position on. -/
def From (range : List α) (i : Nat) (rest : List α) : Prop := i ≤ range.length ∧ range.drop i = rest

theorem From.start (range : List α) : From range 0 range := ⟨Nat.zero_le _, rfl⟩

theorem From.length_eq (h : From range i rest) : i + rest.length = range.length := by
  rw [← h.2, List.length_drop, Nat.add_sub_cancel' h.1]

theorem From.end_eq (h : From range i []) : i = range.length := h.length_eq

theorem From.ne_end (h : From range i (x :: rest)) : i ≠ range.length := by
  have hlen := h.length_eq
  rw [List.length_cons] at hlen
  omega

theorem From.read (h : From range i (x :: rest)) : range[i]? = some x := by
  have hread : (range.drop i)[0]? = range[i]? := List.getElem?_drop
  rw [h.2] at hread
  exact hread.symm

theorem From.next (h : From range i (x :: rest)) : From range (i + 1) rest := by
  have hlen := h.length_eq
  rw [List.length_cons] at hlen
  exact ⟨by omega, by rw [← List.drop_drop, h.2]; rfl⟩

end Positions

section Loops

variable {α β : Type} {pred : α → β → Bool} {first rest : List α} {second rest' : List β} {i j n : Nat}

/-- The loop of `equal` ends with the shorter range. -/
theorem equalLoop_eq (pred : α → β → Bool) (hi : From first i rest) (hj : From second j rest') (hn : rest.length < n) :
    ∃ b, equalLoop pred first second n i j = some b ∧
      (b = true ↔ Matches pred (rest.take rest'.length) (rest'.take rest.length)) := by
  induction n generalizing rest rest' i j with
  | zero => exact absurd hn (Nat.not_lt_zero _)
  | succ n ih =>
    rw [equalLoop]
    cases rest with
    | nil => exact ⟨true, if_neg fun h => h.1 hi.end_eq, by simp [Matches]⟩
    | cons x rest =>
      cases rest' with
      | nil => exact ⟨true, if_neg fun h => h.2 hj.end_eq, by simp [Matches]⟩
      | cons y rest' =>
        rw [if_pos ⟨hi.ne_end, hj.ne_end⟩, hi.read, hj.read]
        simp only [Option.bind_eq_bind, Option.bind_some, List.length_cons, List.take_succ_cons]
        cases hxy : pred x y with
        | false => exact ⟨false, if_pos rfl, by simp [Matches, hxy]⟩
        | true =>
          obtain ⟨b, hloop, hb⟩ := ih hi.next hj.next (Nat.lt_of_succ_lt_succ hn)
          refine ⟨b, by simpa using hloop, hb.trans ?_⟩
          simp [Matches, hxy]

theorem mismatchLoop_eq (pred : α → β → Bool) (hi : From first i rest) (hj : From second j rest') (hn : rest.length < n) :
    ∃ i' j', mismatchLoop pred first second n i j = some (i', j') ∧
      From first i' (remainders pred rest rest').1 ∧ From second j' (remainders pred rest rest').2 := by
  induction n generalizing rest rest' i j with
  | zero => exact absurd hn (Nat.not_lt_zero _)
  | succ n ih =>
    rw [mismatchLoop]
    cases rest with
    | nil => exact ⟨i, j, if_neg fun h => h.1 hi.end_eq, by simpa [remainders] using ⟨hi, hj⟩⟩
    | cons x rest =>
      cases rest' with
      | nil => exact ⟨i, j, if_neg fun h => h.2 hj.end_eq, by simpa [remainders] using ⟨hi, hj⟩⟩
      | cons y rest' =>
        rw [if_pos ⟨hi.ne_end, hj.ne_end⟩, hi.read, hj.read, remainders]
        simp only [Option.bind_eq_bind, Option.bind_some]
        cases hxy : pred x y with
        | false => exact ⟨i, j, if_pos rfl, hi, hj⟩
        | true => simpa using ih hi.next hj.next (Nat.lt_of_succ_lt_succ hn)

theorem countIfLoop_eq {pred : α → Bool} {count : Nat} (hi : From first i rest) (hn : rest.length < n) :
    countIfLoop pred first n i count = some (count + rest.countP pred) := by
  induction n generalizing rest i count with
  | zero => exact absurd hn (Nat.not_lt_zero _)
  | succ n ih =>
    rw [countIfLoop]
    cases rest with
    | nil => exact if_neg fun h => h hi.end_eq
    | cons x rest =>
      rw [if_pos hi.ne_end, hi.read]
      simp only [Option.bind_eq_bind, Option.bind_some]
      rw [ih hi.next (Nat.lt_of_succ_lt_succ hn), List.countP_cons]
      split_ifs
      · rw [Nat.add_assoc, Nat.add_comm 1]
      · rw [Nat.add_zero]

theorem countIf_eq {pred : α → Bool} (hi : From first i rest) : countIf pred first i = some (rest.countP pred) := by
  have hlen := hi.length_eq
  rw [countIf, countIfLoop_eq hi (by omega), Nat.zero_add]

end Loops

section Equal

variable {α β : Type} {pred : α → β → Bool} {first : List α} {second : List β}

theorem Matches.length_eq (h : Matches pred first second) : first.length = second.length := List.Forall₂.length_eq h

theorem matches_iff : Matches pred first second ↔
    first.length = second.length ∧ Matches pred (first.take second.length) (second.take first.length) := by
  constructor
  · intro h
    have hlen := h.length_eq
    rw [List.take_of_length_le hlen.le, List.take_of_length_le hlen.ge]
    exact ⟨hlen, h⟩
  · rintro ⟨hlen, h⟩
    rwa [List.take_of_length_le hlen.le, List.take_of_length_le hlen.ge] at h

/-- Only with two random access iterators the lengths are compared. -/
theorem equal_eq (pred : α → β → Bool) (first : List α) (second : List β) (category category' : IteratorCategory) :
    ∃ b, equal pred first second category category' = some b ∧
      (b = true ↔ (category.isRandomAccess ∧ category'.isRandomAccess → first.length = second.length) ∧
        Matches pred (first.take second.length) (second.take first.length)) := by
  rw [equal]
  by_cases hlen : category.isRandomAccess ∧ category'.isRandomAccess ∧ first.length ≠ second.length
  · refine ⟨false, if_pos hlen, iff_of_false Bool.false_ne_true ?_⟩
    exact fun h => hlen.2.2 (h.1 ⟨hlen.1, hlen.2.1⟩)
  · rw [if_neg hlen]
    obtain ⟨b, hloop, hb⟩ := equalLoop_eq pred (From.start first) (From.start second) (Nat.lt_succ_self _)
    refine ⟨b, hloop, hb.trans (and_iff_right ?_).symm⟩
    intro hrandom
    by_contra hne
    exact hlen ⟨hrandom.1, hrandom.2, hne⟩

theorem equalRight_iff : EqualRight pred first second ↔
    (Matches pred (first.take second.length) (second.take first.length) → first.length = second.length) := by
  constructor
  · intro h hmatches
    obtain ⟨b, hrun, hb⟩ := h .forward .forward
    obtain ⟨b', hrun', hb'⟩ := equal_eq pred first second .forward .forward
    rw [hrun, Option.some_inj] at hrun'
    subst hrun'
    exact (hb.mp (hb'.mpr ⟨fun h => (Bool.false_ne_true h.1).elim, hmatches⟩)).length_eq
  · intro h category category'
    obtain ⟨b, hrun, hb⟩ := equal_eq pred first second category category'
    refine ⟨b, hrun, hb.trans ?_⟩
    constructor
    · rintro ⟨-, hmatches⟩
      exact matches_iff.mpr ⟨h hmatches, hmatches⟩
    · intro hmatches
      exact ⟨fun _ => hmatches.length_eq, (matches_iff.mp hmatches).2⟩

end Equal

section Permutation

variable {α : Type} {pred : α → α → Bool} {l l' first second rest rest' : List α} {x y : α} {i j n : Nat}

theorem pred_congr (hpred : Equivalence fun a b => pred a b = true) (h : pred x y = true) : pred x = pred y := by
  funext z
  rw [Bool.eq_iff_iff]
  exact ⟨fun hz => hpred.trans (hpred.symm h) hz, fun hz => hpred.trans h hz⟩

theorem Matches.countP_eq (hpred : Equivalence fun a b => pred a b = true) (h : Matches pred l l') (z : α) :
    l.countP (pred z) = l'.countP (pred z) := by
  induction h with
  | nil => rfl
  | @cons x y l l' hxy _ ih =>
    have hz : pred z x = pred z y := by
      rw [Bool.eq_iff_iff]
      exact ⟨fun h => hpred.trans h hxy, fun h => hpred.trans h (hpred.symm hxy)⟩
    rw [List.countP_cons, List.countP_cons, ih, hz]

/-- An element that another one matches can be put in front. -/
theorem exists_perm_of_countP_pos (h : 0 < l'.countP (pred x)) : ∃ y r, pred x y = true ∧ l'.Perm (y :: r) := by
  obtain ⟨y, hy, hxy⟩ := List.countP_pos_iff.mp h
  obtain ⟨s, t, rfl⟩ := List.append_of_mem hy
  exact ⟨y, s ++ t, hxy, List.perm_middle⟩

/-- What matters is how many elements there are of each class. -/
theorem rearranged_iff_countP (hpred : Equivalence fun a b => pred a b = true) :
    Rearranged pred l l' ↔ ∀ z, l.countP (pred z) = l'.countP (pred z) := by
  constructor
  · rintro ⟨r, hperm, hmatches⟩ z
    rw [hmatches.countP_eq hpred z, hperm.countP_eq]
  · intro h
    induction l generalizing l' with
    | nil =>
      refine ⟨[], ?_, List.Forall₂.nil⟩
      cases l' with
      | nil => exact List.Perm.refl _
      | cons y l' =>
        have hy := h y
        rw [List.countP_cons_of_pos (hpred.refl y)] at hy
        simp at hy
    | cons x l ih =>
      have hx := h x
      rw [List.countP_cons_of_pos (hpred.refl x)] at hx
      obtain ⟨y, r, hxy, hperm⟩ := exists_perm_of_countP_pos (show 0 < l'.countP (pred x) by omega)
      have hrest : ∀ z, l.countP (pred z) = r.countP (pred z) := by
        intro z
        have hz := h z
        have hclass := Matches.countP_eq hpred (List.Forall₂.cons hxy List.Forall₂.nil : Matches pred [x] [y]) z
        rw [hperm.countP_eq, ← List.singleton_append, ← List.singleton_append (l := r), List.countP_append,
          List.countP_append, hclass] at hz
        omega
      obtain ⟨s, hs, hmatches⟩ := ih hrest
      exact ⟨y :: s, (hs.cons y).trans hperm.symm, List.Forall₂.cons hxy hmatches⟩

theorem Rearranged.length_eq (h : Rearranged pred l l') : l.length = l'.length := by
  obtain ⟨r, hperm, hmatches⟩ := h
  rw [hmatches.length_eq, hperm.length_eq]

theorem Distinct.countP_eq (hpred : Equivalence fun a b => pred a b = true) (h : Distinct pred l) (hx : x ∈ l) :
    l.countP (pred x) = 1 := by
  induction l with
  | nil => cases hx
  | cons y l ih =>
    obtain ⟨hy, hl⟩ := List.pairwise_cons.mp h
    obtain rfl | hmem := List.mem_cons.mp hx
    · rw [List.countP_cons_of_pos (hpred.refl x), List.countP_eq_zero.mpr fun z hz => by simp [hy z hz]]
    · rw [List.countP_cons_of_neg, ih hl hmem]
      intro hxy
      have hne := hy x hmem
      rw [hpred.symm hxy] at hne
      cases hne

/-- The elements of a rearrangement of distinct ones match once each, and no other elements do when there are as
many. -/
theorem Distinct.rearranged_iff (hpred : Equivalence fun a b => pred a b = true) (h : Distinct pred l) :
    Rearranged pred l l' ↔ l.length = l'.length ∧ Once pred l l' := by
  constructor
  · intro hrearr
    refine ⟨hrearr.length_eq, fun x hx => ?_⟩
    rw [← (rearranged_iff_countP hpred).mp hrearr x, h.countP_eq hpred hx]
  · rintro ⟨hlen, honce⟩
    induction l generalizing l' with
    | nil =>
      rw [List.eq_nil_of_length_eq_zero hlen.symm]
      exact ⟨[], List.Perm.refl _, List.Forall₂.nil⟩
    | cons x l ih =>
      obtain ⟨hx, hl⟩ := List.pairwise_cons.mp h
      obtain ⟨y, r, hxy, hperm⟩ :=
        exists_perm_of_countP_pos (Nat.lt_of_lt_of_eq Nat.one_pos (honce x List.mem_cons_self).symm)
      have hr : l.length = r.length := by
        have hlen' := hperm.length_eq
        rw [← hlen, List.length_cons, List.length_cons] at hlen'
        omega
      obtain ⟨s, hs, hmatches⟩ := ih hl hr fun z hz => by
        have hz' := honce z (List.mem_cons_of_mem x hz)
        rw [hperm.countP_eq, List.countP_cons_of_neg] at hz'
        · exact hz'
        · intro hzy
          have hne := hx z hz
          rw [hpred.trans hxy (hpred.symm hzy)] at hne
          cases hne
      exact ⟨y :: s, (hs.cons y).trans hperm.symm, List.Forall₂.cons hxy hmatches⟩

/-- The counts agree when no element matches one behind it. -/
theorem isPermutationLoop_eq (hpred : Equivalence fun a b => pred a b = true) (hi : From first i rest)
    (hj : From second j rest') (hn : rest.length < n) :
    ∃ b, isPermutationLoop pred first second j n i = some b ∧
      (b = true ↔ Distinct pred rest ∧ Once pred rest rest') := by
  induction n generalizing rest i with
  | zero => exact absurd hn (Nat.not_lt_zero _)
  | succ n ih =>
    rw [isPermutationLoop]
    cases rest with
    | nil => exact ⟨true, if_neg fun h => h hi.end_eq, by simp [Distinct, Once]⟩
    | cons x rest =>
      rw [if_pos hi.ne_end, hi.read]
      simp only [Option.bind_eq_bind, Option.bind_some]
      rw [countIf_eq hi, countIf_eq hj]
      simp only [Option.bind_some]
      rw [List.countP_cons_of_pos (hpred.refl x)]
      by_cases hcount : rest.countP (pred x) + 1 = rest'.countP (pred x)
      · rw [if_neg (not_not.mpr hcount)]
        obtain ⟨b, hloop, hb⟩ := ih hi.next (Nat.lt_of_succ_lt_succ hn)
        refine ⟨b, hloop, hb.trans ?_⟩
        constructor
        · rintro ⟨hdistinct, honce⟩
          have hx : ∀ y ∈ rest, pred x y = false := by
            intro y hy
            by_contra hxy
            rw [Bool.not_eq_false] at hxy
            have hone := honce y hy
            rw [← pred_congr hpred hxy, ← hcount] at hone
            have hpos : 0 < rest.countP (pred x) := List.countP_pos_iff.mpr ⟨y, hy, hxy⟩
            omega
          refine ⟨List.pairwise_cons.mpr ⟨hx, hdistinct⟩, List.forall_mem_cons.mpr ⟨?_, honce⟩⟩
          rw [← hcount, List.countP_eq_zero.mpr fun y hy => by simp [hx y hy]]
        · rintro ⟨hdistinct, honce⟩
          exact ⟨(List.pairwise_cons.mp hdistinct).2, (List.forall_mem_cons.mp honce).2⟩
      · refine ⟨false, if_pos hcount, iff_of_false Bool.false_ne_true ?_⟩
        rintro ⟨hdistinct, honce⟩
        have hone := hdistinct.countP_eq hpred List.mem_cons_self
        rw [List.countP_cons_of_pos (hpred.refl x)] at hone
        exact hcount (hone.trans (honce x List.mem_cons_self).symm)

theorem remainders_append (pred : α → α → Bool) (l l' : List α) :
    ∃ c c', Matches pred c c' ∧ l = c ++ (remainders pred l l').1 ∧ l' = c' ++ (remainders pred l l').2 := by
  induction l generalizing l' with
  | nil => exact ⟨[], [], List.Forall₂.nil, rfl, by cases l' <;> rfl⟩
  | cons x l ih =>
    cases l' with
    | nil => exact ⟨[], [], List.Forall₂.nil, rfl, rfl⟩
    | cons y l' =>
      rw [remainders]
      cases hxy : pred x y with
      | false => exact ⟨[], [], List.Forall₂.nil, rfl, rfl⟩
      | true =>
        obtain ⟨c, c', hmatches, hl, hl'⟩ := ih l'
        exact ⟨x :: c, y :: c', List.Forall₂.cons hxy hmatches, congrArg (x :: ·) hl, congrArg (y :: ·) hl'⟩

theorem remainders_rearranged (hpred : Equivalence fun a b => pred a b = true) :
    Rearranged pred l l' ↔ Rearranged pred (remainders pred l l').1 (remainders pred l l').2 := by
  obtain ⟨c, c', hmatches, hl, hl'⟩ := remainders_append pred l l'
  generalize remainders pred l l' = r at hl hl' ⊢
  subst hl hl'
  rw [rearranged_iff_countP hpred, rearranged_iff_countP hpred]
  apply forall_congr'
  intro z
  rw [List.countP_append, List.countP_append, Matches.countP_eq hpred hmatches, Nat.add_left_cancel_iff]

theorem remainders_length (pred : α → α → Bool) :
    l.length = l'.length ↔ (remainders pred l l').1.length = (remainders pred l l').2.length := by
  obtain ⟨c, c', hmatches, hl, hl'⟩ := remainders_append pred l l'
  have hlen := congrArg List.length hl
  have hlen' := congrArg List.length hl'
  rw [List.length_append] at hlen hlen'
  have hc := hmatches.length_eq
  omega

theorem isPermutation_eq (hpred : Equivalence fun a b => pred a b = true) (first second : List α)
    (category category' : IteratorCategory) :
    ∃ b, isPermutation pred first second category category' = some b ∧
      (b = true ↔ (category.isRandomAccess ∧ category'.isRandomAccess → first.length = second.length) ∧
        Distinct pred (remainders pred first second).1 ∧
        Once pred (remainders pred first second).1 (remainders pred first second).2) := by
  rw [isPermutation]
  by_cases hlen : category.isRandomAccess ∧ category'.isRandomAccess ∧ first.length ≠ second.length
  · refine ⟨false, if_pos hlen, iff_of_false Bool.false_ne_true ?_⟩
    exact fun h => hlen.2.2 (h.1 ⟨hlen.1, hlen.2.1⟩)
  · rw [if_neg hlen]
    have hallowed : category.isRandomAccess ∧ category'.isRandomAccess → first.length = second.length := by
      intro hrandom
      by_contra hne
      exact hlen ⟨hrandom.1, hrandom.2, hne⟩
    obtain ⟨i, j, hmismatch, hi, hj⟩ :=
      mismatchLoop_eq pred (From.start first) (From.start second) (Nat.lt_succ_self _)
    rw [mismatch, hmismatch]
    simp only [Option.bind_eq_bind, Option.bind_some]
    generalize remainders pred first second = r at hi hj ⊢
    by_cases hend : i = first.length ∧ j = second.length
    · have hnil : r.1 = [] := List.eq_nil_of_length_eq_zero (by have := hi.length_eq; omega)
      refine ⟨true, if_pos hend, iff_of_true rfl ⟨hallowed, ?_⟩⟩
      rw [hnil]
      exact ⟨List.Pairwise.nil, List.forall_mem_nil _⟩
    · rw [if_neg hend]
      have hlen' := hi.length_eq
      obtain ⟨b, hloop, hb⟩ := isPermutationLoop_eq hpred hi hj (n := first.length + 1) (by omega)
      exact ⟨b, hloop, hb.trans (and_iff_right hallowed).symm⟩

theorem permutationRight_iff (hpred : Equivalence fun a b => pred a b = true) :
    PermutationRight pred first second ↔
      (Rearranged pred (remainders pred first second).1 (remainders pred first second).2 →
        Distinct pred (remainders pred first second).1) ∧
      (Distinct pred (remainders pred first second).1 →
        Once pred (remainders pred first second).1 (remainders pred first second).2 →
          (remainders pred first second).1.length = (remainders pred first second).2.length) := by
  constructor
  · intro h
    obtain ⟨b, hrun, hb⟩ := h .forward .forward nofun nofun
    obtain ⟨b', hrun', hb'⟩ := isPermutation_eq hpred first second .forward .forward
    rw [hrun, Option.some_inj] at hrun'
    subst hrun'
    rw [remainders_rearranged hpred] at hb
    constructor
    · exact fun hrearr => (hb'.mp (hb.mpr hrearr)).2.1
    · intro hdistinct honce
      exact (hb.mp (hb'.mpr ⟨fun h => (Bool.false_ne_true h.1).elim, hdistinct, honce⟩)).length_eq
  · rintro ⟨hdistinct, hlen⟩ category category' - -
    obtain ⟨b, hrun, hb⟩ := isPermutation_eq hpred first second category category'
    refine ⟨b, hrun, hb.trans ?_⟩
    rw [remainders_rearranged hpred, remainders_length pred]
    constructor
    · rintro ⟨-, hone, honce⟩
      exact (hone.rearranged_iff hpred).mpr ⟨hlen hone honce, honce⟩
    · intro hrearr
      have hone := hdistinct hrearr
      exact ⟨fun _ => hrearr.length_eq, hone, ((hone.rearranged_iff hpred).mp hrearr).2⟩

end Permutation

/-- `equal` is right unless one range is a beginning of the other. `is_permutation` is right when no element occurs
twice behind the common beginning, and what is left of the first range is not all there once with something else. -/
theorem compare_right_iff {α β : Type} (pred : α → β → Bool) (equiv : α → α → Bool)
    (hequiv : Equivalence fun a b => equiv a b = true) :
    (∀ first second, EqualRight pred first second ↔
      (Matches pred (first.take second.length) (second.take first.length) → first.length = second.length)) ∧
    (∀ first second, PermutationRight equiv first second ↔
      (Rearranged equiv (remainders equiv first second).1 (remainders equiv first second).2 →
        Distinct equiv (remainders equiv first second).1) ∧
      (Distinct equiv (remainders equiv first second).1 →
        Once equiv (remainders equiv first second).1 (remainders equiv first second).2 →
          (remainders equiv first second).1.length = (remainders equiv first second).2.length)) ∧
    ∀ category category', (∀ first second, (equal pred first second category category').isSome = true) ∧
      ∀ first second, (isPermutation equiv first second category category').isSome = true := by
  refine ⟨fun _ _ => equalRight_iff, fun _ _ => permutationRight_iff hequiv, ?_⟩
  intro category category'
  constructor
  · intro first second
    obtain ⟨b, hrun, -⟩ := equal_eq pred first second category category'
    rw [hrun]
    rfl
  · intro first second
    obtain ⟨b, hrun, -⟩ := isPermutation_eq hequiv first second category category'
    rw [hrun]
    rfl

theorem compare_right_nat : EqualRight (fun a b : Nat => a == b) [1, 2] [1, 3] ∧
    PermutationRight (fun a b : Nat => a == b) [1, 2, 3] [1, 3, 2] := by
  obtain ⟨hequal, hpermutation, -⟩ := compare_right_iff (fun a b : Nat => a == b) _ equivalence_beq
  constructor
  · apply (hequal _ _).mpr
    exact fun _ => rfl
  · apply (hpermutation _ _).mpr
    exact ⟨fun _ => by simp [remainders, Distinct], fun _ _ => rfl⟩

/-- The forward iterators of 1 and of 1, 2 meet no difference. -/
theorem equal_prefix : ¬ EqualRight (fun a b : Nat => a == b) [1] [1, 2] := by
  intro h
  obtain ⟨b, hrun, hb⟩ := h .forward .forward
  have hlen := (hb.mp (Option.some_inj.mp (hrun.symm.trans rfl))).length_eq
  cases hlen

end XviOs.Algorithm
