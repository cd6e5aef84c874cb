import XviOs.Algorithm.Partition

namespace XviOs.Algorithm

open Library.StateProgram

section Search

variable {α β : Type} (pred : α → β → Bool) (n : Int) (x : β)

/-- The inner loop of `search_n` counts the elements that match. An iterator stands for the elements from it on. -/
def matchRun : Int → List α → Int × List α
  | i, [] => (i, [])
  | i, y :: rest => if i < n ∧ pred y x = true then matchRun (i + 1) rest else (i, y :: rest)

/-- None is a search that has not ended within so many rounds. -/
def searchN : Nat → List α → Option (List α)
  | 0, _ => none
  | _ + 1, [] => some []
  | fuel + 1, y :: rest =>
    let run := matchRun pred n x 0 (y :: rest)
    if run.1 = n then some (y :: rest) else searchN fuel run.2

/-- From the position on, as many elements as are searched for match. -/
def MatchesAt (l : List α) (p : Nat) : Prop :=
  p + n.toNat ≤ l.length ∧ ∀ y ∈ (l.drop p).take n.toNat, pred y x = true

/-- The first position that matches, or the end when there is none. -/
def FirstMatch (l : List α) (p : Nat) : Prop :=
  (MatchesAt pred n x l p ∧ ∀ q, q < p → ¬ MatchesAt pred n x l q) ∨
    (p = l.length ∧ ∀ q, ¬ MatchesAt pred n x l q)

def SearchNRight (l : List α) : Prop :=
  ∃ p, FirstMatch pred n x l p ∧ ∃ rounds, ∀ fuel, rounds ≤ fuel → searchN pred n x fuel l = some (l.drop p)

variable {pred n x} {l : List α} {y : α}

theorem matchRun_all {i : Int} (hall : ∀ y ∈ l.take (n - i).toNat, pred y x = true) :
    matchRun pred n x i l = (i + (l.take (n - i).toNat).length, l.drop (n - i).toNat) := by
  induction l generalizing i with
  | nil => simp [matchRun]
  | cons y rest ih =>
    rw [matchRun]
    by_cases hi : i < n
    · have hk : (n - i).toNat = (n - (i + 1)).toNat + 1 := by omega
      rw [hk, List.take_succ_cons] at hall ⊢
      rw [if_pos ⟨hi, hall y List.mem_cons_self⟩, ih fun z hz => hall z (List.mem_cons_of_mem y hz)]
      refine Prod.ext ?_ rfl
      rw [List.length_cons]
      push_cast
      ring
    · rw [if_neg fun h => hi h.1, Int.toNat_eq_zero.mpr (by omega)]
      simp

/-- The count stops at the first element that does not match. -/
theorem matchRun_mismatch {i : Int} (h : ∃ y ∈ l.take (n - i).toNat, pred y x = false) :
    ∃ k y rest, matchRun pred n x i l = (k, y :: rest) ∧ k < n ∧ pred y x = false := by
  induction l generalizing i with
  | nil =>
    obtain ⟨y, hy, -⟩ := h
    rw [List.take_nil] at hy
    exact absurd hy List.not_mem_nil
  | cons z rest ih =>
    have hi : i < n := by
      by_contra hi
      rw [Int.toNat_eq_zero.mpr (by omega)] at h
      simp at h
    cases hz : pred z x with
    | false => exact ⟨i, z, rest, by simp [matchRun, hz], hi, hz⟩
    | true =>
      have hk : (n - i).toNat = (n - (i + 1)).toNat + 1 := by omega
      obtain ⟨y, hy, hpred⟩ := h
      rw [hk, List.take_succ_cons, List.mem_cons] at hy
      obtain rfl | hy := hy
      · rw [hz] at hpred
        cases hpred
      · rw [matchRun, if_pos ⟨hi, hz⟩]
        exact ih ⟨y, hy, hpred⟩

/-- A round that counts nothing leaves the next round where it began. -/
theorem searchN_stands (hn : n ≠ 0) {rest : List α} (h : matchRun pred n x 0 (y :: rest) = (0, y :: rest)) (fuel : Nat) :
    searchN pred n x fuel (y :: rest) = none := by
  induction fuel with
  | zero => rfl
  | succ fuel ih =>
    rw [searchN, h]
    simpa [hn.symm] using ih

theorem searchN_negative (hn : n < 0) (hl : l ≠ []) (fuel : Nat) : searchN pred n x fuel l = none := by
  obtain ⟨y, rest, rfl⟩ := List.exists_cons_of_ne_nil hl
  exact searchN_stands hn.ne (by rw [matchRun, if_neg fun h => absurd h.1 (by omega)]) fuel

theorem searchN_mismatch (h : ∃ y ∈ l.take n.toNat, pred y x = false) (fuel : Nat) :
    searchN pred n x fuel l = none := by
  have hrun := h
  rw [← sub_zero n] at hrun
  obtain ⟨k, y, rest, hrun, hk, hy⟩ := matchRun_mismatch hrun
  have hn : 0 < n := by
    by_contra hn
    rw [Int.toNat_eq_zero.mpr (by omega)] at h
    simp at h
  cases fuel with
  | zero => rfl
  | succ fuel =>
    cases l with
    | nil => simp at h
    | cons z tail =>
      rw [searchN, hrun]
      simp only [hk.ne, if_false]
      exact searchN_stands hn.ne' (by rw [matchRun, if_neg fun h => by simp [hy] at h]) fuel

theorem searchN_found (hn : 0 ≤ n) (hall : ∀ y ∈ l.take n.toNat, pred y x = true) : SearchNRight pred n x l := by
  have hrun : matchRun pred n x 0 l = (((l.take n.toNat).length : Int), l.drop n.toNat) := by
    rw [← sub_zero n] at hall
    rw [matchRun_all hall, sub_zero, zero_add]
  by_cases hlen : n.toNat ≤ l.length
  · refine ⟨0, Or.inl ⟨⟨by rwa [zero_add], hall⟩, fun q hq => absurd hq (Nat.not_lt_zero q)⟩, 1, ?_⟩
    intro fuel hfuel
    obtain ⟨fuel, rfl⟩ := Nat.exists_eq_succ_of_ne_zero (Nat.ne_zero_of_lt hfuel)
    cases l with
    | nil => rfl
    | cons y rest =>
      rw [searchN, hrun, List.length_take, Nat.min_eq_left hlen]
      exact if_pos (Int.toNat_of_nonneg hn)
  · refine ⟨l.length, Or.inr ⟨rfl, ?_⟩, 2, ?_⟩
    · rintro q ⟨hq, -⟩
      omega
    · intro fuel hfuel
      obtain ⟨fuel, rfl⟩ := Nat.exists_eq_add_of_le' hfuel
      rw [List.drop_length]
      cases l with
      | nil => rfl
      | cons y rest =>
        rw [searchN, hrun, List.length_take, Nat.min_eq_right (by omega), List.drop_of_length_le (by omega)]
        exact if_neg (by simp only; omega)

/-- The search ends only when its first round does not meet an element that does not match. -/
theorem searchN_right_iff : SearchNRight pred n x l ↔
    (∀ y ∈ l.take n.toNat, pred y x = true) ∧ (0 ≤ n ∨ l = []) := by
  constructor
  · rintro ⟨p, -, rounds, hsome⟩
    have hend : ¬ ∀ fuel, searchN pred n x fuel l = none := by
      intro hnone
      have h := hsome rounds (Nat.le_refl _)
      rw [hnone] at h
      cases h
    constructor
    · intro y hy
      by_contra hpred
      exact hend (searchN_mismatch ⟨y, hy, by simpa using hpred⟩)
    · by_contra! h
      exact hend (searchN_negative h.1 h.2)
  · rintro ⟨hall, hn | rfl⟩
    · exact searchN_found hn hall
    · refine ⟨0, ?_, 1, ?_⟩
      · by_cases hn : n.toNat = 0
        · exact Or.inl ⟨⟨by simp [hn], by simp⟩, fun q hq => absurd hq (Nat.not_lt_zero q)⟩
        · refine Or.inr ⟨rfl, ?_⟩
          rintro q ⟨hq, -⟩
          rw [List.length_nil] at hq
          omega
      · intro fuel hfuel
        obtain ⟨fuel, rfl⟩ := Nat.exists_eq_succ_of_ne_zero (Nat.ne_zero_of_lt hfuel)
        rfl

/-- The search for a 2 in 1, 2 never gets past the 1. -/
theorem searchN_stuck : ¬ SearchNRight (fun a b : Nat => a == b) 1 2 [1, 2] := by
  rintro ⟨p, -, rounds, hsome⟩
  have h := hsome rounds (Nat.le_refl _)
  rw [searchN_mismatch ⟨1, by simp, rfl⟩] at h
  cases h

end Search

section Unique

variable {α : Type} (pred : α → α → Bool)

/-- The elements that are not equivalent to the one before them. -/
def followers : α → List α → List α
  | _, [] => []
  | x, y :: rest => if pred y x then followers y rest else y :: followers y rest

/-- The elements that are first in their group of consecutive equivalent elements. -/
def groupFirsts : List α → List α
  | [] => []
  | x :: rest => x :: followers pred x rest

def uniqueLoop (lo hi last : Nat) : Nat → Nat → Nat → Nat → Sorter α Nat
  | 0, _, _, _ => fun _ => none
  | n + 1, first, cmp, result =>
    if first = last then pure result
    else if first = cmp then uniqueLoop lo hi last n (first + 1) cmp result
    else do
      let x ← read lo hi first
      let y ← read lo hi cmp
      if pred x y then uniqueLoop lo hi last n (first + 1) cmp result
      else do
        let _ ← (if result ≠ first then write lo hi result x else pure () : Sorter α Unit)
        uniqueLoop lo hi last n (first + 1) result (result + 1)

/-- `unique`. Its result is the end of what it leaves. -/
def unique (first last : Nat) : Sorter α Nat := uniqueLoop pred first last last (last - first + 1) first first first

/-- An output iterator and the places behind it. -/
structure Output (α : Type) where
  memory : Nat → α
  result : Nat

namespace Output

def assign (out : Output α) (x : α) : Output α := { out with memory := Function.update out.memory out.result x }

def advance (out : Output α) : Output α := { out with result := out.result + 1 }

def current (out : Output α) : α := out.memory out.result

/-- All of the elements are written, each behind the last one. -/
def putAll (out : Output α) : List α → Output α
  | [] => out
  | x :: xs => ((out.assign x).advance).putAll xs

end Output

/-- The loop for a forward input. `cmp` is an iterator of it: a position and the element that is there. -/
def copyBySource : Nat × α → Nat → List α → Output α → Output α
  | _, _, [], out => out
  | cmp, first, x :: rest, out =>
    if first = cmp.1 ∨ pred x cmp.2 = true then copyBySource cmp (first + 1) rest out
    else copyBySource (first, x) (first + 1) rest (out.assign x).advance

/-- The loop for a forward output of the same type. -/
def copyByOutput : List α → Output α → Output α
  | [], out => out
  | x :: rest, out =>
    if pred x out.current then copyByOutput rest out else copyByOutput rest (out.advance.assign x)

/-- The loop for any other iterators. -/
def copyBySaved : α → List α → Output α → Output α
  | _, [], out => out
  | t, x :: rest, out => if pred x t then copyBySaved t rest out else copyBySaved x rest (out.assign x).advance

/-- What the categories of the iterators select. -/
inductive UniqueCopy where
  | forwardInput
  | forwardOutput
  | other

def uniqueCopy (category : UniqueCopy) : List α → Output α → Output α
  | [], out => out
  | x :: rest, out =>
    match category with
    | .forwardInput => copyBySource pred (0, x) 0 (x :: rest) out
    | .forwardOutput => (copyByOutput pred rest (out.assign x)).advance
    | .other => copyBySaved pred x rest (out.assign x).advance

/-- The values at the places of a range. -/
def values (f : Nat → α) (first last : Nat) : List α := (List.range' first (last - first)).map f

/-- The first elements of the groups stand at the front, and their end is returned. -/
def UniqueRight (first last : Nat) (f : Nat → α) : Prop :=
  Leads (unique pred first last) f fun p g =>
    p = first + (groupFirsts pred (values f first last)).length ∧
      values g first p = groupFirsts pred (values f first last)

def UniqueCopyRight (category : UniqueCopy) (l : List α) (out : Output α) : Prop :=
  uniqueCopy pred category l out = out.putAll (groupFirsts pred l)

variable {pred} {first last lo hi cmp result n : Nat} {f : Nat → α} {x y : α} {l : List α} {out : Output α}

theorem values_cons (h : first < last) : values f first last = f first :: values f (first + 1) last := by
  obtain ⟨k, hk⟩ := Nat.exists_eq_succ_of_ne_zero (by omega : last - first ≠ 0)
  rw [values, values, hk, List.range'_succ, List.map_cons, show last - (first + 1) = k by omega]

theorem values_self : values f first first = [] := by rw [values, Nat.sub_self]; rfl

theorem values_congr {g : Nat → α} (h : ∀ i, first ≤ i → i < last → g i = f i) :
    values g first last = values f first last := by
  apply List.map_congr_left
  intro i hi
  rw [List.mem_range'_1] at hi
  exact h i hi.1 (by omega)

/-- Equivalent elements have the same followers. -/
theorem followers_congr (hpred : Equivalence fun a b => pred a b = true) (h : pred x y = true) :
    followers pred x l = followers pred y l := by
  cases l with
  | nil => rfl
  | cons z rest =>
    have hiff : pred z x = true ↔ pred z y = true :=
      ⟨fun hz => hpred.trans hz h, fun hz => hpred.trans hz (hpred.symm h)⟩
    rw [followers, followers]
    simp only [hiff]

theorem followers_cons_of_pos (hpred : Equivalence fun a b => pred a b = true) (h : pred y x = true) :
    followers pred x (y :: l) = followers pred x l := by
  rw [followers, if_pos h]
  exact followers_congr hpred h

theorem followers_cons_of_neg (h : ¬ pred y x = true) : followers pred x (y :: l) = y :: followers pred y l :=
  if_neg h

/-- From an element that is behind the iterator on, the followers of that element are left. -/
theorem uniqueLoop_leads (hpred : Equivalence fun a b => pred a b = true) (hlo : lo ≤ result) (hlocmp : lo ≤ cmp)
    (hcmp : cmp < first) (hresult : result ≤ first) (hle : first ≤ last) (hhi : last ≤ hi) (hn : last - first < n) :
    Leads (uniqueLoop pred lo hi last n first cmp result) f fun p g =>
      p = result + (followers pred (f cmp) (values f first last)).length ∧
        values g result p = followers pred (f cmp) (values f first last) ∧ ∀ i, i < result → g i = f i := by
  induction n generalizing first cmp result f with
  | zero => exact absurd hn (Nat.not_lt_zero _)
  | succ n ih =>
    rw [uniqueLoop]
    by_cases hend : first = last
    · subst hend
      rw [if_pos rfl, values_self]
      exact Leads.pure ⟨rfl, values_self, fun _ _ => rfl⟩
    rw [if_neg hend, if_neg (Nat.ne_of_gt hcmp), values_cons (by omega)]
    apply Leads.bind_eq (read_eq (by omega) (by omega))
    apply Leads.bind_eq (read_eq hlocmp (by omega))
    by_cases hequiv : pred (f first) (f cmp) = true
    · rw [if_pos hequiv, followers_cons_of_pos hpred hequiv]
      exact ih hlo hlocmp (by omega) (by omega) (by omega) (by omega)
    rw [if_neg hequiv, followers_cons_of_neg hequiv]
    have hwrite : (if result ≠ first then write lo hi result (f first) else pure ()) f =
        some ((), Function.update f result (f first)) := by
      by_cases hsame : result = first
      · rw [if_neg (not_not.mpr hsame), hsame, Function.update_eq_self]
        rfl
      · rw [if_pos hsame]
        exact write_eq hlo (by omega)
    apply Leads.bind_eq hwrite
    have hvalues : values (Function.update f result (f first)) (first + 1) last = values f (first + 1) last :=
      values_congr fun i hi _ => Function.update_of_ne (by omega) _ _
    apply (ih (hlo.trans (Nat.le_succ _)) hlo (by omega) (by omega) (by omega) (by omega)).mono
    rintro p g ⟨hp, hvals, hsame⟩
    rw [hvalues, Function.update_self] at hp hvals
    refine ⟨by rw [hp, List.length_cons]; omega, ?_, ?_⟩
    · rw [values_cons (by omega), hsame result (Nat.lt_succ_self _), Function.update_self, hvals]
    · intro i hi
      rw [hsame i (by omega), Function.update_of_ne (by omega)]

/-- The first group is left out. -/
theorem unique_leads (hpred : Equivalence fun a b => pred a b = true) (hlt : first < last) :
    Leads (unique pred first last) f fun p g =>
      p = first + (groupFirsts pred (values f first last)).tail.length ∧
        values g first p = (groupFirsts pred (values f first last)).tail := by
  rw [unique, uniqueLoop, if_neg hlt.ne, if_pos rfl, values_cons hlt]
  apply (uniqueLoop_leads hpred (Nat.le_refl _) (Nat.le_refl _) (Nat.lt_succ_self _) (Nat.le_succ _) (by omega)
    (Nat.le_refl _) (by omega)).mono
  exact fun p g h => ⟨h.1, h.2.1⟩

theorem copyBySource_eq (hpred : Equivalence fun a b => pred a b = true) {k : Nat} (hk : k < first) :
    copyBySource pred (k, x) first l out = out.putAll (followers pred x l) := by
  induction l generalizing k x first out with
  | nil => rfl
  | cons y rest ih =>
    rw [copyBySource]
    by_cases h : pred y x = true
    · rw [if_pos (Or.inr h), followers_cons_of_pos hpred h]
      exact ih (by omega)
    · rw [if_neg (not_or.mpr ⟨Nat.ne_of_gt hk, h⟩), followers_cons_of_neg h]
      exact ih (Nat.lt_succ_self _)

theorem copyByOutput_eq (hpred : Equivalence fun a b => pred a b = true) :
    (copyByOutput pred l (out.assign x)).advance = out.putAll (x :: followers pred x l) := by
  induction l generalizing x out with
  | nil => rfl
  | cons y rest ih =>
    have hcurrent : (out.assign x).current = x := Function.update_self ..
    rw [copyByOutput, hcurrent]
    by_cases h : pred y x = true
    · rw [if_pos h, followers_cons_of_pos hpred h]
      exact ih
    · rw [if_neg h, followers_cons_of_neg h]
      exact ih

theorem copyBySaved_eq (hpred : Equivalence fun a b => pred a b = true) :
    copyBySaved pred x l out = out.putAll (followers pred x l) := by
  induction l generalizing x out with
  | nil => rfl
  | cons y rest ih =>
    rw [copyBySaved]
    by_cases h : pred y x = true
    · rw [if_pos h, followers_cons_of_pos hpred h]
      exact ih
    · rw [if_neg h, followers_cons_of_neg h]
      exact ih

theorem Output.putAll_result (out : Output α) (l : List α) : (out.putAll l).result = out.result + l.length := by
  induction l generalizing out with
  | nil => rfl
  | cons x rest ih =>
    rw [putAll, ih, List.length_cons, ← Nat.add_assoc, Nat.add_right_comm]
    rfl

/-- `unique`, and `unique_copy` for a forward input, leave out the first group. -/
theorem unique_right_iff (hpred : Equivalence fun a b => pred a b = true) :
    (∀ (first last : Nat) (f : Nat → α), first ≤ last → (UniqueRight pred first last f ↔ first = last)) ∧
      ∀ (category : UniqueCopy) (l : List α) (out : Output α),
        UniqueCopyRight pred category l out ↔ (category = .forwardInput → l = []) := by
  constructor
  · intro first last f hle
    constructor
    · rintro ⟨p, g, hrun, hp, -⟩
      by_contra hne
      have hlt := Nat.lt_of_le_of_ne hle hne
      obtain ⟨q, h, hrun', hq, -⟩ := unique_leads hpred hlt (f := f)
      rw [hrun] at hrun'
      cases hrun'
      rw [values_cons hlt, groupFirsts, List.length_cons] at hp
      rw [values_cons hlt, groupFirsts, List.tail_cons] at hq
      omega
    · rintro rfl
      refine Leads.of_eq (b := first) (t := f) ?_ ?_
      · rw [unique, uniqueLoop, if_pos rfl]
        rfl
      · rw [values_self]
        exact ⟨rfl, rfl⟩
  · intro category l out
    cases l with
    | nil => exact iff_of_true rfl fun _ => rfl
    | cons x rest =>
      cases category with
      | forwardInput =>
        refine iff_of_false (fun h => ?_) (fun h => absurd (h rfl) (List.cons_ne_nil x rest))
        have hresult := congrArg Output.result h
        rw [uniqueCopy, copyBySource, if_pos (Or.inl rfl), copyBySource_eq hpred (Nat.lt_succ_self 0),
          Output.putAll_result, Output.putAll_result, groupFirsts, List.length_cons] at hresult
        omega
      | forwardOutput => exact iff_of_true (copyByOutput_eq hpred) nofun
      | other => exact iff_of_true (copyBySaved_eq hpred) nofun

theorem equivalence_beq : Equivalence fun a b : Nat => (a == b) = true where
  refl a := beq_self_eq_true a
  symm h := by
    rw [beq_iff_eq] at *
    exact h.symm
  trans h h' := by
    rw [beq_iff_eq] at *
    exact h.trans h'

/-- The saved copy finds the 1 and the 2 of 1, 1, 2. -/
theorem unique_right_ones :
    UniqueCopyRight (fun a b : Nat => a == b) .other [1, 1, 2] ⟨fun _ => 0, 0⟩ :=
  ((unique_right_iff equivalence_beq).2 _ _ _).mpr nofun

/-- Of 1, 1, 2 only the 2 is left. -/
theorem unique_ones : ¬ UniqueRight (fun a b : Nat => a == b) 0 3 fun i => i / 2 + 1 := by
  rintro ⟨p, g, hrun, hp, -⟩
  have hone : (unique (fun a b : Nat => a == b) 0 3 fun i => i / 2 + 1).map Prod.fst = some 1 := rfl
  have htwo : (groupFirsts (fun a b : Nat => a == b) (values (fun i => i / 2 + 1) 0 3)).length = 2 := rfl
  rw [htwo] at hp
  rw [hrun, hp] at hone
  cases hone

end Unique

end XviOs.Algorithm
