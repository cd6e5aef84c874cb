import Mathlib.Data.List.TakeWhile
import XviOs.Algorithm.Introsort

namespace XviOs.Algorithm

section Definitions

variable {α : Type} (comp : α → α → Bool)

/-- Neither of the elements is less. -/
def equalTo (a b : α) : Bool := !comp a b && !comp b a

/-- A list is what is left of a range, and what was written is in front of what is written next. The loop passes over
elements of one range that are less than the other one's first. -/
def passLess (keep : Bool) : List α → List α → List α → List α × List α
  | [], _, out => ([], out)
  | x :: first, second, out =>
    if second.head?.all (comp x) then passLess keep first second (if keep then out ++ [x] else out)
    else (x :: first, out)

def passEqual (keep : Bool) : List α → List α → List α → List α × List α × List α
  | x :: first1, y :: first2, out =>
    if !comp y x && !comp x y then passEqual keep first1 first2 (if keep then out ++ [x] else out)
    else (x :: first1, y :: first2, out)
  | first1, first2, out => (first1, first2, out)

/-- Which elements an operation writes: those of the first range alone, of both, and of the second alone. -/
structure Writes where
  first : Bool
  both : Bool
  second : Bool

/-- The loop that three of the operations share. None is one that has not ended within so many rounds. -/
def setLoop (w : Writes) : Nat → List α → List α → List α → Option (List α)
  | 0, _, _, _ => none
  | n + 1, first1, first2, out =>
    let (first1, out) := passLess comp w.first first1 first2 out
    let (first1, first2, out) := passEqual comp w.both first1 first2 out
    let (first2, out) := passLess comp w.second first2 first1 out
    if first1 = [] ∧ first2 = [] then some out else setLoop w n first1 first2 out

def setUnion (n : Nat) (first second : List α) : Option (List α) :=
  setLoop comp ⟨true, true, true⟩ n first second []

def setDifference (n : Nat) (first second : List α) : Option (List α) :=
  setLoop comp ⟨true, false, false⟩ n first second []

def setSymmetricDifference (n : Nat) (first second : List α) : Option (List α) :=
  setLoop comp ⟨true, false, true⟩ n first second []

/-- The loops of `set_intersection` over one range end with the other. -/
def skipLess : List α → List α → List α
  | x :: first, y :: second => if comp x y then skipLess first (y :: second) else x :: first
  | first, _ => first

def intersectionLoop : Nat → List α → List α → List α → Option (List α)
  | 0, _, _, _ => none
  | n + 1, first1, first2, out =>
    let first1 := skipLess comp first1 first2
    let (first1, first2, out) := passEqual comp true first1 first2 out
    let first2 := skipLess comp first2 first1
    if first1 = [] ∨ first2 = [] then some out else intersectionLoop n first1 first2 out

def setIntersection (n : Nat) (first second : List α) : Option (List α) := intersectionLoop comp n first second []

def includes : List α → List α → Bool
  | _, [] => true
  | first1, y :: first2 =>
    match first1.dropWhile (comp · y) with
    | [] => false
    | x :: rest => if comp y x then false else includes (rest.dropWhile fun z => !comp y z) first2

/-- The overload that takes no comparison passes `equal_to` on. The elements are equal when neither is less. -/
def includesDefault (first second : List α) : Bool := includes (equalTo comp) first second

/-- How often the class of an element occurs. -/
def occurrences (c : α) (l : List α) : Nat := l.countP (equalTo comp c)

def Sorted (l : List α) : Prop := l.Pairwise fun a b => comp b a = false

def emit (keep : Bool) (x : α) : List α := if keep then [x] else []

/-- The merge of two ranges that writes some of their elements. -/
def merged (w : Writes) : List α → List α → List α
  | [], second => if w.second then second else []
  | x :: first, [] => if w.first then x :: first else []
  | x :: first, y :: second =>
    if comp x y then emit w.first x ++ merged w first (y :: second)
    else if comp y x then emit w.second y ++ merged w (x :: first) second
    else emit w.both x ++ merged w first second
termination_by first second => first.length + second.length

end Definitions

variable {α : Type} {comp : α → α → Bool} {w : Writes} {keep : Bool} {xs ys out : List α} {x y z a b c : α}

theorem equalTo_iff : equalTo comp a b = true ↔ comp a b = false ∧ comp b a = false := by
  rw [equalTo, Bool.and_eq_true, Bool.not_eq_true', Bool.not_eq_true']

theorem equalTo_symm : equalTo comp a b = equalTo comp b a := Bool.and_comm _ _

theorem StrictWeak.equalTo_trans (hcomp : StrictWeak comp) (hab : equalTo comp a b = true)
    (hbc : equalTo comp b c = true) : equalTo comp a c = true := by
  rw [equalTo_iff] at *
  exact ⟨hcomp.not_less_trans hbc.1 hab.1, hcomp.not_less_trans hab.2 hbc.2⟩

/-- What is less than an element is less than all that are not less than it. -/
theorem StrictWeak.less_of_less_of_le (hcomp : StrictWeak comp) (hab : comp a b = true) (hbc : comp c b = false) :
    comp a c = true := by
  by_contra hac
  have hba := hcomp.not_less_trans hbc (by simpa using hac)
  rw [hab] at hba
  cases hba

theorem StrictWeak.less_of_le_of_less (hcomp : StrictWeak comp) (hab : comp b a = false) (hbc : comp b c = true) :
    comp a c = true := by
  by_contra hac
  have hcb := hcomp.not_less_trans (by simpa using hac) hab
  rw [hbc] at hcb
  cases hcb

section Merging

@[simp] theorem merged_nil_nil : merged comp w [] [] = [] := by
  rw [merged]
  exact ite_self _

theorem merged_cons_nil : merged comp w (x :: xs) [] = emit w.first x ++ merged comp w xs [] := by
  cases xs with
  | nil =>
    rw [merged_nil_nil, List.append_nil, merged]
    rfl
  | cons x' xs =>
    rw [merged, merged, emit]
    cases w.first <;> rfl

theorem merged_nil_cons : merged comp w [] (y :: ys) = emit w.second y ++ merged comp w [] ys := by
  rw [merged, merged, emit]
  cases w.second <;> rfl

theorem merged_less (h : ys.head?.all (comp x) = true) :
    merged comp w (x :: xs) ys = emit w.first x ++ merged comp w xs ys := by
  cases ys with
  | nil => exact merged_cons_nil
  | cons y ys =>
    rw [merged, if_pos (by simpa using h)]

theorem merged_greater (hcomp : StrictWeak comp) (h : xs.head?.all (comp y) = true) :
    merged comp w xs (y :: ys) = emit w.second y ++ merged comp w xs ys := by
  cases xs with
  | nil => exact merged_nil_cons
  | cons x xs =>
    have hless : comp y x = true := by simpa using h
    rw [merged, if_neg (by simp [hcomp.asymm hless]), if_pos hless]

theorem merged_equal (h : (!comp y x && !comp x y) = true) :
    merged comp w (x :: xs) (y :: ys) = emit w.both x ++ merged comp w xs ys := by
  rw [Bool.and_eq_true, Bool.not_eq_true', Bool.not_eq_true'] at h
  rw [merged, if_neg (by simp [h.2]), if_neg (by simp [h.1])]

theorem append_emit : (if keep then out ++ [x] else out) = out ++ emit keep x := by
  cases keep with
  | false => exact (List.append_nil out).symm
  | true => rfl

theorem passLess_first : (passLess comp w.first xs ys out).2 ++ merged comp w (passLess comp w.first xs ys out).1 ys =
    out ++ merged comp w xs ys := by
  induction xs generalizing out with
  | nil => rfl
  | cons x xs ih =>
    rw [passLess]
    split
    · next h => rw [ih, append_emit, merged_less h, List.append_assoc]
    · rfl

theorem passLess_second (hcomp : StrictWeak comp) :
    (passLess comp w.second ys xs out).2 ++ merged comp w xs (passLess comp w.second ys xs out).1 =
      out ++ merged comp w xs ys := by
  induction ys generalizing out with
  | nil => rfl
  | cons y ys ih =>
    rw [passLess]
    split
    · next h => rw [ih, append_emit, merged_greater hcomp h, List.append_assoc]
    · rfl

theorem passEqual_both : (passEqual comp w.both xs ys out).2.2 ++
    merged comp w (passEqual comp w.both xs ys out).1 (passEqual comp w.both xs ys out).2.1 =
      out ++ merged comp w xs ys := by
  induction xs generalizing ys out with
  | nil => cases ys <;> rfl
  | cons x xs ih =>
    cases ys with
    | nil => rfl
    | cons y ys =>
      rw [passEqual]
      split
      · next h => rw [ih, append_emit, merged_equal h, List.append_assoc]
      · rfl

end Merging

section Ending

theorem passLess_length : (passLess comp keep xs ys out).1.length ≤ xs.length := by
  induction xs generalizing out with
  | nil => exact Nat.le_refl _
  | cons x xs ih =>
    rw [passLess]
    split
    · exact ih.trans (Nat.le_succ _)
    · exact Nat.le_refl _

theorem passLess_lt (h : ys.head?.all (comp x) = true) :
    (passLess comp keep (x :: xs) ys out).1.length < (x :: xs).length := by
  rw [passLess, if_pos h]
  exact Nat.lt_succ_of_le passLess_length

theorem passLess_stays (h : ys.head?.all (comp x) = false) :
    passLess comp keep (x :: xs) ys out = (x :: xs, out) := by
  rw [passLess, h]
  rfl

theorem passLess_nil : (passLess comp keep xs [] out).1 = [] := by
  induction xs generalizing out with
  | nil => rfl
  | cons x xs ih =>
    rw [passLess]
    exact ih

theorem passEqual_length (comp : α → α → Bool) (keep : Bool) (xs ys out : List α) :
    (passEqual comp keep xs ys out).1.length + (passEqual comp keep xs ys out).2.1.length ≤
    xs.length + ys.length := by
  induction xs generalizing ys out with
  | nil => cases ys <;> exact Nat.le_refl _
  | cons x xs ih =>
    cases ys with
    | nil => exact Nat.le_refl _
    | cons y ys =>
      rw [passEqual]
      split
      · have h := ih ys (if keep then out ++ [x] else out)
        rw [List.length_cons, List.length_cons]
        omega
      · exact Nat.le_refl _

theorem passEqual_lt (h : (!comp y x && !comp x y) = true) :
    (passEqual comp keep (x :: xs) (y :: ys) out).1.length + (passEqual comp keep (x :: xs) (y :: ys) out).2.1.length <
      (x :: xs).length + (y :: ys).length := by
  rw [passEqual, if_pos h, List.length_cons, List.length_cons]
  have hle := passEqual_length comp keep xs ys (if keep then out ++ [x] else out)
  omega

/-- A round ends the loop, or it passes over something. -/
theorem setRound_ends (w : Writes) (xs ys out : List α) :
    let a := passLess comp w.first xs ys out
    let b := passEqual comp w.both a.1 ys a.2
    let c := passLess comp w.second b.2.1 b.1 b.2.2
    (b.1 = [] ∧ c.1 = []) ∨ b.1.length + c.1.length < xs.length + ys.length := by
  intro a b c
  have hb : b.1.length + b.2.1.length ≤ a.1.length + ys.length := passEqual_length comp w.both a.1 ys a.2
  have hc : c.1.length ≤ b.2.1.length := passLess_length
  cases ys with
  | nil =>
    have ha : a.1 = [] := passLess_nil
    rw [ha, List.length_nil] at hb
    have hb1 : b.1.length = 0 := by omega
    have hc1 : c.1.length = 0 := by omega
    exact Or.inl ⟨List.length_eq_zero_iff.mp hb1, List.length_eq_zero_iff.mp hc1⟩
  | cons y ys =>
    cases xs with
    | nil => exact Or.inl ⟨rfl, passLess_nil⟩
    | cons x xs =>
      apply Or.inr
      cases hxy : comp x y with
      | true =>
        have ha : a.1.length < (x :: xs).length := passLess_lt hxy
        omega
      | false =>
        have ha : a = (x :: xs, out) := passLess_stays hxy
        have hbeq : b = passEqual comp w.both (x :: xs) (y :: ys) out := by
          change passEqual comp w.both a.1 (y :: ys) a.2 = _
          rw [ha]
        cases hyx : comp y x with
        | true =>
          have hstay : b = (x :: xs, y :: ys, out) := by
            rw [hbeq, passEqual, hyx]
            rfl
          have hlt : (passLess comp w.second (y :: ys) (x :: xs) out).1.length < (y :: ys).length := passLess_lt hyx
          have hceq : c = passLess comp w.second (y :: ys) (x :: xs) out := by
            change passLess comp w.second b.2.1 b.1 b.2.2 = _
            rw [hstay]
          rw [hceq, hstay]
          exact Nat.add_lt_add_left hlt _
        | false =>
          have hlt : b.1.length + b.2.1.length < (x :: xs).length + (y :: ys).length := by
            rw [hbeq]
            apply passEqual_lt
            rw [hyx, hxy]
            rfl
          omega

theorem setLoop_eq (hcomp : StrictWeak comp) {n : Nat} (hn : xs.length + ys.length < n) :
    setLoop comp w n xs ys out = some (out ++ merged comp w xs ys) := by
  induction n generalizing xs ys out with
  | zero => exact absurd hn (Nat.not_lt_zero _)
  | succ n ih =>
    let a := passLess comp w.first xs ys out
    let b := passEqual comp w.both a.1 ys a.2
    let c := passLess comp w.second b.2.1 b.1 b.2.2
    change (if b.1 = [] ∧ c.1 = [] then some c.2 else setLoop comp w n b.1 c.1 c.2) = _
    have hvalue : c.2 ++ merged comp w b.1 c.1 = out ++ merged comp w xs ys :=
      (passLess_second hcomp).trans (passEqual_both.trans passLess_first)
    rw [← hvalue]
    split
    · next h => rw [h.1, h.2, merged_nil_nil, List.append_nil]
    · next h =>
      apply ih
      have hlt := (setRound_ends w xs ys out).resolve_left h
      change b.1.length + c.1.length < _ at hlt
      omega

theorem skipLess_cons : skipLess comp (x :: xs) (y :: ys) =
    if comp x y then skipLess comp xs (y :: ys) else x :: xs := rfl

theorem skipLess_first (h : w.first = false) :
    merged comp w (skipLess comp xs ys) ys = merged comp w xs ys := by
  cases ys with
  | nil => cases xs <;> rfl
  | cons y ys =>
    induction xs with
    | nil => rfl
    | cons x xs ih =>
      rw [skipLess_cons]
      split
      · next hless => rw [ih, merged_less (by simpa using hless), h]; rfl
      · rfl

theorem skipLess_second (hcomp : StrictWeak comp) (h : w.second = false) :
    merged comp w xs (skipLess comp ys xs) = merged comp w xs ys := by
  cases xs with
  | nil => cases ys <;> rfl
  | cons x xs =>
    induction ys with
    | nil => rfl
    | cons y ys ih =>
      rw [skipLess_cons]
      split
      · next hless => rw [ih, merged_greater hcomp (by simpa using hless), h]; rfl
      · rfl

theorem skipLess_length (comp : α → α → Bool) (xs ys : List α) : (skipLess comp xs ys).length ≤ xs.length := by
  cases ys with
  | nil => cases xs <;> exact Nat.le_refl _
  | cons y ys =>
    induction xs with
    | nil => exact Nat.le_refl _
    | cons x xs ih =>
      rw [skipLess_cons]
      split
      · exact ih.trans (Nat.le_succ _)
      · exact Nat.le_refl _

theorem skipLess_lt (h : comp x y = true) : (skipLess comp (x :: xs) (y :: ys)).length < (x :: xs).length := by
  rw [skipLess_cons, if_pos h]
  exact Nat.lt_succ_of_le (skipLess_length comp xs (y :: ys))

theorem intersectionRound_ends (xs ys out : List α) :
    let a := skipLess comp xs ys
    let b := passEqual comp true a ys out
    let c := skipLess comp b.2.1 b.1
    (b.1 = [] ∨ c = []) ∨ b.1.length + c.length < xs.length + ys.length := by
  intro a b c
  have ha : a.length ≤ xs.length := skipLess_length comp xs ys
  have hb : b.1.length + b.2.1.length ≤ a.length + ys.length := passEqual_length comp true a ys out
  have hc : c.length ≤ b.2.1.length := skipLess_length comp b.2.1 b.1
  cases ys with
  | nil =>
    have hnil : b.2.1 = [] := by
      change (passEqual comp true a [] out).2.1 = []
      cases a <;> rfl
    rw [hnil] at hc
    exact Or.inl (Or.inr (List.length_eq_zero_iff.mp (Nat.le_zero.mp hc)))
  | cons y ys =>
    cases xs with
    | nil => exact Or.inl (Or.inl rfl)
    | cons x xs =>
      apply Or.inr
      cases hxy : comp x y with
      | true =>
        have hlt : a.length < (x :: xs).length := skipLess_lt hxy
        omega
      | false =>
        have hstay : a = x :: xs := by
          change skipLess comp (x :: xs) (y :: ys) = _
          rw [skipLess_cons, hxy]
          rfl
        have hbeq : b = passEqual comp true (x :: xs) (y :: ys) out := by
          change passEqual comp true a (y :: ys) out = _
          rw [hstay]
        cases hyx : comp y x with
        | true =>
          have hsame : b = (x :: xs, y :: ys, out) := by
            rw [hbeq, passEqual, hyx]
            rfl
          have hceq : c = skipLess comp (y :: ys) (x :: xs) := by
            change skipLess comp b.2.1 b.1 = _
            rw [hsame]
          rw [hceq, hsame]
          exact Nat.add_lt_add_left (skipLess_lt hyx) _
        | false =>
          have hlt : b.1.length + b.2.1.length < (x :: xs).length + (y :: ys).length := by
            rw [hbeq]
            apply passEqual_lt
            rw [hyx, hxy]
            rfl
          omega

theorem merged_both_of_nil (h : xs = [] ∨ ys = []) : merged comp ⟨false, true, false⟩ xs ys = [] := by
  obtain rfl | rfl := h
  · cases ys <;> rw [merged] <;> rfl
  · cases xs <;> rw [merged] <;> rfl

theorem intersectionLoop_eq (hcomp : StrictWeak comp) {n : Nat} (hn : xs.length + ys.length < n) :
    intersectionLoop comp n xs ys out = some (out ++ merged comp ⟨false, true, false⟩ xs ys) := by
  induction n generalizing xs ys out with
  | zero => exact absurd hn (Nat.not_lt_zero _)
  | succ n ih =>
    let a := skipLess comp xs ys
    let b := passEqual comp true a ys out
    let c := skipLess comp b.2.1 b.1
    change (if b.1 = [] ∨ c = [] then some b.2.2 else intersectionLoop comp n b.1 c b.2.2) = _
    have hvalue : b.2.2 ++ merged comp ⟨false, true, false⟩ b.1 c =
        out ++ merged comp ⟨false, true, false⟩ xs ys := by
      have hskip : merged comp ⟨false, true, false⟩ a ys = merged comp ⟨false, true, false⟩ xs ys := skipLess_first rfl
      rw [skipLess_second hcomp rfl, ← hskip]
      exact passEqual_both (w := ⟨false, true, false⟩)
    rw [← hvalue]
    split
    · next h => rw [merged_both_of_nil h, List.append_nil]
    · next h =>
      apply ih
      have hlt := (intersectionRound_ends xs ys out).resolve_left h
      change b.1.length + c.length < _ at hlt
      omega

end Ending

section Counting

theorem sorted_cons : Sorted comp (x :: xs) ↔ (∀ z ∈ xs, comp z x = false) ∧ Sorted comp xs := List.pairwise_cons

theorem occurrences_cons : occurrences comp c (x :: xs) =
    occurrences comp c xs + if equalTo comp c x = true then 1 else 0 := List.countP_cons

theorem occurrences_append : occurrences comp c (xs ++ ys) = occurrences comp c xs + occurrences comp c ys :=
  List.countP_append

theorem occurrences_emit : occurrences comp c (emit keep x) =
    (if equalTo comp c x = true then 1 else 0) * keep.toNat := by
  cases keep <;> simp [occurrences, emit, List.countP_cons]

theorem occurrences_pos_iff : 0 < occurrences comp c xs ↔ ∃ x ∈ xs, equalTo comp c x = true := List.countP_pos_iff

/-- The class of an element that is less than all of a range does not occur there. -/
theorem StrictWeak.occurrences_eq_zero (hcomp : StrictWeak comp) (hsorted : Sorted comp (y :: ys)) (hxy : comp x y = true)
    (hc : equalTo comp c x = true) : occurrences comp c (y :: ys) = 0 := by
  by_contra hpos
  obtain ⟨z, hz, hcz⟩ := occurrences_pos_iff.mp (Nat.pos_of_ne_zero hpos)
  have hyz : comp z y = false := by
    obtain rfl | hz := List.mem_cons.mp hz
    · exact hcomp.irrefl _
    · exact (sorted_cons.mp hsorted).1 z hz
  have hxz := hcomp.less_of_less_of_le hxy hyz
  rw [equalTo_symm] at hc
  rw [(equalTo_iff.mp (hcomp.equalTo_trans hc hcz)).1] at hxz
  cases hxz

/-- How often a class occurs in what an operation writes. -/
def Writes.count (w : Writes) (m n : Nat) : Nat :=
  min m n * w.both.toNat + (m - n) * w.first.toNat + (n - m) * w.second.toNat

theorem Writes.count_less (w : Writes) (m : Nat) : w.count (m + 1) 0 = 1 * w.first.toNat + w.count m 0 := by
  simp [count, Nat.add_mul, Nat.add_comm]

theorem Writes.count_greater (w : Writes) (n : Nat) : w.count 0 (n + 1) = 1 * w.second.toNat + w.count 0 n := by
  simp [count, Nat.add_mul, Nat.add_comm]

theorem Writes.count_equal (w : Writes) (m n : Nat) :
    w.count (m + 1) (n + 1) = 1 * w.both.toNat + w.count m n := by
  simp only [count, Nat.add_min_add_right, Nat.add_sub_add_right]
  ring

theorem merged_occurrences (hcomp : StrictWeak comp) (hxs : Sorted comp xs) (hys : Sorted comp ys) (c : α) :
    occurrences comp c (merged comp w xs ys) = w.count (occurrences comp c xs) (occurrences comp c ys) := by
  have hnil : occurrences comp c [] = 0 := rfl
  fun_induction merged comp w xs ys with
  | case1 ys hkeep => simp [hnil, Writes.count, hkeep]
  | case2 ys hkeep => simp [hnil, Writes.count, hkeep]
  | case3 x xs hkeep => simp [hnil, Writes.count, hkeep]
  | case4 x xs hkeep => simp [hnil, Writes.count, hkeep]
  | case5 x xs y ys hxy ih =>
    rw [occurrences_append, occurrences_emit, ih (sorted_cons.mp hxs).2 hys, occurrences_cons (x := x)]
    by_cases hc : equalTo comp c x = true
    · rw [if_pos hc, hcomp.occurrences_eq_zero hys hxy hc, Writes.count_less]
    · rw [if_neg hc, Nat.zero_mul, Nat.zero_add, Nat.add_zero]
  | case6 x xs y ys hxy hyx ih =>
    rw [occurrences_append, occurrences_emit, ih hxs (sorted_cons.mp hys).2, occurrences_cons (x := y)]
    by_cases hc : equalTo comp c y = true
    · rw [if_pos hc, hcomp.occurrences_eq_zero hxs hyx hc, Writes.count_greater]
    · rw [if_neg hc, Nat.zero_mul, Nat.zero_add, Nat.add_zero]
  | case7 x xs y ys hxy hyx ih =>
    have hequal : equalTo comp x y = true := equalTo_iff.mpr ⟨by simpa using hxy, by simpa using hyx⟩
    have hsame : equalTo comp c x = true ↔ equalTo comp c y = true := by
      constructor
      · exact fun hc => hcomp.equalTo_trans hc hequal
      · rw [equalTo_symm] at hequal
        exact fun hc => hcomp.equalTo_trans hc hequal
    rw [occurrences_append, occurrences_emit, ih (sorted_cons.mp hxs).2 (sorted_cons.mp hys).2, occurrences_cons,
      occurrences_cons]
    by_cases hc : equalTo comp c x = true
    · rw [if_pos hc, if_pos (hsame.mp hc), Writes.count_equal]
    · rw [if_neg hc, if_neg (mt hsame.mpr hc), Nat.zero_mul, Nat.zero_add, Nat.add_zero, Nat.add_zero]

theorem mem_emit (h : z ∈ emit keep x) : z = x := by
  cases keep with
  | false => exact absurd h List.not_mem_nil
  | true => exact List.mem_singleton.mp h

theorem mem_merged (h : z ∈ merged comp w xs ys) : z ∈ xs ∨ z ∈ ys := by
  fun_induction merged comp w xs ys with
  | case1 ys hkeep => exact Or.inr h
  | case2 ys hkeep => exact absurd h List.not_mem_nil
  | case3 x xs hkeep => exact Or.inl h
  | case4 x xs hkeep => exact absurd h List.not_mem_nil
  | case5 x xs y ys hxy ih =>
    obtain hz | hz := List.mem_append.mp h
    · exact Or.inl (mem_emit hz ▸ List.mem_cons_self)
    · exact (ih hz).imp_left (List.mem_cons_of_mem x)
  | case6 x xs y ys hxy hyx ih =>
    obtain hz | hz := List.mem_append.mp h
    · exact Or.inr (mem_emit hz ▸ List.mem_cons_self)
    · exact (ih hz).imp_right (List.mem_cons_of_mem y)
  | case7 x xs y ys hxy hyx ih =>
    obtain hz | hz := List.mem_append.mp h
    · exact Or.inl (mem_emit hz ▸ List.mem_cons_self)
    · exact (ih hz).imp (List.mem_cons_of_mem x) (List.mem_cons_of_mem y)

theorem sorted_emit (h : ∀ z ∈ xs, comp z x = false) (hxs : Sorted comp xs) : Sorted comp (emit keep x ++ xs) := by
  cases keep with
  | false => exact hxs
  | true => exact sorted_cons.mpr ⟨h, hxs⟩

/-- All of a sorted range is not less than an element that is not greater than its first. -/
theorem StrictWeak.sorted_le (hcomp : StrictWeak comp) (hys : Sorted comp (y :: ys)) (hxy : comp y x = false) :
    ∀ z ∈ y :: ys, comp z x = false := by
  intro z hz
  obtain rfl | hz := List.mem_cons.mp hz
  · exact hxy
  · exact hcomp.not_less_trans hxy ((sorted_cons.mp hys).1 z hz)

theorem merged_sorted (hcomp : StrictWeak comp) (hxs : Sorted comp xs) (hys : Sorted comp ys) :
    Sorted comp (merged comp w xs ys) := by
  fun_induction merged comp w xs ys with
  | case1 ys hkeep => exact hys
  | case2 ys hkeep => exact List.Pairwise.nil
  | case3 x xs hkeep => exact hxs
  | case4 x xs hkeep => exact List.Pairwise.nil
  | case5 x xs y ys hxy ih =>
    apply sorted_emit _ (ih (sorted_cons.mp hxs).2 hys)
    intro z hz
    exact (mem_merged hz).elim ((sorted_cons.mp hxs).1 z) (hcomp.sorted_le hys (hcomp.asymm hxy) z)
  | case6 x xs y ys hxy hyx ih =>
    apply sorted_emit _ (ih hxs (sorted_cons.mp hys).2)
    intro z hz
    exact (mem_merged hz).elim (hcomp.sorted_le hxs (hcomp.asymm hyx) z) ((sorted_cons.mp hys).1 z)
  | case7 x xs y ys hxy hyx ih =>
    apply sorted_emit _ (ih (sorted_cons.mp hxs).2 (sorted_cons.mp hys).2)
    intro z hz
    refine (mem_merged hz).elim ((sorted_cons.mp hxs).1 z) fun hz => ?_
    exact hcomp.sorted_le hys (by simpa using hyx) z (List.mem_cons_of_mem y hz)

/-- The operation ends, with a sorted range in which each class occurs so many times. -/
structure SetResult (comp : α → α → Bool) (count : Nat → Nat → Nat) (first second : List α)
    (operation : Nat → Option (List α)) (out : List α) : Prop where
  ends : ∃ rounds, ∀ n, rounds ≤ n → operation n = some out
  sorted : Sorted comp out
  occurs : ∀ c, occurrences comp c out = count (occurrences comp c first) (occurrences comp c second)

theorem SetResult.of_merged (hcomp : StrictWeak comp) (hxs : Sorted comp xs) (hys : Sorted comp ys) (w : Writes)
    {count : Nat → Nat → Nat} (hcount : ∀ m n, w.count m n = count m n) {operation : Nat → Option (List α)}
    (heq : ∀ n, xs.length + ys.length < n → operation n = some ([] ++ merged comp w xs ys)) :
    SetResult comp count xs ys operation (merged comp w xs ys) where
  ends := ⟨xs.length + ys.length + 1, fun n hn => heq n hn⟩
  sorted := merged_sorted hcomp hxs hys
  occurs c := (merged_occurrences hcomp hxs hys c).trans (hcount _ _)

/-- The operations count the elements of each class as operations of multisets do. -/
theorem set_operations (hcomp : StrictWeak comp) (hxs : Sorted comp xs) (hys : Sorted comp ys) :
    (∃ out, SetResult comp max xs ys (fun n => setUnion comp n xs ys) out) ∧
      (∃ out, SetResult comp min xs ys (fun n => setIntersection comp n xs ys) out) ∧
      (∃ out, SetResult comp (fun m n => m - n) xs ys (fun n => setDifference comp n xs ys) out) ∧
      ∃ out, SetResult comp (fun m n => ((m : Int) - n).natAbs) xs ys
        (fun n => setSymmetricDifference comp n xs ys) out := by
  refine ⟨⟨_, .of_merged hcomp hxs hys ⟨true, true, true⟩ ?_ fun n hn => setLoop_eq hcomp hn⟩,
    ⟨_, .of_merged hcomp hxs hys ⟨false, true, false⟩ ?_ fun n hn => intersectionLoop_eq hcomp hn⟩,
    ⟨_, .of_merged hcomp hxs hys ⟨true, false, false⟩ ?_ fun n hn => setLoop_eq hcomp hn⟩,
    ⟨_, .of_merged hcomp hxs hys ⟨true, false, true⟩ ?_ fun n hn => setLoop_eq hcomp hn⟩⟩
  all_goals
    intro m n
    simp only [Writes.count, Bool.toNat_true, Bool.toNat_false]
    omega

theorem sorted_ones : Sorted lessNat [1, 1, 2] := by
  simp [Sorted, lessNat]

/-- The union of 1, 1, 2 with itself. -/
theorem set_operations_ones : ∃ out, SetResult lessNat max [1, 1, 2] [1, 1, 2]
    (fun n => setUnion lessNat n [1, 1, 2] [1, 1, 2]) out :=
  (set_operations strictWeak_lessNat sorted_ones sorted_ones).1

end Counting

section Inclusion

/-- Every class occurs in the first range at least as often as in the second. -/
def Included (comp : α → α → Bool) (first second : List α) : Prop :=
  ∀ c, occurrences comp c second ≤ occurrences comp c first

theorem includes_cons {p : α → α → Bool} : includes p xs (y :: ys) = true ↔
    ∃ x rest, xs.dropWhile (p · y) = x :: rest ∧ p y x = false ∧
      includes p (rest.dropWhile fun z => !p y z) ys = true := by
  rw [includes]
  cases xs.dropWhile (p · y) with
  | nil => simp
  | cons x rest =>
    cases h : p y x with
    | false => simp [h]
    | true => simp [h]

theorem includes_nil {p : α → α → Bool} : includes p [] ys = true ↔ ys = [] := by
  cases ys with
  | nil => simp [includes]
  | cons y ys => simp [includes_cons]

theorem dropWhile_congr {p q : α → Bool} (h : ∀ x ∈ xs, p x = q x) : xs.dropWhile p = xs.dropWhile q := by
  induction xs with
  | nil => rfl
  | cons x xs ih =>
    rw [List.dropWhile_cons, List.dropWhile_cons, h x List.mem_cons_self,
      ih fun z hz => h z (List.mem_cons_of_mem x hz)]

theorem Sorted.dropWhile {p : α → Bool} (h : Sorted comp xs) : Sorted comp (xs.dropWhile p) :=
  h.sublist (List.dropWhile_sublist p)

/-- Where a sorted range stops being less than an element. -/
theorem mem_dropWhile_less (hcomp : StrictWeak comp) (hxs : Sorted comp xs) :
    z ∈ xs.dropWhile (comp · y) ↔ z ∈ xs ∧ comp z y = false := by
  induction xs with
  | nil => simp
  | cons x xs ih =>
    obtain ⟨hle, hsorted⟩ := sorted_cons.mp hxs
    rw [List.dropWhile_cons]
    split
    · next h =>
      rw [ih hsorted, List.mem_cons]
      refine ⟨fun hz => ⟨Or.inr hz.1, hz.2⟩, fun ⟨hz, hzy⟩ => ⟨hz.resolve_left ?_, hzy⟩⟩
      rintro rfl
      rw [h] at hzy
      cases hzy
    · next h =>
      refine ⟨fun hz => ⟨hz, ?_⟩, fun hz => hz.1⟩
      obtain rfl | hz := List.mem_cons.mp hz
      · simpa using h
      · exact hcomp.not_less_trans (by simpa using h) (hle z hz)

/-- Where a sorted range begins to be greater. -/
theorem mem_dropWhile_not_greater (hcomp : StrictWeak comp) (hxs : Sorted comp xs) :
    z ∈ xs.dropWhile (fun z => !comp y z) ↔ z ∈ xs ∧ comp y z = true := by
  induction xs with
  | nil => simp
  | cons x xs ih =>
    obtain ⟨hle, hsorted⟩ := sorted_cons.mp hxs
    rw [List.dropWhile_cons]
    split
    · next h =>
      rw [ih hsorted, List.mem_cons]
      refine ⟨fun hz => ⟨Or.inr hz.1, hz.2⟩, fun ⟨hz, hyz⟩ => ⟨hz.resolve_left ?_, hyz⟩⟩
      rintro rfl
      rw [hyz] at h
      cases h
    · next h =>
      have hyx : comp y x = true := by simpa using h
      refine ⟨fun hz => ⟨hz, ?_⟩, fun hz => hz.1⟩
      obtain rfl | hz := List.mem_cons.mp hz
      · exact hyx
      · exact hcomp.less_of_less_of_le hyx (hle z hz)

/-- With a comparison, the elements that follow an equivalent one are passed over too. -/
theorem includes_iff (hcomp : StrictWeak comp) (hxs : Sorted comp xs) (hys : Sorted comp ys) :
    includes comp xs ys = true ↔
      (ys.Pairwise fun a b => comp a b = true) ∧ ∀ y ∈ ys, ∃ x ∈ xs, equalTo comp x y = true := by
  induction ys generalizing xs with
  | nil => simp [includes]
  | cons y ys ih =>
    obtain ⟨hle, hsorted⟩ := sorted_cons.mp hys
    have hmem (z : α) := mem_dropWhile_less (y := y) (z := z) hcomp hxs
    have hdrop := hxs.dropWhile (p := (comp · y))
    rw [includes_cons, List.pairwise_cons]
    constructor
    · rintro ⟨x, rest, heq, hyx, hrest⟩
      rw [heq] at hmem hdrop
      have hx := (hmem x).mp List.mem_cons_self
      obtain ⟨hpair, hall⟩ := (ih (sorted_cons.mp hdrop).2.dropWhile hsorted).mp hrest
      have hfound : ∀ y' ∈ ys, ∃ x' ∈ xs, comp y x' = true ∧ equalTo comp x' y' = true := by
        intro y' hy'
        obtain ⟨x', hx', hequal⟩ := hall y' hy'
        obtain ⟨hx', hless⟩ := (mem_dropWhile_not_greater hcomp (sorted_cons.mp hdrop).2).mp hx'
        exact ⟨x', ((hmem x').mp (List.mem_cons_of_mem x hx')).1, hless, hequal⟩
      refine ⟨⟨fun y' hy' => ?_, hpair⟩, ?_⟩
      · obtain ⟨x', -, hless, hequal⟩ := hfound y' hy'
        exact hcomp.less_of_less_of_le hless (equalTo_iff.mp hequal).2
      · intro y' hy'
        obtain rfl | hy' := List.mem_cons.mp hy'
        · exact ⟨x, hx.1, equalTo_iff.mpr ⟨hx.2, hyx⟩⟩
        · obtain ⟨x', hx', -, hequal⟩ := hfound y' hy'
          exact ⟨x', hx', hequal⟩
    · rintro ⟨⟨hless, hpair⟩, hall⟩
      obtain ⟨x', hx', hequal⟩ := hall y List.mem_cons_self
      obtain ⟨hx'y, hyx'⟩ := equalTo_iff.mp hequal
      cases heq : xs.dropWhile (comp · y) with
      | nil =>
        rw [heq] at hmem
        exact absurd ((hmem x').mpr ⟨hx', hx'y⟩) List.not_mem_nil
      | cons x rest =>
        rw [heq] at hmem hdrop
        have hx := (hmem x).mp List.mem_cons_self
        have hyx : comp y x = false := by
          obtain rfl | hrest := List.mem_cons.mp ((hmem x').mpr ⟨hx', hx'y⟩)
          · exact hyx'
          · by_contra hyx
            have hgreater := hcomp.less_of_less_of_le (by simpa using hyx) ((sorted_cons.mp hdrop).1 x' hrest)
            rw [hyx'] at hgreater
            cases hgreater
        refine ⟨x, rest, rfl, hyx, (ih (sorted_cons.mp hdrop).2.dropWhile hsorted).mpr ⟨hpair, ?_⟩⟩
        intro y' hy'
        obtain ⟨z, hz, hzequal⟩ := hall y' (List.mem_cons_of_mem y hy')
        have hyz := hcomp.less_of_less_of_le (hless y' hy') (equalTo_iff.mp hzequal).1
        have hzrest := List.mem_cons.mp ((hmem z).mpr ⟨hz, hcomp.asymm hyz⟩)
        refine ⟨z, (mem_dropWhile_not_greater hcomp (sorted_cons.mp hdrop).2).mpr ⟨hzrest.resolve_left ?_, hyz⟩,
          hzequal⟩
        rintro rfl
        rw [hyx] at hyz
        cases hyz

/-- Each element but the last is greater than the one before and occurs in the range. The last is greater than the one
before, or something in the range is greater than it. -/
def AcceptsFrom (comp : α → α → Bool) (first : List α) : α → List α → Prop
  | _, [] => True
  | y, [y'] => comp y y' = true ∨ ∃ x ∈ first, comp y' x = true
  | y, y' :: y'' :: second =>
    comp y y' = true ∧ (∃ x ∈ first, equalTo comp x y' = true) ∧ AcceptsFrom comp first y' (y'' :: second)

/-- What is accepted when equality is taken for the comparison. -/
def EqualAccepts (comp : α → α → Bool) (first : List α) : List α → Prop
  | [] => True
  | [y] => ∃ x ∈ first, equalTo comp x y = false
  | y :: y' :: second =>
    (∀ x ∈ first.head?, equalTo comp x y = false) ∧ (∃ x ∈ first, equalTo comp x y = true) ∧
      AcceptsFrom comp first y (y' :: second)

theorem dropWhile_unequal_eq_nil (h : ∀ x ∈ xs, equalTo comp x y = false) :
    xs.dropWhile (fun z => !equalTo comp y z) = [] := by
  rw [List.dropWhile_eq_nil_iff]
  intro x hx
  rw [equalTo_symm, h x hx]
  rfl

/-- Up to the first element of a class all elements are less than it. -/
theorem exists_dropWhile_unequal (hcomp : StrictWeak comp) (hxs : Sorted comp xs)
    (h : ∃ x ∈ xs, equalTo comp x y = true) :
    ∃ x rest, xs.dropWhile (fun z => !equalTo comp y z) = x :: rest ∧ equalTo comp y x = true ∧
      ∀ z, comp z y = false → (z ∈ x :: rest ↔ z ∈ xs) := by
  induction xs with
  | nil =>
    obtain ⟨x, hx, -⟩ := h
    exact absurd hx List.not_mem_nil
  | cons x xs ih =>
    obtain ⟨hle, hsorted⟩ := sorted_cons.mp hxs
    rw [List.dropWhile_cons]
    cases hyx : equalTo comp y x with
    | true => exact ⟨x, xs, if_neg (by decide), hyx, fun z _ => Iff.rfl⟩
    | false =>
      obtain ⟨x', hx', hequal⟩ := h
      have hx'xs : x' ∈ xs := by
        refine (List.mem_cons.mp hx').resolve_left ?_
        rintro rfl
        rw [equalTo_symm, hyx] at hequal
        cases hequal
      obtain ⟨x₁, rest, heq, hequal₁, hmem⟩ := ih hsorted ⟨x', hx'xs, hequal⟩
      refine ⟨x₁, rest, heq, hequal₁, fun z hz => (hmem z hz).trans ?_⟩
      rw [List.mem_cons, or_iff_right]
      rintro rfl
      have hzy : comp y z = false :=
        hcomp.not_less_trans (hle x' hx'xs) (equalTo_iff.mp hequal).2
      rw [equalTo_iff.mpr ⟨hzy, hz⟩] at hyx
      cases hyx

/-- Elements of the class in front are passed over, and then nothing of it is left. -/
theorem includes_equalTo_same (hcomp : StrictWeak comp) (hxs : Sorted comp xs) (hle : ∀ x ∈ xs, comp x y = false) :
    includes (equalTo comp) xs (y :: ys) = true ↔ ys = [] ∧ ∃ x ∈ xs, comp y x = true := by
  have hdrop : xs.dropWhile (equalTo comp · y) = xs.dropWhile fun z => !comp y z := by
    apply dropWhile_congr
    intro x hx
    rw [equalTo, hle x hx]
    rfl
  have hmem (z : α) := mem_dropWhile_not_greater (y := y) (z := z) hcomp hxs
  have hsorted := hxs.dropWhile (p := fun z => !comp y z)
  rw [includes_cons, hdrop]
  cases heq : xs.dropWhile fun z => !comp y z with
  | nil =>
    rw [heq] at hmem
    refine iff_of_false (by rintro ⟨x, rest, h, -⟩; cases h) ?_
    rintro ⟨-, x, hx, hyx⟩
    exact absurd ((hmem x).mpr ⟨hx, hyx⟩) List.not_mem_nil
  | cons x rest =>
    rw [heq] at hmem hsorted
    have hx := (hmem x).mp List.mem_cons_self
    have hunequal (z : α) (hz : z ∈ x :: rest) : equalTo comp z y = false := by
      rw [equalTo, ((hmem z).mp hz).2, Bool.and_comm]
      rfl
    have hnil := dropWhile_unequal_eq_nil fun z hz => hunequal z (List.mem_cons_of_mem x hz)
    constructor
    · rintro ⟨x', rest', h, -, hincludes⟩
      cases h
      rw [hnil, includes_nil] at hincludes
      exact ⟨hincludes, x, hx.1, hx.2⟩
    · rintro ⟨rfl, -⟩
      refine ⟨x, rest, rfl, ?_, rfl⟩
      rw [equalTo_symm]
      exact hunequal x List.mem_cons_self

/-- The loop goes on where a class begins. -/
theorem includes_equalTo_from (hcomp : StrictWeak comp) {h : α} {t : List α} (hxs : Sorted comp (h :: t))
    (hhead : equalTo comp y h = true) (hmem : ∀ z, comp z y = false → (z ∈ h :: t ↔ z ∈ xs))
    (hys : Sorted comp (y :: ys)) : includes (equalTo comp) (h :: t) ys = true ↔ AcceptsFrom comp xs y ys := by
  induction ys generalizing y h t with
  | nil => simp [includes, AcceptsFrom]
  | cons y' ys ih =>
    obtain ⟨hle, hsorted⟩ := sorted_cons.mp hys
    have hyy' := hle y' List.mem_cons_self
    have hleast : ∀ x ∈ h :: t, comp x y = false :=
      hcomp.sorted_le hxs (equalTo_iff.mp hhead).2
    cases hless : comp y y' with
    | false =>
      have hle' : ∀ x ∈ h :: t, comp x y' = false := fun x hx => hcomp.not_less_trans hless (hleast x hx)
      have hgreater : (∃ x ∈ h :: t, comp y' x = true) ↔ ∃ x ∈ xs, comp y' x = true := by
        refine exists_congr fun z => and_congr_left fun hz => hmem z ?_
        exact hcomp.asymm (hcomp.less_of_le_of_less hyy' hz)
      rw [includes_equalTo_same hcomp hxs hle', hgreater]
      cases ys with
      | nil => simp [AcceptsFrom, hless]
      | cons y'' ys => simp [AcceptsFrom, hless]
    | true =>
      have hhy' : comp h y' = true := hcomp.less_of_le_of_less (equalTo_iff.mp hhead).1 hless
      have hunequal : equalTo comp h y' = false := by rw [equalTo, hhy']; rfl
      have hdrop : (h :: t).dropWhile (equalTo comp · y') = h :: t := List.dropWhile_cons_of_neg (by simp [hunequal])
      have hstep : includes (equalTo comp) (h :: t) (y' :: ys) = true ↔
          includes (equalTo comp) (t.dropWhile fun z => !equalTo comp y' z) ys = true := by
        rw [includes_cons, hdrop]
        constructor
        · rintro ⟨x, rest, heq, -, hrest⟩
          cases heq
          exact hrest
        · exact fun hrest => ⟨h, t, rfl, by rw [equalTo_symm, hunequal], hrest⟩
      rw [hstep]
      cases ys with
      | nil => simp [includes, AcceptsFrom, hless]
      | cons y'' ys =>
        have hin (z : α) (hz : comp z y' = false) : z ∈ t ↔ z ∈ xs := by
          have hzy : comp z y = false := hcomp.not_less_trans (hcomp.asymm hless) hz
          rw [← hmem z hzy, List.mem_cons, or_iff_right]
          rintro rfl
          rw [hhy'] at hz
          cases hz
        by_cases hexists : ∃ x ∈ xs, equalTo comp x y' = true
        · obtain ⟨x, hx, hequal⟩ := hexists
          have hxt := (hin x (equalTo_iff.mp hequal).1).mpr hx
          obtain ⟨x₁, rest, heq, hequal₁, hmem₁⟩ :=
            exists_dropWhile_unequal hcomp (sorted_cons.mp hxs).2 ⟨x, hxt, hequal⟩
          have hrest : Sorted comp (x₁ :: rest) := heq ▸ (sorted_cons.mp hxs).2.dropWhile
          rw [heq, ih hrest hequal₁ (fun z hz => (hmem₁ z hz).trans (hin z hz)) hsorted, AcceptsFrom]
          exact (and_iff_right hless).symm.trans (and_congr_right fun _ => (and_iff_right ⟨x, hx, hequal⟩).symm)
        · rw [dropWhile_unequal_eq_nil, includes_nil, AcceptsFrom]
          · exact iff_of_false (List.cons_ne_nil y'' ys) fun h => hexists h.2.1
          · intro x hx
            by_contra hequal
            have hequal : equalTo comp x y' = true := by simpa using hequal
            exact hexists ⟨x, (hin x (equalTo_iff.mp hequal).1).mp hx, hequal⟩

theorem includesDefault_iff (hcomp : StrictWeak comp) (hxs : Sorted comp xs) (hys : Sorted comp ys) :
    includesDefault comp xs ys = true ↔ EqualAccepts comp xs ys := by
  rw [includesDefault]
  match ys with
  | [] => simp [includes, EqualAccepts]
  | [y] =>
    rw [includes_cons]
    constructor
    · rintro ⟨x, rest, heq, hyx, -⟩
      have hx : x ∈ xs.dropWhile (equalTo comp · y) := heq ▸ List.mem_cons_self
      exact ⟨x, (List.dropWhile_sublist _).subset hx, equalTo_symm.trans hyx⟩
    · rintro ⟨z, hz, hunequal⟩
      have hhead := List.head?_dropWhile_not (equalTo comp · y) xs
      cases heq : xs.dropWhile (equalTo comp · y) with
      | nil =>
        rw [List.dropWhile_eq_nil_iff.mp heq z hz] at hunequal
        cases hunequal
      | cons x rest =>
        rw [heq] at hhead
        exact ⟨x, rest, rfl, equalTo_symm.trans hhead, rfl⟩
  | y :: y' :: second =>
    cases xs with
    | nil => simp [includes_nil, EqualAccepts]
    | cons h t =>
      cases hequal : equalTo comp h y with
      | true =>
        have hle : ∀ x ∈ h :: t, comp x y = false := hcomp.sorted_le hxs (equalTo_iff.mp hequal).1
        rw [includes_equalTo_same hcomp hxs hle]
        refine iff_of_false (fun h => List.cons_ne_nil y' second h.1) fun haccepts => ?_
        have hhead := haccepts.1 h rfl
        rw [hequal] at hhead
        cases hhead
      | false =>
        have hdrop : (h :: t).dropWhile (equalTo comp · y) = h :: t := List.dropWhile_cons_of_neg (by simp [hequal])
        have hhead : ∀ x ∈ (h :: t).head?, equalTo comp x y = false := by
          rintro x hx
          obtain rfl := Option.some.inj hx
          exact hequal
        have hstep : includes (equalTo comp) (h :: t) (y :: y' :: second) = true ↔
            includes (equalTo comp) (t.dropWhile fun z => !equalTo comp y z) (y' :: second) = true := by
          rw [includes_cons, hdrop]
          constructor
          · rintro ⟨x, rest, heq, -, hrest⟩
            cases heq
            exact hrest
          · exact fun hrest => ⟨h, t, rfl, by rw [equalTo_symm, hequal], hrest⟩
        rw [hstep, EqualAccepts, and_iff_right hhead]
        by_cases hexists : ∃ x ∈ h :: t, equalTo comp x y = true
        · obtain ⟨x, hx, hxequal⟩ := hexists
          have hxt : x ∈ t := by
            refine (List.mem_cons.mp hx).resolve_left ?_
            rintro rfl
            rw [hequal] at hxequal
            cases hxequal
          -- the head is not greater than the class, since the class comes after it
          have hhy : comp h y = true := by
            by_contra hhy
            have hhy : comp h y = false := by simpa using hhy
            have hyh : comp y h = false :=
              hcomp.not_less_trans ((sorted_cons.mp hxs).1 x hxt) (equalTo_iff.mp hxequal).2
            rw [equalTo_iff.mpr ⟨hhy, hyh⟩] at hequal
            cases hequal
          obtain ⟨x₁, rest, heq, hequal₁, hmem⟩ :=
            exists_dropWhile_unequal hcomp (sorted_cons.mp hxs).2 ⟨x, hxt, hxequal⟩
          have hrest : Sorted comp (x₁ :: rest) := heq ▸ (sorted_cons.mp hxs).2.dropWhile
          rw [heq, includes_equalTo_from hcomp hrest hequal₁ _ hys]
          · exact (and_iff_right ⟨x, hx, hxequal⟩).symm
          · intro z hz
            rw [hmem z hz, List.mem_cons, or_iff_right]
            rintro rfl
            rw [hhy] at hz
            cases hz
        · rw [dropWhile_unequal_eq_nil, includes_nil]
          · exact iff_of_false (List.cons_ne_nil y' second) fun h => hexists h.1
          · intro x hx
            by_contra hxequal
            exact hexists ⟨x, List.mem_cons_of_mem h hx, by simpa using hxequal⟩

theorem occurrences_le_one (hcomp : StrictWeak comp) (hys : ys.Pairwise fun a b => comp a b = true) (c : α) :
    occurrences comp c ys ≤ 1 := by
  induction ys with
  | nil => exact Nat.zero_le 1
  | cons y ys ih =>
    obtain ⟨hless, hpair⟩ := List.pairwise_cons.mp hys
    rw [occurrences_cons]
    split
    · next hc =>
      have hzero : occurrences comp c ys = 0 := by
        by_contra hpos
        obtain ⟨z, hz, hcz⟩ := occurrences_pos_iff.mp (Nat.pos_of_ne_zero hpos)
        rw [equalTo_symm] at hc
        have hyz := (equalTo_iff.mp (hcomp.equalTo_trans hc hcz)).1
        rw [hless z hz] at hyz
        cases hyz
      rw [hzero]
    · exact ih hpair

/-- A range of distinct classes is included when each of them occurs. -/
theorem included_iff (hcomp : StrictWeak comp) (hys : ys.Pairwise fun a b => comp a b = true) :
    Included comp xs ys ↔ ∀ y ∈ ys, ∃ x ∈ xs, equalTo comp x y = true := by
  constructor
  · intro h y hy
    have hself : equalTo comp y y = true := equalTo_iff.mpr ⟨hcomp.irrefl y, hcomp.irrefl y⟩
    have hpos := (occurrences_pos_iff.mpr ⟨y, hy, hself⟩).trans_le (h y)
    obtain ⟨x, hx, hequal⟩ := occurrences_pos_iff.mp hpos
    exact ⟨x, hx, equalTo_symm.trans hequal⟩
  · intro h c
    obtain hzero | hpos := Nat.eq_zero_or_pos (occurrences comp c ys)
    · rw [hzero]
      exact Nat.zero_le _
    · obtain ⟨y, hy, hcy⟩ := occurrences_pos_iff.mp hpos
      obtain ⟨x, hx, hequal⟩ := h y hy
      rw [equalTo_symm] at hequal
      exact (occurrences_le_one hcomp hys c).trans (occurrences_pos_iff.mpr ⟨x, hx, hcomp.equalTo_trans hcy hequal⟩)

/-- With a comparison, `includes` is right unless an included range has equivalent elements. Without one it is right where
what its equality accepts is what is included. -/
theorem includes_right_iff (hcomp : StrictWeak comp) (hxs : Sorted comp xs) (hys : Sorted comp ys) :
    ((includes comp xs ys = true ↔ Included comp xs ys) ↔
        (ys.Pairwise (fun a b => comp a b = true) ∨ ¬ Included comp xs ys)) ∧
      ((includesDefault comp xs ys = true ↔ Included comp xs ys) ↔
        (EqualAccepts comp xs ys ∧ Included comp xs ys ∨ ¬ EqualAccepts comp xs ys ∧ ¬ Included comp xs ys)) := by
  constructor
  · rw [includes_iff hcomp hxs hys]
    by_cases hpair : ys.Pairwise fun a b => comp a b = true
    · rw [included_iff hcomp hpair]
      simp [hpair]
    · simp [hpair]
  · rw [includesDefault_iff hcomp hxs hys]
    tauto

/-- The numbers 1 and 2 in 1, 1, 2. -/
theorem includes_right_ones : includes lessNat [1, 1, 2] [1, 2] = true ↔ Included lessNat [1, 1, 2] [1, 2] :=
  (includes_right_iff strictWeak_lessNat sorted_ones (by simp [Sorted, lessNat])).1.mpr (Or.inl (by simp [lessNat]))

/-- The range 1, 1 does not include itself, and 1 includes 2. -/
theorem includes_twice : ¬ (includes lessNat [1, 1] [1, 1] = true ↔ Included lessNat [1, 1] [1, 1]) ∧
    ¬ (includesDefault lessNat [1] [2] = true ↔ Included lessNat [1] [2]) := by
  constructor
  · intro h
    exact absurd (h.mpr fun c => Nat.le_refl _) (by decide)
  · intro h
    exact absurd (h.mp (by decide) 2) (by decide)

end Inclusion

end XviOs.Algorithm
