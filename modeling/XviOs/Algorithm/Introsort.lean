import XviOs.Algorithm.HeapSort

namespace XviOs.Algorithm

open Library.StateProgram Library.Rearrange

variable {α : Type} {comp : α → α → Bool} {lo hi first last : Nat} {f g h : Nat → α}

/-- The memories are the same at the places of the range. -/
def Agree (first last : Nat) (f g : Nat → α) : Prop := ∀ i, first ≤ i → i < last → f i = g i

section Locality

variable (hfirst : lo ≤ first) (hlast : last ≤ hi)

include hfirst hlast

/-- What an access to the range reads does not depend on the places around it. -/
theorem read_simulates (i : Nat) :
    Simulates (Agree first last) (read first last i : Sorter α α) (read lo hi i) := by
  intro f g hfg x f' hread
  unfold read at hread
  split at hread
  case isFalse => cases hread
  case isTrue hi1 =>
    cases hread
    exact ⟨g, by rw [read_eq (hfirst.trans hi1.1) (hi1.2.trans_le hlast), hfg i hi1.1 hi1.2], hfg⟩

theorem write_simulates (i : Nat) (x : α) :
    Simulates (Agree first last) (write first last i x) (write lo hi i x) := by
  intro f g hfg _ f' hwrite
  unfold write at hwrite
  split at hwrite
  case isFalse => cases hwrite
  case isTrue hi1 =>
    cases hwrite
    refine ⟨_, write_eq (hfirst.trans hi1.1) (hi1.2.trans_le hlast), ?_⟩
    intro j hj1 hj2
    by_cases hij : j = i
    · rw [hij, Function.update_self, Function.update_self]
    · rw [Function.update_of_ne hij, Function.update_of_ne hij, hfg j hj1 hj2]

theorem iterSwap_simulates (i j : Nat) :
    Simulates (Agree first last) (iterSwap first last i j : Sorter α Unit) (iterSwap lo hi i j) :=
  (read_simulates hfirst hlast i).bind fun x => (read_simulates hfirst hlast j).bind fun y =>
    (write_simulates hfirst hlast i y).bind fun _ => write_simulates hfirst hlast j x

theorem swapIfLess_simulates (i j : Nat) :
    Simulates (Agree first last) (swapIfLess comp first last i j) (swapIfLess comp lo hi i j) :=
  (read_simulates hfirst hlast i).bind fun _ => (read_simulates hfirst hlast j).bind fun _ =>
    .ite (iterSwap_simulates hfirst hlast i j) (.pure ())

theorem medianOfThree_simulates (a b : Nat) :
    Simulates (Agree first last) (medianOfThree comp first last a b) (medianOfThree comp lo hi a b) :=
  .ite (.pure a) <| (swapIfLess_simulates hfirst hlast _ _).bind fun _ =>
    (swapIfLess_simulates hfirst hlast _ _).bind fun _ =>
      (swapIfLess_simulates hfirst hlast _ _).bind fun _ => .pure _

variable {p q : α → Sorter α Bool} (hpq : ∀ x, Simulates (Agree first last) (p x) (q x))

include hpq

theorem scanUp_simulates (n a b : Nat) :
    Simulates (Agree first last) (scanUp first last p n a b) (scanUp lo hi q n a b) := by
  induction n generalizing a with
  | zero => exact .fail
  | succ n ih =>
    exact .ite (.pure a) <| (read_simulates hfirst hlast a).bind fun x => (hpq x).bind fun c =>
      .ite (ih (a + 1)) (.pure a)

theorem scanDown_simulates (n a b : Nat) :
    Simulates (Agree first last) (scanDown first last p n a b) (scanDown lo hi q n a b) := by
  induction n generalizing b with
  | zero => exact .fail
  | succ n ih =>
    exact .ite (.pure b) <| (read_simulates hfirst hlast (b - 1)).bind fun x => (hpq x).bind fun c =>
      .ite (.pure b) (ih (b - 1))

theorem partitionLoop_simulates (n a b : Nat) :
    Simulates (Agree first last) (partitionLoop first last p n a b) (partitionLoop lo hi q n a b) := by
  induction n generalizing a b with
  | zero => exact .fail
  | succ n ih =>
    exact (scanUp_simulates hfirst hlast hpq _ a b).bind fun k =>
      (scanDown_simulates hfirst hlast hpq _ k b).bind fun l =>
        .ite (.pure k) <| (iterSwap_simulates hfirst hlast k (l - 1)).bind fun _ => ih (k + 1) _

omit hpq

theorem quickStep_simulates (a b : Nat) :
    Simulates (Agree first last) (quickStep comp first last a b) (quickStep comp lo hi a b) :=
  (medianOfThree_simulates hfirst hlast a b).bind fun k =>
    (iterSwap_simulates hfirst hlast k (b - 1)).bind fun _ =>
      (partitionLoop_simulates hfirst hlast
        (fun x => (read_simulates hfirst hlast (b - 1)).bind fun y => .pure (comp x y)) _ a (b - 1)).bind fun l =>
          (iterSwap_simulates hfirst hlast l (b - 1)).bind fun _ => .pure l

/-- The step of the quicksort depends on its range only. -/
theorem quickStep_congr (hlt : first < last) (hfg : Agree first last f g) {p : Nat} {f' : Nat → α}
    (h : quickStep comp lo hi first last f = some (p, f')) :
    ∃ g', quickStep comp lo hi first last g = some (p, g') ∧ Agree first last f' g' := by
  obtain ⟨k, f0, hown, -⟩ := quickStep_leads comp (f := f) (Nat.le_refl first) (Nat.le_refl last) hlt
  obtain ⟨f1, hf1, hagree1⟩ := quickStep_simulates hfirst hlast first last f f (fun _ _ _ => rfl) k f0 hown
  obtain ⟨g1, hg1, hagree2⟩ := quickStep_simulates hfirst hlast first last f g hfg k f0 hown
  cases hf1.symm.trans h
  exact ⟨g1, hg1, fun i hi1 hi2 => (hagree1 i hi1 hi2).symm.trans (hagree2 i hi1 hi2)⟩

end Locality

/-- The quicksort of a range reaches its depth limit at a part that is too long for the insertion sort. -/
inductive FallsBack (comp : α → α → Bool) (lo hi : Nat) : Nat → Nat → Nat → (Nat → α) → Prop
  | here {first last : Nat} {f : Nat → α} (hlong : insertionSortThreshold < last - first) :
      FallsBack comp lo hi 0 first last f
  | left {depth first last pivot : Nat} {f g : Nat → α} (hlong : insertionSortThreshold < last - first)
      (hstep : quickStep comp lo hi first last f = some (pivot, g)) (rest : FallsBack comp lo hi depth first pivot g) :
      FallsBack comp lo hi (depth + 1) first last f
  | right {depth first last pivot : Nat} {f g : Nat → α} (hlong : insertionSortThreshold < last - first)
      (hstep : quickStep comp lo hi first last f = some (pivot, g))
      (rest : FallsBack comp lo hi depth (pivot + 1) last g) : FallsBack comp lo hi (depth + 1) first last f

theorem FallsBack.long {depth : Nat} (h : FallsBack comp lo hi depth first last f) :
    insertionSortThreshold < last - first := by
  cases h <;> assumption

theorem Pivoted.of_eq (hlo : lo ≤ first) (hhi : last ≤ hi) (hlt : first < last) {p : Nat}
    (h : quickStep comp lo hi first last f = some (p, g)) :
    Pivoted comp first last p g ∧ Rearranges (Set.Ico first last) f g := by
  obtain ⟨k, g', hstep, hleads⟩ := quickStep_leads comp (f := f) hlo hhi hlt
  cases hstep.symm.trans h
  exact hleads

/-- The fallback depends on the range only. -/
theorem FallsBack.congr {depth : Nat} (h : FallsBack comp lo hi depth first last f) (hlo : lo ≤ first)
    (hhi : last ≤ hi) (hfg : Agree first last f g) : FallsBack comp lo hi depth first last g := by
  induction h generalizing g with
  | here hlong => exact .here hlong
  | left hlong hstep rest ih =>
    have hpivot := (Pivoted.of_eq hlo hhi (by omega) hstep).1
    obtain ⟨g', hstep', hagree⟩ := quickStep_congr hlo hhi (by omega) hfg hstep
    exact .left hlong hstep' (ih hlo (hpivot.lt.le.trans hhi) fun i h1 h2 => hagree i h1 (h2.trans hpivot.lt))
  | right hlong hstep rest ih =>
    have hpivot := (Pivoted.of_eq hlo hhi (by omega) hstep).1
    have hle := hpivot.le
    obtain ⟨g', hstep', hagree⟩ := quickStep_congr hlo hhi (by omega) hfg hstep
    exact .right hlong hstep' (ih (by omega) hhi fun i h1 h2 => hagree i (by omega) h2)

/-- A pivot keeps its role when its two sides are put in another order. -/
theorem Pivoted.rearrange {p : Nat} (hpivot : Pivoted comp first last p f) (hleft : Rearranges (Set.Ico first p) f g)
    (hright : Rearranges (Set.Ico (p + 1) last) g h) : Pivoted comp first last p h := by
  have hle := hpivot.le
  have hhg : ∀ i, i < p + 1 → h i = g i := fun i hi => hright.eq_of_notMem (by simp; omega)
  have hgf : ∀ i, p ≤ i → g i = f i := fun i hi => hleft.eq_of_notMem (by simp; omega)
  have hp : h p = f p := (hhg p (Nat.lt_succ_self p)).trans (hgf p (Nat.le_refl p))
  refine ⟨hle, hpivot.lt, fun i hi1 hip => ?_, fun i hpi hil => ?_⟩
  · rw [hp, hhg i (by omega)]
    exact hleft.forall_mem (P := fun x => comp x (f p) = true) (fun j hj => hpivot.before j hj.1 hj.2) i ⟨hi1, hip⟩
  · rw [hp]
    refine hright.forall_mem (P := fun x => comp x (f p) = false) (fun j hj => ?_) i ⟨hpi, hil⟩
    rw [hgf j (Nat.le_of_succ_le hj.1)]
    exact hpivot.behind j hj.1 hj.2

/-- The range is sorted when both sides of the pivot are. -/
theorem Pivoted.nonDecreasing (hcomp : StrictWeak comp) {p : Nat} (hpivot : Pivoted comp first last p f)
    (hleft : NonDecreasing comp first p f) (hright : NonDecreasing comp (p + 1) last f) :
    NonDecreasing comp first last f := by
  intro i j hi1 hij hj
  obtain hjp | rfl | hpj := lt_trichotomy j p
  · exact hleft i j hi1 hij hjp
  · exact hcomp.asymm (hpivot.before i hi1 hij)
  · obtain hip | rfl | hpi := lt_trichotomy i p
    · exact hcomp.not_less_trans (hcomp.asymm (hpivot.before i hi1 hip)) (hpivot.behind j hpj hj)
    · exact hpivot.behind j hpj hj
    · exact hright i j hpi hij hj

/-- A short range is sorted whatever the depth is. -/
theorem introsort_short_leads (hcomp : StrictWeak comp) (hlo : lo ≤ first) (hhi : last ≤ hi)
    (hn : last - first ≤ insertionSortThreshold) (depth : Nat) :
    Leads (introsort comp lo hi depth first last) f fun _ g =>
      NonDecreasing comp first last g ∧ Rearranges (Set.Ico first last) f g := by
  by_cases hone : last - first ≤ 1
  · have heq : introsort comp lo hi depth first last = pure () := by
      cases depth <;> rw [introsort, if_pos hone]
    rw [heq]
    exact Leads.pure ⟨nonDecreasing_of_le_one hone, Rearranges.refl _ _⟩
  · have heq : introsort comp lo hi depth first last = insertionSort comp lo hi first last := by
      cases depth <;> rw [introsort, if_neg hone, if_pos hn]
    rw [heq]
    exact insertionSort_leads hcomp hlo hhi

/-- The sort sorts unless it falls back. -/
theorem introsort_leads (hcomp : StrictWeak comp) (hlo : lo ≤ first) (hhi : last ≤ hi) {depth : Nat}
    (hfall : ¬ FallsBack comp lo hi depth first last f) :
    Leads (introsort comp lo hi depth first last) f fun _ g =>
      NonDecreasing comp first last g ∧ Rearranges (Set.Ico first last) f g := by
  induction depth generalizing first last f with
  | zero =>
    have hshort : last - first ≤ insertionSortThreshold := by
      by_contra hshort
      exact hfall (.here (Nat.lt_of_not_le hshort))
    exact introsort_short_leads hcomp hlo hhi hshort 0
  | succ depth ih =>
    by_cases hshort : last - first ≤ insertionSortThreshold
    · exact introsort_short_leads hcomp hlo hhi hshort (depth + 1)
    have hlong : insertionSortThreshold < last - first := Nat.lt_of_not_le hshort
    have hone : ¬ last - first ≤ 1 := Nat.not_le.mpr (lt_trans (by decide) hlong)
    rw [introsort, if_neg hone, if_neg hshort]
    obtain ⟨p, g, hstep, hpivot, hstepped⟩ := quickStep_leads comp (f := f) hlo hhi (by omega)
    have hle := hpivot.le
    have hlt := hpivot.lt
    apply Leads.bind_eq hstep
    apply (ih hlo (hlt.le.trans hhi) fun h => hfall (.left hlong hstep h)).bind
    rintro _ h ⟨hleft, hrearr⟩
    -- the sort of the left part leaves the right one as the step made it
    have hagree : Agree (p + 1) last h g := fun i hi1 _ => hrearr.eq_of_notMem (by simp; omega)
    refine (ih (by omega) hhi fun hf => hfall (.right hlong hstep (hf.congr (by omega) hhi hagree))).mono ?_
    rintro _ k ⟨hright, hrearr'⟩
    have hkept : NonDecreasing comp first p k := by
      intro i j hi1 hij hj
      rw [hrearr'.eq_of_notMem (by simp; omega), hrearr'.eq_of_notMem (by simp; omega)]
      exact hleft i j hi1 hij hj
    refine ⟨(hpivot.rearrange hrearr hrearr').nonDecreasing hcomp hkept hright,
      (hstepped.trans (hrearr.mono ?_)).trans (hrearr'.mono ?_)⟩
    · exact Set.Ico_subset_Ico_right hlt.le
    · exact Set.Ico_subset_Ico_left (by omega)

/-- What follows when the quicksort of a part does not return. -/
theorem introsort_succ_eq (hlong : insertionSortThreshold < last - first) {depth p : Nat}
    (hstep : quickStep comp lo hi first last f = some (p, g)) :
    introsort comp lo hi (depth + 1) first last f = (introsort comp lo hi depth first p g).bind fun r =>
      introsort comp lo hi depth (p + 1) last r.2 := by
  rw [introsort, if_neg (Nat.not_le.mpr (lt_trans (by decide) hlong)), if_neg (Nat.not_le.mpr hlong)]
  change (quickStep comp lo hi first last f).bind _ = _
  rw [hstep]
  rfl

/-- The sort leaves the range when it falls back. -/
theorem FallsBack.fails (hcomp : StrictWeak comp) {depth : Nat} (h : FallsBack comp lo hi depth first last f)
    (hlo : lo ≤ first) (hhi : last ≤ hi) : introsort comp lo hi depth first last f = none := by
  induction depth generalizing first last f with
  | zero =>
    have hlong := h.long
    rw [introsort, if_neg (Nat.not_le.mpr (lt_trans (by decide) hlong)), if_neg (Nat.not_le.mpr hlong)]
    exact heapSort_fails (by omega)
  | succ depth ih =>
    cases h with
    | @left _ _ _ p _ g hlong hstep rest =>
      have hlt := (Pivoted.of_eq hlo hhi (by omega) hstep).1.lt
      rw [introsort_succ_eq hlong hstep, ih rest hlo (hlt.le.trans hhi)]
      rfl
    | @right _ _ _ p _ g hlong hstep rest =>
      have hpivot := (Pivoted.of_eq hlo hhi (by omega) hstep).1
      have hle := hpivot.le
      have hlt := hpivot.lt
      rw [introsort_succ_eq hlong hstep]
      by_cases hleft : FallsBack comp lo hi depth first p g
      · rw [ih hleft hlo (hlt.le.trans hhi)]
        rfl
      · obtain ⟨_, h, hsort, -, hrearr⟩ := introsort_leads hcomp hlo (hlt.le.trans hhi) hleft
        have hagree : Agree (p + 1) last g h := fun i hi1 _ => (hrearr.eq_of_notMem (by simp; omega)).symm
        rw [hsort]
        exact ih (rest.congr (by omega) hhi hagree) (by omega) hhi

/-- The sort ends without an access outside the range, and leaves a permutation of its elements in order. -/
structure Sorts (comp : α → α → Bool) (first last : Nat) (f g : Nat → α) : Prop where
  returns : sort comp first last f = some ((), g)
  outside : ∀ i, ¬ (first ≤ i ∧ i < last) → g i = f i
  perm : ((List.range' first (last - first)).map g).Perm ((List.range' first (last - first)).map f)
  sorted : NonDecreasing comp first last g

/-- The sort does its work exactly if its quicksort does not fall back. -/
theorem sort_sorts_iff (hcomp : StrictWeak comp) (first last : Nat) (f : Nat → α) :
    (∃ g, Sorts comp first last f g) ↔
      ¬ FallsBack comp first last (2 * bitWidth (last - first)) first last f := by
  constructor
  · rintro ⟨g, hsorts⟩ hfall
    have hnone := hfall.fails hcomp (Nat.le_refl first) (Nat.le_refl last)
    cases hsorts.returns.symm.trans hnone
  · intro hfall
    obtain ⟨⟨⟩, g, hreturns, hsorted, hrearr⟩ := introsort_leads hcomp (Nat.le_refl first) (Nat.le_refl last) hfall
    refine ⟨g, hreturns, fun i hi => hrearr.eq_of_notMem hi, ?_, hsorted⟩
    apply hrearr.perm_map (List.nodup_range' ..)
    intro i
    rw [List.mem_range'_1, Set.mem_Ico]
    omega

def lessNat (a b : Nat) : Bool := decide (a < b)

theorem strictWeak_lessNat : StrictWeak lessNat where
  irrefl a := by simp [lessNat]
  trans a b c hab hbc := by
    simp only [lessNat, decide_eq_true_eq] at *
    exact hab.trans hbc
  incomp_trans a b c hab hbc := by
    simp only [lessNat, decide_eq_true_eq] at *
    omega

theorem sorts_descending : ∃ g, Sorts lessNat 0 8 (fun i => 8 - i) g :=
  (sort_sorts_iff strictWeak_lessNat 0 8 fun i => 8 - i).mpr fun h => absurd h.long (by decide)

/-- The median is a zero in each step, so that one element is split off at a time. -/
def oneAmongZeros (i : Nat) : Nat := if i = 26 then 1 else 0

theorem sort_oneAmongZeros : (sort lessNat 0 27 oneAmongZeros).isNone = true := by
  decide +kernel

theorem oneAmongZeros_unsorted : ¬ ∃ g, Sorts lessNat 0 27 oneAmongZeros g := by
  rintro ⟨g, hsorts⟩
  have hnone := sort_oneAmongZeros
  rw [hsorts.returns] at hnone
  cases hnone

end XviOs.Algorithm
