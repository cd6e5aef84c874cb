import XviOs.Algorithm.Introsort

namespace XviOs.Algorithm

open Library.StateProgram Library.Rearrange

section Model

variable {α : Type} (comp less : α → α → Bool) (lo hi : Nat)

/-- The pops compare with the default order, not with the one that is given. A pop of an empty range goes to the place
before it. -/
def heapSelect (first last k : Nat) : Sorter α Nat := do
  makeHeap comp lo hi first last
  repeatFrom (fun i => if i < last then popHeap less lo hi first (last - i) else fun _ => none) 0 k
  reverse lo hi first last
  return first + k

def partialIntrosort : Nat → Nat → Nat → Nat → Sorter α Unit
  | depth, first, last, k =>
    if last - first ≤ 1 then pure ()
    else if last - first ≤ insertionSortThreshold then insertionSort comp lo hi first last
    else
      match depth with
      | 0 => do
        let _ ← heapSelect comp less lo hi first last k
      | depth + 1 => do
        let pivot ← quickStep comp lo hi first last
        partialIntrosort depth first pivot k
        if pivot - first < k then partialIntrosort depth (pivot + 1) last (k - (pivot - first)) else pure ()

/-- The place it gives is not used by the callers. -/
def introselect : Nat → Nat → Nat → Nat → Sorter α Nat
  | depth, first, last, k =>
    if last - first ≤ 1 then pure first
    else if last - first ≤ insertionSortThreshold then do
      insertionSort comp lo hi first last
      return first + k
    else
      match depth with
      | 0 => heapSelect comp less lo hi first last k
      | depth + 1 => do
        let pivot ← quickStep comp lo hi first last
        if k < pivot - first then introselect depth first pivot k
        else if pivot - first < k then introselect depth (pivot + 1) last (k - (pivot - first))
        else return pivot

end Model

section Entry

variable {α : Type} (comp less : α → α → Bool)

def nthElement (first nth last : Nat) : Sorter α Unit := do
  let _ ← introselect comp less first last (2 * bitWidth (last - first)) first last (nth - first)

def partialSort (first middle last : Nat) : Sorter α Unit :=
  partialIntrosort comp less first last (2 * bitWidth (last - first)) first last (middle - first)

end Entry

variable {α : Type} {comp less : α → α → Bool} {lo hi first last : Nat} {f g h : Nat → α}

/-- Nothing before the place is greater than its element, and nothing behind it is less. -/
structure Right (comp : α → α → Bool) (first last t : Nat) (g : Nat → α) : Prop where
  before : ∀ i, first ≤ i → i < t → comp (g t) (g i) = false
  behind : ∀ i, t < i → i < last → comp (g i) (g t) = false

/-- The first `k` elements are in order, and no other one is less than one of them. -/
def FirstSorted (comp : α → α → Bool) (first last k : Nat) (g : Nat → α) : Prop :=
  ∀ i j, first ≤ i → i < j → j < last → i < first + k → comp (g j) (g i) = false

theorem NonDecreasing.right (h : NonDecreasing comp first last g) {t : Nat} (ht : first ≤ t) (htl : t < last) :
    Right comp first last t g :=
  ⟨fun i hi1 hi2 => h i t hi1 hi2 htl, fun i hi1 hi2 => h t i ht hi1 hi2⟩

theorem NonDecreasing.firstSorted (h : NonDecreasing comp first last g) (k : Nat) : FirstSorted comp first last k g :=
  fun i j hi1 hij hj _ => h i j hi1 hij hj

theorem Right.congr {t : Nat} (h : Right comp first last t f) (hfg : Agree first last f g) (ht : first ≤ t)
    (htl : t < last) : Right comp first last t g := by
  constructor
  · intro i hi1 hi2
    rw [← hfg t ht htl, ← hfg i hi1 (hi2.trans htl)]
    exact h.before i hi1 hi2
  · intro i hi1 hi2
    rw [← hfg t ht htl, ← hfg i (by omega) hi2]
    exact h.behind i hi1 hi2

namespace Pivoted

variable {p t : Nat} (hpivot : Pivoted comp first last p g) (hcomp : StrictWeak comp)

include hpivot hcomp

theorem not_less {i j : Nat} (hi : first ≤ i) (hip : i ≤ p) (hpj : p ≤ j) (hj : j < last) (hne : i ≠ j) :
    comp (g j) (g i) = false := by
  have hjp : comp (g j) (g p) = false := by
    obtain rfl | hlt := hpj.eq_or_lt
    · exact hcomp.irrefl _
    · exact hpivot.behind j hlt hj
  obtain rfl | hlt := hip.eq_or_lt
  · exact hjp
  · exact hcomp.not_less_trans (hcomp.asymm (hpivot.before i hi hlt)) hjp

theorem right_pivot : Right comp first last p g :=
  ⟨fun _ hi1 hip => hpivot.not_less hcomp hi1 hip.le (Nat.le_refl p) hpivot.lt hip.ne,
    fun _ hpi hil => hpivot.not_less hcomp hpivot.le (Nat.le_refl p) hpi.le hil hpi.ne⟩

theorem right_iff_left (ht : first ≤ t) (htp : t < p) : Right comp first last t g ↔ Right comp first p t g := by
  constructor
  · intro h
    exact ⟨h.before, fun i hi1 hi2 => h.behind i hi1 (hi2.trans hpivot.lt)⟩
  · intro h
    refine ⟨h.before, fun i hi1 hi2 => ?_⟩
    obtain hip | hpi := Nat.lt_or_ge i p
    · exact h.behind i hi1 hip
    · exact hpivot.not_less hcomp ht htp.le hpi hi2 hi1.ne

theorem right_iff_right (hpt : p < t) (ht : t < last) : Right comp first last t g ↔ Right comp (p + 1) last t g := by
  have hle := hpivot.le
  constructor
  · intro h
    exact ⟨fun i hi1 hi2 => h.before i (by omega) hi2, h.behind⟩
  · intro h
    refine ⟨fun i hi1 hi2 => ?_, h.behind⟩
    obtain hip | hpi := Nat.lt_or_ge p i
    · exact h.before i hip hi2
    · exact hpivot.not_less hcomp hi1 hpi hpt.le ht hi2.ne

theorem firstSorted {k : Nat} (hleft : FirstSorted comp first p k g)
    (hright : p - first < k → FirstSorted comp (p + 1) last (k - (p - first)) g) :
    FirstSorted comp first last k g := by
  intro i j hi1 hij hj hik
  have hle := hpivot.le
  obtain hip | hpi := Nat.lt_or_ge p i
  · exact hright (by omega) i j hip hij hj (by omega)
  · obtain hjp | hpj := Nat.lt_or_ge j p
    · exact hleft i j hi1 hij hjp hik
    · exact hpivot.not_less hcomp hi1 hpi hpj hj hij.ne

end Pivoted

/-- The element is equivalent to the one that a sort of the range puts at the place. -/
theorem Right.eq_sorted (hcomp : StrictWeak comp) {t : Nat} (h : Right comp first last t f) (ht : first ≤ t)
    (htl : t < last) (hsorted : NonDecreasing comp first last g) (hrearr : Rearranges (Set.Ico first last) f g) :
    comp (g t) (f t) = false ∧ comp (f t) (g t) = false := by
  obtain ⟨σ, hσ, rfl⟩ := hrearr
  have hmaps : ∀ i, first ≤ i → i < last → first ≤ σ i ∧ σ i < last :=
    fun i hi1 hi2 => Rearranges.mem_of_fixes hσ (Set.mem_Ico.mpr ⟨hi1, hi2⟩)
  constructor
  · -- otherwise the places up to `t` hold what stood before it
    by_contra hless
    rw [Bool.not_eq_false] at hless
    have hinto : Set.MapsTo σ (Finset.Icc first t : Finset Nat) (Finset.Ico first t : Finset Nat) := by
      intro i hi1
      rw [Finset.coe_Icc, Set.mem_Icc] at hi1
      obtain ⟨hlo, hhi⟩ := hmaps i hi1.1 (by omega)
      have hlt : comp (f (σ i)) (f t) = true := by
        by_contra hnot
        have hle : comp (f (σ t)) (f (σ i)) = false := by
          obtain rfl | hit := hi1.2.eq_or_lt
          · exact hcomp.irrefl _
          · exact hsorted i t hi1.1 hit htl
        rw [Function.comp_apply, hcomp.not_less_trans (Bool.not_eq_true _ ▸ hnot) hle] at hless
        cases hless
      rw [Finset.coe_Ico]
      refine ⟨hlo, ?_⟩
      by_contra hge
      obtain heq | hgt := (Nat.le_of_not_lt hge).eq_or_lt
      · rw [← heq, hcomp.irrefl] at hlt
        cases hlt
      · rw [h.behind (σ i) hgt hhi] at hlt
        cases hlt
    have hcard := Finset.card_le_card_of_injOn σ hinto σ.injective.injOn
    rw [Nat.card_Icc, Nat.card_Ico] at hcard
    omega
  · by_contra hless
    rw [Bool.not_eq_false] at hless
    have hinto : Set.MapsTo σ (Finset.Ico t last : Finset Nat) (Finset.Ioo t last : Finset Nat) := by
      intro i hi1
      rw [Finset.coe_Ico, Set.mem_Ico] at hi1
      obtain ⟨hlo, hhi⟩ := hmaps i (ht.trans hi1.1) hi1.2
      have hlt : comp (f t) (f (σ i)) = true := by
        by_contra hnot
        have hle : comp (f (σ i)) (f (σ t)) = false := by
          obtain rfl | hit := hi1.1.eq_or_lt
          · exact hcomp.irrefl _
          · exact hsorted t i ht hit hi1.2
        rw [Function.comp_apply, hcomp.not_less_trans hle (Bool.not_eq_true _ ▸ hnot)] at hless
        cases hless
      rw [Finset.coe_Ioo]
      refine ⟨?_, hhi⟩
      by_contra hge
      obtain heq | hgt := (Nat.le_of_not_lt hge).eq_or_lt
      · rw [heq, hcomp.irrefl] at hlt
        cases hlt
      · rw [h.before (σ i) hlo hgt] at hlt
        cases hlt
    have hcard := Finset.card_le_card_of_injOn σ hinto σ.injective.injOn
    rw [Nat.card_Ico, Nat.card_Ioo] at hcard
    omega

/-- The partial sort reaches its depth limit at a part that is too long for the insertion sort, with elements to put
in order. -/
inductive PartialFallsBack (comp : α → α → Bool) (lo hi : Nat) : Nat → Nat → Nat → Nat → (Nat → α) → Prop
  | here {first last k : Nat} {f : Nat → α} (hlong : insertionSortThreshold < last - first) (hk : 0 < k) :
      PartialFallsBack comp lo hi 0 first last k f
  | left {depth first last k pivot : Nat} {f g : Nat → α} (hlong : insertionSortThreshold < last - first)
      (hstep : quickStep comp lo hi first last f = some (pivot, g))
      (rest : PartialFallsBack comp lo hi depth first pivot k g) :
      PartialFallsBack comp lo hi (depth + 1) first last k f
  | right {depth first last k pivot : Nat} {f g : Nat → α} (hlong : insertionSortThreshold < last - first)
      (hstep : quickStep comp lo hi first last f = some (pivot, g)) (hpivot : pivot - first < k)
      (rest : PartialFallsBack comp lo hi depth (pivot + 1) last (k - (pivot - first)) g) :
      PartialFallsBack comp lo hi (depth + 1) first last k f

theorem PartialFallsBack.long {depth k : Nat} (h : PartialFallsBack comp lo hi depth first last k f) :
    insertionSortThreshold < last - first := by
  cases h <;> assumption

theorem PartialFallsBack.congr {depth k : Nat} (h : PartialFallsBack comp lo hi depth first last k f) (hlo : lo ≤ first)
    (hhi : last ≤ hi) (hfg : Agree first last f g) : PartialFallsBack comp lo hi depth first last k g := by
  induction h generalizing g with
  | here hlong hk => exact .here hlong hk
  | left hlong hstep rest ih =>
    have hpivot := (Pivoted.of_eq hlo hhi (by omega) hstep).1
    obtain ⟨g', hstep', hagree⟩ := quickStep_congr hlo hhi (by omega) hfg hstep
    exact .left hlong hstep' (ih hlo (hpivot.lt.le.trans hhi) fun i h1 h2 => hagree i h1 (h2.trans hpivot.lt))
  | right hlong hstep hk rest ih =>
    have hpivot := (Pivoted.of_eq hlo hhi (by omega) hstep).1
    have hle := hpivot.le
    obtain ⟨g', hstep', hagree⟩ := quickStep_congr hlo hhi (by omega) hfg hstep
    exact .right hlong hstep' hk (ih (by omega) hhi fun i h1 h2 => hagree i (by omega) h2)

/-- Without a pop, the fallback of the partial sort only moves the elements. -/
theorem heapSelect_zero_leads (hcomp : StrictWeak comp) (hlo : lo ≤ first) (hhi : last ≤ hi) (hlt : first < last) :
    Leads (heapSelect comp less lo hi first last 0) f fun _ g => Rearranges (Set.Ico first last) f g := by
  apply (makeHeap_leads hcomp hlo hhi hlt.le).bind
  rintro _ f1 ⟨-, h1⟩
  apply Leads.bind_eq (t := f1) rfl
  apply (reverse_leads hlo hhi hlt).bind
  rintro _ g rfl
  exact Leads.pure (h1.trans (rearranges_mirror hlt f1))

variable (less) in
theorem partialIntrosort_leads (hcomp : StrictWeak comp) (hlo : lo ≤ first) (hhi : last ≤ hi) {depth k : Nat}
    (hfall : ¬ PartialFallsBack comp lo hi depth first last k f) :
    Leads (partialIntrosort comp less lo hi depth first last k) f fun _ g =>
      FirstSorted comp first last k g ∧ Rearranges (Set.Ico first last) f g := by
  induction depth generalizing first last k f with
  | zero =>
    rw [partialIntrosort]
    split_ifs with hone hshort
    · exact Leads.pure ⟨(nonDecreasing_of_le_one hone).firstSorted k, Rearranges.refl _ _⟩
    · apply (insertionSort_leads hcomp hlo hhi).mono
      rintro _ g ⟨hsorted, hrearr⟩
      exact ⟨hsorted.firstSorted k, hrearr⟩
    · have hk : k = 0 := by
        by_contra hk
        exact hfall (.here (Nat.lt_of_not_le hshort) (Nat.pos_of_ne_zero hk))
      subst hk
      apply (heapSelect_zero_leads hcomp hlo hhi (by omega)).bind
      intro _ g hrearr
      exact Leads.pure ⟨fun i j hi1 _ _ hi2 => absurd hi1 (Nat.not_le.mpr hi2), hrearr⟩
  | succ depth ih =>
    rw [partialIntrosort]
    split_ifs with hone hshort
    · exact Leads.pure ⟨(nonDecreasing_of_le_one hone).firstSorted k, Rearranges.refl _ _⟩
    · apply (insertionSort_leads hcomp hlo hhi).mono
      rintro _ g ⟨hsorted, hrearr⟩
      exact ⟨hsorted.firstSorted k, hrearr⟩
    · have hlong : insertionSortThreshold < last - first := Nat.lt_of_not_le hshort
      obtain ⟨p, g, hstep, hpivot, hstepped⟩ := quickStep_leads comp (f := f) hlo hhi (by omega)
      have hle := hpivot.le
      have hlt := hpivot.lt
      apply Leads.bind_eq hstep
      apply (ih hlo (hlt.le.trans hhi) fun h => hfall (.left hlong hstep h)).bind
      rintro _ h ⟨hleft, hrearr⟩
      have hfirst := hstepped.trans (hrearr.mono (Set.Ico_subset_Ico_right hlt.le))
      split_ifs with hpk
      · have hagree : Agree (p + 1) last h g := fun i hi1 _ => hrearr.eq_of_notMem (by simp; omega)
        refine (ih (by omega) hhi fun hf => hfall (.right hlong hstep hpk (hf.congr (by omega) hhi hagree))).mono ?_
        rintro _ k' ⟨hright, hrearr'⟩
        refine ⟨(hpivot.rearrange hrearr hrearr').firstSorted hcomp ?_ fun _ => hright,
          hfirst.trans (hrearr'.mono (Set.Ico_subset_Ico_left (by omega)))⟩
        have hsame : ∀ i, i < p → k' i = h i := fun i hi => hrearr'.eq_of_notMem (by simp; omega)
        intro i j hi1 hij hj hik
        rw [hsame i (hij.trans hj), hsame j hj]
        exact hleft i j hi1 hij hj hik
      · refine Leads.pure ⟨(hpivot.rearrange hrearr (Rearranges.refl _ h)).firstSorted hcomp hleft fun hpk' => ?_, hfirst⟩
        exact absurd hpk' hpk

/-- The selection reaches its depth limit at a part that is too long for the insertion sort. -/
inductive SelectFallsBack (comp : α → α → Bool) (lo hi : Nat) : Nat → Nat → Nat → Nat → (Nat → α) → Prop
  | here {first last k : Nat} {f : Nat → α} (hlong : insertionSortThreshold < last - first) :
      SelectFallsBack comp lo hi 0 first last k f
  | left {depth first last k pivot : Nat} {f g : Nat → α} (hlong : insertionSortThreshold < last - first)
      (hstep : quickStep comp lo hi first last f = some (pivot, g)) (hk : k < pivot - first)
      (rest : SelectFallsBack comp lo hi depth first pivot k g) :
      SelectFallsBack comp lo hi (depth + 1) first last k f
  | right {depth first last k pivot : Nat} {f g : Nat → α} (hlong : insertionSortThreshold < last - first)
      (hstep : quickStep comp lo hi first last f = some (pivot, g)) (hk : pivot - first < k)
      (rest : SelectFallsBack comp lo hi depth (pivot + 1) last (k - (pivot - first)) g) :
      SelectFallsBack comp lo hi (depth + 1) first last k f

theorem SelectFallsBack.long {depth k : Nat} (h : SelectFallsBack comp lo hi depth first last k f) :
    insertionSortThreshold < last - first := by
  cases h <;> assumption

/-- The selection leaves the part with the place `t` behind as it is, though its element does not belong there. Each
step to the right has moved the place that is looked for one further. -/
inductive OffTarget (comp : α → α → Bool) (lo hi : Nat) : Nat → Nat → Nat → Nat → Nat → (Nat → α) → Prop
  | abandoned {depth first last k t pivot : Nat} {f g : Nat → α} (hlong : insertionSortThreshold < last - first)
      (hstep : quickStep comp lo hi first last f = some (pivot, g)) (hk : pivot - first ≤ k) (ht : t < pivot)
      (hwrong : ¬ Right comp first pivot t g) : OffTarget comp lo hi (depth + 1) first last k t f
  | left {depth first last k t pivot : Nat} {f g : Nat → α} (hlong : insertionSortThreshold < last - first)
      (hstep : quickStep comp lo hi first last f = some (pivot, g)) (hk : k < pivot - first)
      (rest : OffTarget comp lo hi depth first pivot k t g) : OffTarget comp lo hi (depth + 1) first last k t f
  | right {depth first last k t pivot : Nat} {f g : Nat → α} (hlong : insertionSortThreshold < last - first)
      (hstep : quickStep comp lo hi first last f = some (pivot, g)) (hk : pivot - first < k) (ht : pivot < t)
      (rest : OffTarget comp lo hi depth (pivot + 1) last (k - (pivot - first)) t g) :
      OffTarget comp lo hi (depth + 1) first last k t f

theorem OffTarget.long {depth k t : Nat} (h : OffTarget comp lo hi depth first last k t f) :
    insertionSortThreshold < last - first := by
  cases h <;> assumption

/-- What a step of the selection leaves to look for on the side it goes to. -/
theorem offTarget_succ_iff {depth k t p : Nat} (hlong : insertionSortThreshold < last - first)
    (hstep : quickStep comp lo hi first last f = some (p, g)) :
    OffTarget comp lo hi (depth + 1) first last k t f ↔
      (p - first ≤ k ∧ t < p ∧ ¬ Right comp first p t g) ∨
        (k < p - first ∧ OffTarget comp lo hi depth first p k t g) ∨
          (p - first < k ∧ p < t ∧ OffTarget comp lo hi depth (p + 1) last (k - (p - first)) t g) := by
  constructor
  · intro h
    cases h with
    | abandoned _ hstep' hk ht hwrong =>
      cases hstep.symm.trans hstep'
      exact .inl ⟨hk, ht, hwrong⟩
    | left _ hstep' hk rest =>
      cases hstep.symm.trans hstep'
      exact .inr (.inl ⟨hk, rest⟩)
    | right _ hstep' hk ht rest =>
      cases hstep.symm.trans hstep'
      exact .inr (.inr ⟨hk, ht, rest⟩)
  · rintro (⟨hk, ht, hwrong⟩ | ⟨hk, rest⟩ | ⟨hk, ht, rest⟩)
    · exact .abandoned hlong hstep hk ht hwrong
    · exact .left hlong hstep hk rest
    · exact .right hlong hstep hk ht rest

/-- What the selection does for a place that is not behind the one it looks for. -/
def Selects (comp : α → α → Bool) (lo hi depth first last k : Nat) (f g : Nat → α) : Prop :=
  ∀ t, first ≤ t → t < last → t ≤ first + k →
    (Right comp first last t g ↔ ¬ OffTarget comp lo hi depth first last k t f)

theorem NonDecreasing.selects (h : NonDecreasing comp first last g) (hshort : last - first ≤ insertionSortThreshold)
    (depth k : Nat) : Selects comp lo hi depth first last k f g :=
  fun _ ht htl _ => iff_of_true (h.right ht htl) fun hoff => absurd hoff.long (Nat.not_lt.mpr hshort)

theorem Pivoted.selects_left (hcomp : StrictWeak comp) {p depth k : Nat} (hpivot : Pivoted comp first last p g)
    (hlong : insertionSortThreshold < last - first) (hstep : quickStep comp lo hi first last f = some (p, g))
    (hk : k < p - first) (hrearr : Rearranges (Set.Ico first p) g h)
    (hsel : Selects comp lo hi depth first p k g h) : Selects comp lo hi (depth + 1) first last k f h := by
  intro t ht htl htk
  rw [(hpivot.rearrange hrearr (Rearranges.refl _ h)).right_iff_left hcomp ht (by omega),
    hsel t ht (by omega) htk, offTarget_succ_iff hlong hstep]
  refine not_congr ⟨fun hoff => .inr (.inl ⟨hk, hoff⟩), ?_⟩
  rintro (⟨hk', -⟩ | ⟨-, hoff⟩ | ⟨hk', -⟩)
  · exact absurd hk (Nat.not_lt.mpr hk')
  · exact hoff
  · exact absurd hk (Nat.lt_asymm hk')

theorem Pivoted.selects_right (hcomp : StrictWeak comp) {p depth k : Nat} (hpivot : Pivoted comp first last p g)
    (hlong : insertionSortThreshold < last - first) (hstep : quickStep comp lo hi first last f = some (p, g))
    (hk : p - first ≤ k) (hrearr : Rearranges (Set.Ico (p + 1) last) g h)
    (hsel : p - first < k → Selects comp lo hi depth (p + 1) last (k - (p - first)) g h) :
    Selects comp lo hi (depth + 1) first last k f h := by
  intro t ht htl htk
  have hle := hpivot.le
  have hpivot' := hpivot.rearrange (Rearranges.refl _ g) hrearr
  rw [offTarget_succ_iff hlong hstep]
  obtain htp | rfl | hpt := lt_trichotomy t p
  · have hagree : Agree first p h g := fun i _ hi => hrearr.eq_of_notMem (by simp; omega)
    rw [hpivot'.right_iff_left hcomp ht htp]
    constructor
    · rintro hright (⟨-, -, hwrong⟩ | ⟨hk', -⟩ | ⟨-, hpt, -⟩)
      · exact hwrong (hright.congr hagree ht htp)
      · exact absurd hk (Nat.not_le.mpr hk')
      · exact absurd htp (Nat.lt_asymm hpt)
    · intro hoff
      by_contra hwrong
      exact hoff (.inl ⟨hk, htp, fun hg => hwrong (hg.congr (fun i h1 h2 => (hagree i h1 h2).symm) ht htp)⟩)
  · refine iff_of_true (hpivot'.right_pivot hcomp) ?_
    rintro (⟨-, htt, -⟩ | ⟨hk', -⟩ | ⟨-, htt, -⟩)
    · exact absurd htt (Nat.lt_irrefl t)
    · exact absurd hk (Nat.not_le.mpr hk')
    · exact absurd htt (Nat.lt_irrefl t)
  · have hlt : p - first < k := by omega
    rw [hpivot'.right_iff_right hcomp hpt htl, hsel hlt t hpt htl (by omega)]
    refine not_congr ⟨fun hoff => .inr (.inr ⟨hlt, hpt, hoff⟩), ?_⟩
    rintro (⟨-, htp, -⟩ | ⟨hk', -⟩ | ⟨-, -, hoff⟩)
    · exact absurd hpt (Nat.lt_asymm htp)
    · exact absurd hk (Nat.not_le.mpr hk')
    · exact hoff

variable (less) in
/-- Without a fallback the selection ends and keeps the elements. -/
theorem introselect_leads (hcomp : StrictWeak comp) (hlo : lo ≤ first) (hhi : last ≤ hi) {depth k : Nat}
    (hfall : ¬ SelectFallsBack comp lo hi depth first last k f) :
    Leads (introselect comp less lo hi depth first last k) f fun _ g =>
      Selects comp lo hi depth first last k f g ∧ Rearranges (Set.Ico first last) f g := by
  induction depth generalizing first last k f with
  | zero =>
    rw [introselect]
    split_ifs with hone hshort
    · exact Leads.pure ⟨(nonDecreasing_of_le_one hone).selects (hone.trans (by decide)) 0 k, Rearranges.refl _ _⟩
    · apply (insertionSort_leads hcomp hlo hhi).bind
      rintro _ g ⟨hsorted, hrearr⟩
      exact Leads.pure ⟨hsorted.selects hshort 0 k, hrearr⟩
    · exact absurd (.here (Nat.lt_of_not_le hshort)) hfall
  | succ depth ih =>
    rw [introselect]
    split_ifs with hone hshort
    · exact Leads.pure ⟨(nonDecreasing_of_le_one hone).selects (hone.trans (by decide)) _ k, Rearranges.refl _ _⟩
    · apply (insertionSort_leads hcomp hlo hhi).bind
      rintro _ g ⟨hsorted, hrearr⟩
      exact Leads.pure ⟨hsorted.selects hshort _ k, hrearr⟩
    · have hlong : insertionSortThreshold < last - first := Nat.lt_of_not_le hshort
      obtain ⟨p, g, hstep, hpivot, hstepped⟩ := quickStep_leads comp (f := f) hlo hhi (by omega)
      have hle := hpivot.le
      have hlt := hpivot.lt
      apply Leads.bind_eq hstep
      split_ifs with hkp hpk
      · apply (ih hlo (hlt.le.trans hhi) fun h => hfall (.left hlong hstep hkp h)).mono
        rintro _ h ⟨hsel, hrearr⟩
        exact ⟨hpivot.selects_left hcomp hlong hstep hkp hrearr hsel,
          hstepped.trans (hrearr.mono (Set.Ico_subset_Ico_right hlt.le))⟩
      · apply (ih (by omega) hhi fun h => hfall (.right hlong hstep hpk h)).mono
        rintro _ h ⟨hsel, hrearr⟩
        exact ⟨hpivot.selects_right hcomp hlong hstep hpk.le hrearr fun _ => hsel,
          hstepped.trans (hrearr.mono (Set.Ico_subset_Ico_left (by omega)))⟩
      · refine Leads.pure ⟨hpivot.selects_right hcomp hlong hstep (Nat.le_of_not_lt hkp) (Rearranges.refl _ g)
          fun hpk' => absurd hpk' hpk, hstepped⟩

/-- The call ends without an access outside the range and leaves its elements in another order. -/
structure Permutes (p : Sorter α Unit) (first last : Nat) (f g : Nat → α) : Prop where
  returns : p f = some ((), g)
  outside : ∀ i, ¬ (first ≤ i ∧ i < last) → g i = f i
  perm : Rearranges (Set.Ico first last) f g

/-- `nth_element` leaves the element of the sorted range at its place. -/
structure NthElement (comp less : α → α → Bool) (first nth last : Nat) (f g : Nat → α) : Prop
    extends Permutes (nthElement comp less first nth last) first last f g where
  before : ∀ i, first ≤ i → i < nth → comp (g nth) (g i) = false
  behind : ∀ i, nth < i → i < last → comp (g i) (g nth) = false
  sorted : ∀ h, NonDecreasing comp first last h → Rearranges (Set.Ico first last) f h →
    comp (h nth) (g nth) = false ∧ comp (g nth) (h nth) = false

/-- `partial_sort` leaves the smallest elements at the front, in order. -/
structure PartialSort (comp less : α → α → Bool) (first middle last : Nat) (f g : Nat → α) : Prop
    extends Permutes (partialSort comp less first middle last) first last f g where
  sorted : NonDecreasing comp first middle g
  smallest : ∀ i j, first ≤ i → i < middle → middle ≤ j → j < last → comp (g j) (g i) = false

/-- The condition for `nth_element` to reach its fallback. -/
def NthFallsBack (comp : α → α → Bool) (first nth last : Nat) (f : Nat → α) : Prop :=
  SelectFallsBack comp first last (2 * bitWidth (last - first)) first last (nth - first) f

def NthOffTarget (comp : α → α → Bool) (first nth last : Nat) (f : Nat → α) : Prop :=
  OffTarget comp first last (2 * bitWidth (last - first)) first last (nth - first) nth f

def PartialSortFallsBack (comp : α → α → Bool) (first middle last : Nat) (f : Nat → α) : Prop :=
  PartialFallsBack comp first last (2 * bitWidth (last - first)) first last (middle - first) f

theorem nthElement_iff (hcomp : StrictWeak comp) {nth : Nat} (hnth : first ≤ nth) (hlast : nth < last)
    (hfall : ¬ NthFallsBack comp first nth last f) :
    (∃ g, NthElement comp less first nth last f g) ↔ ¬ NthOffTarget comp first nth last f := by
  obtain ⟨k, g, hreturns, hsel, hrearr⟩ :=
    introselect_leads less hcomp (Nat.le_refl first) (Nat.le_refl last) hfall
  have hright := hsel nth hnth hlast (by omega)
  have hrun : nthElement comp less first nth last f = some ((), g) := by
    rw [nthElement]
    simp only [bind, StateT.bind, hreturns]
    rfl
  rw [NthOffTarget, ← hright]
  constructor
  · rintro ⟨g', hg'⟩
    cases hg'.returns.symm.trans hrun
    exact ⟨hg'.before, hg'.behind⟩
  · intro hnth'
    refine ⟨g, ⟨hrun, fun i hi => hrearr.eq_of_notMem hi, hrearr⟩, hnth'.before, hnth'.behind, ?_⟩
    intro h hsorted hperm
    exact hnth'.eq_sorted hcomp hnth hlast hsorted (hrearr.symm.trans hperm)

theorem partialSort_sorts (hcomp : StrictWeak comp) {middle : Nat} (hfirst : first ≤ middle) (hlast : middle ≤ last)
    (hfall : ¬ PartialSortFallsBack comp first middle last f) :
    ∃ g, PartialSort comp less first middle last f g := by
  obtain ⟨⟨⟩, g, hreturns, hsorted, hrearr⟩ :=
    partialIntrosort_leads less hcomp (Nat.le_refl first) (Nat.le_refl last) hfall
  refine ⟨g, ⟨hreturns, fun i hi => hrearr.eq_of_notMem hi, hrearr⟩, ?_, ?_⟩
  · intro i j hi1 hij hj
    exact hsorted i j hi1 hij (hj.trans_le hlast) (by omega)
  · intro i j hi1 hi2 hj hjl
    exact hsorted i j hi1 (hi2.trans_le hj) hjl (by omega)

/-- Without a fallback, `nth_element` does its work exactly if it does not lose its place, and `partial_sort` always
does. -/
theorem selection_iff (hcomp : StrictWeak comp) (less : α → α → Bool) (first last : Nat) (f : Nat → α) :
    (∀ nth, first ≤ nth → nth < last → ¬ NthFallsBack comp first nth last f →
      ((∃ g, NthElement comp less first nth last f g) ↔ ¬ NthOffTarget comp first nth last f)) ∧
    ∀ middle, first ≤ middle → middle ≤ last → ¬ PartialSortFallsBack comp first middle last f →
      ∃ g, PartialSort comp less first middle last f g :=
  ⟨fun _ hnth hlast hfall => nthElement_iff hcomp hnth hlast hfall,
    fun _ hfirst hlast hfall => partialSort_sorts hcomp hfirst hlast hfall⟩

theorem selection_descending :
    (∃ g, NthElement lessNat lessNat 0 3 8 (fun i => 8 - i) g) ∧
      ∃ g, PartialSort lessNat lessNat 0 3 8 (fun i => 8 - i) g := by
  obtain ⟨hnth, hsort⟩ := selection_iff strictWeak_lessNat lessNat 0 8 fun i => 8 - i
  constructor
  · apply (hnth 3 (by decide) (by decide) fun h => absurd h.long (by decide)).mpr
    exact fun h => absurd h.long (by decide)
  · exact hsort 3 (by decide) (by decide) fun h => absurd h.long (by decide)

/-- The even numbers below 34, twice. -/
def evensTwice (i : Nat) : Nat := 2 * i % 34

theorem nthElement_evensTwice :
    (nthElement lessNat lessNat 0 12 34 evensTwice).map (fun r => (r.2 10, r.2 12)) = some (14, 10) := by
  decide +kernel

theorem evensTwice_lost : ¬ ∃ g, NthElement lessNat lessNat 0 12 34 evensTwice g := by
  rintro ⟨g, hnth⟩
  have hvalues := nthElement_evensTwice
  rw [hnth.returns, Option.map_some, Option.some.injEq, Prod.mk.injEq] at hvalues
  obtain ⟨h10, h12⟩ : g 10 = 14 ∧ g 12 = 10 := hvalues
  have hbefore := hnth.before 10 (by decide) (by decide)
  rw [h10, h12] at hbefore
  cases hbefore

end XviOs.Algorithm
