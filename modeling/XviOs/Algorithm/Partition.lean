import XviOs.Algorithm.Sort
import XviOs.Library.Rearrange

namespace XviOs.Algorithm

open Library.StateProgram Library.Rearrange

variable {α : Type} {comp : α → α → Bool} {lo hi first last : Nat} {f g h : Nat → α}

/-- A strict weak ordering as a comparison computes it. -/
def StrictWeak (comp : α → α → Bool) : Prop := IsStrictWeakOrder α fun a b => comp a b = true

namespace StrictWeak

variable (hcomp : StrictWeak comp) {a b c : α}

include hcomp

theorem irrefl (a : α) : comp a a = false := by
  have h := hcomp.toIrrefl.irrefl a
  simpa using h

theorem asymm (h : comp a b = true) : comp b a = false := by
  by_contra hba
  have hloop := hcomp.toIsTrans.trans a b a h (by simpa using hba)
  rw [hcomp.irrefl] at hloop
  cases hloop

/-- What is not less is an order that is transitive. -/
theorem not_less_trans (hba : comp b a = false) (hcb : comp c b = false) : comp c a = false := by
  by_contra hca
  have hca : comp c a = true := by simpa using hca
  have hbc : comp b c = false := by
    by_contra hbc
    have hle := hcomp.toIsTrans.trans b c a (by simpa using hbc) hca
    rw [hba] at hle
    cases hle
  have hab : comp a b = false := by
    by_contra hab
    have hle := hcomp.toIsTrans.trans c a b hca (by simpa using hab)
    rw [hcb] at hle
    cases hle
  have hequiv := hcomp.incomp_trans a b c (by simp [hab, hba]) (by simp [hbc, hcb])
  exact hequiv.2 hca

end StrictWeak

/-- No element of the range is less than one before it. -/
def NonDecreasing (comp : α → α → Bool) (first last : Nat) (f : Nat → α) : Prop :=
  ∀ i j, first ≤ i → i < j → j < last → comp (f j) (f i) = false

theorem nonDecreasing_of_le_one (hn : last - first ≤ 1) : NonDecreasing comp first last f := by
  intro i j hi hij hj
  omega

theorem read_eq {i : Nat} (hlo : lo ≤ i) (hhi : i < hi) : read lo hi i f = some (f i, f) := if_pos ⟨hlo, hhi⟩

theorem write_eq {i : Nat} {x : α} (hlo : lo ≤ i) (hhi : i < hi) :
    write lo hi i x f = some ((), Function.update f i x) := if_pos ⟨hlo, hhi⟩

theorem update_update_eq_swap (i j : Nat) :
    Function.update (Function.update f i (f j)) j (f i) = f ∘ Equiv.swap i j := by
  funext k
  rw [Function.comp_apply, Equiv.swap_apply_def, Function.update_apply, Function.update_apply]
  split_ifs <;> simp_all

theorem iterSwap_eq {i j : Nat} (hi1 : lo ≤ i) (hi2 : i < hi) (hj1 : lo ≤ j) (hj2 : j < hi) :
    iterSwap lo hi i j f = some ((), f ∘ Equiv.swap i j) := by
  rw [← update_update_eq_swap]
  simp [iterSwap, bind, StateT.bind, read_eq hi1 hi2, read_eq hj1 hj2, write_eq hi1 hi2, write_eq hj1 hj2]

/-- A place in the first `i + 1` elements is free for the new element: those before and behind it are in order, and
those behind it are not less than the new one. -/
structure Gap (comp : α → α → Bool) (first i j : Nat) (tmp : α) (f : Nat → α) : Prop where
  others : ∀ a b, a < b → b ≤ i → a ≠ j → b ≠ j → comp (f (first + b)) (f (first + a)) = false
  above : ∀ b, j < b → b ≤ i → comp (f (first + b)) tmp = false

theorem Gap.shift (hcomp : StrictWeak comp) {i j : Nat} {tmp : α} (hgap : Gap comp first i (j + 1) tmp f)
    (hj : j + 1 ≤ i) (hless : comp tmp (f (first + j)) = true) :
    Gap comp first i j tmp (Function.update f (first + (j + 1)) (f (first + j))) := by
  have hother : ∀ b, b ≠ j + 1 →
      Function.update f (first + (j + 1)) (f (first + j)) (first + b) = f (first + b) := by
    intro b hb
    exact Function.update_of_ne (by omega) _ _
  constructor
  · intro a b hab hb haj hbj
    by_cases ha1 : a = j + 1
    · subst ha1
      rw [Function.update_self, hother b (by omega)]
      exact hgap.others j b (by omega) hb (by omega) (by omega)
    · rw [hother a ha1]
      by_cases hb1 : b = j + 1
      · subst hb1
        rw [Function.update_self]
        exact hgap.others a j (by omega) (by omega) ha1 (by omega)
      · rw [hother b hb1]
        exact hgap.others a b hab hb ha1 hb1
  · intro b hjb hb
    by_cases hb1 : b = j + 1
    · subst hb1
      rw [Function.update_self]
      exact hcomp.asymm hless
    · rw [hother b hb1]
      exact hgap.above b (by omega) hb

theorem Gap.close (hcomp : StrictWeak comp) {i j : Nat} {tmp : α} (hgap : Gap comp first i j tmp f)
    (hstop : ∀ a, a + 1 = j → comp tmp (f (first + a)) = false) (hj : j ≤ i) :
    NonDecreasing comp first (first + (i + 1)) (Function.update f (first + j) tmp) := by
  have hbelow : ∀ a, a < j → comp tmp (f (first + a)) = false := by
    intro a ha
    have hlast := hstop (j - 1) (by omega)
    by_cases heq : a = j - 1
    · rwa [heq]
    · exact hcomp.not_less_trans (hgap.others a (j - 1) (by omega) (by omega) (by omega) (by omega)) hlast
  intro a b ha hab hb
  obtain ⟨a, rfl⟩ := Nat.exists_eq_add_of_le ha
  obtain ⟨b, rfl⟩ := Nat.exists_eq_add_of_le (ha.trans hab.le)
  have hother : ∀ b, b ≠ j → Function.update f (first + j) tmp (first + b) = f (first + b) := by
    intro b hb
    exact Function.update_of_ne (by omega) _ _
  by_cases haj : a = j
  · subst haj
    rw [Function.update_self, hother b (by omega)]
    exact hgap.above b (by omega) (by omega)
  · rw [hother a haj]
    by_cases hbj : b = j
    · subst hbj
      rw [Function.update_self]
      exact hbelow a (by omega)
    · rw [hother b hbj]
      exact hgap.others a b (by omega) (by omega) haj hbj

theorem update_shift (i : Nat) (tmp : α) :
    Function.update (Function.update f (i + 1) (f i)) i tmp =
      Function.update f (i + 1) tmp ∘ Equiv.swap i (i + 1) := by
  rw [← update_update_eq_swap, Function.update_self, Function.update_of_ne (Nat.ne_of_lt (Nat.lt_succ_self i)),
    Function.update_comm (Nat.ne_of_lt (Nat.lt_succ_self i)), Function.update_idem,
    Function.update_comm (Nat.ne_of_gt (Nat.lt_succ_self i))]

theorem insertionShift_leads (hcomp : StrictWeak comp) {i : Nat} {tmp : α} (hlo : lo ≤ first) (hhi : first + i < hi)
    {j : Nat} (hj : j ≤ i) (hgap : Gap comp first i j tmp f) :
    Leads (insertionShift comp lo hi first tmp j) f fun k g =>
      k ≤ i ∧ NonDecreasing comp first (first + (i + 1)) (Function.update g (first + k) tmp) ∧
        Rearranges (Set.Ico first (first + (i + 1))) (Function.update f (first + j) tmp)
          (Function.update g (first + k) tmp) := by
  induction j generalizing f with
  | zero => exact Leads.pure ⟨hj, hgap.close hcomp (by simp) hj, Rearranges.refl _ _⟩
  | succ j ih =>
    rw [insertionShift]
    apply Leads.bind_eq (read_eq (by omega) (by omega))
    by_cases hless : comp tmp (f (first + j)) = true
    · rw [if_pos hless]
      apply Leads.bind_eq (write_eq (by omega) (by omega))
      apply (ih (by omega) (hgap.shift hcomp hj hless)).mono
      rintro k g ⟨hk, hsorted, hrearr⟩
      refine ⟨hk, hsorted, Rearranges.trans ?_ hrearr⟩
      rw [← Nat.add_assoc first j 1, update_shift]
      apply Rearranges.swap <;> rw [Set.mem_Ico] <;> omega
    · rw [if_neg hless]
      refine Leads.pure ⟨hj, hgap.close hcomp ?_ hj, Rearranges.refl _ _⟩
      intro a ha
      rw [Nat.succ.inj ha]
      simpa using hless

/-- One round of the insertion sort. -/
theorem insertionStep_leads (hcomp : StrictWeak comp) {i : Nat} (hlo : lo ≤ first) (hhi : first + i < hi)
    (hi1 : first + i < last) (hsorted : NonDecreasing comp first (first + i) g)
    (hrearr : Rearranges (Set.Ico first last) f g) :
    Leads (do
      let tmp ← read lo hi (first + i)
      let j ← insertionShift comp lo hi first tmp i
      write lo hi (first + j) tmp) g fun _ h =>
        NonDecreasing comp first (first + (i + 1)) h ∧ Rearranges (Set.Ico first last) f h := by
  have hgap : Gap comp first i i (g (first + i)) g := by
    constructor
    · intro a b hab hb _ hbi
      exact hsorted _ _ (by omega) (by omega) (by omega)
    · intro b hib hb
      omega
  apply Leads.bind_eq (read_eq (by omega) hhi)
  apply (insertionShift_leads hcomp hlo hhi (Nat.le_refl i) hgap).bind
  rintro k h ⟨hk, hsorted', hrearr'⟩
  rw [Function.update_eq_self] at hrearr'
  apply Leads.of_eq (write_eq (by omega) (by omega))
  refine ⟨hsorted', hrearr.trans (hrearr'.mono ?_)⟩
  exact Set.Ico_subset_Ico_right (by omega)

/-- The insertion sort sorts. -/
theorem insertionSort_leads (hcomp : StrictWeak comp) (hlo : lo ≤ first) (hhi : last ≤ hi) :
    Leads (insertionSort comp lo hi first last) f fun _ g =>
      NonDecreasing comp first last g ∧ Rearranges (Set.Ico first last) f g := by
  rw [insertionSort]
  split
  · exact Leads.pure ⟨nonDecreasing_of_le_one (by omega), Rearranges.refl _ _⟩
  rename_i hn
  have hrange : first + (1 + (last - first - 1)) = last := by omega
  have hinit : NonDecreasing comp first (first + 1) f := nonDecreasing_of_le_one (by omega)
  refine (Leads.repeatFrom
    (fun i g => NonDecreasing comp first (first + i) g ∧ Rearranges (Set.Ico first last) f g)
    ⟨hinit, Rearranges.refl _ f⟩ ?_).mono ?_
  · intro i g hi1 hin hinv
    exact insertionStep_leads hcomp hlo (by omega) (by omega) hinv.1 hinv.2
  · intro _ g hinv
    rwa [hrange] at hinv

end XviOs.Algorithm

namespace XviOs.Algorithm

open Library.StateProgram Library.Rearrange

variable {α : Type} {comp : α → α → Bool} {lo hi first last : Nat} {f g h : Nat → α}

theorem iterSwap_leads (first last : Nat) {i j : Nat} (hfirst : lo ≤ first) (hlast : last ≤ hi)
    (hi1 : first ≤ i) (hi2 : i < last)
    (hj1 : first ≤ j) (hj2 : j < last) :
    Leads (iterSwap lo hi i j) f fun _ g => g = f ∘ Equiv.swap i j ∧ Rearranges (Set.Ico first last) f g :=
  Leads.of_eq (iterSwap_eq (hfirst.trans hi1) (hi2.trans_le hlast) (hfirst.trans hj1) (hj2.trans_le hlast))
    ⟨rfl, Rearranges.swap (Set.mem_Ico.mpr ⟨hi1, hi2⟩) (Set.mem_Ico.mpr ⟨hj1, hj2⟩) f⟩

section Predicate

variable {pred : α → Sorter α Bool} {P : α → Bool}

theorem scanUp_leads (hpred : ∀ x, pred x f = some (P x, f)) (hlo : lo ≤ first) (hhi : last ≤ hi)
    (hle : first ≤ last) {n : Nat} (hn : last - first < n) :
    Leads (scanUp lo hi pred n first last) f fun k g => g = f ∧ first ≤ k ∧ k ≤ last ∧
      (∀ i, first ≤ i → i < k → P (f i) = true) ∧ (k ≠ last → P (f k) = false) := by
  induction n generalizing first with
  | zero => exact absurd hn (Nat.not_lt_zero _)
  | succ n ih =>
    rw [scanUp]
    by_cases hend : first = last
    · rw [if_pos hend]
      exact Leads.pure ⟨rfl, Nat.le_refl _, hle, fun i h1 h2 => by omega, fun hne => absurd hend hne⟩
    rw [if_neg hend]
    apply Leads.bind_eq (read_eq hlo (by omega))
    apply Leads.bind_eq (hpred _)
    cases hP : P (f first) with
    | false => exact Leads.pure ⟨rfl, Nat.le_refl _, hle, fun i h1 h2 => by omega, fun _ => hP⟩
    | true =>
      apply (ih (hlo.trans (Nat.le_succ _)) (by omega) (by omega)).mono
      rintro k g ⟨rfl, h1, h2, hall, hstop⟩
      refine ⟨rfl, Nat.le_of_succ_le h1, h2, ?_, hstop⟩
      intro i hi1 hik
      obtain rfl | hlt := Nat.eq_or_lt_of_le hi1
      · exact hP
      · exact hall i hlt hik

theorem scanDown_leads (hpred : ∀ x, pred x f = some (P x, f)) (hlo : lo ≤ first) (hhi : last ≤ hi)
    (hle : first ≤ last) {n : Nat} (hn : last - first < n) :
    Leads (scanDown lo hi pred n first last) f fun k g => g = f ∧ first ≤ k ∧ k ≤ last ∧
      (∀ i, k ≤ i → i < last → P (f i) = false) ∧ (k ≠ first → P (f (k - 1)) = true) := by
  induction n generalizing last with
  | zero => exact absurd hn (Nat.not_lt_zero _)
  | succ n ih =>
    rw [scanDown]
    by_cases hend : last = first
    · rw [if_pos hend]
      exact Leads.pure ⟨rfl, hle, Nat.le_refl _, fun i h1 h2 => by omega, fun hne => absurd hend hne⟩
    rw [if_neg hend]
    apply Leads.bind_eq (read_eq (by omega) (by omega))
    apply Leads.bind_eq (hpred _)
    cases hP : P (f (last - 1)) with
    | true => exact Leads.pure ⟨rfl, hle, Nat.le_refl _, fun i h1 h2 => by omega, fun _ => hP⟩
    | false =>
      apply (ih (by omega) (by omega) (by omega)).mono
      rintro k g ⟨rfl, h1, h2, hall, hstop⟩
      refine ⟨rfl, h1, by omega, ?_, hstop⟩
      intro i hki hil
      by_cases hlast : i = last - 1
      · rwa [hlast]
      · exact hall i hki (by omega)

/-- The elements before the place have the property, those behind it have not. -/
structure Partitioned (P : α → Bool) (first last p : Nat) (g : Nat → α) : Prop where
  le : first ≤ p
  le_last : p ≤ last
  before : ∀ i, first ≤ i → i < p → P (g i) = true
  behind : ∀ i, p ≤ i → i < last → P (g i) = false

/-- A round of the partition puts two elements in their places. -/
theorem Partitioned.extend {k l p : Nat} (hpart : Partitioned P (k + 1) (l - 1) p g) (hfirst : first ≤ k)
    (hl : l ≤ last) (hrearr : Rearranges (Set.Ico (k + 1) (l - 1)) (f ∘ Equiv.swap k (l - 1)) g)
    (hbefore : ∀ i, first ≤ i → i < k → P (f i) = true) (hk : P (f k) = false)
    (hbehind : ∀ i, l ≤ i → i < last → P (f i) = false) (hl1 : P (f (l - 1)) = true) :
    Partitioned P first last p g := by
  have hout : ∀ i, i ∉ Set.Ico (k + 1) (l - 1) → g i = f (Equiv.swap k (l - 1) i) := fun i hi => hrearr.eq_of_notMem hi
  have hp1 := hpart.le
  have hp2 := hpart.le_last
  constructor
  · omega
  · omega
  · intro i hi1 hip
    by_cases hin : k + 1 ≤ i
    · exact hpart.before i hin hip
    rw [hout i (by rw [Set.mem_Ico]; omega)]
    by_cases hik : i = k
    · rwa [hik, Equiv.swap_apply_left]
    · rw [Equiv.swap_apply_of_ne_of_ne hik (by omega)]
      exact hbefore i hi1 (by omega)
  · intro i hpi hil
    by_cases hin : i < l - 1
    · exact hpart.behind i hpi hin
    rw [hout i (by rw [Set.mem_Ico]; omega)]
    by_cases hik : i = l - 1
    · rwa [hik, Equiv.swap_apply_right]
    · rw [Equiv.swap_apply_of_ne_of_ne (by omega) hik]
      exact hbehind i (by omega) hil

/-- The predicate may read other places, which the partition leaves alone. -/
theorem partitionLoop_leads {I : (Nat → α) → Prop} (places : Set Nat) (hpred : ∀ x f, I f → pred x f = some (P x, f))
    (hI : ∀ f g, I f → Rearranges places f g → I g) (hf : I f) (hplaces : Set.Ico first last ⊆ places)
    (hlo : lo ≤ first) (hhi : last ≤ hi) (hle : first ≤ last) {n : Nat} (hn : last - first < n) :
    Leads (partitionLoop lo hi pred n first last) f fun p g =>
      Partitioned P first last p g ∧ Rearranges (Set.Ico first last) f g := by
  induction n generalizing first last f with
  | zero => exact absurd hn (Nat.not_lt_zero _)
  | succ n ih =>
    rw [partitionLoop]
    apply (scanUp_leads (fun x => hpred x f hf) hlo hhi hle (Nat.lt_succ_self _)).bind
    rintro k _ ⟨rfl, hk1, hk2, hbefore, hk⟩
    apply (scanDown_leads (fun x => hpred x _ hf) (hlo.trans hk1) hhi hk2 (Nat.lt_succ_self _)).bind
    rintro l _ ⟨rfl, hl1, hl2, hbehind, hl⟩
    by_cases hmeet : k = l
    · rw [if_pos hmeet]
      subst hmeet
      exact Leads.pure ⟨⟨hk1, hk2, hbefore, hbehind⟩, Rearranges.refl _ _⟩
    rw [if_neg hmeet]
    have hkP := hk (by omega)
    have hlP := hl (Ne.symm hmeet)
    have hkl : k + 1 < l := by
      by_contra hnot
      have heq : l - 1 = k := by omega
      rw [heq, hkP] at hlP
      cases hlP
    apply (iterSwap_leads first last hlo hhi hk1 (by omega) (by omega) (by omega)).bind
    rintro _ g ⟨rfl, hswap⟩
    rw [if_pos (Nat.ne_of_lt hkl)]
    have hsub : Set.Ico (k + 1) (l - 1) ⊆ Set.Ico first last := Set.Ico_subset_Ico (by omega) (by omega)
    apply (ih (hI _ _ hf (hswap.mono hplaces)) (hsub.trans hplaces) (by omega) (by omega) (by omega) (by omega)).mono
    rintro p g ⟨hpart, hrearr⟩
    exact ⟨hpart.extend hk1 hl2 hrearr hbefore hkP hbehind hlP, hswap.trans (hrearr.mono hsub)⟩

end Predicate

theorem swapIfLess_leads (first last : Nat) {i j : Nat} (hfirst : lo ≤ first) (hlast : last ≤ hi)
    (hi1 : first ≤ i) (hi2 : i < last)
    (hj1 : first ≤ j) (hj2 : j < last) :
    Leads (swapIfLess comp lo hi i j) f fun _ g => Rearranges (Set.Ico first last) f g := by
  apply Leads.bind_eq (read_eq (by omega) (by omega))
  apply Leads.bind_eq (read_eq (by omega) (by omega))
  split
  · exact (iterSwap_leads first last hfirst hlast hi1 hi2 hj1 hj2).mono fun _ _ hswap => hswap.2
  · exact Leads.pure (Rearranges.refl _ _)

theorem medianOfThree_leads (hlo : lo ≤ first) (hhi : last ≤ hi) (hlt : first < last) :
    Leads (medianOfThree comp lo hi first last) f fun p g =>
      first ≤ p ∧ p < last ∧ Rearranges (Set.Ico first last) f g := by
  rw [medianOfThree]
  split
  · exact Leads.pure ⟨Nat.le_refl _, hlt, Rearranges.refl _ _⟩
  · apply (swapIfLess_leads first last hlo hhi (by omega) (by omega) (by omega) (by omega)).bind
    intro _ f1 h1
    apply (swapIfLess_leads first last hlo hhi (by omega) (by omega) (by omega) (by omega)).bind
    intro _ f2 h2
    apply (swapIfLess_leads first last hlo hhi (by omega) (by omega) (by omega) (by omega)).bind
    intro _ f3 h3
    exact Leads.pure ⟨by omega, by omega, (h1.trans h2).trans h3⟩

/-- The elements before the pivot are less than it, and those behind it are not. -/
structure Pivoted (comp : α → α → Bool) (first last p : Nat) (g : Nat → α) : Prop where
  le : first ≤ p
  lt : p < last
  before : ∀ i, first ≤ i → i < p → comp (g i) (g p) = true
  behind : ∀ i, p < i → i < last → comp (g i) (g p) = false

theorem Partitioned.pivoted {p : Nat} (hpart : Partitioned (fun x => comp x (f (last - 1))) first (last - 1) p f)
    (hlt : first < last) : Pivoted comp first last p (f ∘ Equiv.swap p (last - 1)) := by
  have hp1 := hpart.le
  have hp2 := hpart.le_last
  have hpivot : (f ∘ Equiv.swap p (last - 1)) p = f (last - 1) := by
    rw [Function.comp_apply, Equiv.swap_apply_left]
  refine ⟨hp1, by omega, ?_, ?_⟩
  · intro i hi1 hip
    rw [hpivot, Function.comp_apply, Equiv.swap_apply_of_ne_of_ne (by omega) (by omega)]
    exact hpart.before i hi1 hip
  · intro i hpi hil
    rw [hpivot, Function.comp_apply]
    by_cases hlast : i = last - 1
    · rw [hlast, Equiv.swap_apply_right]
      exact hpart.behind p (Nat.le_refl p) (by omega)
    · rw [Equiv.swap_apply_of_ne_of_ne (by omega) hlast]
      exact hpart.behind i (by omega) (by omega)

theorem quickStep_leads (comp : α → α → Bool) (hlo : lo ≤ first) (hhi : last ≤ hi) (hlt : first < last) :
    Leads (quickStep comp lo hi first last) f fun p g =>
      Pivoted comp first last p g ∧ Rearranges (Set.Ico first last) f g := by
  apply (medianOfThree_leads hlo hhi hlt).bind
  rintro p f1 ⟨hp1, hp2, h1⟩
  apply (iterSwap_leads first last hlo hhi hp1 hp2 (by omega) (by omega)).bind
  rintro _ f2 ⟨-, h2⟩
  have hsub : Set.Ico first (last - 1) ⊆ Set.Ico first last := Set.Ico_subset_Ico_right (by omega)
  refine (partitionLoop_leads (P := fun x => comp x (f2 (last - 1))) (I := fun g => g (last - 1) = f2 (last - 1))
    (Set.Ico first (last - 1)) ?_ ?_ rfl Set.Subset.rfl hlo (by omega) (by omega) (Nat.lt_succ_self _)).bind ?_
  · intro x g hg
    simp only [bind, StateT.bind, read_eq (f := g) (show lo ≤ last - 1 by omega) (show last - 1 < hi by omega), hg]
    rfl
  · intro g g' hg hrearr
    rw [← hg]
    exact hrearr.eq_of_notMem (by simp)
  · rintro p f3 ⟨hpart, h3⟩
    have hpivot : f3 (last - 1) = f2 (last - 1) := h3.eq_of_notMem (by simp)
    rw [← hpivot] at hpart
    have hle := hpart.le
    have hle' := hpart.le_last
    apply (iterSwap_leads first last hlo hhi hle (by omega) (by omega) (by omega)).bind
    rintro _ f4 ⟨rfl, h4⟩
    exact Leads.pure ⟨hpart.pivoted hlt, ((h1.trans h2).trans (h3.mono hsub)).trans h4⟩

end XviOs.Algorithm
