import Mathlib.Tactic
import Mathlib.Logic.Equiv.Basic

namespace XviOs.Library.Rearrange

variable {ι α : Type*}

/-- The values of `g` are those of `f` in another order, with none moved outside the places. -/
def Rearranges (places : Set ι) (f g : ι → α) : Prop :=
  ∃ σ : Equiv.Perm ι, (∀ i, i ∉ places → σ i = i) ∧ g = f ∘ σ

namespace Rearranges

variable {s t : Set ι} {f g h : ι → α}

theorem refl (s : Set ι) (f : ι → α) : Rearranges s f f := ⟨Equiv.refl ι, fun _ _ => rfl, rfl⟩

theorem trans (hfg : Rearranges s f g) (hgh : Rearranges s g h) : Rearranges s f h := by
  obtain ⟨σ, hσ, rfl⟩ := hfg
  obtain ⟨τ, hτ, rfl⟩ := hgh
  refine ⟨τ.trans σ, fun i hi => ?_, rfl⟩
  rw [Equiv.trans_apply, hτ i hi, hσ i hi]

theorem mono (hst : s ⊆ t) (hfg : Rearranges s f g) : Rearranges t f g := by
  obtain ⟨σ, hσ, hg⟩ := hfg
  exact ⟨σ, fun i hi => hσ i fun his => hi (hst his), hg⟩

theorem swap [DecidableEq ι] {i j : ι} (hi : i ∈ s) (hj : j ∈ s) (f : ι → α) :
    Rearranges s f (f ∘ Equiv.swap i j) := by
  refine ⟨Equiv.swap i j, fun k hk => Equiv.swap_apply_of_ne_of_ne ?_ ?_, rfl⟩
  · rintro rfl
    exact hk hi
  · rintro rfl
    exact hk hj

theorem eq_of_notMem (hfg : Rearranges s f g) {i : ι} (hi : i ∉ s) : g i = f i := by
  obtain ⟨σ, hσ, rfl⟩ := hfg
  rw [Function.comp_apply, hσ i hi]

theorem mem_of_fixes {σ : Equiv.Perm ι} (hσ : ∀ i, i ∉ s → σ i = i) {i : ι} (hi : i ∈ s) : σ i ∈ s := by
  by_contra hout
  have hfix : σ i = i := σ.injective (hσ (σ i) hout)
  rw [hfix] at hout
  exact hout hi

/-- A value at one of the places has stood at one of them. -/
theorem exists_eq (hfg : Rearranges s f g) {i : ι} (hi : i ∈ s) : ∃ j ∈ s, g i = f j := by
  obtain ⟨σ, hσ, rfl⟩ := hfg
  exact ⟨σ i, mem_of_fixes hσ hi, rfl⟩

theorem symm (hfg : Rearranges s f g) : Rearranges s g f := by
  obtain ⟨σ, hσ, rfl⟩ := hfg
  refine ⟨σ.symm, fun i hi => ?_, ?_⟩
  · rw [Equiv.symm_apply_eq, hσ i hi]
  · funext i
    simp

/-- What all values at the places have is kept. -/
theorem forall_mem {P : α → Prop} (hfg : Rearranges s f g) (hP : ∀ i ∈ s, P (f i)) : ∀ i ∈ s, P (g i) := by
  intro i hi
  obtain ⟨j, hj, heq⟩ := hfg.exists_eq hi
  rw [heq]
  exact hP j hj

theorem perm_map {l : List ι} (hl : l.Nodup) (hmem : ∀ i, i ∈ l ↔ i ∈ s) (hfg : Rearranges s f g) :
    (l.map g).Perm (l.map f) := by
  obtain ⟨σ, hσ, rfl⟩ := hfg
  rw [← List.map_map]
  apply List.Perm.map
  rw [List.perm_ext_iff_of_nodup (hl.map σ.injective) hl]
  intro i
  rw [List.mem_map]
  constructor
  · rintro ⟨j, hj, rfl⟩
    by_contra hout
    have hfix : σ j = j := σ.injective (hσ (σ j) fun hs => hout ((hmem _).mpr hs))
    rw [hfix] at hout
    exact hout hj
  · intro hi
    refine ⟨σ.symm i, ?_, σ.apply_symm_apply i⟩
    by_contra hout
    have hfix := hσ (σ.symm i) fun hs => hout ((hmem _).mpr hs)
    rw [Equiv.apply_symm_apply] at hfix
    rw [← hfix] at hout
    exact hout hi

end Rearranges

end XviOs.Library.Rearrange
