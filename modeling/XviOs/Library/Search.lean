import Mathlib.Tactic

namespace XviOs.Library.Search

variable {α : Type} [DecidableEq α]

/-- The pattern stands in the text at the position. -/
def OccursAt (text pattern : List α) (i : Nat) : Prop := pattern <+: text.drop i

/-- The first position of the pattern, if there is one. -/
def IsFirst (text pattern : List α) : Option Nat → Prop
  | some i => OccursAt text pattern i ∧ ∀ j < i, ¬ OccursAt text pattern j
  | none => ∀ j, ¬ OccursAt text pattern j

/-- How far the pattern goes forward when its last place is over a `c`: to the last `c` before that place, or by its
whole length. -/
def skip (pattern : List α) (c : α) : Nat := pattern.dropLast.reverse.idxOf c + 1

/-- The pattern does not stand at the position, where its last place is over a `c`. -/
structure FailsAt (text pattern : List α) (o : Nat) (c : α) : Prop where
  fits : o + pattern.length ≤ text.length
  fails : ¬ OccursAt text pattern o
  last : text[o + pattern.length - 1]? = some c

/-- The positions that are tried from the start on. -/
inductive Tried (text pattern : List α) : Nat → Prop
  | start : Tried text pattern 0
  | skip {o : Nat} {c : α} : Tried text pattern o → FailsAt text pattern o c → Tried text pattern (o + skip pattern c)

variable {text pattern : List α} {o i k : Nat} {c : α}

omit [DecidableEq α] in
theorem OccursAt.add_length_le (h : OccursAt text pattern i) (hp : pattern ≠ []) : i + pattern.length ≤ text.length := by
  have hle : pattern.length ≤ (text.drop i).length := List.IsPrefix.length_le h
  have hpos := List.length_pos_iff.mpr hp
  rw [List.length_drop] at hle
  omega

omit [DecidableEq α] in
theorem OccursAt.getElem?_eq (h : OccursAt text pattern i) (hk : k < pattern.length) : text[i + k]? = pattern[k]? := by
  obtain ⟨t, ht⟩ := h
  rw [← List.getElem?_drop, ← ht, List.getElem?_append_left hk]

theorem skip_pos (pattern : List α) (c : α) : 0 < skip pattern c := Nat.succ_pos _

theorem skip_le (hp : pattern ≠ []) (c : α) : skip pattern c ≤ pattern.length := by
  have hpos := List.length_pos_iff.mpr hp
  have hle : pattern.dropLast.reverse.idxOf c ≤ pattern.dropLast.reverse.length := List.idxOf_le_length
  rw [List.length_reverse, List.length_dropLast] at hle
  rw [skip]
  omega

theorem skip_le_of_getElem? (hc : pattern[i]? = some c) (hi : i + 1 < pattern.length) :
    skip pattern c ≤ pattern.length - 1 - i := by
  have hlen : pattern.dropLast.reverse.length = pattern.length - 1 := by
    rw [List.length_reverse, List.length_dropLast]
  have hget : pattern.dropLast.reverse[pattern.length - 2 - i]? = some c := by
    rw [List.getElem?_reverse (by rw [List.length_dropLast]; omega), List.length_dropLast, List.getElem?_dropLast,
      if_pos (by omega), ← hc]
    congr 1
    omega
  by_contra hlt
  have hbefore : pattern.length - 2 - i < pattern.dropLast.reverse.idxOf c := by
    rw [skip] at hlt
    omega
  have hne := List.not_of_lt_findIdx hbefore
  rw [List.getElem?_eq_getElem (by omega), Option.some_inj] at hget
  rw [hget] at hne
  simp at hne

/-- What is skipped holds no occurrence: the pattern would have a `c` nearer to its last place. -/
theorem FailsAt.not_occursAt (h : FailsAt text pattern o c) (hp : pattern ≠ []) (hk : k < skip pattern c) :
    ¬ OccursAt text pattern (o + k) := by
  obtain rfl | hpos := Nat.eq_zero_or_pos k
  · exact h.fails
  intro hocc
  have hle := skip_le hp c
  have heq := hocc.getElem?_eq (k := pattern.length - 1 - k) (by omega)
  rw [show o + k + (pattern.length - 1 - k) = o + pattern.length - 1 by omega, h.last] at heq
  have hnear := skip_le_of_getElem? heq.symm (by omega)
  omega

/-- No occurrence is before a position that is tried. -/
theorem Tried.not_occursAt (h : Tried text pattern o) (hp : pattern ≠ []) : ∀ j < o, ¬ OccursAt text pattern j := by
  induction h with
  | start => exact fun j hj => absurd hj (Nat.not_lt_zero j)
  | @skip o c htried hfails ih =>
    intro j hj
    by_cases hbefore : j < o
    · exact ih j hbefore
    · obtain ⟨k, rfl⟩ : ∃ k, j = o + k := ⟨j - o, by omega⟩
      exact hfails.not_occursAt hp (by omega)

/-- The positions that are tried are in the text or at its end. -/
theorem Tried.le (h : Tried text pattern o) (hp : pattern ≠ []) : o ≤ text.length := by
  induction h with
  | start => exact Nat.zero_le _
  | @skip o c htried hfails ih =>
    have hle := skip_le hp c
    have hfits := hfails.fits
    omega

theorem Tried.isFirst_of_occursAt (h : Tried text pattern o) (hp : pattern ≠ []) (hocc : OccursAt text pattern o) :
    IsFirst text pattern (some o) := ⟨hocc, h.not_occursAt hp⟩

theorem Tried.isFirst_of_end (h : Tried text pattern o) (hp : pattern ≠ []) (hend : text.length < o + pattern.length) :
    IsFirst text pattern none := by
  intro j hocc
  by_cases hj : j < o
  · exact h.not_occursAt hp j hj hocc
  · have hle := hocc.add_length_le hp
    omega

section Extreme

/-- The least index from a position on with a property, if there is one. -/
def IsLeastFrom (P : Nat → Prop) (pos : Nat) : Option Nat → Prop
  | some i => pos ≤ i ∧ P i ∧ ∀ j, pos ≤ j → j < i → ¬ P j
  | none => ∀ j, pos ≤ j → ¬ P j

/-- The greatest index before a bound with a property, if there is one. -/
def IsGreatestBelow (P : Nat → Prop) (bound : Nat) : Option Nat → Prop
  | some i => i < bound ∧ P i ∧ ∀ j, i < j → j < bound → ¬ P j
  | none => ∀ j, j < bound → ¬ P j

variable {P Q : Nat → Prop} {pos : Nat} {o : Option Nat}

theorem IsLeastFrom.of_not (h : IsLeastFrom P (pos + 1) o) (hpos : ¬ P pos) : IsLeastFrom P pos o := by
  have hlt : ∀ j, pos ≤ j → j ≠ pos → pos + 1 ≤ j := fun j hj hne => lt_of_le_of_ne hj hne.symm
  cases o with
  | none =>
    intro j hj
    by_cases heq : j = pos
    · exact heq ▸ hpos
    · exact h j (hlt j hj heq)
  | some i =>
    refine ⟨(Nat.le_succ pos).trans h.1, h.2.1, fun j hj hji => ?_⟩
    by_cases heq : j = pos
    · exact heq ▸ hpos
    · exact h.2.2 j (hlt j hj heq) hji

theorem IsGreatestBelow.of_not (h : IsGreatestBelow P pos o) (hpos : ¬ P pos) : IsGreatestBelow P (pos + 1) o := by
  have hlt : ∀ j, j < pos + 1 → j ≠ pos → j < pos := fun j hj hne => lt_of_le_of_ne (Nat.le_of_lt_succ hj) hne
  cases o with
  | none =>
    intro j hj
    by_cases heq : j = pos
    · exact heq ▸ hpos
    · exact h j (hlt j hj heq)
  | some i =>
    refine ⟨h.1.trans (Nat.lt_succ_self pos), h.2.1, fun j hij hj => ?_⟩
    by_cases heq : j = pos
    · exact heq ▸ hpos
    · exact h.2.2 j hij (hlt j hj heq)

theorem isGreatestBelow_succ_iff (hpos : ¬ P pos) : IsGreatestBelow P (pos + 1) o ↔ IsGreatestBelow P pos o := by
  constructor
  · intro h
    cases o with
    | none => exact fun j hj => h j (hj.trans (Nat.lt_succ_self pos))
    | some i =>
      refine ⟨lt_of_le_of_ne (Nat.le_of_lt_succ h.1) ?_, h.2.1,
        fun j hij hj => h.2.2 j hij (hj.trans (Nat.lt_succ_self pos))⟩
      rintro rfl
      exact hpos h.2.1
  · intro h
    exact h.of_not hpos

/-- A search that stops before another bound misses what is between them, and nothing else. -/
theorem IsGreatestBelow.extend_iff (h : IsGreatestBelow P pos o) {bound : Nat} (hle : pos ≤ bound) :
    IsGreatestBelow P bound o ↔ ∀ i, i < bound → P i → i < pos := by
  constructor
  · intro h' i hi hP
    by_contra hge
    cases o with
    | none => exact h' i hi hP
    | some k => exact h'.2.2 i (h.1.trans_le (Nat.le_of_not_lt hge)) hi hP
  · intro hbetween
    cases o with
    | none => exact fun i hi hP => h i (hbetween i hi hP) hP
    | some k => exact ⟨h.1.trans_le hle, h.2.1, fun i hki hi hP => h.2.2 i hki (hbetween i hi hP) hP⟩

theorem IsGreatestBelow.succ_iff (h : IsGreatestBelow P pos o) : IsGreatestBelow P (pos + 1) o ↔ ¬ P pos := by
  rw [h.extend_iff (Nat.le_succ pos)]
  constructor
  · exact fun hbetween hpos => absurd (hbetween pos (Nat.lt_succ_self pos) hpos) (Nat.lt_irrefl pos)
  · rintro hpos i hi hP
    refine lt_of_le_of_ne (Nat.le_of_lt_succ hi) ?_
    rintro rfl
    exact hpos hP

/-- A search for a stronger property answers for the weaker one when the first place of the weaker one has it. -/
theorem IsLeastFrom.weaken_iff (h : IsLeastFrom Q pos o) (hQ : ∀ i, Q i → P i) :
    IsLeastFrom P pos o ↔ ∀ i, IsLeastFrom P pos (some i) → Q i := by
  classical
  constructor
  · intro h' i hi
    cases o with
    | none => exact absurd hi.2.1 (h' i hi.1)
    | some k =>
      obtain rfl : i = k := by
        obtain hlt | heq | hlt := lt_trichotomy i k
        · exact absurd hi.2.1 (h'.2.2 i hi.1 hlt)
        · exact heq
        · exact absurd h'.2.1 (hi.2.2 k h'.1 hlt)
      exact h.2.1
  · intro hfirst
    have hfound : ∀ j, pos ≤ j → P j → ∃ i ≤ j, pos ≤ i ∧ Q i := by
      intro j hj hP
      have hex : ∃ i, pos ≤ i ∧ P i := ⟨j, hj, hP⟩
      have hspec := Nat.find_spec hex
      refine ⟨Nat.find hex, Nat.find_min' hex ⟨hj, hP⟩, hspec.1, hfirst _ ⟨hspec.1, hspec.2, ?_⟩⟩
      exact fun k hk hlt hPk => Nat.find_min hex hlt ⟨hk, hPk⟩
    cases o with
    | none =>
      intro j hj hP
      obtain ⟨i, -, hi, hQi⟩ := hfound j hj hP
      exact h i hi hQi
    | some k =>
      refine ⟨h.1, hQ k h.2.1, fun j hj hjk hP => ?_⟩
      obtain ⟨i, hij, hi, hQi⟩ := hfound j hj hP
      exact h.2.2 i hi (hij.trans_lt hjk) hQi

theorem IsGreatestBelow.weaken_iff (h : IsGreatestBelow Q pos o) (hQ : ∀ i, Q i → P i) :
    IsGreatestBelow P pos o ↔ ∀ i, IsGreatestBelow P pos (some i) → Q i := by
  classical
  constructor
  · intro h' i hi
    cases o with
    | none => exact absurd hi.2.1 (h' i hi.1)
    | some k =>
      obtain rfl : i = k := by
        obtain hlt | heq | hlt := lt_trichotomy i k
        · exact absurd h'.2.1 (hi.2.2 k hlt h'.1)
        · exact heq
        · exact absurd hi.2.1 (h'.2.2 i hlt hi.1)
      exact h.2.1
  · intro hlast
    have hfound : ∀ j, j < pos → P j → ∃ i, j ≤ i ∧ i < pos ∧ Q i := by
      intro j hj hP
      have hspec := Nat.findGreatest_spec (P := fun i => i < pos ∧ P i) hj.le ⟨hj, hP⟩
      refine ⟨Nat.findGreatest (fun i => i < pos ∧ P i) pos, Nat.le_findGreatest hj.le ⟨hj, hP⟩, hspec.1, ?_⟩
      apply hlast
      refine ⟨hspec.1, hspec.2, fun k hk hkpos hPk => ?_⟩
      exact Nat.findGreatest_is_greatest hk hkpos.le ⟨hkpos, hPk⟩
    cases o with
    | none =>
      intro j hj hP
      obtain ⟨i, -, hi, hQi⟩ := hfound j hj hP
      exact h i hi hQi
    | some k =>
      refine ⟨h.1, hQ k h.2.1, fun j hkj hj hP => ?_⟩
      obtain ⟨i, hji, hi, hQi⟩ := hfound j hj hP
      exact h.2.2 i (hkj.trans_le hji) hi hQi

end Extreme

end XviOs.Library.Search
