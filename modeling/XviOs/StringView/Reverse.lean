import XviOs.StringView.Substring

namespace XviOs.StringView

open Library.Search

variable {w : ℕ} {s needle : View w} {tbl : BitVec 8 → ℕ} {pos i e : ℕ}

/-- The key of an entry of the mirrored table. -/
def reverseKey (needle : View w) (i : ℕ) : Option (BitVec 8) :=
  needle.chars[sizeSub (sizeSub needle.size 1) i]?.map hash

theorem generateReverseSearchTable_spec (hpos : 0 < needle.size) :
    ∃ tbl, generateReverseSearchTable needle = some tbl ∧
      ShiftTable (reverseKey needle) needle.size (needle.size - 1) tbl := by
  have hlt := needle.size_lt
  rw [generateReverseSearchTable, sizeSub_eq (a := needle.size) hpos (hlt.trans (by decide))]
  have hkey : (fun i => needle.chars[sizeSub (needle.size - 1) i]?.map hash) = reverseKey needle := by
    funext i
    rw [reverseKey, sizeSub_eq (a := needle.size) hpos (hlt.trans (by decide))]
  rw [hkey]
  apply fillTable_spec hlt _ (by omega) (shiftTable_start hpos)
  intro j hj
  obtain ⟨c, hc⟩ := exists_getElem? (s := needle) (i := needle.size - 1 - j) (by omega)
  refine ⟨hash c, ?_⟩
  rw [reverseKey, sizeSub_eq (a := needle.size) hpos (by omega), sizeSub_eq (by omega) (by omega), hc, Option.map_some]

theorem generateReverseSearchTable_empty (h : needle.size = 0) : generateReverseSearchTable needle = none := by
  have hchars : needle.chars = [] := List.length_eq_zero_iff.mp h
  rw [generateReverseSearchTable, h, show sizeSub 0 1 = (2 ^ 64 - 2) + 1 from rfl, fillTable, hchars]
  rfl

/-- What the shift goes over on its way to the start of the view holds no occurrence. -/
theorem not_standsAt_of_lt_reverse_shift (htbl : ShiftTable (reverseKey needle) needle.size (needle.size - 1) tbl)
    {c : BitVec w} (hc : s.chars[i]? = some c) {k : ℕ} (hk : 0 < k) (hki : k ≤ i) (hlt : k < tbl (hash c)) :
    ¬ StandsAt s needle (i - k) := by
  have hle := htbl.le (hash c)
  have hsize := needle.size_lt
  intro h
  obtain ⟨-, heq⟩ := (standsAt_iff (by omega)).mp h
  have hfirst := heq k (by omega)
  rw [Nat.sub_add_cancel hki, hc] at hfirst
  have hkey : reverseKey needle (needle.size - 1 - k) = some (hash c) := by
    rw [reverseKey, sizeSub_eq (a := needle.size) (by omega) (by omega), sizeSub_eq (by omega) (by omega),
      show needle.size - 1 - (needle.size - 1 - k) = k by omega, ← hfirst, Option.map_some]
  have hnear := htbl.near (needle.size - 1 - k) (hash c) (by omega) hkey
  omega

/-- The window whose last index is given is left for one before the start of the view. -/
inductive RunsOut (s needle : View w) (tbl : BitVec 8 → ℕ) : ℕ → Prop
  | here {e : ℕ} {c : BitVec w} (he : e + 1 = needle.size) (hfails : ¬ StandsAt s needle 0)
      (hc : s.chars[0]? = some c) (hshift : tbl (hash c) = needle.size) : RunsOut s needle tbl e
  | shift {e : ℕ} {c : BitVec w} (he : needle.size ≤ e) (hfails : ¬ StandsAt s needle (e + 1 - needle.size))
      (hc : s.chars[e + 1 - needle.size]? = some c) (rest : RunsOut s needle tbl (e - tbl (hash c))) :
      RunsOut s needle tbl e

theorem RunsOut.le (h : RunsOut s needle tbl e) : needle.size ≤ e + 1 := by
  cases h with
  | here he => exact he.ge
  | shift he => exact he.trans (Nat.le_succ e)

theorem rfindLoop_outside (hpos : 0 < needle.size) (n : ℕ) : rfindLoop s needle tbl n (2 ^ 64 - 1) = none := by
  have hneedle := needle.size_lt
  have hs := s.length_lt
  cases n with
  | zero => rfl
  | succ n =>
    have hread : s.chars[sizeSub (2 ^ 64 - 1) (needle.size - 1)]? = none := by
      rw [sizeSub_eq (by omega) (by decide)]
      apply List.getElem?_eq_none
      omega
    have hcompare : compareDown (fun i => s.chars[sizeSub (2 ^ 64 - 1) i]?)
        (fun i => needle.chars[sizeSub (needle.size - 1) i]?) (needle.size - 1) = none := by
      generalize needle.size - 1 = k at hread ⊢
      cases k with
      | zero => simp only [compareDown, hread, bind, Option.bind_none]
      | succ k => simp only [compareDown, hread, bind, Option.bind_none]
    rw [rfindLoop, sizeSub_eq (a := needle.size) hpos (by omega), if_pos (by omega), hcompare]
    rfl

/-- The comparison of a window that is in the view. -/
theorem compareWindow_eq (hpos : 0 < needle.size) (hfits : needle.size ≤ e + 1) (he : e < s.size) :
    ∃ r, compareDown (fun i => s.chars[sizeSub e i]?) (fun i => needle.chars[sizeSub (needle.size - 1) i]?)
      (needle.size - 1) = some r ∧ (r = true ↔ StandsAt s needle (e + 1 - needle.size)) := by
  have hneedle := needle.size_lt
  have hs := s.size_lt
  obtain ⟨r, hr, hiff⟩ := compareDown_eq (x := fun i => s.chars[sizeSub e i]?)
    (y := fun i => needle.chars[sizeSub (needle.size - 1) i]?) (i := needle.size - 1)
    (fun j hj => by rw [sizeSub_eq (by omega) (by omega)]; exact exists_getElem? (by omega))
    fun j hj => by rw [sizeSub_eq hj (by omega)]; exact exists_getElem? (by omega)
  refine ⟨r, hr, ?_⟩
  rw [hiff, standsAt_iff hpos]
  constructor
  · refine fun h => ⟨by omega, fun k hk => ?_⟩
    have hj := h (needle.size - 1 - k) (by omega)
    rwa [sizeSub_eq (by omega) (by omega), sizeSub_eq (by omega) (by omega),
      show e - (needle.size - 1 - k) = e + 1 - needle.size + k by omega,
      show needle.size - 1 - (needle.size - 1 - k) = k by omega] at hj
  · intro h j hj
    have hk := h.2 (needle.size - 1 - j) (by omega)
    rwa [show e + 1 - needle.size + (needle.size - 1 - j) = e - j by omega, ← sizeSub_eq (a := e) (by omega) (by omega),
      ← sizeSub_eq (a := needle.size - 1) hj (by omega)] at hk

/-- The loop finds the last occurrence that ends at the index or before it, unless it runs out of the view. -/
theorem rfindLoop_spec (hpos : 0 < needle.size)
    (htbl : ShiftTable (reverseKey needle) needle.size (needle.size - 1) tbl) {n : ℕ} (he : e < s.size) (hn : e < n) :
    (RunsOut s needle tbl e → rfindLoop s needle tbl n e = none) ∧
      (¬ RunsOut s needle tbl e → ∃ o, rfindLoop s needle tbl n e = some o ∧
        IsGreatestBelow (StandsAt s needle) (e + 2 - needle.size) o) := by
  have hneedle := needle.size_lt
  have hs := s.size_lt
  induction n generalizing e with
  | zero => exact absurd hn (Nat.not_lt_zero e)
  | succ n ih =>
    rw [rfindLoop, sizeSub_eq (a := needle.size) hpos (by omega)]
    by_cases hfits : needle.size - 1 ≤ e
    · rw [if_pos hfits]
      have hstart : sizeAdd (sizeSub e needle.size) 1 = e + 1 - needle.size := by
        unfold sizeAdd sizeSub
        omega
      obtain ⟨r, hr, hstands⟩ := compareWindow_eq (s := s) hpos (by omega) he
      obtain ⟨c, hc⟩ := exists_getElem? (s := s) (i := e + 1 - needle.size) (by omega)
      have hle := htbl.le (hash c)
      have hshift := htbl.pos (hash c)
      cases r with
      | true =>
        have hfound := hstands.mp rfl
        constructor
        · intro hruns
          cases hruns with
          | here he' hfails => exact absurd (show e + 1 - needle.size = 0 by omega ▸ hfound) hfails
          | shift he' hfails => exact absurd hfound hfails
        · intro _
          refine ⟨some (e + 1 - needle.size), by simp [hr, hstart], by omega, hfound, fun j hj hlt => by omega⟩
      | false =>
        have hfails : ¬ StandsAt s needle (e + 1 - needle.size) := fun h => Bool.false_ne_true (hstands.mpr h)
        by_cases hout : e + 1 = tbl (hash c)
        · -- the shift goes to the place before the view
          have hzero : e + 1 - needle.size = 0 := by omega
          rw [hzero] at hc hfails
          have hwrap : sizeSub e (tbl (hash c)) = 2 ^ 64 - 1 := by
            unfold sizeSub
            omega
          have hfail : rfindLoop s needle tbl n (2 ^ 64 - 1) = none := rfindLoop_outside hpos n
          rw [← hwrap] at hfail
          constructor
          · intro _
            simp [hr, hstart, hzero, hc, hfail]
          · exact fun hruns => absurd (.here (by omega) hfails hc (by omega)) hruns
        · have hback : sizeSub e (tbl (hash c)) = e - tbl (hash c) := sizeSub_eq (by omega) (by omega)
          obtain ⟨hnone, hsome⟩ := ih (e := e - tbl (hash c)) (by omega) (by omega)
          constructor
          · intro hruns
            have hrest : RunsOut s needle tbl (e - tbl (hash c)) := by
              cases hruns with
              | here he' _ hc' hshift' =>
                rw [show e + 1 - needle.size = 0 by omega, hc', Option.some.injEq] at hc
                rw [hc] at hshift'
                omega
              | shift _ _ hc' rest =>
                rw [hc', Option.some.injEq] at hc
                rwa [hc] at rest
            simp [hr, hstart, hc, hback, hnone hrest]
          · intro hruns
            have hrest : ¬ RunsOut s needle tbl (e - tbl (hash c)) := by
              intro hrest
              have hle' := hrest.le
              exact hruns (.shift (by omega) hfails hc hrest)
            obtain ⟨o, ho, hgreatest⟩ := hsome hrest
            refine ⟨o, by simp [hr, hstart, hc, hback, ho], (hgreatest.extend_iff (by omega)).mpr fun j hj hstand => ?_⟩
            by_contra hge
            obtain hlast | hbefore : j = e + 1 - needle.size ∨ j < e + 1 - needle.size := by omega
            · exact hfails (hlast ▸ hstand)
            · have hnot := not_standsAt_of_lt_reverse_shift htbl hc (k := e + 1 - needle.size - j) (by omega) (by omega)
                (by omega)
              rw [show e + 1 - needle.size - (e + 1 - needle.size - j) = j by omega] at hnot
              exact hnot hstand
    · rw [if_neg hfits]
      constructor
      · intro hruns
        have hle := hruns.le
        omega
      · intro _
        refine ⟨none, rfl, fun j hj => ?_⟩
        rw [show e + 2 - needle.size = 0 by omega] at hj
        exact absurd hj (Nat.not_lt_zero j)

/-- The search from the position backwards leaves the view at its start. -/
def ReverseRunsOut (s needle : View w) (pos : ℕ) : Prop :=
  ∃ tbl, generateReverseSearchTable needle = some tbl ∧ RunsOut s needle tbl (min pos (s.size - 1))

/-- The position is taken as the last index of the needle, not as its first one. A single character at it is missed. -/
theorem rfind_iff (s needle : View w) (pos : ℕ) :
    (∃ o, rfind s needle pos = some o ∧ IsGreatestBelow (StandsAt s needle) (pos + 1) o) ↔
      (needle.size = 1 ∧ ¬ StandsAt s needle pos) ∨
        (1 < needle.size ∧ 0 < s.size ∧ (∀ i ≤ pos, StandsAt s needle i → i + needle.size ≤ pos + 1) ∧
          ¬ ReverseRunsOut s needle pos) := by
  have hs := s.size_lt
  unfold rfind
  by_cases hsingle : needle.size = 1
  · rw [if_pos hsingle, or_iff_left (by omega), and_iff_right hsingle]
    obtain ⟨c, hc⟩ := exists_getElem? (s := needle) (i := 0) (by omega)
    obtain ⟨o, ho, hgreatest⟩ := scanBackward_reverseEnd_eq s c pos
    have heq : StandsAt s needle = CharAt s fun x => x == c := by
      funext i
      exact propext (single_standsAt_iff hsingle hc)
    rw [heq, hc, ← hgreatest.succ_iff]
    simp [ho]
  · rw [if_neg hsingle, or_iff_right fun h => hsingle h.1]
    obtain hzero | hpos := Nat.eq_zero_or_pos needle.size
    · rw [generateReverseSearchTable_empty hzero]
      refine iff_of_false ?_ (by omega)
      rintro ⟨o, ho, -⟩
      cases ho
    obtain ⟨tbl, htable, htbl⟩ := generateReverseSearchTable_spec hpos
    rw [and_iff_right (show 1 < needle.size by omega), htable]
    obtain hempty | hfull := Nat.eq_zero_or_pos s.size
    · refine iff_of_false ?_ (by omega)
      rintro ⟨o, ho, -⟩
      rw [hempty, if_pos (Nat.zero_le pos), show sizeSub 0 1 = 2 ^ 64 - 1 from rfl, Option.bind_eq_bind, Option.bind_some,
        rfindLoop_outside hpos] at ho
      cases ho
    have hend : (if s.size ≤ pos then sizeSub s.size 1 else pos) = min pos (s.size - 1) := by
      rw [sizeSub_eq (a := s.size) hfull (by omega)]
      split_ifs <;> omega
    have hruns : ReverseRunsOut s needle pos ↔ RunsOut s needle tbl (min pos (s.size - 1)) := by
      simp only [ReverseRunsOut, htable, Option.some.injEq, exists_eq_left']
    obtain ⟨hnone, hsome⟩ := rfindLoop_spec (s := s) (n := s.size + 1) hpos htbl (e := min pos (s.size - 1)) (by omega)
      (by omega)
    rw [and_iff_right hfull, hend, hruns]
    by_cases hout : RunsOut s needle tbl (min pos (s.size - 1))
    · refine iff_of_false ?_ fun h => h.2 hout
      rintro ⟨o, ho, -⟩
      rw [Option.bind_eq_bind, Option.bind_some, hnone hout] at ho
      cases ho
    · obtain ⟨o, ho, hgreatest⟩ := hsome hout
      rw [and_iff_left hout, Option.bind_eq_bind, Option.bind_some, ho]
      simp only [Option.some.injEq, exists_eq_left']
      rw [hgreatest.extend_iff (by omega)]
      constructor
      · intro h i hi hstands
        have hlt := h i (by omega) hstands
        omega
      · intro h i hi hstands
        have hle := h i (by omega) hstands
        have hend' := hstands.add_size_le
        omega

/-- Each search with the condition under which it gives the answer of its definition without leaving the views. -/
theorem searches_iff (s needle : View w) (pos : ℕ) :
    ((∃ o, find s needle pos = some o ∧ IsLeastFrom (StandsAt s needle) pos o) ↔ 0 < needle.size ∨ s.size < pos) ∧
    ((∃ o, rfind s needle pos = some o ∧ IsGreatestBelow (StandsAt s needle) (pos + 1) o) ↔
      (needle.size = 1 ∧ ¬ StandsAt s needle pos) ∨
        (1 < needle.size ∧ 0 < s.size ∧ (∀ i ≤ pos, StandsAt s needle i → i + needle.size ≤ pos + 1) ∧
          ¬ ReverseRunsOut s needle pos)) ∧
    (∃ o, findFirstOf s needle pos = some o ∧ IsLeastFrom (InSetAt s needle) pos o) ∧
    ((∃ o, findLastOf s needle pos = some o ∧ IsGreatestBelow (InSetAt s needle) (pos + 1) o) ↔
      ¬ InSetAt s needle pos) ∧
    ((∃ o, findFirstNotOf s needle pos = some o ∧ IsLeastFrom (NotInSetAt s needle) pos o) ↔
      needle.size = 1 ∨ ∀ i, IsLeastFrom (NotInSetAt s needle) pos (some i) →
        CharAt s (fun c => decide (¬ Collides needle c)) i) ∧
    ((∃ o, findLastNotOf s needle pos = some o ∧ IsGreatestBelow (NotInSetAt s needle) (pos + 1) o) ↔
      ¬ NotInSetAt s needle pos ∧ (needle.size = 1 ∨ ∀ i, IsGreatestBelow (NotInSetAt s needle) pos (some i) →
        CharAt s (fun c => decide (¬ Collides needle c)) i)) :=
  ⟨find_iff s needle pos, rfind_iff s needle pos, findFirstOf_spec s needle pos, findLastOf_iff s needle pos,
    findFirstNotOf_iff s needle pos, findLastNotOf_iff s needle pos⟩

/-- A view of one character. -/
def single (c : BitVec w) : View w := ⟨[c], Nat.one_lt_two_pow (Nat.succ_ne_zero 62)⟩

theorem rfind_single_missed :
    ¬ ∃ o, rfind (single 97#8) (single 97#8) 0 = some o ∧
      IsGreatestBelow (StandsAt (single 97#8) (single 97#8)) (0 + 1) o := by
  rintro ⟨o, ho, hgreatest⟩
  rw [show rfind (single 97#8) (single 97#8) 0 = some none from rfl, Option.some.injEq] at ho
  subst ho
  exact hgreatest 0 Nat.one_pos ⟨Nat.zero_le 1, List.prefix_rfl⟩

end XviOs.StringView
