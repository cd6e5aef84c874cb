import XviOs.StringView.Model

namespace XviOs.StringView

open Library.Search

variable {w : ℕ} {s needle : View w} {tbl : BitVec 8 → ℕ} {pos i : ℕ}

theorem sizeSub_eq {a b : ℕ} (hb : b ≤ a) (ha : a < 2 ^ 64) : sizeSub a b = a - b := by
  unfold sizeSub
  omega

theorem sizeAdd_eq {a b : ℕ} (h : a + b < 2 ^ 64) : sizeAdd a b = a + b := Nat.mod_eq_of_lt h

theorem View.size_lt (s : View w) : s.size < 2 ^ 63 := s.length_lt

/-- The needle stands at an index of the view, or at its end. -/
def StandsAt (s needle : View w) (i : ℕ) : Prop := i ≤ s.size ∧ OccursAt s.chars needle.chars i

theorem standsAt_iff (hpos : 0 < needle.size) :
    StandsAt s needle i ↔ i + needle.size ≤ s.size ∧ ∀ k < needle.size, s.chars[i + k]? = needle.chars[k]? := by
  constructor
  · rintro ⟨-, hocc⟩
    exact ⟨hocc.add_length_le (List.length_pos_iff.mp hpos), fun k hk => hocc.getElem?_eq hk⟩
  · rintro ⟨hle, heq⟩
    refine ⟨by omega, List.prefix_iff_getElem?.mpr fun k hk => ?_⟩
    rw [List.getElem?_drop, heq k hk, List.getElem?_eq_getElem hk]

theorem StandsAt.add_size_le (h : StandsAt s needle i) : i + needle.size ≤ s.size := by
  obtain hzero | hpos := Nat.eq_zero_or_pos needle.size
  · rw [hzero]
    exact h.1
  · exact ((standsAt_iff hpos).mp h).1

/-- A table of shifts made from the first keys. No shift is longer than the way to a key that it may meet. -/
structure ShiftTable (key : ℕ → Option (BitVec 8)) (length m : ℕ) (tbl : BitVec 8 → ℕ) : Prop where
  pos : ∀ h, 0 < tbl h
  le : ∀ h, tbl h ≤ length
  near : ∀ j h, j < m → key j = some h → tbl h ≤ length - 1 - j

theorem fillTable_spec {key : ℕ → Option (BitVec 8)} {length : ℕ} (hlength : length < 2 ^ 63)
    (hkey : ∀ j, j + 1 < length → ∃ h, key j = some h) {n i : ℕ} (hn : i + n + 1 = length)
    (htbl : ShiftTable key length i tbl) :
    ∃ t, fillTable key length n i tbl = some t ∧ ShiftTable key length (length - 1) t := by
  induction n generalizing i tbl with
  | zero =>
    obtain rfl : length - 1 = i := by omega
    exact ⟨tbl, rfl, htbl⟩
  | succ n ih =>
    obtain ⟨h, hh⟩ := hkey i (by omega)
    have hentry : sizeSub (sizeSub length 1) i = length - 1 - i := by
      rw [sizeSub_eq (a := length) (by omega) (by omega), sizeSub_eq (by omega) (by omega)]
    rw [fillTable, hh]
    apply ih (i := i + 1) (by omega)
    rw [hentry]
    refine ⟨fun k => ?_, fun k => ?_, fun j k hj hk => ?_⟩
    · rw [Function.update_apply]
      split_ifs
      · omega
      · exact htbl.pos k
    · rw [Function.update_apply]
      split_ifs
      · omega
      · exact htbl.le k
    · rw [Function.update_apply]
      split_ifs with hkh
      · omega
      · obtain hlt | rfl := Nat.lt_succ_iff_lt_or_eq.mp hj
        · exact htbl.near j k hlt hk
        · rw [hh, Option.some.injEq] at hk
          exact absurd hk.symm hkh

theorem shiftTable_start {key : ℕ → Option (BitVec 8)} {length : ℕ} (hpos : 0 < length) :
    ShiftTable key length 0 fun _ => length :=
  ⟨fun _ => hpos, fun _ => Nat.le_refl length, fun j _ hj => absurd hj (Nat.not_lt_zero j)⟩

theorem compareDown_eq {x y : ℕ → Option (BitVec w)} {i : ℕ} (hx : ∀ j ≤ i, ∃ a, x j = some a)
    (hy : ∀ j ≤ i, ∃ a, y j = some a) : ∃ r, compareDown x y i = some r ∧ (r = true ↔ ∀ j ≤ i, x j = y j) := by
  induction i with
  | zero =>
    obtain ⟨a, ha⟩ := hx 0 (Nat.le_refl 0)
    obtain ⟨b, hb⟩ := hy 0 (Nat.le_refl 0)
    refine ⟨a == b, by simp [compareDown, ha, hb], ?_⟩
    rw [beq_iff_eq]
    constructor
    · rintro rfl j hj
      obtain rfl := Nat.le_zero.mp hj
      rw [ha, hb]
    · intro h
      have h0 := h 0 (Nat.le_refl 0)
      rwa [ha, hb, Option.some.injEq] at h0
  | succ i ih =>
    obtain ⟨a, ha⟩ := hx (i + 1) (Nat.le_refl _)
    obtain ⟨b, hb⟩ := hy (i + 1) (Nat.le_refl _)
    obtain ⟨r, hr, hiff⟩ := ih (fun j hj => hx j (hj.trans (Nat.le_succ i))) fun j hj => hy j (hj.trans (Nat.le_succ i))
    by_cases hab : a = b
    · refine ⟨r, by simp [compareDown, ha, hb, hab, hr], hiff.trans ⟨fun h j hj => ?_, fun h j hj => ?_⟩⟩
      · obtain hlt | rfl := Nat.le_succ_iff.mp hj
        · exact h j hlt
        · rw [ha, hb, hab]
      · exact h j (hj.trans (Nat.le_succ i))
    · refine ⟨false, by simp [compareDown, ha, hb, hab], iff_of_false Bool.false_ne_true fun h => hab ?_⟩
      have hlast := h (i + 1) (Nat.le_refl _)
      rwa [ha, hb, Option.some.injEq] at hlast

theorem generateSearchTable_spec (hpos : 0 < needle.size) :
    ∃ tbl, generateSearchTable needle = some tbl ∧
      ShiftTable (fun i => needle.chars[i]?.map hash) needle.size (needle.size - 1) tbl := by
  have hlt := needle.size_lt
  rw [generateSearchTable, sizeSub_eq (a := needle.size) hpos (hlt.trans (by decide))]
  apply fillTable_spec hlt _ (by omega) (shiftTable_start hpos)
  intro j hj
  obtain ⟨c, hc⟩ := exists_getElem? (s := needle) (i := j) (by omega)
  exact ⟨hash c, by rw [hc, Option.map_some]⟩

/-- What the shift goes over holds no occurrence. -/
theorem not_standsAt_of_lt_shift (htbl : ShiftTable (fun i => needle.chars[i]?.map hash) needle.size (needle.size - 1) tbl)
    {c : BitVec w} (hc : s.chars[i + needle.size - 1]? = some c) {k : ℕ} (hk : 0 < k) (hlt : k < tbl (hash c)) :
    ¬ StandsAt s needle (i + k) := by
  have hle := htbl.le (hash c)
  intro h
  obtain ⟨-, heq⟩ := (standsAt_iff (by omega)).mp h
  have hlast := heq (needle.size - 1 - k) (by omega)
  rw [show i + k + (needle.size - 1 - k) = i + needle.size - 1 by omega, hc] at hlast
  have hnear := htbl.near (needle.size - 1 - k) (hash c) (by omega) (by rw [← hlast, Option.map_some])
  omega

theorem findLoop_spec (hpos : 0 < needle.size)
    (htbl : ShiftTable (fun i => needle.chars[i]?.map hash) needle.size (needle.size - 1) tbl) {n offset : ℕ}
    (hoffset : offset ≤ s.size) (hn : s.size < n + offset) (hle : pos ≤ offset)
    (hbefore : ∀ j, pos ≤ j → j < offset → ¬ StandsAt s needle j) :
    ∃ o, findLoop s needle tbl n offset = some o ∧ IsLeastFrom (StandsAt s needle) pos o := by
  induction n generalizing offset with
  | zero => exact absurd hn (by omega)
  | succ n ih =>
    have hneedle := needle.size_lt
    have hs := s.size_lt
    rw [findLoop, sizeSub_eq hoffset (by omega), sizeSub_eq hpos (by omega)]
    split_ifs with hfits
    · obtain ⟨r, hr, hiff⟩ := compareDown_eq (x := fun i => s.chars[offset + i]?) (y := fun i => needle.chars[i]?)
        (i := needle.size - 1) (fun j hj => exists_getElem? (by omega)) fun j hj => exists_getElem? (by omega)
      have hstands : r = true ↔ StandsAt s needle offset := by
        rw [hiff, standsAt_iff hpos]
        constructor
        · exact fun h => ⟨by omega, fun k hk => h k (by omega)⟩
        · exact fun h j hj => h.2 j (by omega)
      cases r with
      | true =>
        refine ⟨some offset, by simp [hr], hle, hstands.mp rfl, hbefore⟩
      | false =>
        obtain ⟨c, hc⟩ := exists_getElem? (s := s) (i := offset + needle.size - 1) (by omega)
        have hshift := htbl.le (hash c)
        have hshift' := htbl.pos (hash c)
        have hindex : sizeSub (sizeAdd offset needle.size) 1 = offset + needle.size - 1 := by
          rw [sizeAdd_eq (by omega), sizeSub_eq (by omega) (by omega)]
        obtain ⟨o, ho, hleast⟩ := @ih (offset + tbl (hash c)) (by omega) (by omega) (by omega) (by
          intro j hj hjlt
          obtain hlt | hge := Nat.lt_or_ge j offset
          · exact hbefore j hj hlt
          · obtain rfl | hne := hge.eq_or_lt
            · exact fun h => Bool.false_ne_true (hstands.mpr h)
            · have hnot := not_standsAt_of_lt_shift htbl hc (k := j - offset) (by omega) (by omega)
              rwa [show offset + (j - offset) = j by omega] at hnot)
        refine ⟨o, ?_, hleast⟩
        simp [hr, hindex, hc, sizeAdd_eq (show offset + tbl (hash c) < 2 ^ 64 by omega), ho]
    · refine ⟨none, rfl, fun j hj h => ?_⟩
      obtain hlt | hge := Nat.lt_or_ge j offset
      · exact hbefore j hj hlt h
      · have hend := h.add_size_le
        omega

/-- The table of an empty needle is made from characters it does not have. -/
theorem generateSearchTable_empty (h : needle.size = 0) : generateSearchTable needle = none := by
  have hchars : needle.chars = [] := List.length_eq_zero_iff.mp h
  rw [generateSearchTable, h, show sizeSub 0 1 = (2 ^ 64 - 2) + 1 from rfl, fillTable, hchars]
  rfl

theorem single_standsAt_iff (h : needle.size = 1) {c : BitVec w} (hc : needle.chars[0]? = some c) :
    StandsAt s needle i ↔ CharAt s (fun x => x == c) i := by
  rw [standsAt_iff (by omega), h]
  constructor
  · rintro ⟨hle, heq⟩
    exact ⟨c, (heq 0 Nat.one_pos).trans hc, beq_self_eq_true c⟩
  · rintro ⟨x, hx, hxc⟩
    rw [beq_iff_eq] at hxc
    refine ⟨(List.getElem?_eq_some_iff.mp hx).1, fun k hk => ?_⟩
    obtain rfl := Nat.lt_one_iff.mp hk
    rw [Nat.add_zero, hx, hc, hxc]

/-- The search for a needle is right unless the needle is empty and the position is in the view or at its end. -/
theorem find_iff (s needle : View w) (pos : ℕ) :
    (∃ o, find s needle pos = some o ∧ IsLeastFrom (StandsAt s needle) pos o) ↔ 0 < needle.size ∨ s.size < pos := by
  unfold find
  split_ifs with hend hsingle
  · simp only [Option.some.injEq, exists_eq_left']
    constructor
    · intro h
      by_contra hnot
      have hsize : needle.size = 0 := by omega
      have hzero : needle.chars = [] := List.length_eq_zero_iff.mp hsize
      have hpos : pos = s.size := by omega
      refine h pos (Nat.le_refl pos) ⟨hpos.le, ?_⟩
      rw [OccursAt, hzero]
      exact List.nil_prefix
    · intro h j hj hstands
      have hle := hstands.add_size_le
      omega
  · refine iff_of_true ?_ (Or.inl (by omega))
    obtain ⟨c, hc⟩ := exists_getElem? (s := needle) (i := 0) (by omega)
    rw [hc]
    obtain ⟨o, ho, hleast⟩ := scanForward_eq s c (n := s.size - pos) (i := pos) (by omega)
    refine ⟨o, ho, ?_⟩
    have heq : StandsAt s needle = CharAt s fun x => x == c := by
      funext i
      exact propext (single_standsAt_iff hsingle hc)
    rwa [heq]
  · obtain hzero | hpos := Nat.eq_zero_or_pos needle.size
    · rw [generateSearchTable_empty hzero]
      refine iff_of_false ?_ (by omega)
      rintro ⟨o, ho, -⟩
      cases ho
    · refine iff_of_true ?_ (Or.inl hpos)
      obtain ⟨tbl, htable, htbl⟩ := generateSearchTable_spec hpos
      rw [htable]
      exact findLoop_spec hpos htbl (by omega) (by omega) (Nat.le_refl pos) fun j hj hlt => absurd hlt (by omega)

end XviOs.StringView
