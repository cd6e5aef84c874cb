import XviOs.VoidPtr.Model
import XviOs.VoidPtr.Tear

namespace XviOs.VoidPtr

open Library.StateProgram Algorithm

variable {compare : List Byte → List Byte → ℤ} {size base nmemb : ℕ} {f g : ℕ → Byte} {value : Byte}

theorem Ordered.byteLess (hcompare : Ordered compare 1) : StrictWeak (byteLess compare) := by
  have h : IsStrictWeakOrder Byte fun x y => decide (compare [x] [y] < 0) = true :=
    { irrefl := fun x => hcompare.toIrrefl.irrefl ⟨[x], rfl⟩
      trans := fun x y z => hcompare.trans ⟨[x], rfl⟩ ⟨[y], rfl⟩ ⟨[z], rfl⟩
      incomp_trans := fun x y z => hcompare.incomp_trans ⟨[x], rfl⟩ ⟨[y], rfl⟩ ⟨[z], rfl⟩ }
  exact h

theorem elementAt_one (base : ℕ) (f : ℕ → Byte) (i : ℕ) : elementAt 1 base f i = [f (base + i)] := by
  rw [elementAt, advance_one]
  rfl

theorem elements_one (base nmemb : ℕ) (f : ℕ → Byte) :
    elements 1 base nmemb f = ((List.range' base nmemb).map f).map fun b => [b] := by
  rw [elements, List.range'_eq_map_range, List.map_map, List.map_map]
  apply List.map_congr_left
  intro i _
  exact elementAt_one base f i

theorem sorted_one_iff : Sorted compare 1 base nmemb f ↔ NonDecreasing (byteLess compare) base (base + nmemb) f := by
  constructor
  · intro h i j hi hij hj
    have hless := h (i - base) (j - base) (by omega) (by omega)
    rw [elementAt_one, elementAt_one, Nat.add_sub_cancel' hi, Nat.add_sub_cancel' (by omega)] at hless
    exact decide_eq_false hless
  · intro h i j hij hj
    rw [elementAt_one, elementAt_one]
    exact of_decide_eq_false (h (base + i) (base + j) (by omega) (by omega) (by omega))

/-- For elements of one byte, the elements are sorted when the bytes are. -/
theorem sorts_one_iff : Sorts compare 1 base nmemb f g ↔ Algorithm.Sorts (byteLess compare) base (base + nmemb) f g := by
  have hperm : (elements 1 base nmemb g).Perm (elements 1 base nmemb f) ↔
      ((List.range' base (base + nmemb - base)).map g).Perm ((List.range' base (base + nmemb - base)).map f) := by
    rw [elements_one, elements_one, Nat.add_sub_cancel_left, List.map_perm_map_iff List.singleton_injective]
  constructor
  · intro h
    refine ⟨by rw [← qsort_one]; exact h.returns, fun a ha => h.outside a ?_, hperm.mp h.perm, sorted_one_iff.mp h.sorted⟩
    rwa [Nat.mul_one]
  · intro h
    refine ⟨by rw [qsort_one]; exact h.returns, fun a ha => h.outside a ?_, hperm.mpr h.perm, sorted_one_iff.mpr h.sorted⟩
    rwa [Nat.mul_one] at ha

theorem introsort_of_le_one {lo hi first last : ℕ} (hn : distance size first last ≤ 1) (depth : ℕ) :
    introsort compare size lo hi depth first last f = some ((), f) := by
  cases depth <;> rw [introsort, if_pos hn] <;> rfl

theorem sorts_of_le_one (hsize : 0 < size) (hn : nmemb ≤ 1) : Sorts compare size base nmemb f f := by
  refine ⟨?_, fun _ _ => rfl, List.Perm.refl _, fun i j hij hj => by omega⟩
  have hdistance : distance size base (advance size base nmemb) ≤ 1 := by rwa [advance, distance_add hsize]
  exact introsort_of_le_one hdistance _

/-- `qsort` sorts single bytes, unless the sort of them falls back, and what needs no sorting. -/
theorem qsort_sorts_iff (hsize : 0 < size) (hcompare : Ordered compare size) :
    (∃ g, Sorts compare size base nmemb f g) ↔
      nmemb ≤ 1 ∨ size = 1 ∧
        ¬ FallsBack (byteLess compare) base (base + nmemb) (2 * bitWidth nmemb) base (base + nmemb) f := by
  by_cases hn : nmemb ≤ 1
  · exact iff_of_true ⟨f, sorts_of_le_one hsize hn⟩ (Or.inl hn)
  obtain rfl | hne := eq_or_ne size 1
  · have hiff := sort_sorts_iff hcompare.byteLess base (base + nmemb) f
    rw [Nat.add_sub_cancel_left] at hiff
    simp only [sorts_one_iff, hiff, hn, false_or, true_and]
  · refine iff_of_false ?_ (by simp [hn, hne])
    rintro ⟨g, h⟩
    have hnone : qsort compare size base nmemb f = none := introsort_fails (by omega) _ (by omega)
    cases h.returns.symm.trans hnone

/-- The bytes below the value come first. -/
structure Split (compare : List Byte → List Byte → ℤ) (value : Byte) (base n r : ℕ) (f : ℕ → Byte) : Prop where
  le : r ≤ n
  less : ∀ i < n, byteLess compare (f (base + i)) value = true ↔ i < r

theorem byteLess_antitone (hcompare : Ordered compare 1) (hsorted : Sorted compare 1 base nmemb f) {i j : ℕ}
    (hij : i ≤ j) (hj : j < nmemb) (h : byteLess compare (f (base + i)) value = false) :
    byteLess compare (f (base + j)) value = false := by
  obtain rfl | hlt := Nat.eq_or_lt_of_le hij
  · exact h
  · exact hcompare.byteLess.not_less_trans h (sorted_one_iff.mp hsorted _ _ (by omega) (by omega) (by omega))

theorem wrappedPred_value_eq {lo hi a : ℕ} (hlo : lo ≤ a) (hhi : a < hi) :
    wrappedPred compare 1 lo hi (.place a) (.temporary value) f = some (byteLess compare (f a) value, f) := by
  rw [wrappedPred_value]
  change (Algorithm.read lo hi a f).bind _ = _
  rw [read_eq hlo hhi]
  rfl

theorem wrappedPred_temporary_eq {lo hi a : ℕ} (hlo : lo ≤ a) (hhi : a < hi) :
    wrappedPred compare 1 lo hi (.temporary value) (.place a) f = some (byteLess compare value (f a), f) := by
  rw [wrappedPred_temporary]
  change (Algorithm.read lo hi a f).bind _ = _
  rw [read_eq hlo hhi]
  rfl

theorem lowerBoundLoop_eq (value : Byte) (hcompare : Ordered compare 1) (hsorted : Sorted compare 1 base nmemb f)
    {m a b : ℕ} (hab : a ≤ b) (hb : b ≤ nmemb) (hm : b - a < m)
    (hbelow : ∀ i < a, byteLess compare (f (base + i)) value = true)
    (habove : ∀ i, b ≤ i → i < nmemb → byteLess compare (f (base + i)) value = false) :
    ∃ r, lowerBoundLoop compare 1 base (base + nmemb) value m (base + a) (base + b) (b - a) f = some (base + r, f) ∧
      Split compare value base nmemb r f := by
  induction m generalizing a b with
  | zero => exact absurd hm (Nat.not_lt_zero _)
  | succ m ih =>
    by_cases hend : a = b
    · subst hend
      refine ⟨a, by rw [lowerBoundLoop, if_pos rfl]; rfl, hb, fun i hi => ⟨fun h => ?_, hbelow i⟩⟩
      by_contra hia
      rw [habove i (Nat.not_lt.mp hia) hi] at h
      cases h
    · have hstep : lowerBoundLoop compare 1 base (base + nmemb) value (m + 1) (base + a) (base + b) (b - a) f =
          (if byteLess compare (f (base + (a + (b - a) / 2))) value = true then
            lowerBoundLoop compare 1 base (base + nmemb) value m (base + (a + (b - a) / 2 + 1)) (base + b)
              (b - (a + (b - a) / 2 + 1))
          else lowerBoundLoop compare 1 base (base + nmemb) value m (base + a) (base + (a + (b - a) / 2))
            (a + (b - a) / 2 - a)) f := by
        rw [lowerBoundLoop, if_neg (by omega)]
        change (wrappedPred compare 1 base (base + nmemb) (.place (advance 1 (base + a) ((b - a) / 2)))
          (.temporary value) f).bind _ = _
        rw [advance_one, Nat.add_assoc, wrappedPred_value_eq (by omega) (by omega), Nat.add_sub_cancel_left,
          Nat.add_assoc a, ← Nat.sub_sub b a]
        rfl
      rw [hstep]
      cases hmiddle : byteLess compare (f (base + (a + (b - a) / 2))) value with
      | true =>
        apply ih (by omega) hb (by omega) (fun i hi => ?_) habove
        by_contra hless
        have hfalse := byteLess_antitone hcompare hsorted (Nat.le_of_lt_succ hi) (by omega) (Bool.eq_false_iff.mpr hless)
        rw [hmiddle] at hfalse
        cases hfalse
      | false =>
        refine ih (by omega) (by omega) (by omega) hbelow fun i hi hin => ?_
        exact byteLess_antitone hcompare hsorted hi hin hmiddle

theorem lowerBound_eq (hcompare : Ordered compare 1) (hsorted : Sorted compare 1 base nmemb f) (value : Byte) :
    ∃ r, lowerBound compare 1 base (base + nmemb) base (base + nmemb) value f = some (base + r, f) ∧
      Split compare value base nmemb r f := by
  rw [lowerBound, distance_one]
  have hloop := lowerBoundLoop_eq value hcompare hsorted (m := base + nmemb - base + 1) (Nat.zero_le nmemb)
    (le_refl nmemb) (by omega) (fun i hi => absurd hi (Nat.not_lt_zero i))
    (fun i hi hin => absurd hin (Nat.not_lt.mpr hi))
  rw [Nat.sub_zero, Nat.add_zero] at hloop
  rw [Nat.add_sub_cancel_left] at hloop ⊢
  exact hloop

/-- Only an empty array can be searched for a key of more than one byte. -/
theorem bsearch_fails (hsize : 1 < size) (hn : 0 < nmemb) (key : List Byte) :
    bsearch compare key size base nmemb f = none := by
  apply bind_eq_none
  intro r t h
  rw [lowerBound, lowerBoundLoop, if_neg] at h
  · obtain ⟨b, u, h, -⟩ := bind_eq_some_iff.mp h
    rw [wrappedPred_value_fails hsize] at h
    cases h
  · rw [advance]
    exact (Nat.lt_add_of_pos_right (Nat.mul_pos hn (Nat.lt_trans Nat.one_pos hsize))).ne

theorem bsearch_empty (key : List Byte) : bsearch compare key size base 0 f = some (none, f) := by
  have hlast : advance size base 0 = base := by rw [advance, Nat.zero_mul, Nat.add_zero]
  have hlower : lowerBound compare size base base base base (key.headD 0) f = some (base, f) := by
    rw [lowerBound, lowerBoundLoop, if_pos rfl]
    rfl
  rw [bsearch, hlast]
  change (lowerBound compare size base base base base (key.headD 0) f).bind _ = _
  rw [hlower, Option.bind_some]
  dsimp only
  rw [if_pos rfl]
  rfl

/-- What `bsearch` gives for elements of one byte. -/
theorem bsearch_one (hcompare : Ordered compare 1) (hsorted : Sorted compare 1 base nmemb f) (hn : 0 < nmemb)
    (value : Byte) : bsearch compare [value] 1 base nmemb f =
      some (if byteLess compare (f (base + (nmemb - 1))) value = true ∨ byteLess compare value (f base) = true then none
        else some base, f) := by
  obtain ⟨r, hlower, hsplit⟩ := lowerBound_eq hcompare hsorted value
  rw [bsearch, advance_one]
  change (lowerBound compare 1 base (base + nmemb) base (base + nmemb) value f).bind _ = _
  rw [hlower, Option.bind_some]
  dsimp only
  have hle := hsplit.le
  have hless := hsplit.less (nmemb - 1) (by omega)
  by_cases hlast : r = nmemb
  · rw [if_pos (by rw [hlast]), if_pos (Or.inl (hless.mpr (by omega)))]
    rfl
  · rw [if_neg (by omega)]
    change (wrappedPred compare 1 base (base + nmemb) (.temporary value) (.place base) f).bind _ = _
    rw [wrappedPred_temporary_eq (le_refl base) (by omega)]
    cases hfirst : byteLess compare value (f base) with
    | true =>
      rw [if_pos (Or.inr rfl)]
      rfl
    | false =>
      have hnot : ¬ byteLess compare (f (base + (nmemb - 1))) value = true := by
        rw [hless]
        omega
      rw [if_neg (not_or.mpr ⟨hnot, Bool.false_ne_true⟩)]
      rfl

theorem equal_one_iff {x : Byte} :
    Equal compare [x] [value] ↔ byteLess compare x value = false ∧ byteLess compare value x = false := by
  rw [Equal, byteLess, byteLess, decide_eq_false_iff_not, decide_eq_false_iff_not]

/-- Null is right when all elements are below the key, or the first one is behind it. -/
theorem not_equal_of_null (hcompare : Ordered compare 1) (hsorted : Sorted compare 1 base nmemb f)
    (h : byteLess compare (f (base + (nmemb - 1))) value = true ∨ byteLess compare value (f base) = true) {i : ℕ}
    (hi : i < nmemb) : ¬ Equal compare (elementAt 1 base f i) [value] := by
  rw [elementAt_one, equal_one_iff]
  rintro ⟨hless, hgreater⟩
  obtain hlast | hfirst := h
  · rw [byteLess_antitone hcompare hsorted (Nat.le_sub_one_of_lt hi) (by omega) hless] at hlast
    cases hlast
  · obtain rfl | hpos := Nat.eq_zero_or_pos i
    · rw [Nat.add_zero] at hgreater
      rw [hgreater] at hfirst
      cases hfirst
    · have hbehind := sorted_one_iff.mp hsorted base (base + i) (le_refl base) (by omega) (by omega)
      rw [hcompare.byteLess.not_less_trans hbehind hgreater] at hfirst
      cases hfirst

/-- `bsearch` looks at the first element only, so that this must not be below the key when the key is not behind all
elements. -/
theorem bsearch_finds_iff (hsize : 0 < size) (hcompare : Ordered compare size) {key : List Byte}
    (hkey : key.length = size) (hsorted : Sorted compare size base nmemb f) :
    (∃ result, Finds compare key size base nmemb f result) ↔
      nmemb = 0 ∨ size = 1 ∧
        ¬ (compare (elementAt size base f 0) key < 0 ∧ ¬ compare (elementAt size base f (nmemb - 1)) key < 0) := by
  obtain rfl | hn := Nat.eq_zero_or_pos nmemb
  · refine iff_of_true ⟨none, bsearch_empty key, fun a ha => ?_, fun _ i hi => absurd hi (Nat.not_lt_zero i)⟩ (Or.inl rfl)
    cases ha
  obtain rfl | hne := eq_or_ne size 1
  · obtain ⟨value, rfl⟩ := List.length_eq_one_iff.mp hkey
    have hreturns := bsearch_one hcompare hsorted hn value
    have hcondition : ¬ (compare (elementAt 1 base f 0) [value] < 0 ∧
        ¬ compare (elementAt 1 base f (nmemb - 1)) [value] < 0) ↔
          byteLess compare (f base) value = false ∨ byteLess compare (f (base + (nmemb - 1))) value = true := by
      rw [elementAt_one, elementAt_one, byteLess, byteLess, decide_eq_false_iff_not, decide_eq_true_iff]
      tauto
    rw [hcondition, or_iff_right hn.ne', and_iff_right rfl]
    by_cases hnull : byteLess compare (f (base + (nmemb - 1))) value = true ∨ byteLess compare value (f base) = true
    · rw [if_pos hnull] at hreturns
      refine iff_of_true ⟨none, hreturns, fun a ha => ?_, fun _ i hi => not_equal_of_null hcompare hsorted hnull hi⟩ ?_
      · cases ha
      · exact hnull.elim Or.inr fun hfirst => Or.inl (hcompare.byteLess.asymm hfirst)
    · rw [if_neg hnull] at hreturns
      rw [not_or, Bool.not_eq_true, Bool.not_eq_true] at hnull
      rw [hnull.1]
      constructor
      · rintro ⟨result, h⟩
        cases h.returns.symm.trans hreturns
        obtain ⟨i, hi, hbase, hequal⟩ := h.found base rfl
        obtain rfl : i = 0 := by
          rw [advance_one] at hbase
          omega
        rw [elementAt_one, equal_one_iff] at hequal
        exact Or.inl hequal.1
      · rintro (hfirst | hlast)
        · refine ⟨some base, hreturns, fun a ha => ⟨0, hn, ?_, ?_⟩, fun h => ?_⟩
          · cases ha
            rw [advance_one]
            rfl
          · rw [elementAt_one, equal_one_iff]
            exact ⟨hfirst, hnull.2⟩
          · cases h
        · cases hlast
  · refine iff_of_false ?_ (by simp [hn.ne', hne])
    rintro ⟨result, h⟩
    have hnone : bsearch compare key size base nmemb f = none := bsearch_fails (by omega) hn key
    cases h.returns.symm.trans hnone

/-- What `qsort` and `bsearch` do is right for single bytes, apart from the faults of the sort and of the search, and
where there is nothing to do. -/
theorem qsort_bsearch_iff (compare : List Byte → List Byte → ℤ) (size : ℕ) (hsize : 0 < size)
    (hcompare : Ordered compare size) (base nmemb : ℕ) (f : ℕ → Byte) :
    ((∃ g, Sorts compare size base nmemb f g) ↔
      nmemb ≤ 1 ∨ size = 1 ∧
        ¬ FallsBack (byteLess compare) base (base + nmemb) (2 * bitWidth nmemb) base (base + nmemb) f) ∧
    ∀ key : List Byte, key.length = size → Sorted compare size base nmemb f →
      ((∃ result, Finds compare key size base nmemb f result) ↔
        nmemb = 0 ∨ size = 1 ∧
          ¬ (compare (elementAt size base f 0) key < 0 ∧ ¬ compare (elementAt size base f (nmemb - 1)) key < 0)) :=
  ⟨qsort_sorts_iff hsize hcompare, fun _ hkey hsorted => bsearch_finds_iff hsize hcompare hkey hsorted⟩

/-- The elements as numbers, the last byte as the greatest place. -/
def compareNumbers (x y : List Byte) : ℤ :=
  ((Nat.ofDigits 256 (x.map BitVec.toNat) : ℕ) : ℤ) - (Nat.ofDigits 256 (y.map BitVec.toNat) : ℕ)

theorem compareNumbers_neg {x y : List Byte} : compareNumbers x y < 0 ↔
    Nat.ofDigits 256 (x.map BitVec.toNat) < Nat.ofDigits 256 (y.map BitVec.toNat) := by
  rw [compareNumbers]
  omega

theorem ordered_compareNumbers (size : ℕ) : Ordered compareNumbers size := by
  have h : IsStrictWeakOrder {l : List Byte // l.length = size} fun x y => decide (compareNumbers x.1 y.1 < 0) = true := by
    simp only [compareNumbers_neg, decide_eq_true_iff]
    exact
      { irrefl := fun x => Nat.lt_irrefl _
        trans := fun x y z => Nat.lt_trans
        incomp_trans := fun x y z hxy hyz => by omega }
  exact h

/-- Bytes in descending order. -/
theorem qsort_bsearch_iff_bytes :
    (∃ g, Sorts compareNumbers 1 100 5 (fun a => BitVec.ofNat 8 (200 - a)) g) ∧
    ∃ result, Finds compareNumbers [7] 1 100 3 (fun a => BitVec.ofNat 8 (a - 93)) result := by
  constructor
  · apply (qsort_bsearch_iff compareNumbers 1 Nat.one_pos (ordered_compareNumbers 1) 100 5 _).1.mpr
    exact Or.inr ⟨rfl, fun h => absurd h.long (by decide)⟩
  · apply ((qsort_bsearch_iff compareNumbers 1 Nat.one_pos (ordered_compareNumbers 1) 100 3 _).2 [7] rfl ?_).mpr
    · exact Or.inr ⟨rfl, by decide⟩
    · intro i j hij hj
      interval_cases j <;> interval_cases i <;> decide

/-- Two elements of two bytes. -/
theorem qsort_words : ¬ ∃ g, Sorts compareNumbers 2 100 2 (fun a => BitVec.ofNat 8 (200 - a)) g := by
  rintro ⟨g, h⟩
  have hnone : qsort compareNumbers 2 100 2 (fun a => BitVec.ofNat 8 (200 - a)) = none :=
    introsort_fails (n := 2) Nat.one_lt_two 4 (le_refl 2)
  cases h.returns.symm.trans hnone

end XviOs.VoidPtr
