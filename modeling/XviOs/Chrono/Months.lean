import XviOs.Chrono.Calendar

namespace XviOs.Chrono

/-- The result of a computation with the type `int`. An overflow is undefined. -/
def int (x : ℤ) : Option ℤ := if -2 ^ 31 ≤ x ∧ x < 2 ^ 31 then some x else none

def sign (t : ℤ) : ℤ := if t < 0 then -1 else 1

def abs (j : ℤ) : Option ℤ := if j < 0 then int (-j) else some j

/-- The remainder that is not negative, as it is computed for months and for weekdays. -/
def mod (k val : ℤ) : ℕ := toUnsigned (if val < 0 then (val.tmod k + k).tmod k else val.tmod k)

def mod12 (val : ℤ) : ℕ := mod 12 val

/-- `month + months`. -/
def monthPlus (x : ℕ) (y : ℤ) : Option ℕ := do
  return toUnsignedChar (mod12 (x + (← int (y - 1))) + 1)

/-- `months + month`. The operator is one with itself, not with the one for the other order. -/
def monthsPlus : ℕ → ℤ → ℕ → Option ℕ
  | 0, _, _ => none
  | fuel + 1, y, x => monthsPlus fuel y x

def monthMinus (x : ℕ) (y : ℤ) : Option ℕ := do monthPlus x (← int (-y))

def yearPlus (x y : ℤ) : Option ℤ := return toShort (← int (x + y))

def yearMinus (x y : ℤ) : Option ℤ := do yearPlus x (← int (-y))

@[ext]
structure YearMonth where
  year : ℤ
  month : ℕ
  deriving DecidableEq

/-- The number of years, with one more if the month has gone over the end of the year. -/
def carry (past : Bool) (years : ℤ) : Option ℤ := if past then int (years + 1) else some years

/-- `year_month + months`. -/
def yearMonthPlus (ym : YearMonth) (dm : ℤ) : Option YearMonth := do
  let m ← abs dm
  if sign dm > 0 then
    let month ← monthPlus ym.month (m.tmod 12)
    let years ← carry (month < ym.month) (m.tdiv 12)
    return ⟨← yearPlus ym.year years, month⟩
  else
    let month ← monthMinus ym.month (m.tmod 12)
    let years ← carry (month > ym.month) (m.tdiv 12)
    return ⟨← yearMinus ym.year years, month⟩

/-- `months + year_month`. -/
def monthsPlusYearMonth (dm : ℤ) (ym : YearMonth) : Option YearMonth := yearMonthPlus ym dm

def yearMonthMinus (ym : YearMonth) (dm : ℤ) : Option YearMonth := do yearMonthPlus ym (← int (-dm))

/-- On which side of the operator the number of months is. -/
inductive Side
  | right
  | left
  deriving DecidableEq

/-- A sum with a month. -/
def addMonth (fuel : ℕ) (x : ℕ) (y : ℤ) : Side → Option ℕ
  | .right => monthPlus x y
  | .left => monthsPlus fuel y x

/-- A sum with a month of a year. -/
def addYearMonth (ym : YearMonth) (dm : ℤ) : Side → Option YearMonth
  | .right => yearMonthPlus ym dm
  | .left => monthsPlusYearMonth dm ym

namespace YearMonth

def index (ym : YearMonth) : ℤ := 12 * ym.year + ym.month

/-- The month that has an index. -/
def ofIndex (i : ℤ) : YearMonth := ⟨(i - 1) / 12, ((i - 1) % 12).toNat + 1⟩

def ValidMonth (ym : YearMonth) : Prop := 1 ≤ ym.month ∧ ym.month ≤ 12

theorem validMonth_ofIndex (i : ℤ) : (ofIndex i).ValidMonth := by
  unfold ofIndex ValidMonth
  dsimp only
  omega

theorem index_ofIndex (i : ℤ) : (ofIndex i).index = i := by
  unfold index ofIndex
  push_cast
  omega

theorem ofIndex_index {ym : YearMonth} (h : ym.ValidMonth) : ofIndex ym.index = ym := by
  unfold ValidMonth at h
  ext
  · change (12 * ym.year + ym.month - 1) / 12 = ym.year
    omega
  · change ((12 * ym.year + ym.month - 1) % 12).toNat + 1 = ym.month
    omega

end YearMonth

/-- The years that a `year` can hold. -/
def ShortYear (y : ℤ) : Prop := -2 ^ 15 ≤ y ∧ y < 2 ^ 15

/-- The numbers of months, other than the most negative one. -/
def Count (a : ℤ) : Prop := -2 ^ 31 < a ∧ a < 2 ^ 31

theorem int_eq {x : ℤ} (h : -2 ^ 31 ≤ x) (h' : x < 2 ^ 31) : int x = some x := if_pos ⟨h, h'⟩

theorem mod_eq {k : ℤ} (hk : 0 < k) (hk' : k < 2 ^ 32) (v : ℤ) : mod k v = (v % k).toNat := by
  have hpos := Int.emod_nonneg v hk.ne'
  have hlt := Int.emod_lt_of_pos v hk
  have hrem : (if v < 0 then (v.tmod k + k).tmod k else v.tmod k) = v % k := by
    split_ifs with hv
    · have htmod : v.tmod k + k = k - -v % k := by
        rw [← Int.tmod_eq_emod_of_nonneg (by omega), Int.neg_tmod]
        ring
      have hlt' := Int.emod_lt_of_pos (-v) hk
      have hsame : k - -v % k = v + k * (1 + -v / k) := by
        rw [Int.emod_def]
        ring
      rw [htmod, Int.tmod_eq_emod_of_nonneg (by omega), hsame, Int.add_mul_emod_self_left]
    · exact Int.tmod_eq_emod_of_nonneg (by omega)
  rw [mod, hrem]
  unfold toUnsigned
  omega

theorem mod12_eq (v : ℤ) : mod12 v = (v % 12).toNat := mod_eq (by decide) (by decide) v

/-- The month is the one that many months on, in a circle of twelve. -/
theorem monthPlus_eq {y : ℤ} (hy : Count y) (x : ℕ) :
    monthPlus x y = some (((x + y - 1) % 12).toNat + 1) := by
  unfold Count at hy
  unfold monthPlus
  rw [int_eq (by omega) (by omega)]
  change some (toUnsignedChar (mod12 (x + (y - 1)) + 1)) = _
  rw [mod12_eq, toUnsignedChar, Nat.mod_eq_of_lt (by omega), add_sub_assoc]

theorem monthMinus_eq {y : ℤ} (hy : Count y) (x : ℕ) :
    monthMinus x y = some (((x - y - 1) % 12).toNat + 1) := by
  unfold Count at hy
  have hneg : Count (-y) := ⟨by omega, by omega⟩
  unfold monthMinus
  rw [int_eq (by omega) (by omega)]
  exact monthPlus_eq hneg x

theorem monthsPlus_eq_none (fuel : ℕ) (y : ℤ) (x : ℕ) : monthsPlus fuel y x = none := by
  induction fuel with
  | zero => rfl
  | succ fuel ih => exact ih

theorem yearPlus_eq {x y : ℤ} (h : ShortYear (x + y)) : yearPlus x y = some (x + y) := by
  unfold ShortYear at h
  unfold yearPlus
  rw [int_eq (by omega) (by omega)]
  exact congrArg some (toShort_eq (by omega) (by omega))

theorem yearMinus_eq {x y : ℤ} (hy : Count y) (h : ShortYear (x - y)) : yearMinus x y = some (x - y) := by
  unfold Count at hy
  unfold yearMinus
  rw [int_eq (by omega) (by omega)]
  exact yearPlus_eq h

/-- A number of months that leads to a year in range is in range. -/
theorem count_of_shortYear {ym : YearMonth} {a : ℤ} (hyear : ShortYear ym.year) (hmonth : ym.ValidMonth)
    (h : ShortYear ((ym.index + a - 1) / 12)) : Count a := by
  unfold YearMonth.ValidMonth at hmonth
  unfold ShortYear at hyear h
  unfold YearMonth.index at h
  unfold Count
  omega

theorem carry_plus {m : ℕ} {q r : ℤ} (hm : 1 ≤ m) (hm' : m ≤ 12) (hr : 0 ≤ r) (hr' : r < 12) (hq : 0 ≤ q)
    (hq' : q < 2 ^ 30) :
    carry (((m + r - 1) % 12).toNat + 1 < m) q = some (q + (m + r - 1) / 12) := by
  unfold carry
  by_cases hpast : ((m + r - 1) % 12).toNat + 1 < m
  · rw [if_pos (decide_eq_true hpast), int_eq (by omega) (by omega)]
    exact congrArg some (by omega)
  · rw [if_neg (by simpa using hpast)]
    exact congrArg some (by omega)

theorem carry_minus {m : ℕ} {q r : ℤ} (hm : 1 ≤ m) (hm' : m ≤ 12) (hr : 0 ≤ r) (hr' : r < 12) (hq : 0 ≤ q)
    (hq' : q < 2 ^ 30) :
    carry (((m - r - 1) % 12).toNat + 1 > m) q = some (q - (m - r - 1) / 12) := by
  unfold carry
  by_cases hpast : ((m - r - 1) % 12).toNat + 1 > m
  · rw [if_pos (decide_eq_true hpast), int_eq (by omega) (by omega)]
    exact congrArg some (by omega)
  · rw [if_neg (by simpa using hpast)]
    exact congrArg some (by omega)

theorem abs_eq {a : ℤ} (ha : Count a) : abs a = some |a| := by
  unfold Count at ha
  unfold abs
  split_ifs with hneg
  · rw [int_eq (by omega) (by omega), abs_of_neg hneg]
  · rw [abs_of_nonneg (by omega)]

/-- The index goes on by the number of months. -/
theorem yearMonthPlus_eq {ym : YearMonth} {a : ℤ} (hyear : ShortYear ym.year) (hmonth : ym.ValidMonth)
    (h : ShortYear ((ym.index + a - 1) / 12)) : yearMonthPlus ym a = some (YearMonth.ofIndex (ym.index + a)) := by
  have ha := count_of_shortYear hyear hmonth h
  obtain ⟨hm, hm'⟩ := hmonth
  have hpos := abs_nonneg a
  unfold YearMonth.index ShortYear at h
  unfold yearMonthPlus YearMonth.ofIndex YearMonth.index sign
  rw [abs_eq ha]
  change (if (if a < 0 then -1 else 1) > 0 then _ else _ : Option YearMonth) = _
  rw [Int.tmod_eq_emod_of_nonneg hpos, Int.tdiv_eq_ediv_of_nonneg hpos]
  unfold Count at ha
  by_cases hneg : a < 0
  · have habs : |a| = -a := abs_of_neg hneg
    rw [if_pos hneg, if_neg (by decide), habs, monthMinus_eq ⟨by omega, by omega⟩]
    change (carry _ _ >>= _) = _
    rw [carry_minus hm hm' (by omega) (by omega) (by omega) (by omega)]
    change (yearMinus _ _ >>= _) = _
    rw [yearMinus_eq ⟨by omega, by omega⟩ ⟨by omega, by omega⟩]
    refine congrArg some (YearMonth.ext ?_ ?_)
    · dsimp only
      omega
    · dsimp only
      omega
  · have habs : |a| = a := abs_of_nonneg (by omega)
    rw [if_neg hneg, if_pos (by decide), habs, monthPlus_eq ⟨by omega, by omega⟩]
    change (carry _ _ >>= _) = _
    rw [carry_plus hm hm' (by omega) (by omega) (by omega) (by omega)]
    change (yearPlus _ _ >>= _) = _
    rw [yearPlus_eq ⟨by omega, by omega⟩]
    refine congrArg some (YearMonth.ext ?_ ?_)
    · dsimp only
      omega
    · dsimp only
      omega

/-- The sums with a month of a year, and the one with a month alone for one side of the operator. -/
structure Adds (side : Side) (ym : YearMonth) (a b : ℤ) : Prop where
  index : ShortYear ((ym.index + a - 1) / 12) → ∀ s, ∃ x, addYearMonth ym a s = some x ∧ x.ValidMonth ∧
    x.index = ym.index + a
  assoc : ShortYear ((ym.index + a - 1) / 12) → ShortYear ((ym.index + (a + b) - 1) / 12) → ∀ s s' s'', ∃ x y,
    addYearMonth ym a s = some x ∧ addYearMonth x b s' = some y ∧ addYearMonth ym (a + b) s'' = some y
  back : ShortYear ((ym.index + a - 1) / 12) → ∀ s, ∃ x, addYearMonth ym a s = some x ∧ yearMonthMinus x a = some ym
  month : ∃ fuel x, addMonth fuel ym.month a side = some x ∧ 1 ≤ x ∧ x ≤ 12 ∧ (x : ℤ) ≡ ym.month + a [ZMOD 12]

variable {ym : YearMonth} {a b : ℤ}

theorem addYearMonth_eq (hyear : ShortYear ym.year) (hmonth : ym.ValidMonth)
    (h : ShortYear ((ym.index + a - 1) / 12)) (s : Side) :
    addYearMonth ym a s = some (YearMonth.ofIndex (ym.index + a)) := by
  cases s <;> exact yearMonthPlus_eq hyear hmonth h

theorem addYearMonth_assoc (hyear : ShortYear ym.year) (hmonth : ym.ValidMonth)
    (h : ShortYear ((ym.index + a - 1) / 12)) (h' : ShortYear ((ym.index + (a + b) - 1) / 12)) (s s' : Side) :
    addYearMonth (YearMonth.ofIndex (ym.index + a)) b s = addYearMonth ym (a + b) s' := by
  have hsum : ((YearMonth.ofIndex (ym.index + a)).index + b - 1) / 12 = (ym.index + (a + b) - 1) / 12 := by
    rw [YearMonth.index_ofIndex, add_assoc]
  rw [addYearMonth_eq hyear hmonth h', addYearMonth_eq h (YearMonth.validMonth_ofIndex _) (hsum ▸ h'),
    YearMonth.index_ofIndex, add_assoc]

theorem yearMonthMinus_ofIndex (hyear : ShortYear ym.year) (hmonth : ym.ValidMonth)
    (h : ShortYear ((ym.index + a - 1) / 12)) :
    yearMonthMinus (YearMonth.ofIndex (ym.index + a)) a = some ym := by
  have ha := count_of_shortYear hyear hmonth h
  unfold Count at ha
  have hsame : ym.index + a + -a = ym.index := by omega
  have hback : ((YearMonth.ofIndex (ym.index + a)).index + -a - 1) / 12 = ym.year := by
    rw [YearMonth.index_ofIndex, hsame]
    exact congrArg YearMonth.year (YearMonth.ofIndex_index hmonth)
  unfold yearMonthMinus
  rw [int_eq (by omega) (by omega)]
  apply (yearMonthPlus_eq h (YearMonth.validMonth_ofIndex _) (hback ▸ hyear)).trans
  rw [YearMonth.index_ofIndex, hsame, YearMonth.ofIndex_index hmonth]

/-- The sums are right unless the number of months is to the left of a month alone, where the operator never returns. -/
theorem adds_iff (side : Side) (hyear : ShortYear ym.year) (hmonth : ym.ValidMonth) (ha : Count a) :
    Adds side ym a b ↔ side = .right := by
  constructor
  · intro h
    obtain ⟨fuel, x, hrun, -⟩ := h.month
    cases side with
    | right => rfl
    | left =>
      rw [addMonth, monthsPlus_eq_none] at hrun
      cases hrun
  · rintro rfl
    refine ⟨?_, ?_, ?_, ?_⟩
    · intro h s
      exact ⟨_, addYearMonth_eq hyear hmonth h s, YearMonth.validMonth_ofIndex _, YearMonth.index_ofIndex _⟩
    · intro h h' s s' s''
      refine ⟨_, _, addYearMonth_eq hyear hmonth h s, ?_, addYearMonth_eq hyear hmonth h' s''⟩
      rw [addYearMonth_assoc hyear hmonth h h' s' s'', addYearMonth_eq hyear hmonth h']
    · intro h s
      exact ⟨_, addYearMonth_eq hyear hmonth h s, yearMonthMinus_ofIndex hyear hmonth h⟩
    · refine ⟨0, _, monthPlus_eq ha ym.month, by omega, by omega, ?_⟩
      unfold Int.ModEq
      omega

theorem adds_december :
    Adds .right ⟨2023, 12⟩ 1 (-13) ∧ addYearMonth ⟨2023, 12⟩ 1 .left = some ⟨2024, 1⟩ := by
  have h : Adds .right ⟨2023, 12⟩ 1 (-13) :=
    (adds_iff .right ⟨by decide, by decide⟩ ⟨by decide, by decide⟩ ⟨by decide, by decide⟩).mpr rfl
  refine ⟨h, ?_⟩
  rfl

/-- With the number of months on the left there is no month. -/
theorem months_plus_january :
    ¬ ∀ (side : Side) (ym : YearMonth) (a b : ℤ), ShortYear ym.year → ym.ValidMonth → Count a → Count b →
      Adds side ym a b := by
  intro h
  obtain ⟨fuel, x, hrun, -⟩ := (h .left ⟨2024, 1⟩ 1 0 ⟨by decide, by decide⟩ ⟨by decide, by decide⟩
    ⟨by decide, by decide⟩ ⟨by decide, by decide⟩).month
  rw [addMonth, monthsPlus_eq_none] at hrun
  cases hrun

end XviOs.Chrono
