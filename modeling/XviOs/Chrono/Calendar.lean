import XviOs.Library.Gregorian

namespace XviOs.Chrono

/-- Conversions to the fixed-width types. The signed arithmetic of the conversions between days and dates stays in
range for all years that a date can have. -/
def toShort (x : ℤ) : ℤ := x.bmod (2 ^ 16)

def toInt32 (x : ℤ) : ℤ := x.bmod (2 ^ 32)

def toUnsigned (x : ℤ) : ℕ := (x % 2 ^ 32).toNat

def toUnsignedChar (x : ℕ) : ℕ := x % 2 ^ 8

@[ext]
structure YearMonthDay where
  year : ℤ
  month : ℕ
  day : ℕ
  deriving DecidableEq

def isLeap (y : ℤ) : Bool := y.tmod 4 == 0 && (y.tmod 100 != 0 || y.tmod 400 == 0)

/-- Meant as the number of leap years between the year 0 and the given one. -/
def leapCount (y : ℤ) : ℤ :=
  let n : ℤ := y.natAbs
  n / 4 - n / 100 + n / 400

/-- The year that a number of days from the year 0 on stands for, and the days that are left over. -/
def yearCount (d : ℤ) : ℤ × ℤ :=
  let daysPer400Years := 365 * 400 + leapCount 400
  let quadcenturies := d.tdiv daysPer400Years
  let remaining := d.tmod daysPer400Years
  let daysPer100Years := 365 * 100 + leapCount 100
  let centuries := remaining.tdiv daysPer100Years
  let remaining := remaining.tmod daysPer100Years
  let daysPer4Years := 365 * 4 + leapCount 4
  let quads := remaining.tdiv daysPer4Years
  let remaining := remaining.tmod daysPer4Years
  let years := remaining.tdiv 365
  let remaining := remaining.tmod 365
  (toShort (years + (quads * 4 + centuries * 100 + quadcenturies * 400)), remaining)

/-- The cases of the switch over the month. Each falls through to the ones behind it. -/
def daysBeforeCases (leap : Bool) : List (ℕ × ℤ) :=
  [(12, 30), (11, 31), (10, 30), (9, 31), (8, 31), (7, 30), (6, 31), (5, 30), (4, 31),
    (3, if leap then 29 else 28), (2, 31), (1, 0)]

/-- The index of the day in its year. It is computed without a sign. -/
def dayOfYear (y : ℤ) (m d : ℕ) : ℤ :=
  toInt32 (d - 1 + (((daysBeforeCases (isLeap y)).dropWhile fun c => c.1 != m).map Prod.snd).sum)

/-- The lengths of the months before December. -/
def monthLengths (leap : Bool) : List (ℕ × ℕ) :=
  [(1, 31), (2, if leap then 29 else 28), (3, 31), (4, 30), (5, 31), (6, 30), (7, 31), (8, 31), (9, 30), (10, 31),
    (11, 30)]

/-- The tests of one month after the other. -/
def findMonth : List (ℕ × ℕ) → ℕ → ℕ × ℕ
  | [], n => (12, toUnsignedChar (n + 1))
  | (m, length) :: rest, n => if n < length then (m, toUnsignedChar (n + 1)) else findMonth rest (n - length)

/-- The month and the day of a day of the year. -/
def monthDayOfYear (y d : ℤ) : ℕ × ℕ := findMonth (monthLengths (isLeap y)) (toUnsigned d)

/-- The days between the start of the year 0, as the code counts them, and that of 1970. -/
def epochDays : ℤ := 1970 * 365 + leapCount 1970

def fromSysDays (d : ℤ) : YearMonthDay :=
  let (y, n) := yearCount (epochDays + d)
  let (m, day) := monthDayOfYear y n
  ⟨y, m, day⟩

def toSysDays (x : YearMonthDay) : ℤ :=
  x.year * 365 + leapCount x.year + dayOfYear x.year x.month x.day - epochDays

def yearOk (y : ℤ) : Bool := -32767 ≤ y && y ≤ 32767

def monthOk (m : ℕ) : Bool := 1 ≤ m && m ≤ 12

/-- The day of a `year_month_day_last`. -/
def lastDay (y : ℤ) (m : ℕ) : ℕ :=
  if m = 2 then if isLeap y then 29 else 28
  else if m = 4 ∨ m = 6 ∨ m = 9 ∨ m = 11 then 30
  else 31

def ok (x : YearMonthDay) : Bool :=
  if !yearOk x.year || monthOk x.month then false
  else if 1 > x.day then false
  else x.day ≤ lastDay x.year x.month

section Refinement

open Library.Gregorian

theorem isLeap_iff (y : ℤ) : isLeap y = true ↔ IsLeap y := by
  simp [isLeap, IsLeap, Int.dvd_iff_tmod_eq_zero]

theorem lastDay_eq (y : ℤ) (m : ℕ) : lastDay y m = daysInMonth y m := by
  simp only [lastDay, daysInMonth, isLeap_iff]

/-- What the groups of years count, when each group is short enough. -/
theorem yearCount_digits (a b c e : ℤ) {d y n : ℤ} (ha : 0 ≤ a) (hb : 0 ≤ b) (hc : 0 ≤ c) (he : 0 ≤ e) (hn : 0 ≤ n)
    (hn' : n < 365) (he' : 365 * e + n < 1461) (hc' : 1461 * c + (365 * e + n) < 36524)
    (hb' : 36524 * b + (1461 * c + (365 * e + n)) < 146097)
    (hd : d = 146097 * a + (36524 * b + (1461 * c + (365 * e + n)))) (hy : y = 400 * a + 100 * b + 4 * c + e) :
    yearCount d = (toShort y, n) := by
  have h400 : 365 * 400 + leapCount 400 = 146097 := rfl
  have h100 : 365 * 100 + leapCount 100 = 36524 := rfl
  have h4 : 365 * 4 + leapCount 4 = 1461 := rfl
  have hdiv : ∀ {k q r : ℤ}, 0 ≤ q → 0 ≤ r → r < k → (k * q + r).tdiv k = q ∧ (k * q + r).tmod k = r := by
    intro k q r hq hr hrk
    have hk : 0 < k := hr.trans_lt hrk
    have hpos : 0 ≤ k * q + r := add_nonneg (mul_nonneg hk.le hq) hr
    rw [Int.tdiv_eq_ediv_of_nonneg hpos, Int.tmod_eq_emod_of_nonneg hpos]
    exact (Int.ediv_emod_unique hk).mpr ⟨by ring, hr, hrk⟩
  obtain ⟨hq1, hr1⟩ := hdiv (k := 146097) ha (show 0 ≤ 36524 * b + (1461 * c + (365 * e + n)) by omega) hb'
  obtain ⟨hq2, hr2⟩ := hdiv (k := 36524) hb (show 0 ≤ 1461 * c + (365 * e + n) by omega) hc'
  obtain ⟨hq3, hr3⟩ := hdiv (k := 1461) hc (show 0 ≤ 365 * e + n by omega) he'
  obtain ⟨hq4, hr4⟩ := hdiv (k := 365) he hn hn'
  have hyear : e + (c * 4 + b * 100 + a * 400) = y := by rw [hy]; ring
  simp only [yearCount, hd, h400, h100, h4, hq1, hr1, hq2, hr2, hq3, hr3, hq4, hr4, hyear]

theorem toShort_eq {y : ℤ} (h : -32768 ≤ y) (h' : y ≤ 32767) : toShort y = y :=
  Int.bmod_eq_of_le (by omega) (by omega)

/-- The year count is right at the start of each year, and throughout the years that are not leap years. -/
theorem yearCount_daysBeforeYear {y n : ℤ} (hy : 0 < y) (hy' : y ≤ 32767) (hn : 0 ≤ n) (hn' : n < 365)
    (hleap : IsLeap y → n = 0) : yearCount (daysBeforeYear y + n) = (y, n) := by
  unfold IsLeap at hleap
  suffices hcount : yearCount (daysBeforeYear y + n) = (toShort y, n) by
    rwa [toShort_eq (by omega) (by omega)] at hcount
  unfold daysBeforeYear
  by_cases he : y % 4 = 0
  · by_cases hc : y % 100 = 0
    · by_cases hb : y % 400 = 0
      · -- the start of a group of years comes out as the end of the group before it
        have hzero : n = 0 := hleap (by omega)
        apply yearCount_digits (y / 400 - 1) 4 0 0 <;> omega
      · apply yearCount_digits (y / 400) (y % 400 / 100) 0 0 <;> omega
    · have hzero : n = 0 := hleap (by omega)
      apply yearCount_digits (y / 400) (y % 400 / 100) (y % 100 / 4 - 1) 4 <;> omega
  · apply yearCount_digits (y / 400) (y % 400 / 100) (y % 100 / 4) (y % 4) <;> omega

theorem monthLengths_eq (y : ℤ) :
    monthLengths (isLeap y) = (List.range' 1 11).map fun m => (m, daysInMonth y m) := by
  simp only [monthLengths, daysInMonth, isLeap_iff]
  rfl

theorem toUnsignedChar_day {y : ℤ} {m d : ℕ} (hd : d ≤ daysInMonth y m) : toUnsignedChar d = d := by
  apply Nat.mod_eq_of_lt
  unfold daysInMonth at hd
  split_ifs at hd <;> omega

/-- The tests end at the month when those before it are taken off. -/
theorem findMonth_eq {y : ℤ} {m d : ℕ} (hpos : 1 ≤ d) (hd : d ≤ daysInMonth y m) (k : ℕ) {s : ℕ} (hk : s + k = 12)
    (hsm : s ≤ m) (hm : m ≤ 12) :
    findMonth ((List.range' s k).map fun m => (m, daysInMonth y m)) (∑ i ∈ Finset.Ico s m, daysInMonth y i + d - 1) =
      (m, d) := by
  induction k generalizing s with
  | zero =>
    have hs : s = 12 := hk
    have hlast : m = 12 := by omega
    subst hs hlast
    rw [Finset.Ico_self, Finset.sum_empty, zero_add]
    simp only [List.range'_zero, List.map_nil, findMonth, Nat.sub_add_cancel hpos, toUnsignedChar_day hd]
  | succ k ih =>
    rw [List.range'_succ, List.map_cons, findMonth]
    obtain rfl | hlt := hsm.eq_or_lt
    · rw [Finset.Ico_self, Finset.sum_empty, zero_add, if_pos (by omega), Nat.sub_add_cancel hpos,
        toUnsignedChar_day hd]
    · rw [Finset.sum_eq_sum_Ico_succ_bot hlt, if_neg (by omega)]
      have hrest := ih (s := s + 1) (by omega) hlt
      rwa [show daysInMonth y s + ∑ i ∈ Finset.Ico (s + 1) m, daysInMonth y i + d - 1 - daysInMonth y s =
        ∑ i ∈ Finset.Ico (s + 1) m, daysInMonth y i + d - 1 by omega]

theorem toUnsigned_natCast {n : ℕ} (hn : n < 2 ^ 32) : toUnsigned n = n := by
  unfold toUnsigned
  omega

theorem yearDay_lt_366 (d : Date) : d.yearDay < 366 := by
  have hlt := yearDay_lt d
  unfold daysInYear at hlt
  split_ifs at hlt <;> omega

theorem monthDayOfYear_eq (d : Date) : monthDayOfYear d.year d.yearDay = (d.month, d.day) := by
  have hlt := yearDay_lt_366 d
  rw [monthDayOfYear, toUnsigned_natCast (by omega), monthLengths_eq]
  exact findMonth_eq d.one_le_day d.day_le 11 rfl d.one_le_month d.month_le

theorem daysBeforeCases_sum (y : ℤ) {m : ℕ} (hm : 1 ≤ m) (hm' : m ≤ 12) :
    (((daysBeforeCases (isLeap y)).dropWhile fun c => c.1 != m).map Prod.snd).sum = daysBeforeMonth y m := by
  simp only [daysBeforeCases, isLeap_iff]
  unfold daysBeforeMonth daysInMonth
  interval_cases m <;> split_ifs <;> rfl

theorem dayOfYear_eq (d : Date) : dayOfYear d.year d.month d.day = d.yearDay := by
  have hlt := yearDay_lt_366 d
  have hpos := d.one_le_day
  rw [dayOfYear, daysBeforeCases_sum d.year d.one_le_month d.month_le]
  unfold Date.yearDay at hlt ⊢
  have hsum : (d.day : ℤ) - 1 + daysBeforeMonth d.year d.month = (daysBeforeMonth d.year d.month + d.day - 1 : ℕ) := by
    omega
  rw [hsum]
  exact Int.bmod_eq_of_le (by omega) (by omega)

/-- The epoch of the system clock. -/
def epoch : Date := Date.newYear 1970

/-- The date of a day count. -/
def dateOf (d : ℤ) : Date := epoch.after d

def ofDate (d : Date) : YearMonthDay := ⟨d.year, d.month, d.day⟩

/-- The years that a date can have. -/
def Representable (y : ℤ) : Prop := -32767 ≤ y ∧ y ≤ 32767

instance : DecidablePred Representable := fun y => inferInstanceAs (Decidable (-32767 ≤ y ∧ y ≤ 32767))

theorem daysBeforeYear_dateOf (d : ℤ) :
    daysBeforeYear (dateOf d).year + (dateOf d).yearDay = epochDays + d := by
  have hday := dayNumber_after epoch d
  rw [dayNumber_eq, dayNumber_eq] at hday
  have hepoch : daysBeforeYear epoch.year + epoch.yearDay = epochDays := rfl
  unfold dateOf
  omega

theorem fromSysDays_eq {d : ℤ} (hpos : 0 < (dateOf d).year) (hmax : (dateOf d).year ≤ 32767)
    (hleap : IsLeap (dateOf d).year → (dateOf d).yearDay = 0) : fromSysDays d = ofDate (dateOf d) := by
  have hlt := yearDay_lt (dateOf d)
  have hlt' : (dateOf d).yearDay < 365 := by
    by_cases h : IsLeap (dateOf d).year
    · rw [hleap h]
      decide
    · rwa [daysInYear, if_neg h] at hlt
  have hcount := yearCount_daysBeforeYear hpos hmax (Int.natCast_nonneg (dateOf d).yearDay) (by omega)
    fun h => by rw [hleap h]; rfl
  simp only [fromSysDays, ← daysBeforeYear_dateOf, hcount, monthDayOfYear_eq]
  rfl

/-- The leap years up to the year are those up to the one before, unless it is one. -/
theorem leaps_eq_iff (y : ℤ) :
    y / 4 - y / 100 + y / 400 = (y - 1) / 4 - (y - 1) / 100 + (y - 1) / 400 ↔ ¬ IsLeap y := by
  have h4 : y / 4 - (y - 1) / 4 = if 4 ∣ y then 1 else 0 := by split_ifs <;> omega
  have h100 : y / 100 - (y - 1) / 100 = if 100 ∣ y then 1 else 0 := by split_ifs <;> omega
  have h400 : y / 400 - (y - 1) / 400 = if 400 ∣ y then 1 else 0 := by split_ifs <;> omega
  have hcentury : 100 ∣ y → 4 ∣ y := dvd_trans (by decide)
  have hfour : 400 ∣ y → 100 ∣ y := dvd_trans (by decide)
  unfold IsLeap
  split_ifs at h4 h100 h400 with d4 d100 d400 <;> simp_all <;> omega

/-- The leap day of the year itself is counted for all its days, and before the year 0 the leap days are added. -/
theorem toSysDays_dateOf_iff (d : ℤ) :
    toSysDays (ofDate (dateOf d)) = d ↔ 0 < (dateOf d).year ∧ ¬ IsLeap (dateOf d).year := by
  have hday := daysBeforeYear_dateOf d
  simp only [toSysDays, ofDate, dayOfYear_eq]
  unfold daysBeforeYear at hday
  generalize (dateOf d).year = y at hday ⊢
  obtain hpos | hneg := lt_or_ge 0 y
  · have habs : leapCount y = y / 4 - y / 100 + y / 400 := by
      simp only [leapCount, Int.natAbs_of_nonneg hpos.le]
    rw [habs, and_iff_right hpos, ← leaps_eq_iff y]
    -- the quotients play no part any more
    generalize y / 4 - y / 100 + y / 400 = leaps
    generalize (y - 1) / 4 = a at hday ⊢
    generalize (y - 1) / 100 = b at hday ⊢
    generalize (y - 1) / 400 = c at hday ⊢
    constructor
    · intro h
      linarith
    · intro h
      linarith
  · have hcount : 0 ≤ leapCount y := by
      simp only [leapCount]
      omega
    have hbefore : (y - 1) / 4 - (y - 1) / 100 + (y - 1) / 400 < 0 := by omega
    refine iff_of_false ?_ fun h => absurd h.1 (not_lt.mpr hneg)
    omega

/-- What the conversions of a day count are to do. -/
structure Converts (d : ℤ) : Prop where
  date : fromSysDays d = ofDate (dateOf d)
  back : toSysDays (fromSysDays d) = d
  next : (dateOf d).next.year ≤ 32767 → fromSysDays (d + 1) = ofDate (dateOf d).next

theorem converts_iff {d : ℤ} (hyear : Representable (dateOf d).year) :
    Converts d ↔ 0 < (dateOf d).year ∧ ¬ IsLeap (dateOf d).year := by
  constructor
  · intro h
    have hback := h.back
    rwa [h.date, toSysDays_dateOf_iff] at hback
  · rintro ⟨hpos, hleap⟩
    have hdate := fromSysDays_eq hpos hyear.2 fun h => absurd h hleap
    refine ⟨hdate, ?_, ?_⟩
    · rw [hdate, toSysDays_dateOf_iff]
      exact ⟨hpos, hleap⟩
    · intro hmax
      have hnext : dateOf (d + 1) = (dateOf d).next := epoch.after_add_one d
      rw [← hnext] at hmax ⊢
      apply fromSysDays_eq
      · rw [hnext]
        exact hpos.trans_le (year_le_next_year _)
      · exact hmax
      · -- only the first day of a leap year follows one of a year that is not a leap year
        rw [hnext]
        exact yearDay_next_of_not_isLeap hleap

/-- The years and the days of the month are tested in the same way as for the dates that exist, the months in the
opposite one. -/
theorem ok_iff_exists_iff (x : YearMonthDay) :
    (ok x = true ↔ ∃ date : Date, Representable date.year ∧ x = ofDate date) ↔
      ¬ (Representable x.year ∧ 1 ≤ x.day ∧ x.day ≤ lastDay x.year x.month) := by
  have hok : ok x = true ↔ (Representable x.year ∧ 1 ≤ x.day ∧ x.day ≤ lastDay x.year x.month) ∧
      ¬ (1 ≤ x.month ∧ x.month ≤ 12) := by
    simp only [ok, yearOk, monthOk, Representable, Bool.or_eq_true, Bool.not_eq_true', Bool.and_eq_false_iff,
      Bool.and_eq_true, decide_eq_true_eq, decide_eq_false_iff_not]
    split_ifs with htested hzero
    · simp only [false_iff]
      omega
    · simp only [false_iff]
      omega
    · rw [decide_eq_true_eq]
      omega
  have hexists : (∃ date : Date, Representable date.year ∧ x = ofDate date) ↔
      (Representable x.year ∧ 1 ≤ x.day ∧ x.day ≤ lastDay x.year x.month) ∧ 1 ≤ x.month ∧ x.month ≤ 12 := by
    constructor
    · rintro ⟨date, hyear, rfl⟩
      have hday := date.day_le
      rw [← lastDay_eq] at hday
      exact ⟨⟨hyear, date.one_le_day, hday⟩, date.one_le_month, date.month_le⟩
    · rintro ⟨⟨hyear, hpos, hday⟩, hm, hm'⟩
      rw [lastDay_eq] at hday
      exact ⟨⟨x.year, x.month, x.day, hm, hm', hpos, hday⟩, hyear, rfl⟩
  rw [hok, hexists]
  constructor
  · rintro h hrest
    by_cases hmonth : 1 ≤ x.month ∧ x.month ≤ 12
    · exact (h.mpr ⟨hrest, hmonth⟩).2 hmonth
    · exact hmonth (h.mp ⟨hrest, hmonth⟩).2
  · intro hrest
    exact iff_of_false (fun h => hrest h.1) fun h => hrest h.1

/-- The conversions are right exactly in the years after the year 0 that are not leap years, and `ok` exactly for what
it rejects because of its year or its day. -/
theorem calendar_iff (d : ℤ) (x : YearMonthDay) :
    (Representable (dateOf d).year → (Converts d ↔ 0 < (dateOf d).year ∧ ¬ IsLeap (dateOf d).year)) ∧
    ((ok x = true ↔ ∃ date : Date, Representable date.year ∧ x = ofDate date) ↔
      ¬ (Representable x.year ∧ 1 ≤ x.day ∧ x.day ≤ lastDay x.year x.month)) :=
  ⟨converts_iff, ok_iff_exists_iff x⟩

theorem calendar_epoch : Converts 0 ∧ ¬ ∃ date : Date, Representable date.year ∧ ⟨1970, 2, 29⟩ = ofDate date := by
  obtain ⟨hconverts, hok⟩ := calendar_iff 0 ⟨1970, 2, 29⟩
  constructor
  · apply (hconverts (by decide)).mpr
    exact ⟨by decide, by decide⟩
  · rw [← hok.mpr (by decide)]
    decide

theorem year_dateOf_730 : (dateOf 730).year = 1972 := by decide +kernel

theorem newYear_1972_misconverted :
    ¬ ∀ d, Representable (dateOf d).year → Converts d := by
  intro h
  have hyear : Representable (dateOf 730).year := by
    rw [year_dateOf_730]
    decide
  have hback := (h 730 hyear).back
  rw [show toSysDays (fromSysDays 730) = 731 by decide +kernel] at hback
  cases hback

end Refinement

end XviOs.Chrono
