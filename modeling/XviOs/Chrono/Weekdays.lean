import XviOs.Chrono.Months

namespace XviOs.Chrono

def mod7 (val : ℤ) : ℕ := mod 7 val

/-- `weekday + days`. -/
def weekdayPlus (x : ℕ) (y : ℤ) : ℕ := toUnsignedChar (mod7 (x + y))

/-- `weekday - weekday`. -/
def weekdayMinus (x y : ℕ) : ℤ := if (x : ℤ) - y < 0 then x - y + 7 else x - y

def thursday : ℕ := 4

/-- The weekday of a day count. -/
def weekday (d : ℤ) : ℕ := weekdayPlus thursday d

/-- The index is kept in an `unsigned char`. -/
structure YearMonthWeekday where
  year : ℤ
  month : ℕ
  weekday : ℕ
  index : ℕ
  deriving DecidableEq

namespace YearMonthWeekday

def fromSysDays (d : ℤ) : YearMonthWeekday :=
  let ymd := Chrono.fromSysDays d
  ⟨ymd.year, ymd.month, Chrono.weekday d, toUnsignedChar (toUnsigned (ymd.day - 1) / 7)⟩

def getDay (x : YearMonthWeekday) : ℕ :=
  let firstWd := Chrono.weekday (Chrono.toSysDays ⟨x.year, x.month, 1⟩)
  let days := toUnsigned (weekdayMinus x.weekday firstWd)
  toUnsignedChar (toUnsigned (toUnsigned (days + (x.index - 1) * 7) + 1))

def toSysDays (x : YearMonthWeekday) : ℤ :=
  if x.index ≠ 0 then Chrono.toSysDays ⟨x.year, x.month, x.getDay⟩
  else
    let first : YearMonthWeekday := ⟨x.year, x.month, x.weekday, 1⟩
    Chrono.toSysDays ⟨x.year, x.month, first.getDay⟩ - 7

def ok (x : YearMonthWeekday) : Bool :=
  if !yearOk x.year || !monthOk x.month || !(x.weekday ≤ 6 && 1 ≤ x.index && x.index ≤ 5) then false
  else Chrono.ok ⟨x.year, x.month, x.getDay⟩

end YearMonthWeekday

/-- The day count of a `year_month_weekday_last`. -/
def lastToSysDays (y : ℤ) (m wd : ℕ) : ℤ :=
  let x : YearMonthWeekday := ⟨y, m, wd, 5⟩
  if x.ok then x.toSysDays else x.toSysDays - 7

section Refinement

open Library.Gregorian

/-- The days of the week from Sunday on. The epoch was a Thursday. -/
def dayOfWeek (d : ℤ) : ℕ := ((4 + d) % 7).toNat

/-- What a `year_month_weekday` of a day count is to be. -/
structure Indexes (d : ℤ) : Prop where
  weekday : (YearMonthWeekday.fromSysDays d).weekday = dayOfWeek d
  ordinal : (YearMonthWeekday.fromSysDays d).index = ((dateOf d).day - 1) / 7 + 1
  back : (YearMonthWeekday.fromSysDays d).toSysDays = d

/-- It is the last day of the month with that weekday. -/
structure LastOn (y : ℤ) (m wd : ℕ) (d : ℤ) : Prop where
  year : (dateOf d).year = y
  month : (dateOf d).month = m
  weekday : dayOfWeek d = wd
  last : ∀ d', (dateOf d').year = y → (dateOf d').month = m → dayOfWeek d' = wd → d' ≤ d

/-- The leap days that the code counts too many before the end of a year. -/
def leapExcess (y : ℤ) : ℤ := leapCount y - ((y - 1) / 4 - (y - 1) / 100 + (y - 1) / 400)

theorem weekday_eq (d : ℤ) : weekday d = dayOfWeek d := by
  rw [weekday, weekdayPlus, mod7, mod_eq (by decide) (by decide), toUnsignedChar, Nat.mod_eq_of_lt (by omega)]
  rfl

/-- The day count of a date. -/
def dayCount (date : Date) : ℤ := daysBeforeYear date.year + date.yearDay - epochDays

theorem dateOf_dayCount (date : Date) : dateOf (dayCount date) = date := by
  apply dayNumber_injective
  have hday := daysBeforeYear_dateOf (dayCount date)
  rw [dayNumber_eq, dayNumber_eq, hday]
  unfold dayCount
  omega

theorem dayCount_dateOf (d : ℤ) : dayCount (dateOf d) = d := by
  have hday := daysBeforeYear_dateOf d
  unfold dayCount
  omega

variable {y d : ℤ} {m wd : ℕ}

/-- The day count of the first day of a month. -/
def firstDay (y : ℤ) (m : ℕ) : ℤ := daysBeforeYear y + daysBeforeMonth y m - epochDays

theorem inMonth_iff (hm : 1 ≤ m) (hm' : m ≤ 12) :
    (dateOf d).year = y ∧ (dateOf d).month = m ↔ firstDay y m ≤ d ∧ d < firstDay y m + daysInMonth y m := by
  constructor
  · rintro ⟨rfl, rfl⟩
    have hcount := dayCount_dateOf d
    have hpos := (dateOf d).one_le_day
    have hle := (dateOf d).day_le
    unfold dayCount Date.yearDay at hcount
    unfold firstDay
    omega
  · rintro ⟨hle, hlt⟩
    let date : Date := ⟨y, m, (d - firstDay y m).toNat + 1, hm, hm', by omega, by omega⟩
    have hcount : dayCount date = d := by
      change daysBeforeYear y + ((daysBeforeMonth y m + ((d - firstDay y m).toNat + 1) - 1 : ℕ) : ℤ) - epochDays = d
      unfold firstDay at hle ⊢
      omega
    rw [← hcount, dateOf_dayCount]
    exact ⟨rfl, rfl⟩

theorem day_dateOf (hyear : (dateOf d).year = y) (hmonth : (dateOf d).month = m) :
    ((dateOf d).day : ℤ) = d - firstDay y m + 1 := by
  have hcount := dayCount_dateOf d
  have hpos := (dateOf d).one_le_day
  unfold dayCount Date.yearDay at hcount
  rw [hyear, hmonth] at hcount
  unfold firstDay
  omega

/-- The last such day is one of the last seven days of the month. -/
theorem lastOn_iff (hm : 1 ≤ m) (hm' : m ≤ 12) :
    LastOn y m wd d ↔
      firstDay y m + daysInMonth y m - 7 ≤ d ∧ d < firstDay y m + daysInMonth y m ∧ dayOfWeek d = wd := by
  have hlen : 28 ≤ daysInMonth y m := by
    unfold daysInMonth
    split_ifs <;> decide
  constructor
  · rintro ⟨hyear, hmonth, hwd, hlast⟩
    obtain ⟨hle, hlt⟩ := (inMonth_iff hm hm').mp ⟨hyear, hmonth⟩
    refine ⟨?_, hlt, hwd⟩
    by_contra! hearly
    -- the day is there a week later again
    obtain ⟨hyear', hmonth'⟩ := (inMonth_iff (y := y) (d := d + 7) hm hm').mpr ⟨by omega, by omega⟩
    have hagain := hlast (d + 7) hyear' hmonth' (by unfold dayOfWeek at hwd ⊢; omega)
    omega
  · rintro ⟨hle, hlt, hwd⟩
    obtain ⟨hyear, hmonth⟩ := (inMonth_iff hm hm').mpr ⟨by omega, hlt⟩
    refine ⟨hyear, hmonth, hwd, ?_⟩
    intro d' hyear' hmonth' hwd'
    obtain ⟨hle', hlt'⟩ := (inMonth_iff hm hm').mp ⟨hyear', hmonth'⟩
    unfold dayOfWeek at hwd hwd'
    omega

/-- A day that is counted on from the start of a month, which the month need not have. -/
theorem toSysDays_month (hm : 1 ≤ m) (hm' : m ≤ 12) {day : ℕ} (hday : 1 ≤ day) (hday' : day < 2 ^ 8) :
    toSysDays ⟨y, m, day⟩ = firstDay y m + leapExcess y + day - 1 := by
  have hbefore := daysBeforeMonth_mono y (hm'.trans (Nat.le_succ 12))
  rw [daysBeforeMonth_thirteen] at hbefore
  have hlt : daysBeforeMonth y m ≤ 366 := by
    apply hbefore.trans
    unfold daysInYear
    split_ifs <;> decide
  have hyear : dayOfYear y m day = day - 1 + daysBeforeMonth y m := by
    rw [dayOfYear, daysBeforeCases_sum y hm hm']
    exact Int.bmod_eq_of_le (by omega) (by omega)
  simp only [toSysDays, hyear]
  unfold firstDay leapExcess daysBeforeYear
  omega

theorem weekdayMinus_eq {x k : ℕ} (hx : x ≤ 6) (hk : k ≤ 6) :
    0 ≤ weekdayMinus x k ∧ weekdayMinus x k < 7 ∧ (k + weekdayMinus x k) % 7 = x := by
  unfold weekdayMinus
  split_ifs <;> omega

/-- The day is in the fifth week from the first such weekday on, or so it seems, and a week is taken off always, for
`ok` rejects every month that there is. -/
theorem lastToSysDays_eq (hm : 1 ≤ m) (hm' : m ≤ 12) (hwd : wd ≤ 6) : ∃ δ : ℤ, 0 ≤ δ ∧ δ < 7 ∧
    lastToSysDays y m wd = firstDay y m + leapExcess y + δ + 21 ∧ dayOfWeek (lastToSysDays y m wd) = wd := by
  have hfirst : toSysDays ⟨y, m, 1⟩ = firstDay y m + leapExcess y := by
    rw [toSysDays_month hm hm' (by decide) (by decide)]
    omega
  have hlt : dayOfWeek (firstDay y m + leapExcess y) ≤ 6 := by
    unfold dayOfWeek
    omega
  obtain ⟨hpos, hlt', hsum⟩ := weekdayMinus_eq hwd hlt
  have hday : (⟨y, m, wd, 5⟩ : YearMonthWeekday).getDay =
      (weekdayMinus wd (dayOfWeek (firstDay y m + leapExcess y))).toNat + 29 := by
    simp only [YearMonthWeekday.getDay, hfirst, weekday_eq]
    unfold toUnsigned toUnsignedChar
    omega
  have hok : (⟨y, m, wd, 5⟩ : YearMonthWeekday).ok = false := by
    have hmonth : monthOk m = true := by simp [monthOk, hm, hm']
    simp [YearMonthWeekday.ok, ok, hmonth]
  have hlast : lastToSysDays y m wd =
      firstDay y m + leapExcess y + weekdayMinus wd (dayOfWeek (firstDay y m + leapExcess y)) + 21 := by
    simp only [lastToSysDays, hok, YearMonthWeekday.toSysDays, hday]
    rw [if_neg Bool.false_ne_true, if_pos (by decide), toSysDays_month hm hm' (by omega) (by omega)]
    omega
  refine ⟨_, hpos, hlt', hlast, ?_⟩
  rw [hlast]
  unfold dayOfWeek at hsum ⊢
  omega

theorem lastOn_lastToSysDays_iff (hm : 1 ≤ m) (hm' : m ≤ 12) (hwd : wd ≤ 6) :
    LastOn y m wd (lastToSysDays y m wd) ↔
      ∃ c, LastOn y m wd c ∧ 22 + leapExcess y ≤ (dateOf c).day ∧ (dateOf c).day ≤ 28 + leapExcess y := by
  obtain ⟨δ, hpos, hlt, hlast, hweekday⟩ := lastToSysDays_eq (y := y) hm hm' hwd
  constructor
  · intro h
    refine ⟨_, h, ?_, ?_⟩
    · rw [day_dateOf h.year h.month]
      omega
    · rw [day_dateOf h.year h.month]
      omega
  · rintro ⟨c, hc, hle, hle'⟩
    rw [day_dateOf hc.year hc.month] at hle hle'
    -- both are in the same seven days
    have hsame : lastToSysDays y m wd = c := by
      have hwdc := hc.weekday
      unfold dayOfWeek at hweekday hwdc
      omega
    rwa [hsame]

theorem yearCount_neg (d : ℤ) : (yearCount (-d)).2 = -(yearCount d).2 := by
  simp only [yearCount, Int.neg_tmod]

/-- What may be left over, with a minus sign, on a day of a year before the year 0. -/
def daysLeft (n : ℕ) : List ℕ := if n ≤ 1 then [1 - n] else if n = 2 then [364, 0] else [366 - n, 367 - n]

theorem yearCount_left (a b c e : ℤ) {d n : ℤ} (ha : 0 ≤ a) (hb : 0 ≤ b) (hc : 0 ≤ c) (he : 0 ≤ e) (hn : 0 ≤ n)
    (hn' : n < 365) (he' : 365 * e + n < 1461) (hc' : 1461 * c + (365 * e + n) < 36524)
    (hb' : 36524 * b + (1461 * c + (365 * e + n)) < 146097)
    (hd : d = 146097 * a + (36524 * b + (1461 * c + (365 * e + n)))) : (yearCount d).2 = n :=
  congrArg Prod.snd (yearCount_digits a b c e ha hb hc he hn hn' he' hc' hb' hd rfl)

theorem yearCount_negative {y : ℤ} {n : ℕ} (hy : y ≤ 0) (hn : n < 366) (hzero : y = 0 → n ≤ 1) :
    ∃ k ∈ daysLeft n, (yearCount (daysBeforeYear y + n)).2 = -(k : ℤ) := by
  suffices hcount : ∃ k ∈ daysLeft n, (yearCount (-(daysBeforeYear y + n))).2 = (k : ℤ) by
    obtain ⟨k, hk, hcount⟩ := hcount
    refine ⟨k, hk, ?_⟩
    rw [← neg_neg (daysBeforeYear y + n), yearCount_neg, hcount]
  unfold daysBeforeYear daysLeft
  split_ifs with hone htwo
  · refine ⟨1 - n, List.mem_singleton.mpr rfl, ?_⟩
    apply yearCount_left (-y / 400) (-y % 400 / 100) (-y % 100 / 4) (-y % 4) <;> omega
  · subst htwo
    by_cases he : -y % 4 = 0
    · by_cases hc : -y % 100 = 0
      · by_cases hb : -y % 400 = 0
        · refine ⟨0, by decide, ?_⟩
          apply yearCount_left (-y / 400 - 1) 4 0 0 <;> omega
        · refine ⟨364, by decide, ?_⟩
          apply yearCount_left (-y / 400) (-y % 400 / 100 - 1) 24 3 <;> omega
      · refine ⟨0, by decide, ?_⟩
        apply yearCount_left (-y / 400) (-y % 400 / 100) (-y % 100 / 4 - 1) 4 <;> omega
    · refine ⟨364, by decide, ?_⟩
      apply yearCount_left (-y / 400) (-y % 400 / 100) (-y % 100 / 4) (-y % 4 - 1) <;> omega
  · have hfirst : 366 - n ∈ [366 - n, 367 - n] := List.mem_cons_self
    have hsecond : 367 - n ∈ [366 - n, 367 - n] := List.mem_cons_of_mem _ List.mem_cons_self
    by_cases he : -y % 4 = 0
    · by_cases hc : -y % 100 = 0
      · by_cases hb : -y % 400 = 0
        · refine ⟨367 - n, hsecond, ?_⟩
          apply yearCount_left (-y / 400 - 1) 3 24 3 <;> omega
        · refine ⟨366 - n, hfirst, ?_⟩
          apply yearCount_left (-y / 400) (-y % 400 / 100 - 1) 24 3 <;> omega
      · refine ⟨367 - n, hsecond, ?_⟩
        apply yearCount_left (-y / 400) (-y % 400 / 100) (-y % 100 / 4 - 1) 3 <;> omega
    · refine ⟨366 - n, hfirst, ?_⟩
      apply yearCount_left (-y / 400) (-y % 400 / 100) (-y % 100 / 4) (-y % 4 - 1) <;> omega

/-- Behind the first day of a leap year the year count is a day too low. -/
theorem yearCount_leap {y : ℤ} {n : ℕ} (hy : 0 ≤ y) (hy' : y ≤ 32767) (hleap : IsLeap y) (hn : 1 ≤ n) (hn' : n < 366) :
    yearCount (daysBeforeYear y + n) = (y, ((n - 1 : ℕ) : ℤ)) := by
  unfold IsLeap at hleap
  suffices hcount : yearCount (daysBeforeYear y + n) = (toShort y, ((n - 1 : ℕ) : ℤ)) by
    rwa [toShort_eq (by omega) (by omega)] at hcount
  unfold daysBeforeYear
  apply yearCount_digits (y / 400) (y % 400 / 100) (y % 100 / 4) 0 <;> omega

/-- The index of a day of the month. -/
def indexOf (day : ℕ) : ℕ := toUnsignedChar (toUnsigned (day - 1) / 7)

theorem indexOf_before : ∀ leap : Bool, ∀ n < 366, 1 ≤ n →
    indexOf (findMonth (monthLengths leap) (n - 1)).2 ≠ ((findMonth (monthLengths leap) n).2 - 1) / 7 + 1 := by
  decide +kernel

theorem indexOf_left : ∀ leap leap' : Bool, ∀ n < 366, ∀ k ∈ daysLeft n,
    indexOf (findMonth (monthLengths leap') (toUnsigned (-k))).2 ≠ ((findMonth (monthLengths leap) n).2 - 1) / 7 + 1 := by
  decide +kernel

/-- The index is that of another week always. -/
theorem index_fromSysDays_ne {d : ℤ} (hyear : Representable (dateOf d).year) :
    (YearMonthWeekday.fromSysDays d).index ≠ ((dateOf d).day - 1) / 7 + 1 := by
  have hindex : (YearMonthWeekday.fromSysDays d).index = indexOf (fromSysDays d).day := rfl
  have hlt := yearDay_lt_366 (dateOf d)
  have hmonth := monthDayOfYear_eq (dateOf d)
  rw [monthDayOfYear, toUnsigned_natCast (by omega)] at hmonth
  have hday : (dateOf d).day = (findMonth (monthLengths (isLeap (dateOf d).year)) (dateOf d).yearDay).2 := by
    rw [hmonth]
  have hcode : (fromSysDays d).day =
      (findMonth (monthLengths (isLeap (yearCount (epochDays + d)).1)) (toUnsigned (yearCount (epochDays + d)).2)).2 := rfl
  rw [← daysBeforeYear_dateOf] at hcode
  by_cases hfirst : 0 < (dateOf d).year ∧ (IsLeap (dateOf d).year → (dateOf d).yearDay = 0)
  · have hpos := (dateOf d).one_le_day
    have hle := (dateOf d).day_le
    rw [hindex, fromSysDays_eq hfirst.1 hyear.2 hfirst.2]
    change toUnsignedChar (toUnsigned ((dateOf d).day - 1) / 7) ≠ _
    have hlt' : daysInMonth (dateOf d).year (dateOf d).month ≤ 31 := by
      unfold daysInMonth
      split_ifs <;> decide
    unfold toUnsignedChar toUnsigned
    omega
  by_cases hleap : 0 ≤ (dateOf d).year ∧ IsLeap (dateOf d).year ∧ 1 ≤ (dateOf d).yearDay
  · obtain ⟨hpos, hleap, hn⟩ := hleap
    rw [yearCount_leap hpos hyear.2 hleap hn hlt, toUnsigned_natCast (by omega)] at hcode
    rw [hindex, hcode, hday]
    exact indexOf_before _ _ hlt hn
  · have hneg : (dateOf d).year ≤ 0 := by
      by_contra! hpos
      by_cases h : IsLeap (dateOf d).year
      · exact hfirst ⟨hpos, fun _ => by by_contra hne; exact hleap ⟨hpos.le, h, by omega⟩⟩
      · exact hfirst ⟨hpos, fun h' => absurd h' h⟩
    have hzero : (dateOf d).year = 0 → (dateOf d).yearDay ≤ 1 := by
      intro h
      rw [h] at hleap
      by_contra! hlt'
      exact hleap ⟨le_refl _, by decide, by omega⟩
    obtain ⟨k, hk, hcount⟩ := yearCount_negative hneg hlt hzero
    rw [hcount] at hcode
    rw [hindex, hcode, hday]
    exact indexOf_left _ _ _ hlt k hk

/-- The index counts from zero, so that the ordinal is always wrong. The last such weekday is the one that is a week
before the fifth after the first. -/
theorem weekdays_iff (d y : ℤ) (m wd : ℕ) :
    (Representable (dateOf d).year → ¬ Indexes d) ∧
    (1 ≤ m → m ≤ 12 → wd ≤ 6 →
      (LastOn y m wd (lastToSysDays y m wd) ↔
        ∃ c, LastOn y m wd c ∧ 22 + leapExcess y ≤ (dateOf c).day ∧ (dateOf c).day ≤ 28 + leapExcess y)) :=
  ⟨fun hyear h => index_fromSysDays_ne hyear h.ordinal, fun hm hm' hwd => lastOn_lastToSysDays_iff hm hm' hwd⟩

/-- The last Sunday of February 1970 is the fourth. -/
theorem weekdays_1970 : ¬ Indexes 0 ∧ LastOn 1970 2 0 (lastToSysDays 1970 2 0) := by
  obtain ⟨hnot, hlast⟩ := weekdays_iff 0 1970 2 0
  refine ⟨hnot (by decide), (hlast (by decide) (by decide) (by decide)).mpr ?_⟩
  have hfirst : firstDay 1970 2 = 31 := by decide
  have hlen : daysInMonth 1970 2 = 28 := by decide
  have hc : LastOn 1970 2 0 52 := by
    rw [lastOn_iff (by decide) (by decide), hfirst, hlen]
    decide
  refine ⟨52, hc, ?_, ?_⟩
  · rw [day_dateOf hc.year hc.month, hfirst]
    decide
  · rw [day_dateOf hc.year hc.month, hfirst]
    decide

/-- The first of a month has the index zero. -/
theorem epoch_misindexed : ¬ ∀ d, Representable (dateOf d).year → Indexes d := by
  intro h
  have hordinal := (h 0 (by decide)).ordinal
  rw [show (YearMonthWeekday.fromSysDays 0).index = 0 by decide] at hordinal
  cases hordinal

end Refinement

end XviOs.Chrono
