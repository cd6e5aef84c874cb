import Mathlib.Tactic
import Mathlib.GroupTheory.Perm.Basic
import Mathlib.Algebra.BigOperators.Intervals

namespace XviOs.Library.Gregorian

/-- Leap years of the proleptic Gregorian calendar. The year 0 is the one before the year 1. -/
def IsLeap (y : ℤ) : Prop := 4 ∣ y ∧ (¬ 100 ∣ y ∨ 400 ∣ y)

instance : DecidablePred IsLeap := fun y => inferInstanceAs (Decidable (4 ∣ y ∧ (¬ 100 ∣ y ∨ 400 ∣ y)))

def daysInMonth (y : ℤ) (m : ℕ) : ℕ :=
  if m = 2 then if IsLeap y then 29 else 28
  else if m = 4 ∨ m = 6 ∨ m = 9 ∨ m = 11 then 30
  else 31

theorem one_le_daysInMonth (y : ℤ) (m : ℕ) : 1 ≤ daysInMonth y m := by
  unfold daysInMonth
  split_ifs <;> decide

/-- The dates that exist. -/
@[ext]
structure Date where
  year : ℤ
  month : ℕ
  day : ℕ
  one_le_month : 1 ≤ month
  month_le : month ≤ 12
  one_le_day : 1 ≤ day
  day_le : day ≤ daysInMonth year month

namespace Date

def newYear (y : ℤ) : Date :=
  ⟨y, 1, 1, Nat.le_refl 1, Nat.le_add_left 1 11, Nat.le_refl 1, one_le_daysInMonth _ _⟩

def next (d : Date) : Date :=
  if h : d.day < daysInMonth d.year d.month then
    ⟨d.year, d.month, d.day + 1, d.one_le_month, d.month_le, Nat.le_add_left 1 _, h⟩
  else if h' : d.month < 12 then
    ⟨d.year, d.month + 1, 1, Nat.le_add_left 1 _, h', Nat.le_refl 1, one_le_daysInMonth _ _⟩
  else ⟨d.year + 1, 1, 1, Nat.le_refl 1, Nat.le_add_left 1 11, Nat.le_refl 1, one_le_daysInMonth _ _⟩

def previous (d : Date) : Date :=
  if h : 1 < d.day then
    ⟨d.year, d.month, d.day - 1, d.one_le_month, d.month_le, Nat.le_sub_one_of_lt h,
      (Nat.sub_le _ _).trans d.day_le⟩
  else if h' : 1 < d.month then
    ⟨d.year, d.month - 1, daysInMonth d.year (d.month - 1), Nat.le_sub_one_of_lt h',
      (Nat.sub_le _ _).trans d.month_le, one_le_daysInMonth _ _, Nat.le_refl _⟩
  else ⟨d.year - 1, 12, 31, Nat.le_add_left 1 11, Nat.le_refl 12, Nat.le_add_left 1 30, Nat.le_refl 31⟩

theorem previous_next (d : Date) : d.next.previous = d := by
  have h1 := d.one_le_day
  have h2 := d.one_le_month
  have h3 := d.day_le
  have h4 := d.month_le
  unfold next
  split_ifs with hday hmonth
  · have h : 1 < d.day + 1 := by omega
    simp only [previous, dif_pos h, Nat.add_sub_cancel]
  · have h : 1 < d.month + 1 := by omega
    simp only [previous, lt_irrefl, dite_false, dif_pos h, Nat.add_sub_cancel]
    ext
    · rfl
    · rfl
    · exact Nat.le_antisymm (Nat.le_of_not_lt hday) h3
  · have hm : d.month = 12 := by omega
    have hd : daysInMonth d.year d.month = 31 := by rw [hm]; rfl
    simp only [previous, lt_irrefl, dite_false, add_sub_cancel_right]
    ext
    · rfl
    · exact hm.symm
    · exact hd.symm.trans (Nat.le_antisymm (Nat.le_of_not_lt hday) h3)

theorem next_previous (d : Date) : d.previous.next = d := by
  have h1 := d.one_le_day
  have h2 := d.one_le_month
  have h3 := d.day_le
  have h4 := d.month_le
  unfold previous
  split_ifs with hday hmonth
  · have h : d.day - 1 < daysInMonth d.year d.month := by omega
    simp only [next, dif_pos h]
    ext
    · rfl
    · rfl
    · exact Nat.sub_add_cancel h1
  · have h : d.month - 1 < 12 := by omega
    simp only [next, lt_irrefl, dite_false, dif_pos h]
    ext
    · rfl
    · exact Nat.sub_add_cancel h2
    · exact Nat.le_antisymm h1 (Nat.le_of_not_lt hday)
  · have h : ¬ 31 < daysInMonth (d.year - 1) 12 := lt_irrefl 31
    simp only [next, dif_neg h, lt_irrefl, dite_false]
    ext
    · exact Int.sub_add_cancel d.year 1
    · exact Nat.le_antisymm h2 (Nat.le_of_not_lt hmonth)
    · exact Nat.le_antisymm h1 (Nat.le_of_not_lt hday)

/-- To each date the following one. -/
def succ : Equiv.Perm Date := ⟨next, previous, previous_next, next_previous⟩

/-- The date that is so many days after another one, or before it. -/
def after (d : Date) (n : ℤ) : Date := (succ ^ n) d

theorem after_zero (d : Date) : d.after 0 = d := rfl

theorem after_add_one (d : Date) (n : ℤ) : d.after (n + 1) = (d.after n).next := by
  rw [after, add_comm, zpow_one_add]
  rfl

end Date

def daysBeforeMonth (y : ℤ) (m : ℕ) : ℕ := ∑ i ∈ Finset.Ico 1 m, daysInMonth y i

def daysInYear (y : ℤ) : ℕ := if IsLeap y then 366 else 365

/-- The days from the start of the year 1 to that of another one, and a year. -/
def daysBeforeYear (y : ℤ) : ℤ := 365 * y + (y - 1) / 4 - (y - 1) / 100 + (y - 1) / 400

theorem daysBeforeYear_succ (y : ℤ) : daysBeforeYear (y + 1) = daysBeforeYear y + daysInYear y := by
  unfold daysBeforeYear daysInYear
  split_ifs with h
  · unfold IsLeap at h
    omega
  · unfold IsLeap at h
    omega

theorem daysBeforeMonth_succ (y : ℤ) {m : ℕ} (hm : 1 ≤ m) :
    daysBeforeMonth y (m + 1) = daysBeforeMonth y m + daysInMonth y m :=
  Finset.sum_Ico_succ_top hm _

theorem daysBeforeMonth_thirteen (y : ℤ) : daysBeforeMonth y 13 = daysInYear y := by
  unfold daysBeforeMonth daysInYear daysInMonth
  split_ifs <;> rfl

/-- A count of the days that goes up by one from each date to the next. -/
def dayNumber (d : Date) : ℤ := daysBeforeYear d.year + daysBeforeMonth d.year d.month + d.day

theorem dayNumber_next (d : Date) : dayNumber d.next = dayNumber d + 1 := by
  have h3 := d.day_le
  have h4 := d.month_le
  unfold Date.next
  split_ifs with hday hmonth
  · simp only [dayNumber]
    omega
  · simp only [dayNumber, daysBeforeMonth_succ d.year d.one_le_month]
    omega
  · have hm : d.month = 12 := by omega
    have hyear := daysBeforeMonth_thirteen d.year
    rw [daysBeforeMonth_succ d.year (by decide), ← hm] at hyear
    simp only [dayNumber, daysBeforeYear_succ, ← hyear]
    have hfirst : daysBeforeMonth (d.year + 1) 1 = 0 := rfl
    omega

theorem dayNumber_after (d : Date) (n : ℤ) : dayNumber (d.after n) = dayNumber d + n := by
  induction n with
  | zero => rw [d.after_zero, add_zero]
  | succ n ih => rw [d.after_add_one, dayNumber_next, ih, add_assoc]
  | pred n ih =>
    have hnext := d.after_add_one (-n - 1)
    rw [Int.sub_add_cancel] at hnext
    have hday := dayNumber_next (d.after (-n - 1))
    rw [← hnext, ih] at hday
    omega

/-- The day of the year, from zero on. -/
def Date.yearDay (d : Date) : ℕ := daysBeforeMonth d.year d.month + d.day - 1

theorem dayNumber_eq (d : Date) : dayNumber d = daysBeforeYear d.year + d.yearDay + 1 := by
  have h1 := d.one_le_day
  unfold dayNumber Date.yearDay
  omega

theorem daysBeforeMonth_mono (y : ℤ) : Monotone (daysBeforeMonth y) :=
  fun _ _ h => Finset.sum_le_sum_of_subset (Finset.Ico_subset_Ico_right h)

theorem yearDay_lt (d : Date) : d.yearDay < daysInYear d.year := by
  have hday := d.day_le
  have hpos := d.one_le_day
  have hyear := daysBeforeMonth_mono d.year (Nat.succ_le_succ d.month_le)
  rw [daysBeforeMonth_succ d.year d.one_le_month, daysBeforeMonth_thirteen] at hyear
  unfold Date.yearDay
  omega

theorem year_le_next_year (d : Date) : d.year ≤ d.next.year := by
  unfold Date.next
  split_ifs
  · exact le_refl _
  · exact le_refl _
  · exact Int.le_add_one (le_refl _)

theorem daysBeforeYear_mono : Monotone daysBeforeYear := by
  apply monotone_int_of_le_succ
  intro y
  rw [daysBeforeYear_succ]
  omega

theorem dayNumber_lt_of_year_lt {d d' : Date} (h : d.year < d'.year) : dayNumber d < dayNumber d' := by
  have hlt := yearDay_lt d
  have hmono := daysBeforeYear_mono h
  rw [daysBeforeYear_succ] at hmono
  rw [dayNumber_eq, dayNumber_eq]
  omega

theorem dayNumber_lt_of_month_lt {d d' : Date} (hyear : d.year = d'.year) (h : d.month < d'.month) :
    dayNumber d < dayNumber d' := by
  have hday := d.day_le
  have hpos := d'.one_le_day
  have hmono := daysBeforeMonth_mono d.year (Nat.succ_le_of_lt h)
  rw [Nat.succ_eq_add_one, daysBeforeMonth_succ d.year d.one_le_month] at hmono
  unfold dayNumber
  rw [← hyear]
  omega

theorem dayNumber_injective : Function.Injective dayNumber := by
  intro d d' h
  have hyear : d.year = d'.year := by
    by_contra hne
    obtain hlt | hlt := lt_or_gt_of_ne hne
    · exact (dayNumber_lt_of_year_lt hlt).ne h
    · exact (dayNumber_lt_of_year_lt hlt).ne' h
  have hmonth : d.month = d'.month := by
    by_contra hne
    obtain hlt | hlt := lt_or_gt_of_ne hne
    · exact (dayNumber_lt_of_month_lt hyear hlt).ne h
    · exact (dayNumber_lt_of_month_lt hyear.symm hlt).ne' h
  unfold dayNumber at h
  rw [hyear, hmonth] at h
  exact Date.ext hyear hmonth (by omega)

/-- A leap year that follows on a date of another year starts there. -/
theorem yearDay_next_of_not_isLeap {d : Date} (h : ¬ IsLeap d.year) (hnext : IsLeap d.next.year) :
    d.next.yearDay = 0 := by
  unfold Date.next at hnext ⊢
  split_ifs at hnext ⊢ with hday hmonth
  · exact absurd hnext h
  · exact absurd hnext h
  · rfl

end XviOs.Library.Gregorian
