/-
# The Gregorian calendar

The months of the Gregorian calendar, carried on to all years.  A year is taken to begin
in March, so that a leap day is its last one and the months before February are cut off
a uniform pattern; days and months are counted from the 1st of March of the year 0.

`length_eq` says that these are the months everyone knows.
-/

import Teamstuff.Library.Months
import Mathlib.Tactic.IntervalCases

namespace Gregorian

/-- The first day of a month. -/
def monthStart (month : ℤ) : ℤ :=
  let year := month / 12
  365 * year + year / 4 - year / 100 + year / 400 + (153 * (month % 12) + 2) / 5

/-- The month of a day: it is off by one at most when all months count as equally long. -/
def monthOf (day : ℤ) : ℤ :=
  let month := 4800 * day / 146097
  if day < monthStart month then month - 1
  else if monthStart (month + 1) ≤ day then month + 1
  else month

theorem monthStart_lt (m : ℤ) : monthStart m < monthStart (m + 1) := by
  unfold monthStart
  dsimp only
  omega

/-- The months stay close to their mean length. -/
theorem monthStart_bounds (m : ℤ) : 146097 * m - 4800 * 4 ≤ 4800 * monthStart m ∧
    4800 * monthStart m ≤ 146097 * m + 4800 * 4 := by
  unfold monthStart
  dsimp only
  omega

theorem monthStart_monthOf (d : ℤ) : monthStart (monthOf d) ≤ d := by
  have h := monthStart_bounds (4800 * d / 146097 - 1)
  unfold monthOf
  dsimp only
  split_ifs <;> omega

theorem lt_monthStart_monthOf (d : ℤ) : d < monthStart (monthOf d + 1) := by
  have h := monthStart_bounds (4800 * d / 146097 + 1 + 1)
  unfold monthOf
  dsimp only
  split_ifs with hbefore hafter
  · rwa [sub_add_cancel]
  · omega
  · omega

/-- The Gregorian months. -/
def months : Months where
  start := monthStart
  monthOf := monthOf
  start_lt := monthStart_lt
  start_monthOf := monthStart_monthOf
  lt_start_monthOf := lt_monthStart_monthOf

/-- The day with this date. -/
def civil (year month day : ℤ) : ℤ := monthStart (12 * year + (month - 3)) + (day - 1)

/-- Every fourth year, but of the hundredth ones every fourth only. -/
def IsLeapYear (year : ℤ) : Prop := 4 ∣ year ∧ (¬ 100 ∣ year ∨ 400 ∣ year)

instance (year : ℤ) : Decidable (IsLeapYear year) := inferInstanceAs (Decidable (_ ∧ _))

/-- **The lengths of the months**, from March on; February belongs to the year that is
about to begin. -/
theorem length_eq (m : ℤ) : months.length m =
    if m % 12 = 11 then (if IsLeapYear (m / 12 + 1) then 29 else 28)
    else if m % 12 % 5 % 2 = 0 then 31 else 30 := by
  unfold Months.length IsLeapYear
  change monthStart (m + 1) - monthStart m = _
  unfold monthStart
  dsimp only
  by_cases hlast : m % 12 = 11
  · have hyear : (m + 1) / 12 = m / 12 + 1 := by omega
    have hmonth : (m + 1) % 12 = 0 := by omega
    rw [if_pos hlast, hyear, hmonth, hlast]
    split_ifs <;> omega
  · have hyear : (m + 1) / 12 = m / 12 := by omega
    have hmonth : (m + 1) % 12 = m % 12 + 1 := by omega
    have hlow : 0 ≤ m % 12 := by omega
    have hhigh : m % 12 ≤ 10 := by omega
    rw [if_neg hlast, hyear, hmonth]
    generalize m % 12 = month at hlow hhigh ⊢
    interval_cases month <;> simp

/-- February in a leap year and at the turn of a century, and two well-known days. -/
example : civil 2000 3 1 - civil 2000 2 28 = 2 ∧ civil 1900 3 1 - civil 1900 2 28 = 1 ∧
    civil 2001 1 1 - civil 2000 1 1 = 366 ∧ civil 1970 1 1 = 719468 := by
  decide

end Gregorian
