/-
# Calendars

What `Extensions.swift` uses of Foundation's `Calendar`: `dateComponents` for one unit, and
`date(byAdding:value:to:)`, which says what it counts.  For a date in the past it is the
greatest number of units that can be added to the date without passing the present
(`le_dateComponents`).

`gregorian` is the Gregorian calendar at a fixed distance from UTC.  Weeks, days, hours,
minutes and seconds are so many seconds each; a month on is the same time of the same day
of the next month, or of its last day.
-/

import Teamstuff.Model.Coding
import Teamstuff.Library.Gregorian
import Mathlib.Algebra.Order.Floor.Ring
import Mathlib.Data.Fintype.Basic
import Mathlib.Data.Rat.Floor

namespace Teamstuff

/-- The units of `Calendar.Component` that are counted. -/
inductive CalendarUnit
  | year
  | month
  | weekOfYear
  | day
  | hour
  | minute
  | second
deriving DecidableEq, Repr

instance : Fintype CalendarUnit where
  elems := {.year, .month, .weekOfYear, .day, .hour, .minute, .second}
  complete := fun u => by cases u <;> decide

/-- `Calendar`. -/
structure Calendar where
  adding : CalendarUnit → ℤ → Date → Date
  dateComponents : CalendarUnit → Date → Date → ℤ
  adding_zero : ∀ u d, adding u 0 d = d
  le_dateComponents : ∀ u {d now : Date}, d ≤ now → ∀ n : ℤ,
    n ≤ dateComponents u d now ↔ adding u n d ≤ now

namespace Calendar

variable (cal : Calendar) {u : CalendarUnit} {d now now' : Date}

/-- Of a past date no negative amount has passed. -/
theorem dateComponents_nonneg (hd : d ≤ now) : 0 ≤ cal.dateComponents u d now := by
  rwa [cal.le_dateComponents u hd, cal.adding_zero]

/-- The count goes on with the time. -/
theorem dateComponents_mono (hd : d ≤ now) (hnow : now ≤ now') :
    cal.dateComponents u d now ≤ cal.dateComponents u d now' := by
  rw [cal.le_dateComponents u (le_trans hd hnow)]
  exact le_trans ((cal.le_dateComponents u hd _).1 le_rfl) hnow

/-- Less than one unit has passed if one more is still to come. -/
theorem dateComponents_le_zero_iff (hd : d ≤ now) :
    cal.dateComponents u d now ≤ 0 ↔ now < cal.adding u 1 d := by
  rw [← not_le, ← cal.le_dateComponents u hd, not_le]
  exact Int.lt_add_one_iff.symm

/-- A unit is counted from the instant it is full. -/
theorem dateComponents_eq_of_le {n : ℤ} (hd : d ≤ now) (hnow : now ≤ now')
    (hcount : cal.dateComponents u d now' = n) (hfull : cal.adding u n d ≤ now) :
    cal.dateComponents u d now = n :=
  le_antisymm (hcount ▸ cal.dateComponents_mono hd hnow) ((cal.le_dateComponents u hd n).2 hfull)

end Calendar

/-! ### The Gregorian calendar -/

/-- How long a unit is: so many months, or so many seconds. -/
inductive Span
  | months (n : ℤ)
  | seconds (x : ℚ)

/-- The length of a unit. -/
def CalendarUnit.span : CalendarUnit → Span
  | .year => .months 12
  | .month => .months 1
  | .weekOfYear => .seconds 604800
  | .day => .seconds 86400
  | .hour => .seconds 3600
  | .minute => .seconds 60
  | .second => .seconds 1

namespace GregorianCalendar

open Gregorian

/-- The day of a date; the reference date is the 1st of January 2001. -/
def dayNumber (offset : ℚ) (d : Date) : ℤ := ⌊(d + offset) / 86400⌋ + civil 2001 1 1

/-- The seconds since midnight. -/
def timeOfDay (offset : ℚ) (d : Date) : ℚ := d + offset - 86400 * ⌊(d + offset) / 86400⌋

/-- The same time `n` months on. -/
def addingMonths (offset : ℚ) (n : ℤ) (d : Date) : Date :=
  d + 86400 * ((months.addMonths n (dayNumber offset d) - dayNumber offset d : ℤ) : ℚ)

/-- From month to month. -/
def monthsApart (offset : ℚ) (d now : Date) : ℤ :=
  months.monthOf (dayNumber offset now) - months.monthOf (dayNumber offset d)

/-- The full months between two dates, those back in time being negative. -/
def fullMonths (offset : ℚ) (d now : Date) : ℤ :=
  let n := monthsApart offset d now
  if d ≤ now then (if addingMonths offset n d ≤ now then n else n - 1)
  else if now ≤ addingMonths offset n d then n else n + 1

/-- `date(byAdding:value:to:)`. -/
def adding (offset : ℚ) (u : CalendarUnit) (n : ℤ) (d : Date) : Date :=
  match u.span with
  | .months k => addingMonths offset (k * n) d
  | .seconds x => d + n * x

/-- `dateComponents(_:from:to:)`, for one unit. -/
def dateComponents (offset : ℚ) (u : CalendarUnit) (d now : Date) : ℤ :=
  match u.span with
  | .months k => (fullMonths offset d now).tdiv k
  | .seconds x => if d ≤ now then ⌊(now - d) / x⌋ else -⌊(d - now) / x⌋

section Dates

variable (offset : ℚ) {d e now : Date} {k n : ℤ}

/-- A day starts at midnight. -/
theorem timeOfDay_nonneg (d : Date) : 0 ≤ timeOfDay offset d := by
  have h := Int.floor_le ((d + offset) / 86400)
  rw [le_div_iff₀ (by norm_num)] at h
  unfold timeOfDay
  linarith

/-- It ends before the next. -/
theorem timeOfDay_lt (d : Date) : timeOfDay offset d < 86400 := by
  have h := Int.lt_floor_add_one ((d + offset) / 86400)
  rw [div_lt_iff₀ (by norm_num)] at h
  unfold timeOfDay
  linarith

/-- A date, put together again. -/
theorem eq_dayNumber_timeOfDay (d : Date) :
    d = 86400 * ((dayNumber offset d - civil 2001 1 1 : ℤ) : ℚ) + timeOfDay offset d - offset := by
  unfold dayNumber timeOfDay
  push_cast
  ring

/-- **Dates go by their days**, and on one day by the time. -/
theorem lt_iff : d < e ↔ dayNumber offset d < dayNumber offset e ∨
    dayNumber offset d = dayNumber offset e ∧ timeOfDay offset d < timeOfDay offset e := by
  have hd := eq_dayNumber_timeOfDay offset d
  have he := eq_dayNumber_timeOfDay offset e
  have hd0 := timeOfDay_nonneg offset d
  have he0 := timeOfDay_nonneg offset e
  have hd1 := timeOfDay_lt offset d
  have he1 := timeOfDay_lt offset e
  push_cast at hd he
  rcases lt_trichotomy (dayNumber offset d) (dayNumber offset e) with hlt | heq | hlt
  · have hle : (dayNumber offset d : ℚ) + 1 ≤ dayNumber offset e := by exact_mod_cast hlt
    exact iff_of_true (by linarith) (Or.inl hlt)
  · rw [heq] at hd ⊢
    constructor
    · exact fun h => Or.inr ⟨rfl, by linarith⟩
    · rintro (h | ⟨_, h⟩)
      · exact absurd h (lt_irrefl _)
      · linarith
  · have hle : (dayNumber offset e : ℚ) + 1 ≤ dayNumber offset d := by exact_mod_cast hlt
    refine iff_of_false (by linarith) ?_
    rintro (h | ⟨h, _⟩) <;> omega

/-- A later date is on no earlier day. -/
theorem dayNumber_mono (h : d ≤ e) : dayNumber offset d ≤ dayNumber offset e := by
  by_contra hlt
  exact absurd h (not_le.2 ((lt_iff offset).2 (Or.inl (not_le.1 hlt))))

/-- Whole days added. -/
theorem floor_addingMonths (k : ℤ) : ⌊(d + 86400 * (k : ℚ) + offset) / 86400⌋ =
    ⌊(d + offset) / 86400⌋ + k := by
  have h : (d + 86400 * (k : ℚ) + offset) / 86400 = (d + offset) / 86400 + k := by ring
  rw [h, Int.floor_add_intCast]

/-- The day is that of the month. -/
@[simp] theorem dayNumber_addingMonths (n : ℤ) (d : Date) :
    dayNumber offset (addingMonths offset n d) = months.addMonths n (dayNumber offset d) := by
  rw [addingMonths, dayNumber, floor_addingMonths]
  unfold dayNumber
  ring

/-- The time of day stays. -/
@[simp] theorem timeOfDay_addingMonths (n : ℤ) (d : Date) :
    timeOfDay offset (addingMonths offset n d) = timeOfDay offset d := by
  rw [addingMonths, timeOfDay, floor_addingMonths, timeOfDay]
  push_cast
  ring

/-- Adding no months. -/
theorem addingMonths_zero (d : Date) : addingMonths offset 0 d = d := by
  rw [addingMonths, months.addMonths_zero, sub_self, Int.cast_zero, mul_zero, add_zero]

/-- Months that lead to another month pass the present or do not reach it. -/
theorem addingMonths_lt_iff (h : n ≠ monthsApart offset d now) :
    addingMonths offset n d < now ↔ n < monthsApart offset d now := by
  have hmonth : months.monthOf (dayNumber offset (addingMonths offset n d)) =
      months.monthOf (dayNumber offset d) + n := by
    rw [dayNumber_addingMonths, months.monthOf_addMonths]
  unfold monthsApart at h ⊢
  rcases lt_or_gt_of_ne h with hlt | hlt
  · refine iff_of_true ((lt_iff offset).2 (Or.inl (months.lt_of_monthOf_lt ?_))) hlt
    omega
  · refine iff_of_false (not_lt.2 (le_of_lt ((lt_iff offset).2 (Or.inl
      (months.lt_of_monthOf_lt ?_))))) (not_lt.2 hlt.le)
    omega

/-- **Full months** are the most that can be added without passing the present. -/
theorem le_fullMonths (hd : d ≤ now) (n : ℤ) :
    n ≤ fullMonths offset d now ↔ addingMonths offset n d ≤ now := by
  unfold fullMonths
  dsimp only
  rw [if_pos hd]
  rcases eq_or_ne n (monthsApart offset d now) with rfl | hne
  · split_ifs with h
    · exact iff_of_true le_rfl h
    · exact iff_of_false (by omega) h
  · have hother : addingMonths offset n d ≤ now ↔ n < monthsApart offset d now := by
      rw [← addingMonths_lt_iff offset hne, le_iff_lt_or_eq, or_iff_left]
      rintro rfl
      refine hne ?_
      rw [monthsApart, dayNumber_addingMonths, months.monthOf_addMonths]
      omega
    rw [hother]
    split_ifs <;> omega

/-- Units of so many months. -/
theorem le_tdiv_fullMonths (hd : d ≤ now) (hk : 0 < k) (n : ℤ) :
    n ≤ (fullMonths offset d now).tdiv k ↔ addingMonths offset (k * n) d ≤ now := by
  have hnonneg : 0 ≤ fullMonths offset d now := by
    rwa [le_fullMonths offset hd, addingMonths_zero]
  rw [Int.tdiv_eq_ediv_of_nonneg hnonneg, Int.le_ediv_iff_mul_le hk, mul_comm, le_fullMonths offset hd]

/-- Units of so many seconds. -/
theorem le_floor_seconds {x : ℚ} (hd : d ≤ now) (hx : 0 < x) (n : ℤ) :
    n ≤ (if d ≤ now then ⌊(now - d) / x⌋ else -⌊(d - now) / x⌋) ↔ d + n * x ≤ now := by
  rw [if_pos hd, Int.le_floor, le_div_iff₀ hx]
  constructor <;> intro h <;> linarith

end Dates

end GregorianCalendar

open GregorianCalendar in
/-- The Gregorian calendar, with clocks `offset` seconds ahead of UTC. -/
def gregorian (offset : ℚ) : Calendar where
  adding := adding offset
  dateComponents := dateComponents offset
  adding_zero := fun u d => by
    cases u <;> simp [adding, CalendarUnit.span, addingMonths_zero]
  le_dateComponents := fun u d now hd n => by
    cases u
    case year => exact le_tdiv_fullMonths offset hd (by norm_num) n
    case month => exact le_tdiv_fullMonths offset hd (by norm_num) n
    all_goals exact le_floor_seconds hd (by norm_num) n

end Teamstuff
