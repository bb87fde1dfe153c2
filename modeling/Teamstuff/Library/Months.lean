/-
# Days cut into months

The days, numbered by the integers, are cut into months, numbered as well: each month
starts where the one before it ends.  `addMonths` leads to the same day of another month,
or to its last day where the month is too short.

Going a number of months on keeps the order of the days (`addMonths_mono`), but two days
of one month can end up on the same day: exactly where both are at or behind the end of
the month they lead to (`addMonths_eq_iff`).
-/

import Mathlib.Order.Monotone.Defs
import Mathlib.Order.SuccPred.Basic
import Mathlib.Algebra.Order.SuccPred
import Mathlib.Data.Int.SuccPred
import Mathlib.Data.Int.ConditionallyCompleteOrder

/-- The first day of each month and the month of each day. -/
structure Months where
  start : ℤ → ℤ
  monthOf : ℤ → ℤ
  start_lt : ∀ m, start m < start (m + 1)
  start_monthOf : ∀ d, start (monthOf d) ≤ d
  lt_start_monthOf : ∀ d, d < start (monthOf d + 1)

namespace Months

variable (C : Months) {a b d k m n : ℤ}

/-- How many days a month has. -/
def length (m : ℤ) : ℤ := C.start (m + 1) - C.start m

/-- How many days of its month are before a day. -/
def dayOf (d : ℤ) : ℤ := d - C.start (C.monthOf d)

/-- The same day `n` months on, or the last one of a month that is too short. -/
def addMonths (n d : ℤ) : ℤ :=
  C.start (C.monthOf d + n) + min (C.dayOf d) (C.length (C.monthOf d + n) - 1)

/-- A later month starts later. -/
theorem start_strictMono : StrictMono C.start := strictMono_int_of_lt_succ C.start_lt

/-- No month is empty. -/
theorem length_pos (m : ℤ) : 0 < C.length m := Int.sub_pos_of_lt (C.start_lt m)

/-- The days of a month are counted from zero. -/
theorem dayOf_nonneg (d : ℤ) : 0 ≤ C.dayOf d := Int.sub_nonneg_of_le (C.start_monthOf d)

/-- A day is in its month. -/
theorem dayOf_lt_length (d : ℤ) : C.dayOf d < C.length (C.monthOf d) := by
  have hd := C.lt_start_monthOf d
  unfold dayOf length
  omega

/-- The month of a day is the last one that has started. -/
theorem start_le_iff : C.start m ≤ d ↔ m ≤ C.monthOf d := by
  constructor
  · intro h
    have hlt := C.start_strictMono.lt_iff_lt.1 (lt_of_le_of_lt h (C.lt_start_monthOf d))
    exact Int.lt_add_one_iff.1 hlt
  · intro h
    exact le_trans (C.start_strictMono.monotone h) (C.start_monthOf d)

/-- A later day is in no earlier month. -/
theorem monthOf_mono : Monotone C.monthOf := fun a _ h =>
  C.start_le_iff.1 (le_trans (C.start_monthOf a) h)

/-- A day of a month, by the days before it. -/
theorem monthOf_start_add {i : ℤ} (hi : 0 ≤ i) (hlt : i < C.length m) :
    C.monthOf (C.start m + i) = m := by
  unfold length at hlt
  have hle : m ≤ C.monthOf (C.start m + i) := C.start_le_iff.1 (by omega)
  have hge : ¬ m + 1 ≤ C.monthOf (C.start m + i) := fun h => by
    have := C.start_le_iff.2 h
    omega
  omega

/-- The day is one of the month it is moved to. -/
theorem addMonths_index (n d : ℤ) :
    0 ≤ min (C.dayOf d) (C.length (C.monthOf d + n) - 1) ∧
      min (C.dayOf d) (C.length (C.monthOf d + n) - 1) < C.length (C.monthOf d + n) := by
  have hday := C.dayOf_nonneg d
  have hlength := C.length_pos (C.monthOf d + n)
  omega

/-- The month after so many. -/
@[simp] theorem monthOf_addMonths (n d : ℤ) : C.monthOf (C.addMonths n d) = C.monthOf d + n :=
  C.monthOf_start_add (C.addMonths_index n d).1 (C.addMonths_index n d).2

/-- Adding no months. -/
@[simp] theorem addMonths_zero (d : ℤ) : C.addMonths 0 d = d := by
  have hday := C.dayOf_lt_length d
  rw [addMonths, add_zero, min_eq_left (by omega), dayOf]
  omega

/-- A day of an earlier month is an earlier day. -/
theorem lt_of_monthOf_lt (h : C.monthOf a < C.monthOf b) : a < b :=
  lt_of_not_ge fun hle => absurd (C.monthOf_mono hle) (not_le.2 h)

/-- Going months on keeps the order of the days. -/
theorem addMonths_mono (n : ℤ) : Monotone (C.addMonths n) := by
  intro a b h
  rcases (C.monthOf_mono h).lt_or_eq with hlt | heq
  · refine le_of_lt (C.lt_of_monthOf_lt ?_)
    rw [monthOf_addMonths, monthOf_addMonths]
    omega
  · have hday : C.dayOf a ≤ C.dayOf b := by
      unfold dayOf
      rw [heq]
      omega
    unfold addMonths
    rw [heq]
    omega

/-- **Two days become one** exactly when they are of one month and the earlier one is
already at or behind the end of the month they lead to. -/
theorem addMonths_eq_iff (h : a < b) : C.addMonths n a = C.addMonths n b ↔
    C.monthOf a = C.monthOf b ∧ C.length (C.monthOf a + n) ≤ C.dayOf a + 1 := by
  have hday : C.monthOf a = C.monthOf b → C.dayOf a < C.dayOf b := fun heq => by
    unfold dayOf
    rw [heq]
    omega
  constructor
  · intro heq
    have hmonth := congrArg C.monthOf heq
    rw [monthOf_addMonths, monthOf_addMonths] at hmonth
    have hmonth : C.monthOf a = C.monthOf b := by omega
    have hlt := hday hmonth
    unfold addMonths at heq
    rw [← hmonth] at heq
    exact ⟨hmonth, by omega⟩
  · rintro ⟨hmonth, hclamped⟩
    have hlt := hday hmonth
    unfold addMonths
    rw [← hmonth]
    omega

/-- A day that is led behind the end of a month is its last day. -/
theorem addMonths_eq_last (h : C.length (C.monthOf d + n) ≤ C.dayOf d + 1) :
    C.addMonths n d = C.start (C.monthOf d + n + 1) - 1 := by
  unfold addMonths
  rw [min_eq_right (by omega)]
  unfold length
  omega

end Months
