/-
# Older dates and the ages they are given

With the clock held still, the age of a date is the first unit of which it has a full one,
with the count.  Exact units count up with the age of the date, so an older date has at
least as many of each.  With months it is different: two days of one month can lead to the
same last day of a shorter one, and on that day the time decides, so that the later date
has its month full first (`fullMonths_lt_iff`).  The ages are out of order exactly where
such a month is one of the text (`older_reads_older_iff`).
-/

import Teamstuff.Helpers.RelativeTime
import Mathlib.Data.Prod.Lex

namespace Teamstuff

/-- The age a text expresses: the unit, the greater the coarser it is, and the amount.
"Just now" is the least, and the empty text expresses none. -/
def RelativeTime.age : RelativeTime → Option (ℕ ×ₗ ℤ)
  | .ago count unit _ => some (toLex (7 - unit.rank, count))
  | .yesterday => some (toLex (7 - CalendarUnit.day.rank, 1))
  | .justNow => some (toLex (0, 0))
  | .empty => none

namespace GregorianCalendar

open Gregorian

/-- **The later date has its month full first.**  The two are of one month, the earlier one
later in its day, and it is the last day of a month that is too short for both, at a time
between theirs. -/
structure Clamped (offset : ℚ) (d₁ d₂ now : Date) : Prop where
  month : months.monthOf (dayNumber offset d₁) = months.monthOf (dayNumber offset d₂)
  day : months.dayOf (dayNumber offset d₁) < months.dayOf (dayNumber offset d₂)
  short : months.length (months.monthOf (dayNumber offset now)) ≤ months.dayOf (dayNumber offset d₁) + 1
  last : dayNumber offset now = months.start (months.monthOf (dayNumber offset now) + 1) - 1
  full : timeOfDay offset d₂ ≤ timeOfDay offset now
  notFull : timeOfDay offset now < timeOfDay offset d₁

/-- The two dates are clamped, and a month or a year of the text is at stake. -/
def Overtaken (offset : ℚ) (d₁ d₂ now : Date) : Prop :=
  Clamped offset d₁ d₂ now ∧ (monthsApart offset d₂ now < 12 ∨ 12 ∣ monthsApart offset d₂ now)

variable {offset : ℚ} {d₁ d₂ now : Date}

/-- The counts of months at a clamped date. -/
theorem Clamped.fullMonths (h : Clamped offset d₁ d₂ now) (h₁₂ : d₁ ≤ d₂) (h₂ : d₂ ≤ now) :
    fullMonths offset d₂ now = monthsApart offset d₂ now ∧
      fullMonths offset d₁ now = monthsApart offset d₂ now - 1 := by
  obtain ⟨hmonth, hday, hshort, hlast, htime₂, htime₁⟩ := h
  have hsame : monthsApart offset d₁ now = monthsApart offset d₂ now := by
    unfold monthsApart
    rw [hmonth]
  have hnow : ∀ d, months.monthOf (dayNumber offset d) = months.monthOf (dayNumber offset d₂) →
      months.monthOf (dayNumber offset d) + monthsApart offset d₂ now =
        months.monthOf (dayNumber offset now) := fun d hd => by
    unfold monthsApart
    omega
  -- both are led to the last day of the month
  have hled : ∀ d, months.monthOf (dayNumber offset d) = months.monthOf (dayNumber offset d₂) →
      months.dayOf (dayNumber offset d₁) ≤ months.dayOf (dayNumber offset d) →
      dayNumber offset (addingMonths offset (monthsApart offset d₂ now) d) = dayNumber offset now := by
    intro d hd hle
    rw [dayNumber_addingMonths, months.addMonths_eq_last (by rw [hnow d hd]; omega), hnow d hd]
    exact hlast.symm
  have h2 : addingMonths offset (monthsApart offset d₂ now) d₂ ≤ now := by
    refine not_lt.1 fun hlt => ?_
    rcases (lt_iff offset).1 hlt with hlt | ⟨_, hlt⟩
    · exact absurd hlt (not_lt.2 (hled d₂ rfl hday.le).le)
    · rw [timeOfDay_addingMonths] at hlt
      exact absurd hlt (not_lt.2 htime₂)
  have h1 : ¬ addingMonths offset (monthsApart offset d₂ now) d₁ ≤ now := by
    refine not_le.2 ((lt_iff offset).2 (Or.inr ⟨(hled d₁ hmonth le_rfl).symm, ?_⟩))
    rwa [timeOfDay_addingMonths]
  unfold GregorianCalendar.fullMonths
  dsimp only
  rw [if_pos h₂, if_pos (le_trans h₁₂ h₂), hsame, if_pos h2, if_neg h1]
  exact ⟨rfl, rfl⟩

/-- **An older date has fewer full months** exactly at a clamped date. -/
theorem fullMonths_lt_iff (h₁₂ : d₁ ≤ d₂) (h₂ : d₂ ≤ now) :
    fullMonths offset d₁ now < fullMonths offset d₂ now ↔ Clamped offset d₁ d₂ now := by
  constructor
  · intro hlt
    have h1 := not_le.1 ((not_congr (le_fullMonths offset (le_trans h₁₂ h₂) _)).1 (not_le.2 hlt))
    have h2 := (le_fullMonths offset h₂ _).1 le_rfl
    generalize fullMonths offset d₂ now = n at h1 h2
    have hdays : dayNumber offset (addingMonths offset n d₁) =
        dayNumber offset (addingMonths offset n d₂) := by
      refine le_antisymm ?_ (dayNumber_mono offset (le_trans h2 h1.le))
      rw [dayNumber_addingMonths, dayNumber_addingMonths]
      exact months.addMonths_mono n (dayNumber_mono offset h₁₂)
    have hdays₂ : dayNumber offset (addingMonths offset n d₂) = dayNumber offset now :=
      le_antisymm (dayNumber_mono offset h2) (hdays ▸ dayNumber_mono offset h1.le)
    have htime₂ : timeOfDay offset d₂ ≤ timeOfDay offset now := by
      rw [← timeOfDay_addingMonths offset n d₂]
      refine not_lt.1 fun hlt => absurd h2 (not_le.2 ((lt_iff offset).2 (Or.inr ⟨hdays₂.symm, hlt⟩)))
    have htime₁ : timeOfDay offset now < timeOfDay offset d₁ := by
      rcases (lt_iff offset).1 h1 with hlt | ⟨_, hlt⟩
      · rw [hdays, hdays₂] at hlt
        exact absurd hlt (lt_irrefl _)
      · rwa [timeOfDay_addingMonths] at hlt
    have hday : dayNumber offset d₁ < dayNumber offset d₂ := by
      rcases h₁₂.lt_or_eq with hlt | rfl
      · rcases (lt_iff offset).1 hlt with hlt | ⟨_, hlt⟩
        · exact hlt
        · exact absurd (lt_trans hlt (lt_of_le_of_lt htime₂ htime₁)) (lt_irrefl _)
      · exact absurd (lt_of_le_of_lt htime₂ htime₁) (lt_irrefl _)
    rw [dayNumber_addingMonths, dayNumber_addingMonths] at hdays
    obtain ⟨hmonth, hshort⟩ := (months.addMonths_eq_iff hday).1 hdays
    have hlast := months.addMonths_eq_last hshort
    rw [dayNumber_addingMonths, ← hdays] at hdays₂
    have hnow : months.monthOf (dayNumber offset now) = months.monthOf (dayNumber offset d₁) + n := by
      rw [← hdays₂, months.monthOf_addMonths]
    refine ⟨hmonth, ?_, ?_, ?_, htime₂, htime₁⟩
    · unfold Months.dayOf
      rw [hmonth]
      omega
    · rw [hnow]
      exact hshort
    · rw [hnow, ← hlast, hdays₂]
  · intro h
    obtain ⟨h2, h1⟩ := h.fullMonths h₁₂ h₂
    omega

end GregorianCalendar

/-! ### Ages -/

/-- The age of a unit that is shown with its count. -/
theorem age_shown (u : CalendarUnit) (n : ℤ) : (u.shown n).age =
    some (if u = .second ∧ n < 15 then toLex (0, 0) else toLex (7 - u.rank, n)) := by
  cases u
  case day =>
    rw [if_neg fun h => absurd h.1 (by decide)]
    change RelativeTime.age (if n = 1 then .yesterday else .ago n .day true) = _
    split_ifs with hone
    · rw [hone]
      rfl
    · rfl
  case second =>
    change RelativeTime.age (if n < 15 then .justNow else .ago n .second (1 < n)) = _
    by_cases hfew : n < 15
    · rw [if_pos hfew, if_pos ⟨rfl, hfew⟩]
      rfl
    · rw [if_neg hfew, if_neg fun h => hfew h.2]
      rfl
  all_goals
    rw [if_neg fun h => absurd h.1 (by decide)]
    rfl

theorem rank_le (u : CalendarUnit) : u.rank ≤ 6 := by
  cases u <;> decide

theorem rank_injective : ∀ u v : CalendarUnit, u.rank = v.rank → u = v := by
  decide

theorem text_shown_ne_empty (u : CalendarUnit) (n : ℤ) : (u.shown n).text ≠ "" := by
  intro h
  have hempty : u.shown n = .empty := RelativeTime.text_injective h
  have hage := age_shown u n
  rw [hempty] at hage
  exact nomatch hage

section Instant

variable {cal : Calendar} {d₁ d₂ now : Date} {u₁ u₂ w : CalendarUnit}

/-- The age of a date, for the unit that is shown. -/
def ageOf (cal : Calendar) (d now : Date) (u : CalendarUnit) : ℕ ×ₗ ℤ :=
  if u = .second ∧ cal.dateComponents u d now < 15 then toLex (0, 0)
  else toLex (7 - u.rank, cal.dateComponents u d now)

/-- A coarser unit is a greater age. -/
theorem ageOf_lt_of_rank_lt (h : u₁.rank < u₂.rank) : ageOf cal d₂ now u₂ < ageOf cal d₁ now u₁ := by
  have hrank := rank_le u₂
  have hsecond : u₁ ≠ .second := by
    rintro rfl
    exact absurd hrank (not_le.2 h)
  have hage : ageOf cal d₁ now u₁ = toLex (7 - u₁.rank, cal.dateComponents u₁ d₁ now) :=
    if_neg fun h => hsecond h.1
  rw [hage, ageOf]
  split_ifs
  · exact Prod.Lex.toLex_lt_toLex.2 (Or.inl (by dsimp only; omega))
  · exact Prod.Lex.toLex_lt_toLex.2 (Or.inl (by dsimp only; omega))

/-- **Counts that are at least as great are at least as great an age.** -/
theorem ageOf_le (hcount : ∀ u, cal.dateComponents u d₂ now ≤ cal.dateComponents u d₁ now)
    (h₁ : Shows cal d₁ (fun _ => now) u₁) (h₂ : Shows cal d₂ (fun _ => now) u₂) :
    ageOf cal d₂ now u₂ ≤ ageOf cal d₁ now u₁ := by
  have hrank : u₁.rank ≤ u₂.rank := by
    by_contra hlt
    rw [not_le] at hlt
    have hnot := h₁.coarser u₂ hlt
    rcases h₂.passes with rfl | hpasses
    · exact absurd (rank_le u₁) (not_le.2 hlt)
    · exact absurd (lt_of_lt_of_le hpasses (hcount u₂)) (not_lt.2 hnot)
  rcases hrank.lt_or_eq with hlt | heq
  · exact (ageOf_lt_of_rank_lt hlt).le
  · obtain rfl := rank_injective _ _ heq
    have hle := hcount u₁
    unfold ageOf
    split_ifs with hfew₂ hfew₁ hfew₁
    · exact le_rfl
    · exact Prod.Lex.toLex_le_toLex.2 (Or.inl (by have := rank_le u₁; dsimp only; omega))
    · exact absurd ⟨hfew₁.1, lt_of_le_of_lt hle hfew₁.2⟩ hfew₂
    · exact Prod.Lex.toLex_le_toLex.2 (Or.inr ⟨rfl, hle⟩)

/-- **A unit of which the older date has fewer decides** where neither has one of a coarser
kind. -/
theorem ageOf_lt (hw : w ≠ .second)
    (hcount : cal.dateComponents w d₁ now < cal.dateComponents w d₂ now)
    (hpos : 0 < cal.dateComponents w d₂ now)
    (hcoarser : ∀ v : CalendarUnit, v.rank < w.rank →
      cal.dateComponents v d₁ now ≤ 0 ∧ cal.dateComponents v d₂ now ≤ 0)
    (h₁ : Shows cal d₁ (fun _ => now) u₁) (h₂ : Shows cal d₂ (fun _ => now) u₂) :
    ageOf cal d₁ now u₁ < ageOf cal d₂ now u₂ := by
  have hleast : ∀ {d : Date} {u : CalendarUnit}, Shows cal d (fun _ => now) u →
      (∀ v : CalendarUnit, v.rank < w.rank → cal.dateComponents v d now ≤ 0) → w.rank ≤ u.rank := by
    intro d u hu hv
    by_contra hlt
    rw [not_le] at hlt
    rcases hu.passes with rfl | hpasses
    · exact absurd (rank_le w) (not_le.2 hlt)
    · exact absurd hpasses (not_lt.2 (hv u hlt))
  have hrank₁ := hleast h₁ fun v hv => (hcoarser v hv).1
  have hrank₂ := hleast h₂ fun v hv => (hcoarser v hv).2
  -- the younger date shows `w`
  have hshown : u₂ = w := by
    rcases hrank₂.lt_or_eq with hlt | heq
    · exact absurd hpos (not_lt.2 (h₂.coarser w hlt))
    · exact (rank_injective _ _ heq).symm
  subst hshown
  rcases hrank₁.lt_or_eq with hlt | heq
  · exact ageOf_lt_of_rank_lt hlt
  · obtain rfl := rank_injective _ _ heq
    unfold ageOf
    rw [if_neg fun h => hw h.1, if_neg fun h => hw h.1]
    exact Prod.Lex.toLex_lt_toLex.2 (Or.inr ⟨rfl, hcount⟩)

end Instant

section Gregorian

open GregorianCalendar

variable {offset : ℚ} {d d₁ d₂ now : Date}

theorem dateComponents_month (offset : ℚ) (d now : Date) :
    (gregorian offset).dateComponents .month d now = fullMonths offset d now := by
  change (fullMonths offset d now).tdiv 1 = _
  rw [Int.tdiv_one]

theorem dateComponents_year (offset : ℚ) (hd : d ≤ now) :
    (gregorian offset).dateComponents .year d now = fullMonths offset d now / 12 := by
  have hnonneg := (gregorian offset).dateComponents_nonneg (u := .month) hd
  rw [dateComponents_month] at hnonneg
  exact Int.tdiv_eq_ediv_of_nonneg hnonneg

/-- Of every unit but months and years an older date has at least as many. -/
theorem dateComponents_le_of_fullMonths_le (h₁₂ : d₁ ≤ d₂) (h₂ : d₂ ≤ now)
    (hmonths : fullMonths offset d₂ now ≤ fullMonths offset d₁ now) (u : CalendarUnit) :
    (gregorian offset).dateComponents u d₂ now ≤ (gregorian offset).dateComponents u d₁ now := by
  have hexact : (∀ n : ℤ, (gregorian offset).adding u n d₁ ≤ (gregorian offset).adding u n d₂) →
      (gregorian offset).dateComponents u d₂ now ≤ (gregorian offset).dateComponents u d₁ now :=
    fun hle => ((gregorian offset).le_dateComponents u (le_trans h₁₂ h₂) _).2
      (le_trans (hle _) (((gregorian offset).le_dateComponents u h₂ _).1 le_rfl))
  cases u
  case year =>
    rw [dateComponents_year offset h₂, dateComponents_year offset (le_trans h₁₂ h₂)]
    omega
  case month =>
    rw [dateComponents_month, dateComponents_month]
    exact hmonths
  all_goals exact hexact fun n => add_le_add_left h₁₂ _

section Clamped

variable (hclamped : Clamped offset d₁ d₂ now) (h₁₂ : d₁ ≤ d₂) (h₂ : d₂ ≤ now)

include hclamped h₁₂ h₂

/-- The months and years of two clamped dates. -/
theorem GregorianCalendar.Clamped.dateComponents :
    (gregorian offset).dateComponents .month d₁ now = monthsApart offset d₂ now - 1 ∧
    (gregorian offset).dateComponents .month d₂ now = monthsApart offset d₂ now ∧
    (gregorian offset).dateComponents .year d₁ now = (monthsApart offset d₂ now - 1) / 12 ∧
    (gregorian offset).dateComponents .year d₂ now = monthsApart offset d₂ now / 12 ∧
    0 < monthsApart offset d₂ now := by
  obtain ⟨hm₂, hm₁⟩ := hclamped.fullMonths h₁₂ h₂
  have hnonneg := (gregorian offset).dateComponents_nonneg (u := .month) (le_trans h₁₂ h₂)
  rw [dateComponents_year offset h₂, dateComponents_year offset (le_trans h₁₂ h₂)]
  rw [dateComponents_month, hm₁] at hnonneg
  rw [dateComponents_month, dateComponents_month, hm₁, hm₂]
  exact ⟨rfl, rfl, rfl, rfl, by omega⟩

variable {u₁ u₂ : CalendarUnit} (hu₁ : Shows (gregorian offset) d₁ (fun _ => now) u₁)
  (hu₂ : Shows (gregorian offset) d₂ (fun _ => now) u₂)

include hu₁ hu₂

/-- After full years the older date has a year less. -/
theorem GregorianCalendar.Clamped.ageOf_lt_of_dvd (hyears : 12 ∣ monthsApart offset d₂ now) :
    ageOf (gregorian offset) d₁ now u₁ < ageOf (gregorian offset) d₂ now u₂ := by
  obtain ⟨_, _, hyear₁, hyear₂, hpos⟩ := hclamped.dateComponents h₁₂ h₂
  refine ageOf_lt (w := .year) (by decide) ?_ ?_ (fun v hv => absurd hv (Nat.not_lt_zero _)) hu₁ hu₂
  · rw [hyear₁, hyear₂]
    omega
  · rw [hyear₂]
    omega

/-- Within a year the older date has a month less. -/
theorem GregorianCalendar.Clamped.ageOf_lt_of_lt (hmonths : monthsApart offset d₂ now < 12) :
    ageOf (gregorian offset) d₁ now u₁ < ageOf (gregorian offset) d₂ now u₂ := by
  obtain ⟨hmonth₁, hmonth₂, hyear₁, hyear₂, hpos⟩ := hclamped.dateComponents h₁₂ h₂
  refine ageOf_lt (w := .month) (by decide) ?_ ?_ (fun v hv => ?_) hu₁ hu₂
  · rw [hmonth₁, hmonth₂]
    omega
  · rw [hmonth₂]
    exact hpos
  · obtain rfl : v = .year := rank_injective v .year (Nat.lt_one_iff.1 hv)
    rw [hyear₁, hyear₂]
    constructor <;> omega

/-- Between full years only the years are shown, and they are the same. -/
theorem GregorianCalendar.Clamped.ageOf_eq (hmonths : ¬ monthsApart offset d₂ now < 12)
    (hyears : ¬ 12 ∣ monthsApart offset d₂ now) :
    ageOf (gregorian offset) d₂ now u₂ = ageOf (gregorian offset) d₁ now u₁ := by
  obtain ⟨_, _, hyear₁, hyear₂, _⟩ := hclamped.dateComponents h₁₂ h₂
  have hyear : ∀ {d : Date} {u : CalendarUnit}, Shows (gregorian offset) d (fun _ => now) u →
      0 < (gregorian offset).dateComponents .year d now → u = .year := by
    intro d u hu hpos
    by_contra hne
    have hrank : CalendarUnit.year.rank < u.rank :=
      Nat.pos_of_ne_zero fun hzero => hne (rank_injective u .year hzero)
    exact absurd hpos (not_lt.2 (hu.coarser .year hrank))
  obtain rfl := hyear hu₁ (by rw [hyear₁]; omega)
  obtain rfl := hyear hu₂ (by rw [hyear₂]; omega)
  have hsame : monthsApart offset d₂ now / 12 = (monthsApart offset d₂ now - 1) / 12 := by omega
  unfold ageOf
  rw [hyear₁, hyear₂, hsame]

end Clamped

/-- **The ages are in order but at an overtaken date.** -/
theorem ageOf_le_iff (h₁₂ : d₁ ≤ d₂) (h₂ : d₂ ≤ now) {u₁ u₂ : CalendarUnit}
    (hu₁ : Shows (gregorian offset) d₁ (fun _ => now) u₁)
    (hu₂ : Shows (gregorian offset) d₂ (fun _ => now) u₂) :
    ageOf (gregorian offset) d₂ now u₂ ≤ ageOf (gregorian offset) d₁ now u₁ ↔
      ¬ Overtaken offset d₁ d₂ now := by
  by_cases hclamped : Clamped offset d₁ d₂ now
  · by_cases hmonths : monthsApart offset d₂ now < 12
    · have hlt := hclamped.ageOf_lt_of_lt h₁₂ h₂ hu₁ hu₂ hmonths
      exact iff_of_false (not_le.2 hlt) (not_not.2 ⟨hclamped, Or.inl hmonths⟩)
    · by_cases hyears : 12 ∣ monthsApart offset d₂ now
      · have hlt := hclamped.ageOf_lt_of_dvd h₁₂ h₂ hu₁ hu₂ hyears
        exact iff_of_false (not_le.2 hlt) (not_not.2 ⟨hclamped, Or.inr hyears⟩)
      · have heq := hclamped.ageOf_eq h₁₂ h₂ hu₁ hu₂ hmonths hyears
        exact iff_of_true heq.le fun h => h.2.elim hmonths hyears
  · have hmonths := not_lt.1 ((not_congr (fullMonths_lt_iff h₁₂ h₂)).2 hclamped)
    exact iff_of_true (ageOf_le (dateComponents_le_of_fullMonths_le h₁₂ h₂ hmonths) hu₁ hu₂)
      fun h => hclamped h.1

/-- **An older date reads at least as old, but where a later one overtakes it.**  The clock
stands still, and the calendar is the Gregorian one in a fixed time zone.  Both texts have
an age, and they are in order exactly where the end of a short month does not let the later
date have its month or year full first. -/
theorem older_reads_older_iff (offset : ℚ) (d₁ d₂ now : Date) (h₁₂ : d₁ ≤ d₂) (h₂ : d₂ ≤ now) :
    (relativeTime (gregorian offset) d₁ (fun _ => now) 0).1.text ≠ "" ∧
    (relativeTime (gregorian offset) d₂ (fun _ => now) 0).1.text ≠ "" ∧
    ∃ a₁ a₂, (relativeTime (gregorian offset) d₁ (fun _ => now) 0).1.age = some a₁ ∧
      (relativeTime (gregorian offset) d₂ (fun _ => now) 0).1.age = some a₂ ∧
      (a₂ ≤ a₁ ↔ ¬ Overtaken offset d₁ d₂ now) := by
  obtain ⟨u₁, hu₁⟩ := exists_shows (gregorian offset) d₁ fun _ => now
  obtain ⟨u₂, hu₂⟩ := exists_shows (gregorian offset) d₂ fun _ => now
  rw [relativeTime_const hu₁ (le_trans h₁₂ h₂), relativeTime_const hu₂ h₂]
  exact ⟨text_shown_ne_empty _ _, text_shown_ne_empty _ _, _, _, age_shown _ _, age_shown _ _,
    ageOf_le_iff h₁₂ h₂ hu₁ hu₂⟩

/-- The 30th of January 2001, ten o'clock. -/
def january30 : Date := 29 * 86400 + 36000

/-- The 31st of January 2001, nine o'clock. -/
def january31 : Date := 30 * 86400 + 32400

/-- The 28th of February 2001, half past nine. -/
def february28 : Date := 58 * 86400 + 34200

/-- The 5th of March 2001, noon. -/
def march5 : Date := 63 * 86400 + 43200

/-- In March the two dates of January are a month old, and none has overtaken the other. -/
theorem older_reads_older_iff_march :
    (relativeTime (gregorian 0) january30 (fun _ => march5) 0).1.text = "1 month ago" ∧
    (relativeTime (gregorian 0) january31 (fun _ => march5) 0).1.text = "1 month ago" ∧
    ¬ Overtaken 0 january30 january31 march5 := by
  have h₁ : (relativeTime (gregorian 0) january30 (fun _ => march5) 0).1 = .ago 1 .month false := by
    decide +kernel
  have h₂ : (relativeTime (gregorian 0) january31 (fun _ => march5) 0).1 = .ago 1 .month false := by
    decide +kernel
  obtain ⟨_, _, a₁, a₂, ha₁, ha₂, hiff⟩ := older_reads_older_iff 0 january30 january31 march5
    (by decide +kernel) (by decide +kernel)
  rw [h₁] at ha₁ ⊢
  rw [h₂] at ha₂ ⊢
  exact ⟨by decide +kernel, by decide +kernel,
    hiff.1 (Option.some.inj (ha₂.symm.trans ha₁)).le⟩

/-- **Four weeks before a month.**  The older date is the one that reads as more recent. -/
theorem older_reads_more_recent : january30 ≤ january31 ∧ january31 ≤ february28 ∧
    (relativeTime (gregorian 0) january30 (fun _ => february28) 0).1.text = "4 weeks ago" ∧
    (relativeTime (gregorian 0) january31 (fun _ => february28) 0).1.text = "1 month ago" ∧
    ∃ a₁ a₂, (relativeTime (gregorian 0) january30 (fun _ => february28) 0).1.age = some a₁ ∧
      (relativeTime (gregorian 0) january31 (fun _ => february28) 0).1.age = some a₂ ∧
      ¬ a₂ ≤ a₁ := by
  have h₁ : (relativeTime (gregorian 0) january30 (fun _ => february28) 0).1 =
      .ago 4 .weekOfYear true := by
    decide +kernel
  have h₂ : (relativeTime (gregorian 0) january31 (fun _ => february28) 0).1 = .ago 1 .month false := by
    decide +kernel
  rw [h₁, h₂]
  refine ⟨by decide +kernel, by decide +kernel, by decide +kernel, by decide +kernel, _, _, rfl, rfl, ?_⟩
  decide +kernel

end Gregorian

end Teamstuff
