/-
# A relative time and one instant

The clock goes on while `relativeTime` is evaluated, and the test, the number and the
plural of a unit are read one after the other.  The text is that of a single instant where
the amount that is read still falls short of the first of every coarser unit, and the
plural is read before a second unit is full (`one_instant_iff`); "Just now" always is.
-/

import Teamstuff.Helpers.RelativeTime

namespace Teamstuff

section Definitions

variable (cal : Calendar) (d : Date) (now : ℕ → Date)

/-- The reading that decides about the amount in the text, for the unit that is shown. -/
def amountReading : CalendarUnit → ℕ
  | .day => if cal.dateComponents .day d (now 4) = 1 then 4 else 5
  | .second => if cal.dateComponents .second d (now 7) < 15 then 7 else 8
  | u => u.rank + 1

/-- The count at this reading. -/
def amount (u : CalendarUnit) : ℤ := cal.dateComponents u d (now (amountReading cal d now u))

/-- A single unit is still single when the plural is read; days have no such reading, and
there is no text for a single second. -/
def PluralFits : CalendarUnit → Prop
  | .day | .second => True
  | u => cal.dateComponents u d (now (u.rank + 1)) = 1 →
      cal.dateComponents u d (now (u.rank + 2)) ≤ 1

/-- The amount of the unit shown is over before one of any coarser unit is, and its plural
fits. -/
def OneInstant : Prop :=
  ∀ u, Shows cal d now u → (u = .second ∧ amount cal d now u < 15) ∨
    ((∀ v : CalendarUnit, v.rank < u.rank →
      cal.adding u (amount cal d now u) d < cal.adding v 1 d) ∧ PluralFits cal d now u)

end Definitions

/-! ### Texts of one instant -/

/-- Days, and yesterday. -/
theorem shown_day (n : ℤ) :
    CalendarUnit.day.shown n = if n = 1 then .yesterday else .ago n .day true := rfl

/-- Seconds, and just now. -/
theorem shown_second (n : ℤ) :
    CalendarUnit.second.shown n = if n < 15 then .justNow else .ago n .second (1 < n) := rfl

/-- A unit with a count is shown as such, but for one day and the first seconds. -/
theorem shown_cases (u : CalendarUnit) (n : ℤ) : (∃ b, u.shown n = .ago n u b) ∨
    (u.shown n = .yesterday ∧ u = .day ∧ n = 1) ∨ (u.shown n = .justNow ∧ u = .second ∧ n < 15) := by
  cases u
  case day =>
    rw [shown_day]
    split_ifs with hone
    · exact Or.inr (Or.inl ⟨rfl, rfl, hone⟩)
    · exact Or.inl ⟨_, rfl⟩
  case second =>
    rw [shown_second]
    split_ifs with hfew
    · exact Or.inr (Or.inr ⟨rfl, rfl, hfew⟩)
    · exact Or.inl ⟨_, rfl⟩
  all_goals exact Or.inl ⟨_, rfl⟩

/-- Different amounts are shown differently, but for a few seconds. -/
theorem shown_inj {u v : CalendarUnit} {n k : ℤ} (h : u.shown n = v.shown k) :
    (u = v ∧ n = k) ∨ (u = .second ∧ n < 15) := by
  rcases shown_cases u n with ⟨b, hu⟩ | ⟨hu, hday, hn⟩ | ⟨_, hfew⟩
  · rw [hu] at h
    rcases shown_cases v k with ⟨b', hv⟩ | ⟨hv, _⟩ | ⟨hv, _⟩ <;> rw [hv] at h
    · obtain ⟨hn, huv, _⟩ := RelativeTime.ago.inj h
      exact Or.inl ⟨huv, hn⟩
    · exact nomatch h
    · exact nomatch h
  · rw [hu] at h
    rcases shown_cases v k with ⟨b', hv⟩ | ⟨_, hday', hk⟩ | ⟨hv, _⟩
    · rw [hv] at h
      exact nomatch h
    · exact Or.inl ⟨hday.trans hday'.symm, hn.trans hk.symm⟩
    · rw [hv] at h
      exact nomatch h
  · exact Or.inr hfew

/-- "1 minutes ago" is never right. -/
theorem one_plural_ne_shown (u v : CalendarUnit) (k : ℤ) : .ago 1 u true ≠ v.shown k := by
  intro h
  cases v
  case day =>
    rw [shown_day] at h
    split_ifs at h with hone
    exact hone (RelativeTime.ago.inj h).1.symm
  case second =>
    rw [shown_second] at h
    split_ifs at h with hfew
    have := (RelativeTime.ago.inj h).1
    omega
  all_goals
    obtain ⟨rfl, _, hplural⟩ := RelativeTime.ago.inj h
    exact absurd hplural.symm (by decide)

section Readings

variable {cal : Calendar} {d : Date} {now : ℕ → Date} {u : CalendarUnit}

/-- The days are counted again unless there is one. -/
theorem amountReading_day : amountReading cal d now .day =
    if cal.dateComponents .day d (now 4) = 1 then 4 else 5 := rfl

/-- The seconds are counted again unless they are few. -/
theorem amountReading_second : amountReading cal d now .second =
    if cal.dateComponents .second d (now 7) < 15 then 7 else 8 := rfl

/-- The amount that is shown is counted last. -/
theorem rank_lt_amountReading (u : CalendarUnit) : u.rank < amountReading cal d now u := by
  cases u
  case day =>
    rw [amountReading_day]
    split_ifs <;> decide
  case second =>
    rw [amountReading_second]
    split_ifs <;> decide
  all_goals exact Nat.lt_succ_self _

/-- What the readings make of the unit that is shown: its text with the amount, or the
wrong plural.  The amount is read by the last reading. -/
def Reads (cal : Calendar) (d : Date) (now : ℕ → Date) (u : CalendarUnit) : Prop :=
  (PluralFits cal d now u → (worded cal d now (u.rank + 1) u).1 = u.shown (amount cal d now u)) ∧
  (¬ PluralFits cal d now u → (worded cal d now (u.rank + 1) u).1 = .ago 1 u true) ∧
  amountReading cal d now u ≤ (worded cal d now (u.rank + 1) u).2 - 1

/-- The count goes on from reading to reading. -/
theorem count_mono (cal : Calendar) (hmono : Monotone now) (hd : d ≤ now 0) (u : CalendarUnit) :
    Monotone fun i => cal.dateComponents u d (now i) := fun i _ hij =>
  cal.dateComponents_mono (le_trans hd (hmono (Nat.zero_le i))) (hmono hij)

/-- Days are read if one has passed. -/
theorem reads_day (hmono : Monotone now) (hd : d ≤ now 0)
    (hpasses : 0 < cal.dateComponents .day d (now 3)) : Reads cal d now .day := by
  have h34 := count_mono cal hmono hd .day (show 3 ≤ 4 by decide)
  have h45 := count_mono cal hmono hd .day (show 4 ≤ 5 by decide)
  dsimp only at h34 h45
  have hworded : worded cal d now (CalendarUnit.day.rank + 1) .day =
      if cal.dateComponents .day d (now 4) = 1 then (.yesterday, 5)
      else (.ago (cal.dateComponents .day d (now 5)) .day true, 6) := rfl
  unfold Reads amount
  rw [hworded, amountReading_day, shown_day]
  by_cases hone : cal.dateComponents .day d (now 4) = 1
  · rw [if_pos hone, if_pos hone, if_pos hone]
    exact ⟨fun _ => rfl, fun hnot => absurd trivial hnot, le_rfl⟩
  · -- more than one day had been read
    have hmore : cal.dateComponents .day d (now 5) ≠ 1 := by omega
    rw [if_neg hone, if_neg hone, if_neg hmore]
    exact ⟨fun _ => rfl, fun hnot => absurd trivial hnot, le_rfl⟩

/-- Seconds are read in any case. -/
theorem reads_second (hmono : Monotone now) (hd : d ≤ now 0) : Reads cal d now .second := by
  have h78 := count_mono cal hmono hd .second (show 7 ≤ 8 by decide)
  have h89 := count_mono cal hmono hd .second (show 8 ≤ 9 by decide)
  dsimp only at h78 h89
  have hworded : worded cal d now (CalendarUnit.second.rank + 1) .second =
      if cal.dateComponents .second d (now 7) < 15 then (.justNow, 8)
      else (.ago (cal.dateComponents .second d (now 8)) .second
        (1 < cal.dateComponents .second d (now 9)), 10) := rfl
  unfold Reads amount
  rw [hworded, amountReading_second, shown_second]
  by_cases hfew : cal.dateComponents .second d (now 7) < 15
  · rw [if_pos hfew, if_pos hfew, if_pos hfew]
    exact ⟨fun _ => rfl, fun hnot => absurd trivial hnot, le_rfl⟩
  · have hmany : ¬ cal.dateComponents .second d (now 8) < 15 := by omega
    rw [if_neg hfew, if_neg hfew, if_neg hmany]
    refine ⟨fun _ => congrArg _ (decide_eq_decide.2 ?_), fun hnot => absurd trivial hnot, Nat.le_succ 8⟩
    exact ⟨fun _ => by omega, fun _ => by omega⟩

/-- The five units with a number and a plural. -/
theorem reads_plain (hmono : Monotone now) (hd : d ≤ now 0)
    (hpasses : 0 < cal.dateComponents u d (now u.rank)) (hday : u ≠ .day) (hsecond : u ≠ .second) :
    Reads cal d now u := by
  have h1 := count_mono cal hmono hd u (show u.rank ≤ u.rank + 1 by omega)
  have h2 := count_mono cal hmono hd u (show u.rank + 1 ≤ u.rank + 2 by omega)
  dsimp only at h1 h2
  have hreads : ∀ fits : Prop, (fits ↔ (cal.dateComponents u d (now (u.rank + 1)) = 1 →
      cal.dateComponents u d (now (u.rank + 2)) ≤ 1)) →
      (fits → RelativeTime.ago (cal.dateComponents u d (now (u.rank + 1))) u
        (1 < cal.dateComponents u d (now (u.rank + 2))) =
          .ago (cal.dateComponents u d (now (u.rank + 1))) u
            (1 < cal.dateComponents u d (now (u.rank + 1)))) ∧
      (¬ fits → RelativeTime.ago (cal.dateComponents u d (now (u.rank + 1))) u
        (1 < cal.dateComponents u d (now (u.rank + 2))) = .ago 1 u true) := by
    intro fits hfits
    rw [hfits]
    refine ⟨fun h => congrArg _ (decide_eq_decide.2 ⟨fun hlt => ?_, fun hlt => by omega⟩),
      fun h => ?_⟩
    · by_contra hone
      have := h (by omega)
      omega
    · rw [Classical.not_imp, not_le] at h
      rw [h.1, decide_eq_true h.2]
  cases u
  case day => exact absurd rfl hday
  case second => exact absurd rfl hsecond
  all_goals
    obtain ⟨hfits, hslips⟩ := hreads _ Iff.rfl
    exact ⟨hfits, hslips, Nat.le_succ _⟩

/-- A unit that is shown is read. -/
theorem Shows.reads (h : Shows cal d now u) (hmono : Monotone now) (hd : d ≤ now 0) :
    Reads cal d now u := by
  by_cases hsecond : u = .second
  · exact hsecond ▸ reads_second hmono hd
  · have hpasses := h.passes.resolve_left hsecond
    by_cases hday : u = .day
    · subst hday
      exact reads_day hmono hd hpasses
    · exact reads_plain hmono hd hpasses hday hsecond

/-- There is an instant between the first and the last reading with the same text. -/
def HasInstant (cal : Calendar) (d : Date) (now : ℕ → Date) : Prop :=
  ∃ t, now 0 ≤ t ∧ t ≤ now ((relativeTime cal d now 0).2 - 1) ∧
    (relativeTime cal d now 0).1.text = (relativeTime cal d (fun _ => t) 0).1.text

/-- A past date stays past. -/
theorem past_of_monotone (hmono : Monotone now) (hd : d ≤ now 0) (i : ℕ) : d ≤ now i :=
  le_trans hd (hmono (Nat.zero_le i))

/-- An instant with the text has the amount full and no coarser unit. -/
theorem oneInstant_of_text_eq (hmono : Monotone now) (hd : d ≤ now 0) {t : Date}
    (hfirst : now 0 ≤ t)
    (htext : (relativeTime cal d now 0).1.text = (relativeTime cal d (fun _ => t) 0).1.text) :
    OneInstant cal d now := by
  intro u hu
  obtain ⟨hfits, hslips, _⟩ := hu.reads hmono hd
  have hdt : d ≤ t := le_trans hd hfirst
  obtain ⟨v, hv⟩ := exists_shows cal d fun _ => t
  have hsame := RelativeTime.text_injective htext
  rw [relativeTime_of_shows hu (past_of_monotone hmono hd 6), relativeTime_const hv hdt] at hsame
  by_cases hplural : PluralFits cal d now u
  · rw [hfits hplural] at hsame
    rcases shown_inj hsame with ⟨rfl, hcount⟩ | hfew
    · refine Or.inr ⟨fun w hw => ?_, hplural⟩
      have hfull := (cal.le_dateComponents u hdt _).1 hcount.le
      exact lt_of_le_of_lt hfull ((cal.dateComponents_le_zero_iff hdt).1 (hv.coarser w hw))
    · exact Or.inl hfew
  · rw [hslips hplural] at hsame
    exact absurd hsame (one_plural_ne_shown u v _)

/-- No coarser unit is full at the first reading. -/
theorem Shows.lt_adding (hu : Shows cal d now u) (hmono : Monotone now) (hd : d ≤ now 0)
    {v : CalendarUnit} (hv : v.rank < u.rank) : now 0 < cal.adding v 1 d :=
  lt_of_le_of_lt (hmono (Nat.zero_le _))
    ((cal.dateComponents_le_zero_iff (past_of_monotone hmono hd _)).1 (hu.coarser v hv))

/-- For "Just now" the first reading is such an instant. -/
theorem hasInstant_of_justNow (hmono : Monotone now) (hd : d ≤ now 0)
    (hu : Shows cal d now .second) (hfew : amount cal d now .second < 15) : HasInstant cal d now := by
  obtain ⟨hfits, _, _⟩ := hu.reads hmono hd
  have hshows : Shows cal d (fun _ => now 0) .second :=
    ⟨fun v hv => (cal.dateComponents_le_zero_iff hd).2 (hu.lt_adding hmono hd hv), Or.inl rfl⟩
  have hfew' : cal.dateComponents .second d (now 0) < 15 :=
    lt_of_le_of_lt (count_mono cal hmono hd .second (Nat.zero_le _)) hfew
  refine ⟨now 0, le_rfl, hmono (Nat.zero_le _), ?_⟩
  rw [relativeTime_of_shows hu (past_of_monotone hmono hd 6), relativeTime_const hshows hd,
    hfits trivial, shown_second, shown_second, if_pos hfew, if_pos hfew']

/-- Otherwise it is the instant the amount is full, or the first reading after it. -/
theorem hasInstant_of_short (hmono : Monotone now) (hd : d ≤ now 0) (hu : Shows cal d now u)
    (hshort : ∀ v : CalendarUnit, v.rank < u.rank →
      cal.adding u (amount cal d now u) d < cal.adding v 1 d)
    (hplural : PluralFits cal d now u) : HasInstant cal d now := by
  obtain ⟨hfits, _, hreading⟩ := hu.reads hmono hd
  have hpos : u = .second ∨ 0 < amount cal d now u := hu.passes.imp_right fun hpasses =>
    lt_of_lt_of_le hpasses (count_mono cal hmono hd u (rank_lt_amountReading u).le)
  have hfull := (cal.le_dateComponents u (past_of_monotone hmono hd _) (amount cal d now u)).1 le_rfl
  let t := max (now 0) (cal.adding u (amount cal d now u) d)
  have ht : t ≤ now (amountReading cal d now u) := max_le (hmono (Nat.zero_le _)) hfull
  have hdt : d ≤ t := le_trans hd (le_max_left _ _)
  have hcount : cal.dateComponents u d t = amount cal d now u :=
    cal.dateComponents_eq_of_le hdt ht rfl (le_max_right _ _)
  have hshows : Shows cal d (fun _ => t) u := by
    refine ⟨fun v hv => (cal.dateComponents_le_zero_iff hdt).2 ?_, hpos.imp_right fun h => ?_⟩
    · exact max_lt (hu.lt_adding hmono hd hv) (hshort v hv)
    · rw [hcount]
      exact h
  refine ⟨t, le_max_left _ _, le_trans ht (hmono ?_), ?_⟩
  · rw [relativeTime_of_shows hu (past_of_monotone hmono hd 6)]
    exact hreading
  · rw [relativeTime_of_shows hu (past_of_monotone hmono hd 6), relativeTime_const hshows hdt,
      hfits hplural, hcount]

/-- **A relative time is that of one instant** exactly when the amount that is read falls
short of every coarser unit and the plural fits, or it says "Just now".  The calendar is
any that counts full units, the date any in the past, and the clock does not go back. -/
theorem one_instant_iff (cal : Calendar) (d : Date) (now : ℕ → Date) (hmono : Monotone now)
    (hd : d ≤ now 0) :
    (∃ t, now 0 ≤ t ∧ t ≤ now ((relativeTime cal d now 0).2 - 1) ∧
      (relativeTime cal d now 0).1.text = (relativeTime cal d (fun _ => t) 0).1.text) ↔
        OneInstant cal d now := by
  constructor
  · rintro ⟨t, hfirst, _, htext⟩
    exact oneInstant_of_text_eq hmono hd hfirst htext
  · intro hone
    obtain ⟨u, hu⟩ := exists_shows cal d now
    rcases hone u hu with ⟨rfl, hfew⟩ | ⟨hshort, hplural⟩
    · exact hasInstant_of_justNow hmono hd hu hfew
    · exact hasInstant_of_short hmono hd hu hshort hplural

end Readings

/-- A clock that reaches a full minute between two readings. -/
def fullMinute (i : ℕ) : Date := if i < 8 then 59 else 60

/-- The clock does not run backwards. -/
theorem monotone_fullMinute : Monotone fullMinute := by
  intro i j hij
  unfold fullMinute
  split_ifs with hi hj hj
  · exact le_rfl
  · norm_num
  · omega
  · exact le_rfl

/-- A clock that reaches the 59th second between two readings. -/
def lastSecond (i : ℕ) : Date := if i < 8 then 58 else 59

/-- The clock does not run backwards. -/
theorem monotone_lastSecond : Monotone lastSecond := by
  intro i j hij
  unfold lastSecond
  split_ifs with hi hj hj
  · exact le_rfl
  · decide +kernel
  · omega
  · exact le_rfl

/-- "59 seconds ago" is the text of the last reading. -/
theorem one_instant_iff_lastSecond :
    (relativeTime (gregorian 0) 0 lastSecond 0).1.text = "59 seconds ago" ∧
    OneInstant (gregorian 0) 0 lastSecond := by
  have hpast : (0 : Date) ≤ lastSecond 0 := by decide +kernel
  have hsaid : (relativeTime (gregorian 0) 0 lastSecond 0).1 =
      (relativeTime (gregorian 0) 0 (fun _ => 59) 0).1 := by
    decide +kernel
  exact ⟨by decide +kernel, (one_instant_iff (gregorian 0) 0 lastSecond monotone_lastSecond hpast).1
    ⟨59, by decide +kernel, by decide +kernel, congrArg RelativeTime.text hsaid⟩⟩

/-- **"60 seconds ago"** is not the text of any instant. -/
theorem sixty_seconds_ago : Monotone fullMinute ∧ (0 : Date) ≤ fullMinute 0 ∧
    (relativeTime (gregorian 0) 0 fullMinute 0).1.text = "60 seconds ago" ∧
    ¬ ∃ t, fullMinute 0 ≤ t ∧ t ≤ fullMinute ((relativeTime (gregorian 0) 0 fullMinute 0).2 - 1) ∧
      (relativeTime (gregorian 0) 0 fullMinute 0).1.text =
        (relativeTime (gregorian 0) 0 (fun _ => t) 0).1.text := by
  have hsaid : (relativeTime (gregorian 0) 0 fullMinute 0).1 = CalendarUnit.second.shown 60 := by
    decide +kernel
  refine ⟨monotone_fullMinute, by decide +kernel, by rw [hsaid]; decide +kernel, ?_⟩
  rintro ⟨t, hfirst, _, htext⟩
  have hdt : (0 : Date) ≤ t := le_trans (by decide +kernel) hfirst
  obtain ⟨v, hv⟩ := exists_shows (gregorian 0) 0 fun _ => t
  have hsame := RelativeTime.text_injective htext
  rw [hsaid, relativeTime_const hv hdt] at hsame
  rcases shown_inj hsame with ⟨rfl, hcount⟩ | ⟨_, hfew⟩
  · -- sixty seconds are a minute
    have hfull := ((gregorian 0).le_dateComponents .second hdt 60).1 hcount.le
    have hminute := ((gregorian 0).dateComponents_le_zero_iff hdt).1 (hv.coarser .minute (by decide))
    have hequal : (gregorian 0).adding .second 60 0 = (gregorian 0).adding .minute 1 0 := by
      decide +kernel
    exact absurd (lt_of_le_of_lt hfull hminute) (hequal ▸ lt_irrefl _)
  · omega

end Teamstuff
