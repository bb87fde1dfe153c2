/-
# Relative times

`Date.relativeTime` of `Extensions.swift`.  Every use of a count such as `yearsFromNow`
reads the clock again, so the function takes the readings one after the other: `now i` is
the `i`th of them.

The first unit whose test passes is the one that is shown (`relativeTime_of_shows`).  On a
clock that stands still the text is that of a unit and its count (`relativeTime_const`),
and different counts have different texts (`text_injective`).
-/

import Teamstuff.Helpers.Calendar

namespace Teamstuff

/-- What `relativeTime` tells. -/
inductive RelativeTime
  | ago (count : ℤ) (unit : CalendarUnit) (plural : Bool)
  | yesterday
  | justNow
  | empty
deriving DecidableEq, Repr

/-- The name of a unit in the text. -/
def CalendarUnit.name : CalendarUnit → String
  | .year => "year"
  | .month => "month"
  | .weekOfYear => "week"
  | .day => "day"
  | .hour => "hour"
  | .minute => "minute"
  | .second => "second"

/-- What follows the number. -/
def CalendarUnit.phrase (unit : CalendarUnit) (plural : Bool) : String :=
  unit.name ++ (if plural then "s" else "") ++ " ago"

/-- The string. -/
def RelativeTime.text : RelativeTime → String
  | .ago count unit plural => toString count ++ " " ++ unit.phrase plural
  | .yesterday => "Yesterday"
  | .justNow => "Just now"
  | .empty => ""

section Readings

variable (cal : Calendar) (d : Date) (now : ℕ → Date)

/-- A count up to the next reading of the clock; a unit that is asked for is never `nil`. -/
def fromNow (u : CalendarUnit) : StateM ℕ ℤ := fun i => (cal.dateComponents u d (now i), i + 1)

/-- `yearsFromNow`. -/
def yearsFromNow : StateM ℕ ℤ := fromNow cal d now .year

/-- `monthsFromNow`. -/
def monthsFromNow : StateM ℕ ℤ := fromNow cal d now .month

/-- `weeksFromNow`. -/
def weeksFromNow : StateM ℕ ℤ := fromNow cal d now .weekOfYear

/-- `daysFromNow`. -/
def daysFromNow : StateM ℕ ℤ := fromNow cal d now .day

/-- `hoursFromNow`. -/
def hoursFromNow : StateM ℕ ℤ := fromNow cal d now .hour

/-- `minutesFromNow`. -/
def minutesFromNow : StateM ℕ ℤ := fromNow cal d now .minute

/-- `secondsFromNow`. -/
def secondsFromNow : StateM ℕ ℤ := fromNow cal d now .second

/-- A number and a unit, the count being read for the number and again for the plural. -/
def ago (unit : CalendarUnit) (count : StateM ℕ ℤ) : StateM ℕ RelativeTime := do
  let number ← count
  let plural ← count
  return .ago number unit (1 < plural)

/-- The text for days. -/
def daysAgo : StateM ℕ RelativeTime := do
  if (← daysFromNow cal d now) = 1 then return .yesterday
  else return .ago (← daysFromNow cal d now) .day true

/-- The text for seconds. -/
def secondsAgo : StateM ℕ RelativeTime := do
  if (← secondsFromNow cal d now) < 15 then return .justNow
  else ago .second (secondsFromNow cal d now)

/-- `relativeTime`. -/
def relativeTime : StateM ℕ RelativeTime := do
  if 0 < (← yearsFromNow cal d now) then return ← ago .year (yearsFromNow cal d now)
  if 0 < (← monthsFromNow cal d now) then return ← ago .month (monthsFromNow cal d now)
  if 0 < (← weeksFromNow cal d now) then return ← ago .weekOfYear (weeksFromNow cal d now)
  if 0 < (← daysFromNow cal d now) then return ← daysAgo cal d now
  if 0 < (← hoursFromNow cal d now) then return ← ago .hour (hoursFromNow cal d now)
  if 0 < (← minutesFromNow cal d now) then return ← ago .minute (minutesFromNow cal d now)
  if 0 ≤ (← secondsFromNow cal d now) then return ← secondsAgo cal d now
  return .empty

end Readings

/-! ### The text -/

/-- A number is written in digits. -/
theorem isDigit_of_mem_repr {k : ℕ} {c : Char} (hc : c ∈ k.repr.toList) : c.isDigit = true :=
  Nat.isDigit_of_mem_toDigits (b := 10) (by decide) (by decide) (Nat.toList_repr ▸ hc)

/-- A number is written without blanks. -/
theorem not_mem_toList_toString (n : ℤ) : ' ' ∉ (toString n).toList := by
  rw [Int.toString_eq_repr, Int.repr_eq_if]
  split_ifs with hnonneg
  · exact fun h => absurd (isDigit_of_mem_repr h) (by decide)
  · rw [String.toList_append, List.mem_append]
    rintro (h | h)
    · exact absurd h (by decide)
    · exact absurd (isDigit_of_mem_repr h) (by decide)

/-- A number can be read off its digits. -/
theorem toString_injective {n n' : ℤ} (h : toString n = toString n') : n = n' := by
  have hnat : ∀ {k k' : ℕ}, k.repr = k'.repr → k = k' := fun {k k'} h => by
    have hdigits := congrArg String.toList h
    rw [Nat.toList_repr, Nat.toList_repr] at hdigits
    rw [← Nat.ofDigitChars_ten_toDigits (n := k), hdigits, Nat.ofDigitChars_ten_toDigits]
  -- a sign is not a digit
  have hsign : ∀ {k k' : ℕ}, k.repr ≠ "-" ++ k'.repr := fun {k k'} h => by
    have hminus : '-' ∈ k.repr.toList := by
      rw [h, String.toList_append]
      exact List.mem_append_left _ (by decide)
    exact absurd (isDigit_of_mem_repr hminus) (by decide)
  rw [Int.toString_eq_repr, Int.toString_eq_repr, Int.repr_eq_if, Int.repr_eq_if] at h
  split_ifs at h with hn hn' hn'
  · have := hnat h
    omega
  · exact absurd h hsign
  · exact absurd h.symm hsign
  · have := hnat (String.append_right_inj _ |>.1 h)
    omega

/-- What stands before the first blank, and what stands behind it. -/
theorem append_blank_inj {l l' r r' : List Char} (hl : ' ' ∉ l) (hl' : ' ' ∉ l')
    (h : l ++ ' ' :: r = l' ++ ' ' :: r') : l = l' ∧ r = r' := by
  have htake : ∀ {l r : List Char}, ' ' ∉ l → (l ++ ' ' :: r).takeWhile (· ≠ ' ') = l := by
    intro l r hl
    have hall : ∀ c ∈ l, decide (c ≠ ' ') = true := fun c hc =>
      decide_eq_true fun heq => hl (heq ▸ hc)
    rw [List.takeWhile_append_of_pos hall]
    simp
  have heq : l = l' := by rw [← htake hl (r := r), h, htake hl']
  subst heq
  exact ⟨rfl, (List.cons.inj (List.append_cancel_left h)).2⟩

/-- Different units are worded differently. -/
theorem phrase_injective : ∀ u u' : CalendarUnit, ∀ p p' : Bool,
    u.phrase p = u'.phrase p' → u = u' ∧ p = p' := by
  decide +kernel

/-- The amount comes before the unit. -/
theorem RelativeTime.toList_ago (n : ℤ) (u : CalendarUnit) (p : Bool) :
    (text (.ago n u p)).toList = (toString n).toList ++ ' ' :: (u.phrase p).toList := by
  have hblank : " ".toList = [' '] := rfl
  rw [text, String.toList_append, String.toList_append, hblank, List.append_assoc]
  rfl

/-- **What is said can be told from the text.** -/
theorem RelativeTime.text_injective : Function.Injective text := by
  have hago : ∀ n u p, text (.ago n u p) ≠ text .yesterday ∧
      text (.ago n u p) ≠ text .justNow ∧ text (.ago n u p) ≠ text .empty := by
    intro n u p
    have hblank : ' ' ∈ (text (.ago n u p)).toList := by
      rw [toList_ago]
      exact List.mem_append_right _ List.mem_cons_self
    refine ⟨fun h => ?_, fun h => ?_, fun h => ?_⟩
    · rw [h] at hblank
      exact absurd hblank (by decide)
    · have hjust : (text (.ago n u p)).toList = "Just".toList ++ ' ' :: "now".toList :=
        congrArg String.toList h
      rw [toList_ago] at hjust
      have hnow := (append_blank_inj (not_mem_toList_toString n) (by decide) hjust).2
      have hphrase : ∀ u : CalendarUnit, ∀ p : Bool, (u.phrase p).toList ≠ "now".toList := by
        decide +kernel
      exact hphrase u p hnow
    · rw [h] at hblank
      exact absurd hblank (by decide)
  intro a b h
  cases a with
  | ago n u p =>
      cases b with
      | ago n' u' p' =>
          have hlist := congrArg String.toList h
          rw [toList_ago, toList_ago] at hlist
          obtain ⟨hn, hphrase⟩ := append_blank_inj (not_mem_toList_toString n)
            (not_mem_toList_toString n') hlist
          obtain ⟨rfl, rfl⟩ := phrase_injective u u' p p' (String.toList_inj.1 hphrase)
          rw [toString_injective (String.toList_inj.1 hn)]
      | yesterday => exact absurd h (hago n u p).1
      | justNow => exact absurd h (hago n u p).2.1
      | empty => exact absurd h (hago n u p).2.2
  | yesterday =>
      cases b with
      | ago n u p => exact absurd h.symm (hago n u p).1
      | yesterday => rfl
      | justNow => exact absurd h (by decide)
      | empty => exact absurd h (by decide)
  | justNow =>
      cases b with
      | ago n u p => exact absurd h.symm (hago n u p).2.1
      | yesterday => exact absurd h (by decide)
      | justNow => rfl
      | empty => exact absurd h (by decide)
  | empty =>
      cases b with
      | ago n u p => exact absurd h.symm (hago n u p).2.2
      | yesterday => exact absurd h (by decide)
      | justNow => exact absurd h (by decide)
      | empty => rfl

/-! ### Which unit is shown -/

/-- The place of a unit in the cascade, which is also the reading its test is made at as
long as every test before it fails. -/
def CalendarUnit.rank : CalendarUnit → ℕ
  | .year => 0
  | .month => 1
  | .weekOfYear => 2
  | .day => 3
  | .hour => 4
  | .minute => 5
  | .second => 6

/-- **The unit that is shown**: no coarser unit is full at its test, and this one is; the
test for seconds lets every past date pass. -/
structure Shows (cal : Calendar) (d : Date) (now : ℕ → Date) (u : CalendarUnit) : Prop where
  coarser : ∀ v : CalendarUnit, v.rank < u.rank → cal.dateComponents v d (now v.rank) ≤ 0
  passes : u = .second ∨ 0 < cal.dateComponents u d (now u.rank)

/-- The text for a unit on a clock that stands still. -/
def CalendarUnit.shown : CalendarUnit → ℤ → RelativeTime
  | .day, n => if n = 1 then .yesterday else .ago n .day true
  | .second, n => if n < 15 then .justNow else .ago n .second (1 < n)
  | u, n => .ago n u (1 < n)

section Readings

variable {cal : Calendar} {d : Date} {now : ℕ → Date} {u u' : CalendarUnit}

/-- Some unit is shown. -/
theorem exists_shows (cal : Calendar) (d : Date) (now : ℕ → Date) : ∃ u, Shows cal d now u := by
  by_contra hnone
  have hall : ∀ n, ∀ v : CalendarUnit, v.rank < n → v.rank < 6 →
      cal.dateComponents v d (now v.rank) ≤ 0 := by
    intro n
    induction n with
    | zero => exact fun v hv => absurd hv (Nat.not_lt_zero _)
    | succ n ih =>
        intro v hv hsix
        by_contra hfull
        refine hnone ⟨v, fun w hw => ih w (by omega) (by omega), Or.inr (not_le.1 hfull)⟩
  exact hnone ⟨.second, fun v hv => hall 6 v hv hv, Or.inl rfl⟩

variable (cal d now)

/-- The clock is read once for a unit. -/
theorem bind_fromNow {α : Type} (f : ℤ → StateM ℕ α) (i : ℕ) :
    (fromNow cal d now u >>= f) i = f (cal.dateComponents u d (now i)) (i + 1) := rfl

theorem ite_run {α : Type} {p : Prop} [Decidable p] (a b : StateM ℕ α) (i : ℕ) :
    (if p then a else b) i = if p then a i else b i := by
  split_ifs <;> rfl

/-- The cascade with its readings. -/
theorem relativeTime_eq : relativeTime cal d now 0 =
    if 0 < cal.dateComponents .year d (now 0) then ago .year (fromNow cal d now .year) 1
    else if 0 < cal.dateComponents .month d (now 1) then ago .month (fromNow cal d now .month) 2
    else if 0 < cal.dateComponents .weekOfYear d (now 2) then
      ago .weekOfYear (fromNow cal d now .weekOfYear) 3
    else if 0 < cal.dateComponents .day d (now 3) then daysAgo cal d now 4
    else if 0 < cal.dateComponents .hour d (now 4) then ago .hour (fromNow cal d now .hour) 5
    else if 0 < cal.dateComponents .minute d (now 5) then ago .minute (fromNow cal d now .minute) 6
    else if 0 ≤ cal.dateComponents .second d (now 6) then secondsAgo cal d now 7
    else (.empty, 7) := by
  simp only [relativeTime, yearsFromNow, monthsFromNow, weeksFromNow, daysFromNow, hoursFromNow,
    minutesFromNow, secondsFromNow, bind_fromNow, ite_run]
  rfl

/-- What is said about a unit whose count is read from the `i`th reading on, and the number of
readings in the end. -/
def worded (i : ℕ) : CalendarUnit → RelativeTime × ℕ
  | .day => if cal.dateComponents .day d (now i) = 1 then (.yesterday, i + 1)
      else (.ago (cal.dateComponents .day d (now (i + 1))) .day true, i + 2)
  | .second => if cal.dateComponents .second d (now i) < 15 then (.justNow, i + 1)
      else (.ago (cal.dateComponents .second d (now (i + 1))) .second
        (1 < cal.dateComponents .second d (now (i + 2))), i + 3)
  | u => (.ago (cal.dateComponents u d (now i)) u (1 < cal.dateComponents u d (now (i + 1))), i + 2)

/-- Days are worded as the others, yesterday apart. -/
theorem daysAgo_eq (i : ℕ) : daysAgo cal d now i = worded cal d now i .day := by
  simp only [daysAgo, daysFromNow, bind_fromNow, ite_run, worded]
  rfl

/-- Seconds are, just now apart. -/
theorem secondsAgo_eq (i : ℕ) : secondsAgo cal d now i = worded cal d now i .second := by
  simp only [secondsAgo, secondsFromNow, bind_fromNow, ite_run, worded]
  rfl

variable {cal d now}

/-- **The first unit whose test passes is shown.** -/
theorem relativeTime_of_shows (h : Shows cal d now u) (hd : d ≤ now 6) :
    relativeTime cal d now 0 = worded cal d now (u.rank + 1) u := by
  have hfails : ∀ v : CalendarUnit, v.rank < u.rank → ¬ 0 < cal.dateComponents v d (now v.rank) :=
    fun v hv => not_lt.2 (h.coarser v hv)
  have hpasses : u ≠ .second → 0 < cal.dateComponents u d (now u.rank) := h.passes.resolve_left
  rw [relativeTime_eq]
  -- every test before the one of `u` fails
  cases u with
  | year => exact if_pos (hpasses (by decide))
  | month =>
      refine (if_neg (hfails .year (by decide))).trans ?_
      exact if_pos (hpasses (by decide))
  | weekOfYear =>
      refine (if_neg (hfails .year (by decide))).trans ?_
      refine (if_neg (hfails .month (by decide))).trans ?_
      exact if_pos (hpasses (by decide))
  | day =>
      refine (if_neg (hfails .year (by decide))).trans ?_
      refine (if_neg (hfails .month (by decide))).trans ?_
      refine (if_neg (hfails .weekOfYear (by decide))).trans ?_
      exact (if_pos (hpasses (by decide))).trans (daysAgo_eq cal d now 4)
  | hour =>
      refine (if_neg (hfails .year (by decide))).trans ?_
      refine (if_neg (hfails .month (by decide))).trans ?_
      refine (if_neg (hfails .weekOfYear (by decide))).trans ?_
      refine (if_neg (hfails .day (by decide))).trans ?_
      exact if_pos (hpasses (by decide))
  | minute =>
      refine (if_neg (hfails .year (by decide))).trans ?_
      refine (if_neg (hfails .month (by decide))).trans ?_
      refine (if_neg (hfails .weekOfYear (by decide))).trans ?_
      refine (if_neg (hfails .day (by decide))).trans ?_
      refine (if_neg (hfails .hour (by decide))).trans ?_
      exact if_pos (hpasses (by decide))
  | second =>
      refine (if_neg (hfails .year (by decide))).trans ?_
      refine (if_neg (hfails .month (by decide))).trans ?_
      refine (if_neg (hfails .weekOfYear (by decide))).trans ?_
      refine (if_neg (hfails .day (by decide))).trans ?_
      refine (if_neg (hfails .hour (by decide))).trans ?_
      refine (if_neg (hfails .minute (by decide))).trans ?_
      exact (if_pos (cal.dateComponents_nonneg hd)).trans (secondsAgo_eq cal d now 7)

/-- On a clock that stands still a unit is shown with its count. -/
theorem relativeTime_const {t : Date} (h : Shows cal d (fun _ => t) u) (hd : d ≤ t) :
    (relativeTime cal d (fun _ => t) 0).1 = u.shown (cal.dateComponents u d t) := by
  rw [relativeTime_of_shows h hd]
  cases u <;> simp only [worded, CalendarUnit.shown] <;> split_ifs <;> rfl

end Readings

end Teamstuff
