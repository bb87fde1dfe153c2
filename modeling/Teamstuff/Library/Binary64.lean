/-
# Rounding to double precision

The product of two doubles is the exact product, rounded to 53 binary digits or to a
multiple of `2 ^ (-1074)`, whichever is coarser; where two such numbers are equally near, it
is the one whose last digit is even.  Overflow is not part of it: the numbers have no
greatest.

Rounding keeps the order of what is not negative (`round_le_round`).
-/

import Mathlib

namespace Binary64

/-- The next integer, the even one where two are equally near. -/
def nearest (x : ℚ) : ℤ :=
  if Int.fract x < 1 / 2 ∨ Int.fract x = 1 / 2 ∧ ⌊x⌋ % 2 = 0 then ⌊x⌋ else ⌊x⌋ + 1

/-- The exponent of the last digit. -/
def lastPlace (x : ℚ) : ℤ := max (Int.log 2 |x| - 52) (-1074)

/-- The double next to a number. -/
def round (x : ℚ) : ℚ := nearest (x / 2 ^ lastPlace x) * 2 ^ lastPlace x

/-- The nearest integer is one of the two around. -/
theorem floor_le_nearest (x : ℚ) : ⌊x⌋ ≤ nearest x ∧ nearest x ≤ ⌊x⌋ + 1 := by
  unfold nearest
  split_ifs <;> omega

/-- A greater number has no smaller nearest integer. -/
theorem nearest_mono : Monotone nearest := by
  intro x y h
  rcases (Int.floor_le_floor h).lt_or_eq with hlt | heq
  · exact (floor_le_nearest x).2.trans ((Int.add_one_le_iff.2 hlt).trans (floor_le_nearest y).1)
  · -- between the same integers, what is rounded up stays above the middle
    have hfract : Int.fract x ≤ Int.fract y := by
      rw [Int.fract, Int.fract, heq]
      exact sub_le_sub_right h _
    unfold nearest
    rw [heq]
    split_ifs with hx hy hy
    · exact le_rfl
    · omega
    · refine absurd ?_ hx
      rcases hy with hy | ⟨hy, heven⟩
      · exact Or.inl (lt_of_le_of_lt hfract hy)
      · exact (hfract.trans hy.le).lt_or_eq.imp id fun hhalf => ⟨hhalf, heven⟩
    · exact le_rfl

/-- An integer is its own nearest one. -/
theorem nearest_intCast (n : ℤ) : nearest n = n := by
  rw [nearest, Int.fract_intCast, Int.floor_intCast, if_pos (Or.inl (by norm_num))]

/-- A greater number has no lower last place. -/
theorem lastPlace_mono {x y : ℚ} (hx : 0 < x) (h : x ≤ y) : lastPlace x ≤ lastPlace y := by
  unfold lastPlace
  rw [abs_of_pos hx, abs_of_pos (hx.trans_le h)]
  exact max_le_max (Int.sub_le_sub_right (Int.log_mono_right hx h) 52) le_rfl

/-- With a coarser last place than this one a number has all its 53 digits. -/
theorem lt_of_pos {x : ℚ} (hx : 0 < x) : x < 2 ^ (lastPlace x + 53) := by
  have hlog := Int.lt_zpow_succ_log_self (b := 2) (by decide) x
  push_cast at hlog
  refine hlog.trans_le (zpow_le_zpow_right₀ (by norm_num) ?_)
  rw [lastPlace, abs_of_pos hx]
  omega

/-- A normal number has all its places. -/
theorem le_of_lastPlace {x : ℚ} (hx : 0 < x) (h : -1074 < lastPlace x) :
    (2 : ℚ) ^ (lastPlace x + 52) ≤ x := by
  have hlog := Int.zpow_log_le_self (b := 2) (by decide) hx
  push_cast at hlog
  have hplace : lastPlace x + 52 = Int.log 2 x := by
    unfold lastPlace at h ⊢
    rw [abs_of_pos hx] at h ⊢
    omega
  rwa [hplace]

/-- Integers many times the last place are not passed by rounding. -/
theorem round_le_of_le {x : ℚ} {n : ℤ} (h : x ≤ n * 2 ^ lastPlace x) :
    round x ≤ n * 2 ^ lastPlace x := by
  have hpos : (0 : ℚ) < 2 ^ lastPlace x := zpow_pos (by norm_num) _
  have hnearest := nearest_mono ((div_le_iff₀ hpos).2 h)
  rw [nearest_intCast] at hnearest
  exact mul_le_mul_of_nonneg_right (Int.cast_le.2 hnearest) hpos.le

/-- A number of that last place or more is not rounded past. -/
theorem le_round_of_le {x : ℚ} {n : ℤ} (h : n * 2 ^ lastPlace x ≤ x) :
    n * 2 ^ lastPlace x ≤ round x := by
  have hpos : (0 : ℚ) < 2 ^ lastPlace x := zpow_pos (by norm_num) _
  have hnearest := nearest_mono ((le_div_iff₀ hpos).2 h)
  rw [nearest_intCast] at hnearest
  exact mul_le_mul_of_nonneg_right (Int.cast_le.2 hnearest) hpos.le

/-- Zero is a double. -/
theorem round_zero : round 0 = 0 := by
  have hzero : nearest 0 = 0 := nearest_intCast 0
  rw [round, zero_div, hzero, Int.cast_zero, zero_mul]

/-- What is not negative is not rounded below zero. -/
theorem round_nonneg {x : ℚ} (h : 0 ≤ x) : 0 ≤ round x := by
  simpa using le_round_of_le (x := x) (n := 0) (by simpa using h)

/-- **Rounding keeps the order.** -/
theorem round_le_round {x y : ℚ} (hx : 0 ≤ x) (h : x ≤ y) : round x ≤ round y := by
  rcases hx.eq_or_lt with rfl | hx
  · rw [round_zero]
    exact round_nonneg h
  · have htwo : (2 : ℚ) ≠ 0 := by norm_num
    rcases (lastPlace_mono hx h).eq_or_lt with heq | hlt
    · have hpos : (0 : ℚ) < 2 ^ lastPlace y := zpow_pos (by norm_num) _
      rw [round, round, heq]
      exact mul_le_mul_of_nonneg_right
        (Int.cast_le.2 (nearest_mono (div_le_div_of_nonneg_right h hpos.le))) hpos.le
    · -- a power of two stands between the two
      have hplace : -1074 ≤ lastPlace x := le_max_right _ _
      calc round x
        _ ≤ (2 ^ 53 : ℤ) * 2 ^ lastPlace x := by
            refine round_le_of_le ((lt_of_pos hx).le.trans_eq ?_)
            rw [zpow_add₀ htwo, mul_comm]
            norm_num
        _ ≤ (2 ^ 52 : ℤ) * 2 ^ lastPlace y := by
            push_cast
            have hstep : (2 : ℚ) ^ (lastPlace x + 1) ≤ 2 ^ lastPlace y :=
              zpow_le_zpow_right₀ (by norm_num) hlt
            rw [zpow_add₀ htwo] at hstep
            linarith
        _ ≤ round y := by
            refine le_round_of_le (le_trans (le_of_eq ?_)
              (le_of_lastPlace (hx.trans_le h) (hplace.trans_lt hlt)))
            rw [zpow_add₀ htwo, mul_comm]
            norm_num

end Binary64
