/-
# Numbers written with a fixed number of digits

A list of digits in base `b`, the leading one first, is read as a number (`number`), and a
number is written with as many digits as wanted, the higher ones being dropped (`fixed`).

Among lists of one length the alphabetical order is the order of the numbers
(`number_lt_number_iff`): this is what makes such lists good keys in a store that
keeps its keys as strings.
-/

import Mathlib.Data.Nat.Digits.Defs

namespace Digits

variable {b : ℕ}

/-- The number with these digits, the leading one first. -/
def number (b : ℕ) (ds : List ℕ) : ℕ := Nat.ofDigits b ds.reverse

/-- The last `len` digits of a number, the leading one first. -/
def fixed (b : ℕ) : ℕ → ℕ → List ℕ
  | 0, _ => []
  | len + 1, n => fixed b len (n / b) ++ [n % b]

/-- The first digit counts most. -/
theorem number_cons (d : ℕ) (ds : List ℕ) :
    number b (d :: ds) = number b ds + b ^ ds.length * d := Nat.ofDigits_reverse_cons ds d

/-- The digits in front count as many places more. -/
theorem number_append (ds es : List ℕ) :
    number b (ds ++ es) = number b ds * b ^ es.length + number b es := by
  unfold number
  rw [List.reverse_append, Nat.ofDigits_append, List.length_reverse, Nat.mul_comm, Nat.add_comm]

/-- So many digits spell less than this. -/
theorem number_lt (hb : 1 < b) {ds : List ℕ} (h : ∀ d ∈ ds, d < b) :
    number b ds < b ^ ds.length := by
  have hlt := Nat.ofDigits_lt_base_pow_length hb fun d hd => h d (List.mem_reverse.1 hd)
  rwa [List.length_reverse] at hlt

/-- There are as many digits as asked for. -/
theorem length_fixed (len n : ℕ) : (fixed b len n).length = len := by
  induction len generalizing n with
  | zero => rfl
  | succ len ih => rw [fixed, List.length_append, ih, List.length_singleton]

/-- They are digits. -/
theorem lt_of_mem_fixed (hb : 0 < b) {len n d : ℕ} (h : d ∈ fixed b len n) : d < b := by
  induction len generalizing n with
  | zero => exact absurd h List.not_mem_nil
  | succ len ih =>
      rw [fixed] at h
      rcases List.mem_append.1 h with h | h
      · exact ih h
      · rw [List.mem_singleton.1 h]
        exact Nat.mod_lt n hb

/-- Writing a number and reading it again drops the higher digits. -/
theorem number_fixed (len n : ℕ) : number b (fixed b len n) = n % b ^ len := by
  induction len generalizing n with
  | zero => rw [pow_zero, Nat.mod_one]; rfl
  | succ len ih =>
      rw [fixed, number_append, ih, List.length_singleton, pow_one, pow_succ', Nat.mod_mul]
      have hlast : number b [n % b] = n % b := Nat.ofDigits_singleton
      rw [hlast, Nat.mul_comm, Nat.add_comm]

/-- A number has only one list of digits of a given length. -/
theorem number_inj (hb : 1 < b) {ds es : List ℕ} (hlen : ds.length = es.length)
    (hds : ∀ d ∈ ds, d < b) (hes : ∀ e ∈ es, e < b) (h : number b ds = number b es) : ds = es := by
  refine List.reverse_inj.1 (Nat.ofDigits_inj_of_len_eq hb ?_ (fun d hd => ?_) (fun e he => ?_) h)
  · rw [List.length_reverse, List.length_reverse, hlen]
  · exact hds d (List.mem_reverse.1 hd)
  · exact hes e (List.mem_reverse.1 he)

/-- **Among lists of one length the alphabetical order is that of the numbers.** -/
theorem number_lt_number_iff (hb : 1 < b) {ds es : List ℕ} (hlen : ds.length = es.length)
    (hds : ∀ d ∈ ds, d < b) (hes : ∀ e ∈ es, e < b) : number b ds < number b es ↔ ds < es := by
  induction ds generalizing es with
  | nil =>
      obtain rfl := List.length_eq_zero_iff.1 hlen.symm
      exact iff_of_false (lt_irrefl _) (List.lt_irrefl _)
  | cons d ds ih =>
      cases es with
      | nil => exact nomatch hlen
      | cons e es =>
          have hlen' : ds.length = es.length := Nat.succ.inj hlen
          have hds' := number_lt hb fun d hd => hds d (List.mem_cons_of_mem _ hd)
          have hes' := number_lt hb fun e he => hes e (List.mem_cons_of_mem _ he)
          rw [number_cons, number_cons, List.cons_lt_cons_iff,
            ← ih hlen' (fun d hd => hds d (List.mem_cons_of_mem _ hd)) fun e he =>
              hes e (List.mem_cons_of_mem _ he), hlen']
          rw [hlen'] at hds'
          -- a leading digit outweighs all that follow it
          rcases lt_trichotomy d e with hlt | rfl | hlt
          · have hle := Nat.mul_le_mul_left (b ^ es.length) (Nat.succ_le_of_lt hlt)
            rw [Nat.mul_succ] at hle
            exact iff_of_true (by omega) (Or.inl hlt)
          · rw [Nat.add_lt_add_iff_right]
            exact ⟨fun h => Or.inr ⟨rfl, h⟩, fun h => h.elim (fun h => absurd h (lt_irrefl d)) And.right⟩
          · have hle := Nat.mul_le_mul_left (b ^ es.length) (Nat.succ_le_of_lt hlt)
            rw [Nat.mul_succ] at hle
            refine iff_of_false (by omega) ?_
            rintro (h | ⟨rfl, _⟩)
            · exact absurd h (lt_asymm hlt)
            · exact absurd hlt (lt_irrefl d)

end Digits
