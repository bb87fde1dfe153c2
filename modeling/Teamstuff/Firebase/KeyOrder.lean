/-
# The order of the keys

`compareKey:toKey:` of `FUtilities.m`, the comparator of every dictionary of children: the
decimal 32-bit integers come first, by value and then by length, and then the other
strings.

It is a total preorder (`Std.TransCmp compareKey`) and all but an order of the strings: an
integer zero with a minus sign compares the same as the zero of that length without one,
`-0` as `00` and `-00` as `000`, and nothing else compares the same as another key
(`eq_of_compareKey`).  A dictionary of children cannot keep two such keys apart.
-/

import Teamstuff.Firebase.Path
import Teamstuff.Library.Digits
import Mathlib.Data.List.Induction
import Mathlib.Order.Compare

namespace Teamstuff

/-- `tryParseStringToInt`, a decimal 32-bit integer. -/
def tryParseStringToInt (str : String) : Option ℤ :=
  if 11 < str.length then none
  else
    let (negative, digits) := match str.toList with
      | '-' :: ds => (true, ds)
      | ds => (false, ds)
    if digits.isEmpty || !digits.all Char.isDigit then none
    else
      let value : ℤ := digits.foldl (fun v c => v * 10 + (c.toNat - '0'.toNat : ℕ)) 0
      let value := if negative then -value else value
      if value < -2147483648 ∨ 2147483647 < value then none else some value

/-- The UTF-16 code units of a character. -/
def codeUnits (c : Char) : List ℕ :=
  if c.toNat < 0x10000 then [c.toNat]
  else [0xD800 + (c.toNat - 0x10000) / 0x400, 0xDC00 + (c.toNat - 0x10000) % 0x400]

/-- The UTF-16 code units of a string, what `NSLiteralSearch` compares. -/
def utf16 (s : String) : List ℕ := s.toList.flatMap codeUnits

/-- `compareKey:toKey:`: integers first, by value and then by length, then the
other strings. -/
def compareKey (a b : String) : Ordering :=
  match tryParseStringToInt a, tryParseStringToInt b with
  | some i, some j => if i < j then .lt else if j < i then .gt else compare a.length b.length
  | some _, none => .lt
  | none, some _ => .gt
  | none, none =>
      if utf16 a = utf16 b then .eq else if utf16 a < utf16 b then .lt else .gt

/-- When a key comes before another. -/
theorem compareKey_eq_lt {a b : String} :
    compareKey a b = .lt ↔
      match tryParseStringToInt a, tryParseStringToInt b with
      | some i, some j => i < j ∨ i = j ∧ a.length < b.length
      | some _, none => True
      | none, some _ => False
      | none, none => utf16 a < utf16 b := by
  unfold compareKey
  cases tryParseStringToInt a with
  | none =>
      cases tryParseStringToInt b with
      | none =>
          dsimp only
          split_ifs with h₁ h₂
          · rw [h₁]
            simp
          · simp [h₂]
          · simp [h₂]
      | some j => simp
  | some i =>
      cases tryParseStringToInt b with
      | none => simp
      | some j =>
          dsimp only
          split_ifs with h₁ h₂
          · simp [h₁]
          · simp; omega
          · have : i = j := by omega
            simp [this, Nat.compare_eq_lt]

/-- When two keys are the same to the comparator. -/
theorem compareKey_eq_eq {a b : String} :
    compareKey a b = .eq ↔
      match tryParseStringToInt a, tryParseStringToInt b with
      | some i, some j => i = j ∧ a.length = b.length
      | some _, none => False
      | none, some _ => False
      | none, none => utf16 a = utf16 b := by
  unfold compareKey
  cases tryParseStringToInt a with
  | none =>
      cases tryParseStringToInt b with
      | none =>
          dsimp only
          split_ifs with h₁ h₂ <;> simp [h₁]
      | some j => simp
  | some i =>
      cases tryParseStringToInt b with
      | none => simp
      | some j =>
          dsimp only
          split_ifs with h₁ h₂
          · simp [h₁.ne]
          · simp [h₂.ne']
          · have : i = j := by omega
            simp [this]

/-- The comparison the other way round. -/
theorem compareKey_eq_gt {a b : String} : compareKey a b = .gt ↔ compareKey b a = .lt := by
  rw [compareKey_eq_lt]
  unfold compareKey
  cases tryParseStringToInt a with
  | none =>
      cases tryParseStringToInt b with
      | none =>
          dsimp only
          split_ifs with h₁ h₂
          · rw [h₁]
            simp
          · exact iff_of_false (by decide) (List.lt_asymm h₂)
          · refine iff_of_true rfl ?_
            exact lt_of_le_of_ne (not_lt.1 h₂) (Ne.symm h₁)
      | some j => simp
  | some i =>
      cases tryParseStringToInt b with
      | none => simp
      | some j =>
          dsimp only
          split_ifs with h₁ h₂
          · simp; omega
          · simp [h₂]
          · have : i = j := by omega
            simp [this, Nat.compare_eq_gt]

/-- A key does not come after another if that does not come before it. -/
theorem compareKey_isLE {a b : String} : (compareKey a b).isLE = true ↔ compareKey b a ≠ .lt := by
  rw [ne_eq, ← compareKey_eq_gt]
  cases compareKey a b <;> decide

/-- **The comparator is a total preorder.** -/
instance : Std.TransCmp compareKey where
  eq_swap {a b} := by
    cases hba : compareKey b a with
    | lt => exact compareKey_eq_gt.2 hba
    | gt => exact compareKey_eq_gt.1 hba
    | eq =>
        cases hab : compareKey a b with
        | lt => exact nomatch hba.symm.trans (compareKey_eq_gt.2 hab)
        | gt => exact nomatch hba.symm.trans (compareKey_eq_gt.1 hab)
        | eq => rfl
  isLE_trans {a b c} := by
    simp only [compareKey_isLE, ne_eq, compareKey_eq_lt]
    cases tryParseStringToInt a with
    | none =>
        cases tryParseStringToInt b with
        | none =>
            cases tryParseStringToInt c with
            | none => exact fun hba hcb hca => (not_lt.1 hba).trans (not_lt.1 hcb) |>.not_gt hca
            | some l => exact fun _ h => h
        | some j => exact fun h => absurd trivial h
    | some i =>
        cases tryParseStringToInt c with
        | none => exact fun _ _ h => h
        | some l =>
            cases tryParseStringToInt b with
            | none => exact fun _ h => absurd trivial h
            | some j =>
                dsimp only
                omega

/-! ### Keys that compare the same -/

/-- The code units of a character tell where it ends. -/
theorem codeUnits_append_inj {c d : Char} {us vs : List ℕ}
    (h : codeUnits c ++ us = codeUnits d ++ vs) : c = d ∧ us = vs := by
  have hc : c.toNat < 0xD800 ∨ 0xDFFF < c.toNat ∧ c.toNat < 0x110000 := c.valid
  have hd : d.toNat < 0xD800 ∨ 0xDFFF < d.toNat ∧ d.toNat < 0x110000 := d.valid
  have hnat : c.toNat = d.toNat ∧ us = vs := by
    unfold codeUnits at h
    split_ifs at h <;> simp only [List.cons_append, List.nil_append, List.cons.injEq] at h
    · exact h
    · omega
    · omega
    · obtain ⟨hhigh, hlow, hrest⟩ := h
      exact ⟨by omega, hrest⟩
  exact ⟨Char.toNat_inj.1 hnat.1, hnat.2⟩

/-- A string is known from its code units. -/
theorem utf16_inj {a b : String} (h : utf16 a = utf16 b) : a = b := by
  have hlist : ∀ cs ds : List Char, cs.flatMap codeUnits = ds.flatMap codeUnits → cs = ds := by
    intro cs
    induction cs with
    | nil =>
        intro ds hds
        cases ds with
        | nil => rfl
        | cons d ds =>
            unfold codeUnits at hds
            rw [List.flatMap_nil, List.flatMap_cons] at hds
            split_ifs at hds <;> exact nomatch hds
    | cons c cs ih =>
        intro ds hds
        cases ds with
        | nil =>
            unfold codeUnits at hds
            rw [List.flatMap_nil, List.flatMap_cons] at hds
            split_ifs at hds <;> exact nomatch hds
        | cons d ds =>
            rw [List.flatMap_cons, List.flatMap_cons] at hds
            obtain ⟨rfl, hrest⟩ := codeUnits_append_inj hds
            rw [ih ds hrest]
  exact String.toList_inj.1 (hlist _ _ h)

/-- The loop over the digits. -/
theorem foldl_digits (digits : List Char) :
    digits.foldl (fun (v : ℤ) c => v * 10 + (c.toNat - '0'.toNat : ℕ)) 0 =
      Digits.number 10 (digits.map fun c => c.toNat - '0'.toNat) := by
  induction digits using List.reverseRecOn with
  | nil => rfl
  | append_singleton digits c ih =>
      rw [List.foldl_append, ih, List.map_append, Digits.number_append]
      have hlast : Digits.number 10 [c.toNat - '0'.toNat] = c.toNat - '0'.toNat :=
        Nat.ofDigits_singleton
      simp only [List.foldl_cons, List.foldl_nil, List.map_cons, List.map_nil, hlast,
        List.length_singleton, pow_one, Nat.cast_add, Nat.cast_mul, Nat.cast_ofNat]

/-- The number the digits of a key spell. -/
def digitsNumber (digits : List Char) : ℕ :=
  Digits.number 10 (digits.map fun c => c.toNat - '0'.toNat)

/-- **An integer key** is its digits, after a minus sign or not. -/
theorem tryParseStringToInt_eq_some {key : String} {i : ℤ} (h : tryParseStringToInt key = some i) :
    ∃ digits : List Char, (∀ c ∈ digits, c.isDigit = true) ∧
      ((key.toList = digits ∧ i = digitsNumber digits) ∨
        (key.toList = '-' :: digits ∧ i = -(digitsNumber digits : ℤ))) := by
  unfold tryParseStringToInt at h
  split_ifs at h with hlong
  dsimp only at h
  -- the digits after a minus sign, or the whole key
  split at h
  · rename_i digits hsplit
    simp only [if_true] at h
    split_ifs at h with hdigits hrange
    rw [Bool.or_eq_true, Bool.not_eq_true', not_or, Bool.not_eq_false, List.all_eq_true] at hdigits
    rw [foldl_digits, Option.some.injEq] at h
    exact ⟨digits, hdigits.2, Or.inr ⟨hsplit, h.symm⟩⟩
  · simp only [Bool.false_eq_true, if_false] at h
    split_ifs at h with hdigits hrange
    rw [Bool.or_eq_true, Bool.not_eq_true', not_or, Bool.not_eq_false, List.all_eq_true] at hdigits
    rw [foldl_digits, Option.some.injEq] at h
    exact ⟨key.toList, hdigits.2, Or.inl ⟨rfl, h.symm⟩⟩

/-- The code points of the digits. -/
theorem isDigit_bounds {c : Char} (h : c.isDigit = true) : 48 ≤ c.toNat ∧ c.toNat ≤ 57 :=
  Char.isDigit_iff_toNat.1 h

/-- Digits of one length that spell the same number are the same. -/
theorem digitsNumber_inj {cs ds : List Char} (hlen : cs.length = ds.length)
    (hcs : ∀ c ∈ cs, c.isDigit = true) (hds : ∀ d ∈ ds, d.isDigit = true)
    (h : digitsNumber cs = digitsNumber ds) : cs = ds := by
  have hzero : '0'.toNat = 48 := rfl
  have hlt : ∀ {cs : List Char}, (∀ c ∈ cs, c.isDigit = true) →
      ∀ n ∈ cs.map fun c => c.toNat - '0'.toNat, n < 10 := by
    intro cs hcs n hn
    obtain ⟨c, hc, rfl⟩ := List.mem_map.1 hn
    have := isDigit_bounds (hcs c hc)
    omega
  -- the characters can be read off the numbers again
  have hback : ∀ {cs : List Char}, (∀ c ∈ cs, c.isDigit = true) →
      (cs.map fun c => c.toNat - '0'.toNat).map (fun n => Char.ofNat (n + '0'.toNat)) = cs := by
    intro cs hcs
    rw [List.map_map]
    refine (List.map_congr_left fun c hc => ?_).trans (List.map_id cs)
    have := isDigit_bounds (hcs c hc)
    rw [Function.comp_apply, Nat.sub_add_cancel (by omega), Char.ofNat_toNat, id]
  have hmap := Digits.number_inj (by decide) (by rw [List.length_map, List.length_map, hlen])
    (hlt hcs) (hlt hds) h
  rw [← hback hcs, hmap, hback hds]

/-! ### Negative zeros -/

/-- `-0`, `-00` and so on. -/
def isNegativeZero (key : String) : Bool :=
  key.toList.head? == some '-' && tryParseStringToInt key == some 0

/-- A negative zero starts with a minus sign. -/
theorem isNegativeZero_iff {key : String} :
    isNegativeZero key = true ↔ key.toList.head? = some '-' ∧ tryParseStringToInt key = some 0 := by
  rw [isNegativeZero, Bool.and_eq_true, beq_iff_eq, beq_iff_eq]

/-- **Keys that compare the same** are the same key, negative zeros aside. -/
theorem eq_of_compareKey {a b : String} (ha : isNegativeZero a = false)
    (hb : isNegativeZero b = false) (h : compareKey a b = .eq) : a = b := by
  rw [compareKey_eq_eq] at h
  cases hpa : tryParseStringToInt a with
  | none =>
      cases hpb : tryParseStringToInt b with
      | none =>
          rw [hpa, hpb] at h
          exact utf16_inj h
      | some j =>
          rw [hpa, hpb] at h
          exact h.elim
  | some i =>
      cases hpb : tryParseStringToInt b with
      | none =>
          rw [hpa, hpb] at h
          exact h.elim
      | some j =>
          rw [hpa, hpb] at h
          obtain ⟨rfl, hlen⟩ := h
          rw [← String.length_toList, ← String.length_toList] at hlen
          obtain ⟨cs, hcs, ⟨hlista, hnuma⟩ | ⟨hlista, hnuma⟩⟩ := tryParseStringToInt_eq_some hpa <;>
            obtain ⟨ds, hds, ⟨hlistb, hnumb⟩ | ⟨hlistb, hnumb⟩⟩ := tryParseStringToInt_eq_some hpb <;>
            rw [hlista, hlistb] at hlen
          · have hdigits := digitsNumber_inj hlen hcs hds (by omega)
            exact String.toList_inj.1 (by rw [hlista, hlistb, hdigits])
          · have hzero : isNegativeZero b = true :=
              isNegativeZero_iff.2 ⟨by rw [hlistb]; rfl, by rw [hpb]; congr 1; omega⟩
            exact nomatch hb.symm.trans hzero
          · have hzero : isNegativeZero a = true :=
              isNegativeZero_iff.2 ⟨by rw [hlista]; rfl, by rw [hpa]; congr 1; omega⟩
            exact nomatch ha.symm.trans hzero
          · have hdigits := digitsNumber_inj (Nat.succ.inj hlen) hcs hds (by omega)
            exact String.toList_inj.1 (by rw [hlista, hlistb, hdigits])

/-- A key that is no integer compares the same as no other key. -/
theorem compareKey_eq_eq_iff_of_none {a b : String} (ha : tryParseStringToInt a = none) :
    compareKey a b = .eq ↔ a = b := by
  refine ⟨fun h => ?_, fun h => h ▸ Std.ReflCmp.compare_self⟩
  rw [compareKey_eq_eq, ha] at h
  cases hb : tryParseStringToInt b with
  | none =>
      rw [hb] at h
      exact utf16_inj h
  | some j =>
      rw [hb] at h
      exact h.elim

/-- Another key than one that is no integer does not compare the same. -/
theorem compareKey_ne_of_none {a b : String} (ha : tryParseStringToInt a = none) (hne : a ≠ b) :
    compareKey b a ≠ .eq := fun h =>
  hne ((compareKey_eq_eq_iff_of_none ha).1 (Std.OrientedCmp.eq_symm h))

/-- A key that no other key compares the same as, among such keys: a valid key other than a
negative zero. -/
def isPlainKey (key : String) : Bool := isValidKey key && !isNegativeZero key

/-- A plain key is valid and no negative zero. -/
theorem isPlainKey_iff {key : String} :
    isPlainKey key = true ↔ isValidKey key = true ∧ isNegativeZero key = false := by
  rw [isPlainKey, Bool.and_eq_true, Bool.not_eq_true']

/-- A plain key is valid. -/
theorem isValidKey_of_isPlainKey {key : String} (h : isPlainKey key = true) :
    isValidKey key = true := (isPlainKey_iff.1 h).1

/-- A plain key is no negative zero. -/
theorem isNegativeZero_of_isPlainKey {key : String} (h : isPlainKey key = true) :
    isNegativeZero key = false := (isPlainKey_iff.1 h).2

/-- What names the slot of a key in a dictionary: the key itself, or the zeros that compare
the same as a negative zero. -/
def slotKey (key : String) : String :=
  if isNegativeZero key then String.ofList (List.replicate key.length '0') else key

/-- Other keys name their own slot. -/
theorem slotKey_of_not_isNegativeZero {key : String} (h : isNegativeZero key = false) :
    slotKey key = key := if_neg (by rw [h]; exact Bool.false_ne_true)

/-- Zeros without a sign are no negative zero. -/
theorem isNegativeZero_zeros (n : ℕ) :
    isNegativeZero (String.ofList (List.replicate n '0')) = false := by
  refine Bool.eq_false_iff.2 fun h => ?_
  have hhead := (isNegativeZero_iff.1 h).1
  rw [String.toList_ofList] at hhead
  cases n with
  | zero => exact nomatch hhead
  | succ n => exact absurd (Option.some.inj hhead) (by decide)

/-- No slot has the name of a negative zero. -/
@[simp] theorem isNegativeZero_slotKey (key : String) : isNegativeZero (slotKey key) = false := by
  unfold slotKey
  split_ifs with h
  · exact isNegativeZero_zeros _
  · exact Bool.eq_false_of_not_eq_true h

/-- A few zeros are the integer zero. -/
theorem tryParseStringToInt_zeros {n : ℕ} (hpos : n ≠ 0) (hle : n ≤ 11) :
    tryParseStringToInt (String.ofList (List.replicate n '0')) = some 0 := by
  have hdigits : ∀ n : ℕ, (List.replicate n '0').foldl
      (fun (v : ℤ) c => v * 10 + (c.toNat - '0'.toNat : ℕ)) 0 = 0 := by
    intro n
    induction n with
    | zero => rfl
    | succ n ih => rwa [List.replicate_succ, List.foldl_cons]
  obtain ⟨n, rfl⟩ := Nat.exists_eq_succ_of_ne_zero hpos
  have hall : (List.replicate (n + 1) '0').all Char.isDigit = true := by
    rw [List.all_eq_true]
    intro c hc
    rw [List.eq_of_mem_replicate hc]
    rfl
  unfold tryParseStringToInt
  rw [if_neg (by rw [← String.length_toList, String.toList_ofList, List.length_replicate]; omega),
    String.toList_ofList]
  dsimp only
  split
  · rename_i ds hds
    exact absurd (List.cons.inj hds).1 (by decide)
  · rw [hall, hdigits]
    rfl

/-- A key compares the same as its slot. -/
theorem compareKey_slotKey (key : String) : compareKey (slotKey key) key = .eq := by
  unfold slotKey
  split_ifs with h
  · obtain ⟨hhead, hzero⟩ := isNegativeZero_iff.1 h
    have hpos : key.length ≠ 0 := by
      rw [← String.length_toList]
      intro hlen
      rw [List.length_eq_zero_iff.1 hlen] at hhead
      exact nomatch hhead
    have hle : key.length ≤ 11 := by
      by_contra hlong
      rw [tryParseStringToInt, if_pos (by omega)] at hzero
      exact nomatch hzero
    rw [compareKey_eq_eq, tryParseStringToInt_zeros hpos hle, hzero]
    exact ⟨rfl, by rw [← String.length_toList, String.toList_ofList, List.length_replicate]⟩
  · exact Std.ReflCmp.compare_self

/-- **Keys compare the same when they have one slot.** -/
theorem compareKey_eq_eq_iff_slotKey {a b : String} :
    compareKey a b = .eq ↔ slotKey a = slotKey b := by
  constructor
  · intro h
    refine eq_of_compareKey (isNegativeZero_slotKey a) (isNegativeZero_slotKey b) ?_
    exact Std.TransCmp.eq_trans (Std.TransCmp.eq_trans (compareKey_slotKey a) h)
      (Std.OrientedCmp.eq_symm (compareKey_slotKey b))
  · intro h
    exact Std.TransCmp.eq_trans (Std.OrientedCmp.eq_symm (compareKey_slotKey a))
      (h ▸ compareKey_slotKey b)

end Teamstuff
