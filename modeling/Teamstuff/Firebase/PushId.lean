/-
# Push keys and their order

`FNextPushId.m` of the vendored `FirebaseDatabase`.  A push key is eight characters for
the client's estimate of the server time in milliseconds and twelve for random numbers;
within one millisecond a client counts the random numbers up instead of drawing new ones.

`PUSH_CHARS` is in the order of the characters' codes, so the database, which compares
keys as strings, has push keys in the order of the numbers they spell
(`compareKey_lt_iff`): by the millisecond first and then by the random part.
-/

import Teamstuff.Firebase.Database
import Teamstuff.Library.Binary64
import Teamstuff.Library.Digits
import Mathlib.Data.List.GetD

namespace Teamstuff

/-- The twelve numbers `lastRandChars` holds. -/
structure RandChars where
  chars : List ℕ
  length : chars.length = 12
  lt : ∀ d ∈ chars, d < 64

/-- The statics of `FNextPushId get:`, of which each launch of the app has its own. -/
structure FNextPushId where
  lastPushTime : ℤ
  lastRandChars : RandChars

/-- Twelve times the same number. -/
def RandChars.const (d : Fin 64) : RandChars where
  chars := List.replicate 12 d.val
  length := List.length_replicate
  lt := fun _ hd => (List.eq_of_mem_replicate hd) ▸ d.isLt

/-- The statics of an app that was just launched. -/
def FNextPushId.launched : FNextPushId := ⟨0, .const 0⟩

/-- The loop that counts the numbers up, the last one first; `none` where it leaves the
array. -/
def increment : List ℕ → Option (List ℕ)
  | [] => none
  | d :: ds => if d = 63 then (increment ds).map (0 :: ·) else some ((d + 1) :: ds)

/-- To increment the digits is to add one to their number. -/
theorem increment_spec {ds es : List ℕ} (h : increment ds = some es) (hlt : ∀ d ∈ ds, d < 64) :
    es.length = ds.length ∧ (∀ e ∈ es, e < 64) ∧ Nat.ofDigits 64 es = Nat.ofDigits 64 ds + 1 := by
  induction ds generalizing es with
  | nil => exact nomatch h
  | cons d ds ih =>
      have hlt' : ∀ d ∈ ds, d < 64 := fun d hd => hlt d (List.mem_cons_of_mem _ hd)
      have hd := hlt d List.mem_cons_self
      rw [increment] at h
      split_ifs at h with hlast
      · obtain ⟨es', hes', rfl⟩ := Option.map_eq_some_iff.1 h
        obtain ⟨hlen, hes, hnum⟩ := ih hes' hlt'
        refine ⟨by rw [List.length_cons, List.length_cons, hlen], ?_, ?_⟩
        · exact List.forall_mem_cons.2 ⟨by decide, hes⟩
        · rw [Nat.ofDigits_cons, Nat.ofDigits_cons, hnum, hlast]
          omega
      · obtain rfl := Option.some.inj h
        refine ⟨rfl, List.forall_mem_cons.2 ⟨by omega, hlt'⟩, ?_⟩
        rw [Nat.ofDigits_cons, Nat.ofDigits_cons]
        omega

namespace RandChars

/-- The numbers of the next key of the same millisecond. -/
def next (r : RandChars) : Option RandChars :=
  match h : increment r.chars.reverse with
  | none => none
  | some ds => some
      { chars := ds.reverse
        length := by
          have hspec := increment_spec h fun d hd => r.lt d (List.mem_reverse.1 hd)
          rw [List.length_reverse, hspec.1, List.length_reverse, r.length]
        lt := fun d hd =>
          (increment_spec h fun d hd => r.lt d (List.mem_reverse.1 hd)).2.1 d (List.mem_reverse.1 hd) }

/-- The number the twelve spell. -/
def number (r : RandChars) : ℕ := Digits.number 64 r.chars

/-- Twelve digits spell less than this. -/
theorem number_lt (r : RandChars) : r.number < 64 ^ 12 := by
  have hlt := Digits.number_lt (by decide) r.lt
  rwa [r.length] at hlt

/-- The next characters spell the next number. -/
theorem number_of_next {r r' : RandChars} (h : r.next = some r') : r'.number = r.number + 1 := by
  unfold next at h
  split at h
  · exact nomatch h
  · rename_i ds hds
    obtain rfl := Option.some.inj h
    have hspec := increment_spec hds fun d hd => r.lt d (List.mem_reverse.1 hd)
    rw [number, Digits.number, List.reverse_reverse]
    exact hspec.2.2

end RandChars

/-- The conversion of a floating-point number to `long long`, where it fits. -/
def truncate (x : ℚ) : ℤ := if 0 ≤ x then x.floor else x.ceil

/-- `(long long)(currentTime * 1000)`.  The product is one of doubles, and rounded. -/
def milliseconds (currentTime : ℚ) : ℤ := truncate (Binary64.round (currentTime * 1000))

/-- A later time is not in an earlier millisecond. -/
theorem milliseconds_le_milliseconds {t t' : ℚ} (ht : 0 ≤ t) (h : t ≤ t') :
    milliseconds t ≤ milliseconds t' := by
  have hround : Binary64.round (t * 1000) ≤ Binary64.round (t' * 1000) :=
    Binary64.round_le_round (by linarith) (by linarith)
  have hnonneg : 0 ≤ Binary64.round (t * 1000) := Binary64.round_nonneg (by linarith)
  unfold milliseconds truncate
  rw [if_pos hnonneg, if_pos (hnonneg.trans hround)]
  exact Rat.floor_monotone hround

/-- The clock is not before its origin. -/
theorem milliseconds_nonneg {t : ℚ} (h : 0 ≤ t) : 0 ≤ milliseconds t := by
  have hzero : milliseconds 0 = 0 := by decide +kernel
  exact hzero ▸ milliseconds_le_milliseconds le_rfl h

/-- A time whose exact product with 1000 falls short of the millisecond it is rounded to. -/
example : milliseconds (6485655631159099 / 2 ^ 22) = 1546300800123 ∧
    truncate (6485655631159099 / 2 ^ 22 * 1000) = 1546300800122 := by
  decide +kernel

/-- What the eight characters hold of the milliseconds. -/
def timeNumber (now : ℤ) : ℕ := now.toNat % 64 ^ 8

/-- Until the year 10889 that is all of them. -/
theorem timeNumber_of_lt {now : ℤ} (hnonneg : 0 ≤ now) (hlt : now < 64 ^ 8) :
    (timeNumber now : ℤ) = now := by
  unfold timeNumber
  omega

/-- `[PUSH_CHARS characterAtIndex:]`. -/
def pushChar (d : ℕ) : Char := PUSH_CHARS.getD d '-'

namespace FNextPushId

/-- The statics after a call of `get:`; `none` where the milliseconds do not fit a
`long long` and where it leaves one of its arrays, which before 1970 is that of the
characters as soon as one of the eight is not zero. -/
def advance (currentTime : ℚ) (arc4random : RandChars) (s : FNextPushId) : Option FNextPushId :=
  let now := milliseconds currentTime
  if now < -2 ^ 63 ∨ 2 ^ 63 ≤ now ∨ now < 0 ∧ ¬ (64 ^ 8 : ℤ) ∣ now then none
  else (if now = s.lastPushTime then s.lastRandChars.next else some arc4random).map fun r => ⟨now, r⟩

/-- The numbers of the characters of a key. -/
def digits (s : FNextPushId) : List ℕ :=
  Digits.fixed 64 8 s.lastPushTime.toNat ++ s.lastRandChars.chars

/-- The key made of the statics. -/
def key (s : FNextPushId) : String := String.ofList (s.digits.map pushChar)

/-- `get:`, with the random numbers it draws. -/
def get (currentTime : ℚ) (arc4random : RandChars) (s : FNextPushId) :
    Option (String × FNextPushId) :=
  (s.advance currentTime arc4random).map fun s' => (s'.key, s')

/-- The number a key spells: the milliseconds, and the random part below them. -/
def stamp (s : FNextPushId) : ℕ :=
  timeNumber s.lastPushTime * 64 ^ 12 + s.lastRandChars.number

/-- The number the random part of the next key spells. -/
def randNumber (currentTime : ℚ) (arc4random : RandChars) (s : FNextPushId) : ℕ :=
  if milliseconds currentTime = s.lastPushTime then s.lastRandChars.number + 1
  else arc4random.number

/-- What is remembered from one call to the next. -/
theorem advance_spec {currentTime : ℚ} {arc4random : RandChars} {s s' : FNextPushId}
    (h : s.advance currentTime arc4random = some s') :
    s'.lastPushTime = milliseconds currentTime ∧
      s'.lastRandChars.number = s.randNumber currentTime arc4random := by
  unfold advance at h
  dsimp only at h
  split_ifs at h with hfits hsame
  · obtain ⟨r, hr, rfl⟩ := Option.map_eq_some_iff.1 h
    exact ⟨rfl, by rw [randNumber, if_pos hsame, RandChars.number_of_next hr]⟩
  · obtain rfl := Option.some.inj h
    exact ⟨rfl, by rw [randNumber, if_neg hsame]⟩

/-- The keys go by the milliseconds first. -/
theorem stamp_lt_stamp_iff {s s' : FNextPushId} : s.stamp < s'.stamp ↔
    timeNumber s.lastPushTime < timeNumber s'.lastPushTime ∨
      timeNumber s.lastPushTime = timeNumber s'.lastPushTime ∧
        s.lastRandChars.number < s'.lastRandChars.number := by
  have hs := s.lastRandChars.number_lt
  have hs' := s'.lastRandChars.number_lt
  unfold stamp
  constructor
  · intro h
    rcases lt_trichotomy (timeNumber s.lastPushTime) (timeNumber s'.lastPushTime) with hlt | heq | hgt
    · exact Or.inl hlt
    · exact Or.inr ⟨heq, by rwa [heq, Nat.add_lt_add_iff_left] at h⟩
    · omega
  · rintro (hlt | ⟨heq, hlt⟩)
    · omega
    · rw [heq]
      exact Nat.add_lt_add_left hlt _

/-- There are eight digits of the time and twelve others. -/
theorem length_digits (s : FNextPushId) : s.digits.length = 20 := by
  rw [digits, List.length_append, Digits.length_fixed, s.lastRandChars.length]

/-- All digits are below the base. -/
theorem lt_of_mem_digits {s : FNextPushId} {d : ℕ} (h : d ∈ s.digits) : d < 64 := by
  rcases List.mem_append.1 h with h | h
  · exact Digits.lt_of_mem_fixed (by decide) h
  · exact s.lastRandChars.lt d h

/-- The digits spell the stamp. -/
theorem number_digits (s : FNextPushId) : Digits.number 64 s.digits = s.stamp := by
  rw [digits, Digits.number_append, Digits.number_fixed, s.lastRandChars.length]
  rfl

end FNextPushId

/-! ### The characters -/

/-- There is a character for every digit. -/
theorem length_PUSH_CHARS : PUSH_CHARS.length = 64 := by
  decide

/-- A digit is written with one of the characters. -/
theorem pushChar_mem {d : ℕ} (h : d < 64) : pushChar d ∈ PUSH_CHARS := by
  have hlen : d < PUSH_CHARS.length := length_PUSH_CHARS ▸ h
  rw [pushChar, List.getD_eq_getElem _ _ hlen]
  exact List.getElem_mem hlen

/-- The characters stand in the order of their codes. -/
theorem pairwise_PUSH_CHARS : PUSH_CHARS.Pairwise fun c d => c.toNat < d.toNat := by
  decide +kernel

/-- A character is read as the digit it was written for. -/
theorem idxOf_pushChar {d : ℕ} (h : d < 64) : PUSH_CHARS.idxOf (pushChar d) = d := by
  have hlen : d < PUSH_CHARS.length := length_PUSH_CHARS ▸ h
  have hnodup : PUSH_CHARS.Nodup := pairwise_PUSH_CHARS.imp fun hlt heq => by
    rw [heq] at hlt
    exact lt_irrefl _ hlt
  rw [pushChar, List.getD_eq_getElem _ _ hlen, hnodup.idxOf_getElem]

/-- A character comes before another exactly when its code does. -/
theorem idxOf_lt_idxOf_iff {c d : Char} (hc : c ∈ PUSH_CHARS) (hd : d ∈ PUSH_CHARS) :
    PUSH_CHARS.idxOf c < PUSH_CHARS.idxOf d ↔ c.toNat < d.toNat := by
  have hlt := List.pairwise_iff_getElem.1 pairwise_PUSH_CHARS
  have hc' := List.idxOf_lt_length_of_mem hc
  have hd' := List.idxOf_lt_length_of_mem hd
  have hcode : ∀ {c d : Char} (hc : PUSH_CHARS.idxOf c < PUSH_CHARS.length)
      (hd : PUSH_CHARS.idxOf d < PUSH_CHARS.length), PUSH_CHARS.idxOf c < PUSH_CHARS.idxOf d →
        c.toNat < d.toNat := by
    intro c d hc hd h
    have := hlt _ _ hc hd h
    rwa [List.getElem_idxOf, List.getElem_idxOf] at this
  refine ⟨hcode hc' hd', fun h => ?_⟩
  rcases lt_trichotomy (PUSH_CHARS.idxOf c) (PUSH_CHARS.idxOf d) with hi | hi | hi
  · exact hi
  · have heq : c = d := (List.idxOf_inj hc).1 hi
    exact absurd h (heq ▸ lt_irrefl _)
  · exact absurd (hcode hd' hc' hi) (lt_asymm h)

/-! ### The order of the keys -/

/-- The number a key spells. -/
def pushNumber (key : String) : ℕ := Digits.number 64 (key.toList.map PUSH_CHARS.idxOf)

/-- A push key has twenty of the characters. -/
theorem isPushKey_iff {key : String} :
    isPushKey key = true ↔ key.toList.length = 20 ∧ ∀ c ∈ key.toList, c ∈ PUSH_CHARS := by
  unfold isPushKey
  rw [Bool.and_eq_true, decide_eq_true_eq, List.all_eq_true]
  simp only [List.contains_iff_mem]

/-- The keys `get:` returns are push keys. -/
theorem FNextPushId.isPushKey_key (s : FNextPushId) : isPushKey s.key = true := by
  rw [isPushKey_iff, key, String.toList_ofList, List.length_map, length_digits]
  refine ⟨rfl, fun c hc => ?_⟩
  obtain ⟨d, hd, rfl⟩ := List.mem_map.1 hc
  exact pushChar_mem (lt_of_mem_digits hd)

/-- A key spells the time and the random part it was made of. -/
theorem FNextPushId.pushNumber_key (s : FNextPushId) : pushNumber s.key = s.stamp := by
  have hdigits : (s.digits.map pushChar).map PUSH_CHARS.idxOf = s.digits := by
    rw [List.map_map]
    refine (List.map_congr_left fun d hd => ?_).trans (List.map_id _)
    exact idxOf_pushChar (lt_of_mem_digits hd)
  rw [pushNumber, key, String.toList_ofList, hdigits, number_digits]

/-- The code units of a push key are the codes of its characters. -/
theorem utf16_of_isPushKey {key : String} (h : isPushKey key = true) :
    utf16 key = key.toList.map Char.toNat := by
  have hall : (PUSH_CHARS.all fun c => c.toNat < 0x10000) = true := by decide
  have hcodes : ∀ c ∈ PUSH_CHARS, c.toNat < 0x10000 := fun c hc =>
    of_decide_eq_true (List.all_eq_true.1 hall c hc)
  have hsingle : ∀ c ∈ key.toList, codeUnits c = [c.toNat] := fun c hc =>
    if_pos (hcodes c ((isPushKey_iff.1 h).2 c hc))
  unfold utf16
  rw [List.flatMap_congr hsingle, List.map_eq_flatMap]

/-- The order of the codes is the order of the digits. -/
theorem map_toNat_lt_iff {cs ds : List Char} (hlen : cs.length = ds.length)
    (hcs : ∀ c ∈ cs, c ∈ PUSH_CHARS) (hds : ∀ d ∈ ds, d ∈ PUSH_CHARS) :
    cs.map Char.toNat < ds.map Char.toNat ↔
      cs.map PUSH_CHARS.idxOf < ds.map PUSH_CHARS.idxOf := by
  induction cs generalizing ds with
  | nil =>
      obtain rfl := List.length_eq_zero_iff.1 hlen.symm
      rfl
  | cons c cs ih =>
      cases ds with
      | nil => exact nomatch hlen
      | cons d ds =>
          have hc := hcs c List.mem_cons_self
          have hd := hds d List.mem_cons_self
          simp only [List.map_cons, List.cons_lt_cons_iff, idxOf_lt_idxOf_iff hc hd,
            List.idxOf_inj hc, ih (Nat.succ.inj hlen)
              (fun c hc => hcs c (List.mem_cons_of_mem _ hc)) fun d hd =>
                hds d (List.mem_cons_of_mem _ hd)]
          exact or_congr_right (and_congr_left fun _ =>
            ⟨fun h => Char.toNat_inj.1 h, congrArg Char.toNat⟩)

/-- A push key is read as digits. -/
theorem idxOf_toList_lt {key : String} (h : isPushKey key = true) :
    ∀ d ∈ key.toList.map PUSH_CHARS.idxOf, d < 64 := by
  intro d hd
  obtain ⟨c, hc, rfl⟩ := List.mem_map.1 hd
  exact length_PUSH_CHARS ▸ List.idxOf_lt_length_of_mem ((isPushKey_iff.1 h).2 c hc)

/-- **The database has push keys in the order of the numbers they spell.** -/
theorem compareKey_lt_iff {a b : String} (ha : isPushKey a = true) (hb : isPushKey b = true) :
    compareKey a b = .lt ↔ pushNumber a < pushNumber b := by
  obtain ⟨hlena, hcharsa⟩ := isPushKey_iff.1 ha
  obtain ⟨hlenb, hcharsb⟩ := isPushKey_iff.1 hb
  have hlen : a.toList.length = b.toList.length := hlena.trans hlenb.symm
  rw [compareKey_eq_lt, tryParseStringToInt_of_isPushKey ha, tryParseStringToInt_of_isPushKey hb]
  dsimp only
  rw [utf16_of_isPushKey ha, utf16_of_isPushKey hb, map_toNat_lt_iff hlen hcharsa hcharsb,
    pushNumber, pushNumber, Digits.number_lt_number_iff (by decide)
      (by rw [List.length_map, List.length_map, hlen]) (idxOf_toList_lt ha) (idxOf_toList_lt hb)]

end Teamstuff
