/-
# Database paths and the strings they are made from

`FPath.m`, `FValidation.m` and `FIRDatabaseReference.m` of the vendored
`FirebaseDatabase`.

A path is the list of the non-empty pieces of a string split on `/`
(`FPath initWith:`, `childFromString:`).  The string itself is only checked for
the characters `[ ] . # $`; a `/` is a separator and passes
(`isValidPathString`).  A dictionary key must not contain `/` either
(`isValidKey`).  Where a check fails the SDK raises an Objective-C exception,
which Swift code cannot catch: here it is the `error` of `Except NSException`.

A string without `/` is the path with that one piece
(`FPath.initWith_of_not_mem`), and no piece of any path contains `/`
(`FPath.not_mem_of_mem_initWith`).
-/

import Mathlib.Data.List.Basic
import Mathlib.Data.String.Basic

namespace Teamstuff

/-- An Objective-C exception raised by the SDK. -/
structure NSException where
  name : String
  reason : String
deriving DecidableEq, Repr

/-- `FValidation.m`: characters a path string must not contain. -/
def kInvalidPathCharacters : List Char := ['[', ']', '.', '#', '$']

/-- `FValidation.m`: characters a dictionary key must not contain. -/
def kInvalidKeyCharacters : List Char := ['[', ']', '.', '#', '$', '/']

/-- `isValidPathString:`.  Each of the characters is one UTF-16 code unit that
no other character's encoding contains, so the search by code units is a search
by Unicode scalars. -/
def isValidPathString (pathString : String) : Bool :=
  !pathString.toList.isEmpty && !pathString.toList.any kInvalidPathCharacters.contains

/-- `isValidKey:`. -/
def isValidKey (key : String) : Bool :=
  !key.toList.isEmpty && !key.toList.any kInvalidKeyCharacters.contains

/-- `validateFrom:validPathString:`. -/
def validatePathString (fn pathString : String) : Except NSException Unit :=
  if isValidPathString pathString then .ok ()
  else .error
    { name := "InvalidPathValidation"
      reason := "(" ++ fn ++
        ") Must be a non-empty string and not contain '.' '#' '$' '[' or ']'" }

/-- The pieces of a path, from the root down. -/
abbrev FPath := List String

/-- `FPath initWith:`, the non-empty pieces of the string split on `/`. -/
def FPath.initWith (path : String) : FPath :=
  ((path.toList.splitOn '/').filter fun piece => !piece.isEmpty).map String.ofList

/-- `FPath childFromString:`. -/
def FPath.childFromString (self : FPath) (childPath : String) : FPath :=
  self ++ FPath.initWith childPath

/-- `FIRDatabaseReference child:`.  `validateFrom:validRootPathString:`, used at
the root, differs only for strings with `.info`, which no caller passes. -/
def FPath.child (self : FPath) (pathString : String) : Except NSException FPath := do
  validatePathString "child:" pathString
  return self.childFromString pathString

theorem isValidPathString_iff {s : String} :
    isValidPathString s = true ↔ s ≠ "" ∧ ∀ c ∈ s.toList, c ∉ kInvalidPathCharacters := by
  simp [isValidPathString]

theorem isValidKey_iff {s : String} :
    isValidKey s = true ↔ s ≠ "" ∧ ∀ c ∈ s.toList, c ∉ kInvalidKeyCharacters := by
  simp [isValidKey]

/-- A key is a path string without `/`. -/
theorem isValidKey_iff_isValidPathString {s : String} :
    isValidKey s = true ↔ isValidPathString s = true ∧ '/' ∉ s.toList := by
  have hsplit : ∀ c, c ∈ kInvalidKeyCharacters ↔ c ∈ kInvalidPathCharacters ∨ c = '/' := by
    simp [kInvalidKeyCharacters, kInvalidPathCharacters, or_assoc]
  rw [isValidKey_iff, isValidPathString_iff, and_assoc]
  refine and_congr_right fun _ => ⟨fun h => ⟨fun c hc hbad => ?_, fun hs => ?_⟩, fun h c hc hbad => ?_⟩
  · exact h c hc ((hsplit c).2 (Or.inl hbad))
  · exact h '/' hs ((hsplit '/').2 (Or.inr rfl))
  · rcases (hsplit c).1 hbad with hb | rfl
    · exact h.1 c hc hb
    · exact h.2 hc

/-- A non-empty string without `/` is a path of one piece. -/
theorem FPath.initWith_of_not_mem {s : String} (hne : s ≠ "") (h : '/' ∉ s.toList) :
    FPath.initWith s = [s] := by
  have hl : s.toList ≠ [] := fun he => hne (String.toList_injective (he.trans rfl))
  simp [FPath.initWith, List.splitOn_eq_singleton h, hl]

/-- A dictionary key is a path of one piece. -/
theorem FPath.initWith_of_isValidKey {s : String} (h : isValidKey s = true) :
    FPath.initWith s = [s] :=
  FPath.initWith_of_not_mem (isValidKey_iff.1 h).1 (isValidKey_iff_isValidPathString.1 h).2

theorem not_mem_of_mem_splitOn {l p : List Char} (h : p ∈ l.splitOn '/') : '/' ∉ p := by
  induction l generalizing p with
  | nil => simp_all
  | cons c l ih =>
      rw [List.splitOn_cons_eq_if_modifyHead] at h
      split_ifs at h with hc
      · rcases List.mem_cons.1 h with rfl | h
        · exact List.not_mem_nil
        · exact ih h
      · obtain ⟨q, qs, hq⟩ := List.exists_cons_of_ne_nil (List.splitOn_ne_nil '/' l)
        rw [hq, List.modifyHead_cons] at h
        rcases List.mem_cons.1 h with rfl | h
        · have hq' : '/' ∉ q := ih (hq ▸ List.mem_cons_self)
          simp only [beq_iff_eq] at hc
          exact fun hm => (List.mem_cons.1 hm).elim (fun e => hc e.symm) hq'
        · exact ih (hq ▸ List.mem_cons_of_mem q h)

/-- No piece of a path contains `/`. -/
theorem FPath.not_mem_of_mem_initWith {s piece : String} (h : piece ∈ FPath.initWith s) :
    '/' ∉ piece.toList := by
  simp only [FPath.initWith, List.mem_map, List.mem_filter] at h
  obtain ⟨p, ⟨hp, _⟩, rfl⟩ := h
  rw [String.toList_ofList]
  exact not_mem_of_mem_splitOn hp

/-- `child` succeeds exactly on valid path strings. -/
theorem FPath.child_eq_ok {self p : FPath} {s : String} :
    self.child s = .ok p ↔ isValidPathString s = true ∧ p = self ++ FPath.initWith s := by
  unfold FPath.child validatePathString
  by_cases h : isValidPathString s = true
  · rw [if_pos h]
    exact ⟨fun he => ⟨h, (Except.ok.inj he).symm⟩, fun he => he.2 ▸ rfl⟩
  · rw [if_neg h]
    exact ⟨fun he => (nomatch he), fun he => absurd he.1 h⟩

/-- A key leads to the child of that name. -/
theorem FPath.child_of_isValidKey (self : FPath) {s : String} (h : isValidKey s = true) :
    self.child s = .ok (self ++ [s]) :=
  FPath.child_eq_ok.2 ⟨(isValidKey_iff_isValidPathString.1 h).1, by rw [FPath.initWith_of_isValidKey h]⟩

/-- A team id is split at its slashes, and the empty pieces are dropped. -/
example : FPath.initWith "/Teams//T1/" = ["Teams", "T1"] := by decide

end Teamstuff
