/-
# The rules of the team id row and the paths of the database

The closure `ruleOnlyLetters` and `isValidPathString:` forbid the same five
characters, but they do not look at the same text.  `String.contains` compares
whole characters of Swift, and a forbidden character with a combining mark on it
is another character; `isValidPathString:` looks at the code units and finds the
forbidden one.

So the rules are sound for a team id exactly when a forbidden scalar that occurs in
it also stands there as a character of its own
(`acceptsTeamId_iff_isValidPathString`), and `T1.` with an acute accent on the
full stop passes them and raises.
-/

import Teamstuff.Controller.Account

namespace Teamstuff

/-- The rules of the team id row find no fault with the string. -/
def AcceptsTeamId (g : Graphemes) (teamId : String) : Prop :=
  validateRow [ruleRequired, ruleOnlyLetters g] (some teamId) = []

instance (g : Graphemes) (teamId : String) : Decidable (AcceptsTeamId g teamId) :=
  inferInstanceAs (Decidable (_ = _))

/-- One of the characters of the string is forbidden, and nothing but it. -/
def Graphemes.ShowsInvalid (g : Graphemes) (s : String) : Prop :=
  ∃ c ∈ kInvalidPathCharacters, [c] ∈ g.clusters s

/-- A character is contained if it is a cluster by itself. -/
theorem Graphemes.contains_iff {g : Graphemes} {s : String} {c : Char} :
    g.contains s c = true ↔ [c] ∈ g.clusters s := List.contains_iff_mem

/-- A character of one scalar is a scalar of the string. -/
theorem Graphemes.mem_toList {g : Graphemes} {s : String} {c : Char} (h : [c] ∈ g.clusters s) :
    c ∈ s.toList := by
  rw [← g.flatten_clusters s]
  exact List.mem_flatten.2 ⟨[c], h, List.mem_singleton_self c⟩

/-- Something has to be there. -/
theorem ruleRequired_eq_none {s : String} : ruleRequired (some s) = none ↔ s ≠ "" := by
  unfold ruleRequired
  by_cases h : s = "" <;> simp [h]

/-- No character that is not allowed may show. -/
theorem ruleOnlyLetters_eq_none {g : Graphemes} {s : String} :
    ruleOnlyLetters g (some s) = none ↔ ¬ g.ShowsInvalid s := by
  have hor : (g.contains s '.' || g.contains s ']' || g.contains s '#' || g.contains s '$' ||
      g.contains s '[') = true ↔ g.ShowsInvalid s := by
    simp only [Bool.or_eq_true, Graphemes.contains_iff, Graphemes.ShowsInvalid,
      kInvalidPathCharacters, List.mem_cons, List.not_mem_nil, or_false, exists_eq_or_imp,
      exists_eq_left]
    tauto
  unfold ruleOnlyLetters
  dsimp only
  split_ifs with h
  · exact iff_of_false (by simp) (not_not.2 (hor.1 h))
  · exact iff_of_true rfl fun hs => h (hor.2 hs)

/-- What the two rules accept. -/
theorem acceptsTeamId_iff {g : Graphemes} {s : String} :
    AcceptsTeamId g s ↔ s ≠ "" ∧ ¬ g.ShowsInvalid s := by
  rw [← ruleRequired_eq_none, ← ruleOnlyLetters_eq_none (g := g), AcceptsTeamId, validateRow,
    List.filterMap_eq_nil_iff, List.forall_mem_cons, List.forall_mem_singleton]

/-- The setup screen goes on with a team id exactly when the rules accept it. -/
theorem AdditionalSetupViewController.submit_eq_some_iff {g : Graphemes}
    {vc : AdditionalSetupViewController} {teamId : String} :
    vc.submit g = some teamId ↔ vc.teamIdRow = some teamId ∧ AcceptsTeamId g teamId := by
  unfold submit validate AcceptsTeamId
  constructor
  · intro h
    split_ifs at h with hv
    rw [h] at hv
    exact ⟨h, List.isEmpty_iff.1 hv⟩
  · rintro ⟨h, hv⟩
    rw [h, hv]
    rfl

/-- And so does the profile screen, which wants a name as well. -/
theorem ProfileViewController.saveUser_eq_some_iff {g : Graphemes} {vc : ProfileViewController}
    {name teamId : String} :
    vc.saveUser g = some (name, teamId) ↔ vc.nameRow = some name ∧ name ≠ "" ∧
      vc.teamIdRow = some teamId ∧ AcceptsTeamId g teamId := by
  have hname : validateRow [ruleRequired] (some name) = [] ↔ name ≠ "" := by
    rw [validateRow, List.filterMap_eq_nil_iff, List.forall_mem_singleton, ruleRequired_eq_none]
  unfold saveUser validate AcceptsTeamId
  constructor
  · intro h
    split_ifs at h with hv
    obtain ⟨hv₁, hv₂⟩ := List.append_eq_nil_iff.1 (List.isEmpty_iff.1 hv)
    cases hn : vc.nameRow with
    | none => simp [hn] at h
    | some name' =>
        cases ht : vc.teamIdRow with
        | none => simp [hn, ht] at h
        | some teamId' =>
            rw [hn, ht] at h
            obtain ⟨rfl, rfl⟩ := Prod.mk.inj (Option.some.inj h)
            exact ⟨rfl, hname.1 (hn ▸ hv₁), rfl, ht ▸ hv₂⟩
  · rintro ⟨hn, hne, ht, hv⟩
    rw [hn, ht, hname.2 hne, hv]
    rfl

/-- A valid path string shows no forbidden character, since it has none. -/
theorem acceptsTeamId_of_isValidPathString {g : Graphemes} {s : String}
    (h : isValidPathString s = true) : AcceptsTeamId g s := by
  obtain ⟨hne, hall⟩ := isValidPathString_iff.1 h
  refine acceptsTeamId_iff.2 ⟨hne, ?_⟩
  rintro ⟨c, hc, hmem⟩
  exact hall c (Graphemes.mem_toList hmem) hc

/-- The string makes neither `hasChild` nor `child` raise. -/
def RaisesNothing (teamId : String) : Prop :=
  (∀ snapshot : Node, ∃ found, snapshot.hasChild teamId = .ok found) ∧ ∃ p, teamRef teamId = .ok p

/-- What raises no exception. -/
theorem raisesNothing_iff {s : String} : RaisesNothing s ↔ isValidPathString s = true := by
  constructor
  · rintro ⟨_, p, hp⟩
    exact (teamRef_eq_ok.1 hp).1
  · intro h
    refine ⟨fun snapshot => ?_, _, teamRef_eq_ok.2 ⟨h, rfl⟩⟩
    exact ⟨_, Node.hasChild_eq_ok.2 ⟨h, (Bool.not_not _).symm⟩⟩

/-- **When the rules and the database agree on a team id.**  The rules accept
exactly the valid path strings, and what they accept raises nothing, if and only if
a string with a forbidden scalar shows a forbidden character. -/
theorem acceptsTeamId_iff_isValidPathString (g : Graphemes) (teamId : String) :
    ((AcceptsTeamId g teamId ↔ isValidPathString teamId = true) ∧
      (AcceptsTeamId g teamId → RaisesNothing teamId)) ↔
      ((∃ c ∈ teamId.toList, c ∈ kInvalidPathCharacters) → g.ShowsInvalid teamId) := by
  constructor
  · rintro ⟨hiff, _⟩ ⟨c, hc, hinvalid⟩
    by_contra hhidden
    have hne : teamId ≠ "" := by
      rintro rfl
      exact List.not_mem_nil hc
    have hvalid := hiff.1 (acceptsTeamId_iff.2 ⟨hne, hhidden⟩)
    exact (isValidPathString_iff.1 hvalid).2 c hc hinvalid
  · intro hshown
    have hvalid : AcceptsTeamId g teamId → isValidPathString teamId = true := by
      intro h
      obtain ⟨hne, hhidden⟩ := acceptsTeamId_iff.1 h
      exact isValidPathString_iff.2 ⟨hne, fun c hc hinvalid => hhidden (hshown ⟨c, hc, hinvalid⟩)⟩
    exact ⟨⟨hvalid, acceptsTeamId_of_isValidPathString⟩, fun h => raisesNothing_iff.2 (hvalid h)⟩

/-! ### Combining marks -/

/-- The block "Combining Diacritical Marks". -/
def isCombiningMark (c : Char) : Bool := 0x300 ≤ c.toNat && c.toNat ≤ 0x36F

/-- The scalars of a string, each combining mark with the character before it. -/
def joinMarks : List Char → List (List Char)
  | [] => []
  | c :: cs =>
      match joinMarks cs with
      | (d :: ds) :: rest =>
          if isCombiningMark d then (c :: d :: ds) :: rest else [c] :: (d :: ds) :: rest
      | rest => [c] :: rest

/-- The clusters make up the string. -/
theorem flatten_joinMarks (cs : List Char) : (joinMarks cs).flatten = cs := by
  induction cs with
  | nil => rfl
  | cons c cs ih =>
      rw [joinMarks]
      split
      · rename_i d ds rest hrest
        rw [hrest] at ih
        split_ifs <;> simp [← ih]
      · rw [List.flatten_cons, ih]
        rfl

/-- The segmentation that knows the combining diacritical marks. -/
def Graphemes.marks : Graphemes where
  clusters := fun s => joinMarks s.toList
  flatten_clusters := fun s => flatten_joinMarks s.toList

/-- **A team id that ends the app.**  A full stop with an acute accent on it is no
full stop to the rules, and `submit` asks a snapshot for a path that raises. -/
theorem submit_accented_full_stop :
    (annsSetup "T1.\u0301").submit .marks = some "T1.\u0301" ∧
    isValidPathString "T1.\u0301" = false ∧
    oneTeam.hasChild "T1.\u0301" = .error ⟨"InvalidPathValidation",
      "(hasChild:) Must be a non-empty string and not contain '.' '#' '$' '[' or ']'"⟩ ∧
    ¬ (AcceptsTeamId .marks "T1.\u0301" ↔ isValidPathString "T1.\u0301" = true) := by
  have hsubmit : (annsSetup "T1.\u0301").submit .marks = some "T1.\u0301" := by decide +kernel
  have hinvalid : isValidPathString "T1.\u0301" = false := by decide +kernel
  refine ⟨hsubmit, hinvalid, by decide +kernel, fun h => ?_⟩
  rw [hinvalid] at h
  exact Bool.false_ne_true (h.1 (AdditionalSetupViewController.submit_eq_some_iff.1 hsubmit).2)

end Teamstuff
