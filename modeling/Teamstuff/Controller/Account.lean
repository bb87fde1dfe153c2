/-
# Signing in, setting up and changing the profile

`LoginViewController.swift`, `AdditionalSetupViewController.swift` and
`ProfileViewController.swift`: the rules of the team id row and what the
screens write to `Users` and `Teams`.

Each of `authUI(_:didSignInWith:error:)`, `submit` and `saveUser` first asks for
a snapshot and goes on in the callback, which is modelled apart, as a function
of the snapshot (`didSignIn`, `submitted`, `saved`).

A team id is checked with `hasChild`, which takes it for a path.  The rules
reject the characters a path must not contain, and only those: a `/` passes, and
a team id with a `/` designates a node below some team.  `hasChild` also finds a
team whose key compares the same as the team id, `00` for `-0`.
-/

import Teamstuff.Model.Records
import Teamstuff.Controller.EventsViewController

namespace Teamstuff

/-- The segmentation of strings into the characters of Swift, the extended
grapheme clusters. -/
structure Graphemes where
  clusters : String → List (List Char)
  flatten_clusters : ∀ s, (clusters s).flatten = s.toList

/-- `String.contains` of one character: it must be a whole cluster. -/
def Graphemes.contains (g : Graphemes) (s : String) (c : Char) : Bool := (g.clusters s).contains [c]

/-- The segmentation in which every scalar is a character. -/
def Graphemes.scalars : Graphemes where
  clusters := fun s => s.toList.map fun c => [c]
  flatten_clusters := fun s => by induction s.toList <;> simp_all

/-- Eureka's `ValidationError`. -/
structure ValidationError where
  msg : String
deriving DecidableEq, Repr

/-- `RuleRequired.isValid(value:)` of a text row. -/
def ruleRequired : Option String → Option ValidationError
  | some str => if str.toList.isEmpty then some ⟨"Field required!"⟩ else none
  | none => some ⟨"Field required!"⟩

/-- The closure `ruleOnlyLetters` of the team id rows. -/
def ruleOnlyLetters (g : Graphemes) : Option String → Option ValidationError
  | none => some ⟨"This field can't be empty"⟩
  | some rowValue =>
      if g.contains rowValue '.' || g.contains rowValue ']' || g.contains rowValue '#' ||
          g.contains rowValue '$' || g.contains rowValue '[' then
        some ⟨"This field can't contain '.' '#' '$' '[' or ']'"⟩
      else none

/-- `RowOf.validate()`. -/
def validateRow (rules : List (Option String → Option ValidationError)) (value : Option String) :
    List ValidationError :=
  rules.filterMap fun rule => rule value

/-- The reference of a user record. -/
def userRef (uid : String) : Except NSException FPath := do
  (← FPath.child [] "Users").child uid

/-- The reference of a team. -/
def teamRef (teamId : String) : Except NSException FPath := do
  (← FPath.child [] "Teams").child teamId

/-- The write of a user record. -/
def User.write (user : User) : Except NSException Write := do
  (← userRef user.id).setValue user.encode

/-- The write of a user record by `saveUser`. -/
def User.writeWithCompletionBlock (user : User) : Except NSException Write := do
  (← userRef user.id).setValueWithCompletionBlock user.encode

/-! ### LoginViewController -/

/-- Where `authUI(_:didSignInWith:error:)` leads to. -/
inductive SignIn
  | goHome
  | additionalSetup (user : User) (write : Write)

/-- The callback of `authUI(_:didSignInWith:error:)`, with the snapshot of
`Users`. -/
def didSignIn (uid displayName : String) (snapshot : Node) : Except NSException SignIn := do
  if ← snapshot.hasChild uid then
    return .goHome
  else
    let user := User.make displayName uid
    return .additionalSetup user (← user.write)

/-! ### AdditionalSetupViewController -/

/-- `AdditionalSetupViewController`, with the value of its only input row. -/
structure AdditionalSetupViewController where
  user : User
  teamIdRow : Option String

/-- What a callback of `submit` or `saveUser` does. -/
inductive Submitted
  | teamNotFound (titleLabel : UILabel)
  | noUser
  | stored (user : User) (write : Write)

/-- "Team not found", in red. -/
def teamNotFound : Submitted := .teamNotFound ⟨"Team not found", some .red⟩

namespace AdditionalSetupViewController

/-- `form.validate()`. -/
def validate (g : Graphemes) (vc : AdditionalSetupViewController) : List ValidationError :=
  validateRow [ruleRequired, ruleOnlyLetters g] vc.teamIdRow

/-- `submit`, up to the request of the snapshot of `Teams`: the team id it will
check. -/
def submit (g : Graphemes) (vc : AdditionalSetupViewController) : Option String :=
  if (vc.validate g).isEmpty then vc.teamIdRow else none

/-- The callback of `submit`. -/
def submitted (teamId : String) (snapshot : Node) (vc : AdditionalSetupViewController) :
    Except NSException Submitted := do
  if !(← snapshot.hasChild teamId) then
    return teamNotFound
  else
    let user := { vc.user with teamId := some teamId }
    return .stored user (← user.write)

/-- `submitNewTeam` with the key `childByAutoId` made up: the user, the new value
of `teamIdGlobal` and the two writes. -/
def submitNewTeam (teamKey : String) (vc : AdditionalSetupViewController) :
    Except NSException (User × String × List Write) := do
  let user := { vc.user with teamId := some teamKey }
  let userWrite ← user.write
  let teamWrite ← (← teamRef teamKey).setValue (.leaf (.bool true))
  return (user, teamKey, [userWrite, teamWrite])

end AdditionalSetupViewController

/-! ### ProfileViewController -/

/-- `ProfileViewController`, with the values of its two input rows. -/
structure ProfileViewController where
  user : Option User
  nameRow : Option String
  teamIdRow : Option String
deriving DecidableEq

namespace ProfileViewController

/-- `form.validate()`. -/
def validate (g : Graphemes) (vc : ProfileViewController) : List ValidationError :=
  validateRow [ruleRequired] vc.nameRow ++ validateRow [ruleRequired, ruleOnlyLetters g] vc.teamIdRow

/-- `saveUser`, up to the request of the snapshot of `Teams`: the name and the
team id of the form. -/
def saveUser (g : Graphemes) (vc : ProfileViewController) : Option (String × String) :=
  if (vc.validate g).isEmpty then
    match vc.nameRow, vc.teamIdRow with
    | some name, some teamId => some (name, teamId)
    | _, _ => none
  else none

/-- The callback of `saveUser`. -/
def saved (name teamId : String) (snapshot : Node) (vc : ProfileViewController) :
    Except NSException Submitted := do
  if !(← snapshot.hasChild teamId) then
    return teamNotFound
  else
    match vc.user with
    | none => return .noUser
    | some user =>
        let user := { user with name := name, teamId := some teamId }
        return .stored user (← user.writeWithCompletionBlock)

/-- The callback of `fetchUser`: the screen and the new value of `teamIdGlobal`,
if it gets one.  A record without a team traps. -/
def fetchUser {ε : Type} (decode : Value → Except ε User) (value : Value)
    (vc : ProfileViewController) : Option (ProfileViewController × Option String) :=
  match decode value with
  | .error _ => some (vc, none)
  | .ok user =>
      match user.teamId with
      | none => none
      | some teamId => some
          ({ user := some user, nameRow := some user.name, teamIdRow := user.teamId }, some teamId)

end ProfileViewController

/-! ### What the screens write -/

/-- The reference of a user whose id is a key. -/
theorem userRef_of_isValidKey {uid : String} (h : isValidKey uid = true) :
    userRef uid = .ok ["Users", uid] := by
  rw [userRef, FPath.child_of_isValidKey [] (s := "Users") (by decide), Except.ok_bind,
    FPath.child_of_isValidKey _ h]
  rfl

/-- The path of a team id. -/
theorem teamRef_eq_ok {teamId : String} {p : FPath} :
    teamRef teamId = .ok p ↔ isValidPathString teamId = true ∧
      p = ["Teams"] ++ FPath.initWith teamId := by
  rw [teamRef, FPath.child_of_isValidKey [] (s := "Teams") (by decide), Except.ok_bind,
    FPath.child_eq_ok]
  rfl

/-- A valid key is one name. -/
theorem teamRef_of_isValidKey {teamId : String} (h : isValidKey teamId = true) :
    teamRef teamId = .ok ["Teams", teamId] := by
  rw [teamRef, FPath.child_of_isValidKey [] (s := "Teams") (by decide), Except.ok_bind,
    FPath.child_of_isValidKey _ h]
  rfl

/-- `w` stores the user as a whole, at its own id. -/
def User.Stores (u : User) (w : Write) : Prop := w.path = ["Users", u.id] ∧ u.StoredAs w.node

/-- What is written stores the user. -/
theorem User.stores_of_write {u : User} (hid : isValidKey u.id = true) {w : Write}
    (h : u.write = .ok w) : u.Stores w := by
  rw [User.write, userRef_of_isValidKey hid, Except.ok_bind, FPath.setValue,
    FPath.setValueInternal_eq_ok] at h
  obtain ⟨n, hn, rfl⟩ := h
  exact ⟨rfl, User.storedAs_of_nodeFrom hn⟩

/-- So does what is written with a block. -/
theorem User.stores_of_writeWithCompletionBlock {u : User} (hid : isValidKey u.id = true)
    {w : Write} (h : u.writeWithCompletionBlock = .ok w) : u.Stores w := by
  rw [User.writeWithCompletionBlock, userRef_of_isValidKey hid, Except.ok_bind,
    FPath.setValueWithCompletionBlock, FPath.setValueInternal_eq_ok] at h
  obtain ⟨n, hn, rfl⟩ := h
  exact ⟨rfl, User.storedAs_of_nodeFrom hn⟩

/-- `submit` checks the team id of the row. -/
theorem AdditionalSetupViewController.submit_eq_some {g : Graphemes}
    {vc : AdditionalSetupViewController} {teamId : String} (h : vc.submit g = some teamId) :
    vc.teamIdRow = some teamId := by
  unfold submit at h
  split_ifs at h
  exact h

/-- `saveUser` checks the team id of the row. -/
theorem ProfileViewController.saveUser_eq_some {g : Graphemes} {vc : ProfileViewController}
    {name teamId : String} (h : vc.saveUser g = some (name, teamId)) :
    vc.teamIdRow = some teamId := by
  unfold saveUser at h
  split_ifs at h
  split at h
  · obtain ⟨_, rfl⟩ := Prod.mk.inj (Option.some.inj h)
    assumption
  · exact nomatch h

/-- A sign-in writes a user only when it found no record. -/
theorem didSignIn_eq_additionalSetup {uid displayName : String} {snapshot : Node} {user : User}
    {w : Write} :
    didSignIn uid displayName snapshot = .ok (.additionalSetup user w) ↔
      snapshot.hasChild uid = .ok false ∧ user = .make displayName uid ∧ user.write = .ok w := by
  unfold didSignIn
  rw [Except.bind_eq_ok]
  constructor
  · rintro ⟨found, hfound, h⟩
    cases found with
    | true => exact nomatch Except.ok.inj h
    | false =>
        obtain ⟨w', hw', h⟩ := Except.bind_eq_ok.1 h
        obtain ⟨rfl, rfl⟩ := SignIn.additionalSetup.inj (Except.ok.inj h)
        exact ⟨hfound, rfl, hw'⟩
  · rintro ⟨hfound, rfl, hw⟩
    exact ⟨false, hfound, Except.bind_eq_ok.2 ⟨w, hw, rfl⟩⟩

/-- The home screen is shown to a user who is in the database. -/
theorem didSignIn_eq_goHome {uid displayName : String} {snapshot : Node} :
    didSignIn uid displayName snapshot = .ok .goHome ↔ snapshot.hasChild uid = .ok true := by
  unfold didSignIn
  rw [Except.bind_eq_ok]
  constructor
  · rintro ⟨found, hfound, h⟩
    cases found with
    | true => exact hfound
    | false =>
        obtain ⟨w, _, h⟩ := Except.bind_eq_ok.1 h
        exact nomatch Except.ok.inj h
  · exact fun hfound => ⟨true, hfound, rfl⟩

/-- `submitNewTeam` writes the user first and then the team. -/
theorem AdditionalSetupViewController.submitNewTeam_eq_ok {teamKey : String}
    {vc : AdditionalSetupViewController} {user : User} {teamIdGlobal : String} {ws : List Write}
    (hkey : isValidKey teamKey = true) (h : vc.submitNewTeam teamKey = .ok (user, teamIdGlobal, ws)) :
    user = { vc.user with teamId := some teamKey } ∧ teamIdGlobal = teamKey ∧
      ∃ w, user.write = .ok w ∧ ws = [w, ⟨["Teams", teamKey], .leaf (.bool true)⟩] := by
  unfold submitNewTeam at h
  obtain ⟨w, hw, h⟩ := Except.bind_eq_ok.1 h
  rw [teamRef_of_isValidKey hkey, Except.ok_bind] at h
  obtain ⟨w', hw', h⟩ := Except.bind_eq_ok.1 h
  obtain ⟨n, hn, rfl⟩ := FPath.setValueInternal_eq_ok.1 hw'
  obtain rfl : .leaf (.bool true) = n := Except.ok.inj hn
  obtain ⟨rfl, rfl, rfl⟩ := by simpa only [Prod.mk.injEq] using Except.ok.inj h
  exact ⟨rfl, rfl, w, hw, rfl⟩

/-- What `fetchUser` leaves as the user of the screen was there or was decoded. -/
theorem ProfileViewController.fetchUser_user {ε : Type} {decode : Value → Except ε User}
    {value : Value} {vc vc' : ProfileViewController} {teamIdGlobal : Option String}
    (h : vc.fetchUser decode value = some (vc', teamIdGlobal)) :
    vc' = vc ∨ ∃ user, decode value = .ok user ∧ vc'.user = some user := by
  unfold fetchUser at h
  cases hd : decode value with
  | error _ =>
      rw [hd] at h
      exact Or.inl (Prod.mk.inj (Option.some.inj h)).1.symm
  | ok user =>
      simp only [hd] at h
      cases ht : user.teamId with
      | none => rw [ht] at h; exact nomatch h
      | some teamId =>
          rw [ht] at h
          obtain ⟨rfl, _⟩ := Prod.mk.inj (Option.some.inj h)
          exact Or.inr ⟨user, rfl, rfl⟩

/-- A record that is decoded sets `teamIdGlobal`. -/
theorem ProfileViewController.fetchUser_global {ε : Type} {decode : Value → Except ε User}
    {value : Value} {vc vc' : ProfileViewController} {teamIdGlobal : Option String} {user : User}
    (hdecode : decode value = .ok user) (h : vc.fetchUser decode value = some (vc', teamIdGlobal)) :
    teamIdGlobal = user.teamId := by
  unfold fetchUser at h
  simp only [hdecode] at h
  cases ht : user.teamId with
  | none => rw [ht] at h; exact nomatch h
  | some teamId =>
      rw [ht] at h
      exact (Prod.mk.inj (Option.some.inj h)).2.symm

/-! ### What is stored as a team -/

/-- The callback of `submit` stores a team id only when it found it. -/
theorem AdditionalSetupViewController.submitted_eq_stored {teamId : String} {snapshot : Node}
    {vc : AdditionalSetupViewController} {user : User} {w : Write} :
    vc.submitted teamId snapshot = .ok (.stored user w) ↔ snapshot.hasChild teamId = .ok true ∧
      user = { vc.user with teamId := some teamId } ∧ user.write = .ok w := by
  unfold submitted
  rw [Except.bind_eq_ok]
  constructor
  · rintro ⟨found, hfound, h⟩
    cases found with
    | false => exact nomatch Except.ok.inj h
    | true =>
        obtain ⟨w', hw', h⟩ := Except.bind_eq_ok.1 h
        obtain ⟨rfl, rfl⟩ := Submitted.stored.inj (Except.ok.inj h)
        exact ⟨hfound, rfl, hw'⟩
  · rintro ⟨hfound, rfl, hw⟩
    exact ⟨true, hfound, Except.bind_eq_ok.2 ⟨w, hw, rfl⟩⟩

/-- The callback of `saveUser` stores a team id only when it found it. -/
theorem ProfileViewController.saved_eq_stored {name teamId : String} {snapshot : Node}
    {vc : ProfileViewController} {user : User} {w : Write} :
    vc.saved name teamId snapshot = .ok (.stored user w) ↔ snapshot.hasChild teamId = .ok true ∧
      ∃ u, vc.user = some u ∧ user = { u with name := name, teamId := some teamId } ∧
        user.writeWithCompletionBlock = .ok w := by
  unfold saved
  rw [Except.bind_eq_ok]
  constructor
  · rintro ⟨found, hfound, h⟩
    cases found with
    | false => exact nomatch Except.ok.inj h
    | true =>
        cases hu : vc.user with
        | none => simp only [hu] at h; exact nomatch Except.ok.inj h
        | some u =>
            simp only [hu] at h
            obtain ⟨w', hw', h⟩ := Except.bind_eq_ok.1 h
            obtain ⟨rfl, rfl⟩ := Submitted.stored.inj (Except.ok.inj h)
            exact ⟨hfound, u, rfl, rfl, hw'⟩
  · rintro ⟨hfound, u, hu, rfl, hw⟩
    refine ⟨true, hfound, ?_⟩
    simp only [hu]
    exact Except.bind_eq_ok.2 ⟨w, hw, rfl⟩

/-- The keys of `Teams` that compare the same as a team id are that id. -/
def NoOtherSpelling (teams : Node) (teamId : String) : Prop :=
  ∀ key ∈ teams.keys, compareKey teamId key = .eq → key = teamId

instance (teams : Node) (teamId : String) : Decidable (NoOtherSpelling teams teamId) :=
  inferInstanceAs (Decidable (∀ key ∈ teams.keys, compareKey teamId key = .eq → key = teamId))

/-- A team id without `/` that was found compares the same as the key of a team. -/
theorem exists_key_of_hasChild {teams : Node} {teamId : String}
    (hfound : teams.hasChild teamId = .ok true) (hslash : '/' ∉ teamId.toList) :
    ∃ key ∈ teams.keys, compareKey teamId key = .eq := by
  obtain ⟨hvalid, hne⟩ := Node.hasChild_eq_ok_true.1 hfound
  rw [FPath.initWith_of_not_mem (isValidPathString_iff.1 hvalid).1 hslash, Node.getChild_cons,
    Node.getChild_nil] at hne
  obtain ⟨key, hkey, hmem⟩ := Node.exists_mem_childList hne
  exact ⟨key, List.mem_map.2 ⟨_, hmem, rfl⟩, hkey⟩

/-- A team that is found is there, unless it is spelled otherwise. -/
theorem mem_keys_of_hasChild {teams : Node} {teamId : String}
    (hfound : teams.hasChild teamId = .ok true) (hslash : '/' ∉ teamId.toList)
    (hother : NoOtherSpelling teams teamId) : teamId ∈ teams.keys := by
  obtain ⟨key, hmem, hkey⟩ := exists_key_of_hasChild hfound hslash
  exact hother key hmem hkey ▸ hmem

/-- A key of `Teams` is in no other spelling there. -/
theorem noOtherSpelling_of_mem {teams : Node} (h : teams.Valid) {teamId : String}
    (hmem : teamId ∈ teams.keys) : NoOtherSpelling teams teamId := by
  intro key hkey hsame
  obtain ⟨c, hc, rfl⟩ := List.mem_map.1 hmem
  obtain ⟨d, hd, rfl⟩ := List.mem_map.1 hkey
  rw [SortedAssoc.Sorted.eq_of_cmp h.sorted_childList hc hd hsame]

/-- **A team id that was found is the key of a team exactly when it contains no
`/` and is no other spelling of a key.** -/
theorem hasChild_key_iff {teams : Node} (h : teams.Valid) {teamId : String}
    (hfound : teams.hasChild teamId = .ok true) :
    (teamId ∈ teams.keys ∧ FPath.child ["Teams"] teamId = .ok ["Teams", teamId]) ↔
      '/' ∉ teamId.toList ∧ NoOtherSpelling teams teamId := by
  obtain ⟨hvalid, _⟩ := Node.hasChild_eq_ok_true.1 hfound
  constructor
  · rintro ⟨hkey, _⟩
    refine ⟨?_, noOtherSpelling_of_mem h hkey⟩
    obtain ⟨child, hchild, rfl⟩ := List.mem_map.1 hkey
    exact (isValidKey_iff_isValidPathString.1 (h.key_of_mem hchild)).2
  · rintro ⟨hslash, hother⟩
    refine ⟨mem_keys_of_hasChild hfound hslash hother, ?_⟩
    rw [FPath.child_eq_ok, FPath.initWith_of_not_mem (isValidPathString_iff.1 hvalid).1 hslash]
    exact ⟨hvalid, rfl⟩

/-- **Joining a team stores the key of a team exactly when the id contains no
`/` and is no other spelling of a key.**  For every content of `Teams` and every
id that passes the rules and that `submit` or `saveUser` goes on to store. -/
theorem stored_team_key_iff (g : Graphemes) (teams : Node) (h : teams.Valid) (teamId : String)
    (user : User) (w : Write)
    (hstored : (∃ vc : AdditionalSetupViewController, vc.submit g = some teamId ∧
        vc.submitted teamId teams = .ok (.stored user w)) ∨
      ∃ (vc : ProfileViewController) (name : String), vc.saveUser g = some (name, teamId) ∧
        vc.saved name teamId teams = .ok (.stored user w)) :
    user.teamId = some teamId ∧
      ((teamId ∈ teams.keys ∧ FPath.child ["Teams"] teamId = .ok ["Teams", teamId]) ↔
        '/' ∉ teamId.toList ∧ NoOtherSpelling teams teamId) := by
  rcases hstored with ⟨vc, _, hstored⟩ | ⟨vc, name, _, hstored⟩
  · obtain ⟨hfound, rfl, _⟩ := AdditionalSetupViewController.submitted_eq_stored.1 hstored
    exact ⟨rfl, hasChild_key_iff h hfound⟩
  · obtain ⟨hfound, u, _, rfl, _⟩ := ProfileViewController.saved_eq_stored.1 hstored
    exact ⟨rfl, hasChild_key_iff h hfound⟩

/-- A team with one event. -/
def oneTeam : Node := Node.empty.updateChild ["T1", "Events", "k"] (.leaf (.bool true))

/-- The node with one team is valid. -/
theorem oneTeam_valid : oneTeam.Valid := Node.WFIn.empty.updateChild (.leaf _) (by decide)

/-- Ann's setup screen with a team id typed in. -/
def annsSetup (teamId : String) : AdditionalSetupViewController := ⟨.make "Ann" "ann", some teamId⟩

/-- A team id without `/` and without another spelling. -/
theorem stored_team_key_T1 : ∃ user w,
    (annsSetup "T1").submitted "T1" oneTeam = .ok (.stored user w) ∧
    "T1" ∈ oneTeam.keys ∧ FPath.child ["Teams"] "T1" = .ok ["Teams", "T1"] := by
  have hfound : oneTeam.hasChild "T1" = .ok true := by decide +kernel
  have hsubmit : (annsSetup "T1").submit .scalars = some "T1" := by decide +kernel
  obtain ⟨w, hw⟩ : ∃ w, ({ (annsSetup "T1").user with teamId := some "T1" } : User).write = .ok w :=
    Except.exists_ok_of_isSome (by decide +kernel)
  have hstored := AdditionalSetupViewController.submitted_eq_stored.2 ⟨hfound, rfl, hw⟩
  exact ⟨_, w, hstored, (stored_team_key_iff .scalars oneTeam oneTeam_valid "T1" _ w
    (Or.inl ⟨_, hsubmit, hstored⟩)).2.2 ⟨by decide, by decide +kernel⟩⟩

/-- A team under the key `00`. -/
def teamZero : Node := Node.empty.updateChild ["00"] (.leaf (.bool true))

/-- So is the one with the team zero. -/
theorem teamZero_valid : teamZero.Valid := Node.WFIn.empty.updateChild (.leaf _) (by decide)

/-- **Team ids that are no team.**  `T1/Events` passes the rules, is found, and is
stored; it designates the events of the team `T1`.  So is `-0` where `Teams` has
only the key `00`, which compares the same. -/
theorem stored_T1_Events : (oneTeam.Valid ∧ ∃ user w,
    (annsSetup "T1/Events").submit .scalars = some "T1/Events" ∧
    (annsSetup "T1/Events").submitted "T1/Events" oneTeam = .ok (.stored user w) ∧
    user.teamId = some "T1/Events" ∧ "T1/Events" ∉ oneTeam.keys ∧
    FPath.child ["Teams"] "T1/Events" = .ok ["Teams", "T1", "Events"]) ∧
    teamZero.Valid ∧ ∃ user w,
      (annsSetup "-0").submit .scalars = some "-0" ∧
      (annsSetup "-0").submitted "-0" teamZero = .ok (.stored user w) ∧
      user.teamId = some "-0" ∧ "-0" ∉ teamZero.keys := by
  have hfound : oneTeam.hasChild "T1/Events" = .ok true := by decide +kernel
  obtain ⟨w, hw⟩ :
      ∃ w, ({ (annsSetup "T1/Events").user with teamId := some "T1/Events" } : User).write = .ok w :=
    Except.exists_ok_of_isSome (by decide +kernel)
  have hfound' : teamZero.hasChild "-0" = .ok true := by decide +kernel
  obtain ⟨w', hw'⟩ :
      ∃ w, ({ (annsSetup "-0").user with teamId := some "-0" } : User).write = .ok w :=
    Except.exists_ok_of_isSome (by decide +kernel)
  exact ⟨⟨oneTeam_valid, _, w, by decide +kernel,
    AdditionalSetupViewController.submitted_eq_stored.2 ⟨hfound, rfl, hw⟩, rfl, by decide +kernel,
    by decide +kernel⟩, teamZero_valid, _, w', by decide +kernel,
    AdditionalSetupViewController.submitted_eq_stored.2 ⟨hfound', rfl, hw'⟩, rfl,
    by decide +kernel⟩

end Teamstuff
