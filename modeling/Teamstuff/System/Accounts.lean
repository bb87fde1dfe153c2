/-
# The accounts of a team

Any number of devices that sign in, set up a new account, create or join a team
and change the profile, on one database.

A check (`hasChild`) and the write that follows from it are two steps apart.  A
device asks for a snapshot and the answer comes when it comes; it shows some
earlier value of the database, with some of the device's own queued writes on
top.  The write is then queued in turn, and the database applies it later.

`Sound` is what holds of every run: each device only has users with a valid id,
and each record of `Users` is a whole user under that user's own id, or under a key
that compares the same and is therefore the same record.
`step_cases` says what a step of a sound system can do to the database.
-/

import Teamstuff.Controller.Account
import Teamstuff.Library.Replica
import Teamstuff.Library.Run

namespace Teamstuff

/-- The screen a user record is written by.  `signIn` remembers how many writes
the database value had seen in which the sign-in found no record. -/
inductive Author
  | signIn (seen : ℕ)
  | join
  | newTeam
deriving DecidableEq, Repr

/-- What a write puts into the database. -/
inductive Content
  | user (user : User) (author : Author)
  | team (teamKey : String)
deriving DecidableEq, Repr

/-- A user is no team. -/
theorem Content.user_ne_team {user : User} {author : Author} {teamKey : String} :
    Content.user user author ≠ .team teamKey := Content.noConfusion

/-- A write of the account screens. -/
structure AccountWrite where
  write : Write
  content : Content

/-- The database applies a write. -/
def AccountWrite.apply (w : AccountWrite) (root : Node) : Node := w.write.apply root

/-- The keys of the teams some writes create. -/
def teamsOf (ws : List AccountWrite) : List String :=
  ws.filterMap fun w =>
    match w.content with
    | .user _ _ => none
    | .team teamKey => some teamKey

/-- The teams of the writes. -/
theorem mem_teamsOf {ws : List AccountWrite} {teamKey : String} :
    teamKey ∈ teamsOf ws ↔ ∃ w ∈ ws, w.content = .team teamKey := by
  rw [teamsOf, List.mem_filterMap]
  refine exists_congr fun w => and_congr_right fun _ => ?_
  cases w.content <;> simp

/-- A snapshot a device has asked for with `observeSingleEvent`, and what the
callback has captured; a screen is given by its position. -/
inductive Request
  | didSignIn (uid displayName : String)
  | submit (setup : ℕ) (teamId : String)
  | saveUser (profile : ℕ) (name teamId : String)
deriving DecidableEq, Repr

/-- First some writes and then others. -/
theorem teamsOf_append (ws vs : List AccountWrite) :
    teamsOf (ws ++ vs) = teamsOf ws ++ teamsOf vs := List.filterMap_append

/-- The team of the first write, or another. -/
theorem mem_teamsOf_cons {w : AccountWrite} {ws : List AccountWrite} {teamKey : String} :
    teamKey ∈ teamsOf (w :: ws) ↔ w.content = .team teamKey ∨ teamKey ∈ teamsOf ws := by
  simp only [mem_teamsOf, List.mem_cons, exists_eq_or_imp]

/-- The team id a request is about. -/
def Request.teamId : Request → Option String
  | .didSignIn _ _ => none
  | .submit _ teamId | .saveUser _ _ teamId => some teamId

/-- A device: the requests it waits for, and the setup and profile screens it has
opened.  No screen is given up while a callback refers to it; each profile screen
observes the record of the user it was opened by. -/
structure Device where
  requests : List Request
  setups : List AdditionalSetupViewController
  profiles : List (String × ProfileViewController)

/-- A device that has just been switched on. -/
def Device.new : Device := ⟨[], [], []⟩

/-- The user is one of some screen of the device. -/
def Device.HasUser (d : Device) (user : User) : Prop :=
  (∃ vc ∈ d.setups, vc.user = user) ∨ ∃ p ∈ d.profiles, p.2.user = some user

/-- The database and the devices.  `applied`, `refused` (newest first) and
`teamKeys` only record which writes the database has answered and which keys
`childByAutoId` has made up. -/
structure AccountsSystem (C : Type*) where
  db : Replica C Node AccountWrite
  device : C → Device
  applied : List AccountWrite
  refused : List AccountWrite
  teamKeys : List String

/-- What can happen at device `c`: a sign-in asks for `Users`, a home screen with
a profile is opened, a form is submitted with what is typed in, a new team is
made, the `r`-th request is answered, a profile screen receives its record, or
the database applies or refuses the oldest write. -/
inductive AccountsAction (C : Type*)
  | didSignIn (c : C) (uid displayName : String)
  | openProfile (c : C) (uid : String)
  | submit (c : C) (setup : ℕ) (teamIdRow : Option String)
  | saveUser (c : C) (profile : ℕ) (nameRow teamIdRow : Option String)
  | submitNewTeam (c : C) (setup : ℕ) (teamKey : String)
  | answer (c : C) (r i n : ℕ)
  | fetchUser (c : C) (profile i n : ℕ)
  | commit (c : C)
  | refuse (c : C)

namespace AccountsSystem

variable {C : Type*} [DecidableEq C] (g : Graphemes)

/-- Devices that have just been switched on. -/
def start (root : Node) : AccountsSystem C where
  db := Replica.start root
  device := fun _ => .new
  applied := []
  refused := []
  teamKeys := []

/-- Something happens on device `c` alone. -/
def onDevice (c : C) (f : Device → Device) (s : AccountsSystem C) : AccountsSystem C :=
  { s with device := Function.update s.device c (f (s.device c)) }

/-- Device `c` issues writes. -/
def issue (c : C) (ws : List AccountWrite) (s : AccountsSystem C) : AccountsSystem C :=
  { s with db := s.db.issueAll c ws }

/-- The callback of a request at device `c`, with the snapshot of the `i`-th
newest value; `none` where it raises. -/
def answer (c : C) (i : ℕ) (root : Node) (s : AccountsSystem C) : Request → Option (AccountsSystem C)
  | .didSignIn uid displayName =>
      match Teamstuff.didSignIn uid displayName (root.getChild ["Users"]) with
      | .error _ => none
      | .ok .goHome => some s
      | .ok (.additionalSetup user w) => some
          ((s.issue c [⟨w, .user user (.signIn (s.applied.length - i))⟩]).onDevice c fun d =>
            { d with setups := d.setups ++ [⟨user, none⟩] })
  | .submit k teamId =>
      (s.device c).setups[k]?.bind fun vc =>
        match vc.submitted teamId (root.getChild ["Teams"]) with
        | .error _ => none
        | .ok (.stored user w) => some
            ((s.issue c [⟨w, .user user .join⟩]).onDevice c fun d =>
              { d with setups := d.setups.set k { vc with user := user } })
        | .ok .noUser | .ok (.teamNotFound _) => some s
  | .saveUser k name teamId =>
      (s.device c).profiles[k]?.bind fun p =>
        match p.2.saved name teamId (root.getChild ["Teams"]) with
        | .error _ => none
        | .ok (.stored user w) => some
            ((s.issue c [⟨w, .user user .join⟩]).onDevice c fun d =>
              { d with profiles := d.profiles.set k (p.1, { p.2 with user := some user }) })
        | .ok .noUser | .ok (.teamNotFound _) => some s

/-- One step; `none` where the action cannot happen or ends the app.  The ids
Firebase Auth gives are keys, and a key of `childByAutoId` is a new one. -/
def step (s : AccountsSystem C) : AccountsAction C → Option (AccountsSystem C)
  | .didSignIn c uid displayName =>
      if isValidKey uid = true then
        some (s.onDevice c fun d => { d with requests := d.requests ++ [.didSignIn uid displayName] })
      else none
  | .openProfile c uid =>
      if isValidKey uid = true then
        some (s.onDevice c fun d => { d with profiles := d.profiles ++ [(uid, ⟨none, none, none⟩)] })
      else none
  | .submit c k teamIdRow =>
      (s.device c).setups[k]?.map fun vc =>
        let vc := { vc with teamIdRow := teamIdRow }
        s.onDevice c fun d =>
          { d with
            setups := d.setups.set k vc
            requests := d.requests ++ (vc.submit g).toList.map (.submit k) }
  | .saveUser c k nameRow teamIdRow =>
      (s.device c).profiles[k]?.map fun p =>
        let vc := { p.2 with nameRow := nameRow, teamIdRow := teamIdRow }
        s.onDevice c fun d =>
          { d with
            profiles := d.profiles.set k (p.1, vc)
            requests := d.requests ++ (vc.saveUser g).toList.map fun q => .saveUser k q.1 q.2 }
  | .submitNewTeam c k teamKey =>
      if isPushKey teamKey = true ∧ teamKey ∉ s.teamKeys ∧
          teamKey ∉ (s.db.store.getChild ["Teams"]).keys then
        (s.device c).setups[k]?.bind fun vc =>
          match vc.submitNewTeam teamKey with
          | .ok (user, _, [userWrite, teamWrite]) => some
              { (s.issue c [⟨userWrite, .user user .newTeam⟩, ⟨teamWrite, .team teamKey⟩]).onDevice c
                  fun d => { d with setups := d.setups.set k { vc with user := user } } with
                teamKeys := teamKey :: s.teamKeys }
          | _ => none
      else none
  | .answer c r i n =>
      (s.device c).requests[r]?.bind fun request =>
        (s.db.view AccountWrite.apply c i n).bind fun root =>
          (s.onDevice c fun d => { d with requests := d.requests.eraseIdx r }).answer c i root request
  | .fetchUser c k i n =>
      (s.device c).profiles[k]?.bind fun p =>
        (s.db.view AccountWrite.apply c i n).bind fun root =>
          (p.2.fetchUser User.decode (root.getChild ["Users", p.1]).val).map fun r =>
            s.onDevice c fun d => { d with profiles := d.profiles.set k (p.1, r.1) }
  | .commit c =>
      match s.db.pending c with
      | [] => none
      | w :: _ => (s.db.commit AccountWrite.apply c).map fun db =>
          { s with db := db, applied := w :: s.applied }
  | .refuse c =>
      match s.db.pending c with
      | [] => none
      | w :: _ => (s.db.refuse c).map fun db => { s with db := db, refused := w :: s.refused }

/-! ### What a step does -/

section Steps

variable {g} {s s' : AccountsSystem C}

/-- When a write is applied. -/
theorem step_commit {c : C} :
    s.step g (.commit c) = some s' ↔ ∃ w ws db, s.db.pending c = w :: ws ∧
      s.db.commit AccountWrite.apply c = some db ∧
      s' = { s with db := db, applied := w :: s.applied } := by
  simp only [step]
  cases hc : s.db.pending c with
  | nil => simp
  | cons w ws =>
      simp only [Option.map_eq_some_iff]
      constructor
      · rintro ⟨db, hdb, rfl⟩
        exact ⟨w, ws, db, rfl, hdb, rfl⟩
      · rintro ⟨_, _, db, he, hdb, rfl⟩
        obtain ⟨rfl, rfl⟩ := List.cons.inj he
        exact ⟨db, hdb, rfl⟩

/-- When a write is refused. -/
theorem step_refuse {c : C} :
    s.step g (.refuse c) = some s' ↔ ∃ w ws db, s.db.pending c = w :: ws ∧
      s.db.refuse c = some db ∧ s' = { s with db := db, refused := w :: s.refused } := by
  simp only [step]
  cases hc : s.db.pending c with
  | nil => simp
  | cons w ws =>
      simp only [Option.map_eq_some_iff]
      constructor
      · rintro ⟨db, hdb, rfl⟩
        exact ⟨w, ws, db, rfl, hdb, rfl⟩
      · rintro ⟨_, _, db, he, hdb, rfl⟩
        obtain ⟨rfl, rfl⟩ := List.cons.inj he
        exact ⟨db, hdb, rfl⟩

end Steps

/-- The writes device `c` can issue in one step, with what it has checked for
them. -/
inductive Issues (s : AccountsSystem C) (c : C) : List AccountWrite → Prop
  | nothing : Issues s c []
  | signIn {user : User} {w : Write} {i n : ℕ} {root : Node} (id : isValidKey user.id = true)
      (stores : user.Stores w) (team : user.teamId = none)
      (view : s.db.view AccountWrite.apply c i n = some root)
      (absent : (root.getChild ["Users", user.id]).isEmpty = true) :
      Issues s c [⟨w, .user user (.signIn (s.applied.length - i))⟩]
  | join {user : User} {w : Write} {i n : ℕ} {root : Node} {teamId : String}
      (id : isValidKey user.id = true) (stores : user.Stores w) (team : user.teamId = some teamId)
      (view : s.db.view AccountWrite.apply c i n = some root)
      (found : (root.getChild ["Teams"]).hasChild teamId = .ok true)
      (asked : ∃ r ∈ (s.device c).requests, r.teamId = some teamId) :
      Issues s c [⟨w, .user user .join⟩]
  | newTeam {user : User} {w : Write} {teamKey : String} (id : isValidKey user.id = true)
      (stores : user.Stores w) (team : user.teamId = some teamKey)
      (key : isPushKey teamKey = true) (new : teamKey ∉ s.teamKeys)
      (absent : teamKey ∉ (s.db.store.getChild ["Teams"]).keys) :
      Issues s c [⟨w, .user user .newTeam⟩,
        ⟨⟨["Teams", teamKey], .leaf (.bool true)⟩, .team teamKey⟩]

end AccountsSystem

/-- The request is made by the action. -/
def AccountsAction.Asks {C : Type*} : AccountsAction C → Request → Prop
  | .didSignIn _ uid displayName, r => r = .didSignIn uid displayName ∧ isValidKey uid = true
  | .submit _ k teamIdRow, r => ∃ teamId, teamIdRow = some teamId ∧ r = .submit k teamId
  | .saveUser _ k _ teamIdRow, r => ∃ name teamId, teamIdRow = some teamId ∧ r = .saveUser k name teamId
  | _, _ => False

/-- The team id typed in for an action. -/
def AccountsAction.teamIdRow {C : Type*} : AccountsAction C → Option String
  | .submit _ _ teamIdRow | .saveUser _ _ _ teamIdRow => teamIdRow
  | _ => none

/-- The team of a request is in the row. -/
theorem AccountsAction.Asks.teamId {C : Type*} {a : AccountsAction C} {r : Request} (h : a.Asks r)
    {teamId : String} (hr : r.teamId = some teamId) : a.teamIdRow = some teamId := by
  cases a with
  | didSignIn c uid displayName =>
      obtain ⟨rfl, _⟩ := h
      exact nomatch hr
  | submit c k teamIdRow =>
      obtain ⟨_, hrow, rfl⟩ := h
      exact hrow.trans hr
  | saveUser c k nameRow teamIdRow =>
      obtain ⟨_, _, hrow, rfl⟩ := h
      exact hrow.trans hr
  | _ => exact h.elim

/-- The id of a user is a valid key. -/
theorem AccountsAction.Asks.isValidKey {C : Type*} {a : AccountsAction C} {uid displayName : String}
    (h : a.Asks (.didSignIn uid displayName)) : isValidKey uid = true := by
  cases a with
  | didSignIn c uid' displayName' =>
      obtain ⟨he, hid⟩ := h
      obtain ⟨rfl, _⟩ := Request.didSignIn.inj he
      exact hid
  | submit c k teamIdRow =>
      obtain ⟨_, _, he⟩ := h
      exact nomatch he
  | saveUser c k nameRow teamIdRow =>
      obtain ⟨_, _, _, he⟩ := h
      exact nomatch he
  | _ => exact h.elim

namespace AccountsSystem

variable {C : Type*} [DecidableEq C] {g : Graphemes}

/-! ### The invariant -/

/-- Every record of `Users` is a whole user, found under the user's own id. -/
def Registered (root : Node) : Prop :=
  ∀ uid, (root.getChild ["Users", uid]).isEmpty = false →
    ∃ u : User, compareKey uid u.id = .eq ∧ isValidKey u.id = true ∧
      u.StoredAs (root.getChild ["Users", uid])

/-- The write is what its content says. -/
def Written (w : AccountWrite) : Prop :=
  match w.content with
  | .user user author => isValidKey user.id = true ∧ user.Stores w.write ∧
      (user.teamId = none ↔ ∃ seen, author = .signIn seen)
  | .team teamKey => isPushKey teamKey = true ∧
      w.write = ⟨["Teams", teamKey], .leaf (.bool true)⟩

/-- **The invariant of the accounts.** -/
structure Sound (s : AccountsSystem C) : Prop where
  db : s.db.Holds Registered Written
  user : ∀ c u, (s.device c).HasUser u → isValidKey u.id = true
  request : ∀ c uid displayName, .didSignIn uid displayName ∈ (s.device c).requests →
    isValidKey uid = true

omit [DecidableEq C] in
/-- What is issued is written by a device. -/
theorem Issues.written {s : AccountsSystem C} {c : C} {ws : List AccountWrite} (h : s.Issues c ws) :
    ∀ w ∈ ws, Written w := by
  intro v hv
  cases h with
  | nothing => exact absurd hv List.not_mem_nil
  | signIn hid hw hteam _ _ =>
      obtain rfl := List.mem_singleton.1 hv
      exact ⟨hid, hw, fun _ => ⟨_, rfl⟩, fun _ => hteam⟩
  | join hid hw hteam _ _ _ =>
      obtain rfl := List.mem_singleton.1 hv
      exact ⟨hid, hw, fun h => (nomatch hteam.symm.trans h), fun ⟨_, h⟩ => (nomatch h)⟩
  | newTeam hid hw hteam hkey _ _ =>
      rcases List.mem_cons.1 hv with rfl | hv
      · exact ⟨hid, hw, fun h => (nomatch hteam.symm.trans h), fun ⟨_, h⟩ => (nomatch h)⟩
      · obtain rfl := List.mem_singleton.1 hv
        exact ⟨hkey, rfl⟩

/-- A record after a write: the written one at its id, and no other changes. -/
theorem getChild_users_apply {w : AccountWrite} (hw : Written w) (root : Node) (uid : String) :
    (∃ u author, w.content = .user u author ∧ compareKey uid u.id = .eq ∧
      u.StoredAs ((w.apply root).getChild ["Users", uid])) ∨
    (∀ u author, w.content = .user u author → compareKey uid u.id ≠ .eq) ∧
      ∀ rest, (w.apply root).getChild ("Users" :: uid :: rest) =
        root.getChild ("Users" :: uid :: rest) := by
  obtain ⟨⟨path, n⟩, content⟩ := w
  cases content with
  | user u author =>
      obtain ⟨_, ⟨hpath, hstored⟩, _⟩ := hw
      obtain rfl : path = ["Users", u.id] := hpath
      have hne : n.isEmpty = false ∨ root.Valid := Or.inl hstored.isEmpty
      by_cases hid : compareKey uid u.id = .eq
      · refine Or.inl ⟨u, author, rfl, hid, ?_⟩
        have hsame : (AccountWrite.apply ⟨⟨["Users", u.id], n⟩, .user u author⟩ root).getChild
            ["Users", uid] = n := by
          have hread := Node.getChild_updateChild ["Users", u.id] hne
          exact (Node.getChild_congr ["Users"] hid []).trans hread
        rw [hsame]
        exact hstored
      · refine Or.inr ⟨fun v _ hv => ?_, fun rest => ?_⟩
        · obtain ⟨rfl, _⟩ := Content.user.inj hv
          exact hid
        · exact Node.getChild_updateChild_of_ne ["Users"] hid [] rest hne
  | team teamKey =>
      obtain ⟨_, hwrite⟩ := hw
      obtain ⟨rfl, rfl⟩ := Write.mk.inj hwrite
      refine Or.inr ⟨fun v _ hv => (nomatch hv), fun rest => ?_⟩
      exact Node.getChild_updateChild_of_ne [] (by decide) [teamKey] (uid :: rest) (Or.inl rfl)

/-- A written user is the whole record. -/
theorem getChild_user_apply {w : AccountWrite} (hw : Written w) {u : User} {author : Author}
    (hcontent : w.content = .user u author) (root : Node) :
    (w.apply root).getChild ["Users", u.id] = w.write.node ∧ u.StoredAs w.write.node := by
  rw [Written, hcontent] at hw
  obtain ⟨_, ⟨hpath, hstored⟩, _⟩ := hw
  refine ⟨?_, hstored⟩
  rw [AccountWrite.apply, Write.apply, hpath]
  exact Node.getChild_updateChild ["Users", u.id] (Or.inl hstored.isEmpty)

/-- **A write leaves only whole users.** -/
theorem Written.apply (w : AccountWrite) (root : Node) (hw : Written w) (hroot : Registered root) :
    Registered (w.apply root) := by
  intro uid hne
  rcases getChild_users_apply hw root uid with ⟨u, author, hcontent, hid, hstored⟩ | ⟨_, hsame⟩
  · rw [Written, hcontent] at hw
    exact ⟨u, hid, hw.1, hstored⟩
  · rw [hsame []] at hne ⊢
    exact hroot uid hne

/-! ### Steps of a sound system -/

/-- A step in which device `c` becomes `d` and issues `ws`. -/
structure Local (s : AccountsSystem C) (asks : Request → Prop) (s' : AccountsSystem C) (c : C)
    (d : Device) (ws : List AccountWrite) : Prop where
  device : s'.device = Function.update s.device c d
  db : s'.db = s.db.issueAll c ws
  applied : s'.applied = s.applied
  refused : s'.refused = s.refused
  teamKeys : s'.teamKeys = teamsOf ws ++ s.teamKeys
  issues : s.Issues c ws
  user : ∀ u, d.HasUser u → isValidKey u.id = true
  request : ∀ r ∈ d.requests, r ∈ (s.device c).requests ∨ asks r

omit [DecidableEq C] in
/-- A user of a device whose setup screens have changed. -/
theorem hasUser_set_setups {d : Device} {k : ℕ} {vc : AdditionalSetupViewController} {u : User}
    (rs : List Request)
    (h : ({ d with setups := d.setups.set k vc, requests := rs } : Device).HasUser u) :
    d.HasUser u ∨ vc.user = u := by
  rcases h with ⟨vc', hvc', rfl⟩ | h
  · rcases List.mem_or_eq_of_mem_set hvc' with hvc' | rfl
    · exact Or.inl (Or.inl ⟨vc', hvc', rfl⟩)
    · exact Or.inr rfl
  · exact Or.inl (Or.inr h)

omit [DecidableEq C] in
/-- A user of a device whose profile screens have changed. -/
theorem hasUser_set_profiles {d : Device} {k : ℕ} {p : String × ProfileViewController} {u : User}
    (rs : List Request)
    (h : ({ d with profiles := d.profiles.set k p, requests := rs } : Device).HasUser u) :
    d.HasUser u ∨ p.2.user = some u := by
  rcases h with h | ⟨p', hp', hu⟩
  · exact Or.inl (Or.inl h)
  · rcases List.mem_or_eq_of_mem_set hp' with hp' | rfl
    · exact Or.inl (Or.inr ⟨p', hp', hu⟩)
    · exact Or.inr hu

section Sound

variable {s s' : AccountsSystem C} (h : Sound s)

include h

omit [DecidableEq C] in
/-- Every snapshot shows whole users. -/
theorem Sound.view {c : C} {i n : ℕ} {root : Node}
    (hroot : s.db.view AccountWrite.apply c i n = some root) : Registered root :=
  h.db.view Written.apply hroot

/-- What the callbacks of the requests do. -/
theorem Sound.answer {c : C} {i n : ℕ} {root : Node} {request : Request} {rs : List Request}
    (hroot : s.db.view AccountWrite.apply c i n = some root)
    (hrequest : request ∈ (s.device c).requests) (hrs : ∀ r ∈ rs, r ∈ (s.device c).requests)
    (hs : (s.onDevice c fun d => { d with requests := rs }).answer c i root request = some s') :
    ∃ d ws, Local s (fun _ => False) s' c d ws := by
  have hself : (s.onDevice c fun d => { d with requests := rs }).device c =
      { s.device c with requests := rs } := Function.update_self ..
  have hsame : Local s (fun _ => False) (s.onDevice c fun d => { d with requests := rs }) c
      { s.device c with requests := rs } [] :=
    ⟨rfl, rfl, rfl, rfl, rfl, .nothing, h.user c, fun r hr => Or.inl (hrs r hr)⟩
  have hdevice : ∀ (f : Device → Device) (ws : List AccountWrite),
      (((s.onDevice c fun d => { d with requests := rs }).issue c ws).onDevice c f).device =
        Function.update s.device c (f { s.device c with requests := rs }) := fun f ws => by
    simp only [onDevice, issue, Function.update_self, Function.update_idem]
  cases request with
  | didSignIn uid displayName =>
      have hid := h.request c uid displayName hrequest
      simp only [AccountsSystem.answer] at hs
      cases hr : Teamstuff.didSignIn uid displayName (root.getChild ["Users"]) with
      | error _ => rw [hr] at hs; exact nomatch hs
      | ok r =>
          rw [hr] at hs
          cases r with
          | goHome =>
              obtain rfl := Option.some.inj hs
              exact ⟨_, _, hsame⟩
          | additionalSetup user w =>
              obtain ⟨habsent, huser, hw⟩ := didSignIn_eq_additionalSetup.1 hr
              have huid : uid = user.id := by rw [huser]; rfl
              have hteam : user.teamId = none := by rw [huser]; rfl
              obtain rfl := Option.some.inj hs
              rw [huid] at hid
              rw [huid, Node.hasChild_eq_ok, FPath.initWith_of_isValidKey hid, ← Node.getChild_append]
                at habsent
              refine ⟨_, _, hdevice _ _, rfl, rfl, rfl, rfl,
                .signIn hid (User.stores_of_write hid hw) hteam hroot habsent.2, fun u hu => ?_,
                fun r hr => Or.inl (hrs r hr)⟩
              rcases hu with ⟨vc, hvc, rfl⟩ | hu
              · rcases List.mem_append.1 hvc with hvc | hvc
                · exact h.user c _ (Or.inl ⟨vc, hvc, rfl⟩)
                · obtain rfl := List.mem_singleton.1 hvc
                  exact hid
              · exact h.user c u (Or.inr hu)
  | submit k teamId =>
      simp only [AccountsSystem.answer, hself] at hs
      obtain ⟨vc, hvc, hs⟩ := Option.bind_eq_some_iff.1 hs
      have hid : isValidKey vc.user.id = true :=
        h.user c _ (Or.inl ⟨vc, List.mem_of_getElem? hvc, rfl⟩)
      cases hr : vc.submitted teamId (root.getChild ["Teams"]) with
      | error _ => rw [hr] at hs; exact nomatch hs
      | ok r =>
          rw [hr] at hs
          cases r with
          | noUser | teamNotFound =>
              obtain rfl := Option.some.inj hs
              exact ⟨_, _, hsame⟩
          | stored user w =>
              obtain ⟨hfound, rfl, hw⟩ := AdditionalSetupViewController.submitted_eq_stored.1 hr
              obtain rfl := Option.some.inj hs
              refine ⟨_, _, hdevice _ _, rfl, rfl, rfl, rfl,
                .join hid (User.stores_of_write (u := { vc.user with teamId := some teamId }) hid hw)
                  rfl hroot hfound ⟨_, hrequest, rfl⟩,
                fun u hu => ?_, fun r hr => Or.inl (hrs r hr)⟩
              rcases hasUser_set_setups rs hu with hu | rfl
              · exact h.user c u hu
              · exact hid
  | saveUser k name teamId =>
      simp only [AccountsSystem.answer, hself] at hs
      obtain ⟨p, hp, hs⟩ := Option.bind_eq_some_iff.1 hs
      cases hr : p.2.saved name teamId (root.getChild ["Teams"]) with
      | error _ => rw [hr] at hs; exact nomatch hs
      | ok r =>
          rw [hr] at hs
          cases r with
          | noUser | teamNotFound =>
              obtain rfl := Option.some.inj hs
              exact ⟨_, _, hsame⟩
          | stored user w =>
              obtain ⟨hfound, u, hu, rfl, hw⟩ := ProfileViewController.saved_eq_stored.1 hr
              have hid : isValidKey u.id = true :=
                h.user c u (Or.inr ⟨p, List.mem_of_getElem? hp, hu⟩)
              obtain rfl := Option.some.inj hs
              refine ⟨_, _, hdevice _ _, rfl, rfl, rfl, rfl,
                .join hid (User.stores_of_writeWithCompletionBlock
                  (u := { u with name := name, teamId := some teamId }) hid hw) rfl hroot hfound
                  ⟨_, hrequest, rfl⟩, fun v hv => ?_, fun r hr => Or.inl (hrs r hr)⟩
              rcases hasUser_set_profiles rs hv with hv | hv
              · exact h.user c v hv
              · obtain rfl := Option.some.inj hv
                exact hid

/-- **What a step of a sound system can do**: it is the database's answer to a
write, or one device changes and issues writes. -/
theorem Sound.step_cases {a : AccountsAction C} (hs : s.step g a = some s') :
    (∃ c, a = .commit c) ∨ (∃ c, a = .refuse c) ∨ ∃ c d ws, Local s a.Asks s' c d ws := by
  cases a with
  | commit c => exact Or.inl ⟨c, rfl⟩
  | refuse c => exact Or.inr (Or.inl ⟨c, rfl⟩)
  | didSignIn c uid displayName =>
      simp only [step] at hs
      split_ifs at hs with hid
      obtain rfl := Option.some.inj hs
      refine Or.inr (Or.inr ⟨c, _, [], rfl, rfl, rfl, rfl, rfl, .nothing, h.user c, fun r hr => ?_⟩)
      refine (List.mem_append.1 hr).imp_right fun hr => ?_
      exact ⟨List.mem_singleton.1 hr, hid⟩
  | openProfile c uid =>
      simp only [step] at hs
      split_ifs at hs
      obtain rfl := Option.some.inj hs
      refine Or.inr (Or.inr ⟨c, _, [], rfl, rfl, rfl, rfl, rfl, .nothing, fun u hu => ?_,
        fun r hr => Or.inl hr⟩)
      rcases hu with hu | ⟨p, hp, hu⟩
      · exact h.user c u (Or.inl hu)
      · rcases List.mem_append.1 hp with hp | hp
        · exact h.user c u (Or.inr ⟨p, hp, hu⟩)
        · obtain rfl := List.mem_singleton.1 hp
          exact nomatch hu
  | submit c k teamIdRow =>
      simp only [step, Option.map_eq_some_iff] at hs
      obtain ⟨vc, hvc, rfl⟩ := hs
      refine Or.inr (Or.inr ⟨c, _, [], rfl, rfl, rfl, rfl, rfl, .nothing, fun u hu => ?_, fun r hr => ?_⟩)
      · rcases hasUser_set_setups _ hu with hu | rfl
        · exact h.user c u hu
        · exact h.user c _ (Or.inl ⟨vc, List.mem_of_getElem? hvc, rfl⟩)
      · refine (List.mem_append.1 hr).imp_right fun hr => ?_
        obtain ⟨teamId, hteamId, rfl⟩ := List.mem_map.1 hr
        exact ⟨teamId, AdditionalSetupViewController.submit_eq_some (Option.mem_toList.1 hteamId), rfl⟩
  | saveUser c k nameRow teamIdRow =>
      simp only [step, Option.map_eq_some_iff] at hs
      obtain ⟨p, hp, rfl⟩ := hs
      refine Or.inr (Or.inr ⟨c, _, [], rfl, rfl, rfl, rfl, rfl, .nothing, fun u hu => ?_, fun r hr => ?_⟩)
      · rcases hasUser_set_profiles _ hu with hu | hu
        · exact h.user c u hu
        · exact h.user c u (Or.inr ⟨p, List.mem_of_getElem? hp, hu⟩)
      · refine (List.mem_append.1 hr).imp_right fun hr => ?_
        obtain ⟨⟨name, teamId⟩, hq, rfl⟩ := List.mem_map.1 hr
        exact ⟨name, teamId, ProfileViewController.saveUser_eq_some (Option.mem_toList.1 hq), rfl⟩
  | submitNewTeam c k teamKey =>
      simp only [step] at hs
      split_ifs at hs with hnew
      have hkey := isValidKey_of_isPushKey hnew.1
      obtain ⟨vc, hvc, hs⟩ := Option.bind_eq_some_iff.1 hs
      have hid : isValidKey vc.user.id = true :=
        h.user c _ (Or.inl ⟨vc, List.mem_of_getElem? hvc, rfl⟩)
      cases hr : vc.submitNewTeam teamKey with
      | error _ => rw [hr] at hs; exact nomatch hs
      | ok r =>
          obtain ⟨user, teamIdGlobal, ws⟩ := r
          obtain ⟨rfl, _, w, hw, rfl⟩ := AdditionalSetupViewController.submitNewTeam_eq_ok hkey hr
          rw [hr] at hs
          obtain rfl := Option.some.inj hs
          refine Or.inr (Or.inr ⟨c, _, _, rfl, rfl, rfl, rfl, rfl,
            .newTeam hid (User.stores_of_write (u := { vc.user with teamId := some teamKey }) hid hw)
              rfl hnew.1 hnew.2.1 hnew.2.2, fun u hu => ?_, fun r hr => Or.inl hr⟩)
          rcases hasUser_set_setups _ hu with hu | rfl
          · exact h.user c u hu
          · exact hid
  | answer c r i n =>
      simp only [step] at hs
      obtain ⟨request, hrequest, hs⟩ := Option.bind_eq_some_iff.1 hs
      obtain ⟨root, hroot, hs⟩ := Option.bind_eq_some_iff.1 hs
      obtain ⟨d, ws, hlocal⟩ := h.answer hroot (List.mem_of_getElem? hrequest)
        (fun r' hr' => List.mem_of_mem_eraseIdx hr') hs
      refine Or.inr (Or.inr ⟨c, d, ws, { hlocal with request := fun r hr => ?_ }⟩)
      exact Or.inl ((hlocal.request r hr).resolve_right not_false)
  | fetchUser c k i n =>
      simp only [step] at hs
      obtain ⟨p, hp, hs⟩ := Option.bind_eq_some_iff.1 hs
      obtain ⟨root, hroot, hs⟩ := Option.bind_eq_some_iff.1 hs
      obtain ⟨⟨vc, teamIdGlobal⟩, hvc, rfl⟩ := Option.map_eq_some_iff.1 hs
      refine Or.inr (Or.inr ⟨c, _, [], rfl, rfl, rfl, rfl, rfl, .nothing, fun u hu => ?_,
        fun r hr => Or.inl hr⟩)
      rcases hasUser_set_profiles _ hu with hu | hu
      · exact h.user c u hu
      · rcases ProfileViewController.fetchUser_user hvc with rfl | ⟨user, hdecode, huser⟩
        · exact h.user c u (Or.inr ⟨p, List.mem_of_getElem? hp, hu⟩)
        · -- the decoded user is the one stored under the observed id
          obtain rfl := Option.some.inj (huser.symm.trans hu)
          cases he : (root.getChild ["Users", p.1]).isEmpty with
          | true =>
              rw [Node.eq_empty_of_isEmpty he] at hdecode
              exact nomatch hdecode
          | false =>
              obtain ⟨u, _, hid, hstored⟩ := h.view hroot p.1 he
              rw [hstored.decode_val] at hdecode
              obtain rfl := Except.ok.inj hdecode
              exact hid

end Sound

/-- **Every step keeps the invariant.** -/
theorem Sound.step {s s' : AccountsSystem C} (h : Sound s) {a : AccountsAction C}
    (hs : s.step g a = some s') : Sound s' := by
  rcases h.step_cases hs with ⟨c, rfl⟩ | ⟨c, rfl⟩ | ⟨c, d, ws, hlocal⟩
  · obtain ⟨_, _, db, _, hdb, rfl⟩ := step_commit.1 hs
    exact ⟨h.db.commit Written.apply hdb, h.user, h.request⟩
  · obtain ⟨_, _, db, _, hdb, rfl⟩ := step_refuse.1 hs
    exact ⟨h.db.refuse hdb, h.user, h.request⟩
  · refine ⟨hlocal.db ▸ h.db.issueAll c hlocal.issues.written, fun c' u hu => ?_,
      fun c' uid displayName hr => ?_⟩
    · rw [hlocal.device, Function.update_apply] at hu
      split_ifs at hu
      · exact hlocal.user u hu
      · exact h.user c' u hu
    · rw [hlocal.device, Function.update_apply] at hr
      split_ifs at hr with hc
      · subst hc
        rcases hlocal.request _ hr with hr | hr
        · exact h.request c' uid displayName hr
        · exact hr.isValidKey
      · exact h.request c' uid displayName hr

omit [DecidableEq C] in
/-- At the start. -/
theorem Sound.start {root : Node} (hroot : Registered root) : Sound (start root : AccountsSystem C) where
  db := .start hroot
  user := by
    rintro c u (⟨_, h, _⟩ | ⟨_, h, _⟩)
    · exact absurd h List.not_mem_nil
    · exact absurd h List.not_mem_nil
  request := fun _ _ _ h => absurd h List.not_mem_nil

end AccountsSystem
end Teamstuff
