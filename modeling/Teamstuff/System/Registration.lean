/-
# Registering on one device

One account registers on a device: the login screen, the sign-in, the setup screen
and the home tabs, whose profile screen observes the account's record.  Between the
sign-in and the end of the setup the stored user has no team, and `fetchUser` traps
on such a record.

Two things open the home tabs: the callback of the sign-in, when it finds a record,
and the listener for the state of Firebase Auth, as soon as a user is signed in.
The app can be closed and launched again at any time; the writes of an earlier
launch may still reach the database.

`no_trap_iff` says in which runs no record without a team is ever on its way to the
profile screen.
-/

import Teamstuff.System.Accounts

namespace Teamstuff

/-- The screen on top. -/
inductive Screen
  | login
  | authUI
  | additionalSetup
  | home
deriving DecidableEq, Repr

/-- The profile screen of the home tabs and the records the database has raised for
its observer and not yet delivered, the oldest first. -/
structure ObservedProfile where
  screen : ProfileViewController
  raised : List Node

/-- The device and the database.  Each launch of the app is a client of its own,
`launch` the present one. -/
structure Registration where
  db : Replica ℕ Node AccountWrite
  launch : ℕ
  signedIn : Bool
  top : Screen
  requests : List Request
  setup : Option AdditionalSetupViewController
  profile : Option ObservedProfile

/-- What can happen: the user opens the sign-in, the sign-in succeeds, the listener
of the login screen fires, a request is answered, a button of the setup screen is
tapped, the database applies the oldest write of a launch, a raised record is
delivered, or the app is closed and launched again. -/
inductive RegistrationAction
  | emailLogInTapped
  | didSignIn
  | listener
  | answer (r i n : ℕ)
  | submit (teamIdRow : Option String)
  | submitNewTeam (teamKey : String)
  | commit (launch : ℕ)
  | deliver
  | relaunch
deriving DecidableEq, Repr

/-- The record decodes as a user without a team. -/
def Teamless (record : Node) : Prop := ∃ user, User.decode record.val = .ok user ∧ user.teamId = none

namespace Registration

/-- The app on the login screen, nobody signed in. -/
def start (root : Node) : Registration where
  db := Replica.start root
  launch := 0
  signedIn := false
  top := .login
  requests := []
  setup := none
  profile := none

/-- The record of the account as the present launch sees it. -/
def record (uid : String) (s : Registration) : Node :=
  (s.db.overlay AccountWrite.apply s.launch s.db.store).getChild ["Users", uid]

/-- The database raises the present record for the observer, if there is one; it may
be one that was raised before. -/
def raise (uid : String) (s : Registration) : Registration :=
  { s with profile := s.profile.map fun p => { p with raised := p.raised ++ [s.record uid] } }

/-- The home tabs are opened: the profile screen loads, and `fetchUser` registers its
observer. -/
def goHome (uid : String) (s : Registration) : Registration :=
  { s with top := .home, profile := some ⟨⟨none, none, none⟩, [s.record uid]⟩ }

/-- The present launch issues writes. -/
def issue (uid : String) (ws : List AccountWrite) (s : Registration) : Registration :=
  { s with db := s.db.issueAll s.launch ws }.raise uid

/-- The callback of the sign-in; a segue is only performed from the screen on top. -/
def didSignIn (uid displayName : String) (root : Node) (s : Registration) : Option Registration :=
  match Teamstuff.didSignIn uid displayName (root.getChild ["Users"]) with
  | .error _ => none
  | .ok .goHome => some (if s.top = .login then s.goHome uid else s)
  | .ok (.additionalSetup user w) =>
      let s := s.issue uid [⟨w, .user user (.signIn 0)⟩]
      some (if s.top = .login then { s with top := .additionalSetup, setup := some ⟨user, none⟩ } else s)

/-- The callback of `submit`. -/
def submitted (uid teamId : String) (root : Node) (s : Registration) : Option Registration :=
  s.setup.bind fun vc =>
    match vc.submitted teamId (root.getChild ["Teams"]) with
    | .error _ => none
    | .ok (.stored user w) =>
        let s := { s.issue uid [⟨w, .user user .join⟩] with setup := some { vc with user := user } }
        some (if s.top = .additionalSetup then s.goHome uid else s)
    | .ok .noUser | .ok (.teamNotFound _) => some s

/-- One step; `none` where it cannot happen or ends the app. -/
def step (g : Graphemes) (uid displayName : String) (s : Registration) :
    RegistrationAction → Option Registration
  | .emailLogInTapped => if s.top = .login then some { s with top := .authUI } else none
  | .didSignIn =>
      if s.top = .authUI then some
        { s with signedIn := true, top := .login, requests := s.requests ++ [.didSignIn uid displayName] }
      else none
  | .listener => if s.top = .login ∧ s.signedIn = true then some (s.goHome uid) else none
  | .answer r i n => s.requests[r]?.bind fun request =>
      (s.db.view AccountWrite.apply s.launch i n).bind fun root =>
        let s := { s with requests := s.requests.eraseIdx r }
        match request with
        | .didSignIn _ _ => s.didSignIn uid displayName root
        | .submit _ teamId => s.submitted uid teamId root
        | .saveUser _ _ _ => none
  | .submit teamIdRow =>
      if s.top = .additionalSetup then s.setup.map fun vc =>
        let vc := { vc with teamIdRow := teamIdRow }
        { s with setup := some vc, requests := s.requests ++ (vc.submit g).toList.map (.submit 0) }
      else none
  | .submitNewTeam teamKey =>
      if s.top = .additionalSetup ∧ isPushKey teamKey = true then s.setup.bind fun vc =>
        match vc.submitNewTeam teamKey with
        | .ok (user, _, [userWrite, teamWrite]) => some
            ({ s.issue uid [⟨userWrite, .user user .newTeam⟩, ⟨teamWrite, .team teamKey⟩] with
              setup := some { vc with user := user } }.goHome uid)
        | _ => none
      else none
  | .commit launch => (s.db.commit AccountWrite.apply launch).map fun db =>
      { s with db := db }.raise uid
  | .deliver => s.profile.bind fun p =>
      match p.raised with
      | [] => none
      | n :: raised => (p.screen.fetchUser User.decode n.val).map fun r =>
          { s with profile := some ⟨r.1, raised⟩ }
  | .relaunch => some
      { s with launch := s.launch + 1, top := .login, requests := [], setup := none, profile := none }

/-- No record on its way to the profile screen is one without a team. -/
def NoTeamless (s : Registration) : Prop :=
  ∀ p, s.profile = some p → ∀ n ∈ p.raised, ¬ Teamless n

/-- A step puts no record without a team in front of the profile screen: the home
tabs are not opened for such a record by the listener or by the sign-in, the sign-in
writes no new user while they are open, and then no new user of an earlier launch
reaches the database either, unless a write of this launch lies over it. -/
def Safe (uid : String) (s : Registration) : RegistrationAction → Prop
  | .listener => ¬ Teamless (s.record uid)
  | .answer r i n => ∀ uid' displayName root, s.requests[r]? = some (.didSignIn uid' displayName) →
      s.db.view AccountWrite.apply s.launch i n = some root →
        ((root.getChild ["Users", uid]).isEmpty = false → s.top = .login →
          ¬ Teamless (s.record uid)) ∧
        ((root.getChild ["Users", uid]).isEmpty = true → s.profile = none)
  | .commit launch => launch ≠ s.launch → s.profile ≠ none →
      (∀ v ∈ s.db.pending s.launch, ∀ u author, v.content ≠ .user u author) →
      ∀ w ws u seen, s.db.pending launch = w :: ws → w.content ≠ .user u (.signIn seen)
  | _ => True

end Registration

/-! ### The record under a queue of writes -/

/-- A record without a team. -/
theorem teamless_iff {u : User} {n : Node} (h : u.StoredAs n) : Teamless n ↔ u.teamId = none := by
  constructor
  · rintro ⟨v, hv, hteam⟩
    rw [h.decode_val] at hv
    exact Except.ok.inj hv ▸ hteam
  · exact fun hteam => ⟨u, h.decode_val, hteam⟩

instance (record : Node) : Decidable (Teamless record) :=
  match h : User.decode record.val with
  | .error _ => .isFalse fun ⟨_, hu, _⟩ => nomatch h.symm.trans hu
  | .ok user => decidable_of_iff (user.teamId = none) ⟨fun hteam => ⟨user, h, hteam⟩,
      fun ⟨_, hu, hteam⟩ => Except.ok.inj (h.symm.trans hu) ▸ hteam⟩

/-- **What `fetchUser` traps on** are the records without a team. -/
theorem fetchUser_eq_none {record : Node} {vc : ProfileViewController} :
    vc.fetchUser User.decode record.val = none ↔ Teamless record := by
  unfold ProfileViewController.fetchUser Teamless
  cases User.decode record.val with
  | error _ => exact ⟨fun h => (nomatch h), fun ⟨_, hu, _⟩ => (nomatch hu)⟩
  | ok user =>
      cases hteam : user.teamId with
      | none => exact ⟨fun _ => ⟨user, rfl, hteam⟩, fun _ => by simp only [hteam]⟩
      | some teamId =>
          simp only [hteam, reduceCtorEq, false_iff]
          rintro ⟨v, hv, hnone⟩
          obtain rfl := Except.ok.inj hv
          exact nomatch hteam.symm.trans hnone

/-- The writes of one account: each is what its content says, and each user is that
of the account. -/
def Own (uid : String) (w : AccountWrite) : Prop :=
  AccountsSystem.Written w ∧ ∀ u author, w.content = .user u author → u.id = uid

section Record

variable {uid : String}

/-- What a user writes keeps every record under its own id. -/
theorem Own.apply (w : AccountWrite) (root : Node) (hw : Own uid w)
    (hroot : AccountsSystem.Registered root) : AccountsSystem.Registered (w.apply root) :=
  AccountsSystem.Written.apply w root hw.1 hroot

/-- The record after a write of the account: the written user, or what was there. -/
theorem Own.record_apply {w : AccountWrite} (hw : Own uid w) (root : Node) :
    (∃ u author, w.content = .user u author ∧ u.StoredAs w.write.node ∧
      (w.apply root).getChild ["Users", uid] = w.write.node) ∨
    (∀ u author, w.content ≠ .user u author) ∧
      (w.apply root).getChild ["Users", uid] = root.getChild ["Users", uid] := by
  rcases AccountsSystem.getChild_users_apply hw.1 root uid with ⟨u, author, hu, _, _⟩ | ⟨hne, hsame⟩
  · obtain ⟨hnode, hstored⟩ := AccountsSystem.getChild_user_apply hw.1 hu root
    rw [hw.2 u author hu] at hnode
    exact Or.inl ⟨u, author, hu, hstored, hnode⟩
  · refine Or.inr ⟨fun u author hu => hne u author hu ?_, hsame []⟩
    rw [hw.2 u author hu]
    exact Std.ReflCmp.compare_self

/-- The record after the user's own writes depends on the record only. -/
theorem record_foldl_congr {ws : List AccountWrite} (hws : ∀ w ∈ ws, Own uid w) {root₁ root₂ : Node}
    (h : root₁.getChild ["Users", uid] = root₂.getChild ["Users", uid]) :
    (ws.foldl (fun s w => w.apply s) root₁).getChild ["Users", uid] =
      (ws.foldl (fun s w => w.apply s) root₂).getChild ["Users", uid] := by
  induction ws generalizing root₁ root₂ with
  | nil => exact h
  | cons w ws ih =>
      refine ih (fun v hv => hws v (List.mem_cons_of_mem w hv)) ?_
      rcases (hws w List.mem_cons_self).record_apply root₁ with ⟨u, author, hu, _, h₁⟩ | ⟨hne, h₁⟩ <;>
        rcases (hws w List.mem_cons_self).record_apply root₂ with ⟨u', author', hu', _, h₂⟩ | ⟨hne', h₂⟩
      · rw [h₁, h₂]
      · exact absurd hu (hne' u author)
      · exact absurd hu' (hne u' author')
      · rw [h₁, h₂, h]

/-- Where a user is queued, the value below the queue does not matter. -/
theorem record_foldl_of_user {ws : List AccountWrite} (hws : ∀ w ∈ ws, Own uid w) {v : AccountWrite}
    (hv : v ∈ ws) {u : User} {author : Author} (hu : v.content = .user u author)
    (root₁ root₂ : Node) :
    (ws.foldl (fun s w => w.apply s) root₁).getChild ["Users", uid] =
      (ws.foldl (fun s w => w.apply s) root₂).getChild ["Users", uid] := by
  induction ws generalizing root₁ root₂ with
  | nil => exact absurd hv List.not_mem_nil
  | cons w ws ih =>
      have htail : ∀ w' ∈ ws, Own uid w' := fun w' hw' => hws w' (List.mem_cons_of_mem w hw')
      rcases List.mem_cons.1 hv with rfl | hv
      · refine record_foldl_congr htail ?_
        rcases (hws v List.mem_cons_self).record_apply root₁ with ⟨_, _, _, _, h₁⟩ | ⟨hne, _⟩
        · rcases (hws v List.mem_cons_self).record_apply root₂ with ⟨_, _, _, _, h₂⟩ | ⟨hne, _⟩
          · rw [h₁, h₂]
          · exact absurd hu (hne u author)
        · exact absurd hu (hne u author)
      · exact ih htail hv _ _

/-- Where no user is queued, the record is that of the value below the queue. -/
theorem record_foldl_of_no_user {ws : List AccountWrite} (hws : ∀ w ∈ ws, Own uid w)
    (hno : ∀ v ∈ ws, ∀ u author, v.content ≠ .user u author) (root : Node) :
    (ws.foldl (fun s w => w.apply s) root).getChild ["Users", uid] =
      root.getChild ["Users", uid] := by
  induction ws generalizing root with
  | nil => rfl
  | cons w ws ih =>
      have ih := ih (fun v hv => hws v (List.mem_cons_of_mem w hv))
        (fun v hv => hno v (List.mem_cons_of_mem w hv)) (w.apply root)
      refine ih.trans ?_
      rcases (hws w List.mem_cons_self).record_apply root with ⟨u, author, hu, _, _⟩ | ⟨_, hsame⟩
      · exact absurd hu (hno w List.mem_cons_self u author)
      · exact hsame

end Record

namespace Registration

variable {g : Graphemes} {uid displayName : String} {s s' : Registration}

/-! ### The invariant -/

/-- **The invariant**: the queued writes are those of the account, the setup screen
has its user, and the observer of the profile screen has never been shown a record
without a team. -/
structure Sound (uid : String) (s : Registration) : Prop where
  db : s.db.Holds AccountsSystem.Registered (Own uid)
  setup : ∀ vc, s.setup = some vc → vc.user.id = uid
  shown : s.profile ≠ none → ¬ Teamless (s.record uid)

/-- When the record is handed on. -/
theorem noTeamless_raise :
    NoTeamless (s.raise uid) ↔
      NoTeamless s ∧ (s.profile ≠ none → ¬ Teamless (s.record uid)) := by
  unfold NoTeamless raise
  cases hp : s.profile with
  | none => simp
  | some p =>
      simp only [Option.map_some, Option.some.injEq, forall_eq', List.mem_append,
        List.mem_singleton, ne_eq, reduceCtorEq, not_false_eq_true, true_imp_iff]
      constructor
      · exact fun h => ⟨fun n hn => h n (Or.inl hn), h _ (Or.inr rfl)⟩
      · rintro ⟨h, hrecord⟩ n (hn | rfl)
        · exact h n hn
        · exact hrecord

/-- When the home screen is shown. -/
theorem noTeamless_goHome : NoTeamless (s.goHome uid) ↔ ¬ Teamless (s.record uid) := by
  simp only [NoTeamless, goHome, Option.some.injEq, forall_eq', List.mem_singleton, forall_eq]

/-- A record that is raised is shown. -/
theorem Sound.raise (hdb : s.db.Holds AccountsSystem.Registered (Own uid))
    (hsetup : ∀ vc, s.setup = some vc → vc.user.id = uid) (h : NoTeamless (s.raise uid)) :
    Sound uid (s.raise uid) where
  db := hdb
  setup := hsetup
  shown := by
    intro hprofile
    refine (noTeamless_raise.1 h).2 fun hnone => hprofile ?_
    rw [Registration.raise, hnone]
    rfl

/-- The home screen is shown. -/
theorem Sound.goHome (h : Sound uid s) (hrecord : ¬ Teamless (s.record uid)) :
    Sound uid (s.goHome uid) := ⟨h.db, h.setup, fun _ => hrecord⟩

/-! ### Writes of the present launch -/

/-- Writes are issued. -/
theorem Sound.issue (h : Sound uid s) {ws : List AccountWrite} (hws : ∀ w ∈ ws, Own uid w)
    (hnoTeamless : NoTeamless (s.issue uid ws)) : Sound uid (s.issue uid ws) :=
  Sound.raise (h.db.issueAll s.launch hws) h.setup hnoTeamless

section Issue

variable {w : AccountWrite} {u : User} {author : Author} {rest : List AccountWrite}
  (hw : Own uid w) (hu : w.content = .user u author) (hrest : ∀ v ∈ rest, Own uid v)
  (hno : ∀ v ∈ rest, ∀ u author, v.content ≠ .user u author)

include hw hu hrest hno

/-- A written user is what the launch sees from then on. -/
theorem storedAs_issue : u.StoredAs ((s.issue uid (w :: rest)).record uid) := by
  have hrecord : (s.issue uid (w :: rest)).record uid =
      (rest.foldl (fun s w => w.apply s)
        (w.apply (s.db.overlay AccountWrite.apply s.launch s.db.store))).getChild ["Users", uid] := by
    simp only [record, issue, raise, Replica.issueAll_store, Replica.overlay_issueAll,
      List.foldl_cons]
  rw [hrecord, record_foldl_of_no_user hrest hno]
  rcases hw.record_apply (s.db.overlay AccountWrite.apply s.launch s.db.store) with
    ⟨v, _, hv, hstored, hnode⟩ | ⟨hne, _⟩
  · obtain ⟨rfl, _⟩ := Content.user.inj (hu.symm.trans hv)
    exact hnode ▸ hstored
  · exact absurd hu (hne u author)

/-- A written user is raised for the profile screen, if there is one. -/
theorem noTeamless_issue (hnoTeamless : NoTeamless s) :
    NoTeamless (s.issue uid (w :: rest)) ↔ (s.profile ≠ none → u.teamId ≠ none) := by
  have hstored := storedAs_issue (s := s) hw hu hrest hno
  rw [issue, noTeamless_raise]
  constructor
  · rintro ⟨_, h⟩ hprofile hteam
    exact h hprofile ((teamless_iff hstored).2 hteam)
  · exact fun h => ⟨hnoTeamless, fun hprofile hteamless =>
      h hprofile ((teamless_iff hstored).1 hteamless)⟩

/-- Writing a user with a team is safe, and so is opening the home tabs then. -/
theorem Sound.issue_team (h : Sound uid s) (hnoTeamless : NoTeamless s) (hteam : u.teamId ≠ none)
    {t : Registration} (vc : AdditionalSetupViewController) (hvc : vc.user.id = uid)
    (ht : t = { s.issue uid (w :: rest) with setup := some vc }) :
    (NoTeamless t ∧ Sound uid t) ∧ NoTeamless (t.goHome uid) ∧ Sound uid (t.goHome uid) := by
  have hissue := (noTeamless_issue hw hu hrest hno hnoTeamless).2 fun _ => hteam
  have hsound := h.issue (List.forall_mem_cons.2 ⟨hw, hrest⟩) hissue
  have hrecord : ¬ Teamless (t.record uid) := by
    rw [ht]
    exact fun hteamless => hteam ((teamless_iff (storedAs_issue hw hu hrest hno)).1 hteamless)
  have hsound' : Sound uid t := by
    rw [ht]
    refine ⟨hsound.db, fun vc' hvc' => ?_, hsound.shown⟩
    obtain rfl := Option.some.inj hvc'
    exact hvc
  exact ⟨⟨ht ▸ hissue, hsound'⟩, noTeamless_goHome.2 hrecord, hsound'.goHome hrecord⟩

end Issue

/-! ### Steps -/

/-- A write of the user's own record. -/
theorem own_of_write {u : User} {w : Write} (author : Author) (hid : isValidKey uid = true)
    (hu : u.id = uid) (hw : u.write = .ok w)
    (hteam : u.teamId = none ↔ ∃ seen, author = .signIn seen) : Own uid ⟨w, .user u author⟩ := by
  subst hu
  refine ⟨⟨hid, User.stores_of_write hid hw, hteam⟩, fun v _ hv => ?_⟩
  obtain ⟨rfl, _⟩ := Content.user.inj hv
  rfl

section Steps

variable (hid : isValidKey uid = true) (h : Sound uid s) (hnoTeamless : NoTeamless s)

include hid h hnoTeamless

/-- What the callback of the sign-in does. -/
theorem Sound.didSignIn {root : Node} (hs : s.didSignIn uid displayName root = some s') :
    ((((root.getChild ["Users", uid]).isEmpty = false → s.top = .login →
          ¬ Teamless (s.record uid)) ∧
        ((root.getChild ["Users", uid]).isEmpty = true → s.profile = none)) ↔ NoTeamless s') ∧
      (NoTeamless s' → Sound uid s') := by
  have hchild : ∀ {b}, (root.getChild ["Users"]).hasChild uid = .ok b →
      (root.getChild ["Users", uid]).isEmpty = !b := fun hb => by
    rw [Node.hasChild_eq_ok, FPath.initWith_of_isValidKey hid, ← Node.getChild_append] at hb
    exact hb.2
  unfold Registration.didSignIn at hs
  cases hr : Teamstuff.didSignIn uid displayName (root.getChild ["Users"]) with
  | error _ => rw [hr] at hs; exact nomatch hs
  | ok r =>
      rw [hr] at hs
      cases r with
      | goHome =>
          have hfound := hchild (didSignIn_eq_goHome.1 hr)
          simp only [hfound, Bool.not_true, true_imp_iff, Bool.false_eq_true, false_imp_iff, and_true]
          obtain rfl := Option.some.inj hs
          split_ifs with htop
          · simp only [htop, true_imp_iff, noTeamless_goHome, true_and]
            exact h.goHome
          · exact ⟨⟨fun _ => hnoTeamless, fun _ htop' => absurd htop' htop⟩, fun _ => h⟩
      | additionalSetup user w =>
          obtain ⟨habsent, rfl, hw⟩ := didSignIn_eq_additionalSetup.1 hr
          have habsent := hchild habsent
          simp only [habsent, Bool.not_false, true_imp_iff, Bool.true_eq_false, false_imp_iff,
            true_and]
          have hown : Own uid ⟨w, .user (.make displayName uid) (.signIn 0)⟩ :=
            own_of_write (.signIn 0) hid rfl hw ⟨fun _ => ⟨0, rfl⟩, fun _ => rfl⟩
          have hnil : ∀ v ∈ ([] : List AccountWrite), Own uid v := fun _ hv => absurd hv List.not_mem_nil
          have hno : ∀ v ∈ ([] : List AccountWrite), ∀ u author, v.content ≠ .user u author :=
            fun _ hv => absurd hv List.not_mem_nil
          have hiff := noTeamless_issue hown rfl hnil hno hnoTeamless
          have hsound := h.issue (List.forall_mem_cons.2 ⟨hown, hnil⟩)
          have hprofile : s.profile = none ↔
              NoTeamless (s.issue uid [⟨w, .user (.make displayName uid) (.signIn 0)⟩]) := by
            rw [hiff]
            exact ⟨fun hnone hsome => absurd hnone hsome, fun himp => by_contra fun hsome =>
              himp hsome rfl⟩
          obtain rfl := Option.some.inj hs
          split_ifs with htop
          · refine ⟨hprofile, fun hn => ⟨(hsound hn).db, fun vc hvc => ?_, (hsound hn).shown⟩⟩
            obtain rfl := Option.some.inj hvc
            rfl
          · exact ⟨hprofile, hsound⟩

/-- The callback of `submit` never shows a record without a team. -/
theorem Sound.submitted {teamId : String} {root : Node}
    (hs : s.submitted uid teamId root = some s') : NoTeamless s' ∧ Sound uid s' := by
  unfold Registration.submitted at hs
  obtain ⟨vc, hvc, hs⟩ := Option.bind_eq_some_iff.1 hs
  cases hr : vc.submitted teamId (root.getChild ["Teams"]) with
  | error _ => rw [hr] at hs; exact nomatch hs
  | ok r =>
      rw [hr] at hs
      cases r with
      | noUser | teamNotFound =>
          obtain rfl := Option.some.inj hs
          exact ⟨hnoTeamless, h⟩
      | stored user w =>
          obtain ⟨_, rfl, hw⟩ := AdditionalSetupViewController.submitted_eq_stored.1 hr
          have hown := own_of_write (u := { vc.user with teamId := some teamId }) .join hid
            (h.setup vc hvc) hw ⟨fun he => (nomatch he), fun ⟨_, he⟩ => (nomatch he)⟩
          obtain ⟨hstay, hhome⟩ := h.issue_team hown rfl (fun _ hv => absurd hv List.not_mem_nil)
            (fun _ hv => absurd hv List.not_mem_nil) hnoTeamless (Option.some_ne_none teamId)
            { vc with user := { vc.user with teamId := some teamId } } (h.setup vc hvc) rfl
          obtain rfl := Option.some.inj hs
          split_ifs
          · exact hhome
          · exact hstay

/-- A new team is submitted. -/
theorem Sound.submitNewTeam {g : Graphemes} {teamKey : String}
    (hs : s.step g uid displayName (.submitNewTeam teamKey) = some s') :
    NoTeamless s' ∧ Sound uid s' := by
  simp only [step] at hs
  split_ifs at hs with hcan
  obtain ⟨vc, hvc, hs⟩ := Option.bind_eq_some_iff.1 hs
  have hkey := isValidKey_of_isPushKey hcan.2
  cases hr : vc.submitNewTeam teamKey with
  | error _ => rw [hr] at hs; exact nomatch hs
  | ok r =>
      obtain ⟨user, teamIdGlobal, ws⟩ := r
      obtain ⟨rfl, _, w, hw, rfl⟩ := AdditionalSetupViewController.submitNewTeam_eq_ok hkey hr
      rw [hr] at hs
      obtain rfl := Option.some.inj hs
      have hown := own_of_write (u := { vc.user with teamId := some teamKey }) .newTeam hid
        (h.setup vc hvc) hw ⟨fun he => (nomatch he), fun ⟨_, he⟩ => (nomatch he)⟩
      have hteam : Own uid ⟨⟨["Teams", teamKey], .leaf (.bool true)⟩, .team teamKey⟩ :=
        ⟨⟨hcan.2, rfl⟩, fun _ _ hu => (nomatch hu)⟩
      refine (h.issue_team hown rfl (List.forall_mem_singleton.2 hteam) (fun v hv u author hu => ?_)
        hnoTeamless (Option.some_ne_none teamKey)
        { vc with user := { vc.user with teamId := some teamKey } } (h.setup vc hvc) rfl).2
      obtain rfl := List.mem_singleton.1 hv
      exact nomatch hu

omit hid in
/-- What an applied write does to the record the launch sees. -/
theorem Sound.commit {launch : ℕ} {db : Replica ℕ Node AccountWrite}
    (hdb : s.db.commit AccountWrite.apply launch = some db) :
    ((launch ≠ s.launch → s.profile ≠ none →
      (∀ v ∈ s.db.pending s.launch, ∀ u author, v.content ≠ .user u author) →
      ∀ w ws u seen, s.db.pending launch = w :: ws → w.content ≠ .user u (.signIn seen)) ↔
      NoTeamless ({ s with db := db }.raise uid)) ∧
    (NoTeamless ({ s with db := db }.raise uid) → Sound uid ({ s with db := db }.raise uid)) := by
  refine ⟨?_, Sound.raise (h.db.commit Own.apply hdb) h.setup⟩
  obtain ⟨w, ws, hc, rfl⟩ := (Replica.commit_eq_some AccountWrite.apply).1 hdb
  have hw : Own uid w := h.db.pending launch w (hc ▸ List.mem_cons_self)
  rw [noTeamless_raise]
  by_cases hlaunch : launch = s.launch
  · -- the launch has seen its own write already
    subst hlaunch
    have hsame := Replica.overlay_commit AccountWrite.apply hc (w.apply s.db.store :: s.db.past)
    refine ⟨fun _ => ⟨hnoTeamless, fun hprofile => ?_⟩, fun _ hne => absurd rfl hne⟩
    rw [record, hsame]
    exact h.shown hprofile
  · have hrecord : ∀ root, (⟨root, w.apply s.db.store :: s.db.past,
          Function.update s.db.pending launch ws⟩ : Replica ℕ Node AccountWrite).overlay
            AccountWrite.apply s.launch root =
        (s.db.pending s.launch).foldl (fun s w => w.apply s) root := fun root => by
      simp only [Replica.overlay, Function.update_of_ne (Ne.symm hlaunch)]
    have hown := h.db.pending s.launch
    by_cases huser : ∃ v ∈ s.db.pending s.launch, ∃ u author, v.content = .user u author
    · -- a queued user of the launch lies over what the database has
      obtain ⟨v, hv, u, author, hu⟩ := huser
      refine ⟨fun _ => ⟨hnoTeamless, fun hprofile => ?_⟩, fun _ _ _ hno => absurd hu (hno v hv u author)⟩
      rw [record, hrecord, record_foldl_of_user hown hv hu _ s.db.store]
      exact h.shown hprofile
    · have hno : ∀ v ∈ s.db.pending s.launch, ∀ u author, v.content ≠ .user u author :=
        fun v hv u author hu => huser ⟨v, hv, u, author, hu⟩
      have hshown : s.profile ≠ none → ¬ Teamless (s.db.store.getChild ["Users", uid]) := by
        have hshown := h.shown
        rwa [record, Replica.overlay, record_foldl_of_no_user hown hno] at hshown
      simp only [record, hrecord, record_foldl_of_no_user hown hno]
      rcases hw.record_apply s.db.store with ⟨u, author, hu, hstored, hnode⟩ | ⟨hne, hsame⟩
      · have hauthor := hw.1
        rw [AccountsSystem.Written, hu] at hauthor
        rw [hnode, teamless_iff hstored, hauthor.2.2]
        constructor
        · intro hsafe
          refine ⟨hnoTeamless, fun hprofile hfresh => ?_⟩
          obtain ⟨seen, rfl⟩ := hfresh
          exact hsafe hlaunch hprofile hno w ws u seen hc hu
        · rintro ⟨_, hteam⟩ _ hprofile _ w' ws' u' seen hc' hu'
          obtain ⟨rfl, rfl⟩ := List.cons.inj (hc.symm.trans hc')
          obtain ⟨_, rfl⟩ := Content.user.inj (hu.symm.trans hu')
          exact hteam hprofile ⟨seen, rfl⟩
      · rw [hsame]
        refine ⟨fun _ => ⟨hnoTeamless, hshown⟩, fun _ _ _ _ w' ws' u seen hc' hu => ?_⟩
        obtain ⟨rfl, rfl⟩ := List.cons.inj (hc.symm.trans hc')
        exact hne u _ hu

/-- **What a step does**: it shows a record without a team exactly when it is not
safe, and keeps the invariant otherwise. -/
theorem Sound.step {g : Graphemes} {a : RegistrationAction}
    (hs : s.step g uid displayName a = some s') :
    (Safe uid s a ↔ NoTeamless s') ∧ (NoTeamless s' → Sound uid s') := by
  cases a with
  | emailLogInTapped =>
      simp only [Registration.step] at hs
      split_ifs at hs
      obtain rfl := Option.some.inj hs
      exact ⟨⟨fun _ => hnoTeamless, fun _ => trivial⟩, fun _ => ⟨h.db, h.setup, h.shown⟩⟩
  | didSignIn =>
      simp only [Registration.step] at hs
      split_ifs at hs
      obtain rfl := Option.some.inj hs
      exact ⟨⟨fun _ => hnoTeamless, fun _ => trivial⟩, fun _ => ⟨h.db, h.setup, h.shown⟩⟩
  | listener =>
      simp only [Registration.step] at hs
      split_ifs at hs
      obtain rfl := Option.some.inj hs
      rw [noTeamless_goHome]
      exact ⟨Iff.rfl, h.goHome⟩
  | answer r i n =>
      simp only [Registration.step] at hs
      obtain ⟨request, hrequest, hs⟩ := Option.bind_eq_some_iff.1 hs
      obtain ⟨root, hroot, hs⟩ := Option.bind_eq_some_iff.1 hs
      have hrest : Sound uid { s with requests := s.requests.eraseIdx r } :=
        ⟨h.db, h.setup, h.shown⟩
      cases request with
      | didSignIn uid' displayName' =>
          obtain ⟨hiff, hsound⟩ := hrest.didSignIn hid hnoTeamless hs
          refine ⟨Iff.trans ⟨fun hsafe => ?_, fun hcallback => ?_⟩ hiff, hsound⟩
          · exact hsafe uid' displayName' root hrequest hroot
          · intro _ _ root' _ hroot'
            obtain rfl := Option.some.inj (hroot.symm.trans hroot')
            exact hcallback
      | submit k teamId =>
          obtain ⟨hn, hsound⟩ := hrest.submitted hid hnoTeamless hs
          exact ⟨⟨fun _ => hn, fun _ _ _ _ he _ => (nomatch hrequest.symm.trans he)⟩, fun _ => hsound⟩
      | saveUser k name teamId => exact nomatch hs
  | submit teamIdRow =>
      simp only [Registration.step] at hs
      split_ifs at hs
      obtain ⟨vc, hvc, rfl⟩ := Option.map_eq_some_iff.1 hs
      refine ⟨⟨fun _ => hnoTeamless, fun _ => trivial⟩, fun _ => ⟨h.db, fun vc' hvc' => ?_, h.shown⟩⟩
      obtain rfl := Option.some.inj hvc'
      exact h.setup vc hvc
  | submitNewTeam teamKey =>
      obtain ⟨hn, hsound⟩ := h.submitNewTeam hid hnoTeamless hs
      exact ⟨⟨fun _ => hn, fun _ => trivial⟩, fun _ => hsound⟩
  | commit launch =>
      obtain ⟨db, hdb, rfl⟩ := Option.map_eq_some_iff.1 hs
      exact h.commit hnoTeamless hdb
  | deliver =>
      simp only [Registration.step] at hs
      obtain ⟨p, hp, hs⟩ := Option.bind_eq_some_iff.1 hs
      cases hraised : p.raised with
      | nil => rw [hraised] at hs; exact nomatch hs
      | cons n raised =>
          rw [hraised] at hs
          obtain ⟨r, _, rfl⟩ := Option.map_eq_some_iff.1 hs
          have hrest : NoTeamless { s with profile := some ⟨r.1, raised⟩ } := by
            intro p' hp' m hm
            obtain rfl := Option.some.inj hp'
            exact hnoTeamless p hp m (hraised ▸ List.mem_cons_of_mem n hm)
          exact ⟨⟨fun _ => hrest, fun _ => trivial⟩, fun _ => ⟨h.db, h.setup, fun _ =>
            h.shown (by rw [hp]; exact Option.some_ne_none p)⟩⟩
  | relaunch =>
      obtain rfl := Option.some.inj hs
      exact ⟨⟨fun _ _ hp => (nomatch hp), fun _ => trivial⟩, fun _ =>
        ⟨h.db, fun _ hvc => (nomatch hvc), fun hne => absurd rfl hne⟩⟩

end Steps

/-- **When registering never traps.**  In a run of one account on one device no
record without a team is ever on its way to the profile screen exactly when every
step that happens is safe. -/
theorem no_trap_iff (g : Graphemes) (uid displayName : String) (hid : isValidKey uid = true)
    (root : Node) (hroot : AccountsSystem.Registered root) (as : List RegistrationAction) :
    Run.Always (step g uid displayName) NoTeamless (start root) as ↔
      Run.Guarded (step g uid displayName)
        (fun s a => (s.step g uid displayName a).isSome = true → Safe uid s a) (start root) as := by
  have hstart : Sound uid (start root) :=
    ⟨.start hroot, fun _ hvc => (nomatch hvc), fun hne => absurd rfl hne⟩
  refine Run.always_iff_guarded (I := Sound uid) (Q := fun _ => True)
    (fun s a s' _ h hn hs => (h.step hid hn hs).2) (fun s a _ h hn => ⟨fun hsafe s' hs => ?_,
      fun hall hsome => ?_⟩) hstart (fun _ hp => (nomatch hp)) fun _ _ => trivial
  · exact (h.step hid hn hs).1.1 (hsafe (by rw [hs]; rfl))
  · obtain ⟨s', hs⟩ := Option.isSome_iff_exists.1 hsome
    exact (h.step hid hn hs).1.2 (hall s' hs)

/-- Ann signs in, makes a team and sees her profile. -/
def annRegisters : List RegistrationAction :=
  [.emailLogInTapped, .didSignIn, .answer 0 0 0, .submitNewTeam "-LVgeGVQVRBzoQk2dCkT", .deliver]

/-- A registration in which the listener never fires. -/
theorem no_trap_iff_annRegisters :
    ∃ t, Run.exec (step .scalars "ann" "Ann") (start .empty) annRegisters = some t ∧
      Run.Always (step .scalars "ann" "Ann") NoTeamless (start .empty) annRegisters := by
  have hempty : AccountsSystem.Registered .empty := fun uid h => by
    rw [Node.getChild_empty] at h
    exact nomatch h
  obtain ⟨t, ht⟩ : ∃ t, Run.exec (step .scalars "ann" "Ann") (start .empty) annRegisters = some t :=
    Option.isSome_iff_exists.1 (by decide +kernel)
  refine ⟨t, ht, (no_trap_iff .scalars "ann" "Ann" (by decide) .empty hempty annRegisters).2 ?_⟩
  have hfacts : (Run.exec (step .scalars "ann" "Ann") (start .empty) (annRegisters.take 2)).map
      (fun t => (t.profile.isNone, decide (Teamless (t.record "ann")))) = some (true, false) := by
    decide +kernel
  refine ⟨fun _ => trivial, fun s₁ hs₁ => ⟨fun _ => trivial, fun s₂ hs₂ => ⟨fun _ => ?_, fun _ _ =>
    ⟨fun _ => trivial, fun _ _ => ⟨fun _ => trivial, fun _ _ => trivial⟩⟩⟩⟩⟩
  have hexec : Run.exec (step .scalars "ann" "Ann") (start .empty) (annRegisters.take 2) = some s₂ :=
    Run.exec_cons_eq_some.2 ⟨s₁, hs₁, Run.exec_cons_eq_some.2 ⟨s₂, hs₂, rfl⟩⟩
  rw [hexec] at hfacts
  obtain ⟨hprofile, hrecord⟩ := Prod.mk.inj (Option.some.inj hfacts)
  exact fun _ _ _ _ _ => ⟨fun _ _ => of_decide_eq_false hrecord, fun _ =>
    Option.isNone_iff_eq_none.1 hprofile⟩

/-- The listener fires before the answer to the sign-in has come. -/
def listenerFirst : List RegistrationAction :=
  [.emailLogInTapped, .didSignIn, .listener, .answer 0 0 0]

/-- The app is closed on the setup screen and launched again. -/
def setupAbandoned : List RegistrationAction :=
  [.emailLogInTapped, .didSignIn, .answer 0 0 0, .commit 0, .relaunch, .listener]

/-- **A record without a team reaches the profile screen**, in one launch of the app
and across two. -/
theorem trap_reached :
    (∃ t p n, Run.exec (step .scalars "ann" "Ann") (start .empty) listenerFirst = some t ∧
      t.profile = some p ∧ n ∈ p.raised ∧ p.screen.fetchUser User.decode n.val = none) ∧
    ¬ Run.Always (step .scalars "ann" "Ann") NoTeamless (start .empty) listenerFirst ∧
    ¬ Run.Always (step .scalars "ann" "Ann") NoTeamless (start .empty) setupAbandoned := by
  have hrun : ∀ as, (Run.exec (step .scalars "ann" "Ann") (start .empty) as).any (fun t =>
        t.profile.any fun p => p.raised.any fun n => decide (Teamless n)) = true →
      ∃ t p n, Run.exec (step .scalars "ann" "Ann") (start .empty) as = some t ∧
        t.profile = some p ∧ n ∈ p.raised ∧ Teamless n := by
    intro as h
    obtain ⟨t, ht, h⟩ := (Option.any_eq_true _ _).1 h
    obtain ⟨p, hp, h⟩ := (Option.any_eq_true _ _).1 h
    obtain ⟨n, hn, h⟩ := List.any_eq_true.1 h
    exact ⟨t, p, n, ht, hp, hn, of_decide_eq_true h⟩
  have hnot : ∀ {as t p n}, Run.exec (step .scalars "ann" "Ann") (start .empty) as = some t →
      t.profile = some p → n ∈ p.raised → Teamless n →
      ¬ Run.Always (step .scalars "ann" "Ann") NoTeamless (start .empty) as := by
    intro as t p n ht hp hn hteamless h
    exact Run.always_iff_prefix.1 h as [] t (List.append_nil _).symm ht p hp n hn hteamless
  obtain ⟨t₁, p₁, n₁, ht₁, hp₁, hn₁, hteamless₁⟩ := hrun listenerFirst (by decide +kernel)
  obtain ⟨t₂, p₂, n₂, ht₂, hp₂, hn₂, hteamless₂⟩ := hrun setupAbandoned (by decide +kernel)
  exact ⟨⟨t₁, p₁, n₁, ht₁, hp₁, hn₁, fetchUser_eq_none.2 hteamless₁⟩,
    hnot ht₁ hp₁ hn₁ hteamless₁, hnot ht₂ hp₂ hn₂ hteamless₂⟩

end Registration
end Teamstuff
