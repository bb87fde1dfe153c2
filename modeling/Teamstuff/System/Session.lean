/-
# Sessions of one running app

The team whose data the screens show is a global variable, `teamIdGlobal`.  The
profile screens set it, each time the database delivers the record of the user
they were opened by; the events and messages screens read it when they load, and
the detail screen each time it appears.  The screens of an earlier session stay,
and so do their observers.

`isolated_of_ownTeamLast` says when the screens of a session keep to the team of
its user: when the record delivered last before each reading was one of that
team.
-/

import Teamstuff.Controller.Account
import Teamstuff.Controller.EventDetailViewController
import Teamstuff.Controller.TeamViewController
import Teamstuff.Library.Run

namespace Teamstuff

/-- The home tabs opened in a session of `user`; the events and messages tabs are
loaded when they are first selected. -/
structure Home where
  user : String
  profile : ProfileViewController
  events : Option EventsViewController
  messages : Option TeamViewController

/-- The running app.  `touched` records the paths under `Teams` that screens have
observed or written, each with the user of the session, and `delivered` the users
whose records have been delivered, both newest first. -/
structure App where
  currentUser : Option String
  teamIdGlobal : String
  homes : List Home
  touched : List (String × FPath)
  delivered : List String

/-- What can happen: signing in and out, opening the home tabs, the delivery of a
record to the profile screen of some tabs, the first loading of the events or the
messages tab, an event detail that appears, and the writes of the screens. -/
inductive AppAction
  | signIn (uid : String)
  | signOut
  | openHome
  | deliver (home : ℕ) (value : Value)
  | loadEvents (home : ℕ)
  | loadMessages (home : ℕ)
  | openDetail (home : ℕ) (event : Event)
  | updateEvent (home : ℕ) (event : Event)
  | addEvent (home : ℕ) (event : Event) (key : String)
  | addMessage (home : ℕ) (message : Message) (key : String)

namespace App

/-- The app as it is launched, with the user Firebase Auth has kept signed in. -/
def launch (currentUser : Option String) : App where
  currentUser := currentUser
  teamIdGlobal := "Test TEAM ID"
  homes := []
  touched := []
  delivered := []

/-- A screen of a session of `user` observes or writes a path. -/
def touch (user : String) (path : FPath) (s : App) : App :=
  { s with touched := (user, path) :: s.touched }

/-- One step; `none` where it cannot happen or ends the app.  The records that are
delivered carry the team `team` gives their user. -/
def step (team : String → String) (s : App) : AppAction → Option App
  | .signIn uid => some { s with currentUser := some uid }
  | .signOut => some { s with currentUser := none }
  | .openHome => s.currentUser.map fun uid =>
      { s with homes := s.homes ++ [⟨uid, ⟨none, none, none⟩, none, none⟩] }
  | .deliver k value => s.homes[k]?.bind fun home =>
      if (User.decode value).toOption.map User.teamId = some (some (team home.user)) then
        (home.profile.fetchUser User.decode value).map fun r =>
          { s with
            homes := s.homes.set k { home with profile := r.1 }
            teamIdGlobal := r.2.getD s.teamIdGlobal
            delivered := home.user :: s.delivered }
      else none
  | .loadEvents k => s.homes[k]?.bind fun home =>
      if home.events.isNone then
        (EventsViewController.viewDidLoad s.teamIdGlobal).toOption.map fun vc =>
          { s with homes := s.homes.set k { home with events := some vc } }.touch home.user vc.ref
      else none
  | .loadMessages k => s.homes[k]?.bind fun home =>
      if home.messages.isNone then
        (TeamViewController.viewDidLoad s.teamIdGlobal).toOption.map fun vc =>
          { s with homes := s.homes.set k { home with messages := some vc } }.touch home.user vc.ref
      else none
  | .openDetail k event => s.homes[k]?.bind fun home => home.events.bind fun _ =>
      (EventDetailViewController.fetchEvent s.teamIdGlobal ⟨some event, []⟩).map fun vc =>
        s.touch home.user vc.ref
  | .updateEvent k event => s.homes[k]?.bind fun home => home.events.bind fun vc =>
      (vc.updateEvent event).toOption.map fun w => s.touch home.user w.path
  | .addEvent k event key => s.homes[k]?.bind fun home => home.events.bind fun vc =>
      (vc.addEvent event key).toOption.map fun w => s.touch home.user w.path
  | .addMessage k message key => s.homes[k]?.bind fun home => home.messages.bind fun vc =>
      (vc.addMessage message key).toOption.map fun w => s.touch home.user w.path

/-- The path is that of the team or below it. -/
def Under (teamId : String) (path : FPath) : Prop := ∃ p, teamRef teamId = .ok p ∧ p <+: path

/-- Every path a screen has touched is under the team of its session's user. -/
def Isolated (team : String → String) (s : App) : Prop :=
  ∀ q ∈ s.touched, Under (team q.1) q.2

/-- The team of the record that was delivered last, before the first delivery the
team id the app is launched with. -/
def lastTeam (team : String → String) (s : App) : String :=
  match s.delivered with
  | [] => "Test TEAM ID"
  | uid :: _ => team uid

end App

/-- The home tabs in which the action reads `teamIdGlobal`. -/
def AppAction.reads : AppAction → Option ℕ
  | .loadEvents k | .loadMessages k | .openDetail k _ => some k
  | _ => none

namespace App

/-- Where the action reads `teamIdGlobal` for a screen of a session of `u`, the
record delivered last was one of the team of `u`. -/
def OwnTeamLast (team : String → String) (s : App) (a : AppAction) : Prop :=
  ∀ k home, a.reads = some k → s.homes[k]? = some home → (s.step team a).isSome = true →
    s.lastTeam team = team home.user

/-! ### What a step does -/

/-- What a step can touch: a path under the team of `teamIdGlobal`, when it reads
it, or one below the reference of a loaded screen. -/
inductive Touches (s : App) (a : AppAction) : String → FPath → Prop
  | reads {k : ℕ} {home : Home} (hk : a.reads = some k) (hhome : s.homes[k]? = some home)
      (valid : isValidPathString s.teamIdGlobal = true) (rest : FPath) :
      Touches s a home.user (["Teams"] ++ FPath.initWith s.teamIdGlobal ++ rest)
  | loaded {home : Home} {ref path : FPath} (hk : a.reads = none) (hhome : home ∈ s.homes)
      (href : (∃ vc, home.events = some vc ∧ vc.ref = ref) ∨
        ∃ vc, home.messages = some vc ∧ vc.ref = ref) (below : ref <+: path) :
      Touches s a home.user path

/-- The references of the loaded screens have been touched. -/
def Loaded (touched : List (String × FPath)) (home : Home) : Prop :=
  (∀ vc, home.events = some vc → (home.user, vc.ref) ∈ touched) ∧
    ∀ vc, home.messages = some vc → (home.user, vc.ref) ∈ touched

/-- **The invariant**: `teamIdGlobal` is what the last delivery made it, and the
references of the loaded screens have been touched. -/
structure Sound (team : String → String) (s : App) : Prop where
  global : s.teamIdGlobal = s.lastTeam team
  loaded : ∀ home ∈ s.homes, Loaded s.touched home

theorem Loaded.mono {touched : List (String × FPath)} {home : Home} (h : Loaded touched home)
    (q : String × FPath) : Loaded (q :: touched) home :=
  ⟨fun vc hvc => List.mem_cons_of_mem q (h.1 vc hvc), fun vc hvc => List.mem_cons_of_mem q (h.2 vc hvc)⟩

/-- What a step does: it touches one path or, where it reads nothing, none. -/
structure Effect (team : String → String) (s : App) (a : AppAction) (s' : App) : Prop where
  touched : (s'.touched = s.touched ∧ a.reads = none) ∨
    ∃ user path, s'.touched = (user, path) :: s.touched ∧ Touches s a user path
  sound : Sound team s'

variable {team : String → String} {s s' : App}

/-- Changing one set of home tabs. -/
theorem loaded_set {touched : List (String × FPath)} {homes : List Home}
    (h : ∀ home ∈ homes, Loaded touched home) {k : ℕ} {home : Home} (hhome : Loaded touched home) :
    ∀ home' ∈ homes.set k home, Loaded touched home' := by
  intro home' hmem
  rcases List.mem_or_eq_of_mem_set hmem with hmem | rfl
  · exact h home' hmem
  · exact hhome

/-- **What a step of the app can do.** -/
theorem Sound.step_cases (h : Sound team s) {a : AppAction} (hs : s.step team a = some s') :
    Effect team s a s' := by
  have hmono : ∀ q, ∀ home ∈ s.homes, Loaded (q :: s.touched) home := fun q home hhome =>
    (h.loaded home hhome).mono q
  cases a with
  | signIn uid =>
      obtain rfl := Option.some.inj hs
      exact ⟨Or.inl ⟨rfl, rfl⟩, h.global, h.loaded⟩
  | signOut =>
      obtain rfl := Option.some.inj hs
      exact ⟨Or.inl ⟨rfl, rfl⟩, h.global, h.loaded⟩
  | openHome =>
      obtain ⟨uid, _, rfl⟩ := Option.map_eq_some_iff.1 hs
      refine ⟨Or.inl ⟨rfl, rfl⟩, h.global, fun home hhome => ?_⟩
      rcases List.mem_append.1 hhome with hhome | hhome
      · exact h.loaded home hhome
      · obtain rfl := List.mem_singleton.1 hhome
        exact ⟨fun vc hvc => (nomatch hvc), fun vc hvc => (nomatch hvc)⟩
  | deliver k value =>
      obtain ⟨home, hhome, hs⟩ := Option.bind_eq_some_iff.1 hs
      split_ifs at hs with hteam
      obtain ⟨⟨profile, global⟩, hr, rfl⟩ := Option.map_eq_some_iff.1 hs
      have hloaded := h.loaded home (List.mem_of_getElem? hhome)
      obtain ⟨user, huser, hid⟩ := Option.map_eq_some_iff.1 hteam
      obtain rfl := ProfileViewController.fetchUser_global (Except.toOption_eq_some.1 huser) hr
      refine ⟨Or.inl ⟨rfl, rfl⟩, ?_, loaded_set h.loaded hloaded⟩
      change user.teamId.getD s.teamIdGlobal = team home.user
      rw [hid, Option.getD_some]
  | loadEvents k =>
      obtain ⟨home, hhome, hs⟩ := Option.bind_eq_some_iff.1 hs
      split_ifs at hs
      obtain ⟨vc, hvc, rfl⟩ := Option.map_eq_some_iff.1 hs
      have hloaded := (hmono (home.user, vc.ref) home (List.mem_of_getElem? hhome))
      refine ⟨Or.inr ⟨home.user, vc.ref, rfl, ?_⟩, h.global, loaded_set (hmono _) ⟨?_, hloaded.2⟩⟩
      · obtain ⟨hvalid, rfl⟩ := EventsViewController.viewDidLoad_eq_ok.1 (Except.toOption_eq_some.1 hvc)
        exact .reads rfl hhome hvalid ["Events"]
      · intro vc' hvc'
        obtain rfl := Option.some.inj hvc'
        exact List.mem_cons_self
  | loadMessages k =>
      obtain ⟨home, hhome, hs⟩ := Option.bind_eq_some_iff.1 hs
      split_ifs at hs
      obtain ⟨vc, hvc, rfl⟩ := Option.map_eq_some_iff.1 hs
      have hloaded := (hmono (home.user, vc.ref) home (List.mem_of_getElem? hhome))
      refine ⟨Or.inr ⟨home.user, vc.ref, rfl, ?_⟩, h.global, loaded_set (hmono _) ⟨hloaded.1, ?_⟩⟩
      · obtain ⟨hvalid, rfl⟩ := TeamViewController.viewDidLoad_eq_ok.1 (Except.toOption_eq_some.1 hvc)
        exact .reads rfl hhome hvalid ["Messages"]
      · intro vc' hvc'
        obtain rfl := Option.some.inj hvc'
        exact List.mem_cons_self
  | openDetail k event =>
      obtain ⟨home, hhome, hs⟩ := Option.bind_eq_some_iff.1 hs
      obtain ⟨_, _, hs⟩ := Option.bind_eq_some_iff.1 hs
      obtain ⟨vc, hvc, rfl⟩ := Option.map_eq_some_iff.1 hs
      obtain ⟨_, _, hvalid, _, rfl⟩ := EventDetailViewController.fetchEvent_eq_some.1 hvc
      refine ⟨Or.inr ⟨home.user, _, rfl, ?_⟩, h.global, hmono _⟩
      rw [List.append_assoc]
      exact .reads rfl hhome hvalid _
  | updateEvent k event =>
      obtain ⟨home, hhome, hs⟩ := Option.bind_eq_some_iff.1 hs
      obtain ⟨vc, hvc, hs⟩ := Option.bind_eq_some_iff.1 hs
      obtain ⟨w, hw, rfl⟩ := Option.map_eq_some_iff.1 hs
      refine ⟨Or.inr ⟨home.user, w.path, rfl, ?_⟩, h.global, hmono _⟩
      exact .loaded rfl (List.mem_of_getElem? hhome) (Or.inl ⟨vc, hvc, rfl⟩)
        (EventsViewController.updateEvent_below (Except.toOption_eq_some.1 hw))
  | addEvent k event key =>
      obtain ⟨home, hhome, hs⟩ := Option.bind_eq_some_iff.1 hs
      obtain ⟨vc, hvc, hs⟩ := Option.bind_eq_some_iff.1 hs
      obtain ⟨w, hw, rfl⟩ := Option.map_eq_some_iff.1 hs
      refine ⟨Or.inr ⟨home.user, w.path, rfl, ?_⟩, h.global, hmono _⟩
      exact .loaded rfl (List.mem_of_getElem? hhome) (Or.inl ⟨vc, hvc, rfl⟩)
        (EventsViewController.updateEvent_below (Except.toOption_eq_some.1 hw))
  | addMessage k message key =>
      obtain ⟨home, hhome, hs⟩ := Option.bind_eq_some_iff.1 hs
      obtain ⟨vc, hvc, hs⟩ := Option.bind_eq_some_iff.1 hs
      obtain ⟨w, hw, rfl⟩ := Option.map_eq_some_iff.1 hs
      refine ⟨Or.inr ⟨home.user, w.path, rfl, ?_⟩, h.global, hmono _⟩
      exact .loaded rfl (List.mem_of_getElem? hhome) (Or.inr ⟨vc, hvc, rfl⟩)
        (TeamViewController.addMessage_below (Except.toOption_eq_some.1 hw))

/-! ### The run -/

theorem Under.below {teamId : String} {ref path : FPath} (h : Under teamId ref) (hp : ref <+: path) :
    Under teamId path := by
  obtain ⟨p, hteam, hprefix⟩ := h
  exact ⟨p, hteam, hprefix.trans hp⟩

/-- **A step that reads the team of its own session touches only that team.** -/
theorem Sound.isolated (h : Sound team s) (hisolated : Isolated team s) {a : AppAction}
    (hown : OwnTeamLast team s a) (hs : s.step team a = some s') : Isolated team s' := by
  rcases (h.step_cases hs).touched with ⟨hsame, _⟩ | ⟨user, path, htouched, hpath⟩
  · rw [Isolated, hsame]
    exact hisolated
  · rw [Isolated, htouched]
    refine List.forall_mem_cons.2 ⟨?_, hisolated⟩
    cases hpath with
    | @reads k home hk hhome valid rest =>
        have hteam := hown k home hk hhome (by rw [hs]; rfl)
        rw [← h.global] at hteam
        exact ⟨_, teamRef_eq_ok.2 ⟨hteam ▸ valid, rfl⟩, hteam ▸ List.prefix_append _ _⟩
    | @loaded home ref _ _ hhome href below =>
        obtain ⟨hevents, hmessages⟩ := h.loaded home hhome
        rcases href with ⟨vc, hvc, rfl⟩ | ⟨vc, hvc, rfl⟩
        · exact (hisolated _ (hevents vc hvc)).below below
        · exact (hisolated _ (hmessages vc hvc)).below below

/-- Where all team ids are keys, a step that touches only the team of its session
reads that team. -/
theorem Sound.ownTeamLast (h : Sound team s) (hkeys : ∀ u, isValidKey (team u) = true)
    {a : AppAction} (hisolated : ∀ s', s.step team a = some s' → Isolated team s') :
    OwnTeamLast team s a := by
  intro k home hk hhome hsome
  obtain ⟨s', hs⟩ := Option.isSome_iff_exists.1 hsome
  have hfirst : isValidKey "Test TEAM ID" = true := by decide
  have hlast : isValidKey (s.lastTeam team) = true := by
    unfold lastTeam
    cases s.delivered with
    | nil => exact hfirst
    | cons uid _ => exact hkeys uid
  rcases (h.step_cases hs).touched with ⟨_, hnone⟩ | ⟨user, path, htouched, hpath⟩
  · exact nomatch hk.symm.trans hnone
  · have hunder : Under (team user) path := by
      have hq := hisolated s' hs (user, path)
      rw [htouched] at hq
      exact hq List.mem_cons_self
    cases hpath with
    | @reads k' home' hk' hhome' valid rest =>
        obtain rfl := Option.some.inj (hk.symm.trans hk')
        obtain rfl := Option.some.inj (hhome.symm.trans hhome')
        obtain ⟨p, hp, hprefix⟩ := hunder
        rw [teamRef_of_isValidKey (hkeys home.user)] at hp
        obtain rfl := Except.ok.inj hp
        rw [h.global, FPath.initWith_of_isValidKey hlast] at hprefix
        obtain ⟨rest', heq⟩ := hprefix
        exact (List.cons.inj (List.cons.inj heq).2).1.symm
    | loaded hnone => exact nomatch hk.symm.trans hnone

/-- **When sessions are isolated.**  In a run in which the record delivered last
before each reading of `teamIdGlobal` was one of the team of the session's user, no
screen touches anything of another team.  Where all team ids are keys, there is no
other way. -/
theorem isolated_of_ownTeamLast (team : String → String) (currentUser : Option String)
    (as : List AppAction) :
    (Run.Guarded (step team) (OwnTeamLast team) (launch currentUser) as →
      Run.Always (step team) (Isolated team) (launch currentUser) as) ∧
    ((∀ u, isValidKey (team u) = true) →
      Run.Always (step team) (Isolated team) (launch currentUser) as →
      Run.Guarded (step team) (OwnTeamLast team) (launch currentUser) as) := by
  have hlaunch : Sound team (launch currentUser) := ⟨rfl, fun _ h => absurd h List.not_mem_nil⟩
  have hempty : Isolated team (launch currentUser) := fun _ h => absurd h List.not_mem_nil
  refine ⟨fun hguarded => ?_, fun hkeys => ?_⟩
  · refine Run.always_of_guarded (I := fun s => Sound team s ∧ Isolated team s) ?_
      (fun s hs => hs.2) ⟨hlaunch, hempty⟩ hguarded
    exact fun s a s' hs hown hstep => ⟨(hs.1.step_cases hstep).sound, hs.1.isolated hs.2 hown hstep⟩
  · refine (Run.always_iff_guarded (I := Sound team) (Q := fun _ => True)
      (fun _ _ _ _ hs _ hstep _ => (hs.step_cases hstep).sound) (fun s a _ hs hisolated => ?_) hlaunch
      hempty fun _ _ => trivial).1
    exact ⟨fun hown s' hstep => hs.isolated hisolated hown hstep, hs.ownTeamLast hkeys⟩

/-- The record of a user of the team `T1`. -/
def recordT1 (uid : String) : Value := (⟨uid, "Ann", some "T1"⟩ : User).encode

/-- Ann waits for her record before she selects the events tab. -/
def patient : List AppAction :=
  [.signIn "ann", .openHome, .deliver 0 (recordT1 "ann"), .loadEvents 0]

/-- A session in which the record comes first is isolated. -/
theorem isolated_of_ownTeamLast_patient :
    ∃ t, Run.exec (step fun _ => "T1") (launch none) patient = some t ∧
      t.touched = [("ann", ["Teams", "T1", "Events"])] ∧
      Run.Always (step fun _ => "T1") (Isolated fun _ => "T1") (launch none) patient := by
  have hrun : (Run.exec (step fun _ => "T1") (launch none) patient).map (fun t => t.touched) =
      some [("ann", ["Teams", "T1", "Events"])] := by
    decide +kernel
  obtain ⟨t, ht, htouched⟩ := Option.map_eq_some_iff.1 hrun
  refine ⟨t, ht, htouched, (isolated_of_ownTeamLast (fun _ => "T1") none patient).1 ?_⟩
  have hdelivered : (Run.exec (step fun _ => "T1") (launch none) (patient.take 3)).map
      (fun t => t.delivered) = some ["ann"] := by
    decide +kernel
  refine ⟨fun _ _ hk => (nomatch hk), fun s₁ hs₁ => ⟨fun _ _ hk => (nomatch hk), fun s₂ hs₂ =>
    ⟨fun _ _ hk => (nomatch hk), fun s₃ hs₃ => ⟨fun k home _ _ _ => ?_, fun _ _ => trivial⟩⟩⟩⟩
  have hexec : Run.exec (step fun _ => "T1") (launch none) (patient.take 3) = some s₃ :=
    Run.exec_cons_eq_some.2 ⟨s₁, hs₁, Run.exec_cons_eq_some.2 ⟨s₂, hs₂,
      Run.exec_cons_eq_some.2 ⟨s₃, hs₃, rfl⟩⟩⟩
  rw [hexec] at hdelivered
  have hann : s₃.delivered = ["ann"] := Option.some.inj hdelivered
  rw [lastTeam, hann]

/-- Ann selects the events tab before her record has come. -/
def hasty : List AppAction := [.signIn "ann", .openHome, .loadEvents 0]

/-- Bob signs in after Ann and selects the events tab before his record has come. -/
def nextUser : List AppAction :=
  [.signIn "ann", .openHome, .deliver 0 (recordT1 "ann"), .signOut, .signIn "bob", .openHome,
    .loadEvents 1]

/-- **A session that is not isolated.**  Before the first record the events screen
observes the team id the app is launched with, and later that of the user before. -/
theorem other_team_observed :
    ¬ Run.Always (step fun _ => "T1") (Isolated fun _ => "T1") (launch none) hasty ∧
      ¬ Run.Always (step fun uid => if uid = "bob" then "T2" else "T1")
        (Isolated fun uid => if uid = "bob" then "T2" else "T1") (launch none) nextUser := by
  have hunder : ∀ {teamId : String} {path : FPath}, isValidKey teamId = true → Under teamId path →
      ["Teams", teamId] <+: path := by
    rintro teamId path hkey ⟨p, hp, hprefix⟩
    rw [teamRef_of_isValidKey hkey] at hp
    exact Except.ok.inj hp ▸ hprefix
  constructor
  · have hrun : (Run.exec (step fun _ => "T1") (launch none) hasty).map (fun t => t.touched) =
        some [("ann", ["Teams", "Test TEAM ID", "Events"])] := by
      decide +kernel
    obtain ⟨t, ht, htouched⟩ := Option.map_eq_some_iff.1 hrun
    intro h
    have hann := Run.always_iff_prefix.1 h hasty [] t (List.append_nil _).symm ht
      ("ann", ["Teams", "Test TEAM ID", "Events"]) (htouched ▸ List.mem_cons_self)
    exact absurd (hunder (by decide) hann) (by decide)
  · have hrun : (Run.exec (step fun uid => if uid = "bob" then "T2" else "T1") (launch none)
        nextUser).map (fun t => t.touched) = some [("bob", ["Teams", "T1", "Events"])] := by
      decide +kernel
    obtain ⟨t, ht, htouched⟩ := Option.map_eq_some_iff.1 hrun
    intro h
    have hbob := Run.always_iff_prefix.1 h nextUser [] t (List.append_nil _).symm ht
      ("bob", ["Teams", "T1", "Events"]) (htouched ▸ List.mem_cons_self)
    exact absurd (hunder (by decide) hbob) (by decide)

end App
end Teamstuff
