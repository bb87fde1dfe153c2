/-
# Changing the team in a session

The profile screen writes the user's record, and the observer of the record sets
`teamIdGlobal` when the snapshot is delivered.  The events and the messages screen
took their references when they loaded; the detail screen takes its own again
whenever it appears.

So a team change leaves the two lists on the team of the start.  The screens agree in
every state of a run without undelivered snapshots if and only if the last snapshot of
each batch names that team again and finds no detail open under another one
(`screens_agree_iff`).
-/

import Teamstuff.Controller.Account
import Teamstuff.Controller.EventDetailViewController
import Teamstuff.Controller.TeamViewController
import Teamstuff.Library.Run

namespace Teamstuff

/-- An event detail on the screen, with the key its reference was last taken with. -/
structure OpenDetail where
  vc : EventDetailViewController
  key : String

/-- The detail has a reference below the events of the team. -/
def OpenDetail.IsOf (teamId : String) (d : OpenDetail) : Prop :=
  ∃ team, teamRef teamId = .ok team ∧ d.vc.ref = team ++ ["Events"] ++ FPath.initWith d.key

/-- The screens of the session of one user.  `asked` are the calls of `saveUser` that wait
for the snapshot of `Teams`, `store` is what the client has of the database, and `raised`
are the snapshots of the user's record that have not been delivered. -/
structure TeamScreens where
  teamIdGlobal : String
  profile : ProfileViewController
  events : EventsViewController
  messages : TeamViewController
  detail : Option OpenDetail
  asked : List (String × String)
  store : Node
  raised : List Value

/-- What can happen: the rows of the profile are edited and saved, the snapshot a call of
`saveUser` asked for arrives, a snapshot of the user's record is delivered, a tab appears,
the lists are fetched, a detail opens, appears again, is fetched or closes, and the
events and messages screens write. -/
inductive TeamAction
  | editRows (name teamId : Option String)
  | saveUser
  | saved (teams : Node)
  | deliver
  | tabAppears
  | fetchEvents (now : ℕ → Date) (snapshot : Node) (pool : ℕ ↪ ℕ)
  | fetchMessages (snapshot : Node)
  | openDetail (row : ℕ)
  | detailAppears
  | fetchEvent (value : Value)
  | detailCloses
  | swipe (available : Bool) (row : ℕ)
  | addEvent (event : Event) (key : String) (pool : ℕ ↪ ℕ)
  | addMessage (message : Message) (key : String)

namespace TeamScreens

/-- The tabs have been loaded with the team of the user. -/
def loaded (teamId : String) (profile : ProfileViewController) (events : EventsViewController)
    (messages : TeamViewController) (store : Node) : TeamScreens where
  teamIdGlobal := teamId
  profile := profile
  events := events
  messages := messages
  detail := none
  asked := []
  store := store
  raised := []

/-- A write of the client: the observer of the record of `uid` is to be notified if it
changes the record. -/
def issue (uid : String) (w : Write) (s : TeamScreens) : TeamScreens :=
  let record := (w.apply s.store).getChild ["Users", uid]
  { s with
    store := w.apply s.store
    raised := if record.isEqual (s.store.getChild ["Users", uid]) then s.raised
      else s.raised ++ [record.val] }

/-- A detail screen fetches its event. -/
def fetchDetail (vc : EventDetailViewController) (s : TeamScreens) : Option TeamScreens :=
  vc.event.bind fun event => (vc.fetchEvent s.teamIdGlobal).map fun vc =>
    { s with detail := some ⟨vc, event.id⟩ }

variable (g : Graphemes) (locale : Locale) (uid : String)

/-- One step; `none` where it cannot happen or ends the app.  `viewWillAppear` of the tabs
looks at the sign-in only. -/
def step (s : TeamScreens) : TeamAction → Option TeamScreens
  | .editRows name teamId => some
      { s with profile := { s.profile with nameRow := name, teamIdRow := teamId } }
  | .saveUser => (s.profile.saveUser g).map fun form => { s with asked := s.asked ++ [form] }
  | .saved teams =>
      match s.asked with
      | [] => none
      | (name, teamId) :: asked =>
          match s.profile.saved name teamId teams with
          | .error _ => none
          | .ok (.stored user w) => some
              ({ s with profile := { s.profile with user := some user }, asked := asked }.issue uid w)
          | .ok (.teamNotFound _) | .ok .noUser => some { s with asked := asked }
  | .deliver =>
      match s.raised with
      | [] => none
      | value :: raised => (s.profile.fetchUser User.decode value).map fun r =>
          { s with
            profile := r.1
            teamIdGlobal := r.2.getD s.teamIdGlobal
            raised := raised }
  | .tabAppears => some s
  | .fetchEvents now snapshot pool =>
      (s.events.fetchEvents Event.decode now snapshot locale uid pool).map fun vc =>
        { s with events := vc }
  | .fetchMessages snapshot => some
      { s with messages := s.messages.fetchMessages Message.decode snapshot }
  | .openDetail row => (s.events.displayed row).bind fun cell =>
      s.fetchDetail ⟨(s.events.cells cell).event, []⟩
  | .detailAppears => s.detail.bind fun d => s.fetchDetail d.vc
  | .fetchEvent value => s.detail.map fun d =>
      { s with detail := some { d with vc := d.vc.fetched Event.decode value } }
  | .detailCloses => some { s with detail := none }
  | .swipe available row =>
      match s.events.swipe available uid row with
      | .error _ => none
      | .ok (vc, calls) => (calls.mapM vc.updateEvent).toOption.map fun ws =>
          ws.foldl (fun s w => s.issue uid w) { s with events := vc }
  | .addEvent event key pool => (s.events.addEvent event key).toOption.bind fun w =>
      (s.events.reloadData locale uid pool).map fun vc => { s with events := vc }.issue uid w
  | .addMessage message key => (s.messages.addMessage message key).toOption.map fun w =>
      s.issue uid w

/-! ### Which team the screens name -/

/-- The events and the messages screen have the references of the team. -/
def ListsOf (teamId : String) (s : TeamScreens) : Prop :=
  ∃ team, teamRef teamId = .ok team ∧ s.events.ref = team ++ ["Events"] ∧
    s.messages.ref = team ++ ["Messages"]

/-- All screens name the team of `teamIdGlobal`. -/
def Agree (s : TeamScreens) : Prop :=
  s.ListsOf s.teamIdGlobal ∧ ∀ d, s.detail = some d → d.IsOf s.teamIdGlobal

/-! ### What a step does -/

/-- What every step but a delivery leaves as it was: the team, the references of the lists,
and the detail, unless it takes its reference again. -/
structure Stays (s s' : TeamScreens) : Prop where
  teamIdGlobal : s'.teamIdGlobal = s.teamIdGlobal
  events : s'.events.ref = s.events.ref
  messages : s'.messages.ref = s.messages.ref
  raised : s'.raised = [] → s.raised = []
  detail : ∀ d', s'.detail = some d' → d'.IsOf s.teamIdGlobal ∨
    ∃ d, s.detail = some d ∧ d'.vc.ref = d.vc.ref ∧ d'.key = d.key

theorem Stays.of_detail {s s' : TeamScreens} (hteam : s'.teamIdGlobal = s.teamIdGlobal)
    (hevents : s'.events.ref = s.events.ref) (hmessages : s'.messages.ref = s.messages.ref)
    (hraised : s'.raised = [] → s.raised = []) (hdetail : s'.detail = s.detail) : Stays s s' :=
  ⟨hteam, hevents, hmessages, hraised, fun d hd => Or.inr ⟨d, hdetail ▸ hd, rfl, rfl⟩⟩

theorem raised_issue {uid : String} {w : Write} {s : TeamScreens}
    (h : (s.issue uid w).raised = []) : s.raised = [] := by
  unfold issue at h
  dsimp only at h
  split_ifs at h
  · exact h
  · exact (List.append_eq_nil_iff.1 h).1

/-- Issuing writes touches no screen. -/
theorem Stays.issue {s s' : TeamScreens} (h : Stays s s') (uid : String) (w : Write) :
    Stays s (s'.issue uid w) :=
  ⟨h.teamIdGlobal, h.events, h.messages, fun hnil => h.raised (raised_issue hnil), h.detail⟩

theorem Stays.issueAll {s s' : TeamScreens} (h : Stays s s') (uid : String) (ws : List Write) :
    Stays s (ws.foldl (fun s w => s.issue uid w) s') := by
  induction ws generalizing s' with
  | nil => exact h
  | cons w ws ih => exact ih (h.issue uid w)

theorem stays_fetchDetail {vc : EventDetailViewController} {s s' : TeamScreens}
    (h : s.fetchDetail vc = some s') : Stays s s' := by
  obtain ⟨event, hevent, h⟩ := Option.bind_eq_some_iff.1 h
  obtain ⟨vc', hvc', rfl⟩ := Option.map_eq_some_iff.1 h
  obtain ⟨event', hevent', hvalid, _, rfl⟩ := EventDetailViewController.fetchEvent_eq_some.1 hvc'
  obtain rfl := Option.some.inj (hevent.symm.trans hevent')
  refine ⟨rfl, rfl, rfl, id, fun d hd => Or.inl ?_⟩
  obtain rfl := Option.some.inj hd
  exact ⟨_, teamRef_eq_ok.2 ⟨hvalid, rfl⟩, rfl⟩

section Steps

variable {g : Graphemes} {locale : Locale} {uid : String} {s s' : TeamScreens}

/-- The team of the record in a snapshot, or the present one where there is none. -/
def nextTeam (s : TeamScreens) (value : Value) : String :=
  ((User.decode value).toOption.bind User.teamId).getD s.teamIdGlobal

theorem step_deliver (h : s.step g locale uid .deliver = some s') : ∃ value,
    s.raised = value :: s'.raised ∧ s'.teamIdGlobal = s.nextTeam value ∧ s'.events = s.events ∧
      s'.messages = s.messages ∧ s'.detail = s.detail := by
  cases hraised : s.raised with
  | nil =>
      rw [step, hraised] at h
      exact nomatch h
  | cons value raised =>
      rw [step, hraised] at h
      obtain ⟨⟨profile, teamIdGlobal⟩, hr, rfl⟩ := Option.map_eq_some_iff.1 h
      refine ⟨value, rfl, ?_, rfl, rfl, rfl⟩
      unfold nextTeam
      cases hdecode : User.decode value with
      | error _ =>
          unfold ProfileViewController.fetchUser at hr
          rw [hdecode] at hr
          obtain ⟨_, rfl⟩ := Prod.mk.inj (Option.some.inj hr)
          rfl
      | ok user =>
          obtain rfl := ProfileViewController.fetchUser_global hdecode hr
          rfl

/-- **A step that is no delivery** leaves the screens on their teams. -/
theorem stays_step {a : TeamAction} (ha : a ≠ .deliver) (h : s.step g locale uid a = some s') :
    Stays s s' := by
  cases a with
  | deliver => exact absurd rfl ha
  | editRows _ _ | tabAppears =>
      obtain rfl := Option.some.inj h
      exact .of_detail rfl rfl rfl id rfl
  | fetchMessages snapshot =>
      obtain rfl := Option.some.inj h
      exact .of_detail rfl rfl (TeamViewController.fetchMessages_ref ..) id rfl
  | saveUser =>
      obtain ⟨_, _, rfl⟩ := Option.map_eq_some_iff.1 h
      exact .of_detail rfl rfl rfl id rfl
  | saved teams =>
      simp only [step] at h
      split at h
      · exact nomatch h
      · split at h
        · exact nomatch h
        · obtain rfl := Option.some.inj h
          refine .issue ?_ uid _
          exact .of_detail rfl rfl rfl id rfl
        · obtain rfl := Option.some.inj h
          exact .of_detail rfl rfl rfl id rfl
        · obtain rfl := Option.some.inj h
          exact .of_detail rfl rfl rfl id rfl
  | fetchEvents now snapshot pool =>
      obtain ⟨vc, hvc, rfl⟩ := Option.map_eq_some_iff.1 h
      obtain ⟨vc', hvc', _, href, _⟩ :=
        EventsViewController.fetchEvents_spec Event.decode now snapshot locale uid pool s.events
      obtain rfl := Option.some.inj (hvc.symm.trans hvc')
      exact .of_detail rfl href rfl id rfl
  | openDetail row =>
      obtain ⟨_, _, h⟩ := Option.bind_eq_some_iff.1 h
      exact stays_fetchDetail h
  | detailAppears =>
      obtain ⟨_, _, h⟩ := Option.bind_eq_some_iff.1 h
      exact stays_fetchDetail h
  | fetchEvent value =>
      obtain ⟨d, hd, rfl⟩ := Option.map_eq_some_iff.1 h
      refine ⟨rfl, rfl, rfl, id, fun d' hd' => Or.inr ⟨d, hd, ?_⟩⟩
      obtain rfl := Option.some.inj hd'
      exact ⟨EventDetailViewController.fetched_ref .., rfl⟩
  | detailCloses =>
      obtain rfl := Option.some.inj h
      exact ⟨rfl, rfl, rfl, id, fun d hd => nomatch hd⟩
  | swipe available row =>
      simp only [step] at h
      split at h
      · exact nomatch h
      · rename_i vc calls hswipe
        obtain ⟨ws, _, rfl⟩ := Option.map_eq_some_iff.1 h
        obtain ⟨_, _, _, _, _, rfl⟩ := EventsViewController.swipe_eq_ok.1 hswipe
        refine .issueAll ?_ uid ws
        exact .of_detail rfl rfl rfl id rfl
  | addEvent event key pool =>
      obtain ⟨w, _, h⟩ := Option.bind_eq_some_iff.1 h
      obtain ⟨vc, hvc, rfl⟩ := Option.map_eq_some_iff.1 h
      obtain ⟨vc', hvc', hreloaded⟩ := EventsViewController.reloadData_spec locale uid pool s.events
      obtain rfl := Option.some.inj (hvc.symm.trans hvc')
      refine .issue ?_ uid w
      exact .of_detail rfl hreloaded.ref rfl id rfl
  | addMessage message key =>
      obtain ⟨w, _, rfl⟩ := Option.map_eq_some_iff.1 h
      refine .issue ?_ uid w
      exact .of_detail rfl rfl rfl id rfl

end Steps

/-! ### When the screens agree -/

/-- Two ids that designate one node have the same details. -/
theorem isOf_congr {teamId teamId' : String} (h : teamRef teamId' = teamRef teamId) {d : OpenDetail} :
    d.IsOf teamId' ↔ d.IsOf teamId := by
  unfold OpenDetail.IsOf
  rw [h]

/-- The lists tell the node of their team. -/
theorem ListsOf.iff {teamId teamId' : String} {s : TeamScreens} (h : s.ListsOf teamId) :
    s.ListsOf teamId' ↔ teamRef teamId' = teamRef teamId := by
  obtain ⟨team, hteam, hevents, hmessages⟩ := h
  rw [hteam]
  constructor
  · rintro ⟨team', hteam', hevents', _⟩
    rw [hteam', List.append_cancel_right (hevents'.symm.trans hevents)]
  · exact fun hteam' => ⟨team, hteam', hevents, hmessages⟩

/-- **Which team the lists are of never changes.** -/
theorem ListsOf.step {g : Graphemes} {locale : Locale} {uid teamId : String} {s s' : TeamScreens}
    {a : TeamAction} (hs : s.ListsOf teamId) (h : s.step g locale uid a = some s') :
    s'.ListsOf teamId := by
  obtain ⟨team, hteam, hevents, hmessages⟩ := hs
  by_cases ha : a = .deliver
  · subst ha
    obtain ⟨_, _, _, hevents', hmessages', _⟩ := step_deliver h
    exact ⟨team, hteam, hevents' ▸ hevents, hmessages' ▸ hmessages⟩
  · have hstays := stays_step ha h
    exact ⟨team, hteam, hstays.events.trans hevents, hstays.messages.trans hmessages⟩

/-- The snapshot names the node of the team `teamId` again, and finds no detail open under
another one. -/
def Returns (teamId : String) (s : TeamScreens) (value : Value) : Prop :=
  teamRef (s.nextTeam value) = teamRef teamId ∧ ∀ d, s.detail = some d → d.IsOf teamId

/-- The last undelivered snapshot is delivered and does not return to the team. -/
def Strays (g : Graphemes) (locale : Locale) (uid teamId : String) (s : TeamScreens)
    (a : TeamAction) : Prop :=
  a = .deliver ∧ (s.step g locale uid a).isSome = true ∧
    ∃ value, s.raised = [value] ∧ ¬ s.Returns teamId value

/-- The screens agree unless there are undelivered snapshots. -/
def Settled (s : TeamScreens) : Prop := s.raised = [] → s.Agree

theorem settled_deliver_iff {g : Graphemes} {locale : Locale} {uid teamId : String}
    {s s' : TeamScreens} (hs : s.ListsOf teamId) (h : s.step g locale uid .deliver = some s') :
    s'.Settled ↔ ∀ value, s.raised = [value] → s.Returns teamId value := by
  have hs' := hs.step h
  obtain ⟨value, hraised, hteam, _, _, hdetail⟩ := step_deliver h
  unfold Settled Agree Returns
  rw [hteam, hdetail, hs'.iff, hraised]
  constructor
  · intro hsettled value' hvalue'
    obtain ⟨rfl, hnil⟩ := List.cons.inj hvalue'
    obtain ⟨hnext, hd⟩ := hsettled hnil
    exact ⟨hnext, fun d hd' => (isOf_congr hnext).1 (hd d hd')⟩
  · intro hreturns hnil
    obtain ⟨hnext, hd⟩ := hreturns value (by rw [hnil])
    exact ⟨hnext, fun d hd' => (isOf_congr hnext).2 (hd d hd')⟩

/-- A step that is no delivery lets no screen part. -/
theorem Settled.stays {s s' : TeamScreens} (hs : s.Settled) (h : Stays s s') : s'.Settled := by
  intro hnil
  obtain ⟨⟨team, hteam, hevents, hmessages⟩, hdetail⟩ := hs (h.raised hnil)
  unfold Agree
  rw [h.teamIdGlobal]
  refine ⟨⟨team, hteam, h.events.trans hevents, h.messages.trans hmessages⟩, fun d' hd' => ?_⟩
  rcases h.detail d' hd' with hof | ⟨d, hd, href, hkey⟩
  · exact hof
  · obtain ⟨team', hteam', hof⟩ := hdetail d hd
    exact ⟨team', hteam', by rw [href, hkey, hof]⟩

/-- **When the screens agree after team changes.**  From tabs loaded with the team `teamId`
on, the events screen, the messages screen and an open detail name the team of `teamIdGlobal`
whenever no snapshot of the user's record is undelivered, if and only if every delivery that
leaves none returns to the node of `teamId`. -/
theorem screens_agree_iff (g : Graphemes) (locale : Locale) (uid teamId : String)
    (events : EventsViewController) (messages : TeamViewController)
    (hevents : EventsViewController.viewDidLoad teamId = .ok events)
    (hmessages : TeamViewController.viewDidLoad teamId = .ok messages)
    (profile : ProfileViewController) (store : Node) (as : List TeamAction) :
    Run.Always (step g locale uid) Settled (loaded teamId profile events messages store) as ↔
      Run.Guarded (step g locale uid) (fun s a => ¬ Strays g locale uid teamId s a)
        (loaded teamId profile events messages store) as := by
  have hlists : (loaded teamId profile events messages store).ListsOf teamId := by
    obtain ⟨hvalid, rfl⟩ := EventsViewController.viewDidLoad_eq_ok.1 hevents
    obtain ⟨_, rfl⟩ := TeamViewController.viewDidLoad_eq_ok.1 hmessages
    exact ⟨_, teamRef_eq_ok.2 ⟨hvalid, rfl⟩, rfl, rfl⟩
  refine Run.always_iff_guarded (Q := fun _ => True) (I := ListsOf teamId)
    (fun s a s' _ hs _ h _ => hs.step h) (fun s a _ hs hsettled => ?_) hlists
    (fun _ => ⟨hlists, fun d hd => nomatch hd⟩) fun _ _ => trivial
  by_cases ha : a = .deliver
  · subst ha
    constructor
    · intro hreturns s' h
      refine (settled_deliver_iff hs h).2 fun value hvalue => ?_
      by_contra hstray
      exact hreturns ⟨rfl, by rw [h]; rfl, value, hvalue, hstray⟩
    · rintro hsafe ⟨_, hsome, value, hvalue, hstray⟩
      obtain ⟨s', h⟩ := Option.isSome_iff_exists.1 hsome
      exact hstray ((settled_deliver_iff hs h).1 (hsafe s' h) value hvalue)
  · exact iff_of_true (fun hstray => ha hstray.1) fun s' h => hsettled.stays (stays_step ha h)

/-- The teams T1 and T2. -/
def twoTeams : Node :=
  (Node.empty.updateChild ["T1"] (.leaf (.bool true))).updateChild ["T2"] (.leaf (.bool true))

/-- The database with Ann, who is in T1. -/
def annInT1 : Node := Node.empty.updateChild ["Users", "ann"]
  (.children [("id", .leaf (.string "ann")), ("name", .leaf (.string "Ann")),
    ("teamId", .leaf (.string "T1"))])

/-- Ann's session, with her tabs loaded. -/
def annsScreens : TeamScreens :=
  loaded "T1" ⟨some ⟨"ann", "Ann", some "T1"⟩, some "Ann", some "T1"⟩
    (.opened ["Teams", "T1", "Events"]) ⟨["Teams", "T1", "Messages"], []⟩ annInT1

/-- Ann saves her profile. -/
def savesProfile (name teamId : String) : List TeamAction :=
  [.editRows (some name) (some teamId), .saveUser, .saved twoTeams, .deliver]

/-- Ann changes her name. -/
theorem screens_agree_iff_renamed : ∃ t,
    Run.exec (step .scalars someLocale "ann") annsScreens (savesProfile "Anna" "T1") = some t ∧
      t.profile.nameRow = some "Anna" ∧
      Run.Always (step .scalars someLocale "ann") Settled annsScreens (savesProfile "Anna" "T1") := by
  have hrun : (Run.exec (step .scalars someLocale "ann") annsScreens (savesProfile "Anna" "T1")).map
      (fun t => t.profile.nameRow) = some (some "Anna") := by
    decide +kernel
  obtain ⟨t, ht, hname⟩ := Option.map_eq_some_iff.1 hrun
  refine ⟨t, ht, hname, (screens_agree_iff .scalars someLocale "ann" "T1"
    (.opened ["Teams", "T1", "Events"]) ⟨["Teams", "T1", "Messages"], []⟩ rfl rfl _ annInT1 _).2 ?_⟩
  refine ⟨fun hstray => (nomatch hstray.1), fun s₁ hs₁ => ⟨fun hstray => (nomatch hstray.1),
    fun s₂ hs₂ => ⟨fun hstray => (nomatch hstray.1), fun s₃ hs₃ => ⟨?_, fun _ _ => trivial⟩⟩⟩⟩
  rintro ⟨_, _, value, hvalue, hstray⟩
  have hteams : (Run.exec (step .scalars someLocale "ann") annsScreens
      ((savesProfile "Anna" "T1").take 3)).map (fun s => (s.raised.map s.nextTeam, s.detail.isNone)) =
        some (["T1"], true) := by
    decide +kernel
  have hexec : Run.exec (step .scalars someLocale "ann") annsScreens
      ((savesProfile "Anna" "T1").take 3) = some s₃ :=
    Run.exec_cons_eq_some.2 ⟨s₁, hs₁, Run.exec_cons_eq_some.2 ⟨s₂, hs₂,
      Run.exec_cons_eq_some.2 ⟨s₃, hs₃, rfl⟩⟩⟩
  rw [hexec] at hteams
  obtain ⟨hteam, hdetail⟩ := Prod.mk.inj (Option.some.inj hteams)
  rw [hvalue] at hteam
  refine hstray ⟨congrArg teamRef (List.cons.inj hteam).1, fun d hd => ?_⟩
  rw [hd] at hdetail
  exact nomatch hdetail

/-- **Lists of the old team.**  Ann joins T2.  Her new record has been delivered, and the
events screen still has the reference of T1. -/
theorem joined_not_agree : ∃ t,
    Run.exec (step .scalars someLocale "ann") annsScreens (savesProfile "Ann" "T2") = some t ∧
      t.raised = [] ∧ t.teamIdGlobal = "T2" ∧ t.events.ref = ["Teams", "T1", "Events"] ∧
        ¬ t.Settled := by
  have hrun : (Run.exec (step .scalars someLocale "ann") annsScreens (savesProfile "Ann" "T2")).map
      (fun t => (t.raised.isEmpty, t.teamIdGlobal, t.events.ref)) =
        some (true, "T2", ["Teams", "T1", "Events"]) := by
    decide +kernel
  obtain ⟨t, ht, hend⟩ := Option.map_eq_some_iff.1 hrun
  obtain ⟨hraised, hend⟩ := Prod.mk.inj hend
  obtain ⟨hteam, href⟩ := Prod.mk.inj hend
  refine ⟨t, ht, List.isEmpty_iff.1 hraised, hteam, href, fun hsettled => ?_⟩
  obtain ⟨⟨team, hteam', href', _⟩, _⟩ := hsettled (List.isEmpty_iff.1 hraised)
  rw [hteam, teamRef_of_isValidKey (by decide)] at hteam'
  obtain rfl := Except.ok.inj hteam'
  exact absurd (href.symm.trans href') (by decide)

end TeamScreens

end Teamstuff
