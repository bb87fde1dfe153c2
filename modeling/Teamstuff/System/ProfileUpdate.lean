/-
# A profile update that is refused

`saveUser` changes `self.user` before it writes, and nothing it does itself takes the
change back.  The record comes back through the observer of `fetchUser`: the write
raises the new record at once, the refusal raises the stored one again, and each
delivery replaces the user, the rows and `teamIdGlobal`.

Neither is raised where the record compares equal to the one before, and then there is
nothing to take back (`User.decode_of_isEqual`).  `Settles` says where the deliveries
that are still to come lead; it is what every step keeps.
-/

import Teamstuff.Controller.TeamIdRule
import Teamstuff.Library.Replica
import Teamstuff.Library.Run

namespace Teamstuff

/-- What the database raises for the app, in this order: values for the observer of
`fetchUser`, and the end of a write for its completion block. -/
inductive DatabaseEvent
  | value (value : Value)
  | completion (failed : Bool)

/-- The profile screen and the database during one call of `saveUser`.  `asked` is the
form of the call as long as it waits for the snapshot of `Teams`, `alert` the title of the
alert its completion block presents. -/
structure ProfileUpdate where
  profile : ProfileViewController
  teamIdGlobal : String
  asked : Option (String × String)
  db : Replica Unit Node Write
  raised : List DatabaseEvent
  alert : Option String

/-- The snapshot of `Teams` arrives, the database refuses the oldest write, and it
delivers the oldest event it has raised. -/
inductive UpdateAction
  | saved (teams : Node)
  | refuse
  | deliver

namespace ProfileUpdate

/-- `saveUser` was called with this form. -/
def called (root : Node) (profile : ProfileViewController) (teamIdGlobal : String)
    (form : String × String) : ProfileUpdate where
  profile := profile
  teamIdGlobal := teamIdGlobal
  asked := some form
  db := Replica.start root
  raised := []
  alert := none

/-- The record of the user, with the writes on their way. -/
def record (uid : String) (s : ProfileUpdate) : Node :=
  (s.db.overlay Write.apply () s.db.store).getChild ["Users", uid]

/-- The record is raised for its observer if it differs from the one before. -/
def notify (uid : String) (before : Node) (s : ProfileUpdate) : ProfileUpdate :=
  { s with
    raised := if (s.record uid).isEqual before then s.raised
      else s.raised ++ [.value (s.record uid).val] }

/-- One step; `none` where it cannot happen or ends the app. -/
def step (uid : String) (s : ProfileUpdate) : UpdateAction → Option ProfileUpdate
  | .saved teams => s.asked.bind fun (name, teamId) =>
      match s.profile.saved name teamId teams with
      | .error _ => none
      | .ok (.stored user w) => some
          ({ s with
            profile := { s.profile with user := some user }
            asked := none
            db := s.db.issue () w }.notify uid (s.record uid))
      | .ok (.teamNotFound _) | .ok .noUser => some { s with asked := none }
  | .refuse => (s.db.refuse ()).map fun db =>
      let s' := { s with db := db }.notify uid (s.record uid)
      { s' with raised := s'.raised ++ [.completion true] }
  | .deliver =>
      match s.raised with
      | [] => none
      | .value value :: raised => (s.profile.fetchUser User.decode value).map fun r =>
          { s with
            profile := r.1
            teamIdGlobal := r.2.getD s.teamIdGlobal
            raised := raised }
      | .completion failed :: raised => some { s with
          alert := some (if failed then "Update failed" else "Succesfull update")
          raised := raised }

/-- The screen with a user's record on it. -/
def shown (user : User) : ProfileViewController := ⟨some user, some user.name, user.teamId⟩

/-- When all of the events are delivered, the screen shows the user and `teamIdGlobal` is
the user's team; no delivery traps. -/
def Settles (user : User) : ProfileViewController → String → List DatabaseEvent → Prop
  | vc, teamIdGlobal, [] => vc = shown user ∧ user.teamId = some teamIdGlobal
  | vc, teamIdGlobal, .completion _ :: raised => Settles user vc teamIdGlobal raised
  | _, _, .value value :: raised => ∃ user' teamId, User.decode value = .ok user' ∧
      user'.teamId = some teamId ∧ Settles user (shown user') teamId raised

section Settles

variable {user user' : User} {vc : ProfileViewController} {teamIdGlobal teamId : String}
  {raised : List DatabaseEvent}

theorem Settles.append_completion (h : Settles user vc teamIdGlobal raised) (failed : Bool) :
    Settles user vc teamIdGlobal (raised ++ [.completion failed]) := by
  induction raised generalizing vc teamIdGlobal with
  | nil => exact h
  | cons e raised ih =>
      cases e with
      | completion _ => exact ih h
      | value value =>
          obtain ⟨user', teamId, hdecode, hteam, hrest⟩ := h
          exact ⟨user', teamId, hdecode, hteam, ih hrest⟩

/-- Whatever the deliveries before it lead to, the last value decides. -/
theorem Settles.append_value (h : Settles user vc teamIdGlobal raised) {value : Value}
    (hdecode : User.decode value = .ok user') (hteam : user'.teamId = some teamId) :
    Settles user' vc teamIdGlobal (raised ++ [.value value]) := by
  induction raised generalizing vc teamIdGlobal with
  | nil => exact ⟨user', teamId, hdecode, hteam, rfl, hteam⟩
  | cons e raised ih =>
      cases e with
      | completion _ => exact ih h
      | value value' =>
          obtain ⟨user'', teamId', hdecode', hteam', hrest⟩ := h
          exact ⟨user'', teamId', hdecode', hteam', ih hrest⟩

/-- **A record that is delivered** replaces the user, the rows and the team. -/
theorem fetchUser_eq_shown {value : Value} (hdecode : User.decode value = .ok user)
    (hteam : user.teamId = some teamId) (vc : ProfileViewController) :
    vc.fetchUser User.decode value = some (shown user, some teamId) := by
  unfold ProfileViewController.fetchUser
  simp only [hdecode, hteam]
  rw [shown, hteam]

end Settles

/-- For a team id that was found, `saveUser` goes on to write. -/
theorem saved_of_hasChild (name : String) {teamId : String} {teams : Node}
    {vc : ProfileViewController} {u : User} (hfound : teams.hasChild teamId = .ok true)
    (huser : vc.user = some u) :
    vc.saved name teamId teams =
      ({ u with name := name, teamId := some teamId } : User).writeWithCompletionBlock.map
        (Submitted.stored { u with name := name, teamId := some teamId }) := by
  unfold ProfileViewController.saved
  rw [hfound, Except.ok_bind, huser]
  dsimp only [Bool.not_true, Bool.false_eq_true, if_false]
  cases User.writeWithCompletionBlock { u with name := name, teamId := some teamId } <;> rfl

section Attempt

variable {uid : String} {root : Node} {u : User} {profile : ProfileViewController}
  {teamIdGlobal name teamId : String} {s s' : ProfileUpdate}

/-- **The invariant**: until the snapshot of `Teams` arrives nothing has happened, and from
then on the events lead to the record with the write that is still on its way. -/
structure Sound (uid : String) (root : Node) (profile : ProfileViewController)
    (teamIdGlobal name teamId : String) (s : ProfileUpdate) : Prop where
  begun : s.asked ≠ none → s = called root profile teamIdGlobal (name, teamId)
  store : s.db.store = root
  pending : (s.db.pending ()).length ≤ 1
  settles : s.asked = none → ∃ v t, User.decode (s.record uid).val = .ok v ∧ v.teamId = some t ∧
    Settles v s.profile s.teamIdGlobal s.raised
  refused : s.asked = none → s.db.pending () = [] →
    .completion true ∈ s.raised ∨ s.alert = some "Update failed"
  failed : ∀ failed, .completion failed ∈ s.raised → failed = true

theorem Sound.called : Sound uid root profile teamIdGlobal name teamId
    (called root profile teamIdGlobal (name, teamId)) where
  begun := fun _ => rfl
  store := rfl
  pending := Nat.zero_le 1
  settles := fun h => nomatch h
  refused := fun h => nomatch h
  failed := fun _ h => absurd h List.not_mem_nil

/-- A value that is raised where the record has changed leads to the new record. -/
theorem Settles.notify {before : Node} {v v' : User} {t : String}
    (h : Settles v s.profile s.teamIdGlobal s.raised) (hbefore : User.decode before.val = .ok v)
    (hdecode : User.decode (s.record uid).val = .ok v') (hteam : v'.teamId = some t) :
    Settles v' s.profile s.teamIdGlobal (s.notify uid before).raised := by
  unfold ProfileUpdate.notify
  dsimp only
  split_ifs with hequal
  · have hsame := User.decode_of_isEqual hequal hteam hdecode
    obtain rfl := Except.ok.inj (hbefore.symm.trans hsame)
    exact h
  · exact h.append_value hdecode hteam

/-- The completion block presents its alert. -/
theorem deliver_completion {failed : Bool} {raised : List DatabaseEvent}
    (hr : s.raised = .completion failed :: raised) : s.step uid .deliver = some { s with
      alert := some (if failed then "Update failed" else "Succesfull update"), raised := raised } := by
  rw [step, hr]

/-- The observer shows the record. -/
theorem deliver_value {value : Value} {raised : List DatabaseEvent}
    (hr : s.raised = .value value :: raised) {user : User} {t : String}
    (hdecode : User.decode value = .ok user) (hteam : user.teamId = some t) :
    s.step uid .deliver = some { s with
      profile := shown user, teamIdGlobal := t, raised := raised } := by
  rw [step, hr]
  dsimp only
  rw [fetchUser_eq_shown hdecode hteam]
  rfl

theorem completion_mem_notify {before : Node} {failed : Bool} :
    .completion failed ∈ (s.notify uid before).raised ↔ .completion failed ∈ s.raised := by
  unfold ProfileUpdate.notify
  dsimp only
  split_ifs <;> simp

/-- The record with the one write on its way is the one that is written. -/
theorem getChild_overlay_issue (uid : String) (root : Node) {node : Node} (hne : node.isEmpty = false) :
    (((Replica.start root).issue () ⟨["Users", uid], node⟩).overlay Write.apply ()
      root).getChild ["Users", uid] = node := by
  have hoverlay : ((Replica.start root).issue () ⟨["Users", uid], node⟩).overlay Write.apply ()
      root = (⟨["Users", uid], node⟩ : Write).apply root := Replica.overlay_issue ..
  rw [hoverlay]
  exact Node.getChild_updateChild ["Users", uid] (Or.inl hne)

/-- The snapshot of `Teams` arrives: the new record is stored in `self.user`, is on its way,
and is raised if it differs from the stored one. -/
theorem Sound.saved (h : Sound uid root profile teamIdGlobal name teamId s)
    (hkey : isValidKey uid = true) (hrecord : User.decode (root.getChild ["Users", uid]).val = .ok u)
    (hid : u.id = uid) (hteam : u.teamId = some teamIdGlobal)
    (hprofile : profile = ⟨some u, some name, some teamId⟩) {teams : Node}
    (hfound : teams.hasChild teamId = .ok true) (hstep : s.step uid (.saved teams) = some s') :
    Sound uid root profile teamIdGlobal name teamId s' := by
  obtain ⟨⟨name', teamId'⟩, hasked, hstep⟩ := Option.bind_eq_some_iff.1 hstep
  have hs := h.begun (by rw [hasked]; exact Option.some_ne_none _)
  subst hs
  obtain ⟨rfl, rfl⟩ := Prod.mk.inj (Option.some.inj hasked)
  have huser : profile.user = some u := by rw [hprofile]
  have hsaved := saved_of_hasChild name hfound huser
  cases hw : ({ u with name := name, teamId := some teamId } : User).writeWithCompletionBlock with
  | error e =>
      rw [hw] at hsaved
      simp only [ProfileUpdate.called, hsaved, Except.map, reduceCtorEq] at hstep
  | ok w =>
      rw [hw] at hsaved
      simp only [ProfileUpdate.called, hsaved, Except.map, Option.some.injEq] at hstep
      subst hstep
      obtain ⟨hpath, hstored⟩ := User.stores_of_writeWithCompletionBlock (hid ▸ hkey) hw
      obtain ⟨path, node⟩ := w
      obtain rfl : path = ["Users", uid] := by rw [← hid]; exact hpath
      have hnode := getChild_overlay_issue uid root hstored.isEmpty
      have hpending : ((Replica.start root).issue () ⟨["Users", uid], node⟩).pending () =
          [(⟨["Users", uid], node⟩ : Write)] := Replica.issue_pending ..
      refine ⟨fun hne => absurd rfl hne, rfl, hpending ▸ le_refl 1, fun _ => ?_,
        fun _ hnil => (nomatch hpending.symm.trans hnil), fun failed hfailed => ?_⟩
      · have hdecode := (congrArg (fun n => User.decode n.val) hnode).trans hstored.decode_val
        refine ⟨_, teamId, hdecode, rfl, ?_⟩
        unfold ProfileUpdate.notify
        dsimp only
        split_ifs with hequal
        · -- nothing is raised, for the record is what it was
          have hsame := User.decode_of_isEqual hequal rfl hdecode
          have hu := Except.ok.inj (hsame.symm.trans hrecord)
          rw [hprofile]
          exact ⟨rfl, hu ▸ hteam⟩
        · exact ⟨_, teamId, hdecode, rfl, rfl, rfl⟩
      · exact absurd (completion_mem_notify.1 hfailed) List.not_mem_nil

theorem Sound.refuse (h : Sound uid root profile teamIdGlobal name teamId s)
    (hrecord : User.decode (root.getChild ["Users", uid]).val = .ok u)
    (hteam : u.teamId = some teamIdGlobal) (hstep : s.step uid .refuse = some s') :
    Sound uid root profile teamIdGlobal name teamId s' := by
  obtain ⟨db, hdb, rfl⟩ := Option.map_eq_some_iff.1 hstep
  obtain ⟨w, ws, hpending, rfl⟩ := Replica.refuse_eq_some.1 hdb
  have hasked : s.asked = none := by
    by_contra hne
    rw [h.begun hne] at hpending
    exact nomatch hpending
  have hws : ws = [] := by
    have hlen := h.pending
    rw [hpending, List.length_cons] at hlen
    exact List.length_eq_zero_iff.1 (by omega)
  subst hws
  obtain ⟨v, t, hv, _, hsettles⟩ := h.settles hasked
  let s₁ : ProfileUpdate := { s with
    db := { s.db with pending := Function.update s.db.pending () [] } }
  have hnil : s₁.db.pending () = [] := Function.update_self () [] s.db.pending
  have hrecord' : User.decode (s₁.record uid).val = .ok u := by
    unfold ProfileUpdate.record Replica.overlay
    rw [hnil]
    exact h.store ▸ hrecord
  have hsettles' := Settles.notify (s := s₁) hsettles hv hrecord' hteam
  refine ⟨fun hne => absurd hasked hne, h.store, hnil ▸ Nat.zero_le 1, fun _ =>
    ⟨u, teamIdGlobal, hrecord', hteam, hsettles'.append_completion true⟩,
    fun _ _ => Or.inl (List.mem_append_right _ List.mem_cons_self), fun failed hfailed => ?_⟩
  rcases List.mem_append.1 hfailed with hfailed | hfailed
  · exact h.failed failed ((completion_mem_notify (s := s₁)).1 hfailed)
  · exact (DatabaseEvent.completion.inj (List.mem_singleton.1 hfailed))

theorem Sound.deliver (h : Sound uid root profile teamIdGlobal name teamId s)
    (hne : s.raised ≠ []) :
    ∃ s', s.step uid .deliver = some s' ∧ Sound uid root profile teamIdGlobal name teamId s' := by
  have hasked : s.asked = none := by
    by_contra hne'
    rw [h.begun hne'] at hne
    exact hne rfl
  obtain ⟨v, t, hv, ht, hsettles⟩ := h.settles hasked
  cases hr : s.raised with
  | nil => exact absurd hr hne
  | cons e raised =>
      rw [hr] at hsettles
      cases e with
      | completion failed =>
          have hfailed := h.failed failed (hr ▸ List.mem_cons_self)
          subst hfailed
          refine ⟨_, deliver_completion hr, fun hne' => absurd hasked hne', h.store, h.pending,
            fun _ => ⟨v, t, hv, ht, hsettles⟩, fun _ _ => Or.inr rfl,
            fun failed hfailed => h.failed failed (hr ▸ List.mem_cons_of_mem _ hfailed)⟩
      | value value =>
          obtain ⟨user, teamId', hdecode, hteam, hrest⟩ := hsettles
          refine ⟨_, deliver_value hr hdecode hteam, fun hne' => absurd hasked hne', h.store, h.pending,
            fun _ => ⟨v, t, hv, ht, hrest⟩,
            fun ha hp => ?_,
            fun failed hfailed => h.failed failed (hr ▸ List.mem_cons_of_mem _ hfailed)⟩
          rcases h.refused ha hp with hmem | halert
          · rw [hr, List.mem_cons] at hmem
            exact Or.inl (hmem.resolve_left fun heq => nomatch heq)
          · exact Or.inr halert

/-- **A refused update leaves no trace.**  The user's record is stored under the user's id
and on the screen, a form with the name and the id of an existing team is submitted, and
the database refuses the write.  Whatever the order of the snapshot of `Teams`, the
refusal and the deliveries, every delivery goes through, and when all of them have, the
user, the rows and `teamIdGlobal` are those of the stored record. -/
theorem refused_update_leaves_no_trace (g : Graphemes) (uid : String)
    (hkey : isValidKey uid = true) (root : Node) (u : User)
    (hrecord : User.decode (root.getChild ["Users", uid]).val = .ok u) (hid : u.id = uid)
    (teamIdGlobal : String) (hteam : u.teamId = some teamIdGlobal)
    (profile : ProfileViewController) (huser : profile.user = some u) (name teamId : String)
    (hform : profile.saveUser g = some (name, teamId)) (as : List UpdateAction)
    (hfound : ∀ teams, .saved teams ∈ as → teams.hasChild teamId = .ok true) (s : ProfileUpdate)
    (hs : Run.exec (step uid) (called root profile teamIdGlobal (name, teamId)) as = some s) :
    (s.raised ≠ [] → ∃ s', s.step uid .deliver = some s') ∧
    (s.asked = none → s.db.pending () = [] → s.raised = [] →
      s.profile = ⟨some u, some u.name, u.teamId⟩ ∧ some s.teamIdGlobal = u.teamId ∧
      s.alert = some "Update failed") := by
  have hprofile : profile = ⟨some u, some name, some teamId⟩ := by
    obtain ⟨hname, _, hteamId, _⟩ := ProfileViewController.saveUser_eq_some_iff.1 hform
    rw [← huser, ← hname, ← hteamId]
  have hfound' : ∀ a ∈ as, ∀ teams, a = .saved teams → teams.hasChild teamId = .ok true := by
    rintro _ ha teams rfl
    exact hfound teams ha
  have hsound : Sound uid root profile teamIdGlobal name teamId s := by
    refine Run.exec_invariant (fun s a s' h ha hstep => ?_) Sound.called
      (Run.guarded_of_forall_mem hfound') hs
    cases a with
    | saved teams => exact h.saved hkey hrecord hid hteam hprofile (ha teams rfl) hstep
    | refuse => exact h.refuse hrecord hteam hstep
    | deliver =>
        have hne : s.raised ≠ [] := fun hnil => by
          rw [step, hnil] at hstep
          exact nomatch hstep
        obtain ⟨s'', hs'', hsound⟩ := h.deliver hne
        obtain rfl := Option.some.inj (hs''.symm.trans hstep)
        exact hsound
  refine ⟨fun hne => ?_, fun hasked hpending hraised => ?_⟩
  · obtain ⟨s', hs', _⟩ := hsound.deliver hne
    exact ⟨s', hs'⟩
  · obtain ⟨v, t, hv, _, hsettles⟩ := hsound.settles hasked
    have hrecord' : User.decode (s.record uid).val = .ok u := by
      unfold ProfileUpdate.record Replica.overlay
      rw [hpending]
      exact hsound.store ▸ hrecord
    obtain rfl := Except.ok.inj (hrecord'.symm.trans hv)
    rw [hraised] at hsettles
    have halert := (hsound.refused hasked hpending).resolve_left (hraised ▸ List.not_mem_nil)
    exact ⟨hsettles.1, hsettles.2.symm, halert⟩

end Attempt

/-- The record of a user with a team. -/
def annsRecord : Node :=
  ((Node.empty.updateChild ["Users", "ann", "id"] (.leaf (.string "ann"))).updateChild
    ["Users", "ann", "name"] (.leaf (.string "Ann"))).updateChild
    ["Users", "ann", "teamId"] (.leaf (.string "T1"))

/-- Ann's profile screen with a new name and another team typed in. -/
def annsForm : ProfileViewController := ⟨some ⟨"ann", "Ann", some "T1"⟩, some "Anna", some "T2"⟩

/-- The new record is refused before it has been shown. -/
def refusedEarly : List UpdateAction :=
  [.saved (Node.empty.updateChild ["T2"] (.leaf (.bool true))), .refuse, .deliver, .deliver, .deliver]

/-- Ann renames herself and changes the team, and the write is refused. -/
theorem refused_update_leaves_no_trace_ann : ∃ s,
    Run.exec (step "ann") (called annsRecord annsForm "T1" ("Anna", "T2")) refusedEarly = some s ∧
      s.profile = ⟨some ⟨"ann", "Ann", some "T1"⟩, some "Ann", some "T1"⟩ ∧
      s.teamIdGlobal = "T1" ∧ s.alert = some "Update failed" := by
  have hrun : ((Run.exec (step "ann") (called annsRecord annsForm "T1" ("Anna", "T2"))
      refusedEarly).map fun s => (s.asked, (s.db.pending ()).length, s.raised.length)) =
        some (none, 0, 0) := by
    decide +kernel
  obtain ⟨s, hs, hend⟩ := Option.map_eq_some_iff.1 hrun
  obtain ⟨hasked, hend⟩ := Prod.mk.inj hend
  obtain ⟨hpending, hraised⟩ := Prod.mk.inj hend
  have hrecord : User.decode (annsRecord.getChild ["Users", "ann"]).val =
      .ok ⟨"ann", "Ann", some "T1"⟩ := by
    have hdecoded : (User.decode (annsRecord.getChild ["Users", "ann"]).val).toOption =
        some ⟨"ann", "Ann", some "T1"⟩ := by decide +kernel
    exact Except.toOption_eq_some.1 hdecoded
  have hfound : (Node.empty.updateChild ["T2"] (.leaf (.bool true))).hasChild "T2" = .ok true := by
    decide +kernel
  have hall : ∀ teams, UpdateAction.saved teams ∈ refusedEarly → teams.hasChild "T2" = .ok true := by
    intro teams hteams
    rcases List.mem_cons.1 hteams with heq | hteams
    · rw [UpdateAction.saved.inj heq]
      exact hfound
    · simp at hteams
  obtain ⟨hprofile, hglobal, halert⟩ := (refused_update_leaves_no_trace .scalars "ann" (by decide)
    annsRecord ⟨"ann", "Ann", some "T1"⟩ hrecord rfl "T1" rfl annsForm rfl "Anna" "T2"
    (by decide +kernel) refusedEarly hall s hs).2 hasked
    (List.length_eq_zero_iff.1 hpending) (List.length_eq_zero_iff.1 hraised)
  exact ⟨s, hs, hprofile, Option.some.inj hglobal, halert⟩

end ProfileUpdate

end Teamstuff
