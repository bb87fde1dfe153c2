/-
# A sign-in and the team of the account

`authUI(_:didSignInWith:error:)` writes a user without a team when it found no
record of the account.  The write takes effect later than the check, and by then
another device of the same account can have joined a team: the write erases it.

`team_kept_iff` says when this does not happen: a run keeps every `teamId`
exactly when no sign-in's write is applied after a write that gave the account a
team and that the check had not seen.
-/

import Teamstuff.System.Accounts

namespace Teamstuff

/-- The record of the account has a `teamId`. -/
def HasTeam (uid : String) (root : Node) : Prop :=
  (root.getChild ["Users", uid, "teamId"]).isEmpty = false

/-- The write puts a user with a team at the account's record, which is the one of every
id that compares the same. -/
def AccountWrite.GivesTeam (uid : String) (w : AccountWrite) : Prop :=
  ∃ u author, w.content = .user u author ∧ compareKey uid u.id = .eq ∧ u.teamId ≠ none

instance AccountWrite.decidableGivesTeam (uid : String) :
    ∀ w : AccountWrite, Decidable (w.GivesTeam uid)
  | ⟨_, .user u author⟩ => decidable_of_iff (compareKey uid u.id = .eq ∧ u.teamId ≠ none)
      ⟨fun h => ⟨u, author, rfl, h⟩, fun ⟨_, _, hcontent, h⟩ => by
        obtain ⟨rfl, rfl⟩ := Content.user.inj hcontent
        exact h⟩
  | ⟨_, .team _⟩ => isFalse fun ⟨_, _, hcontent, _⟩ => nomatch hcontent

namespace AccountsSystem

variable {C : Type*} [DecidableEq C] {g : Graphemes} {uid : String}

/-- Once the account's record had a `teamId`, it has one in every later value of
the database. -/
def KeepsTeam (uid : String) (s : AccountsSystem C) : Prop :=
  s.db.past.Pairwise fun newer older => HasTeam uid older → HasTeam uid newer

/-- A sign-in's write is applied only when no write that gave the account a team
was applied since the value in which the sign-in found no record. -/
def UpToDate (uid : String) (s : AccountsSystem C) : AccountsAction C → Prop
  | .commit c => ∀ w ws u seen, s.db.pending c = w :: ws → w.content = .user u (.signIn seen) →
      compareKey uid u.id = .eq → ∀ v ∈ s.applied.take (s.applied.length - seen), ¬ v.GivesTeam uid
  | _ => True

instance (uid : String) (s : AccountsSystem C) :
    ∀ a : AccountsAction C, Decidable (s.UpToDate uid a)
  | .commit c =>
      match hpending : s.db.pending c with
      | [] => isTrue fun _ _ _ _ h => nomatch hpending.symm.trans h
      | w :: _ =>
          match hcontent : w.content with
          | .user u (.signIn seen) => decidable_of_iff
              (compareKey uid u.id = .eq →
                ∀ v ∈ s.applied.take (s.applied.length - seen), ¬ v.GivesTeam uid)
              ⟨fun h _ _ _ _ hp hc => by
                obtain ⟨rfl, _⟩ := List.cons.inj (hpending.symm.trans hp)
                obtain ⟨rfl, hauthor⟩ := Content.user.inj (hcontent.symm.trans hc)
                obtain rfl := Author.signIn.inj hauthor
                exact h, fun h => h _ _ _ _ hpending hcontent⟩
          | .user _ .join | .user _ .newTeam | .team _ => isTrue fun _ _ _ _ hp hc => by
              obtain ⟨rfl, _⟩ := List.cons.inj (hpending.symm.trans hp)
              exact nomatch hcontent.symm.trans hc
  | .didSignIn .. | .openProfile .. | .submit .. | .saveUser .. | .submitNewTeam .. | .answer ..
  | .fetchUser .. | .refuse .. => isTrue trivial

omit [DecidableEq C] in
/-- A write of the account's record decides whether it has a team. -/
theorem hasTeam_apply (uid : String) {w : AccountWrite} (hw : Written w) (root : Node) :
    (∃ u author, w.content = .user u author ∧ compareKey uid u.id = .eq ∧
      (HasTeam uid (w.apply root) ↔ u.teamId ≠ none)) ∨
    (∀ u author, w.content = .user u author → compareKey uid u.id ≠ .eq) ∧
      (HasTeam uid (w.apply root) ↔ HasTeam uid root) := by
  rcases getChild_users_apply hw root uid with ⟨u, author, hcontent, hid, hstored⟩ | ⟨hne, hsame⟩
  · refine Or.inl ⟨u, author, hcontent, hid, ?_⟩
    have hteam := hstored.getChild_teamId
    rw [← Node.getChild_append] at hteam
    have hpath : HasTeam uid (w.apply root) ↔
        ((w.apply root).getChild (["Users", uid] ++ ["teamId"])).isEmpty = false := Iff.rfl
    rw [hpath, hteam]
    cases u.teamId <;> simp [Node.isEmpty, Node.empty]
  · refine Or.inr ⟨hne, ?_⟩
    rw [HasTeam, hsame ["teamId"], HasTeam]

omit [DecidableEq C] in
/-- Writes that give the account no team leave it without one. -/
theorem not_hasTeam_foldr {ws : List AccountWrite} {root : Node} (hws : ∀ w ∈ ws, Written w)
    (hgives : ∀ w ∈ ws, ¬ w.GivesTeam uid) (hroot : ¬ HasTeam uid root) :
    ¬ HasTeam uid (ws.foldr AccountWrite.apply root) := by
  induction ws with
  | nil => exact hroot
  | cons w ws ih =>
      have ih := ih (fun v hv => hws v (List.mem_cons_of_mem w hv))
        fun v hv => hgives v (List.mem_cons_of_mem w hv)
      rw [List.foldr_cons]
      rcases hasTeam_apply uid (hws w List.mem_cons_self) _ with ⟨u, author, hu, hid, hiff⟩ | ⟨_, hiff⟩
      · exact fun h => hgives w List.mem_cons_self ⟨u, author, hu, hid, hiff.1 h⟩
      · exact fun h => ih (hiff.1 h)

omit [DecidableEq C] in
/-- Queued writes do not take a record away. -/
theorem isEmpty_of_foldl {ws : List AccountWrite} {root : Node} (hws : ∀ w ∈ ws, Written w)
    (h : ((ws.foldl (fun s w => w.apply s) root).getChild ["Users", uid]).isEmpty = true) :
    (root.getChild ["Users", uid]).isEmpty = true := by
  induction ws generalizing root with
  | nil => exact h
  | cons w ws ih =>
      have ih := ih (fun v hv => hws v (List.mem_cons_of_mem w hv)) h
      rcases getChild_users_apply (hws w List.mem_cons_self) root uid with
        ⟨u, _, _, _, hstored⟩ | ⟨_, hsame⟩
      · exact absurd ih (by rw [hstored.isEmpty]; exact Bool.false_ne_true)
      · rwa [hsame []] at ih

/-! ### What the checks have seen -/

/-- The invariant: the values of the database are what the applied writes made of
the first one, and each queued write of a sign-in remembers a value without a
record of the account. -/
structure Checked (root₀ : Node) (s : AccountsSystem C) : Prop where
  sound : Sound s
  replays : s.db.Replays AccountWrite.apply root₀ s.applied
  written : ∀ w ∈ s.applied, Written w
  seen : ∀ c, ∀ w ∈ s.db.pending c, ∀ u seen, w.content = .user u (.signIn seen) →
    seen ≤ s.applied.length ∧
    (((s.applied.drop (s.applied.length - seen)).foldr AccountWrite.apply root₀).getChild
      ["Users", u.id]).isEmpty = true

omit [DecidableEq C] in
theorem Checked.start {root : Node} (h : Registered root) :
    Checked root (start root : AccountsSystem C) where
  sound := .start h
  replays := .start root
  written := fun _ hw => absurd hw List.not_mem_nil
  seen := fun _ _ hw => absurd hw List.not_mem_nil

variable {root₀ : Node} {s s' : AccountsSystem C}

omit [DecidableEq C] in
/-- A sign-in that finds no record remembers a value without one. -/
theorem Checked.issues (h : Checked root₀ s) {c : C} {ws : List AccountWrite} (hws : s.Issues c ws)
    {w : AccountWrite} (hw : w ∈ ws) {u : User} {seen : ℕ}
    (hcontent : w.content = .user u (.signIn seen)) :
    seen ≤ s.applied.length ∧
    (((s.applied.drop (s.applied.length - seen)).foldr AccountWrite.apply root₀).getChild
      ["Users", u.id]).isEmpty = true := by
  cases hws with
  | nothing => exact absurd hw List.not_mem_nil
  | @signIn user _ i n root _ _ _ hview habsent =>
      obtain rfl := List.mem_singleton.1 hw
      obtain ⟨rfl, hauthor⟩ := Content.user.inj hcontent
      obtain rfl := Author.signIn.inj hauthor
      obtain ⟨base, hbase, rfl⟩ := (Replica.view_eq_some AccountWrite.apply).1 hview
      obtain ⟨hi, rfl⟩ := h.replays.past_eq hbase
      refine ⟨Nat.sub_le _ _, ?_⟩
      rw [Nat.sub_sub_self hi]
      exact isEmpty_of_foldl (fun v hv => h.sound.db.pending c v (List.mem_of_mem_take hv)) habsent
  | join =>
      obtain rfl := List.mem_singleton.1 hw
      exact nomatch (Content.user.inj hcontent).2
  | newTeam =>
      rcases List.mem_cons.1 hw with rfl | hw
      · exact nomatch (Content.user.inj hcontent).2
      · obtain rfl := List.mem_singleton.1 hw
        exact nomatch hcontent

/-- **Every step keeps what the checks have seen.** -/
theorem Checked.step (h : Checked root₀ s) {a : AccountsAction C} (hs : s.step g a = some s') :
    Checked root₀ s' := by
  have hsound := h.sound.step hs
  rcases h.sound.step_cases hs with ⟨c, rfl⟩ | ⟨c, rfl⟩ | ⟨c, d, ws, hlocal⟩
  · obtain ⟨w, ws, db, hc, hdb, rfl⟩ := step_commit.1 hs
    refine ⟨hsound, h.replays.commit hc hdb, fun v hv => ?_, fun c' v hv u seen hcontent => ?_⟩
    · rcases List.mem_cons.1 hv with rfl | hv
      · exact h.sound.db.pending c v (hc ▸ List.mem_cons_self)
      · exact h.written v hv
    · obtain ⟨hle, hseen⟩ := h.seen c' v (Replica.mem_pending_of_commit _ hdb hv) u seen hcontent
      have hlength : (w :: s.applied).length - seen = s.applied.length - seen + 1 := by
        rw [List.length_cons]
        omega
      refine ⟨Nat.le_succ_of_le hle, ?_⟩
      rwa [hlength, List.drop_succ_cons]
  · obtain ⟨w, ws, db, hc, hdb, rfl⟩ := step_refuse.1 hs
    exact ⟨hsound, h.replays.refuse hdb, h.written, fun c' v hv =>
      h.seen c' v (Replica.mem_pending_of_refuse hdb hv)⟩
  · have hreplays := h.replays.issueAll c ws
    rw [← hlocal.db, ← hlocal.applied] at hreplays
    refine ⟨hsound, hreplays, hlocal.applied ▸ h.written, fun c' v hv u seen hcontent => ?_⟩
    rw [hlocal.applied]
    rw [hlocal.db, Replica.issueAll_pending] at hv
    split_ifs at hv with he
    · rcases List.mem_append.1 hv with hv | hv
      · exact h.seen c v hv u seen hcontent
      · exact h.issues hlocal.issues hv hcontent
    · exact h.seen c' v hv u seen hcontent

/-! ### The run -/

omit [DecidableEq C] in
/-- Where every team was kept, the present record has one if any earlier had. -/
theorem Checked.hasTeam_store (h : Checked root₀ s) (hkeeps : KeepsTeam uid s) {root : Node}
    (hroot : root ∈ s.db.past) (hteam : HasTeam uid root) : HasTeam uid s.db.store := by
  obtain ⟨past, hpast⟩ := h.replays.past_eq_cons
  rw [KeepsTeam, hpast, List.pairwise_cons] at hkeeps
  rw [hpast] at hroot
  rcases List.mem_cons.1 hroot with rfl | hroot
  · exact hteam
  · exact hkeeps.1 root hroot hteam

omit [DecidableEq C] in
/-- **When a sign-in's write comes in time**: the record still has no team exactly
when none was given since the value the sign-in checked. -/
theorem Checked.not_hasTeam_iff (h : Checked root₀ s) (hkeeps : KeepsTeam uid s) {c : C}
    {w : AccountWrite} (hw : w ∈ s.db.pending c) {u : User} {seen : ℕ}
    (hcontent : w.content = .user u (.signIn seen)) (hid : compareKey uid u.id = .eq) :
    ¬ HasTeam uid s.db.store ↔
      ∀ v ∈ s.applied.take (s.applied.length - seen), ¬ v.GivesTeam uid := by
  constructor
  · intro hno v hv hgives
    obtain ⟨newer, older, happlied⟩ := List.append_of_mem (List.mem_of_mem_take hv)
    have hpast : (v :: older).foldr AccountWrite.apply root₀ ∈ s.db.past :=
      h.replays.mem_past ⟨newer, happlied.symm⟩
    refine hno (h.hasTeam_store hkeeps hpast ?_)
    obtain ⟨u', author, hu', hid', hteam⟩ := hgives
    rcases hasTeam_apply uid (h.written v (List.mem_of_mem_take hv))
      (older.foldr AccountWrite.apply root₀) with ⟨u'', _, hu'', _, hiff⟩ | ⟨hne, _⟩
    · obtain ⟨rfl, _⟩ := Content.user.inj (hu'.symm.trans hu'')
      exact hiff.2 hteam
    · exact absurd hid' (hne u' author hu')
  · intro hgives
    have hseen := (h.seen c w hw u seen hcontent).2
    rw [h.replays.store, ← List.take_append_drop (s.applied.length - seen) s.applied,
      List.foldr_append]
    refine not_hasTeam_foldr (fun v hv => h.written v (List.mem_of_mem_take hv)) hgives ?_
    -- a value without the record is a value without its team
    rw [HasTeam]
    have hpath : ["Users", uid, "teamId"] = ["Users"] ++ uid :: ["teamId"] := rfl
    have hpath' : ["Users"] ++ u.id :: ["teamId"] = ["Users", u.id] ++ ["teamId"] := rfl
    rw [hpath, Node.getChild_congr ["Users"] hid, hpath', Node.getChild_append,
      Node.eq_empty_of_isEmpty hseen, Node.getChild_empty]
    exact Bool.noConfusion

/-- What an applied write must do for the record to keep its team. -/
theorem Checked.keepsTeam_commit (h : Checked root₀ s) (hkeeps : KeepsTeam uid s) {c : C}
    {w : AccountWrite} {ws : List AccountWrite} (hc : s.db.pending c = w :: ws)
    (hs : s.step g (.commit c) = some s') :
    KeepsTeam uid s' ↔ (HasTeam uid s.db.store → HasTeam uid (w.apply s.db.store)) := by
  obtain ⟨_, _, db, _, hdb, rfl⟩ := step_commit.1 hs
  obtain ⟨w', ws', hc', rfl⟩ := (Replica.commit_eq_some AccountWrite.apply).1 hdb
  obtain ⟨rfl, rfl⟩ := List.cons.inj (hc.symm.trans hc')
  obtain ⟨past, hpast⟩ := h.replays.past_eq_cons
  rw [KeepsTeam, List.pairwise_cons]
  constructor
  · rintro ⟨hnew, _⟩
    exact hnew s.db.store (hpast ▸ List.mem_cons_self)
  · intro hnew
    exact ⟨fun root hroot hteam => hnew (h.hasTeam_store hkeeps hroot hteam), hkeeps⟩

omit [DecidableEq C] in
/-- An applied write is up to date exactly when it keeps the team. -/
theorem Checked.upToDate_commit (h : Checked root₀ s) (hkeeps : KeepsTeam uid s) {c : C}
    {w : AccountWrite} {ws : List AccountWrite} (hc : s.db.pending c = w :: ws) :
    UpToDate uid s (.commit c) ↔
      (HasTeam uid s.db.store → HasTeam uid (w.apply s.db.store)) := by
  have hmem : w ∈ s.db.pending c := hc ▸ List.mem_cons_self
  have hw : Written w := h.sound.db.pending c w hmem
  constructor
  · intro hup hteam
    rcases hasTeam_apply uid hw s.db.store with ⟨u, author, hu, hid, hiff⟩ | ⟨_, hiff⟩
    · refine hiff.2 fun hnone => ?_
      rw [Written, hu] at hw
      obtain ⟨seen, rfl⟩ := hw.2.2.1 hnone
      exact (h.not_hasTeam_iff hkeeps hmem hu hid).2 (hup w ws u seen hc hu hid) hteam
    · exact hiff.2 hteam
  · intro hkeep w' ws' u seen hc' hu hid
    obtain ⟨rfl, rfl⟩ := List.cons.inj (hc.symm.trans hc')
    refine (h.not_hasTeam_iff hkeeps hmem hu hid).1 fun hteam => ?_
    rw [Written, hu] at hw
    have hnone : u.teamId = none := hw.2.2.2 ⟨seen, rfl⟩
    rcases hasTeam_apply uid (h.sound.db.pending c w hmem) s.db.store with
      ⟨u', _, hu', _, hiff⟩ | ⟨hne, _⟩
    · obtain ⟨rfl, _⟩ := Content.user.inj (hu.symm.trans hu')
      exact hiff.1 (hkeep hteam) hnone
    · exact hne u _ hu hid

/-- **One step keeps the team exactly when it is up to date.** -/
theorem Checked.upToDate_iff (h : Checked root₀ s) (hkeeps : KeepsTeam uid s)
    (a : AccountsAction C) :
    UpToDate uid s a ↔ ∀ s', s.step g a = some s' → KeepsTeam uid s' := by
  by_cases hcommit : ∃ c, a = .commit c
  · obtain ⟨c, rfl⟩ := hcommit
    cases hc : s.db.pending c with
    | nil =>
        refine ⟨fun _ s' hs => ?_, fun _ w ws _ _ hw => (nomatch hc.symm.trans hw)⟩
        obtain ⟨_, _, _, hc', _⟩ := step_commit.1 hs
        exact nomatch hc.symm.trans hc'
    | cons w ws =>
        obtain ⟨s', hs⟩ : ∃ s', s.step g (.commit c) = some s' :=
          ⟨_, step_commit.2 ⟨w, ws, _, hc, (Replica.commit_eq_some _).2 ⟨w, ws, hc, rfl⟩, rfl⟩⟩
        rw [h.upToDate_commit hkeeps hc]
        exact ⟨fun hkeep s'' hs'' => (h.keepsTeam_commit hkeeps hc hs'').2 hkeep,
          fun hall => (h.keepsTeam_commit hkeeps hc hs).1 (hall s' hs)⟩
  · -- the database does not change
    have hpast : ∀ s', s.step g a = some s' → s'.db.past = s.db.past := by
      intro s' hs
      rcases h.sound.step_cases hs with ⟨c, rfl⟩ | ⟨c, rfl⟩ | ⟨c, d, ws, hlocal⟩
      · exact absurd ⟨c, rfl⟩ hcommit
      · obtain ⟨_, _, db, _, hdb, rfl⟩ := step_refuse.1 hs
        obtain ⟨_, _, _, rfl⟩ := Replica.refuse_eq_some.1 hdb
        rfl
      · rw [hlocal.db, Replica.issueAll_past]
    refine ⟨fun _ s' hs => ?_, fun _ => ?_⟩
    · rw [KeepsTeam, hpast s' hs]
      exact hkeeps
    · cases a with
      | commit c => exact absurd ⟨c, rfl⟩ hcommit
      | _ => trivial

/-- **When signing in erases no team.**  A run keeps every `teamId` the account's
record has had exactly when each sign-in's write is applied with no team given to
the account since the value the sign-in checked. -/
theorem team_kept_iff (g : Graphemes) (root : Node) (h : Registered root) (uid : String)
    (as : List (AccountsAction C)) :
    Run.Always (step g) (KeepsTeam uid) (start root) as ↔
      Run.Guarded (step g) (UpToDate uid) (start root) as :=
  Run.always_iff_guarded (I := Checked root) (Q := fun _ => True)
    (fun _ _ _ _ hs _ hstep _ => hs.step hstep) (fun _ a _ hs hkeeps => hs.upToDate_iff hkeeps a)
    (.start h) (List.pairwise_singleton _ _) fun _ _ => trivial

omit [DecidableEq C] in
theorem registered_empty : Registered .empty := by
  intro uid h
  rw [Node.getChild_empty] at h
  exact nomatch h

/-- Two devices of one account sign in, and a team is made once the writes of both
are applied. -/
def teamAfterSignIns : List (AccountsAction Bool) :=
  [.didSignIn false "ann" "Ann", .didSignIn true "ann" "Ann", .answer false 0 0 0,
    .answer true 0 0 0, .commit false, .commit true, .submitNewTeam false 0 "-LVgeGVQVRBzoQk2dCkT",
    .commit false, .commit false]

/-- The second sign-in is in time, and the team stays. -/
theorem team_kept_iff_teamAfterSignIns :
    ∃ t, Run.exec (step .scalars) (start .empty) teamAfterSignIns = some t ∧
      HasTeam "ann" t.db.store ∧
      Run.Always (step .scalars) (KeepsTeam "ann") (start .empty) teamAfterSignIns := by
  have hrun : (Run.exec (step .scalars) (start .empty) teamAfterSignIns).map
      (fun t => (t.db.store.getChild ["Users", "ann", "teamId"]).isEmpty) = some false := by
    decide +kernel
  obtain ⟨t, ht, hteam⟩ := Option.map_eq_some_iff.1 hrun
  exact ⟨t, ht, hteam, (team_kept_iff .scalars .empty registered_empty "ann" teamAfterSignIns).2
    (by decide +kernel)⟩

/-- Two devices of one account sign in; one of them makes a team before the write
of the other is applied. -/
def lateSignIn : List (AccountsAction Bool) :=
  [.didSignIn false "ann" "Ann", .didSignIn true "ann" "Ann", .answer false 0 0 0,
    .answer true 0 0 0, .commit false, .submitNewTeam false 0 "-LVgeGVQVRBzoQk2dCkT",
    .commit false, .commit false, .commit true]

/-- **An erased team.**  The second device's write replaces the record with the
team by one without. -/
theorem erased_team :
    ∃ t, Run.exec (step .scalars) (start .empty) lateSignIn = some t ∧ ¬ KeepsTeam "ann" t ∧
      ¬ Run.Always (step .scalars) (KeepsTeam "ann") (start .empty) lateSignIn := by
  have hrun : (Run.exec (step .scalars) (start .empty) lateSignIn).map (fun t =>
      t.db.past.map fun root => (root.getChild ["Users", "ann", "teamId"]).isEmpty) =
      some [true, false, false, true, true] := by
    decide +kernel
  obtain ⟨t, ht, hpast⟩ := Option.map_eq_some_iff.1 hrun
  have herased : ¬ KeepsTeam "ann" t := by
    intro hkeeps
    have hbool : (t.db.past.map fun root =>
        (root.getChild ["Users", "ann", "teamId"]).isEmpty).Pairwise
          fun newer older => older = false → newer = false :=
      List.pairwise_map.2 hkeeps
    rw [hpast] at hbool
    exact absurd hbool (by decide)
  exact ⟨t, ht, herased, fun h => herased (Run.always_iff_prefix.1 h lateSignIn [] t
    (List.append_nil _).symm ht)⟩

end AccountsSystem
end Teamstuff
