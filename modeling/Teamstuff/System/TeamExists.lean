/-
# The teams the users are in

`submit` and `saveUser` look a team up before they store its id; `submitNewTeam`
stores the id of a new team first and creates the team with a second write.
Every write takes effect on its own, so there is a value of the database between
the two, and nothing makes sure that the second one follows.

The check finds a team also by another spelling of its key, `-0` for `00`.

`teams_exist_iff` says which runs keep every `teamId` the key of a team: those in
which the user record of a `submitNewTeam` is never applied, nor a record that
joins a team whose own write was refused, nor one with another spelling of a key.
-/

import Teamstuff.System.Accounts

namespace Teamstuff

/-- Every `teamId` of a user record is the key of a team. -/
def Referential (root : Node) : Prop :=
  ∀ uid teamId, root.getChild ["Users", uid, "teamId"] = .leaf (.string teamId) →
    teamId ∈ (root.getChild ["Teams"]).keys

/-- No team id with a `/` is typed in. -/
def AccountsAction.SlashFree {C : Type*} (a : AccountsAction C) : Prop :=
  ∀ teamId, a.teamIdRow = some teamId → '/' ∉ teamId.toList

instance {C : Type*} (a : AccountsAction C) : Decidable a.SlashFree :=
  decidable_of_iff (∀ teamId ∈ a.teamIdRow, '/' ∉ teamId.toList) Iff.rfl

/-- The screen a record is written by. -/
def AccountWrite.author (w : AccountWrite) : Option Author :=
  match w.content with
  | .user _ author => some author
  | .team _ => none

/-- Each record in a queue that joins a team joins a known one or one that is
created before it in the queue, by a key that compares the same. -/
def BackedBy (known : String → Prop) : List AccountWrite → Prop
  | [] => True
  | w :: ws =>
      (∀ user teamId, w.content = .user user .join → user.teamId = some teamId →
        ∃ key, known key ∧ compareKey teamId key = .eq) ∧
      BackedBy (fun teamId => known teamId ∨ w.content = .team teamId) ws

/-- The team of each record of a `submitNewTeam` is created after it in the
queue. -/
def Announced : List AccountWrite → Prop
  | [] => True
  | w :: ws => (∀ user teamId, w.content = .user user .newTeam → user.teamId = some teamId →
      teamId ∈ teamsOf ws) ∧ Announced ws

/-- With more teams known. -/
theorem BackedBy.mono {known known' : String → Prop} {ws : List AccountWrite}
    (h : BackedBy known ws) (hknown : ∀ t, known t → known' t) : BackedBy known' ws := by
  induction ws generalizing known known' with
  | nil => trivial
  | cons w ws ih =>
      refine ⟨fun user t hw ht => ?_, ih h.2 fun t ht => ht.imp_left (hknown t)⟩
      obtain ⟨key, hkey, hsame⟩ := h.1 user t hw ht
      exact ⟨key, hknown key hkey, hsame⟩

/-- First some writes and then others. -/
theorem BackedBy.append {known : String → Prop} {ws vs : List AccountWrite} (h : BackedBy known ws)
    (hvs : BackedBy (fun t => known t ∨ t ∈ teamsOf ws) vs) : BackedBy known (ws ++ vs) := by
  induction ws generalizing known with
  | nil => exact hvs.mono fun t ht => ht.resolve_right (by simp [teamsOf])
  | cons w ws ih =>
      refine ⟨h.1, ih h.2 (hvs.mono fun t ht => ?_)⟩
      rcases ht with ht | ht
      · exact Or.inl (Or.inl ht)
      · rcases mem_teamsOf_cons.1 ht with ht | ht
        · exact Or.inl (Or.inr ht)
        · exact Or.inr ht

/-- First some writes and then others. -/
theorem Announced.append {ws vs : List AccountWrite} (h : Announced ws) (hvs : Announced vs) :
    Announced (ws ++ vs) := by
  induction ws with
  | nil => exact hvs
  | cons w ws ih =>
      refine ⟨fun user t hw ht => ?_, ih h.2⟩
      obtain ⟨v, hv, hcontent⟩ := mem_teamsOf.1 (h.1 user t hw ht)
      exact mem_teamsOf.2 ⟨v, List.mem_append_left vs hv, hcontent⟩

namespace AccountsSystem

variable {C : Type*} [DecidableEq C] {g : Graphemes}

/-- The database does not apply the user record of a `submitNewTeam`, nor a record
that joins a team whose own write it has refused or that spells the key of a team in
another way. -/
def Founded (s : AccountsSystem C) : AccountsAction C → Prop
  | .commit c => ∀ w ws user author, s.db.pending c = w :: ws → w.content = .user user author →
      author ≠ .newTeam ∧
        (author = .join → ∀ teamId, user.teamId = some teamId →
          teamId ∉ teamsOf s.refused ∧ NoOtherSpelling (s.db.store.getChild ["Teams"]) teamId)
  | _ => True

instance (s : AccountsSystem C) : ∀ a : AccountsAction C, Decidable (s.Founded a)
  | .commit c =>
      match hpending : s.db.pending c with
      | [] => isTrue fun _ _ _ _ h => nomatch hpending.symm.trans h
      | w :: _ =>
          match hcontent : w.content with
          | .user user author => decidable_of_iff (author ≠ .newTeam ∧
              (author = .join → ∀ teamId ∈ user.teamId, teamId ∉ teamsOf s.refused ∧
                NoOtherSpelling (s.db.store.getChild ["Teams"]) teamId))
              ⟨fun h _ _ _ _ hp hc => by
                obtain ⟨rfl, _⟩ := List.cons.inj (hpending.symm.trans hp)
                obtain ⟨rfl, rfl⟩ := Content.user.inj (hcontent.symm.trans hc)
                exact h, fun h => h _ _ _ _ hpending hcontent⟩
          | .team _ => isTrue fun _ _ _ _ hp hc => by
              obtain ⟨rfl, _⟩ := List.cons.inj (hpending.symm.trans hp)
              exact nomatch hcontent.symm.trans hc
  | .didSignIn .. | .openProfile .. | .submit .. | .saveUser .. | .submitNewTeam .. | .answer ..
  | .fetchUser .. | .refuse .. => isTrue trivial

/-! ### One write -/

omit [DecidableEq C] in
/-- The teams after a write. -/
theorem mem_teams_apply {w : AccountWrite} (hw : Written w) (root : Node) (teamId : String) :
    teamId ∈ ((w.apply root).getChild ["Teams"]).keys ↔
      w.content = .team teamId ∨ teamId ∈ (root.getChild ["Teams"]).keys := by
  obtain ⟨⟨path, n⟩, content⟩ := w
  cases content with
  | user user author =>
      obtain ⟨_, ⟨hpath, hstored⟩, _⟩ := hw
      obtain rfl : path = ["Users", user.id] := hpath
      have hsame : (root.updateChild ["Users", user.id] n).getChild ["Teams"] =
          root.getChild ["Teams"] :=
        Node.getChild_updateChild_of_ne [] (by decide) [user.id] [] (Or.inl hstored.isEmpty)
      rw [AccountWrite.apply, Write.apply, hsame]
      exact ⟨Or.inr, fun h => h.resolve_left Content.user_ne_team⟩
  | team teamKey =>
      obtain ⟨hkey, hwrite⟩ := hw
      obtain ⟨rfl, rfl⟩ := Write.mk.inj hwrite
      have hbelow : ((⟨["Teams"] ++ [teamKey], .leaf (.bool true)⟩ : Write).apply root).getChild
          ["Teams"] = (root.getChild ["Teams"]).updateChild [teamKey] (.leaf (.bool true)) :=
        Write.getChild_apply ["Teams"] [teamKey] (Or.inl rfl)
      rw [AccountWrite.apply]
      rw [List.singleton_append] at hbelow
      rw [hbelow, Node.mem_keys_updateChild rfl (tryParseStringToInt_of_isPushKey hkey),
        Content.team.injEq, eq_comm]

omit [DecidableEq C] in
/-- The database stays valid. -/
theorem Written.apply_valid {w : AccountWrite} (hw : Written w) {root : Node} (hroot : root.Valid) :
    (w.apply root).Valid := by
  obtain ⟨⟨path, n⟩, content⟩ := w
  cases content with
  | user user author =>
      obtain ⟨hid, ⟨hpath, hstored⟩, _⟩ := hw
      obtain rfl : path = ["Users", user.id] := hpath
      obtain ⟨_, cs, hcs, rfl⟩ := hstored
      refine hroot.updateChild (childrenFrom_valid user.fields hcs) fun key hkey => ?_
      rcases List.mem_cons.1 hkey with rfl | hkey
      · decide
      · exact List.mem_singleton.1 hkey ▸ hid
  | team teamKey =>
      obtain ⟨hteam, hwrite⟩ := hw
      obtain ⟨rfl, rfl⟩ := Write.mk.inj hwrite
      refine hroot.updateChild (.leaf _) fun key hkey => ?_
      rcases List.mem_cons.1 hkey with rfl | hkey
      · decide
      · exact List.mem_singleton.1 hkey ▸ isValidKey_of_isPushKey hteam

omit [DecidableEq C] in
/-- A team is there from the start or is written. -/
theorem mem_teams_foldl {ws : List AccountWrite} (hws : ∀ w ∈ ws, Written w) {root : Node}
    {teamId : String}
    (h : teamId ∈ ((ws.foldl (fun s w => w.apply s) root).getChild ["Teams"]).keys) :
    teamId ∈ (root.getChild ["Teams"]).keys ∨ teamId ∈ teamsOf ws := by
  induction ws generalizing root with
  | nil => exact Or.inl h
  | cons w ws ih =>
      rcases ih (fun v hv => hws v (List.mem_cons_of_mem w hv)) h with h | h
      · rcases (mem_teams_apply (hws w List.mem_cons_self) root teamId).1 h with h | h
        · exact Or.inr (mem_teamsOf_cons.2 (Or.inl h))
        · exact Or.inl h
      · exact Or.inr (mem_teamsOf_cons.2 (Or.inr h))

omit [DecidableEq C] in
/-- **A write keeps the references exactly when the team of the record it puts is
there.** -/
theorem referential_apply {w : AccountWrite} (hw : Written w) {root : Node}
    (hroot : Referential root) :
    Referential (w.apply root) ↔ ∀ user author teamId, w.content = .user user author →
      user.teamId = some teamId → teamId ∈ (root.getChild ["Teams"]).keys := by
  have hteamId : ∀ {u : User} {n : Node} {t : String}, u.StoredAs n →
      (n.getChild ["teamId"] = .leaf (.string t) ↔ u.teamId = some t) := by
    intro u n t hstored
    rw [hstored.getChild_teamId]
    cases u.teamId <;> simp [Node.empty]
  have hpath : ∀ uid, ["Users", uid, "teamId"] = ["Users", uid] ++ ["teamId"] := fun _ => rfl
  constructor
  · intro h user author teamId hcontent hteam
    rcases getChild_users_apply hw root user.id with ⟨u, _, hu, _, hstored⟩ | ⟨hne, _⟩
    · obtain ⟨rfl, _⟩ := Content.user.inj (hcontent.symm.trans hu)
      have hmem := h user.id teamId (by
        rw [hpath, Node.getChild_append]
        exact (hteamId hstored).2 hteam)
      rcases (mem_teams_apply hw root teamId).1 hmem with hcontent' | hmem
      · exact absurd (hcontent.symm.trans hcontent') Content.user_ne_team
      · exact hmem
    · exact absurd Std.ReflCmp.compare_self (hne user author hcontent)
  · intro h uid teamId hleaf
    refine (mem_teams_apply hw root teamId).2 (Or.inr ?_)
    rcases getChild_users_apply hw root uid with ⟨u, author, hu, _, hstored⟩ | ⟨_, hsame⟩
    · rw [hpath, Node.getChild_append] at hleaf
      exact h u author teamId hu ((hteamId hstored).1 hleaf)
    · rw [hsame ["teamId"]] at hleaf
      exact hroot uid teamId hleaf

/-! ### The invariant -/

/-- The keys `childByAutoId` has made up are each used for one team. -/
structure Distinct (s : AccountsSystem C) : Prop where
  nodup : ∀ c, (teamsOf (s.db.pending c)).Nodup
  one : ∀ c d t, t ∈ teamsOf (s.db.pending c) → t ∈ teamsOf (s.db.pending d) → c = d
  absent : ∀ c, ∀ t ∈ teamsOf (s.db.pending c),
    t ∉ (s.db.store.getChild ["Teams"]).keys ∧ t ∉ teamsOf s.refused
  refused : ∀ t ∈ teamsOf s.refused, t ∉ (s.db.store.getChild ["Teams"]).keys
  made : ∀ t, ((∃ c, t ∈ teamsOf (s.db.pending c)) ∨ t ∈ teamsOf s.refused) → t ∈ s.teamKeys

/-- **The invariant**: no team goes away, the queued records join teams that exist,
were refused or come before them, and announce those that come after them. -/
structure Consistent (s : AccountsSystem C) : Prop where
  sound : Sound s
  valid : s.db.store.Valid
  refused : ∀ t ∈ teamsOf s.refused, isPushKey t = true
  asked : ∀ c, ∀ r ∈ (s.device c).requests, ∀ t, r.teamId = some t → '/' ∉ t.toList
  kept : ∀ root ∈ s.db.past, ∀ t ∈ (root.getChild ["Teams"]).keys,
    t ∈ (s.db.store.getChild ["Teams"]).keys
  backed : ∀ c, BackedBy (fun t => t ∈ (s.db.store.getChild ["Teams"]).keys ∨ t ∈ teamsOf s.refused)
    (s.db.pending c)
  announced : ∀ c, Announced (s.db.pending c)
  distinct : Distinct s

variable {s s' : AccountsSystem C}

section Head

variable (h : Distinct s) {c : C} {w : AccountWrite} {ws : List AccountWrite}
  (hc : s.db.pending c = w :: ws)

include h hc

/-- The team of the head of a queue is created nowhere else. -/
theorem Distinct.ne_head {d : C} {t : String}
    (ht : t ∈ teamsOf (Function.update s.db.pending c ws d)) :
    w.content ≠ .team t ∧ t ∈ teamsOf (s.db.pending d) := by
  have hhead : w.content = .team t → t ∈ teamsOf (s.db.pending c) := fun hw =>
    hc ▸ mem_teamsOf_cons.2 (Or.inl hw)
  rw [Function.update_apply] at ht
  split_ifs at ht with hd
  · subst hd
    refine ⟨fun hw => ?_, hc ▸ mem_teamsOf_cons.2 (Or.inr ht)⟩
    have hnodup := h.nodup d
    have hcons : teamsOf (w :: ws) = t :: teamsOf ws := by simp only [teamsOf, List.filterMap_cons, hw]
    rw [hc, hcons, List.nodup_cons] at hnodup
    exact hnodup.1 ht
  · exact ⟨fun hw => hd (h.one c d t (hhead hw) ht).symm, ht⟩

/-- Taking the head off a queue leaves the keys distinct. -/
theorem Distinct.tail :
    (∀ d, (teamsOf (Function.update s.db.pending c ws d)).Nodup) ∧
    ∀ d e t, t ∈ teamsOf (Function.update s.db.pending c ws d) →
      t ∈ teamsOf (Function.update s.db.pending c ws e) → d = e := by
  refine ⟨fun d => ?_, fun d e t hd he => h.one d e t (h.ne_head hc hd).2 (h.ne_head hc he).2⟩
  rw [Function.update_apply]
  split_ifs with hd
  · have hnodup := h.nodup c
    rw [hc] at hnodup
    exact hnodup.sublist ((List.sublist_cons_self w ws).filterMap _)
  · exact h.nodup d

/-- A write is applied. -/
theorem Distinct.commit (hw : Written w) {db : Replica C Node AccountWrite}
    (hdb : s.db.commit AccountWrite.apply c = some db) :
    Distinct { s with db := db, applied := w :: s.applied } := by
  obtain ⟨w', ws', hc', rfl⟩ := (Replica.commit_eq_some AccountWrite.apply).1 hdb
  obtain ⟨rfl, rfl⟩ := List.cons.inj (hc.symm.trans hc')
  obtain ⟨hnodup, hone⟩ := h.tail hc
  refine ⟨hnodup, hone, fun d t ht => ?_, fun t ht hmem => ?_, fun t ht => ?_⟩
  · obtain ⟨hne, ht⟩ := h.ne_head hc ht
    refine ⟨fun hmem => ?_, (h.absent d t ht).2⟩
    exact ((mem_teams_apply hw _ t).1 hmem).elim hne (h.absent d t ht).1
  · rcases (mem_teams_apply hw _ t).1 hmem with hcontent | hmem
    · exact (h.absent c t (hc ▸ mem_teamsOf_cons.2 (Or.inl hcontent))).2 ht
    · exact h.refused t ht hmem
  · exact h.made t (ht.imp_left fun ⟨d, hd⟩ => ⟨d, (h.ne_head hc hd).2⟩)

/-- A write is refused. -/
theorem Distinct.refuse {db : Replica C Node AccountWrite} (hdb : s.db.refuse c = some db) :
    Distinct { s with db := db, refused := w :: s.refused } := by
  obtain ⟨w', ws', hc', rfl⟩ := Replica.refuse_eq_some.1 hdb
  obtain ⟨rfl, rfl⟩ := List.cons.inj (hc.symm.trans hc')
  obtain ⟨hnodup, hone⟩ := h.tail hc
  have hhead : ∀ t, w.content = .team t → t ∈ teamsOf (s.db.pending c) := fun t ht =>
    hc ▸ mem_teamsOf_cons.2 (Or.inl ht)
  refine ⟨hnodup, hone, fun d t ht => ?_, fun t ht => ?_, fun t ht => ?_⟩
  · obtain ⟨hne, ht⟩ := h.ne_head hc ht
    refine ⟨(h.absent d t ht).1, fun hmem => ?_⟩
    exact (mem_teamsOf_cons.1 hmem).elim hne (h.absent d t ht).2
  · rcases mem_teamsOf_cons.1 ht with ht | ht
    · exact (h.absent c t (hhead t ht)).1
    · exact h.refused t ht
  · rcases ht with ⟨d, hd⟩ | ht
    · exact h.made t (Or.inl ⟨d, (h.ne_head hc hd).2⟩)
    · exact h.made t ((mem_teamsOf_cons.1 ht).imp_left fun ht => ⟨c, hhead t ht⟩)

end Head

omit [DecidableEq C] in
/-- The writes of one step create at most one team, under a new key. -/
theorem Issues.teams {c : C} {ws : List AccountWrite} (h : s.Issues c ws) :
    teamsOf ws = [] ∨ ∃ t, teamsOf ws = [t] ∧ t ∉ s.teamKeys ∧
      t ∉ (s.db.store.getChild ["Teams"]).keys := by
  cases h with
  | nothing | signIn | join => exact Or.inl rfl
  | newTeam _ _ _ _ hnew habsent => exact Or.inr ⟨_, rfl, hnew, habsent⟩

/-- One device issues writes. -/
theorem Distinct.of_local {asks : Request → Prop} {c : C} {d : Device} {ws : List AccountWrite}
    (h : Distinct s) (hlocal : Local s asks s' c d ws) : Distinct s' := by
  have hpending : ∀ e t, t ∈ teamsOf (s'.db.pending e) ↔
      t ∈ teamsOf (s.db.pending e) ∨ e = c ∧ t ∈ teamsOf ws := by
    intro e t
    rw [hlocal.db, Replica.issueAll_pending]
    by_cases he : e = c
    · rw [if_pos he, teamsOf_append, List.mem_append, he]
      simp only [true_and]
    · rw [if_neg he]
      simp only [he, false_and, or_false]
  have hstore : s'.db.store = s.db.store := hlocal.db ▸ Replica.issueAll_store c ws s.db
  -- a key made up in this step is in no queue, not refused and no team
  have hnew : ∀ t ∈ teamsOf ws, (∀ e, t ∉ teamsOf (s.db.pending e)) ∧ t ∉ teamsOf s.refused ∧
      t ∉ (s.db.store.getChild ["Teams"]).keys := by
    intro t ht
    rcases hlocal.issues.teams with hnil | ⟨key, hkey, hunused, habsent⟩
    · rw [hnil] at ht
      exact absurd ht List.not_mem_nil
    · rw [hkey] at ht
      obtain rfl := List.mem_singleton.1 ht
      exact ⟨fun e he => hunused (h.made t (Or.inl ⟨e, he⟩)),
        fun he => hunused (h.made t (Or.inr he)), habsent⟩
  refine ⟨fun e => ?_, fun e f t he hf => ?_, fun e t ht => ?_, ?_, fun t ht => ?_⟩
  · rw [hlocal.db, Replica.issueAll_pending]
    split_ifs with he
    · rw [teamsOf_append]
      refine List.Nodup.append (h.nodup c) ?_ fun t ht htws => (hnew t htws).1 c ht
      rcases hlocal.issues.teams with hnil | ⟨key, hkey, _⟩
      · exact hnil ▸ List.nodup_nil
      · exact hkey ▸ List.nodup_singleton key
    · exact h.nodup e
  · rcases (hpending e t).1 he with he | ⟨rfl, he⟩ <;>
      rcases (hpending f t).1 hf with hf | ⟨rfl, hf⟩
    · exact h.one e f t he hf
    · exact absurd he ((hnew t hf).1 e)
    · exact absurd hf ((hnew t he).1 f)
    · rfl
  · rw [hstore, hlocal.refused]
    rcases (hpending e t).1 ht with ht | ⟨_, ht⟩
    · exact h.absent e t ht
    · exact ⟨(hnew t ht).2.2, (hnew t ht).2.1⟩
  · rw [hstore, hlocal.refused]
    exact h.refused
  · rw [hlocal.teamKeys, List.mem_append]
    rw [hlocal.refused] at ht
    rcases ht with ⟨e, he⟩ | ht
    · rcases (hpending e t).1 he with he | ⟨_, he⟩
      · exact Or.inr (h.made t (Or.inl ⟨e, he⟩))
      · exact Or.inl he
    · exact Or.inr (h.made t (Or.inr ht))

omit [DecidableEq C] in
/-- At the start nobody has written anything. -/
theorem Consistent.start {root : Node} (hvalid : root.Valid) (h : Registered root) :
    Consistent (start root : AccountsSystem C) where
  sound := .start h
  valid := hvalid
  refused := fun _ ht => absurd ht List.not_mem_nil
  asked := fun _ _ hr => absurd hr List.not_mem_nil
  kept := fun _ hroot _ ht => List.mem_singleton.1 hroot ▸ ht
  backed := fun _ => trivial
  announced := fun _ => trivial
  distinct :=
    { nodup := fun _ => List.nodup_nil
      one := fun _ _ _ ht => absurd ht List.not_mem_nil
      absent := fun _ _ ht => absurd ht List.not_mem_nil
      refused := fun _ ht => absurd ht List.not_mem_nil
      made := fun _ ht => ht.elim (fun ⟨_, h⟩ => absurd h List.not_mem_nil)
        fun h => absurd h List.not_mem_nil }

omit [DecidableEq C] in
/-- A record that joins a team joins one of the snapshot: it is in the database, or
its write is queued before the record. -/
theorem Consistent.issues (h : Consistent s) {c : C} {ws : List AccountWrite}
    (hws : s.Issues c ws) :
    BackedBy (fun t => (t ∈ (s.db.store.getChild ["Teams"]).keys ∨ t ∈ teamsOf s.refused) ∨
      t ∈ teamsOf (s.db.pending c)) ws ∧ Announced ws := by
  cases hws with
  | nothing => exact ⟨trivial, trivial⟩
  | signIn =>
      exact ⟨⟨fun _ _ he => (nomatch (Content.user.inj he).2), trivial⟩,
        fun _ _ he => (nomatch (Content.user.inj he).2), trivial⟩
  | newTeam _ _ hteam =>
      refine ⟨⟨fun _ _ he => (nomatch (Content.user.inj he).2), fun _ _ he => (nomatch he), trivial⟩,
        fun u t he ht => ?_, fun _ _ he => (nomatch he), trivial⟩
      obtain ⟨rfl, _⟩ := Content.user.inj he
      obtain rfl := Option.some.inj (hteam.symm.trans ht)
      exact mem_teamsOf_cons.2 (Or.inl rfl)
  | @join user w i n root teamId _ _ hteam hview hfound hasked =>
      refine ⟨⟨fun u t he ht => ?_, trivial⟩, fun _ _ he => (nomatch (Content.user.inj he).2), trivial⟩
      obtain ⟨rfl, _⟩ := Content.user.inj he
      obtain rfl := Option.some.inj (hteam.symm.trans ht)
      obtain ⟨r, hr, hid⟩ := hasked
      obtain ⟨key, hmem, hsame⟩ := exists_key_of_hasChild hfound (h.asked c r hr teamId hid)
      refine ⟨key, ?_, hsame⟩
      obtain ⟨base, hbase, rfl⟩ := (Replica.view_eq_some AccountWrite.apply).1 hview
      have hwritten : ∀ v ∈ (s.db.pending c).take n, Written v := fun v hv =>
        h.sound.db.pending c v (List.mem_of_mem_take hv)
      rcases mem_teams_foldl hwritten hmem with hmem | hmem
      · exact Or.inl (Or.inl (h.kept base (List.mem_of_getElem? hbase) key hmem))
      · obtain ⟨v, hv, hcontent⟩ := mem_teamsOf.1 hmem
        exact Or.inr (mem_teamsOf.2 ⟨v, List.mem_of_mem_take hv, hcontent⟩)

/-- A write less is on its way. -/
theorem Consistent.announced_tail (h : Consistent s) {c : C} {w : AccountWrite}
    {ws : List AccountWrite} (hc : s.db.pending c = w :: ws) (e : C) :
    Announced (Function.update s.db.pending c ws e) := by
  rw [Function.update_apply]
  split_ifs
  · have hannounced := h.announced c
    rw [hc] at hannounced
    exact hannounced.2
  · exact h.announced e

/-- **Every step keeps the invariant**, as long as no team id with a `/` is typed
in. -/
theorem Consistent.step (h : Consistent s) {a : AccountsAction C} (ha : a.SlashFree)
    (hs : s.step g a = some s') : Consistent s' := by
  have hsound := h.sound.step hs
  rcases h.sound.step_cases hs with ⟨c, rfl⟩ | ⟨c, rfl⟩ | ⟨c, d, ws, hlocal⟩
  · obtain ⟨w, ws, db, hc, hdb, rfl⟩ := step_commit.1 hs
    have hw : Written w := h.sound.db.pending c w (hc ▸ List.mem_cons_self)
    have hdistinct := h.distinct.commit hc hw hdb
    obtain ⟨w', ws', hc', rfl⟩ := (Replica.commit_eq_some AccountWrite.apply).1 hdb
    obtain ⟨rfl, rfl⟩ := List.cons.inj (hc.symm.trans hc')
    have hmem : ∀ t, t ∈ ((w.apply s.db.store).getChild ["Teams"]).keys ↔
        w.content = .team t ∨ t ∈ (s.db.store.getChild ["Teams"]).keys := mem_teams_apply hw _
    refine ⟨hsound, hw.apply_valid h.valid, h.refused, h.asked, fun root hroot t ht => ?_,
      fun e => ?_, fun e => ?_, hdistinct⟩
    · rcases List.mem_cons.1 hroot with rfl | hroot
      · exact ht
      · exact (hmem t).2 (Or.inr (h.kept root hroot t ht))
    · by_cases he : e = c
      · have hbacked := h.backed c
        rw [hc] at hbacked
        simp only [he, Function.update_self]
        refine hbacked.2.mono fun t ht => ?_
        rcases ht with (ht | ht) | ht
        · exact Or.inl ((hmem t).2 (Or.inr ht))
        · exact Or.inr ht
        · exact Or.inl ((hmem t).2 (Or.inl ht))
      · simp only [Function.update_of_ne he]
        exact (h.backed e).mono fun t ht => ht.imp_left fun ht => (hmem t).2 (Or.inr ht)
    · exact h.announced_tail hc e
  · obtain ⟨w, ws, db, hc, hdb, rfl⟩ := step_refuse.1 hs
    have hw : Written w := h.sound.db.pending c w (hc ▸ List.mem_cons_self)
    have hdistinct := h.distinct.refuse hc hdb
    obtain ⟨w', ws', hc', rfl⟩ := Replica.refuse_eq_some.1 hdb
    obtain ⟨rfl, rfl⟩ := List.cons.inj (hc.symm.trans hc')
    refine ⟨hsound, h.valid, fun t ht => ?_, h.asked, h.kept, fun e => ?_, fun e => ?_, hdistinct⟩
    · rcases mem_teamsOf_cons.1 ht with hcontent | ht
      · rw [Written, hcontent] at hw
        exact hw.1
      · exact h.refused t ht
    · by_cases he : e = c
      · have hbacked := h.backed c
        rw [hc] at hbacked
        simp only [he, Function.update_self]
        refine hbacked.2.mono fun t ht => ?_
        rcases ht with (ht | ht) | ht
        · exact Or.inl ht
        · exact Or.inr (mem_teamsOf_cons.2 (Or.inr ht))
        · exact Or.inr (mem_teamsOf_cons.2 (Or.inl ht))
      · simp only [Function.update_of_ne he]
        exact (h.backed e).mono fun t ht => ht.imp_right fun ht => mem_teamsOf_cons.2 (Or.inr ht)
    · exact h.announced_tail hc e
  · have hstore : s'.db.store = s.db.store := hlocal.db ▸ Replica.issueAll_store c ws s.db
    have hpast : s'.db.past = s.db.past := hlocal.db ▸ Replica.issueAll_past c ws s.db
    obtain ⟨hbacked, hannounced⟩ := h.issues hlocal.issues
    refine ⟨hsound, hstore ▸ h.valid, hlocal.refused ▸ h.refused, fun e r hr t ht => ?_, ?_,
      fun e => ?_, fun e => ?_, h.distinct.of_local hlocal⟩
    · rw [hlocal.device, Function.update_apply] at hr
      split_ifs at hr with he
      · rcases hlocal.request r hr with hr | hr
        · exact h.asked c r hr t ht
        · exact ha t (hr.teamId ht)
      · exact h.asked e r hr t ht
    · rw [hpast, hstore]
      exact h.kept
    · rw [hstore, hlocal.refused, hlocal.db, Replica.issueAll_pending]
      split_ifs with he
      · exact (h.backed c).append hbacked
      · exact h.backed e
    · rw [hlocal.db, Replica.issueAll_pending]
      split_ifs with he
      · exact (h.announced c).append hannounced
      · exact h.announced e

/-! ### The run -/

omit [DecidableEq C] in
/-- **An applied write keeps the references exactly when it is founded.** -/
theorem Consistent.founded_commit (h : Consistent s) (hstore : Referential s.db.store) {c : C}
    {w : AccountWrite} {ws : List AccountWrite} (hc : s.db.pending c = w :: ws) :
    Founded s (.commit c) ↔ Referential (w.apply s.db.store) := by
  have hw : Written w := h.sound.db.pending c w (hc ▸ List.mem_cons_self)
  have hauthor : ∀ {u author}, w.content = .user u author →
      (u.teamId = none ↔ ∃ seen, author = .signIn seen) := by
    intro u author hu
    rw [Written, hu] at hw
    exact hw.2.2
  rw [referential_apply hw hstore]
  constructor
  · intro hfounded u author t hu ht
    obtain ⟨hnew, hjoin⟩ := hfounded w ws u author hc hu
    cases author with
    | newTeam => exact absurd rfl hnew
    | signIn seen =>
        exact absurd (ht.symm.trans ((hauthor hu).2 ⟨seen, rfl⟩)) (Option.some_ne_none t)
    | join =>
        have hbacked := h.backed c
        rw [hc] at hbacked
        obtain ⟨hnotRefused, hother⟩ := hjoin rfl t ht
        obtain ⟨key, hkey | hkey, hsame⟩ := hbacked.1 u t hu ht
        · exact hother key hkey hsame ▸ hkey
        · -- the key of a refused team has no other spelling
          have hnone := tryParseStringToInt_of_isPushKey (h.refused key hkey)
          have hsame := (compareKey_eq_eq_iff_of_none hnone).1 (Std.OrientedCmp.eq_symm hsame)
          exact absurd (hsame ▸ hkey) hnotRefused
  · intro hteams w' ws' u author hc' hu
    obtain ⟨rfl, rfl⟩ := List.cons.inj (hc.symm.trans hc')
    refine ⟨?_, fun _ t ht => ?_⟩
    swap
    · have hmem := hteams u author t hu ht
      refine ⟨fun hrefused => h.distinct.refused t hrefused hmem, ?_⟩
      have hteamsValid : (s.db.store.getChild ["Teams"]).Valid := h.valid.getChild ["Teams"]
      exact noOtherSpelling_of_mem hteamsValid hmem
    rintro rfl
    -- the team comes later in the queue, so it is not there yet
    cases ht : u.teamId with
    | none =>
        obtain ⟨_, he⟩ := (hauthor hu).1 ht
        exact Author.noConfusion he
    | some t =>
        have hannounced := h.announced c
        rw [hc] at hannounced
        have hmem : t ∈ teamsOf (s.db.pending c) :=
          hc ▸ mem_teamsOf_cons.2 (Or.inr (hannounced.1 u t hu ht))
        exact (h.distinct.absent c t hmem).1 (hteams u _ t hu ht)

/-- A step is founded if no user is left without a team. -/
theorem Consistent.founded_iff (h : Consistent s) (hstore : Referential s.db.store)
    (a : AccountsAction C) :
    Founded s a ↔ ∀ s', s.step g a = some s' → Referential s'.db.store := by
  by_cases hcommit : ∃ c, a = .commit c
  · obtain ⟨c, rfl⟩ := hcommit
    cases hc : s.db.pending c with
    | nil =>
        refine ⟨fun _ s' hs => ?_, fun _ w ws _ _ hw => (nomatch hc.symm.trans hw)⟩
        obtain ⟨_, _, _, hc', _⟩ := step_commit.1 hs
        exact nomatch hc.symm.trans hc'
    | cons w ws =>
        have hnext : ∀ s', s.step g (.commit c) = some s' → s'.db.store = w.apply s.db.store := by
          intro s' hs
          obtain ⟨_, _, db, _, hdb, rfl⟩ := step_commit.1 hs
          obtain ⟨w', ws', hc', rfl⟩ := (Replica.commit_eq_some AccountWrite.apply).1 hdb
          obtain ⟨rfl, rfl⟩ := List.cons.inj (hc.symm.trans hc')
          rfl
        rw [h.founded_commit hstore hc]
        refine ⟨fun hkeep s' hs => hnext s' hs ▸ hkeep, fun hall => ?_⟩
        exact hall _ (step_commit.2
          ⟨w, ws, _, hc, (Replica.commit_eq_some _).2 ⟨w, ws, hc, rfl⟩, rfl⟩)
  · -- the database does not change
    have hsame : ∀ s', s.step g a = some s' → s'.db.store = s.db.store := by
      intro s' hs
      rcases h.sound.step_cases hs with ⟨c, rfl⟩ | ⟨c, rfl⟩ | ⟨c, d, ws, hlocal⟩
      · exact absurd ⟨c, rfl⟩ hcommit
      · obtain ⟨_, _, db, _, hdb, rfl⟩ := step_refuse.1 hs
        obtain ⟨_, _, _, rfl⟩ := Replica.refuse_eq_some.1 hdb
        rfl
      · rw [hlocal.db, Replica.issueAll_store]
    refine ⟨fun _ s' hs => hsame s' hs ▸ hstore, fun _ => ?_⟩
    cases a with
    | commit c => exact absurd ⟨c, rfl⟩ hcommit
    | _ => trivial

/-- **When every user is in a team that exists.**  In a run in which no team id with
a `/` is typed in, every `teamId` is the key of a team in every value of the
database exactly when no user record of a `submitNewTeam` is applied, and no record that
joins a team whose own write was refused or that spells the key of a team in another
way. -/
theorem teams_exist_iff (g : Graphemes) (root : Node) (hvalid : root.Valid) (h : Registered root)
    (hteams : Referential root) (as : List (AccountsAction C)) (hslash : ∀ a ∈ as, a.SlashFree) :
    Run.Always (step g) (fun s => Referential s.db.store) (start root) as ↔
      Run.Guarded (step g) Founded (start root) as :=
  Run.always_iff_guarded (I := Consistent) (fun _ _ _ ha hs _ hstep _ => hs.step ha hstep)
    (fun _ a _ hs hstore => hs.founded_iff hstore a) (.start hvalid h) hteams hslash

/-- A database with one team and no user. -/
def teamAt (teamId : String) : Node := (⟨["Teams", teamId], .leaf (.bool true)⟩ : Write).apply .empty

section TeamAt

variable (teamId : String)

/-- There is no user in it. -/
theorem teamAt_no_users (uid : String) (rest : FPath) :
    (teamAt teamId).getChild ("Users" :: uid :: rest) = .empty := by
  have hother := Node.getChild_updateChild_of_ne (n := .empty) (m := .leaf (.bool true)) []
    (a := "Teams") (b := "Users") (by decide) [teamId] (uid :: rest) (Or.inl rfl)
  exact hother.trans (Node.getChild_empty _)

/-- No user in it is under another id. -/
theorem teamAt_registered : Registered (teamAt teamId) := by
  intro uid h
  rw [teamAt_no_users] at h
  exact nomatch h

/-- No user in it is without a team. -/
theorem teamAt_referential : Referential (teamAt teamId) := by
  intro uid teamId h
  rw [teamAt_no_users] at h
  exact nomatch h

end TeamAt

/-- Two new users join the team `T1`. -/
def bothJoin : List (AccountsAction Bool) :=
  [.didSignIn false "ann" "Ann", .didSignIn true "bob" "Bob", .answer false 0 0 0,
    .answer true 0 0 0, .submit false 0 (some "T1"), .submit true 0 (some "T1"), .answer false 0 0 1,
    .answer true 0 0 1, .commit false, .commit true, .commit false, .commit true]

/-- Joining a team that exists is founded. -/
theorem teams_exist_iff_bothJoin :
    ∃ t, Run.exec (step .scalars) (start (teamAt "T1")) bothJoin = some t ∧
      t.db.store.getChild ["Users", "ann", "teamId"] = .leaf (.string "T1") ∧
      t.db.store.getChild ["Users", "bob", "teamId"] = .leaf (.string "T1") ∧
      Run.Always (step .scalars) (fun s => Referential s.db.store) (start (teamAt "T1")) bothJoin := by
  have hrun : (Run.exec (step .scalars) (start (teamAt "T1")) bothJoin).map (fun t =>
      ((t.db.store.getChild ["Users", "ann", "teamId"]).string?,
        (t.db.store.getChild ["Users", "bob", "teamId"]).string?)) = some (some "T1", some "T1") := by
    decide +kernel
  obtain ⟨t, ht, heq⟩ := Option.map_eq_some_iff.1 hrun
  obtain ⟨hann, hbob⟩ := Prod.mk.inj heq
  exact ⟨t, ht, Node.string?_eq_some.1 hann, Node.string?_eq_some.1 hbob,
    (teams_exist_iff .scalars (teamAt "T1") (Node.WFIn.empty.updateChild (.leaf _) (by decide))
      (teamAt_registered _) (teamAt_referential _) bothJoin (by decide)).2 (by decide +kernel)⟩

/-- A new user makes a team, and the database has applied the first of the two
writes. -/
def annsNewTeam : List (AccountsAction Unit) :=
  [.didSignIn () "ann" "Ann", .answer () 0 0 0, .commit (),
    .submitNewTeam () 0 "-LVgeGVQVRBzoQk2dCkT", .commit ()]

/-- A new user joins a team whose id is typed in. -/
def annJoins (teamId : String) : List (AccountsAction Unit) :=
  [.didSignIn () "ann" "Ann", .answer () 0 0 0, .commit (), .submit () 0 (some teamId),
    .answer () 0 0 0, .commit ()]

/-- A run that ends with Ann in a team that is no key of `Teams`. -/
theorem not_always_referential {as : List (AccountsAction Unit)} {root : Node} (teamId : String)
    (keys : List String) (hrun : (Run.exec (step .scalars) (start root) as).map (fun t =>
      ((t.db.store.getChild ["Users", "ann", "teamId"]).string?,
        (t.db.store.getChild ["Teams"]).keys)) = some (some teamId, keys)) (hkey : teamId ∉ keys) :
    ¬ Run.Always (step .scalars) (fun s => Referential s.db.store) (start root) as := by
  obtain ⟨t, ht, heq⟩ := Option.map_eq_some_iff.1 hrun
  obtain ⟨hann, hteams⟩ := Prod.mk.inj heq
  intro h
  have hstore := Run.always_iff_prefix.1 h as [] t (List.append_nil _).symm ht
  exact hkey (hteams ▸ hstore "ann" _ (Node.string?_eq_some.1 hann))

/-- **A user in a team that does not exist**: in an empty database, and where the key of
the only team is `00` and `-0` is typed in. -/
theorem team_missing :
    (Node.empty.Valid ∧ Registered .empty ∧ Referential .empty ∧ (∀ a ∈ annsNewTeam, a.SlashFree) ∧
      ¬ Run.Always (step .scalars) (fun s => Referential s.db.store) (start .empty) annsNewTeam) ∧
    (teamAt "00").Valid ∧ Registered (teamAt "00") ∧ Referential (teamAt "00") ∧
      (∀ a ∈ annJoins "-0", a.SlashFree) ∧
      ¬ Run.Always (step .scalars) (fun s => Referential s.db.store) (start (teamAt "00"))
        (annJoins "-0") := by
  have hempty : ∀ uid rest, Node.empty.getChild ("Users" :: uid :: rest) = .empty :=
    fun uid rest => Node.getChild_empty _
  refine ⟨⟨.empty, fun uid h => ?_, fun uid teamId h => ?_, by decide,
      not_always_referential "-LVgeGVQVRBzoQk2dCkT" [] (by decide +kernel) (by decide)⟩,
    Node.WFIn.empty.updateChild (.leaf _) (by decide), teamAt_registered _, teamAt_referential _,
    by decide, not_always_referential "-0" ["00"] (by decide +kernel) (by decide)⟩
  · rw [hempty] at h
    exact nomatch h
  · rw [hempty] at h
    exact nomatch h

end AccountsSystem
end Teamstuff
