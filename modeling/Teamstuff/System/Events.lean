/-
# The events of a team

Any number of clients with an events screen on the same team.  Each keeps the
list and the cells it last showed; a swipe writes the copy in a cell back as a
whole event, under the copy's own id, however old the copy is.  The writes wait
in the clients' queues (`Replica`), and a snapshot shows some earlier value of
the database with the client's own queued writes on top.

`EventsSystem.Sound` is the invariant: every event, be it stored, on its way or
in some cell, is kept under its own id and says what the `addEvent` with that id
said.  Every step keeps it (`Sound.step`), and the stored keys only grow
(`keys_subset`).
-/

import Teamstuff.Controller.EventsViewController
import Teamstuff.Library.Replica
import Teamstuff.Library.Run

namespace Teamstuff

/-- One player's swipe on one event. -/
structure Swipe where
  event : String
  player : String
  available : Bool
deriving DecidableEq, Repr

/-- The database and the clients' events screens.  `created` and `swipes` only
record what happened, newest first: the events as `addEvent` stored them and the
swipes that were written. -/
structure EventsSystem (C : Type*) where
  db : Replica C Node Write
  client : C → EventsViewController
  created : List Event
  swipes : List Swipe

/-- What can happen: a client adds an event under a new push key, the player
`uid` at a client swipes a row, the table of a client asks for a cell, the
database applies a client's oldest write, or a client receives a snapshot. -/
inductive EventsAction (C : Type*)
  | addEvent (c : C) (uid : String) (event : Event) (key : String) (pool : ℕ ↪ ℕ)
  | swipe (c : C) (uid : String) (available : Bool) (row : ℕ)
  | cellForRow (c : C) (uid : String) (row dequeued : ℕ)
  | commit (c : C)
  | deliver (c : C) (uid : String) (i : ℕ) (now : ℕ → Date) (pool : ℕ ↪ ℕ)

namespace EventsSystem

variable {C : Type*} [DecidableEq C] (locale : C → Locale)

/-- All clients have just opened the events screen `vc`. -/
def start (root : Node) (vc : EventsViewController) : EventsSystem C where
  db := Replica.start root
  client := fun _ => vc
  created := []
  swipes := []

/-- One step; `none` where the action cannot happen or ends the app that takes
it.  Push keys are distinct. -/
def step (s : EventsSystem C) : EventsAction C → Option (EventsSystem C)
  | .addEvent c uid event key pool =>
      if isPushKey key = true ∧ key ∉ s.created.map Event.id then
        match (s.client c).addEvent event key with
        | .error _ => none
        | .ok w =>
            ((s.client c).reloadData (locale c) uid pool).map fun vc =>
              { s with
                db := s.db.issue c w
                client := Function.update s.client c vc
                created := { event with id := key } :: s.created }
      else none
  | .swipe c uid available row =>
      match (s.client c).swipe available uid row with
      | .error _ => none
      | .ok (vc, calls) =>
          match calls.mapM vc.updateEvent with
          | .error _ => none
          | .ok ws => some
              { s with
                db := s.db.issueAll c ws
                client := Function.update s.client c vc
                swipes := calls.map (fun e => ⟨e.id, uid, available⟩) ++ s.swipes }
  | .cellForRow c uid row dequeued =>
      ((s.client c).cellForRowAt (locale c) uid row dequeued).map fun vc =>
        { s with client := Function.update s.client c vc }
  | .commit c => (s.db.commit Write.apply c).map fun db => { s with db := db }
  | .deliver c uid i now pool =>
      (s.db.snapshot Write.apply c i).bind fun root =>
        ((s.client c).fetchEvents Event.decode now (root.getChild (s.client c).ref) (locale c) uid
          pool).map fun vc => { s with client := Function.update s.client c vc }

/-! ### What a step does -/

section Steps

variable {locale} {s s' : EventsSystem C}

theorem step_addEvent {c : C} {uid : String} {event : Event} {key : String} {pool : ℕ ↪ ℕ} :
    s.step locale (.addEvent c uid event key pool) = some s' ↔
      isPushKey key = true ∧ key ∉ s.created.map Event.id ∧
        ∃ w vc, (s.client c).addEvent event key = .ok w ∧
          (s.client c).reloadData (locale c) uid pool = some vc ∧
          s' = { s with
            db := s.db.issue c w
            client := Function.update s.client c vc
            created := { event with id := key } :: s.created } := by
  simp only [step]
  by_cases hkey : isPushKey key = true ∧ key ∉ s.created.map Event.id
  · rw [if_pos hkey]
    cases hw : (s.client c).addEvent event key with
    | error _ => simp
    | ok w =>
        simp only [Option.map_eq_some_iff, Except.ok.injEq]
        constructor
        · rintro ⟨vc, hvc, rfl⟩
          exact ⟨hkey.1, hkey.2, w, vc, rfl, hvc, rfl⟩
        · rintro ⟨_, _, w', vc, rfl, hvc, rfl⟩
          exact ⟨vc, hvc, rfl⟩
  · rw [if_neg hkey]
    exact ⟨fun h => (nomatch h), fun h => absurd ⟨h.1, h.2.1⟩ hkey⟩

/-- A swipe changes one copy of the client and issues that copy. -/
theorem step_swipe {c : C} {uid : String} {available : Bool} {row : ℕ} :
    s.step locale (.swipe c uid available row) = some s' ↔
      ∃ cell e w, (s.client c).displayed row = some cell ∧
        ((s.client c).cells cell).event = some e ∧
        (s.client c).updateEvent (e.answering uid available) = .ok w ∧
        ∃ vc, (s.client c).swipe available uid row = .ok (vc, [e.answering uid available]) ∧
          s' = { s with
            db := s.db.issue c w
            client := Function.update s.client c vc
            swipes := ⟨e.id, uid, available⟩ :: s.swipes } := by
  simp only [step]
  cases hswipe : (s.client c).swipe available uid row with
  | error _ => simp
  | ok r =>
      obtain ⟨vc, calls⟩ := r
      obtain ⟨cell, e, hcell, he, rfl, hvc⟩ := EventsViewController.swipe_eq_ok.1 hswipe
      have href : vc.updateEvent (e.answering uid available) =
          (s.client c).updateEvent (e.answering uid available) := by rw [hvc]; rfl
      have hmapM : [e.answering uid available].mapM vc.updateEvent =
          ((s.client c).updateEvent (e.answering uid available)).map fun w => [w] := by
        rw [List.mapM_cons, href]
        cases (s.client c).updateEvent (e.answering uid available) <;> rfl
      simp only [hmapM]
      cases hw : (s.client c).updateEvent (e.answering uid available) with
      | error _ =>
          refine ⟨fun h => (nomatch h), ?_⟩
          rintro ⟨cell', e', w, hcell', he', hw', _⟩
          obtain rfl := Option.some.inj (hcell.symm.trans hcell')
          obtain rfl := Option.some.inj (he.symm.trans he')
          exact nomatch hw.symm.trans hw'
      | ok w =>
          constructor
          · intro h
            exact ⟨cell, e, w, hcell, he, hw, vc, rfl, (Option.some.inj h).symm⟩
          · rintro ⟨cell', e', w', hcell', he', hw', vc', hvc', rfl⟩
            obtain rfl := Option.some.inj (hcell.symm.trans hcell')
            obtain rfl := Option.some.inj (he.symm.trans he')
            obtain rfl := Except.ok.inj (hw.symm.trans hw')
            obtain ⟨rfl, _⟩ := Prod.mk.inj (Except.ok.inj hvc')
            rfl

theorem step_cellForRow {c : C} {uid : String} {row dequeued : ℕ} :
    s.step locale (.cellForRow c uid row dequeued) = some s' ↔
      ∃ vc, (s.client c).cellForRowAt (locale c) uid row dequeued = some vc ∧
        s' = { s with client := Function.update s.client c vc } := by
  rw [step, Option.map_eq_some_iff]
  exact exists_congr fun _ => and_congr_right fun _ => eq_comm

theorem step_commit {c : C} :
    s.step locale (.commit c) = some s' ↔
      ∃ db, s.db.commit Write.apply c = some db ∧ s' = { s with db := db } := by
  rw [step, Option.map_eq_some_iff]
  exact exists_congr fun _ => and_congr_right fun _ => eq_comm

theorem step_deliver {c : C} {uid : String} {i : ℕ} {now : ℕ → Date} {pool : ℕ ↪ ℕ} :
    s.step locale (.deliver c uid i now pool) = some s' ↔
      ∃ root vc, s.db.snapshot Write.apply c i = some root ∧
        (s.client c).fetchEvents Event.decode now (root.getChild (s.client c).ref) (locale c) uid
          pool = some vc ∧
        s' = { s with client := Function.update s.client c vc } := by
  simp only [step, Option.bind_eq_some_iff, Option.map_eq_some_iff]
  constructor
  · rintro ⟨root, hroot, vc, hvc, rfl⟩
    exact ⟨root, vc, hroot, hvc, rfl⟩
  · rintro ⟨root, vc, hroot, hvc, rfl⟩
    exact ⟨root, hroot, vc, hvc, rfl⟩

end Steps

/-! ### The invariant -/

/-- `e` is kept under a key of `childByAutoId` and says what the event created under that
key said. -/
def Traced (created : List Event) (e : Event) : Prop :=
  isPushKey e.id = true ∧ ∃ e₀ ∈ created, e₀.id = e.id ∧ e₀.details = e.details

/-- The events node is well formed, and every child of it is a traced event at
its own id. -/
structure Stored (ref : FPath) (created : List Event) (root : Node) : Prop where
  valid : (root.getChild ref).Valid
  child : ∀ child ∈ (root.getChild ref).childList,
    ∃ e, Traced created e ∧ e.id = child.1 ∧ e.node = .ok child.2

/-- The write puts a traced event at its own id. -/
def Written (ref : FPath) (created : List Event) (w : Write) : Prop :=
  ∃ e, Traced created e ∧ w.path = ref ++ [e.id] ∧ e.node = .ok w.node

/-- **The invariant of the events system.** -/
structure Sound (ref : FPath) (s : EventsSystem C) : Prop where
  db : s.db.Holds (Stored ref s.created) (Written ref s.created)
  ref : ∀ c, (s.client c).ref = ref
  copy : ∀ c e, (s.client c).Copy e → Traced s.created e
  nodup : (s.created.map Event.id).Nodup

theorem Traced.mono {created : List Event} {e : Event} (h : Traced created e) (e₁ : Event) :
    Traced (e₁ :: created) e := by
  obtain ⟨hid, e₀, he₀, heq⟩ := h
  exact ⟨hid, e₀, List.mem_cons_of_mem e₁ he₀, heq⟩

/-- An answer does not change what an event says. -/
theorem Traced.answering {created : List Event} {e : Event} (h : Traced created e) (player : String)
    (available : Bool) : Traced created (e.answering player available) := h

theorem Traced.normalized {created : List Event} {e : Event} (h : Traced created e) :
    Traced created e.normalized := h

/-- **A write of a traced event leaves only traced events.** -/
theorem Written.apply {ref : FPath} {created : List Event} (w : Write) (root : Node)
    (hw : Written ref created w) (hroot : Stored ref created root) :
    Stored ref created (w.apply root) := by
  obtain ⟨e, he, hpath, hnode⟩ := hw
  obtain ⟨path, n⟩ := w
  obtain rfl : path = ref ++ [e.id] := hpath
  have hkey : ∀ k ∈ [e.id], isValidKey k = true := fun k hk =>
    List.mem_singleton.1 hk ▸ isValidKey_of_isPushKey he.1
  have hread : ((⟨ref ++ [e.id], n⟩ : Write).apply root).getChild ref =
      (root.getChild ref).updateChild [e.id] n :=
    Write.getChild_apply ref [e.id] (Or.inl (Event.isEmpty_of_node hnode))
  refine ⟨?_, fun child hchild => ?_⟩
  · rw [hread]
    exact hroot.valid.updateChild (nodeFrom_valid _ hnode) hkey
  · rw [hread] at hchild
    rcases Node.mem_childList_updateChild hchild with rfl | hmem
    · exact ⟨e, he, rfl, hnode⟩
    · exact hroot.child child hmem

/-- An event read from a sound snapshot is traced. -/
theorem Stored.traced {ref : FPath} {created : List Event} {root : Node}
    (h : Stored ref created root) {child : String × Node}
    (hchild : child ∈ (root.getChild ref).childList) {e : Event}
    (he : Event.decode child.2.val = .ok e) : Traced created e := by
  obtain ⟨e₀, he₀, _, hnode⟩ := h.child child hchild
  obtain rfl := Event.decode_val hnode he
  exact he₀.normalized

/-- An event with a key of `childByAutoId` for id is written at its own id. -/
theorem updateEvent_path {ref : FPath} {e : Event} (hid : isPushKey e.id = true)
    {vc : EventsViewController} (href : vc.ref = ref) {w : Write}
    (hw : vc.updateEvent e = .ok w) : w.path = ref ++ [e.id] ∧ e.node = .ok w.node := by
  obtain ⟨_, n, hn, rfl⟩ := EventsViewController.updateEvent_eq_ok.1 hw
  exact ⟨by rw [href, FPath.initWith_of_isValidKey (isValidKey_of_isPushKey hid)], hn⟩

theorem Traced.updateEvent {ref : FPath} {created : List Event} {e : Event}
    (h : Traced created e) {vc : EventsViewController} (href : vc.ref = ref) {w : Write}
    (hw : vc.updateEvent e = .ok w) : Written ref created w :=
  ⟨e, h, updateEvent_path h.1 href hw⟩

/-- The screens after a step of client `c`. -/
theorem copy_update {client : C → EventsViewController} {c : C} {vc : EventsViewController}
    {P : Event → Prop} (h : ∀ d e, (client d).Copy e → P e) (hvc : ∀ e, vc.Copy e → P e) (d : C)
    (e : Event) (he : (Function.update client c vc d).Copy e) : P e := by
  rw [Function.update_apply] at he
  split_ifs at he
  · exact hvc e he
  · exact h d e he

theorem ref_update {client : C → EventsViewController} {c : C} {vc : EventsViewController}
    {ref : FPath} (h : ∀ d, (client d).ref = ref) (hvc : vc.ref = ref) (d : C) :
    (Function.update client c vc d).ref = ref := by
  rw [Function.update_apply]
  split_ifs
  · exact hvc
  · exact h d

/-- **Every step keeps the invariant.** -/
theorem Sound.step {locale : C → Locale} {ref : FPath} {s s' : EventsSystem C}
    {a : EventsAction C} (h : Sound ref s) (hs : s.step locale a = some s') : Sound ref s' := by
  cases a with
  | addEvent c uid event key pool =>
      obtain ⟨hkey, hfresh, w, vc, hw, hvc, rfl⟩ := step_addEvent.1 hs
      obtain ⟨vc', hvc', hreload⟩ :=
        EventsViewController.reloadData_spec (locale c) uid pool (s.client c)
      obtain rfl := Option.some.inj (hvc'.symm.trans hvc)
      have htraced : Traced ({ event with id := key } :: s.created) { event with id := key } :=
        ⟨hkey, _, List.mem_cons_self, rfl, rfl⟩
      have hmono : s.db.Holds (Stored ref ({ event with id := key } :: s.created))
          (Written ref ({ event with id := key } :: s.created)) := by
        refine h.db.mono (fun root hroot => ⟨hroot.valid, fun child hchild => ?_⟩) (fun w hw => ?_)
        · obtain ⟨e, he, heq⟩ := hroot.child child hchild
          exact ⟨e, he.mono _, heq⟩
        · obtain ⟨e, he, heq⟩ := hw
          exact ⟨e, he.mono _, heq⟩
      exact {
        db := hmono.issue c (htraced.updateEvent (h.ref c) hw)
        ref := ref_update h.ref (hreload.ref.trans (h.ref c))
        copy := copy_update (fun d e he => (h.copy d e he).mono _)
          fun e he => (h.copy c e (hreload.copy e he)).mono _
        nodup := List.nodup_cons.2 ⟨hfresh, h.nodup⟩ }
  | swipe c uid available row =>
      obtain ⟨cell, e, w, _, he, hw, vc, hvc, rfl⟩ := step_swipe.1 hs
      have htraced : Traced s.created (e.answering uid available) := h.copy c e (Or.inr ⟨cell, he⟩)
      have href : vc.ref = (s.client c).ref := by
        obtain ⟨_, _, _, _, _, rfl⟩ := EventsViewController.swipe_eq_ok.1 hvc
        rfl
      refine ⟨h.db.issue c (htraced.updateEvent (h.ref c) hw), ref_update h.ref (href.trans (h.ref c)),
        copy_update h.copy fun e' he' => ?_, h.nodup⟩
      rcases EventsViewController.copy_swipe hvc he' with hcopy | hcall
      · exact h.copy c e' hcopy
      · exact List.mem_singleton.1 hcall ▸ htraced
  | cellForRow c uid row dequeued =>
      obtain ⟨vc, hvc, rfl⟩ := step_cellForRow.1 hs
      have href : vc.ref = (s.client c).ref := by
        obtain ⟨_, _, rfl⟩ := EventsViewController.cellForRowAt_eq_some.1 hvc
        rfl
      exact ⟨h.db, ref_update h.ref (href.trans (h.ref c)), copy_update h.copy fun e he =>
        h.copy c e (EventsViewController.copy_cellForRowAt hvc he), h.nodup⟩
  | commit c =>
      obtain ⟨db, hdb, rfl⟩ := step_commit.1 hs
      exact ⟨h.db.commit Written.apply hdb, h.ref, h.copy, h.nodup⟩
  | deliver c uid i now pool =>
      obtain ⟨root, vc, hroot, hvc, rfl⟩ := step_deliver.1 hs
      have hstored : Stored ref s.created root := h.db.snapshot Written.apply hroot
      obtain ⟨vc', hvc', _, href, _⟩ := EventsViewController.fetchEvents_spec Event.decode now
        (root.getChild (s.client c).ref) (locale c) uid pool (s.client c)
      obtain rfl := Option.some.inj (hvc'.symm.trans hvc)
      refine ⟨h.db, ref_update h.ref (href.trans (h.ref c)), copy_update h.copy fun e he => ?_,
        h.nodup⟩
      rcases EventsViewController.copy_fetchEvents hvc he with hcopy | ⟨child, hchild, hdec⟩
      · exact h.copy c e hcopy
      · rw [h.ref c] at hchild
        exact hstored.traced hchild hdec

/-! ### Runs -/

/-- The stored keys of the events node. -/
def keys (ref : FPath) (s : EventsSystem C) : List String := (s.db.store.getChild ref).keys

/-- What a step does to the store: it stays, or a traced event is put at its
own id. -/
theorem Sound.store_step {locale : C → Locale} {ref : FPath} {s s' : EventsSystem C}
    {a : EventsAction C} (h : Sound ref s) (hs : s.step locale a = some s') :
    s'.db.store = s.db.store ∨
      ∃ w, Written ref s.created w ∧ s'.db.store = w.apply s.db.store := by
  cases a with
  | addEvent c uid event key pool =>
      obtain ⟨_, _, _, _, _, _, rfl⟩ := step_addEvent.1 hs
      exact Or.inl rfl
  | swipe c uid available row =>
      obtain ⟨_, _, _, _, _, _, _, _, rfl⟩ := step_swipe.1 hs
      exact Or.inl rfl
  | cellForRow c uid row dequeued =>
      obtain ⟨_, _, rfl⟩ := step_cellForRow.1 hs
      exact Or.inl rfl
  | commit c =>
      obtain ⟨db, hdb, rfl⟩ := step_commit.1 hs
      obtain ⟨w, ws, hc, rfl⟩ := (Replica.commit_eq_some Write.apply).1 hdb
      exact Or.inr ⟨w, h.db.pending c w (hc ▸ List.mem_cons_self), rfl⟩
  | deliver c uid i now pool =>
      obtain ⟨_, _, _, _, rfl⟩ := step_deliver.1 hs
      exact Or.inl rfl

/-- A step takes no stored key away. -/
theorem Sound.keys_step {locale : C → Locale} {ref : FPath} {s s' : EventsSystem C}
    {a : EventsAction C} (h : Sound ref s) (hs : s.step locale a = some s') :
    s.keys ref ⊆ s'.keys ref := by
  intro k hk
  unfold keys at hk ⊢
  rcases h.store_step hs with heq | ⟨w, ⟨e, he, hpath, hnode⟩, heq⟩
  · rw [heq]
    exact hk
  · obtain ⟨path, n⟩ := w
    obtain rfl : path = ref ++ [e.id] := hpath
    have hne := Event.isEmpty_of_node hnode
    rw [heq, Write.getChild_apply ref [e.id] (Or.inl hne)]
    exact (Node.mem_keys_updateChild hne (tryParseStringToInt_of_isPushKey he.1)).2 (Or.inr hk)

/-- What a step records of its `addEvent`s. -/
theorem mem_created_step {locale : C → Locale} {s s' : EventsSystem C} {a : EventsAction C}
    (hs : s.step locale a = some s') (e : Event) :
    e ∈ s'.created ↔ e ∈ s.created ∨ ∃ c uid event key pool,
      a = .addEvent c uid event key pool ∧ isPushKey key = true ∧ e = { event with id := key } := by
  cases a with
  | addEvent c uid event key pool =>
      obtain ⟨hkey, _, _, _, _, _, rfl⟩ := step_addEvent.1 hs
      rw [List.mem_cons, or_comm]
      refine or_congr_right ⟨fun he => ⟨c, uid, event, key, pool, rfl, hkey, he⟩, ?_⟩
      rintro ⟨_, _, _, _, _, ha, _, rfl⟩
      cases ha
      rfl
  | swipe c uid available row =>
      obtain ⟨_, _, _, _, _, _, _, _, rfl⟩ := step_swipe.1 hs
      simp
  | cellForRow c uid row dequeued =>
      obtain ⟨_, _, rfl⟩ := step_cellForRow.1 hs
      simp
  | commit c =>
      obtain ⟨_, _, rfl⟩ := step_commit.1 hs
      simp
  | deliver c uid i now pool =>
      obtain ⟨_, _, _, _, rfl⟩ := step_deliver.1 hs
      simp

/-- The record of a run is that of its actions. -/
theorem mem_created_exec {locale : C → Locale} {s t : EventsSystem C} {as : List (EventsAction C)}
    (h : Run.exec (step locale) s as = some t) (e : Event) :
    e ∈ t.created ↔ e ∈ s.created ∨ ∃ c uid event key pool,
      .addEvent c uid event key pool ∈ as ∧ isPushKey key = true ∧
        e = { event with id := key } := by
  induction as generalizing s with
  | nil =>
      obtain rfl := Option.some.inj h
      simp
  | cons a as ih =>
      obtain ⟨s', hs', ht⟩ := Run.exec_cons_eq_some.1 h
      rw [ih ht, mem_created_step hs', or_assoc]
      refine or_congr_right ⟨?_, ?_⟩
      · rintro (⟨c, uid, event, key, pool, rfl, hkey, rfl⟩ | ⟨c, uid, event, key, pool, ha, hkey, rfl⟩)
        · exact ⟨c, uid, event, key, pool, List.mem_cons_self, hkey, rfl⟩
        · exact ⟨c, uid, event, key, pool, List.mem_cons_of_mem a ha, hkey, rfl⟩
      · rintro ⟨c, uid, event, key, pool, ha, hkey, rfl⟩
        rcases List.mem_cons.1 ha with rfl | ha
        · exact Or.inl ⟨c, uid, event, key, pool, rfl, hkey, rfl⟩
        · exact Or.inr ⟨c, uid, event, key, pool, ha, hkey, rfl⟩

omit [DecidableEq C] in
/-- An events screen that was just opened on an empty events node is sound. -/
theorem Sound.start {root : Node} {teamId : String} {vc : EventsViewController}
    (hvc : EventsViewController.viewDidLoad teamId = .ok vc)
    (hempty : (root.getChild vc.ref).isEmpty = true) :
    Sound vc.ref (start root vc : EventsSystem C) where
  db := by
    have hnode := Node.eq_empty_of_isEmpty hempty
    refine Replica.Holds.start ⟨hnode ▸ .empty, fun child hchild => ?_⟩
    rw [hnode] at hchild
    exact absurd hchild List.not_mem_nil
  ref := fun _ => rfl
  copy := by
    obtain ⟨_, rfl⟩ := EventsViewController.viewDidLoad_eq_ok.1 hvc
    exact fun _ e he => absurd he (EventsViewController.not_copy_opened _ e)
  nodup := List.nodup_nil

/-- Everything a run from an empty events node reaches is sound. -/
theorem Sound.exec {locale : C → Locale} {ref : FPath} {s t : EventsSystem C}
    {as : List (EventsAction C)} (h : Sound ref s)
    (ht : Run.exec (EventsSystem.step locale) s as = some t) : Sound ref t :=
  Run.exec_invariant' (fun _ _ _ hs hstep => hs.step hstep) h ht

/-- **Along a run the stored keys only grow.** -/
theorem Sound.keys_subset {locale : C → Locale} {ref : FPath} {s t : EventsSystem C}
    {as : List (EventsAction C)} (h : Sound ref s)
    (ht : Run.exec (EventsSystem.step locale) s as = some t) : s.keys ref ⊆ t.keys ref :=
  Run.exec_rel (I := Sound ref) (R := fun s t => s.keys ref ⊆ t.keys ref)
    (fun _ _ hk => hk) (fun _ _ _ h₁ h₂ _ hk => h₂ (h₁ hk))
    (fun _ _ _ hs hstep => hs.step hstep) (fun _ _ _ hs hstep => hs.keys_step hstep) h ht

/-- **Events are neither lost nor altered by what happens to other events.**
From an empty events node, every child of the node holds, after every run, an
event whose id is the child's key and which says what the one `addEvent` with
that key said; and the keys only grow. -/
theorem event_kept (locale : C → Locale) (root : Node) (teamId : String)
    (vc : EventsViewController) (hvc : EventsViewController.viewDidLoad teamId = .ok vc)
    (hempty : (root.getChild vc.ref).isEmpty = true) (as : List (EventsAction C))
    (t : EventsSystem C) (ht : Run.exec (step locale) (start root vc) as = some t) :
    (∀ child ∈ (t.db.store.getChild vc.ref).childList, child.1 ≠ "DummyID" ∧
      ∃ e : Event, e.node = .ok child.2 ∧ e.id = child.1 ∧
        (∃ c uid event pool, .addEvent c uid event child.1 pool ∈ as) ∧
        ∀ c uid event pool, .addEvent c uid event child.1 pool ∈ as → e.details = event.details) ∧
    ∀ bs t', Run.exec (step locale) t bs = some t' → t.keys vc.ref ⊆ t'.keys vc.ref := by
  have hsound : Sound vc.ref t := (Sound.start hvc hempty).exec ht
  refine ⟨fun child hchild => ?_, fun bs t' ht' => ?_⟩
  · obtain ⟨e, ⟨_, e₀, he₀, hid₀, hdetails⟩, hid, hnode⟩ := hsound.db.store.child child hchild
    rcases (mem_created_exec ht e₀).1 he₀ with hnil | ⟨c, uid, event, key, pool, ha, hkey, rfl⟩
    · exact absurd hnil List.not_mem_nil
    obtain rfl : key = child.1 := hid₀.trans hid
    refine ⟨fun hdummy => ?_, e, hnode, hid, ⟨c, uid, event, pool, ha⟩,
      fun c' uid' event' pool' ha' => ?_⟩
    · rw [hdummy] at hkey
      exact absurd hkey (by decide)
    · -- both were recorded under one id, and the recorded ids are distinct
      have he' : { event' with id := child.1 } ∈ t.created :=
        (mem_created_exec ht _).2 (Or.inr ⟨c', uid', event', child.1, pool', ha', hkey, rfl⟩)
      have heq := List.inj_on_of_nodup_map hsound.nodup he₀ he' rfl
      have hsame := congrArg Event.details heq
      exact hdetails.symm.trans hsame
  · exact hsound.keys_subset ht'

end EventsSystem

namespace EventsSystem

/-- One client stores an event, and two answer it from the same snapshot. -/
def derbyAnswered : List (EventsAction Bool) :=
  [.addEvent false "ann" .derby "-LVgeGVQVRBzoQk2dCkT" (.refl ℕ), .commit false,
    .deliver false "ann" 0 (fun _ => 50) (.refl ℕ), .deliver true "bob" 0 (fun _ => 50) (.refl ℕ),
    .swipe false "ann" true 0, .swipe true "bob" false 0, .commit false, .commit true]

/-- After two writes from stale copies the event is there, under its own key. -/
theorem event_kept_derby : ∃ vc t, EventsViewController.viewDidLoad "T" = .ok vc ∧
    Run.exec (step fun _ => someLocale) (start .empty vc) derbyAnswered = some t ∧
    t.keys vc.ref = ["-LVgeGVQVRBzoQk2dCkT"] ∧
    ∀ child ∈ (t.db.store.getChild vc.ref).childList, ∃ e : Event,
      e.node = .ok child.2 ∧ e.id = child.1 := by
  have hvc : EventsViewController.viewDidLoad "T" = .ok (.opened ["Teams", "T", "Events"]) := rfl
  have hrun : (Run.exec (step fun _ => someLocale)
      (start .empty (.opened ["Teams", "T", "Events"])) derbyAnswered).map
        (fun t => t.keys ["Teams", "T", "Events"]) = some ["-LVgeGVQVRBzoQk2dCkT"] := by
    decide +kernel
  obtain ⟨t, ht, hkeys⟩ := Option.map_eq_some_iff.1 hrun
  refine ⟨_, t, hvc, ht, hkeys, fun child hchild => ?_⟩
  obtain ⟨_, e, hnode, hid, _⟩ := (event_kept _ .empty "T" _ hvc rfl _ t ht).1 child hchild
  exact ⟨e, hnode, hid⟩

end EventsSystem
end Teamstuff
