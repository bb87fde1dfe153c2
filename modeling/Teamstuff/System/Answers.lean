/-
# The players' answers

What the events system keeps of the swipes on one event.

A swipe writes the whole event back from the copy in a cell, and the database
puts the last write that reaches it over everything before: an answer that was
not in the copy is gone.  Nothing in the app prevents this; it uses neither
transactions nor writes to a single answer.

Two things hold.  No answer is ever made up: the stored answer of a player is
one the player gave or one that was stored for the player before
(`Answered.step`).  And no answer is lost as long as the clients take turns,
that is, as long as each swipe is made on a copy that is up to date on the other
players while no other client has a write of the event on its way (`InTurn.step`).
-/

import Teamstuff.System.Events

namespace Teamstuff
namespace EventsSystem

variable {C : Type*} [DecidableEq C] {locale : C → Locale} {ref : FPath} {k : String}

/-- The answer of a player to the event `k` in a database value. -/
def storedAnswer (ref : FPath) (k player : String) (root : Node) : Option Bool :=
  ((root.getChild (ref ++ [k, "playerStatus"])).childNamed player).bind Node.bool?

/-- The last swipe of a player on the event `k`. -/
def lastSwipe (swipes : List Swipe) (k player : String) : Option Bool :=
  (swipes.find? fun s => s.event = k ∧ s.player = player).map Swipe.available

/-- Between `s₀` and `s` no answer was lost: every player who swiped has the last
answer given, every other player the one of the beginning. -/
def NoAnswerLost (ref : FPath) (k : String) (s₀ s : EventsSystem C) : Prop :=
  ∀ player, storedAnswer ref k player s.db.store =
    (lastSwipe s.swipes k player).or (storedAnswer ref k player s₀.db.store)

/-- Where a run may begin: the event `k` is stored, no write is on its way, and
every copy of the event shows the answers of some earlier value. -/
structure Begins (ref : FPath) (k : String) (s : EventsSystem C) : Prop where
  sound : Sound ref s
  stored : k ∈ s.keys ref
  pending : ∀ c, s.db.pending c = []
  swipes : s.swipes = []
  copy : ∀ c e, (s.client c).Copy e → e.id = k →
    ∃ root ∈ s.db.store :: s.db.past, ∀ player, e.answer player = storedAnswer ref k player root

/-- A write puts the answers of its event in place of those of the event with the
same id. -/
theorem storedAnswer_apply {e : Event} {w : Write} (hid : isPushKey e.id = true)
    (hpath : w.path = ref ++ [e.id]) (hnode : e.node = .ok w.node) (player : String) (root : Node) :
    storedAnswer ref k player (w.apply root) =
      if e.id = k then e.answer player else storedAnswer ref k player root := by
  obtain ⟨path, n⟩ := w
  obtain rfl : path = ref ++ [e.id] := hpath
  unfold storedAnswer Write.apply
  have hne := Event.isEmpty_of_node hnode
  split_ifs with hk
  · subst hk
    have hsplit : ref ++ [e.id, "playerStatus"] = (ref ++ [e.id]) ++ ["playerStatus"] := by simp
    rw [hsplit, Node.getChild_append, Node.getChild_updateChild _ (Or.inl hne), Node.getChild_cons,
      Node.getChild_nil]
    exact Event.answer_node hnode player
  · have hother := compareKey_ne_of_none (tryParseStringToInt_of_isPushKey hid) hk
    rw [Node.getChild_updateChild_of_ne ref hother [] ["playerStatus"] (Or.inl hne)]

/-! ### No answer is made up -/

/-- An answer of a player that was stored in one of the earlier values or given
by one of the swipes. -/
def Attested (ref : FPath) (k : String) (earlier : List Node) (swipes : List Swipe)
    (player : String) (answer : Option Bool) : Prop :=
  (∃ root ∈ earlier, storedAnswer ref k player root = answer) ∨
    ∃ available, ⟨k, player, available⟩ ∈ swipes ∧ answer = some available

theorem Attested.mono {earlier : List Node} {swipes swipes' : List Swipe}
    (hsub : swipes ⊆ swipes') {player : String} {answer : Option Bool}
    (h : Attested ref k earlier swipes player answer) :
    Attested ref k earlier swipes' player answer :=
  h.imp_right fun ⟨available, hmem, heq⟩ => ⟨available, hsub hmem, heq⟩

/-- A write of an event whose answers are attested if it is the event `k`. -/
def WrittenAnswers (ref : FPath) (k : String) (earlier : List Node) (swipes : List Swipe)
    (w : Write) : Prop :=
  ∃ e : Event, isPushKey e.id = true ∧ w.path = ref ++ [e.id] ∧ e.node = .ok w.node ∧
    (e.id = k → ∀ player, Attested ref k earlier swipes player (e.answer player))

/-- A database value in which all answers to `k` are attested. -/
def StoredAnswers (ref : FPath) (k : String) (earlier : List Node) (swipes : List Swipe)
    (root : Node) : Prop :=
  ∀ player, Attested ref k earlier swipes player (storedAnswer ref k player root)

/-- **Every answer to `k`, stored, on its way or in a copy, is attested.** -/
structure Answered (ref : FPath) (k : String) (earlier : List Node) (s : EventsSystem C) :
    Prop where
  sound : Sound ref s
  known : k ∈ s.created.map Event.id
  db : s.db.Holds (StoredAnswers ref k earlier s.swipes) (WrittenAnswers ref k earlier s.swipes)
  copy : ∀ c e, (s.client c).Copy e → e.id = k →
    ∀ player, Attested ref k earlier s.swipes player (e.answer player)

theorem WrittenAnswers.apply {earlier : List Node} {swipes : List Swipe} (w : Write) (root : Node)
    (hw : WrittenAnswers ref k earlier swipes w) (hroot : StoredAnswers ref k earlier swipes root) :
    StoredAnswers ref k earlier swipes (w.apply root) := by
  obtain ⟨e, hid, hpath, hnode, hanswers⟩ := hw
  intro player
  rw [storedAnswer_apply hid hpath hnode]
  split_ifs with hk
  · exact hanswers hk player
  · exact hroot player

/-- An event decoded from a snapshot has the answers stored there. -/
theorem Stored.answer {created : List Event} {root : Node} (h : Stored ref created root)
    {child : String × Node} (hchild : child ∈ (root.getChild ref).childList) {e : Event}
    (he : Event.decode child.2.val = .ok e) (player : String) :
    e.answer player = storedAnswer ref e.id player root := by
  obtain ⟨e₀, _, hid, hnode⟩ := h.child child hchild
  obtain rfl := Event.decode_val hnode he
  have hget : root.getChild (ref ++ [child.1]) = child.2 := by
    rw [Node.getChild_append, Node.getChild_cons, Node.getChild_nil,
      h.valid.getImmediateChild_of_mem hchild]
  have hsplit : ref ++ [e₀.id, "playerStatus"] = (ref ++ [child.1]) ++ ["playerStatus"] := by
    simp [hid]
  rw [Event.normalized_answer, Event.normalized_id, storedAnswer, hsplit, Node.getChild_append, hget,
    Node.getChild_cons, Node.getChild_nil, Event.answer_node hnode]

/-- An answer given by a swipe is attested by that swipe. -/
theorem Attested.answering {earlier : List Node} {swipes : List Swipe} {e : Event}
    (h : ∀ player, Attested ref k earlier swipes player (e.answer player)) (uid : String)
    (available : Bool) (player : String) :
    Attested ref k earlier (⟨k, uid, available⟩ :: swipes) player
      ((e.answering uid available).answer player) := by
  rw [Event.answer_answering]
  split_ifs with hp
  · exact Or.inr ⟨available, hp ▸ List.mem_cons_self, rfl⟩
  · exact (h player).mono (List.subset_cons_self _ _)

/-- **No step makes an answer up.** -/
theorem Answered.step {earlier : List Node} {s s' : EventsSystem C} {a : EventsAction C}
    (h : Answered ref k earlier s) (hs : s.step locale a = some s') : Answered ref k earlier s' := by
  have hsound := h.sound.step hs
  cases a with
  | addEvent c uid event key pool =>
      obtain ⟨hkey, hfresh, w, vc, hw, hvc, rfl⟩ := step_addEvent.1 hs
      have hne : key ≠ k := fun he => hfresh (he ▸ h.known)
      obtain ⟨hpath, hnode⟩ := updateEvent_path (e := { event with id := key }) hkey (h.sound.ref c) hw
      obtain ⟨vc', hvc', hreload⟩ :=
        EventsViewController.reloadData_spec (locale c) uid pool (s.client c)
      obtain rfl := Option.some.inj (hvc'.symm.trans hvc)
      exact {
        sound := hsound
        known := List.mem_cons_of_mem _ h.known
        db := h.db.issue c ⟨_, hkey, hpath, hnode, fun he => absurd he hne⟩
        copy := copy_update h.copy fun e he => h.copy c e (hreload.copy e he) }
  | swipe c uid available row =>
      obtain ⟨cell, e, w, _, he, hw, vc, hvc, rfl⟩ := step_swipe.1 hs
      have hcopy : (s.client c).Copy e := Or.inr ⟨cell, he⟩
      have htraced := (h.sound.copy c e hcopy).answering uid available
      obtain ⟨hpath, hnode⟩ := updateEvent_path htraced.1 (h.sound.ref c) hw
      have hsub : s.swipes ⊆ ⟨e.id, uid, available⟩ :: s.swipes := List.subset_cons_self _ _
      have hanswers : e.id = k → ∀ player,
          Attested ref k earlier (⟨e.id, uid, available⟩ :: s.swipes) player
            ((e.answering uid available).answer player) := by
        rintro rfl
        exact Attested.answering (h.copy c e hcopy rfl) uid available
      have hdb : s.db.Holds (StoredAnswers ref k earlier (⟨e.id, uid, available⟩ :: s.swipes))
          (WrittenAnswers ref k earlier (⟨e.id, uid, available⟩ :: s.swipes)) := by
        refine h.db.mono (fun root hroot player => (hroot player).mono hsub) ?_
        rintro w ⟨e', hkey, hp, hn, ha⟩
        exact ⟨e', hkey, hp, hn, fun hid player => (ha hid player).mono hsub⟩
      refine ⟨hsound, h.known, hdb.issue c ⟨_, htraced.1, hpath, hnode, hanswers⟩,
        copy_update (fun d e' he' hid player => (h.copy d e' he' hid player).mono hsub)
          fun e' he' hid player => ?_⟩
      rcases EventsViewController.copy_swipe hvc he' with hold | hcall
      · exact (h.copy c e' hold hid player).mono hsub
      · obtain rfl := List.mem_singleton.1 hcall
        exact hanswers hid player
  | cellForRow c uid row dequeued =>
      obtain ⟨vc, hvc, rfl⟩ := step_cellForRow.1 hs
      exact ⟨hsound, h.known, h.db, copy_update h.copy fun e he =>
        h.copy c e (EventsViewController.copy_cellForRowAt hvc he)⟩
  | commit c =>
      obtain ⟨db, hdb, rfl⟩ := step_commit.1 hs
      exact ⟨hsound, h.known, h.db.commit WrittenAnswers.apply hdb, h.copy⟩
  | deliver c uid i now pool =>
      obtain ⟨root, vc, hroot, hvc, rfl⟩ := step_deliver.1 hs
      have hstored : Stored ref s.created root := h.sound.db.snapshot Written.apply hroot
      have hanswers := h.db.snapshot WrittenAnswers.apply hroot
      refine ⟨hsound, h.known, h.db, copy_update h.copy fun e he => ?_⟩
      rcases EventsViewController.copy_fetchEvents hvc he with hcopy | ⟨child, hchild, hdec⟩
      · exact h.copy c e hcopy
      · rintro rfl player
        rw [h.sound.ref c] at hchild
        rw [hstored.answer hchild hdec]
        exact hanswers player

/-! ### No answer is lost while the clients take turns -/

/-- Client `c` has a write of the event `k` on its way. -/
def Busy (ref : FPath) (k : String) (s : EventsSystem C) (c : C) : Prop :=
  ∃ w ∈ s.db.pending c, w.path = ref ++ [k]

/-- The answers client `c` would be shown by a snapshot of the present value. -/
def seenAnswer (ref : FPath) (k player : String) (c : C) (s : EventsSystem C) : Option Bool :=
  storedAnswer ref k player (s.db.overlay Write.apply c s.db.store)

/-- The condition on a step: a swipe on `k` is made while no other client has a
write of `k` on its way, on a copy that has the answers the other players have in
the present value. -/
def TakesTurn (ref : FPath) (k : String) (s : EventsSystem C) : EventsAction C → Prop
  | .swipe c uid _ row => ∀ cell e, (s.client c).displayed row = some cell →
      ((s.client c).cells cell).event = some e → e.id = k →
        (∀ d, d ≠ c → ¬ s.Busy ref k d) ∧
          ∀ player, player ≠ uid → e.answer player = s.seenAnswer ref k player c
  | _ => True

/-- What the answers to `k` should be after the swipes so far. -/
def dueAnswer (initial : String → Option Bool) (k : String) (s : EventsSystem C)
    (player : String) : Option Bool :=
  (lastSwipe s.swipes k player).or (initial player)

/-- **The invariant of clients that take turns**: at most one is busy, it sees
the answers that are due, and when none is busy they are stored. -/
structure InTurn (ref : FPath) (k : String) (initial : String → Option Bool)
    (s : EventsSystem C) : Prop where
  sound : Sound ref s
  known : k ∈ s.created.map Event.id
  one : ∀ c d, s.Busy ref k c → s.Busy ref k d → c = d
  seen : ∀ c, s.Busy ref k c → ∀ player, s.seenAnswer ref k player c = s.dueAnswer initial k player
  idle : (∀ c, ¬ s.Busy ref k c) →
    ∀ player, storedAnswer ref k player s.db.store = s.dueAnswer initial k player

/-- Writes of other events do not change the answers to `k`. -/
theorem storedAnswer_foldl {created : List Event} {ws : List Write}
    (hws : ∀ w ∈ ws, Written ref created w) (hk : ∀ w ∈ ws, w.path ≠ ref ++ [k]) (player : String)
    (root : Node) :
    storedAnswer ref k player (ws.foldl (fun root w => w.apply root) root) =
      storedAnswer ref k player root := by
  induction ws generalizing root with
  | nil => rfl
  | cons w ws ih =>
      obtain ⟨e, ⟨hid, _⟩, hpath, hnode⟩ := hws w List.mem_cons_self
      have hne : e.id ≠ k := fun he => hk w List.mem_cons_self (by rw [hpath, he])
      rw [List.foldl_cons, ih (fun v hv => hws v (List.mem_cons_of_mem w hv))
        (fun v hv => hk v (List.mem_cons_of_mem w hv)), storedAnswer_apply hid hpath hnode,
        if_neg hne]

/-- Two values with the same answers to `k` have the same answers after the same
writes. -/
theorem storedAnswer_foldl_congr {created : List Event} {ws : List Write}
    (hws : ∀ w ∈ ws, Written ref created w) {player : String} {root root' : Node}
    (h : storedAnswer ref k player root = storedAnswer ref k player root') :
    storedAnswer ref k player (ws.foldl (fun root w => w.apply root) root) =
      storedAnswer ref k player (ws.foldl (fun root w => w.apply root) root') := by
  induction ws generalizing root root' with
  | nil => exact h
  | cons w ws ih =>
      obtain ⟨e, ⟨hid, _⟩, hpath, hnode⟩ := hws w List.mem_cons_self
      refine ih (fun v hv => hws v (List.mem_cons_of_mem w hv)) ?_
      rw [storedAnswer_apply hid hpath hnode, storedAnswer_apply hid hpath hnode, h]

omit [DecidableEq C] in
/-- A client that is not busy sees the stored answers. -/
theorem seenAnswer_of_not_busy {s : EventsSystem C} (h : Sound ref s) {c : C}
    (hc : ¬ s.Busy ref k c) (player : String) :
    s.seenAnswer ref k player c = storedAnswer ref k player s.db.store :=
  storedAnswer_foldl (h.db.pending c) (fun w hw hp => hc ⟨w, hw, hp⟩) player s.db.store

/-- With every other client idle, a client sees the answers that are due. -/
theorem InTurn.seen_of_others {initial : String → Option Bool} {s : EventsSystem C}
    (h : InTurn ref k initial s) {c : C} (hothers : ∀ d, d ≠ c → ¬ s.Busy ref k d)
    (player : String) : s.seenAnswer ref k player c = s.dueAnswer initial k player := by
  by_cases hc : s.Busy ref k c
  · exact h.seen c hc player
  · rw [seenAnswer_of_not_busy h.sound hc]
    refine h.idle (fun d => ?_) player
    by_cases hd : d = c
    · exact hd ▸ hc
    · exact hothers d hd

theorem lastSwipe_cons (swipe : Swipe) (swipes : List Swipe) (k player : String) :
    lastSwipe (swipe :: swipes) k player =
      if swipe.event = k ∧ swipe.player = player then some swipe.available
      else lastSwipe swipes k player := by
  unfold lastSwipe
  rw [List.find?_cons]
  by_cases h : swipe.event = k ∧ swipe.player = player
  · simp [h]
  · simp [h]

theorem busy_issue {s s' : EventsSystem C} {c : C} {w : Write} (hdb : s'.db = s.db.issue c w)
    (d : C) : s'.Busy ref k d ↔ s.Busy ref k d ∨ d = c ∧ w.path = ref ++ [k] := by
  unfold Busy
  rw [hdb, Replica.issue_pending]
  split_ifs with hd
  · subst hd
    simp only [List.mem_append, List.mem_singleton, true_and]
    constructor
    · rintro ⟨v, hv | rfl, hpath⟩
      · exact Or.inl ⟨v, hv, hpath⟩
      · exact Or.inr hpath
    · rintro (⟨v, hv, hpath⟩ | hpath)
      · exact ⟨v, Or.inl hv, hpath⟩
      · exact ⟨w, Or.inr rfl, hpath⟩
  · simp [hd]

/-- What an issued event changes in what a client sees of `k`. -/
theorem seenAnswer_issue {s s' : EventsSystem C} {c : C} {w : Write} {e : Event}
    (hdb : s'.db = s.db.issue c w) (hkey : isPushKey e.id = true) (hpath : w.path = ref ++ [e.id])
    (hnode : e.node = .ok w.node) (d : C) (player : String) :
    s'.seenAnswer ref k player d =
      if d = c ∧ e.id = k then e.answer player else s.seenAnswer ref k player d := by
  unfold seenAnswer
  rw [hdb, Replica.issue_store]
  by_cases hd : d = c
  · subst hd
    rw [Replica.overlay_issue, storedAnswer_apply hkey hpath hnode]
    simp only [true_and]
  · rw [Replica.overlay_issue_of_ne Write.apply hd, if_neg fun h => hd h.1]

/-- An issued event that is not `k` changes nothing. -/
theorem InTurn.issue_other {initial : String → Option Bool} {s s' : EventsSystem C}
    (h : InTurn ref k initial s) (hsound : Sound ref s') (hknown : k ∈ s'.created.map Event.id)
    {c : C} {w : Write} {e : Event} (hdb : s'.db = s.db.issue c w) (hkey : isPushKey e.id = true)
    (hpath : w.path = ref ++ [e.id]) (hnode : e.node = .ok w.node) (hne : e.id ≠ k)
    (hdue : s'.dueAnswer initial k = s.dueAnswer initial k) : InTurn ref k initial s' := by
  have hw : w.path ≠ ref ++ [k] := by
    rw [hpath]
    exact fun he => hne (List.singleton_inj.1 (List.append_cancel_left he))
  have hbusy : ∀ d, s'.Busy ref k d ↔ s.Busy ref k d := by
    intro d
    rw [busy_issue hdb]
    exact or_iff_left fun hd => hw hd.2
  refine ⟨hsound, hknown, fun c d hc hd => h.one c d ((hbusy c).1 hc) ((hbusy d).1 hd),
    fun d hd player => ?_, fun hidle player => ?_⟩
  · rw [seenAnswer_issue hdb hkey hpath hnode, if_neg fun hd => hne hd.2, hdue]
    exact h.seen d ((hbusy d).1 hd) player
  · rw [hdb, Replica.issue_store, hdue]
    exact h.idle (fun d hd => hidle d ((hbusy d).2 hd)) player

/-- A swipe on `k` taken in turn. -/
theorem InTurn.issue_swipe {initial : String → Option Bool} {s s' : EventsSystem C}
    (h : InTurn ref k initial s) (hsound : Sound ref s') (hknown : k ∈ s'.created.map Event.id)
    {c : C} {w : Write} {e : Event} {uid : String} {available : Bool}
    (hdb : s'.db = s.db.issue c w) (hid : e.id = k) (hkey : isPushKey e.id = true)
    (hpath : w.path = ref ++ [(e.answering uid available).id])
    (hnode : (e.answering uid available).node = .ok w.node)
    (hswipes : s'.swipes = ⟨e.id, uid, available⟩ :: s.swipes)
    (hothers : ∀ d, d ≠ c → ¬ s.Busy ref k d)
    (hcopy : ∀ player, player ≠ uid → e.answer player = s.seenAnswer ref k player c) :
    InTurn ref k initial s' := by
  have hbusy : ∀ d, s'.Busy ref k d → d = c := by
    intro d hd
    by_contra hne
    rcases (busy_issue hdb d).1 hd with hd | ⟨hd, _⟩
    · exact hothers d hne hd
    · exact hne hd
  have hc : s'.Busy ref k c := (busy_issue hdb c).2 (Or.inr ⟨rfl, hid ▸ hpath⟩)
  refine ⟨hsound, hknown, fun d d' hd hd' => (hbusy d hd).trans (hbusy d' hd').symm,
    fun d hd player => ?_, fun hidle => absurd hc (hidle c)⟩
  obtain rfl := hbusy d hd
  rw [seenAnswer_issue (e := e.answering uid available) hdb hkey hpath hnode, if_pos ⟨rfl, hid⟩,
    Event.answer_answering, dueAnswer, hswipes, lastSwipe_cons]
  by_cases hp : player = uid
  · rw [if_pos hp, if_pos ⟨hid, hp.symm⟩, Option.some_or]
  · rw [if_neg hp, if_neg fun hu => hp hu.2.symm, hcopy player hp, h.seen_of_others hothers, dueAnswer]

/-- The database applies a write. -/
theorem InTurn.commit {initial : String → Option Bool} {s : EventsSystem C}
    (h : InTurn ref k initial s) {c : C} {db : Replica C Node Write}
    (hdb : s.db.commit Write.apply c = some db) (hsound : Sound ref { s with db := db }) :
    InTurn ref k initial { s with db := db } := by
  obtain ⟨w, ws, hc, rfl⟩ := (Replica.commit_eq_some Write.apply).1 hdb
  obtain ⟨e, ⟨hkey, _⟩, hpath, hnode⟩ := h.sound.db.pending c w (hc ▸ List.mem_cons_self)
  set s' : EventsSystem C := { s with
    db := ⟨w.apply s.db.store, w.apply s.db.store :: s.db.past,
      Function.update s.db.pending c ws⟩ } with hs'
  have hpending : ∀ d, d ≠ c → s'.db.pending d = s.db.pending d := fun d hd =>
    Function.update_of_ne hd ws s.db.pending
  have hpending_c : s'.db.pending c = ws := Function.update_self c ws s.db.pending
  have hbusy : ∀ d, s'.Busy ref k d → s.Busy ref k d := by
    rintro d ⟨v, hv, hp⟩
    by_cases hd : d = c
    · subst hd
      rw [hpending_c] at hv
      exact ⟨v, hc ▸ List.mem_cons_of_mem w hv, hp⟩
    · exact ⟨v, hpending d hd ▸ hv, hp⟩
  have hseen_c : ∀ player, s'.seenAnswer ref k player c = s.seenAnswer ref k player c :=
    fun player =>
      congrArg (storedAnswer ref k player) (Replica.overlay_commit Write.apply hc _)
  by_cases hk : e.id = k
  · -- the write is one of `k`, so `c` is the busy client
    have hbusy_c : s.Busy ref k c := ⟨w, hc ▸ List.mem_cons_self, hk ▸ hpath⟩
    refine ⟨hsound, h.known, fun d d' hd hd' => h.one d d' (hbusy d hd) (hbusy d' hd'),
      fun d hd player => ?_, fun hidle player => ?_⟩
    · obtain rfl := h.one c d hbusy_c (hbusy d hd)
      exact (hseen_c player).trans (h.seen c hbusy_c player)
    · rw [← seenAnswer_of_not_busy hsound (hidle c), hseen_c]
      exact h.seen c hbusy_c player
  · -- the write is one of another event, and the answers to `k` stay
    have hstored : ∀ player, storedAnswer ref k player s'.db.store =
        storedAnswer ref k player s.db.store := fun player => by
      rw [hs', storedAnswer_apply hkey hpath hnode, if_neg hk]
    refine ⟨hsound, h.known, fun d d' hd hd' => h.one d d' (hbusy d hd) (hbusy d' hd'),
      fun d hd player => ?_, fun hidle player => ?_⟩
    · by_cases hdc : d = c
      · subst hdc
        exact (hseen_c player).trans (h.seen d (hbusy d hd) player)
      · have hsame : s'.seenAnswer ref k player d = s.seenAnswer ref k player d := by
          unfold seenAnswer Replica.overlay
          rw [hpending d hdc]
          exact storedAnswer_foldl_congr (h.sound.db.pending d) (hstored player)
        exact hsame.trans (h.seen d (hbusy d hd) player)
    · rw [hstored]
      refine h.idle (fun d hd => ?_) player
      obtain ⟨v, hv, hp⟩ := hd
      by_cases hdc : d = c
      · subst hdc
        rw [hc] at hv
        rcases List.mem_cons.1 hv with rfl | hv
        · exact hk (List.singleton_inj.1 (List.append_cancel_left (hpath.symm.trans hp)))
        · exact hidle d ⟨v, hpending_c ▸ hv, hp⟩
      · exact hidle d ⟨v, (hpending d hdc).symm ▸ hv, hp⟩

/-- **A step taken in turn loses no answer.** -/
theorem InTurn.step {initial : String → Option Bool} {s s' : EventsSystem C}
    {a : EventsAction C} (h : InTurn ref k initial s) (hturn : s.TakesTurn ref k a)
    (hs : s.step locale a = some s') : InTurn ref k initial s' := by
  have hsound := h.sound.step hs
  cases a with
  | addEvent c uid event key pool =>
      obtain ⟨hkey, hfresh, w, vc, hw, hvc, rfl⟩ := step_addEvent.1 hs
      have hne : key ≠ k := fun he => hfresh (he ▸ h.known)
      obtain ⟨hpath, hnode⟩ := updateEvent_path (e := { event with id := key }) hkey (h.sound.ref c) hw
      exact h.issue_other hsound (List.mem_cons_of_mem _ h.known) rfl hkey hpath hnode hne rfl
  | swipe c uid available row =>
      obtain ⟨cell, e, w, hcell, he, hw, vc, hvc, rfl⟩ := step_swipe.1 hs
      have htraced := (h.sound.copy c e (Or.inr ⟨cell, he⟩)).answering uid available
      obtain ⟨hpath, hnode⟩ := updateEvent_path htraced.1 (h.sound.ref c) hw
      by_cases hk : e.id = k
      · obtain ⟨hothers, hcopy⟩ := hturn cell e hcell he hk
        exact h.issue_swipe hsound h.known rfl hk htraced.1 hpath hnode rfl hothers hcopy
      · refine h.issue_other hsound h.known rfl htraced.1 hpath hnode hk (funext fun player => ?_)
        rw [dueAnswer, lastSwipe_cons, if_neg fun hu => hk hu.1]
        rfl
  | cellForRow c uid row dequeued =>
      obtain ⟨vc, _, rfl⟩ := step_cellForRow.1 hs
      exact ⟨hsound, h.known, h.one, h.seen, h.idle⟩
  | commit c =>
      obtain ⟨db, hdb, rfl⟩ := step_commit.1 hs
      exact h.commit hdb hsound
  | deliver c uid i now pool =>
      obtain ⟨root, vc, _, _, rfl⟩ := step_deliver.1 hs
      exact ⟨hsound, h.known, h.one, h.seen, h.idle⟩

/-! ### Runs -/

section Begins

variable {s₀ : EventsSystem C} (h : Begins ref k s₀)

include h

omit [DecidableEq C] in
theorem Begins.known : k ∈ s₀.created.map Event.id := by
  obtain ⟨child, hchild, rfl⟩ := List.mem_map.1 h.stored
  obtain ⟨e, ⟨_, e₀, he₀, hid, _⟩, hchild_id, _⟩ := h.sound.db.store.child child hchild
  exact List.mem_map.2 ⟨e₀, he₀, hid.trans hchild_id⟩

omit [DecidableEq C] in
theorem Begins.answered : Answered ref k (s₀.db.store :: s₀.db.past) s₀ where
  sound := h.sound
  known := h.known
  db :=
    { store := fun _ => Or.inl ⟨s₀.db.store, List.mem_cons_self, rfl⟩
      past := fun root hroot _ => Or.inl ⟨root, List.mem_cons_of_mem _ hroot, rfl⟩
      pending := fun c w hw => absurd (h.pending c ▸ hw) List.not_mem_nil }
  copy := by
    intro c e he hid player
    obtain ⟨root, hroot, hanswer⟩ := h.copy c e he hid
    exact Or.inl ⟨root, hroot, (hanswer player).symm⟩

omit [DecidableEq C] in
theorem Begins.inTurn :
    InTurn ref k (fun player => storedAnswer ref k player s₀.db.store) s₀ := by
  have hidle : ∀ c, ¬ s₀.Busy ref k c := by
    rintro c ⟨w, hw, _⟩
    exact absurd (h.pending c ▸ hw) List.not_mem_nil
  refine ⟨h.sound, h.known, fun c _ hc _ => absurd hc (hidle c), fun c hc => absurd hc (hidle c),
    fun _ player => ?_⟩
  rw [dueAnswer, h.swipes]
  rfl

end Begins

/-- **What becomes of the answers to an event.**  In every run every stored
answer of a player is one the player gave in the run or one that was stored for
the player in some earlier value.  Where all swipes on the event are made in
turn, no answer is lost: once all writes are applied, each player who swiped has
the last answer given, and each other player the one of the beginning. -/
theorem answers_kept_in_turn (locale : C → Locale) (ref : FPath) (k : String)
    (s₀ : EventsSystem C) (h : Begins ref k s₀) (as : List (EventsAction C)) (t : EventsSystem C)
    (ht : Run.exec (step locale) s₀ as = some t) :
    (∀ player, Attested ref k (s₀.db.store :: s₀.db.past) t.swipes player
      (storedAnswer ref k player t.db.store)) ∧
    (Run.Guarded (step locale) (TakesTurn ref k) s₀ as → (∀ c, t.db.pending c = []) →
      NoAnswerLost ref k s₀ t) := by
  constructor
  · have hanswered : Answered ref k (s₀.db.store :: s₀.db.past) t :=
      Run.exec_invariant' (fun _ _ _ hs hstep => Answered.step hs hstep) h.answered ht
    exact hanswered.db.store
  · intro hguarded hpending
    have hturn : InTurn ref k (fun player => storedAnswer ref k player s₀.db.store) t :=
      Run.exec_invariant (fun _ _ _ hs hG hstep => InTurn.step hs hG hstep) h.inTurn hguarded ht
    refine hturn.idle fun c hc => ?_
    obtain ⟨w, hw, _⟩ := hc
    exact absurd (hpending c ▸ hw) List.not_mem_nil

/-! ### A lost answer -/

/-- A database with one event, and clients that have just opened the screen. -/
def solo (ref : FPath) (e : Event) (n : Node) : EventsSystem C where
  db := Replica.start ((⟨ref ++ [e.id], n⟩ : Write).apply .empty)
  client := fun _ => .opened ref
  created := [e]
  swipes := []

omit [DecidableEq C] in
theorem begins_solo {e : Event} {n : Node} (hid : isPushKey e.id = true) (hn : e.node = .ok n) :
    Begins ref e.id (solo ref e n : EventsSystem C) := by
  have htraced : Traced [e] e := ⟨hid, e, List.mem_singleton_self e, rfl, rfl⟩
  have hempty : Stored ref [e] .empty :=
    ⟨by rw [Node.getChild_empty]; exact .empty, fun child hchild => by
      rw [Node.getChild_empty] at hchild
      exact absurd hchild List.not_mem_nil⟩
  have hwritten : Written ref [e] ⟨ref ++ [e.id], n⟩ := ⟨e, htraced, rfl, hn⟩
  have hno : ∀ (c : C) e', ¬ ((solo ref e n : EventsSystem C).client c).Copy e' := fun _ e' =>
    EventsViewController.not_copy_opened ref e'
  have hne := Event.isEmpty_of_node hn
  refine ⟨⟨Replica.Holds.start (hwritten.apply _ _ hempty), fun _ => rfl,
    fun c e' he' => absurd he' (hno c e'), List.nodup_singleton _⟩, ?_, fun _ => rfl, rfl,
    fun c e' he' => absurd he' (hno c e')⟩
  change e.id ∈ (((⟨ref ++ [e.id], n⟩ : Write).apply .empty).getChild ref).keys
  rw [Write.getChild_apply ref [e.id] (Or.inl hne)]
  exact (Node.mem_keys_updateChild hne (tryParseStringToInt_of_isPushKey hid)).2 (Or.inl rfl)

/-- Two clients read the same snapshot, each answers, and the database applies
the two writes. -/
def race : List (EventsAction Bool) :=
  [.deliver false "ann" 0 (fun _ => 50) (.refl ℕ), .deliver true "bob" 0 (fun _ => 50) (.refl ℕ),
    .swipe false "ann" true 0, .swipe true "bob" false 0, .commit false, .commit true]

/-- **A lost answer.**  The second write to be applied was made from a copy
without the first player's answer, and the answer is gone. -/
theorem lost_answer :
    Begins ["Teams", "T", "Events"] Event.storedDerby.id
        (solo ["Teams", "T", "Events"] Event.storedDerby Event.derbyNode : EventsSystem Bool) ∧
      ∃ t, Run.exec (step fun _ => someLocale)
          (solo ["Teams", "T", "Events"] Event.storedDerby Event.derbyNode) race = some t ∧
        (∀ c, t.db.pending c = []) ∧
        ¬ NoAnswerLost ["Teams", "T", "Events"] Event.storedDerby.id
          (solo ["Teams", "T", "Events"] Event.storedDerby Event.derbyNode) t := by
  refine ⟨begins_solo (by decide) Event.storedDerby_node, ?_⟩
  have hrun : (Run.exec (step fun _ => someLocale)
      (solo ["Teams", "T", "Events"] Event.storedDerby Event.derbyNode) race).map (fun t =>
        (lastSwipe t.swipes Event.storedDerby.id "ann",
          storedAnswer ["Teams", "T", "Events"] Event.storedDerby.id "ann" t.db.store,
          (t.db.pending false).length, (t.db.pending true).length)) =
      some (some true, none, 0, 0) := by
    decide +kernel
  obtain ⟨t, ht, heq⟩ := Option.map_eq_some_iff.1 hrun
  simp only [Prod.mk.injEq, List.length_eq_zero_iff] at heq
  obtain ⟨hswipe, hstored, hfalse, htrue⟩ := heq
  refine ⟨t, ht, fun c => by cases c <;> assumption, fun hlost => ?_⟩
  have hann := hlost "ann"
  rw [hswipe, hstored] at hann
  exact nomatch hann

/-- A swipe on what a screen that was empty has just been shown of the present
value is made in turn, as long as no other client has a write on its way. -/
theorem takesTurn_deliver {s s' : EventsSystem C} (hsound : Sound ref s)
    (hpast : s.db.past[0]? = some s.db.store) {c : C}
    (hnew : ∀ e, ¬ (s.client c).Copy e) (hothers : ∀ d, d ≠ c → s.db.pending d = [])
    {uid uid' : String} {now : ℕ → Date} {pool : ℕ ↪ ℕ} {available : Bool} {row : ℕ}
    (hs : s.step locale (.deliver c uid 0 now pool) = some s') :
    s'.TakesTurn ref k (.swipe c uid' available row) := by
  obtain ⟨root, vc, hroot, hvc, rfl⟩ := step_deliver.1 hs
  have hstored := hsound.db.snapshot Written.apply hroot
  obtain ⟨root', hroot', rfl⟩ := (Replica.snapshot_eq_some Write.apply).1 hroot
  obtain rfl := Option.some.inj (hpast.symm.trans hroot')
  intro cell e _ he hid
  refine ⟨fun d hd hbusy => ?_, fun player _ => ?_⟩
  · obtain ⟨w, hw, _⟩ := hbusy
    exact absurd (hothers d hd ▸ hw) List.not_mem_nil
  · -- the screen was empty, so the copy in the cell comes from the snapshot
    have hcopy : vc.Copy e := Or.inr ⟨cell, Function.update_self c vc s.client ▸ he⟩
    rcases EventsViewController.copy_fetchEvents hvc hcopy with hold | ⟨child, hchild, hdec⟩
    · exact absurd hold (hnew e)
    · rw [hsound.ref c] at hchild
      rw [hstored.answer hchild hdec, hid]
      rfl

/-- Two clients one after the other: the second one reads the event after the
first one's write is applied. -/
def turns : List (EventsAction Bool) :=
  [.deliver false "ann" 0 (fun _ => 50) (.refl ℕ), .swipe false "ann" true 0, .commit false,
    .deliver true "bob" 0 (fun _ => 50) (.refl ℕ), .swipe true "bob" false 0, .commit true]

/-- Two clients that take turns: both answers are stored. -/
theorem answers_kept_in_turn_turns :
    ∃ t, Run.exec (step fun _ => someLocale)
        (solo ["Teams", "T", "Events"] Event.storedDerby Event.derbyNode) turns = some t ∧
      NoAnswerLost ["Teams", "T", "Events"] Event.storedDerby.id
        (solo ["Teams", "T", "Events"] Event.storedDerby Event.derbyNode) t ∧
      lastSwipe t.swipes Event.storedDerby.id "ann" = some true ∧
      lastSwipe t.swipes Event.storedDerby.id "bob" = some false := by
  have hbegins : Begins ["Teams", "T", "Events"] Event.storedDerby.id
      (solo ["Teams", "T", "Events"] Event.storedDerby Event.derbyNode : EventsSystem Bool) :=
    begins_solo (by decide) Event.storedDerby_node
  have hrun : (Run.exec (step fun _ => someLocale)
      (solo ["Teams", "T", "Events"] Event.storedDerby Event.derbyNode) turns).map (fun t =>
        (lastSwipe t.swipes Event.storedDerby.id "ann", lastSwipe t.swipes Event.storedDerby.id "bob",
          (t.db.pending false).length, (t.db.pending true).length)) =
      some (some true, some false, 0, 0) := by
    decide +kernel
  obtain ⟨t, ht, heq⟩ := Option.map_eq_some_iff.1 hrun
  simp only [Prod.mk.injEq, List.length_eq_zero_iff] at heq
  obtain ⟨hann, hbob, hfalse, htrue⟩ := heq
  refine ⟨t, ht, (answers_kept_in_turn _ _ _ _ hbegins _ t ht).2 ?_ fun c => by
    cases c <;> assumption, hann, hbob⟩
  refine ⟨trivial, fun s₁ hs₁ => ⟨takesTurn_deliver hbegins.sound rfl
    (EventsViewController.not_copy_opened _) (fun d _ => hbegins.pending d) hs₁, fun s₂ hs₂ =>
      ⟨trivial, fun s₃ hs₃ => ⟨trivial, fun s₄ hs₄ => ⟨?_, fun s₅ _ => ⟨trivial, fun s₆ _ => trivial⟩⟩⟩⟩⟩⟩
  have hsound₃ := ((hbegins.sound.step hs₁).step hs₂).step hs₃
  obtain ⟨root, vc, _, _, rfl⟩ := step_deliver.1 hs₁
  obtain ⟨cell, e, w, _, _, _, vc', _, rfl⟩ := step_swipe.1 hs₂
  obtain ⟨db, hdb, rfl⟩ := step_commit.1 hs₃
  obtain ⟨v, ws, hv, rfl⟩ := (Replica.commit_eq_some Write.apply).1 hdb
  refine takesTurn_deliver hsound₃ rfl (fun e he => ?_) (fun d hd => ?_) hs₄
  · dsimp only at he
    rw [Function.update_of_ne (by decide), Function.update_of_ne (by decide)] at he
    exact EventsViewController.not_copy_opened _ e he
  · obtain rfl : d = false := Bool.eq_false_of_not_eq_true hd
    dsimp only
    rw [Function.update_self]
    exact (List.cons.inj hv).2.symm

end EventsSystem
end Teamstuff
