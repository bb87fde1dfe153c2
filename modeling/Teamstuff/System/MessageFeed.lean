/-
# The order of the message feed

Every client stamps a message with its own clock and stores it under a push key made from
its estimate of the server time.  The feed is the children in key order, turned round, and
shows the stamps.

The keys are in the order of the numbers they spell, so the feed goes by the stamps exactly
when the stamps go by these numbers (`newestFirst_iff`).  A message keeps it so exactly
when it is `InTurn` with those already stored: when its client's clock stands to their
stamps as its estimate of the server time stands to theirs.  Clocks that show the server
time do, one message a millisecond (`newest_first_of_serverTime`).
-/

import Teamstuff.Controller.TeamViewController
import Teamstuff.Firebase.PushId
import Teamstuff.Library.Run

namespace Teamstuff

/-- A message that a client posts: what its user wrote, the readings of its clock and of
its estimate of the server time, and the random numbers it draws. -/
structure Post where
  client : ℕ
  message : String
  displayName : String
  uid : String
  now : Date
  serverTime : ℚ
  arc4random : RandChars

/-- The message that is stored. -/
def Post.model (p : Post) : Message :=
  TeamViewController.unwindToMessages p.message p.displayName p.uid p.now

/-- A message that is stored, and the statics of `FNextPushId` its key was made of. -/
structure Posted where
  message : Message
  pushId : FNextPushId

/-- The clients' push keys, the database, and the messages posted so far with their keys,
the last one first. -/
structure MessageFeed where
  clients : ℕ → FNextPushId
  root : Node
  posted : List (String × Posted)

/-- A client posts a message, and a client's app is launched anew. -/
inductive FeedAction
  | post (p : Post)
  | launch (client : ℕ)

namespace MessageFeed

/-- Nothing is posted, and no app has made a key. -/
def start (root : Node) : MessageFeed := ⟨fun _ => .launched, root, []⟩

/-- `unwindToMessages` of one client, whose write the database applies; `none` where it
ends the app. -/
def post (p : Post) (vc : TeamViewController) (s : MessageFeed) : Option MessageFeed :=
  ((s.clients p.client).get p.serverTime p.arc4random).bind fun (key, pushId) =>
    (vc.addMessage p.model key).toOption.map fun w =>
      { clients := Function.update s.clients p.client pushId
        root := w.apply s.root
        posted := (key, ⟨p.model, pushId⟩) :: s.posted }

/-- One step of the clients of a team. -/
def step (vc : TeamViewController) (s : MessageFeed) : FeedAction → Option MessageFeed
  | .post p => s.post p vc
  | .launch client => some { s with clients := Function.update s.clients client .launched }

/-- The random part a post will have: drawn, or counted up from that of the client's last
post, if this was in the same millisecond and the app was not launched since. -/
def randNumber (p : Post) (s : MessageFeed) : ℕ :=
  (s.clients p.client).randNumber p.serverTime p.arc4random

/-- **Newest first.**  Whatever of the stored messages a snapshot has, after
`fetchMessages` the screen has each message of the snapshot once, and none stands below one
with an earlier date. -/
def NewestFirst (vc : TeamViewController) (s : MessageFeed) : Prop :=
  ∀ snapshot : Node, snapshot.Valid →
    (∀ child ∈ snapshot.childList, child ∈ (s.root.getChild vc.ref).childList) →
    List.Forall₂ (fun child m => (s.posted.lookup child.1).map Posted.message = some m)
      snapshot.childList
      (vc.fetchMessages Message.decode snapshot).messages.reverse ∧
    (vc.fetchMessages Message.decode snapshot).messages.Pairwise
      fun m m' => m'.postDate ≤ m.postDate

/-- The dates of the messages go by the numbers of their keys. -/
def InOrder (s : MessageFeed) : Prop :=
  ∀ k q k' q', s.posted.lookup k = some q → s.posted.lookup k' = some q' →
    pushNumber k < pushNumber k' → q.message.postDate ≤ q'.message.postDate

/-- **A clock that agrees with the server time** on a stored message and a post: posted at
an estimate of a later millisecond, it shows no earlier date, and at one of an earlier
millisecond no later date; in the same millisecond the random parts decide. -/
structure Agrees (q : Posted) (p : Post) (rand : ℕ) : Prop where
  later : timeNumber q.pushId.lastPushTime < timeNumber (milliseconds p.serverTime) →
    q.message.postDate ≤ p.now
  earlier : timeNumber (milliseconds p.serverTime) < timeNumber q.pushId.lastPushTime →
    p.now ≤ q.message.postDate
  same : timeNumber q.pushId.lastPushTime = timeNumber (milliseconds p.serverTime) →
    (q.pushId.lastRandChars.number < rand → q.message.postDate ≤ p.now) ∧
    (rand < q.pushId.lastRandChars.number → p.now ≤ q.message.postDate)

/-- **A post in turn**: the client's clock agrees with the server time on all the messages
stored. -/
def InTurn (s : MessageFeed) : FeedAction → Prop
  | .post p => ∀ k q, s.posted.lookup k = some q → Agrees q p (s.randNumber p)
  | .launch _ => True

variable {vc : TeamViewController} {s s' : MessageFeed}

/-- **What a post does**: the message is stored under the next push key of the client. -/
theorem post_eq_some {p : Post} (h : s.post p vc = some s') : ∃ pushId n,
    isPushKey (FNextPushId.key pushId) = true ∧
    pushId.lastPushTime = milliseconds p.serverTime ∧
    pushId.lastRandChars.number = s.randNumber p ∧
    n.Valid ∧ n.isEmpty = false ∧ Message.decode n.val = .ok p.model ∧
    s' = { clients := Function.update s.clients p.client pushId
           root := s.root.updateChild (vc.ref ++ [pushId.key]) n
           posted := (pushId.key, ⟨p.model, pushId⟩) :: s.posted } := by
  obtain ⟨⟨key, pushId⟩, hget, h⟩ := Option.bind_eq_some_iff.1 h
  obtain ⟨w, hw, rfl⟩ := Option.map_eq_some_iff.1 h
  obtain ⟨pushId', hadvance, hpair⟩ := Option.map_eq_some_iff.1 hget
  obtain ⟨rfl, rfl⟩ := Prod.mk.inj hpair
  have hkey := FNextPushId.isPushKey_key pushId'
  obtain ⟨path, hpath, hw⟩ := Except.bind_eq_ok.1 (Except.toOption_eq_some.1 hw)
  rw [FPath.child_of_isValidKey _ (isValidKey_of_isPushKey hkey)] at hpath
  obtain rfl := Except.ok.inj hpath
  obtain ⟨n, hn, rfl⟩ := FPath.setValueInternal_eq_ok.1 hw
  obtain ⟨hnode, hne, hdecode⟩ := Message.node_of_nodeFrom hn
  obtain ⟨htime, hrand⟩ := FNextPushId.advance_spec hadvance
  exact ⟨pushId', n, hkey, htime, hrand, hnode, hne, hdecode, rfl⟩

/-- **The invariant**: below the reference there are the posted messages, under push keys. -/
structure Sound (vc : TeamViewController) (s : MessageFeed) : Prop where
  valid : (s.root.getChild vc.ref).Valid
  stored : ∀ child ∈ (s.root.getChild vc.ref).childList, isPushKey child.1 = true ∧
    ∃ q, Message.decode child.2.val = .ok q.message ∧ s.posted.lookup child.1 = some q
  kept : ∀ k q, s.posted.lookup k = some q →
    k = q.pushId.key ∧ ∃ n, (k, n) ∈ (s.root.getChild vc.ref).childList

theorem Sound.start {root : Node} (hempty : (root.getChild vc.ref).isEmpty = true) :
    Sound vc (MessageFeed.start root) := by
  have hroot : (MessageFeed.start root).root.getChild vc.ref = .empty := Node.eq_empty_of_isEmpty hempty
  refine ⟨hroot ▸ Node.WFIn.empty, fun child hchild => ?_, fun _ _ hnone => nomatch hnone⟩
  rw [hroot] at hchild
  exact absurd hchild List.not_mem_nil

theorem Sound.post (h : Sound vc s) {p : Post} (hstep : s.post p vc = some s') : Sound vc s' := by
  obtain ⟨pushId, n, hkey, _, _, hnode, hne, hdecode, rfl⟩ := post_eq_some hstep
  have hvalid := isValidKey_of_isPushKey hkey
  have hroot : (s.root.updateChild (vc.ref ++ [pushId.key]) n).getChild vc.ref =
      (s.root.getChild vc.ref).updateChild [pushId.key] n :=
    Node.getChild_updateChild_append vc.ref [pushId.key] (Or.inl hne)
  have hmem : ∀ {child : String × Node},
      child ∈ ((s.root.getChild vc.ref).updateChild [pushId.key] n).childList ↔
        child = (pushId.key, n) ∨ child.1 ≠ pushId.key ∧ child ∈ (s.root.getChild vc.ref).childList := by
    intro child
    rw [Node.mem_childList_updateChild_iff h.valid hne, and_comm]
    refine or_congr_right (and_congr_left fun _ => not_congr ?_)
    exact (compareKey_eq_eq_iff_of_none (tryParseStringToInt_of_isPushKey hkey)).trans eq_comm
  refine ⟨?_, fun child hchild => ?_, fun k q hlookup => ?_⟩
  · rw [hroot]
    exact h.valid.updateChild hnode fun k hk => (List.mem_singleton.1 hk) ▸ hvalid
  · rw [hroot] at hchild
    dsimp only
    rw [Assoc.lookup_cons_eq_if]
    rcases hmem.1 hchild with rfl | ⟨hother, hchild⟩
    · exact ⟨hkey, ⟨p.model, pushId⟩, hdecode, if_pos rfl⟩
    · rw [if_neg hother]
      exact h.stored child hchild
  · dsimp only at hlookup ⊢
    rw [Assoc.lookup_cons_eq_if] at hlookup
    rw [hroot]
    split_ifs at hlookup with hk
    · obtain rfl := Option.some.inj hlookup
      exact ⟨hk, n, hmem.2 (Or.inl (by rw [hk]))⟩
    · obtain ⟨hname, n', hn'⟩ := h.kept k q hlookup
      exact ⟨hname, n', hmem.2 (Or.inr ⟨hk, hn'⟩)⟩

theorem Sound.step (h : Sound vc s) {a : FeedAction} (hstep : s.step vc a = some s') :
    Sound vc s' := by
  cases a with
  | post p => exact h.post hstep
  | launch client =>
      obtain rfl := Option.some.inj hstep
      exact ⟨h.valid, h.stored, h.kept⟩

/-- The message a child holds. -/
def messageOf (s : MessageFeed) (child : String × Node) : Message :=
  ((s.posted.lookup child.1).map Posted.message).getD ⟨"", "", "", 0⟩

theorem Sound.lookup (h : Sound vc s) {child : String × Node}
    (hchild : child ∈ (s.root.getChild vc.ref).childList) :
    (s.posted.lookup child.1).map Posted.message = some (s.messageOf child) := by
  obtain ⟨_, q, _, hlookup⟩ := h.stored child hchild
  rw [messageOf, hlookup, Option.map_some, Option.getD_some]

/-- The screen after a snapshot. -/
theorem Sound.fetchMessages (h : Sound vc s) {snapshot : Node}
    (hsub : ∀ child ∈ snapshot.childList, child ∈ (s.root.getChild vc.ref).childList) :
    (vc.fetchMessages Message.decode snapshot).messages =
      (snapshot.childList.map s.messageOf).reverse := by
  have hdecode : decodeChildren Message.decode snapshot = .ok (snapshot.childList.map s.messageOf) := by
    refine Except.mapM_eq_ok.2 ?_
    rw [List.map_map]
    refine List.map_congr_left fun child hchild => ?_
    obtain ⟨_, q, hm, hlookup⟩ := h.stored child (hsub child hchild)
    rw [hm, Function.comp_apply, messageOf, hlookup, Option.map_some, Option.getD_some]
  unfold TeamViewController.fetchMessages
  rw [hdecode]

/-- The children of a snapshot go by the numbers of their keys. -/
theorem Sound.pairwise_pushNumber (h : Sound vc s) {snapshot : Node} (hsnapshot : snapshot.Valid)
    (hsub : ∀ child ∈ snapshot.childList, child ∈ (s.root.getChild vc.ref).childList) :
    snapshot.childList.Pairwise fun c c' => pushNumber c.1 < pushNumber c'.1 := by
  refine List.Pairwise.imp_of_mem (fun {c c'} hc hc' hlt => ?_) hsnapshot.sorted_childList
  exact (compareKey_lt_iff (h.stored c (hsub c hc)).1 (h.stored c' (hsub c' hc')).1).1 hlt

/-- **The feed goes by the stamps exactly when these go by the keys.** -/
theorem Sound.newestFirst_iff (h : Sound vc s) : NewestFirst vc s ↔ InOrder s := by
  constructor
  · intro hnewest k q k' q' hk hk' hnumber
    obtain ⟨_, n, hn⟩ := h.kept k q hk
    obtain ⟨_, n', hn'⟩ := h.kept k' q' hk'
    have hdates := (hnewest _ h.valid fun _ hchild => hchild).2
    rw [h.fetchMessages fun _ hchild => hchild, List.pairwise_reverse, List.pairwise_map] at hdates
    have hpair := hdates.and (h.pairwise_pushNumber h.valid fun _ hchild => hchild)
    have hlookup := h.lookup hn
    have hlookup' := h.lookup hn'
    rw [hk, Option.map_some, Option.some.injEq] at hlookup
    rw [hk', Option.map_some, Option.some.injEq] at hlookup'
    obtain ⟨i, hi, heq⟩ := List.getElem_of_mem hn
    obtain ⟨j, hj, heq'⟩ := List.getElem_of_mem hn'
    rcases lt_trichotomy i j with hij | rfl | hij
    · have hdate := (List.pairwise_iff_getElem.1 hpair i j hi hj hij).1
      rwa [heq, heq', ← hlookup, ← hlookup'] at hdate
    · rw [(Prod.mk.inj (heq.symm.trans heq')).1] at hnumber
      exact absurd hnumber (lt_irrefl _)
    · have hback := (List.pairwise_iff_getElem.1 hpair j i hj hi hij).2
      rw [heq, heq'] at hback
      exact absurd hback (lt_asymm hnumber)
  · intro horder snapshot hsnapshot hsub
    rw [h.fetchMessages hsub, List.reverse_reverse, List.pairwise_reverse, List.pairwise_map]
    refine ⟨List.forall₂_map_right_iff.2 (List.forall₂_same.2 fun child hchild =>
      h.lookup (hsub child hchild)), ?_⟩
    refine (h.pairwise_pushNumber hsnapshot hsub).imp_of_mem fun {c c'} hc hc' hnumber => ?_
    obtain ⟨q, hq, hmessage⟩ := Option.map_eq_some_iff.1 (h.lookup (hsub c hc))
    obtain ⟨q', hq', hmessage'⟩ := Option.map_eq_some_iff.1 (h.lookup (hsub c' hc'))
    rw [← hmessage, ← hmessage']
    exact horder _ _ _ _ hq hq' hnumber

/-- A clock agrees with the server time when its date stands to that of the message as the
numbers of the keys do. -/
theorem agrees_iff {q : Posted} {p : Post} {pushId : FNextPushId}
    (htime : pushId.lastPushTime = milliseconds p.serverTime) :
    Agrees q p pushId.lastRandChars.number ↔
      (q.pushId.stamp < pushId.stamp → q.message.postDate ≤ p.now) ∧
      (pushId.stamp < q.pushId.stamp → p.now ≤ q.message.postDate) := by
  rw [FNextPushId.stamp_lt_stamp_iff, FNextPushId.stamp_lt_stamp_iff, htime]
  constructor
  · intro h
    refine ⟨fun hlt => ?_, fun hlt => ?_⟩
    · exact hlt.elim h.later fun hsame => (h.same hsame.1).1 hsame.2
    · exact hlt.elim h.earlier fun hsame => (h.same hsame.1.symm).2 hsame.2
  · intro h
    exact ⟨fun hlt => h.1 (Or.inl hlt), fun hlt => h.2 (Or.inl hlt), fun heq =>
      ⟨fun hlt => h.1 (Or.inr ⟨heq, hlt⟩), fun hlt => h.2 (Or.inr ⟨heq.symm, hlt⟩)⟩⟩

/-- **A post keeps the messages in order exactly when it is in turn.** -/
theorem InOrder.post_iff (hsound : Sound vc s) (h : InOrder s) {p : Post}
    (hstep : s.post p vc = some s') : InOrder s' ↔ s.InTurn (.post p) := by
  obtain ⟨pushId, n, _, htime, hrand, _, _, _, rfl⟩ := post_eq_some hstep
  have hlookup : ∀ k, ((pushId.key, (⟨p.model, pushId⟩ : Posted)) :: s.posted).lookup k =
      if k = pushId.key then some ⟨p.model, pushId⟩ else s.posted.lookup k := fun k =>
    Assoc.lookup_cons_eq_if k pushId.key ⟨p.model, pushId⟩ s.posted
  have hturn : s.InTurn (.post p) ↔ ∀ k q, s.posted.lookup k = some q →
      (pushNumber k < pushNumber pushId.key → q.message.postDate ≤ p.now) ∧
      (pushNumber pushId.key < pushNumber k → p.now ≤ q.message.postDate) := by
    refine forall₃_congr fun k q hk => ?_
    rw [(hsound.kept k q hk).1, FNextPushId.pushNumber_key, FNextPushId.pushNumber_key, ← hrand]
    exact agrees_iff htime
  rw [hturn]
  constructor
  · intro horder k q hk
    refine ⟨fun hlt => ?_, fun hlt => ?_⟩
    · have hne : k ≠ pushId.key := fun heq => lt_irrefl _ (heq ▸ hlt)
      exact horder k q pushId.key ⟨p.model, pushId⟩ ((hlookup k).trans ((if_neg hne).trans hk))
        ((hlookup _).trans (if_pos rfl)) hlt
    · have hne : k ≠ pushId.key := fun heq => lt_irrefl _ (heq ▸ hlt)
      exact horder pushId.key ⟨p.model, pushId⟩ k q ((hlookup _).trans (if_pos rfl))
        ((hlookup k).trans ((if_neg hne).trans hk)) hlt
  · intro hturn k q k' q' hk hk' hlt
    dsimp only at hk hk'
    rw [hlookup] at hk hk'
    split_ifs at hk hk' with hkey hkey' hkey'
    · rw [hkey, hkey'] at hlt
      exact absurd hlt (lt_irrefl _)
    · obtain rfl := Option.some.inj hk
      exact (hturn k' q' hk').2 (hkey ▸ hlt)
    · obtain rfl := Option.some.inj hk'
      exact (hturn k q hk).1 (hkey' ▸ hlt)
    · exact h k q k' q' hk hk' hlt

/-- **The feed is newest first exactly as long as every message is posted in turn.**  Any
number of clients post in any order, each with any reading of its clock and any estimate of
the server time. -/
theorem newest_first_iff (vc : TeamViewController) (root : Node)
    (hempty : (root.getChild vc.ref).isEmpty = true) (as : List FeedAction) :
    Run.Always (step vc) (NewestFirst vc) (start root) as ↔
      Run.Guarded (step vc) (fun s a => (s.step vc a).isSome = true → s.InTurn a) (start root) as := by
  have hsound : Sound vc (start root) := .start hempty
  have hstart : NewestFirst vc (start root) :=
    hsound.newestFirst_iff.2 fun _ _ _ _ hnone => nomatch hnone
  refine Run.always_iff_guarded (Q := fun _ => True) (fun s a s' _ h _ hstep _ => h.step hstep)
    (fun s a _ h hP => ?_) hsound hstart fun _ _ => trivial
  have horder := h.newestFirst_iff.1 hP
  constructor
  · intro hG s' hstep
    refine (h.step hstep).newestFirst_iff.2 ?_
    cases a with
    | post p => exact (horder.post_iff h hstep).2 (hG (Option.isSome_of_eq_some hstep))
    | launch client =>
        obtain rfl := Option.some.inj hstep
        exact horder
  · intro hsafe hsome
    obtain ⟨s', hstep⟩ := Option.isSome_iff_exists.1 hsome
    cases a with
    | post p => exact (horder.post_iff h hstep).1 ((h.step hstep).newestFirst_iff.1 (hsafe s' hstep))
    | launch client => trivial

/-! ### Clocks that show the server time -/

/-- The client's clock shows its estimate of the server time, but for an offset all clients
share, and no message stored is of the same millisecond. -/
def OnServerTime (offset : ℚ) (s : MessageFeed) : FeedAction → Prop
  | .post p => p.now = p.serverTime + offset ∧ 0 ≤ p.serverTime ∧
      milliseconds p.serverTime < 64 ^ 8 ∧
      ∀ k q, s.posted.lookup k = some q → q.pushId.lastPushTime ≠ milliseconds p.serverTime
  | .launch _ => True

/-- Each message stored has the date of the estimate its key was made of. -/
def Timed (offset : ℚ) (s : MessageFeed) : Prop :=
  ∀ k q, s.posted.lookup k = some q → 0 ≤ q.message.postDate - offset ∧
    q.pushId.lastPushTime = milliseconds (q.message.postDate - offset) ∧
    q.pushId.lastPushTime < 64 ^ 8

theorem Timed.inTurn {offset : ℚ} (h : Timed offset s) {p : Post}
    (ha : s.OnServerTime offset (.post p)) : s.InTurn (.post p) := by
  obtain ⟨hnow, hpos, hlt, hother⟩ := ha
  intro k q hk
  obtain ⟨hdate, htime, hfits⟩ := h k q hk
  have hne := hother k q hk
  have hq := timeNumber_of_lt (htime ▸ milliseconds_nonneg hdate) hfits
  have hp := timeNumber_of_lt (milliseconds_nonneg hpos) hlt
  refine ⟨fun hlater => ?_, fun hearlier => ?_, fun hsame => absurd ?_ hne⟩
  · by_contra hback
    have hback := milliseconds_le_milliseconds hpos
      (show p.serverTime ≤ q.message.postDate - offset by linarith)
    omega
  · by_contra hback
    have hback := milliseconds_le_milliseconds hdate
      (show q.message.postDate - offset ≤ p.serverTime by linarith)
    omega
  · omega

theorem Timed.step {offset : ℚ} (h : Timed offset s) {a : FeedAction}
    (ha : s.OnServerTime offset a) (hstep : s.step vc a = some s') : Timed offset s' := by
  cases a with
  | post p =>
      obtain ⟨pushId, n, _, htime, _, _, _, _, rfl⟩ := post_eq_some hstep
      obtain ⟨hnow, hpos, hlt, _⟩ := ha
      have hdate : p.model.postDate - offset = p.serverTime := by
        rw [show p.model.postDate = p.now from rfl, hnow, add_sub_cancel_right]
      intro k q hk
      dsimp only at hk
      rw [Assoc.lookup_cons_eq_if] at hk
      split_ifs at hk
      · obtain rfl := Option.some.inj hk
        dsimp only
        rw [hdate]
        exact ⟨hpos, htime, htime ▸ hlt⟩
      · exact h k q hk
  | launch client =>
      obtain rfl := Option.some.inj hstep
      exact h

/-- **Clients whose clocks show the server time have their messages newest first**, as long
as no two are posted in one millisecond. -/
theorem newest_first_of_serverTime (vc : TeamViewController) (offset : ℚ) (root : Node)
    (hempty : (root.getChild vc.ref).isEmpty = true) (as : List FeedAction)
    (hguarded : Run.Guarded (step vc) (OnServerTime offset) (start root) as) :
    Run.Always (step vc) (NewestFirst vc) (start root) as := by
  refine Run.always_of_guarded (I := fun s => Sound vc s ∧ InOrder s ∧ Timed offset s)
    (fun s a s' ⟨hsound, horder, htimed⟩ ha hstep =>
      ⟨hsound.step hstep, ?_, htimed.step ha hstep⟩)
    (fun s ⟨hsound, horder, _⟩ => hsound.newestFirst_iff.2 horder)
    ⟨.start hempty, fun _ _ _ _ hnone => (nomatch hnone), fun _ _ hnone => nomatch hnone⟩ hguarded
  cases a with
  | post p => exact (horder.post_iff hsound hstep).2 (htimed.inTurn ha)
  | launch client =>
      obtain rfl := Option.some.inj hstep
      exact horder

/-! ### Two clients -/

/-- The screen of team `T1`. -/
def messagesOfT1 : TeamViewController := ⟨["Teams", "T1", "Messages"], []⟩

/-- A client says hello at a server time, with a clock that shows `now`. -/
def hello (client : ℕ) (now : Date) (serverTime : ℚ) : Post :=
  ⟨client, "hello", "Ann", "ann", now, serverTime, .const ⟨0, by decide⟩⟩

/-- Two clients whose clocks are right greet each other. -/
theorem newest_first_iff_hello : Run.Always (step messagesOfT1) (NewestFirst messagesOfT1)
    (start .empty) [.post (hello 0 1000 1000), .post (hello 1 1001 1001)] := by
  refine (newest_first_iff messagesOfT1 .empty (by decide +kernel) _).2
    ⟨fun _ k q hnone => (nomatch hnone), fun s hs => ⟨fun _ k q hk => ?_, fun _ _ => trivial⟩⟩
  obtain ⟨pushId, _, _, htime, _, _, _, _, rfl⟩ := post_eq_some hs
  rw [Assoc.lookup_cons_eq_if] at hk
  split_ifs at hk with hkey
  · obtain rfl := Option.some.inj hk
    have hlater : timeNumber (milliseconds 1000) < timeNumber (milliseconds 1001) := by decide +kernel
    have htime : pushId.lastPushTime = milliseconds 1000 := htime
    have hnow : (1000 : Date) ≤ 1001 := by decide +kernel
    refine ⟨fun _ => hnow, fun hlt => absurd (htime ▸ hlt) hlater.not_gt,
      fun heq => absurd (htime ▸ heq) hlater.ne⟩
  · exact nomatch hk

/-- **A clock that is an hour fast.**  The message it stamps was posted first and stands
below the other one, with the later date. -/
theorem fast_clock_below : ∃ s, Run.exec (step messagesOfT1) (start .empty)
      [.post (hello 0 4600 1000), .post (hello 1 1001 1001)] = some s ∧
    ((messagesOfT1.fetchMessages Message.decode (s.root.getChild messagesOfT1.ref)).messages.map
      Message.postDate) = [1001, 4600] ∧
    ¬ NewestFirst messagesOfT1 s := by
  have hrun : ((Run.exec (step messagesOfT1) (start .empty)
      [.post (hello 0 4600 1000), .post (hello 1 1001 1001)]).map fun s =>
        (messagesOfT1.fetchMessages Message.decode (s.root.getChild messagesOfT1.ref)).messages.map
          Message.postDate) = some [1001, 4600] := by
    decide +kernel
  obtain ⟨s, hs, hdates⟩ := Option.map_eq_some_iff.1 hrun
  have hsound : Sound messagesOfT1 s :=
    Run.exec_invariant' (fun s a s' h => h.step) (Sound.start (by decide +kernel)) hs
  refine ⟨s, hs, hdates, fun hnewest => ?_⟩
  have hpairwise : ((messagesOfT1.fetchMessages Message.decode
      (s.root.getChild messagesOfT1.ref)).messages.map Message.postDate).Pairwise (fun d d' => d' ≤ d) :=
    List.pairwise_map.2 (hnewest _ hsound.valid fun _ hchild => hchild).2
  rw [hdates] at hpairwise
  exact absurd hpairwise (by decide +kernel)

end MessageFeed

end Teamstuff
