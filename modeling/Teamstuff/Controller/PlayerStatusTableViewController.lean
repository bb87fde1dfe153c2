/-
# The table of players who come and who do not

`PlayerStatusTableViewController.swift`, `SectionData` of `Extensions.swift`, and the
`prepare` of `EventDetailViewController.swift` that hands the table its ids.

The ids come from the `playerStatus` of one event, the names from the `Users` node: the
callback of `fetchPlayers` walks over all users and keeps the names of those whose id is
in one of the two lists, and it catches the error of each record by itself.  The sections
are built when they are first asked for and kept until they are thrown away.

`contains` compares strings as Swift does, by canonical equivalence, while the database
keeps keys apart that differ in any character: two children of `Users` may be the same id
to the table.

`fetchedPlayers_eq` is the specification of the loop, `mySections_fst` that of the cache.
-/

import Teamstuff.Model.Records
import Teamstuff.Controller.EventDetailViewController
import Mathlib.Data.List.Pairwise

namespace Teamstuff

/-- `SectionData`. -/
structure SectionData where
  title : String
  data : List String
deriving DecidableEq, Repr

namespace SectionData

def numberOfItems (sectionData : SectionData) : ℕ := sectionData.data.length

/-- `subscript(index:)`; `none` where the index is out of bounds. -/
def get? (sectionData : SectionData) (index : ℕ) : Option String := sectionData.data[index]?

end SectionData

/-- `PlayerStatusTableViewController`. -/
structure PlayerStatusTableViewController where
  ref : Option FPath
  availablePlayersId : List String
  notAvailablePlayersId : List String
  availablePlayersName : List String
  notAvailablePlayersName : List String
  _mySections : Option (List SectionData)
deriving DecidableEq

/-- The order in which a dictionary hands out its keys, which Swift leaves open. -/
structure DictionaryOrder where
  keys : PlayerStatus → List String
  perm : ∀ status, (keys status).Perm status.keys

/-- The keys in their alphabetical order. -/
def DictionaryOrder.sorted : DictionaryOrder := ⟨fun status => status.keys, fun _ => .refl _⟩

/-- `==` on Swift's strings, which goes by canonical equivalence.  Of the tables of Unicode
only that it is an equivalence is used. -/
structure StringEquality where
  eq : String → String → Bool
  refl : ∀ s, eq s s = true
  symm : ∀ s t, eq s t = eq t s
  trans : ∀ s t u, eq s t = true → eq t u = true → eq s u = true

namespace StringEquality

/-- Equality character by character, as it is on ASCII strings. -/
def literal : StringEquality where
  eq := fun s t => s == t
  refl := fun s => beq_self_eq_true s
  symm := fun _ _ => Bool.beq_comm
  trans := fun _ _ _ hst htu => by rw [eq_of_beq hst]; exact htu

/-- `contains` on an array. -/
def contains (swift : StringEquality) (strings : List String) (s : String) : Bool :=
  strings.any fun t => swift.eq t s

/-- Strings no two of which are the same to Swift. -/
def Apart (swift : StringEquality) (strings : List String) : Prop :=
  strings.Pairwise fun s t => swift.eq s t = false

/-- Of strings that are told apart, equal ones are the same. -/
theorem Apart.eq_of_eq {swift : StringEquality} {strings : List String} (h : swift.Apart strings)
    {s t : String} (hs : s ∈ strings) (ht : t ∈ strings) (heq : swift.eq s t = true) : s = t := by
  by_contra hne
  have hsymm : Std.Symm fun s t => swift.eq s t = false :=
    ⟨fun s t hst => (swift.symm t s).trans hst⟩
  exact Bool.false_ne_true ((h.forall hs ht hne).symm.trans heq)

/-- Of strings that are apart at most one is a given string. -/
theorem Apart.countP_eq {swift : StringEquality} {strings : List String} (h : swift.Apart strings)
    (s : String) :
    strings.countP (fun t => swift.eq t s) = if swift.contains strings s = true then 1 else 0 := by
  induction strings with
  | nil => rfl
  | cons t ts ih =>
      obtain ⟨ht, hts⟩ := List.pairwise_cons.1 h
      rw [List.countP_cons, ih hts]
      by_cases heq : swift.eq t s = true
      · have hnone : swift.contains ts s = false := by
          refine List.any_eq_false.2 fun t' ht' heq' => ?_
          have hsame := swift.trans t s t' heq ((swift.symm s t').trans heq')
          exact Bool.false_ne_true ((ht t' ht').symm.trans hsame)
        simp [contains, heq, show ts.any (fun t => swift.eq t s) = false from hnone]
      · simp [contains, heq]

end StringEquality

/-- `playerStatus?[uid]`. -/
def Event.status (swift : StringEquality) (event : Event) (uid : String) : Option Bool :=
  event.playerStatus.bind fun status =>
    (status.toList.find? fun entry => swift.eq entry.1 uid).map Prod.snd

/-- The keys of a Swift dictionary: no two are the same to Swift. -/
def Event.KeysApart (swift : StringEquality) (event : Event) : Prop :=
  ∀ status, event.playerStatus = some status → swift.Apart status.keys

/-- The ids with an answer. -/
def Event.answered (event : Event) (available : Bool) : List String :=
  match event.playerStatus with
  | some status => (status.filter fun _ value => value == available).keys
  | none => []

namespace PlayerStatusTableViewController

/-- The controller as the storyboard makes it. -/
def made : PlayerStatusTableViewController where
  ref := none
  availablePlayersId := []
  notAvailablePlayersId := []
  availablePlayersName := []
  notAvailablePlayersName := []
  _mySections := none

/-- The sections `mySections` builds. -/
def built (vc : PlayerStatusTableViewController) : List SectionData :=
  let titleAvailable := "Available (" ++ toString vc.availablePlayersId.length ++ ")"
  let titleNotAvailable := "Not available (" ++ toString vc.notAvailablePlayersId.length ++ ")"
  [⟨titleAvailable, vc.availablePlayersName⟩, ⟨titleNotAvailable, vc.notAvailablePlayersName⟩]

/-- `mySections`, which keeps what it builds. -/
def mySections (vc : PlayerStatusTableViewController) :
    List SectionData × PlayerStatusTableViewController :=
  match vc._mySections with
  | some sections => (sections, vc)
  | none => (vc.built, { vc with _mySections := some vc.built })

/-- `viewDidLoad`, up to `fetchPlayers`. -/
def viewDidLoad (vc : PlayerStatusTableViewController) : PlayerStatusTableViewController :=
  { vc with ref := some [] }

/-- The node `fetchPlayers` observes. -/
def fetchPlayers (vc : PlayerStatusTableViewController) : Option FPath :=
  vc.ref.bind fun ref => (ref.child "Users").toOption

/-- `viewWillAppear`, up to the reload. -/
def viewWillAppear (vc : PlayerStatusTableViewController) : PlayerStatusTableViewController :=
  { vc with _mySections := none }

/-- One round of the loop in the callback of `fetchPlayers`. -/
def fetchPlayer {ε : Type} (decode : Value → Except ε User) (swift : StringEquality)
    (vc : PlayerStatusTableViewController) (names : List String × List String)
    (child : String × Node) : List String × List String :=
  if swift.contains vc.availablePlayersId child.1 then
    match decode child.2.val with
    | .ok model => (names.1 ++ [model.name], names.2)
    | .error _ => names
  else if swift.contains vc.notAvailablePlayersId child.1 then
    match decode child.2.val with
    | .ok model => (names.1, names.2 ++ [model.name])
    | .error _ => names
  else names

/-- The callback of `fetchPlayers`, up to the reload. -/
def fetchedPlayers {ε : Type} (decode : Value → Except ε User) (swift : StringEquality)
    (snapshot : Node) (vc : PlayerStatusTableViewController) : PlayerStatusTableViewController :=
  let names := snapshot.childList.foldl (fetchPlayer decode swift vc) ([], [])
  { vc with
    availablePlayersName := names.1
    notAvailablePlayersName := names.2
    _mySections := none }

/-- `numberOfSections(in:)`. -/
def numberOfSections (vc : PlayerStatusTableViewController) :
    ℕ × PlayerStatusTableViewController :=
  (vc.mySections.1.length, vc.mySections.2)

/-- `tableView(_:titleForHeaderInSection:)`; `none` where the index is out of bounds, here
and below. -/
def titleForHeader (inSection : ℕ) (vc : PlayerStatusTableViewController) :
    Option (String × PlayerStatusTableViewController) :=
  vc.mySections.1[inSection]?.map fun sectionData => (sectionData.title, vc.mySections.2)

/-- `tableView(_:numberOfRowsInSection:)`. -/
def numberOfRows (inSection : ℕ) (vc : PlayerStatusTableViewController) :
    Option (ℕ × PlayerStatusTableViewController) :=
  vc.mySections.1[inSection]?.map fun sectionData => (sectionData.numberOfItems, vc.mySections.2)

/-- `tableView(_:cellForRowAt:)`, the text of the cell. -/
def cellForRow (inSection row : ℕ) (vc : PlayerStatusTableViewController) :
    Option (String × PlayerStatusTableViewController) :=
  vc.mySections.1[inSection]?.bind fun sectionData =>
    (sectionData.get? row).map fun cellTitle => (cellTitle, vc.mySections.2)

end PlayerStatusTableViewController

/-- `prepare(for:sender:)` for the segue that embeds the table; `none` without an event. -/
def EventDetailViewController.prepare (order : DictionaryOrder)
    (destination : PlayerStatusTableViewController) (vc : EventDetailViewController) :
    Option PlayerStatusTableViewController :=
  vc.event.map fun event =>
    match event.playerStatus with
    | some status =>
        { destination with
          availablePlayersId := order.keys (status.filter fun _ value => value == true)
          notAvailablePlayersId := order.keys (status.filter fun _ value => value == false) }
    | none => destination

/-! ### The ids -/

namespace DictionaryOrder

variable (order : DictionaryOrder) (status : PlayerStatus) (available : Bool)

/-- The players with an answer. -/
theorem mem_keys_filter (id : String) :
    id ∈ order.keys (status.filter fun _ value => value == available) ↔
      status[id]? = some available := by
  rw [(order.perm _).mem_iff, Std.ExtTreeMap.mem_keys, Std.ExtTreeMap.mem_iff_isSome_getElem?,
    Std.ExtTreeMap.getElem?_filter']
  cases status[id]? with
  | none => simp
  | some b => cases b <;> cases available <;> simp

/-- No player is there twice. -/
theorem nodup_keys_filter :
    (order.keys (status.filter fun _ value => value == available)).Nodup :=
  (order.perm _).nodup_iff.2 Std.ExtTreeMap.nodup_keys

end DictionaryOrder

namespace Event

variable (event : Event) {available : Bool}

/-- The players who have answered so. -/
theorem mem_answered {id : String} :
    id ∈ event.answered available ↔ event.answer id = some available := by
  unfold answered answer
  cases event.playerStatus with
  | none => simp
  | some status => exact DictionaryOrder.mem_keys_filter .sorted status available id

/-- No player is there twice. -/
theorem nodup_answered : (event.answered available).Nodup := by
  unfold answered
  cases event.playerStatus with
  | none => exact List.nodup_nil
  | some status => exact DictionaryOrder.nodup_keys_filter .sorted status available

end Event

/-- The table holds each id with an answer once, in the list of its answer. -/
structure HoldsIds (event : Event) (vc : PlayerStatusTableViewController) : Prop where
  available : ∀ id, id ∈ vc.availablePlayersId ↔ event.answer id = some true
  notAvailable : ∀ id, id ∈ vc.notAvailablePlayersId ↔ event.answer id = some false
  nodup : vc.availablePlayersId.Nodup
  nodup' : vc.notAvailablePlayersId.Nodup

/-- The players who come. -/
theorem HoldsIds.perm {event : Event} {vc : PlayerStatusTableViewController}
    (h : HoldsIds event vc) : vc.availablePlayersId.Perm (event.answered true) :=
  (List.perm_ext_iff_of_nodup h.nodup event.nodup_answered).2 fun id =>
    (h.available id).trans event.mem_answered.symm

/-- The players who do not. -/
theorem HoldsIds.perm' {event : Event} {vc : PlayerStatusTableViewController}
    (h : HoldsIds event vc) : vc.notAvailablePlayersId.Perm (event.answered false) :=
  (List.perm_ext_iff_of_nodup h.nodup' event.nodup_answered).2 fun id =>
    (h.notAvailable id).trans event.mem_answered.symm

/-- The ids are all that is looked at. -/
theorem HoldsIds.congr {event : Event} {vc vc' : PlayerStatusTableViewController}
    (h : HoldsIds event vc) (hids : vc'.availablePlayersId = vc.availablePlayersId)
    (hids' : vc'.notAvailablePlayersId = vc.notAvailablePlayersId) : HoldsIds event vc' where
  available := hids ▸ h.available
  notAvailable := hids' ▸ h.notAvailable
  nodup := hids ▸ h.nodup
  nodup' := hids' ▸ h.nodup'

/-- What `prepare` hands to a table without ids; with no `playerStatus` there are none. -/
theorem EventDetailViewController.prepare_spec (order : DictionaryOrder) {event : Event}
    (vc : EventDetailViewController) (h : vc.event = some event)
    (destination : PlayerStatusTableViewController) (hids : destination.availablePlayersId = [])
    (hids' : destination.notAvailablePlayersId = []) :
    ∃ ids ids', vc.prepare order destination = some { destination with
        availablePlayersId := ids, notAvailablePlayersId := ids' } ∧
      HoldsIds event { destination with
        availablePlayersId := ids, notAvailablePlayersId := ids' } := by
  unfold prepare
  rw [h, Option.map_some]
  cases hs : event.playerStatus with
  | none =>
      have hanswer : ∀ id, event.answer id = none := fun id => by rw [Event.answer, hs]; rfl
      refine ⟨destination.availablePlayersId, destination.notAvailablePlayersId, rfl,
        ⟨fun id => ?_, fun id => ?_, ?_, ?_⟩⟩
      · simp [hids, hanswer]
      · simp [hids', hanswer]
      · simp only [hids, List.nodup_nil]
      · simp only [hids', List.nodup_nil]
  | some status =>
      have hanswer : ∀ id, event.answer id = status[id]? := fun id => by
        rw [Event.answer, hs, Option.bind_some]
      refine ⟨_, _, rfl, ⟨fun id => ?_, fun id => ?_, order.nodup_keys_filter status true,
        order.nodup_keys_filter status false⟩⟩
      · rw [hanswer]
        exact order.mem_keys_filter status true id
      · rw [hanswer]
        exact order.mem_keys_filter status false id

/-! ### The status of a user -/

section Status

variable {swift : StringEquality} {event : Event}

/-- With its keys apart, the dictionary has one entry for a user or none. -/
theorem Event.status_eq_some (h : event.KeysApart swift) {uid : String} {available : Bool} :
    event.status swift uid = some available ↔
      ∃ id, event.answer id = some available ∧ swift.eq id uid = true := by
  unfold status answer
  cases hs : event.playerStatus with
  | none => simp only [Option.bind_none, reduceCtorEq, false_and, exists_false]
  | some status =>
      simp only [Option.bind_some]
      constructor
      · intro hfind
        obtain ⟨entry, hentry, rfl⟩ := Option.map_eq_some_iff.1 hfind
        exact ⟨entry.1,
          Std.ExtTreeMap.mem_toList_iff_getElem?_eq_some.1 (List.mem_of_find?_eq_some hentry),
          List.find?_some (p := fun entry : String × Bool => swift.eq entry.1 uid) hentry⟩
      · rintro ⟨id, hid, heq⟩
        have hmem : (id, available) ∈ status.toList :=
          Std.ExtTreeMap.mem_toList_iff_getElem?_eq_some.2 hid
        cases hfind : status.toList.find? fun entry => swift.eq entry.1 uid with
        | none => exact absurd heq (by simpa using List.find?_eq_none.1 hfind _ hmem)
        | some entry =>
            have hentry := Std.ExtTreeMap.mem_toList_iff_getElem?_eq_some.1
              (List.mem_of_find?_eq_some hfind)
            have hfound : swift.eq entry.1 uid = true :=
              List.find?_some (p := fun entry : String × Bool => swift.eq entry.1 uid) hfind
            -- both keys are the id of the user, and so one and the same
            have hkey : entry.1 = id := (h status hs).eq_of_eq
              (Std.ExtTreeMap.mem_keys.2 (Std.ExtTreeMap.mem_iff_isSome_getElem?.2
                (Option.isSome_of_eq_some hentry)))
              (Std.ExtTreeMap.mem_keys.2 (Std.ExtTreeMap.mem_iff_isSome_getElem?.2
                (Option.isSome_of_eq_some hid)))
              (swift.trans _ _ _ hfound ((swift.symm uid id).trans heq))
            rw [Option.map_some, ← hid, ← hkey, hentry]

/-- The players who have answered are told apart. -/
theorem Event.KeysApart.answered (h : event.KeysApart swift) (available : Bool) :
    swift.Apart (event.answered available) := by
  unfold Event.answered
  cases hs : event.playerStatus with
  | none => exact List.Pairwise.nil
  | some status =>
      refine (DictionaryOrder.nodup_keys_filter .sorted status available).pairwise_of_forall_ne
        fun id hid id' hid' hne => ?_
      have hmem : ∀ id ∈ (status.filter fun _ value => value == available).keys, id ∈ status.keys :=
        fun id hid => Std.ExtTreeMap.mem_keys.2
          (Std.ExtTreeMap.mem_of_mem_filter (Std.ExtTreeMap.mem_keys.1 hid))
      exact Bool.eq_false_of_not_eq_true fun heq =>
        hne ((h status hs).eq_of_eq (hmem id hid) (hmem id' hid') heq)

/-- The ids of a list that has those with an answer. -/
theorem StringEquality.contains_iff (h : event.KeysApart swift) {ids : List String}
    {available : Bool} (hids : ∀ id, id ∈ ids ↔ event.answer id = some available) (uid : String) :
    swift.contains ids uid = true ↔ event.status swift uid = some available := by
  rw [contains, List.any_eq_true, Event.status_eq_some h]
  simp only [hids]

end Status

/-! ### The names -/

/-- The users with that answer whose record decodes, in the order of the children. -/
def listed {ε : Type} (decode : Value → Except ε User) (swift : StringEquality) (event : Event)
    (available : Bool) (children : List (String × Node)) : List (String × User) :=
  children.filterMap fun child =>
    if event.status swift child.1 = some available then
      (decode child.2.val).toOption.map fun user => (child.1, user)
    else none

section Listed

variable {ε : Type} {decode : Value → Except ε User} {swift : StringEquality} {event : Event}
  {available : Bool}

/-- One list of children after the other. -/
theorem listed_append (children children' : List (String × Node)) :
    listed decode swift event available (children ++ children') =
      listed decode swift event available children ++ listed decode swift event available children' :=
  List.filterMap_append

/-- Who is listed: a user who decodes, under an id with that answer. -/
theorem mem_listed {children : List (String × Node)} {id : String} {user : User} :
    (id, user) ∈ listed decode swift event available children ↔
      event.status swift id = some available ∧ ∃ n, (id, n) ∈ children ∧ decode n.val = .ok user := by
  unfold listed
  rw [List.mem_filterMap]
  constructor
  · rintro ⟨⟨id', n⟩, hmem, hchild⟩
    split_ifs at hchild with hanswer
    obtain ⟨user', huser, hpair⟩ := Option.map_eq_some_iff.1 hchild
    obtain ⟨rfl, rfl⟩ := Prod.mk.inj hpair
    exact ⟨hanswer, n, hmem, Except.toOption_eq_some.1 huser⟩
  · rintro ⟨hanswer, n, hmem, huser⟩
    refine ⟨(id, n), hmem, ?_⟩
    rw [if_pos hanswer, huser]
    rfl

/-- The users of a section stand in the order of the snapshot. -/
theorem listed_sublist (children : List (String × Node)) :
    ((listed decode swift event available children).map Prod.fst).Sublist (children.map Prod.fst) := by
  induction children with
  | nil => exact .slnil
  | cons child children ih =>
      unfold listed at ih ⊢
      rw [List.filterMap_cons]
      split
      · exact ih.cons _
      · next h =>
          split_ifs at h
          obtain ⟨_, _, rfl⟩ := Option.map_eq_some_iff.1 h
          exact ih.cons_cons _

/-- Who is listed has given the answer. -/
theorem answer_of_mem_listed {children : List (String × Node)} {id : String}
    (h : id ∈ (listed decode swift event available children).map Prod.fst) :
    event.status swift id = some available := by
  obtain ⟨⟨id', user⟩, hmem, rfl⟩ := List.mem_map.1 h
  exact (mem_listed.1 hmem).1

/-- Nobody is in both sections. -/
theorem disjoint_listed (children : List (String × Node)) :
    ((listed decode swift event true children).map Prod.fst).Disjoint
      ((listed decode swift event false children).map Prod.fst) := by
  intro id htrue hfalse
  have hanswer := (answer_of_mem_listed htrue).symm.trans (answer_of_mem_listed hfalse)
  exact absurd (Option.some.inj hanswer) Bool.noConfusion

end Listed

namespace PlayerStatusTableViewController

/-- One child of the snapshot, which no more than one of the lists gets. -/
theorem fetchPlayer_eq {ε : Type} (decode : Value → Except ε User) {swift : StringEquality}
    {event : Event} (hkeys : event.KeysApart swift) {vc : PlayerStatusTableViewController}
    (h : HoldsIds event vc) (names : List String × List String) (child : String × Node) :
    fetchPlayer decode swift vc names child =
      (names.1 ++ (listed decode swift event true [child]).map fun entry => entry.2.name,
       names.2 ++ (listed decode swift event false [child]).map fun entry => entry.2.name) := by
  unfold fetchPlayer listed
  simp only [StringEquality.contains_iff hkeys h.available,
    StringEquality.contains_iff hkeys h.notAvailable, List.filterMap_cons, List.filterMap_nil]
  cases hstatus : event.status swift child.1 with
  | none => simp
  | some b => cases b <;> cases decode child.2.val <;> simp [Except.toOption]

/-- **What the callback of `fetchPlayers` leaves.**  A user whose record does not decode is
left out, and only that user. -/
theorem fetchedPlayers_eq {ε : Type} (decode : Value → Except ε User) {swift : StringEquality}
    {event : Event} (hkeys : event.KeysApart swift) {vc : PlayerStatusTableViewController}
    (h : HoldsIds event vc) (snapshot : Node) :
    vc.fetchedPlayers decode swift snapshot = { vc with
      availablePlayersName :=
        (listed decode swift event true snapshot.childList).map fun entry => entry.2.name
      notAvailablePlayersName :=
        (listed decode swift event false snapshot.childList).map fun entry => entry.2.name
      _mySections := none } := by
  have hloop : ∀ (children : List (String × Node)) (names : List String × List String),
      children.foldl (fetchPlayer decode swift vc) names =
        (names.1 ++ (listed decode swift event true children).map fun entry => entry.2.name,
         names.2 ++ (listed decode swift event false children).map fun entry => entry.2.name) := by
    intro children
    induction children with
    | nil => exact fun names => by simp [listed]
    | cons child children ih =>
        intro names
        have hcons : ∀ available, listed decode swift event available (child :: children) =
            listed decode swift event available [child] ++ listed decode swift event available children :=
          fun available => listed_append [child] children
        rw [List.foldl_cons, ih, fetchPlayer_eq decode hkeys h, hcons, hcons]
        simp only [List.map_append, List.append_assoc]
  unfold fetchedPlayers
  simp only [hloop, List.nil_append]

/-- The name arrays, section by section. -/
def names (vc : PlayerStatusTableViewController) : List (List String) :=
  [vc.availablePlayersName, vc.notAvailablePlayersName]

/-- The sections kept are not older than the name arrays. -/
def NamesCurrent (vc : PlayerStatusTableViewController) : Prop :=
  ∀ sections, vc._mySections = some sections → sections.map SectionData.data = vc.names

/-- The sections kept are those that would be built now, titles included. -/
def CacheCurrent (vc : PlayerStatusTableViewController) : Prop :=
  ∀ sections, vc._mySections = some sections → sections = vc.built

/-- The sections are built of the names. -/
theorem map_data_built (vc : PlayerStatusTableViewController) :
    vc.built.map SectionData.data = vc.names := rfl

/-- **Asking for the sections** changes nothing but what is kept of them, and what is kept
is as current as it was. -/
theorem mySections_spec (vc : PlayerStatusTableViewController) :
    ∃ sections, vc.mySections = (sections, { vc with _mySections := some sections }) ∧
      (vc.NamesCurrent → sections.map SectionData.data = vc.names) ∧
      (vc.CacheCurrent → sections = vc.built) := by
  obtain ⟨ref, ids, ids', availableNames, notAvailableNames, cache⟩ := vc
  cases cache with
  | none => exact ⟨_, rfl, fun _ => map_data_built _, fun _ => rfl⟩
  | some sections => exact ⟨sections, rfl, fun h => h sections rfl, fun h => h sections rfl⟩

/-- Building the sections changes no names. -/
theorem names_mySections (vc : PlayerStatusTableViewController) :
    vc.mySections.2.names = vc.names := by
  obtain ⟨sections, hsections, _⟩ := vc.mySections_spec
  rw [hsections]
  rfl

/-- Where the names are current, a section has as many rows as there are names. -/
theorem numberOfRows_fst {vc : PlayerStatusTableViewController} (h : vc.NamesCurrent)
    (inSection : ℕ) :
    (vc.numberOfRows inSection).map Prod.fst = vc.names[inSection]?.map List.length := by
  obtain ⟨sections, hsections, hnames, _⟩ := vc.mySections_spec
  rw [numberOfRows, hsections, ← hnames h, List.getElem?_map, Option.map_map, Option.map_map]
  rfl

/-- Where the names are current, a row has the name at its place. -/
theorem cellForRow_fst {vc : PlayerStatusTableViewController} (h : vc.NamesCurrent)
    (inSection row : ℕ) :
    (vc.cellForRow inSection row).map Prod.fst = vc.names[inSection]?.bind fun data => data[row]? := by
  obtain ⟨sections, hsections, hnames, _⟩ := vc.mySections_spec
  rw [cellForRow, hsections, ← hnames h, List.getElem?_map]
  cases sections[inSection]? with
  | none => rfl
  | some sectionData =>
      simp only [Option.bind_some, Option.map_some, SectionData.get?, Option.map_map]
      exact Option.map_id_apply

end PlayerStatusTableViewController

end Teamstuff
