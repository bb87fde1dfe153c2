/-
# The attendance table over the life of its screen

The table of `PlayerStatusTableViewController` as the table view drives it.  The ids come
with the embed segue, the names with the one answer `fetchPlayers` waits for, and in
between the table view asks for the number of sections, for titles, for numbers of rows
and for cells, in any order but never past the counts it was last given; `reloadData`
makes it forget them.

`Sound` is the invariant.  The names in the kept sections are never older than the name
arrays, so that no index is out of bounds, and from the answer of `fetchPlayers` on the
arrays are those of the snapshot.

The number in a header counts the ids, the rows count the users that were found.  They
are the same number when there is one user for every id: an id has none without a record
that decodes, and more than one where keys of `Users` are the same string to Swift.
-/

import Teamstuff.Controller.PlayerStatusTableViewController
import Teamstuff.Library.Run
import Std.Data.String.ToNat
import Mathlib

namespace Teamstuff

/-- The table with what the table view was told since the last reload. -/
structure AttendanceTable where
  controller : PlayerStatusTableViewController
  prepared : Bool
  observing : Option FPath
  fetched : Option Node
  sections : Option ℕ
  rows : ℕ → Option ℕ

namespace AttendanceTable

/-- The table before the segue. -/
def embedded : AttendanceTable where
  controller := .made
  prepared := false
  observing := none
  fetched := none
  sections := none
  rows := fun _ => none

/-- What can happen to the table. -/
inductive Action
  | prepare
  | viewDidLoad
  | viewWillAppear
  | fetchPlayers (snapshot : Node)
  | numberOfSections
  | titleForHeader (inSection : ℕ)
  | numberOfRows (inSection : ℕ)
  | cellForRow (inSection row : ℕ)

/-- `tableView.reloadData()`. -/
def reloadData (t : AttendanceTable) : AttendanceTable :=
  { t with sections := none, rows := fun _ => none }

section

variable {ε : Type} (decode : Value → Except ε User) (swift : StringEquality)
  (order : DictionaryOrder) (event : Event)

/-- One action; `none` where an index is out of bounds. -/
def step (t : AttendanceTable) : Action → Option AttendanceTable
  | .prepare =>
      (EventDetailViewController.prepare order t.controller ⟨some event, []⟩).map fun vc =>
        { t with controller := vc, prepared := true }
  | .viewDidLoad =>
      let vc := t.controller.viewDidLoad
      some { t with controller := vc, observing := vc.fetchPlayers }
  | .viewWillAppear => some { t with controller := t.controller.viewWillAppear }.reloadData
  | .fetchPlayers snapshot =>
      some { t with
        controller := t.controller.fetchedPlayers decode swift snapshot
        fetched := some snapshot }.reloadData
  | .numberOfSections =>
      let (n, vc) := t.controller.numberOfSections
      some { t with controller := vc, sections := some n }
  | .titleForHeader inSection =>
      (t.controller.titleForHeader inSection).map fun (_, vc) => { t with controller := vc }
  | .numberOfRows inSection =>
      (t.controller.numberOfRows inSection).map fun (n, vc) =>
        { t with controller := vc, rows := Function.update t.rows inSection (some n) }
  | .cellForRow inSection row =>
      (t.controller.cellForRow inSection row).map fun (_, vc) => { t with controller := vc }

/-- When an action can happen: the segue once, the view loads once and after the segue,
which loads it, and the answer comes once it is waited for; the table view asks below
the counts it has. -/
def Allowed (t : AttendanceTable) : Action → Prop
  | .prepare => t.prepared = false
  | .viewDidLoad => t.prepared = true ∧ t.observing = none
  | .fetchPlayers _ => t.observing.isSome = true ∧ t.fetched = none
  | .viewWillAppear | .numberOfSections => True
  | .titleForHeader inSection | .numberOfRows inSection =>
      ∃ n, t.sections = some n ∧ inSection < n
  | .cellForRow inSection row => ∃ n, t.rows inSection = some n ∧ row < n

/-- The invariant. -/
structure Sound (t : AttendanceTable) : Prop where
  names : t.controller.NamesCurrent
  sections : ∀ n, t.sections = some n → n = t.controller.names.length
  rows : ∀ i n, t.rows i = some n → t.controller.names[i]?.map List.length = some n
  unprepared : t.prepared = false → t.controller.availablePlayersId = [] ∧
    t.controller.notAvailablePlayersId = [] ∧ t.observing = none
  ids : t.prepared = true → HoldsIds event t.controller
  fetched : ∀ snapshot, t.fetched = some snapshot → t.observing ≠ none ∧
    t.controller.CacheCurrent ∧ t.controller.names = [true, false].map fun available =>
      (listed decode swift event available snapshot.childList).map fun entry => entry.2.name

variable {decode swift order event}

/-- At the start nothing is shown. -/
theorem Sound.embedded : Sound decode swift event embedded where
  names := fun _ h => nomatch h
  sections := fun _ h => nomatch h
  rows := fun _ _ h => nomatch h
  unprepared := fun _ => ⟨rfl, rfl, rfl⟩
  ids := fun h => nomatch h
  fetched := fun _ h => nomatch h

variable {t : AttendanceTable}

/-- Reading the sections keeps the invariant. -/
theorem Sound.asked (h : Sound decode swift event t) :
    Sound decode swift event { t with controller := t.controller.mySections.2 } := by
  obtain ⟨sections, hsections, hnames, hcache⟩ := t.controller.mySections_spec
  rw [hsections]
  refine ⟨?_, h.sections, h.rows, h.unprepared, fun hp => ?_, fun snapshot hs => ?_⟩
  · rintro _ ⟨⟩
    exact hnames h.names
  · exact (h.ids hp).congr rfl rfl
  · obtain ⟨hobs, hcurrent, hlisted⟩ := h.fetched snapshot hs
    refine ⟨hobs, ?_, hlisted⟩
    rintro _ ⟨⟩
    exact hcache hcurrent

/-- The counts the table view gets are those of the arrays. -/
theorem Sound.length_sections (h : Sound decode swift event t) :
    t.controller.mySections.1.length = t.controller.names.length := by
  obtain ⟨sections, hsections, hnames, _⟩ := t.controller.mySections_spec
  rw [hsections, ← hnames h.names, List.length_map]

/-- Below the number of sections there is a section. -/
theorem Sound.exists_section (h : Sound decode swift event t) {i n : ℕ} (hn : t.sections = some n)
    (hi : i < n) : ∃ sectionData, t.controller.mySections.1[i]? = some sectionData := by
  rw [h.sections n hn, ← h.length_sections] at hi
  exact ⟨_, List.getElem?_eq_getElem hi⟩

/-- Below the number of rows there is a row. -/
theorem Sound.exists_row (h : Sound decode swift event t) {i row n : ℕ} (hn : t.rows i = some n)
    (hrow : row < n) : ∃ title, t.controller.cellForRow i row =
      some (title, t.controller.mySections.2) := by
  have hcount := h.rows i n hn
  obtain ⟨names, hnames, rfl⟩ := Option.map_eq_some_iff.1 hcount
  have hcell := PlayerStatusTableViewController.cellForRow_fst h.names i row
  rw [hnames, Option.bind_some, List.getElem?_eq_getElem hrow] at hcell
  obtain ⟨⟨title, vc⟩, hc, htitle⟩ := Option.map_eq_some_iff.1 hcell
  obtain ⟨sectionData, hsection, hget⟩ := Option.bind_eq_some_iff.1 hc
  obtain ⟨text, _, hpair⟩ := Option.map_eq_some_iff.1 hget
  obtain ⟨rfl, rfl⟩ := Prod.mk.inj hpair
  exact ⟨_, hc⟩

/-- **No action gets stuck**, and each keeps the invariant. -/
theorem Sound.step (hkeys : event.KeysApart swift) (h : Sound decode swift event t) {a : Action}
    (ha : Allowed t a) :
    ∃ t', t.step decode swift order event a = some t' ∧ Sound decode swift event t' := by
  cases a with
  | prepare =>
      obtain ⟨hids, hids', hobs⟩ := h.unprepared ha
      obtain ⟨ids, ids', hprepare, hholds⟩ :=
        EventDetailViewController.prepare_spec order ⟨some event, []⟩ rfl t.controller hids hids'
      have hstep : t.step decode swift order event .prepare = some { t with
          controller := { t.controller with
            availablePlayersId := ids, notAvailablePlayersId := ids' }
          prepared := true } := by
        rw [AttendanceTable.step, hprepare]
        rfl
      exact ⟨_, hstep, h.names, h.sections, h.rows, fun hp => (nomatch hp), fun _ => hholds,
        fun snapshot hs => absurd hobs (h.fetched snapshot hs).1⟩
  | viewDidLoad =>
      obtain ⟨hprepared, hobs⟩ := ha
      exact ⟨_, rfl, h.names, h.sections, h.rows, fun hp => (nomatch hprepared.symm.trans hp),
        fun hp => (h.ids hp).congr rfl rfl,
        fun snapshot hs => absurd hobs (h.fetched snapshot hs).1⟩
  | viewWillAppear =>
      refine ⟨_, rfl, fun _ hs => (nomatch hs), fun _ hn => (nomatch hn), fun _ _ hn => (nomatch hn),
        h.unprepared, fun hp => (h.ids hp).congr rfl rfl, fun snapshot hs => ?_⟩
      obtain ⟨hobs, _, hlisted⟩ := h.fetched snapshot hs
      exact ⟨hobs, fun _ hs => (nomatch hs), hlisted⟩
  | fetchPlayers snapshot =>
      obtain ⟨hobs, _⟩ := ha
      have hprepared : t.prepared = true := by
        cases hp : t.prepared with
        | true => rfl
        | false =>
            rw [(h.unprepared hp).2.2] at hobs
            exact nomatch hobs
      have hids := h.ids hprepared
      refine ⟨_, rfl, ?_⟩
      rw [PlayerStatusTableViewController.fetchedPlayers_eq decode hkeys hids]
      refine ⟨fun _ hs => (nomatch hs), fun _ hn => (nomatch hn), fun _ _ hn => (nomatch hn),
        fun hp => (nomatch hprepared.symm.trans hp), fun _ => hids.congr rfl rfl, ?_⟩
      rintro _ ⟨⟩
      exact ⟨Option.isSome_iff_ne_none.1 hobs, fun _ hs => (nomatch hs), rfl⟩
  | numberOfSections =>
      obtain ⟨hnames, _, hrows, hunprepared, hids, hfetched⟩ := h.asked
      refine ⟨_, rfl, hnames, ?_, hrows, hunprepared, hids, hfetched⟩
      rintro _ ⟨⟩
      exact h.length_sections.trans (congrArg _ t.controller.names_mySections.symm)
  | titleForHeader i =>
      obtain ⟨n, hn, hi⟩ := ha
      obtain ⟨sectionData, hsection⟩ := h.exists_section hn hi
      refine ⟨_, ?_, h.asked⟩
      rw [AttendanceTable.step, PlayerStatusTableViewController.titleForHeader, hsection]
      rfl
  | numberOfRows i =>
      obtain ⟨n, hn, hi⟩ := ha
      obtain ⟨sectionData, hsection⟩ := h.exists_section hn hi
      have hcount := PlayerStatusTableViewController.numberOfRows_fst h.names i
      rw [PlayerStatusTableViewController.numberOfRows, hsection] at hcount
      obtain ⟨hnames, hsections, hrows, hunprepared, hids, hfetched⟩ := h.asked
      refine ⟨{ t with
        controller := t.controller.mySections.2
        rows := Function.update t.rows i (some sectionData.numberOfItems) }, ?_,
        hnames, hsections, fun j m hm => ?_, hunprepared, hids, hfetched⟩
      · rw [AttendanceTable.step, PlayerStatusTableViewController.numberOfRows, hsection]
        rfl
      · change Function.update t.rows i (some sectionData.numberOfItems) j = some m at hm
        by_cases hij : j = i
        · subst hij
          rw [Function.update_self] at hm
          rw [← hm]
          exact (congrArg (fun names => names[j]?.map List.length)
            t.controller.names_mySections).trans hcount.symm
        · rw [Function.update_of_ne hij] at hm
          exact hrows j m hm
  | cellForRow i row =>
      obtain ⟨n, hn, hrow⟩ := ha
      obtain ⟨title, hcell⟩ := h.exists_row hn hrow
      refine ⟨_, ?_, h.asked⟩
      rw [AttendanceTable.step, hcell]
      rfl

/-- The users are those with that answer whose record decodes, once each and in the order of
the snapshot. -/
structure UsersOf (decode : Value → Except ε User) (swift : StringEquality) (event : Event)
    (available : Bool) (snapshot : Node) (users : List (String × User)) : Prop where
  mem : ∀ id user, (id, user) ∈ users ↔ event.status swift id = some available ∧
    ∃ n, (id, n) ∈ snapshot.childList ∧ decode n.val = .ok user
  order : (users.map Prod.fst).Sublist (snapshot.childList.map Prod.fst)
  once : (users.map Prod.fst).Nodup

theorem usersOf_listed {snapshot : Node} (hwf : snapshot.Valid) (available : Bool) :
    UsersOf decode swift event available snapshot
      (listed decode swift event available snapshot.childList) where
  mem := fun _ _ => mem_listed
  order := listed_sublist _
  once := (listed_sublist _).nodup hwf.nodup_keys

/-- The number in each header is the number of rows below it. -/
def CountsMatch (vc : PlayerStatusTableViewController) : Prop :=
  (vc.titleForHeader 0).map Prod.fst =
      (vc.numberOfRows 0).map (fun rows => "Available (" ++ toString rows.1 ++ ")") ∧
  (vc.titleForHeader 1).map Prod.fst =
      (vc.numberOfRows 1).map (fun rows => "Not available (" ++ toString rows.1 ++ ")")

/-- Two numbers that read the same are the same. -/
theorem title_inj {label : String} {n m : ℕ} :
    label ++ toString n ++ ")" = label ++ toString m ++ ")" ↔ n = m := by
  rw [String.append_left_inj, String.append_right_inj]
  exact Nat.repr_inj

/-- What the headers and the rows count. -/
theorem countsMatch_iff {vc : PlayerStatusTableViewController} (h : vc.CacheCurrent) :
    CountsMatch vc ↔ vc.availablePlayersId.length = vc.availablePlayersName.length ∧
      vc.notAvailablePlayersId.length = vc.notAvailablePlayersName.length := by
  obtain ⟨sections, hsections, _, hbuilt⟩ := vc.mySections_spec
  unfold CountsMatch PlayerStatusTableViewController.titleForHeader
    PlayerStatusTableViewController.numberOfRows
  rw [hsections, hbuilt h]
  simp only [PlayerStatusTableViewController.built, List.getElem?_cons_zero,
    List.getElem?_cons_succ, Option.map_some, Option.some.injEq, SectionData.numberOfItems,
    title_inj]

/-! ### What the two numbers count -/

/-- The users whose record decodes and whose key is the id to Swift. -/
def usersCalled (decode : Value → Except ε User) (swift : StringEquality)
    (children : List (String × Node)) (id : String) : List (String × User) :=
  children.filterMap fun child =>
    if swift.eq id child.1 = true then
      (decode child.2.val).toOption.map fun user => (child.1, user)
    else none

/-- The first child, and the others. -/
theorem usersCalled_cons (child : String × Node) (children : List (String × Node)) (id : String) :
    usersCalled decode swift (child :: children) id =
      usersCalled decode swift [child] id ++ usersCalled decode swift children id :=
  List.filterMap_append (l := [child])

/-- A child is one user at most. -/
theorem length_usersCalled_singleton (child : String × Node) (id : String) :
    (usersCalled decode swift [child] id).length =
      if swift.eq id child.1 = true ∧ (decode child.2.val).toOption.isSome = true then 1 else 0 := by
  unfold usersCalled
  rw [List.filterMap_cons, List.filterMap_nil]
  cases swift.eq id child.1 <;> cases (decode child.2.val).toOption <;> rfl

/-- One child is a user of the ids its key is the same as, if its record decodes. -/
theorem sum_usersCalled_singleton (child : String × Node) (ids : List String) :
    (ids.map fun id => (usersCalled decode swift [child] id).length).sum =
      if (decode child.2.val).toOption.isSome = true then
        ids.countP fun id => swift.eq id child.1
      else 0 := by
  induction ids with
  | nil => exact (ite_self 0).symm
  | cons id ids ih =>
      rw [List.map_cons, List.sum_cons, ih, List.countP_cons, length_usersCalled_singleton]
      by_cases huser : (decode child.2.val).toOption.isSome = true
      · simp only [huser, and_true, ite_true]
        exact Nat.add_comm ..
      · rw [if_neg huser, if_neg fun h => huser h.2, if_neg huser]

/-- A section lists the users of its ids, each under one id only. -/
theorem length_listed (hkeys : event.KeysApart swift) (available : Bool)
    (children : List (String × Node)) :
    (listed decode swift event available children).length =
      ((event.answered available).map fun id =>
        (usersCalled decode swift children id).length).sum := by
  have hcontains : ∀ uid, swift.contains (event.answered available) uid = true ↔
      event.status swift uid = some available :=
    StringEquality.contains_iff hkeys fun id => event.mem_answered
  induction children with
  | nil => simp [listed, usersCalled]
  | cons child children ih =>
      have hchild : (listed decode swift event available [child]).length =
          ((event.answered available).map fun id =>
            (usersCalled decode swift [child] id).length).sum := by
        rw [sum_usersCalled_singleton, (hkeys.answered available).countP_eq child.1]
        unfold listed
        cases huser : (decode child.2.val).toOption <;>
          by_cases hstatus : event.status swift child.1 = some available <;>
          simp [huser, hstatus, hcontains]
      rw [← List.singleton_append, listed_append, List.length_append, ih, hchild,
        ← List.sum_map_add]
      simp only [List.singleton_append, usersCalled_cons child children, List.length_append]

/-- Numbers that are at most one add up to their number exactly when each is one. -/
theorem sum_eq_length_iff {α : Type} {l : List α} {f : α → ℕ} (h : ∀ x ∈ l, f x ≤ 1) :
    (l.map f).sum ≤ l.length ∧ ((l.map f).sum = l.length ↔ ∀ x ∈ l, f x = 1) := by
  induction l with
  | nil => exact ⟨le_rfl, iff_of_true rfl fun x hx => absurd hx List.not_mem_nil⟩
  | cons x l ih =>
      have hx := h x List.mem_cons_self
      obtain ⟨hle, hiff⟩ := ih fun y hy => h y (List.mem_cons_of_mem x hy)
      rw [List.map_cons, List.sum_cons, List.length_cons, List.forall_mem_cons, ← hiff]
      omega

/-- There is a user if some child decodes under the id. -/
theorem usersCalled_ne_nil {children : List (String × Node)} {id : String} :
    usersCalled decode swift children id ≠ [] ↔
      ∃ child ∈ children, swift.eq id child.1 = true ∧ ∃ user, decode child.2.val = .ok user := by
  constructor
  · intro hne
    obtain ⟨⟨key, user⟩, hmem⟩ := List.exists_mem_of_ne_nil _ hne
    obtain ⟨child, hchild, hsome⟩ := List.mem_filterMap.1 hmem
    split_ifs at hsome with heq
    obtain ⟨user', huser, _⟩ := Option.map_eq_some_iff.1 hsome
    exact ⟨child, hchild, heq, user', Except.toOption_eq_some.1 huser⟩
  · rintro ⟨child, hchild, heq, user, huser⟩
    have hmem : (child.1, user) ∈ usersCalled decode swift children id := by
      refine List.mem_filterMap.2 ⟨child, hchild, ?_⟩
      rw [if_pos heq, huser]
      rfl
    exact List.ne_nil_of_mem hmem

/-- An id has no more than one user where no two keys are the same to Swift. -/
theorem length_usersCalled_le {children : List (String × Node)}
    (hkeys : swift.Apart (children.map Prod.fst)) (id : String) :
    (usersCalled decode swift children id).length ≤ 1 := by
  have hcount := hkeys.countP_eq id
  rw [List.countP_map] at hcount
  calc (usersCalled decode swift children id).length
    _ ≤ children.countP ((fun key => swift.eq key id) ∘ Prod.fst) := by
        rw [usersCalled, List.length_filterMap_eq_countP]
        refine List.countP_mono_left fun child _ hsome => ?_
        by_contra hne
        rw [Function.comp_apply, swift.symm] at hne
        rw [if_neg hne] at hsome
        exact Bool.false_ne_true hsome
    _ ≤ 1 := by
        rw [hcount]
        split_ifs <;> omega

/-- Where no two keys are the same to Swift there are as many users as ids when each id has
one. -/
theorem length_flatMap_usersCalled {children : List (String × Node)}
    (hkeys : swift.Apart (children.map Prod.fst)) (ids : List String) :
    (ids.flatMap (usersCalled decode swift children)).length = ids.length ↔
      ∀ id ∈ ids, usersCalled decode swift children id ≠ [] := by
  rw [List.length_flatMap, (sum_eq_length_iff fun id _ => length_usersCalled_le hkeys id).2]
  refine forall₂_congr fun id _ => ?_
  have hle : (usersCalled decode swift children id).length ≤ 1 := length_usersCalled_le hkeys id
  rw [← List.length_pos_iff]
  omega

/-- **Each player stands in the section of the answer, and no index is out of bounds.**
Every order of the segue, the loading of the view, its appearances, the answer of
`fetchPlayers` and the questions of the table view runs to its end; the names in the kept
sections are never older than the arrays, and once `fetchPlayers` has its answer, they are
those of the users with the one answer and the other. -/
theorem players_in_sections (decode : Value → Except ε User) (swift : StringEquality)
    (order : DictionaryOrder) (event : Event) (hkeys : event.KeysApart swift) (as : List Action)
    (hallowed : Run.Guarded (AttendanceTable.step decode swift order event) Allowed embedded as) :
    ∃ t, Run.exec (AttendanceTable.step decode swift order event) embedded as = some t ∧
      t.controller.NamesCurrent ∧
      ∀ snapshot, t.fetched = some snapshot → snapshot.Valid → ∃ users users',
        UsersOf decode swift event true snapshot users ∧
        UsersOf decode swift event false snapshot users' ∧
        (users.map Prod.fst).Disjoint (users'.map Prod.fst) ∧
        t.controller.mySections.1.map SectionData.data =
          [users.map fun entry => entry.2.name, users'.map fun entry => entry.2.name] := by
  obtain ⟨t, ht, hsound⟩ := Run.exists_exec_of_guarded (I := Sound decode swift event)
    (fun t a h ha => h.step hkeys ha) Sound.embedded hallowed
  refine ⟨t, ht, hsound.names, fun snapshot hsnapshot hwf =>
    ⟨_, _, usersOf_listed hwf true, usersOf_listed hwf false, disjoint_listed _, ?_⟩⟩
  obtain ⟨_, _, hlisted⟩ := hsound.fetched snapshot hsnapshot
  obtain ⟨sections, hsections, hnames, _⟩ := t.controller.mySections_spec
  rw [hsections, hnames hsound.names, hlisted]
  rfl

/-- The ids and the users of an answer, of which there are equally many. -/
def AsManyUsers (decode : Value → Except ε User) (swift : StringEquality) (event : Event)
    (snapshot : Node) (available : Bool) : Prop :=
  ((event.answered available).flatMap (usersCalled decode swift snapshot.childList)).length =
    (event.answered available).length

/-- **The headers count right exactly when there are as many users as ids.**  Once
`fetchPlayers` has its answer, the number in each header is the number of rows of its
section if and only if the ids with that answer have together as many users in the snapshot
as they are.  Where no two keys of the snapshot are the same to Swift, this says that
every player who answered has a record that decodes. -/
theorem counts_match_iff (decode : Value → Except ε User) (swift : StringEquality)
    (order : DictionaryOrder) (event : Event) (hkeys : event.KeysApart swift) (as : List Action)
    (hallowed : Run.Guarded (AttendanceTable.step decode swift order event) Allowed embedded as)
    (t : AttendanceTable)
    (ht : Run.exec (AttendanceTable.step decode swift order event) embedded as = some t)
    (snapshot : Node) (hfetched : t.fetched = some snapshot) :
    (CountsMatch t.controller ↔ ∀ available, AsManyUsers decode swift event snapshot available) ∧
    (swift.Apart snapshot.keys →
      (CountsMatch t.controller ↔ ∀ id available, event.answer id = some available →
        ∃ child ∈ snapshot.childList, swift.eq id child.1 = true ∧
          ∃ user, decode child.2.val = .ok user)) := by
  obtain ⟨t', ht', hsound⟩ := Run.exists_exec_of_guarded (I := Sound decode swift event)
    (fun t a h ha => h.step hkeys ha) Sound.embedded hallowed
  obtain rfl := Option.some.inj (ht'.symm.trans ht)
  obtain ⟨hobs, hcurrent, hlisted⟩ := hsound.fetched snapshot hfetched
  have hids : HoldsIds event t'.controller := by
    refine hsound.ids ?_
    cases hp : t'.prepared with
    | true => rfl
    | false => exact absurd (hsound.unprepared hp).2.2 hobs
  obtain ⟨havailable, hrest⟩ := List.cons.inj hlisted
  obtain ⟨hnotAvailable, _⟩ := List.cons.inj hrest
  have hcounts : CountsMatch t'.controller ↔
      ∀ available, AsManyUsers decode swift event snapshot available := by
    rw [countsMatch_iff hcurrent, havailable, hnotAvailable, List.length_map, List.length_map,
      length_listed hkeys, length_listed hkeys, hids.perm.length_eq, hids.perm'.length_eq,
      Bool.forall_bool, AsManyUsers, AsManyUsers, List.length_flatMap, List.length_flatMap]
    exact ⟨fun h => ⟨h.2.symm, h.1.symm⟩, fun h => ⟨h.2.symm, h.1.symm⟩⟩
  refine ⟨hcounts, fun hapart => hcounts.trans ?_⟩
  simp only [AsManyUsers, length_flatMap_usersCalled hapart, Event.mem_answered, usersCalled_ne_nil]
  exact forall_comm

end

/-! ### One player -/

/-- The `Users` node with one user. -/
def oneUser : Node :=
  (Node.empty.updateChild ["u", "id"] (.leaf (.string "u"))).updateChild ["u", "name"]
    (.leaf (.string "Jos"))

/-- The node with one user is valid. -/
theorem oneUser_valid : oneUser.Valid :=
  (Node.WFIn.empty.updateChild (.leaf _) (by decide)).updateChild (.leaf _) (by decide)

/-- The match of `Event.derby`, to which that user said yes. -/
def attended : Event := Event.derby.answering "u" true

/-- The table before and after the answer of `fetchPlayers`. -/
def opening (snapshot : Node) : List Action :=
  [.prepare, .viewDidLoad, .viewWillAppear, .numberOfSections, .titleForHeader 0,
    .fetchPlayers snapshot, .numberOfSections, .titleForHeader 0, .numberOfRows 0]

/-- A literal comparison tells all ids apart. -/
theorem literal_keysApart (event : Event) : event.KeysApart .literal := fun status _ =>
  status.distinct_keys.imp fun hne => beq_false_of_ne fun heq =>
    hne (by rw [heq]; exact Std.ReflCmp.compare_self)

/-- A screen that is opened. -/
theorem opening_allowed (snapshot : Node) :
    Run.Guarded (step User.decode .literal .sorted attended) Allowed embedded (opening snapshot) :=
  Run.guarded_cons rfl rfl <| Run.guarded_cons ⟨rfl, rfl⟩ rfl <| Run.guarded_cons trivial rfl <|
    Run.guarded_cons trivial rfl <| Run.guarded_cons ⟨2, rfl, by decide⟩ rfl <|
    Run.guarded_cons ⟨rfl, rfl⟩ rfl <| Run.guarded_cons trivial rfl <|
    Run.guarded_cons ⟨2, rfl, by decide⟩ rfl <| Run.guarded_cons ⟨2, rfl, by decide⟩ rfl trivial

/-- It has its users then. -/
theorem opening_fetched (snapshot : Node) : ∃ t,
    Run.exec (step User.decode .literal .sorted attended) embedded (opening snapshot) = some t ∧
      t.fetched = some snapshot :=
  ⟨_, rfl, rfl⟩

/-- The user with a record stands in the first section. -/
theorem players_in_sections_jos : ∃ t,
    Run.exec (step User.decode .literal .sorted attended) embedded (opening oneUser) = some t ∧
      t.controller.NamesCurrent ∧ ∃ users users',
        UsersOf User.decode .literal attended true oneUser users ∧
        UsersOf User.decode .literal attended false oneUser users' ∧
        (users.map Prod.fst).Disjoint (users'.map Prod.fst) ∧
        t.controller.mySections.1.map SectionData.data =
          [users.map fun entry => entry.2.name, users'.map fun entry => entry.2.name] := by
  obtain ⟨t, ht, hnames, hsections⟩ := players_in_sections User.decode .literal .sorted attended
    (literal_keysApart attended) (opening oneUser) (opening_allowed oneUser)
  obtain ⟨t', ht', hfetched⟩ := opening_fetched oneUser
  obtain rfl := Option.some.inj (ht'.symm.trans ht)
  exact ⟨t', ht, hnames, hsections oneUser hfetched oneUser_valid⟩

/-- With the record of the user there, the headers count right. -/
theorem counts_match_iff_jos : ∃ t,
    Run.exec (step User.decode .literal .sorted attended) embedded (opening oneUser) = some t ∧
      t.fetched = some oneUser ∧ CountsMatch t.controller := by
  obtain ⟨t, ht, hfetched⟩ := opening_fetched oneUser
  refine ⟨t, ht, hfetched, (counts_match_iff User.decode .literal .sorted attended
    (literal_keysApart attended) (opening oneUser) (opening_allowed oneUser) t ht oneUser
    hfetched).1.2 fun available => ?_⟩
  cases available <;> unfold AsManyUsers <;> decide +kernel

/-- **A header counts a player who has no row.**  The user said yes and has no record:
"Available (1)" stands over an empty section. -/
theorem counted_without_row : ∃ t,
    Run.Guarded (step User.decode .literal .sorted attended) Allowed embedded (opening .empty) ∧
    Run.exec (step User.decode .literal .sorted attended) embedded (opening .empty) = some t ∧
    t.fetched = some .empty ∧ Node.empty.Valid ∧
    (t.controller.titleForHeader 0).map Prod.fst = some "Available (1)" ∧
    (t.controller.numberOfRows 0).map Prod.fst = some 0 ∧ ¬ CountsMatch t.controller := by
  obtain ⟨t, ht, hfetched⟩ := opening_fetched .empty
  have hshown : ((Run.exec (step User.decode .literal .sorted attended) embedded (opening .empty)).map
      fun t => ((t.controller.titleForHeader 0).map Prod.fst,
        (t.controller.numberOfRows 0).map Prod.fst)) = some (some "Available (1)", some 0) := by
    decide +kernel
  rw [ht] at hshown
  obtain ⟨htitle, hrows⟩ := Prod.mk.inj (Option.some.inj hshown)
  refine ⟨t, opening_allowed .empty, ht, hfetched, .empty, htitle, hrows, fun h => ?_⟩
  obtain ⟨⟨n, vc⟩, hn, rfl⟩ := Option.map_eq_some_iff.1 hrows
  have hmatch := h.1
  rw [htitle, hn] at hmatch
  have hne : "Available (1)" ≠ "Available (" ++ toString (0 : ℕ) ++ ")" := by decide +kernel
  exact hne (Option.some.inj hmatch)

end AttendanceTable

end Teamstuff
