/-
# What the event detail screen shows

The labels of `EventDetailViewController.swift` and the table it embeds.

One event gets to the screen three times: into the ids of the embedded table when the
segue is prepared, into the labels when the view loads, and into `event` whenever the
observer of `fetchEvent` calls back.  The callback goes no further than that, so the
labels and the ids stay those of the event the screen was handed.
-/

import Teamstuff.Controller.PlayerStatusTableViewController
import Teamstuff.Library.Run

namespace Teamstuff

/-- `EventDetailViewController` with its labels and the table it embeds; `delivered` is the
event its observer was last called with. -/
structure EventDetailScreen where
  vc : EventDetailViewController
  title : Option String
  descriptionLabel : Option String
  dateLabel : Option String
  locationLabel : Option String
  playerStatusTable : PlayerStatusTableViewController
  delivered : Option Event

namespace EventDetailScreen

/-- The screen as the storyboard makes it, with the event `EventsViewController` hands it. -/
def handed (event : Event) : EventDetailScreen where
  vc := ⟨some event, []⟩
  title := none
  descriptionLabel := some "DUMMY"
  dateLabel := some "DUMMY"
  locationLabel := some "Label"
  playerStatusTable := .made
  delivered := none

/-- What happens while the screen is visible. -/
inductive Action
  | fetchEvent (value : Value)
  | viewWillAppear (teamIdGlobal : String)
  | fetchPlayers (snapshot : Node)

section

variable {ε ε' : Type} (decode : Value → Except ε Event) (decode' : Value → Except ε' User)
  (swift : StringEquality) (order : DictionaryOrder) (formatter : Date → String)

/-- The text of the date label. -/
def dateText (event : Event) : String :=
  "From " ++ formatter event.startDate ++ " to " ++ formatter event.endDate

/-- `viewDidLoad`. -/
def viewDidLoad (teamIdGlobal : String) (s : EventDetailScreen) : Option EventDetailScreen :=
  (s.vc.fetchEvent teamIdGlobal).map fun vc =>
    match vc.event with
    | some event =>
        { s with
          vc := vc
          title := some event.title
          descriptionLabel := event.description
          dateLabel := some (dateText formatter event)
          locationLabel := event.location }
    | none => { s with vc := vc }

/-- The view loads: first the segue that embeds the table, then `viewDidLoad`. -/
def load (teamIdGlobal : String) (s : EventDetailScreen) : Option EventDetailScreen :=
  (s.vc.prepare order s.playerStatusTable).bind fun table =>
    viewDidLoad formatter teamIdGlobal { s with playerStatusTable := table.viewDidLoad }

/-- One action; `none` where the app traps. -/
def step (s : EventDetailScreen) : Action → Option EventDetailScreen
  | .fetchEvent value =>
      some { s with vc := s.vc.fetched decode value, delivered := (decode value).toOption }
  | .viewWillAppear teamIdGlobal =>
      (s.vc.fetchEvent teamIdGlobal).map fun vc => { s with vc := vc }
  | .fetchPlayers snapshot =>
      some { s with
        playerStatusTable := s.playerStatusTable.fetchedPlayers decode' swift snapshot }

/-- The snapshots of the event decode. -/
def Decodable : Action → Prop
  | .fetchEvent value => ∃ e, decode value = .ok e
  | .viewWillAppear _ | .fetchPlayers _ => True

/-- The screen shows this event. -/
structure Shows (event : Event) (s : EventDetailScreen) : Prop where
  title : s.title = some event.title
  description : s.descriptionLabel = event.description
  dates : s.dateLabel = some (dateText formatter event)
  location : s.locationLabel = event.location
  available : ∀ id, id ∈ s.playerStatusTable.availablePlayersId ↔ event.answer id = some true
  notAvailable : ∀ id,
    id ∈ s.playerStatusTable.notAvailablePlayersId ↔ event.answer id = some false

/-- The two events look the same on the screen. -/
structure LooksLike (event event' : Event) : Prop where
  title : event'.title = event.title
  description : event'.description = event.description
  dates : dateText formatter event' = dateText formatter event
  location : event'.location = event.location
  answer : ∀ id, event'.answer id = event.answer id

/-- The screen shows the event that was last delivered. -/
def UpToDate (s : EventDetailScreen) : Prop :=
  ∀ event, s.delivered = some event → Shows formatter event s

variable {formatter}

/-- A screen that shows one event shows another exactly when the two look the same. -/
theorem Shows.iff {event event' : Event} {s : EventDetailScreen} (h : Shows formatter event s) :
    Shows formatter event' s ↔ LooksLike formatter event event' := by
  constructor
  · intro h'
    refine ⟨Option.some.inj (h'.title.symm.trans h.title), h'.description.symm.trans h.description,
      Option.some.inj (h'.dates.symm.trans h.dates), h'.location.symm.trans h.location,
      fun id => Option.ext fun b => ?_⟩
    cases b with
    | true => exact (h'.available id).symm.trans (h.available id)
    | false => exact (h'.notAvailable id).symm.trans (h.notAvailable id)
  · intro hlike
    exact ⟨hlike.title ▸ h.title, hlike.description ▸ h.description, hlike.dates ▸ h.dates,
      hlike.location ▸ h.location, fun id => hlike.answer id ▸ h.available id,
      fun id => hlike.answer id ▸ h.notAvailable id⟩

variable {decode decode' swift order}

/-- The screen that has loaded shows the event it was handed. -/
theorem shows_of_load {event : Event} {teamId : String} {s : EventDetailScreen}
    (h : load order formatter teamId (handed event) = some s) :
    Shows formatter event s ∧ s.delivered = none := by
  obtain ⟨table, htable, hload⟩ := Option.bind_eq_some_iff.1 h
  obtain ⟨ids, ids', hprepare, hids⟩ :=
    EventDetailViewController.prepare_spec order (handed event).vc rfl .made rfl rfl
  obtain rfl := Option.some.inj (htable.symm.trans hprepare)
  obtain ⟨vc, hvc, rfl⟩ := Option.map_eq_some_iff.1 hload
  obtain ⟨_, _, _, _, rfl⟩ := EventDetailViewController.fetchEvent_eq_some.1 hvc
  exact ⟨⟨rfl, rfl, rfl, rfl, hids.available, hids.notAvailable⟩, rfl⟩

/-- Nothing that happens later changes what is shown. -/
theorem Shows.step {event : Event} {s s' : EventDetailScreen} {a : Action}
    (h : Shows formatter event s) (hstep : s.step decode decode' swift a = some s') :
    Shows formatter event s' := by
  obtain ⟨htitle, hdescription, hdates, hlocation, havailable, hnot⟩ := h
  cases a with
  | fetchEvent value =>
      obtain rfl := Option.some.inj hstep
      exact ⟨htitle, hdescription, hdates, hlocation, havailable, hnot⟩
  | viewWillAppear teamId =>
      obtain ⟨vc, _, rfl⟩ := Option.map_eq_some_iff.1 hstep
      exact ⟨htitle, hdescription, hdates, hlocation, havailable, hnot⟩
  | fetchPlayers snapshot =>
      obtain rfl := Option.some.inj hstep
      exact ⟨htitle, hdescription, hdates, hlocation, havailable, hnot⟩

variable (decode decode' swift order formatter)

/-- What is delivered looks like the event the screen was handed. -/
def LikeHanded (event : Event) (_ : EventDetailScreen) : Action → Prop
  | .fetchEvent value => ∀ event', decode value = .ok event' → LooksLike formatter event event'
  | .viewWillAppear _ | .fetchPlayers _ => True

/-- **The screen follows its event exactly as long as nothing on it changes.**  After each
delivery the screen shows the event delivered last if and only if every event delivered
looks like the one the screen was handed. -/
theorem always_upToDate_iff (teamIdGlobal : String) (event : Event) (s : EventDetailScreen)
    (hload : load order formatter teamIdGlobal (handed event) = some s) (as : List Action)
    (hdecodable : ∀ a ∈ as, Decodable decode a) :
    Run.Always (step decode decode' swift) (UpToDate formatter) s as ↔
      Run.Guarded (step decode decode' swift) (LikeHanded decode formatter event) s as := by
  obtain ⟨hshows, hdelivered⟩ := shows_of_load hload
  refine Run.always_iff_guarded (Q := Decodable decode) (I := Shows formatter event)
    (fun s a s' _ hs _ hstep _ => hs.step hstep) (fun s a ha hs hup => ?_) hshows
    (fun e he => nomatch hdelivered.symm.trans he) hdecodable
  cases a with
  | fetchEvent value =>
      obtain ⟨e, he⟩ := ha
      have hstep : step decode decode' swift s (.fetchEvent value) = some { s with
          vc := s.vc.fetched decode value, delivered := (decode value).toOption } := rfl
      have hshows' := hs.step hstep
      constructor
      · rintro hlike _ ⟨⟩ e' he'
        exact hshows'.iff.2 (hlike e' (Except.toOption_eq_some.1 he'))
      · intro h e' he'
        exact hshows'.iff.1 (h _ rfl e' (Except.toOption_eq_some.2 he'))
  | viewWillAppear teamId =>
      refine iff_of_true trivial fun s' hstep e he => (hup e ?_).step hstep
      obtain ⟨vc, hvc, rfl⟩ := Option.map_eq_some_iff.1 hstep
      exact he
  | fetchPlayers snapshot =>
      refine iff_of_true trivial fun s' hstep e he => (hup e ?_).step hstep
      obtain rfl := Option.some.inj hstep
      exact he

end

/-- The match of `Event.storedDerby` under another title. -/
def renamedDerby : Event := { Event.storedDerby with title := "Cup" }

theorem load_derby : ∃ s, load .sorted (fun _ => "") "T1" (handed Event.storedDerby) = some s := by
  have hsome : (load .sorted (fun _ => "") "T1" (handed Event.storedDerby)).isSome = true := by
    decide +kernel
  exact Option.isSome_iff_exists.1 hsome

theorem decode_renamedDerby : Event.decode renamedDerby.nodeD.val = .ok renamedDerby := by
  have hdecoded : ((Event.decode renamedDerby.nodeD.val).toOption == some renamedDerby) = true := by
    decide +kernel
  exact Except.toOption_eq_some.1 (eq_of_beq hdecoded)

theorem decode_derby : Event.decode Event.derbyNode.val = .ok Event.storedDerby := by
  have hdecoded : ((Event.decode Event.derbyNode.val).toOption == some Event.storedDerby) = true := by
    decide +kernel
  exact Except.toOption_eq_some.1 (eq_of_beq hdecoded)

/-- The screen of a match that is delivered as it was handed over. -/
theorem always_upToDate_iff_derby : ∃ s,
    load .sorted (fun _ => "") "T1" (handed Event.storedDerby) = some s ∧
      Run.Always (step Event.decode User.decode .literal) (UpToDate fun _ => "") s
        [.fetchEvent Event.derbyNode.val, .fetchPlayers .empty, .viewWillAppear "T1"] := by
  obtain ⟨s, hs⟩ := load_derby
  refine ⟨s, hs, (always_upToDate_iff Event.decode User.decode .literal .sorted (fun _ => "") "T1"
    Event.storedDerby s hs _ fun a ha => ?_).2 ⟨fun event' hevent' => ?_, fun _ _ =>
      ⟨trivial, fun _ _ => ⟨trivial, fun _ _ => trivial⟩⟩⟩⟩
  · rcases List.mem_cons.1 ha with rfl | ha
    · exact ⟨_, decode_derby⟩
    · rcases List.mem_cons.1 ha with rfl | ha
      · trivial
      · obtain rfl := List.mem_singleton.1 ha
        trivial
  · obtain rfl := Except.ok.inj (decode_derby.symm.trans hevent')
    exact ⟨rfl, rfl, rfl, rfl, fun _ => rfl⟩

/-- **A new title is not shown.**  The match gets another title while its screen is open:
the observer is called with it, and the old title stays. -/
theorem renamed_not_shown : ∃ s,
    load .sorted (fun _ => "") "T1" (handed Event.storedDerby) = some s ∧
      Decodable Event.decode (.fetchEvent renamedDerby.nodeD.val) ∧
      ¬ Run.Always (step Event.decode User.decode .literal) (UpToDate fun _ => "") s
        [.fetchEvent renamedDerby.nodeD.val] := by
  obtain ⟨s, hs⟩ := load_derby
  refine ⟨s, hs, ⟨_, decode_renamedDerby⟩, fun h => ?_⟩
  have hshows := h.2 _ rfl renamedDerby (by rw [decode_renamedDerby]; rfl)
  have htitle : s.title = some "Cup" := hshows.title
  have htitle' : s.title = some "Derby" := (shows_of_load hs).1.title
  have hne : some "Cup" ≠ some "Derby" := by decide
  exact hne (htitle.symm.trans htitle')

end EventDetailScreen

end Teamstuff
