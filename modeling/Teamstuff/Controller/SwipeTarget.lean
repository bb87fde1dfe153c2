/-
# The event a swipe answers

The handlers of the two swipe actions close over the row, not over the event:
when the handler runs, it takes the cell that the table has at that row by then
and answers the event in it.  In between, `fetchEvents` may have replaced the
list, and the row may show another event or be gone.

`swipe_eq_ok_iff` says what the handler does to a table that shows its list; the
callbacks keep the table so (`deliverAll_spec`).
-/

import Teamstuff.Controller.EventsViewController

namespace Teamstuff

/-- A snapshot on its way to the callback of `fetchEvents`, with the readings of
the clock and the cells the table takes for its rows. -/
structure Delivery where
  snapshot : Node
  now : ℕ → Date
  pool : ℕ ↪ ℕ

namespace EventsViewController

/-- The callbacks for several snapshots, one after the other. -/
def deliverAll {ε : Type} (decode : Value → Except ε Event) (locale : Locale) (uid : String)
    (ds : List Delivery) (vc : EventsViewController) : Option EventsViewController :=
  ds.foldlM (fun vc d => vc.fetchEvents decode d.now d.snapshot locale uid d.pool) vc

/-- The callbacks never trap, and they keep a table that shows its list. -/
theorem deliverAll_spec {ε : Type} (decode : Value → Except ε Event) (locale : Locale)
    (uid : String) (ds : List Delivery) {vc : EventsViewController} (h : vc.Shown) :
    ∃ vc', vc.deliverAll decode locale uid ds = some vc' ∧ vc'.Shown := by
  induction ds generalizing vc with
  | nil => exact ⟨vc, rfl, h⟩
  | cons d ds ih =>
      obtain ⟨vc₁, hvc₁, _, _, hshown⟩ :=
        fetchEvents_spec decode d.now d.snapshot locale uid d.pool vc
      obtain ⟨vc', hvc', hshown'⟩ := ih (hshown h)
      refine ⟨vc', ?_, hshown'⟩
      unfold deliverAll
      rw [List.foldlM_cons, hvc₁]
      exact hvc'

/-- **The handler answers the event that is at the row when it runs**, and it
traps when there is none. -/
theorem swipe_eq_ok_iff {vc : EventsViewController} (h : vc.Shown) (available : Bool)
    (uid : String) (row : ℕ) (calls : List Event) :
    (∃ vc', vc.swipe available uid row = .ok (vc', calls)) ↔
      ∃ e, vc.events[row]? = some e ∧ calls = [e.answering uid available] := by
  constructor
  · rintro ⟨vc', hswipe⟩
    obtain ⟨cell, e, hcell, he, rfl, _⟩ := swipe_eq_ok.1 hswipe
    cases hrow : vc.events[row]? with
    | none =>
        have hlen : vc.events.length ≤ row := List.getElem?_eq_none_iff.1 hrow
        exact nomatch hcell.symm.trans (h.past row hlen)
    | some e₀ =>
        obtain ⟨cell₀, hcell₀, he₀⟩ := h.row row e₀ hrow
        obtain rfl := Option.some.inj (hcell.symm.trans hcell₀)
        obtain rfl := Option.some.inj (he.symm.trans he₀)
        exact ⟨e, rfl, rfl⟩
  · rintro ⟨e, hrow, rfl⟩
    obtain ⟨cell, hcell, he⟩ := h.row row e hrow
    exact ⟨_, swipe_eq_ok.2 ⟨cell, e, hcell, he, rfl, rfl⟩⟩

/-- **When a swipe is recorded for the event that was swiped.**  The actions for
`row` were made while the row showed `e₀`; after any sequence of callbacks the
handler hands exactly one event to `updateEvent`, one with the id of `e₀`, and
does not trap, if and only if the row still shows an event with that id. -/
theorem swipe_target_iff {ε : Type} (decode : Value → Except ε Event) (locale : Locale)
    (uid : String) (vc : EventsViewController) (h : vc.Shown) (row : ℕ) (e₀ : Event)
    (_ : vc.events[row]? = some e₀) (ds : List Delivery) (available : Bool) :
    ∃ vc', vc.deliverAll decode locale uid ds = some vc' ∧
      ((∃ vc'' e, vc'.swipe available uid row = .ok (vc'', [e]) ∧ e.id = e₀.id) ↔
        ∃ e, vc'.events[row]? = some e ∧ e.id = e₀.id) := by
  obtain ⟨vc', hvc', hshown⟩ := deliverAll_spec decode locale uid ds h
  refine ⟨vc', hvc', ?_⟩
  constructor
  · rintro ⟨vc'', e, hswipe, hid⟩
    obtain ⟨e₁, he₁, hcalls⟩ := (swipe_eq_ok_iff hshown available uid row [e]).1 ⟨vc'', hswipe⟩
    obtain rfl := List.singleton_inj.1 hcalls
    exact ⟨e₁, he₁, hid⟩
  · rintro ⟨e, he, hid⟩
    obtain ⟨vc'', hswipe⟩ := (swipe_eq_ok_iff hshown available uid row _).2 ⟨e, he, rfl⟩
    exact ⟨vc'', _, hswipe, hid⟩

theorem shown_opened (ref : FPath) : (opened ref).Shown :=
  ⟨fun _ _ he => (nomatch he), fun _ _ => rfl⟩

/-- A match before `derby`. -/
def friendly : Event := { Event.make 60 80 "Friendly" "" "" "Match" with id := "-LVgeGVQVRBzoQk2dCkA" }

/-- A snapshot with the derby alone. -/
def oneMatch : Delivery :=
  ⟨.children [(Event.storedDerby.id, Event.derbyNode)], fun _ => 50, .refl ℕ⟩

/-- The snapshot after a match before the derby was added. -/
def twoMatches : Delivery :=
  ⟨.children [(friendly.id, friendly.nodeD), (Event.storedDerby.id, Event.derbyNode)],
    fun _ => 50, .refl ℕ⟩

/-- The screen after the first snapshot, and after a second one. -/
theorem exists_deliverAll_oneMatch (d : Delivery) : ∃ vc vc' : EventsViewController, vc.Shown ∧
    vc'.Shown ∧ vc.deliverAll Event.decode someLocale "u" [d] = some vc' ∧
    (opened []).deliverAll Event.decode someLocale "u" [oneMatch] = some vc := by
  obtain ⟨vc, hvc, hshown⟩ :=
    deliverAll_spec Event.decode someLocale "u" [oneMatch] (shown_opened [])
  obtain ⟨vc', hvc', hshown'⟩ := deliverAll_spec Event.decode someLocale "u" [d] hshown
  exact ⟨vc, vc', hshown, hshown', hvc', hvc⟩

/-- The derby stays at the first row while nothing is added. -/
theorem swipe_target_iff_derby : ∃ vc vc' vc'' : EventsViewController, ∃ e,
    vc.deliverAll Event.decode someLocale "u" [oneMatch] = some vc' ∧
    vc'.swipe true "u" 0 = .ok (vc'', [e]) ∧ e.id = Event.storedDerby.id := by
  have hrun : ((opened []).deliverAll Event.decode someLocale "u" [oneMatch]).map (fun vc =>
      (vc.events[0]?, (vc.deliverAll Event.decode someLocale "u" [oneMatch]).map fun vc' =>
        vc'.events[0]?)) = some (some Event.storedDerby, some (some Event.storedDerby)) := by
    decide +kernel
  obtain ⟨vc, vc', hshown, _, hvc', hvc⟩ := exists_deliverAll_oneMatch oneMatch
  rw [hvc, Option.map_some, hvc', Option.map_some] at hrun
  obtain ⟨hrow, hrow'⟩ := Prod.mk.inj (Option.some.inj hrun)
  obtain ⟨vc₁, hvc₁, hiff⟩ := swipe_target_iff Event.decode someLocale "u" vc hshown 0
    Event.storedDerby hrow [oneMatch] true
  obtain rfl := Option.some.inj (hvc'.symm.trans hvc₁)
  obtain ⟨vc'', e, hswipe, hid⟩ := hiff.2 ⟨_, Option.some.inj hrow', rfl⟩
  exact ⟨vc, vc', vc'', e, hvc', hswipe, hid⟩

/-- **A swipe on another event.**  Between the two, a match was added before the
derby, and the swipe on the derby's row answers that match. -/
theorem swipe_other_event : ∃ vc vc' vc'' : EventsViewController, ∃ e, vc.Shown ∧
    vc.events[0]? = some Event.storedDerby ∧
    vc.deliverAll Event.decode someLocale "u" [twoMatches] = some vc' ∧
    vc'.swipe true "u" 0 = .ok (vc'', [e]) ∧ e.id = friendly.id ∧
    e.id ≠ Event.storedDerby.id := by
  have hrun : ((opened []).deliverAll Event.decode someLocale "u" [oneMatch]).map (fun vc =>
      (vc.events[0]?, (vc.deliverAll Event.decode someLocale "u" [twoMatches]).map fun vc' =>
        vc'.events[0]?)) = some (some Event.storedDerby, some (some friendly)) := by
    decide +kernel
  obtain ⟨vc, vc', hshown, hshown', hvc', hvc⟩ := exists_deliverAll_oneMatch twoMatches
  rw [hvc, Option.map_some, hvc', Option.map_some] at hrun
  obtain ⟨hrow, hrow'⟩ := Prod.mk.inj (Option.some.inj hrun)
  obtain ⟨vc'', hswipe⟩ :=
    (swipe_eq_ok_iff hshown' true "u" 0 _).2 ⟨friendly, Option.some.inj hrow', rfl⟩
  exact ⟨vc, vc', vc'', _, hshown, hrow, hvc', hswipe, rfl, by decide⟩

end EventsViewController
end Teamstuff
