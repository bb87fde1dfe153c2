/-
# The event detail screen

`EventDetailViewController.swift`: the event the screen shows and the reference it
observes.  The reference is taken anew, from the `teamIdGlobal` of the moment, each
time the screen loads or appears.
-/

import Teamstuff.Controller.EventsViewController

namespace Teamstuff

/-- `EventDetailViewController`. -/
structure EventDetailViewController where
  event : Option Event
  ref : FPath

namespace EventDetailViewController

/-- `fetchEvent`, up to the registration of the observer; `none` where it traps or
raises. -/
def fetchEvent (teamIdGlobal : String) (vc : EventDetailViewController) :
    Option EventDetailViewController :=
  vc.event.bind fun event =>
    let ref : Except NSException FPath := do
      let teams ← FPath.child [] "Teams"
      let team ← teams.child teamIdGlobal
      let events ← team.child "Events"
      events.child event.id
    ref.toOption.map fun ref => { vc with ref := ref }

/-- The callback of `fetchEvent`. -/
def fetched {ε : Type} (decode : Value → Except ε Event) (value : Value)
    (vc : EventDetailViewController) : EventDetailViewController :=
  match decode value with
  | .ok model => { vc with event := some model }
  | .error _ => vc

theorem fetched_ref {ε : Type} (decode : Value → Except ε Event) (value : Value)
    (vc : EventDetailViewController) : (vc.fetched decode value).ref = vc.ref := by
  unfold fetched
  cases decode value <;> rfl

/-- The reference `fetchEvent` takes. -/
theorem fetchEvent_eq_some {teamId : String} {vc vc' : EventDetailViewController} :
    vc.fetchEvent teamId = some vc' ↔ ∃ event, vc.event = some event ∧
      isValidPathString teamId = true ∧ isValidPathString event.id = true ∧
      vc' = { vc with
        ref := ["Teams"] ++ FPath.initWith teamId ++ ["Events"] ++ FPath.initWith event.id } := by
  unfold fetchEvent
  rw [Option.bind_eq_some_iff]
  refine exists_congr fun event => and_congr_right fun _ => ?_
  rw [FPath.child_of_isValidKey [] (s := "Teams") (by decide), Except.ok_bind]
  simp only [Option.map_eq_some_iff, Except.toOption_eq_some, Except.bind_eq_ok, FPath.child_eq_ok]
  constructor
  · rintro ⟨_, ⟨_, ⟨hteam, rfl⟩, _, ⟨_, rfl⟩, hevent, rfl⟩, rfl⟩
    exact ⟨hteam, hevent, rfl⟩
  · rintro ⟨hteam, hevent, rfl⟩
    exact ⟨_, ⟨_, ⟨hteam, rfl⟩, _, ⟨by decide, rfl⟩, hevent, rfl⟩, rfl⟩

end EventDetailViewController
end Teamstuff
