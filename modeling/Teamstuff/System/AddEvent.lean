/-
# Runs of the form for a new event

Edits, focus losses, cell updates and lineup operations in any order, each at its own
time.

`Kept.step` is the invariant rule for an action on the rows, and `step_cases` says what any
action can do.  With what the lineup operations keep, no player is fielded twice along any
run (`no_player_twice`), and the next selector offers the players no row holds as long as
nobody is taken out of a row (`always_offersUnplaced_iff`).
-/

import Teamstuff.Controller.FormValidation
import Teamstuff.Library.Run

namespace Teamstuff

namespace AddEventScreen

open AddEventViewController

/-! ### What an action leaves -/

/-- The form an action validates: an edit sets the value first. -/
def edited (s : AddEventScreen) : Action → AddEventViewController
  | .edit e _ _ => e.apply s.vc
  | .endEditing _ _ _ | .updateCell _ _ _ | .lineup _ => s.vc

/-- The clock during an action; the lineup section does not read it. -/
def Action.clock : Action → ℕ → Date
  | .edit _ clock _ | .endEditing _ clock _ | .updateCell _ clock _ => clock
  | .lineup _ => fun _ => 0

/-- The action calls `updateSaveButtonState`: an edit does where the row has errors and
gets other ones. -/
def Calls (s : AddEventScreen) : Action → Prop
  | .edit e clock _ => s.vc.validationErrors (.item e.tag) ≠ [] ∧
      (e.apply s.vc).errorsAt (clock 0) (.item e.tag) ≠ s.vc.validationErrors (.item e.tag)
  | .endEditing _ _ _ | .updateCell (.item _) _ _ => True
  | .updateCell (.lineup _) _ _ | .lineup _ => False

/-- An edit sets one value and nothing else. -/
theorem Edit.apply_validationErrors (e : Edit) (vc : AddEventViewController) :
    (e.apply vc).validationErrors = vc.validationErrors := by cases e <;> rfl

theorem edited_saveButtonIsEnabled (s : AddEventScreen) (a : Action) :
    (s.edited a).saveButtonIsEnabled = s.vc.saveButtonIsEnabled := by
  cases a with
  | edit e clock fuel => cases e <;> rfl
  | endEditing _ _ _ | updateCell _ _ _ | lineup _ => rfl

theorem edited_lineup (s : AddEventScreen) (a : Action) : (s.edited a).lineup = s.vc.lineup := by
  cases a with
  | edit e clock fuel => cases e <;> rfl
  | endEditing _ _ _ | updateCell _ _ _ | lineup _ => rfl

theorem edited_event (s : AddEventScreen) (a : Action) : (s.edited a).event = s.vc.event := by
  cases a with
  | edit e clock fuel => cases e <;> rfl
  | endEditing _ _ _ | updateCell _ _ _ | lineup _ => rfl

/-- **What an edit can do.**  The row is not validated, or gets the errors it had, or
the new ones are stored and `updateSaveButtonState` is called. -/
theorem step_edit {s s' : AddEventScreen} {e : Edit} {clock : ℕ → Date} {fuel : ℕ}
    (h : step s (.edit e clock fuel) = some s') : e.isPossible = true ∧
      ((¬ Calls s (.edit e clock fuel) ∧ (s' = { s.restart with vc := e.apply s.vc } ∨
          s' = ((cells clock).compute (.item e.tag) { s.restart with vc := e.apply s.vc }).2)) ∨
        (Calls s (.edit e clock fuel) ∧ updateSaveButtonState clock fuel
          ((cells clock).store (.item e.tag) ((e.apply s.vc).errorsAt (clock 0) (.item e.tag))
            ((cells clock).compute (.item e.tag) { s.restart with vc := e.apply s.vc }).2) =
          some s')) := by
  obtain ⟨hpossible, h⟩ := Option.ite_none_right_eq_some.1 h
  refine ⟨hpossible, ?_⟩
  unfold setValue at h
  unfold Calls
  rw [← e.apply_validationErrors s.vc]
  dsimp only at h
  split_ifs at h with hempty
  · obtain rfl := Option.some.inj h
    exact Or.inl ⟨fun hcalls => hcalls.1 (List.isEmpty_iff.1 hempty), Or.inl rfl⟩
  · obtain ⟨⟨errors, t⟩, ht, rfl⟩ := Option.map_eq_some_iff.1 h
    unfold validateRow Cells.refresh at ht
    dsimp only at ht
    split_ifs at ht with hsame
    · obtain ⟨_, rfl⟩ := Prod.mk.inj (Option.some.inj ht)
      exact Or.inl ⟨fun hcalls => hcalls.2 hsame, Or.inr rfl⟩
    · obtain ⟨t', ht', heq⟩ := Option.map_eq_some_iff.1 ht
      obtain ⟨_, rfl⟩ := Prod.mk.inj heq
      exact Or.inr ⟨⟨fun hnil => hempty (List.isEmpty_iff.2 hnil), hsame⟩, ht'⟩

/-- **What an action on the rows keeps**, by the rule for the calls in it. -/
theorem Kept.step {s s' : AddEventScreen} {a : Action} {J : AddEventScreen → Prop}
    {Y : FormRow → List ValidationError → Prop} (hkept : Kept a.clock (s.edited a) J Y)
    (hJ : J { s.restart with vc := s.edited a }) (ha : ∀ b, a ≠ .lineup b)
    (h : step s a = some s') : SameForm (s.edited a) s'.vc ∧ J s' := by
  cases a with
  | lineup b => exact absurd rfl (ha b)
  | updateCell row clock fuel =>
      have hrow : SameForm s.vc s.restart.vc ∧ J s.restart := ⟨.refl _, hJ⟩
      exact (hkept.updateCell hrow h).1
  | endEditing tag clock fuel =>
      obtain ⟨⟨errors, t⟩, ht, hcall⟩ := Option.bind_eq_some_iff.1 h
      have hrow : SameForm s.vc s.restart.vc ∧ J s.restart := ⟨.refl _, hJ⟩
      exact (hkept.updateCell (hkept.validateRow hrow ht).1 hcall).1
  | edit e clock fuel =>
      have hcomputed := (hkept.compute (.item e.tag) _ (.refl _) hJ).1
      obtain ⟨_, ⟨_, rfl | rfl⟩ | ⟨_, hcall⟩⟩ := step_edit h
      · exact ⟨.refl _, hJ⟩
      · exact ⟨.refl _, hcomputed⟩
      · exact (hkept.updateSaveButtonState ⟨.refl _, hkept.store _ _ _ hcomputed⟩ hcall).1

/-- **What an action can do**: on the rows it leaves the form it validates, and otherwise
it is one on the lineup. -/
theorem step_cases {s s' : AddEventScreen} {a : Action} (h : step s a = some s') :
    ((∀ b, a ≠ .lineup b) ∧ SameForm (s.edited a) s'.vc) ∨ ∃ b lineup, a = .lineup b ∧
      s.vc.lineup.step s.vc.lineupIsVisible b = some lineup ∧
        s' = { s with vc := { s.vc with lineup := lineup } } := by
  by_cases ha : ∀ b, a ≠ .lineup b
  · have hkept : Kept a.clock (s.edited a) (fun _ => True) fun _ _ => True :=
      ⟨fun _ _ _ _ => ⟨trivial, trivial⟩, fun _ _ _ _ => trivial, fun _ _ _ _ => trivial,
        fun _ _ _ _ _ _ => trivial⟩
    exact Or.inl ⟨ha, (hkept.step trivial ha h).1⟩
  · obtain ⟨b, rfl⟩ := not_forall_not.1 ha
    obtain ⟨lineup, hlineup, rfl⟩ := Option.map_eq_some_iff.1 h
    exact Or.inr ⟨b, lineup, rfl, hlineup, rfl⟩

/-- No action sets the event. -/
theorem event_step {s s' : AddEventScreen} {a : Action} (h : step s a = some s') :
    s'.vc.event = s.vc.event := by
  obtain ⟨_, hform⟩ | ⟨_, _, _, _, rfl⟩ := step_cases h
  · rw [hform.event, edited_event]
  · rfl

/-! ### The lineup -/

theorem sound_step {s s' : AddEventScreen} {a : Action} (hs : s.vc.lineup.Sound)
    (h : step s a = some s') : s'.vc.lineup.Sound := by
  obtain ⟨_, hform⟩ | ⟨b, lineup, _, hlineup, rfl⟩ := step_cases h
  · rwa [hform.lineup, edited_lineup]
  · exact hs.step hlineup

/-- **No player is fielded twice**, whatever is done to the form. -/
theorem no_player_twice (availablePlayers : List String) (h : availablePlayers.Nodup)
    (as : List Action) (s : AddEventScreen)
    (hs : Run.exec step (start availablePlayers) as = some s) (i j : ℕ) (player : String)
    (hi : s.vc.lineup.Holds i player) (hj : s.vc.lineup.Holds j player) : i = j := by
  have hsound : s.vc.lineup.Sound :=
    Run.exec_invariant' (I := fun s => s.vc.lineup.Sound) (fun _ _ _ => sound_step)
      (Lineup.Sound.initial h) hs
  exact hsound.once i j player hi hj

/-- Jos is picked in the first row of a game. -/
def pickJos : List Action :=
  [.edit (.type (some "Game")) (fun _ => 0) 1, .lineup (.didSelect 0), .lineup .viewDidLoad,
    .lineup (.tap 0)]

theorem no_player_twice_jos : ∃ s, Run.exec step (start ["Jos", "Piet"]) pickJos = some s ∧
    s.vc.lineup.Holds 0 "Jos" ∧ ∀ j, s.vc.lineup.Holds j "Jos" → 0 = j := by
  have hjos : ∃ s, Run.exec step (start ["Jos", "Piet"]) pickJos = some s ∧
      s.vc.lineup.Holds 0 "Jos" := ⟨_, rfl, by decide, rfl⟩
  obtain ⟨s, hs, hjos⟩ := hjos
  exact ⟨s, hs, hjos, fun j =>
    no_player_twice ["Jos", "Piet"] (by decide) pickJos s hs 0 j "Jos" hjos⟩

/-- The action takes a player out of a row. -/
def TakesOut (s : AddEventScreen) : Action → Prop
  | .lineup b =>
      (s.vc.lineup.step s.vc.lineupIsVisible b).isSome = true ∧ s.vc.lineup.TakesOut b
  | .edit _ _ _ | .endEditing _ _ _ | .updateCell _ _ _ => False

/-- **Who is offered along a run.**  At every moment the next selector offers exactly the
available players no row holds, if and only if nobody was ever taken out of a row:
`chosenPlayers` only ever grows. -/
theorem always_offersUnplaced_iff (availablePlayers : List String) (h : availablePlayers.Nodup)
    (as : List Action) :
    Run.Always step (fun s => s.vc.lineup.OffersUnplaced) (start availablePlayers) as ↔
      Run.Guarded step (fun s a => ¬ TakesOut s a) (start availablePlayers) as := by
  refine Run.always_iff_guarded (Q := fun _ => True) (I := fun s => s.vc.lineup.Sound)
    (fun s a s' _ hs _ h _ => sound_step hs h) (fun s a _ hs hoffers => ?_)
    (Lineup.Sound.initial h) (.initial availablePlayers) fun _ _ => trivial
  constructor
  · intro hnone s' h
    obtain ⟨_, hform⟩ | ⟨b, lineup, rfl, hlineup, rfl⟩ := step_cases h
    · rwa [hform.lineup, edited_lineup]
    · exact (hs.offers_step_iff hoffers hlineup).2 fun htakes =>
        hnone ⟨by rw [hlineup]; rfl, htakes⟩
  · intro hsafe htakes
    cases a with
    | edit _ _ _ | endEditing _ _ _ | updateCell _ _ _ => exact htakes
    | lineup b =>
        obtain ⟨hsome, htakes⟩ := htakes
        obtain ⟨lineup, hlineup⟩ := Option.isSome_iff_exists.1 hsome
        have hstep : step s (.lineup b) = some { s with vc := { s.vc with lineup := lineup } } :=
          Option.map_eq_some_iff.2 ⟨lineup, hlineup, rfl⟩
        exact (hs.offers_step_iff hoffers hlineup).1 (hsafe _ hstep) htakes

/-- Jos is in a row from the last action on, and is offered until then. -/
theorem always_offersUnplaced_iff_jos :
    Run.Always step (fun s => s.vc.lineup.OffersUnplaced) (start ["Jos", "Piet"]) pickJos := by
  refine (always_offersUnplaced_iff ["Jos", "Piet"] (by decide) pickJos).2 ?_
  refine ⟨not_false, fun s₁ h₁ => ⟨And.right, fun s₂ h₂ => ⟨And.right, fun s₃ h₃ =>
    ⟨?_, fun _ _ => trivial⟩⟩⟩⟩
  obtain rfl := Option.some.inj h₁
  obtain rfl := Option.some.inj h₂
  obtain rfl := Option.some.inj h₃
  rintro ⟨_, vc, player, hvc, _, hvalue⟩
  obtain rfl := Option.some.inj hvc
  exact nomatch hvalue

/-- **A player who is gone for good.**  The row Jos is in is deleted.  No row holds him
then, and he is not offered. -/
theorem deleted_not_offered : ∃ s,
    Run.exec step (start ["Jos", "Piet"]) (pickJos ++ [.lineup .dismiss, .lineup (.delete 1)]) = some s ∧
      "Jos" ∈ s.vc.lineup.availablePlayers ∧ (∀ id, ¬ s.vc.lineup.Holds id "Jos") ∧
      "Jos" ∉ s.vc.lineup.notChosenPlayers := by
  refine ⟨_, rfl, List.mem_cons_self, ?_, by decide⟩
  rintro id ⟨hrow, hvalue⟩
  have hrows : LineupRow.pushRow id ∈ [.switchRow, .pushRow 1, .pushRow 2, .buttonRow] := hrow
  have hid : id = 1 ∨ id = 2 := by simpa using hrows
  rcases hid with rfl | rfl
  · exact nomatch hvalue
  · exact nomatch hvalue

end AddEventScreen

end Teamstuff
