/-
# The save button

A validation enables the button and none ever disables it, so it lies once a changed form
with the button enabled is validated and found invalid (`truthful_iff`), and a tap on it
then leaves the screen with nothing saved (`save_iff`).  What is saved is well formed all
the same: the validation in `prepare(for:sender:)` is the one that counts
(`event_wellFormed`).
-/

import Teamstuff.System.AddEvent
import Mathlib.Data.Nat.Cast.Order.Basic

namespace Teamstuff

namespace AddEventScreen

open AddEventViewController

/-! ### What the calls report -/

/-- What a call of `updateSaveButtonState` reports when it began with the button enabled
or not, on a form that is valid or not at every reading of the clock. -/
def outcome (v : AddEventViewController) (valid isEnabled : Bool) : Report where
  isEnabled := !v.isClean && (valid || isEnabled)
  changed := !v.isClean
  valid := valid

/-- A call lies if it finds a changed and invalid form and an enabled button. -/
theorem outcome_isTrue {v : AddEventViewController} {valid isEnabled : Bool} :
    (outcome v valid isEnabled).IsTrue ↔
      ¬ (v.isClean = false ∧ valid = false ∧ isEnabled = true) := by
  unfold outcome Report.IsTrue
  cases v.isClean <;> cases valid <;> cases isEnabled <;> decide

/-- The calls that nest in an action all report the same: what they do to the button,
those that follow do again. -/
theorem kept_outcome {clock : ℕ → Date} {v : AddEventViewController} {valid isEnabled : Bool}
    (hsteady : ∀ n, v.isValidAt (clock n) = valid) (reports : List Report) :
    Kept clock v
      (fun t => (t.vc.saveButtonIsEnabled = isEnabled ∨
          t.vc.saveButtonIsEnabled = (outcome v valid isEnabled).isEnabled) ∧
        ∃ k, t.reports = List.replicate k (outcome v valid isEnabled) ++ reports)
      (YieldedFrom clock v 0) where
  compute := fun _ t _ ht => ⟨ht, t.reading, Nat.zero_le _, rfl⟩
  store := fun _ _ _ ht => ht
  clean := fun hc t hform ht => by
    obtain ⟨_, k, hk⟩ := ht
    have hreport : (⟨false, !t.vc.isClean, t.vc.isValidAt (clock t.reading)⟩ : Report) =
        outcome v valid isEnabled := by
      rw [hform.isClean, hform.isValidAt, hsteady, outcome, hc]
      rfl
    refine ⟨Or.inr (congrArg Report.isEnabled hreport), k + 1, ?_⟩
    rw [List.replicate_succ, List.cons_append, ← hk, ← hreport]
    rfl
  done := fun hc t errors hform ht herrors => by
    obtain ⟨henabled, k, hk⟩ := ht
    rw [flatten_isEmpty_of_steady hsteady herrors]
    have hreport : (⟨if valid then true else t.vc.saveButtonIsEnabled, !t.vc.isClean,
        t.vc.isValidAt (clock t.reading)⟩ : Report) = outcome v valid isEnabled := by
      rw [hform.isClean, hform.isValidAt, hsteady, outcome, hc]
      rw [outcome, hc] at henabled
      cases valid with
      | true => rfl
      | false => rcases henabled with henabled | henabled <;> simp [henabled]
    have hif : (if valid = true then t.setEnabled true else t).returned clock =
        { t with
          vc := { t.vc with
            saveButtonIsEnabled := if valid then true else t.vc.saveButtonIsEnabled }
          reports := outcome v valid isEnabled :: t.reports } := by
      rw [← hreport]
      cases valid <;> rfl
    rw [hif]
    refine ⟨Or.inr (congrArg Report.isEnabled hreport), k + 1, ?_⟩
    rw [List.replicate_succ, List.cons_append, ← hk]

/-- A call reports its own end, and nothing that was reported is taken back. -/
theorem length_reports_le {clock : ℕ → Date} {v : AddEventViewController} {n : ℕ} :
    Kept clock v (fun t => n ≤ t.reports.length) fun _ _ => True where
  compute := fun _ _ _ ht => ⟨ht, trivial⟩
  store := fun _ _ _ ht => ht
  clean := fun _ _ _ ht => Nat.le_succ_of_le ht
  done := fun _ t errors _ ht _ => by
    split_ifs <;> exact Nat.le_succ_of_le ht

/-- A call of `updateSaveButtonState` reports its end. -/
theorem length_reports_lt {clock : ℕ → Date} {fuel : ℕ} {s s' : AddEventScreen}
    (h : updateSaveButtonState clock fuel s = some s') : s.reports.length < s'.reports.length := by
  cases fuel with
  | zero => exact nomatch h
  | succ fuel =>
      cases hc : s.vc.isClean with
      | true =>
          rw [updateSaveButtonState, if_pos hc] at h
          obtain rfl := Option.some.inj h
          exact Nat.lt_succ_self _
      | false =>
          obtain ⟨errors, t, ht, rfl⟩ := (updateSaveButtonState_succ hc).1 h
          have hle : s.reports.length ≤ t.reports.length :=
            (length_reports_le.validate ⟨.refl s.vc, Nat.le_refl _⟩ ht).1.1.2
          split_ifs <;> exact Nat.lt_succ_of_le hle

/-- An action that calls `updateSaveButtonState` reports something. -/
theorem length_reports_step {s s' : AddEventScreen} {a : Action} (hcalls : Calls s a)
    (h : step s a = some s') : s.reports.length < s'.reports.length := by
  cases a with
  | lineup b => exact hcalls.elim
  | updateCell row clock fuel =>
      cases row with
      | lineup row => exact hcalls.elim
      | item tag =>
          have hlt : s.restart.reports.length < s'.reports.length := length_reports_lt h
          exact hlt
  | endEditing tag clock fuel =>
      obtain ⟨⟨errors, t⟩, ht, hcall⟩ := Option.bind_eq_some_iff.1 h
      have hrow : SameForm s.vc s.restart.vc ∧ s.reports.length ≤ s.restart.reports.length :=
        ⟨.refl _, Nat.le_refl _⟩
      exact Nat.lt_of_le_of_lt (length_reports_le.validateRow hrow ht).1.2 (length_reports_lt hcall)
  | edit e clock fuel =>
      obtain ⟨_, ⟨hnone, _⟩ | ⟨_, hcall⟩⟩ := step_edit h
      · exact absurd hcalls hnone
      · have hlt := length_reports_lt hcall
        exact hlt

/-- The other actions report nothing. -/
theorem reports_step {s s' : AddEventScreen} {a : Action} (hcalls : ¬ Calls s a)
    (h : step s a = some s') : s'.reports = s.reports := by
  cases a with
  | lineup b =>
      obtain ⟨_, _, rfl⟩ := Option.map_eq_some_iff.1 h
      rfl
  | updateCell row clock fuel =>
      cases row with
      | lineup row =>
          obtain rfl := Option.some.inj h
          rfl
      | item tag => exact absurd trivial hcalls
  | endEditing tag clock fuel => exact absurd trivial hcalls
  | edit e clock fuel =>
      obtain ⟨_, ⟨_, rfl | rfl⟩ | ⟨hcall, _⟩⟩ := step_edit h
      · rfl
      · rfl
      · exact absurd hcall hcalls

/-- The action at other times. -/
def Action.onClock (clock : ℕ → Date) : Action → Action
  | .edit e _ fuel => .edit e clock fuel
  | .endEditing tag _ fuel => .endEditing tag clock fuel
  | .updateCell row _ fuel => .updateCell row clock fuel
  | .lineup b => .lineup b

/-- The form that is validated does not depend on the clock. -/
theorem edited_onClock (s : AddEventScreen) (clock : ℕ → Date) (a : Action) :
    s.edited (a.onClock clock) = s.edited a := by cases a <;> rfl

/-- An action on the rows at other times. -/
theorem Action.clock_onClock {clock : ℕ → Date} {a : Action} (ha : ∀ b, a ≠ .lineup b) :
    (a.onClock clock).clock = clock ∧ ∀ b, a.onClock clock ≠ .lineup b := by
  cases a with
  | lineup b => exact absurd rfl (ha b)
  | edit _ _ _ | endEditing _ _ _ | updateCell _ _ _ => exact ⟨rfl, nofun⟩

/-- **What is read after an action** does not matter to it. -/
theorem step_onClock {s s' : AddEventScreen} {a : Action} {clock : ℕ → Date}
    (hclock : ∀ n ≤ s'.reading, clock n = a.clock n) (h : step s a = some s') :
    step s (a.onClock clock) = some s' := by
  cases a with
  | lineup b => exact h
  | updateCell row _ fuel =>
      exact (updateCell_congr (fun _ _ => updateSaveButtonState_congr hclock) h (Nat.le_refl _)).2
  | endEditing tag _ fuel =>
      obtain ⟨⟨errors, t⟩, ht, hcall⟩ := Option.bind_eq_some_iff.1 h
      obtain ⟨hle, hcall'⟩ := updateSaveButtonState_congr hclock hcall (Nat.le_refl _)
      exact Option.bind_eq_some_iff.2 ⟨(errors, t), validateRow_congr hclock ht hle, hcall'⟩
  | edit e _ fuel =>
      rw [step] at h
      rw [Action.onClock, step]
      split_ifs at h ⊢
      rw [setValue] at h ⊢
      dsimp only at h ⊢
      split_ifs at h ⊢
      · exact h
      · obtain ⟨⟨errors, t⟩, ht, rfl⟩ := Option.map_eq_some_iff.1 h
        exact Option.map_eq_some_iff.2
          ⟨(errors, t), validateRow_congr hclock ht (Nat.le_refl _), rfl⟩

/-- How often the clock is read in the action. -/
def readings (s : AddEventScreen) (a : Action) : ℕ := ((step s a).map reading).getD 0

/-- No date of the form runs out during the action: the form it validates is valid at every
reading of the clock, up to the end of the action, or at none. -/
def Steady (s : AddEventScreen) (a : Action) : Prop :=
  ∀ n ≤ s.readings a, (s.edited a).isValidAt (a.clock n) = (s.edited a).isValidAt (a.clock 0)

/-- **The calls of an action all report the same**, and there are some exactly where the
action calls `updateSaveButtonState` at all. -/
theorem step_reports {s s' : AddEventScreen} {a : Action} (hsteady : Steady s a)
    (h : step s a = some s') : ∃ k, (k ≠ 0 ↔ Calls s a) ∧
      s'.reports = List.replicate k (outcome (s.edited a) ((s.edited a).isValidAt (a.clock 0))
        s.vc.saveButtonIsEnabled) ++ s.reports := by
  by_cases hcalls : Calls s a
  · have hlt := length_reports_step hcalls h
    -- the clock might as well stand still from the end of the action on
    let clock := stoppedAt a.clock s'.reading
    have hclock : ∀ n ≤ s'.reading, clock n = a.clock n := fun _ hn => stoppedAt_of_le a.clock hn
    have hreadings : s.readings a = s'.reading := by rw [readings, h]; rfl
    have hvalid : ∀ n, (s.edited a).isValidAt (clock n) = (s.edited a).isValidAt (a.clock 0) :=
      fun n => hsteady _ (hreadings.symm ▸ Nat.min_le_right ..)
    have ha : ∀ b, a ≠ .lineup b := by
      rintro b rfl
      exact hcalls
    obtain ⟨hclock', ha'⟩ : (a.onClock clock).clock = clock ∧ ∀ b, a.onClock clock ≠ .lineup b :=
      Action.clock_onClock ha
    have hstep := step_onClock hclock h
    rw [← hclock', ← edited_onClock s clock a] at hvalid
    obtain ⟨_, _, k, hk⟩ := (kept_outcome hvalid s.reports).step
      ⟨Or.inl (s.edited_saveButtonIsEnabled _), 0, rfl⟩ ha' hstep
    rw [edited_onClock] at hk
    refine ⟨k, iff_of_true ?_ hcalls, hk⟩
    rintro rfl
    rw [hk] at hlt
    exact Nat.lt_irrefl _ hlt
  · exact ⟨0, iff_of_false (fun hne => hne rfl) hcalls, reports_step hcalls h⟩

/-! ### Whether the button tells the truth -/

/-- Every call so far has left the button as it should be. -/
def Truthful (s : AddEventScreen) : Prop := ∀ r ∈ s.reports, r.IsTrue

/-- The action validates a changed form that is not valid while the button is enabled. -/
def Lies (s : AddEventScreen) (a : Action) : Prop :=
  (step s a).isSome = true ∧ Calls s a ∧ (s.edited a).isClean = false ∧
    (s.edited a).isValidAt (a.clock 0) = false ∧ s.vc.saveButtonIsEnabled = true

/-- An action keeps to the truth unless it lies. -/
theorem truthful_step {s s' : AddEventScreen} {a : Action} (hsteady : Steady s a)
    (hs : s.Truthful) (h : step s a = some s') : s'.Truthful ↔ ¬ Lies s a := by
  obtain ⟨k, hk, hreports⟩ := step_reports hsteady h
  have hsome : (step s a).isSome = true := by rw [h]; rfl
  unfold Truthful
  rw [hreports]
  constructor
  · rintro htrue ⟨_, hcalls, hlies⟩
    refine outcome_isTrue.1 (htrue _ (List.mem_append_left _ ?_)) hlies
    exact List.mem_replicate.2 ⟨hk.2 hcalls, rfl⟩
  · intro hlies r hr
    rcases List.mem_append.1 hr with hr | hr
    · obtain ⟨hne, rfl⟩ := List.mem_replicate.1 hr
      exact outcome_isTrue.2 fun hbad => hlies ⟨hsome, hk.1 hne, hbad⟩
    · exact hs r hr

/-- **When the button tells the truth.**  In a run in whose actions no date runs out,
every return of `updateSaveButtonState` finds the button enabled exactly for a changed and
valid form, if and only if no action validates a changed and invalid form while the button is
enabled. -/
theorem truthful_iff (availablePlayers : List String) (as : List Action)
    (hsteady : Run.Guarded step Steady (start availablePlayers) as) :
    Run.Always step Truthful (start availablePlayers) as ↔
      Run.Guarded step (fun s a => ¬ Lies s a) (start availablePlayers) as := by
  refine Run.always_iff_guarded_of_guarded (I := fun _ => True)
    (fun _ _ _ _ _ _ _ _ => trivial) (fun s a hsteady _ hs => ?_) trivial
    (fun r hr => absurd hr List.not_mem_nil) hsteady
  constructor
  · exact fun hlies s' h => (truthful_step hsteady hs h).2 hlies
  · intro hsafe hlies
    obtain ⟨s', h⟩ := Option.isSome_iff_exists.1 hlies.1
    exact (truthful_step hsteady hs h).1 (hsafe s' h) hlies

/-- The name of the derby is filled in. -/
def nameDerby : List Action :=
  [.updateCell (.item .name) (fun _ => 0) 9, .edit (.name (some "Derby")) (fun _ => 0) 9,
    .endEditing .name (fun _ => 0) 9]

/-- The derby is filled in until the form is valid, and then its name is cleared. -/
def clearDerby : List Action :=
  nameDerby ++
  [.edit (.description (some "Cup")) (fun _ => 0) 9, .edit (.location (some "Home")) (fun _ => 0) 9,
    .edit (.type (some "Game")) (fun _ => 0) 9, .edit (.dateStart (some 100)) (fun _ => 0) 9,
    .edit (.dateEnd (some 200)) (fun _ => 0) 9, .endEditing .dateEnd (fun _ => 0) 9,
    .edit (.name none) (fun _ => 0) 9, .endEditing .name (fun _ => 0) 9]

/-- Only the name is filled in. -/
theorem truthful_iff_nameDerby : Run.Always step Truthful (start ["Jos"]) nameDerby := by
  refine (truthful_iff ["Jos"] nameDerby ?_).2 ?_
  · exact ⟨fun _ _ => rfl, fun _ _ =>
      ⟨fun _ _ => rfl, fun _ _ => ⟨fun _ _ => rfl, fun _ _ => trivial⟩⟩⟩
  · refine ⟨fun hlies => ?_, fun s₁ h₁ => ⟨fun hlies => ?_, fun s₂ h₂ =>
      ⟨fun hlies => ?_, fun _ _ => trivial⟩⟩⟩
    · exact nomatch hlies.2.2.1
    · obtain rfl := Option.some.inj h₁
      exact hlies.2.1.1 rfl
    · obtain rfl := Option.some.inj h₁
      obtain rfl := Option.some.inj h₂
      exact nomatch hlies.2.2.2.2

/-- **A button that stays enabled.**  With its name cleared the form is not valid any more,
and the validation that finds out leaves the button enabled. -/
theorem clearDerby_enabled : ∃ s, Run.exec step (start ["Jos"]) clearDerby = some s ∧
    s.reports.head? = some ⟨true, true, false⟩ ∧ ¬ (⟨true, true, false⟩ : Report).IsTrue :=
  ⟨_, rfl, rfl, Bool.noConfusion⟩

/-! ### What a tap saves -/

/-- Nothing but `prepare(for:sender:)` sets the event. -/
theorem event_exec {availablePlayers : List String} {as : List Action} {s : AddEventScreen}
    (hs : Run.exec step (start availablePlayers) as = some s) : s.vc.event = none :=
  Run.exec_invariant' (I := fun s => s.vc.event = none) (fun _ _ _ hs h => (event_step h).trans hs)
    rfl hs

/-- What `prepare(for:sender:)` leaves of a screen without an event, if no cast traps. -/
theorem prepare_saveButton {clock : ℕ → Date} {fuel : ℕ} {s s' : AddEventScreen}
    (h : prepare .saveButton clock fuel s = some (some s')) :
    ∃ errors t, validate clock (updateSaveButtonState clock fuel) s = some (errors, t) ∧
      ((errors.flatten = [] ∧ ∃ event, makeEvent s.vc.values = some event ∧
          s'.vc.event = some event) ∨
        (errors.flatten ≠ [] ∧ s'.vc.event = s.vc.event)) := by
  obtain ⟨⟨errors, t⟩, ht, hif⟩ := Option.map_eq_some_iff.1 h
  obtain ⟨hform, _⟩ := validate_spec ht
  refine ⟨errors, t, ht, ?_⟩
  dsimp only at hif
  split_ifs at hif with hempty
  · obtain ⟨event, hevent, rfl⟩ := Option.map_eq_some_iff.1 hif
    exact Or.inl ⟨List.isEmpty_iff.1 hempty, event, hform.values ▸ hevent, rfl⟩
  · obtain rfl := Option.some.inj hif
    exact Or.inr ⟨fun hnil => hempty (List.isEmpty_iff.2 hnil), hform.event⟩

/-- One `setValue` was issued, by `addEvent`, of an event with the title, the type and the
dates of the form. -/
def SavesForm (events : EventsViewController) (vc : AddEventViewController) (key : String)
    (issued : List Write) : Prop :=
  ∃ write event, issued = [write] ∧ events.addEvent event key = .ok write ∧
    vc.name = some event.title ∧ vc.type = some event.type ∧
    vc.dateStart = some event.startDate ∧ vc.dateEnd = some event.endDate

/-- How often the clock is read when the form is saved. -/
def savingReadings (s : AddEventScreen) (clock : ℕ → Date) (fuel : ℕ) : ℕ :=
  ((validate clock (updateSaveButtonState clock fuel) s.restart).map fun r => r.2.reading).getD 0

/-- **When a tap saves the form.**  A tap on the enabled button that leaves the screen has
saved the form if and only if the form is valid at the tap; no date is to run out while the
form is validated. -/
theorem save_iff (events : EventsViewController) (key : String) (availablePlayers : List String)
    (as : List Action) (s : AddEventScreen)
    (hs : Run.exec step (start availablePlayers) as = some s) (clock : ℕ → Date) (fuel : ℕ)
    (hsteady : ∀ n ≤ s.savingReadings clock fuel,
      s.vc.isValidAt (clock n) = s.vc.isValidAt (clock 0))
    (issued : List Write) (h : s.save events key clock fuel = some (.left issued)) :
    SavesForm events s.vc key issued ↔ s.vc.isValidAt (clock 0) = true := by
  obtain ⟨_, h⟩ := Option.ite_none_right_eq_some.1 h
  obtain ⟨prepared, hprepare, h⟩ := Option.map_eq_some_iff.1 h
  cases prepared with
  | none => exact nomatch h
  | some s' =>
      obtain ⟨errors, t, ht, hevent⟩ := prepare_saveButton hprepare
      have hreadings : s.savingReadings clock fuel = t.reading := by
        rw [savingReadings, ht]
        rfl
      have hvalid : errors.flatten.isEmpty = s.vc.isValidAt (clock 0) :=
        flatten_isEmpty_of_readings ht (hreadings ▸ hsteady)
      rw [← hvalid, List.isEmpty_iff]
      dsimp only at h
      rcases hevent with ⟨hnil, event, hmake, hevent⟩ | ⟨hnil, hevent⟩
      · refine iff_of_true ?_ hnil
        obtain ⟨_, _, _, _, _, _, hstart, hend, hname, _, _, htype, rfl⟩ := makeEvent_eq_some.1 hmake
        unfold EventsViewController.unwindToEventList at h
        rw [hevent] at h
        dsimp only at h
        cases hadd : events.addEvent _ key with
        | error exception =>
            rw [hadd] at h
            exact nomatch h
        | ok write =>
            rw [hadd] at h
            cases h
            exact ⟨write, _, rfl, hadd, hname, htype, hstart, hend⟩
      · refine iff_of_false ?_ hnil
        have hnone : s.vc.event = none := event_exec hs
        have hnone' : s'.vc.event = none := hevent.trans hnone
        unfold EventsViewController.unwindToEventList at h
        rw [hnone'] at h
        cases h
        rintro ⟨write, event, hissued, _⟩
        exact nomatch hissued

/-- The derby is filled in until the form is valid. -/
def fillDerby : List Action := clearDerby.take 9

/-- The derby is filled in and saved. -/
theorem save_iff_fillDerby : ∃ s issued, Run.exec step (start ["Jos"]) fillDerby = some s ∧
    s.save (.opened ["Teams", "T1", "Events"]) "-K1" (fun _ => 0) 9 = some (.left issued) ∧
      SavesForm (.opened ["Teams", "T1", "Events"]) s.vc "-K1" issued := by
  have hrun : ∃ s issued, Run.exec step (start ["Jos"]) fillDerby = some s ∧
      s.save (.opened ["Teams", "T1", "Events"]) "-K1" (fun _ => 0) 9 = some (.left issued) ∧
        s.vc.isValidAt 0 = true := ⟨_, _, rfl, rfl, rfl⟩
  obtain ⟨s, issued, hs, hsave, hvalid⟩ := hrun
  exact ⟨s, issued, hs, hsave,
    (save_iff _ "-K1" ["Jos"] fillDerby s hs (fun _ => 0) 9 (fun _ _ => rfl) issued hsave).2 hvalid⟩

/-- **A form that is lost.**  The button is still enabled with the name cleared.  A tap on it
leaves the screen, and nothing is saved. -/
theorem clearDerby_lost : ∃ s, Run.exec step (start ["Jos"]) clearDerby = some s ∧
    s.save (.opened ["Teams", "T1", "Events"]) "-K1" (fun _ => 0) 9 = some (.left []) :=
  ⟨_, rfl, rfl⟩

/-! ### What is saved -/

/-- The picker has set the type. -/
theorem mem_typeOptions_exec {availablePlayers : List String} {as : List Action}
    {s : AddEventScreen} (hs : Run.exec step (start availablePlayers) as = some s) :
    ∀ type, s.vc.type = some type → type ∈ typeOptions := by
  have hloaded : ∀ type, (none : Option String) = some type → type ∈ typeOptions :=
    fun type h => nomatch h
  refine Run.exec_invariant' (I := fun s => ∀ type, s.vc.type = some type → type ∈ typeOptions)
    (fun s a s' hI h => ?_) hloaded hs
  obtain ⟨_, hform⟩ | ⟨_, _, _, _, rfl⟩ := step_cases h
  · rw [hform.type]
    cases a with
    | endEditing _ _ _ | updateCell _ _ _ | lineup _ => exact hI
    | edit e clock fuel =>
        obtain ⟨hpossible, _⟩ := step_edit h
        cases e with
        | type value =>
            rintro type rfl
            exact List.contains_iff_mem.1 hpossible
        | name _ | description _ | location _ | dateStart _ | dateEnd _ => exact hI
  · exact hI

/-- **Only well-formed events are made**, whatever was edited in which order, and however
much time passes while `prepare(for:sender:)` validates the form: the dates are later than its
first reading of the clock. -/
theorem event_wellFormed (availablePlayers : List String) (as : List Action) (s : AddEventScreen)
    (hs : Run.exec step (start availablePlayers) as = some s) (sender : Sender)
    (clock : ℕ → Date) (hclock : Monotone clock) (fuel : ℕ) (s' : AddEventScreen)
    (h : prepare sender clock fuel s.restart = some (some s')) (event : Event)
    (hevent : s'.vc.event = some event) :
    event.title ≠ "" ∧ event.type ∈ typeOptions ∧ event.startDate < event.endDate ∧
      clock 0 < event.startDate ∧ clock 0 < event.endDate := by
  have hnone : s.vc.event = none := event_exec hs
  cases sender with
  | other =>
      obtain rfl := Option.some.inj (Option.some.inj h)
      exact nomatch hnone.symm.trans hevent
  | saveButton =>
      obtain ⟨errors, t, ht, hevent' | hevent'⟩ := prepare_saveButton h
      · obtain ⟨hnil, made, hmake, hmade⟩ := hevent'
        obtain rfl := Option.some.inj (hmade.symm.trans hevent)
        obtain ⟨startDate, endDate, title, _, _, type, hstart, hend, hname, _, _, htype, rfl⟩ :=
          makeEvent_eq_some.1 hmake
        obtain ⟨_, herrors, _⟩ := validate_spec ht
        have hrows : ∀ tag, ∃ m, s.restart.vc.errorsAt (clock m) (.item tag) = [] := fun tag =>
          exists_errorsAt_eq_nil herrors hnil _ (s.restart.vc.mem_rows tag)
        obtain ⟨_, hname'⟩ := hrows .name
        obtain ⟨title', htitle, hne⟩ := errorsAt_name.1 hname'
        obtain rfl := Option.some.inj (hname.symm.trans htitle)
        obtain ⟨m, hstart'⟩ := hrows .dateStart
        obtain ⟨startDate', hdate, hnow, hbefore⟩ := errorsAt_dateStart.1 hstart'
        obtain rfl := Option.some.inj (hstart.symm.trans hdate)
        have hfuture : clock 0 < startDate := lt_of_le_of_lt (hclock (Nat.zero_le m)) hnow
        have horder : startDate < endDate := hbefore endDate hend
        exact ⟨hne, mem_typeOptions_exec hs type htype, horder, hfuture, lt_trans hfuture horder⟩
      · exact nomatch hnone.symm.trans (hevent'.2.symm.trans hevent)

/-- The derby, saved while the clock moves on with every reading. -/
theorem event_wellFormed_fillDerby : ∃ s s' event,
    Run.exec step (start ["Jos"]) fillDerby = some s ∧
    prepare .saveButton (fun n => n) 9 s.restart = some (some s') ∧ s'.vc.event = some event ∧
    event.title ≠ "" ∧ event.type ∈ typeOptions ∧ event.startDate < event.endDate ∧
      0 < event.startDate ∧ 0 < event.endDate := by
  have hrun : ∃ s s' event, Run.exec step (start ["Jos"]) fillDerby = some s ∧
      prepare .saveButton (fun n => n) 9 s.restart = some (some s') ∧ s'.vc.event = some event :=
    ⟨_, _, _, rfl, rfl, rfl⟩
  obtain ⟨s, s', event, hs, h, hevent⟩ := hrun
  exact ⟨s, s', event, hs, h, hevent, event_wellFormed ["Jos"] fillDerby s hs .saveButton
    (fun n => n) Nat.mono_cast 9 s' h event hevent⟩

end AddEventScreen

end Teamstuff
