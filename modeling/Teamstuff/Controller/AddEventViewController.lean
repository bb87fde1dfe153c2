/-
# The form for a new event

`AddEventViewController.swift` with what Eureka's `Row.swift`, `BaseRow.swift`,
`Form.swift` and `Core.swift` do when a row is edited, loses the focus or is
validated.

A row stores the errors of its last validation, and an observer of the stored errors
updates the row's cell when they change.  The cells of the rows of the first section
have a closure that calls `updateSaveButtonState`, which validates all rows again, in
the middle of the validation it was called from.  `fuel` bounds how deep the calls
nest.

The rules of the two dates read the clock, and a call can take time: `clock` is the
sequence of what `Date()` returns.
-/

import Teamstuff.Controller.Account
import Teamstuff.Controller.Lineup
import Teamstuff.Library.Refresh

namespace Teamstuff

/-- `FormItems`, the tags of the rows of the first section, in the order of the rows. -/
inductive FormItems
  | name
  | description
  | location
  | type
  | dateStart
  | dateEnd
deriving DecidableEq, Repr

/-- A row of the form. -/
inductive FormRow
  | item (tag : FormItems)
  | lineup (row : LineupRow)
deriving DecidableEq, Repr

/-- What `form.values()` holds for a row that has a value. -/
inductive RowValue
  | string (s : String)
  | date (d : Date)
deriving DecidableEq

/-- `as! String`; `none` where the cast traps. -/
def RowValue.asString : Option RowValue → Option String
  | some (.string s) => some s
  | some (.date _) | none => none

/-- `as! Date`. -/
def RowValue.asDate : Option RowValue → Option Date
  | some (.date d) => some d
  | some (.string _) | none => none

/-- `AddEventViewController` with its form. -/
structure AddEventViewController where
  name : Option String
  description : Option String
  location : Option String
  type : Option String
  dateStart : Option Date
  dateEnd : Option Date
  lineup : Lineup
  wasChanged : FormItems → Bool
  validationErrors : FormRow → List ValidationError
  saveButtonIsEnabled : Bool
  event : Option Event

/-- The options of the type row. -/
def typeOptions : List String := ["Game", "Training", "Other"]

/-- `RuleRequired.isValid(value:)` of a date row. -/
def ruleRequiredDate : Option Date → Option ValidationError
  | some _ => none
  | none => some ⟨"Field required!"⟩

/-- The closure `afterEndDateRule` of the start date, with the value of the other row. -/
def afterEndDateRule (endDate rowValue : Option Date) : Option ValidationError :=
  match rowValue, endDate with
  | some rowValue, some endDate =>
      if rowValue < endDate then none else some ⟨"Start date should be before end date"⟩
  | _, _ => none

/-- The closure `afterStartDateRule` of the end date. -/
def afterStartDateRule (startDate rowValue : Option Date) : Option ValidationError :=
  match rowValue, startDate with
  | some rowValue, some startDate =>
      if startDate < rowValue then none else some ⟨"End date should be after start date"⟩
  | _, _ => none

/-- The closure `dateInTheFuture` of both dates, where `Date()` is `now`. -/
def dateInTheFuture (now : Date) : Option Date → Option ValidationError
  | some rowValue => if now < rowValue then none else some ⟨"Date should be in the future"⟩
  | none => none

namespace AddEventViewController

/-- The screen as it is loaded; the storyboard leaves the button enabled. -/
def loaded (availablePlayers : List String) : AddEventViewController where
  name := none
  description := none
  location := none
  type := none
  dateStart := none
  dateEnd := none
  lineup := .initial availablePlayers
  wasChanged := fun _ => false
  validationErrors := fun _ => []
  saveButtonIsEnabled := true
  event := none

/-- The condition on `hidden` of the lineup section. -/
def lineupIsVisible (vc : AddEventViewController) : Bool := vc.type = some "Game"

/-- The rows of the section "General information". -/
def generalRows : List FormRow :=
  [.item .name, .item .description, .item .location, .item .type, .item .dateStart, .item .dateEnd]

/-- `form.rows`, the visible ones. -/
def rows (vc : AddEventViewController) : List FormRow :=
  generalRows ++ if vc.lineupIsVisible then vc.lineup.rows.map .lineup else []

/-- `row.wasChanged`. -/
def rowWasChanged (vc : AddEventViewController) : FormRow → Bool
  | .item tag => vc.wasChanged tag
  | .lineup row => vc.lineup.wasChanged row

/-- `form.isClean()`. -/
def isClean (vc : AddEventViewController) : Bool := vc.rows.all fun row => !vc.rowWasChanged row

/-- What the rules of a row yield where `Date()` is `now`. -/
def errorsAt (now : Date) (vc : AddEventViewController) : FormRow → List ValidationError
  | .item .name => validateRow [ruleRequired] vc.name
  | .item .type => validateRow [ruleRequired] vc.type
  | .item .dateStart =>
      [ruleRequiredDate, afterEndDateRule vc.dateEnd, dateInTheFuture now].filterMap (· vc.dateStart)
  | .item .dateEnd =>
      [ruleRequiredDate, afterStartDateRule vc.dateStart, dateInTheFuture now].filterMap (· vc.dateEnd)
  | .item .description | .item .location | .lineup _ => []

/-- How often the rules of a row read the clock. -/
def readings (vc : AddEventViewController) : FormRow → ℕ
  | .item .dateStart => if vc.dateStart.isSome then 1 else 0
  | .item .dateEnd => if vc.dateEnd.isSome then 1 else 0
  | .item .name | .item .description | .item .location | .item .type | .lineup _ => 0

/-- No visible row has an error where `Date()` is `now`. -/
def isValidAt (now : Date) (vc : AddEventViewController) : Bool :=
  vc.rows.all fun row => (vc.errorsAt now row).isEmpty

/-- `form.values()`, on the tags of the first section. -/
def values (vc : AddEventViewController) : FormItems → Option RowValue
  | .name => vc.name.map .string
  | .description => vc.description.map .string
  | .location => vc.location.map .string
  | .type => vc.type.map .string
  | .dateStart => vc.dateStart.map .date
  | .dateEnd => vc.dateEnd.map .date

/-- The event `prepare(for:sender:)` makes out of `form.values()`; `none` where one of
the casts traps. -/
def makeEvent (valuesDictionary : FormItems → Option RowValue) : Option Event := do
  let startDate ← RowValue.asDate (valuesDictionary .dateStart)
  let endDate ← RowValue.asDate (valuesDictionary .dateEnd)
  let title ← RowValue.asString (valuesDictionary .name)
  let description ← RowValue.asString (valuesDictionary .description)
  let location ← RowValue.asString (valuesDictionary .location)
  let type ← RowValue.asString (valuesDictionary .type)
  return .make startDate endDate title description location type

end AddEventViewController

/-- How things stood when a call of `updateSaveButtonState` returned: whether the
button is enabled, whether a visible row was changed, and whether the form is valid at
that moment. -/
structure Report where
  isEnabled : Bool
  changed : Bool
  valid : Bool
deriving DecidableEq, Repr

/-- The button is enabled exactly for a changed and valid form. -/
def Report.IsTrue (r : Report) : Prop := r.isEnabled = (r.changed && r.valid)

/-- The screen in the middle of an action: `reading` counts the readings of the clock
since the action began, and `reports` records the returns of `updateSaveButtonState`,
newest first. -/
structure AddEventScreen where
  vc : AddEventViewController
  reading : ℕ
  reports : List Report

namespace AddEventScreen

/-- The stored errors of the rows.  `RowOf.validate()` computes them, and the observer
of `validationErrors` is notified of a change. -/
def cells (clock : ℕ → Date) : Cells FormRow (List ValidationError) AddEventScreen where
  compute := fun row s =>
    (s.vc.errorsAt (clock s.reading) row, { s with reading := s.reading + s.vc.readings row })
  stored := fun row s => s.vc.validationErrors row
  store := fun row errors s =>
    { s with vc := { s.vc with
      validationErrors := Function.update s.vc.validationErrors row errors } }
  stored_compute := fun _ _ _ => rfl
  stored_store := fun _ _ _ => Function.update_self ..
  stored_store_of_ne := fun _ _ _ _ hne => Function.update_of_ne hne ..

/-- `row.updateCell()`: the rows of the first section have a `cellUpdate` closure, which
calls `updateSaveButtonState`. -/
def updateCell (updateSaveButtonState : AddEventScreen → Option AddEventScreen) :
    FormRow → AddEventScreen → Option AddEventScreen
  | .item _, s => updateSaveButtonState s
  | .lineup _, s => some s

/-- `form.validate()`, with the errors of each of the visible rows. -/
def validate (clock : ℕ → Date) (updateSaveButtonState : AddEventScreen → Option AddEventScreen)
    (s : AddEventScreen) : Option (List (List ValidationError) × AddEventScreen) :=
  (cells clock).refreshAll (updateCell updateSaveButtonState) s.vc.rows s

/-- `saveButton.isEnabled = isEnabled`. -/
def setEnabled (isEnabled : Bool) (s : AddEventScreen) : AddEventScreen :=
  { s with vc := { s.vc with saveButtonIsEnabled := isEnabled } }

/-- A call of `updateSaveButtonState` returns. -/
def returned (clock : ℕ → Date) (s : AddEventScreen) : AddEventScreen :=
  { s with
    reports := ⟨s.vc.saveButtonIsEnabled, !s.vc.isClean, s.vc.isValidAt (clock s.reading)⟩ :: s.reports }

/-- `updateSaveButtonState`; there is no branch for a form with errors. -/
def updateSaveButtonState (clock : ℕ → Date) : ℕ → AddEventScreen → Option AddEventScreen
  | 0, _ => none
  | fuel + 1, s =>
      if s.vc.isClean then some ((s.setEnabled false).returned clock)
      else (validate clock (updateSaveButtonState clock fuel) s).map fun r =>
        (if r.1.flatten.isEmpty then r.2.setEnabled true else r.2).returned clock

/-- `row.validate()`, with the observer the form's rows have. -/
def validateRow (clock : ℕ → Date) (fuel : ℕ) (row : FormRow) (s : AddEventScreen) :
    Option (List ValidationError × AddEventScreen) :=
  (cells clock).refresh (updateCell (updateSaveButtonState clock fuel)) row s

/-! ### Actions -/

/-- A new value for a row of the first section. -/
inductive Edit
  | name (value : Option String)
  | description (value : Option String)
  | location (value : Option String)
  | type (value : Option String)
  | dateStart (value : Option Date)
  | dateEnd (value : Option Date)
deriving DecidableEq

/-- The row. -/
def Edit.tag : Edit → FormItems
  | .name _ => .name
  | .description _ => .description
  | .location _ => .location
  | .type _ => .type
  | .dateStart _ => .dateStart
  | .dateEnd _ => .dateEnd

/-- The cells of the rows can set this value: a text field without text sets none, and a
picker sets one of its options. -/
def Edit.isPossible : Edit → Bool
  | .name value | .description value | .location value => value ≠ some ""
  | .type value => value.all typeOptions.contains
  | .dateStart _ | .dateEnd _ => true

/-- The row has the value, and was changed. -/
def Edit.apply (vc : AddEventViewController) (e : Edit) : AddEventViewController :=
  let vc := { vc with wasChanged := Function.update vc.wasChanged e.tag true }
  match e with
  | .name value => { vc with name := value }
  | .description value => { vc with description := value }
  | .location value => { vc with location := value }
  | .type value => { vc with type := value }
  | .dateStart value => { vc with dateStart := value }
  | .dateEnd value => { vc with dateEnd := value }

/-- The setter of `RowOf.value`: a row with errors is validated again, under
`.validatesOnBlur` too. -/
def setValue (clock : ℕ → Date) (fuel : ℕ) (e : Edit) (s : AddEventScreen) : Option AddEventScreen :=
  let s := { s with vc := e.apply s.vc }
  if (s.vc.validationErrors (.item e.tag)).isEmpty then some s
  else (validateRow clock fuel (.item e.tag) s).map Prod.snd

/-- `endEditing(of:)`: the row is validated, and then its cell is updated. -/
def endEditing (clock : ℕ → Date) (fuel : ℕ) (tag : FormItems) (s : AddEventScreen) :
    Option AddEventScreen :=
  (validateRow clock fuel (.item tag) s).bind fun r =>
    updateCell (updateSaveButtonState clock fuel) (.item tag) r.2

/-- What can happen to the form; the clock runs on from one action to the next. -/
inductive Action
  | edit (e : Edit) (clock : ℕ → Date) (fuel : ℕ)
  | endEditing (tag : FormItems) (clock : ℕ → Date) (fuel : ℕ)
  | updateCell (row : FormRow) (clock : ℕ → Date) (fuel : ℕ)
  | lineup (a : LineupAction)

/-- An action begins. -/
def restart (s : AddEventScreen) : AddEventScreen := { s with reading := 0 }

/-- One step; `none` where it cannot happen or does not return. -/
def step (s : AddEventScreen) : Action → Option AddEventScreen
  | .edit e clock fuel => if e.isPossible then s.restart.setValue clock fuel e else none
  | .endEditing tag clock fuel => s.restart.endEditing clock fuel tag
  | .updateCell row clock fuel => updateCell (updateSaveButtonState clock fuel) row s.restart
  | .lineup a => (s.vc.lineup.step s.vc.lineupIsVisible a).map fun lineup =>
      { s with vc := { s.vc with lineup := lineup } }

/-- The screen has just been loaded. -/
def start (availablePlayers : List String) : AddEventScreen where
  vc := .loaded availablePlayers
  reading := 0
  reports := []

/-! ### Saving -/

/-- Who sent the segue. -/
inductive Sender
  | saveButton
  | other
deriving DecidableEq, Repr

/-- `prepare(for:sender:)`; `some none` where a cast traps. -/
def prepare (sender : Sender) (clock : ℕ → Date) (fuel : ℕ) (s : AddEventScreen) :
    Option (Option AddEventScreen) :=
  match sender with
  | .other => some (some s)
  | .saveButton => (validate clock (updateSaveButtonState clock fuel) s).map fun r =>
      if r.1.flatten.isEmpty then
        (AddEventViewController.makeEvent r.2.vc.values).map fun event =>
          { r.2 with vc := { r.2.vc with event := some event } }
      else some r.2

end AddEventScreen

/-- `unwindToEventList(sender:)` with the key `childByAutoId` would make up: the
`setValue`s it issues. -/
def EventsViewController.unwindToEventList (source : AddEventViewController) (key : String)
    (vc : EventsViewController) : Except NSException (List Write) :=
  match source.event with
  | some event => do return [← vc.addEvent event key]
  | none => .ok []

namespace AddEventScreen

/-- How a tap on the save button ends. -/
inductive Saved
  | trapped
  | raised (exception : NSException)
  | left (issued : List Write)

/-- A tap on the save button, if it is enabled: the segue is prepared and unwinds,
whatever `prepare(for:sender:)` did. -/
def save (events : EventsViewController) (key : String) (clock : ℕ → Date) (fuel : ℕ)
    (s : AddEventScreen) : Option Saved :=
  if s.vc.saveButtonIsEnabled then
    (prepare .saveButton clock fuel s.restart).map fun
      | none => .trapped
      | some s' =>
          match events.unwindToEventList s'.vc key with
          | .error exception => .raised exception
          | .ok issued => .left issued
  else none

end AddEventScreen

end Teamstuff
