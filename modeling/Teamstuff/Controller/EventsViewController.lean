/-
# The events screen

`EventsViewController.swift`, `EventTableViewCell.swift` and the prototype cell
of `Main.storyboard`.

The controller keeps the list it last fetched.  Its table keeps cells: an event
is copied into a cell when the cell is configured (`cellForRowAt`), a swipe
changes the copy in the cell and writes that copy back (`swipeAction`), and a
reload takes all rows off the screen and asks for them again.  Which cell the
table hands out for a row is up to it, so it is a parameter; a cell is never
reset in between.

`reloadData_spec` and `swipeAction_eq_ok` are the specifications of the two
operations the other modules use, and `Copy` collects the copies of events that
a controller has at hand.
-/

import Teamstuff.Model.Event
import Teamstuff.Firebase.Database
import Mathlib.Data.List.Sort
import Mathlib.Logic.Embedding.Basic

namespace Teamstuff

/-- The colours the app gives to a label. -/
inductive UIColor
  | green
  | red
deriving DecidableEq, Repr

/-- `UILabel`; without a colour of its own it has the storyboard's. -/
structure UILabel where
  text : String
  textColor : Option UIColor
deriving DecidableEq, Repr

/-- `EventTableViewCell`. -/
structure EventTableViewCell where
  event : Option Event
  titleLabel : UILabel
  dayDateLabel : UILabel
  monthDateLabel : UILabel
  statusLabel : UILabel
  typeLabel : UILabel
deriving DecidableEq

/-- The prototype cell of `Main.storyboard`. -/
def EventTableViewCell.prototype : EventTableViewCell where
  event := none
  titleLabel := ⟨"DRC vs ROC", none⟩
  dayDateLabel := ⟨"31", none⟩
  monthDateLabel := ⟨"JAN", none⟩
  statusLabel := ⟨"?", none⟩
  typeLabel := ⟨"Type", none⟩

/-- What the device's calendar and language make of a date. -/
structure Locale where
  day : Date → ℤ
  month : Date → String
  uppercased : String → String

/-- `Date.monthShort`, the first three letters of the month. -/
def Locale.monthShort (locale : Locale) (date : Date) : String :=
  String.ofList ((locale.month date).toList.take 3)

/-- A calendar on which it is always the first of January. -/
def someLocale : Locale := ⟨fun _ => 1, fun _ => "January", id⟩

/-- `EventsViewController` with its table view: the cells by identity and the
cell on display at each row. -/
structure EventsViewController where
  ref : FPath
  events : List Event
  cells : ℕ → EventTableViewCell
  displayed : ℕ → Option ℕ

/-- Why a handler stops the app. -/
inductive Trap
  | noCell
  | noEvent
deriving DecidableEq, Repr

/-- The loop of `fetchEvents` and `fetchMessages` over `snapshot.children`: the
first child that does not decode ends it. -/
def decodeChildren {ε α : Type} (decode : Value → Except ε α) (snapshot : Node) :
    Except ε (List α) :=
  snapshot.childList.mapM fun child => decode child.2.val

/-- The list a callback leaves: what `post` makes of the decoded children, or the
list that was there when one of them does not decode.  `snapshot.value` is an
object for an empty node too, so the guard lets every snapshot pass. -/
def listAfter {ε α : Type} (decode : Value → Except ε α) (post : List α → List α) (snapshot : Node)
    (start : List α) : List α :=
  match decodeChildren decode snapshot with
  | .ok fetched => post fetched
  | .error _ => start

namespace EventsViewController

/-- The screen as the storyboard makes it. -/
def opened (ref : FPath) : EventsViewController where
  ref := ref
  events := []
  cells := fun _ => .prototype
  displayed := fun _ => none

/-- `viewDidLoad`, up to the registration of the observer. -/
def viewDidLoad (teamIdGlobal : String) : Except NSException EventsViewController := do
  let teams ← FPath.child [] "Teams"
  let team ← teams.child teamIdGlobal
  return opened (← team.child "Events")

/-- The labels `cellForRowAt` sets; there is no branch for an event the player
has not answered. -/
def configure (locale : Locale) (uid : String) (event : Event) (cell : EventTableViewCell) :
    EventTableViewCell :=
  { event := some event
    titleLabel := { cell.titleLabel with text := event.title }
    dayDateLabel := { cell.dayDateLabel with text := toString (locale.day event.startDate) }
    monthDateLabel :=
      { cell.monthDateLabel with text := locale.uppercased (locale.monthShort event.startDate) }
    statusLabel :=
      match event.answer uid with
      | some true => ⟨"V", some .green⟩
      | some false => ⟨"X", some .red⟩
      | none => cell.statusLabel
    typeLabel := { cell.typeLabel with text := event.type } }

/-- `tableView(_:cellForRowAt:)` with the dequeued cell, which goes on display
at the row; the list is indexed out of bounds when the row is past its end. -/
def cellForRowAt (locale : Locale) (uid : String) (row dequeued : ℕ) (vc : EventsViewController) :
    Option EventsViewController :=
  vc.events[row]?.map fun event =>
    { vc with
      cells := Function.update vc.cells dequeued (configure locale uid event (vc.cells dequeued))
      displayed := fun i =>
        if i = row then some dequeued
        else if vc.displayed i = some dequeued then none
        else vc.displayed i }

/-- `tableView.reloadData()` and the layout that follows it: every row goes off
the screen and is asked for again, each with a cell of its own. -/
def reloadData (locale : Locale) (uid : String) (pool : ℕ ↪ ℕ) (vc : EventsViewController) :
    Option EventsViewController :=
  (List.range vc.events.length).foldlM (fun vc row => vc.cellForRowAt locale uid row (pool row))
    { vc with displayed := fun _ => none }

/-- `filter`, which reads the clock anew for each of the events, and `sorted`. -/
def upcoming (now : ℕ → Date) (fetchedEvents : List Event) : List Event :=
  ((fetchedEvents.zipIdx.filter fun e => now e.2 ≤ e.1.startDate).map Prod.fst).insertionSort
    fun a b => a.startDate ≤ b.startDate

/-- The callback of `fetchEvents`. -/
def fetchEvents {ε : Type} (decode : Value → Except ε Event) (now : ℕ → Date) (snapshot : Node)
    (locale : Locale) (uid : String) (pool : ℕ ↪ ℕ) (vc : EventsViewController) :
    Option EventsViewController :=
  match decodeChildren decode snapshot with
  | .ok fetchedEvents => reloadData locale uid pool { vc with events := upcoming now fetchedEvents }
  | .error _ => some vc

/-- `updateEvent(event:)`. -/
def updateEvent (event : Event) (vc : EventsViewController) : Except NSException Write := do
  (← vc.ref.child event.id).setValue event.encode

/-- `addEvent(event:)` with the key `childByAutoId` made up, up to the reload. -/
def addEvent (event : Event) (key : String) (vc : EventsViewController) : Except NSException Write :=
  vc.updateEvent { event with id := key }

/-- The handler both swipe actions share: the copy in the cell on display at the
row is changed and handed to `updateEvent`.  Returned are the events
`updateEvent` is called with. -/
def swipeAction (status : UILabel) (available : Bool) (uid : String) (row : ℕ)
    (vc : EventsViewController) : Except Trap (EventsViewController × List Event) :=
  match vc.displayed row with
  | none => .error .noCell
  | some currentCell =>
      match (vc.cells currentCell).event with
      | none => .error .noEvent
      | some event =>
          let event := event.answering uid available
          let cell := { vc.cells currentCell with event := some event, statusLabel := status }
          .ok ({ vc with cells := Function.update vc.cells currentCell cell }, [event])

/-- The action of `tableView(_:leadingSwipeActionsConfigurationForRowAt:)`. -/
def availableAction (uid : String) (row : ℕ) (vc : EventsViewController) :
    Except Trap (EventsViewController × List Event) :=
  vc.swipeAction ⟨"V", some .green⟩ true uid row

/-- The action of `tableView(_:trailingSwipeActionsConfigurationForRowAt:)`. -/
def notAvailableAction (uid : String) (row : ℕ) (vc : EventsViewController) :
    Except Trap (EventsViewController × List Event) :=
  vc.swipeAction ⟨"X", some .red⟩ false uid row

/-- One of the two actions. -/
def swipe (available : Bool) (uid : String) (row : ℕ) (vc : EventsViewController) :
    Except Trap (EventsViewController × List Event) :=
  if available then vc.availableAction uid row else vc.notAvailableAction uid row

/-- The copies of events at hand: those in the list and those in the cells. -/
def Copy (vc : EventsViewController) (e : Event) : Prop :=
  e ∈ vc.events ∨ ∃ cell, (vc.cells cell).event = some e

/-- What the assumption on reloads says of a table: the cell at a row has the
event of that row, and there is no cell past the last row. -/
structure Shown (vc : EventsViewController) : Prop where
  row : ∀ i e, vc.events[i]? = some e →
    ∃ cell, vc.displayed i = some cell ∧ (vc.cells cell).event = some e
  past : ∀ i, vc.events.length ≤ i → vc.displayed i = none

/-- The reference `viewDidLoad` takes. -/
theorem viewDidLoad_eq_ok {teamId : String} {vc : EventsViewController} :
    viewDidLoad teamId = .ok vc ↔ isValidPathString teamId = true ∧
      vc = opened (["Teams"] ++ FPath.initWith teamId ++ ["Events"]) := by
  unfold viewDidLoad
  rw [FPath.child_of_isValidKey [] (s := "Teams") (by decide), Except.ok_bind]
  simp only [Except.bind_eq_ok, FPath.child_eq_ok]
  constructor
  · rintro ⟨_, ⟨hid, rfl⟩, _, ⟨_, rfl⟩, hvc⟩
    exact ⟨hid, (Except.ok.inj hvc).symm⟩
  · rintro ⟨hid, rfl⟩
    exact ⟨_, ⟨hid, rfl⟩, _, ⟨by decide, rfl⟩, rfl⟩

/-- A screen that was just opened has no copies. -/
theorem not_copy_opened (ref : FPath) (e : Event) : ¬ (opened ref).Copy e := by
  rintro (he | ⟨_, he⟩)
  · exact absurd he List.not_mem_nil
  · exact nomatch he

/-- The status label of an answer. -/
def answerLabel (available : Bool) : UILabel :=
  if available then ⟨"V", some .green⟩ else ⟨"X", some .red⟩

theorem configure_statusLabel (locale : Locale) (uid : String) (e : Event)
    (cell : EventTableViewCell) :
    (configure locale uid e cell).statusLabel =
      ((e.answer uid).map answerLabel).getD cell.statusLabel := by
  unfold configure
  cases e.answer uid with
  | none => rfl
  | some available => cases available <;> rfl

/-- What `cellForRowAt` does. -/
theorem cellForRowAt_eq_some {locale : Locale} {uid : String} {row dequeued : ℕ}
    {vc vc' : EventsViewController} :
    vc.cellForRowAt locale uid row dequeued = some vc' ↔ ∃ e, vc.events[row]? = some e ∧
      vc' = { vc with
        cells := Function.update vc.cells dequeued (configure locale uid e (vc.cells dequeued))
        displayed := fun i =>
          if i = row then some dequeued
          else if vc.displayed i = some dequeued then none
          else vc.displayed i } := by
  unfold cellForRowAt
  rw [Option.map_eq_some_iff]
  exact exists_congr fun e => and_congr_right fun _ => eq_comm

/-- A copy at hand after a cell has changed was there before or is the one in
that cell. -/
theorem copy_of_update {vc : EventsViewController} {c : ℕ} {cell : EventTableViewCell}
    {displayed : ℕ → Option ℕ} {e : Event}
    (h : { vc with cells := Function.update vc.cells c cell, displayed := displayed }.Copy e) :
    vc.Copy e ∨ cell.event = some e := by
  rcases h with hmem | ⟨c', hc'⟩
  · exact Or.inl (Or.inl hmem)
  · by_cases hc : c' = c
    · subst hc
      exact Or.inr (by simpa only [Function.update_self] using hc')
    · exact Or.inl (Or.inr ⟨c', by simpa only [Function.update_of_ne hc] using hc'⟩)

/-! ### Reloading -/

/-- The table after the first `n` rows were asked for again. -/
structure Reloaded (pool : ℕ ↪ ℕ) (vc : EventsViewController) (n : ℕ)
    (vc' : EventsViewController) : Prop where
  ref : vc'.ref = vc.ref
  events : vc'.events = vc.events
  row : ∀ i, i < n → vc'.displayed i = some (pool i) ∧
    (vc'.cells (pool i)).event = vc.events[i]?
  past : ∀ i, n ≤ i → vc'.displayed i = none
  copy : ∀ e, vc'.Copy e → vc.Copy e

/-- One row of a reload. -/
theorem Reloaded.cellForRowAt (locale : Locale) (uid : String) {pool : ℕ ↪ ℕ}
    {vc vc₁ : EventsViewController} {n : ℕ} (h : Reloaded pool vc n vc₁)
    (hn : n < vc.events.length) :
    ∃ vc₂, vc₁.cellForRowAt locale uid n (pool n) = some vc₂ ∧ Reloaded pool vc (n + 1) vc₂ := by
  have he : vc₁.events[n]? = some vc.events[n] := by rw [h.events, List.getElem?_eq_getElem hn]
  refine ⟨_, cellForRowAt_eq_some.2 ⟨_, he, rfl⟩, ⟨h.ref, h.events, fun i hi => ?_, fun i hi => ?_,
    fun e hcopy => ?_⟩⟩
  · -- an earlier row keeps its cell: the pool gives every row another one
    by_cases hin : i = n
    · subst hin
      simp only [if_true, Function.update_self, configure, true_and]
      exact (List.getElem?_eq_getElem hn).symm
    · have hlt : i < n := by omega
      obtain ⟨hd, hc⟩ := h.row i hlt
      have hpool : pool i ≠ pool n := fun hp => hin (pool.injective hp)
      simp only [if_neg hin, hd, Option.some.injEq, if_neg hpool, Function.update_of_ne hpool, hc,
        and_self]
  · have hne : i ≠ n := by omega
    have hnone : vc₁.displayed i = none := h.past i (by omega)
    simp only [if_neg hne, hnone, reduceCtorEq, if_false]
  · refine h.copy e ?_
    rcases copy_of_update hcopy with hcopy | hcell
    · exact hcopy
    · obtain rfl : vc.events[n] = e := Option.some.inj hcell
      exact Or.inl (List.mem_of_getElem? he)

/-- **A reload never indexes the list out of bounds**, and it leaves at each
row a cell with the event of that row. -/
theorem reloadData_spec (locale : Locale) (uid : String) (pool : ℕ ↪ ℕ)
    (vc : EventsViewController) :
    ∃ vc', vc.reloadData locale uid pool = some vc' ∧
      Reloaded pool vc vc.events.length vc' := by
  have hprefix : ∀ n ≤ vc.events.length, ∃ vc',
      (List.range n).foldlM (fun vc row => vc.cellForRowAt locale uid row (pool row))
        { vc with displayed := fun _ => none } = some vc' ∧ Reloaded pool vc n vc' := by
    intro n
    induction n with
    | zero =>
        exact fun _ => ⟨_, rfl, ⟨rfl, rfl, fun i hi => absurd hi (Nat.not_lt_zero i),
          fun _ _ => rfl, fun _ he => he⟩⟩
    | succ n ih =>
        intro hn
        obtain ⟨vc₁, hvc₁, h₁⟩ := ih (by omega)
        obtain ⟨vc₂, hvc₂, h₂⟩ := h₁.cellForRowAt locale uid (by omega)
        refine ⟨vc₂, ?_, h₂⟩
        rw [List.range_succ, List.foldlM_append, hvc₁]
        simp only [Option.bind_eq_bind, Option.bind_some, List.foldlM_cons, List.foldlM_nil, hvc₂]
        rfl
  exact hprefix vc.events.length le_rfl

theorem Reloaded.shown {pool : ℕ ↪ ℕ} {vc vc' : EventsViewController}
    (h : Reloaded pool vc vc.events.length vc') : vc'.Shown where
  row := by
    intro i e he
    rw [h.events] at he
    have hi : i < vc.events.length := (List.getElem?_eq_some_iff.1 he).1
    obtain ⟨hd, hc⟩ := h.row i hi
    exact ⟨pool i, hd, hc.trans he⟩
  past := fun i hi => h.past i (h.events ▸ hi)

/-! ### The callback and the actions -/

/-- What the callback of `fetchEvents` does: nothing, or a reload with the
fetched list. -/
theorem fetchEvents_eq_some {ε : Type} {decode : Value → Except ε Event} {now : ℕ → Date}
    {snapshot : Node} {locale : Locale} {uid : String} {pool : ℕ ↪ ℕ}
    {vc vc' : EventsViewController} :
    vc.fetchEvents decode now snapshot locale uid pool = some vc' ↔
      (∃ err, decodeChildren decode snapshot = .error err ∧ vc' = vc) ∨
      ∃ es, decodeChildren decode snapshot = .ok es ∧
        reloadData locale uid pool { vc with events := upcoming now es } = some vc' := by
  unfold fetchEvents
  cases decodeChildren decode snapshot with
  | error err => simp [eq_comm]
  | ok es => simp

/-- The callback never indexes the list out of bounds, and it leaves a table that
shows the list. -/
theorem fetchEvents_spec {ε : Type} (decode : Value → Except ε Event) (now : ℕ → Date)
    (snapshot : Node) (locale : Locale) (uid : String) (pool : ℕ ↪ ℕ) (vc : EventsViewController) :
    ∃ vc', vc.fetchEvents decode now snapshot locale uid pool = some vc' ∧
      vc'.events = listAfter decode (upcoming now) snapshot vc.events ∧ vc'.ref = vc.ref ∧
      (vc.Shown → vc'.Shown) := by
  unfold fetchEvents listAfter
  cases decodeChildren decode snapshot with
  | error err => exact ⟨vc, rfl, rfl, rfl, id⟩
  | ok es =>
      obtain ⟨vc', hvc', h⟩ := reloadData_spec locale uid pool { vc with events := upcoming now es }
      exact ⟨vc', hvc', h.events, h.ref, fun _ => h.shown⟩

theorem mem_of_mem_upcoming {now : ℕ → Date} {es : List Event} {e : Event}
    (h : e ∈ upcoming now es) : e ∈ es := by
  unfold upcoming at h
  rw [List.mem_insertionSort] at h
  obtain ⟨x, hx, rfl⟩ := List.mem_map.1 h
  exact List.fst_mem_of_mem_zipIdx (List.mem_of_mem_filter hx)

/-- A copy at hand after the callback was there before or was just decoded. -/
theorem copy_fetchEvents {ε : Type} {decode : Value → Except ε Event} {now : ℕ → Date}
    {snapshot : Node} {locale : Locale} {uid : String} {pool : ℕ ↪ ℕ}
    {vc vc' : EventsViewController}
    (h : vc.fetchEvents decode now snapshot locale uid pool = some vc') {e : Event}
    (he : vc'.Copy e) :
    vc.Copy e ∨ ∃ child ∈ snapshot.childList, decode child.2.val = .ok e := by
  rcases fetchEvents_eq_some.1 h with ⟨_, _, rfl⟩ | ⟨es, hes, hreload⟩
  · exact Or.inl he
  · obtain ⟨vc₁, hvc₁, h₁⟩ := reloadData_spec locale uid pool { vc with events := upcoming now es }
    obtain rfl : vc₁ = vc' := Option.some.inj (hvc₁.symm.trans hreload)
    rcases h₁.copy e he with hmem | hcell
    · exact Or.inr (Except.exists_of_mem_mapM hes (mem_of_mem_upcoming hmem))
    · exact Or.inl (Or.inr hcell)

theorem copy_cellForRowAt {locale : Locale} {uid : String} {row dequeued : ℕ}
    {vc vc' : EventsViewController} (h : vc.cellForRowAt locale uid row dequeued = some vc')
    {e : Event} (he : vc'.Copy e) : vc.Copy e := by
  obtain ⟨e₀, he₀, rfl⟩ := cellForRowAt_eq_some.1 h
  rcases copy_of_update he with hcopy | hcell
  · exact hcopy
  · obtain rfl : e₀ = e := Option.some.inj hcell
    exact Or.inl (List.mem_of_getElem? he₀)

/-- **What a swipe does**: the copy in the cell on display at the row gets the
player's answer and is handed to `updateEvent`. -/
theorem swipe_eq_ok {available : Bool} {uid : String} {row : ℕ} {vc vc' : EventsViewController}
    {calls : List Event} :
    vc.swipe available uid row = .ok (vc', calls) ↔
      ∃ cell e, vc.displayed row = some cell ∧ (vc.cells cell).event = some e ∧
        calls = [e.answering uid available] ∧
        vc' = { vc with cells := Function.update vc.cells cell { vc.cells cell with
          event := some (e.answering uid available), statusLabel := answerLabel available } } := by
  have haction : vc.swipe available uid row =
      vc.swipeAction (answerLabel available) available uid row := by
    cases available <;> rfl
  rw [haction, swipeAction]
  cases hd : vc.displayed row with
  | none => simp
  | some cell =>
      cases he : (vc.cells cell).event with
      | none => simp [he]
      | some e =>
          simp only [he, Except.ok.injEq, Prod.mk.injEq]
          constructor
          · rintro ⟨rfl, rfl⟩
            exact ⟨cell, e, rfl, he, rfl, rfl⟩
          · rintro ⟨cell', e', hcell, he', rfl, rfl⟩
            obtain rfl := Option.some.inj hcell
            obtain rfl := Option.some.inj (he.symm.trans he')
            exact ⟨rfl, rfl⟩

/-- A copy at hand after a swipe was there before or is the one that was
written back. -/
theorem copy_swipe {available : Bool} {uid : String} {row : ℕ} {vc vc' : EventsViewController}
    {calls : List Event} (h : vc.swipe available uid row = .ok (vc', calls)) {e : Event}
    (he : vc'.Copy e) : vc.Copy e ∨ e ∈ calls := by
  obtain ⟨cell, e₀, _, _, rfl, rfl⟩ := swipe_eq_ok.1 h
  rcases copy_of_update he with hcopy | hcell
  · exact Or.inl hcopy
  · exact Or.inr (List.mem_singleton.2 (Option.some.inj hcell).symm)

/-- What `updateEvent` writes. -/
theorem updateEvent_eq_ok {e : Event} {vc : EventsViewController} {w : Write} :
    vc.updateEvent e = .ok w ↔
      isValidPathString e.id = true ∧ ∃ n, e.node = .ok n ∧
        w = ⟨vc.ref ++ FPath.initWith e.id, n⟩ := by
  unfold updateEvent
  rw [Except.bind_eq_ok]
  simp only [FPath.child_eq_ok]
  constructor
  · rintro ⟨p, ⟨hid, rfl⟩, hw⟩
    exact ⟨hid, FPath.setValueInternal_eq_ok.1 hw⟩
  · rintro ⟨hid, hw⟩
    exact ⟨_, ⟨hid, rfl⟩, FPath.setValueInternal_eq_ok.2 hw⟩

/-- An event is written below the reference of the screen. -/
theorem updateEvent_below {e : Event} {vc : EventsViewController} {w : Write}
    (h : vc.updateEvent e = .ok w) : vc.ref <+: w.path := by
  obtain ⟨_, _, _, rfl⟩ := updateEvent_eq_ok.1 h
  exact List.prefix_append _ _

end EventsViewController
end Teamstuff
