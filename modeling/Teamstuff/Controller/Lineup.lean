/-
# The lineup section

The `MultivaluedSection` "Lineup" of `AddEventViewController.swift`, with what
Eureka's `Core.swift`, `SelectorViewController.swift` and `SelectableSection.swift`
do when its rows are edited.

A `PushRow` offers the players of its `options`, a copy taken when the row is
selected.  What is taken out of `notChosenPlayers` is noted in `chosenPlayers` by
the rows' `onChange` callbacks, and nothing is ever taken out of `chosenPlayers`
again.  So no player stands in two rows (`Sound.once`), and the players offered are
those without a row as long as no row gives up its player
(`Sound.offers_step_iff`).
-/

import Mathlib.Data.List.Perm.Basic
import Mathlib.Logic.Function.Basic

namespace Teamstuff

/-- A row of the section; a `PushRow` goes by its identity. -/
inductive LineupRow
  | switchRow
  | pushRow (id : ℕ)
  | buttonRow
deriving DecidableEq, Repr

/-- `PushRow<String>`. -/
structure PushRow where
  value : Option String
  options : List String
  wasChanged : Bool
deriving DecidableEq, Repr

/-- `SelectorViewController` with the row that pushed it.  Once its view has
loaded it has a check row for every option, with the option and whether it is
checked. -/
structure SelectorViewController where
  row : ℕ
  checkRows : Option (List (String × Bool))
deriving DecidableEq, Repr

/-- The section and the properties of `AddEventViewController` it works with.  The
identity `next` is that of the next row to be made. -/
structure Lineup where
  availablePlayers : List String
  chosenPlayers : List String
  rows : List LineupRow
  pushRow : ℕ → PushRow
  switchWasChanged : Bool
  next : ℕ
  selector : Option SelectorViewController

/-- What the user can do with the section, and the two events of a selector that
is not his doing: its view loads, and it leaves the screen. -/
inductive LineupAction
  | toggle
  | insert
  | delete (i : ℕ)
  | move (i j : ℕ)
  | didSelect (id : ℕ)
  | viewDidLoad
  | tap (i : ℕ)
  | dismiss
deriving DecidableEq, Repr

/-- The positions that get a row of their own. -/
def positions : List String := ["Loosehead prop", "Hooker", "Tighthead Prop"]

namespace Lineup

/-- The section as `viewDidLoad` makes it. -/
def initial (availablePlayers : List String) : Lineup where
  availablePlayers := availablePlayers
  chosenPlayers := []
  rows := [.switchRow] ++ (List.range positions.length).map .pushRow ++ [.buttonRow]
  pushRow := fun _ => ⟨none, availablePlayers, false⟩
  switchWasChanged := false
  next := positions.length
  selector := none

/-- `row.wasChanged`; the "Add" button has no value. -/
def wasChanged (l : Lineup) : LineupRow → Bool
  | .switchRow => l.switchWasChanged
  | .pushRow id => (l.pushRow id).wasChanged
  | .buttonRow => false

/-- `notChosenPlayers`. -/
def notChosenPlayers (l : Lineup) : List String :=
  l.availablePlayers.filter fun player => !l.chosenPlayers.contains player

/-- The `onChange` callback of the rows. -/
def onChange (value : Option String) (chosenPlayers : List String) : List String :=
  match value with
  | some player =>
      if chosenPlayers.contains player then chosenPlayers else chosenPlayers ++ [player]
  | none => chosenPlayers

/-- The setter of `RowOf.value` for a `PushRow`.  A row that was deleted has no
section, and its callbacks are not called. -/
def setValue (id : ℕ) (value : Option String) (l : Lineup) : Lineup :=
  if .pushRow id ∈ l.rows then
    { l with
      pushRow := Function.update l.pushRow id
        { l.pushRow id with value := value, wasChanged := true }
      chosenPlayers :=
        if (l.pushRow id).value = value then l.chosenPlayers else onChange value l.chosenPlayers }
  else
    { l with pushRow := Function.update l.pushRow id { l.pushRow id with value := value } }

/-- `tableView(_:commit:forRowAt:)` with `.insert`: the new row goes before the last
one. -/
def insert (l : Lineup) : Lineup :=
  { l with
    rows := l.rows.insertIdx (l.rows.length - 1) (.pushRow l.next)
    pushRow := Function.update l.pushRow l.next ⟨none, l.notChosenPlayers, false⟩
    next := l.next + 1 }

/-- `tableView(_:commit:forRowAt:)` with `.delete`, which the last row does not
offer. -/
def delete (i : ℕ) (l : Lineup) : Option Lineup :=
  if i < l.rows.length - 1 then some { l with rows := l.rows.eraseIdx i } else none

/-- `tableView(_:moveRowAt:to:)`, to where `targetIndexPathForMoveFromRowAt` says:
the last row stays the last. -/
def move (i j : ℕ) (l : Lineup) : Option Lineup :=
  if 2 < l.rows.length ∧ i < l.rows.length - 1 then
    l.rows[i]?.map fun row =>
      { l with rows := (l.rows.eraseIdx i).insertIdx (min j (l.rows.length - 2)) row }
  else none

/-- `Row.didSelect`: the selector is pushed, and then `onCellSelection` is called. -/
def didSelect (id : ℕ) (l : Lineup) : Option Lineup :=
  if .pushRow id ∈ l.rows ∧ l.selector = none then
    some { l with
      pushRow := Function.update l.pushRow id { l.pushRow id with options := l.notChosenPlayers }
      selector := some ⟨id, none⟩ }
  else none

/-- `viewDidLoad` of the selector, `section(with:header:footer:)`. -/
def viewDidLoad (l : Lineup) : Option Lineup :=
  l.selector.bind fun vc =>
    if vc.checkRows = none then
      let row := l.pushRow vc.row
      some { l with
        selector := some { vc with
          checkRows := some (row.options.map fun option => (option, row.value = some option)) } }
    else none

/-- `onCellSelection` of a check row: the others are unchecked and this one is
toggled. -/
def toggle (i : ℕ) (checkRows : List (String × Bool)) : List (String × Bool) :=
  checkRows.mapIdx fun j c => (c.1, j = i && !c.2)

/-- A check row is selected, and `onSelectSelectableRow` hands its value to the row
that pushed the selector. -/
def tap (i : ℕ) (l : Lineup) : Option Lineup :=
  l.selector.bind fun vc => vc.checkRows.bind fun checkRows => checkRows[i]?.map fun c =>
    { l.setValue vc.row (if c.2 then none else some c.1) with
      selector := some { vc with checkRows := some (toggle i checkRows) } }

/-- One step; `none` where it cannot happen.  The rows are only there to be touched
while the section is visible. -/
def step (visible : Bool) (l : Lineup) : LineupAction → Option Lineup
  | .toggle =>
      if visible = true ∧ .switchRow ∈ l.rows then some { l with switchWasChanged := true } else none
  | .insert => if visible then some l.insert else none
  | .delete i => if visible then l.delete i else none
  | .move i j => if visible then l.move i j else none
  | .didSelect id => if visible then l.didSelect id else none
  | .viewDidLoad => l.viewDidLoad
  | .tap i => l.tap i
  | .dismiss => l.selector.map fun _ => { l with selector := none }

/-- The row is in the section and holds the player. -/
def Holds (l : Lineup) (id : ℕ) (player : String) : Prop :=
  .pushRow id ∈ l.rows ∧ (l.pushRow id).value = some player

/-! ### No player twice -/

/-- What a selector offers: before its view has loaded, players of the row's options
that nobody has chosen; then players that no row but its own holds, the one it
holds checked. -/
structure Offered (l : Lineup) (vc : SelectorViewController) : Prop where
  lt_next : vc.row < l.next
  options : vc.checkRows = none → (l.pushRow vc.row).options.Nodup ∧
    ∀ option ∈ (l.pushRow vc.row).options, option ∈ l.availablePlayers ∧ option ∉ l.chosenPlayers
  checkRows : ∀ checkRows, vc.checkRows = some checkRows → (checkRows.map Prod.fst).Nodup ∧
    ∀ c ∈ checkRows, c.1 ∈ l.availablePlayers ∧ (∀ id, l.Holds id c.1 → id = vc.row) ∧
      (c.2 = true ↔ (l.pushRow vc.row).value = some c.1)

/-- The rows are distinct, the players in them are available and chosen, and no two
rows hold the same one. -/
structure Placed (l : Lineup) : Prop where
  distinct : l.availablePlayers.Nodup
  nodup : l.rows.Nodup
  lt_next : ∀ id, .pushRow id ∈ l.rows → id < l.next
  available : ∀ id player, l.Holds id player → player ∈ l.availablePlayers
  chosen : ∀ id player, l.Holds id player → player ∈ l.chosenPlayers
  once : ∀ i j player, l.Holds i player → l.Holds j player → i = j

/-- What the operations keep: the players are placed, and a selector offers none that
another row holds. -/
structure Sound (l : Lineup) : Prop extends Placed l where
  selector : ∀ vc, l.selector = some vc → l.Offered vc

/-- A player is offered if available and not chosen yet. -/
theorem mem_notChosenPlayers {l : Lineup} {player : String} :
    player ∈ l.notChosenPlayers ↔ player ∈ l.availablePlayers ∧ player ∉ l.chosenPlayers := by
  rw [notChosenPlayers, List.mem_filter, Bool.not_eq_true', ← Bool.not_eq_true,
    List.contains_iff_mem]

/-- Nobody is taken off the chosen players. -/
theorem subset_onChange {value : Option String} {chosenPlayers : List String} {player : String}
    (h : player ∈ chosenPlayers) : player ∈ onChange value chosenPlayers := by
  unfold onChange
  cases value with
  | none => exact h
  | some q =>
      dsimp only
      split_ifs
      · exact h
      · exact List.mem_append_left _ h

/-- A player who is picked is chosen. -/
theorem mem_onChange {player : String} (chosenPlayers : List String) :
    player ∈ onChange (some player) chosenPlayers := by
  unfold onChange
  dsimp only
  split_ifs with h
  · exact List.contains_iff_mem.1 h
  · exact List.mem_append_right _ (List.mem_singleton_self _)

/-- Nobody else is. -/
theorem mem_of_mem_onChange {value : Option String} {chosenPlayers : List String} {player : String}
    (h : player ∈ onChange value chosenPlayers) : player ∈ chosenPlayers ∨ value = some player := by
  unfold onChange at h
  cases value with
  | none => exact Or.inl h
  | some q =>
      dsimp only at h
      split_ifs at h
      · exact Or.inl h
      · rcases List.mem_append.1 h with h | h
        · exact Or.inl h
        · exact Or.inr (congrArg some (List.mem_singleton.1 h).symm)

/-- A new section. -/
theorem Sound.initial {availablePlayers : List String} (h : availablePlayers.Nodup) :
    (initial availablePlayers).Sound where
  distinct := h
  nodup := (by decide : ([.switchRow, .pushRow 0, .pushRow 1, .pushRow 2, .buttonRow] :
    List LineupRow).Nodup)
  lt_next := by
    intro id hid
    simpa [Lineup.initial] using hid
  available := by
    rintro id player ⟨_, h⟩
    exact nomatch h
  chosen := by
    rintro id player ⟨_, h⟩
    exact nomatch h
  once := by
    rintro i j player ⟨_, h⟩
    exact nomatch h
  selector := by
    rintro vc h
    exact nomatch h

/-! ### What the operations do -/

section SetValue

variable (l : Lineup) (id : ℕ) (value : Option String)

@[simp] theorem setValue_rows : (l.setValue id value).rows = l.rows := by
  unfold setValue; split_ifs <;> rfl

@[simp] theorem setValue_next : (l.setValue id value).next = l.next := by
  unfold setValue; split_ifs <;> rfl

@[simp] theorem setValue_availablePlayers :
    (l.setValue id value).availablePlayers = l.availablePlayers := by
  unfold setValue; split_ifs <;> rfl

/-- The value is set whether the row is in the section or not. -/
theorem setValue_value (j : ℕ) :
    ((l.setValue id value).pushRow j).value = if j = id then value else (l.pushRow j).value := by
  unfold setValue
  by_cases hj : j = id
  · subst hj
    rw [if_pos rfl]
    split_ifs <;> simp
  · rw [if_neg hj]
    split_ifs <;> simp [hj]

/-- Who is in a row after one has been set. -/
theorem holds_setValue {j : ℕ} {player : String} : (l.setValue id value).Holds j player ↔
    .pushRow j ∈ l.rows ∧ (if j = id then value else (l.pushRow j).value) = some player := by
  rw [Holds, setValue_rows, setValue_value]

/-- The players chosen after a row has been set. -/
theorem setValue_chosenPlayers : (l.setValue id value).chosenPlayers =
    if .pushRow id ∈ l.rows ∧ (l.pushRow id).value ≠ value then onChange value l.chosenPlayers
    else l.chosenPlayers := by
  unfold setValue
  by_cases hid : .pushRow id ∈ l.rows
  · by_cases hvalue : (l.pushRow id).value = value <;> simp [hid, hvalue]
  · simp [hid]

/-- Nobody is taken off them. -/
theorem subset_chosenPlayers_setValue {player : String} (h : player ∈ l.chosenPlayers) :
    player ∈ (l.setValue id value).chosenPlayers := by
  rw [setValue_chosenPlayers]
  split_ifs
  · exact subset_onChange h
  · exact h

end SetValue

/-- There is one row more. -/
theorem mem_rows_insert {l : Lineup} {r : LineupRow} :
    r ∈ l.insert.rows ↔ r = .pushRow l.next ∨ r ∈ l.rows :=
  List.mem_insertIdx (Nat.sub_le _ _)

/-- What deleting a row does. -/
theorem delete_eq_some {l l' : Lineup} {i : ℕ} :
    l.delete i = some l' ↔ i < l.rows.length - 1 ∧ l' = { l with rows := l.rows.eraseIdx i } := by
  unfold delete
  split_ifs with hi
  · exact ⟨fun h => ⟨hi, (Option.some.inj h).symm⟩, fun h => congrArg some h.2.symm⟩
  · exact ⟨fun h => (nomatch h), fun h => absurd h.1 hi⟩

/-- Moving a row leaves the section with the rows it has. -/
theorem move_eq_some {l l' : Lineup} {i j : ℕ} (h : l.move i j = some l') :
    ∃ rows, rows.Perm l.rows ∧ l' = { l with rows := rows } := by
  unfold move at h
  split_ifs at h with hlen
  obtain ⟨row, hrow, rfl⟩ := Option.map_eq_some_iff.1 h
  refine ⟨_, ?_, rfl⟩
  obtain ⟨hi, rfl⟩ := List.getElem?_eq_some_iff.1 hrow
  have hj : min j (l.rows.length - 2) ≤ (l.rows.eraseIdx i).length := by
    rw [List.length_eraseIdx_of_lt hi]
    omega
  exact (List.perm_insertIdx _ _ hj).trans (List.getElem_cons_eraseIdx_perm hi)

/-- What selecting a row does. -/
theorem didSelect_eq_some {l l' : Lineup} {id : ℕ} :
    l.didSelect id = some l' ↔ .pushRow id ∈ l.rows ∧ l.selector = none ∧ l' = { l with
      pushRow := Function.update l.pushRow id { l.pushRow id with options := l.notChosenPlayers }
      selector := some ⟨id, none⟩ } := by
  unfold didSelect
  split_ifs with hid
  · exact ⟨fun h => ⟨hid.1, hid.2, (Option.some.inj h).symm⟩, fun h => congrArg some h.2.2.symm⟩
  · exact ⟨fun h => (nomatch h), fun h => absurd ⟨h.1, h.2.1⟩ hid⟩

/-- Selecting a row changes its options, not its value. -/
theorem holds_didSelect {l l' : Lineup} {id : ℕ} (h : l.didSelect id = some l') {j : ℕ}
    {player : String} : l'.Holds j player ↔ l.Holds j player := by
  obtain ⟨_, _, rfl⟩ := didSelect_eq_some.1 h
  unfold Holds
  dsimp only
  rw [Function.update_apply]
  split_ifs with hj
  · rw [hj]
  · rfl

/-- What the selector does when it is loaded. -/
theorem viewDidLoad_eq_some {l l' : Lineup} (h : l.viewDidLoad = some l') :
    ∃ vc, l.selector = some vc ∧ vc.checkRows = none ∧ l' = { l with
      selector := some { vc with checkRows := some ((l.pushRow vc.row).options.map fun option =>
        (option, (l.pushRow vc.row).value = some option)) } } := by
  obtain ⟨vc, hvc, h⟩ := Option.bind_eq_some_iff.1 h
  split_ifs at h with hrows
  exact ⟨vc, hvc, hrows, (Option.some.inj h).symm⟩

/-- What a tap on a player does. -/
theorem tap_eq_some {l l' : Lineup} {i : ℕ} (h : l.tap i = some l') :
    ∃ vc checkRows c, l.selector = some vc ∧ vc.checkRows = some checkRows ∧
      checkRows[i]? = some c ∧ l' = { l.setValue vc.row (if c.2 then none else some c.1) with
        selector := some { vc with checkRows := some (toggle i checkRows) } } := by
  obtain ⟨vc, hvc, h⟩ := Option.bind_eq_some_iff.1 h
  obtain ⟨checkRows, hrows, h⟩ := Option.bind_eq_some_iff.1 h
  obtain ⟨c, hc, h⟩ := Option.map_eq_some_iff.1 h
  exact ⟨vc, checkRows, c, hvc, hrows, hc, h.symm⟩

/-- A tap changes no names. -/
theorem map_fst_toggle (i : ℕ) (checkRows : List (String × Bool)) :
    (toggle i checkRows).map Prod.fst = checkRows.map Prod.fst := by
  refine List.ext_getElem? fun j => ?_
  rw [toggle, List.getElem?_map, List.getElem?_mapIdx, List.getElem?_map, Option.map_map]
  rfl

/-- After a tap no row is checked but the tapped one, if it was not. -/
theorem mem_toggle {i : ℕ} {checkRows : List (String × Bool)} (hd : (checkRows.map Prod.fst).Nodup)
    {c d : String × Bool} (hc : checkRows[i]? = some c) (h : d ∈ toggle i checkRows) :
    (∃ e ∈ checkRows, e.1 = d.1) ∧ (d.2 = true ↔ c.2 = false ∧ c.1 = d.1) := by
  obtain ⟨j, hj, rfl⟩ := List.mem_mapIdx.1 h
  obtain ⟨hi, rfl⟩ := List.getElem?_eq_some_iff.1 hc
  refine ⟨⟨_, List.getElem_mem hj, rfl⟩, ?_⟩
  dsimp only
  rw [Bool.and_eq_true, decide_eq_true_eq, Bool.not_eq_true']
  constructor
  · rintro ⟨rfl, hflag⟩
    exact ⟨hflag, rfl⟩
  · rintro ⟨hflag, heq⟩
    have hi' : i < (checkRows.map Prod.fst).length := by rwa [List.length_map]
    have hj' : j < (checkRows.map Prod.fst).length := by rwa [List.length_map]
    have heq' : (checkRows.map Prod.fst)[i] = (checkRows.map Prod.fst)[j] := by
      rwa [List.getElem_map, List.getElem_map]
    obtain rfl := (List.getElem_inj hd).1 heq'
    exact ⟨rfl, hflag⟩

/-! ### No player twice -/

/-- A player can be put in a row when no other row holds him. -/
theorem Placed.setValue {l : Lineup} (h : l.Placed) {id : ℕ} {value : Option String}
    (havailable : ∀ player, value = some player → player ∈ l.availablePlayers)
    (hother : ∀ player, value = some player → ∀ j, l.Holds j player → j = id) :
    (l.setValue id value).Placed := by
  have hholds : ∀ j player, (l.setValue id value).Holds j player →
      (j = id ∧ .pushRow id ∈ l.rows ∧ value = some player) ∨ (j ≠ id ∧ l.Holds j player) := by
    intro j player hp
    obtain ⟨hmem, hp⟩ := (holds_setValue _ _ _).1 hp
    split_ifs at hp with hj
    · exact Or.inl ⟨hj, hj ▸ hmem, hp⟩
    · exact Or.inr ⟨hj, hmem, hp⟩
  refine ⟨?_, ?_, ?_, ?_, ?_, ?_⟩
  · rw [setValue_availablePlayers]
    exact h.distinct
  · rw [setValue_rows]
    exact h.nodup
  · rw [setValue_rows, setValue_next]
    exact h.lt_next
  · intro j player hp
    rw [setValue_availablePlayers]
    rcases hholds j player hp with ⟨_, _, hv⟩ | ⟨_, hp⟩
    · exact havailable player hv
    · exact h.available j player hp
  · intro j player hp
    rcases hholds j player hp with ⟨_, hmem, hv⟩ | ⟨_, hp⟩
    · rw [setValue_chosenPlayers]
      split_ifs with hset
      · rw [hv]
        exact mem_onChange _
      · have hsame : (l.pushRow id).value = value := by
          by_contra hdiff
          exact hset ⟨hmem, hdiff⟩
        exact h.chosen id player ⟨hmem, hsame.trans hv⟩
    · exact subset_chosenPlayers_setValue _ _ _ (h.chosen j player hp)
  · intro i j player hi hj
    rcases hholds i player hi with ⟨rfl, _, hv⟩ | ⟨_, hi'⟩
    · rcases hholds j player hj with ⟨rfl, _, _⟩ | ⟨_, hj'⟩
      · rfl
      · exact (hother player hv j hj').symm
    · rcases hholds j player hj with ⟨rfl, _, hv⟩ | ⟨_, hj'⟩
      · exact hother player hv i hi'
      · exact h.once i j player hi' hj'

/-- A selector that is open offers no more than before. -/
theorem Offered.mono {l l' : Lineup} {vc : SelectorViewController} (h : l.Offered vc)
    (hnext : l.next ≤ l'.next) (hrow : l'.pushRow vc.row = l.pushRow vc.row)
    (havailable : l'.availablePlayers = l.availablePlayers)
    (hchosen : l'.chosenPlayers = l.chosenPlayers)
    (hholds : ∀ id player, l'.Holds id player → l.Holds id player) : l'.Offered vc where
  lt_next := Nat.lt_of_lt_of_le h.lt_next hnext
  options := by
    rw [hrow, havailable, hchosen]
    exact h.options
  checkRows := by
    intro checkRows hrows
    obtain ⟨hnodup, hall⟩ := h.checkRows checkRows hrows
    rw [hrow, havailable]
    exact ⟨hnodup, fun c hc => ⟨(hall c hc).1, fun id hid => (hall c hc).2.1 id (hholds id c.1 hid),
      (hall c hc).2.2⟩⟩

namespace Sound

variable {l l' : Lineup} (h : l.Sound)

include h

/-- An operation after which no row holds a player it did not hold before. -/
theorem of_holds (hnodup : l'.rows.Nodup) (hlt : ∀ id, .pushRow id ∈ l'.rows → id < l'.next)
    (havailable : l'.availablePlayers = l.availablePlayers)
    (hchosen : l'.chosenPlayers = l.chosenPlayers)
    (hholds : ∀ id player, l'.Holds id player → l.Holds id player)
    (hselector : ∀ vc, l'.selector = some vc → l'.Offered vc) : l'.Sound where
  distinct := by
    rw [havailable]
    exact h.distinct
  nodup := hnodup
  lt_next := hlt
  available := by
    intro id player hp
    rw [havailable]
    exact h.available id player (hholds id player hp)
  chosen := by
    intro id player hp
    rw [hchosen]
    exact h.chosen id player (hholds id player hp)
  once := fun i j player hi hj => h.once i j player (hholds i player hi) (hholds j player hj)
  selector := hselector

/-- The rows can be permuted and removed. -/
theorem of_rows {rows : List LineupRow} (hnodup : rows.Nodup) (hsub : ∀ r ∈ rows, r ∈ l.rows) :
    ({ l with rows := rows } : Lineup).Sound := by
  have hholds : ∀ id player, ({ l with rows := rows } : Lineup).Holds id player →
      l.Holds id player := fun id player hp => ⟨hsub _ hp.1, hp.2⟩
  exact h.of_holds hnodup (fun id hid => h.lt_next id (hsub _ hid)) rfl rfl hholds
    fun vc hvc => (h.selector vc hvc).mono (Nat.le_refl _) rfl rfl rfl hholds

/-- The next row is not there yet. -/
theorem not_mem_next : .pushRow l.next ∉ l.rows := fun hnext => Nat.lt_irrefl _ (h.lt_next _ hnext)

/-- A new row holds nobody. -/
theorem holds_insert {id : ℕ} {player : String} : l.insert.Holds id player ↔ l.Holds id player := by
  unfold Holds
  rw [mem_rows_insert]
  by_cases hid : id = l.next
  · subst hid
    simp [insert, h.not_mem_next]
  · simp [insert, hid]

/-- A row is inserted. -/
theorem insert : l.insert.Sound := by
  have hlt : ∀ id, .pushRow id ∈ l.insert.rows → id < l.next + 1 := by
    intro id hid
    rcases mem_rows_insert.1 hid with heq | hid
    · exact LineupRow.pushRow.inj heq ▸ Nat.lt_succ_self _
    · exact Nat.lt_succ_of_lt (h.lt_next id hid)
  have hnodup : l.insert.rows.Nodup :=
    (List.perm_insertIdx _ _ (Nat.sub_le _ _)).nodup_iff.2 (List.nodup_cons.2 ⟨h.not_mem_next, h.nodup⟩)
  refine h.of_holds hnodup hlt rfl rfl (fun _ _ => h.holds_insert.1) fun vc hvc => ?_
  have hoffered := h.selector vc hvc
  refine hoffered.mono (Nat.le_succ _) ?_ rfl rfl fun _ _ => h.holds_insert.1
  exact Function.update_of_ne (Nat.ne_of_lt hoffered.lt_next) _ _

/-- A row is selected. -/
theorem didSelect {id : ℕ} (hs : l.didSelect id = some l') : l'.Sound := by
  have hholds : ∀ j player, l'.Holds j player → l.Holds j player := fun _ _ =>
    (holds_didSelect hs).1
  obtain ⟨hid, _, rfl⟩ := didSelect_eq_some.1 hs
  refine h.of_holds h.nodup h.lt_next rfl rfl hholds fun vc hvc => ?_
  obtain rfl := Option.some.inj hvc
  refine ⟨h.lt_next id hid, fun _ => ?_, fun _ hrows => nomatch hrows⟩
  dsimp only
  rw [Function.update_self]
  exact ⟨h.distinct.filter _, fun option hoption => mem_notChosenPlayers.1 hoption⟩

/-- The players a selector shows are held by no row but its own: all players that
are held are chosen. -/
theorem viewDidLoad (hs : l.viewDidLoad = some l') : l'.Sound := by
  obtain ⟨vc, hvc, hnone, rfl⟩ := viewDidLoad_eq_some hs
  obtain ⟨hlt, hoptions, _⟩ := h.selector vc hvc
  obtain ⟨hnodup, hall⟩ := hoptions hnone
  refine h.of_holds h.nodup h.lt_next rfl rfl (fun _ _ hp => hp) fun vc' hvc' => ?_
  obtain rfl := Option.some.inj hvc'
  refine ⟨hlt, fun hrows => (nomatch hrows), fun checkRows hrows => ?_⟩
  obtain rfl := Option.some.inj hrows
  refine ⟨by rwa [List.map_map, Function.comp_def, List.map_id'], fun c hc => ?_⟩
  obtain ⟨option, hoption, rfl⟩ := List.mem_map.1 hc
  refine ⟨(hall option hoption).1, fun id hid => ?_, by simp⟩
  exact absurd (h.chosen id option hid) (hall option hoption).2

/-- A tapped check row gives its player to the row of the selector, or takes him
away; no other row holds that player. -/
theorem tap {i : ℕ} (hs : l.tap i = some l') : l'.Sound := by
  obtain ⟨vc, checkRows, c, hvc, hrows, hc, rfl⟩ := tap_eq_some hs
  obtain ⟨hlt, _, hchecked⟩ := h.selector vc hvc
  obtain ⟨hnodup, hall⟩ := hchecked checkRows hrows
  obtain ⟨havailable, hother, _⟩ := hall c (List.mem_of_getElem? hc)
  have hvalue : ∀ player, (if c.2 then none else some c.1) = some player ↔
      c.2 = false ∧ c.1 = player := by
    intro player
    cases c.2 <;> simp
  have hplaced : (l.setValue vc.row (if c.2 then none else some c.1)).Placed := by
    refine h.toPlaced.setValue (fun player hp => ?_) fun player hp j hj => ?_
    · exact ((hvalue player).1 hp).2 ▸ havailable
    · exact hother j (((hvalue player).1 hp).2 ▸ hj)
  refine ⟨⟨hplaced.distinct, hplaced.nodup, hplaced.lt_next, hplaced.available, hplaced.chosen,
    hplaced.once⟩, fun vc' hvc' => ?_⟩
  obtain rfl := Option.some.inj hvc'
  refine ⟨?_, fun hnone => (nomatch hnone), fun checkRows' hrows' => ?_⟩
  · exact (setValue_next l vc.row _).symm ▸ hlt
  obtain rfl := Option.some.inj hrows'
  refine ⟨by rwa [map_fst_toggle], fun d hd => ?_⟩
  obtain ⟨⟨e, he, hed⟩, hflag⟩ := mem_toggle hnodup hc hd
  obtain ⟨he₁, he₂, _⟩ := hall e he
  refine ⟨?_, fun j hj => ?_, ?_⟩
  · exact (setValue_availablePlayers l vc.row _).symm ▸ hed ▸ he₁
  · obtain ⟨hmem, hp⟩ := (holds_setValue _ _ _).1 hj
    by_contra hne
    rw [if_neg hne] at hp
    exact hne (he₂ j (hed ▸ ⟨hmem, hp⟩))
  · rw [hflag, ← hvalue, setValue_value, if_pos rfl]

/-- **Every operation keeps the players apart.** -/
theorem step {visible : Bool} {a : LineupAction} (hs : l.step visible a = some l') : l'.Sound := by
  cases a with
  | toggle =>
      obtain ⟨_, hs⟩ := Option.ite_none_right_eq_some.1 hs
      obtain rfl := Option.some.inj hs
      exact h.of_holds h.nodup h.lt_next rfl rfl (fun _ _ hp => hp) fun vc hvc =>
        (h.selector vc hvc).mono (Nat.le_refl _) rfl rfl rfl fun _ _ hp => hp
  | insert =>
      obtain ⟨_, hs⟩ := Option.ite_none_right_eq_some.1 hs
      exact Option.some.inj hs ▸ h.insert
  | delete i =>
      obtain ⟨_, hs⟩ := Option.ite_none_right_eq_some.1 hs
      obtain ⟨_, rfl⟩ := delete_eq_some.1 hs
      exact h.of_rows (h.nodup.sublist (List.eraseIdx_sublist ..)) fun _ => List.mem_of_mem_eraseIdx
  | move i j =>
      obtain ⟨_, hs⟩ := Option.ite_none_right_eq_some.1 hs
      obtain ⟨rows, hperm, rfl⟩ := move_eq_some hs
      exact h.of_rows (hperm.nodup_iff.2 h.nodup) fun _ => hperm.mem_iff.1
  | didSelect id => exact h.didSelect (Option.ite_none_right_eq_some.1 hs).2
  | viewDidLoad => exact h.viewDidLoad hs
  | tap i => exact h.tap hs
  | dismiss =>
      obtain ⟨_, _, rfl⟩ := Option.map_eq_some_iff.1 hs
      exact h.of_holds h.nodup h.lt_next rfl rfl (fun _ _ hp => hp) fun vc hvc => nomatch hvc

end Sound

/-! ### Who is offered -/

/-- The next selector offers exactly the players that no row holds. -/
def OffersUnplaced (l : Lineup) : Prop :=
  ∀ player, player ∈ l.notChosenPlayers ↔ player ∈ l.availablePlayers ∧ ∀ id, ¬ l.Holds id player

/-- The operation takes the player out of a row: a row that holds one is deleted, or
another choice is made in its selector. -/
def TakesOut (l : Lineup) : LineupAction → Prop
  | .delete i => ∃ id player, l.rows[i]? = some (.pushRow id) ∧ (l.pushRow id).value = some player
  | .tap _ => ∃ vc player, l.selector = some vc ∧ l.Holds vc.row player
  | .toggle | .insert | .move _ _ | .didSelect _ | .viewDidLoad | .dismiss => False

/-- A new section offers everybody. -/
theorem OffersUnplaced.initial (availablePlayers : List String) :
    (initial availablePlayers).OffersUnplaced := by
  intro player
  rw [mem_notChosenPlayers]
  refine and_congr_right fun _ => iff_of_true List.not_mem_nil ?_
  rintro id ⟨_, h⟩
  exact nomatch h

/-- Where nobody is moved nobody else is offered. -/
theorem OffersUnplaced.congr {l l' : Lineup} (h : l.OffersUnplaced)
    (havailable : l'.availablePlayers = l.availablePlayers)
    (hchosen : l'.chosenPlayers = l.chosenPlayers)
    (hholds : ∀ id player, l'.Holds id player ↔ l.Holds id player) : l'.OffersUnplaced := by
  intro player
  rw [mem_notChosenPlayers, havailable, hchosen, ← mem_notChosenPlayers]
  simp only [hholds]
  exact h player

namespace OffersUnplaced

variable {l : Lineup} (h : l.OffersUnplaced) {id : ℕ}

include h

/-- A row outside the section gets a value: nobody is told. -/
theorem setValue_of_not_mem (hrow : .pushRow id ∉ l.rows) {value : Option String} :
    (l.setValue id value).OffersUnplaced := by
  refine h.congr (setValue_availablePlayers _ _ _) ?_ fun j player => ?_
  · rw [setValue_chosenPlayers, if_neg fun hc => hrow hc.1]
  · rw [holds_setValue]
    refine and_congr_right fun hmem => ?_
    have hj : j ≠ id := by
      rintro rfl
      exact hrow hmem
    rw [if_neg hj]

/-- An empty row gets a player, who was chosen before or is chosen now. -/
theorem setValue_some (hrow : .pushRow id ∈ l.rows) (hvalue : (l.pushRow id).value = none)
    {player : String} : (l.setValue id (some player)).OffersUnplaced := by
  intro q
  have hchosen : q ∉ (l.setValue id (some player)).chosenPlayers ↔
      q ∉ l.chosenPlayers ∧ player ≠ q := by
    rw [← not_or, not_iff_not, setValue_chosenPlayers,
      if_pos ⟨hrow, by rw [hvalue]; exact (Option.some_ne_none _).symm⟩]
    constructor
    · exact fun hq => (mem_of_mem_onChange hq).imp_right Option.some.inj
    · rintro (hq | rfl)
      · exact subset_onChange hq
      · exact mem_onChange _
  have hholds : (∀ j, ¬ (l.setValue id (some player)).Holds j q) ↔
      (∀ j, ¬ l.Holds j q) ∧ player ≠ q := by
    constructor
    · intro hnone
      refine ⟨fun j hj => hnone j ((holds_setValue _ _ _).2 ⟨hj.1, ?_⟩), ?_⟩
      · have hne : j ≠ id := by
          rintro rfl
          exact nomatch hvalue.symm.trans hj.2
        rw [if_neg hne]
        exact hj.2
      · rintro rfl
        exact hnone id ((holds_setValue _ _ _).2 ⟨hrow, if_pos rfl⟩)
    · rintro ⟨hnone, hne⟩ j hj
      obtain ⟨hmem, hp⟩ := (holds_setValue _ _ _).1 hj
      split_ifs at hp
      · exact hne (Option.some.inj hp)
      · exact hnone j ⟨hmem, hp⟩
  have hq := h q
  rw [mem_notChosenPlayers] at hq
  rw [mem_notChosenPlayers, setValue_availablePlayers, hchosen, hholds, ← and_assoc, hq, and_assoc]

end OffersUnplaced

/-- A chosen player whom no row holds is not offered. -/
theorem not_offersUnplaced {l : Lineup} {player : String} (havailable : player ∈ l.availablePlayers)
    (hchosen : player ∈ l.chosenPlayers) (hholds : ∀ id, ¬ l.Holds id player) :
    ¬ l.OffersUnplaced := fun h =>
  (mem_notChosenPlayers.1 ((h player).2 ⟨havailable, hholds⟩)).2 hchosen

namespace Sound

variable {l l' : Lineup} (h : l.Sound) (hoffers : l.OffersUnplaced)

include h hoffers

/-- A row is deleted. -/
theorem offers_delete_iff {i : ℕ} (hs : l.delete i = some l') :
    l'.OffersUnplaced ↔ ¬ l.TakesOut (.delete i) := by
  obtain ⟨_, rfl⟩ := delete_eq_some.1 hs
  have hmem : ∀ r, r ∈ l.rows.eraseIdx i ↔ r ∈ l.rows ∧ l.rows[i]? ≠ some r := by
    intro r
    rw [List.mem_eraseIdx_iff_getElem, List.mem_iff_getElem]
    constructor
    · rintro ⟨k, hk, hne, rfl⟩
      refine ⟨⟨k, hk, rfl⟩, fun heq => ?_⟩
      obtain ⟨hi, heq⟩ := List.getElem?_eq_some_iff.1 heq
      exact hne ((List.getElem_inj h.nodup).1 heq).symm
    · rintro ⟨⟨k, hk, rfl⟩, hne⟩
      refine ⟨k, hk, ?_, rfl⟩
      rintro rfl
      exact hne (List.getElem?_eq_getElem hk)
  constructor
  · rintro hoffers' ⟨id, player, hrow, hvalue⟩
    have hid : l.Holds id player := ⟨List.mem_of_getElem? hrow, hvalue⟩
    refine not_offersUnplaced (l := { l with rows := l.rows.eraseIdx i }) (h.available id player hid)
      (h.chosen id player hid) ?_ hoffers'
    rintro j ⟨hj, hvalue'⟩
    obtain ⟨hj, hne⟩ := (hmem _).1 hj
    obtain rfl := h.once id j player hid ⟨hj, hvalue'⟩
    exact hne hrow
  · intro hkeep
    refine hoffers.congr rfl rfl fun id player => ?_
    refine and_congr_left fun hvalue => (hmem _).trans ⟨And.left, fun hid => ⟨hid, fun hrow => ?_⟩⟩
    exact hkeep ⟨id, player, hrow, hvalue⟩

/-- A player is tapped. -/
theorem offers_tap_iff {i : ℕ} (hs : l.tap i = some l') :
    l'.OffersUnplaced ↔ ¬ l.TakesOut (.tap i) := by
  obtain ⟨vc, checkRows, c, hvc, hrows, hc, rfl⟩ := tap_eq_some hs
  obtain ⟨_, hall⟩ := (h.selector vc hvc).checkRows checkRows hrows
  obtain ⟨_, _, hflag⟩ := hall c (List.mem_of_getElem? hc)
  constructor
  · rintro hoffers' ⟨vc', player, hvc', hplayer⟩
    obtain rfl := Option.some.inj (hvc.symm.trans hvc')
    -- the row loses its player: it was checked, or another player is put in his place
    have hlost : (if c.2 then none else some c.1) ≠ some player := by
      intro heq
      split_ifs at heq with hchecked
      exact hchecked (hflag.2 (hplayer.2.trans heq.symm))
    refine absurd hoffers' (not_offersUnplaced (?_ : player ∈ _) ?_ ?_)
    · exact (setValue_availablePlayers l _ _).symm ▸ h.available _ _ hplayer
    · exact subset_chosenPlayers_setValue _ _ _ (h.chosen _ _ hplayer)
    · intro j hj
      obtain ⟨hmem, hp⟩ := (holds_setValue _ _ _).1 hj
      by_cases hself : j = vc.row
      · exact hlost ((if_pos hself).symm.trans hp)
      · exact hself (h.once j vc.row player ⟨hmem, (if_neg hself).symm.trans hp⟩ hplayer)
  · intro hkeep
    have hempty : ∀ player, ¬ l.Holds vc.row player := fun player hp => hkeep ⟨vc, player, hvc, hp⟩
    by_cases hrow : .pushRow vc.row ∈ l.rows
    · -- the row was empty, so no check row is checked and it gets the player `c.1`
      have hvalue : (l.pushRow vc.row).value = none :=
        Option.eq_none_iff_forall_ne_some.2 fun q hq => hempty q ⟨hrow, hq⟩
      have hunchecked : c.2 = false := by
        cases hchecked : c.2 with
        | false => rfl
        | true => exact nomatch hvalue.symm.trans (hflag.1 hchecked)
      rw [hunchecked]
      exact hoffers.setValue_some hrow hvalue
    · exact hoffers.setValue_of_not_mem hrow

/-- **Who is offered after an operation.**  The next selector offers the players no row
holds exactly when the operation took nobody out. -/
theorem offers_step_iff {visible : Bool} {a : LineupAction} (hs : l.step visible a = some l') :
    l'.OffersUnplaced ↔ ¬ l.TakesOut a := by
  cases a with
  | toggle =>
      obtain ⟨_, hs⟩ := Option.ite_none_right_eq_some.1 hs
      obtain rfl := Option.some.inj hs
      exact iff_of_true hoffers not_false
  | insert =>
      obtain ⟨_, hs⟩ := Option.ite_none_right_eq_some.1 hs
      obtain rfl := Option.some.inj hs
      exact iff_of_true (hoffers.congr rfl rfl fun _ _ => h.holds_insert) not_false
  | delete i => exact h.offers_delete_iff hoffers (Option.ite_none_right_eq_some.1 hs).2
  | move i j =>
      obtain ⟨_, hs⟩ := Option.ite_none_right_eq_some.1 hs
      obtain ⟨rows, hperm, rfl⟩ := move_eq_some hs
      exact iff_of_true (hoffers.congr rfl rfl fun _ _ => and_congr_left fun _ => hperm.mem_iff)
        not_false
  | didSelect id =>
      obtain ⟨_, hs⟩ := Option.ite_none_right_eq_some.1 hs
      have hholds : ∀ j player, l'.Holds j player ↔ l.Holds j player := fun _ _ =>
        holds_didSelect hs
      obtain ⟨_, _, rfl⟩ := didSelect_eq_some.1 hs
      exact iff_of_true (hoffers.congr rfl rfl hholds) not_false
  | viewDidLoad =>
      obtain ⟨_, _, _, rfl⟩ := viewDidLoad_eq_some hs
      exact iff_of_true hoffers not_false
  | tap i => exact h.offers_tap_iff hoffers hs
  | dismiss =>
      obtain ⟨_, _, rfl⟩ := Option.map_eq_some_iff.1 hs
      exact iff_of_true hoffers not_false

end Sound

end Lineup
end Teamstuff
