/-
# Validation that starts over

`updateSaveButtonState` validates the form, and every row whose errors change calls it
again before the validation goes on.

`Kept.updateSaveButtonState` is the invariant rule for it.  From it: a validation
leaves every visible row with errors its rules yielded during the validation
(`validate_spec`), and on a clock that stands still with the errors they yield
(`updateSaveButtonState_settles`).  The calls come to an end on every clock that does
not run backwards (`exists_updateSaveButtonState`): the error list of a date row changes
at most once as time passes.
-/

import Teamstuff.Controller.AddEventViewController
import Teamstuff.Controller.TeamIdRule
import Mathlib.Algebra.BigOperators.Group.List.Basic
import Mathlib.Algebra.GroupWithZero.Nat
import Mathlib.Algebra.Order.BigOperators.Group.List

namespace Teamstuff

namespace AddEventViewController

/-- The screen but for the stored errors and the state of the button, which a validation
changes. -/
def form (vc : AddEventViewController) : AddEventViewController :=
  { vc with validationErrors := fun _ => [], saveButtonIsEnabled := false }

/-- The two differ in the stored errors and the state of the button at most. -/
def SameForm (v w : AddEventViewController) : Prop := w.form = v.form

namespace SameForm

theorem refl (v : AddEventViewController) : SameForm v v := rfl

variable {v w : AddEventViewController} (h : SameForm v w)

include h

/-- Nothing that does not look at the errors and the button can tell them apart. -/
theorem congr {α : Sort*} (f : AddEventViewController → α) (hf : ∀ vc, f vc.form = f vc) :
    f w = f v := by
  have heq : w.form = v.form := h
  rw [← hf w, heq, hf v]

theorem rows : w.rows = v.rows := h.congr _ fun _ => rfl
theorem isClean : w.isClean = v.isClean := h.congr _ fun _ => rfl
theorem values : w.values = v.values := h.congr _ fun _ => rfl
theorem lineup : w.lineup = v.lineup := h.congr _ fun _ => rfl
theorem event : w.event = v.event := h.congr _ fun _ => rfl
theorem type : w.type = v.type := h.congr _ fun _ => rfl

theorem isValidAt (now : Date) : w.isValidAt now = v.isValidAt now := h.congr _ fun _ => rfl

theorem errorsAt (now : Date) (row : FormRow) : w.errorsAt now row = v.errorsAt now row :=
  h.congr (fun vc => AddEventViewController.errorsAt now vc row) fun _ => rfl

end SameForm

/-! ### What the rules yield -/

/-- The name is there and not empty. -/
theorem errorsAt_name {now : Date} {vc : AddEventViewController} :
    vc.errorsAt now (.item .name) = [] ↔ ∃ title, vc.name = some title ∧ title ≠ "" := by
  rw [errorsAt, Teamstuff.validateRow, List.filterMap_eq_nil_iff, List.forall_mem_singleton]
  cases vc.name with
  | none => simp [ruleRequired]
  | some title => simp [ruleRequired_eq_none]

/-- The type is there and not empty. -/
theorem errorsAt_type {now : Date} {vc : AddEventViewController} :
    vc.errorsAt now (.item .type) = [] ↔ ∃ type, vc.type = some type ∧ type ≠ "" := by
  rw [errorsAt, Teamstuff.validateRow, List.filterMap_eq_nil_iff, List.forall_mem_singleton]
  cases vc.type with
  | none => simp [ruleRequired]
  | some type => simp [ruleRequired_eq_none]

/-- The start is there, to come and before the end. -/
theorem errorsAt_dateStart {now : Date} {vc : AddEventViewController} :
    vc.errorsAt now (.item .dateStart) = [] ↔ ∃ startDate, vc.dateStart = some startDate ∧
      now < startDate ∧ ∀ endDate, vc.dateEnd = some endDate → startDate < endDate := by
  rw [errorsAt, List.filterMap_eq_nil_iff]
  cases vc.dateStart <;> cases vc.dateEnd <;>
    simp [ruleRequiredDate, afterEndDateRule, dateInTheFuture, and_comm]

/-- The end is there, to come and after the start. -/
theorem errorsAt_dateEnd {now : Date} {vc : AddEventViewController} :
    vc.errorsAt now (.item .dateEnd) = [] ↔ ∃ endDate, vc.dateEnd = some endDate ∧
      now < endDate ∧ ∀ startDate, vc.dateStart = some startDate → startDate < endDate := by
  rw [errorsAt, List.filterMap_eq_nil_iff]
  cases vc.dateEnd <;> cases vc.dateStart <;>
    simp [ruleRequiredDate, afterStartDateRule, dateInTheFuture, and_comm]

/-- The rows of the first section are always there. -/
theorem mem_rows (vc : AddEventViewController) (tag : FormItems) : .item tag ∈ vc.rows := by
  refine List.mem_append_left _ ?_
  cases tag <;> decide

/-- A form is valid if no row has errors. -/
theorem isValidAt_iff {now : Date} {vc : AddEventViewController} :
    vc.isValidAt now = true ↔ ∀ row ∈ vc.rows, vc.errorsAt now row = [] := by
  simp only [isValidAt, List.all_eq_true, List.isEmpty_iff]

/-- Only four rows can have errors. -/
theorem isValidAt_of_items {now : Date} {vc : AddEventViewController}
    (hname : vc.errorsAt now (.item .name) = []) (htype : vc.errorsAt now (.item .type) = [])
    (hstart : vc.errorsAt now (.item .dateStart) = [])
    (hend : vc.errorsAt now (.item .dateEnd) = []) : vc.isValidAt now = true := by
  refine isValidAt_iff.2 fun row _ => ?_
  cases row with
  | lineup row => rfl
  | item tag =>
      cases tag with
      | description | location => rfl
      | name => exact hname
      | type => exact htype
      | dateStart => exact hstart
      | dateEnd => exact hend

/-- Where every row is without errors at some time, all are at the same time: that
of the start date, which passes first. -/
theorem exists_isValidAt {clock : ℕ → Date} {vc : AddEventViewController}
    (h : ∀ row ∈ vc.rows, ∃ n, vc.errorsAt (clock n) row = []) :
    ∃ n, vc.isValidAt (clock n) = true := by
  obtain ⟨_, hname⟩ := h _ (vc.mem_rows .name)
  obtain ⟨_, htype⟩ := h _ (vc.mem_rows .type)
  obtain ⟨n, hstart⟩ := h _ (vc.mem_rows .dateStart)
  obtain ⟨_, hend⟩ := h _ (vc.mem_rows .dateEnd)
  refine ⟨n, isValidAt_of_items (errorsAt_name.2 (errorsAt_name.1 hname))
    (errorsAt_type.2 (errorsAt_type.1 htype)) hstart ?_⟩
  obtain ⟨startDate, hs, hnow, hbefore⟩ := errorsAt_dateStart.1 hstart
  obtain ⟨endDate, he, _, hafter⟩ := errorsAt_dateEnd.1 hend
  exact errorsAt_dateEnd.2 ⟨endDate, he, lt_trans hnow (hbefore endDate he), hafter⟩

end AddEventViewController

namespace AddEventScreen

open AddEventViewController

/-! ### The invariant rule -/

/-- What the parts of `updateSaveButtonState` have to keep of a screen with the form `v` for
the whole call to keep `J`: computing errors, which have `Y`, storing them, disabling the
button of a clean form, and ending a validation. -/
structure Kept (clock : ℕ → Date) (v : AddEventViewController) (J : AddEventScreen → Prop)
    (Y : FormRow → List ValidationError → Prop) : Prop where
  compute : ∀ row s, SameForm v s.vc → J s →
    J ((cells clock).compute row s).2 ∧ Y row (v.errorsAt (clock s.reading) row)
  store : ∀ row errors s, J s → J ((cells clock).store row errors s)
  clean : v.isClean = true → ∀ s, SameForm v s.vc → J s → J ((s.setEnabled false).returned clock)
  done : v.isClean = false → ∀ s errors, SameForm v s.vc → J s → List.Forall₂ Y v.rows errors →
    J ((if errors.flatten.isEmpty then s.setEnabled true else s).returned clock)

namespace Kept

variable {clock : ℕ → Date} {v : AddEventViewController} {J : AddEventScreen → Prop}
  {Y : FormRow → List ValidationError → Prop} (hkept : Kept clock v J Y)

include hkept

/-- The rule for a validation, from that for the calls nested in it. -/
theorem validate_of_update {update : AddEventScreen → Option AddEventScreen}
    (hupdate : ∀ s s', SameForm v s.vc ∧ J s → update s = some s' →
      (cells clock).Keeps (fun s => SameForm v s.vc ∧ J s) Y s s')
    {s s' : AddEventScreen} {errors : List (List ValidationError)} (hs : SameForm v s.vc ∧ J s)
    (h : AddEventScreen.validate clock update s = some (errors, s')) :
    (cells clock).Keeps (fun s => SameForm v s.vc ∧ J s) Y s s' ∧ List.Forall₂ Y v.rows errors ∧
      ∀ row ∈ v.rows, Y row (s'.vc.validationErrors row) := by
  rw [AddEventScreen.validate, hs.1.rows] at h
  refine Cells.refreshAll_spec (fun row s hs => ?_) (fun row errors s hs => ?_)
    (fun row s s' hs h => ?_) hs h
  · obtain ⟨hJ, hY⟩ := hkept.compute row s hs.1 hs.2
    rw [← hs.1.errorsAt] at hY
    exact ⟨⟨hs.1, hJ⟩, hY⟩
  · exact ⟨hs.1, hkept.store row errors s hs.2⟩
  · cases row with
    | item tag => exact hupdate s s' hs h
    | lineup row =>
        obtain rfl := Option.some.inj h
        exact ⟨hs, fun _ hi => hi⟩

/-- **The invariant rule for `updateSaveButtonState`.** -/
theorem updateSaveButtonState {fuel : ℕ} {s s' : AddEventScreen} (hs : SameForm v s.vc ∧ J s)
    (h : AddEventScreen.updateSaveButtonState clock fuel s = some s') :
    (cells clock).Keeps (fun s => SameForm v s.vc ∧ J s) Y s s' := by
  induction fuel generalizing s s' with
  | zero => exact nomatch h
  | succ fuel ih =>
      rw [AddEventScreen.updateSaveButtonState] at h
      split_ifs at h with hc
      · obtain rfl := Option.some.inj h
        exact ⟨⟨hs.1, hkept.clean (hs.1.isClean ▸ hc) s hs.1 hs.2⟩, fun _ hi => hi⟩
      · obtain ⟨⟨errors, t⟩, ht, rfl⟩ := Option.map_eq_some_iff.1 h
        obtain ⟨⟨hI, hkeep⟩, herrors, _⟩ := hkept.validate_of_update (fun _ _ => ih) hs ht
        have hdirty : v.isClean = false := by
          rw [← hs.1.isClean]
          exact Bool.eq_false_iff.2 hc
        have hJ := hkept.done hdirty t errors hI.1 hI.2 herrors
        dsimp only
        split_ifs at hJ ⊢
        · exact ⟨⟨hI.1, hJ⟩, hkeep⟩
        · exact ⟨⟨hI.1, hJ⟩, hkeep⟩

/-- The rule for `form.validate()`. -/
theorem validate {fuel : ℕ} {s s' : AddEventScreen} {errors : List (List ValidationError)}
    (hs : SameForm v s.vc ∧ J s)
    (h : AddEventScreen.validate clock (AddEventScreen.updateSaveButtonState clock fuel) s =
      some (errors, s')) :
    (cells clock).Keeps (fun s => SameForm v s.vc ∧ J s) Y s s' ∧ List.Forall₂ Y v.rows errors ∧
      ∀ row ∈ v.rows, Y row (s'.vc.validationErrors row) :=
  hkept.validate_of_update (fun _ _ => hkept.updateSaveButtonState) hs h

/-- The rule for `row.updateCell()`. -/
theorem updateCell {fuel : ℕ} {row : FormRow} {s s' : AddEventScreen}
    (hs : SameForm v s.vc ∧ J s)
    (h : AddEventScreen.updateCell (AddEventScreen.updateSaveButtonState clock fuel) row s = some s') :
    (cells clock).Keeps (fun s => SameForm v s.vc ∧ J s) Y s s' := by
  cases row with
  | item tag => exact hkept.updateSaveButtonState hs h
  | lineup row =>
      obtain rfl := Option.some.inj h
      exact ⟨hs, fun _ hi => hi⟩

/-- The rule for `row.validate()`. -/
theorem validateRow {fuel : ℕ} {row : FormRow} {s s' : AddEventScreen}
    {errors : List ValidationError} (hs : SameForm v s.vc ∧ J s)
    (h : AddEventScreen.validateRow clock fuel row s = some (errors, s')) :
    (cells clock).Keeps (fun s => SameForm v s.vc ∧ J s) Y s s' := by
  refine (Cells.refresh_spec (C := cells clock) (fun row s hs => ?_)
    (fun row errors s hs => ⟨hs.1, hkept.store row errors s hs.2⟩)
    (fun row s s' hs h => hkept.updateCell hs h) hs h).1
  obtain ⟨hJ, hY⟩ := hkept.compute row s hs.1 hs.2
  rw [← hs.1.errorsAt] at hY
  exact ⟨⟨hs.1, hJ⟩, hY⟩

end Kept

/-! ### What a validation leaves -/

/-- What the rules of a row yielded at some reading of the clock, from the `n`th on. -/
def YieldedFrom (clock : ℕ → Date) (v : AddEventViewController) (n : ℕ) (row : FormRow)
    (errors : List ValidationError) : Prop :=
  ∃ m, n ≤ m ∧ errors = v.errorsAt (clock m) row

/-- **What `form.validate()` returns and stores** was yielded by the rules of the rows
while it ran, whichever of the nested calls stored it. -/
theorem validate_spec {clock : ℕ → Date} {fuel : ℕ} {s s' : AddEventScreen}
    {errors : List (List ValidationError)}
    (h : validate clock (updateSaveButtonState clock fuel) s = some (errors, s')) :
    SameForm s.vc s'.vc ∧ List.Forall₂ (YieldedFrom clock s.vc s.reading) s.vc.rows errors ∧
      ∀ row ∈ s.vc.rows, YieldedFrom clock s.vc s.reading row (s'.vc.validationErrors row) := by
  have hkept : Kept clock s.vc (fun t => s.reading ≤ t.reading) (YieldedFrom clock s.vc s.reading) :=
    { compute := fun row t _ ht => ⟨Nat.le_trans ht (Nat.le_add_right ..), t.reading, ht, rfl⟩
      store := fun _ _ _ ht => ht
      clean := fun _ _ _ ht => ht
      done := fun _ t errors _ ht _ => by split_ifs <;> exact ht }
  obtain ⟨hkeeps, herrors, hrows⟩ := hkept.validate ⟨.refl _, Nat.le_refl _⟩ h
  exact ⟨hkeeps.1.1, herrors, hrows⟩

/-- Where there are no errors, no row has any. -/
theorem forall_nil_of_flatten {R : FormRow → List ValidationError → Prop} {rows : List FormRow}
    {errors : List (List ValidationError)} (h : List.Forall₂ R rows errors)
    (hnil : errors.flatten = []) : ∀ row ∈ rows, R row [] := by
  induction h with
  | nil => exact fun row hrow => absurd hrow List.not_mem_nil
  | cons hR _ ih =>
      obtain ⟨rfl, hnil⟩ := List.append_eq_nil_iff.1 hnil
      intro row hrow
      rcases List.mem_cons.1 hrow with rfl | hrow
      · exact hR
      · exact ih hnil row hrow

/-- Where no row has errors, there are none. -/
theorem flatten_eq_nil {R : FormRow → List ValidationError → Prop} {rows : List FormRow}
    {errors : List (List ValidationError)} (h : List.Forall₂ R rows errors)
    (hnil : ∀ row ∈ rows, ∀ es, R row es → es = []) : errors.flatten = [] := by
  induction h with
  | nil => rfl
  | cons hR _ ih =>
      rw [List.flatten_cons, hnil _ List.mem_cons_self _ hR]
      exact ih fun row hrow => hnil row (List.mem_cons_of_mem _ hrow)

/-- The errors in the order of the rows. -/
theorem flatten_eq_flatMap {f : FormRow → List ValidationError} {rows : List FormRow}
    {errors : List (List ValidationError)}
    (h : List.Forall₂ (fun row es => es = f row) rows errors) : errors.flatten = rows.flatMap f := by
  induction h with
  | nil => rfl
  | cons heq _ ih => rw [List.flatten_cons, List.flatMap_cons, heq, ih]

/-- Where a validation found no error, the rules of every row yielded none at some
reading. -/
theorem exists_errorsAt_eq_nil {clock : ℕ → Date} {v : AddEventViewController} {n : ℕ}
    {errors : List (List ValidationError)} (h : List.Forall₂ (YieldedFrom clock v n) v.rows errors)
    (hnil : errors.flatten = []) : ∀ row ∈ v.rows, ∃ m, v.errorsAt (clock m) row = [] := by
  intro row hrow
  obtain ⟨m, _, hm⟩ := forall_nil_of_flatten h hnil row hrow
  exact ⟨m, hm.symm⟩

/-- Where the form is valid at every reading or at none, a validation finds out. -/
theorem flatten_isEmpty_of_steady {clock : ℕ → Date} {v : AddEventViewController} {valid : Bool}
    (hsteady : ∀ n, v.isValidAt (clock n) = valid) {n : ℕ} {errors : List (List ValidationError)}
    (h : List.Forall₂ (YieldedFrom clock v n) v.rows errors) : errors.flatten.isEmpty = valid := by
  cases valid with
  | true =>
      refine List.isEmpty_iff.2 (flatten_eq_nil h fun row hrow es hes => ?_)
      obtain ⟨m, _, rfl⟩ := hes
      exact isValidAt_iff.1 (hsteady m) row hrow
  | false =>
      refine Bool.eq_false_iff.2 fun hempty => ?_
      obtain ⟨m, hm⟩ := exists_isValidAt (exists_errorsAt_eq_nil h (List.isEmpty_iff.1 hempty))
      rw [hsteady m] at hm
      exact Bool.false_ne_true hm

/-! ### Another clock -/

section Congr

variable {clock clock' : ℕ → Date} {last : ℕ}

/-- What is stored does not depend on the clock. -/
theorem stored_cells : (cells clock').stored = (cells clock).stored := rfl

/-- Nor does storing. -/
theorem store_cells : (cells clock').store = (cells clock).store := rfl

/-- The rule for `row.updateCell()`, from that for the calls nested in it. -/
theorem updateCell_congr {update update' : AddEventScreen → Option AddEventScreen}
    (hupdate : ∀ s s', update s = some s' → s'.reading ≤ last →
      s.reading ≤ last ∧ update' s = some s')
    {row : FormRow} {s s' : AddEventScreen} (h : updateCell update row s = some s')
    (hlast : s'.reading ≤ last) : s.reading ≤ last ∧ updateCell update' row s = some s' := by
  cases row with
  | item tag => exact hupdate s s' h hlast
  | lineup row =>
      obtain rfl := Option.some.inj h
      exact ⟨hlast, rfl⟩

variable (hclock : ∀ n ≤ last, clock' n = clock n)

include hclock

/-- Two returns that read the same. -/
theorem returned_congr {s : AddEventScreen} (hlast : s.reading ≤ last) :
    s.returned clock' = s.returned clock := by
  rw [returned, returned, hclock _ hlast]

/-- Errors that are computed by the last of these readings. -/
theorem compute_congr {row : FormRow} {s : AddEventScreen}
    (hlast : ((cells clock).compute row s).2.reading ≤ last) :
    s.reading ≤ last ∧ (cells clock').compute row s = (cells clock).compute row s := by
  have hle : s.reading ≤ last := Nat.le_trans (Nat.le_add_right ..) hlast
  refine ⟨hle, ?_⟩
  simp only [cells, hclock _ hle]

/-- The rule for `form.validate()`, from that for the calls nested in it. -/
theorem validate_of_congr {update update' : AddEventScreen → Option AddEventScreen}
    (hupdate : ∀ s s', update s = some s' → s'.reading ≤ last →
      s.reading ≤ last ∧ update' s = some s')
    {s s' : AddEventScreen} {errors : List (List ValidationError)}
    (h : validate clock update s = some (errors, s')) (hlast : s'.reading ≤ last) :
    s.reading ≤ last ∧ validate clock' update' s = some (errors, s') := by
  refine Cells.refreshAll_congr (A := fun s => s.reading ≤ last) stored_cells
    store_cells (fun _ _ _ hs => hs) (fun row s hs => ?_) (fun row s s' h hs => ?_) h hlast
  · exact compute_congr hclock hs
  · exact updateCell_congr hupdate h hs

/-- **A call that has ended by the last of these readings** ends the same on a clock that agrees
with this one up to there. -/
theorem updateSaveButtonState_congr {fuel : ℕ} {s s' : AddEventScreen}
    (h : updateSaveButtonState clock fuel s = some s') (hlast : s'.reading ≤ last) :
    s.reading ≤ last ∧ updateSaveButtonState clock' fuel s = some s' := by
  induction fuel generalizing s s' with
  | zero => exact nomatch h
  | succ fuel ih =>
      rw [updateSaveButtonState] at h ⊢
      split_ifs at h ⊢ with hc
      · obtain rfl := Option.some.inj h
        exact ⟨hlast, congrArg some (returned_congr hclock hlast)⟩
      · obtain ⟨⟨errors, t⟩, ht, rfl⟩ := Option.map_eq_some_iff.1 h
        have ht' : t.reading ≤ last := by
          dsimp only at hlast
          split_ifs at hlast <;> exact hlast
        obtain ⟨hs, hvalidate⟩ := validate_of_congr hclock (fun _ _ => ih) ht ht'
        refine ⟨hs, Option.map_eq_some_iff.2 ⟨(errors, t), hvalidate, ?_⟩⟩
        dsimp only
        split_ifs <;> exact returned_congr hclock ht'

/-- The rule for `form.validate()`. -/
theorem validate_congr {fuel : ℕ} {s s' : AddEventScreen} {errors : List (List ValidationError)}
    (h : validate clock (updateSaveButtonState clock fuel) s = some (errors, s'))
    (hlast : s'.reading ≤ last) :
    validate clock' (updateSaveButtonState clock' fuel) s = some (errors, s') :=
  (validate_of_congr hclock (fun _ _ => updateSaveButtonState_congr hclock) h hlast).2

/-- The rule for `row.validate()`. -/
theorem validateRow_congr {fuel : ℕ} {row : FormRow} {s s' : AddEventScreen}
    {errors : List ValidationError} (h : validateRow clock fuel row s = some (errors, s'))
    (hlast : s'.reading ≤ last) : validateRow clock' fuel row s = some (errors, s') := by
  refine (Cells.refresh_congr (A := fun s => s.reading ≤ last) stored_cells store_cells
    (fun _ _ _ hs => hs) (fun row s hs => ?_) (fun row s s' h hs => ?_) h hlast).2
  · exact compute_congr hclock hs
  · exact updateCell_congr (fun _ _ => updateSaveButtonState_congr hclock) h hs

end Congr

/-- The clock, standing still from some reading on. -/
def stoppedAt (clock : ℕ → Date) (last n : ℕ) : Date := clock (min n last)

/-- Until then it is the clock. -/
theorem stoppedAt_of_le (clock : ℕ → Date) {last n : ℕ} (h : n ≤ last) :
    stoppedAt clock last n = clock n := congrArg clock (Nat.min_eq_left h)

/-- Where the form is valid at every reading that a validation makes or at none, it finds out. -/
theorem flatten_isEmpty_of_readings {clock : ℕ → Date} {fuel : ℕ} {s s' : AddEventScreen}
    {errors : List (List ValidationError)} {valid : Bool}
    (h : validate clock (updateSaveButtonState clock fuel) s = some (errors, s'))
    (hsteady : ∀ n ≤ s'.reading, s.vc.isValidAt (clock n) = valid) :
    errors.flatten.isEmpty = valid := by
  have hstopped := validate_congr (fun _ hn => stoppedAt_of_le clock hn) h (Nat.le_refl _)
  obtain ⟨_, herrors, _⟩ := validate_spec hstopped
  exact flatten_isEmpty_of_steady (fun n => hsteady _ (Nat.min_le_right n _)) herrors

/-! ### Termination -/

/-- With more fuel a call that returned returns the same. -/
theorem updateSaveButtonState_mono {clock : ℕ → Date} {fuel fuel' : ℕ} (hle : fuel ≤ fuel')
    {s s' : AddEventScreen} (h : updateSaveButtonState clock fuel s = some s') :
    updateSaveButtonState clock fuel' s = some s' := by
  induction fuel generalizing fuel' s s' with
  | zero => exact nomatch h
  | succ fuel ih =>
      obtain ⟨fuel', rfl⟩ : ∃ k, fuel' = k + 1 := ⟨fuel' - 1, by omega⟩
      rw [updateSaveButtonState] at h ⊢
      split_ifs at h ⊢ with hc
      · exact h
      · obtain ⟨⟨errors, t⟩, ht, rfl⟩ := Option.map_eq_some_iff.1 h
        refine Option.map_eq_some_iff.2 ⟨(errors, t), Cells.refreshAll_mono ?_ ht, rfl⟩
        intro row t t' ht
        cases row with
        | item tag => exact ih (Nat.le_of_succ_le_succ hle) ht
        | lineup row => exact ht

/-- The date of the row is still to come, so its errors will change once more. -/
def pending (v : AddEventViewController) (now : Date) : FormRow → Bool
  | .item .dateStart => v.dateStart.any fun date => now < date
  | .item .dateEnd => v.dateEnd.any fun date => now < date
  | .item .name | .item .description | .item .location | .item .type | .lineup _ => false

/-- How often the stored errors of the row can change from here on: once if they are not
those its rules yield, and once when its date passes. -/
def debt (clock : ℕ → Date) (v : AddEventViewController) (s : AddEventScreen) (row : FormRow) : ℕ :=
  (decide (s.vc.validationErrors row ≠ v.errorsAt (clock s.reading) row)).toNat +
    (pending v (clock s.reading) row).toNat

/-- The measure that every stored error list lowers. -/
def totalDebt (clock : ℕ → Date) (v : AddEventViewController) (s : AddEventScreen) : ℕ :=
  (v.rows.map (debt clock v s)).sum

/-- A row changes twice at most. -/
theorem debt_le_two (clock : ℕ → Date) (v : AddEventViewController) (s : AddEventScreen)
    (row : FormRow) : debt clock v s row ≤ 2 :=
  Nat.add_le_add (Bool.toNat_le _) (Bool.toNat_le _)

/-- All rows change twice at most. -/
theorem totalDebt_le (clock : ℕ → Date) (v : AddEventViewController) (s : AddEventScreen) :
    totalDebt clock v s ≤ 2 * v.rows.length := by
  have hle : totalDebt clock v s ≤ (v.rows.map (debt clock v s)).length * 2 := by
    refine List.sum_le_card_nsmul _ 2 fun d hd => ?_
    obtain ⟨row, _, rfl⟩ := List.mem_map.1 hd
    exact debt_le_two clock v s row
  rwa [List.length_map, Nat.mul_comm] at hle

/-- As time passes the errors of a row stay or, once, its date is over. -/
theorem errorsAt_of_le {v : AddEventViewController} {now later : Date} (hle : now ≤ later)
    (row : FormRow) :
    (v.errorsAt later row = v.errorsAt now row ∧ pending v later row = pending v now row) ∨
      (pending v now row = true ∧ pending v later row = false) := by
  have hfuture : ∀ date : Option Date,
      (dateInTheFuture later date = dateInTheFuture now date ∧
        (date.any fun date => later < date) = date.any fun date => now < date) ∨
      ((date.any fun date => now < date) = true ∧ (date.any fun date => later < date) = false) := by
    intro date
    cases date with
    | none => exact Or.inl ⟨rfl, rfl⟩
    | some date =>
        by_cases hlater : later < date
        · exact Or.inl (by simp [dateInTheFuture, hlater, lt_of_le_of_lt hle hlater])
        · by_cases hnow : now < date
          · exact Or.inr (by simp [hlater, hnow])
          · exact Or.inl (by simp [dateInTheFuture, hlater, hnow])
  cases row with
  | lineup row => exact Or.inl ⟨rfl, rfl⟩
  | item tag =>
      cases tag with
      | name | description | location | type => exact Or.inl ⟨rfl, rfl⟩
      | dateStart =>
          rcases hfuture v.dateStart with ⟨heq, hpending⟩ | h
          · refine Or.inl ⟨?_, hpending⟩
            simp only [errorsAt, List.filterMap_cons, heq]
          · exact Or.inr h
      | dateEnd =>
          rcases hfuture v.dateEnd with ⟨heq, hpending⟩ | h
          · refine Or.inl ⟨?_, hpending⟩
            simp only [errorsAt, List.filterMap_cons, heq]
          · exact Or.inr h

section Total

variable {clock : ℕ → Date} (hclock : Monotone clock) {v : AddEventViewController}

include hclock

/-- Computing errors takes time, but makes no debts. -/
theorem debt_compute_le (computed row : FormRow) (s : AddEventScreen) :
    debt clock v ((cells clock).compute computed s).2 row ≤ debt clock v s row := by
  have hle : clock s.reading ≤ clock (s.reading + s.vc.readings computed) :=
    hclock (Nat.le_add_right ..)
  unfold debt
  rcases errorsAt_of_le (v := v) hle row with ⟨herrors, hpending⟩ | ⟨hnow, hlater⟩
  · exact Nat.le_of_eq (by simp only [cells, herrors, hpending])
  · simp only [cells, hnow, hlater]
    exact Nat.le_trans (Bool.toNat_le _) (Nat.le_add_left ..)

/-- Storing other errors than before pays a debt. -/
theorem debt_store_lt {row : FormRow} {s : AddEventScreen} (hs : SameForm v s.vc)
    (hne : s.vc.errorsAt (clock s.reading) row ≠ s.vc.validationErrors row) :
    debt clock v ((cells clock).store row ((cells clock).compute row s).1
      ((cells clock).compute row s).2) row < debt clock v s row := by
  have hle : clock s.reading ≤ clock (s.reading + s.vc.readings row) :=
    hclock (Nat.le_add_right ..)
  rw [hs.errorsAt] at hne
  unfold debt
  rw [decide_eq_true (Ne.symm hne)]
  simp only [cells, Function.update_self, hs.errorsAt]
  rcases errorsAt_of_le (v := v) hle row with ⟨herrors, hpending⟩ | ⟨hnow, hlater⟩
  · simp [herrors, hpending]
  · rw [hnow, hlater]
    exact Nat.lt_succ_of_le (Bool.toNat_le _)

/-- Computing errors makes no debts in any row. -/
theorem totalDebt_compute_le (row : FormRow) (s : AddEventScreen) :
    totalDebt clock v ((cells clock).compute row s).2 ≤ totalDebt clock v s :=
  List.sum_le_sum fun other _ => debt_compute_le hclock row other s

/-- Storing other errors than before pays a debt, and makes none elsewhere. -/
theorem totalDebt_store_lt {row : FormRow} (hrow : row ∈ v.rows) {s : AddEventScreen}
    (hs : SameForm v s.vc)
    (hne : s.vc.errorsAt (clock s.reading) row ≠ s.vc.validationErrors row) :
    totalDebt clock v ((cells clock).store row ((cells clock).compute row s).1
      ((cells clock).compute row s).2) < totalDebt clock v s := by
  refine List.sum_lt_sum _ _ (fun other _ => ?_) ⟨row, hrow, debt_store_lt hclock hs hne⟩
  by_cases hother : other = row
  · subst hother
    exact Nat.le_of_lt (debt_store_lt hclock hs hne)
  · refine Nat.le_trans (Nat.le_of_eq ?_) (debt_compute_le hclock row other s)
    have hsame := (cells clock).stored_store_of_ne row other ((cells clock).compute row s).1
      ((cells clock).compute row s).2 hother
    exact congrArg (fun errors => (decide (errors ≠ v.errorsAt _ other)).toNat + _) hsame

/-- **The calls come to an end.**  On a clock that does not run backwards
`updateSaveButtonState` returns, whatever errors the rows have stored. -/
theorem exists_updateSaveButtonState (fuel : ℕ) {s : AddEventScreen} (hs : SameForm v s.vc)
    (hfuel : totalDebt clock v s < fuel) :
    ∃ s', updateSaveButtonState clock fuel s = some s' ∧ SameForm v s'.vc ∧
      totalDebt clock v s' ≤ totalDebt clock v s := by
  induction fuel generalizing s with
  | zero => exact absurd hfuel (Nat.not_lt_zero _)
  | succ fuel ih =>
      rw [updateSaveButtonState]
      split_ifs with hc
      · exact ⟨_, rfl, hs, Nat.le_refl _⟩
      · have htotal : ∃ errors t,
            validate clock (updateSaveButtonState clock fuel) s = some (errors, t) ∧
              SameForm v t.vc ∧ totalDebt clock v t ≤ totalDebt clock v s := by
          refine Cells.refreshAll_total (C := cells clock) (A := fun row => row ∈ v.rows)
            (I := fun s => SameForm v s.vc) (n := fuel) (fun row s _ hs => ?_)
            (fun row s hrow hs hne => ?_) (fun row s _ hs hlt => ?_)
            (fun row hrow => hs.rows ▸ hrow) hs (Nat.le_of_lt_succ hfuel)
          · exact ⟨hs, totalDebt_compute_le hclock row s⟩
          · exact ⟨hs, totalDebt_store_lt hclock hrow hs hne⟩
          · cases row with
            | item tag => exact ih hs hlt
            | lineup row => exact ⟨s, rfl, hs, Nat.le_refl _⟩
        obtain ⟨errors, t, ht, hform, hle⟩ := htotal
        refine ⟨_, Option.map_eq_some_iff.2 ⟨(errors, t), ht, rfl⟩, ?_, ?_⟩
        · split_ifs <;> exact hform
        · split_ifs <;> exact hle

end Total

/-- What a call does with a form that was changed. -/
theorem updateSaveButtonState_succ {clock : ℕ → Date} {fuel : ℕ} {s s' : AddEventScreen}
    (hc : s.vc.isClean = false) :
    updateSaveButtonState clock (fuel + 1) s = some s' ↔
      ∃ errors t, validate clock (updateSaveButtonState clock fuel) s = some (errors, t) ∧
        s' = (if errors.flatten.isEmpty then t.setEnabled true else t).returned clock := by
  rw [updateSaveButtonState, if_neg (by rw [hc]; exact Bool.false_ne_true), Option.map_eq_some_iff]
  constructor
  · rintro ⟨⟨errors, t⟩, ht, rfl⟩
    exact ⟨errors, t, ht, rfl⟩
  · rintro ⟨errors, t, ht, rfl⟩
    exact ⟨(errors, t), ht, rfl⟩

/-- **The calls end with the errors in order.**  On a clock that stands still
`updateSaveButtonState` returns, whatever errors the rows have stored.  When a visible
row was changed, every visible row is left with the errors its rules yield, and the
outermost validation finds these errors, in the order of the rows.  When none was, the
button is disabled and nothing is validated. -/
theorem updateSaveButtonState_settles (now : Date) (s : AddEventScreen) :
    ∃ s', (∀ fuel, 2 * s.vc.rows.length + 1 < fuel →
        updateSaveButtonState (fun _ => now) fuel s = some s') ∧ SameForm s.vc s'.vc ∧
      (s.vc.isClean = true → s'.vc = { s.vc with saveButtonIsEnabled := false }) ∧
      (s.vc.isClean = false →
        (∀ row ∈ s.vc.rows, s'.vc.validationErrors row = s.vc.errorsAt now row) ∧
        ∀ fuel, 2 * s.vc.rows.length < fuel → ∃ errors t,
          validate (fun _ => now) (updateSaveButtonState (fun _ => now) fuel) s = some (errors, t) ∧
            errors.flatten = s.vc.rows.flatMap (s.vc.errorsAt now)) := by
  have hclock : Monotone fun _ : ℕ => now := monotone_const
  obtain ⟨s', hs', hform, _⟩ := exists_updateSaveButtonState hclock (2 * s.vc.rows.length + 1)
    (.refl s.vc) (Nat.lt_succ_of_le (totalDebt_le (fun _ => now) s.vc s))
  have hfuel : ∀ fuel, 2 * s.vc.rows.length < fuel →
      updateSaveButtonState (fun _ => now) fuel s = some s' :=
    fun fuel hlt => updateSaveButtonState_mono hlt hs'
  refine ⟨s', fun fuel hlt => hfuel fuel (Nat.lt_of_succ_lt hlt), hform, fun hc => ?_, fun hc => ?_⟩
  · rw [updateSaveButtonState, if_pos hc] at hs'
    obtain rfl := Option.some.inj hs'
    rfl
  · have hvalidate : ∀ fuel, 2 * s.vc.rows.length < fuel → ∃ errors t,
        validate (fun _ => now) (updateSaveButtonState (fun _ => now) fuel) s = some (errors, t) ∧
          s' = (if errors.flatten.isEmpty then t.setEnabled true else t).returned fun _ => now :=
      fun fuel hlt => (updateSaveButtonState_succ hc).1 (hfuel (fuel + 1) (Nat.lt_succ_of_lt hlt))
    refine ⟨fun row hrow => ?_, fun fuel hlt => ?_⟩
    · obtain ⟨errors, t, ht, rfl⟩ := hvalidate _ (Nat.lt_succ_self _)
      obtain ⟨_, _, hrows⟩ := validate_spec ht
      obtain ⟨_, _, herrors⟩ := hrows row hrow
      split_ifs <;> exact herrors
    · obtain ⟨errors, t, ht, _⟩ := hvalidate fuel hlt
      obtain ⟨_, herrors, _⟩ := validate_spec ht
      refine ⟨errors, t, ht, flatten_eq_flatMap (herrors.imp fun row es hes => ?_)⟩
      obtain ⟨_, _, hes⟩ := hes
      exact hes

/-- **An untouched form is not validated.**  The call returns at once, and the name row is
left without the error its rules yield. -/
theorem untouched_not_validated :
    ∃ s', updateSaveButtonState (fun _ => 0) 99 (start ["Jos"]) = some s' ∧
      .item .name ∈ s'.vc.rows ∧ s'.vc.validationErrors (.item .name) = [] ∧
      s'.vc.errorsAt 0 (.item .name) = [⟨"Field required!"⟩] :=
  ⟨_, rfl, mem_rows _ _, rfl, by decide⟩

/-! ### Saving -/

/-- The casts succeed on a form with all six values. -/
theorem makeEvent_eq_some {vc : AddEventViewController} {e : Event} :
    makeEvent vc.values = some e ↔ ∃ startDate endDate title description location type,
      vc.dateStart = some startDate ∧ vc.dateEnd = some endDate ∧ vc.name = some title ∧
        vc.description = some description ∧ vc.location = some location ∧ vc.type = some type ∧
          e = .make startDate endDate title description location type := by
  unfold makeEvent values
  cases vc.dateStart <;> cases vc.dateEnd <;> cases vc.name <;> cases vc.description <;>
    cases vc.location <;> cases vc.type <;> simp [RowValue.asDate, RowValue.asString, eq_comm]

/-- **When saving a valid form does not trap.**  Where `form.validate()` returns no error,
all casts succeed and `prepare(for:sender:)` sets the event if and only if the
description and the location are filled in, which no rule asks for. -/
theorem prepare_of_valid_iff (clock : ℕ → Date) (fuel : ℕ) (s s' : AddEventScreen)
    (errors : List (List ValidationError))
    (h : validate clock (updateSaveButtonState clock fuel) s = some (errors, s'))
    (hvalid : errors.flatten = []) :
    (∃ event, makeEvent s'.vc.values = some event ∧ prepare .saveButton clock fuel s =
        some (some { s' with vc := { s'.vc with event := some event } })) ↔
      s.vc.description.isSome = true ∧ s.vc.location.isSome = true := by
  obtain ⟨hform, herrors, _⟩ := validate_spec h
  have hnil : ∀ tag, ∃ m, s.vc.errorsAt (clock m) (.item tag) = [] := fun tag =>
    exists_errorsAt_eq_nil herrors hvalid _ (s.vc.mem_rows tag)
  have hprepare : prepare .saveButton clock fuel s = some ((makeEvent s'.vc.values).map fun event =>
      { s' with vc := { s'.vc with event := some event } }) := by
    rw [prepare, h, Option.map_some, hvalid]
    rfl
  rw [hform.values] at hprepare ⊢
  constructor
  · rintro ⟨event, hevent, _⟩
    obtain ⟨_, _, _, _, _, _, _, _, _, hdescription, hlocation, _⟩ := makeEvent_eq_some.1 hevent
    exact ⟨by rw [hdescription]; rfl, by rw [hlocation]; rfl⟩
  · rintro ⟨hdescription, hlocation⟩
    obtain ⟨description, hdescription⟩ := Option.isSome_iff_exists.1 hdescription
    obtain ⟨location, hlocation⟩ := Option.isSome_iff_exists.1 hlocation
    obtain ⟨_, hname⟩ := hnil .name
    obtain ⟨_, htype⟩ := hnil .type
    obtain ⟨_, hstart⟩ := hnil .dateStart
    obtain ⟨_, hend⟩ := hnil .dateEnd
    obtain ⟨title, hname, _⟩ := errorsAt_name.1 hname
    obtain ⟨type, htype, _⟩ := errorsAt_type.1 htype
    obtain ⟨startDate, hstart, _⟩ := errorsAt_dateStart.1 hstart
    obtain ⟨endDate, hend, _⟩ := errorsAt_dateEnd.1 hend
    have hevent := makeEvent_eq_some.2
      ⟨startDate, endDate, title, description, location, type, hstart, hend, hname, hdescription,
        hlocation, htype, rfl⟩
    exact ⟨_, hevent, by rw [hprepare, hevent]; rfl⟩

/-- A match in the future, all filled in but for the description and the location. -/
def derbyForm (description location : Option String) : AddEventScreen :=
  { start ["Jos"] with vc := { loaded ["Jos"] with
    name := some "Derby"
    description := description
    location := location
    type := some "Game"
    dateStart := some 100
    dateEnd := some 200 } }

/-- The derby with a description and a location. -/
theorem prepare_of_valid_iff_derby : ∃ errors s' event,
    validate (fun _ => 0) (updateSaveButtonState (fun _ => 0) 1) (derbyForm (some "Cup") (some "Home")) =
      some (errors, s') ∧
    prepare .saveButton (fun _ => 0) 1 (derbyForm (some "Cup") (some "Home")) =
      some (some { s' with vc := { s'.vc with event := some event } }) := by
  obtain ⟨event, _, hprepare⟩ :=
    (prepare_of_valid_iff (fun _ => 0) 1 (derbyForm (some "Cup") (some "Home")) _ _ rfl rfl).2
      ⟨rfl, rfl⟩
  exact ⟨_, _, event, rfl, hprepare⟩

/-- **A valid form that ends the app.**  The derby without a description has no errors, and
saving it traps. -/
theorem prepare_traps_derby : ∃ errors s',
    validate (fun _ => 0) (updateSaveButtonState (fun _ => 0) 1) (derbyForm none (some "Home")) =
      some (errors, s') ∧ errors.flatten = [] ∧ makeEvent s'.vc.values = none ∧
    prepare .saveButton (fun _ => 0) 1 (derbyForm none (some "Home")) = some none :=
  ⟨_, _, rfl, rfl, rfl, rfl⟩

end AddEventScreen

end Teamstuff
