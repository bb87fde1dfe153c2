/-
# The status label of a reused row

The table of the events screen hands out cells it has used before.
`cellForRowAt` sets every label of the cell it is given but one: for an event
the player has not answered it leaves the status label alone, and nothing else
resets it (`EventTableViewCell` has no `prepareForReuse`).  What such a row
shows is whatever its cell showed last.

`unmarked_iff` follows a cell through a history of the table: its label is the
storyboard's as long as it was neither configured for an answered event nor
swiped.
-/

import Teamstuff.Controller.EventsViewController
import Teamstuff.Library.Run

namespace Teamstuff

/-- What happens to the table: the list is replaced and all rows go off the
screen, a cell is configured for a row, or a row is swiped. -/
inductive TableAction
  | reload (events : List Event)
  | cellForRow (row dequeued : ℕ)
  | swipe (available : Bool) (row : ℕ)

namespace EventsViewController

/-- One step of the table of player `uid`; `none` where the app stops. -/
def tableStep (locale : Locale) (uid : String) (vc : EventsViewController) :
    TableAction → Option EventsViewController
  | .reload events => some { vc with events := events, displayed := fun _ => none }
  | .cellForRow row dequeued => vc.cellForRowAt locale uid row dequeued
  | .swipe available row => (vc.swipe available uid row).toOption.map Prod.fst

/-- The storyboard's mark for an event that is not answered. -/
def unanswered : UILabel := EventTableViewCell.prototype.statusLabel

/-- The label an event should have: what the player answered, or the mark. -/
def dueLabel (uid : String) (e : Event) : UILabel :=
  ((e.answer uid).map answerLabel).getD unanswered

/-- The step configures the cell for an answered event or swipes its row. -/
def Marks (uid : String) (cell : ℕ) (vc : EventsViewController) : TableAction → Prop
  | .reload _ => False
  | .cellForRow row dequeued =>
      dequeued = cell ∧ ∃ e, vc.events[row]? = some e ∧ (e.answer uid).isSome
  | .swipe _ row => vc.displayed row = some cell

theorem answerLabel_ne_unanswered (available : Bool) : answerLabel available ≠ unanswered := by
  cases available <;> decide

/-- **What a step does to the label of a cell.** -/
theorem unmarked_step {locale : Locale} {uid : String} {vc vc' : EventsViewController}
    {a : TableAction} (h : vc.tableStep locale uid a = some vc') (cell : ℕ) :
    (vc'.cells cell).statusLabel = unanswered ↔
      (vc.cells cell).statusLabel = unanswered ∧ ¬ Marks uid cell vc a := by
  cases a with
  | reload events =>
      obtain rfl := Option.some.inj h
      exact ⟨fun hl => ⟨hl, id⟩, fun hl => hl.1⟩
  | cellForRow row dequeued =>
      obtain ⟨e, he, rfl⟩ := cellForRowAt_eq_some.1 h
      by_cases hc : dequeued = cell
      · subst hc
        have hmarks : Marks uid dequeued vc (.cellForRow row dequeued) ↔ (e.answer uid).isSome := by
          simp only [Marks, he, Option.some.injEq, true_and, exists_eq_left']
        simp only [Function.update_self, configure_statusLabel, hmarks]
        cases e.answer uid with
        | none => simp
        | some available => simp [answerLabel_ne_unanswered]
      · have hmarks : ¬ Marks uid cell vc (.cellForRow row dequeued) := fun hm => hc hm.1
        simp only [Function.update_of_ne (Ne.symm hc), hmarks, not_false_eq_true, and_true]
  | swipe available row =>
      obtain ⟨r, hr, rfl⟩ := Option.map_eq_some_iff.1 h
      obtain ⟨vc', calls⟩ := r
      have hswipe : vc.swipe available uid row = .ok (vc', calls) := by
        cases hs : vc.swipe available uid row with
        | error _ => rw [hs] at hr; exact nomatch hr
        | ok r => rw [hs] at hr; exact congrArg _ (Option.some.inj hr)
      obtain ⟨shown, e, hshown, _, _, rfl⟩ := swipe_eq_ok.1 hswipe
      by_cases hc : shown = cell
      · subst hc
        have hmarks : Marks uid shown vc (.swipe available row) := hshown
        simp [hmarks, answerLabel_ne_unanswered]
      · have hmarks : ¬ Marks uid cell vc (.swipe available row) := fun hm =>
          hc (Option.some.inj (hshown.symm.trans hm))
        simp only [Function.update_of_ne (Ne.symm hc), hmarks, not_false_eq_true, and_true]

/-- **What a history does to the label of a cell.**  It is the storyboard's
exactly when it was at the beginning and no step marked the cell. -/
theorem unmarked_iff {locale : Locale} {uid : String} {vc vc' : EventsViewController}
    {as : List TableAction} (h : Run.exec (tableStep locale uid) vc as = some vc') (cell : ℕ) :
    (vc'.cells cell).statusLabel = unanswered ↔ (vc.cells cell).statusLabel = unanswered ∧
      Run.Guarded (tableStep locale uid) (fun vc a => ¬ Marks uid cell vc a) vc as := by
  induction as generalizing vc with
  | nil =>
      obtain rfl := Option.some.inj h
      exact ⟨fun hl => ⟨hl, trivial⟩, fun hl => hl.1⟩
  | cons a as ih =>
      obtain ⟨vc₁, h₁, h₂⟩ := Run.exec_cons_eq_some.1 h
      rw [ih h₂, unmarked_step h₁, and_assoc]
      refine and_congr_right fun _ => ⟨fun ⟨hm, hg⟩ => ⟨hm, fun vc₂ hvc₂ => ?_⟩,
        fun ⟨hm, hg⟩ => ⟨hm, hg vc₁ h₁⟩⟩
      obtain rfl := Option.some.inj (h₁.symm.trans hvc₂)
      exact hg

/-- **When a reused row shows the right status.**  After every history of the
table, the cell that `cellForRowAt` returns shows the player's answer, or the
mark where there is none, exactly when the event is answered or no step of the
history has marked the cell. -/
theorem statusLabel_right_iff (locale : Locale) (uid : String) (ref : FPath)
    (as : List TableAction) (vc vc' : EventsViewController) (row dequeued : ℕ) (e : Event)
    (h : Run.exec (tableStep locale uid) (opened ref) as = some vc)
    (he : vc.events[row]? = some e)
    (h' : vc.cellForRowAt locale uid row dequeued = some vc') :
    (vc'.cells dequeued).statusLabel = dueLabel uid e ↔ (e.answer uid).isSome ∨
      Run.Guarded (tableStep locale uid) (fun vc a => ¬ Marks uid dequeued vc a) (opened ref) as := by
  obtain ⟨e', he', rfl⟩ := cellForRowAt_eq_some.1 h'
  obtain rfl := Option.some.inj (he.symm.trans he')
  have hhistory := unmarked_iff h dequeued
  have hstart : ((opened ref).cells dequeued).statusLabel = unanswered := rfl
  simp only [Function.update_self, configure_statusLabel, dueLabel]
  cases hanswer : e.answer uid with
  | some available => simp
  | none =>
      simp only [Option.map_none, Option.getD_none, Option.isSome_none, Bool.false_eq_true,
        false_or]
      rw [hhistory]
      exact and_iff_right hstart

/-- A cell in its first use. -/
theorem statusLabel_right_fresh : ∃ vc vc',
    Run.exec (tableStep someLocale "u") (opened []) [.reload [Event.derby]] = some vc ∧
    vc.cellForRowAt someLocale "u" 0 7 = some vc' ∧
    (vc'.cells 7).statusLabel = dueLabel "u" Event.derby :=
  ⟨_, _, rfl, rfl, (statusLabel_right_iff someLocale "u" [] [.reload [Event.derby]] _ _ 0 7
    Event.derby rfl rfl rfl).2 (Or.inr ⟨id, fun _ _ => trivial⟩)⟩

/-- **A wrong status.**  A cell that showed an answered event shows "V" for the
next event too, which nobody has answered. -/
theorem statusLabel_stale : ∃ vc vc',
    Run.exec (tableStep someLocale "u") (opened [])
      [.reload [Event.derby.answering "u" true], .cellForRow 0 7, .reload [Event.derby]] = some vc ∧
    vc.events[0]? = some Event.derby ∧ Event.derby.answer "u" = none ∧
    vc.cellForRowAt someLocale "u" 0 7 = some vc' ∧
    (vc'.cells 7).statusLabel = ⟨"V", some .green⟩ ∧
    (vc'.cells 7).statusLabel ≠ dueLabel "u" Event.derby := by
  have hrun : (Run.exec (tableStep someLocale "u") (opened [])
      [.reload [Event.derby.answering "u" true], .cellForRow 0 7, .reload [Event.derby]]).map
        (fun vc => (vc.events[0]?, (vc.cellForRowAt someLocale "u" 0 7).map fun vc' =>
          (vc'.cells 7).statusLabel)) = some (some Event.derby, some ⟨"V", some .green⟩) := by
    decide +kernel
  obtain ⟨vc, hvc, heq⟩ := Option.map_eq_some_iff.1 hrun
  obtain ⟨hevent, hcell⟩ := Prod.mk.inj heq
  obtain ⟨vc', hvc', hlabel⟩ := Option.map_eq_some_iff.1 hcell
  refine ⟨vc, vc', hvc, hevent, rfl, hvc', hlabel, ?_⟩
  rw [hlabel]
  decide

end EventsViewController
end Teamstuff
