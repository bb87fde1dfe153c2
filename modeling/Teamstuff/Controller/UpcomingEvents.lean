/-
# The list of upcoming events

The callback of `fetchEvents` decodes the children of the snapshot, keeps the events that
have not started and sorts them.  The filter reads the clock anew for every event.  On a
clock that does not run backwards what it keeps lies between what the last reading and
what the first one would keep (`sublist_notStarted`, `of_mem_notStarted`).
-/

import Teamstuff.Controller.OneBadRecord
import Mathlib.Data.Nat.Cast.Order.Ring

namespace Teamstuff

namespace EventsViewController

/-- The `filter` of `fetchEvents`, from the `i`th reading of the clock on. -/
def notStarted (now : ℕ → Date) (i : ℕ) (es : List Event) : List Event :=
  ((es.zipIdx i).filter fun e => now e.2 ≤ e.1.startDate).map Prod.fst

theorem upcoming_eq (now : ℕ → Date) (es : List Event) : upcoming now es =
    (notStarted now 0 es).insertionSort fun a b => a.startDate ≤ b.startDate := rfl

theorem notStarted_cons (now : ℕ → Date) (i : ℕ) (e : Event) (es : List Event) :
    notStarted now i (e :: es) =
      if now i ≤ e.startDate then e :: notStarted now (i + 1) es
      else notStarted now (i + 1) es := by
  unfold notStarted
  rw [List.zipIdx_cons, List.filter_cons]
  by_cases hnow : now i ≤ e.startDate <;> simp [hnow]

/-- The filter loses and doubles nothing it keeps. -/
theorem notStarted_sublist (now : ℕ → Date) (i : ℕ) (es : List Event) :
    (notStarted now i es).Sublist es := by
  have hsub := (List.filter_sublist (p := fun e : Event × ℕ => decide (now e.2 ≤ e.1.startDate))
    (l := es.zipIdx i)).map Prod.fst
  rwa [List.zipIdx_map_fst] at hsub

/-- What starts after all readings is kept. -/
theorem sublist_notStarted {now : ℕ → Date} {last : Date} {i : ℕ} {es : List Event}
    (hlast : ∀ j, j < i + es.length → now j ≤ last) :
    (es.filter fun e => last ≤ e.startDate).Sublist (notStarted now i es) := by
  induction es generalizing i with
  | nil => exact List.nil_sublist _
  | cons e es ih =>
      have hnow : now i ≤ last := hlast i (by rw [List.length_cons]; omega)
      have ih' := @ih (i + 1) fun j hj => hlast j (by rw [List.length_cons]; omega)
      rw [notStarted_cons, List.filter_cons]
      by_cases he : last ≤ e.startDate
      · rw [if_pos (decide_eq_true he), if_pos (le_trans hnow he)]
        exact ih'.cons_cons e
      · rw [if_neg (by simpa using he)]
        split_ifs
        · exact ih'.cons e
        · exact ih'

/-- What is kept had not started at the first reading. -/
theorem of_mem_notStarted {now : ℕ → Date} (hnow : Monotone now) {i : ℕ} {es : List Event}
    {e : Event} (he : e ∈ notStarted now i es) : now i ≤ e.startDate := by
  obtain ⟨⟨e', j⟩, hmem, rfl⟩ := List.mem_map.1 he
  obtain ⟨hmem, hkept⟩ := List.mem_filter.1 hmem
  have hij : i ≤ j := (List.le_snd_of_mem_zipIdx hmem)
  exact le_trans (hnow hij) (of_decide_eq_true hkept)

/-- The loop over the children decodes each in its place. -/
theorem forall₂_of_decodeChildren {ε : Type} {decode : Value → Except ε Event}
    {snapshot : Node} {es : List Event} (h : decodeChildren decode snapshot = .ok es) :
    List.Forall₂ (fun child e => decode child.2.val = .ok e) snapshot.childList es := by
  have hmap : List.Forall₂ (fun x y => x = y)
      (snapshot.childList.map fun child => decode child.2.val) (es.map .ok) := by
    rw [← Except.mapM_eq_ok.1 h]
    exact List.forall₂_same.2 fun _ _ => rfl
  exact List.forall₂_map_right_iff.1 (List.forall₂_map_left_iff.1 hmap)

/-- **The list after a snapshot that decodes.**  On a clock that does not run backwards
the callback leaves a list of the decoded children, none of them lost or doubled, in the
order of their start.  It has all that start at or after the last reading of the clock and
none that start before the first, and does not depend on the list shown before. -/
theorem fetchEvents_complete {ε : Type} (decode : Value → Except ε Event) (now : ℕ → Date)
    (hnow : Monotone now) (snapshot : Node) (hdecodes : Decodes decode snapshot)
    (locale : Locale) (uid : String) (pool : ℕ ↪ ℕ) :
    ∃ es kept sorted : List Event,
      List.Forall₂ (fun child e => decode child.2.val = .ok e) snapshot.childList es ∧
      kept.Sublist es ∧ (es.filter fun e => now (es.length - 1) ≤ e.startDate).Sublist kept ∧
      (∀ e ∈ kept, now 0 ≤ e.startDate) ∧
      sorted.Perm kept ∧ sorted.Pairwise (fun a b => a.startDate ≤ b.startDate) ∧
      ∀ vc : EventsViewController, ∃ vc',
        vc.fetchEvents decode now snapshot locale uid pool = some vc' ∧ vc'.events = sorted := by
  obtain ⟨es, hes⟩ := decodes_iff.1 hdecodes
  have hlast : ∀ j, j < 0 + es.length → now j ≤ now (es.length - 1) := fun j hj =>
    hnow (by omega)
  refine ⟨es, notStarted now 0 es, upcoming now es, forall₂_of_decodeChildren hes,
    notStarted_sublist now 0 es, sublist_notStarted hlast, fun e he => of_mem_notStarted hnow he,
    ?_, ?_, fun vc => ?_⟩
  · rw [upcoming_eq]
    exact List.perm_insertionSort _ _
  · rw [upcoming_eq]
    have : Std.Total fun a b : Event => a.startDate ≤ b.startDate :=
      ⟨fun a b => le_total a.startDate b.startDate⟩
    have : IsTrans Event fun a b => a.startDate ≤ b.startDate := ⟨fun _ _ _ => le_trans⟩
    exact List.pairwise_insertionSort _ _
  · obtain ⟨vc', hvc', hevents, _⟩ := fetchEvents_spec decode now snapshot locale uid pool vc
    refine ⟨vc', hvc', ?_⟩
    rw [hevents, listAfter, hes]

/-- A clock that moves on at every reading. -/
def ticking (i : ℕ) : Date := ((100 + i : ℕ) : Date)

/-- Two matches at the same time, on a clock that reaches their start after the first of
them was looked at. -/
theorem fetchEvents_complete_derby : Decodes Event.decode (snapshotWith Event.derbyNode) ∧
    ∃ es kept sorted : List Event,
      List.Forall₂ (fun child e => Event.decode child.2.val = .ok e)
        (snapshotWith Event.derbyNode).childList es ∧
      kept.Sublist es ∧
      (es.filter fun e => ticking (es.length - 1) ≤ e.startDate).Sublist kept ∧
      (∀ e ∈ kept, ticking 0 ≤ e.startDate) ∧
      sorted.Perm kept ∧ sorted.Pairwise (fun a b => a.startDate ≤ b.startDate) ∧
      ∀ vc : EventsViewController, ∃ vc', vc.fetchEvents Event.decode ticking
        (snapshotWith Event.derbyNode) someLocale "u" (.refl ℕ) = some vc' ∧ vc'.events = sorted := by
  have hall : (decodeChildren Event.decode (snapshotWith Event.derbyNode)).toOption.isSome := by
    decide +kernel
  have hdecodes := decodes_iff.2 (Except.exists_ok_of_isSome hall)
  have hmono : Monotone ticking := fun i j hij => Nat.cast_le.2 (Nat.add_le_add_left hij 100)
  exact ⟨hdecodes, fetchEvents_complete Event.decode ticking hmono _ hdecodes someLocale "u"
    (.refl ℕ)⟩

end EventsViewController

end Teamstuff
