/-
# Cells whose observers start over

A cell keeps the last result of a computation.  Refreshing it computes the result
anew and stores it; when that changes what is stored, an observer of the cell is
notified before anything else is done, and the observer may refresh any cells,
this one included.  What is handed on as the result is what is stored by the time
the observer has returned.

`refreshAll_spec` is the invariant rule for a pass over a list of cells, with what
its results have in common whoever computed them.  `refreshAll_congr` is the rule for
a pass with other cells, which need to agree with these only where the pass has been.
`refreshAll_total` is the rule for termination: the observers may start over as often as
they like when a measure drops with every result that is stored.
-/

import Mathlib.Data.List.Forall2
import Mathlib.Order.Basic

/-- Cells `ι` with results in `ε` in a state `σ`.  Computing a result may change the
state, but no cell. -/
structure Cells (ι ε σ : Type*) where
  compute : ι → σ → ε × σ
  stored : ι → σ → ε
  store : ι → ε → σ → σ
  stored_compute : ∀ i j s, stored j (compute i s).2 = stored j s
  stored_store : ∀ i e s, stored i (store i e s) = e
  stored_store_of_ne : ∀ i j e s, j ≠ i → stored j (store i e s) = stored j s

namespace Cells

variable {ι ε σ : Type*} [DecidableEq ε] (C : Cells ι ε σ) (notify : ι → σ → Option σ)

/-- Refreshes one cell; `none` when the observer does not return. -/
def refresh (i : ι) (s : σ) : Option (ε × σ) :=
  let r := C.compute i s
  if r.1 = C.stored i r.2 then some r
  else (notify i (C.store i r.1 r.2)).map fun s' => (C.stored i s', s')

/-- Refreshes the cells of a list in order. -/
def refreshAll : List ι → σ → Option (List ε × σ)
  | [], s => some ([], s)
  | i :: is, s => (C.refresh notify i s).bind fun r =>
      (refreshAll is r.2).map fun rs => (r.1 :: rs.1, rs.2)

variable {C notify}

theorem refreshAll_cons_eq_some {i : ι} {is : List ι} {s s' : σ} {es : List ε} :
    C.refreshAll notify (i :: is) s = some (es, s') ↔ ∃ e s₁ es', C.refresh notify i s = some (e, s₁) ∧
      C.refreshAll notify is s₁ = some (es', s') ∧ es = e :: es' := by
  rw [refreshAll, Option.bind_eq_some_iff]
  constructor
  · rintro ⟨⟨e, s₁⟩, hr, h⟩
    obtain ⟨⟨es', s₂⟩, hrs, h⟩ := Option.map_eq_some_iff.1 h
    obtain ⟨rfl, rfl⟩ := Prod.mk.inj h
    exact ⟨e, s₁, es', hr, hrs, rfl⟩
  · rintro ⟨e, s₁, es', hr, hrs, rfl⟩
    exact ⟨(e, s₁), hr, Option.map_eq_some_iff.2 ⟨(es', s'), hrs, rfl⟩⟩

/-! ### What a pass leaves -/

/-- From `s` to `s'` the invariant is kept, and so is every stored result with `Y`. -/
def Keeps (C : Cells ι ε σ) (I : σ → Prop) (Y : ι → ε → Prop) (s s' : σ) : Prop :=
  I s' ∧ ∀ i, Y i (C.stored i s) → Y i (C.stored i s')

omit [DecidableEq ε] in
theorem Keeps.trans {I : σ → Prop} {Y : ι → ε → Prop} {s s₁ s₂ : σ} (h₁ : C.Keeps I Y s s₁)
    (h₂ : C.Keeps I Y s₁ s₂) : C.Keeps I Y s s₂ :=
  ⟨h₂.1, fun i hi => h₂.2 i (h₁.2 i hi)⟩

section Spec

variable {I : σ → Prop} {Y : ι → ε → Prop}
  (hcompute : ∀ i s, I s → I (C.compute i s).2 ∧ Y i (C.compute i s).1)
  (hstore : ∀ i e s, I s → I (C.store i e s))
  (hnotify : ∀ i s s', I s → notify i s = some s' → C.Keeps I Y s s')

include hcompute hstore hnotify

/-- A refreshed cell holds a result with `Y`, whether it was stored here or by the
observer. -/
theorem refresh_spec {i : ι} {s s' : σ} {e : ε} (hs : I s)
    (h : C.refresh notify i s = some (e, s')) :
    C.Keeps I Y s s' ∧ Y i e ∧ Y i (C.stored i s') := by
  obtain ⟨hI, hY⟩ := hcompute i s hs
  have hsame : ∀ j, C.stored j (C.compute i s).2 = C.stored j s := fun j => C.stored_compute i j s
  unfold refresh at h
  dsimp only at h
  split_ifs at h with heq
  · obtain ⟨rfl, rfl⟩ := Prod.mk.inj (Option.some.inj h)
    exact ⟨⟨hI, fun j hj => (hsame j).symm ▸ hj⟩, hY, heq ▸ hY⟩
  · obtain ⟨s₂, hs₂, h⟩ := Option.map_eq_some_iff.1 h
    obtain ⟨rfl, rfl⟩ := Prod.mk.inj h
    obtain ⟨hI₂, hkeep⟩ := hnotify i _ _ (hstore i _ _ hI) hs₂
    have hi : Y i (C.stored i s₂) := hkeep i ((C.stored_store i _ _).symm ▸ hY)
    refine ⟨⟨hI₂, fun j hj => ?_⟩, hi, hi⟩
    by_cases hij : j = i
    · exact hij ▸ hi
    · refine hkeep j ?_
      rw [C.stored_store_of_ne i j _ _ hij, hsame j]
      exact hj

/-- **The invariant rule for a pass.**  It keeps the invariant, all its results have
`Y`, and every cell it went over is left with a result that has `Y`. -/
theorem refreshAll_spec {is : List ι} {s s' : σ} {es : List ε} (hs : I s)
    (h : C.refreshAll notify is s = some (es, s')) :
    C.Keeps I Y s s' ∧ List.Forall₂ Y is es ∧ ∀ i ∈ is, Y i (C.stored i s') := by
  induction is generalizing s es with
  | nil =>
      obtain ⟨rfl, rfl⟩ := Prod.mk.inj (Option.some.inj h)
      exact ⟨⟨hs, fun _ hi => hi⟩, .nil, fun i hi => absurd hi List.not_mem_nil⟩
  | cons i is ih =>
      obtain ⟨e, s₁, es', hr, hrs, rfl⟩ := refreshAll_cons_eq_some.1 h
      obtain ⟨hkeeps, he, hi⟩ := refresh_spec hcompute hstore hnotify hs hr
      obtain ⟨hkeeps', hes, his⟩ := ih hkeeps.1 hrs
      refine ⟨hkeeps.trans hkeeps', .cons he hes, fun j hj => ?_⟩
      rcases List.mem_cons.1 hj with rfl | hj
      · exact hkeeps'.2 j hi
      · exact his j hj

end Spec

/-! ### Other cells and observers -/

section Congr

variable {C' : Cells ι ε σ} {notify' : ι → σ → Option σ} {A : σ → Prop}
  (hstored : C'.stored = C.stored) (hstore : C'.store = C.store)
  (hbefore : ∀ i e s, A (C.store i e s) → A s)
  (hcompute : ∀ i s, A (C.compute i s).2 → A s ∧ C'.compute i s = C.compute i s)
  (hnotify : ∀ i s s', notify i s = some s' → A s' → A s ∧ notify' i s = some s')

include hstored hstore hbefore hcompute hnotify

theorem refresh_congr {i : ι} {s s' : σ} {e : ε} (h : C.refresh notify i s = some (e, s'))
    (hs' : A s') : A s ∧ C'.refresh notify' i s = some (e, s') := by
  unfold refresh at h ⊢
  dsimp only at h ⊢
  split_ifs at h with heq
  · have hlast : (C.compute i s).2 = s' := congrArg Prod.snd (Option.some.inj h)
    obtain ⟨hs, hsame⟩ := hcompute i s (hlast ▸ hs')
    rw [hsame, hstored, if_pos heq]
    exact ⟨hs, h⟩
  · obtain ⟨s₁, hs₁, heqs⟩ := Option.map_eq_some_iff.1 h
    obtain ⟨rfl, rfl⟩ := Prod.mk.inj heqs
    obtain ⟨hstoredA, hs₁'⟩ := hnotify i _ _ hs₁ hs'
    obtain ⟨hs, hsame⟩ := hcompute i s (hbefore i _ _ hstoredA)
    rw [hsame, hstored, if_neg heq, hstore, hs₁']
    exact ⟨hs, rfl⟩

/-- **A pass that ends in `A`** is the same with other cells and observers, if these agree in `A`
and nothing leads from outside into it. -/
theorem refreshAll_congr {is : List ι} {s s' : σ} {es : List ε}
    (h : C.refreshAll notify is s = some (es, s')) (hs' : A s') :
    A s ∧ C'.refreshAll notify' is s = some (es, s') := by
  induction is generalizing s es with
  | nil =>
      obtain ⟨rfl, rfl⟩ := Prod.mk.inj (Option.some.inj h)
      exact ⟨hs', rfl⟩
  | cons i is ih =>
      obtain ⟨e, s₁, es', hr, hrs, rfl⟩ := refreshAll_cons_eq_some.1 h
      obtain ⟨hs₁, hrs'⟩ := ih hrs
      obtain ⟨hs, hr'⟩ := refresh_congr hstored hstore hbefore hcompute hnotify hr hs₁
      exact ⟨hs, refreshAll_cons_eq_some.2 ⟨e, s₁, es', hr', hrs', rfl⟩⟩

end Congr

/-- An observer that returns more often changes nothing where the other one returned. -/
theorem refreshAll_mono {notify' : ι → σ → Option σ}
    (hle : ∀ i s s', notify i s = some s' → notify' i s = some s') {is : List ι} {s s' : σ}
    {es : List ε} (h : C.refreshAll notify is s = some (es, s')) :
    C.refreshAll notify' is s = some (es, s') :=
  (refreshAll_congr (A := fun _ => True) rfl rfl (fun _ _ _ _ => trivial)
    (fun _ _ _ => ⟨trivial, rfl⟩) (fun i s s' h _ => ⟨trivial, hle i s s' h⟩) h trivial).2

/-! ### Termination -/

section Total

variable {A : ι → Prop} {I : σ → Prop} {μ : σ → ℕ} {n : ℕ}
  (hcompute : ∀ i s, A i → I s → I (C.compute i s).2 ∧ μ (C.compute i s).2 ≤ μ s)
  (hstore : ∀ i s, A i → I s → (C.compute i s).1 ≠ C.stored i (C.compute i s).2 →
    I (C.store i (C.compute i s).1 (C.compute i s).2) ∧
      μ (C.store i (C.compute i s).1 (C.compute i s).2) < μ s)
  (hnotify : ∀ i s, A i → I s → μ s < n → ∃ s', notify i s = some s' ∧ I s' ∧ μ s' ≤ μ s)

include hcompute hstore hnotify

theorem refresh_total {i : ι} (hi : A i) {s : σ} (hs : I s) (hn : μ s ≤ n) :
    ∃ e s', C.refresh notify i s = some (e, s') ∧ I s' ∧ μ s' ≤ μ s := by
  obtain ⟨hI, hle⟩ := hcompute i s hi hs
  unfold refresh
  dsimp only
  split_ifs with heq
  · exact ⟨_, _, rfl, hI, hle⟩
  · -- the result is stored, so the observer has a smaller measure to go on with
    obtain ⟨hI', hlt⟩ := hstore i s hi hs heq
    obtain ⟨s', hs', hI', hle'⟩ := hnotify i _ hi hI' (Nat.lt_of_lt_of_le hlt hn)
    rw [hs']
    exact ⟨_, _, rfl, hI', Nat.le_of_lt (Nat.lt_of_le_of_lt hle' hlt)⟩

/-- **The termination rule for a pass.**  Where every result that is stored lowers the
measure, and the observers return from every state of a measure below `n`, a pass from a
state of measure `n` ends; only the cells with `A` are looked at. -/
theorem refreshAll_total {is : List ι} (his : ∀ i ∈ is, A i) {s : σ} (hs : I s) (hn : μ s ≤ n) :
    ∃ es s', C.refreshAll notify is s = some (es, s') ∧ I s' ∧ μ s' ≤ μ s := by
  induction is generalizing s with
  | nil => exact ⟨[], s, rfl, hs, Nat.le_refl _⟩
  | cons i is ih =>
      obtain ⟨e, s₁, hr, hI, hle⟩ :=
        refresh_total hcompute hstore hnotify (his i List.mem_cons_self) hs hn
      obtain ⟨es, s', hrs, hI', hle'⟩ :=
        ih (fun j hj => his j (List.mem_cons_of_mem i hj)) hI (Nat.le_trans hle hn)
      exact ⟨e :: es, s', refreshAll_cons_eq_some.2 ⟨e, s₁, es, hr, hrs, rfl⟩, hI',
        Nat.le_trans hle' hle⟩

end Total

end Cells
