/-
# Runs of a partial step function

A program that reacts to one event at a time is a partial function
`step : σ → α → Option σ` from a state and an action to the next state; `none`
means that the action cannot happen there.  `exec` follows a list of actions,
`Guarded G` says that every action of the list is taken in a state where `G`
allows it, and `Always P` that `P` holds in every state the list passes
through.

`exec_invariant` is the induction every safety theorem about runs rests on, and
`always_of_guarded` is the same induction read as a property of the whole run;
`exists_exec_of_guarded` adds that no allowed action gets stuck.
`always_iff_guarded` is its converse form: where each single step from a state
that keeps the invariant is safe exactly when it is allowed, a run is safe
exactly when all its steps are allowed.
-/

import Mathlib.Data.Option.Basic
import Mathlib.Order.Defs.Unbundled

namespace Run

variable {σ α : Type*} (step : σ → α → Option σ)

/-- The state after the actions of the list, `none` when one of them cannot
happen. -/
def exec (s : σ) : List α → Option σ
  | [] => some s
  | a :: as => (step s a).bind fun s' => exec s' as

/-- Every action of the run is taken in a state where `G` allows it. -/
def Guarded (G : σ → α → Prop) (s : σ) : List α → Prop
  | [] => True
  | a :: as => G s a ∧ ∀ s', step s a = some s' → Guarded G s' as

/-- `P` holds in every state of the run, the first and the last included. -/
def Always (P : σ → Prop) (s : σ) : List α → Prop
  | [] => P s
  | a :: as => P s ∧ ∀ s', step s a = some s' → Always P s' as

/-- A run that is over. -/
@[simp] theorem exec_nil (s : σ) : exec step s [] = some s := rfl

/-- A run goes on from the first step. -/
theorem exec_cons (s : σ) (a : α) (as : List α) :
    exec step s (a :: as) = (step s a).bind fun s' => exec step s' as := rfl

variable {step}

/-- A run that goes through. -/
theorem exec_cons_eq_some {s t : σ} {a : α} {as : List α} :
    exec step s (a :: as) = some t ↔ ∃ s', step s a = some s' ∧ exec step s' as = some t := by
  rw [exec_cons, Option.bind_eq_some_iff]

/-- **The invariant rule.**  What holds at the start and is kept by every
allowed step holds at the end of every guarded run. -/
theorem exec_invariant {I : σ → Prop} {G : σ → α → Prop}
    (hstep : ∀ s a s', I s → G s a → step s a = some s' → I s')
    {s t : σ} {as : List α} (hI : I s) (hG : Guarded step G s as)
    (h : exec step s as = some t) : I t := by
  induction as generalizing s with
  | nil => exact Option.some.inj h ▸ hI
  | cons a as ih =>
      obtain ⟨s', hs', ht⟩ := exec_cons_eq_some.1 h
      exact ih (hstep s a s' hI hG.1 hs') (hG.2 s' hs') ht

/-- A first step that is allowed, and the others from there. -/
theorem guarded_cons {G : σ → α → Prop} {s s' : σ} {a : α} {as : List α} (hG : G s a)
    (hs : step s a = some s') (h : Guarded step G s' as) : Guarded step G s (a :: as) :=
  ⟨hG, fun _ hs'' => Option.some.inj (hs.symm.trans hs'') ▸ h⟩

instance decidableGuarded {G : σ → α → Prop} [∀ s a, Decidable (G s a)] :
    ∀ (s : σ) (as : List α), Decidable (Guarded step G s as)
  | _, [] => isTrue trivial
  | s, a :: as =>
      match hs : step s a with
      | some s' =>
          let _ : Decidable (Guarded step G s' as) := decidableGuarded s' as
          decidable_of_iff (G s a ∧ Guarded step G s' as)
            ⟨fun h => guarded_cons h.1 hs h.2, fun h => ⟨h.1, h.2 s' hs⟩⟩
      | none =>
          decidable_of_iff (G s a)
            ⟨fun h => ⟨h, fun _ hs' => nomatch hs.symm.trans hs'⟩, fun h => h.1⟩

/-- What is always allowed. -/
theorem guarded_true (s : σ) (as : List α) : Guarded step (fun _ _ => True) s as := by
  induction as generalizing s with
  | nil => trivial
  | cons a as ih => exact ⟨trivial, fun s' _ => ih s'⟩

/-- The invariant rule for a program whose steps all keep the invariant. -/
theorem exec_invariant' {I : σ → Prop} (hstep : ∀ s a s', I s → step s a = some s' → I s')
    {s t : σ} {as : List α} (hI : I s) (h : exec step s as = some t) : I t :=
  exec_invariant (fun s a s' hs _ => hstep s a s' hs) hI (guarded_true s as) h

/-- **The progress rule.**  Where every allowed step can be taken and keeps the invariant,
a guarded run goes to its end. -/
theorem exists_exec_of_guarded {I : σ → Prop} {G : σ → α → Prop}
    (hstep : ∀ s a, I s → G s a → ∃ s', step s a = some s' ∧ I s')
    {s : σ} {as : List α} (hI : I s) (hG : Guarded step G s as) :
    ∃ t, exec step s as = some t ∧ I t := by
  induction as generalizing s with
  | nil => exact ⟨s, rfl, hI⟩
  | cons a as ih =>
      obtain ⟨s', hs', hI'⟩ := hstep s a hI hG.1
      obtain ⟨t, ht, hIt⟩ := ih hI' (hG.2 s' hs')
      exact ⟨t, exec_cons_eq_some.2 ⟨s', hs', ht⟩, hIt⟩

/-- **The history rule.**  A reflexive and transitive relation between a state
and its successors relates the two ends of a run. -/
theorem exec_rel {I : σ → Prop} {R : σ → σ → Prop} (hrefl : ∀ s, R s s)
    (htrans : ∀ s₁ s₂ s₃, R s₁ s₂ → R s₂ s₃ → R s₁ s₃)
    (hI : ∀ s a s', I s → step s a = some s' → I s')
    (hR : ∀ s a s', I s → step s a = some s' → R s s')
    {s t : σ} {as : List α} (hs : I s) (h : exec step s as = some t) : R s t := by
  induction as generalizing s with
  | nil => exact Option.some.inj h ▸ hrefl s
  | cons a as ih =>
      obtain ⟨s', hs', ht⟩ := exec_cons_eq_some.1 h
      exact htrans _ _ _ (hR s a s' hs hs') (ih (hI s a s' hs hs') ht)

/-- What always holds, holds at the start. -/
theorem Always.head {P : σ → Prop} {s : σ} {as : List α} (h : Always step P s as) : P s := by
  cases as with
  | nil => exact h
  | cons a as => exact h.1

/-- `Always` speaks of exactly the states the prefixes of the run end in. -/
theorem always_iff_prefix {P : σ → Prop} {s : σ} {as : List α} :
    Always step P s as ↔
      ∀ pre suf t, as = pre ++ suf → exec step s pre = some t → P t := by
  induction as generalizing s with
  | nil =>
      refine ⟨fun h pre suf t he ht => ?_, fun h => h [] [] s rfl rfl⟩
      obtain ⟨rfl, rfl⟩ := List.append_eq_nil_iff.1 he.symm
      exact Option.some.inj ht ▸ h
  | cons a as ih =>
      constructor
      · rintro ⟨hP, hrest⟩ pre suf t he ht
        cases pre with
        | nil => exact Option.some.inj ht ▸ hP
        | cons b pre =>
            obtain ⟨rfl, rfl⟩ := List.cons.inj he
            obtain ⟨s', hs', ht⟩ := exec_cons_eq_some.1 ht
            exact ih.1 (hrest s' hs') pre suf t rfl ht
      · intro h
        refine ⟨h [] (a :: as) s rfl rfl, fun s' hs' => ih.2 fun pre suf t he ht => ?_⟩
        exact h (a :: pre) suf t (by rw [he]; rfl) (exec_cons_eq_some.2 ⟨s', hs', ht⟩)

/-- **The invariant rule, for every state of the run.** -/
theorem always_of_guarded {I P : σ → Prop} {G : σ → α → Prop}
    (hstep : ∀ s a s', I s → G s a → step s a = some s' → I s') (hP : ∀ s, I s → P s)
    {s : σ} {as : List α} (hI : I s) (hG : Guarded step G s as) : Always step P s as := by
  induction as generalizing s with
  | nil => exact hP s hI
  | cons a as ih =>
      exact ⟨hP s hI, fun s' hs' => ih (hstep s a s' hI hG.1 hs') (hG.2 s' hs')⟩

/-- **A run is safe exactly when its steps are allowed.**  `I` is kept by the
steps from safe states to safe states, and from a safe state with `I` a step leads to a safe
state exactly when `G` allows it; only runs whose steps have `H` are looked at. -/
theorem always_iff_guarded_of_guarded {I P : σ → Prop} {G H : σ → α → Prop}
    (hI : ∀ s a s', H s a → I s → P s → step s a = some s' → P s' → I s')
    (hG : ∀ s a, H s a → I s → P s → (G s a ↔ ∀ s', step s a = some s' → P s'))
    {s : σ} {as : List α} (hs : I s) (hP : P s) (hH : Guarded step H s as) :
    Always step P s as ↔ Guarded step G s as := by
  induction as generalizing s with
  | nil => exact ⟨fun _ => trivial, fun _ => hP⟩
  | cons a as ih =>
      obtain ⟨hHa, hrest'⟩ := hH
      constructor
      · rintro ⟨_, hrest⟩
        have hsafe : ∀ s', step s a = some s' → P s' := fun s' hs' => (hrest s' hs').head
        exact ⟨(hG s a hHa hs hP).2 hsafe, fun s' hs' =>
          (ih (hI s a s' hHa hs hP hs' (hsafe s' hs')) (hsafe s' hs') (hrest' s' hs')).1
            (hrest s' hs')⟩
      · rintro ⟨hGa, hrest⟩
        have hsafe := (hG s a hHa hs hP).1 hGa
        exact ⟨hP, fun s' hs' =>
          (ih (hI s a s' hHa hs hP hs' (hsafe s' hs')) (hsafe s' hs') (hrest' s' hs')).2
            (hrest s' hs')⟩

/-- What is allowed in any state. -/
theorem guarded_of_forall_mem {Q : α → Prop} {s : σ} {as : List α} (h : ∀ a ∈ as, Q a) :
    Guarded step (fun _ => Q) s as := by
  induction as generalizing s with
  | nil => trivial
  | cons a as ih =>
      exact ⟨h a List.mem_cons_self, fun s' _ => ih fun b hb => h b (List.mem_cons_of_mem a hb)⟩

/-- The same for runs of actions with `Q`. -/
theorem always_iff_guarded {I P : σ → Prop} {G : σ → α → Prop} {Q : α → Prop}
    (hI : ∀ s a s', Q a → I s → P s → step s a = some s' → P s' → I s')
    (hG : ∀ s a, Q a → I s → P s → (G s a ↔ ∀ s', step s a = some s' → P s'))
    {s : σ} {as : List α} (hs : I s) (hP : P s) (hQ : ∀ a ∈ as, Q a) :
    Always step P s as ↔ Guarded step G s as :=
  always_iff_guarded_of_guarded hI hG hs hP (guarded_of_forall_mem hQ)

end Run
