/-
# Association lists and fallible computations

Facts about `List.lookup` on lists of named values and about computations in
`Except`, as they are used wherever a record is read out of a list of fields or
a check can fail.

`lookup_eq_some_of_mem` and `mem_of_lookup` say that a list whose names are
distinct is the function it looks up.
-/

import Mathlib.Data.List.Nodup

namespace Assoc

variable {κ β : Type*} [DecidableEq κ]

/-- Searching past the first entry. -/
theorem lookup_cons_eq_if (k key : κ) (n : β) (cs : List (κ × β)) :
    ((key, n) :: cs).lookup k = if k = key then some n else cs.lookup k := by
  rw [List.lookup_cons]
  by_cases h : k = key
  · simp [h]
  · simp [h, beq_eq_false_iff_ne.2 h]

/-- What is found is there. -/
theorem mem_of_lookup {l : List (κ × β)} {k : κ} {v : β}
    (h : l.lookup k = some v) : (k, v) ∈ l := by
  obtain ⟨l₁, l₂, rfl, _⟩ := List.lookup_eq_some_iff.1 h
  exact List.mem_append_right l₁ List.mem_cons_self

/-- Where no key occurs twice, what is there is found. -/
theorem lookup_eq_some_of_mem {l : List (κ × β)} (hd : (l.map Prod.fst).Nodup) {k : κ} {v : β}
    (h : (k, v) ∈ l) : l.lookup k = some v := by
  induction l with
  | nil => exact absurd h List.not_mem_nil
  | cons e l ih =>
      obtain ⟨key, w⟩ := e
      rw [List.map_cons, List.nodup_cons] at hd
      rw [lookup_cons_eq_if]
      rcases List.mem_cons.1 h with he | h
      · obtain ⟨rfl, rfl⟩ := Prod.mk.inj he
        rw [if_pos rfl]
      · have hne : k ≠ key := fun he => hd.1 (he ▸ List.mem_map.2 ⟨(k, v), h, rfl⟩)
        rw [if_neg hne, ih hd.2 h]

/-- Nothing is found where nothing is there. -/
theorem lookup_eq_none_iff {l : List (κ × β)} {k : κ} :
    l.lookup k = none ↔ ∀ v, (k, v) ∉ l := by
  induction l with
  | nil => simp
  | cons e l ih =>
      obtain ⟨key, w⟩ := e
      rw [lookup_cons_eq_if]
      split_ifs with hk
      · subst hk
        exact ⟨fun h => (nomatch h), fun h => absurd List.mem_cons_self (h w)⟩
      · rw [ih]
        simp [hk]

end Assoc

namespace Except

/-- A step that goes through leads to one that goes through. -/
theorem bind_eq_ok {ε α β : Type} {x : Except ε α} {f : α → Except ε β} {b : β} :
    (x >>= f) = .ok b ↔ ∃ a, x = .ok a ∧ f a = .ok b := by
  cases x with
  | error e => exact ⟨fun h => (nomatch h), fun ⟨_, h, _⟩ => (nomatch h)⟩
  | ok a => exact ⟨fun h => ⟨a, rfl, h⟩, fun ⟨_, h, hf⟩ => Except.ok.inj h ▸ hf⟩

/-- After a step that went through. -/
theorem ok_bind {ε α β : Type} (a : α) (f : α → Except ε β) :
    ((.ok a : Except ε α) >>= f) = f a := rfl

/-- A result that is mapped. -/
theorem map_eq_ok {ε α β : Type} {x : Except ε α} {f : α → β} {b : β} :
    f <$> x = .ok b ↔ ∃ a, x = .ok a ∧ f a = b := by
  cases x with
  | error e => exact ⟨fun h => (nomatch h), fun ⟨_, h, _⟩ => (nomatch h)⟩
  | ok a => exact ⟨fun h => ⟨a, rfl, Except.ok.inj h⟩, fun ⟨_, h, hf⟩ => Except.ok.inj h ▸ hf ▸ rfl⟩

/-- There is a value where the computation has gone through. -/
theorem toOption_eq_some {ε α : Type} {x : Except ε α} {a : α} :
    x.toOption = some a ↔ x = .ok a := by
  cases x with
  | error e => exact ⟨fun h => (nomatch h), fun h => (nomatch h)⟩
  | ok b => exact ⟨fun h => congrArg _ (Option.some.inj h), fun h => congrArg _ (Except.ok.inj h)⟩

/-- Where there is a value, the computation has gone through. -/
theorem exists_ok_of_isSome {ε α : Type} {x : Except ε α} (h : x.toOption.isSome) :
    ∃ a, x = .ok a := by
  cases x with
  | error e => exact nomatch h
  | ok a => exact ⟨a, rfl⟩

/-- A loop that stops at the first error has run to its end exactly when it
computed something for every element. -/
theorem mapM_eq_ok {ε α β : Type} {f : α → Except ε β} {as : List α} {bs : List β} :
    as.mapM f = .ok bs ↔ as.map f = bs.map .ok := by
  induction as generalizing bs with
  | nil => cases bs <;> simp [pure, Except.pure]
  | cons a as ih =>
      rw [List.mapM_cons, bind_eq_ok, List.map_cons]
      constructor
      · rintro ⟨b, hb, hbs⟩
        obtain ⟨bs', hbs', hok⟩ := bind_eq_ok.1 hbs
        obtain rfl : b :: bs' = bs := Except.ok.inj hok
        rw [List.map_cons, hb, ih.1 hbs']
      · intro h
        cases bs with
        | nil => exact absurd h (List.cons_ne_nil _ _)
        | cons b bs =>
            obtain ⟨hb, hbs⟩ := List.cons.inj h
            exact ⟨b, hb, bind_eq_ok.2 ⟨bs, ih.2 hbs, rfl⟩⟩

/-- Every result comes from one of the inputs. -/
theorem exists_of_mem_mapM {ε α β : Type} {f : α → Except ε β} {as : List α} {bs : List β}
    (h : as.mapM f = .ok bs) {b : β} (hb : b ∈ bs) : ∃ a ∈ as, f a = .ok b := by
  have hmem : Except.ok b ∈ as.map f := mapM_eq_ok.1 h ▸ List.mem_map.2 ⟨b, hb, rfl⟩
  exact List.mem_map.1 hmem

end Except
