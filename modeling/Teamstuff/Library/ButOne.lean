/-
# Lists that agree but for one entry

Two lists of named entries that agree at every name but one, and what is
computed from them entry by entry.  `SameButOne` relates the two results: the
same elements, each as often, apart from at most one element on each side.
`filterMap_sameButOne` is the fact; `SameButOne.length_le` is what refutes it.
-/

import Mathlib.Data.List.Nodup
import Mathlib.Data.List.Perm.Basic

namespace Assoc

variable {κ β : Type*} [DecidableEq κ]

/-- The two lists have the same elements, each as often, but for at most one
element of each, with `P` in the first and with `Q` in the second. -/
def SameButOne {α : Type*} (P Q : α → Prop) (l₁ l₂ : List α) : Prop :=
  ∃ m : List α, (l₁.Perm m ∨ ∃ a, P a ∧ l₁.Perm (a :: m)) ∧
    (l₂.Perm m ∨ ∃ a, Q a ∧ l₂.Perm (a :: m))

/-- The other way round. -/
theorem SameButOne.symm {α : Type*} {P Q : α → Prop} {l₁ l₂ : List α}
    (h : SameButOne P Q l₁ l₂) : SameButOne Q P l₂ l₁ := by
  obtain ⟨m, h₁, h₂⟩ := h
  exact ⟨m, h₂, h₁⟩

/-- All the same. -/
theorem SameButOne.refl {α : Type*} {P Q : α → Prop} (l : List α) : SameButOne P Q l l :=
  ⟨l, Or.inl (.refl l), Or.inl (.refl l)⟩

/-- Under weaker conditions. -/
theorem SameButOne.imp {α : Type*} {P P' Q Q' : α → Prop} {l₁ l₂ : List α}
    (h : SameButOne P Q l₁ l₂) (hP : ∀ a, P a → P' a) (hQ : ∀ a, Q a → Q' a) :
    SameButOne P' Q' l₁ l₂ := by
  obtain ⟨m, h₁, h₂⟩ := h
  exact ⟨m, h₁.imp_right fun ⟨a, ha, hp⟩ => ⟨a, hP a ha, hp⟩,
    h₂.imp_right fun ⟨a, ha, hp⟩ => ⟨a, hQ a ha, hp⟩⟩

/-- In any order. -/
theorem SameButOne.of_perm {α : Type*} {P Q : α → Prop} {l₁ l₂ l₁' l₂' : List α}
    (h : SameButOne P Q l₁ l₂) (h₁ : l₁'.Perm l₁) (h₂ : l₂'.Perm l₂) :
    SameButOne P Q l₁' l₂' := by
  obtain ⟨m, hm₁, hm₂⟩ := h
  exact ⟨m, hm₁.imp h₁.trans fun ⟨a, ha, hp⟩ => ⟨a, ha, h₁.trans hp⟩,
    hm₂.imp h₂.trans fun ⟨a, ha, hp⟩ => ⟨a, ha, h₂.trans hp⟩⟩

/-- There is at most one more. -/
theorem SameButOne.length_le {α : Type*} {P Q : α → Prop} {l₁ l₂ : List α}
    (h : SameButOne P Q l₁ l₂) : l₂.length ≤ l₁.length + 1 := by
  obtain ⟨m, h₁, h₂⟩ := h
  have hm₁ : m.length ≤ l₁.length := by
    rcases h₁ with hp | ⟨a, _, hp⟩
    · have := hp.length_eq
      omega
    · have := hp.length_eq
      rw [List.length_cons] at this
      omega
  have hm₂ : l₂.length ≤ m.length + 1 := by
    rcases h₂ with hp | ⟨a, _, hp⟩
    · have := hp.length_eq
      omega
    · have := hp.length_eq
      rw [List.length_cons] at this
      omega
  omega

/-- The entries of a list of distinct names under one name. -/
theorem filter_eq_nil_or_singleton {l : List (κ × β)} (hd : (l.map Prod.fst).Nodup) (k : κ) :
    l.filter (fun e => e.1 = k) = [] ∨
      ∃ b, (k, b) ∈ l ∧ l.filter (fun e => e.1 = k) = [(k, b)] := by
  induction l with
  | nil => exact Or.inl rfl
  | cons e l ih =>
      obtain ⟨key, b⟩ := e
      rw [List.map_cons, List.nodup_cons] at hd
      by_cases hk : key = k
      · subst hk
        have hnil : l.filter (fun e => e.1 = key) = [] := by
          refine List.filter_eq_nil_iff.2 fun e he heq => hd.1 ?_
          exact List.mem_map.2 ⟨e, he, of_decide_eq_true heq⟩
        exact Or.inr ⟨b, List.mem_cons_self, by rw [List.filter_cons, hnil]; simp⟩
      · have hcons : ((key, b) :: l).filter (fun e => e.1 = k) = l.filter fun e => e.1 = k := by
          simp [hk]
        rw [hcons]
        exact (ih hd.2).imp_right fun ⟨b', hb', heq⟩ => ⟨b', List.mem_cons_of_mem _ hb', heq⟩

/-- What is computed from the entries of a list, but for the entry of one name. -/
theorem filterMap_perm {α : Type*} {l : List (κ × β)} (hd : (l.map Prod.fst).Nodup) (k : κ)
    (g : β → Option α) :
    (l.filterMap fun e => g e.2).Perm ((l.filter fun e => !decide (e.1 = k)).filterMap fun e => g e.2) ∨
      ∃ a, (∃ b, (k, b) ∈ l ∧ g b = some a) ∧ (l.filterMap fun e => g e.2).Perm
        (a :: (l.filter fun e => !decide (e.1 = k)).filterMap fun e => g e.2) := by
  have hsplit := ((List.filter_append_perm (fun e : κ × β => e.1 = k) l).symm.filterMap
    fun e => g e.2)
  rw [List.filterMap_append] at hsplit
  rcases filter_eq_nil_or_singleton hd k with hnil | ⟨b, hb, hone⟩
  · rw [hnil] at hsplit
    exact Or.inl hsplit
  · rw [hone] at hsplit
    cases hg : g b with
    | none =>
        left
        simpa only [List.filterMap_cons, hg, List.filterMap_nil, List.nil_append] using hsplit
    | some a =>
        right
        refine ⟨a, ⟨b, hb, hg⟩, ?_⟩
        simpa only [List.filterMap_cons, hg, List.filterMap_nil, List.singleton_append] using hsplit

/-- **Lists of entries that agree but for one name** give the same elements but
for those computed from the entries of that name. -/
theorem filterMap_sameButOne {α : Type*} {l₁ l₂ : List (κ × β)} (hd₁ : (l₁.map Prod.fst).Nodup)
    (hd₂ : (l₂.map Prod.fst).Nodup) (k : κ)
    (h : ∀ q b, q ≠ k → ((q, b) ∈ l₁ ↔ (q, b) ∈ l₂)) (g : β → Option α) :
    SameButOne (fun a => ∃ b, (k, b) ∈ l₁ ∧ g b = some a) (fun a => ∃ b, (k, b) ∈ l₂ ∧ g b = some a)
      (l₁.filterMap fun e => g e.2) (l₂.filterMap fun e => g e.2) := by
  have hrest : (l₁.filter fun e => !decide (e.1 = k)).Perm (l₂.filter fun e => !decide (e.1 = k)) := by
    refine (List.perm_ext_iff_of_nodup (hd₁.of_map.filter _) (hd₂.of_map.filter _)).2 ?_
    rintro ⟨q, b⟩
    simp only [List.mem_filter, Bool.not_eq_true', decide_eq_false_iff_not]
    exact ⟨fun ⟨hm, hq⟩ => ⟨(h q b hq).1 hm, hq⟩, fun ⟨hm, hq⟩ => ⟨(h q b hq).2 hm, hq⟩⟩
  have hmap := hrest.filterMap fun e => g e.2
  refine ⟨_, filterMap_perm hd₁ k g, ?_⟩
  exact (filterMap_perm hd₂ k g).imp (fun hp => hp.trans hmap.symm)
    fun ⟨a, ha, hp⟩ => ⟨a, ha, hp.trans (hmap.symm.cons a)⟩

end Assoc
