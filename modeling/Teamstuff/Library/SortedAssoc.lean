/-
# Association lists in the order of a comparator

A list of keys and values in which every key comes before the next one.  Two keys that
compare the same are the same key to the list: `get` finds the value under either, `insert`
replaces the entry and `erase` takes it out.

`get_insert` and `get_erase` say what a change of one key does to a search for another, and
`Sorted.get_of_mem` and `mem_of_get` that a search finds the entries that are there.  Where a
comparator tells the keys in use apart (`Exact`), searching is `List.lookup`
(`get_eq_lookup`, `lookup_insert`, `lookup_erase`).
-/

import Teamstuff.Library.Basic
import Mathlib.Data.List.Pairwise
import Mathlib.Order.Compare

namespace SortedAssoc

variable {κ β : Type*} (cmp : κ → κ → Ordering)

/-- The keys increase. -/
def Sorted (l : List (κ × β)) : Prop := l.Pairwise fun c d => cmp c.1 d.1 = .lt

/-- The value under a key. -/
def get (key : κ) : List (κ × β) → Option β
  | [] => none
  | (k, v) :: l =>
      match cmp key k with
      | .lt => none
      | .eq => some v
      | .gt => get key l

/-- The list with a value put under a key. -/
def insert (key : κ) (value : β) : List (κ × β) → List (κ × β)
  | [] => [(key, value)]
  | (k, v) :: l =>
      match cmp key k with
      | .lt => (key, value) :: (k, v) :: l
      | .eq => (key, value) :: l
      | .gt => (k, v) :: insert key value l

/-- The list without a key. -/
def erase (key : κ) : List (κ × β) → List (κ × β)
  | [] => []
  | (k, v) :: l =>
      match cmp key k with
      | .lt => (k, v) :: l
      | .eq => l
      | .gt => (k, v) :: erase key l

variable {cmp} {key k : κ} {value v : β} {l r : List (κ × β)}

/-- An entry is the new one or was there before. -/
theorem mem_insert {c : κ × β} (h : c ∈ insert cmp key value l) : c = (key, value) ∨ c ∈ l := by
  induction l with
  | nil => exact Or.inl (List.mem_singleton.1 h)
  | cons d l ih =>
      obtain ⟨k, v⟩ := d
      rw [insert] at h
      cases hk : cmp key k with
      | lt =>
          simp only [hk] at h
          exact List.mem_cons.1 h
      | eq =>
          simp only [hk] at h
          exact (List.mem_cons.1 h).imp_right fun h => List.mem_cons_of_mem _ h
      | gt =>
          simp only [hk] at h
          rcases List.mem_cons.1 h with rfl | h
          · exact Or.inr List.mem_cons_self
          · exact (ih h).imp_right fun h => List.mem_cons_of_mem _ h

/-- The new entry is there. -/
theorem mem_insert_self (key : κ) (value : β) (l : List (κ × β)) :
    (key, value) ∈ insert cmp key value l := by
  induction l with
  | nil => exact List.mem_cons_self
  | cons c l ih =>
      rw [insert]
      split
      · exact List.mem_cons_self
      · exact List.mem_cons_self
      · exact List.mem_cons_of_mem _ ih

/-- An entry of another key stays. -/
theorem mem_insert_of_ne {c : κ × β} (hc : c ∈ l) (hne : cmp key c.1 ≠ .eq) (value : β) :
    c ∈ insert cmp key value l := by
  induction l with
  | nil => exact absurd hc List.not_mem_nil
  | cons d l ih =>
      rw [insert]
      split
      · exact List.mem_cons_of_mem _ hc
      · rename_i heq
        rcases List.mem_cons.1 hc with rfl | hc
        · exact absurd heq hne
        · exact List.mem_cons_of_mem _ hc
      · rcases List.mem_cons.1 hc with rfl | hc
        · exact List.mem_cons_self
        · exact List.mem_cons_of_mem _ (ih hc)

/-- There is an entry after an insertion. -/
theorem insert_ne_nil : insert cmp key value l ≠ [] := by
  cases l with
  | nil => exact List.cons_ne_nil _ _
  | cons d l =>
      rw [insert]
      split <;> exact List.cons_ne_nil _ _

/-- No entry is added. -/
theorem erase_sublist (key : κ) (l : List (κ × β)) : (erase cmp key l).Sublist l := by
  induction l with
  | nil => exact List.Sublist.refl []
  | cons d l ih =>
      rw [erase]
      split
      · exact List.Sublist.refl _
      · exact List.sublist_cons_self d l
      · exact ih.cons_cons d

/-- The keys still increase. -/
theorem Sorted.erase (h : Sorted cmp l) (key : κ) : Sorted cmp (erase cmp key l) :=
  h.sublist (erase_sublist key l)

/-- Only the keys matter. -/
theorem Sorted.of_keys {γ : Type*} {l' : List (κ × γ)} (h : Sorted cmp l)
    (hkeys : l'.map Prod.fst = l.map Prod.fst) : Sorted cmp l' := by
  have hl : (l.map Prod.fst).Pairwise fun a b => cmp a b = .lt := List.pairwise_map.2 h
  rw [← hkeys] at hl
  exact List.pairwise_map.1 hl

/-- Nothing is found before the first key. -/
theorem get_of_lt (h : ∀ c ∈ l, cmp key c.1 = .lt) : get cmp key l = none := by
  cases l with
  | nil => rfl
  | cons d l => simp only [get, h d List.mem_cons_self]

/-- What is found is there, under a key that compares the same. -/
theorem mem_of_get (h : get cmp key l = some value) : ∃ k, cmp key k = .eq ∧ (k, value) ∈ l := by
  induction l with
  | nil => exact nomatch h
  | cons d l ih =>
      obtain ⟨k, v⟩ := d
      rw [get] at h
      cases hk : cmp key k with
      | lt => simp only [hk, reduceCtorEq] at h
      | eq =>
          simp only [hk, Option.some.injEq] at h
          exact ⟨k, hk, h ▸ List.mem_cons_self⟩
      | gt =>
          simp only [hk] at h
          obtain ⟨j, hj, hmem⟩ := ih h
          exact ⟨j, hj, List.mem_cons_of_mem _ hmem⟩

/-! ### With a comparator that is an order -/

section TransCmp

variable [Std.TransCmp cmp]

/-- What compares otherwise than the same is not the same. -/
theorem ne_of_cmp {a b : κ} (h : cmp a b ≠ .eq) : a ≠ b := by
  rintro rfl
  exact h Std.ReflCmp.compare_self

/-- No key is there twice. -/
theorem Sorted.nodup_keys (h : Sorted cmp l) : (l.map Prod.fst).Nodup := by
  refine List.pairwise_map.2 (List.Pairwise.imp (fun {c d} hlt => ?_) h)
  have hne : cmp c.1 d.1 ≠ .eq := by rw [hlt]; decide
  exact ne_of_cmp hne

/-- The keys still increase. -/
theorem Sorted.insert (h : Sorted cmp l) (key : κ) (value : β) :
    Sorted cmp (insert cmp key value l) := by
  induction l with
  | nil => exact List.pairwise_singleton _ _
  | cons d l ih =>
      obtain ⟨k, v⟩ := d
      obtain ⟨hhead, htail⟩ := List.pairwise_cons.1 h
      rw [SortedAssoc.insert]
      cases hk : cmp key k with
      | lt =>
          refine List.pairwise_cons.2 ⟨fun c hc => ?_, h⟩
          rcases List.mem_cons.1 hc with rfl | hc
          · exact hk
          · exact Std.TransCmp.lt_trans hk (hhead c hc)
      | eq =>
          refine List.pairwise_cons.2 ⟨fun c hc => ?_, htail⟩
          exact Std.TransCmp.lt_of_eq_of_lt hk (hhead c hc)
      | gt =>
          refine List.pairwise_cons.2 ⟨fun c hc => ?_, ih htail⟩
          rcases mem_insert hc with rfl | hc
          · exact Std.OrientedCmp.lt_of_gt hk
          · exact hhead c hc

/-- No other entry of the key stays. -/
theorem Sorted.mem_insert (h : Sorted cmp l) {c : κ × β} (hc : c ∈ SortedAssoc.insert cmp key value l) :
    c = (key, value) ∨ c ∈ l ∧ cmp key c.1 ≠ .eq := by
  induction l with
  | nil => exact Or.inl (List.mem_singleton.1 hc)
  | cons d l ih =>
      obtain ⟨k, v⟩ := d
      obtain ⟨hhead, htail⟩ := List.pairwise_cons.1 h
      rw [SortedAssoc.insert] at hc
      cases hk : cmp key k with
      | lt =>
          simp only [hk] at hc
          refine (List.mem_cons.1 hc).imp_right fun hc => ⟨hc, ?_⟩
          rcases List.mem_cons.1 hc with rfl | hc
          · rw [hk]
            decide
          · rw [Std.TransCmp.lt_trans hk (hhead c hc)]
            decide
      | eq =>
          simp only [hk] at hc
          refine (List.mem_cons.1 hc).imp_right fun hc => ⟨List.mem_cons_of_mem _ hc, ?_⟩
          rw [Std.TransCmp.lt_of_eq_of_lt hk (hhead c hc)]
          decide
      | gt =>
          simp only [hk] at hc
          rcases List.mem_cons.1 hc with rfl | hc
          · refine Or.inr ⟨List.mem_cons_self, ?_⟩
            rw [hk]
            decide
          · exact (ih htail hc).imp_right fun h => ⟨List.mem_cons_of_mem _ h.1, h.2⟩

/-- **The entries after an insertion.** -/
theorem Sorted.mem_insert_iff (h : Sorted cmp l) {c : κ × β} :
    c ∈ SortedAssoc.insert cmp key value l ↔ c = (key, value) ∨ c ∈ l ∧ cmp key c.1 ≠ .eq := by
  refine ⟨h.mem_insert, ?_⟩
  rintro (rfl | ⟨hc, hne⟩)
  · exact mem_insert_self key value l
  · exact mem_insert_of_ne hc hne value

/-- Entries whose keys compare the same are one entry. -/
theorem Sorted.eq_of_cmp (h : Sorted cmp l) {c d : κ × β} (hc : c ∈ l) (hd : d ∈ l)
    (hcd : cmp c.1 d.1 = .eq) : c = d := by
  induction l with
  | nil => exact absurd hc List.not_mem_nil
  | cons e l ih =>
      obtain ⟨hhead, htail⟩ := List.pairwise_cons.1 h
      rcases List.mem_cons.1 hc with hce | hc' <;> rcases List.mem_cons.1 hd with hde | hd'
      · exact hce.trans hde.symm
      · subst hce
        exact absurd (hcd.symm.trans (hhead d hd')) (by decide)
      · subst hde
        exact absurd (hcd.symm.trans (Std.OrientedCmp.gt_of_lt (hhead c hc'))) (by decide)
      · exact ih htail hc' hd'

/-- **An entry is found under its key.** -/
theorem Sorted.get_of_mem (h : Sorted cmp l) {c : κ × β} (hc : c ∈ l) :
    get cmp c.1 l = some c.2 := by
  induction l with
  | nil => exact absurd hc List.not_mem_nil
  | cons d l ih =>
      obtain ⟨hhead, htail⟩ := List.pairwise_cons.1 h
      rw [get]
      rcases List.mem_cons.1 hc with rfl | hc
      · simp only [Std.ReflCmp.compare_self]
      · have hgt : cmp c.1 d.1 = .gt := Std.OrientedCmp.gt_of_lt (hhead c hc)
        simp only [hgt]
        exact ih htail hc

/-- Keys that compare the same are found at one place. -/
theorem get_congr (h : cmp key k = .eq) (l : List (κ × β)) : get cmp key l = get cmp k l := by
  induction l with
  | nil => rfl
  | cons d l ih => simp only [get, Std.TransCmp.congr_left h, ih]

/-- **What an insertion does to a search.** -/
theorem get_insert (key k : κ) (value : β) (l : List (κ × β)) :
    get cmp k (insert cmp key value l) =
      if cmp k key = .eq then some value else get cmp k l := by
  induction l with
  | nil =>
      simp only [insert, get]
      cases cmp k key <;> rfl
  | cons d l ih =>
      obtain ⟨j, v⟩ := d
      rw [insert]
      cases hj : cmp key j with
      | lt =>
          simp only [get]
          cases hk : cmp k key with
          | lt =>
              rw [Std.TransCmp.lt_trans hk hj]
              rfl
          | eq => rfl
          | gt => rfl
      | eq =>
          simp only [get]
          rw [Std.TransCmp.congr_right hj]
          cases cmp k j <;> rfl
      | gt =>
          simp only [get]
          cases hk : cmp k j with
          | lt =>
              rw [Std.TransCmp.lt_trans hk (Std.OrientedCmp.lt_of_gt hj)]
              rfl
          | eq =>
              rw [Std.TransCmp.congr_left hk, Std.OrientedCmp.lt_of_gt hj]
              rfl
          | gt => exact ih

/-- **What a removal does to a search.** -/
theorem get_erase (h : Sorted cmp l) (key k : κ) :
    get cmp k (erase cmp key l) = if cmp k key = .eq then none else get cmp k l := by
  induction l with
  | nil => rw [erase, get, ite_self]
  | cons d l ih =>
      obtain ⟨j, v⟩ := d
      obtain ⟨hhead, htail⟩ := List.pairwise_cons.1 h
      rw [erase]
      cases hj : cmp key j with
      | lt =>
          simp only [get]
          cases hk : cmp k key with
          | lt => rfl
          | eq =>
              rw [Std.TransCmp.congr_left hk, hj]
              rfl
          | gt => rfl
      | eq =>
          simp only [get]
          rw [Std.TransCmp.congr_right hj]
          cases hk : cmp k j with
          | lt => exact get_of_lt fun c hc => Std.TransCmp.lt_trans hk (hhead c hc)
          | eq => exact get_of_lt fun c hc => Std.TransCmp.lt_of_eq_of_lt hk (hhead c hc)
          | gt => rfl
      | gt =>
          simp only [get]
          cases hk : cmp k j with
          | lt =>
              rw [Std.TransCmp.lt_trans hk (Std.OrientedCmp.lt_of_gt hj)]
              rfl
          | eq =>
              rw [Std.TransCmp.congr_left hk, Std.OrientedCmp.lt_of_gt hj]
              rfl
          | gt => exact ih htail

/-- An insertion under a new key is one to every other key. -/
theorem lookup_insert_of_get_eq_none [DecidableEq κ] (h : get cmp key l = none) (k : κ)
    (value : β) :
    (insert cmp key value l).lookup k = if k = key then some value else l.lookup k := by
  induction l with
  | nil => rw [insert, Assoc.lookup_cons_eq_if]
  | cons d l ih =>
      obtain ⟨j, v⟩ := d
      rw [get] at h
      rw [insert]
      cases hj : cmp key j with
      | lt => exact Assoc.lookup_cons_eq_if ..
      | eq => simp only [hj, reduceCtorEq] at h
      | gt =>
          simp only [hj] at h
          have hne : key ≠ j := ne_of_cmp (by rw [hj]; decide : cmp key j ≠ .eq)
          simp only [Assoc.lookup_cons_eq_if, ih h]
          split_ifs with h₁ h₂ <;> first | rfl | exact absurd (h₂.symm.trans h₁) hne

end TransCmp

/-! ### Keys that the comparator tells apart -/

/-- The comparator tells the keys in `K` apart. -/
def Exact (cmp : κ → κ → Ordering) (K : κ → Prop) : Prop :=
  ∀ a b, K a → K b → cmp a b = .eq → a = b

section Exact

variable [Std.TransCmp cmp] [DecidableEq κ] {K : κ → Prop}

/-- A key that comes before all others is not there. -/
theorem lookup_of_lt (h : ∀ c ∈ l, cmp key c.1 = .lt) : l.lookup key = none := by
  refine Assoc.lookup_eq_none_iff.2 fun v hv => ?_
  exact absurd ((h (key, v) hv).symm.trans Std.ReflCmp.compare_self) (by decide)

/-- What is found under a key that compares the same as no other stands under that key. -/
theorem lookup_of_get_eq_some (hkey : ∀ k, cmp key k = .eq → key = k) {value : β}
    (h : get cmp key l = some value) : l.lookup key = some value := by
  induction l with
  | nil => exact nomatch h
  | cons d l ih =>
      obtain ⟨j, v⟩ := d
      rw [get] at h
      rw [Assoc.lookup_cons_eq_if]
      cases hj : cmp key j with
      | lt =>
          simp only [hj] at h
          exact absurd h.symm (Option.some_ne_none value)
      | eq =>
          simp only [hj] at h
          rw [if_pos (hkey j hj), h]
      | gt =>
          simp only [hj] at h
          have hne : key ≠ j := ne_of_cmp (by rw [hj]; decide : cmp key j ≠ .eq)
          rw [if_neg hne, ih h]

/-- **Searching for a key that the comparator tells from the others** is looking it up. -/
theorem Sorted.get_eq_lookup (h : Sorted cmp l) (hkey : ∀ c ∈ l, cmp key c.1 = .eq → key = c.1) :
    get cmp key l = l.lookup key := by
  induction l with
  | nil => rfl
  | cons d l ih =>
      obtain ⟨j, v⟩ := d
      obtain ⟨hhead, htail⟩ := List.pairwise_cons.1 h
      rw [get, Assoc.lookup_cons_eq_if]
      cases hj : cmp key j with
      | lt =>
          have hne : key ≠ j := ne_of_cmp (by rw [hj]; decide : cmp key j ≠ .eq)
          rw [if_neg hne, lookup_of_lt fun c hc => Std.TransCmp.lt_trans hj (hhead c hc)]
      | eq => rw [if_pos (hkey _ List.mem_cons_self hj)]
      | gt =>
          have hne : key ≠ j := ne_of_cmp (by rw [hj]; decide : cmp key j ≠ .eq)
          rw [if_neg hne]
          exact ih htail fun c hc => hkey c (List.mem_cons_of_mem _ hc)

variable (hK : Exact cmp K) (hkey : K key)

include hK hkey

/-- Searching is `List.lookup`. -/
theorem get_eq_lookup (h : Sorted cmp l) (hl : ∀ c ∈ l, K c.1) :
    get cmp key l = l.lookup key :=
  h.get_eq_lookup fun c hc heq => hK key c.1 hkey (hl c hc) heq

/-- `List.lookup` after an insertion. -/
theorem lookup_insert (hl : ∀ c ∈ l, K c.1) (k : κ) (value : β) :
    (insert cmp key value l).lookup k = if k = key then some value else l.lookup k := by
  induction l with
  | nil => rw [insert, Assoc.lookup_cons_eq_if]
  | cons d l ih =>
      obtain ⟨j, v⟩ := d
      rw [insert]
      cases hj : cmp key j with
      | lt => exact Assoc.lookup_cons_eq_if ..
      | eq =>
          obtain rfl := hK key j hkey (hl _ List.mem_cons_self) hj
          simp only [Assoc.lookup_cons_eq_if]
          split_ifs <;> rfl
      | gt =>
          have hne : key ≠ j := ne_of_cmp (by rw [hj]; decide : cmp key j ≠ .eq)
          simp only [Assoc.lookup_cons_eq_if, ih fun c hc => hl c (List.mem_cons_of_mem _ hc)]
          split_ifs with h₁ h₂ <;> first | rfl | exact absurd (h₂.symm.trans h₁) hne

/-- `List.lookup` after an entry is taken out. -/
theorem lookup_erase (h : Sorted cmp l) (hl : ∀ c ∈ l, K c.1) (k : κ) :
    (erase cmp key l).lookup k = if k = key then none else l.lookup k := by
  induction l with
  | nil => rw [erase, List.lookup_nil, ite_self]
  | cons d l ih =>
      obtain ⟨j, v⟩ := d
      obtain ⟨hhead, htail⟩ := List.pairwise_cons.1 h
      rw [erase]
      cases hj : cmp key j with
      | lt =>
          have hnone : ((j, v) :: l).lookup key = none := by
            have hlt : ∀ c ∈ (j, v) :: l, cmp key c.1 = .lt := by
              intro c hc
              rcases List.mem_cons.1 hc with rfl | hc
              · exact hj
              · exact Std.TransCmp.lt_trans hj (hhead c hc)
            exact lookup_of_lt hlt
          split_ifs with hk
          · rw [hk]
            exact hnone
          · rfl
      | eq =>
          obtain rfl := hK key j hkey (hl _ List.mem_cons_self) hj
          simp only [Assoc.lookup_cons_eq_if]
          split_ifs with hk
          · rw [hk]
            exact lookup_of_lt hhead
          · rfl
      | gt =>
          have hne : key ≠ j := ne_of_cmp (by rw [hj]; decide : cmp key j ≠ .eq)
          simp only [Assoc.lookup_cons_eq_if, ih htail fun c hc => hl c (List.mem_cons_of_mem _ hc)]
          split_ifs with h₁ h₂ <;> first | rfl | exact absurd (h₂.symm.trans h₁) hne

end Exact

end SortedAssoc
