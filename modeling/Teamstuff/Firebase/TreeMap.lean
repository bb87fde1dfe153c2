/-
# A tree of values as a map

An `FImmutableTree` is a map from paths to values.  After any sequence of `setValue:atPath:` and
`removeValueAtPath:` it has the values that the edits have left, and it has no branch without a
value: it is empty exactly if they have left none (`valueAtPath_foldl_apply`).
-/

import Teamstuff.Firebase.ImmutableTree
import Mathlib.Logic.Function.Basic

namespace Teamstuff
namespace FImmutableTree

variable {α : Type} {stringComparator : NSComparator} {K : String → Prop} {V : α → Prop}
  {t : FImmutableTree α} {p q : FPath}

/-! ### One edit -/

/-- The value at the root. -/
@[simp] theorem valueAtPath_nil : t.valueAtPath stringComparator [] = t.value := by
  rw [valueAtPath]

/-- The empty tree has no values. -/
theorem valueAtPath_empty : (empty : FImmutableTree α).valueAtPath stringComparator p = none := by
  cases p with
  | nil => rw [valueAtPath]; rfl
  | cons k p => rw [valueAtPath]; rfl

/-- There is nothing to take out of the empty tree. -/
theorem removeValueAtPath_empty :
    (empty : FImmutableTree α).removeValueAtPath stringComparator p = empty := by
  cases p with
  | nil => rw [removeValueAtPath]; rfl
  | cons k p => rw [removeValueAtPath]; rfl

/-- The value further down. -/
theorem valueAtPath_cons (k : String) :
    t.valueAtPath stringComparator (k :: p) =
      (t.childTree stringComparator k).valueAtPath stringComparator p := by
  rw [valueAtPath, childTree]
  cases SortedAssoc.get stringComparator k t.children with
  | none => exact valueAtPath_empty.symm
  | some child => rfl

/-- No branch is without a value. -/
inductive Pruned : FImmutableTree α → Prop
  | tree {value : Option α} {cs : List (String × FImmutableTree α)}
      (nonempty : ∀ c ∈ cs, c.2.isEmpty = false) (sub : ∀ c ∈ cs, Pruned c.2) :
      Pruned (.tree value cs)

/-- The empty tree has no branches at all. -/
theorem Pruned.empty : (empty : FImmutableTree α).Pruned :=
  .tree (fun _ hc => absurd hc List.not_mem_nil) fun _ hc => absurd hc List.not_mem_nil

/-- The children are not empty and pruned. -/
theorem Pruned.of_mem (h : t.Pruned) {c : String × FImmutableTree α} (hc : c ∈ t.children) :
    c.2.isEmpty = false ∧ c.2.Pruned := by
  cases h with
  | tree nonempty sub => exact ⟨nonempty c hc, sub c hc⟩

/-- The child under a key is pruned. -/
theorem Pruned.childTree (h : t.Pruned) (k : String) : (t.childTree stringComparator k).Pruned := by
  rw [FImmutableTree.childTree]
  cases hget : SortedAssoc.get stringComparator k t.children with
  | none => exact .empty
  | some child =>
      obtain ⟨k', hk'⟩ := mem_of_get hget
      exact (h.of_mem hk').2

/-- A child put in. -/
theorem Pruned.insert (h : t.Pruned) {s : FImmutableTree α} (hs : s.Pruned)
    (hne : s.isEmpty = false) (value : Option α) (k : String) :
    (FImmutableTree.tree value (SortedAssoc.insert stringComparator k s t.children)).Pruned := by
  constructor
  · intro c hc
    rcases SortedAssoc.mem_insert hc with rfl | hc
    · exact hne
    · exact (h.of_mem hc).1
  · intro c hc
    rcases SortedAssoc.mem_insert hc with rfl | hc
    · exact hs
    · exact (h.of_mem hc).2

/-- A value set. -/
theorem Pruned.setValue (h : t.Pruned) (v : α) (p : FPath) :
    (t.setValue stringComparator v p).Pruned := by
  induction p generalizing t with
  | nil =>
      rw [setValue_nil]
      exact .tree (fun c hc => (h.of_mem hc).1) fun c hc => (h.of_mem hc).2
  | cons k p ih =>
      rw [setValue_cons]
      exact h.insert (ih (h.childTree k)) (isEmpty_setValue v _ p) t.value k

/-- A value taken out. -/
theorem Pruned.removeValueAtPath (h : t.Pruned) (p : FPath) :
    (t.removeValueAtPath stringComparator p).Pruned := by
  induction p generalizing t with
  | nil =>
      rw [FImmutableTree.removeValueAtPath]
      split_ifs
      · exact .empty
      · exact .tree (fun c hc => (h.of_mem hc).1) fun c hc => (h.of_mem hc).2
  | cons k p ih =>
      rw [FImmutableTree.removeValueAtPath]
      cases hget : SortedAssoc.get stringComparator k t.children with
      | none => exact h
      | some child =>
          obtain ⟨k', hk'⟩ := mem_of_get hget
          have hsub : SortedAssoc.erase stringComparator k t.children ⊆ t.children :=
            (SortedAssoc.erase_sublist k t.children).subset
          dsimp only
          split_ifs with hempty
          · exact .empty
          · exact .tree (fun c hc => (h.of_mem (hsub hc)).1) fun c hc => (h.of_mem (hsub hc)).2
          · exact .empty
          · exact h.insert (ih (h.of_mem hk').2) (Bool.not_eq_true _ ▸ hempty) t.value k

section

variable [Std.TransCmp stringComparator] (hK : DistinctKeys stringComparator K)
  (hWF : t.WF stringComparator K V)

include hK hWF

omit hWF in
/-- The child under a name after an insertion. -/
theorem childTree_insert {k j : String} (hk : K k) (hj : K j) (s : FImmutableTree α)
    (value : Option α) :
    (FImmutableTree.tree value (SortedAssoc.insert stringComparator k s t.children)).childTree
      stringComparator j = if j = k then s else t.childTree stringComparator j := by
  rw [childTree, children, SortedAssoc.get_insert]
  by_cases hjk : j = k
  · rw [if_pos hjk, if_pos (hjk ▸ Std.ReflCmp.compare_self)]
    rfl
  · rw [if_neg hjk, if_neg fun h => hjk (hK.exact j k hj hk h)]
    rfl

/-- **What a value that is set does to the others.** -/
theorem valueAtPath_setValue (v : α) (hp : ∀ k ∈ p, K k) (hq : ∀ k ∈ q, K k) :
    (t.setValue stringComparator v p).valueAtPath stringComparator q =
      if q = p then some v else t.valueAtPath stringComparator q := by
  induction p generalizing t q with
  | nil =>
      rw [setValue_nil]
      cases q with
      | nil => simp [value]
      | cons j q =>
          rw [if_neg (List.cons_ne_nil j q), valueAtPath_cons, valueAtPath_cons]
          rfl
  | cons k p ih =>
      obtain ⟨hk, hp'⟩ := List.forall_mem_cons.1 hp
      rw [setValue_cons]
      cases q with
      | nil =>
          rw [if_neg (List.cons_ne_nil k p).symm, valueAtPath_nil, valueAtPath_nil]
          rfl
      | cons j q =>
          obtain ⟨hj, hq'⟩ := List.forall_mem_cons.1 hq
          rw [valueAtPath_cons, childTree_insert hK hk hj, valueAtPath_cons]
          by_cases hjk : j = k
          · subst hjk
            simp only [if_pos, List.cons.injEq, true_and]
            exact ih (hWF.childTree j) hp' hq'
          · rw [if_neg hjk, if_neg fun h => hjk (List.cons.inj h).1]

/-- The children after a removal below a name. -/
theorem childTree_removeValueAtPath {k j : String} (hk : K k) (hj : K j) (p : FPath) :
    (t.removeValueAtPath stringComparator (k :: p)).childTree stringComparator j =
      if j = k then (t.childTree stringComparator k).removeValueAtPath stringComparator p
      else t.childTree stringComparator j := by
  have hne : j ≠ k → ¬ stringComparator j k = .eq := fun hjk h => hjk (hK.exact j k hj hk h)
  rw [removeValueAtPath]
  cases hget : SortedAssoc.get stringComparator k t.children with
  | none =>
      have hchild : t.childTree stringComparator k = empty := by
        rw [childTree, hget]
        rfl
      split_ifs with hjk
      · rw [hjk, hchild, removeValueAtPath_empty]
      · rfl
  | some child =>
      have hchild : t.childTree stringComparator k = child := by
        rw [childTree, hget]
        rfl
      rw [hchild]
      dsimp only
      cases hempty : (child.removeValueAtPath stringComparator p).isEmpty with
      | true =>
          -- the branch is cut off
          have herase : ∀ value : Option α, (FImmutableTree.tree value
              (SortedAssoc.erase stringComparator k t.children)).childTree stringComparator j =
                if j = k then child.removeValueAtPath stringComparator p
                else t.childTree stringComparator j := by
            intro value
            rw [childTree, children, SortedAssoc.get_erase hWF.sorted_children,
              eq_empty_of_isEmpty hempty]
            by_cases hjk : j = k
            · rw [if_pos hjk, if_pos (hjk ▸ Std.ReflCmp.compare_self)]
              rfl
            · rw [if_neg hjk, if_neg (hne hjk)]
              rfl
          rw [if_pos rfl]
          by_cases hnone : (t.value.isNone &&
              (SortedAssoc.erase stringComparator k t.children).isEmpty) = true
          · rw [if_pos hnone]
            rw [Bool.and_eq_true, List.isEmpty_iff] at hnone
            have hcut := herase none
            rw [hnone.2] at hcut
            exact hcut
          · rw [if_neg hnone]
            exact herase t.value
      | false =>
          rw [if_neg Bool.false_ne_true, List.isEmpty_eq_false_iff.2 SortedAssoc.insert_ne_nil,
            Bool.and_false, if_neg Bool.false_ne_true]
          exact childTree_insert hK hk hj _ t.value

omit [Std.TransCmp stringComparator] hK hWF in
/-- The value at the root stays when one further down is taken out. -/
theorem value_removeValueAtPath_cons (k : String) (p : FPath) :
    (t.removeValueAtPath stringComparator (k :: p)).value = t.value := by
  rw [removeValueAtPath]
  cases SortedAssoc.get stringComparator k t.children with
  | none => rfl
  | some child =>
      dsimp only
      split_ifs with hempty hnone hnone
      · rw [Bool.and_eq_true, Option.isNone_iff_eq_none] at hnone
        exact hnone.1.symm
      · rfl
      · rw [Bool.and_eq_true, Option.isNone_iff_eq_none] at hnone
        exact hnone.1.symm
      · rfl

/-- **What a removal does to the values.** -/
theorem valueAtPath_removeValueAtPath (hp : ∀ k ∈ p, K k) (hq : ∀ k ∈ q, K k) :
    (t.removeValueAtPath stringComparator p).valueAtPath stringComparator q =
      if q = p then none else t.valueAtPath stringComparator q := by
  induction p generalizing t q with
  | nil =>
      rw [removeValueAtPath]
      cases q with
      | nil =>
          rw [valueAtPath_nil, if_pos rfl]
          split_ifs <;> rfl
      | cons j q =>
          rw [if_neg (List.cons_ne_nil j q), valueAtPath_cons, valueAtPath_cons]
          split_ifs with hempty
          · rw [childTree, childTree, List.isEmpty_iff.1 hempty]
            rfl
          · rfl
  | cons k p ih =>
      obtain ⟨hk, hp'⟩ := List.forall_mem_cons.1 hp
      cases q with
      | nil =>
          rw [if_neg (List.cons_ne_nil k p).symm, valueAtPath_nil, valueAtPath_nil]
          exact value_removeValueAtPath_cons k p
      | cons j q =>
          obtain ⟨hj, hq'⟩ := List.forall_mem_cons.1 hq
          rw [valueAtPath_cons, childTree_removeValueAtPath hK hWF hk hj, valueAtPath_cons]
          by_cases hjk : j = k
          · subst hjk
            simp only [if_pos, List.cons.injEq, true_and]
            exact ih (hWF.childTree j) hp' hq'
          · rw [if_neg hjk, if_neg fun h => hjk (List.cons.inj h).1]

/-- **A pruned tree is empty if it has no values.** -/
theorem Pruned.isEmpty_iff (h : t.Pruned) : t.isEmpty = true ↔
    ∀ q, (∀ k ∈ q, K k) → t.valueAtPath stringComparator q = none := by
  constructor
  · intro hempty q _
    rw [eq_empty_of_isEmpty hempty, valueAtPath_empty]
  · intro hnone
    induction hWF with
    | @tree value cs hvalue hsorted hkey hsub ih =>
        have hroot := hnone [] fun _ hk => absurd hk List.not_mem_nil
        rw [valueAtPath_nil] at hroot
        cases cs with
        | nil =>
            rw [isEmpty, hroot]
            rfl
        | cons c cs =>
            -- the first of the children has a value somewhere
            obtain ⟨hne, hc⟩ := h.of_mem List.mem_cons_self
            have hget : SortedAssoc.get stringComparator c.1 (c :: cs) = some c.2 := by
              rw [SortedAssoc.get_eq_lookup hK.exact (hkey c List.mem_cons_self) hsorted hkey]
              exact Assoc.lookup_eq_some_of_mem hsorted.nodup_keys List.mem_cons_self
            rw [ih c List.mem_cons_self hc fun q hq => ?_] at hne
            · cases hne
            · have hq' : ∀ k ∈ c.1 :: q, K k :=
                List.forall_mem_cons.2 ⟨hkey c List.mem_cons_self, hq⟩
              rw [← hnone (c.1 :: q) hq', valueAtPath_cons, FImmutableTree.childTree,
                FImmutableTree.children, hget]
              rfl

end

/-! ### Any number of edits -/

/-- An edit of a tree. -/
inductive Edit (α : Type)
  | setValue (newValue : α) (path : FPath)
  | removeValueAtPath (path : FPath)

namespace Edit

def path : Edit α → FPath
  | .setValue _ path => path
  | .removeValueAtPath path => path

/-- The value that it leaves. -/
def newValue : Edit α → Option α
  | .setValue newValue _ => some newValue
  | .removeValueAtPath _ => none

variable (stringComparator) in
def apply (tree : FImmutableTree α) : Edit α → FImmutableTree α
  | .setValue newValue path => tree.setValue stringComparator newValue path
  | .removeValueAtPath path => tree.removeValueAtPath stringComparator path

end Edit

/-- What the edits leave, as a map. -/
def values (edits : List (Edit α)) : FPath → Option α :=
  edits.foldl (fun values edit => Function.update values edit.path edit.newValue) fun _ => none

/-- **After any edits a tree has the values they leave**, and is empty if they leave none. -/
theorem valueAtPath_foldl_apply [Std.TransCmp stringComparator]
    (hK : DistinctKeys stringComparator K) {edits : List (Edit α)}
    (hedits : ∀ edit ∈ edits, ∀ k ∈ edit.path, K k) :
    (∀ q, (∀ k ∈ q, K k) → (edits.foldl (Edit.apply stringComparator) empty).valueAtPath
        stringComparator q = values edits q) ∧
      ((edits.foldl (Edit.apply stringComparator) empty).isEmpty = true ↔
        ∀ q, (∀ k ∈ q, K k) → values edits q = none) := by
  have hrun : ∀ (t : FImmutableTree α) (map : FPath → Option α),
      t.WF stringComparator K (fun _ => True) → t.Pruned →
      (∀ q, (∀ k ∈ q, K k) → t.valueAtPath stringComparator q = map q) →
      (edits.foldl (Edit.apply stringComparator) t).WF stringComparator K (fun _ => True) ∧
        (edits.foldl (Edit.apply stringComparator) t).Pruned ∧
        ∀ q, (∀ k ∈ q, K k) → (edits.foldl (Edit.apply stringComparator) t).valueAtPath
          stringComparator q = edits.foldl (fun values edit =>
            Function.update values edit.path edit.newValue) map q := by
    induction edits with
    | nil => exact fun t map hWF hpruned hmap => ⟨hWF, hpruned, hmap⟩
    | cons edit edits ih =>
        intro t map hWF hpruned hmap
        obtain ⟨hpath, hrest⟩ := List.forall_mem_cons.1 hedits
        refine ih hrest (edit.apply stringComparator t) _ ?_ ?_ fun q hq => ?_
        · cases edit with
          | setValue newValue path => exact hWF.setValue trivial hpath
          | removeValueAtPath path => exact hWF.removeValueAtPath hpath
        · cases edit with
          | setValue newValue path => exact hpruned.setValue newValue path
          | removeValueAtPath path => exact hpruned.removeValueAtPath path
        · change _ = Function.update map edit.path edit.newValue q
          rw [Function.update_apply, ← hmap q hq]
          cases edit with
          | setValue newValue path => exact valueAtPath_setValue hK hWF newValue hpath hq
          | removeValueAtPath path => exact valueAtPath_removeValueAtPath hK hWF hpath hq
  obtain ⟨hWF, hpruned, hvalues⟩ := hrun empty (fun _ => none) .empty .empty fun q _ =>
    valueAtPath_empty
  refine ⟨hvalues, (hpruned.isEmpty_iff hK hWF).trans ?_⟩
  exact forall₂_congr fun q hq => by rw [hvalues q hq]; rfl

/-- Edits that leave nothing. -/
theorem valueAtPath_foldl_apply_removed :
    (∀ q : FPath, (∀ k ∈ q, isValidKey k = true) →
      ([Edit.setValue true ["a", "b"], .removeValueAtPath ["a", "b"]].foldl (Edit.apply compare)
        empty).valueAtPath compare q =
          values [.setValue true ["a", "b"], .removeValueAtPath ["a", "b"]] q) ∧
    (([Edit.setValue true ["a", "b"], .removeValueAtPath ["a", "b"]].foldl (Edit.apply compare)
      empty).isEmpty = true ↔ ∀ q, (∀ k ∈ q, isValidKey k = true) →
        values [.setValue true ["a", "b"], .removeValueAtPath ["a", "b"]] q = none) :=
  valueAtPath_foldl_apply DistinctKeys.compare (by decide)

end FImmutableTree
end Teamstuff
