/-
# The database tree

`FLeafNode.m`, `FChildrenNode.m`, `FEmptyNode.m`, `FSnapshotUtilities.m` and
`FUtilities.m` of the vendored `FirebaseDatabase`.

A node is a leaf value or a dictionary of named children in the order of
`keyComparator`; the empty node is the dictionary without children and stands
for "nothing here".  The dictionary finds, replaces and removes a child by the
comparator, so a key that compares the same as another leads to its child.
`setValue:` turns a Foundation value into a node (`nodeFrom`), dropping nulls
and empty dictionaries on the way, and `snapshot.value` turns a node back
(`val`), returning a node whose keys are small integers as an array.  A write
replaces the node at a path (`updateChild`); a read follows a path down
(`getChild`).

Priorities are not modelled: the app sets none, and `nodeFrom` rejects here the
metadata keys `.priority`, `.value` and `.sv` along with the other keys that
start with a dot.

The lemmas say that a read under a written path reads the written node
(`getChild_updateChild_append`) and that a read on another branch is unaffected
(`getChild_updateChild_of_ne`).
-/

import Teamstuff.Firebase.KeyOrder
import Mathlib.Data.Rat.Defs
import Mathlib.Algebra.Order.Ring.Rat
import Teamstuff.Library.SortedAssoc

namespace Teamstuff

/-- What a leaf holds.  An `NSNumber` made from a boolean is told apart from
the other numbers. -/
inductive LeafValue
  | bool (b : Bool)
  | number (n : ℚ)
  | string (s : String)
deriving DecidableEq, Repr

/-- A Foundation value, as `setValue:` takes it and `snapshot.value` returns it. -/
inductive Value
  | null
  | leaf (v : LeafValue)
  | array (vs : List Value)
  | dict (fields : List (String × Value))

/-- `FLeafNode` and `FChildrenNode`. -/
inductive Node
  | leaf (value : LeafValue)
  | children (cs : List (String × Node))

/-! ### The dictionary of the children -/

/-- `FImmutableSortedDictionary setObject:forKey:`.  The new key takes the place of one that
compares the same. -/
def insertChild (key : String) (n : Node) (cs : List (String × Node)) : List (String × Node) :=
  SortedAssoc.insert compareKey key n cs

/-- `FImmutableSortedDictionary removeObjectForKey:`. -/
def removeChild (key : String) (cs : List (String × Node)) : List (String × Node) :=
  SortedAssoc.erase compareKey key cs

/-! ### Reading and writing nodes -/

namespace Node

/-- `FEmptyNode emptyNode`. -/
def empty : Node := .children []

/-- `isEmpty`; a leaf never is. -/
def isEmpty : Node → Bool
  | .leaf _ => false
  | .children cs => cs.isEmpty

/-- The named children, in key order (`childEnumerator`); a leaf has none. -/
def childList : Node → List (String × Node)
  | .leaf _ => []
  | .children cs => cs

/-- `getImmediateChild:`. -/
def getImmediateChild : Node → String → Node
  | .leaf _, _ => empty
  | .children cs, childName => (SortedAssoc.get compareKey childName cs).getD empty

/-- `getChild:`. -/
def getChild (n : Node) : FPath → Node
  | [] => n
  | front :: rest => (n.getImmediateChild front).getChild rest

/-- `updateImmediateChild:withNewChild:`. -/
def updateImmediateChild : Node → String → Node → Node
  | .leaf v, childName, newChild =>
      if newChild.isEmpty then .leaf v else .children [(childName, newChild)]
  | .children cs, childName, newChild =>
      .children (if newChild.isEmpty then removeChild childName cs
        else insertChild childName newChild cs)

/-- `updateChild:withNewChild:`. -/
def updateChild (n : Node) : FPath → Node → Node
  | [], newChild => newChild
  | front :: rest, newChild =>
      match n with
      | .leaf v =>
          if newChild.isEmpty then .leaf v
          else (leaf v).updateImmediateChild front (empty.updateChild rest newChild)
      | .children cs =>
          (children cs).updateImmediateChild front
            (((children cs).getImmediateChild front).updateChild rest newChild)

/-- Only the empty node is empty. -/
theorem eq_empty_of_isEmpty {n : Node} (h : n.isEmpty = true) : n = empty := by
  cases n with
  | leaf v => exact absurd h (by simp [isEmpty])
  | children cs => rw [List.isEmpty_iff.1 h]; rfl

@[simp] theorem isEmpty_empty : empty.isEmpty = true := rfl
@[simp] theorem childList_empty : empty.childList = [] := rfl

/-- The empty node has only empty children. -/
@[simp] theorem getImmediateChild_empty (k : String) : empty.getImmediateChild k = empty := rfl

/-- Reading at the root. -/
@[simp] theorem getChild_nil (n : Node) : n.getChild [] = n := by rw [getChild]

/-- Reading below a name. -/
theorem getChild_cons (n : Node) (k : String) (p : FPath) :
    n.getChild (k :: p) = (n.getImmediateChild k).getChild p := by rw [getChild]

/-- Reading in two steps. -/
theorem getChild_append (n : Node) (p q : FPath) :
    n.getChild (p ++ q) = (n.getChild p).getChild q := by
  induction p generalizing n with
  | nil => rw [List.nil_append, getChild_nil]
  | cons k p ih => rw [List.cons_append, getChild_cons, getChild_cons, ih]

/-- Nothing is read in the empty node. -/
@[simp] theorem getChild_empty (p : FPath) : empty.getChild p = empty := by
  induction p with
  | nil => exact getChild_nil empty
  | cons k p ih => rw [getChild_cons, getImmediateChild_empty, ih]

/-- The child of just this name. -/
def childNamed (n : Node) (name : String) : Option Node := n.childList.lookup name

/-- Keys that compare the same lead to one child. -/
theorem getImmediateChild_congr (n : Node) {k k' : String} (h : compareKey k k' = .eq) :
    n.getImmediateChild k = n.getImmediateChild k' := by
  cases n with
  | leaf v => rfl
  | children cs => rw [getImmediateChild, getImmediateChild, SortedAssoc.get_congr h]

/-- Names that compare the same read the same. -/
theorem getChild_congr {n : Node} (p : FPath) {k k' : String} (h : compareKey k k' = .eq)
    (q : FPath) : n.getChild (p ++ k :: q) = n.getChild (p ++ k' :: q) := by
  rw [getChild_append, getChild_cons, getImmediateChild_congr _ h, getChild_append, getChild_cons]

/-- A child that is there is in the list of children, under a key that compares the same. -/
theorem exists_mem_childList {n : Node} {k : String}
    (h : (n.getImmediateChild k).isEmpty = false) :
    ∃ k', compareKey k k' = .eq ∧ (k', n.getImmediateChild k) ∈ n.childList := by
  cases n with
  | leaf v => exact nomatch h
  | children cs =>
      rw [getImmediateChild] at h ⊢
      cases hget : SortedAssoc.get compareKey k cs with
      | none =>
          rw [hget] at h
          exact nomatch h
      | some m => exact SortedAssoc.mem_of_get hget

/-- The names of the children. -/
def keys (n : Node) : List String := n.childList.map Prod.fst

/-! ### The invariant of the tree -/

/-- The invariant of a node: the children are in order, no two of them compare the same,
every name is a key in `K` and no child is empty. -/
inductive WFIn (K : String → Prop) : Node → Prop
  | leaf (v : LeafValue) : WFIn K (.leaf v)
  | children {cs : List (String × Node)} (sorted : SortedAssoc.Sorted compareKey cs)
      (key : ∀ c ∈ cs, K c.1) (nonempty : ∀ c ∈ cs, c.2.isEmpty = false)
      (sub : ∀ c ∈ cs, WFIn K c.2) : WFIn K (.children cs)

/-- The database invariant: a node with valid keys. -/
abbrev Valid (n : Node) : Prop := n.WFIn fun key => isValidKey key = true

/-- A node with keys that no other plain key compares the same as. -/
abbrev WF (n : Node) : Prop := n.WFIn fun key => isPlainKey key = true

namespace WFIn

variable {K K' : String → Prop} {n m : Node} {k : String} {c : String × Node}

theorem empty : empty.WFIn K :=
  .children .nil (fun _ h => absurd h List.not_mem_nil) (fun _ h => absurd h List.not_mem_nil)
    fun _ h => absurd h List.not_mem_nil

/-- With more keys. -/
theorem mono (h : n.WFIn K) (hK : ∀ key, K key → K' key) : n.WFIn K' := by
  induction h with
  | leaf v => exact .leaf v
  | children sorted key nonempty _ ih =>
      exact .children sorted (fun c hc => hK c.1 (key c hc)) nonempty ih

/-- The children are in order. -/
theorem sorted_childList (h : n.WFIn K) : SortedAssoc.Sorted compareKey n.childList := by
  cases h with
  | leaf v => exact .nil
  | children sorted _ _ _ => exact sorted

/-- The names of the children are keys. -/
theorem key_of_mem (h : n.WFIn K) (hc : c ∈ n.childList) : K c.1 := by
  cases h with
  | leaf v => exact absurd hc List.not_mem_nil
  | children _ key _ _ => exact key c hc

/-- No child is empty. -/
theorem nonempty_of_mem (h : n.WFIn K) (hc : c ∈ n.childList) : c.2.isEmpty = false := by
  cases h with
  | leaf v => exact absurd hc List.not_mem_nil
  | children _ _ nonempty _ => exact nonempty c hc

/-- The children keep the invariant. -/
theorem of_mem_childList (h : n.WFIn K) (hc : c ∈ n.childList) : c.2.WFIn K := by
  cases h with
  | leaf v => exact absurd hc List.not_mem_nil
  | children _ _ _ sub => exact sub c hc

/-- No two children have one name. -/
theorem nodup_keys (h : n.WFIn K) : (n.childList.map Prod.fst).Nodup :=
  h.sorted_childList.nodup_keys

/-- A child is there if it is the one of that name. -/
theorem mem_childList_iff (h : n.WFIn K) : (k, m) ∈ n.childList ↔ n.childNamed k = some m :=
  ⟨Assoc.lookup_eq_some_of_mem h.nodup_keys, Assoc.mem_of_lookup⟩

/-- Following the name of a child leads to it. -/
theorem getImmediateChild_of_mem (h : n.WFIn K) (hc : c ∈ n.childList) :
    n.getImmediateChild c.1 = c.2 := by
  cases h with
  | leaf v => exact absurd hc List.not_mem_nil
  | children sorted _ _ _ => rw [Node.getImmediateChild, sorted.get_of_mem hc, Option.getD_some]

/-- A key that is no integer leads to the child of that name. -/
theorem getImmediateChild_of_none (h : n.WFIn K) (hk : tryParseStringToInt k = none) :
    n.getImmediateChild k = (n.childNamed k).getD .empty := by
  cases n with
  | leaf v => rfl
  | children cs =>
      have hget : SortedAssoc.get compareKey k cs = cs.lookup k :=
        h.sorted_childList.get_eq_lookup fun c _ => (compareKey_eq_eq_iff_of_none hk).1
      rw [Node.getImmediateChild, hget]
      rfl

/-- A child keeps the invariant. -/
theorem getImmediateChild (h : n.WFIn K) (k : String) : (n.getImmediateChild k).WFIn K := by
  cases hempty : (n.getImmediateChild k).isEmpty with
  | true =>
      rw [eq_empty_of_isEmpty hempty]
      exact .empty
  | false =>
      obtain ⟨k', _, hmem⟩ := exists_mem_childList hempty
      exact h.of_mem_childList hmem

/-- So does what is read at a path. -/
theorem getChild (h : n.WFIn K) (p : FPath) : (n.getChild p).WFIn K := by
  induction p generalizing n with
  | nil => rwa [getChild_nil]
  | cons k p ih =>
      rw [getChild_cons]
      exact ih (h.getImmediateChild k)

/-- A child is set. -/
theorem updateImmediateChild (h : n.WFIn K) (hm : m.WFIn K) (hk : K k) :
    (n.updateImmediateChild k m).WFIn K := by
  cases h with
  | leaf v =>
      rw [Node.updateImmediateChild]
      split_ifs with hempty
      · exact .leaf v
      · rw [Bool.not_eq_true] at hempty
        refine .children (List.pairwise_singleton _ _) ?_ ?_ ?_ <;>
          · intro c hc
            obtain rfl := List.mem_singleton.1 hc
            assumption
  | @children cs sorted key nonempty sub =>
      rw [Node.updateImmediateChild]
      split_ifs with hempty
      · have hsub : SortedAssoc.erase compareKey k cs ⊆ cs :=
          (SortedAssoc.erase_sublist k cs).subset
        exact .children (sorted.erase k) (fun c hc => key c (hsub hc))
          (fun c hc => nonempty c (hsub hc)) fun c hc => sub c (hsub hc)
      · rw [Bool.not_eq_true] at hempty
        refine .children (sorted.insert k m) ?_ ?_ ?_ <;>
          · intro c hc
            rcases SortedAssoc.mem_insert hc with rfl | hc
            · assumption
            · first | exact key c hc | exact nonempty c hc | exact sub c hc

/-- **Writing a node under keys in `K` keeps the invariant.** -/
theorem updateChild {p : FPath} (h : n.WFIn K) (hm : m.WFIn K) (hp : ∀ k ∈ p, K k) :
    (n.updateChild p m).WFIn K := by
  induction p generalizing n with
  | nil => rwa [Node.updateChild]
  | cons k p ih =>
      have hk : K k := hp k List.mem_cons_self
      have ih' := fun n hn => @ih n hn fun k hk => hp k (List.mem_cons_of_mem _ hk)
      cases n with
      | leaf v =>
          rw [Node.updateChild]
          split_ifs
          · exact h
          · exact h.updateImmediateChild (ih' _ .empty) hk
      | children cs =>
          rw [Node.updateChild]
          exact h.updateImmediateChild (ih' _ (h.getImmediateChild k)) hk

end WFIn

/-- Plain keys are valid. -/
theorem WF.valid {n : Node} (h : n.WF) : n.Valid := h.mono fun _ hkey => isValidKey_of_isPlainKey hkey

/-! ### What a write does to a read -/

/-- Writing at the root replaces the node. -/
theorem updateChild_nil (n m : Node) : n.updateChild [] m = m := by rw [updateChild]

/-- A node with a child is not empty. -/
theorem isEmpty_updateImmediateChild {m : Node} (n : Node) (k : String) (hm : m.isEmpty = false) :
    (n.updateImmediateChild k m).isEmpty = false := by
  have hm' : ¬ m.isEmpty = true := by rw [hm]; exact Bool.false_ne_true
  cases n with
  | leaf v => rw [updateImmediateChild, if_neg hm']; rfl
  | children cs =>
      rw [updateImmediateChild, if_neg hm']
      exact List.isEmpty_eq_false_iff.2 SortedAssoc.insert_ne_nil

/-- Writing something leaves something. -/
theorem isEmpty_updateChild {m : Node} (n : Node) (p : FPath) (hm : m.isEmpty = false) :
    (n.updateChild p m).isEmpty = false := by
  induction p generalizing n with
  | nil => rwa [updateChild_nil]
  | cons k p ih =>
      cases n with
      | leaf v =>
          rw [updateChild, hm, if_neg Bool.false_ne_true]
          exact isEmpty_updateImmediateChild _ k (ih _)
      | children cs =>
          rw [updateChild]
          exact isEmpty_updateImmediateChild _ k (ih _)

/-- A child that is put in needs no order of the others, one that is taken out does. -/
theorem getImmediateChild_updateImmediateChild {n m : Node} (k k' : String)
    (h : m.isEmpty = false ∨ n.Valid) :
    (n.updateImmediateChild k m).getImmediateChild k' =
      if compareKey k' k = .eq then m else n.getImmediateChild k' := by
  cases hm : m.isEmpty with
  | true =>
      have hvalid := h.resolve_left fun hfalse => nomatch hm.symm.trans hfalse
      obtain rfl := eq_empty_of_isEmpty hm
      cases n with
      | leaf v => simp [updateImmediateChild, getImmediateChild]
      | children cs =>
          have herase := SortedAssoc.get_erase hvalid.sorted_childList k k'
          rw [childList] at herase
          rw [updateImmediateChild, if_pos hm, getImmediateChild, removeChild, herase]
          split_ifs <;> rfl
  | false =>
      have hm' : ¬ m.isEmpty = true := by rw [hm]; exact Bool.false_ne_true
      cases n with
      | leaf v =>
          simp only [updateImmediateChild, if_neg hm', getImmediateChild, SortedAssoc.get]
          cases compareKey k' k <;> rfl
      | children cs =>
          rw [updateImmediateChild, if_neg hm', getImmediateChild, insertChild,
            SortedAssoc.get_insert]
          split_ifs <;> rfl

/-- Writing nothing into nothing leaves nothing. -/
theorem updateChild_empty_empty (p : FPath) : empty.updateChild p empty = empty := by
  induction p with
  | nil => exact updateChild_nil empty empty
  | cons k p ih =>
      rw [empty, updateChild]
      change updateImmediateChild empty k (updateChild empty p empty) = empty
      rw [ih]
      rfl

/-- A write below `k`, seen at a key that compares the same. -/
theorem getImmediateChild_updateChild {n m : Node} (k k' : String) (p : FPath)
    (h : m.isEmpty = false ∨ n.Valid) :
    (n.updateChild (k :: p) m).getImmediateChild k' =
      if compareKey k' k = .eq then (n.getImmediateChild k).updateChild p m
      else n.getImmediateChild k' := by
  cases n with
  | leaf v =>
      rw [updateChild]
      by_cases hm : m.isEmpty = true
      · rw [if_pos hm, eq_empty_of_isEmpty hm]
        split_ifs
        · exact (updateChild_empty_empty p).symm
        · rfl
      · have hchild := isEmpty_updateChild empty p (Bool.eq_false_iff.2 hm)
        rw [if_neg hm, getImmediateChild_updateImmediateChild k k' (Or.inl hchild)]
        rfl
  | children cs =>
      rw [updateChild, getImmediateChild_updateImmediateChild k k']
      exact h.imp_left fun hm => isEmpty_updateChild _ p hm

/-- **A read below a write.**  Reading `p` after a write at `p ++ q` reads the
write at `q` applied to what `p` held. -/
theorem getChild_updateChild_append {n m : Node} (p q : FPath) (h : m.isEmpty = false ∨ n.Valid) :
    (n.updateChild (p ++ q) m).getChild p = (n.getChild p).updateChild q m := by
  induction p generalizing n with
  | nil => rw [List.nil_append, getChild_nil, getChild_nil]
  | cons k p ih =>
      rw [List.cons_append, getChild_cons, getImmediateChild_updateChild k k (p ++ q) h,
        if_pos Std.ReflCmp.compare_self, ih (h.imp_right fun h => h.getImmediateChild k),
        getChild_cons]

/-- A read of the written path itself. -/
theorem getChild_updateChild {n m : Node} (p : FPath) (h : m.isEmpty = false ∨ n.Valid) :
    (n.updateChild p m).getChild p = m := by
  have happend := getChild_updateChild_append p [] h
  rwa [List.append_nil, updateChild_nil] at happend

/-- **A read on another branch.**  A write at `p ++ a :: q` does not change what
is read at `p ++ b :: r` for a key `b` that does not compare the same as `a`. -/
theorem getChild_updateChild_of_ne {n m : Node} (p : FPath) {a b : String}
    (hne : compareKey b a ≠ .eq) (q r : FPath) (h : m.isEmpty = false ∨ n.Valid) :
    (n.updateChild (p ++ a :: q) m).getChild (p ++ b :: r) = n.getChild (p ++ b :: r) := by
  rw [getChild_append, getChild_updateChild_append p (a :: q) h, getChild_cons,
    getImmediateChild_updateChild a b q (h.imp_right fun h => h.getChild p), if_neg hne,
    getChild_append, getChild_cons]

/-! ### What a write does to the children -/

/-- A child is the one that was set, or was there before. -/
theorem mem_childList_updateImmediateChild {n m : Node} {k : String} {c : String × Node}
    (h : c ∈ (n.updateImmediateChild k m).childList) : c = (k, m) ∨ c ∈ n.childList := by
  cases n with
  | leaf v =>
      simp only [updateImmediateChild] at h
      split_ifs at h
      · exact absurd h List.not_mem_nil
      · exact Or.inl (List.mem_singleton.1 h)
  | children cs =>
      simp only [updateImmediateChild, childList] at h
      split_ifs at h
      · exact Or.inr ((SortedAssoc.erase_sublist k cs).subset h)
      · exact SortedAssoc.mem_insert h

/-- Writing the child `k` adds no child of another name. -/
theorem mem_childList_updateChild {n m : Node} {k : String} {c : String × Node}
    (h : c ∈ (n.updateChild [k] m).childList) : c = (k, m) ∨ c ∈ n.childList := by
  cases n with
  | leaf v =>
      rw [updateChild] at h
      split_ifs at h
      · exact absurd h List.not_mem_nil
      · rw [updateChild_nil] at h
        exact mem_childList_updateImmediateChild h
  | children cs =>
      rw [updateChild, updateChild_nil] at h
      exact mem_childList_updateImmediateChild h

/-- **Writing a child whose key is no integer takes no other child away.** -/
theorem mem_keys_updateChild {n m : Node} {key k : String} (hm : m.isEmpty = false)
    (hkey : tryParseStringToInt key = none) :
    k ∈ (n.updateChild [key] m).keys ↔ k = key ∨ k ∈ n.keys := by
  have hm' : ¬ m.isEmpty = true := by rw [hm]; exact Bool.false_ne_true
  cases n with
  | leaf v =>
      rw [updateChild, if_neg hm', updateChild_nil]
      simp only [updateImmediateChild, if_neg hm', keys, childList, List.map_cons, List.map_nil,
        List.mem_singleton, List.not_mem_nil, or_false]
  | children cs =>
      rw [updateChild, updateChild_nil]
      simp only [updateImmediateChild, if_neg hm', keys, childList, List.mem_map]
      constructor
      · rintro ⟨c, hc, rfl⟩
        exact (SortedAssoc.mem_insert hc).imp (congrArg Prod.fst) fun hc => ⟨c, hc, rfl⟩
      · rintro (rfl | ⟨c, hc, rfl⟩)
        · exact ⟨_, SortedAssoc.mem_insert_self _ m cs, rfl⟩
        · by_cases hsame : compareKey key c.1 = .eq
          · obtain rfl := (compareKey_eq_eq_iff_of_none hkey).1 hsame
            exact ⟨_, SortedAssoc.mem_insert_self _ m cs, rfl⟩
          · exact ⟨c, SortedAssoc.mem_insert_of_ne hc hsame m, rfl⟩

/-- The children after a child has been put in. -/
theorem mem_childList_updateChild_iff {n m : Node} {k : String} (h : n.Valid)
    (hm : m.isEmpty = false) {c : String × Node} :
    c ∈ (n.updateChild [k] m).childList ↔
      c = (k, m) ∨ c ∈ n.childList ∧ compareKey k c.1 ≠ .eq := by
  have hm' : ¬ m.isEmpty = true := by rw [hm]; exact Bool.false_ne_true
  cases n with
  | leaf v =>
      rw [updateChild, if_neg hm', updateChild_nil]
      simp only [updateImmediateChild, if_neg hm', childList, List.mem_singleton,
        List.not_mem_nil, false_and, or_false]
  | children cs =>
      rw [updateChild, updateChild_nil]
      simp only [updateImmediateChild, if_neg hm', childList]
      exact h.sorted_childList.mem_insert_iff

/-! ### Comparing nodes -/

mutual

/-- `isEqual:`. -/
def isEqual : Node → Node → Bool
  | .leaf value, .leaf otherValue => value = otherValue
  | .leaf _, .children _ => false
  | .children _, .leaf _ => false
  | .children cs, .children otherCs =>
      cs.length = otherCs.length && childrenEqual cs (.children otherCs)

/-- The enumeration of the children in it. -/
def childrenEqual : List (String × Node) → Node → Bool
  | [], _ => true
  | (key, node) :: cs, other => node.isEqual (other.getImmediateChild key) && childrenEqual cs other

end

/-- Of equal children each is found equal in the other node. -/
theorem isEqual_of_childrenEqual {cs : List (String × Node)} {other : Node}
    (h : childrenEqual cs other = true) {c : String × Node} (hc : c ∈ cs) :
    c.2.isEqual (other.getImmediateChild c.1) = true := by
  induction cs with
  | nil => exact absurd hc List.not_mem_nil
  | cons d cs ih =>
      obtain ⟨key, node⟩ := d
      rw [childrenEqual, Bool.and_eq_true] at h
      rcases List.mem_cons.1 hc with rfl | hc
      · exact h.1
      · exact ih h.2 hc

/-- A leaf of one of two nodes that compare equal is a leaf of the other, where its key is no
integer. -/
theorem lookup_of_isEqual {cs : List (String × Node)} {other : Node}
    (h : (Node.children cs).isEqual other = true) {key : String} {v : LeafValue}
    (hkey : tryParseStringToInt key = none) (hlookup : cs.lookup key = some (.leaf v)) :
    ∃ otherCs, other = .children otherCs ∧ otherCs.lookup key = some (.leaf v) := by
  cases other with
  | leaf w => exact nomatch h
  | children otherCs =>
      rw [isEqual, Bool.and_eq_true] at h
      have hchild := isEqual_of_childrenEqual h.2 (Assoc.mem_of_lookup hlookup)
      refine ⟨otherCs, rfl, ?_⟩
      rw [getImmediateChild] at hchild
      cases hfound : SortedAssoc.get compareKey key otherCs with
      | none =>
          rw [hfound, Option.getD_none] at hchild
          exact nomatch hchild
      | some n =>
          rw [hfound, Option.getD_some] at hchild
          cases n with
          | leaf w =>
              rw [isEqual, decide_eq_true_eq] at hchild
              rw [hchild]
              exact SortedAssoc.lookup_of_get_eq_some
                (fun _ => (compareKey_eq_eq_iff_of_none hkey).1) hfound
          | children _ => exact nomatch hchild

end Node
end Teamstuff
