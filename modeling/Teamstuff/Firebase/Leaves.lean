/-
# What a node holds

A node as the tree of its leaf values: what is read at each path.  Reading and writing nodes
(`getChild:`, `updateChild:withNewChild:`) are reading and writing the trees
(`Node.sub_leaves`, `Node.leaves_updateChild`), and a well-formed node is determined by its
tree as far as `isEmpty` and `isEqual:` can tell (`Node.WFIn.leaves_eq_empty_iff`,
`Node.WFIn.isEqual_iff`).
-/

import Teamstuff.Firebase.Node
import Teamstuff.Library.LeafTree
import Mathlib.Data.List.Perm.Subperm

namespace Teamstuff
namespace Node

/-- The value of a leaf. -/
def leafValue : Node → Option LeafValue
  | .leaf v => some v
  | .children _ => none

/-- Nothing is read below a leaf. -/
theorem getChild_leaf_cons (v : LeafValue) (k : String) (p : FPath) :
    (leaf v).getChild (k :: p) = empty := by
  rw [getChild_cons]
  exact getChild_empty p

/-- What is read at each path.  Keys that compare the same lead to one child, so the tree has
it once, under the key that is no negative zero. -/
def leaves (n : Node) : LeafTree String LeafValue where
  leaf p := if p.any isNegativeZero then none else (n.getChild p).leafValue
  alone p k q h := by
    split_ifs at h ⊢ with hp hpq
    · exact absurd h Bool.false_ne_true
    · rfl
    · exact absurd h Bool.false_ne_true
    · rw [getChild_append]
      cases hn : n.getChild p with
      | leaf v =>
          rw [getChild_leaf_cons]
          rfl
      | children cs =>
          rw [hn] at h
          exact absurd h Bool.false_ne_true

/-- The leaf at the root. -/
@[simp] theorem root_leaves (n : Node) : n.leaves.root = n.leafValue := by
  change (if [].any isNegativeZero then none else (n.getChild []).leafValue) = _
  rw [getChild_nil]
  rfl

/-- The leaves below a name. -/
theorem child_leaves (n : Node) {k : String} (hk : isNegativeZero k = false) :
    n.leaves.child k = (n.getImmediateChild k).leaves := by
  refine LeafTree.ext_leaf fun p => ?_
  change (if (k :: p).any isNegativeZero then none else (n.getChild (k :: p)).leafValue) = _
  rw [getChild_cons, List.any_cons, hk, Bool.false_or]
  rfl

/-- Negative zeros are left out. -/
theorem child_leaves_of_isNegativeZero (n : Node) {k : String} (hk : isNegativeZero k = true) :
    n.leaves.child k = ∅ := by
  refine LeafTree.ext_leaf fun p => ?_
  change (if (k :: p).any isNegativeZero then none else (n.getChild (k :: p)).leafValue) = _
  rw [List.any_cons, hk, Bool.true_or, if_pos rfl]
  rfl

/-- Trees of nodes are equal if they are under the keys they have children under. -/
theorem leaves_ext {n m : Node} (hroot : n.leafValue = m.leafValue)
    (hchild : ∀ k, isNegativeZero k = false →
      (n.getImmediateChild k).leaves = (m.getImmediateChild k).leaves) : n.leaves = m.leaves := by
  refine LeafTree.ext_child (by rw [root_leaves, root_leaves, hroot]) fun k => ?_
  cases hk : isNegativeZero k with
  | true => rw [child_leaves_of_isNegativeZero n hk, child_leaves_of_isNegativeZero m hk]
  | false => rw [child_leaves n hk, child_leaves m hk, hchild k hk]

/-- **Reading a node.** -/
theorem sub_leaves (n : Node) {p : FPath} (hp : ∀ k ∈ p, isNegativeZero k = false) :
    n.leaves.sub p = (n.getChild p).leaves := by
  induction p generalizing n with
  | nil => rw [LeafTree.sub_nil, getChild_nil]
  | cons k p ih =>
      obtain ⟨hk, hp⟩ := List.forall_mem_cons.1 hp
      rw [LeafTree.sub_cons, child_leaves n hk, ih _ hp, getChild_cons]

/-- The empty node has no leaves. -/
@[simp] theorem leaves_empty : empty.leaves = ∅ :=
  LeafTree.ext_leaf fun p => by
    change (if p.any isNegativeZero then none else (empty.getChild p).leafValue) = none
    rw [getChild_empty]
    exact ite_self none

/-- An empty node has no leaves. -/
theorem leaves_of_isEmpty {n : Node} (h : n.isEmpty = true) : n.leaves = ∅ := by
  rw [eq_empty_of_isEmpty h, leaves_empty]

/-- What holds nothing is the empty node. -/
theorem WFIn.leaves_eq_empty_iff {K : String → Prop} {n : Node} (h : n.WFIn K) :
    n.leaves = ∅ ↔ n.isEmpty = true := by
  refine ⟨fun he => ?_, leaves_of_isEmpty⟩
  induction h with
  | leaf v =>
      have hroot := (LeafTree.eq_empty_iff.1 he).1
      rw [root_leaves] at hroot
      exact nomatch hroot
  | @children cs sorted key nonempty sub ih =>
      cases cs with
      | nil => rfl
      | cons c cs =>
          have hchild := (LeafTree.eq_empty_iff.1 he).2 (slotKey c.1)
          have hget : (Node.children (c :: cs)).getImmediateChild (slotKey c.1) = c.2 :=
            (getImmediateChild_congr _ (compareKey_slotKey c.1)).trans
              ((WFIn.children sorted key nonempty sub).getImmediateChild_of_mem List.mem_cons_self)
          rw [child_leaves _ (isNegativeZero_slotKey c.1), hget] at hchild
          have hempty := ih c List.mem_cons_self hchild
          rw [nonempty c List.mem_cons_self] at hempty
          exact absurd hempty Bool.false_ne_true

/-- A write below a leaf takes its place if it is of something. -/
theorem leafValue_updateChild_cons {n m : Node} (k : String) (p : FPath) :
    (n.updateChild (k :: p) m).leafValue = if m.isEmpty then n.leafValue else none := by
  cases n with
  | leaf v =>
      rw [updateChild]
      by_cases hm : m.isEmpty = true
      · rw [if_pos hm, if_pos hm]
      · have hchild : ¬ (empty.updateChild p m).isEmpty = true := by
          rw [isEmpty_updateChild empty p (Bool.eq_false_iff.2 hm)]
          exact Bool.false_ne_true
        rw [if_neg hm, if_neg hm, updateImmediateChild, if_neg hchild]
        rfl
  | children cs =>
      rw [updateChild, updateImmediateChild]
      split_ifs <;> rfl

open Classical in
/-- **Writing a node.** -/
theorem leaves_updateChild {n m : Node} (hn : n.Valid) (hm : m.Valid) {p : FPath}
    (hp : ∀ k ∈ p, isNegativeZero k = false) :
    (n.updateChild p m).leaves = n.leaves.write p m.leaves := by
  induction p generalizing n with
  | nil => rw [updateChild_nil, LeafTree.write_nil]
  | cons k p ih =>
      obtain ⟨hk, hp⟩ := List.forall_mem_cons.1 hp
      refine LeafTree.ext_child ?_ fun k' => ?_
      · rw [root_leaves, leafValue_updateChild_cons, LeafTree.root_write, root_leaves]
        exact if_congr hm.leaves_eq_empty_iff.symm rfl rfl
      · rw [LeafTree.child_write]
        cases hk' : isNegativeZero k' with
        | true =>
            have hne : k' ≠ k := by
              rintro rfl
              exact nomatch hk.symm.trans hk'
            rw [if_neg hne, child_leaves_of_isNegativeZero _ hk',
              child_leaves_of_isNegativeZero _ hk']
        | false =>
            rw [child_leaves _ hk', getImmediateChild_updateChild k k' p (Or.inr hn),
              child_leaves _ hk, child_leaves _ hk']
            by_cases hkk : k' = k
            · rw [if_pos hkk, if_pos (hkk ▸ Std.ReflCmp.compare_self)]
              exact ih (hn.getImmediateChild k) hp
            · rw [if_neg hkk, if_neg fun h => hkk (eq_of_compareKey hk' hk h)]

/-! ### Several writes -/

/-- Writes made one after the other. -/
def updateAll (self : Node) (writes : List (FPath × Node)) : Node :=
  writes.foldl (fun node write => node.updateChild write.1 write.2) self

/-- **Several writes** are writes of the trees. -/
theorem leaves_updateAll {writes : List (FPath × Node)} {n : Node} (hn : n.WF)
    (hwrites : ∀ write ∈ writes, (∀ k ∈ write.1, isPlainKey k = true) ∧ write.2.WF) :
    (n.updateAll writes).WF ∧ (n.updateAll writes).leaves =
      (writes.map fun write => (write.1, write.2.leaves)).foldl (fun L w => L.write w.1 w.2)
        n.leaves := by
  induction writes generalizing n with
  | nil => exact ⟨hn, rfl⟩
  | cons write writes ih =>
      obtain ⟨hkeys, hnode⟩ := hwrites write List.mem_cons_self
      obtain ⟨hWF, hleaves⟩ := ih (hn.updateChild hnode hkeys) fun w hw =>
        hwrites w (List.mem_cons_of_mem write hw)
      refine ⟨hWF, hleaves.trans ?_⟩
      rw [leaves_updateChild hn.valid hnode.valid fun k hk => isNegativeZero_of_isPlainKey (hkeys k hk)]
      rfl

/-- There is no leaf on the way to a path. -/
def noLeafAbove : Node → FPath → Bool
  | _, [] => true
  | self, k :: path => self.leafValue.isNone && (self.getImmediateChild k).noLeafAbove path

/-- No leaf above a path, in the node and in its leaves. -/
theorem noLeafAbove_iff {n : Node} {p : FPath} (hp : ∀ k ∈ p, isNegativeZero k = false) :
    n.noLeafAbove p = true ↔ n.leaves.NoLeafAbove p := by
  induction p generalizing n with
  | nil => exact iff_of_true rfl trivial
  | cons k p ih =>
      obtain ⟨hk, hp⟩ := List.forall_mem_cons.1 hp
      rw [noLeafAbove, Bool.and_eq_true, ih hp, LeafTree.NoLeafAbove, child_leaves n hk,
        root_leaves, Option.isNone_iff_eq_none]

/-- Where a removal has no leaf above it, the write is clear. -/
theorem WF.clear {n m : Node} (hm : m.WF) {p : FPath}
    (hp : ∀ k ∈ p, isNegativeZero k = false) (h : m.isEmpty = true → n.noLeafAbove p = true) :
    n.leaves.Clear p m.leaves := fun hempty =>
  (noLeafAbove_iff hp).1 (h (hm.leaves_eq_empty_iff.1 hempty))

/-! ### Comparing nodes -/

/-- Every child is found equal in the other node. -/
theorem childrenEqual_iff {cs : List (String × Node)} {other : Node} :
    childrenEqual cs other = true ↔
      ∀ c ∈ cs, c.2.isEqual (other.getImmediateChild c.1) = true := by
  induction cs with
  | nil => simp [childrenEqual]
  | cons d cs ih =>
      obtain ⟨key, node⟩ := d
      rw [childrenEqual, Bool.and_eq_true, ih, List.forall_mem_cons]

/-- The slots the children are in. -/
def slots (n : Node) : List String := n.keys.map slotKey

section Valid

variable {K K' : String → Prop} {n m : Node} {cs otherCs : List (String × Node)}

/-- Nodes with the same leaves are both empty or both not. -/
theorem isEmpty_iff_of_leaves_eq (hn : n.WFIn K) (hm : m.WFIn K') (h : n.leaves = m.leaves) :
    n.isEmpty = m.isEmpty := by
  rw [Bool.eq_iff_iff, ← hn.leaves_eq_empty_iff, ← hm.leaves_eq_empty_iff, h]

/-- A key is the slot of a child that is there. -/
theorem mem_slots_iff (h : n.WFIn K) {k : String} (hk : isNegativeZero k = false) :
    k ∈ n.slots ↔ (n.getImmediateChild k).isEmpty = false := by
  constructor
  · intro hmem
    obtain ⟨key, hkey, rfl⟩ := List.mem_map.1 hmem
    obtain ⟨c, hc, rfl⟩ := List.mem_map.1 hkey
    rw [getImmediateChild_congr n (compareKey_slotKey c.1), h.getImmediateChild_of_mem hc]
    exact h.nonempty_of_mem hc
  · intro hne
    obtain ⟨key, hkey, hmem⟩ := exists_mem_childList hne
    have hslot := compareKey_eq_eq_iff_slotKey.1 hkey
    rw [slotKey_of_not_isNegativeZero hk] at hslot
    exact List.mem_map.2 ⟨key, List.mem_map.2 ⟨_, hmem, rfl⟩, hslot.symm⟩

/-- No two children share a slot. -/
theorem WFIn.nodup_slots (h : n.WFIn K) : n.slots.Nodup := by
  have hkeys : n.keys.Pairwise fun a b => compareKey a b = .lt :=
    List.pairwise_map.2 h.sorted_childList
  refine List.pairwise_map.2 (hkeys.imp fun {a b} hlt hslot => ?_)
  rw [compareKey_eq_eq_iff_slotKey.2 hslot] at hlt
  exact absurd hlt (by decide)

/-- A key of a well-formed node is the name of a child that is there. -/
theorem WF.mem_keys_iff (h : n.WF) {k : String} (hk : isNegativeZero k = false) :
    k ∈ n.keys ↔ (n.getImmediateChild k).isEmpty = false := by
  rw [← mem_slots_iff h hk, slots]
  have hmap : n.keys.map slotKey = n.keys := by
    refine (List.map_congr_left fun key hkey => ?_).trans (List.map_id _)
    obtain ⟨c, hc, rfl⟩ := List.mem_map.1 hkey
    exact slotKey_of_not_isNegativeZero (isNegativeZero_of_isPlainKey (h.key_of_mem hc))
  rw [hmap]

/-- Following the slot of a child leads to it. -/
theorem WFIn.getImmediateChild_slotKey (h : n.WFIn K) {c : String × Node}
    (hc : c ∈ n.childList) : n.getImmediateChild (slotKey c.1) = c.2 :=
  (getImmediateChild_congr n (compareKey_slotKey c.1)).trans (h.getImmediateChild_of_mem hc)

/-- Nodes with the same children, as far as they are compared, hold the same. -/
theorem leaves_eq_of_slots (hn : (Node.children cs).WFIn K) (hm : (Node.children otherCs).WFIn K')
    (hlength : cs.length = otherCs.length)
    (hsame : ∀ c ∈ cs, c.2.leaves = ((Node.children otherCs).getImmediateChild c.1).leaves) :
    (Node.children cs).leaves = (Node.children otherCs).leaves := by
  have hslot : ∀ c ∈ cs, ((Node.children cs).getImmediateChild (slotKey c.1)).leaves =
      ((Node.children otherCs).getImmediateChild (slotKey c.1)).leaves := by
    intro c hc
    rw [hn.getImmediateChild_slotKey hc, hsame c hc,
      getImmediateChild_congr (.children otherCs) (compareKey_slotKey c.1)]
  have hmem : ∀ k ∈ (Node.children cs).slots, ∃ c ∈ cs, slotKey c.1 = k := by
    intro k hk
    obtain ⟨key, hkey, rfl⟩ := List.mem_map.1 hk
    obtain ⟨c, hc, rfl⟩ := List.mem_map.1 hkey
    exact ⟨c, hc, rfl⟩
  -- the slots of the one are slots of the other, and there are equally many
  have hslots : (Node.children cs).slots ⊆ (Node.children otherCs).slots := by
    intro k hk
    obtain ⟨c, hc, rfl⟩ := hmem k hk
    rw [mem_slots_iff hn (isNegativeZero_slotKey c.1)] at hk
    rwa [mem_slots_iff hm (isNegativeZero_slotKey c.1),
      ← isEmpty_iff_of_leaves_eq (hn.getImmediateChild _) (hm.getImmediateChild _) (hslot c hc)]
  have hperm : (Node.children cs).slots.Perm (Node.children otherCs).slots := by
    refine (List.subperm_of_subset hn.nodup_slots hslots).perm_of_length_le ?_
    simp only [slots, keys, childList, List.length_map]
    exact hlength.ge
  refine leaves_ext rfl fun k hzero => ?_
  by_cases hk : k ∈ (Node.children cs).slots
  · obtain ⟨c, hc, rfl⟩ := hmem k hk
    exact hslot c hc
  · have hk' : k ∉ (Node.children otherCs).slots := fun h => hk (hperm.mem_iff.2 h)
    rw [mem_slots_iff hn hzero, Bool.not_eq_false] at hk
    rw [mem_slots_iff hm hzero, Bool.not_eq_false] at hk'
    rw [leaves_of_isEmpty hk, leaves_of_isEmpty hk']

/-- Nodes that hold the same hold the same under each key. -/
theorem leaves_getImmediateChild (h : n.leaves = m.leaves) (k : String) :
    (n.getImmediateChild k).leaves = (m.getImmediateChild k).leaves := by
  rw [← getImmediateChild_congr n (compareKey_slotKey k),
    ← getImmediateChild_congr m (compareKey_slotKey k),
    ← child_leaves n (isNegativeZero_slotKey k), h, child_leaves m (isNegativeZero_slotKey k)]

/-- Nodes that hold the same have equally many children. -/
theorem length_eq_of_leaves_eq (hn : (Node.children cs).WFIn K)
    (hm : (Node.children otherCs).WFIn K')
    (h : (Node.children cs).leaves = (Node.children otherCs).leaves) :
    cs.length = otherCs.length := by
  have hzero : ∀ (n : Node) {k : String}, k ∈ n.slots → isNegativeZero k = false := by
    intro n k hk
    obtain ⟨key, _, rfl⟩ := List.mem_map.1 hk
    exact isNegativeZero_slotKey key
  have hiff : ∀ k, isNegativeZero k = false →
      (k ∈ (Node.children cs).slots ↔ k ∈ (Node.children otherCs).slots) := by
    intro k hk
    rw [mem_slots_iff hn hk, mem_slots_iff hm hk, isEmpty_iff_of_leaves_eq
      (hn.getImmediateChild k) (hm.getImmediateChild k) (leaves_getImmediateChild h k)]
  have hperm := (List.perm_ext_iff_of_nodup hn.nodup_slots hm.nodup_slots).2 fun k =>
    ⟨fun hk => (hiff k (hzero _ hk)).1 hk, fun hk => (hiff k (hzero _ hk)).2 hk⟩
  simpa only [slots, keys, childList, List.length_map] using hperm.length_eq

/-- **Nodes compare equal exactly when they hold the same.**  The comparison counts the
children and looks up those of the one in the other. -/
theorem WFIn.isEqual_iff (hn : n.WFIn K) (hm : m.WFIn K') :
    n.isEqual m = true ↔ n.leaves = m.leaves := by
  have hroot : n.leaves = m.leaves → n.leafValue = m.leafValue := fun h => by
    rw [← root_leaves, h, root_leaves]
  induction hn generalizing m with
  | leaf v =>
      cases m with
      | leaf w =>
          rw [isEqual, decide_eq_true_eq]
          exact ⟨fun h => by rw [h], fun h => Option.some.inj (hroot h)⟩
      | children otherCs =>
          refine ⟨fun h => absurd h Bool.false_ne_true, fun h => ?_⟩
          cases hroot h
  | @children cs sorted key nonempty sub ih =>
      have hn : (Node.children cs).WFIn K := .children sorted key nonempty sub
      cases m with
      | leaf w =>
          refine ⟨fun h => absurd h Bool.false_ne_true, fun h => ?_⟩
          cases hroot h
      | children otherCs =>
          have hchild : ∀ c ∈ cs,
              (c.2.isEqual ((Node.children otherCs).getImmediateChild c.1) = true ↔
                c.2.leaves = ((Node.children otherCs).getImmediateChild c.1).leaves) := fun c hc =>
            ih c hc (hm.getImmediateChild c.1) fun h => by rw [← root_leaves, h, root_leaves]
          rw [isEqual, Bool.and_eq_true, decide_eq_true_eq, childrenEqual_iff]
          constructor
          · rintro ⟨hlength, hequal⟩
            exact leaves_eq_of_slots hn hm hlength fun c hc => (hchild c hc).1 (hequal c hc)
          · intro h
            refine ⟨length_eq_of_leaves_eq hn hm h, fun c hc => (hchild c hc).2 ?_⟩
            rw [← leaves_getImmediateChild h, hn.getImmediateChild_of_mem hc]

end Valid

/-- A path read through the slots of its keys. -/
theorem getChild_map_slotKey (n : Node) (p : FPath) : n.getChild (p.map slotKey) = n.getChild p := by
  induction p generalizing n with
  | nil => rfl
  | cons k p ih =>
      rw [List.map_cons, getChild_cons, getChild_cons, ih,
        getImmediateChild_congr n (compareKey_slotKey k)]

/-- **Nodes that compare equal** are those that read the same at every path. -/
theorem isEqual_iff_leafValue {n m : Node} (hn : n.Valid) (hm : m.Valid) :
    n.isEqual m = true ↔ ∀ p : FPath, (n.getChild p).leafValue = (m.getChild p).leafValue := by
  rw [hn.isEqual_iff hm]
  constructor
  · intro h p
    have hzero : (p.map slotKey).any isNegativeZero = false := by
      rw [List.any_map, List.any_eq_false]
      intro k _
      rw [Function.comp_apply, isNegativeZero_slotKey]
      exact Bool.false_ne_true
    have hleaf := congrArg (fun L => L.leaf (p.map slotKey)) h
    simp only [leaves, hzero, Bool.false_eq_true, if_false, getChild_map_slotKey] at hleaf
    exact hleaf
  · intro h
    refine LeafTree.ext_leaf fun p => ?_
    simp only [leaves, h p]

/-- One child under `00` and one under `-0` are the same child. -/
theorem isEqual_iff_leafValue_zero :
    ((empty.updateChild ["00", "x"] (leaf (.bool true))).isEqual
        (empty.updateChild ["-0", "x"] (leaf (.bool true))) = true ∧
      ∀ p : FPath, ((empty.updateChild ["00", "x"] (leaf (.bool true))).getChild p).leafValue =
        ((empty.updateChild ["-0", "x"] (leaf (.bool true))).getChild p).leafValue) ∧
    (empty.updateChild ["00", "x"] (leaf (.bool true))).isEqual
      (empty.updateChild ["-0", "x"] (leaf (.bool false))) = false := by
  have hvalid : ∀ (key : String) (b : Bool), isValidKey key = true →
      (empty.updateChild [key, "x"] (leaf (.bool b))).Valid := by
    intro key b hkey
    refine WFIn.empty.updateChild (.leaf _) fun k hk => ?_
    rcases List.mem_cons.1 hk with rfl | hk
    · exact hkey
    · rw [List.mem_singleton.1 hk]
      decide
  have hequal : (empty.updateChild ["00", "x"] (leaf (.bool true))).isEqual
      (empty.updateChild ["-0", "x"] (leaf (.bool true))) = true := by decide +kernel
  exact ⟨⟨hequal, (isEqual_iff_leafValue (hvalid "00" true (by decide))
    (hvalid "-0" true (by decide))).1 hequal⟩, by decide +kernel⟩

end Node
end Teamstuff
