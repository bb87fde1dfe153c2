/-
# Compound writes

`FCompoundWrite.m`: writes that have not been made yet, kept in an `FImmutableTree` whose
values are the nodes to be written.  A value has no children, since a write replaces all
that is below it; here this is a field of the structure.

The meaning of a compound write is a patch (`FCompoundWrite.patch`): `addWrite:atPath:` adds
a write to it (`patch_addWrite`), `removeWriteAtPath:` takes out what is at a path and below
(`patch_removeWriteAtPath`), `childCompoundWriteAtPath:` and `completeNodeAtPath:` are what
the patch does at a path (`patch_childCompoundWriteAtPath`, `completeNodeAtPath_eq`), and
`applyToNode:` lays the patch over what the node holds (`leaves_applyToNode`).

Priorities are not modelled (`Teamstuff.Firebase.Node`), so neither is the branch of
`applySubtreeWrite:` for the key `.priority`.
-/

import Teamstuff.Firebase.ImmutableTree
import Teamstuff.Firebase.Leaves
import Teamstuff.Library.Patch

namespace Teamstuff

/-! ### Keys of nodes and of trees -/

/-- Keys that the comparator of the nodes tells apart. -/
def PlainKeys (K : String → Prop) : Prop := ∀ k, K k → isPlainKey k = true

/-- Keys that both comparators tell apart, that of the trees and that of the nodes. -/
structure NodeKeys (stringComparator : NSComparator) (K : String → Prop) : Prop where
  exact : SortedAssoc.Exact stringComparator K
  plain : PlainKeys K

section

variable {stringComparator : NSComparator} {K : String → Prop}

/-- Plain keys are valid. -/
theorem PlainKeys.valid (hK : PlainKeys K) : ValidKeys K := fun k hk =>
  isValidKey_of_isPlainKey (hK k hk)

/-- No name in the path is a negative zero. -/
theorem PlainKeys.notZero (hK : PlainKeys K) {p : FPath} (hp : ∀ k ∈ p, K k) :
    ∀ k ∈ p, isNegativeZero k = false := fun k hk => isNegativeZero_of_isPlainKey (hK k (hp k hk))

/-- The names in the path are plain keys. -/
theorem PlainKeys.of_mem (hK : PlainKeys K) {p : FPath} (hp : ∀ k ∈ p, K k) :
    ∀ k ∈ p, isPlainKey k = true := fun k hk => hK k (hp k hk)

/-- The comparator of the trees tells them apart. -/
theorem NodeKeys.distinct (hK : NodeKeys stringComparator K) : DistinctKeys stringComparator K :=
  ⟨hK.exact, hK.plain.valid⟩

end

/-- A literal comparison tells all keys apart. -/
theorem NodeKeys.compare : NodeKeys compare fun k => isPlainKey k = true :=
  ⟨fun _ _ _ _ h => Std.LawfulEqCmp.eq_of_compare h, fun _ hk => hk⟩

/-- `FCompoundWrite`. -/
structure FCompoundWrite where
  writeTree : FImmutableTree Node
  alone : writeTree.Alone

/-! ### What a tree of nodes writes -/

namespace FImmutableTree

/-- What is put at a path, unless something is put above. -/
def leavesAt : FImmutableTree Node → FPath → Option (LeafTree String LeafValue)
  | self, [] => self.value.map Node.leaves
  | self, front :: rest =>
      match self.value with
      | some _ => none
      | none =>
          match self.children.lookup front with
          | some child => leavesAt child rest
          | none => none

/-- The meaning of a tree of nodes. -/
def patch (t : FImmutableTree Node) : LeafTree.Patch String LeafValue where
  leaf := t.leavesAt
  alone p k q h := by
    induction p generalizing t with
    | nil =>
        rw [leavesAt, Option.isSome_map] at h
        obtain ⟨v, hv⟩ := Option.isSome_iff_exists.1 h
        rw [List.nil_append, leavesAt, hv]
    | cons j p ih =>
        rw [List.cons_append, leavesAt]
        rw [leavesAt] at h
        cases hv : t.value with
        | some v => rfl
        | none =>
            rw [hv] at h
            cases hj : t.children.lookup j with
            | none => rfl
            | some child =>
                rw [hj] at h
                exact ih child h

/-- What is put at the root is the value there. -/
theorem root_patch (t : FImmutableTree Node) : t.patch.root = t.value.map Node.leaves := by
  change t.leavesAt [] = _
  rw [leavesAt]

/-- A tree with a value at the root puts that. -/
theorem patch_of_value {t : FImmutableTree Node} {v : Node} (h : t.value = some v) :
    t.patch = LeafTree.single v.leaves :=
  LeafTree.eq_single (by rw [root_patch, h]; rfl)

/-- The empty tree puts nothing. -/
@[simp] theorem patch_empty : (empty : FImmutableTree Node).patch = ∅ := by
  refine LeafTree.ext_leaf fun p => ?_
  change (empty : FImmutableTree Node).leavesAt p = none
  cases p <;> rfl

/-- A single value is put at the root. -/
@[simp] theorem patch_initWithValue (v : Node) :
    (initWithValue v).patch = LeafTree.single v.leaves := patch_of_value rfl

/-- Without a value at the root, what is put below a name is what the child puts. -/
theorem child_patch {t : FImmutableTree Node} (h : t.value = none) (k : String) :
    t.patch.child k = ((t.children.lookup k).getD empty).patch := by
  cases hk : t.children.lookup k with
  | none =>
      rw [Option.getD_none, patch_empty]
      refine LeafTree.ext_leaf fun p => ?_
      change t.leavesAt (k :: p) = none
      rw [leavesAt, h, hk]
  | some child =>
      refine LeafTree.ext_leaf fun p => ?_
      change t.leavesAt (k :: p) = child.leavesAt p
      rw [leavesAt, h, hk]

/-- An empty tree puts nothing. -/
theorem patch_of_isEmpty {t : FImmutableTree Node} (h : t.isEmpty = true) : t.patch = ∅ := by
  rw [eq_empty_of_isEmpty h, patch_empty]

section Exact

variable {stringComparator : NSComparator} [Std.TransCmp stringComparator] {K : String → Prop}
  {V : Node → Prop} (hK : NodeKeys stringComparator K) {t s : FImmutableTree Node}
  {p : FPath}

include hK

/-- The child under a key. -/
theorem patch_childTree (h : t.WF stringComparator K V) {k : String} (hk : K k)
    (hv : t.value = none) : (t.childTree stringComparator k).patch = t.patch.child k := by
  rw [child_patch hv, h.childTree_eq_lookup hK.distinct hk]

/-- A tree is put in as a subtree, where there is no value on the way. -/
theorem patch_setTree_cons (h : t.WF stringComparator K V) {k : String} (hk : K k)
    (hv : t.value = none) (p : FPath) (k' : String) :
    (t.setTree stringComparator s (k :: p)).patch.child k' =
      if k' = k then ((t.childTree stringComparator k).setTree stringComparator s p).patch
      else t.patch.child k' := by
  rw [setTree_cons, hv, child_patch rfl, child_patch hv]
  split_ifs with hempty hk' hk'
  · rw [children,
      SortedAssoc.lookup_erase hK.exact hk h.sorted_children fun c hc => h.key_of_mem hc,
      if_pos hk', Option.getD_none, patch_empty, patch_of_isEmpty hempty]
  · rw [children,
      SortedAssoc.lookup_erase hK.exact hk h.sorted_children fun c hc => h.key_of_mem hc,
      if_neg hk']
  · rw [children, SortedAssoc.lookup_insert hK.exact hk fun c hc => h.key_of_mem hc, if_pos hk',
      Option.getD_some]
  · rw [children, SortedAssoc.lookup_insert hK.exact hk fun c hc => h.key_of_mem hc, if_neg hk']

/-- **A write where there is no value on the way.** -/
theorem patch_setTree (h : t.WF stringComparator K V) (hp : ∀ k ∈ p, K k) {n : Node}
    (hnone : t.findRootMostValueAndPath stringComparator p = none) :
    (t.setTree stringComparator (initWithValue n) p).patch = t.patch.put p n.leaves := by
  induction p generalizing t with
  | nil => rw [setTree_nil, patch_initWithValue, LeafTree.put_nil]
  | cons k p ih =>
      have hk : K k := hp k List.mem_cons_self
      cases hv : t.value with
      | some v =>
          rw [findRootMostValueAndPath_of_value hv] at hnone
          exact nomatch hnone
      | none =>
          rw [findRootMostValueAndPath_cons hv, Option.map_eq_none_iff] at hnone
          have hroot : t.patch.root = none := by rw [root_patch, hv]; rfl
          refine LeafTree.ext_child ?_ fun k' => ?_
          · rw [root_patch, setTree_cons, value, hv, LeafTree.root_put hroot]
            rfl
          · rw [patch_setTree_cons hK h hk hv, LeafTree.child_put hroot,
              ih (h.childTree k) (fun k' hk' => hp k' (List.mem_cons_of_mem k hk')) hnone,
              patch_childTree hK h hk hv]

/-- **A write at a value or below one.** -/
theorem patch_setValue (h : t.WF stringComparator K Node.WF) (hp : ∀ k ∈ p, K k) {n : Node}
    (hn : n.WF) {found : FTuplePathValue Node p}
    (hfound : t.findRootMostValueAndPath stringComparator p = some found) :
    (t.setValue stringComparator
      (found.value.updateChild (relativePathFrom found.path p found.within) n) found.path).patch =
        t.patch.put p n.leaves := by
  induction p generalizing t with
  | nil =>
      rw [findRootMostValueAndPath_nil, Option.map_eq_some_iff] at hfound
      obtain ⟨w, hw, rfl⟩ := hfound
      rw [setValue_nil, relativePathFrom, Node.updateChild_nil, patch_of_value rfl,
        LeafTree.put_nil]
  | cons k p ih =>
      have hk : K k := hp k List.mem_cons_self
      cases hv : t.value with
      | some v =>
          rw [findRootMostValueAndPath_of_value hv] at hfound
          obtain rfl := Option.some.inj hfound
          rw [setValue_nil, relativePathFrom, patch_of_value rfl,
            Node.leaves_updateChild (h.of_value hv).valid hn.valid (hK.plain.notZero hp),
            LeafTree.put_of_root (by rw [root_patch, hv]; rfl)]
      | none =>
          rw [findRootMostValueAndPath_cons hv, Option.map_eq_some_iff] at hfound
          obtain ⟨inner, hinner, rfl⟩ := hfound
          have hroot : t.patch.root = none := by rw [root_patch, hv]; rfl
          rw [relativePathFrom, setValue_cons, hv]
          refine LeafTree.ext_child ?_ fun k' => ?_
          · rw [root_patch, value, LeafTree.root_put hroot]
            rfl
          · rw [child_patch rfl, children,
              SortedAssoc.lookup_insert hK.exact hk fun c hc => h.key_of_mem hc,
              LeafTree.child_put hroot]
            split_ifs with hk'
            · rw [Option.getD_some, ih (h.childTree k)
                (fun k' hk' => hp k' (List.mem_cons_of_mem k hk')) hinner,
                patch_childTree hK h hk hv]
            · rw [child_patch hv]

/-- **Taking out a subtree.** -/
theorem patch_setTree_empty (h : t.WF stringComparator K V) (hp : ∀ k ∈ p, K k) :
    (t.setTree stringComparator empty p).patch = t.patch.erase p := by
  induction p generalizing t with
  | nil => rw [setTree_nil, patch_empty, LeafTree.erase_nil]
  | cons k p ih =>
      have hk : K k := hp k List.mem_cons_self
      cases hv : t.value with
      | some v =>
          rw [patch_of_value hv, LeafTree.erase_of_root (LeafTree.root_single _),
            setTree_cons, hv, patch_of_value rfl]
      | none =>
          have hroot : t.patch.root = none := by rw [root_patch, hv]; rfl
          refine LeafTree.ext_child ?_ fun k' => ?_
          · rw [root_patch, setTree_cons, value, hv, LeafTree.root_erase hroot]
            rfl
          · rw [patch_setTree_cons hK h hk hv, LeafTree.child_erase hroot,
              ih (h.childTree k) (fun k' hk' => hp k' (List.mem_cons_of_mem k hk')),
              patch_childTree hK h hk hv]

/-- **What the patch does at a path**, if no value comes first on it. -/
theorem within_patch_of_none (h : t.WF stringComparator K V) (hp : ∀ k ∈ p, K k)
    (hnone : t.findRootMostValueAndPath stringComparator p = none) :
    t.patch.within p = (t.subtreeAtPath stringComparator p).patch ∧
      (t.patch.within p).root = none := by
  induction p generalizing t with
  | nil =>
      rw [findRootMostValueAndPath_nil, Option.map_eq_none_iff] at hnone
      rw [LeafTree.within_nil, subtreeAtPath_nil, root_patch, hnone]
      exact ⟨rfl, rfl⟩
  | cons k p ih =>
      have hk : K k := hp k List.mem_cons_self
      cases hv : t.value with
      | some v =>
          rw [findRootMostValueAndPath_of_value hv] at hnone
          exact nomatch hnone
      | none =>
          rw [findRootMostValueAndPath_cons hv, Option.map_eq_none_iff] at hnone
          rw [LeafTree.within_cons (by rw [root_patch, hv]; rfl), subtreeAtPath_cons,
            ← patch_childTree hK h hk hv]
          exact ih (h.childTree k) (fun k' hk' => hp k' (List.mem_cons_of_mem k hk')) hnone

/-- What it does below the value that comes first. -/
theorem within_patch_of_some (h : t.WF stringComparator K V) (hp : ∀ k ∈ p, K k)
    {found : FTuplePathValue Node p}
    (hfound : t.findRootMostValueAndPath stringComparator p = some found) :
    t.patch.within p = LeafTree.single
      (found.value.getChild (relativePathFrom found.path p found.within)).leaves := by
  induction p generalizing t with
  | nil =>
      rw [findRootMostValueAndPath_nil, Option.map_eq_some_iff] at hfound
      obtain ⟨w, hw, rfl⟩ := hfound
      rw [LeafTree.within_nil, relativePathFrom, Node.getChild_nil, patch_of_value hw]
  | cons k p ih =>
      have hk : K k := hp k List.mem_cons_self
      cases hv : t.value with
      | some v =>
          rw [findRootMostValueAndPath_of_value hv] at hfound
          obtain rfl := Option.some.inj hfound
          rw [patch_of_value hv, LeafTree.within_single, relativePathFrom,
            Node.sub_leaves v (hK.plain.notZero hp)]
      | none =>
          rw [findRootMostValueAndPath_cons hv, Option.map_eq_some_iff] at hfound
          obtain ⟨inner, hinner, rfl⟩ := hfound
          rw [LeafTree.within_cons (by rw [root_patch, hv]; rfl), ← patch_childTree hK h hk hv,
            relativePathFrom]
          exact ih (h.childTree k) (fun k' hk' => hp k' (List.mem_cons_of_mem k hk')) hinner

end Exact

section Writes

variable {stringComparator : NSComparator} {K : String → Prop} {V : Node → Prop}

mutual

/-- **The writes of a tree**, made one after the other, are its patch. -/
theorem Alone.putAll_forEach [Std.TransCmp stringComparator] (hK : PlainKeys K) :
    ∀ {t : FImmutableTree Node}, t.Alone → t.WF stringComparator K V →
      (∅ : LeafTree.Patch String LeafValue).putAll
        (t.forEach.map fun write => (write.1, write.2.leaves)) = t.patch
  | .tree (some v) cs, ha, _ => by
      obtain rfl : cs = [] := ha.children_eq_nil rfl
      rw [forEach, forEachPathSoFar, forEachInChildren, patch_of_value rfl]
      exact LeafTree.put_nil ∅ v.leaves
  | .tree none cs, ha, h => by
      obtain ⟨hroot, hchild⟩ := Alone.putAll_forEachInChildren hK (fun c hc => ha.mem_children hc)
        h.sorted_children (fun c hc => h.key_of_mem hc) (fun c hc => h.of_mem hc)
        LeafTree.root_empty fun c _ => LeafTree.child_empty c.1
      have hforEach : (FImmutableTree.tree none cs).forEach = forEachInChildren cs [] := by
        rw [forEach, forEachPathSoFar]
        exact List.append_nil _
      rw [hforEach]
      refine LeafTree.ext_child hroot fun k => (hchild k).trans ?_
      rw [child_patch rfl, FImmutableTree.children]
      cases cs.lookup k with
      | none => exact patch_empty.symm
      | some t => rfl

/-- Putting the values of the children one after the other. -/
theorem Alone.putAll_forEachInChildren [Std.TransCmp stringComparator] (hK : PlainKeys K) :
    ∀ {cs : List (String × FImmutableTree Node)}, (∀ c ∈ cs, c.2.Alone) →
      SortedAssoc.Sorted stringComparator cs → (∀ c ∈ cs, K c.1) →
        (∀ c ∈ cs, c.2.WF stringComparator K V) → ∀ {P : LeafTree.Patch String LeafValue},
          P.root = none → (∀ c ∈ cs, P.child c.1 = ∅) →
            (P.putAll ((forEachInChildren cs []).map fun write =>
              (write.1, write.2.leaves))).root = none ∧
            ∀ k, (P.putAll ((forEachInChildren cs []).map fun write =>
              (write.1, write.2.leaves))).child k = ((cs.lookup k).map patch).getD (P.child k)
  | [], _, _, _, _, P, hroot, _ => by
      rw [forEachInChildren]
      exact ⟨hroot, fun _ => rfl⟩
  | (k, t) :: cs, ha, hsorted, hkey, hsub, P, hroot, hempty => by
      obtain ⟨hhead, htail⟩ := List.pairwise_cons.1 hsorted
      have hcs : ∀ c ∈ cs, c ∈ (k, t) :: cs := fun c hc => List.mem_cons_of_mem _ hc
      have ht := hsub (k, t) List.mem_cons_self
      have hne : ∀ c ∈ cs, c.1 ≠ k := fun c hc hck => by
        have hlt : stringComparator k c.1 = .lt := hhead c hc
        exact SortedAssoc.ne_of_cmp (by rw [hlt]; decide : stringComparator k c.1 ≠ .eq) hck.symm
      -- the writes of the first child, below its key
      have hfirst : (t.forEachPathSoFar [k]).map (fun write => (write.1, write.2.leaves)) =
          (t.forEach.map fun write => (write.1, write.2.leaves)).map fun w => (k :: w.1, w.2) := by
        have happend := ht.forEachPathSoFar_append hK.valid [k] []
        rw [List.append_nil] at happend
        rw [happend, List.map_map, List.map_map, forEach]
        rfl
      have hchild : ∀ k', (P.putAll ((t.forEach.map fun write =>
          (write.1, write.2.leaves)).map fun w => (k :: w.1, w.2))).child k' =
            if k' = k then t.patch else P.child k' := fun k' => by
        rw [LeafTree.child_putAll_map_cons hroot, hempty _ List.mem_cons_self,
          Alone.putAll_forEach hK (ha _ List.mem_cons_self) ht]
      obtain ⟨hroot', hchild'⟩ := Alone.putAll_forEachInChildren hK (fun c hc => ha c (hcs c hc)) htail
        (fun c hc => hkey c (hcs c hc)) (fun c hc => hsub c (hcs c hc))
        (LeafTree.root_putAll_map_cons hroot k _) fun c hc => by
          rw [hchild, if_neg (hne c hc), hempty c (hcs c hc)]
      rw [forEachInChildren,
        FPath.childFromString_of_isValidKey _ (hK.valid k (hkey _ List.mem_cons_self)),
        List.nil_append, List.map_append, LeafTree.putAll_append, hfirst]
      refine ⟨hroot', fun k' => (hchild' k').trans ?_⟩
      rw [hchild, Assoc.lookup_cons_eq_if]
      split_ifs with hk
      · have hnone : cs.lookup k = none :=
          Assoc.lookup_eq_none_iff.2 fun v hv => hne (k, v) hv rfl
        rw [hk, hnone]
        rfl
      · rfl

end

end Writes

end FImmutableTree

/-! ### The operations -/

namespace FCompoundWrite

/-- `emptyWrite`. -/
def emptyWrite : FCompoundWrite := ⟨.empty, .empty⟩

/-- `isEmpty`. -/
def isEmpty (self : FCompoundWrite) : Bool := self.writeTree.isEmpty

/-- `rootWrite`. -/
def rootWrite (self : FCompoundWrite) : Option Node := self.writeTree.value

/-- `enumerateWrites:`, as the list of the calls of the block. -/
def enumerateWrites (self : FCompoundWrite) : List (FPath × Node) := self.writeTree.forEach

mutual

/-- `applySubtreeWrite:atPath:toNode:`. -/
def applySubtreeWrite : FImmutableTree Node → FPath → Node → Node
  | .tree (some value) _, relativePath, node => node.updateChild relativePath value
  | .tree none children, relativePath, node => applyChildren children relativePath node

/-- The loop over the children in it. -/
def applyChildren : List (String × FImmutableTree Node) → FPath → Node → Node
  | [], _, node => node
  | (childKey, childTree) :: children, relativePath, node =>
      applyChildren children relativePath
        (applySubtreeWrite childTree (relativePath.childFromString childKey) node)

end

/-- `applyToNode:`. -/
def applyToNode (self : FCompoundWrite) (node : Node) : Node :=
  applySubtreeWrite self.writeTree [] node

variable (stringComparator : NSComparator)

/-- `addWrite:atPath:`. -/
def addWrite (self : FCompoundWrite) (node : Node) (path : FPath) : FCompoundWrite :=
  if path.isEmpty then ⟨.initWithValue node, .value node⟩
  else
    match h : self.writeTree.findRootMostValueAndPath stringComparator path with
    | some rootMost =>
        let relativePath := relativePathFrom rootMost.path path rootMost.within
        let value := rootMost.value.updateChild relativePath node
        ⟨self.writeTree.setValue stringComparator value rootMost.path, self.alone.setValue h value⟩
    | none =>
        ⟨self.writeTree.setTree stringComparator (.initWithValue node) path,
          self.alone.setTree (.value node) h⟩

/-- `addCompoundWrite:atPath:`. -/
def addCompoundWrite (self compoundWrite : FCompoundWrite) (path : FPath) : FCompoundWrite :=
  compoundWrite.enumerateWrites.foldl
    (fun newWrite write => newWrite.addWrite stringComparator write.2 (path ++ write.1)) self

/-- `removeWriteAtPath:`. -/
def removeWriteAtPath (self : FCompoundWrite) (path : FPath) : FCompoundWrite :=
  if path.isEmpty then emptyWrite
  else ⟨self.writeTree.setTree stringComparator .empty path, self.alone.setTree_empty path⟩

/-- `completeNodeAtPath:`. -/
def completeNodeAtPath (self : FCompoundWrite) (path : FPath) : Option Node :=
  match self.writeTree.findRootMostValueAndPath stringComparator path with
  | some rootMost =>
      some (rootMost.value.getChild (relativePathFrom rootMost.path path rootMost.within))
  | none => none

/-- `hasCompleteWriteAtPath:`. -/
def hasCompleteWriteAtPath (self : FCompoundWrite) (path : FPath) : Bool :=
  (self.completeNodeAtPath stringComparator path).isSome

/-- `childCompoundWriteAtPath:`. -/
def childCompoundWriteAtPath (self : FCompoundWrite) (path : FPath) : FCompoundWrite :=
  if path.isEmpty then self
  else
    match self.completeNodeAtPath stringComparator path with
    | some shadowingNode => ⟨.initWithValue shadowingNode, .value shadowingNode⟩
    | none => ⟨self.writeTree.subtreeAtPath stringComparator path, self.alone.subtreeAtPath path⟩

/-- `completeChildren`. -/
def completeChildren (self : FCompoundWrite) : List (String × Node) :=
  match self.writeTree.value with
  | some node => node.childList
  | none => self.writeTree.children.filterMap fun child => child.2.value.map fun v => (child.1, v)

/-- `childCompoundWrites`. -/
def childCompoundWrites (self : FCompoundWrite) : List (String × FCompoundWrite) :=
  self.writeTree.children.attach.map fun child =>
    (child.1.1, ⟨child.1.2, self.alone.mem_children child.2⟩)

/-! ### Their meaning -/

/-- The patch a compound write is. -/
def patch (self : FCompoundWrite) : LeafTree.Patch String LeafValue := self.writeTree.patch

/-- The keys are in `K`, in order, and the nodes well formed. -/
def WF (K : String → Prop) (self : FCompoundWrite) : Prop :=
  self.writeTree.WF stringComparator K Node.WF

variable {stringComparator}

/-- The empty compound write puts nothing. -/
@[simp] theorem patch_emptyWrite : emptyWrite.patch = ∅ := FImmutableTree.patch_empty

/-- An empty compound write puts nothing. -/
theorem patch_of_isEmpty {self : FCompoundWrite} (h : self.isEmpty = true) : self.patch = ∅ :=
  FImmutableTree.patch_of_isEmpty h

theorem root_patch (self : FCompoundWrite) :
    self.patch.root = self.rootWrite.map Node.leaves := FImmutableTree.root_patch _

/-- The empty compound write. -/
theorem WF.emptyWrite {K : String → Prop} : emptyWrite.WF stringComparator K :=
  FImmutableTree.WF.empty

section Exact

variable [Std.TransCmp stringComparator] {K : String → Prop}
  (hK : NodeKeys stringComparator K) {self compoundWrite : FCompoundWrite} {path : FPath}
  {node : Node}

include hK

omit hK in
/-- A write is added. -/
theorem WF.addWrite (hK : PlainKeys K) (h : self.WF stringComparator K) (hnode : node.WF)
    (hpath : ∀ k ∈ path, K k) :
    (self.addWrite stringComparator node path).WF stringComparator K := by
  rw [FCompoundWrite.addWrite]
  split_ifs
  · exact .initWithValue hnode
  · split
    next rootMost hfound =>
      refine FImmutableTree.WF.setValue h ?_ fun k hk => hpath k (rootMost.within.subset hk)
      have happend := append_relativePathFrom rootMost.path path rootMost.within
      refine (h.value_of_found hfound).updateChild hnode fun k hk => hK k (hpath k ?_)
      rw [← happend]
      exact List.mem_append_right _ hk
    next => exact FImmutableTree.WF.setTree h (.initWithValue hnode) hpath

/-- **A write is added to the patch.** -/
theorem patch_addWrite (h : self.WF stringComparator K) (hnode : node.WF)
    (hpath : ∀ k ∈ path, K k) :
    (self.addWrite stringComparator node path).patch = self.patch.put path node.leaves := by
  rw [FCompoundWrite.addWrite]
  split_ifs with hempty
  · rw [List.isEmpty_iff.1 hempty, LeafTree.put_nil]
    exact FImmutableTree.patch_initWithValue node
  · split
    next rootMost hfound => exact FImmutableTree.patch_setValue hK h hpath hnode hfound
    next hnone => exact FImmutableTree.patch_setTree hK h hpath hnone

/-- **What is at a path and below is taken out of the patch.** -/
theorem patch_removeWriteAtPath (h : self.WF stringComparator K) (hpath : ∀ k ∈ path, K k) :
    (self.removeWriteAtPath stringComparator path).patch = self.patch.erase path := by
  rw [removeWriteAtPath]
  split_ifs with hempty
  · rw [List.isEmpty_iff.1 hempty, LeafTree.erase_nil, patch_emptyWrite]
  · exact FImmutableTree.patch_setTree_empty hK h hpath

omit hK in
/-- A write is removed. -/
theorem WF.removeWriteAtPath (h : self.WF stringComparator K) (hpath : ∀ k ∈ path, K k) :
    (self.removeWriteAtPath stringComparator path).WF stringComparator K := by
  rw [FCompoundWrite.removeWriteAtPath]
  split_ifs
  · exact .emptyWrite
  · exact FImmutableTree.WF.setTree h .empty hpath

omit hK in
/-- Several writes are added. -/
theorem WF.foldl_addWrite (hK : PlainKeys K) {α : Type} {l : List α} {path : α → FPath}
    {node : α → Node} (h : self.WF stringComparator K)
    (hl : ∀ a ∈ l, (∀ k ∈ path a, K k) ∧ (node a).WF) :
    (l.foldl (fun newWrite a => newWrite.addWrite stringComparator (node a) (path a))
      self).WF stringComparator K := by
  induction l generalizing self with
  | nil => exact h
  | cons a l ih =>
      obtain ⟨hpath, hnode⟩ := hl a List.mem_cons_self
      exact ih (h.addWrite hK hnode hpath) fun b hb => hl b (List.mem_cons_of_mem a hb)

omit hK [Std.TransCmp stringComparator] in
/-- A compound write is added write by write. -/
theorem addCompoundWrite_eq_foldl :
    self.addCompoundWrite stringComparator compoundWrite path =
      (compoundWrite.enumerateWrites.map fun write => (path ++ write.1, write.2)).foldl
        (fun newWrite write => newWrite.addWrite stringComparator write.2 write.1) self := by
  rw [addCompoundWrite, List.foldl_map]

/-- Adding single writes one after the other. -/
theorem patch_foldl_addWrite {writes : List (FPath × Node)} (h : self.WF stringComparator K)
    (hwrites : ∀ write ∈ writes, (∀ k ∈ write.1, K k) ∧ write.2.WF) :
    (writes.foldl (fun newWrite write => newWrite.addWrite stringComparator write.2 write.1)
        self).WF stringComparator K ∧
      (writes.foldl (fun newWrite write => newWrite.addWrite stringComparator write.2 write.1)
        self).patch = self.patch.putAll (writes.map fun write => (write.1, write.2.leaves)) := by
  induction writes generalizing self with
  | nil => exact ⟨h, rfl⟩
  | cons write writes ih =>
      obtain ⟨hpath, hnode⟩ := hwrites write List.mem_cons_self
      have hadd := h.addWrite hK.plain hnode hpath
      obtain ⟨hWF, hpatch⟩ := ih hadd fun w hw => hwrites w (List.mem_cons_of_mem write hw)
      refine ⟨hWF, hpatch.trans ?_⟩
      rw [patch_addWrite hK h hnode hpath, List.map_cons, LeafTree.putAll_cons]

omit hK [Std.TransCmp stringComparator] in
/-- The writes of a compound write are as well formed as it is. -/
theorem WF.of_mem_enumerateWrites (hK : PlainKeys K) (h : self.WF stringComparator K)
    {write : FPath × Node} (hwrite : write ∈ self.enumerateWrites) : (∀ k ∈ write.1, K k) ∧ write.2.WF := by
  obtain ⟨hV, r, hr, hrK⟩ := FImmutableTree.WF.of_mem_forEachPathSoFar hK.valid h hwrite
  rw [List.nil_append] at hr
  exact ⟨hr ▸ hrK, hV⟩

omit hK [Std.TransCmp stringComparator] in
/-- The complete children are well formed, under plain keys. -/
theorem WF.of_mem_completeChildren (hK : PlainKeys K) (h : self.WF stringComparator K)
    {child : String × Node} (hchild : child ∈ self.completeChildren) : isPlainKey child.1 = true ∧ child.2.WF := by
  rw [completeChildren] at hchild
  split at hchild
  next node hnode =>
    have hWF : node.WF := FImmutableTree.WF.of_value h hnode
    exact ⟨hWF.key_of_mem hchild, hWF.of_mem_childList hchild⟩
  next =>
    obtain ⟨c, hc, hv⟩ := List.mem_filterMap.1 hchild
    obtain ⟨v, hvalue, rfl⟩ := Option.map_eq_some_iff.1 hv
    exact ⟨hK c.1 (FImmutableTree.WF.key_of_mem h hc),
      (FImmutableTree.WF.of_mem h hc).of_value hvalue⟩

omit hK [Std.TransCmp stringComparator] in
/-- The compound writes of the children are well formed. -/
theorem WF.of_mem_childCompoundWrites (h : self.WF stringComparator K)
    {child : String × FCompoundWrite} (hchild : child ∈ self.childCompoundWrites) :
    K child.1 ∧ child.2.WF stringComparator K := by
  obtain ⟨⟨c, hc⟩, -, rfl⟩ := List.mem_map.1 hchild
  exact ⟨FImmutableTree.WF.key_of_mem h hc, FImmutableTree.WF.of_mem h hc⟩

omit hK in
/-- There is one compound write for a child. -/
theorem nodup_childCompoundWrites (h : self.WF stringComparator K) :
    (self.childCompoundWrites.map Prod.fst).Nodup := by
  have hkeys : self.childCompoundWrites.map Prod.fst = self.writeTree.children.map Prod.fst := by
    rw [childCompoundWrites, List.map_map]
    exact List.attach_map_val (f := Prod.fst)
  exact hkeys ▸ SortedAssoc.Sorted.nodup_keys (FImmutableTree.WF.sorted_children h)

omit hK in
/-- It is what the patch does at the child. -/
theorem patch_of_mem_childCompoundWrites (h : self.WF stringComparator K)
    (hroot : self.rootWrite = none) {child : String × FCompoundWrite}
    (hchild : child ∈ self.childCompoundWrites) : child.2.patch = self.patch.child child.1 := by
  obtain ⟨⟨c, hc⟩, -, rfl⟩ := List.mem_map.1 hchild
  have hlookup := Assoc.lookup_eq_some_of_mem
    (SortedAssoc.Sorted.nodup_keys (FImmutableTree.WF.sorted_children h)) hc
  rw [patch, patch, FImmutableTree.child_patch hroot, hlookup]
  rfl

omit hK [Std.TransCmp stringComparator] in
/-- For other children it does nothing. -/
theorem child_patch_of_not_mem (hroot : self.rootWrite = none) {k : String}
    (hk : k ∉ self.childCompoundWrites.map Prod.fst) : self.patch.child k = ∅ := by
  have hnone : self.writeTree.children.lookup k = none :=
    Assoc.lookup_eq_none_iff.2 fun c hc => hk (List.mem_map.2
      ⟨_, List.mem_map.2 ⟨⟨(k, c), hc⟩, List.mem_attach _ _, rfl⟩, rfl⟩)
  rw [patch, FImmutableTree.child_patch hroot, hnone, Option.getD_none, FImmutableTree.patch_empty]

/-- None of them lies below another. -/
theorem pairwise_enumerateWrites (h : self.WF stringComparator K) :
    self.enumerateWrites.Pairwise fun c d => LeafTree.Apart c.1 d.1 :=
  FImmutableTree.Alone.pairwise_forEachPathSoFar hK.distinct self.alone h []

/-- The writes one after the other. -/
theorem putAll_enumerateWrites (h : self.WF stringComparator K) :
    (∅ : LeafTree.Patch String LeafValue).putAll
      (self.enumerateWrites.map fun write => (write.1, write.2.leaves)) = self.patch :=
  FImmutableTree.Alone.putAll_forEach hK.plain self.alone h

/-- A compound write moved down to a path. -/
theorem patch_addCompoundWrite_emptyWrite (h : compoundWrite.WF stringComparator K)
    (hpath : ∀ k ∈ path, K k) :
    (emptyWrite.addCompoundWrite stringComparator compoundWrite path).patch =
      LeafTree.nest path compoundWrite.patch := by
  have hwrites : ∀ write ∈ compoundWrite.enumerateWrites.map fun write => (path ++ write.1, write.2),
      (∀ k ∈ write.1, K k) ∧ write.2.WF := fun write hwrite => by
    obtain ⟨w, hw, rfl⟩ := List.mem_map.1 hwrite
    obtain ⟨hwpath, hwnode⟩ := h.of_mem_enumerateWrites hK.plain hw
    exact ⟨fun k hk => (List.mem_append.1 hk).elim (hpath k) (hwpath k), hwnode⟩
  rw [addCompoundWrite_eq_foldl, (patch_foldl_addWrite hK WF.emptyWrite hwrites).2,
    patch_emptyWrite, ← putAll_enumerateWrites hK h, ← LeafTree.nest_putAll, LeafTree.nest_empty,
    List.map_map, List.map_map]
  rfl

/-- **The patch at a path** is what `childCompoundWriteAtPath:` returns. -/
theorem patch_childCompoundWriteAtPath (h : self.WF stringComparator K)
    (hpath : ∀ k ∈ path, K k) :
    (self.childCompoundWriteAtPath stringComparator path).patch = self.patch.within path := by
  rw [childCompoundWriteAtPath, completeNodeAtPath]
  split_ifs with hempty
  · rw [List.isEmpty_iff.1 hempty, LeafTree.within_nil]
  · cases hfound : self.writeTree.findRootMostValueAndPath stringComparator path with
    | some rootMost =>
        exact (FImmutableTree.patch_initWithValue _).trans
          (FImmutableTree.within_patch_of_some hK h hpath hfound).symm
    | none => exact (FImmutableTree.within_patch_of_none hK h hpath hfound).1.symm

/-- **A node is complete where the patch has one at the path or above.** -/
theorem root_within_patch (h : self.WF stringComparator K) (hpath : ∀ k ∈ path, K k) :
    (self.patch.within path).root =
      (self.completeNodeAtPath stringComparator path).map Node.leaves := by
  rw [completeNodeAtPath]
  cases hfound : self.writeTree.findRootMostValueAndPath stringComparator path with
  | some rootMost =>
      exact congrArg LeafTree.root (FImmutableTree.within_patch_of_some hK h hpath hfound)
  | none => exact (FImmutableTree.within_patch_of_none hK h hpath hfound).2

omit hK [Std.TransCmp stringComparator] in
/-- A complete node is well formed. -/
theorem WF.completeNodeAtPath (h : self.WF stringComparator K)
    (hnode : self.completeNodeAtPath stringComparator path = some node) : node.WF := by
  rw [FCompoundWrite.completeNodeAtPath] at hnode
  cases hfound : self.writeTree.findRootMostValueAndPath stringComparator path with
  | some rootMost =>
      rw [hfound] at hnode
      obtain rfl := Option.some.inj hnode
      exact (h.value_of_found hfound).getChild _
  | none =>
      rw [hfound] at hnode
      exact nomatch hnode

omit hK [Std.TransCmp stringComparator] in
/-- The compound write at a path is well formed. -/
theorem WF.childCompoundWriteAtPath (h : self.WF stringComparator K) :
    (self.childCompoundWriteAtPath stringComparator path).WF stringComparator K := by
  rw [FCompoundWrite.childCompoundWriteAtPath]
  split_ifs
  · exact h
  · split
    next hnode => exact .initWithValue (h.completeNodeAtPath hnode)
    next => exact FImmutableTree.WF.subtreeAtPath h path

end Exact

/-! ### Applying the writes -/

section Apply

variable {K : String → Prop}

mutual

/-- Applying a tree to a well-formed node keeps it well formed. -/
theorem WF_applySubtreeWrite (hK : PlainKeys K) :
    ∀ {t : FImmutableTree Node}, t.WF stringComparator K Node.WF → ∀ {p : FPath}, (∀ k ∈ p, K k) →
      ∀ {n : Node}, n.WF → (applySubtreeWrite t p n).WF
  | .tree (some v) _, h, p, hp, n, hn => by
      rw [applySubtreeWrite]
      exact hn.updateChild (h.of_value rfl) fun k hk => hK k (hp k hk)
  | .tree none cs, h, p, hp, n, hn => by
      rw [applySubtreeWrite]
      exact WF_applyChildren hK (fun c hc => h.key_of_mem hc) (fun c hc => h.of_mem hc) hp hn

/-- The same for a list of children. -/
theorem WF_applyChildren (hK : PlainKeys K) :
    ∀ {cs : List (String × FImmutableTree Node)}, (∀ c ∈ cs, K c.1) →
      (∀ c ∈ cs, c.2.WF stringComparator K Node.WF) → ∀ {p : FPath}, (∀ k ∈ p, K k) →
        ∀ {n : Node}, n.WF → (applyChildren cs p n).WF
  | [], _, _, _, _, _, hn => by
      rw [applyChildren]
      exact hn
  | (k, t) :: cs, hkey, hsub, p, hp, n, hn => by
      have hk : K k := hkey (k, t) List.mem_cons_self
      rw [applyChildren, p.childFromString_of_isValidKey (hK.valid k hk)]
      refine WF_applyChildren hK (fun c hc => hkey c (List.mem_cons_of_mem _ hc))
        (fun c hc => hsub c (List.mem_cons_of_mem _ hc)) hp ?_
      refine WF_applySubtreeWrite hK (hsub (k, t) List.mem_cons_self) (fun j hj => ?_) hn
      rcases List.mem_append.1 hj with hj | hj
      · exact hp j hj
      · exact List.mem_singleton.1 hj ▸ hk

end

/-- Applying a compound write keeps a node well formed. -/
theorem WF.applyToNode (hK : PlainKeys K)
    {self : FCompoundWrite} (h : self.WF stringComparator K) {n : Node}
    (hn : n.WF) : (self.applyToNode n).WF :=
  WF_applySubtreeWrite hK h (fun _ hk => absurd hk List.not_mem_nil) hn

mutual

/-- A tree of writes applied at a path is its patch laid over the node there. -/
theorem leaves_applySubtreeWrite [Std.TransCmp stringComparator]
    (hK : NodeKeys stringComparator K) :
    ∀ {t : FImmutableTree Node}, t.WF stringComparator K Node.WF → ∀ {p : FPath},
      (∀ k ∈ p, K k) → ∀ {n : Node}, n.WF →
        (applySubtreeWrite t p n).leaves = (LeafTree.nest p t.patch).act n.leaves
  | .tree (some v) _, h, p, hp, n, hn => by
      rw [applySubtreeWrite, Node.leaves_updateChild hn.valid (h.of_value rfl).valid
        (hK.plain.notZero hp), FImmutableTree.patch_of_value rfl, LeafTree.nest_single,
        LeafTree.act_put_empty]
  | .tree none cs, h, p, hp, n, hn => by
      have hpatch : (FImmutableTree.tree none cs).patch =
          LeafTree.node fun k => ((cs.lookup k).getD .empty).patch := by
        refine LeafTree.ext_child (FImmutableTree.root_patch _) fun k => ?_
        rw [FImmutableTree.child_patch rfl]
        rfl
      rw [applySubtreeWrite, hpatch]
      exact leaves_applyChildren hK h.sorted_children (fun c hc => h.key_of_mem hc)
        (fun c hc => h.of_mem hc) hp hn

/-- The same for a list of children. -/
theorem leaves_applyChildren [Std.TransCmp stringComparator]
    (hK : NodeKeys stringComparator K) :
    ∀ {cs : List (String × FImmutableTree Node)}, SortedAssoc.Sorted stringComparator cs →
      (∀ c ∈ cs, K c.1) → (∀ c ∈ cs, c.2.WF stringComparator K Node.WF) → ∀ {p : FPath},
        (∀ k ∈ p, K k) → ∀ {n : Node}, n.WF → (applyChildren cs p n).leaves =
          (LeafTree.nest p (LeafTree.node fun k => ((cs.lookup k).getD .empty).patch)).act n.leaves
  | [], _, _, _, p, _, n, _ => by
      have hnode : (LeafTree.node fun k =>
          ((([] : List (String × FImmutableTree Node)).lookup k).getD .empty).patch) = ∅ :=
        LeafTree.ext_child rfl fun k => FImmutableTree.patch_empty
      rw [applyChildren, hnode, LeafTree.nest_empty, LeafTree.act_empty]
  | (k, t) :: cs, hsorted, hkey, hsub, p, hp, n, hn => by
      obtain ⟨hhead, htail⟩ := List.pairwise_cons.1 hsorted
      have hk : K k := hkey (k, t) List.mem_cons_self
      have hpk : ∀ j ∈ p ++ [k], K j := fun j hj =>
        (List.mem_append.1 hj).elim (hp j) fun hj => List.mem_singleton.1 hj ▸ hk
      have hchild := WF_applySubtreeWrite hK.plain (hsub (k, t) List.mem_cons_self) hpk hn
      have hnone : ((cs.lookup k).getD FImmutableTree.empty).patch = ∅ := by
        rw [SortedAssoc.lookup_of_lt hhead, Option.getD_none, FImmutableTree.patch_empty]
      have hupdate : (fun k' => ((((k, t) :: cs).lookup k').getD FImmutableTree.empty).patch) =
          Function.update (fun k' => ((cs.lookup k').getD FImmutableTree.empty).patch) k t.patch := by
        funext k'
        rw [Assoc.lookup_cons_eq_if, Function.update_apply]
        split_ifs <;> rfl
      rw [applyChildren, p.childFromString_of_isValidKey (hK.plain.valid k hk),
        leaves_applyChildren hK htail (fun c hc => hkey c (List.mem_cons_of_mem _ hc))
          (fun c hc => hsub c (List.mem_cons_of_mem _ hc)) hp hchild,
        leaves_applySubtreeWrite hK (hsub _ List.mem_cons_self) hpk hn,
        LeafTree.act_nest_update hnone, hupdate]

end

/-- **`applyToNode:` lays the patch over what the node holds.** -/
theorem leaves_applyToNode [Std.TransCmp stringComparator]
    (hK : NodeKeys stringComparator K) {self : FCompoundWrite}
    (h : self.WF stringComparator K) {n : Node} (hn : n.WF) :
    (self.applyToNode n).leaves = self.patch.act n.leaves :=
  leaves_applySubtreeWrite hK h (fun _ hk => absurd hk List.not_mem_nil) hn

/-! ### The writes it stands for -/

section Writes

variable [Std.TransCmp stringComparator] (hK : NodeKeys stringComparator K)

include hK

/-- **The writes in a compound write**, made one after the other in any order. -/
theorem isEqual_applyToNode_updateAll {self : FCompoundWrite} (h : self.WF stringComparator K)
    {writes : List (FPath × Node)} (hwrites : writes.Perm self.enumerateWrites) {n : Node}
    (hn : n.WF) : (self.applyToNode n).isEqual (n.updateAll writes) = true := by
  have hwrite : ∀ write ∈ writes, (∀ k ∈ write.1, isPlainKey k = true) ∧ write.2.WF := by
    intro write hmem
    obtain ⟨hkeys, hnode⟩ := h.of_mem_enumerateWrites hK.plain (hwrites.mem_iff.1 hmem)
    exact ⟨fun k hk => hK.plain k (hkeys k hk), hnode⟩
  obtain ⟨hWF, hleaves⟩ := Node.leaves_updateAll hn hwrite
  have hapart : (self.enumerateWrites.map fun write => (write.1, write.2.leaves)).Pairwise
      fun u w => LeafTree.Apart u.1 w.1 := by
    rw [List.pairwise_map]
    exact pairwise_enumerateWrites hK h
  rw [(h.applyToNode hK.plain hn).isEqual_iff hWF, leaves_applyToNode hK h hn, hleaves,
    ← putAll_enumerateWrites hK h, LeafTree.act_putAll_of_apart hapart
      (fun w _ => LeafTree.within_empty w.1), LeafTree.act_empty]
  exact (LeafTree.foldl_write_perm (hwrites.map _).symm hapart n.leaves)

omit [Std.TransCmp stringComparator] hK in
/-- Two writes, made in the other order. -/
theorem isEqual_applyToNode_updateAll_reverse :
    (((emptyWrite.addWrite compare (.leaf (.bool true)) ["a"]).addWrite compare
      (.leaf (.bool false)) ["b"]).applyToNode .empty).isEqual
        (Node.empty.updateAll [(["b"], .leaf (.bool false)), (["a"], .leaf (.bool true))]) = true :=
  isEqual_applyToNode_updateAll NodeKeys.compare
    ((WF.emptyWrite.addWrite NodeKeys.compare.plain (.leaf _) (by decide)).addWrite
      NodeKeys.compare.plain (.leaf _) (by decide))
    (List.Perm.swap ..) .empty

/-- **Writes added one after the other** are made one after the other, if no removal among them
has a leaf above it in the node.  (A removal below a leaf leaves the leaf, but what it has removed
from the compound write would have replaced the leaf.) -/
theorem isEqual_applyToNode_foldl_addWrite {writes : List (FPath × Node)}
    (hwrites : ∀ write ∈ writes, (∀ k ∈ write.1, K k) ∧ write.2.WF) {n : Node} (hn : n.WF)
    (hclear : ∀ write ∈ writes, write.2.isEmpty = true → n.noLeafAbove write.1 = true) :
    ((writes.foldl (fun newWrite write => newWrite.addWrite stringComparator write.2 write.1)
      emptyWrite).applyToNode n).isEqual (n.updateAll writes) = true := by
  obtain ⟨hWF, hpatch⟩ := patch_foldl_addWrite hK WF.emptyWrite hwrites
  obtain ⟨hn', hleaves⟩ := Node.leaves_updateAll hn fun write hwrite =>
    ⟨fun k hk => hK.plain k ((hwrites write hwrite).1 k hk), (hwrites write hwrite).2⟩
  have hclear' : ∀ w ∈ writes.map fun write => (write.1, write.2.leaves),
      n.leaves.Clear w.1 w.2 := by
    intro w hw
    obtain ⟨write, hwrite, rfl⟩ := List.mem_map.1 hw
    exact (hwrites write hwrite).2.clear (hK.plain.notZero (hwrites write hwrite).1)
      (hclear write hwrite)
  rw [(hWF.applyToNode hK.plain hn).isEqual_iff hn', leaves_applyToNode hK hWF hn, hpatch, hleaves,
    patch_emptyWrite, LeafTree.act_putAll hclear', LeafTree.act_empty]

omit [Std.TransCmp stringComparator] hK in
/-- A write, and another one above it. -/
theorem isEqual_applyToNode_foldl_addWrite_above :
    (([(["a", "b"], Node.leaf (.bool true)), (["a"], .leaf (.bool false))].foldl
      (fun newWrite write => newWrite.addWrite compare write.2 write.1)
        emptyWrite).applyToNode .empty).isEqual (Node.empty.updateAll
          [(["a", "b"], .leaf (.bool true)), (["a"], .leaf (.bool false))]) = true :=
  isEqual_applyToNode_foldl_addWrite NodeKeys.compare
    (List.forall_mem_cons.2 ⟨⟨by decide, .leaf _⟩,
      List.forall_mem_singleton.2 ⟨by decide, .leaf _⟩⟩)
    .empty (by decide)

end Writes

end Apply

end FCompoundWrite
end Teamstuff
