/-
# Server data with the pending writes on top

The functions of `FWriteTree.m` that a view asks what its listeners are to see, given what the
server has sent, and `FWriteTreeRef.m`, which asks them for the path of the view.  They look at
the visible writes only where these matter at the path: a write at the path or above hides all
of the server's data there, and where there are none the data goes through as it is.

Each of the answers is what the patch of the visible writes makes of the server's data at the
path (`FWriteTreeRef.patch`).  The whole event cache is the patch laid over the server's cache
(`leaves_calculateCompleteEventCache`); after a change of the server's data at a path below,
it is enough to lay the part of the patch that is within the path
(`leaves_calculateEventCacheAfterServerOverwrite`, `leaves_calculateCompleteChild`).
-/

import Teamstuff.Firebase.WriteTree
import Teamstuff.Firebase.ViewCache

namespace Teamstuff
namespace FWriteTree

variable (stringComparator : NSComparator)

/-- `completeWriteDataAtPath:` and `shadowingWriteAtPath:`. -/
def shadowingWriteAtPath (self : FWriteTree) (path : FPath) : Option Node :=
  self.visibleWrites.completeNodeAtPath stringComparator path

/-- `calculateCompleteEventCacheAtPath:completeServerCache:excludeWriteIds:includeHiddenWrites:`. -/
def calculateCompleteEventCacheAtPath (self : FWriteTree) (treePath : FPath)
    (completeServerCache : Option Node) (writeIdsToExclude : Option (List ℤ))
    (includeHiddenWrites : Bool) : Option Node :=
  if writeIdsToExclude.isNone && !includeHiddenWrites then
    match self.visibleWrites.completeNodeAtPath stringComparator treePath with
    | some shadowingNode => some shadowingNode
    | none =>
        let subMerge := self.visibleWrites.childCompoundWriteAtPath stringComparator treePath
        if subMerge.isEmpty then completeServerCache
        else if completeServerCache.isNone &&
            !subMerge.hasCompleteWriteAtPath stringComparator [] then none
        else some (subMerge.applyToNode (completeServerCache.getD .empty))
  else
    let merge := self.visibleWrites.childCompoundWriteAtPath stringComparator treePath
    if !includeHiddenWrites && merge.isEmpty then completeServerCache
    else if !includeHiddenWrites && completeServerCache.isNone &&
        !merge.hasCompleteWriteAtPath stringComparator [] then none
    else
      let filter := fun record : FWriteRecord =>
        (record.visible || includeHiddenWrites) &&
          (writeIdsToExclude.all fun ids => !ids.contains record.writeId) &&
          (record.path.contains treePath || treePath.contains record.path)
      let mergeAtPath := layerTreeFromWrites stringComparator self.allWrites filter treePath
      some (mergeAtPath.applyToNode (completeServerCache.getD .empty))

/-- `calculateEventCacheAfterServerOverwriteAtPath:childPath:existingEventSnap:existingServerSnap:`;
the event snapshot is not read. -/
def calculateEventCacheAfterServerOverwriteAtPath (self : FWriteTree) (treePath childPath : FPath)
    (existingServerSnap : Node) : Option Node :=
  let path := treePath ++ childPath
  if self.visibleWrites.hasCompleteWriteAtPath stringComparator path then none
  else
    let childMerge := self.visibleWrites.childCompoundWriteAtPath stringComparator path
    if childMerge.isEmpty then some (existingServerSnap.getChild childPath)
    else some (childMerge.applyToNode (existingServerSnap.getChild childPath))

/-- `calculateCompleteEventChildrenAtPath:completeServerChildren:`. -/
def calculateCompleteEventChildrenAtPath (self : FWriteTree) (treePath : FPath)
    (completeServerChildren : Node) : Node :=
  match self.visibleWrites.completeNodeAtPath stringComparator treePath with
  | some topLevelSet =>
      -- a leaf has no children to enumerate
      topLevelSet.childList.foldl (fun completeChildren child =>
        completeChildren.updateImmediateChild child.1 child.2) .empty
  | none =>
      let merge := self.visibleWrites.childCompoundWriteAtPath stringComparator treePath
      let serverChildren := completeServerChildren.childList.foldl (fun completeChildren child =>
        let childMerge := merge.childCompoundWriteAtPath stringComparator (FPath.initWith child.1)
        completeChildren.updateImmediateChild child.1 (childMerge.applyToNode child.2)) .empty
      merge.completeChildren.foldl (fun completeChildren child =>
        completeChildren.updateImmediateChild child.1 child.2) serverChildren

/-- `calculateCompleteChildAtPath:childKey:cache:`. -/
def calculateCompleteChildAtPath (self : FWriteTree) (treePath : FPath) (childKey : String)
    (existingServerCache : FCacheNode) : Option Node :=
  let path := treePath.childFromString childKey
  match self.visibleWrites.completeNodeAtPath stringComparator path with
  | some shadowingNode => some shadowingNode
  | none =>
      if existingServerCache.isCompleteForChild childKey then
        let childMerge := self.visibleWrites.childCompoundWriteAtPath stringComparator path
        some (childMerge.applyToNode (existingServerCache.node.getImmediateChild childKey))
      else none

end FWriteTree

/-! ### The writes at a path -/

/-- `FWriteTreeRef`. -/
structure FWriteTreeRef where
  path : FPath
  writeTree : FWriteTree

namespace FWriteTreeRef

variable (stringComparator : NSComparator)

/-- `calculateCompleteEventCacheWithCompleteServerCache:`. -/
def calculateCompleteEventCache (self : FWriteTreeRef) (completeServerCache : Option Node) :
    Option Node :=
  self.writeTree.calculateCompleteEventCacheAtPath stringComparator self.path completeServerCache
    none false

/-- `calculateCompleteEventChildrenWithCompleteServerChildren:`. -/
def calculateCompleteEventChildren (self : FWriteTreeRef) (completeServerChildren : Node) : Node :=
  self.writeTree.calculateCompleteEventChildrenAtPath stringComparator self.path
    completeServerChildren

/-- `calculateEventCacheAfterServerOverwriteWithChildPath:existingEventSnap:existingServerSnap:`. -/
def calculateEventCacheAfterServerOverwrite (self : FWriteTreeRef) (childPath : FPath)
    (existingServerSnap : Node) : Option Node :=
  self.writeTree.calculateEventCacheAfterServerOverwriteAtPath stringComparator self.path
    childPath existingServerSnap

/-- `shadowingWriteAtPath:`. -/
def shadowingWriteAtPath (self : FWriteTreeRef) (path : FPath) : Option Node :=
  self.writeTree.shadowingWriteAtPath stringComparator (self.path ++ path)

/-- `calculateCompleteChild:cache:`. -/
def calculateCompleteChild (self : FWriteTreeRef) (childKey : String)
    (existingServerCache : FCacheNode) : Option Node :=
  self.writeTree.calculateCompleteChildAtPath stringComparator self.path childKey
    existingServerCache

/-- `childWriteTreeRef:`. -/
def childWriteTreeRef (self : FWriteTreeRef) (childKey : String) : FWriteTreeRef :=
  ⟨self.path.childFromString childKey, self.writeTree⟩

/-- What the writes do at the path. -/
def patch (self : FWriteTreeRef) : LeafTree.Patch String LeafValue :=
  self.writeTree.visibleWrites.patch.within self.path

/-- The keys of the path are in `K`, and the visible writes well formed. -/
structure WF (K : String → Prop) (ref : FWriteTreeRef) : Prop where
  path : ∀ k ∈ ref.path, K k
  visibleWrites : ref.writeTree.visibleWrites.WF stringComparator K

variable {stringComparator} [Std.TransCmp stringComparator] {K : String → Prop}
  (hK : NodeKeys stringComparator K) {self : FWriteTreeRef}

omit [Std.TransCmp stringComparator] in
/-- With more keys. -/
theorem WF.mono {K' : String → Prop} (h : self.WF stringComparator K) (hK : ∀ k, K k → K' k) :
    self.WF stringComparator K' :=
  ⟨fun k hk => hK k (h.path k hk), FImmutableTree.WF.mono h.visibleWrites hK⟩

omit [Std.TransCmp stringComparator] in
/-- A path further down. -/
theorem WF.keys_append (h : self.WF stringComparator K) {path : FPath}
    (hpath : ∀ k ∈ path, K k) : ∀ k ∈ self.path ++ path, K k := fun k hk =>
  (List.mem_append.1 hk).elim (h.path k) (hpath k)

include hK

/-- **A write hides a path** exactly if the patch puts something at the path or above. -/
theorem root_within_patch (h : self.WF stringComparator K) {path : FPath}
    (hpath : ∀ k ∈ path, K k) : (self.patch.within path).root =
      (self.shadowingWriteAtPath stringComparator path).map Node.leaves := by
  rw [patch, ← LeafTree.within_append]
  exact FCompoundWrite.root_within_patch hK h.visibleWrites (h.keys_append hpath)

omit hK [Std.TransCmp stringComparator] in
/-- A write that shadows the path is well formed. -/
theorem WF.shadowingWriteAtPath (h : self.WF stringComparator K) {path : FPath} {node : Node}
    (hnode : self.shadowingWriteAtPath stringComparator path = some node) : node.WF :=
  h.visibleWrites.completeNodeAtPath hnode

/-- The writes at a path below, laid over what is there. -/
theorem leaves_applyToNode_child (h : self.WF stringComparator K) {path : FPath}
    (hpath : ∀ k ∈ path, K k) {node : Node} (hnode : node.WF) :
    ((self.writeTree.visibleWrites.childCompoundWriteAtPath stringComparator
      (self.path ++ path)).applyToNode node).leaves = (self.patch.within path).act node.leaves := by
  rw [FCompoundWrite.leaves_applyToNode hK h.visibleWrites.childCompoundWriteAtPath hnode,
    FCompoundWrite.patch_childCompoundWriteAtPath hK h.visibleWrites (h.keys_append hpath),
    LeafTree.within_append, patch]

/-- **The event cache is the patch laid over the server's cache**; without the server's cache
there is one only if the patch hides all of it. -/
theorem leaves_calculateCompleteEventCache (h : self.WF stringComparator K)
    {completeServerCache : Option Node} : (∀ node ∈ completeServerCache, node.WF) →
    (self.calculateCompleteEventCache stringComparator completeServerCache).map Node.leaves =
      match completeServerCache with
      | some node => some (self.patch.act node.leaves)
      | none => self.patch.root := by
  intro hserver
  have hnil : ∀ k ∈ ([] : FPath), K k := fun _ hk => absurd hk List.not_mem_nil
  have hroot := root_within_patch hK h hnil
  have happly : ∀ {node : Node}, node.WF →
      ((self.writeTree.visibleWrites.childCompoundWriteAtPath stringComparator
        self.path).applyToNode node).leaves = self.patch.act node.leaves := by
    intro node hnode
    have happend := leaves_applyToNode_child hK h hnil hnode
    rwa [LeafTree.within_nil, List.append_nil] at happend
  rw [LeafTree.within_nil, shadowingWriteAtPath, FWriteTree.shadowingWriteAtPath,
    List.append_nil] at hroot
  rw [calculateCompleteEventCache, FWriteTree.calculateCompleteEventCacheAtPath,
    if_pos (by decide)]
  cases hnode : self.writeTree.visibleWrites.completeNodeAtPath stringComparator self.path with
  | some shadowingNode =>
      rw [hnode] at hroot
      cases completeServerCache with
      | some node => exact congrArg some (LeafTree.act_of_root hroot _).symm
      | none => exact hroot.symm
  | none =>
      rw [hnode] at hroot
      dsimp only
      have hmerge := FCompoundWrite.patch_childCompoundWriteAtPath hK h.visibleWrites h.path
      split_ifs with hempty hcomplete
      · -- there are no writes at the path, or below it
        have hpatch : self.patch = ∅ :=
          hmerge.symm.trans (FImmutableTree.patch_of_isEmpty hempty)
        cases completeServerCache with
        | some node => exact congrArg some (by rw [hpatch, LeafTree.act_empty])
        | none => exact hroot.symm
      · rw [Bool.and_eq_true, Option.isNone_iff_eq_none] at hcomplete
        rw [hcomplete.1]
        exact hroot.symm
      · cases completeServerCache with
        | some node => exact congrArg some (happly (hserver node rfl))
        | none =>
            -- nothing hides the path, so the data of the server is missing
            have hnone := FCompoundWrite.root_within_patch hK
              (h.visibleWrites.childCompoundWriteAtPath : FCompoundWrite.WF stringComparator K
                (self.writeTree.visibleWrites.childCompoundWriteAtPath stringComparator
                  self.path)) hnil
            rw [hmerge, LeafTree.within_nil] at hnone
            refine absurd ?_ hcomplete
            rw [FCompoundWrite.hasCompleteWriteAtPath,
              Option.map_eq_none_iff.1 (hnone.symm.trans hroot)]
            rfl

omit [Std.TransCmp stringComparator] hK in
/-- What is shown is well formed. -/
theorem WF.calculateCompleteEventCache (hK : PlainKeys K) (h : self.WF stringComparator K)
    {completeServerCache : Option Node} (hserver : ∀ node ∈ completeServerCache, node.WF)
    {node : Node}
    (hnode : self.calculateCompleteEventCache stringComparator completeServerCache = some node) :
    node.WF := by
  rw [FWriteTreeRef.calculateCompleteEventCache, FWriteTree.calculateCompleteEventCacheAtPath,
    if_pos (by decide)] at hnode
  split at hnode
  next shadowingNode hshadowing =>
    obtain rfl := Option.some.inj hnode
    exact h.visibleWrites.completeNodeAtPath hshadowing
  next =>
    dsimp only at hnode
    split_ifs at hnode
    · exact hserver node hnode
    · obtain rfl := Option.some.inj hnode
      refine h.visibleWrites.childCompoundWriteAtPath.applyToNode hK ?_
      cases completeServerCache with
      | some server => exact hserver server rfl
      | none => exact .empty

/-- **After a change of the server's data** there is nothing to apply if a write hides it, and
else what the patch makes of it. -/
theorem leaves_calculateEventCacheAfterServerOverwrite (h : self.WF stringComparator K)
    {childPath : FPath} (hpath : ∀ k ∈ childPath, K k)
    (hroot : (self.patch.within childPath).root = none) {existingServerSnap : Node}
    (hserver : existingServerSnap.WF) :
    ∃ node, self.calculateEventCacheAfterServerOverwrite stringComparator childPath
        existingServerSnap = some node ∧ node.WF ∧
      node.leaves =
        (self.patch.within childPath).act (existingServerSnap.leaves.sub childPath) := by
  have hshadowing := root_within_patch hK h hpath
  rw [hroot, shadowingWriteAtPath, FWriteTree.shadowingWriteAtPath, eq_comm,
    Option.map_eq_none_iff] at hshadowing
  have hmerge := FCompoundWrite.patch_childCompoundWriteAtPath hK h.visibleWrites
    (h.keys_append hpath)
  rw [LeafTree.within_append] at hmerge
  rw [calculateEventCacheAfterServerOverwrite,
    FWriteTree.calculateEventCacheAfterServerOverwriteAtPath]
  dsimp only
  rw [FCompoundWrite.hasCompleteWriteAtPath, hshadowing, Option.isSome_none,
    if_neg Bool.false_ne_true,
    Node.sub_leaves existingServerSnap (hK.plain.notZero hpath)]
  split_ifs with hempty
  · refine ⟨_, rfl, hserver.getChild childPath, ?_⟩
    have hnothing : self.patch.within childPath = ∅ :=
      hmerge.symm.trans (FImmutableTree.patch_of_isEmpty hempty)
    rw [hnothing, LeafTree.act_empty]
  · exact ⟨_, rfl, h.visibleWrites.childCompoundWriteAtPath.applyToNode hK.plain
      (hserver.getChild childPath), leaves_applyToNode_child hK h hpath (hserver.getChild childPath)⟩

omit [Std.TransCmp stringComparator] hK in
/-- So is what is shown of new data from the server. -/
theorem WF.calculateEventCacheAfterServerOverwrite (hK : PlainKeys K) (h : self.WF stringComparator K)
    {childPath : FPath} {existingServerSnap : Node} (hserver : existingServerSnap.WF)
    {node : Node} (hnode : self.calculateEventCacheAfterServerOverwrite stringComparator childPath
      existingServerSnap = some node) : node.WF := by
  rw [FWriteTreeRef.calculateEventCacheAfterServerOverwrite,
    FWriteTree.calculateEventCacheAfterServerOverwriteAtPath] at hnode
  dsimp only at hnode
  split_ifs at hnode
  · exact Option.some.inj hnode ▸ hserver.getChild childPath
  · exact Option.some.inj hnode ▸ h.visibleWrites.childCompoundWriteAtPath.applyToNode hK
      (hserver.getChild childPath)

/-- **A child of what listeners are to see**, where the server's data has it. -/
theorem leaves_calculateCompleteChild (h : self.WF stringComparator K) {childKey : String}
    (hkey : K childKey) {existingServerCache : FCacheNode} (hserver : existingServerCache.node.WF) :
    (self.calculateCompleteChild stringComparator childKey existingServerCache).map Node.leaves =
      if existingServerCache.isCompleteForChild childKey then
        some ((self.patch.within [childKey]).act
          (existingServerCache.node.childLeaves childKey))
      else (self.patch.within [childKey]).root := by
  have hkeys : ∀ k ∈ [childKey], K k := fun k hk => List.mem_singleton.1 hk ▸ hkey
  have hroot := root_within_patch hK h hkeys
  rw [shadowingWriteAtPath, FWriteTree.shadowingWriteAtPath] at hroot
  rw [calculateCompleteChild, FWriteTree.calculateCompleteChildAtPath,
    self.path.childFromString_of_isValidKey (hK.plain.valid childKey hkey)]
  dsimp only
  cases hnode : self.writeTree.visibleWrites.completeNodeAtPath stringComparator
      (self.path ++ [childKey]) with
  | some shadowingNode =>
      rw [hnode] at hroot
      dsimp only
      rw [LeafTree.act_of_root hroot, hroot]
      exact (ite_self _).symm
  | none =>
      rw [hnode] at hroot
      dsimp only
      split_ifs
      · rw [Option.map_some,
          leaves_applyToNode_child hK h hkeys (hserver.getImmediateChild childKey),
          Node.childLeaves, Node.child_leaves _ (isNegativeZero_of_isPlainKey (hK.plain _ hkey))]
      · exact hroot.symm

omit [Std.TransCmp stringComparator] hK in
/-- So is a complete child. -/
theorem WF.calculateCompleteChild (hK : PlainKeys K) (h : self.WF stringComparator K) {childKey : String}
    {existingServerCache : FCacheNode} (hserver : existingServerCache.node.WF) {node : Node}
    (hnode : self.calculateCompleteChild stringComparator childKey existingServerCache = some node) :
    node.WF := by
  rw [FWriteTreeRef.calculateCompleteChild, FWriteTree.calculateCompleteChildAtPath] at hnode
  dsimp only at hnode
  split at hnode
  next shadowingNode hshadowing =>
    exact Option.some.inj hnode ▸ h.visibleWrites.completeNodeAtPath hshadowing
  next =>
    split_ifs at hnode
    exact Option.some.inj hnode ▸ h.visibleWrites.childCompoundWriteAtPath.applyToNode hK
      (hserver.getImmediateChild childKey)

omit [Std.TransCmp stringComparator] hK in
/-- Children put in one after the other. -/
theorem WF_foldl_updateImmediateChild {α : Type} {l : List α} {key : α → String}
    {child : α → Node} {completeChildren : Node} (h : completeChildren.WF)
    (hl : ∀ a ∈ l, isPlainKey (key a) = true ∧ (child a).WF) :
    (l.foldl (fun completeChildren a => completeChildren.updateImmediateChild (key a) (child a))
      completeChildren).WF := by
  induction l generalizing completeChildren with
  | nil => exact h
  | cons a l ih =>
      obtain ⟨hkey, hchild⟩ := hl a List.mem_cons_self
      exact ih (h.updateImmediateChild hchild hkey) fun b hb => hl b (List.mem_cons_of_mem a hb)

omit [Std.TransCmp stringComparator] hK in
/-- So are the complete children. -/
theorem WF.calculateCompleteEventChildren (hK : PlainKeys K) (h : self.WF stringComparator K)
    {completeServerChildren : Node} (hserver : completeServerChildren.WF) :
    (self.calculateCompleteEventChildren stringComparator completeServerChildren).WF := by
  have hchild : ∀ {n : Node}, n.WF → ∀ c ∈ n.childList, isPlainKey c.1 = true ∧ c.2.WF :=
    fun {n} hn c hc => ⟨hn.key_of_mem hc, hn.of_mem_childList hc⟩
  rw [FWriteTreeRef.calculateCompleteEventChildren,
    FWriteTree.calculateCompleteEventChildrenAtPath]
  split
  next topLevelSet htop =>
    exact WF_foldl_updateImmediateChild .empty (hchild (h.visibleWrites.completeNodeAtPath htop))
  next =>
    dsimp only
    have hmerge : (self.writeTree.visibleWrites.childCompoundWriteAtPath stringComparator
        self.path).WF stringComparator K := h.visibleWrites.childCompoundWriteAtPath
    refine WF_foldl_updateImmediateChild (WF_foldl_updateImmediateChild .empty fun c hc => ?_)
      fun c hc => ?_
    · obtain ⟨hkey, hc'⟩ := hchild hserver c hc
      exact ⟨hkey, hmerge.childCompoundWriteAtPath.applyToNode hK hc'⟩
    · exact FCompoundWrite.WF.of_mem_completeChildren hK hmerge hc

end FWriteTreeRef
end Teamstuff
