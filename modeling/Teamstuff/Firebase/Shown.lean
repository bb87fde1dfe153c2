/-
# What a view shows

Once the data of a view is known, its listeners are shown what the pending writes make of the
server's data (`Shows`).  An operation does not compute this anew: it changes the event cache at
the path of the operation and reports the children it has changed.  The lemmas below say for
each operation that what it changes is enough: the event cache it leaves is again the pending
writes laid over the server's cache, and the log of changes leads from the children shown before
to those shown now and has nothing in it if they are the same.

For the write of a user the reason is that the pending writes with it are the pending writes
followed by it (`LeafTree.act_put`); for data from the server, that the pending writes can be
laid over the new data at the path alone (`LeafTree.act_write`) and hide it where they cover the
path (`LeafTree.act_write_of_covered`); and for the server's answer, that the event cache
is the one without the write, with something written at its path (`LeafTree.act_write_undo`).
-/

import Teamstuff.Firebase.ViewProcessor

namespace Teamstuff

/-- A node that comes to hold `leaves`, and a log that tells of it. -/
structure Becomes (old : Node) (leaves : LeafTree String LeafValue) (new : Node × List FChange) :
    Prop where
  leaves_eq : new.1.leaves = leaves
  leads : Leads old.childLeaves new.2 new.1.childLeaves
  silent : old.childLeaves = new.1.childLeaves → new.2 = []

namespace Becomes

variable {old node : Node} {path : FPath} {m : LeafTree String LeafValue} {childKey : String}

/-- Nothing has to be done where the node is as it is to be. -/
theorem unchanged (old : Node) : Becomes old old.leaves (old, []) := ⟨rfl, rfl, fun _ => rfl⟩

/-- The whole node is replaced. -/
theorem updateFullNode (hold : old.WF) (hnew : node.WF) :
    Becomes old node.leaves (FIndexedFilter.updateFullNode old node) :=
  ⟨rfl, (FIndexedFilter.leads_updateFullNode hold hnew).1,
    (FIndexedFilter.leads_updateFullNode hold hnew).2.2⟩

/-- A child update, where a comparison at the path tells whether the child changes. -/
theorem updateChildIn (hold : old.WF) (hnode : node.WF) (hkey : isPlainKey childKey = true)
    (hpath : ∀ k ∈ path, isPlainKey k = true)
    (hoff : (old.childLeaves childKey).sub path = node.leaves.sub path →
      old.childLeaves childKey = node.leaves) :
    Becomes old (old.leaves.write [childKey] node.leaves)
      (FIndexedFilter.updateChildIn old childKey node path) := by
  obtain ⟨hleads, hsilent⟩ := FIndexedFilter.leads_updateChildIn hold hnode hkey hpath
  exact ⟨FIndexedFilter.leaves_updateChildIn hold hnode hkey hpath hoff, hleads, hsilent⟩

/-- The update of a child that is written to below. -/
theorem updateChildIn_write (hold : old.WF) (hnode : node.WF)
    (hpath : ∀ k ∈ childKey :: path, isPlainKey k = true)
    (hwrite : node.leaves = (old.childLeaves childKey).write path m) :
    Becomes old (old.leaves.write (childKey :: path) m)
      (FIndexedFilter.updateChildIn old childKey node path) := by
  obtain ⟨hkey, hpath⟩ := List.forall_mem_cons.1 hpath
  have h := updateChildIn hold hnode hkey hpath (LeafTree.eq_of_sub_eq hwrite)
  rwa [hwrite, Node.childLeaves, LeafTree.write_singleton_write] at h

/-- A full update after another change. -/
theorem trans_updateFullNode {reverted : Node × List FChange} (hreverted : reverted.1.WF)
    (hnode : node.WF) (h : Becomes old (LeafTree.node node.childLeaves) reverted) :
    Becomes old node.leaves ((FIndexedFilter.updateFullNode reverted.1 node).1,
      reverted.2 ++ (FIndexedFilter.updateFullNode reverted.1 node).2) := by
  have hchildren : reverted.1.childLeaves = node.childLeaves := by
    funext k
    rw [Node.childLeaves, h.leaves_eq, LeafTree.child_node]
  obtain ⟨hleads, hsilent⟩ := FIndexedFilter.leads_updateFullNode hreverted hnode
  refine ⟨rfl, h.leads.append hleads, fun hold => ?_⟩
  rw [h.silent (hold.trans hchildren.symm), hsilent.2 hchildren, List.append_nil]

end Becomes

namespace FViewProcessor

open FIndexedFilter

variable {stringComparator : NSComparator} [Std.TransCmp stringComparator] {K : String → Prop}
  (hK : NodeKeys stringComparator K) {writesCache : FWriteTreeRef}
  (hwrites : writesCache.WF stringComparator K) {viewCache : FViewCache} (h : viewCache.WF)
  {path : FPath}

include hK hwrites

/-- A path that is covered is left alone. -/
theorem exists_shadowing (hpath : ∀ k ∈ path, K k)
    (hroot : (writesCache.patch.within path).root.isSome = true) :
    ∃ node, writesCache.shadowingWriteAtPath stringComparator path = some node := by
  rw [FWriteTreeRef.root_within_patch hK hwrites hpath, Option.isSome_map] at hroot
  exact Option.isSome_iff_exists.1 hroot

/-- Where no write covers the path none shadows it. -/
theorem shadowing_eq_none (hpath : ∀ k ∈ path, K k)
    (hroot : (writesCache.patch.within path).root = none) :
    writesCache.shadowingWriteAtPath stringComparator path = none := by
  rw [FWriteTreeRef.root_within_patch hK hwrites hpath] at hroot
  exact Option.map_eq_none_iff.1 hroot

/-- Where a write covers the path nothing is shown of the server's data. -/
theorem generateEventCacheAfterServerEvent_of_covered (hpath : ∀ k ∈ path, K k)
    (hroot : (writesCache.patch.within path).root.isSome = true) :
    generateEventCacheAfterServerEvent stringComparator viewCache path writesCache =
      (viewCache, []) := by
  obtain ⟨node, hnode⟩ := exists_shadowing hK hwrites hpath hroot
  unfold generateEventCacheAfterServerEvent
  rw [hnode]

include h

/-- Over complete data of the server, the writes are shown made on it. -/
theorem exists_completeEventCache
    (hserver : viewCache.cachedServerSnap.isFullyInitialized = true) :
    ∃ node, writesCache.calculateCompleteEventCache stringComparator
        viewCache.completeServerSnap = some node ∧ node.WF ∧
      node.leaves = writesCache.patch.act viewCache.cachedServerSnap.node.leaves := by
  have hcomplete : viewCache.completeServerSnap = some viewCache.cachedServerSnap.node := by
    rw [FViewCache.completeServerSnap, if_pos hserver]
  have hserverWF : ∀ node ∈ viewCache.completeServerSnap, node.WF := by
    intro node hnode
    rw [hcomplete] at hnode
    exact Option.some.inj hnode ▸ h.server
  have hleaves := FWriteTreeRef.leaves_calculateCompleteEventCache hK hwrites hserverWF
  rw [hcomplete] at hleaves
  obtain ⟨node, hnode, hact⟩ := Option.map_eq_some_iff.1 hleaves
  rw [← hcomplete] at hnode
  exact ⟨node, hnode, WF_completeServerSnap hK.plain hwrites h hnode, hact⟩

/-- **After an event of the server** what the writes make of its data is put in at the path. -/
theorem generateEventCacheAfterServerEvent_of_not_covered (hpath : ∀ k ∈ path, K k)
    (hroot : (writesCache.patch.within path).root = none)
    (hserver : viewCache.cachedServerSnap.isFullyInitialized = true)
    (hevent : path = [] ∨ viewCache.cachedEventSnap.isFullyInitialized = true) :
    ∃ new, generateEventCacheAfterServerEvent stringComparator viewCache path writesCache =
        (viewCache.updateEventSnap new.1 true, new.2) ∧
      Becomes viewCache.cachedEventSnap.node
        (viewCache.cachedEventSnap.node.leaves.write path ((writesCache.patch.within path).act
          (viewCache.cachedServerSnap.node.leaves.sub path))) new := by
  have hcomplete : (viewCache.cachedEventSnap.isFullyInitialized || path.isEmpty) = true := by
    rcases hevent with rfl | hevent
    · simp
    · rw [hevent, Bool.true_or]
  unfold generateEventCacheAfterServerEvent
  rw [shadowing_eq_none hK hwrites hpath hroot]
  dsimp only
  rw [hcomplete]
  refine ⟨_, rfl, ?_⟩
  cases path with
  | nil =>
      obtain ⟨node, hnode, hWF, hleaves⟩ := exists_completeEventCache hK hwrites h hserver
      dsimp only
      rw [hnode, LeafTree.within_nil, LeafTree.sub_nil, LeafTree.write_nil, ← hleaves]
      exact Becomes.updateFullNode h.event hWF
  | cons childKey childChangePath =>
      have hchildComplete : viewCache.cachedEventSnap.isCompleteForChild childKey = true := by
        rw [FCacheNode.isCompleteForChild, hevent.resolve_left (List.cons_ne_nil _ _),
          Bool.true_or]
      obtain ⟨update, hupdate, hWF, hleaves⟩ :=
        FWriteTreeRef.leaves_calculateEventCacheAfterServerOverwrite hK hwrites hpath hroot h.server
      have hchild : newEventChild stringComparator viewCache childKey childChangePath writesCache =
          some ((viewCache.cachedEventSnap.node.getImmediateChild childKey).updateChild
            childChangePath update) := by
        rw [newEventChild, if_pos hchildComplete, hupdate]
      dsimp only
      rw [hchild, ← hleaves]
      obtain ⟨hkey, hrest⟩ := List.forall_mem_cons.1 (hK.plain.notZero hpath)
      have hold : (viewCache.cachedEventSnap.node.getImmediateChild childKey).WF :=
        h.event.getImmediateChild childKey
      refine Becomes.updateChildIn_write h.event (WF_newEventChild hK.plain hwrites h hpath hchild)
        (hK.plain.of_mem hpath) ?_
      rw [Node.leaves_updateChild hold.valid hWF.valid hrest,
        Node.childLeaves, Node.child_leaves _ hkey]

omit hK hwrites h [Std.TransCmp stringComparator] in
/-- Showing the same again. -/
theorem updateEventSnap_self (hevent : viewCache.cachedEventSnap.isFullyInitialized = true) :
    viewCache.updateEventSnap viewCache.cachedEventSnap.node true = viewCache := by
  rw [FViewCache.updateEventSnap, ← hevent]

omit [Std.TransCmp stringComparator] hwrites in
variable (writesCache) in
/-- **A write of the user** is put in at its path. -/
theorem applyUserOverwriteTo_of_complete (hpath : ∀ k ∈ path, K k) {changedSnap : Node}
    (hsnap : changedSnap.WF) (optCompleteCache : Option Node)
    (hevent : path = [] ∨ viewCache.cachedEventSnap.isFullyInitialized = true) :
    ∃ new, applyUserOverwriteTo stringComparator viewCache path changedSnap writesCache
        optCompleteCache = (viewCache.updateEventSnap new.1 true, new.2) ∧
      Becomes viewCache.cachedEventSnap.node
        (viewCache.cachedEventSnap.node.leaves.write path changedSnap.leaves) new := by
  cases path with
  | nil =>
      rw [LeafTree.write_nil]
      exact ⟨_, rfl, Becomes.updateFullNode h.event hsnap⟩
  | cons childKey childChangePath =>
      have hevent' := hevent.resolve_left (List.cons_ne_nil _ _)
      obtain ⟨hkey, hrest⟩ := List.forall_mem_cons.1 (hK.plain.notZero hpath)
      have hchild : (viewCache.cachedEventSnap.node.getImmediateChild childKey).WF :=
        h.event.getImmediateChild childKey
      have hchildComplete : viewCache.cachedEventSnap.isCompleteForChild childKey = true := by
        rw [FCacheNode.isCompleteForChild, hevent', Bool.true_or]
      let newChild := (viewCache.cachedEventSnap.node.getImmediateChild childKey).updateChild
        childChangePath changedSnap
      have hWF : newChild.WF := hchild.updateChild hsnap fun k hk =>
        hK.plain k (hpath k (List.mem_cons_of_mem childKey hk))
      have hleaves : newChild.leaves = (viewCache.cachedEventSnap.node.childLeaves childKey).write
          childChangePath changedSnap.leaves := by
        rw [Node.leaves_updateChild hchild.valid hsnap.valid hrest, Node.childLeaves,
          Node.child_leaves _ hkey]
      have hnew : writtenChild stringComparator viewCache childKey childChangePath changedSnap
          writesCache optCompleteCache = newChild := by
        unfold writtenChild completeChild
        cases childChangePath with
        | nil => exact (Node.updateChild_nil _ _).symm
        | cons k p =>
            dsimp only
            rw [if_pos hchildComplete]
            rfl
      rw [applyUserOverwriteTo, hnew]
      split_ifs with hequal
      · -- the child compares equal to what it would be
        have hself : viewCache.cachedEventSnap.node.leaves.write (childKey :: childChangePath)
            changedSnap.leaves = viewCache.cachedEventSnap.node.leaves := by
          rw [← LeafTree.write_singleton_write, ← Node.childLeaves, ← hleaves,
            ← (hchild.isEqual_iff hWF).1 hequal, ← Node.child_leaves _ hkey]
          exact viewCache.cachedEventSnap.node.leaves.write_sub_self [childKey]
        rw [hself]
        exact ⟨_, by rw [updateEventSnap_self hevent'], Becomes.unchanged _⟩
      · rw [hevent']
        exact ⟨_, rfl, Becomes.updateChildIn_write h.event hWF (hK.plain.of_mem hpath) hleaves⟩

omit [Std.TransCmp stringComparator] hwrites in
variable (writesCache) in
/-- **Data from the server** is put into its cache, and then into the event cache. -/
theorem applyServerOverwriteTo_of_complete (hpath : ∀ k ∈ path, K k) {changedSnap : Node}
    (hsnap : changedSnap.WF)
    (hserver : path = [] ∨ viewCache.cachedServerSnap.isFullyInitialized = true) :
    ∃ server, applyServerOverwriteTo stringComparator viewCache path changedSnap writesCache =
        generateEventCacheAfterServerEvent stringComparator
          (viewCache.updateServerSnap server true) path writesCache ∧
      server.WF ∧
      server.leaves = viewCache.cachedServerSnap.node.leaves.write path changedSnap.leaves := by
  cases path with
  | nil => exact ⟨changedSnap, rfl, hsnap, (LeafTree.write_nil ..).symm⟩
  | cons childKey childChangePath =>
      have hserver' := hserver.resolve_left (List.cons_ne_nil _ _)
      have hcomplete : viewCache.cachedServerSnap.isCompleteForPath
          (childKey :: childChangePath) = true := by
        rw [FCacheNode.isCompleteForPath, FCacheNode.isCompleteForChild, hserver', Bool.true_or]
      have hold : (viewCache.cachedServerSnap.node.getImmediateChild childKey).WF :=
        h.server.getImmediateChild childKey
      have hWF : ((viewCache.cachedServerSnap.node.getImmediateChild childKey).updateChild
          childChangePath changedSnap).WF :=
        hold.updateChild hsnap fun k hk =>
          hK.plain k (hpath k (List.mem_cons_of_mem childKey hk))
      rw [applyServerOverwriteTo, hcomplete, hserver', Bool.not_true, Bool.false_and,
        if_neg Bool.false_ne_true]
      refine ⟨_, rfl, WF_updateChildIn h.server hWF
        (hK.plain childKey (hpath childKey List.mem_cons_self)), ?_⟩
      obtain ⟨hkey, hrest⟩ := List.forall_mem_cons.1 (hK.plain.notZero hpath)
      refine (Becomes.updateChildIn_write h.server hWF (hK.plain.of_mem hpath) ?_).leaves_eq
      rw [Node.leaves_updateChild hold.valid hsnap.valid hrest,
        Node.childLeaves, Node.child_leaves _ hkey]

/-- **The child of a write that is taken back** becomes what it is without the write. -/
theorem becomes_revertedChild {childKey : String} {childPath : FPath} (hkey : K childKey)
    (hpath : ∀ k ∈ childPath, K k)
    (hserver : viewCache.cachedServerSnap.isFullyInitialized = true)
    {y : LeafTree String LeafValue} (hy : y ≠ ∅)
    (hevent : viewCache.cachedEventSnap.node.leaves =
      (writesCache.patch.act viewCache.cachedServerSnap.node.leaves).write
        (childKey :: childPath) y) :
    Becomes viewCache.cachedEventSnap.node
      (LeafTree.node (writesCache.patch.act viewCache.cachedServerSnap.node.leaves).child)
      (revertedChild stringComparator viewCache childKey childPath writesCache) := by
  have hcomplete : viewCache.cachedServerSnap.isCompleteForChild childKey = true := by
    rw [FCacheNode.isCompleteForChild, hserver, Bool.true_or]
  have hchild := FWriteTreeRef.leaves_calculateCompleteChild hK hwrites hkey h.server
  rw [if_pos hcomplete] at hchild
  obtain ⟨child, hnode, hleaves⟩ := Option.map_eq_some_iff.1 hchild
  have hWF : child.WF := hwrites.calculateCompleteChild hK.plain h.server hnode
  have hact : child.leaves =
      (writesCache.patch.act viewCache.cachedServerSnap.node.leaves).child childKey := by
    have hsub := LeafTree.sub_act writesCache.patch viewCache.cachedServerSnap.node.leaves
      [childKey]
    rw [LeafTree.sub_cons, LeafTree.sub_nil, LeafTree.sub_cons, LeafTree.sub_nil] at hsub
    rw [hleaves, hsub, Node.childLeaves]
  -- the old child is the new one with the write in it
  have hold : viewCache.cachedEventSnap.node.childLeaves childKey =
      child.leaves.write childPath y := by
    rw [Node.childLeaves, hevent, LeafTree.child_write, if_pos rfl, hact]
  have hbecomes := Becomes.updateChildIn h.event hWF (hK.plain childKey hkey)
    (hK.plain.of_mem hpath) fun hsub =>
    (LeafTree.eq_of_sub_eq hold hsub.symm).symm
  have hnew : revertedChild stringComparator viewCache childKey childPath writesCache =
      updateChildIn viewCache.cachedEventSnap.node childKey child childPath := by
    unfold revertedChild
    rw [hnode]
  have htree : viewCache.cachedEventSnap.node.leaves.write [childKey] child.leaves =
      LeafTree.node (writesCache.patch.act viewCache.cachedServerSnap.node.leaves).child := by
    refine LeafTree.ext_child ?_ fun k => ?_
    · rw [LeafTree.root_write, hevent, LeafTree.root_write, if_neg hy, ite_self,
        LeafTree.root_node]
    · rw [LeafTree.child_write, LeafTree.write_nil, LeafTree.child_node, hact, hevent]
      split_ifs with hk
      · rw [hk]
      · rw [LeafTree.child_write, if_neg hk]
  rw [hnew, ← htree]
  exact hbecomes

/-- **A leaf comes back** with the last of the writes below it. -/
theorem becomes_restoredLeaf
    (hserver : viewCache.cachedServerSnap.isFullyInitialized = true)
    {reverted : Node × List FChange} (hWF : reverted.1.WF)
    (hreverted : Becomes viewCache.cachedEventSnap.node
      (LeafTree.node (writesCache.patch.act viewCache.cachedServerSnap.node.leaves).child)
      reverted) :
    Becomes viewCache.cachedEventSnap.node
      (writesCache.patch.act viewCache.cachedServerSnap.node.leaves)
      (restoredLeaf stringComparator viewCache writesCache reverted) := by
  obtain ⟨complete, hcomplete, hcompleteWF, hleaves⟩ :=
    exists_completeEventCache hK hwrites h hserver
  rw [← hleaves] at hreverted ⊢
  rw [restoredLeaf, hserver, Bool.and_true, hcomplete]
  dsimp only
  cases hleaf : complete.isLeafNode with
  | true =>
      have hempty : reverted.1.isEmpty = true := by
        have hroot : complete.leaves.root.isSome = true := by
          rw [Node.root_leaves]
          cases complete with
          | leaf v => rfl
          | children cs => cases hleaf
        rw [← hWF.leaves_eq_empty_iff, hreverted.leaves_eq, LeafTree.eq_empty_iff]
        exact ⟨rfl, fun k => LeafTree.child_of_root hroot k⟩
      rw [if_pos hempty, if_pos rfl]
      exact Becomes.trans_updateFullNode hWF hcompleteWF hreverted
  | false =>
      have hroot : complete.leaves.root = none := by
        rw [Node.root_leaves]
        cases complete with
        | leaf v => cases hleaf
        | children cs => rfl
      rw [if_neg Bool.false_ne_true, ite_self]
      rwa [LeafTree.node_child hroot] at hreverted

end FViewProcessor

/-! ### Known views -/

namespace FViewCache

/-- What is to be seen is known: the server has sent all of its data, or the writes hide it. -/
def Known (P : LeafTree.Patch String LeafValue) (view : FViewCache) : Prop :=
  view.cachedServerSnap.isFullyInitialized = true ∨ P.root.isSome = true

/-- **What a view shows**: the writes, laid over the server's data. -/
structure Shows (P : LeafTree.Patch String LeafValue) (view : FViewCache) : Prop where
  isFullyInitialized : view.cachedEventSnap.isFullyInitialized = true
  leaves_eq : view.cachedEventSnap.node.leaves = P.act view.cachedServerSnap.node.leaves

/-- A view that shows what is to be seen once it is known. -/
structure Synced (P : LeafTree.Patch String LeafValue) (view : FViewCache) : Prop where
  wf : view.WF
  shows : view.Known P → view.Shows P

/-- What an operation has made of a view, with its log. -/
structure Updated (old : FViewCache) (P : LeafTree.Patch String LeafValue)
    (new : FViewCache × List FChange) : Prop where
  isFullyInitialized : new.1.cachedEventSnap.isFullyInitialized = true
  becomes : Becomes old.cachedEventSnap.node (P.act new.1.cachedServerSnap.node.leaves)
    (new.1.cachedEventSnap.node, new.2)

/-- A view that has been updated shows the writes made on the server's data. -/
theorem Updated.shows {old : FViewCache} {P : LeafTree.Patch String LeafValue}
    {new : FViewCache × List FChange} (h : old.Updated P new) : new.1.Shows P :=
  ⟨h.isFullyInitialized, h.becomes.leaves_eq⟩

end FViewCache

namespace FViewProcessor

open FViewCache

variable {stringComparator : NSComparator} [Std.TransCmp stringComparator] {K : String → Prop}
  (hK : NodeKeys stringComparator K) {writesCache : FWriteTreeRef}
  (hwrites : writesCache.WF stringComparator K) {view : FViewCache} {path : FPath}
  {P : LeafTree.Patch String LeafValue} {m : LeafTree String LeafValue}

omit [Std.TransCmp stringComparator] in
/-- An overwrite of the user leaves the server's data alone. -/
theorem cachedServerSnap_applyUserOverwriteTo (view : FViewCache) (path : FPath)
    (changedSnap : Node) (optCompleteCache : Option Node) :
    (applyUserOverwriteTo stringComparator view path changedSnap writesCache
      optCompleteCache).1.cachedServerSnap = view.cachedServerSnap := by
  cases path with
  | nil => rfl
  | cons childKey childChangePath =>
      rw [applyUserOverwriteTo]
      split_ifs <;> rfl

variable (hpath : ∀ k ∈ path, K k)

include hK hwrites hpath

/-- **A view brought up to date at a path**: its event cache shows the server's data as it has
been, and since then only what is at the path has come to differ. -/
theorem updated_generateEventCache (h : view.WF)
    (hfull : writesCache.patch.root.isSome = true ∨ writesCache.patch.Full)
    (hknown : view.Known writesCache.patch)
    (hevent : (path = [] ∧ writesCache.patch.root = none) ∨
      view.cachedEventSnap.isFullyInitialized = true ∧ ∃ L,
        view.cachedEventSnap.node.leaves = writesCache.patch.act L ∧
        view.cachedServerSnap.node.leaves =
          L.write path (view.cachedServerSnap.node.leaves.sub path)) :
    view.Updated writesCache.patch
      (generateEventCacheAfterServerEvent stringComparator view path writesCache) := by
  cases hroot : (writesCache.patch.within path).root with
  | some v =>
      have hcovered : (writesCache.patch.within path).root.isSome = true := by rw [hroot]; rfl
      rw [generateEventCacheAfterServerEvent_of_covered hK hwrites hpath hcovered]
      rcases hevent with ⟨rfl, hnone⟩ | ⟨hinit, L, hshown, hserver⟩
      · rw [LeafTree.within_nil, hnone] at hroot
        cases hroot
      · refine ⟨hinit, ?_⟩
        have hsame : writesCache.patch.act view.cachedServerSnap.node.leaves =
            view.cachedEventSnap.node.leaves := by
          rw [hserver, LeafTree.act_write_of_covered hfull hcovered, hshown]
        rw [hsame]
        exact Becomes.unchanged _
  | none =>
      have hnone : writesCache.patch.root = none := by
        by_contra hsome
        obtain ⟨v, hv⟩ := Option.ne_none_iff_exists'.1 hsome
        rw [LeafTree.within_of_root hv, LeafTree.root_single] at hroot
        cases hroot
      have hserverKnown : view.cachedServerSnap.isFullyInitialized = true :=
        hknown.resolve_right (by rw [hnone]; exact Bool.false_ne_true)
      have hP : writesCache.patch.Full :=
        hfull.resolve_left (by rw [hnone]; exact Bool.false_ne_true)
      obtain ⟨new, hnew, hbecomes⟩ := generateEventCacheAfterServerEvent_of_not_covered hK hwrites h
        hpath hroot hserverKnown (hevent.imp And.left And.left)
      rw [hnew]
      refine ⟨rfl, ?_⟩
      have hleaves : view.cachedEventSnap.node.leaves.write path
          ((writesCache.patch.within path).act (view.cachedServerSnap.node.leaves.sub path)) =
            writesCache.patch.act view.cachedServerSnap.node.leaves := by
        rcases hevent with ⟨rfl, -⟩ | ⟨-, L, hshown, hserver⟩
        · rw [LeafTree.write_nil, LeafTree.within_nil, LeafTree.sub_nil]
        · rw [hshown, ← LeafTree.act_write hP hroot, ← hserver]
      rw [hleaves] at hbecomes
      exact hbecomes

omit hwrites [Std.TransCmp stringComparator] in
/-- **A write of the user.** -/
theorem updated_userOverwrite (h : view.Synced P) {changedSnap : Node} (hsnap : changedSnap.WF)
    (hpatch : writesCache.patch = P.put path changedSnap.leaves)
    (hclear : path = [] ∨ changedSnap.leaves ≠ ∅) (optCompleteCache : Option Node)
    (hknown : view.Known writesCache.patch) :
    view.Updated writesCache.patch (applyUserOverwriteTo stringComparator view path changedSnap
      writesCache optCompleteCache) := by
  have hshows : path = [] ∨ view.Shows P := by
    cases path with
    | nil => exact Or.inl rfl
    | cons k p =>
        refine Or.inr (h.shows (hknown.imp_right fun hroot => ?_))
        by_contra hnone
        rw [hpatch, LeafTree.root_put (Option.not_isSome_iff_eq_none.1 hnone)] at hroot
        exact absurd hroot Bool.false_ne_true
  obtain ⟨new, hnew, hbecomes⟩ := applyUserOverwriteTo_of_complete hK writesCache h.wf hpath
    hsnap optCompleteCache (hshows.imp_right Shows.isFullyInitialized)
  rw [hnew]
  refine ⟨rfl, ?_⟩
  have hleaves : view.cachedEventSnap.node.leaves.write path changedSnap.leaves =
      writesCache.patch.act view.cachedServerSnap.node.leaves := by
    rw [hpatch, LeafTree.act_put P (LeafTree.clear_of_eq_nil_or hclear _)]
    rcases hshows with rfl | hshows
    · rw [LeafTree.write_nil, LeafTree.write_nil]
    · rw [hshows.leaves_eq]
  rw [hleaves] at hbecomes
  exact hbecomes

/-! ### Data from the server -/

omit [Std.TransCmp stringComparator] hK hwrites hpath in
/-- So does showing it. -/
@[simp] theorem cachedServerSnap_generateEventCacheAfterServerEvent (view : FViewCache)
    (path : FPath) :
    (generateEventCacheAfterServerEvent stringComparator view path
      writesCache).1.cachedServerSnap = view.cachedServerSnap := by
  unfold generateEventCacheAfterServerEvent
  split <;> rfl

omit [Std.TransCmp stringComparator] hK hwrites hpath in
/-- Only at the root does the server's data become complete. -/
theorem isFullyInitialized_applyServerOverwriteTo (view : FViewCache) (childKey : String)
    (childChangePath : FPath) (changedSnap : Node) :
    (applyServerOverwriteTo stringComparator view (childKey :: childChangePath) changedSnap
      writesCache).1.cachedServerSnap.isFullyInitialized =
        view.cachedServerSnap.isFullyInitialized := by
  rw [applyServerOverwriteTo]
  split_ifs
  · rfl
  · rw [cachedServerSnap_generateEventCacheAfterServerEvent]
    rfl

omit [Std.TransCmp stringComparator] hwrites hpath hK in
/-- At the root the event cache is calculated anew or hidden. -/
theorem shown_at_root (h : view.Synced P) :
    (([] : FPath) = [] ∧ P.root = none) ∨
      view.cachedEventSnap.isFullyInitialized = true ∧ ∃ L,
        view.cachedEventSnap.node.leaves = P.act L := by
  cases hroot : P.root with
  | none => exact Or.inl ⟨rfl, rfl⟩
  | some v =>
      have hshows := h.shows (Or.inr (by rw [hroot]; rfl))
      exact Or.inr ⟨hshows.isFullyInitialized, _, hshows.leaves_eq⟩

/-- **Data from the server.** -/
theorem updated_serverOverwrite (h : view.Synced writesCache.patch) {changedSnap : Node}
    (hsnap : changedSnap.WF)
    (hfull : writesCache.patch.root.isSome = true ∨ writesCache.patch.Full)
    (hknown : (applyServerOverwriteTo stringComparator view path changedSnap
      writesCache).1.Known writesCache.patch) :
    view.Updated writesCache.patch
      (applyServerOverwriteTo stringComparator view path changedSnap writesCache) := by
  by_cases hcomplete : path = [] ∨ view.cachedServerSnap.isFullyInitialized = true
  · obtain ⟨server, hserver, hWF, hleaves⟩ := applyServerOverwriteTo_of_complete hK writesCache
      h.wf hpath hsnap hcomplete
    rw [hserver]
    have hview : (view.updateServerSnap server true).WF := ⟨h.wf.event, hWF⟩
    have hupdated := updated_generateEventCache hK hwrites hpath hview hfull (Or.inl rfl) ?_
    · exact ⟨hupdated.isFullyInitialized, hupdated.becomes⟩
    have hnew : ∀ L : LeafTree String LeafValue, server.leaves = L.write path changedSnap.leaves →
        server.leaves = L.write path (server.leaves.sub path) := fun L hL => by
      rw [hL, LeafTree.sub_write_self]
    rcases hcomplete with rfl | hinit
    · refine (shown_at_root h).imp id fun ⟨hevent, L, hL⟩ => ⟨hevent, L, hL, hnew L ?_⟩
      rw [hleaves, LeafTree.write_nil, LeafTree.write_nil]
    · have hshows := h.shows (Or.inl hinit)
      exact Or.inr ⟨hshows.isFullyInitialized, _, hshows.leaves_eq, hnew _ hleaves⟩
  · obtain ⟨hne, hserver⟩ := not_or.1 hcomplete
    obtain ⟨childKey, childChangePath, rfl⟩ := List.exists_cons_of_ne_nil hne
    -- the server's data stays incomplete, so the writes hide the view
    have hroot : writesCache.patch.root.isSome = true := by
      refine hknown.resolve_left fun hinit => hserver ?_
      rwa [isFullyInitialized_applyServerOverwriteTo] at hinit
    obtain ⟨v, hv⟩ := Option.isSome_iff_exists.1 hroot
    have hcovered : (writesCache.patch.within (childKey :: childChangePath)).root.isSome = true := by
      rw [LeafTree.within_of_root hv]
      rfl
    have hshows := h.shows (Or.inr hroot)
    have hsame : ∀ new : FViewCache × List FChange,
        new.1.cachedEventSnap = view.cachedEventSnap → new.2 = [] →
          view.Updated writesCache.patch new := by
      intro new hevent hlog
      refine ⟨by rw [hevent]; exact hshows.isFullyInitialized, ?_⟩
      rw [hevent, hlog, LeafTree.act_of_root hv, ← LeafTree.act_of_root hv, ← hshows.leaves_eq]
      exact Becomes.unchanged _
    rw [applyServerOverwriteTo]
    split_ifs
    · exact hsame _ rfl rfl
    · rw [generateEventCacheAfterServerEvent_of_covered hK hwrites hpath hcovered]
      exact hsame _ rfl rfl

/-- **The server has sent all it has.** -/
theorem updated_listenComplete (h : view.Synced writesCache.patch)
    (hfull : writesCache.patch.root.isSome = true ∨ writesCache.patch.Full)
    (hknown : (listenCompleteOldCache stringComparator view path
      writesCache).1.Known writesCache.patch) :
    view.Updated writesCache.patch
      (listenCompleteOldCache stringComparator view path writesCache) := by
  rw [listenCompleteOldCache] at hknown ⊢
  rw [FViewCache.Known, cachedServerSnap_generateEventCacheAfterServerEvent] at hknown
  have hview : (view.updateServerSnap view.cachedServerSnap.node
      (view.cachedServerSnap.isFullyInitialized || path.isEmpty)).WF := ⟨h.wf.event, h.wf.server⟩
  have hupdated := updated_generateEventCache hK hwrites hpath hview hfull hknown ?_
  · exact ⟨hupdated.isFullyInitialized, hupdated.becomes⟩
  have hsame : view.cachedServerSnap.node.leaves = view.cachedServerSnap.node.leaves.write path
      (view.cachedServerSnap.node.leaves.sub path) := (LeafTree.write_sub_self _ path).symm
  cases path with
  | nil =>
      refine (shown_at_root h).imp id fun ⟨hevent, L, hL⟩ => ⟨hevent, L, hL, ?_⟩
      rw [LeafTree.write_nil, LeafTree.sub_nil]
  | cons k p =>
      have hknown' : view.Known writesCache.patch := by
        refine hknown.imp_left fun hinit => ?_
        rwa [FViewCache.updateServerSnap, List.isEmpty_cons, Bool.or_false] at hinit
      have hshows := h.shows hknown'
      exact Or.inr ⟨hshows.isFullyInitialized, _, hshows.leaves_eq, hsame⟩

/-! ### The server's answer to a write -/

omit [Std.TransCmp stringComparator] hK hwrites hpath in
/-- Several operations leave the server's data as complete as it was. -/
theorem isFullyInitialized_applyEach {α : Type} {l : List α}
    {step : FViewCache → α → FViewCache × List FChange}
    (hstep : ∀ a ∈ l, ∀ view : FViewCache, (step view a).1.cachedServerSnap.isFullyInitialized =
      view.cachedServerSnap.isFullyInitialized) (view : FViewCache) :
    (applyEach step view l).1.cachedServerSnap.isFullyInitialized =
      view.cachedServerSnap.isFullyInitialized := by
  induction l generalizing view with
  | nil => rfl
  | cons a l ih =>
      exact (ih (fun b hb => hstep b (List.mem_cons_of_mem a hb)) _).trans
        (hstep a List.mem_cons_self view)

omit hK hwrites hpath in
/-- A merge of the server does too. -/
theorem isFullyInitialized_applyServerMergeTo (hK : PlainKeys K) (hpath : ∀ k ∈ path, K k)
    {changedChildren : FCompoundWrite} (hchildren : changedChildren.WF stringComparator K)
    (view : FViewCache) :
    (applyServerMergeTo stringComparator view path changedChildren
      writesCache).1.cachedServerSnap.isFullyInitialized =
        view.cachedServerSnap.isFullyInitialized := by
  unfold applyServerMergeTo
  dsimp only
  split_ifs
  · rfl
  · refine isFullyInitialized_applyEach (fun child hchild view => ?_) view
    have hmem := (List.mem_append.1 hchild).elim (fun h => (List.mem_filter.1 h).1)
      fun h => (List.mem_filter.1 h).1
    obtain ⟨hkey, -⟩ := (WF_actualMerge hK hpath hchildren).of_mem_childCompoundWrites hmem
    rw [FPath.initWith_of_isValidKey (hK.valid child.1 hkey)]
    exact isFullyInitialized_applyServerOverwriteTo view child.1 [] _

omit hK hwrites hpath in
/-- The answer to a write completes nothing. -/
theorem isFullyInitialized_ackUserWriteOn (h : view.WF) {affectedTree : FImmutableTree Unit}
    (haffected : affectedTree.value.isSome = true)
    (hserver : view.cachedServerSnap.isFullyInitialized = false) :
    (ackUserWriteOn stringComparator view path affectedTree
      writesCache).1.cachedServerSnap.isFullyInitialized = false := by
  obtain ⟨u, hu⟩ := Option.isSome_iff_exists.1 haffected
  unfold ackUserWriteOn
  split
  next => exact hserver
  next =>
    dsimp only
    rw [hu, hserver, Bool.and_false, Bool.false_or]
    dsimp only
    cases path with
    | nil =>
        rw [FCacheNode.isCompleteForPath, hserver, if_neg Bool.false_ne_true, List.isEmpty_nil,
          if_pos rfl, isFullyInitialized_applyServerMergeTo (fun _ hk => hk)
            (fun _ hk => absurd hk List.not_mem_nil) (WF_foldl_childList h.server), hserver]
    | cons k p =>
        rw [List.isEmpty_cons, if_neg Bool.false_ne_true]
        split_ifs
        · rw [isFullyInitialized_applyServerOverwriteTo, hserver]
        · exact hserver

omit [Std.TransCmp stringComparator] hwrites in
/-- Nor does it change data that is complete. -/
theorem leaves_ackUserWriteOn (h : view.WF) {affectedTree : FImmutableTree Unit}
    (haffected : affectedTree.value.isSome = true)
    (hserver : view.cachedServerSnap.isFullyInitialized = true) :
    (ackUserWriteOn stringComparator view path affectedTree
      writesCache).1.cachedServerSnap.node.leaves = view.cachedServerSnap.node.leaves := by
  obtain ⟨u, hu⟩ := Option.isSome_iff_exists.1 haffected
  have hcomplete : view.cachedServerSnap.isCompleteForPath path = true := by
    cases path with
    | nil => exact hserver
    | cons k p =>
        rw [FCacheNode.isCompleteForPath, FCacheNode.isCompleteForChild, hserver, Bool.true_or]
  unfold ackUserWriteOn
  split
  next => rfl
  next =>
    obtain ⟨server, hnew, -, hleaves⟩ := applyServerOverwriteTo_of_complete hK writesCache h hpath
      (h.server.getChild path) (Or.inr hserver)
    dsimp only
    rw [hu]
    dsimp only
    rw [hcomplete, Bool.or_true, if_pos rfl, hnew,
      cachedServerSnap_generateEventCacheAfterServerEvent]
    exact hleaves.trans (by rw [← Node.sub_leaves _ (hK.plain.notZero hpath), LeafTree.write_sub_self])

section

variable (h : view.Synced P) (hbefore : ∀ L, P.act L = writesCache.patch.act (L.write path m))
  (hroot : writesCache.patch.root.isSome = true → P.root.isSome = true)
  (hfull : writesCache.patch.root.isSome = true ∨ writesCache.patch.Full)

include h hbefore hroot hfull

omit hK hwrites hpath [Std.TransCmp stringComparator] in
/-- A write that others hide can be taken back unseen. -/
theorem updated_of_covered (hcovered : (writesCache.patch.within path).root.isSome = true)
    (hknown : view.Known writesCache.patch) :
    view.Updated writesCache.patch (view, []) := by
  have hshows := h.shows (hknown.imp_right hroot)
  have hsame : writesCache.patch.act view.cachedServerSnap.node.leaves =
      view.cachedEventSnap.node.leaves := by
    rw [hshows.leaves_eq, hbefore, LeafTree.act_write_of_covered hfull hcovered]
  refine ⟨hshows.isFullyInitialized, ?_⟩
  rw [hsame]
  exact Becomes.unchanged _

/-- **A write is acknowledged.**  The server has sent what is at its path by then, so there is
no leaf above if there is nothing. -/
theorem updated_ackUserWrite {affectedTree : FImmutableTree Unit}
    (haffected : affectedTree.value.isSome = true)
    (hclear : view.cachedServerSnap.isFullyInitialized = true →
      view.cachedServerSnap.node.leaves.Clear path (view.cachedServerSnap.node.leaves.sub path))
    (hknown : (ackUserWriteOn stringComparator view path affectedTree
      writesCache).1.Known writesCache.patch) :
    view.Updated writesCache.patch
      (ackUserWriteOn stringComparator view path affectedTree writesCache) := by
  cases hwithin : (writesCache.patch.within path).root with
  | some v =>
      have hcovered : (writesCache.patch.within path).root.isSome = true := by rw [hwithin]; rfl
      obtain ⟨node, hnode⟩ := exists_shadowing hK hwrites hpath hcovered
      have hnew : ackUserWriteOn stringComparator view path affectedTree writesCache =
          (view, []) := by
        unfold ackUserWriteOn
        rw [hnode]
      rw [hnew] at hknown ⊢
      exact updated_of_covered h hbefore hroot hfull hcovered hknown
  | none =>
      have hnone : writesCache.patch.root = none := by
        by_contra hsome
        obtain ⟨v, hv⟩ := Option.ne_none_iff_exists'.1 hsome
        rw [LeafTree.within_of_root hv, LeafTree.root_single] at hwithin
        cases hwithin
      have hP : writesCache.patch.Full :=
        hfull.resolve_left (by rw [hnone]; exact Bool.false_ne_true)
      have hinit : view.cachedServerSnap.isFullyInitialized = true := by
        by_contra hinit
        rw [Bool.not_eq_true] at hinit
        have hstill : (ackUserWriteOn stringComparator view path affectedTree
            writesCache).1.cachedServerSnap.isFullyInitialized = false :=
          isFullyInitialized_ackUserWriteOn h.wf haffected hinit
        rw [FViewCache.Known, hstill, hnone] at hknown
        exact hknown.elim Bool.false_ne_true Bool.false_ne_true
      have hshows := h.shows (Or.inl hinit)
      obtain ⟨u, hu⟩ := Option.isSome_iff_exists.1 haffected
      have hcomplete : ((path.isEmpty && view.cachedServerSnap.isFullyInitialized) ||
          view.cachedServerSnap.isCompleteForPath path) = true := by
        cases path with
        | nil => rw [hinit]; rfl
        | cons k p =>
            rw [FCacheNode.isCompleteForPath, FCacheNode.isCompleteForChild, hinit, Bool.true_or,
              Bool.or_true]
      have hnew : ackUserWriteOn stringComparator view path affectedTree writesCache =
          applyServerOverwriteTo stringComparator view path
            (view.cachedServerSnap.node.getChild path) writesCache := by
        unfold ackUserWriteOn
        rw [shadowing_eq_none hK hwrites hpath hwithin]
        dsimp only
        rw [hu]
        dsimp only
        rw [if_pos hcomplete]
      obtain ⟨server, hserver, hWF, hleaves⟩ := applyServerOverwriteTo_of_complete hK
        writesCache h.wf hpath (h.wf.server.getChild path) (Or.inr hinit)
      rw [← Node.sub_leaves _ (hK.plain.notZero hpath), LeafTree.write_sub_self] at hleaves
      have hview : (view.updateServerSnap server true).WF := ⟨h.wf.event, hWF⟩
      obtain ⟨new, hgenerate, hbecomes⟩ := generateEventCacheAfterServerEvent_of_not_covered hK
        hwrites hview hpath hwithin rfl (Or.inr hshows.isFullyInitialized)
      rw [hnew, hserver, hgenerate]
      refine ⟨rfl, ?_⟩
      have hundo : view.cachedEventSnap.node.leaves.write path
          ((writesCache.patch.within path).act (server.leaves.sub path)) =
            writesCache.patch.act server.leaves := by
        rw [hshows.leaves_eq, hbefore, hleaves,
          LeafTree.act_write_undo hP hwithin (hclear hinit) m]
      exact hundo ▸ hbecomes

omit h hbefore hroot hfull hpath in
/-- At the root everything is calculated anew, whatever has been shown. -/
theorem updated_revertUserWrite_nil (h : view.WF) (hnone : writesCache.patch.root = none)
    (hknown : (revertUserWriteOn stringComparator view [] writesCache).1.Known
      writesCache.patch) :
    view.Updated writesCache.patch (revertUserWriteOn stringComparator view [] writesCache) := by
  unfold revertUserWriteOn at hknown ⊢
  rw [shadowing_eq_none hK hwrites (fun _ hk => absurd hk List.not_mem_nil)
    (by rwa [LeafTree.within_nil])] at hknown ⊢
  dsimp only at hknown ⊢
  have hinit : view.cachedServerSnap.isFullyInitialized = true :=
    hknown.resolve_right (by rw [hnone]; exact Bool.false_ne_true)
  obtain ⟨node, hnode, hWF, hleaves⟩ := exists_completeEventCache hK hwrites h hinit
  rw [hinit, Bool.true_or]
  refine ⟨rfl, ?_⟩
  dsimp only
  rw [if_pos rfl, hnode]
  exact hleaves ▸ Becomes.updateFullNode h.event hWF

/-- **A write is turned down.** -/
theorem updated_revertUserWrite (hm : path = [] ∨ m ≠ ∅)
    (hknown : (revertUserWriteOn stringComparator view path
      writesCache).1.Known writesCache.patch) :
    view.Updated writesCache.patch
      (revertUserWriteOn stringComparator view path writesCache) := by
  cases hwithin : (writesCache.patch.within path).root with
  | some v =>
      have hcovered : (writesCache.patch.within path).root.isSome = true := by rw [hwithin]; rfl
      obtain ⟨node, hnode⟩ := exists_shadowing hK hwrites hpath hcovered
      have hnew : revertUserWriteOn stringComparator view path writesCache = (view, []) := by
        unfold revertUserWriteOn
        rw [hnode]
      rw [hnew] at hknown ⊢
      exact updated_of_covered h hbefore hroot hfull hcovered hknown
  | none =>
      have hnone : writesCache.patch.root = none := by
        by_contra hsome
        obtain ⟨v, hv⟩ := Option.ne_none_iff_exists'.1 hsome
        rw [LeafTree.within_of_root hv, LeafTree.root_single] at hwithin
        cases hwithin
      cases path with
      | nil => exact updated_revertUserWrite_nil hK hwrites h.wf hnone hknown
      | cons childKey childPath =>
          have hP : writesCache.patch.Full :=
            hfull.resolve_left (by rw [hnone]; exact Bool.false_ne_true)
          unfold revertUserWriteOn at hknown ⊢
          rw [shadowing_eq_none hK hwrites hpath hwithin] at hknown ⊢
          dsimp only at hknown ⊢
          have hinit : view.cachedServerSnap.isFullyInitialized = true :=
            hknown.resolve_right (by rw [hnone]; exact Bool.false_ne_true)
          have hshows := h.shows (Or.inl hinit)
          rw [hinit, Bool.true_or]
          refine ⟨rfl, ?_⟩
          obtain ⟨hkey, hrest⟩ := List.forall_mem_cons.1 hpath
          refine becomes_restoredLeaf hK hwrites h.wf hinit
            (WF_revertedChild hK.plain hwrites h.wf hkey childPath) ?_
          refine becomes_revertedChild hK hwrites h.wf hkey hrest hinit
            (y := (writesCache.patch.within (childKey :: childPath)).act m) (fun hempty => ?_) ?_
          · -- nothing is written there, so the patch would have to leave it so
            refine hm.resolve_left (List.cons_ne_nil _ _) ?_
            rw [(hP.within hwithin).eq_empty (LeafTree.addsNothing_of_act_eq_empty hempty),
              LeafTree.act_empty] at hempty
            exact hempty
          · rw [hshows.leaves_eq, hbefore, LeafTree.act_write hP hwithin]

end

end FViewProcessor
end Teamstuff
