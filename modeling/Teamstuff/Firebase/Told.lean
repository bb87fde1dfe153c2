/-
# What listeners are told

`FView.m` reports the changes of each operation at the path of the view.  A listener that has
heard all of them since the view is there can tell what it shows (`FViewCache.Told`): its children
are those that the child events lead to, each event fitting what has been said before, and if the
view is complete, the last value is the node it shows.

This is so for every operation, whether the server sends what is to be expected or not; an
operation only has to be well formed.  Nothing is said of the data: that is in
`Teamstuff.Firebase.Mirror`.
-/

import Teamstuff.Firebase.Mirror

namespace Teamstuff

/-- The node of a value event. -/
def FChange.valueNode : FChange → Option Node
  | .value node => some node
  | _ => none

/-- What has been heard of a view tells its children and its value. -/
structure FViewCache.Told (heard : List FChange) (view : FViewCache) : Prop where
  wf : view.WF
  children : Leads (fun _ => ∅) (heard.filter fun change => change.childKey.isSome)
    view.cachedEventSnap.node.childLeaves
  value : view.cachedEventSnap.isFullyInitialized = true →
    ∃ node : Node, (heard.filterMap FChange.valueNode).getLast? = some node ∧ node.WF ∧
      node.leaves = view.cachedEventSnap.node.leaves

namespace FViewProcessor

/-! ### One operation -/

variable {view new : FViewCache} {accumulator : FChildChangeAccumulator}

theorem filter_childKey_of_reports {f g : String → LeafTree String LeafValue}
    (h : accumulator.Reports f g) : ∀ change ∈ accumulator.changes,
      change.childKey.isSome = true ∧ change.valueNode = none := by
  intro change hchange
  obtain ⟨e, he, rfl⟩ := List.mem_map.1 hchange
  obtain ⟨hkey, -⟩ := h.of_mem he
  cases hchange' : e.2 with
  | value node =>
      rw [hchange'] at hkey
      cases hkey
  | childAdded childKey node => exact ⟨rfl, rfl⟩
  | childRemoved childKey node => exact ⟨rfl, rfl⟩
  | childChanged childKey node oldNode => exact ⟨rfl, rfl⟩

/-- **Where no value is added**, there is none to be seen that is new. -/
theorem maybeAddValue_cases (hold : view.WF) (hnew : new.WF)
    (h : accumulator.Reports view.cachedEventSnap.node.childLeaves
      new.cachedEventSnap.node.childLeaves) :
    maybeAddValue view new accumulator.changes =
        accumulator.changes ++ [.value new.cachedEventSnap.node] ∨
      maybeAddValue view new accumulator.changes = accumulator.changes ∧
        (new.cachedEventSnap.isFullyInitialized = true →
          view.cachedEventSnap.isFullyInitialized = true ∧
            view.cachedEventSnap.node.leaves = new.cachedEventSnap.node.leaves) := by
  unfold maybeAddValue
  dsimp only
  split_ifs with hcomplete hadd
  · exact Or.inl rfl
  · refine Or.inr ⟨rfl, fun _ => ?_⟩
    rw [Bool.or_eq_true, not_or, Bool.or_eq_true, not_or, Bool.not_eq_true', Bool.not_eq_true',
      Bool.not_eq_false, Bool.not_eq_false] at hadd
    obtain ⟨⟨hnone, hold'⟩, hvalue⟩ := hadd
    refine ⟨hold', ?_⟩
    by_contra hne
    have hchanges : accumulator.changes = [] := List.isEmpty_iff.1 hnone
    -- only the value of a leaf can change without its children
    have hsame : view.cachedEventSnap.node.childLeaves = new.cachedEventSnap.node.childLeaves := by
      have hleads := h.leads
      rwa [hchanges] at hleads
    have hleaf := isLeafNode_or_isEmpty hnew.event hsame hne
    have hequal := hnew.event.isEqual_iff hold.event
    refine hvalue ?_
    rw [hleaf, Bool.true_and, FViewCache.completeEventSnap, if_pos hold', Option.any_some,
      Bool.not_eq_true', Bool.eq_false_iff]
    exact fun heq => hne (hequal.1 heq).symm
  · exact Or.inr ⟨rfl, fun h => absurd h hcomplete⟩

theorem filter_childKey_changes {f g : String → LeafTree String LeafValue}
    (h : accumulator.Reports f g) :
    (accumulator.changes.filter fun change => change.childKey.isSome) = accumulator.changes ∧
      accumulator.changes.filterMap FChange.valueNode = [] :=
  ⟨List.filter_eq_self.2 fun change hchange => (filter_childKey_of_reports h change hchange).1,
    List.filterMap_eq_nil_iff.2 fun change hchange =>
      (filter_childKey_of_reports h change hchange).2⟩

/-- **An operation is told in full.** -/
theorem told_maybeAddValue {heard : List FChange} (h : view.Told heard) (hnew : new.WF)
    (hreports : accumulator.Reports view.cachedEventSnap.node.childLeaves
      new.cachedEventSnap.node.childLeaves) :
    new.Told (heard ++ maybeAddValue view new accumulator.changes) := by
  obtain ⟨hchildren, hvalues⟩ := filter_childKey_changes hreports
  have hleads := h.children.append hreports.leads
  rcases maybeAddValue_cases h.wf hnew hreports with hadd | ⟨hnone, hsame⟩
  · rw [hadd]
    refine ⟨hnew, ?_, fun _ => ⟨new.cachedEventSnap.node, ?_, hnew.event, rfl⟩⟩
    · rw [List.filter_append, List.filter_append, hchildren]
      exact (List.append_nil accumulator.changes).symm ▸ hleads
    · rw [← List.append_assoc, List.filterMap_append]
      exact List.getLast?_concat ..
  · rw [hnone]
    refine ⟨hnew, ?_, fun hcomplete => ?_⟩
    · rwa [List.filter_append, hchildren]
    · obtain ⟨hold, hleaves⟩ := hsame hcomplete
      rw [List.filterMap_append, hvalues, List.append_nil, ← hleaves]
      exact h.value hold

end FViewProcessor

/-! ### A new view -/

namespace FSyncPoint

variable {view : FSyncPoint}

/-- **A view begins with its initial events.** -/
theorem told_initialEvents (h : FViewCache.WF view) : FViewCache.Told view.initialEvents view := by
  have hvalue : ((if view.cachedEventSnap.isFullyInitialized then
      [FChange.value view.cachedEventSnap.node] else []).filter
        fun change => change.childKey.isSome) = [] := by
    split_ifs <;> rfl
  have hadded : ∀ l : List (String × Node),
      ((l.map fun child => FChange.childAdded child.1 child.2).filter
        fun change => change.childKey.isSome) =
          l.map fun child => FChange.childAdded child.1 child.2 := fun l =>
    List.filter_eq_self.2 fun change hchange => by
      obtain ⟨child, -, rfl⟩ := List.mem_map.1 hchange
      rfl
  have hnone : ∀ l : List (String × Node),
      (l.map fun child => FChange.childAdded child.1 child.2).filterMap FChange.valueNode = [] :=
    fun l => List.filterMap_eq_nil_iff.2 fun change hchange => by
      obtain ⟨child, -, rfl⟩ := List.mem_map.1 hchange
      rfl
  refine ⟨h, ?_, fun hcomplete => ⟨view.cachedEventSnap.node, ?_, h.event, rfl⟩⟩
  · -- a full update from nothing
    rw [initialEvents, List.filter_append, hvalue, List.append_nil, hadded]
    have hall : view.cachedEventSnap.node.childList.filterMap
        (FIndexedFilter.addedChange .empty) =
          view.cachedEventSnap.node.childList.map fun child => .childAdded child.1 child.2 := by
      rw [← List.filterMap_eq_map]
      rfl
    have hempty : Node.childLeaves .empty = fun _ => ∅ := funext fun k => by
      rw [Node.childLeaves, Node.leaves_of_isEmpty rfl, LeafTree.child_empty]
    rw [← hall, ← hempty]
    exact (FIndexedFilter.leads_updateFullNode Node.WFIn.empty h.event).1
  · rw [initialEvents, if_pos hcomplete, List.filterMap_append, hnone]
    rfl

end FSyncPoint

/-! ### Down the tree -/

/-- An operation stays well formed on its way down. -/
theorem FOperation.WF.operationForChild {stringComparator : NSComparator} {K : String → Prop}
    {operation childOperation : FOperation} (h : operation.WF stringComparator K)
    {childKey : String}
    (hchild : operation.operationForChild stringComparator childKey = some childOperation) :
    childOperation.WF stringComparator K := by
  cases operation with
  | overwrite source path snap =>
      obtain ⟨hpath, hsnap⟩ := h
      cases path with
      | nil => exact Option.some.inj hchild ▸ ⟨hpath, hsnap.getImmediateChild childKey⟩
      | cons j rest =>
          exact Option.some.inj hchild ▸ ⟨fun k hk => hpath k (List.mem_cons_of_mem j hk), hsnap⟩
  | merge source path children =>
      obtain ⟨hpath, hchildren⟩ := h
      cases path with
      | nil =>
          have hWF : (children.childCompoundWriteAtPath stringComparator
              (FPath.initWith childKey)).WF stringComparator K :=
            hchildren.childCompoundWriteAtPath
          rw [FOperation.operationForChild] at hchild
          split_ifs at hchild
          split at hchild
          next snap hsnap =>
            exact Option.some.inj hchild ▸ ⟨hpath, FImmutableTree.WF.of_value hWF hsnap⟩
          next => exact Option.some.inj hchild ▸ ⟨hpath, hWF⟩
      | cons j rest =>
          exact Option.some.inj hchild ▸
            ⟨fun k hk => hpath k (List.mem_cons_of_mem j hk), hchildren⟩
  | ackUserWrite path affectedTree revert =>
      obtain ⟨hpath, haffected⟩ := h
      cases path with
      | nil =>
          rw [FOperation.operationForChild] at hchild
          split at hchild
          next => exact Option.some.inj hchild ▸ ⟨hpath, haffected⟩
          next => exact Option.some.inj hchild ▸ ⟨hpath, haffected.subtreeAtPath _⟩
      | cons j rest =>
          exact Option.some.inj hchild ▸
            ⟨fun k hk => hpath k (List.mem_cons_of_mem j hk), haffected⟩
  | listenComplete path =>
      cases path with
      | nil => exact Option.some.inj hchild ▸ h
      | cons j rest =>
          exact Option.some.inj hchild ▸ fun k hk => h k (List.mem_cons_of_mem j hk)

/-! ### Writes, whatever becomes of them -/

namespace FWriteTree

variable {stringComparator : NSComparator} [Std.TransCmp stringComparator] {K : String → Prop}
  {self self' : FWriteTree}

variable (stringComparator K) in
/-- The visible writes and the records are well formed, and the writes older than the next. -/
structure Formed (nextWriteId : ℤ) (tree : FWriteTree) : Prop where
  visibleWrites : tree.visibleWrites.WF stringComparator K
  record : ∀ record ∈ tree.allWrites, record.WF stringComparator K
  older : ∀ record ∈ tree.allWrites, record.writeId < nextWriteId
  last : tree.lastWriteId < nextWriteId
  next : -1 < nextWriteId

variable {nextWriteId : ℤ} (h : self.Formed stringComparator K nextWriteId)

include h

theorem Formed.add (hK : NodeKeys stringComparator K) {record : FWriteRecord}
    (hrecord : record.WF stringComparator K) (hid : record.writeId = nextWriteId)
    {visibleWrites : FCompoundWrite} (hvisible : visibleWrites = self.visibleWrites ∨
      visibleWrites = layerRecord stringComparator [] self.visibleWrites record) :
    Formed stringComparator K (nextWriteId + 1)
      ⟨visibleWrites, self.allWrites ++ [record], nextWriteId⟩ := by
  refine ⟨?_, fun r hr => ?_, fun r hr => ?_, Int.lt_succ nextWriteId,
    h.next.trans (Int.lt_succ nextWriteId)⟩
  · rcases hvisible with rfl | rfl
    · exact h.visibleWrites
    · exact (patch_layerRecord hK h.visibleWrites hrecord).1
  · rcases List.mem_append.1 hr with hr | hr
    · exact h.record r hr
    · exact List.mem_singleton.1 hr ▸ hrecord
  · rcases List.mem_append.1 hr with hr | hr
    · exact (h.older r hr).trans (Int.lt_succ nextWriteId)
    · rw [List.mem_singleton.1 hr, hid]
      exact Int.lt_succ nextWriteId

/-- **A removal**, of any write at any time. -/
theorem Formed.removeWriteId (hK : NodeKeys stringComparator K)
    {writeId : ℤ} {reevaluate : Bool}
    (hremove : self.removeWriteId stringComparator writeId = some (self', reevaluate)) :
    self'.Formed stringComparator K nextWriteId := by
  rw [FWriteTree.removeWriteId] at hremove
  cases hidx : self.allWrites.findIdx? fun record => record.writeId == writeId with
  | none =>
      rw [hidx] at hremove
      cases hremove
  | some index =>
      cases hget : self.allWrites[index]? with
      | none =>
          simp only [hidx, hget] at hremove
          cases hremove
      | some record =>
          have hmem : ∀ r ∈ self.allWrites.eraseIdx index, r ∈ self.allWrites := fun r hr =>
            List.mem_of_mem_eraseIdx hr
          have hkept : ∀ {visibleWrites : FCompoundWrite} {lastWriteId : ℤ},
              visibleWrites.WF stringComparator K → lastWriteId < nextWriteId →
                Formed stringComparator K nextWriteId
                  ⟨visibleWrites, self.allWrites.eraseIdx index, lastWriteId⟩ := fun hv hl =>
            ⟨hv, fun r hr => h.record r (hmem r hr), fun r hr => h.older r (hmem r hr), hl, h.next⟩
          have hrecord : record.WF stringComparator K := h.record record (List.mem_of_getElem? hget)
          simp only [hidx, hget] at hremove
          split_ifs at hremove
          · obtain ⟨rfl, -⟩ := Prod.mk.inj (Option.some.inj hremove)
            exact hkept h.visibleWrites h.last
          · -- the tree is built again
            obtain ⟨rfl, -⟩ := Prod.mk.inj (Option.some.inj hremove)
            refine hkept ?_ ?_
            · rw [layerTreeFromWrites, List.filter_true]
              exact (patch_foldl_layerRecord hK FCompoundWrite.WF.emptyWrite
                fun r hr => h.record r (hmem r hr)).1
            · cases hlast : (self.allWrites.eraseIdx index).getLast? with
              | none => exact h.next
              | some last => exact h.older last (hmem last (List.mem_of_getLast? hlast))
          · obtain ⟨rfl, -⟩ := Prod.mk.inj (Option.some.inj hremove)
            refine hkept ?_ h.last
            have hfold := (patch_foldl_removeWriteAtPath hK h.visibleWrites
              fun write hwrite => (hrecord.of_mem hK hwrite).1).1
            rw [FWriteRecord.writes] at hfold
            cases hdata : record.data with
            | overwrite node =>
                rw [hdata] at hfold
                exact hfold
            | merge merge =>
                rw [hdata, List.foldl_map] at hfold
                exact hfold

end FWriteTree

/-! ### The tree -/

namespace FSyncTree

variable {stringComparator : NSComparator} {K : String → Prop} {self : FSyncTree}
  {heard : FPath → List FChange} {nextWriteId : ℤ}

variable (stringComparator K) in
/-- What has been heard at each path tells what the view there shows. -/
structure Told (nextWriteId : ℤ) (heard : FPath → List FChange) (syncTree : FSyncTree) : Prop where
  writes : syncTree.pendingWriteTree.Formed stringComparator K nextWriteId
  points : syncTree.syncPointTree.WF stringComparator K fun _ => True
  views : syncTree.syncPointTree.Everywhere (fun path view =>
    FViewCache.Told (heard path) view) []

/-- What is heard after some changes more. -/
def hear (heard : FPath → List FChange) (changes : List (FPath × FChange)) (path : FPath) :
    List FChange :=
  heard path ++ changesAt path changes

variable [Std.TransCmp stringComparator] (hK : NodeKeys stringComparator K)

include hK

/-- **Any operation** goes through the tree, and all of it is told. -/
theorem exists_told_applyOperationToSyncPoints (self : FSyncTree)
    (hwrites : self.pendingWriteTree.Formed stringComparator K nextWriteId)
    (hpoints : self.syncPointTree.WF stringComparator K fun _ => True)
    (hviews : self.syncPointTree.Everywhere (fun path view =>
      FViewCache.Told (heard path) view) []) (operation : FOperation)
    (hoperation : operation.WF stringComparator K) :
    ∃ syncTree changes, self.applyOperationToSyncPoints stringComparator operation =
        some (syncTree, changes) ∧
      syncTree.Told stringComparator K nextWriteId (hear heard changes) ∧
      syncTree.pendingWriteTree = self.pendingWriteTree := by
  have hhandled : Handled stringComparator K self.pendingWriteTree
      (fun path view => FViewCache.Told (heard path) view)
      (fun path view changes => FViewCache.Told (heard path ++ changes) view)
      (fun _ operation => operation.WF stringComparator K) := by
    refine ⟨hK, fun hview => hview.wf, ?_, fun _ hchild _ => hchild.operationForChild, ?_⟩
    · intro path operation view serverCache hpath hWF hview hcache
      have href : FWriteTreeRef.WF stringComparator K ⟨path, self.pendingWriteTree⟩ :=
        ⟨hpath, hwrites.visibleWrites⟩
      obtain ⟨accumulator, hreports, happly⟩ := FSyncPoint.exists_applyOperation
        (href.mono hK.plain) hview.wf (hWF.mono hK.plain) hcache
      refine ⟨_, _, happly, FViewProcessor.told_maybeAddValue hview ?_ hreports⟩
      exact FViewProcessor.WF_newViewCache (href.mono hK.plain) hview.wf (hWF.mono hK.plain) hcache
    · intro path operation childKey _ _ _ rest view hview
      rwa [List.append_nil]
  have hpath : ∀ k ∈ operation.path, K k := by
    cases operation with
    | overwrite source path snap => exact hoperation.1
    | merge source path children => exact hoperation.1
    | ackUserWrite path affectedTree revert => exact hoperation.1
    | listenComplete path => exact hoperation
  obtain ⟨syncPointTree, changes, happly, hWF, htold⟩ := exists_applyOperationToSyncPoints self
    hhandled hpoints hviews operation hpath hoperation
  exact ⟨_, changes, happly, ⟨hwrites, hWF, htold⟩, rfl⟩

/-! ### The operations -/

variable (h : self.Told stringComparator K nextWriteId heard)

omit hK in
theorem hear_nil : hear heard [] = heard := funext fun path => List.append_nil (heard path)

omit hK [Std.TransCmp stringComparator] in
/-- A write tree that has been changed without being seen. -/
theorem Told.of_writes (h : self.Told stringComparator K nextWriteId heard)
    {writeTree : FWriteTree} {next : ℤ} (hwrites : writeTree.Formed stringComparator K next) :
    Told stringComparator K next (hear heard []) ⟨self.syncPointTree, writeTree⟩ :=
  ⟨hwrites, h.points, by rw [hear_nil]; exact h.views⟩

include h

/-- **A write of the user**, of something or nothing, visible or not. -/
theorem Told.applyUserOverwriteAtPath {path : FPath} (hpath : ∀ k ∈ path, K k) {newData : Node}
    (hsnap : newData.WF) (visible : Bool) :
    ∃ syncTree changes, self.applyUserOverwriteAtPath stringComparator path newData nextWriteId
        visible = some (syncTree, changes) ∧
      syncTree.Told stringComparator K (nextWriteId + 1) (hear heard changes) := by
  have hrecord : FWriteRecord.WF stringComparator K
      ⟨path, .overwrite newData, nextWriteId, visible⟩ := ⟨hpath, hsnap⟩
  have hwrites : ∀ visibleWrites : FCompoundWrite,
      (visibleWrites = self.pendingWriteTree.visibleWrites ∨
        visibleWrites = FWriteTree.layerRecord stringComparator []
          self.pendingWriteTree.visibleWrites ⟨path, .overwrite newData, nextWriteId, visible⟩) →
      FWriteTree.Formed stringComparator K (nextWriteId + 1) ⟨visibleWrites,
        self.pendingWriteTree.allWrites ++ [⟨path, .overwrite newData, nextWriteId, visible⟩],
        nextWriteId⟩ := fun visibleWrites hvisible => h.writes.add hK hrecord rfl hvisible
  rw [FSyncTree.applyUserOverwriteAtPath, FWriteTree.addOverwriteAtPath, if_pos h.writes.last,
    Option.bind_some]
  cases visible with
  | false => exact ⟨_, [], rfl, h.of_writes (hwrites _ (Or.inl rfl))⟩
  | true =>
      have hroot : FPath.contains [] path = true := FPath.contains_iff.2 List.nil_prefix
      have hlayer : self.pendingWriteTree.visibleWrites.addWrite stringComparator newData path =
          FWriteTree.layerRecord stringComparator [] self.pendingWriteTree.visibleWrites
            ⟨path, .overwrite newData, nextWriteId, true⟩ := by
        rw [FWriteTree.layerRecord]
        simp only [dif_pos hroot, relativePathFrom]
      obtain ⟨syncTree, changes, happly, htold, -⟩ := exists_told_applyOperationToSyncPoints hK
        ⟨self.syncPointTree, _⟩ (hwrites _ (Or.inr hlayer)) h.points h.views
        (.overwrite .user path newData) ⟨hpath, hsnap⟩
      exact ⟨syncTree, changes, happly, htold⟩

/-- **A merge of the user.** -/
theorem Told.applyUserMergeAtPath {path : FPath} (hpath : ∀ k ∈ path, K k)
    {changedChildren : FCompoundWrite} (hchildren : changedChildren.WF stringComparator K) :
    ∃ syncTree changes, self.applyUserMergeAtPath stringComparator path changedChildren
        nextWriteId = some (syncTree, changes) ∧
      syncTree.Told stringComparator K (nextWriteId + 1) (hear heard changes) := by
  have hrecord : FWriteRecord.WF stringComparator K
      ⟨path, .merge changedChildren, nextWriteId, true⟩ := ⟨hpath, hchildren⟩
  have hroot : FPath.contains [] path = true := FPath.contains_iff.2 List.nil_prefix
  have hlayer : self.pendingWriteTree.visibleWrites.addCompoundWrite stringComparator
      changedChildren path = FWriteTree.layerRecord stringComparator []
        self.pendingWriteTree.visibleWrites ⟨path, .merge changedChildren, nextWriteId, true⟩ := by
    rw [FWriteTree.layerRecord]
    simp only [dif_pos hroot, relativePathFrom]
  rw [FSyncTree.applyUserMergeAtPath, FWriteTree.addMergeAtPath, if_pos h.writes.last,
    Option.bind_some]
  obtain ⟨syncTree, changes, happly, htold, -⟩ := exists_told_applyOperationToSyncPoints hK
    ⟨self.syncPointTree, _⟩ (h.writes.add hK hrecord rfl (Or.inr hlayer)) h.points h.views
    (.merge .user path changedChildren) ⟨hpath, hchildren⟩
  exact ⟨syncTree, changes, happly, htold⟩

omit hK h in
theorem WF_affectedTree (hK : NodeKeys stringComparator K) {record : FWriteRecord}
    (hrecord : record.WF stringComparator K) :
    (affectedTree stringComparator record).WF stringComparator K fun _ => True := by
  have hset : ∀ {t : FImmutableTree Unit} {path : FPath},
      t.WF stringComparator K (fun _ => True) → (∀ k ∈ path, K k) →
        (t.setValue stringComparator () path).WF stringComparator K fun _ => True :=
    fun ht hpath => ht.setValue trivial hpath
  rw [affectedTree]
  cases hdata : record.data with
  | overwrite node => exact hset .empty fun _ hk => absurd hk List.not_mem_nil
  | merge merge =>
      have hmerge : merge.WF stringComparator K := by
        have hWF := hrecord.2
        rwa [hdata] at hWF
      dsimp only
      refine List.foldlRecOn _ _ FImmutableTree.WF.empty fun t ht entry hentry => ?_
      exact hset ht (hmerge.of_mem_enumerateWrites hK.plain hentry).1

/-- **The server's answer** to any write, in any order. -/
theorem Told.ackUserWriteWithWriteId {record : FWriteRecord}
    (hmem : record ∈ self.pendingWriteTree.allWrites) (revert : Bool) :
    ∃ syncTree changes, self.ackUserWriteWithWriteId stringComparator record.writeId revert =
        some (syncTree, changes) ∧
      syncTree.Told stringComparator K nextWriteId (hear heard changes) := by
  have hfind : (self.pendingWriteTree.writeForId record.writeId).isSome = true := by
    rw [FWriteTree.writeForId, List.find?_isSome]
    exact ⟨record, hmem, beq_self_eq_true _⟩
  obtain ⟨write, hwrite⟩ := Option.isSome_iff_exists.1 hfind
  obtain ⟨⟨writeTree, reevaluate⟩, hremove⟩ :
      ∃ removed, self.pendingWriteTree.removeWriteId stringComparator record.writeId =
        some removed := FWriteTree.exists_removeWriteId hmem
  have hwrites := h.writes.removeWriteId hK hremove
  have hrecord := h.writes.record write (List.mem_of_find?_eq_some hwrite)
  rw [FSyncTree.ackUserWriteWithWriteId, hwrite, Option.bind_some, hremove, Option.bind_some]
  cases reevaluate with
  | false => exact ⟨_, [], rfl, h.of_writes hwrites⟩
  | true =>
      obtain ⟨syncTree, changes, happly, htold, -⟩ := exists_told_applyOperationToSyncPoints hK
        ⟨self.syncPointTree, writeTree⟩ hwrites h.points h.views
        (.ackUserWrite write.path (affectedTree stringComparator write) revert)
        ⟨hrecord.1, WF_affectedTree hK hrecord⟩
      exact ⟨syncTree, changes, happly, htold⟩

/-- **All writes are dropped.** -/
theorem Told.removeAllWrites :
    ∃ syncTree changes, self.removeAllWrites stringComparator = some (syncTree, changes) ∧
      syncTree.Told stringComparator K nextWriteId (hear heard changes) := by
  have hwrites : self.pendingWriteTree.removeAllWrites.1.Formed stringComparator K nextWriteId :=
    ⟨.emptyWrite, fun _ hr => absurd hr List.not_mem_nil, fun _ hr => absurd hr List.not_mem_nil,
      h.writes.last, h.writes.next⟩
  rw [FSyncTree.removeAllWrites]
  split_ifs
  · exact ⟨_, [], rfl, h.of_writes hwrites⟩
  · obtain ⟨syncTree, changes, happly, htold, -⟩ := exists_told_applyOperationToSyncPoints hK
      ⟨self.syncPointTree, self.pendingWriteTree.removeAllWrites.1⟩ hwrites h.points h.views
      (.ackUserWrite [] (FImmutableTree.empty.setValue stringComparator () []) true)
      ⟨fun _ hk => absurd hk List.not_mem_nil,
        FImmutableTree.WF.empty.setValue trivial fun _ hk => absurd hk List.not_mem_nil⟩
    exact ⟨syncTree, changes, happly, htold⟩

omit hK h [Std.TransCmp stringComparator] in
variable (stringComparator) in
/-- What is heard with a registration: a new view begins anew. -/
def hearRegistration (self : FSyncTree) (heard : FPath → List FChange) (path : FPath) :
    FPath → List FChange :=
  match self.syncPointTree.valueAtPath stringComparator path with
  | some _ => heard
  | none =>
      Function.update heard path ((self.addEventRegistration stringComparator path).2.map Prod.snd)

/-- **A new registration**, with a new view if it is the first at its path. -/
theorem Told.addEventRegistration {path : FPath} (hpath : ∀ k ∈ path, K k) :
    (self.addEventRegistration stringComparator path).1.Told stringComparator K nextWriteId
        (hearRegistration stringComparator self heard path) ∧
      (self.addEventRegistration stringComparator path).1.pendingWriteTree =
        self.pendingWriteTree := by
  unfold hearRegistration FSyncTree.addEventRegistration
  cases hvalue : self.syncPointTree.valueAtPath stringComparator path with
  | some view => exact ⟨h, rfl⟩
  | none =>
      have hserver := WF_serverCacheForQuery hK h.points
        (h.views.mono fun _ _ hview => hview.wf) hpath
      have hview := (FSyncPoint.mirrors_viewForQuery hK
        (⟨hpath, h.writes.visibleWrites⟩ : FWriteTreeRef.WF stringComparator K
          ⟨path, self.pendingWriteTree⟩) hserver fun _ => rfl).synced.wf
      refine ⟨⟨h.writes, h.points.setValue trivial hpath, ?_⟩, rfl⟩
      refine h.views.setValue_of_none hK.distinct h.points hpath hvalue ?_ fun p view hp hold => ?_
      · dsimp only
        rw [Function.update_self, List.map_map]
        exact (List.map_id _).symm ▸ FSyncPoint.told_initialEvents hview
      · dsimp only
        rwa [Function.update_of_ne hp]

/-- **The last registration at a path is removed.** -/
theorem Told.removeEventRegistration {path : FPath} (hpath : ∀ k ∈ path, K k) :
    (self.removeEventRegistration stringComparator path).Told stringComparator K nextWriteId
      heard :=
  ⟨h.writes, h.points.removeValueAtPath hpath,
    h.views.removeValueAtPath hK.distinct h.points hpath⟩

end FSyncTree
end Teamstuff
