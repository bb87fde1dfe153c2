/-
# What a view reports

Whatever the operation and whatever a view knows, the log of the changes leads from the children
of its event cache before to those after (`leads_newViewCache`).  So the accumulator raises no
exception, and an operation reports one change for each child that differs
(`applyOperationOn_eq_some`).  The value is reported in addition: for a view that shows what is
to be seen, exactly if that has changed or is known for the first time (`maybeAddValue_eq`).
-/

import Teamstuff.Firebase.Shown

namespace Teamstuff
namespace FViewProcessor

open FIndexedFilter

/-- The log leads from the children of the view's event cache to those of the new one. -/
def Tells (old : FViewCache) (new : FViewCache × List FChange) : Prop :=
  Leads old.cachedEventSnap.node.childLeaves new.2 new.1.cachedEventSnap.node.childLeaves

variable {stringComparator : NSComparator} {K : String → Prop} (hK : PlainKeys K)
  {writesCache : FWriteTreeRef} (hwrites : writesCache.WF stringComparator K)
  {view : FViewCache} (h : view.WF) {path : FPath}

include hK hwrites h

/-- Data comes from the server. -/
theorem tells_generateEventCache (hpath : ∀ k ∈ path, K k) :
    Tells view (generateEventCacheAfterServerEvent stringComparator view path writesCache) := by
  unfold generateEventCacheAfterServerEvent
  split
  next => exact rfl
  next =>
    rw [Tells]
    dsimp only [FViewCache.updateEventSnap]
    cases path with
    | nil =>
        dsimp only
        split
        next node hnode =>
          exact (leads_updateFullNode h.event (WF_completeServerSnap hK hwrites h hnode)).1
        next => exact rfl
    | cons childKey childChangePath =>
        dsimp only
        split
        next child hchild =>
          obtain ⟨hkey, hrest⟩ := List.forall_mem_cons.1 (hK.of_mem hpath)
          exact (leads_updateChildIn h.event (WF_newEventChild hK hwrites h hpath hchild) hkey
            hrest).1
        next => exact rfl

/-- The server overwrites. -/
theorem tells_applyServerOverwriteTo (hpath : ∀ k ∈ path, K k) {changedSnap : Node}
    (hsnap : changedSnap.WF) :
    Tells view (applyServerOverwriteTo stringComparator view path changedSnap writesCache) := by
  cases path with
  | nil =>
      have hview : (view.updateServerSnap changedSnap true).WF := ⟨h.event, hsnap⟩
      exact tells_generateEventCache hK hwrites hview hpath
  | cons childKey childChangePath =>
      rw [applyServerOverwriteTo]
      split_ifs
      · exact rfl
      · have hchild := (h.server.getImmediateChild childKey).updateChild hsnap fun k hk =>
          hK k (hpath k (List.mem_cons_of_mem childKey hk))
        have hview : (view.updateServerSnap (updateChildIn view.cachedServerSnap.node childKey
            ((view.cachedServerSnap.node.getImmediateChild childKey).updateChild childChangePath
              changedSnap) childChangePath).1 view.cachedServerSnap.isFullyInitialized).WF :=
          ⟨h.event, WF_updateChildIn h.server hchild (hK childKey (hpath _ List.mem_cons_self))⟩
        exact tells_generateEventCache hK hwrites hview hpath

/-- The user overwrites. -/
theorem tells_applyUserOverwriteTo (hpath : ∀ k ∈ path, K k) {changedSnap : Node}
    (hsnap : changedSnap.WF) {optCompleteCache : Option Node}
    (hcache : ∀ node ∈ optCompleteCache, node.WF) :
    Tells view (applyUserOverwriteTo stringComparator view path changedSnap writesCache
      optCompleteCache) := by
  cases path with
  | nil => exact (leads_updateFullNode h.event hsnap).1
  | cons childKey childChangePath =>
      rw [applyUserOverwriteTo]
      split_ifs
      · exact rfl
      · obtain ⟨hkey, hrest⟩ := List.forall_mem_cons.1 (hK.of_mem hpath)
        exact (leads_updateChildIn h.event (WF_writtenChild hK hwrites h hpath hsnap hcache) hkey
          hrest).1

omit hK hwrites in
/-- Several steps, of which each leads to where the next begins. -/
theorem tells_applyEach {α : Type} {l : List α} {step : FViewCache → α → FViewCache × List FChange}
    (hstep : ∀ a ∈ l, ∀ view : FViewCache, view.WF → (step view a).1.WF ∧ Tells view (step view a)) :
    Tells view (applyEach step view l) := by
  induction l generalizing view with
  | nil => exact rfl
  | cons a l ih =>
      obtain ⟨hWF, hleads⟩ := hstep a List.mem_cons_self view h
      exact Leads.append hleads (ih hWF fun b hb => hstep b (List.mem_cons_of_mem a hb))

/-- The user merges. -/
theorem tells_applyUserMergeTo (hpath : ∀ k ∈ path, K k) {changedChildren : FCompoundWrite}
    (hchildren : changedChildren.WF stringComparator K) {serverCache : Option Node}
    (hcache : ∀ node ∈ serverCache, node.WF) :
    Tells view (applyUserMergeTo stringComparator view path changedChildren writesCache
      serverCache) := by
  refine tells_applyEach h fun write hwrite view hview => ?_
  have hmem : write ∈ changedChildren.enumerateWrites.map fun w => (path ++ w.1, w.2) := by
    rcases List.mem_append.1 hwrite with hwrite | hwrite <;> exact (List.mem_filter.1 hwrite).1
  obtain ⟨w, hw, rfl⟩ := List.mem_map.1 hmem
  obtain ⟨hwpath, hwnode⟩ := hchildren.of_mem_enumerateWrites hK hw
  have hkeys : ∀ k ∈ path ++ w.1, K k := fun k hk =>
    (List.mem_append.1 hk).elim (hpath k) (hwpath k)
  exact ⟨WF_applyUserOverwriteTo hK hwrites hview hkeys hwnode hcache,
    tells_applyUserOverwriteTo hK hwrites hview hkeys hwnode hcache⟩

/-- The server merges. -/
theorem tells_applyServerMergeTo [Std.TransCmp stringComparator] (hpath : ∀ k ∈ path, K k)
    {changedChildren : FCompoundWrite} (hchildren : changedChildren.WF stringComparator K) :
    Tells view (applyServerMergeTo stringComparator view path changedChildren writesCache) := by
  unfold applyServerMergeTo
  dsimp only
  split_ifs
  · exact rfl
  · refine tells_applyEach h fun child hchild view' hview' => ?_
    have hmem := (List.mem_append.1 hchild).elim (fun h => (List.mem_filter.1 h).1)
      fun h => (List.mem_filter.1 h).1
    obtain ⟨hkey, hmerge⟩ := (WF_actualMerge hK hpath hchildren).of_mem_childCompoundWrites hmem
    rw [FPath.initWith_of_isValidKey (hK.valid child.1 hkey)]
    have hkeys : ∀ k ∈ [child.1], K k := fun k hk => List.mem_singleton.1 hk ▸ hkey
    have hnode := hmerge.applyToNode hK (h.server.getImmediateChild child.1)
    exact ⟨WF_applyServerOverwriteTo hK hwrites hview' hkeys hnode,
      tells_applyServerOverwriteTo hK hwrites hview' hkeys hnode⟩

/-- A child is reverted. -/
theorem tells_revertedChild {childKey : String} {childPath : FPath}
    (hpath : ∀ k ∈ childKey :: childPath, K k) :
    Leads view.cachedEventSnap.node.childLeaves
      (revertedChild stringComparator view childKey childPath writesCache).2
      (revertedChild stringComparator view childKey childPath writesCache).1.childLeaves := by
  obtain ⟨hkey, hrest⟩ := List.forall_mem_cons.1 (hK.of_mem hpath)
  unfold revertedChild
  dsimp only
  split
  next child hchild =>
    refine (leads_updateChildIn h.event ?_ hkey hrest).1
    split at hchild
    next c hc => exact Option.some.inj hchild ▸ hwrites.calculateCompleteChild hK h.server hc
    next =>
      split_ifs at hchild
      exact Option.some.inj hchild ▸ h.event.getImmediateChild childKey
  next =>
    split_ifs
    · exact (leads_updateChildIn h.event .empty hkey hrest).1
    · exact rfl

/-- A write is rejected. -/
theorem tells_revertUserWriteOn (hpath : ∀ k ∈ path, K k) :
    Tells view (revertUserWriteOn stringComparator view path writesCache) := by
  unfold revertUserWriteOn
  split
  next => exact rfl
  next =>
    rw [Tells]
    dsimp only [FViewCache.updateEventSnap]
    cases path with
    | nil =>
        dsimp only
        split_ifs
        · split
          next node hnode =>
            exact (leads_updateFullNode h.event (WF_completeServerSnap hK hwrites h hnode)).1
          next => exact rfl
        · exact (leads_updateFullNode h.event
            (hwrites.calculateCompleteEventChildren hK h.server)).1
    | cons childKey childPath =>
        dsimp only
        have hreverted := tells_revertedChild hK hwrites h hpath
        have hWF := WF_revertedChild hK hwrites h (hpath childKey List.mem_cons_self) childPath
        unfold restoredLeaf
        split_ifs
        · split
          next complete hcomplete =>
            split_ifs
            · exact hreverted.append
                (leads_updateFullNode hWF (WF_completeServerSnap hK hwrites h hcomplete)).1
            · exact hreverted
          next => exact hreverted
        · exact hreverted

omit hK hwrites in
/-- A write is acknowledged. -/
theorem tells_ackUserWriteOn [Std.TransCmp stringComparator]
    (hwrites : writesCache.WF stringComparator fun k => isPlainKey k = true)
    (hpath : ∀ k ∈ path, isPlainKey k = true) {affectedTree : FImmutableTree Unit}
    (haffected : affectedTree.WF stringComparator (fun k => isPlainKey k = true) fun _ => True) :
    Tells view (ackUserWriteOn stringComparator view path affectedTree writesCache) := by
  have hvalid : PlainKeys fun k => isPlainKey k = true := fun _ hk => hk
  unfold ackUserWriteOn
  split
  next => exact rfl
  next =>
    dsimp only
    split
    next =>
      split_ifs
      · exact tells_applyServerOverwriteTo hvalid hwrites h hpath (h.server.getChild path)
      · exact tells_applyServerMergeTo hvalid hwrites h hpath (WF_foldl_childList h.server)
      · exact rfl
    next =>
      exact tells_applyServerMergeTo hvalid hwrites h hpath (WF_foldl_affected h.server haffected)

omit hK hwrites in
/-- **The log of an operation** leads from the children before it to those after. -/
theorem leads_newViewCache [Std.TransCmp stringComparator]
    (hwrites : writesCache.WF stringComparator fun k => isPlainKey k = true)
    {operation : FOperation}
    (hoperation : operation.WF stringComparator fun k => isPlainKey k = true)
    {optCompleteCache : Option Node} (hcache : ∀ node ∈ optCompleteCache, node.WF) :
    Tells view (newViewCache stringComparator view operation writesCache optCompleteCache) := by
  have hvalid : PlainKeys fun k => isPlainKey k = true := fun _ hk => hk
  cases operation with
  | overwrite source path snap =>
      cases source with
      | user =>
          exact tells_applyUserOverwriteTo hvalid hwrites h hoperation.1 hoperation.2 hcache
      | server => exact tells_applyServerOverwriteTo hvalid hwrites h hoperation.1 hoperation.2
  | merge source path children =>
      cases source with
      | user => exact tells_applyUserMergeTo hvalid hwrites h hoperation.1 hoperation.2 hcache
      | server => exact tells_applyServerMergeTo hvalid hwrites h hoperation.1 hoperation.2
  | ackUserWrite path affectedTree revert =>
      cases revert with
      | false => exact tells_ackUserWriteOn h hwrites hoperation.1 hoperation.2
      | true => exact tells_revertUserWriteOn hvalid hwrites h hoperation.1
  | listenComplete path =>
      have hview : (view.updateServerSnap view.cachedServerSnap.node
          (view.cachedServerSnap.isFullyInitialized || path.isEmpty)).WF := ⟨h.event, h.server⟩
      exact tells_generateEventCache hvalid hwrites hview hoperation

/-! ### Complete data of the server stays complete -/

section Complete

omit hK hwrites h

variable (hserver : view.cachedServerSnap.isFullyInitialized = true)

include hserver

/-- Complete data stays complete when the server overwrites. -/
theorem complete_applyServerOverwriteTo (path : FPath) (changedSnap : Node) :
    (applyServerOverwriteTo stringComparator view path changedSnap
      writesCache).1.cachedServerSnap.isFullyInitialized = true := by
  cases path with
  | nil =>
      rw [applyServerOverwriteTo, cachedServerSnap_generateEventCacheAfterServerEvent]
      rfl
  | cons childKey childChangePath =>
      rw [isFullyInitialized_applyServerOverwriteTo, hserver]

/-- It does after several operations that keep it so. -/
theorem complete_applyEach {α : Type} {step : FViewCache → α → FViewCache × List FChange}
    (hstep : ∀ a, ∀ view : FViewCache, view.cachedServerSnap.isFullyInitialized = true →
      (step view a).1.cachedServerSnap.isFullyInitialized = true) (l : List α) :
    (applyEach step view l).1.cachedServerSnap.isFullyInitialized = true := by
  induction l generalizing view with
  | nil => exact hserver
  | cons a l ih => exact ih (hstep a view hserver)

/-- It does when the server merges. -/
theorem complete_applyServerMergeTo (path : FPath) (changedChildren : FCompoundWrite) :
    (applyServerMergeTo stringComparator view path changedChildren
      writesCache).1.cachedServerSnap.isFullyInitialized = true := by
  unfold applyServerMergeTo
  dsimp only
  split_ifs
  · exact hserver
  · exact complete_applyEach hserver
      (fun _ _ hview => complete_applyServerOverwriteTo hview _ _) _

/-- It does when a write is acknowledged. -/
theorem complete_ackUserWriteOn (path : FPath) (affectedTree : FImmutableTree Unit) :
    (ackUserWriteOn stringComparator view path affectedTree
      writesCache).1.cachedServerSnap.isFullyInitialized = true := by
  unfold ackUserWriteOn
  split
  next => exact hserver
  next =>
    dsimp only
    split
    next =>
      split_ifs
      · exact complete_applyServerOverwriteTo hserver _ _
      · exact complete_applyServerMergeTo hserver _ _
      · exact hserver
    next => exact complete_applyServerMergeTo hserver _ _

/-- **Once a server snap is complete it never goes back.** -/
theorem complete_newViewCache (operation : FOperation) (optCompleteCache : Option Node) :
    (newViewCache stringComparator view operation writesCache
      optCompleteCache).1.cachedServerSnap.isFullyInitialized = true := by
  cases operation with
  | overwrite source path snap =>
      cases source with
      | user =>
          rw [newViewCache, cachedServerSnap_applyUserOverwriteTo]
          exact hserver
      | server => exact complete_applyServerOverwriteTo hserver path snap
  | merge source path children =>
      cases source with
      | user =>
          refine complete_applyEach hserver (fun write view hview => ?_) _
          rw [cachedServerSnap_applyUserOverwriteTo]
          exact hview
      | server => exact complete_applyServerMergeTo hserver path children
  | ackUserWrite path affectedTree revert =>
      cases revert with
      | false => exact complete_ackUserWriteOn hserver path affectedTree
      | true =>
          rw [newViewCache, revertUserWriteOn]
          split <;> exact hserver
  | listenComplete path =>
      rw [newViewCache, listenCompleteOldCache,
        cachedServerSnap_generateEventCacheAfterServerEvent, FViewCache.updateServerSnap, hserver]
      rfl

end Complete

/-! ### What is reported -/

omit hK hwrites in
/-- **No operation raises an exception**, and the changes of its children are drawn together. -/
theorem applyOperationOn_eq_some [Std.TransCmp stringComparator]
    (hwrites : writesCache.WF stringComparator fun k => isPlainKey k = true)
    {operation : FOperation}
    (hoperation : operation.WF stringComparator fun k => isPlainKey k = true)
    {optCompleteCache : Option Node} (hcache : ∀ node ∈ optCompleteCache, node.WF) :
    ∃ accumulator : FChildChangeAccumulator,
      FChildChangeAccumulator.init.trackChildChanges
        (newViewCache stringComparator view operation writesCache optCompleteCache).2 =
          some accumulator ∧
      applyOperationOn stringComparator view operation writesCache optCompleteCache =
        some ⟨(newViewCache stringComparator view operation writesCache optCompleteCache).1,
          maybeAddValue view
            (newViewCache stringComparator view operation writesCache optCompleteCache).1
            accumulator.changes⟩ ∧
      accumulator.Reports view.cachedEventSnap.node.childLeaves
        (newViewCache stringComparator view operation writesCache
          optCompleteCache).1.cachedEventSnap.node.childLeaves := by
  obtain ⟨accumulator, hacc, hreports⟩ := FChildChangeAccumulator.trackChildChanges_of_leads
    (FChildChangeAccumulator.reports_init _) (leads_newViewCache h hwrites hoperation hcache)
  refine ⟨accumulator, hacc, ?_, hreports⟩
  rw [applyOperationOn, hacc]
  rfl

omit hK hwrites h in
omit hK hwrites h in
/-- Nodes with the same children that are not the same are a leaf and another leaf or nothing. -/
theorem isLeafNode_or_isEmpty {old new : Node} (hnew : new.WF)
    (hsame : old.childLeaves = new.childLeaves) (hne : old.leaves ≠ new.leaves) :
    (new.isLeafNode || new.isEmpty) = true := by
  cases new with
  | leaf v => rfl
  | children cs =>
      rw [Node.isLeafNode, Bool.false_or, ← hnew.leaves_eq_empty_iff]
      have hroot : (Node.children cs).leaves.root = none := Node.root_leaves _
      -- the old node is then a leaf
      have hold : old.leaves.root.isSome = true := by
        by_contra hnone
        rw [Option.not_isSome_iff_eq_none] at hnone
        exact hne (LeafTree.ext_child (hnone.trans hroot.symm) fun k => congrFun hsame k)
      refine LeafTree.eq_empty_iff.2 ⟨hroot, fun k => ?_⟩
      exact (congrFun hsame k).symm.trans (LeafTree.child_of_root hold k)

omit hK hwrites in
/-- **The value is reported** exactly if what is shown has changed or is known for the first
time. -/
theorem maybeAddValue_eq {P : LeafTree.Patch String LeafValue} {new : FViewCache × List FChange}
    (hnew : new.1.WF) (hupdated : view.Updated P new) {accumulator : FChildChangeAccumulator}
    (hacc : FChildChangeAccumulator.init.trackChildChanges new.2 = some accumulator) :
    maybeAddValue view new.1 accumulator.changes =
      accumulator.changes ++
        if view.cachedEventSnap.isFullyInitialized &&
          view.cachedEventSnap.node.isEqual new.1.cachedEventSnap.node then []
        else [.value new.1.cachedEventSnap.node] := by
  obtain ⟨accumulator', hacc', hreports⟩ := FChildChangeAccumulator.trackChildChanges_of_leads
    (FChildChangeAccumulator.reports_init _) hupdated.becomes.leads
  obtain rfl := Option.some.inj (hacc.symm.trans hacc')
  have hequal := h.event.isEqual_iff hnew.event
  have hequal' := hnew.event.isEqual_iff h.event
  rw [maybeAddValue, if_pos hupdated.isFullyInitialized]
  dsimp only
  cases hold : view.cachedEventSnap.isFullyInitialized with
  | false => rw [Bool.not_false, Bool.or_true, Bool.true_or, if_pos rfl, Bool.false_and]; rfl
  | true =>
      have hsnap : view.completeEventSnap = some view.cachedEventSnap.node := by
        rw [FViewCache.completeEventSnap, if_pos hold]
      rw [hsnap, Option.any_some, Bool.not_true, Bool.or_false, Bool.true_and]
      by_cases hsame : view.cachedEventSnap.node.leaves = new.1.cachedEventSnap.node.leaves
      · have hnone : accumulator.changes = [] := by
          have hlog := hupdated.becomes.silent (congrArg LeafTree.child hsame)
          rw [hlog] at hacc
          obtain rfl := Option.some.inj hacc
          rfl
        rw [hequal'.2 hsame.symm, hequal.2 hsame, hnone, Bool.not_true, Bool.and_false,
          Bool.or_false, if_pos rfl]
        rfl
      · have hne : ¬ view.cachedEventSnap.node.isEqual new.1.cachedEventSnap.node = true :=
          fun he => hsame (hequal.1 he)
        have hne' : new.1.cachedEventSnap.node.isEqual view.cachedEventSnap.node = false :=
          Bool.eq_false_iff.2 fun he => hsame (hequal'.1 he).symm
        rw [if_neg hne, if_pos]
        rw [hne', Bool.not_false, Bool.and_true, Bool.or_eq_true]
        by_cases hchanges : accumulator.changes = []
        · refine Or.inr (isLeafNode_or_isEmpty hnew.event (funext fun k => ?_) hsame)
          have hnets := hreports.nets k
          rw [FChildChangeAccumulator.changes, List.map_eq_nil_iff] at hchanges
          rw [hchanges] at hnets
          exact hnets
        · exact Or.inl (by rw [Bool.not_eq_true', List.isEmpty_eq_false_iff]; exact hchanges)

end FViewProcessor
end Teamstuff
