/-
# Operations on a view

`FViewProcessor.m` and the operations it takes (`FOverwrite.m`, `FMerge.m`, `FAckUserWrite.m`,
`FListenComplete.m`).  A view is told of a write of the user, of data from the server, and of
the server's answer to a write.  It changes what it keeps only at the path that is concerned:
it looks up what the pending writes make of the server's data there, puts that in, and reports
which children have changed and, if any have or the data has just become complete, the value.

The views are those of queries without limits (`Teamstuff.Firebase.ViewCache`), so the server's
data is never filtered, and the source of complete children is asked in
`applyUserOverwriteTo:` only.  Priorities are not modelled.  The dictionary of
`childCompoundWrites` is gone through in the order of its keys.
-/

import Teamstuff.Firebase.EventCache

namespace Teamstuff

/-! ### Operations -/

/-- `FOperationSource`, without the tags of filtered queries. -/
inductive FOperationSource
  | user
  | server

/-- `FOverwrite`, `FMerge`, `FAckUserWrite` and `FListenComplete`. -/
inductive FOperation
  | overwrite (source : FOperationSource) (path : FPath) (snap : Node)
  | merge (source : FOperationSource) (path : FPath) (children : FCompoundWrite)
  | ackUserWrite (path : FPath) (affectedTree : FImmutableTree Unit) (revert : Bool)
  | listenComplete (path : FPath)

namespace FOperation

/-- `path`. -/
def path : FOperation → FPath
  | .overwrite _ path _ => path
  | .merge _ path _ => path
  | .ackUserWrite path _ _ => path
  | .listenComplete path => path

end FOperation

/-- `FViewProcessorResult`. -/
structure FViewProcessorResult where
  viewCache : FViewCache
  changes : List FChange

namespace FViewProcessor

open FIndexedFilter

variable (stringComparator : NSComparator)

/-- `completeChild:` of `FWriteTreeCompleteChildSource`. -/
def completeChild (writes : FWriteTreeRef) (viewCache : FViewCache)
    (optCompleteServerCache : Option Node) (childKey : String) : Option Node :=
  let node := viewCache.cachedEventSnap
  if node.isCompleteForChild childKey then some (node.node.getImmediateChild childKey)
  else
    let serverNode := match optCompleteServerCache with
      | some cache => ⟨cache, true⟩
      | none => viewCache.cachedServerSnap
    writes.calculateCompleteChild stringComparator childKey serverNode

/-- The child of the event cache after a change of the server's data at `childKey :: path`. -/
def newEventChild (viewCache : FViewCache) (childKey : String) (childChangePath : FPath)
    (writesCache : FWriteTreeRef) : Option Node :=
  let oldEventSnap := viewCache.cachedEventSnap
  if oldEventSnap.isCompleteForChild childKey then
    match writesCache.calculateEventCacheAfterServerOverwrite stringComparator
        (childKey :: childChangePath) viewCache.cachedServerSnap.node with
    | some eventChildUpdate =>
        some ((oldEventSnap.node.getImmediateChild childKey).updateChild childChangePath
          eventChildUpdate)
    | none => some (oldEventSnap.node.getImmediateChild childKey)
  else writesCache.calculateCompleteChild stringComparator childKey viewCache.cachedServerSnap

/-- `generateEventCacheAfterServerEvent:path:writesCache:source:accumulator:`. -/
def generateEventCacheAfterServerEvent (viewCache : FViewCache) (changePath : FPath)
    (writesCache : FWriteTreeRef) : FViewCache × List FChange :=
  let oldEventSnap := viewCache.cachedEventSnap
  match writesCache.shadowingWriteAtPath stringComparator changePath with
  | some _ => (viewCache, [])
  | none =>
      let newEventCache := match changePath with
        | [] =>
            match writesCache.calculateCompleteEventCache stringComparator
                viewCache.completeServerSnap with
            | some nodeWithLocalWrites => updateFullNode oldEventSnap.node nodeWithLocalWrites
            -- not reached, there is complete server data
            | none => (oldEventSnap.node, [])
        | childKey :: childChangePath =>
            match newEventChild stringComparator viewCache childKey childChangePath writesCache with
            | some child => updateChildIn oldEventSnap.node childKey child childChangePath
            | none => (oldEventSnap.node, [])
      (viewCache.updateEventSnap newEventCache.1
        (oldEventSnap.isFullyInitialized || changePath.isEmpty), newEventCache.2)

/-- `applyServerOverwriteTo:changePath:snap:writesCache:completeCache:filterServerNode:accumulator:`. -/
def applyServerOverwriteTo (oldViewCache : FViewCache) (changePath : FPath) (changedSnap : Node)
    (writesCache : FWriteTreeRef) : FViewCache × List FChange :=
  let oldServerSnap := oldViewCache.cachedServerSnap
  match changePath with
  | [] =>
      generateEventCacheAfterServerEvent stringComparator
        (oldViewCache.updateServerSnap (updateFullNode oldServerSnap.node changedSnap).1 true) []
        writesCache
  | childKey :: childChangePath =>
      if !oldServerSnap.isCompleteForPath changePath && decide (1 < changePath.length) then
        (oldViewCache, [])
      else
        let childNode := oldServerSnap.node.getImmediateChild childKey
        let newChildNode := childNode.updateChild childChangePath changedSnap
        let newServerCache :=
          (updateChildIn oldServerSnap.node childKey newChildNode childChangePath).1
        generateEventCacheAfterServerEvent stringComparator
          (oldViewCache.updateServerSnap newServerCache oldServerSnap.isFullyInitialized)
          changePath writesCache

/-- The child of the event cache with a write of the user at `childKey :: path`. -/
def writtenChild (oldViewCache : FViewCache) (childKey : String) (childChangePath : FPath)
    (changedSnap : Node) (writesCache : FWriteTreeRef) (optCompleteCache : Option Node) : Node :=
  if childChangePath.isEmpty then changedSnap
  else
    match completeChild stringComparator writesCache oldViewCache optCompleteCache childKey with
    | some childNode => childNode.updateChild childChangePath changedSnap
    | none => .empty

/-- `applyUserOverwriteTo:changePath:changedSnap:writesCache:completeCache:accumulator:`. -/
def applyUserOverwriteTo (oldViewCache : FViewCache) (changePath : FPath) (changedSnap : Node)
    (writesCache : FWriteTreeRef) (optCompleteCache : Option Node) : FViewCache × List FChange :=
  let oldEventSnap := oldViewCache.cachedEventSnap
  match changePath with
  | [] =>
      let newEventCache := updateFullNode oldEventSnap.node changedSnap
      (oldViewCache.updateEventSnap newEventCache.1 true, newEventCache.2)
  | childKey :: childChangePath =>
      let oldChild := oldEventSnap.node.getImmediateChild childKey
      let newChild := writtenChild stringComparator oldViewCache childKey childChangePath
        changedSnap writesCache optCompleteCache
      if oldChild.isEqual newChild then (oldViewCache, [])
      else
        let newEventSnap := updateChildIn oldEventSnap.node childKey newChild childChangePath
        (oldViewCache.updateEventSnap newEventSnap.1 oldEventSnap.isFullyInitialized,
          newEventSnap.2)

/-- Steps on a view one after the other, with the changes of all of them. -/
def applyEach {α : Type} (step : FViewCache → α → FViewCache × List FChange) :
    FViewCache → List α → FViewCache × List FChange
  | viewCache, [] => (viewCache, [])
  | viewCache, a :: l =>
      let cur := step viewCache a
      let last := applyEach step cur.1 l
      (last.1, cur.2 ++ last.2)

/-- `cache:hasChild:`, for the first key of a path. -/
def cacheHasChild (viewCache : FViewCache) (writePath : FPath) : Bool :=
  match writePath with
  | [] => viewCache.cachedEventSnap.isFullyInitialized
  | childKey :: _ => viewCache.cachedEventSnap.isCompleteForChild childKey

/-- `applyUserMergeTo:path:changedChildren:writesCache:completeCache:accumulator:`. -/
def applyUserMergeTo (viewCache : FViewCache) (path : FPath) (changedChildren : FCompoundWrite)
    (writesCache : FWriteTreeRef) (serverCache : Option Node) : FViewCache × List FChange :=
  let writes := changedChildren.enumerateWrites.map fun write => (path ++ write.1, write.2)
  -- what is in view first
  applyEach (fun curViewCache write => applyUserOverwriteTo stringComparator curViewCache write.1
      write.2 writesCache serverCache) viewCache
    ((writes.filter fun write => cacheHasChild viewCache write.1) ++
      writes.filter fun write => !cacheHasChild viewCache write.1)

/-- `actualMerge` in `applyServerMergeTo:`. -/
def actualMerge (path : FPath) (changedChildren : FCompoundWrite) : FCompoundWrite :=
  if path.isEmpty then changedChildren
  else FCompoundWrite.emptyWrite.addCompoundWrite stringComparator changedChildren path

/-- `applyServerMergeTo:path:changedChildren:writesCache:completeCache:filterServerNode:accumulator:`. -/
def applyServerMergeTo (viewCache : FViewCache) (path : FPath) (changedChildren : FCompoundWrite)
    (writesCache : FWriteTreeRef) : FViewCache × List FChange :=
  let serverSnap := viewCache.cachedServerSnap
  if serverSnap.node.isEmpty && !serverSnap.isFullyInitialized then (viewCache, [])
  else
    let childCompoundWrites :=
      (actualMerge stringComparator path changedChildren).childCompoundWrites
    applyEach (fun curViewCache child =>
        let serverChild := serverSnap.node.getImmediateChild child.1
        let newChild := child.2.applyToNode serverChild
        applyServerOverwriteTo stringComparator curViewCache (FPath.initWith child.1) newChild
          writesCache) viewCache
      ((childCompoundWrites.filter fun child => FNode.hasChild serverSnap.node child.1) ++
        childCompoundWrites.filter fun child =>
          let isUnknownDeepMerge :=
            !serverSnap.isCompleteForChild child.1 && child.2.rootWrite.isNone
          !FNode.hasChild serverSnap.node child.1 && !isUnknownDeepMerge)

/-- `ackUserWriteOn:ackPath:affectedTree:writesCache:completeCache:accumulator:`. -/
def ackUserWriteOn (viewCache : FViewCache) (ackPath : FPath) (affectedTree : FImmutableTree Unit)
    (writesCache : FWriteTreeRef) : FViewCache × List FChange :=
  match writesCache.shadowingWriteAtPath stringComparator ackPath with
  | some _ => (viewCache, [])
  | none =>
      let serverCache := viewCache.cachedServerSnap
      match affectedTree.value with
      | some _ =>
          if (ackPath.isEmpty && serverCache.isFullyInitialized) ||
              serverCache.isCompleteForPath ackPath then
            applyServerOverwriteTo stringComparator viewCache ackPath
              (serverCache.node.getChild ackPath) writesCache
          else if ackPath.isEmpty then
            -- acknowledged before there is complete data: what there is, as a merge
            let changedChildren := serverCache.node.childList.foldl
              (fun changedChildren child => changedChildren.addWrite stringComparator child.2
                (FPath.initWith child.1)) .emptyWrite
            applyServerMergeTo stringComparator viewCache ackPath changedChildren writesCache
          else (viewCache, [])
      | none =>
          let complete := affectedTree.forEach.filter fun affected =>
            serverCache.isCompleteForPath (ackPath ++ affected.1)
          let changedChildren := complete.foldl
            (fun changedChildren affected => changedChildren.addWrite stringComparator
              (serverCache.node.getChild (ackPath ++ affected.1)) affected.1) .emptyWrite
          applyServerMergeTo stringComparator viewCache ackPath changedChildren writesCache

/-- The event cache with the child at `childKey` as it is without the write, in
`revertUserWriteOn:`. -/
def revertedChild (viewCache : FViewCache) (childKey : String) (childPath : FPath)
    (writesCache : FWriteTreeRef) : Node × List FChange :=
  let oldEventCache := viewCache.cachedEventSnap.node
  let newChild :=
    match writesCache.calculateCompleteChild stringComparator childKey
        viewCache.cachedServerSnap with
    | some child => some child
    | none =>
        if viewCache.cachedServerSnap.isCompleteForChild childKey then
          some (oldEventCache.getImmediateChild childKey)
        else none
  match newChild with
  | some child => updateChildIn oldEventCache childKey child childPath
  | none =>
      if FNode.hasChild oldEventCache childKey then updateChildIn oldEventCache childKey .empty childPath
      else (oldEventCache, [])

/-- The leaf that the write of a child has replaced, in `revertUserWriteOn:`. -/
def restoredLeaf (viewCache : FViewCache) (writesCache : FWriteTreeRef)
    (newEventCache : Node × List FChange) : Node × List FChange :=
  if newEventCache.1.isEmpty && viewCache.cachedServerSnap.isFullyInitialized then
    match writesCache.calculateCompleteEventCache stringComparator viewCache.completeServerSnap with
    | some complete =>
        if complete.isLeafNode then
          let full := updateFullNode newEventCache.1 complete
          (full.1, newEventCache.2 ++ full.2)
        else newEventCache
    | none => newEventCache
  else newEventCache

/-- `revertUserWriteOn:path:writesCache:completeCache:accumulator:`. -/
def revertUserWriteOn (viewCache : FViewCache) (path : FPath) (writesCache : FWriteTreeRef) :
    FViewCache × List FChange :=
  match writesCache.shadowingWriteAtPath stringComparator path with
  | some _ => (viewCache, [])
  | none =>
      let oldEventCache := viewCache.cachedEventSnap.node
      let serverSnap := viewCache.cachedServerSnap
      let newEventCache := match path with
        | [] =>
            if serverSnap.isFullyInitialized then
              match writesCache.calculateCompleteEventCache stringComparator
                  viewCache.completeServerSnap with
              | some newNode => updateFullNode oldEventCache newNode
              -- not reached, there is complete server data
              | none => (oldEventCache, [])
            else
              updateFullNode oldEventCache
                (writesCache.calculateCompleteEventChildren stringComparator serverSnap.node)
        | childKey :: childPath =>
            restoredLeaf stringComparator viewCache writesCache
              (revertedChild stringComparator viewCache childKey childPath writesCache)
      let complete := serverSnap.isFullyInitialized ||
        (writesCache.shadowingWriteAtPath stringComparator []).isSome
      (viewCache.updateEventSnap newEventCache.1 complete, newEventCache.2)

/-- `listenCompleteOldCache:path:writesCache:serverCache:accumulator:`. -/
def listenCompleteOldCache (viewCache : FViewCache) (path : FPath) (writesCache : FWriteTreeRef) :
    FViewCache × List FChange :=
  let oldServerNode := viewCache.cachedServerSnap
  generateEventCacheAfterServerEvent stringComparator
    (viewCache.updateServerSnap oldServerNode.node
      (oldServerNode.isFullyInitialized || path.isEmpty)) path writesCache

/-- `maybeAddValueFromOldViewCache:newViewCache:changes:`. -/
def maybeAddValue (oldViewCache newViewCache : FViewCache) (changes : List FChange) :
    List FChange :=
  let eventSnap := newViewCache.cachedEventSnap
  if eventSnap.isFullyInitialized then
    let isLeafOrEmpty := eventSnap.node.isLeafNode || eventSnap.node.isEmpty
    if !changes.isEmpty || !oldViewCache.cachedEventSnap.isFullyInitialized ||
        (isLeafOrEmpty && !oldViewCache.completeEventSnap.any fun old => eventSnap.node.isEqual old)
    then changes ++ [.value eventSnap.node]
    else changes
  else changes

/-- The new caches and the tracked changes in `applyOperationOn:`. -/
def newViewCache (oldViewCache : FViewCache) (operation : FOperation) (writesCache : FWriteTreeRef)
    (optCompleteCache : Option Node) : FViewCache × List FChange :=
  match operation with
  | .overwrite .user path snap =>
      applyUserOverwriteTo stringComparator oldViewCache path snap writesCache optCompleteCache
  | .overwrite .server path snap =>
      applyServerOverwriteTo stringComparator oldViewCache path snap writesCache
  | .merge .user path children =>
      applyUserMergeTo stringComparator oldViewCache path children writesCache optCompleteCache
  | .merge .server path children =>
      applyServerMergeTo stringComparator oldViewCache path children writesCache
  | .ackUserWrite path affectedTree false =>
      ackUserWriteOn stringComparator oldViewCache path affectedTree writesCache
  | .ackUserWrite path _ true => revertUserWriteOn stringComparator oldViewCache path writesCache
  | .listenComplete path => listenCompleteOldCache stringComparator oldViewCache path writesCache

/-- `applyOperationOn:operation:writesCache:completeCache:`; `none` stands for the exceptions of
the accumulator. -/
def applyOperationOn (oldViewCache : FViewCache) (operation : FOperation)
    (writesCache : FWriteTreeRef) (optCompleteCache : Option Node) : Option FViewProcessorResult :=
  let new := newViewCache stringComparator oldViewCache operation writesCache optCompleteCache
  (FChildChangeAccumulator.init.trackChildChanges new.2).map fun accumulator =>
    ⟨new.1, maybeAddValue oldViewCache new.1 accumulator.changes⟩

end FViewProcessor

/-! ### Well-formed views -/

/-- Both of the nodes are well formed. -/
structure FViewCache.WF (view : FViewCache) : Prop where
  event : view.cachedEventSnap.node.WF
  server : view.cachedServerSnap.node.WF

/-- The keys of the path are in `K`, and what is written is well formed. -/
def FOperation.WF (stringComparator : NSComparator) (K : String → Prop) : FOperation → Prop
  | .overwrite _ path snap => (∀ k ∈ path, K k) ∧ snap.WF
  | .merge _ path children => (∀ k ∈ path, K k) ∧ children.WF stringComparator K
  | .ackUserWrite path affectedTree _ =>
      (∀ k ∈ path, K k) ∧ affectedTree.WF stringComparator K fun _ => True
  | .listenComplete path => ∀ k ∈ path, K k

/-- With more keys. -/
theorem FOperation.WF.mono {stringComparator : NSComparator} {K K' : String → Prop}
    {operation : FOperation} (h : operation.WF stringComparator K) (hK : ∀ k, K k → K' k) :
    operation.WF stringComparator K' := by
  cases operation with
  | overwrite source path snap => exact ⟨fun k hk => hK k (h.1 k hk), h.2⟩
  | merge source path children =>
      exact ⟨fun k hk => hK k (h.1 k hk), FImmutableTree.WF.mono h.2 hK⟩
  | ackUserWrite path affectedTree revert =>
      exact ⟨fun k hk => hK k (h.1 k hk), FImmutableTree.WF.mono h.2 hK⟩
  | listenComplete path => exact fun k hk => hK k (h k hk)

namespace FViewProcessor

open FIndexedFilter

variable {stringComparator : NSComparator} {K : String → Prop}
  (hK : PlainKeys K) {writesCache : FWriteTreeRef}
  (hwrites : writesCache.WF stringComparator K) {viewCache : FViewCache} {path : FPath}

include hK hwrites

/-- The child that is shown is well formed. -/
theorem WF_newEventChild (h : viewCache.WF) {childKey : String} {childChangePath : FPath}
    (hpath : ∀ k ∈ childKey :: childChangePath, K k) {child : Node}
    (hchild : newEventChild stringComparator viewCache childKey childChangePath writesCache =
      some child) : child.WF := by
  rw [newEventChild] at hchild
  split_ifs at hchild
  · split at hchild
    next update hupdate =>
      obtain rfl := Option.some.inj hchild
      exact (h.event.getImmediateChild childKey).updateChild
        (hwrites.calculateEventCacheAfterServerOverwrite hK h.server hupdate)
        fun k hk => hK k (hpath k (List.mem_cons_of_mem childKey hk))
    next => exact Option.some.inj hchild ▸ h.event.getImmediateChild childKey
  · exact hwrites.calculateCompleteChild hK h.server hchild

/-- The view is after data from the server. -/
theorem WF_generateEventCacheAfterServerEvent (h : viewCache.WF) (hpath : ∀ k ∈ path, K k) :
    (generateEventCacheAfterServerEvent stringComparator viewCache path writesCache).1.WF := by
  unfold generateEventCacheAfterServerEvent
  split
  next => exact h
  next =>
    refine ⟨?_, h.server⟩
    cases path with
    | nil =>
        dsimp only [FViewCache.updateEventSnap]
        split
        next node hnode =>
          refine hwrites.calculateCompleteEventCache hK (fun server hserver => ?_) hnode
          rw [FViewCache.completeServerSnap] at hserver
          split_ifs at hserver
          · exact Option.some.inj hserver ▸ h.server
          · cases hserver
        next => exact h.event
    | cons childKey childChangePath =>
        dsimp only [FViewCache.updateEventSnap]
        split
        next child hchild =>
          exact WF_updateChildIn h.event (WF_newEventChild hK hwrites h hpath hchild)
            (hK childKey (hpath childKey List.mem_cons_self))
        next => exact h.event

/-- It is after an overwrite of the server. -/
theorem WF_applyServerOverwriteTo (h : viewCache.WF) (hpath : ∀ k ∈ path, K k)
    {changedSnap : Node} (hsnap : changedSnap.WF) :
    (applyServerOverwriteTo stringComparator viewCache path changedSnap writesCache).1.WF := by
  cases path with
  | nil =>
      exact WF_generateEventCacheAfterServerEvent hK hwrites ⟨h.event, hsnap⟩ hpath
  | cons childKey childChangePath =>
      rw [applyServerOverwriteTo]
      split_ifs
      · exact h
      · refine WF_generateEventCacheAfterServerEvent hK hwrites ⟨h.event, ?_⟩ hpath
        refine WF_updateChildIn h.server ?_ (hK childKey (hpath _ List.mem_cons_self))
        exact (h.server.getImmediateChild childKey).updateChild hsnap fun k hk =>
          hK k (hpath k (List.mem_cons_of_mem childKey hk))

/-- A complete child is well formed. -/
theorem WF_completeChild (h : viewCache.WF) {optCompleteCache : Option Node}
    (hcache : ∀ node ∈ optCompleteCache, node.WF) {childKey : String} {child : Node}
    (hchild : completeChild stringComparator writesCache viewCache optCompleteCache childKey =
      some child) : child.WF := by
  unfold completeChild at hchild
  dsimp only at hchild
  split_ifs at hchild
  · exact Option.some.inj hchild ▸ h.event.getImmediateChild childKey
  · refine hwrites.calculateCompleteChild hK ?_ hchild
    split
    next cache => exact hcache cache rfl
    next => exact h.server

/-- The child with the user's write made on it is well formed. -/
theorem WF_writtenChild (h : viewCache.WF) {childKey : String} {childChangePath : FPath}
    (hpath : ∀ k ∈ childKey :: childChangePath, K k) {changedSnap : Node}
    (hsnap : changedSnap.WF) {optCompleteCache : Option Node}
    (hcache : ∀ node ∈ optCompleteCache, node.WF) :
    (writtenChild stringComparator viewCache childKey childChangePath changedSnap writesCache
      optCompleteCache).WF := by
  unfold writtenChild
  split_ifs
  · exact hsnap
  · split
    next child hchild =>
      exact (WF_completeChild hK hwrites h hcache hchild).updateChild hsnap fun k hk =>
        hK k (hpath k (List.mem_cons_of_mem childKey hk))
    next => exact .empty

/-- The view is after an overwrite of the user. -/
theorem WF_applyUserOverwriteTo (h : viewCache.WF) (hpath : ∀ k ∈ path, K k)
    {changedSnap : Node} (hsnap : changedSnap.WF) {optCompleteCache : Option Node}
    (hcache : ∀ node ∈ optCompleteCache, node.WF) :
    (applyUserOverwriteTo stringComparator viewCache path changedSnap writesCache
      optCompleteCache).1.WF := by
  cases path with
  | nil => exact ⟨hsnap, h.server⟩
  | cons childKey childChangePath =>
      rw [applyUserOverwriteTo]
      split_ifs
      · exact h
      · exact ⟨WF_updateChildIn h.event (WF_writtenChild hK hwrites h hpath hsnap hcache)
          (hK childKey (hpath _ List.mem_cons_self)), h.server⟩

omit hK hwrites in
/-- It is after several operations that keep it so. -/
theorem WF_applyEach {α : Type} {l : List α} {step : FViewCache → α → FViewCache × List FChange}
    (hstep : ∀ a ∈ l, ∀ view : FViewCache, view.WF → (step view a).1.WF) (h : viewCache.WF) :
    (applyEach step viewCache l).1.WF := by
  induction l generalizing viewCache with
  | nil => exact h
  | cons a l ih =>
      exact ih (fun b hb => hstep b (List.mem_cons_of_mem a hb))
        (hstep a List.mem_cons_self viewCache h)

/-- It is after a merge of the user. -/
theorem WF_applyUserMergeTo (h : viewCache.WF) (hpath : ∀ k ∈ path, K k)
    {changedChildren : FCompoundWrite} (hchildren : changedChildren.WF stringComparator K)
    {serverCache : Option Node} (hcache : ∀ node ∈ serverCache, node.WF) :
    (applyUserMergeTo stringComparator viewCache path changedChildren writesCache
      serverCache).1.WF := by
  refine WF_applyEach (fun write hwrite view hview => ?_) h
  have hmem : write ∈ changedChildren.enumerateWrites.map fun w => (path ++ w.1, w.2) := by
    rcases List.mem_append.1 hwrite with hwrite | hwrite <;> exact (List.mem_filter.1 hwrite).1
  obtain ⟨w, hw, rfl⟩ := List.mem_map.1 hmem
  obtain ⟨hwpath, hwnode⟩ := hchildren.of_mem_enumerateWrites hK hw
  exact WF_applyUserOverwriteTo hK hwrites hview
    (fun k hk => (List.mem_append.1 hk).elim (hpath k) (hwpath k)) hwnode hcache

variable [Std.TransCmp stringComparator]

omit hwrites in
/-- A merge of the server is well formed, taken from the root. -/
theorem WF_actualMerge (hpath : ∀ k ∈ path, K k) {changedChildren : FCompoundWrite}
    (hchildren : changedChildren.WF stringComparator K) :
    (actualMerge stringComparator path changedChildren).WF stringComparator K := by
  rw [actualMerge]
  split_ifs
  · exact hchildren
  · rw [FCompoundWrite.addCompoundWrite_eq_foldl]
    refine FCompoundWrite.WF.foldl_addWrite hK .emptyWrite fun write hwrite => ?_
    obtain ⟨w, hw, rfl⟩ := List.mem_map.1 hwrite
    obtain ⟨hwpath, hwnode⟩ := hchildren.of_mem_enumerateWrites hK hw
    exact ⟨fun k hk => (List.mem_append.1 hk).elim (hpath k) (hwpath k), hwnode⟩

/-- The view is after a merge of the server. -/
theorem WF_applyServerMergeTo (h : viewCache.WF) (hpath : ∀ k ∈ path, K k)
    {changedChildren : FCompoundWrite} (hchildren : changedChildren.WF stringComparator K) :
    (applyServerMergeTo stringComparator viewCache path changedChildren writesCache).1.WF := by
  unfold applyServerMergeTo
  dsimp only
  split_ifs
  · exact h
  · refine WF_applyEach (fun child hchild view hview => ?_) h
    have hmem := (List.mem_append.1 hchild).elim (fun h => (List.mem_filter.1 h).1)
      fun h => (List.mem_filter.1 h).1
    obtain ⟨hkey, hmerge⟩ := (WF_actualMerge hK hpath hchildren).of_mem_childCompoundWrites hmem
    rw [FPath.initWith_of_isValidKey (hK.valid child.1 hkey)]
    exact WF_applyServerOverwriteTo hK hwrites hview
      (fun k hk => List.mem_singleton.1 hk ▸ hkey)
      (hmerge.applyToNode hK (h.server.getImmediateChild child.1))

omit [Std.TransCmp stringComparator] in
/-- It is after a listen has been answered. -/
theorem WF_listenCompleteOldCache (h : viewCache.WF) (hpath : ∀ k ∈ path, K k) :
    (listenCompleteOldCache stringComparator viewCache path writesCache).1.WF :=
  WF_generateEventCacheAfterServerEvent hK hwrites ⟨h.event, h.server⟩ hpath

omit [Std.TransCmp stringComparator] in
/-- What is shown over complete data of the server is well formed. -/
theorem WF_completeServerSnap (h : viewCache.WF) {node : Node}
    (hnode : writesCache.calculateCompleteEventCache stringComparator
      viewCache.completeServerSnap = some node) : node.WF := by
  refine hwrites.calculateCompleteEventCache hK (fun server hserver => ?_) hnode
  rw [FViewCache.completeServerSnap] at hserver
  split_ifs at hserver
  · exact Option.some.inj hserver ▸ h.server
  · cases hserver

omit [Std.TransCmp stringComparator] in
/-- The child without the user's write is well formed. -/
theorem WF_revertedChild (h : viewCache.WF) {childKey : String} (hkey : K childKey)
    (childPath : FPath) :
    (revertedChild stringComparator viewCache childKey childPath writesCache).1.WF := by
  unfold revertedChild
  dsimp only
  split
  next child hchild =>
    refine WF_updateChildIn h.event ?_ (hK childKey hkey)
    split at hchild
    next c hc => exact Option.some.inj hchild ▸ hwrites.calculateCompleteChild hK h.server hc
    next =>
      split_ifs at hchild
      exact Option.some.inj hchild ▸ h.event.getImmediateChild childKey
  next =>
    split_ifs
    · exact WF_updateChildIn h.event .empty (hK childKey hkey)
    · exact h.event

omit [Std.TransCmp stringComparator] in
/-- A leaf that comes back is well formed. -/
theorem WF_restoredLeaf (h : viewCache.WF) {newEventCache : Node × List FChange}
    (hnew : newEventCache.1.WF) :
    (restoredLeaf stringComparator viewCache writesCache newEventCache).1.WF := by
  unfold restoredLeaf
  split_ifs
  · split
    next complete hcomplete =>
      split_ifs
      · exact WF_completeServerSnap hK hwrites h hcomplete
      · exact hnew
    next => exact hnew
  · exact hnew

omit [Std.TransCmp stringComparator] in
/-- The view is after a write has been rejected. -/
theorem WF_revertUserWriteOn (h : viewCache.WF) (hpath : ∀ k ∈ path, K k) :
    (revertUserWriteOn stringComparator viewCache path writesCache).1.WF := by
  unfold revertUserWriteOn
  split
  next => exact h
  next =>
    refine ⟨?_, h.server⟩
    cases path with
    | nil =>
        dsimp only [FViewCache.updateEventSnap]
        split_ifs
        · split
          next node hnode => exact WF_completeServerSnap hK hwrites h hnode
          next => exact h.event
        · exact hwrites.calculateCompleteEventChildren hK h.server
    | cons childKey childPath =>
        exact WF_restoredLeaf hK hwrites h
          (WF_revertedChild hK hwrites h (hpath childKey List.mem_cons_self) childPath)

omit hK hwrites in
/-- The children of a node, as a merge. -/
theorem WF_foldl_childList {n : Node} (h : n.WF) :
    (n.childList.foldl (fun changedChildren child => changedChildren.addWrite stringComparator
      child.2 (FPath.initWith child.1)) FCompoundWrite.emptyWrite).WF stringComparator
        fun k => isPlainKey k = true := by
  refine FCompoundWrite.WF.foldl_addWrite (fun _ hk => hk) .emptyWrite fun child hchild => ?_
  have hkey : isPlainKey child.1 = true := h.key_of_mem hchild
  rw [FPath.initWith_of_isValidKey (isValidKey_of_isPlainKey hkey)]
  exact ⟨fun k hk => List.mem_singleton.1 hk ▸ hkey, h.of_mem_childList hchild⟩

omit hK hwrites in
/-- What is at the affected paths of a write, as a merge. -/
theorem WF_foldl_affected {server : Node} (h : server.WF) {affectedTree : FImmutableTree Unit}
    (haffected : affectedTree.WF stringComparator (fun k => isPlainKey k = true) fun _ => True)
    {p : FPath × Unit → Bool} :
    ((affectedTree.forEach.filter p).foldl (fun changedChildren affected =>
      changedChildren.addWrite stringComparator (server.getChild (path ++ affected.1)) affected.1)
        FCompoundWrite.emptyWrite).WF stringComparator fun k => isPlainKey k = true := by
  have hplain : PlainKeys fun k => isPlainKey k = true := fun _ hk => hk
  refine FCompoundWrite.WF.foldl_addWrite hplain .emptyWrite fun affected haff => ?_
  obtain ⟨-, r, hr, hkeys⟩ := FImmutableTree.WF.of_mem_forEachPathSoFar hplain.valid haffected
    (List.mem_filter.1 haff).1
  rw [List.nil_append] at hr
  exact ⟨hr ▸ hkeys, h.getChild _⟩

omit hK hwrites in
/-- The names of the server's children may be taken for the keys of a merge, so all plain keys
are let in. -/
theorem WF_ackUserWriteOn
    (hwrites : writesCache.WF stringComparator fun k => isPlainKey k = true) (h : viewCache.WF)
    (hpath : ∀ k ∈ path, isPlainKey k = true) {affectedTree : FImmutableTree Unit}
    (haffected : affectedTree.WF stringComparator (fun k => isPlainKey k = true) fun _ => True) :
    (ackUserWriteOn stringComparator viewCache path affectedTree writesCache).1.WF := by
  have hplain : PlainKeys fun k => isPlainKey k = true := fun _ hk => hk
  unfold ackUserWriteOn
  split
  next => exact h
  next =>
    dsimp only
    split
    next =>
      split_ifs
      · exact WF_applyServerOverwriteTo hplain hwrites h hpath (h.server.getChild path)
      · exact WF_applyServerMergeTo hplain hwrites h hpath (WF_foldl_childList h.server)
      · exact h
    next =>
      exact WF_applyServerMergeTo hplain hwrites h hpath (WF_foldl_affected h.server haffected)

omit hK hwrites in
/-- **Every operation leaves both of the nodes well formed.** -/
theorem WF_newViewCache
    (hwrites : writesCache.WF stringComparator fun k => isPlainKey k = true) (h : viewCache.WF)
    {operation : FOperation}
    (hoperation : operation.WF stringComparator fun k => isPlainKey k = true)
    {optCompleteCache : Option Node} (hcache : ∀ node ∈ optCompleteCache, node.WF) :
    (newViewCache stringComparator viewCache operation writesCache optCompleteCache).1.WF := by
  have hplain : PlainKeys fun k => isPlainKey k = true := fun _ hk => hk
  cases operation with
  | overwrite source path snap =>
      cases source with
      | user =>
          exact WF_applyUserOverwriteTo hplain hwrites h hoperation.1 hoperation.2 hcache
      | server => exact WF_applyServerOverwriteTo hplain hwrites h hoperation.1 hoperation.2
  | merge source path children =>
      cases source with
      | user => exact WF_applyUserMergeTo hplain hwrites h hoperation.1 hoperation.2 hcache
      | server => exact WF_applyServerMergeTo hplain hwrites h hoperation.1 hoperation.2
  | ackUserWrite path affectedTree revert =>
      cases revert with
      | false => exact WF_ackUserWriteOn hwrites h hoperation.1 hoperation.2
      | true => exact WF_revertUserWriteOn hplain hwrites h hoperation.1
  | listenComplete path => exact WF_listenCompleteOldCache hplain hwrites h hoperation

end FViewProcessor
end Teamstuff
