/-
# The sync tree

`FSyncTree.m`, `FSyncPoint.m`, `FView.m` and the `operationForChild:` of the operations.  There is
a sync point at every path that is listened to.  An operation is handed down the tree from its
root, on the way to its path and from there to everything below, and at each sync point is made
relative to it; what comes of it at a view is in `Teamstuff.Firebase.ViewProcessor`.

Of the queries only the default ones are modelled, of which there is one at a path, so a sync
point is what its one view keeps.  A view is there from its first registration to its last.
There is no persistence, and which listens are sent to the server is left out.

`exists_applyOperationHelper` is the induction down the tree: what an operation does at each view
it reaches, and what may be said of the views that it does not reach, holds of the tree.
-/

import Teamstuff.Firebase.Reported

namespace Teamstuff

/-- `operationForChild:`, for a child on the path of the operation or below it; `none` stands
for nil. -/
def FOperation.operationForChild (stringComparator : NSComparator) (self : FOperation)
    (childKey : String) : Option FOperation :=
  match self with
  | .overwrite source [] snap => some (.overwrite source [] (snap.getImmediateChild childKey))
  | .overwrite source (_ :: path) snap => some (.overwrite source path snap)
  | .merge source [] children =>
      let childTree := children.childCompoundWriteAtPath stringComparator (FPath.initWith childKey)
      if childTree.isEmpty then none
      else
        match childTree.rootWrite with
        | some snap => some (.overwrite source [] snap)
        | none => some (.merge source [] childTree)
  | .merge source (_ :: path) children => some (.merge source path children)
  | .ackUserWrite [] affectedTree revert =>
      match affectedTree.value with
      | some _ => some (.ackUserWrite [] affectedTree revert)
      | none =>
          some (.ackUserWrite []
            (affectedTree.subtreeAtPath stringComparator (FPath.initWith childKey)) revert)
  | .ackUserWrite (_ :: path) affectedTree revert => some (.ackUserWrite path affectedTree revert)
  | .listenComplete [] => some (.listenComplete [])
  | .listenComplete (_ :: path) => some (.listenComplete path)

/-- `FSyncPoint`, by what its view keeps. -/
abbrev FSyncPoint := FViewCache

namespace FSyncPoint

/-- `completeServerCacheAtPath:`. -/
def completeServerCacheAtPath (self : FSyncPoint) (path : FPath) : Option Node :=
  self.completeServerSnap.map fun cache => cache.getChild path

variable (stringComparator : NSComparator)

/-- `applyOperation:writesCache:serverCache:`, with the path of the view at each of its changes;
`none` stands for the exceptions of the accumulator and the failed assertion that a complete
server snap stays complete. -/
def applyOperation (self : FSyncPoint) (operation : FOperation) (writesCache : FWriteTreeRef)
    (optCompleteServerCache : Option Node) : Option (FSyncPoint × List (FPath × FChange)) :=
  (FViewProcessor.applyOperationOn stringComparator self operation writesCache
    optCompleteServerCache).bind fun result =>
      if result.viewCache.cachedServerSnap.isFullyInitialized ||
          !self.cachedServerSnap.isFullyInitialized then
        some (result.viewCache, result.changes.map fun change => (writesCache.path, change))
      else none

/-- The view in `addEventRegistration:forNonExistingViewForQuery:writesCache:serverCache:`. -/
def viewForQuery (writesCache : FWriteTreeRef) (serverCache : FCacheNode) : FSyncPoint :=
  let eventCache := writesCache.calculateCompleteEventCache stringComparator
    (if serverCache.isFullyInitialized then some serverCache.node else none)
  match eventCache with
  | some eventCache => ⟨⟨eventCache, true⟩, serverCache⟩
  | none =>
      ⟨⟨writesCache.calculateCompleteEventChildren stringComparator serverCache.node, false⟩,
        serverCache⟩

/-- `initialEvents:`. -/
def initialEvents (self : FSyncPoint) : List FChange :=
  self.cachedEventSnap.node.childList.map (fun child => .childAdded child.1 child.2) ++
    if self.cachedEventSnap.isFullyInitialized then [.value self.cachedEventSnap.node] else []

end FSyncPoint

/-- `FSyncTree`. -/
structure FSyncTree where
  syncPointTree : FImmutableTree FSyncPoint
  pendingWriteTree : FWriteTree

namespace FSyncTree

/-- The tree with its new sync points, and the changes of the views it visits. -/
abbrev Visited := FImmutableTree FSyncPoint × List (FPath × FChange)

/-- The server cache that is handed on: the one from above, or that of the sync point. -/
def resolvedServerCache (serverCache : Option Node) (syncPoint : Option FSyncPoint) :
    Option Node :=
  match serverCache with
  | some cache => some cache
  | none => syncPoint.bind fun sp => sp.completeServerCacheAtPath []

/-- The part of it that is handed to a child. -/
def childServerCache (serverCache : Option Node) (childKey : String) : Option Node :=
  serverCache.map fun cache => cache.getImmediateChild childKey

variable (stringComparator : NSComparator)

/-- The operation at the sync point, if there is one. -/
def visit (syncPoint : Option FSyncPoint) (operation : FOperation) (writesCache : FWriteTreeRef)
    (serverCache : Option Node) : Option (Option FSyncPoint × List (FPath × FChange)) :=
  match syncPoint with
  | some sp =>
      (sp.applyOperation stringComparator operation writesCache serverCache).map fun result =>
        (some result.1, result.2)
  | none => some (none, [])

mutual

/-- `applyOperationDescendantsHelper:syncPointTree:serverCache:writesCache:`. -/
def applyOperationDescendantsHelper (operation : FOperation) :
    FImmutableTree FSyncPoint → Option Node → FWriteTreeRef → Option Visited
  | .tree syncPoint children, serverCache, writesCache =>
      let resolved := resolvedServerCache serverCache syncPoint
      (applyOperationToChildren operation children resolved writesCache).bind fun below =>
        (visit stringComparator syncPoint operation writesCache resolved).map fun here =>
          (.tree here.1 below.1, below.2 ++ here.2)

/-- The loop over the children in it. -/
def applyOperationToChildren (operation : FOperation) :
    List (String × FImmutableTree FSyncPoint) → Option Node → FWriteTreeRef →
      Option (List (String × FImmutableTree FSyncPoint) × List (FPath × FChange))
  | [], _, _ => some ([], [])
  | (childKey, childTree) :: children, serverCache, writesCache =>
      let child : Option Visited :=
        match operation.operationForChild stringComparator childKey with
        | some childOperation =>
            applyOperationDescendantsHelper childOperation childTree
              (childServerCache serverCache childKey) (writesCache.childWriteTreeRef childKey)
        | none => some (childTree, [])
      child.bind fun child =>
        (applyOperationToChildren operation children serverCache writesCache).map fun rest =>
          ((childKey, child.1) :: rest.1, child.2 ++ rest.2)

end

/-- `applyOperationHelper:syncPointTree:serverCache:writesCache:`, with the path of the
operation. -/
def applyOperationHelper : FPath → FOperation → FImmutableTree FSyncPoint → Option Node →
    FWriteTreeRef → Option Visited
  | [], operation, syncPointTree, serverCache, writesCache =>
      applyOperationDescendantsHelper stringComparator operation syncPointTree serverCache
        writesCache
  | childKey :: path, operation, .tree syncPoint children, serverCache, writesCache =>
      let resolved := resolvedServerCache serverCache syncPoint
      let below : Option (List (String × FImmutableTree FSyncPoint) × List (FPath × FChange)) :=
        match SortedAssoc.get stringComparator childKey children,
          operation.operationForChild stringComparator childKey with
        | some childTree, some childOperation =>
            (applyOperationHelper path childOperation childTree (childServerCache resolved childKey)
              (writesCache.childWriteTreeRef childKey)).map fun child =>
                (SortedAssoc.insert stringComparator childKey child.1 children, child.2)
        | _, _ => some (children, [])
      below.bind fun below =>
        (visit stringComparator syncPoint operation writesCache resolved).map fun here =>
          (.tree here.1 below.1, below.2 ++ here.2)

/-- `applyOperationToSyncPoints:`. -/
def applyOperationToSyncPoints (self : FSyncTree) (operation : FOperation) :
    Option (FSyncTree × List (FPath × FChange)) :=
  (applyOperationHelper stringComparator operation.path operation self.syncPointTree none
    ⟨[], self.pendingWriteTree⟩).map fun visited =>
      ({ self with syncPointTree := visited.1 }, visited.2)

/-- `applyUserOverwriteAtPath:newData:writeId:isVisible:`. -/
def applyUserOverwriteAtPath (self : FSyncTree) (path : FPath) (newData : Node) (writeId : ℤ)
    (visible : Bool) : Option (FSyncTree × List (FPath × FChange)) :=
  (self.pendingWriteTree.addOverwriteAtPath stringComparator path newData writeId visible).bind
    fun pendingWriteTree =>
      let self := { self with pendingWriteTree }
      if !visible then some (self, [])
      else self.applyOperationToSyncPoints stringComparator (.overwrite .user path newData)

/-- `applyUserMergeAtPath:changedChildren:writeId:`. -/
def applyUserMergeAtPath (self : FSyncTree) (path : FPath) (changedChildren : FCompoundWrite)
    (writeId : ℤ) : Option (FSyncTree × List (FPath × FChange)) :=
  (self.pendingWriteTree.addMergeAtPath stringComparator path changedChildren writeId).bind
    fun pendingWriteTree =>
      ({ self with pendingWriteTree }).applyOperationToSyncPoints stringComparator
        (.merge .user path changedChildren)

/-- The tree of the affected paths in `ackUserWriteWithWriteId:revert:persist:clock:`. -/
def affectedTree (write : FWriteRecord) : FImmutableTree Unit :=
  match write.data with
  | .overwrite _ => FImmutableTree.empty.setValue stringComparator () []
  | .merge merge =>
      merge.enumerateWrites.foldl (fun affectedTree entry =>
        affectedTree.setValue stringComparator () entry.1) .empty

/-- `ackUserWriteWithWriteId:revert:persist:clock:`. -/
def ackUserWriteWithWriteId (self : FSyncTree) (writeId : ℤ) (revert : Bool) :
    Option (FSyncTree × List (FPath × FChange)) :=
  (self.pendingWriteTree.writeForId writeId).bind fun write =>
    (self.pendingWriteTree.removeWriteId stringComparator writeId).bind fun removed =>
      let self := { self with pendingWriteTree := removed.1 }
      if !removed.2 then some (self, [])
      else
        self.applyOperationToSyncPoints stringComparator
          (.ackUserWrite write.path (affectedTree stringComparator write) revert)

/-- `applyServerOverwriteAtPath:newData:`. -/
def applyServerOverwriteAtPath (self : FSyncTree) (path : FPath) (newData : Node) :
    Option (FSyncTree × List (FPath × FChange)) :=
  self.applyOperationToSyncPoints stringComparator (.overwrite .server path newData)

/-- `applyServerMergeAtPath:changedChildren:`. -/
def applyServerMergeAtPath (self : FSyncTree) (path : FPath) (changedChildren : FCompoundWrite) :
    Option (FSyncTree × List (FPath × FChange)) :=
  self.applyOperationToSyncPoints stringComparator (.merge .server path changedChildren)

/-- `applyListenCompleteAtPath:`. -/
def applyListenCompleteAtPath (self : FSyncTree) (path : FPath) :
    Option (FSyncTree × List (FPath × FChange)) :=
  self.applyOperationToSyncPoints stringComparator (.listenComplete path)

/-- `removeAllWrites`. -/
def removeAllWrites (self : FSyncTree) : Option (FSyncTree × List (FPath × FChange)) :=
  let removed := self.pendingWriteTree.removeAllWrites
  let self := { self with pendingWriteTree := removed.1 }
  if removed.2.isEmpty then some (self, [])
  else
    self.applyOperationToSyncPoints stringComparator
      (.ackUserWrite [] (FImmutableTree.empty.setValue stringComparator () []) true)

/-- The sync points on the path in `serverCacheForQuery:`, up to the first complete cache. -/
def completeServerCacheOnPath : FImmutableTree FSyncPoint → FPath → Option Node
  | self, [] => self.value.bind fun syncPoint => syncPoint.completeServerCacheAtPath []
  | self, front :: rest =>
      match self.value.bind fun syncPoint => syncPoint.completeServerCacheAtPath (front :: rest) with
      | some serverCacheNode => some serverCacheNode
      | none =>
          match SortedAssoc.get stringComparator front self.children with
          | some nextChild => completeServerCacheOnPath nextChild rest
          | none => none

/-- What a child of the query adds to the server cache in `serverCacheForQuery:`. -/
def addCompleteCache (serverCacheNode : Node) (child : String × FSyncPoint) : Node :=
  match child.2.completeServerCacheAtPath [] with
  | some completeCache => serverCacheNode.updateImmediateChild child.1 completeCache
  | none => serverCacheNode

/-- `serverCacheForQuery:`. -/
def serverCacheForQuery (self : FSyncTree) (path : FPath) : FCacheNode :=
  match completeServerCacheOnPath stringComparator self.syncPointTree path with
  | some serverCacheNode => ⟨serverCacheNode, true⟩
  | none =>
      let subtree := self.syncPointTree.subtreeAtPath stringComparator path
      ⟨subtree.forEachChild.foldl addCompleteCache .empty, false⟩

/-- `addEventRegistration:forQuery:`. -/
def addEventRegistration (self : FSyncTree) (path : FPath) : FSyncTree × List (FPath × FChange) :=
  match self.syncPointTree.valueAtPath stringComparator path with
  | some syncPoint => (self, syncPoint.initialEvents.map fun change => (path, change))
  | none =>
      let syncPoint := FSyncPoint.viewForQuery stringComparator ⟨path, self.pendingWriteTree⟩
        (self.serverCacheForQuery stringComparator path)
      ({ self with
          syncPointTree := self.syncPointTree.setValue stringComparator syncPoint path },
        syncPoint.initialEvents.map fun change => (path, change))

/-- `removeEventRegistration:forQuery:cancelError:`, for the last registration. -/
def removeEventRegistration (self : FSyncTree) (path : FPath) : FSyncTree :=
  { self with syncPointTree := self.syncPointTree.removeValueAtPath stringComparator path }

/-! ### Down the tree -/

/-- An operation does not reach a child. -/
def Spares (operation : FOperation) (childKey : String) : Prop :=
  operation.operationForChild stringComparator childKey = none ∨
    ∃ j path, operation.path = j :: path ∧ childKey ≠ j

variable {stringComparator}

/-- The operation for a child is one name further down. -/
theorem path_operationForChild {operation childOperation : FOperation} {childKey : String}
    (h : operation.operationForChild stringComparator childKey = some childOperation) :
    childOperation.path = operation.path.tail := by
  cases operation with
  | overwrite source path snap => cases path <;> exact Option.some.inj h ▸ rfl
  | merge source path children =>
      cases path with
      | nil =>
          rw [FOperation.operationForChild] at h
          split_ifs at h
          split at h <;> exact Option.some.inj h ▸ rfl
      | cons j path => exact Option.some.inj h ▸ rfl
  | ackUserWrite path affectedTree revert =>
      cases path with
      | nil =>
          rw [FOperation.operationForChild] at h
          split at h <;> exact Option.some.inj h ▸ rfl
      | cons j path => exact Option.some.inj h ▸ rfl
  | listenComplete path => cases path <;> exact Option.some.inj h ▸ rfl

/-- The changes of the view at a path. -/
def changesAt (path : FPath) (changes : List (FPath × FChange)) : List FChange :=
  (changes.filter fun change => change.1 == path).map Prod.snd

/-- What is heard at a path, one after the other. -/
theorem changesAt_append (path : FPath) (l r : List (FPath × FChange)) :
    changesAt path (l ++ r) = changesAt path l ++ changesAt path r := by
  rw [changesAt, List.filter_append, List.map_append]
  rfl

/-- All of it is heard at the path of the view. -/
theorem changesAt_map (path : FPath) (changes : List FChange) :
    changesAt path (changes.map fun change => (path, change)) = changes := by
  have hall : ∀ change ∈ changes.map fun change => (path, change), (change.1 == path) = true := by
    intro change hchange
    obtain ⟨c, -, rfl⟩ := List.mem_map.1 hchange
    exact beq_self_eq_true path
  rw [changesAt, List.filter_eq_self.2 hall, List.map_map]
  exact List.map_id _

/-- Nothing is heard of other views. -/
theorem changesAt_eq_nil {path : FPath} {changes : List (FPath × FChange)}
    (h : ∀ change ∈ changes, change.1 ≠ path) : changesAt path changes = [] := by
  rw [changesAt, List.map_eq_nil_iff, List.filter_eq_nil_iff]
  exact fun change hchange heq => h change hchange (beq_iff_eq.1 heq)

/-- Two branches have no paths in common. -/
theorem ne_of_prefix {path p q : FPath} {j k : String} (hp : path ++ [j] <+: p)
    (hq : path ++ [k] <+: q) (hne : j ≠ k) : p ≠ q := by
  rintro rfl
  obtain ⟨r, rfl⟩ := hp
  rw [List.append_assoc, List.prefix_append_right_inj, List.singleton_append,
    List.cons_prefix_cons] at hq
  exact hne hq.1.symm

variable (stringComparator) (K : String → Prop) (writeTree : FWriteTree)
  (Q : FPath → FSyncPoint → Prop) (Q' : FPath → FSyncPoint → List FChange → Prop)
  (R : FPath → FOperation → Prop)

/-- What has to be known of the operations `R` at the paths they come to: a view that is reached
goes from `Q` to `Q'` with its changes and without an exception, and one that is spared goes
there with none. -/
structure Handled : Prop where
  keys : NodeKeys stringComparator K
  wf : ∀ {path syncPoint}, Q path syncPoint → syncPoint.WF
  reached : ∀ {path operation syncPoint} {serverCache : Option Node}, (∀ k ∈ path, K k) →
    R path operation → Q path syncPoint → (∀ node ∈ serverCache, node.WF) →
      ∃ (syncPoint' : FSyncPoint) (changes : List FChange),
        FSyncPoint.applyOperation stringComparator syncPoint operation ⟨path, writeTree⟩
          serverCache = some (syncPoint', changes.map fun change => (path, change)) ∧
        Q' path syncPoint' changes
  child : ∀ {path operation childOperation childKey}, K childKey → R path operation →
    (∀ j rest, operation.path = j :: rest → childKey = j) →
      operation.operationForChild stringComparator childKey = some childOperation →
        R (path ++ [childKey]) childOperation
  spared : ∀ {path operation childKey}, K childKey → R path operation →
    Spares stringComparator operation childKey → ∀ rest syncPoint,
      Q (path ++ [childKey] ++ rest) syncPoint → Q' (path ++ [childKey] ++ rest) syncPoint []

/-- A tree after the operation, which stands at a path. -/
structure Handed (path : FPath) (visited : Visited) : Prop where
  wf : visited.1.WF stringComparator K fun _ => True
  views : visited.1.Everywhere (fun p view => Q' p view (changesAt p visited.2)) path
  within : ∀ change ∈ visited.2, path <+: change.1

/-- The children of one. -/
structure HandedBelow (path : FPath)
    (below : List (String × FImmutableTree FSyncPoint) × List (FPath × FChange)) : Prop where
  wf : ∀ c ∈ below.1, c.2.WF stringComparator K fun _ => True
  views : ∀ c ∈ below.1,
    c.2.Everywhere (fun p view => Q' p view (changesAt p below.2)) (path ++ [c.1])
  within : ∀ change ∈ below.2, ∃ k ∈ below.1.map Prod.fst, path ++ [k] <+: change.1

variable {stringComparator K writeTree Q Q' R} (h : Handled stringComparator K writeTree Q Q' R)

/-- The server's data for a child. -/
theorem WF_childServerCache {serverCache : Option Node} (hcache : ∀ node ∈ serverCache, node.WF)
    (childKey : String) : ∀ node ∈ childServerCache serverCache childKey, node.WF := by
  intro node hnode
  obtain ⟨cache, hcache', rfl⟩ := Option.map_eq_some_iff.1 hnode
  exact (hcache cache hcache').getImmediateChild childKey

/-- The server's data, from above or from the view itself. -/
theorem WF_resolvedServerCache {serverCache : Option Node}
    (hcache : ∀ node ∈ serverCache, node.WF) {syncPoint : Option FSyncPoint}
    (hsync : ∀ sp ∈ syncPoint, FViewCache.WF sp) :
    ∀ node ∈ resolvedServerCache serverCache syncPoint, node.WF := by
  intro node hnode
  cases serverCache with
  | some cache => exact hcache node hnode
  | none =>
      obtain ⟨sp, hsp, hnode⟩ := Option.bind_eq_some_iff.1 hnode
      obtain ⟨cache, hcache', rfl⟩ := Option.map_eq_some_iff.1 hnode
      rw [FViewCache.completeServerSnap] at hcache'
      split_ifs at hcache'
      exact Option.some.inj hcache' ▸ (hsync sp hsp).server.getChild []

/-- The writes as a child sees them. -/
theorem childWriteTreeRef_mk (hK : PlainKeys K) {childKey : String} (hkey : K childKey)
    (path : FPath) : (⟨path, writeTree⟩ : FWriteTreeRef).childWriteTreeRef childKey =
      ⟨path ++ [childKey], writeTree⟩ := by
  rw [FWriteTreeRef.childWriteTreeRef, path.childFromString_of_isValidKey (hK.valid childKey hkey)]

/-- A child, and the changes of the whole. -/
theorem everywhere_changesAt {t : FImmutableTree FSyncPoint} {path : FPath}
    {changes all : List (FPath × FChange)}
    (ht : t.Everywhere (fun p view => Q' p view (changesAt p changes)) path)
    (hall : ∀ q, path <+: q → changesAt q all = changesAt q changes) :
    t.Everywhere (fun p view => Q' p view (changesAt p all)) path :=
  ht.mono fun q _ hQ' => by rwa [hall _ (List.prefix_append path q)]

include h

/-- A view that is visited keeps what each operation on a view keeps. -/
theorem exists_visit {path : FPath} (hpath : ∀ k ∈ path, K k) {operation : FOperation}
    (hoperation : R path operation) {syncPoint : Option FSyncPoint}
    (hsync : ∀ sp ∈ syncPoint, Q path sp) {serverCache : Option Node}
    (hcache : ∀ node ∈ serverCache, node.WF) :
    ∃ (syncPoint' : Option FSyncPoint) (changes : List FChange),
      visit stringComparator syncPoint operation ⟨path, writeTree⟩ serverCache =
        some (syncPoint', changes.map fun change => (path, change)) ∧
      ∀ sp ∈ syncPoint', Q' path sp changes := by
  cases syncPoint with
  | none => exact ⟨none, [], rfl, fun _ hsp => by cases hsp⟩
  | some sp =>
      obtain ⟨sp', changes, happly, hQ'⟩ := h.reached hpath hoperation (hsync sp rfl) hcache
      refine ⟨some sp', changes, by rw [visit, happly]; rfl, fun sp'' hsp' => ?_⟩
      exact Option.some.inj hsp' ▸ hQ'

omit h in
/-- **A sync point and its children put together.** -/
theorem handed_of_below {path : FPath} {syncPoint : Option FSyncPoint} {changes : List FChange}
    (hhere : ∀ sp ∈ syncPoint, Q' path sp changes)
    {below : List (String × FImmutableTree FSyncPoint) × List (FPath × FChange)}
    (hsorted : SortedAssoc.Sorted stringComparator below.1) (hkeys : ∀ c ∈ below.1, K c.1)
    (hbelow : HandedBelow stringComparator K Q' path below) :
    Handed stringComparator K Q' path
      (.tree syncPoint below.1, below.2 ++ changes.map fun change => (path, change)) := by
  have hnot : ∀ change ∈ below.2, change.1 ≠ path := fun change hchange heq => by
    obtain ⟨k, -, hprefix⟩ := hbelow.within change hchange
    have hlength := hprefix.length_le
    rw [heq, List.length_append, List.length_singleton] at hlength
    omega
  have hchanges : changesAt path (below.2 ++ changes.map fun change => (path, change)) =
      changes := by
    rw [changesAt_append, changesAt_eq_nil hnot, changesAt_map, List.nil_append]
  have hoff : ∀ k q, path ++ [k] <+: q →
      changesAt q (below.2 ++ changes.map fun change => (path, change)) =
        changesAt q below.2 := fun k q hq => by
    have hne : ∀ change ∈ changes.map fun change => (path, change), change.1 ≠ q := by
      rintro change hchange rfl
      obtain ⟨c, -, rfl⟩ := List.mem_map.1 hchange
      change path ++ [k] <+: path at hq
      have hlength := hq.length_le
      rw [List.length_append, List.length_singleton] at hlength
      omega
    rw [changesAt_append, changesAt_eq_nil hne, List.append_nil]
  refine ⟨.tree (fun _ _ => trivial) hsorted hkeys hbelow.wf, .tree (fun sp hsp => ?_)
    fun c hc => everywhere_changesAt (hbelow.views c hc) (hoff c.1), fun change hchange => ?_⟩
  · rw [hchanges]
    exact hhere sp hsp
  · rcases List.mem_append.1 hchange with hchange | hchange
    · obtain ⟨k, -, hprefix⟩ := hbelow.within change hchange
      exact (List.prefix_append path [k]).trans hprefix
    · obtain ⟨c, -, rfl⟩ := List.mem_map.1 hchange
      exact List.prefix_rfl

omit h in
/-- One child more. -/
theorem HandedBelow.cons {path : FPath} {childKey : String} {child : Visited}
    (hchild : Handed stringComparator K Q' (path ++ [childKey]) child)
    {rest : List (String × FImmutableTree FSyncPoint) × List (FPath × FChange)}
    (hrest : HandedBelow stringComparator K Q' path rest)
    (hne : ∀ c ∈ rest.1, c.1 ≠ childKey) :
    HandedBelow stringComparator K Q' path
      ((childKey, child.1) :: rest.1, child.2 ++ rest.2) := by
  have hfirst : ∀ q, path ++ [childKey] <+: q →
      changesAt q (child.2 ++ rest.2) = changesAt q child.2 := fun q hq => by
    have hnone : changesAt q rest.2 = [] := changesAt_eq_nil fun change hchange => by
      obtain ⟨k, hk, hprefix⟩ := hrest.within change hchange
      obtain ⟨c, hc, rfl⟩ := List.mem_map.1 hk
      exact ne_of_prefix hprefix hq (hne c hc)
    rw [changesAt_append, hnone, List.append_nil]
  have hothers : ∀ c ∈ rest.1, ∀ q, path ++ [c.1] <+: q →
      changesAt q (child.2 ++ rest.2) = changesAt q rest.2 := fun c hc q hq => by
    have hnone : changesAt q child.2 = [] := changesAt_eq_nil fun change hchange =>
      ne_of_prefix (hchild.within change hchange) hq (hne c hc).symm
    rw [changesAt_append, hnone, List.nil_append]
  refine ⟨fun c hc => ?_, fun c hc => ?_, fun change hchange => ?_⟩
  · rcases List.mem_cons.1 hc with rfl | hc
    · exact hchild.wf
    · exact hrest.wf c hc
  · rcases List.mem_cons.1 hc with rfl | hc
    · exact everywhere_changesAt hchild.views hfirst
    · exact everywhere_changesAt (hrest.views c hc) (hothers c hc)
  · rcases List.mem_append.1 hchange with hchange | hchange
    · exact ⟨childKey, List.mem_cons_self, hchild.within change hchange⟩
    · obtain ⟨k, hk, hprefix⟩ := hrest.within change hchange
      exact ⟨k, List.mem_cons_of_mem _ hk, hprefix⟩

omit h in
/-- A tree that is left alone. -/
theorem handed_of_spared {path : FPath} {t : FImmutableTree FSyncPoint}
    (ht : t.WF stringComparator K fun _ => True)
    (hviews : t.Everywhere (fun p view => Q' p view []) path) :
    Handed stringComparator K Q' path (t, []) :=
  ⟨ht, hviews, fun _ hchange => absurd hchange List.not_mem_nil⟩

mutual

/-- The views of a subtree, all of them. -/
theorem exists_applyOperationDescendantsHelper [Std.TransCmp stringComparator] :
    ∀ {t : FImmutableTree FSyncPoint} {path : FPath}, t.WF stringComparator K (fun _ => True) →
      t.Everywhere Q path → (∀ k ∈ path, K k) → ∀ {operation : FOperation},
        R path operation → operation.path = [] → ∀ {serverCache : Option Node},
          (∀ node ∈ serverCache, node.WF) →
            ∃ visited, applyOperationDescendantsHelper stringComparator operation t serverCache
                ⟨path, writeTree⟩ = some visited ∧ Handed stringComparator K Q' path visited
  | .tree syncPoint children, path, ht, hQ, hpath, operation, hR, hnil, serverCache, hcache => by
      have hsync : ∀ sp ∈ syncPoint, Q path sp := fun sp hsp => hQ.of_value hsp
      have hresolved := WF_resolvedServerCache hcache fun sp hsp => h.wf (hsync sp hsp)
      have hkey : ∀ c ∈ children, K c.1 := fun c hc => ht.key_of_mem hc
      obtain ⟨below, hbelow, hkeys, hsub⟩ := exists_applyOperationToChildren hkey
        ht.sorted_children (fun c hc => ht.of_mem hc) (fun c hc => hQ.of_mem hc) hpath hR hnil
        hresolved
      obtain ⟨here, changes, hhere, hQ'⟩ := exists_visit h hpath hR hsync hresolved
      refine ⟨(.tree here below.1, below.2 ++ changes.map fun change => (path, change)), ?_,
        handed_of_below hQ' (ht.sorted_children.of_keys hkeys) (fun c hc => ?_) hsub⟩
      · rw [applyOperationDescendantsHelper, hbelow, Option.bind_some, hhere]
        rfl
      · have hmem : c.1 ∈ children.map Prod.fst := hkeys ▸ List.mem_map.2 ⟨c, hc, rfl⟩
        obtain ⟨d, hd, hdc⟩ := List.mem_map.1 hmem
        exact hdc ▸ hkey d hd

/-- The same for a list of subtrees. -/
theorem exists_applyOperationToChildren [Std.TransCmp stringComparator] :
    ∀ {children : List (String × FImmutableTree FSyncPoint)} {path : FPath},
      (∀ c ∈ children, K c.1) → SortedAssoc.Sorted stringComparator children →
        (∀ c ∈ children, c.2.WF stringComparator K fun _ => True) →
          (∀ c ∈ children, c.2.Everywhere Q (path ++ [c.1])) → (∀ k ∈ path, K k) →
            ∀ {operation : FOperation}, R path operation → operation.path = [] →
              ∀ {serverCache : Option Node}, (∀ node ∈ serverCache, node.WF) →
                ∃ below, applyOperationToChildren stringComparator operation children serverCache
                    ⟨path, writeTree⟩ = some below ∧
                  below.1.map Prod.fst = children.map Prod.fst ∧
                  HandedBelow stringComparator K Q' path below
  | [], path, _, _, _, _, _, operation, _, _, serverCache, _ =>
      ⟨([], []), by rw [applyOperationToChildren], rfl, fun _ hc => absurd hc List.not_mem_nil,
        fun _ hc => absurd hc List.not_mem_nil, fun _ hc => absurd hc List.not_mem_nil⟩
  | (childKey, childTree) :: children, path, hkey, hsorted, hWF, hQ, hpath, operation, hR, hnil,
      serverCache, hcache => by
      have hk : K childKey := hkey _ List.mem_cons_self
      have hnot := (List.nodup_cons.1 (SortedAssoc.Sorted.nodup_keys hsorted)).1
      obtain ⟨rest, hrest, hkeys, hsub⟩ := exists_applyOperationToChildren
        (fun c hc => hkey c (List.mem_cons_of_mem _ hc)) (List.pairwise_cons.1 hsorted).2
        (fun c hc => hWF c (List.mem_cons_of_mem _ hc))
        (fun c hc => hQ c (List.mem_cons_of_mem _ hc)) hpath hR hnil hcache
      have hne : ∀ c ∈ rest.1, c.1 ≠ childKey := fun c hc hck =>
        hnot (hkeys ▸ List.mem_map.2 ⟨c, hc, hck⟩)
      have hpath' : ∀ k ∈ path ++ [childKey], K k := fun k hk' =>
        (List.mem_append.1 hk').elim (hpath k) fun hk' => List.mem_singleton.1 hk' ▸ hk
      have htree := hWF _ List.mem_cons_self
      have hview := hQ _ List.mem_cons_self
      rw [applyOperationToChildren, childWriteTreeRef_mk h.keys.plain hk]
      cases hop : operation.operationForChild stringComparator childKey with
      | none =>
          refine ⟨((childKey, childTree) :: rest.1, [] ++ rest.2), ?_, ?_,
            HandedBelow.cons (handed_of_spared htree (hview.mono (h.spared hk hR (Or.inl hop))))
              hsub hne⟩
          · dsimp only
            rw [Option.bind_some, hrest]
            rfl
          · rw [List.map_cons, List.map_cons, hkeys]
      | some childOperation =>
          have hchild := h.child hk hR (fun j rest hj => by rw [hnil] at hj; cases hj) hop
          obtain ⟨child, hchild', hhanded⟩ := exists_applyOperationDescendantsHelper htree hview
            hpath' hchild (by rw [path_operationForChild hop, hnil, List.tail_nil])
            (WF_childServerCache hcache childKey)
          refine ⟨((childKey, child.1) :: rest.1, child.2 ++ rest.2), ?_, ?_,
            HandedBelow.cons hhanded hsub hne⟩
          · dsimp only
            rw [hchild', Option.bind_some, hrest]
            rfl
          · rw [List.map_cons, List.map_cons, hkeys]

end

/-- **An operation goes down the tree**: it raises no exception, and every view goes from `Q` to
`Q'` with the changes at its path. -/
theorem exists_applyOperationHelper [Std.TransCmp stringComparator] {operationPath : FPath}
    {t : FImmutableTree FSyncPoint} {path : FPath}
    (ht : t.WF stringComparator K fun _ => True) (hQ : t.Everywhere Q path)
    (hpath : ∀ k ∈ path, K k) (hkeys : ∀ k ∈ operationPath, K k) {operation : FOperation}
    (hR : R path operation) (hop : operation.path = operationPath) {serverCache : Option Node}
    (hcache : ∀ node ∈ serverCache, node.WF) :
    ∃ visited, applyOperationHelper stringComparator operationPath operation t serverCache
        ⟨path, writeTree⟩ = some visited ∧ Handed stringComparator K Q' path visited := by
  induction operationPath generalizing t path operation serverCache with
  | nil => exact exists_applyOperationDescendantsHelper h ht hQ hpath hR hop hcache
  | cons childKey rest ih =>
      obtain ⟨syncPoint, children⟩ := t
      have hk : K childKey := hkeys childKey List.mem_cons_self
      have hsync : ∀ sp ∈ syncPoint, Q path sp := fun sp hsp => hQ.of_value hsp
      have hresolved := WF_resolvedServerCache hcache fun sp hsp => h.wf (hsync sp hsp)
      obtain ⟨here, changes, hhere, hQ'⟩ := exists_visit h hpath hR hsync hresolved
      have hfinish : ∀ below, SortedAssoc.Sorted stringComparator below.1 →
          (∀ c ∈ below.1, K c.1) → HandedBelow stringComparator K Q' path below →
            ∃ visited, (some below).bind (fun below => (visit stringComparator syncPoint operation
                ⟨path, writeTree⟩ (resolvedServerCache serverCache syncPoint)).map fun here =>
                  (FImmutableTree.tree here.1 below.1, below.2 ++ here.2)) = some visited ∧
              Handed stringComparator K Q' path visited := fun below hsorted hkey hbelow =>
        ⟨_, by rw [Option.bind_some, hhere]; rfl, handed_of_below hQ' hsorted hkey hbelow⟩
      have hspared : ∀ c ∈ children, Spares stringComparator operation c.1 →
          c.2.Everywhere (fun p view => Q' p view []) (path ++ [c.1]) := fun c hc hspares =>
        (hQ.of_mem hc).mono (h.spared (ht.key_of_mem hc) hR hspares)
      have hapart : ∀ c : String × FImmutableTree FSyncPoint, c.1 ≠ childKey →
          Spares stringComparator operation c.1 := fun c hne => Or.inr ⟨childKey, rest, hop, hne⟩
      have halone : (∀ c ∈ children, Spares stringComparator operation c.1) →
          HandedBelow stringComparator K Q' path (children, []) := fun hall =>
        ⟨fun c hc => ht.of_mem hc, fun c hc => hspared c hc (hall c hc),
          fun _ hchange => absurd hchange List.not_mem_nil⟩
      have hkey : ∀ c ∈ children, K c.1 := fun c hc => ht.key_of_mem hc
      rw [applyOperationHelper]
      cases hget : SortedAssoc.get stringComparator childKey children with
      | none =>
          refine hfinish (children, []) ht.sorted_children hkey (halone fun c hc =>
            hapart c fun hck => ?_)
          have hlookup := SortedAssoc.get_eq_lookup h.keys.exact hk ht.sorted_children hkey
          exact Assoc.lookup_eq_none_iff.1 (hlookup.symm.trans hget) c.2 (hck ▸ hc)
      | some childTree =>
          cases hchild : operation.operationForChild stringComparator childKey with
          | none =>
              refine hfinish (children, []) ht.sorted_children hkey (halone fun c hc => ?_)
              by_cases hck : c.1 = childKey
              · exact Or.inl (hck ▸ hchild)
              · exact hapart c hck
          | some childOperation =>
              obtain ⟨k', hk'⟩ := FImmutableTree.mem_of_get hget
              have hview := hQ.childTree h.keys.distinct ht hk
              rw [FImmutableTree.childTree, FImmutableTree.children, hget] at hview
              obtain ⟨child, hchild', hhanded⟩ := ih (ht.of_mem hk') hview
                (fun k hk' => (List.mem_append.1 hk').elim (hpath k)
                  fun hk' => List.mem_singleton.1 hk' ▸ hk)
                (fun k hk' => hkeys k (List.mem_cons_of_mem childKey hk'))
                (h.child hk hR (fun j r hj => by rw [hop] at hj; exact (List.cons.inj hj).1) hchild)
                (by rw [path_operationForChild hchild, hop, List.tail_cons])
                (WF_childServerCache hresolved childKey)
              rw [← childWriteTreeRef_mk h.keys.plain hk] at hchild'
              dsimp only
              rw [hchild', Option.map_some]
              have hinsert := ht.insert hk hhanded.wf
              refine hfinish (SortedAssoc.insert stringComparator childKey child.1 children,
                child.2) hinsert.sorted_children (fun c hc => hinsert.key_of_mem hc)
                ⟨fun c hc => hinsert.of_mem hc, fun c hc => ?_, fun change hchange =>
                  ⟨childKey, ?_, hhanded.within change hchange⟩⟩
              · rcases SortedAssoc.Sorted.mem_insert ht.sorted_children hc with rfl | ⟨hc, hne⟩
                · exact hhanded.views
                · have hne' := (SortedAssoc.ne_of_cmp hne).symm
                  have hnone : ∀ q, changesAt (path ++ [c.1] ++ q) child.2 = [] := fun q =>
                    changesAt_eq_nil fun change hchange => ne_of_prefix
                      (hhanded.within change hchange) (List.prefix_append _ q) hne'.symm
                  exact (hspared c hc (hapart c hne')).mono fun q _ hQ' => (hnone q).symm ▸ hQ'
              · exact List.mem_map.2 ⟨_, SortedAssoc.mem_insert_self childKey child.1 children, rfl⟩

omit h in
/-- An operation of the tree, by what is known of it at the views. -/
theorem exists_applyOperationToSyncPoints [Std.TransCmp stringComparator] (self : FSyncTree)
    (h : Handled stringComparator K self.pendingWriteTree Q Q' R)
    (hpoints : self.syncPointTree.WF stringComparator K fun _ => True)
    (hviews : self.syncPointTree.Everywhere Q []) (operation : FOperation)
    (hkeys : ∀ k ∈ operation.path, K k) (hR : R [] operation) :
    ∃ syncPointTree changes, self.applyOperationToSyncPoints stringComparator operation =
        some (⟨syncPointTree, self.pendingWriteTree⟩, changes) ∧
      syncPointTree.WF stringComparator K (fun _ => True) ∧
      syncPointTree.Everywhere (fun p view => Q' p view (changesAt p changes)) [] := by
  obtain ⟨visited, hvisited, hWF, hQ', -⟩ := exists_applyOperationHelper h hpoints hviews
    (fun _ hk => absurd hk List.not_mem_nil) hkeys hR rfl
    (fun _ hnode => absurd hnode (Option.not_mem_none _))
  refine ⟨visited.1, visited.2, ?_, hWF, hQ'⟩
  rw [applyOperationToSyncPoints, hvisited]
  rfl

/-! ### The server cache of a new view -/

section ServerCache

omit h

/-- The complete data on the way to a path. -/
theorem WF_completeServerCacheOnPath {t : FImmutableTree FSyncPoint} {p path : FPath}
    (ht : t.WF stringComparator K fun _ => True)
    (hviews : t.Everywhere (fun _ view => FViewCache.WF view) p) {node : Node}
    (hnode : completeServerCacheOnPath stringComparator t path = some node) : node.WF := by
  have hview : ∀ {t : FImmutableTree FSyncPoint} {p path : FPath} {node : Node},
      t.Everywhere (fun _ view => FViewCache.WF view) p →
        (t.value.bind fun view => view.completeServerCacheAtPath path) = some node → node.WF := by
    intro t p path node hviews hnode
    obtain ⟨view, hvalue, hcache⟩ := Option.bind_eq_some_iff.1 hnode
    obtain ⟨cache, hcomplete, rfl⟩ := Option.map_eq_some_iff.1 hcache
    rw [FViewCache.completeServerSnap] at hcomplete
    split_ifs at hcomplete
    exact Option.some.inj hcomplete ▸ (hviews.of_value hvalue).server.getChild path
  induction path generalizing t p with
  | nil =>
      rw [completeServerCacheOnPath] at hnode
      exact hview hviews hnode
  | cons front rest ih =>
      rw [completeServerCacheOnPath] at hnode
      split at hnode
      next cache hcache => exact Option.some.inj hnode ▸ hview hviews hcache
      next =>
        split at hnode
        next nextChild hget =>
          obtain ⟨k', hk'⟩ := FImmutableTree.mem_of_get hget
          exact ih (ht.of_mem hk') (hviews.of_mem hk') hnode
        next => cases hnode

/-- Complete children put together. -/
theorem WF_foldl_addCompleteCache {children : List (String × FSyncPoint)} {node : Node}
    (h : node.WF) (hchildren : ∀ c ∈ children, isPlainKey c.1 = true ∧ FViewCache.WF c.2) :
    (children.foldl addCompleteCache node).WF := by
  induction children generalizing node with
  | nil => exact h
  | cons c children ih =>
      obtain ⟨hkey, hview⟩ := hchildren c List.mem_cons_self
      refine ih ?_ fun d hd => hchildren d (List.mem_cons_of_mem c hd)
      unfold addCompleteCache
      split
      next cache hcache =>
        obtain ⟨server, hserver, rfl⟩ := Option.map_eq_some_iff.1 hcache
        rw [FViewCache.completeServerSnap] at hserver
        split_ifs at hserver
        obtain rfl := Option.some.inj hserver
        exact h.updateImmediateChild (hview.server.getChild []) hkey
      next => exact h

/-- What a new view starts with. -/
theorem WF_serverCacheForQuery [Std.TransCmp stringComparator]
    (hK : NodeKeys stringComparator K) {self : FSyncTree}
    (hpoints : self.syncPointTree.WF stringComparator K fun _ => True)
    (hviews : self.syncPointTree.Everywhere (fun _ view => FViewCache.WF view) []) {path : FPath}
    (hpath : ∀ k ∈ path, K k) : (self.serverCacheForQuery stringComparator path).node.WF := by
  unfold serverCacheForQuery
  split
  next node hnode => exact WF_completeServerCacheOnPath hpoints hviews hnode
  next =>
    refine WF_foldl_addCompleteCache .empty fun c hc => ?_
    have hsub := hviews.subtreeAtPath hK.distinct hpoints hpath
    obtain ⟨d, hd, hd'⟩ := List.mem_filterMap.1 hc
    obtain ⟨view, hvalue, rfl⟩ := Option.map_eq_some_iff.1 hd'
    exact ⟨hK.plain d.1 ((hpoints.subtreeAtPath path).key_of_mem hd),
      (hsub.of_mem hd).of_value hvalue⟩

end ServerCache

end FSyncTree
end Teamstuff
