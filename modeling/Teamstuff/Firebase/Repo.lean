/-
# The repo over a whole run

`FRepo.m`.  The repo numbers the writes of the user, hands them and what comes from the server to
its sync tree, and raises the events.  A run of it is any sequence of writes, messages and
registrations (`FSession.step`); beside the repo a session keeps what its views have been told,
and the server's data as far as the messages go, which no part of the client reads.

`exists_exec_of_wellFormed` is about all runs, whatever the server sends and in which order it
answers: no operation raises an exception or fails an assertion, that of `updateChildIn:` under
`#ifdef DEBUG` apart, and what has been told of a view is what it shows.
`exists_exec_of_allowed` adds what is shown.  If the server answers in order and the user's writes
are of something, then a view that is complete, or that a pending write covers, shows the server's
data with the pending writes made on it.

There are no transactions, no persistence and no server values, nothing is done on disconnect,
and the data of a message comes already parsed.
-/

import Teamstuff.Firebase.MirrorTree
import Teamstuff.Firebase.Told
import Teamstuff.Library.Run

namespace Teamstuff

/-- `kFWPResponseForActionStatusOk`. -/
def kFWPResponseForActionStatusOk : String := "ok"

/-- `kFErrorWriteCanceled`. -/
def kFErrorWriteCanceled : String := "write_canceled"

/-- The data of a message, which is a merge or not. -/
inductive FServerData
  | overwrite (snap : Node)
  | merge (changedChildren : FCompoundWrite)

/-- `FRepo`. -/
structure FRepo where
  serverSyncTree : FSyncTree
  writeIdCounter : ℤ

namespace FRepo

/-- `initWithRepoInfo:config:database:`. -/
def init : FRepo := ⟨⟨.empty, .init⟩, 0⟩

/-- `nextWriteId`. -/
def nextWriteId (self : FRepo) : ℤ × FRepo :=
  (self.writeIdCounter, { self with writeIdCounter := self.writeIdCounter + 1 })

/-- The sync tree after an operation, and the changes that are raised. -/
def raise (self : FRepo) (result : FSyncTree × List (FPath × FChange)) :
    FRepo × List (FPath × FChange) :=
  ({ self with serverSyncTree := result.1 }, result.2)

variable (stringComparator : NSComparator)

/-- `set:withNode:withCallback:`. -/
def set (self : FRepo) (path : FPath) (newNode : Node) :
    Option (FRepo × List (FPath × FChange)) :=
  let (writeId, self) := self.nextWriteId
  (self.serverSyncTree.applyUserOverwriteAtPath stringComparator path newNode writeId true).map
    self.raise

/-- `update:withNodes:withCallback:`. -/
def update (self : FRepo) (path : FPath) (nodes : FCompoundWrite) :
    Option (FRepo × List (FPath × FChange)) :=
  if !nodes.isEmpty then
    let (writeId, self) := self.nextWriteId
    (self.serverSyncTree.applyUserMergeAtPath stringComparator path nodes writeId).map self.raise
  else some (self, [])

/-- `ackWrite:rerunTransactionsAtPath:status:`. -/
def ackWrite (self : FRepo) (writeId : ℤ) (status : String) :
    Option (FRepo × List (FPath × FChange)) :=
  if status = kFErrorWriteCanceled then some (self, [])
  else
    let success := status == kFWPResponseForActionStatusOk
    (self.serverSyncTree.ackUserWriteWithWriteId stringComparator writeId !success).map self.raise

/-- `onDataUpdate:forPath:message:isMerge:tagId:`, without a tag. -/
def onDataUpdate (self : FRepo) (path : FPath) (data : FServerData) :
    Option (FRepo × List (FPath × FChange)) :=
  match data with
  | .merge changedChildren =>
      (self.serverSyncTree.applyServerMergeAtPath stringComparator path changedChildren).map
        self.raise
  | .overwrite snap =>
      (self.serverSyncTree.applyServerOverwriteAtPath stringComparator path snap).map self.raise

/-- `purgeOutstandingWrites`. -/
def purgeOutstandingWrites (self : FRepo) : Option (FRepo × List (FPath × FChange)) :=
  (self.serverSyncTree.removeAllWrites stringComparator).map self.raise

/-- `addEventRegistration:forQuery:`. -/
def addEventRegistration (self : FRepo) (path : FPath) : FRepo × List (FPath × FChange) :=
  self.raise (self.serverSyncTree.addEventRegistration stringComparator path)

/-- `removeEventRegistration:forQuery:`, for the last registration. -/
def removeEventRegistration (self : FRepo) (path : FPath) : FRepo :=
  { self with serverSyncTree := self.serverSyncTree.removeEventRegistration stringComparator path }

/-- `onComplete` of a listen, in `createListenerForView:`: if it has failed, all registrations are
removed. -/
def onComplete (self : FRepo) (path : FPath) (status : String) :
    Option (FRepo × List (FPath × FChange)) :=
  if status = kFWPResponseForActionStatusOk then
    (self.serverSyncTree.applyListenCompleteAtPath stringComparator path).map self.raise
  else some (self.removeEventRegistration stringComparator path, [])

end FRepo

/-! ### Sessions -/

/-- The data of a message put in at its path. -/
def FServerData.applyTo (self : FServerData) (path : FPath) (root : Node) : Node :=
  match self with
  | .overwrite snap => root.updateChild path snap
  | .merge changedChildren =>
      root.updateChild path (changedChildren.applyToNode (root.getChild path))

/-- What it puts in is well formed. -/
def FServerData.WF (stringComparator : NSComparator) (K : String → Prop) : FServerData → Prop
  | .overwrite snap => snap.WF
  | .merge changedChildren => changedChildren.WF stringComparator K

/-- A repo, what has been heard of each view since it is there, and the server's data. -/
structure FSession where
  repo : FRepo
  heard : FPath → List FChange
  serverData : Node

/-- What can happen to a repo. -/
inductive FSessionEvent
  | set (path : FPath) (newNode : Node)
  | update (path : FPath) (nodes : FCompoundWrite)
  | ackWrite (writeId : ℤ) (status : String)
  | onDataUpdate (path : FPath) (data : FServerData)
  | onComplete (path : FPath) (status : String)
  | purgeOutstandingWrites
  | addEventRegistration (path : FPath)
  | removeEventRegistration (path : FPath)
  /-- The server's data changes without a message. -/
  | unsent (serverData : Node)

namespace FSession

/-- A new repo, with a server that has some data. -/
def start (serverData : Node) : FSession := ⟨.init, fun _ => [], serverData⟩

/-- What is raised is heard. -/
def raised (self : FSession) (result : FRepo × List (FPath × FChange)) : FSession :=
  { self with repo := result.1, heard := FSyncTree.hear self.heard result.2 }

variable (stringComparator : NSComparator)

/-- `none` stands for an exception or a failed assertion. -/
def step (self : FSession) : FSessionEvent → Option FSession
  | .set path newNode => (self.repo.set stringComparator path newNode).map self.raised
  | .update path nodes => (self.repo.update stringComparator path nodes).map self.raised
  | .ackWrite writeId status =>
      (self.repo.ackWrite stringComparator writeId status).map self.raised
  | .onDataUpdate path data =>
      (self.repo.onDataUpdate stringComparator path data).map fun result =>
        { self.raised result with serverData := data.applyTo path self.serverData }
  | .onComplete path status =>
      (self.repo.onComplete stringComparator path status).map self.raised
  | .purgeOutstandingWrites => (self.repo.purgeOutstandingWrites stringComparator).map self.raised
  | .addEventRegistration path =>
      some
        { self with
          repo := (self.repo.addEventRegistration stringComparator path).1
          heard := self.repo.serverSyncTree.hearRegistration stringComparator self.heard path }
  | .removeEventRegistration path =>
      some { self with repo := self.repo.removeEventRegistration stringComparator path }
  | .unsent serverData => some { self with serverData }

/-- The views, each with its path. -/
def views (self : FSession) : List (FPath × FSyncPoint) :=
  self.repo.serverSyncTree.syncPointTree.forEach

/-- The writes on their way, oldest first. -/
def pendingWrites (self : FSession) : List (FPath × Node) :=
  self.repo.serverSyncTree.pendingWriteTree.allWrites.flatMap FWriteRecord.writes

/-- The server's data with the pending writes made on it. -/
def expected (self : FSession) : Node := self.serverData.updateAll self.pendingWrites

end FSession

/-! ### Any repo -/

namespace FRepo

variable {stringComparator : NSComparator} {K : String → Prop} {self : FRepo}
  {heard : FPath → List FChange}

variable (stringComparator K) in
/-- All views show what has been told of them. -/
def Told (heard : FPath → List FChange) (self : FRepo) : Prop :=
  self.serverSyncTree.Told stringComparator K self.writeIdCounter heard

/-- A new repo has no views. -/
theorem told_init : init.Told stringComparator K fun _ => [] := by
  refine ⟨⟨.emptyWrite, fun _ hr => absurd hr List.not_mem_nil,
    fun _ hr => absurd hr List.not_mem_nil, ?_, ?_⟩, .empty, .empty⟩
  · exact (by decide : (-1 : ℤ) < 0)
  · exact (by decide : (-1 : ℤ) < 0)

/-- Nothing more is told. -/
theorem told_of_nothing [Std.TransCmp stringComparator] (h : self.Told stringComparator K heard) :
    self.Told stringComparator K (FSyncTree.hear heard []) :=
  h.of_writes h.writes

variable [Std.TransCmp stringComparator] (hK : NodeKeys stringComparator K)
  (h : self.Told stringComparator K heard) {path : FPath} (hpath : ∀ k ∈ path, K k)

include hK h hpath

/-- The user sets a node. -/
theorem exists_told_set {newNode : Node} (hnode : newNode.WF) :
    ∃ repo changes, self.set stringComparator path newNode = some (repo, changes) ∧
      repo.Told stringComparator K (FSyncTree.hear heard changes) := by
  obtain ⟨syncTree, changes, happly, htold⟩ := h.applyUserOverwriteAtPath hK hpath hnode true
  refine ⟨⟨syncTree, self.writeIdCounter + 1⟩, changes, ?_, htold⟩
  rw [set, nextWriteId]
  dsimp only
  rw [happly]
  rfl

/-- The user merges. -/
theorem exists_told_update {nodes : FCompoundWrite} (hnodes : nodes.WF stringComparator K) :
    ∃ repo changes, self.update stringComparator path nodes = some (repo, changes) ∧
      repo.Told stringComparator K (FSyncTree.hear heard changes) := by
  rw [update]
  split_ifs
  · obtain ⟨syncTree, changes, happly, htold⟩ := h.applyUserMergeAtPath hK hpath hnodes
    refine ⟨⟨syncTree, self.writeIdCounter + 1⟩, changes, ?_, htold⟩
    rw [nextWriteId]
    dsimp only
    rw [happly]
    rfl
  · exact ⟨self, [], rfl, told_of_nothing h⟩

/-- Data comes from the server. -/
theorem exists_told_onDataUpdate {data : FServerData} (hdata : data.WF stringComparator K) :
    ∃ repo changes, self.onDataUpdate stringComparator path data = some (repo, changes) ∧
      repo.Told stringComparator K (FSyncTree.hear heard changes) := by
  have happlied := FSyncTree.exists_told_applyOperationToSyncPoints hK self.serverSyncTree h.writes
    h.points h.views
  cases data with
  | overwrite snap =>
      obtain ⟨syncTree, changes, happly, htold, -⟩ := happlied (.overwrite .server path snap)
        ⟨hpath, hdata⟩
      refine ⟨⟨syncTree, self.writeIdCounter⟩, changes, ?_, htold⟩
      rw [onDataUpdate, FSyncTree.applyServerOverwriteAtPath, happly]
      rfl
  | merge changedChildren =>
      obtain ⟨syncTree, changes, happly, htold, -⟩ :=
        happlied (.merge .server path changedChildren) ⟨hpath, hdata⟩
      refine ⟨⟨syncTree, self.writeIdCounter⟩, changes, ?_, htold⟩
      rw [onDataUpdate, FSyncTree.applyServerMergeAtPath, happly]
      rfl

/-- A listen is answered. -/
theorem exists_told_onComplete (status : String) :
    ∃ repo changes, self.onComplete stringComparator path status = some (repo, changes) ∧
      repo.Told stringComparator K (FSyncTree.hear heard changes) := by
  rw [onComplete]
  split_ifs
  · obtain ⟨syncTree, changes, happly, htold, -⟩ :=
      FSyncTree.exists_told_applyOperationToSyncPoints hK self.serverSyncTree h.writes h.points
        h.views (.listenComplete path) hpath
    refine ⟨⟨syncTree, self.writeIdCounter⟩, changes, ?_, htold⟩
    rw [FSyncTree.applyListenCompleteAtPath, happly]
    rfl
  · refine ⟨self.removeEventRegistration stringComparator path, [], rfl, told_of_nothing ?_⟩
    exact h.removeEventRegistration hK hpath

omit hpath

/-- A write on its way is answered, or it has been cancelled. -/
theorem exists_told_ackWrite {writeId : ℤ} {status : String}
    (hack : status = kFErrorWriteCanceled ∨
      ∃ record ∈ self.serverSyncTree.pendingWriteTree.allWrites, record.writeId = writeId) :
    ∃ repo changes, self.ackWrite stringComparator writeId status = some (repo, changes) ∧
      repo.Told stringComparator K (FSyncTree.hear heard changes) := by
  rw [ackWrite]
  split_ifs with hcanceled
  · exact ⟨self, [], rfl, told_of_nothing h⟩
  · obtain ⟨record, hrecord, rfl⟩ := hack.resolve_left hcanceled
    obtain ⟨syncTree, changes, happly, htold⟩ := h.ackUserWriteWithWriteId hK hrecord
      !(status == kFWPResponseForActionStatusOk)
    refine ⟨⟨syncTree, self.writeIdCounter⟩, changes, ?_, htold⟩
    dsimp only
    rw [happly]
    rfl

/-- All writes are taken back. -/
theorem exists_told_purgeOutstandingWrites :
    ∃ repo changes, self.purgeOutstandingWrites stringComparator = some (repo, changes) ∧
      repo.Told stringComparator K (FSyncTree.hear heard changes) := by
  obtain ⟨syncTree, changes, happly, htold⟩ := h.removeAllWrites hK
  refine ⟨⟨syncTree, self.writeIdCounter⟩, changes, ?_, htold⟩
  rw [purgeOutstandingWrites, happly]
  rfl

end FRepo

/-! ### Any run -/

namespace FSession

variable {stringComparator : NSComparator} {K : String → Prop}

variable (stringComparator K) in
/-- What is handed over is well formed, and what is answered is a write on its way. -/
def WellFormed (self : FSession) : FSessionEvent → Prop
  | .set path newNode => (∀ k ∈ path, K k) ∧ newNode.WF
  | .update path nodes => (∀ k ∈ path, K k) ∧ nodes.WF stringComparator K
  | .ackWrite writeId status =>
      status = kFErrorWriteCanceled ∨
        ∃ record ∈ self.repo.serverSyncTree.pendingWriteTree.allWrites, record.writeId = writeId
  | .onDataUpdate path data => (∀ k ∈ path, K k) ∧ data.WF stringComparator K
  | .onComplete path _ => ∀ k ∈ path, K k
  | .purgeOutstandingWrites => True
  | .addEventRegistration path => ∀ k ∈ path, K k
  | .removeEventRegistration path => ∀ k ∈ path, K k
  | .unsent _ => True

variable [Std.TransCmp stringComparator] (hK : NodeKeys stringComparator K) {self : FSession}

include hK

/-- **No event raises an exception**, and what is told is what is shown. -/
theorem exists_step_of_wellFormed (h : self.repo.Told stringComparator K self.heard)
    {event : FSessionEvent} (hevent : self.WellFormed stringComparator K event) :
    ∃ next, self.step stringComparator event = some next ∧
      next.repo.Told stringComparator K next.heard := by
  -- an operation of the repo, and what is heard of it
  have hraised : ∀ {operation : Option (FRepo × List (FPath × FChange))},
      (∃ repo changes, operation = some (repo, changes) ∧
        repo.Told stringComparator K (FSyncTree.hear self.heard changes)) →
      ∃ next, operation.map self.raised = some next ∧
        next.repo.Told stringComparator K next.heard := by
    rintro operation ⟨repo, changes, rfl, htold⟩
    exact ⟨_, rfl, htold⟩
  cases event with
  | set path newNode => exact hraised (FRepo.exists_told_set hK h hevent.1 hevent.2)
  | update path nodes => exact hraised (FRepo.exists_told_update hK h hevent.1 hevent.2)
  | ackWrite writeId status => exact hraised (FRepo.exists_told_ackWrite hK h hevent)
  | onDataUpdate path data =>
      obtain ⟨repo, changes, hupdate, htold⟩ :=
        FRepo.exists_told_onDataUpdate hK h hevent.1 hevent.2
      exact ⟨_, by rw [step, hupdate]; rfl, htold⟩
  | onComplete path status => exact hraised (FRepo.exists_told_onComplete hK h hevent status)
  | purgeOutstandingWrites => exact hraised (FRepo.exists_told_purgeOutstandingWrites hK h)
  | addEventRegistration path => exact ⟨_, rfl, (h.addEventRegistration hK hevent).1⟩
  | removeEventRegistration path => exact ⟨_, rfl, h.removeEventRegistration hK hevent⟩
  | unsent serverData => exact ⟨_, rfl, h⟩

-- In the last step the filter is handed a child that differs from the old one away from the path of
-- the write.  It keeps the old one, with a value that has been rejected; with `DEBUG` an assertion
-- fails there.
example : (Run.exec (step compare) (start .empty)
    [.addEventRegistration [],
      .onDataUpdate [] (.overwrite (.children [("a", .children [("k", .leaf (.number 0))])])),
      .set ["a", "m"] (.children [("x", .leaf (.number 1))]),
      .set ["a", "m", "y"] (.leaf (.number 2)), .ackWrite 1 "permission_denied",
      .set ["a", "n"] (.leaf (.number 5)), .set ["a", "n", "q"] (.leaf (.number 6)),
      .ackWrite 2 "permission_denied"]).map (fun last =>
        (last.views.map fun c => (c.2.cachedEventSnap.node.getChild ["a", "m", "y"]).leafValue,
          (last.expected.getChild ["a", "m", "y"]).leafValue)) =
      some ([some (.number 2)], none) := by
  decide +kernel

end FSession

/-! ### A server that answers in order -/

/-- What the data of a message puts in, as a patch. -/
noncomputable def FServerData.patch (path : FPath) : FServerData → LeafTree.Patch String LeafValue
  | .overwrite snap => (∅ : LeafTree.Patch String LeafValue).put path snap.leaves
  | .merge changedChildren => LeafTree.nest path changedChildren.patch

namespace FRepo

variable {stringComparator : NSComparator} {K : String → Prop} {self : FRepo}
  {S : LeafTree String LeafValue}

variable (stringComparator K) in
/-- All views mirror the data `S` of the server under the pending writes. -/
structure Mirrors (S : LeafTree String LeafValue) (repo : FRepo) : Prop where
  tree : repo.serverSyncTree.Mirrors stringComparator K S
  last : repo.serverSyncTree.pendingWriteTree.lastWriteId < repo.writeIdCounter
  next : -1 < repo.writeIdCounter

/-- A new repo has no views. -/
theorem mirrors_init : init.Mirrors stringComparator K S := by
  refine ⟨⟨.init, fun _ hr => absurd hr List.not_mem_nil, .empty, .empty⟩, ?_, ?_⟩
  · exact (by decide : (-1 : ℤ) < 0)
  · exact (by decide : (-1 : ℤ) < 0)

/-- An operation that leaves the writes alone. -/
theorem Mirrors.of_tree (h : self.Mirrors stringComparator K S) {S' : LeafTree String LeafValue}
    {syncTree : FSyncTree} (htree : syncTree.Mirrors stringComparator K S')
    (hwrites : syncTree.pendingWriteTree = self.serverSyncTree.pendingWriteTree) :
    Mirrors stringComparator K S' ⟨syncTree, self.writeIdCounter⟩ :=
  ⟨htree, by rw [hwrites]; exact h.last, h.next⟩

variable [Std.TransCmp stringComparator] (hK : NodeKeys stringComparator K)
  (h : self.Mirrors stringComparator K S) {path : FPath} (hpath : ∀ k ∈ path, K k)

include hK h hpath

/-- The user sets something. -/
theorem exists_mirrors_set {newNode : Node} (hnode : newNode.WF) (hne : newNode.isEmpty = false) :
    ∃ repo changes, self.set stringComparator path newNode = some (repo, changes) ∧
      repo.Mirrors stringComparator K S := by
  obtain ⟨syncTree, changes, happly, hmirrors, -, hlast⟩ :=
    h.tree.applyUserOverwriteAtPath hK hpath hnode hne h.last
  refine ⟨⟨syncTree, self.writeIdCounter + 1⟩, changes, ?_, hmirrors, ?_, ?_⟩
  · rw [set, nextWriteId]
    dsimp only
    rw [happly]
    rfl
  · rw [hlast]
    exact Int.lt_succ _
  · exact h.next.trans (Int.lt_succ _)

omit h in
/-- What the data of a message puts in. -/
theorem leaves_applyTo {data : FServerData} (hdata : data.WF stringComparator K) {root : Node}
    (hroot : root.WF) : (data.applyTo path root).WF ∧
      (data.applyTo path root).leaves = (data.patch path).act root.leaves := by
  have hvalid := hK.plain.of_mem hpath
  have hzeros := hK.plain.notZero hpath
  cases data with
  | overwrite snap =>
      refine ⟨hroot.updateChild hdata hvalid,
        (Node.leaves_updateChild hroot.valid (Node.WF.valid hdata) hzeros).trans ?_⟩
      rw [FServerData.patch, LeafTree.act_put_empty]
  | merge changedChildren =>
      have hmerged := hdata.applyToNode hK.plain (hroot.getChild path)
      refine ⟨hroot.updateChild hmerged hvalid,
        (Node.leaves_updateChild hroot.valid hmerged.valid hzeros).trans ?_⟩
      rw [FCompoundWrite.leaves_applyToNode hK hdata (hroot.getChild path), FServerData.patch,
        LeafTree.act_nest, Node.sub_leaves root hzeros]

/-- Data comes from the server, which has that data then. -/
theorem exists_mirrors_onDataUpdate {data : FServerData} (hdata : data.WF stringComparator K)
    (hmerge : ∀ children, data = .merge children → children.rootWrite = none) {root : Node}
    (hroot : root.WF) (hS : root.leaves = S) :
    ∃ repo changes, self.onDataUpdate stringComparator path data = some (repo, changes) ∧
      repo.Mirrors stringComparator K (data.applyTo path root).leaves := by
  rw [(leaves_applyTo hK hpath hdata hroot).2, hS]
  cases data with
  | overwrite snap =>
      obtain ⟨syncPointTree, changes, happly, hmirrors⟩ :=
        h.tree.applyServerData hK (.overwrite hpath hdata)
      refine ⟨_, changes, ?_, h.of_tree hmirrors rfl⟩
      rw [onDataUpdate, FSyncTree.applyServerOverwriteAtPath, happly]
      rfl
  | merge changedChildren =>
      obtain ⟨syncPointTree, changes, happly, hmirrors⟩ :=
        h.tree.applyServerData hK (.merge hpath hdata (hmerge _ rfl))
      refine ⟨_, changes, ?_, h.of_tree hmirrors rfl⟩
      rw [onDataUpdate, FSyncTree.applyServerMergeAtPath, happly]
      rfl

/-- A listen is answered, with all its data there. -/
theorem exists_mirrors_onComplete {status : String}
    (hsent : status = kFWPResponseForActionStatusOk →
      ∀ c ∈ self.serverSyncTree.syncPointTree.forEach, path <+: c.1 →
        c.2.cachedServerSnap.isFullyInitialized = false →
          c.2.cachedServerSnap.node.leaves = S.sub c.1) :
    ∃ repo changes, self.onComplete stringComparator path status = some (repo, changes) ∧
      repo.Mirrors stringComparator K S := by
  rw [onComplete]
  split_ifs with hok
  · obtain ⟨syncPointTree, changes, happly, hmirrors⟩ :=
      h.tree.applyListenCompleteAtPath hK hpath (hsent hok)
    refine ⟨_, changes, ?_, h.of_tree hmirrors rfl⟩
    rw [happly]
    rfl
  · exact ⟨_, [], rfl, h.of_tree (h.tree.removeEventRegistration hK hpath) rfl⟩

/-- A view is asked for. -/
theorem mirrors_addEventRegistration :
    (self.addEventRegistration stringComparator path).1.Mirrors stringComparator K S := by
  obtain ⟨hmirrors, hwrites⟩ := h.tree.addEventRegistration hK hpath
  exact h.of_tree hmirrors hwrites

/-- A view is given up. -/
theorem mirrors_removeEventRegistration :
    (self.removeEventRegistration stringComparator path).Mirrors stringComparator K S :=
  h.of_tree (h.tree.removeEventRegistration hK hpath) rfl

omit hpath

/-- The oldest write is answered, or it has been cancelled. -/
theorem exists_mirrors_ackWrite {writeId : ℤ} {status : String}
    (hack : status = kFErrorWriteCanceled ∨ ∃ record records,
      self.serverSyncTree.pendingWriteTree.allWrites = record :: records ∧
        record.writeId = writeId ∧ (status = kFWPResponseForActionStatusOk →
          S.Clear record.path (S.sub record.path))) :
    ∃ repo changes, self.ackWrite stringComparator writeId status = some (repo, changes) ∧
      repo.Mirrors stringComparator K S := by
  rw [ackWrite]
  split_ifs with hcanceled
  · exact ⟨self, [], rfl, h⟩
  · obtain ⟨record, records, hall, rfl, hclear⟩ := hack.resolve_left hcanceled
    obtain ⟨syncTree, changes, happly, hmirrors, -, hlast⟩ :=
      h.tree.ackUserWriteWithWriteId hK hall (!(status == kFWPResponseForActionStatusOk))
        fun hrevert => hclear (by rwa [Bool.not_eq_false', beq_iff_eq] at hrevert)
    refine ⟨⟨syncTree, self.writeIdCounter⟩, changes, ?_, hmirrors, ?_, h.next⟩
    · dsimp only
      rw [happly]
      rfl
    · rcases hlast with hlast | hlast
      · exact lt_of_le_of_lt hlast h.last
      · rw [hlast]
        exact h.next

/-- All writes are taken back. -/
theorem exists_mirrors_purgeOutstandingWrites :
    ∃ repo changes, self.purgeOutstandingWrites stringComparator = some (repo, changes) ∧
      repo.Mirrors stringComparator K S := by
  obtain ⟨syncTree, changes, happly, hmirrors, -, hlast⟩ := h.tree.removeAllWrites hK
  refine ⟨⟨syncTree, self.writeIdCounter⟩, changes, ?_, hmirrors, ?_, h.next⟩
  · rw [purgeOutstandingWrites, happly]
    rfl
  · rw [hlast]
    exact h.last

end FRepo

/-! ### Runs with such a server -/

namespace FSession

variable {stringComparator : NSComparator} {K : String → Prop} {self : FSession}

variable (stringComparator K) in
/-- The app writes something and no merges.  The server answers the oldest write, and if it has
made it there is no leaf in its way; a merge of its is one of children.  A listen is complete when
what there is of a view is what the server has, and where a view is complete the server's data does
not change without a message. -/
def Allowed (self : FSession) : FSessionEvent → Prop
  | .set path newNode => (∀ k ∈ path, K k) ∧ newNode.WF ∧ newNode.isEmpty = false
  | .update _ _ => False
  | .ackWrite writeId status =>
      status = kFErrorWriteCanceled ∨ ∃ record records,
        self.repo.serverSyncTree.pendingWriteTree.allWrites = record :: records ∧
          record.writeId = writeId ∧ (status = kFWPResponseForActionStatusOk →
            (self.serverData.getChild record.path).isEmpty = true →
              self.serverData.noLeafAbove record.path = true)
  | .onDataUpdate path data =>
      (∀ k ∈ path, K k) ∧ data.WF stringComparator K ∧
        ∀ children, data = .merge children → children.rootWrite = none
  | .onComplete path status =>
      (∀ k ∈ path, K k) ∧ (status = kFWPResponseForActionStatusOk → ∀ c ∈ self.views, path <+: c.1 →
        c.2.cachedServerSnap.isFullyInitialized = false →
          c.2.cachedServerSnap.node.isEqual (self.serverData.getChild c.1) = true)
  | .purgeOutstandingWrites => True
  | .addEventRegistration path => ∀ k ∈ path, K k
  | .removeEventRegistration path => ∀ k ∈ path, K k
  | .unsent serverData =>
      serverData.WF ∧ ∀ c ∈ self.views, c.2.cachedServerSnap.isFullyInitialized = true →
        (serverData.getChild c.1).isEqual (self.serverData.getChild c.1) = true

/-- What such a server does is well formed. -/
theorem Allowed.wellFormed {event : FSessionEvent}
    (h : self.Allowed stringComparator K event) : self.WellFormed stringComparator K event := by
  cases event with
  | set path newNode => exact ⟨h.1, h.2.1⟩
  | update path nodes => exact h.elim
  | ackWrite writeId status =>
      refine h.imp_right ?_
      rintro ⟨record, records, hall, hid, -⟩
      exact ⟨record, hall ▸ List.mem_cons_self, hid⟩
  | onDataUpdate path data => exact ⟨h.1, h.2.1⟩
  | onComplete path status => exact h.1
  | purgeOutstandingWrites => trivial
  | addEventRegistration path => exact h
  | removeEventRegistration path => exact h
  | unsent serverData => trivial

variable (stringComparator K) in
/-- The repo is in step with the server. -/
structure InStep (session : FSession) : Prop where
  told : session.repo.Told stringComparator K session.heard
  mirrors : session.repo.Mirrors stringComparator K session.serverData.leaves
  wf : session.serverData.WF

variable [Std.TransCmp stringComparator] (hK : NodeKeys stringComparator K)

include hK

omit [Std.TransCmp stringComparator] in
/-- The paths of the views are made of plain keys. -/
theorem isNegativeZero_of_mem_views (h : self.InStep stringComparator K) {c : FPath × FSyncPoint}
    (hc : c ∈ self.views) : ∀ k ∈ c.1, isNegativeZero k = false := by
  obtain ⟨-, path, hpath, hkeys⟩ :=
    FImmutableTree.WF.of_mem_forEachPathSoFar hK.plain.valid h.mirrors.tree.points hc
  rw [hpath, List.nil_append]
  exact hK.plain.notZero hkeys

omit [Std.TransCmp stringComparator] in
/-- Data that has not been sent. -/
theorem mirrors_unsent (h : self.InStep stringComparator K) {serverData : Node}
    (hWF : serverData.WF)
    (hsame : ∀ c ∈ self.views, c.2.cachedServerSnap.isFullyInitialized = true →
      (serverData.getChild c.1).isEqual (self.serverData.getChild c.1) = true) :
    self.repo.Mirrors stringComparator K serverData.leaves := by
  refine h.mirrors.of_tree ⟨h.mirrors.tree.writes, h.mirrors.tree.sets, h.mirrors.tree.points, ?_⟩
    rfl
  refine (h.mirrors.tree.points.everywhere_iff hK.plain.valid).2 fun c hc => ?_
  have hview := (h.mirrors.tree.points.everywhere_iff hK.plain.valid).1 h.mirrors.tree.views c hc
  refine ⟨hview.synced, fun hinit => (hview.server_eq hinit).trans ?_⟩
  have hzeros := isNegativeZero_of_mem_views hK h hc
  rw [Node.sub_leaves _ hzeros, Node.sub_leaves _ hzeros]
  exact (((hWF.getChild c.1).isEqual_iff (h.wf.getChild c.1)).1 (hsame c hc hinit)).symm

/-- **An event keeps the repo in step**, and raises no exception. -/
theorem exists_step_of_allowed (h : self.InStep stringComparator K) {event : FSessionEvent}
    (hevent : self.Allowed stringComparator K event) :
    ∃ next, self.step stringComparator event = some next ∧ next.InStep stringComparator K := by
  obtain ⟨next, hnext, htold⟩ := exists_step_of_wellFormed hK h.told hevent.wellFormed
  refine ⟨next, hnext, ?_⟩
  -- an operation of the repo that leaves the server's data alone
  have hraised : ∀ {operation : Option (FRepo × List (FPath × FChange))},
      operation.map self.raised = some next →
      (∃ repo changes, operation = some (repo, changes) ∧
        repo.Mirrors stringComparator K self.serverData.leaves) →
      next.repo.Mirrors stringComparator K next.serverData.leaves ∧ next.serverData.WF := by
    rintro operation hnext ⟨repo, changes, rfl, hmirrors⟩
    exact Option.some.inj hnext ▸ ⟨hmirrors, h.wf⟩
  suffices hmirrors : next.repo.Mirrors stringComparator K next.serverData.leaves ∧
      next.serverData.WF from ⟨htold, hmirrors.1, hmirrors.2⟩
  cases event with
  | set path newNode =>
      exact hraised hnext (FRepo.exists_mirrors_set hK h.mirrors hevent.1 hevent.2.1 hevent.2.2)
  | update path nodes => exact hevent.elim
  | ackWrite writeId status =>
      refine hraised hnext (FRepo.exists_mirrors_ackWrite hK h.mirrors (hevent.imp_right ?_))
      rintro ⟨record, records, hall, hid, hclear⟩
      refine ⟨record, records, hall, hid, fun hok => ?_⟩
      have hrecord := h.mirrors.tree.writes.record record (hall ▸ List.mem_cons_self)
      have hzeros := hK.plain.notZero hrecord.1
      have hclearWF : (self.serverData.getChild record.path).WF := h.wf.getChild record.path
      rw [Node.sub_leaves _ hzeros]
      exact hclearWF.clear hzeros (hclear hok)
  | onDataUpdate path data =>
      obtain ⟨repo, changes, hupdate, hmirrors⟩ := FRepo.exists_mirrors_onDataUpdate hK h.mirrors
        hevent.1 hevent.2.1 hevent.2.2 h.wf rfl
      rw [step, hupdate] at hnext
      exact Option.some.inj hnext ▸ ⟨hmirrors, (FRepo.leaves_applyTo hK hevent.1 hevent.2.1 h.wf).1⟩
  | onComplete path status =>
      refine hraised hnext (FRepo.exists_mirrors_onComplete hK h.mirrors hevent.1
        fun hok c hc hprefix hinit => ?_)
      have hview := (h.mirrors.tree.points.everywhere_iff hK.plain.valid).1 h.mirrors.tree.views c hc
      rw [Node.sub_leaves _ (isNegativeZero_of_mem_views hK h hc)]
      exact (hview.synced.wf.server.isEqual_iff (h.wf.getChild c.1)).1
        (hevent.2 hok c hc hprefix hinit)
  | purgeOutstandingWrites =>
      exact hraised hnext (FRepo.exists_mirrors_purgeOutstandingWrites hK h.mirrors)
  | addEventRegistration path =>
      exact Option.some.inj hnext ▸
        ⟨FRepo.mirrors_addEventRegistration hK h.mirrors hevent, h.wf⟩
  | removeEventRegistration path =>
      exact Option.some.inj hnext ▸
        ⟨FRepo.mirrors_removeEventRegistration hK h.mirrors hevent, h.wf⟩
  | unsent serverData =>
      exact Option.some.inj hnext ▸ ⟨mirrors_unsent hK h hevent.1 hevent.2, hevent.1⟩

/-! ### What is shown -/

omit [Std.TransCmp stringComparator] in
/-- **What is to be seen**, as a tree. -/
theorem leaves_expected (h : self.InStep stringComparator K) :
    self.expected.WF ∧ self.expected.leaves =
      self.repo.serverSyncTree.pendingWriteTree.pending.act self.serverData.leaves := by
  have hrecord := h.mirrors.tree.writes.record
  obtain ⟨hWF, hleaves⟩ := Node.leaves_updateAll h.wf fun write hwrite => by
    obtain ⟨record, hmem, hwrite⟩ := List.mem_flatMap.1 hwrite
    obtain ⟨hkeys, hnode⟩ := (hrecord record hmem).of_mem hK hwrite
    exact ⟨fun k hk => hK.plain k (hkeys k hk), hnode⟩
  refine ⟨hWF, hleaves.trans ?_⟩
  have hclear : ∀ w ∈ Teamstuff.pendingWrites
      self.repo.serverSyncTree.pendingWriteTree.allWrites, self.serverData.leaves.Clear w.1 w.2 :=
    fun w hw hempty => absurd hempty
      (FWriteRecord.ne_empty_of_mem_pendingWrites h.mirrors.tree.sets hrecord hw)
  rw [FWriteTree.pending, LeafTree.act_putAll hclear, LeafTree.act_empty, Teamstuff.pendingWrites,
    List.map_flatMap]

/-- A view that shows what is to be seen, of which its listeners have been told last. -/
structure Shown (self : FSession) (path : FPath) (view : FSyncPoint) : Prop where
  complete : view.cachedEventSnap.isFullyInitialized = true
  event : view.cachedEventSnap.node.isEqual (self.expected.getChild path) = true
  told : ∃ node, ((self.heard path).filterMap FChange.valueNode).getLast? = some node ∧
    node.isEqual (self.expected.getChild path) = true

omit [Std.TransCmp stringComparator] in
/-- **What a view shows** in a session that is in step with the server. -/
theorem shown_of_inStep (h : self.InStep stringComparator K) {c : FPath × FSyncPoint}
    (hc : c ∈ self.views) (hknown : c.2.cachedServerSnap.isFullyInitialized = true ∨
      ∃ write ∈ self.pendingWrites, write.1 <+: c.1) :
    self.Shown c.1 c.2 := by
  have hview := (h.mirrors.tree.points.everywhere_iff hK.plain.valid).1 h.mirrors.tree.views c hc
  have htold := (h.told.points.everywhere_iff hK.plain.valid).1 h.told.views c hc
  obtain ⟨hexpected, hleaves⟩ := leaves_expected hK h
  have hcovered : ∀ write ∈ self.pendingWrites, write.1 <+: c.1 →
      (self.repo.serverSyncTree.pendingWriteTree.pending.within c.1).root.isSome = true := by
    intro write hwrite hprefix
    obtain ⟨record, hrecord, hwrite⟩ := List.mem_flatMap.1 hwrite
    exact (LeafTree.isSome_root_within_putAll _ _ _).2
      (Or.inr ⟨_, mem_pendingWrites.2 ⟨record, hrecord, write, hwrite, rfl⟩, hprefix⟩)
  have hshows := hview.synced.shows
    (hknown.imp_right (Exists.elim · fun write hwrite => hcovered write hwrite.1 hwrite.2))
  -- the server's part of it
  have hevent : c.2.cachedEventSnap.node.leaves = (self.expected.getChild c.1).leaves := by
    rw [hshows.leaves_eq, ← Node.sub_leaves _ (isNegativeZero_of_mem_views hK h hc), hleaves,
      LeafTree.sub_act]
    rcases hknown with hinit | ⟨write, hwrite, hprefix⟩
    · rw [hview.server_eq hinit]
    · -- all of it is written
      obtain ⟨m, hm⟩ := Option.isSome_iff_exists.1 (hcovered write hwrite hprefix)
      rw [LeafTree.act_of_root hm, LeafTree.act_of_root hm]
  obtain ⟨node, hlast, hnode, hnodeLeaves⟩ := htold.value hshows.isFullyInitialized
  exact ⟨hshows.isFullyInitialized,
    (hview.synced.wf.event.isEqual_iff (hexpected.getChild c.1)).2 hevent,
    node, hlast, (hnode.isEqual_iff (hexpected.getChild c.1)).2 (hnodeLeaves.trans hevent)⟩

/-- **A view shows the pending writes over the server's data**, in every run with such a server. -/
theorem exists_exec_of_allowed {serverData : Node} (hdata : serverData.WF)
    {events : List FSessionEvent} (hevents : Run.Guarded (step stringComparator)
      (Allowed stringComparator K) (start serverData) events) :
    ∃ last, Run.exec (step stringComparator) (start serverData) events = some last ∧
      ∀ c ∈ last.views, c.2.cachedServerSnap.isFullyInitialized = true ∨
        (∃ write ∈ last.pendingWrites, write.1 <+: c.1) → last.Shown c.1 c.2 := by
  obtain ⟨last, hlast, hinStep⟩ := Run.exists_exec_of_guarded
    (fun _ _ h hevent => exists_step_of_allowed hK h hevent)
    ⟨FRepo.told_init, FRepo.mirrors_init, hdata⟩ hevents
  exact ⟨last, hlast, fun c hc => shown_of_inStep hK hinStep hc⟩

omit [Std.TransCmp stringComparator] hK in
/-- A write that comes back from the server before it is acknowledged. -/
theorem exists_exec_of_allowed_acknowledged : ∃ last, Run.exec (step compare) (start .empty)
    [.addEventRegistration ["a"], .set ["a"] (.leaf (.bool true)),
      .onDataUpdate ["a"] (.overwrite (.leaf (.bool true))), .ackWrite 0 "ok"] = some last ∧
    ∀ c ∈ last.views, c.2.cachedServerSnap.isFullyInitialized = true ∨
      (∃ write ∈ last.pendingWrites, write.1 <+: c.1) → last.Shown c.1 c.2 := by
  have hkeys : ∀ k ∈ ["a"], isPlainKey k = true := by decide
  exact exists_exec_of_allowed NodeKeys.compare .empty <|
    Run.guarded_cons hkeys rfl <| Run.guarded_cons ⟨hkeys, .leaf _, rfl⟩ rfl <|
      Run.guarded_cons ⟨hkeys, .leaf _, by simp⟩ rfl <|
        Run.guarded_cons (Or.inr ⟨_, _, rfl, rfl, fun _ _ => rfl⟩) rfl trivial

omit [Std.TransCmp stringComparator] in
/-- A complete view without pending writes shows the server's data. -/
theorem leaves_of_inStep (h : self.InStep stringComparator K) (hnone : self.pendingWrites = [])
    {c : FPath × FSyncPoint} (hc : c ∈ self.views)
    (hcomplete : c.2.cachedServerSnap.isFullyInitialized = true) :
    c.2.cachedEventSnap.node.WF ∧
      c.2.cachedEventSnap.node.leaves = self.serverData.leaves.sub c.1 := by
  have hview := (h.mirrors.tree.points.everywhere_iff hK.plain.valid).1 h.mirrors.tree.views c hc
  obtain ⟨-, hevent, -⟩ := shown_of_inStep hK h hc (Or.inl hcomplete)
  rw [expected, hnone] at hevent
  refine ⟨hview.synced.wf.event, ?_⟩
  rw [Node.sub_leaves _ (isNegativeZero_of_mem_views hK h hc)]
  exact (hview.synced.wf.event.isEqual_iff (h.wf.getChild c.1)).1 hevent

/-- **Clients agree** once nothing is on its way: complete views of one path show the same. -/
theorem exists_exec_agree {serverData serverData' : Node} (hdata : serverData.WF)
    (hdata' : serverData'.WF) {events events' : List FSessionEvent}
    (hevents : Run.Guarded (step stringComparator) (Allowed stringComparator K)
      (start serverData) events)
    (hevents' : Run.Guarded (step stringComparator) (Allowed stringComparator K)
      (start serverData') events') :
    ∃ last last', Run.exec (step stringComparator) (start serverData) events = some last ∧
      Run.exec (step stringComparator) (start serverData') events' = some last' ∧
      (last.serverData.isEqual last'.serverData = true → last.pendingWrites = [] →
        last'.pendingWrites = [] → ∀ path view view', (path, view) ∈ last.views →
          (path, view') ∈ last'.views → view.cachedServerSnap.isFullyInitialized = true →
            view'.cachedServerSnap.isFullyInitialized = true →
              view.cachedEventSnap.node.isEqual view'.cachedEventSnap.node = true) := by
  have hrun := fun {serverData : Node} (hdata : serverData.WF) {events : List FSessionEvent}
    (hevents : Run.Guarded (step stringComparator) (Allowed stringComparator K)
      (start serverData) events) => Run.exists_exec_of_guarded
    (fun _ _ h hevent => exists_step_of_allowed hK h hevent)
    ⟨FRepo.told_init, FRepo.mirrors_init, hdata⟩ hevents
  obtain ⟨last, hlast, hinStep⟩ := hrun hdata hevents
  obtain ⟨last', hlast', hinStep'⟩ := hrun hdata' hevents'
  refine ⟨last, last', hlast, hlast', fun hsame hnone hnone' path view view' hview hview'
    hcomplete hcomplete' => ?_⟩
  obtain ⟨hWF, hleaves⟩ := leaves_of_inStep hK hinStep hnone hview hcomplete
  obtain ⟨hWF', hleaves'⟩ := leaves_of_inStep hK hinStep' hnone' hview' hcomplete'
  rw [hWF.isEqual_iff hWF', hleaves, hleaves', (hinStep.wf.isEqual_iff hinStep'.wf).1 hsame]

omit [Std.TransCmp stringComparator] hK in
/-- One client writes, the other hears of it. -/
theorem exists_exec_agree_two : ∃ last last', Run.exec (step compare) (start .empty)
    [.addEventRegistration ["a"], .set ["a"] (.leaf (.bool true)),
      .onDataUpdate ["a"] (.overwrite (.leaf (.bool true))), .ackWrite 0 "ok"] = some last ∧
    Run.exec (step compare) (start .empty) [.addEventRegistration ["a"],
      .onDataUpdate ["a"] (.overwrite (.leaf (.bool true)))] = some last' ∧
    (last.serverData.isEqual last'.serverData = true → last.pendingWrites = [] →
      last'.pendingWrites = [] → ∀ path view view', (path, view) ∈ last.views →
        (path, view') ∈ last'.views → view.cachedServerSnap.isFullyInitialized = true →
          view'.cachedServerSnap.isFullyInitialized = true →
            view.cachedEventSnap.node.isEqual view'.cachedEventSnap.node = true) := by
  have hkeys : ∀ k ∈ ["a"], isPlainKey k = true := by decide
  exact exists_exec_agree NodeKeys.compare .empty .empty
    (Run.guarded_cons hkeys rfl <| Run.guarded_cons ⟨hkeys, .leaf _, rfl⟩ rfl <|
      Run.guarded_cons ⟨hkeys, .leaf _, by simp⟩ rfl <|
        Run.guarded_cons (Or.inr ⟨_, _, rfl, rfl, fun _ _ => rfl⟩) rfl trivial)
    (Run.guarded_cons hkeys rfl <| Run.guarded_cons ⟨hkeys, .leaf _, by simp⟩ rfl trivial)

end FSession
end Teamstuff
