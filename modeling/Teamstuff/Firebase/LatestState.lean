/-
# What a transaction reads

`latestStateAtPath:excludeWriteIds:` in `FRepo.m`, which a transaction reads.  It lays the pending
writes over the server's data once more, without those of the transactions that are excluded, and
only at the path: `layerTreeFromWrites:filter:treeRoot:` takes from each write what concerns the
path.

A write is taken as it is seen from the path (`LeafTree.seenFrom`), so that the transaction reads
what the writes that are not excluded make of the server's data (`exists_exec_latestStateAtPath`),
but for one kind.  Of a merge above the path it takes the node that the merge has at the path, and
then goes down in it for all but the first of the names that it has already gone down
(`FRepo.latestStateAtPath_of_mergeAbove`).

The transactions themselves are not modelled.
-/

import Teamstuff.Firebase.Repo

namespace Teamstuff

/-! ### From a path -/

/-- No merge of something further up. -/
def FWriteRecord.NoMergeAbove (treeRoot : FPath) (record : FWriteRecord) : Prop :=
  ∀ merge, record.data = .merge merge → record.path <+: treeRoot → treeRoot <+: record.path

/-- What is seen of the writes from a path. -/
def seenWrites (treeRoot : FPath) (records : List FWriteRecord) :
    List (FPath × LeafTree String LeafValue) :=
  (pendingWrites records).filterMap fun w => LeafTree.seenFrom treeRoot w.1 w.2

theorem seenWrites_cons (treeRoot : FPath) (record : FWriteRecord) (records : List FWriteRecord) :
    seenWrites treeRoot (record :: records) =
      seenWrites treeRoot [record] ++ seenWrites treeRoot records := by
  rw [seenWrites, ← List.singleton_append, pendingWrites_append, List.filterMap_append]
  rfl

/-- Of a write on another branch nothing is seen. -/
theorem seenWrites_of_apart {treeRoot : FPath} {record : FWriteRecord}
    (h : LeafTree.Apart record.path treeRoot) : seenWrites treeRoot [record] = [] := by
  rw [seenWrites, pendingWrites_singleton, List.filterMap_eq_nil_iff]
  intro w hw
  obtain ⟨write, hwrite, rfl⟩ := List.mem_map.1 hw
  obtain ⟨rest, hrest⟩ := record.path_prefix_of_mem hwrite
  rw [← hrest]
  exact LeafTree.seenFrom_of_apart (h.append_right rest) _

namespace FWriteTree

variable {stringComparator : NSComparator} {K : String → Prop} {self : FWriteTree}
  {treeRoot : FPath}

section Layers

variable [Std.TransCmp stringComparator] (hK : NodeKeys stringComparator K)
  (hroot : ∀ k ∈ treeRoot, K k)

include hK hroot

/-- **Layering a record** lays what is seen of it from the root of the tree. -/
theorem patch_layerRecord_treeRoot {compoundWrite : FCompoundWrite}
    (h : compoundWrite.WF stringComparator K) {record : FWriteRecord}
    (hrecord : record.WF stringComparator K)
    (habove : record.NoMergeAbove treeRoot) :
    (layerRecord stringComparator treeRoot compoundWrite record).WF stringComparator K ∧
      (layerRecord stringComparator treeRoot compoundWrite record).patch =
        compoundWrite.patch.putAll (seenWrites treeRoot [record]) := by
  have hseen : seenWrites treeRoot [record] = record.writes.filterMap fun write =>
      LeafTree.seenFrom treeRoot write.1 write.2.leaves := by
    rw [seenWrites, pendingWrites_singleton, List.filterMap_map]
    rfl
  have hwrites := fun write (hwrite : write ∈ record.writes) => hrecord.of_mem hK hwrite
  rw [layerRecord]
  by_cases hbelow : treeRoot.contains record.path = true
  · -- what is written is within the tree
    obtain ⟨rest, hrest⟩ : ∃ rest, rest = relativePathFrom treeRoot record.path
      (FPath.contains_iff.1 hbelow) := ⟨_, rfl⟩
    have hpath : record.path = treeRoot ++ rest := hrest ▸ (append_relativePathFrom ..).symm
    have hrestK : ∀ k ∈ rest, K k := fun k hk =>
      hrecord.1 k (hpath ▸ List.mem_append_right treeRoot hk)
    rw [hseen]
    rw [FWriteRecord.writes] at hwrites ⊢
    cases hdata : record.data with
    | overwrite node =>
        simp only [hdata] at hwrites ⊢
        rw [dif_pos hbelow, ← hrest, hpath]
        have hnode := (hwrites _ List.mem_cons_self).2
        refine ⟨h.addWrite hK.plain hnode hrestK, ?_⟩
        rw [FCompoundWrite.patch_addWrite hK h hnode hrestK, List.filterMap_cons,
          LeafTree.seenFrom_append_right]
        rfl
    | merge merge =>
        simp only [hdata] at hwrites ⊢
        have hmerge : ∀ write ∈ merge.enumerateWrites.map fun write => (rest ++ write.1, write.2),
            (∀ k ∈ write.1, K k) ∧ write.2.WF := fun write hwrite => by
          obtain ⟨w, hw, rfl⟩ := List.mem_map.1 hwrite
          obtain ⟨hkeys, hnode⟩ := hwrites _ (List.mem_map_of_mem hw)
          refine ⟨fun k hk => hkeys k ?_, hnode⟩
          rw [hpath, List.append_assoc]
          exact List.mem_append_right treeRoot hk
        rw [dif_pos hbelow, ← hrest, FCompoundWrite.addCompoundWrite_eq_foldl]
        obtain ⟨hWF, hpatch⟩ := FCompoundWrite.patch_foldl_addWrite hK h hmerge
        refine ⟨hWF, hpatch.trans (congrArg compoundWrite.patch.putAll ?_)⟩
        rw [List.map_map, List.filterMap_map, ← List.filterMap_eq_map]
        refine List.filterMap_congr fun w _ => ?_
        change some _ = LeafTree.seenFrom treeRoot (record.path ++ w.1) w.2.leaves
        rw [hpath, List.append_assoc, LeafTree.seenFrom_append_right]
        rfl
  · have hnot : ¬ treeRoot <+: record.path := fun hprefix => hbelow (FPath.contains_iff.2 hprefix)
    have hapart : ¬ record.path <+: treeRoot → seenWrites treeRoot [record] = [] := fun habove =>
      seenWrites_of_apart ⟨habove, hnot⟩
    cases hdata : record.data with
    | overwrite node =>
        dsimp only
        rw [dif_neg hbelow]
        split_ifs with habove
        · -- the tree is within what is written
          obtain ⟨rest, hrest⟩ : ∃ rest, rest = relativePathFrom record.path treeRoot
            (FPath.contains_iff.1 habove) := ⟨_, rfl⟩
          have hpath : treeRoot = record.path ++ rest := hrest ▸ (append_relativePathFrom ..).symm
          have hzeros := hK.plain.notZero fun k hk =>
            hroot k (hpath ▸ List.mem_append_right record.path hk)
          rw [FWriteRecord.writes, hdata] at hwrites
          have hnode := ((hwrites _ List.mem_cons_self).2).getChild rest
          have hnil : ∀ k ∈ ([] : FPath), K k := fun _ hk => absurd hk List.not_mem_nil
          rw [← hrest]
          refine ⟨h.addWrite hK.plain hnode hnil, ?_⟩
          rw [FCompoundWrite.patch_addWrite hK h hnode hnil, hseen, FWriteRecord.writes, hdata]
          dsimp only
          rw [List.filterMap_cons, hpath, LeafTree.seenFrom_append_left,
            Node.sub_leaves node hzeros]
          rfl
        · refine ⟨h, ?_⟩
          rw [hapart fun hprefix => habove (FPath.contains_iff.2 hprefix)]
          rfl
    | merge merge =>
        have habove' : ¬ record.path <+: treeRoot := fun hprefix =>
          hnot (habove merge hdata hprefix)
        dsimp only
        rw [dif_neg hbelow, dif_neg fun hprefix => habove' (FPath.contains_iff.1 hprefix),
          hapart habove']
        exact ⟨h, rfl⟩

theorem patch_foldl_layerRecord_treeRoot {records : List FWriteRecord}
    {compoundWrite : FCompoundWrite}
    (h : compoundWrite.WF stringComparator K)
    (hrecords : ∀ record ∈ records, record.WF stringComparator K ∧
      record.NoMergeAbove treeRoot) :
    (records.foldl (layerRecord stringComparator treeRoot) compoundWrite).WF stringComparator K ∧
      (records.foldl (layerRecord stringComparator treeRoot) compoundWrite).patch =
        compoundWrite.patch.putAll (seenWrites treeRoot records) := by
  induction records generalizing compoundWrite with
  | nil => exact ⟨h, rfl⟩
  | cons record records ih =>
      obtain ⟨hrecord, habove⟩ := hrecords record List.mem_cons_self
      obtain ⟨hWF, hpatch⟩ := patch_layerRecord_treeRoot hK hroot h hrecord habove
      obtain ⟨hWF', hpatch'⟩ := ih hWF fun r hr => hrecords r (List.mem_cons_of_mem record hr)
      refine ⟨hWF', hpatch'.trans ?_⟩
      rw [hpatch, ← LeafTree.putAll_append, ← seenWrites_cons]

end Layers

/-- The records on other branches, which the filter leaves out, would not be seen. -/
theorem seenWrites_filter (keep : FWriteRecord → Bool) (records : List FWriteRecord) :
    seenWrites treeRoot (records.filter fun record =>
        keep record && (record.path.contains treeRoot || treeRoot.contains record.path)) =
      seenWrites treeRoot (records.filter keep) := by
  induction records with
  | nil => rfl
  | cons record records ih =>
      rw [List.filter_cons, List.filter_cons]
      cases hkeep : keep record with
      | false => exact ih
      | true =>
          rw [Bool.true_and, if_pos rfl, seenWrites_cons]
          split_ifs with hbranch
          · rw [seenWrites_cons, ih]
          · rw [Bool.or_eq_true, FPath.contains_iff, FPath.contains_iff, not_or] at hbranch
            rw [seenWrites_of_apart hbranch, List.nil_append, ih]

/-- The pending writes without those that are excluded. -/
def retained (self : FWriteTree) (writeIdsToExclude : Option (List ℤ)) : List FWriteRecord :=
  self.allWrites.filter fun record => writeIdsToExclude.all fun ids => !ids.contains record.writeId

/-- **The event cache without some writes** is what the others make of the server's. -/
theorem exists_calculateCompleteEventCacheAtPath [Std.TransCmp stringComparator]
    (hK : NodeKeys stringComparator K) (hroot : ∀ k ∈ treeRoot, K k)
    (h : self.WF stringComparator K) {writeIdsToExclude : Option (List ℤ)}
    (habove : ∀ record ∈ self.retained writeIdsToExclude, record.NoMergeAbove treeRoot)
    {completeServerCache : Option Node} (hserver : ∀ node ∈ completeServerCache, node.WF) :
    ∃ node, self.calculateCompleteEventCacheAtPath stringComparator treeRoot completeServerCache
        writeIdsToExclude true = some node ∧ node.WF ∧
      node.leaves = (((∅ : LeafTree.Patch String LeafValue).putAll
        (pendingWrites (self.retained writeIdsToExclude))).within treeRoot).act
          (completeServerCache.getD .empty).leaves := by
  rw [calculateCompleteEventCacheAtPath]
  simp only [Bool.not_true, Bool.and_false, Bool.false_and, Bool.or_true, Bool.true_and,
    Bool.false_eq_true, if_false]
  refine ⟨_, rfl, ?_⟩
  have hnode : (completeServerCache.getD .empty).WF := by
    cases completeServerCache with
    | none => exact .empty
    | some node => exact hserver node rfl
  have hkept : ∀ record ∈ self.allWrites.filter fun record =>
      (writeIdsToExclude.all fun ids => !ids.contains record.writeId) &&
        (record.path.contains treeRoot || treeRoot.contains record.path),
      record.WF stringComparator K ∧ record.NoMergeAbove treeRoot := by
    intro record hrecord
    obtain ⟨hmem, hfilter⟩ := List.mem_filter.1 hrecord
    exact ⟨h.record record hmem,
      habove record (List.mem_filter.2 ⟨hmem, (Bool.and_eq_true_iff.1 hfilter).1⟩)⟩
  rw [layerTreeFromWrites]
  obtain ⟨hWF, hpatch⟩ := patch_foldl_layerRecord_treeRoot hK hroot FCompoundWrite.WF.emptyWrite hkept
  refine ⟨hWF.applyToNode hK.plain hnode, ?_⟩
  rw [FCompoundWrite.leaves_applyToNode hK hWF hnode, hpatch, FCompoundWrite.patch_emptyWrite,
    seenWrites_filter, LeafTree.within_putAll, LeafTree.within_empty]
  rfl

/-- Of a merge above the path that is the newest write, the node that it has at the path is read
once more. -/
theorem calculateCompleteEventCacheAtPath_of_mergeAbove {before : List FWriteRecord}
    {path rest : FPath} {k : String} {merge : FCompoundWrite} {writeId : ℤ} {visible : Bool}
    (hwrites : self.allWrites = before ++ [⟨path, .merge merge, writeId, visible⟩]) {node : Node}
    (hnode : merge.completeNodeAtPath stringComparator (k :: rest) = some node)
    {writeIdsToExclude : Option (List ℤ)} (hkept : ∀ ids ∈ writeIdsToExclude, writeId ∉ ids)
    (completeServerCache : Option Node) :
    self.calculateCompleteEventCacheAtPath stringComparator (path ++ k :: rest)
      completeServerCache writeIdsToExclude true = some (node.getChild rest) := by
  have habove : path <+: path ++ k :: rest := List.prefix_append ..
  have hnot : ¬ (path ++ k :: rest) <+: path := fun h => by
    have := h.length_le
    rw [List.length_append, List.length_cons] at this
    omega
  have hrelative : relativePathFrom path (path ++ k :: rest) habove = k :: rest :=
    List.append_cancel_left (append_relativePathFrom ..)
  have hfilter : ((writeIdsToExclude.all fun ids => !ids.contains writeId) &&
      (path.contains (path ++ k :: rest) || FPath.contains (path ++ k :: rest) path)) = true := by
    rw [Bool.and_eq_true, Bool.or_eq_true, FPath.contains_iff]
    refine ⟨?_, Or.inl habove⟩
    cases writeIdsToExclude with
    | none => rfl
    | some ids => simpa using hkept ids rfl
  have hlayer : ∀ compoundWrite, layerRecord stringComparator (path ++ k :: rest) compoundWrite
      ⟨path, .merge merge, writeId, visible⟩ =
        compoundWrite.addWrite stringComparator (node.getChild rest) [] := by
    intro compoundWrite
    rw [layerRecord]
    dsimp only
    rw [dif_neg (mt FPath.contains_iff.1 hnot), dif_pos (FPath.contains_iff.2 habove), hrelative,
      List.isEmpty_cons, if_neg Bool.false_ne_true, hnode, List.tail_cons]
  rw [calculateCompleteEventCacheAtPath]
  simp only [Bool.not_true, Bool.and_false, Bool.false_and, Bool.or_true, Bool.true_and,
    Bool.false_eq_true, if_false]
  rw [layerTreeFromWrites, hwrites, List.filter_append, List.filter_singleton]
  dsimp only
  rw [hfilter, cond_true, List.foldl_concat, hlayer]
  -- a write at the root of the tree leaves nothing of the others
  rfl

end FWriteTree

/-! ### The latest state -/

variable (stringComparator : NSComparator)

/-- `calcCompleteEventCacheAtPath:excludeWriteIds:`. -/
def FSyncTree.calcCompleteEventCacheAtPath (self : FSyncTree) (path : FPath)
    (writeIdsToExclude : Option (List ℤ)) : Option Node :=
  self.pendingWriteTree.calculateCompleteEventCacheAtPath stringComparator path
    (FSyncTree.completeServerCacheOnPath stringComparator self.syncPointTree path)
      writeIdsToExclude true

/-- `latestStateAtPath:excludeWriteIds:`. -/
def FRepo.latestStateAtPath (self : FRepo) (path : FPath)
    (writeIdsToExclude : Option (List ℤ)) : Node :=
  (self.serverSyncTree.calcCompleteEventCacheAtPath stringComparator path
    writeIdsToExclude).getD .empty

/-- **A transaction below a merge** reads the node that the merge has at the path at a place
further down, if the path goes down from the merge by more than one name. -/
theorem FRepo.latestStateAtPath_of_mergeAbove {stringComparator} {self : FRepo}
    (before : List FWriteRecord) (path : FPath) {rest : FPath} {k : String}
    {merge : FCompoundWrite} {writeId : ℤ} {visible : Bool}
    (hwrites : self.serverSyncTree.pendingWriteTree.allWrites =
      before ++ [⟨path, .merge merge, writeId, visible⟩]) {node : Node}
    (hnode : merge.completeNodeAtPath stringComparator (k :: rest) = some node)
    {writeIdsToExclude : Option (List ℤ)} (hkept : ∀ ids ∈ writeIdsToExclude, writeId ∉ ids) :
    self.latestStateAtPath stringComparator (path ++ k :: rest) writeIdsToExclude =
      node.getChild rest := by
  rw [latestStateAtPath, FSyncTree.calcCompleteEventCacheAtPath,
    FWriteTree.calculateCompleteEventCacheAtPath_of_mergeAbove hwrites hnode hkept]
  rfl

/-- The app merges `a/b = {c: true}` at the root: what it has put at `a/b` is read there at
`b`, where it has nothing. -/
theorem FRepo.latestStateAtPath_of_mergeAbove_two : ∃ repo events,
    FRepo.init.update compare [] (FCompoundWrite.emptyWrite.addWrite compare
      (.children [("b", .children [("c", .leaf (.bool true))])]) ["a"]) = some (repo, events) ∧
    repo.latestStateAtPath compare ["a", "b"] none =
      (Node.children [("c", .leaf (.bool true))]).getChild ["b"] := by
  have hnone : ∀ ids ∈ (none : Option (List ℤ)), (0 : ℤ) ∉ ids := fun _ hids => by cases hids
  exact ⟨_, _, rfl, latestStateAtPath_of_mergeAbove [] [] rfl rfl hnone⟩

namespace FSession

variable {stringComparator} [Std.TransCmp stringComparator] {K : String → Prop}
  (hK : NodeKeys stringComparator K) {self : FSession}

include hK

/-- **The latest state** in a session that is in step with the server. -/
theorem isEqual_latestStateAtPath (h : self.InStep stringComparator K) {path : FPath}
    (hpath : ∀ k ∈ path, K k) (hknown : (FSyncTree.completeServerCacheOnPath stringComparator
      self.repo.serverSyncTree.syncPointTree path).isSome = true)
    (writeIdsToExclude : Option (List ℤ)) :
    (self.repo.latestStateAtPath stringComparator path writeIdsToExclude).isEqual
      ((self.serverData.updateAll ((self.repo.serverSyncTree.pendingWriteTree.retained
        writeIdsToExclude).flatMap FWriteRecord.writes)).getChild path) = true := by
  have htree := h.mirrors.tree
  obtain ⟨serverCache, hcache⟩ := Option.isSome_iff_exists.1 hknown
  have hserver := FSyncTree.leaves_completeServerCacheOnPath hK htree.points htree.views hpath
    hcache
  have hzeros := hK.plain.notZero hpath
  rw [List.nil_append, Node.sub_leaves _ hzeros] at hserver
  have hserverWF := FSyncTree.WF_completeServerCacheOnPath htree.points
    (htree.views.mono fun _ _ hview => hview.synced.wf) hcache
  have hcacheWF : ∀ node ∈ some serverCache, node.WF := fun node hnode =>
    Option.some.inj hnode ▸ hserverWF
  have hmem : ∀ record ∈ self.repo.serverSyncTree.pendingWriteTree.retained writeIdsToExclude,
      record ∈ self.repo.serverSyncTree.pendingWriteTree.allWrites := fun record hrecord =>
    List.mem_of_mem_filter hrecord
  have habove : ∀ record ∈ self.repo.serverSyncTree.pendingWriteTree.retained writeIdsToExclude,
      record.NoMergeAbove path := by
    intro record hrecord merge hdata
    obtain ⟨node, hset, -⟩ := htree.sets record (hmem record hrecord)
    rw [hset] at hdata
    cases hdata
  obtain ⟨node, hnode, hWF, hleaves⟩ :=
    FWriteTree.exists_calculateCompleteEventCacheAtPath hK hpath htree.writes habove hcacheWF
  generalize self.repo.serverSyncTree.pendingWriteTree.retained writeIdsToExclude = retained at *
  have hsets := fun record hrecord => htree.sets record (hmem record hrecord)
  have hrecords := fun record hrecord => htree.writes.record record (hmem record hrecord)
  -- the writes that are not excluded, made on the server's data
  have hwrites : ∀ write ∈ retained.flatMap FWriteRecord.writes,
      (∀ k ∈ write.1, isPlainKey k = true) ∧ write.2.WF := by
    intro write hwrite
    obtain ⟨record, hrecord, hwrite⟩ := List.mem_flatMap.1 hwrite
    obtain ⟨hkeys, hnode⟩ := (hrecords record hrecord).of_mem hK hwrite
    exact ⟨fun k hk => hK.plain k (hkeys k hk), hnode⟩
  obtain ⟨hexpected, hexpectedLeaves⟩ := Node.leaves_updateAll h.wf hwrites
  have hclear : ∀ w ∈ Teamstuff.pendingWrites retained, self.serverData.leaves.Clear w.1 w.2 :=
    fun w hw hempty => absurd hempty (FWriteRecord.ne_empty_of_mem_pendingWrites hsets hrecords hw)
  rw [FRepo.latestStateAtPath, FSyncTree.calcCompleteEventCacheAtPath, hcache, hnode,
    Option.getD_some, hWF.isEqual_iff (hexpected.getChild path), hleaves,
    ← Node.sub_leaves _ hzeros, hexpectedLeaves, Option.getD_some, hserver,
    ← Node.sub_leaves _ hzeros, ← LeafTree.sub_act, LeafTree.act_putAll hclear, LeafTree.act_empty,
    Teamstuff.pendingWrites, List.map_flatMap]

/-- **A transaction reads** what the writes that are not excluded make of the server's data, at
every path for which some of that data is complete. -/
theorem exists_exec_latestStateAtPath {serverData : Node} (hdata : serverData.WF)
    {events : List FSessionEvent} (hevents : Run.Guarded (step stringComparator)
      (Allowed stringComparator K) (start serverData) events) :
    ∃ last, Run.exec (step stringComparator) (start serverData) events = some last ∧
      ∀ path : FPath, (∀ k ∈ path, K k) → (FSyncTree.completeServerCacheOnPath stringComparator
          last.repo.serverSyncTree.syncPointTree path).isSome = true →
        ∀ writeIdsToExclude : Option (List ℤ),
          (last.repo.latestStateAtPath stringComparator path writeIdsToExclude).isEqual
            ((last.serverData.updateAll ((last.repo.serverSyncTree.pendingWriteTree.retained
              writeIdsToExclude).flatMap FWriteRecord.writes)).getChild path) = true := by
  obtain ⟨last, hlast, hinStep⟩ := Run.exists_exec_of_guarded
    (fun _ _ h hevent => exists_step_of_allowed hK h hevent)
    ⟨FRepo.told_init, FRepo.mirrors_init, hdata⟩ hevents
  exact ⟨last, hlast, fun path hpath hknown ids =>
    isEqual_latestStateAtPath hK hinStep hpath hknown ids⟩

omit [Std.TransCmp stringComparator] hK in
/-- A transaction beside a write that is on its way. -/
theorem exists_exec_latestStateAtPath_set : ∃ last, Run.exec (step compare) (start .empty)
    [.addEventRegistration ["a"], .onDataUpdate ["a"] (.overwrite (.leaf (.bool false))),
      .set ["a"] (.leaf (.bool true))] = some last ∧
    ∀ path : FPath, (∀ k ∈ path, isPlainKey k = true) →
        (FSyncTree.completeServerCacheOnPath compare
          last.repo.serverSyncTree.syncPointTree path).isSome = true →
      ∀ writeIdsToExclude : Option (List ℤ),
        (last.repo.latestStateAtPath compare path writeIdsToExclude).isEqual
          ((last.serverData.updateAll ((last.repo.serverSyncTree.pendingWriteTree.retained
            writeIdsToExclude).flatMap FWriteRecord.writes)).getChild path) = true := by
  have hkeys : ∀ k ∈ ["a"], isPlainKey k = true := by decide
  exact exists_exec_latestStateAtPath NodeKeys.compare .empty <|
    Run.guarded_cons hkeys rfl <| Run.guarded_cons ⟨hkeys, .leaf _, by simp⟩ rfl <|
      Run.guarded_cons ⟨hkeys, .leaf _, rfl⟩ rfl trivial

end FSession
end Teamstuff
