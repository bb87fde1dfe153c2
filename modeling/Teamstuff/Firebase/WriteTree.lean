/-
# The tree of pending writes

`FWriteTree.m` and `FWriteRecord.m`: the writes of the user that the server has not
acknowledged.  They are kept in order (`allWrites`), and what the visible ones make of the
data is kept beside them as one compound write (`visibleWrites`).  A new write is added to
both.  When a write is acknowledged it is taken out of the list, and `visibleWrites` is left
alone, recalculated, or rid of the paths of the write, whichever a comparison of paths says
is enough.

`FWriteTree.WF` is the invariant: `visibleWrites` is the pending writes laid over one
another in order.  A removal keeps it unless the write lies below an earlier one or a merge
reaches around it (`FWriteTree.Removable`); of the writes the app makes, which are no
merges, the oldest can always be removed.
-/

import Teamstuff.Firebase.CompoundWrite

namespace Teamstuff

/-- What a write record writes. -/
inductive FWriteData
  | overwrite (node : Node)
  | merge (changedChildren : FCompoundWrite)

/-- `FWriteRecord`. -/
structure FWriteRecord where
  path : FPath
  data : FWriteData
  writeId : ℤ
  visible : Bool

/-- The single writes of a record. -/
def FWriteRecord.writes (self : FWriteRecord) : List (FPath × Node) :=
  match self.data with
  | .overwrite node => [(self.path, node)]
  | .merge changedChildren =>
      changedChildren.enumerateWrites.map fun write => (self.path ++ write.1, write.2)

/-- `record:containsPath:`. -/
def FWriteRecord.containsPath (self : FWriteRecord) (path : FPath) : Bool :=
  match self.data with
  | .overwrite _ => self.path.contains path
  | .merge changedChildren =>
      changedChildren.enumerateWrites.any fun write => (self.path ++ write.1).contains path

/-- `FWriteTree`. -/
structure FWriteTree where
  visibleWrites : FCompoundWrite
  allWrites : List FWriteRecord
  lastWriteId : ℤ

namespace FWriteTree

/-- `init`. -/
def init : FWriteTree := ⟨.emptyWrite, [], -1⟩

variable (stringComparator : NSComparator)

/-- `addOverwriteAtPath:newData:writeId:isVisible:`; `none` stands for the assertion that fails
for an older write. -/
def addOverwriteAtPath (self : FWriteTree) (path : FPath) (newData : Node) (writeId : ℤ)
    (visible : Bool) : Option FWriteTree :=
  if self.lastWriteId < writeId then
    some
      { visibleWrites :=
          if visible then self.visibleWrites.addWrite stringComparator newData path
          else self.visibleWrites
        allWrites := self.allWrites ++ [⟨path, .overwrite newData, writeId, visible⟩]
        lastWriteId := writeId }
  else none

/-- `addMergeAtPath:changedChildren:writeId:`. -/
def addMergeAtPath (self : FWriteTree) (path : FPath) (changedChildren : FCompoundWrite)
    (writeId : ℤ) : Option FWriteTree :=
  if self.lastWriteId < writeId then
    some
      { visibleWrites := self.visibleWrites.addCompoundWrite stringComparator changedChildren path
        allWrites := self.allWrites ++ [⟨path, .merge changedChildren, writeId, true⟩]
        lastWriteId := writeId }
  else none

/-- `writeForId:`. -/
def writeForId (self : FWriteTree) (writeId : ℤ) : Option FWriteRecord :=
  self.allWrites.find? fun record => record.writeId == writeId

/-- `removeAllWrites`. -/
def removeAllWrites (self : FWriteTree) : FWriteTree × List FWriteRecord :=
  ({ self with visibleWrites := .emptyWrite, allWrites := [] }, self.allWrites)

/-- One record in `layerTreeFromWrites:`. -/
def layerRecord (treeRoot : FPath) (compoundWrite : FCompoundWrite) (record : FWriteRecord) :
    FCompoundWrite :=
  match record.data with
  | .overwrite overwrite =>
      if h : treeRoot.contains record.path = true then
        compoundWrite.addWrite stringComparator overwrite
          (relativePathFrom treeRoot record.path (FPath.contains_iff.1 h))
      else if h : record.path.contains treeRoot = true then
        let relativePath := relativePathFrom record.path treeRoot (FPath.contains_iff.1 h)
        compoundWrite.addWrite stringComparator (overwrite.getChild relativePath) []
      else compoundWrite
  | .merge merge =>
      if h : treeRoot.contains record.path = true then
        compoundWrite.addCompoundWrite stringComparator merge
          (relativePathFrom treeRoot record.path (FPath.contains_iff.1 h))
      else if h : record.path.contains treeRoot = true then
        let relativePath := relativePathFrom record.path treeRoot (FPath.contains_iff.1 h)
        if relativePath.isEmpty then compoundWrite.addCompoundWrite stringComparator merge []
        else
          match merge.completeNodeAtPath stringComparator relativePath with
          | some child =>
              compoundWrite.addWrite stringComparator (child.getChild relativePath.tail) []
          | none => compoundWrite
      else compoundWrite

/-- `layerTreeFromWrites:filter:treeRoot:`. -/
def layerTreeFromWrites (writes : List FWriteRecord) (filter : FWriteRecord → Bool)
    (treeRoot : FPath) : FCompoundWrite :=
  (writes.filter filter).foldl (layerRecord stringComparator treeRoot) .emptyWrite

/-- `resetTree`; the default filter keeps every record. -/
def resetTree (self : FWriteTree) : FWriteTree where
  visibleWrites := layerTreeFromWrites stringComparator self.allWrites (fun _ => true) []
  allWrites := self.allWrites
  lastWriteId := (self.allWrites.getLast?.map FWriteRecord.writeId).getD (-1)

/-- One turn of the loop in `removeWriteId:`, on `removedWriteWasVisible` and
`removedWriteOverlapsWithOtherWrites`. -/
def overlapStep (writeToRemove : FWriteRecord) (index : ℕ) (flags : Bool × Bool)
    (entry : FWriteRecord × ℕ) : Bool × Bool :=
  if flags.1 && entry.1.visible then
    if index ≤ entry.2 && entry.1.containsPath writeToRemove.path then (false, flags.2)
    else if writeToRemove.path.contains entry.1.path then (flags.1, true)
    else flags
  else flags

/-- `removeWriteId:`, and whether the views have to be evaluated again; `none` stands for
the exception that is raised if there is no such write. -/
def removeWriteId (self : FWriteTree) (writeId : ℤ) : Option (FWriteTree × Bool) :=
  match self.allWrites.findIdx? fun record => record.writeId == writeId with
  | none => none
  | some index =>
      match self.allWrites[index]? with
      | none => none
      | some writeToRemove =>
          let removed := { self with allWrites := self.allWrites.eraseIdx index }
          let flags := removed.allWrites.zipIdx.reverse.foldl (overlapStep writeToRemove index)
            (writeToRemove.visible, false)
          if !flags.1 then some (removed, false)
          else if flags.2 then some (removed.resetTree stringComparator, true)
          else
            let visibleWrites := match writeToRemove.data with
              | .overwrite _ =>
                  self.visibleWrites.removeWriteAtPath stringComparator writeToRemove.path
              | .merge merge =>
                  merge.enumerateWrites.foldl
                    (fun visibleWrites write => visibleWrites.removeWriteAtPath stringComparator
                      (writeToRemove.path ++ write.1)) self.visibleWrites
            some ({ removed with visibleWrites }, true)

end FWriteTree

/-! ### Records -/

namespace FWriteRecord

variable (stringComparator : NSComparator) (K : String → Prop)

/-- The keys of the path are in `K`, and what is written is well formed. -/
def WF (self : FWriteRecord) : Prop :=
  (∀ k ∈ self.path, K k) ∧
    match self.data with
    | .overwrite node => node.WF
    | .merge changedChildren => changedChildren.WF stringComparator K

variable {stringComparator K} {self : FWriteRecord}

/-- A record contains a path if it has a write at the path or above. -/
theorem containsPath_iff {path : FPath} :
    self.containsPath path = true ↔ ∃ write ∈ self.writes, write.1 <+: path := by
  rw [containsPath, writes]
  cases self.data with
  | overwrite node => simp [FPath.contains_iff]
  | merge changedChildren =>
      simp only [List.any_eq_true, FPath.contains_iff, List.mem_map]
      constructor
      · rintro ⟨write, hwrite, hpath⟩
        exact ⟨_, ⟨write, hwrite, rfl⟩, hpath⟩
      · rintro ⟨_, ⟨write, hwrite, rfl⟩, hpath⟩
        exact ⟨write, hwrite, hpath⟩

/-- The writes of a record are at its path or below. -/
theorem path_prefix_of_mem {write : FPath × Node} (h : write ∈ self.writes) :
    self.path <+: write.1 := by
  rw [writes] at h
  cases hdata : self.data with
  | overwrite node =>
      simp only [hdata, List.mem_singleton] at h
      rw [h]
  | merge changedChildren =>
      simp only [hdata, List.mem_map] at h
      obtain ⟨w, _, rfl⟩ := h
      exact List.prefix_append self.path w.1

variable (hK : NodeKeys stringComparator K)

include hK

/-- The writes of a record are well formed. -/
theorem WF.of_mem (h : self.WF stringComparator K) {write : FPath × Node}
    (hwrite : write ∈ self.writes) : (∀ k ∈ write.1, K k) ∧ write.2.WF := by
  obtain ⟨hpath, hdata⟩ := h
  rw [writes] at hwrite
  cases hd : self.data with
  | overwrite node =>
      simp only [hd, List.mem_singleton] at hdata hwrite
      rw [hwrite]
      exact ⟨hpath, hdata⟩
  | merge changedChildren =>
      simp only [hd, List.mem_map] at hdata hwrite
      obtain ⟨w, hw, rfl⟩ := hwrite
      obtain ⟨hwpath, hwnode⟩ := FCompoundWrite.WF.of_mem_enumerateWrites hK.plain hdata hw
      refine ⟨fun k hk => ?_, hwnode⟩
      rcases List.mem_append.1 hk with hk | hk
      · exact hpath k hk
      · exact hwpath k hk

/-- None of the writes of a record lies below another. -/
theorem WF.pairwise [Std.TransCmp stringComparator] (h : self.WF stringComparator K) :
    self.writes.Pairwise fun c d => LeafTree.Apart c.1 d.1 := by
  rw [writes]
  cases hd : self.data with
  | overwrite node => exact List.pairwise_singleton _ _
  | merge changedChildren =>
      have hdata := h.2
      simp only [hd] at hdata
      rw [List.pairwise_map]
      exact (FCompoundWrite.pairwise_enumerateWrites hK hdata).imp fun hapart =>
        hapart.append self.path

end FWriteRecord

/-- The single writes of a list of records, with what they write. -/
def pendingWrites (records : List FWriteRecord) : List (FPath × LeafTree String LeafValue) :=
  records.flatMap fun record => record.writes.map fun write => (write.1, write.2.leaves)

/-- The writes of two lists of records. -/
theorem pendingWrites_append (rs ss : List FWriteRecord) :
    pendingWrites (rs ++ ss) = pendingWrites rs ++ pendingWrites ss := List.flatMap_append

/-- The writes of one record. -/
theorem pendingWrites_singleton (r : FWriteRecord) :
    pendingWrites [r] = r.writes.map fun write => (write.1, write.2.leaves) := by
  rw [pendingWrites, List.flatMap_singleton]

/-- A pending write is one of a record. -/
theorem mem_pendingWrites {records : List FWriteRecord}
    {w : FPath × LeafTree String LeafValue} :
    w ∈ pendingWrites records ↔
      ∃ record ∈ records, ∃ write ∈ record.writes, w = (write.1, write.2.leaves) := by
  simp only [pendingWrites, List.mem_flatMap, List.mem_map, eq_comm]

/-! ### The invariant -/

namespace FWriteTree

variable {stringComparator : NSComparator} [Std.TransCmp stringComparator] {K : String → Prop}
  {self self' : FWriteTree}

/-- What the pending writes come to. -/
noncomputable def pending (self : FWriteTree) : LeafTree.Patch String LeafValue :=
  (∅ : LeafTree.Patch String LeafValue).putAll (pendingWrites self.allWrites)

variable (stringComparator K) in
/-- The visible writes are the pending writes, one laid over the other. -/
structure WF (tree : FWriteTree) : Prop where
  visibleWrites : tree.visibleWrites.WF stringComparator K
  record : ∀ record ∈ tree.allWrites, record.WF stringComparator K
  visible : ∀ record ∈ tree.allWrites, record.visible = true
  increasing : tree.allWrites.Pairwise fun r s => r.writeId < s.writeId
  last : ∀ record ∈ tree.allWrites, record.writeId ≤ tree.lastWriteId
  patch_eq : tree.visibleWrites.patch = tree.pending

omit [Std.TransCmp stringComparator] in
/-- A new write tree. -/
theorem WF.init : FWriteTree.init.WF stringComparator K where
  visibleWrites := .emptyWrite
  record := fun _ h => absurd h List.not_mem_nil
  visible := fun _ h => absurd h List.not_mem_nil
  increasing := List.Pairwise.nil
  last := fun _ h => absurd h List.not_mem_nil
  patch_eq := FCompoundWrite.patch_emptyWrite

omit [Std.TransCmp stringComparator] in
/-- A write tree without writes. -/
theorem WF.removeAllWrites (tree : FWriteTree) :
    tree.removeAllWrites.1.WF stringComparator K where
  visibleWrites := .emptyWrite
  record := fun _ h => absurd h List.not_mem_nil
  visible := fun _ h => absurd h List.not_mem_nil
  increasing := List.Pairwise.nil
  last := fun _ h => absurd h List.not_mem_nil
  patch_eq := FCompoundWrite.patch_emptyWrite

variable (hK : NodeKeys stringComparator K)

include hK

/-- Layering a record on top, for the tree at the root. -/
theorem patch_layerRecord {compoundWrite : FCompoundWrite} {record : FWriteRecord}
    (h : compoundWrite.WF stringComparator K) (hrecord : record.WF stringComparator K) :
    (layerRecord stringComparator [] compoundWrite record).WF stringComparator K ∧
      (layerRecord stringComparator [] compoundWrite record).patch =
        compoundWrite.patch.putAll (pendingWrites [record]) := by
  have hroot : FPath.contains [] record.path = true := FPath.contains_iff.2 List.nil_prefix
  have hwrites : ∀ write ∈ record.writes, (∀ k ∈ write.1, K k) ∧ write.2.WF :=
    fun _ hwrite => hrecord.of_mem hK hwrite
  have hfold := FCompoundWrite.patch_foldl_addWrite hK h hwrites
  rw [pendingWrites_singleton]
  rw [layerRecord]
  rw [FWriteRecord.writes] at hfold ⊢
  cases hdata : record.data with
  | overwrite node =>
      simp only [hdata] at hfold ⊢
      rw [dif_pos hroot]
      exact hfold
  | merge changedChildren =>
      simp only [hdata] at hfold ⊢
      rw [dif_pos hroot, FCompoundWrite.addCompoundWrite_eq_foldl]
      exact hfold

/-- Records layered one after the other put what their writes put. -/
theorem patch_foldl_layerRecord {records : List FWriteRecord} {compoundWrite : FCompoundWrite}
    (h : compoundWrite.WF stringComparator K)
    (hrecords : ∀ record ∈ records, record.WF stringComparator K) :
    (records.foldl (layerRecord stringComparator []) compoundWrite).WF stringComparator K ∧
      (records.foldl (layerRecord stringComparator []) compoundWrite).patch =
        compoundWrite.patch.putAll (pendingWrites records) := by
  induction records generalizing compoundWrite with
  | nil => exact ⟨h, rfl⟩
  | cons record records ih =>
      obtain ⟨hWF, hpatch⟩ := patch_layerRecord hK h (hrecords record List.mem_cons_self)
      obtain ⟨hWF', hpatch'⟩ := ih hWF fun r hr => hrecords r (List.mem_cons_of_mem record hr)
      refine ⟨hWF', hpatch'.trans ?_⟩
      rw [hpatch, ← LeafTree.putAll_append, ← pendingWrites_append, List.singleton_append]

/-- **A new write keeps the invariant**, whichever kind it is. -/
theorem WF.add (h : self.WF stringComparator K) {record : FWriteRecord}
    (hrecord : record.WF stringComparator K) (hvisible : record.visible = true)
    (hid : self.lastWriteId < record.writeId) :
    FWriteTree.WF stringComparator K
      ⟨layerRecord stringComparator [] self.visibleWrites record, self.allWrites ++ [record],
        record.writeId⟩ := by
  obtain ⟨hWF, hpatch⟩ := patch_layerRecord hK h.visibleWrites hrecord
  refine ⟨hWF, fun r hr => ?_, fun r hr => ?_, ?_, fun r hr => ?_, ?_⟩
  · rcases List.mem_append.1 hr with hr | hr
    · exact h.record r hr
    · exact List.mem_singleton.1 hr ▸ hrecord
  · rcases List.mem_append.1 hr with hr | hr
    · exact h.visible r hr
    · exact List.mem_singleton.1 hr ▸ hvisible
  · refine List.pairwise_append.2 ⟨h.increasing, List.pairwise_singleton _ _, fun r hr s hs => ?_⟩
    rw [List.mem_singleton.1 hs]
    exact lt_of_le_of_lt (h.last r hr) hid
  · rcases List.mem_append.1 hr with hr | hr
    · exact (lt_of_le_of_lt (h.last r hr) hid).le
    · rw [List.mem_singleton.1 hr]
  · rw [hpatch, h.patch_eq, pending, pending, pendingWrites_append, LeafTree.putAll_append]

omit [Std.TransCmp stringComparator] hK in
/-- What adding an overwrite leaves. -/
theorem addOverwriteAtPath_eq_some {path : FPath} {newData : Node} {writeId : ℤ}
    (hadd : self.addOverwriteAtPath stringComparator path newData writeId true = some self') :
    self.lastWriteId < writeId ∧ self' =
      ⟨layerRecord stringComparator [] self.visibleWrites ⟨path, .overwrite newData, writeId, true⟩,
        self.allWrites ++ [⟨path, .overwrite newData, writeId, true⟩], writeId⟩ := by
  have hroot : FPath.contains [] path = true := FPath.contains_iff.2 List.nil_prefix
  rw [addOverwriteAtPath, if_pos (rfl : true = true)] at hadd
  split_ifs at hadd with hid
  refine ⟨hid, (Option.some.inj hadd).symm.trans ?_⟩
  rw [layerRecord]
  simp only [dif_pos hroot, relativePathFrom]

omit [Std.TransCmp stringComparator] hK in
/-- What adding a merge leaves. -/
theorem addMergeAtPath_eq_some {path : FPath} {changedChildren : FCompoundWrite} {writeId : ℤ}
    (hadd : self.addMergeAtPath stringComparator path changedChildren writeId = some self') :
    self.lastWriteId < writeId ∧ self' =
      ⟨layerRecord stringComparator [] self.visibleWrites
          ⟨path, .merge changedChildren, writeId, true⟩,
        self.allWrites ++ [⟨path, .merge changedChildren, writeId, true⟩], writeId⟩ := by
  have hroot : FPath.contains [] path = true := FPath.contains_iff.2 List.nil_prefix
  rw [addMergeAtPath] at hadd
  split_ifs at hadd with hid
  refine ⟨hid, (Option.some.inj hadd).symm.trans ?_⟩
  rw [layerRecord]
  simp only [dif_pos hroot, relativePathFrom]

/-! ### Removing a write -/

omit [Std.TransCmp stringComparator] hK in
/-- Once the record is shadowed the loop is over. -/
theorem overlapStep_of_not (record : FWriteRecord) (index : ℕ) (overlaps : Bool)
    (entries : List (FWriteRecord × ℕ)) :
    entries.foldl (overlapStep record index) (false, overlaps) = (false, overlaps) := by
  induction entries with
  | nil => rfl
  | cons entry entries ih => exact ih

omit [Std.TransCmp stringComparator] hK in
/-- **The two flags after the loop**, over visible records. -/
theorem foldl_overlapStep (record : FWriteRecord) (index : ℕ)
    {entries : List (FWriteRecord × ℕ)}
    (hvisible : ∀ entry ∈ entries, entry.1.visible = true) (overlaps : Bool) :
    ((entries.foldl (overlapStep record index) (true, overlaps)).1 = true ↔
      ∀ entry ∈ entries, ¬ (index ≤ entry.2 ∧ entry.1.containsPath record.path = true)) ∧
    ((entries.foldl (overlapStep record index) (true, overlaps)).1 = true →
      ((entries.foldl (overlapStep record index) (true, overlaps)).2 = true ↔
        overlaps = true ∨ ∃ entry ∈ entries, record.path.contains entry.1.path = true)) := by
  induction entries generalizing overlaps with
  | nil => simp
  | cons entry entries ih =>
      have htail := fun o => ih (fun e he => hvisible e (List.mem_cons_of_mem entry he)) o
      have hv := hvisible entry List.mem_cons_self
      rw [List.foldl_cons]
      by_cases hcovers : index ≤ entry.2 ∧ entry.1.containsPath record.path = true
      · have hstep : overlapStep record index (true, overlaps) entry = (false, overlaps) := by
          simp [overlapStep, hv, hcovers]
        rw [hstep, overlapStep_of_not]
        refine ⟨⟨fun h => absurd h Bool.false_ne_true, fun h => ?_⟩,
          fun h => absurd h Bool.false_ne_true⟩
        exact absurd hcovers (h entry List.mem_cons_self)
      · have hcond : (decide (index ≤ entry.2) && entry.1.containsPath record.path) = false := by
          rw [Bool.eq_false_iff, Ne, Bool.and_eq_true, decide_eq_true_eq]
          exact hcovers
        cases hover : record.path.contains entry.1.path with
        | true =>
            have hstep : overlapStep record index (true, overlaps) entry = (true, true) := by
              simp [overlapStep, hv, hcond, hover]
            rw [hstep, List.forall_mem_cons, List.exists_mem_cons_iff]
            exact ⟨(htail true).1.trans (and_iff_right hcovers).symm, fun h =>
              ((htail true).2 h).trans (by simp [hover])⟩
        | false =>
            have hstep : overlapStep record index (true, overlaps) entry = (true, overlaps) := by
              simp [overlapStep, hv, hcond, hover]
            rw [hstep, List.forall_mem_cons, List.exists_mem_cons_iff]
            exact ⟨(htail overlaps).1.trans (and_iff_right hcovers).symm, fun h =>
              ((htail overlaps).2 h).trans (by simp [hover])⟩

/-- Of the records around it, none before has written above the record's path, and none
rooted elsewhere writes at its path or below. -/
def Removable (before : List FWriteRecord) (record : FWriteRecord) (after : List FWriteRecord) :
    Prop :=
  (∀ r ∈ before, ∀ w ∈ r.writes, ∀ u ∈ record.writes, w.1 <+: u.1 → w.1 = u.1) ∧
    ∀ r ∈ before ++ after, ∀ w ∈ r.writes, record.path <+: w.1 → record.path <+: r.path

omit [Std.TransCmp stringComparator] hK in
/-- The record that is found, between the others. -/
theorem exists_of_findIdx? {writes : List FWriteRecord} {p : FWriteRecord → Bool} {index : ℕ}
    (h : writes.findIdx? p = some index) :
    ∃ before record after, writes = before ++ record :: after ∧ before.length = index ∧
      p record = true := by
  obtain ⟨hlt, hp, -⟩ := List.findIdx?_eq_some_iff_getElem.1 h
  refine ⟨writes.take index, writes[index], writes.drop (index + 1), ?_, ?_, hp⟩
  · rw [← List.drop_eq_getElem_cons hlt, List.take_append_drop]
  · rw [List.length_take]
    omega

omit [Std.TransCmp stringComparator] hK in
/-- The records of a list in the order of the loop. -/
theorem mem_reverse_zipIdx {before after : List FWriteRecord} {entry : FWriteRecord × ℕ} :
    entry ∈ (before ++ after).zipIdx.reverse → entry.1 ∈ before ++ after ∧
      (before.length ≤ entry.2 → entry.1 ∈ after) := by
  intro h
  rw [List.mem_reverse, List.mem_zipIdx_iff_getElem?] at h
  refine ⟨List.mem_of_getElem? h, fun hle => ?_⟩
  rw [List.getElem?_append_right hle] at h
  exact List.mem_of_getElem? h

omit [Std.TransCmp stringComparator] hK in
/-- The loop comes to every record around it. -/
theorem exists_mem_reverse_zipIdx (before : List FWriteRecord) {after : List FWriteRecord}
    {r : FWriteRecord} :
    (r ∈ after → ∃ entry ∈ (before ++ after).zipIdx.reverse,
        before.length ≤ entry.2 ∧ entry.1 = r) ∧
      (r ∈ before ++ after → ∃ entry ∈ (before ++ after).zipIdx.reverse, entry.1 = r) := by
  simp only [List.mem_reverse, List.mem_zipIdx_iff_getElem?]
  constructor
  · intro h
    obtain ⟨i, hi⟩ := List.mem_iff_getElem?.1 h
    refine ⟨(r, before.length + i), ?_, Nat.le_add_right _ _, rfl⟩
    rw [List.getElem?_append_right (Nat.le_add_right _ _), Nat.add_sub_cancel_left]
    exact hi
  · intro h
    obtain ⟨i, hi⟩ := List.mem_iff_getElem?.1 h
    exact ⟨(r, i), hi, rfl⟩

omit [Std.TransCmp stringComparator] hK in
/-- **What a removal does**: the record goes, and the visible writes stay as they are, are
recalculated, or lose the paths of the record. -/
theorem removeWriteId_eq_some {writeId : ℤ} {reevaluate : Bool}
    (h : self.WF stringComparator K)
    (hremove : self.removeWriteId stringComparator writeId = some (self', reevaluate)) :
    ∃ before record after, self.allWrites = before ++ record :: after ∧
      record.writeId = writeId ∧ self'.allWrites = before ++ after ∧
      (self'.lastWriteId = self.lastWriteId ∨
        self'.lastWriteId = ((before ++ after).getLast?.map FWriteRecord.writeId).getD (-1)) ∧
      ((∃ r ∈ after, r.containsPath record.path = true) ∧ reevaluate = false ∧
          self'.visibleWrites = self.visibleWrites ∨
        reevaluate = true ∧ self'.visibleWrites =
          layerTreeFromWrites stringComparator (before ++ after) (fun _ => true) [] ∨
        reevaluate = true ∧ (∀ r ∈ after, ¬ r.containsPath record.path = true) ∧
          (∀ r ∈ before ++ after, ¬ record.path <+: r.path) ∧
          self'.visibleWrites = record.writes.foldl (fun visibleWrites write =>
            visibleWrites.removeWriteAtPath stringComparator write.1) self.visibleWrites) := by
  rw [removeWriteId] at hremove
  cases hidx : self.allWrites.findIdx? fun record => record.writeId == writeId with
  | none =>
      rw [hidx] at hremove
      exact nomatch hremove
  | some index =>
      obtain ⟨before, record, after, hsplit, rfl, hid⟩ := exists_of_findIdx? hidx
      have hget : self.allWrites[before.length]? = some record := by rw [hsplit]; simp
      have herase : self.allWrites.eraseIdx before.length = before ++ after := by
        rw [hsplit, List.eraseIdx_append_of_length_le le_rfl, Nat.sub_self, List.eraseIdx_cons_zero]
      have hmem : ∀ r ∈ before ++ after, r ∈ self.allWrites := by
        intro r hr
        rw [hsplit]
        rcases List.mem_append.1 hr with hr | hr
        · exact List.mem_append_left _ hr
        · exact List.mem_append_right _ (List.mem_cons_of_mem record hr)
      have hrecord : record ∈ self.allWrites := by
        rw [hsplit]
        exact List.mem_append_right _ List.mem_cons_self
      obtain ⟨hcovered, hoverlaps⟩ := foldl_overlapStep record before.length
        (fun entry he => h.visible _ (hmem _ (mem_reverse_zipIdx he).1)) false
      simp only [hidx, hget, herase, h.visible record hrecord] at hremove
      refine ⟨before, record, after, hsplit, beq_iff_eq.1 hid, ?_⟩
      generalize ((before ++ after).zipIdx.reverse.foldl (overlapStep record before.length)
        (true, false)) = flags at hcovered hoverlaps hremove
      cases hflag : flags.1 with
      | false =>
          rw [hflag, Bool.not_false, if_pos rfl] at hremove
          obtain ⟨rfl, rfl⟩ := Prod.mk.inj (Option.some.inj hremove)
          refine ⟨rfl, Or.inl rfl, Or.inl ⟨?_, rfl, rfl⟩⟩
          by_contra hnone
          refine absurd (hcovered.2 fun entry he hcovers => hnone ?_) (by rw [hflag]; decide)
          exact ⟨entry.1, (mem_reverse_zipIdx he).2 hcovers.1, hcovers.2⟩
      | true =>
          rw [hflag, Bool.not_true, if_neg Bool.false_ne_true] at hremove
          cases hover : flags.2 with
          | true =>
              rw [hover, if_pos rfl] at hremove
              obtain ⟨rfl, rfl⟩ := Prod.mk.inj (Option.some.inj hremove)
              exact ⟨rfl, Or.inr rfl, Or.inr (Or.inl ⟨rfl, rfl⟩)⟩
          | false =>
              rw [hover, if_neg Bool.false_ne_true] at hremove
              obtain ⟨rfl, rfl⟩ := Prod.mk.inj (Option.some.inj hremove)
              refine ⟨rfl, Or.inl rfl, Or.inr (Or.inr ⟨rfl, fun r hr hcontains => ?_,
                fun r hr hprefix => ?_, ?_⟩)⟩
              · obtain ⟨entry, he, hle, rfl⟩ :=
                  (exists_mem_reverse_zipIdx before).1 hr
                exact hcovered.1 hflag entry he ⟨hle, hcontains⟩
              · obtain ⟨entry, he, rfl⟩ := (exists_mem_reverse_zipIdx before).2 hr
                have hflag' := (hoverlaps hflag).2
                  (Or.inr ⟨entry, he, FPath.contains_iff.2 hprefix⟩)
                rw [hover] at hflag'
                exact absurd hflag' Bool.false_ne_true
              · rw [FWriteRecord.writes]
                cases record.data with
                | overwrite node => rfl
                | merge merge => simp only [List.foldl_map]

omit [Std.TransCmp stringComparator] hK in
/-- A write that is there can be removed. -/
theorem exists_removeWriteId {record : FWriteRecord} (h : record ∈ self.allWrites) :
    ∃ removed, self.removeWriteId stringComparator record.writeId = some removed := by
  have hsome : (self.allWrites.findIdx? fun r => r.writeId == record.writeId).isSome = true := by
    rw [List.findIdx?_isSome, List.any_eq_true]
    exact ⟨record, h, beq_self_eq_true _⟩
  obtain ⟨index, hidx⟩ := Option.isSome_iff_exists.1 hsome
  obtain ⟨before, found, after, hsplit, rfl, -⟩ := exists_of_findIdx? hidx
  have hget : self.allWrites[before.length]? = some found := by rw [hsplit]; simp
  simp only [removeWriteId, hidx, hget]
  split_ifs <;> exact ⟨_, rfl⟩

/-- Removing single paths, one after the other. -/
theorem patch_foldl_removeWriteAtPath {compoundWrite : FCompoundWrite}
    {writes : List (FPath × Node)} (h : compoundWrite.WF stringComparator K)
    (hwrites : ∀ write ∈ writes, ∀ k ∈ write.1, K k) :
    (writes.foldl (fun c write => c.removeWriteAtPath stringComparator write.1)
        compoundWrite).WF stringComparator K ∧
      (writes.foldl (fun c write => c.removeWriteAtPath stringComparator write.1)
        compoundWrite).patch =
          (writes.map fun write => (write.1, write.2.leaves)).foldl (fun P u => P.erase u.1)
            compoundWrite.patch := by
  induction writes generalizing compoundWrite with
  | nil => exact ⟨h, rfl⟩
  | cons write writes ih =>
      have hpath := hwrites write List.mem_cons_self
      obtain ⟨hWF, hpatch⟩ := ih (h.removeWriteAtPath hpath) fun w hw =>
        hwrites w (List.mem_cons_of_mem write hw)
      refine ⟨hWF, hpatch.trans ?_⟩
      rw [FCompoundWrite.patch_removeWriteAtPath hK h hpath]
      rfl

omit [Std.TransCmp stringComparator] hK in
/-- Around a record that covers nothing and is not covered, all writes lie apart from its own. -/
theorem apart_of_not_covered {before after : List FWriteRecord} {record : FWriteRecord}
    (hremovable : Removable before record after)
    (hcovered : ∀ r ∈ after, ¬ r.containsPath record.path = true)
    (hoverlaps : ∀ r ∈ before ++ after, ¬ record.path <+: r.path) {u : FPath × Node}
    (hu : u ∈ record.writes) {r : FWriteRecord} (hr : r ∈ before ++ after) {w : FPath × Node}
    (hw : w ∈ r.writes) : LeafTree.Apart u.1 w.1 := by
  have hroot : record.path <+: u.1 := FWriteRecord.path_prefix_of_mem hu
  have hbelow : ¬ record.path <+: w.1 := fun h =>
    hoverlaps r hr (hremovable.2 r hr w hw h)
  refine ⟨fun h => hbelow (hroot.trans h), fun h => ?_⟩
  rcases List.mem_append.1 hr with hbefore | hafter
  · exact hbelow (hremovable.1 r hbefore w hw u hu h ▸ hroot)
  · rcases List.prefix_or_prefix_of_prefix hroot h with h' | h'
    · exact hbelow h'
    · exact hcovered r hafter (FWriteRecord.containsPath_iff.2 ⟨w, hw, h'⟩)

omit [Std.TransCmp stringComparator] hK in
/-- The last of the records is the newest. -/
theorem writeId_le_getLast {records : List FWriteRecord}
    (h : records.Pairwise fun r s => r.writeId < s.writeId) {r : FWriteRecord} (hr : r ∈ records) :
    r.writeId ≤ (records.getLast?.map FWriteRecord.writeId).getD (-1) := by
  obtain ⟨records, last, rfl⟩ :=
    (List.eq_nil_or_concat' records).resolve_left (List.ne_nil_of_mem hr)
  rw [List.getLast?_append, List.getLast?_singleton, Option.some_or, Option.map_some,
    Option.getD_some]
  rcases List.mem_append.1 hr with hr | hr
  · exact ((List.pairwise_append.1 h).2.2 r hr last List.mem_cons_self).le
  · rw [List.mem_singleton.1 hr]

/-- **A removal keeps the invariant**, unless the write lies below an earlier one or a merge
reaches around it. -/
theorem WF.removeWriteId (h : self.WF stringComparator K) {writeId : ℤ} {reevaluate : Bool}
    (hremove : self.removeWriteId stringComparator writeId = some (self', reevaluate))
    (hremovable : ∀ before record after, self.allWrites = before ++ record :: after →
      record.writeId = writeId → Removable before record after) :
    self'.WF stringComparator K ∧
      (reevaluate = false → self'.visibleWrites.patch = self.visibleWrites.patch) := by
  obtain ⟨before, record, after, hsplit, hid, hall, hlast, hcases⟩ := removeWriteId_eq_some h hremove
  obtain ⟨hbefore, hcross⟩ := hremovable before record after hsplit hid
  have hsub : (before ++ after).Sublist self.allWrites := by
    rw [hsplit]
    exact List.Sublist.append_left (List.sublist_cons_self record after) before
  have hrecord : record.WF stringComparator K := h.record record (by
    rw [hsplit]
    exact List.mem_append_right _ List.mem_cons_self)
  have hpending : self.pending = (∅ : LeafTree.Patch String LeafValue).putAll
      (pendingWrites before ++ (pendingWrites [record] ++ pendingWrites after)) := by
    rw [pending, hsplit, ← List.singleton_append, pendingWrites_append, pendingWrites_append]
  have hpending' : self'.pending = (∅ : LeafTree.Patch String LeafValue).putAll
      (pendingWrites before ++ pendingWrites after) := by
    rw [pending, hall, pendingWrites_append]
  have hWF : self'.visibleWrites.WF stringComparator K →
      self'.visibleWrites.patch = self'.pending → self'.WF stringComparator K := fun hv hp =>
    { visibleWrites := hv
      record := fun r hr => h.record r (hsub.subset (hall ▸ hr))
      visible := fun r hr => h.visible r (hsub.subset (hall ▸ hr))
      increasing := hall ▸ h.increasing.sublist hsub
      last := fun r hr => by
        rw [hall] at hr
        rcases hlast with hlast | hlast
        · rw [hlast]
          exact h.last r (hsub.subset hr)
        · rw [hlast]
          exact writeId_le_getLast (h.increasing.sublist hsub) hr
      patch_eq := hp }
  rcases hcases with ⟨⟨r, hr, hcovers⟩, -, hvisible⟩ | ⟨rfl, hvisible⟩ |
    ⟨rfl, hcovered, hoverlaps, hvisible⟩
  · -- a later write covers all that the record has written
    have hequal : self.pending = self'.pending := by
      rw [hpending, hpending']
      refine LeafTree.putAll_append_covered_all (fun u hu w hw hwu => ?_) fun u hu => ?_
      · obtain ⟨r', hr', w', hw', rfl⟩ := mem_pendingWrites.1 hw
        rw [pendingWrites_singleton] at hu
        obtain ⟨u', hu', rfl⟩ := List.mem_map.1 hu
        exact hbefore r' hr' w' hw' u' hu' hwu
      · obtain ⟨w, hw, hwpath⟩ := FWriteRecord.containsPath_iff.1 hcovers
        rw [pendingWrites_singleton] at hu
        obtain ⟨u', hu', rfl⟩ := List.mem_map.1 hu
        refine ⟨(w.1, w.2.leaves), mem_pendingWrites.2 ⟨r, hr, w, hw, rfl⟩, ?_⟩
        exact hwpath.trans (FWriteRecord.path_prefix_of_mem hu')
    refine ⟨hWF (hvisible ▸ h.visibleWrites) ?_, fun _ => by rw [hvisible]⟩
    rw [hvisible, h.patch_eq, hequal]
  · -- the tree is built again
    obtain ⟨hlayer, hpatch⟩ := patch_foldl_layerRecord hK FCompoundWrite.WF.emptyWrite
      fun r hr => h.record r (hsub.subset hr)
    rw [layerTreeFromWrites, List.filter_true] at hvisible
    refine ⟨hWF (hvisible ▸ hlayer) ?_, fun hf => nomatch hf⟩
    rw [hvisible, hpatch, FCompoundWrite.patch_emptyWrite, hpending', pendingWrites_append]
  · -- nothing else is written at the paths of the record or above or below
    obtain ⟨hWF', hpatch⟩ := patch_foldl_removeWriteAtPath hK h.visibleWrites
      fun u hu => (hrecord.of_mem hK hu).1
    refine ⟨hWF (hvisible ▸ hWF') ?_, fun hf => nomatch hf⟩
    rw [hvisible, hpatch, h.patch_eq, hpending, hpending', ← pendingWrites_singleton]
    refine LeafTree.foldl_erase_putAll ?_ fun u hu w hw => ?_
    · rw [pendingWrites_singleton, List.pairwise_map]
      exact hrecord.pairwise hK
    · rw [pendingWrites_singleton] at hu
      rw [← pendingWrites_append] at hw
      obtain ⟨u', hu', rfl⟩ := List.mem_map.1 hu
      obtain ⟨r, hr, w', hw', rfl⟩ := mem_pendingWrites.1 hw
      exact apart_of_not_covered ⟨hbefore, hcross⟩ hcovered hoverlaps hu' hr hw'

end FWriteTree
end Teamstuff
