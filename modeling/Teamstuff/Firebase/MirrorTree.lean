/-
# A sync tree that mirrors the server

All views of a sync tree mirror the same data under the same writes, each at its own path
(`FSyncTree.Mirrors`).  Each operation of the tree keeps this.  What has to be shown of an
operation is what becomes of it on its way down: a write at a path is, seen from a view, a write
at the rest of the path or, from below, what it holds there (`LeafTree.seenFrom`), and data from
the server is a patch, of which a view gets the part within its own path (`LeafTree.within`).

The pending writes are those of `setValue:` of something, so each is an overwrite and no removal,
and the oldest of them is answered first.
-/

import Teamstuff.Firebase.Mirror

namespace Teamstuff
namespace FSyncTree

variable {stringComparator : NSComparator} {K : String → Prop}

/-! ### Operations that come down the tree -/

section Handled

variable {writeTree : FWriteTree} {Q : FPath → FSyncPoint → Prop}
  {Q' : FPath → FSyncPoint → List FChange → Prop}

/-- The operations `Is` that come of a write of `m` at `q`, at the paths they come to. -/
def Sees (q : FPath) (m : LeafTree String LeafValue)
    (Is : FPath → LeafTree String LeafValue → FOperation → Prop) (path : FPath)
    (operation : FOperation) : Prop :=
  ∃ w, LeafTree.seenFrom path q m = some w ∧ Is w.1 w.2 operation

variable (stringComparator K) in
/-- Operations that are a write at their path and stay one as they are handed down. -/
structure HandedDown (Is : FPath → LeafTree String LeafValue → FOperation → Prop) : Prop where
  path_eq : ∀ {p m operation}, Is p m operation → operation.path = p
  child : ∀ {p m operation childKey w}, K childKey → Is p m operation →
    LeafTree.seenFrom [childKey] p m = some w →
      ∃ childOperation, operation.operationForChild stringComparator childKey =
        some childOperation ∧ Is w.1 w.2 childOperation

/-- What such an operation does at the views it reaches, it does in the tree. -/
theorem HandedDown.handled {q : FPath} {m : LeafTree String LeafValue}
    {Is : FPath → LeafTree String LeafValue → FOperation → Prop}
    (h : HandedDown stringComparator K Is) (hK : NodeKeys stringComparator K)
    (hwf : ∀ {path syncPoint}, Q path syncPoint → FViewCache.WF syncPoint)
    (hreached : ∀ {path w operation syncPoint} {serverCache : Option Node}, (∀ k ∈ path, K k) →
      LeafTree.seenFrom path q m = some w → Is w.1 w.2 operation → Q path syncPoint →
        (∀ node ∈ serverCache, node.WF) →
          ∃ (syncPoint' : FSyncPoint) (changes : List FChange),
            FSyncPoint.applyOperation stringComparator syncPoint operation ⟨path, writeTree⟩
              serverCache = some (syncPoint', changes.map fun change => (path, change)) ∧
            Q' path syncPoint' changes)
    (hspared : ∀ {path syncPoint}, LeafTree.seenFrom path q m = none → Q path syncPoint →
      Q' path syncPoint []) :
    Handled stringComparator K writeTree Q Q' (Sees q m Is) where
  keys := hK
  wf := hwf
  reached := fun hpath ⟨_, hw, his⟩ hQ hcache => hreached hpath hw his hQ hcache
  child := by
    rintro path operation childOperation childKey hkey ⟨w, hw, his⟩ hon hchild
    have hseen : ∃ w', LeafTree.seenFrom [childKey] w.1 w.2 = some w' := by
      cases hp : w.1 with
      | nil => exact ⟨_, rfl⟩
      | cons j rest =>
          have hj := hon j rest ((h.path_eq his).trans hp)
          exact ⟨_, by rw [LeafTree.seenFrom, if_pos hj.symm, LeafTree.seenFrom]⟩
    obtain ⟨w', hw'⟩ := hseen
    obtain ⟨childOperation', hchild', his'⟩ := h.child hkey his hw'
    obtain rfl := Option.some.inj (hchild.symm.trans hchild')
    exact ⟨w', by rw [LeafTree.seenFrom_append, hw, Option.bind_some, hw'], his'⟩
  spared := by
    rintro path operation childKey hkey ⟨w, hw, his⟩ hspares rest syncPoint hQ
    refine hspared ?_ hQ
    have hnone : LeafTree.seenFrom [childKey] w.1 w.2 = none := by
      rcases hspares with hnone | ⟨j, p, hp, hne⟩
      · cases hw' : LeafTree.seenFrom [childKey] w.1 w.2 with
        | none => rfl
        | some w' =>
            obtain ⟨childOperation, hchild, -⟩ := h.child hkey his hw'
            exact absurd (hnone.symm.trans hchild) (Option.some_ne_none _).symm
      · rw [← h.path_eq his, hp, LeafTree.seenFrom, if_neg (Ne.symm hne)]
    rw [LeafTree.seenFrom_append, LeafTree.seenFrom_append, hw, Option.bind_some, hnone]
    rfl

/-- Overwrites. -/
def IsOverwrite (source : FOperationSource) (p : FPath) (m : LeafTree String LeafValue)
    (operation : FOperation) : Prop :=
  ∃ snap : Node, snap.WF ∧ snap.leaves = m ∧ operation = .overwrite source p snap

theorem handedDown_isOverwrite (hK : PlainKeys K) (source : FOperationSource) :
    HandedDown stringComparator K (IsOverwrite source) where
  path_eq := by
    rintro p m operation ⟨snap, -, -, rfl⟩
    rfl
  child := by
    rintro p m operation childKey w hkey ⟨snap, hsnap, rfl, rfl⟩ hw
    rcases LeafTree.seenFrom_singleton hw with ⟨rfl, rfl⟩ | ⟨p, rfl, rfl⟩
    · exact ⟨_, rfl, snap.getImmediateChild childKey, hsnap.getImmediateChild childKey,
        (Node.child_leaves snap (isNegativeZero_of_isPlainKey (hK childKey hkey))).symm, rfl⟩
    · exact ⟨_, rfl, snap, hsnap, rfl, rfl⟩

variable (stringComparator K) in
/-- Answers to an overwrite. -/
def IsAck (revert : Bool) (p : FPath) (_ : LeafTree String LeafValue) (operation : FOperation) :
    Prop :=
  ∃ affectedTree : FImmutableTree Unit, affectedTree.WF stringComparator K (fun _ => True) ∧
    affectedTree.value.isSome = true ∧ operation = .ackUserWrite p affectedTree revert

theorem handedDown_isAck (revert : Bool) :
    HandedDown stringComparator K (IsAck stringComparator K revert) where
  path_eq := by
    rintro p m operation ⟨affectedTree, -, -, rfl⟩
    rfl
  child := by
    rintro p m operation childKey w - ⟨affectedTree, hWF, hvalue, rfl⟩ hw
    rcases LeafTree.seenFrom_singleton hw with ⟨rfl, rfl⟩ | ⟨p, rfl, rfl⟩
    · obtain ⟨u, hu⟩ := Option.isSome_iff_exists.1 hvalue
      exact ⟨.ackUserWrite [] affectedTree revert, by rw [FOperation.operationForChild, hu],
        affectedTree, hWF, hvalue, rfl⟩
    · exact ⟨_, rfl, affectedTree, hWF, hvalue, rfl⟩

/-- The end of a listen. -/
def IsListenComplete (p : FPath) (_ : LeafTree String LeafValue) (operation : FOperation) : Prop :=
  operation = .listenComplete p

theorem handedDown_isListenComplete : HandedDown stringComparator K IsListenComplete where
  path_eq := fun h => h ▸ rfl
  child := by
    rintro p m operation childKey w - rfl hw
    rcases LeafTree.seenFrom_singleton hw with ⟨rfl, rfl⟩ | ⟨p, rfl, rfl⟩ <;> exact ⟨_, rfl, rfl⟩

/-! ### Data from the server on its way down -/

/-- What data from the server puts in. -/
noncomputable def serverPatch : FOperation → LeafTree.Patch String LeafValue
  | .overwrite _ path snap => (∅ : LeafTree.Patch String LeafValue).put path snap.leaves
  | .merge _ path children => LeafTree.nest path children.patch
  | .ackUserWrite _ _ _ => ∅
  | .listenComplete _ => ∅

variable (stringComparator K) in
/-- An overwrite from the server, or a merge that does not write the root. -/
inductive IsServerData : FOperation → Prop
  | overwrite {path : FPath} {snap : Node} (hpath : ∀ k ∈ path, K k) (hsnap : snap.WF) :
      IsServerData (.overwrite .server path snap)
  | merge {path : FPath} {children : FCompoundWrite} (hpath : ∀ k ∈ path, K k)
      (hchildren : children.WF stringComparator K) (hroot : children.rootWrite = none) :
      IsServerData (.merge .server path children)

section

variable [Std.TransCmp stringComparator] (hK : NodeKeys stringComparator K)
  {operation : FOperation} (h : IsServerData stringComparator K operation) {childKey : String}
  (hkey : K childKey)

include hK hkey in
/-- The part of a merge that goes to a child. -/
theorem patch_childCompoundWrite {children : FCompoundWrite}
    (hchildren : children.WF stringComparator K) :
    (children.childCompoundWriteAtPath stringComparator (FPath.initWith childKey)).WF
        stringComparator K ∧
      (children.childCompoundWriteAtPath stringComparator (FPath.initWith childKey)).patch =
        children.patch.within [childKey] := by
  rw [FPath.initWith_of_isValidKey (hK.plain.valid childKey hkey)]
  exact ⟨hchildren.childCompoundWriteAtPath, FCompoundWrite.patch_childCompoundWriteAtPath hK
    hchildren fun k hk => List.mem_singleton.1 hk ▸ hkey⟩

include hK h hkey

/-- **A child gets what the patch has for it.** -/
theorem serverPatch_operationForChild {childOperation : FOperation}
    (hon : ∀ j rest, operation.path = j :: rest → childKey = j)
    (hchild : operation.operationForChild stringComparator childKey = some childOperation) :
    IsServerData stringComparator K childOperation ∧
      serverPatch childOperation = (serverPatch operation).within [childKey] := by
  cases h with
  | @overwrite path snap hpath hsnap =>
      cases path with
      | nil =>
          obtain rfl := Option.some.inj hchild
          refine ⟨.overwrite hpath (hsnap.getImmediateChild childKey), ?_⟩
          rw [serverPatch, serverPatch, LeafTree.put_nil, LeafTree.put_nil, LeafTree.within_single,
            LeafTree.sub_cons, LeafTree.sub_nil,
            Node.child_leaves snap (isNegativeZero_of_isPlainKey (hK.plain childKey hkey))]
      | cons j p =>
          obtain rfl := hon j p rfl
          obtain rfl := Option.some.inj hchild
          refine ⟨.overwrite (fun k hk => hpath k (List.mem_cons_of_mem _ hk)) hsnap, ?_⟩
          rw [serverPatch, serverPatch, LeafTree.within_cons (LeafTree.root_put rfl ..),
            LeafTree.within_nil, LeafTree.child_put rfl, if_pos rfl, LeafTree.child_empty]
  | @merge path children hpath hchildren hroot =>
      cases path with
      | nil =>
          obtain ⟨hWF, hpatch⟩ := patch_childCompoundWrite hK hkey hchildren
          rw [FOperation.operationForChild] at hchild
          rw [serverPatch, LeafTree.nest, ← hpatch]
          split_ifs at hchild
          split at hchild
          next snap hsnap =>
            obtain rfl := Option.some.inj hchild
            refine ⟨.overwrite hpath (FImmutableTree.WF.of_value hWF hsnap), ?_⟩
            rw [serverPatch, LeafTree.put_nil]
            exact (FImmutableTree.patch_of_value hsnap).symm
          next hnone =>
            obtain rfl := Option.some.inj hchild
            exact ⟨.merge hpath hWF hnone, by rw [serverPatch, LeafTree.nest]⟩
      | cons j p =>
          obtain rfl := hon j p rfl
          obtain rfl := Option.some.inj hchild
          refine ⟨.merge (fun k hk => hpath k (List.mem_cons_of_mem _ hk)) hchildren hroot, ?_⟩
          rw [serverPatch, serverPatch, LeafTree.within_cons rfl, LeafTree.within_nil,
            LeafTree.child_nest_cons, if_pos rfl]

/-- **A child that is spared has nothing put in.** -/
theorem serverPatch_of_spares (hspares : Spares stringComparator operation childKey) :
    (serverPatch operation).within [childKey] = ∅ := by
  cases h with
  | @overwrite path snap hpath hsnap =>
      rcases hspares with hnone | ⟨j, p, hp, hne⟩
      · cases path <;> cases hnone
      · obtain rfl : path = j :: p := hp
        rw [serverPatch, LeafTree.within_cons (LeafTree.root_put rfl ..), LeafTree.within_nil,
          LeafTree.child_put rfl, if_neg hne, LeafTree.child_empty]
  | @merge path children hpath hchildren hroot =>
      rcases hspares with hnone | ⟨j, p, hp, hne⟩
      · cases path with
        | nil =>
            obtain ⟨-, hpatch⟩ := patch_childCompoundWrite hK hkey hchildren
            rw [serverPatch, LeafTree.nest, ← hpatch]
            rw [FOperation.operationForChild] at hnone
            split_ifs at hnone with hempty
            · exact FCompoundWrite.patch_of_isEmpty hempty
            · split at hnone <;> cases hnone
        | cons j p => cases hnone
      · obtain rfl : path = j :: p := hp
        rw [serverPatch, LeafTree.within_cons rfl, LeafTree.within_nil, LeafTree.child_nest_cons,
          if_neg hne]

end

end Handled

end FSyncTree

/-! ### Records of `setValue:` -/

namespace FWriteRecord

/-- A record of an overwrite that is no removal. -/
def IsSet (self : FWriteRecord) : Prop :=
  ∃ node, self.data = .overwrite node ∧ node.isEmpty = false

variable {stringComparator : NSComparator} {K : String → Prop} {self : FWriteRecord}

theorem IsSet.exists_node (h : self.IsSet) (hWF : self.WF stringComparator K) :
    ∃ node, self.data = .overwrite node ∧ self.writes = [(self.path, node)] ∧ node.WF ∧
      node.leaves ≠ ∅ := by
  obtain ⟨node, hdata, hnode⟩ := h
  have hnodeWF := hWF.2
  rw [hdata] at hnodeWF
  refine ⟨node, hdata, by rw [writes, hdata], hnodeWF, fun hempty => ?_⟩
  rw [hnodeWF.leaves_eq_empty_iff.1 hempty] at hnode
  cases hnode

theorem ne_empty_of_mem_pendingWrites {records : List FWriteRecord}
    (hsets : ∀ record ∈ records, record.IsSet)
    (hWF : ∀ record ∈ records, record.WF stringComparator K)
    {w : FPath × LeafTree String LeafValue} (hw : w ∈ pendingWrites records) : w.2 ≠ ∅ := by
  obtain ⟨record, hrecord, write, hwrite, rfl⟩ := mem_pendingWrites.1 hw
  obtain ⟨node, -, hwrites, -, hne⟩ := (hsets record hrecord).exists_node (hWF record hrecord)
  rw [hwrites] at hwrite
  exact List.mem_singleton.1 hwrite ▸ hne

/-- **The oldest of them can be removed.** -/
theorem removable_nil {records : List FWriteRecord} (hsets : ∀ record ∈ records, record.IsSet)
    (self : FWriteRecord) :
    FWriteTree.Removable [] self records := by
  refine ⟨fun r hr => absurd hr List.not_mem_nil, fun r hr w hw hprefix => ?_⟩
  obtain ⟨node, hdata, -⟩ := hsets r hr
  rw [writes, hdata] at hw
  rwa [List.mem_singleton.1 hw] at hprefix

end FWriteRecord

namespace FSyncTree

/-! ### The invariant -/

variable {stringComparator : NSComparator} {K : String → Prop} {self : FSyncTree}
  {S : LeafTree String LeafValue}

variable (stringComparator K) in
/-- A sync tree whose views mirror the data `S` of the server under the pending writes. -/
structure Mirrors (S : LeafTree String LeafValue) (syncTree : FSyncTree) : Prop where
  writes : syncTree.pendingWriteTree.WF stringComparator K
  sets : ∀ record ∈ syncTree.pendingWriteTree.allWrites, record.IsSet
  points : syncTree.syncPointTree.WF stringComparator K fun _ => True
  views : syncTree.syncPointTree.Everywhere (fun path view =>
    FViewCache.Mirrors (syncTree.pendingWriteTree.pending.within path) (S.sub path) view) []

/-- A write tree whose records are all of `setValue:`. -/
theorem full_pending {writeTree : FWriteTree} (hwrites : writeTree.WF stringComparator K)
    (hsets : ∀ record ∈ writeTree.allWrites, record.IsSet) : writeTree.pending.Full :=
  LeafTree.full_empty.putAll fun _ hw =>
    FWriteRecord.ne_empty_of_mem_pendingWrites hsets hwrites.record hw

theorem patch_mk {writeTree : FWriteTree} (hwrites : writeTree.WF stringComparator K)
    (path : FPath) : (⟨path, writeTree⟩ : FWriteTreeRef).patch = writeTree.pending.within path := by
  rw [FWriteTreeRef.patch, hwrites.patch_eq]

variable [Std.TransCmp stringComparator] (hK : NodeKeys stringComparator K)

/-- What an operation makes of a view it comes to. -/
theorem exists_reached {writeTree : FWriteTree} (hwrites : writeTree.WF stringComparator K)
    (hK : PlainKeys K) {path : FPath} {view : FSyncPoint} (hview : FViewCache.WF view)
    (operation : FOperation) (hoperation : operation.WF stringComparator K)
    {serverCache : Option Node} (hcache : ∀ node ∈ serverCache, node.WF)
    (hpath : ∀ k ∈ path, K k)
    (hmirrors : (FViewProcessor.newViewCache stringComparator view operation ⟨path, writeTree⟩
      serverCache).1.Mirrors (⟨path, writeTree⟩ : FWriteTreeRef).patch S) :
    ∃ (view' : FSyncPoint) (changes : List FChange),
      FSyncPoint.applyOperation stringComparator view operation ⟨path, writeTree⟩ serverCache =
        some (view', changes.map fun change => (path, change)) ∧
      FViewCache.Mirrors (writeTree.pending.within path) S view' := by
  have href : FWriteTreeRef.WF stringComparator K ⟨path, writeTree⟩ :=
    ⟨hpath, hwrites.visibleWrites⟩
  obtain ⟨accumulator, -, hresult⟩ := FSyncPoint.exists_applyOperation (href.mono hK) hview
    (hoperation.mono hK) hcache
  exact ⟨_, _, hresult, patch_mk hwrites path ▸ hmirrors⟩

/-! ### The operations -/

include hK

/-- **A write of the user.** -/
theorem Mirrors.applyUserOverwriteAtPath (h : self.Mirrors stringComparator K S) {path : FPath}
    (hpath : ∀ k ∈ path, K k) {newData : Node} (hsnap : newData.WF)
    (hne : newData.isEmpty = false) {writeId : ℤ}
    (hid : self.pendingWriteTree.lastWriteId < writeId) :
    ∃ syncTree changes, self.applyUserOverwriteAtPath stringComparator path newData writeId true =
        some (syncTree, changes) ∧
      syncTree.Mirrors stringComparator K S ∧
      syncTree.pendingWriteTree.allWrites =
        self.pendingWriteTree.allWrites ++ [⟨path, .overwrite newData, writeId, true⟩] ∧
      syncTree.pendingWriteTree.lastWriteId = writeId := by
  obtain ⟨writeTree, hadd⟩ : ∃ writeTree, self.pendingWriteTree.addOverwriteAtPath
      stringComparator path newData writeId true = some writeTree := by
    rw [FWriteTree.addOverwriteAtPath, if_pos hid]
    exact ⟨_, rfl⟩
  have hrecord : FWriteRecord.WF stringComparator K ⟨path, .overwrite newData, writeId, true⟩ :=
    ⟨hpath, hsnap⟩
  have hset : FWriteRecord.IsSet ⟨path, .overwrite newData, writeId, true⟩ := ⟨newData, rfl, hne⟩
  obtain ⟨node, hnode, -, -, hleaves⟩ := hset.exists_node hrecord
  obtain rfl := FWriteData.overwrite.inj hnode
  have hwrites := h.writes.add hK hrecord rfl hid
  obtain ⟨-, hwriteTree⟩ := FWriteTree.addOverwriteAtPath_eq_some hadd
  rw [← hwriteTree] at hwrites
  have hpending : writeTree.pending = self.pendingWriteTree.pending.put path newData.leaves := by
    rw [hwriteTree, FWriteTree.pending, pendingWrites_append, LeafTree.putAll_append]
    rfl
  have hhandled : Handled stringComparator K writeTree
      (fun p view => FViewCache.Mirrors (self.pendingWriteTree.pending.within p) (S.sub p) view)
      (fun p view _ => FViewCache.Mirrors (writeTree.pending.within p) (S.sub p) view)
      (Sees path newData.leaves (IsOverwrite .user)) := by
    refine (handedDown_isOverwrite hK.plain .user).handled hK (fun hview => hview.synced.wf) ?_ ?_
    · rintro p w - view serverCache hp hw ⟨snap, hsnap, hsnapleaves, rfl⟩ hview hcache
      have hwpath : ∀ k ∈ w.1, K k := fun k hk => hpath k (LeafTree.mem_of_seenFrom hw k hk)
      refine exists_reached hwrites hK.plain hview.synced.wf (.overwrite .user w.1 snap)
        ⟨hwpath, hsnap⟩ hcache hp ?_
      refine FViewProcessor.mirrors_applyUserOverwriteTo hK ⟨hp, hwrites.visibleWrites⟩ hwpath hview
        hsnap ?_ ?_ hcache
      · rw [patch_mk hwrites, hpending, LeafTree.within_put, hw, hsnapleaves]
        rfl
      · rw [hsnapleaves]
        exact LeafTree.eq_nil_or_of_seenFrom hleaves hw
    · intro p view hnone hview
      rwa [hpending, LeafTree.within_put, hnone]
  obtain ⟨syncPointTree, changes, happly, hWF, hviews⟩ := exists_applyOperationToSyncPoints
    ⟨self.syncPointTree, writeTree⟩ hhandled h.points h.views (.overwrite .user path newData) hpath
    ⟨(path, newData.leaves), rfl, newData, hsnap, rfl, rfl⟩
  refine ⟨⟨syncPointTree, writeTree⟩, changes, ?_, ⟨hwrites, ?_, hWF, hviews⟩, ?_, ?_⟩
  · rw [FSyncTree.applyUserOverwriteAtPath, hadd, Option.bind_some]
    exact happly
  · intro record hmem
    rw [hwriteTree] at hmem
    rcases List.mem_append.1 hmem with hmem | hmem
    · exact h.sets record hmem
    · exact List.mem_singleton.1 hmem ▸ hset
  · rw [hwriteTree]
  · rw [hwriteTree]

/-- **Data from the server**, an overwrite or a merge. -/
theorem Mirrors.applyServerData (h : self.Mirrors stringComparator K S) {operation : FOperation}
    (hdata : IsServerData stringComparator K operation) :
    ∃ syncPointTree changes, self.applyOperationToSyncPoints stringComparator operation =
        some (⟨syncPointTree, self.pendingWriteTree⟩, changes) ∧
      Mirrors stringComparator K ((serverPatch operation).act S)
        ⟨syncPointTree, self.pendingWriteTree⟩ := by
  have hhandled : Handled stringComparator K self.pendingWriteTree
      (fun p view => FViewCache.Mirrors (self.pendingWriteTree.pending.within p) (S.sub p) view)
      (fun p view _ => FViewCache.Mirrors (self.pendingWriteTree.pending.within p)
        (((serverPatch operation).act S).sub p) view)
      (fun p childOperation => IsServerData stringComparator K childOperation ∧
        serverPatch childOperation = (serverPatch operation).within p) := by
    refine ⟨hK, fun hview => hview.synced.wf, ?_, ?_, ?_⟩
    · rintro p childOperation view serverCache hp ⟨hchild, hpatch⟩ hview hcache
      have hfull := (full_pending h.writes h.sets).within_or p
      have hcachePatch := patch_mk h.writes p
      rw [LeafTree.sub_act, ← hpatch]
      rw [← hcachePatch] at hview hfull
      cases hchild with
      | @overwrite path snap hpath hsnap =>
          refine exists_reached h.writes hK.plain hview.synced.wf (.overwrite .server path snap)
            ⟨hpath, hsnap⟩ hcache hp ?_
          rw [serverPatch, LeafTree.act_put_empty]
          exact FViewProcessor.mirrors_applyServerOverwriteTo hK ⟨hp, h.writes.visibleWrites⟩ hpath
            hview hfull hsnap
      | @merge path children hpath hchildren hroot =>
          refine exists_reached h.writes hK.plain hview.synced.wf (.merge .server path children)
            ⟨hpath, hchildren⟩ hcache hp ?_
          exact FViewProcessor.mirrors_applyServerMergeTo hK ⟨hp, h.writes.visibleWrites⟩ hpath
            hview hfull hchildren hroot
    · rintro p childOperation childOperation' childKey hkey ⟨hchild, hpatch⟩ hon hchild'
      obtain ⟨hdata', hpatch'⟩ := serverPatch_operationForChild hK hchild hkey hon hchild'
      exact ⟨hdata', by rw [hpatch', hpatch, LeafTree.within_append]⟩
    · rintro p childOperation childKey hkey ⟨hchild, hpatch⟩ hspares rest view hview
      have hnothing : (serverPatch operation).within (p ++ [childKey] ++ rest) = ∅ := by
        rw [LeafTree.within_append, LeafTree.within_append, ← hpatch,
          serverPatch_of_spares hK hchild hkey hspares, LeafTree.within_empty]
      rwa [LeafTree.sub_act, hnothing, LeafTree.act_empty]
  have hpath : ∀ k ∈ operation.path, K k := by
    cases hdata with
    | overwrite hpath hsnap => exact hpath
    | merge hpath hchildren hroot => exact hpath
  obtain ⟨syncPointTree, changes, happly, hWF, hviews⟩ := exists_applyOperationToSyncPoints self
    hhandled h.points h.views operation hpath ⟨hdata, (LeafTree.within_nil _).symm⟩
  exact ⟨syncPointTree, changes, happly, ⟨h.writes, h.sets, hWF, hviews⟩⟩

/-- **The end of a listen**, for views that hold what the server has sent. -/
theorem Mirrors.applyListenCompleteAtPath (h : self.Mirrors stringComparator K S) {path : FPath}
    (hpath : ∀ k ∈ path, K k)
    (hsent : ∀ c ∈ self.syncPointTree.forEach, path <+: c.1 →
      c.2.cachedServerSnap.isFullyInitialized = false →
        c.2.cachedServerSnap.node.leaves = S.sub c.1) :
    ∃ syncPointTree changes, self.applyListenCompleteAtPath stringComparator path =
        some (⟨syncPointTree, self.pendingWriteTree⟩, changes) ∧
      Mirrors stringComparator K S ⟨syncPointTree, self.pendingWriteTree⟩ := by
  have hviews : self.syncPointTree.Everywhere (fun p view =>
      FViewCache.Mirrors (self.pendingWriteTree.pending.within p) (S.sub p) view ∧
        (path <+: p → view.cachedServerSnap.node.leaves = S.sub p)) [] := by
    refine (h.points.everywhere_iff hK.plain.valid).2 fun c hc => ?_
    have hview := (h.points.everywhere_iff hK.plain.valid).1 h.views c hc
    refine ⟨hview, fun hprefix => ?_⟩
    cases hinit : c.2.cachedServerSnap.isFullyInitialized with
    | true => exact hview.server_eq hinit
    | false => exact hsent c hc hprefix hinit
  have hhandled : Handled stringComparator K self.pendingWriteTree
      (fun p view => FViewCache.Mirrors (self.pendingWriteTree.pending.within p) (S.sub p) view ∧
        (path <+: p → view.cachedServerSnap.node.leaves = S.sub p))
      (fun p view _ => FViewCache.Mirrors (self.pendingWriteTree.pending.within p) (S.sub p) view)
      (Sees path ∅ IsListenComplete) := by
    refine handedDown_isListenComplete.handled hK (fun hview => hview.1.synced.wf) ?_
      fun _ hview => hview.1
    rintro p w - view serverCache hp hw rfl ⟨hview, hleaves⟩ hcache
    have hwpath : ∀ k ∈ w.1, K k := fun k hk => hpath k (LeafTree.mem_of_seenFrom hw k hk)
    have hfull := (full_pending h.writes h.sets).within_or p
    rw [← patch_mk h.writes p] at hview hfull
    exact exists_reached h.writes hK.plain hview.synced.wf (.listenComplete w.1) hwpath hcache hp
      (FViewProcessor.mirrors_listenCompleteOldCache hK ⟨hp, h.writes.visibleWrites⟩ hwpath hview
        hfull fun hnil => hleaves (LeafTree.prefix_of_seenFrom hw hnil))
  obtain ⟨syncPointTree, changes, happly, hWF, hviews'⟩ := exists_applyOperationToSyncPoints self
    hhandled h.points hviews (.listenComplete path) hpath ⟨(path, ∅), rfl, rfl⟩
  exact ⟨syncPointTree, changes, happly, ⟨h.writes, h.sets, hWF, hviews'⟩⟩

omit hK [Std.TransCmp stringComparator] in
theorem writeForId_of_head {record : FWriteRecord} {records : List FWriteRecord}
    {writeTree : FWriteTree} (hall : writeTree.allWrites = record :: records) :
    writeTree.writeForId record.writeId = some record := by
  rw [FWriteTree.writeForId, hall]
  exact List.find?_cons_of_pos (beq_self_eq_true record.writeId)

omit hK [Std.TransCmp stringComparator] in
/-- The id of the oldest write is its own. -/
theorem eq_nil_of_head {writeTree : FWriteTree} (hwrites : writeTree.WF stringComparator K)
    {record found : FWriteRecord} {records before after : List FWriteRecord}
    (hall : writeTree.allWrites = record :: records)
    (hsplit : writeTree.allWrites = before ++ found :: after)
    (hid : found.writeId = record.writeId) : before = [] ∧ found = record ∧ after = records := by
  cases before with
  | nil =>
      obtain ⟨rfl, rfl⟩ := List.cons.inj (hsplit.symm.trans hall)
      exact ⟨rfl, rfl, rfl⟩
  | cons r before =>
      obtain ⟨rfl, hrecords⟩ := List.cons.inj (hall.symm.trans hsplit)
      have hlt : record.writeId < found.writeId := by
        refine (List.pairwise_cons.1 (hall ▸ hwrites.increasing)).1 found ?_
        rw [hrecords]
        exact List.mem_append_right _ List.mem_cons_self
      exact absurd hid hlt.ne'

/-- **The oldest write is taken out** of the write tree. -/
theorem exists_removeWriteId_head {writeTree : FWriteTree}
    (hwrites : writeTree.WF stringComparator K) {record : FWriteRecord}
    {records : List FWriteRecord} (hall : writeTree.allWrites = record :: records)
    (hsets : ∀ r ∈ writeTree.allWrites, r.IsSet) :
    ∃ writeTree' reevaluate, writeTree.removeWriteId stringComparator record.writeId =
        some (writeTree', reevaluate) ∧
      writeTree'.WF stringComparator K ∧ writeTree'.allWrites = records ∧
      (reevaluate = false → writeTree'.pending = writeTree.pending) ∧
      (writeTree'.lastWriteId ≤ writeTree.lastWriteId ∨ writeTree'.lastWriteId = -1) := by
  have hmem : record ∈ writeTree.allWrites := hall ▸ List.mem_cons_self
  obtain ⟨⟨writeTree', reevaluate⟩, hremove⟩ :
      ∃ removed, writeTree.removeWriteId stringComparator record.writeId = some removed :=
    FWriteTree.exists_removeWriteId hmem
  obtain ⟨before, found, after, hsplit, hid, hall', hlast, -⟩ :=
    FWriteTree.removeWriteId_eq_some hwrites hremove
  obtain ⟨rfl, rfl, rfl⟩ := eq_nil_of_head hwrites hall hsplit hid
  obtain ⟨hwrites', hsame⟩ := hwrites.removeWriteId hK hremove fun before' found' after' hsplit' hid' => by
    obtain ⟨rfl, rfl, rfl⟩ := eq_nil_of_head hwrites hall hsplit' hid'
    exact FWriteRecord.removable_nil (fun r hr => hsets r (hall ▸ List.mem_cons_of_mem _ hr)) _
  refine ⟨writeTree', reevaluate, hremove, hwrites', hall', fun hreevaluate => ?_, ?_⟩
  · rw [← hwrites'.patch_eq, hsame hreevaluate, hwrites.patch_eq]
  · rcases hlast with hlast | hlast
    · exact Or.inl hlast.le
    · rw [List.nil_append] at hlast
      cases hget : after.getLast? with
      | none => exact Or.inr (by rw [hlast, hget]; rfl)
      | some last =>
          rw [hget] at hlast
          refine Or.inl (hlast ▸ hwrites.last last ?_)
          rw [hall]
          exact List.mem_cons_of_mem _ (List.mem_of_getLast? hget)

/-- **The server's answer** to the oldest write. -/
theorem Mirrors.ackUserWriteWithWriteId (h : self.Mirrors stringComparator K S)
    {record : FWriteRecord} {records : List FWriteRecord}
    (hall : self.pendingWriteTree.allWrites = record :: records) (revert : Bool)
    (hclear : revert = false → S.Clear record.path (S.sub record.path)) :
    ∃ syncTree changes, self.ackUserWriteWithWriteId stringComparator record.writeId revert =
        some (syncTree, changes) ∧
      syncTree.Mirrors stringComparator K S ∧
      syncTree.pendingWriteTree.allWrites = records ∧
      (syncTree.pendingWriteTree.lastWriteId ≤ self.pendingWriteTree.lastWriteId ∨
        syncTree.pendingWriteTree.lastWriteId = -1) := by
  have hsets : ∀ r ∈ records, r.IsSet := fun r hr =>
    h.sets r (hall ▸ List.mem_cons_of_mem _ hr)
  have hmem : record ∈ self.pendingWriteTree.allWrites := hall ▸ List.mem_cons_self
  obtain ⟨writeTree, reevaluate, hremove, hwrites, hall', hsame, hlast⟩ :=
    exists_removeWriteId_head hK h.writes hall h.sets
  rw [FSyncTree.ackUserWriteWithWriteId, writeForId_of_head hall, Option.bind_some, hremove,
    Option.bind_some]
  cases reevaluate with
  | false =>
      refine ⟨⟨self.syncPointTree, writeTree⟩, [], rfl, ⟨hwrites, ?_, h.points, ?_⟩, hall', hlast⟩
      · exact fun r hr => hsets r (hall' ▸ hr)
      · rw [hsame rfl]
        exact h.views
  | true =>
      obtain ⟨node, hdata, hnode, -, hne⟩ := (h.sets record hmem).exists_node
        (h.writes.record record hmem)
      have hpath : ∀ k ∈ record.path, K k := (h.writes.record record hmem).1
      have haffected : (affectedTree stringComparator record).WF stringComparator K
          (fun _ => True) := by
        rw [affectedTree, hdata]
        exact FImmutableTree.WF.empty.setValue trivial fun _ hk => absurd hk List.not_mem_nil
      have hvalue : (affectedTree stringComparator record).value.isSome = true := by
        rw [affectedTree, hdata]
        rfl
      -- the pending writes with the record and without it
      have hpending : self.pendingWriteTree.pending = (∅ : LeafTree.Patch String LeafValue).putAll
          ((record.path, node.leaves) :: pendingWrites records) := by
        rw [FWriteTree.pending, hall, ← List.singleton_append, pendingWrites_append,
          pendingWrites_singleton, hnode]
        rfl
      have hpending' : writeTree.pending =
          (∅ : LeafTree.Patch String LeafValue).putAll (pendingWrites records) := by
        rw [FWriteTree.pending, hall']
      have hnothing : ∀ u ∈ (record.path, node.leaves) :: pendingWrites records, u.2 ≠ ∅ := by
        intro u hu
        rcases List.mem_cons.1 hu with rfl | hu
        · exact hne
        · exact FWriteRecord.ne_empty_of_mem_pendingWrites hsets
            (fun r hr => h.writes.record r (hall ▸ List.mem_cons_of_mem _ hr)) hu
      have hfull : writeTree.pending.Full := full_pending hwrites fun r hr => hsets r (hall' ▸ hr)
      have hhandled : Handled stringComparator K writeTree
          (fun p view => FViewCache.Mirrors (self.pendingWriteTree.pending.within p) (S.sub p) view)
          (fun p view _ => FViewCache.Mirrors (writeTree.pending.within p) (S.sub p) view)
          (Sees record.path node.leaves (IsAck stringComparator K revert)) := by
        refine (handedDown_isAck revert).handled hK (fun hview => hview.synced.wf) ?_ ?_
        · rintro p w - view serverCache hp hw ⟨affected, hWF, hvalue', rfl⟩ hview hcache
          have hwpath : ∀ k ∈ w.1, K k := fun k hk => hpath k (LeafTree.mem_of_seenFrom hw k hk)
          have hcover := hfull.within_or p
          have hbefore : ∀ L, (self.pendingWriteTree.pending.within p).act L =
              (writeTree.pending.within p).act (L.write w.1 w.2) := fun L => by
            rw [hpending, hpending', LeafTree.act_within_putAll_cons hnothing, hw]
            rfl
          have hroot : (writeTree.pending.within p).root.isSome = true →
              (self.pendingWriteTree.pending.within p).root.isSome = true := by
            rw [hpending, hpending', LeafTree.isSome_root_within_putAll,
              LeafTree.isSome_root_within_putAll]
            exact Or.imp_right (Exists.imp fun u hu => ⟨List.mem_cons_of_mem _ hu.1, hu.2⟩)
          rw [← patch_mk hwrites p] at hcover hbefore hroot
          refine exists_reached hwrites hK.plain hview.synced.wf (.ackUserWrite w.1 affected revert)
            ⟨hwpath, hWF⟩ hcache hp ?_
          cases revert with
          | false =>
              exact FViewProcessor.mirrors_ackUserWriteOn hK ⟨hp, hwrites.visibleWrites⟩ hwpath hview
                hbefore hroot hcover hWF hvalue' ((hclear rfl).of_seenFrom hw)
          | true =>
              exact FViewProcessor.mirrors_revertUserWriteOn hK ⟨hp, hwrites.visibleWrites⟩ hwpath
                hview hbefore hroot hcover (LeafTree.eq_nil_or_of_seenFrom hne hw)
        · intro p view hnone hview
          rwa [hpending, LeafTree.within_putAll_cons_of_not_seen hnone, ← hpending'] at hview
      obtain ⟨syncPointTree, changes, happly, hWF, hviews⟩ := exists_applyOperationToSyncPoints
        ⟨self.syncPointTree, writeTree⟩ hhandled h.points h.views
        (.ackUserWrite record.path (affectedTree stringComparator record) revert) hpath
        ⟨(record.path, node.leaves), rfl, _, haffected, hvalue, rfl⟩
      exact ⟨⟨syncPointTree, writeTree⟩, changes, happly,
        ⟨hwrites, fun r hr => hsets r (hall' ▸ hr), hWF, hviews⟩, hall', hlast⟩

/-- **All writes are dropped.** -/
theorem Mirrors.removeAllWrites (h : self.Mirrors stringComparator K S) :
    ∃ syncTree changes, self.removeAllWrites stringComparator = some (syncTree, changes) ∧
      syncTree.Mirrors stringComparator K S ∧ syncTree.pendingWriteTree.allWrites = [] ∧
      syncTree.pendingWriteTree.lastWriteId = self.pendingWriteTree.lastWriteId := by
  have hwrites : self.pendingWriteTree.removeAllWrites.1.WF stringComparator K := .removeAllWrites _
  have hpending : self.pendingWriteTree.removeAllWrites.1.pending = ∅ := rfl
  have hnone : ∀ r ∈ self.pendingWriteTree.removeAllWrites.1.allWrites, r.IsSet :=
    fun _ hr => absurd hr List.not_mem_nil
  rw [FSyncTree.removeAllWrites]
  split_ifs with hempty
  · refine ⟨_, [], rfl, ⟨hwrites, hnone, h.points, ?_⟩, rfl, rfl⟩
    have hall : self.pendingWriteTree.allWrites = [] := List.isEmpty_iff.1 hempty
    have hsame : self.pendingWriteTree.pending = ∅ := by
      rw [FWriteTree.pending, hall]
      rfl
    have hviews := h.views
    rwa [hsame] at hviews
  · have hhandled : Handled stringComparator K self.pendingWriteTree.removeAllWrites.1
        (fun p view => FViewCache.Mirrors (self.pendingWriteTree.pending.within p) (S.sub p) view)
        (fun p view _ => FViewCache.Mirrors
          (self.pendingWriteTree.removeAllWrites.1.pending.within p) (S.sub p) view)
        (Sees [] ∅ (IsAck stringComparator K true)) := by
      refine (handedDown_isAck true).handled hK (fun hview => hview.synced.wf) ?_ ?_
      · rintro p w - view serverCache hp hw ⟨affected, hWF, -, rfl⟩ hview hcache
        rw [LeafTree.seenFrom_nil] at hw
        obtain rfl := Option.some.inj hw
        refine exists_reached hwrites hK.plain hview.synced.wf (.ackUserWrite [] affected true)
          ⟨fun _ hk => absurd hk List.not_mem_nil, hWF⟩ hcache hp ?_
        refine FViewProcessor.mirrors_revertUserWriteOn_nil hK ⟨hp, hwrites.visibleWrites⟩ hview ?_
        rw [patch_mk hwrites, hpending, LeafTree.within_empty]
        rfl
      · intro p view hnot
        rw [LeafTree.seenFrom_nil] at hnot
        cases hnot
    obtain ⟨syncPointTree, changes, happly, hWF, hviews⟩ := exists_applyOperationToSyncPoints
      ⟨self.syncPointTree, self.pendingWriteTree.removeAllWrites.1⟩ hhandled h.points h.views
      (.ackUserWrite [] (FImmutableTree.empty.setValue stringComparator () []) true)
      (fun _ hk => absurd hk List.not_mem_nil)
      ⟨([], ∅), rfl, _, FImmutableTree.WF.empty.setValue trivial fun _ hk =>
        absurd hk List.not_mem_nil, rfl, rfl⟩
    exact ⟨_, changes, happly, ⟨hwrites, hnone, hWF, hviews⟩, rfl, rfl⟩

/-! ### Registrations -/

/-- **The complete cache on a path** is what the server has sent. -/
theorem leaves_completeServerCacheOnPath {P : LeafTree.Patch String LeafValue}
    {t : FImmutableTree FSyncPoint} {p path : FPath}
    (ht : t.WF stringComparator K fun _ => True)
    (hviews : t.Everywhere (fun p view => FViewCache.Mirrors (P.within p) (S.sub p) view) p)
    (hpath : ∀ k ∈ path, K k) {node : Node}
    (hnode : completeServerCacheOnPath stringComparator t path = some node) :
    node.leaves = S.sub (p ++ path) := by
  -- the cache of a view on the way, read at the rest of the path
  have hview : ∀ {t : FImmutableTree FSyncPoint} {p path : FPath} {node : Node},
      (∀ k ∈ path, K k) → t.Everywhere (fun p view => FViewCache.Mirrors (P.within p) (S.sub p) view) p →
        (t.value.bind fun view => view.completeServerCacheAtPath path) = some node →
          node.leaves = S.sub (p ++ path) := by
    intro t p path node hpath hviews hnode
    obtain ⟨view, hvalue, hcache⟩ := Option.bind_eq_some_iff.1 hnode
    obtain ⟨cache, hcomplete, rfl⟩ := Option.map_eq_some_iff.1 hcache
    have hmirrors := hviews.of_value hvalue
    rw [FViewCache.completeServerSnap] at hcomplete
    split_ifs at hcomplete with hinit
    obtain rfl := Option.some.inj hcomplete
    rw [← Node.sub_leaves _ (hK.plain.notZero hpath), hmirrors.server_eq hinit, LeafTree.sub_append]
  induction path generalizing t p with
  | nil =>
      rw [completeServerCacheOnPath] at hnode
      exact hview hpath hviews hnode
  | cons front rest ih =>
      rw [completeServerCacheOnPath] at hnode
      split at hnode
      next cache hcache =>
        obtain rfl := Option.some.inj hnode
        exact hview hpath hviews hcache
      next =>
        split at hnode
        next nextChild hget =>
          obtain ⟨k', hk'⟩ := FImmutableTree.mem_of_get hget
          have hchild := hviews.childTree hK.distinct ht (hpath front List.mem_cons_self)
          rw [FImmutableTree.childTree, hget, Option.getD_some] at hchild
          rw [List.append_cons]
          exact ih (ht.of_mem hk') hchild (fun k hk => hpath k (List.mem_cons_of_mem front hk)) hnode
        next => cases hnode

theorem Mirrors.serverCacheForQuery (h : self.Mirrors stringComparator K S) {path : FPath}
    (hpath : ∀ k ∈ path, K k) :
    (self.serverCacheForQuery stringComparator path).node.WF ∧
      ((self.serverCacheForQuery stringComparator path).isFullyInitialized = true →
        (self.serverCacheForQuery stringComparator path).node.leaves = S.sub path) := by
  refine ⟨WF_serverCacheForQuery hK h.points (h.views.mono fun _ _ hview => hview.synced.wf) hpath,
    fun hinit => ?_⟩
  unfold FSyncTree.serverCacheForQuery at hinit ⊢
  cases hnode : completeServerCacheOnPath stringComparator self.syncPointTree path with
  | some node =>
      have hleaves := leaves_completeServerCacheOnPath hK h.points h.views hpath hnode
      rwa [List.nil_append] at hleaves
  | none =>
      rw [hnode] at hinit
      cases hinit

/-- **A new registration**, with a new view if it is the first at its path. -/
theorem Mirrors.addEventRegistration (h : self.Mirrors stringComparator K S) {path : FPath}
    (hpath : ∀ k ∈ path, K k) :
    (self.addEventRegistration stringComparator path).1.Mirrors stringComparator K S ∧
      (self.addEventRegistration stringComparator path).1.pendingWriteTree =
        self.pendingWriteTree := by
  unfold FSyncTree.addEventRegistration
  split
  next => exact ⟨h, rfl⟩
  next =>
    obtain ⟨hWF, hserver⟩ := h.serverCacheForQuery hK hpath
    have hview := FSyncPoint.mirrors_viewForQuery hK
      (⟨hpath, h.writes.visibleWrites⟩ : FWriteTreeRef.WF stringComparator K
        ⟨path, self.pendingWriteTree⟩) hWF hserver
    rw [patch_mk h.writes] at hview
    refine ⟨⟨h.writes, h.sets, h.points.setValue trivial hpath, ?_⟩, rfl⟩
    exact h.views.setValue hK.distinct h.points hpath hview

/-- **The last registration at a path is removed.** -/
theorem Mirrors.removeEventRegistration (h : self.Mirrors stringComparator K S) {path : FPath}
    (hpath : ∀ k ∈ path, K k) :
    (self.removeEventRegistration stringComparator path).Mirrors stringComparator K S :=
  ⟨h.writes, h.sets, h.points.removeValueAtPath hpath,
    h.views.removeValueAtPath hK.distinct h.points hpath⟩

end FSyncTree
end Teamstuff
