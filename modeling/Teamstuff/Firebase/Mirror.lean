/-
# Views that mirror the server

A view mirrors the server's data if its server cache, once complete, is that data, and what it
shows, once known, is the pending writes laid over it (`FViewCache.Mirrors`).  Each operation on
a view keeps this, with what it does to the writes and to the data: a write of the user is added
to the writes, data from the server is put into the data, and the answer to a write takes it out
of the writes, whether it has been made or not.

A merge from the server is a patch of the children of the view and is put in child by child,
those first that the view has.  This comes to the patch laid over the data at once
(`LeafTree.foldl_write_child`).
-/

import Teamstuff.Firebase.SyncTree

namespace Teamstuff

/-- A view that mirrors the data `S` of the server under the writes `P`. -/
structure FViewCache.Mirrors (P : LeafTree.Patch String LeafValue) (S : LeafTree String LeafValue)
    (view : FViewCache) : Prop where
  synced : view.Synced P
  server_eq : view.cachedServerSnap.isFullyInitialized = true →
    view.cachedServerSnap.node.leaves = S

namespace FViewProcessor

open FViewCache

variable {stringComparator : NSComparator} [Std.TransCmp stringComparator] {K : String → Prop}
  (hK : NodeKeys stringComparator K) {writesCache : FWriteTreeRef}
  (hwrites : writesCache.WF stringComparator K) {view : FViewCache} {path : FPath}
  (hpath : ∀ k ∈ path, K k) {P : LeafTree.Patch String LeafValue}
  {S m : LeafTree String LeafValue}

include hK hwrites

/-! ### Writes of the user -/

include hpath in
omit [Std.TransCmp stringComparator] in
theorem mirrors_applyUserOverwriteTo (h : view.Mirrors P S) {snap : Node} (hsnap : snap.WF)
    (hpatch : writesCache.patch = P.put path snap.leaves) (hclear : path = [] ∨ snap.leaves ≠ ∅)
    {optCompleteCache : Option Node} (hcache : ∀ node ∈ optCompleteCache, node.WF) :
    (applyUserOverwriteTo stringComparator view path snap writesCache optCompleteCache).1.Mirrors
      writesCache.patch S := by
  have hserver : (applyUserOverwriteTo stringComparator view path snap writesCache
      optCompleteCache).1.cachedServerSnap = view.cachedServerSnap :=
    cachedServerSnap_applyUserOverwriteTo view path snap optCompleteCache
  refine ⟨⟨WF_applyUserOverwriteTo hK.plain hwrites h.synced.wf hpath hsnap hcache,
    fun hknown => ?_⟩, ?_⟩
  · rw [Known, hserver] at hknown
    exact (updated_userOverwrite hK hpath h.synced hsnap hpatch hclear optCompleteCache
      hknown).shows
  · rw [hserver]
    exact h.server_eq

/-! ### Data from the server -/

section Server

variable (h : view.Mirrors writesCache.patch S)
  (hfull : writesCache.patch.root.isSome = true ∨ writesCache.patch.Full)

include h hfull

include hpath in
theorem mirrors_applyServerOverwriteTo {snap : Node} (hsnap : snap.WF) :
    (applyServerOverwriteTo stringComparator view path snap writesCache).1.Mirrors
      writesCache.patch (S.write path snap.leaves) := by
  refine ⟨⟨WF_applyServerOverwriteTo hK.plain hwrites h.synced.wf hpath hsnap, fun hknown =>
    (updated_serverOverwrite hK hwrites hpath h.synced hsnap hfull hknown).shows⟩, fun hinit => ?_⟩
  have hcomplete : path = [] ∨ view.cachedServerSnap.isFullyInitialized = true := by
    cases path with
    | nil => exact Or.inl rfl
    | cons childKey childChangePath =>
        rw [isFullyInitialized_applyServerOverwriteTo] at hinit
        exact Or.inr hinit
  obtain ⟨server, hserver, -, hleaves⟩ := applyServerOverwriteTo_of_complete hK writesCache
    h.synced.wf hpath hsnap hcomplete
  rw [hserver, cachedServerSnap_generateEventCacheAfterServerEvent]
  refine hleaves.trans ?_
  rcases hcomplete with rfl | hinit'
  · rw [LeafTree.write_nil, LeafTree.write_nil]
  · rw [h.server_eq hinit']

omit hK hwrites h hfull [Std.TransCmp stringComparator] in
theorem mirrors_applyEach {α : Type} {l : List α}
    {step : FViewCache → α → FViewCache × List FChange}
    {write : LeafTree String LeafValue → α → LeafTree String LeafValue}
    (hstep : ∀ a ∈ l, ∀ (view : FViewCache) S, view.Mirrors P S →
      (step view a).1.Mirrors P (write S a)) (h : view.Mirrors P S) :
    (applyEach step view l).1.Mirrors P (l.foldl write S) := by
  induction l generalizing view S with
  | nil => exact h
  | cons a l ih =>
      exact ih (fun b hb => hstep b (List.mem_cons_of_mem a hb))
        (hstep a List.mem_cons_self view S h)

omit hK hwrites h hfull [Std.TransCmp stringComparator] in
/-- The children of a merge in the order in which they are put in, where there is complete data. -/
theorem perm_filter_hasChild {α : Type} (server : FCacheNode)
    (hserver : server.isFullyInitialized = true) (l : List (String × α)) (q : String × α → Bool) :
    ((l.filter fun child => FNode.hasChild server.node child.1) ++ l.filter fun child =>
      !FNode.hasChild server.node child.1 &&
        !(!server.isCompleteForChild child.1 && q child)).Perm l := by
  have hall : ∀ child : String × α, (!FNode.hasChild server.node child.1 &&
      !(!server.isCompleteForChild child.1 && q child)) =
        !FNode.hasChild server.node child.1 := fun child => by
    rw [FCacheNode.isCompleteForChild, hserver, Bool.true_or, Bool.not_true, Bool.false_and,
      Bool.not_false, Bool.and_true]
  simp only [hall]
  exact List.filter_append_perm _ l

/-- Children of a merge, put in one after the other. -/
theorem mirrors_mergeChildren {merge : FCompoundWrite} (hmerge : merge.WF stringComparator K)
    {l : List (String × FCompoundWrite)} (hl : ∀ child ∈ l, child ∈ merge.childCompoundWrites)
    {server : Node} (hserver : server.WF) :
    (applyEach (fun curViewCache child => applyServerOverwriteTo stringComparator curViewCache
      (FPath.initWith child.1) (child.2.applyToNode (server.getImmediateChild child.1))
        writesCache) view l).1.Mirrors writesCache.patch
      (l.foldl (fun S child => S.write [child.1]
        (child.2.applyToNode (server.getImmediateChild child.1)).leaves) S) := by
  refine mirrors_applyEach (fun child hchild view S hview => ?_) h
  obtain ⟨hkey, hWF⟩ := hmerge.of_mem_childCompoundWrites (hl child hchild)
  rw [FPath.initWith_of_isValidKey (hK.plain.valid child.1 hkey)]
  exact mirrors_applyServerOverwriteTo hK hwrites (fun k hk => List.mem_singleton.1 hk ▸ hkey)
    hview hfull (hWF.applyToNode hK.plain (hserver.getImmediateChild child.1))

omit hwrites h hfull in
/-- What they come to, where there is complete data. -/
theorem foldl_mergeChildren {merge : FCompoundWrite} (hmerge : merge.WF stringComparator K)
    (hroot : merge.rootWrite = none) {l : List (String × FCompoundWrite)}
    (hl : l.Perm merge.childCompoundWrites) {server : Node} (hserver : server.WF) :
    l.foldl (fun S child => S.write [child.1]
      (child.2.applyToNode (server.getImmediateChild child.1)).leaves) server.leaves =
        merge.patch.act server.leaves := by
  have hnone : merge.patch.root = none := by rw [FCompoundWrite.root_patch, hroot]; rfl
  have hkeys := hl.map Prod.fst
  rw [← LeafTree.foldl_write_child hnone
    (hkeys.nodup_iff.2 (FCompoundWrite.nodup_childCompoundWrites hmerge))
    (fun k hk => FCompoundWrite.child_patch_of_not_mem hroot fun hmem =>
      hk (hkeys.mem_iff.2 hmem)) server.leaves, List.foldl_map]
  refine List.foldl_ext _ _ _ fun S child hchild => ?_
  have hmem := hl.mem_iff.1 hchild
  obtain ⟨hkey, hWF⟩ := hmerge.of_mem_childCompoundWrites hmem
  rw [FCompoundWrite.leaves_applyToNode hK hWF (hserver.getImmediateChild child.1),
    FCompoundWrite.patch_of_mem_childCompoundWrites hmerge hroot hmem,
    Node.child_leaves server (isNegativeZero_of_isPlainKey (hK.plain child.1 hkey))]

omit hK hwrites h hfull [Std.TransCmp stringComparator] in
/-- A merge is left out, or its children are put in in some order. -/
theorem applyServerMergeTo_eq (view : FViewCache) (path : FPath) (children : FCompoundWrite) :
    view.cachedServerSnap.isFullyInitialized = false ∧
        applyServerMergeTo stringComparator view path children writesCache = (view, []) ∨
      ∃ l : List (String × FCompoundWrite),
        (∀ child ∈ l, child ∈ (actualMerge stringComparator path children).childCompoundWrites) ∧
        (view.cachedServerSnap.isFullyInitialized = true →
          l.Perm (actualMerge stringComparator path children).childCompoundWrites) ∧
        applyServerMergeTo stringComparator view path children writesCache =
          applyEach (fun curViewCache child => applyServerOverwriteTo stringComparator curViewCache
            (FPath.initWith child.1)
            (child.2.applyToNode (view.cachedServerSnap.node.getImmediateChild child.1))
            writesCache) view l := by
  unfold applyServerMergeTo
  dsimp only
  split_ifs with hempty
  · rw [Bool.and_eq_true, Bool.not_eq_true'] at hempty
    exact Or.inl ⟨hempty.2, rfl⟩
  · refine Or.inr ⟨_, fun child hchild => ?_, fun hinit => perm_filter_hasChild _ hinit _ _, rfl⟩
    rcases List.mem_append.1 hchild with hchild | hchild <;> exact (List.mem_filter.1 hchild).1

include hpath in
/-- **A merge from the server.** -/
theorem mirrors_applyServerMergeTo {children : FCompoundWrite}
    (hchildren : children.WF stringComparator K) (hroot : children.rootWrite = none) :
    (applyServerMergeTo stringComparator view path children writesCache).1.Mirrors
      writesCache.patch ((LeafTree.nest path children.patch).act S) := by
  have hmerge := WF_actualMerge hK.plain hpath hchildren
  have hpatch : (actualMerge stringComparator path children).patch =
      LeafTree.nest path children.patch := by
    rw [actualMerge]
    split_ifs with hempty
    · rw [List.isEmpty_iff.1 hempty, LeafTree.nest]
    · exact FCompoundWrite.patch_addCompoundWrite_emptyWrite hK hchildren hpath
  have hrootWrite : (actualMerge stringComparator path children).rootWrite = none := by
    rw [← Option.map_eq_none_iff (f := Node.leaves), ← FCompoundWrite.root_patch, hpatch]
    cases path with
    | nil => rw [LeafTree.nest, FCompoundWrite.root_patch, hroot]; rfl
    | cons k p => rfl
  have hstill : (applyServerMergeTo stringComparator view path children
      writesCache).1.cachedServerSnap.isFullyInitialized =
        view.cachedServerSnap.isFullyInitialized :=
    isFullyInitialized_applyServerMergeTo hK.plain hpath hchildren view
  rcases applyServerMergeTo_eq view path children with ⟨hinit, hnew⟩ | ⟨l, hl, hperm, hnew⟩
  · rw [hnew]
    exact ⟨h.synced, fun hinit' => absurd (hinit.symm.trans hinit') Bool.false_ne_true⟩
  · rw [hnew] at hstill ⊢
    have hmirrors := mirrors_mergeChildren hK hwrites h hfull hmerge hl h.synced.wf.server
    refine ⟨hmirrors.synced, fun hinit => (hmirrors.server_eq hinit).trans ?_⟩
    rw [hstill] at hinit
    rw [← hpatch, ← h.server_eq hinit]
    exact foldl_mergeChildren hK hmerge hrootWrite (hperm hinit) h.synced.wf.server

include hpath in
/-- **The server has sent all it has.** -/
theorem mirrors_listenCompleteOldCache
    (hsent : path = [] → view.cachedServerSnap.node.leaves = S) :
    (listenCompleteOldCache stringComparator view path writesCache).1.Mirrors
      writesCache.patch S := by
  refine ⟨⟨WF_listenCompleteOldCache hK.plain hwrites h.synced.wf hpath, fun hknown =>
    (updated_listenComplete hK hwrites hpath h.synced hfull hknown).shows⟩, ?_⟩
  rw [listenCompleteOldCache, cachedServerSnap_generateEventCacheAfterServerEvent]
  intro hinit
  cases path with
  | nil => exact hsent rfl
  | cons k p =>
      rw [FViewCache.updateServerSnap, List.isEmpty_cons, Bool.or_false] at hinit
      exact h.server_eq hinit

end Server

/-! ### The server's answer to a write -/

section Answer

variable (h : view.Mirrors P S)

omit hK hwrites [Std.TransCmp stringComparator] in
theorem cachedServerSnap_revertUserWriteOn (view : FViewCache) (path : FPath) :
    (revertUserWriteOn stringComparator view path writesCache).1.cachedServerSnap =
      view.cachedServerSnap := by
  unfold revertUserWriteOn
  split <;> rfl

include h

/-- **All writes are dropped.** -/
theorem mirrors_revertUserWriteOn_nil (hnone : writesCache.patch.root = none) :
    (revertUserWriteOn stringComparator view [] writesCache).1.Mirrors writesCache.patch S := by
  refine ⟨⟨WF_revertUserWriteOn hK.plain hwrites h.synced.wf fun _ hk => absurd hk List.not_mem_nil,
    fun hknown => (updated_revertUserWrite_nil hK hwrites h.synced.wf hnone hknown).shows⟩, ?_⟩
  rw [cachedServerSnap_revertUserWriteOn]
  exact h.server_eq

variable (hbefore : ∀ L, P.act L = writesCache.patch.act (L.write path m))
  (hroot : writesCache.patch.root.isSome = true → P.root.isSome = true)
  (hfull : writesCache.patch.root.isSome = true ∨ writesCache.patch.Full)

include hpath hbefore hroot hfull

/-- **A write is acknowledged.** -/
theorem mirrors_ackUserWriteOn {affectedTree : FImmutableTree Unit}
    (haffected : affectedTree.WF stringComparator K fun _ => True)
    (hvalue : affectedTree.value.isSome = true) (hclear : S.Clear path (S.sub path)) :
    (ackUserWriteOn stringComparator view path affectedTree writesCache).1.Mirrors
      writesCache.patch S := by
  refine ⟨⟨WF_ackUserWriteOn (hwrites.mono hK.plain) h.synced.wf (fun k hk => hK.plain k (hpath k hk))
    (haffected.mono hK.plain), fun hknown => (updated_ackUserWrite hK hwrites hpath h.synced hbefore
      hroot hfull hvalue (fun hinit => ?_) hknown).shows⟩, fun hinit => ?_⟩
  · rw [h.server_eq hinit]
    exact hclear
  · have hold : view.cachedServerSnap.isFullyInitialized = true := by
      by_contra hold
      rw [Bool.not_eq_true] at hold
      have hstill : (ackUserWriteOn stringComparator view path affectedTree
          writesCache).1.cachedServerSnap.isFullyInitialized = false :=
        isFullyInitialized_ackUserWriteOn h.synced.wf hvalue hold
      exact Bool.false_ne_true (hstill.symm.trans hinit)
    rw [leaves_ackUserWriteOn hK hpath h.synced.wf hvalue hold]
    exact h.server_eq hold

/-- **A write is turned down.** -/
theorem mirrors_revertUserWriteOn (hm : path = [] ∨ m ≠ ∅) :
    (revertUserWriteOn stringComparator view path writesCache).1.Mirrors writesCache.patch S := by
  refine ⟨⟨WF_revertUserWriteOn hK.plain hwrites h.synced.wf hpath, fun hknown =>
    (updated_revertUserWrite hK hwrites hpath h.synced hbefore hroot hfull hm hknown).shows⟩, ?_⟩
  rw [cachedServerSnap_revertUserWriteOn]
  exact h.server_eq

end Answer

end FViewProcessor

/-! ### A new view -/

/-- **A view begins in step**, from what its server cache has. -/
theorem FSyncPoint.mirrors_viewForQuery {stringComparator : NSComparator}
    [Std.TransCmp stringComparator] {K : String → Prop} (hK : NodeKeys stringComparator K)
    {writesCache : FWriteTreeRef} (hwrites : writesCache.WF stringComparator K)
    {serverCache : FCacheNode} (hWF : serverCache.node.WF) {S : LeafTree String LeafValue}
    (hserver : serverCache.isFullyInitialized = true → serverCache.node.leaves = S) :
    FViewCache.Mirrors writesCache.patch S
      (FSyncPoint.viewForQuery stringComparator writesCache serverCache) := by
  have hcache : ∀ node ∈ (if serverCache.isFullyInitialized then some serverCache.node else none),
      node.WF := fun node hnode => by
    split_ifs at hnode
    · exact Option.some.inj hnode ▸ hWF
    · cases hnode
  have hleaves := FWriteTreeRef.leaves_calculateCompleteEventCache hK hwrites hcache
  unfold viewForQuery
  dsimp only
  cases hevent : writesCache.calculateCompleteEventCache stringComparator
      (if serverCache.isFullyInitialized then some serverCache.node else none) with
  | some eventCache =>
      refine ⟨⟨⟨hwrites.calculateCompleteEventCache hK.plain hcache hevent, hWF⟩, fun _ =>
        ⟨rfl, ?_⟩⟩, hserver⟩
      rw [hevent] at hleaves
      cases hinit : serverCache.isFullyInitialized with
      | true =>
          rw [hinit, if_pos rfl] at hleaves
          exact Option.some.inj hleaves
      | false =>
          rw [hinit, if_neg Bool.false_ne_true] at hleaves
          exact (LeafTree.act_of_root hleaves.symm _).symm
  | none =>
      refine ⟨⟨⟨hwrites.calculateCompleteEventChildren hK.plain hWF, hWF⟩, fun hknown => ?_⟩,
        hserver⟩
      -- then nothing of it is known
      rw [hevent, Option.map_none] at hleaves
      cases hinit : serverCache.isFullyInitialized with
      | true =>
          rw [hinit, if_pos rfl] at hleaves
          cases hleaves
      | false =>
          rw [hinit, if_neg Bool.false_ne_true] at hleaves
          have hnone : writesCache.patch.root = none := hleaves.symm
          rcases hknown with hknown | hknown
          · exact absurd (hinit.symm.trans hknown) Bool.false_ne_true
          · rw [hnone] at hknown
            cases hknown

/-! ### At a sync point -/

/-- **An operation at a sync point** is one on its view, and nothing raises an exception. -/
theorem FSyncPoint.exists_applyOperation {stringComparator : NSComparator}
    [Std.TransCmp stringComparator] {writesCache : FWriteTreeRef}
    (hwrites : writesCache.WF stringComparator fun k => isPlainKey k = true) {view : FSyncPoint}
    (h : FViewCache.WF view) {operation : FOperation}
    (hoperation : operation.WF stringComparator fun k => isPlainKey k = true)
    {serverCache : Option Node} (hcache : ∀ node ∈ serverCache, node.WF) :
    ∃ accumulator : FChildChangeAccumulator,
      accumulator.Reports view.cachedEventSnap.node.childLeaves
        (FViewProcessor.newViewCache stringComparator view operation writesCache
          serverCache).1.cachedEventSnap.node.childLeaves ∧
      view.applyOperation stringComparator operation writesCache serverCache = some
        ((FViewProcessor.newViewCache stringComparator view operation writesCache serverCache).1,
          (FViewProcessor.maybeAddValue view (FViewProcessor.newViewCache stringComparator view
            operation writesCache serverCache).1 accumulator.changes).map fun change =>
              (writesCache.path, change)) := by
  obtain ⟨accumulator, -, hresult, hreports⟩ :=
    FViewProcessor.applyOperationOn_eq_some h hwrites hoperation hcache
  have hstill : ((FViewProcessor.newViewCache stringComparator view operation writesCache
      serverCache).1.cachedServerSnap.isFullyInitialized ||
        !view.cachedServerSnap.isFullyInitialized) = true := by
    cases hinit : view.cachedServerSnap.isFullyInitialized with
    | true => rw [FViewProcessor.complete_newViewCache hinit operation serverCache, Bool.true_or]
    | false => rw [Bool.not_false, Bool.or_true]
  refine ⟨accumulator, hreports, ?_⟩
  rw [applyOperation, hresult, Option.bind_some]
  exact if_pos hstill

end Teamstuff
