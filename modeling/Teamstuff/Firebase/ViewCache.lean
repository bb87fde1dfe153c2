/-
# What a view keeps, and what it reports

`FCacheNode.m`, `FViewCache.m`, `FChange.m`, `FChildChangeAccumulator.m` and
`FIndexedFilter.m`.  A view keeps two nodes, what the server has sent and what its listeners
have been shown, each with whether all of it is known.  When the shown node changes, the filter
of the view says which children have been added, removed or changed.  It may say so more than
once for a child within one operation, and the accumulator draws these changes together; a
change that does not fit the one before it raises an exception.

A log of changes leads from the children before it to those after it (`Leads`).  Both ways of
the filter to change the node write such a log (`leads_updateChildIn`,
`leads_updateFullNode`), and from such a log the accumulator makes without an exception one
change for each child that differs (`trackChildChanges_of_leads`).

The views are those of queries without limits, whose filter is `FIndexedFilter`; it does not
filter, and reads neither the index nor the source of complete children it is given.
Priorities are not modelled (`Teamstuff.Firebase.Node`).
-/

import Teamstuff.Firebase.Leaves
import Mathlib.Logic.Function.Basic

namespace Teamstuff

/-! ### The caches -/

namespace Node

/-- `isLeafNode`. -/
def isLeafNode : Node → Bool
  | .leaf _ => true
  | .children _ => false

end Node

/-- `hasChild:`. -/
def FNode.hasChild (self : Node) (childName : String) : Bool :=
  !(self.getImmediateChild childName).isEmpty

/-- `FCacheNode`. -/
structure FCacheNode where
  node : Node
  isFullyInitialized : Bool

namespace FCacheNode

/-- `isCompleteForChild:`. -/
def isCompleteForChild (self : FCacheNode) (childKey : String) : Bool :=
  self.isFullyInitialized || FNode.hasChild self.node childKey

/-- `isCompleteForPath:`. -/
def isCompleteForPath (self : FCacheNode) (path : FPath) : Bool :=
  match path with
  | [] => self.isFullyInitialized
  | childKey :: _ => self.isCompleteForChild childKey

end FCacheNode

/-- `FViewCache`. -/
structure FViewCache where
  cachedEventSnap : FCacheNode
  cachedServerSnap : FCacheNode

namespace FViewCache

/-- `updateEventSnap:isComplete:isFiltered:`. -/
def updateEventSnap (self : FViewCache) (eventSnap : Node) (complete : Bool) : FViewCache :=
  { self with cachedEventSnap := ⟨eventSnap, complete⟩ }

/-- `updateServerSnap:isComplete:isFiltered:`. -/
def updateServerSnap (self : FViewCache) (serverSnap : Node) (complete : Bool) : FViewCache :=
  { self with cachedServerSnap := ⟨serverSnap, complete⟩ }

/-- `completeEventSnap`. -/
def completeEventSnap (self : FViewCache) : Option Node :=
  if self.cachedEventSnap.isFullyInitialized then some self.cachedEventSnap.node else none

/-- `completeServerSnap`. -/
def completeServerSnap (self : FViewCache) : Option Node :=
  if self.cachedServerSnap.isFullyInitialized then some self.cachedServerSnap.node else none

end FViewCache

/-! ### Changes -/

/-- `FChange`, with the type as the constructor. -/
inductive FChange
  | childAdded (childKey : String) (node : Node)
  | childRemoved (childKey : String) (node : Node)
  | childChanged (childKey : String) (node oldNode : Node)
  | value (node : Node)

/-- `childKey`. -/
def FChange.childKey : FChange → Option String
  | .childAdded childKey _ => some childKey
  | .childRemoved childKey _ => some childKey
  | .childChanged childKey _ _ => some childKey
  | .value _ => none

/-- `FChildChangeAccumulator`. -/
structure FChildChangeAccumulator where
  changeMap : List (String × FChange)

namespace FChildChangeAccumulator

/-- `init`. -/
def init : FChildChangeAccumulator := ⟨[]⟩

/-- `setObject:forKey:` and `removeObjectForKey:` of the map. -/
def setObject (self : FChildChangeAccumulator) (change : Option FChange) (key : String) :
    FChildChangeAccumulator :=
  ⟨(change.map fun c => (key, c)).toList ++ self.changeMap.filter fun e => e.1 ≠ key⟩

/-- `trackChildChange:`; `none` stands for the exceptions. -/
def trackChildChange (self : FChildChangeAccumulator) (change : FChange) :
    Option FChildChangeAccumulator :=
  match change.childKey with
  | none => none
  | some childKey =>
      match self.changeMap.lookup childKey with
      | none => some (self.setObject (some change) childKey)
      | some oldChange =>
          match change, oldChange with
          | .childAdded _ node, .childRemoved _ oldNode =>
              some (self.setObject (some (.childChanged childKey node oldNode)) childKey)
          | .childRemoved _ _, .childAdded _ _ => some (self.setObject none childKey)
          | .childRemoved _ _, .childChanged _ _ oldNode =>
              some (self.setObject (some (.childRemoved childKey oldNode)) childKey)
          | .childChanged _ node _, .childAdded _ _ =>
              some (self.setObject (some (.childAdded childKey node)) childKey)
          | .childChanged _ node _, .childChanged _ _ oldNode =>
              some (self.setObject (some (.childChanged childKey node oldNode)) childKey)
          | _, _ => none

/-- The changes of an operation tracked one after the other. -/
def trackChildChanges (self : FChildChangeAccumulator) (log : List FChange) :
    Option FChildChangeAccumulator :=
  log.foldlM trackChildChange self

/-- `changes`, in no particular order. -/
def changes (self : FChildChangeAccumulator) : List FChange := self.changeMap.map Prod.snd

end FChildChangeAccumulator

/-! ### The filter -/

namespace FIndexedFilter

/-- The change that `updateChildIn:` tracks. -/
def trackedChange (node : Node) (childKey : String) (newChildSnap : Node) : List FChange :=
  let oldChildSnap := node.getImmediateChild childKey
  if newChildSnap.isEmpty then
    if FNode.hasChild node childKey then [.childRemoved childKey oldChildSnap] else []
  else if oldChildSnap.isEmpty then [.childAdded childKey newChildSnap]
  else [.childChanged childKey newChildSnap oldChildSnap]

/-- `updateChildIn:forChildKey:newChild:affectedPath:fromSource:accumulator:`, with the changes it
tracks, in a build without `DEBUG`.  (With it the two children are asserted to be equal where
nothing has changed at the path.) -/
def updateChildIn (node : Node) (childKey : String) (newChildSnap : Node) (affectedPath : FPath) :
    Node × List FChange :=
  let oldChildSnap := node.getImmediateChild childKey
  if (oldChildSnap.getChild affectedPath).isEqual (newChildSnap.getChild affectedPath) &&
      oldChildSnap.isEmpty == newChildSnap.isEmpty then (node, [])
  else
    (if node.isLeafNode && newChildSnap.isEmpty then node
      else node.updateImmediateChild childKey newChildSnap,
      trackedChange node childKey newChildSnap)

/-- The change for a child of the old node in `updateFullNode:`. -/
def removedChange (newSnap : Node) (child : String × Node) : Option FChange :=
  if FNode.hasChild newSnap child.1 then none else some (.childRemoved child.1 child.2)

/-- The change for a child of the new node in it. -/
def addedChange (oldSnap : Node) (child : String × Node) : Option FChange :=
  if FNode.hasChild oldSnap child.1 then
    if (oldSnap.getImmediateChild child.1).isEqual child.2 then none
    else some (.childChanged child.1 child.2 (oldSnap.getImmediateChild child.1))
  else some (.childAdded child.1 child.2)

/-- `updateFullNode:withNewNode:accumulator:`, with the changes it tracks. -/
def updateFullNode (oldSnap newSnap : Node) : Node × List FChange :=
  (newSnap, oldSnap.childList.filterMap (removedChange newSnap) ++
    newSnap.childList.filterMap (addedChange oldSnap))

end FIndexedFilter

/-! ### Logs of changes -/

/-- The children of a node by their names. -/
def Node.childLeaves (n : Node) (k : String) : LeafTree String LeafValue := n.leaves.child k

/-- A node has a child if there are leaves below its name. -/
theorem Node.WF.hasChild_iff {n : Node} (h : n.WF) {k : String} (hk : isNegativeZero k = false) :
    FNode.hasChild n k = true ↔ n.childLeaves k ≠ ∅ := by
  rw [FNode.hasChild, Bool.not_eq_true', ← Bool.not_eq_true, childLeaves, child_leaves n hk, Ne,
    (h.getImmediateChild k).leaves_eq_empty_iff]

/-- The leaves of a child. -/
theorem Node.WF.childLeaves_of_mem {n : Node} (h : n.WF) {c : String × Node}
    (hc : c ∈ n.childList) :
    n.childLeaves c.1 = c.2.leaves ∧ n.childLeaves c.1 ≠ ∅ ∧ c.2.WF := by
  have hWF := h.of_mem_childList hc
  rw [childLeaves, child_leaves n (isNegativeZero_of_isPlainKey (h.key_of_mem hc)),
    h.getImmediateChild_of_mem hc]
  refine ⟨rfl, fun hempty => ?_, hWF⟩
  rw [hWF.leaves_eq_empty_iff, h.nonempty_of_mem hc] at hempty
  exact Bool.false_ne_true hempty

/-- There are no leaves below other names. -/
theorem Node.WF.childLeaves_of_not_mem {n : Node} (h : n.WF) {k : String}
    (hk : k ∉ n.childList.map Prod.fst) : n.childLeaves k = ∅ := by
  rw [childLeaves]
  cases hzero : isNegativeZero k with
  | true => exact child_leaves_of_isNegativeZero n hzero
  | false =>
      have hempty : ¬ (n.getImmediateChild k).isEmpty = false := fun hne =>
        hk ((h.mem_keys_iff hzero).2 hne)
      rw [child_leaves n hzero]
      exact leaves_of_isEmpty (by rwa [Bool.not_eq_false] at hempty)

/-- What a change takes a child from and to. -/
def FChange.Takes : FChange → (old new : LeafTree String LeafValue) → Prop
  | .childAdded _ node, old, new => old = ∅ ∧ new = node.leaves ∧ new ≠ ∅
  | .childRemoved _ node, old, new => old = node.leaves ∧ old ≠ ∅ ∧ new = ∅
  | .childChanged _ node oldNode, old, new =>
      old = oldNode.leaves ∧ old ≠ ∅ ∧ new = node.leaves ∧ new ≠ ∅
  | .value _, _, _ => False

/-- The same for a child that need not have changed. -/
def FChange.Nets (k : String) (old new : LeafTree String LeafValue) : Option FChange → Prop
  | none => old = new
  | some change => change.childKey = some k ∧ change.Takes old new

/-- A log that leads from the children `f` to the children `g`, one change after the other. -/
def Leads (f : String → LeafTree String LeafValue) :
    List FChange → (String → LeafTree String LeafValue) → Prop
  | [], g => f = g
  | change :: log, g => ∃ k new, change.childKey = some k ∧ change.Takes (f k) new ∧
      Leads (Function.update f k new) log g

variable {f g h : String → LeafTree String LeafValue}

/-- One log after the other. -/
theorem Leads.append {log log' : List FChange} (hfg : Leads f log g) (hgh : Leads g log' h) :
    Leads f (log ++ log') h := by
  induction log generalizing f with
  | nil =>
      obtain rfl : f = g := hfg
      exact hgh
  | cons change log ih =>
      obtain ⟨k, new, hk, htakes, hrest⟩ := hfg
      exact ⟨k, new, hk, htakes, ih hrest⟩

/-- A single change. -/
theorem leads_singleton {change : FChange} {k : String} (hk : change.childKey = some k)
    (htakes : change.Takes (f k) (g k)) (hoff : ∀ k', k' ≠ k → g k' = f k') :
    Leads f [change] g := by
  refine ⟨k, g k, hk, htakes, funext fun k' => ?_⟩
  by_cases hk' : k' = k
  · rw [hk', Function.update_self]
  · rw [Function.update_of_ne hk', hoff k' hk']

/-- Children that are gone through one after the other, each with a change or none. -/
theorem leads_filterMap {l : List (String × Node)} {F : String × Node → Option FChange}
    (hnodup : (l.map Prod.fst).Nodup)
    (hnets : ∀ c ∈ l, FChange.Nets c.1 (f c.1) (g c.1) (F c)) :
    Leads f (l.filterMap F) fun k => if k ∈ l.map Prod.fst then g k else f k := by
  induction l generalizing f with
  | nil => exact funext fun k => (if_neg List.not_mem_nil).symm
  | cons c l ih =>
      obtain ⟨hc, hl⟩ := List.nodup_cons.1 hnodup
      have hne : ∀ d ∈ l, d.1 ≠ c.1 := fun d hd hdc =>
        hc (hdc ▸ List.mem_map.2 ⟨d, hd, rfl⟩)
      have hend : ∀ f' : String → LeafTree String LeafValue,
          (∀ k, k ≠ c.1 → f' k = f k) → f' c.1 = g c.1 →
          (fun k => if k ∈ l.map Prod.fst then g k else f' k) =
            fun k => if k ∈ (c :: l).map Prod.fst then g k else f k := by
        intro f' hoff hon
        funext k
        by_cases hk : k = c.1
        · subst hk
          rw [if_neg hc, if_pos (List.mem_map.2 ⟨c, List.mem_cons_self, rfl⟩), hon]
        · have hiff : k ∈ (c :: l).map Prod.fst ↔ k ∈ l.map Prod.fst := by
            rw [List.map_cons, List.mem_cons, or_iff_right hk]
          rw [hoff k hk]
          exact if_congr hiff.symm rfl rfl
      have hc' := hnets c List.mem_cons_self
      cases hF : F c with
      | none =>
          rw [hF] at hc'
          rw [List.filterMap_cons_none hF, ← hend f (fun _ _ => rfl) hc']
          exact ih hl fun d hd => hnets d (List.mem_cons_of_mem c hd)
      | some change =>
          rw [hF] at hc'
          have hupdate : ∀ k, k ≠ c.1 → Function.update f c.1 (g c.1) k = f k := fun k hk =>
            Function.update_of_ne hk _ _
          rw [List.filterMap_cons_some hF,
            ← hend (Function.update f c.1 (g c.1)) hupdate (Function.update_self ..)]
          refine ⟨c.1, g c.1, hc'.1, hc'.2, ih hl fun d hd => ?_⟩
          rw [hupdate d.1 (hne d hd)]
          exact hnets d (List.mem_cons_of_mem c hd)

/-! ### What the accumulator makes of a log -/

namespace FChildChangeAccumulator

/-- One change at most for each child, and it takes the child from `f` to `g`. -/
structure Reports (f g : String → LeafTree String LeafValue)
    (accumulator : FChildChangeAccumulator) : Prop where
  nodup : (accumulator.changeMap.map Prod.fst).Nodup
  nets : ∀ k, FChange.Nets k (f k) (g k) (accumulator.changeMap.lookup k)

/-- The change of a child, after another has been set. -/
theorem lookup_setObject (self : FChildChangeAccumulator) (change : Option FChange)
    (key k : String) : (self.setObject change key).changeMap.lookup k =
      if k = key then change else self.changeMap.lookup k := by
  have hrest : (self.changeMap.filter fun e => e.1 ≠ key).lookup k =
      if k = key then none else self.changeMap.lookup k := by
    induction self.changeMap with
    | nil => simp
    | cons e l ih =>
        obtain ⟨j, c⟩ := e
        rw [List.filter_cons]
        by_cases hj : j = key
        · rw [if_neg (by simp [hj]), ih, Assoc.lookup_cons_eq_if]
          split_ifs with h₁ h₂
          · rfl
          · exact absurd (h₂.trans hj) h₁
          · rfl
        · rw [if_pos (by simp [hj]), Assoc.lookup_cons_eq_if, ih, Assoc.lookup_cons_eq_if]
          split_ifs with h₁ h₂ <;> first | rfl | exact absurd (h₁.symm.trans h₂) hj
  rw [setObject]
  cases change with
  | none => exact hrest
  | some c =>
      change ((key, c) :: self.changeMap.filter fun e => e.1 ≠ key).lookup k = _
      rw [Assoc.lookup_cons_eq_if, hrest]
      split_ifs <;> rfl

/-- A child still has one change at most. -/
theorem nodup_setObject {self : FChildChangeAccumulator}
    (h : (self.changeMap.map Prod.fst).Nodup) (change : Option FChange) (key : String) :
    ((self.setObject change key).changeMap.map Prod.fst).Nodup := by
  have hrest : ((self.changeMap.filter fun e => e.1 ≠ key).map Prod.fst).Nodup :=
    h.sublist (List.filter_sublist.map _)
  cases change with
  | none => exact hrest
  | some c =>
      refine List.nodup_cons.2 ⟨fun hmem => ?_, hrest⟩
      obtain ⟨e, he, hkey⟩ := List.mem_map.1 hmem
      exact of_decide_eq_true (List.mem_filter.1 he).2 hkey

/-- Without changes nothing changes. -/
theorem reports_init (f : String → LeafTree String LeafValue) : init.Reports f f :=
  ⟨List.nodup_nil, fun _ => rfl⟩

/-- What a child has come to is set. -/
theorem Reports.setObject {self : FChildChangeAccumulator} (h : self.Reports f g)
    {k : String} {new : LeafTree String LeafValue} (change : Option FChange)
    (hchange : FChange.Nets k (f k) new change) :
    (self.setObject change k).Reports f (Function.update g k new) := by
  refine ⟨nodup_setObject h.nodup change k, fun k' => ?_⟩
  rw [lookup_setObject]
  by_cases hk' : k' = k
  · subst hk'
    rw [if_pos rfl, Function.update_self]
    exact hchange
  · rw [if_neg hk', Function.update_of_ne hk']
    exact h.nets k'

/-- **One change more.** -/
theorem Reports.trackChildChange {self : FChildChangeAccumulator} (h : self.Reports f g)
    {change : FChange} {k : String} (hk : change.childKey = some k)
    {new : LeafTree String LeafValue} (htakes : change.Takes (g k) new) :
    ∃ accumulator, self.trackChildChange change = some accumulator ∧
      accumulator.Reports f (Function.update g k new) := by
  have hold := h.nets k
  rw [FChildChangeAccumulator.trackChildChange]
  cases hlookup : self.changeMap.lookup k with
  | none =>
      rw [hlookup] at hold
      simp only [hk, hlookup]
      exact ⟨_, rfl, h.setObject (some change) ⟨hk, by rw [hold]; exact htakes⟩⟩
  | some oldChange =>
      rw [hlookup] at hold
      obtain ⟨-, holdTakes⟩ := hold
      simp only [hk, hlookup]
      cases change with
      | childAdded key node =>
          obtain ⟨hempty, rfl, hne⟩ := htakes
          cases oldChange with
          | childAdded _ _ => exact absurd hempty holdTakes.2.2
          | childRemoved _ oldNode =>
              exact ⟨_, rfl, h.setObject (some (.childChanged k node oldNode))
                ⟨rfl, holdTakes.1, holdTakes.2.1, rfl, hne⟩⟩
          | childChanged _ _ _ => exact absurd hempty holdTakes.2.2.2
          | value _ => exact holdTakes.elim
      | childRemoved key node =>
          obtain ⟨-, hne, rfl⟩ := htakes
          cases oldChange with
          | childAdded _ _ => exact ⟨_, rfl, h.setObject none holdTakes.1⟩
          | childRemoved _ _ => exact absurd holdTakes.2.2 hne
          | childChanged _ _ oldNode =>
              exact ⟨_, rfl, h.setObject (some (.childRemoved k oldNode))
                ⟨rfl, holdTakes.1, holdTakes.2.1, rfl⟩⟩
          | value _ => exact holdTakes.elim
      | childChanged key node _ =>
          obtain ⟨-, hne, rfl, hnew⟩ := htakes
          cases oldChange with
          | childAdded _ _ =>
              exact ⟨_, rfl, h.setObject (some (.childAdded k node))
                ⟨rfl, holdTakes.1, rfl, hnew⟩⟩
          | childRemoved _ _ => exact absurd holdTakes.2.2 hne
          | childChanged _ _ oldNode =>
              exact ⟨_, rfl, h.setObject (some (.childChanged k node oldNode))
                ⟨rfl, holdTakes.1, holdTakes.2.1, rfl, hnew⟩⟩
          | value _ => exact holdTakes.elim
      | value _ => exact htakes.elim

/-- **From a log that leads from `f` to `g` the accumulator makes one change for each child
that differs**, and raises no exception. -/
theorem trackChildChanges_of_leads {self : FChildChangeAccumulator} {log : List FChange}
    (hself : self.Reports f g) (hlog : Leads g log h) :
    ∃ accumulator, self.trackChildChanges log = some accumulator ∧
      accumulator.Reports f h := by
  induction log generalizing self g with
  | nil =>
      obtain rfl : g = h := hlog
      exact ⟨self, rfl, hself⟩
  | cons change log ih =>
      obtain ⟨k, new, hk, htakes, hrest⟩ := hlog
      obtain ⟨next, hnext, hreports⟩ := hself.trackChildChange hk htakes
      obtain ⟨last, hlast, hlastReports⟩ := ih hreports hrest
      refine ⟨last, ?_, hlastReports⟩
      rw [trackChildChanges, List.foldlM_cons, hnext]
      exact hlast

/-- Every change that is kept is that of its child. -/
theorem Reports.of_mem {self : FChildChangeAccumulator} (h : self.Reports f g)
    {e : String × FChange} (he : e ∈ self.changeMap) :
    e.2.childKey = some e.1 ∧ e.2.Takes (f e.1) (g e.1) := by
  have hnets := h.nets e.1
  rwa [Assoc.lookup_eq_some_of_mem h.nodup he] at hnets

/-- **Its changes lead from `f` to `g`**, whatever their order. -/
theorem Reports.leads {self : FChildChangeAccumulator} (h : self.Reports f g) :
    Leads f self.changes g := by
  have hoff : ∀ k, k ∉ self.changeMap.map Prod.fst → f k = g k := fun k hk => by
    have hnets := h.nets k
    rwa [Assoc.lookup_eq_none_iff.2 fun c hc => hk (List.mem_map.2 ⟨(k, c), hc, rfl⟩)] at hnets
  have hon := fun e he => h.of_mem (e := e) he
  have hnodup := h.nodup
  rw [changes]
  clear h
  generalize self.changeMap = changeMap at hoff hon hnodup ⊢
  induction changeMap generalizing f with
  | nil => exact funext fun k => hoff k List.not_mem_nil
  | cons e l ih =>
      obtain ⟨hnot, hl⟩ := List.nodup_cons.1 hnodup
      obtain ⟨hkey, htakes⟩ := hon e List.mem_cons_self
      refine ⟨e.1, g e.1, hkey, htakes, ih (fun k hk => ?_) (fun e' he' => ?_) hl⟩
      · by_cases hke : k = e.1
        · rw [hke, Function.update_self]
        · rw [Function.update_of_ne hke]
          exact hoff k fun hmem => (List.mem_cons.1 hmem).elim hke hk
      · have hne : e'.1 ≠ e.1 := fun heq => hnot (List.mem_map.2 ⟨e', he', heq⟩)
        rw [Function.update_of_ne hne]
        exact hon e' (List.mem_cons_of_mem e he')

end FChildChangeAccumulator

/-! ### The logs of the filter -/

namespace FIndexedFilter

variable {node newChildSnap : Node} {childKey : String} {affectedPath : FPath}

/-- To set a child is to write its leaves. -/
theorem leaves_updateImmediateChild (hnode : node.WF) (hnew : newChildSnap.WF)
    (hkey : isPlainKey childKey = true) :
    (node.updateImmediateChild childKey newChildSnap).leaves =
      node.leaves.write [childKey] newChildSnap.leaves := by
  rw [← Node.leaves_updateChild hnode.valid hnew.valid
    (List.forall_mem_singleton.2 (isNegativeZero_of_isPlainKey hkey))]
  cases node with
  | leaf v =>
      rw [Node.updateChild, Node.updateChild_nil, Node.updateImmediateChild]
      split_ifs <;> rfl
  | children cs => rw [Node.updateChild, Node.updateChild_nil]

/-- The change that is tracked for a child that is not what it was. -/
theorem trackedChange_eq_singleton (hnode : node.WF) (hnew : newChildSnap.WF)
    (hkey : isPlainKey childKey = true) (hne : node.childLeaves childKey ≠ newChildSnap.leaves) :
    ∃ change, trackedChange node childKey newChildSnap = [change] ∧
      change.childKey = some childKey ∧
      change.Takes (node.childLeaves childKey) newChildSnap.leaves := by
  have hzero := isNegativeZero_of_isPlainKey hkey
  have hold : node.childLeaves childKey = (node.getImmediateChild childKey).leaves :=
    Node.child_leaves node hzero
  rw [trackedChange]
  by_cases hempty : newChildSnap.isEmpty = true
  · have hnone := Node.leaves_of_isEmpty hempty
    rw [hnone] at hne ⊢
    rw [if_pos hempty, if_pos ((hnode.hasChild_iff hzero).2 hne)]
    exact ⟨_, rfl, rfl, hold, hne, rfl⟩
  · have hsome : newChildSnap.leaves ≠ ∅ := fun h => hempty (hnew.leaves_eq_empty_iff.1 h)
    rw [if_neg hempty]
    split_ifs with hadded
    · exact ⟨_, rfl, rfl, by rw [hold, Node.leaves_of_isEmpty hadded], rfl, hsome⟩
    · refine ⟨_, rfl, rfl, hold, fun h => hadded ?_, rfl, hsome⟩
      rw [← (hnode.getImmediateChild childKey).leaves_eq_empty_iff, ← hold, h]

/-- A child update changes nothing, which the check at the path has allowed, or puts in a child
that is not what it was and tracks that. -/
theorem updateChildIn_cases (hnode : node.WF) (hnew : newChildSnap.WF)
    (hkey : isPlainKey childKey = true) (hpath : ∀ k ∈ affectedPath, isPlainKey k = true) :
    ((node.childLeaves childKey).sub affectedPath = newChildSnap.leaves.sub affectedPath ∧
        updateChildIn node childKey newChildSnap affectedPath = (node, [])) ∨
      (node.childLeaves childKey ≠ newChildSnap.leaves ∧
        (updateChildIn node childKey newChildSnap affectedPath).1.leaves =
          node.leaves.write [childKey] newChildSnap.leaves ∧
        (updateChildIn node childKey newChildSnap affectedPath).2 =
          trackedChange node childKey newChildSnap) := by
  have hold := hnode.getImmediateChild childKey
  have hequal := (hold.getChild affectedPath).isEqual_iff (hnew.getChild affectedPath)
  have hzero := isNegativeZero_of_isPlainKey hkey
  have hzeros := fun k hk => isNegativeZero_of_isPlainKey (hpath k hk)
  rw [← Node.sub_leaves _ hzeros, ← Node.sub_leaves _ hzeros] at hequal
  rw [Node.childLeaves, Node.child_leaves node hzero, updateChildIn]
  split_ifs with hsame hleaf
  · rw [Bool.and_eq_true] at hsame
    exact Or.inl ⟨hequal.1 hsame.1, rfl⟩
  · -- a leaf has no child that could be taken from it
    rw [Bool.and_eq_true] at hleaf
    refine absurd ?_ hsame
    cases node with
    | leaf v =>
        rw [Bool.and_eq_true, beq_iff_eq, hequal, hleaf.2, Node.leaves_of_isEmpty hleaf.2]
        exact ⟨by rw [Node.leaves_of_isEmpty rfl], rfl⟩
    | children cs => exact absurd hleaf.1 Bool.false_ne_true
  · refine Or.inr ⟨fun hne => hsame ?_, leaves_updateImmediateChild hnode hnew hkey, rfl⟩
    rw [Bool.and_eq_true, beq_iff_eq, hequal, hne]
    exact ⟨rfl, Node.isEmpty_iff_of_leaves_eq hold hnew hne⟩

/-- The child is replaced, where the check at the path is enough. -/
theorem leaves_updateChildIn (hnode : node.WF) (hnew : newChildSnap.WF)
    (hkey : isPlainKey childKey = true) (hpath : ∀ k ∈ affectedPath, isPlainKey k = true)
    (hoff : (node.childLeaves childKey).sub affectedPath = newChildSnap.leaves.sub affectedPath →
      node.childLeaves childKey = newChildSnap.leaves) :
    (updateChildIn node childKey newChildSnap affectedPath).1.leaves =
      node.leaves.write [childKey] newChildSnap.leaves := by
  rcases updateChildIn_cases hnode hnew hkey hpath with ⟨hsame, hnone⟩ | ⟨-, hleaves, -⟩
  · have hself := node.leaves.write_sub_self [childKey]
    rw [LeafTree.sub_cons, LeafTree.sub_nil, ← Node.childLeaves, hoff hsame] at hself
    rw [hnone]
    exact hself.symm
  · exact hleaves

/-- **The log of a child update** leads to the new children, and has nothing in it if they are
the old ones. -/
theorem leads_updateChildIn (hnode : node.WF) (hnew : newChildSnap.WF)
    (hkey : isPlainKey childKey = true) (hpath : ∀ k ∈ affectedPath, isPlainKey k = true) :
    Leads node.childLeaves (updateChildIn node childKey newChildSnap affectedPath).2
        (updateChildIn node childKey newChildSnap affectedPath).1.childLeaves ∧
      (node.childLeaves = (updateChildIn node childKey newChildSnap affectedPath).1.childLeaves →
        (updateChildIn node childKey newChildSnap affectedPath).2 = []) := by
  rcases updateChildIn_cases hnode hnew hkey hpath with ⟨-, hnone⟩ | ⟨hne, hleaves, hlog⟩
  · rw [hnone]
    exact ⟨rfl, fun _ => rfl⟩
  · have hchild : ∀ k, (updateChildIn node childKey newChildSnap affectedPath).1.childLeaves k =
        if k = childKey then newChildSnap.leaves else node.childLeaves k := fun k => by
      rw [Node.childLeaves, hleaves, LeafTree.child_write, LeafTree.write_nil, Node.childLeaves]
    obtain ⟨change, hchange, hchangeKey, htakes⟩ :=
      trackedChange_eq_singleton hnode hnew hkey hne
    rw [hlog, hchange]
    refine ⟨leads_singleton hchangeKey ?_ fun k hk => ?_, fun hsame => absurd ?_ hne⟩
    · rwa [hchild, if_pos rfl]
    · rw [hchild, if_neg hk]
    · rw [hsame, hchild, if_pos rfl]

/-- The node stays well formed. -/
theorem WF_updateChildIn (hnode : node.WF) (hnew : newChildSnap.WF)
    (hkey : isPlainKey childKey = true) :
    (updateChildIn node childKey newChildSnap affectedPath).1.WF := by
  rw [updateChildIn]
  split_ifs
  · exact hnode
  · exact hnode
  · exact hnode.updateImmediateChild hnew hkey

/-- The change for a child of the new node is the whole change there. -/
theorem nets_addedChange {oldSnap newSnap : Node} (hold : oldSnap.WF) (hnew : newSnap.WF)
    {child : String × Node} (hchild : child ∈ newSnap.childList) :
    FChange.Nets child.1 (oldSnap.childLeaves child.1) (newSnap.childLeaves child.1)
        (addedChange oldSnap child) ∧
      (addedChange oldSnap child = none ↔
        oldSnap.childLeaves child.1 = newSnap.childLeaves child.1) := by
  obtain ⟨hleaves, hne, hWF⟩ := hnew.childLeaves_of_mem hchild
  have hzero := isNegativeZero_of_isPlainKey (hnew.key_of_mem hchild)
  have hget : oldSnap.childLeaves child.1 = (oldSnap.getImmediateChild child.1).leaves :=
    Node.child_leaves oldSnap hzero
  rw [addedChange]
  split_ifs with hhas hequal
  · have hsame : oldSnap.childLeaves child.1 = newSnap.childLeaves child.1 := by
      rw [hget, hleaves]
      exact ((hold.getImmediateChild child.1).isEqual_iff hWF).1 hequal
    exact ⟨hsame, iff_of_true rfl hsame⟩
  · rw [(hold.getImmediateChild child.1).isEqual_iff hWF, ← hget, ← hleaves] at hequal
    exact ⟨⟨rfl, hget, (hold.hasChild_iff hzero).1 hhas, hleaves, hne⟩,
      iff_of_false id hequal⟩
  · rw [hold.hasChild_iff hzero, not_not] at hhas
    refine ⟨⟨rfl, hhas, hleaves, hne⟩, iff_of_false id ?_⟩
    rw [hhas]
    exact Ne.symm hne

/-- **The log of a full update** leads from the children of the one node to those of the other,
and has nothing in it exactly if they are the same. -/
theorem leads_updateFullNode {oldSnap newSnap : Node} (hold : oldSnap.WF) (hnew : newSnap.WF) :
    Leads oldSnap.childLeaves (updateFullNode oldSnap newSnap).2 newSnap.childLeaves ∧
      ((updateFullNode oldSnap newSnap).2 = [] ↔ oldSnap.childLeaves = newSnap.childLeaves) := by
  -- the children that stay, before any is changed or added
  let kept : String → LeafTree String LeafValue := fun k =>
    if FNode.hasChild newSnap k then oldSnap.childLeaves k else ∅
  have hremoved : Leads oldSnap.childLeaves
      (oldSnap.childList.filterMap (removedChange newSnap)) kept := by
    have hkept : (fun k => if k ∈ oldSnap.childList.map Prod.fst then kept k
        else oldSnap.childLeaves k) = kept := by
      funext k
      split_ifs with hk
      · rfl
      · change _ = if FNode.hasChild newSnap k then oldSnap.childLeaves k else ∅
        rw [hold.childLeaves_of_not_mem hk, ite_self]
    rw [← hkept]
    refine leads_filterMap hold.nodup_keys fun c hc => ?_
    obtain ⟨hleaves, hne, -⟩ := hold.childLeaves_of_mem hc
    rw [removedChange]
    by_cases hhas : FNode.hasChild newSnap c.1 = true
    · rw [if_pos hhas]
      exact (if_pos hhas).symm
    · rw [if_neg hhas]
      exact ⟨rfl, hleaves, hne, if_neg hhas⟩
  have hadded : Leads kept (newSnap.childList.filterMap (addedChange oldSnap))
      newSnap.childLeaves := by
    have hnew' : (fun k => if k ∈ newSnap.childList.map Prod.fst then newSnap.childLeaves k
        else kept k) = newSnap.childLeaves := by
      funext k
      split_ifs with hk
      · rfl
      · have hnone := hnew.childLeaves_of_not_mem hk
        rw [hnone]
        change (if FNode.hasChild newSnap k then oldSnap.childLeaves k else ∅) = ∅
        cases hzero : isNegativeZero k with
        | true =>
            rw [Node.childLeaves, Node.child_leaves_of_isNegativeZero oldSnap hzero, ite_self]
        | false => exact if_neg fun hhas => (hnew.hasChild_iff hzero).1 hhas hnone
    rw [← hnew']
    refine leads_filterMap hnew.nodup_keys fun c hc => ?_
    have hkept : kept c.1 = oldSnap.childLeaves c.1 :=
      if_pos ((hnew.hasChild_iff (isNegativeZero_of_isPlainKey (hnew.key_of_mem hc))).2
        (hnew.childLeaves_of_mem hc).2.1)
    rw [hkept]
    exact (nets_addedChange hold hnew hc).1
  refine ⟨hremoved.append hadded, fun hnil => ?_, fun hsame => ?_⟩
  · rw [updateFullNode, List.append_eq_nil_iff] at hnil
    rw [hnil.1] at hremoved
    rw [hnil.2] at hadded
    exact Eq.trans hremoved hadded
  · rw [updateFullNode, List.append_eq_nil_iff, List.filterMap_eq_nil_iff,
      List.filterMap_eq_nil_iff]
    refine ⟨fun c hc => if_pos ?_, fun c hc => ?_⟩
    · rw [hnew.hasChild_iff (isNegativeZero_of_isPlainKey (hold.key_of_mem hc)), ← hsame]
      exact (hold.childLeaves_of_mem hc).2.1
    · rw [(nets_addedChange hold hnew hc).2, hsame]

end FIndexedFilter
end Teamstuff
