/-
# Trees over paths

`FImmutableTree.m` and the parts of `FPath.m` it is used with.

A tree has a value or none at every path.  Its children are an `FImmutableSortedDictionary`
under the comparator of `FUtilities stringComparator`, which is `NSString compare:`.  That
comparison is a parameter: it orders strings, but it is not literal and takes strings with
the same composed characters to be the same.  The lemmas therefore hold for the keys of a
set that it tells apart (`DistinctKeys`).

`relativePathFrom:to:` raises an exception unless the one path is within the other; here it
takes a proof that it is, and what `findRootMostMatchingPath:` finds carries one.
-/

import Teamstuff.Firebase.Path
import Teamstuff.Library.LeafTree
import Teamstuff.Library.SortedAssoc

namespace Teamstuff

/-! ### Paths within paths -/

/-- `contains:`. -/
def FPath.contains (self other : FPath) : Bool := self.isPrefixOf other

/-- A path contains those that go on from it. -/
theorem FPath.contains_iff {self other : FPath} : self.contains other = true ↔ self <+: other :=
  List.isPrefixOf_iff_prefix

/-- `relativePathFrom:to:`. -/
def relativePathFrom : (outer inner : FPath) → outer <+: inner → FPath
  | [], inner, _ => inner
  | _ :: outer, _ :: inner, h => relativePathFrom outer inner (List.cons_prefix_cons.1 h).2
  | _ :: _, [], h => absurd h (by simp)

/-- The relative path leads from the outer path to the inner one. -/
@[simp] theorem append_relativePathFrom :
    ∀ (outer inner : FPath) (h : outer <+: inner), outer ++ relativePathFrom outer inner h = inner
  | [], _, _ => rfl
  | _ :: outer, _ :: inner, h => by
      obtain ⟨rfl, h'⟩ := List.cons_prefix_cons.1 h
      rw [relativePathFrom, List.cons_append, append_relativePathFrom outer inner h']
  | _ :: _, [], h => absurd h (by simp)

/-- A valid key is one more name. -/
theorem FPath.childFromString_of_isValidKey (self : FPath) {key : String}
    (h : isValidKey key = true) : self.childFromString key = self ++ [key] := by
  rw [FPath.childFromString, FPath.initWith_of_isValidKey h]

/-- `NSComparator`, on strings. -/
abbrev NSComparator := String → String → Ordering

/-- Keys that are valid. -/
def ValidKeys (K : String → Prop) : Prop := ∀ k, K k → isValidKey k = true

/-- Valid keys that the comparator tells apart. -/
structure DistinctKeys (stringComparator : NSComparator) (K : String → Prop) : Prop where
  exact : SortedAssoc.Exact stringComparator K
  valid : ValidKeys K

/-- A literal comparison tells all keys apart. -/
theorem DistinctKeys.compare : DistinctKeys compare fun k => isValidKey k = true :=
  ⟨fun _ _ _ _ h => Std.LawfulEqCmp.eq_of_compare h, fun _ hk => hk⟩

/-- `FImmutableTree`. -/
inductive FImmutableTree (α : Type)
  | tree (value : Option α) (children : List (String × FImmutableTree α))

/-- `FTuplePathValue`, with a path on the way along another. -/
structure FTuplePathValue (α : Type) (relativePath : FPath) where
  path : FPath
  value : α
  within : path <+: relativePath

namespace FImmutableTree

variable {α : Type}

def value : FImmutableTree α → Option α
  | .tree value _ => value

def children : FImmutableTree α → List (String × FImmutableTree α)
  | .tree _ children => children

/-- `empty`. -/
def empty : FImmutableTree α := .tree none []

/-- `initWithValue:`. -/
def initWithValue (aValue : α) : FImmutableTree α := .tree (some aValue) []

/-- `isEmpty`. -/
def isEmpty (self : FImmutableTree α) : Bool := self.value.isNone && self.children.isEmpty

mutual

/-- `forEachPathSoFar:withBlock:`, as the list of the calls of the block. -/
def forEachPathSoFar : FImmutableTree α → FPath → List (FPath × α)
  | .tree value children, pathSoFar =>
      forEachInChildren children pathSoFar ++ (value.toList.map fun v => (pathSoFar, v))

/-- The loop over the children in it. -/
def forEachInChildren : List (String × FImmutableTree α) → FPath → List (FPath × α)
  | [], _ => []
  | (childKey, childTree) :: children, pathSoFar =>
      forEachPathSoFar childTree (pathSoFar.childFromString childKey) ++
        forEachInChildren children pathSoFar

end

/-- `forEach:`. -/
def forEach (self : FImmutableTree α) : List (FPath × α) := self.forEachPathSoFar []

/-- `forEachChild:`, as the list of the calls of the block. -/
def forEachChild (self : FImmutableTree α) : List (String × α) :=
  self.children.filterMap fun child => child.2.value.map fun v => (child.1, v)

variable (stringComparator : NSComparator)

/-- `findRootMostMatchingPath:predicate:`. -/
def findRootMostMatchingPath (predicate : α → Bool) :
    FImmutableTree α → (relativePath : FPath) → Option (FTuplePathValue α relativePath)
  | self, [] =>
      match self.value.filter predicate with
      | some v => some ⟨[], v, List.nil_prefix⟩
      | none => none
  | self, front :: rest =>
      match self.value.filter predicate with
      | some v => some ⟨[], v, List.nil_prefix⟩
      | none =>
          match SortedAssoc.get stringComparator front self.children with
          | some child =>
              match findRootMostMatchingPath predicate child rest with
              | some found =>
                  some ⟨front :: found.path, found.value,
                    List.cons_prefix_cons.2 ⟨rfl, found.within⟩⟩
              | none => none
          | none => none

/-- `findRootMostValueAndPath:`. -/
def findRootMostValueAndPath (self : FImmutableTree α) (relativePath : FPath) :
    Option (FTuplePathValue α relativePath) :=
  self.findRootMostMatchingPath stringComparator (fun _ => true) relativePath

/-- `subtreeAtPath:`. -/
def subtreeAtPath : FImmutableTree α → FPath → FImmutableTree α
  | self, [] => self
  | self, front :: rest =>
      match SortedAssoc.get stringComparator front self.children with
      | some childTree => subtreeAtPath childTree rest
      | none => empty

/-- `setValue:atPath:`. -/
def setValue (newValue : α) : FImmutableTree α → FPath → FImmutableTree α
  | self, [] => .tree (some newValue) self.children
  | self, front :: rest =>
      let child := (SortedAssoc.get stringComparator front self.children).getD empty
      let newChild := setValue newValue child rest
      .tree self.value (SortedAssoc.insert stringComparator front newChild self.children)

/-- `valueAtPath:`. -/
def valueAtPath : FImmutableTree α → FPath → Option α
  | self, [] => self.value
  | self, front :: rest =>
      match SortedAssoc.get stringComparator front self.children with
      | some child => valueAtPath child rest
      | none => none

/-- `removeValueAtPath:`. -/
def removeValueAtPath : FImmutableTree α → FPath → FImmutableTree α
  | self, [] => if self.children.isEmpty then empty else .tree none self.children
  | self, front :: rest =>
      match SortedAssoc.get stringComparator front self.children with
      | some child =>
          let newChild := removeValueAtPath child rest
          let newChildren :=
            if newChild.isEmpty then SortedAssoc.erase stringComparator front self.children
            else SortedAssoc.insert stringComparator front newChild self.children
          if self.value.isNone && newChildren.isEmpty then empty
          else .tree self.value newChildren
      | none => self

/-- `setTree:atPath:`. -/
def setTree (self newTree : FImmutableTree α) : FPath → FImmutableTree α
  | [] => newTree
  | front :: rest =>
      let child := (SortedAssoc.get stringComparator front self.children).getD empty
      let newChild := setTree child newTree rest
      .tree self.value
        (if newChild.isEmpty then SortedAssoc.erase stringComparator front self.children
          else SortedAssoc.insert stringComparator front newChild self.children)

/-- The child of a name, the empty tree if there is none. -/
def childTree (self : FImmutableTree α) (key : String) : FImmutableTree α :=
  (SortedAssoc.get stringComparator key self.children).getD empty

variable {stringComparator}

/-- Only the empty tree is empty. -/
theorem eq_empty_of_isEmpty {t : FImmutableTree α} (h : t.isEmpty = true) : t = empty := by
  obtain ⟨value, cs⟩ := t
  simp only [isEmpty, Bool.and_eq_true, Option.isNone_iff_eq_none, List.isEmpty_iff] at h
  obtain ⟨rfl, rfl⟩ : value = none ∧ cs = [] := h
  rfl

/-- There is nothing below the empty tree. -/
@[simp] theorem childTree_empty (k : String) :
    (empty : FImmutableTree α).childTree stringComparator k = empty := rfl

/-- At the root only the value there is looked at. -/
@[simp] theorem findRootMostValueAndPath_nil (t : FImmutableTree α) :
    t.findRootMostValueAndPath stringComparator [] =
      t.value.map fun v => ⟨[], v, List.nil_prefix⟩ := by
  rw [findRootMostValueAndPath, findRootMostMatchingPath]
  cases t.value <;> rfl

/-- A value at the root is found first. -/
theorem findRootMostValueAndPath_of_value {t : FImmutableTree α} {v : α} (h : t.value = some v)
    (p : FPath) :
    t.findRootMostValueAndPath stringComparator p = some ⟨[], v, List.nil_prefix⟩ := by
  cases p <;> rw [findRootMostValueAndPath, findRootMostMatchingPath, h] <;> rfl

/-- The empty tree has no value. -/
@[simp] theorem findRootMostValueAndPath_empty (p : FPath) :
    (empty : FImmutableTree α).findRootMostValueAndPath stringComparator p = none := by
  cases p <;> rfl

/-- Without a value at the root the search goes on below. -/
theorem findRootMostValueAndPath_cons {t : FImmutableTree α} (h : t.value = none) (k : String)
    (p : FPath) :
    t.findRootMostValueAndPath stringComparator (k :: p) =
      ((t.childTree stringComparator k).findRootMostValueAndPath stringComparator p).map
        fun found => ⟨k :: found.path, found.value, List.cons_prefix_cons.2 ⟨rfl, found.within⟩⟩ := by
  rw [findRootMostValueAndPath, findRootMostMatchingPath, h, childTree]
  cases hk : SortedAssoc.get stringComparator k t.children with
  | none =>
      rw [Option.getD_none, findRootMostValueAndPath_empty]
      rfl
  | some child =>
      rw [Option.getD_some, findRootMostValueAndPath]
      dsimp only [Option.filter_none]
      cases child.findRootMostMatchingPath stringComparator (fun _ => true) p <;> rfl

/-- The subtree at the root. -/
@[simp] theorem subtreeAtPath_nil (t : FImmutableTree α) :
    t.subtreeAtPath stringComparator [] = t := by rw [subtreeAtPath]

/-- All subtrees of the empty tree are empty. -/
@[simp] theorem subtreeAtPath_empty (p : FPath) :
    (empty : FImmutableTree α).subtreeAtPath stringComparator p = empty := by
  cases p <;> rfl

/-- Going down by one name. -/
theorem subtreeAtPath_cons (t : FImmutableTree α) (k : String) (p : FPath) :
    t.subtreeAtPath stringComparator (k :: p) =
      (t.childTree stringComparator k).subtreeAtPath stringComparator p := by
  rw [subtreeAtPath, childTree]
  cases SortedAssoc.get stringComparator k t.children with
  | none => rw [Option.getD_none, subtreeAtPath_empty]
  | some child => rw [Option.getD_some]

/-- A tree set at the root replaces the tree. -/
@[simp] theorem setTree_nil (t s : FImmutableTree α) : t.setTree stringComparator s [] = s := by
  rw [setTree]

/-- A tree set below a name; a child that is empty then is taken out. -/
theorem setTree_cons (t s : FImmutableTree α) (k : String) (p : FPath) :
    t.setTree stringComparator s (k :: p) =
      .tree t.value
        (if ((t.childTree stringComparator k).setTree stringComparator s p).isEmpty then
          SortedAssoc.erase stringComparator k t.children
        else SortedAssoc.insert stringComparator k
          ((t.childTree stringComparator k).setTree stringComparator s p) t.children) := by
  rw [setTree]
  rfl

/-- There is nothing to take out of the empty tree. -/
theorem setTree_empty_empty (p : FPath) :
    (empty : FImmutableTree α).setTree stringComparator empty p = empty := by
  induction p with
  | nil => exact setTree_nil empty empty
  | cons k p ih =>
      rw [setTree_cons, childTree_empty, ih]
      rfl

/-- A value set at the root. -/
@[simp] theorem setValue_nil (v : α) (t : FImmutableTree α) :
    t.setValue stringComparator v [] = .tree (some v) t.children := by rw [setValue]

/-- A value set below a name. -/
theorem setValue_cons (v : α) (t : FImmutableTree α) (k : String) (p : FPath) :
    t.setValue stringComparator v (k :: p) =
      .tree t.value (SortedAssoc.insert stringComparator k
        ((t.childTree stringComparator k).setValue stringComparator v p) t.children) := by
  rw [setValue]
  rfl

/-- A tree with a value is not empty. -/
theorem isEmpty_setValue (v : α) (t : FImmutableTree α) (p : FPath) :
    (t.setValue stringComparator v p).isEmpty = false := by
  cases p with
  | nil =>
      rw [setValue_nil]
      rfl
  | cons k p =>
      rw [setValue_cons, isEmpty, children, List.isEmpty_eq_false_iff.2 SortedAssoc.insert_ne_nil,
        Bool.and_false]

/-! ### Values without anything below them -/

/-- No value has children. -/
inductive Alone : FImmutableTree α → Prop
  | value (v : α) : Alone (.tree (some v) [])
  | children {cs : List (String × FImmutableTree α)} (sub : ∀ c ∈ cs, Alone c.2) :
      Alone (.tree none cs)

namespace Alone

theorem empty : (empty : FImmutableTree α).Alone := .children fun _ h => absurd h List.not_mem_nil

/-- The children keep the invariant. -/
theorem mem_children {t : FImmutableTree α} (h : t.Alone) {c : String × FImmutableTree α}
    (hc : c ∈ t.children) : c.2.Alone := by
  cases h with
  | value v => exact absurd hc List.not_mem_nil
  | children sub => exact sub c hc

/-- There is nothing below a value. -/
theorem children_eq_nil {t : FImmutableTree α} (h : t.Alone) {v : α} (hv : t.value = some v) :
    t.children = [] := by
  cases h with
  | value v => rfl
  | children sub => exact nomatch hv

end Alone

/-- What is found is a child. -/
theorem mem_of_get {cs : List (String × FImmutableTree α)} {key : String} {t : FImmutableTree α}
    (h : SortedAssoc.get stringComparator key cs = some t) : ∃ k, (k, t) ∈ cs := by
  induction cs with
  | nil => cases h
  | cons d cs ih =>
      obtain ⟨k, s⟩ := d
      rw [SortedAssoc.get] at h
      split at h
      · cases h
      · exact ⟨k, Option.some.inj h ▸ List.mem_cons_self⟩
      · obtain ⟨k', hk'⟩ := ih h
        exact ⟨k', List.mem_cons_of_mem _ hk'⟩

namespace Alone

theorem childTree {t : FImmutableTree α} (h : t.Alone) (k : String) :
    (t.childTree stringComparator k).Alone := by
  rw [FImmutableTree.childTree]
  cases hget : SortedAssoc.get stringComparator k t.children with
  | none => exact empty
  | some s =>
      obtain ⟨k', hk'⟩ := mem_of_get hget
      exact h.mem_children hk'

theorem subtreeAtPath {t : FImmutableTree α} (h : t.Alone) (p : FPath) :
    (t.subtreeAtPath stringComparator p).Alone := by
  induction p generalizing t with
  | nil => rwa [subtreeAtPath_nil]
  | cons k p ih =>
      rw [subtreeAtPath_cons]
      exact ih (h.childTree k)

/-- Where there is no value on the way a tree can be put in. -/
theorem setTree {t s : FImmutableTree α} (h : t.Alone) (hs : s.Alone) {p : FPath}
    (hnone : t.findRootMostValueAndPath stringComparator p = none) :
    (t.setTree stringComparator s p).Alone := by
  induction p generalizing t with
  | nil => rwa [setTree_nil]
  | cons k p ih =>
      cases hv : t.value with
      | some v =>
          rw [findRootMostValueAndPath_of_value hv] at hnone
          exact nomatch hnone
      | none =>
          rw [findRootMostValueAndPath_cons hv, Option.map_eq_none_iff] at hnone
          rw [setTree_cons, hv]
          refine .children fun c hc => ?_
          split_ifs at hc
          · exact h.mem_children ((SortedAssoc.erase_sublist k t.children).subset hc)
          · rcases SortedAssoc.mem_insert hc with rfl | hc
            · exact ih (h.childTree k) hnone
            · exact h.mem_children hc

/-- A part can be taken out anywhere. -/
theorem setTree_empty {t : FImmutableTree α} (h : t.Alone) (p : FPath) :
    (t.setTree stringComparator FImmutableTree.empty p).Alone := by
  induction p generalizing t with
  | nil =>
      rw [setTree_nil]
      exact empty
  | cons k p ih =>
      rw [setTree_cons]
      cases hv : t.value with
      | some v =>
          rw [FImmutableTree.childTree, h.children_eq_nil hv]
          change (FImmutableTree.tree (some v) (if (FImmutableTree.setTree stringComparator
            FImmutableTree.empty FImmutableTree.empty p).isEmpty then _ else _)).Alone
          rw [setTree_empty_empty]
          exact .value v
      | none =>
          refine .children fun c hc => ?_
          split_ifs at hc
          · exact h.mem_children ((SortedAssoc.erase_sublist k t.children).subset hc)
          · rcases SortedAssoc.mem_insert hc with rfl | hc
            · exact ih (h.childTree k)
            · exact h.mem_children hc

/-- The value that comes first on a path can be replaced. -/
theorem setValue {t : FImmutableTree α} (h : t.Alone) {p : FPath}
    {found : FTuplePathValue α p} (hfound : t.findRootMostValueAndPath stringComparator p = some found)
    (v : α) : (t.setValue stringComparator v found.path).Alone := by
  induction p generalizing t with
  | nil =>
      rw [findRootMostValueAndPath_nil, Option.map_eq_some_iff] at hfound
      obtain ⟨w, hw, rfl⟩ := hfound
      rw [setValue_nil, h.children_eq_nil hw]
      exact .value v
  | cons k p ih =>
      cases hv : t.value with
      | some w =>
          rw [findRootMostValueAndPath_of_value hv] at hfound
          obtain rfl := Option.some.inj hfound
          rw [setValue_nil, h.children_eq_nil hv]
          exact .value v
      | none =>
          rw [findRootMostValueAndPath_cons hv, Option.map_eq_some_iff] at hfound
          obtain ⟨inner, hinner, rfl⟩ := hfound
          rw [setValue_cons, hv]
          refine .children fun c hc => ?_
          rcases SortedAssoc.mem_insert hc with rfl | hc
          · exact ih (h.childTree k) hinner
          · exact h.mem_children hc

end Alone

/-! ### Well-formed trees -/

/-- The children are in order, their keys in `K`, and the values satisfy `V`. -/
inductive WF (stringComparator : NSComparator) (K : String → Prop) (V : α → Prop) :
    FImmutableTree α → Prop
  | tree {value : Option α} {cs : List (String × FImmutableTree α)} (hvalue : ∀ v ∈ value, V v)
      (sorted : SortedAssoc.Sorted stringComparator cs) (key : ∀ c ∈ cs, K c.1)
      (sub : ∀ c ∈ cs, WF stringComparator K V c.2) : WF stringComparator K V (.tree value cs)

namespace WF

variable {K : String → Prop} {V : α → Prop}

/-- With fewer keys there are more. -/
theorem mono {K' : String → Prop} {t : FImmutableTree α} (h : t.WF stringComparator K V)
    (hK : ∀ k, K k → K' k) : t.WF stringComparator K' V := by
  induction h with
  | tree hvalue sorted key _ ih => exact .tree hvalue sorted (fun c hc => hK c.1 (key c hc)) ih

theorem empty : (empty : FImmutableTree α).WF stringComparator K V :=
  .tree (fun _ h => nomatch h) List.Pairwise.nil (fun _ h => absurd h List.not_mem_nil)
    fun _ h => absurd h List.not_mem_nil

theorem initWithValue {v : α} (hv : V v) : (initWithValue v).WF stringComparator K V :=
  .tree (fun _ h => Option.some.inj h ▸ hv) List.Pairwise.nil
    (fun _ h => absurd h List.not_mem_nil) fun _ h => absurd h List.not_mem_nil

variable {t s : FImmutableTree α} (h : t.WF stringComparator K V)

include h

/-- The value at the root. -/
theorem of_value {v : α} (hv : t.value = some v) : V v := by
  cases h with
  | tree hvalue sorted key sub => exact hvalue v hv

/-- The children are in order. -/
theorem sorted_children : SortedAssoc.Sorted stringComparator t.children := by
  cases h with
  | tree hvalue sorted key sub => exact sorted

/-- The names of the children are keys. -/
theorem key_of_mem {c : String × FImmutableTree α} (hc : c ∈ t.children) : K c.1 := by
  cases h with
  | tree hvalue sorted key sub => exact key c hc

/-- The children keep it. -/
theorem of_mem {c : String × FImmutableTree α} (hc : c ∈ t.children) :
    c.2.WF stringComparator K V := by
  cases h with
  | tree hvalue sorted key sub => exact sub c hc

theorem childTree (k : String) : (t.childTree stringComparator k).WF stringComparator K V := by
  rw [FImmutableTree.childTree]
  cases hget : SortedAssoc.get stringComparator k t.children with
  | none => exact empty
  | some s =>
      obtain ⟨k', hk'⟩ := mem_of_get hget
      exact h.of_mem hk'

theorem subtreeAtPath (p : FPath) :
    (t.subtreeAtPath stringComparator p).WF stringComparator K V := by
  induction p generalizing t with
  | nil => rwa [subtreeAtPath_nil]
  | cons k p ih =>
      rw [subtreeAtPath_cons]
      exact ih (h.childTree k)

/-- A value that is found. -/
theorem value_of_found {p : FPath} {found : FTuplePathValue α p}
    (hfound : t.findRootMostValueAndPath stringComparator p = some found) : V found.value := by
  induction p generalizing t with
  | nil =>
      rw [findRootMostValueAndPath_nil, Option.map_eq_some_iff] at hfound
      obtain ⟨w, hw, rfl⟩ := hfound
      exact h.of_value hw
  | cons k p ih =>
      cases hv : t.value with
      | some w =>
          rw [findRootMostValueAndPath_of_value hv] at hfound
          obtain rfl := Option.some.inj hfound
          exact h.of_value hv
      | none =>
          rw [findRootMostValueAndPath_cons hv, Option.map_eq_some_iff] at hfound
          obtain ⟨inner, hinner, rfl⟩ := hfound
          exact ih (h.childTree k) hinner

variable [Std.TransCmp stringComparator]

/-- A child put in. -/
theorem insert {k : String} (hk : K k) (hs : s.WF stringComparator K V) :
    (FImmutableTree.tree t.value (SortedAssoc.insert stringComparator k s t.children)).WF
      stringComparator K V := by
  refine .tree (fun v hv => h.of_value hv) (h.sorted_children.insert k s) ?_ ?_ <;>
    intro c hc <;> rcases SortedAssoc.mem_insert hc with rfl | hc
  · exact hk
  · exact h.key_of_mem hc
  · exact hs
  · exact h.of_mem hc

theorem setTree (hs : s.WF stringComparator K V) {p : FPath} (hp : ∀ k ∈ p, K k) :
    (t.setTree stringComparator s p).WF stringComparator K V := by
  induction p generalizing t with
  | nil => rwa [setTree_nil]
  | cons k p ih =>
      rw [setTree_cons]
      split_ifs
      · have hsub : SortedAssoc.erase stringComparator k t.children ⊆ t.children :=
          (SortedAssoc.erase_sublist k t.children).subset
        exact .tree (fun v hv => h.of_value hv) (h.sorted_children.erase k)
          (fun c hc => h.key_of_mem (hsub hc)) fun c hc => h.of_mem (hsub hc)
      · exact h.insert (hp k List.mem_cons_self)
          (ih (h.childTree k) fun k' hk' => hp k' (List.mem_cons_of_mem k hk'))

theorem setValue {v : α} (hv : V v) {p : FPath} (hp : ∀ k ∈ p, K k) :
    (t.setValue stringComparator v p).WF stringComparator K V := by
  induction p generalizing t with
  | nil =>
      rw [setValue_nil]
      exact .tree (fun w hw => Option.some.inj hw ▸ hv) h.sorted_children
        (fun c hc => h.key_of_mem hc) fun c hc => h.of_mem hc
  | cons k p ih =>
      rw [setValue_cons]
      exact h.insert (hp k List.mem_cons_self)
        (ih (h.childTree k) fun k' hk' => hp k' (List.mem_cons_of_mem k hk'))

/-- With keys that the comparator tells apart, the child of a name is the one under it. -/
theorem childTree_eq_lookup (hK : DistinctKeys stringComparator K) {k : String} (hk : K k) :
    t.childTree stringComparator k = (t.children.lookup k).getD FImmutableTree.empty := by
  rw [FImmutableTree.childTree, SortedAssoc.get_eq_lookup hK.exact hk h.sorted_children
    fun c hc => h.key_of_mem hc]

end WF

/-! ### The values of a tree -/

section ForEach

variable {K : String → Prop} {V : α → Prop}

mutual

/-- The values and paths of a tree. -/
theorem WF.of_mem_forEachPathSoFar (hK : ValidKeys K) :
    ∀ {t : FImmutableTree α}, t.WF stringComparator K V → ∀ {p : FPath} {c : FPath × α},
      c ∈ t.forEachPathSoFar p → V c.2 ∧ ∃ r, c.1 = p ++ r ∧ ∀ k ∈ r, K k
  | .tree value cs, h, p, c, hc => by
      rw [forEachPathSoFar] at hc
      rcases List.mem_append.1 hc with hc | hc
      · obtain ⟨hV, k, r, _, hr, hk⟩ := WF.of_mem_forEachInChildren hK (fun c hc => h.key_of_mem hc)
          (fun c hc => h.of_mem hc) hc
        exact ⟨hV, k :: r, hr, hk⟩
      · obtain ⟨v, hv, rfl⟩ := List.mem_map.1 hc
        exact ⟨h.of_value (Option.mem_toList.1 hv), [], (List.append_nil p).symm,
          fun _ hk => absurd hk List.not_mem_nil⟩

/-- The same for a list of children. -/
theorem WF.of_mem_forEachInChildren (hK : ValidKeys K) :
    ∀ {cs : List (String × FImmutableTree α)}, (∀ c ∈ cs, K c.1) →
      (∀ c ∈ cs, c.2.WF stringComparator K V) → ∀ {p : FPath} {c : FPath × α},
        c ∈ forEachInChildren cs p →
          V c.2 ∧ ∃ k r, (∃ d ∈ cs, d.1 = k) ∧ c.1 = p ++ k :: r ∧ ∀ j ∈ k :: r, K j
  | [], _, _, p, c, hc => by
      rw [forEachInChildren] at hc
      exact absurd hc List.not_mem_nil
  | (k, t) :: cs, hkey, hsub, p, c, hc => by
      have hk : K k := hkey (k, t) List.mem_cons_self
      rw [forEachInChildren, p.childFromString_of_isValidKey (hK k hk)] at hc
      rcases List.mem_append.1 hc with hc | hc
      · obtain ⟨hV, r, hr, hrK⟩ :=
          WF.of_mem_forEachPathSoFar hK (hsub (k, t) List.mem_cons_self) hc
        refine ⟨hV, k, r, ⟨(k, t), List.mem_cons_self, rfl⟩, ?_, fun j hj => ?_⟩
        · rw [hr, List.append_assoc, List.singleton_append]
        · rcases List.mem_cons.1 hj with rfl | hj
          · exact hk
          · exact hrK j hj
      · obtain ⟨hV, k', r, ⟨d, hd, hdk⟩, hr, hrK⟩ := WF.of_mem_forEachInChildren hK
          (fun c hc => hkey c (List.mem_cons_of_mem _ hc))
          (fun c hc => hsub c (List.mem_cons_of_mem _ hc)) hc
        exact ⟨hV, k', r, ⟨d, List.mem_cons_of_mem _ hd, hdk⟩, hr, hrK⟩

end

mutual

/-- The values of a tree that stands at a path. -/
theorem WF.forEachPathSoFar_append (hK : ValidKeys K) :
    ∀ {t : FImmutableTree α}, t.WF stringComparator K V → ∀ p q : FPath,
      t.forEachPathSoFar (p ++ q) = (t.forEachPathSoFar q).map fun c => (p ++ c.1, c.2)
  | .tree value cs, h, p, q => by
      have hchildren : forEachInChildren cs (p ++ q) =
          (forEachInChildren cs q).map fun c => (p ++ c.1, c.2) :=
        WF.forEachInChildren_append hK (fun c hc => h.key_of_mem hc) (fun c hc => h.of_mem hc) p q
      rw [forEachPathSoFar, forEachPathSoFar, hchildren, List.map_append, List.map_map]
      rfl

/-- From further down all paths are longer by as much. -/
theorem WF.forEachInChildren_append (hK : ValidKeys K) :
    ∀ {cs : List (String × FImmutableTree α)}, (∀ c ∈ cs, K c.1) →
      (∀ c ∈ cs, c.2.WF stringComparator K V) → ∀ p q : FPath,
        forEachInChildren cs (p ++ q) = (forEachInChildren cs q).map fun c => (p ++ c.1, c.2)
  | [], _, _, p, q => by
      rw [forEachInChildren, forEachInChildren, List.map_nil]
  | (k, t) :: cs, hkey, hsub, p, q => by
      have hk := hK k (hkey _ List.mem_cons_self)
      rw [forEachInChildren, forEachInChildren, FPath.childFromString_of_isValidKey _ hk,
        FPath.childFromString_of_isValidKey _ hk, List.append_assoc,
        WF.forEachPathSoFar_append hK (hsub _ List.mem_cons_self),
        WF.forEachInChildren_append hK (fun c hc => hkey c (List.mem_cons_of_mem _ hc))
          (fun c hc => hsub c (List.mem_cons_of_mem _ hc)), List.map_append]

end

mutual

/-- **No write of a tree lies below another.** -/
theorem Alone.pairwise_forEachPathSoFar [Std.TransCmp stringComparator]
    (hK : DistinctKeys stringComparator K) :
    ∀ {t : FImmutableTree α}, t.Alone → t.WF stringComparator K V → ∀ (p : FPath),
      (t.forEachPathSoFar p).Pairwise fun c d => LeafTree.Apart c.1 d.1
  | .tree (some v) cs, ha, _, p => by
      obtain rfl : cs = [] := ha.children_eq_nil rfl
      rw [forEachPathSoFar, forEachInChildren]
      exact List.pairwise_singleton _ _
  | .tree none cs, ha, h, p => by
      rw [forEachPathSoFar]
      refine List.pairwise_append.2 ⟨?_, List.Pairwise.nil, fun _ _ _ hd =>
        absurd hd List.not_mem_nil⟩
      exact Alone.pairwise_forEachInChildren hK (fun c hc => ha.mem_children hc) h.sorted_children
        (fun c hc => h.key_of_mem hc) (fun c hc => h.of_mem hc) p

/-- The paths of different children are apart. -/
theorem Alone.pairwise_forEachInChildren [Std.TransCmp stringComparator]
    (hK : DistinctKeys stringComparator K) :
    ∀ {cs : List (String × FImmutableTree α)}, (∀ c ∈ cs, c.2.Alone) →
      SortedAssoc.Sorted stringComparator cs → (∀ c ∈ cs, K c.1) →
        (∀ c ∈ cs, c.2.WF stringComparator K V) → ∀ (p : FPath),
          (forEachInChildren cs p).Pairwise fun c d => LeafTree.Apart c.1 d.1
  | [], _, _, _, _, p => by
      rw [forEachInChildren]
      exact List.Pairwise.nil
  | (k, t) :: cs, ha, hsorted, hkey, hsub, p => by
      obtain ⟨hhead, htail⟩ := List.pairwise_cons.1 hsorted
      have hcs : ∀ c ∈ cs, c ∈ (k, t) :: cs := fun c hc => List.mem_cons_of_mem _ hc
      have ht := hsub (k, t) List.mem_cons_self
      rw [forEachInChildren, p.childFromString_of_isValidKey (hK.valid k (hkey _ List.mem_cons_self))]
      refine List.pairwise_append.2 ⟨?_, ?_, fun c hc d hd => ?_⟩
      · exact Alone.pairwise_forEachPathSoFar hK (ha _ List.mem_cons_self) ht (p ++ [k])
      · exact Alone.pairwise_forEachInChildren hK (fun c hc => ha c (hcs c hc)) htail
          (fun c hc => hkey c (hcs c hc)) (fun c hc => hsub c (hcs c hc)) p
      · obtain ⟨-, r, hr, -⟩ := ht.of_mem_forEachPathSoFar hK.valid hc
        obtain ⟨-, k', r', ⟨e, he, rfl⟩, hr', -⟩ := WF.of_mem_forEachInChildren hK.valid
          (fun c hc => hkey c (hcs c hc)) (fun c hc => hsub c (hcs c hc)) hd
        have hlt : stringComparator k e.1 = .lt := hhead e he
        have hne : k ≠ e.1 :=
          SortedAssoc.ne_of_cmp (by rw [hlt]; decide : stringComparator k e.1 ≠ .eq)
        rw [hr, hr', List.append_assoc, List.singleton_append]
        exact LeafTree.apart_of_ne hne p r r'

end

end ForEach

/-! ### Values and their paths -/

/-- `Q` of every value of a tree that stands at a path. -/
inductive Everywhere (Q : FPath → α → Prop) : FPath → FImmutableTree α → Prop
  | tree {path : FPath} {value : Option α} {cs : List (String × FImmutableTree α)}
      (here : ∀ v ∈ value, Q path v) (below : ∀ c ∈ cs, Everywhere Q (path ++ [c.1]) c.2) :
      Everywhere Q path (.tree value cs)

mutual

/-- It is `Q` of all that `forEach:` comes to. -/
theorem WF.everywhere_iff {K : String → Prop} {V : α → Prop} (hK : ValidKeys K)
    {Q : FPath → α → Prop} : ∀ {t : FImmutableTree α}, t.WF stringComparator K V → ∀ {p : FPath},
      t.Everywhere Q p ↔ ∀ c ∈ t.forEachPathSoFar p, Q c.1 c.2
  | .tree value cs, h, p => by
      have hchildren := WF.everywhere_iff_forEachInChildren hK (Q := Q) (p := p)
        (fun c hc => h.key_of_mem hc) fun c hc => h.of_mem hc
      rw [forEachPathSoFar]
      constructor
      · rintro (⟨here, below⟩) c hc
        rcases List.mem_append.1 hc with hc | hc
        · exact hchildren.1 below c hc
        · obtain ⟨v, hv, rfl⟩ := List.mem_map.1 hc
          exact here v (Option.mem_toList.1 hv)
      · intro hQ
        refine .tree (fun v hv => hQ (p, v) ?_)
          (hchildren.2 fun c hc => hQ c (List.mem_append_left _ hc))
        exact List.mem_append_right _ (List.mem_map.2 ⟨v, Option.mem_toList.2 hv, rfl⟩)

/-- The same for a list of children. -/
theorem WF.everywhere_iff_forEachInChildren {K : String → Prop} {V : α → Prop} (hK : ValidKeys K)
    {Q : FPath → α → Prop} : ∀ {cs : List (String × FImmutableTree α)}, (∀ c ∈ cs, K c.1) →
      (∀ c ∈ cs, c.2.WF stringComparator K V) → ∀ {p : FPath},
        (∀ c ∈ cs, c.2.Everywhere Q (p ++ [c.1])) ↔ ∀ c ∈ forEachInChildren cs p, Q c.1 c.2
  | [], _, _, p => by
      rw [forEachInChildren]
      exact ⟨fun _ _ hc => absurd hc List.not_mem_nil, fun _ _ hc => absurd hc List.not_mem_nil⟩
  | (k, t) :: cs, hkey, hsub, p => by
      have htree := WF.everywhere_iff hK (Q := Q) (p := p ++ [k]) (hsub _ List.mem_cons_self)
      have hrest := WF.everywhere_iff_forEachInChildren hK (Q := Q) (p := p)
        (fun c hc => hkey c (List.mem_cons_of_mem _ hc)) fun c hc =>
          hsub c (List.mem_cons_of_mem _ hc)
      rw [forEachInChildren, FPath.childFromString_of_isValidKey _ (hK k (hkey _ List.mem_cons_self)),
        List.forall_mem_append, ← htree, ← hrest, List.forall_mem_cons]

end

namespace Everywhere

variable {Q Q' : FPath → α → Prop} {t : FImmutableTree α} {p q : FPath}

theorem empty : (empty : FImmutableTree α).Everywhere Q p :=
  .tree (fun _ h => by cases h) fun _ h => absurd h List.not_mem_nil

theorem of_value (h : t.Everywhere Q p) {v : α} (hv : t.value = some v) : Q p v := by
  cases h with
  | tree here below => exact here v hv

theorem of_mem (h : t.Everywhere Q p) {c : String × FImmutableTree α} (hc : c ∈ t.children) :
    c.2.Everywhere Q (p ++ [c.1]) := by
  cases h with
  | tree here below => exact below c hc

theorem mono (h : t.Everywhere Q p) (hQ : ∀ q v, Q (p ++ q) v → Q' (p ++ q) v) :
    t.Everywhere Q' p := by
  induction h with
  | @tree p value cs here below ih =>
      have hsub : ∀ c ∈ cs, ∀ q v, Q ((p ++ [c.1]) ++ q) v → Q' ((p ++ [c.1]) ++ q) v := by
        intro c hc q v
        rw [List.append_assoc]
        exact hQ _ v
      refine .tree (fun v hv => ?_) fun c hc => ih c hc (hsub c hc)
      have hnil := hQ [] v
      rw [List.append_nil] at hnil
      exact hnil (here v hv)

section

variable {K : String → Prop} {V : α → Prop} [Std.TransCmp stringComparator]
  (hK : DistinctKeys stringComparator K) (hWF : t.WF stringComparator K V)

include hK hWF

theorem childTree (h : t.Everywhere Q p) {k : String} (hk : K k) :
    (t.childTree stringComparator k).Everywhere Q (p ++ [k]) := by
  rw [hWF.childTree_eq_lookup hK hk]
  cases hlookup : t.children.lookup k with
  | none => exact empty
  | some s => exact h.of_mem (Assoc.mem_of_lookup hlookup)

theorem subtreeAtPath (h : t.Everywhere Q p) (hq : ∀ k ∈ q, K k) :
    (t.subtreeAtPath stringComparator q).Everywhere Q (p ++ q) := by
  induction q generalizing t p with
  | nil => rwa [subtreeAtPath_nil, List.append_nil]
  | cons k q ih =>
      have hchild := h.childTree hK hWF (hq k List.mem_cons_self)
      rw [subtreeAtPath_cons, List.append_cons]
      exact ih (hWF.childTree k) hchild fun j hj => hq j (List.mem_cons_of_mem k hj)

theorem valueAtPath (h : t.Everywhere Q p) (hq : ∀ k ∈ q, K k) {v : α}
    (hv : t.valueAtPath stringComparator q = some v) : Q (p ++ q) v := by
  induction q generalizing t p with
  | nil =>
      rw [FImmutableTree.valueAtPath] at hv
      rw [List.append_nil]
      exact h.of_value hv
  | cons k q ih =>
      have hchild := h.childTree hK hWF (hq k List.mem_cons_self)
      rw [FImmutableTree.valueAtPath] at hv
      rw [FImmutableTree.childTree] at hchild
      cases hget : SortedAssoc.get stringComparator k t.children with
      | none =>
          rw [hget] at hv
          cases hv
      | some s =>
          rw [hget] at hv hchild
          obtain ⟨k', hk'⟩ := mem_of_get hget
          rw [← List.singleton_append, ← List.append_assoc]
          exact ih (hWF.of_mem hk') hchild (fun j hj => hq j (List.mem_cons_of_mem k hj)) hv

omit [Std.TransCmp stringComparator] hK hWF in
theorem insert (h : t.Everywhere Q p) {k : String} {s : FImmutableTree α}
    (hs : s.Everywhere Q (p ++ [k])) : ∀ c ∈ SortedAssoc.insert stringComparator k s t.children,
      c.2.Everywhere Q (p ++ [c.1]) := by
  intro c hc
  rcases SortedAssoc.mem_insert hc with rfl | hc
  · exact hs
  · exact h.of_mem hc

theorem setValue (h : t.Everywhere Q p) (hq : ∀ k ∈ q, K k) {v : α} (hv : Q (p ++ q) v) :
    (t.setValue stringComparator v q).Everywhere Q p := by
  induction q generalizing t p with
  | nil =>
      rw [setValue_nil]
      rw [List.append_nil] at hv
      exact .tree (fun w hw => Option.some.inj hw ▸ hv) fun c hc => h.of_mem hc
  | cons k q ih =>
      have hk := hq k List.mem_cons_self
      rw [setValue_cons]
      rw [← List.singleton_append, ← List.append_assoc] at hv
      exact .tree (fun w hw => h.of_value hw) (h.insert (ih (hWF.childTree k)
        (h.childTree hK hWF hk) (fun j hj => hq j (List.mem_cons_of_mem k hj)) hv))

/-- It is `Q` of the values at all paths. -/
theorem of_valueAtPath (h : ∀ q, (∀ k ∈ q, K k) → ∀ v,
    t.valueAtPath stringComparator q = some v → Q (p ++ q) v) : t.Everywhere Q p := by
  induction hWF generalizing p with
  | @tree value cs hvalue hsorted hkey hsub ih =>
      have hWF : (FImmutableTree.tree value cs).WF stringComparator K V :=
        .tree hvalue hsorted hkey hsub
      refine .tree (fun v hv => ?_) fun c hc => ih c hc fun q hq v hv => ?_
      · rw [← List.append_nil p]
        refine h [] (fun _ hk => absurd hk List.not_mem_nil) v ?_
        rw [FImmutableTree.valueAtPath]
        exact hv
      · rw [List.append_assoc]
        have hget : SortedAssoc.get stringComparator c.1 cs = some c.2 := by
          rw [SortedAssoc.get_eq_lookup hK.exact (hkey c hc) hsorted hkey]
          exact Assoc.lookup_eq_some_of_mem hsorted.nodup_keys hc
        refine h (c.1 :: q) (List.forall_mem_cons.2 ⟨hkey c hc, hq⟩) v ?_
        rw [FImmutableTree.valueAtPath, FImmutableTree.children, hget]
        exact hv

/-- A value where there has been none. -/
theorem setValue_of_none (h : t.Everywhere Q []) (hq : ∀ k ∈ q, K k)
    (hnone : t.valueAtPath stringComparator q = none) {v : α} (hv : Q' q v)
    (hQ : ∀ p v, p ≠ q → Q p v → Q' p v) :
    (t.setValue stringComparator v q).Everywhere Q' [] := by
  refine setValue hK hWF (of_valueAtPath hK hWF fun p hp w hw => ?_) hq hv
  rw [List.nil_append]
  refine hQ p w (fun heq => ?_) (h.valueAtPath hK hWF hp hw)
  rw [heq, hnone] at hw
  cases hw

theorem removeValueAtPath (h : t.Everywhere Q p) (hq : ∀ k ∈ q, K k) :
    (t.removeValueAtPath stringComparator q).Everywhere Q p := by
  induction q generalizing t p with
  | nil =>
      rw [FImmutableTree.removeValueAtPath]
      split_ifs
      · exact empty
      · exact .tree (fun _ hv => by cases hv) fun c hc => h.of_mem hc
  | cons k q ih =>
      have hk := hq k List.mem_cons_self
      have hchild := h.childTree hK hWF hk
      rw [FImmutableTree.childTree] at hchild
      rw [FImmutableTree.removeValueAtPath]
      cases hget : SortedAssoc.get stringComparator k t.children with
      | none => exact h
      | some s =>
          rw [hget] at hchild
          obtain ⟨k', hk'⟩ := mem_of_get hget
          have hs := ih (hWF.of_mem hk') hchild fun j hj => hq j (List.mem_cons_of_mem k hj)
          dsimp only
          split_ifs
          · exact empty
          · exact .tree (fun w hw => h.of_value hw) fun c hc =>
              h.of_mem ((SortedAssoc.erase_sublist k t.children).subset hc)
          · exact empty
          · exact .tree (fun w hw => h.of_value hw) (h.insert hs)

end

end Everywhere

/-- A value taken out. -/
theorem WF.removeValueAtPath {K : String → Prop} {V : α → Prop} [Std.TransCmp stringComparator]
    {t : FImmutableTree α} (h : t.WF stringComparator K V) {q : FPath} (hq : ∀ k ∈ q, K k) :
    (t.removeValueAtPath stringComparator q).WF stringComparator K V := by
  induction q generalizing t with
  | nil =>
      rw [FImmutableTree.removeValueAtPath]
      split_ifs
      · exact empty
      · exact .tree (fun _ hv => by cases hv) h.sorted_children (fun c hc => h.key_of_mem hc)
          fun c hc => h.of_mem hc
  | cons k q ih =>
      rw [FImmutableTree.removeValueAtPath]
      cases hget : SortedAssoc.get stringComparator k t.children with
      | none => exact h
      | some s =>
          obtain ⟨k', hk'⟩ := mem_of_get hget
          have hs := ih (h.of_mem hk') fun j hj => hq j (List.mem_cons_of_mem k hj)
          have hsub : SortedAssoc.erase stringComparator k t.children ⊆ t.children :=
            (SortedAssoc.erase_sublist k t.children).subset
          dsimp only
          split_ifs
          · exact empty
          · exact .tree (fun w hw => h.of_value hw) (h.sorted_children.erase k)
              (fun c hc => h.key_of_mem (hsub hc)) fun c hc => h.of_mem (hsub hc)
          · exact empty
          · exact h.insert (hq k List.mem_cons_self) hs

end FImmutableTree
end Teamstuff
