/-
# Foundation values in and out of the tree

`internalNodeFrom:…` (`FSnapshotUtilities.m`), what `setValue:` stores for a
value, and `valForExport:NO` (`FChildrenNode.m`, `FLeafNode.m`), what
`snapshot.value` returns for a node.

The two are not inverse to each other.  A dictionary with two keys that compare
the same is refused.  Nulls, empty dictionaries and empty arrays are not
stored, an array is stored under the keys `0`, `1`, …, and a node whose keys are
all small integers comes back as an array whatever it was made from.
`lookup_childrenFrom` and `Node.val_eq_dict` say what becomes of a
dictionary: field by field it is stored as its fields are, and it comes back as
a dictionary as soon as one key is not an integer.
-/

import Teamstuff.Firebase.Node

namespace Teamstuff

/-- `FConstants.m`. -/
def kFirebaseMaxObjectDepth : ℕ := 1000

/-- `FConstants.m`, 10 MB. -/
def kFirebaseMaxLeafSize : ℕ := 1024 * 1024 * 10

/-- The name under which the checks of `FSnapshotUtilities.m` and
`FValidation.m` raise. -/
def invalidFirebaseData (reason : String) : NSException := ⟨"InvalidFirebaseData", reason⟩

/-- The depth check at the head of `internalNodeFrom:…`. -/
def checkObjectDepth (fn : String) (depth : ℕ) (path : List String) : Except NSException Unit :=
  if kFirebaseMaxObjectDepth < depth then
    .error (invalidFirebaseData
      ("(" ++ fn ++ ") Max object depth exceeded: " ++ ".".intercalate (path.take 100) ++ "..."))
  else .ok ()

/-- `validateFrom:isValidLeafValue:withPath:` on a leaf value; `ℚ` has no NaN to
reject. -/
def validateLeafValue (fn : String) (path : List String) : LeafValue → Except NSException Unit
  | .string s =>
      if kFirebaseMaxLeafSize < s.utf8ByteSize then
        .error (invalidFirebaseData ("(" ++ fn ++ ") String exceeds max size of " ++
          toString kFirebaseMaxLeafSize ++ " utf8 bytes: " ++ ".".intercalate (path.take 50)))
      else .ok ()
  | .bool _ | .number _ => .ok ()

/-- `validateFrom:validDictionaryKey:withPath:`, without its exemption of the
metadata keys. -/
def validateDictionaryKey (fn key : String) (path : List String) : Except NSException Unit :=
  if isValidKey key then .ok ()
  else .error (invalidFirebaseData ("(" ++ fn ++ ") Invalid key in object at path: " ++
    ".".intercalate (path.take 50) ++
    ". Keys must be non-empty and cannot contain '/' '.' '#' '$' '[' or ']'"))

/-- What `fromDictionary:withComparator:` raises for two keys that compare the same. -/
def sameOrdering : NSException where
  name := "NSInvalidArgumentException"
  reason := "Can't create FImmutableSortedDictionary with keys with same ordering!"

/-- `children[key] = childNode`, unless the child is empty; no dictionary is made of keys that
compare the same. -/
def addChild (key : String) (childNode : Node) (children : List (String × Node)) :
    Except NSException (List (String × Node)) :=
  if childNode.isEmpty then .ok children
  else if (SortedAssoc.get compareKey key children).isSome then .error sameOrdering
  else .ok (insertChild key childNode children)

mutual

/-- `internalNodeFrom:priority:withValidationFrom:atDepth:path:`. -/
def nodeFrom (fn : String) (depth : ℕ) (path : List String) : Value → Except NSException Node
  | .null => do
      checkObjectDepth fn depth path
      return .empty
  | .leaf v => do
      checkObjectDepth fn depth path
      validateLeafValue fn path v
      return .leaf v
  | .dict fields => do
      checkObjectDepth fn depth path
      return .children (← childrenFrom fn depth path fields)
  | .array vs => do
      checkObjectDepth fn depth path
      return .children (← elementsFrom fn depth path 0 vs)

/-- The loop over a dictionary, whose keys are distinct. -/
def childrenFrom (fn : String) (depth : ℕ) (path : List String) :
    List (String × Value) → Except NSException (List (String × Node))
  | [] => return []
  | (key, v) :: fields => do
      validateDictionaryKey fn key path
      let childNode ← nodeFrom fn (depth + 1) (path ++ [key]) v
      addChild key childNode (← childrenFrom fn depth path fields)

/-- The loop over an array, from index `i` on. -/
def elementsFrom (fn : String) (depth : ℕ) (path : List String) (i : ℕ) :
    List Value → Except NSException (List (String × Node))
  | [] => return []
  | v :: vs => do
      let childNode ← nodeFrom fn (depth + 1) (path ++ [toString i]) v
      addChild (toString i) childNode (← elementsFrom fn depth path (i + 1) vs)

end

/-- The node `setValue:` stores for a value. -/
def setValueNode (value : Value) : Except NSException Node := nodeFrom "setValue:" 0 [] value

/-! ### Back to values -/

/-- `FUtilities intForString:`, for the ASCII digits; the scanner stops at
`NSIntegerMax`. -/
def intForString (string : String) : Option ℕ :=
  if !string.toList.isEmpty && string.toList.all Char.isDigit then
    some (min (string.toList.foldl (fun v c => v * 10 + (c.toNat - '0'.toNat)) 0) (2 ^ 63 - 1))
  else none

/-- A key as an integer; leading zeroes that are not exactly "0" make it a
string. -/
def integerKey (key : String) : Option ℕ :=
  if key.toList.head? = some '0' ∧ 1 < key.length then none else intForString key

/-- The largest integer among the keys. -/
def maxIntegerKey (keys : List String) : ℕ :=
  keys.foldl (fun maxKey key => max maxKey ((integerKey key).getD 0)) 0

/-- The end of `FChildrenNode valForExport:NO`: a dictionary all of whose keys
are integers, none of them twice the number of keys or more, becomes an array. -/
def exportFields (obj : List (String × Value)) : Value :=
  let keys := obj.map Prod.fst
  if (keys.all fun key => (integerKey key).isSome) ∧ maxIntegerKey keys < 2 * keys.length then
    .array ((List.range (maxIntegerKey keys + 1)).map fun i => (obj.lookup (toString i)).getD .null)
  else .dict obj

mutual

/-- `val`, that is `valForExport:NO`. -/
def Node.val : Node → Value
  | .leaf v => .leaf v
  | .children cs => if cs.isEmpty then .null else exportFields (fieldVals cs)

/-- The values of the children, under their names. -/
def fieldVals : List (String × Node) → List (String × Value)
  | [] => []
  | (key, childNode) :: cs => (key, childNode.val) :: fieldVals cs

end

/-- The value of a field is that of the child. -/
theorem lookup_fieldVals (cs : List (String × Node)) (k : String) :
    (fieldVals cs).lookup k = (cs.lookup k).map Node.val := by
  induction cs with
  | nil => rw [fieldVals]; rfl
  | cons c cs ih =>
      obtain ⟨key, n⟩ := c
      rw [fieldVals, Assoc.lookup_cons_eq_if, Assoc.lookup_cons_eq_if, ih]
      split_ifs <;> rfl

/-- The fields have the names of the children. -/
theorem map_fst_fieldVals (cs : List (String × Node)) :
    (fieldVals cs).map Prod.fst = cs.map Prod.fst := by
  induction cs with
  | nil => rw [fieldVals]; rfl
  | cons c cs ih =>
      obtain ⟨key, n⟩ := c
      rw [fieldVals, List.map_cons, List.map_cons, ih]

/-- **A node with a key that is not an integer is read as a dictionary.** -/
theorem Node.val_eq_dict {cs : List (String × Node)} {k : String} (hk : integerKey k = none)
    (h : (cs.lookup k).isSome) : (Node.children cs).val = .dict (fieldVals cs) := by
  obtain ⟨n, hn⟩ := Option.isSome_iff_exists.1 h
  have hmem : (k, n) ∈ cs := Assoc.mem_of_lookup hn
  have hne : cs.isEmpty = false := by
    cases cs with
    | nil => exact absurd hmem List.not_mem_nil
    | cons c cs => rfl
  have hall : ¬ ((cs.map Prod.fst).all fun key => (integerKey key).isSome) = true := by
    intro hall
    have := List.all_eq_true.1 hall k (List.mem_map.2 ⟨(k, n), hmem, rfl⟩)
    rw [hk] at this
    exact absurd this (by decide)
  rw [Node.val, hne]
  simp only [exportFields, map_fst_fieldVals, hall, false_and, if_false, Bool.false_eq_true]

/-- A node with children is not null. -/
theorem Node.val_ne_null {cs : List (String × Node)} (h : cs ≠ []) :
    (Node.children cs).val ≠ .null := by
  rw [Node.val, List.isEmpty_eq_false_iff.2 h]
  simp only [exportFields, Bool.false_eq_true, if_false]
  split_ifs <;> simp

/-- A node that is read as a dictionary has the values of its children for
fields. -/
theorem Node.fields_of_val_eq_dict {cs : List (String × Node)} {fs : List (String × Value)}
    (h : (Node.children cs).val = .dict fs) : fs = fieldVals cs := by
  rw [Node.val] at h
  split_ifs at h
  simp only [exportFields] at h
  split_ifs at h
  exact (Value.dict.inj h).symm

/-- A value that is a leaf is read off a leaf. -/
theorem Node.val_eq_leaf {n : Node} {v : LeafValue} (h : n.val = .leaf v) : n = .leaf v := by
  cases n with
  | leaf w =>
      rw [Node.val] at h
      rw [Value.leaf.inj h]
  | children cs =>
      rw [Node.val] at h
      split_ifs at h
      simp only [exportFields] at h
      split_ifs at h

/-! ### What is stored of a dictionary -/

/-- The node stored for a value, if it is not refused and not empty. -/
def storedChild (fn : String) (depth : ℕ) (path : List String) (v : Value) : Option Node :=
  match nodeFrom fn depth path v with
  | .ok n => if n.isEmpty then none else some n
  | .error _ => none

/-- A child is put in unless it is empty, where no other has its slot. -/
theorem addChild_eq_ok {key : String} {n : Node} {cs cs' : List (String × Node)} :
    addChild key n cs = .ok cs' ↔
      (n.isEmpty = true ∧ cs' = cs) ∨ (n.isEmpty = false ∧
        SortedAssoc.get compareKey key cs = none ∧ cs' = insertChild key n cs) := by
  unfold addChild
  cases n.isEmpty with
  | true =>
      rw [if_pos rfl, Except.ok.injEq, eq_comm]
      simp
  | false =>
      rw [if_neg Bool.false_ne_true]
      cases SortedAssoc.get compareKey key cs with
      | none =>
          rw [Option.isSome_none, if_neg Bool.false_ne_true, Except.ok.injEq, eq_comm]
          simp
      | some m => simp

/-- A child that is put in is found. -/
theorem lookup_addChild {key : String} {n : Node} {cs cs' : List (String × Node)}
    (hadd : addChild key n cs = .ok cs') (h : cs.lookup key = none) (k : String) :
    cs'.lookup k = if k = key then (if n.isEmpty then none else some n) else cs.lookup k := by
  rcases addChild_eq_ok.1 hadd with ⟨hempty, rfl⟩ | ⟨hne, hnew, rfl⟩
  · rw [if_pos hempty]
    split_ifs with hk
    · rw [hk, h]
    · rfl
  · rw [hne, if_neg Bool.false_ne_true]
    exact SortedAssoc.lookup_insert_of_get_eq_none hnew k n

/-- One turn of the loop over a dictionary. -/
theorem childrenFrom_cons {fn : String} {depth : ℕ} {path : List String} {key : String} {v : Value}
    {fields : List (String × Value)} {cs : List (String × Node)} :
    childrenFrom fn depth path ((key, v) :: fields) = .ok cs ↔
      isValidKey key = true ∧ ∃ n, nodeFrom fn (depth + 1) (path ++ [key]) v = .ok n ∧
        ∃ cs', childrenFrom fn depth path fields = .ok cs' ∧ addChild key n cs' = .ok cs := by
  rw [childrenFrom]
  unfold validateDictionaryKey
  by_cases hk : isValidKey key = true
  · rw [if_pos hk]
    simp only [Except.bind_eq_ok, hk, true_and]
    exact ⟨fun ⟨_, h⟩ => h, fun h => ⟨(), h⟩⟩
  · rw [if_neg hk]
    exact ⟨fun h => (nomatch h), fun h => absurd h.1 hk⟩

/-- **A dictionary is stored field by field.** -/
theorem lookup_childrenFrom {fn : String} {depth : ℕ} {path : List String}
    {fields : List (String × Value)} {cs : List (String × Node)}
    (hd : (fields.map Prod.fst).Nodup) (h : childrenFrom fn depth path fields = .ok cs) :
    ∀ k, cs.lookup k = (fields.lookup k).bind fun v => storedChild fn (depth + 1) (path ++ [k]) v := by
  induction fields generalizing cs with
  | nil =>
      rw [childrenFrom] at h
      obtain rfl := Except.ok.inj h
      exact fun k => rfl
  | cons f fields ih =>
      obtain ⟨key, v⟩ := f
      obtain ⟨_, n, hn, cs', hcs, hadd⟩ := childrenFrom_cons.1 h
      rw [List.map_cons, List.nodup_cons] at hd
      have ih' := ih hd.2 hcs
      intro k
      have hnone : fields.lookup key = none := by
        by_contra hne
        obtain ⟨w, hw⟩ := Option.ne_none_iff_exists'.1 hne
        exact hd.1 (List.mem_map.2 ⟨(key, w), Assoc.mem_of_lookup hw, rfl⟩)
      have hkey : cs'.lookup key = none := by rw [ih', hnone, Option.bind_none]
      rw [lookup_addChild hadd hkey, Assoc.lookup_cons_eq_if, ih']
      by_cases hk : k = key
      · subst hk
        simp only [if_true, Option.bind_some, storedChild, hn]
      · simp only [if_neg hk]

/-- Every field of a stored dictionary was accepted. -/
theorem nodeFrom_ok_of_mem {fn : String} {depth : ℕ} {path : List String}
    {fields : List (String × Value)} {cs : List (String × Node)}
    (h : childrenFrom fn depth path fields = .ok cs) {k : String} {v : Value}
    (hv : (k, v) ∈ fields) :
    isValidKey k = true ∧ ∃ n, nodeFrom fn (depth + 1) (path ++ [k]) v = .ok n := by
  induction fields generalizing cs with
  | nil => exact absurd hv List.not_mem_nil
  | cons f fields ih =>
      obtain ⟨key, w⟩ := f
      obtain ⟨hkey, n, hn, cs', hcs, _⟩ := childrenFrom_cons.1 h
      rcases List.mem_cons.1 hv with he | hv
      · obtain ⟨rfl, rfl⟩ := Prod.mk.inj he
        exact ⟨hkey, n, hn⟩
      · exact ih hcs hv

section Fields

variable {fn : String} {depth : ℕ} {path : List String} {fields : List (String × Value)}
  {cs : List (String × Node)} (hd : (fields.map Prod.fst).Nodup)
  (h : childrenFrom fn depth path fields = .ok cs)

include hd h

/-- There are no children but those of the fields. -/
theorem lookup_childrenFrom_none {k : String} (hk : fields.lookup k = none) :
    cs.lookup k = none := by
  rw [lookup_childrenFrom hd h, hk, Option.bind_none]

/-- A leaf is stored as it is. -/
theorem lookup_childrenFrom_leaf {k : String} {v : LeafValue}
    (hk : fields.lookup k = some (.leaf v)) : cs.lookup k = some (.leaf v) := by
  obtain ⟨_, n, hn⟩ := nodeFrom_ok_of_mem h (Assoc.mem_of_lookup hk)
  have he : n = .leaf v := by
    rw [nodeFrom] at hn
    obtain ⟨_, _, _, _, he⟩ := by simpa only [Except.bind_eq_ok] using hn
    exact (Except.ok.inj he).symm
  rw [lookup_childrenFrom hd h, hk, Option.bind_some, storedChild, hn, he]
  rfl

/-- A dictionary is stored as the node of its fields, if that is not empty. -/
theorem lookup_childrenFrom_dict {k : String} {fs : List (String × Value)}
    (hk : fields.lookup k = some (.dict fs)) :
    ∃ cs', childrenFrom fn (depth + 1) (path ++ [k]) fs = .ok cs' ∧
      cs.lookup k = if cs'.isEmpty then none else some (.children cs') := by
  obtain ⟨_, n, hn⟩ := nodeFrom_ok_of_mem h (Assoc.mem_of_lookup hk)
  have hn' := hn
  rw [nodeFrom] at hn'
  obtain ⟨_, _, cs', hcs', he⟩ := by simpa only [Except.bind_eq_ok] using hn'
  obtain rfl := Except.ok.inj he
  refine ⟨cs', hcs', ?_⟩
  rw [lookup_childrenFrom hd h, hk, Option.bind_some, storedChild, hn]
  rfl

end Fields

/-! ### What is stored is well formed -/

/-- The index of an array element is a valid key. -/
theorem isValidKey_toString (i : ℕ) : isValidKey (toString i) = true := by
  have hdigits : (toString i).toList = Nat.toDigits 10 i := Nat.toList_repr
  have hall : (kInvalidKeyCharacters.all fun c => c.isDigit == false) = true := by decide
  refine isValidKey_iff.2 ⟨fun he => ?_, fun c hc hbad => ?_⟩
  · rw [he] at hdigits
    exact Nat.toDigits_ne_nil hdigits.symm
  · rw [hdigits] at hc
    have hd := Nat.isDigit_of_mem_toDigits (by decide) (by decide) hc
    rw [beq_iff_eq.1 (List.all_eq_true.1 hall c hbad)] at hd
    exact absurd hd Bool.false_ne_true

/-- A valid child is put in. -/
theorem Node.Valid.addChild {key : String} {n : Node} {cs cs' : List (String × Node)}
    (h : (Node.children cs).Valid) (hn : n.Valid) (hkey : isValidKey key = true)
    (hadd : addChild key n cs = .ok cs') : (Node.children cs').Valid := by
  rcases addChild_eq_ok.1 hadd with ⟨_, rfl⟩ | ⟨hne, _, rfl⟩
  · exact h
  · have hupdate := h.updateImmediateChild hn hkey
    rwa [Node.updateImmediateChild, hne, if_neg Bool.false_ne_true] at hupdate

mutual

/-- **What `setValue:` stores keeps the invariant of the database.** -/
theorem nodeFrom_valid {fn : String} {depth : ℕ} {path : List String} :
    ∀ (v : Value) {n : Node}, nodeFrom fn depth path v = .ok n → n.Valid
  | .null, n, h => by
      rw [nodeFrom] at h
      obtain ⟨_, _, h⟩ := Except.bind_eq_ok.1 h
      obtain rfl := Except.ok.inj h
      exact .empty
  | .leaf v, n, h => by
      rw [nodeFrom] at h
      obtain ⟨_, _, _, _, h⟩ := by simpa only [Except.bind_eq_ok] using h
      obtain rfl := Except.ok.inj h
      exact .leaf v
  | .dict fields, n, h => by
      rw [nodeFrom] at h
      obtain ⟨_, _, cs, hcs, h⟩ := by simpa only [Except.bind_eq_ok] using h
      obtain rfl := Except.ok.inj h
      exact childrenFrom_valid fields hcs
  | .array vs, n, h => by
      rw [nodeFrom] at h
      obtain ⟨_, _, cs, hcs, h⟩ := by simpa only [Except.bind_eq_ok] using h
      obtain rfl := Except.ok.inj h
      exact elementsFrom_valid vs hcs

/-- **The children of a dictionary** are valid. -/
theorem childrenFrom_valid {fn : String} {depth : ℕ} {path : List String} :
    ∀ (fields : List (String × Value)) {cs : List (String × Node)},
      childrenFrom fn depth path fields = .ok cs → (Node.children cs).Valid
  | [], cs, h => by
      rw [childrenFrom] at h
      obtain rfl := Except.ok.inj h
      exact .empty
  | (key, v) :: fields, cs, h => by
      obtain ⟨hkey, n, hn, cs', hcs', hadd⟩ := childrenFrom_cons.1 h
      exact Node.Valid.addChild (childrenFrom_valid fields hcs') (nodeFrom_valid v hn) hkey hadd

/-- So are those of an array. -/
theorem elementsFrom_valid {fn : String} {depth : ℕ} {path : List String} {i : ℕ} :
    ∀ (vs : List Value) {cs : List (String × Node)},
      elementsFrom fn depth path i vs = .ok cs → (Node.children cs).Valid
  | [], cs, h => by
      rw [elementsFrom] at h
      obtain rfl := Except.ok.inj h
      exact .empty
  | v :: vs, cs, h => by
      rw [elementsFrom] at h
      obtain ⟨n, hn, cs', hcs', hadd⟩ := by simpa only [Except.bind_eq_ok] using h
      exact Node.Valid.addChild (elementsFrom_valid vs hcs') (nodeFrom_valid v hn)
        (isValidKey_toString i) hadd

end

end Teamstuff
