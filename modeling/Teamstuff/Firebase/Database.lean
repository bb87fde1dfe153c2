/-
# References, writes and snapshots

`FIRDatabaseReference.m`, `FIRDataSnapshot.m` and `FNextPushId.m` of the
vendored `FirebaseDatabase`.

A `setValue:` is checked and turned into a node on the spot, where it can raise,
and is then a `Write` on its way to the database, which puts the node at the
path and leaves every other branch as it is.  `childByAutoId` makes up a key of
twenty characters, none of them one that a key may not contain
(`isValidKey_of_isPushKey`).
-/

import Teamstuff.Firebase.Value

namespace Teamstuff

/-- A node on its way to the path it is to be put at. -/
structure Write where
  path : FPath
  node : Node

/-- The database applies a write. -/
def Write.apply (w : Write) (root : Node) : Node := root.updateChild w.path w.node

/-- `setValueInternal:andPriority:withCompletionBlock:from:`; none of the paths
of the app is under `.info`. -/
def FPath.setValueInternal (self : FPath) (value : Value) (fn : String) :
    Except NSException Write := do
  return { path := self, node := ← nodeFrom fn 0 [] value }

/-- `FIRDatabaseReference setValue:`. -/
def FPath.setValue (self : FPath) (value : Value) : Except NSException Write :=
  self.setValueInternal value "setValue:"

/-- `FIRDatabaseReference setValue:withCompletionBlock:`. -/
def FPath.setValueWithCompletionBlock (self : FPath) (value : Value) : Except NSException Write :=
  self.setValueInternal value "setValue:withCompletionBlock:"

/-- `FIRDataSnapshot hasChild:`. -/
def Node.hasChild (node : Node) (childPathString : String) : Except NSException Bool := do
  validatePathString "hasChild:" childPathString
  return !(node.getChild (FPath.initWith childPathString)).isEmpty

/-- `FNextPushId.m`. -/
def PUSH_CHARS : List Char :=
  "-0123456789ABCDEFGHIJKLMNOPQRSTUVWXYZ_abcdefghijklmnopqrstuvwxyz".toList

/-- The strings `FNextPushId get:` returns: eight characters for the time and
twelve random ones. -/
def isPushKey (key : String) : Bool :=
  key.toList.length = 20 && key.toList.all PUSH_CHARS.contains

theorem FPath.setValueInternal_eq_ok {p : FPath} {v : Value} {fn : String} {w : Write} :
    p.setValueInternal v fn = .ok w ↔ ∃ n, nodeFrom fn 0 [] v = .ok n ∧ w = ⟨p, n⟩ := by
  unfold setValueInternal
  rw [Except.bind_eq_ok]
  constructor
  · rintro ⟨n, hn, hw⟩
    exact ⟨n, hn, (Except.ok.inj hw).symm⟩
  · rintro ⟨n, hn, rfl⟩
    exact ⟨n, hn, rfl⟩

/-- `hasChild:` follows the path of the string down the node. -/
theorem Node.hasChild_eq_ok {n : Node} {s : String} {b : Bool} :
    n.hasChild s = .ok b ↔
      isValidPathString s = true ∧ (n.getChild (FPath.initWith s)).isEmpty = !b := by
  unfold hasChild validatePathString
  by_cases h : isValidPathString s = true
  · rw [if_pos h, Except.ok_bind]
    refine ⟨fun he => ⟨h, ?_⟩, fun he => ?_⟩
    · rw [← Except.ok.inj he, Bool.not_not]
    · rw [he.2, Bool.not_not]
      rfl
  · rw [if_neg h]
    exact ⟨fun he => (nomatch he), fun he => absurd he.1 h⟩

theorem Node.hasChild_eq_ok_true {n : Node} {s : String} :
    n.hasChild s = .ok true ↔
      isValidPathString s = true ∧ (n.getChild (FPath.initWith s)).isEmpty = false :=
  Node.hasChild_eq_ok

/-- A push key is a valid key. -/
theorem isValidKey_of_isPushKey {key : String} (h : isPushKey key = true) :
    isValidKey key = true := by
  unfold isPushKey at h
  rw [Bool.and_eq_true, decide_eq_true_eq, List.all_eq_true] at h
  obtain ⟨hlen, hall⟩ := h
  have hpush : (kInvalidKeyCharacters.all fun c => PUSH_CHARS.contains c == false) = true := by
    decide
  refine isValidKey_iff.2 ⟨fun he => ?_, fun c hc hbad => ?_⟩
  · rw [he] at hlen
    exact absurd hlen (by decide)
  · have := hall c hc
    rw [beq_iff_eq.1 (List.all_eq_true.1 hpush c hbad)] at this
    exact absurd this (by decide)

/-- A push key is too long for an integer. -/
theorem tryParseStringToInt_of_isPushKey {key : String} (h : isPushKey key = true) :
    tryParseStringToInt key = none := by
  unfold isPushKey at h
  rw [Bool.and_eq_true, decide_eq_true_eq] at h
  unfold tryParseStringToInt
  rw [if_pos]
  rw [← String.length_toList, h.1]
  decide

/-- The read at `p` after a write at `p ++ q`. -/
theorem Write.getChild_apply (p q : FPath) {m root : Node} (h : m.isEmpty = false ∨ root.Valid) :
    ((⟨p ++ q, m⟩ : Write).apply root).getChild p = (root.getChild p).updateChild q m :=
  Node.getChild_updateChild_append p q h

end Teamstuff
