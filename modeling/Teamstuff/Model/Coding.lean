/-
# Keyed containers

`Encoder.swift` and `Decoder.swift` of the vendored `CodableFirebase`, for the
types the app's records are made of: strings, dates, and dictionaries from
strings to booleans.  `FirebaseEncoder` and `FirebaseDecoder` keep their default
strategies, so a date is coded as its number of seconds
(`timeIntervalSinceReferenceDate`).

Decoding checks every value it touches: a missing key, a null and a value of
another kind are three different errors, and a dictionary is not read from an
array.  `decodeStatusFields_eq_ok` says what a decoded dictionary holds, and
`decode_string`, `decode_date` and `decodeIfPresent_string` what becomes of a
field that was stored.
-/

import Teamstuff.Firebase.Value
import Std.Data.ExtTreeMap

namespace Teamstuff

/-- `Foundation.Date`, by its `timeIntervalSinceReferenceDate`. -/
abbrev Date := ℚ

/-- `[String: Bool]`. -/
abbrev PlayerStatus := Std.ExtTreeMap String Bool

/-- `Swift.DecodingError`, with the coding path. -/
inductive DecodingError
  | keyNotFound (key : String) (codingPath : List String)
  | valueNotFound (codingPath : List String)
  | typeMismatch (codingPath : List String)
deriving DecidableEq, Repr

/-- `container(keyedBy:)`. -/
def keyedContainer (codingPath : List String) : Value → Except DecodingError (List (String × Value))
  | .null => .error (.valueNotFound codingPath)
  | .dict fields => .ok fields
  | .leaf _ | .array _ => .error (.typeMismatch codingPath)

/-- `unbox(_:as: Bool.self)`; a null is reported as a missing value. -/
def unboxBool (codingPath : List String) : Value → Except DecodingError Bool
  | .null => .error (.valueNotFound codingPath)
  | .leaf (.bool b) => .ok b
  | .leaf (.number _) | .leaf (.string _) | .array _ | .dict _ => .error (.typeMismatch codingPath)

/-- `unbox(_:as: String.self)`. -/
def unboxString (codingPath : List String) : Value → Except DecodingError String
  | .null => .error (.valueNotFound codingPath)
  | .leaf (.string s) => .ok s
  | .leaf (.bool _) | .leaf (.number _) | .array _ | .dict _ => .error (.typeMismatch codingPath)

/-- `unbox(_:as: Date.self)` under `.deferredToDate`, which reads a `Double`; a
boolean is not a number. -/
def unboxDate (codingPath : List String) : Value → Except DecodingError Date
  | .null => .error (.valueNotFound codingPath)
  | .leaf (.number n) => .ok n
  | .leaf (.bool _) | .leaf (.string _) | .array _ | .dict _ => .error (.typeMismatch codingPath)

/-- The loop of `Dictionary.init(from:)`. -/
def decodeStatusFields (codingPath : List String) :
    List (String × Value) → Except DecodingError PlayerStatus
  | [] => return ∅
  | (key, value) :: fields => do
      let b ← unboxBool (codingPath ++ [key]) value
      return (← decodeStatusFields codingPath fields).insert key b

/-- `unbox(_:as: [String: Bool].self)`. -/
def unboxStatus (codingPath : List String) (value : Value) : Except DecodingError PlayerStatus := do
  decodeStatusFields codingPath (← keyedContainer codingPath value)

/-- `decode(_:forKey:)`. -/
def decode {α : Type} (unbox : List String → Value → Except DecodingError α)
    (container : List (String × Value)) (key : String) : Except DecodingError α :=
  match container.lookup key with
  | none => .error (.keyNotFound key [])
  | some entry => unbox [key] entry

/-- `decodeIfPresent(_:forKey:)`, which skips missing and null entries. -/
def decodeIfPresent {α : Type} (unbox : List String → Value → Except DecodingError α)
    (container : List (String × Value)) (key : String) : Except DecodingError (Option α) :=
  match container.lookup key with
  | none | some .null => .ok none
  | some entry => some <$> unbox [key] entry

/-- `encode(_:forKey:)` of a string. -/
def Value.ofString (s : String) : Value := .leaf (.string s)

/-- `encode(_:forKey:)` of a date under `.deferredToDate`. -/
def Value.ofDate (d : Date) : Value := .leaf (.number d)

/-- `encode(_:forKey:)` of a dictionary. -/
def Value.ofStatus (m : PlayerStatus) : Value :=
  .dict (m.toList.map fun e => (e.1, .leaf (.bool e.2)))

/-- `encodeIfPresent(_:forKey:)`. -/
def encodeIfPresent {α : Type} (box : α → Value) (key : String) : Option α → List (String × Value)
  | none => []
  | some a => [(key, box a)]

/-- A field that is there and not null. -/
theorem decodeIfPresent_of_ne_null {α : Type} {unbox : List String → Value → Except DecodingError α}
    {container : List (String × Value)} {key : String} {v : Value}
    (h : container.lookup key = some v) (hv : v ≠ .null) :
    decodeIfPresent unbox container key = some <$> unbox [key] v := by
  unfold decodeIfPresent
  rw [h]
  cases v with
  | null => exact absurd rfl hv
  | leaf _ | array _ | dict _ => rfl

/-! ### Dictionaries -/

/-- No key is there twice. -/
theorem nodup_keys (m : PlayerStatus) : (m.toList.map Prod.fst).Nodup := by
  rw [List.Nodup, List.pairwise_map]
  exact m.distinct_keys_toList.imp fun h he => h (by rw [he]; exact Std.ReflCmp.compare_self)

/-- The fields a dictionary is coded as. -/
theorem lookup_statusFields (m : PlayerStatus) (k : String) :
    (m.toList.map fun e => (e.1, Value.leaf (.bool e.2))).lookup k =
      m[k]?.map fun b => Value.leaf (.bool b) := by
  have hd : ((m.toList.map fun e => (e.1, Value.leaf (.bool e.2))).map Prod.fst).Nodup := by
    rw [List.map_map]
    exact nodup_keys m
  cases hm : m[k]? with
  | some b =>
      refine Assoc.lookup_eq_some_of_mem hd (List.mem_map.2 ⟨(k, b), ?_, rfl⟩)
      exact Std.ExtTreeMap.mem_toList_iff_getElem?_eq_some.2 hm
  | none =>
      refine Assoc.lookup_eq_none_iff.2 fun v hv => ?_
      obtain ⟨e, he, heq⟩ := List.mem_map.1 hv
      obtain ⟨key, b⟩ := e
      obtain ⟨rfl, _⟩ := Prod.mk.inj heq
      rw [Std.ExtTreeMap.mem_toList_iff_getElem?_eq_some, hm] at he
      exact nomatch he

/-- The boolean in a value, if it is one. -/
def Value.bool? : Value → Option Bool
  | .leaf (.bool b) => some b
  | _ => none

/-- What decodes as a truth value. -/
theorem unboxBool_eq_ok {p : List String} {v : Value} {b : Bool} :
    unboxBool p v = .ok b ↔ v = .leaf (.bool b) := by
  cases v with
  | leaf l => cases l <;> simp [unboxBool]
  | _ => simp [unboxBool]

/-- What decodes as a string. -/
theorem unboxString_eq_ok {p : List String} {v : Value} {s : String} :
    unboxString p v = .ok s ↔ v = .leaf (.string s) := by
  cases v with
  | leaf l => cases l <;> simp [unboxString]
  | _ => simp [unboxString]

/-- A string that was decoded stands under its key. -/
theorem decode_string_eq_ok {fields : List (String × Value)} {k s : String} :
    decode unboxString fields k = .ok s ↔ fields.lookup k = some (.leaf (.string s)) := by
  unfold decode
  cases fields.lookup k with
  | none => simp
  | some v => simp [unboxString_eq_ok]

/-- A field that decodes as a string. -/
theorem decodeIfPresent_string_eq_some {fields : List (String × Value)} {k s : String} :
    decodeIfPresent unboxString fields k = .ok (some s) ↔
      fields.lookup k = some (.leaf (.string s)) := by
  unfold decodeIfPresent
  cases fields.lookup k with
  | none => simp
  | some v => cases v <;> simp [Except.map_eq_ok, unboxString_eq_ok]

/-- **A decoded dictionary holds the booleans of its fields.** -/
theorem decodeStatusFields_eq_ok {p : List String} {fields : List (String × Value)}
    {m : PlayerStatus} (h : decodeStatusFields p fields = .ok m) (k : String) :
    m[k]? = (fields.lookup k).bind Value.bool? := by
  induction fields generalizing m with
  | nil =>
      obtain rfl := Except.ok.inj h
      simp
  | cons f fields ih =>
      obtain ⟨key, v⟩ := f
      rw [decodeStatusFields] at h
      obtain ⟨b, hb, m', hm', he⟩ := by simpa only [Except.bind_eq_ok] using h
      obtain rfl := Except.ok.inj he
      obtain rfl := unboxBool_eq_ok.1 hb
      rw [Std.ExtTreeMap.getElem?_insert, Assoc.lookup_cons_eq_if, ih hm']
      simp only [Std.LawfulEqCmp.compare_eq_iff_eq, eq_comm (a := key)]
      split_ifs <;> rfl

/-- A decoded dictionary comes from a dictionary. -/
theorem unboxStatus_eq_ok {p : List String} {v : Value} {m : PlayerStatus}
    (h : unboxStatus p v = .ok m) :
    ∃ fields, v = .dict fields ∧ ∀ k, m[k]? = (fields.lookup k).bind Value.bool? := by
  obtain ⟨fields, hf, hm⟩ := Except.bind_eq_ok.1 h
  cases v with
  | dict fs =>
      obtain rfl := Except.ok.inj hf
      exact ⟨fs, rfl, decodeStatusFields_eq_ok hm⟩
  | null | leaf _ | array _ => exact nomatch hf

/-! ### Records that were stored -/

section Stored

variable {fn : String} {depth : ℕ} {path : List String} {fields : List (String × Value)}
  {cs : List (String × Node)} (hd : (fields.map Prod.fst).Nodup)
  (h : childrenFrom fn depth path fields = .ok cs)

include hd h

/-- A stored string is decoded as it was. -/
theorem decode_string {k s : String} (hk : fields.lookup k = some (.leaf (.string s))) :
    decode unboxString (fieldVals cs) k = .ok s := by
  rw [decode, lookup_fieldVals, lookup_childrenFrom_leaf hd h hk, Option.map_some, Node.val]
  rfl

/-- A field that decodes as a date. -/
theorem decode_date {k : String} {d : Date} (hk : fields.lookup k = some (.leaf (.number d))) :
    decode unboxDate (fieldVals cs) k = .ok d := by
  rw [decode, lookup_fieldVals, lookup_childrenFrom_leaf hd h hk, Option.map_some, Node.val]
  rfl

/-- An optional string is decoded as it was, a missing one included. -/
theorem decodeIfPresent_string {k : String} {s : Option String}
    (hk : fields.lookup k = s.map fun s => .leaf (.string s)) :
    decodeIfPresent unboxString (fieldVals cs) k = .ok s := by
  cases s with
  | none =>
      rw [decodeIfPresent, lookup_fieldVals, lookup_childrenFrom_none hd h hk]
      rfl
  | some s =>
      rw [decodeIfPresent, lookup_fieldVals, lookup_childrenFrom_leaf hd h hk, Option.map_some,
        Node.val]
      rfl

/-- A stored record with an `id` is read as a dictionary. -/
theorem val_of_id {id : String} (hid : fields.lookup "id" = some (.leaf (.string id))) :
    (Node.children cs).val = .dict (fieldVals cs) :=
  Node.val_eq_dict (k := "id") (by decide) (by rw [lookup_childrenFrom_leaf hd h hid]; rfl)

/-- A stored record with a field that is a leaf is not empty. -/
theorem isEmpty_of_leaf {k : String} {v : LeafValue} (hk : fields.lookup k = some (.leaf v)) :
    (Node.children cs).isEmpty = false := by
  have hlookup := lookup_childrenFrom_leaf hd h hk
  cases cs with
  | nil => exact nomatch hlookup
  | cons c cs => rfl

end Stored

end Teamstuff
