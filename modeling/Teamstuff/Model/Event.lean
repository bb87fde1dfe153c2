/-
# Events

`Model/Event.swift`: the record, its initializer, and the coding the compiler
synthesizes for it.

`Event.decode_val` is what the rest of the development uses of the coding: an
event that was stored and can be read back is read back as it was, except that
an empty `playerStatus`, of which the database keeps nothing, comes back as
`nil`.  `Event.answer_node` reads a single player's answer off the stored node.
-/

import Teamstuff.Model.Coding

namespace Teamstuff

/-- `Event`. -/
structure Event where
  id : String
  startDate : Date
  endDate : Date
  title : String
  description : Option String
  location : Option String
  type : String
  playerStatus : Option PlayerStatus
deriving DecidableEq

/-- The boolean in a leaf, if it is one. -/
def Node.bool? : Node → Option Bool
  | .leaf (.bool b) => some b
  | _ => none

namespace Event

/-- `Event.init(startDate:endDate:title:description:location:type:)`. -/
def make (startDate endDate : Date) (title description location type : String) : Event where
  id := "DummyID"
  startDate := startDate
  endDate := endDate
  title := title
  description := some description
  location := some location
  type := type
  playerStatus := none

/-- The fields `encode(to:)` writes, in the order of the declaration. -/
def fields (e : Event) : List (String × Value) :=
  [("id", .ofString e.id), ("startDate", .ofDate e.startDate), ("endDate", .ofDate e.endDate),
    ("title", .ofString e.title)] ++
  encodeIfPresent .ofString "description" e.description ++
  encodeIfPresent .ofString "location" e.location ++
  [("type", .ofString e.type)] ++
  encodeIfPresent .ofStatus "playerStatus" e.playerStatus

/-- `FirebaseEncoder().encode(event)`. -/
def encode (e : Event) : Value := .dict e.fields

/-- `FirebaseDecoder().decode(Event.self, from: value)`. -/
def decode (value : Value) : Except DecodingError Event := do
  let container ← keyedContainer [] value
  return {
    id := ← Teamstuff.decode unboxString container "id"
    startDate := ← Teamstuff.decode unboxDate container "startDate"
    endDate := ← Teamstuff.decode unboxDate container "endDate"
    title := ← Teamstuff.decode unboxString container "title"
    description := ← decodeIfPresent unboxString container "description"
    location := ← decodeIfPresent unboxString container "location"
    type := ← Teamstuff.decode unboxString container "type"
    playerStatus := ← decodeIfPresent unboxStatus container "playerStatus" }

/-- What an event says apart from its key and the players' answers. -/
def details (e : Event) : String × Option String × Option String × String × Date × Date :=
  (e.title, e.description, e.location, e.type, e.startDate, e.endDate)

/-- `playerStatus?[player]`. -/
def answer (e : Event) (player : String) : Option Bool :=
  e.playerStatus.bind fun status => status[player]?

/-- The event with the answer of one player set: an absent `playerStatus` is made
empty first. -/
def answering (e : Event) (player : String) (available : Bool) : Event :=
  { e with playerStatus := some ((e.playerStatus.getD ∅).insert player available) }

/-- An event as the database keeps it: without an empty `playerStatus`. -/
def normalized (e : Event) : Event :=
  { e with playerStatus := if e.playerStatus = some ∅ then none else e.playerStatus }

/-- The id stays. -/
@[simp] theorem normalized_id (e : Event) : e.normalized.id = e.id := rfl

/-- So does every answer. -/
@[simp] theorem normalized_answer (e : Event) (p : String) : e.normalized.answer p = e.answer p := by
  unfold normalized answer
  split_ifs with h
  · simp [h]
  · rfl

/-- No field is there twice. -/
theorem nodup_fields (e : Event) : (e.fields.map Prod.fst).Nodup := by
  unfold fields encodeIfPresent
  cases e.description <;> cases e.location <;> cases e.playerStatus <;> simp

/-- The node an event is stored as. -/
def node (e : Event) : Except NSException Node := setValueNode e.encode

/-- An event is stored as its fields. -/
theorem node_eq_ok {e : Event} {n : Node} :
    e.node = .ok n ↔ ∃ cs, childrenFrom "setValue:" 0 [] e.fields = .ok cs ∧ n = .children cs := by
  unfold node setValueNode encode
  rw [nodeFrom]
  constructor
  · intro h
    obtain ⟨_, _, cs, hcs, hn⟩ := by simpa only [Except.bind_eq_ok] using h
    exact ⟨cs, hcs, (Except.ok.inj hn).symm⟩
  · rintro ⟨cs, hcs, rfl⟩
    rw [hcs]
    rfl

/-- What each key of an encoded event holds. -/
theorem lookup_fields (e : Event) :
    e.fields.lookup "id" = some (.leaf (.string e.id)) ∧
    e.fields.lookup "startDate" = some (.leaf (.number e.startDate)) ∧
    e.fields.lookup "endDate" = some (.leaf (.number e.endDate)) ∧
    e.fields.lookup "title" = some (.leaf (.string e.title)) ∧
    e.fields.lookup "description" = e.description.map (fun s => .leaf (.string s)) ∧
    e.fields.lookup "location" = e.location.map (fun s => .leaf (.string s)) ∧
    e.fields.lookup "type" = some (.leaf (.string e.type)) ∧
    e.fields.lookup "playerStatus" = e.playerStatus.map .ofStatus := by
  unfold fields encodeIfPresent
  cases e.description <;> cases e.location <;> cases e.playerStatus <;>
    simp [Assoc.lookup_cons_eq_if, Value.ofString, Value.ofDate]

section Stored

variable {e : Event} {cs : List (String × Node)}
  (h : childrenFrom "setValue:" 0 [] e.fields = .ok cs)

include h

/-- All of a stored event but the answers is read back without fail. -/
theorem decode_val_eq :
    decode (Node.children cs).val =
      (fun status => { e with playerStatus := status }) <$>
        decodeIfPresent unboxStatus (fieldVals cs) "playerStatus" := by
  obtain ⟨hid, hstart, hend, htitle, hdesc, hloc, htype, _⟩ := e.lookup_fields
  have hd := e.nodup_fields
  rw [val_of_id hd h hid, decode]
  simp only [keyedContainer, decode_string hd h hid, decode_date hd h hstart, decode_date hd h hend,
    decode_string hd h htitle, decodeIfPresent_string hd h hdesc, decodeIfPresent_string hd h hloc,
    decode_string hd h htype, Except.ok_bind]
  cases decodeIfPresent unboxStatus (fieldVals cs) "playerStatus" <;> rfl

/-- The answers as they are stored. -/
theorem lookup_playerStatus :
    (e.normalized.playerStatus = none ∧ cs.lookup "playerStatus" = none) ∨
      ∃ status cs', e.normalized.playerStatus = some status ∧
        cs.lookup "playerStatus" = some (.children cs') ∧
        ∀ k, cs'.lookup k = status[k]?.map fun b => .leaf (.bool b) := by
  have hstatus := e.lookup_fields.2.2.2.2.2.2.2
  cases hs : e.playerStatus with
  | none =>
      rw [hs] at hstatus
      refine Or.inl ⟨?_, lookup_childrenFrom_none e.nodup_fields h hstatus⟩
      simp [normalized, hs]
  | some status =>
      rw [hs] at hstatus
      obtain ⟨cs', hcs', hlookup⟩ := lookup_childrenFrom_dict e.nodup_fields h hstatus
      have hd : ((status.toList.map fun e => (e.1, Value.leaf (.bool e.2))).map Prod.fst).Nodup := by
        rw [List.map_map]
        exact nodup_keys status
      have hentry : ∀ k, cs'.lookup k = status[k]?.map fun b => .leaf (.bool b) := by
        intro k
        cases hk : status[k]? with
        | none =>
            exact lookup_childrenFrom_none hd hcs' (by rw [lookup_statusFields, hk]; rfl)
        | some b =>
            exact lookup_childrenFrom_leaf hd hcs' (by rw [lookup_statusFields, hk]; rfl)
      by_cases hempty : status = ∅
      · subst hempty
        have hnil : cs' = [] := by
          cases cs' with
          | nil => rfl
          | cons c cs' =>
              have := hentry c.1
              rw [Assoc.lookup_cons_eq_if, if_pos rfl] at this
              simp at this
        refine Or.inl ⟨by simp [normalized, hs], ?_⟩
        rw [hlookup, hnil]
        rfl
      · refine Or.inr ⟨status, cs', by simp [normalized, hs, hempty], ?_, hentry⟩
        have hne : cs'.isEmpty = false := by
          cases cs' with
          | nil =>
              refine absurd (Std.ExtTreeMap.ext_getElem? fun k => ?_) hempty
              have := hentry k
              cases hk : status[k]? <;> simp_all
          | cons c cs' => rfl
        rw [hlookup, hne]
        rfl

end Stored

/-- **What a stored event reads back as.**  Whenever the value of the node an
event was stored as can be decoded, it is that event, an empty `playerStatus`
aside. -/
theorem decode_val {e e' : Event} {n : Node} (hn : e.node = .ok n) (h : decode n.val = .ok e') :
    e' = e.normalized := by
  obtain ⟨cs, hcs, rfl⟩ := node_eq_ok.1 hn
  rw [decode_val_eq hcs] at h
  obtain ⟨status', hstatus', rfl⟩ := Except.map_eq_ok.1 h
  have hnorm : ∀ status, status = e.normalized.playerStatus →
      ({ e with playerStatus := status } : Event) = e.normalized := by
    rintro _ rfl
    rfl
  refine hnorm status' ?_
  rcases lookup_playerStatus hcs with ⟨hs, hl⟩ | ⟨status, cs', hs, hl, hentry⟩
  · rw [decodeIfPresent, lookup_fieldVals, hl] at hstatus'
    rw [hs]
    exact (Except.ok.inj hstatus').symm
  · rw [hs]
    have hne : cs' ≠ [] := by
      rintro rfl
      rw [normalized] at hs
      split_ifs at hs with hempty
      refine hempty (hs.trans (congrArg some (Std.ExtTreeMap.ext_getElem? fun k => ?_)))
      have := hentry k
      cases hk : status[k]? <;> simp_all
    rw [decodeIfPresent_of_ne_null (by rw [lookup_fieldVals, hl]; rfl) (Node.val_ne_null hne)] at hstatus'
    obtain ⟨m, hm, rfl⟩ := Except.map_eq_ok.1 hstatus'
    obtain ⟨fs, hfs, hlookup⟩ := unboxStatus_eq_ok hm
    obtain rfl := Node.fields_of_val_eq_dict hfs
    refine congrArg some (Std.ExtTreeMap.ext_getElem? fun k => ?_)
    rw [hlookup, lookup_fieldVals, hentry]
    cases status[k]? <;> simp [Node.val, Value.bool?]

/-- A stored event is not empty, it has an id. -/
theorem isEmpty_of_node {e : Event} {n : Node} (hn : e.node = .ok n) : n.isEmpty = false := by
  obtain ⟨cs, hcs, rfl⟩ := node_eq_ok.1 hn
  exact isEmpty_of_leaf e.nodup_fields hcs e.lookup_fields.1

/-- **The answers of a stored event** stand under `playerStatus`, one leaf for
each player. -/
theorem answer_node {e : Event} {n : Node} (hn : e.node = .ok n) (player : String) :
    ((n.getImmediateChild "playerStatus").childNamed player).bind Node.bool? = e.answer player := by
  obtain ⟨cs, hcs, rfl⟩ := node_eq_ok.1 hn
  rw [← normalized_answer, (childrenFrom_valid e.fields hcs).getImmediateChild_of_none (by decide),
    Node.childNamed, Node.childNamed, Node.childList]
  rcases lookup_playerStatus hcs with ⟨hs, hl⟩ | ⟨status, cs', hs, hl, hentry⟩
  · rw [hl, answer, hs]
    rfl
  · rw [hl, Option.getD_some, Node.childList, hentry, answer, hs, Option.bind_some]
    cases status[player]? <;> rfl

/-- The answers after one has been given. -/
theorem answer_answering (e : Event) (player q : String) (available : Bool) :
    (e.answering player available).answer q =
      if q = player then some available else e.answer q := by
  unfold answering answer
  rw [Option.bind_some, Std.ExtTreeMap.getElem?_insert]
  simp only [Std.LawfulEqCmp.compare_eq_iff_eq, eq_comm (a := player)]
  split_ifs
  · rfl
  · cases e.playerStatus <;> simp

/-! ### One event -/

/-- A match as the form hands it over. -/
def derby : Event := .make 100 200 "Derby" "" "" "Match"

/-- The match of `derby` under the key `addEvent` gave it. -/
def storedDerby : Event := { derby with id := "-LVgeGVQVRBzoQk2dCkT" }

/-- The node `setValue:` stores for an event, empty where it raises. -/
def nodeD (e : Event) : Node :=
  match e.node with
  | .ok n => n
  | .error _ => .empty

/-- The node of an event that can be stored. -/
theorem node_eq_nodeD {e : Event} (h : e.nodeD.isEmpty = false) : e.node = .ok e.nodeD := by
  unfold nodeD at h ⊢
  cases hn : e.node with
  | ok n => rfl
  | error _ => rw [hn] at h; exact nomatch h

/-- The node of `storedDerby`. -/
def derbyNode : Node := storedDerby.nodeD

/-- The node of the derby. -/
theorem storedDerby_node : storedDerby.node = .ok derbyNode := node_eq_nodeD (by decide +kernel)

end Event
end Teamstuff
