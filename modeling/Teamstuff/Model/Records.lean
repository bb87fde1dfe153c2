/-
# Users and messages

`Model/User.swift` and `Model/Message.swift`, with the coding the compiler
synthesizes for them.

`User.StoredAs.decode_val` says that a stored user is read back as it was, a missing
`teamId` included.
-/

import Teamstuff.Model.Coding
import Teamstuff.Firebase.Database

namespace Teamstuff

/-- `User`. -/
structure User where
  id : String
  name : String
  teamId : Option String
deriving DecidableEq, Repr

/-- `Message`. -/
structure Message where
  message : String
  author : String
  authorId : String
  postDate : Date
deriving DecidableEq, Repr

/-- The string in a leaf, if it is one. -/
def Node.string? : Node → Option String
  | .leaf (.string s) => some s
  | _ => none

/-- A node that is a string. -/
theorem Node.string?_eq_some {n : Node} {s : String} :
    n.string? = some s ↔ n = .leaf (.string s) := by
  unfold string?
  split <;> simp_all

namespace User

/-- `User.init(name:id:)`. -/
def make (name id : String) : User where
  id := id
  name := name
  teamId := none

/-- The fields `encode(to:)` writes. -/
def fields (u : User) : List (String × Value) :=
  [("id", .ofString u.id), ("name", .ofString u.name)] ++
  encodeIfPresent .ofString "teamId" u.teamId

/-- `FirebaseEncoder().encode(user)`. -/
def encode (u : User) : Value := .dict u.fields

/-- `FirebaseDecoder().decode(User.self, from: value)`. -/
def decode (value : Value) : Except DecodingError User := do
  let container ← keyedContainer [] value
  return {
    id := ← Teamstuff.decode unboxString container "id"
    name := ← Teamstuff.decode unboxString container "name"
    teamId := ← decodeIfPresent unboxString container "teamId" }

/-- No field is there twice. -/
theorem nodup_fields (u : User) : (u.fields.map Prod.fst).Nodup := by
  unfold fields encodeIfPresent
  cases u.teamId <;> simp

/-- What each key of an encoded user holds. -/
theorem lookup_fields (u : User) :
    u.fields.lookup "id" = some (.leaf (.string u.id)) ∧
    u.fields.lookup "name" = some (.leaf (.string u.name)) ∧
    u.fields.lookup "teamId" = u.teamId.map fun s => .leaf (.string s) := by
  unfold fields encodeIfPresent
  cases u.teamId <;> simp [Assoc.lookup_cons_eq_if, Value.ofString]

/-- `n` is what a `setValue:` of the user stores. -/
def StoredAs (u : User) (n : Node) : Prop :=
  ∃ fn cs, childrenFrom fn 0 [] u.fields = .ok cs ∧ n = .children cs

theorem storedAs_of_nodeFrom {u : User} {fn : String} {n : Node}
    (h : nodeFrom fn 0 [] u.encode = .ok n) : u.StoredAs n := by
  rw [encode, nodeFrom] at h
  obtain ⟨_, _, cs, hcs, hn⟩ := by simpa only [Except.bind_eq_ok] using h
  exact ⟨fn, cs, hcs, (Except.ok.inj hn).symm⟩

namespace StoredAs

variable {u : User} {n : Node}

/-- A user that is stored is not empty. -/
theorem isEmpty (h : u.StoredAs n) : n.isEmpty = false := by
  obtain ⟨_, _, hcs, rfl⟩ := h
  exact isEmpty_of_leaf u.nodup_fields hcs u.lookup_fields.1

/-- The `teamId` of a stored user, nothing where there is none. -/
theorem getChild_teamId (h : u.StoredAs n) :
    n.getChild ["teamId"] = (u.teamId.map fun s => .leaf (.string s)).getD .empty := by
  obtain ⟨_, cs, hcs, rfl⟩ := h
  rw [Node.getChild_cons, Node.getChild_nil,
    (childrenFrom_valid u.fields hcs).getImmediateChild_of_none (by decide), Node.childNamed,
    Node.childList]
  cases ht : u.teamId with
  | none => rw [lookup_childrenFrom_none u.nodup_fields hcs (by rw [u.lookup_fields.2.2, ht]; rfl)]; rfl
  | some s =>
      rw [lookup_childrenFrom_leaf u.nodup_fields hcs (by rw [u.lookup_fields.2.2, ht]; rfl)]
      rfl

/-- **A stored user is read back as it was**, a missing `teamId` included. -/
theorem decode_val (h : u.StoredAs n) : decode n.val = .ok u := by
  obtain ⟨_, _, hcs, rfl⟩ := h
  have hd := u.nodup_fields
  obtain ⟨hid, hname, hteam⟩ := u.lookup_fields
  rw [val_of_id hd hcs hid, decode]
  simp only [keyedContainer, decode_string hd hcs hid, decode_string hd hcs hname,
    decodeIfPresent_string hd hcs hteam, Except.ok_bind]
  rfl

end StoredAs

/-- **A node that decodes as a user with a team** is one with these three leaves. -/
theorem decode_val_eq_ok {n : Node} {id name teamId : String} :
    decode n.val = .ok ⟨id, name, some teamId⟩ ↔ ∃ cs, n = .children cs ∧
      cs.lookup "id" = some (.leaf (.string id)) ∧ cs.lookup "name" = some (.leaf (.string name)) ∧
      cs.lookup "teamId" = some (.leaf (.string teamId)) := by
  have hfield : ∀ {cs : List (String × Node)} {k s : String},
      (fieldVals cs).lookup k = some (.leaf (.string s)) ↔
        cs.lookup k = some (.leaf (.string s)) := by
    intro cs k s
    rw [lookup_fieldVals, Option.map_eq_some_iff]
    refine ⟨fun ⟨m, hm, hv⟩ => ?_, fun h => ⟨_, h, rfl⟩⟩
    rw [hm, Node.val_eq_leaf hv]
  constructor
  · intro h
    obtain ⟨container, hcontainer, h⟩ := Except.bind_eq_ok.1 h
    obtain ⟨id', hid, h⟩ := Except.bind_eq_ok.1 h
    obtain ⟨name', hname, h⟩ := Except.bind_eq_ok.1 h
    obtain ⟨teamId', hteam, h⟩ := Except.bind_eq_ok.1 h
    obtain ⟨rfl, rfl, rfl⟩ := User.mk.inj (Except.ok.inj h)
    cases n with
    | leaf v => exact nomatch hcontainer
    | children cs =>
        have hval : (Node.children cs).val = .dict container := by
          cases hv : (Node.children cs).val with
          | dict fs =>
              rw [hv] at hcontainer
              rw [Except.ok.inj hcontainer]
          | null | leaf _ | array _ =>
              rw [hv] at hcontainer
              exact nomatch hcontainer
        obtain rfl := Node.fields_of_val_eq_dict hval
        exact ⟨cs, rfl, hfield.1 (decode_string_eq_ok.1 hid),
          hfield.1 (decode_string_eq_ok.1 hname),
          hfield.1 (decodeIfPresent_string_eq_some.1 hteam)⟩
  · rintro ⟨cs, rfl, hid, hname, hteam⟩
    rw [Node.val_eq_dict (k := "id") (by decide) (by rw [hid]; rfl), decode]
    simp only [keyedContainer, decode_string_eq_ok.2 (hfield.2 hid),
      decode_string_eq_ok.2 (hfield.2 hname),
      decodeIfPresent_string_eq_some.2 (hfield.2 hteam), Except.ok_bind]
    rfl

/-- A node that compares equal decodes as the same user. -/
theorem decode_of_isEqual {n m : Node} (h : n.isEqual m = true) {u : User} {teamId : String}
    (hteam : u.teamId = some teamId) (hu : decode n.val = .ok u) : decode m.val = .ok u := by
  obtain ⟨id, name, _⟩ := u
  obtain rfl : _ = some teamId := hteam
  obtain ⟨cs, rfl, hid, hname, hteam⟩ := decode_val_eq_ok.1 hu
  obtain ⟨otherCs, rfl, hid'⟩ := Node.lookup_of_isEqual h (by decide) hid
  obtain ⟨cs', hcs', hname'⟩ := Node.lookup_of_isEqual h (by decide) hname
  obtain rfl := Node.children.inj hcs'
  obtain ⟨cs', hcs', hteam'⟩ := Node.lookup_of_isEqual h (by decide) hteam
  obtain rfl := Node.children.inj hcs'
  exact decode_val_eq_ok.2 ⟨otherCs, rfl, hid', hname', hteam'⟩

end User

namespace Message

/-- `FirebaseEncoder().encode(message)`. -/
def encode (m : Message) : Value :=
  .dict [("message", .ofString m.message), ("author", .ofString m.author),
    ("authorId", .ofString m.authorId), ("postDate", .ofDate m.postDate)]

/-- `FirebaseDecoder().decode(Message.self, from: value)`. -/
def decode (value : Value) : Except DecodingError Message := do
  let container ← keyedContainer [] value
  return {
    message := ← Teamstuff.decode unboxString container "message"
    author := ← Teamstuff.decode unboxString container "author"
    authorId := ← Teamstuff.decode unboxString container "authorId"
    postDate := ← Teamstuff.decode unboxDate container "postDate" }

/-- The fields `encode(to:)` writes. -/
def fields (m : Message) : List (String × Value) :=
  [("message", .ofString m.message), ("author", .ofString m.author),
    ("authorId", .ofString m.authorId), ("postDate", .ofDate m.postDate)]

theorem encode_eq (m : Message) : m.encode = .dict m.fields := rfl

theorem nodup_fields (m : Message) : (m.fields.map Prod.fst).Nodup := by simp [fields]

/-- **A stored message is read back as it was.** -/
theorem decode_val {m : Message} {fn : String} {cs : List (String × Node)}
    (h : childrenFrom fn 0 [] m.fields = .ok cs) : decode (Node.children cs).val = .ok m := by
  have hd := m.nodup_fields
  have hmessage : m.fields.lookup "message" = some (.leaf (.string m.message)) := rfl
  have hauthor : m.fields.lookup "author" = some (.leaf (.string m.author)) := rfl
  have hauthorId : m.fields.lookup "authorId" = some (.leaf (.string m.authorId)) := rfl
  have hpostDate : m.fields.lookup "postDate" = some (.leaf (.number m.postDate)) := rfl
  have hval : (Node.children cs).val = .dict (fieldVals cs) :=
    Node.val_eq_dict (k := "message") (by decide)
      (by rw [lookup_childrenFrom_leaf hd h hmessage]; rfl)
  rw [hval, decode]
  simp only [keyedContainer, decode_string hd h hmessage, decode_string hd h hauthor,
    decode_string hd h hauthorId, decode_date hd h hpostDate, Except.ok_bind]
  rfl

/-- The node a message is stored as. -/
theorem node_of_nodeFrom {m : Message} {fn : String} {n : Node}
    (h : nodeFrom fn 0 [] m.encode = .ok n) :
    n.Valid ∧ n.isEmpty = false ∧ decode n.val = .ok m := by
  have hvalid := nodeFrom_valid _ h
  rw [encode_eq, nodeFrom] at h
  obtain ⟨_, _, cs, hcs, hn⟩ := by simpa only [Except.bind_eq_ok] using h
  obtain rfl := Except.ok.inj hn
  exact ⟨hvalid, isEmpty_of_leaf m.nodup_fields hcs (k := "message") rfl, decode_val hcs⟩

end Message

end Teamstuff
