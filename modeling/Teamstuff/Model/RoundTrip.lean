/-
# Records survive storage

What `addEvent`, `addMessage` and the two `saveUser`s write is what
`fetchEvents`, `fetchMessages` and `fetchUser` read: a record that was encoded,
stored with `setValue:` and read back with `snapshot.value` is decoded without
an error.

`Storable` says what the database asks of a record: strings of at most ten
megabytes, and valid keys in a dictionary.  The way back asks one thing more,
that the dictionary of the answers is not taken for an array
(`NotAnArray`); the other dictionaries of the app have field names for keys, and
those are no integers.

Under these conditions an event survives exactly when `keyComparator` tells the
players of its answers apart (`ToldApart`).  Where it does not, as for the
players `00` and `-0`, `setValue:` raises an exception and nothing is stored.
-/

import Teamstuff.Model.Event
import Teamstuff.Model.Records

namespace Teamstuff

/-- A string of at most the size `validateFrom:isValidLeafValue:withPath:` takes. -/
def FitsLeaf (s : String) : Prop := s.utf8ByteSize ≤ kFirebaseMaxLeafSize

instance (s : String) : Decidable (FitsLeaf s) := inferInstanceAs (Decidable (_ ≤ _))

/-- A field that is not refused. -/
def FieldStores (fn : String) (depth : ℕ) (path : List String) (field : String × Value) : Prop :=
  isValidKey field.1 = true ∧ ∃ n, nodeFrom fn (depth + 1) (path ++ [field.1]) field.2 = .ok n

/-- The keys of what is stored are keys of the dictionary. -/
theorem mem_of_childrenFrom {fn : String} {depth : ℕ} {path : List String}
    {fields : List (String × Value)} {cs : List (String × Node)}
    (h : childrenFrom fn depth path fields = .ok cs) {c : String × Node} (hc : c ∈ cs) :
    ∃ f ∈ fields, f.1 = c.1 := by
  induction fields generalizing cs with
  | nil =>
      rw [childrenFrom] at h
      obtain rfl := Except.ok.inj h
      exact absurd hc List.not_mem_nil
  | cons f fields ih =>
      obtain ⟨key, v⟩ := f
      obtain ⟨_, n, _, cs', hcs', hadd⟩ := childrenFrom_cons.1 h
      have hrest : c ∈ cs' → ∃ f ∈ (key, v) :: fields, f.1 = c.1 := fun hc =>
        let ⟨f, hf, hkey⟩ := ih hcs' hc
        ⟨f, List.mem_cons_of_mem _ hf, hkey⟩
      rcases addChild_eq_ok.1 hadd with ⟨_, rfl⟩ | ⟨_, _, rfl⟩
      · exact hrest hc
      · rcases SortedAssoc.mem_insert hc with rfl | hc
        · exact ⟨(key, v), List.mem_cons_self, rfl⟩
        · exact hrest hc

/-- **A dictionary is stored when each of its fields is** and no two keys compare
the same. -/
theorem childrenFrom_of_forall {fn : String} {depth : ℕ} {path : List String}
    {fields : List (String × Value)} (h : ∀ f ∈ fields, FieldStores fn depth path f)
    (hapart : fields.Pairwise fun f g => compareKey f.1 g.1 ≠ .eq) :
    ∃ cs, childrenFrom fn depth path fields = .ok cs := by
  induction fields with
  | nil => exact ⟨[], by rw [childrenFrom]; rfl⟩
  | cons f fields ih =>
      obtain ⟨key, v⟩ := f
      obtain ⟨hhead, htail⟩ := List.pairwise_cons.1 hapart
      obtain ⟨hkey, n, hn⟩ := h (key, v) List.mem_cons_self
      obtain ⟨cs, hcs⟩ := ih (fun f hf => h f (List.mem_cons_of_mem _ hf)) htail
      have hnone : SortedAssoc.get compareKey key cs = none := by
        cases hget : SortedAssoc.get compareKey key cs with
        | none => rfl
        | some m =>
            obtain ⟨k, hk, hmem⟩ := SortedAssoc.mem_of_get hget
            obtain ⟨g, hg, rfl⟩ := mem_of_childrenFrom hcs hmem
            exact absurd hk (hhead g hg)
      obtain ⟨cs', hadd⟩ : ∃ cs', addChild key n cs = .ok cs' := by
        cases hempty : n.isEmpty with
        | true => exact ⟨cs, addChild_eq_ok.2 (Or.inl ⟨hempty, rfl⟩)⟩
        | false => exact ⟨_, addChild_eq_ok.2 (Or.inr ⟨hempty, hnone, rfl⟩)⟩
      exact ⟨cs', childrenFrom_cons.2 ⟨hkey, n, hn, cs, hcs, hadd⟩⟩

/-- Field names that are no integers are told apart. -/
theorem pairwise_of_nodup {fields : List (String × Value)} (hd : (fields.map Prod.fst).Nodup)
    (hnone : ∀ f ∈ fields, tryParseStringToInt f.1 = none) :
    fields.Pairwise fun f g => compareKey f.1 g.1 ≠ .eq :=
  (List.pairwise_map.1 hd).imp_of_mem fun hf _ hne heq =>
    hne ((compareKey_eq_eq_iff_of_none (hnone _ hf)).1 heq)

/-- `keyComparator` tells the players apart. -/
def ToldApart (m : PlayerStatus) : Prop := ∀ p ∈ m, ∀ q ∈ m, compareKey p q = .eq → p = q

/-- The keys of a dictionary. -/
theorem mem_of_mem_toList {m : PlayerStatus} {e : String × Bool} (he : e ∈ m.toList) : e.1 ∈ m := by
  rw [Std.ExtTreeMap.mem_toList_iff_getElem?_eq_some] at he
  exact Std.ExtTreeMap.mem_iff_isSome_getElem?.2 (by rw [he]; rfl)

section Fields

variable {fn : String} {depth : ℕ} {path : List String} {key : String}
  (hdepth : depth < kFirebaseMaxObjectDepth)

include hdepth

/-- An object that is not too deep. -/
theorem checkObjectDepth_of_lt : checkObjectDepth fn (depth + 1) path = .ok () := by
  unfold checkObjectDepth
  rw [if_neg (by omega)]

/-- A string that fits is stored. -/
theorem fieldStores_ofString (hkey : isValidKey key = true) {s : String} (hs : FitsLeaf s) :
    FieldStores fn depth path (key, .ofString s) := by
  refine ⟨hkey, .leaf (.string s), ?_⟩
  rw [Value.ofString, nodeFrom, checkObjectDepth_of_lt hdepth, validateLeafValue,
    if_neg (Nat.not_lt.2 hs)]
  rfl

/-- A date is stored. -/
theorem fieldStores_ofDate (hkey : isValidKey key = true) (d : Date) :
    FieldStores fn depth path (key, .ofDate d) := by
  refine ⟨hkey, .leaf (.number d), ?_⟩
  rw [Value.ofDate, nodeFrom, checkObjectDepth_of_lt hdepth, validateLeafValue]
  rfl

/-- A truth value is stored. -/
theorem fieldStores_bool (hkey : isValidKey key = true) (b : Bool) :
    FieldStores fn depth path (key, .leaf (.bool b)) := by
  refine ⟨hkey, .leaf (.bool b), ?_⟩
  rw [nodeFrom, checkObjectDepth_of_lt hdepth, validateLeafValue]
  rfl

/-- The answers are stored when the players' keys are valid and told apart. -/
theorem fieldStores_ofStatus (hdepth' : depth + 1 < kFirebaseMaxObjectDepth)
    (hkey : isValidKey key = true) {m : PlayerStatus} (hm : ∀ player ∈ m, isValidKey player = true)
    (hapart : ToldApart m) : FieldStores fn depth path (key, .ofStatus m) := by
  have hfields : ∀ f ∈ m.toList.map fun e => (e.1, Value.leaf (.bool e.2)),
      FieldStores fn (depth + 1) (path ++ [key]) f := by
    intro f hf
    obtain ⟨e, he, rfl⟩ := List.mem_map.1 hf
    exact fieldStores_bool hdepth' (hm e.1 (mem_of_mem_toList he)) e.2
  have hpairwise : (m.toList.map fun e => (e.1, Value.leaf (.bool e.2))).Pairwise
      fun f g => compareKey f.1 g.1 ≠ .eq := by
    refine List.pairwise_map.2 ((List.pairwise_map.1 (nodup_keys m)).imp_of_mem ?_)
    exact fun he hf hne heq => hne (hapart _ (mem_of_mem_toList he) _ (mem_of_mem_toList hf) heq)
  obtain ⟨cs, hcs⟩ := childrenFrom_of_forall hfields hpairwise
  refine ⟨hkey, .children cs, ?_⟩
  rw [Value.ofStatus, nodeFrom, checkObjectDepth_of_lt hdepth, hcs]
  rfl

end Fields

/-- A field is written if there is something in it. -/
theorem mem_encodeIfPresent {α : Type} {box : α → Value} {key : String} {a : Option α}
    {f : String × Value} : f ∈ encodeIfPresent box key a ↔ ∃ b, a = some b ∧ f = (key, box b) := by
  cases a <;> simp [encodeIfPresent]

/-! ### Users and messages -/

/-- The database takes the user. -/
structure User.Storable (u : User) : Prop where
  id : FitsLeaf u.id
  name : FitsLeaf u.name
  teamId : ∀ s, u.teamId = some s → FitsLeaf s

/-- The database takes the message. -/
structure Message.Storable (m : Message) : Prop where
  message : FitsLeaf m.message
  author : FitsLeaf m.author
  authorId : FitsLeaf m.authorId

/-- `valForExport:NO` returns the answers as a dictionary: there are none, or one
of the keys is no integer. -/
def NotAnArray (status : PlayerStatus) : Prop :=
  status = ∅ ∨ ∃ player ∈ status, integerKey player = none

/-- The database takes the event, and does not return its answers as an array. -/
structure Event.Storable (e : Event) : Prop where
  id : FitsLeaf e.id
  title : FitsLeaf e.title
  description : ∀ s, e.description = some s → FitsLeaf s
  location : ∀ s, e.location = some s → FitsLeaf s
  type : FitsLeaf e.type
  isValidKey : ∀ status, e.playerStatus = some status → ∀ player ∈ status, isValidKey player = true
  notAnArray : ∀ status, e.playerStatus = some status → NotAnArray status

/-- No answers, or answers of players that `keyComparator` tells apart. -/
def Event.ToldApart (e : Event) : Prop :=
  ∀ status, e.playerStatus = some status → Teamstuff.ToldApart status

/-- An event that can be stored becomes a node if its players' ids are told apart. -/
theorem Event.Storable.node {e : Event} (h : e.Storable) (hapart : e.ToldApart) :
    ∃ cs, childrenFrom "setValue:" 0 [] e.fields = .ok cs := by
  have hdepth : 0 < kFirebaseMaxObjectDepth := by decide
  have hnone : ∀ f ∈ e.fields, tryParseStringToInt f.1 = none := by
    intro f hf
    simp only [fields, List.mem_append, List.mem_cons, List.not_mem_nil, or_false,
      mem_encodeIfPresent] at hf
    rcases hf with ((((rfl | rfl | rfl | rfl) | ⟨s, _, rfl⟩) | ⟨s, _, rfl⟩) | rfl) | ⟨m, _, rfl⟩ <;>
      (dsimp only; decide)
  refine childrenFrom_of_forall (fun f hf => ?_) (pairwise_of_nodup e.nodup_fields hnone)
  simp only [fields, List.mem_append, List.mem_cons, List.not_mem_nil, or_false,
    mem_encodeIfPresent] at hf
  rcases hf with ((((rfl | rfl | rfl | rfl) | ⟨s, hs, rfl⟩) | ⟨s, hs, rfl⟩) | rfl) | ⟨m, hm, rfl⟩
  · exact fieldStores_ofString hdepth (by decide) h.id
  · exact fieldStores_ofDate hdepth (by decide) e.startDate
  · exact fieldStores_ofDate hdepth (by decide) e.endDate
  · exact fieldStores_ofString hdepth (by decide) h.title
  · exact fieldStores_ofString hdepth (by decide) (h.description s hs)
  · exact fieldStores_ofString hdepth (by decide) (h.location s hs)
  · exact fieldStores_ofString hdepth (by decide) h.type
  · exact fieldStores_ofStatus hdepth (by decide) (by decide) (h.isValidKey m hm) (hapart m hm)

/-- The dictionary of the answers that is stored is well formed. -/
theorem Event.valid_playerStatus {e : Event} {cs cs' : List (String × Node)}
    (hcs : childrenFrom "setValue:" 0 [] e.fields = .ok cs)
    (hl : cs.lookup "playerStatus" = some (.children cs')) : (Node.children cs').Valid :=
  (childrenFrom_valid e.fields hcs).of_mem_childList (Assoc.mem_of_lookup hl)

/-- A dictionary of booleans is decoded. -/
theorem decodeStatusFields_of_forall (p : List String) {fields : List (String × Value)}
    (h : ∀ f ∈ fields, ∃ b, f.2 = .leaf (.bool b)) :
    ∃ m, decodeStatusFields p fields = .ok m := by
  induction fields with
  | nil => exact ⟨∅, rfl⟩
  | cons f fields ih =>
      obtain ⟨key, v⟩ := f
      obtain ⟨b, hb⟩ := h (key, v) List.mem_cons_self
      obtain ⟨m, hm⟩ := ih fun f hf => h f (List.mem_cons_of_mem _ hf)
      refine ⟨m.insert key b, ?_⟩
      rw [decodeStatusFields, hm, unboxBool_eq_ok.2 hb]
      rfl

/-- The answers of a stored event are read back as a dictionary of booleans. -/
theorem Event.Storable.decodeIfPresent {e : Event} (h : e.Storable) {cs : List (String × Node)}
    (hcs : childrenFrom "setValue:" 0 [] e.fields = .ok cs) :
    ∃ status, decodeIfPresent unboxStatus (fieldVals cs) "playerStatus" = .ok status := by
  rcases lookup_playerStatus hcs with ⟨_, hl⟩ | ⟨status, cs', hs, hl, hentry⟩
  · exact ⟨none, by rw [Teamstuff.decodeIfPresent, lookup_fieldVals, hl]; rfl⟩
  -- `cs'` is the node of a dictionary that is not empty, so it has a key that is no integer
  have hstatus : e.playerStatus = some status ∧ status ≠ ∅ := by
    rw [normalized] at hs
    split_ifs at hs with hempty
    exact ⟨hs, fun he => hempty (he ▸ hs)⟩
  obtain ⟨player, hplayer, hint⟩ := (h.notAnArray status hstatus.1).resolve_left hstatus.2
  have hsome : (cs'.lookup player).isSome := by
    rw [hentry, Option.isSome_map]
    exact Std.ExtTreeMap.mem_iff_isSome_getElem?.1 hplayer
  have hval : (Node.children cs').val = .dict (fieldVals cs') := Node.val_eq_dict hint hsome
  have hd : (cs'.map Prod.fst).Nodup := (valid_playerStatus hcs hl).nodup_keys
  have hbool : ∀ f ∈ fieldVals cs', ∃ b, f.2 = .leaf (.bool b) := by
    rintro ⟨k, v⟩ hf
    have hlookup : (fieldVals cs').lookup k = some v :=
      Assoc.lookup_eq_some_of_mem (by rwa [map_fst_fieldVals]) hf
    rw [lookup_fieldVals, hentry] at hlookup
    cases hk : status[k]? with
    | none => simp [hk] at hlookup
    | some b =>
        rw [hk, Option.map_some, Option.map_some, Node.val] at hlookup
        exact ⟨b, (Option.some.inj hlookup).symm⟩
  obtain ⟨m, hm⟩ := decodeStatusFields_of_forall ["playerStatus"] hbool
  refine ⟨some m, ?_⟩
  rw [decodeIfPresent_of_ne_null (v := .dict (fieldVals cs')) (by rw [lookup_fieldVals, hl, ← hval]; rfl)
    (by simp), unboxStatus, keyedContainer, Except.ok_bind, hm]
  rfl

/-- One more player, whose key is no integer, keeps an event storable. -/
theorem Event.Storable.answering {e : Event} (h : e.Storable) {player : String}
    (hkey : Teamstuff.isValidKey player = true) (hint : integerKey player = none)
    (available : Bool) : (e.answering player available).Storable where
  id := h.id
  title := h.title
  description := h.description
  location := h.location
  type := h.type
  isValidKey := by
    rintro status ⟨⟩ q hq
    rcases Std.ExtTreeMap.mem_insert.1 hq with heq | hmem
    · obtain rfl := Std.LawfulEqCmp.compare_eq_iff_eq.1 heq
      exact hkey
    · cases hs : e.playerStatus with
      | none => rw [hs] at hmem; exact absurd hmem Std.ExtTreeMap.not_mem_empty
      | some status => rw [hs] at hmem; exact h.isValidKey status hs q hmem
  notAnArray := by
    rintro status ⟨⟩
    exact Or.inr ⟨player, Std.ExtTreeMap.mem_insert_self, hint⟩

end Teamstuff
