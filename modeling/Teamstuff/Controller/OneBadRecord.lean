/-
# One record that does not decode

`fetchEvents` and `fetchMessages` decode the children of a snapshot inside one
`do` block, so the first child that throws ends the loop and the list that was
shown before stays.  `fetchPlayers`, next to them, catches each child's error by
itself.

Two snapshots that differ in one child only lead to the same list, the items of
that child aside, as long as both loops run to their end or neither does; where
one of the two loops is cut short, the lists have nothing to do with each
other.
-/

import Teamstuff.Controller.TeamViewController
import Teamstuff.Library.ButOne

namespace Teamstuff

/-- The snapshots have the same child at every key but `k`. -/
def AgreeBut (k : String) (s₁ s₂ : Node) : Prop :=
  ∀ q, q ≠ k → s₁.childNamed q = s₂.childNamed q

/-- Every child of the snapshot decodes. -/
def Decodes {ε α : Type} (decode : Value → Except ε α) (s : Node) : Prop :=
  ∀ child ∈ s.childList, ∃ a, decode child.2.val = .ok a

/-- The item decoded from the child `k`. -/
def DecodedAt {ε α : Type} (decode : Value → Except ε α) (k : String) (s : Node) (a : α) : Prop :=
  ∃ n, (k, n) ∈ s.childList ∧ decode n.val = .ok a

/-- The filter reads the clock for the child at position `i` of the snapshot as
`now i`; a child that both snapshots have is compared with the same reading. -/
def SameReadings (k : String) (s₁ s₂ : Node) (now₁ now₂ : ℕ → Date) : Prop :=
  ∀ i j q n, q ≠ k → s₁.childList[i]? = some (q, n) → s₂.childList[j]? = some (q, n) →
    now₁ i = now₂ j

theorem AgreeBut.mem_iff {k : String} {s₁ s₂ : Node} (h : AgreeBut k s₁ s₂) (h₁ : s₁.Valid)
    (h₂ : s₂.Valid) {q : String} (hq : q ≠ k) (n : Node) :
    (q, n) ∈ s₁.childList ↔ (q, n) ∈ s₂.childList := by
  rw [h₁.mem_childList_iff, h₂.mem_childList_iff, h q hq]

/-- The loop runs to its end exactly when every child decodes. -/
theorem decodes_iff {ε α : Type} {decode : Value → Except ε α} {s : Node} :
    Decodes decode s ↔ ∃ as, decodeChildren decode s = .ok as := by
  unfold Decodes decodeChildren
  simp only [Except.mapM_eq_ok]
  induction s.childList with
  | nil => exact ⟨fun _ => ⟨[], rfl⟩, fun _ _ h => absurd h List.not_mem_nil⟩
  | cons c cs ih =>
      simp only [List.forall_mem_cons, ih, List.map_cons]
      constructor
      · rintro ⟨⟨a, ha⟩, as, has⟩
        exact ⟨a :: as, by rw [List.map_cons, ha, has]⟩
      · rintro ⟨as, has⟩
        cases as with
        | nil => exact absurd has (List.cons_ne_nil _ _)
        | cons a as =>
            obtain ⟨ha, has⟩ := List.cons.inj has
            exact ⟨⟨a, ha⟩, as, has⟩

theorem not_decodes_iff {ε α : Type} {decode : Value → Except ε α} {s : Node} :
    ¬ Decodes decode s ↔ ∃ e, decodeChildren decode s = .error e := by
  rw [decodes_iff]
  cases decodeChildren decode s with
  | ok as => simp
  | error e => simp

/-- A loop that ran to its end decoded every child. -/
theorem filterMap_toOption {ε α : Type} {decode : Value → Except ε α} {s : Node} {as : List α}
    (h : decodeChildren decode s = .ok as) :
    (s.childList.filterMap fun c => (decode c.2.val).toOption) = as := by
  have hmap := Except.mapM_eq_ok.1 h
  have hcomp : (fun c : String × Node => (decode c.2.val).toOption) =
      Except.toOption ∘ fun c => decode c.2.val := rfl
  rw [hcomp, ← List.filterMap_map, hmap, List.filterMap_map]
  exact List.filterMap_some

/-! ### Events -/

/-- The children of a snapshot, each with the reading it is compared with. -/
def readings (now : ℕ → Date) (s : Node) : List (String × Node × Date) :=
  s.childList.zipIdx.map fun c => (c.1.1, c.1.2, now c.2)

/-- The event of a child, if it is shown. -/
def shown {ε : Type} (decode : Value → Except ε Event) (child : Node × Date) : Option Event :=
  match decode child.1.val with
  | .ok e => if child.2 ≤ e.startDate then some e else none
  | .error _ => none

/-- The filtered list, child by child. -/
theorem upcoming_perm {ε : Type} {decode : Value → Except ε Event} {now : ℕ → Date} {s : Node}
    {es : List Event} (h : decodeChildren decode s = .ok es) :
    (EventsViewController.upcoming now es).Perm
      ((readings now s).filterMap fun c => shown decode c.2) := by
  have hloop : ∀ (cs : List (String × Node)) (es : List Event) (i : ℕ),
      (cs.map fun c => decode c.2.val) = es.map .ok →
      ((es.zipIdx i).filter fun e => now e.2 ≤ e.1.startDate).map Prod.fst =
        ((cs.zipIdx i).map fun c => (c.1.1, c.1.2, now c.2)).filterMap fun c => shown decode c.2 := by
    intro cs
    induction cs with
    | nil =>
        intro es i hes
        obtain rfl := List.map_eq_nil_iff.1 hes.symm
        rfl
    | cons c cs ih =>
        intro es i hes
        cases es with
        | nil => exact absurd hes (List.cons_ne_nil _ _)
        | cons e es =>
            obtain ⟨he, hes⟩ := List.cons.inj hes
            have ih' := ih es (i + 1) hes
            simp only [List.zipIdx_cons, List.filter_cons, List.map_cons, List.filterMap_cons, shown,
              he]
            by_cases hnow : now i ≤ e.startDate
            · simp only [hnow, decide_true, if_true, List.map_cons, ih', shown]
            · simp only [hnow, decide_false, if_false, Bool.false_eq_true, ih', shown]
  unfold EventsViewController.upcoming
  refine (List.perm_insertionSort _ _).trans (List.Perm.of_eq ?_)
  exact hloop s.childList es 0 (Except.mapM_eq_ok.1 h)

theorem mem_readings {now : ℕ → Date} {s : Node} {q : String} {n : Node} {t : Date} :
    (q, n, t) ∈ readings now s ↔ ∃ i, s.childList[i]? = some (q, n) ∧ now i = t := by
  unfold readings
  simp only [List.mem_map, List.mem_zipIdx_iff_getElem?, Prod.exists, Prod.mk.injEq]
  constructor
  · rintro ⟨q', n', i, hi, rfl, rfl, rfl⟩
    exact ⟨i, hi, rfl⟩
  · rintro ⟨i, hi, rfl⟩
    exact ⟨q, n, i, hi, rfl, rfl, rfl⟩

theorem nodup_readings {now : ℕ → Date} {s : Node} (h : s.Valid) :
    ((readings now s).map Prod.fst).Nodup := by
  have hmap : (readings now s).map Prod.fst = s.childList.map Prod.fst := by
    unfold readings
    rw [List.map_map]
    change s.childList.zipIdx.map (Prod.fst ∘ Prod.fst) = _
    rw [← List.map_map, List.zipIdx_map_fst]
  rw [hmap]
  exact h.nodup_keys

/-! ### Both lists -/

/-- **The lists agree but for one item exactly when the two loops end alike.**
`post` is what becomes of the decoded items; when the loop is cut short, the
list `start` stays. -/
theorem sameButOne_iff {ε α : Type} {decode : Value → Except ε α} {s₁ s₂ : Node}
    {post₁ post₂ : List α → List α} {P Q : α → Prop} (a : α)
    (hsame : ∀ as₁ as₂, decodeChildren decode s₁ = .ok as₁ → decodeChildren decode s₂ = .ok as₂ →
      Assoc.SameButOne P Q (post₁ as₁) (post₂ as₂)) :
    (∀ start, Assoc.SameButOne P Q (listAfter decode post₁ s₁ start)
      (listAfter decode post₂ s₂ start)) ↔ (Decodes decode s₁ ↔ Decodes decode s₂) := by
  unfold listAfter
  by_cases h₁ : Decodes decode s₁
  · obtain ⟨as₁, has₁⟩ := decodes_iff.1 h₁
    by_cases h₂ : Decodes decode s₂
    · obtain ⟨as₂, has₂⟩ := decodes_iff.1 h₂
      simp only [has₁, has₂, h₁, h₂, iff_true]
      exact fun _ => hsame as₁ as₂ has₁ has₂
    · obtain ⟨e₂, he₂⟩ := not_decodes_iff.1 h₂
      simp only [has₁, he₂]
      refine ⟨fun h => ?_, fun h => absurd (h.1 h₁) h₂⟩
      -- a list longer by two than the one the first loop leads to
      have hlen := (h (List.replicate ((post₁ as₁).length + 2) a)).length_le
      rw [List.length_replicate] at hlen
      omega
  · obtain ⟨e₁, he₁⟩ := not_decodes_iff.1 h₁
    by_cases h₂ : Decodes decode s₂
    · obtain ⟨as₂, has₂⟩ := decodes_iff.1 h₂
      simp only [he₁, has₂]
      refine ⟨fun h => ?_, fun h => absurd (h.2 h₂) h₁⟩
      have hlen := (h (List.replicate ((post₂ as₂).length + 2) a)).symm.length_le
      rw [List.length_replicate] at hlen
      omega
    · obtain ⟨e₂, he₂⟩ := not_decodes_iff.1 h₂
      simp only [he₁, he₂, h₁, h₂, iff_true]
      exact fun start => .refl start

/-- The same child is in both lists of readings, unless it is `k`. -/
theorem mem_readings_iff {k : String} {s₁ s₂ : Node} (h₁ : s₁.Valid) (h₂ : s₂.Valid)
    (hagree : AgreeBut k s₁ s₂) {now₁ now₂ : ℕ → Date} (hclock : SameReadings k s₁ s₂ now₁ now₂)
    {q : String} {c : Node × Date} (hq : q ≠ k) :
    (q, c) ∈ readings now₁ s₁ ↔ (q, c) ∈ readings now₂ s₂ := by
  obtain ⟨n, t⟩ := c
  rw [mem_readings, mem_readings]
  constructor
  · rintro ⟨i, hi, rfl⟩
    have hmem := (hagree.mem_iff h₁ h₂ hq n).1 (List.mem_of_getElem? hi)
    obtain ⟨j, hj⟩ := List.mem_iff_getElem?.1 hmem
    exact ⟨j, hj, (hclock i j q n hq hi hj).symm⟩
  · rintro ⟨j, hj, rfl⟩
    have hmem := (hagree.mem_iff h₁ h₂ hq n).2 (List.mem_of_getElem? hj)
    obtain ⟨i, hi⟩ := List.mem_iff_getElem?.1 hmem
    exact ⟨i, hi, hclock i j q n hq hi hj⟩

theorem decodedAt_of_shown {ε : Type} {decode : Value → Except ε Event} {k : String} {s : Node}
    {now : ℕ → Date} {e : Event} (h : ∃ c, (k, c) ∈ readings now s ∧ shown decode c = some e) :
    DecodedAt decode k s e := by
  obtain ⟨⟨n, t⟩, hc, he⟩ := h
  obtain ⟨i, hi, _⟩ := mem_readings.1 hc
  unfold shown at he
  cases hd : decode n.val with
  | error _ => simp only [hd, reduceCtorEq] at he
  | ok e' =>
      simp only [hd] at he
      split_ifs at he
      exact ⟨n, List.mem_of_getElem? hi, hd.trans (congrArg _ (Option.some.inj he))⟩

/-- What `fetchEvents` makes of two snapshots that differ in one child. -/
theorem upcoming_sameButOne {ε : Type} {decode : Value → Except ε Event} {k : String}
    {s₁ s₂ : Node} (h₁ : s₁.Valid) (h₂ : s₂.Valid) (hagree : AgreeBut k s₁ s₂) {now₁ now₂ : ℕ → Date}
    (hclock : SameReadings k s₁ s₂ now₁ now₂) {es₁ es₂ : List Event}
    (hes₁ : decodeChildren decode s₁ = .ok es₁) (hes₂ : decodeChildren decode s₂ = .ok es₂) :
    Assoc.SameButOne (DecodedAt decode k s₁) (DecodedAt decode k s₂)
      (EventsViewController.upcoming now₁ es₁) (EventsViewController.upcoming now₂ es₂) := by
  have hsame := Assoc.filterMap_sameButOne (nodup_readings h₁) (nodup_readings h₂) k
    (fun q c hq => mem_readings_iff h₁ h₂ hagree hclock hq) (shown decode)
  exact (hsame.imp (fun _ => decodedAt_of_shown) fun _ => decodedAt_of_shown).of_perm
    (upcoming_perm hes₁) (upcoming_perm hes₂)

/-- What `fetchMessages` makes of two snapshots that differ in one child. -/
theorem reverse_sameButOne {ε : Type} {decode : Value → Except ε Message} {k : String}
    {s₁ s₂ : Node} (h₁ : s₁.Valid) (h₂ : s₂.Valid) (hagree : AgreeBut k s₁ s₂) {ms₁ ms₂ : List Message}
    (hms₁ : decodeChildren decode s₁ = .ok ms₁) (hms₂ : decodeChildren decode s₂ = .ok ms₂) :
    Assoc.SameButOne (DecodedAt decode k s₁) (DecodedAt decode k s₂) ms₁.reverse ms₂.reverse := by
  have hsame := Assoc.filterMap_sameButOne h₁.nodup_keys h₂.nodup_keys k
    (fun q n hq => hagree.mem_iff h₁ h₂ hq n) fun n => (decode n.val).toOption
  have hitem : ∀ {s : Node} (m : Message),
      (∃ n, (k, n) ∈ s.childList ∧ (decode n.val).toOption = some m) → DecodedAt decode k s m := by
    rintro s m ⟨n, hn, hm⟩
    cases hd : decode n.val with
    | error _ => rw [hd] at hm; exact nomatch hm
    | ok m' => rw [hd] at hm; exact ⟨n, hn, hd.trans (congrArg _ (Option.some.inj hm))⟩
  refine (hsame.imp hitem hitem).of_perm ?_ ?_
  · rw [filterMap_toOption hms₁]
    exact ms₁.reverse_perm
  · rw [filterMap_toOption hms₂]
    exact ms₂.reverse_perm

/-- **One bad record hides the others exactly when it changes how the loop
ends.**  For two snapshots that differ at the key `k` only, the lists after the
callback agree from every starting state, the items decoded from `k` aside, if
and only if all children decode in both snapshots or some child fails in each. -/
theorem lists_agree_iff {ε ε' : Type} (decode : Value → Except ε Event)
    (decode' : Value → Except ε' Message) (k : String) (s₁ s₂ : Node) (h₁ : s₁.Valid) (h₂ : s₂.Valid)
    (hagree : AgreeBut k s₁ s₂) (now₁ now₂ : ℕ → Date) (hclock : SameReadings k s₁ s₂ now₁ now₂)
    (locale : Locale) (uid : String) (pool : ℕ ↪ ℕ) :
    ((∀ vc : EventsViewController, ∃ vc₁ vc₂,
        vc.fetchEvents decode now₁ s₁ locale uid pool = some vc₁ ∧
        vc.fetchEvents decode now₂ s₂ locale uid pool = some vc₂ ∧
        Assoc.SameButOne (DecodedAt decode k s₁) (DecodedAt decode k s₂) vc₁.events vc₂.events) ↔
      (Decodes decode s₁ ↔ Decodes decode s₂)) ∧
    ((∀ vc : TeamViewController,
        Assoc.SameButOne (DecodedAt decode' k s₁) (DecodedAt decode' k s₂)
          (vc.fetchMessages decode' s₁).messages (vc.fetchMessages decode' s₂).messages) ↔
      (Decodes decode' s₁ ↔ Decodes decode' s₂)) := by
  constructor
  · rw [← sameButOne_iff Event.derby fun _ _ => upcoming_sameButOne h₁ h₂ hagree hclock]
    have hspec := fun (s : Node) (now : ℕ → Date) vc =>
      EventsViewController.fetchEvents_spec decode now s locale uid pool vc
    constructor
    · intro h start
      let vc : EventsViewController := { EventsViewController.opened [] with events := start }
      obtain ⟨vc₁, vc₂, hvc₁, hvc₂, hsame⟩ := h vc
      obtain ⟨_, hvc₁', hevents₁, _⟩ := hspec s₁ now₁ vc
      obtain ⟨_, hvc₂', hevents₂, _⟩ := hspec s₂ now₂ vc
      obtain rfl := Option.some.inj (hvc₁.symm.trans hvc₁')
      obtain rfl := Option.some.inj (hvc₂.symm.trans hvc₂')
      rw [hevents₁, hevents₂] at hsame
      exact hsame
    · intro h vc
      obtain ⟨vc₁, hvc₁, hevents₁, _⟩ := hspec s₁ now₁ vc
      obtain ⟨vc₂, hvc₂, hevents₂, _⟩ := hspec s₂ now₂ vc
      refine ⟨vc₁, vc₂, hvc₁, hvc₂, ?_⟩
      rw [hevents₁, hevents₂]
      exact h vc.events
  · rw [← sameButOne_iff ⟨"", "", "", 0⟩ fun _ _ => reverse_sameButOne h₁ h₂ hagree]
    constructor
    · intro h start
      have hsame := h ⟨[], start⟩
      rwa [TeamViewController.fetchMessages_messages,
        TeamViewController.fetchMessages_messages] at hsame
    · intro h vc
      rw [TeamViewController.fetchMessages_messages, TeamViewController.fetchMessages_messages]
      exact h vc.messages

/-- A snapshot with a match at `a` and some node at `b`. -/
def snapshotWith (n : Node) : Node := (Node.empty.updateChild ["a"] Event.derbyNode).updateChild ["b"] n

theorem snapshotWith_valid {n : Node} (h : n.Valid) : (snapshotWith n).Valid :=
  (Node.WFIn.empty.updateChild (nodeFrom_valid _ Event.storedDerby_node) (by decide)).updateChild h
    (by decide)

theorem snapshotWith_agreeBut (n m : Node) : AgreeBut "b" (snapshotWith n) (snapshotWith m) := by
  intro q hq
  have hother : ∀ n, (snapshotWith n).childNamed q = [("a", Event.derbyNode)].lookup q := fun n => by
    have hb : compareKey "b" "a" = .gt := by decide +kernel
    have ha : Node.empty.updateChild ["a"] Event.derbyNode = .children [("a", Event.derbyNode)] := rfl
    rw [snapshotWith, ha, Node.updateChild, Node.updateChild_nil, Node.updateImmediateChild,
      Node.childNamed]
    split_ifs
    · simp only [Node.childList, removeChild, SortedAssoc.erase, hb]
    · simp only [Node.childList, insertChild, SortedAssoc.insert, hb, Assoc.lookup_cons_eq_if,
        if_neg hq]
  rw [hother, hother]

/-- One match next to one that is there or not. -/
theorem lists_agree_iff_derby : ∃ vc₁ vc₂,
    (EventsViewController.opened []).fetchEvents Event.decode (fun _ => 50)
      (snapshotWith Event.derbyNode) someLocale "u" (.refl ℕ) = some vc₁ ∧
    (EventsViewController.opened []).fetchEvents Event.decode (fun _ => 50)
      (snapshotWith .empty) someLocale "u" (.refl ℕ) = some vc₂ ∧
    Assoc.SameButOne (DecodedAt Event.decode "b" (snapshotWith Event.derbyNode))
      (DecodedAt Event.decode "b" (snapshotWith .empty)) vc₁.events vc₂.events := by
  have hwf := nodeFrom_valid _ Event.storedDerby_node
  have hall : (decodeChildren Event.decode (snapshotWith Event.derbyNode)).toOption.isSome ∧
      (decodeChildren Event.decode (snapshotWith .empty)).toOption.isSome := by
    decide +kernel
  refine (lists_agree_iff Event.decode Message.decode "b" _ _ (snapshotWith_valid hwf)
    (snapshotWith_valid .empty) (snapshotWith_agreeBut _ _) (fun _ => 50) (fun _ => 50)
    (fun _ _ _ _ _ _ _ => rfl) someLocale "u" (.refl ℕ)).1.2 ?_ (.opened [])
  exact iff_of_true (decodes_iff.2 (Except.exists_ok_of_isSome hall.1))
    (decodes_iff.2 (Except.exists_ok_of_isSome hall.2))

/-- **A bad record hides the others.**  The same two matches, and then one of
the two is `true` in one snapshot: there the screen stays empty. -/
theorem hidden_derby : ∃ vc₁ vc₂,
    (snapshotWith (.leaf (.bool true))).Valid ∧ (snapshotWith Event.derbyNode).Valid ∧
    AgreeBut "b" (snapshotWith (.leaf (.bool true))) (snapshotWith Event.derbyNode) ∧
    (EventsViewController.opened []).fetchEvents Event.decode (fun _ => 50)
      (snapshotWith (.leaf (.bool true))) someLocale "u" (.refl ℕ) = some vc₁ ∧
    (EventsViewController.opened []).fetchEvents Event.decode (fun _ => 50)
      (snapshotWith Event.derbyNode) someLocale "u" (.refl ℕ) = some vc₂ ∧
    ¬ Assoc.SameButOne (DecodedAt Event.decode "b" (snapshotWith (.leaf (.bool true))))
      (DecodedAt Event.decode "b" (snapshotWith Event.derbyNode)) vc₁.events vc₂.events := by
  have hlen : (listAfter Event.decode (EventsViewController.upcoming fun _ => 50)
        (snapshotWith (.leaf (.bool true))) []).length = 0 ∧
      (listAfter Event.decode (EventsViewController.upcoming fun _ => 50)
        (snapshotWith Event.derbyNode) []).length = 2 := by
    decide +kernel
  obtain ⟨vc₁, hvc₁, hevents₁, _⟩ := EventsViewController.fetchEvents_spec Event.decode (fun _ => 50)
    (snapshotWith (.leaf (.bool true))) someLocale "u" (.refl ℕ) (.opened [])
  obtain ⟨vc₂, hvc₂, hevents₂, _⟩ := EventsViewController.fetchEvents_spec Event.decode (fun _ => 50)
    (snapshotWith Event.derbyNode) someLocale "u" (.refl ℕ) (.opened [])
  refine ⟨vc₁, vc₂, snapshotWith_valid (.leaf _),
    snapshotWith_valid (nodeFrom_valid _ Event.storedDerby_node), snapshotWith_agreeBut _ _, hvc₁, hvc₂,
    fun h => ?_⟩
  have hle := h.length_le
  rw [hevents₁, hevents₂] at hle
  have hlen₁ := hlen.1
  have hlen₂ := hlen.2
  simp only [EventsViewController.opened] at hle
  omega

end Teamstuff
