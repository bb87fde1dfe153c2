/-
# A store behind per-client write queues

A shared store of type `S` that any number of clients write to without waiting
for each other.  A client that writes appends to its own queue; the store takes
the head of some queue at any later time (`commit`) or turns it down (`refuse`),
so each client's writes take effect in the order it issued them and those of
different clients in any order.  `past` keeps every value the store has had, the
newest first.  What a client reads is one of these values with its own queued
writes laid over it (`overlay`, `snapshot`): it may be old, but a client never
misses a write of its own that is still on its way.

`Holds P Q` is the shape of an invariant of such a system: `P` of every value
the store has had, `Q` of every write still queued.  Where a write with `Q`
takes a store with `P` to a store with `P`, the operations keep it and every
snapshot has `P` (`Holds.snapshot`), however old it is.

`Replays` says which writes the values come from: where `ws` are the writes the
store has applied, newest first, its `i`-th newest value is what the writes but
for the newest `i` made of the first value (`Replays.past_eq`).
-/

import Mathlib.Logic.Function.Basic
import Mathlib.Data.List.Basic
import Mathlib.Data.List.Infix

/-- A store, the values it has had (newest first, the present one included),
and the writes each client has issued and the store has not answered. -/
structure Replica (C S W : Type*) where
  store : S
  past : List S
  pending : C → List W

namespace Replica

variable {C S W : Type*} [DecidableEq C] (act : W → S → S)

/-- A store nobody has written to. -/
def start (s : S) : Replica C S W := ⟨s, [s], fun _ => []⟩

/-- Client `c` issues a write. -/
def issue (c : C) (w : W) (r : Replica C S W) : Replica C S W :=
  { r with pending := Function.update r.pending c (r.pending c ++ [w]) }

/-- Client `c` issues several writes, in this order. -/
def issueAll (c : C) (ws : List W) (r : Replica C S W) : Replica C S W :=
  ws.foldl (fun r w => r.issue c w) r

/-- The store applies the oldest queued write of client `c`. -/
def commit (c : C) (r : Replica C S W) : Option (Replica C S W) :=
  match r.pending c with
  | [] => none
  | w :: ws => some
      { store := act w r.store
        past := act w r.store :: r.past
        pending := Function.update r.pending c ws }

/-- The store turns down the oldest queued write of client `c`. -/
def refuse (c : C) (r : Replica C S W) : Option (Replica C S W) :=
  match r.pending c with
  | [] => none
  | _ :: ws => some { r with pending := Function.update r.pending c ws }

/-- A store value as client `c` sees it: with its own queued writes on top. -/
def overlay (c : C) (r : Replica C S W) (s : S) : S :=
  (r.pending c).foldl (fun s w => act w s) s

/-- The snapshot of the `i`-th newest value the store has had, as delivered to
client `c`. -/
def snapshot (c : C) (i : ℕ) (r : Replica C S W) : Option S :=
  r.past[i]?.map (r.overlay act c)

/-- The `i`-th newest value with only the first `n` of the client's queued writes
on top. -/
def view (c : C) (i n : ℕ) (r : Replica C S W) : Option S :=
  r.past[i]?.map fun s => ((r.pending c).take n).foldl (fun s w => act w s) s

/-- A write that is issued does not change the store. -/
@[simp] theorem issue_store (c : C) (w : W) (r : Replica C S W) : (r.issue c w).store = r.store := rfl

/-- It is on its way behind the others of the client. -/
theorem issue_pending (c : C) (w : W) (r : Replica C S W) (d : C) :
    (r.issue c w).pending d = if d = c then r.pending c ++ [w] else r.pending d := by
  simp only [issue, Function.update_apply]

/-- Writes that are issued do not change the store. -/
theorem issueAll_store (c : C) (ws : List W) (r : Replica C S W) :
    (r.issueAll c ws).store = r.store := by
  induction ws generalizing r with
  | nil => rfl
  | cons w ws ih => exact ih (r.issue c w)

/-- Nor what it has been. -/
theorem issueAll_past (c : C) (ws : List W) (r : Replica C S W) :
    (r.issueAll c ws).past = r.past := by
  induction ws generalizing r with
  | nil => rfl
  | cons w ws ih => exact ih (r.issue c w)

/-- They are on their way behind the others of the client. -/
theorem issueAll_pending (c : C) (ws : List W) (r : Replica C S W) (d : C) :
    (r.issueAll c ws).pending d = if d = c then r.pending c ++ ws else r.pending d := by
  induction ws generalizing r with
  | nil => split_ifs with h <;> simp [issueAll, h]
  | cons w ws ih =>
      have hfold : r.issueAll c (w :: ws) = (r.issue c w).issueAll c ws := rfl
      rw [hfold, ih, issue_pending, issue_pending, if_pos rfl]
      split_ifs <;> simp

/-- What an applied write does, the queue it came from included. -/
theorem commit_eq_some {c : C} {r r' : Replica C S W} :
    r.commit act c = some r' ↔ ∃ w ws, r.pending c = w :: ws ∧
      r' = ⟨act w r.store, act w r.store :: r.past, Function.update r.pending c ws⟩ := by
  unfold commit
  cases h : r.pending c with
  | nil => simp
  | cons w ws =>
      constructor
      · intro hr
        exact ⟨w, ws, rfl, (Option.some.inj hr).symm⟩
      · rintro ⟨w', ws', he, rfl⟩
        obtain ⟨rfl, rfl⟩ := List.cons.inj he
        rfl

/-- What a refused write does. -/
theorem refuse_eq_some {c : C} {r r' : Replica C S W} :
    r.refuse c = some r' ↔ ∃ w ws, r.pending c = w :: ws ∧
      r' = { r with pending := Function.update r.pending c ws } := by
  unfold refuse
  cases h : r.pending c with
  | nil => simp
  | cons w ws =>
      constructor
      · intro hr
        exact ⟨w, ws, rfl, (Option.some.inj hr).symm⟩
      · rintro ⟨w', ws', he, rfl⟩
        obtain ⟨rfl, rfl⟩ := List.cons.inj he
        rfl

/-- What is still queued after an applied write was queued before. -/
theorem mem_pending_of_commit {c d : C} {r r' : Replica C S W} {v : W}
    (h : r.commit act c = some r') (hv : v ∈ r'.pending d) : v ∈ r.pending d := by
  obtain ⟨w, ws, hc, rfl⟩ := (commit_eq_some act).1 h
  simp only [Function.update_apply] at hv
  split_ifs at hv with hd
  · exact hd ▸ hc ▸ List.mem_cons_of_mem w hv
  · exact hv

/-- Nothing is on its way that was not before. -/
theorem mem_pending_of_refuse {c d : C} {r r' : Replica C S W} {v : W}
    (h : r.refuse c = some r') (hv : v ∈ r'.pending d) : v ∈ r.pending d := by
  obtain ⟨w, ws, hc, rfl⟩ := refuse_eq_some.1 h
  simp only [Function.update_apply] at hv
  split_ifs at hv with hd
  · exact hd ▸ hc ▸ List.mem_cons_of_mem w hv
  · exact hv

omit [DecidableEq C] in
/-- A snapshot is some past store with all that is on its way laid over it. -/
theorem snapshot_eq_some {c : C} {i : ℕ} {r : Replica C S W} {v : S} :
    r.snapshot act c i = some v ↔ ∃ s, r.past[i]? = some s ∧ r.overlay act c s = v := by
  simp only [snapshot, Option.map_eq_some_iff]

omit [DecidableEq C] in
/-- A view has only some of it laid over it. -/
theorem view_eq_some {c : C} {i n : ℕ} {r : Replica C S W} {v : S} :
    r.view act c i n = some v ↔
      ∃ s, r.past[i]? = some s ∧ ((r.pending c).take n).foldl (fun s w => act w s) s = v := by
  simp only [view, Option.map_eq_some_iff]

/-- Applying the head of a queue does not change what its client sees. -/
theorem overlay_commit {c : C} {r : Replica C S W} {w : W} {ws : List W}
    (h : r.pending c = w :: ws) (past : List S) :
    (⟨act w r.store, past, Function.update r.pending c ws⟩ : Replica C S W).overlay act c
      (act w r.store) = r.overlay act c r.store := by
  simp only [overlay, Function.update_self, h, List.foldl_cons]

/-- An issued write takes effect at once in what its client sees. -/
theorem overlay_issue (c : C) (w : W) (r : Replica C S W) (s : S) :
    (r.issue c w).overlay act c s = act w (r.overlay act c s) := by
  simp only [overlay, issue_pending, if_pos, List.foldl_append, List.foldl_cons, List.foldl_nil]

/-- What is issued is laid over last. -/
theorem overlay_issueAll (c : C) (ws : List W) (r : Replica C S W) (s : S) :
    (r.issueAll c ws).overlay act c s = ws.foldl (fun s w => act w s) (r.overlay act c s) := by
  simp only [overlay, issueAll_pending, if_pos, List.foldl_append]

/-- The other clients do not see it. -/
theorem overlay_issue_of_ne {c d : C} (h : d ≠ c) (w : W) (r : Replica C S W) (s : S) :
    (r.issue c w).overlay act d s = r.overlay act d s := by
  simp only [overlay, issue_pending, if_neg h]

/-! ### Invariants -/

/-- `P` of every value the store has had and `Q` of every queued write. -/
structure Holds (P : S → Prop) (Q : W → Prop) (r : Replica C S W) : Prop where
  store : P r.store
  past : ∀ s ∈ r.past, P s
  pending : ∀ c, ∀ w ∈ r.pending c, Q w

namespace Holds

variable {act} {P P' : S → Prop} {Q Q' : W → Prop} {r r' : Replica C S W}

omit [DecidableEq C] in
/-- At the start. -/
theorem start {s : S} (h : P s) : Holds P Q (Replica.start s : Replica C S W) where
  store := h
  past := fun _ ht => List.mem_singleton.1 ht ▸ h
  pending := fun _ _ hw => absurd hw List.not_mem_nil

omit [DecidableEq C] in
/-- Under weaker invariants. -/
theorem mono (h : Holds P Q r) (hP : ∀ s, P s → P' s) (hQ : ∀ w, Q w → Q' w) : Holds P' Q' r where
  store := hP _ h.store
  past := fun s hs => hP s (h.past s hs)
  pending := fun c w hw => hQ w (h.pending c w hw)

/-- A write is issued. -/
theorem issue (h : Holds P Q r) (c : C) {w : W} (hw : Q w) : Holds P Q (r.issue c w) where
  store := h.store
  past := h.past
  pending := by
    intro d v hv
    rw [issue_pending] at hv
    split_ifs at hv with hd
    · rcases List.mem_append.1 hv with hv | hv
      · exact h.pending c v hv
      · exact List.mem_singleton.1 hv ▸ hw
    · exact h.pending d v hv

/-- Several are issued. -/
theorem issueAll (h : Holds P Q r) (c : C) {ws : List W} (hws : ∀ w ∈ ws, Q w) :
    Holds P Q (r.issueAll c ws) := by
  induction ws generalizing r with
  | nil => exact h
  | cons w ws ih =>
      exact ih (h.issue c (hws w List.mem_cons_self)) fun v hv => hws v (List.mem_cons_of_mem _ hv)

/-- Shortening a queue keeps what holds of the queued writes. -/
theorem pending_update (h : Holds P Q r) {c : C} {w : W} {ws : List W} (hc : r.pending c = w :: ws)
    (d : C) (v : W) (hv : v ∈ Function.update r.pending c ws d) : Q v := by
  rw [Function.update_apply] at hv
  split_ifs at hv with hd
  · exact h.pending c v (hc ▸ List.mem_cons_of_mem w hv)
  · exact h.pending d v hv

/-- A write is applied. -/
theorem commit (h : Holds P Q r) (hact : ∀ w s, Q w → P s → P (act w s)) {c : C}
    (hr : r.commit act c = some r') : Holds P Q r' := by
  obtain ⟨w, ws, hc, rfl⟩ := (commit_eq_some act).1 hr
  have hw : P (act w r.store) := hact w r.store (h.pending c w (hc ▸ List.mem_cons_self)) h.store
  refine ⟨hw, fun s hs => ?_, h.pending_update hc⟩
  rcases List.mem_cons.1 hs with rfl | hs
  · exact hw
  · exact h.past s hs

/-- A write is refused. -/
theorem refuse (h : Holds P Q r) {c : C} (hr : r.refuse c = some r') : Holds P Q r' := by
  obtain ⟨w, ws, hc, rfl⟩ := refuse_eq_some.1 hr
  exact ⟨h.store, h.past, h.pending_update hc⟩

/-- Writes with `Q` on top of a value with `P`. -/
theorem foldl (hact : ∀ w s, Q w → P s → P (act w s)) {ws : List W} {s : S} (hws : ∀ w ∈ ws, Q w)
    (hs : P s) : P (ws.foldl (fun s w => act w s) s) := by
  induction ws generalizing s with
  | nil => exact hs
  | cons w ws ih =>
      exact ih (fun v hv => hws v (List.mem_cons_of_mem w hv)) (hact w s (hws w List.mem_cons_self) hs)

omit [DecidableEq C] in
/-- What a client sees has `P` when the value below its own writes has. -/
theorem overlay (h : Holds P Q r) (hact : ∀ w s, Q w → P s → P (act w s)) (c : C) {s : S}
    (hs : P s) : P (r.overlay act c s) := foldl hact (h.pending c) hs

omit [DecidableEq C] in
/-- Every snapshot has `P`, however old the value it shows. -/
theorem snapshot (h : Holds P Q r) (hact : ∀ w s, Q w → P s → P (act w s)) {c : C} {i : ℕ} {v : S}
    (hv : r.snapshot act c i = some v) : P v := by
  obtain ⟨s, hs, rfl⟩ := (snapshot_eq_some act).1 hv
  exact h.overlay hact c (h.past s (List.mem_of_getElem? hs))

omit [DecidableEq C] in
/-- What a client sees. -/
theorem view (h : Holds P Q r) (hact : ∀ w s, Q w → P s → P (act w s)) {c : C} {i n : ℕ} {v : S}
    (hv : r.view act c i n = some v) : P v := by
  obtain ⟨s, hs, rfl⟩ := (view_eq_some act).1 hv
  exact foldl hact (fun w hw => h.pending c w (List.mem_of_mem_take hw))
    (h.past s (List.mem_of_getElem? hs))

end Holds

/-! ### The writes behind the values -/

/-- The values of the store are what the writes `ws`, newest first, made of `s₀`. -/
structure Replays (s₀ : S) (ws : List W) (r : Replica C S W) : Prop where
  store : r.store = ws.foldr act s₀
  past : r.past = ws.tails.map fun us => us.foldr act s₀

namespace Replays

variable {act} {s₀ : S} {ws : List W} {r r' : Replica C S W}

omit [DecidableEq C] in
theorem start (s₀ : S) : Replays act s₀ [] (Replica.start s₀ : Replica C S W) := ⟨rfl, rfl⟩

theorem issueAll (h : Replays act s₀ ws r) (c : C) (us : List W) :
    Replays act s₀ ws (r.issueAll c us) :=
  ⟨(issueAll_store c us r).trans h.store, (issueAll_past c us r).trans h.past⟩

/-- An applied write is the newest one from then on. -/
theorem commit (h : Replays act s₀ ws r) {c : C} {w : W} {us : List W} (hc : r.pending c = w :: us)
    (hr : r.commit act c = some r') : Replays act s₀ (w :: ws) r' := by
  obtain ⟨w', us', hc', rfl⟩ := (commit_eq_some act).1 hr
  obtain ⟨rfl, rfl⟩ := List.cons.inj (hc.symm.trans hc')
  refine ⟨?_, ?_⟩
  · rw [List.foldr_cons, h.store]
  · rw [List.tails_cons, List.map_cons, List.foldr_cons, h.store, h.past]

theorem refuse (h : Replays act s₀ ws r) {c : C} (hr : r.refuse c = some r') :
    Replays act s₀ ws r' := by
  obtain ⟨_, _, _, rfl⟩ := refuse_eq_some.1 hr
  exact ⟨h.store, h.past⟩

omit [DecidableEq C] in
/-- **The `i`-th newest value** is what the writes but the newest `i` made. -/
theorem past_eq (h : Replays act s₀ ws r) {i : ℕ} {s : S} (hs : r.past[i]? = some s) :
    i ≤ ws.length ∧ s = (ws.drop i).foldr act s₀ := by
  rw [h.past, List.getElem?_map] at hs
  obtain ⟨us, hus, rfl⟩ := Option.map_eq_some_iff.1 hs
  obtain ⟨hi, rfl⟩ := List.getElem?_eq_some_iff.1 hus
  have hlen : ws.tails.length = ws.length + 1 := List.length_tails ws
  refine ⟨by omega, ?_⟩
  rw [List.getElem_tails]

omit [DecidableEq C] in
/-- The newest value is the present one. -/
theorem past_eq_cons (h : Replays act s₀ ws r) : ∃ past, r.past = r.store :: past := by
  rw [h.past, h.store]
  cases ws with
  | nil => exact ⟨[], rfl⟩
  | cons w ws => exact ⟨_, by rw [List.tails_cons, List.map_cons]⟩

omit [DecidableEq C] in
/-- What the writes but the newest few made is one of the values. -/
theorem mem_past (h : Replays act s₀ ws r) {us : List W} (hus : us <:+ ws) :
    us.foldr act s₀ ∈ r.past := by
  rw [h.past]
  exact List.mem_map.2 ⟨us, (List.mem_tails us ws).2 hus, rfl⟩

end Replays

end Replica
