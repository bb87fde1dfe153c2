/-
# Trees that hold their data at the leaves

A tree over the keys `κ` holds data at its leaves and nothing in between: below a leaf there
is nothing.  A tree is what is read at each path from the root (`leaf`), so two trees that
read the same are equal.

A write puts a tree in at a path (`write`).  A leaf above the path has to go, unless what is
put in is empty.  Because of the exception a write is not determined by what is read back:
a removal below a leaf leaves the leaf alone, and the same removal after a write there
finds nothing to leave alone.  `NoLeafAbove` is the condition on the tree that rules this
out, and `Clear` is the condition on a write: it is no removal, or there is no leaf above.
-/

import Mathlib.Logic.Function.Basic
import Mathlib.Data.List.Basic
import Mathlib.Data.List.Infix
import Mathlib.Data.List.Pairwise
import Mathlib.Order.Notation

/-- What is read at each path; there is nothing below a leaf. -/
structure LeafTree (κ β : Type*) where
  leaf : List κ → Option β
  alone : ∀ p k q, (leaf p).isSome = true → leaf (p ++ k :: q) = none

namespace LeafTree

variable {κ β : Type*} {k : κ} {p q : List κ} {L M m : LeafTree κ β}

/-- The tree without leaves. -/
instance : EmptyCollection (LeafTree κ β) := ⟨⟨fun _ => none, fun _ _ _ _ => rfl⟩⟩

/-- The data at the root, for a tree that is one leaf. -/
def root (L : LeafTree κ β) : Option β := L.leaf []

/-- The tree below the key `k` of the root. -/
def child (L : LeafTree κ β) (k : κ) : LeafTree κ β :=
  ⟨fun p => L.leaf (k :: p), fun p k' q h => L.alone (k :: p) k' q h⟩

/-- The tree that is one leaf. -/
def single (b : β) : LeafTree κ β where
  leaf
    | [] => some b
    | _ :: _ => none
  alone := fun p k q h => by cases p <;> simp_all

/-- The tree with these trees below its root. -/
def node (f : κ → LeafTree κ β) : LeafTree κ β where
  leaf
    | [] => none
    | k :: p => (f k).leaf p
  alone := fun p k q h => by
    cases p with
    | nil => exact absurd h Bool.false_ne_true
    | cons k' p => exact (f k').alone p k q h

/-- The tree at a path. -/
def sub : LeafTree κ β → List κ → LeafTree κ β
  | L, [] => L
  | L, k :: p => (L.child k).sub p

/-- Neither of two paths leads to the other. -/
def Apart (p q : List κ) : Prop := ¬ p <+: q ∧ ¬ q <+: p

/-- Paths of one first name are apart further down. -/
theorem Apart.of_cons (h : Apart (k :: p) (k :: q)) : Apart p q :=
  ⟨fun hpq => h.1 (List.cons_prefix_cons.2 ⟨rfl, hpq⟩),
    fun hqp => h.2 (List.cons_prefix_cons.2 ⟨rfl, hqp⟩)⟩

/-- No path is apart from the root. -/
theorem not_apart_nil (q : List κ) : ¬ Apart [] q := fun h => h.1 List.nil_prefix

/-- The root is apart from no path. -/
theorem not_apart_nil_right (p : List κ) : ¬ Apart p [] := fun h => h.2 List.nil_prefix

/-- Paths that are apart still are below a common one. -/
theorem Apart.append (h : Apart p q) (r : List κ) : Apart (r ++ p) (r ++ q) :=
  ⟨fun hp => h.1 ((List.prefix_append_right_inj r).1 hp),
    fun hq => h.2 ((List.prefix_append_right_inj r).1 hq)⟩

/-- Paths that have parted do not meet again. -/
theorem Apart.append_right (h : Apart p q) (r : List κ) : Apart (p ++ r) q := by
  refine ⟨fun hp => h.1 ((List.prefix_append p r).trans hp), fun hq => ?_⟩
  rcases List.prefix_or_prefix_of_prefix hq (List.prefix_append p r) with hqp | hpq
  · exact h.2 hqp
  · exact h.1 hpq

/-- Two paths that part at a key. -/
theorem apart_of_ne {j k : κ} (h : j ≠ k) (p q r : List κ) : Apart (p ++ j :: q) (p ++ k :: r) := by
  constructor <;> intro hp <;> rw [List.prefix_append_right_inj, List.cons_prefix_cons] at hp
  · exact h hp.1
  · exact h hp.1.symm

/-- A tree is given by its leaves. -/
theorem ext_leaf (h : ∀ p, L.leaf p = M.leaf p) : L = M := by
  obtain ⟨leaf, _⟩ := L
  obtain ⟨leaf', _⟩ := M
  obtain rfl : leaf = leaf' := funext h
  rfl

/-- Trees are equal if their roots and the trees below them are. -/
theorem ext_child (hroot : L.root = M.root) (hchild : ∀ k, L.child k = M.child k) : L = M := by
  refine ext_leaf fun p => ?_
  cases p with
  | nil => exact hroot
  | cons k p => exact congrArg (fun N => N.leaf p) (hchild k)

/-- The leaf at the root and the subtree below a name, for each way to make a tree. -/
@[simp] theorem root_empty : (∅ : LeafTree κ β).root = none := rfl
@[simp] theorem child_empty (k : κ) : (∅ : LeafTree κ β).child k = ∅ := rfl
@[simp] theorem root_single (b : β) : (single b : LeafTree κ β).root = some b := rfl
@[simp] theorem child_single (b : β) (k : κ) : (single b : LeafTree κ β).child k = ∅ := rfl
@[simp] theorem root_node (f : κ → LeafTree κ β) : (node f).root = none := rfl
@[simp] theorem child_node (f : κ → LeafTree κ β) (k : κ) : (node f).child k = f k := rfl

/-- A tree without a leaf at the root is made of its branches. -/
theorem node_child (h : L.root = none) : node L.child = L := ext_child h.symm fun _ => rfl

/-- There is nothing below a leaf. -/
theorem child_of_root (h : L.root.isSome = true) (k : κ) : L.child k = ∅ :=
  ext_leaf fun p => L.alone [] k p h

/-- A tree with a leaf at the root is that leaf. -/
theorem eq_single {b : β} (h : L.root = some b) : L = single b :=
  ext_child h fun k => child_of_root (by rw [h]; rfl) k

/-- A tree is empty if it has neither a leaf at the root nor one below any name. -/
theorem eq_empty_iff : L = ∅ ↔ L.root = none ∧ ∀ k, L.child k = ∅ := by
  constructor
  · rintro rfl
    exact ⟨rfl, fun _ => rfl⟩
  · intro h
    exact ext_child h.1 h.2

/-- The subtree at the root. -/
@[simp] theorem sub_nil (L : LeafTree κ β) : L.sub [] = L := by rw [sub]

/-- Going down by one name. -/
@[simp] theorem sub_cons (L : LeafTree κ β) (k : κ) (p : List κ) :
    L.sub (k :: p) = (L.child k).sub p := by rw [sub]

/-- Going down in two steps. -/
theorem sub_append (L : LeafTree κ β) (p q : List κ) : L.sub (p ++ q) = (L.sub p).sub q := by
  induction p generalizing L with
  | nil => rw [List.nil_append, sub_nil]
  | cons k p ih => rw [List.cons_append, sub_cons, ih, sub_cons]

/-- All subtrees of the empty tree are empty. -/
@[simp] theorem sub_empty (p : List κ) : (∅ : LeafTree κ β).sub p = ∅ := by
  induction p with
  | nil => exact sub_nil ∅
  | cons k p ih =>
      rw [sub_cons]
      exact ih

/-! ### Writing -/

/-- No proper prefix of the path leads to a leaf. -/
def NoLeafAbove : LeafTree κ β → List κ → Prop
  | _, [] => True
  | L, k :: p => L.root = none ∧ (L.child k).NoLeafAbove p

/-- The empty tree has no leaf anywhere. -/
theorem noLeafAbove_empty (p : List κ) : (∅ : LeafTree κ β).NoLeafAbove p := by
  induction p with
  | nil => trivial
  | cons k p ih => exact ⟨rfl, ih⟩

/-- A write of `m` at `p` is no removal, or there is no leaf that a removal would leave. -/
def Clear (L : LeafTree κ β) (p : List κ) (m : LeafTree κ β) : Prop := m = ∅ → L.NoLeafAbove p

/-- A write at the root is clear, and so is one of something. -/
theorem clear_of_eq_nil_or (h : p = [] ∨ m ≠ ∅) (L : LeafTree κ β) : L.Clear p m := by
  rcases h with rfl | hm
  · exact fun _ => trivial
  · exact fun hempty => absurd hempty hm

/-- A clear write is clear from one name further down. -/
theorem Clear.child (h : L.Clear (k :: p) m) : (L.child k).Clear p m := fun hm => (h hm).2

section Write

variable [DecidableEq κ]

open Classical in
/-- The tree with `m` put in at a path. -/
noncomputable def write : LeafTree κ β → List κ → LeafTree κ β → LeafTree κ β
  | _, [], m => m
  | L, k :: p, m =>
      if m = ∅ ∧ L.root.isSome = true then L
      else node (Function.update L.child k ((L.child k).write p m))

/-- A write at the root replaces the tree. -/
@[simp] theorem write_nil (L m : LeafTree κ β) : L.write [] m = m := by rw [write]

/-- There is nothing to remove from the empty tree. -/
@[simp] theorem write_empty_empty (p : List κ) : (∅ : LeafTree κ β).write p ∅ = ∅ := by
  induction p with
  | nil => exact write_nil ∅ ∅
  | cons k p ih =>
      rw [write, if_neg (by simp)]
      refine ext_child rfl fun k' => ?_
      rw [child_node, Function.update_apply]
      split_ifs
      · exact ih
      · rfl

open Classical in
/-- A write below the root replaces a leaf there if it is of something. -/
theorem root_write (L : LeafTree κ β) (k : κ) (p : List κ) (m : LeafTree κ β) :
    (L.write (k :: p) m).root = if m = ∅ then L.root else none := by
  rw [write]
  by_cases hm : m = ∅
  · rw [if_pos hm]
    by_cases hL : L.root.isSome = true
    · rw [if_pos ⟨hm, hL⟩]
    · rw [if_neg fun h => hL h.2, root_node]
      exact (Option.not_isSome_iff_eq_none.1 hL).symm
  · rw [if_neg fun h => hm h.1, if_neg hm, root_node]

/-- A write below a name changes what is below that name. -/
theorem child_write (L : LeafTree κ β) (k k' : κ) (p : List κ) (m : LeafTree κ β) :
    (L.write (k :: p) m).child k' = if k' = k then (L.child k).write p m else L.child k' := by
  rw [write]
  by_cases h : m = ∅ ∧ L.root.isSome = true
  · rw [if_pos h, child_of_root h.2, child_of_root h.2, h.1, write_empty_empty, ite_self]
  · rw [if_neg h, child_node, Function.update_apply]

/-- Writing what is not empty leaves something. -/
theorem write_ne_empty (L : LeafTree κ β) (p : List κ) (hm : m ≠ ∅) : L.write p m ≠ ∅ := by
  induction p generalizing L with
  | nil => rwa [write_nil]
  | cons k p ih =>
      intro h
      have hchild := (eq_empty_iff.1 h).2 k
      rw [child_write, if_pos rfl] at hchild
      exact ih (L.child k) hchild

/-- **A read above a write.** -/
theorem sub_write_append (L : LeafTree κ β) (p q : List κ) (m : LeafTree κ β) :
    (L.write (p ++ q) m).sub p = (L.sub p).write q m := by
  induction p generalizing L with
  | nil => rw [List.nil_append, sub_nil, sub_nil]
  | cons k p ih => rw [List.cons_append, sub_cons, child_write, if_pos rfl, ih, sub_cons]

/-- A read inside what has been written. -/
theorem sub_append_write (L : LeafTree κ β) (p q : List κ) (m : LeafTree κ β) :
    (L.write p m).sub (p ++ q) = m.sub q := by
  have h := L.sub_write_append p [] m
  rw [List.append_nil, write_nil] at h
  rw [sub_append, h]

/-- **A read on another branch.** -/
theorem sub_write_of_apart (h : Apart p q) (L m : LeafTree κ β) :
    (L.write p m).sub q = L.sub q := by
  induction p generalizing q L with
  | nil => exact absurd h (not_apart_nil q)
  | cons k p ih =>
      cases q with
      | nil => exact absurd h (not_apart_nil_right (k :: p))
      | cons k' q =>
          rw [sub_cons, child_write, sub_cons]
          split_ifs with hk
          · subst hk
            exact ih h.of_cons (L.child k')
          · rfl

/-- **Writes on different branches**, in either order. -/
theorem write_comm (h : Apart p q) (L m n : LeafTree κ β) :
    (L.write p m).write q n = (L.write q n).write p m := by
  induction p generalizing q L with
  | nil => exact absurd h (not_apart_nil q)
  | cons k p ih =>
      cases q with
      | nil => exact absurd h (not_apart_nil_right (k :: p))
      | cons k' q =>
          refine ext_child ?_ fun j => ?_
          · simp only [root_write]
            split_ifs <;> rfl
          · by_cases hk : k' = k
            · subst hk
              simp only [child_write, if_pos]
              split_ifs
              · exact ih h.of_cons (L.child k')
              · rfl
            · simp only [child_write, if_neg hk, if_neg (Ne.symm hk)]
              by_cases hj : j = k
              · rw [if_pos hj, if_pos hj, if_neg (hj ▸ Ne.symm hk)]
              · rw [if_neg hj, if_neg hj]

/-- **Writes on different branches** can be made in any order. -/
theorem foldl_write_perm {ws vs : List (List κ × LeafTree κ β)} (hperm : ws.Perm vs)
    (hws : ws.Pairwise fun u w => Apart u.1 w.1) (L : LeafTree κ β) :
    ws.foldl (fun L w => L.write w.1 w.2) L = vs.foldl (fun L w => L.write w.1 w.2) L := by
  have hsymm : Std.Symm fun u w : List κ × LeafTree κ β => Apart u.1 w.1 := ⟨fun _ _ h => h.symm⟩
  refine hperm.foldl_eq' (fun u hu w hw L => ?_) L
  by_cases huw : u = w
  · rw [huw]
  · exact write_comm (hws.forall hu hw huw) L u.2 w.2

/-- Writing what is there already. -/
@[simp] theorem write_sub_self (L : LeafTree κ β) (p : List κ) : L.write p (L.sub p) = L := by
  induction p generalizing L with
  | nil => rw [write_nil, sub_nil]
  | cons k p ih =>
      refine ext_child ?_ fun k' => ?_
      · rw [root_write]
        split_ifs with hempty
        · rfl
        · by_contra hroot
          have hL : L.root.isSome = true := Option.isSome_iff_ne_none.2 (Ne.symm hroot)
          exact hempty (by rw [sub_cons, child_of_root hL, sub_empty])
      · rw [child_write]
        split_ifs with hk
        · rw [hk, sub_cons, ih]
        · rfl

/-- A write below a key is a write of the tree there. -/
theorem write_singleton_write (L : LeafTree κ β) (k : κ) (p : List κ) (m : LeafTree κ β) :
    L.write [k] ((L.child k).write p m) = L.write (k :: p) m := by
  refine ext_child ?_ fun k' => ?_
  · rw [root_write, root_write]
    by_cases hm : m = ∅
    · rw [if_pos hm]
      split_ifs with hempty
      · rfl
      · by_contra hroot
        have hL : L.root.isSome = true := Option.isSome_iff_ne_none.2 (Ne.symm hroot)
        exact hempty (by rw [child_of_root hL, hm, write_empty_empty])
    · rw [if_neg hm, if_neg (write_ne_empty _ p hm)]
  · rw [child_write, child_write, write_nil]

/-- What has been written is read back. -/
@[simp] theorem sub_write_self (L : LeafTree κ β) (p : List κ) (m : LeafTree κ β) :
    (L.write p m).sub p = m := by
  have h := L.sub_append_write p [] m
  rwa [List.append_nil, sub_nil] at h

/-- Of two trees that differ by a write, nothing differs if nothing does at its path. -/
theorem eq_of_sub_eq (h : M = L.write p m) (hsub : L.sub p = M.sub p) : L = M := by
  rw [h, sub_write_self] at hsub
  rw [h, ← hsub, write_sub_self]

/-- The second of two writes at a path. -/
theorem write_write {v : LeafTree κ β} (h : L.Clear p v) (m : LeafTree κ β) :
    (L.write p m).write p v = L.write p v := by
  induction p generalizing L with
  | nil => rw [write_nil, write_nil]
  | cons k p ih =>
      refine ext_child ?_ fun k' => ?_
      · rw [root_write, root_write, root_write]
        split_ifs with hv hm
        · rfl
        · exact (h hv).1.symm
        · rfl
      · simp only [child_write]
        split_ifs with hk
        · exact ih h.child
        · rfl

end Write

/-! ### A write seen from a path -/

section SeenFrom

variable [DecidableEq κ]

/-- What of a write of `m` at `q` concerns the tree at `p`: the rest of the way and what is
written there. -/
def seenFrom : (p q : List κ) → LeafTree κ β → Option (List κ × LeafTree κ β)
  | [], q, m => some (q, m)
  | k :: p, [], m => seenFrom p [] (m.child k)
  | k :: p, j :: q, m => if j = k then seenFrom p q m else none

/-- The tree with a write that is seen there. -/
noncomputable def writeSeen (L : LeafTree κ β) (w : Option (List κ × LeafTree κ β)) :
    LeafTree κ β :=
  match w with
  | some (p, m) => L.write p m
  | none => L

/-- What a write at the root or above does further down. -/
@[simp] theorem seenFrom_nil (p : List κ) (m : LeafTree κ β) :
    seenFrom p [] m = some ([], m.sub p) := by
  induction p generalizing m with
  | nil => rw [seenFrom, sub_nil]
  | cons k p ih => rw [seenFrom, ih, sub_cons]

/-- **A read after a write** makes the part of the write that concerns the path. -/
theorem sub_write (L : LeafTree κ β) (p q : List κ) (m : LeafTree κ β) :
    (L.write q m).sub p = (L.sub p).writeSeen (seenFrom p q m) := by
  induction p generalizing q L m with
  | nil => rw [sub_nil, sub_nil, seenFrom, writeSeen]
  | cons k p ih =>
      cases q with
      | nil => rw [write_nil, seenFrom_nil, writeSeen, write_nil]
      | cons j q =>
          rw [sub_cons, child_write, sub_cons, seenFrom]
          by_cases hj : j = k
          · rw [if_pos hj.symm, if_pos hj, ih, hj]
          · rw [if_neg (Ne.symm hj), if_neg hj, writeSeen]

/-- A write seen from further down. -/
theorem seenFrom_append (p p' q : List κ) (m : LeafTree κ β) :
    seenFrom (p ++ p') q m = (seenFrom p q m).bind fun w => seenFrom p' w.1 w.2 := by
  induction p generalizing q m with
  | nil => rw [List.nil_append, seenFrom, Option.bind_some]
  | cons k p ih =>
      cases q with
      | nil => rw [List.cons_append, seenFrom, seenFrom, ih]
      | cons j q =>
          rw [List.cons_append, seenFrom, seenFrom]
          split_ifs
          · exact ih q m
          · rfl

/-- A write further down is seen as it is. -/
theorem seenFrom_append_right (p q : List κ) (m : LeafTree κ β) :
    seenFrom p (p ++ q) m = some (q, m) := by
  induction p with
  | nil => rfl
  | cons k p ih => rw [List.cons_append, seenFrom, if_pos rfl, ih]

/-- Of a write further up the part is seen that it puts in there. -/
theorem seenFrom_append_left (p q : List κ) (m : LeafTree κ β) :
    seenFrom (p ++ q) p m = some ([], m.sub q) := by
  have h := seenFrom_append_right p [] m
  rw [List.append_nil] at h
  rw [seenFrom_append, h, Option.bind_some, seenFrom_nil]

/-- A write on another branch is not seen. -/
theorem seenFrom_of_apart (h : Apart q p) (m : LeafTree κ β) : seenFrom p q m = none := by
  induction p generalizing q with
  | nil => exact absurd h (not_apart_nil_right q)
  | cons k p ih =>
      cases q with
      | nil => exact absurd h (not_apart_nil (k :: p))
      | cons j q =>
          rw [seenFrom]
          split_ifs with hj
          · subst hj
            exact ih h.of_cons
          · rfl

/-- A write seen from a child. -/
theorem seenFrom_singleton {w : List κ × LeafTree κ β} (hw : seenFrom [k] q m = some w) :
    q = [] ∧ w = ([], m.child k) ∨ ∃ p, q = k :: p ∧ w = (p, m) := by
  cases q with
  | nil =>
      rw [seenFrom, seenFrom] at hw
      exact Or.inl ⟨rfl, (Option.some.inj hw).symm⟩
  | cons j p =>
      rw [seenFrom] at hw
      split_ifs at hw with hj
      rw [seenFrom] at hw
      exact Or.inr ⟨p, by rw [hj], (Option.some.inj hw).symm⟩

/-- A write seen from further down has no other names in its path. -/
theorem mem_of_seenFrom {w : List κ × LeafTree κ β} (hw : seenFrom p q m = some w) :
    ∀ k ∈ w.1, k ∈ q := by
  induction p generalizing q m with
  | nil =>
      rw [seenFrom] at hw
      obtain rfl := Option.some.inj hw
      exact fun k hk => hk
  | cons j p ih =>
      cases q with
      | nil =>
          rw [seenFrom] at hw
          exact ih hw
      | cons i q =>
          rw [seenFrom] at hw
          split_ifs at hw
          exact fun k hk => List.mem_cons_of_mem i (ih hw k hk)

/-- What is seen below the path is all of the write, so it is no removal unless the write is. -/
theorem eq_nil_or_of_seenFrom {w : List κ × LeafTree κ β} (hm : m ≠ ∅)
    (hw : seenFrom p q m = some w) : w.1 = [] ∨ w.2 ≠ ∅ := by
  induction p generalizing q with
  | nil =>
      rw [seenFrom] at hw
      obtain rfl := Option.some.inj hw
      exact Or.inr hm
  | cons k p ih =>
      cases q with
      | nil =>
          rw [seenFrom_nil] at hw
          obtain rfl := Option.some.inj hw
          exact Or.inl rfl
      | cons j q =>
          rw [seenFrom] at hw
          split_ifs at hw with hj
          exact ih hw

/-- Where the write itself is seen, the path is below it. -/
theorem prefix_of_seenFrom {w : List κ × LeafTree κ β} (hw : seenFrom p q m = some w)
    (hnil : w.1 = []) : q <+: p := by
  induction p generalizing q m with
  | nil =>
      rw [seenFrom] at hw
      obtain rfl := Option.some.inj hw
      exact hnil ▸ List.nil_prefix
  | cons k p ih =>
      cases q with
      | nil => exact List.nil_prefix
      | cons j q =>
          rw [seenFrom] at hw
          split_ifs at hw with hj
          exact List.cons_prefix_cons.2 ⟨hj, ih hw⟩

/-- A clear write is clear when it is seen from further down. -/
theorem Clear.of_seenFrom {w : List κ × LeafTree κ β} (h : L.Clear q (L.sub q))
    (hw : seenFrom p q m = some w) : (L.sub p).Clear w.1 ((L.sub p).sub w.1) := by
  induction p generalizing q L m with
  | nil =>
      rw [seenFrom] at hw
      obtain rfl := Option.some.inj hw
      rwa [sub_nil]
  | cons k p ih =>
      cases q with
      | nil =>
          rw [seenFrom_nil] at hw
          obtain rfl := Option.some.inj hw
          exact fun _ => trivial
      | cons j q =>
          rw [seenFrom] at hw
          split_ifs at hw with hj
          obtain rfl := hj
          rw [sub_cons] at h ⊢
          exact ih h.child hw

end SeenFrom

end LeafTree
