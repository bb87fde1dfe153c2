/-
# Writes that have not been made yet

A patch says for some paths what is to be put there, no one of them below another: it is a
tree whose leaves are trees.  `act` lays it over a tree.  A write is added to a patch
(`put`) by changing what the patch puts at or above the path, or by replacing what it puts
below; `within` is what a patch does to the tree at a path, and `erase` takes out what it
puts at a path or below.

Laying a patch over a tree comes to making the writes it was built from
(`act_putAll`), where each of them is `Clear`: a patch only knows the outcome of its writes,
and a removal in it may stand for a write and a removal after it.  Below the paths of a
patch the tree it is laid over does not matter, and a change of the tree shows through where
the patch leaves room (`act_write`).
-/

import Teamstuff.Library.LeafTree

namespace LeafTree

/-- What is to be put at which path. -/
abbrev Patch (κ β : Type*) := LeafTree κ (LeafTree κ β)

variable {κ β : Type*} {k : κ} {p q : List κ} {P Q : Patch κ β} {L m v : LeafTree κ β}

/-- Nothing but removals is put anywhere. -/
def AddsNothing (P : Patch κ β) : Prop := ∀ p m, P.leaf p = some m → m = ∅

/-- No removal is put anywhere. -/
def Full (P : Patch κ β) : Prop := ∀ p m, P.leaf p = some m → m ≠ ∅

/-- A patch that adds nothing adds nothing below a name. -/
theorem AddsNothing.child (h : P.AddsNothing) (k : κ) : (P.child k).AddsNothing :=
  fun p m hm => h (k :: p) m hm

/-- It adds nothing if it adds nothing below any name. -/
theorem addsNothing_iff (h : P.root = none) :
    P.AddsNothing ↔ ∀ k, (P.child k).AddsNothing := by
  constructor
  · exact fun hP k => hP.child k
  · intro hP p m hm
    cases p with
    | nil => exact nomatch h.symm.trans hm
    | cons k p => exact hP k p m hm

/-- A full patch is full below every name. -/
theorem Full.child (h : P.Full) (k : κ) : (P.child k).Full := fun p m hm => h (k :: p) m hm

/-- The empty patch adds nothing. -/
theorem addsNothing_empty : (∅ : Patch κ β).AddsNothing := fun _ _ h => nomatch h

/-- The empty patch is full. -/
theorem full_empty : (∅ : Patch κ β).Full := fun _ _ h => nomatch h

/-- A patch that puts a tree with leaves at the root is full. -/
theorem full_single (hm : m ≠ ∅) : (single m : Patch κ β).Full := by
  intro p n hn
  cases p with
  | nil => exact Option.some.inj hn ▸ hm
  | cons k p => exact nomatch hn

/-- Only the empty patch is full and adds nothing. -/
theorem Full.eq_empty (h : P.Full) (hnothing : P.AddsNothing) : P = ∅ := by
  refine ext_leaf fun p => ?_
  cases hm : P.leaf p with
  | none => rfl
  | some m => exact absurd (hnothing p m hm) (h p m hm)

open Classical in
/-- What is read at a path with the patch on top. -/
noncomputable def read : List κ → Patch κ β → LeafTree κ β → Option β
  | [], P, L =>
      match P.root with
      | some m => m.root
      | none => if P.AddsNothing then L.root else none
  | k :: p, P, L =>
      match P.root with
      | some m => (m.child k).leaf p
      | none => read p (P.child k) (L.child k)

/-- Over no leaves a patch that adds nothing leaves none. -/
theorem read_empty (hP : P.AddsNothing) (p : List κ) : read p P (∅ : LeafTree κ β) = none := by
  induction p generalizing P with
  | nil =>
      rw [read]
      cases hroot : P.root with
      | none =>
          dsimp only
          rw [if_pos hP]
          rfl
      | some m =>
          obtain rfl := hP [] m hroot
          rfl
  | cons k p ih =>
      rw [read]
      cases hroot : P.root with
      | none => exact ih (hP.child k)
      | some m =>
          obtain rfl := hP [] m hroot
          rfl

/-- Where a leaf is read, none is read below it. -/
theorem read_below (P : Patch κ β) (L : LeafTree κ β) (p : List κ) (k : κ) (q : List κ)
    (h : (read p P L).isSome = true) : read (p ++ k :: q) P L = none := by
  induction p generalizing P L with
  | nil =>
      rw [read] at h
      rw [List.nil_append, read]
      cases hroot : P.root with
      | none =>
          rw [hroot] at h
          dsimp only at h ⊢
          split_ifs at h with hP
          · rw [child_of_root h]
            exact read_empty (hP.child k) q
          · exact absurd h Bool.false_ne_true
      | some m =>
          rw [hroot] at h
          exact m.alone [] k q h
  | cons k' p ih =>
      rw [read] at h
      rw [List.cons_append, read]
      cases hroot : P.root with
      | none =>
          rw [hroot] at h
          exact ih (P.child k') (L.child k') h
      | some m =>
          rw [hroot] at h
          exact (m.child k').alone p k q h

/-- The tree with a patch on top. -/
noncomputable def act (P : Patch κ β) (L : LeafTree κ β) : LeafTree κ β :=
  ⟨fun p => read p P L, P.read_below L⟩

/-- What is put at the root replaces the tree. -/
theorem act_of_root (h : P.root = some m) (L : LeafTree κ β) : P.act L = m := by
  refine ext_leaf fun p => ?_
  cases p with
  | nil => exact (by rw [read, h] : read [] P L = m.root)
  | cons k p => exact (by rw [read, h] : read (k :: p) P L = (m.child k).leaf p)

open Classical in
/-- The leaf at the root stays if nothing is added below it. -/
theorem root_act (h : P.root = none) (L : LeafTree κ β) :
    (P.act L).root = if P.AddsNothing then L.root else none := by
  change read [] P L = _
  rw [read, h]

/-- A patch that puts nothing at the root acts below each name on its own. -/
theorem child_act (h : P.root = none) (L : LeafTree κ β) (k : κ) :
    (P.act L).child k = (P.child k).act (L.child k) := by
  refine ext_leaf fun p => ?_
  change read (k :: p) P L = _
  rw [read, h]
  rfl

/-- The empty patch changes nothing. -/
@[simp] theorem act_empty (L : LeafTree κ β) : (∅ : Patch κ β).act L = L := by
  refine ext_leaf fun p => ?_
  induction p generalizing L with
  | nil =>
      refine (root_act rfl L).trans ?_
      rw [if_pos addsNothing_empty]
      rfl
  | cons k p ih =>
      change (((∅ : Patch κ β).act L).child k).leaf p = _
      rw [child_act rfl]
      exact ih (L.child k)

/-- A single tree replaces what is there. -/
@[simp] theorem act_single (m L : LeafTree κ β) : (single m : Patch κ β).act L = m :=
  act_of_root rfl L

/-! ### What a patch does at a path -/

/-- What the patch does to the tree at a path. -/
def within : Patch κ β → List κ → Patch κ β
  | P, [] => P
  | P, k :: p =>
      match P.root with
      | some m => single (m.sub (k :: p))
      | none => within (P.child k) p

/-- Seen from the root a patch is what it is. -/
@[simp] theorem within_nil (P : Patch κ β) : P.within [] = P := by rw [within]

/-- Below what is put at the root there is a part of it. -/
theorem within_of_root (h : P.root = some m) (p : List κ) : P.within p = single (m.sub p) := by
  cases p with
  | nil =>
      rw [within_nil, sub_nil]
      exact eq_single h
  | cons k p => rw [within, h]

/-- Going down by one name. -/
theorem within_cons (h : P.root = none) (k : κ) (p : List κ) :
    P.within (k :: p) = (P.child k).within p := by rw [within, h]

/-- A single tree, seen from further down. -/
@[simp] theorem within_single (m : LeafTree κ β) (p : List κ) :
    (single m : Patch κ β).within p = single (m.sub p) := within_of_root rfl p

/-- Going down in two steps. -/
theorem within_append (P : Patch κ β) (p q : List κ) :
    P.within (p ++ q) = (P.within p).within q := by
  induction p generalizing P with
  | nil => rw [List.nil_append, within_nil]
  | cons k p ih =>
      cases h : P.root with
      | some m => rw [within_of_root h, within_of_root h, within_single, sub_append]
      | none => rw [List.cons_append, within_cons h, within_cons h, ih]

/-- Nothing is put anywhere below by the empty patch. -/
@[simp] theorem within_empty (p : List κ) : (∅ : Patch κ β).within p = ∅ := by
  induction p with
  | nil => exact within_nil ∅
  | cons k p ih =>
      rw [within_cons rfl]
      exact ih

/-- **Reading a tree with a patch on top** at a path. -/
theorem sub_act (P : Patch κ β) (L : LeafTree κ β) (p : List κ) :
    (P.act L).sub p = (P.within p).act (L.sub p) := by
  induction p generalizing P L with
  | nil => rw [sub_nil, within_nil, sub_nil]
  | cons k p ih =>
      cases h : P.root with
      | some m => rw [act_of_root h, within_of_root h, act_single]
      | none => rw [sub_cons, child_act h, ih, within_cons h, sub_cons]

/-- A full patch is full further down, unless something is put above. -/
theorem Full.within (h : P.Full) (hroot : (P.within p).root = none) : (P.within p).Full := by
  induction p generalizing P with
  | nil => rwa [within_nil]
  | cons k p ih =>
      cases hP : P.root with
      | some m =>
          rw [within_of_root hP, root_single] at hroot
          exact nomatch hroot
      | none =>
          rw [within_cons hP] at hroot ⊢
          exact ih (h.child k) hroot

/-- Somewhere below nothing is left to be seen of the tree, or there are only writes that
put something in. -/
theorem Full.within_or (h : P.Full) (p : List κ) :
    (P.within p).root.isSome = true ∨ (P.within p).Full := by
  cases hroot : (P.within p).root with
  | some m => exact Or.inl rfl
  | none => exact Or.inr (h.within hroot)

/-- What comes out empty had nothing put in. -/
theorem addsNothing_of_act_eq_empty (h : P.act L = ∅) : P.AddsNothing := by
  intro p m hm
  induction p generalizing P L with
  | nil => rw [← act_of_root hm L, h]
  | cons k p ih =>
      cases hroot : P.root with
      | some v =>
          have hnone : P.leaf (k :: p) = none := P.alone [] k p (by
            change P.root.isSome = true
            rw [hroot]
            rfl)
          rw [hnone] at hm
          cases hm
      | none =>
          have hchild : (P.child k).act (L.child k) = ∅ := by
            rw [← child_act hroot L k, h, child_empty]
          exact ih hchild hm

/-- A patch that adds nothing adds nothing to nothing. -/
theorem act_empty_eq_empty (h : P.AddsNothing) : P.act ∅ = ∅ :=
  ext_leaf fun p => read_empty h p

/-- A patch that puts nothing at a path or above puts no leaf there. -/
theorem NoLeafAbove.act (h : L.NoLeafAbove p) (hroot : (P.within p).root = none) :
    (P.act L).NoLeafAbove p := by
  induction p generalizing P L with
  | nil => trivial
  | cons k p ih =>
      cases hP : P.root with
      | some v =>
          rw [within_of_root hP, root_single] at hroot
          cases hroot
      | none =>
          rw [within_cons hP] at hroot
          refine ⟨?_, ?_⟩
          · rw [root_act hP, h.1, ite_self]
          · rw [child_act hP]
            exact ih h.2 hroot

/-- Where a tree can be written to, it can with a patch on top. -/
theorem Clear.act (hfull : P.Full) (hroot : (P.within p).root = none)
    (h : L.Clear p (L.sub p)) : (P.act L).Clear p ((P.act L).sub p) := by
  intro hempty
  rw [sub_act] at hempty
  have hwithin : P.within p = ∅ :=
    (hfull.within hroot).eq_empty (addsNothing_of_act_eq_empty hempty)
  rw [hwithin, act_empty] at hempty
  exact (h hempty).act hroot

/-! ### Adding writes -/

section Put

variable [DecidableEq κ]

/-- The patch with a write added. -/
noncomputable def put : Patch κ β → List κ → LeafTree κ β → Patch κ β
  | _, [], m => single m
  | P, k :: p, m =>
      match P.root with
      | some v => single (v.write (k :: p) m)
      | none => node (Function.update P.child k (put (P.child k) p m))

/-- What is put at the root is all there is. -/
@[simp] theorem put_nil (P : Patch κ β) (m : LeafTree κ β) : P.put [] m = single m := by rw [put]

/-- What is put below a tree is written into it. -/
theorem put_of_root (h : P.root = some v) (p : List κ) (m : LeafTree κ β) :
    P.put p m = single (v.write p m) := by
  cases p with
  | nil => rw [put_nil, write_nil]
  | cons k p => rw [put, h]

/-- A write into a single tree. -/
@[simp] theorem put_single (v : LeafTree κ β) (p : List κ) (m : LeafTree κ β) :
    (single v : Patch κ β).put p m = single (v.write p m) := put_of_root rfl p m

/-- A write below the root puts nothing at the root. -/
theorem root_put (h : P.root = none) (k : κ) (p : List κ) (m : LeafTree κ β) :
    (P.put (k :: p) m).root = none := by
  rw [put, h]
  rfl

/-- A write below a name changes what is below that name. -/
theorem child_put (h : P.root = none) (k k' : κ) (p : List κ) (m : LeafTree κ β) :
    (P.put (k :: p) m).child k' = if k' = k then (P.child k).put p m else P.child k' := by
  rw [put, h]
  exact (child_node _ k').trans (Function.update_apply ..)

/-- To put a tree with leaves is to add something. -/
theorem not_addsNothing_put (P : Patch κ β) (p : List κ) (hm : m ≠ ∅) :
    ¬ (P.put p m).AddsNothing := by
  induction p generalizing P with
  | nil =>
      rw [put_nil]
      exact fun h => hm (h [] m rfl)
  | cons k p ih =>
      cases hroot : P.root with
      | some v =>
          rw [put_of_root hroot]
          exact fun h => write_ne_empty v (k :: p) hm (h [] _ rfl)
      | none =>
          intro h
          have hchild := h.child k
          rw [child_put hroot, if_pos rfl] at hchild
          exact ih (P.child k) hchild

/-- **Adding a write to a patch is making it after the patch**, where it is clear of the
tree the patch is laid over. -/
theorem act_put (P : Patch κ β) (h : L.Clear p m) : (P.put p m).act L = (P.act L).write p m := by
  induction p generalizing P L with
  | nil => rw [put_nil, act_single, write_nil]
  | cons k p ih =>
      cases hroot : P.root with
      | some v => rw [put_of_root hroot, act_single, act_of_root hroot]
      | none =>
          have hput := root_put hroot k p m
          refine ext_child ?_ fun k' => ?_
          · rw [root_act hput, root_write, root_act hroot]
            by_cases hm : m = ∅
            · rw [(h hm).1, ite_self, ite_self, ite_self]
            · rw [if_neg (not_addsNothing_put P (k :: p) hm), if_neg hm]
          · rw [child_act hput, child_put hroot, child_write, child_act hroot, child_act hroot]
            split_ifs with hk
            · rw [hk]
              exact ih (P.child k) h.child
            · rfl

omit [DecidableEq κ] in
/-- Where nothing is put further down, nothing is put at the root. -/
theorem root_eq_none_of_within {k : κ} {p : List κ} (h : P.within (k :: p) = ∅) :
    P.root = none := by
  cases hroot : P.root with
  | none => rfl
  | some v =>
      rw [within_of_root hroot] at h
      exact absurd (congrArg root h) (Option.some_ne_none _)

/-- To remove what is not written adds nothing. -/
theorem addsNothing_put_empty (h : P.within p = ∅) :
    (P.put p ∅).AddsNothing ↔ P.AddsNothing := by
  induction p generalizing P with
  | nil =>
      rw [within_nil] at h
      subst h
      rw [put_nil]
      refine iff_of_true (fun q n hn => ?_) addsNothing_empty
      cases q with
      | nil => exact (Option.some.inj hn).symm
      | cons k q => cases hn
  | cons k p ih =>
      have hroot := root_eq_none_of_within h
      rw [within_cons hroot] at h
      rw [addsNothing_iff (root_put hroot ..), addsNothing_iff hroot]
      refine forall_congr' fun k' => ?_
      rw [child_put hroot]
      split_ifs with hk
      · rw [hk]
        exact ih h
      · rfl

open Classical in
/-- The same where the patch has nothing, whether the write is clear of the tree or not. -/
theorem act_put_of_within (h : P.within p = ∅) (m L : LeafTree κ β) :
    (P.put p m).act L = (P.act L).write p m := by
  induction p generalizing P L with
  | nil => rw [put_nil, act_single, write_nil]
  | cons k p ih =>
      have hroot := root_eq_none_of_within h
      have hput := root_put hroot k p m
      refine ext_child ?_ fun k' => ?_
      · rw [root_act hput, root_write, root_act hroot]
        by_cases hm : m = ∅
        · rw [if_pos hm, hm]
          exact if_congr (addsNothing_put_empty h) rfl rfl
        · rw [if_neg (not_addsNothing_put P (k :: p) hm), if_neg hm]
      · rw [within_cons hroot] at h
        rw [child_act hput, child_put hroot, child_write, child_act hroot, child_act hroot]
        split_ifs with hk
        · rw [hk]
          exact ih h (L.child k)
        · rfl

/-- A write on another branch. -/
theorem within_put_of_apart (h : Apart p q) (P : Patch κ β) (m : LeafTree κ β) :
    (P.put p m).within q = P.within q := by
  induction p generalizing q P with
  | nil => exact absurd h (not_apart_nil q)
  | cons k p ih =>
      cases q with
      | nil => exact absurd h (not_apart_nil_right (k :: p))
      | cons k' q =>
          cases hroot : P.root with
          | some v =>
              rw [put_of_root hroot, within_single, within_of_root hroot, sub_write_of_apart h]
          | none =>
              rw [within_cons (root_put hroot ..), child_put hroot, within_cons hroot]
              split_ifs with hk
              · subst hk
                exact ih h.of_cons (P.child k')
              · rfl

/-- A full patch stays full when a tree with leaves is put. -/
theorem Full.put (h : P.Full) (p : List κ) (hm : m ≠ ∅) : (P.put p m).Full := by
  induction p generalizing P with
  | nil =>
      rw [put_nil]
      exact full_single hm
  | cons k p ih =>
      cases hroot : P.root with
      | some v =>
          rw [put_of_root hroot]
          exact full_single (write_ne_empty v (k :: p) hm)
      | none =>
          intro q n hq
          cases q with
          | nil => exact nomatch (root_put hroot k p m).symm.trans hq
          | cons k' q =>
              change ((P.put (k :: p) m).child k').leaf q = some n at hq
              rw [child_put hroot] at hq
              split_ifs at hq with hk
              · exact ih (h.child k) q n hq
              · exact h (k' :: q) n hq

/-- **A change of the tree below a patch** shows through where the patch does not put
anything in its place. -/
theorem act_write (hfull : P.Full) (hroot : (P.within p).root = none) (L m : LeafTree κ β) :
    P.act (L.write p m) = (P.act L).write p ((P.within p).act m) := by
  induction p generalizing P L with
  | nil => rw [write_nil, within_nil, write_nil]
  | cons k p ih =>
      cases hP : P.root with
      | some v =>
          rw [within_of_root hP] at hroot
          exact nomatch hroot
      | none =>
          rw [within_cons hP] at hroot ⊢
          refine ext_child ?_ fun k' => ?_
          · rw [root_act hP, root_write, root_write, root_act hP]
            by_cases hnothing : P.AddsNothing
            · obtain rfl := hfull.eq_empty hnothing
              rw [if_pos hnothing, if_pos hnothing, child_empty, within_empty, act_empty]
            · rw [if_neg hnothing, if_neg hnothing, ite_self]
          · rw [child_act hP, child_write, child_write, child_act hP, child_act hP]
            split_ifs with hk
            · rw [hk]
              exact ih (hfull.child k) hroot (L.child k)
            · rfl

/-- **A change of the tree that the patch covers** does not show. -/
theorem act_write_of_covered (hP : P.root.isSome = true ∨ P.Full)
    (hroot : (P.within p).root.isSome = true) (L m : LeafTree κ β) :
    P.act (L.write p m) = P.act L := by
  induction p generalizing P L with
  | nil =>
      rw [within_nil] at hroot
      obtain ⟨v, hv⟩ := Option.isSome_iff_exists.1 hroot
      rw [act_of_root hv, act_of_root hv]
  | cons k p ih =>
      cases hv : P.root with
      | some v => rw [act_of_root hv, act_of_root hv]
      | none =>
          rw [hv] at hP
          have hfull : P.Full := hP.resolve_left Bool.false_ne_true
          refine ext_child ?_ fun k' => ?_
          · have hadds : ¬ P.AddsNothing := fun hnothing => by
              obtain rfl := hfull.eq_empty hnothing
              rw [within_empty, root_empty] at hroot
              exact Bool.false_ne_true hroot
            rw [root_act hv, root_act hv, if_neg hadds, if_neg hadds]
          · rw [within_cons hv] at hroot
            rw [child_act hv, child_act hv, child_write]
            split_ifs with hk
            · rw [hk]
              exact ih (Or.inr (hfull.child k)) hroot (L.child k)
            · rfl

/-- **Putting back what the tree has at a path** undoes a write there, with a patch on top that
does not cover the path. -/
theorem act_write_undo (hfull : P.Full) (hroot : (P.within p).root = none)
    (hL : L.Clear p (L.sub p)) (m : LeafTree κ β) :
    (P.act (L.write p m)).write p ((P.within p).act (L.sub p)) = P.act L := by
  rw [act_write hfull hroot, ← sub_act, write_write (hL.act hfull hroot), write_sub_self]

/-! ### A patch moved down -/

/-- The patch that puts `P` in at a path. -/
def nest : List κ → Patch κ β → Patch κ β
  | [], P => P
  | k :: p, P => node (Function.update (fun _ => ∅) k (nest p P))

/-- A patch moved down, seen from the first name. -/
theorem child_nest_cons (k k' : κ) (p : List κ) (P : Patch κ β) :
    (nest (k :: p) P).child k' = if k' = k then nest p P else ∅ := by
  rw [nest, child_node, Function.update_apply]

/-- Nothing moved down is nothing. -/
@[simp] theorem nest_empty (p : List κ) : nest p (∅ : Patch κ β) = ∅ := by
  induction p with
  | nil => rw [nest]
  | cons k p ih =>
      refine ext_child rfl fun k' => ?_
      rw [child_nest_cons, ih, ite_self]
      rfl

/-- A single tree moved down is put there. -/
theorem nest_single (p : List κ) (m : LeafTree κ β) :
    nest p (single m) = (∅ : Patch κ β).put p m := by
  induction p with
  | nil => rw [nest, put_nil]
  | cons k p ih =>
      refine ext_child (root_put rfl k p m).symm fun k' => ?_
      rw [child_nest_cons, child_put rfl, ih]
      rfl

/-- A patch moved down adds what it added. -/
theorem addsNothing_nest (p : List κ) : (nest p P).AddsNothing ↔ P.AddsNothing := by
  induction p with
  | nil => rw [nest]
  | cons k p ih =>
      rw [addsNothing_iff rfl]
      constructor
      · intro h
        have hk := h k
        rwa [child_nest_cons, if_pos rfl, ih] at hk
      · intro h k'
        rw [child_nest_cons]
        split_ifs
        · exact ih.2 h
        · exact addsNothing_empty

/-- **A patch further down** is its effect there, written. -/
theorem act_nest (p : List κ) (P : Patch κ β) (L : LeafTree κ β) :
    (nest p P).act L = L.write p (P.act (L.sub p)) := by
  induction p generalizing L with
  | nil => rw [nest, write_nil, sub_nil]
  | cons k p ih =>
      have hroot : (nest (k :: p) P).root = none := rfl
      refine ext_child ?_ fun k' => ?_
      · rw [root_act hroot, root_write]
        by_cases hP : P.AddsNothing
        · rw [if_pos ((addsNothing_nest _).2 hP)]
          split_ifs with hm
          · rfl
          · -- below a leaf there is nothing, so nothing would be written
            by_contra hL
            have hleaf : L.root.isSome = true := Option.ne_none_iff_isSome.1 hL
            refine hm ?_
            rw [sub_cons, child_of_root hleaf, sub_empty, act_empty_eq_empty hP]
        · have hm : ¬ P.act (L.sub (k :: p)) = ∅ := fun hm => hP (addsNothing_of_act_eq_empty hm)
          rw [if_neg fun h => hP ((addsNothing_nest _).1 h), if_neg hm]
      · rw [child_act hroot, child_nest_cons, child_write, sub_cons]
        split_ifs with hk
        · rw [hk, ih]
        · exact act_empty (L.child k')

/-- A patch of one write is the write, clear or not. -/
theorem act_put_empty (L : LeafTree κ β) (p : List κ) (m : LeafTree κ β) :
    ((∅ : Patch κ β).put p m).act L = L.write p m := by
  rw [← nest_single, act_nest, act_single]

/-- What a patch with one more branch adds, further down. -/
theorem addsNothing_nest_update {f : κ → Patch κ β} (hf : f k = ∅) (p : List κ) (T : Patch κ β) :
    (nest p (node (Function.update f k T))).AddsNothing ↔
      (nest p (node f)).AddsNothing ∧ (nest (p ++ [k]) T).AddsNothing := by
  rw [addsNothing_nest, addsNothing_nest, addsNothing_nest, addsNothing_iff rfl,
    addsNothing_iff rfl]
  simp only [child_node]
  constructor
  · intro h
    refine ⟨fun k' => ?_, by simpa using h k⟩
    by_cases hk : k' = k
    · rw [hk, hf]
      exact addsNothing_empty
    · simpa [hk] using h k'
  · rintro ⟨h, hT⟩ k'
    by_cases hk : k' = k
    · simpa [hk] using hT
    · simpa [hk] using h k'

/-- A patch of branches puts nothing at the root, wherever it is moved. -/
theorem root_nest_node (p : List κ) (f : κ → Patch κ β) : (nest p (node f)).root = none := by
  cases p <;> rfl

/-- A patch moved down by a name and more puts nothing at the root. -/
theorem root_nest_append_singleton (p : List κ) (k : κ) (T : Patch κ β) :
    (nest (p ++ [k]) T).root = none := by
  cases p <;> rfl

open Classical in
/-- The data at the root stays as long as nothing is added on any of the branches. -/
theorem root_act_nest_update {f : κ → Patch κ β} (hf : f k = ∅) (p : List κ) (T : Patch κ β)
    (L : LeafTree κ β) :
    ((nest p (node f)).act ((nest (p ++ [k]) T).act L)).root =
      ((nest p (node (Function.update f k T))).act L).root := by
  rw [root_act (root_nest_node p f), root_act (root_nest_append_singleton p k T),
    root_act (root_nest_node p _), ← ite_and]
  exact if_congr (addsNothing_nest_update hf p T).symm rfl rfl

/-- **Patches on different branches can be laid one after the other.** -/
theorem act_nest_update {f : κ → Patch κ β} (hf : f k = ∅) (p : List κ) (T : Patch κ β)
    (L : LeafTree κ β) :
    (nest p (node f)).act ((nest (p ++ [k]) T).act L) =
      (nest p (node (Function.update f k T))).act L := by
  induction p generalizing L with
  | nil =>
      refine ext_child (root_act_nest_update hf [] T L) fun k' => ?_
      rw [child_act (root_nest_node [] f), child_act (root_nest_append_singleton [] k T),
        child_act (root_nest_node [] _), List.nil_append, child_nest_cons]
      simp only [nest, child_node, Function.update_apply]
      split_ifs with hk
      · rw [hk, hf, act_empty]
      · rw [act_empty]
  | cons j p ih =>
      refine ext_child (root_act_nest_update hf (j :: p) T L) fun k' => ?_
      rw [child_act (root_nest_node (j :: p) f),
        child_act (root_nest_append_singleton (j :: p) k T),
        child_act (root_nest_node (j :: p) _), List.cons_append, child_nest_cons,
        child_nest_cons, child_nest_cons]
      split_ifs with hk
      · exact ih (L.child k')
      · rw [act_empty, act_empty]

/-! ### Taking writes out -/

/-- The patch without what it puts at a path or below. -/
def erase : Patch κ β → List κ → Patch κ β
  | _, [] => ∅
  | P, k :: p =>
      match P.root with
      | some _ => P
      | none => node (Function.update P.child k (erase (P.child k) p))

/-- Erasing at the root leaves nothing. -/
@[simp] theorem erase_nil (P : Patch κ β) : P.erase [] = ∅ := by rw [erase]

/-- Below what is put at the root nothing is erased. -/
theorem erase_of_root (h : P.root = some v) (k : κ) (p : List κ) : P.erase (k :: p) = P := by
  rw [erase, h]

/-- Erasing puts nothing at the root. -/
theorem root_erase (h : P.root = none) (p : List κ) : (P.erase p).root = none := by
  cases p with
  | nil => rw [erase_nil, root_empty]
  | cons k p =>
      rw [erase, h]
      rfl

/-- Erasing below a name changes what is below that name. -/
theorem child_erase (h : P.root = none) (k k' : κ) (p : List κ) :
    (P.erase (k :: p)).child k' = if k' = k then (P.child k).erase p else P.child k' := by
  rw [erase, h]
  exact (child_node _ k').trans (Function.update_apply ..)

/-- There is nothing to erase in the empty patch. -/
@[simp] theorem erase_empty (p : List κ) : (∅ : Patch κ β).erase p = ∅ := by
  induction p with
  | nil => exact erase_nil ∅
  | cons k p ih =>
      refine ext_child (root_erase rfl (k :: p)) fun k' => ?_
      rw [child_erase rfl, child_empty, ih, child_empty, ite_self]

/-- A write on another branch can be added before or after. -/
theorem erase_put_of_apart (h : Apart p q) (P : Patch κ β) (m : LeafTree κ β) :
    (P.put q m).erase p = (P.erase p).put q m := by
  induction p generalizing q P with
  | nil => exact absurd h (not_apart_nil q)
  | cons k p ih =>
      cases q with
      | nil => exact absurd h (not_apart_nil_right (k :: p))
      | cons j q =>
          cases hroot : P.root with
          | some v =>
              rw [put_of_root hroot, erase_of_root (root_single _), erase_of_root hroot,
                put_of_root hroot]
          | none =>
              have hput := root_put hroot j q m
              have herase := root_erase hroot (k :: p)
              refine ext_child ((root_erase hput _).trans (root_put herase ..).symm) fun k' => ?_
              rw [child_erase hput, child_put hroot, child_put hroot, child_put herase,
                child_erase hroot, child_erase hroot]
              by_cases hkj : k = j
              · subst hkj
                by_cases hk' : k' = k
                · simp only [hk', if_true]
                  exact ih h.of_cons (P.child k)
                · simp only [hk', if_false]
              · rw [if_neg hkj, if_neg (Ne.symm hkj)]
                split_ifs with h₁ h₂
                · exact absurd (h₁.symm.trans h₂) hkj
                · rfl
                · rfl
                · rfl

/-- Two patches that put the same everywhere but at a path and below, and nothing above it. -/
def AgreeOff : List κ → Patch κ β → Patch κ β → Prop
  | [], _, _ => True
  | k :: p, P, Q =>
      P.root = none ∧ Q.root = none ∧ (∀ k', k' ≠ k → P.child k' = Q.child k') ∧
        AgreeOff p (P.child k) (Q.child k)

/-- A write does not matter away from its path, if nothing is put above. -/
theorem agreeOff_put (h : P.NoLeafAbove p) (m : LeafTree κ β) : AgreeOff p (P.put p m) P := by
  induction p generalizing P with
  | nil => trivial
  | cons k p ih =>
      refine ⟨root_put h.1 k p m, h.1, fun k' hk' => ?_, ?_⟩
      · rw [child_put h.1, if_neg hk']
      · rw [child_put h.1, if_pos rfl]
        exact ih h.2

/-- Patches that agree off a path still do after the same write, unless it is above the path. -/
theorem AgreeOff.put (h : AgreeOff p P Q) (hq : ¬ q <+: p) (m : LeafTree κ β) :
    AgreeOff p (P.put q m) (Q.put q m) := by
  induction p generalizing q P Q with
  | nil => trivial
  | cons k p ih =>
      obtain ⟨hP, hQ, hoff, hon⟩ := h
      cases q with
      | nil => exact absurd List.nil_prefix hq
      | cons j q =>
          refine ⟨root_put hP j q m, root_put hQ j q m, fun k' hk' => ?_, ?_⟩
          · rw [child_put hP, child_put hQ, hoff k' hk']
            split_ifs with hj
            · rw [← hj, hoff k' hk']
            · rfl
          · rw [child_put hP, child_put hQ]
            split_ifs with hj
            · subst hj
              exact ih hon fun h => hq (List.cons_prefix_cons.2 ⟨rfl, h⟩)
            · exact hon

/-- **A write above hides the difference.** -/
theorem AgreeOff.put_eq (h : AgreeOff p P Q) (hq : q <+: p) (m : LeafTree κ β) :
    P.put q m = Q.put q m := by
  induction q generalizing p P Q with
  | nil => rw [put_nil, put_nil]
  | cons j q ih =>
      obtain ⟨r, rfl⟩ := hq
      obtain ⟨hP, hQ, hoff, hon⟩ := h
      refine ext_child ((root_put hP j q m).trans (root_put hQ j q m).symm) fun k' => ?_
      rw [child_put hP, child_put hQ]
      split_ifs with hk'
      · exact ih hon (List.prefix_append q r)
      · exact hoff k' hk'

/-- Patches that agree off a path are the same once it is erased. -/
theorem AgreeOff.erase_eq (h : AgreeOff p P Q) : P.erase p = Q.erase p := by
  induction p generalizing P Q with
  | nil => rw [erase_nil, erase_nil]
  | cons k p ih =>
      obtain ⟨hP, hQ, hoff, hon⟩ := h
      refine ext_child ((root_erase hP _).trans (root_erase hQ _).symm) fun k' => ?_
      rw [child_erase hP, child_erase hQ]
      split_ifs with hk'
      · exact ih hon
      · exact hoff k' hk'

/-! ### The writes of a patch -/

/-- The patch with writes added, one after the other. -/
noncomputable def putAll (P : Patch κ β) (ws : List (List κ × LeafTree κ β)) : Patch κ β :=
  ws.foldl (fun P w => P.put w.1 w.2) P

variable {ws vs : List (List κ × LeafTree κ β)}

/-- No write at all. -/
@[simp] theorem putAll_nil (P : Patch κ β) : P.putAll [] = P := rfl

/-- The first write comes first. -/
@[simp] theorem putAll_cons (P : Patch κ β) (w : List κ × LeafTree κ β)
    (ws : List (List κ × LeafTree κ β)) : P.putAll (w :: ws) = (P.put w.1 w.2).putAll ws := rfl

/-- The writes of two lists. -/
theorem putAll_append (P : Patch κ β) (ws vs : List (List κ × LeafTree κ β)) :
    P.putAll (ws ++ vs) = (P.putAll ws).putAll vs := List.foldl_append

/-- **Laying a patch over a tree makes the writes the patch was built from.** -/
theorem act_putAll (h : ∀ w ∈ ws, L.Clear w.1 w.2) :
    (P.putAll ws).act L = ws.foldl (fun M w => M.write w.1 w.2) (P.act L) := by
  induction ws generalizing P with
  | nil => rfl
  | cons w ws ih =>
      rw [putAll_cons, ih fun v hv => h v (List.mem_cons_of_mem w hv),
        act_put P (h w List.mem_cons_self), List.foldl_cons]

/-- The same for writes that lie apart, clear or not. -/
theorem act_putAll_of_apart (hws : ws.Pairwise fun u w => Apart u.1 w.1)
    (hP : ∀ w ∈ ws, P.within w.1 = ∅) (L : LeafTree κ β) :
    (P.putAll ws).act L = ws.foldl (fun M w => M.write w.1 w.2) (P.act L) := by
  induction ws generalizing P with
  | nil => rfl
  | cons w ws ih =>
      obtain ⟨hw, hws⟩ := List.pairwise_cons.1 hws
      have hput : ∀ v ∈ ws, (P.put w.1 w.2).within v.1 = ∅ := fun v hv => by
        rw [within_put_of_apart (hw v hv)]
        exact hP v (List.mem_cons_of_mem w hv)
      rw [putAll_cons, ih hws hput, act_put_of_within (hP w List.mem_cons_self), List.foldl_cons]

/-- A full patch stays full under writes of trees with leaves. -/
theorem Full.putAll (h : P.Full) (hws : ∀ w ∈ ws, w.2 ≠ ∅) : (P.putAll ws).Full := by
  induction ws generalizing P with
  | nil => exact h
  | cons w ws ih =>
      exact ih (h.put w.1 (hws w List.mem_cons_self)) fun v hv => hws v (List.mem_cons_of_mem w hv)

/-- A write puts nothing above a path unless it is above the path. -/
theorem NoLeafAbove.put (h : P.NoLeafAbove p) (hq : q <+: p → q = p) (m : LeafTree κ β) :
    (P.put q m).NoLeafAbove p := by
  induction p generalizing q P with
  | nil => trivial
  | cons k p ih =>
      cases q with
      | nil => exact nomatch hq List.nil_prefix
      | cons j q =>
          refine ⟨root_put h.1 j q m, ?_⟩
          rw [child_put h.1]
          split_ifs with hj
          · subst hj
            exact ih h.2 fun h => (List.cons.inj (hq (List.cons_prefix_cons.2 ⟨rfl, h⟩))).2
          · exact h.2

/-- The same for many writes. -/
theorem NoLeafAbove.putAll (h : P.NoLeafAbove p) (hws : ∀ w ∈ ws, w.1 <+: p → w.1 = p) :
    (P.putAll ws).NoLeafAbove p := by
  induction ws generalizing P with
  | nil => exact h
  | cons w ws ih =>
      exact ih (h.put (hws w List.mem_cons_self) w.2) fun v hv =>
        hws v (List.mem_cons_of_mem w hv)

/-- Writes on other branches do not matter to what is erased. -/
theorem erase_putAll (h : ∀ w ∈ ws, Apart p w.1) :
    (P.putAll ws).erase p = (P.erase p).putAll ws := by
  induction ws generalizing P with
  | nil => rfl
  | cons w ws ih =>
      rw [putAll_cons, ih fun v hv => h v (List.mem_cons_of_mem w hv),
        erase_put_of_apart (h w List.mem_cons_self), putAll_cons]

/-- **A write that meets no other write can be taken out again.** -/
theorem erase_putAll_append (h : ∀ w ∈ ws ++ vs, Apart p w.1) :
    ((∅ : Patch κ β).putAll (ws ++ (p, m) :: vs)).erase p = (∅ : Patch κ β).putAll (ws ++ vs) := by
  have hclear : ((∅ : Patch κ β).putAll ws).NoLeafAbove p :=
    (noLeafAbove_empty p).putAll fun w hw hp =>
      absurd hp (h w (List.mem_append_left vs hw)).2
  rw [putAll_append, putAll_cons, erase_putAll fun v hv => h v (List.mem_append_right ws hv),
    (agreeOff_put hclear m).erase_eq, erase_putAll fun w hw => h w (List.mem_append_left vs hw),
    erase_empty, putAll_append]

/-- Patches that agree off a path are the same after a write at the path or above. -/
theorem AgreeOff.putAll_eq (h : AgreeOff p P Q) (hvs : ∃ v ∈ vs, v.1 <+: p) :
    P.putAll vs = Q.putAll vs := by
  induction vs generalizing P Q with
  | nil => exact absurd hvs (by simp)
  | cons v vs ih =>
      rw [putAll_cons, putAll_cons]
      by_cases hv : v.1 <+: p
      · rw [h.put_eq hv]
      · refine ih (h.put hv v.2) ?_
        obtain ⟨u, hu, hup⟩ := hvs
        rcases List.mem_cons.1 hu with rfl | hu
        · exact absurd hup hv
        · exact ⟨u, hu, hup⟩

/-- **A write that a later one covers** makes no difference, unless an earlier one above has
taken it in. -/
theorem putAll_append_covered (hws : ∀ w ∈ ws, w.1 <+: p → w.1 = p)
    (hvs : ∃ v ∈ vs, v.1 <+: p) :
    (∅ : Patch κ β).putAll (ws ++ (p, m) :: vs) = (∅ : Patch κ β).putAll (ws ++ vs) := by
  rw [putAll_append, putAll_append, putAll_cons]
  exact (agreeOff_put ((noLeafAbove_empty p).putAll hws) m).putAll_eq hvs

/-- The same for several writes at once. -/
theorem putAll_append_covered_all {us : List (List κ × LeafTree κ β)}
    (hws : ∀ u ∈ us, ∀ w ∈ ws, w.1 <+: u.1 → w.1 = u.1)
    (hvs : ∀ u ∈ us, ∃ v ∈ vs, v.1 <+: u.1) :
    (∅ : Patch κ β).putAll (ws ++ (us ++ vs)) = (∅ : Patch κ β).putAll (ws ++ vs) := by
  induction us with
  | nil => rfl
  | cons u us ih =>
      obtain ⟨v, hv, hvu⟩ := hvs u List.mem_cons_self
      rw [List.cons_append, putAll_append_covered (hws u List.mem_cons_self)
        ⟨v, List.mem_append_right us hv, hvu⟩]
      exact ih (fun u' hu' => hws u' (List.mem_cons_of_mem u hu'))
        fun u' hu' => hvs u' (List.mem_cons_of_mem u hu')

/-- Writes that meet no other write can be taken out again, one after the other. -/
theorem foldl_erase_putAll {us : List (List κ × LeafTree κ β)}
    (hus : us.Pairwise fun u u' => Apart u.1 u'.1)
    (h : ∀ u ∈ us, ∀ w ∈ ws ++ vs, Apart u.1 w.1) :
    us.foldl (fun P u => P.erase u.1) ((∅ : Patch κ β).putAll (ws ++ (us ++ vs))) =
      (∅ : Patch κ β).putAll (ws ++ vs) := by
  induction us with
  | nil => rfl
  | cons u us ih =>
      obtain ⟨hhead, htail⟩ := List.pairwise_cons.1 hus
      have hu : ∀ w ∈ ws ++ (us ++ vs), Apart u.1 w.1 := by
        intro w hw
        rcases List.mem_append.1 hw with hw | hw
        · exact h u List.mem_cons_self w (List.mem_append_left vs hw)
        · rcases List.mem_append.1 hw with hw | hw
          · exact hhead w hw
          · exact h u List.mem_cons_self w (List.mem_append_right ws hw)
      rw [List.foldl_cons, List.cons_append, erase_putAll_append hu]
      exact ih htail fun u' hu' => h u' (List.mem_cons_of_mem u hu')

/-! ### Writes seen from a path -/

/-- The patch with a write that is seen there. -/
noncomputable def putSeen (P : Patch κ β) (w : Option (List κ × LeafTree κ β)) : Patch κ β :=
  match w with
  | some (p, m) => P.put p m
  | none => P

/-- **What a patch does at a path** once a write has been added. -/
theorem within_put (P : Patch κ β) (p q : List κ) (m : LeafTree κ β) :
    (P.put q m).within p = (P.within p).putSeen (seenFrom p q m) := by
  induction p generalizing q P m with
  | nil => rw [within_nil, within_nil, seenFrom, putSeen]
  | cons k p ih =>
      cases q with
      | nil => rw [put_nil, within_single, seenFrom_nil, putSeen, put_nil]
      | cons j q =>
          rw [seenFrom]
          cases hroot : P.root with
          | some v =>
              rw [put_of_root hroot, within_single, within_of_root hroot, sub_write, seenFrom]
              split_ifs with hj
              · cases seenFrom p q m with
                | none => rfl
                | some w => exact (put_single _ _ _).symm
              · rfl
          | none =>
              rw [within_cons (root_put hroot ..), child_put hroot, within_cons hroot]
              by_cases hj : j = k
              · rw [if_pos hj.symm, if_pos hj, ih, hj]
              · rw [if_neg (Ne.symm hj), if_neg hj, putSeen]

/-- **What a patch does at a path** once some writes have been added. -/
theorem within_putAll (P : Patch κ β) (p : List κ) (ws : List (List κ × LeafTree κ β)) :
    (P.putAll ws).within p =
      (P.within p).putAll (ws.filterMap fun w => seenFrom p w.1 w.2) := by
  induction ws generalizing P with
  | nil => rfl
  | cons w ws ih =>
      rw [putAll_cons, ih, within_put, List.filterMap_cons]
      cases seenFrom p w.1 w.2 with
      | none => rfl
      | some u => rfl

/-- What is put in later leaves patches the same at a path if they are so before. -/
theorem within_putAll_congr (h : P.within p = Q.within p) (ws : List (List κ × LeafTree κ β)) :
    (P.putAll ws).within p = (Q.putAll ws).within p := by
  induction ws generalizing P Q with
  | nil => exact h
  | cons w ws ih => exact ih (by rw [within_put, within_put, h])

/-- At a path something is put by the last write or was there before. -/
theorem isSome_root_within_put (P : Patch κ β) (p q : List κ) (m : LeafTree κ β) :
    ((P.put q m).within p).root.isSome = true ↔
      (P.within p).root.isSome = true ∨ q <+: p := by
  induction p generalizing q P with
  | nil =>
      rw [within_nil, within_nil, List.prefix_nil]
      cases q with
      | nil => simp
      | cons j q =>
          cases hroot : P.root with
          | some v => simp [put_of_root hroot]
          | none => simp [root_put hroot]
  | cons k p ih =>
      cases q with
      | nil => simp
      | cons j q =>
          cases hroot : P.root with
          | some v => simp [put_of_root hroot, within_of_root hroot]
          | none =>
              rw [within_cons (root_put hroot ..), child_put hroot, within_cons hroot,
                List.cons_prefix_cons]
              by_cases hj : j = k
              · rw [if_pos hj.symm, ih, hj, eq_self_iff_true, true_and]
              · rw [if_neg (Ne.symm hj)]
                simp [hj]

/-- **A patch covers a path** where one of its writes does. -/
theorem isSome_root_within_putAll (P : Patch κ β) (p : List κ)
    (ws : List (List κ × LeafTree κ β)) :
    ((P.putAll ws).within p).root.isSome = true ↔
      (P.within p).root.isSome = true ∨ ∃ w ∈ ws, w.1 <+: p := by
  induction ws generalizing P with
  | nil => simp
  | cons w ws ih =>
      rw [putAll_cons, ih, isSome_root_within_put, List.exists_mem_cons_iff, or_assoc]

/-- **The first of the writes can be made before the patch of the others is laid on**, seen
from any path. -/
theorem act_within_putAll_cons {w : List κ × LeafTree κ β} (hws : ∀ u ∈ w :: ws, u.2 ≠ ∅)
    (p : List κ) (L : LeafTree κ β) :
    (((∅ : Patch κ β).putAll (w :: ws)).within p).act L =
      (((∅ : Patch κ β).putAll ws).within p).act (L.writeSeen (seenFrom p w.1 w.2)) := by
  -- `L` is what is at the path in a tree that has nothing else
  have hL : ((∅ : LeafTree κ β).write p L).sub p = L := sub_write_self ∅ p L
  have hclear : ∀ (M : LeafTree κ β) (u : List κ × LeafTree κ β), u ∈ w :: ws →
      M.Clear u.1 u.2 := fun M u hu hempty => absurd hempty (hws u hu)
  rw [← congrArg (fun M => M.writeSeen (seenFrom p w.1 w.2)) hL]
  rw [← sub_write, ← sub_act, act_putAll fun u hu => hclear _ u (List.mem_cons_of_mem w hu),
    act_empty, ← List.foldl_cons, ← act_empty (LeafTree.write ∅ p L)]
  rw [← act_putAll (hclear _), sub_act, hL]

/-- A first write that is not seen at a path might as well not be there. -/
theorem within_putAll_cons_of_not_seen {w : List κ × LeafTree κ β}
    (hw : seenFrom p w.1 w.2 = none) (ws : List (List κ × LeafTree κ β)) :
    (P.putAll (w :: ws)).within p = (P.putAll ws).within p :=
  within_putAll_congr (by rw [within_put, hw, putSeen]) ws

/-! ### A patch of children -/

/-- Writes below a name put nothing at the root. -/
theorem root_putAll_map_cons (hroot : P.root = none) (k : κ) (ws : List (List κ × LeafTree κ β)) :
    (P.putAll (ws.map fun w => (k :: w.1, w.2))).root = none := by
  induction ws generalizing P with
  | nil => exact hroot
  | cons w ws ih => exact ih (root_put hroot k w.1 w.2)

/-- Writes below a name, seen from that name. -/
theorem child_putAll_map_cons (hroot : P.root = none) (k k' : κ)
    (ws : List (List κ × LeafTree κ β)) :
    (P.putAll (ws.map fun w => (k :: w.1, w.2))).child k' =
      if k' = k then (P.child k).putAll ws else P.child k' := by
  induction ws generalizing P with
  | nil => split_ifs with hk <;> simp [hk]
  | cons w ws ih =>
      rw [List.map_cons, putAll_cons, ih (root_put hroot k w.1 w.2), child_put hroot,
        child_put hroot, if_pos rfl, putAll_cons]
      split_ifs <;> rfl

/-- A write in a patch that is moved down. -/
theorem nest_put (P : Patch κ β) (p q : List κ) (m : LeafTree κ β) :
    (nest p P).put (p ++ q) m = nest p (P.put q m) := by
  induction p with
  | nil => rw [nest, nest, List.nil_append]
  | cons k p ih =>
      have hroot : (nest (k :: p) P).root = none := rfl
      refine ext_child (root_put hroot k (p ++ q) m) fun k' => ?_
      rw [List.cons_append, child_put hroot, child_nest_cons, child_nest_cons, child_nest_cons,
        if_pos rfl, ih]
      split_ifs <;> rfl

/-- Writes in a patch that is moved down. -/
theorem nest_putAll (P : Patch κ β) (p : List κ) (ws : List (List κ × LeafTree κ β)) :
    (nest p P).putAll (ws.map fun w => (p ++ w.1, w.2)) = nest p (P.putAll ws) := by
  induction ws generalizing P with
  | nil => rfl
  | cons w ws ih => rw [List.map_cons, putAll_cons, nest_put, ih, putAll_cons]

/-- What is written under several names, one after the other. -/
theorem child_foldl_write {f : κ → LeafTree κ β} {ks : List κ} (hks : ks.Nodup)
    (L : LeafTree κ β) (k : κ) :
    (ks.foldl (fun M j => M.write [j] (f j)) L).child k = if k ∈ ks then f k else L.child k := by
  induction ks generalizing L with
  | nil => rfl
  | cons j ks ih =>
      obtain ⟨hj, hks⟩ := List.nodup_cons.1 hks
      rw [List.foldl_cons, ih hks, child_write, write_nil]
      by_cases hkj : k = j
      · rw [hkj, if_neg hj, if_pos rfl, if_pos List.mem_cons_self]
      · rw [if_neg hkj]
        exact if_congr (by rw [List.mem_cons, or_iff_right hkj]) rfl rfl

open Classical in
/-- The leaf at the root stays if only empty trees are written below it. -/
theorem root_foldl_write (f : κ → LeafTree κ β) (ks : List κ) (L : LeafTree κ β) :
    (ks.foldl (fun M j => M.write [j] (f j)) L).root =
      if ∀ k ∈ ks, f k = ∅ then L.root else none := by
  induction ks generalizing L with
  | nil => rw [List.foldl_nil, if_pos fun _ hk => absurd hk List.not_mem_nil]
  | cons j ks ih =>
      rw [List.foldl_cons, ih, root_write]
      by_cases hj : f j = ∅
      · rw [if_pos hj]
        exact if_congr (by simp [hj]) rfl rfl
      · rw [if_neg hj, ite_self, if_neg fun h => hj (h j List.mem_cons_self)]

/-- **A patch can be laid child by child**, from what the tree held before. -/
theorem foldl_write_child (hroot : P.root = none) {ks : List κ} (hks : ks.Nodup)
    (hall : ∀ k, k ∉ ks → P.child k = ∅) (L : LeafTree κ β) :
    ks.foldl (fun M k => M.write [k] ((P.child k).act (L.child k))) L = P.act L := by
  classical
  refine ext_child ?_ fun k => ?_
  · rw [root_foldl_write, root_act hroot]
    cases hL : L.root with
    | none => rw [ite_self, ite_self]
    | some v =>
        refine if_congr ?_ rfl rfl
        have hchild : ∀ k, L.child k = ∅ := child_of_root (by rw [hL]; rfl)
        rw [addsNothing_iff hroot]
        refine ⟨fun h k => ?_, fun h k _ => by rw [hchild, act_empty_eq_empty (h k)]⟩
        by_cases hk : k ∈ ks
        · exact addsNothing_of_act_eq_empty (h k hk)
        · rw [hall k hk]
          exact addsNothing_empty
  · rw [child_foldl_write hks, child_act hroot]
    split_ifs with hk
    · rfl
    · rw [hall k hk, act_empty]

end Put

end LeafTree
