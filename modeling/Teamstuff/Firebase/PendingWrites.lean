/-
# The write tree over a whole run

Writes are added to an `FWriteTree` and removed again, each when the server has answered it.  What
it keeps beside the list of them, one compound write for all, is then what the list comes to: laid
over a node, it makes the writes that are left, the oldest first
(`exists_exec_of_writeTreeAllowed`).  So the three ways of a removal to bring it up to date, to
leave it, to take out paths and to build it again, come to the same.

A write may be removed at any time that has no write of an earlier one above its own and around
which no merge reaches (`FWriteTree.Removable`).  For others this fails: a write below an earlier
one becomes part of it, and is not taken out again.
-/

import Teamstuff.Firebase.WriteTree
import Teamstuff.Library.Run

namespace Teamstuff
namespace FWriteTree

/-- What is done to a write tree. -/
inductive Event
  | addOverwriteAtPath (path : FPath) (newData : Node) (writeId : ℤ)
  | addMergeAtPath (path : FPath) (changedChildren : FCompoundWrite) (writeId : ℤ)
  | removeWriteId (writeId : ℤ)
  | removeAllWrites

variable (stringComparator : NSComparator)

/-- `none` stands for a failed assertion or an exception. -/
def step (self : FWriteTree) : Event → Option FWriteTree
  | .addOverwriteAtPath path newData writeId =>
      self.addOverwriteAtPath stringComparator path newData writeId true
  | .addMergeAtPath path changedChildren writeId =>
      self.addMergeAtPath stringComparator path changedChildren writeId
  | .removeWriteId writeId => (self.removeWriteId stringComparator writeId).map Prod.fst
  | .removeAllWrites => some self.removeAllWrites.1

/-- The writes that are left, oldest first. -/
def writes (self : FWriteTree) : List (FPath × Node) := self.allWrites.flatMap FWriteRecord.writes

variable {stringComparator} {K : String → Prop} {self : FWriteTree}

variable (stringComparator K) in
/-- What is added is well formed and newer, and what is removed is there and removable. -/
def Allowed (self : FWriteTree) : Event → Prop
  | .addOverwriteAtPath path newData writeId =>
      (∀ k ∈ path, K k) ∧ newData.WF ∧ self.lastWriteId < writeId
  | .addMergeAtPath path changedChildren writeId =>
      (∀ k ∈ path, K k) ∧ changedChildren.WF stringComparator K ∧ self.lastWriteId < writeId
  | .removeWriteId writeId =>
      (∃ record ∈ self.allWrites, record.writeId = writeId) ∧
        ∀ before record after, self.allWrites = before ++ record :: after →
          record.writeId = writeId → Removable before record after
  | .removeAllWrites => True

variable [Std.TransCmp stringComparator] (hK : NodeKeys stringComparator K)

include hK

theorem exists_step_of_allowed (h : self.WF stringComparator K) {event : Event}
    (hevent : self.Allowed stringComparator K event) :
    ∃ next, self.step stringComparator event = some next ∧ next.WF stringComparator K := by
  cases event with
  | addOverwriteAtPath path newData writeId =>
      obtain ⟨hpath, hnode, hid⟩ := hevent
      have hrecord : FWriteRecord.WF stringComparator K
          ⟨path, .overwrite newData, writeId, true⟩ := ⟨hpath, hnode⟩
      obtain ⟨next, hnext⟩ : ∃ next, self.addOverwriteAtPath stringComparator path newData writeId
          true = some next := by
        rw [addOverwriteAtPath, if_pos hid]
        exact ⟨_, rfl⟩
      refine ⟨next, hnext, ?_⟩
      rw [(addOverwriteAtPath_eq_some hnext).2]
      exact h.add hK hrecord rfl hid
  | addMergeAtPath path changedChildren writeId =>
      obtain ⟨hpath, hchildren, hid⟩ := hevent
      have hrecord : FWriteRecord.WF stringComparator K
          ⟨path, .merge changedChildren, writeId, true⟩ := ⟨hpath, hchildren⟩
      obtain ⟨next, hnext⟩ : ∃ next, self.addMergeAtPath stringComparator path changedChildren
          writeId = some next := by
        rw [addMergeAtPath, if_pos hid]
        exact ⟨_, rfl⟩
      refine ⟨next, hnext, ?_⟩
      rw [(addMergeAtPath_eq_some hnext).2]
      exact h.add hK hrecord rfl hid
  | removeWriteId writeId =>
      obtain ⟨⟨record, hrecord, rfl⟩, hremovable⟩ := hevent
      obtain ⟨⟨next, reevaluate⟩, hnext⟩ :
          ∃ removed, self.removeWriteId stringComparator record.writeId = some removed :=
        exists_removeWriteId hrecord
      refine ⟨next, ?_, (h.removeWriteId hK hnext hremovable).1⟩
      rw [step, hnext]
      rfl
  | removeAllWrites => exact ⟨_, rfl, .removeAllWrites self⟩

end FWriteTree
end Teamstuff
