import TieredStore.Proofs.Table.Finishing
import TieredStore.Proofs.Table.Unlogged

/-!
# Bookkeeping

A flush notes in the table what the tier holds of the segments and which merges it has
carried out.  Of a segment that is left only these two change, and no other segments go
than the batches of merges that were pending.  So an operation that was accepted before
is still accepted, for it neither creates nor changes such a batch.
-/

namespace TieredStore
namespace Table

/-- Only notes were made of what the tier holds and which merges it has carried out. -/
inductive Bookkept (table : Table) : Table → Prop
  | refl : Bookkept table table
  | stored {middle : Table} (before : Bookkept table middle) (id : SegmentId) (length : Nat) :
      Bookkept table (middle.setStorageLength id length)
  | finished {middle after : Table} {parent batch : SegmentId} {m : PendingMerge}
      (before : Bookkept table middle)
      (completed : middle.completeMerge? parent batch = some (m, after)) : Bookkept table after

namespace Bookkept

variable {table middle after : Table} {id : SegmentId} {s t : Segment}

theorem trans (h : table.Bookkept middle) (hafter : middle.Bookkept after) :
    table.Bookkept after := by
  induction hafter with
  | refl => exact h
  | stored _ id length ih => exact .stored ih id length
  | finished _ completed ih => exact .finished ih completed

theorem nextId_eq (h : table.Bookkept after) : after.nextId = table.nextId := by
  induction h with
  | refl => rfl
  | stored _ id length ih => exact ih
  | finished _ completed ih =>
      rcases completeMerge?_eq_some_iff.mp completed with ⟨_, _, _, rfl⟩
      exact ih

theorem kept (h : table.Bookkept after) (ht : after.get? id = some t) :
    ∃ s, table.get? id = some s ∧ s.storageLength ≤ t.storageLength ∧
      t.pending.Sublist s.pending ∧
      t = { s with storageLength := t.storageLength, pending := t.pending } := by
  induction h generalizing t with
  | refl => exact ⟨t, ht, Nat.le_refl _, List.Sublist.refl _, rfl⟩
  | stored _ other length ih =>
      rcases get?_of_get?_modify ht with ⟨t', ht', ⟨-, rfl⟩ | ⟨-, rfl⟩⟩
      · exact ih ht'
      · rcases ih ht' with ⟨s, hs, hle, hpending, heq⟩
        refine ⟨s, hs, Nat.le_trans hle (Nat.le_max_left _ _), hpending, ?_⟩
        rw [heq]
  | @finished middle after parent batch m _ completed ih =>
      rcases completeMerge?_eq_some_iff.mp completed with ⟨_, _, _, rfl⟩
      have hne : id ≠ batch := by
        intro heq
        rw [heq, get?_without_self] at ht
        cases ht
      rw [get?_without_of_ne _ hne] at ht
      rcases get?_of_get?_modify ht with ⟨t', ht', ⟨-, rfl⟩ | ⟨-, rfl⟩⟩
      · exact ih ht'
      · rcases ih ht' with ⟨s, hs, hle, hpending, heq⟩
        refine ⟨s, hs, Nat.le_trans hle (Nat.le_max_left _ _),
          List.eraseP_sublist.trans hpending, ?_⟩
        rw [heq]
        rfl

/-- A segment that is gone was the batch of a pending merge. -/
theorem gone (h : table.Bookkept after) (hs : table.get? id = some s)
    (hnone : after.get? id = none) :
    ∃ p sp m, table.get? p = some sp ∧ m ∈ sp.pending ∧ m.batch = id := by
  induction h with
  | refl =>
      rw [hs] at hnone
      cases hnone
  | @stored middle before other length ih =>
      apply ih
      by_cases hother : id = other
      · rw [hother, setStorageLength, get?_modify_self, Option.map_eq_none_iff] at hnone
        rw [hother]
        exact hnone
      · rw [setStorageLength, get?_modify_of_ne _ hother] at hnone
        exact hnone
  | @finished middle after parent batch m before completed ih =>
      rcases completeMerge?_eq_some_iff.mp completed with ⟨sp, hsp, hfind, rfl⟩
      by_cases hbatch : id = batch
      · rcases before.kept hsp with ⟨sp', hsp', -, hpending, -⟩
        have hm := hpending.subset (List.mem_of_find?_eq_some hfind)
        have heq : m.batch = batch := by simpa using List.find?_some hfind
        exact ⟨parent, sp', m, hsp', hm, heq.trans hbatch.symm⟩
      · rw [get?_without_of_ne _ hbatch] at hnone
        apply ih
        by_cases hparent : id = parent
        · rw [hparent, get?_modify_self, Option.map_eq_none_iff] at hnone
          rw [hparent]
          exact hnone
        · rw [get?_modify_of_ne _ hparent] at hnone
          exact hnone

variable {content : Contents}

theorem live (h : table.Bookkept after) (htable : table.Consistent content)
    (hs : table.get? id = some s) (hmerged : s.merged = false) :
    ∃ stored pending,
      after.get? id = some { s with storageLength := stored, pending := pending } := by
  cases ht : after.get? id with
  | none =>
      rcases h.gone hs ht with ⟨p, sp, m, hsp, hm, rfl⟩
      rcases htable.backed hsp m hm with ⟨b, hb, -, hbmerged, -⟩
      rw [hs] at hb
      cases hb
      rw [hmerged] at hbmerged
      cases hbmerged
  | some t =>
      rcases h.kept ht with ⟨s', hs', -, -, heq⟩
      rw [hs] at hs'
      cases hs'
      exact ⟨_, _, congrArg some heq⟩

theorem get?_eq_none (h : table.Bookkept after) (hnone : table.get? id = none) :
    after.get? id = none := by
  cases ht : after.get? id with
  | none => rfl
  | some t =>
      rcases h.kept ht with ⟨s, hs, -⟩
      rw [hnone] at hs
      cases hs

theorem lookup?_eq_none (h : table.Bookkept after) {name : String}
    (hfree : table.lookup? name = none) : after.lookup? name = none := by
  apply lookup?_eq_none_iff.mpr
  intro t ht
  rcases mem_list.mp ht with ⟨id, hget⟩
  rcases h.kept hget with ⟨s, hs, -, -, heq⟩
  rw [heq]
  exact lookup?_eq_none_iff.mp hfree s (mem_list.mpr ⟨id, hs⟩)

theorem fits (h : table.Bookkept after) (htable : table.Consistent content) {op : Operation}
    (hop : op.Fits table) : op.Fits after := by
  cases op with
  | append segment offset client event data =>
      rcases hop with ⟨s, hs, hwritable, hfacts⟩
      rcases h.live htable hs hwritable.merged with ⟨stored, pending, ht⟩
      exact ⟨_, ht, ⟨hwritable.merged, hwritable.sealed⟩, hfacts⟩
  | «seal» segment length =>
      rcases hop with ⟨s, hs, hwritable, hfacts⟩
      rcases h.live htable hs hwritable.merged with ⟨stored, pending, ht⟩
      exact ⟨_, ht, ⟨hwritable.merged, hwritable.sealed⟩, hfacts⟩
  | merge parent batch length offset =>
      rcases hop with ⟨s, b, hs, hb, hwritable, hmerged, hfacts⟩
      rcases h.live htable hs hwritable.merged with ⟨stored, pending, ht⟩
      rcases h.live htable hb hmerged with ⟨stored', pending', ht'⟩
      exact ⟨_, _, ht, ht', ⟨hwritable.merged, hwritable.sealed⟩, hmerged, hfacts⟩
  | checkpoint snapshot => trivial
  | create segment name => exact ⟨hop.1, h.get?_eq_none hop.2⟩
  | createBatch batch name parent =>
      rcases hop with ⟨hname, hnone, s, hs, hwritable, hparent⟩
      rcases h.live htable hs hwritable.merged with ⟨stored, pending, ht⟩
      exact ⟨hname, h.get?_eq_none hnone, _, ht, ⟨hwritable.merged, hwritable.sealed⟩, hparent⟩
  | truncate segment offset =>
      rcases hop with ⟨s, hs, hmerged, hfacts⟩
      rcases h.live htable hs hmerged with ⟨stored, pending, ht⟩
      exact ⟨_, ht, hmerged, hfacts⟩

theorem apply_eq_ok (h : table.Bookkept after) (htable : table.Consistent content) {op : Operation}
    {u : Unit} (hvalidate : table.validate op = .ok u) :
    after.apply op = .ok (after.perform op) := by
  rcases validate_eq_ok_iff.mp hvalidate with ⟨hfits, hfree⟩
  refine apply_eq_ok_iff.mpr ⟨h.fits htable hfits, ?_, rfl⟩
  intro name hname
  exact h.lookup?_eq_none (hfree name hname)

end Bookkept
end Table
end TieredStore
