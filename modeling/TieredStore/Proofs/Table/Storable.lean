import TieredStore.Proofs.Record.Checking
import TieredStore.Proofs.Table.Finishing

/-!
# Tables that a checkpoint can hold

A checkpoint writes every number of the table in eight bytes of which the highest bit
is clear, every id as one that has been assigned, and every name behind its length.
Nothing checks the numbers of a table as it changes: the operations are checked one by
one, and what the tier reports is cut to fit.  That a sum of lengths stays in range is
due to the coherence of the table: a merge lies inside its parent, so that the tier
never holds more of the parent than there is.
-/

namespace TieredStore

/-!
## Changes of one segment
-/

namespace Segment.Storable

variable {s : Segment} {id : SegmentId} {name : String}

theorem fresh (hid : SegmentId.Storable id)
    (hname : name.isEmpty = false ∧ name.utf8ByteSize ≤ Record.maxNameLength)
    {parent : Option SegmentId} (hparent : ∀ p, parent = some p → SegmentId.Storable p) :
    Segment.Storable { id, name, parent } where
  id := hid
  named := hname.1
  name_le := hname.2
  length_le := Nat.zero_le _
  stored_le := Nat.zero_le _
  start_le := Nat.zero_le _
  parent := hparent
  pending := fun _ hm => nomatch hm
  events_le := fun _ hnumber => nomatch hnumber

theorem appended (h : s.Storable) {client : ClientId} {event length : Nat}
    (hevent : event ≤ maxOffset) (hlength : length ≤ maxOffset) :
    Segment.Storable { s with length, clientEvents := s.clientEvents.insert client event } := by
  refine { h with length_le := hlength, events_le := fun number hnumber => ?_ }
  rcases SortedMap.mem_values.mp hnumber with ⟨other, hother⟩
  rw [SortedMap.get?_insert] at hother
  split at hother
  · cases hother
    exact hevent
  · exact h.events_le number (SortedMap.mem_values.mpr ⟨other, hother⟩)

theorem merging (h : s.Storable) {batch : SegmentId} {length : Nat}
    (hbatch : SegmentId.Storable batch) (hstop : s.length + length ≤ maxOffset) :
    (s.merging batch length).Storable := by
  refine { h with length_le := hstop, pending := fun m hm => ?_ }
  rcases List.mem_append.mp hm with hold | hnew
  · exact h.pending m hold
  · rw [List.mem_singleton.mp hnew]
    exact ⟨hbatch, h.length_le, Nat.le_trans (Nat.le_add_left _ _) hstop⟩

theorem finishing (h : s.Storable) (batch : SegmentId) {stop : Nat} (hstop : stop ≤ s.length) :
    (s.finishing batch stop).Storable :=
  { h with
    stored_le := Nat.max_le.mpr ⟨h.stored_le, Nat.le_trans hstop h.length_le⟩
    pending := fun m hm => h.pending m (List.mem_of_mem_eraseP hm) }

end Segment.Storable

/-!
## Changes of the table
-/

namespace Table

variable {table after : Table} {id parent batch : SegmentId} {s : Segment} {m : PendingMerge}

/-- The parts of the table agree, and every segment fits a record. -/
structure Storable (table : Table) : Prop where
  coherent : table.Coherent
  segment : ∀ {id s}, table.get? id = some s → s.Storable

namespace Storable

theorem empty : Storable {} where
  coherent := Coherent.empty
  segment := fun h => nomatch h

theorem segment_modify (h : table.Storable) {change : Segment → Segment}
    (hchange : ∀ s, table.get? id = some s → (change s).Storable) {other : SegmentId} {t : Segment}
    (ht : (table.modify id change).get? other = some t) : t.Storable := by
  rcases get?_of_get?_modify ht with ⟨s, hs, ⟨-, rfl⟩ | ⟨rfl, rfl⟩⟩
  · exact h.segment hs
  · exact hchange s hs

theorem segment_add (h : table.Storable) (hs : s.Storable) {other : SegmentId} {t : Segment}
    (ht : (table.add s).get? other = some t) : t.Storable := by
  by_cases hother : other = s.id
  · rw [hother, get?_add_self] at ht
    cases ht
    exact hs
  · rw [get?_add_of_ne table hother] at ht
    exact h.segment ht

theorem setStorageLength (h : table.Storable) (id : SegmentId) (length : Nat) :
    (table.setStorageLength id length).Storable := by
  refine ⟨h.coherent.setStorageLength id length, fun ht => h.segment_modify (fun s hs => ?_) ht⟩
  have hle := Nat.le_trans (Nat.min_le_right length s.length) (h.segment hs).length_le
  exact { h.segment hs with stored_le := Nat.max_le.mpr ⟨(h.segment hs).stored_le, hle⟩ }

/-- The merge lies inside the parent, so that the tier holds no more than the parent has. -/
theorem completeMerge (h : table.Storable)
    (hdone : table.completeMerge? parent batch = some (m, after)) : after.Storable := by
  refine ⟨h.coherent.completeMerge hdone, fun {other t} ht => ?_⟩
  rcases completeMerge?_eq_some_iff.mp hdone with ⟨s, hs, hfind, rfl⟩
  have hkept : (table.modify parent (·.finishing batch m.stop)).get? other = some t := by
    by_cases hother : other = batch
    · rw [hother, get?_without_self] at ht
      cases ht
    · rwa [get?_without_of_ne _ hother] at ht
  refine h.segment_modify (fun u hu => ?_) hkept
  cases Option.some.inj (hs.symm.trans hu)
  have hm := List.mem_of_find?_eq_some hfind
  exact (h.segment hs).finishing batch ((h.coherent.ordered hs).stop_le m hm)

theorem apply (h : table.Storable) {op : Operation} (hcheck : Record.checkOperation op = .ok ())
    (hsnapshot : ∀ t, op = .checkpoint t → t.Storable) (happly : table.apply op = .ok after) :
    after.Storable := by
  refine ⟨h.coherent.apply (fun t ht => (hsnapshot t ht).coherent) happly, ?_⟩
  intro other t ht
  have hstorable := Record.checkOperation_eq_ok_iff.mp hcheck
  rcases apply_eq_ok_iff.mp happly with ⟨hfits, -, rfl⟩
  cases op with
  | append segment offset client event data =>
      rcases hfits with ⟨s, hs, -, rfl, hstop⟩
      have hevent : event ≤ maxOffset := hstorable.2.2.1
      refine h.segment_modify (fun u hu => ?_) ht
      cases Option.some.inj (hs.symm.trans hu)
      exact (h.segment hs).appended hevent hstop
  | «seal» segment length =>
      refine h.segment_modify (fun u hu => ?_) ht
      exact { h.segment hu with }
  | merge parent batch length offset =>
      rcases hfits with ⟨s, b, hs, hb, hwritable, hbmerged, hbparent, -, rfl, rfl, hstop⟩
      rw [h.coherent.wellFormed.id_eq hs] at hbparent
      have hmerging := merging_perform hs hb (h.coherent.parent_ne hb hbparent)
      have hbatch := (h.segment hb).id
      rw [h.coherent.wellFormed.id_eq hb] at hbatch
      rcases hmerging.changed_or_kept ht with ⟨-, rfl⟩ | ⟨-, rfl⟩ | ⟨-, -, hold⟩
      · exact (h.segment hs).merging hbatch hstop
      · exact { h.segment hb with }
      · exact h.segment hold
  | checkpoint snapshot => exact (hsnapshot snapshot rfl).segment ht
  | create segment name =>
      refine h.segment_add (.fresh hstorable.1 hstorable.2 ?_) ht
      intro p hnone
      cases hnone
  | createBatch batch name parent =>
      refine h.segment_add (.fresh hstorable.1 hstorable.2.1 ?_) ht
      intro p hp
      cases hp
      exact hstorable.2.2
  | truncate segment offset =>
      rcases hfits with ⟨s, hs, -, -, hle⟩
      refine h.segment_modify (fun u hu => ?_) ht
      cases Option.some.inj (hs.symm.trans hu)
      exact { h.segment hs with start_le := Nat.le_trans hle (h.segment hs).length_le }

end Storable

/-!
## Reachable tables
-/

/--
The tables that the empty one becomes: by operations that can be written under some
sequence number and fit, by checkpoints of tables of this kind, by what the tier is said
to hold, and by merges that are said to be finished.
-/
inductive Reachable : Table → Prop
  | empty : Reachable {}
  | operation {table after : Table} {seq : SequenceNumber} {op : Operation}
      (h : Reachable table) (hsnapshot : ∀ t, op = .checkpoint t → Reachable t)
      (hcheck : Record.check seq op = .ok ()) (happly : table.apply op = .ok after) :
      Reachable after
  | stored {table : Table} (h : Reachable table) (segment : SegmentId) (length : Nat) :
      Reachable (table.setStorageLength segment length)
  | joined {table after : Table} {parent batch : SegmentId} {m : PendingMerge}
      (h : Reachable table) (hdone : table.completeMerge? parent batch = some (m, after)) :
      Reachable after

theorem Reachable.storable (h : table.Reachable) : table.Storable := by
  induction h with
  | empty => exact Storable.empty
  | operation _ _ hcheck happly ih hsnapshot =>
      exact ih.apply (Record.check_then_iff.mp hcheck).2 hsnapshot happly
  | stored _ segment length ih => exact ih.setStorageLength segment length
  | joined _ hdone ih => exact ih.completeMerge hdone

theorem Reachable.operations {ops : List Operation} (seq : SequenceNumber) (h : table.Reachable)
    (hops : ∀ op ∈ ops, op.isCheckpoint = false ∧ Record.check seq op = .ok ())
    (hrun : ops.foldlM Table.apply table = .ok after) : after.Reachable := by
  induction ops generalizing table with
  | nil =>
      cases hrun
      exact h
  | cons op rest ih =>
      rw [List.foldlM_cons, bind_eq_ok_iff] at hrun
      rcases hrun with ⟨middle, happly, hrun⟩
      rcases List.forall_mem_cons.mp hops with ⟨⟨hplain, hcheck⟩, hrest⟩
      refine ih (.operation h ?_ hcheck happly) hrest hrun
      intro t ht
      rw [ht] at hplain
      cases hplain

/--
Whatever was done to a table, all its segments fit a record, so that it can be
checkpointed exactly if its next id and the number of its segments fit.  Then only the
sequence number can be at fault.
-/
theorem Reachable.checkpointable (h : table.Reachable) :
    (∀ s ∈ table.list, s.Storable) ∧
      (Record.checkTable table = .ok () ↔
        table.nextId ≤ maxOffset ∧ table.size ≤ Record.maxCount) ∧
      (table.nextId ≤ maxOffset → table.size ≤ Record.maxCount → ∀ seq,
        Record.check seq (.checkpoint table) = Record.checkId .sequenceNumber seq) := by
  have hsegments : ∀ s ∈ table.list, s.Storable := by
    intro s hs
    rcases mem_list.mp hs with ⟨id, hid⟩
    exact h.storable.segment hid
  have htable : Record.checkTable table = .ok () ↔
      table.nextId ≤ maxOffset ∧ table.size ≤ Record.maxCount := by
    rw [Record.checkTable_eq_ok_iff]
    exact and_congr_right fun _ => and_iff_left hsegments
  refine ⟨hsegments, htable, fun hnext hsize seq => ?_⟩
  show (Record.checkId .sequenceNumber seq >>= fun _ => Record.checkTable table) = _
  rw [htable.mpr ⟨hnext, hsize⟩]
  cases Record.checkId .sequenceNumber seq with
  | error e => rfl
  | ok u => rfl

private def merged : Table :=
  { segments := .ofList
      [(1, { id := 1, name := "a", length := 5, pending := [⟨2, 3, 2⟩],
             clientEvents := .ofList [(0, maxOffset)] }),
       (2, { id := 2, name := "b", length := 2, parent := some 1, «sealed» := true, merged := true,
             clientEvents := .ofList [(0, 1)] })]
    nextId := 3 }

private theorem merged_reachable : merged.Reachable := by
  let ops : List Operation := [.create 1 "a", .append 1 0 0 maxOffset [97, 98, 99],
    .createBatch 2 "b" 1, .append 2 0 0 1 [120, 121], .seal 2 2, .merge 1 2 2 3]
  have hrun : ops.foldlM apply {} = .ok merged := ok_of_toOption (by decide +kernel)
  have hops : ∀ op ∈ ops, op.isCheckpoint = false ∧ (Record.check 1 op).toOption = some () := by
    decide +kernel
  exact Reachable.empty.operations 1 (fun op hop => ⟨(hops op hop).1, ok_of_toOption (hops op hop).2⟩)
    hrun

private def whole : Table :=
  { segments := .ofList
      [(1, { id := 1, name := "a", length := 5, storageLength := 5,
             clientEvents := .ofList [(0, maxOffset)] })]
    nextId := 3 }

/--
The table of the merge is checkpointed, the tier is said to hold more of the batch than
there is, and the merge is finished.
-/
theorem Reachable.checkpointable_joined :
    whole.Reachable ∧ Record.checkTable whole = .ok () ∧
      Record.check 9 (.checkpoint whole) = .ok () := by
  have hcheckpoint : merged.Reachable := by
    have hcheck : Record.check 7 (.checkpoint merged) = .ok () :=
      ok_of_toOption (by decide +kernel)
    refine Reachable.empty.operation ?_ hcheck rfl
    intro t ht
    cases ht
    exact merged_reachable
  have hdone : (merged.setStorageLength 2 (maxOffset + 1)).completeMerge? 1 2 =
      some (⟨2, 3, 2⟩, whole) := by decide +kernel
  have hwhole : whole.Reachable := .joined (hcheckpoint.stored 2 (maxOffset + 1)) hdone
  have hnext : whole.nextId ≤ maxOffset := by decide
  have hsize : whole.size ≤ Record.maxCount := by decide +kernel
  rcases hwhole.checkpointable with ⟨-, hcheck, hseq⟩
  exact ⟨hwhole, hcheck.mpr ⟨hnext, hsize⟩, hseq hnext hsize 9⟩

end Table
end TieredStore
