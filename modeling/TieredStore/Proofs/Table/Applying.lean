import TieredStore.Proofs.Table.Consistent

/-!
# Applying operations to consistent tables

An operation is regular in a table if it fits the segments, creates a segment
under a new id, and, being a snapshot, is one of a consistent table whose
segments are in the tier to their ends.  Regular operations keep a table
consistent, with the contents after the operation.
-/

namespace TieredStore

/-- Every segment is in the tier to its end and has no pending merges. -/
def Table.Flushed (table : Table) : Prop :=
  ∀ id s, table.get? id = some s → s.pending = [] ∧ s.storageLength = s.length

/-- The operation can be in a log at the point at which the table is reached. -/
structure Operation.Regular (content : Contents) (table : Table) (op : Operation) : Prop where
  fits : op.Fits table
  fresh : ∀ id, op.created? = some id → table.nextId ≤ id
  snapshot : ∀ t, op = .checkpoint t → t.Consistent content ∧ t.WellFormed ∧ t.Flushed

namespace Segment.Consistent

theorem fresh (id : SegmentId) (name : String) (parent : Option SegmentId) :
    Segment.Consistent [] { id, name, parent } where
  length_eq := rfl
  start_le := Nat.le_refl _
  stored_le := Nat.le_refl _
  row := List.Pairwise.nil
  stop_le := fun _ hm => nomatch hm
  distinct := List.nodup_nil

theorem merge {s : Segment} {bytes data : Bytes} (h : s.Consistent bytes) {batch : SegmentId}
    (hnew : ∀ m ∈ s.pending, m.batch ≠ batch) :
    Segment.Consistent (bytes ++ data)
      { s with
        pending := s.pending ++ [{ batch, offset := s.length, length := data.length }]
        length := s.length + data.length } where
  length_eq := by
    show s.length + data.length = _
    rw [List.length_append, h.length_eq]
  start_le := Nat.le_trans h.start_le (Nat.le_add_right _ _)
  stored_le := by
    have hstored := h.stored_le
    unfold Segment.limit at hstored ⊢
    cases hpending : s.pending with
    | nil =>
        rw [hpending] at hstored
        exact hstored
    | cons m rest =>
        rw [hpending] at hstored
        exact hstored
  row := by
    refine List.pairwise_append.mpr ⟨h.row, List.pairwise_singleton _ _, ?_⟩
    intro m hm last hlast
    rw [List.mem_singleton.mp hlast]
    exact h.stop_le m hm
  stop_le := by
    intro m hm
    rcases List.mem_append.mp hm with hold | hlast
    · exact Nat.le_trans (h.stop_le m hold) (Nat.le_add_right _ _)
    · rw [List.mem_singleton.mp hlast]
      exact Nat.le_refl _
  distinct := by
    show (List.map (fun m => m.batch) (s.pending ++ [_])).Nodup
    rw [List.map_append, List.nodup_append]
    refine ⟨h.distinct, List.pairwise_singleton _ _, ?_⟩
    intro id hid last hlast heq
    rcases List.mem_map.mp hid with ⟨m, hm, hbatch⟩
    rw [List.map_singleton, List.mem_singleton] at hlast
    exact hnew m hm (by rw [hbatch, heq, hlast])

end Segment.Consistent

namespace Table.Consistent

variable {table : Table} {content : Contents}

theorem batch_ne_of_not_merged (h : table.Consistent content) {id other : SegmentId}
    {s t : Segment} (hs : table.get? id = some s) (hmerged : s.merged = false)
    (ht : table.get? other = some t) {m : PendingMerge} (hm : m ∈ t.pending) : m.batch ≠ id := by
  intro heq
  rcases h.backed ht m hm with ⟨b, hb, -, hbmerged, -⟩
  rw [heq, hs] at hb
  cases hb
  rw [hmerged] at hbmerged
  cases hbmerged

theorem perform_append (h : table.Consistent content) {segment : SegmentId} {offset event : Nat}
    {client : ClientId} {data : Bytes}
    (hfits : (Operation.append segment offset client event data).Fits table) :
    (table.perform (.append segment offset client event data)).Consistent
      (content.after (.append segment offset client event data)) := by
  rcases hfits with ⟨s, hs, hwritable, -, -⟩
  have hsegment := h.segment hs
  refine h.modify hs (fun other hne => Contents.append_of_ne hne) (Contents.prefix_append _ _ _ _)
    ?_ rfl rfl ?_ (fun m hm => Or.inl hm)
  · show Segment.Consistent (content.append segment data segment) _
    rw [Contents.append_self]
    refine { length_eq := ?_, start_le := Nat.le_trans hsegment.start_le (Nat.le_add_right _ _),
             stored_le := ?_, row := hsegment.row, stop_le := ?_, distinct := hsegment.distinct }
    · rw [List.length_append, hsegment.length_eq]
    · have hstored := hsegment.stored_le
      unfold Segment.limit at hstored ⊢
      cases hpending : s.pending with
      | nil =>
          rw [hpending] at hstored
          exact Nat.le_trans hstored (Nat.le_add_right _ _)
      | cons m rest =>
          rw [hpending] at hstored
          exact hstored
    · intro m hm
      exact Nat.le_trans (hsegment.stop_le m hm) (Nat.le_add_right _ _)
  · intro hmerged
    rw [hwritable.merged] at hmerged
    cases hmerged

theorem perform_seal (h : table.Consistent content) {segment : SegmentId} {length : Nat}
    (hfits : (Operation.seal segment length).Fits table) :
    (table.perform (.seal segment length)).Consistent content := by
  rcases hfits with ⟨s, hs, -, -⟩
  have hsegment := h.segment hs
  refine h.modify hs (fun _ _ => rfl) List.prefix_rfl ?_ rfl rfl
    (fun hmerged => ⟨hmerged, rfl, rfl⟩) (fun m hm => Or.inl hm)
  exact { hsegment with }

theorem perform_truncate (h : table.Consistent content) {segment : SegmentId} {offset : Nat}
    (hfits : (Operation.truncate segment offset).Fits table) :
    (table.perform (.truncate segment offset)).Consistent content := by
  rcases hfits with ⟨s, hs, -, -, hle⟩
  have hsegment := h.segment hs
  refine h.modify hs (fun _ _ => rfl) List.prefix_rfl ?_ rfl rfl
    (fun hmerged => ⟨hmerged, rfl, rfl⟩) (fun m hm => Or.inl hm)
  exact { hsegment with start_le := hle }

theorem marked (h : table.Consistent content) {batch : SegmentId} {b : Segment}
    (hb : table.get? batch = some b) (hbmerged : b.merged = false) :
    (table.modify batch ({ · with merged := true })).Consistent content := by
  have hsegment := h.segment hb
  refine h.modify hb (fun _ _ => rfl) List.prefix_rfl { hsegment with } rfl rfl ?_
    (fun m hm => Or.inl hm)
  intro hmerged
  rw [hbmerged] at hmerged
  cases hmerged

theorem perform_merge (h : table.Consistent content) {parent batch : SegmentId}
    {length offset : Nat} (hfits : (Operation.merge parent batch length offset).Fits table) :
    (table.perform (.merge parent batch length offset)).Consistent
      (content.after (.merge parent batch length offset)) := by
  rcases hfits with
    ⟨s, b, hs, hb, hwritable, hbmerged, hbparent, -, hlength, hoffset, -⟩
  rw [h.id_eq hs] at hbparent
  have hne : parent ≠ batch := h.parent_ne hb hbparent
  have hmarked := h.marked hb hbmerged
  have hs' : (table.modify batch ({ · with merged := true })).get? parent = some s := by
    rw [get?_modify_of_ne table hne]
    exact hs
  have hb' : (table.modify batch ({ · with merged := true })).get? batch =
      some { b with merged := true } := by
    rw [get?_modify_self, hb]
    rfl
  have hbytes := (h.segment hb).length_eq
  rw [hoffset, hlength]
  refine hmarked.modify hs' (fun other hne => Contents.append_of_ne hne)
    (Contents.prefix_append _ _ _ _) ?_ rfl rfl ?_ ?_
  · show Segment.Consistent (content.append parent (content batch) parent) _
    rw [Contents.append_self, hbytes]
    refine (h.segment hs).merge ?_
    intro m hm
    exact h.batch_ne_of_not_merged hb hbmerged hs hm
  · intro hmerged
    rw [hwritable.merged] at hmerged
    cases hmerged
  · intro m hm
    rcases List.mem_append.mp hm with hold | hnew
    · exact Or.inl hold
    · right
      rw [List.mem_singleton.mp hnew]
      refine ⟨{ b with merged := true }, hb', hbparent, rfl, rfl, ?_⟩
      show Bytes.slice (content.append parent (content batch) parent) s.length b.length =
        content.append parent (content batch) batch
      rw [Contents.append_self, Contents.append_of_ne hne.symm, (h.segment hs).length_eq, hbytes]
      exact Bytes.slice_append_right _ _

theorem perform_create (h : table.Consistent content) {segment : SegmentId} {name : String}
    (hfresh : table.nextId ≤ segment) : (table.perform (.create segment name)).Consistent content :=
  h.add hfresh (Segment.Consistent.fresh segment name none) rfl (fun _ hnone => nomatch hnone)

theorem perform_createBatch (h : table.Consistent content) {batch parent : SegmentId}
    {name : String} (hfits : (Operation.createBatch batch name parent).Fits table)
    (hfresh : table.nextId ≤ batch) :
    (table.perform (.createBatch batch name parent)).Consistent content := by
  rcases hfits with ⟨-, -, s, hs, -, hnone⟩
  refine h.add hfresh (Segment.Consistent.fresh batch name (some parent)) rfl ?_
  intro p hp
  cases hp
  exact ⟨s, hs, hnone⟩

theorem perform (h : table.Consistent content) {op : Operation}
    (hop : op.Regular content table) : (table.perform op).Consistent (content.after op) := by
  cases op with
  | append segment offset client event data => exact h.perform_append hop.fits
  | «seal» segment length => exact h.perform_seal hop.fits
  | merge parent batch length offset => exact h.perform_merge hop.fits
  | checkpoint snapshot => exact (hop.snapshot snapshot rfl).1
  | create segment name => exact h.perform_create (hop.fresh segment rfl)
  | createBatch batch name parent => exact h.perform_createBatch hop.fits (hop.fresh batch rfl)
  | truncate segment offset => exact h.perform_truncate hop.fits

theorem get?_created (h : table.Consistent content) {op : Operation}
    (hop : op.Regular content table) {id : SegmentId} (hid : op.created? = some id) :
    table.get? id = none := by
  cases hget : table.get? id with
  | none => rfl
  | some s => exact absurd (h.id_lt hget) (Nat.not_lt.mpr (hop.fresh id hid))

end Table.Consistent
end TieredStore
