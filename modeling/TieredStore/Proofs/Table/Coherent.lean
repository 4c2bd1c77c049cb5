import TieredStore.Proofs.Table.Replaying

/-!
# Coherent tables

What a table says in one place agrees with what it says in others.  Offsets lie in
their segments, the pending merges of a segment are ranges in a row, batches
belong to segments that are no batches, and a merged batch and the pending merge
of its parent refer to each other, one to one.

Unlike consistency, this does not speak of contents, and it is kept by every change
of a table: operations that are accepted, with snapshots of coherent tables, any
report of what the tier holds, and merges that are finished in any order.
-/

namespace TieredStore

/-- Offsets lie in the segment, and its pending merges are ranges in a row. -/
structure Segment.Ordered (s : Segment) : Prop where
  start_le : s.startOffset ≤ s.length
  stored_le : s.storageLength ≤ s.length
  row : s.pending.Pairwise (fun a b => a.stop ≤ b.offset)
  stop_le : ∀ m ∈ s.pending, m.stop ≤ s.length

/-- The range is that of a whole batch of the parent, sealed and merged. -/
def PendingMerge.Linked (table : Table) (parent : SegmentId) (m : PendingMerge) : Prop :=
  ∃ b, table.get? m.batch = some b ∧ b.parent = some parent ∧ b.sealed = true ∧
    b.merged = true ∧ b.length = m.length

/--
The parts of the table agree.  Every pending merge is that of a merged batch of the
segment, and every merged batch has exactly one.
-/
structure Table.Coherent (table : Table) : Prop where
  wellFormed : table.WellFormed
  ordered : ∀ {id s}, table.get? id = some s → s.Ordered
  parent : ∀ {id b p}, table.get? id = some b → b.parent = some p →
    ∃ s, table.get? p = some s ∧ s.parent = none
  linked : ∀ {id s}, table.get? id = some s → ∀ m ∈ s.pending, m.Linked table id
  paired : ∀ {id b p}, table.get? id = some b → b.parent = some p → b.merged = true →
    ∃ s m, table.get? p = some s ∧ s.pending.filter (·.batch = id) = [m]

def Segment.merging (s : Segment) (batch : SegmentId) (length : Nat) : Segment :=
  { s with
    pending := s.pending ++ [{ batch, offset := s.length, length }]
    length := s.length + length }

namespace Segment.Ordered

variable {s : Segment}

theorem fresh (id : SegmentId) (name : String) (parent : Option SegmentId) :
    Segment.Ordered { id, name, parent } where
  start_le := Nat.le_refl _
  stored_le := Nat.le_refl _
  row := List.Pairwise.nil
  stop_le := fun _ hm => nomatch hm

theorem grow (h : s.Ordered) (count : Nat) {events : SortedMap ClientId Nat} :
    Segment.Ordered { s with length := s.length + count, clientEvents := events } where
  start_le := Nat.le_trans h.start_le (Nat.le_add_right _ _)
  stored_le := Nat.le_trans h.stored_le (Nat.le_add_right _ _)
  row := h.row
  stop_le := fun m hm => Nat.le_trans (h.stop_le m hm) (Nat.le_add_right _ _)

theorem merging (h : s.Ordered) (batch : SegmentId) (length : Nat) :
    (s.merging batch length).Ordered where
  start_le := Nat.le_trans h.start_le (Nat.le_add_right _ _)
  stored_le := Nat.le_trans h.stored_le (Nat.le_add_right _ _)
  row := by
    refine List.pairwise_append.mpr ⟨h.row, List.pairwise_singleton _ _, ?_⟩
    intro m hm last hlast
    rw [List.mem_singleton.mp hlast]
    exact h.stop_le m hm
  stop_le := by
    intro m hm
    rcases List.mem_append.mp hm with hold | hnew
    · exact Nat.le_trans (h.stop_le m hold) (Nat.le_add_right _ _)
    · rw [List.mem_singleton.mp hnew]
      exact Nat.le_refl _

end Segment.Ordered

namespace Table

variable {table after : Table} {id parent batch : SegmentId} {s t b : Segment} {m : PendingMerge}

/-!
## Batches and their parents
-/

namespace Coherent

theorem empty : Coherent {} where
  wellFormed := WellFormed.empty
  ordered := fun h => nomatch h
  parent := fun h => nomatch h
  linked := fun h => nomatch h
  paired := fun h => nomatch h

theorem parent_ne (h : table.Coherent) (hb : table.get? id = some b) (hparent : b.parent = some parent) :
    parent ≠ id := by
  intro heq
  rcases h.parent hb hparent with ⟨s, hs, hnone⟩
  rw [heq, hb] at hs
  cases hs
  rw [hparent] at hnone
  cases hnone

theorem batch_ne_of_not_merged (h : table.Coherent) (hb : table.get? batch = some b)
    (hmerged : b.merged = false) (hs : table.get? id = some s) (hm : m ∈ s.pending) :
    m.batch ≠ batch := by
  intro heq
  rcases h.linked hs m hm with ⟨b', hb', -, -, hmark, -⟩
  rw [heq, hb] at hb'
  cases hb'
  rw [hmerged] at hmark
  cases hmark

end Coherent

/-!
## Changing one segment
-/

/--
A segment may change if it stays ordered and is the same to others: its pending merges
and whether it is merged, and, once it is sealed, its seal and its length.
-/
theorem Coherent.modify (h : table.Coherent) (hs : table.get? id = some s)
    {change : Segment → Segment} (hordered : (change s).Ordered)
    (hid : ∀ s, (change s).id = s.id) (hname : ∀ s, (change s).name = s.name)
    (hparent : (change s).parent = s.parent) (hmerged : (change s).merged = s.merged)
    (hpending : (change s).pending = s.pending)
    (hsealed : s.sealed = true → (change s).sealed = true ∧ (change s).length = s.length) :
    (table.modify id change).Coherent := by
  have hself : (table.modify id change).get? id = some (change s) := by
    rw [get?_modify_self, hs]
    rfl
  -- what was found before is found again, the same to others
  have hkept : ∀ {other t}, table.get? other = some t → ∃ t',
      (table.modify id change).get? other = some t' ∧ t'.parent = t.parent ∧
        t'.merged = t.merged ∧ t'.pending = t.pending ∧
        (t.sealed = true → t'.sealed = true ∧ t'.length = t.length) := by
    intro other t ht
    by_cases hother : other = id
    · subst hother
      rw [hs] at ht
      cases ht
      exact ⟨_, hself, hparent, hmerged, hpending, hsealed⟩
    · refine ⟨t, ?_, rfl, rfl, rfl, fun hseal => ⟨hseal, rfl⟩⟩
      rw [get?_modify_of_ne table hother]
      exact ht
  refine ⟨h.wellFormed.modify hid hname, ?_, ?_, ?_, ?_⟩
  · intro other t ht
    rcases changed_or_kept hs ht with ⟨-, rfl⟩ | ⟨-, hold⟩
    · exact hordered
    · exact h.ordered hold
  · intro other b p hb hbparent
    have hold : ∃ b', table.get? other = some b' ∧ b'.parent = some p := by
      rcases changed_or_kept hs hb with ⟨rfl, rfl⟩ | ⟨-, hold⟩
      · exact ⟨s, hs, hparent.symm.trans hbparent⟩
      · exact ⟨b, hold, hbparent⟩
    rcases hold with ⟨b', hb', hbparent'⟩
    rcases h.parent hb' hbparent' with ⟨t, ht, hnone⟩
    rcases hkept ht with ⟨t', ht', htparent, -⟩
    exact ⟨t', ht', htparent.trans hnone⟩
  · intro other t ht m hm
    have hold : ∃ t', table.get? other = some t' ∧ m ∈ t'.pending := by
      rcases changed_or_kept hs ht with ⟨rfl, rfl⟩ | ⟨-, hold⟩
      · exact ⟨s, hs, hpending ▸ hm⟩
      · exact ⟨t, hold, hm⟩
    rcases hold with ⟨t', ht', hm'⟩
    rcases h.linked ht' m hm' with ⟨b, hb, hbparent, hseal, hmark, hlength⟩
    rcases hkept hb with ⟨b', hb', hbparent', hmark', -, hseal'⟩
    exact ⟨b', hb', hbparent'.trans hbparent, (hseal' hseal).1, hmark'.trans hmark,
      (hseal' hseal).2.trans hlength⟩
  · intro other b p hb hbparent hmark
    have hold : ∃ b', table.get? other = some b' ∧ b'.parent = some p ∧ b'.merged = true := by
      rcases changed_or_kept hs hb with ⟨rfl, rfl⟩ | ⟨-, hold⟩
      · exact ⟨s, hs, hparent.symm.trans hbparent, hmerged.symm.trans hmark⟩
      · exact ⟨b, hold, hbparent, hmark⟩
    rcases hold with ⟨b', hb', hbparent', hmark'⟩
    rcases h.paired hb' hbparent' hmark' with ⟨t, m, ht, hone⟩
    rcases hkept ht with ⟨t', ht', -, -, hpending', -⟩
    exact ⟨t', m, ht', by rw [hpending']; exact hone⟩

theorem Coherent.setStorageLength (h : table.Coherent) (id : SegmentId) (length : Nat) :
    (table.setStorageLength id length).Coherent := by
  unfold Table.setStorageLength
  cases hs : table.get? id with
  | none =>
      rw [modify_of_none hs]
      exact h
  | some s =>
      have hordered := h.ordered hs
      refine h.modify hs ?_ (fun _ => rfl) (fun _ => rfl) rfl rfl rfl fun hseal => ⟨hseal, rfl⟩
      refine { hordered with stored_le := ?_ }
      exact Nat.max_le.mpr ⟨hordered.stored_le, Nat.min_le_right _ _⟩

/-!
## New segments
-/

theorem Coherent.add (h : table.Coherent) (hfree : table.get? s.id = none)
    (hname : s.name ∉ table.names) (hordered : s.Ordered) (hpending : s.pending = [])
    (hmerged : s.merged = false)
    (hparent : ∀ p, s.parent = some p → ∃ t, table.get? p = some t ∧ t.parent = none) :
    (table.add s).Coherent := by
  have hold : ∀ {other t}, table.get? other = some t → (table.add s).get? other = some t := by
    intro other t ht
    rw [get?_add_of_ne table ?_]
    · exact ht
    · intro heq
      rw [heq, hfree] at ht
      cases ht
  have hcases : ∀ {other t}, (table.add s).get? other = some t →
      other = s.id ∧ t = s ∨ table.get? other = some t := by
    intro other t ht
    by_cases hother : other = s.id
    · rw [hother, get?_add_self] at ht
      exact Or.inl ⟨hother, (Option.some.inj ht).symm⟩
    · rw [get?_add_of_ne table hother] at ht
      exact Or.inr ht
  refine ⟨h.wellFormed.add hname, ?_, ?_, ?_, ?_⟩
  · intro other t ht
    rcases hcases ht with ⟨-, rfl⟩ | ht
    · exact hordered
    · exact h.ordered ht
  · intro other b p hb hbparent
    have hfound : ∃ t, table.get? p = some t ∧ t.parent = none := by
      rcases hcases hb with ⟨-, rfl⟩ | hb
      · exact hparent p hbparent
      · exact h.parent hb hbparent
    rcases hfound with ⟨t, ht, hnone⟩
    exact ⟨t, hold ht, hnone⟩
  · intro other t ht m hm
    rcases hcases ht with ⟨-, rfl⟩ | ht
    · rw [hpending] at hm
      cases hm
    · rcases h.linked ht m hm with ⟨b, hb, hfacts⟩
      exact ⟨b, hold hb, hfacts⟩
  · intro other b p hb hbparent hmark
    rcases hcases hb with ⟨-, rfl⟩ | hb
    · rw [hmerged] at hmark
      cases hmark
    · rcases h.paired hb hbparent hmark with ⟨t, m, ht, hone⟩
      exact ⟨t, m, hold ht, hone⟩

/-!
## Merging
-/

structure Merging (table : Table) (parent batch : SegmentId) (s b : Segment) (next : Table) :
    Prop where
  grown : next.get? parent = some (s.merging batch b.length)
  marked : next.get? batch = some { b with merged := true }
  rest : ∀ {other}, other ≠ parent → other ≠ batch → next.get? other = table.get? other

theorem merging_perform (hs : table.get? parent = some s) (hb : table.get? batch = some b)
    (hne : parent ≠ batch) :
    table.Merging parent batch s b (table.perform (.merge parent batch b.length s.length)) where
  grown := by
    show ((table.modify batch _).modify parent _).get? parent = _
    rw [get?_modify_self, get?_modify_of_ne table hne, hs]
    rfl
  marked := by
    show ((table.modify batch _).modify parent _).get? batch = _
    rw [get?_modify_of_ne _ hne.symm, get?_modify_self, hb]
    rfl
  rest := fun hparent hbatch =>
    (get?_modify_of_ne _ hparent _).trans (get?_modify_of_ne _ hbatch _)

namespace Merging

variable {next : Table} (h : table.Merging parent batch s b next)
  (hs : table.get? parent = some s) (hb : table.get? batch = some b)

include h in
theorem changed_or_kept {other : SegmentId} {t : Segment} (ht : next.get? other = some t) :
    other = parent ∧ t = s.merging batch b.length ∨ other = batch ∧ t = { b with merged := true } ∨
      other ≠ parent ∧ other ≠ batch ∧ table.get? other = some t := by
  by_cases hparent : other = parent
  · rw [hparent, h.grown] at ht
    exact Or.inl ⟨hparent, (Option.some.inj ht).symm⟩
  · by_cases hbatch : other = batch
    · rw [hbatch, h.marked] at ht
      exact Or.inr (Or.inl ⟨hbatch, (Option.some.inj ht).symm⟩)
    · rw [h.rest hparent hbatch] at ht
      exact Or.inr (Or.inr ⟨hparent, hbatch, ht⟩)

include h hs hb in
theorem kept {other : SegmentId} {t : Segment} (ht : table.get? other = some t) :
    ∃ t', next.get? other = some t' ∧ t'.parent = t.parent ∧ ∀ id, id ≠ batch →
      t'.pending.filter (·.batch = id) = t.pending.filter (·.batch = id) := by
  by_cases hparent : other = parent
  · rw [hparent, hs] at ht
    cases ht
    refine ⟨s.merging batch b.length, by rw [hparent]; exact h.grown, rfl, fun id hid => ?_⟩
    simp [Segment.merging, List.filter_append, hid.symm]
  · by_cases hbatch : other = batch
    · rw [hbatch, hb] at ht
      cases ht
      exact ⟨{ b with merged := true }, by rw [hbatch]; exact h.marked, rfl, fun _ _ => rfl⟩
    · exact ⟨t, by rw [h.rest hparent hbatch]; exact ht, rfl, fun _ _ => rfl⟩

include h hs in
theorem linked (hmerged : s.merged = false) {other : SegmentId} (hm : m.Linked table other)
    (hbatch : m.batch ≠ batch) : m.Linked next other := by
  rcases hm with ⟨b', hb', hparent, hsealed, hmark, hlength⟩
  refine ⟨b', ?_, hparent, hsealed, hmark, hlength⟩
  rw [h.rest ?_ hbatch]
  · exact hb'
  · intro heq
    rw [heq, hs] at hb'
    cases hb'
    rw [hmerged] at hmark
    cases hmark

end Merging

theorem Coherent.perform_merge (h : table.Coherent) {length offset : Nat}
    (hfits : (Operation.merge parent batch length offset).Fits table) :
    (table.perform (.merge parent batch length offset)).Coherent := by
  rcases hfits with ⟨s, b, hs, hb, hwritable, hbmerged, hbparent, hbsealed, rfl, rfl, -⟩
  rw [h.wellFormed.id_eq hs] at hbparent
  have hmerging := merging_perform hs hb (h.parent_ne hb hbparent)
  have hnone : ∀ {other t}, table.get? other = some t → ∀ m ∈ t.pending, m.batch ≠ batch :=
    fun ht m hm => h.batch_ne_of_not_merged hb hbmerged ht hm
  have hlinked : ∀ {other} {m : PendingMerge}, m.Linked table other → m.batch ≠ batch →
      m.Linked _ other := fun hm hbatch => hmerging.linked hs hwritable.merged hm hbatch
  refine ⟨h.wellFormed.perform_merge _ _ _ _, ?_, ?_, ?_, ?_⟩
  · intro other t ht
    rcases hmerging.changed_or_kept ht with ⟨-, rfl⟩ | ⟨-, rfl⟩ | ⟨-, -, hold⟩
    · exact (h.ordered hs).merging batch b.length
    · exact { h.ordered hb with }
    · exact h.ordered hold
  · intro other t p ht hparent
    have hold : ∃ t', table.get? other = some t' ∧ t'.parent = some p := by
      rcases hmerging.changed_or_kept ht with ⟨rfl, rfl⟩ | ⟨rfl, rfl⟩ | ⟨-, -, hold⟩
      · exact ⟨s, hs, hparent⟩
      · exact ⟨b, hb, hparent⟩
      · exact ⟨t, hold, hparent⟩
    rcases hold with ⟨t', ht', hparent'⟩
    rcases h.parent ht' hparent' with ⟨u, hu, hroot⟩
    rcases hmerging.kept hs hb hu with ⟨u', hu', huparent, -⟩
    exact ⟨u', hu', huparent.trans hroot⟩
  · intro other t ht m hm
    rcases hmerging.changed_or_kept ht with ⟨rfl, rfl⟩ | ⟨rfl, rfl⟩ | ⟨-, -, hold⟩
    · rcases List.mem_append.mp hm with hold | hnew
      · exact hlinked (h.linked hs m hold) (hnone hs m hold)
      · rw [List.mem_singleton.mp hnew]
        exact ⟨_, hmerging.marked, hbparent, hbsealed, rfl, rfl⟩
    · exact hlinked (h.linked hb m hm) (hnone hb m hm)
    · exact hlinked (h.linked hold m hm) (hnone hold m hm)
  · intro other t p ht hparent hmark
    rcases hmerging.changed_or_kept ht with ⟨-, rfl⟩ | ⟨rfl, rfl⟩ | ⟨-, hbatch, hold⟩
    · rw [Segment.merging, hwritable.merged] at hmark
      cases hmark
    · cases hbparent.symm.trans hparent
      refine ⟨_, { batch := other, offset := s.length, length := b.length }, hmerging.grown, ?_⟩
      have hempty : s.pending.filter (·.batch = other) = [] :=
        List.filter_eq_nil_iff.mpr fun m hm => by simpa using hnone hs m hm
      rw [Segment.merging, List.filter_append, hempty]
      simp
    · rcases h.paired hold hparent hmark with ⟨u, m, hu, hone⟩
      rcases hmerging.kept hs hb hu with ⟨u', hu', -, hsame⟩
      exact ⟨u', m, hu', (hsame other hbatch).trans hone⟩

/-!
## Operations
-/

/-- An operation that is accepted keeps the table coherent if its snapshot is. -/
theorem Coherent.apply (h : table.Coherent) {op : Operation}
    (hsnapshot : ∀ t, op = .checkpoint t → t.Coherent) (happly : table.apply op = .ok after) :
    after.Coherent := by
  rcases apply_eq_ok_iff.mp happly with ⟨hfits, hfree, rfl⟩
  have hname : ∀ name, op.name? = some name → name ∉ table.names :=
    fun name hop => lookup?_eq_none_iff_not_mem.mp (hfree name hop)
  cases op with
  | append segment offset client event data =>
      rcases hfits with ⟨s, hs, hwritable, -⟩
      refine h.modify hs ((h.ordered hs).grow data.length) (fun _ => rfl) (fun _ => rfl)
        rfl rfl rfl fun hsealed => ?_
      rw [hwritable.sealed] at hsealed
      cases hsealed
  | «seal» segment length =>
      rcases hfits with ⟨s, hs, -⟩
      exact h.modify hs { h.ordered hs with } (fun _ => rfl) (fun _ => rfl) rfl rfl rfl
        fun _ => ⟨rfl, rfl⟩
  | merge parent batch length offset => exact h.perform_merge hfits
  | checkpoint snapshot => exact hsnapshot snapshot rfl
  | create segment name =>
      exact h.add hfits.2 (hname name rfl) (.fresh segment name none) rfl rfl
        fun _ hnone => nomatch hnone
  | createBatch batch name parent =>
      rcases hfits with ⟨-, hfree, s, hs, -, hnone⟩
      refine h.add hfree (hname name rfl) (.fresh batch name (some parent)) rfl rfl ?_
      intro p hp
      cases hp
      exact ⟨s, hs, hnone⟩
  | truncate segment offset =>
      rcases hfits with ⟨s, hs, -, -, hle⟩
      exact h.modify hs { h.ordered hs with start_le := hle } (fun _ => rfl) (fun _ => rfl)
        rfl rfl rfl fun hsealed => ⟨hsealed, rfl⟩

end Table
end TieredStore
