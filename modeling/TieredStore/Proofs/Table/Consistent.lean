import TieredStore.Proofs.Contents
import TieredStore.Proofs.Table.Fitting
import TieredStore.Proofs.Table.WellFormed

/-!
# Tables that describe contents

A table describes the contents of its segments: lengths are those of the
contents, and every pending merge is a range of the parent whose bytes are the
content of a merged batch that the table still has.  What the tier holds of a
segment ends before its first pending merge.

Every operation that fits a table and is numbered as the table says leads to a
table that describes the contents after the operation.
-/

namespace TieredStore

namespace Segment

/-- What can be copied to the tier ends here: at the first pending merge or at the end. -/
def limit (s : Segment) : Nat := (s.pending.head?.map (·.offset)).getD s.length

/-- The segment has these bytes, and its pending merges are ranges in a row. -/
structure Consistent (bytes : Bytes) (s : Segment) : Prop where
  length_eq : s.length = bytes.length
  start_le : s.startOffset ≤ s.length
  stored_le : s.storageLength ≤ s.limit
  row : s.pending.Pairwise (fun a b => a.stop ≤ b.offset)
  stop_le : ∀ m ∈ s.pending, m.stop ≤ s.length
  distinct : (s.pending.map (·.batch)).Nodup

namespace Consistent

variable {bytes : Bytes} {s : Segment}

theorem limit_le_offset (h : s.Consistent bytes) {m : PendingMerge} (hm : m ∈ s.pending) :
    s.limit ≤ m.offset := by
  have hrow := h.row
  unfold limit
  cases hpending : s.pending with
  | nil =>
      rw [hpending] at hm
      cases hm
  | cons first rest =>
      rw [hpending] at hm hrow
      rcases List.mem_cons.mp hm with heq | hrest
      · rw [heq]
        exact Nat.le_refl _
      · exact Nat.le_trans (Nat.le_add_right _ _) ((List.pairwise_cons.mp hrow).1 m hrest)

theorem limit_le_length (h : s.Consistent bytes) : s.limit ≤ s.length := by
  unfold limit
  cases hpending : s.pending with
  | nil => exact Nat.le_refl _
  | cons first rest =>
      have hstop := h.stop_le first (by rw [hpending]; exact List.mem_cons_self)
      exact Nat.le_trans (Nat.le_add_right _ _) hstop

theorem stored_le_offset (h : s.Consistent bytes) {m : PendingMerge} (hm : m ∈ s.pending) :
    s.storageLength ≤ m.offset :=
  Nat.le_trans h.stored_le (h.limit_le_offset hm)

theorem stored_le_length (h : s.Consistent bytes) : s.storageLength ≤ s.length :=
  Nat.le_trans h.stored_le h.limit_le_length

end Consistent

theorem limit_of_nil {s : Segment} (h : s.pending = []) : s.limit = s.length := by
  unfold limit
  rw [h]
  rfl

theorem limit_of_cons {s : Segment} {m : PendingMerge} {rest : List PendingMerge}
    (h : s.pending = m :: rest) : s.limit = m.offset := by
  unfold limit
  rw [h]
  rfl

end Segment

/-- The range is that of a merged batch, and its bytes are the content of the batch. -/
def PendingMerge.Backed (content : Contents) (table : Table) (parent : SegmentId)
    (m : PendingMerge) : Prop :=
  ∃ b, table.get? m.batch = some b ∧ b.parent = some parent ∧ b.merged = true ∧
    b.length = m.length ∧ Bytes.slice (content parent) m.offset m.length = content m.batch

namespace PendingMerge.Backed

variable {content content' : Contents} {table : Table} {id parent : SegmentId} {s : Segment}
  {m : PendingMerge}

theorem of_other (h : m.Backed content table parent) (hs : table.get? id = some s)
    (hother : ∀ other, other ≠ id → content' other = content other)
    (hmerged : s.merged = true → content' id = content id) (hne : parent ≠ id) :
    m.Backed content' table parent := by
  rcases h with ⟨b, hb, hparent, hmark, hlength, hslice⟩
  have hbatch : content' m.batch = content m.batch := by
    by_cases heq : m.batch = id
    · rw [heq, hs] at hb
      cases hb
      rw [heq]
      exact hmerged hmark
    · exact hother _ heq
  refine ⟨b, hb, hparent, hmark, hlength, ?_⟩
  rw [hother parent hne, hbatch]
  exact hslice

theorem modify (h : m.Backed content table parent) (hs : table.get? id = some s)
    {change : Segment → Segment} (hparent : (change s).parent = s.parent)
    (hmerged : s.merged = true → (change s).merged = true ∧ (change s).length = s.length) :
    m.Backed content (table.modify id change) parent := by
  rcases h with ⟨b, hb, hbparent, hmark, hlength, hslice⟩
  by_cases hbatch : m.batch = id
  · rw [hbatch, hs] at hb
    cases hb
    rcases hmerged hmark with ⟨hmark', hlength'⟩
    refine ⟨change s, ?_, hparent.trans hbparent, hmark', hlength'.trans hlength, hslice⟩
    rw [hbatch, Table.get?_modify_self, hs]
    rfl
  · refine ⟨b, ?_, hbparent, hmark, hlength, hslice⟩
    rw [Table.get?_modify_of_ne table hbatch]
    exact hb

end PendingMerge.Backed

/-- The table describes these contents. -/
structure Table.Consistent (content : Contents) (table : Table) : Prop where
  id_eq : ∀ {id s}, table.get? id = some s → s.id = id
  id_lt : ∀ {id s}, table.get? id = some s → id < table.nextId
  fresh : ∀ {id}, table.nextId ≤ id → content id = []
  segment : ∀ {id s}, table.get? id = some s → s.Consistent (content id)
  backed : ∀ {id s}, table.get? id = some s → ∀ m ∈ s.pending, m.Backed content table id
  parent : ∀ {id b p}, table.get? id = some b → b.parent = some p →
    ∃ s, table.get? p = some s ∧ s.parent = none

namespace Table.Consistent

variable {table : Table} {content content' : Contents} {id : SegmentId} {s : Segment}

theorem empty : Table.Consistent Contents.empty {} where
  id_eq := fun h => nomatch h
  id_lt := fun h => nomatch h
  fresh := fun _ => rfl
  segment := fun h => nomatch h
  backed := fun h => nomatch h
  parent := fun h => nomatch h

theorem pending_of_parent (h : table.Consistent content) (hs : table.get? id = some s)
    {p : SegmentId} (hparent : s.parent = some p) : s.pending = [] := by
  cases hpending : s.pending with
  | nil => rfl
  | cons m rest =>
      rcases h.backed hs m (by rw [hpending]; exact List.mem_cons_self) with
        ⟨b, hb, hbparent, -⟩
      rcases h.parent hb hbparent with ⟨s', hs', hnone⟩
      rw [hs] at hs'
      cases hs'
      rw [hparent] at hnone
      cases hnone

theorem parent_ne (h : table.Consistent content) (hs : table.get? id = some s) {p : SegmentId}
    (hparent : s.parent = some p) : p ≠ id := by
  intro heq
  rcases h.parent hs hparent with ⟨s', hs', hnone⟩
  rw [heq, hs] at hs'
  cases hs'
  rw [hparent] at hnone
  cases hnone

theorem batch_ne (h : table.Consistent content) {m : PendingMerge}
    (hm : m.Backed content' table id) : m.batch ≠ id := by
  rcases hm with ⟨b, hb, hparent, -⟩
  exact (h.parent_ne hb hparent).symm

/-!
## Changing a segment
-/

theorem backed_grow (h : table.Consistent content) (hs : table.get? id = some s)
    (hother : ∀ other, other ≠ id → content' other = content other)
    (hgrow : content id <+: content' id) {m : PendingMerge} (hm : m ∈ s.pending) :
    m.Backed content' table id := by
  have hbacked := h.backed hs m hm
  have hne := h.batch_ne hbacked
  have hstop : m.offset + m.length ≤ (content id).length := by
    rw [← (h.segment hs).length_eq]
    exact (h.segment hs).stop_le m hm
  rcases hbacked with ⟨b, hb, hparent, hmerged, hlength, hslice⟩
  refine ⟨b, hb, hparent, hmerged, hlength, ?_⟩
  rw [hother _ hne, ← hslice, Bytes.slice_of_prefix hgrow hstop]

/--
Changing one segment keeps a table consistent if the changed segment fits its
content, stays what it was to others, and all its new merges are backed.
-/
theorem modify (h : table.Consistent content) (hs : table.get? id = some s)
    {change : Segment → Segment} (hother : ∀ other, other ≠ id → content' other = content other)
    (hgrow : content id <+: content' id) (hsegment : (change s).Consistent (content' id))
    (hid : (change s).id = s.id) (hparent : (change s).parent = s.parent)
    (hmerged : s.merged = true →
      (change s).merged = true ∧ (change s).length = s.length ∧ content' id = content id)
    (hpending : ∀ m ∈ (change s).pending, m ∈ s.pending ∨ m.Backed content' table id) :
    (table.modify id change).Consistent content' := by
  refine { id_eq := ?_, id_lt := ?_, fresh := ?_, segment := ?_, backed := ?_, parent := ?_ }
  · intro other t ht
    rcases changed_or_kept hs ht with ⟨rfl, rfl⟩ | ⟨-, hold⟩
    · rw [hid]
      exact h.id_eq hs
    · exact h.id_eq hold
  · intro other t ht
    rcases get?_of_get?_modify ht with ⟨t', ht', -⟩
    exact h.id_lt ht'
  · intro other hle
    have hne : other ≠ id := by
      intro heq
      rw [heq] at hle
      exact absurd (h.id_lt hs) (Nat.not_lt.mpr hle)
    rw [hother other hne]
    exact h.fresh hle
  · intro other t ht
    rcases changed_or_kept hs ht with ⟨rfl, rfl⟩ | ⟨hne, hold⟩
    · exact hsegment
    · rw [hother other hne]
      exact h.segment hold
  · intro other t ht m hm
    -- first the new contents, then the new table
    have hbacked : m.Backed content' table other := by
      rcases changed_or_kept hs ht with ⟨rfl, rfl⟩ | ⟨hne, hold⟩
      · rcases hpending m hm with hold | hnew
        · exact h.backed_grow hs hother hgrow hold
        · exact hnew
      · exact (h.backed hold m hm).of_other hs hother (fun hmark => (hmerged hmark).2.2) hne
    exact hbacked.modify hs hparent fun hmark => ⟨(hmerged hmark).1, (hmerged hmark).2.1⟩
  · intro other b p hb hbparent
    have hold : ∃ b', table.get? other = some b' ∧ b'.parent = some p := by
      rcases changed_or_kept hs hb with ⟨rfl, rfl⟩ | ⟨-, hold⟩
      · exact ⟨s, hs, hparent.symm.trans hbparent⟩
      · exact ⟨b, hold, hbparent⟩
    rcases hold with ⟨b', hb', hbparent'⟩
    rcases h.parent hb' hbparent' with ⟨t, ht, hnone⟩
    by_cases hp : p = id
    · subst hp
      cases Option.some.inj (hs.symm.trans ht)
      refine ⟨change s, ?_, hparent.trans hnone⟩
      rw [get?_modify_self, hs]
      rfl
    · refine ⟨t, ?_, hnone⟩
      rw [get?_modify_of_ne table hp]
      exact ht

theorem add (h : table.Consistent content) (hfresh : table.nextId ≤ s.id)
    (hsegment : s.Consistent []) (hpending : s.pending = [])
    (hparent : ∀ p, s.parent = some p → ∃ t, table.get? p = some t ∧ t.parent = none) :
    (table.add s).Consistent content := by
  have hself : (table.add s).get? s.id = some s := get?_add_self table s
  have hold : ∀ {other t}, table.get? other = some t → (table.add s).get? other = some t := by
    intro other t ht
    have hne : other ≠ s.id := by
      intro heq
      rw [heq] at ht
      exact absurd (h.id_lt ht) (Nat.not_lt.mpr hfresh)
    rw [get?_add_of_ne table hne]
    exact ht
  have hcases : ∀ {other t}, (table.add s).get? other = some t →
      other = s.id ∧ t = s ∨ table.get? other = some t := by
    intro other t ht
    by_cases hne : other = s.id
    · rw [hne, hself] at ht
      cases ht
      exact Or.inl ⟨hne, rfl⟩
    · rw [get?_add_of_ne table hne] at ht
      exact Or.inr ht
  refine { id_eq := ?_, id_lt := ?_, fresh := ?_, segment := ?_, backed := ?_, parent := ?_ }
  · intro other t ht
    rcases hcases ht with hnew | ht
    · rw [hnew.1, hnew.2]
    · exact h.id_eq ht
  · intro other t ht
    rcases hcases ht with hnew | ht
    · rw [hnew.1]
      exact Nat.lt_of_lt_of_le (Nat.lt_succ_self _) (Nat.le_max_right _ _)
    · exact Nat.lt_of_lt_of_le (h.id_lt ht) (Nat.le_max_left _ _)
  · intro other hle
    exact h.fresh (Nat.le_trans (Nat.le_max_left _ _) hle)
  · intro other t ht
    rcases hcases ht with hnew | ht
    · rw [hnew.1, hnew.2, h.fresh hfresh]
      exact hsegment
    · exact h.segment ht
  · intro other t ht m hm
    rcases hcases ht with hnew | ht
    · rw [hnew.2, hpending] at hm
      cases hm
    · rcases h.backed ht m hm with ⟨b, hb, hfacts⟩
      exact ⟨b, hold hb, hfacts⟩
  · intro other b p hb hbparent
    rcases hcases hb with hnew | hb
    · rw [hnew.2] at hbparent
      rcases hparent p hbparent with ⟨t, ht, hnone⟩
      exact ⟨t, hold ht, hnone⟩
    · rcases h.parent hb hbparent with ⟨t, ht, hnone⟩
      exact ⟨t, hold ht, hnone⟩

theorem without (h : table.Consistent content) (hs : table.get? id = some s) {p : SegmentId}
    (hparent : s.parent = some p)
    (hunused : ∀ {other t}, table.get? other = some t → ∀ m ∈ t.pending, m.batch ≠ id) :
    (table.without id).Consistent content := by
  have hold : ∀ {other t}, (table.without id).get? other = some t →
      other ≠ id ∧ table.get? other = some t := by
    intro other t ht
    by_cases hne : other = id
    · rw [hne, get?_without_self] at ht
      cases ht
    · rw [get?_without_of_ne table hne] at ht
      exact ⟨hne, ht⟩
  refine { id_eq := fun ht => h.id_eq (hold ht).2, id_lt := fun ht => h.id_lt (hold ht).2,
           fresh := h.fresh, segment := fun ht => h.segment (hold ht).2, backed := ?_,
           parent := ?_ }
  · intro other t ht m hm
    rcases h.backed (hold ht).2 m hm with ⟨b, hb, hfacts⟩
    have hne := hunused (hold ht).2 m hm
    exact ⟨b, by rw [get?_without_of_ne table hne]; exact hb, hfacts⟩
  · intro other b q hb hbparent
    rcases h.parent (hold hb).2 hbparent with ⟨t, ht, hnone⟩
    have hne : q ≠ id := by
      intro heq
      rw [heq, hs] at ht
      cases ht
      rw [hparent] at hnone
      cases hnone
    exact ⟨t, by rw [get?_without_of_ne table hne]; exact ht, hnone⟩

end Table.Consistent
end TieredStore
