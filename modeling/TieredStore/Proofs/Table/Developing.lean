import Mathlib.Data.List.Nodup
import TieredStore.Proofs.Table.Advances

/-!
# How tables develop

While a store is open its table develops: operations are applied, and flushes make notes.
A segment that is no batch stays and keeps its name, and the tier holds no less of it.
A batch stays as well, until the tier has joined it to its parent; then its bytes are
those of a stretch of the parent that the tier holds.  Each pending merge stays or is
finished in the same way.  New segments have new ids.  As long as none of them is called
like a batch that was there, no other segment gets the name of one.
-/

namespace TieredStore

namespace Table

/-- The pending merge is finished: the tier holds the parent beyond it, and the batch is gone. -/
def Finished (table : Table) (parent : Segment) (m : PendingMerge) : Prop :=
  m.stop ≤ parent.storageLength ∧ table.get? m.batch = none

/-- The batch is gone, and its bytes are a stretch of its parent, which the tier holds. -/
def Absorbed (content : Contents) (table : Table) (batch parent : SegmentId) : Prop :=
  table.get? batch = none ∧ ∃ s start, table.get? parent = some s ∧ s.parent = none ∧
    start + (content batch).length ≤ s.storageLength ∧
    Bytes.slice (content parent) start (content batch).length = content batch

structure Develops (content grown : Contents) (before after : Table) : Prop where
  advances : before.Advances after
  grows : ∀ id, content id <+: grown id
  frozen : ∀ {id}, before.get? id = none → id < before.nextId → grown id = content id
  root : ∀ {id s}, before.get? id = some s → s.parent = none →
    ∃ t, after.get? id = some t ∧ s.Becomes t ∧
      ∀ m ∈ s.pending, m ∈ t.pending ∨ after.Finished t m
  batch : ∀ {id s p}, before.get? id = some s → s.parent = some p →
    (∃ t, after.get? id = some t ∧ s.Becomes t) ∨ after.Absorbed grown id p

/-- No segment that has been created since has the name of a batch that was there before. -/
def SparesBatches (before after : Table) : Prop :=
  ∀ t ∈ after.list, before.nextId ≤ t.id → ∀ b ∈ before.list, b.isBatch = true → t.name ≠ b.name

instance (before after : Table) : Decidable (before.SparesBatches after) :=
  inferInstanceAs (Decidable (∀ t ∈ after.list, before.nextId ≤ t.id →
    ∀ b ∈ before.list, b.isBatch = true → t.name ≠ b.name))

variable {content grown last : Contents} {before middle after : Table}
  {id parent : SegmentId} {s : Segment}

namespace Develops

theorem refl (content : Contents) (table : Table) : table.Develops content content table where
  advances := .refl table
  grows := fun _ => List.prefix_rfl
  frozen := fun _ _ => rfl
  root := fun hs _ => ⟨_, hs, .refl _, fun _ hm => Or.inl hm⟩
  batch := fun hs _ => Or.inl ⟨_, hs, .refl _⟩

theorem absorbed (h : middle.Develops grown last after) (hmiddle : middle.Consistent grown)
    {batch : SegmentId} (hlt : batch < middle.nextId)
    (habsorbed : middle.Absorbed grown batch parent) : after.Absorbed last batch parent := by
  rcases habsorbed with ⟨hnone, s, start, hs, hroot, hstop, hslice⟩
  have hsame := h.frozen hnone hlt
  rcases h.root hs hroot with ⟨t, ht, hbecomes, -⟩
  have hlength := (hmiddle.segment hs).length_eq
  have hstored := (hmiddle.segment hs).stored_le_length
  refine ⟨h.advances.gone hnone hlt, t, start, ht, hbecomes.parent_eq.trans hroot, ?_, ?_⟩
  · rw [hsame]
    exact Nat.le_trans hstop hbecomes.stored_le
  · rw [hsame, ← Bytes.slice_of_prefix (h.grows parent)]
    · exact hslice
    · omega

theorem trans (h : before.Develops content grown middle)
    (hafter : middle.Develops grown last after) (hbefore : before.Consistent content)
    (hmiddle : middle.Consistent grown) : before.Develops content last after where
  advances := h.advances.trans hafter.advances
  grows := fun id => (h.grows id).trans (hafter.grows id)
  frozen := by
    intro id hnone hlt
    have hgone := h.advances.gone hnone hlt
    have hlt' := Nat.lt_of_lt_of_le hlt h.advances.nextId_le
    exact (hafter.frozen hgone hlt').trans (h.frozen hnone hlt)
  root := by
    intro id s hs hroot
    rcases h.root hs hroot with ⟨r, hr, hbecomes, hmerges⟩
    rcases hafter.root hr (hbecomes.parent_eq.trans hroot) with ⟨t, ht, hbecomes', hmerges'⟩
    refine ⟨t, ht, hbecomes.trans hbecomes', ?_⟩
    intro m hm
    rcases hmerges m hm with hpending | ⟨hstop, hnone⟩
    · exact hmerges' m hpending
    · rcases hbefore.backed hs m hm with ⟨b, hb, -⟩
      have hlt := Nat.lt_of_lt_of_le (hbefore.id_lt hb) h.advances.nextId_le
      exact Or.inr ⟨Nat.le_trans hstop hbecomes'.stored_le, hafter.advances.gone hnone hlt⟩
  batch := by
    intro id s p hs hparent
    rcases h.batch hs hparent with ⟨r, hr, hbecomes⟩ | habsorbed
    · rcases hafter.batch hr (hbecomes.parent_eq.trans hparent) with ⟨t, ht, hbecomes'⟩ | habsorbed
      · exact Or.inl ⟨t, ht, hbecomes.trans hbecomes'⟩
      · exact Or.inr habsorbed
    · have hlt := Nat.lt_of_lt_of_le (hbefore.id_lt hs) h.advances.nextId_le
      exact Or.inr (hafter.absorbed hmiddle hlt habsorbed)

/-- A segment is left, or it was a batch, and its parent has absorbed it. -/
theorem left_or_absorbed (h : before.Develops content grown after)
    (hs : before.get? id = some s) :
    (∃ t, after.get? id = some t ∧ s.Becomes t) ∨
      ∃ p, s.parent = some p ∧ after.Absorbed grown id p := by
  cases hparent : s.parent with
  | none =>
      rcases h.root hs hparent with ⟨t, ht, hbecomes, -⟩
      exact Or.inl ⟨t, ht, hbecomes⟩
  | some p => exact (h.batch hs hparent).imp_right fun habsorbed => ⟨p, rfl, habsorbed⟩

theorem id_of_name (h : before.Develops content grown after) (hwf : before.WellFormed)
    (hafter : after.Consistent grown) (hspares : before.SparesBatches after)
    (hs : before.get? id = some s) (hparent : s.parent = some parent) {other : SegmentId}
    {t : Segment} (ht : after.get? other = some t) (hname : t.name = s.name) : other = id := by
  rcases Nat.lt_or_ge other before.nextId with hlt | hge
  · rcases h.advances.kept ht hlt with ⟨r, hr, hbecomes⟩
    exact hwf.name_inj hr hs (hbecomes.name_eq.symm.trans hname)
  · have hbatch : s.isBatch = true := by rw [Segment.isBatch, hparent]; rfl
    rw [← hafter.id_eq ht] at hge
    exact absurd hname
      (hspares t (mem_list.mpr ⟨other, ht⟩) hge s (mem_list.mpr ⟨id, hs⟩) hbatch)

end Develops

/-! ## Bookkeeping -/

namespace Bookkept

variable {table : Table} {m : PendingMerge}

private theorem ne_of_pending (h : table.Bookkept middle) (htable : table.Consistent content)
    (hs : table.get? id = some s) (hroot : s.parent = none) {p : SegmentId} {sp : Segment}
    (hsp : middle.get? p = some sp) (hm : m ∈ sp.pending) : m.batch ≠ id := by
  intro heq
  rcases h.kept hsp with ⟨sp', hsp', -, hpending, -⟩
  rcases htable.backed hsp' m (hpending.subset hm) with ⟨b, hb, hparent, -⟩
  rw [heq, hs] at hb
  cases hb
  rw [hroot] at hparent
  cases hparent

private theorem merge_eq (h : table.Bookkept middle) (htable : table.Consistent content)
    (hs : middle.get? id = some s) {m' : PendingMerge} (hm : m ∈ s.pending) (hm' : m' ∈ s.pending)
    (heq : m.batch = m'.batch) : m = m' := by
  rcases h.kept hs with ⟨s', hs', -, hpending, -⟩
  have hdistinct := (htable.segment hs').distinct.sublist (hpending.map _)
  exact List.inj_on_of_nodup_map hdistinct hm hm' heq

private theorem finished_later {r t : Segment} (h : middle.Finished r m) (hbecomes : r.Becomes t)
    (hnone : ∀ {other}, middle.get? other = none → after.get? other = none) :
    after.Finished t m :=
  ⟨Nat.le_trans h.1 hbecomes.stored_le, hnone h.2⟩

private theorem stored_root {r : Segment} (hr : middle.get? id = some r) (other : SegmentId)
    (length : Nat) :
    ∃ t, (middle.setStorageLength other length).get? id = some t ∧ r.Becomes t ∧
      t.pending = r.pending := by
  by_cases hother : id = other
  · subst hother
    exact ⟨_, get?_setStorageLength_self hr length,
      .noted r (Nat.le_max_left _ _) fun _ hm => Or.inl hm, rfl⟩
  · rw [get?_setStorageLength_of_ne hother]
    exact ⟨r, hr, .refl r, rfl⟩

private theorem finished_root (before : table.Bookkept middle) (htable : table.Consistent content)
    (hs : table.get? id = some s) (hroot : s.parent = none) {p batch : SegmentId}
    {done : PendingMerge} (completed : middle.completeMerge? p batch = some (done, after))
    {r : Segment} (hr : middle.get? id = some r) :
    ∃ t, after.get? id = some t ∧ r.Becomes t ∧
      ∀ m ∈ r.pending, m ∈ t.pending ∨ after.Finished t m := by
  rcases completeMerge?_eq_some_iff.mp completed with ⟨sp, hsp, hfind, heq⟩
  have hdone : done ∈ sp.pending := List.mem_of_find?_eq_some hfind
  have hfound : done.batch = batch := by simpa using List.find?_some hfind
  have hbatch : batch ≠ id := by
    rw [← hfound]
    exact before.ne_of_pending htable hs hroot hsp hdone
  have hp : p ≠ batch := by
    intro hsame
    rcases before.kept hsp with ⟨sp', hsp', -, hpending, -⟩
    exact htable.batch_ne (htable.backed hsp' done (hpending.subset hdone)) (hfound.trans hsame.symm)
  have hfinishing := finishing_modify hsp hp done.stop
  rw [← heq] at hfinishing
  by_cases hparent : id = p
  · subst hparent
    obtain rfl : r = sp := Option.some.inj (hr.symm.trans hsp)
    have hmerges : ∀ m ∈ r.pending, m ∈ (r.finishing batch done.stop).pending ∨
        after.Finished (r.finishing batch done.stop) m := by
      intro m hm
      by_cases heq : m.batch = batch
      · cases before.merge_eq htable hr hm hdone (heq.trans hfound.symm)
        exact Or.inr ⟨Nat.le_max_right _ _, by rw [heq]; exact hfinishing.gone⟩
      · exact Or.inl ((List.mem_eraseP_of_neg (by simpa using heq)).mpr hm)
    exact ⟨_, hfinishing.finished,
      .noted r (Nat.le_max_left _ _) fun m hm => (hmerges m hm).imp_right And.left, hmerges⟩
  · exact ⟨r, (hfinishing.rest hparent hbatch.symm).trans hr, .refl r, fun _ hm => Or.inl hm⟩

theorem root (h : table.Bookkept after) (htable : table.Consistent content)
    (hs : table.get? id = some s) (hroot : s.parent = none) :
    ∃ t, after.get? id = some t ∧ s.Becomes t ∧
      ∀ m ∈ s.pending, m ∈ t.pending ∨ after.Finished t m := by
  induction h with
  | refl => exact ⟨s, hs, .refl s, fun _ hm => Or.inl hm⟩
  | @stored middle before other length ih =>
      rcases ih with ⟨r, hr, hbecomes, hmerges⟩
      rcases stored_root hr other length with ⟨t, ht, hnext, hpending⟩
      refine ⟨t, ht, hbecomes.trans hnext, fun m hm => ?_⟩
      rcases hmerges m hm with hmem | hfinished
      · exact Or.inl (hpending ▸ hmem)
      · exact Or.inr (finished_later hfinished hnext
          fun hnone => Bookkept.get?_eq_none (.stored .refl other length) hnone)
  | @finished middle after p batch done before completed ih =>
      rcases ih with ⟨r, hr, hbecomes, hmerges⟩
      rcases finished_root before htable hs hroot completed hr with ⟨t, ht, hnext, hpending⟩
      refine ⟨t, ht, hbecomes.trans hnext, fun m hm => ?_⟩
      rcases hmerges m hm with hmem | hfinished
      · exact hpending m hmem
      · exact Or.inr (finished_later hfinished hnext
          fun hnone => Bookkept.get?_eq_none (.finished .refl completed) hnone)

theorem batch (h : table.Bookkept after) (htable : table.Consistent content)
    (hafter : after.Consistent content) (hs : table.get? id = some s)
    (hparent : s.parent = some parent) :
    (∃ t, after.get? id = some t ∧ s.Becomes t) ∨ after.Absorbed content id parent := by
  cases hget : after.get? id with
  | some t => exact Or.inl ⟨t, rfl, h.advances.becomes hs (htable.id_lt hs) hget⟩
  | none =>
      rcases h.gone hs hget with ⟨p, sp, m, hsp, hm, rfl⟩
      rcases htable.backed hsp m hm with ⟨b, hb, hbparent, -, hlength, hslice⟩
      rw [hs] at hb
      cases hb
      rw [hparent] at hbparent
      cases hbparent
      rcases htable.parent hs hparent with ⟨sp', hsp', hroot⟩
      rw [hsp] at hsp'
      cases hsp'
      rw [(htable.segment hs).length_eq] at hlength
      rcases h.root htable hsp hroot with ⟨t, ht, hbecomes, hmerges⟩
      rcases hmerges m hm with hpending | ⟨hstop, -⟩
      · -- a merge that is still pending would have its batch
        rcases hafter.backed ht m hpending with ⟨b, hb, -⟩
        rw [hget] at hb
        cases hb
      · right
        refine ⟨hget, t, m.offset, ht, hbecomes.parent_eq.trans hroot, ?_, ?_⟩
        · rw [hlength]
          exact hstop
        · rw [hlength]
          exact hslice

theorem develops (h : table.Bookkept after) (htable : table.Consistent content)
    (hafter : after.Consistent content) : table.Develops content content after where
  advances := h.advances
  grows := fun _ => List.prefix_rfl
  frozen := fun _ _ => rfl
  root := fun hs hroot => h.root htable hs hroot
  batch := fun hs hparent => h.batch htable hafter hs hparent

end Bookkept

/-! ## Operations -/

section Operations

variable {table : Table} {op : Operation} {t : Segment}

theorem modify_kept {change : Segment → Segment} (hs : table.get? id = some s)
    (hpending : ∀ (s : Segment), ∀ m ∈ s.pending, m ∈ (change s).pending) (other : SegmentId) :
    ∃ t, (table.modify other change).get? id = some t ∧ ∀ m ∈ s.pending, m ∈ t.pending := by
  by_cases hother : id = other
  · refine ⟨change s, ?_, hpending s⟩
    rw [← hother, get?_modify_self, hs]
    rfl
  · refine ⟨s, ?_, fun _ hm => hm⟩
    rw [get?_modify_of_ne table hother]
    exact hs

theorem add_kept (hs : table.get? id = some s) (hlt : id < table.nextId) (new : Segment)
    (hfresh : table.nextId ≤ new.id) :
    ∃ t, (table.add new).get? id = some t ∧ ∀ m ∈ s.pending, m ∈ t.pending := by
  refine ⟨s, ?_, fun _ hm => hm⟩
  rw [get?_add_of_ne table (Nat.ne_of_lt (Nat.lt_of_lt_of_le hlt hfresh))]
  exact hs

theorem Consistent.perform_kept (htable : table.Consistent content) (hop : op.Regular content table)
    (hcheckpoint : op.isCheckpoint = false) (hs : table.get? id = some s) :
    ∃ t, (table.perform op).get? id = some t ∧ ∀ m ∈ s.pending, m ∈ t.pending := by
  cases op with
  | append segment offset client event data =>
      refine modify_kept hs ?_ segment
      exact fun _ _ hm => hm
  | «seal» segment length =>
      refine modify_kept hs ?_ segment
      exact fun _ _ hm => hm
  | merge parent batch length offset =>
      have hmarked : ∃ r, (table.modify batch ({ · with merged := true })).get? id = some r ∧
          ∀ m ∈ s.pending, m ∈ r.pending := by
        refine modify_kept hs ?_ batch
        exact fun _ _ hm => hm
      rcases hmarked with ⟨r, hr, hmerges⟩
      have hgrown : ∃ t, (table.perform (.merge parent batch length offset)).get? id = some t ∧
          ∀ m ∈ r.pending, m ∈ t.pending := by
        refine modify_kept hr ?_ parent
        exact fun _ _ hm => List.mem_append_left _ hm
      rcases hgrown with ⟨t, ht, hmerges'⟩
      exact ⟨t, ht, fun m hm => hmerges' m (hmerges m hm)⟩
  | checkpoint snapshot => cases hcheckpoint
  | create segment name => exact add_kept hs (htable.id_lt hs) _ (hop.fresh segment rfl)
  | createBatch batch name parent => exact add_kept hs (htable.id_lt hs) _ (hop.fresh batch rfl)
  | truncate segment offset =>
      refine modify_kept hs ?_ segment
      exact fun _ _ hm => hm

theorem after_eq_of_gone (hfits : op.Fits table) (hnone : table.get? id = none) :
    content.after op id = content id := by
  cases op with
  | append segment offset client event data =>
      rcases hfits with ⟨s, hs, -⟩
      refine Contents.append_of_ne ?_
      rintro rfl
      rw [hnone] at hs
      cases hs
  | merge parent batch length offset =>
      rcases hfits with ⟨s, b, hs, -⟩
      refine Contents.append_of_ne ?_
      rintro rfl
      rw [hnone] at hs
      cases hs
  | _ => rfl

theorem Consistent.perform_develops (htable : table.Consistent content)
    (hop : op.Regular content table) (hcheckpoint : op.isCheckpoint = false) :
    table.Develops content (content.after op) (table.perform op) where
  advances := .perform hop hcheckpoint
  grows := content.prefix_after op
  frozen := fun hnone _ => after_eq_of_gone hop.fits hnone
  root := by
    intro id s hs _
    rcases htable.perform_kept hop hcheckpoint hs with ⟨t, ht, hmerges⟩
    have hbecomes := (Advances.perform hop hcheckpoint).becomes hs (htable.id_lt hs) ht
    exact ⟨t, ht, hbecomes, fun m hm => Or.inl (hmerges m hm)⟩
  batch := by
    intro id s p hs _
    rcases htable.perform_kept hop hcheckpoint hs with ⟨t, ht, -⟩
    exact Or.inl ⟨t, ht, (Advances.perform hop hcheckpoint).becomes hs (htable.id_lt hs) ht⟩

end Operations
end Table
end TieredStore
