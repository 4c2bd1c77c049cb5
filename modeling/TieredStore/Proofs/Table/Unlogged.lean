import TieredStore.Proofs.Table.Consistent

/-!
# Changes that are not logged

Two changes of a table leave the contents as they are: the tier holds more of a
segment, or it has joined the batch of a first pending merge to its parent.  Both
keep the table consistent.
-/

namespace TieredStore

/-- A parent without its first pending merge, which the tier now holds. -/
def Segment.joined (s : Segment) (m : PendingMerge) : Segment :=
  { s with pending := s.pending.tail, storageLength := max s.storageLength m.stop }

theorem Segment.Consistent.joined {s : Segment} {bytes : Bytes} (h : s.Consistent bytes)
    {m : PendingMerge} {rest : List PendingMerge} (hpending : s.pending = m :: rest) :
    (s.joined m).Consistent bytes := by
  have hstop := h.stop_le m (by rw [hpending]; exact List.mem_cons_self)
  have hstored := h.stored_le
  have hrow := h.row
  have hdistinct := h.distinct
  rw [Segment.limit_of_cons hpending] at hstored
  rw [hpending] at hrow hdistinct
  refine { length_eq := h.length_eq, start_le := h.start_le, stored_le := ?_, row := ?_,
           stop_le := ?_, distinct := ?_ }
  · have hle : max s.storageLength m.stop ≤ m.stop :=
      Nat.max_le.mpr ⟨Nat.le_trans hstored (Nat.le_add_right _ _), Nat.le_refl _⟩
    refine Nat.le_trans hle ?_
    unfold Segment.limit Segment.joined
    simp only [hpending, List.tail_cons]
    cases rest with
    | nil => exact hstop
    | cons next more => exact (List.pairwise_cons.mp hrow).1 next List.mem_cons_self
  · unfold Segment.joined
    simp only [hpending, List.tail_cons]
    exact (List.pairwise_cons.mp hrow).2
  · intro m' hm'
    exact h.stop_le m' (List.mem_of_mem_tail hm')
  · unfold Segment.joined
    simp only [hpending, List.tail_cons]
    exact (List.nodup_cons.mp hdistinct).2

namespace Table

variable {table : Table} {content : Contents} {id parent : SegmentId} {s : Segment}
  {m : PendingMerge} {rest : List PendingMerge}

theorem modify_of_none (h : table.get? id = none) (change : Segment → Segment) :
    table.modify id change = table := by
  have hget : table.segments.get? id = none := h
  unfold modify SortedMap.modify
  rw [hget]

theorem modify_congr (hs : table.get? id = some s) {change other : Segment → Segment}
    (h : change s = other s) : table.modify id change = table.modify id other := by
  have hget : table.segments.get? id = some s := hs
  unfold modify SortedMap.modify
  rw [hget]
  simp only [h]

/-!
## What the tier holds
-/

theorem get?_setStorageLength_self (hs : table.get? id = some s) (length : Nat) :
    (table.setStorageLength id length).get? id =
      some { s with storageLength := max s.storageLength (min length s.length) } := by
  unfold setStorageLength
  rw [get?_modify_self, hs]
  rfl

theorem get?_setStorageLength_of_ne {other : SegmentId} (hne : other ≠ id) (length : Nat) :
    (table.setStorageLength id length).get? other = table.get? other :=
  get?_modify_of_ne table hne _

theorem Consistent.setStorageLength (h : table.Consistent content) {length : Nat}
    (hle : ∀ s, table.get? id = some s → length ≤ s.limit) :
    (table.setStorageLength id length).Consistent content := by
  unfold Table.setStorageLength
  cases hs : table.get? id with
  | none =>
      rw [modify_of_none hs]
      exact h
  | some s =>
      have hsegment := h.segment hs
      refine h.modify hs (fun _ _ => rfl) List.prefix_rfl ?_ rfl rfl
        (fun hmerged => ⟨hmerged, rfl, rfl⟩) (fun m hm => Or.inl hm)
      refine { hsegment with stored_le := ?_ }
      refine Nat.max_le.mpr ⟨hsegment.stored_le, ?_⟩
      exact Nat.le_trans (Nat.min_le_left _ _) (hle s hs)

/-!
## Finished merges
-/

def joined (table : Table) (parent : SegmentId) (m : PendingMerge) : Table :=
  (table.modify parent (·.joined m)).without m.batch

theorem completeMerge?_eq (hs : table.get? parent = some s) (hpending : s.pending = m :: rest) :
    table.completeMerge? parent m.batch = some (m, table.joined parent m) := by
  have hfind : s.pending.find? (fun x => decide (x.batch = m.batch)) = some m := by
    rw [hpending, List.find?_cons_of_pos (by simp)]
  unfold completeMerge?
  rw [hs]
  simp only [Option.bind_eq_bind, Option.bind_some, hfind]
  unfold Table.joined without
  congr 2
  rw [modify_congr hs]
  simp [Segment.joined, hpending]

theorem get?_joined_batch : (table.joined parent m).get? m.batch = none :=
  get?_without_self _ _

theorem get?_joined_parent (hs : table.get? parent = some s) (hne : parent ≠ m.batch) :
    (table.joined parent m).get? parent = some (s.joined m) := by
  unfold joined
  rw [get?_without_of_ne _ hne, get?_modify_self, hs]
  rfl

theorem get?_joined_of_ne {other : SegmentId} (hparent : other ≠ parent)
    (hbatch : other ≠ m.batch) : (table.joined parent m).get? other = table.get? other := by
  unfold joined
  rw [get?_without_of_ne _ hbatch, get?_modify_of_ne _ hparent]

theorem get?_joined_eq_none_iff {other : SegmentId} (hs : table.get? parent = some s)
    (hne : parent ≠ m.batch) :
    (table.joined parent m).get? other = none ↔ other = m.batch ∨ table.get? other = none := by
  by_cases hbatch : other = m.batch
  · rw [hbatch]
    exact iff_of_true get?_joined_batch (Or.inl rfl)
  · rw [or_iff_right hbatch]
    by_cases hparent : other = parent
    · rw [hparent, get?_joined_parent hs hne, hs]
      exact iff_of_false nofun nofun
    · rw [get?_joined_of_ne hparent hbatch]

theorem get?_of_get?_joined {other : SegmentId} {t : Segment}
    (ht : (table.joined parent m).get? other = some t) :
    other ≠ m.batch ∧ ∃ s, table.get? other = some s ∧
      (other ≠ parent ∧ t = s ∨ other = parent ∧ t = s.joined m) := by
  have hbatch : other ≠ m.batch := by
    intro heq
    rw [heq, get?_joined_batch] at ht
    cases ht
  refine ⟨hbatch, ?_⟩
  unfold joined at ht
  rw [get?_without_of_ne _ hbatch] at ht
  exact get?_of_get?_modify ht

theorem joined_or_kept {other : SegmentId} {s t : Segment} (hs : table.get? parent = some s)
    (ht : (table.joined parent m).get? other = some t) :
    other ≠ m.batch ∧
      (other = parent ∧ t = s.joined m ∨ other ≠ parent ∧ table.get? other = some t) := by
  rcases get?_of_get?_joined ht with ⟨hbatch, t', ht', hold | hself⟩
  · rw [← hold.2] at ht'
    exact ⟨hbatch, Or.inr ⟨hold.1, ht'⟩⟩
  · rw [hself.1, hs] at ht'
    cases ht'
    exact ⟨hbatch, Or.inl hself⟩

theorem Consistent.joined (h : table.Consistent content) (hs : table.get? parent = some s)
    (hpending : s.pending = m :: rest) : (table.joined parent m).Consistent content := by
  have hsegment := h.segment hs
  have hm : m ∈ s.pending := by
    rw [hpending]
    exact List.mem_cons_self
  have hbacked := h.backed hs m hm
  have hne : m.batch ≠ parent := h.batch_ne hbacked
  have hmodified : (table.modify parent (·.joined m)).Consistent content :=
    h.modify hs (fun _ _ => rfl) List.prefix_rfl (hsegment.joined hpending) rfl rfl
      (fun hmerged => ⟨hmerged, rfl, rfl⟩) (fun m' hm' => Or.inl (List.mem_of_mem_tail hm'))
  rcases hbacked with ⟨b, hb, hparent, -⟩
  refine hmodified.without (s := b) (p := parent) ?_ hparent ?_
  · rw [get?_modify_of_ne _ hne]
    exact hb
  · intro other t ht m' hm' heq
    rcases changed_or_kept hs ht with ⟨rfl, rfl⟩ | ⟨hother, hold⟩
    · have hdistinct := hsegment.distinct
      have htail : m' ∈ s.pending.tail := hm'
      rw [hpending] at hdistinct htail
      exact (List.nodup_cons.mp hdistinct).1 (List.mem_map.mpr ⟨m', htail, heq⟩)
    · rcases h.backed hold m' hm' with ⟨b', hb', hparent', -⟩
      rw [heq, hb] at hb'
      cases hb'
      rw [hparent] at hparent'
      cases hparent'
      exact hother rfl

theorem Consistent.get?_joined_apart (h : table.Consistent content)
    (hs : table.get? parent = some s) (hpending : s.pending = m :: rest) {other : SegmentId}
    {t : Segment} (ht : table.get? other = some t) (hne : other ≠ parent) {m' : PendingMerge}
    (hm' : m' ∈ t.pending) :
    (table.joined parent m).get? other = table.get? other ∧
      (table.joined parent m).get? m'.batch = table.get? m'.batch := by
  have hm : m ∈ s.pending := by
    rw [hpending]
    exact List.mem_cons_self
  rcases h.backed hs m hm with ⟨b, hb, hparent, -⟩
  rcases h.backed ht m' hm' with ⟨b', hb', hparent', -⟩
  have hnotBatch : other ≠ m.batch := by
    intro heq
    rw [← heq, ht] at hb
    cases hb
    rw [h.pending_of_parent ht hparent] at hm'
    cases hm'
  have hnotParent : m'.batch ≠ parent := by
    intro heq
    rw [heq, hs] at hb'
    cases hb'
    rw [h.pending_of_parent hs hparent'] at hm
    cases hm
  have hbatches : m'.batch ≠ m.batch := by
    intro heq
    rw [heq, hb] at hb'
    cases hb'
    rw [hparent] at hparent'
    exact hne (Option.some.inj hparent').symm
  exact ⟨get?_joined_of_ne hne hnotBatch, get?_joined_of_ne hnotParent hbatches⟩

/-!
## Names
-/

theorem WellFormed.of_same_names (h : table.WellFormed) {after : Table}
    (hnext : after.nextId = table.nextId)
    (hold : ∀ {id t}, after.get? id = some t →
      ∃ s, table.get? id = some s ∧ t.id = s.id ∧ t.name = s.name) : after.WellFormed where
  id_eq := by
    intro id t ht
    rcases hold ht with ⟨s, hs, hid, -⟩
    rw [hid]
    exact h.id_eq hs
  id_lt := by
    intro id t ht
    rcases hold ht with ⟨s, hs, -⟩
    rw [hnext]
    exact h.id_lt hs
  name_inj := by
    intro a b x y hx hy hname
    rcases hold hx with ⟨s, hs, -, hsname⟩
    rcases hold hy with ⟨t, ht, -, htname⟩
    rw [hsname, htname] at hname
    exact h.name_inj hs ht hname

theorem WellFormed.modify (h : table.WellFormed) {change : Segment → Segment}
    (hid : ∀ s, (change s).id = s.id) (hname : ∀ s, (change s).name = s.name) :
    (table.modify id change).WellFormed := by
  refine h.of_same_names rfl ?_
  intro other t ht
  rcases get?_of_get?_modify ht with ⟨s, hs, hold | hself⟩
  · rw [hold.2]
    exact ⟨s, hs, rfl, rfl⟩
  · rw [hself.2]
    exact ⟨s, hs, hid s, hname s⟩

theorem WellFormed.setStorageLength (h : table.WellFormed) (length : Nat) :
    (table.setStorageLength id length).WellFormed :=
  h.modify (fun _ => rfl) fun _ => rfl

theorem WellFormed.joined (h : table.WellFormed) : (table.joined parent m).WellFormed := by
  refine h.of_same_names rfl ?_
  intro other t ht
  rcases get?_of_get?_joined ht with ⟨-, s, hs, hcase⟩
  rcases hcase with hsame | hparent
  · rw [hsame.2]
    exact ⟨s, hs, rfl, rfl⟩
  · rw [hparent.2]
    exact ⟨s, hs, rfl, rfl⟩

end Table
end TieredStore
