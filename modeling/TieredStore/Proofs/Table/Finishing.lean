import TieredStore.Proofs.Table.Coherent

/-!
# Merges that are finished in any order

The tier joins the pending merges of a segment from the first one on, but the table
lets any of them be finished.  The merge and its batch go together, so that the table
stays coherent whichever merge it is.
-/

namespace TieredStore

/-- A segment without the pending merge of a batch, which the tier holds up to its end. -/
def Segment.finishing (s : Segment) (batch : SegmentId) (stop : Nat) : Segment :=
  { s with
    pending := s.pending.eraseP (·.batch = batch)
    storageLength := max s.storageLength stop }

theorem Segment.Ordered.finishing {s : Segment} (h : s.Ordered) (batch : SegmentId) {stop : Nat} (hstop : stop ≤ s.length) :
    (s.finishing batch stop).Ordered where
  start_le := h.start_le
  stored_le := Nat.max_le.mpr ⟨h.stored_le, hstop⟩
  row := h.row.sublist List.eraseP_sublist
  stop_le := fun m hm => h.stop_le m (List.mem_of_mem_eraseP hm)

namespace Table

variable {table after : Table} {id parent batch : SegmentId} {s b : Segment} {m : PendingMerge}

theorem eraseP_eq_filter {α : Type} {p : α → Bool} {item : α} :
    ∀ {items : List α}, items.filter p = [item] →
      items.eraseP p = items.filter fun x => !p x
  | [], h => by cases h
  | first :: rest, h => by
      cases hfirst : p first with
      | true =>
          rw [List.filter_cons_of_pos hfirst] at h
          have hrest : rest.filter p = [] := (List.cons.inj h).2
          rw [List.eraseP_cons_of_pos hfirst, List.filter_cons_of_neg (by simp [hfirst])]
          refine (List.filter_eq_self.mpr fun x hx => ?_).symm
          simpa using List.filter_eq_nil_iff.mp hrest x hx
      | false =>
          rw [List.filter_cons_of_neg (by simp [hfirst])] at h
          rw [List.eraseP_cons_of_neg (by simp [hfirst]), List.filter_cons_of_pos (by simp [hfirst]),
            eraseP_eq_filter h]

theorem completeMerge?_eq_some_iff :
    table.completeMerge? parent batch = some (m, after) ↔
      ∃ s, table.get? parent = some s ∧ s.pending.find? (·.batch = batch) = some m ∧
        after = (table.modify parent (·.finishing batch m.stop)).without batch := by
  unfold completeMerge?
  cases hs : table.get? parent with
  | none => simp
  | some s =>
      cases hfind : s.pending.find? (·.batch = batch) with
      | none => simp [hfind]
      | some found =>
          simp [hfind, without, Segment.finishing]
          grind

structure Finishing (table : Table) (parent batch : SegmentId) (s : Segment) (stop : Nat)
    (after : Table) : Prop where
  gone : after.get? batch = none
  finished : after.get? parent = some (s.finishing batch stop)
  rest : ∀ {other}, other ≠ parent → other ≠ batch → after.get? other = table.get? other

theorem finishing_modify (hs : table.get? parent = some s) (hne : parent ≠ batch) (stop : Nat) :
    table.Finishing parent batch s stop
      ((table.modify parent (·.finishing batch stop)).without batch) where
  gone := get?_without_self _ _
  finished := by
    rw [get?_without_of_ne _ hne, get?_modify_self, hs]
    rfl
  rest := fun hparent hbatch =>
    (get?_without_of_ne _ hbatch).trans (get?_modify_of_ne _ hparent _)

namespace Finishing

variable {stop : Nat} (h : table.Finishing parent batch s stop after)
  (hs : table.get? parent = some s) (hone : s.pending.filter (·.batch = batch) = [m])

include h in
theorem changed_or_kept {other : SegmentId} {t : Segment} (ht : after.get? other = some t) :
    other ≠ batch ∧ (other = parent ∧ t = s.finishing batch stop ∨
      other ≠ parent ∧ table.get? other = some t) := by
  have hbatch : other ≠ batch := by
    intro heq
    rw [heq, h.gone] at ht
    cases ht
  refine ⟨hbatch, ?_⟩
  by_cases hparent : other = parent
  · rw [hparent, h.finished] at ht
    exact Or.inl ⟨hparent, (Option.some.inj ht).symm⟩
  · rw [h.rest hparent hbatch] at ht
    exact Or.inr ⟨hparent, ht⟩

include hone in
theorem pending_eq : (s.finishing batch stop).pending = s.pending.filter (¬ ·.batch = batch) := by
  simpa [Segment.finishing] using eraseP_eq_filter hone

include h hs hone in
theorem kept {other : SegmentId} {t : Segment} (ht : table.get? other = some t)
    (hbatch : other ≠ batch) :
    ∃ t', after.get? other = some t' ∧ t'.parent = t.parent ∧ t'.sealed = t.sealed ∧
      t'.merged = t.merged ∧ t'.length = t.length ∧ ∀ id, id ≠ batch →
        t'.pending.filter (·.batch = id) = t.pending.filter (·.batch = id) := by
  by_cases hparent : other = parent
  · rw [hparent, hs] at ht
    cases ht
    refine ⟨s.finishing batch stop, by rw [hparent]; exact h.finished, rfl, rfl, rfl, rfl, ?_⟩
    intro id hid
    rw [pending_eq hone, List.filter_filter]
    refine List.filter_congr fun x _ => ?_
    by_cases hx : x.batch = id <;> simp [hx, hid]
  · exact ⟨t, by rw [h.rest hparent hbatch]; exact ht, rfl, rfl, rfl, rfl, fun _ _ => rfl⟩

include h hs hone in
theorem old (hb : table.get? batch = some b) (hparent : b.parent = some parent)
    (hlinked : ∀ {id s}, table.get? id = some s → ∀ m ∈ s.pending, m.Linked table id)
    {other : SegmentId} {t : Segment} (ht : after.get? other = some t) :
    ∃ t', table.get? other = some t' ∧ t'.id = t.id ∧ t'.name = t.name ∧
      t'.parent = t.parent ∧ t'.merged = t.merged ∧
      ∀ m ∈ t.pending, m ∈ t'.pending ∧ m.batch ≠ batch := by
  rcases (h.changed_or_kept ht).2 with ⟨rfl, rfl⟩ | ⟨hother, hold⟩
  · refine ⟨s, hs, rfl, rfl, rfl, rfl, fun x hx => ?_⟩
    rw [pending_eq hone, List.mem_filter] at hx
    exact ⟨hx.1, by simpa using hx.2⟩
  · refine ⟨t, hold, rfl, rfl, rfl, rfl, fun x hx => ⟨hx, fun heq => ?_⟩⟩
    rcases hlinked hold x hx with ⟨b', hb', hparent', -⟩
    rw [heq, hb] at hb'
    cases hb'
    rw [hparent] at hparent'
    exact hother (Option.some.inj hparent').symm

end Finishing

/-- A merge that can be finished is the only one of its batch, which the table has. -/
theorem Coherent.completeMerge_eq (h : table.Coherent)
    (hdone : table.completeMerge? parent batch = some (m, after)) :
    ∃ s b, table.get? parent = some s ∧ table.get? batch = some b ∧ b.parent = some parent ∧
      s.pending.filter (·.batch = batch) = [m] ∧
      after = (table.modify parent (·.finishing batch m.stop)).without batch := by
  rcases completeMerge?_eq_some_iff.mp hdone with ⟨s, hs, hfind, hafter⟩
  have hm : m ∈ s.pending := List.mem_of_find?_eq_some hfind
  have hbatch : m.batch = batch := by simpa using List.find?_some hfind
  rcases h.linked hs m hm with ⟨b, hb, hbparent, -, hbmerged, -⟩
  rw [hbatch] at hb
  rcases h.paired hb hbparent hbmerged with ⟨s', m', hs', hone⟩
  cases Option.some.inj (hs.symm.trans hs')
  have hsame : m ∈ [m'] := by
    rw [← hone, List.mem_filter]
    exact ⟨hm, by simpa using hbatch⟩
  rw [← List.mem_singleton.mp hsame] at hone
  exact ⟨s, b, hs, hb, hbparent, hone, hafter⟩

theorem Coherent.completeMerge (h : table.Coherent)
    (hdone : table.completeMerge? parent batch = some (m, after)) : after.Coherent := by
  rcases h.completeMerge_eq hdone with ⟨s, b, hs, hb, hbparent, hone, rfl⟩
  have hm : m ∈ s.pending := by
    have hmem : m ∈ s.pending.filter (·.batch = batch) := by
      rw [hone]
      exact List.mem_cons_self
    exact (List.mem_filter.mp hmem).1
  have hdone := finishing_modify hs (h.parent_ne hb hbparent) m.stop
  let after := (table.modify parent (·.finishing batch m.stop)).without batch
  have hold := fun {other t} (ht : after.get? other = some t) =>
    hdone.old hs hone hb hbparent h.linked ht
  -- a parent is no batch, so that it is not the one that is gone
  have hroot : ∀ {other t p}, table.get? other = some t → t.parent = some p → p ≠ batch := by
    intro other t p ht hparent heq
    rcases h.parent ht hparent with ⟨u, hu, hnone⟩
    rw [heq, hb] at hu
    cases hu
    rw [hbparent] at hnone
    cases hnone
  refine ⟨?_, ?_, ?_, ?_, ?_⟩
  · refine h.wellFormed.of_same_names rfl fun ht => ?_
    rcases hold ht with ⟨t', ht', hid, hname, -⟩
    exact ⟨t', ht', hid.symm, hname.symm⟩
  · intro other t ht
    rcases (hdone.changed_or_kept ht).2 with ⟨-, rfl⟩ | ⟨-, hkept⟩
    · exact (h.ordered hs).finishing batch ((h.ordered hs).stop_le m hm)
    · exact h.ordered hkept
  · intro other t p ht hparent
    rcases hold ht with ⟨t', ht', -, -, hparent', -⟩
    rw [hparent] at hparent'
    rcases h.parent ht' hparent' with ⟨u, hu, hnone⟩
    rcases hdone.kept hs hone hu (hroot ht' hparent') with ⟨u', hu', huparent, -⟩
    exact ⟨u', hu', huparent.trans hnone⟩
  · intro other t ht x hx
    rcases hold ht with ⟨t', ht', -, -, -, -, hsub⟩
    rcases h.linked ht' x (hsub x hx).1 with ⟨b', hb', hparent, hseal, hmark, hlength⟩
    rcases hdone.kept hs hone hb' (hsub x hx).2 with
      ⟨u, hu, huparent, huseal, humark, hulength, -⟩
    exact ⟨u, hu, huparent.trans hparent, huseal.trans hseal, humark.trans hmark,
      hulength.trans hlength⟩
  · intro other t p ht hparent hmark
    rcases hold ht with ⟨t', ht', -, -, hparent', hmark', -⟩
    rw [hparent] at hparent'
    rw [hmark] at hmark'
    rcases h.paired ht' hparent' hmark' with ⟨u, x, hu, hx⟩
    rcases hdone.kept hs hone hu (hroot ht' hparent') with ⟨u', hu', -, -, -, -, hsame⟩
    exact ⟨u', x, hu', (hsame other (hdone.changed_or_kept ht).1).trans hx⟩

end Table
end TieredStore
