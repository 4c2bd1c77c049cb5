import TieredStore.Proofs.Table.Reached

/-!
# Merged batches are pending

A merged batch stays in a table exactly as long as its parent has the merge
pending: merging adds both, and finishing the merge takes both away.
-/

namespace TieredStore
namespace Table

/-- Every merged batch is that of a pending merge. -/
def Accounted (table : Table) : Prop :=
  ∀ id b, table.get? id = some b → b.merged = true →
    ∃ p s m, table.get? p = some s ∧ m ∈ s.pending ∧ m.batch = id

namespace Accounted

variable {table after : Table} {content : Contents} {id : SegmentId} {s : Segment}
  {m : PendingMerge} {rest : List PendingMerge}

theorem merged_eq_of_pending (h : table.Accounted) (hconsistent : table.Consistent content)
    (hs : table.get? id = some s) (hm : m ∈ s.pending) : s.merged = false := by
  cases hmerged : s.merged with
  | false => rfl
  | true =>
      rcases h id s hs hmerged with ⟨p, t, m', ht, hm', hbatch⟩
      rcases hconsistent.backed ht m' hm' with ⟨s', hs', hparent, -⟩
      rw [hbatch, hs] at hs'
      cases hs'
      rw [hconsistent.pending_of_parent hs hparent] at hm
      cases hm

theorem empty : Accounted {} := fun _ _ hb => nomatch hb

theorem modify (h : table.Accounted) {change : Segment → Segment}
    (hmerged : ∀ s, (change s).merged = s.merged)
    (hpending : ∀ s, ∀ m ∈ s.pending, m ∈ (change s).pending) :
    (table.modify id change).Accounted := by
  intro other b hb hmark
  have hold : ∃ b', table.get? other = some b' ∧ b'.merged = true := by
    rcases get?_of_get?_modify hb with ⟨b', hb', hold | hself⟩
    · exact ⟨b', hb', by rw [← hold.2, hmark]⟩
    · exact ⟨b', hb', by rw [← hmerged b', ← hself.2, hmark]⟩
  rcases hold with ⟨b', hb', hmark'⟩
  rcases h other b' hb' hmark' with ⟨p, s, m, hs, hm, hbatch⟩
  by_cases hp : p = id
  · refine ⟨p, change s, m, ?_, hpending s m hm, hbatch⟩
    rw [hp, get?_modify_self, ← hp, hs]
    rfl
  · refine ⟨p, s, m, ?_, hm, hbatch⟩
    rw [get?_modify_of_ne table hp]
    exact hs

theorem add (h : table.Accounted) (hmerged : s.merged = false) (hfree : table.get? s.id = none) :
    (table.add s).Accounted := by
  intro other b hb hmark
  by_cases hother : other = s.id
  · rw [hother, get?_add_self] at hb
    cases hb
    rw [hmerged] at hmark
    cases hmark
  · rw [get?_add_of_ne table hother] at hb
    rcases h other b hb hmark with ⟨p, t, m, ht, hm, hbatch⟩
    refine ⟨p, t, m, ?_, hm, hbatch⟩
    rw [get?_add_of_ne table]
    · exact ht
    · intro heq
      rw [heq, hfree] at ht
      cases ht

theorem perform_merge (h : table.Accounted) {parent batch : SegmentId} {length offset : Nat}
    (hs : table.get? parent = some s) (hne : parent ≠ batch) :
    (table.perform (.merge parent batch length offset)).Accounted := by
  let marked := table.modify batch ({ · with merged := true })
  let merge : PendingMerge := { batch, offset, length }
  let grown : Segment :=
    { s with pending := s.pending ++ [merge], length := s.length + length }
  have hmarked : marked.get? parent = some s := by
    rw [get?_modify_of_ne table hne]
    exact hs
  have hgrown : (table.perform (.merge parent batch length offset)).get? parent = some grown := by
    show (marked.modify parent _).get? parent = _
    rw [get?_modify_self, hmarked]
    rfl
  -- what was pending before still is, and only the batch is newly marked
  have hkept : ∀ {p t m}, table.get? p = some t → m ∈ t.pending →
      ∃ t', (table.perform (.merge parent batch length offset)).get? p = some t' ∧
        m ∈ t'.pending := by
    intro p t m ht hm
    by_cases hp : p = parent
    · rw [hp, hs] at ht
      cases ht
      rw [hp]
      exact ⟨grown, hgrown, List.mem_append_left _ hm⟩
    · have hget : (table.perform (.merge parent batch length offset)).get? p = marked.get? p :=
        get?_modify_of_ne marked hp _
      by_cases hbatch : p = batch
      · refine ⟨{ t with merged := true }, ?_, hm⟩
        rw [hget, hbatch, get?_modify_self, ← hbatch, ht]
        rfl
      · refine ⟨t, ?_, hm⟩
        rw [hget, get?_modify_of_ne table hbatch]
        exact ht
  intro other b hb hmark
  by_cases hbatch : other = batch
  · exact ⟨parent, grown, merge, hgrown, List.mem_append_right _ List.mem_cons_self, hbatch.symm⟩
  · have hold : ∃ b', table.get? other = some b' ∧ b'.merged = true := by
      by_cases hparent : other = parent
      · rw [hparent, hgrown] at hb
        cases hb
        exact ⟨s, by rw [hparent]; exact hs, hmark⟩
      · have hget : (table.perform (.merge parent batch length offset)).get? other =
            table.get? other :=
          (get?_modify_of_ne marked hparent _).trans (get?_modify_of_ne table hbatch _)
        rw [hget] at hb
        exact ⟨b, hb, hmark⟩
    rcases hold with ⟨b', hb', hmark'⟩
    rcases h other b' hb' hmark' with ⟨p, t, m, ht, hm, hm'⟩
    rcases hkept ht hm with ⟨t', ht', hkept'⟩
    exact ⟨p, t', m, ht', hkept', hm'⟩

theorem perform (h : table.Accounted) (hconsistent : table.Consistent content) {op : Operation}
    (hop : op.Regular content table) (hcheckpoint : op.isCheckpoint = false) :
    (table.perform op).Accounted := by
  cases op with
  | append segment offset client event data => exact h.modify (fun _ => rfl) fun _ _ hm => hm
  | «seal» segment length => exact h.modify (fun _ => rfl) fun _ _ hm => hm
  | merge parent batch length offset =>
      rcases hop.fits with ⟨s, b, hs, hb, -, -, hbparent, -⟩
      rw [hconsistent.id_eq hs] at hbparent
      exact h.perform_merge hs (hconsistent.parent_ne hb hbparent)
  | checkpoint snapshot => cases hcheckpoint
  | create segment name => exact h.add rfl (hconsistent.get?_created hop rfl)
  | createBatch batch name parent => exact h.add rfl (hconsistent.get?_created hop rfl)
  | truncate segment offset => exact h.modify (fun _ => rfl) fun _ _ hm => hm

theorem joined (h : table.Accounted) (hconsistent : table.Consistent content)
    (hs : table.get? id = some s) (hpending : s.pending = m :: rest) :
    (table.joined id m).Accounted := by
  intro other b hb hmark
  rcases get?_of_get?_joined hb with ⟨hbatch, b', hb', hcase⟩
  have hmark' : b'.merged = true := by
    rcases hcase with hsame | hself
    · rw [← hsame.2]
      exact hmark
    · rw [hself.2] at hmark
      exact hmark
  rcases h other b' hb' hmark' with ⟨p, t, m', ht, hm', heq⟩
  by_cases hp : p = id
  · subst hp
    rw [hs] at ht
    cases ht
    rw [hpending] at hm'
    rcases List.mem_cons.mp hm' with hfirst | hrest
    · rw [← heq, hfirst] at hbatch
      exact absurd rfl hbatch
    · have hm : m ∈ s.pending := by
        rw [hpending]
        exact List.mem_cons_self
      have hne := hconsistent.batch_ne (hconsistent.backed hs m hm)
      refine ⟨p, s.joined m, m', get?_joined_parent hs hne.symm, ?_, heq⟩
      show m' ∈ s.pending.tail
      rw [hpending]
      exact hrest
  · have hapart := hconsistent.get?_joined_apart hs hpending ht hp hm'
    exact ⟨p, t, m', hapart.1.trans ht, hm', heq⟩

theorem joins (h : table.Accounted) (hconsistent : table.Consistent content)
    {reach : String → Nat} (hjoins : table.Joins reach after) : after.Accounted := by
  have hboth : after.Consistent content ∧ after.Accounted := by
    refine hjoins.preserves (P := fun t => t.Consistent content ∧ t.Accounted)
      ⟨hconsistent, h⟩ ?_
    intro middle parent s m rest hmiddle found pending _
    exact ⟨hmiddle.1.joined found pending, hmiddle.2.joined hmiddle.1 found pending⟩
  exact hboth.2

theorem raises (h : table.Accounted) (hraises : table.Raises after) : after.Accounted := by
  intro id b hb hmark
  rcases hraises.of_get? hb with ⟨b', hb', -, heq⟩
  rw [heq] at hmark
  rcases h id b' hb' hmark with ⟨p, s, m, hs, hm, hbatch⟩
  rcases hraises.kept hs with ⟨stored, -, hget⟩
  exact ⟨p, _, m, hget, hm, hbatch⟩

end Accounted
end Table
end TieredStore
