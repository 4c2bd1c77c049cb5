import TieredStore.Proofs.Container.Recovering
import TieredStore.Proofs.Map.Entries

/-!
# Recoveries agree

What a recovery makes of a replayed table is settled by how far the objects of the
segments that are left reach: their first merges that are not reached stay pending, and
the table knows all of the objects that can be known.  A recovery changes no such object.
So another recovery over what it leaves behind, be it done or stopped on the way, makes
the same table of the same log and finds as many merges to finish.
-/

namespace TieredStore

/-- What recovery makes of a replayed table if the objects reach this far. -/
structure Table.Recovered (reach : String → Nat) (replayed after : Table) : Prop where
  follows : replayed.Follows after
  unreached : after.Unreached reach
  known : ∀ {id t}, after.get? id = some t → t.storageLength = min (reach t.name) t.limit

def Table.Agree (table : Table) (reach : String → Nat) (other : Table) (reach' : String → Nat) :
    Prop :=
  ∀ id t t', table.get? id = some t → other.get? id = some t' → reach' t'.name = reach t.name

theorem Table.Follows.segment_eq {replayed live : Table} (h : replayed.Follows live)
    {id : SegmentId} {r s : Segment} (hr : replayed.get? id = some r)
    (hs : live.get? id = some s) :
    s = { r with storageLength := s.storageLength, pending := s.pending } := by
  rcases h.known hs with ⟨r', hr', stored, done, heq, -⟩
  rw [hr] at hr'
  cases hr'
  rw [heq]

namespace Table.Recovered

variable {reach reach' : String → Nat} {replayed after after' : Table} {content : Contents}
  {id : SegmentId} {r t t' : Segment}

theorem pending_eq (h : Recovered reach replayed after) (hr : replayed.get? id = some r)
    (ht : after.get? id = some t) :
    t.pending = r.pending.dropWhile fun m => m.stop ≤ reach t.name := by
  rcases h.follows.known ht with ⟨r', hr', stored, done, heq, -, hdone⟩
  rw [hr] at hr'
  cases hr'
  have hreached : ∀ m ∈ done, decide (m.stop ≤ reach t.name) = true := by
    intro m hm
    have hstored := (hdone m hm).2
    rw [h.known ht] at hstored
    exact decide_eq_true (Nat.le_trans hstored (Nat.min_le_left _ _))
  have hpending : r.pending = done ++ t.pending := by rw [heq]
  rw [hpending, List.dropWhile_append_of_pos hreached]
  cases hrest : t.pending with
  | nil => rfl
  | cons m rest =>
      have hlt := h.unreached id t m ht (by rw [hrest]; rfl)
      rw [List.dropWhile_cons_of_neg]
      simpa using hlt

theorem segment_eq (h : Recovered reach replayed after) (h' : Recovered reach' replayed after')
    (ht : after.get? id = some t) (ht' : after'.get? id = some t')
    (hreach : reach' t'.name = reach t.name) : t' = t := by
  rcases h.follows.known ht with ⟨r, hr, -⟩
  have heq := h.follows.segment_eq hr ht
  have heq' := h'.follows.segment_eq hr ht'
  have hlength : t'.length = t.length := by rw [heq', heq]
  have hpending : t'.pending = t.pending := by
    rw [h.pending_eq hr ht, h'.pending_eq hr ht', hreach]
  have hstored : t'.storageLength = t.storageLength := by
    rw [h.known ht, h'.known ht', hreach]
    unfold Segment.limit
    rw [hpending, hlength]
  rw [heq', hpending, hstored, ← heq]

theorem get?_eq_none (h : Recovered reach replayed after) (h' : Recovered reach' replayed after')
    (hconsistent : after.Consistent content) (hreplayed : replayed.Consistent content)
    (hagree : after.Agree reach after' reach') (hnone : after.get? id = none) :
    after'.get? id = none := by
  cases ht' : after'.get? id with
  | none => rfl
  | some t' =>
      rcases h'.follows.known ht' with ⟨r, hr, -⟩
      rcases h.follows.gone hr hnone with ⟨p, s, rp, m, hs, hrp, hm, hbatch⟩
      rcases h'.follows.live_of_pending hreplayed hrp hm with ⟨s', hs'⟩
      rcases h'.follows.known hs' with ⟨rp', hrp', stored, done, heq, -, hdone⟩
      rw [hrp] at hrp'
      cases hrp'
      rw [heq] at hm
      -- a merge is finished for both or pending for both
      rcases List.mem_append.mp hm with hfinished | hpending
      · have hgone := (hdone m hfinished).1
        rw [hbatch, ht'] at hgone
        cases hgone
      · have hsame := h.segment_eq h' hs hs' (hagree p s s' hs hs')
        rw [hsame] at hpending
        rcases hconsistent.backed hs m hpending with ⟨b, hb, -⟩
        rw [hbatch, hnone] at hb
        cases hb

/-- Two recoveries from one log make the same table if the objects they leave are the same. -/
theorem unique (h : Recovered reach replayed after) (h' : Recovered reach' replayed after')
    (hconsistent : after.Consistent content) (hconsistent' : after'.Consistent content)
    (hreplayed : replayed.Consistent content) (hagree : after.Agree reach after' reach') :
    after' = after := by
  have hagree' : after'.Agree reach' after reach :=
    fun id t' t ht' ht => (hagree id t t' ht ht').symm
  have hsegments : after'.segments = after.segments := by
    refine SortedMap.eq_of_get? fun id => ?_
    show after'.get? id = after.get? id
    cases ht : after.get? id with
    | none => exact h.get?_eq_none h' hconsistent hreplayed hagree ht
    | some t =>
        cases ht' : after'.get? id with
        | some t' => exact congrArg some (h.segment_eq h' ht ht' (hagree id t t' ht ht'))
        | none =>
            have hnone := h'.get?_eq_none h hconsistent' hreplayed hagree' ht'
            rw [ht] at hnone
            cases hnone
  have hnextId : after'.nextId = after.nextId :=
    h'.follows.nextId_eq.symm.trans h.follows.nextId_eq
  rcases after with ⟨segments, nextId⟩
  rcases after' with ⟨segments', nextId'⟩
  rw [show segments' = segments from hsegments, show nextId' = nextId from hnextId]

end Table.Recovered

namespace Container

/-! ## What recovery reads -/

/-- Recovery from records that have been read from the log. -/
def recoverFrom {τ : Type} [Tier τ] (start : SequenceNumber) (records : List LogReader.Item) :
    ContainerM τ RecoveryStats := do
  let replayed ← replay 0 records
  let merges ← finishJoined 0 (joinables (← get).table)
  (← get).table.list.forM reconcile
  let segments := (← get).table.list
  modify fun c => segments.foldl (fun c segment => markStored segment c) c
  return { start, replayed, merges }

theorem recover_eq {τ : Type} [Tier τ] (log : Log) :
    (recover log : ContainerM τ RecoveryStats) =
      recoverFrom (log.latestCheckpoint?.getD .first)
        (log.records (log.latestCheckpoint?.getD .first)) := rfl

/-! ## What recovery goes by -/

variable {content : Contents} {replayed live : Table} {tier tier' : FlakyTier}
  {after : Container FlakyTier}

theorem Restored.recovered (h : Restored content replayed live tier after) :
    Table.Recovered tier.reach replayed after.table where
  follows := h.follows
  unreached := by
    intro id t m ht hm
    rcases h.recovers.kept ht with ⟨s, done, -, -, -, hleft, -, heq⟩
    rw [heq]
    exact hleft m hm
  known := by
    intro id t ht
    refine Nat.le_antisymm (Nat.le_min.mpr ⟨?_, (h.sound.consistent.segment ht).stored_le⟩)
      (h.known ht)
    have hreaches := h.sound.stored.reaches ht
    rw [h.same ht] at hreaches
    exact hreaches

variable {table : Table} {reach : String → Nat}

theorem Restored.agree (h : Restored content replayed live tier after)
    (hagree : table.Agree reach live tier.reach) : table.Agree reach after.table tier.reach := by
  intro id t t' ht ht'
  rcases h.recovers.kept ht' with ⟨s, -, hs, -, -, -, -, heq⟩
  rw [← hagree id t s ht hs, heq]

theorem Restored.left (h : Restored content replayed live tier after)
    (hreplayed : replayed.Consistent content) : Left content replayed after.table after.tier where
  consistent := h.sound.consistent
  wellFormed := h.sound.wellFormed
  stored := h.sound.stored
  accounted := h.accounted
  follows := h.follows
  replayed := hreplayed

theorem Underway.left (h : Underway content tier live tier')
    (hleft : Left content replayed live tier) (hagree : table.Agree reach live tier.reach) :
    ∃ live', Left content replayed live' tier' ∧ table.Agree reach live' tier'.reach := by
  rcases h with ⟨live', c, hjoins, hrecovering, rfl⟩
  refine ⟨live', ?_, ?_⟩
  · exact
      { consistent := hrecovering.liveConsistent
        wellFormed := hrecovering.liveWellFormed
        stored := hrecovering.stored
        accounted := hleft.accounted.joins hleft.consistent hjoins
        follows := hjoins.follows hleft.replayed hleft.consistent hleft.follows
        replayed := hleft.replayed }
  · intro id t s ht hs
    rcases hjoins.kept hs with ⟨s', -, hs', -, -, -, heq⟩
    rw [FlakyTier.reach, hrecovering.same hs, show s.name = s'.name by rw [heq]]
    exact hagree id t s' ht hs'

theorem coveredCount_eq (hreplayed : replayed.Consistent content)
    (htable : replayed.Follows table) (hlive : replayed.Follows live) {reach' : String → Nat}
    (hagree : table.Agree reach live reach') :
    coveredCount reach' (joinables replayed) = coveredCount reach (joinables replayed) := by
  unfold coveredCount
  refine congrArg total (List.map_congr_left fun j hj => ?_)
  rcases List.mem_map.mp hj with ⟨r, hr, rfl⟩
  rcases List.mem_filter.mp hr with ⟨hmem, hnonempty⟩
  rcases Table.mem_list.mp hmem with ⟨id, hget⟩
  cases hpending : r.pending with
  | nil =>
      rw [hpending] at hnonempty
      cases hnonempty
  | cons m rest =>
      have hm : m ∈ r.pending := by
        rw [hpending]
        exact List.mem_cons_self
      rcases htable.live_of_pending hreplayed hget hm with ⟨t, ht⟩
      rcases hlive.live_of_pending hreplayed hget hm with ⟨s, hs⟩
      have hreach := hagree id t s ht hs
      rw [show t.name = r.name by rw [htable.segment_eq hget ht],
        show s.name = r.name by rw [hlive.segment_eq hget hs]] at hreach
      unfold Joinable.covered
      simp only
      rw [hreach]

end Container
end TieredStore
