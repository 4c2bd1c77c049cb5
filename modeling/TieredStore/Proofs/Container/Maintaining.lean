import TieredStore.Proofs.Container.Bookkeeping
import TieredStore.Proofs.Container.Changing
import TieredStore.Proofs.Container.Upkeep

/-!
# Changes and flushes keep the cache up

An operation that is applied leaves the marks where they are, as it does not
change how much of a segment the tier holds, and what it creates is neither in the
tier nor marked.

A flush finds in the cache all that it has to copy, so it fails only when a call
of the tier does or a join has a wrong length.  Wherever it ends, the cache is in
order, and its marks are where the table says.
-/

namespace TieredStore
namespace Container

/-! ## Applied operations -/

namespace Upkeep

theorem modify {τ : Type} (c : Container τ) (id : SegmentId) {change : Segment → Segment}
    (hchange : ∀ s, (change s).storageLength = s.storageLength) :
    c.Upkeep { c with table := c.table.modify id change } := by
  refine ⟨⟨rfl, fun h => h⟩, ?_⟩
  intro hnoted other t ht
  replace ht : (c.table.modify id change).get? other = some t := ht
  by_cases hother : other = id
  · subst hother
    rw [Table.get?_modify_self] at ht
    rcases Option.map_eq_some_iff.mp ht with ⟨s, hs, rfl⟩
    exact (hnoted hs).trans (hchange s).symm
  · rw [Table.get?_modify_of_ne _ hother] at ht
    exact hnoted ht

theorem add {τ : Type} {c : Container τ} {s : Segment} (hmark : c.cache.mark s.id = 0)
    (hstored : s.storageLength = 0) : c.Upkeep { c with table := c.table.add s } := by
  refine ⟨⟨rfl, fun h => h⟩, ?_⟩
  intro hnoted other t ht
  replace ht : (c.table.add s).get? other = some t := ht
  by_cases hother : other = s.id
  · subst hother
    rw [Table.get?_add_self] at ht
    cases ht
    exact hmark.trans hstored.symm
  · rw [Table.get?_add_of_ne _ hother] at ht
    exact hnoted ht

theorem applyLogged {c : Container FlakyTier} {content : Contents} {op : Operation}
    (h : c.Sound content) (hop : op.Regular content c.table)
    (hcheckpoint : op.isCheckpoint = false) : c.Upkeep (Store.applyLogged op c) := by
  cases op with
  | append segment offset client event data =>
      exact (put c segment offset data).trans (modify _ segment fun _ => rfl)
  | «seal» segment length => exact modify c segment fun _ => rfl
  | merge parent batch length offset =>
      have hmarked :
          c.Upkeep { c with table := c.table.modify batch ({ · with merged := true }) } :=
        modify c batch fun _ => rfl
      exact hmarked.trans (modify _ parent fun _ => rfl)
  | checkpoint snapshot => cases hcheckpoint
  | create segment name => exact add (h.cached.mark_fresh (hop.fresh segment rfl)) rfl
  | createBatch batch name parent => exact add (h.cached.mark_fresh (hop.fresh batch rfl)) rfl
  | truncate segment offset =>
      have hmodified : c.Upkeep { c with table := c.table.perform (.truncate segment offset) } :=
        modify c segment fun _ => rfl
      unfold Store.applyLogged
      simp only
      split
      · exact hmodified.trans (truncateBefore _ segment _)
      · exact hmodified

end Upkeep

/-! ## Calls of the tier only -/

theorem Maintains.of_beside {τ α : Type} {call : ContainerM τ α} {c : Container τ}
    (h : Carries SameBesideTier call c) : Maintains call c := by
  refine h.mono ?_ ?_
  · rintro _ _ ⟨tier, rfl⟩
    exact .with_tier c tier
  · rintro e _ ⟨⟨tier, rfl⟩, hdelivers⟩
    exact ⟨.with_tier c tier, hdelivers⟩

variable {τ : Type} [Tier τ] [LawfulTier τ] {broken : Prop} {content : Contents}
  {replayed : Table} {c middle after : Container τ} {id : SegmentId} {s : Segment}

/-! ## Copying -/

theorem copyOut_maintains {stop : Nat} (hstop : stop ≤ s.limit) :
    ∀ (fuel offset : Nat) {c : Container τ}, c.held.Sound content →
      c.table.get? id = some s → s.storageLength ≤ offset →
      (c.held.tier.bytes s.name).length = offset →
      Maintains (copyOut id s.name stop fuel offset) c
  | 0, offset, c, _, _, _, _ => .pure offset c
  | fuel + 1, offset, c, h, hs, hstored, hlength => by
      unfold copyOut
      by_cases hlt : offset < stop
      · rw [if_pos hlt]
        rcases h.exists_cached hs hstored hlt hstop with ⟨block, hblock, hpiece, hpos, hfits⟩
        refine .bind (Maintains.cached c id offset _) (cached_ends c id offset (stop - offset)) ?_
        intro found looked hfound
        rcases hfound with ⟨hfound, hafter⟩
        have hlooked := Extends.of_get h s id offset (stop - offset)
        rw [← hafter, hlength] at hlooked
        rw [hfound, show (c.cache.get id offset (stop - offset)).1 = some block from hblock]
        have hs' : looked.table.get? id = some s := by
          rw [hlooked.table_eq]
          exact hs
        refine .bind (Maintains.onTier _ looked) (writePiece_ends hlooked hs' hpiece) ?_
        intro length middle hmiddle
        rcases hmiddle with ⟨hwritten, hmiddle, -⟩
        rw [hwritten]
        refine copyOut_maintains hstop fuel (offset + block.length) hmiddle.sound ?_
          (Nat.le_trans hstored (Nat.le_add_right _ _)) hmiddle.length_eq
        rw [hmiddle.table_eq]
        exact hs
      · rw [if_neg hlt]
        exact .pure offset c

theorem flushSegment_maintains (h : c.held.Sound content) {target : FlushTarget}
    (htarget : Copies c.table target s)
    (hlength : (c.held.tier.bytes s.name).length = s.storageLength) :
    Maintains (flushSegment target) c := by
  rcases target with ⟨id, name, start, stop⟩
  rcases htarget with ⟨hs, rfl, rfl, rfl, hmore⟩
  have hcopy : ∀ {middle : Container τ}, Extends content s s.storageLength c middle →
      Maintains (do
        let stored ← copyOut id s.name s.limit (s.limit - s.storageLength) s.storageLength
        modify (noteStored id stored)
        return stored - s.storageLength) middle := by
    intro middle hmiddle
    have hs' : middle.table.get? id = some s := by
      rw [hmiddle.table_eq]
      exact hs
    refine .bind (copyOut_maintains (Nat.le_refl _) _ _ hmiddle.sound hs' (Nat.le_refl _)
      hmiddle.length_eq) (copyOut_ends (Nat.le_refl _) _ _ hmiddle.sound hs' (Nat.le_refl _)
      (Nat.le_of_lt hmore) (by omega) hmiddle.length_eq) ?_
    intro stored last hlast
    rcases hlast with ⟨rfl, hlast⟩
    have hs'' : last.table.get? id = some s := by
      rw [hlast.table_eq]
      exact hs'
    -- the bytes that were copied are still cached, so there is an entry to be marked
    have hknows : last.cache.Knows id := Cache.knows_of_covers
      (Sound.covers_of_lt_limit (c := last.held) hlast.sound hs'' (Nat.le_refl _) hmore)
    have hlimit := (h.consistent.segment hs).limit_le_length
    exact .modifying (.noteStored hs'' hlimit hknows) (.pure _ _)
  unfold flushSegment
  by_cases hzero : s.storageLength = 0
  · rw [if_pos hzero]
    refine .bind (Maintains.of_beside (ensureObject_beside s.name c)) (ensureObject_ends h hs) ?_
    intro _ middle hmiddle
    rw [hlength] at hmiddle
    exact hcopy hmiddle
  · rw [if_neg hzero]
    have hrefl := Extends.refl h s
    rw [hlength] at hrefl
    exact hcopy hrefl

theorem flushSegments_maintains :
    ∀ (targets : List FlushTarget) (stats : FlushStats) {c : Container τ}, c.held.Sound content →
      targets.Pairwise (fun a b => a.id ≠ b.id) →
      (∀ target ∈ targets, ∃ s, Copies c.table target s ∧
        (c.held.tier.bytes s.name).length = s.storageLength) →
      Maintains (flushSegments stats targets) c
  | [], stats, c, _, _, _ => .pure stats c
  | target :: rest, stats, c, h, hapart, htargets => by
      rcases List.pairwise_cons.mp hapart with ⟨hfirst, hapart⟩
      rcases htargets target List.mem_cons_self with ⟨s, hcopies, hlength⟩
      unfold flushSegments
      refine .bind (flushSegment_maintains h hcopies hlength)
        (flushSegment_ends h hcopies hlength) ?_
      intro written middle hmiddle
      rcases hmiddle with ⟨-, hmiddle, htable, hothers⟩
      refine flushSegments_maintains rest _ hmiddle.sound hapart ?_
      intro other hother
      rcases htargets other (List.mem_cons_of_mem _ hother) with ⟨s', hcopies', hlength'⟩
      rcases hcopies'.beside h hcopies (hfirst other hother).symm htable hothers with
        ⟨hkept, hbytes⟩
      exact ⟨s', hkept, by rw [hbytes]; exact hlength'⟩

/-! ## Joining -/

theorem carryOut_maintains (h : c.held.Sound content) {target : MergeTarget} {b : Segment}
    {rest : List PendingMerge} (hready : c.table.Ready target s b rest)
    (hlength : (c.held.tier.bytes s.name).length = target.merge.offset ∨
      broken ∧ (c.held.tier.bytes s.name).length = target.merge.stop)
    (hjoins : JoinsBreak c.tier → broken) : Maintains (carryOut target) c := by
  unfold carryOut
  refine .bind (Maintains.of_beside (joinObjects_beside target c))
    (joinObjects_ends h hready hlength hjoins) ?_
  intro length joined hjoined
  rcases hjoined with ⟨heq, hjoint⟩
  rw [if_neg (not_not_intro heq)]
  have htable := hjoint.segments.table_eq
  have hready' : joined.table.Ready target s b rest := by
    rw [htable]
    exact hready
  have hconsistent : joined.table.Consistent content := by
    rw [htable]
    exact h.consistent
  exact Upkeep.finishMerge hconsistent hready'.parent hready'.pending hready'.stored hready'.batch
    hready'.complete

theorem carryOutAll_maintains :
    ∀ (targets : List MergeTarget) (stats : FlushStats) {c : Container τ},
      c.held.Tracked broken content replayed → (JoinsBreak c.tier → broken) →
      targets.Pairwise (fun a b => a.parent ≠ b.parent) →
      (∀ target ∈ targets, ∃ s b rest, c.table.Ready target s b rest) →
      Maintains (carryOutAll stats targets) c
  | [], stats, c, _, _, _, _ => .pure stats c
  | target :: rest, stats, c, h, hjoins, hapart, hready => by
      rcases List.pairwise_cons.mp hapart with ⟨hfirst, hapart⟩
      rcases hready target List.mem_cons_self with ⟨s, b, others, htarget⟩
      have hlength := Table.Ready.parent_length (c := c.held) htarget h.aligned
      unfold carryOutAll
      refine .bind (carryOut_maintains h.sound htarget hlength hjoins)
        (carryOut_ends h.sound htarget hlength hjoins) ?_
      intro _ middle hmiddle
      have hforward := hmiddle.forward h htarget
      refine carryOutAll_maintains rest _ hforward.tracked
        (fun hbreak => hjoins (hforward.noWorse.joins hbreak)) hapart ?_
      intro other hother
      rcases hready other (List.mem_cons_of_mem _ hother) with ⟨s', b', rest', hother'⟩
      exact ⟨s', b', rest', (hmiddle.keeps h.sound htarget hother' (hfirst other hother).symm).1⟩

/-! ## Rounds -/

theorem flushRound_maintains (h : c.held.Tracked broken content replayed)
    (hjoins : JoinsBreak c.tier → broken) (stats : FlushStats) :
    Maintains (flushRound stats) c := by
  have hcopyable := h.aligned.copyable
  have htargets := h.sound.flushTargets_copies
  unfold flushRound
  refine .get (.bind (flushSegments_maintains _ stats h.sound htargets.1 ?_)
    (copyAll_ends h.sound hcopyable stats) ?_)
  · intro target htarget
    rcases htargets.2.1 target htarget with ⟨s, hs⟩
    exact ⟨s, hs, hcopyable _ s hs.segment hs.more⟩
  · intro copied middle hmiddle
    have hforward := hmiddle.1.forward h
    have hready := hforward.tracked.sound.mergeTargets_ready
    exact .get (carryOutAll_maintains _ copied hforward.tracked
      (fun hbreak => hjoins (hforward.noWorse.joins hbreak)) hready.1 hready.2)

theorem flushRounds_maintains :
    ∀ (fuel : Nat) (stats : FlushStats) {c : Container τ},
      c.held.Tracked broken content replayed → (JoinsBreak c.tier → broken) →
      Maintains (flushRounds fuel stats) c
  | 0, stats, c, _, _ => .pure stats c
  | fuel + 1, stats, c, h, hjoins => by
      rw [flushRounds_succ]
      refine .bind (flushRound_maintains h hjoins stats) (flushRound_ends h hjoins stats) ?_
      intro joined middle hmiddle
      have hforward := hmiddle.1
      split
      · exact .pure stats middle
      · exact flushRounds_maintains fuel joined hforward.tracked
          fun hbreak => hjoins (hforward.noWorse.joins hbreak)

/-- A flush keeps the cache up wherever it ends, and it does not fail for want of bytes. -/
theorem flush_maintains (h : c.held.Tracked broken content replayed)
    (hjoins : JoinsBreak c.tier → broken) : Maintains flush c :=
  .get (flushRounds_maintains _ _ h hjoins)

end Container
end TieredStore
