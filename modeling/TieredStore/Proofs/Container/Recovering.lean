import TieredStore.Proofs.Container.Finishing

/-!
# Recovered containers

A recovery replays the log into an empty container, finishes the merges that the
tier has carried out, and takes over how far the objects reach.  If the container
was dropped with its log and its tier, it gets back the live table, in which the
merges that are reached are finished and of which the tier is known to hold at
least as much as before.
-/

namespace TieredStore

/--
What recovery makes of a live table: the merges that the objects reach are
finished, and of what is left the tier is known to hold no less.
-/
def Table.Recovers (tier : FlakyTier) (live after : Table) : Prop :=
  ∃ settled, live.Joins tier.reach settled ∧ settled.Unreached tier.reach ∧ settled.Raises after

namespace Table

variable {live settled after table : Table} {content : Contents} {tier tier' : FlakyTier}
  {id : SegmentId} {s : Segment}

theorem StoredIn.of_raises (h : after.StoredIn content tier) (hraises : table.Raises after) :
    table.StoredIn content tier where
  starts := by
    intro id s hs
    rcases hraises.kept hs with ⟨stored, -, hget⟩
    have hstarts := h.starts hget
    exact hstarts
  reaches := by
    intro id s hs
    rcases hraises.kept hs with ⟨stored, hle, hget⟩
    have hreaches := h.reaches hget
    exact Nat.le_trans hle hreaches
  owned := by
    intro name bytes hobject
    rcases h.owned hobject with ⟨id, t, ht, hname⟩
    rcases hraises.of_get? ht with ⟨s, hs, -, heq⟩
    refine ⟨id, s, hs, ?_⟩
    rw [← hname, heq]

namespace Recovers

theorem nextId_eq (h : live.Recovers tier after) : after.nextId = live.nextId := by
  rcases h with ⟨settled, hjoins, -, hraises⟩
  exact hraises.nextId_eq.trans hjoins.nextId_eq

theorem kept (h : live.Recovers tier after) {t : Segment} (ht : after.get? id = some t) :
    ∃ s done, live.get? id = some s ∧ s.pending = done ++ t.pending ∧
      (∀ m ∈ done, m.stop ≤ tier.reach s.name) ∧
      (∀ m, t.pending.head? = some m → tier.reach s.name < m.stop) ∧
      s.storageLength ≤ t.storageLength ∧
      t = { s with storageLength := t.storageLength, pending := t.pending } := by
  rcases h with ⟨settled, hjoins, hunreached, hraises⟩
  rcases hraises.of_get? ht with ⟨u, hu, hle, heq⟩
  rcases hjoins.kept hu with ⟨s, done, hs, hpending, hdone, hle', heq'⟩
  refine ⟨s, done, hs, ?_, hdone, ?_, Nat.le_trans hle' hle, ?_⟩
  · rw [heq]
    exact hpending
  · intro m hm
    rw [heq] at hm
    have hlt := hunreached id u m hu hm
    rw [heq'] at hlt
    exact hlt
  · rw [heq, heq']

theorem exists_of_root (h : live.Recovers tier after) (hlive : live.Consistent content)
    (hs : live.get? id = some s) (hroot : s.parent = none) : ∃ t, after.get? id = some t := by
  rcases h with ⟨settled, hjoins, -, hraises⟩
  rcases hjoins.exists_of_root hlive hs hroot with ⟨t, ht⟩
  rcases hraises.kept ht with ⟨stored, -, hget⟩
  exact ⟨_, hget⟩

theorem reach_le_limit (h : live.Recovers tier after) (hlive : live.Consistent content)
    (hs : live.get? id = some s) (hends : tier.reach s.name ≤ s.limit ∨ live.Doubled tier s)
    {t : Segment} (ht : after.get? id = some t) : tier.reach t.name ≤ t.limit := by
  rcases h.kept ht with ⟨s', done, hs', hpending, hdone, hleft, -, heq⟩
  rw [hs] at hs'
  cases hs'
  have hname : t.name = s.name := by rw [heq]
  have hlength : t.length = s.length := by rw [heq]
  have hsegment := hlive.segment hs
  rw [hname]
  cases done with
  | nil =>
      have hlimit : t.limit = s.limit := by
        unfold Segment.limit
        rw [hpending, hlength]
        rfl
      rcases hends with hle | hdoubled
      · rw [hlimit]
        exact hle
      · rcases hdoubled with ⟨m, b, hm, -, hstop, -⟩
        rw [hpending] at hm
        exact absurd hstop (Nat.ne_of_lt (hleft m hm))
  | cons m done =>
      -- the first merge was reached, and nothing more
      have hle : tier.reach s.name ≤ m.stop := by
        rcases hends with hle | hdoubled
        · rw [Segment.limit_of_cons hpending] at hle
          exact Nat.le_trans hle (Nat.le_add_right _ _)
        · rcases hdoubled with ⟨m', b, hm', -, hstop, -⟩
          rw [hpending] at hm'
          cases hm'
          exact Nat.le_of_eq hstop
      refine Nat.le_trans hle ?_
      have hrow := hsegment.row
      rw [hpending, List.cons_append] at hrow
      cases hrest : t.pending with
      | nil =>
          rw [Segment.limit_of_nil hrest, hlength]
          refine hsegment.stop_le m ?_
          rw [hpending]
          exact List.mem_cons_self
      | cons next more =>
          rw [Segment.limit_of_cons hrest]
          refine (List.pairwise_cons.mp hrow).1 next (List.mem_append_right _ ?_)
          rw [hrest]
          exact List.mem_cons_self

end Recovers
end Table

namespace Container

variable {content : Contents} {tier : FlakyTier} {live : Table} {c : Container FlakyTier}

/-! ## How far the objects reach -/

namespace Recovering

theorem raises (h : Recovering content tier live c)
    (hcaught : ∀ parent, CaughtUp tier live c.table parent) : c.table.Raises live :=
  h.follows.raises h.liveConsistent fun hs hr => (hcaught _ _ _ hs hr).1

theorem sound (h : Recovering content tier live c)
    (hcaught : ∀ parent, CaughtUp tier live c.table parent) : c.Sound content where
  consistent := h.consistent
  wellFormed := h.wellFormed
  stored := h.stored.of_raises (h.raises hcaught)
  cached := h.cached

theorem unreached (h : Recovering content tier live c)
    (hcaught : ∀ parent, CaughtUp tier live c.table parent) : live.Unreached tier.reach := by
  intro id s m hs hm
  rcases h.follows.known hs with ⟨r, hr, -⟩
  exact (hcaught id s r hs hr).2 m hm

end Recovering

/-- The table now says how far the objects of these segments reach, up to their limits. -/
structure Reconciled (content : Contents) (segments : List Segment)
    (c after : Container FlakyTier) : Prop where
  sound : after.Sound content
  tier_eq : after.tier = c.tier
  raises : c.table.Raises after.table
  others : ∀ {id}, (∀ s ∈ segments, s.id ≠ id) → after.table.get? id = c.table.get? id
  reaches : ∀ s ∈ segments, ∃ t, after.table.get? s.id = some t ∧
    min (c.tier.reach s.name) s.limit ≤ t.storageLength

theorem Reconciled.of_known (h : c.Sound content) {s : Segment}
    (hs : c.table.get? s.id = some s) (hle : min (c.tier.reach s.name) s.limit ≤ s.storageLength) :
    Reconciled content [s] c c where
  sound := h
  tier_eq := rfl
  raises := Table.Raises.refl _
  others := fun _ => rfl
  reaches := by
    intro t ht
    rw [List.mem_singleton.mp ht]
    exact ⟨s, hs, hle⟩

theorem Reconciled.noted (h : c.Sound content) {s : Segment} (hs : c.table.get? s.id = some s) :
    Reconciled content [s] c
      { c with table := c.table.setStorageLength s.id (min (c.tier.reach s.name) s.limit) } where
  sound := h.setStorageLength hs (Nat.min_le_right _ _) (Nat.min_le_left _ _)
  tier_eq := rfl
  raises := Table.Raises.setStorageLength _ _ _
  others := by
    intro id hne
    exact Table.get?_setStorageLength_of_ne (hne s List.mem_cons_self).symm _
  reaches := by
    intro t ht
    rw [List.mem_singleton.mp ht]
    refine ⟨_, Table.get?_setStorageLength_self hs _, ?_⟩
    have hlimit := (h.consistent.segment hs).limit_le_length
    refine Nat.le_trans (Nat.le_min.mpr ⟨Nat.le_refl _, ?_⟩) (Nat.le_max_right _ _)
    exact Nat.le_trans (Nat.min_le_right _ _) hlimit

section Reconciling

variable {τ : Type} [Tier τ] [LawfulTier τ] [RecoverableTier τ]

theorem reconcile_ends {c : Container τ} (h : c.held.Sound content) {s : Segment}
    (hs : c.table.get? s.id = some s) :
    Ends (reconcile s) c (fun _ after => Reconciled content [s] c.held after.held)
      (fun _ after => RecoverableTier.Stops τ ∧ after.held.tier = c.held.tier) := by
  have hprefix := (h.stored.starts hs).length_le
  rw [← (h.consistent.segment hs).length_eq] at hprefix
  have hnote : ∀ (looked : Container τ) (usable : Nat), looked.held = c.held →
      usable = min (c.held.tier.reach s.name) s.limit →
      Ends (if s.storageLength < usable then
          modify fun c => { c with table := c.table.setStorageLength s.id usable }
        else pure ⟨⟩ : ContainerM τ PUnit) looked
        (fun _ after => Reconciled content [s] c.held after.held)
        (fun _ after => RecoverableTier.Stops τ ∧ after.held.tier = c.held.tier) := by
    intro looked usable hlooked husable
    subst husable
    by_cases hlt : s.storageLength < min (c.held.tier.reach s.name) s.limit
    · rw [if_pos hlt]
      refine Ends.modified ?_
      show Reconciled content [s] c.held
        { looked.held with table := looked.held.table.setStorageLength s.id _ }
      rw [hlooked]
      exact .noted h hs
    · rw [if_neg hlt]
      refine Ends.pure ?_
      rw [hlooked]
      exact .of_known h hs (Nat.not_lt.mp hlt)
  unfold reconcile
  refine Ends.bind (onTier_ends ((RecoverableTier.looks c.tier s.name).mono ?_ ?_))
  · intro found tier' hfound
    rcases hfound with ⟨htier, hfound⟩
    have hlooked : ({ c with tier := tier' } : Container τ).held = c.held := by
      unfold held
      rw [htier]
    have hlength : found.getD 0 = c.held.tier.reach s.name := by
      rw [hfound]
      exact FlakyTier.getD_length_object? _ _
    simp only [hlength]
    have hreaches : s.storageLength ≤ c.held.tier.reach s.name := h.stored.reaches hs
    rw [if_neg (Nat.not_lt.mpr hreaches)]
    cases hpending : s.pending with
    | nil =>
        refine hnote _ (c.held.tier.reach s.name) hlooked ?_
        rw [Segment.limit_of_nil hpending]
        exact (Nat.min_eq_left hprefix).symm
    | cons m rest =>
        refine hnote _ (min (c.held.tier.reach s.name) m.offset) hlooked ?_
        rw [Segment.limit_of_cons hpending]
  · intro _ tier' hstopped
    exact ⟨hstopped.2, hstopped.1⟩

end Reconciling

theorem Reconciled.append {middle after : Container FlakyTier} {s : Segment}
    {rest : List Segment} (h : Reconciled content [s] c middle)
    (hafter : Reconciled content rest middle after) (hapart : ∀ t ∈ rest, s.id ≠ t.id) :
    Reconciled content (s :: rest) c after where
  sound := hafter.sound
  tier_eq := hafter.tier_eq.trans h.tier_eq
  raises := h.raises.trans hafter.raises
  others := by
    intro id hne
    rw [hafter.others fun t ht => hne t (List.mem_cons_of_mem _ ht)]
    refine h.others ?_
    intro t ht
    rw [List.mem_singleton.mp ht]
    exact hne s List.mem_cons_self
  reaches := by
    intro t ht
    rcases List.mem_cons.mp ht with hself | hrest
    · rw [hself]
      rcases h.reaches s List.mem_cons_self with ⟨u, hu, hle⟩
      refine ⟨u, ?_, hle⟩
      rw [hafter.others fun t ht => (hapart t ht).symm]
      exact hu
    · rcases hafter.reaches t hrest with ⟨u, hu, hle⟩
      rw [h.tier_eq] at hle
      exact ⟨u, hu, hle⟩

theorem reconcileAll_ends {τ : Type} [Tier τ] [LawfulTier τ] [RecoverableTier τ]
    (segments : List Segment) :
    ∀ {c : Container τ}, c.held.Sound content → (∀ s ∈ segments, c.table.get? s.id = some s) →
      segments.Pairwise (fun a b => a.id ≠ b.id) →
      Ends (segments.forM reconcile) c
        (fun _ after => Reconciled content segments c.held after.held)
        (fun _ after => RecoverableTier.Stops τ ∧ after.held.tier = c.held.tier) := by
  induction segments with
  | nil =>
      intro c h _ _
      exact Ends.pure
        { sound := h, tier_eq := rfl, raises := Table.Raises.refl _, others := fun _ => rfl,
          reaches := fun _ hs => nomatch hs }
  | cons s rest ih =>
      intro c h hcurrent hapart
      rcases List.pairwise_cons.mp hapart with ⟨hfirst, hapart⟩
      refine Ends.bind ((reconcile_ends h (hcurrent s List.mem_cons_self)).mono ?_ ?_)
      · intro _ middle hmiddle
        refine (ih hmiddle.sound ?_ hapart).mono ?_ ?_
        · intro t ht
          refine (hmiddle.others ?_).trans (hcurrent t (List.mem_cons_of_mem _ ht))
          intro s' hs'
          rw [List.mem_singleton.mp hs']
          exact hfirst t ht
        · intro _ after hafter
          exact hmiddle.append hafter hfirst
        · intro _ after hafter
          exact ⟨hafter.1, hafter.2.trans hmiddle.tier_eq⟩
      · intro _ after hafter
        exact hafter

theorem Reconciled.known {after : Container FlakyTier}
    (h : Reconciled content c.table.list c after) (hc : c.Sound content) {id : SegmentId}
    {t : Segment} (ht : after.table.get? id = some t) :
    min (c.tier.reach t.name) t.limit ≤ t.storageLength := by
  rcases h.raises.of_get? ht with ⟨s, hs, -, heq⟩
  have hid := hc.consistent.id_eq hs
  have hmem : s ∈ c.table.list := by
    refine hc.wellFormed.mem_list_iff.mpr ?_
    rw [hid]
    exact hs
  rcases h.reaches s hmem with ⟨t', ht', hle⟩
  rw [hid, ht] at ht'
  cases ht'
  rw [show t.name = s.name by rw [heq], show t.limit = s.limit by rw [heq]; rfl]
  exact hle

/-- What is noted in the end is no less than the live table had noted. -/
theorem Reconciled.raises_live {after : Container FlakyTier}
    (h : Reconciled content c.table.list c after) (hc : c.Sound content)
    (hlive : live.Consistent content) (hstored : live.StoredIn content c.tier)
    (hraises : c.table.Raises live) : live.Raises after.table where
  nextId_eq := h.raises.nextId_eq.trans hraises.nextId_eq.symm
  kept := by
    intro id s hs
    rcases hraises.of_get? hs with ⟨r, hr, -, heq⟩
    have hid := hc.consistent.id_eq hr
    have hmem : r ∈ c.table.list := by
      refine hc.wellFormed.mem_list_iff.mpr ?_
      rw [hid]
      exact hr
    rcases h.reaches r hmem with ⟨t, ht, hle⟩
    rw [hid] at ht
    rcases h.raises.of_get? ht with ⟨r', hr', -, heq'⟩
    rw [hr] at hr'
    cases hr'
    refine ⟨t.storageLength, Nat.le_trans (Nat.le_min.mpr ⟨?_, ?_⟩) hle, ?_⟩
    · have hreaches := hstored.reaches hs
      rw [heq] at hreaches ⊢
      exact hreaches
    · have hlimit := (hlive.segment hs).stored_le
      rw [heq] at hlimit ⊢
      exact hlimit
    · rw [ht]
      rw [heq'] at ⊢
      rw [heq]
  old := by
    intro id t ht
    rcases h.raises.old ht with ⟨r, hr⟩
    rcases hraises.kept hr with ⟨stored, -, hget⟩
    exact ⟨_, hget⟩

/-! ## Recoveries -/

theorem markAll_sound (segments : List Segment) :
    ∀ {c : Container FlakyTier}, c.Sound content → (∀ s ∈ segments, c.table.get? s.id = some s) →
      Sound content (segments.foldl (fun c segment => markStored segment c) c) ∧
        (segments.foldl (fun c segment => markStored segment c) c).table = c.table ∧
        (segments.foldl (fun c segment => markStored segment c) c).tier = c.tier := by
  induction segments with
  | nil =>
      intro c h _
      exact ⟨h, rfl, rfl⟩
  | cons s rest ih =>
      intro c h hcurrent
      rw [List.foldl_cons]
      have hmarked : (markStored s c).Sound content :=
        h.dropUnreadable (hcurrent s List.mem_cons_self) (Nat.le_refl _)
      exact ih hmarked fun t ht => hcurrent t (List.mem_cons_of_mem _ ht)

/--
What is left of a container that was dropped: the objects of a live table, and the
table that its log leads to, which follows the live one.
-/
structure Left (content : Contents) (replayed live : Table) (tier : FlakyTier) : Prop where
  consistent : live.Consistent content
  wellFormed : live.WellFormed
  stored : live.StoredIn content tier
  accounted : live.Accounted
  follows : replayed.Follows live
  replayed : replayed.Consistent content

/-- What a recovery makes of it: the table knows how far the objects reach. -/
structure Restored (content : Contents) (replayed live : Table) (tier : FlakyTier)
    (after : Container FlakyTier) : Prop where
  sound : after.Sound content
  follows : replayed.Follows after.table
  recovers : live.Recovers tier after.table
  accounted : after.table.Accounted
  known : ∀ {id t}, after.table.get? id = some t →
    min (tier.reach t.name) t.limit ≤ t.storageLength
  same : ∀ {id t}, after.table.get? id = some t → after.tier.bytes t.name = tier.bytes t.name
  within : tier.Within after.tier

theorem Tracked.left {broken : Prop} {replayed : Table} (h : c.Tracked broken content replayed) :
    Left content replayed c.table c.tier where
  consistent := h.sound.consistent
  wellFormed := h.sound.wellFormed
  stored := h.sound.stored
  accounted := h.accounted
  follows := h.follows
  replayed := h.replayed

theorem Left.recovering {replayed : Table} (h : Left content replayed live tier)
    (htier : c.tier = tier) (hrebuilt : c.Rebuilt content replayed)
    (hwf : replayed.WellFormed) : Recovering content tier live c where
  consistent := by
    rw [hrebuilt.table_eq]
    exact h.replayed
  wellFormed := by
    rw [hrebuilt.table_eq]
    exact hwf
  cached := by
    rw [hrebuilt.table_eq]
    exact hrebuilt.cached
  follows := by
    rw [hrebuilt.table_eq]
    exact h.follows
  liveConsistent := h.consistent
  liveWellFormed := h.wellFormed
  stored := by
    rw [htier]
    exact h.stored
  same := by
    intro id s hs
    rw [htier]
  within := by
    rw [htier]
    exact FlakyTier.Within.refl tier

theorem Left.restored {replayed settled : Table} {after : Container FlakyTier}
    (h : Left content replayed live tier) (hjoins : live.Joins tier.reach settled)
    (hrecovering : Recovering content tier settled c)
    (hcaught : ∀ parent, CaughtUp tier settled c.table parent)
    (hreconciled : Reconciled content c.table.list c after) (hsound : after.Sound content) :
    Restored content replayed live tier after := by
  have hraises : settled.Raises after.table :=
    hreconciled.raises_live (hrecovering.sound hcaught) hrecovering.liveConsistent
      hrecovering.stored (hrecovering.raises hcaught)
  have hbytes : ∀ {id t}, after.table.get? id = some t →
      after.tier.bytes t.name = tier.bytes t.name := by
    intro id t ht
    rcases hraises.of_get? ht with ⟨s, hs, -, heq⟩
    rw [hreconciled.tier_eq, show t.name = s.name by rw [heq]]
    exact hrecovering.same hs
  refine { sound := hsound, follows := ?_, recovers := ?_, accounted := ?_, known := ?_,
           same := hbytes, within := ?_ }
  · exact hraises.follows (hjoins.follows h.replayed h.consistent h.follows)
  · exact ⟨settled, hjoins, hrecovering.unreached hcaught, hraises⟩
  · exact (h.accounted.joins h.consistent hjoins).raises hraises
  · intro id t ht
    rw [FlakyTier.reach, ← hbytes ht, hreconciled.tier_eq]
    exact hreconciled.known (hrecovering.sound hcaught) ht
  · rw [hreconciled.tier_eq]
    exact hrecovering.within

/-- An object that ended within what could be copied ends where the table says. -/
theorem Restored.length_eq {replayed : Table} {after : Container FlakyTier}
    (h : Restored content replayed live tier after) (hlive : live.Consistent content)
    {id : SegmentId} {s t : Segment} (hs : live.get? id = some s)
    (hends : tier.reach s.name ≤ s.limit ∨ live.Doubled tier s)
    (ht : after.table.get? id = some t) :
    (after.tier.bytes t.name).length = t.storageLength := by
  have hknown := h.known ht
  rw [Nat.min_eq_left (h.recovers.reach_le_limit hlive hs hends ht)] at hknown
  refine Nat.le_antisymm ?_ (h.sound.stored.reaches ht)
  rw [h.same ht]
  exact hknown

/-- If no object reached beyond what could be copied, all end where the table says. -/
theorem Restored.alignedIn {broken : Prop} {replayed : Table} {after : Container FlakyTier}
    (h : Restored content replayed live tier after) (hlive : live.Consistent content)
    (hsettled : live.SettledIn broken tier) : after.table.AlignedIn False after.tier := by
  intro id t ht
  rcases h.recovers.kept ht with ⟨s, -, hs, -⟩
  exact Or.inl (h.length_eq hlive hs ((hsettled id s hs).imp_right And.right) ht)

theorem Restored.failReads_eq {replayed : Table} {after : Container FlakyTier}
    (h : Restored content replayed live tier after) : after.tier.failReads = tier.failReads :=
  h.within.failReads_eq

theorem held_markAll {τ : Type} [Tier τ] [LawfulTier τ] (segments : List Segment) :
    ∀ c : Container τ, (segments.foldl (fun c segment => markStored segment c) c).held =
      segments.foldl (fun c segment => markStored segment c) c.held := by
  induction segments with
  | nil => exact fun _ => rfl
  | cons s rest ih => exact fun c => ih (markStored s c)

def statsOf (start : SequenceNumber) (records : List LogRecord) (replayed : Table)
    (tier : FlakyTier) : RecoveryStats :=
  { start, replayed := records.length, merges := coveredCount tier.reach (joinables replayed) }

/--
A recovery succeeds exactly if no name is taken twice among the records from the
newest checkpoint on and no call of the tier stops it.  It then restores what was
dropped; and if it is stopped, it leaves a recovery that can be done again.
-/
theorem recover_ends {τ : Type} [Tier τ] [LawfulTier τ] [RecoverableTier τ] {log : Log}
    {records : List LogRecord} {replayed : Table} {tier : τ}
    (h : Left content replayed live (TierView.held tier))
    (hrecords : log.records (log.latestCheckpoint?.getD .first) = records.map .ok)
    (hreplayable : Operation.Replayable content replayed (records.map (·.2))) (maxSize : Nat) :
    Ends (recover log) { cache := { maxSize }, tier }
      (fun stats after => Operation.NamesApart [] (records.map (·.2)) ∧
        Restored content replayed live (TierView.held tier) after.held ∧
        stats = statsOf (log.latestCheckpoint?.getD .first) records replayed (TierView.held tier))
      (fun _ after => (¬ Operation.NamesApart [] (records.map (·.2)) ∧ after.tier = tier) ∨
        Operation.NamesApart [] (records.map (·.2)) ∧ RecoverableTier.Stops τ ∧
          Underway content (TierView.held tier) live after.held.tier) := by
  unfold recover
  simp only [hrecords]
  refine Ends.bind ((rebuild_ends hreplayable maxSize tier).mono ?_ ?_)
  · intro replayedCount rebuilt hrebuilt
    rcases hrebuilt with ⟨hnames, htier, hrebuilt, hwf, hcount⟩
    have hstart : Recovering content (TierView.held tier) live rebuilt.held :=
      h.recovering (congrArg TierView.held htier) hrebuilt hwf
    have hreplayed : rebuilt.table = replayed := hrebuilt.table_eq
    refine Ends.get (Ends.bind ((finishJoinables_ends hstart 0).mono ?_ ?_))
    · intro finished joined hjoined
      rcases hjoined with ⟨⟨settled, hjoins, hrecovering, hcaught⟩, hfinished⟩
      have hsound := hrecovering.sound hcaught
      have hcurrent : ∀ s ∈ joined.table.list, joined.table.get? s.id = some s :=
        fun s hs => hsound.wellFormed.mem_list_iff.mp hs
      have hapart := hsound.wellFormed.ids_ascending.imp fun hlt => Nat.ne_of_lt hlt
      refine Ends.get (Ends.bind ((reconcileAll_ends joined.table.list hsound hcurrent hapart).mono
        ?_ ?_))
      · intro _ noted hnoted
        have hmarked := markAll_sound noted.table.list hnoted.sound
          fun s hs => hnoted.sound.wellFormed.mem_list_iff.mp hs
        rw [← held_markAll] at hmarked
        rcases hmarked with ⟨hmarked, htable, htier⟩
        have hsame : Reconciled content joined.table.list joined.held
            (noted.table.list.foldl (fun c segment => markStored segment c) noted).held :=
          { sound := hmarked
            tier_eq := htier.trans hnoted.tier_eq
            raises := by rw [htable]; exact hnoted.raises
            others := by rw [htable]; exact hnoted.others
            reaches := by rw [htable]; exact hnoted.reaches }
        refine Ends.get (Ends.modifying (Ends.pure
          ⟨hnames, h.restored hjoins hrecovering hcaught hsame hmarked, ?_⟩))
        rw [hcount, hfinished, hreplayed, Nat.zero_add]
        rfl
      · intro _ after hstopped
        refine Or.inr ⟨hnames, hstopped.1, ?_⟩
        rw [hstopped.2]
        exact hrecovering.underway hjoins
    · intro _ after hstopped
      exact Or.inr ⟨hnames, hstopped⟩
  · intro _ _ hfailed
    exact Or.inl hfailed

end Container
end TieredStore
