import TieredStore.Proofs.Container.Tearing
import TieredStore.Proofs.Store.Flushing
import TieredStore.Proofs.Store.Restoring

/-!
# Joins that a crash has torn

A crash in the middle of a join can leave the object of the parent with any number
of the bytes of the batch, while the object of the batch is still there.  The store
can be opened again and reads right.  But the next flush only repairs the join if
it had added no byte or all of them.  Otherwise it adds the whole batch behind the
part that is there already, drops the object of the batch, and fails.
-/

namespace TieredStore

open Chapter (history recent)

namespace Store

variable {broken : Prop} {content : Contents} {store store' : Store FlakyTier} {id : SegmentId}
  {s b : Segment} {m : PendingMerge} {rest : List PendingMerge} {k : Nat} {torn : FlakyTier}

/--
The first merge of a segment is ready, and the tier is left as a crash leaves it that
stops the join behind the first `k` bytes of the batch.
-/
structure Torn (content : Contents) (store : Store FlakyTier) (id : SegmentId) (s b : Segment)
    (m : PendingMerge) (rest : List PendingMerge) (k : Nat) (torn : FlakyTier) : Prop where
  parent : store.table.get? id = some s
  pending : s.pending = m :: rest
  parent_length : (store.container.tier.bytes s.name).length = m.offset
  batch : store.table.get? m.batch = some b
  batch_length : (store.container.tier.bytes b.name).length = b.length
  le : k ≤ m.length
  sets : store.container.tier.Sets s.name (some ((content id).take (m.offset + k))) torn

namespace Torn

theorem mem (h : store.Torn content id s b m rest k torn) : m ∈ s.pending := by
  rw [h.pending]
  exact List.mem_cons_self

theorem ready (h : store.Torn content id s b m rest k torn) (hstore : store.Kept broken content) :
    store.table.Ready { parent := id, parentName := s.name, batchName := b.name, merge := m } s b
      rest := by
  rcases hstore with ⟨replayed, hstore⟩
  exact hstore.tracked.ready h.parent h.pending h.parent_length h.batch h.batch_length

theorem bytes_eq (h : store.Torn content id s b m rest k torn) :
    torn.bytes s.name = (content id).take (m.offset + k) :=
  h.sets.bytes_self

theorem reach_eq (h : store.Torn content id s b m rest k torn)
    (hstore : store.Kept broken content) : torn.reach s.name = m.offset + k := by
  have hsegment := hstore.sound.container.consistent.segment h.parent
  have hstop : m.offset + m.length ≤ s.length := hsegment.stop_le m h.mem
  have hle := h.le
  rw [hsegment.length_eq] at hstop
  unfold FlakyTier.reach
  rw [h.bytes_eq, List.length_take]
  omega

theorem grows (h : store.Torn content id s b m rest k torn) (hstore : store.Kept broken content) :
    store.container.tier.Grows content store.table torn := by
  have htake := List.prefix_iff_eq_take.mp (hstore.sound.container.stored.starts h.parent)
  rw [h.parent_length] at htake
  refine Or.inr ⟨id, s, ((content id).drop m.offset).take k, h.parent, ?_, ?_⟩
  · rw [htake, ← List.take_add]
    exact List.take_prefix _ _
  · rw [htake, ← List.take_add]
    exact h.sets

/-- All other objects are as they were. -/
theorem settled_apart (h : store.Torn content id s b m rest k torn)
    (hstore : store.Kept broken content) {other : SegmentId} {t : Segment}
    (ht : store.table.get? other = some t) (hname : t.name ≠ s.name) :
    torn.reach t.name ≤ t.limit ∨ store.table.Doubled torn t := by
  rcases hstore with ⟨replayed, hstore⟩
  have hbytes := h.sets.bytes_of_ne hname
  rcases hstore.tracked.traced.settled other t ht with hle | hdoubled
  · left
    unfold FlakyTier.reach
    rw [hbytes]
    exact hle
  · exact Or.inr (hdoubled.2.of_same_bytes hbytes)

theorem settled (h : store.Torn content id s b m rest k torn) (hstore : store.Kept broken content)
    (hwhole : k = 0 ∨ k = m.length) : store.table.SettledIn True torn := by
  intro other t ht
  by_cases hname : t.name = s.name
  · have hsound := hstore.sound.container
    have hid := hsound.wellFormed.name_inj ht h.parent hname
    subst hid
    cases Option.some.inj (ht.symm.trans h.parent)
    have hready := h.ready hstore
    have hreach := h.reach_eq hstore
    rcases hwhole with hnone | hall
    · left
      show torn.reach s.name ≤ s.limit
      rw [Segment.limit_of_cons h.pending, hreach, hnone]
      exact Nat.le_refl m.offset
    · rw [hall] at hreach
      refine Or.inr ⟨trivial, m, b, ?_, hready.stored, hreach, h.batch, hready.complete⟩
      rw [h.pending]
      rfl
  · exact (h.settled_apart hstore ht hname).imp_right fun hdoubled => ⟨trivial, hdoubled⟩

end Torn

/-- What a flush of the reopened store makes of the torn join. -/
theorem Kept.flush_torn (hstore : store.Kept broken content)
    (h : store.Torn content id s b m rest k torn) (hwrites : torn.failWrites = false)
    (hjoins : torn.interruptConcat = false) {config : Config}
    (hload : load config (store.dropped torn) = .ok store') :
    Ends flush store' (fun _ last => (k = 0 ∨ k = m.length) ∧ last.container.AllStored content)
      (fun e last => (0 < k ∧ k < m.length) ∧
        e = .misuse (.concatenatedLength b.name s.name (m.offset + k + m.length) m.stop) ∧
        last.container.tier.object? s.name =
          some ((content id).take (m.offset + k) ++ content m.batch) ∧
        last.container.tier.object? b.name = none) := by
  rcases hstore.dropped (h.grows hstore) with
    ⟨replayed, first, chapters, tail, -, hkeeps, -, hlogged, hleft⟩
  have hloaded := load_ends hkeeps hlogged hleft config
  rw [hload] at hloaded
  rcases hloaded with ⟨-, -, hrestored, -⟩
  have hworks : ¬ CallsFail store'.container.tier :=
    FlakyTier.not_callsFail (hrestored.within.failWrites_eq.trans hwrites)
      (hrestored.within.interruptConcat_eq.trans hjoins)
  -- a join that has added nothing or everything leaves what a broken one may leave;
  -- any other leaves a merge that is ready, with an object that ends within it
  by_cases hwhole : k = 0 ∨ k = m.length
  · have hhost : (store.dropped torn).Kept True content :=
      ⟨replayed, store.table, ⟨first, chapters, tail, hkeeps, hlogged⟩, hleft,
        h.settled hstore hwhole, fun _ => trivial⟩
    have hopened := load_kept hhost config
    rw [hload] at hopened
    rcases hopened with ⟨replayed', htracks⟩
    rcases htracks.flush_works hworks with ⟨stats, last, hrun, hlast, hflushed⟩
    exact Ends.of_ok hrun ⟨hwhole, hlast.tracked.allStored hflushed⟩
  · have hpart : 0 < k ∧ k < m.length := by
      have hle := h.le
      omega
    have hstop : m.stop = m.offset + m.length := rfl
    have hreach := h.reach_eq hstore
    have hready := hrestored.ready hleft.consistent (h.ready hstore) (by
      show torn.reach s.name < m.stop
      omega)
    have hlength : (store'.container.tier.bytes s.name).length = m.offset + k := by
      rw [hrestored.same hready.parent]
      exact hreach
    have hends := hrestored.endsIn_apart (s := s) hleft.consistent fun _ _ ht hname =>
      h.settled_apart hstore ht hname
    refine onContainer_ends ((Container.flush_torn (c := store'.container) hrestored.sound hready
      (fun hbreak => hworks (Or.inr hbreak)) hends ?_ ?_).mono (fun _ _ hfalse => hfalse.elim) ?_)
    · show m.offset < (store'.container.tier.bytes s.name).length
      omega
    · show (store'.container.tier.bytes s.name).length < m.stop
      omega
    · intro e container hend
      have hover := hend.resolve_left hworks
      have hbytes : store'.container.tier.bytes s.name = (content id).take (m.offset + k) :=
        (hrestored.same hready.parent).trans h.bytes_eq
      refine ⟨hpart, ?_, ?_, hover.batch_eq⟩
      · rw [← hlength]
        exact hover.error_eq
      · rw [← hbytes, ← (hready.batch_bytes hrestored.sound).1]
        exact hover.parent_eq

theorem Kept.reads_torn (hstore : store.Kept broken content)
    (h : store.Torn content id s b m rest k torn) (hreads : torn.failReads = false)
    {config : Config} (hload : load config (store.dropped torn) = .ok store') :
    ∃ t, store'.table.get? id = some t ∧ t.startOffset = s.startOffset ∧ t.length = s.length ∧
      ∀ offset maxLength, t.startOffset ≤ offset → offset ≤ t.length →
        ∃ drained after, (readAll id offset maxLength).run store' = .ok drained after ∧
          drained.data = Bytes.slice (content id) offset maxLength := by
  rcases hstore.dropped (h.grows hstore) with
    ⟨replayed, first, chapters, tail, -, hkeeps, -, hlogged, hleft⟩
  have hloaded := load_ends hkeeps hlogged hleft config
  rw [hload] at hloaded
  rcases hloaded with ⟨-, -, hrestored, hfetches⟩
  have hsound : store'.Sound content :=
    { container := hrestored.sound
      fetches := by
        rw [hfetches]
        exact Fetches.sane_empty _ }
  have hroot : s.parent = none := by
    cases hparent : s.parent with
    | none => rfl
    | some p =>
        have hnil := hleft.consistent.pending_of_parent h.parent hparent
        rw [h.pending] at hnil
        cases hnil
  rcases hrestored.recovers.exists_of_root hleft.consistent h.parent hroot with ⟨t, ht⟩
  rcases hrestored.recovers.kept ht with ⟨s', -, hs', -, -, -, -, heq⟩
  rw [h.parent] at hs'
  cases hs'
  have hunmerged := hleft.accounted.merged_eq_of_pending hleft.consistent h.parent h.mem
  have hmerged : t.merged = false := by
    rw [heq]
    exact hunmerged
  refine ⟨t, ht, by rw [heq], by rw [heq], ?_⟩
  intro offset maxLength hstart hle
  rcases hsound.readAll_exact (hrestored.failReads_eq.trans hreads) ht hmerged hstart hle
    maxLength with ⟨drained, after, hrun, hexact⟩
  exact ⟨drained, after, hrun, hexact.data_eq⟩

end Store

namespace StoreRun

/--
A store that is opened again after a torn join reads right, but its next flush
succeeds only if the join had added nothing or everything.  If so, all is in the tier.
Otherwise the object of the parent gets the whole batch behind the part that it has,
the object of the batch is dropped, and the flush fails.
-/
theorem torn_join_repaired_iff (list : List StoreStep) {store : Store FlakyTier}
    (hopen : (start.steps list).session = .opened store) {id : SegmentId} {s b : Segment}
    {m : PendingMerge} {rest : List PendingMerge} {k : Nat} {torn : FlakyTier}
    (htorn : store.Torn (start.steps list).content id s b m rest k torn)
    (hreads : torn.failReads = false) (hwrites : torn.failWrites = false)
    (hjoins : torn.interruptConcat = false) {config : Config} {store' : Store FlakyTier}
    (hload : Store.load config (store.dropped torn) = .ok store') :
    (∃ t, store'.table.get? id = some t ∧ t.startOffset = s.startOffset ∧ t.length = s.length ∧
      ∀ offset maxLength, t.startOffset ≤ offset → offset ≤ t.length →
        ∃ drained after, (Store.readAll id offset maxLength).run store' = .ok drained after ∧
          drained.data = Bytes.slice ((start.steps list).content id) offset maxLength) ∧
    ((∃ stats last, Store.flush.run store' = .ok stats last) ↔ k = 0 ∨ k = m.length) ∧
    (∀ stats last, Store.flush.run store' = .ok stats last →
      last.container.AllStored (start.steps list).content) ∧
    ∀ e last, Store.flush.run store' = .error e last →
      e = .misuse (.concatenatedLength b.name s.name (m.offset + k + m.length) m.stop) ∧
      last.container.tier.object? s.name = some (((start.steps list).content id).take
        (m.offset + k) ++ (start.steps list).content m.batch) ∧
      last.container.tier.object? b.name = none := by
  have hkept := kept_of_opened list hopen
  have hflush := hkept.flush_torn htorn hwrites hjoins hload
  refine ⟨hkept.reads_torn htorn hreads hload, ⟨?_, ?_⟩, ?_, ?_⟩
  · intro hok
    rcases hok with ⟨stats, last, hrun⟩
    exact (hflush.ok hrun).1
  · intro hwhole
    cases hrun : Store.flush.run store' with
    | ok stats last => exact ⟨stats, last, rfl⟩
    | error e last =>
        have hpart := (hflush.error hrun).1
        omega
  · intro stats last hrun
    exact (hflush.ok hrun).2
  · intro e last hrun
    exact (hflush.error hrun).2

/-- A merge that is ready, as no flush came behind it. -/
private def readyToJoin : List StoreStep :=
  [.create "a", .append ⟨1, 7, 1, [97, 98, 99]⟩, .createBatch 1 5, .append ⟨2, 7, 2, [100, 101]⟩,
    .flush, .sealSegment 2, .merge 2 1]

/-- A crash after any number of bytes leaves a store that can be opened again. -/
private theorem torn_opens {k : Nat} (hk : k ≤ 2) :
    ∃ store s b rest torn store',
      (start.steps (.reopen {} :: readyToJoin)).session = .opened store ∧
      store.Torn (start.steps (.reopen {} :: readyToJoin)).content 1 s b
        { batch := 2, offset := 3, length := 2 } rest k torn ∧
      (torn.failReads = false ∧ torn.failWrites = false ∧ torn.interruptConcat = false) ∧
      Store.load {} (store.dropped torn) = .ok store' := by
  have hisSome : (start.steps (.reopen {} :: readyToJoin)).session.store?.isSome = true := by
    decide +kernel
  have hswitches : (start.steps (.reopen {} :: readyToJoin)).session.tier.failReads = false ∧
      (start.steps (.reopen {} :: readyToJoin)).session.tier.failWrites = false ∧
      (start.steps (.reopen {} :: readyToJoin)).session.tier.interruptConcat = false := by
    decide +kernel
  have hobjects : (start.steps (.reopen {} :: readyToJoin)).session.tier.bytes "a" =
        [97, 98, 99] ∧
      (start.steps (.reopen {} :: readyToJoin)).session.tier.bytes (Store.batchName "a" 5) =
        [100, 101] := by decide +kernel
  have hparent : ((start.steps (.reopen {} :: readyToJoin)).session.store?.bind
      (·.table.get? 1)).map (fun s => (s.name, s.pending)) =
        some ("a", [{ batch := 2, offset := 3, length := 2 }]) := by decide +kernel
  have hbatch : ((start.steps (.reopen {} :: readyToJoin)).session.store?.bind
      (·.table.get? 2)).map (fun b => (b.name, b.length)) =
        some (Store.batchName "a" 5, 2) := by decide +kernel
  have hcheckpoint : (start.steps (.reopen {} :: readyToJoin)).session.store?.map
      (·.log.latestCheckpoint?) = some none := by decide +kernel
  have hlogged : ((LogRun.start.steps (.reopen {} ::
      (start.step (.reopen {})).logSteps readyToJoin)).records.filter
        fun r => .first ≤ r.1).map (·.2) =
      [.create 1 "a", .append 1 0 7 1 [97, 98, 99], .createBatch 2 (Store.batchName "a" 5) 1,
        .append 2 0 7 2 [100, 101], .seal 2 2, .merge 1 2 2 3] := by decide +kernel
  rcases Option.isSome_iff_exists.mp hisSome with ⟨store, hstore⟩
  have hopen := Session.eq_opened hstore
  rw [hopen] at hswitches hobjects
  rw [hstore] at hparent hbatch hcheckpoint
  rcases Option.map_eq_some_iff.mp hparent with ⟨s, hs, hfields⟩
  rcases Option.map_eq_some_iff.mp hbatch with ⟨b, hb, hfields'⟩
  simp only [Prod.mk.injEq] at hfields hfields'
  rcases hfields with ⟨hname, hpending⟩
  rcases hfields' with ⟨hbname, hblength⟩
  let torn : FlakyTier :=
    { store.container.tier with
      inner := { store.container.tier.inner with
        objects := store.container.tier.inner.objects.set s.name
          (((start.steps (.reopen {} :: readyToJoin)).content 1).take (3 + k)) } }
  have htorn : store.Torn (start.steps (.reopen {} :: readyToJoin)).content 1 s b
      { batch := 2, offset := 3, length := 2 } [] k torn :=
    { parent := hs
      pending := hpending
      parent_length := by
        rw [hname, show store.container.tier.bytes "a" = [97, 98, 99] from hobjects.1]
        rfl
      batch := hb
      batch_length := by
        rw [hbname, show store.container.tier.bytes (Store.batchName "a" 5) = [100, 101]
          from hobjects.2, hblength]
        rfl
      le := hk
      sets := FlakyTier.sets_set _ _ _ }
  have hkept := kept_of_opened _ hopen
  rcases hkept.reopens_iff (htorn.grows hkept) {} with ⟨records, heq, hiff⟩
  rw [show store.log.latestCheckpoint? = none from Option.some.inj hcheckpoint] at heq
  have hrecords := records_of_calls rfl (by decide) hopen heq
  rcases hiff.mpr (by
    rw [hrecords, show Option.getD none SequenceNumber.first = .first from rfl, hlogged]
    exact ⟨by decide, by decide, trivial⟩) with ⟨store', hload⟩
  exact ⟨store, s, b, [], torn, store', hopen, htorn, hswitches, hload⟩

/-- Both bytes of the batch are there, so nothing is missing. -/
theorem torn_join_repaired_whole :
    ∃ store s b rest torn store' stats last,
      (start.steps (.reopen {} :: readyToJoin)).session = .opened store ∧
      store.Torn (start.steps (.reopen {} :: readyToJoin)).content 1 s b
        { batch := 2, offset := 3, length := 2 } rest 2 torn ∧
      (torn.failReads = false ∧ torn.failWrites = false ∧ torn.interruptConcat = false) ∧
      Store.load {} (store.dropped torn) = .ok store' ∧
      Store.flush.run store' = .ok stats last ∧
      last.container.AllStored (start.steps (.reopen {} :: readyToJoin)).content := by
  rcases torn_opens (Nat.le_refl 2) with
    ⟨store, s, b, rest, torn, store', hopen, htorn, hworks, hload⟩
  rcases torn_join_repaired_iff _ hopen htorn hworks.1 hworks.2.1 hworks.2.2 hload with
    ⟨-, hiff, hstored, -⟩
  rcases hiff.mpr (Or.inr rfl) with ⟨stats, last, hrun⟩
  exact ⟨store, s, b, rest, torn, store', stats, last, hopen, htorn, hworks, hload, hrun,
    hstored stats last hrun⟩

/-- The first of two bytes of a batch is enough. -/
theorem torn_join_overruns :
    ∃ store s b rest torn store',
      (start.steps (.reopen {} :: readyToJoin)).session = .opened store ∧
      store.Torn (start.steps (.reopen {} :: readyToJoin)).content 1 s b
        { batch := 2, offset := 3, length := 2 } rest 1 torn ∧
      Store.load {} (store.dropped torn) = .ok store' ∧
      ¬ ∃ stats last, Store.flush.run store' = .ok stats last := by
  rcases torn_opens (Nat.le_succ 1) with
    ⟨store, s, b, rest, torn, store', hopen, htorn, ⟨hreads, hwrites, hjoins⟩, hload⟩
  refine ⟨store, s, b, rest, torn, store', hopen, htorn, hload, ?_⟩
  rw [(torn_join_repaired_iff _ hopen htorn hreads hwrites hjoins hload).2.1]
  decide

end StoreRun
end TieredStore
