import TieredStore.Proofs.Store.Logging

/-!
# Opening a dropped store again

A store that is dropped at any point of a run and opened again over ledgers whose
faults are gone gets back what it was: its log, its contents and its segments,
apart from what is not logged.  Of that it finds out what the objects say, even if
one of them has got more bytes of its segment since.

Opening succeeds exactly if the records from the newest checkpoint on take no name
twice.  The store itself accepts the name of a batch again once the tier has
joined the batch to its parent, so that it can leave behind a log that cannot be
replayed.
-/

namespace TieredStore

open Chapter (history recent)

/--
The objects are the same, but one may have got more of the bytes of its segment
that it does not hold yet.
-/
def FlakyTier.Grows (content : Contents) (table : Table) (tier after : FlakyTier) : Prop :=
  after.object? = tier.object? ∨ ∃ id s more, table.get? id = some s ∧
    tier.bytes s.name ++ more <+: content id ∧
    tier.Sets s.name (some (tier.bytes s.name ++ more)) after

theorem Container.Left.grows {content : Contents} {replayed live : Table} {tier after : FlakyTier}
    (h : Left content replayed live tier) (hgrows : tier.Grows content live after) :
    Left content replayed live after := by
  rcases hgrows with hsame | hmore
  · exact h.of_same_objects hsame
  · rcases hmore with ⟨id, s, more, hs, hprefix, hsets⟩
    exact
      { h with
        stored := h.stored.sets h.wellFormed hs (List.prefix_append _ _) hprefix hsets }

namespace Store

/-- What is left of the store when it is dropped and the faults of the ledgers are gone. -/
def dropped (store : Store FlakyTier) (tier : FlakyTier) : Host FlakyTier :=
  { store.close with ledgers := store.close.ledgers.setFaults fun _ => {}, tier }

variable {broken : Prop} {content : Contents} {store : Store FlakyTier}

theorem Kept.dropped (h : store.Kept broken content) {tier : FlakyTier}
    (hgrows : store.container.tier.Grows content store.table tier) :
    ∃ replayed first chapters tail, store.log.Holds first chapters tail ∧
      (store.dropped tier).ledgers.Keeps first chapters tail ∧
      (store.dropped tier).ledgers.faults = {} ∧
      Operation.Logged content replayed first ((history chapters).map (·.2)) ∧
      Container.Left content replayed store.table tier := by
  rcases h with ⟨replayed, h⟩
  rcases h.leads with ⟨first, chapters, tail, hholds, hlogged⟩
  have hledgers : (store.dropped tier).ledgers = store.log.medium.setFaults fun _ => {} := by
    show store.log.medium.release.setFaults _ = _
    rw [hholds.keeps.shows.release_eq]
  refine ⟨replayed, first, chapters, tail, hholds, ?_, ?_, hlogged, h.tracked.left.grows hgrows⟩
  · rw [hledgers]
    exact hholds.keeps.setFaults _
  · rw [hledgers]
    exact (hholds.keeps.shows.setFaults _).2

/-- Opening again succeeds exactly if the log takes no name twice since its newest checkpoint. -/
theorem Kept.reopens_iff (h : store.Kept broken content) {tier : FlakyTier}
    (hgrows : store.container.tier.Grows content store.table tier) (config : Config) :
    ∃ records : List LogRecord,
      store.log.records (store.log.latestCheckpoint?.getD .first) = records.map .ok ∧
      ((∃ store', load config (store.dropped tier) = .ok store') ↔
        Operation.NamesApart [] (records.map (·.2))) := by
  rcases h.dropped hgrows with
    ⟨replayed, first, chapters, tail, hholds, hkeeps, hfaults, hlogged, hleft⟩
  refine ⟨recent chapters, hholds.records_recent, ?_⟩
  have hload := load_ends hkeeps hlogged hleft config
  constructor
  · intro hopens
    rcases hopens with ⟨store', hrun⟩
    rw [hrun] at hload
    exact hload.2.1
  · intro hnames
    cases hrun : load config (store.dropped tier) with
    | ok store' => exact ⟨store', rfl⟩
    | error failure =>
        rcases failure with ⟨e, after⟩
        rw [hrun] at hload
        have hwhy := hload.2.2
        rw [hfaults] at hwhy
        rcases hwhy with hcrashed | hflushes | htaken
        · cases hcrashed
        · cases hflushes
        · exact absurd hnames htaken

end Store

namespace StoreRun

variable {store : Store FlakyTier}

/--
A store that is dropped and opened again has the live table back, in which the
merges that the objects reach are finished and of which the tier is known to hold
no less; it reads the same and has the same log.
-/
theorem reopening_restores (list : List StoreStep)
    (hopen : (start.steps list).session = .opened store) {tier : FlakyTier}
    (hgrows : store.container.tier.Grows (start.steps list).content store.table tier)
    (hreads : tier.failReads = false) (config : Config) {store' : Store FlakyTier}
    (hload : Store.load config (store.dropped tier) = .ok store') :
    store.table.Recovers tier store'.table ∧
    store'.table.nextId = store.table.nextId ∧
    (∀ id t, store'.table.get? id = some t → ∃ s, store.table.get? id = some s ∧
      s.storageLength ≤ t.storageLength ∧
      t = { s with storageLength := t.storageLength, pending := t.pending }) ∧
    (∀ id t offset maxLength, store'.table.get? id = some t → t.merged = false →
      t.startOffset ≤ offset → offset ≤ t.length →
      ∃ drained after, (Store.readAll id offset maxLength).run store' = .ok drained after ∧
        drained.data = Bytes.slice ((start.steps list).content id) offset maxLength ∧
        ∀ drained₀ after₀, store.container.tier.failReads = false →
          (Store.readAll id offset maxLength).run store = .ok drained₀ after₀ →
          drained₀.data = drained.data) ∧
    (∀ from_, store'.log.records from_ = store.log.records from_) ∧
    store'.log.nextSeq = store.log.nextSeq := by
  have hkept := kept_of_opened list hopen
  have hsound := hkept.sound
  rcases hkept.dropped hgrows with
    ⟨replayed, first, chapters, tail, hholds, hkeeps, -, hlogged, hleft⟩
  have hloaded := Store.load_ends hkeeps hlogged hleft config
  rw [hload] at hloaded
  rcases hloaded with ⟨hholds', -, hrestored, hfetches⟩
  have hrecovers : store.table.Recovers tier store'.table := hrestored.recovers
  have hsound' : store'.Sound (start.steps list).content :=
    { container := hrestored.sound
      fetches := by
        rw [hfetches]
        exact Fetches.sane_empty _ }
  refine ⟨hrecovers, hrecovers.nextId_eq, ?_, ?_, ?_, ?_⟩
  · intro id t ht
    rcases hrecovers.kept ht with ⟨s, done, hs, -, -, -, hle, heq⟩
    exact ⟨s, hs, hle, heq⟩
  · intro id t offset maxLength ht hmerged hstart hoffset
    have hreads' := hrestored.failReads_eq.trans hreads
    rcases hsound'.readAll_exact hreads' ht hmerged hstart hoffset maxLength with
      ⟨drained, after, hrun, hexact⟩
    refine ⟨drained, after, hrun, hexact.data_eq, ?_⟩
    intro drained₀ after₀ hreads₀ hrun₀
    rcases hrecovers.kept ht with ⟨s, done, hs, -, -, -, -, heq⟩
    rw [heq] at hmerged hstart hoffset
    rcases hsound.readAll_exact hreads₀ hs hmerged hstart hoffset maxLength with
      ⟨drained₁, after₁, hrun₁, hexact₁⟩
    rw [hrun₀] at hrun₁
    cases hrun₁
    rw [hexact₁.data_eq, hexact.data_eq]
  · intro from_
    rw [hholds.records_eq, hholds'.records_eq]
  · rw [hholds.nextSeq_eq, hholds'.nextSeq_eq]

/-- A join that was broken off, and bytes that no flush has written yet. -/
private def unfinished : List StoreStep :=
  [.create "a", .append ⟨1, 7, 1, [97, 98, 99]⟩, .createBatch 1 5, .append ⟨2, 7, 2, [100, 101]⟩,
    .sealSegment 2, .merge 2 1, .switchTier false false true, .flush, .create "b",
    .append ⟨3, 7, 3, [120, 121, 122]⟩, .switchTier false false false]

private def leftUnfinished : StoreRun := start.steps (.reopen {} :: unfinished)

private theorem namesApart_unfinished (hopen : leftUnfinished.session = .opened store)
    {records : List LogRecord}
    (heq : store.log.records (store.log.latestCheckpoint?.getD .first) = records.map .ok) :
    Operation.NamesApart [] (records.map (·.2)) := by
  have hcheckpoint : leftUnfinished.session.store?.map (·.log.latestCheckpoint?) = some none := by
    decide +kernel
  have hlogged : ((LogRun.start.steps (.reopen {} ::
      (start.step (.reopen {})).logSteps unfinished)).records.filter
        fun r => .first ≤ r.1).map (·.2) =
      [.create 1 "a", .append 1 0 7 1 [97, 98, 99], .createBatch 2 (Store.batchName "a" 5) 1,
        .append 2 0 7 2 [100, 101], .seal 2 2, .merge 1 2 2 3, .create 3 "b",
        .append 3 0 7 3 [120, 121, 122]] := by decide +kernel
  rw [hopen] at hcheckpoint
  rw [show store.log.latestCheckpoint? = none from Option.some.inj hcheckpoint] at heq
  have hrecords := records_of_calls rfl (by decide) hopen heq
  rw [hrecords, show Option.getD none SequenceNumber.first = .first from rfl, hlogged]
  exact ⟨by decide, by decide, by decide, trivial⟩

/-- The tier when a flush was stopped after two bytes of the new segment. -/
private def stopped (tier : FlakyTier) : FlakyTier :=
  { tier with inner := { tier.inner with objects := tier.inner.objects.set "b" [120, 121] } }

theorem reopening_restores_unfinished :
    ∃ store store', leftUnfinished.session = .opened store ∧
      Store.load {} (store.dropped (stopped store.container.tier)) = .ok store' ∧
      store.table.Recovers (stopped store.container.tier) store'.table ∧
      store'.log.nextSeq = store.log.nextSeq := by
  have hisSome : leftUnfinished.session.store?.isSome = true := by decide +kernel
  have htier : leftUnfinished.session.tier.object? "b" = none ∧
      leftUnfinished.session.tier.failReads = false := by decide +kernel
  have hfound : (leftUnfinished.session.store?.bind (·.table.get? 3)).map (·.name) = some "b" := by
    decide +kernel
  have hcontent : leftUnfinished.content 3 = [120, 121, 122] := by decide +kernel
  rcases Option.isSome_iff_exists.mp hisSome with ⟨store, hstore⟩
  have hopen : leftUnfinished.session = .opened store := Session.eq_opened hstore
  rw [hopen] at htier
  rw [hstore] at hfound
  rcases Option.map_eq_some_iff.mp hfound with ⟨s, hs, hname⟩
  have hbytes : store.container.tier.bytes s.name = [] := by
    rw [hname]
    exact FlakyTier.bytes_of_missing htier.1
  have hgrows : store.container.tier.Grows leftUnfinished.content store.table
      (stopped store.container.tier) := by
    refine Or.inr ⟨3, s, [120, 121], hs, ?_, ?_⟩
    · rw [hbytes, hcontent]
      exact ⟨[122], rfl⟩
    · rw [hbytes, hname]
      exact FlakyTier.sets_set _ _ _
  rcases (kept_of_opened _ hopen).reopens_iff hgrows {} with ⟨records, heq, hiff⟩
  rcases hiff.mpr (namesApart_unfinished hopen heq) with ⟨store', hload⟩
  have h := reopening_restores _ hopen hgrows htier.2 {} hload
  exact ⟨store, store', hopen, hload, h.1, h.2.2.2.2.2⟩

/--
A dropped store can be opened again exactly if no name is taken twice among the
records from its newest checkpoint on.
-/
theorem reopening_succeeds_iff (list : List StoreStep)
    (hopen : (start.steps list).session = .opened store) (config : Config) :
    ∃ records : List LogRecord,
      store.log.records (store.log.latestCheckpoint?.getD .first) = records.map .ok ∧
      ((∃ store', Store.load config (store.dropped store.container.tier) = .ok store') ↔
        Operation.NamesApart [] (records.map (·.2))) :=
  (kept_of_opened list hopen).reopens_iff (Or.inl rfl) config

theorem reopening_succeeds_unfinished :
    ∃ store, leftUnfinished.session = .opened store ∧
      ∃ store', Store.load {} (store.dropped store.container.tier) = .ok store' := by
  have hisSome : leftUnfinished.session.store?.isSome = true := by decide +kernel
  rcases Option.isSome_iff_exists.mp hisSome with ⟨store, hstore⟩
  have hopen : leftUnfinished.session = .opened store := Session.eq_opened hstore
  rcases reopening_succeeds_iff _ hopen {} with ⟨records, heq, hiff⟩
  exact ⟨store, hopen, hiff.mpr (namesApart_unfinished hopen heq)⟩

/-- A segment is created under the name of a batch that the tier has joined to its parent. -/
private def reused : List StoreStep :=
  [.create "a", .createBatch 1 5, .append ⟨2, 7, 1, [97, 98]⟩, .sealSegment 2, .merge 2 1, .flush,
    .create (Store.batchName "a" 5)]

theorem reopening_fails_reused :
    ∃ store, (start.steps (.reopen {} :: reused)).session = .opened store ∧
      ¬ ∃ store', Store.load {} (store.dropped store.container.tier) = .ok store' := by
  have hisSome : (start.steps (.reopen {} :: reused)).session.store?.isSome = true := by
    decide +kernel
  have hcheckpoint : (start.steps (.reopen {} :: reused)).session.store?.map
      (·.log.latestCheckpoint?) = some none := by decide +kernel
  have hlogged : ((LogRun.start.steps (.reopen {} ::
      (start.step (.reopen {})).logSteps reused)).records.filter fun r => .first ≤ r.1).map (·.2) =
      [.create 1 "a", .createBatch 2 (Store.batchName "a" 5) 1, .append 2 0 7 1 [97, 98],
        .seal 2 2, .merge 1 2 2 0, .create 3 (Store.batchName "a" 5)] := by decide +kernel
  rcases Option.isSome_iff_exists.mp hisSome with ⟨store, hstore⟩
  have hopen := Session.eq_opened hstore
  rw [hstore] at hcheckpoint
  rcases reopening_succeeds_iff _ hopen {} with ⟨records, heq, hiff⟩
  rw [show store.log.latestCheckpoint? = none from Option.some.inj hcheckpoint] at heq
  have hrecords := records_of_calls rfl (by decide) hopen heq
  refine ⟨store, hopen, ?_⟩
  rw [hiff, hrecords, show Option.getD none SequenceNumber.first = .first from rfl, hlogged]
  intro hapart
  have htaken : Store.batchName "a" 5 ∉ [Store.batchName "a" 5, "a"] ∧ True := hapart.2.2
  exact htaken.1 List.mem_cons_self

end StoreRun
end TieredStore
