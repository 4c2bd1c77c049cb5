import Mathlib.Logic.Relation
import TieredStore.Proofs.Container.Converging
import TieredStore.Proofs.Store.Restoring
import TieredStore.Proofs.Store.Retrying

/-!
# Restarts converge

Opening a store cuts off a torn frame and drops objects of batches that have been joined,
but nothing of that is logged.  So a store that is opened again reads the same records and
goes by objects that reach as far as before, and it gets the same table.  That also holds
if the process ended in the middle of opening, after any number of calls of the tier, and
for any number of such restarts one after the other.
-/

namespace TieredStore

open Chapter (history recent)

/-! ## Restarts -/

def Host.over {σ τ : Type} (host : Host σ) (tier : τ) : Host τ :=
  { ledgers := host.ledgers, tier, now := host.now, orphans := host.orphans }

/-- The ledgers and the objects are the same, whatever faults have been switched. -/
structure Host.Resembles (host other : Host FlakyTier) : Prop where
  ledgers_eq : ∃ change, host.ledgers = other.ledgers.setFaults change
  objects_eq : host.tier.object? = other.tier.object?

theorem Host.Resembles.refl (host : Host FlakyTier) : host.Resembles host where
  ledgers_eq := by
    refine ⟨id, ?_⟩
    unfold Ledgers.setFaults
    cases host with
    | mk ledgers tier now orphans =>
        cases ledgers with
        | mk directory objects =>
            cases directory <;> rfl
  objects_eq := rfl

/--
A process opens the store over the first host, and leaves the second one behind: when
the store has been opened, or when it was stopped as soon as it had cut off a torn frame
and the tier had carried out some of its calls.
-/
inductive Host.Restarts (host : Host FlakyTier) : Host FlakyTier → Prop
  | opened {config : Config} {store : Store FlakyTier} {again : Host FlakyTier}
      (loaded : Store.load config host = .ok store) (same : again.Resembles store.close) :
      Restarts host again
  | stopped {config : Config} {calls : Nat} {e : Error} {left : Host CountdownTier}
      {again : Host FlakyTier}
      (failed : Store.load config (host.over (CountdownTier.mk host.tier (some calls))) =
        .error (e, left))
      (same : again.Resembles (left.over left.tier.inner)) : Restarts host again

namespace Store

variable {content : Contents} {replayed live live' table : Table} {tier tier' : FlakyTier}
  {first : SequenceNumber} {chapters : List Chapter} {reach : String → Nat}

theorem Restores.agree {store : Store FlakyTier}
    (h : store.Restores content replayed live tier first chapters) :
    store.table.Agree tier.reach live tier.reach := by
  intro id t s ht hs
  rcases h.restored.recovers.kept ht with ⟨s', -, hs', -, -, -, -, heq⟩
  rw [hs] at hs'
  cases hs'
  rw [heq]

theorem Restores.agrees {τ : Type} [Tier τ] [LawfulTier τ] {store : Store FlakyTier}
    {store' : Store τ} (h : store.Restores content replayed live tier first chapters)
    (h' : store'.Restores content replayed live' tier' first chapters)
    (hleft : Container.Left content replayed live' tier')
    (hagree : store.table.Agree tier.reach live' tier'.reach) :
    store'.table = store.table ∧ store'.recovery = store.recovery := by
  have hrecovered := h.restored.recovered
  refine ⟨hrecovered.unique h'.restored.recovered h.restored.sound.consistent
    h'.restored.sound.consistent hleft.replayed (h'.restored.agree hagree), ?_⟩
  rw [h.recovery_eq, h'.recovery_eq, h.holds.latestCheckpoint?_eq h'.holds]
  unfold Container.statsOf
  rw [Container.coveredCount_eq hleft.replayed hrecovered.follows hleft.follows hagree]

theorem recover_of_error {τ : Type} [Tier τ] {config : Config} {log : Log} {host : Host τ}
    {e : Error} {container : Container τ}
    (h : (Container.recover log).run
      { cache := { maxSize := config.cacheMaxSize }, tier := host.tier } = .error e container) :
    recover config log host =
      .error (e, { host with ledgers := log.medium.release, tier := container.tier }) := by
  unfold recover
  simp only [h]

/--
The log can be opened over the host and leads to the replayed table, which is that of
a container whose objects reach as far as they did for the segments of the table.
-/
structure Continues (content : Contents) (replayed : Table) (first : SequenceNumber)
    (chapters : List Chapter) (table : Table) (reach : String → Nat) (host : Host FlakyTier) :
    Prop where
  keeps : ∃ tail, host.ledgers.Keeps first chapters tail
  opens : ∃ config log, Log.openIn config host.ledgers = .ok log
  left : ∃ live, Container.Left content replayed live host.tier ∧
    table.Agree reach live host.tier.reach

theorem openIn_ok {config : Config} {ledgers : Ledgers} {log : Log}
    (h : Log.openIn config ledgers = .ok log) (config' : Config) :
    ∃ log', Log.openIn config' ledgers = .ok log' := by
  unfold Log.openIn Log.load at h ⊢
  cases hacquire : Ledgers.acquire.run ledgers with
  | error cause medium =>
      rw [hacquire] at h
      cases h
  | ok u medium =>
      rw [hacquire] at h
      simp only at h ⊢
      cases hload : Log.loadAll.run medium with
      | error e medium =>
          rw [hload] at h
          cases h
      | ok found medium => exact ⟨_, rfl⟩

namespace Continues

variable {host again : Host FlakyTier} {store : Store FlakyTier}

theorem of_resembles (hsame : again.Resembles host)
    (hkeeps : host.ledgers.Keeps first chapters [])
    (hleft : Container.Left content replayed live host.tier)
    (hagree : table.Agree reach live host.tier.reach) :
    Continues content replayed first chapters table reach again := by
  rcases hsame with ⟨⟨change, hledgers⟩, hobjects⟩
  have hkept : again.ledgers.Keeps first chapters [] := by
    rw [hledgers]
    exact hkeeps.setFaults change
  refine ⟨⟨[], hkept⟩, ?_, live, hleft.of_same_objects hobjects, ?_⟩
  · have hopen := Log.openIn_keeps hkept {}
    cases hrun : Log.openIn {} again.ledgers with
    | ok log => exact ⟨_, _, hrun⟩
    | error failure =>
        rw [hrun] at hopen
        exact absurd rfl hopen.1.1
  · intro id t s ht hs
    rw [← hagree id t s ht hs]
    unfold FlakyTier.reach FlakyTier.bytes
    rw [hobjects]

/--
Opening the host over any tier with its objects agrees with the store that was opened
first, unless a call of the tier stops it; and what it leaves behind can be opened again.
-/
theorem load_ends {τ : Type} [Tier τ] [LawfulTier τ] [RecoverableTier τ] {origin : FlakyTier}
    (h : Continues content replayed first chapters store.table origin.reach host)
    (hstore : store.Restores content replayed live origin first chapters)
    (hlogged : Operation.Logged content replayed first ((history chapters).map (·.2)))
    {other : τ} (hheld : TierView.held other = host.tier) (config : Config) :
    match load config (host.over other) with
    | .ok store' => (store'.table = store.table ∧ store'.recovery = store.recovery) ∧
        ∀ again : Host FlakyTier,
          again.Resembles (store'.close.over (TierView.held store'.close.tier)) →
          Continues content replayed first chapters store.table origin.reach again
    | .error (_, after) => RecoverableTier.Stops τ ∧
        ∀ again : Host FlakyTier, again.Resembles (after.over (TierView.held after.tier)) →
          Continues content replayed first chapters store.table origin.reach again := by
  rcases h.keeps with ⟨tail, hkeeps⟩
  rcases h.left with ⟨live', hleft, hagree⟩
  rcases h.opens with ⟨_, _, hopens⟩
  rcases openIn_ok hopens config with ⟨log, hrun⟩
  have hholds := Log.openIn_keeps hkeeps config
  rw [hrun] at hholds
  rw [← hheld] at hleft hagree
  have hother : Container.Left content replayed live' (TierView.held (host.over other).tier) :=
    hleft
  have hrecover := recover_ends hholds hlogged hother config
  have hload : load config (host.over other) = recover config log (host.over other) := by
    unfold load
    rw [show (host.over other).ledgers = host.ledgers from rfl, hrun]
  rw [hload]
  cases hrun' : recover config log (host.over other) with
  | ok store' =>
      rw [hrun'] at hrecover
      have hagrees := hstore.agrees hrecover hleft hagree
      refine ⟨hagrees, fun again hsame => ?_⟩
      have hrestored := hrecover.restored
      have hkept : store'.close.ledgers.Keeps first chapters [] := by
        show store'.log.medium.release.Keeps first chapters []
        rw [hrecover.holds.keeps.shows.release_eq]
        exact hrecover.holds.keeps
      refine of_resembles hsame hkept (hrestored.left hleft.replayed) ?_
      intro id t t' ht ht'
      rw [← hrestored.agree hagree id t t' ht ht']
      exact congrArg List.length (hrestored.same ht')
  | error failure =>
      rcases failure with ⟨e, after⟩
      rw [hrun'] at hrecover
      rcases hrecover with ⟨hkept, ⟨hnames, -⟩ | ⟨hstops, hunderway⟩⟩
      · exact absurd hstore.apart hnames
      · rcases hunderway.left hleft hagree with ⟨last, hlast, hagree'⟩
        exact ⟨hstops, fun again hsame => of_resembles hsame hkept hlast hagree'⟩

/-- A restart leaves a host that continues the first one. -/
theorem restarts {origin : FlakyTier}
    (h : Continues content replayed first chapters store.table origin.reach host)
    (hstore : store.Restores content replayed live origin first chapters)
    (hlogged : Operation.Logged content replayed first ((history chapters).map (·.2)))
    (hagain : host.Restarts again) :
    Continues content replayed first chapters store.table origin.reach again := by
  cases hagain with
  | @opened config _ _ loaded same =>
      have hload := h.load_ends hstore hlogged (show TierView.held host.tier = host.tier from rfl)
        config
      rw [show host.over host.tier = host from rfl, loaded] at hload
      exact hload.2 again same
  | @stopped config calls _ _ _ failed same =>
      have hload := h.load_ends hstore hlogged
        (show TierView.held (CountdownTier.mk host.tier (some calls)) = host.tier from rfl) config
      rw [failed] at hload
      exact hload.2 again same

end Continues
end Store

/-! ## What a run leaves behind -/

/-- A container as it is when a flush is stopped at a call of the tier, or while none runs. -/
def Store.Stopped (store : Store FlakyTier) (c : Container FlakyTier) : Prop :=
  c = store.container ∨ ∃ calls e after,
    Store.flush.run (store.over (CountdownTier.mk store.container.tier (some calls))) =
      .error e after ∧ c = after.container.held

theorem Store.Tracks.left_of_stopped {broken : Prop} {content : Contents} {replayed : Table}
    {store : Store FlakyTier} (h : store.Tracks broken content replayed)
    {c : Container FlakyTier} (hstopped : store.Stopped c) :
    Container.Left content replayed c.table c.tier := by
  rcases hstopped with rfl | ⟨calls, e, after, hfails, rfl⟩
  · exact h.tracked.left
  · have hsame : (TierView.held (CountdownTier.mk store.container.tier (some calls))).object? =
        store.container.tier.object? := rfl
    have htraced := ((h.flush_over hsame).error hfails).1
    exact
      { consistent := htraced.sound.consistent
        wellFormed := htraced.sound.wellFormed
        stored := htraced.sound.stored
        accounted := htraced.accounted
        follows := htraced.follows
        replayed := htraced.replayed }

namespace StoreRun

/--
The run may leave this host behind, when its store is dropped or has been closed.  The
ledgers may get other faults, and a flush that was running may have got some way.
-/
def Leaves (run : StoreRun) (host : Host FlakyTier) : Prop :=
  (∃ change, host.ledgers = run.session.host.ledgers.setFaults change) ∧
  match run.session with
  | .closed left => host.tier.object? = left.tier.object?
  | .opened store => ∃ c, store.Stopped c ∧ c.tier.Grows run.content c.table host.tier

theorem Leaves.parts {list : List StoreStep} {host : Host FlakyTier}
    (h : (start.steps list).Leaves host) :
    ∃ replayed live first chapters tail, host.ledgers.Keeps first chapters tail ∧
      Operation.Logged (start.steps list).content replayed first
        ((history chapters).map (·.2)) ∧
      Container.Left (start.steps list).content replayed live host.tier := by
  rcases h with ⟨⟨change, hledgers⟩, htier⟩
  have hkept : (start.steps list).Kept (Interrupts list) := kept_start.steps list id
  unfold Kept at hkept
  cases hsession : (start.steps list).session with
  | closed left =>
      rw [hsession] at hkept hledgers htier
      rcases hkept with ⟨replayed, live, ⟨first, chapters, tail, hkeeps, hlogged⟩, hleft, -⟩
      refine ⟨replayed, live, first, chapters, tail, ?_, hlogged, hleft.of_same_objects htier⟩
      rw [hledgers]
      exact hkeeps.setFaults change
  | opened store =>
      rw [hsession] at hkept hledgers htier
      rcases hkept with ⟨replayed, hkept⟩
      rcases hkept.leads with ⟨first, chapters, tail, hholds, hlogged⟩
      rcases htier with ⟨c, hstopped, hgrows⟩
      refine ⟨replayed, c.table, first, chapters, tail, ?_, hlogged,
        (hkept.left_of_stopped hstopped).grows hgrows⟩
      rw [hledgers]
      show (store.log.medium.release.setFaults change).Keeps first chapters tail
      rw [hholds.keeps.shows.release_eq]
      exact hholds.keeps.setFaults change

/--
If a store can be opened over what a run has left behind, then it can be opened after
any number of restarts, be they complete or stopped at any call of the tier, and it gets
the same table and finishes the same number of merges.
-/
theorem restarts_converge (list : List StoreStep) {host : Host FlakyTier}
    (hleft : (start.steps list).Leaves host) {config : Config} {store : Store FlakyTier}
    (hload : Store.load config host = .ok store) {again : Host FlakyTier}
    (hagain : Relation.ReflTransGen Host.Restarts host again) (config' : Config) :
    ∃ store', Store.load config' again = .ok store' ∧ store'.table = store.table ∧
      store'.recovery = store.recovery := by
  rcases hleft.parts with ⟨replayed, live, first, chapters, tail, hkeeps, hlogged, hlive⟩
  have hstart : ∃ log, Log.openIn config host.ledgers = .ok log ∧
      Store.recover config log host = .ok store := by
    unfold Store.load at hload
    cases hopen : Log.openIn config host.ledgers with
    | error failure =>
        rw [hopen] at hload
        cases hload
    | ok log =>
        rw [hopen] at hload
        exact ⟨log, rfl, hload⟩
  rcases hstart with ⟨log, hopen, hrecover⟩
  have hholds := Log.openIn_keeps hkeeps config
  rw [hopen] at hholds
  have hheld : Container.Left (start.steps list).content replayed live
      (TierView.held host.tier) := hlive
  have hstore := Store.recover_ends hholds hlogged hheld config
  rw [hrecover] at hstore
  have hfirst : Store.Continues (start.steps list).content replayed first chapters store.table
      host.tier.reach host := by
    refine ⟨⟨tail, hkeeps⟩, ⟨config, log, hopen⟩, live, hlive, ?_⟩
    exact hstore.agree
  have hlast : Store.Continues (start.steps list).content replayed first chapters store.table
      host.tier.reach again := by
    induction hagain with
    | refl => exact hfirst
    | tail _ hnext ih => exact ih.restarts hstore hlogged hnext
  have hends := hlast.load_ends hstore hlogged (show TierView.held again.tier = again.tier from rfl)
    config'
  rw [show again.over again.tier = again from rfl] at hends
  cases hrun : Store.load config' again with
  | ok store' =>
      rw [hrun] at hends
      exact ⟨store', rfl, hends.1⟩
  | error failure =>
      rw [hrun] at hends
      exact absurd hends.1 id

/-- A join broke off behind its bytes, so that the object of the batch is still there. -/
private def brokenJoin : List StoreStep :=
  [.create "a", .append ⟨1, 7, 1, [97, 98, 99]⟩, .createBatch 1 5, .append ⟨2, 7, 2, [100, 101]⟩,
    .sealSegment 2, .merge 2 1, .switchTier false false true, .flush,
    .switchTier false false false]

private def leftBroken : StoreRun := start.steps (.reopen {} :: brokenJoin)

private def brokenRecords : List LogRecord :=
  (LogRun.start.steps (.reopen {} :: (start.step (.reopen {})).logSteps brokenJoin)).records.filter
    fun r => .first ≤ r.1

private def unrecovered (tier : FlakyTier) (calls : Nat) : Container CountdownTier :=
  { cache := { maxSize := Config.cacheMaxSize {} }, tier := CountdownTier.mk tier (some calls) }

private def batchWhenStopped (calls : Nat) : Option (Option Bytes) :=
  match (Container.recoverFrom .first (brokenRecords.map .ok)).run
      (unrecovered leftBroken.session.tier calls) with
  | .ok _ _ => none
  | .error _ after => some (after.tier.inner.object? (Store.batchName "a" 5))

private theorem records_brokenJoin {store : Store FlakyTier}
    (hopen : leftBroken.session = .opened store) {records : List LogRecord}
    (hrecords : store.log.records .first = records.map .ok) : records = brokenRecords := by
  have hlogged := records_of_calls rfl (by decide) hopen hrecords
  unfold brokenRecords
  exact hlogged

/-- The third call of the tier drops the object of the batch, and the fourth one fails. -/
private theorem opening_stopped {store : Store FlakyTier}
    (hopen : leftBroken.session = .opened store) (hnone : store.log.latestCheckpoint? = none)
    {records : List LogRecord} (hrecords : store.log.records .first = records.map .ok)
    (hsame : records = brokenRecords) :
    ∃ e left, Store.load {} ((store.dropped store.container.tier).over
        (CountdownTier.mk store.container.tier (some 3))) = .error (e, left) ∧
      left.tier.inner.object? (Store.batchName "a" 5) = none := by
  have hstopped : batchWhenStopped 3 = some none := by decide +kernel
  rcases (kept_of_opened _ hopen).dropped (Or.inl rfl) with
    ⟨replayed, first, chapters, tail, hholds, hkeeps, hfaults, -⟩
  rcases Log.openIn_of_no_faults hkeeps hfaults {} with ⟨log, hrun, hfound⟩
  have hlatest : log.latestCheckpoint? = none := (hholds.latestCheckpoint?_eq hfound).trans hnone
  have hread : log.records .first = brokenRecords.map .ok := by
    rw [← hsame, ← hrecords, hholds.records_eq, hfound.records_eq]
  have hrecover : (Container.recover log).run (unrecovered store.container.tier 3) =
      (Container.recoverFrom .first (brokenRecords.map .ok)).run
        (unrecovered store.container.tier 3) := by
    rw [Container.recover_eq, hlatest, ← hread]
    rfl
  unfold Store.load
  rw [show ((store.dropped store.container.tier).over (CountdownTier.mk store.container.tier
    (some 3))).ledgers = (store.dropped store.container.tier).ledgers from rfl, hrun]
  unfold batchWhenStopped at hstopped
  rw [hopen, show (Session.opened store).tier = store.container.tier from rfl,
    ← hrecover] at hstopped
  cases hstop : (Container.recover log).run (unrecovered store.container.tier 3) with
  | ok stats after =>
      rw [hstop] at hstopped
      cases hstopped
  | error e after =>
      rw [hstop] at hstopped
      exact ⟨e, _, Store.recover_of_error hstop, Option.some.inj hstopped⟩

/--
The object that the join has left behind is dropped, and then opening is stopped; the
store that is opened next is the one that would have been opened at first.
-/
theorem restarts_converge_stopped :
    ∃ store host again first last, leftBroken.session = .opened store ∧
      leftBroken.Leaves host ∧ Store.load {} host = .ok first ∧ host.Restarts again ∧
      host.tier.object? (Store.batchName "a" 5) = some [100, 101] ∧
      again.tier.object? (Store.batchName "a" 5) = none ∧
      Store.load {} again = .ok last ∧ last.table = first.table ∧
      last.recovery = first.recovery := by
  have hisSome : leftBroken.session.store?.isSome = true := by decide +kernel
  have hcheckpoint : leftBroken.session.store?.map (·.log.latestCheckpoint?) = some none := by
    decide +kernel
  have hbatch : leftBroken.session.tier.object? (Store.batchName "a" 5) = some [100, 101] := by
    decide +kernel
  have hlogged : brokenRecords.map (·.2) = [.create 1 "a", .append 1 0 7 1 [97, 98, 99],
      .createBatch 2 (Store.batchName "a" 5) 1, .append 2 0 7 2 [100, 101], .seal 2 2,
      .merge 1 2 2 3] := by decide +kernel
  rcases Option.isSome_iff_exists.mp hisSome with ⟨store, hstore⟩
  have hopen : leftBroken.session = .opened store := Session.eq_opened hstore
  rw [hstore] at hcheckpoint
  have hnone : store.log.latestCheckpoint? = none := Option.some.inj hcheckpoint
  rw [hopen] at hbatch
  let host := store.dropped store.container.tier
  have hleft : leftBroken.Leaves host := by
    refine ⟨⟨fun _ => {}, ?_⟩, ?_⟩
    · rw [hopen]
      rfl
    · rw [hopen]
      exact ⟨store.container, Or.inl rfl, Or.inl rfl⟩
  rcases (kept_of_opened _ hopen).reopens_iff (Or.inl rfl) {} with ⟨records, hrecords, hiff⟩
  rw [hnone] at hrecords
  have hsame := records_brokenJoin hopen hrecords
  have hnames : Operation.NamesApart [] (records.map (·.2)) := by
    rw [hsame, hlogged]
    exact ⟨by decide, by decide, trivial⟩
  rcases hiff.mpr hnames with ⟨first, hload⟩
  rcases opening_stopped hopen hnone hrecords hsame with ⟨e, left, hfailed, hgone⟩
  have hrestarts : host.Restarts (left.over left.tier.inner) :=
    .stopped hfailed (Host.Resembles.refl _)
  rcases restarts_converge _ hleft hload (.single hrestarts) {} with ⟨last, hlast, htable, hstats⟩
  exact ⟨store, host, _, first, last, hopen, hleft, hload, hrestarts, hbatch, hgone, hlast, htable,
    hstats⟩

end StoreRun
end TieredStore
