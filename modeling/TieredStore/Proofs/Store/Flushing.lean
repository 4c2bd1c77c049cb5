import TieredStore.Proofs.Store.Run

/-!
# Flushes of a tier that works

Whatever has happened before, a flush of a tier without faults succeeds and leaves
nothing to be flushed: all segments are in the tier with all of their bytes, no
merge is pending, and no batch is left that was merged.  So a checkpoint is then
only a matter of the log.
-/

namespace TieredStore
namespace Store

variable {broken : Prop} {content : Contents} {replayed : Table} {store after : Store FlakyTier}

theorem ensureFlushed_of_flushed {table : Table} (h : table.Flushed) :
    ensureFlushed table = .ok () := by
  have hnone : table.list.find?
      (fun s => !s.pending.isEmpty || decide (s.storageLength < s.length)) = none := by
    refine List.find?_eq_none.mpr ?_
    intro s hs
    rcases Table.mem_list.mp hs with ⟨id, hget⟩
    rcases h id s hget with ⟨hpending, hstored⟩
    rw [hpending, hstored]
    simp
  unfold ensureFlushed
  rw [hnone]

theorem checkpoint_of_flush {stats : FlushStats} (hflush : flush.run store = .ok stats after)
    (hflushed : after.table.Flushed) :
    Ends checkpoint store
      (fun seq last => ∃ log, (Log.append (.checkpoint after.table)).run after.log = .ok seq log ∧
        last = { after with log, opsSinceCheckpoint := 0 })
      (fun e last => ∃ log, (Log.append (.checkpoint after.table)).run after.log = .error e log ∧
        last = { after with log }) := by
  refine ends_checkpoint (Ends.of_ok hflush ⟨?_, fun _ => ?_⟩)
  · intro e hrefused
    rw [ensureFlushed_of_flushed hflushed] at hrefused
    cases hrefused
  · refine .of_run ?_ ?_
    · intro seq log hrun
      exact ⟨log, hrun, rfl⟩
    · intro e log hrun
      exact ⟨log, hrun, rfl⟩

theorem Tracks.flush_works (h : store.Tracks broken content replayed)
    (hworks : ¬ CallsFail store.container.tier) :
    ∃ stats after, flush.run store = .ok stats after ∧ after.Tracks broken content replayed ∧
      after.table.Flushed := by
  refine Ends.exists_ok (onContainer_ends ?_)
  refine (Container.flush_ends (c := store.container) h.tracked h.joins).mono ?_ ?_
  · intro _ container hafter
    exact ⟨h.of_forward hafter.1, hafter.2⟩
  · intro _ container hbroken
    exact hworks hbroken.callsFail

theorem Tracks.flush_eq_rounds (h : store.Tracks broken content replayed) {fuel : Nat}
    (hfuel : store.table.unflushed < fuel) :
    flush.run store = (onContainer (Container.flushRounds fuel {})).run store := by
  have heq := Container.flush_eq_flushRounds (c := store.container) h.tracked h.joins hfuel
  unfold flush
  rw [run_onContainer, run_onContainer, heq]

theorem flush_of_flushed (h : store.table.Flushed) : flush.run store = .ok {} store := by
  unfold flush
  rw [run_onContainer, Container.flush_of_flushed h]

end Store

namespace StoreRun

/--
At any point of any run, a flush of a tier whose faults are off succeeds after a
bounded number of rounds and leaves nothing to be flushed.  A second one does
nothing, and a checkpoint can only fail because of the log.
-/
theorem flush_finishes (list : List StoreStep) {store : Store FlakyTier}
    (hopen : (start.steps list).session = .opened store)
    (hwrites : store.container.tier.failWrites = false)
    (hjoins : store.container.tier.interruptConcat = false) :
    ∃ stats after, Store.flush.run store = .ok stats after ∧
      (∀ fuel, store.table.unflushed < fuel →
        (Store.onContainer (Container.flushRounds fuel {})).run store = .ok stats after) ∧
      after.container.AllStored (start.steps list).content ∧
      Store.flush.run after = .ok {} after ∧
      Store.ensureFlushed after.table = .ok () ∧
      ∀ e last, Store.checkpoint.run store = .error e last →
        ∃ log, (Log.append (.checkpoint after.table)).run after.log = .error e log := by
  rcases kept_of_opened list hopen with ⟨replayed, hkept⟩
  have hworks := FlakyTier.not_callsFail hwrites hjoins
  rcases hkept.flush_works hworks with ⟨stats, after, hrun, hafter, hflushed⟩
  refine ⟨stats, after, hrun, ?_, hafter.tracked.allStored hflushed,
    Store.flush_of_flushed hflushed, Store.ensureFlushed_of_flushed hflushed, ?_⟩
  · intro fuel hfuel
    rw [← hkept.flush_eq_rounds hfuel]
    exact hrun
  · intro e last hcheckpoint
    rcases (Store.checkpoint_of_flush hrun hflushed).error hcheckpoint with ⟨log, hlog, -⟩
    exact ⟨log, hlog⟩

/-- Flushes that fail at writes, and one that breaks off in a join, before the faults are gone. -/
private def afterFaults : List StoreStep :=
  [.reopen {}, .create "a", .append ⟨1, 7, 1, [97, 98, 99]⟩, .switchTier false true false, .flush,
    .switchTier false false false, .createBatch 1 5, .append ⟨2, 7, 2, [100, 101]⟩,
    .sealSegment 2, .merge 2 1, .append ⟨1, 7, 3, [102]⟩, .switchTier false false true, .flush,
    .switchTier false false false]

theorem flush_finishes_after_faults :
    ∃ store stats after, (start.steps afterFaults).session = .opened store ∧
      Store.flush.run store = .ok stats after ∧
      after.container.AllStored (start.steps afterFaults).content ∧
      (start.steps afterFaults).content 1 = [97, 98, 99, 100, 101, 102] := by
  have hisSome : (start.steps afterFaults).session.store?.isSome = true := by decide +kernel
  have hwrites : (start.steps afterFaults).session.tier.failWrites = false := by decide +kernel
  have hjoins : (start.steps afterFaults).session.tier.interruptConcat = false := by
    decide +kernel
  have hcontent : (start.steps afterFaults).content 1 = [97, 98, 99, 100, 101, 102] := by
    decide +kernel
  rcases Option.isSome_iff_exists.mp hisSome with ⟨store, hstore⟩
  have hopen := Session.eq_opened hstore
  rw [hopen] at hwrites hjoins
  rcases flush_finishes afterFaults hopen hwrites hjoins with ⟨stats, after, hrun, -, hstored, -⟩
  exact ⟨store, stats, after, hopen, hrun, hstored, hcontent⟩

end StoreRun
end TieredStore
