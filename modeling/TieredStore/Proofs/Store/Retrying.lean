import TieredStore.Proofs.Container.Refusing
import TieredStore.Proofs.Store.Flushing
import TieredStore.Proofs.Tier.Countdown

/-!
# Flushing again after a failure

A flush that fails keeps what it has done by then: all objects are still pieces of
the contents, from their start on.  But of the segment at which it failed the table
is not told how much the tier has got.  If that is more than before, the next flush
fails as well, as it writes where the object no longer ends; otherwise it succeeds.
-/

namespace TieredStore

def Container.over {σ τ : Type} (c : Container σ) (tier : τ) : Container τ :=
  { table := c.table, cache := c.cache, tier }

def Store.over {σ τ : Type} (store : Store σ) (tier : τ) : Store τ :=
  { config := store.config, log := store.log, container := store.container.over tier,
    waiters := store.waiters, fetches := store.fetches, statuses := store.statuses,
    opsSinceCheckpoint := store.opsSinceCheckpoint, recovery := store.recovery, now := store.now,
    orphans := store.orphans }

namespace Store

variable {σ τ : Type} [Tier σ] [LawfulTier σ] [Tier τ] [LawfulTier τ] {broken : Prop}
  {content : Contents} {replayed : Table}

theorem Tracks.flush_over {store : Store FlakyTier} (h : store.Tracks broken content replayed)
    {tier : τ} (hsame : (TierView.held tier).object? = store.container.tier.object?) :
    Ends flush (store.over tier) (fun _ _ => True)
      (fun _ after => after.container.held.Traced True content replayed ∧
        (TierView.Steady τ → after.table.AlignedIn True after.container.held.tier)) := by
  have htracked := (h.tracked.of_same_objects hsame).weaken fun _ => trivial
  refine onContainer_ends ((Container.flush_ends (c := (store.over tier).container) htracked
    fun _ => trivial).mono ?_ ?_)
  · intro _ _ _
    trivial
  · intro _ container hbroken
    exact ⟨hbroken.traced, hbroken.aligned⟩

/-- What the next flush over any tier with the objects that are left makes of it. -/
theorem flush_again {store : Store τ} (h : store.container.held.Traced True content replayed)
    {working : σ} (hworks : ¬ CallsFail working)
    (hsame : (TierView.held working).object? = store.container.held.tier.object?) :
    Ends flush (store.over working)
      (fun _ last => store.table.AlignedIn True store.container.held.tier ∧
        last.container.held.AllStored content)
      (fun _ _ => ¬ store.table.AlignedIn True store.container.held.tier) := by
  have htraced := h.of_same_objects hsame
  refine onContainer_ends ((Container.Traced.flush_ends (c := (store.over working).container)
    htraced fun _ => trivial).mono ?_ ?_)
  · intro _ container hafter
    exact ⟨Table.EndsIn.of_same hafter.1 hsame.symm, hafter.2⟩
  · intro _ _ hend haligned
    exact (hend.resolve_left hworks) (Table.EndsIn.of_same haligned hsame)

end Store

namespace StoreRun

/--
A flush over any tier that keeps to its contract may fail at any call.  Then the
objects still are pieces of the contents.  Another flush over any tier that works
succeeds if and only if all objects end where the table says, as they do if writes
of the first tier fail all or not at all, and then it leaves nothing to be flushed.
-/
theorem flush_retried_iff (list : List StoreStep) {store : Store FlakyTier}
    (hopen : (start.steps list).session = .opened store) {τ : Type} [Tier τ] [LawfulTier τ]
    {tier : τ} (hsame : (TierView.held tier).object? = store.container.tier.object?) {e : Error}
    {after : Store τ} (hfails : Store.flush.run (store.over tier) = .error e after) {σ : Type}
    [Tier σ] [LawfulTier σ] {working : σ} (hworks : ¬ CallsFail working)
    (hleft : (TierView.held working).object? = (TierView.held after.container.tier).object?) :
    (∀ id s, after.table.get? id = some s →
      (TierView.held after.container.tier).bytes s.name <+: (start.steps list).content id ∧
      s.storageLength ≤ ((TierView.held after.container.tier).bytes s.name).length) ∧
    ((∃ stats last, Store.flush.run (after.over working) = .ok stats last) ↔
      after.table.AlignedIn True (TierView.held after.container.tier)) ∧
    (TierView.Steady τ → after.table.AlignedIn True (TierView.held after.container.tier)) ∧
    ∀ stats last, Store.flush.run (after.over working) = .ok stats last →
      last.container.held.AllStored (start.steps list).content := by
  rcases kept_of_opened list hopen with ⟨replayed, hkept⟩
  rcases (hkept.flush_over hsame).error hfails with ⟨htraced, hsteady⟩
  have hagain := Store.flush_again htraced hworks hleft
  refine ⟨?_, ⟨?_, ?_⟩, hsteady, ?_⟩
  · intro id s hs
    exact ⟨htraced.sound.stored.starts hs, htraced.sound.stored.reaches hs⟩
  · intro hok
    rcases hok with ⟨stats, last, hrun⟩
    exact (hagain.ok hrun).1
  · intro haligned
    cases hrun : Store.flush.run (after.over working) with
    | ok stats last => exact ⟨stats, last, rfl⟩
    | error e last => exact absurd haligned (hagain.error hrun)
  · intro stats last hrun
    exact (hagain.ok hrun).2

/-- Two blocks of one segment that no flush has seen. -/
private def twoBlocks : List StoreStep :=
  [.reopen {}, .create "a", .append ⟨1, 7, 1, [97, 98]⟩, .append ⟨1, 7, 2, [99, 100]⟩]

private def healed (tier : CountdownTier) : FlakyTier :=
  { inner := tier.inner.inner }

private theorem healed_works (tier : CountdownTier) : ¬ CallsFail (healed tier) :=
  FlakyTier.not_callsFail rfl rfl

private def retried (store : Store FlakyTier) (calls : Nat) : Option (Option Error) :=
  match Store.flush.run (store.over (CountdownTier.mk store.container.tier (some calls))) with
  | .ok _ _ => none
  | .error _ after =>
      match Store.flush.run (after.over (healed after.container.tier)) with
      | .ok _ _ => some none
      | .error e _ => some (some e)

private theorem of_retried {store : Store FlakyTier} {calls : Nat} {ending : Option Error}
    (h : retried store calls = some ending) :
    ∃ e after,
      Store.flush.run (store.over (CountdownTier.mk store.container.tier (some calls))) =
        .error e after ∧
      Ends Store.flush (after.over (healed after.container.tier)) (fun _ _ => ending = none)
        (fun e' _ => ending = some e') := by
  unfold retried at h
  split at h
  · cases h
  · rename_i e after hfails
    refine ⟨e, after, hfails, ?_⟩
    split at h
    · rename_i hrun
      exact Ends.of_ok hrun (Option.some.inj h).symm
    · rename_i hrun
      exact Ends.of_error hrun (Option.some.inj h).symm

theorem flush_retried_first_block :
    ∃ store e after stats last, (start.steps twoBlocks).session = .opened store ∧
      Store.flush.run (store.over (CountdownTier.mk store.container.tier (some 2))) =
        .error e after ∧
      Store.flush.run (after.over (healed after.container.tier)) = .ok stats last ∧
      last.container.AllStored (start.steps twoBlocks).content := by
  have hfound : (start.steps twoBlocks).session.store?.bind (retried · 2) = some none := by
    decide +kernel
  rcases Option.bind_eq_some_iff.mp hfound with ⟨store, hstore, hretried⟩
  rcases of_retried hretried with ⟨e, after, hfails, hagain⟩
  have hopen := Session.eq_opened hstore
  cases hrun : Store.flush.run (after.over (healed after.container.tier)) with
  | error e' last => cases hagain.error hrun
  | ok stats last =>
      have hstored := (flush_retried_iff twoBlocks hopen rfl hfails
        (healed_works after.container.tier) rfl).2.2.2 stats last hrun
      exact ⟨store, e, after, stats, last, hopen, hfails, hrun, hstored⟩

/-- The first block has got to the tier, which the table is not told. -/
theorem flush_retried_fails_second_block :
    ∃ store e after last, (start.steps twoBlocks).session = .opened store ∧
      Store.flush.run (store.over (CountdownTier.mk store.container.tier (some 3))) =
        .error e after ∧
      Store.flush.run (after.over (healed after.container.tier)) =
        .error (.storage (.invalidOffset "a" 2 0)) last := by
  have hfound : (start.steps twoBlocks).session.store?.bind (retried · 3) =
      some (some (.storage (.invalidOffset "a" 2 0))) := by decide +kernel
  rcases Option.bind_eq_some_iff.mp hfound with ⟨store, hstore, hretried⟩
  rcases of_retried hretried with ⟨e, after, hfails, hagain⟩
  have hopen := Session.eq_opened hstore
  cases hrun : Store.flush.run (after.over (healed after.container.tier)) with
  | ok stats last => cases hagain.ok hrun
  | error e' last =>
      cases hagain.error hrun
      exact ⟨store, e, after, last, hopen, hfails, hrun⟩

end StoreRun
end TieredStore
