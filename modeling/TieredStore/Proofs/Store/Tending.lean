import TieredStore.Proofs.Container.Maintaining
import TieredStore.Proofs.Log.Missing
import TieredStore.Proofs.Store.Executing
import TieredStore.Proofs.Waiters

/-!
# Calls tend a store

A call of a store keeps the cache up, lets whoever waits wait on or be told rightly,
and keeps no failure for want of bytes as the outcome of a read.  It does not fail
for want of bytes itself, and neither does a checkpoint that is written on the way
and whose failure is passed over.
-/

namespace TieredStore

/-- No read of the tier was found to miss bytes. -/
def Fetches.Delivering (fetches : Fetches) : Prop :=
  ∀ {ticket outcome}, fetches.arrived.get? ticket = some outcome → Delivers outcome

theorem Fetches.delivering_empty : Fetches.Delivering {} := fun hget => nomatch hget

namespace Store

/-- A store that described these contents is tended; it now describes those. -/
structure Tends {τ : Type} (content grown : Contents) (store after : Store τ) : Prop where
  container : store.container.Upkeep after.container
  fetches : store.fetches.Delivering → after.fetches.Delivering
  waiters : store.waiters.Heeds content grown after.waiters

section Tends

variable {τ : Type} {content grown last : Contents} {store middle after : Store τ}

theorem Tends.refl (content : Contents) (store : Store τ) : store.Tends content content store :=
  ⟨.refl _, fun h => h, .refl _ _⟩

theorem Tends.trans (h : store.Tends content grown middle) (hafter : middle.Tends grown last after) :
    store.Tends content last after where
  container := h.container.trans hafter.container
  fetches := fun hfetches => hafter.fetches (h.fetches hfetches)
  waiters := h.waiters.trans hafter.waiters

theorem Tends.with_container {container : Container τ}
    (h : store.container.Upkeep container) : store.Tends content content { store with container } :=
  ⟨h, fun h => h, .refl _ _⟩

theorem Tends.with_waiters {waiters : Waiters} (h : store.waiters.Heeds content grown waiters) :
    store.Tends content grown { store with waiters } :=
  ⟨.refl _, fun h => h, h⟩

instance : Std.Refl (Tends (τ := τ) content content) := ⟨Tends.refl content⟩

instance : Trans (Tends (τ := τ) content content) (Tends content content) (Tends content content) :=
  ⟨Tends.trans⟩

/-! ## Parts of a store -/

theorem onContainer_tends {α : Type} {call : ContainerM τ α}
    (h : Container.Maintains call store.container) :
    Carries (Tends content content) (onContainer call) store := by
  refine onContainer_ends (h.mono ?_ ?_)
  · intro _ container hafter
    exact .with_container hafter
  · intro _ container hafter
    exact ⟨.with_container hafter.1, hafter.2⟩

theorem onLog_tends {α : Type} {call : LogM α} (h : NeverMisses call) :
    Carries (Tends content content) (onLog call) store := by
  refine onLog_ends ((h store.log).mono ?_ ?_)
  · intro _ log _
    exact ⟨.refl _, fun h => h, .refl _ _⟩
  · intro _ log hdelivers
    exact ⟨⟨.refl _, fun h => h, .refl _ _⟩, hdelivers⟩

theorem truncateLog_tends (store : Store τ) :
    Carries (Tends content content) truncateLog store := by
  refine ends_truncateLog (.refl content store) fun upto =>
    (Log.neverMisses_truncate upto store.log).mono ?_ ?_
  · intro _ log _
    exact ⟨.refl _, fun h => h, .refl _ _⟩
  · intro _ log hdelivers
    exact ⟨⟨.refl _, fun h => h, .refl _ _⟩, hdelivers⟩

end Tends

variable {broken : Prop} {content : Contents} {store : Store FlakyTier} {op : Operation}

/-! ## Flushes and checkpoints -/

theorem Kept.flush_tends (h : store.Kept broken content) :
    Carries (Tends content content) flush store := by
  rcases h with ⟨replayed, h⟩
  exact onContainer_tends (Container.flush_maintains (c := store.container) h.tracked h.joins)

theorem Kept.checkpoint_tends (h : store.Kept broken content) :
    Carries (Tends content content) checkpoint store := by
  have hensure : ∀ table, Delivers (ensureFlushed table) := by
    intro table
    unfold ensureFlushed
    split
    · exact .ok ()
    · refine .error ?_
      exact fun h => h
  refine ends_checkpoint (h.flush_tends.mono ?_ fun _ _ hfailed => hfailed)
  intro _ flushed hflushed
  have hlogged : ∀ log ops, store.Tends content content
      { flushed with log, opsSinceCheckpoint := ops } := fun log ops =>
    hflushed.trans ⟨.refl _, fun h => h, .refl _ _⟩
  refine ⟨fun e he => ⟨hflushed, hensure _ e he⟩, fun _ => ?_⟩
  refine (Log.neverMisses_append _ flushed.log).mono ?_ ?_
  · intro _ log _
    exact hlogged log 0
  · intro _ log hdelivers
    exact ⟨hlogged log flushed.opsSinceCheckpoint, hdelivers⟩

theorem Kept.checkpointIfDue_tends (h : store.Kept broken content) :
    Ends checkpointIfDue store (fun _ after => store.Tends content content after)
      (fun _ _ => False) := by
  refine ends_checkpointIfDue (fun _ => h.checkpoint_tends.mono ?_ ?_) fun _ => .refl content store
  · intro _ after hafter
    exact hafter
  · intro _ after hafter
    exact hafter.1

/-! ## Operations -/

theorem Kept.taken_tends (h : store.Kept broken content) (hop : op.Regular content store.table)
    (hcheckpoint : op.isCheckpoint = false) (log : Log) :
    store.Tends content (content.after op) (store.taken op log) where
  container := by
    rcases h with ⟨replayed, h⟩
    exact .applyLogged h.tracked.sound hop hcheckpoint
  fetches := fun hfetches => hfetches
  waiters := by
    rcases h with ⟨replayed, h⟩
    exact .wakeReaders _ hop.fits fun hs => (h.tracked.sound.consistent.segment hs).length_eq

theorem Kept.executes_tends (h : store.Kept broken content) {α : Type} {call : StoreM FlakyTier α}
    {written : α → Contents} (hcall : store.Executes content call written) :
    Ends call store (fun a after => store.Tends content (written a) after)
      (fun e after => store.Tends content content after ∧ ¬ e.MissesBytes) := by
  have hrefl := Tends.refl content store
  have hrefused : ∀ cause, store.Tends content content store ∧ ¬ (Error.refused cause).MissesBytes :=
    fun _ => ⟨hrefl, fun h => h⟩
  refine hcall.ends hrefused ?_
  intro op a hcheckpoint hfresh hwritten
  rw [← hwritten]
  refine h.taking_ends hcheckpoint hfresh hrefused ?_ ?_
  · intro e log hrun _
    exact ⟨⟨.refl _, fun h => h, .refl _ _⟩, (Log.neverMisses_append op store.log).error hrun⟩
  · -- the checkpoint that may follow works on the store with the operation applied
    intro log hop htaken
    refine htaken.checkpointIfDue_tends.mono ?_ ?_
    · intro _ after hafter
      exact (h.taken_tends hop hcheckpoint log).trans hafter
    · intro _ _ hfalse
      exact hfalse.elim

end Store
end TieredStore
