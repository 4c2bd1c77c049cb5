import TieredStore.Proofs.Container.Finding
import TieredStore.Proofs.Container.Flushing
import TieredStore.Proofs.Container.Recovering
import TieredStore.Proofs.Store.History

/-!
# What a store keeps

The log of an open store leads to a table that the table of the container
follows, for the contents that the callers have written, and all bytes are in
their places.  The reads of the tier that have been started are valid, and their
numbers are below the next one.

A flush, a checkpoint and a truncation of the log keep this, whether or not they
succeed, and leave the contents as they are.
-/

namespace TieredStore

/-- Reads that have been started are valid, each has a number of its own and no outcome yet. -/
structure Fetches.Sane (table : Table) (fetches : Fetches) : Prop where
  valid : ∀ fetch ∈ fetches.queue, fetch.2.Valid table
  queue_lt : ∀ fetch ∈ fetches.queue, fetch.1 < fetches.nextTicket
  arrived_lt : ∀ {ticket outcome}, fetches.arrived.get? ticket = some outcome →
    ticket < fetches.nextTicket
  nodup : (fetches.queue.map (·.1)).Nodup
  unsent : ∀ fetch ∈ fetches.queue, fetches.arrived.get? fetch.1 = none

theorem Fetches.sane_of_idle {fetches : Fetches} {table : Table} (hqueue : fetches.queue = [])
    (harrived : ∀ {ticket outcome}, fetches.arrived.get? ticket = some outcome →
      ticket < fetches.nextTicket) : fetches.Sane table := by
  have hnone : ∀ fetch, fetch ∉ fetches.queue := by
    intro fetch hfetch
    rw [hqueue] at hfetch
    cases hfetch
  refine { valid := ?_, queue_lt := ?_, arrived_lt := harrived, nodup := ?_, unsent := ?_ }
  · exact fun fetch hfetch => absurd hfetch (hnone fetch)
  · exact fun fetch hfetch => absurd hfetch (hnone fetch)
  · rw [hqueue]
    exact List.nodup_nil
  · exact fun fetch hfetch => absurd hfetch (hnone fetch)

theorem Fetches.sane_empty (table : Table) : Fetches.Sane table {} :=
  sane_of_idle rfl nofun

theorem Fetches.Sane.advances {before after : Table} {fetches : Fetches}
    (h : fetches.Sane before) (hadvances : before.Advances after) : fetches.Sane after where
  valid := fun fetch hfetch => (h.valid fetch hfetch).advances hadvances
  queue_lt := h.queue_lt
  arrived_lt := h.arrived_lt
  nodup := h.nodup
  unsent := h.unsent

namespace Store

/--
The store describes these contents, and its log leads to this table.  Joins can have
broken off only if it is said so.
-/
structure Tracks (broken : Prop) (content : Contents) (replayed : Table)
    (store : Store FlakyTier) : Prop where
  leads : store.log.Leads content replayed
  tracked : store.container.Tracked broken content replayed
  joins : JoinsBreak store.container.tier → broken
  fetches : store.fetches.Sane store.container.table

/-- The store describes these contents. -/
def Kept (broken : Prop) (content : Contents) (store : Store FlakyTier) : Prop :=
  ∃ replayed, store.Tracks broken content replayed

variable {broken : Prop} {content : Contents} {replayed : Table} {store : Store FlakyTier}

/-! ## Parts of a store -/

theorem run_onContainer {τ α : Type} (call : ContainerM τ α) (store : Store τ) :
    (onContainer call).run store = match call.run store.container with
      | .ok a container => .ok a { store with container }
      | .error e container => .error e { store with container } := rfl

theorem onContainer_ends {τ α : Type} {call : ContainerM τ α} {store : Store τ}
    {answered : α → Store τ → Prop} {failed : Error → Store τ → Prop}
    (h : Ends call store.container (fun a container => answered a { store with container })
      (fun e container => failed e { store with container })) :
    Ends (onContainer call) store answered failed := by
  unfold Ends
  rw [run_onContainer]
  exact Ends.elim (call.run store.container) rfl h

theorem onLog_ends {τ α : Type} {call : LogM α} {store : Store τ}
    {answered : α → Store τ → Prop} {failed : Error → Store τ → Prop}
    (h : Ends call store.log (fun a log => answered a { store with log })
      (fun e log => failed e { store with log })) :
    Ends (onLog call) store answered failed := by
  unfold Ends EStateM.run onLog
  exact Ends.elim (call.run store.log) rfl h

theorem attempt_ends {τ α : Type} {call : StoreM τ α} {store : Store τ}
    {answered : Unit → Store τ → Prop} {failed : Error → Store τ → Prop}
    (h : Ends call store (fun _ after => answered () after) (fun _ after => answered () after)) :
    Ends (attempt call) store answered failed := by
  unfold Ends EStateM.run attempt
  exact Ends.elim (call.run store) rfl h

theorem require_ends {τ : Type} (store : Store τ) (id : SegmentId) :
    Ends (require id) store
      (fun s after => after = store ∧ store.container.table.get? id = some s)
      (fun _ after => after = store) := by
  unfold require
  refine Ends.get ?_
  cases hrequire : store.table.require id with
  | error cause => exact Ends.throw rfl
  | ok s => exact Ends.pure ⟨rfl, Table.require_eq_ok_iff.mp hrequire⟩

theorem require_of_get? {τ : Type} {store : Store τ} {id : SegmentId} {s : Segment}
    (hs : store.container.table.get? id = some s) : (require id).run store = .ok s store := by
  unfold require
  rw [EStateM.run_bind, EStateM.run_get]
  have hrequire : store.table.require id = .ok s := Table.require_eq_ok_iff.mpr hs
  simp only [hrequire]
  rfl

section Programs

variable {τ : Type} {store : Store τ} {failed : Error → Store τ → Prop}

theorem ends_truncateLog {answered : Store τ → Prop} (hidle : answered store)
    (hlog : ∀ upto, Ends (Log.truncate upto) store.log (fun _ log => answered { store with log })
      (fun e log => failed e { store with log })) :
    Ends truncateLog store (fun _ after => answered after) failed := by
  unfold truncateLog
  refine Ends.get ?_
  extract_lets log
  split
  · split
    · exact Ends.pure hidle
    · refine Ends.bind (onLog_ends ((hlog _).mono ?_ fun _ _ hfailed => hfailed))
      intro _ log hanswered
      exact Ends.pure hanswered
  · exact Ends.pure hidle

variable [Tier τ]

/-- A checkpoint flushes, and logs the table that is left unless it is refused. -/
theorem ends_checkpoint {answered : SequenceNumber → Store τ → Prop}
    (h : Ends flush store
      (fun _ flushed =>
        (∀ e, ensureFlushed flushed.table = .error e → failed e flushed) ∧
        (ensureFlushed flushed.table = .ok () →
          Ends (Log.append (.checkpoint flushed.table)) flushed.log
            (fun seq log => answered seq { flushed with log, opsSinceCheckpoint := 0 })
            (fun e log => failed e { flushed with log })))
      failed) :
    Ends checkpoint store answered failed := by
  unfold checkpoint
  refine Ends.bind (Ends.discard (h.mono ?_ fun _ _ hfailed => hfailed))
  rintro _ flushed ⟨hrefused, hlogged⟩
  refine Ends.get ?_
  extract_lets table
  cases hensure : ensureFlushed table with
  | error e => exact Ends.throw (hrefused e hensure)
  | ok u =>
      refine Ends.bind (onLog_ends ((hlogged hensure).mono ?_ fun _ _ hfailed => hfailed))
      intro seq log hanswered
      exact Ends.modifying (Ends.pure hanswered)

theorem ends_checkpointIfDue {answered : Unit → Store τ → Prop}
    (hdue : 0 < store.config.checkpointEveryOps ∧
        store.config.checkpointEveryOps ≤ store.opsSinceCheckpoint →
      Ends checkpoint store (fun _ after => answered () after) (fun _ after => answered () after))
    (hidle : ¬ (0 < store.config.checkpointEveryOps ∧
        store.config.checkpointEveryOps ≤ store.opsSinceCheckpoint) → answered () store) :
    Ends checkpointIfDue store answered failed := by
  unfold checkpointIfDue
  refine Ends.get ?_
  simp only
  split
  · rename_i htime
    exact attempt_ends (hdue htime)
  · rename_i htime
    exact Ends.pure (hidle htime)

end Programs

/-! ## Flushing -/

theorem Tracks.of_forward (h : store.Tracks broken content replayed)
    {container : Container FlakyTier}
    (hforward : store.container.Forward broken content replayed container) :
    Tracks broken content replayed { store with container } where
  leads := h.leads
  tracked := hforward.tracked
  joins := fun hbreak => h.joins (hforward.noWorse.joins hbreak)
  fetches := h.fetches.advances hforward.advances

theorem Tracks.of_brokenOff (h : store.Tracks broken content replayed)
    {container : Container FlakyTier}
    (hbroken : store.container.BrokenOff broken content replayed container) :
    Tracks broken content replayed { store with container } where
  leads := h.leads
  tracked := hbroken.traced.tracked (hbroken.aligned trivial)
  joins := fun hbreak => h.joins (hbroken.noWorse.joins hbreak)
  fetches := h.fetches.advances hbroken.advances

theorem Tracks.flush_ends (h : store.Tracks broken content replayed) :
    Ends flush store (fun _ after => after.Tracks broken content replayed)
      (fun _ after => after.Tracks broken content replayed) := by
  unfold flush
  refine onContainer_ends
    ((Container.flush_ends (c := store.container) h.tracked h.joins).mono ?_ ?_)
  · intro _ container hforward
    exact h.of_forward hforward.1
  · intro _ container hbroken
    exact h.of_brokenOff hbroken

theorem Kept.flush_ends (h : store.Kept broken content) :
    Ends flush store (fun _ after => after.Kept broken content)
      (fun _ after => after.Kept broken content) := by
  rcases h with ⟨replayed, h⟩
  refine h.flush_ends.mono ?_ ?_
  · intro _ after hafter
    exact ⟨replayed, hafter⟩
  · intro _ after hafter
    exact ⟨replayed, hafter⟩

/-! ## Checkpoints -/

theorem flushed_of_ensureFlushed {table : Table} {u : Unit} (hconsistent : table.Consistent content)
    (h : ensureFlushed table = .ok u) : table.Flushed := by
  intro id s hs
  have hmem : s ∈ table.list := Table.mem_list.mpr ⟨id, hs⟩
  unfold ensureFlushed at h
  cases hfind : table.list.find?
      (fun s => !s.pending.isEmpty || decide (s.storageLength < s.length)) with
  | some found =>
      rw [hfind] at h
      cases h
  | none =>
      have hclean := List.find?_eq_none.mp hfind s hmem
      simp only [Bool.not_eq_true, Bool.or_eq_false_iff, Bool.not_eq_false',
        List.isEmpty_iff, decide_eq_false_iff_not] at hclean
      exact ⟨hclean.1, Nat.le_antisymm (hconsistent.segment hs).stored_le_length
        (Nat.not_lt.mp hclean.2)⟩

theorem Tracks.append_checkpoint (h : store.Tracks broken content replayed)
    (hflushed : store.container.table.Flushed) :
    Ends (Log.append (.checkpoint store.container.table)) store.log
      (fun _ log => Tracks broken content store.container.table { store with log })
      (fun _ log => Tracks broken content replayed { store with log }) := by
  have hsound := h.tracked.sound
  have hregular : (Operation.checkpoint store.container.table).Regular content replayed :=
    { fits := trivial
      fresh := by
        intro id hid
        cases hid
      snapshot := by
        intro t ht
        cases ht
        exact ⟨hsound.consistent, hsound.wellFormed, hflushed⟩ }
  refine (h.leads.append_ends hregular hsound.wellFormed).mono ?_ ?_
  · intro _ log hlog
    exact
      { leads := hlog
        tracked :=
          { h.tracked with
            follows := Table.Follows.refl _
            replayed := hsound.consistent }
        joins := h.joins
        fetches := h.fetches }
  · intro _ log hlog
    exact { h with leads := hlog }

theorem Kept.checkpoint_ends (h : store.Kept broken content) :
    Ends checkpoint store (fun _ after => after.Kept broken content)
      (fun _ after => after.Kept broken content) := by
  rcases h with ⟨replayed, h⟩
  refine ends_checkpoint (h.flush_ends.mono ?_ ?_)
  · intro _ flushed hflushed
    refine ⟨fun _ _ => ⟨replayed, hflushed⟩, fun hensure => ?_⟩
    have htable := flushed_of_ensureFlushed hflushed.tracked.sound.consistent hensure
    refine (hflushed.append_checkpoint htable).mono ?_ ?_
    · intro _ log hafter
      exact ⟨_, { hafter with }⟩
    · intro _ log hafter
      exact ⟨replayed, hafter⟩
  · intro _ after hafter
    exact ⟨replayed, hafter⟩

theorem Kept.checkpointIfDue_ends (h : store.Kept broken content) :
    Ends checkpointIfDue store (fun _ after => after.Kept broken content) (fun _ _ => False) :=
  ends_checkpointIfDue (fun _ => h.checkpoint_ends) fun _ => h

/-! ## The log -/

theorem Tracks.of_leads (h : store.Tracks broken content replayed) {log : Log}
    (hlog : log.Leads content replayed) : Kept broken content { store with log } :=
  ⟨replayed, { h with leads := hlog }⟩

theorem Kept.truncateLog_ends (h : store.Kept broken content) :
    Ends truncateLog store (fun _ after => after.Kept broken content)
      (fun _ after => after.Kept broken content) := by
  rcases h with ⟨replayed, h⟩
  refine ends_truncateLog ⟨replayed, h⟩ fun upto => (h.leads.truncate_ends upto).mono ?_ ?_
  · intro _ log hlog
    exact h.of_leads hlog
  · intro _ log hlog
    exact h.of_leads hlog

theorem Kept.flushLog_ends (h : store.Kept broken content) :
    Ends (onLog Log.flush) store (fun _ after => after.Kept broken content)
      (fun _ after => after.Kept broken content) := by
  rcases h with ⟨replayed, h⟩
  refine onLog_ends ((Log.flush_ends store.log).mono ?_ ?_)
  · intro _ log hlog
    rw [hlog]
    exact ⟨replayed, h⟩
  · intro _ log hlog
    rw [hlog]
    exact ⟨replayed, h⟩

end Store
end TieredStore
