import TieredStore.Proofs.Store.Atomic
import TieredStore.Proofs.Store.Fetching
import TieredStore.Proofs.Waking

/-!
# Calls of a store attend to those who wait

An operation that is carried out wakes exactly those whom it concerns, and then a checkpoint
may make notes, which concern nobody.  A call that fails, and any other call, leaves all of
them waiting.  What was handed out before is left alone by all calls: entries keep their
status, and a read of the tier that was started brings no more bytes than its segment has.
-/

namespace TieredStore

variable {content grown : Contents} {table : Table} {op : Operation}

/-- No content reaches behind the last offset. -/
def Contents.Bounded (content : Contents) : Prop := ∀ id, (content id).length ≤ maxOffset

theorem Contents.Bounded.append (h : content.Bounded) {id : SegmentId} {data : Bytes}
    (hstop : (content id).length + data.length ≤ maxOffset) : (content.append id data).Bounded := by
  intro other
  by_cases hother : other = id
  · rw [hother, Contents.append_self, List.length_append]
    exact hstop
  · rw [Contents.append_of_ne hother]
    exact h other

theorem Contents.Bounded.after (h : content.Bounded) (htable : table.Consistent content)
    (hfits : op.Fits table) : (content.after op).Bounded := by
  cases op with
  | append segment offset client event data =>
      rcases hfits with ⟨s, hs, -, hoffset, hstop⟩
      refine h.append ?_
      rw [← (htable.segment hs).length_eq, ← hoffset]
      exact hstop
  | merge parent batch length offset =>
      rcases hfits with ⟨s, b, hs, hb, -, -, -, -, hlength, hoffset, hstop⟩
      refine h.append ?_
      rw [← (htable.segment hs).length_eq, ← (htable.segment hb).length_eq, ← hoffset, ← hlength]
      exact hstop
  | «seal» segment length => exact h
  | checkpoint snapshot => exact h
  | create segment name => exact h
  | createBatch batch name parent => exact h
  | truncate segment offset => exact h

def Fetches.Brings (content : Contents) (id : SegmentId) (offset ticket : Nat)
    (fetches : Fetches) : Prop :=
  fetches.Promises (fun request => offset + request.length ≤ (content id).length)
    (fun data => offset + data.length ≤ (content id).length) ticket

namespace Fetches.Brings

variable {fetches : Fetches} {id : SegmentId} {offset ticket : Nat}

theorem grows (h : fetches.Brings content id offset ticket)
    (hgrows : ∀ id, content id <+: grown id) : fetches.Brings grown id offset ticket where
  given := h.given
  queued := fun request hrequest => Nat.le_trans (h.queued request hrequest) (hgrows id).length_le
  arrived := fun data hdata => Nat.le_trans (h.arrived data hdata) (hgrows id).length_le

theorem evolves {tier : FlakyTier} {after : Fetches} (h : fetches.Brings content id offset ticket)
    (hevolves : fetches.Evolves tier after) : after.Brings content id offset ticket := by
  refine hevolves.promises h ?_
  intro request data _ hrequest hgives
  exact Nat.le_trans (Nat.add_le_add_left hgives.length_le offset) hrequest

end Fetches.Brings

namespace Store

/--
Those who wait are attended to, and what was handed out is left alone.  The store described
these contents and now describes those.
-/
structure Minds (content grown : Contents) (store after : Store FlakyTier) : Prop where
  advances : store.table.Advances after.table
  waiters : store.waiters.Attended after.table after.waiters
  statuses_eq : after.statuses = store.statuses
  evolves : store.fetches.Evolves store.container.tier after.fetches
  grows : ∀ id, content id <+: grown id
  bounded : content.Bounded → grown.Bounded

variable {broken : Prop} {store middle after : Store FlakyTier}

theorem Minds.of_bookkept (hexpecting : store.waiters.Expecting store.table)
    (hkept : store.Kept broken content) (hnoted : store.table.Bookkept after.table)
    (hsame : after = { store with
      container := after.container
      log := after.log
      opsSinceCheckpoint := after.opsSinceCheckpoint }) : store.Minds content content after := by
  have hwaiters : after.waiters = store.waiters := by rw [hsame]
  have hfetches : after.fetches = store.fetches := by rw [hsame]
  exact
    { advances := hnoted.advances
      waiters := by
        rw [hwaiters]
        exact hexpecting.attended.bookkept hkept.sound.container.consistent hnoted
      statuses_eq := by rw [hsame]
      evolves := by
        rw [hfetches]
        exact .refl _ _
      grows := fun _ => List.prefix_rfl
      bounded := fun h => h }

/-! ## Calls -/

theorem Kept.flush_minds (h : store.Kept broken content)
    (hexpecting : store.waiters.Expecting store.table) :
    Ends flush store (fun _ after => store.Minds content content after)
      (fun _ after => store.Minds content content after) := by
  have hminds : ∀ after, after = { store with container := after.container } ∧
      store.table.Bookkept after.table → store.Minds content content after := by
    rintro after ⟨hsame, hnoted⟩
    exact .of_bookkept hexpecting h hnoted (by rw [hsame])
  exact (flush_noted store).mono (fun _ after => hminds after) fun _ after => hminds after

theorem Kept.checkpoint_minds (h : store.Kept broken content)
    (hexpecting : store.waiters.Expecting store.table) :
    Ends checkpoint store (fun _ after => store.Minds content content after)
      (fun _ after => store.Minds content content after) := by
  have hminds : ∀ after, store.Checkpointed after → store.Minds content content after := by
    intro after hafter
    exact .of_bookkept hexpecting h hafter.noted hafter.same
  exact h.checkpoint_checkpointed.mono (fun _ after => hminds after) fun _ after => hminds after

theorem Kept.with_log_minds (h : store.Kept broken content)
    (hexpecting : store.waiters.Expecting store.table) (log : Log) :
    store.Minds content content { store with log } :=
  .of_bookkept hexpecting h .refl rfl

theorem Kept.onLog_minds (h : store.Kept broken content)
    (hexpecting : store.waiters.Expecting store.table) {α : Type} (call : LogM α) :
    Ends (onLog call) store (fun _ after => store.Minds content content after)
      (fun _ after => store.Minds content content after) :=
  onLog_ends (.of_run (fun _ log _ => h.with_log_minds hexpecting log)
    fun _ log _ => h.with_log_minds hexpecting log)

theorem Kept.truncateLog_minds (h : store.Kept broken content)
    (hexpecting : store.waiters.Expecting store.table) :
    Ends truncateLog store (fun _ after => store.Minds content content after)
      (fun _ after => store.Minds content content after) :=
  ends_truncateLog (.of_bookkept hexpecting h .refl rfl) fun _ =>
    .of_run (fun _ log _ => h.with_log_minds hexpecting log)
      fun _ log _ => h.with_log_minds hexpecting log

theorem Kept.executes_minds (h : store.Kept broken content)
    (hexpecting : store.waiters.Expecting store.table) {α : Type} {call : StoreM FlakyTier α}
    {written : α → Contents} (hcall : store.Executes content call written) :
    Ends call store (fun a after => store.Minds content (written a) after)
      (fun _ after => store.Minds content content after) := by
  refine hcall.ends (fun _ => .of_bookkept hexpecting h .refl rfl) ?_
  intro op a hcheckpoint hfresh hwritten
  rw [← hwritten]
  refine (h.execute_atomic hcheckpoint hfresh).mono ?_ ?_
  · intro _ after hexecuted
    rcases Table.apply_eq_ok_iff.mp (hexecuted.applies _ .refl) with ⟨hfits, hfree, -⟩
    have hvalidate : store.table.validate op = .ok () :=
      Table.validate_eq_ok_iff.mpr ⟨hfits, hfree⟩
    rcases regular_of_validate hvalidate content hcheckpoint hfresh with ⟨hregular, -⟩
    have hconsistent := h.sound.container.consistent
    have hattended := (hexpecting.wakeReaders hfits hcheckpoint).bookkept
      (hconsistent.perform hregular) hexecuted.noted
    have hwaiters : after.waiters = wakeReaders store.waiters op := by rw [hexecuted.same]
    have hfetches : after.fetches = store.fetches := by rw [hexecuted.same]
    exact
      { advances := (Table.Advances.perform hregular hcheckpoint).trans hexecuted.noted.advances
        waiters := by rw [hwaiters]; exact hattended
        statuses_eq := by rw [hexecuted.same]
        evolves := by
          rw [hfetches]
          exact .refl _ _
        grows := content.prefix_after op
        bounded := fun hbounded => hbounded.after hconsistent hfits }
  · intro _ after huntouched
    have hsame := huntouched.same
    have htable : after.table = store.table := by rw [hsame]; rfl
    refine .of_bookkept hexpecting h ?_ (by rw [hsame])
    rw [htable]
    exact .refl

/-! ## Reads of the tier -/

structure Prepares (content : Contents) (store after : Store FlakyTier) : Prop where
  table_eq : after.table = store.table
  statuses_eq : after.statuses = store.statuses
  tier_same : FlakyTier.Same store.container.tier after.container.tier
  evolves : store.fetches.Evolves store.container.tier after.fetches

namespace Prepares

theorem refl (content : Contents) (store : Store FlakyTier) : store.Prepares content store :=
  ⟨rfl, rfl, .refl _, .refl _ _⟩

theorem trans (h : store.Prepares content middle) (hafter : middle.Prepares content after) :
    store.Prepares content after :=
  ⟨hafter.table_eq.trans h.table_eq, hafter.statuses_eq.trans h.statuses_eq,
    h.tier_same.trans hafter.tier_same, h.evolves.trans h.tier_same hafter.evolves⟩

theorem noting (h : store.Prepares content after) (waiters : Waiters) (now : Nat) :
    store.Prepares content { after with waiters, now } :=
  ⟨h.table_eq, h.statuses_eq, h.tier_same, h.evolves⟩

theorem with_container {container : Container FlakyTier}
    (h : Container.Unmoved content store.container container) :
    store.Prepares content { store with container } :=
  ⟨h.table_eq, rfl, h.tier_same, .refl _ _⟩

theorem takeOutcome (store : Store FlakyTier) (ticket : Nat) :
    store.Prepares content (store.takeOutcome ticket).2 :=
  ⟨rfl, rfl, .refl _, store.takeOutcome_evolves ticket⟩

theorem startFetch (store : Store FlakyTier) (request : FetchRequest) :
    store.Prepares content (store.startFetch request).2 :=
  ⟨rfl, rfl, .refl _, store.startFetch_evolves request⟩

end Prepares

theorem Sound.settle_prepares (h : store.Sound content) : store.Prepares content store.settle where
  table_eq := h.settle.container.table_eq
  statuses_eq := store.settle_statuses
  tier_same := store.settle_tier_same
  evolves := store.settle_evolves

theorem Sound.fetched_prepares (h : store.Sound content) (ticket : Nat) :
    store.Prepares content (store.fetched ticket) := by
  unfold Store.fetched
  split
  · exact .refl content store
  · exact h.settle_prepares

theorem Sound.waitedTo_prepares (h : store.Sound content) (deadline : Nat) :
    store.Prepares content (store.waitedTo deadline) := by
  unfold Store.waitedTo
  split
  · exact .refl content store
  · exact h.settle_prepares.noting _ _

theorem Kept.settle_minds (h : store.Kept broken content)
    (hexpecting : store.waiters.Expecting store.table) :
    store.Minds content content store.settle := by
  have hprepares : store.Prepares content store.settle := h.sound.settle_prepares
  exact
    { advances := by
        rw [hprepares.table_eq]
        exact .refl _
      waiters := by
        rw [settle_waiters, hprepares.table_eq]
        exact hexpecting.attended
      statuses_eq := hprepares.statuses_eq
      evolves := hprepares.evolves
      grows := fun _ => List.prefix_rfl
      bounded := fun hbounded => hbounded }

theorem Kept.advance_minds (h : store.Kept broken content)
    (hexpecting : store.waiters.Expecting store.table) (milliseconds : Nat) :
    store.Minds content content (store.advance milliseconds) := by
  have hsettled := h.settle_minds hexpecting
  exact { hsettled with }

end Store
end TieredStore
