import TieredStore.Proofs.Store.Invariant

/-!
# Operations of a store

An operation that is accepted is logged, applied and acknowledged, and then the
store describes the contents after it.  One that is refused or that the log does
not take leaves the contents as they are.
-/

namespace TieredStore

namespace Store

variable {broken : Prop} {content : Contents} {replayed : Table} {store : Store FlakyTier}
  {op : Operation}

theorem applyLogged_eq (op : Operation) (c : Container FlakyTier) :
    ∃ cache, applyLogged op c = { c with table := c.table.perform op, cache } := by
  cases op with
  | truncate segment offset =>
      unfold applyLogged
      simp only
      cases (c.table.perform (.truncate segment offset)).get? segment with
      | none => exact ⟨c.cache, rfl⟩
      | some s => exact ⟨_, rfl⟩
  | append segment offset client event data => exact ⟨_, rfl⟩
  | «seal» segment length => exact ⟨_, rfl⟩
  | merge parent batch length offset => exact ⟨_, rfl⟩
  | checkpoint snapshot => exact ⟨_, rfl⟩
  | create segment name => exact ⟨_, rfl⟩
  | createBatch batch name parent => exact ⟨_, rfl⟩

theorem Tracks.applied (h : store.Tracks broken content replayed)
    (hop : op.Regular content store.container.table) (hfree : op.NameFree store.container.table)
    (hcheckpoint : op.isCheckpoint = false) {log : Log}
    (hlog : log.Leads (content.after op) (replayed.perform op)) (waiters : Waiters) (count : Nat) :
    Tracks broken (content.after op) (replayed.perform op)
      { store with
        log
        container := applyLogged op store.container
        waiters
        opsSinceCheckpoint := count } := by
  have htracked := h.tracked.applyLogged hop hfree hcheckpoint
  rcases applyLogged_eq op store.container with ⟨cache, heq⟩
  rw [heq] at htracked ⊢
  exact
    { leads := hlog
      tracked := htracked
      joins := h.joins
      fetches := h.fetches.advances (Table.Advances.perform hop hcheckpoint) }

def taken (op : Operation) (log : Log) (store : Store FlakyTier) : Store FlakyTier :=
  { store with
    log
    container := applyLogged op store.container
    waiters := wakeReaders store.waiters op
    opsSinceCheckpoint := store.opsSinceCheckpoint + 1 }

/-- An operation is refused, or the log does not take it, or it is applied. -/
theorem ends_execute {answered : Unit → Store FlakyTier → Prop}
    {failed : Error → Store FlakyTier → Prop}
    (hrefused : ∀ cause, store.table.validate op = .error cause → failed (.refused cause) store)
    (hlogged : store.table.validate op = .ok () → Ends (Log.append op) store.log
      (fun _ log => Ends checkpointIfDue (store.taken op log) answered failed)
      (fun e log => failed e { store with log })) :
    Ends (execute op) store answered failed := by
  unfold execute
  refine Ends.get ?_
  cases hvalidate : store.table.validate op with
  | error cause => exact Ends.throw (hrefused cause hvalidate)
  | ok u =>
      refine Ends.bind (Ends.discard (onLog_ends ?_))
      refine (hlogged hvalidate).mono ?_ fun _ _ hfailed => hfailed
      intro _ log htaken
      exact Ends.modifying htaken

theorem regular_of_validate {u : Unit} (hvalidate : store.table.validate op = .ok u)
    (content : Contents) (hcheckpoint : op.isCheckpoint = false)
    (hfresh : ∀ id, op.created? = some id → store.table.nextId ≤ id) :
    op.Regular content store.table ∧ op.NameFree store.table := by
  rcases Table.validate_eq_ok_iff.mp hvalidate with ⟨hfits, hfree⟩
  refine ⟨{ fits := hfits, fresh := hfresh, snapshot := ?_ }, hfree⟩
  intro t ht
  rw [ht] at hcheckpoint
  cases hcheckpoint

theorem Kept.append_ends (h : store.Kept broken content) (hop : op.Regular content store.table)
    (hfree : op.NameFree store.table) (hcheckpoint : op.isCheckpoint = false) :
    Ends (Log.append op) store.log
      (fun _ log => (store.taken op log).Kept broken (content.after op))
      (fun _ log => Kept broken content { store with log }) := by
  rcases h with ⟨replayed, h⟩
  have hwf : op.WellFormed := .of_isCheckpoint_eq_false hcheckpoint
  have hreplayed := h.tracked.follows.regular h.tracked.replayed hop
  refine (h.leads.append_ends hreplayed hwf).mono ?_ ?_
  · intro _ log hlog
    exact ⟨replayed.perform op, h.applied hop hfree hcheckpoint hlog _ _⟩
  · intro _ log hlog
    exact h.of_leads hlog

theorem Kept.taking_ends (h : store.Kept broken content) (hcheckpoint : op.isCheckpoint = false)
    (hfresh : ∀ id, op.created? = some id → store.table.nextId ≤ id)
    {answered : Unit → Store FlakyTier → Prop} {failed : Error → Store FlakyTier → Prop}
    (hrefused : ∀ cause, failed (.refused cause) store)
    (hunlogged : ∀ e log, (Log.append op).run store.log = .error e log →
      Kept broken content { store with log } → failed e { store with log })
    (htaken : ∀ log, op.Regular content store.table →
      (store.taken op log).Kept broken (content.after op) →
      Ends checkpointIfDue (store.taken op log) answered failed) :
    Ends (execute op) store answered failed := by
  refine ends_execute (fun cause _ => hrefused cause) fun hvalidate => ?_
  rcases regular_of_validate hvalidate content hcheckpoint hfresh with ⟨hop, hfree⟩
  have happend := h.append_ends hop hfree hcheckpoint
  refine .of_run ?_ ?_
  · intro seq log hrun
    exact htaken log hop (happend.ok hrun)
  · intro e log hrun
    exact hunlogged e log hrun (happend.error hrun)

/-- An operation that is acknowledged changes the contents, and no other does. -/
theorem Kept.execute_ends (h : store.Kept broken content) (hcheckpoint : op.isCheckpoint = false)
    (hfresh : ∀ id, op.created? = some id → store.table.nextId ≤ id) :
    Ends (execute op) store (fun _ after => after.Kept broken (content.after op))
      (fun _ after => after.Kept broken content) := by
  refine h.taking_ends hcheckpoint hfresh (fun _ => h) (fun _ _ _ hafter => hafter) ?_
  intro log _ htaken
  refine htaken.checkpointIfDue_ends.mono ?_ ?_
  · intro _ after hafter
    exact hafter
  · intro _ _ hfalse
    exact hfalse.elim

/-! ## The calls -/

/--
The call is refused or carries out an operation, which is no snapshot and creates
only what is new; these are the contents that the operation makes.
-/
structure Executes {α : Type} (content : Contents) (call : StoreM FlakyTier α)
    (written : α → Contents) (store : Store FlakyTier) : Prop where
  ends : ∀ {answered : α → Store FlakyTier → Prop} {failed : Error → Store FlakyTier → Prop},
    (∀ cause, failed (.refused cause) store) →
    (∀ op a, op.isCheckpoint = false →
      (∀ id, op.created? = some id → store.table.nextId ≤ id) → content.after op = written a →
      Ends (execute op) store (fun _ after => answered a after) failed) →
    Ends call store answered failed

/-- What holds of the operations that are carried out holds of the call. -/
theorem Kept.executes_ends (h : store.Kept broken content) {α : Type} {call : StoreM FlakyTier α}
    {written : α → Contents} (hcall : store.Executes content call written) :
    Ends call store (fun a after => after.Kept broken (written a))
      (fun _ after => after.Kept broken content) := by
  refine hcall.ends (fun _ => h) ?_
  intro op a hcheckpoint hfresh hwritten
  rw [← hwritten]
  exact h.execute_ends hcheckpoint hfresh

theorem executes_execute (content : Contents) (store : Store FlakyTier)
    (hcheckpoint : op.isCheckpoint = false) (hknown : op.created? = none) :
    store.Executes content (execute op) fun _ => content.after op where
  ends := by
    intro answered failed _ hexecute
    refine hexecute op () hcheckpoint ?_ rfl
    intro id hid
    rw [hknown] at hid
    cases hid

theorem executes_require {α : Type} {next : Segment → StoreM FlakyTier α} {written : α → Contents}
    (id : SegmentId) (hnext : ∀ s, store.Executes content (next s) written) :
    store.Executes content (require id >>= next) written where
  ends := by
    intro answered failed hrefused hexecute
    unfold require
    refine Ends.bind (Ends.get ?_)
    cases store.table.require id with
    | error cause => exact Ends.throw (hrefused cause)
    | ok s => exact Ends.pure ((hnext s).ends hrefused hexecute)

theorem executes_answer {α : Type} {written : α → Contents} (a : α)
    (hcheckpoint : op.isCheckpoint = false)
    (hfresh : ∀ id, op.created? = some id → store.table.nextId ≤ id)
    (hwritten : content.after op = written a) :
    store.Executes content (do execute op; return a) written where
  ends := by
    intro answered failed _ hexecute
    refine Ends.bind ((hexecute op a hcheckpoint hfresh hwritten).mono ?_ ?_)
    · intro _ after hafter
      exact Ends.pure hafter
    · intro _ after hafter
      exact hafter

theorem Kept.executes_created (h : store.Kept broken content)
    (hcheckpoint : op.isCheckpoint = false) (hcreated : op.created? = some store.table.nextId)
    (hcontent : content.after op = content) :
    store.Executes content (do execute op; return store.table.nextId) content.create := by
  refine executes_answer _ hcheckpoint ?_ ?_
  · intro id hid
    rw [hcreated] at hid
    cases hid
    exact Nat.le_refl _
  · -- what has not been created has no bytes, and so it stays
    rcases h with ⟨replayed, h⟩
    rw [hcontent]
    exact (Contents.create_eq (h.tracked.sound.consistent.fresh (Nat.le_refl _))).symm

theorem Kept.executes_create (h : store.Kept broken content) (name : String) :
    store.Executes content (create name) content.create where
  ends := by
    intro answered failed hrefused hexecute
    exact Ends.get ((h.executes_created rfl rfl rfl).ends hrefused hexecute)

theorem Kept.executes_createBatch (h : store.Kept broken content) (parent : SegmentId)
    (number : Word128) : store.Executes content (createBatch parent number) content.create := by
  refine executes_require parent fun s => ⟨?_⟩
  intro answered failed hrefused hexecute
  exact Ends.get ((h.executes_created rfl rfl rfl).ends hrefused hexecute)

theorem executes_append (content : Contents) (store : Store FlakyTier) (request : AppendRequest) :
    store.Executes content (append request)
      fun _ => content.append request.segment request.data := by
  refine executes_require _ fun s => executes_answer _ rfl ?_ rfl
  intro id hid
  cases hid

theorem executes_sealSegment (content : Contents) (store : Store FlakyTier) (id : SegmentId) :
    store.Executes content (sealSegment id) fun _ => content := by
  refine executes_require _ fun s => executes_answer _ rfl ?_ rfl
  intro id hid
  cases hid

theorem executes_merge (content : Contents) (store : Store FlakyTier) (batch parent : SegmentId) :
    store.Executes content (merge batch parent)
      fun _ => content.append parent (content batch) := by
  refine executes_require _ fun added => executes_require _ fun grown => executes_answer _ rfl ?_ rfl
  intro id hid
  cases hid

theorem executes_truncate (content : Contents) (store : Store FlakyTier) (id : SegmentId)
    (offset : Nat) : store.Executes content (truncate id offset) fun _ => content :=
  executes_execute content store rfl rfl

end Store
end TieredStore
