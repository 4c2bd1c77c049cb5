import TieredStore.Proofs.Container.Bookkeeping
import TieredStore.Proofs.Store.Run

/-!
# Changes are atomic

A call that changes segments resolves its operation from the table, and the operation is
validated, logged and applied.  If the call fails, it has changed nothing but the log, and
what is read from the log is what was read before.  Once the log has taken the operation,
nothing can fail any more: what was validated can be applied, and a checkpoint that is due
may fail without the call doing so.
-/

namespace TieredStore

open Chapter (history)

/-! ## What a log gains -/

/-- What is read from the log is what was read before, and these records behind it. -/
structure Log.Gains (log : Log) (records : List LogRecord) (after : Log) : Prop where
  nextSeq_eq : after.nextSeq = log.nextSeq + records.length
  records_eq : ∀ from_, after.records from_ =
    log.records from_ ++ (records.filter fun r => from_ ≤ r.1).map .ok

namespace Log

variable {log middle after : Log} {first : SequenceNumber} {chapters chapters' : List Chapter}
  {tail tail' : Bytes} {records more : List LogRecord}

theorem Gains.refl (log : Log) : log.Gains [] log where
  nextSeq_eq := rfl
  records_eq := fun _ => (List.append_nil _).symm

theorem Gains.trans (h : log.Gains records middle) (hafter : middle.Gains more after) :
    log.Gains (records ++ more) after where
  nextSeq_eq := by
    rw [hafter.nextSeq_eq, h.nextSeq_eq, List.length_append, Nat.add_assoc]
  records_eq := by
    intro from_
    rw [hafter.records_eq, h.records_eq, List.filter_append, List.map_append, List.append_assoc]

theorem Holds.gains (h : log.Holds first chapters tail) (hafter : after.Holds first chapters' tail')
    (hhistory : history chapters' = history chapters ++ records) : log.Gains records after where
  nextSeq_eq := by
    rw [hafter.nextSeq_eq, h.nextSeq_eq, hhistory, List.length_append, Nat.add_assoc]
  records_eq := by
    intro from_
    rw [hafter.records_eq, h.records_eq, hhistory, List.filter_append, List.map_append]

theorem Leads.append_gains {content : Contents} {replayed : Table}
    (h : log.Leads content replayed) {op : Operation} (hwf : op.WellFormed) :
    Ends (append op) log
      (fun seq after => seq = log.nextSeq ∧ log.Gains [(log.nextSeq, op)] after)
      (fun _ after => log.Gains [] after) := by
  rcases h with ⟨first, chapters, tail, hholds, -⟩
  apply (hholds.append_ends hwf).mono
  · rintro seq after ⟨rfl, chapters', hafter, hhistory⟩
    exact ⟨rfl, hholds.gains hafter hhistory⟩
  · rintro _ after ⟨added, tail', hafter, hadded⟩
    apply hholds.gains hafter
    rw [Chapter.history_append, hadded]

end Log

namespace Store

variable {broken : Prop} {content : Contents} {store after : Store FlakyTier} {op : Operation}

/-! ## Checkpoints -/

/-- What is left when a checkpoint was tried: notes of a flush, and at most one record. -/
structure Checkpointed (store after : Store FlakyTier) : Prop where
  same : after = { store with
    container := after.container
    log := after.log
    opsSinceCheckpoint := after.opsSinceCheckpoint }
  noted : store.table.Bookkept after.table
  logged : store.log.Gains [] after.log ∨
    store.log.Gains [(store.log.nextSeq, .checkpoint after.table)] after.log

theorem flush_noted (store : Store FlakyTier) :
    Ends flush store
      (fun _ after => after = { store with container := after.container } ∧
        store.table.Bookkept after.table)
      (fun _ after => after = { store with container := after.container } ∧
        store.table.Bookkept after.table) := by
  apply onContainer_ends
  apply (Container.flush_notes store.container).mono
  · intro _ container hnoted
    exact ⟨rfl, hnoted⟩
  · intro _ container hnoted
    exact ⟨rfl, hnoted⟩

theorem Kept.checkpoint_checkpointed (h : store.Kept broken content) :
    Ends checkpoint store (fun _ after => store.Checkpointed after)
      (fun _ after => store.Checkpointed after) := by
  rcases h with ⟨replayed, h⟩
  refine ends_checkpoint ((h.flush_ends.and (flush_noted store)).mono ?_ ?_)
  · rintro _ flushed ⟨hflushed, hsame, hnoted⟩
    have hlog : flushed.log = store.log := by rw [hsame]
    have hunlogged : store.log.Gains [] flushed.log := by
      rw [hlog]
      exact .refl _
    have hwf : (Operation.checkpoint flushed.table).WellFormed :=
      hflushed.tracked.sound.wellFormed
    refine ⟨fun _ _ => ⟨by rw [hsame], hnoted, Or.inl hunlogged⟩, fun _ => ?_⟩
    refine (hflushed.leads.append_gains hwf).mono ?_ ?_
    · rintro seq log ⟨-, hgains⟩
      rw [hlog] at hgains
      exact ⟨by rw [hsame], hnoted, Or.inr hgains⟩
    · intro _ log hgains
      rw [hlog] at hgains
      exact ⟨by rw [hsame], hnoted, Or.inl hgains⟩
  · rintro _ flushed ⟨-, hsame, hnoted⟩
    have hlog : flushed.log = store.log := by rw [hsame]
    refine ⟨by rw [hsame], hnoted, Or.inl ?_⟩
    rw [hlog]
    exact .refl _

/-- A checkpoint is due. -/
def CheckpointDue (store : Store FlakyTier) : Prop :=
  0 < store.config.checkpointEveryOps ∧ store.config.checkpointEveryOps ≤ store.opsSinceCheckpoint

theorem Kept.checkpointIfDue_checkpointed (h : store.Kept broken content) :
    Ends checkpointIfDue store
      (fun _ after => store.Checkpointed after ∧ (¬ store.CheckpointDue → after = store))
      (fun _ _ => False) := by
  apply ends_checkpointIfDue
  · intro hdue
    apply h.checkpoint_checkpointed.mono
    · intro _ after hafter
      exact ⟨hafter, fun hnot => absurd hdue hnot⟩
    · intro _ after hafter
      exact ⟨hafter, fun hnot => absurd hdue hnot⟩
  · intro _
    exact ⟨⟨rfl, .refl, Or.inl (.refl _)⟩, fun _ => rfl⟩

theorem checkpointIfDue_succeeds (store : Store FlakyTier) :
    Ends checkpointIfDue store (fun _ _ => True) (fun _ _ => False) :=
  ends_checkpointIfDue (fun _ => .of_run (fun _ _ _ => trivial) fun _ _ _ => trivial)
    fun _ => trivial

/-! ## Operations -/

theorem table_taken (op : Operation) (log : Log) (store : Store FlakyTier) :
    (store.taken op log).table = store.table.perform op := by
  rcases applyLogged_eq op store.container with ⟨cache, heq⟩
  show (applyLogged op store.container).table = _
  rw [heq]
  rfl

/--
The log has taken the operation, which was applied, and waiting reads were woken.  If a
checkpoint was due, it was tried, and nothing else was done.
-/
structure Executed (op : Operation) (store after : Store FlakyTier) : Prop where
  /-- The operation can be applied, also if a flush makes notes before that. -/
  applies : ∀ table, store.table.Bookkept table → table.apply op = .ok (table.perform op)
  noted : (store.table.perform op).Bookkept after.table
  same : after = { store with
    container := after.container
    log := after.log
    waiters := wakeReaders store.waiters op
    opsSinceCheckpoint := after.opsSinceCheckpoint }
  logged : store.log.Gains [(store.log.nextSeq, op)] after.log ∨
    store.log.Gains
      [(store.log.nextSeq, op), (store.log.nextSeq.next, .checkpoint after.table)] after.log
  undisturbed : ¬ CheckpointDue { store with opsSinceCheckpoint := store.opsSinceCheckpoint + 1 } →
    after = store.taken op after.log ∧ after.table = store.table.perform op ∧
      store.log.Gains [(store.log.nextSeq, op)] after.log

/-- Nothing has changed but the log, and what is read from it is the same. -/
structure Untouched (store after : Store FlakyTier) : Prop where
  same : after = { store with log := after.log }
  nextSeq_eq : after.log.nextSeq = store.log.nextSeq
  records_eq : ∀ from_, after.log.records from_ = store.log.records from_

theorem Untouched.of_gains {log : Log} (h : store.log.Gains [] log) :
    store.Untouched { store with log } where
  same := rfl
  nextSeq_eq := h.nextSeq_eq
  records_eq := fun from_ => (h.records_eq from_).trans (List.append_nil _)

theorem Executed.of_checkpointed {log : Log}
    (happlies : ∀ table, store.table.Bookkept table → table.apply op = .ok (table.perform op))
    (hgains : store.log.Gains [(store.log.nextSeq, op)] log)
    (h : (store.taken op log).Checkpointed after)
    (hdue : ¬ (store.taken op log).CheckpointDue → after = store.taken op log) :
    Executed op store after where
  applies := happlies
  noted := by
    rw [← table_taken op log store]
    exact h.noted
  same := by
    rw [h.same]
    rfl
  logged := by
    have hnext : log.nextSeq = store.log.nextSeq.next := hgains.nextSeq_eq
    rcases h.logged with hnone | hone
    · exact Or.inl (hgains.trans hnone)
    · rw [show (store.taken op log).log.nextSeq = store.log.nextSeq.next from hnext] at hone
      exact Or.inr (hgains.trans hone)
  undisturbed := by
    intro hnot
    have hafter := hdue hnot
    rw [hafter]
    exact ⟨rfl, table_taken op log store, hgains⟩

/-- An operation is executed, or the store is left as it was. -/
theorem Kept.execute_atomic (h : store.Kept broken content) (hcheckpoint : op.isCheckpoint = false)
    (hfresh : ∀ id, op.created? = some id → store.table.nextId ≤ id) :
    Ends (execute op) store (fun _ after => Executed op store after)
      (fun _ after => store.Untouched after) := by
  have hkept := h
  rcases h with ⟨replayed, h⟩
  apply ends_execute
  · intro cause _
    exact .of_gains (.refl _)
  · intro hvalidate
    rcases regular_of_validate hvalidate content hcheckpoint hfresh with ⟨hop, hfree⟩
    have hwf : op.WellFormed := .of_isCheckpoint_eq_false hcheckpoint
    apply ((hkept.append_ends hop hfree hcheckpoint).and (h.leads.append_gains hwf)).mono
    · rintro _ log ⟨htaken, -, hgains⟩
      apply htaken.checkpointIfDue_checkpointed.mono
      · rintro _ after ⟨hafter, hdue⟩
        apply Executed.of_checkpointed _ hgains hafter hdue
        intro table hnoted
        exact hnoted.apply_eq_ok h.tracked.sound.consistent hvalidate
      · intro _ _ hfalse
        exact hfalse.elim
    · rintro _ log ⟨-, hgains⟩
      exact .of_gains hgains

/-- What the log has taken is acknowledged. -/
theorem execute_of_append {seq : SequenceNumber} {log : Log}
    (hvalidate : store.table.validate op = .ok ())
    (happend : (Log.append op).run store.log = .ok seq log) :
    ∃ after, (execute op).run store = .ok () after := by
  have hends : Ends (execute op) store (fun _ _ => True) (fun _ _ => False) := by
    apply ends_execute
    · intro cause hrefused
      rw [hvalidate] at hrefused
      cases hrefused
    · intro _
      exact Ends.of_ok happend (checkpointIfDue_succeeds _)
  rcases hends.exists_ok with ⟨_, after, hrun, -⟩
  exact ⟨after, hrun⟩

end Store

/-! ## Calls -/

inductive Mutation
  | create (name : String)
  | createBatch (parent : SegmentId) (number : Word128)
  | append (request : AppendRequest)
  | sealSegment (id : SegmentId)
  | merge (batch parent : SegmentId)
  | truncate (id : SegmentId) (offset : Nat)

namespace Mutation

def call : Mutation → StoreM FlakyTier Unit
  | create name => discard (Store.create name)
  | createBatch parent number => discard (Store.createBatch parent number)
  | append request => discard (Store.append request)
  | sealSegment id => discard (Store.sealSegment id)
  | merge batch parent => discard (Store.merge batch parent)
  | truncate id offset => Store.truncate id offset

def resolve (table : Table) : Mutation → Except Refusal Operation
  | create name => return .create table.nextId name
  | createBatch parent number => do
      let s ← table.require parent
      return .createBatch table.nextId (Store.batchName s.name number) parent
  | append request => do
      let s ← table.require request.segment
      return request.resolve s.length
  | sealSegment id => do
      let s ← table.require id
      return (SealRequest.mk id).resolve s.length
  | merge batch parent => do
      let added ← table.require batch
      let grown ← table.require parent
      return (MergeRequest.mk batch parent).resolve added.length grown.length
  | truncate id offset => return .truncate id offset

variable {m : Mutation} {table : Table} {op : Operation}

def outcome (store : Store FlakyTier) :
    Except Refusal Operation → EStateM.Result Error (Store FlakyTier) Unit
  | .error cause => .error (.refused cause) store
  | .ok op => (Store.execute op).run store

theorem run_answer {α : Type} (store : Store FlakyTier) (op : Operation) (a : α) :
    (discard (do Store.execute op; return a : StoreM FlakyTier α)).run store =
      outcome store (.ok op) := by
  rw [run_discard, EStateM.run_bind, outcome]
  cases (Store.execute op).run store with
  | ok u after => rfl
  | error e after => rfl

theorem run_require {α : Type} {store : Store FlakyTier} (id : SegmentId)
    {next : Segment → StoreM FlakyTier α} {find : Segment → Except Refusal Operation}
    (hnext : ∀ s, (discard (next s)).run store = outcome store (find s)) :
    (discard (Store.require id >>= next)).run store =
      outcome store (store.table.require id >>= find) := by
  rw [run_discard, EStateM.run_bind]
  cases hfound : store.table.require id with
  | error cause =>
      have hrun : (Store.require id).run store = .error (.refused cause) store := by
        unfold Store.require
        rw [EStateM.run_bind, EStateM.run_get]
        simp only [hfound]
        rfl
      rw [hrun]
      rfl
  | ok s =>
      have hs : store.container.table.get? id = some s := Table.require_eq_ok_iff.mp hfound
      rw [Store.require_of_get? hs, ok_bind, ← hnext s, run_discard]

theorem run_call (m : Mutation) (store : Store FlakyTier) :
    m.call.run store = outcome store (m.resolve store.table) := by
  cases m with
  | create name => exact run_answer store _ _
  | createBatch parent number => exact run_require parent fun s => run_answer store _ _
  | append request => exact run_require request.segment fun s => run_answer store _ _
  | sealSegment id => exact run_require id fun s => run_answer store _ _
  | merge batch parent =>
      exact run_require batch fun added => run_require parent fun grown => run_answer store _ _
  | truncate id offset => rfl

theorem fresh_of_resolve (h : m.resolve table = .ok op) :
    op.isCheckpoint = false ∧ ∀ id, op.created? = some id → table.nextId ≤ id := by
  cases m with
  | create name =>
      cases h
      exact ⟨rfl, fun id hid => Nat.le_of_eq (Option.some.inj hid)⟩
  | createBatch parent number =>
      rcases bind_eq_ok_iff.mp h with ⟨s, -, heq⟩
      cases heq
      exact ⟨rfl, fun id hid => Nat.le_of_eq (Option.some.inj hid)⟩
  | append request =>
      rcases bind_eq_ok_iff.mp h with ⟨s, -, heq⟩
      cases heq
      exact ⟨rfl, nofun⟩
  | sealSegment id =>
      rcases bind_eq_ok_iff.mp h with ⟨s, -, heq⟩
      cases heq
      exact ⟨rfl, nofun⟩
  | merge batch parent =>
      rcases bind_eq_ok_iff.mp h with ⟨added, -, hnext⟩
      rcases bind_eq_ok_iff.mp hnext with ⟨grown, -, heq⟩
      cases heq
      exact ⟨rfl, nofun⟩
  | truncate id offset =>
      cases h
      exact ⟨rfl, nofun⟩

end Mutation

namespace StoreRun

variable {store : Store FlakyTier}

/--
Whatever the faults of the ledgers and of the tier, a call that changes segments either
leaves the store untouched and fails, or executes its operation and succeeds; and it
succeeds whenever the log takes the operation.
-/
theorem mutations_atomic (list : List StoreStep)
    (hopen : (start.steps list).session = .opened store) (m : Mutation) :
    (∀ e after, m.call.run store = .error e after → store.Untouched after) ∧
    (∀ after, m.call.run store = .ok () after →
      ∃ op, m.resolve store.table = .ok op ∧ Store.Executed op store after) ∧
    ∀ op seq log, m.resolve store.table = .ok op → store.table.validate op = .ok () →
      (Log.append op).run store.log = .ok seq log →
      ∃ after, m.call.run store = .ok () after := by
  have hkept := kept_of_opened list hopen
  have hends : Ends m.call store
      (fun _ after => ∃ op, m.resolve store.table = .ok op ∧ Store.Executed op store after)
      (fun _ after => store.Untouched after) := by
    unfold Ends
    rw [m.run_call]
    cases hresolve : m.resolve store.table with
    | error cause => exact Store.Untouched.of_gains (.refl _)
    | ok op =>
        rcases Mutation.fresh_of_resolve hresolve with ⟨hcheckpoint, hfresh⟩
        apply (hkept.execute_atomic hcheckpoint hfresh).mono
        · intro _ after hafter
          exact ⟨op, rfl, hafter⟩
        · intro _ after hafter
          exact hafter
  refine ⟨fun e after hrun => hends.error hrun, fun after hrun => hends.ok hrun, ?_⟩
  intro op seq log hresolve hvalidate happend
  rw [m.run_call, hresolve]
  exact Store.execute_of_append hvalidate happend

/-- A crash will happen in the middle of the next frame. -/
private def crashing : List StoreStep :=
  [.reopen {}, .create "a", .append ⟨1, 7, 1, [97, 98]⟩,
    .switchLedgers ({ · with budget := some 10 })]

/-- A checkpoint is due with the next operation, and the tier cannot be written. -/
private def unwritable : List StoreStep :=
  [.reopen { checkpointEveryOps := 2 }, .create "a", .switchTier false true false]

/--
A crash cuts the frame of an append, and its first bytes cannot be taken back.  Elsewhere
an append is acknowledged although the checkpoint behind it fails.
-/
theorem mutations_atomic_with_faults :
    (∃ store e after, (start.steps crashing).session = .opened store ∧
      (Mutation.append ⟨1, 7, 2, [99, 100]⟩).call.run store = .error e after ∧
      after.log.poisoned = true ∧ after.container = store.container ∧
      after.log.nextSeq = store.log.nextSeq ∧
      after.log.records .first = store.log.records .first) ∧
    ∃ store after op, (start.steps unwritable).session = .opened store ∧
      (Mutation.append ⟨1, 7, 1, [97, 98]⟩).call.run store = .ok () after ∧
      after.log.nextSeq = 3 ∧ (Mutation.append ⟨1, 7, 1, [97, 98]⟩).resolve store.table = .ok op ∧
      (store.table.perform op).Bookkept after.table := by
  constructor
  · have hpoisoned : (start.steps crashing).session.store?.map (fun store =>
        match (Mutation.append ⟨1, 7, 2, [99, 100]⟩).call.run store with
        | .ok _ _ => none
        | .error _ after => some after.log.poisoned) = some (some true) := by decide +kernel
    rcases Option.map_eq_some_iff.mp hpoisoned with ⟨store, hstore, hrun⟩
    have hopen := Session.eq_opened hstore
    cases hcall : (Mutation.append ⟨1, 7, 2, [99, 100]⟩).call.run store with
    | ok u after =>
        rw [hcall] at hrun
        cases hrun
    | error e after =>
        rw [hcall] at hrun
        have huntouched := (mutations_atomic _ hopen _).1 e after hcall
        refine ⟨store, e, after, hopen, hcall, Option.some.inj hrun, ?_, huntouched.nextSeq_eq,
          huntouched.records_eq _⟩
        rw [huntouched.same]
  · have hnextSeq : (start.steps unwritable).session.store?.map (fun store =>
        match (Mutation.append ⟨1, 7, 1, [97, 98]⟩).call.run store with
        | .ok _ after => some after.log.nextSeq
        | .error _ _ => none) = some (some 3) := by decide +kernel
    rcases Option.map_eq_some_iff.mp hnextSeq with ⟨store, hstore, hrun⟩
    have hopen := Session.eq_opened hstore
    cases hcall : (Mutation.append ⟨1, 7, 1, [97, 98]⟩).call.run store with
    | ok u after =>
        rw [hcall] at hrun
        rcases (mutations_atomic _ hopen _).2.1 after hcall with ⟨op, hresolve, hexecuted⟩
        exact ⟨store, after, op, hopen, hcall, Option.some.inj hrun, hresolve, hexecuted.noted⟩
    | error e after =>
        rw [hcall] at hrun
        cases hrun

end StoreRun
end TieredStore
