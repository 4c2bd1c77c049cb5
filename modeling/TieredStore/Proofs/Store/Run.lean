import TieredStore.Proofs.Store.Executing
import TieredStore.Proofs.Store.Reopening

/-!
# Reads refine byte strings

A run of a store is any sequence of calls, readings, closings and openings, with
faults of the ledgers and of the tier switched on and off in between.  Beside the
store it keeps the contents that its callers know of: a created segment is empty,
an acknowledged append adds its bytes, and an acknowledged merge adds the content
of the batch.  Whenever the store is open and the tier can be read, reading a
segment gives this content.
-/

namespace TieredStore

inductive StoreStep
  | reopen (config : Config)
  | close
  | create (name : String)
  | createBatch (parent : SegmentId) (number : Word128)
  | append (request : AppendRequest)
  | sealSegment (id : SegmentId)
  | merge (batch parent : SegmentId)
  | truncate (id : SegmentId) (offset : Nat)
  | flush
  | checkpoint
  | truncateLog
  | flushLog
  | next (read : ReadResult)
  | awaitEntry (entry : Entry)
  | pollEntry (entry : Entry)
  | dropEntry (entry : Entry)
  | settle
  | advance (milliseconds : Nat)
  | switchLedgers (change : LedgerFaults → LedgerFaults)
  | switchTier (failReads failWrites interruptConcat : Bool)

/-- A store session and what its callers have written. -/
structure StoreRun where
  session : Session FlakyTier
  content : Contents := Contents.empty

theorem Session.eq_opened {τ : Type} {session : Session τ} {store : Store τ}
    (h : session.store? = some store) : session = .opened store := by
  cases session with
  | closed host => cases h
  | opened other =>
      cases h
      rfl

namespace StoreRun

def start : StoreRun := { session := .closed { ledgers := Ledgers.inMemory, tier := {} } }

/-- A call of an open store; the contents are changed if it is acknowledged. -/
def call {α : Type} (run : StoreRun) (call : StoreM FlakyTier α) (written : α → Contents) :
    StoreRun :=
  match run.session with
  | .closed _ => run
  | .opened store =>
      match call.run store with
      | .ok a store => { session := .opened store, content := written a }
      | .error _ store => { run with session := .opened store }

def reading (run : StoreRun) (part : Store FlakyTier → Store FlakyTier) : StoreRun :=
  match run.session with
  | .closed _ => run
  | .opened store => { run with session := .opened (part store) }

/-- One step.  Only an open store can be changed or read. -/
def step (run : StoreRun) : StoreStep → StoreRun
  | .reopen config => { run with session := (run.session.reopen config).2 }
  | .close => { run with session := run.session.close }
  | .create name => run.call (Store.create name) fun id => run.content.create id
  | .createBatch parent number =>
      run.call (Store.createBatch parent number) fun id => run.content.create id
  | .append request =>
      run.call (Store.append request) fun _ => run.content.append request.segment request.data
  | .sealSegment id => run.call (Store.sealSegment id) fun _ => run.content
  | .merge batch parent =>
      run.call (Store.merge batch parent) fun _ =>
        run.content.append parent (run.content batch)
  | .truncate id offset => run.call (Store.truncate id offset) fun _ => run.content
  | .flush => run.call Store.flush fun _ => run.content
  | .checkpoint => run.call Store.checkpoint fun _ => run.content
  | .truncateLog => run.call Store.truncateLog fun _ => run.content
  | .flushLog => run.call (Store.onLog Log.flush) fun _ => run.content
  | .next read => run.reading fun store => (read.next store).store
  | .awaitEntry entry => run.reading fun store => (entry.awaitContent store).store
  | .pollEntry entry => run.reading fun store => (entry.tryContent store).store
  | .dropEntry entry => run.reading fun store => entry.drop store
  | .settle => { run with session := run.session.settle }
  | .advance milliseconds => { run with session := run.session.advance milliseconds }
  | .switchLedgers change =>
      { run with session := run.session.setLedgers (run.session.ledgers.setFaults change) }
  | .switchTier failReads failWrites interruptConcat =>
      { run with
        session := run.session.setTier
          { run.session.tier with failReads, failWrites, interruptConcat } }

def steps (run : StoreRun) (list : List StoreStep) : StoreRun := list.foldl step run

theorem steps_append (list : List StoreStep) (next : StoreStep) :
    start.steps (list ++ [next]) = (start.steps list).step next := List.foldl_append

/-! ## What every run keeps -/

/-- A switch of a run lets joins of the tier break off. -/
def Interrupts (list : List StoreStep) : Prop :=
  ∃ failReads failWrites, StoreStep.switchTier failReads failWrites true ∈ list

def Kept (broken : Prop) (run : StoreRun) : Prop := run.session.Kept broken run.content

variable {broken : Prop}

theorem kept_start : start.Kept broken := by
  refine ⟨{}, {}, Ledgers.leads_inMemory, ?_, ?_, ?_⟩
  · exact
      { consistent := Table.Consistent.empty
        wellFormed := Table.WellFormed.empty
        stored :=
          { starts := fun hs => nomatch hs
            reaches := fun hs => nomatch hs
            owned := fun hobject => nomatch hobject }
        accounted := Table.Accounted.empty
        follows := Table.Follows.refl _
        replayed := Table.Consistent.empty }
  · intro id s hs
    cases hs
  · intro hbreak
    cases hbreak

/-- A call leaves an open store open, and what holds where it ends holds after the step. -/
theorem call_opened {run : StoreRun} {store : Store FlakyTier} (hopen : run.session = .opened store)
    {α : Type} {call : StoreM FlakyTier α} {written : α → Contents}
    (holds : Contents → Store FlakyTier → Prop)
    (h : Ends call store (fun a after => holds (written a) after)
      (fun _ after => holds run.content after)) :
    ∃ after, (run.call call written).session = .opened after ∧
      holds (run.call call written).content after := by
  rcases run with ⟨session, content⟩
  cases hopen
  unfold StoreRun.call
  simp only
  refine Ends.elim (call.run store) rfl (h.mono ?_ ?_)
  · intro a after hafter
    exact ⟨after, rfl, hafter⟩
  · intro e after hafter
    exact ⟨after, rfl, hafter⟩

theorem Kept.call {run : StoreRun} (h : run.Kept broken) {α : Type} {call : StoreM FlakyTier α}
    {written : α → Contents}
    (hcall : ∀ {store : Store FlakyTier}, store.Kept broken run.content →
      Ends call store (fun a after => after.Kept broken (written a))
        (fun _ after => after.Kept broken run.content)) : (run.call call written).Kept broken := by
  rcases run with ⟨session, content⟩
  cases session with
  | closed host => exact h
  | opened store =>
      rcases call_opened rfl (fun content after => after.Kept broken content) (hcall h) with
        ⟨after, hsession, hafter⟩
      unfold StoreRun.Kept
      rw [hsession]
      exact hafter

theorem Kept.reading {run : StoreRun} (h : run.Kept broken)
    {part : Store FlakyTier → Store FlakyTier}
    (hpart : ∀ {store : Store FlakyTier}, store.Sound run.content →
      store.Unmoved run.content (part store)) : (run.reading part).Kept broken := by
  rcases run with ⟨session, content⟩
  cases session with
  | closed host => exact h
  | opened store =>
      have hstore : store.Kept broken content := h
      exact (hpart hstore.sound).kept hstore

theorem Kept.step {run : StoreRun} (h : run.Kept broken) (next : StoreStep)
    (hjoins : Interrupts [next] → broken) : (run.step next).Kept broken := by
  cases next with
  | reopen config => exact Session.Kept.reopen h config
  | close => exact Session.Kept.close h
  | create name => exact h.call fun hstore => hstore.executes_ends (hstore.executes_create name)
  | createBatch parent number =>
      exact h.call fun hstore => hstore.executes_ends (hstore.executes_createBatch parent number)
  | append request =>
      exact h.call fun hstore => hstore.executes_ends (Store.executes_append _ _ request)
  | sealSegment id =>
      exact h.call fun hstore => hstore.executes_ends (Store.executes_sealSegment _ _ id)
  | merge batch parent =>
      exact h.call fun hstore => hstore.executes_ends (Store.executes_merge _ _ batch parent)
  | truncate id offset =>
      exact h.call fun hstore => hstore.executes_ends (Store.executes_truncate _ _ id offset)
  | flush => exact h.call fun hstore => hstore.flush_ends
  | checkpoint => exact h.call fun hstore => hstore.checkpoint_ends
  | truncateLog => exact h.call fun hstore => hstore.truncateLog_ends
  | flushLog => exact h.call fun hstore => hstore.flushLog_ends
  | next read => exact h.reading fun hstore => hstore.next read
  | awaitEntry entry => exact h.reading fun hstore => hstore.awaitContent entry
  | pollEntry entry => exact h.reading fun hstore => hstore.tryContent entry
  | dropEntry entry => exact h.reading fun hstore => hstore.drop entry
  | settle => exact Session.Kept.settle h
  | advance milliseconds => exact Session.Kept.advance h milliseconds
  | switchLedgers change => exact Session.Kept.setFaults h change
  | switchTier failReads failWrites interruptConcat =>
      refine Session.Kept.setTier h rfl fun hbreak => hjoins ⟨failReads, failWrites, ?_⟩
      rw [show interruptConcat = true from hbreak]
      exact List.mem_singleton_self _

theorem Kept.steps {run : StoreRun} (h : run.Kept broken) (list : List StoreStep)
    (hjoins : Interrupts list → broken) : (run.steps list).Kept broken := by
  induction list generalizing run with
  | nil => exact h
  | cons next rest ih =>
      refine ih (h.step next fun hnext => hjoins ?_) fun hrest => hjoins ?_
      · rcases hnext with ⟨failReads, failWrites, hmem⟩
        refine ⟨failReads, failWrites, List.mem_cons.mpr (Or.inl ?_)⟩
        exact List.mem_singleton.mp hmem
      · rcases hrest with ⟨failReads, failWrites, hmem⟩
        exact ⟨failReads, failWrites, List.mem_cons_of_mem _ hmem⟩

theorem Kept.opened {run : StoreRun} (h : run.Kept broken) {store : Store FlakyTier}
    (hopen : run.session = .opened store) : store.Kept broken run.content := by
  unfold Kept at h
  rw [hopen] at h
  exact h

theorem kept_of_opened (list : List StoreStep) {store : Store FlakyTier}
    (hopen : (start.steps list).session = .opened store) :
    store.Kept (Interrupts list) (start.steps list).content :=
  (kept_start.steps list id).opened hopen

/-! ## Reads -/

end StoreRun
end TieredStore
