import TieredStore.Proofs.Log.Run
import TieredStore.Proofs.Store.Run

/-!
# What a store logs

Apart from checkpoints a store adds to its log the operations that it accepts, one
for each call, and nothing else.  So the log that a run of calls leaves behind is
the log of a run that adds these operations one after the other, whether or not
they can be added.
-/

namespace TieredStore

namespace Store

variable {store after : Store FlakyTier}

def offer (store : Store FlakyTier) (op : Operation) (wellFormed : op.WellFormed) :
    Option LogStep :=
  match store.table.validate op with
  | .ok () => some (.append op wellFormed)
  | .error _ => none

structure Logs (store : Store FlakyTier) (step : Option LogStep) (after : Store FlakyTier) :
    Prop where
  config_eq : after.config = store.config
  log_eq : ∀ {run : LogRun}, run.session = .opened store.log →
    (run.steps step.toList).session = .opened after.log

theorem logs_refl (store : Store FlakyTier) : store.Logs none store := ⟨rfl, fun h => h⟩

theorem require_bind_ends {α : Type} {id : SegmentId} {next : Segment → StoreM FlakyTier α}
    {answered : α → Store FlakyTier → Prop} {failed : Error → Store FlakyTier → Prop}
    (hsome : ∀ s, store.table.get? id = some s → Ends (next s) store answered failed)
    (hnone : store.table.get? id = none → ∀ e, failed e store) :
    Ends (require id >>= next) store answered failed := by
  cases hs : store.table.get? id with
  | some s => exact Ends.bind (Ends.of_ok (require_of_get? hs) (hsome s hs))
  | none =>
      refine Ends.bind ((require_ends store id).mono ?_ ?_)
      · intro s after hafter
        rw [show store.container.table.get? id = none from hs] at hafter
        cases hafter.2
      · intro e after hafter
        rw [hafter]
        exact hnone hs e

/-! ## Calls -/

theorem onContainer_logs {α : Type} (call : ContainerM FlakyTier α) :
    Ends (onContainer call) store (fun _ after => store.Logs none after)
      (fun _ after => store.Logs none after) :=
  onContainer_ends (.of_run (fun _ _ _ => ⟨rfl, fun h => h⟩) fun _ _ _ => ⟨rfl, fun h => h⟩)

theorem append_logs {op : Operation} (wellFormed : op.WellFormed) :
    Ends (Log.append op) store.log
      (fun _ log => store.Logs (some (.append op wellFormed)) { store with log })
      (fun _ log => store.Logs (some (.append op wellFormed)) { store with log }) := by
  refine .of_run ?_ ?_
  · intro seq log hrun
    refine ⟨rfl, fun {run} hopen => ?_⟩
    show (run.step (.append op wellFormed)).session = _
    unfold LogRun.step
    simp only [hopen, hrun]
  · intro e log hrun
    refine ⟨rfl, fun {run} hopen => ?_⟩
    show (run.step (.append op wellFormed)).session = _
    unfold LogRun.step
    simp only [hopen, hrun]

theorem execute_logs (hauto : store.config.checkpointEveryOps = 0) {op : Operation}
    (wellFormed : op.WellFormed) :
    Ends (execute op) store (fun _ after => store.Logs (store.offer op wellFormed) after)
      (fun _ after => store.Logs (store.offer op wellFormed) after) := by
  unfold offer
  refine ends_execute ?_ ?_
  · intro cause hrefused
    rw [hrefused]
    exact store.logs_refl
  · intro hvalidate
    rw [hvalidate]
    refine (append_logs wellFormed).mono ?_ ?_
    · intro _ log hlogged
      have hnever : ¬ 0 < (store.taken op log).config.checkpointEveryOps :=
        Nat.not_lt.mpr (Nat.le_of_eq hauto)
      exact ends_checkpointIfDue (fun hdue => absurd hdue.1 hnever)
        fun _ => ⟨rfl, hlogged.log_eq⟩
    · intro _ log hlogged
      exact hlogged

end Store

namespace StoreStep

def isCall : StoreStep → Bool
  | create _ => true
  | createBatch _ _ => true
  | append _ => true
  | sealSegment _ => true
  | merge _ _ => true
  | truncate _ _ => true
  | flush => true
  | switchTier _ _ _ => true
  | _ => false

def logStep? (store : Store FlakyTier) : StoreStep → Option LogStep
  | create name => store.offer (.create store.table.nextId name) trivial
  | createBatch parent number => do
      let s ← store.table.get? parent
      store.offer (.createBatch store.table.nextId (Store.batchName s.name number) parent) trivial
  | append request => do
      let s ← store.table.get? request.segment
      store.offer (request.resolve s.length) trivial
  | sealSegment id => do
      let s ← store.table.get? id
      store.offer ((SealRequest.mk id).resolve s.length) trivial
  | merge batch parent => do
      let added ← store.table.get? batch
      let grown ← store.table.get? parent
      store.offer ((MergeRequest.mk batch parent).resolve added.length grown.length) trivial
  | truncate id offset => store.offer (.truncate id offset) trivial
  | _ => none

end StoreStep

namespace StoreRun

variable {run : StoreRun} {store : Store FlakyTier}

theorem call_logs (hopen : run.session = .opened store) {α : Type} {call : StoreM FlakyTier α}
    {written : α → Contents} {step : Option LogStep}
    (h : Ends call store (fun _ after => store.Logs step after)
      (fun _ after => store.Logs step after)) :
    ∃ after, (run.call call written).session = .opened after ∧ store.Logs step after :=
  call_opened hopen (fun _ after => store.Logs step after) h

theorem answering_logs {α β : Type} {call : StoreM FlakyTier β} {a : α} {step : Option LogStep}
    (h : Ends call store (fun _ after => store.Logs step after)
      (fun _ after => store.Logs step after)) :
    Ends (call >>= fun _ => pure a) store (fun _ after => store.Logs step after)
      (fun _ after => store.Logs step after) := by
  refine Ends.bind (h.mono ?_ ?_)
  · intro _ after hafter
    exact Ends.pure hafter
  · intro _ after hafter
    exact hafter

theorem step_logs (hopen : run.session = .opened store)
    (hauto : store.config.checkpointEveryOps = 0) {next : StoreStep} (hcall : next.isCall = true) :
    ∃ after, (run.step next).session = .opened after ∧ store.Logs (next.logStep? store) after := by
  cases next with
  | create name => exact call_logs hopen (Ends.get (answering_logs (Store.execute_logs hauto _)))
  | createBatch parent number =>
      refine call_logs hopen (Store.require_bind_ends ?_ ?_)
      · intro s hs
        rw [StoreStep.logStep?, hs]
        exact Ends.get (answering_logs (Store.execute_logs hauto _))
      · intro hs e
        rw [StoreStep.logStep?, hs]
        exact store.logs_refl
  | append request =>
      refine call_logs hopen (Store.require_bind_ends ?_ ?_)
      · intro s hs
        rw [StoreStep.logStep?, hs]
        exact answering_logs (Store.execute_logs hauto _)
      · intro hs e
        rw [StoreStep.logStep?, hs]
        exact store.logs_refl
  | sealSegment id =>
      refine call_logs hopen (Store.require_bind_ends ?_ ?_)
      · intro s hs
        rw [StoreStep.logStep?, hs]
        exact answering_logs (Store.execute_logs hauto _)
      · intro hs e
        rw [StoreStep.logStep?, hs]
        exact store.logs_refl
  | merge batch parent =>
      refine call_logs hopen (Store.require_bind_ends ?_ ?_)
      · intro added hadded
        refine Store.require_bind_ends ?_ ?_
        · intro grown hgrown
          rw [StoreStep.logStep?, hadded, hgrown]
          exact answering_logs (Store.execute_logs hauto _)
        · intro hgrown e
          rw [StoreStep.logStep?, hadded, hgrown]
          exact store.logs_refl
      · intro hadded e
        rw [StoreStep.logStep?, hadded]
        exact store.logs_refl
  | truncate id offset => exact call_logs hopen (Store.execute_logs hauto _)
  | flush => exact call_logs hopen (Store.onContainer_logs _)
  | switchTier failReads failWrites interruptConcat =>
      have hswitched : (run.step (.switchTier failReads failWrites interruptConcat)).session =
          (Session.opened store).setTier
            { (Session.opened store).tier with failReads, failWrites, interruptConcat } := by
        rw [← hopen]
        rfl
      exact ⟨_, hswitched, ⟨rfl, fun h => h⟩⟩
  | _ => cases hcall

def logSteps (run : StoreRun) : List StoreStep → List LogStep
  | [] => []
  | next :: rest =>
      (run.session.store?.bind (next.logStep? ·)).toList ++ (run.step next).logSteps rest

theorem steps_logs {log : LogRun} (hopen : run.session = .opened store)
    (hlog : log.session = .opened store.log) (hauto : store.config.checkpointEveryOps = 0)
    {list : List StoreStep} (hcalls : ∀ next ∈ list, next.isCall = true) :
    ∃ after, (run.steps list).session = .opened after ∧
      (log.steps (run.logSteps list)).session = .opened after.log := by
  induction list generalizing run store log with
  | nil => exact ⟨store, hopen, hlog⟩
  | cons next rest ih =>
      rcases step_logs hopen hauto (hcalls next List.mem_cons_self) with ⟨after, hafter, hlogs⟩
      have hauto' : after.config.checkpointEveryOps = 0 := by rw [hlogs.config_eq, hauto]
      rcases ih hafter (hlogs.log_eq hlog) hauto'
        (fun s hs => hcalls s (List.mem_cons_of_mem _ hs)) with ⟨last, hlast, hsteps⟩
      refine ⟨last, hlast, ?_⟩
      rw [logSteps, hopen]
      unfold LogRun.steps at hsteps ⊢
      rw [List.foldl_append]
      exact hsteps

/-- What is read from the log of a store that was opened for the first time and then called. -/
theorem read_of_calls {config : Config} (hauto : config.checkpointEveryOps = 0)
    {list : List StoreStep} (hcalls : ∀ next ∈ list, next.isCall = true)
    (hopen : (start.steps (.reopen config :: list)).session = .opened store)
    (from_ : SequenceNumber) :
    store.log.records from_ = ((LogRun.start.steps (.reopen config ::
      (start.step (.reopen config)).logSteps list)).records.filter fun r => from_ ≤ r.1).map .ok := by
  have hstart : ∃ opened, (start.step (.reopen config)).session = .opened opened ∧
      opened.config = config ∧
      (LogRun.start.step (.reopen config)).session = .opened opened.log := ⟨_, rfl, rfl, rfl⟩
  rcases hstart with ⟨opened, hopened, hconfig, hlog⟩
  rcases steps_logs hopened hlog (by rw [hconfig, hauto]) hcalls with ⟨after, hafter, hsteps⟩
  have heq : Session.opened after = .opened store := hafter.symm.trans hopen
  cases heq
  have hlogged : (LogRun.start.steps (.reopen config ::
      (start.step (.reopen config)).logSteps list)).session = .opened store.log := hsteps
  exact (LogRun.exact_start.steps _).records_eq hlogged from_

theorem records_of_calls {config : Config} (hauto : config.checkpointEveryOps = 0)
    {list : List StoreStep} (hcalls : ∀ next ∈ list, next.isCall = true)
    (hopen : (start.steps (.reopen config :: list)).session = .opened store)
    {from_ : SequenceNumber} {records : List LogRecord}
    (hrecords : store.log.records from_ = records.map .ok) :
    records = (LogRun.start.steps (.reopen config ::
      (start.step (.reopen config)).logSteps list)).records.filter fun r => from_ ≤ r.1 :=
  (List.map_inj_right fun _ _ h => Except.ok.inj h).mp
    (hrecords.symm.trans (read_of_calls hauto hcalls hopen from_))

end StoreRun
end TieredStore
