import TieredStore.Log.Session
import TieredStore.Proofs.Log.Appending
import TieredStore.Proofs.Log.Opening
import TieredStore.Proofs.Log.Truncating

/-!
# The log is an exact history

A run of a log is any sequence of appends, truncations, flushes, readings,
closings and openings over a medium whose faults are switched on and off in
between.  Beside the log it keeps the history that its callers know of: the
records whose appending was acknowledged and that no truncation has dropped.  At
every moment at which the log is open it holds exactly this history, whatever
has failed on the way.
-/

namespace TieredStore

open Chapter LogRecord

inductive LogStep
  /-- A table that is appended as a checkpoint is well-formed. -/
  | append (op : Operation) (wellFormed : op.WellFormed)
  | truncate (upto : SequenceNumber)
  | flush
  /-- Reading is a function of the log and changes nothing. -/
  | read (start : SequenceNumber)
  | close
  | reopen (config : Config)
  | switch (change : LedgerFaults → LedgerFaults)

namespace LogStep

def keepsOpen : LogStep → Bool
  | close => false
  | reopen _ => false
  | _ => true

end LogStep

/-- A log session and what its callers know of it. -/
structure LogRun where
  session : LogSession
  /-- The acknowledged records that no truncation has dropped. -/
  records : List LogRecord := []
  /-- The last sequence number that was ever acknowledged, zero if none was. -/
  acknowledged : SequenceNumber := 0

theorem LogSession.eq_opened {session : LogSession} {log : Log} (h : session.log? = some log) :
    session = .opened log := by
  cases session with
  | closed medium => cases h
  | opened log' =>
      cases h
      rfl

namespace LogRun

def start : LogRun := { session := .closed Ledgers.inMemory }

/-- One step.  Only an open log can be changed or read. -/
def step (run : LogRun) : LogStep → LogRun
  | .append op _ =>
      match run.session with
      | .closed _ => run
      | .opened log =>
          match (Log.append op).run log with
          | .ok seq log =>
              { session := .opened log, records := run.records ++ [(seq, op)], acknowledged := seq }
          | .error _ log => { run with session := .opened log }
  | .truncate upto =>
      match run.session with
      | .closed _ => run
      | .opened log =>
          match (Log.truncate upto).run log with
          | .ok () log =>
              { run with
                session := .opened log
                records := run.records.filter (fun r => upto < r.1) }
          | .error _ log => { run with session := .opened log }
  | .flush =>
      match run.session with
      | .closed _ => run
      | .opened log =>
          match Log.flush.run log with
          | .ok () log => { run with session := .opened log }
          | .error _ log => { run with session := .opened log }
  | .read _ => run
  | .close => { run with session := run.session.close }
  | .reopen config => { run with session := ((run.session.retake false).2.load config).2 }
  | .switch change =>
      { run with session := run.session.setLedgers (run.session.ledgers.setFaults change) }

def steps (run : LogRun) (list : List LogStep) : LogRun := list.foldl step run

section Calls

variable {motive : LogRun → Prop} {log : Log} {records : List LogRecord}
  {acknowledged : SequenceNumber}

theorem step_append_ends {op : Operation} (wellFormed : op.WellFormed)
    (h : Ends (Log.append op) log
      (fun seq after => motive
        { session := .opened after, records := records ++ [(seq, op)], acknowledged := seq })
      (fun _ after => motive { session := .opened after, records, acknowledged })) :
    motive (step { session := .opened log, records, acknowledged } (.append op wellFormed)) := by
  unfold step
  simp only
  exact Ends.elim ((Log.append op).run log) rfl h

theorem step_truncate_ends {upto : SequenceNumber}
    (h : Ends (Log.truncate upto) log
      (fun _ after => motive
        { session := .opened after, records := records.filter (fun r => upto < r.1),
          acknowledged })
      (fun _ after => motive { session := .opened after, records, acknowledged })) :
    motive (step { session := .opened log, records, acknowledged } (.truncate upto)) := by
  unfold step
  simp only
  exact Ends.elim ((Log.truncate upto).run log) rfl h

theorem step_flush (run : LogRun) : run.step .flush = run := by
  obtain ⟨session, records, acknowledged⟩ := run
  cases session with
  | closed medium => rfl
  | opened log =>
      have hflush := Log.flush_ends log
      unfold step
      simp only
      refine Ends.elim (Log.flush.run log) rfl (hflush.mono ?_ ?_)
      · rintro _ after rfl
        rfl
      · rintro _ after rfl
        rfl

end Calls

/-!
## What every run keeps
-/

def Keeps (first : SequenceNumber) (chapters : List Chapter) (tail : Bytes) : LogSession → Prop
  | .closed medium => medium.Keeps first chapters tail
  | .opened log => log.Holds first chapters tail

/-- The ledgers keep the history of the run. -/
def Exact (run : LogRun) : Prop :=
  ∃ first chapters tail, history chapters = run.records ∧
    run.acknowledged + 1 = first + run.records.length ∧ Keeps first chapters tail run.session

theorem Keeps.ledgers {first : SequenceNumber} {chapters : List Chapter} {tail : Bytes}
    {session : LogSession} (h : Keeps first chapters tail session) :
    session.ledgers.Keeps first chapters tail := by
  cases session with
  | closed medium => exact h
  | opened log => exact Log.Holds.keeps h

theorem Keeps.setFaults {first : SequenceNumber} {chapters : List Chapter} {tail : Bytes}
    {session : LogSession} (h : Keeps first chapters tail session)
    (change : LedgerFaults → LedgerFaults) :
    Keeps first chapters tail (session.setLedgers (session.ledgers.setFaults change)) := by
  cases session with
  | closed medium => exact Ledgers.Keeps.setFaults h change
  | opened log =>
      have hholds : log.Holds first chapters tail := h
      exact { hholds with keeps := hholds.keeps.setFaults change }

theorem Keeps.close {first : SequenceNumber} {chapters : List Chapter} {tail : Bytes}
    {session : LogSession} (h : Keeps first chapters tail session) :
    Keeps first chapters tail session.close := by
  show session.ledgers.release.Keeps first chapters tail
  rw [h.ledgers.shows.release_eq]
  exact h.ledgers

/-- Opening finds the same history, and a failed opening loses nothing of it. -/
theorem Keeps.reopen_cases {first : SequenceNumber} {chapters : List Chapter} {tail : Bytes}
    {session : LogSession} (h : Keeps first chapters tail session) (config : Config) :
    (∃ log, log.Holds first chapters [] ∧
        ((session.retake false).2.load config).2 = .opened log) ∨
      ∃ after tail', after.Keeps first chapters tail' ∧
        ((session.retake false).2.load config).2 = .closed after := by
  have hkeeps := h.ledgers
  have hretake : (session.retake false).2 = .closed session.ledgers := by
    have hacquire := hkeeps.shows.acquire_eq
    unfold LogSession.retake
    simp only [Bool.false_eq_true, if_false, hkeeps.shows.release_eq, hacquire]
  have hload := Log.load_keeps hkeeps config
  rw [hretake]
  unfold LogSession.load
  cases hrun : Log.load config session.ledgers with
  | ok log =>
      have hrun' : Log.load config (LogSession.closed session.ledgers).ledgers = .ok log := hrun
      rw [hrun] at hload
      rw [hrun']
      exact Or.inl ⟨log, hload.1, rfl⟩
  | error failure =>
      obtain ⟨e, after⟩ := failure
      have hrun' : Log.load config (LogSession.closed session.ledgers).ledgers =
          .error (e, after) := hrun
      rw [hrun] at hload
      rw [hrun']
      obtain ⟨-, tail', hafter⟩ := hload
      refine Or.inr ⟨after, tail', hafter, ?_⟩
      show LogSession.closed after.release = _
      rw [hafter.shows.release_eq]

theorem Keeps.reopen {first : SequenceNumber} {chapters : List Chapter} {tail : Bytes}
    {session : LogSession} (h : Keeps first chapters tail session) (config : Config) :
    ∃ tail', Keeps first chapters tail' ((session.retake false).2.load config).2 := by
  rcases h.reopen_cases config with ⟨log, hholds, heq⟩ | ⟨after, tail', hafter, heq⟩
  · rw [heq]
    exact ⟨[], hholds⟩
  · rw [heq]
    exact ⟨tail', hafter⟩

theorem exact_start : start.Exact :=
  ⟨.first, [], [], rfl, rfl, Ledgers.Keeps.inMemory⟩

theorem Exact.step {run : LogRun} (h : run.Exact) (next : LogStep) : (run.step next).Exact := by
  obtain ⟨session, records, acknowledged⟩ := run
  obtain ⟨first, chapters, tail, hhistory, hnext, hkeeps⟩ := h
  have hhistory : history chapters = records := hhistory
  subst hhistory
  cases next with
  | append op wellFormed =>
      cases session with
      | closed medium =>
          exact ⟨first, chapters, tail, rfl, hnext, hkeeps⟩
      | opened log =>
          have hholds : log.Holds first chapters tail := hkeeps
          refine step_append_ends wellFormed ((hholds.append_ends wellFormed).mono ?_ ?_)
          · rintro seq after ⟨hseq, chapters', hafter, heq⟩
            refine ⟨first, chapters', [], heq, ?_, hafter⟩
            show seq + 1 = first + (history chapters ++ [(seq, op)]).length
            rw [hseq, hholds.nextSeq_eq, List.length_append, Nat.add_assoc]
            rfl
          · rintro e after ⟨added, tail', hafter, hadded⟩
            refine ⟨first, chapters ++ added, tail', ?_, hnext, hafter⟩
            show history (chapters ++ added) = history chapters
            rw [history_append, hadded, List.append_nil]
  | truncate upto =>
      cases session with
      | closed medium =>
          exact ⟨first, chapters, tail, rfl, hnext, hkeeps⟩
      | opened log =>
          have hholds : log.Holds first chapters tail := hkeeps
          refine step_truncate_ends ((hholds.truncate_ends upto).mono ?_ ?_)
          · rintro _ after ⟨-, hseq, first', chapters', hafter, heq⟩
            refine ⟨first', chapters', tail, heq, ?_, hafter⟩
            show acknowledged + 1 = first' + ((history chapters).filter _).length
            rw [← heq, ← hafter.nextSeq_eq, hseq, hholds.nextSeq_eq]
            exact hnext
          · rintro e after rfl
            exact ⟨first, chapters, tail, rfl, hnext, hholds⟩
  | flush =>
      rw [step_flush]
      exact ⟨first, chapters, tail, rfl, hnext, hkeeps⟩
  | read start =>
      exact ⟨first, chapters, tail, rfl, hnext, hkeeps⟩
  | close =>
      exact ⟨first, chapters, tail, rfl, hnext, hkeeps.close⟩
  | reopen config =>
      obtain ⟨tail', hafter⟩ := hkeeps.reopen config
      exact ⟨first, chapters, tail', rfl, hnext, hafter⟩
  | switch change =>
      exact ⟨first, chapters, tail, rfl, hnext, hkeeps.setFaults change⟩

theorem Exact.steps {run : LogRun} (h : run.Exact) (list : List LogStep) :
    (run.steps list).Exact := by
  induction list generalizing run with
  | nil => exact h
  | cons next rest ih => exact ih (h.step next)

theorem Exact.records_eq {run : LogRun} (h : run.Exact) {log : Log}
    (hopen : run.session = .opened log) (start : SequenceNumber) :
    log.records start = (run.records.filter fun r => start ≤ r.1).map .ok := by
  rcases h with ⟨first, chapters, tail, hhistory, -, hkeeps⟩
  rw [hopen] at hkeeps
  have hholds : log.Holds first chapters tail := hkeeps
  rw [← hhistory]
  exact hholds.records_eq start

/-- A poisoned log stays as it is until it is closed or opened anew. -/
theorem Exact.step_poisoned {run : LogRun} (h : run.Exact) {log : Log}
    (hopen : run.session = .opened log) (hpoisoned : log.poisoned = true) {next : LogStep}
    (hnext : next.keepsOpen = true) :
    ∃ after, (run.step next).session = .opened after ∧ after.poisoned = true := by
  obtain ⟨session, records, acknowledged⟩ := run
  obtain ⟨first, chapters, tail, -, -, hkeeps⟩ := h
  have hopen : session = .opened log := hopen
  subst hopen
  have hholds : log.Holds first chapters tail := hkeeps
  cases next with
  | append op wellFormed =>
      refine ⟨log, ?_, hpoisoned⟩
      unfold LogRun.step
      simp only [Log.append_of_poisoned hpoisoned]
  | truncate upto =>
      refine step_truncate_ends
        (motive := fun run => ∃ after, run.session = .opened after ∧ after.poisoned = true)
        ((hholds.truncate_ends upto).mono ?_ ?_)
      · rintro _ after ⟨hsame, -⟩
        exact ⟨after, rfl, hsame.trans hpoisoned⟩
      · rintro e after rfl
        exact ⟨after, rfl, hpoisoned⟩
  | flush =>
      rw [step_flush]
      exact ⟨log, rfl, hpoisoned⟩
  | read start =>
      exact ⟨log, rfl, hpoisoned⟩
  | close =>
      cases hnext
  | reopen config =>
      cases hnext
  | switch change =>
      exact ⟨_, rfl, hpoisoned⟩

theorem Exact.steps_poisoned {run : LogRun} (h : run.Exact) {log : Log}
    (hopen : run.session = .opened log) (hpoisoned : log.poisoned = true) {list : List LogStep}
    (hlist : ∀ next ∈ list, next.keepsOpen = true) :
    ∃ after, (run.steps list).session = .opened after ∧ after.poisoned = true := by
  induction list generalizing run log with
  | nil => exact ⟨log, hopen, hpoisoned⟩
  | cons next rest ih =>
      obtain ⟨middle, hmiddle, hstill⟩ :=
        h.step_poisoned hopen hpoisoned (hlist next List.mem_cons_self)
      exact ih (h.step next) hmiddle hstill fun s hs => hlist s (List.mem_cons_of_mem _ hs)

/-!
## The theorem
-/

/--
Whenever the log is open it holds the acknowledged records that no truncation has
dropped: their sequence numbers are consecutive, the next one follows the last
that was ever acknowledged, and reading from anywhere gives the records from
there on.  A failed append takes no sequence number.  What it has written it cuts
off again, and if it cannot, nothing is written any more until the log is closed
or opened anew.
-/
theorem open_log_is_exact (list : List LogStep) {log : Log}
    (hopen : (start.steps list).session = .opened log) :
    (∃ first, (start.steps list).records.map Prod.fst =
      List.range' first (start.steps list).records.length) ∧
    log.nextSeq = (start.steps list).acknowledged + 1 ∧
    (∀ from_, log.records from_ =
      ((start.steps list).records.filter (fun r => from_ ≤ r.1)).map .ok) ∧
    (∀ op (wellFormed : op.WellFormed) e after, (Log.append op).run log = .error e after →
      after.nextSeq = log.nextSeq ∧
      (after.poisoned = false → ∀ id ∈ log.medium.list,
        after.medium.bytes? id = log.medium.bytes? id) ∧
      (after.poisoned = true → ∀ more : List LogStep, (∀ next ∈ more, next.keepsOpen = true) →
        ∃ later, (start.steps (list ++ .append op wellFormed :: more)).session = .opened later ∧
          ∀ op', ∃ e', (Log.append op').run later = .error e' later)) := by
  have hexact := exact_start.steps list
  obtain ⟨first, chapters, tail, hhistory, hnext, hkeeps⟩ := id hexact
  rw [hopen] at hkeeps
  have hholds : log.Holds first chapters tail := hkeeps
  refine ⟨⟨first, ?_⟩, ?_, ?_, ?_⟩
  · rw [← hhistory]
    exact hholds.keeps.runs
  · rw [hnext, ← hhistory]
    exact hholds.nextSeq_eq
  · exact hexact.records_eq hopen
  · intro op wellFormed e after hrun
    obtain ⟨added, tail', hafter, hadded⟩ := (hholds.append_ends wellFormed).error hrun
    refine ⟨?_, ?_, ?_⟩
    · rw [hafter.nextSeq_eq, hholds.nextSeq_eq, history_append, hadded, List.append_nil]
    · intro hclean id hid
      have hlog : log.poisoned = false := by
        cases hpoisoned : log.poisoned with
        | false => rfl
        | true =>
            rw [Log.append_of_poisoned hpoisoned] at hrun
            cases hrun
            rw [hpoisoned] at hclean
            cases hclean
      obtain rfl : tail = [] := hholds.clean hlog
      obtain rfl : tail' = [] := hafter.clean hclean
      have hbefore := hholds.keeps.shows
      have hbehind := hafter.keeps.shows
      rw [hbefore.list_eq] at hid
      obtain ⟨v, hv, rfl⟩ := List.mem_map.mp hid
      have hv' : v ∈ volumes [] (chapters ++ added) := by
        rw [volumes_nil] at hv ⊢
        rw [List.map_append]
        exact List.mem_append_left _ hv
      rw [hbefore.bytes?_eq hv, hbehind.bytes?_eq hv']
    · intro hpoisoned more hmore
      have hstep : ((start.steps list).step (.append op wellFormed)).session = .opened after := by
        unfold LogRun.step
        simp only [hopen, hrun]
      obtain ⟨later, hlater, hstill⟩ :=
        (hexact.step (.append op wellFormed)).steps_poisoned hstep hpoisoned hmore
      refine ⟨later, ?_, ?_⟩
      · unfold LogRun.steps at hlater ⊢
        rw [List.foldl_append, List.foldl_cons]
        exact hlater
      · intro op'
        exact ⟨_, Log.append_of_poisoned hstill op'⟩

/-- A crash in the middle of the second frame, and an opening after it. -/
private def crashed : List LogStep :=
  [.reopen {}, .append (.create 1 "a") trivial, .switch ({ · with budget := some 20 }),
    .append (.create 2 "b") trivial, .switch (fun _ => {}), .reopen {}]

theorem open_log_is_exact_after_crash :
    ∃ log, (start.steps crashed).session = .opened log ∧
      log.nextSeq = 2 ∧ log.records 1 = [.ok (1, .create 1 "a")] := by
  have hisSome : (start.steps crashed).session.log?.isSome = true := by decide +kernel
  have hrecords : (start.steps crashed).records = [(1, .create 1 "a")] := by decide +kernel
  have hacknowledged : (start.steps crashed).acknowledged = 1 := by decide +kernel
  obtain ⟨log, hlog⟩ := Option.isSome_iff_exists.mp hisSome
  have hopen : (start.steps crashed).session = .opened log := LogSession.eq_opened hlog
  have h := open_log_is_exact crashed hopen
  refine ⟨log, hopen, ?_, ?_⟩
  · rw [h.2.1, hacknowledged]
  · rw [h.2.2.1 1, hrecords]
    rfl

end LogRun
end TieredStore
