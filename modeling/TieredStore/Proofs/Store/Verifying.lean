import TieredStore.Proofs.Report.Passing
import TieredStore.Proofs.Store.Atomic
import TieredStore.Proofs.Store.Truncating
import TieredStore.Proofs.Table.Storable

/-!
# What a verification says of the logs of a store

The ledgers that a store leaves behind are legible and hold records that can be decoded,
so that a verification finds an error only in its replay.  But it replays all records
that are left, from a table without segments on, and recovery replays those from the
newest checkpoint on.  The records before that checkpoint need not lead anywhere: a
truncation that was stopped has dropped the ones that they build on, and the store may
have taken a name again that it had freed without a record.  Then the verification
reports an error of a log that is as good as any.
-/

namespace TieredStore

open Chapter LogRecord

/-! ## Replays -/

/-- The records can be applied one after the other, beginning without segments. -/
def LogRecord.Applicable (records : List LogRecord) : Prop :=
  ∃ table, Container.applyAll {} records = .ok table

def Log.FailsIn (log : Log) (c : Container FlakyTier) : Prop :=
  ∃ e after, (Container.replay 0 (log.records (log.latestCheckpoint?.getD .first))).run c =
    .error e after

variable {log : Log} {ledgers : Ledgers} {records : List LogRecord} {first : SequenceNumber}
  {chapters : List Chapter} {tail : Bytes} {c : Container FlakyTier}

/-- The replay fails exactly if the records from the newest checkpoint on cannot be applied. -/
theorem Log.failsIn_iff (hempty : c.table = {})
    (hrecords : log.records (log.latestCheckpoint?.getD .first) = records.map .ok) :
    log.FailsIn c ↔ ¬ Applicable records := by
  have hends := Container.replay_table (records.map .ok) 0 c
  rw [hempty] at hends
  unfold FailsIn
  rw [hrecords]
  cases hrun : (Container.replay 0 (records.map .ok)).run c with
  | error e after =>
      have hnone := hends.error hrun records rfl
      constructor
      · rintro - ⟨table, htable⟩
        exact hnone table htable
      · intro _
        exact ⟨e, after, rfl⟩
  | ok count after =>
      rcases hends.ok hrun with ⟨applied, hsame, -, htable⟩
      have hsame : records = applied :=
        (List.map_inj_right fun _ _ heq => Except.ok.inj heq).mp hsame
      rw [← hsame] at htable
      constructor
      · rintro ⟨_, _, hfalse⟩
        cases hfalse
      · intro hnot
        exact absurd ⟨_, htable⟩ hnot

/-! ## The records of a log -/

theorem LogRecord.AllWritable.filter_first (h : AllWritable records) :
    records.filter (fun r => SequenceNumber.first ≤ r.1) = records := by
  apply List.filter_eq_self.mpr
  intro r hr
  have hid := Record.checkId_eq_ok_iff.mp (Record.check_then_iff.mp (h r hr).checked).1
  exact decide_eq_true (Nat.pos_of_ne_zero hid.1)

theorem Chapter.find?_reverse_of_none (hnone : ∀ c ∈ chapters, c.info.startsWithCheckpoint = false) :
    (chapters.map info).reverse.find? (·.startsWithCheckpoint) = none := by
  apply List.find?_eq_none.mpr
  intro l hl
  rcases List.mem_map.mp (List.mem_reverse.mp hl) with ⟨c, hc, rfl⟩
  rw [hnone c hc]
  exact Bool.false_ne_true

theorem Log.Holds.recent_eq_history (h : log.Holds first chapters tail)
    (houtdated : log.outdated = []) : recent chapters = history chapters := by
  rcases Chapter.splitsAt_or_none chapters with ⟨older, newest, newer, hsplit⟩ | hnone
  · have holder : older = [] := by
      rw [hsplit.outdated_eq h.ledgers_eq] at houtdated
      exact List.map_eq_nil_iff.mp houtdated
    have hall : chapters = newest :: newer := by rw [hsplit.eq, holder, List.nil_append]
    rw [hsplit.recent_eq h.keeps.runs, hall]
  · unfold recent
    rw [Chapter.find?_reverse_of_none hnone]
    exact h.keeps.writable.filter_first

/-- The verdict of a verification, and whether the log can be used, for ledgers without faults. -/
theorem Ledgers.Keeps.verified (h : ledgers.Keeps first chapters tail) (hfaults : ledgers.faults = {})
    (config : Config) :
    ∃ log result, Log.openIn config ledgers = .ok log ∧ Verification.run ledgers true = .ok result ∧
      log.records .first = (history chapters).map .ok ∧
      log.records (log.latestCheckpoint?.getD .first) = (recent chapters).map .ok ∧
      (result.errors ≠ [] ↔ ¬ Applicable (history chapters)) ∧
      (log.outdated = [] → recent chapters = history chapters) := by
  rcases Log.openIn_of_no_faults h hfaults config with ⟨log, hopen, hholds⟩
  rcases h.exists_pages with ⟨pages, hpages, hlegible⟩
  rcases Verification.run_legible hlegible hpages.stores.allHold true with
    ⟨result, hrun, -, herrors⟩
  refine ⟨log, result, hopen, hrun, ?_, hholds.records_recent, ?_, hholds.recent_eq_history⟩
  · rw [hholds.records_eq, h.writable.filter_first]
  · rw [ne_eq, herrors]
    exact not_congr ⟨fun happly => happly rfl, fun happly _ => happly⟩

/-! ## What runs leave behind -/

namespace Store

variable {store : Store FlakyTier}

theorem truncateLogBy_of_outdated_nil (h : store.log.Holds first chapters tail)
    (houtdated : store.log.outdated = []) (delete : LedgerId → LedgersM Unit) :
    (truncateLogBy delete).run store = .ok none store := by
  rcases Chapter.splitsAt_or_none chapters with ⟨older, newest, newer, hsplit⟩ | hnone
  · have holder : older = [] := by
      rw [hsplit.outdated_eq h.ledgers_eq] at houtdated
      exact List.map_eq_nil_iff.mp houtdated
    rw [holder] at hsplit
    exact truncateLogBy_nil h hsplit delete
  · have hlatest : store.log.latestCheckpoint? = none := by
      unfold Log.latestCheckpoint?
      rw [h.ledgers_eq, Chapter.find?_reverse_of_none hnone]
      rfl
    unfold truncateLogBy
    rw [EStateM.run_bind, EStateM.run_get]
    simp only [hlatest]
    rfl

end Store

namespace StoreRun

variable {run : StoreRun} {store : Store FlakyTier}

def left (run : StoreRun) : Ledgers := run.session.host.ledgers.setFaults fun _ => {}

/-- The run when a truncation of the log has deleted this many ledgers at most. -/
def truncating (run : StoreRun) (count : Nat) (cause : MediumError) : StoreRun :=
  match run.session with
  | .closed _ => run
  | .opened store =>
      run.call (Store.truncateLogBy (store.log.deleteFirst count cause)) fun _ => run.content

/-- The ledgers that a run can leave: it stops between two steps or in a truncation of the log. -/
inductive LedgersLeft (run : StoreRun) : Ledgers → Prop
  | stopped : run.LedgersLeft run.left
  | truncating (count : Nat) (cause : MediumError)
      (halive : 0 < count → run.session.ledgers.faults.crashed = false) :
      run.LedgersLeft (run.truncating count cause).left

theorem left_keeps (list : List StoreStep) :
    (start.steps list).left.faults = {} ∧
      ∃ first chapters tail, (start.steps list).left.Keeps first chapters tail := by
  rcases Session.Kept.host (kept_start.steps list id) with ⟨replayed, live, ⟨first, chapters, tail, hkeeps, -⟩, -⟩
  exact ⟨(hkeeps.shows.setFaults _).2, first, chapters, tail, hkeeps.setFaults _⟩

theorem truncating_min (hopen : run.session = .opened store) (count : Nat) (cause : MediumError) :
    run.truncating count cause = run.truncating (min count store.log.outdated.length) cause := by
  have hdelete : store.log.deleteFirst count cause =
      store.log.deleteFirst (min count store.log.outdated.length) cause := by
    unfold Log.deleteFirst
    rw [← List.take_eq_take_min]
  unfold truncating
  simp only [hopen]
  rw [hdelete]

theorem truncating_without (list : List StoreStep)
    (hopen : (start.steps list).session = .opened store) (houtdated : store.log.outdated ≠ [])
    {count : Nat} (hcount : count ≤ store.log.outdated.length)
    (halive : 0 < count → store.log.medium.faults.crashed = false) (cause : MediumError) :
    ∃ log, ((start.steps list).truncating count cause).session = .opened { store with log } ∧
      store.log.Without count log ∧ ∃ first chapters tail, log.Holds first chapters tail := by
  rcases kept_of_opened list hopen with ⟨replayed, htracks⟩
  rcases htracks.leads with ⟨first, chapters, tail, hholds, -⟩
  rcases hholds.exists_splitsAt houtdated with ⟨older, newest, newer, hsplit⟩
  have houtdated_eq := hsplit.outdated_eq hholds.ledgers_eq
  have holder : older ≠ [] := by
    intro hnil
    rw [houtdated_eq, hnil] at houtdated
    exact houtdated rfl
  rw [houtdated_eq, List.length_map] at hcount
  rcases Store.truncateLogBy_first hholds hsplit holder hcount halive cause with
    ⟨log, hrun, hleft⟩
  rcases hholds.without hsplit hcount hleft with ⟨⟨first', hlog⟩, hwithout⟩
  refine ⟨log, ?_, hwithout, first', _, tail, hlog⟩
  unfold truncating
  simp only [hopen]
  unfold call
  simp only [hopen]
  rw [hrun]
  by_cases hsome : count < older.length
  · rw [if_pos hsome]
  · rw [if_neg hsome]

theorem truncating_keeps (list : List StoreStep)
    (hopen : (start.steps list).session = .opened store) (count : Nat) (cause : MediumError)
    (halive : 0 < count → store.log.medium.faults.crashed = false) :
    ∃ log, ((start.steps list).truncating count cause).session = .opened { store with log } ∧
      ∃ first chapters tail, log.Holds first chapters tail := by
  by_cases houtdated : store.log.outdated = []
  · rcases kept_of_opened list hopen with ⟨replayed, htracks⟩
    rcases htracks.leads with ⟨first, chapters, tail, hholds, -⟩
    have hrun := Store.truncateLogBy_of_outdated_nil hholds houtdated
      (store.log.deleteFirst count cause)
    refine ⟨store.log, ?_, first, chapters, tail, hholds⟩
    unfold truncating
    simp only [hopen]
    unfold call
    simp only [hopen]
    rw [hrun]
  · rw [truncating_min hopen]
    rcases truncating_without list hopen houtdated (Nat.min_le_right _ _)
      (fun hpos => halive (Nat.lt_of_lt_of_le hpos (Nat.min_le_left _ _))) cause with
      ⟨log, hafter, -, hlog⟩
    exact ⟨log, hafter, hlog⟩

theorem left_records (list : List StoreStep) (hopen : (start.steps list).session = .opened store)
    {config : Config} (hfound : Log.openIn config (start.steps list).left = .ok log) :
    log.outdated = store.log.outdated ∧ ∀ from_, log.records from_ = store.log.records from_ := by
  rcases kept_of_opened list hopen with ⟨replayed, htracks⟩
  rcases htracks.leads with ⟨first, chapters, tail, hholds, -⟩
  rcases hholds.reopens config with ⟨found, hrun, hsame⟩
  have hleft : (start.steps list).left = store.log.medium.release.setFaults fun _ => {} := by
    unfold left
    rw [hopen]
    rfl
  rw [hleft, hrun] at hfound
  cases hfound
  constructor
  · unfold Log.outdated
    rw [hsame.ledgers_eq, hholds.ledgers_eq]
  · intro from_
    rw [hsame.records_eq, hholds.records_eq]

theorem LedgersLeft.keeps {list : List StoreStep} (h : (start.steps list).LedgersLeft ledgers) :
    ledgers.faults = {} ∧ ∃ first chapters tail, ledgers.Keeps first chapters tail := by
  cases h with
  | stopped => exact left_keeps list
  | truncating count cause halive =>
      cases hsession : (start.steps list).session with
      | closed host =>
          have hsame : (start.steps list).truncating count cause = start.steps list := by
            unfold StoreRun.truncating
            simp only [hsession]
          rw [hsame]
          exact left_keeps list
      | opened store =>
          rw [hsession] at halive
          rcases truncating_keeps list hsession count cause halive with
            ⟨log, hafter, first, chapters, tail, hlog⟩
          have hleft : ((start.steps list).truncating count cause).left =
              log.medium.setFaults fun _ => {} := by
            unfold left
            rw [hafter]
            show log.medium.release.setFaults _ = _
            rw [hlog.keeps.shows.release_eq]
          rw [hleft]
          exact ⟨(hlog.keeps.shows.setFaults _).2, first, chapters, tail, hlog.keeps.setFaults _⟩

/-- Whether a checkpoint succeeds or not, what was read before it is read again. -/
theorem checkpointed_of_opened (list : List StoreStep) {after : Store FlakyTier}
    (hopen : (start.steps list).session = .opened store)
    (hafter : (start.steps (list ++ [.checkpoint])).session = .opened after) :
    store.Checkpointed after := by
  have hends := (kept_of_opened list hopen).checkpoint_checkpointed
  rw [steps_append] at hafter
  replace hafter : ((start.steps list).call Store.checkpoint
    fun _ => (start.steps list).content).session = .opened after := hafter
  unfold call at hafter
  simp only [hopen] at hafter
  cases hrun : Store.checkpoint.run store with
  | ok seq other =>
      simp only [hrun] at hafter
      cases hafter
      exact hends.ok hrun
  | error e other =>
      simp only [hrun] at hafter
      cases hafter
      exact hends.error hrun

/--
A verification of the ledgers that a run leaves reports errors exactly if the records that
are left cannot all be applied, and recovery fails exactly if those from the newest
checkpoint on cannot.  So its errors mean that the log cannot be used exactly if the
records before that checkpoint are no obstacle.  They are none if no ledger is outdated.
-/
theorem verification_errors_iff (list : List StoreStep) (h : (start.steps list).LedgersLeft ledgers)
    (config : Config) (hempty : c.table = {}) :
    ∃ log result, ∃ retained recent : List LogRecord,
      Log.openIn config ledgers = .ok log ∧ Verification.run ledgers true = .ok result ∧
      log.records .first = retained.map .ok ∧
      log.records (log.latestCheckpoint?.getD .first) = recent.map .ok ∧
      (result.errors ≠ [] ↔ ¬ Applicable retained) ∧ (log.FailsIn c ↔ ¬ Applicable recent) ∧
      ((result.errors ≠ [] → log.FailsIn c) ↔ (Applicable recent → Applicable retained)) ∧
      (log.outdated = [] → result.errors ≠ [] → log.FailsIn c) := by
  rcases h.keeps with ⟨hfaults, first, chapters, tail, hkeeps⟩
  rcases hkeeps.verified hfaults config with
    ⟨log, result, hopen, hrun, hretained, hrecent, herrors, hsame⟩
  have hfails := Log.failsIn_iff hempty hrecent
  refine ⟨log, result, history chapters, recent chapters, hopen, hrun, hretained, hrecent, herrors,
    hfails, ?_, ?_⟩
  · rw [herrors, hfails]
    exact not_imp_not
  · intro houtdated
    rw [herrors, hfails, hsame houtdated]
    exact id

/-- A segment gets the name of a batch that the tier has joined to its parent. -/
private def renamed : List StoreStep :=
  [.create "a", .createBatch 1 5, .append ⟨2, 7, 1, [97, 98]⟩, .sealSegment 2, .merge 2 1, .flush,
    .create (Store.batchName "a" 5)]

/-- The error of a verification that finds a name taken again: nothing of the log can be used. -/
theorem verification_errors_renamed :
    ∃ log result, Log.openIn {} (start.steps (.reopen {} :: renamed)).left = .ok log ∧
      Verification.run (start.steps (.reopen {} :: renamed)).left true = .ok result ∧
      result.errors ≠ [] ∧ log.FailsIn { cache := { maxSize := 0 }, tier := ({} : FlakyTier) } := by
  have hisSome : (start.steps (.reopen {} :: renamed)).session.store?.isSome = true := by
    decide +kernel
  have houtdated : (start.steps (.reopen {} :: renamed)).session.store?.map (·.log.outdated) =
      some [] := by decide +kernel
  have hlogged : (Container.applyAll {} ((LogRun.start.steps (.reopen {} ::
      (start.step (.reopen {})).logSteps renamed)).records.filter
        fun r => .first ≤ r.1)).toOption.isSome = false := by decide +kernel
  rcases Option.isSome_iff_exists.mp hisSome with ⟨store, hstore⟩
  have hopen := Session.eq_opened hstore
  rcases verification_errors_iff (.reopen {} :: renamed) .stopped {} (c :=
    { cache := { maxSize := 0 }, tier := ({} : FlakyTier) }) rfl with
    ⟨log, result, retained, recent, hfound, hrun, hretained, -, herrors, -, -, hfails⟩
  rcases left_records _ hopen hfound with ⟨hsame, hrecords⟩
  have hretained' := records_of_calls rfl (by decide) hopen ((hrecords .first).symm.trans hretained)
  have hsome : result.errors ≠ [] := by
    rw [herrors]
    rintro ⟨table, happly⟩
    rw [← hretained', happly] at hlogged
    cases hlogged
  rw [hstore] at houtdated
  exact ⟨log, result, hfound, hrun, hsome, hfails (hsame.trans (Option.some.inj houtdated)) hsome⟩

/-- Every record has its own ledger. -/
private def separated : List StoreStep := [.create "a", .append ⟨1, 7, 1, [97, 98]⟩]

/-- A checkpoint has just been written. -/
private def covered : List StoreStep :=
  (.reopen { maxLedgerSize := 1 } :: separated) ++ [.checkpoint]

private theorem records_covered (hopen : (start.steps covered).session = .opened store) :
    ∃ added : List LogRecord, store.log.records 2 =
      ((2, Operation.append 1 0 7 1 [97, 98]) :: added).map .ok := by
  have hisSome : (start.steps (.reopen { maxLedgerSize := 1 } :: separated)).session.store?.isSome =
      true := by decide +kernel
  have hlogged : ((LogRun.start.steps (.reopen { maxLedgerSize := 1 } ::
      (start.step (.reopen { maxLedgerSize := 1 })).logSteps separated)).records.filter
        fun r => 2 ≤ r.1) = [(2, .append 1 0 7 1 [97, 98])] := by decide +kernel
  rcases Option.isSome_iff_exists.mp hisSome with ⟨before, hbefore⟩
  have hopened := Session.eq_opened hbefore
  have hread := read_of_calls rfl (by decide) hopened 2
  rw [hlogged] at hread
  rcases (checkpointed_of_opened _ hopened hopen).logged with hnone | hsome
  · exact ⟨[], by rw [hnone.records_eq, hread]; rfl⟩
  · exact ⟨_, by rw [hsome.records_eq, hread, ← List.map_append]; rfl⟩

/--
The first of two outdated ledgers has been deleted when a deletion fails.  What is left
begins with an append to a segment that is not there, but its newest record is a checkpoint.
-/
theorem verification_fails_usable :
    ∃ ledgers log result, (start.steps covered).LedgersLeft ledgers ∧
      Log.openIn {} ledgers = .ok log ∧ Verification.run ledgers true = .ok result ∧
      result.errors ≠ [] ∧ ∀ c : Container FlakyTier, c.table = {} → ¬ log.FailsIn c := by
  have hisSome : (start.steps covered).session.store?.isSome = true := by decide +kernel
  have hstart : (start.steps covered).session.store?.map (fun store =>
      (store.log.outdated.length, store.log.latestCheckpoint?, store.log.nextSeq,
        store.log.medium.faults.crashed)) = some (2, some 3, 4, false) := by decide +kernel
  have hrest : (start.steps covered).session.store?.map (fun store =>
      ((store.log.ledgers.drop 1).findSome? (·.first),
        ((store.log.ledgers.drop 1).reverse.find? (·.startsWithCheckpoint)).bind (·.first))) =
      some (some 2, some 3) := by decide +kernel
  rcases Option.isSome_iff_exists.mp hisSome with ⟨store, hstore⟩
  have hopen := Session.eq_opened hstore
  rw [hstore] at hstart hrest
  simp only [Option.map_some, Option.some.injEq, Prod.mk.injEq] at hstart hrest
  rcases hstart with ⟨hlength, hcheckpoint, hnextSeq, halive⟩
  rcases hrest with ⟨holdest, hnewest⟩
  rcases records_covered hopen with ⟨added, hadded⟩
  rcases kept_of_opened _ hopen with ⟨replayed, htracks⟩
  rcases htracks.leads with ⟨first, chapters, tail, hholds, -⟩
  rcases hholds.records_of_newest hcheckpoint hnextSeq with ⟨snapshot, hsnapshot⟩
  have houtdated : store.log.outdated ≠ [] := by
    apply List.ne_nil_of_length_pos
    rw [hlength]
    exact Nat.zero_lt_two
  have hcount : 1 ≤ store.log.outdated.length := by
    rw [hlength]
    exact Nat.one_lt_two.le
  rcases truncating_without covered hopen houtdated hcount (fun _ => halive)
    (.failed .mediumGone) with ⟨after, hafter, hwithout, -⟩
  have hleft : (start.steps covered).LedgersLeft
      ((start.steps covered).truncating 1 (.failed .mediumGone)).left := by
    refine .truncating 1 (.failed .mediumGone) fun _ => ?_
    rw [hopen]
    exact halive
  rcases hleft.keeps with ⟨hfaults, first', chapters', tail', hkeeps⟩
  rcases hkeeps.verified hfaults {} with
    ⟨log, result, hfound, hrun, hretained, -, herrors, -⟩
  -- opening finds what the truncation has left of the log
  have hopens : Log.openIn {} ((start.steps covered).truncating 1
      (.failed .mediumGone)).left = Log.openIn {} (after.medium.release.setFaults fun _ => {}) := by
    unfold left
    rw [hafter]
    rfl
  rcases hwithout.reopened {} with ⟨found, hsame, hledgers, -, hrecords⟩
  rw [hopens, hsame] at hfound
  cases hfound
  rw [hwithout.ledgers_eq] at hledgers
  have hoffset : after.oldest = 2 := by
    unfold Log.oldest
    rw [hwithout.ledgers_eq, holdest]
    rfl
  have hlatest : log.latestCheckpoint? = some 3 := by
    unfold Log.latestCheckpoint?
    rw [hledgers, hnewest]
  have hread : ∀ from_, log.records from_ = store.log.records (max from_ 2) := by
    intro from_
    rw [hrecords, hwithout.records_eq, hoffset]
  rw [hread] at hretained
  refine ⟨_, log, result, hleft, hopens.trans hsame, hrun, ?_, ?_⟩
  · have hhistory : history chapters' = (2, Operation.append 1 0 7 1 [97, 98]) :: added :=
      (List.map_inj_right fun _ _ heq => Except.ok.inj heq).mp (hretained.symm.trans hadded)
    rw [herrors, hhistory]
    rintro ⟨table, happly⟩
    cases happly
  · intro c hempty
    have hrecent : log.records (log.latestCheckpoint?.getD .first) =
        [(3, Operation.checkpoint snapshot)].map .ok := by
      rw [hlatest, hread]
      exact hsnapshot
    rw [Log.failsIn_iff hempty hrecent]
    intro hnot
    exact hnot ⟨_, rfl⟩

end StoreRun
end TieredStore
