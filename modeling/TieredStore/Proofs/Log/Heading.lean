import TieredStore.Proofs.Log.Run

/-!
# Checkpoints head their ledgers

A record goes behind others in a ledger only if it is no checkpoint and its frame
fits.  So a checkpoint comes first in its ledger, whatever an append that failed, a
crash or an opening has left there, and a ledger with a second record has not grown
past the size that the log had been opened with, not even by a piece of a frame.

So what the log knows of the first record of each ledger is enough to find the
newest checkpoint, and a truncation is possible right before every checkpoint.
-/

namespace TieredStore

open LogRecord

/-!
## Chapters
-/

namespace Chapter

variable {limit : Nat} {tail : Bytes} {chapter newest : Chapter} {chapters older : List Chapter}
  {record : LogRecord}

/-- Only the first record is a checkpoint, and with a second one the ledger keeps to the limit. -/
structure Arranged (limit : Nat) (tail : Bytes) (chapter : Chapter) : Prop where
  headed : ∀ record ∈ chapter.records.tail, record.2.isCheckpoint = false
  bounded : 1 < chapter.records.length → (chapter.volume tail).bytes.length ≤ limit

theorem arranged_of_nil (hnil : chapter.records = []) : chapter.Arranged limit tail where
  headed := by
    rw [hnil]
    intro record hrecord
    cases hrecord
  bounded := by
    rw [hnil]
    intro hmany
    cases hmany

theorem Arranged.extend (h : chapter.Arranged limit []) (hadmits : chapter.Admits limit record) :
    (chapter.extend record).Arranged limit [] := by
  rcases hadmits with hnil | ⟨hkind, hfits⟩
  · constructor
    · intro other hother
      rw [Chapter.extend, hnil] at hother
      cases hother
    · intro hmany
      rw [Chapter.extend, hnil] at hmany
      exact absurd hmany (Nat.lt_irrefl 1)
  · constructor
    · intro other hother
      have hmem : other ∈ chapter.records.tail ++ [record] := by
        cases hrecords : chapter.records with
        | nil =>
            rw [Chapter.extend, hrecords] at hother
            cases hother
        | cons head more =>
            rw [Chapter.extend, hrecords] at hother
            exact hother
      rcases List.mem_append.mp hmem with hold | hnew
      · exact h.headed other hold
      · rw [List.mem_singleton.mp hnew]
        exact hkind
    · intro _
      rw [volume, List.append_nil, Chapter.extend, frames_append, List.length_append, frames_cons,
        frames_nil, List.append_nil]
      exact hfits

theorem Arranged.torn (h : chapter.Arranged limit []) (hadmits : chapter.Admits limit record)
    (hpiece : tail.length ≤ record.frame.length) : chapter.Arranged limit tail := by
  refine ⟨h.headed, ?_⟩
  intro hmany
  rcases hadmits with hnil | ⟨-, hfits⟩
  · rw [hnil] at hmany
    cases hmany
  · rw [volume, List.length_append]
    exact Nat.le_trans (Nat.add_le_add_left hpiece _) hfits

theorem Continues.arranged (h : Continues chapters older newest)
    (harranged : ∀ c ∈ chapters, c.Arranged limit []) :
    (∀ c ∈ older, c.Arranged limit []) ∧ newest.Arranged limit [] := by
  rcases h with rfl | ⟨rfl, hnil⟩
  · exact ⟨fun c hc => harranged c (List.mem_append_left _ hc), harranged newest (by simp)⟩
  · exact ⟨harranged, arranged_of_nil hnil⟩

theorem Arranged.opensWith (h : chapter.Arranged limit tail) (hrecord : record ∈ chapter.records)
    (hkind : record.2.isCheckpoint = true) : chapter.OpensWith record.1 := by
  cases hrecords : chapter.records with
  | nil =>
      rw [hrecords] at hrecord
      cases hrecord
  | cons head more =>
      rw [hrecords] at hrecord
      rcases List.mem_cons.mp hrecord with rfl | hmore
      · exact ⟨record.2, more, hrecords, hkind⟩
      · have hplain := h.headed record (by rw [hrecords]; exact hmore)
        rw [hkind] at hplain
        cases hplain

theorem checkpoint_iff (harranged : ∀ c ∈ chapters, c.Arranged limit []) {seq : SequenceNumber} :
    (∃ op, (seq, op) ∈ history chapters ∧ op.isCheckpoint = true) ↔
      ∃ c ∈ chapters, c.OpensWith seq := by
  constructor
  · rintro ⟨op, hmem, hkind⟩
    obtain ⟨c, hc, hrecord⟩ := List.mem_flatMap.mp hmem
    exact ⟨c, hc, (harranged c hc).opensWith hrecord hkind⟩
  · rintro ⟨c, hc, op, more, hrecords, hkind⟩
    refine ⟨op, List.mem_flatMap.mpr ⟨c, hc, ?_⟩, hkind⟩
    rw [hrecords]
    exact List.mem_cons_self

theorem Arranged.filter_eq (h : chapter.Arranged limit tail) :
    chapter.records.filter (·.2.isCheckpoint) =
      chapter.records.head?.toList.filter (·.2.isCheckpoint) := by
  cases hrecords : chapter.records with
  | nil => rfl
  | cons head more =>
      have hmore : more.filter (·.2.isCheckpoint) = [] := by
        rw [List.filter_eq_nil_iff]
        intro record hrecord
        rw [h.headed record (by rw [hrecords]; exact hrecord)]
        exact Bool.false_ne_true
      show (head :: more).filter _ = [head].filter _
      rw [List.filter_cons, List.filter_cons, hmore, List.filter_nil]

theorem find?_checkpoint (harranged : ∀ c ∈ chapters, c.Arranged limit []) :
    ((chapters.map info).reverse.find? (·.startsWithCheckpoint)).bind (·.first) =
      ((history chapters).filter (·.2.isCheckpoint)).getLast?.map Prod.fst := by
  -- the log looks from the newest ledger back, so the newest chapter is taken off first
  induction chapters using List.reverseRecOn with
  | nil => rfl
  | append_singleton older newest ih =>
      have ih := ih fun c hc => harranged c (List.mem_append_left _ hc)
      rw [history_concat, List.filter_append, (harranged newest (by simp)).filter_eq,
        List.map_append, List.reverse_append]
      show ((newest.info :: (older.map info).reverse).find? _).bind _ = _
      rw [List.find?_cons]
      cases hhead : newest.records.head? with
      | none =>
          have hnone : newest.info.startsWithCheckpoint = false := by
            simp [info, LedgerInfo.ofRecords, hhead]
          simpa [hnone] using ih
      | some record =>
          cases hkind : record.2.isCheckpoint with
          | false =>
              have hplain : newest.info.startsWithCheckpoint = false := by
                simp [info, LedgerInfo.ofRecords, hhead, hkind]
              simpa [hplain, hkind] using ih
          | true =>
              have hstarts : newest.info.startsWithCheckpoint = true := by
                simp [info, LedgerInfo.ofRecords, hhead, hkind]
              have hfirst : newest.info.first = some record.1 := by
                simp [info, LedgerInfo.ofRecords, hhead]
              simp [hstarts, hfirst, hkind]

end Chapter

open Chapter

/-!
## Calls of the log
-/

/-- The log holds these chapters in order, and its own limit is not above the given one. -/
structure Log.Arranges (log : Log) (limit : Nat) (first : SequenceNumber)
    (chapters : List Chapter) (tail : Bytes) : Prop where
  holds : log.Holds first chapters tail
  within : log.maxLedgerSize ≤ limit
  arranged : ∀ c ∈ chapters, c.Arranged limit []
  newest : ∀ c ∈ chapters.getLast?, c.Arranged limit tail

namespace Log.Arranges

variable {log : Log} {limit : Nat} {first : SequenceNumber} {chapters : List Chapter} {tail : Bytes}

theorem of_clean (hholds : log.Holds first chapters []) (hwithin : log.maxLedgerSize ≤ limit)
    (harranged : ∀ c ∈ chapters, c.Arranged limit []) : log.Arranges limit first chapters [] where
  holds := hholds
  within := hwithin
  arranged := harranged
  newest := fun c hc => harranged c (List.mem_of_getLast? hc)

theorem append_ends (h : log.Arranges limit first chapters tail) {op : Operation}
    (hwf : op.WellFormed) :
    Ends (append op) log
      (fun seq after => ∃ chapters', history chapters' = history chapters ++ [(seq, op)] ∧
        after.Arranges limit first chapters' [])
      (fun _ after => ∃ chapters' tail', history chapters' = history chapters ∧
        after.Arranges limit first chapters' tail') := by
  have hadmitted {chapter : Chapter} {record : LogRecord}
      (hadmits : chapter.Admits log.maxLedgerSize record) : chapter.Admits limit record :=
    hadmits.imp_right fun hfits => ⟨hfits.1, Nat.le_trans hfits.2 h.within⟩
  refine (h.holds.append_continues hwf).mono ?_ ?_
  · rintro _ after ⟨rfl, hsame, older, newest, hcontinues, hadmits, hafter⟩
    obtain ⟨holder, hnewest⟩ := hcontinues.arranged h.arranged
    refine ⟨_, hcontinues.history_extend _, of_clean hafter (hsame ▸ h.within) ?_⟩
    intro c hc
    rcases List.mem_append.mp hc with hold | hlast
    · exact holder c hold
    · rw [List.mem_singleton.mp hlast]
      exact hnewest.extend (hadmitted hadmits)
  · rintro _ after (rfl | ⟨hsame, older, newest, hcontinues, hadmits, tail', hpiece, hafter⟩)
    · exact ⟨chapters, tail, rfl, h⟩
    · obtain ⟨holder, hnewest⟩ := hcontinues.arranged h.arranged
      refine ⟨_, tail', hcontinues.history_eq, hafter, hsame ▸ h.within, ?_, ?_⟩
      · intro c hc
        rcases List.mem_append.mp hc with hold | hlast
        · exact holder c hold
        · rw [List.mem_singleton.mp hlast]
          exact hnewest
      · intro c hc
        rw [List.getLast?_concat] at hc
        rw [← Option.some.inj hc]
        exact hnewest.torn (hadmitted hadmits) hpiece

theorem truncate_ends (h : log.Arranges limit first chapters tail) (upto : SequenceNumber) :
    Ends (truncate upto) log
      (fun _ after => ∃ first' chapters',
        history chapters' = (history chapters).filter (fun r => upto < r.1) ∧
        after.Arranges limit first' chapters' tail)
      (fun _ after => after = log) := by
  refine (h.holds.truncate_drops upto).mono ?_ ?_
  · rintro _ after ⟨dropped, chapter, rest, rfl, hopens, hafter⟩
    obtain ⟨hholds, hhistory⟩ := h.holds.leftWith hopens hafter
    refine ⟨_, _, hhistory, hholds, ?_, ?_, ?_⟩
    · rw [hafter.same]
      exact h.within
    · intro c hc
      exact h.arranged c (List.mem_append_right _ hc)
    · intro c hc
      refine h.newest c ?_
      rw [List.getLast?_append, Option.mem_def.mp hc]
      rfl
  · rintro _ after ⟨hsame, -⟩
    exact hsame

theorem exists_tail (h : log.Arranges limit first chapters tail) {c : Chapter} (hc : c ∈ chapters) :
    ∃ tail, Frame.Tail tail ∧ log.medium.bytes? c.id = some (frames c.records ++ tail) ∧
      (1 < c.records.length → (frames c.records ++ tail).length ≤ limit) := by
  have hshows := h.holds.keeps.shows
  rcases List.eq_nil_or_concat chapters with rfl | ⟨older, newest, rfl⟩
  · cases hc
  · rw [List.concat_eq_append] at hc hshows h
    rw [volumes_concat] at hshows
    rcases List.mem_append.mp hc with hold | hlast
    · have hbytes := hshows.bytes?_eq (List.mem_append_left _ (List.mem_map_of_mem hold))
      exact ⟨[], Frame.tail_nil, hbytes, (h.arranged c hc).bounded⟩
    · obtain rfl := List.mem_singleton.mp hlast
      have hbytes := hshows.bytes?_eq (List.mem_append_right _ List.mem_cons_self)
      have hnewest := h.newest c (by rw [List.getLast?_concat]; rfl)
      exact ⟨tail, h.holds.keeps.tail, hbytes, hnewest.bounded⟩

end Log.Arranges

theorem Ledgers.alive_of_delete {ledgers after : Ledgers} {id : LedgerId}
    (h : (delete id).run ledgers = .ok () after) : ledgers.faults.crashed = false := by
  have halive : Ends (delete id) ledgers (fun _ _ => ledgers.faults.crashed = false)
      (fun _ _ => True) := by
    refine Ends.bind ((Shows.ensureAlive_ends ledgers).mono ?_ fun _ _ _ => trivial)
    rintro _ _ ⟨rfl, halive⟩
    exact Ends.always halive
  exact halive.ok h

/-!
## Runs
-/

namespace LogRun

def limit (run : LogRun) : Nat := (run.session.log?.map (·.maxLedgerSize)).getD 0

/-- The largest size of a ledger that the log is opened with on the way. -/
def largestLimit (run : LogRun) : List LogStep → Nat
  | [] => run.limit
  | next :: rest => max run.limit (largestLimit (run.step next) rest)

theorem limit_le_largestLimit (run : LogRun) (list : List LogStep) :
    run.limit ≤ run.largestLimit list := by
  cases list with
  | nil => exact Nat.le_refl _
  | cons next rest => exact Nat.le_max_left _ _

def Arranges (limit : Nat) (first : SequenceNumber) (chapters : List Chapter) (tail : Bytes) :
    LogSession → Prop
  | .closed medium =>
      medium.Keeps first chapters tail ∧ ∀ c ∈ chapters, c.Arranged limit []
  | .opened log => log.Arranges limit first chapters tail

def Arranged (limit : Nat) (run : LogRun) : Prop :=
  ∃ first chapters tail, history chapters = run.records ∧
    Arranges limit first chapters tail run.session

variable {limit : Nat}

theorem Arranges.keeps {first : SequenceNumber} {chapters : List Chapter} {tail : Bytes}
    {session : LogSession} (h : Arranges limit first chapters tail session) :
    Keeps first chapters tail session ∧ ∀ c ∈ chapters, c.Arranged limit [] := by
  cases session with
  | closed medium => exact h
  | opened log => exact ⟨Log.Arranges.holds h, Log.Arranges.arranged h⟩

theorem arranged_start (limit : Nat) : start.Arranged limit :=
  ⟨.first, [], [], rfl, Ledgers.Keeps.inMemory, fun _ hc => nomatch hc⟩

/-- Every step keeps the chapters in order, if the log is not opened with a larger size. -/
theorem Arranged.step {run : LogRun} (h : run.Arranged limit) (next : LogStep)
    (hlimit : (run.step next).limit ≤ limit) : (run.step next).Arranged limit := by
  obtain ⟨session, records, acknowledged⟩ := run
  obtain ⟨first, chapters, tail, hhistory, harranges⟩ := h
  have hhistory : history chapters = records := hhistory
  subst hhistory
  cases next with
  | append op wellFormed =>
      cases session with
      | closed medium => exact ⟨first, chapters, tail, rfl, harranges⟩
      | opened log =>
          refine step_append_ends wellFormed
            ((Log.Arranges.append_ends harranges wellFormed).mono ?_ ?_)
          · rintro seq after ⟨chapters', heq, hafter⟩
            exact ⟨first, chapters', [], heq, hafter⟩
          · rintro e after ⟨chapters', tail', heq, hafter⟩
            exact ⟨first, chapters', tail', heq, hafter⟩
  | truncate upto =>
      cases session with
      | closed medium => exact ⟨first, chapters, tail, rfl, harranges⟩
      | opened log =>
          refine step_truncate_ends ((Log.Arranges.truncate_ends harranges upto).mono ?_ ?_)
          · rintro _ after ⟨first', chapters', heq, hafter⟩
            exact ⟨first', chapters', tail, heq, hafter⟩
          · rintro e after rfl
            exact ⟨first, chapters, tail, rfl, harranges⟩
  | flush =>
      rw [step_flush]
      exact ⟨first, chapters, tail, rfl, harranges⟩
  | read start =>
      exact ⟨first, chapters, tail, rfl, harranges⟩
  | close =>
      exact ⟨first, chapters, tail, rfl, harranges.keeps.1.close, harranges.keeps.2⟩
  | reopen config =>
      obtain ⟨hkeeps, harranged⟩ := harranges.keeps
      rcases hkeeps.reopen_cases config with ⟨log, hholds, heq⟩ | ⟨after, tail', hafter, heq⟩
      · -- the log may have been given another size, which the limit allows
        refine ⟨first, chapters, [], rfl, ?_⟩
        rw [LogRun.limit, LogRun.step, heq] at hlimit
        rw [LogRun.step, heq]
        exact Log.Arranges.of_clean hholds hlimit harranged
      · refine ⟨first, chapters, tail', rfl, ?_⟩
        rw [LogRun.step, heq]
        exact ⟨hafter, harranged⟩
  | switch change =>
      refine ⟨first, chapters, tail, rfl, ?_⟩
      cases session with
      | closed medium => exact ⟨harranges.1.setFaults change, harranges.2⟩
      | opened log =>
          have harranges : log.Arranges limit first chapters tail := harranges
          exact { harranges with
            holds := { harranges.holds with keeps := harranges.holds.keeps.setFaults change } }

theorem Arranged.steps {run : LogRun} {list : List LogStep} (h : run.Arranged limit)
    (hlimit : run.largestLimit list ≤ limit) : (run.steps list).Arranged limit := by
  induction list generalizing run with
  | nil => exact h
  | cons next rest ih =>
      obtain ⟨-, hrest⟩ := Nat.max_le.mp hlimit
      exact ih (h.step next (Nat.le_trans (limit_le_largestLimit _ _) hrest)) hrest

/-!
## The theorem
-/

/--
A checkpoint is always the first record of its ledger, and a ledger with more than
one record is not larger than the largest size that the log was ever opened with.
The log knows the newest checkpoint that is left.  Unless the medium refuses to
delete ledgers, a truncation succeeds exactly right before a checkpoint that is
left.  Then the records above it remain and the next sequence number stays, and one
that is refused leaves the log as it is.
-/
theorem checkpoints_head_their_ledgers (list : List LogStep) {log : Log}
    (hopen : (start.steps list).session = .opened log) :
    (∃ chapters, history chapters = (start.steps list).records ∧
      log.ledgers = chapters.map info ∧ log.medium.list = chapters.map (·.id) ∧
      ∀ c ∈ chapters, (∀ record ∈ c.records.tail, record.2.isCheckpoint = false) ∧
        ∃ tail, Frame.Tail tail ∧ log.medium.bytes? c.id = some (frames c.records ++ tail) ∧
          (1 < c.records.length → (frames c.records ++ tail).length ≤ start.largestLimit list)) ∧
    log.latestCheckpoint? =
      ((start.steps list).records.filter (·.2.isCheckpoint)).getLast?.map Prod.fst ∧
    ∀ upto,
      ((∀ ledger ∈ log.ledgers, ∃ medium,
          (Ledgers.delete ledger.id).run log.medium = .ok () medium) →
        ((∃ after, (Log.truncate upto).run log = .ok () after) ↔
          ∃ op, (upto.next, op) ∈ (start.steps list).records ∧ op.isCheckpoint = true)) ∧
      (∀ after, (Log.truncate upto).run log = .ok () after →
        after.nextSeq = log.nextSeq ∧ ∀ from_, after.records from_ =
          ((start.steps list).records.filter fun r => from_ ≤ r.1 ∧ upto < r.1).map .ok) ∧
      ∀ e after, (Log.truncate upto).run log = .error e after → after = log := by
  have harranged := (arranged_start (start.largestLimit list)).steps (Nat.le_refl _)
  obtain ⟨first, chapters, tail, hhistory, harranges⟩ := harranged
  rw [hopen] at harranges
  have harranges : log.Arranges (start.largestLimit list) first chapters tail := harranges
  have hholds := harranges.holds
  rw [← hhistory]
  refine ⟨⟨chapters, rfl, hholds.ledgers_eq, ?_, ?_⟩, ?_, fun upto => ⟨?_, ?_, ?_⟩⟩
  · rw [hholds.keeps.shows.list_eq, map_id_volumes]
  · intro c hc
    exact ⟨(harranges.arranged c hc).headed, harranges.exists_tail hc⟩
  · rw [Log.latestCheckpoint?, hholds.ledgers_eq]
    exact find?_checkpoint harranges.arranged
  · intro hdeletes
    rw [checkpoint_iff harranges.arranged]
    constructor
    · rintro ⟨after, hrun⟩
      obtain ⟨dropped, chapter, rest, rfl, hopens, -⟩ := (hholds.truncate_drops upto).ok hrun
      exact ⟨chapter, by simp, hopens⟩
    · rintro ⟨c, hc, hopens⟩
      cases hrun : (Log.truncate upto).run log with
      | ok u after => exact ⟨after, rfl⟩
      | error e after =>
          rcases (hholds.truncate_drops upto).error hrun with ⟨-, ⟨hcrashed, -⟩ | ⟨-, hnone⟩⟩
          · obtain ⟨medium, hdelete⟩ :=
              hdeletes c.info (by rw [hholds.ledgers_eq]; exact List.mem_map_of_mem hc)
            rw [Ledgers.alive_of_delete hdelete] at hcrashed
            cases hcrashed
          · exact absurd hopens (hnone c hc)
  · intro after hrun
    obtain ⟨dropped, chapter, rest, rfl, hopens, hafter⟩ := (hholds.truncate_drops upto).ok hrun
    obtain ⟨hleft, hkept⟩ := hholds.leftWith hopens hafter
    refine ⟨by rw [hafter.same], ?_⟩
    intro from_
    rw [hleft.records_eq from_, hkept, List.filter_filter]
    simp only [Bool.decide_and]
  · intro e after hrun
    exact ((hholds.truncate_drops upto).error hrun).1

/-- Two records fill a ledger, and the checkpoint and a failed append come behind them. -/
private def rolled : List LogStep :=
  [.reopen { maxLedgerSize := 70 }, .append (.create 1 "a") trivial,
    .append (.create 2 "b") trivial, .append (.checkpoint {}) (by decide),
    .switch ({ · with failAppends := true }), .append (.create 3 "c") trivial]

theorem checkpoints_head_their_ledgers_after_rollover :
    ∃ log, (start.steps rolled).session = .opened log ∧ log.latestCheckpoint? = some 3 ∧
      ∃ after, (Log.truncate 2).run log = .ok () after ∧
        after.records 1 = [.ok (3, .checkpoint {})] := by
  have hisSome : (start.steps rolled).session.log?.isSome = true := by decide +kernel
  have hrecords : (start.steps rolled).records =
      [(1, .create 1 "a"), (2, .create 2 "b"), (3, .checkpoint {})] := by decide +kernel
  have hdeletes : ∀ log ∈ (start.steps rolled).session.log?, ∀ ledger ∈ log.ledgers,
      (match (Ledgers.delete ledger.id).run log.medium with
        | .ok .. => true
        | .error .. => false) = true := by decide +kernel
  obtain ⟨log, hlog⟩ := Option.isSome_iff_exists.mp hisSome
  have hopen : (start.steps rolled).session = .opened log := LogSession.eq_opened hlog
  obtain ⟨-, hlatest, htruncate⟩ := checkpoints_head_their_ledgers rolled hopen
  rw [hrecords] at hlatest htruncate
  obtain ⟨hpossible, hkept, -⟩ := htruncate 2
  have hdeleted : ∀ ledger ∈ log.ledgers, ∃ medium,
      (Ledgers.delete ledger.id).run log.medium = .ok () medium := by
    intro ledger hledger
    have hdelete := hdeletes log hlog ledger hledger
    split at hdelete
    · exact ⟨_, by assumption⟩
    · cases hdelete
  obtain ⟨after, hrun⟩ := (hpossible hdeleted).mpr ⟨.checkpoint {}, by decide, rfl⟩
  refine ⟨log, hopen, hlatest, after, hrun, ?_⟩
  rw [(hkept after hrun).2 1]
  decide

end LogRun
end TieredStore
