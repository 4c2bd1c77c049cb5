import TieredStore.Proofs.Log.Appending
import TieredStore.Proofs.Log.Opening
import TieredStore.Proofs.Log.Truncating
import TieredStore.Proofs.Table.Replaying

/-!
# What the log of a store leads to

The log of a store holds operations that were regular one after the other, so
that it leads to a table and to contents.  An append of a regular operation leads
one step further, a truncation leads to the same, and what is read on recovery,
from the newest checkpoint on, leads there from an empty table.
-/

namespace TieredStore

/-! ## Operations -/

namespace Operation

/--
The operations lead from one table and its contents to another.  A log that starts
with the first record of all starts with no segments.
-/
def Logged (content : Contents) (replayed : Table) (first : SequenceNumber)
    (ops : List Operation) : Prop :=
  ∃ base table, table.Consistent base ∧ AllRegular base table ops ∧ base.afterAll ops = content ∧
    table.performAll ops = replayed ∧ 0 < first ∧
    (first = .first → base = Contents.empty ∧ table = {})

variable {content : Contents} {replayed : Table} {first : SequenceNumber} {ops : List Operation}

theorem logged_nil : Logged Contents.empty {} .first [] :=
  ⟨Contents.empty, {}, Table.Consistent.empty, trivial, rfl, rfl, Nat.zero_lt_one,
    fun _ => ⟨rfl, rfl⟩⟩

theorem Logged.append (h : Logged content replayed first ops) {op : Operation}
    (hop : op.Regular content replayed) :
    Logged (content.after op) (replayed.perform op) first (ops ++ [op]) := by
  rcases h with ⟨base, table, htable, hregular, hcontent, hreplayed, hpos, hstart⟩
  subst hcontent hreplayed
  refine ⟨base, table, htable, ?_, ?_, ?_, hpos, hstart⟩
  · exact allRegular_append.mpr ⟨hregular, hop, trivial⟩
  · unfold Contents.afterAll
    rw [List.foldl_append]
    rfl
  · unfold Table.performAll
    rw [List.foldl_append]
    rfl

theorem Logged.drop {before after : List Operation}
    (h : Logged content replayed first (before ++ after)) :
    Logged content replayed (first + before.length) after := by
  rcases h with ⟨base, table, htable, hregular, hcontent, hreplayed, hpos, hstart⟩
  rcases allRegular_append.mp hregular with ⟨hbefore, hafter⟩
  refine ⟨base.afterAll before, table.performAll before, hbefore.consistent htable, hafter, ?_, ?_,
    Nat.lt_of_lt_of_le hpos (Nat.le_add_right _ _), ?_⟩
  · rw [← hcontent]
    unfold Contents.afterAll
    rw [List.foldl_append]
  · rw [← hreplayed]
    unfold Table.performAll
    rw [List.foldl_append]
  · intro hfirst
    have hfirst : first + before.length = 1 := hfirst
    have hpos : 0 < first := hpos
    have hzero : before.length = 0 := Nat.eq_zero_of_le_zero (by
      have hle : 1 + before.length ≤ first + before.length := Nat.add_le_add_right hpos _
      rw [hfirst] at hle
      exact Nat.le_of_add_le_add_left hle)
    rw [hzero] at hfirst
    rw [List.eq_nil_of_length_eq_zero hzero]
    exact hstart hfirst

theorem Logged.replayable_of_first (h : Logged content replayed .first ops) :
    Replayable content replayed ops := by
  rcases h with ⟨base, table, -, hregular, hcontent, hreplayed, -, hstart⟩
  rcases hstart rfl with ⟨hbase, htable⟩
  subst hbase htable
  exact ⟨_, hregular, hcontent, hreplayed, Or.inl rfl⟩

theorem Logged.replayable_of_snapshot {before rest : List Operation} {snapshot : Table}
    (h : Logged content replayed first (before ++ .checkpoint snapshot :: rest)) :
    Replayable content replayed (.checkpoint snapshot :: rest) := by
  rcases h.drop with ⟨base, table, -, hregular, hcontent, hreplayed, -⟩
  rcases hregular with ⟨hop, hrest⟩
  have hop' : Regular base {} (.checkpoint snapshot) :=
    { fits := trivial
      fresh := by
        intro id hid
        cases hid
      snapshot := hop.snapshot }
  exact ⟨base, ⟨hop', hrest⟩, hcontent, hreplayed, Or.inr ⟨snapshot, rest, rfl⟩⟩

end Operation

/-! ## Logs -/

open Chapter LogRecord

/-- The records from the newest checkpoint on, or all if there is none. -/
def Chapter.recent (chapters : List Chapter) : List LogRecord :=
  (history chapters).filter fun r =>
    (((chapters.map info).reverse.find? (·.startsWithCheckpoint)).bind (·.first)).getD .first ≤ r.1

/-- The ledgers keep a log that leads to this table and these contents. -/
def Ledgers.Leads (content : Contents) (replayed : Table) (ledgers : Ledgers) : Prop :=
  ∃ first chapters tail, ledgers.Keeps first chapters tail ∧
    Operation.Logged content replayed first ((history chapters).map (·.2))

def Log.Leads (content : Contents) (replayed : Table) (log : Log) : Prop :=
  ∃ first chapters tail, log.Holds first chapters tail ∧
    Operation.Logged content replayed first ((history chapters).map (·.2))

theorem Ledgers.leads_inMemory : Ledgers.inMemory.Leads Contents.empty {} :=
  ⟨.first, [], [], Ledgers.Keeps.inMemory, Operation.logged_nil⟩

theorem Ledgers.Leads.setFaults {content : Contents} {replayed : Table} {ledgers : Ledgers}
    (h : ledgers.Leads content replayed) (change : LedgerFaults → LedgerFaults) :
    (ledgers.setFaults change).Leads content replayed := by
  rcases h with ⟨first, chapters, tail, hkeeps, hlogged⟩
  exact ⟨first, chapters, tail, hkeeps.setFaults change, hlogged⟩

namespace Log.Leads

variable {content : Contents} {replayed : Table} {log : Log}

theorem setFaults (h : log.Leads content replayed) (change : LedgerFaults → LedgerFaults) :
    Log.Leads content replayed { log with medium := log.medium.setFaults change } := by
  rcases h with ⟨first, chapters, tail, hholds, hlogged⟩
  exact ⟨first, chapters, tail, { hholds with keeps := hholds.keeps.setFaults change }, hlogged⟩

theorem release (h : log.Leads content replayed) :
    log.medium.release.Leads content replayed := by
  rcases h with ⟨first, chapters, tail, hholds, hlogged⟩
  refine ⟨first, chapters, tail, ?_, hlogged⟩
  rw [hholds.keeps.shows.release_eq]
  exact hholds.keeps

/-- An append leads one step further, and one that fails leads nowhere. -/
theorem append_ends (h : log.Leads content replayed) {op : Operation}
    (hop : op.Regular content replayed) (hwf : op.WellFormed) :
    Ends (Log.append op) log
      (fun _ after => after.Leads (content.after op) (replayed.perform op))
      (fun _ after => after.Leads content replayed) := by
  rcases h with ⟨first, chapters, tail, hholds, hlogged⟩
  refine (hholds.append_ends hwf).mono ?_ ?_
  · intro seq after hafter
    rcases hafter with ⟨-, chapters', hafter, hhistory⟩
    refine ⟨first, chapters', [], hafter, ?_⟩
    rw [hhistory]
    rw [List.map_append]
    exact hlogged.append hop
  · intro _ after hafter
    rcases hafter with ⟨added, tail', hafter, hadded⟩
    refine ⟨first, chapters ++ added, tail', hafter, ?_⟩
    rw [history_append, hadded, List.append_nil]
    exact hlogged

theorem truncate_ends (h : log.Leads content replayed) (upto : SequenceNumber) :
    Ends (Log.truncate upto) log (fun _ after => after.Leads content replayed)
      (fun _ after => after.Leads content replayed) := by
  rcases h with ⟨first, chapters, tail, hholds, hlogged⟩
  refine (hholds.truncate_ends upto).mono ?_ ?_
  · intro _ after hafter
    rcases hafter with ⟨-, hseq, first', chapters', hafter, hhistory⟩
    refine ⟨first', chapters', tail, hafter, ?_⟩
    rcases hholds.keeps.runs.exists_append_filter upto.next with ⟨before, hbefore⟩
    have hsplit : history chapters = before ++ history chapters' := by
      rw [hhistory]
      exact hbefore
    have hfirst : first' = first + (before.map (·.2)).length := by
      have hnext := hholds.nextSeq_eq
      have hnext' := hafter.nextSeq_eq
      rw [hseq, hnext, hsplit, List.length_append, ← Nat.add_assoc] at hnext'
      rw [List.length_map]
      exact (Nat.add_right_cancel hnext').symm
    rw [hfirst]
    rw [hsplit] at hlogged
    rw [List.map_append] at hlogged
    exact hlogged.drop
  · intro _ after hafter
    rw [hafter]
    exact ⟨first, chapters, tail, hholds, hlogged⟩

end Log.Leads

/-! ## Reading on recovery -/

namespace Log

variable {content : Contents} {replayed : Table} {log : Log} {first : SequenceNumber}
  {chapters : List Chapter} {tail : Bytes}

theorem startsWithCheckpoint_eq_true_iff {chapter : Chapter} :
    chapter.info.startsWithCheckpoint = true ↔
      ∃ seq snapshot rest, chapter.records = (seq, Operation.checkpoint snapshot) :: rest := by
  rcases chapter with ⟨id, object, records⟩
  constructor
  · intro h
    cases records with
    | nil => cases h
    | cons record rest =>
        rcases record with ⟨seq, op⟩
        cases op with
        | checkpoint snapshot => exact ⟨seq, snapshot, rest, rfl⟩
        | append segment offset client event data => cases h
        | «seal» segment length => cases h
        | merge parent batch length offset => cases h
        | create segment name => cases h
        | createBatch batch name parent => cases h
        | truncate segment offset => cases h
  · intro h
    rcases h with ⟨seq, snapshot, rest, hrecords⟩
    have hrecords : records = _ := hrecords
    subst hrecords
    rfl

theorem Holds.find?_reverse (h : log.Holds first chapters tail) :
    log.ledgers.reverse.find? (·.startsWithCheckpoint) =
      (chapters.reverse.find? (·.info.startsWithCheckpoint)).map info := by
  rw [h.ledgers_eq, ← List.map_reverse, List.find?_map]
  rfl

theorem Holds.latestCheckpoint?_eq (h : log.Holds first chapters tail) {log' : Log}
    {first' : SequenceNumber} {tail' : Bytes} (h' : log'.Holds first' chapters tail') :
    log'.latestCheckpoint? = log.latestCheckpoint? := by
  unfold latestCheckpoint?
  rw [h.ledgers_eq, h'.ledgers_eq]

theorem Holds.records_of_checkpoint (h : log.Holds first chapters tail) {seq : SequenceNumber}
    (hseq : log.latestCheckpoint? = some seq) :
    ∃ before snapshot rest, history chapters = before ++ (seq, .checkpoint snapshot) :: rest ∧
      log.records seq = ((seq, Operation.checkpoint snapshot) :: rest).map .ok := by
  unfold latestCheckpoint? at hseq
  rw [h.find?_reverse] at hseq
  rcases Option.bind_eq_some_iff.mp hseq with ⟨ledger, hledger, hfirst⟩
  rcases Option.map_eq_some_iff.mp hledger with ⟨chapter, hfind, heq⟩
  subst heq
  rcases List.find?_eq_some_iff_append.mp hfind with ⟨hcheckpoint, newer, older, hsplit, -⟩
  rcases startsWithCheckpoint_eq_true_iff.mp hcheckpoint with ⟨q, snapshot, rest, hrecords⟩
  have hq : q = seq := by
    unfold info LedgerInfo.ofRecords at hfirst
    rw [hrecords] at hfirst
    exact Option.some.inj hfirst
  subst hq
  have hchapters : chapters = older.reverse ++ chapter :: newer.reverse := by
    rw [← List.reverse_reverse chapters, hsplit, List.reverse_append, List.reverse_cons,
      List.append_assoc]
    rfl
  have hhistory : history chapters =
      history older.reverse ++ (q, .checkpoint snapshot) :: (rest ++ history newer.reverse) := by
    rw [hchapters, history_append, history_cons, hrecords]
    rfl
  refine ⟨_, snapshot, _, hhistory, ?_⟩
  have hruns := h.keeps.runs
  rw [hhistory] at hruns
  rcases runsFrom_append.mp hruns with ⟨hbefore, hafter⟩
  have hstart : q = first + (history older.reverse).length := (runsFrom_cons.mp hafter).1
  rw [h.records_eq, hhistory, List.filter_append, hbefore.filter_of_ge (Nat.le_of_eq hstart.symm),
    hafter.filter_of_le (Nat.le_of_eq hstart), List.nil_append]

/-- A checkpoint that nothing was appended to is all that is replayed. -/
theorem Holds.records_of_newest (h : log.Holds first chapters tail) {seq : SequenceNumber}
    (hseq : log.latestCheckpoint? = some seq) (hlast : log.nextSeq = seq.next) :
    ∃ snapshot, log.records seq = [(seq, Operation.checkpoint snapshot)].map .ok := by
  rcases h.records_of_checkpoint hseq with ⟨before, snapshot, rest, hhistory, heq⟩
  have hruns := h.keeps.runs
  have hnext := h.nextSeq_eq
  rw [hhistory, runsFrom_append, runsFrom_cons] at hruns
  rw [hlast, hhistory, List.length_append, ← Nat.add_assoc, ← hruns.2.1, List.length_cons] at hnext
  have hnil : rest = [] := List.eq_nil_of_length_eq_zero
    (Nat.succ_inj.mp (Nat.add_left_cancel hnext)).symm
  rw [hnil] at heq
  exact ⟨snapshot, heq⟩

theorem Holds.records_of_first (h : log.Holds first chapters tail)
    (hnone : log.latestCheckpoint? = none) :
    first = .first ∧ log.records .first = (history chapters).map .ok := by
  have hfirst : first = .first := by
    rcases h.keeps.origin with heq | ⟨chapter, hmem, hcheckpoint⟩
    · exact heq
    · unfold latestCheckpoint? at hnone
      rw [h.find?_reverse] at hnone
      cases hfind : chapters.reverse.find? (·.info.startsWithCheckpoint) with
      | none =>
          exact absurd hcheckpoint
            (List.find?_eq_none.mp hfind chapter (List.mem_reverse.mpr hmem))
      | some newest =>
          have hnewest := List.find?_some hfind
          rcases startsWithCheckpoint_eq_true_iff.mp hnewest with ⟨q, snapshot, more, hrecords⟩
          rw [hfind, Option.map_some, Option.bind_some] at hnone
          unfold info LedgerInfo.ofRecords at hnone
          rw [hrecords] at hnone
          cases hnone
  refine ⟨hfirst, ?_⟩
  rw [h.records_eq, h.keeps.runs.filter_of_le (Nat.le_of_eq hfirst.symm)]

/-- The records from the newest checkpoint on are what is read on recovery. -/
theorem Holds.records_recent (h : log.Holds first chapters tail) :
    log.records (log.latestCheckpoint?.getD .first) = (recent chapters).map .ok := by
  rw [h.records_eq]
  unfold latestCheckpoint? recent
  rw [h.ledgers_eq]

theorem Holds.replayable (h : log.Holds first chapters tail)
    (hlogged : Operation.Logged content replayed first ((history chapters).map (·.2))) :
    Operation.Replayable content replayed ((recent chapters).map (·.2)) := by
  have hrecent : ∀ records : List LogRecord,
      log.records (log.latestCheckpoint?.getD .first) = records.map .ok →
      recent chapters = records := by
    intro records hrecords
    rw [h.records_recent] at hrecords
    exact (List.map_inj_right fun _ _ heq => Except.ok.inj heq).mp hrecords
  cases hseq : log.latestCheckpoint? with
  | none =>
      rcases h.records_of_first hseq with ⟨hfirst, hrecords⟩
      rw [hrecent (history chapters) (by rw [hseq]; exact hrecords)]
      subst hfirst
      exact hlogged.replayable_of_first
  | some seq =>
      rcases h.records_of_checkpoint hseq with ⟨before, snapshot, rest, hsplit, hrecords⟩
      rw [hrecent _ (by rw [hseq]; exact hrecords)]
      rw [hsplit, List.map_append] at hlogged
      exact hlogged.replayable_of_snapshot

/-! ## Opening -/

/-- Opening the log of ledgers finds what they keep; it fails only if a torn frame stays. -/
theorem openIn_keeps {ledgers : Ledgers} (h : ledgers.Keeps first chapters tail)
    (config : Config) :
    match openIn config ledgers with
    | .ok log => log.Holds first chapters []
    | .error (_, after) =>
        CutFails ledgers tail ∧ ∃ tail', after.Keeps first chapters tail' := by
  have hload := load_keeps h config
  unfold openIn
  rw [h.shows.acquire_eq]
  simp only
  cases hrun : load config ledgers with
  | ok log =>
      rw [hrun] at hload
      exact hload.1
  | error failure =>
      rcases failure with ⟨e, after⟩
      rw [hrun] at hload
      rcases hload with ⟨hfault, tail', hafter⟩
      refine ⟨hfault, tail', ?_⟩
      rw [hafter.shows.release_eq]
      exact hafter

theorem openIn_of_no_faults {ledgers : Ledgers} (h : ledgers.Keeps first chapters tail)
    (hfaults : ledgers.faults = {}) (config : Config) :
    ∃ log, openIn config ledgers = .ok log ∧ log.Holds first chapters [] := by
  have hopens := openIn_keeps h config
  cases hrun : openIn config ledgers with
  | ok log =>
      rw [hrun] at hopens
      exact ⟨log, rfl, hopens⟩
  | error failure =>
      rw [hrun] at hopens
      have hfault := hopens.1.2
      rw [hfaults] at hfault
      rcases hfault with hcrashed | hflushes
      · cases hcrashed
      · cases hflushes

end Log
end TieredStore
