import TieredStore.Proofs.Log.Invariant

/-!
# An append is all or nothing

An append that succeeds adds its record to the newest chapter, after it has
started a chapter if need be.  One that fails leaves the history as it is and
gives its sequence number to the next record.  What it has written by then is cut
off again; only a crash prevents that, and a crash never lets a whole frame
through, so that no record comes back which was not acknowledged.

The newest chapter takes in only what it has room for: whatever comes first, and
behind that no checkpoint and nothing that makes its ledger too large.
-/

namespace TieredStore

namespace Chapter

open LogRecord

/-- There is room for the record: it comes first, or it is no checkpoint and its frame fits. -/
def Admits (limit : Nat) (chapter : Chapter) (record : LogRecord) : Prop :=
  chapter.records = [] ∨ record.2.isCheckpoint = false ∧
    (frames chapter.records).length + record.frame.length ≤ limit

/-- The newest chapter is the last one, or it has just been started behind all of them. -/
def Continues (chapters older : List Chapter) (newest : Chapter) : Prop :=
  chapters = older ++ [newest] ∨ chapters = older ∧ newest.records = []

theorem Continues.history_eq {chapters older : List Chapter} {newest : Chapter}
    (h : Continues chapters older newest) : history (older ++ [newest]) = history chapters := by
  rcases h with rfl | ⟨rfl, hnil⟩
  · rfl
  · rw [history_concat, hnil, List.append_nil]

theorem Continues.history_extend {chapters older : List Chapter} {newest : Chapter}
    (h : Continues chapters older newest) (record : LogRecord) :
    history (older ++ [newest.extend record]) = history chapters ++ [record] := by
  rw [← h.history_eq, history_concat, history_concat, extend, List.append_assoc]

end Chapter

namespace Log

open Chapter LogRecord

variable {log : Log} {first : SequenceNumber} {chapters older : List Chapter} {newest : Chapter}
  {tail : Bytes}

theorem flushWriter_ends (log : Log) :
    Ends (onWriter fun writer => do Ledgers.flush; return writer) log
      (fun _ after => after = log) (fun _ after => after = log) := by
  cases hwriter : log.writer with
  | none =>
      exact onWriter_ends_none hwriter rfl
  | some handle =>
      refine onWriter_ends hwriter (Ends.bind ((Ledgers.Shows.flush_ends log.medium).mono ?_ ?_))
      · intro _ medium hmedium
        refine Ends.pure ?_
        rw [hmedium, ← hwriter]
      · intro _ medium hmedium
        rw [hmedium.1]

theorem flush_ends (log : Log) :
    Ends flush log (fun _ after => after = log) (fun _ after => after = log) :=
  failingAs_ends (flushWriter_ends log)

/-!
## Starting a chapter
-/

theorem Holds.id_lt_nextLedger (h : log.Holds first chapters tail) :
    ∀ v ∈ volumes tail chapters, v.id < log.nextLedger := by
  rcases List.eq_nil_or_concat chapters with rfl | ⟨older, newest, rfl⟩
  · intro v hv
    cases hv
  · rw [List.concat_eq_append] at h ⊢
    have hids := h.keeps.shows.ids_ascending
    have hnext : log.nextLedger = newest.id + 1 := by
      rw [nextLedger, h.ledgers_eq, List.map_append, List.map_singleton, List.getLast?_concat]
      rfl
    rw [hnext]
    rw [volumes_concat] at hids ⊢
    intro v hv
    rcases List.mem_append.mp hv with hold | hlast
    · have hlt := (List.pairwise_append.mp hids).2.2 v hold (newest.volume tail) (by simp)
      exact Nat.lt_succ_of_lt hlt
    · rw [List.mem_singleton.mp hlast]
      exact Nat.lt_succ_self _

theorem Holds.filled_of_needsLedger (h : log.Holds first chapters tail) {checkpoint : Bool}
    {size : Nat} (hneeds : log.needsLedger checkpoint size = true) :
    ∀ c ∈ chapters, c.records ≠ [] := by
  rcases List.eq_nil_or_concat chapters with rfl | ⟨older, newest, rfl⟩
  · intro c hc
    cases hc
  · rw [List.concat_eq_append] at h ⊢
    intro c hc
    rcases List.mem_append.mp hc with hold | hlast
    · apply h.keeps.filled c
      rw [List.dropLast_concat]
      exact hold
    · rw [List.mem_singleton.mp hlast]
      intro hnil
      have hsize : newest.info.size = 0 := congrArg (fun records => (frames records).length) hnil
      have hwriter : log.writer.isNone = false := by
        rw [h.writer_eq, List.getLast?_concat]
        rfl
      unfold needsLedger at hneeds
      rw [h.ledgers_eq, List.map_append, List.map_singleton, List.getLast?_concat] at hneeds
      simp [hwriter, hsize] at hneeds

theorem Holds.startLedger_ends (h : log.Holds first chapters [])
    (hfilled : ∀ c ∈ chapters, c.records ≠ []) :
    Ends startLedger log
      (fun _ after => after.maxLedgerSize = log.maxLedgerSize ∧ ∃ object,
        after.Holds first (chapters ++ [{ id := log.nextLedger, object, records := [] }]) [])
      (fun _ after => after = log) := by
  unfold startLedger
  refine Ends.bind ((flushWriter_ends log).mono ?_ ?_)
  · rintro _ log rfl
    refine Ends.get (Ends.bind (onMedium_ends ?_))
    refine (h.keeps.shows.create_ends h.id_lt_nextLedger).mono ?_ ?_
    · rintro _ medium ⟨object, rfl, hshows⟩
      refine Ends.modified ⟨rfl, object, ?_⟩
      let fresh : Chapter := { id := log.nextLedger, object, records := [] }
      have hhistory : history (chapters ++ [fresh]) = history chapters := by
        rw [history_concat]
        exact List.append_nil _
      refine { keeps := ?_, ledgers_eq := ?_, writer_eq := ?_, nextSeq_eq := ?_, clean := ?_ }
      · refine { shows := ?_, runs := ?_, writable := ?_, tail := Frame.tail_nil, origin := ?_,
                 filled := ?_ }
        · rw [volumes_concat, ← volumes_nil]
          exact hshows
        · rw [hhistory]
          exact h.keeps.runs
        · rw [hhistory]
          exact h.keeps.writable
        · apply h.keeps.origin.imp_right
          rintro ⟨c, hc, hstarts⟩
          exact ⟨c, List.mem_append_left _ hc, hstarts⟩
        · rw [List.dropLast_concat]
          exact hfilled
      · rw [h.ledgers_eq, List.map_append]
        rfl
      · rw [List.getLast?_concat]
        rfl
      · rw [hhistory]
        exact h.nextSeq_eq
      · intro _
        rfl
    · rintro _ medium rfl
      rfl
  · rintro _ after rfl
    rfl

/-!
## Writing a frame
-/

theorem Holds.writer_newest (h : log.Holds first (older ++ [newest]) tail) :
    log.writer = some (.memory newest.object) := by
  rw [h.writer_eq, List.getLast?_concat]
  rfl

/-- A failed write of a frame leaves a piece of it, or all of it if there was no crash. -/
theorem Holds.writeFrame_ends (h : log.Holds first (older ++ [newest]) []) {record : LogRecord}
    (hwritable : Record.Writable record.1 record.2) :
    Ends (writeFrame record.frame) log
      (fun _ after => after = { log with medium := after.medium } ∧
        after.medium.Shows (older.map (volume []) ++ [newest.volume record.frame]))
      (fun _ after => after = { log with medium := after.medium } ∧
        ∃ piece, piece.length ≤ record.frame.length ∧
          after.medium.Shows (older.map (volume []) ++ [newest.volume piece]) ∧
          (after.medium.faults.crashed = true → Frame.Tail piece)) := by
  have hshows := h.keeps.shows
  rw [volumes_concat] at hshows
  have hvolume (piece : Bytes) :
      { newest.volume [] with bytes := (newest.volume []).bytes ++ piece } =
        newest.volume piece := by
    simp [volume]
  unfold writeFrame
  refine Ends.bind (onWriter_ends h.writer_newest ((hshows.append_ends record.frame).mono ?_ ?_))
  · rintro _ medium ⟨rfl, halive, hmedium⟩
    rw [hvolume] at hmedium
    have hsame : ({ log with medium, writer := some (.memory newest.object) } : Log) =
        { log with medium } := by
      rw [← h.writer_newest]
    show Ends _ { log with medium, writer := some (.memory newest.object) } _ _
    rw [hsame]
    refine Ends.get ?_
    split
    · refine (flushWriter_ends _).mono ?_ ?_
      · rintro _ after rfl
        exact ⟨rfl, hmedium⟩
      · rintro _ after rfl
        refine ⟨rfl, record.frame, Nat.le_refl _, hmedium, ?_⟩
        intro hcrashed
        rw [halive] at hcrashed
        cases hcrashed
    · exact Ends.pure ⟨rfl, hmedium⟩
  · rintro _ medium (rfl | ⟨-, count, hcount, hmedium⟩)
    · exact ⟨rfl, [], Nat.zero_le _, hshows, fun _ => Frame.tail_nil⟩
    · rw [hvolume] at hmedium
      refine ⟨rfl, record.frame.take count, List.length_take_le' _ _, hmedium, fun _ => ?_⟩
      refine ⟨record.bytes, List.take_prefix _ _, ?_, hwritable.length_le⟩
      rw [List.length_take]
      exact Nat.lt_of_le_of_lt (Nat.min_le_left _ _) hcount

theorem commitFrame_ends {before : Nat} {frame : Bytes} {answered : Unit → Log → Prop}
    {failed : Error → Log → Prop}
    (h : Ends (writeFrame frame) log answered fun cause after =>
      Ends (onWriter (Ledgers.truncate · before)) after
        (fun _ after => failed (.mediumFailure cause) after)
        (fun _ after => failed (.mediumFailure cause) { after with poisoned := true })) :
    Ends (commitFrame before frame) log answered failed := by
  unfold Ends EStateM.run commitFrame
  refine Ends.elim ((writeFrame frame).run log) rfl (h.mono (fun _ _ hwritten => hwritten) ?_)
  intro cause after hcut
  simp only
  exact Ends.elim ((onWriter (Ledgers.truncate · before)).run after) rfl hcut

/-- A frame is written as a whole or cut off again; a piece of one stays only in a poisoned log. -/
theorem Holds.commitFrame_ends (h : log.Holds first (older ++ [newest]) []) {record : LogRecord}
    (hwritable : Record.Writable record.1 record.2) :
    Ends (commitFrame (frames newest.records).length record.frame) log
      (fun _ after => after = { log with medium := after.medium } ∧
        after.medium.Shows (older.map (volume []) ++ [newest.volume record.frame]))
      (fun _ after => ∃ piece, Frame.Tail piece ∧ piece.length ≤ record.frame.length ∧
        after.medium.Shows (older.map (volume []) ++ [newest.volume piece]) ∧
        (after = { log with medium := after.medium } ∧ piece = [] ∨
          after = { log with medium := after.medium, poisoned := true })) := by
  refine Log.commitFrame_ends ((h.writeFrame_ends hwritable).mono ?_ ?_)
  · intro _ after hafter
    exact hafter
  · rintro cause after ⟨hsame, piece, hpiece, hshows, hcrash⟩
    have hwriter : after.writer = some (.memory newest.object) := by
      rw [hsame]
      exact h.writer_newest
    have htarget : (frames newest.records).length ≤ (newest.volume piece).bytes.length := by
      rw [volume, List.length_append]
      exact Nat.le_add_right _ _
    refine onWriter_ends hwriter ((hshows.truncate_ends htarget).mono ?_ ?_)
    · rintro _ medium ⟨rfl, -, hcut⟩
      refine ⟨[], Frame.tail_nil, Nat.zero_le _, ?_, Or.inl ⟨?_, rfl⟩⟩
      · have hvolume : { newest.volume piece with
            bytes := (newest.volume piece).bytes.take (frames newest.records).length } =
            newest.volume [] := by
          simp [volume]
        rwa [hvolume] at hcut
      · rw [hsame]
        simp only [volume, ← h.writer_newest]
    · rintro _ medium ⟨rfl, hcrashed⟩
      refine ⟨piece, hcrash hcrashed, hpiece, hshows, Or.inr ?_⟩
      rw [hsame]

/-!
## Appending
-/

theorem info_extend (chapter : Chapter) (record : LogRecord) :
    chapter.info.grown record.1 record.2.isCheckpoint
        ((frames chapter.records).length + record.frame.length) =
      (chapter.extend record).info := by
  have hlast : (chapter.records ++ [record]).getLast? = some record := List.getLast?_concat
  unfold info Chapter.extend LedgerInfo.ofRecords LedgerInfo.grown
  rw [hlast]
  cases hrecords : chapter.records with
  | nil =>
      simp
  | cons r rest =>
      simp [Nat.add_assoc]

theorem updateNewest_concat (change : LedgerInfo → LedgerInfo) (older : List LedgerInfo)
    (newest : LedgerInfo) :
    updateNewest change (older ++ [newest]) = older ++ [change newest] := by
  induction older with
  | nil => rfl
  | cons ledger rest ih =>
      cases rest with
      | nil => rfl
      | cons next more =>
          rw [List.cons_append, List.cons_append, updateNewest, ← List.cons_append, ih]
          · rfl
          · intro heq
            simp at heq

theorem Holds.extend (h : log.Holds first (older ++ [newest]) []) {op : Operation}
    (hwritable : Record.Writable log.nextSeq op) {medium : Ledgers}
    (hshows : medium.Shows
      (older.map (volume []) ++ [newest.volume (frame (log.nextSeq, op))])) :
    Log.Holds { log with
        medium
        ledgers := updateNewest (·.grown log.nextSeq op.isCheckpoint
          ((frames newest.records).length + (frame (log.nextSeq, op)).length)) log.ledgers
        nextSeq := log.nextSeq.next }
      first (older ++ [newest.extend (log.nextSeq, op)]) [] := by
  have hhistory : history (older ++ [newest.extend (log.nextSeq, op)]) =
      history (older ++ [newest]) ++ [(log.nextSeq, op)] := by
    rw [history_concat, history_concat, Chapter.extend, List.append_assoc]
  have hvolume : newest.volume (frame (log.nextSeq, op)) =
      (newest.extend (log.nextSeq, op)).volume [] := by
    simp [volume, Chapter.extend]
  have hruns : RunsFrom first (history (older ++ [newest]) ++ [(log.nextSeq, op)]) := by
    rw [h.nextSeq_eq]
    exact h.keeps.runs.concat
  refine { keeps := ?_, ledgers_eq := ?_, writer_eq := ?_, nextSeq_eq := ?_, clean := fun _ => rfl }
  · refine { shows := ?_, runs := ?_, writable := ?_, tail := Frame.tail_nil, origin := ?_,
             filled := ?_ }
    · rw [volumes_concat, ← hvolume]
      exact hshows
    · rw [hhistory]
      exact hruns
    · rw [hhistory]
      exact h.keeps.writable.concat hwritable
    · apply h.keeps.origin.imp_right
      rintro ⟨c, hc, hstarts⟩
      rcases List.mem_append.mp hc with hold | hlast
      · exact ⟨c, List.mem_append_left _ hold, hstarts⟩
      · rw [List.mem_singleton.mp hlast] at hstarts
        refine ⟨_, List.mem_append_right _ List.mem_cons_self, ?_⟩
        simp only [info, LedgerInfo.ofRecords, Chapter.extend] at hstarts ⊢
        cases hrecords : newest.records with
        | nil => simp [hrecords] at hstarts
        | cons r rest => simpa [hrecords] using hstarts
    · have hfilled := h.keeps.filled
      rw [List.dropLast_concat] at hfilled ⊢
      exact hfilled
  · show updateNewest _ log.ledgers = _
    rw [h.ledgers_eq, List.map_append, List.map_singleton, updateNewest_concat, List.map_append,
      List.map_singleton]
    exact congrArg (fun i => older.map info ++ [i]) (info_extend newest (log.nextSeq, op))
  · show log.writer = _
    rw [h.writer_newest, List.getLast?_concat]
    rfl
  · show log.nextSeq.next = _
    rw [hhistory, List.length_append, h.nextSeq_eq]
    rfl

/-- The part of an append that follows when there is a ledger to write to. -/
theorem Holds.append_frame (h : log.Holds first (older ++ [newest]) []) (op : Operation)
    (hwritable : Record.Writable log.nextSeq op) :
    Ends
      (do
        let before := ((← get).ledgers.getLast?.map (·.size)).getD 0
        if (← get).writer.isNone then throw (.misuse .noWritableLedger)
        commitFrame before (frame (log.nextSeq, op))
        modify fun log' =>
          { log' with
            ledgers := updateNewest (·.grown log.nextSeq op.isCheckpoint
              (before + (frame (log.nextSeq, op)).length)) log'.ledgers
            nextSeq := log.nextSeq.next }
        return log.nextSeq : LogM SequenceNumber) log
      (fun seq after => seq = log.nextSeq ∧ after.maxLedgerSize = log.maxLedgerSize ∧
        after.Holds first (older ++ [newest.extend (log.nextSeq, op)]) [])
      (fun _ after => after.maxLedgerSize = log.maxLedgerSize ∧
        ∃ tail, tail.length ≤ (frame (log.nextSeq, op)).length ∧
          after.Holds first (older ++ [newest]) tail) := by
  have hbefore : (log.ledgers.getLast?.map (·.size)).getD 0 = (frames newest.records).length := by
    rw [h.ledgers_eq, List.map_append, List.map_singleton, List.getLast?_concat]
    rfl
  refine Ends.get (Ends.get ?_)
  rw [h.writer_newest, hbefore]
  refine Ends.bind ((h.commitFrame_ends hwritable).mono ?_ ?_)
  · rintro _ after ⟨hsame, hshows⟩
    rw [hsame]
    exact Ends.modifying (Ends.pure ⟨rfl, rfl, h.extend hwritable hshows⟩)
  · rintro _ after ⟨piece, htail, hpiece, hshows, hcase⟩
    rw [← volumes_concat] at hshows
    rcases hcase with ⟨hsame, rfl⟩ | hsame
    · rw [hsame]
      exact ⟨rfl, [], hpiece,
        { h with keeps := h.keeps.of_shows hshows htail, clean := fun _ => rfl }⟩
    · rw [hsame]
      exact ⟨rfl, piece, hpiece,
        { h with keeps := h.keeps.of_shows hshows htail, clean := fun hclean => nomatch hclean }⟩

theorem Holds.exists_newest (h : log.Holds first chapters tail) (record : LogRecord)
    (hneeds : ¬ log.needsLedger record.2.isCheckpoint record.frame.length = true) :
    ∃ older newest, chapters = older ++ [newest] ∧ newest.Admits log.maxLedgerSize record := by
  rcases List.eq_nil_or_concat chapters with rfl | ⟨older, newest, rfl⟩
  · rw [needsLedger, h.ledgers_eq] at hneeds
    exact absurd rfl hneeds
  · rw [List.concat_eq_append] at h ⊢
    refine ⟨older, newest, rfl, ?_⟩
    by_cases hrecords : newest.records = []
    · exact Or.inl hrecords
    · have hsize : (frames newest.records).length ≠ 0 := by
        intro hzero
        exact hrecords (frames_eq_nil_iff.mp (List.eq_nil_of_length_eq_zero hzero))
      have hinfo : newest.info.size = (frames newest.records).length := rfl
      rw [needsLedger, h.ledgers_eq, List.map_append, List.map_singleton, List.getLast?_concat,
        h.writer_newest] at hneeds
      simp only [Option.isNone_some, Bool.false_eq_true, if_false, hinfo, hsize, Bool.or_eq_true,
        decide_eq_true_eq, not_or, Bool.not_eq_true, Nat.not_lt] at hneeds
      exact Or.inr hneeds

theorem append_of_poisoned (hpoisoned : log.poisoned = true) (op : Operation) :
    (append op).run log = .error (.mediumFailure (.failed .partialFrame)) log := by
  unfold append
  rw [EStateM.run_bind, EStateM.run_get]
  simp only [hpoisoned, if_true]
  rfl

/--
An append adds its record to the newest chapter, where there is room for it, or
leaves no more behind that than a piece of a frame.
-/
theorem Holds.append_continues (h : log.Holds first chapters tail) {op : Operation}
    (hwf : op.WellFormed) :
    Ends (append op) log
      (fun seq after => seq = log.nextSeq ∧ after.maxLedgerSize = log.maxLedgerSize ∧
        ∃ older newest, Continues chapters older newest ∧
          newest.Admits log.maxLedgerSize (log.nextSeq, op) ∧
          after.Holds first (older ++ [newest.extend (log.nextSeq, op)]) [])
      (fun _ after => after = log ∨ after.maxLedgerSize = log.maxLedgerSize ∧
        ∃ older newest, Continues chapters older newest ∧
          newest.Admits log.maxLedgerSize (log.nextSeq, op) ∧
          ∃ tail', tail'.length ≤ (frame (log.nextSeq, op)).length ∧
            after.Holds first (older ++ [newest]) tail') := by
  unfold append
  refine Ends.get ?_
  split
  · exact Ends.throw (Or.inl rfl)
  · rename_i hpoisoned
    obtain rfl : tail = [] := h.clean (by simpa using hpoisoned)
    refine Ends.get ?_
    extract_lets seq
    cases hframe : Frame.ofOperation log.nextSeq op with
    | error cause =>
        exact Ends.throw (Or.inl rfl)
    | ok written =>
        obtain ⟨rfl, hwritable⟩ := frame_of_ofOperation hwf hframe
        refine Ends.bind (Ends.pure (Ends.get ?_))
        split
        · rename_i hneeds
          refine Ends.bind (failingAs_ends ((h.startLedger_ends
            (h.filled_of_needsLedger hneeds)).mono ?_ ?_))
          · rintro _ after ⟨hlimit, object, hafter⟩
            let fresh : Chapter := ⟨log.nextLedger, object, []⟩
            have hcontinues : Continues chapters chapters fresh := Or.inr ⟨rfl, rfl⟩
            have hadmits : fresh.Admits log.maxLedgerSize (log.nextSeq, op) := Or.inl rfl
            have hseq : after.nextSeq = log.nextSeq := by
              rw [hafter.nextSeq_eq, h.nextSeq_eq, hcontinues.history_eq]
            have hframe := hafter.append_frame op (by rw [hseq]; exact hwritable)
            rw [hseq, hlimit] at hframe
            refine hframe.mono ?_ ?_
            · rintro seq last ⟨rfl, hsame, hend⟩
              exact ⟨rfl, hsame, chapters, fresh, hcontinues, hadmits, hend⟩
            · rintro _ last ⟨hsame, hend⟩
              exact Or.inr ⟨hsame, chapters, fresh, hcontinues, hadmits, hend⟩
          · rintro _ after rfl
            exact Or.inl rfl
        · rename_i hneeds
          obtain ⟨older, newest, rfl, hadmits⟩ :=
            h.exists_newest (log.nextSeq, op) hneeds
          refine (h.append_frame op hwritable).mono ?_ ?_
          · rintro seq after ⟨rfl, hsame, hend⟩
            exact ⟨rfl, hsame, older, newest, Or.inl rfl, hadmits, hend⟩
          · rintro _ after ⟨hsame, hend⟩
            exact Or.inr ⟨hsame, older, newest, Or.inl rfl, hadmits, hend⟩

/--
An append adds its record under the next sequence number, or nothing to the
history.  A new chapter that it has started may stay, without a record.
-/
theorem Holds.append_ends (h : log.Holds first chapters tail) {op : Operation}
    (hwf : op.WellFormed) :
    Ends (append op) log
      (fun seq after => seq = log.nextSeq ∧ ∃ chapters', after.Holds first chapters' [] ∧
        history chapters' = history chapters ++ [(seq, op)])
      (fun _ after => ∃ added tail', after.Holds first (chapters ++ added) tail' ∧
        history added = []) := by
  refine (h.append_continues hwf).mono ?_ ?_
  · rintro seq after ⟨rfl, -, older, newest, hcontinues, -, hafter⟩
    exact ⟨rfl, _, hafter, hcontinues.history_extend _⟩
  · rintro _ after (rfl | ⟨-, older, newest, hcontinues, -, tail', -, hafter⟩)
    · exact ⟨[], tail, by rwa [List.append_nil], rfl⟩
    · rcases hcontinues with rfl | ⟨rfl, hnil⟩
      · exact ⟨[], tail', by rwa [List.append_nil], rfl⟩
      · exact ⟨[newest], tail', hafter, hnil ▸ List.append_nil _⟩

end Log
end TieredStore
