import TieredStore.Proofs.Ledger.Shelf
import TieredStore.Proofs.Log.History

/-!
# What a log keeps

A log keeps its history in chapters, one for each ledger.  Every chapter is a run
of frames, and only behind the last one may a torn frame stand, which a failed
append has left there.  An open log knows its chapters: what it has noted of a
ledger is what a scan of the ledger would tell.

If the history does not start with the first record of all, it holds a checkpoint
at the start of a chapter, for only chapters before such a one are dropped.  A new
chapter is started only behind one with records.
-/

namespace TieredStore

def LedgerInfo.ofRecords (id : LedgerId) (records : List LogRecord) : LedgerInfo :=
  { id
    first := records.head?.map Prod.fst
    last := records.getLast?.map Prod.fst
    startsWithCheckpoint := records.head?.any (·.2.isCheckpoint)
    size := (LogRecord.frames records).length }

/-- What may follow whole frames: nothing, or a frame that is not all there. -/
def Frame.Tail (tail : Bytes) : Prop := ∃ record, Torn tail record

theorem Frame.tail_nil : Frame.Tail [] :=
  ⟨[], List.nil_prefix, by rw [length_bytes]; decide, Nat.zero_le _⟩

/-- The part of a history that one ledger holds. -/
structure Chapter where
  id : LedgerId
  object : Nat
  records : List LogRecord

namespace Chapter

def volume (tail : Bytes) (chapter : Chapter) : Volume :=
  { id := chapter.id, object := chapter.object, bytes := LogRecord.frames chapter.records ++ tail }

def info (chapter : Chapter) : LedgerInfo := .ofRecords chapter.id chapter.records

def extend (chapter : Chapter) (record : LogRecord) : Chapter :=
  { chapter with records := chapter.records ++ [record] }

def volumes (tail : Bytes) : List Chapter → List Volume
  | [] => []
  | [newest] => [newest.volume tail]
  | chapter :: rest => chapter.volume [] :: volumes tail rest

def history (chapters : List Chapter) : List LogRecord := chapters.flatMap (·.records)

@[simp] theorem history_nil : history [] = [] := rfl

@[simp] theorem history_cons (chapter : Chapter) (rest : List Chapter) :
    history (chapter :: rest) = chapter.records ++ history rest := rfl

@[simp] theorem history_append (first second : List Chapter) :
    history (first ++ second) = history first ++ history second := List.flatMap_append

theorem history_concat (older : List Chapter) (newest : Chapter) :
    history (older ++ [newest]) = history older ++ newest.records := by
  rw [history_append, history_cons, history_nil, List.append_nil]

theorem volumes_concat (tail : Bytes) (older : List Chapter) (newest : Chapter) :
    volumes tail (older ++ [newest]) = older.map (volume []) ++ [newest.volume tail] := by
  induction older with
  | nil => rfl
  | cons chapter rest ih =>
      cases rest with
      | nil => rfl
      | cons next more =>
          rw [List.cons_append, List.cons_append, volumes, ← List.cons_append, ih]
          · rfl
          · intro heq
            simp at heq

theorem volumes_nil (chapters : List Chapter) : volumes [] chapters = chapters.map (volume []) := by
  rcases List.eq_nil_or_concat chapters with rfl | ⟨older, newest, rfl⟩
  · rfl
  · rw [List.concat_eq_append, volumes_concat, List.map_append]
    rfl

theorem volumes_cons {tail : Bytes} {chapter : Chapter} {rest : List Chapter} (h : rest ≠ []) :
    volumes tail (chapter :: rest) = chapter.volume [] :: volumes tail rest := by
  rw [volumes]
  intro heq
  exact h heq

theorem map_id_volumes (tail : Bytes) (chapters : List Chapter) :
    (volumes tail chapters).map (·.id) = chapters.map (·.id) := by
  rcases List.eq_nil_or_concat chapters with rfl | ⟨older, newest, rfl⟩
  · rfl
  · rw [List.concat_eq_append, volumes_concat]
    simp [volume]

end Chapter

open Chapter LogRecord

/-- The ledgers keep the history of these chapters, from `first` on, with `tail` behind it. -/
structure Ledgers.Keeps (ledgers : Ledgers) (first : SequenceNumber) (chapters : List Chapter)
    (tail : Bytes) : Prop where
  shows : ledgers.Shows (volumes tail chapters)
  runs : RunsFrom first (history chapters)
  writable : AllWritable (history chapters)
  tail : Frame.Tail tail
  origin : first = .first ∨ ∃ c ∈ chapters, c.info.startsWithCheckpoint = true
  filled : ∀ c ∈ chapters.dropLast, c.records ≠ []

/-- The log is open on ledgers that keep these chapters, and knows them. -/
structure Log.Holds (log : Log) (first : SequenceNumber) (chapters : List Chapter)
    (tail : Bytes) : Prop where
  keeps : log.medium.Keeps first chapters tail
  ledgers_eq : log.ledgers = chapters.map info
  writer_eq : log.writer = chapters.getLast?.map fun c => .memory c.object
  nextSeq_eq : log.nextSeq = first + (history chapters).length
  clean : log.poisoned = false → tail = []

namespace Ledgers.Keeps

variable {ledgers : Ledgers} {first : SequenceNumber} {chapters : List Chapter} {tail : Bytes}

theorem inMemory : Ledgers.inMemory.Keeps .first [] [] where
  shows := Ledgers.shows_inMemory
  runs := runsFrom_nil _
  writable := fun _ h => nomatch h
  tail := Frame.tail_nil
  origin := Or.inl rfl
  filled := fun _ h => nomatch h

theorem of_shows {after : Ledgers} {tail' : Bytes} (h : ledgers.Keeps first chapters tail)
    (hshows : after.Shows (volumes tail' chapters)) (htail : Frame.Tail tail') :
    after.Keeps first chapters tail' :=
  { h with shows := hshows, tail := htail }

theorem setFaults (h : ledgers.Keeps first chapters tail)
    (change : LedgerFaults → LedgerFaults) :
    (ledgers.setFaults change).Keeps first chapters tail :=
  h.of_shows (h.shows.setFaults change).1 h.tail

theorem runs_prefix (h : ledgers.Keeps first chapters tail) {before after : List Chapter}
    (hchapters : chapters = before ++ after) : RunsFrom first (history before) := by
  have hruns := h.runs
  rw [hchapters, history_append] at hruns
  exact (runsFrom_append.mp hruns).1

theorem first_eq_of_history_nil (h : ledgers.Keeps first chapters tail)
    (hnil : history chapters = []) : first = .first := by
  rcases h.origin with heq | hcheckpoint
  · exact heq
  · rcases hcheckpoint with ⟨chapter, hmem, hstarts⟩
    have hrecords : chapter.records = [] := List.flatMap_eq_nil_iff.mp hnil chapter hmem
    simp [info, LedgerInfo.ofRecords, hrecords] at hstarts

end Ledgers.Keeps

namespace Log

/-!
## Calls of the medium
-/

theorem onMedium_ends {α : Type} {call : LedgersM α} {log : Log}
    {answered : α → Log → Prop} {failed : MediumError → Log → Prop}
    (h : Ends call log.medium (fun a medium => answered a { log with medium })
      (fun e medium => failed e { log with medium })) :
    Ends (onMedium call) log answered failed := by
  unfold Ends EStateM.run onMedium
  exact Ends.elim (call.run log.medium) rfl h

theorem onWriter_ends {call : Handle → LedgersM Handle} {log : Log} {handle : Handle}
    (hwriter : log.writer = some handle) {answered : Unit → Log → Prop}
    {failed : MediumError → Log → Prop}
    (h : Ends (call handle) log.medium
      (fun writer medium => answered () { log with medium, writer := some writer })
      (fun e medium => failed e { log with medium })) :
    Ends (onWriter call) log answered failed := by
  unfold onWriter
  refine Ends.get ?_
  rw [hwriter]
  refine Ends.bind (onMedium_ends (h.mono ?_ ?_))
  · intro writer medium hanswered
    exact Ends.modified hanswered
  · intro e medium hfailed
    exact hfailed

theorem onWriter_ends_none {call : Handle → LedgersM Handle} {log : Log}
    (hwriter : log.writer = none) {answered : Unit → Log → Prop}
    {failed : MediumError → Log → Prop} (h : answered () log) :
    Ends (onWriter call) log answered failed := by
  unfold onWriter
  refine Ends.get ?_
  rw [hwriter]
  exact Ends.pure h

theorem failingAs_ends {α : Type} {meaning : MediumError → Error} {call : EStateM MediumError Log α}
    {log : Log} {answered : α → Log → Prop} {failed : Error → Log → Prop}
    (h : Ends call log answered fun e after => failed (meaning e) after) :
    Ends (failingAs meaning call) log answered failed := by
  unfold Ends EStateM.run failingAs
  exact Ends.elim (call.run log) rfl h

end Log
end TieredStore
