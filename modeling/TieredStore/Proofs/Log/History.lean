import TieredStore.Log.Append
import TieredStore.Log.Reader
import TieredStore.Proofs.Ledger.Framing

/-!
# Histories

A history is a run of records with consecutive sequence numbers, all of which can
be written.  In a ledger it stands as the frames of its records, one behind the
other.
-/

namespace TieredStore
namespace LogRecord

def bytes (record : LogRecord) : Bytes := Record.bytes record.1 record.2

def frame (record : LogRecord) : Bytes := Frame.bytes record.bytes

def frames (records : List LogRecord) : Bytes := records.flatMap frame

def AllWritable (records : List LogRecord) : Prop :=
  ∀ record ∈ records, Record.Writable record.1 record.2

/-- The sequence numbers go up one by one from `first` on. -/
def RunsFrom (first : SequenceNumber) (records : List LogRecord) : Prop :=
  records.map Prod.fst = List.range' first records.length

/-!
## Frames
-/

@[simp] theorem frames_nil : frames [] = [] := rfl

@[simp] theorem frames_cons (record : LogRecord) (rest : List LogRecord) :
    frames (record :: rest) = record.frame ++ frames rest := rfl

@[simp] theorem frames_append (first second : List LogRecord) :
    frames (first ++ second) = frames first ++ frames second :=
  List.flatMap_append

theorem frames_eq_nil_iff {records : List LogRecord} : frames records = [] ↔ records = [] := by
  constructor
  · intro hnil
    cases records with
    | nil => rfl
    | cons record rest =>
        have hlength := congrArg List.length (List.append_eq_nil_iff.mp hnil).1
        rw [frame, Frame.length_bytes] at hlength
        exact absurd (Nat.eq_zero_of_add_eq_zero hlength).1 (by decide)
  · rintro rfl
    rfl

theorem frame_of_ofOperation {seq : SequenceNumber} {op : Operation} {bytes : Bytes}
    (hwf : op.WellFormed) (h : Frame.ofOperation seq op = .ok bytes) :
    bytes = frame (seq, op) ∧ Record.Writable seq op := by
  unfold Frame.ofOperation Record.encode at h
  cases hcheck : Record.check seq op with
  | error cause =>
      rw [hcheck] at h
      cases h
  | ok u =>
      rw [hcheck, ok_bind, pure_bind] at h
      unfold Frame.encode at h
      split at h
      · cases h
      · rename_i hshort
        have hlength : (Record.bytes seq op).length ≤ Frame.maxRecordLength := Nat.not_lt.mp hshort
        cases h
        exact ⟨rfl, hwf, hcheck, hlength⟩

theorem AllWritable.of_append {first second : List LogRecord} (h : AllWritable (first ++ second)) :
    AllWritable first ∧ AllWritable second :=
  List.forall_mem_append.mp h

theorem AllWritable.concat {records : List LogRecord} {record : LogRecord}
    (h : AllWritable records) (hrecord : Record.Writable record.1 record.2) :
    AllWritable (records ++ [record]) := by
  intro r hr
  rcases List.mem_append.mp hr with hold | hnew
  · exact h r hold
  · rw [List.mem_singleton.mp hnew]
    exact hrecord

/-!
## Sequence numbers
-/

theorem runsFrom_nil (first : SequenceNumber) : RunsFrom first [] := rfl

theorem runsFrom_cons {first : SequenceNumber} {record : LogRecord} {rest : List LogRecord} :
    RunsFrom first (record :: rest) ↔ record.1 = first ∧ RunsFrom first.next rest := by
  unfold RunsFrom
  rw [List.map_cons, List.length_cons, List.range'_succ, List.cons.injEq]
  rfl

theorem runsFrom_append {first : SequenceNumber} {before after : List LogRecord} :
    RunsFrom first (before ++ after) ↔
      RunsFrom first before ∧ RunsFrom (first + before.length) after := by
  unfold RunsFrom
  rw [List.map_append, List.length_append, ← List.range'_append_1]
  constructor
  · intro h
    exact List.append_inj h (by rw [List.length_map, List.length_range'])
  · intro h
    rw [h.1, h.2]

theorem RunsFrom.concat {first : SequenceNumber} {records : List LogRecord} {op : Operation}
    (h : RunsFrom first records) : RunsFrom first (records ++ [(first + records.length, op)]) :=
  runsFrom_append.mpr ⟨h, rfl⟩

theorem RunsFrom.bounds {first : SequenceNumber} {records : List LogRecord} {record : LogRecord}
    (h : RunsFrom first records) (hmem : record ∈ records) :
    first ≤ record.1 ∧ record.1 < first + records.length := by
  have hseq : record.1 ∈ records.map Prod.fst := List.mem_map_of_mem hmem
  rw [h] at hseq
  exact List.mem_range'_1.mp hseq

theorem RunsFrom.last {first : SequenceNumber} {records : List LogRecord} {record : LogRecord}
    (h : RunsFrom first records) (hlast : records.getLast? = some record) :
    record.1.next = first + records.length := by
  obtain ⟨before, rfl⟩ := List.getLast?_eq_some_iff.mp hlast
  have hrecord := (runsFrom_cons.mp (runsFrom_append.mp h).2).1
  rw [List.length_append, hrecord]
  rfl

theorem RunsFrom.filter_of_le {first start : SequenceNumber} {records : List LogRecord}
    (h : RunsFrom first records) (hle : start ≤ first) :
    records.filter (fun r => start ≤ r.1) = records := by
  apply List.filter_eq_self.mpr
  intro r hr
  exact decide_eq_true (Nat.le_trans hle (h.bounds hr).1)

theorem RunsFrom.filter_of_ge {first start : SequenceNumber} {records : List LogRecord}
    (h : RunsFrom first records) (hle : first + records.length ≤ start) :
    records.filter (fun r => start ≤ r.1) = [] := by
  apply List.filter_eq_nil_iff.mpr
  intro r hr
  have hlt : r.1 < start := Nat.lt_of_lt_of_le (h.bounds hr).2 hle
  simpa using hlt

theorem RunsFrom.exists_append_filter {first : SequenceNumber} {records : List LogRecord}
    (h : RunsFrom first records) (start : SequenceNumber) :
    ∃ before, records = before ++ records.filter (fun r => start ≤ r.1) := by
  induction records generalizing first with
  | nil => exact ⟨[], rfl⟩
  | cons record rest ih =>
      by_cases hle : start ≤ record.1
      · rw [(runsFrom_cons.mp h).1] at hle
        exact ⟨[], (h.filter_of_le hle).symm⟩
      · rcases ih (runsFrom_cons.mp h).2 with ⟨before, hbefore⟩
        refine ⟨record :: before, ?_⟩
        rw [List.filter_cons_of_neg (by simpa using hle), List.cons_append, ← hbefore]

end LogRecord
end TieredStore
