import TieredStore.Report.Basic
import TieredStore.Text.Column
import TieredStore.Text.Json
import TieredStore.Total

/-!
# Inspecting the ledgers

An inspection says what each ledger holds and, if asked for, what the segments
are after all records.
-/

namespace TieredStore

structure LedgerSummary where
  scan : Scan
  /-- How many bytes the ledger has, an incomplete frame included. -/
  size : Nat
  deriving Repr, DecidableEq

structure Inspection where
  path : String := ""
  ledgers : List LedgerSummary
  /-- The segments after all records, if asked for. -/
  segments : Option (List Segment) := none
  deriving DecidableEq

namespace Inspection

def summarize (ledgers : Ledgers) (id : LedgerId) : Except ReportError LedgerSummary := do
  let handle ← ledgers.reach id
  let scan ← (Scan.run id handle ledgers.objects).mapError .core
  return { scan, size := handle.size ledgers.objects }

def run (ledgers : Ledgers) : Except ReportError Inspection := do
  return { ledgers := ← ledgers.list.mapM (summarize ledgers) }

def totalSize (inspection : Inspection) : Nat := total (inspection.ledgers.map (·.size))

def recordCount (inspection : Inspection) : Nat := total (inspection.ledgers.map (·.scan.records))

def first? (inspection : Inspection) : Option SequenceNumber :=
  inspection.ledgers.findSome? (·.scan.first)

def last? (inspection : Inspection) : Option SequenceNumber :=
  inspection.ledgers.reverse.findSome? (·.scan.last)

end Inspection

namespace LedgerSummary

def byName (ledger : LedgerSummary) : List (String × Nat) :=
  (ledger.scan.byKind.map fun (kind, count) => (kind.name, count)).mergeSort fun a b =>
    decide (a.1 ≤ b.1)

def json (ledger : LedgerSummary) : Text.Json :=
  .object <|
    [("id", .number ledger.scan.ledger), ("size", .number ledger.size),
      ("records", .number ledger.scan.records)] ++
    Text.Json.optional "first" ledger.scan.first ++
    Text.Json.optional "last" ledger.scan.last ++
    [("checkpoint", .bool ledger.scan.startsWithCheckpoint)] ++
    Text.Json.optional "torn_at" ledger.scan.tornAt ++
    [("by_type", .object (ledger.byName.map fun (name, count) => (name, .number count)))]

def lines (ledger : LedgerSummary) : List String :=
  let id := Text.atRight 6 (toString ledger.scan.ledger)
  let size := Text.atRight 10 (Text.byteCount ledger.size)
  let records := Text.atRight 6 (toString ledger.scan.records)
  let checkpoint := if ledger.scan.startsWithCheckpoint then "  [checkpoint]" else ""
  let torn := (ledger.scan.tornAt.map fun offset => s!"  torn at {offset}").getD ""
  s!"  {id}  {size}  {records} records{checkpoint}{torn}" ::
    ledger.byName.map fun (name, count) => s!"          {name}: {count}"

end LedgerSummary

namespace Segment

def json (segment : Segment) : Text.Json :=
  .object <|
    [("id", .number segment.id), ("name", .string segment.name),
      ("length", .number segment.length), ("storage_length", .number segment.storageLength),
      ("start_offset", .number segment.startOffset), ("sealed", .bool segment.sealed),
      ("merged", .bool segment.merged)] ++
    Text.Json.optional "parent" segment.parent ++
    [("pending_merges", .number segment.pending.length)]

def line (segment : Segment) : String :=
  let id := Text.atRight 6 (toString segment.id)
  let name := Text.atLeft 32 segment.name
  let flags :=
    ",".intercalate
      ((if segment.sealed then ["sealed"] else []) ++ (if segment.merged then ["merged"] else []))
  s!"  {id}  {name} length={segment.length} flushed={segment.storageLength} " ++
    s!"start={segment.startOffset} {flags}"

end Segment

namespace Inspection

def json (inspection : Inspection) : Text.Json :=
  .object <|
    [("path", .string inspection.path), ("total_size", .number inspection.totalSize),
      ("record_count", .number inspection.recordCount)] ++
    Text.Json.optional "first_sequence" inspection.first? ++
    Text.Json.optional "last_sequence" inspection.last? ++
    [("ledgers", .array (inspection.ledgers.map (·.json)))] ++
    (inspection.segments.map fun segments =>
      ("segments", Text.Json.array (segments.map (·.json)))).toList

def rangeLine (inspection : Inspection) : List String :=
  match inspection.first?, inspection.last? with
  | some first, some last => [s!"Sequence Range: {first}..={last}"]
  | _, _ => []

def lines (inspection : Inspection) : List String :=
  ["StreamSeg Log Inspection", "========================", "", s!"Path: {inspection.path}",
    s!"Total Size: {Text.byteCount inspection.totalSize}",
    s!"Records: {inspection.recordCount}"] ++
  inspection.rangeLine ++ ["", "Ledgers:"] ++ inspection.ledgers.flatMap (·.lines) ++
  ((inspection.segments.map fun segments =>
    ["", "Segments:"] ++ segments.map (·.line)).getD [])

end Inspection
end TieredStore
