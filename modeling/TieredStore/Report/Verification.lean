import TieredStore.Report.Basic

/-!
# Verifying the ledgers

A verification reads every record of every ledger and lists what is wrong.
Errors make the log unusable; a warning is about something that opening the log
repairs.  If there are no errors, the records can be folded into a segment
table as a further check.
-/

namespace TieredStore

/-! ## Replaying -/

structure Replay where
  table : Table := {}
  applied : Nat := 0
  deriving DecidableEq

namespace Replay

def take (replay : Replay) (record : LoggedRecord) : Except ReportError Replay :=
  match replay.table.apply record.operation with
  | .ok table => .ok { table, applied := replay.applied + 1 }
  | .error cause => .error (.inapplicable record.header.seq cause)

/-- Applies all records, from the first that is left. -/
def run (ledgers : Ledgers) : Except ReportError Replay :=
  ledgers.logged.foldlM (fun replay found => do replay.take (← found)) {}

end Replay

/-! ## Verifying -/

structure Verification where
  ledgers : Nat := 0
  /-- How many records could be decoded. -/
  valid : Nat := 0
  /-- How many records were folded into a segment table. -/
  replayed : Nat := 0
  errors : List String := []
  warnings : List String := []
  deriving Repr, DecidableEq

namespace Verification

def passed (found : Verification) : Bool := found.errors.isEmpty

def withErrors (found : Verification) (errors : List String) : Verification :=
  { found with errors := found.errors ++ errors }

/-- Notes an incomplete frame, which only the newest ledger may have. -/
def noteTorn (found : Verification) (scan : Scan) (newest : Bool) : Verification :=
  match scan.tornAt with
  | none => found
  | some offset =>
      let text := s!"{Ledgers.label scan.ledger}: incomplete frame at offset {offset}"
      if newest then { found with warnings := found.warnings ++ [text] } else found.withErrors [text]

/-- Notes a ledger that does not go on where the ledgers before it ended. -/
def noteGap (found : Verification) (scan : Scan) (last : Option SequenceNumber) : Verification :=
  match last, scan.first with
  | some last, some first =>
      if first ≠ last.next then
        found.withErrors [s!"{Ledgers.label scan.ledger}: starts at {SequenceNumber.text first} " ++
          s!"after {SequenceNumber.text last}"]
      else found
  | _, _ => found

/-- Decodes the records that a walk comes upon, up to an incomplete frame. -/
def decodeAll (id : LedgerId) :
    Verification → List (Except Error FrameItem) → Except ReportError Verification
  | found, [] => .ok found
  | _, .error cause :: _ => .error (.core cause)
  | found, .ok (.torn _) :: _ => .ok found
  | found, .ok (.frame offset record) :: rest =>
      match Record.decode record with
      | .ok _ => decodeAll id { found with valid := found.valid + 1 } rest
      | .error cause =>
          decodeAll id (found.withErrors [s!"{Ledgers.label id} offset {offset}: {cause.message}"]) rest

/--
Checks ledgers one after the other, when `last` is the sequence number that the
ledgers before them end with.  A ledger that cannot be scanned counts as one
error and is passed over.
-/
def check (ledgers : Ledgers) :
    Verification → (last : Option SequenceNumber) → List LedgerId → Except ReportError Verification
  | found, _, [] => .ok found
  | found, last, id :: rest => do
      let found := { found with ledgers := found.ledgers + 1 }
      let handle ← ledgers.reach id
      match Scan.run id handle ledgers.objects with
      | .error cause =>
          check ledgers (found.withErrors [s!"{Ledgers.label id}: {cause.message}"]) last rest
      | .ok scan =>
          let found := (found.noteTorn scan rest.isEmpty).noteGap scan last
          let found ← decodeAll id found (ledgers.walk handle)
          check ledgers found (scan.last.or last) rest

def withReplay (found : Verification) (ledgers : Ledgers) : Verification :=
  if found.passed then
    match Replay.run ledgers with
    | .ok replay => { found with replayed := replay.applied }
    | .error e => found.withErrors [s!"replay: {e.message}"]
  else found

def run (ledgers : Ledgers) (replay : Bool) : Except ReportError Verification := do
  let found ← check ledgers {} none ledgers.list
  return if replay then found.withReplay ledgers else found

def headLines (path : String) : List String := [s!"Verifying operation log at {path}", ""]

def lines (found : Verification) (replay : Bool) : List String :=
  [s!"Ledgers checked:  {found.ledgers}", s!"Valid records:    {found.valid}"] ++
  (if replay then [s!"Replayed records: {found.replayed}"] else []) ++
  found.warnings.map (fun text => s!"  warning: {text}") ++
  found.errors.map (fun text => s!"  error: {text}") ++
  ["", if found.passed then "✓ Log verification passed" else "✗ Log verification failed"]

end Verification
end TieredStore
