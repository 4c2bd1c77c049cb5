import TieredStore.Log.Basic
import TieredStore.Total

/-!
# Reading the log

A reader goes through the records of a log as it was when the reader was made:
it notes every ledger's size and reads no further.  Ledgers are opened when the
reader comes to them.  A record that cannot be decoded ends the reading.
-/

namespace TieredStore

abbrev LogRecord := SequenceNumber × Operation

structure LogReader where
  /-- The ledgers to come, and how many of their bytes count. -/
  coming : List (LedgerId × Nat) := []
  current : Option (LedgerId × Walk) := none
  /-- Earlier records are passed over. -/
  start : SequenceNumber
  finished : Bool := false
  deriving DecidableEq

namespace LogReader

abbrev Item := Except Error LogRecord

/-- The next record of a ledger that is not before `start`, among the next `fuel` frames. -/
def seek (id : LedgerId) (start : SequenceNumber) (objects : Objects) :
    (fuel : Nat) → Walk → Option Item × Walk
  | 0, walk => (none, walk)
  | fuel + 1, walk =>
      match walk.next objects with
      | (none, walk) => (none, walk)
      | (some (.error e), walk) => (some (.error e), walk)
      | (some (.ok (.torn offset)), walk) =>
          (some (.error (.corrupt (.incompleteFrame id offset))), walk)
      | (some (.ok (.frame offset record)), walk) =>
          match Record.decode record with
          | .error cause => (some (.error (.corrupt (.badRecord id offset cause))), walk)
          | .ok (header, op) =>
              if header.seq < start then seek id start objects fuel walk
              else (some (.ok (header.seq, op)), walk)

def seekCurrent (start : SequenceNumber) (objects : Objects) :
    Option (LedgerId × Walk) → Option (Item × LedgerId × Walk)
  | none => none
  | some (id, walk) =>
      match seek id start objects (walk.stop - walk.position + 2) walk with
      | (some item, walk) => some (item, id, walk)
      | (none, _) => none

def advance (start : SequenceNumber) (ledgers : Ledgers) :
    List (LedgerId × Nat) → Option (LedgerId × Walk) → Option Item × LogReader
  | [], current =>
      match seekCurrent start ledgers.objects current with
      | some (item, current) => (some item, { start, current := some current })
      | none => (none, { start })
  | (id, size) :: rest, current =>
      match seekCurrent start ledgers.objects current with
      | some (item, current) =>
          (some item, { start, coming := (id, size) :: rest, current := some current })
      | none =>
          match ledgers.attach id with
          | .error cause => (some (.error (.storage cause)), { start, coming := rest })
          | .ok handle => advance start ledgers rest (some (id, { handle, stop := size }))

/-- The next record or error.  Nothing follows the end or an error. -/
def next (reader : LogReader) (ledgers : Ledgers) : Option Item × LogReader :=
  if reader.finished then (none, reader)
  else
    match advance reader.start ledgers reader.coming reader.current with
    | (some (.ok record), reader) => (some (.ok record), reader)
    | (item, reader) => (item, { reader with finished := true })

def bound (reader : LogReader) : Nat :=
  total (reader.coming.map (·.2)) + ((reader.current.map (·.2.stop)).getD 0)

def itemsWithin (ledgers : Ledgers) : (fuel : Nat) → LogReader → List Item
  | 0, _ => []
  | fuel + 1, reader =>
      match reader.next ledgers with
      | (none, _) => []
      | (some item, reader) => item :: itemsWithin ledgers fuel reader

/-- All that is left to read, an error last if there is one. -/
def items (reader : LogReader) (ledgers : Ledgers) : List Item :=
  itemsWithin ledgers (reader.bound + 1) reader

end LogReader

def Log.readFrom (log : Log) (start : SequenceNumber) : LogReader :=
  let wanted (l : LedgerInfo) : Bool := l.size ≠ 0 && l.last.any (start ≤ ·)
  { start, coming := (log.ledgers.filter wanted).map fun l => (l.id, l.size) }

def Log.records (log : Log) (start : SequenceNumber) : List LogReader.Item :=
  (log.readFrom start).items log.medium

end TieredStore
