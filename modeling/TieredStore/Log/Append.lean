import TieredStore.Log.Basic
import TieredStore.Record.Encode

/-!
# Adding to the log and dropping its start

An append that the medium does not take is rolled back, so that it leaves no
trace and its sequence number goes to the next record.  If the roll-back fails
too, the newest ledger ends in a piece of a frame; nothing is added behind it
until the log is opened again.
-/

namespace TieredStore

def Frame.ofOperation (seq : SequenceNumber) (op : Operation) : Except EncodeError Bytes := do
  encode (← Record.encode seq op)

namespace Log

def needsLedger (log : Log) (checkpoint : Bool) (size : Nat) : Bool :=
  match log.ledgers.getLast? with
  | none => true
  | some newest =>
      if log.writer.isNone then true
      else if newest.size = 0 then false
      else checkpoint || decide (log.maxLedgerSize < newest.size + size)

def nextLedger (log : Log) : LedgerId :=
  match log.ledgers.getLast? with
  | none => 1
  | some newest => newest.id + 1

def startLedger : EStateM MediumError Log Unit := do
  onWriter fun writer => do Ledgers.flush; return writer
  let id := (← get).nextLedger
  let writer ← onMedium (Ledgers.create id)
  modify fun log => { log with writer := some writer, ledgers := log.ledgers ++ [{ id }] }

def writeFrame (frame : Bytes) : EStateM MediumError Log Unit := do
  onWriter (Ledgers.append · frame)
  if (← get).syncOnAppend then
    onWriter fun writer => do Ledgers.flush; return writer

/-- Writes a frame that ends up whole in the newest ledger or, unless the log is poisoned, not at all. -/
def commitFrame (before : Nat) (frame : Bytes) : LogM Unit := fun log =>
  match (writeFrame frame).run log with
  | .ok () log => .ok () log
  | .error cause log =>
      match (onWriter (Ledgers.truncate · before)).run log with
      | .ok () log => .error (.mediumFailure cause) log
      | .error _ log => .error (.mediumFailure cause) { log with poisoned := true }

def updateNewest (change : LedgerInfo → LedgerInfo) : List LedgerInfo → List LedgerInfo
  | [] => []
  | [newest] => [change newest]
  | ledger :: rest => ledger :: updateNewest change rest

def append (op : Operation) : LogM SequenceNumber := do
  if (← get).poisoned then throw (.mediumFailure (.failed .partialFrame))
  let seq := (← get).nextSeq
  let frame ←
    match Frame.ofOperation seq op with
    | .ok frame => pure frame
    | .error cause => throw (.encode cause)
  if (← get).needsLedger op.isCheckpoint frame.length then
    failingAs .mediumFailure startLedger
  let before := ((← get).ledgers.getLast?.map (·.size)).getD 0
  if (← get).writer.isNone then throw (.misuse .noWritableLedger)
  commitFrame before frame
  modify fun log =>
    { log with
      ledgers := updateNewest
        (·.grown seq op.isCheckpoint (before + frame.length)) log.ledgers
      nextSeq := seq.next }
  return seq

/-! ## Dropping the start -/

def dropOldest (id : LedgerId) : LogM Unit := do
  failingAs .storage (onMedium (Ledgers.delete id))
  modify fun log => { log with ledgers := log.ledgers.tail }

/-- Drops all records up to `upto`, which has to be right before a checkpoint. -/
def truncate (upto : SequenceNumber) : LogM Unit := do
  let ledgers := (← get).ledgers
  match ledgers.findIdx? (fun l => l.first = some upto.next && l.startsWithCheckpoint) with
  | none => throw (.misuse (.notBeforeCheckpoint upto))
  | some index => (ledgers.take index).forM fun ledger => dropOldest ledger.id

end Log
end TieredStore
