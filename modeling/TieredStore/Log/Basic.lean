import TieredStore.Config
import TieredStore.Ledger.Directory
import TieredStore.Ledger.Scan

/-!
# The log

The log is a run of ledgers whose records carry consecutive sequence numbers.
Only the newest ledger grows.  A checkpoint is always the first record of its
ledger, so that everything before it can be dropped by dropping ledgers.
-/

namespace TieredStore

structure LedgerInfo where
  id : LedgerId
  first : Option SequenceNumber := none
  last : Option SequenceNumber := none
  startsWithCheckpoint : Bool := false
  /-- Where the last acknowledged frame ends. -/
  size : Nat := 0
  deriving Repr, DecidableEq

def LedgerInfo.ofScan (scan : Scan) : LedgerInfo :=
  { id := scan.ledger, first := scan.first, last := scan.last,
    startsWithCheckpoint := scan.startsWithCheckpoint, size := scan.validSize }

def LedgerInfo.grown (ledger : LedgerInfo) (seq : SequenceNumber) (checkpoint : Bool) (size : Nat) :
    LedgerInfo :=
  { ledger with
    size
    first := ledger.first.or (some seq)
    startsWithCheckpoint :=
      if ledger.first.isNone then checkpoint else ledger.startsWithCheckpoint
    last := some seq }

structure Log where
  medium : Ledgers
  ledgers : List LedgerInfo := []
  writer : Option Handle := none
  nextSeq : SequenceNumber := .first
  /-- A piece of a frame could not be cut off; nothing can be added any more. -/
  poisoned : Bool := false
  maxLedgerSize : Nat
  syncOnAppend : Bool
  deriving DecidableEq

abbrev LogM := EStateM Error Log

namespace Log

def lastOf (ledgers : List LedgerInfo) : Option SequenceNumber :=
  ledgers.reverse.findSome? (·.last)

def lastSeq? (log : Log) : Option SequenceNumber := lastOf log.ledgers

/-- The sequence number of the newest checkpoint that starts a ledger. -/
def latestCheckpoint? (log : Log) : Option SequenceNumber :=
  (log.ledgers.reverse.find? (·.startsWithCheckpoint)).bind (·.first)

def onMedium {α : Type} (call : LedgersM α) : EStateM MediumError Log α := fun log =>
  match call.run log.medium with
  | .ok a medium => .ok a { log with medium }
  | .error e medium => .error e { log with medium }

/-- A call that works on the newest ledger through the writer; nothing if there is none. -/
def onWriter (call : Handle → LedgersM Handle) : EStateM MediumError Log Unit := do
  match (← get).writer with
  | none => return
  | some writer =>
      let writer ← onMedium (call writer)
      modify ({ · with writer := some writer })

def failingAs {α : Type} (meaning : MediumError → Error) (call : EStateM MediumError Log α) :
    LogM α := fun log =>
  match call.run log with
  | .ok a log => .ok a log
  | .error cause log => .error (meaning cause) log

def flush : LogM Unit :=
  failingAs .storage (onWriter fun writer => do Ledgers.flush; return writer)

end Log
end TieredStore
