import TieredStore.Ledger.Walk
import TieredStore.Record.Decode

/-!
# Scanning a ledger

A scan walks a whole ledger, reads the header of every record and checks that
the sequence numbers are consecutive.  It summarises what the ledger holds.
-/

namespace TieredStore

structure Scan where
  ledger : LedgerId
  first : Option SequenceNumber := none
  last : Option SequenceNumber := none
  startsWithCheckpoint : Bool := false
  records : Nat := 0
  /-- Where the last complete frame ends. -/
  validSize : Nat := 0
  tornAt : Option Nat := none
  /-- How many records of each kind there are, in the order in which the kinds turned up. -/
  byKind : List (RecordKind × Nat) := []
  deriving Repr, DecidableEq

namespace Scan

def count (kind : RecordKind) : List (RecordKind × Nat) → List (RecordKind × Nat)
  | [] => [(kind, 1)]
  | (k, n) :: rest => if k = kind then (k, n + 1) :: rest else (k, n) :: count kind rest

def observe (scan : Scan) (header : Record.Header) : Except Error Scan :=
  let seen :=
    { scan with
      last := some header.seq
      records := scan.records + 1
      byKind := count header.kind scan.byKind }
  match scan.last with
  | some last =>
      if header.seq ≠ last.next then
        .error (.corrupt (.outOfSequence scan.ledger header.seq last))
      else .ok seen
  | none =>
      .ok { seen with
            first := some header.seq
            startsWithCheckpoint := header.kind = .checkpoint }

def take (scan : Scan) : Except Error FrameItem → Except Error Scan
  | .error e => .error e
  | .ok (.torn offset) => .ok { scan with tornAt := some offset }
  | .ok (.frame offset record) =>
      match Record.decodeHeader record with
      | .error cause => .error (.corrupt (.badRecord scan.ledger offset cause))
      | .ok header => scan.observe header

def run (ledger : LedgerId) (handle : Handle) (objects : Objects) : Except Error Scan := do
  let (items, walk) := (Walk.whole handle objects).items objects
  let scan ← items.foldlM take { ledger }
  return { scan with validSize := walk.position }

end Scan
end TieredStore
