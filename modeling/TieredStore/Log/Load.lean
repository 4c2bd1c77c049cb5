import TieredStore.Log.Basic

/-!
# Opening the log

Opening scans every ledger in order.  Only the newest may end inside a frame,
which a crash has left there and which is cut off; and the sequence numbers have
to go on from ledger to ledger.
-/

namespace TieredStore
namespace Log

abbrev LoadM := EStateM Error Ledgers

def LoadM.call {α : Type} (call : LedgersM α) : LoadM α := fun ledgers =>
  match call.run ledgers with
  | .ok a ledgers => .ok a ledgers
  | .error cause ledgers => .error (.storage cause) ledgers

def LoadM.attach (id : LedgerId) : LoadM Handle := do
  match (← get).attach id with
  | .ok handle => return handle
  | .error cause => throw (.storage cause)

def LoadM.scan (id : LedgerId) : LoadM Scan := do
  let handle ← attach id
  match Scan.run id handle (← get).objects with
  | .ok scan => return scan
  | .error e => throw e

def cutTail (id : LedgerId) (validSize : Nat) : LoadM Unit := do
  let handle ← LoadM.attach id
  discard (LoadM.call (Ledgers.truncate handle validSize))
  LoadM.call Ledgers.flush

def settleTail (scan : Scan) (newest : Bool) : LoadM Unit :=
  match scan.tornAt with
  | none => return
  | some offset =>
      if newest then cutTail scan.ledger scan.validSize
      else throw (.corrupt (.incompleteOlder scan.ledger offset))

/-- Refuses a ledger that does not go on where the ledgers before it ended. -/
def ensureContinues (known : List LedgerInfo) (scan : Scan) : Except Error Unit :=
  match lastOf known, scan.first with
  | some last, some first =>
      if first ≠ last.next then .error (.corrupt (.gap scan.ledger first last)) else .ok ()
  | _, _ => .ok ()

def loadLedger (known : List LedgerInfo) (id : LedgerId) (newest : Bool) : LoadM LedgerInfo := do
  let scan ← LoadM.scan id
  settleTail scan newest
  match ensureContinues known scan with
  | .ok () => return .ofScan scan
  | .error e => throw e

def loadLedgers (known : List LedgerInfo) : List LedgerId → LoadM (List LedgerInfo)
  | [] => return known
  | id :: rest => do
      let info ← loadLedger known id rest.isEmpty
      loadLedgers (known ++ [info]) rest

def loadWriter : List LedgerId → LoadM (Option Handle)
  | [] => return none
  | ids@(_ :: _) => do return some (← LoadM.attach (ids.getLast (by simp [*])))

def loadAll : LoadM (List LedgerInfo × Option Handle) := do
  let ids := (← get).list
  let ledgers ← loadLedgers [] ids
  return (ledgers, ← loadWriter ids)

def nextAfter (ledgers : List LedgerInfo) : SequenceNumber :=
  match lastOf ledgers with
  | some last => last.next
  | none => .first

/-- Opens the log of a directory.  A failure leaves the directory as it then is. -/
def load (config : Config) (medium : Ledgers) : Except (Error × Ledgers) Log :=
  match loadAll.run medium with
  | .error e medium => .error (e, medium)
  | .ok (ledgers, writer) medium =>
      .ok { medium, ledgers, writer, nextSeq := nextAfter ledgers,
            maxLedgerSize := config.maxLedgerSize, syncOnAppend := config.syncOnAppend }

/-- Takes the lock of a directory and opens its log.  A failure gives the lock back. -/
def openIn (config : Config) (medium : Ledgers) : Except (Error × Ledgers) Log :=
  match Ledgers.acquire.run medium with
  | .error cause medium => .error (.storage cause, medium)
  | .ok () medium =>
      match load config medium with
      | .error (e, medium) => .error (e, medium.release)
      | .ok log => .ok log

end Log
end TieredStore
