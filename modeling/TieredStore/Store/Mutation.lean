import TieredStore.Store.Basic

/-!
# Changing a store

Every change is validated, logged, applied and only then acknowledged.  A change
that the log does not take leaves no trace.  Reads that wait for what a change
brings are woken.
-/

namespace TieredStore
namespace Store

variable {τ : Type}

/-! ## What follows a change -/

def wakeReaders (waiters : Waiters) : Operation → Waiters
  | .append segment offset _ _ data => waiters.notifyAppended segment (offset + data.length)
  | .seal segment _ => waiters.notifySealed segment
  | .merge parent batch length offset =>
      (waiters.notifyAppended parent (offset + length)).notifyMerged batch
  | _ => waiters

/-- Puts the bytes of an operation that has been logged into the cache and applies it. -/
def applyLogged (op : Operation) (c : Container τ) : Container τ :=
  let filled := match op with
    | .append segment offset _ _ data => c.put segment offset data
    | _ => c
  let applied := { filled with table := filled.table.perform op }
  match op with
  | .truncate segment offset =>
      match applied.table.get? segment with
      | some s =>
          { applied with cache := applied.cache.truncateBefore segment (min offset s.storageLength) }
      | none => applied
  | _ => applied

variable [Tier τ]

/-! ## Flushing and checkpoints -/

def flush : StoreM τ FlushStats := onContainer Container.flush

def ensureFlushed (table : Table) : Except Error Unit :=
  match table.list.find? (fun s => !s.pending.isEmpty || s.storageLength < s.length) with
  | none => .ok ()
  | some s => .error (.misuse (.uncheckpointable s.id s.storageLength s.length s.pending.length))

/-- Flushes and logs a snapshot of all segments; answers the sequence number of the snapshot. -/
def checkpoint : StoreM τ SequenceNumber := do
  discard flush
  let table := (← get).table
  match ensureFlushed table with
  | .error e => throw e
  | .ok () =>
      let seq ← onLog (Log.append (.checkpoint table))
      modify ({ · with opsSinceCheckpoint := 0 })
      return seq

/-- Drops all records before the newest checkpoint; answers the last of them, if there are any. -/
def truncateLog : StoreM τ (Option SequenceNumber) := do
  let log := (← get).log
  match log.latestCheckpoint?, log.ledgers.findSome? (·.first) with
  | some checkpoint, some first =>
      if checkpoint ≤ first then return none
      else
        onLog (Log.truncate checkpoint.prev)
        return some checkpoint.prev
  | _, _ => return none

/-! ## Carrying out an operation -/

/-- Writes a checkpoint if one is due; one that fails is tried again after the next operation. -/
def checkpointIfDue : StoreM τ Unit := do
  let store ← get
  let every := store.config.checkpointEveryOps
  if 0 < every ∧ every ≤ store.opsSinceCheckpoint then attempt checkpoint

def execute (op : Operation) : StoreM τ Unit := do
  match (← get).table.validate op with
  | .error cause => throw (.refused cause)
  | .ok () =>
      discard (onLog (Log.append op))
      modify fun store =>
        { store with
          container := applyLogged op store.container
          waiters := wakeReaders store.waiters op
          opsSinceCheckpoint := store.opsSinceCheckpoint + 1 }
      checkpointIfDue

def create (name : String) : StoreM τ SegmentId := do
  let id := (← get).table.nextId
  execute (.create id name)
  return id

/-- What stands between the name of a parent and the number of a batch in the batch's name. -/
def batchMark : String := "#batch."

/-- The name of a batch, which ends in a number that nobody can guess. -/
def batchName (parent : String) (number : Word128) : String :=
  parent ++ batchMark ++ Text.hex 32 number.val

def createBatch (parent : SegmentId) (number : Word128) : StoreM τ SegmentId := do
  let segment ← require parent
  let id := (← get).table.nextId
  execute (.createBatch id (batchName segment.name number) parent)
  return id

def append (request : AppendRequest) : StoreM τ Nat := do
  let segment ← require request.segment
  execute (request.resolve segment.length)
  return segment.length

def sealSegment (id : SegmentId) : StoreM τ Nat := do
  let segment ← require id
  execute ((SealRequest.mk id).resolve segment.length)
  return segment.length

def merge (batch parent : SegmentId) : StoreM τ Nat := do
  let added ← require batch
  let grown ← require parent
  execute ((MergeRequest.mk batch parent).resolve added.length grown.length)
  return grown.length

def truncate (id : SegmentId) (offset : Nat) : StoreM τ Unit := execute (.truncate id offset)

end Store
end TieredStore
