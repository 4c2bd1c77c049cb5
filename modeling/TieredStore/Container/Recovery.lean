import TieredStore.Container.Basic
import TieredStore.Log.Reader

/-!
# Recovery

Recovery folds the records of the log, from the newest checkpoint on, into a
segment table, with the rules that live operations follow, and puts appended
bytes back into the cache.  The tier may be further than the log says, as its
progress is not logged: a merge whose range the parent's object covers has been
carried out, and every object may be longer than was noted.
-/

namespace TieredStore

structure RecoveryStats where
  start : SequenceNumber
  replayed : Nat
  merges : Nat
  deriving Repr, DecidableEq

namespace Container

variable {τ : Type}

def unfit (seq : SequenceNumber) (cause : Refusal) : Error :=
  if cause.fatal then .refused cause else .corrupt (.inapplicable seq cause)

def replayRecord (record : LogRecord) : ContainerM τ Unit := do
  let (seq, op) := record
  match (← get).table.apply op with
  | .error cause => throw (unfit seq cause)
  | .ok table =>
      modify ({ · with table })
      match op with
      | .append segment offset _ _ data => modify (put segment offset data)
      | _ => return

/-- Applies records up to the first that cannot be read or applied, and counts them. -/
def replay : (count : Nat) → List LogReader.Item → ContainerM τ Nat
  | count, [] => return count
  | _, .error e :: _ => throw e
  | count, .ok record :: rest => do
      replayRecord record
      replay (count + 1) rest

/-! ## What the tier has done -/

/-- A parent with pending merges, and the merges whose batches are there with the batches' names. -/
structure Joinable where
  parent : SegmentId
  parentName : String
  merges : List (PendingMerge × String)
  deriving Repr, DecidableEq

def joinables (table : Table) : List Joinable :=
  (table.list.filter (!·.pending.isEmpty)).map fun parent =>
    { parent := parent.id, parentName := parent.name,
      merges := parent.pending.filterMap fun merge =>
        (table.get? merge.batch).map fun batch => (merge, batch.name) }

variable [Tier τ]

/--
Finishes the merges of a parent whose ranges its object, of the given length,
covers, in order, and counts them.  A batch's object that is still there has been
left behind by a join that broke off.
-/
def finishCovered (parent : SegmentId) (length : Nat) :
    (count : Nat) → List (PendingMerge × String) → ContainerM τ Nat
  | count, [] => return count
  | count, (merge, batchName) :: rest => do
      if length < merge.stop then return count
      else
        if (← onTier (Tier.length batchName)).isSome then onTier (Tier.delete batchName)
        modify (finishMerge parent merge)
        finishCovered parent length (count + 1) rest

def finishJoined : (count : Nat) → List Joinable → ContainerM τ Nat
  | count, [] => return count
  | count, j :: rest => do
      let length := (← onTier (Tier.length j.parentName)).getD 0
      finishJoined (← finishCovered j.parent length count j.merges) rest

/--
Takes over how much of a segment the tier holds, not counting what lies in or
behind a pending merge.  The tier must not hold less than was noted.
-/
def reconcile (segment : Segment) : ContainerM τ Unit := do
  let actual := (← onTier (Tier.length segment.name)).getD 0
  if actual < segment.storageLength then
    throw (.misuse (.tierBehind segment.name actual segment.storageLength))
  let usable := match segment.pending.head? with
    | some merge => min actual merge.offset
    | none => actual
  if segment.storageLength < usable then
    modify fun c => { c with table := c.table.setStorageLength segment.id usable }

def markStored (segment : Segment) (c : Container τ) : Container τ :=
  dropUnreadable segment.id segment.storageLength
    { c with cache := c.cache.markFlushed segment.id segment.storageLength }

/-- Rebuilds an empty container from the log and from what the tier holds. -/
def recover (log : Log) : ContainerM τ RecoveryStats := do
  let start := log.latestCheckpoint?.getD .first
  let replayed ← replay 0 (log.records start)
  let merges ← finishJoined 0 (joinables (← get).table)
  (← get).table.list.forM reconcile
  let segments := (← get).table.list
  modify fun c => segments.foldl (fun c segment => markStored segment c) c
  return { start, replayed, merges }

end Container
end TieredStore
