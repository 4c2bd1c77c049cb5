import TieredStore.Container.Basic
import TieredStore.Total

/-!
# Flushing to the tier

A flush copies every segment from the cache to the tier, up to its first pending
merge.  Once the tier holds a parent up to a pending merge and the whole batch,
the tier joins the two and the merge is finished.  Joining makes more of a
parent ready to be copied, so this goes on until nothing is left to do.  None of
it is logged.
-/

namespace TieredStore

structure FlushStats where
  bytes : Nat := 0
  segments : Nat := 0
  merges : Nat := 0
  deriving Repr, DecidableEq, Inhabited

structure FlushTarget where
  id : SegmentId
  name : String
  start : Nat
  stop : Nat
  deriving Repr, DecidableEq

structure MergeTarget where
  parent : SegmentId
  parentName : String
  batchName : String
  merge : PendingMerge
  deriving Repr, DecidableEq

namespace Table

def flushTarget? (segment : Segment) : Option FlushTarget :=
  let stop := (segment.pending.head?.map (·.offset)).getD segment.length
  if segment.storageLength < stop then
    some { id := segment.id, name := segment.name, start := segment.storageLength, stop }
  else none

def flushTargets (table : Table) : List FlushTarget := table.list.filterMap flushTarget?

/-- The first pending merge of a segment, if the tier can carry it out. -/
def mergeTarget? (table : Table) (parent : Segment) : Option MergeTarget := do
  let merge ← parent.pending.head?
  let batch ← table.get? merge.batch
  if parent.storageLength = merge.offset ∧ batch.storageLength = batch.length then
    some { parent := parent.id, parentName := parent.name, batchName := batch.name, merge }
  else none

def mergeTargets (table : Table) : List MergeTarget := table.list.filterMap table.mergeTarget?

/-- Bounds the rounds of a flush: each copies a byte or finishes a merge, except the last. -/
def unflushed (table : Table) : Nat :=
  total (table.list.map fun s => s.length - s.storageLength + s.pending.length)

end Table

namespace Container

variable {τ : Type} [Tier τ]

def ensureObject (name : String) : ContainerM τ Unit := do
  if (← onTier (Tier.length name)).isNone then
    discard (onTier (Tier.write name 0 []))

/--
Copies a segment from the cache to its object, block by block, from `offset` to
`stop`, and answers where the object then ends.  Every block has a byte.
-/
def copyOut (id : SegmentId) (name : String) (stop : Nat) :
    (fuel offset : Nat) → ContainerM τ Nat
  | 0, offset => return offset
  | fuel + 1, offset => do
      if offset < stop then
        match ← cached id offset (stop - offset) with
        | none => throw (.misuse (.unflushedNotCached id offset))
        | some block => copyOut id name stop fuel (← onTier (Tier.write name offset block))
      else return offset

def flushSegment (target : FlushTarget) : ContainerM τ Nat := do
  if target.start = 0 then ensureObject target.name
  let stored ← copyOut target.id target.name target.stop (target.stop - target.start) target.start
  modify (noteStored target.id stored)
  return stored - target.start

/--
Joins a batch to its parent in the tier and answers the length of the parent's
object.  If the parent's object reaches that far already, a join has broken off
before it dropped the batch.
-/
def joinObjects (target : MergeTarget) : ContainerM τ Nat := do
  let batch ← onTier (Tier.length target.batchName)
  let join : ContainerM τ Nat := do
    if batch.isNone then discard (onTier (Tier.write target.batchName 0 []))
    onTier (Tier.concat target.parentName target.batchName)
  match ← onTier (Tier.length target.parentName) with
  | none => join
  | some length =>
      if target.merge.stop ≤ length then
        if batch.isSome then onTier (Tier.delete target.batchName)
        return length
      else join

def carryOut (target : MergeTarget) : ContainerM τ Unit := do
  let length ← joinObjects target
  if length ≠ target.merge.stop then
    throw (.misuse
      (.concatenatedLength target.batchName target.parentName length target.merge.stop))
  modify (finishMerge target.parent target.merge)

def flushSegments : FlushStats → List FlushTarget → ContainerM τ FlushStats
  | stats, [] => return stats
  | stats, target :: rest => do
      let written ← flushSegment target
      let stats :=
        if written = 0 then stats
        else { stats with bytes := stats.bytes + written, segments := stats.segments + 1 }
      flushSegments stats rest

def carryOutAll : FlushStats → List MergeTarget → ContainerM τ FlushStats
  | stats, [] => return stats
  | stats, target :: rest => do
      carryOut target
      carryOutAll { stats with merges := stats.merges + 1 } rest

/-- Rounds of a flush until one changes nothing. -/
def flushRounds : (fuel : Nat) → FlushStats → ContainerM τ FlushStats
  | 0, stats => return stats
  | fuel + 1, stats => do
      let copied ← flushSegments stats (← get).table.flushTargets
      let joined ← carryOutAll copied (← get).table.mergeTargets
      if joined = stats then return stats else flushRounds fuel joined

def flush : ContainerM τ FlushStats := do
  flushRounds ((← get).table.unflushed + 1) {}

end Container
end TieredStore
