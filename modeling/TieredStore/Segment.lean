import TieredStore.Identifier
import TieredStore.SortedMap
import TieredStore.Error

/-!
# Segments

A segment is an append-only byte string of which the table keeps the length,
how much of it the tier holds, and where its readable part starts.  A batch is a
segment that belongs to a parent and is merged into it in one step; until the
tier has joined the two, the parent lists the merge as pending and the bytes of
the merged range live under the batch.
-/

namespace TieredStore

/-- A range of a parent whose bytes still live under a merged batch. -/
structure PendingMerge where
  batch : SegmentId
  /-- Where the batch starts in the parent. -/
  offset : Nat
  length : Nat
  deriving Repr, DecidableEq

namespace PendingMerge

/-- Where the range ends in the parent; the byte there is no longer part of it. -/
def stop (merge : PendingMerge) : Nat := merge.offset + merge.length

def covers (merge : PendingMerge) (offset : Nat) : Bool :=
  merge.offset ≤ offset && offset < merge.stop

end PendingMerge

structure Segment where
  id : SegmentId
  name : String
  length : Nat := 0
  /-- How many bytes, from the start, are in the tier. -/
  storageLength : Nat := 0
  /-- The first readable offset. -/
  startOffset : Nat := 0
  sealed : Bool := false
  merged : Bool := false
  parent : Option SegmentId := none
  /-- Merged ranges that the tier has not joined yet, in the order of the merges. -/
  pending : List PendingMerge := []
  /-- The number of the last event of each client that appended. -/
  clientEvents : SortedMap ClientId Nat := ∅
  deriving DecidableEq

namespace Segment

def isBatch (segment : Segment) : Bool := segment.parent.isSome

def pendingAt? (segment : Segment) (offset : Nat) : Option PendingMerge :=
  segment.pending.find? (·.covers offset)

def pendingAfter? (segment : Segment) (offset : Nat) : Option PendingMerge :=
  segment.pending.find? (offset < ·.offset)

def lastEvent? (segment : Segment) (client : ClientId) : Option Nat :=
  segment.clientEvents.get? client

def ensureWritable (segment : Segment) : Except Refusal Unit :=
  if segment.merged then .error (.segmentMerged segment.id)
  else if segment.sealed then .error (.segmentSealed segment.id)
  else .ok ()

end Segment
end TieredStore
