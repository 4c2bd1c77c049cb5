import TieredStore.Container.Basic

/-!
# Finding the bytes of a segment

The bytes of a segment are kept under the segment itself, except in the range of
a pending merge, where they are kept under the batch.  They are taken from the
cache if it has them and from the tier otherwise.  A batch can be joined to its
parent between the time its bytes were found in the tier and the time they are
read; then they are read out of the parent.
-/

namespace TieredStore

/-- Where the bytes of a segment from an offset on are kept in one piece. -/
structure Extent where
  source : Segment
  offset : Nat
  limit : Nat
  /-- The parent and the offset there, for bytes that are kept under a batch. -/
  fallback : Option (String × Nat) := none

/-- A read of the tier for a part of a segment. -/
structure FetchRequest where
  segment : SegmentId
  offset : Nat
  source : SegmentId
  sourceName : String
  sourceOffset : Nat
  length : Nat
  /-- The object and the offset to read if the source has been joined to its parent. -/
  fallback : Option (String × Nat) := none
  deriving Repr, DecidableEq

inductive Found
  | cached (data : Bytes)
  | stored (request : FetchRequest)
  deriving Repr, DecidableEq

namespace Container

variable {τ : Type}

def extent (table : Table) (segment : Segment) (offset : Nat) : Except Refusal Extent :=
  match segment.pendingAt? offset with
  | some merge => do
      let batch ← table.require merge.batch
      return { source := batch, offset := offset - merge.offset, limit := merge.stop - offset,
               fallback := some (segment.name, offset) }
  | none =>
      let stop := ((segment.pendingAfter? offset).map (·.offset)).getD segment.length
      .ok { source := segment, offset, limit := stop - offset }

/--
Finds at most `count` bytes of a segment from an offset below its length on.
One read of the tier asks for at most `maxRead` bytes, and for one at least.
-/
def lookup (segment : Segment) (offset count maxRead : Nat) : ContainerM τ Found := do
  match extent (← get).table segment offset with
  | .error cause => throw (.refused cause)
  | .ok place =>
      let count := min count place.limit
      match ← cached place.source.id place.offset count with
      | some data => return .cached data
      | none =>
          if place.source.storageLength ≤ place.offset then
            throw (.misuse (.bytesNowhere segment.id offset))
          else
            return .stored
              { segment := segment.id, offset, source := place.source.id,
                sourceName := place.source.name, sourceOffset := place.offset,
                length := min (min count (max maxRead 1)) (place.source.storageLength - place.offset),
                fallback := place.fallback }

/-- Reads the object of the source or, if there is none any more, that of the parent. -/
def readSource [Tier τ] (request : FetchRequest) : TierM τ Bytes := fun tier =>
  match (Tier.read request.sourceName request.sourceOffset request.length : TierM τ Bytes).run tier with
  | .error (.notFound name) tier =>
      match request.fallback with
      | some (parent, offset) => (Tier.read parent offset request.length : TierM τ Bytes).run tier
      | none => .error (.notFound name) tier
  | result => result

def ensureReadable (id : SegmentId) (offset : Nat) : ContainerM τ Unit := do
  match (← get).table.get? id with
  | some segment =>
      if offset < segment.startOffset then throw (.truncated id offset segment.startOffset)
  | none => return

def fetch [Tier τ] (request : FetchRequest) : ContainerM τ Bytes := do
  let data ← onTier (readSource request)
  ensureReadable request.segment request.offset
  if ((← get).table.get? request.source).isSome then
    modify (put request.source request.sourceOffset data)
  return data

def lookupWoken (id : SegmentId) (offset count maxRead : Nat) : ContainerM τ Found := do
  match (← get).table.require id with
  | .error cause => throw (.refused cause)
  | .ok segment =>
      ensureReadable id offset
      lookup segment offset count maxRead

end Container
end TieredStore
