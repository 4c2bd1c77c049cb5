import TieredStore.Table.Basic
import TieredStore.Record.Kind
import TieredStore.Bytes

/-!
# Operations

An operation is one durable mutation of a container.  Where an append, a seal or
a merge lands is known only when its turn comes, so a caller states a request
and the store resolves it into the operation.
-/

namespace TieredStore

/-- One durable mutation. -/
inductive Operation
  /-- `data` is added to a segment that ends at `offset`. -/
  | append (segment : SegmentId) (offset : Nat) (client : ClientId) (event : Nat) (data : Bytes)
  /-- A segment of the given length accepts no more bytes. -/
  | seal (segment : SegmentId) (length : Nat)
  /-- A batch of the given length becomes part of its parent from `offset` on. -/
  | merge (parent batch : SegmentId) (length offset : Nat)
  /-- All segments are as in the table. -/
  | checkpoint (table : Table)
  | create (segment : SegmentId) (name : String)
  | createBatch (batch : SegmentId) (name : String) (parent : SegmentId)
  | truncate (segment : SegmentId) (offset : Nat)
  deriving DecidableEq

namespace Operation

def kind : Operation → RecordKind
  | .append .. => .append
  | .seal .. => .seal
  | .merge .. => .merge
  | .checkpoint _ => .checkpoint
  | .create .. => .create
  | .createBatch .. => .createBatch
  | .truncate .. => .truncate

/-- The segment that the operation changes, the parent for a merge. -/
def target? : Operation → Option SegmentId
  | .append segment .. => some segment
  | .seal segment _ => some segment
  | .merge parent .. => some parent
  | .checkpoint _ => none
  | .create segment _ => some segment
  | .createBatch batch .. => some batch
  | .truncate segment _ => some segment

def isCheckpoint : Operation → Bool
  | .checkpoint _ => true
  | _ => false

end Operation

/-! ## Requests -/

structure AppendRequest where
  segment : SegmentId
  client : ClientId
  event : Nat
  data : Bytes

def AppendRequest.resolve (request : AppendRequest) (offset : Nat) : Operation :=
  .append request.segment offset request.client request.event request.data

structure SealRequest where
  segment : SegmentId

def SealRequest.resolve (request : SealRequest) (length : Nat) : Operation :=
  .seal request.segment length

structure MergeRequest where
  batch : SegmentId
  parent : SegmentId

def MergeRequest.resolve (request : MergeRequest) (length offset : Nat) : Operation :=
  .merge request.parent request.batch length offset

end TieredStore
