import TieredStore.Operation

/-!
# Applying operations to the segment table

`Table.validate` says whether an operation fits the table, and `Table.apply`
carries out one that does.  Both look at nothing but the table and the
operation, so that the same log always gives the same table.  Two more changes
are not logged: how far the tier holds a segment, and that the tier has joined a
batch to its parent.
-/

namespace TieredStore
namespace Table

/-- Whether a range that starts at `start` ends at an offset a record can hold. -/
def endsInRange (start length : Nat) : Bool := start + length ≤ maxOffset

def validateAppend (table : Table) (id : SegmentId) (offset count : Nat) :
    Except Refusal Unit := do
  let segment ← table.require id
  segment.ensureWritable
  if offset ≠ segment.length then .error (.appendElsewhere id offset segment.length)
  else if !endsInRange offset count then .error (.appendTooLong id count)
  else .ok ()

def validateSeal (table : Table) (id : SegmentId) (length : Nat) : Except Refusal Unit := do
  let segment ← table.require id
  segment.ensureWritable
  if length ≠ segment.length then .error (.sealElsewhere id length segment.length)
  else .ok ()

def validateMerge (table : Table) (parentId batchId : SegmentId) (length offset : Nat) :
    Except Refusal Unit := do
  let parent ← table.require parentId
  let batch ← table.require batchId
  parent.ensureWritable
  if batch.merged then .error (.segmentMerged batch.id)
  else if batch.parent ≠ some parent.id then .error (.notBatchOf batch.id parent.id)
  else if !batch.sealed then .error (.segmentNotSealed batch.id)
  else if length ≠ batch.length then .error (.mergeOfOtherLength batch.id length batch.length)
  else if offset ≠ parent.length then .error (.mergeOutOfOrder parent.id offset parent.length)
  else if !endsInRange offset length then .error (.mergeTooLong batch.id parent.id)
  else .ok ()

def validateNew (table : Table) (id : SegmentId) (name : String) : Except Refusal Unit :=
  if name.isEmpty then .error .emptyName
  else if (table.lookup? name).isSome then .error (.segmentExists name)
  else if (table.get? id).isSome then .error (.idInUse id)
  else .ok ()

def validateBatch (table : Table) (batchId : SegmentId) (name : String) (parentId : SegmentId) :
    Except Refusal Unit := do
  let parent ← table.require parentId
  parent.ensureWritable
  if parent.isBatch then .error (.parentIsBatch parent.id)
  else table.validateNew batchId name

def validateTruncate (table : Table) (id : SegmentId) (offset : Nat) : Except Refusal Unit := do
  let segment ← table.require id
  if segment.merged then .error (.segmentMerged segment.id)
  else if offset < segment.startOffset ∨ segment.length < offset then
    .error (.truncateOutside segment.id offset segment.startOffset segment.length)
  else .ok ()

def validate (table : Table) : Operation → Except Refusal Unit
  | .append segment offset _ _ data => table.validateAppend segment offset data.length
  | .seal segment length => table.validateSeal segment length
  | .merge parent batch length offset => table.validateMerge parent batch length offset
  | .checkpoint _ => .ok ()
  | .create segment name => table.validateNew segment name
  | .createBatch batch name parent => table.validateBatch batch name parent
  | .truncate segment offset => table.validateTruncate segment offset

def perform (table : Table) : Operation → Table
  | .append segment _ client event data =>
      table.modify segment fun s =>
        { s with
          length := s.length + data.length
          clientEvents := s.clientEvents.insert client event }
  | .seal segment _ => table.modify segment ({ · with sealed := true })
  | .merge parent batch length offset =>
      (table.modify batch ({ · with merged := true })).modify parent fun s =>
        { s with
          pending := s.pending ++ [{ batch, offset, length }]
          length := s.length + length }
  | .checkpoint snapshot => snapshot
  | .create segment name => table.add { id := segment, name }
  | .createBatch batch name parent => table.add { id := batch, name, parent := some parent }
  | .truncate segment offset => table.modify segment ({ · with startOffset := offset })

def apply (table : Table) (op : Operation) : Except Refusal Table := do
  table.validate op
  return table.perform op

/-! ## Changes that are not logged -/

/-- Notes that the tier holds the first `length` bytes of a segment. -/
def setStorageLength (table : Table) (id : SegmentId) (length : Nat) : Table :=
  table.modify id fun s =>
    { s with storageLength := max s.storageLength (min length s.length) }

/--
Finishes a merge that the tier has carried out: the range is no longer pending,
the tier holds the parent up to its end, and the batch is gone.  Returns the
merge, or nothing if the parent has no such merge.
-/
def completeMerge? (table : Table) (parent batch : SegmentId) : Option (PendingMerge × Table) := do
  let segment ← table.get? parent
  let merge ← segment.pending.find? (·.batch = batch)
  let joined := table.modify parent fun s =>
    { s with
      pending := s.pending.eraseP (·.batch = batch)
      storageLength := max s.storageLength merge.stop }
  return (merge, { joined with segments := joined.segments.erase batch })

def creation (table : Table) (name : String) : Operation := .create table.nextId name

end Table
end TieredStore
