import TieredStore.Table.Apply

/-!
# Writing records

A record is the byte of its kind, the version of its layout, its sequence number
and the fields of the operation.  Integers are big-endian; sequence numbers, ids,
offsets and lengths take eight bytes of which the highest bit is clear.  A text
is its length in two bytes and its UTF-8, data is its length in four bytes and
the bytes, and a client id is its sixteen bytes.

`Record.check` finds the first field that does not fit; `Record.encode` writes
what passes it.
-/

namespace TieredStore
namespace Record

def headerSize : Nat := 10

def maxNameLength : Nat := 65535

def maxDataLength : Nat := 4294967295

def maxCount : Nat := 4294967295

/-! ## What can be written -/

def checkOffset (field : Field) (value : Nat) : Except EncodeError Unit :=
  if maxOffset < value then .error ⟨field, .tooLarge value⟩ else .ok ()

def checkId (field : Field) (id : Nat) : Except EncodeError Unit :=
  if id = 0 then .error ⟨field, .notAssigned⟩ else checkOffset field id

def checkName (name : String) : Except EncodeError Unit :=
  if name.isEmpty then .error ⟨.name, .emptyName⟩
  else if maxNameLength < name.utf8ByteSize then
    .error ⟨.name, .nameTooLong name.utf8ByteSize⟩
  else .ok ()

def checkPending (merge : PendingMerge) : Except EncodeError Unit := do
  checkId .pendingBatch merge.batch
  checkOffset .pendingOffset merge.offset
  checkOffset .pendingLength merge.length

def checkSegment (segment : Segment) : Except EncodeError Unit := do
  checkId .segmentId segment.id
  checkName segment.name
  checkOffset .length segment.length
  checkOffset .storageLength segment.storageLength
  checkOffset .startOffset segment.startOffset
  match segment.parent with
  | some parent => checkId .parent parent
  | none => .ok ()
  segment.pending.forM checkPending
  segment.clientEvents.values.forM (checkOffset .eventNumber)

def checkTable (table : Table) : Except EncodeError Unit := do
  checkOffset .nextSegmentId table.nextId
  if maxCount < table.size then .error ⟨.segments, .tooManySegments⟩
  table.list.forM checkSegment

def checkOperation : Operation → Except EncodeError Unit
  | .append segment offset _ event data => do
      checkId .segmentId segment
      checkOffset .offset offset
      checkOffset .eventNumber event
      if maxDataLength < data.length then .error ⟨.data, .dataTooLong data.length⟩
      if !Table.endsInRange offset data.length then .error ⟨.data, .dataEndTooLarge⟩
  | .seal segment length => do
      checkId .segmentId segment
      checkOffset .length length
  | .merge parent batch length offset => do
      checkId .parentSegmentId parent
      checkId .batchSegmentId batch
      if parent = batch then .error ⟨.batchSegmentId, .equalsParent⟩
      checkOffset .length length
      checkOffset .parentOffset offset
      if !Table.endsInRange offset length then .error ⟨.length, .mergeEndTooLarge⟩
  | .checkpoint table => checkTable table
  | .create segment name => do
      checkId .segmentId segment
      checkName name
  | .createBatch batch name parent => do
      checkId .batchSegmentId batch
      checkName name
      checkId .parentSegmentId parent
  | .truncate segment offset => do
      checkId .segmentId segment
      checkOffset .offset offset

/-- Whether an operation can be written under a sequence number; the first misfit otherwise. -/
def check (seq : SequenceNumber) (op : Operation) : Except EncodeError Unit := do
  checkId .sequenceNumber seq
  checkOperation op

/-! ## The bytes -/

def word (value : Nat) : Bytes := Bytes.ofNat 8 value

def text (value : String) : Bytes :=
  Bytes.ofNat 2 value.utf8ByteSize ++ Text.Utf8.encode value

def data (value : Bytes) : Bytes := Bytes.ofNat 4 value.length ++ value

def client (value : ClientId) : Bytes := Bytes.ofNat 16 value.val

/-- The byte whose two lowest bits say whether a segment is sealed and merged. -/
def flags (segment : Segment) : UInt8 :=
  (if segment.sealed then 1 else 0) ||| (if segment.merged then 2 else 0)

/-- The parent of a batch; for other segments the eight bytes are all ones. -/
def parent : Option SegmentId → Bytes
  | some id => word id
  | none => word maxWord

def pending (merge : PendingMerge) : Bytes :=
  word merge.batch ++ word merge.offset ++ word merge.length

def event (entry : ClientId × Nat) : Bytes := client entry.1 ++ word entry.2

def counted {α : Type} (item : α → Bytes) (items : List α) : Bytes :=
  Bytes.ofNat 4 items.length ++ items.flatMap item

/-- The part of a segment that every version of a snapshot holds. -/
def segmentBase (segment : Segment) : Bytes :=
  word segment.id ++ text segment.name ++ word segment.length ++ word segment.storageLength ++
    word segment.startOffset ++ [flags segment] ++ parent segment.parent ++
    counted pending segment.pending

def segment (s : Segment) : Bytes :=
  segmentBase s ++ counted event s.clientEvents.entries

def table (t : Table) : Bytes := word t.nextId ++ counted segment t.list

def payload : Operation → Bytes
  | .append segment offset by_ number bytes =>
      word segment ++ word offset ++ client by_ ++ word number ++ data bytes
  | .seal segment length => word segment ++ word length
  | .merge parent batch length offset =>
      word parent ++ word batch ++ word length ++ word offset
  | .checkpoint snapshot => table snapshot
  | .create segment name => word segment ++ text name
  | .createBatch batch name parent => word batch ++ text name ++ word parent
  | .truncate segment offset => word segment ++ word offset

def header (kind : RecordKind) (version : UInt8) (seq : SequenceNumber) : Bytes :=
  [kind.tag, version] ++ word seq

/-- The record of an operation that passes `check`. -/
def bytes (seq : SequenceNumber) (op : Operation) : Bytes :=
  header op.kind op.kind.version seq ++ payload op

/-- The record of an operation, or the first field that cannot be written. -/
def encode (seq : SequenceNumber) (op : Operation) : Except EncodeError Bytes := do
  check seq op
  return bytes seq op

/-- Adds the record of an operation to a buffer; on failure there is no new buffer. -/
def encodeOnto (buffer : Bytes) (seq : SequenceNumber) (op : Operation) :
    Except EncodeError Bytes := do
  return buffer ++ (← encode seq op)

end Record
end TieredStore
