import TieredStore.Record.Encode

/-!
# Reading records

A reader takes fields off the front of a byte string.  It never looks past the
bytes it was given; a failure says what is wrong and how many bytes had not been
taken by then.  `Record.decode` accepts a byte string only if one record takes
all of it.
-/

namespace TieredStore
namespace Record

/-- A failed read: its cause, and the bytes that had not been taken. -/
structure Stuck where
  cause : DecodeError
  rest : Bytes
  deriving Repr, DecidableEq

/-- Takes a value off the front of a byte string. -/
abbrev Reader := StateT Bytes (Except Stuck)

namespace Reader

def fail {α : Type} (cause : DecodeError) : Reader α := fun rest => .error ⟨cause, rest⟩

def take (field : Field) (count : Nat) : Reader Bytes := fun rest =>
  let taken := rest.take count
  if taken.length = count then .ok (taken, rest.drop count)
  else .error ⟨.unexpectedEnd field count rest.length, rest⟩

def number (field : Field) (width : Nat) : Reader Nat := do
  return Bytes.toNat (← take field width)

def byte (field : Field) : Reader UInt8 := do
  return UInt8.ofNat (← number field 1)

/-- The number that eight bytes stand for when their highest bit is a sign. -/
def signed (raw : Nat) : Int :=
  if raw ≤ maxOffset then .ofNat raw else .subNatNat raw (maxWord + 1)

def nonNegative (field : Field) (raw : Nat) : Reader Nat :=
  if raw ≤ maxOffset then pure raw else fail (.negative field (signed raw))

def word (field : Field) : Reader Nat := do
  nonNegative field (← number field 8)

def client (field : Field) : Reader ClientId := do
  return Fin.ofNat _ (← number field 16)

def text (field : Field) : Reader String := do
  let raw ← take field (← number field 2)
  match Text.Utf8.decode raw with
  | .ok value => return value
  | .error fault => fail (.invalidUtf8 field fault)

def data (field : Field) : Reader Bytes := do
  take field (← number field 4)

def repeated {α : Type} (item : Reader α) : Nat → Reader (List α)
  | 0 => return []
  | count + 1 => do
      let first ← item
      let rest ← repeated item count
      return first :: rest

def counted {α : Type} (field : Field) (item : Reader α) : Reader (List α) := do
  repeated item (← number field 4)

/-- Takes the flags of a segment: whether it is sealed, and whether it is merged. -/
def flags : Reader (Bool × Bool) := do
  let raw ← byte .flags
  if raw &&& 0xFC ≠ 0 then fail (.unknownFlags raw)
  else return (raw &&& 1 ≠ 0, raw &&& 2 ≠ 0)

/-- Takes the parent of a segment; eight bytes of ones stand for none. -/
def parent : Reader (Option SegmentId) := do
  let raw ← number .parent 8
  if raw = maxWord then return none
  else return some (← nonNegative .parent raw)

def pending : Reader PendingMerge := do
  return { batch := ← word .pendingBatch, offset := ← word .pendingOffset,
           length := ← word .pendingLength }

def event : Reader (ClientId × Nat) := do
  return (← client .clientId, ← word .eventNumber)

/-- Takes a segment of a snapshot.  Version zero of a snapshot holds no client events. -/
def segment (version : UInt8) : Reader Segment := do
  let id ← word .segmentId
  let name ← text .name
  let length ← word .length
  let storageLength ← word .storageLength
  let startOffset ← word .startOffset
  let (isSealed, merged) ← flags
  let parent ← parent
  let pending ← counted .pendingMergeCount pending
  let events ← if version = 0 then pure [] else counted .clientEventCount event
  return { id, name, length, storageLength, startOffset, «sealed» := isSealed, merged, parent,
           pending, clientEvents := SortedMap.ofList events }

def table (version : UInt8) : Reader Table := do
  let nextId ← word .nextSegmentId
  let segments ← counted .segmentCount (segment version)
  match Table.ofSegments segments nextId with
  | .ok table => return table
  | .error cause => fail cause

/-- Fails if a range does not end at an offset that a record can hold. -/
def ensureInRange (field : Field) (length start : Nat) : Reader Unit :=
  if Table.endsInRange start length then pure () else fail (.endTooLarge field length start)

def payload (kind : RecordKind) (version : UInt8) : Reader Operation :=
  match kind with
  | .append => do
      let segment ← word .segmentId
      let offset ← word .offset
      let client ← client .clientId
      let event ← word .eventNumber
      let data ← data .data
      ensureInRange .data data.length offset
      return .append segment offset client event data
  | .seal => return .seal (← word .segmentId) (← word .length)
  | .merge => do
      let parent ← word .parentSegmentId
      let batch ← word .batchSegmentId
      let length ← word .length
      let offset ← word .parentOffset
      ensureInRange .length length offset
      return .merge parent batch length offset
  | .checkpoint => return .checkpoint (← table version)
  | .create => return .create (← word .segmentId) (← text .name)
  | .createBatch => do
      let batch ← word .batchSegmentId
      let name ← text .name
      let parent ← word .parentSegmentId
      return .createBatch batch name parent
  | .truncate => return .truncate (← word .segmentId) (← word .offset)

end Reader

structure Header where
  kind : RecordKind
  version : UInt8
  seq : SequenceNumber
  deriving Repr, DecidableEq

def Reader.header : Reader Header := do
  let tag ← byte .type
  match RecordKind.ofTag? tag with
  | none => fail (.unknownType tag)
  | some kind =>
      let version ← byte .version
      if kind.version < version then fail (.newerVersion kind version)
      else return { kind, version, seq := ← word .sequenceNumber }

def Reader.record : Reader (Header × Operation) := do
  let header ← Reader.header
  let op ← payload header.kind header.version
  return (header, op)

/-- The record that takes all of a byte string. -/
def decode (bytes : Bytes) : Except DecodeError (Header × Operation) :=
  match Reader.record bytes with
  | .error stuck => .error stuck.cause
  | .ok ((header, op), rest) =>
      if rest.isEmpty then .ok (header, op) else .error (.trailing rest.length header.kind)

def decodeHeader (bytes : Bytes) : Except DecodeError Header :=
  match Reader.header bytes with
  | .error stuck => .error stuck.cause
  | .ok (header, _) => .ok header

end Record
end TieredStore
