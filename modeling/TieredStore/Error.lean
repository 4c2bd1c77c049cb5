import TieredStore.Identifier
import TieredStore.Record.Kind
import TieredStore.Text.Utf8

/-!
# Errors

Every failure is named by its cause.  The media raise `MediumError`, the record
format raises `EncodeError` and `DecodeError`, the segment table raises
`Refusal`; damage of the log is a `Corruption`, a call that the state does not
allow is a `Misuse`, and `Error` is any of them.  The wording of each cause is
its `message`.
-/

namespace TieredStore

/-! ## Media -/

/-- Why a medium turned an argument down. -/
inductive Rejection
  | ledgerExists (ledger : LedgerId) (path : Option String)
  | growsMemory (size target : Nat)
  | growsFile (path : String) (size target : Nat)
  | zeroInName
  deriving Repr, DecidableEq

def Rejection.message : Rejection → String
  | ledgerExists ledger none => s!"ledger {ledger} already exists"
  | ledgerExists ledger (some path) => s!"ledger {ledger} already exists at {path}"
  | growsMemory size target => s!"cannot grow a {size}-byte ledger to {target} by truncation"
  | growsFile path size target =>
      s!"cannot grow ledger {path} from {size} to {target} by truncation"
  | zeroInName => "file name contained an unexpected NUL byte"

/-- Why a medium did not carry out a call that it understood. -/
inductive Breakdown
  | appendFailed
  | flushFailed
  | crashedWriting
  | mediumGone
  | tierReadFailed
  | tierWriteFailed
  | tierConcatFailed
  | crashedInConcat
  | partialFrame
  deriving Repr, DecidableEq

def Breakdown.message : Breakdown → String
  | appendFailed => "simulated append failure"
  | flushFailed => "simulated flush failure"
  | crashedWriting => "simulated crash during write"
  | mediumGone => "medium is gone after simulated crash"
  | tierReadFailed => "simulated tier read failure"
  | tierWriteFailed => "simulated tier write failure"
  | tierConcatFailed => "simulated tier concat failure"
  | crashedInConcat => "simulated crash inside tier concat"
  | partialFrame => "newest ledger ends in a partial frame; reopen the log"

inductive MediumError
  | readPastEnd (offset length size : Nat)
  | notFound (object : String)
  | invalidOffset (name : String) (expected actual : Nat)
  | locked (directory : String)
  | rejected (reason : Rejection)
  | failed (reason : Breakdown)
  | endOfFile
  | system (description : String)
  deriving Repr, DecidableEq

def MediumError.message : MediumError → String
  | readPastEnd offset length size => s!"read of {length} bytes at {offset} exceeds size {size}"
  | notFound object => s!"object not found: {object}"
  | invalidOffset name expected actual =>
      s!"write to {name} at {actual}, but the object ends at {expected}"
  | locked directory => s!"ledger directory {directory} is locked by another process"
  | rejected reason => s!"I/O error: {reason.message}"
  | failed reason => s!"I/O error: {reason.message}"
  | endOfFile => "I/O error: failed to fill whole buffer"
  | system description => s!"I/O error: {description}"

/-! ## Records -/

inductive Field
  | type | version | sequenceNumber | segmentId | offset | clientId | eventNumber | data | length
  | parentSegmentId | batchSegmentId | parentOffset | name | nextSegmentId | segmentCount
  | segments | storageLength | startOffset | flags | parent | pendingMergeCount | pendingBatch
  | pendingOffset | pendingLength | clientEventCount | record
  deriving Repr, DecidableEq

def Field.text : Field → String
  | type => "type"
  | version => "version"
  | sequenceNumber => "sequence_number"
  | segmentId => "segment_id"
  | offset => "offset"
  | clientId => "client_id"
  | eventNumber => "event_number"
  | data => "data"
  | length => "length"
  | parentSegmentId => "parent_segment_id"
  | batchSegmentId => "batch_segment_id"
  | parentOffset => "parent_offset"
  | name => "name"
  | nextSegmentId => "next_segment_id"
  | segmentCount => "segment_count"
  | segments => "segments"
  | storageLength => "storage_length"
  | startOffset => "start_offset"
  | flags => "flags"
  | parent => "parent"
  | pendingMergeCount => "pending_merge_count"
  | pendingBatch => "pending_merge.batch"
  | pendingOffset => "pending_merge.offset"
  | pendingLength => "pending_merge.length"
  | clientEventCount => "client_event_count"
  | record => "record"

inductive Unwritable
  | notAssigned
  | tooLarge (value : Nat)
  | dataTooLong (count : Nat)
  | dataEndTooLarge
  | mergeEndTooLarge
  | equalsParent
  | emptyName
  | nameTooLong (count : Nat)
  | tooManySegments
  | recordTooLong
  deriving Repr, DecidableEq

def Unwritable.message : Unwritable → String
  | notAssigned => "not assigned"
  | tooLarge value => s!"{value} exceeds i64::MAX"
  | dataTooLong count => s!"{count} bytes exceeds 4294967295"
  | dataEndTooLarge => "offset + length exceeds i64::MAX"
  | mergeEndTooLarge => "parent_offset + length exceeds i64::MAX"
  | equalsParent => "equals parent_segment_id"
  | emptyName => "empty"
  | nameTooLong count => s!"{count} bytes exceeds 65535"
  | tooManySegments => "too many segments"
  | recordTooLong => "larger than 4 GiB"

/-- The first field of an operation that cannot be written, and why. -/
structure EncodeError where
  field : Field
  reason : Unwritable
  deriving Repr, DecidableEq

def EncodeError.message (e : EncodeError) : String :=
  "serialization precondition failed for `" ++ e.field.text ++ "`: " ++ e.reason.message

inductive DecodeError
  | unexpectedEnd (field : Field) (need have_ : Nat)
  | negative (field : Field) (value : Int)
  | invalidUtf8 (field : Field) (fault : Text.Utf8.Fault)
  | unknownType (tag : UInt8)
  | newerVersion (kind : RecordKind) (version : UInt8)
  | unknownFlags (flags : UInt8)
  | endTooLarge (field : Field) (length start : Nat)
  | trailing (count : Nat) (kind : RecordKind)
  | notBelowNext (segment : SegmentId) (next : Nat)
  | duplicateSegment (segment : SegmentId) (name : String)
  deriving Repr, DecidableEq

def DecodeError.message (e : DecodeError) : String :=
  "serialization error: " ++
    match e with
    | unexpectedEnd field need have_ =>
        s!"unexpected end of record reading {field.text}: need {need} bytes, have {have_}"
    | negative field value => s!"negative {field.text}: {value}"
    | invalidUtf8 field fault => s!"invalid UTF-8 in {field.text}: {fault.message}"
    | unknownType tag => s!"unknown operation type: {tag.toNat}"
    | newerVersion kind version =>
        s!"{kind.name} version {version.toNat} is newer than supported version {kind.version.toNat}"
    | unknownFlags flags => s!"unknown segment flags: 0x{Text.hex 2 flags.toNat}"
    | endTooLarge field length start =>
        s!"{field.text} of {length} bytes at offset {start} ends past i64::MAX"
    | trailing count kind => s!"{count} bytes trailing {kind.name} record"
    | notBelowNext segment next =>
        s!"checkpoint segment {SegmentId.text segment} not below next id {next}"
    | duplicateSegment segment name =>
        s!"duplicate checkpoint segment {SegmentId.text segment} ({name})"

/-! ## The segment table -/

inductive Refusal
  | segmentNotFound (segment : SegmentId)
  | segmentSealed (segment : SegmentId)
  | segmentNotSealed (segment : SegmentId)
  | segmentMerged (segment : SegmentId)
  | segmentExists (name : String)
  /-- The log put a merge where the parent does not end. -/
  | mergeOutOfOrder (parent : SegmentId) (recorded actual : Nat)
  | appendElsewhere (segment : SegmentId) (offset length : Nat)
  | appendTooLong (segment : SegmentId) (count : Nat)
  | sealElsewhere (segment : SegmentId) (length actual : Nat)
  | notBatchOf (batch parent : SegmentId)
  | mergeOfOtherLength (batch : SegmentId) (length actual : Nat)
  | mergeTooLong (batch parent : SegmentId)
  | emptyName
  | idInUse (segment : SegmentId)
  | parentIsBatch (segment : SegmentId)
  | truncateOutside (segment : SegmentId) (offset start length : Nat)
  deriving Repr, DecidableEq

namespace Refusal

def invalidText? : Refusal → Option String
  | appendElsewhere segment offset length =>
      some s!"append to {SegmentId.text segment} at offset {offset} but length is {length}"
  | appendTooLong segment count =>
      some s!"append of {count} bytes to {SegmentId.text segment} overflows its length"
  | sealElsewhere segment length actual =>
      some s!"seal of {SegmentId.text segment} at length {length} but length is {actual}"
  | notBatchOf batch parent =>
      some s!"{SegmentId.text batch} is not a batch of {SegmentId.text parent}"
  | mergeOfOtherLength batch length actual =>
      some s!"merge of {SegmentId.text batch} with length {length} but batch length is {actual}"
  | mergeTooLong batch parent =>
      some s!"merge of {SegmentId.text batch} overflows the length of {SegmentId.text parent}"
  | emptyName => some "segment name is empty"
  | idInUse segment => some s!"segment id {SegmentId.text segment} already in use"
  | parentIsBatch segment => some s!"{SegmentId.text segment} is itself a batch"
  | truncateOutside segment offset start length =>
      some s!"truncate {SegmentId.text segment} at {offset} outside [{start}, {length}]"
  | _ => none

def message (refusal : Refusal) : String :=
  match refusal with
  | segmentNotFound segment => s!"segment {SegmentId.text segment} not found"
  | segmentSealed segment => s!"segment {SegmentId.text segment} is sealed"
  | segmentNotSealed segment => s!"segment {SegmentId.text segment} is not sealed"
  | segmentMerged segment => s!"segment {SegmentId.text segment} has been merged"
  | segmentExists name => s!"segment already exists: {name}"
  | mergeOutOfOrder parent recorded actual =>
      s!"merge ordering violation on {SegmentId.text parent}: " ++
        s!"recorded offset {recorded}, parent length {actual}"
  | other => "invalid operation: " ++ other.invalidText?.getD ""

/-- Whether the log's own order is broken. -/
def fatal : Refusal → Bool
  | mergeOutOfOrder .. => true
  | _ => false

end Refusal

/-! ## The log and the store -/

inductive Corruption
  | badMagic (offset : Nat)
  | shortFrame
  | badRecord (ledger : LedgerId) (offset : Nat) (cause : DecodeError)
  | outOfSequence (ledger : LedgerId) (found last : SequenceNumber)
  | incompleteFrame (ledger : LedgerId) (offset : Nat)
  | incompleteOlder (ledger : LedgerId) (offset : Nat)
  | gap (ledger : LedgerId) (first last : SequenceNumber)
  | inapplicable (seq : SequenceNumber) (cause : Refusal)
  deriving Repr, DecidableEq

def Corruption.message (corruption : Corruption) : String :=
  "log corruption: " ++
    match corruption with
    | badMagic offset => s!"invalid frame magic at offset {offset}"
    | shortFrame => "frame shorter than its envelope"
    | badRecord ledger offset cause => s!"ledger {ledger} offset {offset}: {cause.message}"
    | outOfSequence ledger found last =>
        s!"ledger {ledger}: {SequenceNumber.text found} follows {SequenceNumber.text last}"
    | incompleteFrame ledger offset =>
        s!"ledger {ledger} has an incomplete frame at offset {offset}"
    | incompleteOlder ledger offset =>
        s!"ledger {ledger} has an incomplete frame at offset {offset} but is not the newest ledger"
    | gap ledger first last =>
        s!"ledger {ledger} starts at {SequenceNumber.text first} " ++
          s!"but the previous record is {SequenceNumber.text last}"
    | inapplicable seq cause => s!"{SequenceNumber.text seq} cannot be applied: {cause.message}"

inductive Misuse
  | noWritableLedger
  | notBeforeCheckpoint (seq : SequenceNumber)
  | readPastLength (segment : SegmentId) (offset length : Nat)
  | unresolvedEntry
  | failureReported
  | bytesNowhere (segment : SegmentId) (offset : Nat)
  | unflushedNotCached (segment : SegmentId) (offset : Nat)
  | concatenatedLength (batch parent : String) (produced expected : Nat)
  | uncheckpointable (segment : SegmentId) (stored length merges : Nat)
  | tierBehind (name : String) (actual recorded : Nat)
  deriving Repr, DecidableEq

def Misuse.message (misuse : Misuse) : String :=
  "invalid operation: " ++
    match misuse with
    | noWritableLedger => "log has no writable ledger"
    | notBeforeCheckpoint seq =>
        s!"{SequenceNumber.text seq} is not immediately before a checkpoint ledger"
    | readPastLength segment offset length =>
        s!"read of {SegmentId.text segment} at offset {offset} past length {length}"
    | unresolvedEntry => "previous read result entry has not been resolved"
    | failureReported => "entry failure already reported"
    | bytesNowhere segment offset =>
        s!"{SegmentId.text segment} offset {offset} is neither cached nor in storage"
    | unflushedNotCached segment offset =>
        s!"unflushed data of {SegmentId.text segment} at offset {offset} is not cached"
    | concatenatedLength batch parent produced expected =>
        s!"concatenating {batch} into {parent} produced length {produced}, expected {expected}"
    | uncheckpointable segment stored length merges =>
        s!"cannot checkpoint: {SegmentId.text segment} has {stored} of {length} " ++
          s!"bytes in storage and {merges} pending merges"
    | tierBehind name actual recorded =>
        s!"tier object {name} has {actual} bytes but {recorded} were flushed"

inductive Error
  | storage (cause : MediumError)
  | encode (cause : EncodeError)
  | decode (cause : DecodeError)
  | corrupt (cause : Corruption)
  | checksumMismatch (expected actual : UInt32)
  /-- The log's medium did not take a record; the record is not logged. -/
  | mediumFailure (cause : MediumError)
  | refused (cause : Refusal)
  | misuse (cause : Misuse)
  | truncated (segment : SegmentId) (offset start : Nat)
  | endOfSegment (segment : SegmentId) (offset : Nat)
  | timedOut (segment : SegmentId) (offset : Nat)
  /-- What would have delivered the answer is gone. -/
  | closed
  deriving Repr, DecidableEq

namespace Error

def message : Error → String
  | storage cause => s!"storage error: {cause.message}"
  | encode cause => cause.message
  | decode cause => cause.message
  | corrupt cause => cause.message
  | checksumMismatch expected actual =>
      s!"checksum mismatch: expected {Text.hex 8 expected.toNat}, got {Text.hex 8 actual.toNat}"
  | mediumFailure cause => s!"durable medium failure: {cause.message}"
  | refused cause => cause.message
  | misuse cause => cause.message
  | truncated segment offset start =>
      s!"segment {SegmentId.text segment} truncated: " ++
        s!"offset {offset} is before start offset {start}"
  | endOfSegment segment offset => s!"end of segment {SegmentId.text segment} reached at offset {offset}"
  | timedOut segment offset => s!"read on {SegmentId.text segment} at offset {offset} timed out"
  | closed => "store is closed"

/-- Whether the log or the state can no longer be trusted. -/
def fatal : Error → Bool
  | decode _ | corrupt _ | checksumMismatch .. => true
  | refused cause => cause.fatal
  | _ => false

end Error
end TieredStore
