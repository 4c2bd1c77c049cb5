/-!
# Kinds of log records

A record says with its first byte which kind of mutation it holds, and with its
second in which version of that kind's layout it is written.
-/

namespace TieredStore

inductive RecordKind
  | append
  | seal
  | merge
  | checkpoint
  | create
  | createBatch
  | truncate
  deriving Repr, DecidableEq

namespace RecordKind

def tag : RecordKind → UInt8
  | .append => 1
  | .seal => 2
  | .merge => 3
  | .checkpoint => 4
  | .create => 5
  | .createBatch => 6
  | .truncate => 7

def ofTag? (tag : UInt8) : Option RecordKind :=
  if tag = 1 then some .append
  else if tag = 2 then some .seal
  else if tag = 3 then some .merge
  else if tag = 4 then some .checkpoint
  else if tag = 5 then some .create
  else if tag = 6 then some .createBatch
  else if tag = 7 then some .truncate
  else none

/-- The layout version that is written; every version up to it can be read. -/
def version : RecordKind → UInt8
  | .checkpoint => 1
  | _ => 0

def name : RecordKind → String
  | .append => "Append"
  | .seal => "Seal"
  | .merge => "MergeBatch"
  | .checkpoint => "MetadataCheckpoint"
  | .create => "SegmentMap"
  | .createBatch => "BatchMap"
  | .truncate => "TruncateSegment"

theorem ofTag?_tag (kind : RecordKind) : ofTag? kind.tag = some kind := by
  cases kind <;> rfl

theorem tag_of_ofTag? {byte : UInt8} {kind : RecordKind} (h : ofTag? byte = some kind) :
    kind.tag = byte := by
  unfold ofTag? at h
  repeat' split at h
  all_goals first
    | (cases h; rename_i eq; exact eq.symm)
    | cases h

end RecordKind
end TieredStore
