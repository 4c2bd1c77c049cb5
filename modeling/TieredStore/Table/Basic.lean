import TieredStore.Segment

/-!
# The segment table

The table holds all segments of a container by id, and the id that the next
segment will get.  A segment is also found by its name; the operations on the
table keep names apart.
-/

namespace TieredStore

structure Table where
  segments : SortedMap SegmentId Segment := ∅
  nextId : SegmentId := 1
  deriving DecidableEq, Inhabited

namespace Table

def get? (table : Table) (id : SegmentId) : Option Segment := table.segments.get? id

def require (table : Table) (id : SegmentId) : Except Refusal Segment :=
  match table.get? id with
  | some segment => .ok segment
  | none => .error (.segmentNotFound id)

def list (table : Table) : List Segment := table.segments.values

def lookup? (table : Table) (name : String) : Option SegmentId :=
  (table.list.find? (·.name = name)).map (·.id)

def size (table : Table) : Nat := table.segments.size

def modify (table : Table) (id : SegmentId) (change : Segment → Segment) : Table :=
  { table with segments := table.segments.modify id change }

/-- Adds a segment and moves the next id past its id. -/
def add (table : Table) (segment : Segment) : Table :=
  { segments := table.segments.insert segment.id segment
    nextId := max table.nextId (segment.id + 1) }

/--
Adds a segment that a snapshot lists.  Its id has to be below the snapshot's
next id, and neither its id nor its name may be taken.
-/
def addListed (table : Table) (segment : Segment) : Except DecodeError Table :=
  if table.nextId ≤ segment.id then .error (.notBelowNext segment.id table.nextId)
  else if (table.lookup? segment.name).isSome || (table.get? segment.id).isSome then
    .error (.duplicateSegment segment.id segment.name)
  else .ok { table with segments := table.segments.insert segment.id segment }

def ofSegments (segments : List Segment) (nextId : SegmentId) : Except DecodeError Table :=
  segments.foldlM addListed { segments := ∅, nextId }

end Table
end TieredStore
