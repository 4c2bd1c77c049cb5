import TieredStore.Record.Decode
import TieredStore.Proofs.Map.Entries

/-!
# How a snapshot lists its segments

A snapshot is read into sorted maps, which forget the order in which it listed
the segments and the clients of each segment.  The listing of a snapshot keeps
that order.  A segment is read in two steps, what every version of a snapshot
holds and then the client events, so that the listing and the table are read
from the same fields.
-/

namespace TieredStore
namespace Record

/-- A segment of a snapshot with its client events as they are listed. -/
structure ListedSegment where
  base : Segment
  events : List (ClientId × Nat)
  deriving DecidableEq

namespace ListedSegment

/-- The segment that is listed; of the events of one client the last one counts. -/
def segment (item : ListedSegment) : Segment :=
  { item.base with clientEvents := SortedMap.ofList item.events }

def of (segment : Segment) : ListedSegment :=
  ⟨{ segment with clientEvents := ∅ }, segment.clientEvents.entries⟩

def bytes (item : ListedSegment) : Bytes :=
  segmentBase item.base ++ counted event item.events

@[simp] theorem segment_id (item : ListedSegment) : item.segment.id = item.base.id := rfl

@[simp] theorem segment_of (segment : Segment) : (of segment).segment = segment := by
  show { segment with clientEvents := SortedMap.ofList segment.clientEvents.entries } = segment
  rw [SortedMap.ofList_entries]

@[simp] theorem bytes_of (segment : Segment) : (of segment).bytes = Record.segment segment := rfl

end ListedSegment

/-- The segments are listed in the order of their ids, and the clients of each in theirs. -/
structure Ascending (items : List ListedSegment) : Prop where
  segments : items.Pairwise (fun a b => a.base.id < b.base.id)
  clients : ∀ item ∈ items, item.events.Pairwise (fun a b => a.1 < b.1)

instance (items : List ListedSegment) : Decidable (Ascending items) :=
  decidable_of_iff (items.Pairwise (fun a b => a.base.id < b.base.id) ∧
      ∀ item ∈ items, item.events.Pairwise (fun a b => a.1 < b.1))
    ⟨fun h => ⟨h.1, h.2⟩, fun h => ⟨h.segments, h.clients⟩⟩

namespace Reader

def listedSegment : Reader ListedSegment := do
  return ⟨← segment 0, ← counted .clientEventCount event⟩

def listing : Reader (SegmentId × List ListedSegment) := do
  return (← word .nextSegmentId, ← counted .segmentCount listedSegment)

theorem segment_one : Reader.segment 1 = ListedSegment.segment <$> listedSegment := by
  simp only [Reader.segment, listedSegment, ListedSegment.segment, map_eq_pure_bind, bind_assoc,
    pure_bind, if_true, if_neg (show ¬(1 : UInt8) = 0 by decide)]

theorem repeated_map {α β : Type} (change : α → β) (item : Reader α) :
    ∀ count, repeated (change <$> item) count = List.map change <$> repeated item count
  | 0 => by simp [repeated]
  | count + 1 => by
      simp only [repeated, repeated_map change item count, bind_map_left, map_bind, map_pure,
        List.map_cons]

theorem counted_map {α β : Type} (field : Field) (change : α → β) (item : Reader α) :
    counted field (change <$> item) = List.map change <$> counted field item := by
  simp only [counted, repeated_map, map_bind]

theorem table_one : Reader.table 1 = (do
    let (nextId, items) ← listing
    match Table.ofSegments (items.map ListedSegment.segment) nextId with
    | .ok table => return table
    | .error cause => fail cause) := by
  unfold Reader.table
  rw [segment_one, counted_map]
  simp only [listing, bind_assoc, pure_bind]
  apply bind_congr
  intro nextId
  exact (bind_map_left _ _ _).trans (bind_congr fun _ => rfl)

end Reader

/-- What a byte string lists if it is a snapshot of version one. -/
def listing? (written : Bytes) : Option (List ListedSegment) :=
  match (do let _ ← Reader.header; Reader.listing) written with
  | .ok ((_, items), []) => some items
  | _ => none

theorem listing?_eq_some {written body : Bytes} {header : Header} {nextId : SegmentId}
    {items : List ListedSegment} (hheader : Reader.header written = .ok (header, body))
    (h : Reader.listing body = .ok ((nextId, items), [])) : listing? written = some items := by
  have hall : (do let _ ← Reader.header; Reader.listing) written = .ok ((nextId, items), []) := by
    show Except.bind (Reader.header written) (fun p => Reader.listing p.2) = _
    rw [hheader]
    exact h
  rw [listing?, hall]

end Record
end TieredStore
