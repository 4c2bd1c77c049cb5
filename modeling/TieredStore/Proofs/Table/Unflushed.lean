import TieredStore.Container.Flush
import TieredStore.Proofs.Map.Totals
import TieredStore.Proofs.Table.Unlogged

/-!
# What is left to flush

What is left to flush of a table is a number: the bytes that the tier does not
hold yet and the pending merges.  Each byte that is copied and each merge that is
finished makes it smaller, which bounds the rounds of a flush.
-/

namespace TieredStore

/-- The bytes of a segment that the tier does not hold yet, and its pending merges. -/
def Segment.unflushed (s : Segment) : Nat := s.length - s.storageLength + s.pending.length

namespace Table

variable {table : Table} {content : Contents} {id : SegmentId} {s : Segment} {m : PendingMerge}
  {rest : List PendingMerge}

theorem unflushed_modify_lt (hs : table.get? id = some s) {change : Segment → Segment}
    (hless : (change s).unflushed < s.unflushed) :
    (table.modify id change).unflushed < table.unflushed := by
  have htotal := SortedMap.total_modify hs change Segment.unflushed
  have hmodified : (table.modify id change).unflushed =
      total ((table.segments.modify id change).values.map Segment.unflushed) := rfl
  have htable : table.unflushed = total (table.segments.values.map Segment.unflushed) := rfl
  omega

theorem unflushed_setStorageLength_lt (hs : table.get? id = some s) {stop : Nat}
    (hmore : s.storageLength < stop) (hstop : stop ≤ s.length) :
    (table.setStorageLength id stop).unflushed < table.unflushed := by
  refine unflushed_modify_lt hs ?_
  show s.length - max s.storageLength (min stop s.length) + s.pending.length <
    s.length - s.storageLength + s.pending.length
  omega

theorem unflushed_joined_lt (hs : table.get? id = some s) (hpending : s.pending = m :: rest) :
    (table.joined id m).unflushed < table.unflushed := by
  have herase : (table.joined id m).unflushed ≤ (table.modify id (·.joined m)).unflushed :=
    SortedMap.total_erase_le _ _ Segment.unflushed
  refine Nat.lt_of_le_of_lt herase (unflushed_modify_lt hs ?_)
  show s.length - max s.storageLength m.stop + s.pending.tail.length <
    s.length - s.storageLength + s.pending.length
  rw [hpending]
  simp only [List.tail_cons, List.length_cons]
  omega

end Table
end TieredStore
