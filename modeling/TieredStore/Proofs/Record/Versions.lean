import TieredStore.Proofs.Record.RoundTrip

/-!
# Older snapshots

Version zero of a snapshot dates from before client events were kept.  It is laid out
as version one is, except that a segment ends behind its pending merges.  So what both
versions hold of a segment is read alike, and a reader that knows the version finds the
start of the next segment in either.
-/

namespace TieredStore

def Segment.withoutEvents (s : Segment) : Segment := { s with clientEvents := ∅ }

/-- The table as far as it was known before client events were kept. -/
def Table.withoutEvents (table : Table) : Table :=
  { table with segments := table.segments.mapValues Segment.withoutEvents }

namespace Table

variable {table : Table} {id : SegmentId} {s : Segment}

theorem get?_withoutEvents_eq_some_iff :
    table.withoutEvents.get? id = some s ↔
      ∃ old, table.get? id = some old ∧ old.withoutEvents = s :=
  SortedMap.get?_mapValues_eq_some_iff

theorem list_withoutEvents : table.withoutEvents.list = table.list.map Segment.withoutEvents :=
  SortedMap.values_mapValues table.segments Segment.withoutEvents

theorem WellFormed.withoutEvents (h : table.WellFormed) : table.withoutEvents.WellFormed where
  id_eq := by
    intro id s hs
    rcases get?_withoutEvents_eq_some_iff.mp hs with ⟨old, hold, rfl⟩
    have hid : old.id = id := h.id_eq hold
    exact hid
  id_lt := by
    intro id s hs
    rcases get?_withoutEvents_eq_some_iff.mp hs with ⟨old, hold, rfl⟩
    exact h.id_lt hold
  name_inj := by
    intro a b s t hs ht hname
    rcases get?_withoutEvents_eq_some_iff.mp hs with ⟨old, hold, rfl⟩
    rcases get?_withoutEvents_eq_some_iff.mp ht with ⟨other, hother, rfl⟩
    exact h.name_inj hold hother hname

end Table

namespace Record

def eventsIn (version : UInt8) (s : Segment) : Bytes :=
  if version = 0 then [] else counted event s.clientEvents.entries

def segmentIn (version : UInt8) (s : Segment) : Bytes := segmentBase s ++ eventsIn version s

def snapshotIn (version : UInt8) (seq : SequenceNumber) (table : Table) : Bytes :=
  header .checkpoint version seq ++
    (word table.nextId ++ counted (segmentIn version) table.list)

theorem snapshotIn_one (seq : SequenceNumber) (table : Table) :
    snapshotIn 1 seq table = bytes seq (.checkpoint table) := rfl

variable {table : Table} {first seq : SequenceNumber} {written : Bytes}

theorem segmentIn_zero (s : Segment) : segmentIn 0 s = segmentBase s.withoutEvents :=
  List.append_nil (segmentBase s)

theorem counted_segmentIn_zero (table : Table) :
    counted (segmentIn 0) table.list = counted segmentBase table.withoutEvents.list := by
  have hsame : segmentIn 0 = fun s => segmentBase s.withoutEvents := funext segmentIn_zero
  unfold counted
  rw [Table.list_withoutEvents, List.length_map, List.flatMap_map, hsame]

theorem takes_olderTable (hwf : table.WellFormed) (h : Operation.Storable (.checkpoint table))
    (hcounts : table.CountsFit) :
    Takes (Reader.table 0) (word table.nextId ++ counted (segmentIn 0) table.list)
      table.withoutEvents := by
  rcases h with ⟨hnext, hsize, hsegments⟩
  have hcount : table.withoutEvents.list.length ≤ maxCount := by
    have hlength : table.list.length = table.size := List.length_map _
    rw [Table.list_withoutEvents, List.length_map, hlength]
    exact hsize
  have hlisted : Takes (Reader.counted .segmentCount (Reader.segment 0))
      (counted segmentBase table.withoutEvents.list) table.withoutEvents.list := by
    apply takes_counted _ hcount
    intro older holder
    rw [Table.list_withoutEvents] at holder
    rcases List.mem_map.mp holder with ⟨s, hs, rfl⟩
    have hbase := takes_segmentBase (hsegments s hs) (hcounts s hs).1
    exact hbase
  have hbuild : Table.ofSegments table.withoutEvents.list table.nextId =
      .ok table.withoutEvents := hwf.withoutEvents.ofSegments_list
  rw [counted_segmentIn_zero]
  apply Takes.bind (takes_word _ hnext)
  apply Takes.bind_pure hlisted
  rw [hbuild]
  exact Takes.pure _

/--
Older snapshots stay readable.  A table whose snapshot is written today as version one
can be read from its record of version zero, under any sequence number: all segments
come back, without client events.
-/
theorem decode_snapshotIn_zero (hwf : table.WellFormed) (hcounts : table.CountsFit)
    (hencode : encode first (.checkpoint table) = .ok written) (hseq : seq ≤ maxOffset) :
    written = snapshotIn 1 first table ∧
      decode (snapshotIn 0 seq table) =
        .ok ({ kind := .checkpoint, version := 0, seq }, .checkpoint table.withoutEvents) := by
  rcases encode_eq_ok_iff.mp hencode with ⟨hcheck, hwritten⟩
  constructor
  · rw [snapshotIn_one]
    exact hwritten
  · apply decode_of_takes
    have htable := takes_olderTable hwf (check_eq_ok_iff.mp hcheck).2 hcounts
    have hheader : Takes Reader.header (header .checkpoint 0 seq)
        { kind := .checkpoint, version := 0, seq } := takes_header (by decide) hseq
    apply Takes.bind hheader
    exact Takes.bind_pure (Takes.bind_pure htable (Takes.pure _)) (Takes.pure _)

/-- Two merges are pending in a segment that clients have appended to, and in a batch. -/
private def attended : Table where
  segments := SortedMap.ofList [
    (1, { id := 1, name := "journal", length := 9, storageLength := 2, startOffset := 1,
          pending := [⟨4, 3, 4⟩, ⟨5, 7, 2⟩],
          clientEvents := SortedMap.ofList [(9, 3), (340282366920938463463374607431768211455, 0)] }),
    (4, { id := 4, name := "é", length := 4, «sealed» := true, merged := true, parent := some 1,
          clientEvents := SortedMap.ofList [(9, 3)] }),
    (5, { id := 5, name := "b", length := 2, «sealed» := true, merged := true, parent := some 1 })]
  nextId := 6

private def unattended : Table where
  segments := SortedMap.ofList [
    (1, { id := 1, name := "journal", length := 9, storageLength := 2, startOffset := 1,
          pending := [⟨4, 3, 4⟩, ⟨5, 7, 2⟩] }),
    (4, { id := 4, name := "é", length := 4, «sealed» := true, merged := true, parent := some 1 }),
    (5, { id := 5, name := "b", length := 2, «sealed» := true, merged := true, parent := some 1 })]
  nextId := 6

theorem decode_snapshotIn_zero_attended :
    encode 12 (.checkpoint attended) = .ok (snapshotIn 1 12 attended) ∧
      decode (snapshotIn 0 maxOffset attended) =
        .ok ({ kind := .checkpoint, version := 0, seq := maxOffset }, .checkpoint unattended) := by
  have hwf : attended.WellFormed := by decide +kernel
  have hcounts : attended.CountsFit := by decide +kernel
  have hencode : encode 12 (.checkpoint attended) = .ok (bytes 12 (.checkpoint attended)) := rfl
  have hsame : attended.withoutEvents = unattended := by decide +kernel
  rcases decode_snapshotIn_zero hwf hcounts hencode (Nat.le_refl maxOffset) with ⟨hnow, holder⟩
  rw [← hnow, ← hsame]
  exact ⟨hencode, holder⟩

end Record
end TieredStore
