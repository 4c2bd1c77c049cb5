import TieredStore.Proofs.Record.Prefixes

/-!
# Which operations are written

An operation is written if each of its parts fits the bytes that it takes.  The parts
are collected here whatever the kind of the operation is: the ids, the other numbers, the
names, the data and the range.  The segments of a snapshot are counted before they are
written, but the pending merges and the client events of a segment are not.  If one of
these lists is too long to be counted in four bytes, the snapshot is written all the
same, and it does not come back.
-/

namespace TieredStore

/-- The ids that a snapshot holds of a segment: its own, its parent's and those of its batches. -/
def Segment.mentioned (s : Segment) : List SegmentId :=
  s.id :: s.parent.toList ++ s.pending.map (·.batch)

def Segment.numbers (s : Segment) : List Nat :=
  [s.length, s.storageLength, s.startOffset] ++
    s.pending.flatMap (fun m => [m.offset, m.length]) ++ s.clientEvents.values

namespace Operation

/-- The ids of segments that the operation holds, but for the next one of a table. -/
def mentioned : Operation → List SegmentId
  | .append segment .. => [segment]
  | .seal segment _ => [segment]
  | .merge parent batch .. => [parent, batch]
  | .checkpoint table => table.list.flatMap Segment.mentioned
  | .create segment _ => [segment]
  | .createBatch batch _ parent => [batch, parent]
  | .truncate segment _ => [segment]

def numbers : Operation → List Nat
  | .append _ offset _ event _ => [offset, event]
  | .seal _ length => [length]
  | .merge _ _ length offset => [length, offset]
  | .checkpoint table => table.nextId :: table.list.flatMap Segment.numbers
  | .truncate _ offset => [offset]
  | .create .. | .createBatch .. => []

def names : Operation → List String
  | .checkpoint table => table.list.map (·.name)
  | .create _ name => [name]
  | .createBatch _ name _ => [name]
  | .append .. | .seal .. | .merge .. | .truncate .. => []

def data? : Operation → Option Bytes
  | .append _ _ _ _ data => some data
  | _ => none

def range? : Operation → Option (Nat × Nat)
  | .append _ offset _ _ data => some (offset, data.length)
  | .merge _ _ length offset => some (offset, length)
  | _ => none

end Operation

namespace Record

/-- What is asked of a sequence number and of the parts of an operation. -/
structure Permitted (seq : SequenceNumber) (op : Operation) : Prop where
  seq_pos : 1 ≤ seq
  seq_le : seq ≤ maxOffset
  assigned : ∀ id ∈ op.mentioned, id ≠ 0
  id_le : ∀ id ∈ op.mentioned, id ≤ maxOffset
  number_le : ∀ n ∈ op.numbers, n ≤ maxOffset
  name_pos : ∀ name ∈ op.names, 1 ≤ name.utf8ByteSize
  name_le : ∀ name ∈ op.names, name.utf8ByteSize ≤ maxNameLength
  data_le : ∀ data, op.data? = some data → data.length ≤ maxDataLength
  stop_le : ∀ start length, op.range? = some (start, length) → start + length ≤ maxOffset
  parent_ne : ∀ parent batch length offset,
    op = .merge parent batch length offset → parent ≠ batch
  segments_le : ∀ table, op = .checkpoint table → table.size ≤ maxCount

end Record

/-!
## The parts of a segment and of an operation
-/

theorem nameStorable_iff {name : String} :
    NameStorable name ↔ 1 ≤ name.utf8ByteSize ∧ name.utf8ByteSize ≤ Record.maxNameLength := by
  unfold NameStorable String.isEmpty
  rw [beq_eq_false_iff_ne, ← Nat.pos_iff_ne_zero]
  rfl

namespace Segment

variable {s : Segment}

theorem mem_mentioned {id : SegmentId} :
    id ∈ s.mentioned ↔ id = s.id ∨ s.parent = some id ∨ ∃ m ∈ s.pending, m.batch = id := by
  unfold mentioned
  rw [List.cons_append, List.mem_cons, List.mem_append, Option.mem_toList, List.mem_map]

theorem mem_numbers {n : Nat} :
    n ∈ s.numbers ↔ (n = s.length ∨ n = s.storageLength ∨ n = s.startOffset) ∨
      (∃ m ∈ s.pending, n = m.offset ∨ n = m.length) ∨ n ∈ s.clientEvents.values := by
  unfold numbers
  rw [List.append_assoc, List.mem_append, List.mem_append, List.mem_flatMap]
  simp only [List.mem_cons, List.not_mem_nil, or_false]

theorem storable_iff :
    s.Storable ↔ (∀ id ∈ s.mentioned, SegmentId.Storable id) ∧
      (∀ n ∈ s.numbers, n ≤ maxOffset) ∧ NameStorable s.name := by
  constructor
  · intro h
    have hids : ∀ id ∈ s.mentioned, SegmentId.Storable id := by
      intro id hid
      rcases mem_mentioned.mp hid with rfl | hparent | ⟨m, hm, rfl⟩
      · exact h.id
      · exact h.parent id hparent
      · exact (h.pending m hm).batch
    have hnumbers : ∀ n ∈ s.numbers, n ≤ maxOffset := by
      intro n hn
      rcases mem_numbers.mp hn with (rfl | rfl | rfl) | ⟨m, hm, rfl | rfl⟩ | hevent
      · exact h.length_le
      · exact h.stored_le
      · exact h.start_le
      · exact (h.pending m hm).offset_le
      · exact (h.pending m hm).length_le
      · exact h.events_le n hevent
    exact ⟨hids, hnumbers, h.named, h.name_le⟩
  · intro h
    rcases h with ⟨hids, hnumbers, hnamed, hname⟩
    have hpending : ∀ m ∈ s.pending, m.Storable := by
      intro m hm
      constructor
      · exact hids _ (mem_mentioned.mpr (.inr (.inr ⟨m, hm, rfl⟩)))
      · exact hnumbers _ (mem_numbers.mpr (.inr (.inl ⟨m, hm, .inl rfl⟩)))
      · exact hnumbers _ (mem_numbers.mpr (.inr (.inl ⟨m, hm, .inr rfl⟩)))
    constructor
    · exact hids _ (mem_mentioned.mpr (.inl rfl))
    · exact hnamed
    · exact hname
    · exact hnumbers _ (mem_numbers.mpr (.inl (.inl rfl)))
    · exact hnumbers _ (mem_numbers.mpr (.inl (.inr (.inl rfl))))
    · exact hnumbers _ (mem_numbers.mpr (.inl (.inr (.inr rfl))))
    · intro p hp
      exact hids _ (mem_mentioned.mpr (.inr (.inl hp)))
    · exact hpending
    · intro n hn
      exact hnumbers _ (mem_numbers.mpr (.inr (.inr hn)))

end Segment

namespace Operation.Storable

variable {op : Operation}

theorem mentioned (h : op.Storable) : ∀ id ∈ op.mentioned, SegmentId.Storable id := by
  cases op with
  | checkpoint table =>
      intro id hid
      rcases List.mem_flatMap.mp hid with ⟨s, hs, hid⟩
      exact (Segment.storable_iff.mp (h.2.2 s hs)).1 id hid
  | _ => simp_all [Operation.Storable, Operation.mentioned]

theorem number_le (h : op.Storable) : ∀ n ∈ op.numbers, n ≤ maxOffset := by
  cases op with
  | checkpoint table =>
      intro n hn
      rcases List.mem_cons.mp hn with rfl | hlisted
      · exact h.1
      · rcases List.mem_flatMap.mp hlisted with ⟨s, hs, hn⟩
        exact (Segment.storable_iff.mp (h.2.2 s hs)).2.1 n hn
  | _ => simp_all [Operation.Storable, Operation.numbers]

theorem named (h : op.Storable) : ∀ name ∈ op.names, NameStorable name := by
  cases op with
  | checkpoint table =>
      intro name hname
      rcases List.mem_map.mp hname with ⟨s, hs, rfl⟩
      exact (Segment.storable_iff.mp (h.2.2 s hs)).2.2
  | _ => simp_all [Operation.Storable, Operation.names]

end Operation.Storable

namespace Record

variable {seq : SequenceNumber} {op : Operation} {buffer result : Bytes}

theorem Permitted.storable (h : Permitted seq op) : op.Storable := by
  have hid : ∀ id ∈ op.mentioned, SegmentId.Storable id := by
    intro id hid
    exact ⟨h.assigned id hid, h.id_le id hid⟩
  have hname : ∀ name ∈ op.names, NameStorable name := by
    intro name hname
    exact nameStorable_iff.mpr ⟨h.name_pos name hname, h.name_le name hname⟩
  have hnumber := h.number_le
  have hdata := h.data_le
  have hstop := h.stop_le
  cases op with
  | checkpoint table =>
      refine ⟨hnumber _ List.mem_cons_self, h.segments_le table rfl, fun s hs => ?_⟩
      apply Segment.storable_iff.mpr
      refine ⟨fun id hmem => hid id (List.mem_flatMap.mpr ⟨s, hs, hmem⟩), ?_, ?_⟩
      · intro n hn
        exact hnumber n (List.mem_cons_of_mem _ (List.mem_flatMap.mpr ⟨s, hs, hn⟩))
      · exact hname s.name (List.mem_map_of_mem hs)
  | merge parent batch length offset =>
      have hne := h.parent_ne parent batch length offset rfl
      simp_all [Operation.Storable, Operation.mentioned, Operation.numbers, Operation.range?]
  | _ =>
      simp_all [Operation.Storable, Operation.mentioned, Operation.numbers, Operation.names,
        Operation.data?, Operation.range?]

theorem permitted_iff : Permitted seq op ↔ SegmentId.Storable seq ∧ op.Storable := by
  constructor
  · intro h
    exact ⟨⟨Nat.ne_of_gt h.seq_pos, h.seq_le⟩, h.storable⟩
  · intro h
    rcases h with ⟨⟨hassigned, hseq⟩, hop⟩
    constructor
    · exact Nat.pos_of_ne_zero hassigned
    · exact hseq
    · intro id hid
      exact (hop.mentioned id hid).1
    · intro id hid
      exact (hop.mentioned id hid).2
    · exact hop.number_le
    · intro name hname
      exact (nameStorable_iff.mp (hop.named name hname)).1
    · intro name hname
      exact (nameStorable_iff.mp (hop.named name hname)).2
    · intro data hdata
      cases op <;> cases hdata
      exact hop.2.2.2.1
    · intro start length hrange
      cases op <;> cases hrange
      · exact hop.2.2.2.2
      · exact hop.2.2.2.2.2
    · intro parent batch length offset hmerge
      cases hmerge
      exact hop.2.2.1
    · intro table htable
      cases htable
      exact hop.2.1

/-!
## Writing and reading back
-/

theorem encodeOnto_eq_ok_iff :
    encodeOnto buffer seq op = .ok result ↔
      Permitted seq op ∧ result = buffer ++ bytes seq op := by
  unfold encodeOnto
  rw [bind_eq_ok_iff, permitted_iff, ← check_eq_ok_iff]
  constructor
  · intro h
    rcases h with ⟨written, hwritten, hresult⟩
    rcases encode_eq_ok_iff.mp hwritten with ⟨hcheck, rfl⟩
    cases hresult
    exact ⟨hcheck, rfl⟩
  · intro h
    rcases h with ⟨hcheck, rfl⟩
    exact ⟨bytes seq op, encode_eq_ok_iff.mpr ⟨hcheck, rfl⟩, rfl⟩

theorem countsFit_of_decode {written : Bytes} (h : decode written = .ok (.of seq op, op)) :
    op.CountsFit := by
  cases op with
  | checkpoint table =>
      rcases listing_of_decode h rfl with ⟨-, items, -, hbuild, hfit, -⟩
      exact countsFit_of_ofSegments hbuild hfit
  | _ => trivial

/--
An operation is added to a buffer exactly if it is permitted under the sequence number;
otherwise there is no new buffer.  What is added comes back exactly if the pending merges
and the client events of every segment can be counted, which is not looked at.
-/
theorem encodeOnto_iff (hwf : op.WellFormed) :
    (∀ result, encodeOnto buffer seq op = .ok result ↔
      Permitted seq op ∧ result = buffer ++ bytes seq op) ∧
    ((∃ e, encodeOnto buffer seq op = .error e) ↔ ¬Permitted seq op) ∧
    (Permitted seq op →
      (decode (bytes seq op) = .ok (.of seq op, op) ↔ op.CountsFit)) := by
  refine ⟨fun result => encodeOnto_eq_ok_iff, ?_, fun hpermitted => ?_⟩
  · constructor
    · intro h hpermitted
      rcases h with ⟨e, herror⟩
      rw [encodeOnto_eq_ok_iff.mpr ⟨hpermitted, rfl⟩] at herror
      cases herror
    · intro h
      cases hresult : encodeOnto buffer seq op with
      | error e => exact ⟨e, rfl⟩
      | ok result => exact absurd (encodeOnto_eq_ok_iff.mp hresult).1 h
  · constructor
    · exact countsFit_of_decode
    · intro hcounts
      have hcheck := check_eq_ok_iff.mpr (permitted_iff.mp hpermitted)
      exact decode_of_takes (takes_record hwf hcounts hcheck)

/-- A batch whose merge is pending, and its parent, to which two clients have appended. -/
private def awaited : Table where
  segments := SortedMap.ofList [
    (1, { id := 1, name := "journal", length := 7, pending := [⟨4, 3, 4⟩],
          clientEvents := SortedMap.ofList [(9, 3), (11, 0)] }),
    (4, { id := 4, name := "é", length := 4, «sealed» := true, merged := true, parent := some 1 })]
  nextId := 6

theorem encodeOnto_iff_awaited :
    Permitted 12 (.checkpoint awaited) ∧
      decode (bytes 12 (.checkpoint awaited)) =
        .ok ({ kind := .checkpoint, version := 1, seq := 12 }, .checkpoint awaited) := by
  have hwf : Operation.WellFormed (.checkpoint awaited) := by decide +kernel
  have hcounts : Operation.CountsFit (.checkpoint awaited) :=
    show Table.CountsFit awaited by decide +kernel
  have hrun : encodeOnto [7] 12 (.checkpoint awaited) =
      .ok ([7] ++ bytes 12 (.checkpoint awaited)) := rfl
  rcases encodeOnto_iff hwf with ⟨hok, -, hback⟩
  have hpermitted := ((hok _).mp hrun).1
  exact ⟨hpermitted, (hback hpermitted).mpr hcounts⟩

/-- A segment in which the merge of one batch is pending this often. -/
private def crowd (count : Nat) : Segment :=
  { id := 1, name := "a", pending := .replicate count ⟨2, 0, 0⟩ }

private def crowded (count : Nat) : Table where
  segments := SortedMap.ofList [(1, crowd count)]
  nextId := 3

private theorem list_crowded (count : Nat) : (crowded count).list = [crowd count] := rfl

private theorem permitted_crowded (count : Nat) : Permitted 1 (.checkpoint (crowded count)) := by
  have hmerge : PendingMerge.Storable ⟨2, 0, 0⟩ := checkPending_eq_ok_iff.mp rfl
  have hfresh : Segment.Storable { id := 1, name := "a" } := checkSegment_eq_ok_iff.mp rfl
  have hcrowd : (crowd count).Storable := by
    refine { hfresh with pending := fun m hm => ?_ }
    rw [List.eq_of_mem_replicate hm]
    exact hmerge
  have hnext : 3 ≤ maxOffset := by decide
  have hsize : 1 ≤ maxCount := by decide
  apply permitted_iff.mpr
  refine ⟨⟨by decide, by decide⟩, hnext, hsize, fun s hs => ?_⟩
  rw [list_crowded, List.mem_singleton] at hs
  rw [hs]
  exact hcrowd

/-- Four bytes keep nothing of a count that is a multiple of what they can hold. -/
private theorem ofNat_of_mod_eq_zero {count : Nat} (h : count % Nat.pow 256 4 = 0) :
    Bytes.ofNat 4 count = [0, 0, 0, 0] := by
  have hback := Bytes.ofNat_toNat (Bytes.length_ofNat 4 count)
  rw [Bytes.toNat_ofNat, h] at hback
  exact hback.symm

/-- The record of the crowded table ends with the merges behind their count, and no events. -/
private theorem bytes_crowded : ∃ front, ∀ count, bytes 1 (.checkpoint (crowded count)) =
    front ++ (counted pending (List.replicate count ⟨2, 0, 0⟩) ++ [0, 0, 0, 0]) := by
  refine ⟨header .checkpoint 1 1 ++ (word 3 ++ (Bytes.ofNat 4 1 ++ (word 1 ++ (text "a" ++
    (word 0 ++ (word 0 ++ (word 0 ++ ([0] ++ parent none)))))))), fun count => ?_⟩
  have hflags : flags (crowd count) = 0 := by simp [flags, crowd]
  have hevents : counted event (crowd count).clientEvents.entries = [0, 0, 0, 0] :=
    show counted event [] = [0, 0, 0, 0] by decide
  have hbytes : bytes 1 (.checkpoint (crowded count)) = header .checkpoint 1 1 ++
      (word 3 ++ (Bytes.ofNat 4 1 ++ [crowd count].flatMap Record.segment)) := rfl
  rw [hbytes, List.flatMap_singleton, Record.segment, segmentBase, hflags, hevents]
  simp only [List.append_assoc]
  rfl

private theorem bytes_crowded_split {count : Nat} (h : (count + 1) % Nat.pow 256 4 = 0) :
    ∃ more, bytes 1 (.checkpoint (crowded (count + 1))) =
        bytes 1 (.checkpoint (crowded 0)) ++ more ∧
      more.length = 24 * (count + 1) := by
  rcases bytes_crowded with ⟨front, hfront⟩
  let merges := (List.replicate count (⟨2, 0, 0⟩ : PendingMerge)).flatMap pending
  have hnone : counted pending (List.replicate 0 ⟨2, 0, 0⟩) = [0, 0, 0, 0] := by decide
  have hmany : counted pending (List.replicate (count + 1) ⟨2, 0, 0⟩) =
      [0, 0, 0, 0] ++ ([0, 0, 0, 0] ++ ([0, 0, 0, 2] ++ word 0 ++ word 0) ++ merges) := by
    unfold counted
    rw [List.length_replicate, ofNat_of_mod_eq_zero h, List.replicate_succ, List.flatMap_cons]
    rfl
  refine ⟨[0, 0, 0, 2] ++ word 0 ++ word 0 ++ merges ++ [0, 0, 0, 0], ?_, ?_⟩
  · rw [hfront, hfront, hnone, hmany]
    simp only [List.append_assoc]
  · have hmerges : merges.length = count * 24 := by
      simp [merges, List.length_flatMap, pending, word]
    simp only [List.length_append, hmerges, word, Bytes.length_ofNat, List.length_cons,
      List.length_nil]
    omega

private theorem decode_crowded {count : Nat} (h : (count + 1) % Nat.pow 256 4 = 0) :
    decode (bytes 1 (.checkpoint (crowded (count + 1)))) =
      .error (.trailing (24 * (count + 1)) .checkpoint) := by
  have hnone : decode (bytes 1 (.checkpoint (crowded 0))) =
      .ok (.of 1 (.checkpoint (crowded 0)), .checkpoint (crowded 0)) :=
    ok_of_toOption (by decide +kernel)
  rcases bytes_crowded_split h with ⟨more, hsplit, hlength⟩
  have hmore : more ≠ [] := by
    intro hnil
    rw [hnil] at hlength
    cases hlength
  rw [hsplit, decode_append hnone hmore, hlength]
  rfl

/-- A segment whose pending merge ends behind the last offset. -/
private def straying : Table where
  segments := SortedMap.ofList [(1, { id := 1, name := "a", pending := [⟨2, maxOffset, 1⟩] })]
  nextId := 3

/--
A snapshot with one pending merge more than four bytes can count is written, and it is
refused when it is read.  Nor is it looked at where a pending merge ends.
-/
theorem encodeOnto_uncounted :
    (¬Operation.CountsFit (.checkpoint (crowded (maxCount + 1))) ∧
      encodeOnto [] 1 (.checkpoint (crowded (maxCount + 1))) =
        .ok (bytes 1 (.checkpoint (crowded (maxCount + 1)))) ∧
      decode (bytes 1 (.checkpoint (crowded (maxCount + 1)))) =
        .error (.trailing (24 * (maxCount + 1)) .checkpoint)) ∧
    ((∃ s ∈ straying.list, ∃ m ∈ s.pending, maxOffset < m.stop) ∧
      encodeOnto [] 1 (.checkpoint straying) = .ok (bytes 1 (.checkpoint straying))) := by
  have hcount : (maxCount + 1) % Nat.pow 256 4 = 0 := by decide
  refine ⟨⟨?_, ?_, decode_crowded hcount⟩, by decide, rfl⟩
  · intro hcounts
    have hfit := (hcounts (crowd (maxCount + 1)) (List.mem_singleton_self _)).1
    rw [crowd, List.length_replicate] at hfit
    exact Nat.not_succ_le_self maxCount hfit
  · exact encodeOnto_eq_ok_iff.mpr ⟨permitted_crowded _, rfl⟩

end Record
end TieredStore
