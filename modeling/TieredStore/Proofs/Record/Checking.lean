import TieredStore.Record.Encode
import TieredStore.Proofs.Table.Fitting

/-!
# What the checks accept

Every field is checked before anything is written, in the order in which it will be
written.  A run of checks passes if each of them does, so that what passes is a
condition on the parts of the operation, whatever their order.
-/

namespace TieredStore

def SegmentId.Storable (id : SegmentId) : Prop := id ≠ 0 ∧ id ≤ maxOffset

structure PendingMerge.Storable (m : PendingMerge) : Prop where
  batch : SegmentId.Storable m.batch
  offset_le : m.offset ≤ maxOffset
  length_le : m.length ≤ maxOffset

structure Segment.Storable (s : Segment) : Prop where
  id : SegmentId.Storable s.id
  named : s.name.isEmpty = false
  name_le : s.name.utf8ByteSize ≤ Record.maxNameLength
  length_le : s.length ≤ maxOffset
  stored_le : s.storageLength ≤ maxOffset
  start_le : s.startOffset ≤ maxOffset
  parent : ∀ p, s.parent = some p → SegmentId.Storable p
  pending : ∀ m ∈ s.pending, m.Storable
  events_le : ∀ number ∈ s.clientEvents.values, number ≤ maxOffset

def NameStorable (name : String) : Prop :=
  name.isEmpty = false ∧ name.utf8ByteSize ≤ Record.maxNameLength

def Operation.Storable : Operation → Prop
  | .append segment offset _ event data =>
      SegmentId.Storable segment ∧ offset ≤ maxOffset ∧ event ≤ maxOffset ∧
        data.length ≤ Record.maxDataLength ∧ offset + data.length ≤ maxOffset
  | .seal segment length => SegmentId.Storable segment ∧ length ≤ maxOffset
  | .merge parent batch length offset =>
      SegmentId.Storable parent ∧ SegmentId.Storable batch ∧ parent ≠ batch ∧
        length ≤ maxOffset ∧ offset ≤ maxOffset ∧ offset + length ≤ maxOffset
  | .checkpoint table =>
      table.nextId ≤ maxOffset ∧ table.size ≤ Record.maxCount ∧ ∀ s ∈ table.list, s.Storable
  | .create segment name => SegmentId.Storable segment ∧ NameStorable name
  | .createBatch batch name parent =>
      SegmentId.Storable batch ∧ NameStorable name ∧ SegmentId.Storable parent
  | .truncate segment offset => SegmentId.Storable segment ∧ offset ≤ maxOffset

namespace Record

variable {field : Field} {n : Nat}

theorem check_then_iff {first : Except EncodeError Unit} {rest : Unit → Except EncodeError Unit} :
    (first >>= rest) = .ok () ↔ first = .ok () ∧ rest () = .ok () := by
  rw [bind_eq_ok_iff]
  constructor
  · intro h
    rcases h with ⟨_, hfirst, hrest⟩
    exact ⟨hfirst, hrest⟩
  · intro h
    exact ⟨(), h⟩

theorem forM_eq_ok_iff {α : Type} {check : α → Except EncodeError Unit} :
    ∀ {items : List α}, items.forM check = .ok () ↔ ∀ item ∈ items, check item = .ok ()
  | [] => by
      constructor
      · intro _ item hitem
        cases hitem
      · intro _
        rfl
  | first :: rest => by
      show (check first >>= fun _ => rest.forM check) = .ok () ↔ _
      rw [check_then_iff, List.forall_mem_cons, forM_eq_ok_iff]

theorem checkOffset_eq_ok_iff : checkOffset field n = .ok () ↔ n ≤ maxOffset := by
  unfold checkOffset
  rw [refuse_eq_ok_iff]
  simp

theorem checkId_eq_ok_iff : checkId field n = .ok () ↔ SegmentId.Storable n := by
  unfold checkId SegmentId.Storable
  rw [refuse_eq_ok_iff, checkOffset_eq_ok_iff]

theorem checkName_eq_ok_iff {name : String} : checkName name = .ok () ↔ NameStorable name := by
  unfold checkName NameStorable
  rw [refuse_eq_ok_iff, refuse_eq_ok_iff]
  simp

theorem checkPending_eq_ok_iff {m : PendingMerge} : checkPending m = .ok () ↔ m.Storable := by
  unfold checkPending
  simp only [check_then_iff, checkId_eq_ok_iff, checkOffset_eq_ok_iff]
  constructor
  · intro h
    exact ⟨h.1, h.2.1, h.2.2⟩
  · intro h
    exact ⟨h.batch, h.offset_le, h.length_le⟩

theorem checkSegment_eq_ok_iff {s : Segment} : checkSegment s = .ok () ↔ s.Storable := by
  have hlists : (s.pending.forM checkPending >>= fun _ =>
      s.clientEvents.values.forM (checkOffset .eventNumber)) = .ok () ↔
        (∀ m ∈ s.pending, m.Storable) ∧ ∀ number ∈ s.clientEvents.values, number ≤ maxOffset := by
    simp only [check_then_iff, forM_eq_ok_iff, checkPending_eq_ok_iff, checkOffset_eq_ok_iff]
  unfold checkSegment
  simp only [check_then_iff, checkId_eq_ok_iff, checkName_eq_ok_iff, checkOffset_eq_ok_iff]
  constructor
  · intro h
    rcases h with ⟨hid, ⟨hnamed, hname⟩, hlength, hstored, hstart, hrest⟩
    cases hparent : s.parent with
    | none =>
        rw [hparent] at hrest
        rcases hlists.mp hrest with ⟨hpending, hevents⟩
        exact ⟨hid, hnamed, hname, hlength, hstored, hstart, by simp [hparent], hpending, hevents⟩
    | some p =>
        rw [hparent] at hrest
        rcases check_then_iff.mp hrest with ⟨hp, hrest⟩
        rcases hlists.mp hrest with ⟨hpending, hevents⟩
        exact ⟨hid, hnamed, hname, hlength, hstored, hstart,
          by simpa [hparent] using checkId_eq_ok_iff.mp hp, hpending, hevents⟩
  · intro h
    refine ⟨h.id, ⟨h.named, h.name_le⟩, h.length_le, h.stored_le, h.start_le, ?_⟩
    have hrest := hlists.mpr ⟨h.pending, h.events_le⟩
    cases hparent : s.parent with
    | none => exact hrest
    | some p => exact check_then_iff.mpr ⟨checkId_eq_ok_iff.mpr (h.parent p hparent), hrest⟩

theorem checkTable_eq_ok_iff {table : Table} :
    checkTable table = .ok () ↔
      table.nextId ≤ maxOffset ∧ table.size ≤ maxCount ∧ ∀ s ∈ table.list, s.Storable := by
  have hsegments : table.list.forM checkSegment = .ok () ↔ ∀ s ∈ table.list, s.Storable := by
    simp only [forM_eq_ok_iff, checkSegment_eq_ok_iff]
  unfold checkTable
  rw [check_then_iff, checkOffset_eq_ok_iff]
  refine and_congr_right fun _ => ?_
  by_cases hsize : maxCount < table.size
  · rw [if_pos hsize]
    constructor
    · intro h
      cases h
    · intro h
      exact absurd hsize (Nat.not_lt.mpr h.1)
  · rw [if_neg hsize, ← hsegments]
    exact (and_iff_right (Nat.not_lt.mp hsize)).symm

theorem endsInRange_eq_true_iff {start length : Nat} :
    Table.endsInRange start length = true ↔ start + length ≤ maxOffset := by
  unfold Table.endsInRange
  exact decide_eq_true_iff

theorem checkRange_eq_ok_iff {start length : Nat} {cause : EncodeError} :
    (do if !Table.endsInRange start length then .error cause : Except EncodeError Unit) = .ok () ↔
      start + length ≤ maxOffset := by
  rw [refuse_eq_ok_iff, Bool.not_eq_true', Bool.not_eq_false, endsInRange_eq_true_iff]
  exact and_iff_left rfl

/-- An operation passes if every part of it fits its place. -/
theorem checkOperation_eq_ok_iff {op : Operation} : checkOperation op = .ok () ↔ op.Storable := by
  cases op with
  | append segment offset client event data =>
      have hdata : (do
          if maxDataLength < data.length then .error ⟨.data, .dataTooLong data.length⟩
          if !Table.endsInRange offset data.length then .error ⟨.data, .dataEndTooLarge⟩ :
            Except EncodeError Unit) = .ok () ↔
          data.length ≤ maxDataLength ∧ offset + data.length ≤ maxOffset := by
        apply refuse_eq_ok_iff.trans
        rw [Nat.not_lt]
        exact and_congr_right fun _ => checkRange_eq_ok_iff
      unfold checkOperation Operation.Storable
      rw [check_then_iff, check_then_iff, check_then_iff, hdata, checkId_eq_ok_iff,
        checkOffset_eq_ok_iff, checkOffset_eq_ok_iff]
  | «seal» segment length =>
      unfold checkOperation Operation.Storable
      rw [check_then_iff, checkId_eq_ok_iff, checkOffset_eq_ok_iff]
  | merge parent batch length offset =>
      have hrange : (do
          checkOffset .length length
          checkOffset .parentOffset offset
          if !Table.endsInRange offset length then .error ⟨.length, .mergeEndTooLarge⟩ :
            Except EncodeError Unit) = .ok () ↔
          length ≤ maxOffset ∧ offset ≤ maxOffset ∧ offset + length ≤ maxOffset := by
        rw [check_then_iff, check_then_iff, checkOffset_eq_ok_iff, checkOffset_eq_ok_iff,
          checkRange_eq_ok_iff]
      have happart : (do
          if parent = batch then .error ⟨.batchSegmentId, .equalsParent⟩
          checkOffset .length length
          checkOffset .parentOffset offset
          if !Table.endsInRange offset length then .error ⟨.length, .mergeEndTooLarge⟩ :
            Except EncodeError Unit) = .ok () ↔
          parent ≠ batch ∧ length ≤ maxOffset ∧ offset ≤ maxOffset ∧
            offset + length ≤ maxOffset := by
        apply refuse_eq_ok_iff.trans
        exact and_congr_right fun _ => hrange
      unfold checkOperation Operation.Storable
      rw [check_then_iff, check_then_iff, happart, checkId_eq_ok_iff, checkId_eq_ok_iff]
  | checkpoint table => exact checkTable_eq_ok_iff
  | create segment name =>
      unfold checkOperation Operation.Storable
      rw [check_then_iff, checkId_eq_ok_iff, checkName_eq_ok_iff]
  | createBatch batch name parent =>
      unfold checkOperation Operation.Storable
      rw [check_then_iff, check_then_iff, checkId_eq_ok_iff, checkId_eq_ok_iff,
        checkName_eq_ok_iff]
  | truncate segment offset =>
      unfold checkOperation Operation.Storable
      rw [check_then_iff, checkId_eq_ok_iff, checkOffset_eq_ok_iff]

theorem check_eq_ok_iff {seq : SequenceNumber} {op : Operation} :
    check seq op = .ok () ↔ SegmentId.Storable seq ∧ op.Storable := by
  unfold check
  rw [check_then_iff, checkId_eq_ok_iff, checkOperation_eq_ok_iff]

end Record
end TieredStore
