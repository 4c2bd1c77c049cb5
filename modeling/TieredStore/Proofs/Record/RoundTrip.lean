import TieredStore.Proofs.Record.Checking
import TieredStore.Proofs.Record.Listing
import TieredStore.Proofs.Table.WellFormed

/-!
# Records come back as they were written

A reader that is given what was written takes exactly that and answers the value
it stands for, whatever follows.  This is shown for every field and put together
along the layout of the record.  Lists are counted in four bytes, and nothing
checks the lists of a segment before they are written: a snapshot comes back if
they are short enough to be counted.  A record that fits a frame is too short to
hold a longer one.
-/

namespace TieredStore

theorem Bytes.toNat_ofNat_of_lt {width n : Nat} (h : n < Nat.pow 256 width) :
    Bytes.toNat (Bytes.ofNat width n) = n := by
  rw [Bytes.toNat_ofNat, Nat.mod_eq_of_lt h]

/-- The pending merges and the client events of every segment can be counted in four bytes. -/
def Table.CountsFit (table : Table) : Prop :=
  ∀ segment ∈ table.list, segment.pending.length ≤ Record.maxCount ∧
    segment.clientEvents.entries.length ≤ Record.maxCount

instance (table : Table) : Decidable table.CountsFit :=
  inferInstanceAs (Decidable (∀ segment ∈ table.list, _))

def Operation.CountsFit : Operation → Prop
  | .checkpoint table => table.CountsFit
  | _ => True

namespace Record

open Reader

/-- A reader takes exactly these bytes, whatever follows them, and answers this value. -/
def Takes {α : Type} (reader : Reader α) (written : Bytes) (value : α) : Prop :=
  ∀ rest, reader (written ++ rest) = .ok (value, rest)

namespace Takes

variable {α β : Type}

theorem pure (value : α) : Takes (Pure.pure value) [] value := fun _ => rfl

theorem bind {reader : Reader α} {next : α → Reader β} {first second : Bytes} {a : α} {b : β}
    (hfirst : Takes reader first a) (hsecond : Takes (next a) second b) :
    Takes (reader >>= next) (first ++ second) b := by
  intro rest
  have h : reader (first ++ (second ++ rest)) = .ok (a, second ++ rest) := hfirst _
  show Except.bind (reader (first ++ second ++ rest)) (fun p => next p.1 p.2) = _
  rw [List.append_assoc, h]
  exact hsecond rest

theorem bind_pure {reader : Reader α} {next : α → Reader β} {written : Bytes} {a : α} {b : β}
    (h : Takes reader written a) (hnext : Takes (next a) [] b) :
    Takes (reader >>= next) written b := by
  have hboth := bind h hnext
  rwa [List.append_nil] at hboth

theorem nil_bind {reader : Reader α} {next : α → Reader β} {written : Bytes} {a : α} {b : β}
    (h : Takes reader [] a) (hnext : Takes (next a) written b) :
    Takes (reader >>= next) written b :=
  bind h hnext

end Takes

/-!
## Fields
-/

theorem takes_take (field : Field) {bytes : Bytes} {count : Nat} (h : bytes.length = count) :
    Takes (take field count) bytes bytes := by
  intro rest
  subst h
  simp [take]

theorem takes_number (field : Field) (width : Nat) {n : Nat} (h : n < Nat.pow 256 width) :
    Takes (number field width) (Bytes.ofNat width n) n := by
  have htake := takes_take field (Bytes.length_ofNat width n)
  refine Takes.bind_pure htake ?_
  rw [Bytes.toNat_ofNat_of_lt h]
  exact Takes.pure n

theorem takes_byte (field : Field) (b : UInt8) : Takes (byte field) [b] b := by
  have h := takes_number field 1 (show b.toNat < Nat.pow 256 1 from b.toNat_lt)
  refine Takes.bind_pure (?_ : Takes (number field 1) [b] b.toNat) ?_
  · simpa [Bytes.ofNat] using h
  · simpa using Takes.pure b

theorem takes_word (field : Field) {n : Nat} (h : n ≤ maxOffset) :
    Takes (Reader.word field) (Record.word n) n := by
  have hlt : n < Nat.pow 256 8 := Nat.lt_of_le_of_lt h (by decide)
  refine Takes.bind_pure (takes_number field _ hlt) ?_
  rw [nonNegative, if_pos h]
  exact Takes.pure n

theorem takes_client (field : Field) (client : ClientId) :
    Takes (Reader.client field) (Record.client client) client := by
  have hlt : client.val < Nat.pow 256 16 := client.isLt
  refine Takes.bind_pure (takes_number field _ hlt) ?_
  have heq : (Fin.ofNat _ client.val : ClientId) = client := by
    apply Fin.eq_of_val_eq
    exact Nat.mod_eq_of_lt client.isLt
  rw [heq]
  exact Takes.pure client

theorem takes_text (field : Field) {name : String} (h : name.utf8ByteSize ≤ maxNameLength) :
    Takes (Reader.text field) (Record.text name) name := by
  have hlt : name.utf8ByteSize < Nat.pow 256 2 := Nat.lt_of_le_of_lt h (by decide)
  refine Takes.bind (takes_number field _ hlt) ?_
  refine Takes.bind_pure (takes_take field (Text.Utf8.length_encode name)) ?_
  rw [Text.Utf8.decode_encode]
  exact Takes.pure name

theorem takes_data (field : Field) {bytes : Bytes} (h : bytes.length ≤ maxDataLength) :
    Takes (Reader.data field) (Record.data bytes) bytes := by
  have hlt : bytes.length < Nat.pow 256 4 := Nat.lt_of_le_of_lt h (by decide)
  exact Takes.bind (takes_number field _ hlt) (takes_take field rfl)

theorem takes_flags (segment : Segment) :
    Takes Reader.flags [Record.flags segment] (segment.sealed, segment.merged) := by
  refine Takes.bind_pure (takes_byte .flags _) ?_
  cases hs : segment.sealed <;> cases hm : segment.merged <;>
    simp [Record.flags, hs, hm] <;> exact Takes.pure _

theorem takes_parent {parent : Option SegmentId} (h : ∀ id, parent = some id → id ≤ maxOffset) :
    Takes Reader.parent (Record.parent parent) parent := by
  cases parent with
  | none =>
      refine Takes.bind_pure (takes_number .parent _ (by decide)) ?_
      rw [if_pos rfl]
      exact Takes.pure none
  | some id =>
      have hid := h id rfl
      have hlt : id < Nat.pow 256 8 := Nat.lt_of_le_of_lt hid (by decide)
      have hne : ¬ id = maxWord := by
        intro heq
        rw [heq] at hid
        exact absurd hid (by decide)
      refine Takes.bind_pure (takes_number .parent _ hlt) ?_
      rw [if_neg hne]
      refine Takes.nil_bind (a := id) ?_ (Takes.pure _)
      rw [nonNegative, if_pos hid]
      exact Takes.pure id

/-!
## Lists
-/

theorem takes_repeated {α : Type} {reader : Reader α} {write : α → Bytes} {items : List α}
    (h : ∀ item ∈ items, Takes reader (write item) item) :
    Takes (repeated reader items.length) (items.flatMap write) items := by
  induction items with
  | nil => exact Takes.pure []
  | cons item rest ih =>
      have hitem := h item List.mem_cons_self
      have hrest := ih fun i hi => h i (List.mem_cons_of_mem _ hi)
      rw [List.flatMap_cons]
      refine Takes.bind hitem ?_
      exact Takes.bind_pure hrest (Takes.pure _)

theorem takes_counted {α : Type} (field : Field) {reader : Reader α} {write : α → Bytes}
    {items : List α} (hcount : items.length ≤ maxCount)
    (h : ∀ item ∈ items, Takes reader (write item) item) :
    Takes (Reader.counted field reader) (Record.counted write items) items := by
  have hlt : items.length < Nat.pow 256 4 := Nat.lt_of_le_of_lt hcount (by decide)
  exact Takes.bind (takes_number field _ hlt) (takes_repeated h)

theorem length_le_length_flatMap {α : Type} {write : α → Bytes} {items : List α}
    (h : ∀ item, write item ≠ []) : items.length ≤ (items.flatMap write).length := by
  induction items with
  | nil => simp
  | cons item rest ih =>
      have hitem := List.length_pos_iff.mpr (h item)
      rw [List.flatMap_cons, List.length_append, List.length_cons]
      omega

theorem length_le_length_flatMap_of_mem {α : Type} (write : α → Bytes) {items : List α} {item : α}
    (h : item ∈ items) : (write item).length ≤ (items.flatMap write).length := by
  induction items with
  | nil => cases h
  | cons first rest ih =>
      rw [List.flatMap_cons, List.length_append]
      rcases List.mem_cons.mp h with rfl | hrest
      · omega
      · have := ih hrest
        omega

/-!
## Segments and tables
-/

theorem takes_pending {merge : PendingMerge} (h : merge.Storable) :
    Takes Reader.pending (Record.pending merge) merge := by
  unfold Record.pending
  rw [List.append_assoc]
  refine Takes.bind (takes_word _ h.batch.2) ?_
  refine Takes.bind (takes_word _ h.offset_le) ?_
  exact Takes.bind_pure (takes_word _ h.length_le) (Takes.pure _)

theorem takes_event {entry : ClientId × Nat} (h : entry.2 ≤ maxOffset) :
    Takes Reader.event (Record.event entry) entry := by
  refine Takes.bind (takes_client _ entry.1) ?_
  exact Takes.bind_pure (takes_word _ h) (Takes.pure _)

theorem takes_segmentBase {segment : Segment} (h : segment.Storable)
    (hpending : segment.pending.length ≤ maxCount) :
    Takes (Reader.segment 0) (segmentBase segment) { segment with clientEvents := ∅ } := by
  have hparent : ∀ id, segment.parent = some id → id ≤ maxOffset := by
    intro id heq
    exact (h.parent id heq).2
  unfold segmentBase
  simp only [List.append_assoc]
  refine Takes.bind (takes_word _ h.id.2) ?_
  refine Takes.bind (takes_text _ h.name_le) ?_
  refine Takes.bind (takes_word _ h.length_le) ?_
  refine Takes.bind (takes_word _ h.stored_le) ?_
  refine Takes.bind (takes_word _ h.start_le) ?_
  refine Takes.bind (takes_flags segment) ?_
  refine Takes.bind (takes_parent hparent) ?_
  refine Takes.bind_pure (takes_counted _ hpending fun m hm => takes_pending (h.pending m hm)) ?_
  exact Takes.nil_bind (Takes.pure []) (Takes.pure _)

theorem takes_listedSegment {segment : Segment} (h : segment.Storable)
    (hpending : segment.pending.length ≤ maxCount)
    (hevents : segment.clientEvents.entries.length ≤ maxCount) :
    Takes listedSegment (Record.segment segment) (.of segment) := by
  have hclients : ∀ entry ∈ segment.clientEvents.entries, entry.2 ≤ maxOffset := by
    intro entry hentry
    exact h.events_le entry.2 (List.mem_map_of_mem hentry)
  refine Takes.bind (takes_segmentBase h hpending) ?_
  exact Takes.bind_pure (takes_counted _ hevents fun e he => takes_event (hclients e he))
    (Takes.pure _)

theorem takes_listing {snapshot : Table} (h : Operation.Storable (.checkpoint snapshot))
    (hcounts : snapshot.CountsFit) :
    Takes listing (Record.table snapshot) (snapshot.nextId, snapshot.list.map .of) := by
  rcases h with ⟨hnext, hsize, hsegments⟩
  have hcount : (snapshot.list.map ListedSegment.of).length ≤ maxCount := by
    have heq : snapshot.list.length = snapshot.size := List.length_map _
    rw [List.length_map, heq]
    exact hsize
  have hlisted : Takes (Reader.counted .segmentCount listedSegment)
      (Record.counted ListedSegment.bytes (snapshot.list.map .of)) (snapshot.list.map .of) := by
    refine takes_counted _ hcount fun item hitem => ?_
    obtain ⟨segment, hsegment, rfl⟩ := List.mem_map.mp hitem
    obtain ⟨hpending, hevents⟩ := hcounts segment hsegment
    rw [ListedSegment.bytes_of]
    exact takes_listedSegment (hsegments segment hsegment) hpending hevents
  have hitems : Record.table snapshot = Record.word snapshot.nextId ++
      Record.counted ListedSegment.bytes (snapshot.list.map .of) := by
    simp [Record.table, Record.counted, List.flatMap_map]
  rw [hitems]
  exact Takes.bind (takes_word _ hnext) (Takes.bind_pure hlisted (Takes.pure _))

theorem takes_table {snapshot : Table} (hwf : snapshot.WellFormed)
    (h : Operation.Storable (.checkpoint snapshot)) (hcounts : snapshot.CountsFit) :
    Takes (Reader.table 1) (Record.table snapshot) snapshot := by
  rw [table_one]
  refine Takes.bind_pure (takes_listing h hcounts) ?_
  have hsegments : (snapshot.list.map ListedSegment.of).map ListedSegment.segment =
      snapshot.list := by
    rw [List.map_map]
    exact (List.map_congr_left fun s _ => ListedSegment.segment_of s).trans (List.map_id _)
  simp only [hsegments, hwf.ofSegments_list]
  exact Takes.pure snapshot

/-- A table's record is at least as long as the lists of each of its segments. -/
theorem counts_le_length_table {snapshot : Table} {segment : Segment}
    (h : segment ∈ snapshot.list) :
    segment.pending.length ≤ (Record.table snapshot).length ∧
      segment.clientEvents.entries.length ≤ (Record.table snapshot).length := by
  have hsegment := length_le_length_flatMap_of_mem Record.segment h
  have hpending : segment.pending.length ≤ (segment.pending.flatMap Record.pending).length :=
    length_le_length_flatMap fun m hm => by
      have := congrArg List.length hm
      simp [Record.pending, Record.word] at this
  have hevents : segment.clientEvents.entries.length ≤
      (segment.clientEvents.entries.flatMap Record.event).length :=
    length_le_length_flatMap fun e he => by
      have := congrArg List.length he
      simp [Record.event, Record.client] at this
  have htable : (snapshot.list.flatMap Record.segment).length ≤ (Record.table snapshot).length := by
    unfold Record.table Record.counted
    simp only [List.length_append]
    omega
  have hparts : (segment.pending.flatMap Record.pending).length +
      (segment.clientEvents.entries.flatMap Record.event).length ≤
        (Record.segment segment).length := by
    unfold Record.segment segmentBase Record.counted
    simp only [List.length_append]
    omega
  omega

/-- A snapshot whose record fits a frame holds no list too long to be counted. -/
theorem countsFit_of_length_le {op : Operation} (h : (Record.payload op).length ≤ maxCount) :
    op.CountsFit := by
  cases op with
  | checkpoint snapshot =>
      intro segment hsegment
      have hcounts := counts_le_length_table hsegment
      exact ⟨Nat.le_trans hcounts.1 h, Nat.le_trans hcounts.2 h⟩
  | _ => trivial

/-!
## Whole records
-/

theorem takes_ensureInRange (field : Field) {length start : Nat}
    (h : Table.endsInRange start length = true) :
    Takes (ensureInRange field length start) [] () := by
  rw [ensureInRange, if_pos h]
  exact Takes.pure ()

theorem takes_payload {op : Operation} (hwf : op.WellFormed) (h : op.Storable)
    (hcounts : op.CountsFit) :
    Takes (Reader.payload op.kind op.kind.version) (Record.payload op) op := by
  cases op with
  | append segment offset client event bytes =>
      rcases h with ⟨hsegment, hoffset, hevent, hdata, hrange⟩
      simp only [Record.payload, List.append_assoc]
      refine Takes.bind (takes_word _ hsegment.2) ?_
      refine Takes.bind (takes_word _ hoffset) ?_
      refine Takes.bind (takes_client _ client) ?_
      refine Takes.bind (takes_word _ hevent) ?_
      refine Takes.bind_pure (takes_data _ hdata) ?_
      have hends := endsInRange_eq_true_iff.mpr hrange
      exact Takes.nil_bind (takes_ensureInRange _ hends) (Takes.pure _)
  | «seal» segment length =>
      rcases h with ⟨hsegment, hlength⟩
      refine Takes.bind (takes_word _ hsegment.2) ?_
      exact Takes.bind_pure (takes_word _ hlength) (Takes.pure _)
  | merge parent batch length offset =>
      rcases h with ⟨hparent, hbatch, -, hlength, hoffset, hrange⟩
      simp only [Record.payload, List.append_assoc]
      refine Takes.bind (takes_word _ hparent.2) ?_
      refine Takes.bind (takes_word _ hbatch.2) ?_
      refine Takes.bind (takes_word _ hlength) ?_
      refine Takes.bind_pure (takes_word _ hoffset) ?_
      have hends := endsInRange_eq_true_iff.mpr hrange
      exact Takes.nil_bind (takes_ensureInRange _ hends) (Takes.pure _)
  | checkpoint snapshot =>
      exact Takes.bind_pure (takes_table hwf h hcounts) (Takes.pure _)
  | create segment name =>
      rcases h with ⟨hsegment, hname⟩
      refine Takes.bind (takes_word _ hsegment.2) ?_
      exact Takes.bind_pure (takes_text _ hname.2) (Takes.pure _)
  | createBatch batch name parent =>
      rcases h with ⟨hbatch, hname, hparent⟩
      simp only [Record.payload, List.append_assoc]
      refine Takes.bind (takes_word _ hbatch.2) ?_
      refine Takes.bind (takes_text _ hname.2) ?_
      exact Takes.bind_pure (takes_word _ hparent.2) (Takes.pure _)
  | truncate segment offset =>
      rcases h with ⟨hsegment, hoffset⟩
      refine Takes.bind (takes_word _ hsegment.2) ?_
      exact Takes.bind_pure (takes_word _ hoffset) (Takes.pure _)

theorem takes_header {kind : RecordKind} {version : UInt8} {seq : SequenceNumber}
    (hversion : version ≤ kind.version) (hseq : seq ≤ maxOffset) :
    Takes Reader.header (Record.header kind version seq) { kind, version, seq } := by
  rw [Record.header, List.cons_append, ← List.singleton_append]
  refine Takes.bind (takes_byte _ kind.tag) ?_
  rw [RecordKind.ofTag?_tag]
  refine Takes.bind (takes_byte _ version) ?_
  rw [if_neg (UInt8.not_lt.mpr hversion)]
  exact Takes.bind_pure (takes_word _ hseq) (Takes.pure _)

/-- What a record needs to come back: it can be written, and it fits a frame. -/
structure Writable (seq : SequenceNumber) (op : Operation) : Prop where
  wellFormed : op.WellFormed
  checked : check seq op = .ok ()
  length_le : (bytes seq op).length ≤ maxCount

theorem Writable.seq_le {seq : SequenceNumber} {op : Operation} (h : Writable seq op) :
    seq ≤ maxOffset :=
  (check_eq_ok_iff.mp h.checked).1.2

def Header.of (seq : SequenceNumber) (op : Operation) : Header :=
  { kind := op.kind, version := op.kind.version, seq }

theorem takes_record {seq : SequenceNumber} {op : Operation} (hwf : op.WellFormed)
    (hcounts : op.CountsFit) (h : check seq op = .ok ()) :
    Takes Reader.record (bytes seq op) (Header.of seq op, op) := by
  obtain ⟨hseq, hfields⟩ := check_eq_ok_iff.mp h
  have hpayload := takes_payload hwf hfields hcounts
  exact Takes.bind (takes_header (UInt8.le_refl _) hseq.2)
    (Takes.bind_pure hpayload (Takes.pure _))

theorem decode_of_takes {written : Bytes} {value : Header × Operation}
    (h : Takes Reader.record written value) : decode written = .ok value := by
  have hall := h []
  rw [List.append_nil] at hall
  rw [decode, hall]
  rfl

theorem Writable.decode_bytes {seq : SequenceNumber} {op : Operation} (h : Writable seq op) :
    decode (bytes seq op) = .ok (Header.of seq op, op) := by
  have hlength : (Record.payload op).length ≤ maxCount := by
    have := h.length_le
    unfold bytes at this
    rw [List.length_append] at this
    omega
  exact decode_of_takes (takes_record h.wellFormed (countsFit_of_length_le hlength) h.checked)

theorem Writable.decodeHeader_bytes {seq : SequenceNumber} {op : Operation} (h : Writable seq op) :
    decodeHeader (bytes seq op) = .ok (Header.of seq op) := by
  have hheader := takes_header (UInt8.le_refl op.kind.version) h.seq_le (Record.payload op)
  rw [decodeHeader, bytes, hheader]
  rfl

theorem encode_eq_ok_iff {seq : SequenceNumber} {op : Operation} {written : Bytes} :
    encode seq op = .ok written ↔ check seq op = .ok () ∧ written = bytes seq op := by
  unfold encode
  cases hcheck : check seq op with
  | error e => simp [bind, Except.bind]
  | ok u => simp [bind, Except.bind, pure, Except.pure, eq_comm]

/--
Decoding undoes encoding.  Whatever `encode` writes, of any kind of operation,
`decode` reads back as the same operation in every field, under the kind's
newest version and the sequence number it was written with.
-/
theorem decode_of_encode {seq : SequenceNumber} {op : Operation} {written : Bytes}
    (hwf : op.WellFormed) (hcounts : op.CountsFit) (h : encode seq op = .ok written) :
    decode written = .ok ({ kind := op.kind, version := op.kind.version, seq }, op) := by
  obtain ⟨hcheck, rfl⟩ := encode_eq_ok_iff.mp h
  exact decode_of_takes (takes_record hwf hcounts hcheck)

/-- A snapshot in which a merged batch is pending in its parent, and two clients have appended. -/
private def halfMerged : Table where
  segments := SortedMap.ofList [
    (1, { id := 1, name := "journal", length := 7, storageLength := 2, startOffset := 1,
          pending := [{ batch := 4, offset := 3, length := 4 }],
          clientEvents := SortedMap.ofList [(9, 3), (340282366920938463463374607431768211455, 0)] }),
    (4, { id := 4, name := "é", length := 4, «sealed» := true, merged := true, parent := some 1 })]
  nextId := 6

theorem decode_of_encode_checkpoint :
    Operation.WellFormed (.checkpoint halfMerged) ∧ Operation.CountsFit (.checkpoint halfMerged) ∧
      encode 12 (.checkpoint halfMerged) = .ok (bytes 12 (.checkpoint halfMerged)) ∧
        decode (bytes 12 (.checkpoint halfMerged)) =
          .ok ({ kind := .checkpoint, version := 1, seq := 12 }, .checkpoint halfMerged) := by
  have hwf : Operation.WellFormed (.checkpoint halfMerged) := by decide +kernel
  have hcounts : Operation.CountsFit (.checkpoint halfMerged) :=
    show Table.CountsFit halfMerged by decide +kernel
  have hencode : encode 12 (.checkpoint halfMerged) = .ok (bytes 12 (.checkpoint halfMerged)) := by
    rfl
  exact ⟨hwf, hcounts, hencode, decode_of_encode hwf hcounts hencode⟩

end Record
end TieredStore
