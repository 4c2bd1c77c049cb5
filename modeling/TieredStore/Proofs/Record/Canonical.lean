import TieredStore.Proofs.Record.RoundTrip
import TieredStore.Proofs.Table.Fitting

/-!
# Every operation has one record

What a reader takes for a field is what writing the answer produces.  This is
shown for every field and put together along the layout of the record, so a
record that holds no snapshot is the one that encoding gives back, unless
encoding refuses a number or a name that was never assigned.  A snapshot is
rewritten with its segments and their clients in order: its record is given back
if it lists them in order, and only then.
-/

namespace TieredStore

namespace Bytes

theorem ofNat_toNat {width : Nat} {bytes : Bytes} (h : bytes.length = width) :
    ofNat width bytes.toNat = bytes := by
  induction width generalizing bytes with
  | zero => exact (List.length_eq_zero_iff.mp h).symm
  | succ width ih =>
      obtain rfl | ⟨front, last, rfl⟩ := List.eq_nil_or_concat bytes
      · cases h
      rw [List.concat_eq_append] at h ⊢
      have hfront : front.length = width := by simpa using h
      have hdigit : (toNat front * 256 + last.toNat) / 256 = toNat front := by
        have := last.toNat_lt
        omega
      rw [toNat_append_singleton, ofNat, hdigit, ih hfront]
      simp

theorem toNat_lt {width : Nat} {bytes : Bytes} (h : bytes.length = width) :
    bytes.toNat < Nat.pow 256 width := by
  have hlt := Nat.mod_lt bytes.toNat (Nat.pow_pos (show 0 < 256 by decide) : 0 < 256 ^ width)
  have hsame := toNat_ofNat width bytes.toNat
  rw [ofNat_toNat h] at hsame
  rw [hsame]
  exact hlt

end Bytes

def Operation.FitsRecord : Operation → Prop
  | .append segment offset _ event data =>
      segment ≤ maxOffset ∧ offset ≤ maxOffset ∧ event ≤ maxOffset ∧
        data.length ≤ Record.maxDataLength ∧ Table.endsInRange offset data.length = true
  | .seal segment length => segment ≤ maxOffset ∧ length ≤ maxOffset
  | .merge parent batch length offset =>
      parent ≤ maxOffset ∧ batch ≤ maxOffset ∧ length ≤ maxOffset ∧ offset ≤ maxOffset ∧
        Table.endsInRange offset length = true
  | .checkpoint _ => False
  | .create segment name => segment ≤ maxOffset ∧ name.utf8ByteSize ≤ Record.maxNameLength
  | .createBatch batch name parent =>
      batch ≤ maxOffset ∧ name.utf8ByteSize ≤ Record.maxNameLength ∧ parent ≤ maxOffset
  | .truncate segment offset => segment ≤ maxOffset ∧ offset ≤ maxOffset

def Operation.ids : Operation → List (Field × SegmentId)
  | .append segment .. => [(.segmentId, segment)]
  | .seal segment _ => [(.segmentId, segment)]
  | .merge parent batch .. => [(.parentSegmentId, parent), (.batchSegmentId, batch)]
  | .checkpoint _ => []
  | .create segment _ => [(.segmentId, segment)]
  | .createBatch batch _ parent => [(.batchSegmentId, batch), (.parentSegmentId, parent)]
  | .truncate segment _ => [(.segmentId, segment)]

/-- What an operation that is read from a record can still lack, and the failure it causes. -/
inductive Operation.Lacks (op : Operation) : EncodeError → Prop
  | id {entry : Field × SegmentId} :
      entry ∈ op.ids → entry.2 = 0 → op.Lacks ⟨entry.1, .notAssigned⟩
  | name : op.name? = some "" → op.Lacks ⟨.name, .emptyName⟩
  | parent {segment : SegmentId} {length offset : Nat} :
      op = .merge segment segment length offset → op.Lacks ⟨.batchSegmentId, .equalsParent⟩

theorem Operation.lacks_iff {op : Operation} {e : EncodeError} :
    op.Lacks e ↔ (∃ entry ∈ op.ids, entry.2 = 0 ∧ e = ⟨entry.1, .notAssigned⟩) ∨
      (op.name? = some "" ∧ e = ⟨.name, .emptyName⟩) ∨
      (∃ segment length offset, op = .merge segment segment length offset ∧
        e = ⟨.batchSegmentId, .equalsParent⟩) := by
  constructor
  · intro h
    cases h with
    | id hmem hzero => exact .inl ⟨_, hmem, hzero, rfl⟩
    | name h => exact .inr (.inl ⟨h, rfl⟩)
    | parent h => exact .inr (.inr ⟨_, _, _, h, rfl⟩)
  · rintro (⟨entry, hmem, hzero, rfl⟩ | ⟨h, rfl⟩ | ⟨segment, length, offset, h, rfl⟩)
    · exact .id hmem hzero
    · exact .name h
    · exact .parent h

namespace Record

open Reader

theorem ok_of_reader_bind_ok {α β : Type} {reader : Reader α} {next : α → Reader β}
    {input rest : Bytes} {answer : β} (h : (reader >>= next) input = .ok (answer, rest)) :
    ∃ value middle, reader input = .ok (value, middle) ∧
      next value middle = .ok (answer, rest) := by
  change Except.bind (reader input) (fun p => next p.1 p.2) = _ at h
  cases hfirst : reader input with
  | error stuck =>
      rw [hfirst] at h
      cases h
  | ok p =>
      rw [hfirst] at h
      exact ⟨p.1, p.2, rfl, h⟩

/-- Whatever a reader takes and answers is related in this way. -/
def Gives {α : Type} (reader : Reader α) (relation : α → Bytes → Prop) : Prop :=
  ∀ input value rest, reader input = .ok (value, rest) →
    ∃ taken, input = taken ++ rest ∧ relation value taken

namespace Gives

variable {α β : Type}

theorem mono {reader : Reader α} {strong weak : α → Bytes → Prop} (h : Gives reader strong)
    (himp : ∀ value taken, strong value taken → weak value taken) : Gives reader weak := by
  intro input value rest hread
  obtain ⟨taken, hinput, hstrong⟩ := h _ _ _ hread
  exact ⟨taken, hinput, himp value taken hstrong⟩

theorem pure {value : α} {relation : α → Bytes → Prop} (h : relation value []) :
    Gives (Pure.pure value) relation := by
  intro input value' rest hread
  cases hread
  exact ⟨[], rfl, h⟩

theorem fail {cause : DecodeError} {relation : α → Bytes → Prop} :
    Gives (Reader.fail cause) relation := by
  intro input value rest hread
  cases hread

theorem bind {reader : Reader α} {next : α → Reader β} {first : α → Bytes → Prop}
    {relation : β → Bytes → Prop} (h : Gives reader first)
    (hnext : ∀ value taken, first value taken →
      Gives (next value) fun answer more => relation answer (taken ++ more)) :
    Gives (reader >>= next) relation := by
  intro input answer rest hread
  obtain ⟨value, middle, hfirst, hsecond⟩ := ok_of_reader_bind_ok hread
  obtain ⟨taken, hinput, hvalue⟩ := h _ _ _ hfirst
  obtain ⟨more, hafter, hanswer⟩ := hnext value taken hvalue _ _ _ hsecond
  refine ⟨taken ++ more, ?_, hanswer⟩
  rw [hinput, hafter, List.append_assoc]

theorem ite {condition : Prop} [Decidable condition] {reader other : Reader α}
    {relation : α → Bytes → Prop} (h : condition → Gives reader relation)
    (hother : ¬condition → Gives other relation) :
    Gives (if condition then reader else other) relation := by
  split
  · exact h ‹_›
  · exact hother ‹_›

end Gives

/-!
## Fields
-/

theorem gives_take (field : Field) (count : Nat) :
    Gives (take field count) fun value taken => value = taken ∧ value.length = count := by
  intro input value rest hread
  unfold take at hread
  dsimp only at hread
  split at hread
  · rename_i hlength
    cases hread
    exact ⟨input.take count, (List.take_append_drop count input).symm, rfl, hlength⟩
  · cases hread

theorem gives_number (field : Field) (width : Nat) :
    Gives (number field width) fun value taken =>
      Bytes.ofNat width value = taken ∧ value < Nat.pow 256 width := by
  refine (gives_take field width).bind ?_
  rintro _ raw ⟨rfl, hlength⟩
  refine Gives.pure ⟨?_, Bytes.toNat_lt hlength⟩
  rw [List.append_nil, Bytes.ofNat_toNat hlength]

theorem gives_byte (field : Field) :
    Gives (byte field) fun value taken => taken = [value] := by
  refine (gives_number field 1).bind ?_
  rintro value - ⟨rfl, -⟩
  exact Gives.pure rfl

theorem gives_nonNegative (field : Field) (raw : Nat) :
    Gives (nonNegative field raw) fun value taken =>
      taken = [] ∧ value = raw ∧ raw ≤ maxOffset := by
  refine Gives.ite (fun hraw => ?_) fun _ => Gives.fail
  exact Gives.pure ⟨rfl, rfl, hraw⟩

theorem gives_word (field : Field) :
    Gives (Reader.word field) fun value taken =>
      Record.word value = taken ∧ value ≤ maxOffset := by
  refine (gives_number field 8).bind ?_
  rintro raw - ⟨rfl, -⟩
  refine (gives_nonNegative field raw).mono ?_
  rintro value - ⟨rfl, rfl, hle⟩
  exact ⟨(List.append_nil _).symm, hle⟩

theorem gives_client (field : Field) :
    Gives (Reader.client field) fun value taken => Record.client value = taken := by
  refine (gives_number field 16).bind ?_
  rintro raw - ⟨rfl, hlt⟩
  refine Gives.pure ?_
  have hval : (Fin.ofNat _ raw : ClientId).val = raw := Nat.mod_eq_of_lt hlt
  rw [List.append_nil, Record.client, hval]

theorem gives_text (field : Field) :
    Gives (Reader.text field) fun value taken =>
      Record.text value = taken ∧ value.utf8ByteSize ≤ maxNameLength := by
  refine (gives_number field 2).bind ?_
  rintro count - ⟨rfl, hlt⟩
  refine (gives_take field count).bind ?_
  rintro raw _ ⟨rfl, hlength⟩
  split
  · rename_i value hdecode
    have hraw : Text.Utf8.encode value = raw := Text.Utf8.encode_of_decode hdecode
    have hsize : value.utf8ByteSize = count := by
      rw [← Text.Utf8.length_encode, hraw, hlength]
    refine Gives.pure ⟨?_, ?_⟩
    · rw [List.append_nil, Record.text, hraw, hsize]
    · rw [hsize]
      exact Nat.le_of_lt_succ hlt
  · exact Gives.fail

theorem gives_data (field : Field) :
    Gives (Reader.data field) fun value taken =>
      Record.data value = taken ∧ value.length ≤ maxDataLength := by
  refine (gives_number field 4).bind ?_
  rintro count - ⟨rfl, hlt⟩
  refine (gives_take field count).mono ?_
  rintro _ value ⟨rfl, rfl⟩
  exact ⟨rfl, Nat.le_of_lt_succ hlt⟩

theorem flags_of_and_eq_zero : ∀ raw : Fin 256, UInt8.ofNat raw.val &&& 0xFC = 0 →
    ((if UInt8.ofNat raw.val &&& 1 ≠ 0 then (1 : UInt8) else 0) |||
      if UInt8.ofNat raw.val &&& 2 ≠ 0 then 2 else 0) = UInt8.ofNat raw.val := by
  decide +kernel

theorem gives_flags :
    Gives Reader.flags fun (value : Bool × Bool) taken =>
      taken = [(if value.1 then 1 else 0) ||| (if value.2 then 2 else 0)] := by
  refine (gives_byte .flags).bind ?_
  rintro raw - rfl
  refine Gives.ite (fun _ => Gives.fail) fun hraw => ?_
  refine Gives.pure ?_
  have h := flags_of_and_eq_zero ⟨raw.toNat, raw.toNat_lt⟩
  simp only [UInt8.ofNat_toNat] at h
  simpa using (h (Decidable.not_not.mp hraw)).symm

theorem gives_parent :
    Gives Reader.parent fun value taken => Record.parent value = taken := by
  refine (gives_number .parent 8).bind ?_
  rintro raw - ⟨rfl, -⟩
  refine Gives.ite (fun hraw => ?_) fun _ => ?_
  · subst hraw
    exact Gives.pure (List.append_nil _).symm
  · refine (gives_nonNegative .parent raw).bind ?_
    rintro value - ⟨rfl, rfl, -⟩
    refine Gives.pure ?_
    rw [List.append_nil, List.append_nil]
    rfl

/-!
## Lists
-/

theorem gives_repeated {α : Type} {reader : Reader α} {write : α → Bytes} {fits : α → Prop}
    (h : Gives reader fun value taken => write value = taken ∧ fits value) :
    ∀ count, Gives (repeated reader count) fun items taken =>
      items.flatMap write = taken ∧ items.length = count ∧ ∀ item ∈ items, fits item
  | 0 => Gives.pure ⟨rfl, rfl, fun _ hitem => nomatch hitem⟩
  | count + 1 => by
      refine h.bind ?_
      rintro first - ⟨rfl, hfirst⟩
      refine (gives_repeated h count).bind ?_
      rintro rest - ⟨rfl, rfl, hrest⟩
      refine Gives.pure ⟨?_, rfl, ?_⟩
      · rw [List.append_nil, List.flatMap_cons]
      · exact List.forall_mem_cons.mpr ⟨hfirst, hrest⟩

theorem gives_counted {α : Type} (field : Field) {reader : Reader α} {write : α → Bytes}
    {fits : α → Prop} (h : Gives reader fun value taken => write value = taken ∧ fits value) :
    Gives (Reader.counted field reader) fun items taken =>
      Record.counted write items = taken ∧ items.length ≤ maxCount ∧ ∀ item ∈ items, fits item := by
  refine (gives_number field 4).bind ?_
  rintro count - ⟨rfl, hlt⟩
  refine (gives_repeated h count).mono ?_
  rintro items - ⟨rfl, rfl, hfits⟩
  exact ⟨rfl, Nat.le_of_lt_succ hlt, hfits⟩

theorem gives_pending :
    Gives Reader.pending fun value taken => Record.pending value = taken := by
  refine (gives_word _).bind ?_
  rintro batch - ⟨rfl, -⟩
  refine (gives_word _).bind ?_
  rintro offset - ⟨rfl, -⟩
  refine (gives_word _).bind ?_
  rintro length - ⟨rfl, -⟩
  refine Gives.pure ?_
  rw [List.append_nil, Record.pending, List.append_assoc]

theorem gives_event :
    Gives Reader.event fun value taken => Record.event value = taken := by
  refine (gives_client _).bind ?_
  rintro client - rfl
  refine (gives_word _).bind ?_
  rintro number - ⟨rfl, -⟩
  refine Gives.pure ?_
  rw [List.append_nil, Record.event]

/-!
## Snapshots
-/

theorem gives_segmentBase :
    Gives (Reader.segment 0) fun value taken =>
      segmentBase value = taken ∧ value.pending.length ≤ maxCount := by
  refine (gives_word _).bind ?_
  rintro id - ⟨rfl, -⟩
  refine (gives_text _).bind ?_
  rintro name - ⟨rfl, -⟩
  refine (gives_word _).bind ?_
  rintro length - ⟨rfl, -⟩
  refine (gives_word _).bind ?_
  rintro storageLength - ⟨rfl, -⟩
  refine (gives_word _).bind ?_
  rintro startOffset - ⟨rfl, -⟩
  refine gives_flags.bind ?_
  rintro ⟨isSealed, merged⟩ - rfl
  refine gives_parent.bind ?_
  rintro parent - rfl
  refine (gives_counted _ (gives_pending.mono fun _ _ h => ⟨h, trivial⟩)).bind ?_
  rintro pending - ⟨rfl, hcount, -⟩
  have hnone : Gives (Pure.pure ([] : List (ClientId × Nat))) fun _ taken => taken = [] :=
    Gives.pure rfl
  refine hnone.bind ?_
  rintro events - rfl
  refine Gives.pure ⟨?_, hcount⟩
  simp only [segmentBase, Record.flags, List.append_assoc, List.append_nil]

structure ListedSegment.CountsFit (item : ListedSegment) : Prop where
  pending : item.base.pending.length ≤ maxCount
  events : item.events.length ≤ maxCount

theorem gives_listedSegment :
    Gives listedSegment fun item taken => item.bytes = taken ∧ item.CountsFit := by
  refine gives_segmentBase.bind ?_
  rintro base - ⟨rfl, hpending⟩
  refine (gives_counted _ (gives_event.mono fun _ _ h => ⟨h, trivial⟩)).bind ?_
  rintro events - ⟨rfl, hevents, -⟩
  refine Gives.pure ⟨?_, hpending, hevents⟩
  rw [List.append_nil, ListedSegment.bytes]

theorem gives_listing :
    Gives listing fun value taken =>
      taken = Record.word value.1 ++ Record.counted ListedSegment.bytes value.2 ∧
        ∀ item ∈ value.2, item.CountsFit := by
  refine (gives_word _).bind ?_
  rintro nextId - ⟨rfl, -⟩
  refine (gives_counted _ gives_listedSegment).bind ?_
  rintro items - ⟨rfl, -, hfit⟩
  exact Gives.pure ⟨by rw [List.append_nil], hfit⟩

theorem ListedSegment.segment_bytes {item : ListedSegment}
    (h : item.events.Pairwise (fun a b => a.1 < b.1)) :
    Record.segment item.segment = item.bytes := by
  have hevents : (SortedMap.ofList item.events).entries = item.events :=
    SortedMap.entries_ofList h
  show segmentBase item.base ++ counted event (SortedMap.ofList item.events).entries = _
  rw [hevents, ListedSegment.bytes]

/-!
## What decoding lets through and encoding refuses
-/

/-- A run of checks fails for one of these causes, and passes only if there is none. -/
def Only (checks : Except EncodeError Unit) (cause : EncodeError → Prop) : Prop :=
  match checks with
  | .ok () => ∀ e, ¬cause e
  | .error e => cause e

namespace Only

variable {first : Except EncodeError Unit} {rest : Unit → Except EncodeError Unit}
  {early late cause : EncodeError → Prop}

theorem congr (h : Only first cause) (hsame : ∀ e, cause e ↔ late e) : Only first late := by
  rw [← funext fun e => propext (hsame e)]
  exact h

theorem bind (h : Only first early) (hrest : Only (rest ()) late) :
    Only (first >>= rest) fun e => early e ∨ late e := by
  cases first with
  | error e => exact .inl h
  | ok u =>
      change Only (rest ()) _
      cases hlate : rest () with
      | error e =>
          rw [hlate] at hrest
          exact .inr hrest
      | ok v =>
          rw [hlate] at hrest
          intro e hcause
          exact hcause.elim (h e) (hrest e)

theorem skip (h : first = .ok ()) (hrest : Only (rest ()) cause) : Only (first >>= rest) cause := by
  rw [h]
  exact hrest

theorem pass {bad : Prop} [Decidable bad] {e : EncodeError} (h : ¬bad)
    (hrest : Only (rest ()) cause) :
    Only (if bad then Except.error e >>= rest else rest ()) cause := by
  rwa [if_neg h]

theorem guard {bad : Prop} [Decidable bad] {e : EncodeError} (hrest : Only (rest ()) cause) :
    Only (if bad then Except.error e >>= rest else rest ())
      fun e' => (bad ∧ e' = e) ∨ cause e' := by
  split
  · exact .inl ⟨‹_›, rfl⟩
  · exact hrest.congr fun e' => by simp [*]

theorem of_ok (h : first = .ok ()) : Only first fun _ => False := by
  rw [h]
  exact fun _ hcause => hcause

end Only

theorem checkId_only (field : Field) {id : SegmentId} (h : id ≤ maxOffset) :
    Only (checkId field id) fun e => id = 0 ∧ e = ⟨field, .notAssigned⟩ := by
  unfold checkId
  split
  · exact ⟨‹_›, rfl⟩
  · rw [checkOffset_eq_ok_iff.mpr h]
    exact fun _ hcause => absurd hcause.1 ‹_›

theorem checkName_only {name : String} (h : name.utf8ByteSize ≤ maxNameLength) :
    Only (checkName name) fun e => name = "" ∧ e = ⟨.name, .emptyName⟩ := by
  unfold checkName
  split
  · exact ⟨String.isEmpty_iff.mp ‹_›, rfl⟩
  · rw [if_neg (Nat.not_lt.mpr h)]
    exact fun _ hcause => absurd (String.isEmpty_iff.mpr hcause.1) ‹_›

theorem checkOperation_only {op : Operation} (h : op.FitsRecord) :
    Only (checkOperation op) op.Lacks := by
  cases op with
  | append segment offset client event data =>
      obtain ⟨hsegment, hoffset, hevent, hdata, hrange⟩ := h
      have hrest : Only (do
          checkOffset .offset offset
          checkOffset .eventNumber event
          if maxDataLength < data.length then .error ⟨.data, .dataTooLong data.length⟩
          if !Table.endsInRange offset data.length then .error ⟨.data, .dataEndTooLarge⟩)
            fun _ => False := by
        refine Only.skip (checkOffset_eq_ok_iff.mpr hoffset) ?_
        refine Only.skip (checkOffset_eq_ok_iff.mpr hevent) ?_
        exact Only.pass (Nat.not_lt.mpr hdata) (Only.of_ok (by simp [hrange]; rfl))
      refine Only.congr (Only.bind (checkId_only _ hsegment) hrest) fun e => ?_
      simp [Operation.lacks_iff, Operation.ids, Operation.name?]
  | «seal» segment length =>
      refine Only.congr (Only.bind (checkId_only _ h.1)
        (Only.of_ok (checkOffset_eq_ok_iff.mpr h.2))) fun e => ?_
      simp [Operation.lacks_iff, Operation.ids, Operation.name?]
  | merge parent batch length offset =>
      obtain ⟨hparent, hbatch, hlength, hoffset, hrange⟩ := h
      have hrest : Only (do
          checkOffset .length length
          checkOffset .parentOffset offset
          if !Table.endsInRange offset length then .error ⟨.length, .mergeEndTooLarge⟩)
            fun _ => False := by
        refine Only.skip (checkOffset_eq_ok_iff.mpr hlength) ?_
        refine Only.skip (checkOffset_eq_ok_iff.mpr hoffset) ?_
        exact Only.of_ok (by simp [hrange]; rfl)
      refine Only.congr (Only.bind (checkId_only _ hparent)
        (Only.bind (checkId_only _ hbatch) (Only.guard hrest))) fun e => ?_
      simp [Operation.lacks_iff, Operation.ids, Operation.name?, or_assoc, eq_comm]
  | checkpoint snapshot => exact h.elim
  | create segment name =>
      refine Only.congr (Only.bind (checkId_only _ h.1) (checkName_only h.2)) fun e => ?_
      simp [Operation.lacks_iff, Operation.ids, Operation.name?]
  | createBatch batch name parent =>
      obtain ⟨hbatch, hname, hparent⟩ := h
      refine Only.congr (Only.bind (checkId_only _ hbatch)
        (Only.bind (checkName_only hname) (checkId_only _ hparent))) fun e => ?_
      simp only [Operation.lacks_iff, Operation.ids, Operation.name?, List.mem_cons,
        List.not_mem_nil, exists_eq_or_imp, exists_eq_left, exists_false, reduceCtorEq, or_false,
        false_and,
        Option.some.injEq, or_assoc]
      exact or_congr_right or_comm
  | truncate segment offset =>
      refine Only.congr (Only.bind (checkId_only _ h.1)
        (Only.of_ok (checkOffset_eq_ok_iff.mpr h.2))) fun e => ?_
      simp [Operation.lacks_iff, Operation.ids, Operation.name?]

/-!
## Whole records
-/

theorem gives_ensureInRange (field : Field) (length start : Nat) :
    Gives (ensureInRange field length start) fun _ taken =>
      taken = [] ∧ Table.endsInRange start length = true := by
  refine Gives.ite (fun hrange => ?_) fun _ => Gives.fail
  exact Gives.pure ⟨rfl, hrange⟩

theorem gives_payload {kind : RecordKind} (version : UInt8) (hkind : kind ≠ .checkpoint) :
    Gives (Reader.payload kind version) fun op taken =>
      op.kind = kind ∧ Record.payload op = taken ∧ op.FitsRecord := by
  cases kind with
  | append =>
      refine (gives_word _).bind ?_
      rintro segment - ⟨rfl, hsegment⟩
      refine (gives_word _).bind ?_
      rintro offset - ⟨rfl, hoffset⟩
      refine (gives_client _).bind ?_
      rintro client - rfl
      refine (gives_word _).bind ?_
      rintro event - ⟨rfl, hevent⟩
      refine (gives_data _).bind ?_
      rintro data - ⟨rfl, hdata⟩
      refine (gives_ensureInRange _ _ _).bind ?_
      rintro - - ⟨rfl, hrange⟩
      refine Gives.pure ⟨rfl, ?_, hsegment, hoffset, hevent, hdata, hrange⟩
      simp only [Record.payload, List.append_assoc, List.append_nil]
  | «seal» =>
      refine (gives_word _).bind ?_
      rintro segment - ⟨rfl, hsegment⟩
      refine (gives_word _).bind ?_
      rintro length - ⟨rfl, hlength⟩
      refine Gives.pure ⟨rfl, ?_, hsegment, hlength⟩
      simp only [Record.payload, List.append_nil]
  | merge =>
      refine (gives_word _).bind ?_
      rintro parent - ⟨rfl, hparent⟩
      refine (gives_word _).bind ?_
      rintro batch - ⟨rfl, hbatch⟩
      refine (gives_word _).bind ?_
      rintro length - ⟨rfl, hlength⟩
      refine (gives_word _).bind ?_
      rintro offset - ⟨rfl, hoffset⟩
      refine (gives_ensureInRange _ _ _).bind ?_
      rintro - - ⟨rfl, hrange⟩
      refine Gives.pure ⟨rfl, ?_, hparent, hbatch, hlength, hoffset, hrange⟩
      simp only [Record.payload, List.append_assoc, List.append_nil]
  | checkpoint => exact absurd rfl hkind
  | create =>
      refine (gives_word _).bind ?_
      rintro segment - ⟨rfl, hsegment⟩
      refine (gives_text _).bind ?_
      rintro name - ⟨rfl, hname⟩
      refine Gives.pure ⟨rfl, ?_, hsegment, hname⟩
      simp only [Record.payload, List.append_nil]
  | createBatch =>
      refine (gives_word _).bind ?_
      rintro batch - ⟨rfl, hbatch⟩
      refine (gives_text _).bind ?_
      rintro name - ⟨rfl, hname⟩
      refine (gives_word _).bind ?_
      rintro parent - ⟨rfl, hparent⟩
      refine Gives.pure ⟨rfl, ?_, hbatch, hname, hparent⟩
      simp only [Record.payload, List.append_assoc, List.append_nil]
  | truncate =>
      refine (gives_word _).bind ?_
      rintro segment - ⟨rfl, hsegment⟩
      refine (gives_word _).bind ?_
      rintro offset - ⟨rfl, hoffset⟩
      refine Gives.pure ⟨rfl, ?_, hsegment, hoffset⟩
      simp only [Record.payload, List.append_nil]

theorem gives_header :
    Gives Reader.header fun header taken =>
      Record.header header.kind header.version header.seq = taken ∧
        header.seq ≤ maxOffset ∧ ¬header.kind.version < header.version := by
  refine (gives_byte _).bind ?_
  rintro tag - rfl
  split
  · exact Gives.fail
  · rename_i kind hkind
    refine (gives_byte _).bind ?_
    rintro version - rfl
    refine Gives.ite (fun _ => Gives.fail) fun hversion => ?_
    refine (gives_word _).bind ?_
    rintro seq - ⟨rfl, hseq⟩
    refine Gives.pure ⟨?_, hseq, hversion⟩
    rw [Record.header, RecordKind.tag_of_ofTag? hkind, List.append_nil]
    rfl

theorem record_of_decode {written : Bytes} {header : Header} {op : Operation}
    (h : decode written = .ok (header, op)) :
    Reader.record written = .ok ((header, op), []) := by
  unfold decode at h
  split at h
  · cases h
  · rename_i header' op' rest hrecord
    split at h
    · rename_i hrest
      cases h
      rw [hrecord, List.isEmpty_iff.mp hrest]
    · cases h

theorem exists_of_decode {written : Bytes} {header : Header} {op : Operation}
    (h : decode written = .ok (header, op)) :
    ∃ body, Reader.header written = .ok (header, body) ∧
      Reader.payload header.kind header.version body = .ok (op, []) := by
  obtain ⟨header', body, hheader, hpayload⟩ := ok_of_reader_bind_ok (record_of_decode h)
  obtain ⟨op', rest, hop, hpair⟩ := ok_of_reader_bind_ok hpayload
  cases hpair
  exact ⟨body, hheader, hop⟩

/-- What the encoding of an operation under a sequence number can lack. -/
def Lacks (seq : SequenceNumber) (op : Operation) (e : EncodeError) : Prop :=
  (seq = 0 ∧ e = ⟨.sequenceNumber, .notAssigned⟩) ∨ op.Lacks e

/-- What is refused is refused for a cause, and what is written is the record. -/
theorem encode_only {seq : SequenceNumber} {op : Operation} (hseq : seq ≤ maxOffset)
    (h : op.FitsRecord) :
    (encode seq op = .ok (bytes seq op) ∧ ∀ e, ¬Lacks seq op e) ∨
      ∃ e, encode seq op = .error e ∧ Lacks seq op e := by
  have hcheck : Only (check seq op) (Lacks seq op) :=
    Only.bind (checkId_only _ hseq) (checkOperation_only h)
  unfold encode
  cases heq : check seq op with
  | ok u =>
      rw [heq] at hcheck
      exact .inl ⟨rfl, hcheck⟩
  | error e =>
      rw [heq] at hcheck
      exact .inr ⟨e, rfl, hcheck⟩

theorem listing_of_decode {written : Bytes} {header : Header} {snapshot : Table}
    (h : decode written = .ok (header, .checkpoint snapshot)) (hversion : header.version = 1) :
    header = .of header.seq (.checkpoint snapshot) ∧ ∃ items, listing? written = some items ∧
      Table.ofSegments (items.map ListedSegment.segment) snapshot.nextId = .ok snapshot ∧
        (∀ item ∈ items, item.CountsFit) ∧
          written = Record.header .checkpoint 1 header.seq ++
            (Record.word snapshot.nextId ++ Record.counted ListedSegment.bytes items) := by
  obtain ⟨body, hheader, hpayload⟩ := exists_of_decode h
  obtain ⟨taken, hwritten, hsame, -, -⟩ := gives_header _ _ _ hheader
  have hkind : header.kind = .checkpoint := by
    apply Decidable.byContradiction
    intro hne
    obtain ⟨-, -, hop, -⟩ := gives_payload _ hne _ _ _ hpayload
    exact hne hop.symm
  rw [hkind, hversion] at hpayload hsame
  obtain ⟨snapshot', rest, htable, hpair⟩ := ok_of_reader_bind_ok hpayload
  cases hpair
  rw [table_one] at htable
  obtain ⟨⟨nextId, items⟩, rest, hlisting, hbuild⟩ := ok_of_reader_bind_ok htable
  obtain ⟨listed, hbody, hbytes, hfit⟩ := gives_listing _ _ _ hlisting
  dsimp only at hbuild
  cases hsegments : Table.ofSegments (items.map ListedSegment.segment) nextId with
  | error cause =>
      rw [hsegments] at hbuild
      cases hbuild
  | ok built =>
      rw [hsegments] at hbuild
      cases hbuild
      cases Table.nextId_of_ofSegments hsegments
      refine ⟨?_, items, listing?_eq_some hheader hlisting, hsegments, hfit, ?_⟩
      · obtain ⟨kind, version, seq⟩ := header
        cases hkind
        cases hversion
        rfl
      · rw [hwritten, hbody, ← hsame, hbytes, List.append_nil]

theorem countsFit_of_ofSegments {items : List ListedSegment} {nextId : SegmentId}
    {snapshot : Table}
    (h : Table.ofSegments (items.map ListedSegment.segment) nextId = .ok snapshot)
    (hfit : ∀ item ∈ items, item.CountsFit) : snapshot.CountsFit := by
  intro segment hsegment
  obtain ⟨item, hitem, rfl⟩ := List.mem_map.mp (Table.mem_of_ofSegments h hsegment)
  exact ⟨(hfit item hitem).pending,
    Nat.le_trans (SortedMap.length_entries_ofList_le _) (hfit item hitem).events⟩

theorem Ascending.table_eq {items : List ListedSegment} (hascending : Ascending items)
    {snapshot : Table}
    (h : Table.ofSegments (items.map ListedSegment.segment) snapshot.nextId = .ok snapshot) :
    Record.table snapshot =
      Record.word snapshot.nextId ++ Record.counted ListedSegment.bytes items := by
  have hlist : snapshot.list = items.map ListedSegment.segment := by
    refine Table.list_of_ofSegments h (List.pairwise_map.mpr ?_)
    exact hascending.segments
  have hitems : (items.map ListedSegment.segment).flatMap Record.segment =
      items.flatMap ListedSegment.bytes := by
    rw [List.flatMap_map, List.flatMap_def, List.flatMap_def]
    refine congrArg List.flatten (List.map_congr_left fun item hitem => ?_)
    exact ListedSegment.segment_bytes (hascending.clients item hitem)
  rw [Record.table, Record.counted, Record.counted, hlist, hitems, List.length_map]

theorem ascending_of_wellFormed {snapshot : Table} (h : snapshot.WellFormed) :
    Ascending (snapshot.list.map .of) where
  segments := List.pairwise_map.mpr h.ids_ascending
  clients := by
    intro item hitem
    obtain ⟨segment, -, rfl⟩ := List.mem_map.mp hitem
    exact segment.clientEvents.ascending

theorem listing?_bytes {seq : SequenceNumber} {snapshot : Table}
    (h : check seq (.checkpoint snapshot) = .ok ()) (hcounts : snapshot.CountsFit) :
    listing? (bytes seq (.checkpoint snapshot)) = some (snapshot.list.map .of) := by
  obtain ⟨hseq, hfields⟩ := check_eq_ok_iff.mp h
  have hheader := takes_header (UInt8.le_refl RecordKind.checkpoint.version) hseq.2
    (Record.table snapshot)
  have hlisting := takes_listing hfields hcounts []
  rw [List.append_nil] at hlisting
  exact listing?_eq_some hheader hlisting

theorem encode_regular {written : Bytes} {header : Header} {op : Operation}
    (h : decode written = .ok (header, op)) (hop : op.isCheckpoint = false) :
    (encode header.seq op = .ok written ∧ ∀ e, ¬Lacks header.seq op e) ∨
      ∃ e, encode header.seq op = .error e ∧ Lacks header.seq op e := by
  obtain ⟨body, hheader, hpayload⟩ := exists_of_decode h
  obtain ⟨taken, hwritten, hsame, hseq, hversion⟩ := gives_header _ _ _ hheader
  have hkind : header.kind ≠ .checkpoint := by
    intro hkind
    rw [hkind] at hpayload
    obtain ⟨snapshot, rest, -, hpair⟩ := ok_of_reader_bind_ok hpayload
    cases hpair
    cases hop
  obtain ⟨fields, hbody, hof, hfields, hfits⟩ := gives_payload _ hkind _ _ _ hpayload
  have hnewest : header.version = header.kind.version := by
    have hzero : header.kind.version = 0 := by
      cases hkind' : header.kind <;> first | rfl | exact absurd hkind' hkind
    rw [hzero] at hversion ⊢
    exact UInt8.le_zero_iff.mp (UInt8.not_lt.mp hversion)
  have hbytes : bytes header.seq op = written := by
    rw [hwritten, hbody, ← hsame, ← hfields, hnewest, List.append_nil, ← hof]
    rfl
  rw [← hbytes]
  exact encode_only hseq hfits

/--
A snapshot that is written again comes back, and is the record it was read from if
that is in order.
-/
theorem decode_rewritten {written rewritten : Bytes} {header : Header} {snapshot : Table}
    (h : decode written = .ok (header, .checkpoint snapshot)) (hversion : header.version = 1)
    (hencode : encode header.seq (.checkpoint snapshot) = .ok rewritten) :
    decode rewritten = .ok (header, .checkpoint snapshot) ∧
      ∃ items, listing? written = some items ∧ (rewritten = written ↔ Ascending items) := by
  obtain ⟨hheader, items, hlisting, hbuild, hfit, hwritten⟩ := listing_of_decode h hversion
  obtain ⟨hcheck, rfl⟩ := encode_eq_ok_iff.mp hencode
  have hwf : Operation.WellFormed (.checkpoint snapshot) := Table.wellFormed_of_ofSegments hbuild
  have hcounts := countsFit_of_ofSegments hbuild hfit
  refine ⟨?_, items, hlisting, ?_, ?_⟩
  · rw [decode_of_takes (takes_record hwf hcounts hcheck), ← hheader]
  · intro hsame
    have hagain := listing?_bytes hcheck hcounts
    rw [hsame, hlisting] at hagain
    cases hagain
    exact ascending_of_wellFormed hwf
  · intro hascending
    rw [hwritten, ← hascending.table_eq hbuild]
    rfl

/--
Every operation has one record, up to the order in which a snapshot lists it.
A byte string that decodes to anything but a snapshot is what encoding the
answer gives back, unless the sequence number, an id or the name is missing or
a merge names one segment twice, and then encoding is refused for such a cause.
A snapshot of version one that can be written again is read back from what is
written, and what is written is the byte string it was read from exactly if that
lists the segments in the order of their ids and the clients of each in theirs.
-/
theorem encode_after_decode {written : Bytes} {header : Header} {op : Operation}
    (h : decode written = .ok (header, op)) :
    (op.isCheckpoint = false →
      (encode header.seq op = .ok written ∧ ∀ e, ¬Lacks header.seq op e) ∨
        ∃ e, encode header.seq op = .error e ∧ Lacks header.seq op e) ∧
    (op.isCheckpoint = true → header.version = 1 →
      ∀ rewritten, encode header.seq op = .ok rewritten →
        decode rewritten = .ok (header, op) ∧
          ∃ items, listing? written = some items ∧ (rewritten = written ↔ Ascending items)) := by
  constructor
  · exact encode_regular h
  · intro hop hversion rewritten hencode
    cases op with
    | checkpoint snapshot => exact decode_rewritten h hversion hencode
    | _ => cases hop

/-- A snapshot that lists the segments 2 and 1, and of segment 1 the clients 9 and 7. -/
private def disordered : Bytes :=
  Record.header .checkpoint 1 5 ++ (Record.word 3 ++ Record.counted ListedSegment.bytes
    [⟨{ id := 2, name := "b" }, []⟩, ⟨{ id := 1, name := "a", length := 4 }, [(9, 1), (7, 0)]⟩])

private def inOrder : Table where
  segments := SortedMap.ofList [
    (1, { id := 1, name := "a", length := 4, clientEvents := SortedMap.ofList [(7, 0), (9, 1)] }),
    (2, { id := 2, name := "b" })]
  nextId := 3

theorem encode_after_decode_disordered :
    decode disordered = .ok ({ kind := .checkpoint, version := 1, seq := 5 }, .checkpoint inOrder) ∧
      encode 5 (.checkpoint inOrder) = .ok (bytes 5 (.checkpoint inOrder)) ∧
        decode (bytes 5 (.checkpoint inOrder)) =
          .ok ({ kind := .checkpoint, version := 1, seq := 5 }, .checkpoint inOrder) ∧
            bytes 5 (.checkpoint inOrder) ≠ disordered := by
  have hdecode : decode disordered =
      .ok ({ kind := .checkpoint, version := 1, seq := 5 }, .checkpoint inOrder) :=
    ok_of_toOption (by decide +kernel)
  have hencode : encode 5 (.checkpoint inOrder) = .ok (bytes 5 (.checkpoint inOrder)) := by
    rfl
  obtain ⟨hagain, items, hlisting, hsame⟩ := (encode_after_decode hdecode).2 rfl rfl _ hencode
  refine ⟨hdecode, hencode, hagain, ?_⟩
  have hitems : listing? disordered = some [⟨{ id := 2, name := "b" }, []⟩,
      ⟨{ id := 1, name := "a", length := 4 }, [(9, 1), (7, 0)]⟩] := by decide +kernel
  rw [hitems] at hlisting
  cases hlisting
  rw [ne_eq, hsame]
  decide +kernel

end Record
end TieredStore
