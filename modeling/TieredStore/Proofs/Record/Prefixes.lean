import TieredStore.Proofs.Record.Canonical

/-!
# No record is the start of another

How far a reader gets depends only on bytes that it has taken by then, since each
of the fields says where it ends before the field is taken.  So a reader takes the
same bytes whatever stands behind them, and on a part of these bytes it fails
because they end too soon, before anything else can be wrong with them.  A record
that can be decoded is therefore refused when it is cut short and when something
is added to it.  The first bytes of a record are its header, and the header tells
the kind of the operation.
-/

namespace TieredStore
namespace Record

open Reader

/-- The reader fails because the bytes end before the field that it takes. -/
def RunsOut {α : Type} (reader : Reader α) (written : Bytes) : Prop :=
  ∃ field need rest, rest.length < need ∧
    reader written = .error ⟨.unexpectedEnd field need rest.length, rest⟩

/-- The reader takes exactly these bytes whatever follows, and runs out on less of them. -/
structure Delimits {α : Type} (reader : Reader α) (value : α) (taken : Bytes) : Prop where
  takes : Takes reader taken value
  runsOut : ∀ front back, taken = front ++ back → back ≠ [] → RunsOut reader front

/-- Whatever the reader takes, it is told by these bytes where they end. -/
def Local {α : Type} (reader : Reader α) : Prop := Gives reader (Delimits reader)

variable {α β : Type}

theorem RunsOut.bind {reader : Reader α} {front : Bytes} (h : RunsOut reader front)
    (next : α → Reader β) : RunsOut (reader >>= next) front := by
  rcases h with ⟨field, need, rest, hshort, hfail⟩
  exists field, need, rest
  constructor
  · exact hshort
  · show Except.bind (reader front) (fun p => next p.1 p.2) = _
    rw [hfail]
    rfl

theorem RunsOut.after {reader : Reader α} {next : α → Reader β} {first front : Bytes} {a : α}
    (hfirst : Takes reader first a) (h : RunsOut (next a) front) :
    RunsOut (reader >>= next) (first ++ front) := by
  rcases h with ⟨field, need, rest, hshort, hfail⟩
  exists field, need, rest
  constructor
  · exact hshort
  · show Except.bind (reader (first ++ front)) (fun p => next p.1 p.2) = _
    rw [hfirst front]
    exact hfail

namespace Delimits

theorem pure (value : α) : Delimits (Pure.pure value) value [] where
  takes := Takes.pure value
  runsOut := by
    intro front back hnil hback
    exact absurd (List.append_eq_nil_iff.mp hnil.symm).2 hback

theorem bind {reader : Reader α} {next : α → Reader β} {first second : Bytes} {a : α} {b : β}
    (hfirst : Delimits reader a first) (hsecond : Delimits (next a) b second) :
    Delimits (reader >>= next) b (first ++ second) where
  takes := hfirst.takes.bind hsecond.takes
  runsOut := by
    intro front back hcut hback
    rcases List.append_eq_append_iff.mp hcut with hbehind | hinside
    · rcases hbehind with ⟨part, hfront, hrest⟩
      rw [hfront]
      exact (hsecond.runsOut part back hrest hback).after hfirst.takes
    · rcases hinside with ⟨part, htaken, hrest⟩
      cases part with
      | nil =>
          rw [List.append_nil] at htaken
          have hnone : RunsOut (next a) [] := hsecond.runsOut [] back hrest.symm hback
          have hafter := hnone.after hfirst.takes
          rwa [List.append_nil, htaken] at hafter
      | cons byte more =>
          have hinside : RunsOut reader front :=
            hfirst.runsOut front (byte :: more) htaken (List.cons_ne_nil byte more)
          exact hinside.bind next

end Delimits

namespace Local

theorem pure (value : α) : Local (Pure.pure value) := Gives.pure (Delimits.pure value)

theorem fail (cause : DecodeError) : Local (Reader.fail cause : Reader α) := Gives.fail

theorem bind {reader : Reader α} {next : α → Reader β} (h : Local reader)
    (hnext : ∀ value, Local (next value)) : Local (reader >>= next) := by
  apply Gives.bind h
  intro value taken hvalue
  apply (hnext value).mono
  intro answer more hanswer
  exact hvalue.bind hanswer

theorem ite {condition : Prop} [Decidable condition] {reader other : Reader α}
    (h : Local reader) (hother : Local other) : Local (if condition then reader else other) := by
  split
  · exact h
  · exact hother

end Local

/-!
## Fields
-/

namespace Reader

theorem delimits_take (field : Field) {bytes : Bytes} {count : Nat} (h : bytes.length = count) :
    Delimits (take field count) bytes bytes where
  takes := takes_take field h
  runsOut := by
    intro front back hcut hback
    have hpos := List.length_pos_iff.mpr hback
    have hlength := congrArg List.length hcut
    rw [List.length_append] at hlength
    have hshort : front.length < count := by omega
    exists field, count, front
    constructor
    · exact hshort
    · unfold take
      rw [List.take_of_length_le (Nat.le_of_lt hshort)]
      exact if_neg (Nat.ne_of_lt hshort)

theorem local_take (field : Field) (count : Nat) : Local (take field count) := by
  apply (gives_take field count).mono
  intro value taken htaken
  rcases htaken with ⟨hvalue, hlength⟩
  subst hvalue
  exact delimits_take field hlength

theorem local_number (field : Field) (width : Nat) : Local (number field width) :=
  (local_take field width).bind fun _ => Local.pure _

theorem local_byte (field : Field) : Local (byte field) :=
  (local_number field 1).bind fun _ => Local.pure _

theorem local_nonNegative (field : Field) (raw : Nat) : Local (nonNegative field raw) :=
  Local.ite (Local.pure raw) (Local.fail _)

theorem local_word (field : Field) : Local (word field) :=
  (local_number field 8).bind fun _ => local_nonNegative field _

theorem local_client (field : Field) : Local (client field) :=
  (local_number field 16).bind fun _ => Local.pure _

theorem local_text (field : Field) : Local (text field) := by
  apply (local_number field 2).bind
  intro length
  apply (local_take field length).bind
  intro raw
  cases Text.Utf8.decode raw with
  | ok value => exact Local.pure value
  | error fault => exact Local.fail _

theorem local_data (field : Field) : Local (data field) :=
  (local_number field 4).bind fun _ => local_take field _

theorem local_repeated {item : Reader α} (h : Local item) (count : Nat) :
    Local (repeated item count) := by
  induction count with
  | zero => exact Local.pure []
  | succ count ih => exact h.bind fun _ => ih.bind fun _ => Local.pure _

theorem local_counted (field : Field) {item : Reader α} (h : Local item) :
    Local (counted field item) :=
  (local_number field 4).bind fun count => local_repeated h count

theorem local_flags : Local flags := by
  apply (local_byte .flags).bind
  intro raw
  exact Local.ite (Local.fail _) (Local.pure _)

theorem local_parent : Local parent := by
  apply (local_number .parent 8).bind
  intro raw
  exact Local.ite (Local.pure none) ((local_nonNegative .parent raw).bind fun _ => Local.pure _)

theorem local_ensureInRange (field : Field) (length start : Nat) :
    Local (ensureInRange field length start) :=
  Local.ite (Local.pure ()) (Local.fail _)

/-!
## Operations
-/

theorem local_pending : Local pending := by
  apply (local_word .pendingBatch).bind
  intro batch
  apply (local_word .pendingOffset).bind
  intro offset
  exact (local_word .pendingLength).bind fun _ => Local.pure _

theorem local_event : Local event := by
  apply (local_client .clientId).bind
  intro client
  exact (local_word .eventNumber).bind fun _ => Local.pure _

theorem local_segment (version : UInt8) : Local (segment version) := by
  apply (local_word .segmentId).bind
  intro id
  apply (local_text .name).bind
  intro name
  apply (local_word .length).bind
  intro length
  apply (local_word .storageLength).bind
  intro storageLength
  apply (local_word .startOffset).bind
  intro startOffset
  apply local_flags.bind
  rintro ⟨isSealed, merged⟩
  apply local_parent.bind
  intro parent
  apply (local_counted .pendingMergeCount local_pending).bind
  intro pending
  have hevents : Local (counted .clientEventCount event) :=
    local_counted .clientEventCount local_event
  exact Local.ite ((Local.pure []).bind fun _ => Local.pure _) (hevents.bind fun _ => Local.pure _)

theorem local_table (version : UInt8) : Local (table version) := by
  apply (local_word .nextSegmentId).bind
  intro nextId
  apply (local_counted .segmentCount (local_segment version)).bind
  intro segments
  cases Table.ofSegments segments nextId with
  | ok table => exact Local.pure table
  | error cause => exact Local.fail cause

theorem local_payload (kind : RecordKind) (version : UInt8) : Local (payload kind version) := by
  cases kind with
  | append =>
      apply (local_word .segmentId).bind
      intro segment
      apply (local_word .offset).bind
      intro offset
      apply (local_client .clientId).bind
      intro client
      apply (local_word .eventNumber).bind
      intro event
      apply (local_data .data).bind
      intro data
      exact (local_ensureInRange .data data.length offset).bind fun _ => Local.pure _
  | «seal» =>
      apply (local_word .segmentId).bind
      intro segment
      exact (local_word .length).bind fun _ => Local.pure _
  | merge =>
      apply (local_word .parentSegmentId).bind
      intro parent
      apply (local_word .batchSegmentId).bind
      intro batch
      apply (local_word .length).bind
      intro length
      apply (local_word .parentOffset).bind
      intro offset
      exact (local_ensureInRange .length length offset).bind fun _ => Local.pure _
  | checkpoint => exact (local_table version).bind fun _ => Local.pure _
  | create =>
      apply (local_word .segmentId).bind
      intro segment
      exact (local_text .name).bind fun _ => Local.pure _
  | createBatch =>
      apply (local_word .batchSegmentId).bind
      intro batch
      apply (local_text .name).bind
      intro name
      exact (local_word .parentSegmentId).bind fun _ => Local.pure _
  | truncate =>
      apply (local_word .segmentId).bind
      intro segment
      exact (local_word .offset).bind fun _ => Local.pure _

theorem local_header : Local header := by
  apply (local_byte .type).bind
  intro tag
  split
  · exact Local.fail _
  · apply (local_byte .version).bind
    intro version
    exact Local.ite (Local.fail _) ((local_word .sequenceNumber).bind fun _ => Local.pure _)

theorem local_record : Local record := by
  apply local_header.bind
  intro header
  exact (local_payload header.kind header.version).bind fun _ => Local.pure _

end Reader

/-!
## Whole records
-/

variable {written more : Bytes} {header header' : Header} {op op' : Operation}

theorem delimits_of_decode (h : decode written = .ok (header, op)) :
    Delimits Reader.record (header, op) written := by
  rcases local_record _ _ _ (record_of_decode h) with ⟨taken, hwritten, htaken⟩
  rw [hwritten, List.append_nil]
  exact htaken

/-- A record that can be decoded is no proper prefix of another. -/
theorem eq_nil_of_decode_append (h : decode written = .ok (header, op))
    (hmore : decode (written ++ more) = .ok (header', op')) : more = [] := by
  have hrecord := record_of_decode hmore
  rw [(delimits_of_decode h).takes more] at hrecord
  exact congrArg Prod.snd (Except.ok.inj hrecord)

theorem decode_append (h : decode written = .ok (header, op)) (hmore : more ≠ []) :
    decode (written ++ more) = .error (.trailing more.length header.kind) := by
  have hempty : ¬more.isEmpty = true := fun hnil => hmore (List.isEmpty_iff.mp hnil)
  unfold decode
  rw [(delimits_of_decode h).takes more]
  exact if_neg hempty

theorem decode_cut {front back : Bytes} (h : decode (front ++ back) = .ok (header, op))
    (hback : back ≠ []) :
    ∃ field need found, found < need ∧ decode front = .error (.unexpectedEnd field need found) := by
  rcases (delimits_of_decode h).runsOut front back rfl hback with ⟨field, need, rest, hshort, hfail⟩
  exists field, need, rest.length
  constructor
  · exact hshort
  · unfold decode
    rw [hfail]

/--
Records tell where they end.  A byte string that can be decoded, of any kind and any
version that is read, cannot be decoded when it is cut short: the bytes end before
some field.  Nor can it be when it is extended: the bytes behind it are left over.
-/
theorem decode_delimits (h : decode written = .ok (header, op)) :
    (∀ cut, cut <+: written → cut ≠ written →
      ∃ field need found, found < need ∧
        decode cut = .error (.unexpectedEnd field need found)) ∧
    (∀ extended, written <+: extended → extended ≠ written →
      decode extended =
        .error (.trailing (extended.length - written.length) header.kind)) := by
  constructor
  · intro cut hcut hne
    rcases hcut with ⟨back, hwhole⟩
    have hback : back ≠ [] := by
      intro hnil
      rw [hnil, List.append_nil] at hwhole
      exact hne hwhole
    rw [← hwhole] at h
    exact decode_cut h hback
  · intro extended hextended hne
    rcases hextended with ⟨more, hwhole⟩
    have hmore : more ≠ [] := by
      intro hnil
      rw [hnil, List.append_nil] at hwhole
      exact hne hwhole.symm
    rw [← hwhole, List.length_append, Nat.add_sub_cancel_left]
    exact decode_append h hmore

/-- A snapshot of version zero with two segments, one of them a batch whose merge is pending. -/
private def olderSnapshot : Bytes :=
  Record.header .checkpoint 0 7 ++ (Record.word 3 ++ Record.counted segmentBase
    [{ id := 1, name := "é", length := 5, storageLength := 2, pending := [⟨2, 2, 3⟩] },
     { id := 2, name := "b", length := 3, «sealed» := true, merged := true, parent := some 1 }])

private def olderTable : Table where
  segments := SortedMap.ofList [
    (1, { id := 1, name := "é", length := 5, storageLength := 2, pending := [⟨2, 2, 3⟩] }),
    (2, { id := 2, name := "b", length := 3, «sealed» := true, merged := true, parent := some 1 })]
  nextId := 3

/-- Without its last byte the snapshot is refused, and so it is with one byte more. -/
theorem decode_delimits_older :
    decode olderSnapshot =
        .ok ({ kind := .checkpoint, version := 0, seq := 7 }, .checkpoint olderTable) ∧
      (∃ field need found, found < need ∧
        decode olderSnapshot.dropLast = .error (.unexpectedEnd field need found)) ∧
      decode (olderSnapshot ++ [0]) = .error (.trailing 1 .checkpoint) := by
  have hdecode : decode olderSnapshot =
      .ok ({ kind := .checkpoint, version := 0, seq := 7 }, .checkpoint olderTable) :=
    ok_of_toOption (by decide +kernel)
  rcases decode_delimits hdecode with ⟨hcut, hextended⟩
  refine ⟨hdecode, hcut _ (List.dropLast_prefix _) (by decide +kernel), ?_⟩
  rw [hextended (olderSnapshot ++ [0]) (List.prefix_append _ _) (by simp), List.length_append,
    Nat.add_sub_cancel_left]
  rfl

theorem decodeHeader_of_decode (h : decode written = .ok (header, op)) :
    decodeHeader written = .ok header := by
  rcases exists_of_decode h with ⟨body, hheader, -⟩
  unfold decodeHeader
  rw [hheader]

theorem decodeHeader_append (h : decodeHeader written = .ok header) (more : Bytes) :
    decodeHeader (written ++ more) = .ok header := by
  unfold decodeHeader at h ⊢
  cases hread : Reader.header written with
  | error cause =>
      rw [hread] at h
      cases h
  | ok found =>
      rcases found with ⟨header', rest⟩
      rw [hread] at h
      rcases local_header _ _ _ hread with ⟨taken, rfl, htaken⟩
      rw [List.append_assoc, htaken.takes (rest ++ more)]
      exact h

theorem kind_of_decode (h : decode written = .ok (header, op)) : op.kind = header.kind := by
  rcases exists_of_decode h with ⟨body, -, hpayload⟩
  by_cases hkind : header.kind = .checkpoint
  · rw [hkind] at hpayload ⊢
    rcases ok_of_reader_bind_ok hpayload with ⟨snapshot, rest, -, hpair⟩
    cases hpair
    rfl
  · rcases gives_payload header.version hkind _ _ _ hpayload with ⟨taken, -, hsame, -⟩
    exact hsame

end Record
end TieredStore
