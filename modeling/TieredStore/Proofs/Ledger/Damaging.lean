import TieredStore.Proofs.Checksum
import TieredStore.Proofs.Ledger.Splitting

/-!
# One changed byte in a run of frames

No two frames differ in one byte only: they would be of the same length, so that
the byte is in the record or in the checksum, and the checksum of a changed record
is another one.  So what can be read as a frame where a byte has been changed has
a length that is not the one that was written there.  That takes a changed length
field, for the length is read from nowhere else.
-/

namespace TieredStore

/-- The bytes are the same but for the one at this index. -/
def Bytes.DifferAt (index : Nat) (bytes other : Bytes) : Prop :=
  ∃ front x y back, front.length = index ∧ x ≠ y ∧ bytes = front ++ x :: back ∧
    other = front ++ y :: back

namespace Bytes.DifferAt

variable {index count : Nat} {bytes other more : Bytes}

theorem ne (h : DifferAt index bytes other) : bytes ≠ other := by
  rcases h with ⟨front, x, y, back, -, hne, rfl, rfl⟩
  intro heq
  exact hne (List.cons.inj (List.append_cancel_left heq)).1

theorem length_eq (h : DifferAt index bytes other) : bytes.length = other.length := by
  rcases h with ⟨front, x, y, back, -, -, rfl, rfl⟩
  rw [List.length_append, List.length_append, List.length_cons, List.length_cons]

theorem lt_length (h : DifferAt index bytes other) : index < bytes.length := by
  rcases h with ⟨front, x, y, back, rfl, -, rfl, -⟩
  rw [List.length_append, List.length_cons]
  exact Nat.lt_add_of_pos_right (Nat.succ_pos _)

theorem append (h : DifferAt index bytes other) (more : Bytes) :
    DifferAt index (bytes ++ more) (other ++ more) := by
  rcases h with ⟨front, x, y, back, hlength, hne, rfl, rfl⟩
  exact ⟨front, x, y, back ++ more, hlength, hne, List.append_assoc _ _ _, List.append_assoc _ _ _⟩

theorem take_eq (h : DifferAt index bytes other) (hcount : count ≤ index) :
    bytes.take count = other.take count := by
  rcases h with ⟨front, x, y, back, rfl, -, rfl, rfl⟩
  rw [List.take_append_of_le_length hcount, List.take_append_of_le_length hcount]

theorem drop_eq (h : DifferAt index bytes other) (hcount : index < count) :
    bytes.drop count = other.drop count := by
  rcases h with ⟨front, x, y, back, rfl, -, rfl, rfl⟩
  rcases Nat.exists_eq_add_of_lt hcount with ⟨extra, rfl⟩
  have hindex : front.length + extra + 1 = front.length + (extra + 1) := Nat.add_assoc _ _ _
  rw [hindex, List.drop_append, List.drop_append, Nat.add_sub_cancel_left, List.drop_succ_cons,
    List.drop_succ_cons]

theorem take (h : DifferAt index bytes other) (hcount : index < count) :
    DifferAt index (bytes.take count) (other.take count) := by
  rcases h with ⟨front, x, y, back, rfl, hne, rfl, rfl⟩
  rcases Nat.exists_eq_add_of_lt hcount with ⟨extra, rfl⟩
  have hindex : front.length + extra + 1 = front.length + (extra + 1) := Nat.add_assoc _ _ _
  refine ⟨front, x, y, back.take extra, rfl, hne, ?_, ?_⟩
  · rw [hindex, List.take_length_add_append, List.take_succ_cons]
  · rw [hindex, List.take_length_add_append, List.take_succ_cons]

theorem crc32_ne (h : DifferAt index bytes other) : Checksum.crc32 bytes ≠ Checksum.crc32 other := by
  rcases h with ⟨front, x, y, back, -, hne, rfl, rfl⟩
  exact Checksum.crc32_changed hne

theorem flipped {mask : UInt8} (hindex : index < bytes.length) (hmask : mask ≠ 0) :
    DifferAt index bytes (bytes.modify index (· ^^^ mask)) := by
  refine ⟨bytes.take index, bytes[index], bytes[index] ^^^ mask, bytes.drop (index + 1), ?_, ?_,
    ?_, ?_⟩
  · rw [List.length_take, Nat.min_eq_left (Nat.le_of_lt hindex)]
  · intro heq
    have hzero : bytes[index] ^^^ 0 = bytes[index] ^^^ mask := by rw [UInt8.xor_zero, ← heq]
    exact hmask ((UInt8.xor_right_inj _).mp hzero).symm
  · rw [← List.drop_eq_getElem_cons hindex, List.take_append_drop]
  · exact List.modify_eq_take_cons_drop hindex

theorem replaced {old new : UInt8} (hold : bytes[index]? = some old) (hne : new ≠ old) :
    DifferAt index bytes (bytes.set index new) := by
  rcases List.getElem?_eq_some_iff.mp hold with ⟨hindex, rfl⟩
  refine ⟨bytes.take index, bytes[index], new, bytes.drop (index + 1), ?_, Ne.symm hne, ?_, ?_⟩
  · rw [List.length_take, Nat.min_eq_left (Nat.le_of_lt hindex)]
  · rw [← List.drop_eq_getElem_cons hindex, List.take_append_drop]
  · exact List.set_eq_take_append_cons_drop.trans (if_pos hindex)

theorem split {front middle back : Bytes}
    (h : DifferAt (front.length + index) (front ++ (middle ++ back)) other)
    (hindex : index < middle.length) :
    ∃ changed, other = front ++ (changed ++ back) ∧ DifferAt index middle changed := by
  have hpiece : index = (middle.take index).length := by
    rw [List.length_take, Nat.min_eq_left (Nat.le_of_lt hindex)]
  rcases h with ⟨first, x, y, last, hlength, hne, hbytes, rfl⟩
  rw [← List.take_append_drop index middle, List.drop_eq_getElem_cons hindex, List.append_assoc,
    ← List.append_assoc, List.cons_append] at hbytes
  have hsame : (front ++ middle.take index).length = first.length := by
    rw [List.length_append, ← hpiece, hlength]
  rcases List.append_inj hbytes hsame with ⟨rfl, hlast⟩
  rcases List.cons.inj hlast with ⟨hx, rfl⟩
  refine ⟨middle.take index ++ y :: middle.drop (index + 1), ?_,
    middle.take index, middle[index], y, middle.drop (index + 1), hpiece.symm, hx ▸ hne, ?_, rfl⟩
  · simp only [List.append_assoc, List.cons_append]
  · rw [← List.drop_eq_getElem_cons hindex, List.take_append_drop]

end Bytes.DifferAt

namespace Frame

open Bytes

variable {record other rest rest' more : Bytes} {records before after : List Bytes} {index : Nat}

/-- Bytes behind which their checksum stands. -/
def sealing (body : Bytes) : Bytes := body ++ Bytes.ofNat 4 (Checksum.crc32 body).toNat

theorem bytes_eq_sealing (record : Bytes) :
    bytes record = sealing (header record.length ++ record) := rfl

theorem length_sealing (body : Bytes) : (sealing body).length = body.length + 4 := by
  rw [sealing, List.length_append, Bytes.length_ofNat]

/-- Bytes with their checksum differ in more than one byte from any others with theirs. -/
theorem not_differAt_sealing {body body' : Bytes} :
    ¬ DifferAt index (sealing body) (sealing body') := by
  intro h
  have hsame : body'.length = body.length := by
    have hlength := h.length_eq
    rw [length_sealing, length_sealing] at hlength
    omega
  unfold sealing at h
  by_cases hindex : index < body.length
  · have hbody := h.take hindex
    rw [List.take_left, ← hsame, List.take_left] at hbody
    have hsum := h.drop_eq hindex
    rw [List.drop_left, ← hsame, List.drop_left] at hsum
    have hnat := congrArg Bytes.toNat hsum
    rw [Bytes.toNat_ofNat_of_lt (UInt32.toNat_lt _), Bytes.toNat_ofNat_of_lt (UInt32.toNat_lt _)]
      at hnat
    exact hbody.crc32_ne (UInt32.toNat_inj.mp hnat)
  · have hbody := h.take_eq (Nat.not_lt.mp hindex)
    rw [List.take_left, ← hsame, List.take_left] at hbody
    rw [hbody] at h
    exact h.ne rfl

theorem not_differAt_bytes : ¬ DifferAt index (bytes record) (bytes other) := by
  rw [bytes_eq_sealing, bytes_eq_sealing]
  exact not_differAt_sealing

theorem run_append_inj : ∀ {before records : List Bytes}, AllFit before → AllFit records →
    Unfinished rest' → run before ++ rest = run records ++ rest' →
    ∃ more, records = before ++ more ∧ rest = run more ++ rest'
  | [], records, _, _, _, h => ⟨records, rfl, h⟩
  | record :: before, [], hbefore, _, hrest, h => by
      rw [run_nil, List.nil_append, run_cons, List.append_assoc] at h
      exact (Unfinished.not_frame (h ▸ hrest) hbefore.of_cons.1).elim
  | record :: before, other :: records, hbefore, hrecords, hrest, h => by
      rw [run_cons, run_cons, List.append_assoc, List.append_assoc] at h
      rcases eq_of_bytes_append_eq hbefore.of_cons.1 hrecords.of_cons.1 h with ⟨rfl, hmore⟩
      rcases run_append_inj hbefore.of_cons.2 hrecords.of_cons.2 hrest hmore with
        ⟨behind, hsplit, hend⟩
      exact ⟨behind, congrArg (record :: ·) hsplit, hend⟩

theorem exists_frame_at : ∀ {records : List Bytes} {offset : Nat}, offset < (run records).length →
    ∃ before record after index, records = before ++ record :: after ∧
      offset = (run before).length + index ∧ index < (bytes record).length
  | [], offset, h => absurd h (Nat.not_lt_zero _)
  | record :: rest, offset, h => by
      by_cases hfirst : offset < (bytes record).length
      · exact ⟨[], record, rest, offset, rfl, (Nat.zero_add _).symm, hfirst⟩
      · rw [run_cons, List.length_append] at h
        have hrest : offset - (bytes record).length < (run rest).length := by omega
        rcases exists_frame_at hrest with ⟨before, found, after, index, rfl, hoffset, hindex⟩
        refine ⟨record :: before, found, after, index, rfl, ?_, hindex⟩
        rw [run_cons, List.length_append]
        omega

theorem frame_at_unique : ∀ {before before' after after' : List Bytes} {record record' : Bytes}
    {index index' : Nat}, before ++ record :: after = before' ++ record' :: after' →
    (run before).length + index = (run before').length + index' →
    index < (bytes record).length → index' < (bytes record').length →
    before = before' ∧ record = record' ∧ after = after' ∧ index = index'
  | [], [], after, after', record, record', index, index', h, hoffset, _, _ => by
      rcases List.cons.inj h with ⟨rfl, rfl⟩
      exact ⟨rfl, rfl, rfl, by simpa using hoffset⟩
  | [], first :: before', after, after', record, record', index, index', h, hoffset, hindex, _ => by
      rcases List.cons.inj h with ⟨rfl, -⟩
      rw [run_nil, run_cons, List.length_append, List.length_nil] at hoffset
      omega
  | first :: before, [], after, after', record, record', index, index', h, hoffset, _, hindex => by
      rcases List.cons.inj h with ⟨rfl, -⟩
      rw [run_nil, run_cons, List.length_append, List.length_nil] at hoffset
      omega
  | first :: before, other :: before', after, after', record, record', index, index', h, hoffset,
      hindex, hindex' => by
      rcases List.cons.inj h with ⟨rfl, hrest⟩
      rw [run_cons, run_cons, List.length_append, List.length_append] at hoffset
      rcases frame_at_unique hrest (by omega) hindex hindex' with ⟨rfl, hrecord⟩
      exact ⟨rfl, hrecord⟩

/-!
## What a changed frame can be taken for
-/

variable {changed : Bytes}

theorem take_four_of_differAt (h : DifferAt index (bytes record) changed) :
    (changed ++ more).take 4 = magic ↔ 4 ≤ index := by
  have hmore := h.append more
  constructor
  · intro hmagic
    apply Nat.le_of_not_lt
    intro hindex
    have htake := hmore.take hindex
    rw [take_magic, hmagic] at htake
    exact htake.ne rfl
  · intro hindex
    rw [← hmore.take_eq hindex, take_magic]

theorem declared_of_differAt (h : DifferAt index (bytes record) changed)
    (hfits : record.length ≤ maxRecordLength) (hindex : 8 ≤ index) :
    declared (changed ++ more) = record.length := by
  have htake : (bytes record ++ more).take headerSize = (changed ++ more).take headerSize :=
    (h.append more).take_eq hindex
  rw [← declared_bytes hfits more]
  unfold declared
  rw [htake]

/-- A changed frame can be taken for a torn one only if its length has been changed. -/
theorem unfinished_of_differAt_iff (h : DifferAt index (bytes record) changed)
    (hfits : record.length ≤ maxRecordLength) :
    Unfinished (changed ++ more) ↔ 4 ≤ index ∧ index < 8 ∧
      (changed ++ more).length < overhead + declared (changed ++ more) := by
  have hlength : changed.length = overhead + record.length := by
    rw [← h.length_eq, length_bytes]
  constructor
  · rintro (hshort | ⟨hmagic, hshort⟩)
    · rw [List.length_append, hlength] at hshort
      unfold overhead at hshort
      omega
    · refine ⟨(take_four_of_differAt h).mp hmagic, Nat.lt_of_not_le ?_, hshort⟩
      intro hindex
      rw [declared_of_differAt h hfits hindex, List.length_append, hlength] at hshort
      omega
  · rintro ⟨hindex, -, hshort⟩
    exact Or.inr ⟨(take_four_of_differAt h).mpr hindex, hshort⟩

theorem drop_headerSize (record more : Bytes) : (bytes record ++ more).drop headerSize =
    record ++ (Bytes.ofNat 4 (Checksum.crc32 (header record.length ++ record)).toNat ++ more) := by
  unfold bytes
  simp only [List.append_assoc]
  rw [← length_header record.length, List.drop_left]

/--
What a changed frame can be taken for otherwise is a frame of another length, so
that one of the records is the start of the other.
-/
theorem prefix_of_differAt (h : DifferAt index (bytes record) changed)
    (hfits : record.length ≤ maxRecordLength) (hother : other.length ≤ maxRecordLength)
    (hframe : changed ++ more = bytes other ++ rest) :
    record ≠ other ∧ (record <+: other ∨ other <+: record) := by
  have hlengths : record.length ≠ other.length := by
    intro heq
    have hsame : changed.length = (bytes other).length := by
      rw [← h.length_eq, length_bytes, length_bytes, heq]
    rw [(List.append_inj hframe hsame).1] at h
    exact not_differAt_bytes h
  have hindex : index < headerSize := by
    apply Nat.lt_of_not_le
    intro hlarge
    have hdeclared : declared (changed ++ more) = record.length :=
      declared_of_differAt h hfits hlarge
    rw [hframe, declared_bytes hother] at hdeclared
    exact hlengths hdeclared.symm
  -- the change is in the header, so both records start right behind it
  have hbehind := (h.append more).drop_eq hindex
  rw [hframe, drop_headerSize, drop_headerSize] at hbehind
  refine ⟨fun heq => hlengths (congrArg List.length heq), ?_⟩
  exact List.prefix_or_prefix_of_prefix (List.prefix_append record _)
    (hbehind ▸ List.prefix_append other _)

/-!
## A changed frame
-/

theorem verify_mismatch {frame : Bytes} (hlength : overhead ≤ frame.length)
    (hframe : ∀ body, frame ≠ sealing body) :
    ∃ expected actual, expected ≠ actual ∧
      verify frame = .error (.checksumMismatch expected actual) := by
  let body := frame.take (frame.length - checksumSize)
  let sum := frame.drop (frame.length - checksumSize)
  have hsum : sum.length = 4 := by
    show (frame.drop (frame.length - checksumSize)).length = 4
    rw [List.length_drop]
    unfold overhead headerSize checksumSize at *
    omega
  have hne : UInt32.ofNat (Bytes.toNat sum) ≠ Checksum.crc32 body := by
    intro heq
    apply hframe body
    rw [sealing, ← heq, UInt32.toNat_ofNat_of_lt' (Bytes.toNat_lt hsum), Bytes.ofNat_toNat hsum]
    exact (List.take_append_drop _ _).symm
  refine ⟨_, _, hne, ?_⟩
  unfold verify
  rw [if_neg (Nat.not_lt.mpr hlength)]
  exact if_pos hne

/-- A frame gives its record back, and with any one byte changed its checksum is wrong. -/
theorem changed_byte_refused {frame : Bytes} (h : encode record = .ok frame) :
    verify frame = .ok record ∧
      ∀ (index : Nat) (old new : UInt8), frame[index]? = some old → new ≠ old →
        ∃ expected actual, expected ≠ actual ∧
          verify (frame.set index new) = .error (.checksumMismatch expected actual) := by
  have hframe : frame = bytes record := by
    unfold encode at h
    split at h
    · cases h
    · exact (Except.ok.inj h).symm
  subst hframe
  refine ⟨verify_bytes record, ?_⟩
  intro index old new hold hne
  have hdiffer : DifferAt index (bytes record) ((bytes record).set index new) :=
    DifferAt.replaced hold hne
  apply verify_mismatch
  · rw [List.length_set, length_bytes]
    exact Nat.le_add_right _ _
  · intro body hbody
    rw [hbody, bytes_eq_sealing] at hdiffer
    exact not_differAt_sealing hdiffer

/-- The least byte of the length, and the last byte of the checksum. -/
theorem changed_byte_refused_both_ends :
    encode [1, 2] = .ok (bytes [1, 2]) ∧ verify (bytes [1, 2]) = .ok [1, 2] ∧
      (bytes [1, 2])[7]? = some 2 ∧ (bytes [1, 2])[13]? = some 0xD8 ∧
      ∀ index ∈ [7, 13], ∃ expected actual, expected ≠ actual ∧
        verify ((bytes [1, 2]).set index 3) = .error (.checksumMismatch expected actual) := by
  have hencode : encode [1, 2] = .ok (bytes [1, 2]) := rfl
  have hlength : (bytes [1, 2])[7]? = some 2 := by decide +kernel
  have hsum : (bytes [1, 2])[13]? = some 0xD8 := by decide +kernel
  rcases changed_byte_refused hencode with ⟨hverify, hchanged⟩
  refine ⟨hencode, hverify, hlength, hsum, ?_⟩
  intro index hindex
  rcases List.mem_cons.mp hindex with rfl | hlast
  · exact hchanged 7 2 3 hlength (by decide)
  · rw [List.mem_singleton.mp hlast]
    exact hchanged 13 0xD8 3 hsum (by decide)

end Frame
end TieredStore
