import TieredStore.Ledger.Walk
import TieredStore.Proofs.Outcome
import TieredStore.Proofs.Record.RoundTrip
import TieredStore.Proofs.Slices

/-!
# Frames and walks over them

A frame gives its record back, and the length of the record stands in the frame's
first bytes, so that a walk knows where a frame ends before it has read it.  A
walk takes the frame that stands in front of it and then faces what is behind that
frame.  A torn frame is a piece of a frame that is not all of it.
-/

namespace TieredStore
namespace Frame

@[simp] theorem length_header (n : Nat) : (header n).length = headerSize := by
  rw [header, List.length_append, Bytes.length_ofNat]
  rfl

@[simp] theorem length_bytes (record : Bytes) :
    (bytes record).length = overhead + record.length := by
  unfold bytes overhead checksumSize
  simp only [List.length_append, length_header, Bytes.length_ofNat]
  omega

theorem headerSize_le_length (record : Bytes) : headerSize ≤ (bytes record).length := by
  rw [length_bytes]
  unfold overhead
  omega

theorem take_headerSize (record : Bytes) :
    (bytes record).take headerSize = header record.length := by
  unfold bytes
  rw [List.append_assoc, List.take_append_of_le_length (Nat.le_of_eq (length_header _).symm)]
  exact List.take_of_length_le (Nat.le_of_eq (length_header _))

theorem recordLength_header {record : Bytes} (h : record.length ≤ maxRecordLength) (offset : Nat) :
    recordLength (header record.length) offset = .ok record.length := by
  have hlt : record.length < Nat.pow 256 4 := Nat.lt_of_le_of_lt h (by decide)
  have htake : (header record.length).take 4 = magic := rfl
  have hdrop : (header record.length).drop 4 = Bytes.ofNat 4 record.length := rfl
  rw [recordLength, if_pos htake, hdrop, Bytes.toNat_ofNat_of_lt hlt]

theorem verify_bytes (record : Bytes) : verify (bytes record) = .ok record := by
  let body := header record.length ++ record
  have hbytes : bytes record = body ++ Bytes.ofNat 4 (Checksum.crc32 body).toNat := rfl
  have hlength : (bytes record).length - checksumSize = body.length := by
    rw [hbytes, List.length_append, Bytes.length_ofNat]
    exact Nat.add_sub_cancel _ _
  have hbody : (bytes record).take body.length = body := by
    rw [hbytes, List.take_left]
  have hsum : (bytes record).drop body.length = Bytes.ofNat 4 (Checksum.crc32 body).toNat := by
    rw [hbytes, List.drop_left]
  have hcrc : UInt32.ofNat (Bytes.toNat (Bytes.ofNat 4 (Checksum.crc32 body).toNat)) =
      Checksum.crc32 body := by
    rw [Bytes.toNat_ofNat_of_lt (UInt32.toNat_lt _), UInt32.ofNat_toNat]
  have hrecord : body.drop headerSize = record := by
    show (header record.length ++ record).drop headerSize = record
    rw [← length_header record.length, List.drop_left]
  unfold verify
  rw [if_neg (by rw [length_bytes]; omega), hlength]
  simp only [hbody, hsum, hcrc, hrecord, ne_eq, not_true_eq_false, if_false]

/-- A piece of the frame of a record, which is not all of it. -/
structure Torn (piece : Bytes) (record : Bytes) : Prop where
  isPrefix : piece <+: bytes record
  length_lt : piece.length < (bytes record).length
  fits : record.length ≤ maxRecordLength

end Frame

namespace Handle

variable {handle : Handle} {objects : Objects}

/-- The handle knows how many bytes there are, as every handle does when it is opened. -/
def Fresh (handle : Handle) (objects : Objects) : Prop :=
  handle.size objects = (handle.contents objects).length

/-- As far as the handle knows, these are all bytes, and they are there. -/
structure Sees (handle : Handle) (objects : Objects) (bytes : Bytes) : Prop where
  size_eq : handle.size objects = bytes.length
  starts : bytes <+: handle.contents objects

theorem Fresh.sees (h : handle.Fresh objects) : handle.Sees objects (handle.contents objects) :=
  ⟨h, List.prefix_rfl⟩

theorem Sees.read {bytes : Bytes} {offset length : Nat} (h : handle.Sees objects bytes)
    (hrange : offset + length ≤ bytes.length) :
    handle.read objects offset length = .ok (bytes.slice offset length) := by
  have hslice : (handle.contents objects).slice offset length = bytes.slice offset length :=
    (Bytes.slice_of_prefix h.starts hrange).symm
  unfold Handle.read
  simp only
  rw [h.size_eq, if_neg (Nat.not_lt.mpr hrange), hslice,
    if_neg (by rw [Bytes.length_slice_of_le hrange]; exact Nat.lt_irrefl _)]

end Handle

namespace Walk

/-- The bytes that a walk still has to go through are there and can be read. -/
structure Facing (walk : Walk) (objects : Objects) (rest : Bytes) : Prop where
  going : walk.finished = false
  stop_eq : walk.stop = walk.position + rest.length
  held : walk.ahead <+: rest
  readable : ∀ start count, start + count ≤ rest.length →
    walk.handle.read objects (walk.position + start) count = .ok (rest.slice start count)

theorem facing_of_sees {handle : Handle} {objects : Objects} {bytes : Bytes} {stop : Nat}
    (h : handle.Sees objects bytes) (hstop : stop ≤ bytes.length) :
    ({ handle, stop } : Walk).Facing objects (bytes.take stop) where
  going := rfl
  stop_eq := by
    rw [List.length_take, Nat.min_eq_left hstop]
    exact (Nat.zero_add _).symm
  held := List.nil_prefix
  readable := by
    intro start count hcount
    rw [List.length_take, Nat.min_eq_left hstop] at hcount
    have hslice : Bytes.slice (bytes.take stop) start count =
        Bytes.slice bytes (0 + start) count := by
      rw [← List.drop_zero (l := bytes)]
      exact Bytes.slice_slice hcount
    rw [hslice]
    exact h.read (by rw [Nat.zero_add]; exact Nat.le_trans hcount hstop)

theorem facing_take {handle : Handle} {objects : Objects} (hfresh : handle.Fresh objects)
    {stop : Nat} (h : stop ≤ (handle.contents objects).length) :
    ({ handle, stop } : Walk).Facing objects ((handle.contents objects).take stop) :=
  facing_of_sees hfresh.sees h

theorem facing_whole {handle : Handle} {objects : Objects} (hfresh : handle.Fresh objects) :
    (whole handle objects).Facing objects (handle.contents objects) := by
  have h := facing_take hfresh (Nat.le_refl (handle.contents objects).length)
  rw [List.take_length] at h
  unfold whole
  rw [hfresh]
  exact h

theorem Facing.fetch {walk : Walk} {objects : Objects} {rest : Bytes}
    (h : walk.Facing objects rest) (length : Nat) (hlength : length ≤ rest.length) :
    ∃ ahead, walk.fetch objects length = .ok (rest.take length, { walk with ahead }) ∧
      ({ walk with ahead } : Walk).Facing objects rest := by
  unfold Walk.fetch
  by_cases hheld : (walk.ahead.take length).length = length
  · have heq : walk.ahead.take length = rest.take length := by
      rw [List.length_take] at hheld
      have hle : length ≤ walk.ahead.length := by omega
      obtain ⟨more, rfl⟩ := h.held
      rw [List.take_append_of_le_length hle]
    refine ⟨walk.ahead, ?_, h⟩
    rw [heq] at hheld ⊢
    simp only [if_pos hheld]
  · have hremaining : walk.stop - walk.position = rest.length := by
      rw [h.stop_eq, Nat.add_sub_cancel_left]
    have hcount : min (max length pieceSize) rest.length ≤ rest.length := Nat.min_le_right _ _
    have hlong : length ≤ min (max length pieceSize) rest.length := by omega
    refine ⟨rest.take (min (max length pieceSize) rest.length), ?_, ?_⟩
    · have hread := h.readable 0 _ (Nat.le_trans (Nat.le_of_eq (Nat.zero_add _)) hcount)
      rw [Nat.add_zero, Bytes.slice, List.drop_zero] at hread
      simp only [if_neg hheld, hremaining, hread, List.take_take, Nat.min_eq_left hlong]
    · exact { going := h.going, stop_eq := h.stop_eq, held := List.take_prefix _ _,
              readable := h.readable }

/-!
## Steps
-/

theorem Facing.step_nil {walk : Walk} {objects : Objects} (h : walk.Facing objects []) :
    walk.step objects = .ok none := by
  have hremaining : walk.stop - walk.position = 0 := by
    rw [h.stop_eq, Nat.add_sub_cancel_left, List.length_nil]
  unfold Walk.step
  simp only [if_pos hremaining]
  rfl

theorem Facing.step_frame {walk : Walk} {objects : Objects} {record more : Bytes}
    (h : walk.Facing objects (Frame.bytes record ++ more))
    (hfits : record.length ≤ Frame.maxRecordLength) :
    ∃ after, walk.step objects = .ok (some (.frame walk.position record, after)) ∧
      after.Facing objects more ∧ after.handle = walk.handle ∧ after.stop = walk.stop ∧
      after.position = walk.position + (Frame.bytes record).length := by
  have hremaining : walk.stop - walk.position = (Frame.bytes record ++ more).length := by
    rw [h.stop_eq, Nat.add_sub_cancel_left]
  have hlength : (Frame.bytes record ++ more).length =
      Frame.overhead + record.length + more.length := by
    rw [List.length_append, Frame.length_bytes]
  have hheaderLe : Frame.headerSize ≤ (Frame.bytes record ++ more).length := by
    have := Frame.headerSize_le_length record
    rw [List.length_append]
    omega
  obtain ⟨ahead, hfetch, hfacing⟩ := h.fetch _ hheaderLe
  have hheader : (Frame.bytes record ++ more).take Frame.headerSize =
      Frame.header record.length := by
    rw [List.take_append_of_le_length (Frame.headerSize_le_length record), Frame.take_headerSize]
  obtain ⟨ahead', hfetch', hfacing'⟩ := hfacing.fetch
    (Frame.overhead + record.length) (by omega)
  have hframe : (Frame.bytes record ++ more).take (Frame.overhead + record.length) =
      Frame.bytes record := by
    rw [← Frame.length_bytes, List.take_left]
  rw [hheader] at hfetch
  rw [hframe] at hfetch'
  refine ⟨{ walk with
    position := walk.position + (Frame.overhead + record.length),
    ahead := ahead'.drop (Frame.overhead + record.length) }, ?_, ?_, rfl, rfl, ?_⟩
  · unfold Walk.step
    simp only [hremaining, hlength]
    rw [if_neg (by unfold Frame.overhead Frame.headerSize; omega),
      if_neg (by unfold Frame.overhead; omega), hfetch]
    simp only [ok_bind, Frame.recordLength_header hfits]
    rw [if_neg (by omega), hfetch']
    simp only [ok_bind, Frame.verify_bytes]
    rfl
  · have hdrop : (Frame.bytes record ++ more).drop (Frame.overhead + record.length) = more := by
      rw [← Frame.length_bytes, List.drop_left]
    refine { going := h.going, stop_eq := ?_, held := ?_, readable := ?_ }
    · show walk.stop = walk.position + (Frame.overhead + record.length) + more.length
      rw [h.stop_eq, hlength]
      omega
    · obtain ⟨unread, hunread⟩ := hfacing'.held
      have heq : (ahead' ++ unread).drop (Frame.overhead + record.length) = more := by
        rw [← hdrop, ← hunread]
      rw [List.drop_append] at heq
      exact ⟨_, heq⟩
    · intro start count hcount
      have hread := h.readable (Frame.overhead + record.length + start) count (by omega)
      rw [Bytes.slice, ← List.drop_drop, hdrop, ← Nat.add_assoc] at hread
      exact hread
  · rw [Frame.length_bytes]

end Walk
end TieredStore
