import TieredStore.Proofs.Ledger.Framing
import TieredStore.Proofs.Record.Canonical

/-!
# How a byte string falls into frames

Any byte string starts with a run of complete frames.  What stands behind the last
of them is either unfinished, as it ends before the frame does that it begins, or
damaged: it has a wrong magic or a wrong checksum.  The first bytes of a frame say
where it ends, so a byte string falls into frames in one way only.
-/

namespace TieredStore
namespace Frame

def run (records : List Bytes) : Bytes := records.flatMap bytes

/-- Every record has a length that its frame can tell. -/
def AllFit (records : List Bytes) : Prop := ∀ record ∈ records, record.length ≤ maxRecordLength

def declared (front : Bytes) : Nat := Bytes.toNat ((front.take headerSize).drop 4)

/--
The bytes end before the frame does that they begin: there are too few to tell
its length, or fewer than they tell.  So it is with no bytes at all.
-/
def Unfinished (rest : Bytes) : Prop :=
  rest.length < headerSize ∨ rest.take 4 = magic ∧ rest.length < overhead + declared rest

/-- The bytes, which stand at `position` of a ledger, do not start with a frame, for this reason. -/
inductive Damaged (rest : Bytes) (position : Nat) : Error → Prop
  | magic : headerSize ≤ rest.length → rest.take 4 ≠ Frame.magic →
      Damaged rest position (.corrupt (.badMagic position))
  | checksum {e : Error} : rest.take 4 = Frame.magic → overhead + declared rest ≤ rest.length →
      verify (rest.take (overhead + declared rest)) = .error e → Damaged rest position e

/-- Damage is found only where there are bytes enough to tell a length. -/
theorem Damaged.headerSize_le {rest : Bytes} {position : Nat} {e : Error}
    (h : Damaged rest position e) : headerSize ≤ rest.length := by
  cases h with
  | magic hheader _ => exact hheader
  | checksum _ hlength _ =>
      exact Nat.le_trans (Nat.le_add_right _ _) (Nat.le_of_add_right_le hlength)

theorem unfinished_nil : Unfinished [] := Or.inl (by decide)

@[simp] theorem run_nil : run [] = [] := rfl

@[simp] theorem run_cons (record : Bytes) (rest : List Bytes) :
    run (record :: rest) = bytes record ++ run rest := rfl

@[simp] theorem run_append (first second : List Bytes) :
    run (first ++ second) = run first ++ run second := List.flatMap_append

theorem length_le_length_run (records : List Bytes) : records.length ≤ (run records).length :=
  Record.length_le_length_flatMap fun record => by
    apply List.ne_nil_of_length_pos
    rw [length_bytes]
    exact Nat.lt_of_lt_of_le (show 0 < overhead by decide) (Nat.le_add_right _ _)

theorem AllFit.of_cons {record : Bytes} {rest : List Bytes} (h : AllFit (record :: rest)) :
    record.length ≤ maxRecordLength ∧ AllFit rest := List.forall_mem_cons.mp h

/-!
## The front of a frame
-/

variable {record more rest : Bytes} {position : Nat}

theorem take_magic (record more : Bytes) : (bytes record ++ more).take 4 = magic := by
  unfold bytes header
  rw [List.append_assoc, List.append_assoc, List.append_assoc]
  rfl

theorem take_header (record more : Bytes) :
    (bytes record ++ more).take headerSize = header record.length := by
  rw [List.take_append_of_le_length (headerSize_le_length record), take_headerSize]

theorem declared_bytes (h : record.length ≤ maxRecordLength) (more : Bytes) :
    declared (bytes record ++ more) = record.length := by
  have hlt : record.length < Nat.pow 256 4 := Nat.lt_of_le_of_lt h (by decide)
  unfold declared
  rw [take_header]
  show Bytes.toNat (Bytes.ofNat 4 record.length) = record.length
  exact Bytes.toNat_ofNat_of_lt hlt

theorem declared_le {front : Bytes} (h : headerSize ≤ front.length) :
    declared front ≤ maxRecordLength := by
  have hlength : ((front.take headerSize).drop 4).length = 4 := by
    rw [List.length_drop, List.length_take, Nat.min_eq_left h]
    rfl
  exact Nat.le_of_lt_succ (Bytes.toNat_lt hlength)

theorem header_declared (hmagic : rest.take 4 = magic) (hlength : headerSize ≤ rest.length) :
    header (declared rest) = rest.take headerSize := by
  have hfour : ((rest.take headerSize).drop 4).length = 4 := by
    rw [List.length_drop, List.length_take, Nat.min_eq_left hlength]
    rfl
  have htake : (rest.take headerSize).take 4 = magic := by
    rw [List.take_take]
    exact hmagic
  unfold header declared
  rw [Bytes.ofNat_toNat hfour, ← htake, List.take_append_drop]

theorem recordLength_of_magic {rest : Bytes} (h : rest.take 4 = magic) (position : Nat) :
    recordLength (rest.take headerSize) position = .ok (declared rest) :=
  if_pos (by rw [List.take_take]; exact h)

theorem recordLength_of_badMagic {rest : Bytes} (h : rest.take 4 ≠ magic) (position : Nat) :
    recordLength (rest.take headerSize) position = .error (.corrupt (.badMagic position)) :=
  if_neg (by rw [List.take_take]; exact h)

theorem bytes_of_verify {frame : Bytes} (hmagic : frame.take 4 = magic)
    (hlength : frame.length = overhead + declared frame) (h : verify frame = .ok record) :
    frame = bytes record ∧ record.length = declared frame := by
  have hlong : ¬ frame.length < overhead := by omega
  unfold verify at h
  rw [if_neg hlong] at h
  extract_lets body expected actual at h
  split at h
  · cases h
  rename_i hsum
  have hrecord : body.drop headerSize = record := Except.ok.inj h
  have hbody : body.length = headerSize + declared frame := by
    show (frame.take (frame.length - checksumSize)).length = _
    rw [List.length_take, hlength]
    unfold overhead checksumSize headerSize
    omega
  have hrecordLength : record.length = declared frame := by
    rw [← hrecord, List.length_drop, hbody]
    exact Nat.add_sub_cancel_left _ _
  have hheader : header record.length = body.take headerSize := by
    have hheaderLe : headerSize ≤ frame.length := by
      rw [hlength]
      unfold overhead
      omega
    rw [hrecordLength, header_declared hmagic hheaderLe]
    show _ = (frame.take _).take headerSize
    rw [List.take_take, Nat.min_eq_left]
    rw [hlength]
    unfold overhead checksumSize headerSize
    omega
  have hfour : (frame.drop (frame.length - checksumSize)).length = 4 := by
    rw [List.length_drop, hlength]
    unfold overhead checksumSize headerSize
    omega
  have hcrc : (Checksum.crc32 body).toNat =
      Bytes.toNat (frame.drop (frame.length - checksumSize)) := by
    have hexpected : expected = Checksum.crc32 body := Decidable.not_not.mp hsum
    rw [← hexpected]
    exact UInt32.toNat_ofNat_of_lt' (Bytes.toNat_lt hfour)
  refine ⟨?_, hrecordLength⟩
  unfold bytes
  simp only
  rw [hheader, ← hrecord, List.take_append_drop, hcrc, Bytes.ofNat_toNat hfour]
  exact (List.take_append_drop _ _).symm

theorem Torn.unfinished {piece record : Bytes} (h : Torn piece record) : Unfinished piece := by
  by_cases hshort : piece.length < headerSize
  · exact Or.inl hshort
  · rcases h.isPrefix with ⟨more, hmore⟩
    have hheader : headerSize ≤ piece.length := Nat.not_lt.mp hshort
    have hlt := h.length_lt
    rw [length_bytes] at hlt
    have hfront : piece.take headerSize = (bytes record ++ []).take headerSize := by
      rw [List.append_nil, ← hmore, List.take_append_of_le_length hheader]
    have hdeclared : declared piece = record.length := by
      rw [← declared_bytes h.fits []]
      unfold declared
      rw [hfront]
    refine Or.inr ⟨?_, by rw [hdeclared]; exact hlt⟩
    rw [← take_magic record [], List.append_nil, ← hmore,
      List.take_append_of_le_length (Nat.le_trans (by decide) hheader)]

/-!
## One way only
-/

theorem Unfinished.not_frame (h : Unfinished (bytes record ++ more))
    (hfits : record.length ≤ maxRecordLength) : False := by
  have hlength : (bytes record ++ more).length = overhead + record.length + more.length := by
    rw [List.length_append, length_bytes]
  rcases h with hshort | ⟨-, hshort⟩
  · rw [hlength] at hshort
    unfold overhead at hshort
    omega
  · rw [hlength, declared_bytes hfits more] at hshort
    omega

theorem eq_of_bytes_append_eq {other more' : Bytes} (hfits : record.length ≤ maxRecordLength)
    (hfits' : other.length ≤ maxRecordLength) (h : bytes record ++ more = bytes other ++ more') :
    record = other ∧ more = more' := by
  have hlength : record.length = other.length := by
    rw [← declared_bytes hfits more, h, declared_bytes hfits' more']
  obtain ⟨hframe, hmore⟩ := List.append_inj h (by rw [length_bytes, length_bytes, hlength])
  have hverify := verify_bytes record
  rw [hframe, verify_bytes] at hverify
  exact ⟨(Except.ok.inj hverify).symm, hmore⟩

/-- Complete frames and an unfinished one behind them can be told from their bytes. -/
theorem run_inj : ∀ {records others : List Bytes} {rest rest' : Bytes}, AllFit records →
    AllFit others → Unfinished rest → Unfinished rest' →
    run records ++ rest = run others ++ rest' → records = others ∧ rest = rest'
  | [], [], _, _, _, _, _, _, h => ⟨rfl, h⟩
  | [], other :: others, rest, rest', _, hothers, hrest, _, h => by
      rw [run_nil, List.nil_append, run_cons, List.append_assoc] at h
      exact (Unfinished.not_frame (h ▸ hrest) hothers.of_cons.1).elim
  | record :: records, [], rest, rest', hrecords, _, _, hrest', h => by
      rw [run_nil, List.nil_append, run_cons, List.append_assoc] at h
      exact (Unfinished.not_frame (h ▸ hrest') hrecords.of_cons.1).elim
  | record :: records, other :: others, rest, rest', hrecords, hothers, hrest, hrest', h => by
      rw [run_cons, run_cons, List.append_assoc, List.append_assoc] at h
      obtain ⟨rfl, hmore⟩ := eq_of_bytes_append_eq hrecords.of_cons.1 hothers.of_cons.1 h
      obtain ⟨rfl, rfl⟩ := run_inj hrecords.of_cons.2 hothers.of_cons.2 hrest hrest' hmore
      exact ⟨rfl, rfl⟩

/-!
## Every byte string
-/

/-- A byte string starts with a complete frame, or is unfinished, or is damaged. -/
theorem front_cases (rest : Bytes) (position : Nat) :
    (∃ record more, record.length ≤ maxRecordLength ∧ rest = bytes record ++ more) ∨
      Unfinished rest ∨ ∃ e, Damaged rest position e := by
  by_cases hheader : rest.length < headerSize
  · exact Or.inr (Or.inl (Or.inl hheader))
  have hheader : headerSize ≤ rest.length := Nat.not_lt.mp hheader
  by_cases hmagic : rest.take 4 = magic
  · by_cases hlength : rest.length < overhead + declared rest
    · exact Or.inr (Or.inl (Or.inr ⟨hmagic, hlength⟩))
    have hlength : overhead + declared rest ≤ rest.length := Nat.not_lt.mp hlength
    cases hverify : verify (rest.take (overhead + declared rest)) with
    | error e => exact Or.inr (Or.inr ⟨e, .checksum hmagic hlength hverify⟩)
    | ok record =>
        have hle : headerSize ≤ overhead + declared rest := by
          unfold overhead
          omega
        have hdeclared : declared (rest.take (overhead + declared rest)) = declared rest := by
          unfold declared at hle ⊢
          rw [List.take_take, Nat.min_eq_left hle]
        have htake : (rest.take (overhead + declared rest)).take 4 = magic := by
          rw [List.take_take, Nat.min_eq_left (Nat.le_trans (by decide) hle), hmagic]
        have hfront := bytes_of_verify htake
          (by rw [List.length_take, Nat.min_eq_left hlength, hdeclared]) hverify
        refine Or.inl ⟨record, rest.drop (overhead + declared rest), ?_, ?_⟩
        · rw [hfront.2, hdeclared]
          exact declared_le hheader
        · rw [← hfront.1, List.take_append_drop]
  · exact Or.inr (Or.inr ⟨_, .magic hheader hmagic⟩)

theorem exists_run (whole : Bytes) (position : Nat) :
    ∃ records rest, whole = run records ++ rest ∧ AllFit records ∧
      (Unfinished rest ∨ ∃ e, Damaged rest (position + (run records).length) e) := by
  rcases front_cases whole position with ⟨record, more, hfits, rfl⟩ | hend
  · have hshorter : more.length < (bytes record ++ more).length := by
      have hheader := headerSize_le_length record
      have hpos : 0 < headerSize := by decide
      rw [List.length_append]
      omega
    -- a frame is never empty, so what stands behind it is shorter
    obtain ⟨records, rest, hmore, hall, hend⟩ :=
      exists_run more (position + (bytes record).length)
    refine ⟨record :: records, rest, ?_, List.forall_mem_cons.mpr ⟨hfits, hall⟩, ?_⟩
    · rw [run_cons, List.append_assoc, ← hmore]
    · rw [run_cons, List.length_append, ← Nat.add_assoc]
      exact hend
  · exact ⟨[], whole, rfl, List.forall_mem_nil _, hend⟩
  termination_by whole.length

theorem fatal_of_verify {frame : Bytes} {e : Error} (h : verify frame = .error e) :
    e.fatal = true := by
  unfold verify at h
  split at h
  · cases h
    rfl
  · dsimp only at h
    split at h
    · cases h
      rfl
    · cases h

theorem Damaged.fatal {e : Error} (h : Damaged rest position e) : e.fatal = true := by
  cases h with
  | magic => rfl
  | checksum _ _ hverify => exact fatal_of_verify hverify

end Frame
end TieredStore
