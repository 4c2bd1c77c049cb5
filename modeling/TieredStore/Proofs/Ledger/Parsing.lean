import TieredStore.Proofs.Ledger.Walking

/-!
# The plain parse of a ledger

A walk reads a ledger in large pieces and cuts frames off the piece that it holds.
The plain parse has all bytes at hand and cuts one frame after the other off their
front.  Both come upon the same, call by call: a walk answers with one item of the
parse after the other, and with nothing however often it is called after that.
-/

namespace TieredStore
namespace Frame

/-- What the bytes of a ledger from `position` on hold, frame after frame. -/
def parse (position : Nat) (rest : Bytes) : List (Except Error FrameItem) :=
  if rest = [] then []
  else if rest.length < headerSize then [.ok (.torn position)]
  else
    match recordLength (rest.take headerSize) position with
    | .error e => [.error e]
    | .ok length =>
        if rest.length < overhead + length then [.ok (.torn position)]
        else
          match verify (rest.take (overhead + length)) with
          | .error e => [.error e]
          | .ok record =>
              .ok (.frame position record) ::
                parse (position + (overhead + length)) (rest.drop (overhead + length))
  termination_by rest.length
  decreasing_by
    rw [List.length_drop]
    have hpos : 0 < overhead := by decide
    omega

def reached (start : Nat) : List (Except Error FrameItem) → Nat
  | [] => start
  | .ok (.frame offset record) :: rest => reached (offset + (overhead + record.length)) rest
  | _ :: rest => reached start rest

variable {position : Nat} {rest : Bytes}

@[simp] theorem parse_nil (position : Nat) : parse position [] = [] := by
  rw [parse, if_pos rfl]

theorem parse_frame {record : Bytes} (hfits : record.length ≤ maxRecordLength) (more : Bytes) :
    parse position (bytes record ++ more) =
      .ok (.frame position record) :: parse (position + (bytes record).length) more := by
  have hlength : (bytes record ++ more).length = overhead + record.length + more.length := by
    rw [List.length_append, length_bytes]
  have hheader : headerSize ≤ (bytes record ++ more).length := by
    rw [hlength]
    unfold overhead
    omega
  have hne : bytes record ++ more ≠ [] := by
    apply List.ne_nil_of_length_pos
    exact Nat.lt_of_lt_of_le (by decide) hheader
  have hframe : (bytes record ++ more).take (overhead + record.length) = bytes record := by
    rw [← length_bytes, List.take_left]
  have hmore : (bytes record ++ more).drop (overhead + record.length) = more := by
    rw [← length_bytes, List.drop_left]
  rw [parse, if_neg hne, if_neg (Nat.not_lt.mpr hheader), take_header, recordLength_header hfits]
  simp only [hframe, hmore, verify_bytes, length_bytes]
  rw [if_neg (by omega)]

theorem parse_run {records : List Bytes} (hfit : AllFit records) (rest : Bytes) :
    parse position (run records ++ rest) =
      Walk.itemsOf position records ++ parse (position + (run records).length) rest := by
  induction records generalizing position with
  | nil => rfl
  | cons record records ih =>
      rw [run_cons, List.append_assoc, parse_frame hfit.of_cons.1, ih hfit.of_cons.2,
        List.length_append, ← Nat.add_assoc]
      rfl

theorem parse_unfinished (hrest : Unfinished rest) :
    parse position rest = Walk.endOf position rest := by
  unfold Walk.endOf
  by_cases hne : rest = []
  · rw [if_pos hne, hne, parse_nil]
  rw [if_neg hne, parse, if_neg hne]
  by_cases hshort : rest.length < headerSize
  · rw [if_pos hshort]
  rcases hrest with hshort' | ⟨hmagic, hlength⟩
  · exact absurd hshort' hshort
  rw [if_neg hshort, recordLength_of_magic hmagic]
  simp only [if_pos hlength]

theorem parse_damaged {e : Error} (hrest : Damaged rest position e) :
    parse position rest = [.error e] := by
  have hheader : headerSize ≤ rest.length := hrest.headerSize_le
  have hne : rest ≠ [] := List.ne_nil_of_length_pos (Nat.lt_of_lt_of_le (by decide) hheader)
  rw [parse, if_neg hne, if_neg (Nat.not_lt.mpr hheader)]
  cases hrest with
  | magic _ hmagic =>
      rw [recordLength_of_badMagic hmagic]
  | checksum hmagic hlength hverify =>
      rw [recordLength_of_magic hmagic]
      simp only [if_neg (Nat.not_lt.mpr hlength), hverify]

theorem reached_take (position place : Nat) (records : List Bytes) (rest : Bytes) (count : Nat) :
    reached position ((Walk.itemsOf position records ++ Walk.endOf place rest).take count) =
      position + (run (records.take count)).length := by
  induction records generalizing position count with
  | nil =>
      rw [List.take_nil]
      show reached position ((Walk.endOf place rest).take count) = position
      unfold Walk.endOf
      split
      · rw [List.take_nil, reached]
      · cases count with
        | zero => rfl
        | succ count =>
            rw [List.take_succ_cons, List.take_nil]
            rfl
  | cons record records ih =>
      cases count with
      | zero => rfl
      | succ count =>
          rw [List.take_succ_cons, run_cons, List.length_append, ← Nat.add_assoc, ← ih, length_bytes]
          rw [Walk.itemsOf, List.cons_append, List.take_succ_cons, reached, length_bytes]

end Frame

namespace Walk

open TieredStore.Frame

variable {walk : Walk} {objects : Objects} {rest : Bytes}

/-!
## Call by call
-/

def calls (objects : Objects) :
    (count : Nat) → Walk → List (Option (Except Error FrameItem)) × Walk
  | 0, walk => ([], walk)
  | count + 1, walk =>
      let (answer, walk) := walk.next objects
      let (answers, walk) := calls objects count walk
      (answer :: answers, walk)

/-- What `count` calls in a row answer that hand out items: one after the other, then nothing. -/
def handedOut {α : Type} (items : List α) (count : Nat) : List (Option α) :=
  (List.range count).map fun index => items[index]?

theorem handedOut_cons {α : Type} (item : α) (items : List α) (count : Nat) :
    handedOut (item :: items) (count + 1) = some item :: handedOut items count := by
  unfold handedOut
  rw [List.range_succ_eq_map, List.map_cons, List.map_map]
  rfl

theorem handedOut_nil {α : Type} (count : Nat) :
    handedOut ([] : List α) (count + 1) = none :: handedOut [] count := by
  unfold handedOut
  rw [List.range_succ_eq_map, List.map_cons, List.map_map]
  rfl

theorem calls_finished (hfinished : walk.finished = true) (count : Nat) :
    walk.calls objects count = (handedOut [] count, walk) := by
  have hnext : walk.next objects = (none, walk) := by
    unfold next
    rw [if_pos hfinished]
  induction count with
  | zero => rfl
  | succ count ih =>
      unfold calls
      rw [hnext, handedOut_nil]
      simp only [ih]

theorem Facing.next_parse (h : walk.Facing objects rest) :
    (∃ record more after, record.length ≤ maxRecordLength ∧ rest = bytes record ++ more ∧
        walk.next objects = (some (.ok (.frame walk.position record)), after) ∧
        after.Facing objects more ∧ after.position = walk.position + (bytes record).length) ∨
      ∃ after, walk.next objects = ((parse walk.position rest).head?, after) ∧
        (parse walk.position rest).tail = [] ∧
        reached walk.position (parse walk.position rest) = walk.position ∧
        after.finished = true ∧ after.position = walk.position := by
  rcases front_cases rest walk.position with ⟨record, more, hfits, rfl⟩ | hrest | ⟨e, hdamaged⟩
  · rcases h.next_record hfits with ⟨after, hnext, hafter, hposition⟩
    exact Or.inl ⟨record, more, after, hfits, rfl, hnext, hafter, hposition⟩
  · right
    rw [parse_unfinished hrest]
    unfold next endOf
    rw [if_neg (by simp [h.going])]
    by_cases hne : rest = []
    · subst hne
      rw [h.step_nil]
      exact ⟨_, rfl, rfl, rfl, rfl, rfl⟩
    · rcases h.step_unfinished hrest hne with ⟨after, hstep, hfinished, hposition⟩
      rw [hstep, if_neg hne]
      exact ⟨after, rfl, rfl, rfl, hfinished, hposition⟩
  · right
    rw [parse_damaged hdamaged]
    unfold next
    rw [if_neg (by simp [h.going]), h.step_damaged hdamaged]
    exact ⟨_, rfl, rfl, rfl, rfl, rfl⟩

/--
However often a walk is called, it hands out the items of the plain parse and passes
their frames.  It does not pass its end.
-/
theorem Facing.calls_parse : ∀ (count : Nat) {walk : Walk} {rest : Bytes},
    walk.Facing objects rest →
      (walk.calls objects count).1 = handedOut (parse walk.position rest) count ∧
        (walk.calls objects count).2.position =
          reached walk.position ((parse walk.position rest).take count) ∧
        (walk.calls objects count).2.position ≤ walk.position + rest.length
  | 0, walk, rest, _ => ⟨rfl, rfl, Nat.le_add_right _ _⟩
  | count + 1, walk, rest, h => by
      unfold calls
      rcases h.next_parse with ⟨record, more, after, hfits, rfl, hnext, hafter, hposition⟩ |
        ⟨after, hnext, htail, hreached, hfinished, hposition⟩
      · rcases Facing.calls_parse count hafter with ⟨hanswers, hend, hle⟩
        rw [hnext, parse_frame hfits, handedOut_cons, List.take_succ_cons, ← hposition]
        refine ⟨congrArg (some _ :: ·) hanswers, ?_, ?_⟩
        · rw [reached, ← length_bytes, ← hposition]
          exact hend
        · rw [List.length_append, ← Nat.add_assoc, ← hposition]
          exact hle
      · rw [hnext]
        simp only [calls_finished hfinished, hposition]
        refine ⟨?_, ?_, Nat.le_add_right _ _⟩
        · cases hparse : parse walk.position rest with
          | nil => exact (handedOut_nil count).symm
          | cons item items =>
              rw [hparse, List.tail_cons] at htail
              rw [htail]
              exact (handedOut_cons item [] count).symm
        · -- one item at most is left, and it is no frame
          cases hparse : parse walk.position rest with
          | nil => rfl
          | cons item items =>
              rw [hparse, List.tail_cons] at htail
              rw [hparse, htail] at hreached
              rw [htail, List.take_succ_cons, List.take_nil, hreached]

theorem Facing.items_parse (h : walk.Facing objects rest) :
    (walk.items objects).1 = parse walk.position rest := by
  rcases exists_run rest walk.position with ⟨records, last, rfl, hfit, hlast | ⟨e, hdamaged⟩⟩
  · rcases h.items_unfinished hfit hlast with ⟨after, hitems, -⟩
    rw [hitems, parse_run hfit, parse_unfinished hlast]
  · rcases h.items_damaged hfit hdamaged with ⟨after, hitems⟩
    rw [hitems, parse_run hfit, parse_damaged hdamaged]

end Walk
end TieredStore
