import TieredStore.Proofs.Ledger.Splitting

/-!
# Walks over any bytes

A walk comes upon the complete frames that a ledger starts with, one after the
other, and then upon what stands behind them: nothing, an unfinished frame or
damage.  It does not look at what the records hold.
-/

namespace TieredStore
namespace Walk

open TieredStore.Frame

variable {walk : Walk} {objects : Objects} {rest : Bytes}

/-- What a walk comes upon in the frames of records that start at `position`. -/
def itemsOf : (position : Nat) → List Bytes → List (Except Error FrameItem)
  | _, [] => []
  | position, record :: rest =>
      .ok (.frame position record) :: itemsOf (position + (bytes record).length) rest

def endOf (position : Nat) (rest : Bytes) : List (Except Error FrameItem) :=
  if rest = [] then [] else [.ok (.torn position)]

/-!
## What stays the same
-/

theorem fetch_keeps {length : Nat} {bytes : Bytes} {after : Walk}
    (h : walk.fetch objects length = .ok (bytes, after)) :
    after.handle = walk.handle ∧ after.stop = walk.stop ∧ after.position = walk.position := by
  unfold fetch at h
  dsimp only at h
  split at h
  · cases h
    exact ⟨rfl, rfl, rfl⟩
  · split at h
    · cases h
    · cases h
      exact ⟨rfl, rfl, rfl⟩

theorem step_keeps {item : FrameItem} {later : Walk}
    (h : walk.step objects = .ok (some (item, later))) :
    later.handle = walk.handle ∧ later.stop = walk.stop := by
  unfold step at h
  dsimp only at h
  split at h
  · cases h
  split at h
  · cases h
    exact ⟨rfl, rfl⟩
  cases hfirst : walk.fetch objects Frame.headerSize with
  | error e =>
      rw [hfirst] at h
      cases h
  | ok found =>
      rcases found with ⟨header, middle⟩
      rcases fetch_keeps hfirst with ⟨hhandle, hstop, -⟩
      rw [hfirst, ok_bind] at h
      dsimp only at h
      cases hlength : Frame.recordLength header middle.position with
      | error e =>
          rw [hlength] at h
          cases h
      | ok length =>
          rw [hlength, ok_bind] at h
          split at h
          · cases h
            exact ⟨hhandle, hstop⟩
          cases hsecond : middle.fetch objects (Frame.overhead + length) with
          | error e =>
              rw [hsecond] at h
              cases h
          | ok found =>
              rcases found with ⟨frame, last⟩
              rcases fetch_keeps hsecond with ⟨hhandle', hstop', -⟩
              rw [hsecond, ok_bind] at h
              dsimp only at h
              cases hrecord : Frame.verify frame with
              | error e =>
                  rw [hrecord] at h
                  cases h
              | ok record =>
                  rw [hrecord, ok_bind] at h
                  cases h
                  exact ⟨hhandle'.trans hhandle, hstop'.trans hstop⟩

theorem next_keeps (walk : Walk) (objects : Objects) :
    (walk.next objects).2.handle = walk.handle ∧ (walk.next objects).2.stop = walk.stop := by
  unfold Walk.next
  split
  · exact ⟨rfl, rfl⟩
  · split
    · rename_i item later hstep
      exact step_keeps hstep
    · exact ⟨rfl, rfl⟩
    · exact ⟨rfl, rfl⟩

/-!
## What stands behind the complete frames
-/

theorem Facing.remaining (h : walk.Facing objects rest) :
    walk.stop - walk.position = rest.length := by
  rw [h.stop_eq, Nat.add_sub_cancel_left]

theorem Facing.step_unfinished (h : walk.Facing objects rest) (hrest : Unfinished rest)
    (hne : rest ≠ []) :
    ∃ after, walk.step objects = .ok (some (.torn walk.position, after)) ∧
      after.finished = true ∧ after.position = walk.position := by
  have hpos : rest.length ≠ 0 := fun hzero => hne (List.eq_nil_of_length_eq_zero hzero)
  by_cases hshort : rest.length < headerSize
  · refine ⟨{ walk with finished := true }, ?_, rfl, rfl⟩
    unfold Walk.step
    simp only [h.remaining]
    rw [if_neg hpos, if_pos hshort]
    rfl
  · rcases hrest with hshort' | ⟨hmagic, hlength⟩
    · exact absurd hshort' hshort
    rcases h.fetch _ (Nat.not_lt.mp hshort) with ⟨ahead, hfetch, -⟩
    refine ⟨{ walk with ahead, finished := true }, ?_, rfl, rfl⟩
    unfold Walk.step
    simp only [h.remaining]
    rw [if_neg hpos, if_neg hshort, hfetch]
    simp only [ok_bind, recordLength_of_magic hmagic]
    rw [if_pos hlength]
    rfl

theorem Facing.step_damaged {e : Error} (h : walk.Facing objects rest)
    (hrest : Damaged rest walk.position e) : walk.step objects = .error e := by
  have hheader : headerSize ≤ rest.length := hrest.headerSize_le
  have hpos : rest.length ≠ 0 := by
    unfold headerSize at hheader
    omega
  rcases h.fetch _ hheader with ⟨ahead, hfetch, hfacing⟩
  unfold Walk.step
  simp only [h.remaining]
  rw [if_neg hpos, if_neg (Nat.not_lt.mpr hheader), hfetch]
  simp only [ok_bind]
  cases hrest with
  | magic _ hmagic =>
      rw [recordLength_of_badMagic hmagic]
      rfl
  | checksum hmagic hlength hverify =>
      rcases hfacing.fetch _ hlength with ⟨ahead', hfetch', -⟩
      rw [recordLength_of_magic hmagic]
      simp only [ok_bind]
      rw [if_neg (Nat.not_lt.mpr hlength), hfetch']
      simp only [ok_bind, hverify]
      rfl

theorem itemsWithin_finished {walk : Walk} (hfinished : walk.finished = true) (fuel : Nat) :
    walk.itemsWithin objects fuel = ([], walk) := by
  cases fuel with
  | zero => rfl
  | succ fuel =>
      unfold Walk.itemsWithin Walk.next
      rw [if_pos hfinished]

theorem Facing.itemsWithin_unfinished (h : walk.Facing objects rest) (hrest : Unfinished rest)
    (fuel : Nat) :
    ∃ after, walk.itemsWithin objects (fuel + 1) = (endOf walk.position rest, after) ∧
      after.position = walk.position := by
  unfold Walk.itemsWithin Walk.next endOf
  rw [if_neg (by simp [h.going])]
  by_cases hne : rest = []
  · subst hne
    rw [h.step_nil]
    exact ⟨_, rfl, rfl⟩
  · rcases h.step_unfinished hrest hne with ⟨after, hstep, hfinished, hposition⟩
    rw [hstep, if_neg hne]
    simp only [itemsWithin_finished hfinished]
    exact ⟨after, rfl, hposition⟩

theorem Facing.itemsWithin_damaged {e : Error} (h : walk.Facing objects rest)
    (hrest : Damaged rest walk.position e) (fuel : Nat) :
    ∃ after, walk.itemsWithin objects (fuel + 1) = ([.error e], after) ∧
      after.position = walk.position := by
  unfold Walk.itemsWithin Walk.next
  rw [if_neg (by simp [h.going]), h.step_damaged hrest]
  have hnone : ({ walk with finished := true } : Walk).itemsWithin objects fuel =
      ([], { walk with finished := true }) := itemsWithin_finished rfl fuel
  simp only [hnone]
  exact ⟨_, rfl, rfl⟩

/-!
## All frames
-/

theorem Facing.next_record {record more : Bytes} (h : walk.Facing objects (bytes record ++ more))
    (hfits : record.length ≤ maxRecordLength) :
    ∃ after, walk.next objects = (some (.ok (.frame walk.position record)), after) ∧
      after.Facing objects more ∧ after.position = walk.position + (bytes record).length := by
  rcases h.step_frame hfits with ⟨after, hstep, hafter, -, -, hposition⟩
  refine ⟨after, ?_, hafter, hposition⟩
  unfold Walk.next
  rw [if_neg (by simp [h.going]), hstep]

/--
A walk comes upon the records in order and then upon what any walk comes upon
that faces the bytes behind them.
-/
theorem Facing.itemsWithin_run {items : List (Except Error FrameItem)} :
    ∀ {records : List Bytes} {walk : Walk} {fuel : Nat}, walk.Facing objects (run records ++ rest) →
      AllFit records → records.length < fuel →
      (∀ last : Walk, last.Facing objects rest →
        last.position = walk.position + (run records).length →
        ∀ fuel, ∃ after, last.itemsWithin objects (fuel + 1) = (items, after) ∧
          after.position = last.position) →
      ∃ after, walk.itemsWithin objects fuel = (itemsOf walk.position records ++ items, after) ∧
        after.position = walk.position + (run records).length
  | [], walk, fuel, h, _, hfuel, hitems => by
      rcases Nat.exists_eq_add_of_lt hfuel with ⟨fuel, rfl⟩
      rcases hitems walk h rfl ([].length + fuel) with ⟨after, hrun, hposition⟩
      exact ⟨after, hrun, hposition⟩
  | record :: records, walk, fuel, h, hfit, hfuel, hitems => by
      rcases Nat.exists_eq_add_of_lt hfuel with ⟨fuel, rfl⟩
      rw [run_cons, List.append_assoc] at h
      rcases h.next_record hfit.of_cons.1 with ⟨middle, hnext, hmiddle, hposition⟩
      -- told from the place behind the first frame, where the walk ends is the same
      have hend : walk.position + (run (record :: records)).length =
          middle.position + (run records).length := by
        rw [run_cons, List.length_append, hposition, Nat.add_assoc]
      rw [hend] at hitems ⊢
      rcases Facing.itemsWithin_run hmiddle hfit.of_cons.2
          (show records.length < (record :: records).length + fuel by simp; omega) hitems with
        ⟨after, hrun, hafter⟩
      refine ⟨after, ?_, hafter⟩
      unfold Walk.itemsWithin itemsOf
      rw [hnext, ← hposition]
      simp only [hrun]
      rfl

theorem Facing.fuel_lt {records : List Bytes} (h : walk.Facing objects (run records ++ rest)) :
    records.length < walk.stop - walk.position + 2 := by
  have hle := length_le_length_run records
  rw [h.remaining, List.length_append]
  omega

theorem Facing.items_unfinished {records : List Bytes}
    (h : walk.Facing objects (run records ++ rest)) (hfit : AllFit records)
    (hrest : Unfinished rest) :
    ∃ after, walk.items objects =
        (itemsOf walk.position records ++ endOf (walk.position + (run records).length) rest, after) ∧
      after.position = walk.position + (run records).length := by
  refine Facing.itemsWithin_run h hfit h.fuel_lt ?_
  intro last hlast hposition fuel
  rw [← hposition]
  exact hlast.itemsWithin_unfinished hrest fuel

theorem Facing.items_damaged {records : List Bytes} {e : Error}
    (h : walk.Facing objects (run records ++ rest)) (hfit : AllFit records)
    (hrest : Damaged rest (walk.position + (run records).length) e) :
    ∃ after, walk.items objects = (itemsOf walk.position records ++ [.error e], after) := by
  have hitems : ∀ last : Walk, last.Facing objects rest →
      last.position = walk.position + (run records).length →
      ∀ fuel, ∃ after, last.itemsWithin objects (fuel + 1) = ([.error e], after) ∧
        after.position = last.position := by
    intro last hlast hposition fuel
    rw [← hposition] at hrest
    exact hlast.itemsWithin_damaged hrest fuel
  rcases Facing.itemsWithin_run h hfit h.fuel_lt hitems with ⟨after, hrun, -⟩
  exact ⟨after, hrun⟩

theorem ok_of_mem_itemsOf {records : List Bytes} {position : Nat} {item : Except Error FrameItem}
    (h : item ∈ itemsOf position records) : ∃ found, item = .ok found := by
  induction records generalizing position with
  | nil => cases h
  | cons record rest ih =>
      rcases List.mem_cons.mp h with rfl | hrest
      · exact ⟨_, rfl⟩
      · exact ih hrest

/-- Whatever a walk cannot pass but an unfinished frame is fatal. -/
theorem Facing.fatal_of_mem_items {whole : Bytes} {e : Error} (h : walk.Facing objects whole)
    (he : .error e ∈ (walk.items objects).1) : e.fatal = true := by
  rcases exists_run whole walk.position with ⟨records, rest, rfl, hfit, hrest | ⟨e', hdamaged⟩⟩
  · rcases h.items_unfinished hfit hrest with ⟨after, hitems, -⟩
    rw [hitems] at he
    rcases List.mem_append.mp he with hframe | hend
    · rcases ok_of_mem_itemsOf hframe with ⟨found, hfound⟩
      cases hfound
    · unfold endOf at hend
      split at hend
      · cases hend
      · cases List.mem_singleton.mp hend
  · rcases h.items_damaged hfit hdamaged with ⟨after, hitems⟩
    rw [hitems] at he
    rcases List.mem_append.mp he with hframe | hend
    · rcases ok_of_mem_itemsOf hframe with ⟨found, hfound⟩
      cases hfound
    · cases List.mem_singleton.mp hend
      exact hdamaged.fatal

end Walk
end TieredStore
