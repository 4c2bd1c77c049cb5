import TieredStore.Log.Reader
import TieredStore.Proofs.Ledger.Mirroring
import TieredStore.Proofs.Ledger.Walking

/-!
# Reading the same log from memory and from files

A reader stops where its ledger ended when it was made, and a handle onto a file
that is opened later sees at least as much.  So a reader of files never asks for
what its handle does not see, however long ago the handle was opened, and it comes
upon what a reader of memory comes upon.  Only a ledger that has been dropped in
the meantime is called by another name.
-/

namespace TieredStore

open Ledgers

variable {path : String} {memory folder after : Ledgers} {objects objects' : Objects}

/-! ## Walks -/

namespace Walk

variable {walk : Walk} {handle : Handle}

def through (walk : Walk) (handle : Handle) : Walk := { walk with handle }

structure SeenBy (objects : Objects) (walk : Walk) (handle : Handle) : Prop where
  mirrors : walk.handle.Mirrors handle
  seen : walk.stop ≤ handle.size (filed objects)
  there : walk.stop ≤ (walk.handle.contents objects).length

theorem SeenBy.onward (h : SeenBy memory.objects walk handle) (honward : memory.Onward after) :
    SeenBy after.objects walk handle := by
  constructor
  · exact h.mirrors
  · have hseen := h.seen
    have hmirrors := h.mirrors
    rcases walk with ⟨memoryHandle, stop, position, ahead, finished⟩
    cases hmirrors
    exact hseen
  · exact Nat.le_trans h.there (honward.lengths _)

theorem SeenBy.of_same (h : SeenBy objects walk handle) {later : Walk}
    (hhandle : later.handle = walk.handle) (hstop : later.stop = walk.stop) :
    SeenBy objects later handle := by
  constructor
  · rw [hhandle]
    exact h.mirrors
  · rw [hstop]
    exact h.seen
  · rw [hhandle, hstop]
    exact h.there

theorem fetch_through (h : SeenBy objects walk handle) (hposition : walk.position ≤ walk.stop)
    (length : Nat) :
    (walk.through handle).fetch (filed objects) length =
      (walk.fetch objects length).map fun found => (found.1, found.2.through handle) := by
  have hstop : walk.position + min (max length pieceSize) (walk.stop - walk.position) ≤ walk.stop := by
    omega
  have hread := h.mirrors.read_eq (Nat.le_trans hstop h.seen) (Nat.le_trans hstop h.there)
  unfold fetch through
  dsimp only
  split
  · rfl
  · rw [hread]
    split
    · rfl
    · rfl

theorem SeenBy.fetch (h : SeenBy objects walk handle) {length : Nat} {bytes : Bytes}
    {later : Walk} (hfetch : walk.fetch objects length = .ok (bytes, later)) :
    SeenBy objects later handle := by
  rcases fetch_keeps hfetch with ⟨hhandle, hstop, -⟩
  exact h.of_same hhandle hstop

theorem step_through (h : SeenBy objects walk handle) :
    (walk.through handle).step (filed objects) =
      (walk.step objects).map (Option.map fun found => (found.1, found.2.through handle)) := by
  have hremaining : (walk.through handle).stop - (walk.through handle).position =
      walk.stop - walk.position := rfl
  unfold step
  dsimp only
  rw [hremaining]
  by_cases hend : walk.stop - walk.position = 0
  · rw [if_pos hend, if_pos hend]
    rfl
  rw [if_neg hend, if_neg hend]
  by_cases hshort : walk.stop - walk.position < Frame.headerSize
  · rw [if_pos hshort, if_pos hshort]
    rfl
  rw [if_neg hshort, if_neg hshort]
  have hposition : walk.position ≤ walk.stop := by omega
  rw [fetch_through h hposition]
  cases hfirst : walk.fetch objects Frame.headerSize with
  | error e => rfl
  | ok found =>
      rcases found with ⟨header, middle⟩
      rcases fetch_keeps hfirst with ⟨-, hstop, hsame⟩
      have hmiddle : middle.position ≤ middle.stop := by
        rw [hstop, hsame]
        exact hposition
      have hfetch := fetch_through (h.fetch hfirst) hmiddle
      -- the length is read out of the same header in both
      show (Frame.recordLength header middle.position >>= _) = Except.map _
        (Frame.recordLength header middle.position >>= _)
      cases Frame.recordLength header middle.position with
      | error e => rfl
      | ok length =>
          rw [ok_bind, ok_bind]
          by_cases htorn : walk.stop - walk.position < Frame.overhead + length
          · rw [if_pos htorn, if_pos htorn]
            rfl
          rw [if_neg htorn, if_neg htorn, hfetch]
          cases middle.fetch objects (Frame.overhead + length) with
          | error e => rfl
          | ok found =>
              rcases found with ⟨frame, last⟩
              show (Frame.verify frame >>= _) = Except.map _ (Frame.verify frame >>= _)
              cases Frame.verify frame with
              | error e => rfl
              | ok record => rfl

theorem next_through (h : SeenBy objects walk handle) :
    (walk.through handle).next (filed objects) =
      ((walk.next objects).1, (walk.next objects).2.through handle) := by
  have hstep := step_through h
  unfold next
  by_cases hfinished : walk.finished = true
  · have hsame : (walk.through handle).finished = true := hfinished
    rw [if_pos hsame, if_pos hfinished]
  · have hsame : ¬(walk.through handle).finished = true := hfinished
    rw [if_neg hsame, if_neg hfinished, hstep]
    cases walk.step objects with
    | error e => rfl
    | ok found =>
        cases found with
        | none => rfl
        | some found => rfl

theorem SeenBy.next (h : SeenBy objects walk handle) :
    SeenBy objects (walk.next objects).2 handle := by
  rcases next_keeps walk objects with ⟨hhandle, hstop⟩
  exact h.of_same hhandle hstop

end Walk

/-! ## Readers -/

namespace LogReader

variable {walk : Walk} {handle : Handle} {start : SequenceNumber} {reader reader' : LogReader}
  {coming : List (LedgerId × Nat)} {current current' : Option (LedgerId × Walk)}

theorem seek_through (id : LedgerId) (start : SequenceNumber) :
    ∀ (fuel : Nat) {walk : Walk}, walk.SeenBy objects handle →
      seek id start (filed objects) fuel (walk.through handle) =
        ((seek id start objects fuel walk).1, (seek id start objects fuel walk).2.through handle) ∧
      (seek id start objects fuel walk).2.SeenBy objects handle
  | 0, walk, h => ⟨rfl, h⟩
  | fuel + 1, walk, h => by
      have hnext := h.next
      unfold seek
      rw [Walk.next_through h]
      cases hitem : walk.next objects with
      | mk item later =>
          rw [hitem] at hnext
          have hrest := seek_through id start fuel hnext
          cases item with
          | none => exact ⟨rfl, hnext⟩
          | some item =>
              cases item with
              | error e => exact ⟨rfl, hnext⟩
              | ok item =>
                  cases item with
                  | torn offset => exact ⟨rfl, hnext⟩
                  | frame offset record =>
                      dsimp only
                      cases Record.decode record with
                      | error cause => exact ⟨rfl, hnext⟩
                      | ok decoded =>
                          dsimp only
                          split
                          · exact hrest
                          · exact ⟨rfl, hnext⟩

inductive Level (objects : Objects) :
    Option (LedgerId × Walk) → Option (LedgerId × Walk) → Prop
  | nothing : Level objects none none
  | ledger (id : LedgerId) {walk : Walk} {handle : Handle} (h : walk.SeenBy objects handle) :
      Level objects (some (id, walk)) (some (id, walk.through handle))

theorem Level.onward (h : Level memory.objects current current') (honward : memory.Onward after) :
    Level after.objects current current' := by
  cases h with
  | nothing => exact .nothing
  | ledger id hseen => exact .ledger id (hseen.onward honward)

theorem Level.seek_cases (h : Level objects current current') (start : SequenceNumber) :
    seekCurrent start objects current = none ∧
        seekCurrent start (filed objects) current' = none ∨
      ∃ item found found', seekCurrent start objects current = some (item, found) ∧
        seekCurrent start (filed objects) current' = some (item, found') ∧
        Level objects (some found) (some found') := by
  cases h with
  | nothing => exact Or.inl ⟨rfl, rfl⟩
  | ledger id hseen =>
      rename_i walk handle
      rcases seek_through id start (walk.stop - walk.position + 2) hseen with ⟨hthrough, hlater⟩
      have hfuel : (walk.through handle).stop - (walk.through handle).position + 2 =
          walk.stop - walk.position + 2 := rfl
      unfold seekCurrent
      dsimp only
      rw [hfuel, hthrough]
      cases hseek : seek id start objects (walk.stop - walk.position + 2) walk with
      | mk item later =>
          rw [hseek] at hlater
          cases item with
          | none => exact Or.inl ⟨rfl, rfl⟩
          | some item => exact Or.inr ⟨item, _, _, rfl, rfl, .ledger id hlater⟩

/-- What a reader comes upon, up to the name of a ledger that is missing. -/
inductive Alike (path : String) : Option Item → Option Item → Prop
  | same (item : Option Item) : Alike path item item
  | missing (id : LedgerId) :
      Alike path (some (.error (.storage (.notFound (label id)))))
        (some (.error (.storage (.notFound (Path.join path (fileName id))))))

/-- A ledger to come is not newer than all that are there, and is as long as it was. -/
def Expects (memory : Ledgers) (coming : List (LedgerId × Nat)) : Prop :=
  ∀ c ∈ coming, (∃ newest ∈ memory.list, c.1 ≤ newest) ∧
    ∀ object, memory.object? c.1 = some object → c.2 ≤ (memory.objects.getD object []).length

theorem Expects.onward (h : Expects memory coming) (honward : memory.Onward after) :
    Expects after coming := by
  intro c hc
  rcases h c hc with ⟨⟨newest, hnewest, hle⟩, hsize⟩
  constructor
  · rcases honward.newest newest hnewest with ⟨newer, hnewer, hle'⟩
    exact ⟨newer, hnewer, Nat.le_trans hle hle'⟩
  · intro object hobject
    exact Nat.le_trans (hsize object (honward.same c.1 newest object hnewest hle hobject))
      (honward.lengths object)

structure Mirrors (memory : Ledgers) (reader reader' : LogReader) : Prop where
  start : reader'.start = reader.start
  finished : reader'.finished = reader.finished
  coming : reader'.coming = reader.coming
  expects : Expects memory reader.coming
  current : Level memory.objects reader.current reader'.current

theorem Mirrors.onward (h : Mirrors memory reader reader') (honward : memory.Onward after) :
    Mirrors after reader reader' :=
  { h with expects := h.expects.onward honward, current := h.current.onward honward }

theorem advance_mirrors (hmirrors : memory.Mirrors path folder) (start : SequenceNumber) :
    ∀ {coming : List (LedgerId × Nat)} {current current' : Option (LedgerId × Walk)},
      Expects memory coming → Level memory.objects current current' →
      Alike path (advance start memory coming current).1 (advance start folder coming current').1 ∧
        Mirrors memory (advance start memory coming current).2
          (advance start folder coming current').2
  | [], current, current', hexpects, hlevel => by
      unfold advance
      rw [hmirrors.objects_eq]
      rcases hlevel.seek_cases start with ⟨hnone, hnone'⟩ |
        ⟨item, found, found', hsome, hsome', hfound⟩
      · rw [hnone, hnone']
        exact ⟨.same _, rfl, rfl, rfl, hexpects, .nothing⟩
      · rw [hsome, hsome']
        exact ⟨.same _, rfl, rfl, rfl, hexpects, hfound⟩
  | (id, size) :: rest, current, current', hexpects, hlevel => by
      rcases hexpects (id, size) List.mem_cons_self with ⟨⟨newest, hnewest, hle⟩, hsize⟩
      have hrest : Expects memory rest := fun c hc => hexpects c (List.mem_cons_of_mem _ hc)
      have hid : id ≤ maxWord := Nat.le_trans hle (hmirrors.le_maxWord hnewest)
      unfold advance
      rw [hmirrors.objects_eq]
      rcases hlevel.seek_cases start with ⟨hnone, hnone'⟩ |
        ⟨item, found, found', hsome, hsome', hfound⟩
      · rw [hnone, hnone']
        rcases hmirrors.attach_cases hid with ⟨handle, handle', hattach, hattach', hobject, hwrites⟩ |
          ⟨-, hattach, hattach'⟩
        · have hthere : size ≤ (handle.contents memory.objects).length := hsize _ hobject
          -- a file that is opened now is seen whole, and the ledger has not become shorter
          have hseen : size ≤ handle'.size (filed memory.objects) := by
            have hfresh := hwrites.fresh
            rw [hmirrors.objects_eq] at hfresh
            unfold Handle.Fresh at hfresh
            rw [hfresh, hwrites.mirrors.contents_eq]
            exact hthere
          have hopened : Walk.SeenBy memory.objects { handle, stop := size } handle' :=
            ⟨hwrites.mirrors, hseen, hthere⟩
          simp only [hattach, hattach']
          exact advance_mirrors hmirrors start hrest
            (.ledger id hopened)
        · simp only [hattach, hattach']
          exact ⟨.missing id, rfl, rfl, rfl, hrest, .nothing⟩
      · rw [hsome, hsome']
        exact ⟨.same _, rfl, rfl, rfl, hexpects, hfound⟩

theorem Mirrors.next (h : Mirrors memory reader reader') (hmirrors : memory.Mirrors path folder) :
    Alike path (reader.next memory).1 (reader'.next folder).1 ∧
      Mirrors memory (reader.next memory).2 (reader'.next folder).2 := by
  unfold LogReader.next
  rw [h.finished]
  by_cases hfinished : reader.finished = true
  · rw [if_pos hfinished, if_pos hfinished]
    exact ⟨.same _, h⟩
  · rw [if_neg hfinished, if_neg hfinished, h.start, h.coming]
    rcases advance_mirrors hmirrors reader.start h.expects h.current with ⟨halike, hlater⟩
    generalize advance reader.start memory reader.coming reader.current = found at halike hlater ⊢
    generalize advance reader.start folder reader.coming reader'.current = found' at halike hlater ⊢
    rcases found with ⟨item, later⟩
    rcases found' with ⟨item', later'⟩
    cases halike with
    | same =>
        cases item with
        | none => exact ⟨.same _, { hlater with finished := rfl }⟩
        | some item =>
            cases item with
            | error e => exact ⟨.same _, { hlater with finished := rfl }⟩
            | ok record => exact ⟨.same _, hlater⟩
    | missing id => exact ⟨.missing id, { hlater with finished := rfl }⟩

end LogReader
end TieredStore
