import Mathlib.Data.List.Chain
import TieredStore.Proofs.Ledger.Parsing

/-!
# What a walk reads

A walk is written here over any way to read.  If reading is plain, it is the walk
itself.  If every read is noted before it is done, the walk gives the same answers,
and the notes say what it has asked for: nothing but bytes before its end.
-/

namespace TieredStore
namespace Walk

open TieredStore.Frame

/-!
## Over any way to read
-/

section

variable {m : Type → Type} [Monad m] [MonadExceptOf Error m]

/-- `fetch` over a way to read a number of bytes at an offset. -/
def fetchBy (read : Handle → Nat → Nat → m Bytes) (walk : Walk) (length : Nat) :
    m (Bytes × Walk) := do
  let held := walk.ahead.take length
  if held.length = length then return (held, walk)
  else
    let piece ← read walk.handle walk.position
      (min (max length pieceSize) (walk.stop - walk.position))
    return (piece.take length, { walk with ahead := piece })

def stepBy (read : Handle → Nat → Nat → m Bytes) (walk : Walk) :
    m (Option (FrameItem × Walk)) := do
  let remaining := walk.stop - walk.position
  if remaining = 0 then return none
  else if remaining < headerSize then
    return some (.torn walk.position, { walk with finished := true })
  else
    let (header, walk) ← fetchBy read walk headerSize
    let length ← MonadExcept.ofExcept (recordLength header walk.position)
    let size := overhead + length
    if remaining < size then
      return some (.torn walk.position, { walk with finished := true })
    else
      let (frame, walk) ← fetchBy read walk size
      let record ← MonadExcept.ofExcept (verify frame)
      return some (.frame walk.position record,
        { walk with position := walk.position + size, ahead := walk.ahead.drop size })

def nextBy (read : Handle → Nat → Nat → m Bytes) (walk : Walk) :
    m (Option (Except Error FrameItem) × Walk) :=
  if walk.finished then return (none, walk)
  else
    tryCatch
      (do
        match ← stepBy read walk with
        | some (item, walk) => return (some (.ok item), walk)
        | none => return (none, { walk with finished := true }))
      fun e => return (some (.error e), { walk with finished := true })

def callsBy (read : Handle → Nat → Nat → m Bytes) :
    (count : Nat) → Walk → m (List (Option (Except Error FrameItem)) × Walk)
  | 0, walk => return ([], walk)
  | count + 1, walk => do
      let (answer, walk) ← nextBy read walk
      let (answers, walk) ← callsBy read count walk
      return (answer :: answers, walk)

end

def reading (objects : Objects) (handle : Handle) (offset length : Nat) : Except Error Bytes :=
  match handle.read objects offset length with
  | .error cause => .error (.storage cause)
  | .ok bytes => .ok bytes

variable {walk : Walk} {objects : Objects}

theorem fetchBy_reading (length : Nat) :
    fetchBy (reading objects) walk length = walk.fetch objects length := by
  unfold fetchBy fetch
  simp only
  split
  · rfl
  · unfold reading
    cases walk.handle.read objects walk.position
        (min (max length pieceSize) (walk.stop - walk.position)) with
    | error cause => rfl
    | ok piece => rfl

theorem ofExcept_eq {α : Type} (result : Except Error α) :
    (MonadExcept.ofExcept result : Except Error α) = result := by
  cases result with
  | error e => rfl
  | ok a => rfl

theorem stepBy_reading (walk : Walk) : stepBy (reading objects) walk = walk.step objects := by
  unfold stepBy step
  simp only [fetchBy_reading, ofExcept_eq]

theorem nextBy_reading (walk : Walk) : nextBy (reading objects) walk = .ok (walk.next objects) := by
  unfold nextBy next
  rw [stepBy_reading]
  split
  · rfl
  · cases walk.step objects with
    | error e => rfl
    | ok found =>
        cases found with
        | none => rfl
        | some found => rfl

theorem callsBy_reading (count : Nat) (walk : Walk) :
    callsBy (reading objects) count walk = .ok (walk.calls objects count) := by
  induction count generalizing walk with
  | zero => rfl
  | succ count ih =>
      unfold callsBy calls
      rw [nextBy_reading, ok_bind]
      simp only [ih]
      rfl

/-!
## Under watch
-/

structure Request where
  offset : Nat
  length : Nat

/-- A call whose reads are noted: its answer or failure, and all that has been asked for. -/
abbrev Watched := EStateM Error (List Request)

def watching (objects : Objects) (handle : Handle) (offset length : Nat) : Watched Bytes := do
  modify (· ++ [⟨offset, length⟩])
  MonadExcept.ofExcept (reading objects handle offset length)

/-- Nothing has been asked for but bytes before `stop`. -/
def Inside (stop : Nat) (requests : List Request) : Prop :=
  ∀ request ∈ requests, request.offset + request.length ≤ stop

variable {requests : List Request}

theorem ends_ofExcept {α : Type} (result : Except Error α) {answered : α → List Request → Prop}
    {failed : Error → List Request → Prop} (hok : ∀ a, result = .ok a → answered a requests)
    (herror : ∀ e, result = .error e → failed e requests) :
    Ends (MonadExcept.ofExcept result : Watched α) requests answered failed := by
  cases result with
  | ok a => exact hok a rfl
  | error e => exact herror e rfl

theorem ends_tryCatch {α : Type} {call : Watched α} {handle : Error → Watched α}
    {answered : α → List Request → Prop} {failed : Error → List Request → Prop}
    (h : Ends call requests answered fun e after => Ends (handle e) after answered failed) :
    Ends (tryCatch call handle) requests answered failed := by
  show Ends (EStateM.tryCatch call handle) requests answered failed
  unfold Ends EStateM.run EStateM.tryCatch
  exact Ends.elim (call requests) rfl h

/-- What is fetched lies before the end, and fetching moves neither the walk nor its end. -/
theorem fetchBy_watching (length : Nat) (hinside : Inside walk.stop requests)
    (hposition : walk.position ≤ walk.stop) :
    Ends (fetchBy (watching objects) walk length) requests
      (fun found after => walk.fetch objects length = .ok found ∧ Inside walk.stop after ∧
        found.2.position = walk.position ∧ found.2.stop = walk.stop)
      (fun e after => walk.fetch objects length = .error e ∧ Inside walk.stop after) := by
  rw [← fetchBy_reading]
  unfold fetchBy
  simp only
  split
  · exact Ends.pure ⟨rfl, hinside, rfl, rfl⟩
  · have hnoted : Inside walk.stop (requests ++
        [⟨walk.position, min (max length pieceSize) (walk.stop - walk.position)⟩]) := by
      intro request hrequest
      rcases List.mem_append.mp hrequest with hbefore | hnew
      · exact hinside request hbefore
      · cases List.mem_singleton.mp hnew
        show walk.position + min _ _ ≤ walk.stop
        omega
    unfold watching
    refine Ends.bind (Ends.modifying (ends_ofExcept _ ?_ ?_))
    · intro piece hpiece
      rw [hpiece]
      exact Ends.pure ⟨rfl, hnoted, rfl, rfl⟩
    · intro e he
      rw [he]
      exact ⟨rfl, hnoted⟩

theorem stepBy_watching (hinside : Inside walk.stop requests) :
    Ends (stepBy (watching objects) walk) requests
      (fun found after => walk.step objects = .ok found ∧ Inside walk.stop after ∧
        ∀ item later, found = some (item, later) → later.stop = walk.stop)
      (fun e after => walk.step objects = .error e ∧ Inside walk.stop after) := by
  unfold stepBy step
  simp only
  split
  · exact Ends.pure ⟨rfl, hinside, fun _ _ h => nomatch h⟩
  rename_i hremaining
  split
  · refine Ends.pure ⟨rfl, hinside, ?_⟩
    rintro item later ⟨⟩
    rfl
  have hposition : walk.position ≤ walk.stop := by omega
  refine Ends.bind ((fetchBy_watching headerSize hinside hposition).mono ?_ ?_)
  · rintro ⟨header, second⟩ after ⟨hfetch, hafter, hsecond, hstop⟩
    have hsecond : second.position = walk.position := hsecond
    have hstop : second.stop = walk.stop := hstop
    rw [hfetch]
    simp only [ok_bind]
    refine Ends.bind (ends_ofExcept _ ?_ ?_)
    · intro length hlength
      rw [hlength]
      simp only [ok_bind]
      split
      · refine Ends.pure ⟨rfl, hafter, ?_⟩
        rintro item later ⟨⟩
        exact hstop
      rw [← hstop] at hafter
      refine Ends.bind ((fetchBy_watching _ hafter (by rw [hsecond, hstop]; exact hposition)).mono
        ?_ ?_)
      · rintro ⟨frame, third⟩ after ⟨hfetch', hafter, hthird, hstop'⟩
        have hstop' : third.stop = second.stop := hstop'
        rw [hfetch']
        simp only [ok_bind]
        rw [hstop] at hafter
        refine Ends.bind (ends_ofExcept _ ?_ ?_)
        · intro record hrecord
          rw [hrecord]
          refine Ends.pure ⟨rfl, hafter, ?_⟩
          rintro item later ⟨⟩
          exact hstop'.trans hstop
        · intro e he
          rw [he]
          exact ⟨rfl, hafter⟩
      · rintro e after ⟨hfetch', hafter⟩
        rw [hfetch']
        exact ⟨rfl, hstop ▸ hafter⟩
    · intro e he
      rw [he]
      exact ⟨rfl, hafter⟩
  · rintro e after ⟨hfetch, hafter⟩
    rw [hfetch]
    exact ⟨rfl, hafter⟩

theorem nextBy_watching (hinside : Inside walk.stop requests) :
    Ends (nextBy (watching objects) walk) requests
      (fun found after => found = walk.next objects ∧ Inside walk.stop after ∧
        found.2.stop = walk.stop)
      (fun _ _ => False) := by
  unfold nextBy next
  split
  · exact Ends.pure ⟨rfl, hinside, rfl⟩
  refine ends_tryCatch (Ends.bind ((stepBy_watching hinside).mono ?_ ?_))
  · rintro (_ | ⟨item, later⟩) after ⟨hstep, hafter, hstop⟩
    · rw [hstep]
      exact Ends.pure ⟨rfl, hafter, rfl⟩
    · rw [hstep]
      exact Ends.pure ⟨rfl, hafter, hstop item later rfl⟩
  · rintro e after ⟨hstep, hafter⟩
    rw [hstep]
    exact Ends.pure ⟨rfl, hafter, rfl⟩

theorem callsBy_watching (count : Nat) : ∀ {walk : Walk} {requests : List Request},
    Inside walk.stop requests →
      Ends (callsBy (watching objects) count walk) requests
        (fun found after => found = walk.calls objects count ∧ Inside walk.stop after)
        (fun _ _ => False) := by
  induction count with
  | zero =>
      intro walk requests hinside
      exact Ends.pure ⟨rfl, hinside⟩
  | succ count ih =>
      intro walk requests hinside
      unfold callsBy calls
      refine Ends.bind ((nextBy_watching hinside).mono ?_ (fun _ _ hfalse => hfalse))
      rintro ⟨answer, later⟩ after ⟨hnext, hafter, hstop⟩
      have hstop : later.stop = walk.stop := hstop
      rw [← hnext]
      rw [← hstop] at hafter ⊢
      refine Ends.bind ((ih hafter).mono ?_ (fun _ _ hfalse => hfalse))
      rintro ⟨answers, last⟩ after ⟨hcalls, hafter⟩
      simp only [← hcalls]
      exact Ends.pure ⟨rfl, hafter⟩

/-!
## The walk and the plain parse
-/

/--
A walk that stops among the bytes that are there hands out what the plain parse of
these bytes comes upon, and passes the frames that it has handed out.  However often
it is called, it reads nothing behind its end.
-/
theorem calls_plain_parse {handle : Handle} {bytes : Bytes} {stop : Nat}
    (hsees : handle.Sees objects bytes) (hstop : stop ≤ bytes.length) (count : Nat) :
    let walk : Walk := { handle, stop }
    let items := parse 0 (bytes.take stop)
    (walk.calls objects count).1 = handedOut items count ∧
      (walk.calls objects count).2.position = reached 0 (items.take count) ∧
      (walk.calls objects count).2.position ≤ stop ∧
      callsBy (reading objects) count walk = .ok (walk.calls objects count) ∧
      ∃ requests, (callsBy (watching objects) count walk).run [] =
          .ok (walk.calls objects count) requests ∧
        ∀ request ∈ requests, request.offset + request.length ≤ stop := by
  intro walk items
  have hfacing : walk.Facing objects (bytes.take stop) := facing_of_sees hsees hstop
  rcases hfacing.calls_parse count with ⟨hanswers, hposition, hle⟩
  rw [← hfacing.stop_eq] at hle
  have hnone : Inside walk.stop [] := fun _ h => nomatch h
  rcases (callsBy_watching count hnone).exists_ok with ⟨_, requests, hrun, rfl, hinside⟩
  exact ⟨hanswers, hposition, hle, callsBy_reading count walk, requests, hrun, hinside⟩

/-- A ledger of two frames, walked to an end inside the second. -/
theorem calls_plain_parse_inside :
    let bytes := Frame.bytes [1, 2] ++ Frame.bytes [3]
    let walk : Walk := { handle := .memory 0, stop := 20 }
    bytes.length = 27 ∧
      handedOut (parse 0 (bytes.take 20)) 4 =
        [some (.ok (.frame 0 [1, 2])), some (.ok (.torn 14)), none, none] ∧
      (walk.calls [bytes] 4).2.position = 14 ∧
      ∃ requests, (callsBy (watching [bytes]) 4 walk).run [] = .ok (walk.calls [bytes] 4) requests ∧
        ∀ request ∈ requests, request.offset + request.length ≤ 20 := by
  intro bytes walk
  have hfresh : (Handle.memory 0).Fresh [bytes] := rfl
  have hstop : 20 ≤ bytes.length := by decide +kernel
  rcases calls_plain_parse hfresh.sees hstop 4 with ⟨hanswers, -, -, -, hrequests⟩
  exact ⟨by decide +kernel, hanswers.symm.trans (by decide +kernel), by decide +kernel, hrequests⟩

end Walk
end TieredStore
