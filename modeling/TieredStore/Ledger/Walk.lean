import TieredStore.Frame
import TieredStore.Medium.Handle

/-!
# Walking the frames of a ledger

A walk reads the frames of one ledger in order, up to an end that is fixed when
it starts.  It reads the ledger in large pieces and cuts frames off the piece
that it holds, so a walk sees a byte as it was when its piece was read.  A frame
that does not fit before the end is torn; a torn frame, a wrong magic and a
wrong checksum end the walk.
-/

namespace TieredStore

inductive FrameItem
  /-- A complete frame with a matching checksum, and the record in it. -/
  | frame (offset : Nat) (record : Bytes)
  /-- The ledger ends inside the frame that starts here. -/
  | torn (offset : Nat)
  deriving Repr, DecidableEq

structure Walk where
  handle : Handle
  stop : Nat
  /-- The end of the last frame. -/
  position : Nat := 0
  /-- Bytes that have been read from `position` on. -/
  ahead : Bytes := []
  finished : Bool := false
  deriving Repr, DecidableEq

namespace Walk

/-- The least number of bytes that a walk asks for, if there are as many. -/
def pieceSize : Nat := 64 * 1024

def whole (handle : Handle) (objects : Objects) : Walk :=
  { handle, stop := handle.size objects }

/-- The next `length` bytes, read from the ledger if the walk does not hold them. -/
def fetch (walk : Walk) (objects : Objects) (length : Nat) : Except Error (Bytes × Walk) :=
  let held := walk.ahead.take length
  if held.length = length then .ok (held, walk)
  else
    match walk.handle.read objects walk.position
        (min (max length pieceSize) (walk.stop - walk.position)) with
    | .error cause => .error (.storage cause)
    | .ok piece => .ok (piece.take length, { walk with ahead := piece })

def step (walk : Walk) (objects : Objects) : Except Error (Option (FrameItem × Walk)) := do
  let remaining := walk.stop - walk.position
  if remaining = 0 then return none
  else if remaining < Frame.headerSize then
    return some (.torn walk.position, { walk with finished := true })
  else
    let (header, walk) ← walk.fetch objects Frame.headerSize
    let length ← Frame.recordLength header walk.position
    let size := Frame.overhead + length
    if remaining < size then
      return some (.torn walk.position, { walk with finished := true })
    else
      let (frame, walk) ← walk.fetch objects size
      let record ← Frame.verify frame
      return some (.frame walk.position record,
        { walk with position := walk.position + size, ahead := walk.ahead.drop size })

/-- The next item or error, and the walk after it.  Nothing follows the end or an error. -/
def next (walk : Walk) (objects : Objects) : Option (Except Error FrameItem) × Walk :=
  if walk.finished then (none, walk)
  else
    match walk.step objects with
    | .ok (some (item, walk)) => (some (.ok item), walk)
    | .ok none => (none, { walk with finished := true })
    | .error e => (some (.error e), { walk with finished := true })

def itemsWithin (objects : Objects) : (fuel : Nat) → Walk → List (Except Error FrameItem) × Walk
  | 0, walk => ([], walk)
  | fuel + 1, walk =>
      match walk.next objects with
      | (none, walk) => ([], walk)
      | (some item, walk) =>
          let (items, walk) := itemsWithin objects fuel walk
          (item :: items, walk)

/--
All items that are left and the walk after them, if the ledger stays as it is.
Every frame takes at least one byte and one more item can follow the frames.
-/
def items (walk : Walk) (objects : Objects) : List (Except Error FrameItem) × Walk :=
  itemsWithin objects (walk.stop - walk.position + 2) walk

end Walk
end TieredStore
