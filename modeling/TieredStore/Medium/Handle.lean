import TieredStore.Bytes
import TieredStore.Error

/-!
# Media and the handles onto them

The bytes of a ledger are an object that any number of handles can be open on.
An object stays as long as a handle is open, also when no name leads to it any
more, so objects are numbered in the order in which they were made and none is
forgotten.

A handle onto memory sees what every other handle has done.  A handle onto a
file keeps the length that it saw when it was opened, moved on by what it did
itself: it reads up to there and appends there, whatever the file is now.
-/

namespace TieredStore

/-- The bytes of every object ever made, first object first. -/
abbrev Objects := List Bytes

inductive Handle
  | memory (object : Nat)
  /-- A handle onto the file at `path`, `length` bytes long as far as the handle knows. -/
  | file (path : String) (object length : Nat)
  deriving Repr, DecidableEq

namespace Handle

def object : Handle → Nat
  | .memory object => object
  | .file _ object _ => object

def contents (handle : Handle) (objects : Objects) : Bytes := objects.getD handle.object []

def size (handle : Handle) (objects : Objects) : Nat :=
  match handle with
  | .memory _ => (handle.contents objects).length
  | .file _ _ length => length

def read (handle : Handle) (objects : Objects) (offset length : Nat) :
    Except MediumError Bytes :=
  let size := handle.size objects
  if size < offset + length then .error (.readPastEnd offset length size)
  else
    let bytes := (handle.contents objects).slice offset length
    if bytes.length < length then .error .endOfFile
    else .ok bytes

def readAll (handle : Handle) (objects : Objects) : Except MediumError Bytes :=
  handle.read objects 0 (handle.size objects)

def append (handle : Handle) (objects : Objects) (data : Bytes) : Handle × Objects :=
  match handle with
  | .memory object => (handle, objects.modify object (· ++ data))
  | .file path object length =>
      if data.isEmpty then (handle, objects)
      else
        (.file path object (length + data.length),
          objects.modify object (Bytes.overwrite · length data))

/-- Cuts the object back to `target` bytes, which is refused if there are fewer. -/
def truncate (handle : Handle) (objects : Objects) (target : Nat) :
    Except MediumError (Handle × Objects) :=
  match handle with
  | .memory object =>
      let size := handle.size objects
      if size < target then .error (.rejected (.growsMemory size target))
      else .ok (handle, objects.modify object (·.take target))
  | .file path object length =>
      if length < target then .error (.rejected (.growsFile path length target))
      else .ok (.file path object target, objects.modify object (Bytes.resize · target))

end Handle
end TieredStore
