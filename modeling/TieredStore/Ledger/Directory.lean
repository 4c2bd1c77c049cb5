import TieredStore.Medium.Folder
import TieredStore.SortedMap

/-!
# Ledger directories

The ledgers of a log are kept either in memory, by id, or as the files of a
folder, whose names are the ids in twenty decimal digits.  A folder is used by
one holder at a time.

A directory in memory can be made to fail: appends and flushes can be switched
off, and a crash can be set to happen once a number of bytes has been written.
After a crash every change is refused, while reading still works.
-/

namespace TieredStore

/-- The failures that a directory in memory is made to show. -/
structure LedgerFaults where
  failAppends : Bool := false
  failFlushes : Bool := false
  /-- How many more bytes can be written before the crash, if one is set. -/
  budget : Option Nat := none
  crashed : Bool := false
  deriving Repr, DecidableEq, Inhabited

inductive Directory
  | memory (ledgers : SortedMap LedgerId Nat) (faults : LedgerFaults)
  /-- As files of a folder that is, or is not, held by somebody. -/
  | files (folder : Folder) (locked : Bool)
  deriving DecidableEq

structure Ledgers where
  directory : Directory
  objects : Objects := []
  deriving DecidableEq

abbrev LedgersM := EStateM MediumError Ledgers

namespace Ledgers

def inMemory : Ledgers := { directory := .memory ∅ {} }

def inFolder (path : String) : Ledgers := { directory := .files { path } false }

def ofFiles (path : String) (files : List (String × Bytes)) : Ledgers :=
  { directory := .files { path, made := true, files := { entries := (files.map (·.1)).zipIdx } } false,
    objects := files.map (·.2) }

/-! ## Names -/

def nameDigits : Nat := 20

def nameEnding : String := ".ledger"

def lockName : String := "LOCK"

def fileName (id : LedgerId) : String := Text.decimal nameDigits id ++ nameEnding

/-- The id that a file name stands for, however many digits it has. -/
def idOfName? (name : String) : Option LedgerId :=
  if name.endsWith nameEnding then
    let stem := name.toList.take (name.length - nameEnding.length)
    (Text.decimalValue? stem).filter (· ≤ maxWord)
  else none

/-! ## Looking -/

/-- The ids of the ledgers, smallest first; an id stands twice if two files have it. -/
def list (ledgers : Ledgers) : List LedgerId :=
  match ledgers.directory with
  | .memory known _ => known.keys
  | .files folder _ =>
      (folder.files.entries.filterMap fun e => idOfName? e.1).mergeSort (· ≤ ·)

def label (id : LedgerId) : String := s!"ledger {id}"

def attach (ledgers : Ledgers) (id : LedgerId) : Except MediumError Handle :=
  match ledgers.directory with
  | .memory known _ =>
      match known.get? id with
      | some object => .ok (.memory object)
      | none => .error (.notFound (label id))
  | .files folder _ => folder.openFile (fileName id) ledgers.objects

def files (ledgers : Ledgers) : List (String × Nat) :=
  match ledgers.directory with
  | .memory .. => []
  | .files folder _ => folder.sizes ledgers.objects

/-! ## Faults -/

def faults (ledgers : Ledgers) : LedgerFaults :=
  match ledgers.directory with
  | .memory _ faults => faults
  | .files .. => {}

def setFaults (ledgers : Ledgers) (change : LedgerFaults → LedgerFaults) : Ledgers :=
  match ledgers.directory with
  | .memory known faults => { ledgers with directory := .memory known (change faults) }
  | .files .. => ledgers

def ensureAlive : LedgersM Unit := do
  if (← get).faults.crashed then throw (.failed .mediumGone)

/-! ## Changing -/

def create (id : LedgerId) : LedgersM Handle := do
  ensureAlive
  let ledgers ← get
  match ledgers.directory with
  | .memory known faults =>
      if known.contains id then throw (.rejected (.ledgerExists id none))
      else
        let object := ledgers.objects.length
        set { directory := .memory (known.insert id object) faults,
              objects := ledgers.objects ++ [[]] : Ledgers }
        return .memory object
  | .files folder locked =>
      let name := fileName id
      if folder.files.contains name then
        throw (.rejected (.ledgerExists id (some (folder.pathOf name))))
      else
        let (handle, folder, objects) := folder.makeFile name ledgers.objects
        set { directory := .files folder locked, objects : Ledgers }
        return handle

/-- Drops a ledger; handles that are open on it stay open. -/
def delete (id : LedgerId) : LedgersM Unit := do
  ensureAlive
  let ledgers ← get
  match ledgers.directory with
  | .memory known faults =>
      if known.contains id then
        set { ledgers with directory := .memory (known.erase id) faults }
      else throw (.notFound (label id))
  | .files folder locked =>
      let name := fileName id
      if folder.files.contains name then
        set { ledgers with
              directory := .files { folder with files := folder.files.erase name } locked }
      else throw (.notFound (label id))

def write (handle : Handle) (data : Bytes) : LedgersM Handle := do
  let ledgers ← get
  let (handle, objects) := handle.append ledgers.objects data
  set { ledgers with objects }
  return handle

/--
Adds `data` through a handle.  A write that a crash interrupts leaves the bytes
that were written before it.
-/
def append (handle : Handle) (data : Bytes) : LedgersM Handle := do
  ensureAlive
  let faults := (← get).faults
  if faults.failAppends then throw (.failed .appendFailed)
  else
    match faults.budget with
    | none => write handle data
    | some budget =>
        if budget < data.length then
          discard (write handle (data.take budget))
          modify (·.setFaults ({ · with crashed := true, budget := some 0 }))
          throw (.failed .crashedWriting)
        else
          modify (·.setFaults ({ · with budget := some (budget - data.length) }))
          write handle data

def flush : LedgersM Unit := do
  ensureAlive
  if (← get).faults.failFlushes then throw (.failed .flushFailed)

def truncate (handle : Handle) (target : Nat) : LedgersM Handle := do
  ensureAlive
  let ledgers ← get
  match handle.truncate ledgers.objects target with
  | .error cause => throw cause
  | .ok (handle, objects) =>
      set { ledgers with objects }
      return handle

def place (path : String) (bytes : Bytes) : LedgersM Unit := do
  let ledgers ← get
  match ledgers.directory with
  | .memory .. => return
  | .files folder locked =>
      match folder.create path ledgers.objects with
      | .error cause => throw cause
      | .ok (handle, folder, objects) =>
          set { directory := .files folder locked,
                objects := objects.modify handle.object (fun _ => bytes) : Ledgers }

/-! ## Holding -/

def reachedBy (ledgers : Ledgers) (path : String) : Ledgers :=
  match ledgers.directory with
  | .memory .. => ledgers
  | .files folder locked => { ledgers with directory := .files { folder with path } locked }

/--
The ledgers as they are reached by a path from the root, if it leads to their
folder.  The path may go through other folders.
-/
def at? (ledgers : Ledgers) (others : List String) (path : String) : Option Ledgers :=
  match ledgers.directory with
  | .memory .. => none
  | .files folder _ =>
      if folder.isReachedBy others path then some (ledgers.reachedBy path) else none

def restore (ledgers after : Ledgers) : Ledgers :=
  match ledgers.directory with
  | .memory .. => after
  | .files folder _ => after.reachedBy folder.path

def acquire : LedgersM Unit := do
  let ledgers ← get
  match ledgers.directory with
  | .memory .. => return
  | .files folder locked =>
      let (_, folder, objects) := folder.makeFile lockName ledgers.objects
      set { directory := .files folder true, objects : Ledgers }
      if locked then throw (.locked folder.path)

def release (ledgers : Ledgers) : Ledgers :=
  match ledgers.directory with
  | .memory .. => ledgers
  | .files folder _ => { ledgers with directory := .files folder false }

end Ledgers
end TieredStore
