import TieredStore.Ledger.Directory

/-!
# Handling ledgers by hand

What can be done to ledgers without their log, for instance to see how the log
deals with it: bytes are added, cut off or changed.  None of this is hindered by
the failures that the directory is made to show.
-/

namespace TieredStore
namespace Ledgers

def sizes (ledgers : Ledgers) : List (LedgerId × Nat) :=
  ledgers.list.map fun id =>
    (id, ((ledgers.attach id).map (·.size ledgers.objects)).toOption.getD 0)

/-- A call while all failures are switched off. -/
def unhindered {α : Type} (call : LedgersM α) : LedgersM α := fun ledgers =>
  let faults := ledgers.faults
  match call.run (ledgers.setFaults fun _ => {}) with
  | .ok a after => .ok a (after.setFaults fun _ => faults)
  | .error cause after => .error cause (after.setFaults fun _ => faults)

def existing (id : LedgerId) : LedgersM Handle := do
  match (← get).attach id with
  | .ok handle => return handle
  | .error cause => throw cause

def existingOrNew (id : LedgerId) : LedgersM Handle := do
  match (← get).attach id with
  | .ok handle => return handle
  | .error _ => create id

def putBytes (id : LedgerId) (data : Bytes) : LedgersM Handle :=
  unhindered do write (← existingOrNew id) data

def chop (id : LedgerId) (target : Nat → Nat) : LedgersM Handle :=
  unhindered do
    let handle ← existing id
    truncate handle (target (handle.size (← get).objects))

/-- Drops a ledger.  It has to be there in memory, while a file that is not there is as good as dropped. -/
def remove (id : LedgerId) : LedgersM Unit :=
  unhindered do
    match (← get).directory with
    | .memory .. => delete id
    | .files folder _ => if folder.files.contains (fileName id) then delete id

/-- Turns over the bits of one byte that `mask` has; answers whether there is such a byte. -/
def flip (id : LedgerId) (offset : Nat) (mask : UInt8) : LedgersM Bool := do
  let handle ← existing id
  let ledgers ← get
  set { ledgers with objects := ledgers.objects.modify handle.object (·.modify offset (· ^^^ mask)) }
  return offset < handle.size ledgers.objects

end Ledgers
end TieredStore
