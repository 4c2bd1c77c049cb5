import TieredStore.Tier.Memory

/-!
# A tier that can be made to fail

Three switches make the calls of a tier in memory fail: reads, writes and joins,
or only joins, which then break off between adding the bytes and dropping the
source.
-/

namespace TieredStore

/-- A tier in memory with switches that make its calls fail. -/
structure FlakyTier where
  inner : MemoryTier := {}
  failReads : Bool := false
  /-- Writes and joins fail and change nothing. -/
  failWrites : Bool := false
  /-- Joins add the bytes and then fail with the source still there. -/
  interruptConcat : Bool := false
  deriving Repr, DecidableEq, Inhabited

namespace FlakyTier

def inside {α : Type} (call : TierM MemoryTier α) : TierM FlakyTier α := fun tier =>
  match call tier.inner with
  | .ok a inner => .ok a { tier with inner }
  | .error e inner => .error e { tier with inner }

def read (name : String) (offset length : Nat) : TierM FlakyTier Bytes := do
  if (← get).failReads then throw (.failed .tierReadFailed)
  else inside (MemoryTier.read name offset length)

def write (name : String) (offset : Nat) (data : Bytes) : TierM FlakyTier Nat := do
  if (← get).failWrites then throw (.failed .tierWriteFailed)
  else inside (MemoryTier.write name offset data)

/-- Adds the bytes of `source` to `target` without dropping `source`. -/
def addCopy (target source : String) : TierM MemoryTier Unit := do
  match (← get).contents? source with
  | none => throw (.notFound source)
  | some bytes =>
      let stop := (← MemoryTier.length target).getD 0
      discard (MemoryTier.write target stop bytes)

def concat (target source : String) : TierM FlakyTier Nat := do
  if (← get).failWrites then throw (.failed .tierConcatFailed)
  else if (← get).interruptConcat then
    inside (addCopy target source)
    throw (.failed .crashedInConcat)
  else inside (MemoryTier.concat target source)

instance : Tier FlakyTier where
  read := read
  write := write
  concat := concat
  length name := inside (MemoryTier.length name)
  delete name := inside (MemoryTier.delete name)

end FlakyTier
end TieredStore
