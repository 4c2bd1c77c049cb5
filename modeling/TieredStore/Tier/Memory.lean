import TieredStore.Medium.NameMap
import TieredStore.Tier.Basic

/-!
# The tier in memory

Objects are kept by name.  A write looks its object up before it checks the
offset and makes an empty object where there is none, so a write at a wrong
offset leaves an empty object behind.  Every read is counted, also one that
fails.
-/

namespace TieredStore

structure MemoryTier where
  objects : NameMap Bytes := {}
  reads : Nat := 0
  deriving Repr, DecidableEq, Inhabited

namespace MemoryTier

def contents? (tier : MemoryTier) (name : String) : Option Bytes := tier.objects.get? name

def store (name : String) (bytes : Bytes) : TierM MemoryTier Unit :=
  modify fun tier => { tier with objects := tier.objects.set name bytes }

def read (name : String) (offset length : Nat) : TierM MemoryTier Bytes := do
  modify fun tier => { tier with reads := tier.reads + 1 }
  match (← get).contents? name with
  | none => throw (.notFound name)
  | some bytes =>
      if bytes.length < offset + length then throw (.readPastEnd offset length bytes.length)
      else return bytes.slice offset length

def write (name : String) (offset : Nat) (data : Bytes) : TierM MemoryTier Nat := do
  let bytes := ((← get).contents? name).getD []
  store name bytes
  if bytes.length ≠ offset then throw (.invalidOffset name bytes.length offset)
  else
    store name (bytes ++ data)
    return bytes.length + data.length

/-- Takes `source` out and adds its bytes to `target`. -/
def concat (target source : String) : TierM MemoryTier Nat := do
  match (← get).contents? source with
  | none => throw (.notFound source)
  | some bytes =>
      modify fun tier => { tier with objects := tier.objects.erase source }
      let joined := ((← get).contents? target).getD [] ++ bytes
      store target joined
      return joined.length

def length (name : String) : TierM MemoryTier (Option Nat) := do
  return ((← get).contents? name).map (·.length)

def delete (name : String) : TierM MemoryTier Unit := do
  if (← get).objects.contains name then
    modify fun tier => { tier with objects := tier.objects.erase name }
  else throw (.notFound name)

instance : Tier MemoryTier := ⟨read, write, concat, length, delete⟩

end MemoryTier
end TieredStore
