import TieredStore.Cache
import TieredStore.Table.Apply
import TieredStore.Tier.Basic

/-!
# Containers

A container is a segment table together with the places where the bytes of the
segments are: the cache and the tier.  The bytes of a segment below its storage
length are in the tier; all others are in the cache.
-/

namespace TieredStore

/-- The segments, their cached bytes, and the tier that holds the rest. -/
structure Container (τ : Type) where
  table : Table := {}
  cache : Cache
  tier : τ

abbrev ContainerM (τ : Type) := EStateM Error (Container τ)

namespace Container

variable {τ : Type}

def onTier {α : Type} (call : TierM τ α) : ContainerM τ α := fun c =>
  match call.run c.tier with
  | .ok a tier => .ok a { c with tier }
  | .error cause tier => .error (.storage cause) { c with tier }

def cached (segment : SegmentId) (offset count : Nat) : ContainerM τ (Option Bytes) := fun c =>
  let (found, cache) := c.cache.get segment offset count
  .ok found { c with cache }

def put (segment : SegmentId) (offset : Nat) (data : Bytes) (c : Container τ) : Container τ :=
  { c with cache := c.cache.put segment offset data }

/--
Drops cached bytes of a segment that can no longer be read and that the tier
holds, when it holds the segment below `stored`.
-/
def dropUnreadable (id : SegmentId) (stored : Nat) (c : Container τ) : Container τ :=
  let start := ((c.table.get? id).map (·.startOffset)).getD 0
  { c with cache := c.cache.truncateBefore id (min start stored) }

def noteStored (id : SegmentId) (stored : Nat) (c : Container τ) : Container τ :=
  dropUnreadable id stored
    { c with
      table := c.table.setStorageLength id stored
      cache := c.cache.markFlushed id stored }

def finishMerge (parent : SegmentId) (merge : PendingMerge) (c : Container τ) : Container τ :=
  match c.table.completeMerge? parent merge.batch with
  | none => c
  | some (_, table) =>
      { c with
        table
        cache := (c.cache.moveSegment merge.batch parent merge.offset).markFlushed parent merge.stop }

end Container
end TieredStore
