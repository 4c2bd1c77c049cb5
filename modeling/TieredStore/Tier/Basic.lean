import TieredStore.Bytes
import TieredStore.Error

/-!
# Long-term tiers

A tier holds one object for each segment, found by the segment's name.  Objects
grow only at their end.  Whatever keeps objects in this way can serve as a tier;
a call may change the tier even if it fails.
-/

namespace TieredStore

/-- A call of a tier: its answer or failure, and the tier after it. -/
abbrev TierM (τ : Type) := EStateM MediumError τ

class Tier (τ : Type) where
  /-- Exactly `length` bytes of an object from `offset` on. -/
  read (name : String) (offset length : Nat) : TierM τ Bytes
  /-- Adds `data` to an object that ends at `offset`; answers its new length. -/
  write (name : String) (offset : Nat) (data : Bytes) : TierM τ Nat
  /-- Adds all of `source` to `target` and drops `source`; answers the new length of `target`. -/
  concat (target source : String) : TierM τ Nat
  /-- The length of an object, nothing if there is none. -/
  length (name : String) : TierM τ (Option Nat)
  delete (name : String) : TierM τ Unit

end TieredStore
