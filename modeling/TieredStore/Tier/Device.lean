import TieredStore.Tier.File
import TieredStore.Tier.Flaky

/-!
# Tiers of either kind
-/

namespace TieredStore

inductive TierDevice
  | memory (tier : FlakyTier)
  | files (tier : FileTier)
  deriving Repr, DecidableEq

namespace TierDevice

def call {α : Type} (onMemory : TierM FlakyTier α) (onFiles : TierM FileTier α) :
    TierM TierDevice α
  | .memory tier =>
      match onMemory tier with
      | .ok a tier => .ok a (.memory tier)
      | .error e tier => .error e (.memory tier)
  | .files tier =>
      match onFiles tier with
      | .ok a tier => .ok a (.files tier)
      | .error e tier => .error e (.files tier)

instance : Tier TierDevice where
  read name offset length := call (Tier.read name offset length) (Tier.read name offset length)
  write name offset data := call (Tier.write name offset data) (Tier.write name offset data)
  concat target source := call (Tier.concat target source) (Tier.concat target source)
  length name := call (Tier.length name) (Tier.length name)
  delete name := call (Tier.delete name) (Tier.delete name)

def contents? (tier : TierDevice) (name : String) : Option Bytes :=
  match tier with
  | .memory tier => tier.inner.contents? name
  | .files tier => tier.files.get? (FileTier.fileName name)

def sizes : TierDevice → List (String × Nat)
  | .memory _ => []
  | .files tier => tier.files.entries.map fun (name, bytes) => (name, bytes.length)

/-- Turns switches of a tier in memory on or off; those that are not mentioned stay. -/
def switch (tier : TierDevice) (reads writes joins : Option Bool) : TierDevice :=
  match tier with
  | .memory tier =>
      .memory
        { tier with
          failReads := reads.getD tier.failReads
          failWrites := writes.getD tier.failWrites
          interruptConcat := joins.getD tier.interruptConcat }
  | .files tier => .files tier

def healed : TierDevice → TierDevice
  | .memory tier => .memory { inner := tier.inner }
  | .files tier => .files tier

/-- How many reads were asked for; only a tier in memory counts them. -/
def reads : TierDevice → Nat
  | .memory tier => tier.inner.reads
  | .files _ => 0

end TierDevice
end TieredStore
