/-!
# Configuration
-/

namespace TieredStore

/-- The settings that a store is opened with.  Sizes are in bytes, times in milliseconds. -/
structure Config where
  /-- A ledger that an append would push past this size is followed by a new one. -/
  maxLedgerSize : Nat := 64 * 1024 * 1024
  syncOnAppend : Bool := true
  /-- Cached bytes above this are dropped unless the tier does not hold them yet. -/
  cacheMaxSize : Nat := 256 * 1024 * 1024
  maxConcurrentAppends : Nat := 1024
  futureReadTimeout : Nat := 30000
  maxStorageReadSize : Nat := 1024 * 1024
  /-- How many operations lie between automatic checkpoints; zero means there are none. -/
  checkpointEveryOps : Nat := 0
  deriving Repr, DecidableEq, Inhabited

end TieredStore
