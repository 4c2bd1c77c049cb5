import TieredStore.Container.Flush
import TieredStore.Container.Lookup
import TieredStore.Container.Recovery
import TieredStore.Log.Append
import TieredStore.Log.Load
import TieredStore.Waiters

/-!
# The store

A store puts a log and a container together: what is logged is applied, and what
is acknowledged has been logged.  Reads hand out entries whose bytes may come
later, from the tier or with an append; the store keeps the reads that wait and
the queue of reads of the tier that have been started.

Time passes only when the store is told so.
-/

namespace TieredStore

inductive EntryStatus
  | pending
  | ready (length : Nat)
  | failed
  deriving Repr, DecidableEq

structure Fetches where
  /-- Reads that have not been carried out yet, in the order in which they were started. -/
  queue : List (Nat × FetchRequest) := []
  /-- The outcomes that nobody has taken yet. -/
  arrived : SortedMap Nat (Except Error Bytes) := ∅
  nextTicket : Nat := 0

/-- What is there before a store is opened and after it has been closed. -/
structure Host (τ : Type) where
  ledgers : Ledgers
  tier : τ
  /-- How many milliseconds have passed. -/
  now : Nat := 0
  /-- Reads of the tier that closed stores have started and that have not been carried out. -/
  orphans : List FetchRequest := []

structure Store (τ : Type) where
  config : Config
  log : Log
  container : Container τ
  waiters : Waiters := {}
  fetches : Fetches := {}
  /-- The status of every entry that was handed out, first entry first. -/
  statuses : List EntryStatus := []
  /-- How many operations were carried out since the last checkpoint. -/
  opsSinceCheckpoint : Nat := 0
  recovery : RecoveryStats
  now : Nat := 0
  orphans : List FetchRequest := []

/-- A call of a store: its answer or failure, and the store after it. -/
abbrev StoreM (τ : Type) := EStateM Error (Store τ)

namespace Store

variable {τ : Type}

/-! ## Opening and closing -/

def close (store : Store τ) : Host τ :=
  { ledgers := store.log.medium.release
    tier := store.container.tier
    now := store.now
    orphans := store.orphans ++ store.fetches.queue.map (·.2) }

def recover [Tier τ] (config : Config) (log : Log) (host : Host τ) :
    Except (Error × Host τ) (Store τ) :=
  let empty : Container τ := { cache := { maxSize := config.cacheMaxSize }, tier := host.tier }
  match (Container.recover log).run empty with
  | .error e container =>
      .error (e, { host with ledgers := log.medium.release, tier := container.tier })
  | .ok recovery container =>
      .ok { config, log, container, recovery, now := host.now, orphans := host.orphans }

/-- Opens the store of a host.  A failure leaves the host as it then is. -/
def load [Tier τ] (config : Config) (host : Host τ) : Except (Error × Host τ) (Store τ) :=
  match Log.openIn config host.ledgers with
  | .error (e, ledgers) => .error (e, { host with ledgers })
  | .ok log => recover config log host

/-! ## Parts -/

def onContainer {α : Type} (call : ContainerM τ α) : StoreM τ α := fun store =>
  match call.run store.container with
  | .ok a container => .ok a { store with container }
  | .error e container => .error e { store with container }

def onLog {α : Type} (call : LogM α) : StoreM τ α := fun store =>
  match call.run store.log with
  | .ok a log => .ok a { store with log }
  | .error e log => .error e { store with log }

/-- A call whose failure is passed over; what it has changed stays changed. -/
def attempt {α : Type} (call : StoreM τ α) : StoreM τ Unit := fun store =>
  match call.run store with
  | .ok _ store => .ok () store
  | .error _ store => .ok () store

def table (store : Store τ) : Table := store.container.table

def require (id : SegmentId) : StoreM τ Segment := do
  match (← get).table.require id with
  | .ok segment => return segment
  | .error cause => throw (.refused cause)

end Store
end TieredStore
