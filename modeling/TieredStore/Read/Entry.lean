import TieredStore.Store.Fetch

/-!
# Entries of a read

An entry is one piece of a read.  Its bytes are there from the start if the cache
had them; otherwise they come from the tier, or with an append that has not
happened yet.  An entry that has got its bytes keeps them; a failure is reported
once.

`Entry.content` waits and `Entry.tryContent` does not.
-/

namespace TieredStore

/-- Where the bytes of an entry come from. -/
inductive EntryKind
  | cache
  | storage
  | future
  /-- The segment is sealed and ends here.  No entry follows. -/
  | endOfSegment
  /-- The bytes here have been made unreadable.  No entry follows. -/
  | truncated
  deriving Repr, DecidableEq

namespace EntryKind

def name : EntryKind → String
  | cache => "Cache"
  | storage => "Storage"
  | future => "Future"
  | endOfSegment => "EndOfStreamSegment"
  | truncated => "Truncated"

def isTerminal : EntryKind → Bool
  | endOfSegment | truncated => true
  | _ => false

end EntryKind

inductive Wait
  | fetch (ticket : Nat)
  /-- A message to a waiting read, until a time. -/
  | wakeup (waiter : Nat) (segment : SegmentId) (deadline : Nat)
  deriving Repr, DecidableEq

/-- One piece of a read. -/
structure Entry where
  /-- Where the store keeps the entry's status. -/
  number : Nat
  kind : EntryKind
  offset : Nat
  /-- How many bytes are wanted; there may be fewer. -/
  requested : Nat
  content : Option Bytes := none
  /-- A failure that has not been reported yet. -/
  failure : Option Error := none
  wait : Option Wait := none
  deriving DecidableEq

namespace Entry

variable {τ : Type}

def actual? (entry : Entry) : Option Nat := entry.content.map (·.length)

def status (entry : Entry) (store : Store τ) : EntryStatus :=
  store.statuses.getD entry.number .pending

def complete (entry : Entry) (result : Except Error Bytes) (store : Store τ) : Entry × Store τ :=
  match result with
  | .ok data =>
      ({ entry with content := some data, wait := none },
        { store with statuses := store.statuses.set entry.number (.ready data.length) })
  | .error e =>
      ({ entry with failure := some e, wait := none },
        { store with statuses := store.statuses.set entry.number .failed })

/-- The bytes of an entry that waits for nothing, or its failure, which is then forgotten. -/
def current (entry : Entry) : Except Error Bytes × Entry :=
  match entry.content, entry.failure with
  | some data, _ => (.ok data, entry)
  | none, some e => (.error e, { entry with failure := none })
  | none, none => (.error (.misuse .failureReported), entry)

def make (kind : EntryKind) (offset requested : Nat) (store : Store τ) : Entry × Store τ :=
  ({ number := store.statuses.length, kind, offset, requested },
    { store with statuses := store.statuses ++ [.pending] })

def makeComplete (kind : EntryKind) (offset requested : Nat) (result : Except Error Bytes)
    (store : Store τ) : Entry × Store τ :=
  let (entry, store) := make kind offset requested store
  entry.complete result store

def makeWaiting (kind : EntryKind) (offset requested : Nat) (wait : Wait) (store : Store τ) :
    Entry × Store τ :=
  let (entry, store) := make kind offset requested store
  ({ entry with wait := some wait }, store)

def failureOf? (wakeup : Wakeup) (segment : SegmentId) (offset : Nat) : Option Error :=
  match wakeup with
  | .appended _ => none
  | .sealed => some (.endOfSegment segment offset)
  | .merged => some (.refused (.segmentMerged segment))

/-- Takes back what an entry waits for when the entry is dropped. -/
def drop (entry : Entry) (store : Store τ) : Store τ :=
  match entry.wait with
  | some (.wakeup waiter _ _) => { store with waiters := store.waiters.deregister waiter }
  | _ => store

/-- What a call has found: the bytes or a failure, the entry, and the store. -/
structure Reply (τ : Type) (α : Type) where
  result : Except Error α
  entry : Entry
  store : Store τ

def settled (entry : Entry) (result : Except Error Bytes) (store : Store τ) : Reply τ Bytes :=
  let (entry, store) := entry.complete result store
  let (result, entry) := entry.current
  { result, entry, store }

variable [Tier τ]

def calling {α : Type} (call : ContainerM τ α) (store : Store τ) : Except Error α × Store τ :=
  match call.run store.container with
  | .ok a container => (.ok a, { store with container })
  | .error e container => (.error e, { store with container })

/-- Finds the bytes that a woken entry has been told of and reads them at once. -/
def readWoken (id : SegmentId) (offset count maxRead : Nat) : ContainerM τ Bytes := do
  match ← Container.lookupWoken id offset count maxRead with
  | .cached data => return data
  | .stored request => Container.fetch request

def awaitWoken (entry : Entry) (segment : SegmentId) (wakeup : Wakeup) (store : Store τ) :
    Reply τ Bytes :=
  match failureOf? wakeup segment entry.offset with
  | some e => entry.settled (.error e) store
  | none =>
      let maxRead := store.config.maxStorageReadSize
      let (result, store) := calling (readWoken segment entry.offset entry.requested maxRead) store
      entry.settled result store

/-- Waits for the outcome of a read of the tier, which is carried out if need be. -/
def awaitFetch (entry : Entry) (ticket : Nat) (store : Store τ) : Reply τ Bytes :=
  let store := if store.fetches.arrived.contains ticket then store else store.settle
  match store.takeOutcome ticket with
  | (some result, store) => entry.settled result store
  | (none, store) => entry.settled (.error .closed) store

/--
Waits for a message.  One that is there already counts even after the deadline.
While there is none before the deadline, reads of the tier are carried out and
time passes to the deadline.
-/
def awaitWakeup (entry : Entry) (waiter : Nat) (segment : SegmentId) (deadline : Nat)
    (store : Store τ) : Reply τ Bytes :=
  match store.waiters.receive waiter with
  | (.message wakeup, waiters) => entry.awaitWoken segment wakeup { store with waiters }
  | (.never, waiters) => entry.settled (.error .closed) { store with waiters }
  | (.none, _) =>
      let store := if deadline ≤ store.now then store else { store.settle with now := deadline }
      entry.settled (.error (.timedOut segment entry.offset))
        { store with waiters := store.waiters.deregister waiter }

def awaitContent (entry : Entry) (store : Store τ) : Reply τ Bytes :=
  match entry.wait with
  | none =>
      let (result, entry) := entry.current
      { result, entry, store }
  | some (.fetch ticket) => entry.awaitFetch ticket store
  | some (.wakeup waiter segment deadline) => entry.awaitWakeup waiter segment deadline store

/-! ## Without waiting -/

def Reply.found (reply : Reply τ Bytes) : Reply τ (Option Bytes) :=
  { result := reply.result.map some, entry := reply.entry, store := reply.store }

def tryWoken (entry : Entry) (segment : SegmentId) (wakeup : Wakeup) (store : Store τ) :
    Reply τ (Option Bytes) :=
  match failureOf? wakeup segment entry.offset with
  | some e => (entry.settled (.error e) store).found
  | none =>
      let call : ContainerM τ Found :=
        Container.lookupWoken segment entry.offset entry.requested store.config.maxStorageReadSize
      match calling call store with
      | (.error e, store) => (entry.settled (.error e) store).found
      | (.ok (.cached data), store) => (entry.settled (.ok data) store).found
      | (.ok (.stored request), store) =>
          let (ticket, store) := store.startFetch request
          { result := .ok none, entry := { entry with wait := some (.fetch ticket) }, store }

def tryWakeup (entry : Entry) (waiter : Nat) (segment : SegmentId) (deadline : Nat)
    (store : Store τ) : Reply τ (Option Bytes) :=
  match store.waiters.receive waiter with
  | (.message wakeup, waiters) => entry.tryWoken segment wakeup { store with waiters }
  | (.never, waiters) => (entry.settled (.error .closed) { store with waiters }).found
  | (.none, _) =>
      if deadline ≤ store.now then
        (entry.settled (.error (.timedOut segment entry.offset))
          { store with waiters := store.waiters.deregister waiter }).found
      else { result := .ok none, entry, store }

/-- The bytes, or nothing if they are not there yet. -/
def tryContent (entry : Entry) (store : Store τ) : Reply τ (Option Bytes) :=
  match entry.wait with
  | none =>
      let (result, entry) := entry.current
      { result := result.map some, entry, store }
  | some (.fetch ticket) =>
      match store.takeOutcome ticket with
      | (some result, store) => (entry.settled result store).found
      | (none, _) =>
          if store.fetches.expects ticket then { result := .ok none, entry, store }
          else (entry.settled (.error .closed) store).found
  | some (.wakeup waiter segment deadline) => entry.tryWakeup waiter segment deadline store

end Entry
end TieredStore
