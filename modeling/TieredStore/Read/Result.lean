import TieredStore.Read.Entry

/-!
# Reads

A read hands out entries one at a time.  Each starts where the one before it
ends, so the next is handed out only when the last has got its bytes.  The read
is over when all that was wanted has been handed out, after an entry that nothing
follows, and after an entry that has failed.
-/

namespace TieredStore

structure ReadResult where
  segment : SegmentId
  start : Nat
  maxLength : Nat
  consumed : Nat := 0
  /-- The number of the last entry, while its bytes have not been counted. -/
  last : Option Nat := none
  finished : Bool
  deriving Repr, DecidableEq

namespace Store

variable {τ : Type}

/-- Begins a read of at most `maxLength` bytes; it may start at the end of a segment. -/
def read (id : SegmentId) (offset maxLength : Nat) : StoreM τ ReadResult := do
  let segment ← require id
  if segment.merged then throw (.refused (.segmentMerged id))
  else if segment.length < offset then throw (.misuse (.readPastLength id offset segment.length))
  else return { segment := id, start := offset, maxLength, finished := maxLength = 0 }

def making (make : Store τ → Entry × Store τ) : StoreM τ Entry := fun store =>
  let (entry, store) := make store
  .ok entry store

/-- Makes the entry that waits for the byte at the end of a segment. -/
def waitingEntry (id : SegmentId) (offset requested : Nat) (store : Store τ) : Entry × Store τ :=
  let (waiter, waiters) := store.waiters.register id offset
  let deadline := store.now + store.config.futureReadTimeout
  Entry.makeWaiting .future offset requested (.wakeup waiter id deadline) { store with waiters }

def entryAt (id : SegmentId) (offset requested : Nat) : StoreM τ Entry := do
  let segment ← require id
  let complete (kind : EntryKind) (result : Except Error Bytes) : StoreM τ Entry :=
    making (Entry.makeComplete kind offset requested result)
  if segment.merged then throw (.refused (.segmentMerged id))
  else if offset < segment.startOffset then
    complete .truncated (.error (.truncated id offset segment.startOffset))
  else if segment.length ≤ offset then
    if segment.sealed then complete .endOfSegment (.error (.endOfSegment id offset))
    else making (waitingEntry id offset requested)
  else
    let maxRead := (← get).config.maxStorageReadSize
    match ← onContainer (Container.lookup segment offset requested maxRead) with
    | .cached data => complete .cache (.ok data)
    | .stored request =>
        making fun store =>
          let (ticket, store) := store.startFetch request
          Entry.makeWaiting .storage offset requested (.fetch ticket) store

end Store

namespace ReadResult

variable {τ : Type}

def ended (read : ReadResult) : ReadResult := { read with finished := true, last := none }

def handOut (read : ReadResult) : StoreM τ (Option Entry × ReadResult) := do
  if read.maxLength ≤ read.consumed then return (none, read.ended)
  else
    let entry ← Store.entryAt read.segment (read.start + read.consumed)
      (read.maxLength - read.consumed)
    return (some entry,
      { read with last := some entry.number, finished := entry.kind.isTerminal })

/-- What `next` finds: an entry, the end or a failure; the read; and the store. -/
structure Reply (τ : Type) where
  result : Except Error (Option Entry)
  read : ReadResult
  store : Store τ

/-- Hands out the next entry; a failure changes nothing in the read. -/
def step (read : ReadResult) (store : Store τ) : Reply τ :=
  match read.handOut.run store with
  | .ok (entry, read) store => { result := .ok entry, read, store }
  | .error e store => { result := .error e, read, store }

def next (read : ReadResult) (store : Store τ) : Reply τ :=
  if read.finished then { result := .ok none, read, store }
  else
    match read.last.map fun number => store.statuses.getD number .pending with
    | none => read.step store
    | some .pending => { result := .error (.misuse .unresolvedEntry), read, store }
    | some (.ready length) =>
        { read with consumed := read.consumed + length, last := none }.step store
    | some .failed => { result := .ok none, read := read.ended, store }

end ReadResult
end TieredStore
