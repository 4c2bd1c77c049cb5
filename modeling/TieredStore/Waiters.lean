import TieredStore.Identifier
import TieredStore.SortedMap

/-!
# Waiting readers

A read at the end of an open segment waits for bytes that have not been written.
The registry keeps who waits and where; an event of a segment takes its waiters
out and leaves each of them one message.  A waiter that gives up is taken out
without one.
-/

namespace TieredStore

inductive Wakeup
  /-- The segment now has `length` bytes and the awaited one is among them. -/
  | appended (length : Nat)
  /-- The segment was sealed before the awaited byte was written. -/
  | sealed
  | merged
  deriving Repr, DecidableEq

structure Waiter where
  id : Nat
  segment : SegmentId
  offset : Nat
  deriving Repr, DecidableEq

/-- The reads that wait and the messages that have not been taken. -/
structure Waiters where
  waiting : List Waiter := []
  /-- The message of a woken waiter, until it is taken. -/
  messages : SortedMap Nat Wakeup := ∅
  nextId : Nat := 0
  deriving DecidableEq, Inhabited

inductive Letter
  | message (wakeup : Wakeup)
  /-- The waiter is registered and has not been woken. -/
  | none
  /-- There will never be a message. -/
  | never
  deriving Repr, DecidableEq

namespace Waiters

def size (w : Waiters) : Nat := w.waiting.length

def register (w : Waiters) (segment : SegmentId) (offset : Nat) : Nat × Waiters :=
  (w.nextId,
    { w with waiting := w.waiting ++ [{ id := w.nextId, segment, offset }], nextId := w.nextId + 1 })

/-- Wakes the reads of a segment at offsets below `below`. -/
def wake (w : Waiters) (segment : SegmentId) (below : Nat) (wakeup : Wakeup) : Waiters :=
  let concerns : Waiter → Bool := fun r => r.segment == segment && decide (r.offset < below)
  { w with
    waiting := w.waiting.filter fun r => !concerns r
    messages := (w.waiting.filter concerns).foldl (fun m r => m.insert r.id wakeup) w.messages }

def notifyAppended (w : Waiters) (segment : SegmentId) (length : Nat) : Waiters :=
  w.wake segment length (.appended length)

def notifySealed (w : Waiters) (segment : SegmentId) : Waiters := w.wake segment maxWord .sealed

def notifyMerged (w : Waiters) (segment : SegmentId) : Waiters := w.wake segment maxWord .merged

def deregister (w : Waiters) (id : Nat) : Waiters :=
  { w with waiting := w.waiting.filter (·.id ≠ id) }

def look (w : Waiters) (id : Nat) : Letter :=
  match w.messages.get? id with
  | some wakeup => .message wakeup
  | .none => if w.waiting.any (·.id == id) then .none else .never

def receive (w : Waiters) (id : Nat) : Letter × Waiters :=
  (w.look id, { w with messages := w.messages.erase id })

end Waiters
end TieredStore
