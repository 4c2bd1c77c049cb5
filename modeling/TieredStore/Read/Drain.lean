import TieredStore.Read.Result

/-!
# Reading what is there

Draining a read waits for one entry after the other, up to the end of what has
been written: it stops at an entry that would have to wait for an append.
-/

namespace TieredStore

structure Piece where
  kind : EntryKind
  offset : Nat
  length : Option Nat
  deriving Repr, DecidableEq

structure Drained where
  data : Bytes := []
  pieces : List Piece := []
  failure : Option Error := none
  read : ReadResult
  deriving DecidableEq

namespace Drained

variable {τ : Type} [Tier τ]

def note (drained : Drained) (entry : Entry) (data : Option Bytes) : Drained :=
  { drained with
    data := drained.data ++ data.getD []
    pieces := drained.pieces ++ [⟨entry.kind, entry.offset, data.map (·.length)⟩] }

def goOn : (fuel : Nat) → Drained → Store τ → Drained × Store τ
  | 0, drained, store => (drained, store)
  | fuel + 1, drained, store =>
      match drained.read.next store with
      | ⟨.error e, read, store⟩ => ({ drained with read, failure := some e }, store)
      | ⟨.ok none, read, store⟩ => ({ drained with read }, store)
      | ⟨.ok (some entry), read, store⟩ =>
          let drained := { drained with read }
          if entry.kind = .future then (drained.note entry none, entry.drop store)
          else
            match entry.awaitContent store with
            | ⟨.error e, entry, store⟩ => ({ drained.note entry none with failure := some e }, store)
            | ⟨.ok data, entry, store⟩ => goOn fuel (drained.note entry (some data)) store

end Drained

namespace Store

/--
Reads at most `maxLength` bytes of what has been written of a segment from
`offset` on.  Every entry but the last two brings a byte.
-/
def readAll {τ : Type} [Tier τ] (id : SegmentId) (offset maxLength : Nat) : StoreM τ Drained := do
  let read ← read id offset maxLength
  let length := (((← get).table.get? id).map (·.length)).getD 0
  fun store =>
    let (drained, store) := Drained.goOn (length - offset + 2) { read } store
    .ok drained store

end Store
end TieredStore
