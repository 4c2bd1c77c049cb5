import TieredStore.Bytes
import TieredStore.Identifier
import TieredStore.SortedMap
import TieredStore.Total

/-!
# The cache

The cache holds byte ranges of segments as blocks.  Blocks of a segment never
overlap: adding a range only fills the gaps between the blocks that are there.
Below its flushed mark a segment is also in the tier; only blocks that end at or
below the mark may be evicted, the least recently used first, and only while the
cache is larger than its bound.
-/

namespace TieredStore

structure Block where
  data : Bytes
  /-- The time of the last look-up that hit the block, or of its adding. -/
  lastAccess : Nat
  deriving Repr, DecidableEq

structure SegmentBlocks where
  blocks : SortedMap Nat Block := ∅
  /-- The tier holds the segment below this offset. -/
  flushed : Nat := 0
  deriving DecidableEq, Inhabited

namespace SegmentBlocks

def size (b : SegmentBlocks) : Nat := total (b.blocks.values.map (·.data.length))

def blockAt? (b : SegmentBlocks) (offset : Nat) : Option (Nat × Block) :=
  (b.blocks.floor? offset).filter fun (start, block) => offset < start + block.data.length

/--
The parts of `data` that no block holds, when `data` starts at `cursor` and the
blocks are listed by ascending offsets.
-/
def gaps : List (Nat × Block) → (cursor : Nat) → (data : Bytes) → List (Nat × Bytes)
  | [], cursor, data => if data.isEmpty then [] else [(cursor, data)]
  | (start, block) :: rest, cursor, data =>
      let stop := start + block.data.length
      if data.isEmpty then []
      else if stop ≤ cursor then gaps rest cursor data
      else if start ≤ cursor then gaps rest stop (data.drop (stop - cursor))
      else (cursor, data.take (start - cursor)) :: gaps rest stop (data.drop (stop - cursor))

/-- Adds the parts of `data` that no block holds, and tells how many bytes they have. -/
def fill (b : SegmentBlocks) (offset : Nat) (data : Bytes) (stamp : Nat) : SegmentBlocks × Nat :=
  let missing := gaps b.blocks.entries offset data
  ({ b with
      blocks := missing.foldl (fun blocks (start, data) =>
        blocks.insert start { data, lastAccess := stamp }) b.blocks },
    total (missing.map (·.2.length)))

end SegmentBlocks

structure Cache where
  /-- Flushed blocks are evicted while the cache holds more bytes than this. -/
  maxSize : Nat
  segments : SortedMap SegmentId SegmentBlocks := ∅
  size : Nat := 0
  clock : Nat := 0
  hits : Nat := 0
  misses : Nat := 0
  evictions : Nat := 0
  deriving DecidableEq

namespace Cache

def blocksOf (cache : Cache) (segment : SegmentId) : SegmentBlocks :=
  (cache.segments.get? segment).getD {}

def blockCount (cache : Cache) : Nat := total (cache.segments.values.map (·.blocks.size))

/-! ## Eviction -/

structure Candidate where
  lastAccess : Nat
  segment : SegmentId
  start : Nat
  length : Nat
  deriving Repr, DecidableEq

def Candidate.before (a b : Candidate) : Bool :=
  a.lastAccess < b.lastAccess ||
    (a.lastAccess == b.lastAccess &&
      (a.segment < b.segment || (a.segment == b.segment && a.start ≤ b.start)))

/-- The blocks that end at or below their segment's flushed mark. -/
def candidates (cache : Cache) : List Candidate :=
  cache.segments.entries.flatMap fun (segment, b) =>
    b.blocks.entries.filterMap fun (start, block) =>
      if start + block.data.length ≤ b.flushed then
        some { lastAccess := block.lastAccess, segment, start, length := block.data.length }
      else none

/-- The first candidates that together have at least `excess` bytes, or all of them. -/
def victims (excess : Nat) : List Candidate → List Candidate
  | [] => []
  | c :: rest => if excess = 0 then [] else c :: victims (excess - c.length) rest

def drop (cache : Cache) (c : Candidate) : Cache :=
  { cache with
    segments := cache.segments.modify c.segment fun b => { b with blocks := b.blocks.erase c.start }
    size := cache.size - c.length
    evictions := cache.evictions + 1 }

/-- Drops the least recently used evictable blocks until the cache fits its bound. -/
def evict (cache : Cache) : Cache :=
  (victims (cache.size - cache.maxSize) (cache.candidates.mergeSort Candidate.before)).foldl
    drop cache

/-! ## Adding and looking up -/

/-- Adds `data` of a segment where nothing is cached yet. -/
def put (cache : Cache) (segment : SegmentId) (offset : Nat) (data : Bytes) : Cache :=
  if data.isEmpty then cache
  else
    let (b, added) := (cache.blocksOf segment).fill offset data cache.clock
    let filled :=
      { cache with
        segments := cache.segments.insert segment b
        size := cache.size + added
        clock := cache.clock + 1 }
    if added = 0 then filled else filled.evict

/-- At most `count` bytes from `offset` on, out of the block that holds `offset`. -/
def get (cache : Cache) (segment : SegmentId) (offset count : Nat) : Option Bytes × Cache :=
  match (cache.blocksOf segment).blockAt? offset with
  | none => (none, { cache with misses := cache.misses + 1 })
  | some (start, block) =>
      (some (block.data.slice (offset - start) count),
        { cache with
          segments := cache.segments.modify segment fun b =>
            { b with blocks := b.blocks.insert start { block with lastAccess := cache.clock } }
          clock := cache.clock + 1
          hits := cache.hits + 1 })

/-! ## Following the tier and the table -/

def markFlushed (cache : Cache) (segment : SegmentId) (offset : Nat) : Cache :=
  { cache with
    segments := cache.segments.modify segment fun b => { b with flushed := max b.flushed offset }
  }.evict

def removeSegment (cache : Cache) (segment : SegmentId) : Cache :=
  { cache with
    segments := cache.segments.erase segment
    size := cache.size - (cache.blocksOf segment).size }

/-- Drops the blocks of a segment that end at or before `offset`. -/
def truncateBefore (cache : Cache) (segment : SegmentId) (offset : Nat) : Cache :=
  let b := cache.blocksOf segment
  let kept := { b with blocks := b.blocks.filter fun start block => offset < start + block.data.length }
  { cache with
    segments := cache.segments.modify segment fun _ => kept
    size := cache.size - (b.size - kept.size) }

/-- Makes the blocks of `source` blocks of `target`, `base` further on, where it has none. -/
def moveSegment (cache : Cache) (source target : SegmentId) (base : Nat) : Cache :=
  match cache.segments.get? source with
  | none => cache
  | some moved =>
      let rest := { cache with segments := cache.segments.erase source }
      let (b, added) := moved.blocks.entries.foldl (fun (b, added) (start, block) =>
        let (b, more) := b.fill (base + start) block.data block.lastAccess
        (b, added + more)) (rest.blocksOf target, 0)
      { rest with
        segments := rest.segments.insert target b
        size := cache.size - (moved.size - added) }

end Cache
end TieredStore
