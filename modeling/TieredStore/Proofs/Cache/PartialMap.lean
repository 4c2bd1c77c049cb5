import TieredStore.Proofs.Cache.Marks

/-!
# The cache as a partial map

Seen from outside, the cache leads from offsets of segments to bytes.  Since
blocks do not overlap, a byte is found under an offset exactly if a block holds
it there.  Each call of the cache is then a change of this map: adding bytes
defines what was not defined, a move shifts the map of one segment into that of
another, and whatever is dropped by an eviction lies below a mark.
-/

namespace TieredStore
namespace SegmentBlocks

/-! ## The bytes of a segment -/

def byteOf? (offset : Nat) (e : Nat × Block) : Option UInt8 :=
  if e.1 ≤ offset then e.2.data[offset - e.1]? else none

def byteAmong? (entries : List (Nat × Block)) (offset : Nat) : Option UInt8 :=
  entries.findSome? (byteOf? offset)

def byte? (b : SegmentBlocks) (offset : Nat) : Option UInt8 :=
  byteAmong? b.blocks.entries offset

def Holds (b : SegmentBlocks) (offset : Nat) (byte : UInt8) : Prop :=
  ∃ start block, b.blocks.get? start = some block ∧ start ≤ offset ∧
    block.data[offset - start]? = some byte

variable {b after : SegmentBlocks} {offset stamp bound base o : Nat} {data : Bytes} {byte : UInt8}

theorem Holds.covers (h : b.Holds o byte) : b.Covers o := by
  rcases h with ⟨start, block, hblock, hle, hbyte⟩
  rcases List.getElem?_eq_some_iff.mp hbyte with ⟨hlt, -⟩
  exact ⟨start, block, hblock, hle, by omega⟩

theorem byteOf?_of_le {start : Nat} {block : Block} (h : start ≤ o) :
    byteOf? o (start, block) = block.data[o - start]? := if_pos h

theorem byteOf?_eq_some {e : Nat × Block} (h : byteOf? o e = some byte) :
    e.1 ≤ o ∧ e.2.data[o - e.1]? = some byte := by
  unfold byteOf? at h
  split at h
  · rename_i hle
    exact ⟨hle, h⟩
  · cases h

theorem holds_of_byte? (h : b.byte? o = some byte) : b.Holds o byte := by
  rcases List.exists_of_findSome?_eq_some h with ⟨e, hmem, hsome⟩
  exact ⟨e.1, e.2, SortedMap.get?_eq_some_iff.mpr hmem, byteOf?_eq_some hsome⟩

theorem byteOf?_eq_none {start : Nat} {block : Block} (h : b.byte? o = none)
    (hblock : b.blocks.get? start = some block) : byteOf? o (start, block) = none :=
  List.findSome?_eq_none_iff.mp h _ (SortedMap.get?_eq_some_iff.mp hblock)

/-- No two blocks hold a byte at one offset. -/
theorem Apart.holds_unique (h : b.Apart) {other : UInt8} (hx : b.Holds o byte)
    (hy : b.Holds o other) : byte = other := by
  rcases hx with ⟨s, x, hs, hsle, hx⟩
  rcases hy with ⟨t, y, ht, htle, hy⟩
  rcases List.getElem?_eq_some_iff.mp hx with ⟨hxlt, -⟩
  rcases List.getElem?_eq_some_iff.mp hy with ⟨hylt, -⟩
  rcases Nat.lt_trichotomy s t with hlt | heq | hgt
  · have hapart := h.apart hs ht hlt
    omega
  · subst heq
    rw [hs] at ht
    cases ht
    rw [hx] at hy
    exact Option.some.inj hy
  · have hapart := h.apart ht hs hgt
    omega

theorem Apart.byte?_eq_some_iff (h : b.Apart) : b.byte? o = some byte ↔ b.Holds o byte := by
  constructor
  · exact holds_of_byte?
  · intro hholds
    cases hbyte : b.byte? o with
    | some other => rw [h.holds_unique hholds (holds_of_byte? hbyte)]
    | none =>
        rcases hholds with ⟨start, block, hblock, hle, hsome⟩
        have hmiss := byteOf?_eq_none hbyte hblock
        rw [byteOf?_of_le hle, hsome] at hmiss
        cases hmiss

theorem byte?_eq_none_iff : b.byte? o = none ↔ ¬ b.Covers o := by
  constructor
  · intro hnone hcovers
    rcases hcovers with ⟨start, block, hblock, hle, hlt⟩
    have hmiss := byteOf?_eq_none hnone hblock
    rw [byteOf?_of_le hle, List.getElem?_eq_none_iff] at hmiss
    omega
  · intro hnot
    cases hbyte : b.byte? o with
    | none => rfl
    | some byte => exact absurd (holds_of_byte? hbyte).covers hnot

/-! ## Filling -/

theorem IsGap.getElem? {entries : List (Nat × Block)} {gap : Nat × Bytes}
    (h : IsGap entries offset data gap) (hle : gap.1 ≤ o) (hlt : o < gap.1 + gap.2.length) :
    gap.2[o - gap.1]? = data[o - offset]? := by
  have hcursor := h.le
  rw [← h.piece]
  unfold Bytes.slice
  rw [List.getElem?_take_of_lt (by omega), List.getElem?_drop]
  congr 1
  omega

/-- Filling defines what was not defined, and changes nothing else. -/
theorem Apart.byte?_fill (h : b.Apart) (offset : Nat) (data : Bytes) (stamp o : Nat) :
    (b.fill offset data stamp).1.byte? o =
      (b.byte? o).or (if offset ≤ o then data[o - offset]? else none) := by
  have hfilled : (b.fill offset data stamp).1.Apart := h.fill
  cases hold : b.byte? o with
  | some byte =>
      rcases holds_of_byte? hold with ⟨start, block, hblock, hin⟩
      exact hfilled.byte?_eq_some_iff.mpr ⟨start, block, h.get?_fill_of_some hblock, hin⟩
  | none =>
      have hnot := byte?_eq_none_iff.mp hold
      rw [Option.none_or]
      refine Option.ext fun byte => ?_
      rw [hfilled.byte?_eq_some_iff]
      constructor
      · intro hholds
        rcases hholds with ⟨start, block, hblock, hle, hbyte⟩
        rcases List.getElem?_eq_some_iff.mp hbyte with ⟨hlt, -⟩
        rcases h.get?_fill hblock with hthere | hnew
        · exact absurd ⟨start, block, hthere, hle, by omega⟩ hnot
        · rcases hnew with ⟨gap, hgap, hstart, hdata⟩
          subst hstart
          have hisGap := isGap_of_mem_gaps h.inRow gap hgap
          rw [hdata] at hbyte hlt
          rw [if_pos (Nat.le_trans hisGap.le hle), ← hisGap.getElem? hle (by omega)]
          exact hbyte
      · intro hbyte
        by_cases hle : offset ≤ o
        · rw [if_pos hle] at hbyte
          rcases List.getElem?_eq_some_iff.mp hbyte with ⟨hlt, -⟩
          -- no block holds the offset, so a gap does
          have hcovered : (∃ gap ∈ gaps b.blocks.entries offset data, gap.1 ≤ o ∧
                o < gap.1 + gap.2.length) ∨
              ∃ e ∈ b.blocks.entries, e.1 ≤ o ∧ o < e.1 + e.2.data.length :=
            gaps_cover hle (by omega)
          rcases hcovered with hgap | hentry
          · rcases hgap with ⟨gap, hgap, hgle, hglt⟩
            refine ⟨gap.1, _, h.get?_fill_of_gap hgap, hgle, ?_⟩
            exact ((isGap_of_mem_gaps h.inRow gap hgap).getElem? hgle hglt).trans hbyte
          · rcases hentry with ⟨e, he, hin⟩
            exact absurd ⟨e.1, e.2, SortedMap.get?_eq_some_iff.mpr he, hin⟩ hnot
        · rw [if_neg hle] at hbyte
          cases hbyte

theorem Apart.byte?_poured (h : b.Apart) (base : Nat) (entries : List (Nat × Block)) (o : Nat) :
    (Cache.poured base b entries).byte? o =
      (b.byte? o).or (if base ≤ o then byteAmong? entries (o - base) else none) := by
  induction entries generalizing b with
  | nil =>
      rw [show byteAmong? [] (o - base) = none from rfl, ite_self, Option.or_none]
      rfl
  | cons e rest ih =>
      rcases e with ⟨start, block⟩
      have hrest := ih (h.fill : (b.fill (base + start) block.data block.lastAccess).1.Apart)
      rw [h.byte?_fill, Option.or_assoc] at hrest
      refine hrest.trans (congrArg _ ?_)
      by_cases hbase : base ≤ o
      · have hfirst : (if base + start ≤ o then block.data[o - (base + start)]? else none) =
            byteOf? (o - base) (start, block) := by
          unfold byteOf?
          by_cases hstart : start ≤ o - base
          · rw [if_pos (by omega), if_pos hstart, Nat.sub_add_eq]
          · rw [if_neg (by omega), if_neg hstart]
        rw [if_pos hbase, if_pos hbase, hfirst, byteAmong?, byteAmong?, List.findSome?_cons]
        cases byteOf? (o - base) (start, block) with
        | none => rfl
        | some byte => rfl
      · rw [if_neg hbase, if_neg hbase, if_neg (by omega), Option.none_or]

/-! ## Dropping -/

/-- What is dropped lies below the bound. -/
theorem Thins.byte? (h : Thins bound b after) (hb : b.Apart) (o : Nat) :
    after.byte? o = b.byte? o ∨ after.byte? o = none ∧ o < bound := by
  cases hafter : after.byte? o with
  | some byte =>
      rcases holds_of_byte? hafter with ⟨start, block, hblock, hle, hbyte⟩
      rcases h.sub hblock with ⟨old, hold, hdata⟩
      exact Or.inl (hb.byte?_eq_some_iff.mpr ⟨start, old, hold, hle, by rw [hdata]; exact hbyte⟩).symm
  | none =>
      by_cases hcovers : b.Covers o
      · refine Or.inr ⟨rfl, Nat.not_le.mp fun hle => ?_⟩
        exact byte?_eq_none_iff.mp hafter (h.covers hcovers hle)
      · exact Or.inl (byte?_eq_none_iff.mpr hcovers).symm

/-! ## Looking up -/

/-- What a look-up in the blocks of a segment finds is a run of the map. -/
structure Runs (b : SegmentBlocks) (offset count : Nat) (found : Bytes) : Prop where
  defined : b.byte? offset ≠ none
  length_le : found.length ≤ count
  nonempty : 0 < count → found ≠ []
  bytes : ∀ i, i < found.length → b.byte? (offset + i) = found[i]?

theorem Apart.runs (h : b.Apart) {start count : Nat} {block : Block}
    (hat : b.blockAt? offset = some (start, block)) :
    b.Runs offset count (block.data.slice (offset - start) count) := by
  rcases blockAt?_eq_some hat with ⟨hblock, hle, hlt⟩
  have hlength := Bytes.length_slice block.data (offset - start) count
  refine { defined := ?_, length_le := by omega, nonempty := ?_, bytes := ?_ }
  · intro hnone
    exact byte?_eq_none_iff.mp hnone ⟨start, block, hblock, hle, hlt⟩
  · intro hcount hnil
    rw [hnil, List.length_nil] at hlength
    omega
  · intro i hi
    rw [hlength] at hi
    have hplace : block.data[offset + i - start]? = some block.data[offset + i - start] :=
      List.getElem?_eq_getElem (by omega)
    rw [h.byte?_eq_some_iff.mpr ⟨start, block, hblock, by omega, hplace⟩]
    unfold Bytes.slice
    rw [List.getElem?_take_of_lt (by omega), List.getElem?_drop, ← hplace]
    congr 1
    omega

end SegmentBlocks

open SegmentBlocks

namespace Cache

variable {cache after : Cache} {segment id : SegmentId} {offset count : Nat} {data : Bytes}

def byte? (cache : Cache) (id : SegmentId) (offset : Nat) : Option UInt8 :=
  (cache.blocksOf id).byte? offset

/-! ## What is kept at any time -/

/--
Blocks are apart, the counter counts their bytes, and it is never lowered by more
than it counts: neither by the blocks of a segment nor by the victims of an
eviction.
-/
structure Exact (cache : Cache) : Prop where
  apart : ∀ id, (cache.blocksOf id).Apart
  size_eq : cache.size = cache.held
  part_le : ∀ id, (cache.blocksOf id).size ≤ cache.size
  victims_le : ∀ excess,
    total ((victims excess (cache.candidates.mergeSort Candidate.before)).map (·.length)) ≤
      cache.size

theorem size_blocksOf_le_held (cache : Cache) (id : SegmentId) :
    (cache.blocksOf id).size ≤ cache.held := by
  have hrest := cache.segments.total_erase id SegmentBlocks.size
  rw [size_blocksOf]
  unfold held
  omega

theorem Counted.exact (h : cache.Counted) : cache.Exact where
  apart := h.apart
  size_eq := h.size_eq
  part_le := fun id => h.size_eq ▸ cache.size_blocksOf_le_held id
  victims_le := by
    intro excess
    have hdropped := h.foldl_drop
      (fun c hc => present_of_mem_candidates (List.mem_mergeSort.mp (mem_of_mem_victims hc)))
      (cache.queue_differ.sublist (victims_sublist excess _))
    rw [← hdropped.2.1]
    exact Nat.le_add_left _ _

/-! ## What each call does -/

/-- The second cache has lost only bytes below the bounds of their segments. -/
def Forgets (bound : SegmentId → Nat) (before after : Cache) : Prop :=
  ∀ id o, after.byte? id o = before.byte? id o ∨ after.byte? id o = none ∧ o < bound id

/-- The second cache is what an eviction has left of the first; within the bound it is the first. -/
structure Evicted (before after : Cache) : Prop where
  forgets : Forgets before.mark before after
  idle : before.size ≤ before.maxSize → after = before

theorem Thins.forgets {bound : SegmentId → Nat} (h : Thins bound cache after)
    (hcache : cache.Counted) : Forgets bound cache after :=
  fun id o => (h id).byte? (hcache.apart id) o

theorem Evicted.refl (cache : Cache) : Evicted cache cache where
  forgets := fun _ _ => Or.inl rfl
  idle := fun _ => rfl

theorem evict_of_le (h : cache.size ≤ cache.maxSize) : cache.evict = cache := by
  unfold evict
  rw [Nat.sub_eq_zero_of_le h]
  cases cache.candidates.mergeSort Candidate.before with
  | nil => rfl
  | cons c rest =>
      unfold victims
      rw [if_pos rfl]
      rfl

theorem Counted.evicted (h : cache.Counted) : Evicted cache cache.evict where
  forgets := (thins_evict cache).forgets h
  idle := evict_of_le

theorem Counted.byte?_filled (h : cache.Counted) (segment : SegmentId) (offset : Nat)
    (data : Bytes) (id : SegmentId) (o : Nat) :
    (cache.filled segment offset data).byte? id o =
      (cache.byte? id o).or
        (if id = segment ∧ offset ≤ o then data[o - offset]? else none) := by
  unfold byte?
  rw [blocksOf_filled]
  by_cases hid : id = segment
  · rw [if_pos hid, (h.apart segment).byte?_fill, hid]
    simp only [true_and]
  · rw [if_neg hid, if_neg fun hboth => hid hboth.1, Option.or_none]

/-- The blocks stay, and where none was the data stands in new ones of this time. -/
structure Adds (before : Cache) (segment : SegmentId) (offset : Nat) (data : Bytes)
    (filled : Cache) : Prop where
  kept : ∀ id start block, (before.blocksOf id).blocks.get? start = some block →
    (filled.blocksOf id).blocks.get? start = some block
  added : ∀ id start block, (filled.blocksOf id).blocks.get? start = some block →
    (before.blocksOf id).blocks.get? start = some block ∨
      id = segment ∧ block.lastAccess = before.clock ∧ offset ≤ start ∧
        Bytes.slice data (start - offset) block.data.length = block.data
  covers : ∀ o, offset ≤ o → o < offset + data.length → filled.Covers segment o
  mark_eq : ∀ id, filled.mark id = before.mark id
  size_eq : filled.size = filled.held
  maxSize_eq : filled.maxSize = before.maxSize
  evictions_eq : filled.evictions = before.evictions

/-- The mark of a segment that the cache knows is moved, and no block changes. -/
structure Marks (before : Cache) (segment : SegmentId) (offset : Nat) (marked : Cache) : Prop where
  blocks_eq : ∀ id, (marked.blocksOf id).blocks = (before.blocksOf id).blocks
  mark_eq : ∀ id, marked.mark id =
    if id = segment ∧ before.Knows id then max (before.mark id) offset else before.mark id
  size_eq : marked.size = before.size
  maxSize_eq : marked.maxSize = before.maxSize
  evictions_eq : marked.evictions = before.evictions

theorem Counted.adds (h : cache.Counted) (segment : SegmentId) (offset : Nat) (data : Bytes) :
    Adds cache segment offset data (cache.filled segment offset data) where
  kept := by
    intro id start block hblock
    rw [blocksOf_filled]
    by_cases hid : id = segment
    · rw [if_pos hid]
      rw [hid] at hblock
      exact (h.apart segment).get?_fill_of_some hblock
    · rw [if_neg hid]
      exact hblock
  added := by
    intro id start block hblock
    rw [blocksOf_filled] at hblock
    by_cases hid : id = segment
    · rw [if_pos hid] at hblock
      rcases (h.apart segment).get?_fill hblock with hold | hnew
      · rw [hid]
        exact Or.inl hold
      · rcases hnew with ⟨gap, hgap, rfl, -⟩
        have hisGap := SegmentBlocks.isGap_of_mem_gaps (h.apart segment).inRow gap hgap
        rw [(h.apart segment).get?_fill_of_gap hgap] at hblock
        cases hblock
        exact Or.inr ⟨hid, rfl, hisGap.le, hisGap.piece⟩
    · rw [if_neg hid] at hblock
      exact Or.inl hblock
  covers := by
    intro o hle hlt
    unfold Covers
    rw [blocksOf_filled, if_pos rfl]
    exact (h.apart segment).covers_fill (Or.inr ⟨hle, hlt⟩)
  mark_eq := fun _ => mark_filled
  size_eq := (h.filled segment offset data).size_eq
  maxSize_eq := rfl
  evictions_eq := rfl

theorem marks_marked (cache : Cache) (segment : SegmentId) (offset : Nat) :
    Marks cache segment offset (cache.marked segment offset) where
  blocks_eq := fun _ => blocks_marked
  mark_eq := by
    intro id
    have hmark : (cache.marked segment offset).mark id = (cache.markFlushed segment offset).mark id :=
      (mark_evict _ _).symm
    by_cases hid : id = segment
    · subst hid
      by_cases hknows : cache.Knows id
      · rw [if_pos ⟨rfl, hknows⟩, hmark, mark_markFlushed_of_knows hknows]
      · have hafter : ¬(cache.marked id offset).Knows id := by
          rw [knows_of_modify rfl id]
          exact hknows
        rw [if_neg fun hboth => hknows hboth.2]
        unfold mark
        rw [blocksOf_of_not_knows hknows, blocksOf_of_not_knows hafter]
    · rw [if_neg fun hboth => hid hboth.1, hmark, mark_markFlushed_of_ne hid]
  size_eq := rfl
  maxSize_eq := rfl
  evictions_eq := rfl

theorem Counted.adds_nil (h : cache.Counted) (segment : SegmentId) (offset : Nat) :
    Adds cache segment offset [] cache where
  kept := fun _ _ _ hblock => hblock
  added := fun _ _ _ hblock => Or.inl hblock
  covers := fun _ hle hlt => absurd hlt (Nat.not_lt.mpr hle)
  mark_eq := fun _ => rfl
  size_eq := h.size_eq
  maxSize_eq := rfl
  evictions_eq := rfl

theorem byte?_marked (id : SegmentId) (o : Nat) :
    (cache.marked segment offset).byte? id o = cache.byte? id o := by
  unfold byte? SegmentBlocks.byte?
  rw [blocks_marked]

theorem Counted.byte?_get (h : cache.Counted) (segment : SegmentId) (offset count : Nat)
    (id : SegmentId) (o : Nat) :
    (cache.get segment offset count).2.byte? id o = cache.byte? id o := by
  rcases (thins_get cache segment offset count (fun _ => 0)).forgets h id o with hsame | hlost
  · exact hsame
  · exact absurd hlost.2 (Nat.not_lt_zero _)

theorem Counted.byte?_moveSegment (h : cache.Counted) {source target : SegmentId}
    (hne : source ≠ target) (base : Nat) (id : SegmentId) (o : Nat) :
    (cache.moveSegment source target base).byte? id o =
      if id = target then
        (cache.byte? target o).or (if base ≤ o then cache.byte? source (o - base) else none)
      else if id = source then none else cache.byte? id o := by
  unfold byte?
  rw [blocksOf_moveSegment hne]
  by_cases htarget : id = target
  · rw [if_pos htarget, if_pos htarget, (h.apart target).byte?_poured]
    rfl
  · rw [if_neg htarget, if_neg htarget]
    by_cases hid : id = source
    · rw [if_pos hid, if_pos hid]
      rfl
    · rw [if_neg hid, if_neg hid]

theorem byte?_removeSegment (id : SegmentId) (o : Nat) :
    (cache.removeSegment segment).byte? id o = if id = segment then none else cache.byte? id o := by
  have hblocks : (cache.without segment).blocksOf id =
      if id = segment then {} else cache.blocksOf id := blocksOf_without id
  unfold byte?
  rw [show (cache.removeSegment segment).blocksOf id = (cache.without segment).blocksOf id from rfl,
    hblocks]
  by_cases hid : id = segment
  · rw [if_pos hid, if_pos hid]
    rfl
  · rw [if_neg hid, if_neg hid]

theorem Counted.removeSegment (h : cache.Counted) (segment : SegmentId) :
    (cache.removeSegment segment).Counted where
  apart := h.apart_without
  size_eq := by
    have hheld : (cache.without segment).held + (cache.blocksOf segment).size =
        cache.held + ((cache.without segment).blocksOf segment).size :=
      held_of_others fun id hid => SortedMap.get?_erase_of_ne _ hid
    have hempty : ((cache.without segment).blocksOf segment).size = 0 := by
      rw [blocksOf_without, if_pos rfl]
      rfl
    have hcount := h.size_eq
    show cache.size - (cache.blocksOf segment).size = (cache.without segment).held
    omega

end Cache

/-! ## Runs -/

inductive CacheCall
  | put (segment : SegmentId) (offset : Nat) (data : Bytes)
  | get (segment : SegmentId) (offset count : Nat)
  | markFlushed (segment : SegmentId) (offset : Nat)
  | removeSegment (segment : SegmentId)
  | truncateBefore (segment : SegmentId) (offset : Nat)
  | moveSegment (source target : SegmentId) (base : Nat) (distinct : source ≠ target)

namespace CacheCall

def run (cache : Cache) : CacheCall → Cache
  | put segment offset data => cache.put segment offset data
  | get segment offset count => (cache.get segment offset count).2
  | markFlushed segment offset => cache.markFlushed segment offset
  | removeSegment segment => cache.removeSegment segment
  | truncateBefore segment offset => cache.truncateBefore segment offset
  | moveSegment source target base _ => cache.moveSegment source target base

def runAll (cache : Cache) (calls : List CacheCall) : Cache := calls.foldl run cache

/--
What a call does to the map.  An eviction comes after everything else that a call
does, and only after bytes were added or a mark was moved; before it the bound and the
other marks are as they were.
-/
def Describes (before after : Cache) : CacheCall → Prop
  | put segment offset data =>
      ∃ filled : Cache, filled.Exact ∧ Cache.Adds before segment offset data filled ∧
        (∀ id o, filled.byte? id o =
          (before.byte? id o).or
            (if id = segment ∧ offset ≤ o then data[o - offset]? else none)) ∧
        Cache.Evicted filled filled.evict ∧
        after = if filled.size = before.size then filled else filled.evict
  | get segment offset count =>
      (∀ id o, after.byte? id o = before.byte? id o) ∧
        match (before.get segment offset count).1 with
        | none => before.byte? segment offset = none
        | some found => (before.blocksOf segment).Runs offset count found
  | markFlushed segment offset =>
      ∃ marked : Cache, marked.Exact ∧ Cache.Marks before segment offset marked ∧
        (∀ id o, marked.byte? id o = before.byte? id o) ∧
        Cache.Evicted marked marked.evict ∧ after = marked.evict
  | removeSegment segment =>
      ∀ id o, after.byte? id o = if id = segment then none else before.byte? id o
  | truncateBefore segment offset =>
      Cache.Forgets (fun id => if id = segment then offset else 0) before after ∧
        ∀ start block, (after.blocksOf segment).blocks.get? start = some block ↔
          (before.blocksOf segment).blocks.get? start = some block ∧
            offset < start + block.data.length
  | moveSegment source target base _ =>
      ∀ id o, after.byte? id o =
        if id = target then
          (before.byte? target o).or (if base ≤ o then before.byte? source (o - base) else none)
        else if id = source then none else before.byte? id o

variable {cache : Cache}

theorem counted_run (h : cache.Counted) (call : CacheCall) : (call.run cache).Counted := by
  cases call with
  | put segment offset data =>
      have hfilled := h.filled segment offset data
      show (cache.put segment offset data).Counted
      rcases Cache.put_eq cache segment offset data with heq | heq | heq
      · rw [heq.1]
        exact h
      · rw [heq]
        exact hfilled
      · rw [heq]
        exact hfilled.evict.toCounted
  | get segment offset count =>
      exact
        { apart := fun id =>
            (Cache.thins_get cache segment offset count (fun _ => 0) id).apart (h.apart id)
          size_eq := Cache.size_get.trans (h.size_eq.trans Cache.held_get.symm) }
  | markFlushed segment offset => exact (h.markFlushed segment offset).toCounted
  | removeSegment segment => exact h.removeSegment segment
  | truncateBefore segment offset => exact h.truncateBefore segment offset
  | moveSegment source target base _ => exact h.moveSegment source target base

theorem counted_runAll (h : cache.Counted) (calls : List CacheCall) :
    (runAll cache calls).Counted := by
  induction calls generalizing cache with
  | nil => exact h
  | cons call rest ih => exact ih (counted_run h call)

theorem maxSize_run (cache : Cache) (call : CacheCall) : (call.run cache).maxSize = cache.maxSize := by
  cases call with
  | put segment offset data => exact Cache.maxSize_put
  | get segment offset count => exact Cache.maxSize_get
  | markFlushed segment offset => exact Cache.maxSize_markFlushed
  | removeSegment segment => rfl
  | truncateBefore segment offset => rfl
  | moveSegment source target base _ => exact Cache.maxSize_moveSegment

theorem maxSize_runAll (cache : Cache) (calls : List CacheCall) :
    (runAll cache calls).maxSize = cache.maxSize := by
  induction calls generalizing cache with
  | nil => rfl
  | cons call rest ih => exact (ih (call.run cache)).trans (maxSize_run cache call)

theorem describes_put (h : cache.Counted) (segment : SegmentId) (offset : Nat) (data : Bytes) :
    (put segment offset data).Describes cache (cache.put segment offset data) := by
  by_cases hdata : data = []
  · -- nothing is added, so the cache itself is what the call fills
    subst hdata
    refine ⟨cache, h.exact, h.adds_nil segment offset, fun id o => ?_, h.evicted, ?_⟩
    · rw [List.getElem?_nil, ite_self, Option.or_none]
    · rw [if_pos rfl]
      rfl
  · have hfilled := h.filled segment offset data
    exact ⟨_, hfilled.exact, h.adds segment offset data, h.byte?_filled segment offset data,
      hfilled.evicted, Cache.put_of_ne_nil hdata⟩

theorem describes_get (h : cache.Counted) (segment : SegmentId) (offset count : Nat) :
    (get segment offset count).Describes cache (cache.get segment offset count).2 := by
  refine ⟨h.byte?_get segment offset count, ?_⟩
  unfold Cache.get
  cases hat : (cache.blocksOf segment).blockAt? offset with
  | none => exact byte?_eq_none_iff.mpr ((h.apart segment).not_covers hat)
  | some found => exact (h.apart segment).runs hat

theorem describes_markFlushed (h : cache.Counted) (segment : SegmentId) (offset : Nat) :
    (markFlushed segment offset).Describes cache (cache.markFlushed segment offset) := by
  have hmarked := h.marked segment offset
  exact ⟨_, hmarked.exact, Cache.marks_marked cache segment offset, Cache.byte?_marked,
    hmarked.evicted, Cache.markFlushed_eq⟩

theorem describes_truncateBefore (h : cache.Counted) (segment : SegmentId) (offset : Nat) :
    (truncateBefore segment offset).Describes cache (cache.truncateBefore segment offset) := by
  constructor
  · have hthins : Cache.Thins (fun id => if id = segment then offset else 0) cache
        (cache.truncateBefore segment offset) :=
      Cache.thins_truncateBefore (Nat.le_of_eq (if_pos rfl).symm)
    exact hthins.forgets h
  · intro start block
    rw [Cache.blocksOf_truncateBefore_self, SortedMap.get?_filter_eq_some_iff, decide_eq_true_eq]

theorem describes_run (h : cache.Counted) (call : CacheCall) :
    call.Describes cache (call.run cache) := by
  cases call with
  | put segment offset data => exact describes_put h segment offset data
  | get segment offset count => exact describes_get h segment offset count
  | markFlushed segment offset => exact describes_markFlushed h segment offset
  | removeSegment segment => exact Cache.byte?_removeSegment
  | truncateBefore segment offset => exact describes_truncateBefore h segment offset
  | moveSegment source target base distinct => exact h.byte?_moveSegment distinct base

/--
At any time of any run, blocks are not empty and do not overlap, the counter counts
their bytes and is never lowered by more, the bound is the one that the cache was made
with, and the next call changes the map from offsets to bytes as it is meant to.
-/
theorem run_maps_offsets (maxSize : Nat) (calls : List CacheCall) (call : CacheCall) :
    (runAll { maxSize } calls).Exact ∧ (runAll { maxSize } calls).maxSize = maxSize ∧
      call.Describes (runAll { maxSize } calls) (call.run (runAll { maxSize } calls)) := by
  have hcounted := counted_runAll (Cache.orderly_empty maxSize).toCounted calls
  exact ⟨hcounted.exact, maxSize_runAll { maxSize } calls, describes_run hcounted call⟩

/-- What is put over blocks that are there only fills the gaps around them. -/
example :
    (List.range 7).map
        ((runAll { maxSize := 1 } [put 1 1 [1, 1], put 1 4 [2], put 1 0 [3, 3, 3, 3, 3, 3]]).byte? 1) =
      [some 3, some 1, some 1, some 3, some 2, some 3, none] := by
  cbv

end CacheCall
end TieredStore
