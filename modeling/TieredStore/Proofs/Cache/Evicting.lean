import Mathlib.Data.List.Permutation
import TieredStore.Proofs.Cache.PartialMap

/-!
# What an eviction takes

The blocks that end at or below the marks of their segments stand in a queue: by last
access, then by segment, then by offset.  No two of them share all three, so there is one
queue.  An eviction takes blocks from its front, as few as make the cache fit its bound,
or all of them if that is not enough.  A block that ends behind the mark is not in the
queue, and nothing else is dropped.
-/

namespace TieredStore
namespace Cache

variable {cache before after : Cache} {segment id : SegmentId} {offset start : Nat} {data : Bytes}
  {block : Block} {c : Candidate} {queue : List Candidate} {count : Nat}

def Candidate.Precedes (a b : Candidate) : Prop :=
  a.lastAccess < b.lastAccess ∨ a.lastAccess = b.lastAccess ∧
    (a.segment < b.segment ∨ a.segment = b.segment ∧ a.start < b.start)

structure Queued (cache : Cache) (queue : List Candidate) : Prop where
  mem_iff : ∀ c, c ∈ queue ↔ cache.Flushed c
  ordered : queue.Pairwise Candidate.Precedes

/-- The first `count` blocks of the queue are gone, and nothing else. -/
structure Takes (before after : Cache) (queue : List Candidate) (count : Nat) : Prop where
  queued : before.Queued queue
  count_le : count ≤ queue.length
  blocks_iff : ∀ id start block, (after.blocksOf id).blocks.get? start = some block ↔
    (before.blocksOf id).blocks.get? start = some block ∧
      ∀ c ∈ queue.take count, ¬(c.segment = id ∧ c.start = start)
  mark_eq : ∀ id, after.mark id = before.mark id
  size_add : after.size + weight (queue.take count) = before.size
  size_eq : after.size = after.held
  maxSize_eq : after.maxSize = before.maxSize
  evictions_eq : after.evictions = before.evictions + count

/-!
## The queue
-/

theorem mem_candidates_iff : c ∈ cache.candidates ↔ cache.Flushed c := by
  constructor
  · exact flushed_of_mem_candidates
  · intro h
    rcases h with ⟨hle, block, hblock, haccess, hlength⟩
    rw [← hlength] at hle
    have hmem := mem_candidates hblock hle
    rw [haccess, hlength] at hmem
    exact hmem

theorem Candidate.before_iff {a b : Candidate} :
    a.before b = true ↔ a.lastAccess < b.lastAccess ∨ a.lastAccess = b.lastAccess ∧
      (a.segment < b.segment ∨ a.segment = b.segment ∧ a.start ≤ b.start) := by
  unfold Candidate.before
  simp

/-- Two blocks that are compared differ in their places, so one of them goes first. -/
theorem Candidate.precedes_of_before {a b : Candidate} (h : a.before b = true)
    (hdiffers : a.Differs b) : a.Precedes b := by
  rcases Candidate.before_iff.mp h with haccess | ⟨haccess, hsegment | ⟨hsegment, hstart⟩⟩
  · exact Or.inl haccess
  · exact Or.inr ⟨haccess, Or.inl hsegment⟩
  · have hlt : a.start < b.start := Nat.lt_of_le_of_ne hstart (hdiffers hsegment)
    exact Or.inr ⟨haccess, Or.inr ⟨hsegment, hlt⟩⟩

theorem Candidate.before_trans (a b c : Candidate) (hab : a.before b = true)
    (hbc : b.before c = true) : a.before c = true := by
  rw [Candidate.before_iff] at hab hbc ⊢
  grind

theorem Candidate.before_total (a b : Candidate) : (a.before b || b.before a) = true := by
  rw [Bool.or_eq_true, Candidate.before_iff, Candidate.before_iff]
  grind

theorem queued_mergeSort (cache : Cache) :
    cache.Queued (cache.candidates.mergeSort Candidate.before) where
  mem_iff := by
    intro c
    rw [List.mem_mergeSort, mem_candidates_iff]
  ordered := by
    have hsorted : (cache.candidates.mergeSort Candidate.before).Pairwise
        (fun a b => a.before b = true) :=
      List.pairwise_mergeSort Candidate.before_trans Candidate.before_total cache.candidates
    exact (hsorted.and cache.queue_differ).imp fun h => Candidate.precedes_of_before h.1 h.2

theorem Candidate.Precedes.asymm {a b : Candidate} (h : a.Precedes b) : ¬b.Precedes a := by
  unfold Candidate.Precedes at h ⊢
  grind

theorem Queued.unique {other : List Candidate} (h : cache.Queued queue)
    (hother : cache.Queued other) : queue = other := by
  have hnodup : ∀ {list : List Candidate}, list.Pairwise Candidate.Precedes → list.Nodup := by
    intro list hordered
    apply hordered.imp
    intro a b hab heq
    rw [heq] at hab
    exact hab.asymm hab
  have hperm : queue.Perm other := by
    apply (List.perm_ext_iff_of_nodup (hnodup h.ordered) (hnodup hother.ordered)).mpr
    intro c
    exact (h.mem_iff c).trans (hother.mem_iff c).symm
  apply hperm.eq_of_pairwise _ h.ordered hother.ordered
  intro a b _ _ hab hba
  exact absurd hba hab.asymm

/-!
## Dropping
-/

theorem get?_drop_iff :
    ((cache.drop c).blocksOf id).blocks.get? start = some block ↔
      (cache.blocksOf id).blocks.get? start = some block ∧ ¬(c.segment = id ∧ c.start = start) := by
  constructor
  · intro h
    constructor
    · exact get?_of_drop h
    · intro hplace
      rcases hplace with ⟨rfl, rfl⟩
      rw [blocksOf_drop, SortedMap.get?_erase_self] at h
      cases h
  · intro h
    rcases h with ⟨hblock, hplace⟩
    by_cases hid : id = c.segment
    · have hstart : start ≠ c.start := fun heq => hplace ⟨hid.symm, heq.symm⟩
      rw [hid] at hblock ⊢
      rw [blocksOf_drop, SortedMap.get?_erase_of_ne _ hstart]
      exact hblock
    · rw [blocksOf_drop_of_ne c hid]
      exact hblock

theorem get?_foldl_drop_iff (list : List Candidate) :
    ((list.foldl drop cache).blocksOf id).blocks.get? start = some block ↔
      (cache.blocksOf id).blocks.get? start = some block ∧
        ∀ c ∈ list, ¬(c.segment = id ∧ c.start = start) := by
  induction list generalizing cache with
  | nil => simp
  | cons c rest ih =>
      rw [List.foldl_cons, ih, get?_drop_iff, List.forall_mem_cons, and_assoc]

theorem evictions_foldl_drop (list : List Candidate) (cache : Cache) :
    (list.foldl drop cache).evictions = cache.evictions + list.length := by
  induction list generalizing cache with
  | nil => rfl
  | cons c rest ih =>
      have hdrop : (cache.drop c).evictions = cache.evictions + 1 := rfl
      rw [List.foldl_cons, ih, hdrop, List.length_cons]
      omega

/-- An eviction takes the front of the queue, as far as it has to go. -/
theorem Counted.takes (h : cache.Counted) :
    ∃ queue count, Takes cache cache.evict queue count ∧
      (∀ fewer, fewer < count → cache.maxSize + weight (queue.take fewer) < cache.size) ∧
      (cache.evict.size ≤ cache.maxSize ∨ count = queue.length) := by
  have hqueued := queued_mergeSort cache
  rcases victims_eq_take (cache.size - cache.maxSize)
    (cache.candidates.mergeSort Candidate.before) with ⟨count, hcount, hvictims, hfewer, henough⟩
  let queue := cache.candidates.mergeSort Candidate.before
  have hevict : cache.evict = (queue.take count).foldl Cache.drop cache := by
    unfold Cache.evict
    rw [hvictims]
  have hpresent : ∀ c ∈ queue.take count, cache.Present c := by
    intro c hc
    exact present_of_mem_candidates (List.mem_mergeSort.mp (List.mem_of_mem_take hc))
  have hdiffer : (queue.take count).Pairwise Candidate.Differs :=
    cache.queue_differ.sublist (List.take_sublist count queue)
  rcases h.foldl_drop hpresent hdiffer with ⟨hafter, hsize, -⟩
  rw [← hevict] at hafter hsize
  have hsize : cache.evict.size + weight (queue.take count) = cache.size := hsize
  exists queue, count
  refine ⟨?_, ?_, ?_⟩
  · constructor
    · exact hqueued
    · exact hcount
    · intro id start block
      rw [hevict]
      exact get?_foldl_drop_iff _
    · exact mark_evict cache
    · exact hsize
    · exact hafter.size_eq
    · exact maxSize_evict cache
    · rw [hevict, evictions_foldl_drop, List.length_take_of_le hcount]
  · intro fewer hlt
    have hless := hfewer fewer hlt
    have hweight : weight (queue.take fewer) < cache.size - cache.maxSize := hless
    omega
  · rcases henough with hle | hall
    · left
      have hle : cache.size - cache.maxSize ≤ weight (queue.take count) := hle
      omega
    · exact Or.inr hall

/--
What is left is within the bound or cannot be evicted; what is gone is the shortest front
of the queue that brings the cache within its bound, or the whole queue; and nothing that
ends behind its mark is gone.
-/
structure EvictsOldest (before after : Cache) : Prop where
  settled : after.size ≤ after.maxSize ∨ ∀ id start block,
    (after.blocksOf id).blocks.get? start = some block →
      after.mark id < start + block.data.length
  oldest : ∃ queue count, Takes before after queue count ∧
    (∀ fewer, fewer < count → before.maxSize + weight (queue.take fewer) < before.size) ∧
    (after.size ≤ before.maxSize ∨ count = queue.length)
  pinned : ∀ id start block, (before.blocksOf id).blocks.get? start = some block →
    before.mark id < start + block.data.length →
      (after.blocksOf id).blocks.get? start = some block

theorem Takes.pinned (h : Takes before after queue count)
    (hblock : (before.blocksOf id).blocks.get? start = some block)
    (hbehind : before.mark id < start + block.data.length) :
    (after.blocksOf id).blocks.get? start = some block := by
  apply (h.blocks_iff id start block).mpr
  constructor
  · exact hblock
  · intro c hc hplace
    rcases hplace with ⟨rfl, rfl⟩
    rcases (h.queued.mem_iff c).mp (List.mem_of_mem_take hc) with ⟨hle, found, hfound, -, hlength⟩
    cases Option.some.inj (hfound.symm.trans hblock)
    omega

theorem Counted.evictsOldest (h : cache.Counted) : EvictsOldest cache cache.evict where
  settled := by
    rcases Nat.lt_or_ge cache.evict.maxSize cache.evict.size with hover | hwithin
    · right
      intro id start block hblock
      exact h.evict.tight hover hblock
    · exact Or.inl hwithin
  oldest := h.takes
  pinned := by
    intro id start block hblock hbehind
    rcases h.takes with ⟨queue, count, htakes, -⟩
    exact htakes.pinned hblock hbehind

/-!
## The calls that evict
-/

theorem put_of_lt (h : cache.size < (cache.filled segment offset data).size) :
    cache.put segment offset data = (cache.filled segment offset data).evict := by
  have hsize : (cache.filled segment offset data).size =
      cache.size + ((cache.blocksOf segment).fill offset data cache.clock).2 := rfl
  have hadded := SegmentBlocks.fill_le (cache.blocksOf segment) offset data cache.clock
  have hdata : data ≠ [] := by
    intro hempty
    rw [hempty] at hadded hsize h
    rw [List.length_nil] at hadded
    omega
  rw [put_of_ne_nil hdata, if_neg (Nat.ne_of_gt h)]

theorem Counted.blocksOf_put (h : cache.Counted)
    (hnone : (cache.filled segment offset data).size ≤ cache.size) (id : SegmentId) :
    (cache.put segment offset data).blocksOf id = cache.blocksOf id := by
  have hsize : (cache.filled segment offset data).size =
      cache.size + ((cache.blocksOf segment).fill offset data cache.clock).2 := rfl
  have hadded : ((cache.blocksOf segment).fill offset data cache.clock).2 = 0 := by omega
  have hfilled : (cache.filled segment offset data).blocksOf id = cache.blocksOf id := by
    rw [blocksOf_filled]
    by_cases hid : id = segment
    · rw [if_pos hid, hid, (h.apart segment).fill_eq_self hadded]
    · rw [if_neg hid]
  by_cases hdata : data = []
  · rw [hdata]
    rfl
  · rw [put_of_ne_nil hdata, if_pos (by omega)]
    exact hfilled

inductive Reachable : Cache → Prop
  | fresh (maxSize : Nat) : Reachable { maxSize }
  | put {cache : Cache} (h : Reachable cache) (segment : SegmentId) (offset : Nat) (data : Bytes) :
      Reachable (cache.put segment offset data)
  | get {cache : Cache} (h : Reachable cache) (segment : SegmentId) (offset count : Nat) :
      Reachable (cache.get segment offset count).2
  | markFlushed {cache : Cache} (h : Reachable cache) (segment : SegmentId) (offset : Nat) :
      Reachable (cache.markFlushed segment offset)
  | removeSegment {cache : Cache} (h : Reachable cache) (segment : SegmentId) :
      Reachable (cache.removeSegment segment)
  | truncateBefore {cache : Cache} (h : Reachable cache) (segment : SegmentId) (offset : Nat) :
      Reachable (cache.truncateBefore segment offset)
  | moveSegment {cache : Cache} (h : Reachable cache) (source target : SegmentId) (base : Nat) :
      Reachable (cache.moveSegment source target base)

theorem Reachable.counted (h : cache.Reachable) : cache.Counted := by
  induction h with
  | fresh maxSize => exact (orderly_empty maxSize).toCounted
  | put _ segment offset data ih => exact CacheCall.counted_run ih (.put segment offset data)
  | get _ segment offset count ih => exact CacheCall.counted_run ih (.get segment offset count)
  | markFlushed _ segment offset ih => exact (ih.markFlushed segment offset).toCounted
  | removeSegment _ segment ih => exact ih.removeSegment segment
  | truncateBefore _ segment offset ih => exact ih.truncateBefore segment offset
  | moveSegment _ source target base ih => exact ih.moveSegment source target base

/--
At any time the least recently used blocks go first.  A call that adds bytes, and a call
that moves a mark, evict from the blocks as they are then, new ones among them: the
shortest front of the queue of flushed blocks that brings the cache within its bound, or
the whole queue.  A call that has nothing to add evicts nothing.
-/
theorem Reachable.evicts_oldest (h : cache.Reachable) :
    (∀ segment offset data,
      Adds cache segment offset data (cache.filled segment offset data) ∧
      (cache.size < (cache.filled segment offset data).size →
        EvictsOldest (cache.filled segment offset data) (cache.put segment offset data)) ∧
      ((cache.filled segment offset data).size ≤ cache.size →
        ∀ id, (cache.put segment offset data).blocksOf id = cache.blocksOf id)) ∧
    (∀ segment offset,
      Marks cache segment offset (cache.marked segment offset) ∧
      EvictsOldest (cache.marked segment offset) (cache.markFlushed segment offset)) := by
  have hcounted := h.counted
  constructor
  · intro segment offset data
    refine ⟨hcounted.adds segment offset data, fun hless => ?_, hcounted.blocksOf_put⟩
    rw [put_of_lt hless]
    exact (hcounted.filled segment offset data).evictsOldest
  · intro segment offset
    constructor
    · exact marks_marked cache segment offset
    · exact (hcounted.marked segment offset).evictsOldest

/-- Three blocks over a bound of five bytes, of which the first was looked up last. -/
private def lookedUp : Cache :=
  (((({ maxSize := 5 } : Cache).put 1 0 [1, 2]).put 1 2 [3, 4]).put 2 0 [5, 6]).get 1 0 1 |>.2

private theorem lookedUp_reachable : lookedUp.Reachable :=
  .get (.put (.put (.put (.fresh 5) 1 0 [1, 2]) 1 2 [3, 4]) 2 0 [5, 6]) 1 0 1

/--
When both blocks of the first segment are flushed, the one that was not looked up goes.
When its bytes are added again, the other one does.
-/
theorem Reachable.evicts_oldest_lookedUp :
    lookedUp.Reachable ∧
      EvictsOldest (lookedUp.marked 1 4) (lookedUp.markFlushed 1 4) ∧
      ((lookedUp.markFlushed 1 4).blocksOf 1).blocks.keys = [0] ∧
      EvictsOldest ((lookedUp.markFlushed 1 4).filled 1 2 [3, 4])
        ((lookedUp.markFlushed 1 4).put 1 2 [3, 4]) ∧
      (((lookedUp.markFlushed 1 4).put 1 2 [3, 4]).blocksOf 1).blocks.keys = [2] := by
  have hmarked := (lookedUp_reachable.evicts_oldest.2 1 4).2
  have hadded : (lookedUp.markFlushed 1 4).size <
      ((lookedUp.markFlushed 1 4).filled 1 2 [3, 4]).size := by cbv
  have hput := ((lookedUp_reachable.markFlushed 1 4).evicts_oldest.1 1 2 [3, 4]).2.1 hadded
  refine ⟨lookedUp_reachable, hmarked, ?_, hput, ?_⟩
  · cbv
  · cbv

end Cache
end TieredStore
