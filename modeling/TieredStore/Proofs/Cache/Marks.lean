import TieredStore.Proofs.Cache.Sizes

/-!
# The marks of the cache

The cache keeps a mark only for segments that it has an entry for, which is made
when it gets the first of their bytes.  For these a mark that is moved is where it
was moved to or further on; for others it stays where it was.
-/

namespace TieredStore
namespace Cache

variable {cache : Cache} {id segment source target : SegmentId} {offset base : Nat}

/-- The cache has an entry for the segment. -/
def Knows (cache : Cache) (id : SegmentId) : Prop := cache.segments.contains id = true

instance (cache : Cache) (id : SegmentId) : Decidable (cache.Knows id) :=
  inferInstanceAs (Decidable (_ = true))

theorem knows_iff : cache.Knows id ↔ ∃ b, cache.segments.get? id = some b :=
  SortedMap.contains_eq_true_iff

theorem blocksOf_of_not_knows (h : ¬ cache.Knows id) : cache.blocksOf id = {} := by
  cases hget : cache.segments.get? id with
  | none => exact blocksOf_of_get?_eq_none hget
  | some b => exact absurd (knows_iff.mpr ⟨b, hget⟩) h

theorem knows_of_covers (h : cache.Covers id offset) : cache.Knows id := by
  refine Decidable.by_contra fun hnot => ?_
  unfold Covers at h
  rw [blocksOf_of_not_knows hnot] at h
  rcases h with ⟨start, block, hblock, -⟩
  cases hblock

theorem knows_of_mark_pos (h : 0 < cache.mark id) : cache.Knows id := by
  refine Decidable.by_contra fun hnot => ?_
  unfold mark at h
  rw [blocksOf_of_not_knows hnot] at h
  exact Nat.lt_irrefl _ h

/-! ## Entries -/

theorem knows_of_modify {after : Cache} {change : SegmentBlocks → SegmentBlocks}
    (h : after.segments = cache.segments.modify segment change) (id : SegmentId) :
    after.Knows id ↔ cache.Knows id := by
  unfold Knows
  rw [h, SortedMap.contains_modify]

theorem knows_foldl_drop (list : List Candidate) (cache : Cache) (id : SegmentId) :
    (list.foldl drop cache).Knows id ↔ cache.Knows id := by
  induction list generalizing cache with
  | nil => exact Iff.rfl
  | cons c rest ih => exact (ih (cache.drop c)).trans (knows_of_modify rfl id)

theorem knows_markFlushed : (cache.markFlushed segment offset).Knows id ↔ cache.Knows id :=
  (knows_foldl_drop _ _ id).trans (knows_of_modify rfl id)

theorem knows_truncateBefore :
    (cache.truncateBefore segment offset).Knows id ↔ cache.Knows id :=
  knows_of_modify rfl id

/-! ## Marks -/

theorem le_mark_markFlushed :
    cache.mark id ≤ (cache.markFlushed segment offset).mark id := by
  by_cases hid : id = segment
  · rw [hid, markFlushed_eq, mark_evict]
    unfold mark
    rcases blocksOf_of_modify cache (cache.marked segment offset) rfl with heq | heq
    · exact Nat.le_of_eq (congrArg SegmentBlocks.flushed heq.symm)
    · rw [heq]
      exact Nat.le_max_left _ _
  · exact Nat.le_of_eq (mark_markFlushed_of_ne hid).symm

theorem le_mark_of_knows (h : cache.Knows segment) :
    offset ≤ (cache.markFlushed segment offset).mark segment := by
  -- without the entry there would be nothing to move, and an eviction moves no mark
  rcases knows_iff.mp h with ⟨b, hb⟩
  have hget : (cache.marked segment offset).segments.get? segment =
      some { b with flushed := max b.flushed offset } := by
    show (cache.segments.modify segment _).get? segment = _
    rw [SortedMap.get?_modify_self, hb]
    rfl
  rw [markFlushed_eq, mark_evict]
  unfold mark
  rw [blocksOf_of_get? hget]
  exact Nat.le_max_right _ _

theorem mark_markFlushed_of_knows (h : cache.Knows segment) :
    (cache.markFlushed segment offset).mark segment = max (cache.mark segment) offset :=
  Nat.le_antisymm mark_markFlushed_le
    (Nat.max_le.mpr ⟨le_mark_markFlushed, le_mark_of_knows h⟩)

theorem knows_moveSegment (h : cache.Knows source) :
    (cache.moveSegment source target base).Knows target := by
  rcases knows_iff.mp h with ⟨moved, hmoved⟩
  rw [moveSegment_eq hmoved]
  exact knows_iff.mpr ⟨_, SortedMap.get?_insert_self _ _ _⟩

end Cache
end TieredStore
