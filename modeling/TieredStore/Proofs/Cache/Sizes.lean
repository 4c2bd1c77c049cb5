import TieredStore.Proofs.Cache.Pieces
import TieredStore.Proofs.Map.Totals

/-!
# The size of the cache

The cache counts the bytes of its blocks as it adds and drops them.  Its count is
right as long as blocks do not overlap: what a filling adds are the gaps, and a
block that is dropped is one that is there.

An eviction stops as soon as the bound is met.  If it is not met, all blocks that
end at or below their marks are gone.  The calls that make the cache larger or
move a mark evict, and the others leave no more blocks to be evicted than there
were, so this holds at any time.
-/

namespace TieredStore
namespace SegmentBlocks

variable {b : SegmentBlocks} {offset stamp base : Nat} {data : Bytes}

/-! ## The blocks of one segment -/

theorem total_gaps_le (entries : List (Nat × Block)) (cursor : Nat) (data : Bytes) :
    total ((gaps entries cursor data).map (·.2.length)) ≤ data.length := by
  fun_induction gaps entries cursor data with
  | case1 cursor data hempty => exact Nat.zero_le _
  | case2 cursor data hempty => exact Nat.le_refl _
  | case3 start block rest cursor data hempty => exact Nat.zero_le _
  | case4 start block rest cursor data stop hempty hpassed ih => exact ih
  | case5 start block rest cursor data stop hempty hreach hat ih =>
      rw [List.length_drop] at ih
      exact Nat.le_trans ih (Nat.sub_le _ _)
  | case6 start block rest cursor data stop hempty hreach hbefore ih =>
      have hstop : start ≤ stop := Nat.le_add_right _ _
      rw [List.length_drop] at ih
      rw [List.map_cons, total_cons, List.length_take]
      omega

theorem total_foldl_insert {gaps : List (Nat × Bytes)} {blocks : SortedMap Nat Block}
    (hnew : ∀ gap ∈ gaps, blocks.get? gap.1 = none)
    (hnodup : gaps.Pairwise (fun a b => a.1 ≠ b.1)) :
    total ((gaps.foldl (fun blocks gap =>
        blocks.insert gap.1 { data := gap.2, lastAccess := stamp }) blocks).values.map
          (·.data.length)) =
      total (blocks.values.map (·.data.length)) + total (gaps.map (·.2.length)) := by
  induction gaps generalizing blocks with
  | nil => rfl
  | cons gap rest ih =>
      rcases List.pairwise_cons.mp hnodup with ⟨hfirst, hrest⟩
      have htotal := blocks.total_insert gap.1 { data := gap.2, lastAccess := stamp }
        (·.data.length)
      rw [SortedMap.weightAt_of_none (hnew gap List.mem_cons_self), Nat.add_zero] at htotal
      rw [List.foldl_cons, ih ?_ hrest, htotal, List.map_cons, total_cons, Nat.add_assoc]
      intro other hother
      rw [SortedMap.get?_insert_of_ne _ (hfirst other hother).symm]
      exact hnew other (List.mem_cons_of_mem _ hother)

theorem Apart.size_fill (h : b.Apart) :
    (b.fill offset data stamp).1.size = b.size + (b.fill offset data stamp).2 :=
  total_foldl_insert (fun _ hgap => h.get?_gap hgap) h.gaps_nodup

theorem fill_le (b : SegmentBlocks) (offset : Nat) (data : Bytes) (stamp : Nat) :
    (b.fill offset data stamp).2 ≤ data.length := total_gaps_le _ _ _

theorem Apart.fill_eq_self (h : b.Apart) (hnone : (b.fill offset data stamp).2 = 0) :
    (b.fill offset data stamp).1 = b := by
  have hgaps : gaps b.blocks.entries offset data = [] := by
    refine List.eq_nil_iff_forall_not_mem.mpr fun gap hgap => ?_
    have hpos := (isGap_of_mem_gaps h.inRow gap hgap).nonempty
    have hle : gap.2.length ≤ (b.fill offset data stamp).2 :=
      le_total_of_mem (List.mem_map.mpr ⟨gap, hgap, rfl⟩)
    omega
  rw [fill_eq, hgaps]
  rfl

theorem size_erase {start : Nat} {block : Block} (h : b.blocks.get? start = some block) :
    size { b with blocks := b.blocks.erase start } + block.data.length = b.size := by
  have htotal := b.blocks.total_erase start (·.data.length)
  rw [SortedMap.weightAt_of_get? h] at htotal
  exact htotal

theorem size_touch {start : Nat} {block : Block} (h : b.blocks.get? start = some block)
    (stamp : Nat) :
    size { b with blocks := b.blocks.insert start { block with lastAccess := stamp } } =
      b.size := by
  have htotal := b.blocks.total_insert start { block with lastAccess := stamp } (·.data.length)
  rw [SortedMap.weightAt_of_get? h] at htotal
  exact Nat.add_right_cancel htotal

theorem size_filter_le (b : SegmentBlocks) (keep : Nat → Block → Bool) :
    size { b with blocks := b.blocks.filter keep } ≤ b.size := by
  unfold size SortedMap.values
  rw [List.map_map, List.map_map]
  exact total_map_filter_le _ _ _

end SegmentBlocks

open SegmentBlocks

namespace Cache

variable {cache after : Cache} {segment id : SegmentId} {offset count : Nat} {data : Bytes}

/-! ## What is counted -/

def held (cache : Cache) : Nat := total (cache.segments.values.map SegmentBlocks.size)

/-- Blocks do not overlap, and their bytes are counted. -/
structure Counted (cache : Cache) : Prop where
  apart : ∀ id, (cache.blocksOf id).Apart
  size_eq : cache.size = cache.held

/-- While the cache is over its bound, every block ends behind its segment's mark. -/
structure Orderly (cache : Cache) : Prop extends Counted cache where
  tight : cache.maxSize < cache.size → ∀ {id start block},
    (cache.blocksOf id).blocks.get? start = some block →
      cache.mark id < start + block.data.length

theorem orderly_empty (maxSize : Nat) : Orderly { maxSize } where
  apart := fun _ => apart_empty
  size_eq := rfl
  tight := fun hover => absurd hover (Nat.not_lt_zero _)

theorem size_blocksOf (cache : Cache) (segment : SegmentId) :
    (cache.blocksOf segment).size = cache.segments.weightAt segment SegmentBlocks.size := by
  unfold blocksOf SortedMap.weightAt
  cases cache.segments.get? segment with
  | none => rfl
  | some b => rfl

theorem held_of_others
    (h : ∀ id, id ≠ segment → after.segments.get? id = cache.segments.get? id) :
    after.held + (cache.blocksOf segment).size = cache.held + (after.blocksOf segment).size := by
  have hrest : after.segments.erase segment = cache.segments.erase segment := by
    refine SortedMap.eq_of_get? fun id => ?_
    by_cases hid : id = segment
    · rw [hid, SortedMap.get?_erase_self, SortedMap.get?_erase_self]
    · rw [SortedMap.get?_erase_of_ne _ hid, SortedMap.get?_erase_of_ne _ hid, h id hid]
  have hafter := after.segments.total_erase segment SegmentBlocks.size
  have hcache := cache.segments.total_erase segment SegmentBlocks.size
  rw [hrest] at hafter
  rw [size_blocksOf, size_blocksOf]
  unfold held
  omega

theorem maxSize_foldl_drop (list : List Candidate) (cache : Cache) :
    (list.foldl drop cache).maxSize = cache.maxSize := by
  induction list generalizing cache with
  | nil => rfl
  | cons c rest ih => exact ih (cache.drop c)

@[simp] theorem maxSize_evict (cache : Cache) : cache.evict.maxSize = cache.maxSize :=
  maxSize_foldl_drop _ _

theorem blocksOf_of_modify_self (cache after : Cache) {change : SegmentBlocks → SegmentBlocks}
    (h : after.segments = cache.segments.modify segment change)
    (hempty : cache.blocksOf segment = {} → change {} = {}) :
    after.blocksOf segment = change (cache.blocksOf segment) := by
  cases hget : cache.segments.get? segment with
  | none =>
      have hnone : cache.blocksOf segment = {} := by
        unfold blocksOf
        rw [hget]
        rfl
      rw [hnone, hempty hnone]
      unfold blocksOf
      rw [h, SortedMap.get?_modify_self, hget]
      rfl
  | some b =>
      unfold blocksOf
      rw [h, SortedMap.get?_modify_self, hget]
      rfl

/-! ## Eviction -/

def Present (cache : Cache) (c : Candidate) : Prop :=
  ∃ block, (cache.blocksOf c.segment).blocks.get? c.start = some block ∧
    block.data.length = c.length

def Candidate.Differs (a b : Candidate) : Prop := a.segment = b.segment → a.start ≠ b.start

theorem Candidate.Differs.symm {a b : Candidate} (h : a.Differs b) : b.Differs a :=
  fun hsegment hstart => h hsegment.symm hstart.symm

theorem blocksOf_drop (cache : Cache) (c : Candidate) :
    (cache.drop c).blocksOf c.segment =
      { blocks := (cache.blocksOf c.segment).blocks.erase c.start
        flushed := (cache.blocksOf c.segment).flushed } :=
  blocksOf_of_modify_self cache (cache.drop c) rfl fun _ => rfl

theorem blocksOf_drop_of_ne (c : Candidate) (hid : id ≠ c.segment) :
    (cache.drop c).blocksOf id = cache.blocksOf id :=
  blocksOf_of_modify_of_ne cache (cache.drop c) rfl hid

theorem get?_drop_of_differs {c other : Candidate} (h : c.Differs other) :
    ((cache.drop c).blocksOf other.segment).blocks.get? other.start =
      (cache.blocksOf other.segment).blocks.get? other.start := by
  by_cases hsegment : other.segment = c.segment
  · rw [hsegment, blocksOf_drop]
    exact SortedMap.get?_erase_of_ne _ (h hsegment.symm).symm
  · rw [blocksOf_drop_of_ne c hsegment]

theorem get?_of_drop {c : Candidate} {start : Nat} {block : Block}
    (h : ((cache.drop c).blocksOf id).blocks.get? start = some block) :
    (cache.blocksOf id).blocks.get? start = some block := by
  by_cases hid : id = c.segment
  · rw [hid, blocksOf_drop] at h
    replace h : ((cache.blocksOf c.segment).blocks.erase c.start).get? start = some block := h
    by_cases hstart : start = c.start
    · rw [hstart, SortedMap.get?_erase_self] at h
      cases h
    · rw [SortedMap.get?_erase_of_ne _ hstart] at h
      rw [hid]
      exact h
  · rw [blocksOf_drop_of_ne c hid] at h
    exact h

theorem get?_of_foldl_drop {list : List Candidate} {start : Nat} {block : Block}
    (h : ((list.foldl drop cache).blocksOf id).blocks.get? start = some block) :
    (cache.blocksOf id).blocks.get? start = some block := by
  induction list generalizing cache with
  | nil => exact h
  | cons c rest ih => exact get?_of_drop (ih h)

theorem Counted.drop (h : cache.Counted) {c : Candidate} (hc : cache.Present c) :
    (cache.drop c).Counted ∧ (cache.drop c).size + c.length = cache.size := by
  rcases hc with ⟨block, hblock, hlength⟩
  have hheld : (cache.drop c).held + (cache.blocksOf c.segment).size =
      cache.held + ((cache.drop c).blocksOf c.segment).size :=
    held_of_others fun id hid => SortedMap.get?_modify_of_ne _ hid _
  have herase := size_erase hblock
  rw [blocksOf_drop] at hheld
  have hsize : (cache.drop c).size = cache.size - c.length := rfl
  have hcount := h.size_eq
  refine ⟨⟨?_, ?_⟩, ?_⟩
  · intro id
    exact
      { nonempty := fun hget => (h.apart id).nonempty (get?_of_drop hget)
        apart := fun hx hy => (h.apart id).apart (get?_of_drop hx) (get?_of_drop hy) }
  · omega
  · omega

def weight (queue : List Candidate) : Nat := total (queue.map (·.length))

theorem weight_cons (c : Candidate) (queue : List Candidate) :
    weight (c :: queue) = c.length + weight queue := by
  unfold weight
  rw [List.map_cons, total_cons]

theorem Counted.foldl_drop {list : List Candidate} (h : cache.Counted)
    (hpresent : ∀ c ∈ list, cache.Present c) (hdiffer : list.Pairwise Candidate.Differs) :
    (list.foldl Cache.drop cache).Counted ∧
      (list.foldl Cache.drop cache).size + weight list = cache.size ∧
      ∀ c ∈ list, ((list.foldl Cache.drop cache).blocksOf c.segment).blocks.get? c.start = none := by
  induction list generalizing cache with
  | nil => exact ⟨h, rfl, fun _ hc => nomatch hc⟩
  | cons c rest ih =>
      rcases List.pairwise_cons.mp hdiffer with ⟨hfirst, hrest⟩
      rcases h.drop (hpresent c List.mem_cons_self) with ⟨hcounted, hsize⟩
      have hleft : ∀ other ∈ rest, (cache.drop c).Present other := by
        intro other hother
        rcases hpresent other (List.mem_cons_of_mem _ hother) with ⟨block, hblock, hlength⟩
        exact ⟨block, (get?_drop_of_differs (hfirst other hother)).trans hblock, hlength⟩
      rcases ih hcounted hleft hrest with ⟨hafter, htotal, hgone⟩
      refine ⟨hafter, ?_, ?_⟩
      · rw [weight_cons, List.foldl_cons]
        omega
      · intro other hother
        rcases List.mem_cons.mp hother with hself | hmem
        · rw [hself]
          cases hget : ((rest.foldl Cache.drop (cache.drop c)).blocksOf c.segment).blocks.get?
              c.start with
          | none => exact hget
          | some block =>
              have hbefore := get?_of_foldl_drop hget
              rw [blocksOf_drop] at hbefore
              exact absurd ((SortedMap.get?_erase_self _ _).symm.trans hbefore) nofun
        · exact hgone other hmem

theorem present_of_mem_candidates {c : Candidate} (h : c ∈ cache.candidates) :
    cache.Present c := by
  rcases flushed_of_mem_candidates h with ⟨-, block, hblock, -, hlength⟩
  exact ⟨block, hblock, hlength⟩

theorem mem_candidates {start : Nat} {block : Block}
    (hblock : (cache.blocksOf id).blocks.get? start = some block)
    (hbelow : start + block.data.length ≤ cache.mark id) :
    { lastAccess := block.lastAccess, segment := id, start, length := block.data.length } ∈
      cache.candidates := by
  cases hget : cache.segments.get? id with
  | none =>
      unfold blocksOf at hblock
      rw [hget] at hblock
      cases hblock
  | some b =>
      unfold mark at hbelow
      rw [blocksOf_of_get? hget] at hblock hbelow
      refine List.mem_flatMap.mpr ⟨(id, b), SortedMap.get?_eq_some_iff.mp hget, ?_⟩
      refine List.mem_filterMap.mpr ⟨(start, block), SortedMap.get?_eq_some_iff.mp hblock, ?_⟩
      exact if_pos hbelow

theorem of_mem_candidates {b : SegmentBlocks} {c : Candidate}
    (h : c ∈ b.blocks.entries.filterMap fun (start, block) =>
      if start + block.data.length ≤ b.flushed then
        some { lastAccess := block.lastAccess, segment, start, length := block.data.length }
      else none) :
    c.segment = segment := by
  rcases List.mem_filterMap.mp h with ⟨⟨start, block⟩, -, hsome⟩
  simp only at hsome
  split at hsome
  · cases hsome
    rfl
  · cases hsome

theorem candidates_differ (cache : Cache) : cache.candidates.Pairwise Candidate.Differs := by
  unfold candidates
  refine List.pairwise_flatMap.mpr ⟨?_, ?_⟩
  · -- blocks of one segment start at different places
    intro entry _
    rw [List.pairwise_filterMap]
    refine entry.2.blocks.ascending.imp ?_
    rintro ⟨s, x⟩ ⟨t, y⟩ hlt a ha b hb _ hstart
    simp only [Option.ite_none_right_eq_some, Option.some.injEq] at ha hb
    rw [← ha.2, ← hb.2] at hstart
    exact Nat.ne_of_lt hlt hstart
  · refine cache.segments.ascending.imp ?_
    intro x y hlt a ha b hb hsegment
    rw [of_mem_candidates ha, of_mem_candidates hb] at hsegment
    rw [hsegment] at hlt
    exact absurd hlt (Nat.lt_irrefl _)

theorem queue_differ (cache : Cache) :
    (cache.candidates.mergeSort Candidate.before).Pairwise Candidate.Differs :=
  (List.Perm.pairwise_iff Candidate.Differs.symm
    (List.mergeSort_perm cache.candidates Candidate.before)).mpr cache.candidates_differ

/-- The victims are the shortest front of a list that has enough bytes, or all of it. -/
theorem victims_eq_take (excess : Nat) (queue : List Candidate) :
    ∃ count, count ≤ queue.length ∧ victims excess queue = queue.take count ∧
      (∀ fewer, fewer < count → weight (queue.take fewer) < excess) ∧
      (excess ≤ weight (queue.take count) ∨ count = queue.length) := by
  induction queue generalizing excess with
  | nil =>
      refine ⟨0, Nat.le_refl 0, rfl, ?_, Or.inr rfl⟩
      intro fewer hfewer
      cases hfewer
  | cons c rest ih =>
      by_cases hnone : excess = 0
      · refine ⟨0, Nat.zero_le _, ?_, ?_, Or.inl (Nat.le_of_eq hnone)⟩
        · unfold victims
          rw [if_pos hnone]
          rfl
        · intro fewer hfewer
          cases hfewer
      · rcases ih (excess - c.length) with ⟨count, hcount, hvictims, hfewer, henough⟩
        refine ⟨count + 1, Nat.succ_le_succ hcount, ?_, ?_, ?_⟩
        · unfold victims
          rw [if_neg hnone, hvictims, List.take_succ_cons]
        · intro fewer hlt
          cases fewer with
          | zero => exact Nat.pos_of_ne_zero hnone
          | succ fewer =>
              have hrest := hfewer fewer (Nat.lt_of_succ_lt_succ hlt)
              rw [List.take_succ_cons, weight_cons]
              omega
        · rw [List.take_succ_cons, weight_cons, List.length_cons]
          rcases henough with hle | hall
          · left
            omega
          · right
            rw [hall]

theorem victims_sublist (excess : Nat) (list : List Candidate) :
    (victims excess list).Sublist list := by
  rcases victims_eq_take excess list with ⟨count, -, hvictims, -⟩
  rw [hvictims]
  exact List.take_sublist count list

theorem victims_eq_or_le (excess : Nat) (list : List Candidate) :
    victims excess list = list ∨ excess ≤ weight (victims excess list) := by
  rcases victims_eq_take excess list with ⟨count, -, hvictims, -, henough | hall⟩
  · rw [hvictims]
    exact Or.inr henough
  · left
    rw [hvictims, hall, List.take_length]

/-- After an eviction the cache is within its bound or nothing more can be evicted. -/
theorem Counted.evict (h : cache.Counted) : cache.evict.Orderly := by
  have hmem : ∀ {c}, c ∈ victims (cache.size - cache.maxSize)
      (cache.candidates.mergeSort Candidate.before) → c ∈ cache.candidates :=
    fun hc => List.mem_mergeSort.mp (mem_of_mem_victims hc)
  rcases h.foldl_drop (fun c hc => present_of_mem_candidates (hmem hc))
    (cache.queue_differ.sublist (victims_sublist (cache.size - cache.maxSize) _)) with
      ⟨hafter, htotal, hgone⟩
  refine { hafter with tight := ?_ }
  intro hover id start block hblock
  have hover : cache.maxSize < cache.evict.size := by
    rw [maxSize_evict] at hover
    exact hover
  -- an eviction that does not get below the bound has taken every candidate
  have hall : victims (cache.size - cache.maxSize)
      (cache.candidates.mergeSort Candidate.before) = cache.candidates.mergeSort Candidate.before := by
    rcases victims_eq_or_le (cache.size - cache.maxSize)
      (cache.candidates.mergeSort Candidate.before) with hall | henough
    · exact hall
    · unfold Cache.evict at hover
      omega
  refine Nat.not_le.mp fun hbelow => ?_
  rw [mark_evict] at hbelow
  have hcandidate := mem_candidates (get?_of_foldl_drop hblock) hbelow
  have hnone := hgone _ (by rw [hall]; exact List.mem_mergeSort.mpr hcandidate)
  exact absurd (hnone.symm.trans hblock) nofun

/-! ## The calls -/

theorem Counted.filled (h : cache.Counted) (segment : SegmentId) (offset : Nat) (data : Bytes) :
    (cache.filled segment offset data).Counted where
  apart := by
    intro id
    rw [blocksOf_filled]
    by_cases hid : id = segment
    · rw [if_pos hid]
      exact (h.apart segment).fill
    · rw [if_neg hid]
      exact h.apart id
  size_eq := by
    have hheld : (cache.filled segment offset data).held + (cache.blocksOf segment).size =
        cache.held + ((cache.filled segment offset data).blocksOf segment).size :=
      held_of_others fun id hid => SortedMap.get?_insert_of_ne _ hid _
    have hsize : (cache.filled segment offset data).size =
        cache.size + ((cache.blocksOf segment).fill offset data cache.clock).2 := rfl
    have hcount := h.size_eq
    rw [blocksOf_filled, if_pos rfl, (h.apart segment).size_fill] at hheld
    omega

theorem Orderly.filled (h : cache.Orderly)
    (hnone : ((cache.blocksOf segment).fill offset data cache.clock).2 = 0) :
    (cache.filled segment offset data).Orderly := by
  have hsame : ∀ id, (cache.filled segment offset data).blocksOf id = cache.blocksOf id := by
    intro id
    rw [blocksOf_filled]
    by_cases hid : id = segment
    · rw [if_pos hid, hid, (h.apart segment).fill_eq_self hnone]
    · rw [if_neg hid]
  refine { h.toCounted.filled segment offset data with tight := ?_ }
  intro hover id start block hblock
  have hsize : (cache.filled segment offset data).size =
      cache.size + ((cache.blocksOf segment).fill offset data cache.clock).2 := rfl
  rw [hsize, hnone] at hover
  rw [hsame] at hblock
  rw [mark_filled]
  exact h.tight hover hblock

/-- What is added makes the cache evict, unless all of it was there already. -/
theorem Orderly.put (h : cache.Orderly) (segment : SegmentId) (offset : Nat) (data : Bytes) :
    (cache.put segment offset data).Orderly := by
  unfold Cache.put
  split
  · exact h
  · simp only
    split
    · rename_i hnone
      exact h.filled hnone
    · exact (h.toCounted.filled segment offset data).evict

@[simp] theorem maxSize_put : (cache.put segment offset data).maxSize = cache.maxSize := by
  rcases put_eq cache segment offset data with heq | heq | heq
  · rw [heq.1]
  · rw [heq]
    rfl
  · rw [heq, maxSize_evict]
    rfl

theorem maxSize_get : (cache.get segment offset count).2.maxSize = cache.maxSize := by
  unfold get
  cases (cache.blocksOf segment).blockAt? offset with
  | none => rfl
  | some found => rfl

theorem size_get : (cache.get segment offset count).2.size = cache.size := by
  unfold get
  cases (cache.blocksOf segment).blockAt? offset with
  | none => rfl
  | some found => rfl

theorem held_get : (cache.get segment offset count).2.held = cache.held := by
  unfold get
  cases hat : (cache.blocksOf segment).blockAt? offset with
  | none => rfl
  | some found =>
      rcases found with ⟨start, block⟩
      have hblock := (blockAt?_eq_some hat).1
      have hentry : ∃ b, cache.segments.get? segment = some b := by
        cases hget : cache.segments.get? segment with
        | some b => exact ⟨b, rfl⟩
        | none =>
            unfold blocksOf at hblock
            rw [hget] at hblock
            cases hblock
      rcases hentry with ⟨b, hb⟩
      rw [blocksOf_of_get? hb] at hblock
      have htotal := SortedMap.total_modify hb
        (fun b => { b with
          blocks := b.blocks.insert start { block with lastAccess := cache.clock } })
        SegmentBlocks.size
      rw [size_touch hblock] at htotal
      exact Nat.add_right_cancel htotal

theorem Orderly.get (h : cache.Orderly) (segment : SegmentId) (offset count : Nat) :
    (cache.get segment offset count).2.Orderly where
  apart := fun id => (thins_get cache segment offset count (fun _ => 0) id).apart (h.apart id)
  size_eq := by rw [size_get, held_get, h.size_eq]
  tight := by
    intro hover id start block hblock
    rw [maxSize_get, size_get] at hover
    rcases (thins_get cache segment offset count (fun _ => 0) id).sub hblock with
      ⟨old, hold, heq⟩
    rw [mark_get, ← heq]
    exact h.tight hover hold

theorem Counted.marked (h : cache.Counted) (segment : SegmentId) (offset : Nat) :
    (cache.marked segment offset).Counted where
  apart := by
    intro id
    exact
      { nonempty := fun hblock => (h.apart id).nonempty (by rwa [blocks_marked] at hblock)
        apart := fun hx hy => (h.apart id).apart (by rwa [blocks_marked] at hx)
          (by rwa [blocks_marked] at hy) }
  size_eq := by
    have hheld : (cache.marked segment offset).held + (cache.blocksOf segment).size =
        cache.held + ((cache.marked segment offset).blocksOf segment).size :=
      held_of_others fun id hid => SortedMap.get?_modify_of_ne _ hid _
    have hsize : ((cache.marked segment offset).blocksOf segment).size =
        (cache.blocksOf segment).size := by
      unfold SegmentBlocks.size
      rw [blocks_marked]
    have hcount : cache.size = cache.held := h.size_eq
    show cache.size = _
    omega

theorem Counted.markFlushed (h : cache.Counted) (segment : SegmentId) (offset : Nat) :
    (cache.markFlushed segment offset).Orderly := (h.marked segment offset).evict

@[simp] theorem maxSize_markFlushed :
    (cache.markFlushed segment offset).maxSize = cache.maxSize := maxSize_evict _

theorem blocksOf_truncateBefore_self :
    (cache.truncateBefore segment offset).blocksOf segment =
      { cache.blocksOf segment with
        blocks := (cache.blocksOf segment).blocks.filter fun start block =>
          offset < start + block.data.length } := by
  refine blocksOf_of_modify_self cache (cache.truncateBefore segment offset) rfl fun hnone => ?_
  rw [hnone]
  rfl

theorem Counted.truncateBefore (h : cache.Counted) (segment : SegmentId) (offset : Nat) :
    (cache.truncateBefore segment offset).Counted where
  apart := by
    have hthins : Thins (fun _ => offset) cache (cache.truncateBefore segment offset) :=
      thins_truncateBefore (Nat.le_refl _)
    exact fun id => (hthins id).apart (h.apart id)
  size_eq := by
    let keep : Nat → Block → Bool := fun start block => offset < start + block.data.length
    let kept : SegmentBlocks :=
      { cache.blocksOf segment with blocks := (cache.blocksOf segment).blocks.filter keep }
    have hsize : (cache.truncateBefore segment offset).size =
        cache.size - ((cache.blocksOf segment).size - kept.size) := rfl
    have hheld : (cache.truncateBefore segment offset).held + (cache.blocksOf segment).size =
        cache.held + ((cache.truncateBefore segment offset).blocksOf segment).size :=
      held_of_others fun id hid => SortedMap.get?_modify_of_ne _ hid _
    have hblocks : (cache.truncateBefore segment offset).blocksOf segment = kept :=
      blocksOf_truncateBefore_self
    have hle : kept.size ≤ (cache.blocksOf segment).size := size_filter_le _ keep
    have hcount := h.size_eq
    rw [hblocks] at hheld
    omega

theorem Orderly.truncateBefore (h : cache.Orderly) (segment : SegmentId) (offset : Nat) :
    (cache.truncateBefore segment offset).Orderly := by
  have hthins : Thins (fun _ => offset) cache (cache.truncateBefore segment offset) :=
    thins_truncateBefore (Nat.le_refl _)
  refine { h.toCounted.truncateBefore segment offset with tight := ?_ }
  intro hover id start block hblock
  have hover : cache.maxSize < cache.size := Nat.lt_of_lt_of_le hover (Nat.sub_le _ _)
  rcases (hthins id).sub hblock with ⟨old, hold, heq⟩
  rw [mark_truncateBefore, ← heq]
  exact h.tight hover hold

/-! ## Moving -/

section Moving

variable {source target : SegmentId} {base : Nat} {b : SegmentBlocks} {entries : List (Nat × Block)}

def pouredSize (base : Nat) (b : SegmentBlocks) : List (Nat × Block) → Nat
  | [] => 0
  | (start, block) :: rest =>
      let (b, more) := b.fill (base + start) block.data block.lastAccess
      more + pouredSize base b rest

theorem foldl_eq_pouredSize (base : Nat) (entries : List (Nat × Block)) (b : SegmentBlocks)
    (added : Nat) :
    (entries.foldl (fun (b, added) (start, block) =>
      let (b, more) := b.fill (base + start) block.data block.lastAccess
      (b, added + more)) (b, added)).2 = added + pouredSize base b entries := by
  induction entries generalizing b added with
  | nil => rfl
  | cons e rest ih =>
      rw [List.foldl_cons, pouredSize, ← Nat.add_assoc]
      exact ih _ _

theorem size_poured (h : b.Apart) :
    (poured base b entries).size = b.size + pouredSize base b entries := by
  induction entries generalizing b with
  | nil => rfl
  | cons e rest ih =>
      have hrest := ih (h.fill : (b.fill (base + e.1) e.2.data e.2.lastAccess).1.Apart)
      rw [h.size_fill, Nat.add_assoc] at hrest
      exact hrest

theorem pouredSize_le (base : Nat) (b : SegmentBlocks) (entries : List (Nat × Block)) :
    pouredSize base b entries ≤ total (entries.map (·.2.data.length)) := by
  induction entries generalizing b with
  | nil => exact Nat.le_refl _
  | cons e rest ih =>
      rw [pouredSize, List.map_cons, total_cons]
      exact Nat.add_le_add (fill_le b _ _ e.2.lastAccess) (ih _)

/-- The cache without the blocks of a segment, before they are no longer counted. -/
def without (cache : Cache) (segment : SegmentId) : Cache :=
  { cache with segments := cache.segments.erase segment }

theorem blocksOf_without (id : SegmentId) :
    (cache.without source).blocksOf id = if id = source then {} else cache.blocksOf id := by
  show ((cache.segments.erase source).get? id).getD {} = _
  rw [SortedMap.get?_erase]
  by_cases hid : id = source
  · rw [if_pos hid, if_pos hid]
    rfl
  · rw [if_neg hid, if_neg hid]
    rfl

theorem moveSegment_eq {moved : SegmentBlocks} (h : cache.segments.get? source = some moved) :
    cache.moveSegment source target base =
      { cache.without source with
        segments := (cache.without source).segments.insert target
          (poured base ((cache.without source).blocksOf target) moved.blocks.entries)
        size := cache.size - (moved.size -
          pouredSize base ((cache.without source).blocksOf target) moved.blocks.entries) } := by
  unfold moveSegment
  rw [h]
  simp only
  rw [foldl_eq_poured, foldl_eq_pouredSize, Nat.zero_add]
  rfl

theorem Counted.apart_without (h : cache.Counted) (id : SegmentId) :
    ((cache.without source).blocksOf id).Apart := by
  rw [blocksOf_without]
  split
  · exact apart_empty
  · exact h.apart id

theorem Counted.moveSegment (h : cache.Counted) (source target : SegmentId) (base : Nat) :
    (cache.moveSegment source target base).Counted := by
  cases hsource : cache.segments.get? source with
  | none =>
      unfold Cache.moveSegment
      rw [hsource]
      exact h
  | some moved =>
      rw [moveSegment_eq hsource]
      let rest := cache.without source
      let b := poured base (rest.blocksOf target) moved.blocks.entries
      let size := cache.size - (moved.size -
        pouredSize base (rest.blocksOf target) moved.blocks.entries)
      let next : Cache := { rest with segments := rest.segments.insert target b, size }
      have hnext : ∀ id, next.blocksOf id = if id = target then b else rest.blocksOf id :=
        blocksOf_of_insert rest next rfl
      show next.Counted
      refine ⟨?_, ?_⟩
      · intro id
        rw [hnext]
        split
        · exact apart_poured (h.apart_without target)
        · exact h.apart_without id
      · -- what the source had goes, and what the target gains comes, which is no more
        have hrest : rest.held + (cache.blocksOf source).size =
            cache.held + (rest.blocksOf source).size :=
          held_of_others fun id hid => SortedMap.get?_erase_of_ne _ hid
        have hheld : next.held + (rest.blocksOf target).size =
            rest.held + (next.blocksOf target).size :=
          held_of_others fun id hid => SortedMap.get?_insert_of_ne _ hid _
        have hpoured : b.size = (rest.blocksOf target).size +
            pouredSize base (rest.blocksOf target) moved.blocks.entries :=
          size_poured (h.apart_without target)
        have hmoved : moved.size = total (moved.blocks.entries.map (·.2.data.length)) := by
          unfold SegmentBlocks.size SortedMap.values
          rw [List.map_map]
          rfl
        have hle := pouredSize_le base (rest.blocksOf target) moved.blocks.entries
        have hempty : (rest.blocksOf source).size = 0 := by
          rw [blocksOf_without, if_pos rfl]
          rfl
        rw [blocksOf_of_get? hsource, hempty] at hrest
        rw [hnext, if_pos rfl] at hheld
        have hcount := h.size_eq
        show size = next.held
        simp only [size]
        omega

@[simp] theorem maxSize_moveSegment :
    (cache.moveSegment source target base).maxSize = cache.maxSize := by
  cases hsource : cache.segments.get? source with
  | none =>
      unfold moveSegment
      rw [hsource]
  | some moved =>
      rw [moveSegment_eq hsource]
      rfl

end Moving

end Cache
end TieredStore
