import TieredStore.Proofs.Cache.Blocks
import TieredStore.Proofs.Contents

/-!
# What the cache keeps

Every block of the cache is a piece of the content of its segment.  The calls of
the cache add such pieces, and they drop blocks only up to a bound of each
segment.  So a byte that is held at or behind the bound stays held.
-/

namespace TieredStore
namespace SegmentBlocks

def Agrees (b : SegmentBlocks) (bytes : Bytes) : Prop :=
  ∀ start block, b.blocks.get? start = some block →
    Bytes.slice bytes start block.data.length = block.data

/-- The second has blocks of the first, and all of those that reach beyond the bound. -/
structure Thins (bound : Nat) (b after : SegmentBlocks) : Prop where
  sub : ∀ {start block}, after.blocks.get? start = some block →
    ∃ old, b.blocks.get? start = some old ∧ old.data = block.data
  keeps : ∀ {start block}, b.blocks.get? start = some block → bound < start + block.data.length →
    ∃ new, after.blocks.get? start = some new ∧ new.data = block.data

variable {b after last : SegmentBlocks} {bound : Nat} {bytes : Bytes}

theorem agrees_empty (bytes : Bytes) : Agrees {} bytes := fun _ _ h => nomatch h

theorem apart_empty : Apart {} where
  nonempty := fun h => nomatch h
  apart := fun h => nomatch h

theorem Agrees.piece (h : b.Agrees bytes) {start offset count : Nat} {block : Block}
    (hblock : b.blocks.get? start = some block) (hle : start ≤ offset)
    (hcount : offset + count ≤ start + block.data.length) :
    Bytes.slice block.data (offset - start) count = Bytes.slice bytes offset count := by
  have hpiece := h start block hblock
  rw [← hpiece, Bytes.slice_slice (by omega)]
  congr 1
  omega

theorem Agrees.fill (h : b.Agrees bytes) (hapart : b.Apart) {offset stamp : Nat} {data : Bytes}
    (hdata : Bytes.slice bytes offset data.length = data) :
    (b.fill offset data stamp).1.Agrees bytes := by
  intro start block hblock
  rcases hapart.get?_fill hblock with hold | hnew
  · exact h start block hold
  · rcases hnew with ⟨gap, hgap, hstart, heq⟩
    subst hstart
    have hisGap := isGap_of_mem_gaps hapart.inRow gap hgap
    have hle := hisGap.le
    have hstop := hisGap.stop_le
    have hpiece := hisGap.piece
    rw [← hdata, Bytes.slice_slice (by omega), Nat.add_sub_of_le hle] at hpiece
    rw [heq]
    exact hpiece

namespace Thins

theorem refl (bound : Nat) (b : SegmentBlocks) : Thins bound b b where
  sub := fun h => ⟨_, h, rfl⟩
  keeps := fun h _ => ⟨_, h, rfl⟩

theorem trans (h : Thins bound b after) (hlast : Thins bound after last) : Thins bound b last where
  sub := by
    intro start block hblock
    rcases hlast.sub hblock with ⟨middle, hmiddle, heq⟩
    rcases h.sub hmiddle with ⟨old, hold, heq'⟩
    exact ⟨old, hold, heq'.trans heq⟩
  keeps := by
    intro start block hblock hbeyond
    rcases h.keeps hblock hbeyond with ⟨middle, hmiddle, heq⟩
    rw [← heq] at hbeyond
    rcases hlast.keeps hmiddle hbeyond with ⟨new, hnew, heq'⟩
    exact ⟨new, hnew, heq'.trans heq⟩

theorem mono (h : Thins bound b after) {bound' : Nat} (hle : bound ≤ bound') :
    Thins bound' b after :=
  { h with keeps := fun hblock hbeyond => h.keeps hblock (Nat.lt_of_le_of_lt hle hbeyond) }

theorem apart (h : Thins bound b after) (hb : b.Apart) : after.Apart where
  nonempty := by
    intro start block hblock
    rcases h.sub hblock with ⟨old, hold, heq⟩
    rw [← heq]
    exact hb.nonempty hold
  apart := by
    intro s t x y hx hy hlt
    rcases h.sub hx with ⟨x', hx', heq⟩
    rcases h.sub hy with ⟨y', hy', -⟩
    rw [← heq]
    exact hb.apart hx' hy' hlt

theorem agrees (h : Thins bound b after) (hb : b.Agrees bytes) : after.Agrees bytes := by
  intro start block hblock
  rcases h.sub hblock with ⟨old, hold, heq⟩
  rw [← heq]
  exact hb start old hold

theorem covers (h : Thins bound b after) {offset : Nat} (hb : b.Covers offset)
    (hle : bound ≤ offset) : after.Covers offset := by
  rcases hb with ⟨start, block, hblock, hstart, hstop⟩
  rcases h.keeps hblock (Nat.lt_of_le_of_lt hle hstop) with ⟨new, hnew, heq⟩
  exact ⟨start, new, hnew, hstart, by rw [heq]; exact hstop⟩

end Thins
end SegmentBlocks

open SegmentBlocks

namespace Cache

/-- Below this offset the cache takes a segment to be in the tier. -/
def mark (cache : Cache) (id : SegmentId) : Nat := (cache.blocksOf id).flushed

def Covers (cache : Cache) (id : SegmentId) (offset : Nat) : Prop :=
  (cache.blocksOf id).Covers offset

/-- Every block is a piece of the content of its segment. -/
structure Faithful (cache : Cache) (content : Contents) : Prop where
  apart : ∀ id, (cache.blocksOf id).Apart
  agrees : ∀ id, (cache.blocksOf id).Agrees (content id)

/-- The second cache has lost only blocks that end at or below the bounds of their segments. -/
def Thins (bound : SegmentId → Nat) (before after : Cache) : Prop :=
  ∀ id, (before.blocksOf id).Thins (bound id) (after.blocksOf id)

variable {cache after : Cache} {content : Contents} {bound : SegmentId → Nat} {id : SegmentId}

theorem faithful_empty (content : Contents) (maxSize : Nat) :
    Faithful { maxSize } content where
  apart := fun _ => apart_empty
  agrees := fun _ => agrees_empty _

theorem Faithful.grow (h : cache.Faithful content) {content' : Contents}
    (hgrow : ∀ id, content id <+: content' id) : cache.Faithful content' where
  apart := h.apart
  agrees := by
    intro id start block hblock
    have hpiece := h.agrees id start block hblock
    have hpos := (h.apart id).nonempty hblock
    have hin := Bytes.le_of_length_slice (congrArg List.length hpiece) hpos
    rw [← Bytes.slice_of_prefix (hgrow id) hin]
    exact hpiece

namespace Thins

theorem refl (bound : SegmentId → Nat) (cache : Cache) : Thins bound cache cache :=
  fun id => SegmentBlocks.Thins.refl (bound id) _

theorem trans (h : Thins bound cache after) {last : Cache} (hlast : Thins bound after last) :
    Thins bound cache last := fun id => (h id).trans (hlast id)

theorem mono (h : Thins bound cache after) {bound' : SegmentId → Nat}
    (hle : ∀ id, bound id ≤ bound' id) : Thins bound' cache after := fun id => (h id).mono (hle id)

theorem faithful (h : Thins bound cache after) (hcache : cache.Faithful content) :
    after.Faithful content where
  apart := fun id => (h id).apart (hcache.apart id)
  agrees := fun id => (h id).agrees (hcache.agrees id)

theorem covers (h : Thins bound cache after) {offset : Nat} (hcache : cache.Covers id offset)
    (hle : bound id ≤ offset) : after.Covers id offset := (h id).covers hcache hle

end Thins

/-!
## The blocks of a segment
-/

theorem blocksOf_of_insert (cache after : Cache) {segment : SegmentId} {b : SegmentBlocks}
    (h : after.segments = cache.segments.insert segment b) (id : SegmentId) :
    after.blocksOf id = if id = segment then b else cache.blocksOf id := by
  unfold blocksOf
  rw [h, SortedMap.get?_insert]
  by_cases heq : id = segment
  · rw [if_pos heq, if_pos heq]
    rfl
  · rw [if_neg heq, if_neg heq]

theorem blocksOf_of_modify (cache after : Cache) {segment : SegmentId}
    {change : SegmentBlocks → SegmentBlocks}
    (h : after.segments = cache.segments.modify segment change) :
    after.blocksOf segment = cache.blocksOf segment ∨
      after.blocksOf segment = change (cache.blocksOf segment) := by
  unfold blocksOf
  rw [h, SortedMap.get?_modify_self]
  cases cache.segments.get? segment with
  | none => exact Or.inl rfl
  | some b => exact Or.inr rfl

theorem blocksOf_of_modify_of_ne (cache after : Cache) {segment : SegmentId}
    {change : SegmentBlocks → SegmentBlocks}
    (h : after.segments = cache.segments.modify segment change) (hne : id ≠ segment) :
    after.blocksOf id = cache.blocksOf id := by
  unfold blocksOf
  rw [h, SortedMap.get?_modify_of_ne _ hne]

theorem blocksOf_of_get? {b : SegmentBlocks} (h : cache.segments.get? id = some b) :
    cache.blocksOf id = b := by
  unfold blocksOf
  rw [h]
  rfl

theorem blocksOf_of_get?_eq_none (h : cache.segments.get? id = none) : cache.blocksOf id = {} := by
  unfold blocksOf
  rw [h]
  rfl

/-!
## Eviction
-/

def Flushed (cache : Cache) (c : Candidate) : Prop :=
  c.start + c.length ≤ cache.mark c.segment ∧
    ∃ block, (cache.blocksOf c.segment).blocks.get? c.start = some block ∧
      block.lastAccess = c.lastAccess ∧ block.data.length = c.length

theorem flushed_of_mem_candidates {c : Candidate} (h : c ∈ cache.candidates) : cache.Flushed c := by
  unfold candidates at h
  rcases List.mem_flatMap.mp h with ⟨entry, hentry, hc⟩
  rcases List.mem_filterMap.mp hc with ⟨item, hitem, hsome⟩
  have hblocks : cache.blocksOf entry.1 = entry.2 :=
    blocksOf_of_get? (SortedMap.get?_eq_some_iff.mpr hentry)
  have hblock : entry.2.blocks.get? item.1 = some item.2 := SortedMap.get?_eq_some_iff.mpr hitem
  dsimp only at hsome
  split at hsome
  · rename_i hle
    cases hsome
    constructor
    · unfold mark
      rw [hblocks]
      exact hle
    · exists item.2
      rw [hblocks]
      exact ⟨hblock, rfl, rfl⟩
  · cases hsome

/-- A block that stands where the candidate does ends at or below the mark. -/
def Evictable (cache : Cache) (c : Candidate) : Prop :=
  ∀ block, (cache.blocksOf c.segment).blocks.get? c.start = some block →
    c.start + block.data.length ≤ cache.mark c.segment

theorem evictable_of_mem_candidates {c : Candidate} (h : c ∈ cache.candidates) :
    cache.Evictable c := by
  intro block hblock
  rcases flushed_of_mem_candidates h with ⟨hle, found, hfound, -, hlength⟩
  cases Option.some.inj (hfound.symm.trans hblock)
  rw [hlength]
  exact hle

@[simp] theorem mark_drop (cache : Cache) (c : Candidate) (id : SegmentId) :
    (cache.drop c).mark id = cache.mark id := by
  unfold mark
  by_cases hid : id = c.segment
  · subst hid
    have h : (cache.drop c).segments = cache.segments.modify c.segment fun b =>
      { b with blocks := b.blocks.erase c.start } := rfl
    rcases blocksOf_of_modify _ _ h with heq | heq
    · rw [heq]
    · rw [heq]
  · have h : (cache.drop c).segments = cache.segments.modify c.segment fun b =>
      { b with blocks := b.blocks.erase c.start } := rfl
    rw [blocksOf_of_modify_of_ne _ _ h hid]

theorem Evictable.thins {c : Candidate} (h : cache.Evictable c) :
    Thins cache.mark cache (cache.drop c) := by
  intro id
  have hdrop : (cache.drop c).segments = cache.segments.modify c.segment fun b =>
    { b with blocks := b.blocks.erase c.start } := rfl
  by_cases hid : id = c.segment
  · subst hid
    rcases blocksOf_of_modify _ _ hdrop with heq | heq
    · rw [heq]
      exact SegmentBlocks.Thins.refl _ _
    · rw [heq]
      constructor
      · intro start block hblock
        have hold : ((cache.blocksOf c.segment).blocks.erase c.start).get? start = some block :=
          hblock
        rw [SortedMap.get?_erase] at hold
        by_cases hstart : start = c.start
        · rw [if_pos hstart] at hold
          cases hold
        · rw [if_neg hstart] at hold
          exact ⟨block, hold, rfl⟩
      · intro start block hblock hbeyond
        have hstart : start ≠ c.start := by
          intro hstart
          subst hstart
          exact absurd (h block hblock) (Nat.not_le.mpr hbeyond)
        exact ⟨block, (SortedMap.get?_erase_of_ne _ hstart).trans hblock, rfl⟩
  · rw [blocksOf_of_modify_of_ne _ _ hdrop hid]
    exact SegmentBlocks.Thins.refl _ _

theorem Evictable.drop {c other : Candidate} (h : cache.Evictable other)
    (hc : cache.Evictable c) : (cache.drop c).Evictable other := by
  intro block hblock
  rcases (hc.thins other.segment).sub hblock with ⟨old, hold, heq⟩
  rw [mark_drop, ← heq]
  exact h old hold

theorem thins_foldl_drop {list : List Candidate} (h : ∀ c ∈ list, cache.Evictable c) :
    Thins cache.mark cache (list.foldl Cache.drop cache) ∧
      ∀ id, (list.foldl Cache.drop cache).mark id = cache.mark id := by
  induction list generalizing cache with
  | nil => exact ⟨Thins.refl _ _, fun _ => rfl⟩
  | cons c rest ih =>
      have hc : cache.Evictable c := h c List.mem_cons_self
      have hrest : ∀ other ∈ rest, (cache.drop c).Evictable other :=
        fun other hother => (h other (List.mem_cons_of_mem _ hother)).drop hc
      rcases ih hrest with ⟨hthins, hmark⟩
      have hsame : (cache.drop c).mark = cache.mark := funext (mark_drop cache c)
      rw [hsame] at hthins
      constructor
      · exact hc.thins.trans hthins
      · intro id
        rw [List.foldl_cons, hmark, mark_drop]

theorem mem_of_mem_victims {excess : Nat} {list : List Candidate} {c : Candidate}
    (h : c ∈ victims excess list) : c ∈ list := by
  induction list generalizing excess with
  | nil => cases h
  | cons first rest ih =>
      unfold victims at h
      split at h
      · cases h
      · rcases List.mem_cons.mp h with heq | hrest
        · rw [heq]
          exact List.mem_cons_self
        · exact List.mem_cons_of_mem _ (ih hrest)

theorem evictable_of_mem_victims {excess : Nat} {c : Candidate}
    (h : c ∈ victims excess (cache.candidates.mergeSort Candidate.before)) : cache.Evictable c :=
  evictable_of_mem_candidates (List.mem_mergeSort.mp (mem_of_mem_victims h))

theorem thins_evict (cache : Cache) : Thins cache.mark cache cache.evict :=
  (thins_foldl_drop fun _ hc => evictable_of_mem_victims hc).1

@[simp] theorem mark_evict (cache : Cache) (id : SegmentId) :
    cache.evict.mark id = cache.mark id :=
  (thins_foldl_drop fun _ hc => evictable_of_mem_victims hc).2 id

/-!
## Adding
-/

section Adding

variable {segment : SegmentId} {offset : Nat} {data : Bytes}

def filled (cache : Cache) (segment : SegmentId) (offset : Nat) (data : Bytes) : Cache :=
  { cache with
    segments := cache.segments.insert segment
      ((cache.blocksOf segment).fill offset data cache.clock).1
    size := cache.size + ((cache.blocksOf segment).fill offset data cache.clock).2
    clock := cache.clock + 1 }

theorem put_of_ne_nil (hdata : data ≠ []) :
    cache.put segment offset data =
      if (cache.filled segment offset data).size = cache.size then
        cache.filled segment offset data
      else (cache.filled segment offset data).evict := by
  have hsome : ¬data.isEmpty = true := fun hempty => hdata (List.isEmpty_iff.mp hempty)
  have hadded : (cache.filled segment offset data).size = cache.size ↔
      ((cache.blocksOf segment).fill offset data cache.clock).2 = 0 := Nat.add_eq_left
  unfold put
  rw [if_neg hsome]
  simp only [hadded]
  rfl

theorem put_eq (cache : Cache) (segment : SegmentId) (offset : Nat) (data : Bytes) :
    cache.put segment offset data = cache ∧ data = [] ∨
      cache.put segment offset data = cache.filled segment offset data ∨
      cache.put segment offset data = (cache.filled segment offset data).evict := by
  by_cases hdata : data = []
  · left
    rw [hdata]
    exact ⟨rfl, rfl⟩
  · right
    rw [put_of_ne_nil hdata]
    split
    · exact Or.inl rfl
    · exact Or.inr rfl

theorem blocksOf_filled (id : SegmentId) :
    (cache.filled segment offset data).blocksOf id =
      if id = segment then ((cache.blocksOf segment).fill offset data cache.clock).1
      else cache.blocksOf id :=
  blocksOf_of_insert _ _ rfl id

@[simp] theorem mark_filled : (cache.filled segment offset data).mark id = cache.mark id := by
  unfold mark
  rw [blocksOf_filled]
  by_cases hid : id = segment
  · rw [if_pos hid, hid]
    rfl
  · rw [if_neg hid]

@[simp] theorem mark_put : (cache.put segment offset data).mark id = cache.mark id := by
  rcases put_eq cache segment offset data with h | h | h
  · rw [h.1]
  · rw [h, mark_filled]
  · rw [h, mark_evict, mark_filled]

theorem Faithful.filled (h : cache.Faithful content)
    (hdata : Bytes.slice (content segment) offset data.length = data) :
    (cache.filled segment offset data).Faithful content where
  apart := by
    intro id
    rw [blocksOf_filled]
    by_cases hid : id = segment
    · rw [if_pos hid]
      exact (h.apart segment).fill
    · rw [if_neg hid]
      exact h.apart id
  agrees := by
    intro id
    rw [blocksOf_filled]
    by_cases hid : id = segment
    · rw [if_pos hid, hid]
      exact (h.agrees segment).fill (h.apart segment) hdata
    · rw [if_neg hid]
      exact h.agrees id

theorem Faithful.put (h : cache.Faithful content)
    (hdata : Bytes.slice (content segment) offset data.length = data) :
    (cache.put segment offset data).Faithful content := by
  rcases put_eq cache segment offset data with heq | heq | heq
  · rw [heq.1]
    exact h
  · rw [heq]
    exact h.filled hdata
  · rw [heq]
    exact (thins_evict _).faithful (h.filled hdata)

theorem Faithful.covers_put (h : cache.Faithful content) {o : Nat} (hmark : cache.mark id ≤ o)
    (ho : cache.Covers id o ∨ id = segment ∧ offset ≤ o ∧ o < offset + data.length) :
    (cache.put segment offset data).Covers id o := by
  have hfilled : (cache.filled segment offset data).Covers id o := by
    unfold Covers at ho ⊢
    rw [blocksOf_filled]
    by_cases hid : id = segment
    · subst hid
      rw [if_pos rfl]
      exact (h.apart id).covers_fill (ho.imp_right And.right)
    · rw [if_neg hid]
      rcases ho with hcovers | hrange
      · exact hcovers
      · exact absurd hrange.1 hid
  rcases put_eq cache segment offset data with heq | heq | heq
  · rw [heq.1]
    rcases ho with hcovers | hrange
    · exact hcovers
    · rw [heq.2, List.length_nil] at hrange
      omega
  · rw [heq]
    exact hfilled
  · rw [heq]
    exact (thins_evict _).covers hfilled (by rw [mark_filled]; exact hmark)

end Adding

/-!
## Looking up
-/

section LookingUp

variable {segment : SegmentId} {offset count : Nat}

theorem thins_get (cache : Cache) (segment : SegmentId) (offset count : Nat)
    (bound : SegmentId → Nat) : Thins bound cache (cache.get segment offset count).2 := by
  intro id
  unfold get
  cases hat : (cache.blocksOf segment).blockAt? offset with
  | none => exact SegmentBlocks.Thins.refl _ _
  | some found =>
      rcases found with ⟨start, block⟩
      have hblock := (blockAt?_eq_some hat).1
      let touched : Block := { block with lastAccess := cache.clock }
      let next : Cache :=
        { cache with
          segments := cache.segments.modify segment fun b =>
            { b with blocks := b.blocks.insert start touched }
          clock := cache.clock + 1
          hits := cache.hits + 1 }
      show SegmentBlocks.Thins (bound id) (cache.blocksOf id) (next.blocksOf id)
      by_cases hid : id = segment
      · subst hid
        rcases blocksOf_of_modify cache next rfl with heq | heq
        · rw [heq]
          exact SegmentBlocks.Thins.refl _ _
        · rw [heq]
          constructor
          · intro s x hx
            have hx : ((cache.blocksOf id).blocks.insert start touched).get? s = some x := hx
            rw [SortedMap.get?_insert] at hx
            by_cases hs : s = start
            · rw [if_pos hs] at hx
              cases hx
              rw [hs]
              exact ⟨block, hblock, rfl⟩
            · rw [if_neg hs] at hx
              exact ⟨x, hx, rfl⟩
          · intro s x hx _
            show ∃ new, ((cache.blocksOf id).blocks.insert start touched).get? s = some new ∧ _
            rw [SortedMap.get?_insert]
            by_cases hs : s = start
            · rw [hs, hblock] at hx
              cases hx
              rw [if_pos hs]
              exact ⟨touched, rfl, rfl⟩
            · rw [if_neg hs]
              exact ⟨x, hx, rfl⟩
      · rw [blocksOf_of_modify_of_ne cache next rfl hid]
        exact SegmentBlocks.Thins.refl _ _

@[simp] theorem mark_get : (cache.get segment offset count).2.mark id = cache.mark id := by
  unfold get mark
  cases (cache.blocksOf segment).blockAt? offset with
  | none => rfl
  | some found =>
      by_cases hid : id = segment
      · subst hid
        rcases blocksOf_of_modify cache (
          { cache with
            segments := cache.segments.modify id fun b =>
              { b with blocks := b.blocks.insert found.1 { found.2 with lastAccess := cache.clock } }
            clock := cache.clock + 1
            hits := cache.hits + 1 }) rfl with heq | heq
        · rw [heq]
        · rw [heq]
      · rw [blocksOf_of_modify_of_ne _ _ rfl hid]

/-- What a look-up finds is a piece of the content, and not empty if any byte is wanted. -/
theorem Faithful.get_eq_some (h : cache.Faithful content) {data : Bytes}
    (hget : (cache.get segment offset count).1 = some data) :
    data = Bytes.slice (content segment) offset data.length ∧ data.length ≤ count ∧
      (0 < count → 0 < data.length) := by
  unfold get at hget
  cases hat : (cache.blocksOf segment).blockAt? offset with
  | none =>
      rw [hat] at hget
      cases hget
  | some found =>
      rcases found with ⟨start, block⟩
      rw [hat] at hget
      cases hget
      rcases blockAt?_eq_some hat with ⟨hblock, hle, hlt⟩
      have hlength := Bytes.length_slice block.data (offset - start) count
      have hmin : (Bytes.slice block.data (offset - start) count).length ≤ count := by omega
      refine ⟨?_, hmin, by omega⟩
      rw [hlength, ← (h.agrees segment).piece hblock hle (by omega)]
      unfold Bytes.slice
      rw [List.take_eq_take_iff, List.length_drop]
      omega

theorem Faithful.get_eq_none (h : cache.Faithful content)
    (hget : (cache.get segment offset count).1 = none) : ¬ cache.Covers segment offset := by
  unfold get at hget
  cases hat : (cache.blocksOf segment).blockAt? offset with
  | none => exact (h.apart segment).not_covers hat
  | some found =>
      rw [hat] at hget
      cases hget

theorem Faithful.get_of_covers (h : cache.Faithful content) (hcovers : cache.Covers segment offset)
    (hpos : 0 < count) :
    ∃ data, (cache.get segment offset count).1 = some data ∧
      data = Bytes.slice (content segment) offset data.length ∧ 0 < data.length ∧
      data.length ≤ count := by
  cases hget : (cache.get segment offset count).1 with
  | none => exact absurd hcovers (h.get_eq_none hget)
  | some data =>
      rcases h.get_eq_some hget with ⟨hpiece, hcount, hnonempty⟩
      exact ⟨data, rfl, hpiece, hnonempty hpos, hcount⟩

end LookingUp

/-!
## Following the tier and the table
-/

section Following

variable {segment : SegmentId} {offset : Nat}

def marked (cache : Cache) (segment : SegmentId) (offset : Nat) : Cache :=
  { cache with
    segments := cache.segments.modify segment fun b => { b with flushed := max b.flushed offset } }

theorem markFlushed_eq : cache.markFlushed segment offset = (cache.marked segment offset).evict :=
  rfl

theorem blocks_marked :
    ((cache.marked segment offset).blocksOf id).blocks = (cache.blocksOf id).blocks := by
  by_cases hid : id = segment
  · subst hid
    rcases blocksOf_of_modify cache (cache.marked id offset) rfl with heq | heq
    · rw [heq]
    · rw [heq]
  · rw [blocksOf_of_modify_of_ne cache _ rfl hid]

theorem mark_markFlushed_of_ne (hid : id ≠ segment) :
    (cache.markFlushed segment offset).mark id = cache.mark id := by
  rw [markFlushed_eq, mark_evict]
  unfold mark
  rw [blocksOf_of_modify_of_ne cache _ rfl hid]

theorem mark_markFlushed_le :
    (cache.markFlushed segment offset).mark segment ≤ max (cache.mark segment) offset := by
  rw [markFlushed_eq, mark_evict]
  unfold mark
  rcases blocksOf_of_modify cache (cache.marked segment offset) rfl with
    heq | heq
  · rw [heq]
    exact Nat.le_max_left _ _
  · exact Nat.le_of_eq (congrArg SegmentBlocks.flushed heq)

/-- Moving a mark drops only blocks that end at or below the marks as they then are. -/
theorem thins_markFlushed (hbound : ∀ id, (cache.markFlushed segment offset).mark id ≤ bound id) :
    Thins bound cache (cache.markFlushed segment offset) := by
  have hmarked : Thins bound cache (cache.marked segment offset) := by
    intro id
    constructor
    · intro start block hblock
      rw [blocks_marked] at hblock
      exact ⟨block, hblock, rfl⟩
    · intro start block hblock _
      exact ⟨block, by rw [blocks_marked]; exact hblock, rfl⟩
  refine hmarked.trans ((thins_evict _).mono ?_)
  intro id
  have hle := hbound id
  rw [markFlushed_eq, mark_evict] at hle
  exact hle

theorem thins_truncateBefore (hbound : offset ≤ bound segment) :
    Thins bound cache (cache.truncateBefore segment offset) := by
  intro id
  by_cases hid : id = segment
  · subst hid
    rcases blocksOf_of_modify cache (cache.truncateBefore id offset) rfl with
      heq | heq
    · rw [heq]
      exact SegmentBlocks.Thins.refl _ _
    · rw [heq]
      constructor
      · intro start block hblock
        exact ⟨block, (SortedMap.get?_filter_eq_some_iff.mp hblock).1, rfl⟩
      · intro start block hblock hbeyond
        have hkeep : decide (offset < start + block.data.length) = true :=
          decide_eq_true (Nat.lt_of_le_of_lt hbound hbeyond)
        exact ⟨block, SortedMap.get?_filter_eq_some_iff.mpr ⟨hblock, hkeep⟩, rfl⟩
  · rw [blocksOf_of_modify_of_ne cache (cache.truncateBefore segment offset)
      rfl hid]
    exact SegmentBlocks.Thins.refl _ _

@[simp] theorem mark_truncateBefore :
    (cache.truncateBefore segment offset).mark id = cache.mark id := by
  unfold mark
  by_cases hid : id = segment
  · subst hid
    rcases blocksOf_of_modify cache (cache.truncateBefore id offset) rfl with
      heq | heq
    · rw [heq]
    · rw [heq]
  · rw [blocksOf_of_modify_of_ne cache (cache.truncateBefore segment offset)
      rfl hid]

end Following

/-!
## Moving
-/

section Moving

variable {source target : SegmentId} {base : Nat} {b : SegmentBlocks}
  {entries : List (Nat × Block)}

/-- The blocks with others filled in, `base` further on. -/
def poured (base : Nat) (b : SegmentBlocks) (entries : List (Nat × Block)) : SegmentBlocks :=
  entries.foldl (fun b e => (b.fill (base + e.1) e.2.data e.2.lastAccess).1) b

theorem foldl_eq_poured (base : Nat) (entries : List (Nat × Block)) (b : SegmentBlocks)
    (added : Nat) :
    (entries.foldl (fun (b, added) (start, block) =>
      let (b, more) := b.fill (base + start) block.data block.lastAccess
      (b, added + more)) (b, added)).1 = poured base b entries := by
  induction entries generalizing b added with
  | nil => rfl
  | cons e rest ih => exact ih _ _

@[simp] theorem flushed_poured : (poured base b entries).flushed = b.flushed := by
  induction entries generalizing b with
  | nil => rfl
  | cons e rest ih => exact ih

theorem apart_poured (hb : b.Apart) : (poured base b entries).Apart := by
  induction entries generalizing b with
  | nil => exact hb
  | cons e rest ih => exact ih hb.fill

theorem agrees_poured {bytes : Bytes} (hapart : b.Apart) (hb : b.Agrees bytes)
    (hentries : ∀ e ∈ entries, Bytes.slice bytes (base + e.1) e.2.data.length = e.2.data) :
    (poured base b entries).Agrees bytes := by
  induction entries generalizing b with
  | nil => exact hb
  | cons e rest ih =>
      exact ih hapart.fill (hb.fill hapart (hentries e List.mem_cons_self))
        fun e' he' => hentries e' (List.mem_cons_of_mem _ he')

theorem covers_poured (hapart : b.Apart) {offset : Nat} (hb : b.Covers offset) :
    (poured base b entries).Covers offset := by
  induction entries generalizing b with
  | nil => exact hb
  | cons e rest ih => exact ih hapart.fill (hapart.covers_fill (Or.inl hb))

theorem blocksOf_moveSegment (hne : source ≠ target) (id : SegmentId) :
    (cache.moveSegment source target base).blocksOf id =
      if id = target then
        poured base (cache.blocksOf target) (cache.blocksOf source).blocks.entries
      else if id = source then {} else cache.blocksOf id := by
  unfold moveSegment
  cases hsource : cache.segments.get? source with
  | none =>
      have hempty : cache.blocksOf source = {} := blocksOf_of_get?_eq_none hsource
      rw [hempty]
      by_cases htarget : id = target
      · rw [if_pos htarget, htarget]
        rfl
      · rw [if_neg htarget]
        by_cases hid : id = source
        · rw [if_pos hid, hid, hempty]
        · rw [if_neg hid]
  | some moved =>
      let rest : Cache := { cache with segments := cache.segments.erase source }
      have hrest : ∀ id, rest.blocksOf id = if id = source then {} else cache.blocksOf id := by
        intro id
        show ((cache.segments.erase source).get? id).getD {} = _
        rw [SortedMap.get?_erase]
        by_cases hid : id = source
        · rw [if_pos hid, if_pos hid]
          rfl
        · rw [if_neg hid, if_neg hid]
          rfl
      simp only
      rw [blocksOf_of_insert rest _ rfl id, foldl_eq_poured, blocksOf_of_get? hsource]
      by_cases htarget : id = target
      · rw [if_pos htarget, if_pos htarget, hrest target, if_neg hne.symm]
      · rw [if_neg htarget, if_neg htarget, hrest id]

theorem mark_moveSegment (hne : source ≠ target) (hid : id ≠ source) :
    (cache.moveSegment source target base).mark id = cache.mark id := by
  unfold mark
  rw [blocksOf_moveSegment hne]
  by_cases htarget : id = target
  · rw [if_pos htarget, flushed_poured, htarget]
  · rw [if_neg htarget, if_neg hid]

theorem Faithful.covers_moveSegment (h : cache.Faithful content) (hne : source ≠ target)
    (hid : id ≠ source) {offset : Nat} (hcovers : cache.Covers id offset) :
    (cache.moveSegment source target base).Covers id offset := by
  unfold Covers at hcovers ⊢
  rw [blocksOf_moveSegment hne]
  by_cases htarget : id = target
  · subst htarget
    rw [if_pos rfl]
    exact covers_poured (h.apart id) hcovers
  · rw [if_neg htarget, if_neg hid]
    exact hcovers

theorem Faithful.moveSegment (h : cache.Faithful content) (hne : source ≠ target)
    (hmoved : ∀ start block, (cache.blocksOf source).blocks.get? start = some block →
      Bytes.slice (content target) (base + start) block.data.length = block.data) :
    (cache.moveSegment source target base).Faithful content where
  apart := by
    intro id
    rw [blocksOf_moveSegment hne]
    by_cases htarget : id = target
    · rw [if_pos htarget]
      exact apart_poured (h.apart target)
    · rw [if_neg htarget]
      by_cases hid : id = source
      · rw [if_pos hid]
        exact apart_empty
      · rw [if_neg hid]
        exact h.apart id
  agrees := by
    intro id
    rw [blocksOf_moveSegment hne]
    by_cases htarget : id = target
    · rw [if_pos htarget, htarget]
      exact agrees_poured (h.apart target) (h.agrees target)
        fun e he => hmoved e.1 e.2 (SortedMap.get?_eq_some_iff.mpr he)
    · rw [if_neg htarget]
      by_cases hid : id = source
      · rw [if_pos hid]
        exact agrees_empty _
      · rw [if_neg hid]
        exact h.agrees id

end Moving

end Cache
end TieredStore
