import TieredStore.Proofs.Cache.Marks
import TieredStore.Proofs.Container.Finding
import TieredStore.Proofs.Missing

/-!
# The upkeep of the cache

The cache of a container stays in order whatever the container does.  Its marks
are where the table says that the tier holds the segments, once they are: what is
copied was cached, so that the cache has an entry for it, and so has a batch of
which the tier is known to hold bytes.

The same bytes that keep the marks right are the ones that a flush and a look-up
need, so neither fails for want of them.
-/

namespace TieredStore
namespace Container

variable {τ : Type} {c middle after : Container τ} {id : SegmentId} {s : Segment}

/-- The cache takes of every segment as much to be in the tier as the table does. -/
def Noted (c : Container τ) : Prop :=
  ∀ {id s}, c.table.get? id = some s → c.cache.mark id = s.storageLength

structure Tidy (c after : Container τ) : Prop where
  maxSize_eq : after.cache.maxSize = c.cache.maxSize
  orderly : c.cache.Orderly → after.cache.Orderly

structure Upkeep (c after : Container τ) : Prop extends Tidy c after where
  noted : c.Noted → after.Noted

theorem Tidy.refl (c : Container τ) : c.Tidy c := ⟨rfl, fun h => h⟩

theorem Tidy.trans (h : c.Tidy middle) (hafter : middle.Tidy after) : c.Tidy after where
  maxSize_eq := hafter.maxSize_eq.trans h.maxSize_eq
  orderly := fun horderly => hafter.orderly (h.orderly horderly)

theorem Tidy.finishMerge (parent : SegmentId) (m : PendingMerge) (c : Container τ) :
    c.Tidy (Container.finishMerge parent m c) := by
  unfold Container.finishMerge
  split
  · exact .refl c
  · refine ⟨?_, fun h => ?_⟩
    · exact Cache.maxSize_markFlushed.trans Cache.maxSize_moveSegment
    · exact (h.toCounted.moveSegment m.batch parent m.offset).markFlushed parent m.stop

namespace Upkeep

theorem refl (c : Container τ) : c.Upkeep c := ⟨.refl c, fun h => h⟩

theorem trans (h : c.Upkeep middle) (hafter : middle.Upkeep after) : c.Upkeep after where
  toTidy := h.toTidy.trans hafter.toTidy
  noted := fun hnoted => hafter.noted (h.noted hnoted)

theorem with_tier (c : Container τ) (tier : τ) : c.Upkeep { c with tier } :=
  ⟨⟨rfl, fun h => h⟩, fun h => h⟩

theorem with_cache {cache : Cache} (hsize : cache.maxSize = c.cache.maxSize)
    (horderly : c.cache.Orderly → cache.Orderly) (hmark : ∀ id, cache.mark id = c.cache.mark id) :
    c.Upkeep { c with cache } where
  maxSize_eq := hsize
  orderly := horderly
  noted := fun hnoted _ _ hs => (hmark _).trans (hnoted hs)

theorem get (c : Container τ) (id : SegmentId) (offset count : Nat) :
    c.Upkeep { c with cache := (c.cache.get id offset count).2 } :=
  with_cache Cache.maxSize_get (fun h => h.get id offset count) fun _ => Cache.mark_get

theorem put (c : Container τ) (id : SegmentId) (offset : Nat) (data : Bytes) :
    c.Upkeep (put id offset data c) :=
  with_cache Cache.maxSize_put (fun h => h.put id offset data) fun _ => Cache.mark_put

theorem truncateBefore (c : Container τ) (id : SegmentId) (offset : Nat) :
    c.Upkeep { c with cache := c.cache.truncateBefore id offset } :=
  with_cache rfl (fun h => h.truncateBefore id offset) fun _ => Cache.mark_truncateBefore

theorem noteStored (hs : c.table.get? id = some s) {stored : Nat} (hstored : stored ≤ s.length)
    (hknows : c.cache.Knows id) : c.Upkeep (noteStored id stored c) := by
  let marked : Container τ :=
    { c with
      table := c.table.setStorageLength id stored
      cache := c.cache.markFlushed id stored }
  have hmarked : c.Upkeep marked := by
    refine ⟨⟨Cache.maxSize_markFlushed, fun h => h.toCounted.markFlushed id stored⟩, ?_⟩
    intro hnoted other t ht
    replace ht : (c.table.setStorageLength id stored).get? other = some t := ht
    show (c.cache.markFlushed id stored).mark other = _
    by_cases hother : other = id
    · subst hother
      rw [Table.get?_setStorageLength_self hs] at ht
      cases ht
      rw [Cache.mark_markFlushed_of_knows hknows, hnoted hs]
      show _ = max s.storageLength (min stored s.length)
      rw [Nat.min_eq_left hstored]
    · rw [Table.get?_setStorageLength_of_ne hother] at ht
      rw [Cache.mark_markFlushed_of_ne hother]
      exact hnoted ht
  exact hmarked.trans (truncateBefore marked id _)

theorem finishMerge {content : Contents} (hconsistent : c.table.Consistent content)
    {m : PendingMerge} {rest : List PendingMerge} {b : Segment} (hs : c.table.get? id = some s)
    (hpending : s.pending = m :: rest) (hstored : s.storageLength = m.offset)
    (hb : c.table.get? m.batch = some b) (hcomplete : b.storageLength = b.length) :
    c.Upkeep (finishMerge id m c) := by
  refine ⟨.finishMerge id m c, ?_⟩
  rw [finishMerge_eq hs hpending]
  have hbacked := hconsistent.backed hs m (by rw [hpending]; exact List.mem_cons_self)
  have hne : m.batch ≠ id := hconsistent.batch_ne hbacked
  rcases hbacked with ⟨b', hb', -, -, hlength, -⟩
  rw [hb] at hb'
  cases hb'
  let moved := c.cache.moveSegment m.batch id m.offset
  have hmoved : ∀ {other}, other ≠ m.batch → moved.mark other = c.cache.mark other :=
    fun hother => Cache.mark_moveSegment hne hother
  intro hnoted other t ht
  show (moved.markFlushed id m.stop).mark other = t.storageLength
  rcases Table.joined_or_kept hs ht with ⟨hbatch, ⟨rfl, rfl⟩ | ⟨hid, hold⟩⟩
  · have hmark : moved.mark other = s.storageLength := (hmoved hbatch).trans (hnoted hs)
    show _ = max s.storageLength m.stop
    rw [← hmark]
    by_cases hnone : m.length = 0
    · -- a merge of no bytes ends where the tier ends already
      have hstop : m.stop = moved.mark other := by
        rw [hmark, hstored, PendingMerge.stop, hnone, Nat.add_zero]
      rw [hstop, Nat.max_self]
      exact Nat.le_antisymm (Nat.le_trans Cache.mark_markFlushed_le (Nat.le_of_eq (Nat.max_self _)))
        Cache.le_mark_markFlushed
    · have hknows : c.cache.Knows m.batch := by
        refine Cache.knows_of_mark_pos ?_
        rw [hnoted hb, hcomplete, hlength]
        exact Nat.pos_of_ne_zero hnone
      exact Cache.mark_markFlushed_of_knows (Cache.knows_moveSegment hknows)
  · rw [Cache.mark_markFlushed_of_ne hid, hmoved hbatch]
    exact hnoted hold

end Upkeep

/-! ## Calls that keep the cache up -/

instance : Std.Refl (Upkeep (τ := τ)) := ⟨Upkeep.refl⟩

instance : Trans (Upkeep (τ := τ)) Upkeep Upkeep := ⟨Upkeep.trans⟩

/-- Wherever the call ends, the cache is kept up; it does not fail for want of bytes. -/
abbrev Maintains {α : Type} (call : ContainerM τ α) (c : Container τ) : Prop :=
  Carries Upkeep call c

namespace Maintains

variable {α : Type}

theorem onTier (call : TierM τ α) (c : Container τ) : Maintains (onTier call) c := by
  refine onTier_ends (.of_run ?_ ?_)
  · intro _ tier _
    exact .with_tier c tier
  · intro _ tier _
    exact ⟨.with_tier c tier, fun h => h⟩

theorem cached (c : Container τ) (id : SegmentId) (offset count : Nat) :
    Maintains (cached id offset count) c := Upkeep.get c id offset count

end Maintains

/-! ## Reads -/

theorem lookup_upkeep (c : Container τ) (s : Segment) (offset count maxRead : Nat) :
    Ends (lookup s offset count maxRead) c (fun _ after => c.Upkeep after)
      (fun _ after => c.Upkeep after) := by
  refine ends_lookup (fun _ _ => .refl c) fun place _ => ?_
  refine (Maintains.cached c place.source.id place.offset (min count place.limit)).mono ?_ ?_
  · intro found after hafter
    exact ⟨fun _ _ => hafter, fun _ _ => hafter, fun _ _ => hafter⟩
  · intro _ after hafter
    exact hafter.1

theorem fetch_maintains [Tier τ] (c : Container τ) (request : FetchRequest) :
    Maintains (fetch request) c := by
  refine ends_fetch (.of_run ?_ ?_)
  · intro data tier _
    have hread := Upkeep.with_tier c tier
    refine ⟨fun _ _ _ => ⟨hread, id⟩, fun _ => ⟨fun _ => hread, fun _ _ => ?_⟩⟩
    exact hread.trans (.put _ _ _ _)
  · intro cause tier _
    exact ⟨.with_tier c tier, id⟩

theorem lookupWoken_upkeep (c : Container τ) (id : SegmentId) (offset count maxRead : Nat) :
    Ends (lookupWoken id offset count maxRead) c (fun _ after => c.Upkeep after)
      (fun _ after => c.Upkeep after) :=
  ends_lookupWoken (fun _ _ => .refl c) (fun _ _ _ => .refl c)
    fun s _ _ => lookup_upkeep c s offset count maxRead

theorem lookup_maintains {content : Contents} {c : Container FlakyTier} (h : c.Sound content)
    (hs : c.table.get? id = some s) {offset : Nat} (hlt : offset < s.length) (count maxRead : Nat) :
    Maintains (lookup s offset count maxRead) c := by
  refine ((lookup_upkeep c s offset count maxRead).and
    (h.lookup_ends hs offset count maxRead)).mono ?_ ?_
  · intro _ after hafter
    exact hafter.1
  · intro _ after hafter
    exact absurd hlt hafter.2.2

theorem lookupWoken_maintains {content : Contents} {c : Container FlakyTier} (h : c.Sound content)
    {offset : Nat} (hlt : offset < (content id).length) (count maxRead : Nat) :
    Maintains (lookupWoken id offset count maxRead) c := by
  refine ends_lookupWoken ?_ ?_ ?_
  · exact fun cause _ => ⟨.refl c, fun h => h⟩
  · exact fun s _ _ => ⟨.refl c, fun h => h⟩
  · intro s hs _
    rw [← (h.consistent.segment hs).length_eq] at hlt
    exact lookup_maintains h hs hlt count maxRead

end Container
end TieredStore
