import TieredStore.Container.Flush
import TieredStore.Proofs.Container.Places
import TieredStore.Proofs.Table.Accounted
import TieredStore.Store.Mutation

/-!
# Sound containers

A container is sound if its table describes the contents of the segments and all
of their bytes are in their places.  It is traced if, beside that, no object
reaches into a batch that is not joined and the table that would be replayed from
the log follows the live one, and it is tracked if, moreover, the table knows how
far the objects reach.

Each change that a container undergoes keeps it tracked: what is logged is done
to the contents and to both tables, everything else only to the live table.
-/

namespace TieredStore
namespace Container

/-- The table describes the contents, and all bytes are in their places. -/
structure Sound (content : Contents) (c : Container FlakyTier) : Prop where
  consistent : c.table.Consistent content
  wellFormed : c.table.WellFormed
  stored : c.table.StoredIn content c.tier
  cached : c.table.CachedIn content c.cache

/--
The container is sound, and the table replayed from the log follows its own.  Joins
can have broken off only if it is said so.
-/
structure Traced (broken : Prop) (content : Contents) (replayed : Table)
    (c : Container FlakyTier) : Prop where
  sound : c.Sound content
  settled : c.table.SettledIn broken c.tier
  accounted : c.table.Accounted
  follows : replayed.Follows c.table
  replayed : replayed.Consistent content

/-- Beside that, the table knows how far the objects reach. -/
structure Tracked (broken : Prop) (content : Contents) (replayed : Table)
    (c : Container FlakyTier) : Prop where
  sound : c.Sound content
  aligned : c.table.AlignedIn broken c.tier
  accounted : c.table.Accounted
  follows : replayed.Follows c.table
  replayed : replayed.Consistent content

variable {broken : Prop} {content : Contents} {replayed : Table} {c : Container FlakyTier}
  {id : SegmentId} {s : Segment}

/-!
## Parts of a container
-/

theorem onTier_ends {τ α : Type} {call : TierM τ α} {c : Container τ}
    {answered : α → Container τ → Prop} {failed : Error → Container τ → Prop}
    (h : Ends call c.tier (fun a tier => answered a { c with tier })
      (fun cause tier => failed (.storage cause) { c with tier })) :
    Ends (onTier call) c answered failed := by
  unfold Ends EStateM.run onTier
  exact Ends.elim (call.run c.tier) rfl h

theorem cached_ends {τ : Type} (c : Container τ) (id : SegmentId) (offset count : Nat) :
    Ends (cached id offset count) c
      (fun found after => found = (c.cache.get id offset count).1 ∧
        after = { c with cache := (c.cache.get id offset count).2 })
      (fun _ _ => False) :=
  ⟨rfl, rfl⟩

theorem Sound.with_tier (h : c.Sound content) {tier : FlakyTier}
    (hstored : c.table.StoredIn content tier) : Sound content { c with tier } :=
  { h with stored := hstored }

theorem Sound.with_cache (h : c.Sound content) {cache : Cache}
    (hcached : c.table.CachedIn content cache) : Sound content { c with cache } :=
  { h with cached := hcached }

theorem Sound.get (h : c.Sound content) (id : SegmentId) (offset count : Nat) :
    Sound content { c with cache := (c.cache.get id offset count).2 } :=
  h.with_cache (h.cached.thins (Cache.thins_get _ _ _ _ fun _ => 0) (fun _ => Nat.zero_le _)
    fun _ => Cache.mark_get)

theorem Sound.put (h : c.Sound content) {offset : Nat} {data : Bytes}
    (hdata : Bytes.slice (content id) offset data.length = data) :
    Sound content (put id offset data c) :=
  h.with_cache (h.cached.put hdata)

theorem Tracked.with_cache (h : c.Tracked broken content replayed) {cache : Cache}
    (hsound : Sound content { c with cache }) :
    Tracked broken content replayed { c with cache } :=
  { h with sound := hsound }

theorem Tracked.of_same_objects (h : c.Tracked broken content replayed) {tier : FlakyTier}
    (hsame : tier.object? = c.tier.object?) : Tracked broken content replayed { c with tier } where
  sound := h.sound.with_tier (h.sound.stored.of_same hsame)
  aligned := Table.EndsIn.of_same h.aligned hsame
  accounted := h.accounted
  follows := h.follows
  replayed := h.replayed

theorem Traced.of_same_objects (h : c.Traced broken content replayed) {tier : FlakyTier}
    (hsame : tier.object? = c.tier.object?) : Traced broken content replayed { c with tier } where
  sound := h.sound.with_tier (h.sound.stored.of_same hsame)
  settled := Table.EndsIn.of_same h.settled hsame
  accounted := h.accounted
  follows := h.follows
  replayed := h.replayed

theorem Tracked.weaken (h : c.Tracked broken content replayed) {broken' : Prop}
    (hbroken : broken → broken') : c.Tracked broken' content replayed :=
  { h with aligned := Table.EndsIn.weaken h.aligned hbroken }

theorem Tracked.traced (h : c.Tracked broken content replayed) :
    c.Traced broken content replayed :=
  { h with settled := h.aligned.settledIn h.sound.consistent }

theorem Traced.tracked (h : c.Traced broken content replayed)
    (haligned : c.table.AlignedIn broken c.tier) : c.Tracked broken content replayed :=
  { h with aligned := haligned }

theorem Sound.bytes_of_complete (h : c.Sound content) (hs : c.table.get? id = some s)
    (hcomplete : s.storageLength = s.length) : c.tier.bytes s.name = content id := by
  have hstarts := h.stored.starts hs
  have hreaches := h.stored.reaches hs
  rw [hcomplete, (h.consistent.segment hs).length_eq] at hreaches
  exact hstarts.eq_of_length (Nat.le_antisymm hstarts.length_le hreaches)

/-- The object has what the table says, and a pending batch as well if its join has broken off. -/
theorem Tracked.bytes_eq (h : c.Tracked broken content replayed) (hs : c.table.get? id = some s) :
    c.tier.bytes s.name = (content id).take s.storageLength ∨
      broken ∧ ∃ m b, s.pending.head? = some m ∧ s.storageLength = m.offset ∧
        c.tier.bytes s.name = (content id).take m.stop ∧ c.table.get? m.batch = some b ∧
        c.tier.bytes b.name = content m.batch := by
  have htake := List.prefix_iff_eq_take.mp (h.sound.stored.starts hs)
  rcases h.aligned id s hs with hlength | hdoubled
  · rw [hlength] at htake
    exact Or.inl htake
  · rcases hdoubled with ⟨hbroken, m, b, hm, hoffset, hlength, hb, hcomplete⟩
    rw [hlength] at htake
    exact Or.inr ⟨hbroken, m, b, hm, hoffset, htake, hb, h.sound.bytes_of_complete hb hcomplete⟩

/-!
## Changes that are not logged
-/

theorem Sound.setStorageLength (h : c.Sound content) (hs : c.table.get? id = some s) {stored : Nat}
    (hlimit : stored ≤ s.limit) (hreaches : stored ≤ (c.tier.bytes s.name).length) :
    Sound content { c with table := c.table.setStorageLength id stored } where
  consistent := by
    refine h.consistent.setStorageLength ?_
    intro t ht
    rw [hs] at ht
    cases ht
    exact hlimit
  wellFormed := h.wellFormed.setStorageLength stored
  stored := by
    refine h.stored.modify hs rfl ?_ fun _ => List.prefix_rfl
    exact Nat.max_le.mpr ⟨h.stored.reaches hs, Nat.le_trans (Nat.min_le_left _ _) hreaches⟩
  cached := by
    refine h.cached.modify hs h.cached.faithful (fun _ => rfl) (fun _ hcovers => hcovers)
      (Nat.le_max_left _ _) ?_
    intro o hle hlt hpending
    exact h.cached.covers hs (Nat.le_trans (Nat.le_max_left _ _) hle) hlt hpending

theorem Sound.dropUnreadable (h : c.Sound content) (hs : c.table.get? id = some s) {stored : Nat}
    (hstored : stored ≤ s.storageLength) :
    Sound content
      (dropUnreadable id stored { c with cache := c.cache.markFlushed id stored }) :=
  h.with_cache ((h.cached.markFlushed h.consistent hs hstored).truncateBefore hs
    (Nat.le_trans (Nat.min_le_right _ _) hstored))

theorem Sound.noteStored (h : c.Sound content) (hs : c.table.get? id = some s) {stored : Nat}
    (hlimit : stored ≤ s.limit) (hreaches : stored ≤ (c.tier.bytes s.name).length) :
    (noteStored id stored c).Sound content := by
  have hnoted := h.setStorageLength hs hlimit hreaches
  have hs' := Table.get?_setStorageLength_self hs stored
  have hlength : stored ≤ s.length :=
    Nat.le_trans hlimit (h.consistent.segment hs).limit_le_length
  have hstored : stored ≤ max s.storageLength (min stored s.length) :=
    Nat.le_trans (Nat.le_min.mpr ⟨Nat.le_refl _, hlength⟩) (Nat.le_max_right _ _)
  exact hnoted.dropUnreadable hs' hstored

/-!
## Finished merges
-/

section Joining

variable {m : PendingMerge} {rest : List PendingMerge} {b : Segment} {tier : FlakyTier}

theorem finishMerge_eq {τ : Type} {c : Container τ} (hs : c.table.get? id = some s)
    (hpending : s.pending = m :: rest) :
    finishMerge id m c =
      { c with
        table := c.table.joined id m
        cache := (c.cache.moveSegment m.batch id m.offset).markFlushed id m.stop } := by
  unfold finishMerge
  rw [Table.completeMerge?_eq hs hpending]

theorem Sound.finishMerge (h : Sound content { c with tier }) (hs : c.table.get? id = some s)
    (hpending : s.pending = m :: rest) (hb : c.table.get? m.batch = some b)
    (hstarts : c.tier.bytes s.name <+: content id)
    (hreaches : m.stop ≤ (c.tier.bytes s.name).length) (hbatch : c.tier.object? b.name = none)
    (hother : ∀ {name}, name ≠ s.name → name ≠ b.name →
      c.tier.object? name = tier.object? name) :
    (finishMerge id m c).Sound content := by
  rw [finishMerge_eq hs hpending]
  exact
    { consistent := h.consistent.joined hs hpending
      wellFormed := h.wellFormed.joined
      stored := h.stored.joined h.consistent h.wellFormed hs hpending hb hstarts hreaches hbatch
        hother
      cached := h.cached.joined h.consistent hs hpending }

end Joining
end Container
end TieredStore
