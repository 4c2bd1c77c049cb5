import TieredStore.Proofs.Store.Attending

/-!
# The bound of the cache

The cache may be larger than its bound only as long as it keeps bytes that the tier
is not known to hold.  It goes by a mark of its own for that, which it has only for
segments that it has an entry for.  If it had one for every segment with bytes in
the tier when the store was opened, the marks are right from then on, and a block
that keeps the cache above its bound has a byte behind the tier's end.

A segment of which no bytes were replayed gets its entry with the first bytes that
are read back from the tier, and its mark stands at zero until the segment is
flushed again.  Until then copies of what the tier holds are not evicted.
-/

namespace TieredStore

namespace Container

variable {content : Contents} {c : Container FlakyTier}

theorem Sound.noted (h : c.Sound content) (hmarked : ∀ s ∈ c.table.list, c.Marked s)
    (hknown : ∀ s ∈ c.table.list, 0 < s.storageLength → c.cache.Knows s.id) : c.Noted := by
  intro id s hs
  have hmem : s ∈ c.table.list := Table.mem_list.mpr ⟨id, hs⟩
  have hle := h.cached.mark_le hs
  by_cases hpos : 0 < s.storageLength
  · have hmark := hmarked s hmem (hknown s hmem hpos)
    rw [h.consistent.id_eq hs] at hmark
    exact Nat.le_antisymm hle hmark
  · omega

end Container

namespace StoreRun

/--
While the cache of an open store is larger than its bound, each block of a segment
ends behind the segment's mark, which is at most where the tier is known to reach.
If the cache had an entry for every segment with bytes in the tier when the store
was opened, each block has a byte that the tier is not known to hold.
-/
theorem overfull_cache_unflushed (before after : List StoreStep) (config : Config)
    {fresh store : Store FlakyTier}
    (hfresh : (start.steps (before ++ [.reopen config])).session = .opened fresh)
    (hafter : ∀ step ∈ after, step.keepsOpen = true)
    (hopen : (start.steps (before ++ [.reopen config] ++ after)).session = .opened store) :
    store.container.cache.size = store.container.cache.held ∧
    (config.cacheMaxSize < store.container.cache.size →
      ∀ id s offset block, store.table.get? id = some s →
        (store.container.cache.blocksOf id).blocks.get? offset = some block →
        store.container.cache.mark id < offset + block.data.length ∧
        store.container.cache.mark id ≤ s.storageLength ∧
        ((∀ t ∈ fresh.table.list, 0 < t.storageLength → fresh.container.cache.Knows t.id) →
          s.storageLength < offset + block.data.length)) := by
  have hopened := fresh_of_opened before hfresh
  have hkept : (start.steps (before ++ [.reopen config])).Kept True :=
    kept_start.steps _ fun _ => trivial
  rcases Kept.steps_tends after hkept hfresh hopened.orderly hafter with ⟨last, hlast, htends⟩
  have hsplit : start.steps (before ++ [.reopen config] ++ after) =
      (start.steps (before ++ [.reopen config])).steps after := List.foldl_append
  rw [hsplit, hlast] at hopen
  cases hopen
  have hsound := (kept_of_opened _ (hsplit ▸ hlast)).sound.container
  have horderly := (hopened.orderly.tends htends).cache
  refine ⟨horderly.size_eq, ?_⟩
  intro hover id s offset block hs hblock
  rw [← hopened.maxSize_eq, ← htends.container.maxSize_eq] at hover
  -- the cache goes by its own mark, which is the tier's end if it was so on opening
  have hbehind := horderly.tight hover hblock
  refine ⟨hbehind, hsound.cached.mark_le hs, ?_⟩
  intro hknown
  have hfreshSound := (kept_of_opened _ hfresh).sound.container
  have hmark : store.container.cache.mark id = s.storageLength :=
    htends.container.noted (hfreshSound.noted hopened.marked hknown) hs
  rw [← hmark]
  exact hbehind

private def replayed : List StoreStep :=
  [.reopen {}, .create "a", .append ⟨1, 7, 1, [97, 98]⟩, .flush]

/-- Bytes that are appended when the store is open again are over the bound. -/
theorem overfull_cache_unflushed_replayed :
    ∃ store s block, (start.steps (replayed ++ [.reopen { cacheMaxSize := 0 }] ++
        [.append ⟨1, 7, 2, [99]⟩])).session = .opened store ∧
      store.table.get? 1 = some s ∧ s.storageLength = 2 ∧ 0 < store.container.cache.size ∧
      (store.container.cache.blocksOf 1).blocks.get? 2 = some block ∧
      s.storageLength < 2 + block.data.length := by
  have hfreshSome : (start.steps (replayed ++ [.reopen { cacheMaxSize := 0 }])).session.store?.isSome
      = true := by decide +kernel
  have hknown : (start.steps (replayed ++ [.reopen { cacheMaxSize := 0 }])).session.store?.map
      (fun fresh => fresh.table.list.all fun t =>
        decide (0 < t.storageLength → fresh.container.cache.Knows t.id)) = some true := by
    decide +kernel
  have hisSome : (start.steps (replayed ++ [.reopen { cacheMaxSize := 0 }] ++
      [.append ⟨1, 7, 2, [99]⟩])).session.store?.isSome = true := by decide +kernel
  have hfound : ((start.steps (replayed ++ [.reopen { cacheMaxSize := 0 }] ++
      [.append ⟨1, 7, 2, [99]⟩])).session.store?.bind (·.table.get? 1)).map (·.storageLength) =
      some 2 := by decide +kernel
  have hcached : (start.steps (replayed ++ [.reopen { cacheMaxSize := 0 }] ++
      [.append ⟨1, 7, 2, [99]⟩])).session.store?.map (fun store =>
        (decide (0 < store.container.cache.size),
          ((store.container.cache.blocksOf 1).blocks.get? 2).isSome)) = some (true, true) := by
    decide +kernel
  rcases Option.isSome_iff_exists.mp hfreshSome with ⟨fresh, hfresh⟩
  rcases Option.isSome_iff_exists.mp hisSome with ⟨store, hstore⟩
  rw [hfresh] at hknown
  rw [hstore] at hfound hcached
  rcases Option.map_eq_some_iff.mp hfound with ⟨s, hs, hstored⟩
  simp only [Option.map_some, Option.some.injEq, Prod.mk.injEq, decide_eq_true_eq] at hcached
  rcases Option.isSome_iff_exists.mp hcached.2 with ⟨block, hblock⟩
  have hall : ∀ t ∈ fresh.table.list, 0 < t.storageLength → fresh.container.cache.Knows t.id := by
    intro t ht
    exact of_decide_eq_true (List.all_eq_true.mp (Option.some.inj hknown) t ht)
  have hopen := Session.eq_opened hstore
  have hover := (overfull_cache_unflushed replayed [.append ⟨1, 7, 2, [99]⟩] { cacheMaxSize := 0 }
    (Session.eq_opened hfresh) (by decide) hopen).2 hcached.1
  exact ⟨store, s, block, hopen, hs, hstored, hcached.1, hblock,
    (hover 1 s 2 block hs hblock).2.2 hall⟩

/-- A checkpoint leaves nothing to be replayed, and a read brings back what the tier holds. -/
private def readBack : List StoreStep :=
  [.reopen { cacheMaxSize := 0 }, .create "a", .append ⟨1, 7, 1, [97, 98]⟩, .checkpoint,
    .reopen { cacheMaxSize := 0 },
    .next { segment := 1, start := 0, maxLength := 2, finished := false },
    .awaitEntry
      { number := 0, kind := .storage, offset := 0, requested := 2, wait := some (.fetch 0) }]

set_option maxRecDepth 2000 in
/-- A copy of what the tier holds keeps the cache above its bound. -/
theorem overfull_cache_of_copies :
    ∃ store, (start.steps readBack).session = .opened store ∧
      store.config.cacheMaxSize < store.container.cache.size ∧
      ∃ id s offset block, store.table.get? id = some s ∧
        (store.container.cache.blocksOf id).blocks.get? offset = some block ∧
        ¬ s.storageLength < offset + block.data.length := by
  have hstate : (start.steps readBack).session.store?.map (fun store =>
      (store.config.cacheMaxSize, store.container.cache.size,
        (store.table.get? 1).map (·.storageLength),
        ((store.container.cache.blocksOf 1).blocks.get? 0).map (·.data.length))) =
      some (0, 2, some 2, some 2) := by decide +kernel
  rcases Option.map_eq_some_iff.mp hstate with ⟨store, hstore, hfields⟩
  simp only [Prod.mk.injEq] at hfields
  rcases hfields with ⟨hmax, hsize, hsegment, hblock⟩
  rcases Option.map_eq_some_iff.mp hsegment with ⟨s, hs, hstored⟩
  rcases Option.map_eq_some_iff.mp hblock with ⟨block, hget, hlength⟩
  exact ⟨store, Session.eq_opened hstore, by omega, 1, s, 0, block, hs, hget, by omega⟩

end StoreRun
end TieredStore
