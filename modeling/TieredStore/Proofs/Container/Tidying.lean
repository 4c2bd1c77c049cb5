import TieredStore.Proofs.Container.Recovering
import TieredStore.Proofs.Container.Upkeep

/-!
# The cache after a recovery

A recovery keeps the cache in order, and at its end it moves the mark of every
segment to where the tier holds it.  That reaches only segments that the cache has
an entry for: those of which bytes were replayed.
-/

namespace TieredStore
namespace Container

variable {τ : Type} {c : Container τ}

instance : Std.Refl (Tidy (τ := τ)) := ⟨Tidy.refl⟩

instance : Trans (Tidy (τ := τ)) Tidy Tidy := ⟨Tidy.trans⟩

/-! ## The cache stays in order -/

theorem onTier_tidies {α : Type} (call : TierM τ α) (c : Container τ) :
    Carries Tidy (onTier call) c :=
  (Maintains.onTier call c).mono (fun _ _ hafter => hafter.toTidy)
    fun _ _ hafter => ⟨hafter.1.toTidy, hafter.2⟩

theorem markStored_tidy (s : Segment) (c : Container τ) : c.Tidy (markStored s c) := by
  refine ⟨?_, fun h => ?_⟩
  · exact Cache.maxSize_markFlushed
  · exact (h.toCounted.markFlushed s.id s.storageLength).truncateBefore s.id _

theorem replayRecord_tidies (record : LogRecord) (c : Container τ) :
    Carries Tidy (replayRecord record) c := by
  rcases record with ⟨seq, op⟩
  refine ends_replayRecord ?_ ?_
  · intro cause _
    refine ⟨.refl c, ?_⟩
    unfold unfit
    split
    · exact id
    · exact id
  · intro table _
    cases op with
    | append segment offset client event data =>
        exact ⟨Cache.maxSize_put, fun h => h.put segment offset data⟩
    | _ => exact ⟨rfl, fun h => h⟩

theorem replay_tidies (items : List LogReader.Item) (hitems : ∀ item ∈ items, Delivers item)
    (count : Nat) (c : Container τ) : Carries Tidy (replay count items) c := by
  induction items generalizing count c with
  | nil => exact .pure count c
  | cons item rest ih =>
      cases item with
      | error e => exact .throw (hitems _ List.mem_cons_self e rfl) c
      | ok record =>
          exact .bind_any (replayRecord_tidies record c) fun _ after =>
            ih (fun item hitem => hitems item (List.mem_cons_of_mem _ hitem)) _ after

section Tier

variable [Tier τ]

theorem finishCovered_tidies (parent : SegmentId) (length : Nat)
    (merges : List (PendingMerge × String)) (count : Nat) (c : Container τ) :
    Carries Tidy (finishCovered parent length count merges) c := by
  induction merges generalizing count c with
  | nil => exact .pure count c
  | cons first rest ih =>
      rcases first with ⟨m, name⟩
      have hfinish : ∀ c : Container τ, Carries Tidy (do
          modify (finishMerge parent m)
          finishCovered parent length (count + 1) rest) c :=
        fun c => .modifying (Tidy.finishMerge parent m c) (ih (count + 1) _)
      unfold finishCovered
      split
      · exact .pure count c
      · refine .bind_any (onTier_tidies _ c) fun found c => ?_
        split
        · exact .bind_any (onTier_tidies _ c) fun _ c => hfinish c
        · exact hfinish c

theorem finishJoined_tidies (js : List Joinable) (count : Nat) (c : Container τ) :
    Carries Tidy (finishJoined count js) c := by
  induction js generalizing count c with
  | nil => exact .pure count c
  | cons j rest ih =>
      exact .bind_any (onTier_tidies _ c) fun length c =>
        .bind_any (finishCovered_tidies _ _ _ _ c) fun finished c => ih finished c

theorem reconcile_tidies (s : Segment) (c : Container τ) : Carries Tidy (reconcile s) c := by
  have hnote : ∀ (usable : Nat) (c : Container τ), Carries Tidy
      (if s.storageLength < usable then
        modify fun c => { c with table := c.table.setStorageLength s.id usable }
      else pure ⟨⟩ : ContainerM τ PUnit) c := by
    intro usable c
    split
    · exact .modified ⟨rfl, fun h => h⟩
    · exact .pure _ c
  unfold reconcile
  refine .bind_any (onTier_tidies _ c) fun length c => ?_
  simp only
  split
  · refine .bind_any (.throw ?_ c) fun _ c => hnote _ c
    exact fun h => h
  · exact hnote _ c

omit [Tier τ] in
theorem markAll_tidy (segments : List Segment) (c : Container τ) :
    c.Tidy (segments.foldl (fun c segment => markStored segment c) c) := by
  induction segments generalizing c with
  | nil => exact .refl c
  | cons first rest ih => exact (markStored_tidy first c).trans (ih _)

theorem recover_tidies {log : Log} {records : List LogRecord}
    (hrecords : log.records (log.latestCheckpoint?.getD .first) = records.map .ok)
    (c : Container τ) : Carries Tidy (recover log) c := by
  have hitems : ∀ item ∈ records.map .ok, Delivers item := by
    intro item hitem
    rcases List.mem_map.mp hitem with ⟨record, -, rfl⟩
    exact .ok record
  unfold recover
  simp only [hrecords]
  exact .bind_any (replay_tidies _ hitems 0 c) fun _ c =>
    .get (.bind_any (finishJoined_tidies _ 0 c) fun _ c =>
      .get (.bind_any (.forM _ reconcile_tidies c) fun _ c =>
        .get (.modifying (markAll_tidy _ c) (.pure _ _))))

end Tier

/-! ## The marks -/

/-- The marks of the segments that the cache has an entry for are where the tier ends. -/
def Marked (c : Container τ) (s : Segment) : Prop :=
  c.cache.Knows s.id → s.storageLength ≤ c.cache.mark s.id

theorem knows_markStored (s : Segment) (c : Container τ) (id : SegmentId) :
    (markStored s c).cache.Knows id ↔ c.cache.Knows id :=
  Cache.knows_truncateBefore.trans Cache.knows_markFlushed

theorem le_mark_markStored (s : Segment) (c : Container τ) (id : SegmentId) :
    c.cache.mark id ≤ (markStored s c).cache.mark id := by
  have hmarked : c.cache.mark id ≤ (c.cache.markFlushed s.id s.storageLength).mark id :=
    Cache.le_mark_markFlushed
  exact Nat.le_trans hmarked (Nat.le_of_eq Cache.mark_truncateBefore.symm)

theorem marked_markStored (s : Segment) (c : Container τ) : (markStored s c).Marked s := by
  intro hknows
  refine Nat.le_trans (Cache.le_mark_of_knows ((knows_markStored s c s.id).mp hknows))
    (Nat.le_of_eq ?_)
  exact Cache.mark_truncateBefore.symm

theorem Marked.markStored {s : Segment} (h : c.Marked s) (t : Segment) :
    (markStored t c).Marked s := fun hknows =>
  Nat.le_trans (h ((knows_markStored t c s.id).mp hknows)) (le_mark_markStored t c s.id)

theorem markAll_marked (segments : List Segment) :
    ∀ {c : Container τ}, ∀ s, (c.Marked s ∨ s ∈ segments) →
      (segments.foldl (fun c segment => markStored segment c) c).Marked s := by
  induction segments with
  | nil =>
      intro c s h
      exact h.resolve_right List.not_mem_nil
  | cons first rest ih =>
      intro c s h
      rw [List.foldl_cons]
      refine ih s ?_
      rcases h with hold | hmem
      · exact Or.inl (hold.markStored first)
      · rcases List.mem_cons.mp hmem with hself | hrest
        · rw [hself]
          exact Or.inl (marked_markStored first c)
        · exact Or.inr hrest

theorem table_markAll (segments : List Segment) (c : Container τ) :
    (segments.foldl (fun c segment => markStored segment c) c).table = c.table := by
  induction segments generalizing c with
  | nil => rfl
  | cons first rest ih => exact ih (markStored first c)

theorem recover_marked [Tier τ] (log : Log) (c : Container τ) :
    Ends (recover log) c (fun _ after => ∀ s ∈ after.table.list, after.Marked s)
      (fun _ _ => True) := by
  unfold recover
  refine .bind_always fun replayed rebuilt => .get (.bind_always fun merges joined =>
    .get (.bind_always fun _ noted => .get (.modifying (.pure ?_))))
  intro s hs
  rw [table_markAll] at hs
  exact markAll_marked _ s (Or.inr hs)

end Container
end TieredStore
