import TieredStore.Container.Recovery
import TieredStore.Proofs.Container.Changing
import TieredStore.Proofs.Container.Copying

/-!
# Rebuilding a container from a log

A container that is rebuilt starts empty and carries out the records of a log
that were regular when they were logged.  As nothing is known of the tier, no
byte can be evicted, so the container has every byte that is not in the tier of
the last snapshot.  A record is refused exactly if its name is not free in the
table that is being rebuilt.
-/

namespace TieredStore
namespace Container

/-- The container has got to this table, and the cache knows nothing of the tier. -/
structure Rebuilt (content : Contents) (table : Table) (c : Container FlakyTier) : Prop where
  table_eq : c.table = table
  cached : table.CachedIn content c.cache
  mark_eq : ∀ id, c.cache.mark id = 0

variable {content : Contents} {table : Table} {c : Container FlakyTier} {op : Operation}

theorem rebuilt_empty (content : Contents) (maxSize : Nat) (tier : FlakyTier) :
    Rebuilt content {} { cache := { maxSize }, tier } where
  table_eq := rfl
  cached :=
    { faithful := Cache.faithful_empty _ _
      mark_le := fun hs => nomatch hs
      mark_fresh := fun _ => rfl
      covers := fun hs => nomatch hs }
  mark_eq := fun _ => rfl

theorem Rebuilt.snapshot (h : c.Rebuilt content table) {snapshot : Table}
    (hflushed : snapshot.Flushed) : Rebuilt content snapshot { c with table := snapshot } where
  table_eq := rfl
  cached :=
    { faithful := h.cached.faithful
      mark_le := by
        intro id s _
        rw [h.mark_eq]
        exact Nat.zero_le _
      mark_fresh := fun _ => h.mark_eq _
      covers := by
        intro id s hs o hle hlt
        rw [(hflushed id s hs).2] at hle
        exact absurd hlt (Nat.not_lt.mpr hle) }
  mark_eq := h.mark_eq

theorem Rebuilt.perform (h : c.Rebuilt content table)
    (htable : op.isCheckpoint = false → table.Consistent content)
    (hop : op.Regular content table) :
    Rebuilt (content.after op) (table.perform op)
      { c with table := table.perform op, cache := c.cache.filledBy op } := by
  cases hcheckpoint : op.isCheckpoint with
  | false =>
      refine { table_eq := rfl, cached := h.cached.perform (htable hcheckpoint) hop hcheckpoint,
               mark_eq := ?_ }
      intro id
      rw [Cache.mark_filledBy]
      exact h.mark_eq id
  | true =>
      cases op with
      | checkpoint snapshot => exact h.snapshot (hop.snapshot snapshot rfl).2.2
      | append segment offset client event data => cases hcheckpoint
      | «seal» segment length => cases hcheckpoint
      | merge parent batch length offset => cases hcheckpoint
      | create segment name => cases hcheckpoint
      | createBatch batch name parent => cases hcheckpoint
      | truncate segment offset => cases hcheckpoint

/-- A record is refused, or its operation is performed and the bytes that it brings are cached. -/
theorem ends_replayRecord {τ : Type} {c : Container τ} {seq : SequenceNumber}
    {answered : Container τ → Prop} {failed : Error → Container τ → Prop}
    (hunfit : ∀ cause, c.table.apply op = .error cause → failed (unfit seq cause) c)
    (happlied : ∀ table, c.table.apply op = .ok table →
      answered { c with table, cache := c.cache.filledBy op }) :
    Ends (replayRecord (seq, op)) c (fun _ after => answered after) failed := by
  unfold replayRecord
  refine Ends.get ?_
  cases happly : c.table.apply op with
  | error cause => exact Ends.throw (hunfit cause happly)
  | ok table =>
      refine Ends.modifying ?_
      cases op with
      | append segment offset client event data => exact Ends.modified (happlied table happly)
      | _ => exact Ends.pure (happlied table happly)

variable {τ : Type} [Tier τ] [LawfulTier τ]

theorem replayRecord_ends {c : Container τ} (h : c.held.Rebuilt content table)
    (htable : op.isCheckpoint = false → table.Consistent content)
    (seq : SequenceNumber) (hop : op.Regular content table) :
    Ends (replayRecord (seq, op)) c
      (fun _ after => op.NameFree table ∧ after.tier = c.tier ∧
        after.held.Rebuilt (content.after op) (table.perform op))
      (fun _ after => ¬ op.NameFree table ∧ after.tier = c.tier) := by
  have hsame : c.table = table := h.table_eq
  refine ends_replayRecord ?_ ?_
  · intro cause happly
    refine ⟨fun hfree => ?_, rfl⟩
    rw [hsame, Table.apply_eq_ok_iff.mpr ⟨hop.fits, hfree, rfl⟩] at happly
    cases happly
  · intro after happly
    rw [hsame] at happly
    rcases Table.apply_eq_ok_iff.mp happly with ⟨-, hfree, rfl⟩
    exact ⟨hfree, rfl, h.perform htable hop⟩

theorem replay_ends {c : Container τ} {records : List LogRecord} (h : c.held.Rebuilt content table)
    (htable : table.Consistent content)
    (hops : Operation.AllRegular content table (records.map (·.2))) (count : Nat) :
    Ends (replay count (records.map Except.ok)) c
      (fun found after => Operation.AllNamesFree table (records.map (·.2)) ∧
        after.tier = c.tier ∧
        after.held.Rebuilt (content.afterAll (records.map (·.2)))
          (table.performAll (records.map (·.2))) ∧ found = count + records.length)
      (fun _ after => ¬ Operation.AllNamesFree table (records.map (·.2)) ∧
        after.tier = c.tier) := by
  induction records generalizing content table c count with
  | nil => exact Ends.pure ⟨trivial, rfl, h, rfl⟩
  | cons record rest ih =>
      rcases record with ⟨seq, op⟩
      rcases hops with ⟨hop, hrest⟩
      refine Ends.bind ((replayRecord_ends h (fun _ => htable) seq hop).mono ?_ ?_)
      · intro _ middle hmiddle
        rcases hmiddle with ⟨hfree, htier, hrebuilt⟩
        refine (ih hrebuilt (htable.perform hop) hrest (count + 1)).mono ?_ ?_
        · intro found after hafter
          refine ⟨⟨hfree, hafter.1⟩, hafter.2.1.trans htier, hafter.2.2.1, ?_⟩
          rw [hafter.2.2.2, List.length_cons]
          omega
        · intro _ after hafter
          exact ⟨fun hall => hafter.1 hall.2, hafter.2.trans htier⟩
      · intro _ after hafter
        exact ⟨fun hall => hafter.1 hall.1, hafter.2⟩

/-- An empty container is rebuilt from the records of a log, unless a name is taken twice. -/
theorem rebuild_ends {records : List LogRecord} {replayed : Table}
    (h : Operation.Replayable content replayed (records.map (·.2))) (maxSize : Nat)
    (tier : τ) :
    Ends (replay 0 (records.map Except.ok)) { cache := { maxSize }, tier }
      (fun found after => Operation.NamesApart [] (records.map (·.2)) ∧ after.tier = tier ∧
        after.held.Rebuilt content replayed ∧ replayed.WellFormed ∧ found = records.length)
      (fun _ after => ¬ Operation.NamesApart [] (records.map (·.2)) ∧ after.tier = tier) := by
  have hnames := h.allNamesFree_iff
  rcases h with ⟨base, hregular, hcontent, hreplayed, hstart⟩
  subst hcontent hreplayed
  have hempty : ({ cache := { maxSize }, tier } : Container τ).held.Rebuilt base {} :=
    rebuilt_empty base maxSize (TierView.held tier)
  have hall : Ends (replay 0 (records.map Except.ok)) { cache := { maxSize }, tier }
      (fun found after => Operation.AllNamesFree {} (records.map (·.2)) ∧ after.tier = tier ∧
        after.held.Rebuilt (base.afterAll (records.map (·.2)))
          (Table.performAll {} (records.map (·.2))) ∧ found = records.length)
      (fun _ after => ¬ Operation.AllNamesFree {} (records.map (·.2)) ∧ after.tier = tier) := by
    rcases hstart with hbase | hsnapshot
    · subst hbase
      refine (replay_ends hempty Table.Consistent.empty hregular 0).mono ?_ fun _ _ h => h
      intro found after hafter
      rw [Nat.zero_add] at hafter
      exact hafter
    · rcases hsnapshot with ⟨snapshot, rest, hops⟩
      rcases List.map_eq_cons_iff.mp hops with ⟨record, others, hrecords, hop, hothers⟩
      rcases record with ⟨seq, op⟩
      subst hrecords hop hothers
      rcases hregular with ⟨hop, hrest⟩
      have hsnapshot := (hop.snapshot snapshot rfl).1
      have hcheckpoint : (Operation.checkpoint snapshot).isCheckpoint = false →
          Table.Consistent base {} := by
        intro hfalse
        cases hfalse
      refine Ends.bind ((replayRecord_ends hempty hcheckpoint seq hop).mono ?_ ?_)
      · intro _ middle hmiddle
        rcases hmiddle with ⟨hfree, htier, hrebuilt⟩
        refine (replay_ends hrebuilt hsnapshot hrest 1).mono ?_ ?_
        · intro found after hafter
          refine ⟨⟨hfree, hafter.1⟩, hafter.2.1.trans htier, hafter.2.2.1, ?_⟩
          rw [hafter.2.2.2, List.length_cons, Nat.add_comm]
        · intro _ after hafter
          exact ⟨fun hall => hafter.1 hall.2, hafter.2.trans htier⟩
      · intro _ after hafter
        exact ⟨fun hall => hafter.1 hall.1, hafter.2⟩
  refine hall.mono ?_ ?_
  · intro _ after hafter
    rcases hafter with ⟨hfree, htier, hrebuilt, hfound⟩
    exact ⟨hnames.mp hfree, htier, hrebuilt, hfree.wellFormed hregular Table.WellFormed.empty,
      hfound⟩
  · intro _ after hafter
    exact ⟨fun hapart => hafter.1 (hnames.mpr hapart), hafter.2⟩

end Container
end TieredStore
