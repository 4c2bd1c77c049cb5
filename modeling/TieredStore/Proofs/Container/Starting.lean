import TieredStore.Proofs.Container.Replaying
import TieredStore.Proofs.Log.Starting

/-!
# Where recovery starts

Recovery applies the records that it reads, from the newest checkpoint on, one
after the other, and gives up at the first that cannot be read or applied.  What
it starts with is a checkpoint or the first record of all, unless the log has no
checkpoint and its first record has been lost.
-/

namespace TieredStore
namespace Container

variable {τ : Type}

def applyAll (table : Table) (entries : List LogRecord) : Except Refusal Table :=
  entries.foldlM (fun table entry => table.apply entry.2) table

theorem replay_table :
    ∀ (items : List LogReader.Item) (count : Nat) (c : Container τ),
      Ends (replay count items) c
        (fun n after => ∃ entries, items = entries.map .ok ∧ n = count + entries.length ∧
          applyAll c.table entries = .ok after.table)
        (fun _ _ => ∀ entries, items = entries.map .ok →
          ∀ table, applyAll c.table entries ≠ .ok table)
  | [], count, c => Ends.pure ⟨[], rfl, rfl, rfl⟩
  | .error e :: rest, count, c => by
      refine Ends.throw ?_
      intro entries hentries
      cases entries with
      | nil => cases hentries
      | cons entry more => cases hentries
  | .ok entry :: rest, count, c => by
      unfold replay
      refine Ends.bind (ends_replayRecord ?_ ?_)
      · rintro cause hcause entries hentries table htable
        cases entries with
        | nil => cases hentries
        | cons first more =>
            rw [List.map_cons, List.cons.injEq] at hentries
            unfold applyAll at htable
            rw [← Except.ok.inj hentries.1, List.foldlM_cons, hcause] at htable
            cases htable
      · intro middle hmiddle
        refine (replay_table rest (count + 1) _).mono ?_ ?_
        · rintro n after ⟨entries, rfl, rfl, hall⟩
          refine ⟨entry :: entries, rfl, ?_, ?_⟩
          · rw [List.length_cons]
            omega
          · unfold applyAll
            rw [List.foldlM_cons, hmiddle]
            exact hall
        · intro _ _ hnone entries hentries table htable
          cases entries with
          | nil => cases hentries
          | cons first more =>
              rw [List.map_cons, List.cons.injEq] at hentries
              unfold applyAll at htable
              rw [← Except.ok.inj hentries.1, List.foldlM_cons, hmiddle] at htable
              exact hnone more hentries.2 table htable

variable [Tier τ]

theorem recover_applied (log : Log) (c : Container τ) :
    Ends (recover log) c
      (fun stats _ => stats.start = log.latestCheckpoint?.getD .first ∧
        ∃ applied : List LogRecord, log.records stats.start = applied.map .ok ∧
          stats.replayed = applied.length)
      (fun _ _ => True) := by
  unfold recover
  refine Ends.bind ((replay_table _ 0 c).mono ?_ (fun _ _ _ => trivial))
  rintro replayed middle ⟨applied, hread, hreplayed, -⟩
  refine Ends.get (Ends.bind_always ?_)
  intro merges _
  refine Ends.get (Ends.bind_always ?_)
  intro _ _
  refine Ends.get (Ends.modifying (Ends.pure ⟨rfl, applied, hread, ?_⟩))
  rw [hreplayed, Nat.zero_add]

variable {config : Config} {ledgers : Ledgers} {log : Log} {c after : Container τ}
  {stats : RecoveryStats}

/--
What recovery of an opened log applies first is the first record of all or a
checkpoint exactly if a ledger starts with a checkpoint or no record before the
oldest that is left has been lost.
-/
theorem recovery_starts_iff (hload : Log.load config ledgers = .ok log)
    (hrecover : (recover log).run c = .ok stats after) :
    ∃ applied : List LogRecord, log.records stats.start = applied.map .ok ∧
      stats.replayed = applied.length ∧
      ((∀ record ∈ applied.head?, record.1 = .first ∨ record.2.isCheckpoint = true) ↔
        (∃ info ∈ log.ledgers, info.startsWithCheckpoint = true) ∨
          ∀ oldest, log.ledgers.findSome? (·.first) = some oldest → oldest ≤ .first) := by
  rcases Log.pages_of_load hload with ⟨pages, hpages, rfl⟩
  rcases (recover_applied _ c).ok hrecover with ⟨hstart, applied, hread, hreplayed⟩
  refine ⟨applied, hread, hreplayed, ?_⟩
  rw [hstart] at hread
  exact Log.starts_iff hpages hread

/-- The log that is opened and what recovery into an empty container does with it. -/
private def recovered (ledgers : Ledgers) : Option (Log × RecoveryStats) :=
  match Log.load {} ledgers with
  | .error _ => none
  | .ok log =>
      match (recover log).run ({ cache := { maxSize := 0 }, tier := {} } : Container FlakyTier) with
      | .error _ _ => none
      | .ok stats _ => some (log, stats)

private theorem exists_of_recovered {stats : RecoveryStats}
    (h : recovered ledgers = some (log, stats)) :
    Log.load {} ledgers = .ok log ∧ ∃ c after : Container FlakyTier,
      (recover log).run c = .ok stats after := by
  unfold recovered at h
  split at h
  · cases h
  · split at h
    · cases h
    · rename_i hload _ _ _ hrecover
      cases h
      exact ⟨hload, _, _, hrecover⟩

/-- A checkpoint in the newest of two ledgers, of which the older starts late. -/
private def withCheckpoint : Ledgers :=
  { directory := .memory (.ofList [(4, 0), (5, 1)]) {}
    objects := [((Frame.ofOperation 7 (.create 2 "b")).toOption).getD [],
      ((Frame.ofOperation 8 (.checkpoint {})).toOption).getD []] }

theorem recovery_starts_with_checkpoint :
    ∃ log stats, Log.load {} withCheckpoint = .ok log ∧
      (∃ c after : Container FlakyTier, (recover log).run c = .ok stats after) ∧
      ∃ applied : List LogRecord, log.records stats.start = applied.map .ok ∧
        stats.replayed = applied.length ∧ stats.replayed = 1 ∧
        ∀ record ∈ applied.head?, record.1 = .first ∨ record.2.isCheckpoint = true := by
  have hfound : (recovered withCheckpoint).map (fun found =>
      (found.2.replayed, found.1.ledgers.map (·.startsWithCheckpoint))) =
      some (1, [false, true]) := by decide +kernel
  rcases Option.map_eq_some_iff.mp hfound with ⟨⟨log, stats⟩, hrecovered, heq⟩
  rcases Prod.mk.inj heq with ⟨hreplayed, hstarts⟩
  rcases exists_of_recovered hrecovered with ⟨hload, c, after, hrecover⟩
  rcases recovery_starts_iff hload hrecover with ⟨applied, hread, hlength, hiff⟩
  have hcheckpoint : true ∈ log.ledgers.map (·.startsWithCheckpoint) := by
    rw [show log.ledgers.map (·.startsWithCheckpoint) = [false, true] from hstarts]
    decide
  rcases List.mem_map.mp hcheckpoint with ⟨info, hinfo, hstart⟩
  exact ⟨log, stats, hload, ⟨c, after, hrecover⟩, applied, hread, hlength, hreplayed,
    hiff.mpr (Or.inl ⟨info, hinfo, hstart⟩)⟩

/-- The ledger that is left when the one with the first record has been lost. -/
private def afterLoss : Ledgers :=
  { directory := .memory (.ofList [(2, 0)]) {}
    objects := [((Frame.ofOperation 2 (.create 2 "b")).toOption).getD []] }

theorem recovery_starts_after_loss :
    ∃ log stats, Log.load {} afterLoss = .ok log ∧
      (∃ c after : Container FlakyTier, (recover log).run c = .ok stats after) ∧
      stats.start = 1 ∧ stats.replayed = 1 ∧
      log.records stats.start = [.ok (2, .create 2 "b")] := by
  have hfound : (recovered afterLoss).map (fun found =>
      (found.2.start, found.2.replayed, found.1.records found.2.start)) =
      some (1, 1, [.ok (2, .create 2 "b")]) := by decide +kernel
  rcases Option.map_eq_some_iff.mp hfound with ⟨⟨log, stats⟩, hrecovered, heq⟩
  rcases Prod.mk.inj heq with ⟨hstart, hrest⟩
  rcases Prod.mk.inj hrest with ⟨hreplayed, hread⟩
  rcases exists_of_recovered hrecovered with ⟨hload, hrecover⟩
  exact ⟨log, stats, hload, hrecover, hstart, hreplayed, hread⟩

end Container
end TieredStore
