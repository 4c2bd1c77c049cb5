import TieredStore.Proofs.Store.Developing
import TieredStore.Proofs.Store.Readers

/-!
# From one opening to the next

The segments of a store go on from what they were also when it is closed and opened again.
While it is closed, the table with which it was closed is what the ledgers and the tier are
about, and opening it goes on from there.  So between any two moments of a run at which the
store is open its table has moved forward.
-/

namespace TieredStore

/-- The segments of the session, or those that were left in it, have come from these. -/
def Session.Since (content : Contents) (before : Table) : Session FlakyTier → Prop
  | .closed host => ∃ live, host.Leaves True content live ∧ before.Advances live
  | .opened store => before.Advances store.table

namespace StoreRun

variable {before : Table} {run : StoreRun} {store after : Store FlakyTier}
  {host : Host FlakyTier} {live : Table} {content : Contents}

theorem since_load (h : host.Leaves True content live) (hbefore : before.Advances live)
    {session : Session FlakyTier} (hhost : session.host = host) (config : Config) :
    (session.reopen config).2.Since content before := by
  have hload := Store.load_leaves h config
  unfold Session.reopen
  rw [hhost]
  cases hrun : Store.load config host with
  | ok store =>
      rw [hrun] at hload
      exact hbefore.trans hload.2
  | error failure =>
      rw [hrun] at hload
      exact ⟨live, hload, hbefore⟩

theorem since_closed (h : host.Leaves True content live) (hbefore : before.Advances live)
    (next : StoreStep) :
    (step { session := .closed host, content } next).session.Since content before := by
  cases next with
  | reopen config => exact since_load h hbefore rfl config
  | settle => exact ⟨live, h.settle, hbefore⟩
  | advance milliseconds => exact ⟨live, h.settle, hbefore⟩
  | switchLedgers change => exact ⟨live, h.setFaults change, hbefore⟩
  | switchTier failReads failWrites interruptConcat =>
      exact ⟨live, h.setTier rfl fun _ => trivial, hbefore⟩
  | _ => exact ⟨live, h, hbefore⟩

theorem Kept.since_step (h : run.Kept True) (hsince : run.session.Since run.content before)
    (next : StoreStep) : (run.step next).session.Since (run.step next).content before := by
  rcases run with ⟨session, content⟩
  cases session with
  | closed host =>
      rcases hsince with ⟨live, hleaves, hbefore⟩
      rw [ReaderRun.content_of_closed rfl next]
      exact since_closed hleaves hbefore next
  | opened store =>
      have hopen : ({ session := .opened store, content } : StoreRun).session = .opened store := rfl
      have hstore := h.opened hopen
      have hbefore : before.Advances store.table := hsince
      by_cases hnext : next.keepsOpen = true
      · rcases develops_step hopen hstore hnext with ⟨after, hafter, hdevelops⟩
        rw [hafter]
        exact hbefore.trans hdevelops.advances
      · cases next with
        | close => exact ⟨store.table, hstore.close_leaves, hbefore⟩
        | reopen config => exact since_load hstore.close_leaves hbefore rfl config
        | _ => exact absurd rfl hnext

theorem Kept.since_steps (list : List StoreStep) :
    ∀ {run : StoreRun}, run.Kept True → run.session.Since run.content before →
      (run.steps list).session.Since (run.steps list).content before := by
  induction list with
  | nil => exact fun _ hsince => hsince
  | cons next rest ih =>
      exact fun h hsince => ih (h.step next fun _ => trivial) (h.since_step hsince next)

/-- Whenever the store is open later, its table has moved forward. -/
theorem Kept.steps_advances (h : run.Kept True) (hopen : run.session = .opened store)
    (later : List StoreStep) (hafter : (run.steps later).session = .opened after) :
    store.table.Advances after.table := by
  have hstart : run.session.Since run.content store.table := by
    rw [hopen]
    exact .refl store.table
  have hsince := h.since_steps later hstart
  rw [hafter] at hsince
  exact hsince

end StoreRun

namespace ReaderRun

variable {run : ReaderRun} {store after : Store FlakyTier}

theorem steps_run (list : List ReaderStep) :
    ∀ run : ReaderRun, ∃ calls, (run.steps list).run = run.run.steps calls := by
  induction list with
  | nil => exact fun _ => ⟨[], rfl⟩
  | cons next rest ih =>
      intro run
      rcases ih (run.step next) with ⟨calls, hrest⟩
      rcases run.step_run next with hsame | ⟨call, hcall⟩
      · exact ⟨calls, by rw [← hsame]; exact hrest⟩
      · exact ⟨call :: calls, by rw [StoreRun.steps, List.foldl_cons, ← hcall]; exact hrest⟩

theorem Upheld.steps_advances (h : run.Upheld) (hopen : run.run.session = .opened store)
    (later : List ReaderStep) (hafter : (run.steps later).run.session = .opened after) :
    store.table.Advances after.table := by
  rcases steps_run later run with ⟨calls, hcalls⟩
  rw [hcalls] at hafter
  exact h.kept.steps_advances hopen calls hafter

end ReaderRun
end TieredStore
