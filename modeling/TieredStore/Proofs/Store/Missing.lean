import TieredStore.Proofs.Store.Attending

/-!
# No bytes are missed

Bytes of a segment that the tier is not known to hold are in the cache, whatever the
bound of the cache is and whatever has failed: an eviction and a truncation of the
cache only drop blocks that end where the tier reaches.  So a flush finds what it
has to copy, and a look-up finds in the tier what is not in the cache.  The two
failures that say otherwise are never reported.
-/

namespace TieredStore
namespace StoreRun

variable {list : List StoreStep} {entry : Entry} {store : Store FlakyTier}

/--
Since the store was opened last, the entry was handed out or given back.  An entry
of which there are several versions may be used in any of them.
-/
inductive HandedOut : List StoreStep → Entry → Prop
  | next {list : List StoreStep} {read : ReadResult} {store : Store FlakyTier} {entry : Entry}
      (hopen : (start.steps list).session = .opened store)
      (hresult : (read.next store).result = .ok (some entry)) :
      HandedOut (list ++ [.next read]) entry
  | awaited {list : List StoreStep} {entry : Entry} {store : Store FlakyTier}
      (hentry : HandedOut list entry) (hopen : (start.steps list).session = .opened store) :
      HandedOut (list ++ [.awaitEntry entry]) (entry.awaitContent store).entry
  | polled {list : List StoreStep} {entry : Entry} {store : Store FlakyTier}
      (hentry : HandedOut list entry) (hopen : (start.steps list).session = .opened store) :
      HandedOut (list ++ [.pollEntry entry]) (entry.tryContent store).entry
  | later {list : List StoreStep} {entry : Entry} {step : StoreStep}
      (hentry : HandedOut list entry) (hstep : step.keepsOpen = true) :
      HandedOut (list ++ [step]) entry

theorem eq_of_opened {run : StoreRun} (hopen : run.session = .opened store) :
    run = { session := .opened store, content := run.content } := by
  rcases run with ⟨session, content⟩
  cases hopen
  rfl

theorem HandedOut.honest (h : HandedOut list entry) :
    ∀ {store}, (start.steps list).session = .opened store →
      entry.Honest (start.steps list).content store := by
  induction h with
  | @next list read before entry hopen hresult =>
      intro store hstore
      have hserves := ReadResult.next_serves read (kept_of_opened list hopen).sound
        (orderly_of_opened list hopen)
      rw [steps_append, eq_of_opened hopen] at hstore ⊢
      cases hstore
      exact hserves.honest hresult
  | @awaited list entry before hentry hopen ih =>
      intro store hstore
      have hserves := Entry.awaitContent_serves (fun _ : True => ih hopen)
        (kept_of_opened list hopen).sound (orderly_of_opened list hopen)
      rw [steps_append, eq_of_opened hopen] at hstore ⊢
      cases hstore
      exact hserves.honest trivial
  | @polled list entry before hentry hopen ih =>
      intro store hstore
      have hserves := Entry.tryContent_serves (fun _ : True => ih hopen)
        (kept_of_opened list hopen).sound (orderly_of_opened list hopen)
      rw [steps_append, eq_of_opened hopen] at hstore ⊢
      cases hstore
      exact hserves.honest trivial
  | @later list entry step hentry hstep ih =>
      -- what the entry was promised is kept by any step that leaves the store open
      intro store hstore
      cases hbefore : (start.steps list).session with
      | closed host =>
          rcases (closed_step hbefore hstep).1 with ⟨after, hafter⟩
          rw [steps_append, hafter] at hstore
          cases hstore
      | opened before =>
          have hserves : Serves False (start.steps list) before step :=
            serves_step hbefore (kept_of_opened list hbefore) (orderly_of_opened list hbefore) hstep
              False.elim
          rcases hserves.tends with ⟨after, hafter, htends⟩
          rw [steps_append] at hstore ⊢
          rw [hafter] at hstore
          cases hstore
          exact (ih hbefore).tends htends

/--
Whenever the store is open, every byte of a segment that the tier is not known to
hold is in the cache under the segment, if it lies in no pending merge.  No step
reports that bytes are missing, provided that entries come from the store; and
neither does the checkpoint that follows an operation and whose failure is passed
over.
-/
theorem unflushed_bytes_kept (list : List StoreStep) :
    (∀ store, (start.steps list).session = .opened store →
      (∀ id s offset, store.table.get? id = some s → s.storageLength ≤ offset → offset < s.length →
        (∀ m ∈ s.pending, ¬ (m.offset ≤ offset ∧ offset < m.stop)) →
        ∃ byte, ((start.steps list).content id)[offset]? = some byte ∧
          (store.container.cache.get id offset 1).1 = some [byte]) ∧
      ∀ op seq log, store.table.validate op = .ok () → op.isCheckpoint = false →
        (∀ id, op.created? = some id → store.table.nextId ≤ id) →
        (Log.append op).run store.log = .ok seq log →
        ∀ e after, Store.checkpoint.run (store.taken op log) = .error e after →
          ¬ e.MissesBytes) ∧
    ∀ next, (∀ entry, next.given? = some entry → HandedOut list entry) →
      ∀ e, (start.steps list).outcome next = .error e → ¬ e.MissesBytes := by
  refine ⟨fun store hopen => ⟨?_, ?_⟩, fun next hentries => ?_⟩
  · intro id s offset hs hstored hlt hapart
    exact (kept_of_opened list hopen).sound.container.get_unflushed hs hstored hlt hapart
  · intro op seq log hvalidate hcheckpoint hfresh hrun e after hfailed
    have hkept := kept_of_opened list hopen
    rcases Store.regular_of_validate hvalidate _ hcheckpoint hfresh with ⟨hop, hfree⟩
    have htaken := (hkept.append_ends hop hfree hcheckpoint).ok hrun
    exact (htaken.checkpoint_tends.error hfailed).2
  · have hkept : (start.steps list).Kept True := kept_start.steps list fun _ => trivial
    refine (hkept.attends_step (orderly_steps list) next ?_).2 trivial
    intro _ store hopen entry hentry
    exact (hentries entry hentry).honest hopen

/--
A batch is pending whose bytes are nowhere but in the cache; the tier takes no more
writes and cannot be read.
-/
private def failing : List StoreStep :=
  [.reopen { cacheMaxSize := 0 }, .create "a", .append ⟨1, 7, 1, [97, 98, 99]⟩,
    .reopen { cacheMaxSize := 0 }, .flush, .createBatch 1 5, .append ⟨2, 7, 2, [100, 101]⟩,
    .sealSegment 2, .merge 2 1, .switchTier true true false]

private def whole : ReadResult := { segment := 1, start := 0, maxLength := 5, finished := false }

private def awaited (store : Store FlakyTier) : Option (Entry × Error) :=
  match (whole.next store).result with
  | .ok (some entry) =>
      match (start.steps (failing ++ [.next whole])).outcome (.awaitEntry entry) with
      | .error e => some (entry, e)
      | .ok _ => none
  | _ => none

private def checkpointed (store : Store FlakyTier) : Option Error :=
  match store.table.validate (.truncate 1 1), (Log.append (.truncate 1 1)).run store.log with
  | .ok (), .ok _ log =>
      match Store.checkpoint.run (store.taken (.truncate 1 1) log) with
      | .error e _ => some e
      | .ok _ _ => none
  | _, _ => none

theorem unflushed_bytes_kept_failing :
    ∃ store byte e entry e', (start.steps failing).session = .opened store ∧
      ((start.steps failing).content 2)[1]? = some byte ∧
      (store.container.cache.get 2 1 1).1 = some [byte] ∧
      checkpointed store = some e ∧ ¬ e.MissesBytes ∧
      HandedOut (failing ++ [.next whole]) entry ∧
      (start.steps (failing ++ [.next whole])).outcome (.awaitEntry entry) = .error e' ∧
      ¬ e'.MissesBytes := by
  have hisSome : (start.steps failing).session.store?.isSome = true := by decide +kernel
  have hfound : ((start.steps failing).session.store?.bind (·.table.get? 2)).map
      (fun s => (s.storageLength, s.length, s.pending)) = some (0, 2, []) := by decide +kernel
  have hcheckpointed : ((start.steps failing).session.store?.bind checkpointed).isSome = true := by
    decide +kernel
  have hawaited : ((start.steps failing).session.store?.bind awaited).isSome = true := by
    decide +kernel
  rcases Option.isSome_iff_exists.mp hisSome with ⟨store, hstore⟩
  have hopen := Session.eq_opened hstore
  rw [hstore] at hfound hcheckpointed hawaited
  rcases Option.map_eq_some_iff.mp hfound with ⟨s, hs, hfields⟩
  simp only [Prod.mk.injEq] at hfields
  rcases hfields with ⟨hstored, hlength, hpending⟩
  rcases (unflushed_bytes_kept failing).1 store hopen with ⟨hkept, hchecked⟩
  rcases hkept 2 s 1 hs (by omega) (by omega) (by simp [hpending]) with ⟨byte, hbyte, hcached⟩
  rcases Option.isSome_iff_exists.mp hcheckpointed with ⟨e, he⟩
  rcases Option.isSome_iff_exists.mp hawaited with ⟨⟨entry, e'⟩, he'⟩
  have hdelivers : ¬ e.MissesBytes := by
    replace he : checkpointed store = some e := he
    unfold checkpointed at he
    split at he
    · rename_i seq log hvalidate hrun
      split at he
      · rename_i failure after hfailed
        cases he
        exact hchecked _ seq log hvalidate rfl (fun _ h => nomatch h) hrun e after hfailed
      · cases he
    · cases he
  have hreported : HandedOut (failing ++ [.next whole]) entry ∧
      (start.steps (failing ++ [.next whole])).outcome (.awaitEntry entry) = .error e' := by
    replace he' : awaited store = some (entry, e') := he'
    unfold awaited at he'
    split at he'
    · rename_i handed hresult
      split at he'
      · rename_i failure hfailed
        cases he'
        exact ⟨.next hopen hresult, hfailed⟩
      · cases he'
    · cases he'
  rcases hreported with ⟨hhanded, hfailed⟩
  have hentries : ∀ other, (StoreStep.awaitEntry entry).given? = some other →
      HandedOut (failing ++ [.next whole]) other := by
    intro other hother
    cases hother
    exact hhanded
  have hsteps := (unflushed_bytes_kept (failing ++ [.next whole])).2 (.awaitEntry entry) hentries e'
  exact ⟨store, byte, e, entry, e', hopen, hbyte, hcached, he, hdelivers, hhanded, hfailed,
    hsteps hfailed⟩

end StoreRun
end TieredStore
