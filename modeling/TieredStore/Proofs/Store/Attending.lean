import TieredStore.Proofs.Container.Tidying
import TieredStore.Proofs.Store.Answering
import TieredStore.Proofs.Store.Run

/-!
# Runs attend to a store

While the store of a run stays open, every step tends it, whatever the step is given
and however it ends.  An opened store is orderly to begin with, so it is orderly at
any time.  No step fails for want of bytes, if the entries that it is given are
honest.
-/

namespace TieredStore

open Chapter (history)

/-! ## Opening -/

namespace Store

variable {broken : Prop} {content : Contents} {host : Host FlakyTier}

/-- What recovery makes of the cache and of those who wait. -/
structure Fresh (config : Config) (store : Store FlakyTier) : Prop where
  orderly : store.Orderly
  maxSize_eq : store.container.cache.maxSize = config.cacheMaxSize
  marked : ∀ s ∈ store.table.list, store.container.Marked s

theorem load_fresh (h : host.Kept broken content) (config : Config) :
    match load config host with
    | .ok store => store.Fresh config
    | .error (e, _) => ¬ e.MissesBytes := by
  rcases h with ⟨replayed, live, hleads, -⟩
  rcases hleads with ⟨first, chapters, tail, hkeeps, -⟩
  have hopen := Log.openIn_keeps hkeeps config
  unfold load
  cases hrun : Log.openIn config host.ledgers with
  | error failure => exact Log.neverMisses_openIn hrun
  | ok log =>
      rw [hrun] at hopen
      have hholds : log.Holds first chapters [] := hopen
      let empty : Container FlakyTier :=
        { cache := { maxSize := config.cacheMaxSize }, tier := host.tier }
      have htidies := Container.recover_tidies hholds.records_recent empty
      have hmarked := Container.recover_marked log empty
      simp only
      unfold recover
      simp only
      cases hrun' : (Container.recover log).run empty with
      | ok stats container =>
          have htidy := htidies.ok hrun'
          exact
            { orderly :=
                { cache := htidy.orderly (Cache.orderly_empty _)
                  numbered := Waiters.numbered_empty
                  delivering := Fetches.delivering_empty }
              maxSize_eq := htidy.maxSize_eq
              marked := hmarked.ok hrun' }
      | error e container => exact (htidies.error hrun').2

end Store

def Session.Orderly : Session FlakyTier → Prop
  | .closed _ => True
  | .opened store => store.Orderly

def StoreStep.keepsOpen : StoreStep → Bool
  | .reopen _ => false
  | .close => false
  | _ => true

def StoreStep.given? : StoreStep → Option Entry
  | .awaitEntry entry => some entry
  | .pollEntry entry => some entry
  | _ => none

namespace StoreRun

/-! ## What a step reports -/

def calling {α : Type} (run : StoreRun) (call : StoreM FlakyTier α) : Except Error Unit :=
  match run.session with
  | .closed _ => .ok ()
  | .opened store =>
      match call.run store with
      | .ok _ _ => .ok ()
      | .error e _ => .error e

def answering {α : Type} (run : StoreRun) (part : Store FlakyTier → Except Error α) :
    Except Error Unit :=
  match run.session with
  | .closed _ => .ok ()
  | .opened store => (part store).map fun _ => ()

def outcome (run : StoreRun) : StoreStep → Except Error Unit
  | .reopen config => (run.session.reopen config).1.map fun _ => ()
  | .close => .ok ()
  | .create name => run.calling (Store.create name)
  | .createBatch parent number => run.calling (Store.createBatch parent number)
  | .append request => run.calling (Store.append request)
  | .sealSegment id => run.calling (Store.sealSegment id)
  | .merge batch parent => run.calling (Store.merge batch parent)
  | .truncate id offset => run.calling (Store.truncate id offset)
  | .flush => run.calling Store.flush
  | .checkpoint => run.calling Store.checkpoint
  | .truncateLog => run.calling Store.truncateLog
  | .flushLog => run.calling (Store.onLog Log.flush)
  | .next read => run.answering fun store => (read.next store).result
  | .awaitEntry entry => run.answering fun store => (entry.awaitContent store).result
  | .pollEntry entry => run.answering fun store => (entry.tryContent store).result
  | .dropEntry _ => .ok ()
  | .settle => .ok ()
  | .advance _ => .ok ()
  | .switchLedgers _ => .ok ()
  | .switchTier _ _ _ => .ok ()

/-! ## Steps -/

-- `genuine` says that the entries which a step is given come from the store; the
-- store is tended also if they do not
variable {broken genuine : Prop} {store : Store FlakyTier}

/-- The store stays open and is tended; a genuine step does not fail for want of bytes. -/
structure Serves (genuine : Prop) (run : StoreRun) (store : Store FlakyTier) (next : StoreStep) :
    Prop where
  tends : ∃ after, (run.step next).session = .opened after ∧
    store.Tends run.content (run.step next).content after
  delivers : genuine → Delivers (run.outcome next)

theorem delivers_map {α β : Type} {result : Except Error α} (h : Delivers result) (f : α → β) :
    Delivers (result.map f) := by
  cases result with
  | ok a => exact .ok _
  | error e => exact .error (h e rfl)

theorem serves_call {content : Contents} {α : Type} {next : StoreStep} {call : StoreM FlakyTier α}
    {written : α → Contents}
    (hcall : Ends call store (fun a after => store.Tends content (written a) after)
      (fun e after => store.Tends content content after ∧ ¬ e.MissesBytes))
    (hstep : step { session := .opened store, content } next =
      StoreRun.call { session := .opened store, content } call written)
    (houtcome : outcome { session := .opened store, content } next =
      calling { session := .opened store, content } call) :
    Serves genuine { session := .opened store, content } store next := by
  refine ⟨?_, fun _ => ?_⟩
  · rw [hstep]
    refine call_opened rfl (store.Tends content) (hcall.mono ?_ ?_)
    · intro _ after hafter
      exact hafter
    · intro _ after hafter
      exact hafter.1
  · rw [houtcome]
    unfold StoreRun.calling
    simp only
    cases hrun : call.run store with
    | ok a after => exact .ok ()
    | error e after => exact .error (hcall.error hrun).2

theorem serves_step {run : StoreRun} (hopen : run.session = .opened store)
    (hkept : store.Kept broken run.content) (horderly : store.Orderly) {next : StoreStep}
    (hnext : next.keepsOpen = true)
    (hentry : genuine → ∀ entry, next.given? = some entry → entry.Honest run.content store) :
    Serves genuine run store next := by
  have hsound := hkept.sound
  rcases run with ⟨session, content⟩
  cases hopen
  cases next with
  | reopen config => cases hnext
  | close => cases hnext
  | create name => exact serves_call (hkept.executes_tends (hkept.executes_create name)) rfl rfl
  | createBatch parent number =>
      exact serves_call (hkept.executes_tends (hkept.executes_createBatch parent number)) rfl rfl
  | append request =>
      exact serves_call (hkept.executes_tends (Store.executes_append _ _ request)) rfl rfl
  | sealSegment id =>
      exact serves_call (hkept.executes_tends (Store.executes_sealSegment _ _ id)) rfl rfl
  | merge batch parent =>
      exact serves_call (hkept.executes_tends (Store.executes_merge _ _ batch parent)) rfl rfl
  | truncate id offset =>
      exact serves_call (hkept.executes_tends (Store.executes_truncate _ _ id offset)) rfl rfl
  | flush => exact serves_call hkept.flush_tends rfl rfl
  | checkpoint => exact serves_call hkept.checkpoint_tends rfl rfl
  | truncateLog => exact serves_call (Store.truncateLog_tends store) rfl rfl
  | flushLog => exact serves_call (Store.onLog_tends Log.neverMisses_flush) rfl rfl
  | next read =>
      have hserves := ReadResult.next_serves read hsound horderly
      exact ⟨⟨_, rfl, hserves.tends⟩, fun _ => delivers_map hserves.delivers _⟩
  | awaitEntry entry =>
      have hserves := Entry.awaitContent_serves (fun hgenuine => hentry hgenuine entry rfl) hsound
        horderly
      exact ⟨⟨_, rfl, hserves.tends⟩, fun hgenuine => delivers_map (hserves.delivers hgenuine) _⟩
  | pollEntry entry =>
      have hserves := Entry.tryContent_serves (fun hgenuine => hentry hgenuine entry rfl) hsound
        horderly
      exact ⟨⟨_, rfl, hserves.tends⟩, fun hgenuine => delivers_map (hserves.delivers hgenuine) _⟩
  | dropEntry entry => exact ⟨⟨_, rfl, Entry.drop_tends entry store⟩, fun _ => .ok ()⟩
  | settle => exact ⟨⟨_, rfl, Store.settle_tends store⟩, fun _ => .ok ()⟩
  | advance milliseconds =>
      exact ⟨⟨_, rfl, Store.advance_tends store milliseconds⟩, fun _ => .ok ()⟩
  | switchLedgers change => exact ⟨⟨_, rfl, .refl _, fun h => h, .refl _ _⟩, fun _ => .ok ()⟩
  | switchTier failReads failWrites interruptConcat =>
      exact ⟨⟨_, rfl, .with_tier _ _, fun h => h, .refl _ _⟩, fun _ => .ok ()⟩

theorem closed_step {run : StoreRun} {host : Host FlakyTier} (hclosed : run.session = .closed host)
    {next : StoreStep} (hnext : next.keepsOpen = true) :
    (∃ after, (run.step next).session = .closed after) ∧ run.outcome next = .ok () := by
  rcases run with ⟨session, content⟩
  cases hclosed
  cases next with
  | reopen config => cases hnext
  | close => cases hnext
  | _ => exact ⟨⟨_, rfl⟩, rfl⟩

/-! ## Runs -/

/-- A step leaves an open store orderly; a genuine one does not fail for want of bytes. -/
theorem Kept.attends_step {run : StoreRun} (h : run.Kept broken) (horderly : run.session.Orderly)
    (next : StoreStep)
    (hentry : genuine → ∀ store, run.session = .opened store →
      ∀ entry, next.given? = some entry → entry.Honest run.content store) :
    (run.step next).session.Orderly ∧ (genuine → Delivers (run.outcome next)) := by
  by_cases hnext : next.keepsOpen = true
  · unfold Kept at h
    cases hsession : run.session with
    | closed host =>
        rcases closed_step hsession hnext with ⟨⟨after, hafter⟩, houtcome⟩
        rw [hafter, houtcome]
        exact ⟨trivial, fun _ => .ok ()⟩
    | opened store =>
        rw [hsession] at h horderly
        have hserves := serves_step hsession h horderly hnext fun hgenuine =>
          hentry hgenuine store hsession
        rcases hserves.tends with ⟨after, hafter, htends⟩
        rw [hafter]
        exact ⟨Store.Orderly.tends horderly htends, hserves.delivers⟩
  · cases next with
    | close => exact ⟨trivial, fun _ => .ok ()⟩
    | reopen config =>
        have hload := Store.load_fresh (Session.Kept.host h) config
        show (run.session.reopen config).2.Orderly ∧
          (genuine → Delivers ((run.session.reopen config).1.map fun _ => ()))
        unfold Session.reopen
        cases hrun : Store.load config run.session.host with
        | ok store =>
            rw [hrun] at hload
            exact ⟨hload.orderly, fun _ => .ok ()⟩
        | error failure =>
            rw [hrun] at hload
            exact ⟨trivial, fun _ => .error hload⟩
    | _ => exact absurd rfl hnext

theorem orderly_steps (list : List StoreStep) : (start.steps list).session.Orderly := by
  -- the contents are needed beside, as a flush relies on them
  have hsteps : ∀ (list : List StoreStep) (run : StoreRun), run.Kept True → run.session.Orderly →
      (run.steps list).session.Orderly := by
    intro list
    induction list with
    | nil => exact fun _ _ horderly => horderly
    | cons next rest ih =>
        intro run hkept horderly
        have hattends := hkept.attends_step horderly next (fun hfalse : False => hfalse.elim)
        exact ih _ (hkept.step next fun _ => trivial) hattends.1
  exact hsteps list start kept_start trivial

theorem orderly_of_opened (list : List StoreStep)
    (hopen : (start.steps list).session = .opened store) : store.Orderly := by
  have horderly := orderly_steps list
  rw [hopen] at horderly
  exact horderly

theorem fresh_of_opened (list : List StoreStep) {config : Config}
    (hopen : (start.steps (list ++ [.reopen config])).session = .opened store) :
    store.Fresh config := by
  have hkept : (start.steps list).Kept True := kept_start.steps list fun _ => trivial
  have hload := Store.load_fresh (Session.Kept.host hkept) config
  rw [steps_append] at hopen
  replace hopen : ((start.steps list).session.reopen config).2 = .opened store := hopen
  unfold Session.reopen at hopen
  cases hrun : Store.load config (start.steps list).session.host with
  | ok other =>
      rw [hrun] at hload hopen
      cases hopen
      exact hload
  | error failure =>
      rw [hrun] at hopen
      cases hopen

theorem Kept.steps_tends (list : List StoreStep) :
    ∀ {run : StoreRun} {store : Store FlakyTier}, run.Kept True → run.session = .opened store →
      store.Orderly → (∀ next ∈ list, next.keepsOpen = true) →
      ∃ after, (run.steps list).session = .opened after ∧
        store.Tends run.content (run.steps list).content after := by
  induction list with
  | nil =>
      intro run store _ hopen _ _
      exact ⟨store, hopen, .refl _ store⟩
  | cons next rest ih =>
      intro run store hkept hopen horderly hlist
      have hstore := hkept.opened hopen
      have hserves : Serves False run store next :=
        serves_step hopen hstore horderly (hlist next List.mem_cons_self) False.elim
      rcases hserves.tends with ⟨middle, hmiddle, htends⟩
      rcases ih (hkept.step next fun _ => trivial) hmiddle (horderly.tends htends)
        (fun other hother => hlist other (List.mem_cons_of_mem _ hother)) with
        ⟨after, hafter, hrest⟩
      exact ⟨after, hafter, htends.trans hrest⟩

end StoreRun
end TieredStore
