import TieredStore.Proofs.Store.Holding

/-!
# No wake-up is lost

In a run with readers a call is made only for a read or an entry that is held, and the
readers of a store are gone when it is closed.  Whoever waits in such a run waits for a
byte that is not there and that can still come: the step that brings the byte, or that
seals the segment, takes the waiter out and leaves its entry the one message that says so.
-/

namespace TieredStore

/-- A run of a store and what its callers hold. -/
structure ReaderRun where
  run : StoreRun
  reads : List ReadResult := []
  entries : List Entry := []

inductive ReaderStep
  /-- Begins a read. -/
  | read (id : SegmentId) (offset maxLength : Nat)
  | step (next : StoreStep)

def StoreStep.entry? : StoreStep → Option Entry
  | .awaitEntry entry => some entry
  | .pollEntry entry => some entry
  | .dropEntry entry => some entry
  | _ => none

namespace ReaderStep

def entry? : ReaderStep → Option Entry
  | .read _ _ _ => none
  | .step next => next.entry?

def keepsOpen : ReaderStep → Bool
  | .read _ _ _ => true
  | .step next => next.keepsOpen

end ReaderStep

namespace ReaderRun

def start : ReaderRun := { run := StoreRun.start }

def begin (run : ReaderRun) (store : Store FlakyTier) (id : SegmentId) (offset maxLength : Nat) :
    ReaderRun :=
  match (Store.read id offset maxLength).run store with
  | .ok read _ => { run with reads := read :: run.reads }
  | .error _ _ => run

def grants (run : ReaderRun) : StoreStep → Bool
  | .next read => decide (read ∈ run.reads)
  | .awaitEntry entry => decide (entry ∈ run.entries)
  | .pollEntry entry => decide (entry ∈ run.entries)
  | .dropEntry entry => decide (entry ∈ run.entries)
  | _ => true

def readsAfter (run : ReaderRun) (store : Store FlakyTier) : StoreStep → List ReadResult
  | .next read => (read.next store).read :: run.reads.erase read
  | .reopen _ => []
  | .close => []
  | _ => run.reads

def entriesAfter (run : ReaderRun) (store : Store FlakyTier) : StoreStep → List Entry
  | .next read => (read.next store).entries ++ run.entries
  | .awaitEntry entry => (entry.awaitContent store).entry :: run.entries.erase entry
  | .pollEntry entry => (entry.tryContent store).entry :: run.entries.erase entry
  | .dropEntry entry => run.entries.erase entry
  | .reopen _ => []
  | .close => []
  | _ => run.entries

/-- One step.  What is not held can not be asked, and nothing is held of a closed store. -/
def step (run : ReaderRun) (next : ReaderStep) : ReaderRun :=
  match run.run.session, next with
  | .closed _, .read _ _ _ => run
  | .closed _, .step next => { run := run.run.step next }
  | .opened store, .read id offset maxLength => run.begin store id offset maxLength
  | .opened store, .step next =>
      if run.grants next then
        { run := run.run.step next
          reads := run.readsAfter store next
          entries := run.entriesAfter store next }
      else run

def steps (run : ReaderRun) (list : List ReaderStep) : ReaderRun := list.foldl step run

end ReaderRun

/-! ## Steps -/

namespace StoreRun

variable {broken : Prop} {store : Store FlakyTier}

theorem minds_call {content : Contents} {α : Type} {call : StoreM FlakyTier α}
    {written : α → Contents}
    (hcall : Ends call store (fun a after => store.Minds content (written a) after)
      (fun _ after => store.Minds content content after)) :
    ∃ after,
      (StoreRun.call { session := .opened store, content } call written).session = .opened after ∧
      store.Minds content
        (StoreRun.call { session := .opened store, content } call written).content after :=
  call_opened rfl (store.Minds content) hcall

theorem minds_step {run : StoreRun} (hopen : run.session = .opened store)
    (hkept : store.Kept broken run.content) (hexpecting : store.waiters.Expecting store.table)
    {next : StoreStep} (hnext : next.keepsOpen = true) (hentry : next.entry? = none)
    (hread : ∀ read, next ≠ .next read) :
    ∃ after, (run.step next).session = .opened after ∧
      store.Minds run.content (run.step next).content after := by
  rcases run with ⟨session, content⟩
  cases hopen
  cases next with
  | reopen config => cases hnext
  | close => cases hnext
  | create name => exact minds_call (hkept.executes_minds hexpecting (hkept.executes_create name))
  | createBatch parent number =>
      exact minds_call (hkept.executes_minds hexpecting (hkept.executes_createBatch parent number))
  | append request =>
      exact minds_call (hkept.executes_minds hexpecting (Store.executes_append _ _ request))
  | sealSegment id =>
      exact minds_call (hkept.executes_minds hexpecting (Store.executes_sealSegment _ _ id))
  | merge batch parent =>
      exact minds_call (hkept.executes_minds hexpecting (Store.executes_merge _ _ batch parent))
  | truncate id offset =>
      exact minds_call (hkept.executes_minds hexpecting (Store.executes_truncate _ _ id offset))
  | flush => exact minds_call (hkept.flush_minds hexpecting)
  | checkpoint => exact minds_call (hkept.checkpoint_minds hexpecting)
  | truncateLog => exact minds_call (hkept.truncateLog_minds hexpecting)
  | flushLog => exact minds_call (hkept.onLog_minds hexpecting Log.flush)
  | next read => exact absurd rfl (hread read)
  | awaitEntry entry => cases hentry
  | pollEntry entry => cases hentry
  | dropEntry entry => cases hentry
  | settle => exact ⟨_, rfl, hkept.settle_minds hexpecting⟩
  | advance milliseconds => exact ⟨_, rfl, hkept.advance_minds hexpecting milliseconds⟩
  | switchLedgers change => exact ⟨_, rfl, .of_bookkept hexpecting hkept .refl rfl⟩
  | switchTier failReads failWrites interruptConcat =>
      exact ⟨_, rfl, .of_bookkept hexpecting hkept .refl rfl⟩

end StoreRun

namespace ReaderRun

variable {run : ReaderRun} {store : Store FlakyTier} {next : ReaderStep}

/-- What is held of the store, while it is open, is in order. -/
structure Held (run : ReaderRun) : Prop where
  bounded : run.run.content.Bounded
  holding : ∀ {store}, run.run.session = .opened store →
    Holding run.run.content store run.reads run.entries

structure Upheld (run : ReaderRun) : Prop extends run.Held where
  kept : run.run.Kept True
  orderly : run.run.session.Orderly

theorem upheld_start : start.Upheld where
  bounded := fun _ => Nat.zero_le _
  holding := nofun
  kept := StoreRun.kept_start
  orderly := trivial

/-- What a step of an open store makes of those who wait and of what is held. -/
structure Steps (run : ReaderRun) (store : Store FlakyTier) (next : ReaderStep)
    (after : Store FlakyTier) : Prop where
  opened : (run.step next).run.session = .opened after
  spares : store.Spares next.entry? run.run.content (run.step next).run.content after
  holding : Holding (run.step next).run.content after (run.step next).reads
    (run.step next).entries

theorem step_of_grants (hopen : run.run.session = .opened store) {next : StoreStep}
    (hgrants : run.grants next = true) :
    run.step (.step next) =
      { run := run.run.step next
        reads := run.readsAfter store next
        entries := run.entriesAfter store next } := by
  unfold step
  rw [hopen]
  exact if_pos hgrants

theorem step_of_not_grants (hopen : run.run.session = .opened store) {next : StoreStep}
    (hgrants : ¬ run.grants next = true) : run.step (.step next) = run := by
  unfold step
  rw [hopen]
  exact if_neg hgrants

theorem step_read (hopen : run.run.session = .opened store) (id : SegmentId)
    (offset maxLength : Nat) :
    run.step (.read id offset maxLength) = run.begin store id offset maxLength := by
  unfold step
  rw [hopen]

theorem Steps.of_grants {after : Store FlakyTier} (hopen : run.run.session = .opened store)
    {next : StoreStep} (hgrants : run.grants next = true)
    (hafter : (run.run.step next).session = .opened after)
    (h : Holding (run.run.step next).content after (run.readsAfter store next)
        (run.entriesAfter store next) ∧
      store.Spares next.entry? run.run.content (run.run.step next).content after) :
    run.Steps store (.step next) after where
  opened := by
    rw [step_of_grants hopen hgrants]
    exact hafter
  spares := by
    rw [step_of_grants hopen hgrants]
    exact h.2
  holding := by
    rw [step_of_grants hopen hgrants]
    exact h.1

theorem Upheld.steps_refl (h : run.Upheld) (hopen : run.run.session = .opened store)
    (hsame : run.step next = run) : run.Steps store next store where
  opened := by
    rw [hsame]
    exact hopen
  spares := by
    rw [hsame]
    exact .refl (h.holding hopen).expecting h.bounded _
  holding := by
    rw [hsame]
    exact h.holding hopen

theorem Upheld.steps_read (h : run.Upheld) (hopen : run.run.session = .opened store)
    (hsound : store.Sound run.run.content) (id : SegmentId) (offset maxLength : Nat) :
    run.Steps store (.read id offset maxLength) store := by
  have hholding := h.holding hopen
  have hbegin := step_read hopen id offset maxLength
  have hread := ReadResult.read_ends hsound id offset maxLength
  unfold begin at hbegin
  cases hrun : (Store.read id offset maxLength).run store with
  | error e after =>
      rw [hrun] at hbegin
      exact h.steps_refl hopen hbegin
  | ok read after =>
      rw [hrun] at hbegin
      rcases hread.ok hrun with ⟨-, hwithin, hlast⟩
      exact
        { opened := by
            rw [hbegin]
            exact hopen
          spares := by
            rw [hbegin]
            exact .refl hholding.expecting h.bounded _
          holding := by
            rw [hbegin]
            exact hholding.begin hwithin hlast }

theorem after_of_plain (run : ReaderRun) (store : Store FlakyTier) {next : StoreStep}
    (hnext : next.keepsOpen = true) (hentry : next.entry? = none)
    (hread : ∀ read, next ≠ .next read) :
    run.readsAfter store next = run.reads ∧ run.entriesAfter store next = run.entries := by
  cases next with
  | reopen config => cases hnext
  | close => cases hnext
  | next read => exact absurd rfl (hread read)
  | awaitEntry entry => cases hentry
  | pollEntry entry => cases hentry
  | dropEntry entry => cases hentry
  | _ => exact ⟨rfl, rfl⟩

theorem Upheld.steps_plain (h : run.Upheld) (hopen : run.run.session = .opened store)
    (hkept : store.Kept True run.run.content) (horderly : store.Orderly) {next : StoreStep}
    (hgrants : run.grants next = true) (hnext : next.keepsOpen = true)
    (hentry : next.entry? = none) (hread : ∀ read, next ≠ .next read) :
    ∃ after, run.Steps store (.step next) after := by
  have hholding := h.holding hopen
  rcases run.after_of_plain store hnext hentry hread with ⟨hreads, hentries⟩
  rcases StoreRun.minds_step hopen hkept hholding.expecting hnext hentry hread with
    ⟨after, hafter, hminds⟩
  have hserves : StoreRun.Serves False run.run store next :=
    StoreRun.serves_step hopen hkept horderly hnext False.elim
  rcases hserves.tends with ⟨other, hother, htends⟩
  rw [hafter] at hother
  cases hother
  have hspares := hminds.spares hholding.expecting h.bounded
  refine ⟨after, .of_grants hopen hgrants hafter ?_⟩
  rw [hreads, hentries, hentry]
  exact ⟨hholding.spared hspares htends hminds.waiters.waiting, hspares⟩

theorem Upheld.step_open (h : run.Upheld) (hopen : run.run.session = .opened store)
    (hnext : next.keepsOpen = true) : ∃ after, run.Steps store next after := by
  have hkept := StoreRun.Kept.opened h.kept hopen
  have horderly := h.orderly
  rw [hopen] at horderly
  replace horderly : store.Orderly := horderly
  have hsound := hkept.sound
  cases next with
  | read id offset maxLength => exact ⟨store, h.steps_read hopen hsound id offset maxLength⟩
  | step next =>
      by_cases hgrants : run.grants next = true
      · have hholding := h.holding hopen
        rcases run with ⟨⟨session, content⟩, reads, entries⟩
        cases hopen
        -- a call for a read or an entry has its own law, all others mind everybody
        cases next with
        | next read =>
            have hheld := hholding.next (of_decide_eq_true hgrants)
              (read.next_serves hsound horderly)
              ((hholding.within read (of_decide_eq_true hgrants)).next_hands hsound
                hholding.expecting.proper)
            exact ⟨_, .of_grants rfl hgrants rfl hheld⟩
        | awaitEntry entry =>
            have hentry := of_decide_eq_true hgrants
            have hhonest := (hholding.known entry hentry).honest
            have hserves : (entry.awaitContent store).Serves True content store :=
              Entry.awaitContent_serves (fun _ => hhonest) hsound horderly
            have hheld := hholding.resolve hentry
              (fun hheld => hheld.awaitContent hsound hholding.expecting hhonest)
              hserves.tends (hserves.honest trivial)
            exact ⟨_, .of_grants rfl hgrants rfl hheld⟩
        | pollEntry entry =>
            have hentry := of_decide_eq_true hgrants
            have hhonest := (hholding.known entry hentry).honest
            have hserves : (entry.tryContent store).Serves True content store :=
              Entry.tryContent_serves (fun _ => hhonest) hsound horderly
            have hheld := hholding.resolve hentry
              (fun hheld => hheld.tryContent hsound hholding.expecting hhonest)
              hserves.tends (hserves.honest trivial)
            exact ⟨_, .of_grants rfl hgrants rfl hheld⟩
        | dropEntry entry =>
            have hheld := hholding.drop (of_decide_eq_true hgrants)
            exact ⟨_, .of_grants rfl hgrants rfl hheld⟩
        | _ => exact h.steps_plain rfl hkept horderly hgrants hnext rfl nofun
      · exact ⟨store, h.steps_refl hopen (step_of_not_grants hopen hgrants)⟩

/-! ## Opening and closing -/

theorem waiters_of_load {host : Host FlakyTier} {config : Config}
    (h : Store.load config host = .ok store) : store.waiters = {} := by
  unfold Store.load at h
  cases hrun : Log.openIn config host.ledgers with
  | error failure =>
      rw [hrun] at h
      cases h
  | ok log =>
      rw [hrun] at h
      replace h : Store.recover config log host = .ok store := h
      unfold Store.recover at h
      extract_lets empty at h
      cases hrecover : (Container.recover log).run empty with
      | error e container =>
          rw [hrecover] at h
          cases h
      | ok stats container =>
          rw [hrecover] at h
          cases h
          rfl

theorem waiters_of_reopen {session : Session FlakyTier} {config : Config}
    (h : (session.reopen config).2 = .opened store) : store.waiters = {} := by
  unfold Session.reopen at h
  cases hload : Store.load config session.host with
  | error failure =>
      rw [hload] at h
      cases h
  | ok fresh =>
      rw [hload] at h
      cases h
      exact waiters_of_load hload

theorem step_shut (run : ReaderRun) {next : StoreStep} (hnext : next.keepsOpen = false) :
    run.step (.step next) = { run := run.run.step next } := by
  unfold step
  cases hsession : run.run.session with
  | closed host => rfl
  | opened store =>
      cases next with
      | reopen config => rfl
      | close => rfl
      | _ => cases hnext

theorem step_run (run : ReaderRun) (next : ReaderStep) :
    (run.step next).run = run.run ∨ ∃ call, (run.step next).run = run.run.step call := by
  unfold step
  split
  · exact Or.inl rfl
  · exact Or.inr ⟨_, rfl⟩
  · unfold begin
    split
    · exact Or.inl rfl
    · exact Or.inl rfl
  · split
    · exact Or.inr ⟨_, rfl⟩
    · exact Or.inl rfl

theorem content_of_closed {run : StoreRun} {host : Host FlakyTier}
    (hclosed : run.session = .closed host) (next : StoreStep) :
    (run.step next).content = run.content := by
  rcases run with ⟨session, content⟩
  cases hclosed
  cases next with
  | _ => rfl

theorem Upheld.held_closed (h : run.Upheld) {host : Host FlakyTier}
    (hclosed : run.run.session = .closed host) (hnext : next.keepsOpen = true) :
    (run.step next).Held := by
  cases next with
  | read id offset maxLength =>
      have hsame : run.step (.read id offset maxLength) = run := by
        unfold ReaderRun.step
        rw [hclosed]
      rw [hsame]
      exact h.toHeld
  | step next =>
      have hsame : run.step (.step next) = { run := run.run.step next } := by
        unfold ReaderRun.step
        rw [hclosed]
      rcases StoreRun.closed_step hclosed hnext with ⟨⟨after, hafter⟩, -⟩
      rw [hsame]
      refine ⟨?_, ?_⟩
      · rw [content_of_closed hclosed next]
        exact h.bounded
      · intro store hopen
        rw [hafter] at hopen
        cases hopen

theorem Upheld.held_shut (h : run.Upheld) {next : StoreStep} (hnext : next.keepsOpen = false) :
    (run.step (.step next)).Held := by
  rw [run.step_shut hnext]
  cases next with
  | close => exact ⟨h.bounded, nofun⟩
  | reopen config =>
      exact ⟨h.bounded, fun hopen => .nothing (waiters_of_reopen hopen) h.bounded⟩
  | _ => cases hnext

theorem Upheld.held_step (h : run.Upheld) (next : ReaderStep) : (run.step next).Held := by
  cases hnext : next.keepsOpen with
  | true =>
      cases hsession : run.run.session with
      | closed host => exact h.held_closed hsession hnext
      | opened store =>
          rcases h.step_open hsession hnext with ⟨after, hsteps⟩
          refine ⟨hsteps.spares.bounded, ?_⟩
          intro other hother
          rw [hsteps.opened] at hother
          cases hother
          exact hsteps.holding
  | false =>
      cases next with
      | read id offset maxLength => cases hnext
      | step next => exact h.held_shut hnext

theorem Upheld.step (h : run.Upheld) (next : ReaderStep) : (run.step next).Upheld := by
  have hheld := h.held_step next
  rcases run.step_run next with hsame | ⟨call, hcall⟩
  · exact
      { hheld with
        kept := by rw [hsame]; exact h.kept
        orderly := by rw [hsame]; exact h.orderly }
  · have hattends := h.kept.attends_step h.orderly call fun hfalse : False => hfalse.elim
    exact
      { hheld with
        kept := by rw [hcall]; exact h.kept.step call fun _ => trivial
        orderly := by rw [hcall]; exact hattends.1 }

/-! ## Runs -/

theorem upheld_steps (list : List ReaderStep) : (start.steps list).Upheld := by
  have hsteps : ∀ (list : List ReaderStep) (run : ReaderRun), run.Upheld →
      (run.steps list).Upheld := by
    intro list
    induction list with
    | nil => exact fun _ h => h
    | cons next rest ih => exact fun run h => ih (run.step next) (h.step next)
  exact hsteps list start upheld_start

theorem Upheld.steps_proceeds (list : List ReaderStep) :
    ∀ {run : ReaderRun} {store : Store FlakyTier}, run.Upheld →
      run.run.session = .opened store → (∀ next ∈ list, next.keepsOpen = true) →
      ∃ after, (run.steps list).run.session = .opened after ∧
        store.waiters.Proceeds after.waiters := by
  induction list with
  | nil =>
      intro run store _ hopen _
      exact ⟨store, hopen, .refl _⟩
  | cons next rest ih =>
      intro run store h hopen hlist
      rcases h.step_open hopen (hlist next List.mem_cons_self) with ⟨middle, hsteps⟩
      rcases ih (h.step next) hsteps.opened
        (fun other hother => hlist other (List.mem_cons_of_mem _ hother)) with
        ⟨after, hafter, hproceeds⟩
      exact ⟨after, hafter, hsteps.spares.proceeds.trans hproceeds⟩

/--
Whoever waits in the registry of an open store waits for a byte behind the end of a
segment that is neither sealed nor merged, and there are as many as entries are held that
wait and have not been woken.  After the next step this is so again, for each waiter whose
entry the step is not about: it waits if its segment is still open and too short, and
otherwise it is gone and its entry finds the message that says how long the segment is or
that it is sealed.  A message stays until its entry is asked or dropped, and nobody who was
woken or has left is woken again.
-/
theorem wakeups_not_lost (list : List ReaderStep) {store : Store FlakyTier}
    (hopen : (start.steps list).run.session = .opened store) :
    (∀ r ∈ store.waiters.waiting, ∃ s, store.table.get? r.segment = some s ∧
      s.sealed = false ∧ s.merged = false ∧ s.length ≤ r.offset) ∧
    store.waiters.size =
      ((start.steps list).entries.filter fun entry => entry.unwoken store).length ∧
    (∀ entry ∈ (start.steps list).entries, ∀ waiter, entry.waiter? = some waiter →
      store.waiters.look waiter ≠ .never) ∧
    (∀ next : ReaderStep, next.keepsOpen = true →
      ∃ after, ((start.steps list).step next).run.session = .opened after ∧
        (∀ r ∈ store.waiters.waiting, next.entry?.bind Entry.waiter? ≠ some r.id →
          ∃ s, after.table.get? r.segment = some s ∧ s.merged = false ∧
            r.Served s after.waiters) ∧
        ∀ id wakeup, next.entry?.bind Entry.waiter? ≠ some id →
          store.waiters.look id = .message wakeup → after.waiters.look id = .message wakeup) ∧
    ∀ more : List ReaderStep, (∀ next ∈ more, next.keepsOpen = true) →
      ∃ after, ((start.steps list).steps more).run.session = .opened after ∧
        (∀ id < store.waiters.nextId, (store.waiters.look id).Leads (after.waiters.look id)) ∧
        ∀ r ∈ after.waiters.waiting, r.id < store.waiters.nextId →
          ∃ other ∈ store.waiters.waiting, other.id = r.id := by
  have hupheld := upheld_steps list
  have hholding := hupheld.holding hopen
  have hproper := hholding.expecting.proper
  refine ⟨hholding.expecting.lacks, hholding.size_eq, ?_, ?_, ?_⟩
  · exact fun entry hentry waiter hwaiter => hholding.look_ne_never hentry hwaiter
  · intro next hnext
    rcases hupheld.step_open hopen hnext with ⟨after, hsteps⟩
    refine ⟨after, hsteps.opened, hsteps.spares.served, ?_⟩
    exact fun id wakeup hother hlook => hsteps.spares.messages hother hlook
  · intro more hmore
    rcases hupheld.steps_proceeds more hopen hmore with ⟨after, hafter, hproceeds⟩
    refine ⟨after, hafter, hproceeds.leads hproper, ?_⟩
    exact fun r hr hid => hproceeds.was_waiting hproper hr hid

/-- A read of an empty segment waits for the first byte, which is then appended. -/
private def awaiting : List ReaderStep :=
  [.step (.reopen {}), .step (.create "a"), .read 1 0 4,
    .step (.next { segment := 1, start := 0, maxLength := 4, finished := false })]

theorem wakeups_not_lost_awaiting :
    ∃ store after, (start.steps awaiting).run.session = .opened store ∧
      ((start.steps awaiting).entries.filter fun entry => entry.unwoken store).length = 1 ∧
      ((start.steps awaiting).step (.step (.append ⟨1, 7, 1, [97, 98]⟩))).run.session =
        .opened after ∧
      after.waiters.look 0 = .message (.appended 2) := by
  have hisSome : (start.steps awaiting).run.session.store?.isSome = true := by decide +kernel
  have hwaiting : (start.steps awaiting).run.session.store?.map (·.waiters.waiting) =
      some [⟨0, 1, 0⟩] := by decide +kernel
  have hgrown : (((start.steps awaiting).step
      (.step (.append ⟨1, 7, 1, [97, 98]⟩))).run.session.store?.bind (·.table.get? 1)).map
        (·.length) = some 2 := by decide +kernel
  rcases Option.isSome_iff_exists.mp hisSome with ⟨store, hstore⟩
  have hopen := Session.eq_opened hstore
  rw [hstore] at hwaiting
  replace hwaiting : store.waiters.waiting = [⟨0, 1, 0⟩] := Option.some.inj hwaiting
  rcases wakeups_not_lost awaiting hopen with ⟨-, hsize, -, hstep, -⟩
  rcases hstep (.step (.append ⟨1, 7, 1, [97, 98]⟩)) rfl with ⟨after, hafter, hserved, -⟩
  rcases hserved ⟨0, 1, 0⟩ (by rw [hwaiting]; exact List.mem_singleton_self _) nofun with
    ⟨s, hs, -, hwaiter⟩
  rw [hafter] at hgrown
  replace hgrown : (after.table.get? 1).map (·.length) = some 2 := hgrown
  replace hs : after.table.get? 1 = some s := hs
  rw [hs] at hgrown
  replace hgrown : s.length = 2 := Option.some.inj hgrown
  refine ⟨store, after, hopen, ?_, hafter, ?_⟩
  · rw [← hsize]
    exact congrArg List.length hwaiting
  · rw [← hgrown]
    cases hwaiter with
    | appended _ _ hlook => exact hlook
    | waits _ hshort _ _ =>
        rw [hgrown] at hshort
        exact absurd hshort (by decide)
    | ended _ hshort _ _ =>
        rw [hgrown] at hshort
        exact absurd hshort (by decide)

end ReaderRun
end TieredStore
