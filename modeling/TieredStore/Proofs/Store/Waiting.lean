import TieredStore.Proofs.Store.Invariant
import TieredStore.Read.Result

/-!
# Reads leave a store as it is

Reads change which blocks of a store are cached, its clock, and what is noted of
reads, waiters and entries, but nothing of the log, of the segments, of the
objects and of the contents.  This holds for any read and for any entry at any
time, whether its bytes come, fail or keep waiting.
-/

namespace TieredStore
namespace Store

/-- All bytes of the store are in their places, and its reads of the tier are valid. -/
structure Sound (content : Contents) (store : Store FlakyTier) : Prop where
  container : store.container.Sound content
  fetches : store.fetches.Sane store.container.table

/-- The log, the segments and the objects are as before. -/
structure Unmoved (content : Contents) (store after : Store FlakyTier) : Prop where
  log_eq : after.log = store.log
  container : Container.Unmoved content store.container after.container
  fetches : after.fetches.Sane store.container.table

variable {broken : Prop} {content : Contents} {store middle after : Store FlakyTier}

theorem Kept.sound (h : store.Kept broken content) : store.Sound content := by
  rcases h with ⟨replayed, h⟩
  exact ⟨h.tracked.sound, h.fetches⟩

namespace Unmoved

theorem refl (h : store.Sound content) : store.Unmoved content store :=
  ⟨rfl, Container.Unmoved.refl h.container, h.fetches⟩

theorem sound (h : store.Unmoved content after) : after.Sound content where
  container := h.container.sound
  fetches := by
    rw [h.container.table_eq]
    exact h.fetches

theorem trans (h : store.Unmoved content middle) (hafter : middle.Unmoved content after) :
    store.Unmoved content after where
  log_eq := hafter.log_eq.trans h.log_eq
  container := h.container.trans hafter.container
  fetches := by
    rw [← h.container.table_eq]
    exact hafter.fetches

theorem kept (h : store.Unmoved content after) (hstore : store.Kept broken content) :
    after.Kept broken content := by
  rcases hstore with ⟨replayed, hstore⟩
  refine ⟨replayed, { leads := ?_, tracked := h.container.tracked hstore.tracked, joins := ?_,
                      fetches := ?_ }⟩
  · rw [h.log_eq]
    exact hstore.leads
  · intro hbreak
    exact hstore.joins (h.container.tier_same.interruptConcat_eq.symm.trans hbreak)
  · rw [h.container.table_eq]
    exact h.fetches

theorem noting (h : store.Unmoved content after) (waiters : Waiters) (statuses : List EntryStatus)
    (now : Nat) (orphans : List FetchRequest) :
    store.Unmoved content { after with waiters, statuses, now, orphans } :=
  ⟨h.log_eq, h.container, h.fetches⟩

end Unmoved

/-! ## Reads of the tier -/

theorem Sound.with_container (h : store.Sound content) {container : Container FlakyTier}
    (hcontainer : store.container.Unmoved content container) :
    store.Unmoved content { store with container } :=
  ⟨rfl, hcontainer, h.fetches⟩

theorem Sound.startFetch_fresh (h : store.Sound content) (request : FetchRequest) :
    (store.startFetch request).2.fetches.arrived.get? store.fetches.nextTicket = none := by
  cases harrived : store.fetches.arrived.get? store.fetches.nextTicket with
  | none => exact harrived
  | some outcome => exact absurd (h.fetches.arrived_lt harrived) (Nat.lt_irrefl _)

theorem Sound.startFetch (h : store.Sound content) {request : FetchRequest}
    (hvalid : request.Valid store.container.table) :
    store.Unmoved content (store.startFetch request).2 := by
  refine ⟨rfl, Container.Unmoved.refl h.container, ?_⟩
  refine { valid := ?_, queue_lt := ?_, arrived_lt := ?_, nodup := ?_, unsent := ?_ }
  · intro fetch hfetch
    rcases List.mem_append.mp hfetch with hold | hnew
    · exact h.fetches.valid fetch hold
    · rw [List.mem_singleton.mp hnew]
      exact hvalid
  · intro fetch hfetch
    rcases List.mem_append.mp hfetch with hold | hnew
    · exact Nat.lt_succ_of_lt (h.fetches.queue_lt fetch hold)
    · rw [List.mem_singleton.mp hnew]
      exact Nat.lt_succ_self _
  · intro ticket outcome hget
    exact Nat.lt_succ_of_lt (h.fetches.arrived_lt hget)
  · show ((store.fetches.queue ++ [(store.fetches.nextTicket, request)]).map (·.1)).Nodup
    rw [List.map_append, List.map_singleton]
    refine List.nodup_append.mpr ⟨h.fetches.nodup, List.pairwise_singleton _ _, ?_⟩
    intro ticket hold new hnew
    rcases List.mem_map.mp hold with ⟨fetch, hfetch, rfl⟩
    rw [List.mem_singleton.mp hnew]
    exact Nat.ne_of_lt (h.fetches.queue_lt fetch hfetch)
  · intro fetch hfetch
    rcases List.mem_append.mp hfetch with hold | hnew
    · exact h.fetches.unsent fetch hold
    · rw [List.mem_singleton.mp hnew]
      exact h.startFetch_fresh request

theorem Sound.takeOutcome (h : store.Sound content) (ticket : Nat) :
    store.Unmoved content (store.takeOutcome ticket).2 := by
  refine ⟨rfl, Container.Unmoved.refl h.container, ?_⟩
  have herased : ∀ {other outcome},
      (store.fetches.arrived.erase ticket).get? other = some outcome →
      store.fetches.arrived.get? other = some outcome := by
    intro other outcome hget
    rw [SortedMap.get?_erase] at hget
    split at hget
    · cases hget
    · exact hget
  refine { h.fetches with arrived_lt := ?_, unsent := ?_ }
  · exact fun hget => h.fetches.arrived_lt (herased hget)
  · intro fetch hfetch
    show (store.fetches.arrived.erase ticket).get? fetch.1 = none
    cases hget : (store.fetches.arrived.erase ticket).get? fetch.1 with
    | none => rfl
    | some outcome =>
        have hthere := herased hget
        rw [h.fetches.unsent fetch hfetch] at hthere
        cases hthere

theorem Sane.arrive {table : Table} {fetches : Fetches} (h : fetches.Sane table)
    (hqueue : fetches.queue = []) {ticket : Nat} (hlt : ticket < fetches.nextTicket)
    (outcome : Except Error Bytes) :
    Fetches.Sane table { fetches with arrived := fetches.arrived.insert ticket outcome } := by
  refine Fetches.sane_of_idle hqueue ?_
  intro other outcome' hget
  by_cases hother : other = ticket
  · rw [hother]
    exact hlt
  · have hget : (fetches.arrived.insert ticket outcome).get? other = some outcome' := hget
    rw [SortedMap.get?_insert_of_ne _ hother] at hget
    exact h.arrived_lt hget

theorem runFetch_same (store : Store FlakyTier) (fetch : Nat × FetchRequest) :
    store.runFetch fetch =
      { store with
        container := (store.runFetch fetch).container
        fetches :=
          { store.fetches with arrived := (store.runFetch fetch).fetches.arrived } } := by
  unfold runFetch
  cases (Container.fetch fetch.2).run store.container with
  | ok data container => rfl
  | error e container => rfl

theorem runFetches_same (queue : List (Nat × FetchRequest)) (store : Store FlakyTier) :
    queue.foldl runFetch store =
      { store with
        container := (queue.foldl runFetch store).container
        fetches := (queue.foldl runFetch store).fetches } := by
  induction queue generalizing store with
  | nil => rfl
  | cons fetch rest ih =>
      rw [List.foldl_cons, ih, runFetch_same]

theorem Sound.runFetch (h : store.Sound content) (hqueue : store.fetches.queue = [])
    {fetch : Nat × FetchRequest} (hvalid : fetch.2.Valid store.container.table)
    (hlt : fetch.1 < store.fetches.nextTicket) :
    store.Unmoved content (store.runFetch fetch) := by
  have hfetch := h.container.fetch_ends hvalid
  unfold Store.runFetch
  cases hrun : (Container.fetch fetch.2).run store.container with
  | ok data container => exact ⟨rfl, (hfetch.ok hrun).1, Sane.arrive h.fetches hqueue hlt _⟩
  | error e container => exact ⟨rfl, (hfetch.error hrun).1, Sane.arrive h.fetches hqueue hlt _⟩

theorem Sound.runFetches (queue : List (Nat × FetchRequest)) :
    ∀ {store : Store FlakyTier}, store.Sound content → store.fetches.queue = [] →
      (∀ fetch ∈ queue, fetch.2.Valid store.container.table ∧
        fetch.1 < store.fetches.nextTicket) →
      store.Unmoved content (queue.foldl Store.runFetch store) := by
  induction queue with
  | nil =>
      intro store h _ _
      exact Unmoved.refl h
  | cons fetch rest ih =>
      intro store h hidle hqueue
      rcases hqueue fetch List.mem_cons_self with ⟨hvalid, hlt⟩
      have hunmoved := h.runFetch hidle hvalid hlt
      have hnoted := congrArg Store.fetches (runFetch_same store fetch)
      refine hunmoved.trans (ih hunmoved.sound ?_ ?_)
      · rw [hnoted]
        exact hidle
      · intro other hother
        rw [hunmoved.container.table_eq, hnoted]
        exact hqueue other (List.mem_cons_of_mem _ hother)

def idle (store : Store FlakyTier) : Store FlakyTier :=
  { store with
    container := { store.container with tier := runOrphans store.container.tier store.orphans }
    orphans := []
    fetches := { store.fetches with queue := [] } }

theorem settle_same (store : Store FlakyTier) :
    store.settle =
      { store with
        container := store.settle.container
        fetches := store.settle.fetches
        orphans := [] } :=
  runFetches_same store.fetches.queue store.idle

theorem settle_waiters (store : Store FlakyTier) : store.settle.waiters = store.waiters := by
  rw [settle_same]

theorem settle_statuses (store : Store FlakyTier) : store.settle.statuses = store.statuses := by
  rw [settle_same]

theorem settle_now (store : Store FlakyTier) : store.settle.now = store.now := by
  rw [settle_same]

theorem settle_orphans (store : Store FlakyTier) : store.settle.orphans = [] := by
  rw [settle_same]

theorem Sound.idle (h : store.Sound content) : store.Unmoved content store.idle := by
  have hsame := FlakyTier.runOrphans_same store.container.tier store.orphans
  have hstored := h.container.stored.of_same hsame.object?_eq
  refine ⟨rfl, ⟨h.container.with_tier hstored, rfl, hsame⟩, ?_⟩
  exact Fetches.sane_of_idle rfl h.fetches.arrived_lt

theorem Sound.settle (h : store.Sound content) : store.Unmoved content store.settle := by
  have hidle := h.idle
  refine hidle.trans (runFetches store.fetches.queue hidle.sound rfl ?_)
  intro fetch hfetch
  exact ⟨h.fetches.valid fetch hfetch, h.fetches.queue_lt fetch hfetch⟩

theorem Sound.advance (h : store.Sound content) (milliseconds : Nat) :
    store.Unmoved content (store.advance milliseconds) :=
  h.settle.noting _ _ _ _

def fetched {τ : Type} [Tier τ] (store : Store τ) (ticket : Nat) : Store τ :=
  if store.fetches.arrived.contains ticket then store else store.settle

def waitedTo {τ : Type} [Tier τ] (store : Store τ) (deadline : Nat) : Store τ :=
  if deadline ≤ store.now then store else { store.settle with now := deadline }

theorem fetched_waiters (store : Store FlakyTier) (ticket : Nat) :
    (store.fetched ticket).waiters = store.waiters := by
  unfold fetched
  split
  · rfl
  · exact store.settle_waiters

theorem waitedTo_waiters (store : Store FlakyTier) (deadline : Nat) :
    (store.waitedTo deadline).waiters = store.waiters := by
  unfold waitedTo
  split
  · rfl
  · exact store.settle_waiters

theorem Sound.fetched (h : store.Sound content) (ticket : Nat) :
    store.Unmoved content (store.fetched ticket) := by
  unfold Store.fetched
  split
  · exact Unmoved.refl h
  · exact h.settle

theorem Sound.waitedTo (h : store.Sound content) (deadline : Nat) :
    store.Unmoved content (store.waitedTo deadline) := by
  unfold Store.waitedTo
  split
  · exact Unmoved.refl h
  · exact h.settle.noting _ _ _ _

end Store

/-! ## What an entry gets, by what it waits for -/

namespace Entry

variable {entry : Entry} {store : Store FlakyTier} {ticket waiter deadline : Nat}
  {segment : SegmentId} {wakeup : Wakeup}

theorem awaitContent_of_fetch (hwait : entry.wait = some (.fetch ticket)) (store : Store FlakyTier) :
    entry.awaitContent store = entry.awaitFetch ticket store := by
  unfold awaitContent
  rw [hwait]

theorem awaitContent_of_wakeup (hwait : entry.wait = some (.wakeup waiter segment deadline))
    (store : Store FlakyTier) :
    entry.awaitContent store = entry.awaitWakeup waiter segment deadline store := by
  unfold awaitContent
  rw [hwait]

theorem tryContent_of_wakeup (hwait : entry.wait = some (.wakeup waiter segment deadline))
    (store : Store FlakyTier) :
    entry.tryContent store = entry.tryWakeup waiter segment deadline store := by
  unfold tryContent
  rw [hwait]

theorem tryContent_of_none (hwait : entry.wait = none) (store : Store FlakyTier) :
    entry.tryContent store = (entry.awaitContent store).found := by
  unfold tryContent awaitContent
  rw [hwait]
  rfl

theorem awaitFetch_eq {τ : Type} [Tier τ] (entry : Entry) (ticket : Nat) (store : Store τ) :
    entry.awaitFetch ticket store =
      entry.settled (((store.fetched ticket).takeOutcome ticket).1.getD (.error .closed))
        ((store.fetched ticket).takeOutcome ticket).2 := by
  unfold awaitFetch Store.takeOutcome Store.fetched
  extract_lets ready
  simp only
  cases ready.fetches.arrived.get? ticket with
  | some result => rfl
  | none => rfl

theorem awaitFetch_of_get? {result : Except Error Bytes}
    (h : store.fetches.arrived.get? ticket = some result) :
    entry.awaitFetch ticket store = entry.settled result (store.takeOutcome ticket).2 := by
  have hcontains : store.fetches.arrived.contains ticket = true :=
    SortedMap.contains_eq_true_iff.mpr ⟨result, h⟩
  have hfetched : store.fetched ticket = store := if_pos hcontains
  rw [awaitFetch_eq, hfetched, show (store.takeOutcome ticket).1 = some result from h]
  rfl

theorem awaitFetch_of_none (h : store.fetches.arrived.get? ticket = none) :
    entry.awaitFetch ticket store =
      entry.settled ((store.settle.fetches.arrived.get? ticket).getD (.error .closed))
        (store.settle.takeOutcome ticket).2 := by
  have hcontains : ¬ store.fetches.arrived.contains ticket = true := by
    intro hthere
    rcases SortedMap.contains_eq_true_iff.mp hthere with ⟨result, hresult⟩
    rw [h] at hresult
    cases hresult
  have hfetched : store.fetched ticket = store.settle := if_neg hcontains
  rw [awaitFetch_eq, hfetched]
  rfl

theorem tryFetch_eq (hwait : entry.wait = some (.fetch ticket)) :
    entry.tryContent store =
      match store.fetches.arrived.get? ticket with
      | some result => (entry.settled result (store.takeOutcome ticket).2).found
      | none =>
          if store.fetches.expects ticket then { result := .ok none, entry, store }
          else (entry.settled (.error .closed) store).found := by
  unfold tryContent Store.takeOutcome
  rw [hwait]
  simp only
  cases store.fetches.arrived.get? ticket with
  | some result => rfl
  | none => rfl

theorem of_failureOf?_eq_none {offset : Nat} (h : failureOf? wakeup segment offset = none) :
    ∃ length, wakeup = .appended length := by
  cases wakeup with
  | appended length => exact ⟨length, rfl⟩
  | «sealed» => cases h
  | merged => cases h

theorem ends_readWoken {τ : Type} [Tier τ] {c : Container τ} {offset count maxRead : Nat}
    {answered : Bytes → Container τ → Prop} {failed : Error → Container τ → Prop}
    (h : Ends (Container.lookupWoken segment offset count maxRead) c
      (fun found middle => (∀ data, found = .cached data → answered data middle) ∧
        ∀ request, found = .stored request →
          Ends (Container.fetch request) middle answered failed)
      failed) :
    Ends (readWoken segment offset count maxRead) c answered failed := by
  unfold readWoken
  refine Ends.bind (h.mono ?_ fun _ _ hfailed => hfailed)
  intro found middle hfound
  cases found with
  | cached data => exact Ends.pure (hfound.1 data rfl)
  | stored request => exact hfound.2 request rfl

/-- Whoever looks is told of a failure, or of bytes that were found, or asks the tier for them. -/
theorem tryWoken_cases {τ : Type} [Tier τ] (entry : Entry) (segment : SegmentId) (wakeup : Wakeup)
    (store : Store τ) :
    (∃ e, failureOf? wakeup segment entry.offset = some e ∧
      entry.tryWoken segment wakeup store = (entry.settled (.error e) store).found) ∨
    ∃ length, wakeup = .appended length ∧
      ((∃ e container,
        (Container.lookupWoken segment entry.offset entry.requested
          store.config.maxStorageReadSize).run store.container = .error e container ∧
        entry.tryWoken segment wakeup store =
          (entry.settled (.error e) { store with container }).found) ∨
      (∃ data container,
        (Container.lookupWoken segment entry.offset entry.requested
          store.config.maxStorageReadSize).run store.container = .ok (.cached data) container ∧
        entry.tryWoken segment wakeup store =
          (entry.settled (.ok data) { store with container }).found) ∨
      ∃ request container,
        (Container.lookupWoken segment entry.offset entry.requested
          store.config.maxStorageReadSize).run store.container = .ok (.stored request) container ∧
        entry.tryWoken segment wakeup store =
          { result := .ok none
            entry := { entry with wait := some (.fetch store.fetches.nextTicket) }
            store := (Store.startFetch request { store with container }).2 }) := by
  unfold tryWoken
  cases hfailure : failureOf? wakeup segment entry.offset with
  | some e => exact Or.inl ⟨e, rfl, rfl⟩
  | none =>
      rcases of_failureOf?_eq_none hfailure with ⟨length, hlength⟩
      refine Or.inr ⟨length, hlength, ?_⟩
      dsimp only
      unfold calling
      cases hrun : (Container.lookupWoken segment entry.offset entry.requested
          store.config.maxStorageReadSize).run store.container with
      | error e container => exact Or.inl ⟨e, container, rfl, rfl⟩
      | ok found container =>
          cases found with
          | cached data => exact Or.inr (Or.inl ⟨data, container, rfl, rfl⟩)
          | stored request => exact Or.inr (Or.inr ⟨request, container, rfl, rfl⟩)

theorem awaitWakeup_of_message (hlook : store.waiters.look waiter = .message wakeup) :
    entry.awaitWakeup waiter segment deadline store =
      entry.awaitWoken segment wakeup
        { store with waiters := (store.waiters.receive waiter).2 } := by
  unfold awaitWakeup Waiters.receive
  rw [hlook]

theorem awaitWakeup_of_never (hlook : store.waiters.look waiter = .never) :
    entry.awaitWakeup waiter segment deadline store =
      entry.settled (.error .closed)
        { store with waiters := (store.waiters.receive waiter).2 } := by
  unfold awaitWakeup Waiters.receive
  rw [hlook]

/-- Time passes to the deadline, and the entry gives up. -/
theorem awaitWakeup_of_none (hlook : store.waiters.look waiter = .none) :
    entry.awaitWakeup waiter segment deadline store =
      entry.settled (.error (.timedOut segment entry.offset))
        { store.waitedTo deadline with
          waiters := (store.waitedTo deadline).waiters.deregister waiter } := by
  unfold awaitWakeup Waiters.receive
  rw [hlook]
  rfl

theorem tryWakeup_of_message (hlook : store.waiters.look waiter = .message wakeup) :
    entry.tryWakeup waiter segment deadline store =
      entry.tryWoken segment wakeup { store with waiters := (store.waiters.receive waiter).2 } := by
  unfold tryWakeup Waiters.receive
  rw [hlook]

theorem tryWakeup_of_never (hlook : store.waiters.look waiter = .never) :
    entry.tryWakeup waiter segment deadline store =
      (entry.settled (.error .closed)
        { store with waiters := (store.waiters.receive waiter).2 }).found := by
  unfold tryWakeup Waiters.receive
  rw [hlook]

theorem tryWakeup_of_none (hlook : store.waiters.look waiter = .none) :
    entry.tryWakeup waiter segment deadline store =
      if deadline ≤ store.now then
        (entry.settled (.error (.timedOut segment entry.offset))
          { store with waiters := store.waiters.deregister waiter }).found
      else { result := .ok none, entry, store } := by
  unfold tryWakeup Waiters.receive
  rw [hlook]

end Entry

/-! ## Entries -/

namespace Store

variable {content : Contents} {store : Store FlakyTier}

theorem Sound.settled (h : store.Sound content) (entry : Entry) (result : Except Error Bytes) :
    store.Unmoved content (entry.settled result store).store := by
  cases result with
  | ok data => exact (Unmoved.refl h).noting _ _ _ _
  | error e => exact (Unmoved.refl h).noting _ _ _ _

theorem Sound.settled_found (h : store.Sound content) (entry : Entry)
    (result : Except Error Bytes) :
    store.Unmoved content (entry.settled result store).found.store :=
  h.settled entry result

theorem Sound.calling (h : store.Sound content) {α : Type} {call : ContainerM FlakyTier α}
    (hcall : Ends call store.container
      (fun _ container => store.container.Unmoved content container)
      (fun _ container => store.container.Unmoved content container)) :
    store.Unmoved content (Entry.calling call store).2 := by
  unfold Entry.calling
  cases hrun : call.run store.container with
  | ok a container => exact h.with_container (hcall.ok hrun)
  | error e container => exact h.with_container (hcall.error hrun)

theorem Sound.readWoken_ends (h : store.Sound content) (id : SegmentId)
    (offset count maxRead : Nat) :
    Ends (Entry.readWoken id offset count maxRead) store.container
      (fun _ container => store.container.Unmoved content container)
      (fun _ container => store.container.Unmoved content container) := by
  refine Entry.ends_readWoken
    ((h.container.lookupWoken_ends id offset count maxRead).mono ?_ fun _ _ hfailed => hfailed)
  intro found container hfound
  rcases hfound with ⟨hunmoved, hvalid, -⟩
  refine ⟨fun _ _ => hunmoved, fun request hrequest => ?_⟩
  have hmiddle : request.Valid container.table := by
    rw [hunmoved.table_eq]
    exact hvalid request hrequest
  refine (hunmoved.sound.fetch_ends hmiddle).mono ?_ ?_
  · intro _ last hlast
    exact hunmoved.trans hlast.1
  · intro _ last hlast
    exact hunmoved.trans hlast.1

theorem Sound.awaitWoken (h : store.Sound content) (entry : Entry) (segment : SegmentId)
    (wakeup : Wakeup) : store.Unmoved content (entry.awaitWoken segment wakeup store).store := by
  unfold Entry.awaitWoken
  cases Entry.failureOf? wakeup segment entry.offset with
  | some e => exact h.settled entry _
  | none =>
      have hcalling := h.calling
        (h.readWoken_ends segment entry.offset entry.requested store.config.maxStorageReadSize)
      exact hcalling.trans (hcalling.sound.settled entry _)

theorem Sound.awaitFetch (h : store.Sound content) (entry : Entry) (ticket : Nat) :
    store.Unmoved content (entry.awaitFetch ticket store).store := by
  have hready := h.fetched ticket
  have htaken := hready.trans (hready.sound.takeOutcome ticket)
  rw [Entry.awaitFetch_eq]
  exact htaken.trans (htaken.sound.settled entry _)

theorem Sound.awaitWakeup (h : store.Sound content) (entry : Entry) (waiter : Nat)
    (segment : SegmentId) (deadline : Nat) :
    store.Unmoved content (entry.awaitWakeup waiter segment deadline store).store := by
  have hreceived : ∀ waiters, store.Unmoved content { store with waiters } :=
    fun waiters => (Unmoved.refl h).noting waiters _ _ _
  cases hlook : store.waiters.look waiter with
  | message wakeup =>
      rw [Entry.awaitWakeup_of_message hlook]
      exact (hreceived _).trans ((hreceived _).sound.awaitWoken entry segment wakeup)
  | never =>
      rw [Entry.awaitWakeup_of_never hlook]
      exact (hreceived _).trans ((hreceived _).sound.settled entry _)
  | none =>
      rw [Entry.awaitWakeup_of_none hlook]
      have hleft := (h.waitedTo deadline).noting
        ((store.waitedTo deadline).waiters.deregister waiter) (store.waitedTo deadline).statuses
        (store.waitedTo deadline).now (store.waitedTo deadline).orphans
      exact hleft.trans (hleft.sound.settled entry _)

theorem Sound.awaitContent (h : store.Sound content) (entry : Entry) :
    store.Unmoved content (entry.awaitContent store).store := by
  unfold Entry.awaitContent
  cases entry.wait with
  | none => exact Unmoved.refl h
  | some wait =>
      cases wait with
      | fetch ticket => exact h.awaitFetch entry ticket
      | wakeup waiter segment deadline => exact h.awaitWakeup entry waiter segment deadline

theorem Sound.tryWoken (h : store.Sound content) (entry : Entry) (segment : SegmentId)
    (wakeup : Wakeup) : store.Unmoved content (entry.tryWoken segment wakeup store).store := by
  have hlookup := h.container.lookupWoken_ends segment entry.offset entry.requested
    store.config.maxStorageReadSize
  rcases entry.tryWoken_cases segment wakeup store with ⟨e, -, heq⟩ | ⟨length, -,
    ⟨e, container, hrun, heq⟩ | ⟨data, container, hrun, heq⟩ | ⟨request, container, hrun, heq⟩⟩
  · rw [heq]
    exact h.settled_found entry (.error e)
  · rw [heq]
    have hunmoved := h.with_container (hlookup.error hrun)
    exact hunmoved.trans (hunmoved.sound.settled_found entry (.error e))
  · rw [heq]
    have hunmoved := h.with_container (hlookup.ok hrun).1
    exact hunmoved.trans (hunmoved.sound.settled_found entry (.ok data))
  · rw [heq]
    rcases hlookup.ok hrun with ⟨hcontainer, hvalid, -⟩
    have hunmoved := h.with_container hcontainer
    refine hunmoved.trans (hunmoved.sound.startFetch ?_)
    show request.Valid container.table
    rw [hcontainer.table_eq]
    exact hvalid request rfl

theorem Sound.tryWakeup (h : store.Sound content) (entry : Entry) (waiter : Nat)
    (segment : SegmentId) (deadline : Nat) :
    store.Unmoved content (entry.tryWakeup waiter segment deadline store).store := by
  have hreceived : ∀ waiters, store.Unmoved content { store with waiters } :=
    fun waiters => (Unmoved.refl h).noting waiters _ _ _
  cases hlook : store.waiters.look waiter with
  | message wakeup =>
      rw [Entry.tryWakeup_of_message hlook]
      exact (hreceived _).trans ((hreceived _).sound.tryWoken entry segment wakeup)
  | never =>
      rw [Entry.tryWakeup_of_never hlook]
      exact (hreceived _).trans ((hreceived _).sound.settled_found entry (.error .closed))
  | none =>
      rw [Entry.tryWakeup_of_none hlook]
      split
      · exact (hreceived _).trans ((hreceived _).sound.settled_found entry
          (.error (.timedOut segment entry.offset)))
      · exact Unmoved.refl h

theorem Sound.tryContent (h : store.Sound content) (entry : Entry) :
    store.Unmoved content (entry.tryContent store).store := by
  cases hwait : entry.wait with
  | none =>
      rw [Entry.tryContent_of_none hwait]
      exact h.awaitContent entry
  | some wait =>
      cases wait with
      | wakeup waiter segment deadline =>
          rw [Entry.tryContent_of_wakeup hwait]
          exact h.tryWakeup entry waiter segment deadline
      | fetch ticket =>
          have htaken := h.takeOutcome ticket
          rw [Entry.tryFetch_eq hwait]
          cases store.fetches.arrived.get? ticket with
          | some result => exact htaken.trans (htaken.sound.settled_found entry result)
          | none =>
              simp only
              split
              · exact Unmoved.refl h
              · exact h.settled_found entry (.error .closed)

theorem Sound.drop (h : store.Sound content) (entry : Entry) :
    store.Unmoved content (entry.drop store) := by
  unfold Entry.drop
  split
  · exact (Unmoved.refl h).noting _ _ _ _
  · exact Unmoved.refl h

end Store

/-! ## Steps of a read -/

namespace ReadResult

variable {τ : Type} {read : ReadResult} {store made : Store τ} {entry : Entry} {e : Error}

theorem step_of_le (hle : read.maxLength ≤ read.consumed) :
    read.step store = { result := .ok none, read := read.ended, store } := by
  unfold step handOut
  rw [if_pos hle]
  rfl

theorem step_of_ok (hlt : read.consumed < read.maxLength)
    (hrun : (Store.entryAt read.segment (read.start + read.consumed)
      (read.maxLength - read.consumed)).run store = .ok entry made) :
    read.step store =
      { result := .ok (some entry)
        read := { read with last := some entry.number, finished := entry.kind.isTerminal }
        store := made } := by
  unfold step handOut
  rw [if_neg (Nat.not_le.mpr hlt), EStateM.run_bind, hrun]
  rfl

theorem step_of_error (hlt : read.consumed < read.maxLength)
    (hrun : (Store.entryAt read.segment (read.start + read.consumed)
      (read.maxLength - read.consumed)).run store = .error e made) :
    read.step store = { result := .error e, read, store := made } := by
  unfold step handOut
  rw [if_neg (Nat.not_le.mpr hlt), EStateM.run_bind, hrun]

/-- A read is over, or its next entry is made, or that is refused. -/
theorem step_cases (read : ReadResult) (store : Store τ) :
    (read.maxLength ≤ read.consumed ∧
      read.step store = { result := .ok none, read := read.ended, store }) ∨
    read.consumed < read.maxLength ∧
      ((∃ entry made,
        (Store.entryAt read.segment (read.start + read.consumed)
          (read.maxLength - read.consumed)).run store = .ok entry made ∧
        read.step store =
          { result := .ok (some entry)
            read := { read with last := some entry.number, finished := entry.kind.isTerminal }
            store := made }) ∨
      ∃ e made,
        (Store.entryAt read.segment (read.start + read.consumed)
          (read.maxLength - read.consumed)).run store = .error e made ∧
        read.step store = { result := .error e, read, store := made }) := by
  by_cases hle : read.maxLength ≤ read.consumed
  · exact Or.inl ⟨hle, step_of_le hle⟩
  · have hlt := Nat.not_le.mp hle
    refine Or.inr ⟨hlt, ?_⟩
    cases hrun : (Store.entryAt read.segment (read.start + read.consumed)
        (read.maxLength - read.consumed)).run store with
    | ok entry made => exact Or.inl ⟨entry, made, rfl, step_of_ok hlt hrun⟩
    | error e made => exact Or.inr ⟨e, made, rfl, step_of_error hlt hrun⟩

end ReadResult

/-! ## Reads -/

namespace Store

theorem making_ends {τ : Type} {store : Store τ} {make : Store τ → Entry × Store τ}
    {answered : Entry → Store τ → Prop} {failed : Error → Store τ → Prop}
    (h : answered (make store).1 (make store).2) : Ends (making make) store answered failed := h

/-- An entry is refused, or it is made as its segment has the offset. -/
theorem ends_entryAt {τ : Type} {store : Store τ} {id : SegmentId}
    {offset requested : Nat} {answered : Entry → Store τ → Prop} {failed : Error → Store τ → Prop}
    (hrefused : ∀ cause, failed (.refused cause) store)
    (hmade : ∀ s, store.container.table.get? id = some s → s.merged = false →
      (offset < s.startOffset → Ends (making (Entry.makeComplete .truncated offset requested
        (.error (.truncated id offset s.startOffset)))) store answered failed) ∧
      (s.length ≤ offset → s.sealed = true → Ends (making (Entry.makeComplete .endOfSegment offset
        requested (.error (.endOfSegment id offset)))) store answered failed) ∧
      (s.length ≤ offset → s.sealed = false →
        Ends (making (waitingEntry id offset requested)) store answered failed) ∧
      (offset < s.length →
        Ends (Container.lookup s offset requested store.config.maxStorageReadSize) store.container
          (fun found container =>
            (∀ data, found = .cached data →
              Ends (making (Entry.makeComplete .cache offset requested (.ok data)))
                { store with container } answered failed) ∧
            ∀ request, found = .stored request →
              Ends (making fun store =>
                  Entry.makeWaiting .storage offset requested
                    (.fetch (store.startFetch request).1) (store.startFetch request).2)
                { store with container } answered failed)
          (fun e container => failed e { store with container }))) :
    Ends (entryAt id offset requested) store answered failed := by
  unfold entryAt require
  refine Ends.bind (Ends.get ?_)
  cases hrequire : store.table.require id with
  | error cause => exact Ends.throw (hrefused cause)
  | ok s =>
      refine Ends.pure ?_
      extract_lets complete
      split
      · exact Ends.throw (hrefused _)
      · rename_i hmerged
        rcases hmade s (Table.require_eq_ok_iff.mp hrequire) (Bool.eq_false_iff.mpr hmerged) with
          ⟨htruncated, hsealed, hopen, hfound⟩
        split
        · rename_i hlt
          exact htruncated hlt
        · split
          · rename_i hle
            cases hend : s.sealed with
            | true => exact hsealed hle hend
            | false => exact hopen hle hend
          · rename_i hlt
            refine Ends.get (Ends.bind (onContainer_ends ((hfound (Nat.not_le.mp hlt)).mono ?_
              fun _ _ hfailed => hfailed)))
            intro found container hmakes
            cases found with
            | cached data => exact hmakes.1 data rfl
            | stored request => exact hmakes.2 request rfl

variable {content : Contents} {store : Store FlakyTier}

theorem Unmoved.makeComplete {after : Store FlakyTier} (hafter : store.Unmoved content after)
    (kind : EntryKind) (offset requested : Nat) (result : Except Error Bytes) :
    Ends (making (Entry.makeComplete kind offset requested result)) after
      (fun _ made => store.Unmoved content made) (fun _ made => store.Unmoved content made) := by
  cases result with
  | ok data => exact hafter.noting after.waiters _ after.now after.orphans
  | error e => exact hafter.noting after.waiters _ after.now after.orphans

theorem Sound.entryAt_ends (h : store.Sound content) (id : SegmentId) (offset requested : Nat) :
    Ends (entryAt id offset requested) store (fun _ after => store.Unmoved content after)
      (fun _ after => store.Unmoved content after) := by
  have hrefl := Unmoved.refl h
  refine ends_entryAt (fun _ => hrefl) fun s hs _ => ⟨?_, ?_, ?_, ?_⟩
  · exact fun _ => hrefl.makeComplete _ _ _ _
  · exact fun _ _ => hrefl.makeComplete _ _ _ _
  · exact fun _ _ => making_ends (hrefl.noting _ _ store.now store.orphans)
  · intro _
    refine (h.container.lookup_ends hs offset requested _).mono ?_ ?_
    · intro found container hfound
      rcases hfound with ⟨hunmoved, hvalid, -⟩
      have hcontainer := h.with_container hunmoved
      refine ⟨fun data _ => hcontainer.makeComplete _ _ _ _, fun request hstored => ?_⟩
      have hrequest : request.Valid container.table := by
        rw [hunmoved.table_eq]
        exact hvalid request hstored
      have hstarted := hcontainer.trans (hcontainer.sound.startFetch hrequest)
      exact making_ends (hstarted.noting store.waiters _ store.now store.orphans)
    · intro _ container hfailed
      exact h.with_container hfailed.1

theorem Sound.step (h : store.Sound content) (read : ReadResult) :
    store.Unmoved content (read.step store).store := by
  rcases read.step_cases store with ⟨-, heq⟩ | ⟨-, ⟨entry, made, hrun, heq⟩ | ⟨e, made, hrun, heq⟩⟩
  · rw [heq]
    exact Unmoved.refl h
  · rw [heq]
    exact (h.entryAt_ends _ _ _).ok hrun
  · rw [heq]
    exact (h.entryAt_ends _ _ _).error hrun

theorem Sound.next (h : store.Sound content) (read : ReadResult) :
    store.Unmoved content (read.next store).store := by
  unfold ReadResult.next
  split
  · exact Unmoved.refl h
  · split
    · exact h.step read
    · exact Unmoved.refl h
    · exact h.step _
    · exact Unmoved.refl h

end Store
end TieredStore
