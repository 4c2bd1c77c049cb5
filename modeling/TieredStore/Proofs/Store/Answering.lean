import TieredStore.Proofs.Store.Tending
import TieredStore.Proofs.Store.Waiting

/-!
# Reads tend a store

Reads of the tier, entries and the reads that hand them out keep the cache up and
the waiters served.  An entry that was handed out waits for what its waiter was
registered for.  So it is told to look its bytes up only when they are there, and
neither handing it out nor waiting for it fails for want of bytes.
-/

namespace TieredStore

/--
The cache of the store is in order, its waiters have numbers of their own, and none
of its reads has missed bytes.
-/
structure Store.Orderly {τ : Type} (store : Store τ) : Prop where
  cache : store.container.cache.Orderly
  numbered : store.waiters.Numbered
  delivering : store.fetches.Delivering

theorem Store.Orderly.tends {τ : Type} {content grown : Contents} {store after : Store τ}
    (h : store.Orderly) (hafter : store.Tends content grown after) : after.Orderly where
  cache := hafter.container.orderly h.cache
  numbered := hafter.waiters.numbered h.numbered
  delivering := hafter.fetches h.delivering

/-- The entry waits for what it was registered for and keeps no failure for want of bytes. -/
structure Entry.Honest {τ : Type} (content : Contents) (store : Store τ) (entry : Entry) : Prop where
  failure : ∀ {e}, entry.failure = some e → ¬ e.MissesBytes
  awaits : ∀ {waiter id deadline}, entry.wait = some (.wakeup waiter id deadline) →
    store.waiters.Awaits content waiter id entry.offset

theorem Entry.Honest.tends {τ : Type} {content grown : Contents} {store after : Store τ}
    {entry : Entry} (h : entry.Honest content store) (hafter : store.Tends content grown after) :
    entry.Honest grown after :=
  ⟨h.failure, fun hwait => hafter.waiters.awaits (h.awaits hwait)⟩

namespace Store

variable {τ : Type} {content : Contents} {store after : Store τ}

/-! ## Reads of the tier -/

theorem takeOutcome_tends (content : Contents) (store : Store τ) (ticket : Nat) :
    store.Tends content content (store.takeOutcome ticket).2 := by
  refine ⟨.refl _, ?_, .refl _ _⟩
  intro hdelivering other outcome hget
  replace hget : (store.fetches.arrived.erase ticket).get? other = some outcome := hget
  rw [SortedMap.get?_erase] at hget
  split at hget
  · cases hget
  · exact hdelivering hget

theorem Orderly.takeOutcome (h : store.Orderly) {ticket : Nat} {outcome : Except Error Bytes}
    (htaken : (store.takeOutcome ticket).1 = some outcome) : Delivers outcome :=
  h.delivering htaken

theorem startFetch_tends (content : Contents) (store : Store τ) (request : FetchRequest) :
    store.Tends content content (store.startFetch request).2 :=
  ⟨.refl _, fun h => h, .refl _ _⟩

variable [Tier τ]

theorem runFetch_tends (store : Store τ) (fetch : Nat × FetchRequest) :
    store.Tends content content (store.runFetch fetch) := by
  have hfetch := Container.fetch_maintains store.container fetch.2
  have harrive : ∀ {container : Container τ} {outcome : Except Error Bytes},
      store.container.Upkeep container → Delivers outcome →
      store.Tends content content
        { store with
          container
          fetches :=
            { store.fetches with arrived := store.fetches.arrived.insert fetch.1 outcome } } := by
    intro container outcome hcontainer houtcome
    refine ⟨hcontainer, ?_, .refl _ _⟩
    intro hdelivering ticket other hget
    replace hget : (store.fetches.arrived.insert fetch.1 outcome).get? ticket = some other := hget
    rw [SortedMap.get?_insert] at hget
    split at hget
    · cases hget
      exact houtcome
    · exact hdelivering hget
  unfold runFetch
  cases hrun : (Container.fetch fetch.2).run store.container with
  | ok data container => exact harrive (hfetch.ok hrun) (.ok data)
  | error e container => exact harrive (hfetch.error hrun).1 (.error (hfetch.error hrun).2)

theorem settle_tends (store : Store τ) : store.Tends content content store.settle := by
  have hruns : ∀ (queue : List (Nat × FetchRequest)) (started : Store τ),
      started.Tends content content (queue.foldl runFetch started) := by
    intro queue
    induction queue with
    | nil => exact Tends.refl content
    | cons fetch rest ih =>
        intro started
        exact (runFetch_tends started fetch).trans (ih _)
  let tier := runOrphans store.container.tier store.orphans
  let idle : Store τ :=
    { store with
      container := { store.container with tier }
      orphans := []
      fetches := { store.fetches with queue := [] } }
  have hidle : store.Tends content content idle :=
    ⟨.with_tier store.container tier, fun h => h, .refl _ _⟩
  exact hidle.trans (hruns store.fetches.queue idle)

theorem fetched_tends (store : Store τ) (ticket : Nat) :
    store.Tends content content (store.fetched ticket) := by
  unfold fetched
  split
  · exact .refl content store
  · exact store.settle_tends

theorem waitedTo_tends (store : Store τ) (deadline : Nat) :
    store.Tends content content (store.waitedTo deadline) := by
  unfold waitedTo
  split
  · exact .refl content store
  · exact store.settle_tends.trans ⟨.refl _, fun h => h, .refl _ _⟩

theorem advance_tends (store : Store τ) (milliseconds : Nat) :
    store.Tends content content (store.advance milliseconds) :=
  (settle_tends store).trans ⟨.refl _, fun h => h, .refl _ _⟩

end Store

/-! ## Entries -/

namespace Entry

-- `genuine` says that the entry comes from the store; the store is tended in any case
variable {τ α : Type} {genuine : Prop} {content : Contents} {store after : Store τ} {entry : Entry}

/--
The reply to a call for an entry tends the store.  If the entry is genuine, it stays
honest, and there is no failure for want of bytes.
-/
structure Reply.Serves (genuine : Prop) (content : Contents) (store : Store τ) (reply : Reply τ α) :
    Prop where
  tends : store.Tends content content reply.store
  honest : genuine → reply.entry.Honest content reply.store
  delivers : genuine → Delivers reply.result

theorem Reply.Serves.found {reply : Reply τ Bytes} (h : reply.Serves genuine content store) :
    reply.found.Serves genuine content store where
  tends := h.tends
  honest := h.honest
  delivers := by
    intro hgenuine
    unfold Reply.found
    cases hresult : reply.result with
    | ok data => exact .ok _
    | error e => exact .error (h.delivers hgenuine e hresult)

theorem Reply.Serves.of_tends {reply : Reply τ α} (h : store.Tends content content after)
    (hreply : reply.Serves genuine content after) : reply.Serves genuine content store :=
  { hreply with tends := h.trans hreply.tends }

theorem current_serves (h : genuine → entry.Honest content store) :
    Reply.Serves genuine content store
      { result := entry.current.1, entry := entry.current.2, store } := by
  refine ⟨.refl content store, fun hgenuine => ?_, fun hgenuine => ?_⟩
  · have hhonest := h hgenuine
    unfold current
    split
    · exact hhonest
    · exact ⟨nofun, hhonest.awaits⟩
    · exact hhonest
  · unfold current
    split
    · exact .ok _
    · rename_i hfailure
      exact .error ((h hgenuine).failure hfailure)
    · exact .error fun h => h

theorem settled_serves (h : genuine → entry.Honest content store) {result : Except Error Bytes}
    (hresult : genuine → Delivers result) :
    (entry.settled result store).Serves genuine content store := by
  cases result with
  | ok data =>
      refine ⟨⟨.refl _, fun h => h, .refl _ _⟩, fun hgenuine => ?_, fun _ => .ok _⟩
      exact ⟨(h hgenuine).failure, nofun⟩
  | error e =>
      have hcompleted : genuine → Honest content (entry.complete (.error e) store).2
          (entry.complete (.error e) store).1 := by
        intro hgenuine
        refine ⟨?_, nofun⟩
        intro e' hfailure
        cases hfailure
        exact hresult hgenuine e rfl
      have hserves := current_serves hcompleted
      exact { hserves with tends := ⟨.refl _, fun h => h, .refl _ _⟩ }

theorem drop_tends (entry : Entry) (store : Store τ) :
    store.Tends content content (entry.drop store) := by
  unfold drop
  split
  · exact .with_waiters (.deregister _ _)
  · exact .refl content store

theorem calling_tends (content : Contents) {call : ContainerM τ α}
    (h : Ends call store.container (fun _ after => store.container.Upkeep after)
      (fun _ after => store.container.Upkeep after)) :
    store.Tends content content (calling call store).2 := by
  unfold calling
  cases hrun : call.run store.container with
  | ok a container => exact .with_container (h.ok hrun)
  | error e container => exact .with_container (h.error hrun)

theorem calling_delivers {call : ContainerM τ α}
    (h : Container.Maintains call store.container) : Delivers (calling call store).1 := by
  unfold calling
  cases hrun : call.run store.container with
  | ok a container => exact .ok a
  | error e container => exact .error (h.error hrun).2

theorem failureOf?_delivers {wakeup : Wakeup} {segment : SegmentId} {offset : Nat} {e : Error}
    (h : failureOf? wakeup segment offset = some e) : ¬ e.MissesBytes := by
  cases wakeup with
  | appended length => cases h
  | «sealed» =>
      cases h
      exact fun h => h
  | merged =>
      cases h
      exact fun h => h

variable [Tier τ]

theorem readWoken_upkeep (c : Container τ) (id : SegmentId) (offset count maxRead : Nat) :
    Ends (readWoken id offset count maxRead) c (fun _ after => c.Upkeep after)
      (fun _ after => c.Upkeep after) := by
  refine ends_readWoken
    ((Container.lookupWoken_upkeep c id offset count maxRead).mono ?_ fun _ _ hfailed => hfailed)
  intro found middle hmiddle
  refine ⟨fun _ _ => hmiddle, fun request _ => ?_⟩
  exact ((Container.fetch_maintains middle request).after hmiddle).mono (fun _ _ hafter => hafter)
    fun _ _ hafter => hafter.1

theorem awaitFetch_serves (h : genuine → entry.Honest content store) (hstore : store.Orderly)
    (ticket : Nat) : (entry.awaitFetch ticket store).Serves genuine content store := by
  have hready : store.Tends content content (store.fetched ticket) := store.fetched_tends ticket
  have htaken := hready.trans (Store.takeOutcome_tends content (store.fetched ticket) ticket)
  rw [awaitFetch_eq]
  refine .of_tends htaken (settled_serves (fun hgenuine => (h hgenuine).tends htaken) ?_)
  intro _
  cases houtcome : ((store.fetched ticket).takeOutcome ticket).1 with
  | some result => exact (hstore.tends hready).takeOutcome houtcome
  | none => exact .error fun h => h

end Entry

/-! ## Entries that are woken -/

namespace Entry

variable {genuine : Prop} {content : Contents} {store : Store FlakyTier} {entry : Entry}
  {segment : SegmentId} {waiter deadline : Nat}

theorem readWoken_maintains {c : Container FlakyTier} (h : c.Sound content) {offset : Nat}
    (hlt : offset < (content segment).length) (count maxRead : Nat) :
    Container.Maintains (readWoken segment offset count maxRead) c := by
  refine ends_readWoken
    ((Container.lookupWoken_maintains h hlt count maxRead).mono ?_ fun _ _ hfailed => hfailed)
  intro found middle hmiddle
  exact ⟨fun _ _ => hmiddle, fun request _ =>
    (Container.fetch_maintains middle request).after hmiddle⟩

theorem awaitWoken_serves (h : genuine → entry.Honest content store)
    (hsound : store.container.Sound content) {wakeup : Wakeup}
    (htold : genuine → ∀ {length}, wakeup = .appended length →
      entry.offset < (content segment).length) :
    (entry.awaitWoken segment wakeup store).Serves genuine content store := by
  unfold awaitWoken
  cases hfailure : failureOf? wakeup segment entry.offset with
  | some e => exact settled_serves h fun _ => .error (failureOf?_delivers hfailure)
  | none =>
      rcases of_failureOf?_eq_none hfailure with ⟨length, hwakeup⟩
      have hcalled := calling_tends content (readWoken_upkeep store.container segment
        entry.offset entry.requested store.config.maxStorageReadSize)
      refine .of_tends hcalled (settled_serves (fun hgenuine => (h hgenuine).tends hcalled) ?_)
      intro hgenuine
      exact calling_delivers (readWoken_maintains hsound (htold hgenuine hwakeup) _ _)

theorem awaitWakeup_serves (h : genuine → entry.Honest content store) (hstore : store.Sound content)
    (hawaits : genuine → store.waiters.Awaits content waiter segment entry.offset) :
    (entry.awaitWakeup waiter segment deadline store).Serves genuine content store := by
  have hreceived : store.Tends content content
      { store with waiters := (store.waiters.receive waiter).2 } := .with_waiters (.receive _ waiter)
  have hhonest := fun hgenuine => (h hgenuine).tends hreceived
  cases hlook : store.waiters.look waiter with
  | message wakeup =>
      rw [awaitWakeup_of_message hlook]
      refine .of_tends hreceived (awaitWoken_serves hhonest hstore.container ?_)
      intro hgenuine
      exact (hawaits hgenuine).look hlook
  | never =>
      rw [awaitWakeup_of_never hlook]
      refine .of_tends hreceived (settled_serves hhonest fun _ => .error ?_)
      exact fun h => h
  | none =>
      rw [awaitWakeup_of_none hlook]
      have hleft : store.Tends content content
          { store.waitedTo deadline with
            waiters := (store.waitedTo deadline).waiters.deregister waiter } :=
        (store.waitedTo_tends deadline).trans (.with_waiters (.deregister _ waiter))
      refine .of_tends hleft (settled_serves (fun hgenuine => (h hgenuine).tends hleft) fun _ =>
        .error ?_)
      exact fun h => h

theorem awaitContent_serves (h : genuine → entry.Honest content store)
    (hstore : store.Sound content) (horderly : store.Orderly) :
    (entry.awaitContent store).Serves genuine content store := by
  unfold awaitContent
  cases hwait : entry.wait with
  | none => exact current_serves h
  | some wait =>
      cases wait with
      | fetch ticket => exact awaitFetch_serves h horderly ticket
      | wakeup waiter segment deadline =>
          exact awaitWakeup_serves h hstore fun hgenuine => (h hgenuine).awaits hwait

/-! ## Entries that are looked at -/

theorem tryWoken_serves (h : genuine → entry.Honest content store)
    (hsound : store.container.Sound content) {wakeup : Wakeup}
    (htold : genuine → ∀ {length}, wakeup = .appended length →
      entry.offset < (content segment).length) :
    (entry.tryWoken segment wakeup store).Serves genuine content store := by
  have hlookup := Container.lookupWoken_upkeep store.container segment entry.offset
    entry.requested store.config.maxStorageReadSize
  have hlooked : ∀ {container}, store.container.Upkeep container →
      store.Tends content content { store with container } := .with_container
  rcases entry.tryWoken_cases segment wakeup store with ⟨e, hfailure, heq⟩ | ⟨length, hwakeup,
    ⟨e, container, hrun, heq⟩ | ⟨data, container, hrun, heq⟩ | ⟨request, container, hrun, heq⟩⟩
  · rw [heq]
    exact (settled_serves h fun _ => .error (failureOf?_delivers hfailure)).found
  · rw [heq]
    have hafter := hlooked (hlookup.error hrun)
    refine .of_tends hafter (settled_serves (fun hgenuine => (h hgenuine).tends hafter)
      fun hgenuine => .error ?_).found
    exact ((Container.lookupWoken_maintains hsound (htold hgenuine hwakeup) _ _).error hrun).2
  · rw [heq]
    have hafter := hlooked (hlookup.ok hrun)
    exact .of_tends hafter (settled_serves (fun hgenuine => (h hgenuine).tends hafter)
      fun _ => .ok data).found
  · rw [heq]
    have hafter := hlooked (hlookup.ok hrun)
    refine ⟨hafter.trans (Store.startFetch_tends content _ request), fun hgenuine => ?_,
      fun _ => .ok none⟩
    exact ⟨(h hgenuine).failure, nofun⟩

theorem tryWakeup_serves (h : genuine → entry.Honest content store)
    (hsound : store.container.Sound content)
    (hawaits : genuine → store.waiters.Awaits content waiter segment entry.offset) :
    (entry.tryWakeup waiter segment deadline store).Serves genuine content store := by
  have hreceived : store.Tends content content
      { store with waiters := (store.waiters.receive waiter).2 } := .with_waiters (.receive _ waiter)
  have hhonest := fun hgenuine => (h hgenuine).tends hreceived
  cases hlook : store.waiters.look waiter with
  | message wakeup =>
      rw [tryWakeup_of_message hlook]
      refine .of_tends hreceived (tryWoken_serves hhonest hsound ?_)
      intro hgenuine
      exact (hawaits hgenuine).look hlook
  | never =>
      rw [tryWakeup_of_never hlook]
      refine .of_tends hreceived (settled_serves hhonest fun _ => .error ?_).found
      exact fun h => h
  | none =>
      rw [tryWakeup_of_none hlook]
      split
      · have hleft : store.Tends content content
            { store with waiters := store.waiters.deregister waiter } :=
          .with_waiters (.deregister _ waiter)
        refine .of_tends hleft (settled_serves (fun hgenuine => (h hgenuine).tends hleft) fun _ =>
          .error ?_).found
        exact fun h => h
      · exact ⟨.refl content store, h, fun _ => .ok none⟩

theorem tryContent_serves (h : genuine → entry.Honest content store) (hstore : store.Sound content)
    (horderly : store.Orderly) :
    (entry.tryContent store).Serves genuine content store := by
  cases hwait : entry.wait with
  | none =>
      rw [tryContent_of_none hwait]
      exact (awaitContent_serves h hstore horderly).found
  | some wait =>
      cases wait with
      | wakeup waiter segment deadline =>
          rw [tryContent_of_wakeup hwait]
          exact tryWakeup_serves h hstore.container fun hgenuine => (h hgenuine).awaits hwait
      | fetch ticket =>
          have htaken := Store.takeOutcome_tends content store ticket
          have hhonest := fun hgenuine => (h hgenuine).tends htaken
          rw [tryFetch_eq hwait]
          cases houtcome : store.fetches.arrived.get? ticket with
          | some result =>
              have hdelivers : Delivers result := horderly.takeOutcome houtcome
              exact .of_tends htaken (settled_serves hhonest fun _ => hdelivers).found
          | none =>
              simp only
              split
              · exact ⟨.refl content store, h, fun _ => .ok none⟩
              · refine (settled_serves h fun _ => .error ?_).found
                exact fun hmisses => hmisses

end Entry

/-! ## Reads -/

namespace Store

variable {content : Contents} {store : Store FlakyTier}

def Hands (content : Contents) (store : Store FlakyTier) (call : StoreM FlakyTier Entry) : Prop :=
  Ends call store (fun entry after => store.Tends content content after ∧ entry.Honest content after)
    (fun e after => store.Tends content content after ∧ ¬ e.MissesBytes)

theorem Hands.complete {after : Store FlakyTier} (hafter : store.Tends content content after)
    (kind : EntryKind) (offset requested : Nat) {result : Except Error Bytes}
    (hresult : Delivers result) :
    Ends (making (Entry.makeComplete kind offset requested result)) after
      (fun entry made => store.Tends content content made ∧ entry.Honest content made)
      (fun e made => store.Tends content content made ∧ ¬ e.MissesBytes) := by
  cases result with
  | ok data =>
      exact ⟨hafter.trans ⟨.refl _, fun h => h, .refl _ _⟩, nofun, nofun⟩
  | error e =>
      refine ⟨hafter.trans ⟨.refl _, fun h => h, .refl _ _⟩, ?_, nofun⟩
      intro e' hfailure
      cases hfailure
      exact hresult e rfl

theorem Sound.entryAt_hands (h : store.Sound content) (horderly : store.Orderly)
    (id : SegmentId) (offset requested : Nat) :
    store.Hands content (entryAt id offset requested) := by
  have hrefl := Tends.refl content store
  refine ends_entryAt (fun _ => ⟨hrefl, fun h => h⟩) fun s hs _ => ⟨?_, ?_, ?_, ?_⟩
  · refine fun _ => Hands.complete hrefl _ _ _ (.error ?_)
    exact fun h => h
  · refine fun _ _ => Hands.complete hrefl _ _ _ (.error ?_)
    exact fun h => h
  · intro _ _
    have hawaits := horderly.numbered.awaits_register content id offset
    refine making_ends ⟨⟨.refl _, fun h => h, .register _ id offset⟩, nofun, ?_⟩
    intro waiter other deadline hwait
    cases hwait
    exact hawaits
  · intro hlt
    refine (Container.lookup_maintains h.container hs hlt _ _).mono ?_ ?_
    · intro found container hcontainer
      have hafter : store.Tends content content { store with container } :=
        .with_container hcontainer
      refine ⟨fun data _ => Hands.complete hafter _ _ _ (.ok data), fun request _ => ?_⟩
      exact making_ends ⟨hafter.trans ⟨.refl _, fun h => h, .refl _ _⟩, nofun, nofun⟩
    · intro _ container hcontainer
      exact ⟨.with_container hcontainer.1, hcontainer.2⟩

end Store

namespace ReadResult

variable {content : Contents} {store after : Store FlakyTier}

structure Reply.Serves (content : Contents) (store : Store FlakyTier) (reply : Reply FlakyTier) :
    Prop where
  tends : store.Tends content content reply.store
  honest : ∀ {entry}, reply.result = .ok (some entry) → entry.Honest content reply.store
  delivers : Delivers reply.result

theorem step_serves (read : ReadResult) (h : store.Sound content) (horderly : store.Orderly) :
    (read.step store).Serves content store := by
  rcases read.step_cases store with ⟨-, heq⟩ | ⟨-, ⟨entry, made, hrun, heq⟩ | ⟨e, made, hrun, heq⟩⟩
  · rw [heq]
    exact ⟨.refl content store, nofun, .ok none⟩
  · rw [heq]
    rcases (h.entryAt_hands horderly _ _ _).ok hrun with ⟨htends, hhonest⟩
    refine ⟨htends, ?_, .ok _⟩
    rintro _ ⟨⟩
    exact hhonest
  · rw [heq]
    rcases (h.entryAt_hands horderly _ _ _).error hrun with ⟨htends, hdelivers⟩
    exact ⟨htends, nofun, .error hdelivers⟩

theorem next_serves (read : ReadResult) (h : store.Sound content) (horderly : store.Orderly) :
    (read.next store).Serves content store := by
  have hrefl := Store.Tends.refl content store
  unfold next
  split
  · exact ⟨hrefl, nofun, .ok none⟩
  · split
    · exact step_serves read h horderly
    · refine ⟨hrefl, nofun, .error ?_⟩
      exact fun h => h
    · exact step_serves _ h horderly
    · exact ⟨hrefl, nofun, .ok none⟩

end ReadResult
end TieredStore
