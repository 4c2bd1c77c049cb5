import TieredStore.Proofs.Store.Answering
import TieredStore.Proofs.Store.Waking
import TieredStore.Read.Result

/-!
# Handing entries out

A read hands out an entry that starts where its segment has bytes or ends, and an entry
brings no more bytes than its segment has from there on.  So the next entry starts inside
the segment or at its end again, and a waiter is registered for an offset in range.  An
entry that waits has a waiter, until it takes its message, or gives up and takes the
waiter out.  The bytes that an entry gets are a piece of the segment, unless they come with a
read of the tier; then they are what the tier gave.
-/

namespace TieredStore

namespace Waiters

variable {w after : Waiters} {own own' : Option Nat} {r : Waiter}

/-- An entry keeps its waiter or is done with it: it takes the message, or takes the waiter out. -/
inductive Released (w : Waiters) : Option Nat → Waiters → Option Nat → Prop
  | kept (own : Option Nat) : Released w own w own
  | taken {waiter : Nat} (hgone : ∀ r ∈ w.waiting, r.id ≠ waiter) :
      Released w (some waiter) (w.receive waiter).2 none
  | left (waiter : Nat) : Released w (some waiter) (w.deregister waiter) none

namespace Released

theorem proceeds (h : w.Released own after own') : w.Proceeds after := by
  cases h with
  | kept => exact .refl w
  | taken => exact .receive w _
  | left => exact .deregister w _

theorem waiting (h : w.Released own after own') (hr : r ∈ after.waiting) : r ∈ w.waiting := by
  cases h with
  | kept => exact hr
  | taken => exact hr
  | left => exact (List.mem_filter.mp hr).1

theorem ne_of_waiting (h : w.Released own after own') (hr : r ∈ after.waiting)
    (hown : own = some r.id) : own' = some r.id := by
  cases h with
  | kept => exact hown
  | taken hgone =>
      cases hown
      exact absurd rfl (hgone r hr)
  | left waiter =>
      cases hown
      exact absurd rfl (of_decide_eq_true (List.mem_filter.mp hr).2)

theorem own_of (h : w.Released own after own') {waiter : Nat} (hown : own' = some waiter) :
    own = some waiter := by
  cases h with
  | kept => exact hown
  | taken => cases hown
  | left => cases hown

theorem look_eq (h : w.Released own after own') {id : Nat} (hne : own ≠ some id ∨ own' = some id) :
    after.look id = w.look id := by
  cases h with
  | kept => rfl
  | @taken waiter hgone =>
      rcases hne with hne | hsome
      · exact look_receive_of_ne w fun heq => hne (congrArg some heq.symm)
      · cases hsome
  | left waiter =>
      rcases hne with hne | hsome
      · exact look_deregister_of_ne w fun heq => hne (congrArg some heq.symm)
      · cases hsome

theorem spares (h : w.Released own after own') (hr : r ∈ w.waiting) (hother : own ≠ some r.id) :
    r ∈ after.waiting := by
  cases h with
  | kept => exact hr
  | taken => exact hr
  | left waiter =>
      refine List.mem_filter.mpr ⟨hr, decide_eq_true fun heq => ?_⟩
      exact hother (congrArg some heq.symm)

end Released
end Waiters

def Entry.waiter? (entry : Entry) : Option Nat :=
  match entry.wait with
  | some (.wakeup waiter _ _) => some waiter
  | _ => none

namespace Container

variable {content : Contents} {c : Container FlakyTier} {id : SegmentId} {offset count : Nat}

theorem Sound.lookup_meets (h : c.Sound content) {s : Segment} (hs : c.table.get? id = some s)
    (hlt : offset < s.length) (hpos : 0 < count) (maxRead : Nat) :
    Ends (lookup s offset count maxRead) c
      (fun found after => Unmoved content c after ∧ found.Meets content id offset count)
      (fun _ _ => False) := by
  have hlength := (h.consistent.segment hs).length_eq
  refine (h.lookup_ends hs offset count maxRead).mono ?_ ?_
  · rintro found after ⟨hunmoved, -, hserves⟩
    exact ⟨hunmoved, (hserves hlt hpos).meets hlength⟩
  · rintro _ after ⟨-, hbehind⟩
    exact hbehind hlt

theorem Sound.lookupWoken_serves (h : c.Sound content) (hlt : offset < (content id).length)
    (hpos : 0 < count) (maxRead : Nat) :
    Ends (lookupWoken id offset count maxRead) c
      (fun found after => Unmoved content c after ∧ found.Valid c.table ∧
        found.Meets content id offset count ∧
        ∃ s, found.Serves content c.table id s offset count)
      (fun _ after => Unmoved content c after) := by
  refine (h.lookupWoken_ends id offset count maxRead).mono ?_ fun _ _ hafter => hafter
  rintro found after ⟨hunmoved, hvalid, hserves⟩
  rcases hserves hlt hpos with ⟨s, hs, hfound⟩
  exact ⟨hunmoved, hvalid, hfound.meets (h.consistent.segment hs).length_eq, s, hfound⟩

end Container

namespace Entry

variable {content : Contents} {segment : SegmentId} {offset count : Nat}

theorem readWoken_piece {c : Container FlakyTier} (h : c.Sound content)
    (hlt : offset < (content segment).length) (hpos : 0 < count) (maxRead : Nat) :
    Ends (readWoken segment offset count maxRead) c
      (fun data _ => content.Piece segment offset count data) (fun _ _ => True) := by
  refine ends_readWoken ((h.lookupWoken_serves hlt hpos maxRead).mono ?_ fun _ _ _ => trivial)
  rintro found middle ⟨hunmoved, hvalid, hmeets, s, hserves⟩
  constructor
  · rintro data rfl
    exact hmeets
  · rintro request rfl
    rcases hserves with ⟨-, -, -, -, -, ⟨source, hsource⟩, hslice⟩
    have hrequest := hvalid request rfl
    rw [← hunmoved.table_eq] at hrequest hsource
    refine (hunmoved.sound.fetch_ends hrequest).mono ?_ fun _ _ _ => trivial
    rintro data _ ⟨-, hdata⟩
    rw [hdata source hsource, hslice]
    exact hmeets.piece

end Entry

/-! ## Entries -/

namespace Entry

variable {content : Contents} {id : SegmentId} {store middle : Store FlakyTier} {entry : Entry}
  {result : Except Error Bytes} {wakeup : Wakeup} {waiter deadline : Nat}

/--
The entry is one of this segment.  It has no bytes while it waits and brings no more than the
segment has.  If it has a waiter, it is pending and may still be woken, or it was woken for what
has happened to the segment.
-/
structure Held (content : Contents) (id : SegmentId) (store : Store FlakyTier) (entry : Entry) :
    Prop where
  given : entry.number < store.statuses.length
  wanted : 0 < entry.requested
  bare : entry.wait ≠ none → entry.content = none
  brings : ∀ {ticket}, entry.wait = some (.fetch ticket) →
    store.fetches.Brings content id entry.offset ticket
  waits : ∀ {waiter segment deadline}, entry.wait = some (.wakeup waiter segment deadline) →
    segment = id ∧ entry.kind = .future ∧ entry.status store = .pending ∧
      id < store.table.nextId ∧ (store.waiters.look waiter).Suits store.table id entry.offset

def Gets (content : Contents) (id : SegmentId) (store : Store FlakyTier) (entry : Entry)
    (data : Bytes) : Prop :=
  content.Piece id entry.offset entry.requested data ∨
    ∃ ticket, entry.wait = some (.fetch ticket) ∧
      store.fetches.Yields store.container.tier ticket data

theorem Held.stop_le (h : entry.Held content id store) {data : Bytes}
    (hdata : entry.Gets content id store data) :
    entry.offset + data.length ≤ (content id).length := by
  rcases hdata with hpiece | ⟨ticket, hwait, hthere | ⟨request, hmem, hgives⟩⟩
  · exact hpiece.stop_le
  · exact (h.brings hwait).arrived data hthere
  · exact Nat.le_trans (Nat.add_le_add_left hgives.length_le _)
      ((h.brings hwait).queued request hmem)

/-- What becomes of an entry for which a call is made. -/
inductive Outcome (content : Contents) (id : SegmentId) (store : Store FlakyTier) (entry : Entry)
    (after : Store FlakyTier) : Entry → Prop
  | kept (failure : Option Error) (hstatus : entry.status after = entry.status store) :
      Outcome content id store entry after { entry with failure }
  | started {ticket : Nat} (hwaits : entry.wait ≠ none)
      (hstatus : entry.status after = entry.status store)
      (hfulfils : after.fetches.Fulfils content id entry.offset entry.requested ticket) :
      Outcome content id store entry after { entry with wait := some (.fetch ticket) }
  | got {data : Bytes} (hwaits : entry.wait ≠ none) (hdata : entry.Gets content id store data)
      (hstatus : entry.status after = .ready data.length) :
      Outcome content id store entry after { entry with content := some data, wait := none }
  | failed (hwaits : entry.wait ≠ none) (failure : Option Error)
      (hstatus : entry.status after = .failed) :
      Outcome content id store entry after { entry with failure, wait := none }

/-- What a call for an entry makes of the entry and of the store. -/
structure Resolves (content : Contents) (id : SegmentId) (store : Store FlakyTier) (entry : Entry)
    (resolved : Entry) (after : Store FlakyTier) : Prop where
  outcome : entry.Outcome content id store after resolved
  held : resolved.Held content id after
  table_eq : after.table = store.table
  length_eq : after.statuses.length = store.statuses.length
  others : ∀ number, number ≠ entry.number →
    after.statuses.getD number .pending = store.statuses.getD number .pending
  evolves : store.fetches.Evolves store.container.tier after.fetches
  released : store.waiters.Released entry.waiter? after.waiters resolved.waiter?

section Resolving

variable {resolved : Entry} {after : Store FlakyTier}

theorem Outcome.same (h : entry.Outcome content id store after resolved) :
    resolved.number = entry.number ∧ resolved.kind = entry.kind ∧
      resolved.offset = entry.offset ∧ resolved.requested = entry.requested := by
  cases h with
  | kept => exact ⟨rfl, rfl, rfl, rfl⟩
  | started => exact ⟨rfl, rfl, rfl, rfl⟩
  | got => exact ⟨rfl, rfl, rfl, rfl⟩
  | failed => exact ⟨rfl, rfl, rfl, rfl⟩

theorem Held.ready (h : entry.Held content id store)
    (houtcome : entry.Outcome content id store after resolved) {n : Nat}
    (hready : entry.status after = .ready n) :
    entry.status store = .ready n ∨ entry.offset + n ≤ (content id).length := by
  cases houtcome with
  | kept _ hstatus =>
      rw [← hstatus]
      exact Or.inl hready
  | started _ hstatus _ =>
      rw [← hstatus]
      exact Or.inl hready
  | got _ hdata hstatus =>
      rw [hstatus] at hready
      cases hready
      exact Or.inr (h.stop_le hdata)
  | failed _ _ hstatus =>
      rw [hstatus] at hready
      cases hready

end Resolving

theorem Held.unresolved (h : entry.Held content id store) :
    entry.Resolves content id store entry store where
  outcome := .kept entry.failure rfl
  held := h
  table_eq := rfl
  length_eq := rfl
  others := fun _ _ => rfl
  evolves := .refl _ _
  released := .kept _

theorem current_eq (entry : Entry) : ∃ failure, entry.current.2 = { entry with failure } := by
  unfold current
  split
  · exact ⟨entry.failure, rfl⟩
  · exact ⟨none, rfl⟩
  · exact ⟨entry.failure, rfl⟩

theorem Held.current (h : entry.Held content id store) :
    entry.Resolves content id store entry.current.2 store := by
  rcases entry.current_eq with ⟨failure, heq⟩
  rw [heq]
  exact { h.unresolved with
    outcome := .kept failure rfl
    held := ⟨h.given, h.wanted, h.bare, h.brings, h.waits⟩ }

def statusOf : Except Error Bytes → EntryStatus
  | .ok data => .ready data.length
  | .error _ => .failed

theorem settled_error_entry (entry : Entry) (e : Error) (store : Store FlakyTier) :
    ∃ failure, (entry.settled (.error e) store).entry = { entry with failure, wait := none } :=
  ({ entry with failure := some e, wait := none } : Entry).current_eq

theorem settled_store (entry : Entry) (result : Except Error Bytes) (store : Store FlakyTier) :
    (entry.settled result store).store =
      { store with statuses := store.statuses.set entry.number (statusOf result) } := by
  cases result with
  | ok data => rfl
  | error e => rfl

theorem getD_set_self {statuses : List EntryStatus} {number : Nat} (h : number < statuses.length)
    (status : EntryStatus) : (statuses.set number status).getD number .pending = status := by
  simp [List.getD, h]

theorem getD_set_of_ne {statuses : List EntryStatus} {number other : Nat} (h : other ≠ number)
    (status : EntryStatus) :
    (statuses.set number status).getD other .pending = statuses.getD other .pending := by
  simp [List.getD, List.getElem?_set_ne h.symm]

theorem settled_wait (entry : Entry) (result : Except Error Bytes) (store : Store FlakyTier) :
    (entry.settled result store).entry.wait = none := by
  cases result with
  | ok data => rfl
  | error e => rcases entry.settled_error_entry e store with ⟨failure, heq⟩; rw [heq]

theorem Held.settled (h : entry.Held content id store) (hprepares : store.Prepares content middle)
    (hwaits : entry.wait ≠ none)
    (hreleased : store.waiters.Released entry.waiter? middle.waiters none)
    (hresult : ∀ data, result = .ok data → entry.Gets content id store data) :
    entry.Resolves content id store (entry.settled result middle).entry
      (entry.settled result middle).store := by
  have hgiven : entry.number < middle.statuses.length := by
    rw [hprepares.statuses_eq]
    exact h.given
  have hstatus : entry.status (entry.settled result middle).store = statusOf result := by
    rw [settled_store]
    exact getD_set_self hgiven _
  have houtcome : entry.Outcome content id store (entry.settled result middle).store
      (entry.settled result middle).entry := by
    cases result with
    | ok data => exact .got hwaits (hresult data rfl) hstatus
    | error e =>
        rcases entry.settled_error_entry e middle with ⟨failure, heq⟩
        rw [heq]
        exact .failed hwaits failure hstatus
  rcases houtcome.same with ⟨hnumber, -, -, hrequested⟩
  have hwait := entry.settled_wait result middle
  exact
    { outcome := houtcome
      held :=
        { given := by
            rw [hnumber, settled_store, List.length_set]
            exact hgiven
          wanted := by
            rw [hrequested]
            exact h.wanted
          bare := fun hne => absurd hwait hne
          brings := by
            rw [hwait]
            exact nofun
          waits := by
            rw [hwait]
            exact nofun }
      table_eq := by
        rw [settled_store]
        exact hprepares.table_eq
      length_eq := by rw [settled_store, List.length_set, hprepares.statuses_eq]
      others := by
        intro number hne
        rw [settled_store, ← hprepares.statuses_eq]
        exact getD_set_of_ne hne _
      evolves := by
        rw [settled_store]
        exact hprepares.evolves
      released := by
        rw [settled_store, show (entry.settled result middle).entry.waiter? = none by
          unfold waiter?; rw [hwait]]
        exact hreleased }

theorem waiter?_of_fetch {ticket : Nat} (hwait : entry.wait = some (.fetch ticket)) :
    entry.waiter? = none := by
  unfold waiter?
  rw [hwait]

theorem waiter?_of_wakeup (hwait : entry.wait = some (.wakeup waiter id deadline)) :
    entry.waiter? = some waiter := by
  unfold waiter?
  rw [hwait]

theorem wait_of_waiter? {waiter : Nat} (h : entry.waiter? = some waiter) :
    ∃ segment deadline, entry.wait = some (.wakeup waiter segment deadline) := by
  unfold waiter? at h
  split at h
  · rename_i found segment deadline hwait
    cases h
    exact ⟨segment, deadline, hwait⟩
  · cases h

theorem waits_of_waiter? {waiter : Nat} (h : entry.waiter? = some waiter) : entry.wait ≠ none := by
  rcases wait_of_waiter? h with ⟨segment, deadline, hwait⟩
  rw [hwait]
  exact nofun

theorem Held.awaitFetch (h : entry.Held content id store) (hstore : store.Sound content)
    {ticket : Nat} (hwait : entry.wait = some (.fetch ticket)) :
    entry.Resolves content id store (entry.awaitFetch ticket store).entry
      (entry.awaitFetch ticket store).store := by
  have hwaits : entry.wait ≠ none := by
    rw [hwait]
    exact nofun
  have hprepares := hstore.fetched_prepares ticket
  have htaken := hprepares.trans (.takeOutcome (store.fetched ticket) ticket)
  have hwaiters : ((store.fetched ticket).takeOutcome ticket).2.waiters = store.waiters :=
    store.fetched_waiters ticket
  have hreleased : store.waiters.Released entry.waiter?
      ((store.fetched ticket).takeOutcome ticket).2.waiters none := by
    rw [waiter?_of_fetch hwait, hwaiters]
    exact .kept none
  rw [awaitFetch_eq]
  refine h.settled htaken hwaits hreleased ?_
  intro data hdata
  cases houtcome : ((store.fetched ticket).takeOutcome ticket).1 with
  | some outcome =>
      rw [houtcome] at hdata
      cases hdata
      exact Or.inr ⟨ticket, hwait, hprepares.evolves.yields houtcome (h.brings hwait).given⟩
  | none =>
      rw [houtcome] at hdata
      cases hdata

theorem calling_ends {α : Type} {call : ContainerM FlakyTier α} {answered : α → Prop}
    (h : Ends call store.container
      (fun a after => Container.Unmoved content store.container after ∧ answered a)
      (fun _ after => Container.Unmoved content store.container after)) :
    store.Prepares content (calling call store).2 ∧
      (calling call store).2.waiters = store.waiters ∧
      (calling call store).2.fetches = store.fetches ∧
      ∀ a, (calling call store).1 = .ok a → answered a := by
  unfold calling
  cases hrun : call.run store.container with
  | ok a container =>
      rcases h.ok hrun with ⟨hunmoved, hanswered⟩
      refine ⟨.with_container hunmoved, rfl, rfl, ?_⟩
      rintro _ ⟨⟩
      exact hanswered
  | error e container => exact ⟨.with_container (h.error hrun), rfl, rfl, nofun⟩

theorem Held.awaitWoken (h : entry.Held content id store) (hmiddle : middle.Sound content)
    (hprepares : store.Prepares content middle) (hwaits : entry.wait ≠ none)
    (hreleased : store.waiters.Released entry.waiter? middle.waiters none)
    (htold : ∀ {length}, wakeup = .appended length → entry.offset < (content id).length) :
    entry.Resolves content id store (entry.awaitWoken id wakeup middle).entry
      (entry.awaitWoken id wakeup middle).store := by
  unfold Entry.awaitWoken
  cases hfailure : failureOf? wakeup id entry.offset with
  | some e => exact h.settled hprepares hwaits hreleased nofun
  | none =>
      rcases of_failureOf?_eq_none hfailure with ⟨length, hwakeup⟩
      have hreads := (readWoken_piece hmiddle.container (htold hwakeup) h.wanted
        middle.config.maxStorageReadSize).and (hmiddle.readWoken_ends id entry.offset
          entry.requested middle.config.maxStorageReadSize)
      rcases calling_ends (hreads.mono (fun _ _ hread => hread.symm) fun _ _ hread =>
        hread.2) with ⟨hcalled, hwaiters, -, hpiece⟩
      rw [← hwaiters] at hreleased
      exact h.settled (hprepares.trans hcalled) hwaits hreleased fun data hdata =>
        Or.inl (hpiece data hdata)

theorem Held.awaitWakeup (h : entry.Held content id store) (hstore : store.Sound content)
    (hexpecting : store.waiters.Expecting store.table)
    (hawaits : store.waiters.Awaits content waiter id entry.offset)
    (hwaiter : entry.waiter? = some waiter) :
    entry.Resolves content id store (entry.awaitWakeup waiter id deadline store).entry
      (entry.awaitWakeup waiter id deadline store).store := by
  have hwaits := waits_of_waiter? hwaiter
  have hnoted : ∀ waiters, store.Unmoved content { store with waiters } := fun waiters =>
    (Store.Unmoved.refl hstore).noting waiters _ _ _
  rcases store.waiters.look_cases waiter with
    ⟨wakeup, hmessage, hlook⟩ | ⟨-, ⟨-, hlook⟩ | ⟨hgone, hlook⟩⟩
  · rw [awaitWakeup_of_message hlook]
    refine h.awaitWoken (hnoted _).sound ((Store.Prepares.refl content store).noting _ _) hwaits ?_
      (hawaits.look hlook)
    rw [hwaiter]
    exact .taken (hexpecting.proper.gone_of_message hmessage)
  · rw [awaitWakeup_of_none hlook]
    refine h.settled ((hstore.waitedTo_prepares deadline).noting _ _) hwaits ?_ nofun
    rw [hwaiter, store.waitedTo_waiters]
    exact .left waiter
  · rw [awaitWakeup_of_never hlook]
    refine h.settled ((Store.Prepares.refl content store).noting _ _) hwaits ?_ nofun
    rw [hwaiter]
    exact .taken hgone

theorem Held.awaitContent (h : entry.Held content id store) (hstore : store.Sound content)
    (hexpecting : store.waiters.Expecting store.table) (hhonest : entry.Honest content store) :
    entry.Resolves content id store (entry.awaitContent store).entry
      (entry.awaitContent store).store := by
  unfold Entry.awaitContent
  cases hwait : entry.wait with
  | none => exact h.current
  | some wait =>
      cases wait with
      | fetch ticket => exact h.awaitFetch hstore hwait
      | wakeup waiter segment deadline =>
          rcases h.waits hwait with ⟨rfl, -⟩
          exact h.awaitWakeup hstore hexpecting (hhonest.awaits hwait) (waiter?_of_wakeup hwait)

/-! ## Looking at an entry -/

theorem Held.started (h : entry.Held content id store) (hprepares : store.Prepares content middle)
    {table : Table} (hsane : middle.fetches.Sane table) (hwaits : entry.wait ≠ none)
    (hreleased : store.waiters.Released entry.waiter? middle.waiters none) {request : FetchRequest}
    (hasks : request.Asks content id entry.offset entry.requested) :
    entry.Resolves content id store
      { entry with wait := some (.fetch (middle.startFetch request).1) }
      (middle.startFetch request).2 := by
  have hstatuses := hprepares.statuses_eq
  exact
    { outcome := .started hwaits (congrArg (·.getD entry.number .pending) hstatuses)
          (Store.startFetch_promises hsane hasks)
      held :=
        { given := by
            show entry.number < middle.statuses.length
            rw [hstatuses]
            exact h.given
          wanted := h.wanted
          bare := fun _ => h.bare hwaits
          brings := by
            rintro ticket ⟨⟩
            exact Store.startFetch_promises hsane hasks.stop_le
          waits := nofun }
      table_eq := hprepares.table_eq
      length_eq := congrArg List.length hstatuses
      others := fun number _ => congrArg (·.getD number .pending) hstatuses
      evolves := (hprepares.trans (.startFetch middle request)).evolves
      released := hreleased }

theorem Held.tryWoken (h : entry.Held content id store) (hmiddle : middle.Sound content)
    (hprepares : store.Prepares content middle) (hwaits : entry.wait ≠ none)
    (hreleased : store.waiters.Released entry.waiter? middle.waiters none)
    (htold : ∀ {length}, wakeup = .appended length → entry.offset < (content id).length) :
    entry.Resolves content id store (entry.tryWoken id wakeup middle).entry
      (entry.tryWoken id wakeup middle).store := by
  have hsettled : ∀ {last : Store FlakyTier}, store.Prepares content last →
      last.waiters = middle.waiters → ∀ result : Except Error Bytes,
      (∀ data, result = .ok data → entry.Gets content id store data) →
      entry.Resolves content id store (entry.settled result last).entry
        (entry.settled result last).store := by
    intro last hprepared hwaiters result hresult
    rw [← hwaiters] at hreleased
    exact h.settled hprepared hwaits hreleased hresult
  have hlooked : ∀ {container}, middle.container.Unmoved content container →
      store.Prepares content { middle with container } := fun hcontainer =>
    hprepares.trans (.with_container hcontainer)
  rcases entry.tryWoken_cases id wakeup middle with ⟨e, -, heq⟩ | ⟨length, hwakeup, hcases⟩
  · rw [heq]
    exact hsettled hprepares rfl (.error e) nofun
  · have hlooks := hmiddle.container.lookupWoken_serves (htold hwakeup) h.wanted
      middle.config.maxStorageReadSize
    rcases hcases with ⟨e, container, hrun, heq⟩ | ⟨data, container, hrun, heq⟩ |
      ⟨request, container, hrun, heq⟩
    · rw [heq]
      exact hsettled (hlooked (hlooks.error hrun)) rfl (.error e) nofun
    · rw [heq]
      rcases hlooks.ok hrun with ⟨hcontainer, -, hmeets, -⟩
      refine hsettled (hlooked hcontainer) rfl (.ok data) ?_
      rintro _ ⟨⟩
      exact Or.inl hmeets
    · rw [heq]
      rcases hlooks.ok hrun with ⟨hcontainer, -, hmeets, -⟩
      exact h.started (hlooked hcontainer) hmiddle.fetches hwaits hreleased hmeets

theorem Held.tryWakeup (h : entry.Held content id store) (hstore : store.Sound content)
    (hexpecting : store.waiters.Expecting store.table)
    (hawaits : store.waiters.Awaits content waiter id entry.offset)
    (hwaiter : entry.waiter? = some waiter) :
    entry.Resolves content id store (entry.tryWakeup waiter id deadline store).entry
      (entry.tryWakeup waiter id deadline store).store := by
  have hwaits := waits_of_waiter? hwaiter
  have hnoted : ∀ waiters, store.Prepares content { store with waiters } := fun waiters =>
    (Store.Prepares.refl content store).noting waiters _
  have hsettled : ∀ (e : Error) (waiters : Waiters),
      store.waiters.Released (some waiter) waiters none →
      entry.Resolves content id store
        (entry.settled (.error e) { store with waiters }).entry
        (entry.settled (.error e) { store with waiters }).store := fun e waiters hreleased =>
    h.settled (hnoted waiters) hwaits (by rw [hwaiter]; exact hreleased) nofun
  rcases store.waiters.look_cases waiter with
    ⟨wakeup, hmessage, hlook⟩ | ⟨-, ⟨-, hlook⟩ | ⟨hgone, hlook⟩⟩
  · rw [tryWakeup_of_message hlook]
    have hunmoved : store.Unmoved content
        { store with waiters := (store.waiters.receive waiter).2 } :=
      (Store.Unmoved.refl hstore).noting _ _ _ _
    refine h.tryWoken hunmoved.sound (hnoted _) hwaits ?_ (hawaits.look hlook)
    rw [hwaiter]
    exact .taken (hexpecting.proper.gone_of_message hmessage)
  · rw [tryWakeup_of_none hlook]
    split
    · exact hsettled _ _ (.left waiter)
    · exact h.unresolved
  · rw [tryWakeup_of_never hlook]
    exact hsettled .closed _ (.taken hgone)

theorem Held.tryFetch (h : entry.Held content id store) {ticket : Nat}
    (hwait : entry.wait = some (.fetch ticket)) :
    entry.Resolves content id store (entry.tryContent store).entry
      (entry.tryContent store).store := by
  have hwaits : entry.wait ≠ none := by
    rw [hwait]
    exact nofun
  have hsettled : ∀ {result : Except Error Bytes} {middle : Store FlakyTier},
      store.Prepares content middle → middle.waiters = store.waiters →
      (∀ data, result = .ok data → entry.Gets content id store data) →
      entry.Resolves content id store (entry.settled result middle).found.entry
        (entry.settled result middle).found.store := by
    intro result middle hprepares hwaiters hgets
    refine h.settled hprepares hwaits ?_ hgets
    rw [waiter?_of_fetch hwait, hwaiters]
    exact .kept none
  rw [tryFetch_eq hwait]
  cases houtcome : store.fetches.arrived.get? ticket with
  | some outcome =>
      refine hsettled (.takeOutcome store ticket) rfl ?_
      rintro data rfl
      exact Or.inr ⟨ticket, hwait, Or.inl houtcome⟩
  | none =>
      simp only
      split
      · exact h.unresolved
      · exact hsettled (.refl content store) rfl nofun

theorem Held.tryContent (h : entry.Held content id store) (hstore : store.Sound content)
    (hexpecting : store.waiters.Expecting store.table) (hhonest : entry.Honest content store) :
    entry.Resolves content id store (entry.tryContent store).entry
      (entry.tryContent store).store := by
  cases hwait : entry.wait with
  | none =>
      rw [tryContent_of_none hwait]
      exact h.awaitContent hstore hexpecting hhonest
  | some wait =>
      cases wait with
      | wakeup waiter segment deadline =>
          rcases h.waits hwait with ⟨rfl, -⟩
          rw [tryContent_of_wakeup hwait]
          exact h.tryWakeup hstore hexpecting (hhonest.awaits hwait) (waiter?_of_wakeup hwait)
      | fetch ticket => exact h.tryFetch hwait

/-! ## What an entry tells -/

/--
The entry is pending while it waits, and what it waits for is a piece of the segment.  Its
bytes are such a piece, and without bytes it has failed.
-/
structure Noted (content : Contents) (id : SegmentId) (store : Store FlakyTier) (entry : Entry) :
    Prop where
  given : entry.number < store.statuses.length
  waits : entry.wait ≠ none →
    entry.content = none ∧ entry.status store = .pending ∧ entry.kind.isTerminal = false
  fulfils : ∀ {ticket}, entry.wait = some (.fetch ticket) →
    store.fetches.Fulfils content id entry.offset entry.requested ticket
  got : ∀ {data}, entry.content = some data → entry.status store = .ready data.length ∧
    entry.kind.isTerminal = false ∧ content.Piece id entry.offset entry.requested data
  failed : entry.wait = none → entry.content = none → entry.status store = .failed

theorem Noted.wait_eq (h : entry.Noted content id store) {data : Bytes}
    (hdata : entry.content = some data) : entry.wait = none := by
  by_contra hwait
  rw [(h.waits hwait).1] at hdata
  cases hdata

theorem Noted.pending_iff (h : entry.Noted content id store) :
    entry.status store = .pending ↔ entry.wait ≠ none := by
  refine ⟨?_, fun hwait => (h.waits hwait).2.1⟩
  intro hpending hwait
  cases hdata : entry.content with
  | some data =>
      rw [(h.got hdata).1] at hpending
      cases hpending
  | none =>
      rw [h.failed hwait hdata] at hpending
      cases hpending

theorem Noted.of_ready (h : entry.Noted content id store) {n : Nat}
    (hready : entry.status store = .ready n) :
    ∃ data, entry.content = some data ∧ data.length = n ∧
      content.Piece id entry.offset entry.requested data := by
  have hwait : entry.wait = none := by
    by_contra hwait
    rw [(h.waits hwait).2.1] at hready
    cases hready
  cases hdata : entry.content with
  | some data =>
      rcases h.got hdata with ⟨hstatus, -, hpiece⟩
      rw [hstatus] at hready
      cases hready
      exact ⟨data, rfl, rfl, hpiece⟩
  | none =>
      rw [h.failed hwait hdata] at hready
      cases hready

theorem Noted.of_failed (h : entry.Noted content id store)
    (hfailed : entry.status store = .failed) : entry.wait = none ∧ entry.content = none := by
  constructor
  · by_contra hwait
    rw [(h.waits hwait).2.1] at hfailed
    cases hfailed
  · cases hdata : entry.content with
    | none => rfl
    | some data =>
        rw [(h.got hdata).1] at hfailed
        cases hfailed

end Entry

/-! ## New entries -/

namespace Store

variable {content : Contents} {store middle after : Store FlakyTier} {id : SegmentId}
  {offset requested : Nat} {entry : Entry}

/-- An entry was made that starts at this offset of the segment; if it waits, it was registered. -/
structure HandedOut (content : Contents) (id : SegmentId) (offset requested : Nat)
    (store : Store FlakyTier) (entry : Entry) (after : Store FlakyTier) : Prop where
  number_eq : entry.number = store.statuses.length
  offset_eq : entry.offset = offset
  requested_eq : entry.requested = requested
  held : entry.Held content id after
  noted : entry.Noted content id after
  table_eq : after.table = store.table
  statuses_eq : ∃ status, after.statuses = store.statuses ++ [status]
  evolves : store.fetches.Evolves store.container.tier after.fetches
  waiters : entry.waiter? = none ∧ after.waiters = store.waiters ∨
    entry.waiter? = some store.waiters.nextId ∧
      after.waiters = (store.waiters.register id offset).2 ∧
      store.table.Lacks ⟨store.waiters.nextId, id, offset⟩

theorem set_append_singleton (statuses : List EntryStatus) (status other : EntryStatus) :
    (statuses ++ [other]).set statuses.length status = statuses ++ [status] := by
  simp

theorem getD_append_singleton (statuses : List EntryStatus) (status : EntryStatus) :
    (statuses ++ [status]).getD statuses.length .pending = status := by
  simp [List.getD]

theorem lt_length_append_singleton (statuses : List EntryStatus) (status : EntryStatus) :
    statuses.length < (statuses ++ [status]).length := by
  simp

theorem Prepares.makeComplete (h : store.Prepares content middle)
    (hwaiters : middle.waiters = store.waiters) (hwanted : 0 < requested) (kind : EntryKind)
    {result : Except Error Bytes}
    (hresult : ∀ data, result = .ok data →
      kind.isTerminal = false ∧ content.Piece id offset requested data) :
    HandedOut content id offset requested store
      (Entry.makeComplete kind offset requested result middle).1
      (Entry.makeComplete kind offset requested result middle).2 := by
  have hmade : ∃ bytes failure,
      (Entry.makeComplete kind offset requested result middle).1 =
        { number := middle.statuses.length, kind, offset, requested, content := bytes, failure } ∧
      (Entry.makeComplete kind offset requested result middle).2 =
        { middle with statuses := middle.statuses ++ [Entry.statusOf result] } ∧
      (∀ data, bytes = some data → result = .ok data) ∧
      (bytes = none → Entry.statusOf result = .failed) := by
    have hset := congrArg (fun statuses => ({ middle with statuses } : Store FlakyTier))
      (set_append_singleton middle.statuses (Entry.statusOf result) .pending)
    cases result with
    | ok data =>
        exact ⟨some data, none, rfl, hset, fun _ h => congrArg _ (Option.some.inj h), nofun⟩
    | error e => exact ⟨none, some e, rfl, hset, nofun, fun _ => rfl⟩
  rcases hmade with ⟨bytes, failure, hentry, hstore, hgot, hfailed⟩
  have hgiven := lt_length_append_singleton middle.statuses (Entry.statusOf result)
  have hstatus := getD_append_singleton middle.statuses (Entry.statusOf result)
  rw [hentry, hstore]
  exact
    { number_eq := congrArg List.length h.statuses_eq
      offset_eq := rfl
      requested_eq := rfl
      held := ⟨hgiven, hwanted, fun hne => absurd rfl hne, nofun, nofun⟩
      noted :=
        { given := hgiven
          waits := fun hwait => absurd rfl hwait
          fulfils := nofun
          got := by
            intro data hdata
            have hok := hgot data hdata
            refine ⟨hstatus.trans ?_, hresult data hok⟩
            rw [hok]
            rfl
          failed := fun _ hnone => hstatus.trans (hfailed hnone) }
      table_eq := h.table_eq
      statuses_eq := ⟨Entry.statusOf result, by rw [h.statuses_eq]⟩
      evolves := h.evolves
      waiters := Or.inl ⟨rfl, hwaiters⟩ }

theorem makeWaiting_noted {kind : EntryKind} (hkind : kind.isTerminal = false) {wait : Wait}
    (hfulfils : ∀ {ticket}, wait = .fetch ticket →
      middle.fetches.Fulfils content id offset requested ticket) :
    (Entry.makeWaiting kind offset requested wait middle).1.Noted content id
      (Entry.makeWaiting kind offset requested wait middle).2 where
  given := lt_length_append_singleton middle.statuses .pending
  waits := fun _ => ⟨rfl, getD_append_singleton middle.statuses .pending, hkind⟩
  fulfils := fun hwait => hfulfils (Option.some.inj hwait)
  got := nofun
  failed := nofun

theorem Prepares.makeFetching (h : store.Prepares content middle)
    (hwaiters : middle.waiters = store.waiters) (hwanted : 0 < requested)
    {table : Table} (hsane : middle.fetches.Sane table) {request : FetchRequest}
    (hasks : request.Asks content id offset requested) :
    HandedOut content id offset requested store
      (Entry.makeWaiting .storage offset requested (.fetch (middle.startFetch request).1)
        (middle.startFetch request).2).1
      (Entry.makeWaiting .storage offset requested (.fetch (middle.startFetch request).1)
        (middle.startFetch request).2).2 := by
  have hfulfils : ∀ {ticket}, Wait.fetch (middle.startFetch request).1 = .fetch ticket →
      (middle.startFetch request).2.fetches.Fulfils content id offset requested ticket := by
    rintro ticket ⟨⟩
    exact startFetch_promises hsane hasks
  exact
    { number_eq := congrArg List.length h.statuses_eq
      offset_eq := rfl
      requested_eq := rfl
      held :=
        { given := lt_length_append_singleton middle.statuses .pending
          wanted := hwanted
          bare := fun _ => rfl
          brings := by
            rintro ticket ⟨⟩
            exact startFetch_promises hsane hasks.stop_le
          waits := nofun }
      noted := makeWaiting_noted rfl hfulfils
      table_eq := h.table_eq
      statuses_eq := ⟨.pending, congrArg (· ++ [EntryStatus.pending]) h.statuses_eq⟩
      evolves := (h.trans (.startFetch middle request)).evolves
      waiters := Or.inl ⟨rfl, hwaiters⟩ }

theorem waitingEntry_handedOut (hproper : store.waiters.Proper) (hid : id < store.table.nextId)
    (hwanted : 0 < requested)
    (hlacks : store.table.Lacks ⟨store.waiters.nextId, id, offset⟩) :
    HandedOut content id offset requested store (waitingEntry id offset requested store).1
      (waitingEntry id offset requested store).2 where
  number_eq := rfl
  offset_eq := rfl
  requested_eq := rfl
  held :=
    { given := lt_length_append_singleton store.statuses .pending
      wanted := hwanted
      bare := fun _ => rfl
      brings := nofun
      waits := by
        rintro waiter segment deadline ⟨⟩
        refine ⟨rfl, rfl, getD_append_singleton store.statuses .pending, hid, ?_⟩
        have hregistered := (Waiters.Proceeds.register store.waiters id offset).proper hproper
        have hmem : (⟨store.waiters.nextId, id, offset⟩ : Waiter) ∈
            (store.waiters.register id offset).2.waiting :=
          List.mem_append_right _ (List.mem_singleton_self _)
        have hlook := Waiters.look_of_waiting hmem (hregistered.unsent _ hmem)
        show ((store.waiters.register id offset).2.look store.waiters.nextId).Suits store.table
          id offset
        rw [hlook]
        exact .none }
  noted := makeWaiting_noted rfl nofun
  table_eq := rfl
  statuses_eq := ⟨.pending, rfl⟩
  evolves := .refl _ _
  waiters := Or.inr ⟨rfl, rfl, hlacks⟩

/-- An entry starts where it should, or it is refused, and then nobody was registered. -/
theorem Sound.entryAt_handsOut (h : store.Sound content) (hproper : store.waiters.Proper)
    (hwanted : 0 < requested) :
    Ends (entryAt id offset requested) store
      (fun entry after => HandedOut content id offset requested store entry after)
      (fun e after => (∃ cause, e = .refused cause) ∧ after = store) := by
  have hrefl := Prepares.refl content store
  refine ends_entryAt (fun cause => ⟨⟨cause, rfl⟩, rfl⟩) fun s hs hmerged => ⟨?_, ?_, ?_, ?_⟩
  · refine fun _ => making_ends (hrefl.makeComplete rfl hwanted _ ?_)
    nofun
  · refine fun _ _ => making_ends (hrefl.makeComplete rfl hwanted _ ?_)
    nofun
  · intro hshort hopen
    exact making_ends (waitingEntry_handedOut hproper (h.container.consistent.id_lt hs) hwanted
      ⟨s, hs, hopen, hmerged, hshort⟩)
  · intro hlt
    refine (h.container.lookup_meets hs hlt hwanted _).mono ?_ fun _ _ => False.elim
    rintro found container ⟨hunmoved, hmeets⟩
    have hprepares : store.Prepares content { store with container } := .with_container hunmoved
    constructor
    · rintro data rfl
      refine making_ends (hprepares.makeComplete rfl hwanted _ ?_)
      rintro _ ⟨⟩
      exact ⟨rfl, hmeets⟩
    · rintro request rfl
      exact making_ends (hprepares.makeFetching rfl hwanted h.fetches hmeets)

end Store

/-! ## Reads -/

namespace ReadResult

variable {content : Contents} {store : Store FlakyTier} {read : ReadResult}

/-- The read goes on inside its segment or at its end, also when its last entry is counted. -/
structure Within (content : Contents) (store : Store FlakyTier) (read : ReadResult) : Prop where
  stop_le : read.start + read.consumed ≤ (content read.segment).length
  given : ∀ {number}, read.last = some number → number < store.statuses.length
  counted : ∀ {number n}, read.last = some number →
    store.statuses.getD number .pending = .ready n →
    read.start + read.consumed + n ≤ (content read.segment).length

theorem Within.of_last_none (hstop : read.start + read.consumed ≤ (content read.segment).length)
    (hlast : read.last = none) : read.Within content store where
  stop_le := hstop
  given := by
    intro number hnumber
    rw [hlast] at hnumber
    cases hnumber
  counted := by
    intro number n hnumber
    rw [hlast] at hnumber
    cases hnumber

theorem read_ends (h : store.Sound content) (id : SegmentId) (offset maxLength : Nat) :
    Ends (Store.read id offset maxLength) store
      (fun read after => after = store ∧ read.Within content store ∧ read.last = none)
      (fun _ after => after = store) := by
  unfold Store.read
  refine Ends.bind ((Store.require_ends store id).mono ?_ ?_)
  · rintro s _ ⟨rfl, hs⟩
    have hlength := (h.container.consistent.segment hs).length_eq
    split
    · exact Ends.throw rfl
    · split
      · exact Ends.throw rfl
      · rename_i hle
        refine Ends.pure ⟨rfl, .of_last_none ?_ rfl, rfl⟩
        show offset + 0 ≤ (content id).length
        rw [← hlength]
        exact Nat.not_lt.mp hle
  · intro _ after hafter
    exact hafter

/-- A read whose last entry is counted is over, or is refused an entry, or hands one out. -/
inductive Reply.Steps (content : Contents) (store : Store FlakyTier) (read : ReadResult)
    (reply : Reply FlakyTier) : Prop
  | finished (hover : read.maxLength ≤ read.consumed)
      (hreply : reply = { result := .ok none, read := read.ended, store })
  | refused (hlt : read.consumed < read.maxLength) (cause : Refusal)
      (hreply : reply = { result := .error (.refused cause), read, store })
  | entry (hlt : read.consumed < read.maxLength) {entry : Entry} {after : Store FlakyTier}
      (hhanded : Store.HandedOut content read.segment (read.start + read.consumed)
        (read.maxLength - read.consumed) store entry after)
      (hreply : reply =
        { result := .ok (some entry)
          read := { read with last := some entry.number, finished := entry.kind.isTerminal }
          store := after })

theorem step_steps (h : store.Sound content) (hproper : store.waiters.Proper) :
    (read.step store).Steps content store read := by
  rcases read.step_cases store with ⟨hover, heq⟩ |
    ⟨hlt, ⟨entry, made, hrun, heq⟩ | ⟨e, made, hrun, heq⟩⟩
  · exact .finished hover heq
  · exact .entry hlt ((h.entryAt_handsOut hproper (Nat.sub_pos_of_lt hlt)).ok hrun) heq
  · rcases (h.entryAt_handsOut hproper (Nat.sub_pos_of_lt hlt)).error hrun with
      ⟨⟨cause, rfl⟩, rfl⟩
    exact .refused hlt cause heq

/-- The next entry is handed out when the bytes of the last one have been counted. -/
inductive Reply.Nexts (content : Contents) (store : Store FlakyTier) (read : ReadResult)
    (reply : Reply FlakyTier) : Prop
  | finished (hfinished : read.finished = true)
      (hreply : reply = { result := .ok none, read, store })
  | fresh (hfinished : read.finished = false) (hlast : read.last = none)
      (hsteps : reply.Steps content store read)
  | pending {number : Nat} (hfinished : read.finished = false) (hlast : read.last = some number)
      (hstatus : store.statuses.getD number .pending = .pending)
      (hreply : reply = { result := .error (.misuse .unresolvedEntry), read, store })
  | counted {number n : Nat} (hfinished : read.finished = false) (hlast : read.last = some number)
      (hstatus : store.statuses.getD number .pending = .ready n)
      (hsteps : reply.Steps content store
        { read with consumed := read.consumed + n, last := none })
  | failed {number : Nat} (hfinished : read.finished = false) (hlast : read.last = some number)
      (hstatus : store.statuses.getD number .pending = .failed)
      (hreply : reply = { result := .ok none, read := read.ended, store })

theorem next_nexts (h : store.Sound content) (hproper : store.waiters.Proper) :
    (read.next store).Nexts content store read := by
  unfold next
  split
  · rename_i hfinished
    exact .finished hfinished rfl
  · rename_i hfinished
    replace hfinished := Bool.eq_false_iff.mpr hfinished
    cases hlast : read.last with
    | none => exact .fresh hfinished hlast (step_steps h hproper)
    | some number =>
        simp only [Option.map_some]
        cases hstatus : store.statuses.getD number .pending with
        | pending => exact .pending hfinished hlast hstatus rfl
        | ready n => exact .counted hfinished hlast hstatus (step_steps h hproper)
        | failed => exact .failed hfinished hlast hstatus rfl

inductive Reply.Hands (content : Contents) (store : Store FlakyTier) (read : ReadResult)
    (reply : Reply FlakyTier) : Prop
  | nothing (hresult : ∀ entry, reply.result ≠ .ok (some entry)) (hstore : reply.store = store)
      (hread : reply.read = read ∨ reply.read.last = none)
      (hstop : reply.read.start + reply.read.consumed ≤ (content reply.read.segment).length)
  | entry (entry : Entry) (hresult : reply.result = .ok (some entry))
      (hhanded : Store.HandedOut content reply.read.segment
        (reply.read.start + reply.read.consumed) (reply.read.maxLength - reply.read.consumed)
        store entry reply.store)
      (hlast : reply.read.last = some entry.number)
      (hstop : reply.read.start + reply.read.consumed ≤ (content reply.read.segment).length)

private theorem ok_none_ne (entry : Entry) :
    (.ok none : Except Error (Option Entry)) ≠ .ok (some entry) := nofun

private theorem error_ne (e : Error) (entry : Entry) :
    (.error e : Except Error (Option Entry)) ≠ .ok (some entry) := nofun

theorem Reply.Steps.hands {reply : Reply FlakyTier} (h : reply.Steps content store read)
    {before : ReadResult} (hbefore : read = before ∨ read.last = none)
    (hstop : read.start + read.consumed ≤ (content read.segment).length) :
    reply.Hands content store before := by
  cases h with
  | finished hover hreply =>
      rw [hreply]
      exact .nothing ok_none_ne rfl (Or.inr rfl) hstop
  | refused hlt cause hreply =>
      rw [hreply]
      exact .nothing (error_ne _) rfl hbefore hstop
  | entry hlt hhanded hreply =>
      rw [hreply]
      exact .entry _ rfl hhanded rfl hstop

/-- The next entry of a read starts where the last one has ended. -/
theorem Within.next_hands (hread : read.Within content store) (h : store.Sound content)
    (hproper : store.waiters.Proper) : (read.next store).Hands content store read := by
  cases read.next_nexts h hproper with
  | finished hfinished hreply =>
      rw [hreply]
      exact .nothing ok_none_ne rfl (Or.inl rfl) hread.stop_le
  | fresh hfinished hlast hsteps => exact hsteps.hands (Or.inl rfl) hread.stop_le
  | pending hfinished hlast hstatus hreply =>
      rw [hreply]
      exact .nothing (error_ne _) rfl (Or.inl rfl) hread.stop_le
  | counted hfinished hlast hstatus hsteps =>
      refine hsteps.hands (Or.inr rfl) ?_
      show read.start + (read.consumed + _) ≤ (content read.segment).length
      rw [← Nat.add_assoc]
      exact hread.counted hlast hstatus
  | failed hfinished hlast hstatus hreply =>
      rw [hreply]
      exact .nothing ok_none_ne rfl (Or.inr rfl) hread.stop_le

end ReadResult
end TieredStore
