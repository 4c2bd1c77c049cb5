import TieredStore.Proofs.Store.Readers

/-!
# One look

A look at an entry gives what waiting for it would have given, or it leaves an entry for which
waiting still gives that: the one that it was, or one that waits for the read of the tier that
its message has asked for.

What is compared is the answer, the entry, and the store as far as entries go.  Where other
reads of the tier are on their way, they may fill the cache earlier or later than the entry's
own; what the entry gets is the same.
-/

namespace TieredStore

/-- Nothing happens, or reads of the tier are carried out and so many milliseconds pass. -/
def Store.pause {τ : Type} [Tier τ] (store : Store τ) : Option Nat → Store τ
  | none => store
  | some milliseconds => store.advance milliseconds

namespace Entry

def Reply.answer? {τ : Type} (reply : Reply τ (Option Bytes)) : Option (Reply τ Bytes) :=
  match reply.result with
  | .ok none => none
  | .ok (some data) => some { result := .ok data, entry := reply.entry, store := reply.store }
  | .error e => some { result := .error e, entry := reply.entry, store := reply.store }

@[simp] theorem Reply.answer?_found {τ : Type} (reply : Reply τ Bytes) :
    reply.found.answer? = some reply := by
  rcases reply with ⟨result, entry, store⟩
  cases result with
  | ok data => rfl
  | error e => rfl

end Entry

/-! ## Stores that are alike -/

namespace Store

/-- The stores agree on what entries are about, and on their caches under a condition. -/
structure Alike (alone : Prop) (store other : Store FlakyTier) : Prop where
  statuses_eq : store.statuses = other.statuses
  waiters_eq : store.waiters = other.waiters
  table_eq : store.table = other.table
  tier_same : FlakyTier.Same store.container.tier other.container.tier
  container_eq : alone → store.container = other.container

namespace Alike

variable {alone weaker : Prop} {store middle other : Store FlakyTier}

theorem refl (alone : Prop) (store : Store FlakyTier) : Alike alone store store :=
  ⟨rfl, rfl, rfl, .refl _, fun _ => rfl⟩

theorem trans (h : Alike alone store middle) (hother : Alike alone middle other) :
    Alike alone store other where
  statuses_eq := h.statuses_eq.trans hother.statuses_eq
  waiters_eq := h.waiters_eq.trans hother.waiters_eq
  table_eq := h.table_eq.trans hother.table_eq
  tier_same := h.tier_same.trans hother.tier_same
  container_eq := fun halone => (h.container_eq halone).trans (hother.container_eq halone)

theorem symm (h : Alike alone store other) : Alike alone other store where
  statuses_eq := h.statuses_eq.symm
  waiters_eq := h.waiters_eq.symm
  table_eq := h.table_eq.symm
  tier_same := h.tier_same.symm
  container_eq := fun halone => (h.container_eq halone).symm

theorem mono (h : Alike weaker store other) (himp : alone → weaker) : Alike alone store other :=
  { h with container_eq := fun halone => h.container_eq (himp halone) }

theorem of_eq (hstatuses : store.statuses = other.statuses)
    (hwaiters : store.waiters = other.waiters)
    (hcontainer : store.container = other.container) : Alike alone store other where
  statuses_eq := hstatuses
  waiters_eq := hwaiters
  table_eq := congrArg Container.table hcontainer
  tier_same := by
    rw [hcontainer]
    exact .refl _
  container_eq := fun _ => hcontainer

end Alike

variable {content : Contents} {store other : Store FlakyTier} {alone : Prop} {ticket : Nat}

/-! ## Reads of the tier are carried out -/

theorem settle_of_idle (hqueue : store.fetches.queue = []) (horphans : store.orphans = []) :
    store.settle = store := by
  rcases store with ⟨config, log, container, waiters, ⟨queue, arrived, next⟩, statuses, ops,
    recovery, now, orphans⟩
  cases hqueue
  cases horphans
  rfl

theorem settle_queue (store : Store FlakyTier) : store.settle.fetches.queue = [] :=
  (runFetches_yields store.fetches.queue store.idle).2.2.1

theorem pause_now (store : Store FlakyTier) (pause : Option Nat) :
    (store.pause pause).now = store.now + pause.getD 0 := by
  cases pause with
  | none => rfl
  | some milliseconds => exact congrArg (· + milliseconds) store.settle_now

theorem pause_waiters (store : Store FlakyTier) (pause : Option Nat) :
    (store.pause pause).waiters = store.waiters := by
  cases pause with
  | none => rfl
  | some milliseconds => exact store.settle_waiters

theorem advance_queue (store : Store FlakyTier) (milliseconds : Nat) :
    (store.advance milliseconds).fetches.queue = [] := store.settle_queue

theorem settle_advance (store : Store FlakyTier) (milliseconds : Nat) :
    (store.advance milliseconds).settle = store.advance milliseconds :=
  settle_of_idle store.settle_queue store.settle_orphans

theorem runFetches_arrived {queue : List (Nat × FetchRequest)}
    (hqueue : ∀ fetch ∈ queue, fetch.1 ≠ ticket) :
    ∀ store : Store FlakyTier, (queue.foldl runFetch store).fetches.arrived.get? ticket =
      store.fetches.arrived.get? ticket := by
  induction queue with
  | nil => exact fun _ => rfl
  | cons fetch rest ih =>
      intro store
      have hne : ticket ≠ fetch.1 := (hqueue fetch List.mem_cons_self).symm
      rw [List.foldl_cons, ih fun other hother => hqueue other (List.mem_cons_of_mem _ hother)]
      exact SortedMap.get?_insert_of_ne _ hne _

theorem Sound.pause (h : store.Sound content) (pause : Option Nat) :
    (store.pause pause).Sound content := by
  cases pause with
  | none => exact h
  | some milliseconds => exact (h.advance milliseconds).sound

theorem settle_alike (h : store.Sound content) (hqueue : alone → store.fetches.queue = [])
    (horphans : alone → store.orphans = []) : Alike alone store store.settle where
  statuses_eq := store.settle_statuses.symm
  waiters_eq := (settle_waiters store).symm
  table_eq := h.settle.container.table_eq.symm
  tier_same := store.settle_tier_same
  container_eq := fun halone => by rw [settle_of_idle (hqueue halone) (horphans halone)]

end Store

namespace Entry

open Store (Alike)

variable {content : Contents} {store other : Store FlakyTier} {entry : Entry} {alone weaker : Prop}
  {ticket waiter deadline : Nat} {segment : SegmentId}

/-! ## Answers that agree -/

structure Reply.Agrees (alone : Prop) (reply other : Reply FlakyTier Bytes) : Prop where
  result_eq : reply.result = other.result
  entry_eq : reply.entry = other.entry
  store : Alike alone reply.store other.store

theorem Reply.Agrees.refl (alone : Prop) (reply : Reply FlakyTier Bytes) :
    reply.Agrees alone reply := ⟨rfl, rfl, .refl _ _⟩

theorem Reply.Agrees.trans {reply middle last : Reply FlakyTier Bytes}
    (h : reply.Agrees alone middle) (hlast : middle.Agrees alone last) : reply.Agrees alone last :=
  ⟨h.result_eq.trans hlast.result_eq, h.entry_eq.trans hlast.entry_eq, h.store.trans hlast.store⟩

theorem Reply.Agrees.mono {reply last : Reply FlakyTier Bytes} (h : reply.Agrees weaker last)
    (himp : alone → weaker) : reply.Agrees alone last :=
  { h with store := h.store.mono himp }

theorem settled_agrees (h : Alike alone store other) (entry : Entry)
    (result : Except Error Bytes) :
    (entry.settled result store).Agrees alone (entry.settled result other) := by
  refine ⟨?_, ?_, ?_⟩
  · cases result with
    | ok data => rfl
    | error e => rfl
  · cases result with
    | ok data => rfl
    | error e => rfl
  · rw [settled_store, settled_store]
    exact { h with statuses_eq := congrArg (·.set entry.number (statusOf result)) h.statuses_eq }

theorem calling_alike {α : Type} {call : ContainerM FlakyTier α} (h : Alike alone store other)
    (htwins : Twins call call store.container other.container
      (fun a after a' last => a = a' ∧ last.table = after.table ∧
        FlakyTier.Same after.tier last.tier)
      (fun e after e' last => e = e' ∧ last.table = after.table ∧
        FlakyTier.Same after.tier last.tier)) :
    (calling call store).1 = (calling call other).1 ∧
      Alike alone (calling call store).2 (calling call other).2 := by
  unfold calling
  rcases htwins.cases with ⟨a, after, _, last, hrun, hrun', rfl, htable, htier⟩ |
    ⟨e, after, _, last, hrun, hrun', rfl, htable, htier⟩
  · rw [hrun, hrun']
    refine ⟨rfl, h.statuses_eq, h.waiters_eq, htable.symm, htier, fun halone => ?_⟩
    rw [h.container_eq halone, hrun'] at hrun
    cases hrun
    rfl
  · rw [hrun, hrun']
    refine ⟨rfl, h.statuses_eq, h.waiters_eq, htable.symm, htier, fun halone => ?_⟩
    rw [h.container_eq halone, hrun'] at hrun
    cases hrun
    rfl

/-- No reads of the tier are on their way but the one that the entry waits for. -/
structure Alone (entry : Entry) (store : Store FlakyTier) : Prop where
  orphans_eq : store.orphans = []
  own : ∀ fetch ∈ store.fetches.queue, entry.wait = some (.fetch fetch.1)

theorem Alone.queue_eq (h : entry.Alone store)
    (hother : ∀ fetch ∈ store.fetches.queue, entry.wait ≠ some (.fetch fetch.1)) :
    store.fetches.queue = [] :=
  List.eq_nil_iff_forall_not_mem.mpr fun fetch hfetch => hother fetch hfetch (h.own fetch hfetch)

theorem alone_advance (entry : Entry) (store : Store FlakyTier) (milliseconds : Nat) :
    entry.Alone (store.advance milliseconds) where
  orphans_eq := store.settle_orphans
  own := by
    intro fetch hfetch
    rw [store.advance_queue milliseconds] at hfetch
    cases hfetch

theorem Alone.pause (h : entry.Alone store) (pause : Option Nat) :
    entry.Alone (store.pause pause) := by
  cases pause with
  | none => exact h
  | some milliseconds => exact alone_advance entry store milliseconds

/-! ## Waiting for a read of the tier -/

theorem awaitFetch_pause (h : store.fetches.arrived.get? ticket = none) (pause : Option Nat) :
    (entry.awaitFetch ticket (store.pause pause)).Agrees alone
      (entry.awaitFetch ticket store) := by
  cases pause with
  | none => exact .refl _ _
  | some milliseconds =>
      have hafter : entry.awaitFetch ticket (store.advance milliseconds) =
          entry.settled ((store.settle.fetches.arrived.get? ticket).getD (.error .closed))
            ((store.advance milliseconds).takeOutcome ticket).2 := by
        rw [awaitFetch_eq]
        unfold Store.fetched
        rw [store.settle_advance, ite_self]
        rfl
      show (entry.awaitFetch ticket (store.advance milliseconds)).Agrees alone _
      have halike : Alike alone ((store.advance milliseconds).takeOutcome ticket).2
          (store.settle.takeOutcome ticket).2 := .of_eq rfl rfl rfl
      rw [hafter, awaitFetch_of_none h]
      exact settled_agrees halike entry _

theorem runFetch_eq (store : Store FlakyTier) (fetch : Nat × FetchRequest) :
    store.runFetch fetch =
      let called := calling (Container.fetch fetch.2) store
      let arrived := called.2.fetches.arrived.insert fetch.1 called.1
      { called.2 with fetches := { called.2.fetches with arrived } } := by
  unfold Store.runFetch calling
  cases (Container.fetch fetch.2).run store.container with
  | ok data container => rfl
  | error e container => rfl

theorem awaitFetch_started (h : store.Sound content) {request : FetchRequest}
    (hvalid : request.Valid store.container.table)
    (hqueue : alone → store.fetches.queue = []) (horphans : alone → store.orphans = []) :
    (entry.awaitFetch store.fetches.nextTicket (store.startFetch request).2).Agrees alone
      (entry.settled (calling (Container.fetch request) store).1
        (calling (Container.fetch request) store).2) := by
  have hstarted := h.startFetch hvalid
  have hidle := hstarted.trans hstarted.sound.idle
  -- the reads that were started before are carried out first
  have hsettle : (store.startFetch request).2.settle =
      (store.fetches.queue.foldl Store.runFetch (store.startFetch request).2.idle).runFetch
        (store.fetches.nextTicket, request) := by
    show (store.fetches.queue ++ [(store.fetches.nextTicket, request)]).foldl Store.runFetch
      (store.startFetch request).2.idle = _
    rw [List.foldl_append]
    rfl
  have hothers : Alike alone store
      (store.fetches.queue.foldl Store.runFetch (store.startFetch request).2.idle) := by
    have hruns := hidle.trans (Store.Sound.runFetches store.fetches.queue hidle.sound rfl
      fun fetch hfetch => ⟨h.fetches.valid fetch hfetch,
        Nat.lt_succ_of_lt (h.fetches.queue_lt fetch hfetch)⟩)
    refine ⟨?_, ?_, hruns.container.table_eq.symm, hruns.container.tier_same, fun halone => ?_⟩
    · rw [Store.runFetches_same]
      rfl
    · rw [Store.runFetches_same]
      rfl
    · rw [hqueue halone]
      show store.container =
        { store.container with tier := runOrphans store.container.tier store.orphans }
      rw [horphans halone]
      rfl
  rw [awaitFetch_of_none (h.startFetch_fresh request), hsettle, runFetch_eq]
  generalize store.fetches.queue.foldl Store.runFetch (store.startFetch request).2.idle =
    before at *
  rcases calling_alike hothers (Container.fetch_twins hothers.table_eq.symm hothers.tier_same
    request) with ⟨hresult, hcalled⟩
  simp only [SortedMap.get?_insert_self, Option.getD_some]
  rw [hresult]
  refine settled_agrees (Alike.trans ?_ hcalled.symm) entry _
  exact .of_eq rfl rfl rfl

/-! ## One look -/

/-- A look gives what waiting gives, or leaves an entry for which waiting still gives it. -/
inductive Reply.Foretells (alone : Prop) (reply : Reply FlakyTier (Option Bytes))
    (waited : Reply FlakyTier Bytes) : Prop
  | answered {found : Reply FlakyTier Bytes} (hfound : reply.answer? = some found)
      (hagrees : found.Agrees alone waited)
  | unanswered (hnone : reply.answer? = none)
      (hlater : ∀ pause,
        (reply.entry.awaitContent (reply.store.pause pause)).Agrees alone waited)
      (halone : ∀ pause, alone → reply.entry.Alone (reply.store.pause pause))

theorem Reply.Agrees.found {reply waited : Reply FlakyTier Bytes} (h : reply.Agrees alone waited) :
    reply.found.Foretells alone waited := .answered reply.answer?_found h

theorem tryFetch_foretells (h : store.Sound content) (hwait : entry.wait = some (.fetch ticket)) :
    (entry.tryContent store).Foretells (entry.Alone store) (entry.awaitContent store) := by
  have hwaits := awaitContent_of_fetch hwait
  rw [tryFetch_eq hwait, hwaits]
  cases harrived : store.fetches.arrived.get? ticket with
  | some result =>
      rw [awaitFetch_of_get? harrived]
      exact (Reply.Agrees.refl _ _).found
  | none =>
      simp only
      split
      · refine .unanswered rfl (fun pause => ?_) (fun pause halone => halone.pause pause)
        rw [hwaits]
        exact awaitFetch_pause harrived pause
      · -- nobody will ever send an outcome
        rename_i hgone
        have hothers : ∀ fetch ∈ store.fetches.queue, fetch.1 ≠ ticket := by
          intro fetch hfetch heq
          exact hgone (List.any_eq_true.mpr ⟨fetch, hfetch, beq_iff_eq.mpr heq⟩)
        have hnever : store.settle.fetches.arrived.get? ticket = none :=
          (Store.runFetches_arrived hothers store.idle).trans harrived
        have halike : Alike (entry.Alone store) store (store.settle.takeOutcome ticket).2 := by
          refine (Store.settle_alike h (fun halone => halone.queue_eq ?_) Alone.orphans_eq).trans
            (.of_eq rfl rfl rfl)
          intro fetch hfetch hown
          rw [hwait] at hown
          cases hown
          exact hothers fetch hfetch rfl
        rw [awaitFetch_of_none harrived, hnever]
        exact (settled_agrees halike entry _).found

theorem calling_readWoken (id : SegmentId) (offset count maxRead : Nat)
    (store : Store FlakyTier) :
    calling (readWoken id offset count maxRead) store =
      match calling (Container.lookupWoken id offset count maxRead) store with
      | (.error e, after) => (.error e, after)
      | (.ok (.cached data), after) => (.ok data, after)
      | (.ok (.stored request), after) => calling (Container.fetch request) after := by
  unfold calling readWoken
  rw [EStateM.run_bind]
  cases (Container.lookupWoken id offset count maxRead).run store.container with
  | error e container => rfl
  | ok found container =>
      cases found with
      | cached data => rfl
      | stored request => rfl

theorem started_foretells (h : store.Sound content) {request : FetchRequest}
    (hvalid : request.Valid store.container.table) (hqueue : alone → store.fetches.queue = [])
    (horphans : alone → store.orphans = []) (entry : Entry) :
    Reply.Foretells alone
      { result := .ok none
        entry := { entry with wait := some (.fetch store.fetches.nextTicket) }
        store := (store.startFetch request).2 }
      (entry.settled (calling (Container.fetch request) store).1
        (calling (Container.fetch request) store).2) := by
  have hsettled : ∀ result (after : Store FlakyTier),
      { entry with wait := some (.fetch store.fetches.nextTicket) }.settled result after =
        entry.settled result after := by
    intro result after
    cases result with
    | ok data => rfl
    | error e => rfl
  refine .unanswered rfl (fun pause => ?_) (fun pause halone => Alone.pause ?_ pause)
  · rw [← hsettled]
    exact (awaitFetch_pause (h.startFetch_fresh request) pause).trans
      (awaitFetch_started h hvalid hqueue horphans)
  · refine ⟨horphans halone, ?_⟩
    intro fetch hfetch
    replace hfetch : fetch ∈ store.fetches.queue ++ [(store.fetches.nextTicket, request)] := hfetch
    rw [hqueue halone] at hfetch
    rw [List.mem_singleton.mp hfetch]

theorem tryWoken_foretells (h : store.Sound content) (hqueue : alone → store.fetches.queue = [])
    (horphans : alone → store.orphans = []) (entry : Entry) (segment : SegmentId)
    (wakeup : Wakeup) :
    (entry.tryWoken segment wakeup store).Foretells alone
      (entry.awaitWoken segment wakeup store) := by
  unfold tryWoken awaitWoken
  cases failureOf? wakeup segment entry.offset with
  | some e => exact (Reply.Agrees.refl _ _).found
  | none =>
      have hlookup := h.container.lookupWoken_ends segment entry.offset entry.requested
        store.config.maxStorageReadSize
      simp only
      rw [calling_readWoken]
      unfold calling
      cases hrun : (Container.lookupWoken segment entry.offset entry.requested
          store.config.maxStorageReadSize).run store.container with
      | error e container => exact (Reply.Agrees.refl _ _).found
      | ok found container =>
          rcases hlookup.ok hrun with ⟨hcontainer, hvalid, -⟩
          cases found with
          | cached data => exact (Reply.Agrees.refl _ _).found
          | stored request =>
              have hlooked : Store.Sound content { store with container } :=
                (h.with_container hcontainer).sound
              have hrequest : request.Valid container.table := by
                rw [hcontainer.table_eq]
                exact hvalid request rfl
              exact started_foretells hlooked hrequest hqueue horphans entry

theorem awaitWakeup_pause (hlook : store.waiters.look waiter = .none)
    (hearly : ¬ deadline ≤ store.now) (pause : Option Nat) :
    (entry.awaitWakeup waiter segment deadline (store.pause pause)).Agrees alone
      (entry.awaitWakeup waiter segment deadline store) := by
  cases pause with
  | none => exact .refl _ _
  | some milliseconds =>
      have hlater : (store.advance milliseconds).waiters.look waiter = .none :=
        (congrArg (·.look waiter) (Store.settle_waiters store)).trans hlook
      show (entry.awaitWakeup waiter segment deadline (store.advance milliseconds)).Agrees _ _
      rw [awaitWakeup_of_none hlater, awaitWakeup_of_none hlook]
      unfold Store.waitedTo
      rw [store.settle_advance]
      simp only [if_neg hearly]
      refine settled_agrees ?_ entry _
      split
      · exact .of_eq rfl rfl rfl
      · exact .of_eq rfl rfl rfl

theorem tryWakeup_foretells (h : store.Sound content)
    (hwait : entry.wait = some (.wakeup waiter segment deadline)) :
    (entry.tryContent store).Foretells (entry.Alone store) (entry.awaitContent store) := by
  have hwaits := awaitContent_of_wakeup hwait
  have hqueue : entry.Alone store → store.fetches.queue = [] := by
    refine fun halone => halone.queue_eq ?_
    intro fetch _ hown
    rw [hwait] at hown
    cases hown
  rw [hwaits, tryContent_of_wakeup hwait]
  cases hlook : store.waiters.look waiter with
  | message wakeup =>
      have hreceived : Store.Sound content
          { store with waiters := (store.waiters.receive waiter).2 } :=
        ((Store.Unmoved.refl h).noting _ _ _ _).sound
      rw [tryWakeup_of_message hlook, awaitWakeup_of_message hlook]
      exact tryWoken_foretells hreceived hqueue Alone.orphans_eq entry segment wakeup
  | never =>
      rw [tryWakeup_of_never hlook, awaitWakeup_of_never hlook]
      exact (Reply.Agrees.refl _ _).found
  | none =>
      rw [tryWakeup_of_none hlook]
      by_cases hlate : deadline ≤ store.now
      · rw [awaitWakeup_of_none hlook, show store.waitedTo deadline = store from if_pos hlate,
          if_pos hlate]
        exact (Reply.Agrees.refl _ _).found
      · rw [if_neg hlate]
        refine .unanswered rfl (fun pause => ?_) (fun pause halone => halone.pause pause)
        rw [hwaits]
        exact awaitWakeup_pause hlook hlate pause

theorem tryContent_foretells (h : store.Sound content) (entry : Entry) :
    (entry.tryContent store).Foretells (entry.Alone store) (entry.awaitContent store) := by
  cases hwait : entry.wait with
  | none =>
      rw [tryContent_of_none hwait]
      exact (Reply.Agrees.refl _ _).found
  | some wait =>
      cases wait with
      | fetch ticket => exact tryFetch_foretells h hwait
      | wakeup waiter segment deadline => exact tryWakeup_foretells h hwait

end Entry
end TieredStore
