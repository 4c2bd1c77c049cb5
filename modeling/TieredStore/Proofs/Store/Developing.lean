import TieredStore.Proofs.Container.Requesting
import TieredStore.Proofs.Store.Attending
import TieredStore.Proofs.Store.Waking

/-!
# Reads in flight

While a store is open, every step develops its table.  So a request that a look-up has made
can be carried out at any later time: it gives the bytes that were looked for, unless they
may not be read any more.  Only for a batch it can be too late, as there is nothing left of
a batch that was joined to its parent.
-/

namespace TieredStore
namespace Store

variable {broken : Prop} {content : Contents} {store after : Store FlakyTier}

/-! ## Calls -/

theorem Kept.develops_of_bookkept (h : store.Kept broken content)
    (hafter : after.Kept broken content) (hnoted : store.table.Bookkept after.table) :
    store.table.Develops content content after.table :=
  hnoted.develops h.sound.container.consistent hafter.sound.container.consistent

theorem Kept.flush_develops (h : store.Kept broken content) :
    Ends flush store (fun _ after => store.table.Develops content content after.table)
      (fun _ after => store.table.Develops content content after.table) := by
  apply (h.flush_ends.and (flush_noted store)).mono
  · rintro _ after ⟨hafter, -, hnoted⟩
    exact h.develops_of_bookkept hafter hnoted
  · rintro _ after ⟨hafter, -, hnoted⟩
    exact h.develops_of_bookkept hafter hnoted

theorem Kept.checkpoint_develops (h : store.Kept broken content) :
    Ends checkpoint store (fun _ after => store.table.Develops content content after.table)
      (fun _ after => store.table.Develops content content after.table) := by
  apply (h.checkpoint_ends.and h.checkpoint_checkpointed).mono
  · rintro _ after ⟨hafter, hchecked⟩
    exact h.develops_of_bookkept hafter hchecked.noted
  · rintro _ after ⟨hafter, hchecked⟩
    exact h.develops_of_bookkept hafter hchecked.noted

theorem onLog_develops {α : Type} (call : LogM α) (content : Contents) (store : Store FlakyTier) :
    Ends (onLog call) store (fun _ after => store.table.Develops content content after.table)
      (fun _ after => store.table.Develops content content after.table) :=
  onLog_ends (.of_run (fun _ _ _ => .refl content store.table)
    fun _ _ _ => .refl content store.table)

theorem truncateLog_develops (content : Contents) (store : Store FlakyTier) :
    Ends truncateLog store (fun _ after => store.table.Develops content content after.table)
      (fun _ after => store.table.Develops content content after.table) :=
  ends_truncateLog (.refl content store.table) fun _ =>
    .of_run (fun _ _ _ => .refl content store.table) fun _ _ _ => .refl content store.table

theorem Kept.executes_develops (h : store.Kept broken content) {α : Type}
    {call : StoreM FlakyTier α} {written : α → Contents}
    (hcall : store.Executes content call written) :
    Ends call store (fun a after => store.table.Develops content (written a) after.table)
      (fun _ after => store.table.Develops content content after.table) := by
  have hconsistent := h.sound.container.consistent
  refine hcall.ends (fun _ => .refl content store.table) ?_
  intro op a hcheckpoint hfresh hwritten
  rw [← hwritten]
  refine h.taking_ends hcheckpoint hfresh ?_ ?_ ?_
  · exact fun _ => .refl content store.table
  · exact fun _ _ _ _ => .refl content store.table
  · intro log hop htaken
    have hperformed : store.table.Develops content (content.after op) (store.table.perform op) :=
      hconsistent.perform_develops hop hcheckpoint
    rw [← table_taken op log store] at hperformed
    apply (htaken.checkpointIfDue_ends.and htaken.checkpointIfDue_checkpointed).mono
    · rintro _ after ⟨hafter, hchecked, -⟩
      have hnoted := htaken.develops_of_bookkept hafter hchecked.noted
      exact hperformed.trans hnoted hconsistent htaken.sound.container.consistent
    · rintro _ _ ⟨hfalse, -⟩
      exact hfalse.elim

/-! ## Reads that are carried out together -/

/-- The store in the middle of settling, when so many reads have been carried out. -/
def settling (store : Store FlakyTier) (count : Nat) : Store FlakyTier :=
  (store.fetches.queue.take count).foldl runFetch store.idle

theorem Sound.settling (h : store.Sound content) (count : Nat) :
    store.Unmoved content (store.settling count) := by
  have hidle := h.idle
  refine hidle.trans (runFetches _ hidle.sound rfl ?_)
  intro fetch hfetch
  have hqueue := List.mem_of_mem_take hfetch
  exact ⟨h.fetches.valid fetch hqueue, h.fetches.queue_lt fetch hqueue⟩

end Store

namespace StoreRun

variable {broken : Prop} {store : Store FlakyTier}

/-! ## Steps -/

theorem develops_call {content : Contents} {α : Type} {call : StoreM FlakyTier α}
    {written : α → Contents}
    (hcall : Ends call store (fun a after => store.table.Develops content (written a) after.table)
      (fun _ after => store.table.Develops content content after.table)) :
    ∃ after,
      (StoreRun.call { session := .opened store, content } call written).session = .opened after ∧
      store.table.Develops content
        (StoreRun.call { session := .opened store, content } call written).content
        after.table :=
  call_opened rfl (fun grown after => store.table.Develops content grown after.table) hcall

theorem develops_of_table_eq {content : Contents} {after : Store FlakyTier}
    (h : after.table = store.table) : store.table.Develops content content after.table := by
  rw [h]
  exact .refl content store.table

theorem develops_step {run : StoreRun} (hopen : run.session = .opened store)
    (hkept : store.Kept broken run.content) {next : StoreStep} (hnext : next.keepsOpen = true) :
    ∃ after, (run.step next).session = .opened after ∧
      store.table.Develops run.content (run.step next).content after.table := by
  have hsound := hkept.sound
  rcases run with ⟨session, content⟩
  cases hopen
  cases next with
  | reopen config => cases hnext
  | close => cases hnext
  | create name => exact develops_call (hkept.executes_develops (hkept.executes_create name))
  | createBatch parent number =>
      exact develops_call (hkept.executes_develops (hkept.executes_createBatch parent number))
  | append request =>
      exact develops_call (hkept.executes_develops (Store.executes_append _ _ request))
  | sealSegment id =>
      exact develops_call (hkept.executes_develops (Store.executes_sealSegment _ _ id))
  | merge batch parent =>
      exact develops_call (hkept.executes_develops (Store.executes_merge _ _ batch parent))
  | truncate id offset =>
      exact develops_call (hkept.executes_develops (Store.executes_truncate _ _ id offset))
  | flush => exact develops_call hkept.flush_develops
  | checkpoint => exact develops_call hkept.checkpoint_develops
  | truncateLog => exact develops_call (Store.truncateLog_develops content store)
  | flushLog => exact develops_call (Store.onLog_develops Log.flush content store)
  | next read => exact ⟨_, rfl, develops_of_table_eq (hsound.next read).container.table_eq⟩
  | awaitEntry entry =>
      exact ⟨_, rfl, develops_of_table_eq (hsound.awaitContent entry).container.table_eq⟩
  | pollEntry entry =>
      exact ⟨_, rfl, develops_of_table_eq (hsound.tryContent entry).container.table_eq⟩
  | dropEntry entry =>
      exact ⟨_, rfl, develops_of_table_eq (hsound.drop entry).container.table_eq⟩
  | settle => exact ⟨_, rfl, develops_of_table_eq hsound.settle_prepares.table_eq⟩
  | advance milliseconds => exact ⟨_, rfl, develops_of_table_eq hsound.settle_prepares.table_eq⟩
  | switchLedgers change => exact ⟨_, rfl, .refl content store.table⟩
  | switchTier failReads failWrites interruptConcat =>
      exact ⟨_, rfl, .refl content store.table⟩

theorem Kept.steps_develops (list : List StoreStep) :
    ∀ {run : StoreRun} {store : Store FlakyTier}, run.Kept True → run.session = .opened store →
      (∀ next ∈ list, next.keepsOpen = true) →
      ∃ after, (run.steps list).session = .opened after ∧
        store.table.Develops run.content (run.steps list).content after.table := by
  induction list with
  | nil =>
      intro run store _ hopen _
      exact ⟨store, hopen, .refl _ _⟩
  | cons next rest ih =>
      intro run store hkept hopen hlist
      have hstore := hkept.opened hopen
      have hnext := hkept.step next fun _ => trivial
      rcases develops_step hopen hstore (hlist next List.mem_cons_self) with
        ⟨middle, hmiddle, hdevelops⟩
      rcases ih hnext hmiddle (fun other hother => hlist other (List.mem_cons_of_mem _ hother)) with
        ⟨after, hafter, hrest⟩
      exact ⟨after, hafter, hdevelops.trans hrest hstore.sound.container.consistent
        (hnext.opened hmiddle).sound.container.consistent⟩

/-! ## Runs -/

theorem Kept.steps_developed {run : StoreRun} (h : run.Kept True)
    (hopen : run.session = .opened store) {list : List StoreStep}
    (hlist : ∀ next ∈ list, next.keepsOpen = true) {after reached : Store FlakyTier}
    (hafter : (run.steps list).session = .opened after)
    (hreached : reached = after ∨ ∃ others, reached = after.settling others)
    (hspares : store.table.SparesBatches after.table) :
    after.container.Unmoved (run.steps list).content reached.container ∧
      reached.container.DevelopedFrom run.content (run.steps list).content store.table := by
  rcases h.steps_develops list hopen hlist with ⟨other, hother, hdevelops⟩
  rw [hafter] at hother
  cases hother
  have hstore := (h.opened hopen).sound.container
  have hsound := ((h.steps list fun _ => trivial).opened hafter).sound
  have hdeveloped : after.container.DevelopedFrom run.content (run.steps list).content
      store.table :=
    { sound := hsound.container
      consistent := hstore.consistent
      wellFormed := hstore.wellFormed
      develops := hdevelops
      spares := hspares }
  have hmoved : after.container.Unmoved (run.steps list).content reached.container := by
    rcases hreached with rfl | ⟨others, rfl⟩
    · exact .refl hsound.container
    · exact (hsound.settling others).container
  exact ⟨hmoved, hdeveloped.unmoved hmoved⟩

/--
A request that a look-up has made at any point of a run is carried out at any later one,
after steps that leave the store open and also between other reads of the tier.  The look-up
may be a call of its own or a part of the next step.  If the tier can be read and no new
segment has the name of a batch that was there at the look-up, this gives the bytes that the
segment had at the offset, or says that they have been made unreadable.  Else the segment was
a batch that is gone, and its object is not found.  What is cached is the content of the
segment under which it is cached.
-/
theorem fetches_stay_right (list later : List StoreStep) {store after reached : Store FlakyTier}
    (hopen : (start.steps list).session = .opened store) {id : SegmentId} {s : Segment}
    (hs : store.table.get? id = some s) {offset count maxRead : Nat} {request : FetchRequest}
    {container looked : Container FlakyTier}
    (hlookup : (Container.lookup s offset count maxRead).run store.container =
      .ok (.stored request) container)
    (hlooked : looked = container ∨ looked = store.container)
    (hlater : ∀ next ∈ later, next.keepsOpen = true) {run : StoreRun}
    (hrun : run = StoreRun.steps { start.steps list with
      session := .opened { store with container := looked } } later)
    (hafter : run.session = .opened after)
    (hreached : reached = after ∨ ∃ others, reached = after.settling others)
    (hspares : store.table.SparesBatches after.table)
    (hreads : after.container.tier.failReads = false) :
    (∀ data fetched, (Container.fetch request).run reached.container = .ok data fetched →
      data = Bytes.slice ((start.steps list).content id) offset request.length ∧
      data = Bytes.slice (run.content id) offset data.length ∧ data.length = request.length ∧
      (∃ t, after.table.get? id = some t ∧ t.startOffset ≤ offset) ∧
      fetched.cache.Faithful run.content ∧
      (fetched.cache = reached.container.cache ∨
        fetched.cache = reached.container.cache.put request.source request.sourceOffset data ∧
        Bytes.slice (run.content request.source) request.sourceOffset data.length = data)) ∧
    ∀ e fetched, (Container.fetch request).run reached.container = .error e fetched →
      fetched.cache = reached.container.cache ∧
      ((∃ t, after.table.get? id = some t ∧ offset < t.startOffset ∧
          e = .truncated id offset t.startOffset) ∨
        ∃ p, s.parent = some p ∧ after.table.Absorbed run.content id p ∧
          e = .storage (.notFound s.name)) := by
  have hkept : (start.steps list).Kept True := kept_start.steps list fun _ => trivial
  have hstore := hkept.opened hopen
  have hcontainer := hstore.sound.container
  have hunmoved : store.container.Unmoved (start.steps list).content looked := by
    rcases hlooked with rfl | rfl
    · exact ((hcontainer.lookup_ends hs offset count maxRead).ok hlookup).1
    · exact .refl hcontainer
  -- the run goes on from the container that was looked into
  have hgoes : StoreRun.Kept True { start.steps list with
      session := .opened { store with container := looked } } :=
    (hstore.sound.with_container hunmoved).kept hstore
  have htable : ({ store with container := looked } : Store FlakyTier).table = store.table :=
    hunmoved.table_eq
  rw [← htable] at hspares
  rw [hrun] at hafter
  rcases hgoes.steps_developed rfl hlater hafter hreached hspares with ⟨hmoved, hdeveloped⟩
  rw [htable, ← hrun] at hdeveloped
  rw [← hmoved.tier_same.failReads_eq] at hreads
  rcases (Container.lookup_placed hcontainer.consistent s offset count maxRead).ok hlookup
    request rfl with ⟨hsegment, rfl, hplaced⟩
  rw [hcontainer.consistent.id_eq hs] at hsegment
  have hfetch := hdeveloped.fetch_placed hreads hs hsegment hplaced
  have hstop := (hdeveloped.source_eq hs (hcontainer.consistent.id_eq hs) hplaced).1
  have htable' : reached.container.table = after.table := hmoved.table_eq
  rw [htable'] at hfetch
  constructor
  · intro data fetched hfetched
    rcases hfetch.ok hfetched with ⟨rfl, hreadable, hdone, hsource⟩
    have hlength := Bytes.length_slice_of_le hstop
    refine ⟨rfl, ?_, hlength, hreadable, ?_, ?_⟩
    · rw [hlength]
      exact Bytes.slice_of_prefix (hdeveloped.develops.grows id) hstop
    · rcases hdone.cache with hsame | ⟨-, hput⟩
      · rw [hsame]
        exact hdeveloped.sound.cached.faithful
      · rw [hput]
        exact hdeveloped.sound.cached.faithful.put hsource
    · exact hdone.cache.imp_right fun hput => ⟨hput.2, hsource⟩
  · intro e fetched hfetched
    rcases hfetch.error hfetched with ⟨-, hcache, -, hcause⟩
    exact ⟨hcache, hcause⟩

/-- A batch is in the tier and pending in its parent, and nothing is cached. -/
private def pendingBatch : List StoreStep :=
  [.reopen { cacheMaxSize := 0, maxStorageReadSize := 2 }, .create "a",
    .append ⟨1, 7, 1, [97, 98, 99]⟩, .createBatch 1 5, .append ⟨2, 7, 2, [100, 101]⟩,
    .sealSegment 2, .flush, .merge 2 1]

private def joining : List StoreStep :=
  [.switchTier false false true, .flush, .switchTier false false false, .create "b",
    .append ⟨1, 7, 3, [102]⟩, .flush]

private def requested (store : Store FlakyTier) (id : SegmentId) (offset : Nat) :
    Option FetchRequest :=
  (store.table.get? id).bind fun s =>
    match (Container.lookup s offset 10 8).run store.container with
    | .ok (.stored request) _ => some request
    | _ => none

private theorem of_requested {id : SegmentId} {offset : Nat} {request : FetchRequest}
    (h : requested store id offset = some request) :
    ∃ s container, store.table.get? id = some s ∧
      (Container.lookup s offset 10 8).run store.container = .ok (.stored request) container := by
  rcases Option.bind_eq_some_iff.mp h with ⟨s, hs, hfound⟩
  split at hfound
  · rename_i found container hlookup
    cases hfound
    exact ⟨s, container, hs, hlookup⟩
  · cases hfound

/--
While a request for a batch's bytes in the parent is in flight, the batch is joined to the
parent, where the bytes are found.
-/
theorem fetches_stay_right_joined :
    ∃ store after s request container data fetched,
      (start.steps pendingBatch).session = .opened store ∧ store.table.get? 1 = some s ∧
      (Container.lookup s 3 10 8).run store.container = .ok (.stored request) container ∧
      request.source = 2 ∧ ((start.steps pendingBatch).steps joining).session = .opened after ∧
      after.table.get? 2 = none ∧
      (Container.fetch request).run after.container = .ok data fetched ∧ data = [100, 101] ∧
      fetched.cache.Faithful ((start.steps pendingBatch).steps joining).content := by
  let request : FetchRequest :=
    { segment := 1, offset := 3, source := 2,
      sourceName := "a#batch.00000000000000000000000000000005", sourceOffset := 0, length := 2,
      fallback := some ("a", 3) }
  have hisSome : (start.steps pendingBatch).session.store?.isSome = true := by decide +kernel
  have hisSome' : ((start.steps pendingBatch).steps joining).session.store?.isSome = true := by
    decide +kernel
  have hrequested : (start.steps pendingBatch).session.store?.bind (requested · 1 3) =
      some request := by decide +kernel
  have hjoined : ((start.steps pendingBatch).steps joining).session.store?.map (fun after =>
      (after.table.get? 2, after.container.tier.failReads)) = some (none, false) := by
    decide +kernel
  have hspares : (start.steps pendingBatch).session.store?.bind (fun store =>
      ((start.steps pendingBatch).steps joining).session.store?.map fun after =>
        decide (store.table.SparesBatches after.table)) = some true := by decide +kernel
  have hgiven : ((start.steps pendingBatch).steps joining).session.store?.bind (fun after =>
      match (Container.fetch request).run after.container with
      | .ok data _ => some data.length
      | .error _ _ => none) = some 2 := by decide +kernel
  have hcontent : (start.steps pendingBatch).content 1 = [97, 98, 99, 100, 101] := by
    decide +kernel
  rcases Option.isSome_iff_exists.mp hisSome with ⟨store, hstore⟩
  rcases Option.isSome_iff_exists.mp hisSome' with ⟨after, hafter⟩
  rw [hstore] at hrequested hspares
  rw [hafter] at hjoined hspares hgiven
  have hopen := Session.eq_opened hstore
  have hopen' := Session.eq_opened hafter
  rcases of_requested hrequested with ⟨s, container, hs, hlookup⟩
  rcases Prod.mk.inj (Option.some.inj hjoined) with ⟨hgone, hreads⟩
  have hsame : ({ start.steps pendingBatch with session := .opened store } : StoreRun) =
      start.steps pendingBatch := by rw [← hopen]
  have hrun : (start.steps pendingBatch).steps joining =
      StoreRun.steps { start.steps pendingBatch with
        session := .opened { store with container := store.container } } joining :=
    congrArg (StoreRun.steps · joining) hsame.symm
  cases hfetch : (Container.fetch request).run after.container with
  | error e fetched =>
      replace hgiven : (match (Container.fetch request).run after.container with
        | .ok data _ => some data.length
        | .error _ _ => none) = some 2 := hgiven
      rw [hfetch] at hgiven
      cases hgiven
  | ok data fetched =>
      have hright := (fetches_stay_right pendingBatch joining hopen hs hlookup (Or.inr rfl)
        (by decide) hrun hopen' (Or.inl rfl) (of_decide_eq_true (Option.some.inj hspares)) hreads).1 data fetched
        hfetch
      rcases hright with ⟨hdata, -, -, -, hfaithful, -⟩
      rw [hcontent] at hdata
      exact ⟨store, after, s, request, container, data, fetched, hopen, hs, hlookup, rfl, hopen',
        hgone, hfetch, hdata, hfaithful⟩

end StoreRun
end TieredStore
