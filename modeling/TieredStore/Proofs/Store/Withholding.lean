import TieredStore.Proofs.Container.Withholding
import TieredStore.Proofs.Store.Lasting
import TieredStore.Proofs.Store.Polling

/-!
# Truncation is permanent

The first readable offset of a segment only grows, also when the store is closed and opened
again.  Below it a read hands out one entry that says so and is then over.  Whoever waited and
was woken for such bytes is told that they may not be read, and a read of the tier that is
carried out later fails, even if it was started when they could be read.  If the batch that it
was started for is gone and another segment has got its name, it may instead fail because that
object is too short.
-/

namespace TieredStore
namespace Entry

variable {content : Contents} {store : Store FlakyTier} {entry : Entry} {id : SegmentId}
  {t : Segment} {waiter ticket deadline : Nat} {e : Error}

/-- Whoever waits or looks first is told of this failure. -/
def Tells (entry : Entry) (e : Error) : Prop :=
  ∀ store : Store FlakyTier,
    (entry.awaitContent store).result = .error e ∧ (entry.tryContent store).result = .error e

theorem settled_error_result (hcontent : entry.content = none) (e : Error)
    (store : Store FlakyTier) : (entry.settled (.error e) store).result = .error e := by
  unfold settled complete current
  rw [hcontent]

/-! ## Whoever was woken -/

theorem Held.woken (h : entry.Held content id store) (hhonest : entry.Honest content store)
    (hexpecting : store.waiters.Expecting store.table) (hsound : store.Sound content)
    (ht : store.table.get? id = some t) (hlt : entry.offset < t.startOffset)
    (hwait : entry.wait = some (.wakeup waiter id deadline)) :
    ∃ length, store.waiters.look waiter = .message (.appended length) := by
  have hinside : entry.offset < t.length :=
    Nat.lt_of_lt_of_le hlt (hsound.container.consistent.segment ht).start_le
  rcases h.waits hwait with ⟨-, -, -, -, hsuits⟩
  rcases store.waiters.look_cases waiter with
    ⟨wakeup, -, hlook⟩ | ⟨-, ⟨⟨r, hr, hid⟩, -⟩ | ⟨-, hlook⟩⟩
  · rw [hlook] at hsuits ⊢
    cases hsuits with
    | appended length => exact ⟨length, rfl⟩
    | ended hends => exact absurd (hends t ht).2 (Nat.not_le.mpr hinside)
  · -- nobody waits for a byte that is there
    rcases (hhonest.awaits hwait).waiting r hr hid with ⟨hsegment, hoffset⟩
    rcases hexpecting.lacks r hr with ⟨s, hs, -, -, hshort⟩
    rw [hsegment, ht] at hs
    cases hs
    rw [hoffset] at hshort
    exact absurd hshort (Nat.not_le.mpr hinside)
  · exact absurd hlook hsuits.ne_never

theorem calling_withheld (ht : store.table.get? id = some t) {offset : Nat}
    (hlt : offset < t.startOffset) (count maxRead : Nat) :
    calling (Container.lookupWoken id offset count maxRead) store =
      (.error (.truncated id offset t.startOffset), store) := by
  unfold calling
  rw [Container.lookupWoken_withheld ht hlt]

theorem awaitWoken_withheld (hcontent : entry.content = none) (ht : store.table.get? id = some t)
    (hlt : entry.offset < t.startOffset) (length : Nat) :
    (entry.awaitWoken id (.appended length) store).result =
      .error (.truncated id entry.offset t.startOffset) := by
  unfold awaitWoken failureOf?
  simp only [calling_readWoken, calling_withheld ht hlt]
  exact settled_error_result hcontent _ _

theorem tryWoken_withheld (hcontent : entry.content = none) (ht : store.table.get? id = some t)
    (hlt : entry.offset < t.startOffset) (length : Nat) :
    (entry.tryWoken id (.appended length) store).result =
      .error (.truncated id entry.offset t.startOffset) := by
  unfold tryWoken failureOf?
  simp only [calling_withheld ht hlt]
  exact congrArg (Except.map some) (settled_error_result hcontent _ _)

theorem woken_withheld (hcontent : entry.content = none) (ht : store.table.get? id = some t)
    (hlt : entry.offset < t.startOffset)
    (hwait : entry.wait = some (.wakeup waiter id deadline)) {length : Nat}
    (hlook : store.waiters.look waiter = .message (.appended length)) :
    (entry.awaitContent store).result = .error (.truncated id entry.offset t.startOffset) ∧
      (entry.tryContent store).result = .error (.truncated id entry.offset t.startOffset) := by
  let received : Store FlakyTier := { store with waiters := (store.waiters.receive waiter).2 }
  have ht' : received.table.get? id = some t := ht
  constructor
  · have hwaits : entry.awaitContent store =
        entry.awaitWoken id (.appended length) received := by
      rw [awaitContent_of_wakeup hwait, awaitWakeup_of_message hlook]
    rw [hwaits]
    exact awaitWoken_withheld hcontent ht' hlt length
  · have hlooks : entry.tryContent store = entry.tryWoken id (.appended length) received := by
      rw [tryContent_of_wakeup hwait, tryWakeup_of_message hlook]
    rw [hlooks]
    exact tryWoken_withheld hcontent ht' hlt length

/-! ## Whoever waits for a read of the tier -/

theorem awaitContent_of_fails (hcontent : entry.content = none)
    (hwait : entry.wait = some (.fetch ticket))
    (hunsent : store.fetches.arrived.get? ticket = none)
    (hfails : store.settle.fetches.arrived.get? ticket = some (.error e)) :
    (entry.awaitContent store).result = .error e := by
  rw [awaitContent_of_fetch hwait, awaitFetch_of_none hunsent, hfails]
  exact settled_error_result hcontent e _

theorem poll_of_fails (h : store.Sound content) (hcontent : entry.content = none)
    (hwait : entry.wait = some (.fetch ticket))
    (hunsent : store.fetches.arrived.get? ticket = none)
    (hfails : store.settle.fetches.arrived.get? ticket = some (.error e))
    {pauses : List (Option Nat)} (hruns : ∃ milliseconds, some milliseconds ∈ pauses) :
    ∃ reply, entry.poll store pauses = some reply ∧ reply.result = .error e := by
  have hends : (entry.poll store pauses).isSome := by
    refine entry.poll_ends store hruns ?_
    intro waiter segment deadline hwakeup
    rw [hwait] at hwakeup
    cases hwakeup
  rcases Option.isSome_iff_exists.mp hends with ⟨reply, hreply⟩
  have hagrees := poll_agrees pauses h hreply
  exact ⟨reply, hreply,
    hagrees.result_eq.trans (awaitContent_of_fails hcontent hwait hunsent hfails)⟩

end Entry

namespace Store

variable {content : Contents} {store cut : Store FlakyTier} {id : SegmentId} {offset : Nat}
  {t : Segment}

/-! ## Reads of the tier -/

theorem Sound.settle_arrived (h : store.Sound content) {ticket : Nat} {request : FetchRequest}
    (hmem : (ticket, request) ∈ store.fetches.queue) :
    ∃ count, store.settle.fetches.arrived.get? ticket =
      some (Entry.calling (Container.fetch request) (store.settling count)).1 := by
  rcases List.append_of_mem hmem with ⟨before, rest, hqueue⟩
  have hsettling : store.settling before.length = before.foldl Store.runFetch store.idle := by
    unfold Store.settling
    rw [hqueue, List.take_left]
  have hsettle : store.settle =
      rest.foldl Store.runFetch
        ((before.foldl Store.runFetch store.idle).runFetch (ticket, request)) := by
    show store.fetches.queue.foldl Store.runFetch store.idle = _
    rw [hqueue, List.foldl_append]
    rfl
  -- the reads behind it have other numbers
  have hothers : ∀ fetch ∈ rest, fetch.1 ≠ ticket := by
    have hnodup := h.fetches.nodup
    rw [hqueue, List.map_append, List.map_cons] at hnodup
    rintro fetch hfetch rfl
    exact (List.nodup_cons.mp (List.nodup_append.mp hnodup).2.1).1
      (List.mem_map.mpr ⟨fetch, hfetch, rfl⟩)
  refine ⟨before.length, ?_⟩
  rw [hsettle, runFetches_arrived hothers, Entry.runFetch_eq, hsettling]
  exact SortedMap.get?_insert_self _ _ _

/-- A read that was started fails when it is carried out. -/
theorem Sound.settle_withheld (h : store.Sound content)
    (hreads : store.container.tier.failReads = false) {ticket : Nat} {request : FetchRequest}
    (hmem : (ticket, request) ∈ store.fetches.queue)
    (ht : store.table.get? request.segment = some t) (hlt : request.offset < t.startOffset) :
    ∃ e, request.Withheld store.table store.container.tier t e ∧
      store.settle.fetches.arrived.get? ticket = some (.error e) := by
  rcases h.settle_arrived hmem with ⟨count, harrived⟩
  rcases (h.settling count).container.fetch_withheld hreads (h.fetches.valid _ hmem) ht hlt with
    ⟨e, fetched, hrun, -, hwithheld⟩
  refine ⟨e, hwithheld, ?_⟩
  rw [harrived]
  unfold Entry.calling
  rw [hrun]

/-! ## Entries -/

theorem entryAt_withheld (ht : store.table.get? id = some t) (hlt : offset < t.startOffset)
    (requested : Nat) :
    Ends (entryAt id offset requested) store
      (fun entry _ => entry.kind = .truncated ∧
        entry.Tells (.truncated id offset t.startOffset))
      (fun _ _ => True) := by
  unfold entryAt
  refine Ends.bind (Ends.of_ok (require_of_get? ht) ?_)
  simp only
  split
  · exact Ends.throw trivial
  · exact making_ends ⟨rfl, fun _ => ⟨rfl, rfl⟩⟩

/-! ## Truncations -/

theorem Kept.truncate_advances {broken : Prop} (h : store.Kept broken content) {u : Unit}
    (hrun : (truncate id offset).run store = .ok u cut) :
    ∃ s, store.table.get? id = some s ∧
      (store.table.modify id ({ · with startOffset := offset })).Advances cut.table := by
  have hfresh : ∀ other, (Operation.truncate id offset).created? = some other →
      store.table.nextId ≤ other := by
    intro other hother
    cases hother
  have hexecuted : Executed (.truncate id offset) store cut :=
    (h.execute_atomic rfl hfresh).ok hrun
  rcases Table.apply_eq_ok_iff.mp (hexecuted.applies _ .refl) with ⟨⟨s, hs, -⟩, -, -⟩
  exact ⟨s, hs, hexecuted.noted.advances⟩

end Store

namespace ReadResult

variable {content : Contents} {store : Store FlakyTier} {read : ReadResult} {entry : Entry}
  {t : Segment}

theorem step_entry (h : (read.step store).result = .ok (some entry)) :
    ∃ offset requested, 0 < requested ∧
      (Store.entryAt read.segment offset requested).run store =
        .ok entry (read.step store).store ∧
      (read.step store).read.finished = entry.kind.isTerminal := by
  rcases read.step_cases store with ⟨-, heq⟩ | ⟨hlt, ⟨found, made, hrun, heq⟩ | ⟨e, made, -, heq⟩⟩
  · rw [heq] at h
    cases h
  · rw [heq] at h ⊢
    cases h
    exact ⟨_, _, Nat.sub_pos_of_lt hlt, hrun, rfl⟩
  · rw [heq] at h
    cases h

theorem next_entry (h : (read.next store).result = .ok (some entry)) :
    ∃ offset requested, 0 < requested ∧
      (Store.entryAt read.segment offset requested).run store =
        .ok entry (read.next store).store ∧
      (read.next store).read.finished = entry.kind.isTerminal := by
  unfold next at h ⊢
  split at h
  · cases h
  · rename_i hfinished
    rw [if_neg hfinished]
    split at h
    · exact step_entry h
    · cases h
    · exact step_entry h
    · cases h

theorem next_withheld (h : store.Sound content) (hproper : store.waiters.Proper)
    (ht : store.table.get? read.segment = some t)
    (hentry : (read.next store).result = .ok (some entry)) (hlt : entry.offset < t.startOffset) :
    entry.kind = .truncated ∧ (read.next store).read.finished = true ∧
      entry.Tells (.truncated read.segment entry.offset t.startOffset) := by
  rcases next_entry hentry with ⟨offset, requested, hwanted, hrun, hfinished⟩
  have hoffset := ((h.entryAt_handsOut hproper hwanted).ok hrun).offset_eq
  rw [hoffset] at hlt ⊢
  rcases (Store.entryAt_withheld ht hlt requested).ok hrun with ⟨hkind, htells⟩
  rw [hkind] at hfinished
  exact ⟨hkind, hfinished, htells⟩

end ReadResult

/-! ## Runs -/

/-- Nobody gets bytes of the segment below its first readable offset. -/
structure Store.Withholds (store : Store FlakyTier) (entries : List Entry) (id : SegmentId)
    (t : Segment) : Prop where
  /-- What a read hands out there says so, and the read is over. -/
  next : ∀ (read : ReadResult) (entry : Entry), read.segment = id →
    (read.next store).result = .ok (some entry) → entry.offset < t.startOffset →
    entry.kind = .truncated ∧ (read.next store).read.finished = true ∧
      entry.Tells (.truncated id entry.offset t.startOffset)
  /-- Whoever waited for a byte there was woken, and is told so whether he waits or looks. -/
  woken : ∀ entry ∈ entries, ∀ waiter deadline, entry.wait = some (.wakeup waiter id deadline) →
    entry.offset < t.startOffset →
    (∃ length, store.waiters.look waiter = .message (.appended length)) ∧
      (entry.awaitContent store).result = .error (.truncated id entry.offset t.startOffset) ∧
      (entry.tryContent store).result = .error (.truncated id entry.offset t.startOffset)
  /-- A read of the tier fails whenever it is carried out, and nothing is cached. -/
  fetched : store.container.tier.failReads = false → ∀ fetch ∈ store.fetches.queue,
    fetch.2.segment = id → fetch.2.offset < t.startOffset →
    ∀ reached, reached = store ∨ (∃ count, reached = store.settling count) →
      ∃ e container, (Container.fetch fetch.2).run reached.container = .error e container ∧
        container.cache = reached.container.cache ∧
        fetch.2.Withheld store.table store.container.tier t e
  /-- Whoever waits for it is told why, also if he looks until it has been carried out. -/
  answered : store.container.tier.failReads = false → ∀ fetch ∈ store.fetches.queue,
    fetch.2.segment = id → fetch.2.offset < t.startOffset →
    ∃ e, fetch.2.Withheld store.table store.container.tier t e ∧
      store.settle.fetches.arrived.get? fetch.1 = some (.error e) ∧
      ∀ entry ∈ entries, entry.wait = some (.fetch fetch.1) →
        (entry.awaitContent store).result = .error e ∧
          ∀ pauses : List (Option Nat), (∃ milliseconds, some milliseconds ∈ pauses) →
            ∃ reply, entry.poll store pauses = some reply ∧ reply.result = .error e

namespace ReaderRun

variable {run : ReaderRun} {store after : Store FlakyTier} {id : SegmentId} {offset : Nat}
  {t : Segment}

theorem Upheld.withholds (h : run.Upheld) (hopen : run.run.session = .opened store)
    (ht : store.table.get? id = some t) : store.Withholds run.entries id t := by
  have hsound := (StoreRun.Kept.opened h.kept hopen).sound
  have hholding := h.holding hopen
  constructor
  · rintro read entry rfl hentry hlt
    exact ReadResult.next_withheld hsound hholding.expecting.proper ht hentry hlt
  · intro entry hentry waiter deadline hwait hlt
    have hknown := hholding.known entry hentry
    rcases hknown.held with ⟨other, hheld, -⟩
    have hother : other = id := (hheld.waits hwait).1.symm
    rw [hother] at hheld
    have hbare : entry.content = none := hheld.bare (by rw [hwait]; exact nofun)
    rcases hheld.woken hknown.honest hholding.expecting hsound ht hlt hwait with ⟨length, hlook⟩
    exact ⟨⟨length, hlook⟩, Entry.woken_withheld hbare ht hlt hwait hlook⟩
  · rintro hreads fetch hfetch rfl hlt reached hreached
    have hvalid := hsound.fetches.valid fetch hfetch
    have hmoved : store.container.Unmoved run.run.content reached.container := by
      rcases hreached with rfl | ⟨count, rfl⟩
      · exact .refl hsound.container
      · exact (hsound.settling count).container
    exact hmoved.fetch_withheld hreads hvalid ht hlt
  · rintro hreads fetch hfetch rfl hlt
    rcases hsound.settle_withheld hreads hfetch ht hlt with ⟨e, hwithheld, hfails⟩
    refine ⟨e, hwithheld, hfails, fun entry hentry hwait => ?_⟩
    have hunsent := hsound.fetches.unsent fetch hfetch
    rcases (hholding.known entry hentry).held with ⟨other, hheld, -⟩
    have hbare : entry.content = none := hheld.bare (by rw [hwait]; exact nofun)
    exact ⟨Entry.awaitContent_of_fails hbare hwait hunsent hfails,
      fun pauses hruns => Entry.poll_of_fails hsound hbare hwait hunsent hfails hruns⟩

theorem Upheld.truncated_le (h : run.Upheld) (hopen : run.run.session = .opened store)
    {u : Unit} {cut : Store FlakyTier} (hcut : (Store.truncate id offset).run store = .ok u cut)
    (rest : List ReaderStep)
    (hafter : (run.steps (.step (.truncate id offset) :: rest)).run.session = .opened after)
    (ht : after.table.get? id = some t) : offset ≤ t.startOffset := by
  have hstore := StoreRun.Kept.opened h.kept hopen
  have hstep : (run.step (.step (.truncate id offset))).run.session = .opened cut := by
    rw [step_of_grants hopen rfl]
    show (run.run.call (Store.truncate id offset) fun _ => run.run.content).session = _
    unfold StoreRun.call
    rw [hopen]
    simp only [hcut]
  rcases hstore.truncate_advances hcut with ⟨s, hs, hadvances⟩
  have hlt : id < store.table.nextId := hstore.sound.container.consistent.id_lt hs
  -- the segment has come from the truncated one
  rcases (hadvances.trans ((h.step _).steps_advances hstep rest hafter)).kept ht hlt with
    ⟨r, hr, hbecomes⟩
  rw [Table.get?_modify_self, hs] at hr
  cases hr
  exact hbecomes.start_le

/--
The first readable offset of a segment never decreases and never lies behind its end, whatever
is done in between, and it is at least the offset of any truncation that was acknowledged.
Whenever the store is open and has the segment, nobody gets bytes below it: neither a read, nor
whoever was woken, nor whoever waits for a read of the tier, also if he began to wait before
the truncation.
-/
theorem truncation_is_permanent (list later : List ReaderStep)
    (hopen : (start.steps list).run.session = .opened store)
    (hafter : ((start.steps list).steps later).run.session = .opened after)
    (ht : after.table.get? id = some t) :
    t.startOffset ≤ t.length ∧
    (∀ s, store.table.get? id = some s → s.startOffset ≤ t.startOffset) ∧
    (∀ offset rest u cut, later = .step (.truncate id offset) :: rest →
      (Store.truncate id offset).run store = .ok u cut → offset ≤ t.startOffset) ∧
    after.Withholds ((start.steps list).steps later).entries id t := by
  have hupheld := upheld_steps list
  have hreached : ((start.steps list).steps later).Upheld := by
    rw [steps, steps, ← List.foldl_append]
    exact upheld_steps (list ++ later)
  have hconsistent := (StoreRun.Kept.opened hreached.kept hafter).sound.container.consistent
  refine ⟨(hconsistent.segment ht).start_le, ?_, ?_, hreached.withholds hafter ht⟩
  · intro s hs
    have hlt : id < store.table.nextId :=
      (StoreRun.Kept.opened hupheld.kept hopen).sound.container.consistent.id_lt hs
    exact ((hupheld.steps_advances hopen later hafter).becomes hs hlt ht).start_le
  · rintro offset rest u cut rfl hcut
    exact hupheld.truncated_le hopen hcut rest hafter ht

/-- One read waits for the tier, and one for the byte at the end, which is then appended. -/
private def reading : List ReaderStep :=
  [.step (.reopen { cacheMaxSize := 0 }), .step (.create "a"),
    .step (.append ⟨1, 7, 1, [97, 98, 99, 100]⟩), .step .flush, .read 1 0 4,
    .step (.next { segment := 1, start := 0, maxLength := 4, finished := false }), .read 1 4 4,
    .step (.next { segment := 1, start := 4, maxLength := 4, finished := false }),
    .step (.append ⟨1, 7, 2, [101, 102]⟩)]

private def truncating (offset : Nat) : List ReaderStep := [.step (.truncate 1 offset)]

private def truncates (offset : Nat) (store : Store FlakyTier) : Bool :=
  match (Store.truncate 1 offset).run store with
  | .ok _ _ => true
  | .error _ _ => false

private theorem of_truncates (h : truncates offset store = true) :
    ∃ u cut, (Store.truncate 1 offset).run store = .ok u cut := by
  unfold truncates at h
  split at h
  · rename_i u cut hrun
    exact ⟨u, cut, hrun⟩
  · cases h

private def fetching : Entry :=
  { number := 0, kind := .storage, offset := 0, requested := 4, wait := some (.fetch 0) }

private def appended : Entry :=
  { number := 1, kind := .future, offset := 4, requested := 4, wait := some (.wakeup 0 1 30000) }

/-- Both are refused the bytes when the segment has been truncated behind them. -/
theorem truncation_is_permanent_reading :
    ∃ store after t u cut, (start.steps reading).run.session = .opened store ∧
      ((start.steps reading).steps (truncating 5)).run.session = .opened after ∧
      after.table.get? 1 = some t ∧ (Store.truncate 1 5).run store = .ok u cut ∧
      5 ≤ t.startOffset ∧
      (fetching.awaitContent after).result = .error (.truncated 1 0 t.startOffset) ∧
      (appended.awaitContent after).result = .error (.truncated 1 4 t.startOffset) ∧
      (appended.tryContent after).result = .error (.truncated 1 4 t.startOffset) := by
  let request : FetchRequest :=
    { segment := 1, offset := 0, source := 1, sourceName := "a", sourceOffset := 0, length := 4 }
  have hisSome : (start.steps reading).run.session.store?.isSome = true := by decide +kernel
  have hcut : (start.steps reading).run.session.store?.map (truncates 5) = some true := by
    decide +kernel
  have hstart : ((start.steps reading).steps (truncating 5)).run.session.store?.bind (fun after =>
      (after.table.get? 1).map (·.startOffset)) = some 5 := by decide +kernel
  have hheld : fetching ∈ ((start.steps reading).steps (truncating 5)).entries ∧
      appended ∈ ((start.steps reading).steps (truncating 5)).entries := by decide +kernel
  have hqueue : ((start.steps reading).steps (truncating 5)).run.session.store?.map (fun after =>
      (after.fetches.queue, after.container.tier.failReads)) = some ([(0, request)], false) := by
    decide +kernel
  rcases Option.isSome_iff_exists.mp hisSome with ⟨store, hstore⟩
  rw [hstore] at hcut
  rcases of_truncates (Option.some.inj hcut) with ⟨u, cut, hrun⟩
  rcases Option.bind_eq_some_iff.mp hstart with ⟨after, hafter, hsegment⟩
  rcases Option.map_eq_some_iff.mp hsegment with ⟨t, ht, -⟩
  rw [hafter] at hqueue
  rcases Prod.mk.inj (Option.some.inj hqueue) with ⟨hqueued, hreads⟩
  have hopen := Session.eq_opened hstore
  have hopen' := Session.eq_opened hafter
  rcases truncation_is_permanent reading (truncating 5) hopen hopen' ht with
    ⟨-, -, htruncated, hwithholds⟩
  have hbehind : 5 ≤ t.startOffset := htruncated 5 [] u cut rfl hrun
  have hfirst : 0 < t.startOffset := Nat.lt_of_lt_of_le (by decide) hbehind
  have hsecond : 4 < t.startOffset := Nat.lt_of_lt_of_le (by decide) hbehind
  have hmem : (0, request) ∈ after.fetches.queue := by
    rw [hqueued]
    exact List.mem_singleton_self _
  rcases hwithholds.woken appended hheld.2 0 30000 rfl hsecond with ⟨-, hwoken⟩
  rcases hwithholds.answered hreads (0, request) hmem rfl hfirst with
    ⟨e, hwithheld, -, hentries⟩
  have hfetched := (hentries fetching hheld.1 rfl).1
  refine ⟨store, after, t, u, cut, hopen, hopen', ht, hrun, hbehind, ?_, hwoken⟩
  cases hwithheld with
  | truncated => exact hfetched
  | misled hmisled =>
      -- the segment itself is there
      cases hmisled with
      | short hgone =>
          rw [show after.table.get? request.source = some t from ht] at hgone
          cases hgone

/--
A read of a batch is on its way while the batch is joined to its parent, and another segment
gets the name of the batch.
-/
private def renamed : List ReaderStep :=
  [.step (.reopen { cacheMaxSize := 0 }), .step (.create "p"), .step (.createBatch 1 5),
    .step (.append ⟨2, 7, 1, [120, 121, 122]⟩), .step .flush, .step (.sealSegment 2),
    .step (.merge 2 1), .read 1 2 1,
    .step (.next { segment := 1, start := 2, maxLength := 1, finished := false }), .step .flush,
    .step (.create "p#batch.00000000000000000000000000000005"),
    .step (.append ⟨3, 7, 2, [113]⟩), .step .flush]

private def misled : Entry :=
  { number := 0, kind := .storage, offset := 2, requested := 1, wait := some (.fetch 0) }

/--
When the parent has been truncated behind the entry, the entry does not say so, as the object
that it asks for is too short.
-/
theorem truncation_hidden_renamed :
    ∃ store after t u cut, (start.steps renamed).run.session = .opened store ∧
      (Store.truncate 1 3).run store = .ok u cut ∧
      ((start.steps renamed).steps (truncating 3)).run.session = .opened after ∧
      after.table.get? 1 = some t ∧ t.startOffset = 3 ∧
      after.container.tier.failReads = false ∧
      misled ∈ ((start.steps renamed).steps (truncating 3)).entries ∧
      (misled.awaitContent after).result = .error (.storage (.readPastEnd 2 1 1)) := by
  have hisSome : (start.steps renamed).run.session.store?.isSome = true := by decide +kernel
  have hcut : (start.steps renamed).run.session.store?.map (truncates 3) = some true := by
    decide +kernel
  have hstart : ((start.steps renamed).steps (truncating 3)).run.session.store?.bind (fun after =>
      (after.table.get? 1).map (·.startOffset)) = some 3 := by decide +kernel
  have hheld : misled ∈ ((start.steps renamed).steps (truncating 3)).entries := by decide +kernel
  have hanswer : ((start.steps renamed).steps (truncating 3)).run.session.store?.map (fun after =>
      (after.container.tier.failReads, (misled.awaitContent after).result)) =
        some (false, .error (.storage (.readPastEnd 2 1 1))) := by decide +kernel
  rcases Option.isSome_iff_exists.mp hisSome with ⟨store, hstore⟩
  rw [hstore] at hcut
  rcases of_truncates (Option.some.inj hcut) with ⟨u, cut, hrun⟩
  rcases Option.bind_eq_some_iff.mp hstart with ⟨after, hafter, hsegment⟩
  rcases Option.map_eq_some_iff.mp hsegment with ⟨t, ht, hoffset⟩
  rw [hafter] at hanswer
  rcases Prod.mk.inj (Option.some.inj hanswer) with ⟨hreads, hresult⟩
  exact ⟨store, after, t, u, cut, Session.eq_opened hstore, hrun, Session.eq_opened hafter, ht,
    hoffset, hreads, hheld, hresult⟩

end ReaderRun
end TieredStore
