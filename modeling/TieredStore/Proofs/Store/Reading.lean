import TieredStore.Proofs.Store.Waiting
import TieredStore.Read.Drain

/-!
# Reading gives the contents

A read that starts in the readable part of a segment is handed one entry after
the other.  As long as there are bytes, waiting for an entry brings at least one
and at most as many as are wanted, and they are those of the content.  At the end
of the segment an entry waits for more bytes or says that there will be none.
-/

namespace TieredStore
namespace Store

variable {content : Contents} {store : Store FlakyTier} {id : SegmentId} {s : Segment}
  {offset requested : Nat}

/-! ## One entry -/

def Brings (content : Contents) (id : SegmentId) (s : Segment) (offset requested : Nat)
    (store : Store FlakyTier) (entry : Entry) (made : Store FlakyTier) : Prop :=
  (entry.kind = .cache ∨ entry.kind = .storage) ∧ ∃ data entry' after,
    entry.awaitContent made = ⟨.ok data, entry', after⟩ ∧ store.Unmoved content after ∧
    0 < data.length ∧ data.length ≤ requested ∧ offset + data.length ≤ s.length ∧
    data = Bytes.slice (content id) offset data.length ∧
    after.statuses.getD entry.number .pending = .ready data.length

theorem getD_set_append {statuses : List EntryStatus} (status : EntryStatus) :
    ((statuses ++ [EntryStatus.pending]).set statuses.length status).getD statuses.length
      .pending = status := by
  simp [List.getD]

theorem brings_cached {container : Container FlakyTier} {data : Bytes}
    (hunmoved : store.Unmoved content { store with container })
    (hserves : (Found.cached data).Serves content store.container.table id s offset requested) :
    Ends (making (Entry.makeComplete .cache offset requested (.ok data))) { store with container }
      (fun entry made => Brings content id s offset requested store entry made)
      (fun _ _ => False) := by
  rcases hserves with ⟨hpos, hle, hstop, hdata⟩
  refine ⟨Or.inl rfl, data, _, _, rfl, ?_, hpos, hle, hstop, hdata, ?_⟩
  · exact hunmoved.noting store.waiters _ store.now store.orphans
  · exact getD_set_append _

theorem statuses_runFetches (queue : List (Nat × FetchRequest)) (store : Store FlakyTier) :
    (queue.foldl runFetch store).statuses = store.statuses := by
  rw [runFetches_same]

theorem Sound.runFetch_arrived (h : store.Sound content) {request : FetchRequest} (ticket : Nat)
    (hvalid : request.Valid store.container.table)
    (hreads : store.container.tier.failReads = false)
    (hs : store.container.table.get? request.segment = some s)
    (hstart : s.startOffset ≤ request.offset) {source : Segment}
    (hsource : store.container.table.get? request.source = some source) :
    (store.runFetch (ticket, request)).fetches.arrived.get? ticket = some (.ok
      (Bytes.slice (content request.source) request.sourceOffset request.length)) := by
  have hfetch := h.container.fetch_ends hvalid
  unfold Store.runFetch
  cases hrun : (Container.fetch request).run store.container with
  | ok data container =>
      rw [← (hfetch.ok hrun).2 source hsource]
      exact SortedMap.get?_insert_self _ _ _
  | error e container =>
      rcases (hfetch.error hrun).2 source hsource with hfails | htruncated
      · rw [hreads] at hfails
        cases hfails
      · rcases htruncated with ⟨t, ht, hlt⟩
        rw [hs] at ht
        cases ht
        exact absurd hlt (Nat.not_lt.mpr hstart)

theorem Sound.settle_startFetch (h : store.Sound content) {request : FetchRequest}
    (hvalid : request.Valid store.container.table)
    (hreads : store.container.tier.failReads = false)
    (hs : store.container.table.get? request.segment = some s)
    (hstart : s.startOffset ≤ request.offset) {source : Segment}
    (hsource : store.container.table.get? request.source = some source) :
    (store.startFetch request).2.settle.statuses = store.statuses ∧
      (store.startFetch request).2.settle.fetches.arrived.get? store.fetches.nextTicket =
        some (.ok (Bytes.slice (content request.source) request.sourceOffset request.length)) := by
  let started := (store.startFetch request).2
  let earlier := store.fetches.queue.foldl Store.runFetch started.idle
  have hsettle : started.settle = earlier.runFetch (store.fetches.nextTicket, request) := by
    show (store.fetches.queue ++ [_]).foldl Store.runFetch started.idle = _
    rw [List.foldl_append]
    rfl
  have hstarted := h.startFetch hvalid
  have hidle := hstarted.trans hstarted.sound.idle
  have hearlier : store.Unmoved content earlier := by
    refine hidle.trans (Sound.runFetches store.fetches.queue hidle.sound rfl ?_)
    intro fetch hfetch
    rw [hidle.container.table_eq]
    exact ⟨h.fetches.valid fetch hfetch, Nat.lt_succ_of_lt (h.fetches.queue_lt fetch hfetch)⟩
  have htable := hearlier.container.table_eq
  show started.settle.statuses = _ ∧ started.settle.fetches.arrived.get? _ = _
  rw [hsettle]
  constructor
  · rw [runFetch_same]
    exact statuses_runFetches _ _
  · refine @Sound.runFetch_arrived content _ s hearlier.sound request _ ?_ ?_ ?_ hstart source ?_
    · rw [htable]
      exact hvalid
    · rw [hearlier.container.tier_same.failReads_eq]
      exact hreads
    · rw [htable]
      exact hs
    · rw [htable]
      exact hsource

theorem brings_stored (h : store.Sound content) {request : FetchRequest}
    (hvalid : request.Valid store.container.table)
    (hreads : store.container.tier.failReads = false)
    (hs : store.container.table.get? id = some s) (hstart : s.startOffset ≤ offset)
    (hserves : (Found.stored request).Serves content store.container.table id s offset requested) :
    Ends (making fun store =>
        Entry.makeWaiting .storage offset requested (.fetch (store.startFetch request).1)
          (store.startFetch request).2) store
      (fun entry made => Brings content id s offset requested store entry made)
      (fun _ _ => False) := by
  rcases hserves with ⟨hpos, hle, hstop, hsegment, hoffset, hsource, hslice⟩
  rcases hsource with ⟨source, hsource⟩
  subst hsegment hoffset
  have hnoted : store.Unmoved content { store with statuses := store.statuses ++ [.pending] } :=
    (Unmoved.refl h).noting store.waiters _ store.now store.orphans
  let made := (Store.startFetch request
    { store with statuses := store.statuses ++ [.pending] }).2
  have hmade : store.Unmoved content made := hnoted.trans (hnoted.sound.startFetch hvalid)
  rcases hnoted.sound.settle_startFetch hvalid hreads hs hstart hsource with
    ⟨hstatuses, harrived⟩
  have hnew : made.fetches.arrived.get? store.fetches.nextTicket = none :=
    h.startFetch_fresh request
  have hsettled := hmade.trans hmade.sound.settle
  have htaken := hsettled.trans (hsettled.sound.takeOutcome store.fetches.nextTicket)
  have hlength : (Bytes.slice (content request.source) request.sourceOffset
      request.length).length = request.length := by
    have hcontent := (h.container.consistent.segment hs).length_eq
    rw [hslice, Bytes.length_slice_of_le (by rw [← hcontent]; exact hstop)]
  let data := Bytes.slice (content request.source) request.sourceOffset request.length
  let entry : Entry :=
    { number := store.statuses.length, kind := .storage, offset := request.offset, requested,
      wait := some (.fetch store.fetches.nextTicket) }
  have hawait : entry.awaitContent made = entry.settled (.ok data)
      (made.settle.takeOutcome store.fetches.nextTicket).2 := by
    show entry.awaitFetch store.fetches.nextTicket made = _
    rw [Entry.awaitFetch_of_none hnew,
      show made.settle.fetches.arrived.get? store.fetches.nextTicket = some (.ok data) from
        harrived]
    rfl
  refine ⟨Or.inr rfl, data, _, _, hawait, ?_, ?_, ?_, ?_, ?_, ?_⟩
  · exact htaken.trans (htaken.sound.settled entry (.ok data))
  · rw [hlength]
    exact hpos
  · rw [hlength]
    exact hle
  · rw [hlength]
    exact hstop
  · rw [hlength]
    exact hslice
  · show (made.settle.statuses.set store.statuses.length _).getD store.statuses.length _ = _
    rw [show made.settle.statuses = store.statuses ++ [.pending] from hstatuses]
    exact getD_set_append _

theorem Brings.of_unmoved {middle : Store FlakyTier} {entry : Entry} {made : Store FlakyTier}
    (h : Brings content id s offset requested middle entry made)
    (hmiddle : store.Unmoved content middle) :
    Brings content id s offset requested store entry made := by
  rcases h with ⟨hkind, data, entry', after, hawait, hafter, hrest⟩
  exact ⟨hkind, data, entry', after, hawait, hmiddle.trans hafter, hrest⟩

theorem Sound.entryAt_brings (h : store.Sound content)
    (hs : store.container.table.get? id = some s) (hmerged : s.merged = false)
    (hstart : s.startOffset ≤ offset) (hlt : offset < s.length) (hpos : 0 < requested)
    (hreads : store.container.tier.failReads = false) :
    Ends (entryAt id offset requested) store
      (fun entry made => Brings content id s offset requested store entry made)
      (fun _ _ => False) := by
  unfold entryAt
  refine Ends.bind (Ends.of_ok (require_of_get? hs) ?_)
  extract_lets complete
  rw [if_neg (by rw [hmerged]; exact Bool.false_ne_true), if_neg (Nat.not_lt.mpr hstart),
    if_neg (Nat.not_le.mpr hlt)]
  refine Ends.get (Ends.bind (onContainer_ends
    ((h.container.lookup_ends hs offset requested store.config.maxStorageReadSize).mono ?_ ?_)))
  · intro found container hfound
    rcases hfound with ⟨hunmoved, hvalid, hserves⟩
    have hserves := hserves hlt hpos
    have hcontainer := h.with_container hunmoved
    cases found with
    | cached data => exact brings_cached hcontainer hserves
    | stored request =>
        have hvalid := hvalid request rfl
        rw [← hunmoved.table_eq] at hvalid hserves hs
        refine (brings_stored hcontainer.sound hvalid ?_ hs hstart hserves).mono ?_ ?_
        · rw [← hreads]
          exact hunmoved.tier_same.failReads_eq
        · intro entry made hbrings
          exact hbrings.of_unmoved hcontainer
        · intro _ _ hfalse
          exact hfalse
  · intro _ container hfailed
    exact hfailed.2 hlt

/-! ## The end of a segment -/

theorem Sound.entryAt_open (h : store.Sound content)
    (hs : store.container.table.get? id = some s) (hmerged : s.merged = false)
    (hstart : s.startOffset ≤ offset) (hle : s.length ≤ offset) (hsealed : s.sealed = false)
    (requested : Nat) :
    Ends (entryAt id offset requested) store
      (fun entry made => store.Unmoved content made ∧ entry.kind = .future ∧ entry.offset = offset)
      (fun _ _ => False) := by
  unfold entryAt
  refine Ends.bind (Ends.of_ok (require_of_get? hs) ?_)
  extract_lets complete
  rw [if_neg (by rw [hmerged]; exact Bool.false_ne_true), if_neg (Nat.not_lt.mpr hstart),
    if_pos hle, if_neg (by rw [hsealed]; exact Bool.false_ne_true)]
  exact ⟨(Unmoved.refl h).noting _ _ store.now store.orphans, rfl, rfl⟩

theorem Sound.entryAt_sealed (h : store.Sound content)
    (hs : store.container.table.get? id = some s) (hmerged : s.merged = false)
    (hstart : s.startOffset ≤ offset) (hle : s.length ≤ offset) (hsealed : s.sealed = true)
    (requested : Nat) :
    Ends (entryAt id offset requested) store
      (fun entry made => store.Unmoved content made ∧ entry =
        { number := store.statuses.length, kind := .endOfSegment, offset, requested,
          failure := some (.endOfSegment id offset) })
      (fun _ _ => False) := by
  unfold entryAt
  refine Ends.bind (Ends.of_ok (require_of_get? hs) ?_)
  extract_lets complete
  rw [if_neg (by rw [hmerged]; exact Bool.false_ne_true), if_neg (Nat.not_lt.mpr hstart),
    if_pos hle, if_pos hsealed]
  exact ⟨(Unmoved.refl h).noting store.waiters _ store.now store.orphans, rfl⟩

end Store

/-! ## Draining a read -/

namespace Drained

def readAt (id : SegmentId) (offset maxLength consumed : Nat) : ReadResult :=
  { segment := id, start := offset, maxLength, consumed, finished := decide (maxLength = 0) }

def readWith (id : SegmentId) (offset maxLength consumed : Nat) (entry : Entry) : ReadResult :=
  { readAt id offset maxLength consumed with
    last := some entry.number, finished := entry.kind.isTerminal }

/-- What has been drained so far is the content up to where the next entry starts. -/
structure Underway (content : Contents) (id : SegmentId) (s : Segment) (offset maxLength : Nat)
    (drained : Drained) (store : Store FlakyTier) : Prop where
  sound : store.Sound content
  segment : store.container.table.get? id = some s
  reads : store.container.tier.failReads = false
  data_eq : drained.data = Bytes.slice (content id) offset drained.data.length
  stop_le : offset + drained.data.length ≤ s.length
  wanted : drained.data.length ≤ maxLength
  failure_eq : drained.failure = none
  counted : drained.read = readAt id offset maxLength drained.data.length ∨
    ∃ number consumed length, drained.read =
        { readAt id offset maxLength consumed with last := some number, finished := false } ∧
      store.statuses.getD number .pending = .ready length ∧
      consumed + length = drained.data.length

/--
What a drained read gives: the wanted bytes.  If there were fewer, the last entry
waits at the end of the segment or says that it is the end.
-/
structure Exact (content : Contents) (id : SegmentId) (s : Segment) (offset maxLength : Nat)
    (drained : Drained) : Prop where
  data_eq : drained.data = Bytes.slice (content id) offset maxLength
  enough : offset + maxLength ≤ s.length → drained.failure = none
  future : s.length < offset + maxLength → s.sealed = false → drained.failure = none ∧
    drained.pieces.getLast? = some { kind := .future, offset := s.length, length := none }
  ended : s.length < offset + maxLength → s.sealed = true →
    drained.failure = some (.endOfSegment id s.length) ∧
    drained.pieces.getLast? = some { kind := .endOfSegment, offset := s.length, length := none }

variable {content : Contents} {store : Store FlakyTier} {id : SegmentId} {s : Segment}
  {offset maxLength : Nat} {drained : Drained}

theorem Exact.of_enough (hdata : drained.data = Bytes.slice (content id) offset maxLength)
    (hstop : offset + maxLength ≤ s.length) (hfailure : drained.failure = none) :
    drained.Exact content id s offset maxLength where
  data_eq := hdata
  enough := fun _ => hfailure
  future := fun hlt => absurd hstop (Nat.not_le.mpr hlt)
  ended := fun hlt => absurd hstop (Nat.not_le.mpr hlt)

theorem Exact.of_waiting (hdata : drained.data = Bytes.slice (content id) offset maxLength)
    (hshort : s.length < offset + maxLength) (hopen : s.sealed = false)
    (hfailure : drained.failure = none) (hlast : drained.pieces.getLast? =
      some { kind := .future, offset := s.length, length := none }) :
    drained.Exact content id s offset maxLength where
  data_eq := hdata
  enough := fun hle => absurd hshort (Nat.not_lt.mpr hle)
  future := fun _ _ => ⟨hfailure, hlast⟩
  ended := fun _ hsealed => absurd (hopen.symm.trans hsealed) Bool.false_ne_true

theorem Exact.of_ended (hdata : drained.data = Bytes.slice (content id) offset maxLength)
    (hshort : s.length < offset + maxLength) (hsealed : s.sealed = true)
    (hfailure : drained.failure = some (.endOfSegment id s.length))
    (hlast : drained.pieces.getLast? =
      some { kind := .endOfSegment, offset := s.length, length := none }) :
    drained.Exact content id s offset maxLength where
  data_eq := hdata
  enough := fun hle => absurd hshort (Nat.not_lt.mpr hle)
  future := fun _ hopen => absurd (hopen.symm.trans hsealed) Bool.false_ne_true
  ended := fun _ _ => ⟨hfailure, hlast⟩

namespace Underway

theorem next_eq (h : drained.Underway content id s offset maxLength store)
    (hpos : 0 < maxLength) :
    drained.read.next store =
      (readAt id offset maxLength drained.data.length).step store := by
  have hnonzero : decide (maxLength = 0) = false := decide_eq_false (Nat.ne_of_gt hpos)
  rcases h.counted with hstart | hlater
  · rw [hstart]
    unfold ReadResult.next readAt
    simp only [hnonzero, Bool.false_eq_true, if_false, Option.map_none]
  · rcases hlater with ⟨number, consumed, length, hread, hstatus, hlength⟩
    rw [hread]
    unfold ReadResult.next readAt
    simp only [hnonzero, Bool.false_eq_true, if_false, Option.map_some, hstatus, hlength]

theorem next_of_made (h : drained.Underway content id s offset maxLength store)
    (hlt : drained.data.length < maxLength) {entry : Entry} {made : Store FlakyTier}
    (hrun : (Store.entryAt id (offset + drained.data.length)
      (maxLength - drained.data.length)).run store = .ok entry made) :
    drained.read.next store =
      { result := .ok (some entry)
        read := readWith id offset maxLength drained.data.length entry
        store := made } := by
  rw [h.next_eq (Nat.lt_of_le_of_lt (Nat.zero_le _) hlt)]
  exact @ReadResult.step_of_ok _ (readAt id offset maxLength drained.data.length) _ _ _ hlt hrun

theorem next_of_used (h : drained.Underway content id s offset maxLength store)
    (hused : drained.data.length = maxLength) :
    ∃ read, drained.read.next store = { result := .ok none, read, store } := by
  rcases Nat.eq_zero_or_pos maxLength with hzero | hpos
  · rcases h.counted with hstart | hlater
    · refine ⟨drained.read, ?_⟩
      have hfinished : drained.read.finished = true := by
        rw [hstart]
        exact decide_eq_true hzero
      unfold ReadResult.next
      rw [if_pos hfinished]
    · rcases hlater with ⟨number, consumed, length, hread, hstatus, hlength⟩
      rw [hread]
      unfold ReadResult.next readAt
      simp only [Bool.false_eq_true, if_false, Option.map_some, hstatus, hlength]
      exact ⟨_, ReadResult.step_of_le (Nat.le_of_eq hused.symm)⟩
  · rw [h.next_eq hpos]
    exact ⟨_, ReadResult.step_of_le (Nat.le_of_eq hused.symm)⟩

theorem goOn_of_used (h : drained.Underway content id s offset maxLength store)
    (hused : drained.data.length = maxLength) :
    ∃ done, done.Exact content id s offset maxLength ∧
      ∀ fuel, goOn (fuel + 1) drained store = (done, store) := by
  rcases h.next_of_used hused with ⟨read, hnext⟩
  refine ⟨{ drained with read }, ?_, ?_⟩
  · refine Exact.of_enough ?_ ?_ h.failure_eq
    · rw [← hused]
      exact h.data_eq
    · rw [← hused]
      exact h.stop_le
  · intro fuel
    unfold goOn
    rw [hnext]

theorem goOn_of_lt (h : drained.Underway content id s offset maxLength store)
    (hmerged : s.merged = false) (hstart : s.startOffset ≤ offset)
    (hlt : drained.data.length < maxLength) (hmore : offset + drained.data.length < s.length) :
    ∃ drained' store', drained'.Underway content id s offset maxLength store' ∧
      drained.data.length < drained'.data.length ∧
      ∀ fuel, goOn (fuel + 1) drained store = goOn fuel drained' store' := by
  have hentry := h.sound.entryAt_brings h.segment hmerged
    (Nat.le_trans hstart (Nat.le_add_right _ _)) hmore (Nat.sub_pos_of_lt hlt) h.reads
  rcases hentry.exists_ok with ⟨entry, made, hrun, hkind, data, entry', after, hawait, hunmoved,
    hdataPos, hdataLe, hstop, hdata, hstatus⟩
  have hwritten : entry.kind.isTerminal = false ∧ entry.kind ≠ .future := by
    rcases hkind with hcache | hstorage
    · rw [hcache]
      exact ⟨rfl, nofun⟩
    · rw [hstorage]
      exact ⟨rfl, nofun⟩
  let read := readWith id offset maxLength drained.data.length entry
  have hlength : (drained.data ++ data).length = drained.data.length + data.length :=
    List.length_append
  refine ⟨note { drained with read } entry' (some data), after, ?_, ?_, ?_⟩
  · refine
      { sound := hunmoved.sound
        segment := by rw [hunmoved.container.table_eq]; exact h.segment
        reads := by rw [hunmoved.container.tier_same.failReads_eq]; exact h.reads
        data_eq := ?_
        stop_le := ?_
        wanted := ?_
        failure_eq := h.failure_eq
        counted := Or.inr
          ⟨entry.number, drained.data.length, data.length, ?_, hstatus, hlength.symm⟩ }
    · show drained.data ++ data = Bytes.slice _ _ (drained.data ++ data).length
      rw [hlength, ← Bytes.slice_append_slice, ← h.data_eq, ← hdata]
    · show offset + (drained.data ++ data).length ≤ s.length
      rw [hlength, ← Nat.add_assoc]
      exact hstop
    · show (drained.data ++ data).length ≤ maxLength
      rw [hlength]
      exact Nat.add_le_of_le_sub' h.wanted hdataLe
    · show read = _
      simp only [read, readWith, hwritten.1]
  · show drained.data.length < (drained.data ++ data).length
    rw [hlength]
    exact Nat.lt_add_of_pos_right hdataPos
  · intro fuel
    rw [goOn, h.next_of_made hlt hrun]
    simp only [if_neg hwritten.2, hawait]
    rfl

theorem data_of_end (h : drained.Underway content id s offset maxLength store)
    (hend : offset + drained.data.length = s.length) :
    drained.data = Bytes.slice (content id) offset maxLength := by
  have hlength := (h.sound.container.consistent.segment h.segment).length_eq
  rw [h.data_eq, Bytes.slice_of_length_le, Bytes.slice_of_length_le]
  · rw [← hlength, ← hend]
    exact Nat.add_le_add_left h.wanted _
  · exact Nat.le_of_eq (hlength.symm.trans hend.symm)

theorem goOn_of_open (h : drained.Underway content id s offset maxLength store)
    (hmerged : s.merged = false) (hstart : s.startOffset ≤ offset)
    (hlt : drained.data.length < maxLength) (hend : offset + drained.data.length = s.length)
    (hopen : s.sealed = false) :
    ∃ done after, done.Exact content id s offset maxLength ∧ store.Unmoved content after ∧
      ∀ fuel, goOn (fuel + 1) drained store = (done, after) := by
  have hentry := h.sound.entryAt_open h.segment hmerged
    (Nat.le_trans hstart (Nat.le_add_right _ _)) (Nat.le_of_eq hend.symm) hopen
    (maxLength - drained.data.length)
  rcases hentry.exists_ok with ⟨entry, made, hrun, hunmoved, hkind, hoffset⟩
  let read := readWith id offset maxLength drained.data.length entry
  refine ⟨note { drained with read } entry none, entry.drop made, ?_,
    hunmoved.trans (hunmoved.sound.drop entry), ?_⟩
  · refine Exact.of_waiting ?_ (hend ▸ Nat.add_lt_add_left hlt _) hopen h.failure_eq ?_
    · show drained.data ++ [] = _
      rw [List.append_nil]
      exact h.data_of_end hend
    · show (drained.pieces ++ [_]).getLast? = _
      rw [List.getLast?_concat, hkind, hoffset, hend]
      rfl
  · intro fuel
    rw [goOn, h.next_of_made hlt hrun]
    simp only [if_pos hkind]
    rfl

theorem goOn_of_sealed (h : drained.Underway content id s offset maxLength store)
    (hmerged : s.merged = false) (hstart : s.startOffset ≤ offset)
    (hlt : drained.data.length < maxLength) (hend : offset + drained.data.length = s.length)
    (hsealed : s.sealed = true) :
    ∃ done after, done.Exact content id s offset maxLength ∧ store.Unmoved content after ∧
      ∀ fuel, goOn (fuel + 1) drained store = (done, after) := by
  have hentry := h.sound.entryAt_sealed h.segment hmerged
    (Nat.le_trans hstart (Nat.le_add_right _ _)) (Nat.le_of_eq hend.symm) hsealed
    (maxLength - drained.data.length)
  rcases hentry.exists_ok with ⟨entry, made, hrun, hunmoved, rfl⟩
  let entry : Entry :=
    { number := store.statuses.length, kind := .endOfSegment,
      offset := offset + drained.data.length, requested := maxLength - drained.data.length }
  let read := readWith id offset maxLength drained.data.length entry
  let noted := note { drained with read } entry none
  refine ⟨{ noted with failure := some (.endOfSegment id (offset + drained.data.length)) },
    made, ?_, hunmoved, ?_⟩
  · refine Exact.of_ended ?_ (hend ▸ Nat.add_lt_add_left hlt _) hsealed ?_ ?_
    · show drained.data ++ [] = _
      rw [List.append_nil]
      exact h.data_of_end hend
    · show some (Error.endOfSegment id (offset + drained.data.length)) = _
      rw [hend]
    · show (drained.pieces ++ [_]).getLast? = _
      rw [List.getLast?_concat]
      show some (Piece.mk .endOfSegment (offset + drained.data.length) none) = _
      rw [hend]
  · intro fuel
    rw [goOn, h.next_of_made hlt hrun]
    rfl

/-- At the end of the segment one more entry is handed out, which brings nothing. -/
theorem goOn_of_end (h : drained.Underway content id s offset maxLength store)
    (hmerged : s.merged = false) (hstart : s.startOffset ≤ offset)
    (hlt : drained.data.length < maxLength) (hend : offset + drained.data.length = s.length) :
    ∃ done after, done.Exact content id s offset maxLength ∧ store.Unmoved content after ∧
      ∀ fuel, goOn (fuel + 1) drained store = (done, after) := by
  cases hsealed : s.sealed with
  | false => exact h.goOn_of_open hmerged hstart hlt hend hsealed
  | true => exact h.goOn_of_sealed hmerged hstart hlt hend hsealed

/-- Draining goes on to the end of what is wanted or there, if it is given enough entries. -/
theorem goOn_exact (hmerged : s.merged = false) (hstart : s.startOffset ≤ offset) (fuel : Nat) :
    ∀ {drained : Drained} {store : Store FlakyTier},
      drained.Underway content id s offset maxLength store →
      s.length < offset + drained.data.length + fuel →
      (goOn fuel drained store).1.Exact content id s offset maxLength := by
  induction fuel with
  | zero =>
      intro drained store h hfuel
      exact absurd h.stop_le (Nat.not_le.mpr hfuel)
  | succ fuel ih =>
      intro drained store h hfuel
      rcases Nat.eq_or_lt_of_le h.wanted with hused | hlt
      · rcases h.goOn_of_used hused with ⟨done, hdone, hgo⟩
        rw [hgo]
        exact hdone
      · rcases Nat.eq_or_lt_of_le h.stop_le with hend | hmore
        · rcases h.goOn_of_end hmerged hstart hlt hend with ⟨done, after, hdone, -, hgo⟩
          rw [hgo]
          exact hdone
        · rcases h.goOn_of_lt hmerged hstart hlt hmore with
            ⟨drained', store', hunderway, hgrows, hgo⟩
          rw [hgo]
          refine ih hunderway ?_
          omega

end Underway
end Drained

namespace Store

variable {content : Contents} {store : Store FlakyTier} {id : SegmentId} {s : Segment}
  {offset maxLength : Nat}

/-- Reading a segment that is not merged gives its content from any readable offset on. -/
theorem Sound.readAll_exact (h : store.Sound content)
    (hreads : store.container.tier.failReads = false)
    (hs : store.container.table.get? id = some s) (hmerged : s.merged = false)
    (hstart : s.startOffset ≤ offset) (hle : offset ≤ s.length) (maxLength : Nat) :
    ∃ drained after, (readAll id offset maxLength).run store = .ok drained after ∧
      drained.Exact content id s offset maxLength := by
  let begun : Drained := { read := Drained.readAt id offset maxLength 0 }
  have hunderway : begun.Underway content id s offset maxLength store :=
    { sound := h
      segment := hs
      reads := hreads
      data_eq := rfl
      stop_le := hle
      wanted := Nat.zero_le _
      failure_eq := rfl
      counted := Or.inl rfl }
  have hread : (read id offset maxLength).run store =
      .ok (Drained.readAt id offset maxLength 0) store := by
    unfold read
    rw [EStateM.run_bind, require_of_get? hs]
    simp only [hmerged, Bool.false_eq_true, if_false, if_neg (Nat.not_lt.mpr hle)]
    rfl
  have hlength : ((store.table.get? id).map (·.length)).getD 0 = s.length := by
    unfold Store.table
    rw [hs]
    rfl
  have hexact := hunderway.goOn_exact hmerged hstart (s.length - offset + 2) (by
    show s.length < offset + 0 + (s.length - offset + 2)
    omega)
  refine ⟨_, (Drained.goOn (s.length - offset + 2) begun store).2, ?_, hexact⟩
  unfold readAll
  rw [EStateM.run_bind, hread]
  show EStateM.Result.ok
    (Drained.goOn (((store.table.get? id).map (·.length)).getD 0 - offset + 2) begun store).1
    (Drained.goOn (((store.table.get? id).map (·.length)).getD 0 - offset + 2) begun store).2 = _
  rw [hlength]

end Store
end TieredStore
