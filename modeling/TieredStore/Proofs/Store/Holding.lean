import Mathlib.Data.List.GetD
import TieredStore.Proofs.Store.Attending
import TieredStore.Proofs.Store.Handing

/-!
# What callers hold

Callers hold the reads that they have begun and the entries that were handed out to them.
A waiter belongs to one entry, and it waits only while this entry is held.  A step of the
store is about one entry at most and spares all others: their waiters wait on, or are woken
as their segments demand, and their messages stay until they are taken.
-/

namespace TieredStore

/-! ## Steps and those that they are not about -/

namespace Store

/-- The step is about this entry at most.  The store described these contents and now those. -/
structure Spares (own : Option Entry) (content grown : Contents) (store after : Store FlakyTier) :
    Prop where
  advances : store.table.Advances after.table
  proceeds : store.waiters.Proceeds after.waiters
  expecting : after.waiters.Expecting after.table
  served : ∀ r ∈ store.waiters.waiting, own.bind Entry.waiter? ≠ some r.id →
    ∃ s, after.table.get? r.segment = some s ∧ s.merged = false ∧ r.Served s after.waiters
  messages : ∀ {id wakeup}, own.bind Entry.waiter? ≠ some id →
    store.waiters.look id = .message wakeup → after.waiters.look id = .message wakeup
  grows : ∀ id, content id <+: grown id
  bounded : grown.Bounded
  length_le : store.statuses.length ≤ after.statuses.length
  statuses : ∀ {number}, number < store.statuses.length → own.map Entry.number ≠ some number →
    after.statuses.getD number .pending = store.statuses.getD number .pending
  evolves : store.fetches.Evolves store.container.tier after.fetches

variable {own : Option Entry} {content grown : Contents} {store after : Store FlakyTier}
  {id : SegmentId} {offset requested : Nat} {entry : Entry}

/-- Whoever is not concerned waits on, or was woken for what has happened to his segment. -/
theorem Spares.suits (h : Spares own content grown store after) {waiter : Nat}
    (hother : own.bind Entry.waiter? ≠ some waiter) (hid : id < store.table.nextId)
    (hwaiting : ∀ r ∈ store.waiters.waiting, r.id = waiter → r.segment = id ∧ r.offset = offset)
    (hsuits : (store.waiters.look waiter).Suits store.table id offset) :
    (after.waiters.look waiter).Suits after.table id offset := by
  rcases store.waiters.look_cases waiter with
    ⟨wakeup, -, hmessage⟩ | ⟨-, ⟨⟨r, hr, rfl⟩, -⟩ | ⟨-, hnever⟩⟩
  · rw [hmessage] at hsuits
    rw [h.messages hother hmessage]
    exact hsuits.advances h.advances hid
  · rcases hwaiting r hr rfl with ⟨rfl, rfl⟩
    rcases h.served r hr hother with ⟨s, hs, -, hserved⟩
    exact hserved.suits hs
  · exact absurd hnever hsuits.ne_never

theorem Minds.spares (h : store.Minds content grown after)
    (hexpecting : store.waiters.Expecting store.table) (hbounded : content.Bounded) :
    Spares none content grown store after where
  advances := h.advances
  proceeds := h.waiters.proceeds
  expecting := h.waiters.expecting hexpecting
  served := fun r hr _ => h.waiters.served r hr
  messages := fun _ hlook =>
    Waiters.look_of_message (h.waiters.messages (Waiters.message_of_look hlook))
  grows := h.grows
  bounded := h.bounded hbounded
  length_le := Nat.le_of_eq (congrArg List.length h.statuses_eq.symm)
  statuses := fun _ _ => by rw [h.statuses_eq]
  evolves := h.evolves

theorem Spares.of_released (hexpecting : store.waiters.Expecting store.table)
    (hbounded : content.Bounded) {left : Option Nat}
    (hreleased : store.waiters.Released (own.bind Entry.waiter?) after.waiters left)
    (htable : after.table = store.table)
    (hlength : store.statuses.length ≤ after.statuses.length)
    (hothers : ∀ {number}, number < store.statuses.length → own.map Entry.number ≠ some number →
      after.statuses.getD number .pending = store.statuses.getD number .pending)
    (hevolves : store.fetches.Evolves store.container.tier after.fetches) :
    Spares own content content store after where
  advances := by
    rw [htable]
    exact .refl _
  proceeds := hreleased.proceeds
  expecting :=
    { proper := hreleased.proceeds.proper hexpecting.proper
      lacks := by
        intro r hr
        rw [htable]
        exact hexpecting.lacks r (hreleased.waiting hr)
      offset_le := fun r hr => hexpecting.offset_le r (hreleased.waiting hr) }
  served := by
    intro r hr hother
    rcases hexpecting.lacks r hr with ⟨s, hs, hopen, hmerged, hshort⟩
    refine ⟨s, by rw [htable]; exact hs, hmerged, ?_⟩
    have hlook := Waiters.look_of_waiting hr (hexpecting.proper.unsent r hr)
    exact .waits hopen hshort (hreleased.spares hr hother)
      ((hreleased.look_eq (Or.inl hother)).trans hlook)
  messages := fun hother hlook => (hreleased.look_eq (Or.inl hother)).trans hlook
  grows := fun _ => List.prefix_rfl
  bounded := hbounded
  length_le := hlength
  statuses := hothers
  evolves := hevolves

theorem Spares.refl (hexpecting : store.waiters.Expecting store.table)
    (hbounded : content.Bounded) (own : Option Entry) : Spares own content content store store :=
  .of_released hexpecting hbounded (.kept _) rfl (Nat.le_refl _) (fun _ _ => rfl) (.refl _ _)

theorem HandedOut.spares (h : HandedOut content id offset requested store entry after)
    (hexpecting : store.waiters.Expecting store.table) (hbounded : content.Bounded)
    (hstop : offset ≤ (content id).length) : Spares none content content store after := by
  rcases h.statuses_eq with ⟨status, hstatuses⟩
  have hlength : store.statuses.length ≤ after.statuses.length := by
    rw [hstatuses, List.length_append]
    exact Nat.le_add_right _ _
  have hothers : ∀ {number}, number < store.statuses.length →
      after.statuses.getD number .pending = store.statuses.getD number .pending := by
    intro number hlt
    rw [hstatuses, List.getD_append _ _ _ _ hlt]
  rcases h.waiters with ⟨-, hwaiters⟩ | ⟨-, hwaiters, hlacks⟩
  · have hreleased : store.waiters.Released none after.waiters none := by
      rw [hwaiters]
      exact .kept none
    exact .of_released hexpecting hbounded hreleased h.table_eq hlength
      (fun hlt _ => hothers hlt) h.evolves
  · constructor
    · rw [h.table_eq]
      exact .refl _
    · rw [hwaiters]
      exact .register store.waiters id offset
    · rw [hwaiters, h.table_eq]
      exact hexpecting.register hlacks (Nat.le_trans hstop (hbounded id))
    · intro r hr _
      rw [hwaiters, h.table_eq]
      exact hexpecting.served_register id offset hr
    · intro waiter wakeup _ hmessage
      have hsent := Waiters.message_of_look hmessage
      rw [hwaiters, store.waiters.look_register id offset (hexpecting.proper.numbered.messages hsent)]
      exact hmessage
    · exact fun _ => List.prefix_rfl
    · exact hbounded
    · exact hlength
    · exact fun hlt _ => hothers hlt
    · exact h.evolves

end Store

namespace Entry

variable {content grown : Contents} {store after : Store FlakyTier} {own : Option Entry}
  {entry other resolved : Entry} {id : SegmentId}

theorem Resolves.spares (h : entry.Resolves content id store resolved after)
    (hexpecting : store.waiters.Expecting store.table) (hbounded : content.Bounded) :
    Store.Spares (some entry) content content store after :=
  .of_released hexpecting hbounded h.released h.table_eq (Nat.le_of_eq h.length_eq.symm)
    (fun _ hother => h.others _ fun heq => hother (congrArg some heq.symm)) h.evolves

theorem drop_eq (entry : Entry) (store : Store FlakyTier) :
    ∃ waiters, entry.drop store = { store with waiters } ∧
      store.waiters.Released entry.waiter? waiters none := by
  unfold drop
  cases hwait : entry.wait with
  | none =>
      refine ⟨store.waiters, rfl, ?_⟩
      rw [show entry.waiter? = none by unfold waiter?; rw [hwait]]
      exact .kept none
  | some wait =>
      cases wait with
      | fetch ticket =>
          refine ⟨store.waiters, rfl, ?_⟩
          rw [waiter?_of_fetch hwait]
          exact .kept none
      | wakeup waiter segment deadline =>
          refine ⟨store.waiters.deregister waiter, rfl, ?_⟩
          rw [waiter?_of_wakeup hwait]
          exact .left waiter

structure Apart (entry other : Entry) : Prop where
  number_ne : entry.number ≠ other.number
  waiter_ne : ∀ {waiter}, entry.waiter? = some waiter → other.waiter? ≠ some waiter

theorem Apart.symm (h : entry.Apart other) : other.Apart entry :=
  ⟨h.number_ne.symm, fun hother hentry => h.waiter_ne hentry hother⟩

def unwoken (entry : Entry) (store : Store FlakyTier) : Bool :=
  decide (entry.kind = .future) && decide (entry.status store = .pending) &&
    match entry.waiter? with
    | some waiter => (store.waiters.messages.get? waiter).isNone
    | none => false

theorem unwoken_iff : entry.unwoken store = true ↔
    entry.kind = .future ∧ entry.status store = .pending ∧
      ∃ waiter, entry.waiter? = some waiter ∧ store.waiters.messages.get? waiter = none := by
  unfold unwoken
  rw [Bool.and_eq_true, Bool.and_eq_true, decide_eq_true_eq, decide_eq_true_eq, and_assoc]
  refine and_congr_right fun _ => and_congr_right fun _ => ?_
  cases entry.waiter? with
  | none => simp
  | some waiter => simp

theorem Held.spared (h : entry.Held content id store) (hhonest : entry.Honest content store)
    (hspares : Store.Spares own content grown store after)
    (hapart : ∀ e, own = some e → e.Apart entry) : entry.Held grown id after where
  given := Nat.lt_of_lt_of_le h.given hspares.length_le
  wanted := h.wanted
  bare := h.bare
  brings := fun hwait => ((h.brings hwait).evolves hspares.evolves).grows hspares.grows
  waits := by
    intro waiter segment deadline hwait
    rcases h.waits hwait with ⟨hsegment, hkind, hstatus, hid, hsuits⟩
    have hnumber : own.map Entry.number ≠ some entry.number := by
      intro heq
      rcases Option.map_eq_some_iff.mp heq with ⟨e, he, hsame⟩
      exact (hapart e he).number_ne hsame
    have hwaiter : own.bind Entry.waiter? ≠ some waiter := by
      intro heq
      rcases Option.bind_eq_some_iff.mp heq with ⟨e, he, hsame⟩
      exact (hapart e he).waiter_ne hsame (waiter?_of_wakeup hwait)
    have hwaiting := (hhonest.awaits hwait).waiting
    rw [hsegment] at hwaiting
    exact ⟨hsegment, hkind, (hspares.statuses h.given hnumber).trans hstatus,
      Nat.lt_of_lt_of_le hid hspares.advances.nextId_le,
      hspares.suits hwaiter hid hwaiting hsuits⟩

/-- The entry is of a segment, and the read that has handed it out goes on where it ends. -/
structure Known (content : Contents) (store : Store FlakyTier) (reads : List ReadResult)
    (entry : Entry) : Prop where
  honest : entry.Honest content store
  held : ∃ id, entry.Held content id store ∧
    ∀ read ∈ reads, read.last = some entry.number →
      read.segment = id ∧ read.start + read.consumed = entry.offset

theorem Known.given {reads : List ReadResult} (h : entry.Known content store reads) :
    entry.number < store.statuses.length := by
  rcases h.held with ⟨id, hheld, -⟩
  exact hheld.given

theorem Known.spared {reads : List ReadResult} (h : entry.Known content store reads)
    (htends : store.Tends content grown after)
    (hspares : Store.Spares own content grown store after)
    (hapart : ∀ e, own = some e → e.Apart entry) :
    entry.Known grown after reads where
  honest := h.honest.tends htends
  held := by
    rcases h.held with ⟨id, hheld, hlink⟩
    exact ⟨id, hheld.spared h.honest hspares hapart, hlink⟩

theorem Known.with_reads {reads others : List ReadResult} (h : entry.Known content store reads)
    (hothers : ∀ read ∈ others, read.last = some entry.number → read ∈ reads) :
    entry.Known content store others where
  honest := h.honest
  held := by
    rcases h.held with ⟨id, hheld, hlink⟩
    exact ⟨id, hheld, fun read hread hlast => hlink read (hothers read hread hlast) hlast⟩

end Entry

theorem ReadResult.Within.spared {content grown : Contents} {store after : Store FlakyTier}
    {own : Option Entry} {read : ReadResult} (h : read.Within content store)
    (hspares : Store.Spares own content grown store after)
    (hready : ∀ e, own = some e → read.last = some e.number → ∀ n,
      after.statuses.getD e.number .pending = .ready n →
        read.start + read.consumed + n ≤ (grown read.segment).length) :
    read.Within grown after where
  stop_le := Nat.le_trans h.stop_le (hspares.grows _).length_le
  given := fun hlast => Nat.lt_of_lt_of_le (h.given hlast) hspares.length_le
  counted := by
    intro number n hlast hstatus
    by_cases hown : own.map Entry.number = some number
    · rcases Option.map_eq_some_iff.mp hown with ⟨e, he, rfl⟩
      exact hready e he hlast n hstatus
    · rw [hspares.statuses (h.given hlast) hown] at hstatus
      exact Nat.le_trans (h.counted hlast hstatus) (hspares.grows _).length_le

def ReadResult.Reply.entries (reply : ReadResult.Reply FlakyTier) : List Entry :=
  match reply.result with
  | .ok (some entry) => [entry]
  | _ => []

theorem Store.HandedOut.within {content : Contents} {store after : Store FlakyTier}
    {read : ReadResult} {requested : Nat} {entry : Entry}
    (h : HandedOut content read.segment (read.start + read.consumed) requested store entry after)
    (hlast : read.last = some entry.number)
    (hstop : read.start + read.consumed ≤ (content read.segment).length) :
    read.Within content after where
  stop_le := hstop
  given := by
    intro number hnumber
    rw [hlast] at hnumber
    cases hnumber
    exact h.held.given
  counted := by
    intro number n hnumber hstatus
    rw [hlast] at hnumber
    cases hnumber
    rcases h.noted.of_ready hstatus with ⟨data, -, rfl, hpiece⟩
    rw [← h.offset_eq]
    exact hpiece.stop_le

/-! ## Holders -/

/-- What is held of a store is as it was handed out, and whoever waits is held. -/
structure Holding (content : Contents) (store : Store FlakyTier) (reads : List ReadResult)
    (entries : List Entry) : Prop where
  expecting : store.waiters.Expecting store.table
  bounded : content.Bounded
  within : ∀ read ∈ reads, read.Within content store
  known : ∀ entry ∈ entries, entry.Known content store reads
  apart : entries.Pairwise Entry.Apart
  owned : ∀ r ∈ store.waiters.waiting, ∃ entry ∈ entries, entry.waiter? = some r.id

namespace Holding

variable {content grown : Contents} {store after : Store FlakyTier} {reads : List ReadResult}
  {entries : List Entry} {read : ReadResult} {entry resolved : Entry}

theorem nothing (hwaiters : store.waiters = {}) (hbounded : content.Bounded) :
    Holding content store [] [] where
  expecting := by
    rw [hwaiters]
    exact ⟨Waiters.proper_empty, (fun _ hr => nomatch hr), fun _ hr => nomatch hr⟩
  bounded := hbounded
  within := fun _ hread => nomatch hread
  known := fun _ hentry => nomatch hentry
  apart := .nil
  owned := by
    intro r hr
    rw [hwaiters] at hr
    cases hr

theorem spared (h : Holding content store reads entries)
    (hspares : Store.Spares none content grown store after)
    (htends : store.Tends content grown after)
    (hwaiting : ∀ r ∈ after.waiters.waiting, r ∈ store.waiters.waiting) :
    Holding grown after reads entries where
  expecting := hspares.expecting
  bounded := hspares.bounded
  within := fun read hread => (h.within read hread).spared hspares fun _ hnone => nomatch hnone
  known := fun entry hentry => (h.known entry hentry).spared htends hspares fun _ hnone =>
    nomatch hnone
  apart := h.apart
  owned := fun r hr => h.owned r (hwaiting r hr)

theorem with_reads (h : Holding content store reads entries) {others : List ReadResult}
    (hothers : ∀ read ∈ others, read ∈ reads ∨ read.Within content store ∧ read.last = none) :
    Holding content store others entries where
  expecting := h.expecting
  bounded := h.bounded
  within := by
    intro read hread
    rcases hothers read hread with hold | ⟨hwithin, -⟩
    · exact h.within read hold
    · exact hwithin
  known := by
    intro entry hentry
    refine (h.known entry hentry).with_reads ?_
    intro read hread hnumber
    rcases hothers read hread with hold | ⟨-, hlast⟩
    · exact hold
    · rw [hlast] at hnumber
      cases hnumber
  apart := h.apart
  owned := h.owned

theorem begin (h : Holding content store reads entries) (hread : read.Within content store)
    (hlast : read.last = none) : Holding content store (read :: reads) entries := by
  refine h.with_reads ?_
  intro other hother
  rcases List.mem_cons.mp hother with rfl | hold
  · exact Or.inr ⟨hread, hlast⟩
  · exact Or.inl hold

theorem go_on (h : Holding content store reads entries) (hread : read ∈ reads) {last : ReadResult}
    (hsame : last = read ∨ last.last = none)
    (hstop : last.start + last.consumed ≤ (content last.segment).length) :
    Holding content store (last :: reads.erase read) entries := by
  refine h.with_reads ?_
  intro other hother
  rcases List.mem_cons.mp hother with rfl | hold
  · rcases hsame with rfl | hlast
    · exact Or.inl hread
    · exact Or.inr ⟨.of_last_none hstop hlast, hlast⟩
  · exact Or.inl (List.mem_of_mem_erase hold)

theorem hand_out (h : Holding content store reads entries) {last : ReadResult} {requested : Nat}
    (hhanded : Store.HandedOut content last.segment (last.start + last.consumed) requested store
      entry after)
    (hlast : last.last = some entry.number)
    (hstop : last.start + last.consumed ≤ (content last.segment).length)
    (htends : store.Tends content content after) (hhonest : entry.Honest content after) :
    Holding content after (last :: reads.erase read) (entry :: entries) := by
  have hspares := hhanded.spares h.expecting h.bounded hstop
  have hnew : ∀ other ∈ entries, other.number < entry.number := by
    intro other hother
    rw [hhanded.number_eq]
    exact (h.known other hother).given
  refine ⟨hspares.expecting, h.bounded, ?_, ?_, ?_, ?_⟩
  · intro other hother
    rcases List.mem_cons.mp hother with rfl | hold
    · exact hhanded.within hlast hstop
    · exact (h.within other (List.mem_of_mem_erase hold)).spared hspares fun _ hnone =>
        nomatch hnone
  · intro other hother
    rcases List.mem_cons.mp hother with rfl | hold
    · refine ⟨hhonest, _, hhanded.held, ?_⟩
      intro read hmem hnumber
      rcases List.mem_cons.mp hmem with rfl | hother
      · exact ⟨rfl, hhanded.offset_eq.symm⟩
      · have hgiven := (h.within read (List.mem_of_mem_erase hother)).given hnumber
        rw [hhanded.number_eq] at hgiven
        exact absurd hgiven (Nat.lt_irrefl _)
    · refine ((h.known other hold).spared htends hspares fun _ hnone =>
        nomatch hnone).with_reads ?_
      intro read hmem hnumber
      rcases List.mem_cons.mp hmem with rfl | hother
      · rw [hlast] at hnumber
        exact absurd (Option.some.inj hnumber) (Nat.ne_of_gt (hnew other hold))
      · exact List.mem_of_mem_erase hother
  · refine List.pairwise_cons.mpr ⟨?_, h.apart⟩
    intro other hother
    refine ⟨Nat.ne_of_gt (hnew other hother), ?_⟩
    -- the numbers of waiters are given out once, as those of entries are
    intro waiter hwaiter hsame
    rcases hhanded.waiters with ⟨hnone, -⟩ | ⟨hnext, -, -⟩
    · rw [hnone] at hwaiter
      cases hwaiter
    · rw [hnext] at hwaiter
      cases hwaiter
      rcases Entry.wait_of_waiter? hsame with ⟨segment, deadline, hwait⟩
      exact absurd ((h.known other hother).honest.awaits hwait).given (Nat.lt_irrefl _)
  · intro r hr
    have hold : r ∈ store.waiters.waiting →
        ∃ owner ∈ entry :: entries, owner.waiter? = some r.id := by
      intro hmem
      rcases h.owned r hmem with ⟨owner, howner, hid⟩
      exact ⟨owner, List.mem_cons_of_mem _ howner, hid⟩
    rcases hhanded.waiters with ⟨-, hwaiters⟩ | ⟨hnext, hwaiters, -⟩
    · rw [hwaiters] at hr
      exact hold hr
    · rw [hwaiters] at hr
      rcases List.mem_append.mp hr with hmem | hadded
      · exact hold hmem
      · rw [List.mem_singleton.mp hadded]
        exact ⟨entry, List.mem_cons_self, hnext⟩

theorem next (h : Holding content store reads entries) (hread : read ∈ reads)
    {reply : ReadResult.Reply FlakyTier} (hserves : reply.Serves content store)
    (hhands : reply.Hands content store read) :
    Holding content reply.store (reply.read :: reads.erase read) (reply.entries ++ entries) ∧
      Store.Spares none content content store reply.store := by
  cases hhands with
  | nothing hresult hstore hsame hstop =>
      have hnone : reply.entries = [] := by
        unfold ReadResult.Reply.entries
        split
        · rename_i entry heq
          exact absurd heq (hresult entry)
        · rfl
      rw [hnone, hstore]
      exact ⟨h.go_on hread hsame hstop, .refl h.expecting h.bounded none⟩
  | entry entry hresult hhanded hlast hstop =>
      have hsome : reply.entries = [entry] := by
        unfold ReadResult.Reply.entries
        rw [hresult]
      rw [hsome]
      exact ⟨h.hand_out hhanded hlast hstop hserves.tends (hserves.honest hresult),
        hhanded.spares h.expecting h.bounded hstop⟩

theorem apart_of_erase (h : Holding content store reads entries) (hentry : entry ∈ entries) :
    (∀ other ∈ entries.erase entry, entry.Apart other) ∧
      (entries.erase entry).Pairwise Entry.Apart := by
  have hperm := List.perm_cons_erase hentry
  exact List.pairwise_cons.mp ((hperm.pairwise_iff Entry.Apart.symm).mp h.apart)

theorem owned_of_erase (h : Holding content store reads entries) (hentry : entry ∈ entries)
    {r : Waiter} (hr : r ∈ store.waiters.waiting) :
    entry.waiter? = some r.id ∨ ∃ other ∈ entries.erase entry, other.waiter? = some r.id := by
  rcases h.owned r hr with ⟨owner, howner, hid⟩
  rcases List.mem_cons.mp ((List.perm_cons_erase hentry).mem_iff.mp howner) with rfl | hrest
  · exact Or.inl hid
  · exact Or.inr ⟨owner, hrest, hid⟩

theorem resolve (h : Holding content store reads entries) (hentry : entry ∈ entries)
    (hresolves : ∀ {id}, entry.Held content id store →
      entry.Resolves content id store resolved after)
    (htends : store.Tends content content after) (hhonest : resolved.Honest content after) :
    Holding content after reads (resolved :: entries.erase entry) ∧
      Store.Spares (some entry) content content store after := by
  rcases (h.known entry hentry).held with ⟨id, hheld, hlink⟩
  have hresolved := hresolves hheld
  have hspares := hresolved.spares h.expecting h.bounded
  have hreleased := hresolved.released
  rcases hresolved.outcome.same with ⟨hnumber, -, hoffset, -⟩
  rcases h.apart_of_erase hentry with ⟨hapart, hrest⟩
  have hother : ∀ other ∈ entries.erase entry, ∀ e, some entry = some e → e.Apart other := by
    rintro other hmem e ⟨⟩
    exact hapart other hmem
  refine ⟨⟨hspares.expecting, h.bounded, ?_, ?_, ?_, ?_⟩, hspares⟩
  · -- if the entry has got its bytes, its read can count them
    intro read hread
    refine (h.within read hread).spared hspares ?_
    rintro e ⟨⟩ hlast n hready
    rcases hheld.ready hresolved.outcome hready with hbefore | hbrought
    · exact (h.within read hread).counted hlast hbefore
    · rcases hlink read hread hlast with ⟨hsegment, hoffset⟩
      rw [hsegment, hoffset]
      exact hbrought
  · intro other hmem
    rcases List.mem_cons.mp hmem with rfl | hold
    · refine ⟨hhonest, id, hresolved.held, ?_⟩
      rw [hnumber, hoffset]
      exact hlink
    · exact (h.known other (List.mem_of_mem_erase hold)).spared htends hspares (hother other hold)
  · refine List.pairwise_cons.mpr ⟨?_, hrest⟩
    intro other hmem
    refine ⟨?_, ?_⟩
    · rw [hnumber]
      exact (hapart other hmem).number_ne
    · intro waiter hwaiter
      exact (hapart other hmem).waiter_ne (hreleased.own_of hwaiter)
  · intro r hr
    rcases h.owned_of_erase hentry (hreleased.waiting hr) with hown | ⟨other, hmem, hid⟩
    · exact ⟨resolved, List.mem_cons_self, hreleased.ne_of_waiting hr hown⟩
    · exact ⟨other, List.mem_cons_of_mem _ hmem, hid⟩

theorem drop (h : Holding content store reads entries) (hentry : entry ∈ entries) :
    Holding content (entry.drop store) reads (entries.erase entry) ∧
      Store.Spares (some entry) content content store (entry.drop store) := by
  rcases h.apart_of_erase hentry with ⟨hapart, hrest⟩
  have htends : store.Tends content content (entry.drop store) := Entry.drop_tends entry store
  rcases entry.drop_eq store with ⟨waiters, hdrop, hreleased⟩
  rw [hdrop] at htends
  rw [hdrop]
  have hspares : Store.Spares (some entry) content content store { store with waiters } :=
    .of_released h.expecting h.bounded hreleased rfl (Nat.le_refl _) (fun _ _ => rfl)
      (.refl _ _)
  refine ⟨⟨hspares.expecting, h.bounded, ?_, ?_, hrest, ?_⟩, hspares⟩
  · intro read hread
    refine (h.within read hread).spared hspares ?_
    intro e _ hlast n hready
    exact (h.within read hread).counted hlast hready
  · intro other hmem
    refine (h.known other (List.mem_of_mem_erase hmem)).spared htends hspares ?_
    rintro e ⟨⟩
    exact hapart other hmem
  · intro r hr
    rcases h.owned_of_erase hentry (hreleased.waiting hr) with hown | hother
    · cases hreleased.ne_of_waiting hr hown
    · exact hother

theorem look_ne_never (h : Holding content store reads entries) (hentry : entry ∈ entries)
    {waiter : Nat} (hwaiter : entry.waiter? = some waiter) :
    store.waiters.look waiter ≠ .never := by
  rcases (h.known entry hentry).held with ⟨id, hheld, -⟩
  rcases Entry.wait_of_waiter? hwaiter with ⟨segment, deadline, hwait⟩
  rcases hheld.waits hwait with ⟨-, -, -, -, hsuits⟩
  exact hsuits.ne_never

/-- The numbers of those who wait are the waiters of the entries that nobody has woken. -/
theorem exists_waiting_iff (h : Holding content store reads entries) {id : Nat} :
    (∃ r ∈ store.waiters.waiting, r.id = id) ↔
      ∃ entry ∈ entries, entry.unwoken store = true ∧ entry.waiter? = some id := by
  constructor
  · rintro ⟨r, hr, rfl⟩
    rcases h.owned r hr with ⟨entry, hentry, hwaiter⟩
    rcases (h.known entry hentry).held with ⟨segment, hheld, -⟩
    rcases Entry.wait_of_waiter? hwaiter with ⟨_, _, hwait⟩
    rcases hheld.waits hwait with ⟨-, hkind, hstatus, -⟩
    have hunsent := h.expecting.proper.unsent r hr
    exact ⟨entry, hentry, Entry.unwoken_iff.mpr ⟨hkind, hstatus, r.id, hwaiter, hunsent⟩, hwaiter⟩
  · rintro ⟨entry, hentry, hunwoken, hwaiter⟩
    rcases Entry.unwoken_iff.mp hunwoken with ⟨-, -, waiter, hsame, hunsent⟩
    rw [hwaiter] at hsame
    cases hsame
    rcases store.waiters.look_cases id with ⟨wakeup, hmessage, -⟩ | ⟨-, ⟨hwaits, -⟩ | ⟨-, hnever⟩⟩
    · rw [hunsent] at hmessage
      cases hmessage
    · exact hwaits
    · exact absurd hnever (h.look_ne_never hentry hwaiter)

/-- As many reads wait as entries are held that wait and that nobody has woken. -/
theorem size_eq (h : Holding content store reads entries) :
    store.waiters.size = (entries.filter fun entry => entry.unwoken store).length := by
  have hwaiting : (store.waiters.waiting.map fun r => some r.id).Nodup := by
    refine List.pairwise_map.mpr ((List.pairwise_map.mp h.expecting.proper.nodup).imp ?_)
    intro r other hne heq
    exact hne (Option.some.inj heq)
  have howners : ((entries.filter fun entry => entry.unwoken store).map Entry.waiter?).Nodup := by
    refine List.pairwise_map.mpr ((h.apart.filter _).imp_of_mem ?_)
    intro entry other hentry _ hapart hsame
    rcases Entry.unwoken_iff.mp (List.mem_filter.mp hentry).2 with ⟨-, -, waiter, hwaiter, -⟩
    exact hapart.waiter_ne hwaiter (hsame.symm.trans hwaiter)
  -- both lists have the numbers of those who wait, each once
  have hperm := (List.perm_ext_iff_of_nodup hwaiting howners).mpr fun waiter => by
    constructor
    · intro hmem
      rcases List.mem_map.mp hmem with ⟨r, hr, rfl⟩
      rcases h.exists_waiting_iff.mp ⟨r, hr, rfl⟩ with ⟨entry, hentry, hunwoken, hwaiter⟩
      exact List.mem_map.mpr ⟨entry, List.mem_filter.mpr ⟨hentry, hunwoken⟩, hwaiter⟩
    · intro hmem
      rcases List.mem_map.mp hmem with ⟨entry, hfiltered, rfl⟩
      rcases List.mem_filter.mp hfiltered with ⟨hentry, hunwoken⟩
      rcases Entry.unwoken_iff.mp hunwoken with ⟨-, -, id, hwaiter, -⟩
      rcases h.exists_waiting_iff.mpr ⟨entry, hentry, hunwoken, hwaiter⟩ with ⟨r, hr, rfl⟩
      exact List.mem_map.mpr ⟨r, hr, hwaiter.symm⟩
  have hlength := hperm.length_eq
  rw [List.length_map, List.length_map] at hlength
  exact hlength

end Holding
end TieredStore
