import TieredStore.Proofs.Container.Requesting
import TieredStore.Proofs.Store.Waiting

/-!
# Reads of the tier on their way

A read of the tier that was started is in the queue until it is carried out, and then its
outcome is there until somebody takes it.  Nothing else happens to it, and its outcome is
what the tier has given for its request.  So whoever has the number of a read gets the piece
of a segment that was asked for, if the tier gives the right bytes.
-/

namespace TieredStore

/-! ## Pieces of a segment -/

/-- The bytes of the segment from the offset on, at least one and not too many. -/
structure Contents.Piece (content : Contents) (id : SegmentId) (offset count : Nat)
    (data : Bytes) : Prop where
  pos : 0 < data.length
  length_le : data.length ≤ count
  stop_le : offset + data.length ≤ (content id).length
  eq_slice : data = Bytes.slice (content id) offset data.length

theorem Contents.Piece.grows {content grown : Contents} {id : SegmentId} {offset count : Nat}
    {data : Bytes} (h : content.Piece id offset count data)
    (hgrows : ∀ id, content id <+: grown id) : grown.Piece id offset count data where
  pos := h.pos
  length_le := h.length_le
  stop_le := Nat.le_trans h.stop_le (hgrows id).length_le
  eq_slice := by
    rw [← Bytes.slice_of_prefix (hgrows id) h.stop_le]
    exact h.eq_slice

structure FetchRequest.Asks (content : Contents) (id : SegmentId) (offset count : Nat)
    (request : FetchRequest) : Prop where
  segment_eq : request.segment = id
  offset_eq : request.offset = offset
  pos : 0 < request.length
  length_le : request.length ≤ count
  stop_le : offset + request.length ≤ (content id).length

theorem FetchRequest.Asks.grows {content grown : Contents} {id : SegmentId} {offset count : Nat}
    {request : FetchRequest} (h : request.Asks content id offset count)
    (hgrows : ∀ id, content id <+: grown id) : request.Asks grown id offset count :=
  ⟨h.segment_eq, h.offset_eq, h.pos, h.length_le, Nat.le_trans h.stop_le (hgrows id).length_le⟩

theorem FetchRequest.Asks.piece {content : Contents} {id : SegmentId} {offset count : Nat}
    {request : FetchRequest} (h : request.Asks content id offset count) :
    content.Piece id offset count (Bytes.slice (content id) offset request.length) := by
  have hlength := Bytes.length_slice_of_le h.stop_le
  refine ⟨?_, ?_, ?_, ?_⟩
  · rw [hlength]
    exact h.pos
  · rw [hlength]
    exact h.length_le
  · rw [hlength]
    exact h.stop_le
  · rw [hlength]

def Found.Meets (content : Contents) (id : SegmentId) (offset count : Nat) : Found → Prop
  | .cached data => content.Piece id offset count data
  | .stored request => request.Asks content id offset count

theorem Found.Serves.meets {content : Contents} {table : Table} {id : SegmentId} {s : Segment}
    {offset count : Nat} {found : Found} (h : found.Serves content table id s offset count)
    (hlength : s.length = (content id).length) : found.Meets content id offset count := by
  cases found with
  | cached data =>
      rcases h with ⟨hpos, hle, hstop, hslice⟩
      rw [hlength] at hstop
      exact ⟨hpos, hle, hstop, hslice⟩
  | stored request =>
      rcases h with ⟨hpos, hle, hstop, hsegment, hoffset, -, -⟩
      rw [hlength] at hstop
      exact ⟨hsegment, hoffset, hpos, hle, hstop⟩

/-! ## Reads that were started -/

/-- The outcome with this number is there, or the tier gives it for the request in the queue. -/
def Fetches.Yields (tier : FlakyTier) (fetches : Fetches) (ticket : Nat) (data : Bytes) : Prop :=
  fetches.arrived.get? ticket = some (.ok data) ∨
    ∃ request, (ticket, request) ∈ fetches.queue ∧ tier.Gives request data

/-- The read with this number asks for what it should, and so is what it has brought. -/
structure Fetches.Promises (asks : FetchRequest → Prop) (gives : Bytes → Prop) (ticket : Nat)
    (fetches : Fetches) : Prop where
  given : ticket < fetches.nextTicket
  queued : ∀ request, (ticket, request) ∈ fetches.queue → asks request
  arrived : ∀ data, fetches.arrived.get? ticket = some (.ok data) → gives data

/-- What becomes of the reads that were started, while the objects of the tier stay. -/
structure Fetches.Evolves (tier : FlakyTier) (before after : Fetches) : Prop where
  nextTicket_le : before.nextTicket ≤ after.nextTicket
  queued : ∀ {ticket request}, (ticket, request) ∈ after.queue → ticket < before.nextTicket →
    (ticket, request) ∈ before.queue
  yields : ∀ {ticket data}, after.arrived.get? ticket = some (.ok data) →
    ticket < before.nextTicket → before.Yields tier ticket data

namespace Fetches.Evolves

variable {tier other : FlakyTier} {before middle after : Fetches}

theorem refl (tier : FlakyTier) (fetches : Fetches) : fetches.Evolves tier fetches :=
  ⟨Nat.le_refl _, fun hmem _ => hmem, fun hdata _ => Or.inl hdata⟩

theorem trans (h : before.Evolves tier middle) (hsame : FlakyTier.Same tier other)
    (hafter : middle.Evolves other after) : before.Evolves tier after where
  nextTicket_le := Nat.le_trans h.nextTicket_le hafter.nextTicket_le
  queued := by
    intro ticket request hmem hlt
    exact h.queued (hafter.queued hmem (Nat.lt_of_lt_of_le hlt h.nextTicket_le)) hlt
  yields := by
    intro ticket data hdata hlt
    rcases hafter.yields hdata (Nat.lt_of_lt_of_le hlt h.nextTicket_le) with
      hthere | ⟨request, hmem, hgives⟩
    · exact h.yields hthere hlt
    · exact Or.inr ⟨request, h.queued hmem hlt, hgives.of_same hsame.symm⟩

theorem promises (h : before.Evolves tier after) {asks : FetchRequest → Prop}
    {gives : Bytes → Prop} {ticket : Nat} (hbefore : before.Promises asks gives ticket)
    (hgives : ∀ {request data}, (ticket, request) ∈ before.queue → asks request →
      tier.Gives request data → gives data) : after.Promises asks gives ticket where
  given := Nat.lt_of_lt_of_le hbefore.given h.nextTicket_le
  queued := fun request hmem => hbefore.queued request (h.queued hmem hbefore.given)
  arrived := by
    intro data hdata
    rcases h.yields hdata hbefore.given with hthere | ⟨request, hmem, hrequest⟩
    · exact hbefore.arrived data hthere
    · exact hgives hmem (hbefore.queued request hmem) hrequest

end Fetches.Evolves

def Fetches.Fulfils (content : Contents) (id : SegmentId) (offset count ticket : Nat)
    (fetches : Fetches) : Prop :=
  fetches.Promises (fun request => request.Asks content id offset count)
    (fun data => content.Piece id offset count data) ticket

/-- The tier gives the right bytes for the reads in the queue. -/
def Fetches.Trusts (content : Contents) (tier : FlakyTier) (fetches : Fetches) : Prop :=
  ∀ fetch ∈ fetches.queue, ∀ data, tier.Gives fetch.2 data →
    data = Bytes.slice (content fetch.2.segment) fetch.2.offset fetch.2.length

namespace Fetches.Fulfils

variable {content grown : Contents} {tier : FlakyTier} {fetches after : Fetches} {id : SegmentId}
  {offset count ticket : Nat} {data : Bytes}

theorem grows (h : fetches.Fulfils content id offset count ticket)
    (hgrows : ∀ id, content id <+: grown id) : fetches.Fulfils grown id offset count ticket where
  given := h.given
  queued := fun request hmem => (h.queued request hmem).grows hgrows
  arrived := fun data hdata => (h.arrived data hdata).grows hgrows

theorem piece_of_gives (htrusts : fetches.Trusts content tier) {request : FetchRequest}
    (hmem : (ticket, request) ∈ fetches.queue) (hasks : request.Asks content id offset count)
    (hgives : tier.Gives request data) : content.Piece id offset count data := by
  have hdata := htrusts (ticket, request) hmem data hgives
  simp only [hasks.segment_eq, hasks.offset_eq] at hdata
  rw [hdata]
  exact hasks.piece

theorem evolves (h : fetches.Fulfils content id offset count ticket)
    (htrusts : fetches.Trusts content tier) (hevolves : fetches.Evolves tier after) :
    after.Fulfils content id offset count ticket :=
  hevolves.promises h fun hmem hasks hgives => piece_of_gives htrusts hmem hasks hgives

theorem piece (h : fetches.Fulfils content id offset count ticket)
    (htrusts : fetches.Trusts content tier) (hyields : fetches.Yields tier ticket data) :
    content.Piece id offset count data := by
  rcases hyields with harrived | ⟨request, hmem, hgives⟩
  · exact h.arrived data harrived
  · exact piece_of_gives htrusts hmem (h.queued request hmem) hgives

end Fetches.Fulfils

theorem Store.startFetch_promises {store : Store FlakyTier} {table : Table}
    (hsane : store.fetches.Sane table) {asks : FetchRequest → Prop} {gives : Bytes → Prop}
    {request : FetchRequest} (hasks : asks request) :
    (store.startFetch request).2.fetches.Promises asks gives (store.startFetch request).1 where
  given := Nat.lt_succ_self _
  queued := by
    intro other hother
    rcases List.mem_append.mp hother with hold | hnew
    · exact absurd (hsane.queue_lt _ hold) (Nat.lt_irrefl _)
    · cases List.mem_singleton.mp hnew
      exact hasks
  arrived := fun data hdata => absurd (hsane.arrived_lt hdata) (Nat.lt_irrefl _)

namespace Store

variable {store : Store FlakyTier}

theorem takeOutcome_evolves (store : Store FlakyTier) (ticket : Nat) :
    store.fetches.Evolves store.container.tier (store.takeOutcome ticket).2.fetches where
  nextTicket_le := Nat.le_refl _
  queued := fun hmem _ => hmem
  yields := by
    intro other data hdata _
    replace hdata : (store.fetches.arrived.erase ticket).get? other = some (.ok data) := hdata
    rw [SortedMap.get?_erase] at hdata
    split at hdata
    · cases hdata
    · exact Or.inl hdata

theorem startFetch_evolves (store : Store FlakyTier) (request : FetchRequest) :
    store.fetches.Evolves store.container.tier (store.startFetch request).2.fetches where
  nextTicket_le := Nat.le_succ _
  queued := by
    intro ticket other hmem hlt
    rcases List.mem_append.mp hmem with hold | hnew
    · exact hold
    · cases List.mem_singleton.mp hnew
      exact absurd hlt (Nat.lt_irrefl _)
  yields := fun hdata _ => Or.inl hdata

theorem runFetch_yields {fetch : Nat × FetchRequest} {ticket : Nat} {data : Bytes}
    (h : (store.runFetch fetch).fetches.arrived.get? ticket = some (.ok data)) :
    store.fetches.arrived.get? ticket = some (.ok data) ∨
      ticket = fetch.1 ∧ store.container.tier.Gives fetch.2 data := by
  have hgives := Container.fetch_gives store.container fetch.2
  have harrive : ∀ outcome : Except Error Bytes,
      (∀ data, outcome = .ok data → store.container.tier.Gives fetch.2 data) →
      (store.fetches.arrived.insert fetch.1 outcome).get? ticket = some (.ok data) →
      store.fetches.arrived.get? ticket = some (.ok data) ∨
        ticket = fetch.1 ∧ store.container.tier.Gives fetch.2 data := by
    intro outcome houtcome hdata
    rw [SortedMap.get?_insert] at hdata
    by_cases hticket : ticket = fetch.1
    · rw [if_pos hticket] at hdata
      exact Or.inr ⟨hticket, houtcome data (Option.some.inj hdata)⟩
    · rw [if_neg hticket] at hdata
      exact Or.inl hdata
  unfold runFetch at h
  cases hrun : (Container.fetch fetch.2).run store.container with
  | ok found container =>
      rw [hrun] at h
      refine harrive (.ok found) ?_ h
      rintro _ ⟨⟩
      exact (hgives.ok hrun).1
  | error e container =>
      rw [hrun] at h
      exact harrive (.error e) nofun h

theorem runFetch_tier_same (store : Store FlakyTier) (fetch : Nat × FetchRequest) :
    FlakyTier.Same store.container.tier (store.runFetch fetch).container.tier := by
  have hgives := Container.fetch_gives store.container fetch.2
  unfold runFetch
  cases hrun : (Container.fetch fetch.2).run store.container with
  | ok data container => exact (hgives.ok hrun).2
  | error e container => exact hgives.error hrun

theorem runFetches_yields (queue : List (Nat × FetchRequest)) :
    ∀ store : Store FlakyTier,
      FlakyTier.Same store.container.tier (queue.foldl runFetch store).container.tier ∧
      (queue.foldl runFetch store).fetches.nextTicket = store.fetches.nextTicket ∧
      (queue.foldl runFetch store).fetches.queue = store.fetches.queue ∧
      ∀ {ticket data},
        (queue.foldl runFetch store).fetches.arrived.get? ticket = some (.ok data) →
        store.fetches.arrived.get? ticket = some (.ok data) ∨
          ∃ request, (ticket, request) ∈ queue ∧ store.container.tier.Gives request data := by
  induction queue with
  | nil => exact fun _ => ⟨.refl _, rfl, rfl, Or.inl⟩
  | cons fetch rest ih =>
      intro store
      have hsame := runFetch_tier_same store fetch
      have hnoted := congrArg Store.fetches (runFetch_same store fetch)
      rcases ih (store.runFetch fetch) with ⟨hrest, hnext, hqueue, hyields⟩
      refine ⟨hsame.trans hrest, ?_, ?_, ?_⟩
      · rw [List.foldl_cons, hnext, hnoted]
      · rw [List.foldl_cons, hqueue, hnoted]
      · intro ticket data hdata
        rcases hyields hdata with hthere | ⟨request, hmem, hgives⟩
        · rcases runFetch_yields hthere with hbefore | ⟨rfl, hgives⟩
          · exact Or.inl hbefore
          · exact Or.inr ⟨fetch.2, List.mem_cons_self, hgives⟩
        · exact Or.inr ⟨request, List.mem_cons_of_mem _ hmem, hgives.of_same hsame.symm⟩

theorem settle_tier_same (store : Store FlakyTier) :
    FlakyTier.Same store.container.tier store.settle.container.tier :=
  (FlakyTier.runOrphans_same store.container.tier store.orphans).trans
    (runFetches_yields store.fetches.queue store.idle).1

theorem settle_evolves (store : Store FlakyTier) :
    store.fetches.Evolves store.container.tier store.settle.fetches := by
  have hsame := FlakyTier.runOrphans_same store.container.tier store.orphans
  rcases runFetches_yields store.fetches.queue store.idle with
    ⟨-, hnext, hqueue, hyields⟩
  refine ⟨Nat.le_of_eq hnext.symm, ?_, ?_⟩
  · intro ticket request hmem _
    rw [show store.settle.fetches.queue = [] from hqueue] at hmem
    cases hmem
  · intro ticket data hdata _
    rcases hyields hdata with hthere | ⟨request, hmem, hgives⟩
    · exact Or.inl hthere
    · exact Or.inr ⟨request, hmem, hgives.of_same hsame.symm⟩

end Store
end TieredStore
