import TieredStore.Proofs.Store.Holding

/-!
# Where a read is

The entries that a read has handed out lie one behind the other: all but the last have got
their bytes, and each starts where the bytes before it end.  The read knows how many bytes
there are up to its last entry and counts those of the last when the next is asked for.  It is
over when all that was wanted is there, after an entry that nothing follows, and after an
entry that has failed.
-/

namespace TieredStore

/-! ## Entries in a row -/

namespace Entry

variable {content grown : Contents} {id : SegmentId} {start limit : Nat} {entries : List Entry}
  {entry : Entry} {data : Bytes}

def received (entries : List Entry) : Bytes := entries.flatMap fun entry => entry.content.getD []

theorem received_append (entries others : List Entry) :
    received (entries ++ others) = received entries ++ received others :=
  List.flatMap_append

theorem received_snoc (entries : List Entry) (entry : Entry) :
    received (entries ++ [entry]) = received entries ++ entry.content.getD [] := by
  rw [received_append]
  simp [received]

theorem received_snoc_of_none (hnone : entry.content = none) :
    received (entries ++ [entry]) = received entries := by
  rw [received_snoc, hnone]
  exact List.append_nil _

/-- The entry failed: it waits for nothing and has got no bytes. -/
def Failed (entry : Entry) : Prop := entry.wait = none ∧ entry.content = none

/-- The entry starts behind the bytes of those before it, and what is left is wanted. -/
structure Continues (start limit : Nat) (entries : List Entry) (entry : Entry) : Prop where
  offset_eq : entry.offset = start + (received entries).length
  requested_eq : entry.requested = limit - (received entries).length

/-- The entries are pieces of the segment that lie one behind the other. -/
inductive Laid (content : Contents) (id : SegmentId) (start limit : Nat) : List Entry → Prop
  | nil : Laid content id start limit []
  | snoc {entries : List Entry} {entry : Entry} {data : Bytes}
      (h : Laid content id start limit entries) (hcontinues : entry.Continues start limit entries)
      (hdata : entry.content = some data)
      (hpiece : content.Piece id entry.offset entry.requested data) :
      Laid content id start limit (entries ++ [entry])

namespace Laid

theorem grows (h : Laid content id start limit entries) (hgrows : ∀ id, content id <+: grown id) :
    Laid grown id start limit entries := by
  induction h with
  | nil => exact .nil
  | snoc _ hcontinues hdata hpiece ih =>
      exact .snoc ih hcontinues hdata (hpiece.grows hgrows)

theorem got (h : Laid content id start limit entries) (hentry : entry ∈ entries) :
    ∃ data, entry.content = some data := by
  induction h with
  | nil => cases hentry
  | snoc _ _ hdata _ ih =>
      rcases List.mem_append.mp hentry with hbefore | hlast
      · exact ih hbefore
      · cases List.mem_singleton.mp hlast
        exact ⟨_, hdata⟩

theorem length_le (h : Laid content id start limit entries) :
    (received entries).length ≤ limit := by
  induction h with
  | nil => exact Nat.zero_le limit
  | snoc _ hcontinues hdata hpiece ih =>
      have hle := hpiece.length_le
      rw [hcontinues.requested_eq] at hle
      rw [received_snoc, hdata, Option.getD_some, List.length_append]
      omega

theorem received_eq (h : Laid content id start limit entries) :
    received entries = Bytes.slice (content id) start (received entries).length := by
  induction h with
  | nil => rfl
  | snoc _ hcontinues hdata hpiece ih =>
      have hslice := hpiece.eq_slice
      rw [hcontinues.offset_eq] at hslice
      rw [received_snoc, hdata, Option.getD_some, List.length_append, ← Bytes.slice_append_slice,
        ← ih, ← hslice]

theorem continues (h : Laid content id start limit entries) {before rest : List Entry}
    (hsplit : entries = before ++ entry :: rest) : entry.Continues start limit before := by
  induction h generalizing rest with
  | nil => exact absurd hsplit.symm (List.append_ne_nil_of_right_ne_nil _ (List.cons_ne_nil _ _))
  | @snoc entries last _ _ hcontinues _ _ ih =>
      rcases List.eq_nil_or_concat rest with rfl | ⟨others, other, rfl⟩
      · rcases List.append_inj' hsplit rfl with ⟨rfl, hlast⟩
        cases hlast
        exact hcontinues
      · rw [List.concat_eq_append, ← List.cons_append, ← List.append_assoc] at hsplit
        exact ih (List.append_inj' hsplit rfl).1

end Laid

inductive Arranged (content : Contents) (id : SegmentId) (start limit : Nat) : List Entry → Prop
  | laid {entries : List Entry} (h : Laid content id start limit entries) :
      Arranged content id start limit entries
  | last {entries : List Entry} {entry : Entry} (h : Laid content id start limit entries)
      (hcontinues : entry.Continues start limit entries) (hnone : entry.content = none) :
      Arranged content id start limit (entries ++ [entry])

namespace Arranged

theorem length_le (h : Arranged content id start limit entries) :
    (received entries).length ≤ limit := by
  cases h with
  | laid h => exact h.length_le
  | last h _ hnone =>
      rw [received_snoc_of_none hnone]
      exact h.length_le

theorem received_eq (h : Arranged content id start limit entries) :
    received entries = Bytes.slice (content id) start (received entries).length := by
  cases h with
  | laid h => exact h.received_eq
  | last h _ hnone =>
      rw [received_snoc_of_none hnone]
      exact h.received_eq

theorem split (h : Arranged content id start limit entries) {before rest : List Entry}
    (hsplit : entries = before ++ entry :: rest) :
    entry.Continues start limit before ∧ ∀ other ∈ before, ∃ data, other.content = some data := by
  have hlaid : ∀ {all rest : List Entry}, Laid content id start limit all →
      all = before ++ entry :: rest → entry.Continues start limit before ∧
        ∀ other ∈ before, ∃ data, other.content = some data := by
    rintro all rest hall rfl
    exact ⟨hall.continues rfl, fun other hother => hall.got (List.mem_append_left _ hother)⟩
  cases h with
  | laid h => exact hlaid h hsplit
  | last h hcontinues _ =>
      -- the entry is the last one, or one of those before it
      rcases List.eq_nil_or_concat rest with rfl | ⟨others, other, rfl⟩
      · rcases List.append_inj' hsplit rfl with ⟨rfl, hlast⟩
        cases hlast
        exact ⟨hcontinues, fun other hother => h.got hother⟩
      · rw [List.concat_eq_append, ← List.cons_append, ← List.append_assoc] at hsplit
        exact hlaid h (List.append_inj' hsplit rfl).1

end Arranged

def Over (limit : Nat) (entries : List Entry) : Prop :=
  limit ≤ (received entries).length ∨
    ∃ entry, entries.getLast? = some entry ∧ (entry.kind.isTerminal = true ∨ entry.Failed)

def Unresolved (entries : List Entry) : Prop :=
  ∃ entry, entries.getLast? = some entry ∧ entry.wait ≠ none

theorem over_snoc_iff : Over limit (entries ++ [entry]) ↔
    limit ≤ (received (entries ++ [entry])).length ∨ entry.kind.isTerminal = true ∨
      entry.Failed := by
  unfold Over
  rw [List.getLast?_append_of_ne_nil _ (List.cons_ne_nil _ _), List.getLast?_singleton]
  simp

theorem unresolved_snoc_iff : Unresolved (entries ++ [entry]) ↔ entry.wait ≠ none := by
  unfold Unresolved
  rw [List.getLast?_append_of_ne_nil _ (List.cons_ne_nil _ _), List.getLast?_singleton]
  simp

/-! ## Calls for entries -/

/-- A call for an entry leaves it its place, and the bytes or the failure that it has got. -/
structure Called (entry resolved : Entry) : Prop where
  number_eq : resolved.number = entry.number
  kind_eq : resolved.kind = entry.kind
  offset_eq : resolved.offset = entry.offset
  requested_eq : resolved.requested = entry.requested
  got : ∀ {data}, entry.content = some data → resolved.content = some data
  failed : entry.Failed → resolved.Failed

theorem Called.refl (entry : Entry) : entry.Called entry :=
  ⟨rfl, rfl, rfl, rfl, fun h => h, fun h => h⟩

theorem Called.continues {resolved : Entry} (h : entry.Called resolved) {others : List Entry}
    (hsame : received others = received entries) (hcontinues : entry.Continues start limit entries) :
    resolved.Continues start limit others where
  offset_eq := by rw [h.offset_eq, hsame, hcontinues.offset_eq]
  requested_eq := by rw [h.requested_eq, hsame, hcontinues.requested_eq]

section Mapping

variable {f : Entry → Entry}

theorem Laid.map (h : Laid content id start limit entries)
    (hcalled : ∀ entry ∈ entries, entry.Called (f entry)) :
    Laid content id start limit (entries.map f) ∧
      received (entries.map f) = received entries := by
  induction h with
  | nil => exact ⟨.nil, rfl⟩
  | @snoc entries entry data h hcontinues hdata hpiece ih =>
      rcases ih fun other hother => hcalled other (List.mem_append_left _ hother) with
        ⟨hlaid, hsame⟩
      have hentry := hcalled entry (List.mem_append_right _ List.mem_cons_self)
      have hdata' := hentry.got hdata
      rw [← hentry.offset_eq, ← hentry.requested_eq] at hpiece
      rw [List.map_append]
      refine ⟨.snoc hlaid (hentry.continues hsame hcontinues) hdata' hpiece, ?_⟩
      rw [List.map_singleton, received_snoc, received_snoc, hsame, hdata, hdata']

theorem length_received_map (hcalled : ∀ entry ∈ entries, entry.Called (f entry)) :
    (received entries).length ≤ (received (entries.map f)).length := by
  induction entries with
  | nil => exact Nat.le_refl _
  | cons entry rest ih =>
      have hrest := ih fun other hother => hcalled other (List.mem_cons_of_mem _ hother)
      have hentry : (entry.content.getD []).length ≤ ((f entry).content.getD []).length := by
        cases hdata : entry.content with
        | none => exact Nat.zero_le _
        | some data => rw [(hcalled entry List.mem_cons_self).got hdata]
      unfold received at hrest ⊢
      rw [List.map_cons, List.flatMap_cons, List.flatMap_cons, List.length_append,
        List.length_append]
      exact Nat.add_le_add hentry hrest

theorem Over.map (h : Over limit entries) (hcalled : ∀ entry ∈ entries, entry.Called (f entry)) :
    Over limit (entries.map f) := by
  rcases h with hlimit | ⟨entry, hlast, hend⟩
  · exact Or.inl (Nat.le_trans hlimit (length_received_map hcalled))
  · have hentry := hcalled entry (List.mem_of_getLast? hlast)
    refine Or.inr ⟨f entry, by rw [List.getLast?_map, hlast]; rfl, ?_⟩
    rw [hentry.kind_eq]
    exact hend.imp_right hentry.failed

end Mapping

/-! ## What entries tell, step by step -/

section Telling

variable {store after : Store FlakyTier} {own : Option Entry} {resolved : Entry}

theorem Noted.spared (h : entry.Noted content id store)
    (htrusts : store.fetches.Trusts content store.container.tier)
    (hspares : Store.Spares own content grown store after)
    (hother : own.map Entry.number ≠ some entry.number) : entry.Noted grown id after := by
  have hstatus : entry.status after = entry.status store := hspares.statuses h.given hother
  exact
    { given := Nat.lt_of_lt_of_le h.given hspares.length_le
      waits := by
        rw [hstatus]
        exact h.waits
      fulfils := fun hwait =>
        ((h.fulfils hwait).evolves htrusts hspares.evolves).grows hspares.grows
      got := by
        intro data hdata
        rcases h.got hdata with ⟨hready, hkind, hpiece⟩
        exact ⟨hstatus.trans hready, hkind, hpiece.grows hspares.grows⟩
      failed := by
        rw [hstatus]
        exact h.failed }

theorem Noted.resolves (h : entry.Noted content id store)
    (htrusts : store.fetches.Trusts content store.container.tier)
    (hresolves : entry.Resolves content id store resolved after) :
    resolved.Noted content id after := by
  have hgiven : entry.number < after.statuses.length := by
    rw [hresolves.length_eq]
    exact h.given
  cases hresolves.outcome with
  | kept failure hstatus =>
      exact
        { given := hgiven
          waits := by
            intro hwaits
            rw [show ({ entry with failure } : Entry).status after = entry.status store from hstatus]
            exact h.waits hwaits
          fulfils := fun hwait => (h.fulfils hwait).evolves htrusts hresolves.evolves
          got := fun hdata => ⟨hstatus.trans (h.got hdata).1, (h.got hdata).2⟩
          failed := fun hwait hnone => hstatus.trans (h.failed hwait hnone) }
  | started hwaits hstatus hfulfils =>
      rcases h.waits hwaits with ⟨hnone, hpending, hkind⟩
      exact
        { given := hgiven
          waits := fun _ => ⟨hnone, hstatus.trans hpending, hkind⟩
          fulfils := by
            rintro _ ⟨⟩
            exact hfulfils
          got := by
            intro data hdata
            rw [show entry.content = some data from hdata] at hnone
            cases hnone
          failed := nofun }
  | @got data hwaits hdata hstatus =>
      have hpiece : content.Piece id entry.offset entry.requested data := by
        rcases hdata with hpiece | ⟨ticket, hwait, hyields⟩
        · exact hpiece
        · exact (h.fulfils hwait).piece htrusts hyields
      exact
        { given := hgiven
          waits := fun hwait => absurd rfl hwait
          fulfils := nofun
          got := by
            rintro _ ⟨⟩
            exact ⟨hstatus, (h.waits hwaits).2.2, hpiece⟩
          failed := nofun }
  | failed hwaits failure hstatus =>
      have hnone := (h.waits hwaits).1
      exact
        { given := hgiven
          waits := fun hwait => absurd rfl hwait
          fulfils := nofun
          got := by
            intro data hdata
            rw [show entry.content = some data from hdata] at hnone
            cases hnone
          failed := fun _ _ => hstatus }

theorem Noted.called (h : entry.Noted content id store)
    (houtcome : entry.Outcome content id store after resolved) : entry.Called resolved := by
  rcases houtcome.same with ⟨hnumber, hkind, hoffset, hrequested⟩
  refine ⟨hnumber, hkind, hoffset, hrequested, ?_, ?_⟩
  · intro data hdata
    cases houtcome with
    | kept => exact hdata
    | started => exact hdata
    | got hwaits => exact absurd (h.wait_eq hdata) hwaits
    | failed => exact hdata
  · intro hfailed
    cases houtcome with
    | kept => exact hfailed
    | started hwaits => exact absurd hfailed.1 hwaits
    | got hwaits => exact absurd hfailed.1 hwaits
    | failed hwaits => exact absurd hfailed.1 hwaits

theorem Noted.answers (h : entry.Noted content id store) (hdata : entry.content = some data) :
    (entry.awaitContent store).result = .ok data := by
  unfold awaitContent
  rw [h.wait_eq hdata]
  unfold current
  simp only [hdata]

end Telling
end Entry

/-! ## Reads -/

namespace ReadResult

variable {content grown : Contents} {store : Store FlakyTier} {read : ReadResult}
  {entries : List Entry} {entry : Entry} {reply : Reply FlakyTier}

/-- The read and the entries that it has handed out belong together. -/
inductive Cursor (content : Contents) (read : ReadResult) : List Entry → Prop
  | counted {entries : List Entry}
      (h : Entry.Laid content read.segment read.start read.maxLength entries)
      (hfinished : read.finished = false) (hlast : read.last = none)
      (hconsumed : read.consumed = (Entry.received entries).length) : Cursor content read entries
  | handed {entries : List Entry} {entry : Entry}
      (h : Entry.Laid content read.segment read.start read.maxLength entries)
      (hlt : (Entry.received entries).length < read.maxLength)
      (hcontinues : entry.Continues read.start read.maxLength entries)
      (hfinished : read.finished = entry.kind.isTerminal) (hlast : read.last = some entry.number)
      (hconsumed : read.consumed = (Entry.received entries).length) :
      Cursor content read (entries ++ [entry])
  | failed {entries : List Entry} {entry : Entry}
      (h : Entry.Laid content read.segment read.start read.maxLength entries)
      (hcontinues : entry.Continues read.start read.maxLength entries) (hfailed : entry.Failed)
      (hfinished : read.finished = true) (hlast : read.last = none) :
      Cursor content read (entries ++ [entry])
  | complete {entries : List Entry}
      (h : Entry.Laid content read.segment read.start read.maxLength entries)
      (hlimit : read.maxLength ≤ (Entry.received entries).length)
      (hfinished : read.finished = true) (hlast : read.last = none) : Cursor content read entries

namespace Cursor

theorem grows (h : read.Cursor content entries) (hgrows : ∀ id, content id <+: grown id) :
    read.Cursor grown entries := by
  cases h with
  | counted h hfinished hlast hconsumed =>
      exact .counted (h.grows hgrows) hfinished hlast hconsumed
  | handed h hlt hcontinues hfinished hlast hconsumed =>
      exact .handed (h.grows hgrows) hlt hcontinues hfinished hlast hconsumed
  | failed h hcontinues hfailed hfinished hlast =>
      exact .failed (h.grows hgrows) hcontinues hfailed hfinished hlast
  | complete h hlimit hfinished hlast =>
      exact .complete (h.grows hgrows) hlimit hfinished hlast

theorem last_of_waits (h : read.Cursor content entries)
    (hnoted : ∀ entry ∈ entries, entry.Noted content read.segment store) (hentry : entry ∈ entries)
    (hwaits : entry.wait ≠ none) : read.last = some entry.number := by
  have hnot : ∀ {before : List Entry},
      Entry.Laid content read.segment read.start read.maxLength before → entry ∉ before := by
    intro before hlaid hmem
    rcases hlaid.got hmem with ⟨data, hdata⟩
    exact hwaits ((hnoted entry hentry).wait_eq hdata)
  cases h with
  | counted h => exact absurd hentry (hnot h)
  | handed h _ _ _ hlast _ =>
      rcases List.mem_append.mp hentry with hbefore | hmem
      · exact absurd hbefore (hnot h)
      · cases List.mem_singleton.mp hmem
        exact hlast
  | failed h _ hfailed _ _ =>
      rcases List.mem_append.mp hentry with hbefore | hmem
      · exact absurd hbefore (hnot h)
      · cases List.mem_singleton.mp hmem
        exact absurd hfailed.1 hwaits
  | complete h => exact absurd hentry (hnot h)

theorem arranged (h : read.Cursor content entries)
    (hnoted : ∀ entry ∈ entries, entry.Noted content read.segment store) :
    Entry.Arranged content read.segment read.start read.maxLength entries := by
  cases h with
  | counted h => exact .laid h
  | @handed before entry h hlt hcontinues _ _ _ =>
      cases hdata : entry.content with
      | none => exact .last h hcontinues hdata
      | some data =>
          have hmem : entry ∈ before ++ [entry] := List.mem_append_right _ List.mem_cons_self
          exact .laid (.snoc h hcontinues hdata ((hnoted entry hmem).got hdata).2.2)
  | failed h hcontinues hfailed _ _ => exact .last h hcontinues hfailed.2
  | complete h => exact .laid h

end Cursor

/-! ## The next entry -/

theorem Reply.mem_entries_iff : entry ∈ reply.entries ↔ reply.result = .ok (some entry) := by
  unfold entries
  split
  · rename_i other heq
    rw [heq, List.mem_singleton]
    constructor
    · rintro rfl
      rfl
    · intro hsame
      exact (Option.some.inj (Except.ok.inj hsame)).symm
  · rename_i hnone
    exact ⟨nofun, fun hsome => absurd hsome (hnone entry)⟩

/-- What the call for the next entry tells about the entries before it. -/
structure Reply.Answers (reply : Reply FlakyTier) (limit : Nat) (entries : List Entry) : Prop where
  misuse_iff : ∀ misuse, reply.result = .error (.misuse misuse) ↔
    misuse = .unresolvedEntry ∧ Entry.Unresolved entries
  none_iff : reply.result = .ok none ↔ Entry.Over limit entries

theorem not_unresolved_of_laid
    (hlaid : Entry.Laid content read.segment read.start read.maxLength entries)
    (hnoted : ∀ entry ∈ entries, entry.Noted content read.segment store) :
    ¬ Entry.Unresolved entries := by
  rintro ⟨entry, hlast, hwaits⟩
  have hmem := List.mem_of_getLast? hlast
  rcases hlaid.got hmem with ⟨data, hdata⟩
  exact hwaits ((hnoted entry hmem).wait_eq hdata)

theorem not_over_of_laid
    (hlaid : Entry.Laid content read.segment read.start read.maxLength entries)
    (hnoted : ∀ entry ∈ entries, entry.Noted content read.segment store)
    (hlt : (Entry.received entries).length < read.maxLength) :
    ¬ Entry.Over read.maxLength entries := by
  rintro (hle | ⟨entry, hlast, hend⟩)
  · exact absurd hle (Nat.not_le.mpr hlt)
  · have hmem := List.mem_of_getLast? hlast
    rcases hlaid.got hmem with ⟨data, hdata⟩
    rcases hend with hkind | ⟨-, hnone⟩
    · rw [((hnoted entry hmem).got hdata).2.1] at hkind
      cases hkind
    · rw [hdata] at hnone
      cases hnone

theorem Reply.Steps.cursor (h : reply.Steps content store read)
    (hlaid : Entry.Laid content read.segment read.start read.maxLength entries)
    (hconsumed : read.consumed = (Entry.received entries).length)
    (hfinished : read.finished = false) (hlast : read.last = none) :
    reply.read.Cursor content (entries ++ reply.entries) := by
  cases h with
  | finished hover hreply =>
      rw [hconsumed] at hover
      rw [hreply, show Reply.entries _ = [] from rfl, List.append_nil]
      exact .complete hlaid hover rfl rfl
  | refused hlt cause hreply =>
      rw [hreply, show Reply.entries _ = [] from rfl, List.append_nil]
      exact .counted hlaid hfinished hlast hconsumed
  | entry hlt hhanded hreply =>
      have hoffset := hhanded.offset_eq
      have hrequested := hhanded.requested_eq
      rw [hconsumed] at hlt hoffset hrequested
      rw [hreply, show Reply.entries _ = [_] from rfl]
      exact .handed hlaid hlt ⟨hoffset, hrequested⟩ rfl rfl hconsumed

theorem Reply.Steps.answers (h : reply.Steps content store read)
    (hlaid : Entry.Laid content read.segment read.start read.maxLength entries)
    (hconsumed : read.consumed = (Entry.received entries).length)
    (hnoted : ∀ entry ∈ entries, entry.Noted content read.segment store) :
    reply.Answers read.maxLength entries := by
  have hresolved := not_unresolved_of_laid hlaid hnoted
  cases h with
  | finished hover hreply =>
      rw [hconsumed] at hover
      rw [hreply]
      exact ⟨fun _ => ⟨nofun, fun h => absurd h.2 hresolved⟩, fun _ => Or.inl hover, fun _ => rfl⟩
  | refused hlt cause hreply =>
      rw [hconsumed] at hlt
      have hgoes := not_over_of_laid hlaid hnoted hlt
      rw [hreply]
      exact ⟨fun _ => ⟨nofun, fun h => absurd h.2 hresolved⟩, nofun, fun h => absurd h hgoes⟩
  | entry hlt hhanded hreply =>
      rw [hconsumed] at hlt
      have hgoes := not_over_of_laid hlaid hnoted hlt
      rw [hreply]
      exact ⟨fun _ => ⟨nofun, fun h => absurd h.2 hresolved⟩, nofun, fun h => absurd h hgoes⟩

theorem Cursor.ended {last : ReadResult} (h : last.Cursor content entries) {limit : Nat}
    (hreply : reply = { result := .ok none, read := last, store })
    (hresolved : ¬ Entry.Unresolved entries) (hover : Entry.Over limit entries) :
    reply.read.Cursor content (entries ++ reply.entries) ∧ reply.Answers limit entries := by
  rw [hreply]
  constructor
  · rw [show Reply.entries _ = [] from rfl, List.append_nil]
    exact h
  · exact ⟨fun _ => ⟨nofun, fun h => absurd h.2 hresolved⟩, fun _ => hover, fun _ => rfl⟩

theorem Cursor.held_up (h : read.Cursor content entries) {limit : Nat}
    (hreply : reply = { result := .error (.misuse .unresolvedEntry), read, store })
    (hwaits : Entry.Unresolved entries) (hgoes : ¬ Entry.Over limit entries) :
    reply.read.Cursor content (entries ++ reply.entries) ∧ reply.Answers limit entries := by
  rw [hreply]
  constructor
  · rw [show Reply.entries _ = [] from rfl, List.append_nil]
    exact h
  · refine ⟨fun misuse => ⟨?_, ?_⟩, nofun, fun h => absurd h hgoes⟩
    · rintro ⟨⟩
      exact ⟨rfl, hwaits⟩
    · rintro ⟨rfl, -⟩
      rfl

theorem Reply.Nexts.of_finished (h : reply.Nexts content store read)
    (hfinished : read.finished = true) : reply = { result := .ok none, read, store } := by
  cases h with
  | finished _ hreply => exact hreply
  | fresh hgoes => rw [hfinished] at hgoes; cases hgoes
  | pending hgoes => rw [hfinished] at hgoes; cases hgoes
  | counted hgoes => rw [hfinished] at hgoes; cases hgoes
  | failed hgoes => rw [hfinished] at hgoes; cases hgoes

theorem Reply.Nexts.of_fresh (h : reply.Nexts content store read)
    (hgoes : read.finished = false) (hlast : read.last = none) :
    reply.Steps content store read := by
  cases h with
  | finished hfinished => rw [hgoes] at hfinished; cases hfinished
  | fresh _ _ hsteps => exact hsteps
  | pending _ hsome => rw [hlast] at hsome; cases hsome
  | counted _ hsome => rw [hlast] at hsome; cases hsome
  | failed _ hsome => rw [hlast] at hsome; cases hsome

theorem Reply.Steps.same (h : reply.Steps content store read) :
    reply.read.segment = read.segment ∧ reply.read.start = read.start ∧
      reply.read.maxLength = read.maxLength := by
  cases h with
  | finished _ hreply => rw [hreply]; exact ⟨rfl, rfl, rfl⟩
  | refused _ _ hreply => rw [hreply]; exact ⟨rfl, rfl, rfl⟩
  | entry _ _ hreply => rw [hreply]; exact ⟨rfl, rfl, rfl⟩

theorem Reply.Nexts.same (h : reply.Nexts content store read) :
    reply.read.segment = read.segment ∧ reply.read.start = read.start ∧
      reply.read.maxLength = read.maxLength := by
  cases h with
  | finished _ hreply => rw [hreply]; exact ⟨rfl, rfl, rfl⟩
  | fresh _ _ hsteps => exact hsteps.same
  | pending _ _ _ hreply => rw [hreply]; exact ⟨rfl, rfl, rfl⟩
  | counted _ _ _ hsteps => exact hsteps.same
  | failed _ _ _ hreply => rw [hreply]; exact ⟨rfl, rfl, rfl⟩

theorem Reply.Steps.noted (h : reply.Steps content store read) (hentry : entry ∈ reply.entries) :
    entry.Noted content read.segment reply.store ∧ entry.number = store.statuses.length := by
  cases h with
  | finished _ hreply => rw [hreply] at hentry; cases hentry
  | refused _ _ hreply => rw [hreply] at hentry; cases hentry
  | entry _ hhanded hreply =>
      rw [hreply] at hentry ⊢
      cases List.mem_singleton.mp hentry
      exact ⟨hhanded.noted, hhanded.number_eq⟩

theorem Reply.Nexts.noted (h : reply.Nexts content store read) (hentry : entry ∈ reply.entries) :
    entry.Noted content read.segment reply.store ∧ entry.number = store.statuses.length := by
  cases h with
  | finished _ hreply => rw [hreply] at hentry; cases hentry
  | fresh _ _ hsteps => exact hsteps.noted hentry
  | pending _ _ _ hreply => rw [hreply] at hentry; cases hentry
  | counted _ _ _ hsteps => exact hsteps.noted hentry
  | failed _ _ _ hreply => rw [hreply] at hentry; cases hentry

section Handed

variable (h : Entry.Laid content read.segment read.start read.maxLength entries)
  (hlt : (Entry.received entries).length < read.maxLength)
  (hcontinues : entry.Continues read.start read.maxLength entries)
  (hfinished : read.finished = entry.kind.isTerminal) (hlast : read.last = some entry.number)
  (hconsumed : read.consumed = (Entry.received entries).length)

include h hlt hcontinues hfinished hlast hconsumed

theorem Reply.Nexts.handed (hnexts : reply.Nexts content store read)
    (hnoted : ∀ other ∈ entries ++ [entry], other.Noted content read.segment store) :
    reply.read.Cursor content (entries ++ [entry] ++ reply.entries) ∧
      reply.Answers read.maxLength (entries ++ [entry]) := by
  have hcursor : read.Cursor content (entries ++ [entry]) :=
    .handed h hlt hcontinues hfinished hlast hconsumed
  have hentry := hnoted entry (List.mem_append_right _ List.mem_cons_self)
  cases hnexts with
  | finished hends hreply =>
      -- an entry that nothing follows is never left waiting
      rw [hfinished] at hends
      refine hcursor.ended hreply ?_ (Entry.over_snoc_iff.mpr (Or.inr (Or.inl hends)))
      rw [Entry.unresolved_snoc_iff]
      intro hwaits
      rw [(hentry.waits hwaits).2.2] at hends
      cases hends
  | fresh _ hnone =>
      rw [hlast] at hnone
      cases hnone
  | pending hgoes hsome hstatus hreply =>
      rw [hlast] at hsome
      cases hsome
      have hwaits := hentry.pending_iff.mp hstatus
      refine hcursor.held_up hreply (Entry.unresolved_snoc_iff.mpr hwaits) ?_
      rw [Entry.over_snoc_iff, Entry.received_snoc_of_none (hentry.waits hwaits).1]
      rintro (hle | hkind | hfailed)
      · exact absurd hle (Nat.not_le.mpr hlt)
      · rw [(hentry.waits hwaits).2.2] at hkind
        cases hkind
      · exact hwaits hfailed.1
  | @counted number n hgoes hsome hstatus hsteps =>
      rw [hlast] at hsome
      cases hsome
      rcases hentry.of_ready hstatus with ⟨data, hdata, rfl, hpiece⟩
      have hlaid := h.snoc hcontinues hdata hpiece
      have hcounted : read.consumed + data.length =
          (Entry.received (entries ++ [entry])).length := by
        rw [Entry.received_snoc, hdata, Option.getD_some, List.length_append, hconsumed]
      exact ⟨hsteps.cursor hlaid hcounted hgoes rfl, hsteps.answers hlaid hcounted hnoted⟩
  | failed _ hsome hstatus hreply =>
      rw [hlast] at hsome
      cases hsome
      have hfailed := hentry.of_failed hstatus
      have hended : read.ended.Cursor content (entries ++ [entry]) :=
        .failed h hcontinues hfailed rfl rfl
      refine hended.ended hreply ?_ (Entry.over_snoc_iff.mpr (Or.inr (Or.inr hfailed)))
      rw [Entry.unresolved_snoc_iff]
      exact not_not_intro hfailed.1

end Handed

/-- The read and its entries belong together after the call, which tells how things are. -/
theorem Cursor.next (h : read.Cursor content entries)
    (hnoted : ∀ entry ∈ entries, entry.Noted content read.segment store)
    (hnexts : reply.Nexts content store read) :
    reply.read.Cursor content (entries ++ reply.entries) ∧
      reply.Answers read.maxLength entries := by
  cases h with
  | counted h hfinished hlast hconsumed =>
      have hsteps := hnexts.of_fresh hfinished hlast
      exact ⟨hsteps.cursor h hconsumed hfinished hlast, hsteps.answers h hconsumed hnoted⟩
  | handed h hlt hcontinues hfinished hlast hconsumed =>
      exact hnexts.handed h hlt hcontinues hfinished hlast hconsumed hnoted
  | failed h hcontinues hfailed hfinished hlast =>
      have hcursor := Cursor.failed h hcontinues hfailed hfinished hlast
      refine hcursor.ended (hnexts.of_finished hfinished) ?_
        (Entry.over_snoc_iff.mpr (Or.inr (Or.inr hfailed)))
      rw [Entry.unresolved_snoc_iff]
      exact not_not_intro hfailed.1
  | complete h hlimit hfinished hlast =>
      have hcursor := Cursor.complete h hlimit hfinished hlast
      exact hcursor.ended (hnexts.of_finished hfinished) (not_unresolved_of_laid h hnoted)
        (Or.inl hlimit)

/-! ## Calls for entries -/

theorem Cursor.map (h : read.Cursor content entries) {f : Entry → Entry}
    (hcalled : ∀ entry ∈ entries, entry.Called (f entry)) :
    read.Cursor content (entries.map f) := by
  cases h with
  | counted h hfinished hlast hconsumed =>
      rcases h.map hcalled with ⟨hlaid, hsame⟩
      rw [← hsame] at hconsumed
      exact .counted hlaid hfinished hlast hconsumed
  | handed h hlt hcontinues hfinished hlast hconsumed =>
      rcases h.map fun other hother => hcalled other (List.mem_append_left _ hother) with
        ⟨hlaid, hsame⟩
      have hentry := hcalled _ (List.mem_append_right _ List.mem_cons_self)
      rw [← hsame] at hlt hconsumed
      rw [← hentry.kind_eq] at hfinished
      rw [← hentry.number_eq] at hlast
      rw [List.map_append]
      exact .handed hlaid hlt (hentry.continues hsame hcontinues) hfinished hlast hconsumed
  | failed h hcontinues hfailed hfinished hlast =>
      rcases h.map fun other hother => hcalled other (List.mem_append_left _ hother) with
        ⟨hlaid, hsame⟩
      have hentry := hcalled _ (List.mem_append_right _ List.mem_cons_self)
      rw [List.map_append]
      exact .failed hlaid (hentry.continues hsame hcontinues) (hentry.failed hfailed) hfinished hlast
  | complete h hlimit hfinished hlast =>
      rcases h.map hcalled with ⟨hlaid, hsame⟩
      rw [← hsame] at hlimit
      exact .complete hlaid hlimit hfinished hlast

end ReadResult
end TieredStore
