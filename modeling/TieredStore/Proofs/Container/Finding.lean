import TieredStore.Proofs.Container.Sound
import TieredStore.Proofs.Table.Advances

/-!
# Bytes are found

What is to be read of a segment from an offset on is in one piece under the
segment itself or under a batch, up to a limit.  A look-up finds it in the cache
or asks the tier for it, and it asks only for what the tier has.  A request to the
tier stays valid as long as the store is open: its source keeps its name and its
object, or it is gone, and then what is read is not cached.  A source that is gone was
joined to the segment, whose object the request turns to.
-/

namespace TieredStore

/-- The request goes to the segment itself, or to a batch that is pending there or joined to it. -/
inductive FetchRequest.Aims (request : FetchRequest) (s : Segment) : Prop
  | own (hsource : request.source = request.segment)
  | merged {m : PendingMerge} (hm : m ∈ s.pending ∨ m.stop ≤ s.storageLength)
      (hsource : request.source = m.batch)
      (hfallback : request.fallback = some (s.name, request.offset))
      (hlt : request.offset < m.stop) (hstop : request.offset + request.length ≤ m.stop)

theorem FetchRequest.Aims.becomes {request : FetchRequest} {s t : Segment} (h : request.Aims s)
    (hbecomes : s.Becomes t) : request.Aims t := by
  cases h with
  | own hsource => exact .own hsource
  | merged hm hsource hfallback hlt hstop =>
      refine .merged ?_ hsource (hbecomes.name_eq ▸ hfallback) hlt hstop
      rcases hm with hpending | hstored
      · exact hbecomes.merges _ hpending
      · exact Or.inr (Nat.le_trans hstored hbecomes.stored_le)

/-- A request asks for what the tier holds of its source, if the source is still there. -/
structure FetchRequest.Valid (table : Table) (request : FetchRequest) : Prop where
  source_lt : request.source < table.nextId
  stored : ∀ s, table.get? request.source = some s → s.name = request.sourceName ∧
    request.sourceOffset < s.storageLength ∧
    request.sourceOffset + request.length ≤ s.storageLength
  segment_lt : request.segment < table.nextId
  aims : ∀ s, table.get? request.segment = some s → request.Aims s

theorem FetchRequest.Valid.advances {before after : Table} {request : FetchRequest}
    (h : request.Valid before) (hadvances : before.Advances after) : request.Valid after where
  source_lt := Nat.lt_of_lt_of_le h.source_lt hadvances.nextId_le
  stored := by
    intro t ht
    rcases hadvances.kept ht h.source_lt with ⟨s, hs, hbecomes⟩
    rcases h.stored s hs with ⟨hname, hlt, hstop⟩
    exact ⟨hbecomes.name_eq.trans hname, Nat.lt_of_lt_of_le hlt hbecomes.stored_le,
      Nat.le_trans hstop hbecomes.stored_le⟩
  segment_lt := Nat.lt_of_lt_of_le h.segment_lt hadvances.nextId_le
  aims := by
    intro t ht
    rcases hadvances.kept ht h.segment_lt with ⟨s, hs, hbecomes⟩
    exact (h.aims s hs).becomes hbecomes

/-- The same bytes are in one piece in the extent, and not in a pending merge there. -/
structure Extent.Holds (content : Contents) (id : SegmentId) (offset : Nat) (s : Segment)
    (place : Extent) : Prop where
  limit_pos : 0 < place.limit
  stop_le : offset + place.limit ≤ s.length
  within : place.offset < place.source.length
  apart : place.source.pendingAt? place.offset = none
  slice_eq : ∀ n, n ≤ place.limit →
    Bytes.slice (content place.source.id) place.offset n = Bytes.slice (content id) offset n

/-- What is found are the bytes from the offset on, at least one and not too many. -/
def Found.Serves (content : Contents) (table : Table) (id : SegmentId) (s : Segment)
    (offset count : Nat) : Found → Prop
  | .cached data => 0 < data.length ∧ data.length ≤ count ∧ offset + data.length ≤ s.length ∧
      data = Bytes.slice (content id) offset data.length
  | .stored request => 0 < request.length ∧ request.length ≤ count ∧
      offset + request.length ≤ s.length ∧ request.segment = id ∧ request.offset = offset ∧
      (∃ source, table.get? request.source = some source) ∧
      Bytes.slice (content request.source) request.sourceOffset request.length =
        Bytes.slice (content id) offset request.length

def Extent.request (place : Extent) (s : Segment) (offset length : Nat) : FetchRequest :=
  { segment := s.id, offset, source := place.source.id, sourceName := place.source.name,
    sourceOffset := place.offset, length, fallback := place.fallback }

namespace Extent.Holds

variable {content : Contents} {table : Table} {id : SegmentId} {s : Segment} {offset count : Nat}
  {place : Extent}

theorem serves_cached (h : place.Holds content id offset s) {data : Bytes}
    (hpiece : data = Bytes.slice (content place.source.id) place.offset data.length)
    (hlength : data.length ≤ min count place.limit) (hpos : 0 < data.length) :
    (Found.cached data).Serves content table id s offset count := by
  have hlimit : data.length ≤ place.limit := Nat.le_trans hlength (Nat.min_le_right _ _)
  refine ⟨hpos, Nat.le_trans hlength (Nat.min_le_left _ _), ?_, ?_⟩
  · exact Nat.le_trans (Nat.add_le_add_left hlimit _) h.stop_le
  · rw [← h.slice_eq data.length hlimit]
    exact hpiece

theorem serves_stored (h : place.Holds content id offset s) (hid : s.id = id)
    (hsource : table.get? place.source.id = some place.source) {length : Nat}
    (hlength : length ≤ min count place.limit) (hpos : 0 < length) :
    (Found.stored (place.request s offset length)).Serves content table id s offset count := by
  have hlimit : length ≤ place.limit := Nat.le_trans hlength (Nat.min_le_right _ _)
  refine ⟨hpos, Nat.le_trans hlength (Nat.min_le_left _ _), ?_, hid, rfl, ⟨_, hsource⟩, ?_⟩
  · exact Nat.le_trans (Nat.add_le_add_left hlimit _) h.stop_le
  · exact h.slice_eq length hlimit

end Extent.Holds

def Found.Valid (table : Table) (found : Found) : Prop :=
  ∀ request, found = .stored request → request.Valid table

namespace Container

variable {broken : Prop} {content : Contents} {replayed : Table} {c : Container FlakyTier}
  {id : SegmentId} {s : Segment} {offset count maxRead : Nat}

/-- The cache only changes in when its blocks were used last and in which can be evicted. -/
structure Unmoved (content : Contents) (c after : Container FlakyTier) : Prop where
  sound : after.Sound content
  table_eq : after.table = c.table
  tier_same : FlakyTier.Same c.tier after.tier

theorem Unmoved.refl (h : c.Sound content) : Unmoved content c c :=
  ⟨h, rfl, FlakyTier.Same.refl _⟩

theorem Unmoved.trans {middle after : Container FlakyTier} (h : Unmoved content c middle)
    (hafter : Unmoved content middle after) : Unmoved content c after :=
  ⟨hafter.sound, hafter.table_eq.trans h.table_eq, h.tier_same.trans hafter.tier_same⟩

theorem Unmoved.tracked {after : Container FlakyTier} (h : Unmoved content c after)
    (hc : c.Tracked broken content replayed) : after.Tracked broken content replayed where
  sound := h.sound
  aligned := by
    rw [h.table_eq]
    exact Table.EndsIn.of_same hc.aligned h.tier_same.object?_eq
  accounted := by
    rw [h.table_eq]
    exact hc.accounted
  follows := by
    rw [h.table_eq]
    exact hc.follows
  replayed := hc.replayed

/-!
## Extents
-/

theorem Sound.extent_pending (h : c.Sound content) (hs : c.table.get? id = some s)
    {m : PendingMerge} (hat : s.pendingAt? offset = some m) :
    ∃ place, extent c.table s offset = .ok place ∧
      c.table.get? place.source.id = some place.source ∧
      place.Holds content id offset s := by
  have hm : m ∈ s.pending := List.mem_of_find?_eq_some hat
  have hfind : s.pending.find? (·.covers offset) = some m := hat
  have hcovers := List.find?_some hfind
  simp only [PendingMerge.covers, Bool.and_eq_true, decide_eq_true_eq] at hcovers
  have hin : offset < m.offset + m.length := hcovers.2
  have hstop := (h.consistent.segment hs).stop_le m hm
  rcases h.consistent.backed hs m hm with ⟨b, hb, hparent, -, hlength, hslice⟩
  have hid := h.consistent.id_eq hb
  refine ⟨{ source := b, offset := offset - m.offset, limit := m.stop - offset,
            fallback := some (s.name, offset) }, ?_, ?_, ?_⟩
  · unfold extent
    rw [hat]
    simp only [Table.require_eq_ok_iff.mpr hb]
    rfl
  · show c.table.get? b.id = some b
    rw [hid]
    exact hb
  · refine { limit_pos := ?_, stop_le := ?_, within := ?_, apart := ?_, slice_eq := ?_ }
    · show 0 < m.offset + m.length - offset
      omega
    · show offset + (m.stop - offset) ≤ s.length
      rw [Nat.add_sub_of_le (Nat.le_of_lt hcovers.2)]
      exact hstop
    · show offset - m.offset < b.length
      rw [hlength]
      omega
    · show b.pendingAt? _ = none
      unfold Segment.pendingAt?
      rw [h.consistent.pending_of_parent hb hparent]
      rfl
    · intro n hn
      have hn : n ≤ m.offset + m.length - offset := hn
      show Bytes.slice (content b.id) (offset - m.offset) n = _
      rw [hid, ← hslice, Bytes.slice_slice (by omega), Nat.add_sub_of_le hcovers.1]

theorem Sound.extent_self (h : c.Sound content) (hs : c.table.get? id = some s)
    (hat : s.pendingAt? offset = none) :
    ∃ place, extent c.table s offset = .ok place ∧
      c.table.get? place.source.id = some place.source ∧
      (offset < s.length → place.Holds content id offset s) := by
  have hid := h.consistent.id_eq hs
  refine ⟨{ source := s, offset,
            limit := ((s.pendingAfter? offset).map (·.offset)).getD s.length - offset }, ?_, ?_, ?_⟩
  · unfold extent
    rw [hat]
  · show c.table.get? s.id = some s
    rw [hid]
    exact hs
  · intro hlt
    have hstop : offset < ((s.pendingAfter? offset).map (·.offset)).getD s.length ∧
        ((s.pendingAfter? offset).map (·.offset)).getD s.length ≤ s.length := by
      cases hafter : s.pendingAfter? offset with
      | none => exact ⟨hlt, Nat.le_refl _⟩
      | some m =>
          have hm : m ∈ s.pending := List.mem_of_find?_eq_some hafter
          have hbehind := List.find?_some hafter
          constructor
          · exact of_decide_eq_true hbehind
          · exact Nat.le_trans (Nat.le_add_right _ _) ((h.consistent.segment hs).stop_le m hm)
    refine { limit_pos := Nat.sub_pos_of_lt hstop.1, stop_le := ?_, within := hlt, apart := hat,
             slice_eq := ?_ }
    · show offset + (_ - offset) ≤ s.length
      rw [Nat.add_sub_of_le (Nat.le_of_lt hstop.1)]
      exact hstop.2
    · intro n _
      show Bytes.slice (content s.id) offset n = _
      rw [hid]

theorem Sound.extent (h : c.Sound content) (hs : c.table.get? id = some s) (offset : Nat) :
    ∃ place, extent c.table s offset = .ok place ∧
      c.table.get? place.source.id = some place.source ∧
      (offset < s.length → place.Holds content id offset s) := by
  cases hat : s.pendingAt? offset with
  | none => exact h.extent_self hs hat
  | some m =>
      rcases h.extent_pending hs hat with ⟨place, hplace, hsource, hholds⟩
      exact ⟨place, hplace, hsource, fun _ => hholds⟩

/-- What is asked for in an extent is the segment's or a pending batch's. -/
theorem aims_of_extent {table : Table} (htable : table.Consistent content) {place : Extent}
    (hplace : extent table s offset = .ok place) {length : Nat} (hlength : length ≤ place.limit) :
    (place.request s offset length).Aims s := by
  unfold extent at hplace
  cases hat : s.pendingAt? offset with
  | none =>
      rw [hat] at hplace
      cases hplace
      exact .own rfl
  | some m =>
      rw [hat] at hplace
      rcases bind_eq_ok_iff.mp hplace with ⟨b, hb, heq⟩
      cases heq
      have hcovers := List.find?_some (show s.pending.find? (·.covers offset) = some m from hat)
      simp only [PendingMerge.covers, Bool.and_eq_true, decide_eq_true_eq] at hcovers
      have hlimit : length ≤ m.stop - offset := hlength
      refine .merged (Or.inl (List.mem_of_find?_eq_some hat))
        (htable.id_eq (Table.require_eq_ok_iff.mp hb)) rfl hcovers.2 ?_
      show offset + length ≤ m.stop
      omega

/-- A request for bytes of an extent that the tier has is valid. -/
theorem Sound.request_valid (h : c.Sound content) (hs : c.table.get? id = some s) {place : Extent}
    (hplace : Container.extent c.table s offset = .ok place)
    (hsource : c.table.get? place.source.id = some place.source)
    (hinside : place.offset < place.source.storageLength) {length : Nat}
    (hlimit : length ≤ place.limit) (hstored : length ≤ place.source.storageLength - place.offset) :
    (place.request s offset length).Valid c.table := by
  have hid := h.consistent.id_eq hs
  refine { source_lt := h.consistent.id_lt hsource, stored := ?_, segment_lt := ?_, aims := ?_ }
  · intro t ht
    have ht : c.table.get? place.source.id = some t := ht
    rw [hsource] at ht
    cases ht
    refine ⟨rfl, hinside, ?_⟩
    show place.offset + length ≤ place.source.storageLength
    omega
  · show s.id < c.table.nextId
    rw [hid]
    exact h.consistent.id_lt hs
  · intro t ht
    have ht : c.table.get? s.id = some t := ht
    rw [hid, hs] at ht
    cases ht
    exact aims_of_extent h.consistent hplace hlimit

/-- A byte that the tier is not known to hold is in the cache, unless it is a pending batch's. -/
theorem Sound.get_unflushed (h : c.Sound content) (hs : c.table.get? id = some s)
    (hstored : s.storageLength ≤ offset) (hlt : offset < s.length)
    (hapart : ∀ m ∈ s.pending, ¬ (m.offset ≤ offset ∧ offset < m.stop)) :
    ∃ byte, (content id)[offset]? = some byte ∧ (c.cache.get id offset 1).1 = some [byte] := by
  have hcovers := h.cached.covers hs hstored hlt (Segment.pendingAt?_eq_none_iff.mpr hapart)
  rcases h.cached.faithful.get_of_covers hcovers Nat.one_pos with ⟨data, hget, hpiece, hpos, hle⟩
  have hlength : data.length = 1 := Nat.le_antisymm hle hpos
  rcases List.length_eq_one_iff.mp hlength with ⟨byte, rfl⟩
  exact ⟨byte, Bytes.getElem?_of_slice hpiece.symm, hget⟩

/-!
## Look-ups
-/

/-- A look-up is refused, or the cache has the bytes, or the tier has them, or nobody has. -/
theorem ends_lookup {τ : Type} {c : Container τ} {offset count maxRead : Nat}
    {answered : Found → Container τ → Prop} {failed : Error → Container τ → Prop}
    (hrefused : ∀ cause, extent c.table s offset = .error cause → failed (.refused cause) c)
    (hplaced : ∀ place, extent c.table s offset = .ok place →
      Ends (cached place.source.id place.offset (min count place.limit)) c
        (fun found after =>
          (∀ data, found = some data → answered (.cached data) after) ∧
          (found = none → place.source.storageLength ≤ place.offset →
            failed (.misuse (.bytesNowhere s.id offset)) after) ∧
          (found = none → place.offset < place.source.storageLength →
            answered (.stored (place.request s offset
              (min (min (min count place.limit) (max maxRead 1))
                (place.source.storageLength - place.offset)))) after))
        failed) :
    Ends (lookup s offset count maxRead) c answered failed := by
  unfold lookup
  refine Ends.get ?_
  cases hextent : extent c.table s offset with
  | error cause => exact Ends.throw (hrefused cause hextent)
  | ok place =>
      simp only
      refine Ends.bind ((hplaced place hextent).mono ?_ fun _ _ hfailed => hfailed)
      rintro found after ⟨hhit, hnowhere, hstored⟩
      cases found with
      | some data => exact Ends.pure (hhit data rfl)
      | none =>
          simp only
          split
          · rename_i hbehind
            exact Ends.throw (hnowhere rfl hbehind)
          · rename_i hinside
            exact Ends.pure (hstored rfl (Nat.not_le.mp hinside))

theorem Sound.lookup_ends (h : c.Sound content) (hs : c.table.get? id = some s)
    (offset count maxRead : Nat) :
    Ends (lookup s offset count maxRead) c
      (fun found after => Unmoved content c after ∧ found.Valid c.table ∧
        (offset < s.length → 0 < count → found.Serves content c.table id s offset count))
      (fun _ after => Unmoved content c after ∧ ¬ offset < s.length) := by
  rcases h.extent hs offset with ⟨place, hplace, hsource, hholds⟩
  refine ends_lookup ?_ ?_
  · intro cause hrefused
    rw [hplace] at hrefused
    cases hrefused
  · intro other hother
    cases hplace.symm.trans hother
    refine (cached_ends c place.source.id place.offset (min count place.limit)).mono ?_
      fun _ _ hfalse => hfalse.elim
    rintro found after ⟨hfound, rfl⟩
    have hunmoved : Unmoved content c { c with
        cache := (c.cache.get place.source.id place.offset (min count place.limit)).2 } :=
      ⟨h.get _ _ _, rfl, FlakyTier.Same.refl _⟩
    refine ⟨?_, ?_, ?_⟩
    · rintro data rfl
      refine ⟨hunmoved, (fun request hrequest => nomatch hrequest), ?_⟩
      intro hlt hpos
      rcases h.cached.faithful.get_eq_some hfound.symm with ⟨hpiece, hcount, hnonempty⟩
      have hplaced := hholds hlt
      exact hplaced.serves_cached hpiece hcount
        (hnonempty (Nat.lt_min.mpr ⟨hpos, hplaced.limit_pos⟩))
    · rintro rfl hbehind
      refine ⟨hunmoved, fun hlt => ?_⟩
      have hplaced := hholds hlt
      have hmiss := h.cached.faithful.get_eq_none hfound.symm
      exact hmiss (h.cached.covers hsource hbehind hplaced.within hplaced.apart)
    · rintro rfl hinside
      let length := min (min (min count place.limit) (max maxRead 1))
        (place.source.storageLength - place.offset)
      have hcount : length ≤ min count place.limit :=
        Nat.le_trans (Nat.min_le_left _ _) (Nat.min_le_left _ _)
      refine ⟨hunmoved, ?_, ?_⟩
      · rintro request ⟨⟩
        exact h.request_valid hs hplace hsource hinside
          (Nat.le_trans hcount (Nat.min_le_right _ _)) (Nat.min_le_right _ _)
      · intro hlt hpos
        have hplaced := hholds hlt
        have hlimit := hplaced.limit_pos
        refine hplaced.serves_stored (h.consistent.id_eq hs) hsource hcount ?_
        show 0 < min (min (min count place.limit) (max maxRead 1)) _
        omega

theorem ensureReadable_ends {τ : Type} (c : Container τ) (id : SegmentId) (offset : Nat) :
    Ends (ensureReadable id offset) c
      (fun _ after => after = c ∧ ∀ s, c.table.get? id = some s → s.startOffset ≤ offset)
      (fun e after => after = c ∧ ∃ s, c.table.get? id = some s ∧ offset < s.startOffset ∧
        e = .truncated id offset s.startOffset) := by
  unfold ensureReadable
  refine Ends.get ?_
  cases hget : c.table.get? id with
  | none => exact Ends.pure ⟨rfl, fun _ hs => nomatch hs⟩
  | some s =>
      simp only
      by_cases hlt : offset < s.startOffset
      · rw [if_pos hlt]
        exact Ends.throw ⟨rfl, s, rfl, hlt, rfl⟩
      · rw [if_neg hlt]
        refine Ends.pure ⟨rfl, ?_⟩
        intro t ht
        cases ht
        exact Nat.not_lt.mp hlt

theorem ends_lookupWoken {τ : Type} {c : Container τ} {offset count maxRead : Nat}
    {answered : Found → Container τ → Prop} {failed : Error → Container τ → Prop}
    (hgone : ∀ cause, c.table.require id = .error cause → failed (.refused cause) c)
    (hcut : ∀ s, c.table.get? id = some s → offset < s.startOffset →
      failed (.truncated id offset s.startOffset) c)
    (hlookup : ∀ s, c.table.get? id = some s → s.startOffset ≤ offset →
      Ends (lookup s offset count maxRead) c answered failed) :
    Ends (lookupWoken id offset count maxRead) c answered failed := by
  unfold lookupWoken
  refine Ends.get ?_
  cases hrequire : c.table.require id with
  | error cause => exact Ends.throw (hgone cause hrequire)
  | ok s =>
      have hs := Table.require_eq_ok_iff.mp hrequire
      simp only
      refine Ends.bind ((ensureReadable_ends c id offset).mono ?_ ?_)
      · rintro _ after ⟨rfl, hreadable⟩
        exact hlookup s hs (hreadable s hs)
      · rintro e after ⟨rfl, t, ht, hlt, rfl⟩
        exact hcut t ht hlt

theorem Sound.lookupWoken_ends (h : c.Sound content) (id : SegmentId)
    (offset count maxRead : Nat) :
    Ends (lookupWoken id offset count maxRead) c
      (fun found after => Unmoved content c after ∧ found.Valid c.table ∧
        (offset < (content id).length → 0 < count →
          ∃ s, c.table.get? id = some s ∧ found.Serves content c.table id s offset count))
      (fun _ after => Unmoved content c after) := by
  refine ends_lookupWoken (fun _ _ => .refl h) (fun _ _ _ => .refl h) fun s hs _ => ?_
  refine (h.lookup_ends hs offset count maxRead).mono ?_ ?_
  · rintro found after ⟨hunmoved, hvalid, hserves⟩
    refine ⟨hunmoved, hvalid, fun hlt hpos => ⟨s, hs, hserves ?_ hpos⟩⟩
    rw [(h.consistent.segment hs).length_eq]
    exact hlt
  · intro _ after hafter
    exact hafter.1

/-!
## Fetches
-/

theorem Sound.readSource_ends (h : c.Sound content) {request : FetchRequest}
    (hvalid : request.Valid c.table) :
    Ends (readSource request) c.tier
      (fun data tier => FlakyTier.Same c.tier tier ∧
        ∀ s, c.table.get? request.source = some s →
          data = Bytes.slice (content request.source) request.sourceOffset request.length)
      (fun _ tier => FlakyTier.Same c.tier tier ∧
        ∀ s, c.table.get? request.source = some s → c.tier.failReads = true) := by
  cases hsource : c.table.get? request.source with
  | none =>
      refine (FlakyTier.readSource_same c.tier request).mono ?_ ?_
      · intro _ _ hread
        exact ⟨hread.1, fun _ hs => nomatch hs⟩
      · intro _ _ hsame
        exact ⟨hsame, fun _ hs => nomatch hs⟩
  | some s =>
      rcases hvalid.stored s hsource with ⟨hname, hlt, hstop⟩
      have hreaches := h.stored.reaches hsource
      have hprefix := h.stored.starts hsource
      rcases FlakyTier.exists_object?_of_lt (Nat.lt_of_lt_of_le hlt hreaches) with
        ⟨bytes, hobject⟩
      rw [FlakyTier.bytes_of_object? hobject] at hreaches hprefix
      have hrange := Nat.le_trans hstop hreaches
      rw [hname] at hobject
      refine (FlakyTier.readSource_ends hobject hrange).mono ?_ ?_
      · intro data tier hdata
        refine ⟨hdata.1, fun _ _ => ?_⟩
        rw [hdata.2]
        exact Bytes.slice_of_prefix hprefix hrange
      · intro _ tier hfail
        exact ⟨hfail.1, fun _ _ => hfail.2⟩

theorem ends_fetch {τ : Type} [Tier τ] {c : Container τ} {request : FetchRequest}
    {answered : Bytes → Container τ → Prop} {failed : Error → Container τ → Prop}
    (h : Ends (readSource request) c.tier
      (fun data tier =>
        (∀ t, c.table.get? request.segment = some t → request.offset < t.startOffset →
          failed (.truncated request.segment request.offset t.startOffset) { c with tier }) ∧
        ((∀ t, c.table.get? request.segment = some t → t.startOffset ≤ request.offset) →
          (c.table.get? request.source = none → answered data { c with tier }) ∧
          ∀ s, c.table.get? request.source = some s →
            answered data (put request.source request.sourceOffset data { c with tier })))
      (fun cause tier => failed (.storage cause) { c with tier })) :
    Ends (fetch request) c answered failed := by
  unfold fetch
  refine Ends.bind (onTier_ends (h.mono ?_ fun _ _ hfailed => hfailed))
  rintro data tier ⟨hcut, hreadable⟩
  refine Ends.bind ((ensureReadable_ends _ request.segment request.offset).mono ?_ ?_)
  · rintro _ after ⟨rfl, hbehind⟩
    rcases hreadable hbehind with ⟨hgone, hleft⟩
    refine Ends.get ?_
    cases hsource : c.table.get? request.source with
    | none =>
        simp only [Option.isSome_none, Bool.false_eq_true, if_false]
        exact Ends.pure (hgone hsource)
    | some s =>
        simp only [Option.isSome_some, if_true]
        exact Ends.modifying (Ends.pure (hleft s hsource))
  · rintro e after ⟨rfl, t, ht, hlt, rfl⟩
    exact hcut t ht hlt

theorem Sound.fetch_ends (h : c.Sound content) {request : FetchRequest}
    (hvalid : request.Valid c.table) :
    Ends (fetch request) c
      (fun data after => Unmoved content c after ∧
        ∀ s, c.table.get? request.source = some s →
          data = Bytes.slice (content request.source) request.sourceOffset request.length)
      (fun _ after => Unmoved content c after ∧
        ∀ s, c.table.get? request.source = some s → c.tier.failReads = true ∨
          ∃ t, c.table.get? request.segment = some t ∧ request.offset < t.startOffset) := by
  refine ends_fetch ((h.readSource_ends hvalid).mono ?_ ?_)
  · rintro data tier ⟨hsame, hpiece⟩
    have hread := h.with_tier (h.stored.of_same hsame.object?_eq)
    refine ⟨?_, fun _ => ⟨?_, ?_⟩⟩
    · intro t ht hlt
      exact ⟨⟨hread, rfl, hsame⟩, fun _ _ => Or.inr ⟨t, ht, hlt⟩⟩
    · intro hgone
      refine ⟨⟨hread, rfl, hsame⟩, fun s hs => ?_⟩
      rw [hgone] at hs
      cases hs
    · intro s hs
      refine ⟨⟨hread.put ?_, rfl, hsame⟩, hpiece⟩
      have hreaches := h.stored.reaches hs
      have hlength := (h.stored.starts hs).length_le
      have hstop := (hvalid.stored s hs).2.2
      rw [hpiece s hs, Bytes.length_slice_of_le (by omega)]
  · intro _ tier hfail
    exact ⟨⟨h.with_tier (h.stored.of_same hfail.1.object?_eq), rfl, hfail.1⟩,
      fun s hs => Or.inl (hfail.2 s hs)⟩

end Container
end TieredStore
