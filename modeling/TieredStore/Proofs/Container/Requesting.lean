import TieredStore.Proofs.Container.Finding
import TieredStore.Proofs.Table.Developing
import TieredStore.Proofs.Tier.Reading

/-!
# Requests that are carried out later

A look-up that finds bytes in the tier makes a request, which names the object of the
segment or that of a batch that is pending there.  Until it is carried out the table may
develop, so that the batch can be gone.  Then nothing has its name, and the request goes to
the parent, where the same bytes are.  A request for a batch itself has no such place to
turn to and does not find the object.
-/

namespace TieredStore

/-- The tier is known to hold these bytes of the segment. -/
def Segment.Stores (s : Segment) (offset length : Nat) : Prop :=
  offset < s.storageLength ∧ offset + length ≤ s.storageLength

theorem Segment.Becomes.stores {s t : Segment} (h : s.Becomes t) {offset length : Nat}
    (hstores : s.Stores offset length) : t.Stores offset length :=
  ⟨Nat.lt_of_lt_of_le hstores.1 h.stored_le, Nat.le_trans hstores.2 h.stored_le⟩

/-- The request names an object that has the bytes: that of the segment or of a batch in it. -/
inductive FetchRequest.Placed (table : Table) (s : Segment) (request : FetchRequest) : Prop
  | own (hsource : request.source = s.id) (hname : request.sourceName = s.name)
      (hoffset : request.sourceOffset = request.offset) (hfallback : request.fallback = none)
      (hstores : s.Stores request.offset request.length)
  | merged {m : PendingMerge} {b : Segment} (hm : m ∈ s.pending)
      (hb : table.get? m.batch = some b) (hsource : request.source = m.batch)
      (hname : request.sourceName = b.name)
      (hoffset : m.offset + request.sourceOffset = request.offset)
      (hfallback : request.fallback = some (s.name, request.offset))
      (hstores : b.Stores request.sourceOffset request.length)

namespace Container

/-- The table of the container has developed from this one, whose batches have kept their names. -/
structure DevelopedFrom (content grown : Contents) (before : Table) (c : Container FlakyTier) :
    Prop where
  sound : c.Sound grown
  consistent : before.Consistent content
  wellFormed : before.WellFormed
  develops : before.Develops content grown c.table
  spares : before.SparesBatches c.table

variable {content grown : Contents} {before : Table}
  {c : Container FlakyTier} {id : SegmentId} {s : Segment} {request : FetchRequest}

theorem Sound.read_stored (h : c.Sound content) (hs : c.table.get? id = some s)
    {tier : FlakyTier} (htier : FlakyTier.Same c.tier tier) (hreads : c.tier.failReads = false)
    {offset length : Nat} (hstores : s.Stores offset length) :
    offset + length ≤ (content id).length ∧
      ∃ after, (Tier.read s.name offset length).run tier =
          .ok (Bytes.slice (content id) offset length) after ∧ FlakyTier.Same c.tier after := by
  have hreaches := h.stored.reaches hs
  have hstarts := h.stored.starts hs
  rcases hstores with ⟨hlt, hstop⟩
  rcases FlakyTier.exists_object?_of_lt (Nat.lt_of_lt_of_le hlt hreaches) with ⟨bytes, hobject⟩
  rw [FlakyTier.bytes_of_object? hobject] at hreaches hstarts
  have hend : offset + length ≤ bytes.length := Nat.le_trans hstop hreaches
  have hobject' : tier.object? s.name = some bytes := by
    rw [htier.object?_eq]
    exact hobject
  have hreads' : tier.failReads = false := htier.failReads_eq.trans hreads
  rcases FlakyTier.read_of_object? hreads' hobject' hend with ⟨after, hrun, hsame⟩
  refine ⟨Nat.le_trans hend hstarts.length_le, after, ?_, htier.trans hsame⟩
  rw [← Bytes.slice_of_prefix hstarts hend]
  exact hrun

/-! ## Look-ups -/

theorem extent_placed {table : Table} (htable : table.Consistent content) {offset length : Nat}
    {place : Extent} (hplace : extent table s offset = .ok place)
    (hstores : place.source.Stores place.offset length) :
    (place.request s offset length).Placed table s := by
  unfold extent at hplace
  cases hat : s.pendingAt? offset with
  | none =>
      rw [hat] at hplace
      cases hplace
      exact .own rfl rfl rfl rfl hstores
  | some m =>
      rw [hat] at hplace
      rcases bind_eq_ok_iff.mp hplace with ⟨b, hb, heq⟩
      cases heq
      have hm : m ∈ s.pending := List.mem_of_find?_eq_some hat
      have hfind : s.pending.find? (·.covers offset) = some m := hat
      have hcovers := List.find?_some hfind
      simp only [PendingMerge.covers, Bool.and_eq_true, decide_eq_true_eq] at hcovers
      have hbatch := Table.require_eq_ok_iff.mp hb
      refine .merged hm hbatch (htable.id_eq hbatch) rfl ?_ rfl hstores
      show m.offset + (offset - m.offset) = offset
      exact Nat.add_sub_of_le hcovers.1

theorem lookup_placed (htable : c.table.Consistent content) (s : Segment)
    (offset count maxRead : Nat) : Ends (lookup s offset count maxRead) c
      (fun found _ => ∀ request, found = .stored request →
        request.segment = s.id ∧ request.offset = offset ∧ request.Placed c.table s)
      (fun _ _ => True) := by
  refine ends_lookup (fun _ _ => trivial) fun place hplace => ?_
  refine (cached_ends c _ _ _).mono ?_ fun _ _ hfalse => hfalse.elim
  intro _ _ _
  refine ⟨fun _ _ => nofun, fun _ _ => trivial, fun _ hinside => ?_⟩
  rintro request ⟨⟩
  refine ⟨rfl, rfl, extent_placed htable hplace ⟨hinside, ?_⟩⟩
  -- no more is asked for than the tier holds
  omega

/-! ## Reading what was asked for -/

/-- The object of a batch that its parent has absorbed is gone. -/
theorem DevelopedFrom.object?_of_absorbed (h : c.DevelopedFrom content grown before)
    (hs : before.get? id = some s) {p : SegmentId} (hparent : s.parent = some p)
    (hgone : c.table.get? id = none) : c.tier.object? s.name = none := by
  cases hobject : c.tier.object? s.name with
  | none => rfl
  | some bytes =>
      rcases h.sound.stored.owned hobject with ⟨other, t, ht, hname⟩
      have hother := h.develops.id_of_name h.wellFormed h.sound.consistent h.spares hs hparent ht
        hname
      rw [hother, hgone] at ht
      cases ht

theorem DevelopedFrom.unmoved (h : c.DevelopedFrom content grown before)
    {after : Container FlakyTier} (hafter : c.Unmoved grown after) :
    after.DevelopedFrom content grown before where
  sound := hafter.sound
  consistent := h.consistent
  wellFormed := h.wellFormed
  develops := by
    rw [hafter.table_eq]
    exact h.develops
  spares := by
    rw [hafter.table_eq]
    exact h.spares

section Reading

variable (h : c.DevelopedFrom content grown before) (hreads : c.tier.failReads = false)
  (hs : before.get? id = some s)

include h

/-- Bytes that the tier was known to hold have not changed. -/
theorem DevelopedFrom.slice_eq (hs : before.get? id = some s) {offset length : Nat}
    (hstores : s.Stores offset length) :
    offset + length ≤ (content id).length ∧
      Bytes.slice (grown id) offset length = Bytes.slice (content id) offset length := by
  have hsegment := h.consistent.segment hs
  have hstop : offset + length ≤ (content id).length := by
    rw [← hsegment.length_eq]
    exact Nat.le_trans hstores.2 (Nat.le_trans hsegment.stored_le hsegment.limit_le_length)
  exact ⟨hstop, (Bytes.slice_of_prefix (h.develops.grows id) hstop).symm⟩

theorem DevelopedFrom.root_of_pending (hs : before.get? id = some s) {m : PendingMerge}
    (hm : m ∈ s.pending) : s.parent = none := by
  cases hparent : s.parent with
  | none => rfl
  | some p =>
      rw [h.consistent.pending_of_parent hs hparent] at hm
      cases hm

theorem DevelopedFrom.merged_inside (hs : before.get? id = some s) {m : PendingMerge} {b : Segment}
    (hm : m ∈ s.pending) (hb : before.get? m.batch = some b) {offset length : Nat}
    (hstores : b.Stores offset length) :
    m.offset + offset < m.stop ∧ m.offset + offset + length ≤ m.stop ∧
      Bytes.slice (content m.batch) offset length =
        Bytes.slice (content id) (m.offset + offset) length := by
  rcases h.consistent.backed hs m hm with ⟨b', hb', -, -, hlength, hslice⟩
  rw [hb] at hb'
  cases hb'
  have hsegment := h.consistent.segment hb
  have hstored : b.storageLength ≤ m.length := by
    rw [← hlength]
    exact Nat.le_trans hsegment.stored_le hsegment.limit_le_length
  rcases hstores with ⟨hlt, hstop⟩
  refine ⟨?_, ?_, ?_⟩
  · exact Nat.add_lt_add_left (Nat.lt_of_lt_of_le hlt hstored) m.offset
  · rw [Nat.add_assoc]
    exact Nat.add_le_add_left (Nat.le_trans hstop hstored) m.offset
  · rw [← hslice, Bytes.slice_slice (Nat.le_trans hstop hstored)]

include hreads hs

theorem DevelopedFrom.read_left {t : Segment} (ht : c.table.get? id = some t)
    (hbecomes : s.Becomes t) {tier : FlakyTier} (htier : FlakyTier.Same c.tier tier)
    {offset length : Nat} (hstores : s.Stores offset length) :
    ∃ after, (Tier.read s.name offset length).run tier =
        .ok (Bytes.slice (content id) offset length) after ∧ FlakyTier.Same c.tier after := by
  have hread := h.sound.read_stored ht htier hreads (hbecomes.stores hstores)
  rw [hbecomes.name_eq, (h.slice_eq hs hstores).2] at hread
  exact hread.2

/-- A request for a segment itself is answered unless its parent has absorbed it. -/
theorem DevelopedFrom.readSource_own (hname : request.sourceName = s.name)
    (hoffset : request.sourceOffset = request.offset) (hfallback : request.fallback = none)
    (hstores : s.Stores request.offset request.length) :
    Ends (readSource request) c.tier
      (fun data tier => FlakyTier.Same c.tier tier ∧
        data = Bytes.slice (content id) request.offset request.length ∧
        ∃ t, c.table.get? id = some t)
      (fun e tier => FlakyTier.Same c.tier tier ∧ e = .notFound s.name ∧
        ∃ p, s.parent = some p ∧ c.table.Absorbed grown id p) := by
  rcases h.develops.left_or_absorbed hs with ⟨t, ht, hbecomes⟩ | ⟨p, hparent, habsorbed⟩
  · rcases h.read_left hreads hs ht hbecomes (.refl _) hstores with ⟨after, hrun, hsame⟩
    rw [← hname, ← hoffset] at hrun
    exact Ends.of_ok (FlakyTier.readSource_of_ok hrun) ⟨hsame, by rw [hoffset], t, ht⟩
  · have hobject := h.object?_of_absorbed hs hparent habsorbed.1
    rw [← hname] at hobject
    rcases FlakyTier.read_of_missing hreads hobject request.sourceOffset request.length with
      ⟨after, hrun, hsame⟩
    have hread := FlakyTier.readSource_of_missing hrun
    rw [hfallback] at hread
    exact Ends.of_error hread ⟨hsame, by rw [hname], p, hparent, habsorbed⟩

theorem DevelopedFrom.read_finished {m : PendingMerge} (hm : m ∈ s.pending)
    (hgone : c.table.get? m.batch = none) {tier : FlakyTier} (htier : FlakyTier.Same c.tier tier)
    {offset length : Nat} (hlt : offset < m.stop) (hstop : offset + length ≤ m.stop) :
    ∃ after, (Tier.read s.name offset length).run tier =
        .ok (Bytes.slice (content id) offset length) after ∧ FlakyTier.Same c.tier after := by
  rcases h.develops.root hs (h.root_of_pending hs hm) with ⟨t, ht, hbecomes, hmerges⟩
  rcases hmerges m hm with hpending | ⟨hstored, -⟩
  · -- a merge that is still pending would have its batch
    rcases h.sound.consistent.backed ht m hpending with ⟨b, hb, -⟩
    rw [hgone] at hb
    cases hb
  · have hstores : t.Stores offset length :=
      ⟨Nat.lt_of_lt_of_le hlt hstored, Nat.le_trans hstop hstored⟩
    rcases h.sound.read_stored ht htier hreads hstores with ⟨-, after, hrun, hsame⟩
    have hlength : offset + length ≤ (content id).length := by
      rw [← (h.consistent.segment hs).length_eq]
      exact Nat.le_trans hstop ((h.consistent.segment hs).stop_le m hm)
    rw [hbecomes.name_eq, ← Bytes.slice_of_prefix (h.develops.grows id) hlength] at hrun
    exact ⟨after, hrun, hsame⟩

/-- A request for a batch that was pending in a segment is answered out of the one or the other. -/
theorem DevelopedFrom.readSource_merged {m : PendingMerge} {b : Segment} (hm : m ∈ s.pending)
    (hb : before.get? m.batch = some b) (hname : request.sourceName = b.name)
    (hoffset : m.offset + request.sourceOffset = request.offset)
    (hfallback : request.fallback = some (s.name, request.offset))
    (hstores : b.Stores request.sourceOffset request.length) :
    ∃ after, (readSource request).run c.tier =
        .ok (Bytes.slice (content id) request.offset request.length) after ∧
      FlakyTier.Same c.tier after := by
  rcases h.merged_inside hs hm hb hstores with ⟨hlt, hstop, hsame⟩
  rcases h.consistent.backed hs m hm with ⟨b', hb', hparent, -⟩
  rw [hb] at hb'
  cases hb'
  rcases h.develops.batch hb hparent with ⟨t, ht, hbecomes⟩ | ⟨hgone, -⟩
  · rcases h.read_left hreads hb ht hbecomes (.refl _) hstores with ⟨after, hrun, htier⟩
    rw [← hname, hsame, hoffset] at hrun
    exact ⟨after, FlakyTier.readSource_of_ok hrun, htier⟩
  · -- nothing has the name of the batch any more, and the parent has taken its place
    have hobject := h.object?_of_absorbed hb hparent hgone
    rw [← hname] at hobject
    rcases FlakyTier.read_of_missing hreads hobject request.sourceOffset request.length with
      ⟨missed, hrun, htier⟩
    have hread := FlakyTier.readSource_of_missing hrun
    rw [hfallback] at hread
    rw [hoffset] at hlt hstop
    rcases h.read_finished hreads hs hm hgone htier hlt hstop with ⟨after, hrun', hsame'⟩
    exact ⟨after, hread.trans hrun', hsame'⟩

end Reading

/-! ## Carrying out what was asked for -/

structure Fetched (c : Container FlakyTier) (request : FetchRequest) (data : Bytes)
    (after : Container FlakyTier) : Prop where
  readable : ∀ t, c.table.get? request.segment = some t → t.startOffset ≤ request.offset
  table_eq : after.table = c.table
  tier_same : FlakyTier.Same c.tier after.tier
  cache : after.cache = c.cache ∨
    (∃ source, c.table.get? request.source = some source) ∧
      after.cache = c.cache.put request.source request.sourceOffset data

theorem fetch_of_read {answered : Bytes → Prop} {failed : MediumError → Prop}
    (hread : Ends (readSource request) c.tier
      (fun data tier => FlakyTier.Same c.tier tier ∧ answered data)
      (fun e tier => FlakyTier.Same c.tier tier ∧ failed e)) :
    Ends (fetch request) c (fun data after => answered data ∧ Fetched c request data after)
      (fun e after => after.table = c.table ∧ after.cache = c.cache ∧
        FlakyTier.Same c.tier after.tier ∧
        ((∃ cause, failed cause ∧ e = .storage cause) ∨
          ∃ t, c.table.get? request.segment = some t ∧ request.offset < t.startOffset ∧
            e = .truncated request.segment request.offset t.startOffset)) := by
  refine ends_fetch (hread.mono ?_ ?_)
  · rintro data tier ⟨htier, hdata⟩
    refine ⟨?_, fun hreadable => ⟨?_, ?_⟩⟩
    · intro t ht hlt
      exact ⟨rfl, rfl, htier, Or.inr ⟨t, ht, hlt, rfl⟩⟩
    · intro _
      exact ⟨hdata, hreadable, rfl, htier, Or.inl rfl⟩
    · intro s hs
      exact ⟨hdata, hreadable, rfl, htier, Or.inr ⟨⟨s, hs⟩, rfl⟩⟩
  · rintro cause tier ⟨htier, hfailed⟩
    exact ⟨rfl, rfl, htier, Or.inl ⟨cause, hfailed, rfl⟩⟩

/-! ### The same fetch in another container -/

section Twins

variable {other : Container FlakyTier}

theorem onTier_twins {α : Type} {call : TierM FlakyTier α}
    {answered : α → Container FlakyTier → α → Container FlakyTier → Prop}
    {failed : Error → Container FlakyTier → Error → Container FlakyTier → Prop}
    (h : Twins call call c.tier other.tier
      (fun a tier a' last => answered a { c with tier } a' { other with tier := last })
      (fun e tier e' last =>
        failed (.storage e) { c with tier } (.storage e') { other with tier := last })) :
    Twins (onTier call) (onTier call) c other answered failed := by
  unfold Twins EStateM.run onTier
  exact Twins.elim (call.run c.tier) (call.run other.tier) rfl rfl h

theorem ensureReadable_twins (c other : Container FlakyTier) (htable : other.table = c.table)
    (id : SegmentId) (offset : Nat) :
    Twins (ensureReadable id offset) (ensureReadable id offset) c other
      (fun _ after _ last => after = c ∧ last = other)
      (fun e after e' last => e = e' ∧ after = c ∧ last = other) := by
  unfold ensureReadable
  refine Twins.get ?_
  rw [htable]
  split
  · split
    · exact Twins.throw ⟨rfl, rfl, rfl⟩
    · exact Twins.pure ⟨rfl, rfl⟩
  · exact Twins.pure ⟨rfl, rfl⟩

theorem fetch_twins (htable : other.table = c.table) (htier : FlakyTier.Same c.tier other.tier)
    (request : FetchRequest) :
    Twins (fetch request) (fetch request) c other
      (fun data after data' last => data = data' ∧ last.table = after.table ∧
        FlakyTier.Same after.tier last.tier)
      (fun e after e' last => e = e' ∧ last.table = after.table ∧
        FlakyTier.Same after.tier last.tier) := by
  unfold fetch
  refine Twins.bind (onTier_twins ((FlakyTier.readSource_twins htier request).mono ?_ ?_))
  · rintro data tier _ last ⟨rfl, hsame⟩
    refine Twins.bind ((ensureReadable_twins { c with tier } { other with tier := last } htable
      request.segment request.offset).mono ?_ ?_)
    · rintro _ _ _ _ ⟨rfl, rfl⟩
      refine Twins.get ?_
      simp only [htable]
      split
      · exact Twins.modifying (Twins.pure ⟨rfl, rfl, hsame⟩)
      · exact Twins.pure ⟨rfl, rfl, hsame⟩
    · rintro e _ _ _ ⟨rfl, rfl, rfl⟩
      exact ⟨rfl, htable, hsame⟩
  · rintro cause tier _ last ⟨rfl, hsame⟩
    exact ⟨rfl, htable, hsame⟩

end Twins

theorem fetch_gives (c : Container FlakyTier) (request : FetchRequest) :
    Ends (fetch request) c
      (fun data after => c.tier.Gives request data ∧ FlakyTier.Same c.tier after.tier)
      (fun _ after => FlakyTier.Same c.tier after.tier) := by
  have hread : Ends (readSource request) c.tier
      (fun data tier => FlakyTier.Same c.tier tier ∧ c.tier.Gives request data)
      (fun _ tier => FlakyTier.Same c.tier tier ∧ True) := by
    have hsame := FlakyTier.readSource_same c.tier request
    cases hrun : (readSource request).run c.tier with
    | ok data tier => exact Ends.of_ok hrun ⟨(hsame.ok hrun).1, tier, hrun⟩
    | error cause tier => exact Ends.of_error hrun ⟨hsame.error hrun, trivial⟩
  refine (fetch_of_read hread).mono ?_ ?_
  · rintro data after ⟨hgives, hfetched⟩
    exact ⟨hgives, hfetched.tier_same⟩
  · rintro e after ⟨-, -, hsame, -⟩
    exact hsame

theorem DevelopedFrom.source_eq (h : c.DevelopedFrom content grown before)
    (hs : before.get? id = some s) (hsegment : s.id = id) (hplaced : request.Placed before s) :
    request.offset + request.length ≤ (content id).length ∧
      Bytes.slice (grown request.source) request.sourceOffset request.length =
        Bytes.slice (content id) request.offset request.length := by
  cases hplaced with
  | own hsource _ hoffset _ hstores =>
      rcases h.slice_eq hs hstores with ⟨hstop, heq⟩
      refine ⟨hstop, ?_⟩
      rw [hsource, hsegment, hoffset]
      exact heq
  | merged hm hb hsource _ hoffset _ hstores =>
      rcases h.merged_inside hs hm hb hstores with ⟨-, hstop, hsame⟩
      rw [hoffset] at hstop hsame
      have hlength := (h.consistent.segment hs).stop_le _ hm
      rw [(h.consistent.segment hs).length_eq] at hlength
      refine ⟨Nat.le_trans hstop hlength, ?_⟩
      rw [hsource, (h.slice_eq hb hstores).2]
      exact hsame

/--
A request that is carried out later gives the bytes that were asked for, unless they may not
be read any more or the segment was a batch and has been absorbed since.  Only bytes of the
request's source are cached.
-/
theorem DevelopedFrom.fetch_placed (h : c.DevelopedFrom content grown before)
    (hreads : c.tier.failReads = false) (hs : before.get? id = some s)
    (hsegment : request.segment = id) (hplaced : request.Placed before s) :
    Ends (fetch request) c
      (fun data after => data = Bytes.slice (content id) request.offset request.length ∧
        (∃ t, c.table.get? id = some t ∧ t.startOffset ≤ request.offset) ∧
        Fetched c request data after ∧
        Bytes.slice (grown request.source) request.sourceOffset data.length = data)
      (fun e after => after.table = c.table ∧ after.cache = c.cache ∧
        FlakyTier.Same c.tier after.tier ∧
        ((∃ t, c.table.get? id = some t ∧ request.offset < t.startOffset ∧
            e = .truncated id request.offset t.startOffset) ∨
          ∃ p, s.parent = some p ∧ c.table.Absorbed grown id p ∧
            e = .storage (.notFound s.name))) := by
  rcases h.source_eq hs (h.consistent.id_eq hs) hplaced with ⟨hstop, hsource⟩
  have hread : Ends (readSource request) c.tier
      (fun data tier => FlakyTier.Same c.tier tier ∧
        data = Bytes.slice (content id) request.offset request.length ∧
        ∃ t, c.table.get? id = some t)
      (fun e tier => FlakyTier.Same c.tier tier ∧ e = .notFound s.name ∧
        ∃ p, s.parent = some p ∧ c.table.Absorbed grown id p) := by
    cases hplaced with
    | own _ hname hoffset hfallback hstores =>
        exact h.readSource_own hreads hs hname hoffset hfallback hstores
    | merged hm hb _ hname hoffset hfallback hstores =>
        rcases h.readSource_merged hreads hs hm hb hname hoffset hfallback hstores with
          ⟨after, hrun, htier⟩
        rcases h.develops.root hs (h.root_of_pending hs hm) with ⟨t, ht, -⟩
        exact Ends.of_ok hrun ⟨htier, rfl, t, ht⟩
  refine (fetch_of_read hread).mono ?_ ?_
  · rintro data after ⟨⟨rfl, t, ht⟩, hfetched⟩
    refine ⟨rfl, ⟨t, ht, hfetched.readable t (by rw [hsegment]; exact ht)⟩, hfetched, ?_⟩
    rw [Bytes.length_slice_of_le hstop]
    exact hsource
  · rintro e after ⟨htable, hcache, htier, ⟨cause, ⟨rfl, p, hparent, habsorbed⟩, rfl⟩ | hrefused⟩
    · exact ⟨htable, hcache, htier, Or.inr ⟨p, hparent, habsorbed, rfl⟩⟩
    · rw [hsegment] at hrefused
      exact ⟨htable, hcache, htier, Or.inl hrefused⟩

end Container
end TieredStore
