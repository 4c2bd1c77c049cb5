import TieredStore.Proofs.Container.Requesting

/-!
# Bytes that are withheld

Nobody is given bytes below the first readable offset of a segment, though the cache and
the tier may still have them.  Whoever was woken is refused when he looks for the bytes, and a
read of the tier is refused when it has been carried out.  Only one thing can stop it before:
the batch whose object it names has been joined to the segment, and another segment has got
the name of the batch and not as many bytes.
-/

namespace TieredStore

variable {content : Contents} {table : Table} {tier : FlakyTier} {request : FetchRequest}
  {id : SegmentId} {offset : Nat} {t : Segment}

/-- The source is gone, and another segment with its name has too short an object. -/
inductive FetchRequest.Misled (table : Table) (tier : FlakyTier) (request : FetchRequest) :
    MediumError → Prop
  | short {other : SegmentId} {r : Segment} (hgone : table.get? request.source = none)
      (hr : table.get? other = some r) (hname : r.name = request.sourceName)
      (hshort : (tier.bytes r.name).length < request.sourceOffset + request.length) :
      Misled table tier request
        (.readPastEnd request.sourceOffset request.length (tier.bytes r.name).length)

/-- The request is for bytes of this segment that may not be read, or it is misled. -/
inductive FetchRequest.Withheld (table : Table) (tier : FlakyTier) (request : FetchRequest)
    (t : Segment) : Error → Prop
  | truncated : Withheld table tier request t
      (.truncated request.segment request.offset t.startOffset)
  | misled {cause : MediumError} (hmisled : request.Misled table tier cause) :
      Withheld table tier request t (.storage cause)

theorem FetchRequest.Withheld.of_same {other : FlakyTier} {e : Error}
    (h : request.Withheld table other t e) (hsame : FlakyTier.Same tier other) :
    request.Withheld table tier t e := by
  cases h with
  | truncated => exact .truncated
  | misled hmisled =>
      cases hmisled with
      | @short _ r hgone hr hname hshort =>
          have htouched : tier.Touched r.name other := Or.inl hsame.object?_eq
          have hbytes := htouched.bytes_eq r.name
          rw [hbytes] at hshort ⊢
          exact .misled (.short hgone hr hname hshort)

namespace Container

variable {c : Container FlakyTier}

theorem Sound.readSource_left (h : c.Sound content) (hreads : c.tier.failReads = false)
    (hvalid : request.Valid c.table) (ht : c.table.get? request.segment = some t) :
    Ends (readSource request) c.tier (fun _ tier => FlakyTier.Same c.tier tier ∧ True)
      (fun e tier => FlakyTier.Same c.tier tier ∧ request.Misled c.table c.tier e) := by
  cases hsource : c.table.get? request.source with
  | some s =>
      rcases hvalid.stored s hsource with ⟨hname, hstores⟩
      rcases h.read_stored hsource (.refl _) hreads hstores with ⟨-, after, hrun, hsame⟩
      rw [hname] at hrun
      exact Ends.of_ok (FlakyTier.readSource_of_ok hrun) ⟨hsame, trivial⟩
  | none =>
      cases hvalid.aims t ht with
      | own hown =>
          rw [hown, ht] at hsource
          cases hsource
      | @merged m hm hbatch hfallback hlt hstop =>
          cases hobject : c.tier.object? request.sourceName with
          | none =>
              -- the request turns to the parent, which has taken the batch's place
              have hstored : m.stop ≤ t.storageLength := by
                refine hm.resolve_left fun hpending => ?_
                rcases h.consistent.backed ht m hpending with ⟨b, hb, -⟩
                rw [← hbatch, hsource] at hb
                cases hb
              rcases FlakyTier.read_of_missing hreads hobject request.sourceOffset
                request.length with ⟨missed, hmissed, hsame⟩
              have hread := FlakyTier.readSource_of_missing hmissed
              rw [hfallback] at hread
              rcases h.read_stored ht hsame hreads
                ⟨Nat.lt_of_lt_of_le hlt hstored, Nat.le_trans hstop hstored⟩ with
                ⟨-, after, hrun, hafter⟩
              exact Ends.of_ok (hread.trans hrun) ⟨hafter, trivial⟩
          | some bytes =>
              by_cases hshort : bytes.length < request.sourceOffset + request.length
              · rcases FlakyTier.read_of_short hreads hobject hshort with ⟨after, hrun, hsame⟩
                rcases h.stored.owned hobject with ⟨other, r, hr, hname⟩
                have hbytes : c.tier.bytes r.name = bytes := by
                  rw [hname]
                  exact FlakyTier.bytes_of_object? hobject
                refine Ends.of_error (FlakyTier.readSource_of_error hrun nofun) ⟨hsame, ?_⟩
                rw [← hbytes] at hshort ⊢
                exact .short hsource hr hname hshort
              · rcases FlakyTier.read_of_object? hreads hobject (Nat.not_lt.mp hshort) with
                  ⟨after, hrun, hsame⟩
                exact Ends.of_ok (FlakyTier.readSource_of_ok hrun) ⟨hsame, trivial⟩

/-- A read of the tier gives no bytes that may not be read, and they are not cached. -/
theorem Sound.fetch_withheld (h : c.Sound content) (hreads : c.tier.failReads = false)
    (hvalid : request.Valid c.table) (ht : c.table.get? request.segment = some t)
    (hlt : request.offset < t.startOffset) :
    Ends (fetch request) c (fun _ _ => False)
      (fun e after => after.table = c.table ∧ after.cache = c.cache ∧
        FlakyTier.Same c.tier after.tier ∧ request.Withheld c.table c.tier t e) := by
  refine (fetch_of_read (h.readSource_left hreads hvalid ht)).mono ?_ ?_
  · rintro data after ⟨-, hfetched⟩
    exact absurd (hfetched.readable t ht) (Nat.not_le.mpr hlt)
  · rintro e after ⟨htable, hcache, hsame, ⟨cause, hmisled, rfl⟩ | ⟨s, hs, -, rfl⟩⟩
    · exact ⟨htable, hcache, hsame, .misled hmisled⟩
    · rw [ht] at hs
      cases hs
      exact ⟨htable, hcache, hsame, .truncated⟩

theorem Unmoved.fetch_withheld {reached : Container FlakyTier} (h : Unmoved content c reached)
    (hreads : c.tier.failReads = false) (hvalid : request.Valid c.table)
    (ht : c.table.get? request.segment = some t) (hlt : request.offset < t.startOffset) :
    ∃ e fetched, (fetch request).run reached = .error e fetched ∧ fetched.cache = reached.cache ∧
      request.Withheld c.table c.tier t e := by
  rw [← h.tier_same.failReads_eq] at hreads
  rw [← h.table_eq] at hvalid ht
  have hfetch := h.sound.fetch_withheld hreads hvalid ht hlt
  cases hrun : (fetch request).run reached with
  | ok data fetched => exact (hfetch.ok hrun).elim
  | error e fetched =>
      rcases hfetch.error hrun with ⟨-, hcache, -, hwithheld⟩
      rw [h.table_eq] at hwithheld
      exact ⟨e, fetched, rfl, hcache, hwithheld.of_same h.tier_same⟩

theorem lookupWoken_withheld (ht : c.table.get? id = some t) (hlt : offset < t.startOffset)
    (count maxRead : Nat) :
    (lookupWoken id offset count maxRead).run c =
      .error (.truncated id offset t.startOffset) c := by
  have hends : Ends (lookupWoken id offset count maxRead) c (fun _ _ => False)
      (fun e after => e = .truncated id offset t.startOffset ∧ after = c) := by
    refine ends_lookupWoken ?_ ?_ ?_
    · intro cause hgone
      rw [Table.require_eq_ok_iff.mpr ht] at hgone
      cases hgone
    · intro s hs _
      rw [ht] at hs
      cases hs
      exact ⟨rfl, rfl⟩
    · intro s hs hreadable
      rw [ht] at hs
      cases hs
      exact absurd hlt (Nat.not_lt.mpr hreadable)
  rcases hends.exists_error with ⟨e, after, hrun, rfl, rfl⟩
  exact hrun

end Container
end TieredStore
