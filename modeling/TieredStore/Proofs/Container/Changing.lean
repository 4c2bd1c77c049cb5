import TieredStore.Proofs.Container.Sound

/-!
# Logged changes of a container

An operation that has been logged is applied to the table, and bytes that it
brings are put into the cache first.  If the operation was accepted, the container
then is tracked for the contents after the operation and for the replayed table
after it.
-/

namespace TieredStore

def Cache.filledBy (cache : Cache) : Operation → Cache
  | .append segment offset _ _ data => cache.put segment offset data
  | _ => cache

@[simp] theorem Cache.mark_filledBy (cache : Cache) (op : Operation) (id : SegmentId) :
    (cache.filledBy op).mark id = cache.mark id := by
  cases op with
  | append segment offset client event data => exact Cache.mark_put
  | _ => rfl

/-!
## Cached bytes
-/

namespace Table.CachedIn

variable {table : Table} {content : Contents} {cache : Cache}

theorem perform_append (h : table.CachedIn content cache) (hconsistent : table.Consistent content)
    {segment : SegmentId} {offset event : Nat} {client : ClientId} {data : Bytes}
    (hfits : (Operation.append segment offset client event data).Fits table) :
    (table.perform (.append segment offset client event data)).CachedIn
      (content.after (.append segment offset client event data))
      (cache.put segment offset data) := by
  rcases hfits with ⟨s, hs, -, hoffset, -⟩
  have hlength := (hconsistent.segment hs).length_eq
  have hfaithful := h.faithful.grow fun id =>
    content.prefix_after (.append segment offset client event data) id
  have hdata : Bytes.slice (content.after (.append segment offset client event data) segment)
      offset data.length = data := by
    show Bytes.slice (content.append segment data segment) offset data.length = data
    rw [Contents.append_self, hoffset, hlength]
    exact Bytes.slice_append_right _ _
  refine h.modify hs (hfaithful.put hdata) (fun _ => Cache.mark_put) ?_ (Nat.le_refl _) ?_
  · intro id o hmark hcovers
    exact hfaithful.covers_put hmark (Or.inl hcovers)
  · intro o hle hlt hnone
    refine hfaithful.covers_put (Nat.le_trans (h.mark_le hs) hle) ?_
    by_cases hold : o < s.length
    · exact Or.inl (h.covers hs hle hold hnone)
    · refine Or.inr ⟨rfl, ?_, ?_⟩
      · rw [hoffset]
        exact Nat.not_lt.mp hold
      · rw [hoffset]
        exact hlt

/-- The range of a new pending merge need not be cached under the parent. -/
theorem perform_merge (h : table.CachedIn content cache) (hconsistent : table.Consistent content)
    {parent batch : SegmentId} {length offset : Nat}
    (hfits : (Operation.merge parent batch length offset).Fits table) :
    (table.perform (.merge parent batch length offset)).CachedIn
      (content.after (.merge parent batch length offset)) cache := by
  rcases hfits with ⟨s, b, hs, hb, -, -, hbparent, -, -, hoffset, -⟩
  rw [hconsistent.id_eq hs] at hbparent
  have hne : parent ≠ batch := hconsistent.parent_ne hb hbparent
  let marked := table.modify batch ({ · with merged := true })
  have hs' : marked.get? parent = some s := by
    rw [get?_modify_of_ne table hne]
    exact hs
  have hmarked : marked.CachedIn content cache := h.modify_same_bytes hb rfl rfl rfl
  have hfaithful := h.faithful.grow fun id =>
    content.prefix_after (.merge parent batch length offset) id
  refine hmarked.modify hs' hfaithful (fun _ => rfl) (fun _ hcovers => hcovers) (Nat.le_refl _) ?_
  intro o hle hlt hnone
  rw [Segment.pendingAt?_eq_none_iff] at hnone
  by_cases hold : o < s.length
  · refine hmarked.covers hs' hle hold ?_
    rw [Segment.pendingAt?_eq_none_iff]
    intro m hm
    exact hnone m (List.mem_append_left _ hm)
  · have hnew := hnone { batch, offset, length } (List.mem_append_right _ List.mem_cons_self)
    refine absurd ⟨?_, ?_⟩ hnew
    · show offset ≤ o
      rw [hoffset]
      exact Nat.not_lt.mp hold
    · show o < offset + length
      rw [hoffset]
      exact hlt

theorem perform (h : table.CachedIn content cache) (hconsistent : table.Consistent content)
    {op : Operation} (hop : op.Regular content table) (hcheckpoint : op.isCheckpoint = false) :
    (table.perform op).CachedIn (content.after op) (cache.filledBy op) := by
  cases op with
  | append segment offset client event data => exact h.perform_append hconsistent hop.fits
  | «seal» segment length =>
      rcases hop.fits with ⟨s, hs, -⟩
      exact h.modify_same_bytes hs rfl rfl rfl
  | merge parent batch length offset => exact h.perform_merge hconsistent hop.fits
  | checkpoint snapshot => cases hcheckpoint
  | create segment name => exact h.add (hop.fresh segment rfl) rfl
  | createBatch batch name parent => exact h.add (hop.fresh batch rfl) rfl
  | truncate segment offset =>
      rcases hop.fits with ⟨s, hs, -⟩
      exact h.modify_same_bytes hs rfl rfl rfl

end Table.CachedIn

/-!
## Objects
-/

section Objects

variable {broken : Prop} {table : Table} {content : Contents} {tier : FlakyTier}

theorem Table.StoredIn.perform (h : table.StoredIn content tier)
    (hconsistent : table.Consistent content) {op : Operation} (hop : op.Regular content table)
    (hfree : op.NameFree table) (hcheckpoint : op.isCheckpoint = false) :
    (table.perform op).StoredIn (content.after op) tier := by
  have hgrow : ∀ id, content id <+: content.after op id := fun id => content.prefix_after op id
  cases op with
  | append segment offset client event data =>
      rcases hop.fits with ⟨s, hs, -⟩
      exact h.modify_same_storage hs rfl rfl hgrow
  | «seal» segment length =>
      rcases hop.fits with ⟨s, hs, -⟩
      exact h.modify_same_storage hs rfl rfl hgrow
  | merge parent batch length offset =>
      rcases hop.fits with ⟨s, b, hs, hb, -, -, hbparent, -⟩
      rw [hconsistent.id_eq hs] at hbparent
      have hmarked : (table.modify batch ({ · with merged := true })).StoredIn content tier :=
        h.modify_same_storage hb rfl rfl fun _ => List.prefix_rfl
      refine hmarked.modify_same_storage (s := s) ?_ rfl rfl hgrow
      rw [get?_modify_of_ne table (hconsistent.parent_ne hb hbparent)]
      exact hs
  | checkpoint snapshot => cases hcheckpoint
  | create segment name =>
      exact h.add hconsistent (hop.fresh segment rfl) ((Operation.nameFree_iff rfl).mp hfree) rfl
  | createBatch batch name parent =>
      exact h.add hconsistent (hop.fresh batch rfl) ((Operation.nameFree_iff rfl).mp hfree) rfl
  | truncate segment offset =>
      rcases hop.fits with ⟨s, hs, -⟩
      exact h.modify_same_storage hs rfl rfl hgrow

theorem Table.AlignedIn.perform (h : table.AlignedIn broken tier)
    (hstored : table.StoredIn content tier) (hconsistent : table.Consistent content)
    {op : Operation} (hop : op.Regular content table)
    (hfree : op.NameFree table) (hcheckpoint : op.isCheckpoint = false) :
    (table.perform op).AlignedIn broken tier := by
  cases op with
  | append segment offset client event data =>
      rcases hop.fits with ⟨s, hs, hwritable, -⟩
      refine EndsIn.modify h hconsistent hs rfl rfl (fun _ heq => heq) (fun _ hm => hm) ?_
      intro hmerged
      rw [hwritable.merged] at hmerged
      cases hmerged
  | «seal» segment length =>
      rcases hop.fits with ⟨s, hs, -⟩
      exact EndsIn.modify h hconsistent hs rfl rfl (fun _ heq => heq) (fun _ hm => hm) fun _ => rfl
  | merge parent batch length offset =>
      rcases hop.fits with ⟨s, b, hs, hb, hwritable, hbmerged, hbparent, -⟩
      rw [hconsistent.id_eq hs] at hbparent
      have hmarked : (table.modify batch ({ · with merged := true })).AlignedIn broken tier :=
        EndsIn.modify h hconsistent hb rfl rfl (fun _ heq => heq) (fun _ hm => hm) fun _ => rfl
      refine EndsIn.modify (s := s) hmarked (hconsistent.marked hb hbmerged) ?_ rfl rfl
        (fun _ heq => heq) ?_ ?_
      · rw [get?_modify_of_ne table (hconsistent.parent_ne hb hbparent)]
        exact hs
      · intro m hm
        show (s.pending ++ _).head? = some m
        rw [List.head?_append, hm]
        rfl
      · intro hmerged
        rw [hwritable.merged] at hmerged
        cases hmerged
  | checkpoint snapshot => cases hcheckpoint
  | create segment name =>
      exact EndsIn.add h (hconsistent.get?_created hop rfl)
        (hstored.bytes_eq_nil ((Operation.nameFree_iff rfl).mp hfree)) rfl
  | createBatch batch name parent =>
      exact EndsIn.add h (hconsistent.get?_created hop rfl)
        (hstored.bytes_eq_nil ((Operation.nameFree_iff rfl).mp hfree)) rfl
  | truncate segment offset =>
      rcases hop.fits with ⟨s, hs, -⟩
      exact EndsIn.modify h hconsistent hs rfl rfl (fun _ heq => heq) (fun _ hm => hm) fun _ => rfl

end Objects

namespace Container

open Store (applyLogged)

variable {broken : Prop} {content : Contents} {replayed : Table} {c : Container FlakyTier}
  {op : Operation}

def applied (c : Container FlakyTier) (op : Operation) : Container FlakyTier :=
  { c with table := c.table.perform op, cache := c.cache.filledBy op }

theorem Tracked.applied (h : c.Tracked broken content replayed) (hop : op.Regular content c.table)
    (hfree : op.NameFree c.table) (hcheckpoint : op.isCheckpoint = false) :
    (c.applied op).Tracked broken (content.after op) (replayed.perform op) where
  sound :=
    { consistent := h.sound.consistent.perform hop
      wellFormed := h.sound.wellFormed.perform hop hfree
      stored := h.sound.stored.perform h.sound.consistent hop hfree hcheckpoint
      cached := h.sound.cached.perform h.sound.consistent hop hcheckpoint }
  aligned := h.aligned.perform h.sound.stored h.sound.consistent hop hfree hcheckpoint
  accounted := h.accounted.perform h.sound.consistent hop hcheckpoint
  follows := h.follows.perform h.replayed h.sound.consistent hop
  replayed := h.replayed.perform (h.follows.regular h.replayed hop)

theorem Tracked.applyLogged (h : c.Tracked broken content replayed)
    (hop : op.Regular content c.table) (hfree : op.NameFree c.table)
    (hcheckpoint : op.isCheckpoint = false) :
    (applyLogged op c).Tracked broken (content.after op) (replayed.perform op) := by
  have happlied := h.applied hop hfree hcheckpoint
  cases op with
  | truncate segment offset =>
      -- only a truncation lets the cache drop something
      rcases hop.fits with ⟨s, hs, -⟩
      have hget : (c.table.perform (.truncate segment offset)).get? segment =
          some { s with startOffset := offset } := by
        unfold Table.perform
        rw [Table.get?_modify_self, hs]
        rfl
      have heq : applyLogged (.truncate segment offset) c =
          { c.applied (.truncate segment offset) with
            cache := c.cache.truncateBefore segment (min offset s.storageLength) } := by
        unfold Store.applyLogged
        simp only [hget]
        rfl
      rw [heq]
      refine happlied.with_cache (happlied.sound.with_cache ?_)
      exact happlied.sound.cached.truncateBefore hget (Nat.min_le_right _ _)
  | append segment offset client event data => exact happlied
  | «seal» segment length => exact happlied
  | merge parent batch length offset => exact happlied
  | checkpoint snapshot => cases hcheckpoint
  | create segment name => exact happlied
  | createBatch batch name parent => exact happlied

end Container
end TieredStore
