import TieredStore.Proofs.Container.Sound
import TieredStore.Proofs.Table.Advances
import TieredStore.Proofs.Table.Unflushed
import TieredStore.Proofs.Tier.Lawful

/-!
# Copying to the tier

A segment is copied piece by piece to the end of its object.  If the object ends
where the table says, copying goes on to its target unless a call of the tier
fails; then the object has got some of the pieces, of which the table knows
nothing.  If writes fail all or not at all, it has got none.

All segments that have something to be copied are copied one after the other, and
none of them touches another one.
-/

namespace TieredStore

/-- All that can be copied of the segments is in the tier. -/
def Table.Full (table : Table) : Prop :=
  ∀ id s, table.get? id = some s → s.storageLength = s.limit

/-- What has something to be copied ends in the tier where the table says. -/
def Table.Copyable (table : Table) (tier : FlakyTier) : Prop :=
  ∀ id s, table.get? id = some s → s.storageLength < s.limit →
    (tier.bytes s.name).length = s.storageLength

theorem Table.EndsIn.copyable {broken : Prop} {table : Table} {tier : FlakyTier}
    {ends : Segment → Nat → Prop} (h : table.EndsIn broken ends tier)
    (hends : ∀ {id s} length, table.get? id = some s → s.storageLength < s.limit →
      ends s length → length = s.storageLength) : table.Copyable tier := by
  intro id s hs hlt
  rcases h id s hs with hold | hdoubled
  · exact hends _ hs hlt hold
  · rcases hdoubled with ⟨-, m, b, hm, hoffset, -⟩
    have hlimit : s.limit = m.offset := by
      unfold Segment.limit
      rw [hm]
      rfl
    rw [hlimit, hoffset] at hlt
    exact absurd hlt (Nat.lt_irrefl _)

theorem Table.AlignedIn.copyable {broken : Prop} {table : Table} {tier : FlakyTier}
    (h : table.AlignedIn broken tier) : table.Copyable tier :=
  EndsIn.copyable h fun _ _ _ heq => heq

namespace Container

variable {τ : Type} [Tier τ] [LawfulTier τ] {content : Contents} {c middle after : Container τ}
  {id : SegmentId} {s : Segment}

def held (c : Container τ) : Container FlakyTier :=
  { table := c.table, cache := c.cache, tier := TierView.held c.tier }

theorem held_finishMerge {m : PendingMerge} {rest : List PendingMerge}
    (hs : c.table.get? id = some s) (hpending : s.pending = m :: rest) :
    (finishMerge id m c).held = finishMerge id m c.held := by
  rw [finishMerge_eq hs hpending, finishMerge_eq (c := c.held) hs hpending]
  rfl

/-!
## One segment
-/

/-- The object of the segment now ends here; nothing else has changed. -/
structure Extends (content : Contents) (s : Segment) (reached : Nat) (c after : Container τ) :
    Prop where
  sound : after.held.Sound content
  table_eq : after.table = c.table
  length_eq : (after.held.tier.bytes s.name).length = reached
  others : ∀ {name}, name ≠ s.name → after.held.tier.bytes name = c.held.tier.bytes name
  noWorse : NoWorse c.tier after.tier

theorem Extends.refl (h : c.held.Sound content) (s : Segment) :
    Extends content s (c.held.tier.bytes s.name).length c c where
  sound := h
  table_eq := rfl
  length_eq := rfl
  others := fun _ => rfl
  noWorse := NoWorse.refl _

theorem Extends.trans {reached last : Nat} (h : Extends content s reached c middle)
    (hafter : Extends content s last middle after) : Extends content s last c after where
  sound := hafter.sound
  table_eq := hafter.table_eq.trans h.table_eq
  length_eq := hafter.length_eq
  others := fun hne => (hafter.others hne).trans (h.others hne)
  noWorse := h.noWorse.trans hafter.noWorse

theorem Extends.of_touched (h : c.held.Sound content) (hs : c.table.get? id = some s) {tier : τ}
    (htouched : c.held.tier.Touched s.name (TierView.held tier)) (hworse : NoWorse c.tier tier) :
    Extends content s (c.held.tier.bytes s.name).length c { c with tier } where
  sound := h.with_tier (h.stored.touched h.wellFormed hs htouched)
  table_eq := rfl
  length_eq := congrArg List.length (htouched.bytes_eq _)
  others := fun _ => htouched.bytes_eq _
  noWorse := hworse

/-- A piece of content at the end of an object makes it a longer prefix of the content. -/
theorem prefix_of_append_slice {bytes data whole : Bytes} (hbytes : bytes <+: whole)
    (hdata : data = Bytes.slice whole bytes.length data.length) : bytes ++ data <+: whole := by
  have htake : bytes = whole.take bytes.length := List.prefix_iff_eq_take.mp hbytes
  rw [hdata]
  conv => lhs; lhs; rw [htake]
  rw [Bytes.take_append_slice]
  exact List.take_prefix _ _

theorem Extends.of_write (h : c.held.Sound content) (hs : c.table.get? id = some s) {tier : τ}
    {data : Bytes} (hdata : data =
      Bytes.slice (content id) (c.held.tier.bytes s.name).length data.length)
    (hsets : c.held.tier.Sets s.name (some (c.held.tier.bytes s.name ++ data))
      (TierView.held tier))
    (hworse : NoWorse c.tier tier) :
    Extends content s ((c.held.tier.bytes s.name).length + data.length) c { c with tier } where
  sound := h.with_tier (h.stored.sets h.wellFormed hs (List.prefix_append _ _)
    (prefix_of_append_slice (h.stored.starts hs) hdata) hsets)
  table_eq := rfl
  length_eq := by
    show (FlakyTier.bytes (TierView.held tier) s.name).length = _
    rw [hsets.bytes_self, List.length_append]
  others := fun hne => hsets.bytes_of_ne hne
  noWorse := hworse

theorem ensureObject_ends (h : c.held.Sound content) (hs : c.table.get? id = some s) :
    Ends (ensureObject s.name) c
      (fun _ after => Extends content s (c.held.tier.bytes s.name).length c after)
      (fun _ after => Extends content s (c.held.tier.bytes s.name).length c after ∧
        CallsFail c.tier) := by
  unfold ensureObject
  refine Ends.bind (onTier_ends ((LawfulTier.length_ends c.tier s.name).mono ?_ ?_))
  · intro found tier hfound
    rcases hfound with ⟨hsame, hworse, hfound⟩
    have hlooked := Extends.of_touched h hs (Or.inl hsame) hworse
    cases found with
    | some length => exact Ends.pure hlooked
    | none =>
        have hempty : (FlakyTier.bytes (TierView.held tier) s.name).length = 0 := by
          have hnone := Option.map_eq_none_iff.mp hfound.symm
          rw [← hsame] at hnone
          rw [FlakyTier.bytes_of_missing hnone]
          rfl
        simp only [Option.isNone_none, if_true]
        refine Ends.discard (onTier_ends ((LawfulTier.write_ends tier s.name 0 []).mono ?_ ?_))
        · intro _ tier' hwrite
          rcases hwrite with ⟨⟨-, -, hsets⟩, hworse', -⟩
          rw [List.append_nil] at hsets
          have hmade := Extends.of_touched hlooked.sound hs (Or.inr hsets) hworse'
          rw [hlooked.length_eq] at hmade
          exact hlooked.trans hmade
        · intro _ tier' hwrite
          rcases hwrite with ⟨htouched, hworse', hfails⟩
          have hmade := Extends.of_touched hlooked.sound hs htouched hworse'
          rw [hlooked.length_eq] at hmade
          exact ⟨hlooked.trans hmade,
            hworse.calls (LawfulTier.callsFail_of_writesFail (hfails hempty))⟩
  · intro _ tier hfound
    exact ⟨Extends.of_touched h hs (Or.inl hfound.1) hfound.2.1, hfound.2.2⟩

theorem Sound.covers_of_lt_limit {c : Container FlakyTier} (h : c.Sound content)
    (hs : c.table.get? id = some s) {offset : Nat} (hstored : s.storageLength ≤ offset)
    (hlt : offset < s.limit) : c.cache.Covers id offset := by
  have hsegment := h.consistent.segment hs
  have hnone : s.pendingAt? offset = none := by
    rw [Segment.pendingAt?_eq_none_iff]
    intro m hm hin
    have hlimit := hsegment.limit_le_offset hm
    omega
  exact h.cached.covers hs hstored (Nat.lt_of_lt_of_le hlt hsegment.limit_le_length) hnone

theorem Sound.exists_cached {c : Container FlakyTier} (h : c.Sound content)
    (hs : c.table.get? id = some s) {offset stop : Nat} (hstored : s.storageLength ≤ offset)
    (hlt : offset < stop) (hstop : stop ≤ s.limit) :
    ∃ block, (c.cache.get id offset (stop - offset)).1 = some block ∧
      block = Bytes.slice (content id) offset block.length ∧ 0 < block.length ∧
      offset + block.length ≤ stop := by
  have hcovers := h.covers_of_lt_limit hs hstored (Nat.lt_of_lt_of_le hlt hstop)
  rcases h.cached.faithful.get_of_covers hcovers (Nat.sub_pos_of_lt hlt) with
    ⟨block, hget, hpiece, hpos, hcount⟩
  exact ⟨block, hget, hpiece, hpos, by omega⟩

theorem Extends.of_get (h : c.held.Sound content) (s : Segment) (id : SegmentId)
    (offset count : Nat) :
    Extends content s (c.held.tier.bytes s.name).length c
      { c with cache := (c.cache.get id offset count).2 } :=
  { Extends.refl h s with sound := h.get id offset count }

theorem writePiece_ends {offset : Nat} {block : Bytes} (h : Extends content s offset c middle)
    (hs : middle.table.get? id = some s)
    (hpiece : block = Bytes.slice (content id) offset block.length) :
    Ends (onTier (Tier.write s.name offset block)) middle
      (fun length after => length = offset + block.length ∧
        Extends content s (offset + block.length) c after ∧
        (TierView.Steady τ → ¬ WritesFail after.tier))
      (fun _ after => Extends content s offset c after ∧ WritesFail middle.tier) := by
  refine onTier_ends ((LawfulTier.write_ends middle.tier s.name offset block).mono ?_ ?_)
  · intro length tier hwrite
    rcases hwrite with ⟨⟨-, hwritten, hsets⟩, hworse, hsteady⟩
    rw [← h.length_eq] at hpiece
    have hgrown := Extends.of_write h.sound hs hpiece hsets hworse
    rw [h.length_eq] at hgrown
    exact ⟨hwritten, h.trans hgrown, fun hst hfails => hsteady hst (hworse.writes hfails)⟩
  · intro _ tier hwrite
    rcases hwrite with ⟨htouched, hworse, hfails⟩
    have htouch := Extends.of_touched h.sound hs htouched hworse
    rw [h.length_eq] at htouch
    exact ⟨h.trans htouch, hfails h.length_eq⟩

/--
Copying goes on from where the object ends to where it is to end.  If a write fails,
the object may have got some of the pieces.
-/
theorem copyOut_ends {stop : Nat} (hstop : stop ≤ s.limit) :
    ∀ (fuel offset : Nat) {c : Container τ}, c.held.Sound content →
      c.table.get? id = some s → s.storageLength ≤ offset → offset ≤ stop →
      stop ≤ offset + fuel → (c.held.tier.bytes s.name).length = offset →
      Ends (copyOut id s.name stop fuel offset) c
        (fun stored after => stored = stop ∧ Extends content s stop c after)
        (fun _ after => WritesFail c.tier ∧ ∃ reached, Extends content s reached c after ∧
          reached ≤ stop ∧ (TierView.Steady τ → reached = offset))
  | 0, offset, c, h, _, _, hle, hfuel, hlength => by
      have heq : offset = stop := Nat.le_antisymm hle hfuel
      have hrefl := Extends.refl h s
      rw [hlength, heq] at hrefl
      exact Ends.pure ⟨heq, hrefl⟩
  | fuel + 1, offset, c, h, hs, hstored, hle, hfuel, hlength => by
      unfold copyOut
      by_cases hlt : offset < stop
      · rw [if_pos hlt]
        rcases h.exists_cached hs hstored hlt hstop with ⟨block, hblock, hpiece, hpos, hfits⟩
        refine Ends.bind ((cached_ends c id offset (stop - offset)).mono ?_ ?_)
        · intro found looked hfound
          rcases hfound with ⟨hfound, hafter⟩
          have hlooked := Extends.of_get h s id offset (stop - offset)
          rw [← hafter, hlength] at hlooked
          rw [hfound, show (c.cache.get id offset (stop - offset)).1 = some block from hblock]
          have hs' : looked.table.get? id = some s := by
            rw [hlooked.table_eq]
            exact hs
          have htier : looked.tier = c.tier := by rw [hafter]
          refine Ends.bind ((writePiece_ends hlooked hs' hpiece).mono ?_ ?_)
          · intro length middle hmiddle
            rcases hmiddle with ⟨hwritten, hmiddle, hnever⟩
            have hs'' : middle.table.get? id = some s := by
              rw [hmiddle.table_eq]
              exact hs
            rw [hwritten]
            refine (copyOut_ends hstop fuel (offset + block.length) hmiddle.sound hs''
              (Nat.le_trans hstored (Nat.le_add_right _ _)) hfits (by omega)
              hmiddle.length_eq).mono ?_ ?_
            · intro stored last hlast
              exact ⟨hlast.1, hmiddle.trans hlast.2⟩
            · intro _ last hlast
              rcases hlast with ⟨hfails, reached, hlast, hreached, -⟩
              -- where writes fail all or not at all, none fails after one that succeeded
              exact ⟨hmiddle.noWorse.writes hfails, reached, hmiddle.trans hlast, hreached,
                fun hst => absurd hfails (hnever hst)⟩
          · intro _ middle hmiddle
            rw [← htier]
            exact ⟨hmiddle.2, offset, hmiddle.1, hle, fun _ => rfl⟩
        · intro _ _ hfalse
          exact hfalse.elim
      · rw [if_neg hlt]
        have heq : offset = stop := Nat.le_antisymm hle (Nat.not_lt.mp hlt)
        have hrefl := Extends.refl h s
        rw [hlength, heq] at hrefl
        exact Ends.pure ⟨heq, hrefl⟩

/-!
## What copying does to a table
-/

/--
The tier holds more of the segments.  An object that has changed belongs to a
segment of which there was something to be copied, and it ends where the table now
says, if that is said to be exact.
-/
structure Progress (exact : Prop) (content : Contents) (c after : Container τ) : Prop where
  sound : after.held.Sound content
  raises : c.table.Raises after.table
  noWorse : NoWorse c.tier after.tier
  ends : ∀ {id s t}, c.table.get? id = some s → after.table.get? id = some t →
    t = s ∧ after.held.tier.bytes s.name = c.held.tier.bytes s.name ∨
      s.storageLength < s.limit ∧ (after.held.tier.bytes s.name).length ≤ s.limit ∧
        (exact → (after.held.tier.bytes s.name).length = t.storageLength)

section Progress

variable {exact broken : Prop}

theorem Progress.refl (h : c.held.Sound content) : Progress exact content c c where
  sound := h
  raises := Table.Raises.refl _
  noWorse := NoWorse.refl _
  ends := by
    intro id s t hs ht
    rw [hs] at ht
    cases ht
    exact Or.inl ⟨rfl, rfl⟩

theorem Progress.trans (h : Progress True content c middle)
    (hafter : Progress exact content middle after) : Progress exact content c after where
  sound := hafter.sound
  raises := h.raises.trans hafter.raises
  noWorse := h.noWorse.trans hafter.noWorse
  ends := by
    intro id s t hs ht
    rcases hafter.raises.of_get? ht with ⟨r, hr, -, -⟩
    rcases h.raises.of_get? hr with ⟨s', hs', -, heq⟩
    rw [hs] at hs'
    cases hs'
    have hname : r.name = s.name := by rw [heq]
    have hlimit : r.limit = s.limit := by rw [heq]; rfl
    have hfirst := h.ends hs hr
    have hsecond := hafter.ends hr ht
    rw [hname, hlimit] at hsecond
    rcases hsecond with hkept | hcopied
    · rcases hfirst with hkept' | hcopied'
      · exact Or.inl ⟨hkept.1.trans hkept'.1, hkept.2.trans hkept'.2⟩
      · rw [hkept.2, hkept.1]
        exact Or.inr ⟨hcopied'.1, hcopied'.2.1, fun _ => hcopied'.2.2 trivial⟩
    · refine Or.inr ⟨?_, hcopied.2⟩
      rcases hfirst with hkept' | hcopied'
      · rw [← hkept'.1, hlimit]
        exact hcopied.1
      · exact hcopied'.1

/-- Pieces that were copied, of which the table knows nothing. -/
theorem Extends.progress {reached : Nat} (h : Extends content s reached c after)
    (hc : c.held.Sound content) (hs : c.table.get? id = some s) (hmore : s.storageLength < s.limit)
    (hle : reached ≤ s.limit) (hexact : exact → reached = s.storageLength) :
    Progress exact content c after where
  sound := h.sound
  raises := by
    rw [h.table_eq]
    exact Table.Raises.refl _
  noWorse := h.noWorse
  ends := by
    intro other t t' ht ht'
    rw [h.table_eq, ht] at ht'
    cases ht'
    by_cases hname : t.name = s.name
    · have hid := hc.wellFormed.name_inj ht hs hname
      subst hid
      rw [ht] at hs
      cases hs
      rw [h.length_eq]
      exact Or.inr ⟨hmore, hle, hexact⟩
    · exact Or.inl ⟨rfl, h.others hname⟩

/-- All pieces were copied, and the table is told so. -/
theorem Extends.noted (h : Extends content s s.limit c after) (hc : c.held.Sound content)
    (hs : c.table.get? id = some s) (hmore : s.storageLength < s.limit) :
    Progress True content c (noteStored id s.limit after) where
  sound := by
    refine h.sound.noteStored ?_ (Nat.le_refl _) (Nat.le_of_eq h.length_eq.symm)
    show after.table.get? id = some s
    rw [h.table_eq]
    exact hs
  raises := by
    show c.table.Raises (after.table.setStorageLength id s.limit)
    rw [h.table_eq]
    exact Table.Raises.setStorageLength _ _ _
  noWorse := h.noWorse
  ends := by
    intro other t t' ht ht'
    replace ht' : (after.table.setStorageLength id s.limit).get? other = some t' := ht'
    rw [h.table_eq] at ht'
    by_cases hother : other = id
    · subst hother
      rw [hs] at ht
      cases ht
      rw [Table.get?_setStorageLength_self hs] at ht'
      cases ht'
      have hlimit := (hc.consistent.segment hs).limit_le_length
      have hlength : (after.held.tier.bytes s.name).length = s.limit := h.length_eq
      refine Or.inr ⟨hmore, Nat.le_of_eq hlength, fun _ => ?_⟩
      show (after.held.tier.bytes s.name).length = max s.storageLength (min s.limit s.length)
      omega
    · rw [Table.get?_setStorageLength_of_ne hother, ht] at ht'
      cases ht'
      refine Or.inl ⟨rfl, h.others ?_⟩
      intro hname
      exact hother (hc.wellFormed.name_inj ht hs hname)

theorem Progress.endsIn (h : Progress exact content c after)
    {before ends : Segment → Nat → Prop} (hbefore : c.table.EndsIn broken before c.held.tier)
    (hkept : ∀ {id s} length, c.table.get? id = some s → before s length → ends s length)
    (hcopied : ∀ {s t : Segment}, t.limit = s.limit → ∀ length, length ≤ s.limit →
      (exact → length = t.storageLength) → ends t length) :
    after.table.EndsIn broken ends after.held.tier := by
  intro id t ht
  rcases h.raises.of_get? ht with ⟨s, hs, -, heq⟩
  have hname : t.name = s.name := by rw [heq]
  have hlimit : t.limit = s.limit := by rw [heq]; rfl
  rw [hname]
  rcases h.ends hs ht with hsame | hcopy
  · rcases hsame with ⟨rfl, hbytes⟩
    rcases hbefore id t hs with hends | hdoubled
    · left
      rw [hbytes]
      exact hkept _ hs hends
    · refine Or.inr ⟨hdoubled.1, hdoubled.2.of_kept rfl rfl (fun _ hm => hm) hbytes ?_⟩
      intro m b _ hb hcomplete
      rcases h.raises.kept hb with ⟨stored, hle, hget⟩
      have hstored := (h.sound.consistent.segment hget).stored_le_length
      exact ⟨_, hget, Nat.le_antisymm hstored (by rw [← hcomplete]; exact hle)⟩
  · exact Or.inl (hcopied hlimit _ hcopy.2.1 hcopy.2.2)

theorem Progress.settledIn (h : Progress exact content c after) (hc : c.held.Sound content)
    (haligned : c.table.AlignedIn broken c.held.tier) :
    after.table.SettledIn broken after.held.tier := by
  refine h.endsIn haligned ?_ ?_
  · intro id s length hs heq
    rw [heq]
    exact (hc.consistent.segment hs).stored_le
  · intro s t hlimit length hle _
    rw [hlimit]
    exact hle

theorem Progress.alignedIn (h : Progress exact content c after)
    (haligned : c.table.AlignedIn broken c.held.tier) (hexact : exact) :
    after.table.AlignedIn broken after.held.tier :=
  h.endsIn haligned (fun _ _ heq => heq) fun _ _ _ hlength => hlength hexact

end Progress

/-!
## All segments
-/

structure Copies (table : Table) (target : FlushTarget) (s : Segment) : Prop where
  segment : table.get? target.id = some s
  name_eq : target.name = s.name
  start_eq : target.start = s.storageLength
  stop_eq : target.stop = s.limit
  more : s.storageLength < s.limit

theorem Copies.of_ne {table : Table} {target : FlushTarget} (h : Copies table target s)
    (hne : target.id ≠ id) (length : Nat) :
    Copies (table.setStorageLength id length) target s :=
  { h with segment := (Table.get?_setStorageLength_of_ne hne length).trans h.segment }

theorem Copies.name_ne {c : Container FlakyTier} {target other : FlushTarget} {t : Segment}
    (h : Copies c.table target s) (hc : c.Sound content) (hother : Copies c.table other t)
    (hne : target.id ≠ other.id) : s.name ≠ t.name :=
  fun hname => hne (hc.wellFormed.name_inj h.segment hother.segment hname)

theorem Copies.beside {target other : FlushTarget} {t : Segment} (h : Copies c.table other t)
    (hc : c.held.Sound content) (htarget : Copies c.table target s) (hne : other.id ≠ target.id)
    (htable : middle.table = c.table.setStorageLength target.id s.limit)
    (hothers : ∀ {name}, name ≠ s.name →
      middle.held.tier.bytes name = c.held.tier.bytes name) :
    Copies middle.table other t ∧
      middle.held.tier.bytes t.name = c.held.tier.bytes t.name := by
  constructor
  · rw [htable]
    exact h.of_ne hne s.limit
  · exact hothers (Copies.name_ne (c := c.held) h hc htarget hne)

theorem copies_of_flushTarget? {table : Table} (hs : table.get? s.id = some s)
    {target : FlushTarget} (htarget : Table.flushTarget? s = some target) :
    target.id = s.id ∧ Copies table target s := by
  unfold Table.flushTarget? at htarget
  simp only at htarget
  split at htarget
  · rename_i hlt
    cases htarget
    exact ⟨rfl, hs, rfl, rfl, rfl, hlt⟩
  · cases htarget

theorem flushSegment_of_copyOut (h : c.held.Sound content) {target : FlushTarget}
    (htarget : Copies c.table target s) {answered : Nat → Container τ → Prop}
    {failed : Error → Container τ → Prop}
    (hcopy : ∀ {middle : Container τ},
      Extends content s (c.held.tier.bytes s.name).length c middle →
      Ends (do
        let stored ← copyOut target.id s.name s.limit (s.limit - s.storageLength) s.storageLength
        modify (noteStored target.id stored)
        return stored - s.storageLength) middle answered failed)
    (hmake : ∀ e {middle : Container τ},
      Extends content s (c.held.tier.bytes s.name).length c middle → CallsFail c.tier →
      failed e middle) :
    Ends (flushSegment target) c answered failed := by
  rcases target with ⟨id, name, start, stop⟩
  rcases htarget with ⟨hs, rfl, rfl, rfl, hmore⟩
  unfold flushSegment
  by_cases hzero : s.storageLength = 0
  · rw [if_pos hzero]
    refine Ends.bind ((ensureObject_ends h hs).mono ?_ ?_)
    · intro _ middle hmiddle
      exact hcopy hmiddle
    · intro e middle hmiddle
      exact hmake e hmiddle.1 hmiddle.2
  · rw [if_neg hzero]
    exact hcopy (Extends.refl h s)

theorem flushSegment_ends (h : c.held.Sound content) {target : FlushTarget}
    (htarget : Copies c.table target s)
    (hlength : (c.held.tier.bytes s.name).length = s.storageLength) :
    Ends (flushSegment target) c
      (fun written after => 0 < written ∧ Progress True content c after ∧
        after.table = c.table.setStorageLength target.id s.limit ∧
        ∀ {name}, name ≠ s.name → after.held.tier.bytes name = c.held.tier.bytes name)
      (fun _ after => Progress (TierView.Steady τ) content c after ∧ CallsFail c.tier) := by
  have hs := htarget.segment
  have hmore := htarget.more
  refine flushSegment_of_copyOut h htarget ?_ ?_
  · intro middle hmiddle
    rw [hlength] at hmiddle
    have hs' : middle.table.get? target.id = some s := by
      rw [hmiddle.table_eq]
      exact hs
    refine Ends.bind ((copyOut_ends (Nat.le_refl s.limit) _ _ hmiddle.sound hs' (Nat.le_refl _)
      (Nat.le_of_lt hmore) (by omega) hmiddle.length_eq).mono ?_ ?_)
    · intro stored last hlast
      rcases hlast with ⟨rfl, hlast⟩
      have hall := hmiddle.trans hlast
      refine Ends.modifying (Ends.pure ⟨Nat.sub_pos_of_lt hmore, hall.noted h hs hmore, ?_,
        hall.others⟩)
      show last.table.setStorageLength target.id s.limit = _
      rw [hall.table_eq]
    · intro _ last hlast
      rcases hlast with ⟨hfails, reached, hlast, hreached, hsteady⟩
      exact ⟨(hmiddle.trans hlast).progress h hs hmore hreached hsteady,
        LawfulTier.callsFail_of_writesFail (hmiddle.noWorse.writes hfails)⟩
  · intro _ middle hmiddle hfails
    rw [hlength] at hmiddle
    exact ⟨hmiddle.progress h hs hmore (Nat.le_of_lt hmore) fun _ => rfl, hfails⟩

theorem Progress.full (h : Progress True content c after) {t : Segment}
    (ht : c.table.get? id = some t) (hfull : t.storageLength = t.limit) :
    after.table.get? id = some t :=
  h.raises.get?_of_full h.sound.consistent ht hfull

theorem Progress.bytes_eq (h : Progress True content c after) {t : Segment}
    (ht : c.table.get? id = some t) (hfull : t.storageLength = t.limit) :
    after.held.tier.bytes t.name = c.held.tier.bytes t.name := by
  rcases h.ends ht (h.full ht hfull) with hsame | hcopied
  · exact hsame.2
  · exact absurd hfull (Nat.ne_of_lt hcopied.1)

theorem flushSegments_ends :
    ∀ (targets : List FlushTarget) (stats : FlushStats) {c : Container τ}, c.held.Sound content →
      targets.Pairwise (fun a b => a.id ≠ b.id) →
      (∀ target ∈ targets, ∃ s, Copies c.table target s ∧
        (c.held.tier.bytes s.name).length = s.storageLength) →
      Ends (flushSegments stats targets) c
        (fun copied after => Progress True content c after ∧
          (∀ target ∈ targets, ∃ t, after.table.get? target.id = some t ∧
            t.storageLength = t.limit) ∧
          after.table.unflushed + targets.length ≤ c.table.unflushed ∧
          stats.bytes + targets.length ≤ copied.bytes ∧ copied.merges = stats.merges ∧
          (targets = [] → copied = stats))
        (fun _ after => Progress (TierView.Steady τ) content c after ∧ CallsFail c.tier)
  | [], stats, c, h, _, _ =>
      Ends.pure ⟨Progress.refl h, (fun _ htarget => nomatch htarget), Nat.le_refl _,
        Nat.le_refl _, rfl, fun _ => rfl⟩
  | target :: rest, stats, c, h, hapart, htargets => by
      rcases List.pairwise_cons.mp hapart with ⟨hfirst, hapart⟩
      rcases htargets target List.mem_cons_self with ⟨s, hcopies, hlength⟩
      unfold flushSegments
      refine Ends.bind ((flushSegment_ends h hcopies hlength).mono ?_ ?_)
      · intro written middle hmiddle
        rcases hmiddle with ⟨hwritten, hmiddle, htable, hothers⟩
        have hsegment := h.consistent.segment hcopies.segment
        have hless := Table.unflushed_setStorageLength_lt hcopies.segment hcopies.more
          hsegment.limit_le_length
        rw [← htable] at hless
        have hnoted := Table.get?_setStorageLength_self hcopies.segment s.limit
        rw [← htable, Nat.min_eq_left hsegment.limit_le_length,
          Nat.max_eq_right (Nat.le_of_lt hcopies.more)] at hnoted
        rw [if_neg (Nat.ne_of_gt hwritten)]
        refine (flushSegments_ends rest _ hmiddle.sound hapart ?_).mono ?_ ?_
        · intro other hother
          rcases htargets other (List.mem_cons_of_mem _ hother) with ⟨s', hcopies', hlength'⟩
          rcases hcopies'.beside h hcopies (hfirst other hother).symm htable hothers with
            ⟨hkept, hbytes⟩
          exact ⟨s', hkept, by rw [hbytes]; exact hlength'⟩
        · intro copied after hafter
          rcases hafter with ⟨hafter, hfull, hunflushed, hbytes, hmerges, -⟩
          refine ⟨hmiddle.trans hafter, ?_, ?_, ?_, hmerges, (fun hnil => nomatch hnil)⟩
          · intro other hother
            rcases List.mem_cons.mp hother with hself | hrest
            · rw [hself]
              exact ⟨_, hafter.full hnoted rfl, rfl⟩
            · exact hfull other hrest
          · rw [List.length_cons]
            omega
          · rw [List.length_cons]
            replace hbytes : stats.bytes + written + rest.length ≤ copied.bytes := hbytes
            omega
        · intro _ after hafter
          exact ⟨hmiddle.trans hafter.1, hmiddle.noWorse.calls hafter.2⟩
      · intro _ after hafter
        exact hafter

theorem Sound.flushTargets_copies {c : Container FlakyTier} (h : c.Sound content) :
    c.table.flushTargets.Pairwise (fun a b => a.id ≠ b.id) ∧
      (∀ target ∈ c.table.flushTargets, ∃ s, Copies c.table target s) ∧
      ∀ id s, c.table.get? id = some s → s.storageLength < s.limit →
        ∃ target ∈ c.table.flushTargets, target.id = id := by
  have hget : ∀ {s}, s ∈ c.table.list → c.table.get? s.id = some s :=
    fun hs => h.wellFormed.mem_list_iff.mp hs
  refine ⟨?_, ?_, ?_⟩
  · unfold Table.flushTargets
    rw [List.pairwise_filterMap]
    refine h.wellFormed.ids_ascending.imp_of_mem ?_
    intro s t hs ht hlt a ha b hb heq
    rw [(copies_of_flushTarget? (hget hs) ha).1, (copies_of_flushTarget? (hget ht) hb).1] at heq
    rw [heq] at hlt
    exact Nat.lt_irrefl _ hlt
  · intro target htarget
    rcases List.mem_filterMap.mp htarget with ⟨s, hs, hsome⟩
    exact ⟨s, (copies_of_flushTarget? (hget hs) hsome).2⟩
  · intro id s hs hlt
    have hid := h.consistent.id_eq hs
    refine ⟨{ id := s.id, name := s.name, start := s.storageLength, stop := s.limit },
      List.mem_filterMap.mpr ⟨s, Table.mem_list.mpr ⟨id, hs⟩, ?_⟩, hid⟩
    unfold Table.flushTarget?
    exact if_pos hlt

theorem copyAll_ends (h : c.held.Sound content) (hcopyable : c.table.Copyable c.held.tier)
    (stats : FlushStats) :
    Ends (flushSegments stats c.table.flushTargets) c
      (fun copied after => Progress True content c after ∧ after.table.Full ∧
        after.table.unflushed + c.table.flushTargets.length ≤ c.table.unflushed ∧
        stats.bytes + c.table.flushTargets.length ≤ copied.bytes ∧
        copied.merges = stats.merges ∧ (c.table.flushTargets = [] → copied = stats))
      (fun _ after => Progress (TierView.Steady τ) content c after ∧ CallsFail c.tier) := by
  rcases h.flushTargets_copies with ⟨hapart, hcopies, hlisted⟩
  refine (flushSegments_ends c.table.flushTargets stats h hapart ?_).mono ?_ ?_
  · intro target htarget
    rcases hcopies target htarget with ⟨s, hs⟩
    exact ⟨s, hs, hcopyable _ s hs.segment hs.more⟩
  · intro copied after hafter
    rcases hafter with ⟨hprogress, hfull, hcounts⟩
    refine ⟨hprogress, ?_, hcounts⟩
    intro id t ht
    rcases hprogress.raises.of_get? ht with ⟨s, hs, -⟩
    by_cases hlt : s.storageLength < s.limit
    · rcases hlisted id s hs hlt with ⟨target, htarget, hid⟩
      rcases hfull target htarget with ⟨t', ht', heq⟩
      rw [hid, ht] at ht'
      cases ht'
      exact heq
    · rcases hprogress.ends hs ht with hsame | hcopied
      · rw [hsame.1]
        exact Nat.le_antisymm (h.consistent.segment hs).stored_le (Nat.not_lt.mp hlt)
      · exact absurd hcopied.1 hlt
  · intro _ after hafter
    exact hafter

end Container
end TieredStore
