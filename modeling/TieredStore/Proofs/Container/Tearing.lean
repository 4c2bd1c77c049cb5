import TieredStore.Proofs.Container.Flushing
import TieredStore.Proofs.Container.Recovering

/-!
# Torn joins

A join is torn if the object of the parent has got some of the bytes of the batch,
but not all.  A recovery does not see this: the merge is not reached, and the
parent is known to be in the tier up to the merge.  The merge is ready, so that
the next flush joins the whole batch to the parent where its object ends.  Only
then is it noticed that the object is too long, and then that of the batch is gone.
-/

namespace TieredStore

namespace Table.Ready

variable {live settled after : Table} {content : Contents} {target : MergeTarget}
  {s b : Segment} {rest : List PendingMerge} {reach : String → Nat}

theorem joins (h : live.Ready target s b rest) (hlive : live.Consistent content)
    (hjoins : live.Joins reach settled) (hstop : reach s.name < target.merge.stop) :
    settled.Ready target s b rest := by
  have hall : settled.Consistent content ∧ settled.Ready target s b rest := by
    refine hjoins.preserves (P := fun t => t.Consistent content ∧ t.Ready target s b rest)
      ⟨hlive, h⟩ ?_
    intro middle parent t m others hmiddle found pending reached
    rcases hmiddle with ⟨hconsistent, hready⟩
    have hne : target.parent ≠ parent := by
      intro heq
      rw [← heq, hready.parent] at found
      cases found
      rw [hready.pending] at pending
      cases pending
      exact absurd reached (Nat.not_le.mpr hstop)
    have hapart := hconsistent.get?_joined_apart found pending hready.parent hne (by
      rw [hready.pending]
      exact List.mem_cons_self)
    refine ⟨hconsistent.joined found pending, { hready with parent := ?_, batch := ?_ }⟩
    · rw [hapart.1]
      exact hready.parent
    · rw [hapart.2]
      exact hready.batch
  exact hall.2

theorem raises (h : settled.Ready target s b rest) (hsettled : settled.Consistent content)
    (hafter : after.Consistent content) (hraises : settled.Raises after) :
    after.Ready target s b rest := by
  rcases h.full hsettled with ⟨hs, hb⟩
  exact
    { h with
      parent := hraises.get?_of_full hafter h.parent hs
      batch := hraises.get?_of_full hafter h.batch hb }

end Table.Ready

namespace Container

/-! ## What is left of a torn join -/

section Left

variable {content : Contents} {tier : FlakyTier} {replayed live : Table}
  {after c : Container FlakyTier} {id : SegmentId} {target : MergeTarget} {s b : Segment}
  {rest : List PendingMerge} {m : PendingMerge}

theorem Tracked.ready {broken : Prop} (h : c.Tracked broken content replayed)
    (hs : c.table.get? id = some s) (hpending : s.pending = m :: rest)
    (hlength : (c.tier.bytes s.name).length = m.offset) (hb : c.table.get? m.batch = some b)
    (hcomplete : (c.tier.bytes b.name).length = b.length) :
    c.table.Ready { parent := id, parentName := s.name, batchName := b.name, merge := m } s b
      rest := by
  have hm : m ∈ s.pending := by
    rw [hpending]
    exact List.mem_cons_self
  refine { parent := hs, pending := hpending, parentName := rfl, stored := ?_, batch := hb,
           batchName := rfl, complete := ?_ }
  · rcases h.aligned id s hs with heq | hdoubled
    · exact heq.symm.trans hlength
    · rcases hdoubled with ⟨-, m', b', hm', hoffset, -⟩
      rw [hpending] at hm'
      cases hm'
      exact hoffset
  · rcases h.sound.consistent.backed hs m hm with ⟨b', hb', hparent, -⟩
    rw [hb] at hb'
    cases hb'
    rcases h.aligned m.batch b hb with heq | hdoubled
    · exact heq.symm.trans hcomplete
    · rcases hdoubled with ⟨-, m', b', hm', -⟩
      rw [h.sound.consistent.pending_of_parent hb hparent] at hm'
      cases hm'

theorem Restored.ready (h : Restored content replayed live tier after)
    (hlive : live.Consistent content) (hready : live.Ready target s b rest)
    (hstop : tier.reach s.name < target.merge.stop) : after.table.Ready target s b rest := by
  rcases h.recovers with ⟨settled, hjoins, -, hraises⟩
  exact (hready.joins hlive hjoins hstop).raises (hjoins.consistent hlive) h.sound.consistent
    hraises

theorem Restored.endsIn_apart (h : Restored content replayed live tier after)
    (hlive : live.Consistent content)
    (hends : ∀ other t, live.get? other = some t → t.name ≠ s.name →
      tier.reach t.name ≤ t.limit ∨ live.Doubled tier t) :
    after.table.EndsIn False (fun t length => t.name = s.name ∨ length = t.storageLength)
      after.tier := by
  intro other t ht
  rcases h.recovers.kept ht with ⟨t', -, ht', -, -, -, -, heq⟩
  have hname : t.name = t'.name := by rw [heq]
  refine Or.inl ?_
  by_cases hself : t.name = s.name
  · exact Or.inl hself
  · rw [hname] at hself
    exact Or.inr (h.length_eq hlive ht' (hends other t' ht' hself) ht)

end Left

variable {τ : Type} [Tier τ] [LawfulTier τ] {broken : Prop} {content : Contents}
  {c middle after : Container τ} {target : MergeTarget} {s b : Segment}
  {rest : List PendingMerge}

/-! ## Flushing over a torn join -/

/--
The batch was added behind part of it, so that the object of the parent is too
long, and the object of the batch is gone.  The table still has the merge pending.
-/
structure Overrun (target : MergeTarget) (s b : Segment) (c : Container τ) (e : Error)
    (after : Container τ) : Prop where
  error_eq : e = .misuse (.concatenatedLength b.name s.name
    ((c.held.tier.bytes s.name).length + target.merge.length) target.merge.stop)
  parent : after.table.get? target.parent = some s
  parent_eq : after.held.tier.object? s.name =
    some (c.held.tier.bytes s.name ++ c.held.tier.bytes b.name)
  batch_eq : after.held.tier.object? b.name = none

theorem Overrun.behind {e : Error} (hworse : NoWorse c.tier middle.tier)
    (hs : middle.held.tier.bytes s.name = c.held.tier.bytes s.name)
    (hb : middle.held.tier.bytes b.name = c.held.tier.bytes b.name)
    (hafter : CallsFail middle.tier ∨ Overrun target s b middle e after) :
    CallsFail c.tier ∨ Overrun target s b c e after := by
  rcases hafter with hfails | hover
  · exact Or.inl (hworse.calls hfails)
  · refine Or.inr { hover with error_eq := ?_, parent_eq := ?_ }
    · rw [← hs]
      exact hover.error_eq
    · rw [← hs, ← hb]
      exact hover.parent_eq

theorem carryOut_torn (h : c.held.Sound content) (hready : c.table.Ready target s b rest)
    (hstart : target.merge.offset < (c.held.tier.bytes s.name).length)
    (hstop : (c.held.tier.bytes s.name).length < target.merge.stop) :
    Ends (carryOut target) c (fun _ _ => False)
      (fun e after => CallsFail c.tier ∨ Overrun target s b c e after) := by
  unfold carryOut
  refine Ends.bind (joinObjects_of_found c target (fun _ _ _ _ hfails => Or.inl hfails) ?_)
  intro looked hlooked hsame
  have hbytes : looked.held.tier.bytes = c.held.tier.bytes := by
    funext name
    exact FlakyTier.bytes_of_object?_eq (congrFun hsame name)
  rcases FlakyTier.exists_object?_of_lt hstart with ⟨data, hfound⟩
  rw [hready.parentName, ← hsame] at hfound
  rw [hfound]
  have hdata : c.held.tier.bytes s.name = data := by
    rw [← hbytes, hready.parentName]
    exact FlakyTier.bytes_of_object? hfound
  rw [Option.map_some, joinFound_of_lt target _ (by rw [← hdata]; exact hstop),
    ← hready.parentName, ← hready.batchName]
  refine (joinMade_ends looked (Table.Ready.name_ne (c := c.held) hready h)).mono ?_ ?_
  · intro length after hafter
    rcases hafter with ⟨hlength, hjoined, hsegments⟩
    rcases Table.Ready.batch_bytes (c := c.held) hready h with ⟨-, -, hblength⟩
    rw [hbytes, List.length_append, hblength] at hlength
    have hne : length ≠ target.merge.stop := by
      have hstop_eq : target.merge.stop = target.merge.offset + target.merge.length := rfl
      omega
    rw [if_pos hne, hlength]
    refine Ends.throw (Or.inr { error_eq := ?_, parent := ?_, parent_eq := ?_,
                                batch_eq := hjoined.source_eq })
    · rw [hready.parentName, hready.batchName]
    · rw [hsegments.table_eq, hlooked.table_eq]
      exact hready.parent
    · rw [hjoined.target_eq, hbytes]
  · intro _ after hafter
    exact Or.inl (hlooked.noWorse.calls hafter.2.2)

/-- Merges of other parents before it are carried out. -/
theorem carryOutAll_torn :
    ∀ (targets : List MergeTarget) (stats : FlushStats) {c : Container τ},
      c.held.Sound content → (JoinsBreak c.tier → broken) →
      targets.Pairwise (fun a b => a.parent ≠ b.parent) →
      (∀ other ∈ targets, ∃ s' b' rest', c.table.Ready other s' b' rest' ∧
        (other.parent ≠ target.parent →
          (c.held.tier.bytes s'.name).length = other.merge.offset ∨
            broken ∧ (c.held.tier.bytes s'.name).length = other.merge.stop)) →
      target ∈ targets → c.table.Ready target s b rest →
      target.merge.offset < (c.held.tier.bytes s.name).length →
      (c.held.tier.bytes s.name).length < target.merge.stop →
      Ends (carryOutAll stats targets) c (fun _ _ => False)
        (fun e after => CallsFail c.tier ∨ Overrun target s b c e after)
  | [], _, _, _, _, _, _, hmem, _, _, _ => nomatch hmem
  | other :: others, stats, c, h, hjoins, hapart, hothers, hmem, hready, hstart, hstop => by
      rcases List.pairwise_cons.mp hapart with ⟨hfirst, hapart⟩
      unfold carryOutAll
      by_cases hself : other = target
      · subst hself
        refine Ends.bind ((carryOut_torn h hready hstart hstop).mono ?_ fun _ _ hend => hend)
        intro _ _ hfalse
        exact hfalse.elim
      · have hmem : target ∈ others :=
          (List.mem_cons.mp hmem).resolve_left fun heq => hself heq.symm
        have hne : other.parent ≠ target.parent := hfirst target hmem
        rcases hothers other List.mem_cons_self with ⟨s', b', rest', hother, hlength⟩
        -- the merge of another parent leaves the torn one ready and its objects as they are
        refine Ends.bind ((carryOut_ends h hother (hlength hne) hjoins).mono ?_ fun _ _ hend =>
          Or.inl hend.2)
        intro _ middle hmiddle
        rcases hmiddle.keeps h hother hready hne.symm with ⟨hready', hs, hb⟩
        refine (carryOutAll_torn others _ hmiddle.sound (fun hbreak =>
          hjoins (hmiddle.noWorse.joins hbreak)) hapart ?_ hmem hready' ?_ ?_).mono
          (fun _ _ hfalse => hfalse) fun _ _ => Overrun.behind hmiddle.noWorse hs hb
        · intro next hnext
          rcases hothers next (List.mem_cons_of_mem _ hnext) with ⟨s₁, b₁, rest₁, hready₁, hends⟩
          rcases hmiddle.keeps h hother hready₁ (hfirst next hnext).symm with ⟨hready₁', hs₁, -⟩
          refine ⟨s₁, b₁, rest₁, hready₁', fun hapart => ?_⟩
          rw [hs₁]
          exact hends hapart
        · rw [hs]
          exact hstart
        · rw [hs]
          exact hstop

/--
A parent whose object ends within its first pending merge is overrun by a flush, if
all other objects end where the table says.
-/
theorem flush_torn (h : c.held.Sound content) (hready : c.table.Ready target s b rest)
    (hjoins : JoinsBreak c.tier → broken)
    (hends : c.table.EndsIn broken (fun t length => t.name = s.name ∨ length = t.storageLength)
      c.held.tier)
    (hstart : target.merge.offset < (c.held.tier.bytes s.name).length)
    (hstop : (c.held.tier.bytes s.name).length < target.merge.stop) :
    Ends flush c (fun _ _ => False)
      (fun e after => CallsFail c.tier ∨ Overrun target s b c e after) := by
  rcases hready.full h.consistent with ⟨hlimit, hblimit⟩
  have hcopyable : c.table.Copyable c.held.tier := by
    refine hends.copyable ?_
    intro id t length ht hlt hcase
    rcases hcase with hname | heq
    · cases h.wellFormed.name_inj ht hready.parent hname
      cases Option.some.inj (Eq.trans (Eq.symm ht) hready.parent)
      exact absurd hlt (Nat.not_lt.mpr (Nat.le_of_eq hlimit.symm))
    · exact heq
  unfold flush
  refine Ends.get ?_
  unfold flushRounds
  refine Ends.get (Ends.bind ((copyAll_ends h hcopyable {}).mono ?_ fun _ _ hend =>
    Or.inl hend.2))
  intro copied middle hmiddle
  have hprogress := hmiddle.1
  have hs' := hprogress.full hready.parent hlimit
  have hready' : middle.table.Ready target s b rest :=
    { hready with parent := hs', batch := hprogress.full hready.batch hblimit }
  have hs := hprogress.bytes_eq hready.parent hlimit
  have hb := hprogress.bytes_eq hready.batch hblimit
  have hends' : middle.table.EndsIn broken
      (fun t length => t.name = s.name ∨ length = t.storageLength) middle.held.tier :=
    hprogress.endsIn hends (fun _ _ hcase => hcase) fun _ _ _ hlength =>
      Or.inr (hlength trivial)
  have hjoins' : JoinsBreak middle.tier → broken := fun hbreak =>
    hjoins (hprogress.noWorse.joins hbreak)
  have hmem := hready'.mem_mergeTargets hprogress.sound.consistent
  have htargets := hprogress.sound.mergeTargets_ready
  have hcarried : Ends (carryOutAll copied middle.table.mergeTargets) middle (fun _ _ => False)
      (fun e last => CallsFail middle.tier ∨ Overrun target s b middle e last) := by
    refine carryOutAll_torn _ copied hprogress.sound hjoins' htargets.1 ?_ hmem hready' ?_ ?_
    · intro other hother
      rcases htargets.2 other hother with ⟨t, b', rest', ht⟩
      refine ⟨t, b', rest', ht, fun hne => ?_⟩
      rcases hends' _ t ht.parent with hcase | hdoubled
      · rcases hcase with hname | heq
        · exact absurd (hprogress.sound.wellFormed.name_inj ht.parent hs' hname) hne
        · exact Or.inl (heq.trans ht.stored)
      · rcases hdoubled with ⟨hbroken, m, b₁, hm, -, hlength, -⟩
        rw [ht.pending] at hm
        cases hm
        exact Or.inr ⟨hbroken, hlength⟩
    · rw [hs]
      exact hstart
    · rw [hs]
      exact hstop
  exact Ends.get (Ends.bind (hcarried.mono (fun _ _ hfalse => hfalse.elim) fun _ _ =>
    Overrun.behind hprogress.noWorse hs hb))

end Container
end TieredStore
