import TieredStore.Proofs.Container.Flushing

/-!
# Flushes that cannot go on

A tier takes a write only at the end of an object.  So a flush that succeeds has
found all objects ending where the table says, and one that finds an object ending
elsewhere fails, whatever the tier is.
-/

namespace TieredStore
namespace Container

variable {τ : Type} [Tier τ] [LawfulTier τ] {broken : Prop} {content : Contents}
  {replayed : Table} {c : Container τ} {id : SegmentId} {s : Segment}

/-! ## Objects that end elsewhere -/

/-- A segment of which something is copied ended in the tier where the table says. -/
theorem copyOut_found (h : c.held.Sound content) (hs : c.table.get? id = some s)
    (hmore : s.storageLength < s.limit) :
    Ends (copyOut id s.name s.limit (s.limit - s.storageLength) s.storageLength) c
      (fun _ _ => (c.held.tier.bytes s.name).length = s.storageLength) (fun _ _ => True) := by
  rcases h.exists_cached hs (Nat.le_refl _) hmore (Nat.le_refl _) with ⟨block, hblock, -⟩
  rw [show s.limit - s.storageLength = s.limit - s.storageLength - 1 + 1 by omega]
  unfold copyOut
  rw [if_pos hmore]
  refine Ends.bind ((cached_ends c id s.storageLength (s.limit - s.storageLength)).mono ?_ ?_)
  · intro found looked hfound
    rcases hfound with ⟨hfound, rfl⟩
    replace hblock : found = some block := hfound.trans hblock
    rw [hblock]
    refine Ends.bind (onTier_ends ((LawfulTier.write_ends c.tier s.name s.storageLength
      block).mono ?_ ?_))
    · intro length tier hwrite
      exact Ends.always hwrite.1.1
    · intro _ _ _
      trivial
  · intro _ _ hfalse
    exact hfalse.elim

theorem flushSegment_found (h : c.held.Sound content) {target : FlushTarget}
    (htarget : Copies c.table target s) :
    Ends (flushSegment target) c
      (fun _ _ => (c.held.tier.bytes s.name).length = s.storageLength) (fun _ _ => True) := by
  refine flushSegment_of_copyOut h htarget ?_ fun _ _ _ _ => trivial
  intro middle hmiddle
  have hs : middle.table.get? target.id = some s := by
    rw [hmiddle.table_eq]
    exact htarget.segment
  rw [← hmiddle.length_eq]
  refine Ends.bind ((copyOut_found hmiddle.sound hs htarget.more).mono ?_ ?_)
  · intro _ _ hlength
    exact Ends.always hlength
  · intro _ _ _
    trivial

theorem flushSegments_found :
    ∀ (targets : List FlushTarget) (stats : FlushStats) {c : Container τ},
      c.held.Sound content → targets.Pairwise (fun a b => a.id ≠ b.id) →
      (∀ target ∈ targets, ∃ s, Copies c.table target s) →
      Ends (flushSegments stats targets) c
        (fun _ _ => ∀ target ∈ targets, ∀ s, Copies c.table target s →
          (c.held.tier.bytes s.name).length = s.storageLength)
        (fun _ _ => True)
  | [], _, _, _, _, _ => Ends.pure fun _ htarget => nomatch htarget
  | target :: rest, stats, c, h, hapart, htargets => by
      rcases List.pairwise_cons.mp hapart with ⟨hfirst, hapart⟩
      rcases htargets target List.mem_cons_self with ⟨s, hcopies⟩
      unfold flushSegments
      -- the first object ends where it should and is copied, or the flush stops at it
      by_cases hlength : (c.held.tier.bytes s.name).length = s.storageLength
      · refine Ends.bind ((flushSegment_ends h hcopies hlength).mono ?_ fun _ _ _ => trivial)
        intro written middle hmiddle
        rcases hmiddle with ⟨-, hmiddle, htable, hothers⟩
        have hkeeps : ∀ other ∈ rest, ∀ t, Copies c.table other t →
            Copies middle.table other t ∧
              middle.held.tier.bytes t.name = c.held.tier.bytes t.name := by
          intro other hother t ht
          have hne := (hfirst other hother).symm
          rw [htable]
          exact ⟨ht.of_ne hne _, hothers (Copies.name_ne (c := c.held) ht h hcopies hne)⟩
        refine (flushSegments_found rest _ hmiddle.sound hapart ?_).mono ?_ fun _ _ _ => trivial
        · intro other hother
          rcases htargets other (List.mem_cons_of_mem _ hother) with ⟨t, ht⟩
          exact ⟨t, (hkeeps other hother t ht).1⟩
        · intro _ _ hrest other hother t ht
          rcases List.mem_cons.mp hother with hself | hother
          · subst hself
            cases Option.some.inj (ht.segment.symm.trans hcopies.segment)
            exact hlength
          · rcases hkeeps other hother t ht with ⟨hkept, hbytes⟩
            rw [← hbytes]
            exact hrest other hother t hkept
      · refine Ends.bind ((flushSegment_found h hcopies).mono ?_ fun _ _ _ => trivial)
        intro _ _ hfound
        exact absurd hfound hlength

theorem flush_found (h : c.held.Sound content) (hsettled : c.table.SettledIn broken c.held.tier) :
    Ends flush c (fun _ _ => c.table.AlignedIn broken c.held.tier) (fun _ _ => True) := by
  rcases h.flushTargets_copies with ⟨hapart, hcopies, hlisted⟩
  unfold flush
  refine Ends.get ?_
  unfold flushRounds
  refine Ends.get (Ends.bind ((flushSegments_found c.table.flushTargets {} h hapart
    hcopies).mono ?_ fun _ _ _ => trivial))
  intro _ _ hfound
  refine Ends.always fun id s hs => ?_
  rcases hsettled id s hs with hle | hdoubled
  · left
    have hreaches : s.storageLength ≤ (c.held.tier.bytes s.name).length := h.stored.reaches hs
    by_cases hlt : s.storageLength < s.limit
    · rcases hlisted id s hs hlt with ⟨target, htarget, hid⟩
      rcases hcopies target htarget with ⟨t, ht⟩
      have hsegment := ht.segment
      rw [hid, show c.held.table.get? id = some s from hs] at hsegment
      cases hsegment
      exact hfound target htarget s ht
    · omega
  · exact Or.inr hdoubled

/-- A flush succeeds if and only if all objects end where the table says, unless a call fails. -/
theorem Traced.flush_ends (h : c.held.Traced broken content replayed)
    (hjoins : JoinsBreak c.tier → broken) :
    Ends flush c
      (fun _ after => c.table.AlignedIn broken c.held.tier ∧ after.held.AllStored content)
      (fun _ _ => CallsFail c.tier ∨ ¬ c.table.AlignedIn broken c.held.tier) := by
  by_cases haligned : c.table.AlignedIn broken c.held.tier
  · refine (Container.flush_ends (h.tracked haligned) hjoins).mono ?_ ?_
    · intro _ after hafter
      exact ⟨haligned, hafter.1.tracked.allStored hafter.2⟩
    · intro _ after hbroken
      exact Or.inl hbroken.callsFail
  · refine (flush_found h.sound h.settled).mono ?_ ?_
    · intro _ after hfound
      exact absurd hfound haligned
    · intro _ _ _
      exact Or.inr haligned

end Container
end TieredStore
