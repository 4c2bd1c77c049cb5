import TieredStore.Proofs.Container.Joining

/-!
# Whole flushes

A flush goes on in rounds: it copies all that can be copied and then carries out
all merges that are ready.  Each round that does something leaves less to be
flushed, and one that does nothing leaves nothing.  So a flush that succeeds has
flushed everything, however many more rounds it might have made.

A flush may break off at any call of the tier.  What it has done by then keeps a
container traced, for the same contents and the same log, and even tracked if
writes of the tier fail all or not at all.
-/

namespace TieredStore

namespace Table

variable {table : Table} {content : Contents}

/-! ## Nothing left to do -/

theorem flushed_of_full (hconsistent : table.Consistent content) (hfull : table.Full)
    (hnone : table.mergeTargets = []) : table.Flushed := by
  intro id s hs
  have hstored := hfull id s hs
  cases hpending : s.pending with
  | nil =>
      rw [Segment.limit_of_nil hpending] at hstored
      exact ⟨rfl, hstored⟩
  | cons m rest =>
      rw [Segment.limit_of_cons hpending] at hstored
      rcases hconsistent.backed hs m (by rw [hpending]; exact List.mem_cons_self) with
        ⟨b, hb, hparent, -⟩
      have hcomplete := hfull _ b hb
      rw [Segment.limit_of_nil (hconsistent.pending_of_parent hb hparent)] at hcomplete
      have hready : table.Ready
          { parent := id, parentName := s.name, batchName := b.name, merge := m } s b rest :=
        { parent := hs, pending := hpending, parentName := rfl, stored := hstored, batch := hb,
          batchName := rfl, complete := hcomplete }
      have hmem := hready.mem_mergeTargets hconsistent
      rw [hnone] at hmem
      cases hmem

theorem Flushed.flushTargets_eq (h : table.Flushed) : table.flushTargets = [] := by
  refine List.filterMap_eq_nil_iff.mpr ?_
  intro s hs
  rcases mem_list.mp hs with ⟨id, hget⟩
  rcases h id s hget with ⟨hpending, hstored⟩
  unfold flushTarget?
  rw [hpending]
  exact if_neg (Nat.not_lt.mpr (Nat.le_of_eq hstored.symm))

theorem Flushed.mergeTargets_eq (h : table.Flushed) : table.mergeTargets = [] := by
  refine List.filterMap_eq_nil_iff.mpr ?_
  intro s hs
  rcases mem_list.mp hs with ⟨id, hget⟩
  unfold mergeTarget?
  rw [(h id s hget).1]
  rfl

theorem Flushed.merged_eq (h : table.Flushed) (haccounted : table.Accounted) {id : SegmentId}
    {s : Segment} (hs : table.get? id = some s) : s.merged = false := by
  cases hmerged : s.merged with
  | false => rfl
  | true =>
      rcases haccounted id s hs hmerged with ⟨p, t, m, ht, hm, -⟩
      rw [(h p t ht).1] at hm
      cases hm

end Table

namespace Container

theorem flush_of_flushed {τ : Type} [Tier τ] {c : Container τ} (h : c.table.Flushed) :
    flush.run c = .ok {} c := by
  have hcopied : (flushSegments {} c.table.flushTargets : ContainerM τ FlushStats).run c =
      .ok {} c := by
    rw [h.flushTargets_eq]
    rfl
  have hjoined : (carryOutAll {} c.table.mergeTargets : ContainerM τ FlushStats).run c =
      .ok {} c := by
    rw [h.mergeTargets_eq]
    rfl
  unfold flush flushRounds
  simp only [EStateM.run_bind, EStateM.run_get, hcopied, hjoined]
  rfl

variable {τ : Type} [Tier τ] [LawfulTier τ] {broken : Prop} {content : Contents}
  {replayed : Table} {c middle after : Container τ}

structure Forward (broken : Prop) (content : Contents) (replayed : Table)
    (c after : Container τ) : Prop where
  tracked : after.held.Tracked broken content replayed
  advances : c.table.Advances after.table
  noWorse : NoWorse c.tier after.tier

/-- A flush has broken off: objects may have got more than the table knows. -/
structure BrokenOff (broken : Prop) (content : Contents) (replayed : Table)
    (c after : Container τ) : Prop where
  traced : after.held.Traced broken content replayed
  aligned : TierView.Steady τ → after.table.AlignedIn broken after.held.tier
  advances : c.table.Advances after.table
  noWorse : NoWorse c.tier after.tier
  callsFail : CallsFail c.tier

theorem Forward.refl (h : c.held.Tracked broken content replayed) :
    Forward broken content replayed c c where
  tracked := h
  advances := Table.Advances.refl _
  noWorse := NoWorse.refl _

theorem Forward.trans (h : Forward broken content replayed c middle)
    (hafter : Forward broken content replayed middle after) :
    Forward broken content replayed c after where
  tracked := hafter.tracked
  advances := h.advances.trans hafter.advances
  noWorse := h.noWorse.trans hafter.noWorse

theorem BrokenOff.behind (h : Forward broken content replayed c middle)
    (hafter : BrokenOff broken content replayed middle after) :
    BrokenOff broken content replayed c after :=
  { hafter with
    advances := h.advances.trans hafter.advances
    noWorse := h.noWorse.trans hafter.noWorse
    callsFail := h.noWorse.calls hafter.callsFail }

theorem BrokenOff.of_forward (h : Forward broken content replayed c after)
    (hfails : CallsFail c.tier) : BrokenOff broken content replayed c after where
  traced := h.tracked.traced
  aligned := fun _ => h.tracked.aligned
  advances := h.advances
  noWorse := h.noWorse
  callsFail := hfails

/-- All bytes of all segments are in the tier, and nothing else. -/
structure AllStored (content : Contents) (c : Container FlakyTier) : Prop where
  segments : ∀ id s, c.table.get? id = some s → s.storageLength = s.length ∧
    s.pending = [] ∧ s.merged = false ∧ c.tier.bytes s.name = content id
  objects : ∀ name bytes, c.tier.object? name = some bytes →
    ∃ id s, c.table.get? id = some s ∧ s.name = name ∧ bytes = content id

theorem Tracked.allStored {c : Container FlakyTier} (h : c.Tracked broken content replayed)
    (hflushed : c.table.Flushed) : c.AllStored content where
  segments := by
    intro id s hs
    rcases hflushed id s hs with ⟨hpending, hstored⟩
    exact ⟨hstored, hpending, hflushed.merged_eq h.accounted hs,
      h.sound.bytes_of_complete hs hstored⟩
  objects := by
    intro name bytes hobject
    rcases h.sound.stored.owned hobject with ⟨id, s, hs, rfl⟩
    refine ⟨id, s, hs, rfl, ?_⟩
    rw [← FlakyTier.bytes_of_object? hobject]
    exact h.sound.bytes_of_complete hs (hflushed id s hs).2

/-! ## Copying -/

theorem Progress.traced {exact : Prop} (h : Progress exact content c after)
    (hc : c.held.Tracked broken content replayed) : after.held.Traced broken content replayed where
  sound := h.sound
  settled := h.settledIn hc.sound hc.aligned
  accounted := hc.accounted.raises h.raises
  follows := h.raises.follows hc.follows
  replayed := hc.replayed

theorem Progress.forward (h : Progress True content c after)
    (hc : c.held.Tracked broken content replayed) : Forward broken content replayed c after where
  tracked := (h.traced hc).tracked (h.alignedIn hc.aligned trivial)
  advances := h.raises.advances
  noWorse := h.noWorse

theorem Progress.brokenOff (h : Progress (TierView.Steady τ) content c after)
    (hc : c.held.Tracked broken content replayed) (hfails : CallsFail c.tier) :
    BrokenOff broken content replayed c after where
  traced := h.traced hc
  aligned := h.alignedIn hc.aligned
  advances := h.raises.advances
  noWorse := h.noWorse
  callsFail := hfails

/-! ## Joining -/

section Merge

variable {target : MergeTarget} {s b : Segment} {rest : List PendingMerge}

theorem Finished.forward (h : Finished content target s b c after)
    (hc : c.held.Tracked broken content replayed) (hready : c.table.Ready target s b rest) :
    Forward broken content replayed c after where
  tracked := by
    have htable : after.held.table = c.table.joined target.parent target.merge := h.table_eq
    have hstored : (s.joined target.merge).storageLength = target.merge.stop := by
      show max s.storageLength target.merge.stop = _
      rw [hready.stored]
      exact Nat.max_eq_right (Nat.le_add_right _ _)
    refine { sound := h.sound, aligned := ?_, accounted := ?_, follows := ?_,
             replayed := hc.replayed }
    · rw [htable]
      exact Table.EndsIn.joined hc.aligned hc.sound.wellFormed hc.sound.consistent hready.parent
        hready.pending hready.batch (h.length_eq.trans hstored.symm) h.others
    · rw [htable]
      exact hc.accounted.joined hc.sound.consistent hready.parent hready.pending
    · rw [htable]
      exact hc.follows.joined hc.replayed hc.sound.consistent hready.parent hready.pending
  advances := by
    rw [h.table_eq]
    exact .joined hready.parent hready.pending
  noWorse := h.noWorse

theorem Halted.forward (h : Halted broken content target s c after)
    (hc : c.held.Tracked broken content replayed) (hready : c.table.Ready target s b rest) :
    Forward broken content replayed c after := by
  have htable : after.table = c.table := h.segments.table_eq
  have haligned : c.table.AlignedIn broken after.held.tier := by
    intro id t ht
    by_cases hname : t.name = s.name
    · have hid := hc.sound.wellFormed.name_inj ht hready.parent hname
      rw [hid] at ht
      have heq := Option.some.inj (ht.symm.trans hready.parent)
      rw [heq]
      rcases h.length_eq with hbefore | hbehind
      · exact Or.inl (hbefore.trans hready.stored.symm)
      · refine Or.inr ⟨hbehind.1, target.merge, b, ?_, hready.stored, hbehind.2, hready.batch,
          hready.complete⟩
        rw [hready.pending]
        rfl
    · rcases hc.aligned id t ht with heq | hdoubled
      · left
        rw [h.others hname]
        exact heq
      · exact Or.inr ⟨hdoubled.1, hdoubled.2.of_same_bytes (h.others hname)⟩
  refine { tracked := ?_, advances := ?_, noWorse := h.segments.noWorse }
  · exact
      { sound := h.sound
        aligned := by
          show after.table.AlignedIn broken _
          rw [htable]
          exact haligned
        accounted := by
          show after.table.Accounted
          rw [htable]
          exact hc.accounted
        follows := by
          show replayed.Follows after.table
          rw [htable]
          exact hc.follows
        replayed := hc.replayed }
  · rw [htable]
    exact Table.Advances.refl _

theorem carryOutAll_ends :
    ∀ (targets : List MergeTarget) (stats : FlushStats) {c : Container τ},
      c.held.Tracked broken content replayed → (JoinsBreak c.tier → broken) →
      targets.Pairwise (fun a b => a.parent ≠ b.parent) →
      (∀ target ∈ targets, ∃ s b rest, c.table.Ready target s b rest) →
      Ends (carryOutAll stats targets) c
        (fun joined after => Forward broken content replayed c after ∧
          after.table.unflushed + targets.length ≤ c.table.unflushed ∧
          joined = { stats with merges := stats.merges + targets.length })
        (fun _ after => BrokenOff broken content replayed c after)
  | [], stats, c, h, _, _, _ => Ends.pure ⟨Forward.refl h, Nat.le_refl _, rfl⟩
  | target :: rest, stats, c, h, hjoins, hapart, hready => by
      rcases List.pairwise_cons.mp hapart with ⟨hfirst, hapart⟩
      rcases hready target List.mem_cons_self with ⟨s, b, others, htarget⟩
      have hlength := Table.Ready.parent_length (c := c.held) htarget h.aligned
      unfold carryOutAll
      refine Ends.bind ((carryOut_ends h.sound htarget hlength hjoins).mono ?_ ?_)
      · intro _ middle hmiddle
        have hforward := hmiddle.forward h htarget
        have hless := Table.unflushed_joined_lt htarget.parent htarget.pending
        rw [← hmiddle.table_eq] at hless
        refine (carryOutAll_ends rest _ hforward.tracked (fun hbreak =>
          hjoins (hforward.noWorse.joins hbreak)) hapart ?_).mono ?_ ?_
        · intro other hother
          rcases hready other (List.mem_cons_of_mem _ hother) with ⟨s', b', rest', hother'⟩
          exact ⟨s', b', rest',
            (hmiddle.keeps h.sound htarget hother' (hfirst other hother).symm).1⟩
        · intro joined after hafter
          rcases hafter with ⟨hafter, hunflushed, heq⟩
          refine ⟨hforward.trans hafter, ?_, ?_⟩
          · rw [List.length_cons]
            omega
          · rw [heq, List.length_cons, Nat.add_assoc, Nat.add_comm 1]
        · intro _ after hafter
          exact .behind hforward hafter
      · intro _ after hafter
        exact .of_forward (hafter.1.forward h htarget) hafter.2

end Merge

theorem Sound.ready_of_mergeTarget? {c : Container FlakyTier} (h : c.Sound content) {s : Segment}
    {target : MergeTarget} (hs : s ∈ c.table.list)
    (htarget : c.table.mergeTarget? s = some target) :
    target.parent = s.id ∧ ∃ b rest, c.table.Ready target s b rest := by
  have hget := h.wellFormed.mem_list_iff.mp hs
  unfold Table.mergeTarget? at htarget
  cases hpending : s.pending with
  | nil =>
      rw [hpending] at htarget
      cases htarget
  | cons m rest =>
      rw [hpending] at htarget
      cases hbatch : c.table.get? m.batch with
      | none =>
          simp [hbatch] at htarget
      | some b =>
          simp only [List.head?_cons, Option.bind_eq_bind, Option.bind_some, hbatch] at htarget
          split at htarget
          · rename_i hready
            cases htarget
            exact ⟨rfl, b, rest, { parent := hget, pending := hpending, parentName := rfl,
                                   stored := hready.1, batch := hbatch, batchName := rfl,
                                   complete := hready.2 }⟩
          · cases htarget

theorem Sound.mergeTargets_ready {c : Container FlakyTier} (h : c.Sound content) :
    c.table.mergeTargets.Pairwise (fun a b => a.parent ≠ b.parent) ∧
      ∀ target ∈ c.table.mergeTargets, ∃ s b rest, c.table.Ready target s b rest := by
  constructor
  · unfold Table.mergeTargets
    rw [List.pairwise_filterMap]
    refine h.wellFormed.ids_ascending.imp_of_mem ?_
    intro s t hs ht hlt a ha b hb heq
    rw [(h.ready_of_mergeTarget? hs ha).1, (h.ready_of_mergeTarget? ht hb).1] at heq
    rw [heq] at hlt
    exact Nat.lt_irrefl _ hlt
  · intro target htarget
    rcases List.mem_filterMap.mp htarget with ⟨s, hs, hsome⟩
    exact ⟨s, (h.ready_of_mergeTarget? hs hsome).2⟩

/-! ## Rounds -/

section Round

variable {τ : Type} [Tier τ]

def flushRound (stats : FlushStats) : ContainerM τ FlushStats := do
  let copied ← flushSegments stats (← get).table.flushTargets
  carryOutAll copied (← get).table.mergeTargets

theorem flushRounds_succ (fuel : Nat) (stats : FlushStats) :
    (flushRounds (fuel + 1) stats : ContainerM τ FlushStats) = (do
      let joined ← flushRound stats
      if joined = stats then return stats else flushRounds fuel joined) := by
  unfold flushRound
  simp only [bind_assoc]
  rfl

end Round

theorem flushRound_ends (h : c.held.Tracked broken content replayed)
    (hjoins : JoinsBreak c.tier → broken) (stats : FlushStats) :
    Ends (flushRound stats) c
      (fun joined after => Forward broken content replayed c after ∧
        (joined = stats → after.table.Flushed) ∧
        (joined ≠ stats → after.table.unflushed < c.table.unflushed))
      (fun _ after => BrokenOff broken content replayed c after) := by
  unfold flushRound
  refine Ends.get (Ends.bind ((copyAll_ends h.sound h.aligned.copyable stats).mono ?_ ?_))
  · intro copied middle hmiddle
    rcases hmiddle with ⟨hprogress, hfull, hunflushed, hbytes, hmerges, hsame⟩
    have hforward := hprogress.forward h
    refine Ends.get ?_
    by_cases hnone : middle.table.mergeTargets = []
    · rw [hnone]
      refine Ends.pure ⟨hforward, fun _ => ?_, fun hbusy => ?_⟩
      · exact Table.flushed_of_full hforward.tracked.sound.consistent hfull hnone
      · have hcopied := List.length_pos_iff.mpr fun hnil => hbusy (hsame hnil)
        omega
    · have hjoin := List.length_pos_iff.mpr hnone
      have hready := hforward.tracked.sound.mergeTargets_ready
      refine (carryOutAll_ends middle.table.mergeTargets copied hforward.tracked (fun hbreak =>
        hjoins (hforward.noWorse.joins hbreak)) hready.1 hready.2).mono ?_ ?_
      · intro joined last hlast
        rcases hlast with ⟨hlast, hless, heq⟩
        refine ⟨hforward.trans hlast, fun hidle => ?_, fun _ => by omega⟩
        have hmerged : joined.merges = stats.merges + middle.table.mergeTargets.length := by
          rw [heq, ← hmerges]
        rw [hidle] at hmerged
        omega
      · intro _ last hlast
        exact .behind hforward hlast
  · intro _ middle hmiddle
    exact hmiddle.1.brokenOff h hmiddle.2

/-- With as many rounds as there is left to be flushed, nothing is left. -/
theorem flushRounds_ends :
    ∀ (fuel : Nat) (stats : FlushStats) {c : Container τ},
      c.held.Tracked broken content replayed → (JoinsBreak c.tier → broken) →
      c.table.unflushed < fuel →
      Ends (flushRounds fuel stats) c
        (fun _ after => Forward broken content replayed c after ∧ after.table.Flushed)
        (fun _ after => BrokenOff broken content replayed c after)
  | 0, _, _, _, _, hfuel => absurd hfuel (Nat.not_lt_zero _)
  | fuel + 1, stats, c, h, hjoins, hfuel => by
      rw [flushRounds_succ]
      refine Ends.bind ((flushRound_ends h hjoins stats).mono ?_ ?_)
      · intro joined middle hmiddle
        rcases hmiddle with ⟨hforward, hidle, hbusy⟩
        by_cases hsame : joined = stats
        · rw [if_pos hsame]
          exact Ends.pure ⟨hforward, hidle hsame⟩
        · rw [if_neg hsame]
          have hless := hbusy hsame
          refine (flushRounds_ends fuel joined hforward.tracked (fun hbreak =>
            hjoins (hforward.noWorse.joins hbreak)) (by omega)).mono ?_ ?_
          · intro _ after hafter
            exact ⟨hforward.trans hafter.1, hafter.2⟩
          · intro _ after hafter
            exact .behind hforward hafter
      · intro _ middle hmiddle
        exact hmiddle

theorem flushRounds_add :
    ∀ (fuel more : Nat) (stats : FlushStats) {c : Container τ},
      c.held.Tracked broken content replayed → (JoinsBreak c.tier → broken) →
      c.table.unflushed < fuel →
      (flushRounds (fuel + more) stats).run c = (flushRounds fuel stats).run c
  | 0, _, _, _, _, _, hfuel => absurd hfuel (Nat.not_lt_zero _)
  | fuel + 1, more, stats, c, h, hjoins, hfuel => by
      have hround := flushRound_ends h hjoins stats
      rw [Nat.succ_add_eq_add_succ, Nat.add_succ, flushRounds_succ, flushRounds_succ,
        EStateM.run_bind, EStateM.run_bind]
      cases hrun : (flushRound stats).run c with
      | error e after => rfl
      | ok joined middle =>
          rcases hround.ok hrun with ⟨hforward, -, hbusy⟩
          by_cases hsame : joined = stats
          · simp only [if_pos hsame]
          · simp only [if_neg hsame]
            have hless := hbusy hsame
            exact flushRounds_add fuel more joined hforward.tracked (fun hbreak =>
              hjoins (hforward.noWorse.joins hbreak)) (by omega)

/-- A flush makes as many rounds as it needs. -/
theorem flush_eq_flushRounds (h : c.held.Tracked broken content replayed)
    (hjoins : JoinsBreak c.tier → broken) {fuel : Nat} (hfuel : c.table.unflushed < fuel) :
    flush.run c = (flushRounds fuel {}).run c := by
  rcases Nat.exists_eq_add_of_lt hfuel with ⟨more, heq⟩
  rw [heq, Nat.add_right_comm]
  exact (flushRounds_add _ more {} h hjoins (Nat.lt_succ_self _)).symm

/-- A flush flushes everything, unless a call of the tier fails. -/
theorem flush_ends (h : c.held.Tracked broken content replayed)
    (hjoins : JoinsBreak c.tier → broken) :
    Ends flush c (fun _ after => Forward broken content replayed c after ∧ after.table.Flushed)
      (fun _ after => BrokenOff broken content replayed c after) :=
  Ends.get (flushRounds_ends _ _ h hjoins (Nat.lt_succ_self _))

end Container
end TieredStore
