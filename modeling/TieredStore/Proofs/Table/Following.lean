import TieredStore.Proofs.Table.Applying
import TieredStore.Proofs.Table.Unlogged

/-!
# Replayed tables

A table that is replayed from a log knows nothing of the changes that were not
logged.  It follows the live table: what it has of a segment that is still live
differs only in how much the tier holds and in merges that are finished, and what
it has beyond that are the batches of finished merges.

Operations lead from tables of which one follows the other to such tables again,
and the live table can change without being logged.
-/

namespace TieredStore

/-- What is replayed of a segment: the tier may hold less, and finished merges are pending. -/
def Segment.Follows (live : Table) (s r : Segment) : Prop :=
  ∃ stored done, r = { s with storageLength := stored, pending := done ++ s.pending } ∧
    stored ≤ s.storageLength ∧ ∀ m ∈ done, live.get? m.batch = none ∧ m.stop ≤ s.storageLength

/-- The first table is replayed from a log of the second. -/
structure Table.Follows (replayed live : Table) : Prop where
  nextId_eq : replayed.nextId = live.nextId
  known : ∀ {id s}, live.get? id = some s →
    ∃ r, replayed.get? id = some r ∧ s.Follows live r
  gone : ∀ {id r}, replayed.get? id = some r → live.get? id = none →
    ∃ p s rp m, live.get? p = some s ∧ replayed.get? p = some rp ∧ m ∈ rp.pending ∧ m.batch = id

namespace Segment.Follows

variable {live after : Table} {s r : Segment}

theorem refl (live : Table) (s : Segment) : s.Follows live s :=
  ⟨s.storageLength, [], rfl, Nat.le_refl _, fun _ hm => nomatch hm⟩

theorem of_gone (h : s.Follows live r)
    (hgone : ∀ m ∈ r.pending, live.get? m.batch = none → after.get? m.batch = none) :
    s.Follows after r := by
  rcases h with ⟨stored, done, heq, hle, hdone⟩
  refine ⟨stored, done, heq, hle, ?_⟩
  intro m hm
  rcases hdone m hm with ⟨hnone, hstop⟩
  refine ⟨hgone m ?_ hnone, hstop⟩
  rw [heq]
  exact List.mem_append_left _ hm

theorem joined (h : s.Follows live r) {m : PendingMerge} {rest : List PendingMerge}
    (hpending : s.pending = m :: rest) (hbatch : after.get? m.batch = none)
    (hgone : ∀ other, live.get? other = none → after.get? other = none) :
    (s.joined m).Follows after r := by
  rcases h with ⟨stored, done, heq, hle, hdone⟩
  refine ⟨stored, done ++ [m], ?_, Nat.le_trans hle (Nat.le_max_left _ _), ?_⟩
  · rw [heq]
    unfold Segment.joined
    simp only [hpending, List.tail_cons, List.append_assoc, List.singleton_append]
  · intro m' hm'
    rcases List.mem_append.mp hm' with hold | hnew
    · rcases hdone m' hold with ⟨hnone, hstop⟩
      exact ⟨hgone _ hnone, Nat.le_trans hstop (Nat.le_max_left _ _)⟩
    · rw [List.mem_singleton.mp hnew]
      exact ⟨hbatch, Nat.le_max_right _ _⟩

theorem caughtUp (h : s.Follows live r) {m : PendingMerge} {rest : List PendingMerge}
    (hpending : r.pending = m :: rest) (hm : m ∉ s.pending) : s.Follows live (r.joined m) := by
  rcases h with ⟨stored, done, heq, hle, hdone⟩
  cases done with
  | nil =>
      rw [heq] at hpending
      refine absurd ?_ hm
      rw [show s.pending = m :: rest from hpending]
      exact List.mem_cons_self
  | cons first more =>
      rw [heq] at hpending
      cases hpending
      refine ⟨max stored m.stop, more, ?_, ?_, ?_⟩
      · rw [heq]
        rfl
      · exact Nat.max_le.mpr ⟨hle, (hdone m List.mem_cons_self).2⟩
      · intro m' hm'
        exact hdone m' (List.mem_cons_of_mem _ hm')

end Segment.Follows

namespace Table.Follows

variable {replayed live : Table} {content : Contents} {id : SegmentId} {s : Segment}

theorem refl (table : Table) : table.Follows table where
  nextId_eq := rfl
  known := fun hs => ⟨_, hs, Segment.Follows.refl _ _⟩
  gone := by
    intro id r hr hnone
    rw [hnone] at hr
    cases hr

theorem get?_modify_eq_none_iff {table : Table} {change : Segment → Segment} {other : SegmentId} :
    (table.modify id change).get? other = none ↔ table.get? other = none := by
  by_cases hother : other = id
  · subst hother
    rw [get?_modify_self, Option.map_eq_none_iff]
  · rw [get?_modify_of_ne table hother]

/-!
## Logged changes
-/

theorem modify (h : replayed.Follows live) (hs : live.get? id = some s)
    {change : Segment → Segment} (hstored : (change s).storageLength = s.storageLength)
    (hpending : ∀ m ∈ s.pending, m ∈ (change s).pending)
    (hcommute : ∀ stored done,
      change { s with storageLength := stored, pending := done ++ s.pending } =
        { change s with storageLength := stored, pending := done ++ (change s).pending }) :
    (replayed.modify id change).Follows (live.modify id change) := by
  have hgone : ∀ {other}, live.get? other = none → (live.modify id change).get? other = none :=
    fun hnone => get?_modify_eq_none_iff.mpr hnone
  refine { nextId_eq := h.nextId_eq, known := ?_, gone := ?_ }
  · intro other t ht
    rcases changed_or_kept hs ht with ⟨rfl, rfl⟩ | ⟨hother, hold⟩
    · rcases h.known hs with ⟨r, hr, stored, done, heq, hle, hdone⟩
      refine ⟨change r, ?_, stored, done, ?_, ?_, ?_⟩
      · rw [get?_modify_self, hr]
        rfl
      · rw [heq]
        exact hcommute stored done
      · rw [hstored]
        exact hle
      · intro m hm
        rw [hstored]
        exact ⟨hgone (hdone m hm).1, (hdone m hm).2⟩
    · rcases h.known hold with ⟨r, hr, hfollows⟩
      refine ⟨r, ?_, hfollows.of_gone fun m _ hnone => hgone hnone⟩
      rw [get?_modify_of_ne replayed hother]
      exact hr
  · intro other r hr hnone
    have hnone := get?_modify_eq_none_iff.mp hnone
    have hother : other ≠ id := by
      intro heq
      rw [heq, hs] at hnone
      cases hnone
    rw [get?_modify_of_ne replayed hother] at hr
    rcases h.gone hr hnone with ⟨p, t, rp, m, ht, hrp, hm, hbatch⟩
    by_cases hp : p = id
    · subst hp
      rw [hs] at ht
      cases ht
      rcases h.known hs with ⟨rp', hrp', stored, done, heq, -⟩
      rw [hrp] at hrp'
      cases hrp'
      refine ⟨p, change s, change rp, m, ?_, ?_, ?_, hbatch⟩
      · rw [get?_modify_self, hs]
        rfl
      · rw [get?_modify_self, hrp]
        rfl
      · rw [heq] at hm ⊢
        rw [hcommute]
        rcases List.mem_append.mp hm with hdone | hold
        · exact List.mem_append_left _ hdone
        · exact List.mem_append_right _ (hpending m hold)
    · refine ⟨p, t, rp, m, ?_, ?_, hm, hbatch⟩
      · rw [get?_modify_of_ne live hp]
        exact ht
      · rw [get?_modify_of_ne replayed hp]
        exact hrp

theorem add (h : replayed.Follows live) (hreplayed : replayed.Consistent content)
    (hlive : live.Consistent content) (hfresh : live.nextId ≤ s.id) :
    (replayed.add s).Follows (live.add s) := by
  have hne : ∀ {other r}, replayed.get? other = some r → other ≠ s.id := by
    intro other r hr heq
    have hlt := hreplayed.id_lt hr
    rw [h.nextId_eq, heq] at hlt
    exact absurd hlt (Nat.not_lt.mpr hfresh)
  have hnelive : ∀ {other t}, live.get? other = some t → other ≠ s.id := by
    intro other t ht heq
    have hlt := hlive.id_lt ht
    rw [heq] at hlt
    exact absurd hlt (Nat.not_lt.mpr hfresh)
  refine { nextId_eq := ?_, known := ?_, gone := ?_ }
  · show max replayed.nextId _ = max live.nextId _
    rw [h.nextId_eq]
  · intro other t ht
    by_cases hother : other = s.id
    · rw [hother, get?_add_self] at ht
      cases ht
      rw [hother]
      exact ⟨s, get?_add_self _ _, Segment.Follows.refl _ _⟩
    · rw [get?_add_of_ne live hother] at ht
      rcases h.known ht with ⟨r, hr, hfollows⟩
      refine ⟨r, ?_, hfollows.of_gone ?_⟩
      · rw [get?_add_of_ne replayed hother]
        exact hr
      · intro m hm hnone
        rcases hreplayed.backed hr m hm with ⟨b, hb, -⟩
        rw [get?_add_of_ne live (hne hb)]
        exact hnone
  · intro other r hr hnone
    have hother : other ≠ s.id := by
      intro heq
      rw [heq, get?_add_self] at hnone
      cases hnone
    rw [get?_add_of_ne replayed hother] at hr
    rw [get?_add_of_ne live hother] at hnone
    rcases h.gone hr hnone with ⟨p, t, rp, m, ht, hrp, hm, hbatch⟩
    refine ⟨p, t, rp, m, ?_, ?_, hm, hbatch⟩
    · rw [get?_add_of_ne live (hnelive ht)]
      exact ht
    · rw [get?_add_of_ne replayed (hne hrp)]
      exact hrp

/-- An operation that is logged leads to tables of which one follows the other again. -/
theorem perform (h : replayed.Follows live) (hreplayed : replayed.Consistent content)
    (hlive : live.Consistent content) {op : Operation} (hop : op.Regular content live) :
    (replayed.perform op).Follows (live.perform op) := by
  cases op with
  | append segment offset client event data =>
      rcases hop.fits with ⟨s, hs, -⟩
      exact h.modify hs rfl (fun m hm => hm) fun _ _ => rfl
  | «seal» segment length =>
      rcases hop.fits with ⟨s, hs, -⟩
      exact h.modify hs rfl (fun m hm => hm) fun _ _ => rfl
  | merge parent batch length offset =>
      rcases hop.fits with ⟨s, b, hs, hb, -, hmerged, hbparent, -⟩
      rw [hlive.id_eq hs] at hbparent
      have hne : parent ≠ batch := hlive.parent_ne hb hbparent
      have hsealed : (replayed.modify batch ({ · with merged := true })).Follows
          (live.modify batch ({ · with merged := true })) :=
        h.modify hb rfl (fun m hm => hm) fun _ _ => rfl
      have hs' : (live.modify batch ({ · with merged := true })).get? parent = some s := by
        rw [get?_modify_of_ne live hne]
        exact hs
      refine hsealed.modify hs' rfl (fun m hm => List.mem_append_left _ hm) ?_
      intro stored done
      simp only [List.append_assoc]
  | checkpoint snapshot => exact refl snapshot
  | create segment name => exact h.add hreplayed hlive (hop.fresh segment rfl)
  | createBatch batch name parent => exact h.add hreplayed hlive (hop.fresh batch rfl)
  | truncate segment offset =>
      rcases hop.fits with ⟨s, hs, -⟩
      exact h.modify hs rfl (fun m hm => hm) fun _ _ => rfl

theorem fits (h : replayed.Follows live) (hreplayed : replayed.Consistent content) {op : Operation}
    (hop : op.Regular content live) : op.Fits replayed := by
  have hnone : ∀ id, op.created? = some id → replayed.get? id = none := by
    intro id hid
    cases hr : replayed.get? id with
    | none => rfl
    | some r =>
        have hlt := hreplayed.id_lt hr
        rw [h.nextId_eq] at hlt
        exact absurd hlt (Nat.not_lt.mpr (hop.fresh id hid))
  cases op with
  | append segment offset client event data =>
      rcases hop.fits with ⟨s, hs, hwritable, hfacts⟩
      rcases h.known hs with ⟨r, hr, stored, done, heq, -⟩
      subst heq
      exact ⟨_, hr, ⟨hwritable.merged, hwritable.sealed⟩, hfacts⟩
  | «seal» segment length =>
      rcases hop.fits with ⟨s, hs, hwritable, hfacts⟩
      rcases h.known hs with ⟨r, hr, stored, done, heq, -⟩
      subst heq
      exact ⟨_, hr, ⟨hwritable.merged, hwritable.sealed⟩, hfacts⟩
  | merge parent batch length offset =>
      rcases hop.fits with ⟨s, b, hs, hb, hwritable, hfacts⟩
      rcases h.known hs with ⟨r, hr, stored, done, heq, -⟩
      rcases h.known hb with ⟨rb, hrb, storedb, doneb, heqb, -⟩
      subst heq
      subst heqb
      exact ⟨_, _, hr, hrb, ⟨hwritable.merged, hwritable.sealed⟩, hfacts⟩
  | checkpoint snapshot => trivial
  | create segment name => exact ⟨hop.fits.1, hnone segment rfl⟩
  | createBatch batch name parent =>
      rcases hop.fits with ⟨hname, -, s, hs, hwritable, hparent⟩
      rcases h.known hs with ⟨r, hr, stored, done, heq, -⟩
      subst heq
      exact ⟨hname, hnone batch rfl, _, hr, ⟨hwritable.merged, hwritable.sealed⟩, hparent⟩
  | truncate segment offset =>
      rcases hop.fits with ⟨s, hs, hfacts⟩
      rcases h.known hs with ⟨r, hr, stored, done, heq, -⟩
      subst heq
      exact ⟨_, hr, hfacts⟩

theorem regular (h : replayed.Follows live) (hreplayed : replayed.Consistent content)
    {op : Operation} (hop : op.Regular content live) : op.Regular content replayed where
  fits := h.fits hreplayed hop
  fresh := by
    rw [h.nextId_eq]
    exact hop.fresh
  snapshot := hop.snapshot

/-!
## Changes that are not logged
-/

/-- A batch has no pending merges, not even in the replayed table. -/
theorem pending_of_parent (h : replayed.Follows live) (hreplayed : replayed.Consistent content)
    {b rb : Segment} {p : SegmentId} (hb : live.get? id = some b) (hparent : b.parent = some p)
    (hrb : replayed.get? id = some rb) : rb.pending = [] := by
  rcases h.known hb with ⟨r, hr, stored, done, heq, -⟩
  rw [hrb] at hr
  cases hr
  refine hreplayed.pending_of_parent hrb (p := p) ?_
  rw [heq]
  exact hparent

theorem joined (h : replayed.Follows live) (hreplayed : replayed.Consistent content)
    (hlive : live.Consistent content) {m : PendingMerge} {rest : List PendingMerge}
    (hs : live.get? id = some s) (hpending : s.pending = m :: rest) :
    replayed.Follows (live.joined id m) := by
  have hbacked := hlive.backed hs m (by rw [hpending]; exact List.mem_cons_self)
  have hne := hlive.batch_ne hbacked
  have hgone : ∀ {other}, (live.joined id m).get? other = none ↔
      other = m.batch ∨ live.get? other = none := get?_joined_eq_none_iff hs hne.symm
  rcases h.known hs with ⟨r, hr, hfollows⟩
  refine { nextId_eq := h.nextId_eq, known := ?_, gone := ?_ }
  · intro other t ht
    rcases (joined_or_kept hs ht).2 with ⟨rfl, rfl⟩ | ⟨-, hold⟩
    · exact ⟨r, hr, hfollows.joined hpending (hgone.mpr (Or.inl rfl))
        fun _ hnone => hgone.mpr (Or.inr hnone)⟩
    · rcases h.known hold with ⟨r', hr', hfollows'⟩
      exact ⟨r', hr', hfollows'.of_gone fun m _ hnone => hgone.mpr (Or.inr hnone)⟩
  · intro other r' hr' hnone
    rcases hgone.mp hnone with rfl | hlivenone
    · refine ⟨id, s.joined m, r, m, get?_joined_parent hs hne.symm, hr, ?_, rfl⟩
      rcases hfollows with ⟨stored, done, heq, -⟩
      rw [heq, hpending]
      exact List.mem_append_right _ List.mem_cons_self
    · rcases h.gone hr' hlivenone with ⟨p, t, rp, m', ht, hrp, hm', hbatch⟩
      cases hp : (live.joined id m).get? p with
      | some t' => exact ⟨p, t', rp, m', hp, hrp, hm', hbatch⟩
      | none =>
          -- a parent of merges is no batch, so it is not the batch that goes
          rcases hgone.mp hp with rfl | hpnone
          · rcases hbacked with ⟨b, hb, hbparent, -⟩
            rw [h.pending_of_parent hreplayed hb hbparent hrp] at hm'
            cases hm'
          · rw [hpnone] at ht
            cases ht

end Table.Follows
end TieredStore
