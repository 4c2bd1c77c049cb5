import TieredStore.Proofs.Table.Following

/-!
# Merges that the tier has reached

Finishing merges is not logged, so that a replayed table has to find out from the
tier which of them are finished: those whose ends the objects of the parents
reach.  The same is done to the live table, which then is what the replayed table
becomes, apart from how much the tier is known to hold.
-/

namespace TieredStore
namespace Table

variable {table after live replayed : Table} {content : Contents} {id : SegmentId} {s : Segment}
  {reach : String → Nat}

/--
First pending merges were finished, one after the other, whose ends the objects of
the parents reach.
-/
inductive Joins (reach : String → Nat) (table : Table) : Table → Prop
  | refl : Joins reach table table
  | next {middle after : Table} {parent : SegmentId} {s : Segment} {m : PendingMerge}
      {rest : List PendingMerge} (before : Joins reach table middle)
      (found : middle.get? parent = some s) (pending : s.pending = m :: rest)
      (reached : m.stop ≤ reach s.name)
      (completed : middle.completeMerge? parent m.batch = some (m, after)) :
      Joins reach table after

/-- No first pending merge is left whose end the object of the parent reaches. -/
def Unreached (reach : String → Nat) (table : Table) : Prop :=
  ∀ id s m, table.get? id = some s → s.pending.head? = some m → reach s.name < m.stop

/-- The tier holds more of the segments; nothing else has changed. -/
structure Raises (table after : Table) : Prop where
  nextId_eq : after.nextId = table.nextId
  kept : ∀ {id s}, table.get? id = some s →
    ∃ stored, s.storageLength ≤ stored ∧ after.get? id = some { s with storageLength := stored }
  old : ∀ {id t}, after.get? id = some t → ∃ s, table.get? id = some s

/-!
## Finishing merges
-/

namespace Joins

theorem preserves (h : table.Joins reach after) {P : Table → Prop} (htable : P table)
    (hstep : ∀ {middle : Table} {parent s m rest}, P middle → middle.get? parent = some s →
      s.pending = m :: rest → m.stop ≤ reach s.name → P (middle.joined parent m)) : P after := by
  induction h with
  | refl => exact htable
  | next before found pending reached completed ih =>
      rw [completeMerge?_eq found pending] at completed
      cases completed
      exact hstep ih found pending reached

theorem trans {last : Table} (h : table.Joins reach after) (hlast : after.Joins reach last) :
    table.Joins reach last := by
  induction hlast with
  | refl => exact h
  | next _ found pending reached completed ih => exact .next ih found pending reached completed

theorem consistent (h : table.Joins reach after) (htable : table.Consistent content) :
    after.Consistent content :=
  h.preserves htable fun hmiddle found pending _ => hmiddle.joined found pending

theorem follows (h : table.Joins reach after) (hreplayed : replayed.Consistent content)
    (htable : table.Consistent content) (hfollows : replayed.Follows table) :
    replayed.Follows after := by
  have hboth : after.Consistent content ∧ replayed.Follows after := by
    refine h.preserves (P := fun t => t.Consistent content ∧ replayed.Follows t)
      ⟨htable, hfollows⟩ ?_
    intro middle parent s m rest hmiddle found pending _
    exact ⟨hmiddle.1.joined found pending, hmiddle.2.joined hreplayed hmiddle.1 found pending⟩
  exact hboth.2

theorem nextId_eq (h : table.Joins reach after) : after.nextId = table.nextId :=
  h.preserves (P := fun t => t.nextId = table.nextId) rfl fun hmiddle _ _ _ => hmiddle

theorem exists_of_root (h : table.Joins reach after) (htable : table.Consistent content)
    (hs : table.get? id = some s) (hroot : s.parent = none) : ∃ t, after.get? id = some t := by
  have hall : after.Consistent content ∧ ∃ t, after.get? id = some t ∧ t.parent = none := by
    refine h.preserves (P := fun table => table.Consistent content ∧
      ∃ t, table.get? id = some t ∧ t.parent = none) ⟨htable, s, hs, hroot⟩ ?_
    intro middle parent r m rest hmiddle found pending _
    rcases hmiddle with ⟨hconsistent, t, ht, hroot⟩
    refine ⟨hconsistent.joined found pending, ?_⟩
    rcases hconsistent.backed found m (by rw [pending]; exact List.mem_cons_self) with
      ⟨b, hb, hparent, -⟩
    have hne : id ≠ m.batch := by
      intro heq
      rw [heq, hb] at ht
      cases ht
      rw [hparent] at hroot
      cases hroot
    by_cases hself : id = parent
    · subst hself
      rw [found] at ht
      cases ht
      exact ⟨_, get?_joined_parent found hne, hroot⟩
    · exact ⟨t, by rw [get?_joined_of_ne hself hne]; exact ht, hroot⟩
  rcases hall.2 with ⟨t, ht, -⟩
  exact ⟨t, ht⟩

/--
A segment that is left has lost merges from the front that are reached, and is as it was
apart from that.
-/
theorem kept (h : table.Joins reach after) {t : Segment} (ht : after.get? id = some t) :
    ∃ s done, table.get? id = some s ∧ s.pending = done ++ t.pending ∧
      (∀ m ∈ done, m.stop ≤ reach s.name) ∧ s.storageLength ≤ t.storageLength ∧
      t = { s with storageLength := t.storageLength, pending := t.pending } := by
  induction h generalizing id t with
  | refl => exact ⟨t, [], ht, rfl, (fun _ hm => nomatch hm), Nat.le_refl _, rfl⟩
  | @next middle last parent s' m rest before found pending reached completed ih =>
      rw [completeMerge?_eq found pending] at completed
      cases completed
      rcases get?_of_get?_joined ht with ⟨-, t', ht', hcase⟩
      rcases ih ht' with ⟨s, done, hs, hpending, hdone, hle, heq⟩
      rcases hcase with hsame | hself
      · rw [hsame.2]
        exact ⟨s, done, hs, hpending, hdone, hle, heq⟩
      · rcases hself with ⟨hid, heqt⟩
        subst hid
        rw [found] at ht'
        cases ht'
        rw [pending] at hpending
        rw [heqt]
        refine ⟨s, done ++ [m], hs, ?_, ?_, ?_, ?_⟩
        · unfold Segment.joined
          rw [hpending, pending, List.append_assoc]
          rfl
        · intro m' hm'
          rcases List.mem_append.mp hm' with hold | hnew
          · exact hdone m' hold
          · rw [List.mem_singleton.mp hnew]
            rw [heq] at reached
            exact reached
        · exact Nat.le_trans hle (Nat.le_max_left _ _)
        · exact congrArg (·.joined m) heq

end Joins

/-!
## What is known of the tier
-/

namespace Raises

theorem refl (table : Table) : table.Raises table where
  nextId_eq := rfl
  kept := fun hs => ⟨_, Nat.le_refl _, hs⟩
  old := fun ht => ⟨_, ht⟩

theorem trans {last : Table} (h : table.Raises after) (hlast : after.Raises last) :
    table.Raises last where
  nextId_eq := hlast.nextId_eq.trans h.nextId_eq
  kept := by
    intro id s hs
    rcases h.kept hs with ⟨stored, hle, hget⟩
    rcases hlast.kept hget with ⟨stored', hle', hget'⟩
    exact ⟨stored', Nat.le_trans hle hle', hget'⟩
  old := by
    intro id t ht
    rcases hlast.old ht with ⟨t', ht'⟩
    exact h.old ht'

theorem setStorageLength (table : Table) (id : SegmentId) (length : Nat) :
    table.Raises (table.setStorageLength id length) where
  nextId_eq := rfl
  kept := by
    intro other s hs
    by_cases hother : other = id
    · subst hother
      exact ⟨_, Nat.le_max_left _ _, get?_setStorageLength_self hs length⟩
    · refine ⟨s.storageLength, Nat.le_refl _, ?_⟩
      rw [get?_setStorageLength_of_ne hother]
      exact hs
  old := by
    intro other t ht
    cases hs : table.get? other with
    | some s => exact ⟨s, rfl⟩
    | none =>
        have hnone : (table.setStorageLength id length).get? other = none :=
          Follows.get?_modify_eq_none_iff.mpr hs
        rw [hnone] at ht
        cases ht

theorem get?_eq_none_iff (h : table.Raises after) :
    after.get? id = none ↔ table.get? id = none := by
  constructor
  · intro hnone
    cases hs : table.get? id with
    | none => rfl
    | some s =>
        rcases h.kept hs with ⟨stored, -, hget⟩
        rw [hnone] at hget
        cases hget
  · intro hnone
    cases ht : after.get? id with
    | none => rfl
    | some t =>
        rcases h.old ht with ⟨s, hs⟩
        rw [hnone] at hs
        cases hs

theorem of_get? (h : table.Raises after) {t : Segment} (ht : after.get? id = some t) :
    ∃ s, table.get? id = some s ∧ s.storageLength ≤ t.storageLength ∧
      t = { s with storageLength := t.storageLength } := by
  rcases h.old ht with ⟨s, hs⟩
  rcases h.kept hs with ⟨stored, hle, hget⟩
  rw [ht] at hget
  cases hget
  exact ⟨s, hs, hle, rfl⟩

theorem get?_of_full (h : table.Raises after) (hafter : after.Consistent content)
    (hs : table.get? id = some s) (hfull : s.storageLength = s.limit) :
    after.get? id = some s := by
  rcases h.kept hs with ⟨stored, hle, hget⟩
  have hlimit : stored ≤ s.limit := (hafter.segment hget).stored_le
  have heq : stored = s.storageLength := by omega
  rw [hget, heq]

theorem follows (h : table.Raises after) (hfollows : replayed.Follows table) :
    replayed.Follows after where
  nextId_eq := hfollows.nextId_eq.trans h.nextId_eq.symm
  known := by
    intro id t ht
    rcases h.of_get? ht with ⟨s, hs, hle, heq⟩
    rcases hfollows.known hs with ⟨r, hr, stored, done, hreq, hstored, hdone⟩
    refine ⟨r, hr, stored, done, ?_, Nat.le_trans hstored hle, ?_⟩
    · rw [hreq, heq]
    · intro m hm
      exact ⟨h.get?_eq_none_iff.mpr (hdone m hm).1, Nat.le_trans (hdone m hm).2 hle⟩
  gone := by
    intro id r hr hnone
    rcases hfollows.gone hr (h.get?_eq_none_iff.mp hnone) with ⟨p, s, rp, m, hs, hrp, hm, hbatch⟩
    rcases h.kept hs with ⟨stored, -, hget⟩
    exact ⟨p, _, rp, m, hget, hrp, hm, hbatch⟩

end Raises

/-!
## Catching up with the live table
-/

namespace Follows

/-- Only batches can be gone. -/
theorem live_of_not_batch (h : replayed.Follows live) (hreplayed : replayed.Consistent content)
    {r : Segment} (hr : replayed.get? id = some r) (hparent : r.parent = none) :
    ∃ s, live.get? id = some s := by
  cases hs : live.get? id with
  | some s => exact ⟨s, rfl⟩
  | none =>
      rcases h.gone hr hs with ⟨p, s, rp, m, -, hrp, hm, hbatch⟩
      rcases hreplayed.backed hrp m hm with ⟨b, hb, hbparent, -⟩
      rw [hbatch, hr] at hb
      cases hb
      rw [hparent] at hbparent
      cases hbparent

theorem live_of_pending (h : replayed.Follows live) (hreplayed : replayed.Consistent content)
    {r : Segment} (hr : replayed.get? id = some r) {m : PendingMerge} (hm : m ∈ r.pending) :
    ∃ s, live.get? id = some s := by
  refine h.live_of_not_batch hreplayed hr ?_
  cases hparent : r.parent with
  | none => rfl
  | some p =>
      rw [hreplayed.pending_of_parent hr hparent] at hm
      cases hm

theorem pending_eq (h : replayed.Follows live) (hs : live.get? id = some s) {r b : Segment}
    (hr : replayed.get? id = some r) {m : PendingMerge} {rest : List PendingMerge}
    (hpending : r.pending = m :: rest) (hb : live.get? m.batch = some b) :
    s.pending = m :: rest := by
  rcases h.known hs with ⟨r', hr', stored, done, heq, -, hdone⟩
  rw [hr] at hr'
  cases hr'
  cases done with
  | nil =>
      rw [heq] at hpending
      exact hpending
  | cons first more =>
      rw [heq] at hpending
      cases hpending
      have hnone := (hdone m List.mem_cons_self).1
      rw [hb] at hnone
      cases hnone

theorem catchUp (h : replayed.Follows live) (hreplayed : replayed.Consistent content)
    (hlive : live.Consistent content) {r : Segment} {m : PendingMerge}
    {rest : List PendingMerge} (hr : replayed.get? id = some r) (hpending : r.pending = m :: rest)
    (hgone : live.get? m.batch = none) : (replayed.joined id m).Follows live := by
  have hm : m ∈ r.pending := by
    rw [hpending]
    exact List.mem_cons_self
  have hne : id ≠ m.batch := (hreplayed.batch_ne (hreplayed.backed hr m hm)).symm
  have hself : (replayed.joined id m).get? id = some (r.joined m) := get?_joined_parent hr hne
  refine { nextId_eq := h.nextId_eq, known := ?_, gone := ?_ }
  · intro other t ht
    have hbatch : other ≠ m.batch := by
      intro heq
      rw [heq, hgone] at ht
      cases ht
    rcases h.known ht with ⟨r', hr', hfollows⟩
    by_cases hother : other = id
    · subst hother
      rw [hr] at hr'
      cases hr'
      refine ⟨r.joined m, hself, hfollows.caughtUp hpending ?_⟩
      intro hkept
      -- the batch of a merge that is pending in the live table is there
      rcases hlive.backed ht m hkept with ⟨b, hb, -⟩
      rw [hgone] at hb
      cases hb
    · refine ⟨r', ?_, hfollows⟩
      rw [get?_joined_of_ne hother hbatch]
      exact hr'
  · intro other t ht hnone
    rcases get?_of_get?_joined ht with ⟨hbatch, t', ht', -⟩
    rcases h.gone ht' hnone with ⟨p, s, rp, m', hs, hrp, hm', heq⟩
    by_cases hp : p = id
    · subst hp
      rw [hr] at hrp
      cases hrp
      refine ⟨p, s, r.joined m, m', hs, hself, ?_, heq⟩
      show m' ∈ r.pending.tail
      rw [hpending] at hm' ⊢
      rcases List.mem_cons.mp hm' with hfirst | hrest
      · rw [hfirst] at heq
        exact absurd heq.symm hbatch
      · exact hrest
    · refine ⟨p, s, rp, m', hs, ?_, hm', heq⟩
      rw [get?_joined_of_ne hp]
      · exact hrp
      · intro hpb
        rw [hpb, hgone] at hs
        cases hs

theorem raises (h : replayed.Follows live) (hlive : live.Consistent content)
    (hpending : ∀ {id s r}, live.get? id = some s → replayed.get? id = some r →
      r.pending = s.pending) : replayed.Raises live where
  nextId_eq := h.nextId_eq.symm
  kept := by
    intro id r hr
    cases hs : live.get? id with
    | some s =>
        rcases h.known hs with ⟨r', hr', stored, done, heq, hle, -⟩
        rw [hr] at hr'
        cases hr'
        have hsame := hpending hs hr
        refine ⟨s.storageLength, ?_, ?_⟩
        · rw [heq]
          exact hle
        · rw [heq] at hsame ⊢
          have hsame : done ++ s.pending = s.pending := hsame
          rw [hsame]
    | none =>
        rcases h.gone hr hs with ⟨p, t, rp, m, ht, hrp, hm, hbatch⟩
        rw [hpending ht hrp] at hm
        rcases hlive.backed ht m hm with ⟨b, hb, -⟩
        rw [hbatch, hs] at hb
        cases hb
  old := by
    intro id s hs
    rcases h.known hs with ⟨r, hr, -⟩
    exact ⟨r, hr⟩

end Follows
end Table
end TieredStore
