import TieredStore.Proofs.Container.Copying
import TieredStore.Proofs.Container.Replaying
import TieredStore.Proofs.Table.Reached

/-!
# Finishing the merges that the tier has carried out

A table that has been replayed follows the live table.  It has to finish the
merges that the live table had finished, and then all that the objects of the
parents reach.  The live table finishes the latter with it, so that the one
follows the other throughout; at the end the pending merges of both are the same.
-/

namespace TieredStore

/-- How far the object of this name reaches; one that is not there has no bytes. -/
def FlakyTier.reach (tier : FlakyTier) (name : String) : Nat := (tier.bytes name).length

structure Table.Listed (table : Table) (r : Segment) (merges : List (PendingMerge × String)) :
    Prop where
  pending_eq : r.pending = merges.map (·.1)
  named : ∀ x ∈ merges, ∃ b, table.get? x.1.batch = some b ∧ b.name = x.2

/-- Only one segment and its batches are other than before. -/
structure Table.Beside (parent : SegmentId) (table after : Table) : Prop where
  kept : ∀ {id t}, table.get? id = some t → id ≠ parent → t.parent ≠ some parent →
    after.get? id = some t
  old : ∀ {id t}, after.get? id = some t → id ≠ parent → table.get? id = some t

namespace Table

variable {table after last : Table} {content : Contents} {parent id : SegmentId} {s r : Segment}
  {m : PendingMerge} {rest : List PendingMerge} {merges : List (PendingMerge × String)}

theorem Beside.refl (parent : SegmentId) (table : Table) : table.Beside parent table :=
  ⟨fun ht _ _ => ht, fun ht _ => ht⟩

theorem Beside.trans (h : table.Beside parent after) (hlast : after.Beside parent last) :
    table.Beside parent last where
  kept := fun ht hne hparent => hlast.kept (h.kept ht hne hparent) hne hparent
  old := fun ht hne => h.old (hlast.old ht hne) hne

theorem Beside.joined (htable : table.Consistent content) (hs : table.get? parent = some s)
    (hpending : s.pending = m :: rest) : table.Beside parent (table.joined parent m) where
  kept := by
    intro id t ht hne hparent
    rcases htable.backed hs m (by rw [hpending]; exact List.mem_cons_self) with ⟨b, hb, hbparent, -⟩
    rw [get?_joined_of_ne hne]
    · exact ht
    · intro heq
      rw [heq, hb] at ht
      cases ht
      exact hparent hbparent
  old := by
    intro id t ht hne
    rcases get?_of_get?_joined ht with ⟨-, t', ht', hcase⟩
    rcases hcase with hsame | hself
    · rw [hsame.2]
      exact ht'
    · exact absurd hself.1 hne

theorem Listed.beside (h : table.Listed r merges) (htable : table.Consistent content)
    (hr : table.get? id = some r) (hs : table.get? parent = some s) (hparent : s.parent = none)
    (hne : id ≠ parent) (hbeside : table.Beside parent after) : after.Listed r merges where
  pending_eq := h.pending_eq
  named := by
    intro x hx
    rcases h.named x hx with ⟨b, hb, hname⟩
    have hm : x.1 ∈ r.pending := by
      rw [h.pending_eq]
      exact List.mem_map_of_mem hx
    rcases htable.backed hr x.1 hm with ⟨b', hb', hbparent, -⟩
    rw [hb] at hb'
    cases hb'
    refine ⟨b, hbeside.kept hb ?_ ?_, hname⟩
    · intro heq
      rw [heq, hs] at hb
      cases hb
      rw [hparent] at hbparent
      cases hbparent
    · rw [hbparent]
      intro heq
      exact hne (Option.some.inj heq)

theorem Listed.joined {name : String} (h : table.Listed r ((m, name) :: merges))
    (htable : table.Consistent content) (hr : table.get? parent = some r) :
    (table.joined parent m).Listed (r.joined m) merges where
  pending_eq := by
    unfold Segment.joined
    rw [h.pending_eq]
    rfl
  named := by
    intro x hx
    rcases h.named x (List.mem_cons_of_mem _ hx) with ⟨b, hb, hname⟩
    have hpending : r.pending = m :: merges.map (·.1) := h.pending_eq
    have hin : x.1 ∈ merges.map (·.1) := List.mem_map_of_mem hx
    have hm : x.1 ∈ r.pending := by
      rw [hpending]
      exact List.mem_cons_of_mem _ hin
    have hdistinct := (htable.segment hr).distinct
    rw [hpending] at hdistinct
    refine ⟨b, ?_, hname⟩
    rw [get?_joined_of_ne (htable.batch_ne (htable.backed hr x.1 hm))]
    · exact hb
    · intro heq
      exact (List.nodup_cons.mp hdistinct).1 (List.mem_map.mpr ⟨x.1, hin, heq⟩)

theorem Consistent.listed (h : table.Consistent content) (hr : table.get? id = some r) :
    table.Listed r (r.pending.filterMap fun m =>
      (table.get? m.batch).map fun batch => (m, batch.name)) where
  pending_eq := by
    have hbacked : ∀ m ∈ r.pending, ∃ b, table.get? m.batch = some b := by
      intro m hm
      rcases h.backed hr m hm with ⟨b, hb, -⟩
      exact ⟨b, hb⟩
    generalize r.pending = pending at hbacked
    induction pending with
    | nil => rfl
    | cons m rest ih =>
        rcases hbacked m List.mem_cons_self with ⟨b, hb⟩
        rw [List.filterMap_cons_some (by rw [hb]; rfl), List.map_cons,
          ← ih fun m' hm' => hbacked m' (List.mem_cons_of_mem _ hm')]
  named := by
    intro x hx
    rcases List.mem_filterMap.mp hx with ⟨m, -, hm⟩
    rcases Option.map_eq_some_iff.mp hm with ⟨b, hb, heq⟩
    subst heq
    exact ⟨b, hb, rfl⟩

end Table

def Container.Joinable.Holds (table : Table) (j : Joinable) : Prop :=
  ∃ r, table.get? j.parent = some r ∧ r.name = j.parentName ∧ r.parent = none ∧
    table.Listed r j.merges

namespace Container

variable {content : Contents} {tier : FlakyTier} {live : Table} {c : Container FlakyTier}
  {parent : SegmentId} {s r b : Segment} {m : PendingMerge} {rest : List PendingMerge}

/-- The table of the container follows the live table, whose objects it goes by. -/
structure Recovering (content : Contents) (tier : FlakyTier) (live : Table)
    (c : Container FlakyTier) : Prop where
  consistent : c.table.Consistent content
  wellFormed : c.table.WellFormed
  cached : c.table.CachedIn content c.cache
  follows : c.table.Follows live
  liveConsistent : live.Consistent content
  liveWellFormed : live.WellFormed
  stored : live.StoredIn content c.tier
  same : ∀ {id s}, live.get? id = some s → c.tier.bytes s.name = tier.bytes s.name
  within : tier.Within c.tier

/-- The pending merges of a parent are those of the live one, and the first is not reached. -/
def CaughtUp (tier : FlakyTier) (live table : Table) (parent : SegmentId) : Prop :=
  ∀ s r, live.get? parent = some s → table.get? parent = some r → r.pending = s.pending ∧
    ∀ m, s.pending.head? = some m → tier.reach s.name < m.stop

namespace Recovering

theorem name_eq (h : Recovering content tier live c) (hs : live.get? parent = some s)
    (hr : c.table.get? parent = some r) : r.name = s.name := by
  rcases h.follows.known hs with ⟨r', hr', stored, done, heq, -⟩
  rw [hr] at hr'
  cases hr'
  rw [heq]

theorem object?_eq_none (h : Recovering content tier live c) (hb : c.table.get? m.batch = some b)
    (hgone : live.get? m.batch = none) : c.tier.object? b.name = none := by
  cases hobject : c.tier.object? b.name with
  | none => rfl
  | some bytes =>
      rcases h.stored.owned hobject with ⟨id, s, hs, hname⟩
      rcases h.follows.known hs with ⟨r, hr, -⟩
      have hid := h.wellFormed.name_inj hr hb ((h.name_eq hs hr).trans hname)
      rw [hid, hgone] at hs
      cases hs

theorem length_eq_reach (h : Recovering content tier live c)
    (hr : c.table.get? parent = some r) (hparent : r.parent = none) :
    (c.tier.bytes r.name).length = tier.reach r.name := by
  rcases h.follows.live_of_not_batch h.consistent hr hparent with ⟨s, hs⟩
  have hsame := h.same hs
  rw [← h.name_eq hs hr] at hsame
  unfold FlakyTier.reach
  rw [hsame]

theorem reached_of_done (h : Recovering content tier live c) (hr : c.table.get? parent = some r)
    (hpending : r.pending = m :: rest) (hgone : live.get? m.batch = none) :
    m.stop ≤ tier.reach r.name := by
  have hm : m ∈ r.pending := by
    rw [hpending]
    exact List.mem_cons_self
  rcases h.follows.live_of_pending h.consistent hr hm with ⟨s, hs⟩
  rcases h.follows.known hs with ⟨r', hr', stored, done, heq, -, hdone⟩
  rw [hr] at hr'
  cases hr'
  have hreaches := h.stored.reaches hs
  rw [h.same hs, ← h.name_eq hs hr] at hreaches
  rw [heq] at hm
  rcases List.mem_append.mp hm with hdoneMem | hlive
  · exact Nat.le_trans (hdone m hdoneMem).2 hreaches
  · rcases h.liveConsistent.backed hs m hlive with ⟨b, hb, -⟩
    rw [hgone] at hb
    cases hb

/-- If the first merge is not reached, no finished merge is left. -/
theorem caughtUp_of_unreached (h : Recovering content tier live c)
    (hr : c.table.get? parent = some r) (hpending : r.pending = m :: rest)
    (hlt : tier.reach r.name < m.stop) : CaughtUp tier live c.table parent := by
  intro s r' hs hr'
  rw [hr] at hr'
  cases hr'
  have hlive : ∃ b, live.get? m.batch = some b := by
    cases hgone : live.get? m.batch with
    | some b => exact ⟨b, rfl⟩
    | none => exact absurd (h.reached_of_done hr hpending hgone) (Nat.not_le.mpr hlt)
  rcases hlive with ⟨b, hb⟩
  have hspending := h.follows.pending_eq hs hr hpending hb
  refine ⟨hpending.trans hspending.symm, ?_⟩
  intro m' hm'
  rw [hspending] at hm'
  cases hm'
  rw [← h.name_eq hs hr]
  exact hlt

theorem caughtUp_of_nil (h : Recovering content tier live c) (hr : c.table.get? parent = some r)
    (hpending : r.pending = []) : CaughtUp tier live c.table parent := by
  intro s r' hs hr'
  rw [hr] at hr'
  cases hr'
  rcases h.follows.known hs with ⟨r', hr', stored, done, heq, -⟩
  rw [hr] at hr'
  cases hr'
  have hnil : s.pending = [] := by
    rw [heq] at hpending
    exact (List.append_eq_nil_iff.mp hpending).2
  refine ⟨hpending.trans hnil.symm, ?_⟩
  intro m hm
  rw [hnil] at hm
  cases hm

/-! ## One merge -/

section Merge

variable {after : FlakyTier}

theorem finish_done (h : Recovering content tier live c)
    (hwithin : c.tier.Within after) (hr : c.table.get? parent = some r)
    (hpending : r.pending = m :: rest) (hb : c.table.get? m.batch = some b)
    (hgone : live.get? m.batch = none) (hbatch : after.object? b.name = none)
    (hother : ∀ {name}, name ≠ b.name → after.object? name = c.tier.object? name) :
    Recovering content tier live (finishMerge parent m { c with tier := after }) := by
  have hsame : after.object? = c.tier.object? := by
    funext name
    by_cases hname : name = b.name
    · rw [hname, hbatch, h.object?_eq_none hb hgone]
    · exact hother hname
  have hrc : Table.get? { c with tier := after }.table parent = some r := hr
  rw [finishMerge_eq hrc hpending]
  exact
    { consistent := h.consistent.joined hr hpending
      wellFormed := h.wellFormed.joined
      cached := h.cached.joined h.consistent hr hpending
      follows := h.follows.catchUp h.consistent h.liveConsistent hr hpending hgone
      liveConsistent := h.liveConsistent
      liveWellFormed := h.liveWellFormed
      stored := h.stored.of_same hsame
      same := by
        intro id s hs
        rw [FlakyTier.bytes_of_object?_eq (congrFun hsame s.name)]
        exact h.same hs
      within := h.within.trans hwithin }

theorem finish_both (h : Recovering content tier live c)
    (hwithin : c.tier.Within after) (hr : c.table.get? parent = some r)
    (hpending : r.pending = m :: rest) (hb : c.table.get? m.batch = some b)
    (hs : live.get? parent = some s) (hspending : s.pending = m :: rest)
    (hreached : m.stop ≤ tier.reach r.name) (hbatch : after.object? b.name = none)
    (hother : ∀ {name}, name ≠ b.name → after.object? name = c.tier.object? name) :
    Recovering content tier (live.joined parent m)
      (finishMerge parent m { c with tier := after }) := by
  have hm : m ∈ s.pending := by
    rw [hspending]
    exact List.mem_cons_self
  have hbacked := h.liveConsistent.backed hs m hm
  have hne := h.liveConsistent.batch_ne hbacked
  rcases hbacked with ⟨bl, hbl, -⟩
  have hname := h.name_eq hs hr
  have hbname := h.name_eq hbl hb
  have hnameNe : s.name ≠ b.name := by
    intro heq
    rw [hbname] at heq
    exact hne (h.liveWellFormed.name_inj hbl hs heq.symm)
  have hbytes : ∀ {name}, name ≠ b.name → after.bytes name = c.tier.bytes name := by
    intro name hne
    exact FlakyTier.bytes_of_object?_eq (hother hne)
  have hrc : Table.get? { c with tier := after }.table parent = some r := hr
  have hfollows := h.follows.joined h.consistent h.liveConsistent hs hspending
  have hlive := h.liveConsistent.joined hs hspending
  rw [finishMerge_eq hrc hpending]
  refine
    { consistent := h.consistent.joined hr hpending
      wellFormed := h.wellFormed.joined
      cached := h.cached.joined h.consistent hr hpending
      follows := hfollows.catchUp h.consistent hlive hr hpending Table.get?_joined_batch
      liveConsistent := hlive
      liveWellFormed := h.liveWellFormed.joined
      stored := ?_
      same := ?_
      within := h.within.trans hwithin }
  · refine h.stored.joined h.liveConsistent h.liveWellFormed hs hspending hbl ?_ ?_ ?_ ?_
    · rw [hbytes hnameNe]
      exact h.stored.starts hs
    · rw [hbytes hnameNe, h.same hs, ← hname]
      exact hreached
    · rw [← hbname]
      exact hbatch
    · intro name _ hne
      rw [← hbname] at hne
      exact hother hne
  · intro id t ht
    rcases Table.get?_of_get?_joined ht with ⟨hidne, t', ht', hcase⟩
    have htname : t.name = t'.name := by
      rcases hcase with hsame | hself
      · rw [hsame.2]
      · rw [hself.2]
        rfl
    rw [htname, hbytes ?_]
    · exact h.same ht'
    · intro heq
      rw [hbname] at heq
      exact hidne (h.liveWellFormed.name_inj ht' hbl heq)

theorem finish (h : Recovering content tier live c)
    (hwithin : c.tier.Within after) (hr : c.table.get? parent = some r)
    (hpending : r.pending = m :: rest) (hb : c.table.get? m.batch = some b)
    (hreached : m.stop ≤ tier.reach r.name) (hbatch : after.object? b.name = none)
    (hother : ∀ {name}, name ≠ b.name → after.object? name = c.tier.object? name) :
    ∃ live', live.Joins tier.reach live' ∧ live.Beside parent live' ∧
      Recovering content tier live' (finishMerge parent m { c with tier := after }) := by
  cases hgone : live.get? m.batch with
  | none =>
      exact ⟨live, .refl, Table.Beside.refl _ _,
        h.finish_done hwithin hr hpending hb hgone hbatch hother⟩
  | some bl =>
      have hm : m ∈ r.pending := by
        rw [hpending]
        exact List.mem_cons_self
      rcases h.follows.live_of_pending h.consistent hr hm with ⟨s, hs⟩
      have hspending := h.follows.pending_eq hs hr hpending hgone
      refine ⟨live.joined parent m, ?_, ?_, ?_⟩
      · refine .next .refl hs hspending ?_ (Table.completeMerge?_eq hs hspending)
        rw [← h.name_eq hs hr]
        exact hreached
      · exact Table.Beside.joined h.liveConsistent hs hspending
      · exact h.finish_both hwithin hr hpending hb hs hspending hreached hbatch hother

end Merge

end Recovering

structure FirstFinished (content : Contents) (tier : FlakyTier) (live : Table) (parent : SegmentId)
    (r : Segment) (rest : List (PendingMerge × String)) (before : Table)
    (after : Container FlakyTier) : Prop where
  finishes : ∃ live', live.Joins tier.reach live' ∧ live.Beside parent live' ∧
    Recovering content tier live' after
  beside : before.Beside parent after.table
  parent_eq : after.table.get? parent = some r
  listed : after.table.Listed r rest

theorem Recovering.finish_listed {merges : List (PendingMerge × String)} {after : FlakyTier}
    (h : Recovering content tier live c) (hwithin : c.tier.Within after)
    (hr : c.table.get? parent = some r) (hlisted : c.table.Listed r ((m, b.name) :: merges))
    (hb : c.table.get? m.batch = some b) (hreached : m.stop ≤ tier.reach r.name)
    (hbatch : after.object? b.name = none)
    (hother : ∀ {name}, name ≠ b.name → after.object? name = c.tier.object? name) :
    FirstFinished content tier live parent (r.joined m) merges c.table
      (finishMerge parent m { c with tier := after }) := by
  have hpending : r.pending = m :: merges.map (·.1) := hlisted.pending_eq
  have hm : m ∈ r.pending := by
    rw [hpending]
    exact List.mem_cons_self
  have hne := h.consistent.batch_ne (h.consistent.backed hr m hm)
  have hrc : Table.get? { c with tier := after }.table parent = some r := hr
  have htable : (finishMerge parent m { c with tier := after }).table =
      c.table.joined parent m := by
    rw [finishMerge_eq hrc hpending]
  refine { finishes := h.finish hwithin hr hpending hb hreached hbatch hother, beside := ?_,
           parent_eq := ?_, listed := ?_ }
  · rw [htable]
    exact Table.Beside.joined h.consistent hr hpending
  · rw [htable]
    exact Table.get?_joined_parent hr hne.symm
  · rw [htable]
    exact hlisted.joined h.consistent hr

/-! ## Recoveries that are stopped -/

/-- The merges are reached up to the first of the parent that is not. -/
def Joinable.covered (reach : String → Nat) (j : Joinable) : List (PendingMerge × String) :=
  j.merges.takeWhile fun merge => merge.1.stop ≤ reach j.parentName

/--
Recovery got as far as finishing these merges of the live table.  Whatever was
left to do can be done from here.
-/
def Underway (content : Contents) (tier : FlakyTier) (live : Table) (after : FlakyTier) : Prop :=
  ∃ live' c, live.Joins tier.reach live' ∧ Recovering content tier live' c ∧ c.tier = after

theorem Recovering.underway {live' : Table} (h : Recovering content tier live' c)
    (hjoins : live.Joins tier.reach live') : Underway content tier live c.tier :=
  ⟨live', c, hjoins, h, rfl⟩

theorem Underway.of_joins {live' : Table} {after : FlakyTier}
    (h : Underway content tier live' after) (hjoins : live.Joins tier.reach live') :
    Underway content tier live after := by
  rcases h with ⟨last, c, hlast, hrecovering, htier⟩
  exact ⟨last, c, hjoins.trans hlast, hrecovering, htier⟩

/-! ## One parent -/

variable {τ : Type} [Tier τ] [LawfulTier τ] [RecoverableTier τ]

theorem dropObject_ends {c : Container τ} {α : Type} {name : String} {next : ContainerM τ α}
    {answered : α → Container τ → Prop} {failed : Error → Container τ → Prop}
    (h : ∀ tier : τ, c.held.tier.Within (TierView.held tier) →
      (TierView.held tier).object? name = none →
      (∀ {other}, other ≠ name → (TierView.held tier).object? other = c.held.tier.object? other) →
      Ends next { c with tier } answered failed)
    (hstop : ∀ e (tier : τ), RecoverableTier.Stops τ → TierView.held tier = c.held.tier →
      failed e { c with tier }) :
    Ends (do
      if (← onTier (Tier.length name)).isSome then onTier (Tier.delete name)
      next) c answered failed := by
  refine Ends.bind (onTier_ends ((RecoverableTier.looks c.tier name).mono ?_ ?_))
  · intro found tier hfound
    rcases hfound with ⟨htier, hfound⟩
    cases hobject : (TierView.held c.tier).object? name with
    | none =>
        rw [hfound, hobject]
        simp only [Option.map_none, Option.isSome_none, Bool.false_eq_true, if_false]
        refine h tier ?_ ?_ fun _ => ?_
        · rw [htier]
          exact FlakyTier.Within.refl _
        · rw [htier]
          exact hobject
        · rw [htier]
          rfl
    | some bytes =>
        rw [hfound, hobject]
        simp only [Option.map_some, Option.isSome_some, if_true]
        rw [← htier] at hobject
        refine Ends.bind (onTier_ends ((RecoverableTier.deletes hobject).mono ?_ ?_))
        · intro _ last hdeleted
          rw [htier] at hdeleted
          exact h last hdeleted.2 hdeleted.1.object?_self hdeleted.1.object?_of_ne
        · intro e last hstopped
          exact hstop _ last hstopped.2 (hstopped.1.trans htier)
  · intro e tier hstopped
    exact hstop _ tier hstopped.2 hstopped.1

theorem finishCovered_ends (merges : List (PendingMerge × String)) :
    ∀ {live : Table} {c : Container τ} {r : Segment} (count : Nat),
      Recovering content tier live c.held → c.table.get? parent = some r →
      c.table.Listed r merges →
      Ends (finishCovered parent (tier.reach r.name) count merges) c
        (fun found after => (∃ live', live.Joins tier.reach live' ∧ live.Beside parent live' ∧
          c.table.Beside parent after.table ∧ Recovering content tier live' after.held ∧
          CaughtUp tier live' after.table parent) ∧
          found = count + (merges.takeWhile fun merge => merge.1.stop ≤ tier.reach r.name).length)
        (fun _ after => RecoverableTier.Stops τ ∧
          Underway content tier live after.held.tier) := by
  induction merges with
  | nil =>
      intro live c r count h hr hlisted
      exact Ends.pure ⟨⟨live, .refl, Table.Beside.refl _ _, Table.Beside.refl _ _, h,
        h.caughtUp_of_nil hr hlisted.pending_eq⟩, rfl⟩
  | cons merge rest ih =>
      rcases merge with ⟨m, batchName⟩
      intro live c r count h hr hlisted
      have hpending : r.pending = m :: rest.map (·.1) := hlisted.pending_eq
      rcases hlisted.named _ List.mem_cons_self with ⟨b, hb, hbname⟩
      subst hbname
      unfold finishCovered
      by_cases hlt : tier.reach r.name < m.stop
      · rw [if_pos hlt]
        refine Ends.pure ⟨⟨live, .refl, Table.Beside.refl _ _, Table.Beside.refl _ _, h,
          h.caughtUp_of_unreached hr hpending hlt⟩, ?_⟩
        rw [List.takeWhile_cons_of_neg (by simpa using hlt)]
        rfl
      · rw [if_neg hlt]
        have hreached := Nat.not_lt.mp hlt
        refine dropObject_ends ?_ ?_
        · intro after hwithin hbatch hother
          have hfinished : FirstFinished content tier live parent (r.joined m) rest c.table
              (finishMerge parent m { c with tier := after }).held := by
            rw [held_finishMerge (c := { c with tier := after }) hr hpending]
            exact h.finish_listed hwithin hr hlisted hb hreached hbatch hother
          rcases hfinished.finishes with ⟨live', hjoins, hbeside, hrecovering⟩
          refine Ends.modifying
            ((ih (count + 1) hrecovering hfinished.parent_eq hfinished.listed).mono ?_ ?_)
          · intro found last hlast
            rcases hlast with
              ⟨⟨live'', hjoins', hbeside', hbesideTable, hrecovering', hcaught⟩, hfound⟩
            refine ⟨⟨live'', hjoins.trans hjoins', hbeside.trans hbeside',
              hfinished.beside.trans hbesideTable, hrecovering', hcaught⟩, ?_⟩
            have hname : (r.joined m).name = r.name := rfl
            rw [hfound, hname, List.takeWhile_cons_of_pos (by simpa using hreached),
              List.length_cons]
            omega
          · intro _ last hlast
            exact ⟨hlast.1, hlast.2.of_joins hjoins⟩
        · intro _ after hstops hsame
          refine ⟨hstops, live, c.held, .refl, h, hsame.symm⟩

/-! ## All parents -/

theorem Joinable.Holds.beside {table after : Table} {j : Joinable} (h : j.Holds table)
    (htable : table.Consistent content) (hs : table.get? parent = some s)
    (hparent : s.parent = none) (hne : j.parent ≠ parent) (hbeside : table.Beside parent after) :
    j.Holds after := by
  rcases h with ⟨r, hr, hname, hnone, hlisted⟩
  refine ⟨r, hbeside.kept hr hne ?_, hname, hnone,
    hlisted.beside htable hr hs hparent hne hbeside⟩
  rw [hnone]
  intro heq
  cases heq

theorem CaughtUp.beside {live' table after : Table} {other : SegmentId}
    (h : CaughtUp tier live table other) (hne : other ≠ parent)
    (hlive : live.Beside parent live') (htable : table.Beside parent after) :
    CaughtUp tier live' after other :=
  fun s r hs hr => h s r (hlive.old hs hne) (htable.old hr hne)

/-- How many merges of these parents are reached before the first that is not. -/
def coveredCount (reach : String → Nat) (js : List Joinable) : Nat :=
  total (js.map fun j => (j.covered reach).length)

theorem coveredCount_cons (reach : String → Nat) (j : Joinable) (js : List Joinable) :
    coveredCount reach (j :: js) = (j.covered reach).length + coveredCount reach js := by
  unfold coveredCount
  rw [List.map_cons, total_cons]

theorem finishJoined_ends (js : List Joinable) :
    ∀ {live : Table} {c : Container τ} (count : Nat), Recovering content tier live c.held →
      (∀ j ∈ js, j.Holds c.table) → js.Pairwise (fun a b => a.parent ≠ b.parent) →
      (∀ parent, (∀ j ∈ js, j.parent ≠ parent) → CaughtUp tier live c.table parent) →
      Ends (finishJoined count js) c
        (fun found after => (∃ live', live.Joins tier.reach live' ∧
          Recovering content tier live' after.held ∧
          ∀ parent, CaughtUp tier live' after.table parent) ∧
          found = count + coveredCount tier.reach js)
        (fun _ after => RecoverableTier.Stops τ ∧
          Underway content tier live after.held.tier) := by
  induction js with
  | nil =>
      intro live c count h _ _ hrest
      exact Ends.pure ⟨⟨live, .refl, h, fun parent => hrest parent fun _ hj => nomatch hj⟩, rfl⟩
  | cons j rest ih =>
      intro live c count h hholds hapart hrest
      rcases List.pairwise_cons.mp hapart with ⟨hfirst, hapart⟩
      rcases hholds j List.mem_cons_self with ⟨r, hr, hname, hparent, hlisted⟩
      unfold finishJoined
      refine Ends.bind (onTier_ends ((RecoverableTier.looks c.tier j.parentName).mono ?_ ?_))
      · intro found tier' hfound
        rcases hfound with ⟨htier, hfound⟩
        have hlength : found.getD 0 = tier.reach r.name := by
          rw [hfound, FlakyTier.getD_length_object?, ← hname]
          exact h.length_eq_reach hr hparent
        simp only [hlength]
        have h : Recovering content tier live ({ c with tier := tier' } : Container τ).held := by
          unfold held
          rw [htier]
          exact h
        refine Ends.bind ((finishCovered_ends (c := { c with tier := tier' }) j.merges count h hr
          hlisted).mono ?_ ?_)
        · intro count' middle hmiddle
          rcases hmiddle with
            ⟨⟨live', hjoins, hbeside, hbesideTable, hrecovering, hcaught⟩, hcount⟩
          refine (ih count' hrecovering ?_ hapart ?_).mono ?_ ?_
          · intro other hother
            exact (hholds other (List.mem_cons_of_mem _ hother)).beside h.consistent hr hparent
              (hfirst other hother).symm hbesideTable
          · intro other hother
            by_cases hself : other = j.parent
            · rw [hself]
              exact hcaught
            · refine (hrest other ?_).beside hself hbeside hbesideTable
              intro j' hj'
              rcases List.mem_cons.mp hj' with heq | hin
              · rw [heq]
                exact fun heq => hself heq.symm
              · exact hother j' hin
          · intro last after hafter
            rcases hafter with ⟨⟨live'', hjoins', hrecovering', hcaught'⟩, hlast⟩
            refine ⟨⟨live'', hjoins.trans hjoins', hrecovering', hcaught'⟩, ?_⟩
            rw [hlast, hcount, hname, Nat.add_assoc, coveredCount_cons]
            rfl
          · intro _ after hafter
            exact ⟨hafter.1, hafter.2.of_joins hjoins⟩
        · intro _ after hafter
          exact hafter
      · intro _ tier' hstopped
        exact ⟨hstopped.2, live, c.held, .refl, h, hstopped.1.symm⟩

theorem Recovering.joinables_hold (h : Recovering content tier live c) :
    (∀ j ∈ joinables c.table, j.Holds c.table) ∧
      (joinables c.table).Pairwise (fun a b => a.parent ≠ b.parent) ∧
      ∀ parent, (∀ j ∈ joinables c.table, j.parent ≠ parent) →
        CaughtUp tier live c.table parent := by
  refine ⟨?_, ?_, ?_⟩
  · intro j hj
    rcases List.mem_map.mp hj with ⟨r, hr, heq⟩
    subst heq
    rcases List.mem_filter.mp hr with ⟨hmem, hnonempty⟩
    have hget := h.wellFormed.mem_list_iff.mp hmem
    refine ⟨r, hget, rfl, ?_, h.consistent.listed hget⟩
    cases hparent : r.parent with
    | none => rfl
    | some p =>
        rw [h.consistent.pending_of_parent hget hparent] at hnonempty
        cases hnonempty
  · unfold joinables
    rw [List.pairwise_map]
    refine (h.wellFormed.ids_ascending.filter _).imp ?_
    intro a b hlt
    exact Nat.ne_of_lt hlt
  · intro parent hnot s r hs hr
    refine h.caughtUp_of_nil hr ?_ s r hs hr
    cases hpending : r.pending with
    | nil => rfl
    | cons m rest =>
        have hid := h.consistent.id_eq hr
        have hmem : r ∈ c.table.list := by
          refine h.wellFormed.mem_list_iff.mpr ?_
          rw [hid]
          exact hr
        refine absurd hid (hnot _ (List.mem_map.mpr ⟨r, List.mem_filter.mpr ⟨hmem, ?_⟩, rfl⟩))
        rw [hpending]
        rfl

theorem finishJoinables_ends {c : Container τ} (h : Recovering content tier live c.held)
    (count : Nat) :
    Ends (finishJoined count (joinables c.table)) c
      (fun found after => (∃ live', live.Joins tier.reach live' ∧
        Recovering content tier live' after.held ∧
        ∀ parent, CaughtUp tier live' after.table parent) ∧
        found = count + coveredCount tier.reach (joinables c.table))
      (fun _ after => RecoverableTier.Stops τ ∧
        Underway content tier live after.held.tier) := by
  rcases h.joinables_hold with ⟨hholds, hapart, hrest⟩
  exact finishJoined_ends _ count h hholds hapart hrest

end Container
end TieredStore
