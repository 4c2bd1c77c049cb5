import TieredStore.Proofs.Table.Bookkeeping
import TieredStore.Proofs.Table.Reached

/-!
# Tables that move forward

While a store is open its table moves forward, and also when it is opened again: no segment
changes its name or its parent, the tier holds no less of any, no byte becomes readable
again, and no id is given out twice.  A merge is pending until the tier holds the parent
beyond it, and a segment that is sealed keeps its length.
-/

namespace TieredStore

/-- The segment has become this one. -/
structure Segment.Becomes (s t : Segment) : Prop where
  name_eq : t.name = s.name
  parent_eq : t.parent = s.parent
  stored_le : s.storageLength ≤ t.storageLength
  start_le : s.startOffset ≤ t.startOffset
  merges : ∀ m ∈ s.pending, m ∈ t.pending ∨ m.stop ≤ t.storageLength
  closed : s.sealed = true → t.sealed = true ∧ t.length = s.length

namespace Segment.Becomes

variable {s t u : Segment}

theorem refl (s : Segment) : s.Becomes s :=
  ⟨rfl, rfl, Nat.le_refl _, Nat.le_refl _, fun _ hm => Or.inl hm, fun hsealed => ⟨hsealed, rfl⟩⟩

theorem trans (h : s.Becomes t) (hafter : t.Becomes u) : s.Becomes u where
  name_eq := hafter.name_eq.trans h.name_eq
  parent_eq := hafter.parent_eq.trans h.parent_eq
  stored_le := Nat.le_trans h.stored_le hafter.stored_le
  start_le := Nat.le_trans h.start_le hafter.start_le
  merges := by
    intro m hm
    rcases h.merges m hm with hpending | hstop
    · exact hafter.merges m hpending
    · exact Or.inr (Nat.le_trans hstop hafter.stored_le)
  closed := by
    intro hsealed
    rcases h.closed hsealed with ⟨hmiddle, hlength⟩
    rcases hafter.closed hmiddle with ⟨hlast, hlength'⟩
    exact ⟨hlast, hlength'.trans hlength⟩

theorem noted (s : Segment) {stored : Nat} {pending : List PendingMerge}
    (hle : s.storageLength ≤ stored) (hmerges : ∀ m ∈ s.pending, m ∈ pending ∨ m.stop ≤ stored) :
    s.Becomes { s with storageLength := stored, pending } :=
  ⟨rfl, rfl, hle, Nat.le_refl _, hmerges, fun hsealed => ⟨hsealed, rfl⟩⟩

theorem joined {m : PendingMerge} {rest : List PendingMerge} (hpending : s.pending = m :: rest) :
    s.Becomes (s.joined m) := by
  refine .noted s (Nat.le_max_left _ _) ?_
  intro m' hm
  rw [hpending] at hm ⊢
  rcases List.mem_cons.mp hm with rfl | hm
  · exact Or.inr (Nat.le_max_right _ _)
  · exact Or.inl hm

end Segment.Becomes

/-- Segments become others with the same ids, and new ones have new ids. -/
structure Table.Advances (before after : Table) : Prop where
  nextId_le : before.nextId ≤ after.nextId
  kept : ∀ {id t}, after.get? id = some t → id < before.nextId →
    ∃ s, before.get? id = some s ∧ s.Becomes t

namespace Table.Advances

variable {before middle after table : Table} {content : Contents} {id : SegmentId} {s t : Segment}

theorem refl (table : Table) : table.Advances table where
  nextId_le := Nat.le_refl _
  kept := fun ht _ => ⟨_, ht, .refl _⟩

theorem trans (h : before.Advances middle) (hafter : middle.Advances after) :
    before.Advances after where
  nextId_le := Nat.le_trans h.nextId_le hafter.nextId_le
  kept := by
    intro id t ht hlt
    rcases hafter.kept ht (Nat.lt_of_lt_of_le hlt h.nextId_le) with ⟨r, hr, hbecomes⟩
    rcases h.kept hr hlt with ⟨s, hs, hbecomes'⟩
    exact ⟨s, hs, hbecomes'.trans hbecomes⟩

theorem becomes (h : before.Advances after) (hs : before.get? id = some s)
    (hlt : id < before.nextId) (ht : after.get? id = some t) : s.Becomes t := by
  rcases h.kept ht hlt with ⟨s', hs', hbecomes⟩
  rw [hs] at hs'
  cases hs'
  exact hbecomes

theorem gone (h : before.Advances after) (hnone : before.get? id = none)
    (hlt : id < before.nextId) : after.get? id = none := by
  cases ht : after.get? id with
  | none => rfl
  | some t =>
      rcases h.kept ht hlt with ⟨s, hs, -⟩
      rw [hnone] at hs
      cases hs

theorem modify {change : Segment → Segment}
    (hchange : ∀ s, table.get? id = some s → s.Becomes (change s)) :
    table.Advances (table.modify id change) where
  nextId_le := Nat.le_refl _
  kept := by
    intro other t ht _
    rcases get?_of_get?_modify ht with ⟨s, hs, ⟨-, rfl⟩ | ⟨rfl, rfl⟩⟩
    · exact ⟨_, hs, .refl _⟩
    · exact ⟨s, hs, hchange s hs⟩

theorem joined {parent : SegmentId} {m : PendingMerge} {rest : List PendingMerge}
    (hs : table.get? parent = some s) (hpending : s.pending = m :: rest) :
    table.Advances (table.joined parent m) where
  nextId_le := Nat.le_refl _
  kept := by
    intro other t ht _
    rcases joined_or_kept hs ht with ⟨-, ⟨rfl, rfl⟩ | ⟨-, hold⟩⟩
    · exact ⟨s, hs, .joined hpending⟩
    · exact ⟨t, hold, .refl t⟩

theorem add (s : Segment) (hfresh : table.nextId ≤ s.id) : table.Advances (table.add s) where
  nextId_le := Nat.le_max_left _ _
  kept := by
    intro id t ht hlt
    have hne : id ≠ s.id := by
      intro heq
      rw [heq] at hlt
      exact absurd hfresh (Nat.not_le.mpr hlt)
    rw [get?_add_of_ne table hne] at ht
    exact ⟨t, ht, .refl t⟩

theorem perform {op : Operation} (hop : op.Regular content table)
    (hcheckpoint : op.isCheckpoint = false) : table.Advances (table.perform op) := by
  have hfits := hop.fits
  cases op with
  | append segment offset client event data =>
      rcases hfits with ⟨s, hs, hwritable, -⟩
      refine modify fun t ht => ?_
      rw [hs] at ht
      cases ht
      exact { Segment.Becomes.refl s with
        closed := fun hsealed => by rw [hwritable.sealed] at hsealed; cases hsealed }
  | «seal» segment length =>
      exact modify fun s _ => { Segment.Becomes.refl s with closed := fun _ => ⟨rfl, rfl⟩ }
  | merge parent batch length offset =>
      rcases hfits with ⟨s, -, hs, -, hwritable, -⟩
      have hmarked : table.Advances (table.modify batch ({ · with merged := true })) :=
        modify fun s _ => { Segment.Becomes.refl s with }
      refine hmarked.trans (modify fun t ht => ?_)
      have hopen : t.sealed = false := by
        rcases get?_of_get?_modify ht with ⟨s', hs', ⟨-, rfl⟩ | ⟨-, rfl⟩⟩
        · rw [hs] at hs'
          cases hs'
          exact hwritable.sealed
        · rw [hs] at hs'
          cases hs'
          exact hwritable.sealed
      exact { Segment.Becomes.refl t with
        merges := fun _ hm => Or.inl (List.mem_append_left _ hm)
        closed := fun hsealed => by rw [hopen] at hsealed; cases hsealed }
  | checkpoint snapshot => cases hcheckpoint
  | create segment name => exact add _ (hop.fresh segment rfl)
  | createBatch batch name parent => exact add _ (hop.fresh batch rfl)
  | truncate segment offset =>
      rcases hfits with ⟨s, hs, -, hstart, -⟩
      refine modify fun t ht => ?_
      rw [hs] at ht
      cases ht
      exact { Segment.Becomes.refl s with start_le := hstart }

end Table.Advances

/-! ## Changes that are not logged -/

theorem Table.Raises.advances {before after : Table} (h : before.Raises after) :
    before.Advances after where
  nextId_le := Nat.le_of_eq h.nextId_eq.symm
  kept := by
    intro id t ht _
    rcases h.of_get? ht with ⟨s, hs, hle, heq⟩
    refine ⟨s, hs, ?_⟩
    rw [heq]
    exact .noted s hle fun _ hm => Or.inl hm

theorem Table.Joins.advances {reach : String → Nat} {before after : Table}
    (h : before.Joins reach after) : before.Advances after :=
  h.preserves (.refl before) fun hmiddle found pending _ => hmiddle.trans (.joined found pending)

private theorem eq_or_mem_eraseP {α : Type} {p : α → Bool} {list : List α} {a b : α}
    (hfind : list.find? p = some a) (hb : b ∈ list) : b = a ∨ b ∈ list.eraseP p := by
  induction list with
  | nil => cases hb
  | cons head rest ih =>
      by_cases hp : p head = true
      · rw [List.find?_cons_of_pos hp] at hfind
        rw [List.eraseP_cons_of_pos hp, ← Option.some.inj hfind]
        exact List.mem_cons.mp hb
      · rw [List.find?_cons_of_neg hp] at hfind
        rw [List.eraseP_cons_of_neg hp, List.mem_cons]
        rcases List.mem_cons.mp hb with heq | hrest
        · exact Or.inr (Or.inl heq)
        · exact (ih hfind hrest).imp_right Or.inr

private theorem Table.Advances.finished {table after : Table} {parent batch : SegmentId}
    {m : PendingMerge} (completed : table.completeMerge? parent batch = some (m, after)) :
    table.Advances after := by
  rcases completeMerge?_eq_some_iff.mp completed with ⟨s, hs, hfind, rfl⟩
  refine { nextId_le := Nat.le_refl _, kept := ?_ }
  intro other t ht _
  have hne : other ≠ batch := by
    rintro rfl
    rw [get?_without_self] at ht
    cases ht
  rw [get?_without_of_ne _ hne] at ht
  rcases get?_of_get?_modify ht with ⟨r, hr, ⟨-, rfl⟩ | ⟨rfl, rfl⟩⟩
  · exact ⟨_, hr, .refl _⟩
  · rw [hs] at hr
    cases hr
    refine ⟨s, hs, .noted s (Nat.le_max_left _ _) fun m' hm => ?_⟩
    rcases eq_or_mem_eraseP hfind hm with rfl | hleft
    · exact Or.inr (Nat.le_max_right _ _)
    · exact Or.inl hleft

theorem Table.Bookkept.advances {table after : Table} (h : table.Bookkept after) :
    table.Advances after := by
  induction h with
  | refl => exact .refl table
  | stored _ id length ih => exact ih.trans (Raises.setStorageLength _ id length).advances
  | finished _ completed ih => exact ih.trans (.finished completed)

end TieredStore
