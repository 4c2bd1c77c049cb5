import TieredStore.Cache
import TieredStore.Proofs.Map.Entries
import TieredStore.Proofs.Slices

/-!
# The blocks of a segment

The blocks of a segment have at least one byte each and do not overlap, so at
most one of them holds a byte and the look-up finds it.  Adding bytes fills the
gaps between the blocks that are there: every new block is a piece of what is
added, and afterwards every byte of what is added is held.
-/

namespace TieredStore
namespace SegmentBlocks

/-- No block is empty, and no two overlap. -/
structure Apart (b : SegmentBlocks) : Prop where
  nonempty : ∀ {start block}, b.blocks.get? start = some block → 0 < block.data.length
  apart : ∀ {s t x y}, b.blocks.get? s = some x → b.blocks.get? t = some y → s < t →
    s + x.data.length ≤ t

def Covers (b : SegmentBlocks) (offset : Nat) : Prop :=
  ∃ start block, b.blocks.get? start = some block ∧ start ≤ offset ∧
    offset < start + block.data.length

theorem blockAt?_eq_some {b : SegmentBlocks} {offset start : Nat} {block : Block}
    (h : b.blockAt? offset = some (start, block)) :
    b.blocks.get? start = some block ∧ start ≤ offset ∧ offset < start + block.data.length := by
  rw [blockAt?, Option.filter_eq_some_iff] at h
  rcases h with ⟨hfloor, hlt⟩
  rcases SortedMap.floor?_eq_some hfloor with ⟨hget, hle, -⟩
  exact ⟨hget, hle, of_decide_eq_true hlt⟩

theorem Apart.not_covers {b : SegmentBlocks} (h : b.Apart) {offset : Nat}
    (hmiss : b.blockAt? offset = none) : ¬ b.Covers offset := by
  intro hcovers
  rcases hcovers with ⟨start, block, hget, hle, hlt⟩
  cases hfloor : b.blocks.floor? offset with
  | none =>
      exact SortedMap.floor?_eq_none hfloor hget hle
  | some found =>
      rcases found with ⟨s, x⟩
      rcases SortedMap.floor?_eq_some hfloor with ⟨hs, hsle, hmax⟩
      have hstart : start ≤ s := hmax hget hle
      have hfar : ¬ offset < s + x.data.length := by
        intro hin
        rw [blockAt?, hfloor, Option.filter_some, if_pos (decide_eq_true hin)] at hmiss
        cases hmiss
      rcases Nat.eq_or_lt_of_le hstart with heq | hless
      · subst heq
        rw [hs] at hget
        cases hget
        exact hfar hlt
      · have hapart := h.apart hget hs hless
        have hsle : s ≤ offset := hsle
        omega

/-!
## Gaps
-/

def InRow (entries : List (Nat × Block)) : Prop :=
  entries.Pairwise (fun a b => a.1 + a.2.data.length ≤ b.1)

theorem Apart.inRow {b : SegmentBlocks} (h : b.Apart) : InRow b.blocks.entries := by
  refine b.blocks.ascending.imp_of_mem ?_
  intro x y hx hy hlt
  exact h.apart (SortedMap.get?_eq_some_iff.mpr hx) (SortedMap.get?_eq_some_iff.mpr hy) hlt

/-- A gap is a piece of the data, away from every block. -/
structure IsGap (entries : List (Nat × Block)) (cursor : Nat) (data : Bytes)
    (gap : Nat × Bytes) : Prop where
  nonempty : 0 < gap.2.length
  le : cursor ≤ gap.1
  stop_le : gap.1 + gap.2.length ≤ cursor + data.length
  piece : Bytes.slice data (gap.1 - cursor) gap.2.length = gap.2
  apart : ∀ e ∈ entries, e.1 + e.2.data.length ≤ gap.1 ∨ gap.1 + gap.2.length ≤ e.1

theorem drop_slice {data : Bytes} {cursor stop start length : Nat} (hcursor : cursor ≤ stop)
    (hstop : stop ≤ start) :
    Bytes.slice (data.drop (stop - cursor)) (start - stop) length =
      Bytes.slice data (start - cursor) length := by
  unfold Bytes.slice
  rw [List.drop_drop]
  congr 2
  omega

theorem IsGap.of_drop {entries : List (Nat × Block)} {cursor : Nat} {data : Bytes}
    {start : Nat} {block : Block} {gap : Nat × Bytes}
    (h : IsGap entries (start + block.data.length)
      (data.drop (start + block.data.length - cursor)) gap)
    (hstop : cursor < start + block.data.length) :
    IsGap ((start, block) :: entries) cursor data gap := by
  have hle := h.le
  have hpos := h.nonempty
  have hend := h.stop_le
  rw [List.length_drop] at hend
  have hpiece := h.piece
  rw [drop_slice (Nat.le_of_lt hstop) hle] at hpiece
  refine { nonempty := hpos, le := by omega, stop_le := by omega, piece := hpiece, apart := ?_ }
  intro e he
  rcases List.mem_cons.mp he with heq | hrest
  · subst heq
    exact Or.inl hle
  · exact h.apart e hrest

theorem length_pos_of_isEmpty {data : Bytes} (h : ¬ data.isEmpty = true) : 0 < data.length := by
  cases data with
  | nil => exact absurd rfl h
  | cons x rest => exact Nat.succ_pos _

theorem isGap_before {entries : List (Nat × Block)} {cursor : Nat} {data : Bytes} {start : Nat}
    {block : Block} (hrow : InRow ((start, block) :: entries)) (hpos : 0 < data.length)
    (hbefore : cursor < start) :
    IsGap ((start, block) :: entries) cursor data (cursor, data.take (start - cursor)) := by
  have hlength : (data.take (start - cursor)).length = min (start - cursor) data.length :=
    List.length_take
  refine { nonempty := ?_, le := Nat.le_refl _, stop_le := ?_, piece := ?_, apart := ?_ }
  · simp only [hlength]
    omega
  · simp only [hlength]
    omega
  · simp only [Nat.sub_self, hlength, Bytes.slice, List.drop_zero]
    rw [List.take_eq_take_iff]
    omega
  · intro e he
    right
    simp only [hlength]
    rcases List.mem_cons.mp he with heq | hrest
    · subst heq
      simp only
      omega
    · have hbehind : start + block.data.length ≤ e.1 := (List.pairwise_cons.mp hrow).1 e hrest
      omega

theorem isGap_of_mem_gaps {entries : List (Nat × Block)} {cursor : Nat} {data : Bytes}
    (hrow : InRow entries) : ∀ gap ∈ gaps entries cursor data, IsGap entries cursor data gap := by
  fun_induction gaps entries cursor data with
  | case1 cursor data hempty => intro gap hgap; cases hgap
  | case2 cursor data hempty =>
      intro gap hgap
      rw [List.mem_singleton.mp hgap]
      refine { nonempty := length_pos_of_isEmpty hempty, le := Nat.le_refl _,
               stop_le := Nat.le_refl _, piece := ?_, apart := fun e he => nomatch he }
      rw [Nat.sub_self, Bytes.slice, List.drop_zero, List.take_length]
  | case3 start block rest cursor data hempty => intro gap hgap; cases hgap
  | case4 start block rest cursor data stop hempty hpassed ih =>
      intro gap hgap
      have h := ih (List.pairwise_cons.mp hrow).2 gap hgap
      refine { h with apart := ?_ }
      intro e he
      rcases List.mem_cons.mp he with heq | hrest
      · subst heq
        exact Or.inl (Nat.le_trans hpassed h.le)
      · exact h.apart e hrest
  | case5 start block rest cursor data stop hempty hreach hat ih =>
      intro gap hgap
      exact (ih (List.pairwise_cons.mp hrow).2 gap hgap).of_drop (Nat.not_le.mp hreach)
  | case6 start block rest cursor data stop hempty hreach hbefore ih =>
      intro gap hgap
      rcases List.mem_cons.mp hgap with heq | hmore
      · subst heq
        exact isGap_before hrow (length_pos_of_isEmpty hempty) (Nat.not_le.mp hbefore)
      · exact (ih (List.pairwise_cons.mp hrow).2 gap hmore).of_drop (Nat.not_le.mp hreach)

theorem gaps_apart {entries : List (Nat × Block)} {cursor : Nat} {data : Bytes}
    (hrow : InRow entries) :
    (gaps entries cursor data).Pairwise (fun a b => a.1 + a.2.length ≤ b.1) := by
  fun_induction gaps entries cursor data with
  | case1 cursor data hempty => exact List.Pairwise.nil
  | case2 cursor data hempty => exact List.pairwise_singleton _ _
  | case3 start block rest cursor data hempty => exact List.Pairwise.nil
  | case4 start block rest cursor data stop hempty hpassed ih =>
      exact ih (List.pairwise_cons.mp hrow).2
  | case5 start block rest cursor data stop hempty hreach hat ih =>
      exact ih (List.pairwise_cons.mp hrow).2
  | case6 start block rest cursor data stop hempty hreach hbefore ih =>
      have hrest := (List.pairwise_cons.mp hrow).2
      refine List.pairwise_cons.mpr ⟨?_, ih hrest⟩
      intro gap hgap
      have hle : start + block.data.length ≤ gap.1 := (isGap_of_mem_gaps hrest gap hgap).le
      simp only [List.length_take]
      omega

theorem le_of_apart {gaps : List (Nat × Bytes)} {a b : Nat × Bytes}
    (h : gaps.Pairwise (fun a b => a.1 + a.2.length ≤ b.1)) (ha : a ∈ gaps) (hb : b ∈ gaps)
    (hlt : a.1 < b.1) : a.1 + a.2.length ≤ b.1 := by
  induction gaps with
  | nil => cases ha
  | cons gap rest ih =>
      rw [List.pairwise_cons] at h
      rcases List.mem_cons.mp ha with haeq | harest
      · rcases List.mem_cons.mp hb with hbeq | hbrest
        · rw [haeq, hbeq] at hlt
          exact absurd hlt (Nat.lt_irrefl _)
        · rw [haeq]
          exact h.1 b hbrest
      · rcases List.mem_cons.mp hb with hbeq | hbrest
        · have hle := h.1 a harest
          rw [← hbeq] at hle
          omega
        · exact ih h.2 harest hbrest

/-- Every byte of the data is in a gap or in a block. -/
theorem gaps_cover {entries : List (Nat × Block)} {cursor : Nat} {data : Bytes} {offset : Nat}
    (hle : cursor ≤ offset) (hlt : offset < cursor + data.length) :
    (∃ gap ∈ gaps entries cursor data, gap.1 ≤ offset ∧ offset < gap.1 + gap.2.length) ∨
      ∃ e ∈ entries, e.1 ≤ offset ∧ offset < e.1 + e.2.data.length := by
  fun_induction gaps entries cursor data with
  | case1 cursor data hempty =>
      rw [List.isEmpty_iff.mp hempty, List.length_nil] at hlt
      omega
  | case2 cursor data hempty => exact Or.inl ⟨_, List.mem_singleton_self _, hle, hlt⟩
  | case3 start block rest cursor data hempty =>
      rw [List.isEmpty_iff.mp hempty, List.length_nil] at hlt
      omega
  | case4 start block rest cursor data stop hempty hpassed ih =>
      rcases ih hle hlt with hgap | hentry
      · exact Or.inl hgap
      · rcases hentry with ⟨e, he, hin⟩
        exact Or.inr ⟨e, List.mem_cons_of_mem _ he, hin⟩
  | case5 start block rest cursor data stop hempty hreach hat ih =>
      by_cases hblock : offset < stop
      · exact Or.inr ⟨(start, block), List.mem_cons_self, Nat.le_trans hat hle, hblock⟩
      · have hbehind : offset < stop + (data.drop (stop - cursor)).length := by
          rw [List.length_drop]
          omega
        rcases ih (Nat.not_lt.mp hblock) hbehind with hgap | hentry
        · exact Or.inl hgap
        · rcases hentry with ⟨e, he, hin⟩
          exact Or.inr ⟨e, List.mem_cons_of_mem _ he, hin⟩
  | case6 start block rest cursor data stop hempty hreach hbefore ih =>
      by_cases hfirst : offset < start
      · refine Or.inl ⟨_, List.mem_cons_self, hle, ?_⟩
        simp only [List.length_take]
        omega
      · by_cases hblock : offset < stop
        · exact Or.inr ⟨(start, block), List.mem_cons_self, Nat.not_lt.mp hfirst, hblock⟩
        · have hbehind : offset < stop + (data.drop (stop - cursor)).length := by
            rw [List.length_drop]
            omega
          rcases ih (Nat.not_lt.mp hblock) hbehind with hgap | hentry
          · rcases hgap with ⟨gap, hgap, hin⟩
            exact Or.inl ⟨gap, List.mem_cons_of_mem _ hgap, hin⟩
          · rcases hentry with ⟨e, he, hin⟩
            exact Or.inr ⟨e, List.mem_cons_of_mem _ he, hin⟩

/-!
## Filling
-/

variable {b : SegmentBlocks} {offset stamp : Nat} {data : Bytes}

theorem fill_eq (b : SegmentBlocks) (offset : Nat) (data : Bytes) (stamp : Nat) :
    (b.fill offset data stamp).1 =
      { b with
        blocks := (gaps b.blocks.entries offset data).foldl
          (fun blocks gap => blocks.insert gap.1 { data := gap.2, lastAccess := stamp })
          b.blocks } := rfl

theorem get?_foldl_insert_of_ne {gaps : List (Nat × Bytes)} {blocks : SortedMap Nat Block}
    {start : Nat} (h : ∀ gap ∈ gaps, start ≠ gap.1) :
    (gaps.foldl (fun blocks gap => blocks.insert gap.1 { data := gap.2, lastAccess := stamp })
      blocks).get? start = blocks.get? start := by
  induction gaps generalizing blocks with
  | nil => rfl
  | cons gap rest ih =>
      rw [List.foldl_cons, ih fun g hg => h g (List.mem_cons_of_mem _ hg)]
      exact SortedMap.get?_insert_of_ne _ (h gap List.mem_cons_self) _

theorem get?_foldl_insert_of_mem {gaps : List (Nat × Bytes)} {blocks : SortedMap Nat Block}
    {gap : Nat × Bytes} (hnodup : gaps.Pairwise (fun a b => a.1 ≠ b.1)) (hgap : gap ∈ gaps) :
    (gaps.foldl (fun blocks gap => blocks.insert gap.1 { data := gap.2, lastAccess := stamp })
      blocks).get? gap.1 = some { data := gap.2, lastAccess := stamp } := by
  induction gaps generalizing blocks with
  | nil => cases hgap
  | cons first rest ih =>
      rw [List.pairwise_cons] at hnodup
      rw [List.foldl_cons]
      rcases List.mem_cons.mp hgap with heq | hrest
      · subst heq
        rw [get?_foldl_insert_of_ne hnodup.1, SortedMap.get?_insert_self]
      · exact ih hnodup.2 hrest

theorem Apart.gaps_nodup (h : b.Apart) :
    (gaps b.blocks.entries offset data).Pairwise (fun x y => x.1 ≠ y.1) := by
  refine (gaps_apart h.inRow).imp_of_mem ?_
  intro x y hx hy hle heq
  have hpos := (isGap_of_mem_gaps h.inRow x hx).nonempty
  omega

theorem Apart.get?_gap (h : b.Apart) {gap : Nat × Bytes}
    (hgap : gap ∈ gaps b.blocks.entries offset data) : b.blocks.get? gap.1 = none := by
  cases hblock : b.blocks.get? gap.1 with
  | none => rfl
  | some block =>
      have hisGap := isGap_of_mem_gaps h.inRow gap hgap
      have hpos := hisGap.nonempty
      have hfull := h.nonempty hblock
      rcases hisGap.apart _ (SortedMap.get?_eq_some_iff.mp hblock) with hleft | hright
      · simp only at hleft
        omega
      · simp only at hright
        omega

theorem Apart.get?_fill_of_some (h : b.Apart) {start : Nat} {block : Block}
    (hblock : b.blocks.get? start = some block) :
    (b.fill offset data stamp).1.blocks.get? start = some block := by
  rw [fill_eq]
  have hne : ∀ gap ∈ gaps b.blocks.entries offset data, start ≠ gap.1 := by
    intro gap hgap heq
    rw [heq, h.get?_gap hgap] at hblock
    cases hblock
  exact (get?_foldl_insert_of_ne hne).trans hblock

theorem Apart.get?_fill_of_gap (h : b.Apart) {gap : Nat × Bytes}
    (hgap : gap ∈ gaps b.blocks.entries offset data) :
    (b.fill offset data stamp).1.blocks.get? gap.1 =
      some { data := gap.2, lastAccess := stamp } := by
  rw [fill_eq]
  exact get?_foldl_insert_of_mem h.gaps_nodup hgap

theorem Apart.get?_fill (h : b.Apart) {start : Nat} {block : Block}
    (hblock : (b.fill offset data stamp).1.blocks.get? start = some block) :
    b.blocks.get? start = some block ∨
      ∃ gap ∈ gaps b.blocks.entries offset data, gap.1 = start ∧ block.data = gap.2 := by
  by_cases hgap : ∃ gap ∈ gaps b.blocks.entries offset data, gap.1 = start
  · rcases hgap with ⟨gap, hgap, heq⟩
    subst heq
    rw [h.get?_fill_of_gap hgap] at hblock
    cases hblock
    exact Or.inr ⟨gap, hgap, rfl, rfl⟩
  · have hne : ∀ gap ∈ gaps b.blocks.entries offset data, start ≠ gap.1 :=
      fun gap hmem heq => hgap ⟨gap, hmem, heq.symm⟩
    rw [fill_eq] at hblock
    exact Or.inl ((get?_foldl_insert_of_ne hne).symm.trans hblock)

theorem Apart.fill (h : b.Apart) : (b.fill offset data stamp).1.Apart where
  nonempty := by
    intro start block hblock
    rcases h.get?_fill hblock with hold | hnew
    · exact h.nonempty hold
    · rcases hnew with ⟨gap, hgap, -, hdata⟩
      rw [hdata]
      exact (isGap_of_mem_gaps h.inRow gap hgap).nonempty
  apart := by
    intro s t x y hx hy hlt
    rcases h.get?_fill hx with hxold | hxnew
    · rcases h.get?_fill hy with hyold | hynew
      · exact h.apart hxold hyold hlt
      · rcases hynew with ⟨gap, hgap, hstart, -⟩
        subst hstart
        rcases (isGap_of_mem_gaps h.inRow gap hgap).apart _
          (SortedMap.get?_eq_some_iff.mp hxold) with hleft | hright
        · exact hleft
        · simp only at hright
          omega
    · rcases hxnew with ⟨gap, hgap, hstart, hdata⟩
      subst hstart
      rw [hdata]
      rcases h.get?_fill hy with hyold | hynew
      · rcases (isGap_of_mem_gaps h.inRow gap hgap).apart _
          (SortedMap.get?_eq_some_iff.mp hyold) with hleft | hright
        · simp only at hleft
          omega
        · exact hright
      · rcases hynew with ⟨other, hother, hstart', -⟩
        subst hstart'
        exact le_of_apart (gaps_apart h.inRow) hgap hother hlt

/-- The byte that a filling adds are held afterwards, and no other is lost. -/
theorem Apart.covers_fill (h : b.Apart) {o : Nat}
    (ho : b.Covers o ∨ offset ≤ o ∧ o < offset + data.length) :
    (b.fill offset data stamp).1.Covers o := by
  have hold : b.Covers o → (b.fill offset data stamp).1.Covers o := by
    intro hcovers
    rcases hcovers with ⟨start, block, hblock, hin⟩
    exact ⟨start, block, h.get?_fill_of_some hblock, hin⟩
  rcases ho with hcovers | hrange
  · exact hold hcovers
  · rcases @gaps_cover b.blocks.entries _ _ _ hrange.1 hrange.2 with hgap | hentry
    · rcases hgap with ⟨gap, hgap, hin⟩
      exact ⟨gap.1, _, h.get?_fill_of_gap hgap, hin⟩
    · rcases hentry with ⟨e, he, hin⟩
      exact hold ⟨e.1, e.2, SortedMap.get?_eq_some_iff.mpr he, hin⟩

end SegmentBlocks
end TieredStore
