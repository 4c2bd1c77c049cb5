import TieredStore.Proofs.Table.Following

/-!
# Replaying operations

A log holds operations of which each is regular in the table that those before it
lead to.  Such operations can be applied again from the start, or from any
snapshot among them, and lead to a table that describes the same contents.  Only
one thing can stand in the way: a name that was free in the live table may be
taken in the replayed one.
-/

namespace TieredStore

def Table.performAll (table : Table) (ops : List Operation) : Table := ops.foldl perform table

def Contents.afterAll (content : Contents) (ops : List Operation) : Contents :=
  ops.foldl after content

def Table.names (table : Table) : List String := table.list.map (·.name)

namespace Operation

/-- Each operation is regular in the table that those before it lead to. -/
def AllRegular : Contents → Table → List Operation → Prop
  | _, _, [] => True
  | content, table, op :: rest =>
      op.Regular content table ∧ AllRegular (content.after op) (table.perform op) rest

def AllNamesFree : Table → List Operation → Prop
  | _, [] => True
  | table, op :: rest => op.NameFree table ∧ AllNamesFree (table.perform op) rest

/--
No segment is created under a name that is taken.  Names stay taken when their
segments are gone; only a snapshot says anew which names are taken.
-/
def NamesApart : (taken : List String) → List Operation → Prop
  | _, [] => True
  | taken, .create _ name :: rest => name ∉ taken ∧ NamesApart (name :: taken) rest
  | taken, .createBatch _ name _ :: rest => name ∉ taken ∧ NamesApart (name :: taken) rest
  | _, .checkpoint table :: rest => NamesApart table.names rest
  | taken, .append .. :: rest => NamesApart taken rest
  | taken, .seal .. :: rest => NamesApart taken rest
  | taken, .merge .. :: rest => NamesApart taken rest
  | taken, .truncate .. :: rest => NamesApart taken rest

variable {content : Contents} {table : Table} {ops : List Operation}

theorem allRegular_append {before after : List Operation} :
    AllRegular content table (before ++ after) ↔
      AllRegular content table before ∧
        AllRegular (content.afterAll before) (table.performAll before) after := by
  induction before generalizing content table with
  | nil => exact (and_iff_right trivial).symm
  | cons op rest ih =>
      rw [List.cons_append, AllRegular, AllRegular, ih, and_assoc]
      exact Iff.rfl

theorem AllRegular.consistent (h : AllRegular content table ops)
    (htable : table.Consistent content) :
    (table.performAll ops).Consistent (content.afterAll ops) := by
  induction ops generalizing content table with
  | nil => exact htable
  | cons op rest ih => exact ih h.2 (htable.perform h.1)

end Operation

/-!
## Names
-/

namespace Table

variable {table : Table} {content : Contents} {id : SegmentId} {name : String}

theorem mem_names : name ∈ table.names ↔ ∃ id s, table.get? id = some s ∧ s.name = name := by
  unfold names
  rw [List.mem_map]
  constructor
  · intro h
    rcases h with ⟨s, hs, hname⟩
    rcases mem_list.mp hs with ⟨id, hid⟩
    exact ⟨id, s, hid, hname⟩
  · intro h
    rcases h with ⟨id, s, hs, hname⟩
    exact ⟨s, mem_list.mpr ⟨id, hs⟩, hname⟩

theorem lookup?_eq_none_iff_not_mem : table.lookup? name = none ↔ name ∉ table.names := by
  rw [lookup?_eq_none_iff]
  unfold names
  rw [List.mem_map]
  constructor
  · intro h hmem
    rcases hmem with ⟨s, hs, hname⟩
    exact h s hs hname
  · intro h s hs hname
    exact h ⟨s, hs, hname⟩

theorem mem_names_modify {change : Segment → Segment} (hname : ∀ s, (change s).name = s.name) :
    name ∈ (table.modify id change).names ↔ name ∈ table.names := by
  rw [mem_names, mem_names]
  constructor
  · intro h
    rcases h with ⟨other, t, ht, heq⟩
    rcases get?_of_get?_modify ht with ⟨s, hs, hold | hself⟩
    · rw [hold.2] at heq
      exact ⟨other, s, hs, heq⟩
    · rw [hself.2, hname s] at heq
      exact ⟨other, s, hs, heq⟩
  · intro h
    rcases h with ⟨other, t, ht, heq⟩
    by_cases hother : other = id
    · subst hother
      refine ⟨other, change t, ?_, (hname t).trans heq⟩
      rw [get?_modify_self, ht]
      rfl
    · refine ⟨other, t, ?_, heq⟩
      rw [get?_modify_of_ne table hother]
      exact ht

theorem Consistent.mem_names_add (h : table.Consistent content) {s : Segment}
    (hfresh : table.nextId ≤ s.id) :
    name ∈ (table.add s).names ↔ name ∈ s.name :: table.names := by
  rw [mem_names, List.mem_cons, mem_names]
  constructor
  · intro hin
    rcases hin with ⟨other, t, ht, heq⟩
    by_cases hother : other = s.id
    · rw [hother, get?_add_self] at ht
      cases ht
      exact Or.inl heq.symm
    · rw [get?_add_of_ne table hother] at ht
      exact Or.inr ⟨other, t, ht, heq⟩
  · intro hin
    rcases hin with hnew | hold
    · exact ⟨s.id, s, get?_add_self _ _, hnew.symm⟩
    · rcases hold with ⟨other, t, ht, heq⟩
      refine ⟨other, t, ?_, heq⟩
      rw [get?_add_of_ne table ?_]
      · exact ht
      · intro hother
        rw [hother] at ht
        exact absurd (h.id_lt ht) (Nat.not_lt.mpr hfresh)

theorem WellFormed.add (h : table.WellFormed) {s : Segment}
    (hname : s.name ∉ table.names) : (table.add s).WellFormed := by
  have hcases : ∀ {other t}, (table.add s).get? other = some t →
      other = s.id ∧ t = s ∨ table.get? other = some t := by
    intro other t ht
    by_cases hother : other = s.id
    · rw [hother, get?_add_self] at ht
      cases ht
      exact Or.inl ⟨hother, rfl⟩
    · rw [get?_add_of_ne table hother] at ht
      exact Or.inr ht
  have hfree : ∀ {other t}, table.get? other = some t → t.name ≠ s.name := by
    intro other t ht heq
    exact hname (mem_names.mpr ⟨other, t, ht, heq⟩)
  refine { id_eq := ?_, id_lt := ?_, name_inj := ?_ }
  · intro other t ht
    rcases hcases ht with hnew | hold
    · rw [hnew.1, hnew.2]
    · exact h.id_eq hold
  · intro other t ht
    rcases hcases ht with hnew | hold
    · rw [hnew.1]
      exact Nat.lt_of_lt_of_le (Nat.lt_succ_self _) (Nat.le_max_right _ _)
    · exact Nat.lt_of_lt_of_le (h.id_lt hold) (Nat.le_max_left _ _)
  · intro a b x y hx hy heq
    rcases hcases hx with hxnew | hxold
    · rcases hcases hy with hynew | hyold
      · rw [hxnew.1, hynew.1]
      · rw [hxnew.2] at heq
        exact absurd heq.symm (hfree hyold)
    · rcases hcases hy with hynew | hyold
      · rw [hynew.2] at heq
        exact absurd heq (hfree hxold)
      · exact h.name_inj hxold hyold heq

theorem WellFormed.perform_merge (h : table.WellFormed) (parent batch : SegmentId)
    (length offset : Nat) : (table.perform (.merge parent batch length offset)).WellFormed := by
  have hmarked : (table.modify batch ({ · with merged := true })).WellFormed :=
    h.modify (fun _ => rfl) fun _ => rfl
  exact hmarked.modify (fun _ => rfl) fun _ => rfl

theorem WellFormed.perform (h : table.WellFormed) {op : Operation}
    (hop : op.Regular content table) (hfree : op.NameFree table) :
    (table.perform op).WellFormed := by
  cases op with
  | append segment offset client event data => exact h.modify (fun _ => rfl) fun _ => rfl
  | «seal» segment length => exact h.modify (fun _ => rfl) fun _ => rfl
  | merge parent batch length offset => exact h.perform_merge parent batch length offset
  | checkpoint snapshot => exact (hop.snapshot snapshot rfl).2.1
  | create segment name =>
      exact h.add (lookup?_eq_none_iff_not_mem.mp (hfree name rfl))
  | createBatch batch name parent =>
      exact h.add (lookup?_eq_none_iff_not_mem.mp (hfree name rfl))
  | truncate segment offset => exact h.modify (fun _ => rfl) fun _ => rfl

end Table

namespace Operation

variable {content : Contents} {table : Table} {ops : List Operation}

theorem AllNamesFree.wellFormed (h : AllNamesFree table ops) (hops : AllRegular content table ops)
    (htable : table.WellFormed) : (table.performAll ops).WellFormed := by
  induction ops generalizing content table with
  | nil => exact htable
  | cons op rest ih => exact ih h.2 hops.2 (htable.perform hops.1 h.1)

theorem namesApart_congr {taken other : List String} (h : ∀ name, name ∈ taken ↔ name ∈ other) :
    NamesApart taken ops ↔ NamesApart other ops := by
  induction ops generalizing taken other with
  | nil => exact Iff.rfl
  | cons op rest ih =>
      have hcons : ∀ new name : String, name ∈ new :: taken ↔ name ∈ new :: other := by
        intro new name
        rw [List.mem_cons, List.mem_cons, h name]
      cases op with
      | create segment name =>
          show (_ ∧ _) ↔ (_ ∧ _)
          rw [h name, ih (hcons name)]
      | createBatch batch name parent =>
          show (_ ∧ _) ↔ (_ ∧ _)
          rw [h name, ih (hcons name)]
      | checkpoint snapshot => exact Iff.rfl
      | append segment offset client event data => exact ih h
      | «seal» segment length => exact ih h
      | merge parent batch length offset => exact ih h
      | truncate segment offset => exact ih h

theorem nameFree_of_name?_eq_none {op : Operation} (h : op.name? = none) : op.NameFree table := by
  intro name hname
  rw [h] at hname
  cases hname

theorem nameFree_iff {op : Operation} {name : String} (h : op.name? = some name) :
    op.NameFree table ↔ name ∉ table.names := by
  unfold NameFree
  rw [h]
  constructor
  · intro hfree
    exact Table.lookup?_eq_none_iff_not_mem.mp (hfree name rfl)
  · intro hnot other hother
    cases hother
    exact Table.lookup?_eq_none_iff_not_mem.mpr hnot

/-- Regular operations find their names free exactly if no name is taken twice. -/
theorem allNamesFree_iff (hops : AllRegular content table ops) (htable : table.Consistent content) :
    AllNamesFree table ops ↔ NamesApart table.names ops := by
  induction ops generalizing content table with
  | nil => exact Iff.rfl
  | cons op rest ih =>
      have hrest := ih hops.2 (htable.perform hops.1)
      have hsame : ∀ taken : List String,
          (∀ name, name ∈ (table.perform op).names ↔ name ∈ taken) →
          (AllNamesFree (table.perform op) rest ↔ NamesApart taken rest) :=
        fun taken htaken => hrest.trans (namesApart_congr htaken)
      cases op with
      | create segment name =>
          show (_ ∧ _) ↔ (_ ∧ _)
          rw [nameFree_iff rfl,
            hsame (name :: table.names) fun _ => htable.mem_names_add (hops.1.fresh segment rfl)]
      | createBatch batch name parent =>
          show (_ ∧ _) ↔ (_ ∧ _)
          rw [nameFree_iff rfl,
            hsame (name :: table.names) fun _ => htable.mem_names_add (hops.1.fresh batch rfl)]
      | checkpoint snapshot =>
          exact (and_iff_right (nameFree_of_name?_eq_none rfl)).trans hrest
      | append segment offset client event data =>
          exact (and_iff_right (nameFree_of_name?_eq_none rfl)).trans
            (hsame table.names fun _ => Table.mem_names_modify fun _ => rfl)
      | «seal» segment length =>
          exact (and_iff_right (nameFree_of_name?_eq_none rfl)).trans
            (hsame table.names fun _ => Table.mem_names_modify fun _ => rfl)
      | merge parent batch length offset =>
          have hsealed : ∀ name, name ∈ (table.modify batch ({ · with merged := true })).names ↔
              name ∈ table.names := fun _ => Table.mem_names_modify fun _ => rfl
          refine (and_iff_right (nameFree_of_name?_eq_none rfl)).trans (hsame table.names ?_)
          intro name
          refine Iff.trans ?_ (hsealed name)
          refine Table.mem_names_modify ?_
          intro s
          rfl
      | truncate segment offset =>
          exact (and_iff_right (nameFree_of_name?_eq_none rfl)).trans
            (hsame table.names fun _ => Table.mem_names_modify fun _ => rfl)

/--
Operations lead from an empty table to this one, which describes these contents.
They start with a snapshot, or nothing was there before them.
-/
def Replayable (content : Contents) (replayed : Table) (ops : List Operation) : Prop :=
  ∃ base, AllRegular base {} ops ∧ base.afterAll ops = content ∧
    Table.performAll {} ops = replayed ∧
    (base = Contents.empty ∨ ∃ snapshot rest, ops = .checkpoint snapshot :: rest)

theorem Replayable.allNamesFree_iff {replayed : Table} (h : Replayable content replayed ops) :
    AllNamesFree {} ops ↔ NamesApart [] ops := by
  rcases h with ⟨base, hregular, -, -, hstart⟩
  rcases hstart with hempty | hsnapshot
  · subst hempty
    exact Operation.allNamesFree_iff hregular Table.Consistent.empty
  · rcases hsnapshot with ⟨snapshot, rest, hops⟩
    subst hops
    refine (and_iff_right (nameFree_of_name?_eq_none rfl)).trans ?_
    exact Operation.allNamesFree_iff hregular.2 (hregular.1.snapshot snapshot rfl).1

end Operation
end TieredStore
