import TieredStore.Medium.NameMap
import TieredStore.Proofs.Table.Finishing

/-!
# Tables beside an index of their names

A table finds a segment by its name by going through the list.  An index need not:
it notes the name of every segment that is created, strikes out the name of every
batch that is gone, and is made anew for a snapshot.  Along every run of changes the
two find the same segments, and the table stays coherent.
-/

namespace TieredStore
namespace Table

variable {table : Table} {id : SegmentId} {s : Segment} {name : String}

/-!
## Look-ups by name
-/

theorem WellFormed.lookup?_eq_some_iff (h : table.WellFormed) :
    table.lookup? name = some id ↔ ∃ s, table.get? id = some s ∧ s.name = name := by
  unfold lookup?
  rw [Option.map_eq_some_iff]
  constructor
  · intro hfound
    rcases hfound with ⟨s, hs, rfl⟩
    refine ⟨s, h.mem_list_iff.mp (List.mem_of_find?_eq_some hs), ?_⟩
    simpa using List.find?_some hs
  · intro hfound
    rcases hfound with ⟨s, hs, rfl⟩
    have hmem : s ∈ table.list := mem_list.mpr ⟨id, hs⟩
    cases hfind : table.list.find? (·.name = s.name) with
    | none =>
        have hnone := List.find?_eq_none.mp hfind s hmem
        simp at hnone
    | some t =>
        have hname : t.name = s.name := by simpa using List.find?_some hfind
        have ht := h.mem_list_iff.mp (List.mem_of_find?_eq_some hfind)
        exact ⟨t, rfl, h.name_inj ht hs hname⟩

theorem WellFormed.lookup?_congr (h : table.WellFormed) {other : Table} (hother : other.WellFormed)
    (hsame : ∀ id, (∃ s, table.get? id = some s ∧ s.name = name) ↔
      ∃ s, other.get? id = some s ∧ s.name = name) :
    table.lookup? name = other.lookup? name := by
  refine Option.ext fun id => ?_
  rw [h.lookup?_eq_some_iff, hother.lookup?_eq_some_iff]
  exact hsame id

theorem WellFormed.lookup?_modify (h : table.WellFormed) {change : Segment → Segment}
    (hid : ∀ s, (change s).id = s.id) (hname : ∀ s, (change s).name = s.name) :
    (table.modify id change).lookup? name = table.lookup? name := by
  refine (h.modify hid hname).lookup?_congr h fun other => ?_
  by_cases hother : other = id
  · subst hother
    rw [get?_modify_self]
    cases table.get? other with
    | none => simp
    | some s => simp [hname]
  · rw [get?_modify_of_ne table hother]

theorem WellFormed.lookup?_add (h : table.WellFormed) (hfree : table.get? s.id = none)
    (hname : s.name ∉ table.names) :
    (table.add s).lookup? name = if name = s.name then some s.id else table.lookup? name := by
  refine Option.ext fun other => ?_
  rw [(h.add hname).lookup?_eq_some_iff]
  by_cases hnew : name = s.name
  · rw [if_pos hnew]
    constructor
    · intro hfound
      rcases hfound with ⟨t, ht, htname⟩
      by_cases hother : other = s.id
      · rw [hother]
      · rw [get?_add_of_ne table hother] at ht
        exact absurd (mem_names.mpr ⟨other, t, ht, htname.trans hnew⟩) hname
    · intro hsame
      cases hsame
      exact ⟨s, get?_add_self table s, hnew.symm⟩
  · rw [if_neg hnew, h.lookup?_eq_some_iff]
    by_cases hother : other = s.id
    · rw [hother, get?_add_self, hfree]
      simp [Ne.symm hnew]
    · rw [get?_add_of_ne table hother]

theorem WellFormed.lookup?_without (h : table.WellFormed) (hs : table.get? id = some s) :
    (table.without id).lookup? name = if name = s.name then none else table.lookup? name := by
  have hwithout : (table.without id).WellFormed := by
    refine h.of_same_names rfl fun {other t} ht => ⟨t, ?_, rfl, rfl⟩
    by_cases hother : other = id
    · rw [hother, get?_without_self] at ht
      cases ht
    · rwa [get?_without_of_ne table hother] at ht
  refine Option.ext fun other => ?_
  rw [hwithout.lookup?_eq_some_iff]
  by_cases hother : other = id
  · rw [hother, get?_without_self]
    by_cases hname : name = s.name
    · simp [hname]
    · simp only [if_neg hname, h.lookup?_eq_some_iff, hs]
      simp [Ne.symm hname]
  · rw [get?_without_of_ne table hother]
    by_cases hname : name = s.name
    · rw [if_pos hname]
      constructor
      · intro hfound
        rcases hfound with ⟨t, ht, htname⟩
        exact absurd (h.name_inj ht hs (htname.trans hname)) hother
      · intro hnone
        cases hnone
    · rw [if_neg hname, h.lookup?_eq_some_iff]

end Table

/-!
## The index
-/

def Table.index (table : Table) : NameMap SegmentId :=
  table.list.foldl (fun names s => names.set s.name s.id) {}

private theorem get?_foldl_set {name : String} :
    ∀ {segments : List Segment} (names : NameMap SegmentId), (segments.map (·.name)).Nodup →
      (segments.foldl (fun names s => names.set s.name s.id) names).get? name =
        ((segments.find? (·.name = name)).map (·.id)).or (names.get? name)
  | [], names, _ => rfl
  | s :: rest, names, h => by
      rw [List.map_cons, List.nodup_cons] at h
      rw [List.foldl_cons, get?_foldl_set _ h.2]
      by_cases hname : s.name = name
      · have hnone : rest.find? (·.name = name) = none := by
          refine List.find?_eq_none.mpr fun t ht htname => h.1 ?_
          rw [hname]
          exact List.mem_map.mpr ⟨t, ht, by simpa using htname⟩
        rw [hnone, List.find?_cons_of_pos (by simpa using hname), ← hname]
        simp
      · rw [List.find?_cons_of_neg (by simpa using hname), NameMap.get?_set_of_ne _ (Ne.symm hname)]

theorem Table.WellFormed.get?_index {table : Table} (h : table.WellFormed) (name : String) :
    table.index.get? name = table.lookup? name := by
  unfold Table.index
  rw [get?_foldl_set _ h.names_nodup, NameMap.get?_nil, Option.or_none]
  rfl

def Operation.index (names : NameMap SegmentId) : Operation → NameMap SegmentId
  | .create segment name => names.set name segment
  | .createBatch batch name _ => names.set name batch
  | .checkpoint snapshot => snapshot.index
  | .append .. | .seal .. | .merge .. | .truncate .. => names

inductive TableChange
  /-- An operation, which changes nothing if it is refused. -/
  | operation (op : Operation)
  /-- The tier is said to hold so much of a segment. -/
  | stored (segment : SegmentId) (length : Nat)
  /-- The merge of a batch is said to be finished; there may be none. -/
  | joined (parent batch : SegmentId)

def TableChange.SnapshotCoherent : TableChange → Prop
  | .operation (.checkpoint snapshot) => snapshot.Coherent
  | _ => True

/-- A table and the index that its changes keep up to date. -/
structure IndexedTable where
  table : Table := {}
  names : NameMap SegmentId := {}

namespace IndexedTable

def apply (indexed : IndexedTable) (op : Operation) : IndexedTable :=
  match indexed.table.apply op with
  | .ok after => { table := after, names := op.index indexed.names }
  | .error _ => indexed

def finish (indexed : IndexedTable) (parent batch : SegmentId) : IndexedTable :=
  match indexed.table.completeMerge? parent batch with
  | none => indexed
  | some (_, after) =>
      { table := after
        names := match indexed.table.get? batch with
          | some b => indexed.names.erase b.name
          | none => indexed.names }

def change (indexed : IndexedTable) : TableChange → IndexedTable
  | .operation op => indexed.apply op
  | .stored segment length =>
      { indexed with table := indexed.table.setStorageLength segment length }
  | .joined parent batch => indexed.finish parent batch

def run (changes : List TableChange) : IndexedTable := changes.foldl change {}

structure Intact (indexed : IndexedTable) : Prop where
  coherent : indexed.table.Coherent
  get?_names : ∀ name, indexed.names.get? name = indexed.table.lookup? name

variable {indexed : IndexedTable} {after : Table}

theorem Intact.empty : Intact {} where
  coherent := Table.Coherent.empty
  get?_names := fun _ => rfl

theorem Intact.get?_index_operation (h : indexed.Intact) {op : Operation}
    (happly : indexed.table.apply op = .ok after)
    (hsnapshot : ∀ t, op = .checkpoint t → t.Coherent) (name : String) :
    (op.index indexed.names).get? name = after.lookup? name := by
  have hwf := h.coherent.wellFormed
  rcases Table.apply_eq_ok_iff.mp happly with ⟨hfits, hfree, rfl⟩
  have hcreated : ∀ s : Segment, op.name? = some s.name → indexed.table.get? s.id = none →
      (indexed.names.set s.name s.id).get? name = (indexed.table.add s).lookup? name := by
    intro s hname hid
    rw [hwf.lookup?_add hid (Table.lookup?_eq_none_iff_not_mem.mp (hfree _ hname)),
      ← h.get?_names]
    split
    · rename_i heq
      rw [heq, NameMap.get?_set_self]
    · rename_i hne
      rw [NameMap.get?_set_of_ne _ hne]
  cases op with
  | append segment offset client event data =>
      refine (h.get?_names name).trans (Eq.symm ?_)
      exact hwf.lookup?_modify (fun _ => rfl) fun _ => rfl
  | «seal» segment length =>
      refine (h.get?_names name).trans (Eq.symm ?_)
      exact hwf.lookup?_modify (fun _ => rfl) fun _ => rfl
  | merge parent batch length offset =>
      have hmarked : (indexed.table.modify batch ({ · with merged := true })).WellFormed :=
        hwf.modify (fun _ => rfl) fun _ => rfl
      have hsame : (indexed.table.modify batch ({ · with merged := true })).lookup? name =
          indexed.table.lookup? name := hwf.lookup?_modify (fun _ => rfl) fun _ => rfl
      refine ((h.get?_names name).trans hsame.symm).trans (Eq.symm ?_)
      exact hmarked.lookup?_modify (fun _ => rfl) fun _ => rfl
  | checkpoint snapshot => exact (hsnapshot snapshot rfl).wellFormed.get?_index name
  | create segment name' => exact hcreated { id := segment, name := name' } rfl hfits.2
  | createBatch batch name' parent =>
      exact hcreated { id := batch, name := name', parent := some parent } rfl hfits.2.1
  | truncate segment offset =>
      refine (h.get?_names name).trans (Eq.symm ?_)
      exact hwf.lookup?_modify (fun _ => rfl) fun _ => rfl

theorem Intact.apply (h : indexed.Intact) {op : Operation}
    (hsnapshot : ∀ t, op = .checkpoint t → t.Coherent) : (indexed.apply op).Intact := by
  unfold IndexedTable.apply
  cases happly : indexed.table.apply op with
  | ok after => exact ⟨h.coherent.apply hsnapshot happly, h.get?_index_operation happly hsnapshot⟩
  | error refusal => exact h

theorem Intact.setStorageLength (h : indexed.Intact) (segment : SegmentId) (length : Nat) :
    Intact { indexed with table := indexed.table.setStorageLength segment length } := by
  refine ⟨h.coherent.setStorageLength segment length, fun name => ?_⟩
  refine (h.get?_names name).trans (Eq.symm ?_)
  exact h.coherent.wellFormed.lookup?_modify (fun _ => rfl) fun _ => rfl

theorem Intact.finish (h : indexed.Intact) (parent batch : SegmentId) :
    (indexed.finish parent batch).Intact := by
  unfold IndexedTable.finish
  cases hdone : indexed.table.completeMerge? parent batch with
  | none => exact h
  | some done =>
      obtain ⟨m, after⟩ := done
      refine ⟨h.coherent.completeMerge hdone, fun name => ?_⟩
      have hwf := h.coherent.wellFormed
      rcases h.coherent.completeMerge_eq hdone with ⟨s, b, -, hb, hparent, -, rfl⟩
      have hbatch : (indexed.table.modify parent (·.finishing batch m.stop)).get? batch =
          some b := by
        rw [Table.get?_modify_of_ne _ (h.coherent.parent_ne hb hparent).symm]
        exact hb
      have hmodified : (indexed.table.modify parent (·.finishing batch m.stop)).WellFormed :=
        hwf.modify (fun _ => rfl) fun _ => rfl
      have hsame : (indexed.table.modify parent (·.finishing batch m.stop)).lookup? name =
          indexed.table.lookup? name := hwf.lookup?_modify (fun _ => rfl) fun _ => rfl
      simp only [hb]
      rw [NameMap.get?_erase, hmodified.lookup?_without hbatch, hsame, h.get?_names]

theorem Intact.change (h : indexed.Intact) {c : TableChange} (hc : c.SnapshotCoherent) :
    (indexed.change c).Intact := by
  cases c with
  | operation op =>
      refine h.apply fun t ht => ?_
      subst ht
      exact hc
  | stored segment length => exact h.setStorageLength segment length
  | joined parent batch => exact h.finish parent batch

theorem Intact.run (h : indexed.Intact) {changes : List TableChange}
    (hchanges : ∀ c ∈ changes, c.SnapshotCoherent) :
    (changes.foldl IndexedTable.change indexed).Intact := by
  induction changes generalizing indexed with
  | nil => exact h
  | cons c rest ih =>
      have hnext := h.change (hchanges c List.mem_cons_self)
      exact ih hnext fun c' hc' => hchanges c' (List.mem_cons_of_mem _ hc')

/--
Along every run of changes the parts of the table agree, and by name exactly its segments
are found.  This holds whatever ids the operations create, for reports that the tier holds
any part of any segment, and for merges that are finished in any order; only a snapshot has
to be one of a coherent table.
-/
theorem run_coherent (changes : List TableChange) (h : ∀ c ∈ changes, c.SnapshotCoherent) :
    (run changes).table.Coherent ∧
      (∀ name id, (run changes).table.lookup? name = some id ↔
        ∃ s, (run changes).table.get? id = some s ∧ s.name = name) ∧
      ∀ name, (run changes).names.get? name = (run changes).table.lookup? name := by
  have hintact := Intact.empty.run h
  exact ⟨hintact.coherent, fun _ _ => hintact.coherent.wellFormed.lookup?_eq_some_iff,
    hintact.get?_names⟩

/-- Two batches are merged, and the later one is finished first. -/
private def laterFirst : List TableChange :=
  [.operation (.create 1 "p"), .operation (.createBatch 2 "b" 1),
    .operation (.createBatch 5 "c" 1), .operation (.append 2 0 7 1 [104, 105]),
    .operation (.append 1 0 7 1 [33]), .operation (.append 1 3 7 2 [33]),
    .operation (.seal 2 2), .operation (.seal 5 0), .operation (.merge 1 2 2 1),
    .operation (.merge 1 5 0 3), .stored 1 2, .stored 9 9, .joined 1 3, .joined 1 5]

theorem run_coherent_later_first :
    let snapshot := (run laterFirst).table
    let changes := laterFirst ++ [.operation (.checkpoint snapshot), .joined 1 2]
    (∀ c ∈ changes, c.SnapshotCoherent) ∧ (run changes).table.Coherent ∧
      (run laterFirst).names.entries = [("p", 1), ("b", 2)] ∧
      (run changes).names.entries = [("p", 1)] := by
  have hfirst := run_coherent laterFirst (by simp [laterFirst, TableChange.SnapshotCoherent])
  have hsnapshots : ∀ c ∈ laterFirst ++
      [.operation (.checkpoint (run laterFirst).table), .joined 1 2], c.SnapshotCoherent := by
    simpa [laterFirst, TableChange.SnapshotCoherent] using hfirst.1
  refine ⟨hsnapshots, (run_coherent _ hsnapshots).1, ?_, ?_⟩
  · decide +kernel
  · decide +kernel

end IndexedTable
end TieredStore
