import TieredStore.Operation
import TieredStore.Proofs.Map.Entries

/-!
# Well-formed segment tables

A table keeps every segment under its own id, below the next id, and under a
name that no other segment has.  These are the tables that a snapshot can list:
building the table from the list of its segments gives the table back, and no
other table is built from such a list.
-/

namespace TieredStore

/-- Segments are kept under their ids, below the next id, and no two share a name. -/
structure Table.WellFormed (table : Table) : Prop where
  id_eq : ∀ {id segment}, table.get? id = some segment → segment.id = id
  id_lt : ∀ {id segment}, table.get? id = some segment → id < table.nextId
  name_inj : ∀ {a b s t}, table.get? a = some s → table.get? b = some t →
    s.name = t.name → a = b

def Operation.WellFormed : Operation → Prop
  | .checkpoint table => table.WellFormed
  | _ => True

theorem Operation.WellFormed.of_isCheckpoint_eq_false {op : Operation}
    (h : op.isCheckpoint = false) : op.WellFormed := by
  cases op with
  | checkpoint table => cases h
  | _ => trivial

namespace Table

theorem mem_list {table : Table} {segment : Segment} :
    segment ∈ table.list ↔ ∃ id, table.get? id = some segment :=
  SortedMap.mem_values

theorem WellFormed.empty : Table.WellFormed {} where
  id_eq := fun h => nomatch h
  id_lt := fun h => nomatch h
  name_inj := fun h => nomatch h

theorem WellFormed.mem_list_iff {table : Table} (h : table.WellFormed) {segment : Segment} :
    segment ∈ table.list ↔ table.get? segment.id = some segment := by
  rw [mem_list]
  constructor
  · intro hmem
    obtain ⟨id, hid⟩ := hmem
    rw [h.id_eq hid]
    exact hid
  · intro hid
    exact ⟨segment.id, hid⟩

theorem lookup?_eq_none_iff {table : Table} {name : String} :
    table.lookup? name = none ↔ ∀ segment ∈ table.list, segment.name ≠ name := by
  unfold lookup?
  rw [Option.map_eq_none_iff, List.find?_eq_none]
  simp

/-!
## Listing and rebuilding
-/

theorem WellFormed.entries_eq {table : Table} (h : table.WellFormed) :
    table.segments.entries = table.list.map fun s => (s.id, s) := by
  unfold list SortedMap.values
  rw [List.map_map]
  refine (List.map_id table.segments.entries).symm.trans (List.map_congr_left ?_)
  intro e he
  obtain ⟨id, segment⟩ := e
  have hid : table.get? id = some segment := SortedMap.get?_eq_some_iff.mpr he
  simp [h.id_eq hid]

theorem WellFormed.ids_ascending {table : Table} (h : table.WellFormed) :
    table.list.Pairwise (fun a b => a.id < b.id) := by
  have hsorted := table.segments.ascending
  rw [h.entries_eq, List.pairwise_map] at hsorted
  exact hsorted

theorem WellFormed.names_nodup {table : Table} (h : table.WellFormed) :
    (table.list.map (·.name)).Nodup := by
  rw [List.Nodup, List.pairwise_map]
  refine h.ids_ascending.imp_of_mem ?_
  intro a b ha hb hlt hname
  have hid := h.name_inj (h.mem_list_iff.mp ha) (h.mem_list_iff.mp hb) hname
  rw [hid] at hlt
  exact Nat.lt_irrefl _ hlt

private theorem foldlM_addListed :
    ∀ (segments : List Segment) (table : Table),
      (table.segments.entries ++ segments.map fun s => (s.id, s)).Pairwise
        (fun a b => a.1 < b.1) →
      (table.list ++ segments).Pairwise (fun a b => a.name ≠ b.name) →
      (∀ s ∈ segments, s.id < table.nextId) →
      ∃ after, segments.foldlM addListed table = .ok after ∧ after.nextId = table.nextId ∧
        after.segments.entries = table.segments.entries ++ segments.map fun s => (s.id, s)
  | [], table, _, _, _ => ⟨table, rfl, rfl, by simp⟩
  | s :: rest, table, hids, hnames, hlt => by
      have hfresh : ∀ e ∈ table.segments.entries, e.1 < s.id := by
        intro e he
        exact (List.pairwise_append.mp hids).2.2 e he (s.id, s) (by simp)
      have hname : table.lookup? s.name = none := by
        rw [lookup?_eq_none_iff]
        intro t ht
        exact (List.pairwise_append.mp hnames).2.2 t ht s List.mem_cons_self
      have hid : table.get? s.id = none := by
        cases hget : table.get? s.id with
        | none => rfl
        | some t =>
            have := hfresh (s.id, t) (SortedMap.get?_eq_some_iff.mp hget)
            simp at this
      have hins : (table.segments.insert s.id s).entries =
          table.segments.entries ++ [(s.id, s)] :=
        SortedMap.entries_insert_of_forall_lt s hfresh
      let next : Table := { table with segments := table.segments.insert s.id s }
      have hstep : table.addListed s = .ok next := by
        unfold addListed
        rw [if_neg (Nat.not_le.mpr (hlt s List.mem_cons_self)), hname, hid]
        rfl
      have hlist : next.list = table.list ++ [s] := by
        show (table.segments.insert s.id s).entries.map Prod.snd = _
        rw [hins, List.map_append]
        rfl
      obtain ⟨after, hafter, hnext, hentries⟩ :=
        foldlM_addListed rest next
          (by
            show ((table.segments.insert s.id s).entries ++ _).Pairwise _
            rw [hins]
            simpa using hids)
          (by
            rw [hlist]
            simpa using hnames)
          (fun t ht => hlt t (List.mem_cons_of_mem _ ht))
      refine ⟨after, ?_, hnext, ?_⟩
      · rw [List.foldlM_cons, hstep]
        exact hafter
      · rw [hentries]
        show (table.segments.insert s.id s).entries ++ _ = _
        rw [hins]
        simp

theorem WellFormed.ofSegments_list {table : Table} (h : table.WellFormed) :
    ofSegments table.list table.nextId = .ok table := by
  have hids : (({ segments := ∅, nextId := table.nextId } : Table).segments.entries ++
      table.list.map fun s => (s.id, s)).Pairwise (fun a b => a.1 < b.1) := by
    rw [← h.entries_eq]
    exact table.segments.ascending
  have hnames : (({ segments := ∅, nextId := table.nextId } : Table).list ++
      table.list).Pairwise (fun a b => a.name ≠ b.name) :=
    List.pairwise_map.mp h.names_nodup
  obtain ⟨after, hafter, hnext, hentries⟩ := foldlM_addListed _ _ hids hnames fun s hs =>
    h.id_lt (h.mem_list_iff.mp hs)
  rw [ofSegments, hafter]
  congr 1
  obtain ⟨segments, nextId⟩ := after
  obtain ⟨segments', nextId'⟩ := table
  cases hnext
  congr 1
  apply SortedMap.eq_of_entries
  rw [hentries, ← h.entries_eq]
  rfl

theorem addListed_eq_ok_iff {table after : Table} {s : Segment} :
    table.addListed s = .ok after ↔
      s.id < table.nextId ∧ table.lookup? s.name = none ∧ table.get? s.id = none ∧
        after = { table with segments := table.segments.insert s.id s } := by
  unfold addListed
  by_cases hlt : s.id < table.nextId
  · rw [if_neg (Nat.not_le.mpr hlt)]
    cases table.lookup? s.name <;> cases table.get? s.id <;> simp [hlt, eq_comm]
  · rw [if_pos (Nat.not_lt.mp hlt)]
    simp [hlt]

theorem WellFormed.addListed {table after : Table} (h : table.WellFormed) {s : Segment}
    (hadd : table.addListed s = .ok after) : after.WellFormed := by
  obtain ⟨hlt, hname, hfree, rfl⟩ := addListed_eq_ok_iff.mp hadd
  rw [lookup?_eq_none_iff] at hname
  have hcases : ∀ {id t}, (table.segments.insert s.id s).get? id = some t →
      (id = s.id ∧ t = s) ∨ table.get? id = some t := by
    intro id t hget
    rw [SortedMap.get?_insert] at hget
    split at hget
    · exact .inl ⟨‹_›, (Option.some.inj hget).symm⟩
    · exact .inr hget
  refine ⟨?_, ?_, ?_⟩
  · intro id t hget
    rcases hcases hget with ⟨rfl, rfl⟩ | hold
    · rfl
    · exact h.id_eq hold
  · intro id t hget
    rcases hcases hget with ⟨rfl, rfl⟩ | hold
    · exact hlt
    · exact h.id_lt hold
  · intro a b t u ha hb hsame
    rcases hcases ha with ⟨rfl, rfl⟩ | holda
    · rcases hcases hb with ⟨rfl, rfl⟩ | holdb
      · rfl
      · exact absurd hsame.symm (hname u (mem_list.mpr ⟨b, holdb⟩))
    · rcases hcases hb with ⟨rfl, rfl⟩ | holdb
      · exact absurd hsame (hname t (mem_list.mpr ⟨a, holda⟩))
      · exact h.name_inj holda holdb hsame

private theorem foldlM_addListed_wellFormed :
    ∀ (segments : List Segment) {table after : Table}, table.WellFormed →
      segments.foldlM Table.addListed table = .ok after → after.WellFormed
  | [], table, after, h, hfold => by
      cases hfold
      exact h
  | s :: rest, table, after, h, hfold => by
      rw [List.foldlM_cons] at hfold
      cases hadd : table.addListed s with
      | error cause =>
          rw [hadd] at hfold
          cases hfold
      | ok next =>
          rw [hadd] at hfold
          exact foldlM_addListed_wellFormed rest (h.addListed hadd) hfold

theorem wellFormed_of_ofSegments {segments : List Segment} {nextId : SegmentId} {table : Table}
    (h : ofSegments segments nextId = .ok table) : table.WellFormed := by
  have hempty : Table.WellFormed { segments := ∅, nextId } :=
    ⟨fun h => (nomatch h), fun h => (nomatch h), fun h => (nomatch h)⟩
  exact foldlM_addListed_wellFormed _ hempty h

private theorem foldlM_addListed_entries :
    ∀ {segments : List Segment} {table after : Table},
      segments.foldlM Table.addListed table = .ok after →
      after.nextId = table.nextId ∧
        (∀ entry ∈ after.segments.entries,
          entry ∈ table.segments.entries ∨ entry.2 ∈ segments) ∧
        ((table.segments.entries ++ segments.map fun s => (s.id, s)).Pairwise
            (fun a b => a.1 < b.1) →
          after.segments.entries = table.segments.entries ++ segments.map fun s => (s.id, s))
  | [], table, after, h => by
      cases h
      exact ⟨rfl, fun _ hmem => .inl hmem, fun _ => by simp⟩
  | s :: rest, table, after, h => by
      rw [List.foldlM_cons] at h
      cases hadd : table.addListed s with
      | error cause =>
          rw [hadd] at h
          cases h
      | ok next =>
          rw [hadd] at h
          obtain ⟨-, -, -, rfl⟩ := addListed_eq_ok_iff.mp hadd
          obtain ⟨hnext, hmem, hascending⟩ := foldlM_addListed_entries h
          refine ⟨hnext, ?_, ?_⟩
          · intro entry hentry
            rcases hmem entry hentry with hplaced | hrest
            · rcases SortedMap.mem_place hplaced with rfl | hold
              · exact .inr List.mem_cons_self
              · exact .inl hold
            · exact .inr (List.mem_cons_of_mem _ hrest)
          · intro hids
            have hins : (table.segments.insert s.id s).entries =
                table.segments.entries ++ [(s.id, s)] := by
              refine SortedMap.entries_insert_of_forall_lt s fun e he => ?_
              exact (List.pairwise_append.mp hids).2.2 e he (s.id, s) (by simp)
            rw [hascending (by rw [hins]; simpa using hids), hins]
            simp

theorem mem_of_ofSegments {segments : List Segment} {nextId : SegmentId} {table : Table}
    (h : ofSegments segments nextId = .ok table) {segment : Segment}
    (hmem : segment ∈ table.list) : segment ∈ segments := by
  obtain ⟨entry, hentry, rfl⟩ := List.mem_map.mp hmem
  rcases (foldlM_addListed_entries h).2.1 entry hentry with hnone | hlisted
  · cases hnone
  · exact hlisted

theorem nextId_of_ofSegments {segments : List Segment} {nextId : SegmentId} {table : Table}
    (h : ofSegments segments nextId = .ok table) : table.nextId = nextId :=
  (foldlM_addListed_entries h).1

theorem list_of_ofSegments {segments : List Segment} {nextId : SegmentId} {table : Table}
    (h : ofSegments segments nextId = .ok table)
    (hascending : segments.Pairwise (fun a b => a.id < b.id)) : table.list = segments := by
  have hentries := (foldlM_addListed_entries h).2.2 (List.pairwise_map.mpr hascending)
  show table.segments.entries.map Prod.snd = _
  rw [hentries]
  show (segments.map fun s => (s.id, s)).map Prod.snd = _
  rw [List.map_map]
  exact List.map_id segments

/-- The well-formed tables are the ones that come back from the list of their segments. -/
theorem wellFormed_iff {table : Table} :
    table.WellFormed ↔ ofSegments table.list table.nextId = .ok table := by
  constructor
  · exact WellFormed.ofSegments_list
  · exact wellFormed_of_ofSegments

instance (table : Table) : Decidable table.WellFormed :=
  decidable_of_iff ((ofSegments table.list table.nextId).toOption = some table) <| by
    rw [wellFormed_iff]
    cases ofSegments table.list table.nextId <;> simp [Except.toOption]

end Table

instance (op : Operation) : Decidable op.WellFormed :=
  match op with
  | .checkpoint table => inferInstanceAs (Decidable table.WellFormed)
  | .append .. | .seal .. | .merge .. | .create .. | .createBatch .. | .truncate .. =>
      inferInstanceAs (Decidable True)

end TieredStore
