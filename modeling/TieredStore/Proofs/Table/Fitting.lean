import TieredStore.Table.Apply
import TieredStore.Proofs.Map.Entries
import TieredStore.Proofs.Outcome

/-!
# Which operations fit a table

An operation is validated against the segments that it names and, if it creates a
segment, against the names that are taken.  The two are kept apart: what is said
of segments holds in every table that knows them alike, but which names are taken
does not.
-/

namespace TieredStore

theorem bind_eq_ok_iff {ε α β : Type} {call : Except ε α} {next : α → Except ε β} {b : β} :
    (call >>= next) = .ok b ↔ ∃ a, call = .ok a ∧ next a = .ok b := by
  cases call with
  | ok a =>
      rw [ok_bind]
      constructor
      · intro h
        exact ⟨a, rfl, h⟩
      · intro h
        rcases h with ⟨a', heq, hnext⟩
        cases heq
        exact hnext
  | error e =>
      rw [error_bind]
      constructor
      · intro h
        cases h
      · intro h
        rcases h with ⟨a, heq, -⟩
        cases heq

theorem refuse_eq_ok_iff {ε α : Type} {refused : Prop} [Decidable refused] {e : ε}
    {next : Except ε α} {a : α} :
    (if refused then .error e else next) = .ok a ↔ ¬ refused ∧ next = .ok a := by
  by_cases h : refused
  · rw [if_pos h]
    constructor
    · intro heq
      cases heq
    · intro hboth
      exact absurd h hboth.1
  · rw [if_neg h]
    exact (and_iff_right h).symm

/-- More bytes, a seal or a merge into the segment are accepted. -/
structure Segment.Writable (segment : Segment) : Prop where
  merged : segment.merged = false
  sealed : segment.sealed = false

theorem Segment.ensureWritable_eq_ok_iff {segment : Segment} {u : Unit} :
    segment.ensureWritable = .ok u ↔ segment.Writable := by
  unfold Segment.ensureWritable
  rw [refuse_eq_ok_iff, refuse_eq_ok_iff, Bool.not_eq_true, Bool.not_eq_true]
  constructor
  · intro h
    exact ⟨h.1, h.2.1⟩
  · intro h
    exact ⟨h.merged, h.sealed, rfl⟩

namespace Table

variable {table : Table} {id other : SegmentId} {segment : Segment}

theorem require_eq_ok_iff : table.require id = .ok segment ↔ table.get? id = some segment := by
  unfold require
  cases hget : table.get? id with
  | none =>
      constructor
      · intro h
        cases h
      · intro h
        cases h
  | some found =>
      constructor
      · intro h
        cases h
        rfl
      · intro h
        cases h
        rfl

/-!
## Look-ups
-/

theorem get?_modify_self (table : Table) (id : SegmentId) (change : Segment → Segment) :
    (table.modify id change).get? id = (table.get? id).map change :=
  SortedMap.get?_modify_self _ _ _

theorem get?_modify_of_ne (table : Table) (h : other ≠ id) (change : Segment → Segment) :
    (table.modify id change).get? other = table.get? other :=
  SortedMap.get?_modify_of_ne _ h _

theorem get?_of_get?_modify {change : Segment → Segment} {t : Segment}
    (ht : (table.modify id change).get? other = some t) :
    ∃ s, table.get? other = some s ∧ (other ≠ id ∧ t = s ∨ other = id ∧ t = change s) := by
  by_cases hother : other = id
  · subst hother
    rw [get?_modify_self] at ht
    rcases Option.map_eq_some_iff.mp ht with ⟨s, hs, heq⟩
    exact ⟨s, hs, Or.inr ⟨rfl, heq.symm⟩⟩
  · rw [get?_modify_of_ne table hother] at ht
    exact ⟨t, ht, Or.inl ⟨hother, rfl⟩⟩

theorem changed_or_kept {change : Segment → Segment} {s t : Segment} (hs : table.get? id = some s)
    (ht : (table.modify id change).get? other = some t) :
    other = id ∧ t = change s ∨ other ≠ id ∧ table.get? other = some t := by
  rcases get?_of_get?_modify ht with ⟨t', ht', hold | hself⟩
  · rw [← hold.2] at ht'
    exact Or.inr ⟨hold.1, ht'⟩
  · rw [hself.1, hs] at ht'
    cases ht'
    exact Or.inl hself

theorem get?_add_self (table : Table) (segment : Segment) :
    (table.add segment).get? segment.id = some segment :=
  SortedMap.get?_insert_self _ _ _

theorem get?_add_of_ne (table : Table) (h : other ≠ segment.id) :
    (table.add segment).get? other = table.get? other :=
  SortedMap.get?_insert_of_ne _ h _

def without (table : Table) (id : SegmentId) : Table :=
  { table with segments := table.segments.erase id }

theorem get?_without_self (table : Table) (id : SegmentId) : (table.without id).get? id = none :=
  SortedMap.get?_erase_self _ _

theorem get?_without_of_ne (table : Table) (h : other ≠ id) :
    (table.without id).get? other = table.get? other :=
  SortedMap.get?_erase_of_ne _ h

end Table

namespace Operation

def created? : Operation → Option SegmentId
  | .create segment _ => some segment
  | .createBatch batch _ _ => some batch
  | _ => none

def name? : Operation → Option String
  | .create _ name => some name
  | .createBatch _ name _ => some name
  | _ => none

/-- What the operation says of segments is so in the table. -/
def Fits (table : Table) : Operation → Prop
  | .append segment offset _ _ data => ∃ s, table.get? segment = some s ∧ s.Writable ∧
      offset = s.length ∧ offset + data.length ≤ maxOffset
  | .seal segment length => ∃ s, table.get? segment = some s ∧ s.Writable ∧ length = s.length
  | .merge parent batch length offset => ∃ s b, table.get? parent = some s ∧
      table.get? batch = some b ∧ s.Writable ∧ b.merged = false ∧ b.parent = some s.id ∧
      b.sealed = true ∧ length = b.length ∧ offset = s.length ∧ offset + length ≤ maxOffset
  | .checkpoint _ => True
  | .create segment name => name.isEmpty = false ∧ table.get? segment = none
  | .createBatch batch name parent => name.isEmpty = false ∧ table.get? batch = none ∧
      ∃ s, table.get? parent = some s ∧ s.Writable ∧ s.parent = none
  | .truncate segment offset => ∃ s, table.get? segment = some s ∧ s.merged = false ∧
      s.startOffset ≤ offset ∧ offset ≤ s.length

def NameFree (table : Table) (op : Operation) : Prop :=
  ∀ name, op.name? = some name → table.lookup? name = none

end Operation

namespace Table

variable {table : Table}

theorem validateNew_eq_ok_iff {id : SegmentId} {name : String} {u : Unit} :
    table.validateNew id name = .ok u ↔
      name.isEmpty = false ∧ table.lookup? name = none ∧ table.get? id = none := by
  unfold validateNew
  rw [refuse_eq_ok_iff, refuse_eq_ok_iff, refuse_eq_ok_iff]
  simp

/-- An operation is accepted if it fits the segments and its name is free. -/
theorem validate_eq_ok_iff {op : Operation} {u : Unit} :
    table.validate op = .ok u ↔ op.Fits table ∧ op.NameFree table := by
  have hnameless : op.name? = none → op.NameFree table := by
    intro h name hname
    rw [h] at hname
    cases hname
  cases op with
  | append segment offset client event data =>
      rw [and_iff_left (hnameless rfl)]
      unfold validate validateAppend Operation.Fits endsInRange
      simp only [bind_eq_ok_iff, require_eq_ok_iff, Segment.ensureWritable_eq_ok_iff,
        refuse_eq_ok_iff]
      simp
  | «seal» segment length =>
      rw [and_iff_left (hnameless rfl)]
      unfold validate validateSeal Operation.Fits
      simp only [bind_eq_ok_iff, require_eq_ok_iff, Segment.ensureWritable_eq_ok_iff,
        refuse_eq_ok_iff]
      simp
  | merge parent batch length offset =>
      rw [and_iff_left (hnameless rfl)]
      unfold validate validateMerge Operation.Fits endsInRange
      simp only [bind_eq_ok_iff, require_eq_ok_iff, Segment.ensureWritable_eq_ok_iff,
        refuse_eq_ok_iff]
      simp
  | checkpoint snapshot =>
      rw [and_iff_left (hnameless rfl)]
      exact ⟨fun _ => trivial, fun _ => rfl⟩
  | create segment name =>
      unfold validate Operation.Fits Operation.NameFree Operation.name?
      simp only [validateNew_eq_ok_iff]
      simp
      grind
  | createBatch batch name parent =>
      unfold validate validateBatch Operation.Fits Operation.NameFree Operation.name?
      simp only [bind_eq_ok_iff, require_eq_ok_iff, Segment.ensureWritable_eq_ok_iff,
        refuse_eq_ok_iff, validateNew_eq_ok_iff]
      simp [Segment.isBatch]
      grind
  | truncate segment offset =>
      rw [and_iff_left (hnameless rfl)]
      unfold validate validateTruncate Operation.Fits
      simp only [bind_eq_ok_iff, require_eq_ok_iff, refuse_eq_ok_iff]
      simp

theorem apply_eq_ok_iff {op : Operation} {after : Table} :
    table.apply op = .ok after ↔
      op.Fits table ∧ op.NameFree table ∧ after = table.perform op := by
  unfold apply
  rw [bind_eq_ok_iff]
  constructor
  · intro h
    rcases h with ⟨u, hvalid, heq⟩
    cases heq
    rcases validate_eq_ok_iff.mp hvalid with ⟨hfits, hfree⟩
    exact ⟨hfits, hfree, rfl⟩
  · intro h
    rcases h with ⟨hfits, hfree, heq⟩
    exact ⟨(), validate_eq_ok_iff.mpr ⟨hfits, hfree⟩, by rw [heq]; rfl⟩

end Table
end TieredStore
