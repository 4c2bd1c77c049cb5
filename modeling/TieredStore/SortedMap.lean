/-!
# Maps sorted by key

A finite map is a list of entries with strictly ascending keys, so that a map
has one representation: maps that answer every look-up alike are equal.
Insertion walks the list once and replaces the entry that has the same key.
-/

namespace TieredStore

/-- Keys are compared by their rank, and no two keys share one. -/
class Key (κ : Type) where
  rank : κ → Nat
  eq_of_rank_eq : ∀ {a b : κ}, rank a = rank b → a = b

instance : Key Nat := ⟨id, id⟩

instance {n : Nat} : Key (Fin n) := ⟨Fin.val, Fin.eq_of_val_eq⟩

@[simp] theorem Key.rank_nat (n : Nat) : Key.rank n = n := rfl

@[simp] theorem Key.rank_fin {n : Nat} (i : Fin n) : Key.rank i = i.val := rfl

/-- A map from `κ` to `α`, as its entries in ascending order of keys. -/
structure SortedMap (κ α : Type) [Key κ] where
  entries : List (κ × α)
  ascending : entries.Pairwise (fun a b => Key.rank a.1 < Key.rank b.1)

namespace SortedMap

variable {κ α β : Type} [Key κ]

def find? (key : κ) : List (κ × α) → Option α
  | [] => none
  | (k, v) :: rest => if Key.rank k = Key.rank key then some v else find? key rest

/-- Puts an entry in its place, over the entry of the same key if there is one. -/
def place (key : κ) (value : α) : List (κ × α) → List (κ × α)
  | [] => [(key, value)]
  | (k, v) :: rest =>
      if Key.rank key < Key.rank k then (key, value) :: (k, v) :: rest
      else if Key.rank key = Key.rank k then (key, value) :: rest
      else (k, v) :: place key value rest

theorem mem_place {key : κ} {value : α} {entry : κ × α} {entries : List (κ × α)}
    (h : entry ∈ place key value entries) : entry = (key, value) ∨ entry ∈ entries := by
  induction entries with
  | nil => simpa [place] using h
  | cons e rest ih =>
      grind [place]

theorem place_ascending (key : κ) (value : α) {entries : List (κ × α)}
    (h : entries.Pairwise (fun a b => Key.rank a.1 < Key.rank b.1)) :
    (place key value entries).Pairwise (fun a b => Key.rank a.1 < Key.rank b.1) := by
  induction entries with
  | nil => simp [place]
  | cons e rest ih =>
      obtain ⟨k, v⟩ := e
      rw [List.pairwise_cons] at h
      rw [place]
      split
      · rename_i lt
        refine List.pairwise_cons.2 ⟨fun entry mem => ?_, List.pairwise_cons.2 h⟩
        rcases List.mem_cons.1 mem with rfl | mem
        · exact lt
        · exact Nat.lt_trans lt (h.1 entry mem)
      · split
        · rename_i eq
          refine List.pairwise_cons.2 ⟨fun entry mem => ?_, h.2⟩
          show Key.rank key < Key.rank entry.1
          rw [eq]
          exact h.1 entry mem
        · rw [List.pairwise_cons]
          refine ⟨fun entry mem => ?_, ih h.2⟩
          rcases mem_place mem with rfl | mem
          · show Key.rank k < Key.rank key
            omega
          · exact h.1 entry mem

theorem find?_place_self (key : κ) (value : α) (entries : List (κ × α)) :
    find? key (place key value entries) = some value := by
  induction entries with
  | nil => simp [place, find?]
  | cons e rest ih => grind [place, find?]

theorem find?_place_of_ne {key other : κ} (h : other ≠ key) (value : α)
    (entries : List (κ × α)) : find? other (place key value entries) = find? other entries := by
  have hr : Key.rank key ≠ Key.rank other := fun e => h (Key.eq_of_rank_eq e).symm
  induction entries with
  | nil => simp [place, find?, hr]
  | cons e rest ih => grind [place, find?]

/-! ## Operations -/

def empty : SortedMap κ α := ⟨[], .nil⟩

instance : EmptyCollection (SortedMap κ α) := ⟨empty⟩

instance : Inhabited (SortedMap κ α) := ⟨empty⟩

instance [DecidableEq κ] [DecidableEq α] : DecidableEq (SortedMap κ α) := fun a b =>
  if h : a.entries = b.entries then
    isTrue (by cases a; cases b; cases h; rfl)
  else
    isFalse (fun e => h (e ▸ rfl))

def get? (map : SortedMap κ α) (key : κ) : Option α := find? key map.entries

def contains (map : SortedMap κ α) (key : κ) : Bool := (map.get? key).isSome

def insert (map : SortedMap κ α) (key : κ) (value : α) : SortedMap κ α :=
  ⟨place key value map.entries, place_ascending key value map.ascending⟩

def erase (map : SortedMap κ α) (key : κ) : SortedMap κ α :=
  ⟨map.entries.filter (fun e => Key.rank e.1 ≠ Key.rank key), map.ascending.filter _⟩

def modify (map : SortedMap κ α) (key : κ) (change : α → α) : SortedMap κ α :=
  match map.get? key with
  | some value => map.insert key (change value)
  | none => map

def filter (map : SortedMap κ α) (keep : κ → α → Bool) : SortedMap κ α :=
  ⟨map.entries.filter (fun e => keep e.1 e.2), map.ascending.filter _⟩

/-- The map that stores the later of the values given for each key. -/
def ofList (entries : List (κ × α)) : SortedMap κ α :=
  entries.foldl (fun map e => map.insert e.1 e.2) empty

def keys (map : SortedMap κ α) : List κ := map.entries.map Prod.fst

def values (map : SortedMap κ α) : List α := map.entries.map Prod.snd

def size (map : SortedMap κ α) : Nat := map.entries.length

/-- The entry with the largest key that `key` is not below. -/
def floor? (map : SortedMap κ α) (key : κ) : Option (κ × α) :=
  (map.entries.takeWhile (fun e => Key.rank e.1 ≤ Key.rank key)).getLast?

/-! ## Look-up laws -/

@[simp] theorem get?_empty (key : κ) : (∅ : SortedMap κ α).get? key = none := rfl

@[simp] theorem get?_insert_self (map : SortedMap κ α) (key : κ) (value : α) :
    (map.insert key value).get? key = some value :=
  find?_place_self key value map.entries

theorem get?_insert_of_ne (map : SortedMap κ α) {key other : κ} (h : other ≠ key) (value : α) :
    (map.insert key value).get? other = map.get? other :=
  find?_place_of_ne h value map.entries

theorem get?_insert [DecidableEq κ] (map : SortedMap κ α) (key other : κ) (value : α) :
    (map.insert key value).get? other = if other = key then some value else map.get? other := by
  split
  · rename_i h
    rw [h, get?_insert_self]
  · rename_i h
    exact get?_insert_of_ne map h value

@[simp] theorem get?_erase_self (map : SortedMap κ α) (key : κ) :
    (map.erase key).get? key = none := by
  obtain ⟨entries, _⟩ := map
  show find? key (entries.filter _) = none
  induction entries with
  | nil => rfl
  | cons e rest ih =>
      simp_all only [List.pairwise_cons]
      by_cases h : Key.rank e.1 = Key.rank key <;> simp_all [find?]

theorem get?_erase_of_ne (map : SortedMap κ α) {key other : κ} (h : other ≠ key) :
    (map.erase key).get? other = map.get? other := by
  have hr : Key.rank key ≠ Key.rank other := fun e => h (Key.eq_of_rank_eq e).symm
  obtain ⟨entries, _⟩ := map
  show find? other (entries.filter _) = find? other entries
  induction entries with
  | nil => rfl
  | cons e rest ih =>
      simp_all only [List.pairwise_cons]
      by_cases h : Key.rank e.1 = Key.rank key
      · have hne : Key.rank e.1 ≠ Key.rank other := by omega
        simp_all [find?]
      · simp_all [find?]

theorem get?_eq_some_iff {map : SortedMap κ α} {key : κ} {value : α} :
    map.get? key = some value ↔ (key, value) ∈ map.entries := by
  obtain ⟨entries, sorted⟩ := map
  show find? key entries = some value ↔ _
  induction entries with
  | nil => simp [find?]
  | cons e rest ih =>
      obtain ⟨k, v⟩ := e
      rw [List.pairwise_cons] at sorted
      rw [find?]
      split
      · rename_i h
        cases Key.eq_of_rank_eq h
        constructor
        · intro e
          cases e
          exact List.mem_cons_self
        · intro mem
          rcases List.mem_cons.1 mem with e | mem
          · cases e
            rfl
          · exact absurd (sorted.1 _ mem) (Nat.lt_irrefl _)
      · rename_i h
        rw [ih sorted.2]
        constructor
        · exact List.mem_cons_of_mem _
        · intro mem
          rcases List.mem_cons.1 mem with e | mem
          · cases e
            exact absurd rfl h
          · exact mem

end SortedMap
end TieredStore
