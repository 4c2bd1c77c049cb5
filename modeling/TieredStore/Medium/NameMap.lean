/-!
# Things found by name

A small map from names to values, in the order in which the names were first
stored.
-/

namespace TieredStore

structure NameMap (α : Type) where
  entries : List (String × α) := []
  deriving Repr, DecidableEq, Inhabited

namespace NameMap

variable {α : Type}

def get? (map : NameMap α) (name : String) : Option α :=
  (map.entries.find? (·.1 = name)).map (·.2)

def contains (map : NameMap α) (name : String) : Bool := (map.get? name).isSome

def set (map : NameMap α) (name : String) (value : α) : NameMap α :=
  if map.contains name then
    { entries := map.entries.map fun e => if e.1 = name then (name, value) else e }
  else { entries := map.entries ++ [(name, value)] }

def erase (map : NameMap α) (name : String) : NameMap α :=
  { entries := map.entries.filter (·.1 ≠ name) }

@[simp] theorem get?_nil (name : String) : ({} : NameMap α).get? name = none := rfl

theorem get?_cons (e : String × α) (rest : List (String × α)) (name : String) :
    get? ⟨e :: rest⟩ name = if e.1 = name then some e.2 else get? ⟨rest⟩ name := by
  by_cases h : e.1 = name <;> simp [get?, h]

theorem get?_append (first last : List (String × α)) (name : String) :
    get? ⟨first ++ last⟩ name = (get? ⟨first⟩ name).or (get? ⟨last⟩ name) := by
  induction first with
  | nil => rfl
  | cons e rest ih =>
      rw [List.cons_append, get?_cons, get?_cons, ih]
      split <;> rfl

theorem get?_replace (entries : List (String × α)) (name other : String) (value : α) :
    get? ⟨entries.map fun e => if e.1 = name then (name, value) else e⟩ other =
      if other = name then (get? ⟨entries⟩ name).map (fun _ => value) else get? ⟨entries⟩ other := by
  induction entries with
  | nil => simp
  | cons e rest ih =>
      rw [List.map_cons, get?_cons, get?_cons, get?_cons, ih]
      by_cases he : e.1 = name
      · by_cases ho : other = name
        · simp [he, ho]
        · have hn : ¬ name = other := fun x => ho x.symm
          simp [he, ho, hn]
      · by_cases ho : other = name
        · subst ho
          simp [he]
        · simp [he, ho]

@[simp] theorem get?_set_self (map : NameMap α) (name : String) (value : α) :
    (map.set name value).get? name = some value := by
  obtain ⟨entries⟩ := map
  unfold set
  split
  · rename_i h
    obtain ⟨old, h⟩ := Option.isSome_iff_exists.1 h
    rw [get?_replace, h]
    simp
  · rename_i h
    have none : get? ⟨entries⟩ name = none := by simpa [contains] using h
    rw [get?_append, none, get?_cons]
    simp

theorem get?_set_of_ne (map : NameMap α) {name other : String} (h : other ≠ name) (value : α) :
    (map.set name value).get? other = map.get? other := by
  obtain ⟨entries⟩ := map
  have hn : ¬ name = other := fun x => h x.symm
  unfold set
  split
  · rw [get?_replace, if_neg h]
  · rw [get?_append, get?_cons]
    simp [hn]

theorem get?_erase (map : NameMap α) (name other : String) :
    (map.erase name).get? other = if other = name then none else map.get? other := by
  obtain ⟨entries⟩ := map
  unfold erase
  induction entries with
  | nil => simp
  | cons e rest ih =>
      rw [List.filter_cons]
      by_cases he : e.1 = name
      · rw [if_neg (by simpa using he), ih, get?_cons]
        by_cases ho : other = name
        · simp [ho]
        · have hn : ¬ e.1 = other := fun x => ho (x.symm.trans he)
          simp [hn]
      · rw [if_pos (by simpa using he), get?_cons, get?_cons, ih]
        by_cases ho : other = name
        · subst ho
          simp [he]
        · simp [ho]

end NameMap
end TieredStore
