import TieredStore.SortedMap

/-!
# Entries and look-ups of sorted maps

A sorted map is determined by its look-ups, so two maps are shown equal by
comparing answers key by key.  The lemmas below say what each operation does to
the look-ups, and what it does to the list of entries where the list itself
matters: a new largest key goes to the end, and entries that are inserted in
ascending order come out as they went in.
-/

namespace TieredStore
namespace SortedMap

variable {κ α β : Type} [Key κ]

theorem eq_of_entries {a b : SortedMap κ α} (h : a.entries = b.entries) : a = b := by
  cases a
  cases b
  cases h
  rfl

private theorem ascending_ext :
    ∀ {xs ys : List (κ × α)},
      xs.Pairwise (fun a b => Key.rank a.1 < Key.rank b.1) ->
      ys.Pairwise (fun a b => Key.rank a.1 < Key.rank b.1) ->
      (∀ e, e ∈ xs ↔ e ∈ ys) -> xs = ys
  | [], [], _, _, _ => rfl
  | [], y :: _, _, _, h => by
      have hy := (h y).mpr List.mem_cons_self
      cases hy
  | x :: _, [], _, _, h => by
      have hx := (h x).mp List.mem_cons_self
      cases hx
  | x :: xs, y :: ys, hxs, hys, h => by
      rw [List.pairwise_cons] at hxs hys
      have hxy : x = y := by
        rcases List.mem_cons.mp ((h x).mp List.mem_cons_self) with hx | hx
        · exact hx
        · rcases List.mem_cons.mp ((h y).mpr List.mem_cons_self) with hy | hy
          · exact hy.symm
          · exact absurd (hxs.1 y hy) (Nat.lt_asymm (hys.1 x hx))
      subst hxy
      have htail : xs = ys := by
        refine ascending_ext hxs.2 hys.2 fun e => ?_
        constructor
        · intro he
          rcases List.mem_cons.mp ((h e).mp (List.mem_cons_of_mem _ he)) with heq | hmem
          · subst heq
            exact absurd (hxs.1 e he) (Nat.lt_irrefl _)
          · exact hmem
        · intro he
          rcases List.mem_cons.mp ((h e).mpr (List.mem_cons_of_mem _ he)) with heq | hmem
          · subst heq
            exact absurd (hys.1 e he) (Nat.lt_irrefl _)
          · exact hmem
      rw [htail]

/-!
## Look-ups
-/

@[simp] theorem get?_modify_self (map : SortedMap κ α) (key : κ) (change : α → α) :
    (map.modify key change).get? key = (map.get? key).map change := by
  unfold modify
  cases hkey : map.get? key with
  | none => simp [hkey]
  | some value => simp

theorem eq_of_get? {a b : SortedMap κ α} (h : ∀ key, a.get? key = b.get? key) : a = b := by
  refine eq_of_entries (ascending_ext a.ascending b.ascending ?_)
  intro e
  rw [← get?_eq_some_iff, ← get?_eq_some_iff, h]

theorem get?_modify_of_ne (map : SortedMap κ α) {key other : κ} (h : other ≠ key)
    (change : α → α) : (map.modify key change).get? other = map.get? other := by
  unfold modify
  cases hkey : map.get? key with
  | none => rfl
  | some value => exact get?_insert_of_ne map h _

theorem get?_erase [DecidableEq κ] (map : SortedMap κ α) (key other : κ) :
    (map.erase key).get? other = if other = key then none else map.get? other := by
  by_cases h : other = key
  · rw [if_pos h, h, get?_erase_self]
  · rw [if_neg h, get?_erase_of_ne map h]

theorem get?_filter_eq_some_iff {map : SortedMap κ α} {keep : κ → α → Bool} {key : κ} {value : α} :
    (map.filter keep).get? key = some value ↔
      map.get? key = some value ∧ keep key value = true := by
  rw [get?_eq_some_iff, get?_eq_some_iff]
  exact List.mem_filter

theorem mem_values {map : SortedMap κ α} {value : α} :
    value ∈ map.values ↔ ∃ key, map.get? key = some value := by
  constructor
  · intro h
    obtain ⟨⟨key, v⟩, hmem, rfl⟩ := List.mem_map.mp h
    exact ⟨key, get?_eq_some_iff.mpr hmem⟩
  · intro h
    obtain ⟨key, hkey⟩ := h
    exact List.mem_map.mpr ⟨(key, value), get?_eq_some_iff.mp hkey, rfl⟩

theorem mem_keys {map : SortedMap κ α} {key : κ} :
    key ∈ map.keys ↔ ∃ value, map.get? key = some value := by
  constructor
  · intro h
    obtain ⟨⟨k, value⟩, hmem, rfl⟩ := List.mem_map.mp h
    exact ⟨value, get?_eq_some_iff.mpr hmem⟩
  · intro h
    obtain ⟨value, hvalue⟩ := h
    exact List.mem_map.mpr ⟨(key, value), get?_eq_some_iff.mp hvalue, rfl⟩

theorem contains_modify (map : SortedMap κ α) (key other : κ) (change : α → α) :
    (map.modify key change).contains other = map.contains other := by
  unfold contains
  by_cases h : other = key
  · rw [h, get?_modify_self, Option.isSome_map]
  · rw [get?_modify_of_ne map h]

theorem contains_eq_true_iff {map : SortedMap κ α} {key : κ} :
    map.contains key = true ↔ ∃ value, map.get? key = some value := by
  rw [contains, Option.isSome_iff_exists]

def mapValues (map : SortedMap κ α) (change : α → β) : SortedMap κ β where
  entries := map.entries.map fun e => (e.1, change e.2)
  ascending := List.pairwise_map.mpr map.ascending

@[simp] theorem values_mapValues (map : SortedMap κ α) (change : α → β) :
    (map.mapValues change).values = map.values.map change := by
  unfold values mapValues
  rw [List.map_map, List.map_map]
  rfl

theorem get?_mapValues_eq_some_iff {map : SortedMap κ α} {change : α → β} {key : κ} {value : β} :
    (map.mapValues change).get? key = some value ↔
      ∃ old, map.get? key = some old ∧ change old = value := by
  rw [get?_eq_some_iff]
  constructor
  · intro h
    rcases List.mem_map.mp h with ⟨entry, hentry, heq⟩
    cases heq
    exact ⟨entry.2, get?_eq_some_iff.mpr hentry, rfl⟩
  · intro h
    rcases h with ⟨old, hold, heq⟩
    rw [← heq]
    exact List.mem_map.mpr ⟨(key, old), get?_eq_some_iff.mp hold, rfl⟩

/-!
## Entries
-/

theorem place_of_forall_lt {key : κ} {value : α} {entries : List (κ × α)}
    (h : ∀ e ∈ entries, Key.rank e.1 < Key.rank key) :
    place key value entries = entries ++ [(key, value)] := by
  induction entries with
  | nil => rfl
  | cons e rest ih =>
      have he := h e List.mem_cons_self
      have hrest := ih fun e' hmem => h e' (List.mem_cons_of_mem _ hmem)
      rw [place, if_neg (by omega), if_neg (by omega), hrest]
      rfl

theorem entries_insert_of_forall_lt {map : SortedMap κ α} {key : κ} (value : α)
    (h : ∀ e ∈ map.entries, Key.rank e.1 < Key.rank key) :
    (map.insert key value).entries = map.entries ++ [(key, value)] :=
  place_of_forall_lt h

theorem keys_insert_of_forall_lt {map : SortedMap κ α} {key : κ} (value : α)
    (h : ∀ other ∈ map.keys, Key.rank other < Key.rank key) :
    (map.insert key value).keys = map.keys ++ [key] := by
  have hentries : (map.insert key value).entries = map.entries ++ [(key, value)] := by
    apply entries_insert_of_forall_lt
    intro e he
    exact h e.1 (List.mem_map_of_mem he)
  unfold keys
  rw [hentries, List.map_append]
  rfl

private theorem entries_foldl_insert :
    ∀ {entries : List (κ × α)} {map : SortedMap κ α},
      (map.entries ++ entries).Pairwise (fun a b => Key.rank a.1 < Key.rank b.1) ->
      (entries.foldl (fun map e => map.insert e.1 e.2) map).entries = map.entries ++ entries
  | [], map, _ => (List.append_nil map.entries).symm
  | e :: rest, map, h => by
      have hlt : ∀ e' ∈ map.entries, Key.rank e'.1 < Key.rank e.1 := by
        intro e' he'
        exact (List.pairwise_append.mp h).2.2 e' he' e List.mem_cons_self
      have hins := entries_insert_of_forall_lt e.2 hlt
      have hnext : ((map.insert e.1 e.2).entries ++ rest).Pairwise
          (fun a b => Key.rank a.1 < Key.rank b.1) := by
        rw [hins]
        simpa using h
      rw [List.foldl_cons, entries_foldl_insert hnext, hins]
      simp

@[simp] theorem ofList_entries (map : SortedMap κ α) : ofList map.entries = map := by
  apply eq_of_entries
  have h : ((∅ : SortedMap κ α).entries ++ map.entries).Pairwise
      (fun a b => Key.rank a.1 < Key.rank b.1) := map.ascending
  exact entries_foldl_insert h

theorem entries_ofList {entries : List (κ × α)}
    (h : entries.Pairwise (fun a b => Key.rank a.1 < Key.rank b.1)) :
    (ofList entries).entries = entries := by
  have hall : ((∅ : SortedMap κ α).entries ++ entries).Pairwise
      (fun a b => Key.rank a.1 < Key.rank b.1) := h
  exact entries_foldl_insert hall

theorem length_place_le (key : κ) (value : α) (entries : List (κ × α)) :
    (place key value entries).length ≤ entries.length + 1 := by
  induction entries with
  | nil => simp [place]
  | cons e rest ih =>
      rw [place]
      split
      · simp
      · split
        · simp
        · simpa using ih

private theorem length_foldl_insert_le :
    ∀ (entries : List (κ × α)) (map : SortedMap κ α),
      (entries.foldl (fun map e => map.insert e.1 e.2) map).entries.length ≤
        map.entries.length + entries.length
  | [], _ => Nat.le_refl _
  | e :: rest, map => by
      have hplace : (map.insert e.1 e.2).entries.length ≤ map.entries.length + 1 :=
        length_place_le e.1 e.2 map.entries
      have hrest := length_foldl_insert_le rest (map.insert e.1 e.2)
      rw [List.foldl_cons, List.length_cons]
      omega

theorem length_entries_ofList_le (entries : List (κ × α)) :
    (ofList entries).entries.length ≤ entries.length := by
  have h := length_foldl_insert_le entries (empty : SortedMap κ α)
  rwa [show (empty : SortedMap κ α).entries.length = 0 from rfl, Nat.zero_add] at h

theorem entries_erase_head {map : SortedMap κ α} {e : κ × α} {rest : List (κ × α)}
    (h : map.entries = e :: rest) : (map.erase e.1).entries = rest := by
  have hsorted := map.ascending
  rw [h, List.pairwise_cons] at hsorted
  show map.entries.filter (fun e' => Key.rank e'.1 ≠ Key.rank e.1) = rest
  rw [h, List.filter_cons_of_neg (by simp)]
  apply List.filter_eq_self.mpr
  intro e' he'
  have := hsorted.1 e' he'
  simp only [ne_eq, decide_not, Bool.not_eq_eq_eq_not, Bool.not_true, decide_eq_false_iff_not]
  omega

/-!
## The largest key that is not above
-/

theorem mem_takeWhile_of_le {entries : List (κ × α)} (key : κ) {e : κ × α}
    (hsorted : entries.Pairwise (fun a b => Key.rank a.1 < Key.rank b.1)) (hmem : e ∈ entries)
    (hle : Key.rank e.1 ≤ Key.rank key) :
    e ∈ entries.takeWhile (fun e => Key.rank e.1 ≤ Key.rank key) := by
  induction entries with
  | nil => cases hmem
  | cons first rest ih =>
      rw [List.pairwise_cons] at hsorted
      rcases List.mem_cons.mp hmem with heq | hrest
      · subst heq
        rw [List.takeWhile_cons_of_pos (by simpa using hle)]
        exact List.mem_cons_self
      · have hlt := hsorted.1 e hrest
        rw [List.takeWhile_cons_of_pos (by simp; omega)]
        exact List.mem_cons_of_mem _ (ih hsorted.2 hrest)

theorem floor?_eq_none {map : SortedMap κ α} {key other : κ} {value : α}
    (h : map.floor? key = none) (hother : map.get? other = some value) :
    ¬ Key.rank other ≤ Key.rank key := by
  intro hle
  have hmem := mem_takeWhile_of_le key map.ascending (get?_eq_some_iff.mp hother) hle
  rw [floor?, List.getLast?_eq_none_iff] at h
  rw [h] at hmem
  cases hmem

theorem floor?_eq_some {map : SortedMap κ α} {key k : κ} {v : α}
    (h : map.floor? key = some (k, v)) :
    map.get? k = some v ∧ Key.rank k ≤ Key.rank key ∧
      ∀ {other value}, map.get? other = some value → Key.rank other ≤ Key.rank key →
        Key.rank other ≤ Key.rank k := by
  rw [floor?] at h
  rcases List.getLast?_eq_some_iff.mp h with ⟨before, hbefore⟩
  have hfirst : map.entries.takeWhile (fun e => Key.rank e.1 ≤ Key.rank key) <+: map.entries :=
    List.takeWhile_prefix _
  have hk : (k, v) ∈ map.entries.takeWhile (fun e => Key.rank e.1 ≤ Key.rank key) := by
    rw [hbefore]
    simp
  constructor
  · exact get?_eq_some_iff.mpr (hfirst.subset hk)
  · constructor
    · have hall : (map.entries.takeWhile (fun e => Key.rank e.1 ≤ Key.rank key)).all
          (fun e => Key.rank e.1 ≤ Key.rank key) = true := List.all_takeWhile
      simpa using List.all_eq_true.mp hall (k, v) hk
    · intro other value hother hle
      have hmem := mem_takeWhile_of_le key map.ascending (get?_eq_some_iff.mp hother) hle
      have hsorted := map.ascending.sublist hfirst.sublist
      rw [hbefore] at hmem hsorted
      rcases List.mem_append.mp hmem with hearly | hlast
      · exact Nat.le_of_lt ((List.pairwise_append.mp hsorted).2.2 _ hearly (k, v) (by simp))
      · have heq := List.mem_singleton.mp hlast
        cases heq
        exact Nat.le_refl _

end SortedMap
end TieredStore
