import TieredStore.Proofs.Map.Entries
import TieredStore.Total

/-!
# Totals over sorted maps

Sizes and counts are totals over the values of a map.  A change of one entry
changes the total by what the entry weighs before and after it, where an entry
that is not there weighs nothing.
-/

namespace TieredStore

theorem total_map_filter_le {α : Type} (keep : α → Bool) (weight : α → Nat) (list : List α) :
    total ((list.filter keep).map weight) ≤ total (list.map weight) := by
  induction list with
  | nil => exact Nat.le_refl _
  | cons a rest ih =>
      rw [List.filter_cons]
      split
      · exact Nat.add_le_add_left ih _
      · exact Nat.le_trans ih (Nat.le_add_left _ _)

namespace SortedMap

variable {κ α : Type} [Key κ] {map : SortedMap κ α} {key : κ} {value : α}

theorem total_map_place (key : κ) {old : α} (value : α) (weight : α → Nat)
    {entries : List (κ × α)} (hsorted : entries.Pairwise (fun a b => Key.rank a.1 < Key.rank b.1))
    (hold : (key, old) ∈ entries) :
    total ((place key value entries).map fun e => weight e.2) + weight old =
      total (entries.map fun e => weight e.2) + weight value := by
  induction entries with
  | nil => cases hold
  | cons e rest ih =>
      rcases e with ⟨k, v⟩
      rw [List.pairwise_cons] at hsorted
      unfold place
      rcases List.mem_cons.mp hold with hfirst | hrest
      · cases hfirst
        rw [if_neg (Nat.lt_irrefl _), if_pos rfl]
        simp only [List.map_cons, total_cons]
        omega
      · have hlt : Key.rank k < Key.rank key := hsorted.1 _ hrest
        rw [if_neg (Nat.lt_asymm hlt), if_neg (Nat.ne_of_gt hlt)]
        simp only [List.map_cons, total_cons]
        have hrec := ih hsorted.2 hrest
        omega

theorem total_map_place_new (key : κ) (value : α) (weight : α → Nat) {entries : List (κ × α)}
    (hnew : find? key entries = none) :
    total ((place key value entries).map fun e => weight e.2) =
      total (entries.map fun e => weight e.2) + weight value := by
  induction entries with
  | nil => exact Nat.add_comm _ _
  | cons e rest ih =>
      rcases e with ⟨k, v⟩
      unfold find? at hnew
      split at hnew
      · cases hnew
      · rename_i hne
        unfold place
        split
        · simp only [List.map_cons, total_cons]
          omega
        · rw [if_neg fun heq => hne heq.symm]
          simp only [List.map_cons, total_cons]
          have hrec := ih hnew
          omega

def weightAt (map : SortedMap κ α) (key : κ) (weight : α → Nat) : Nat :=
  ((map.get? key).map weight).getD 0

theorem weightAt_of_get? (h : map.get? key = some value) (weight : α → Nat) :
    map.weightAt key weight = weight value := by
  unfold weightAt
  rw [h]
  rfl

theorem weightAt_of_none (h : map.get? key = none) (weight : α → Nat) :
    map.weightAt key weight = 0 := by
  unfold weightAt
  rw [h]
  rfl

theorem total_insert (map : SortedMap κ α) (key : κ) (value : α) (weight : α → Nat) :
    total ((map.insert key value).values.map weight) + map.weightAt key weight =
      total (map.values.map weight) + weight value := by
  unfold values
  rw [List.map_map, List.map_map]
  cases hkey : map.get? key with
  | none =>
      rw [weightAt_of_none hkey]
      exact total_map_place_new key value weight hkey
  | some old =>
      rw [weightAt_of_get? hkey]
      exact total_map_place key value weight map.ascending (get?_eq_some_iff.mp hkey)

theorem total_modify (h : map.get? key = some value) (change : α → α) (weight : α → Nat) :
    total ((map.modify key change).values.map weight) + weight value =
      total (map.values.map weight) + weight (change value) := by
  have hmodify : map.modify key change = map.insert key (change value) := by
    unfold modify
    rw [h]
  rw [hmodify, ← weightAt_of_get? h weight]
  exact total_insert map key (change value) weight

theorem total_erase_le (map : SortedMap κ α) (key : κ) (weight : α → Nat) :
    total ((map.erase key).values.map weight) ≤ total (map.values.map weight) := by
  unfold values
  rw [List.map_map, List.map_map]
  exact total_map_filter_le _ (weight ∘ Prod.snd) map.entries

theorem insert_erase (h : map.get? key = some value) : (map.erase key).insert key value = map := by
  refine eq_of_get? fun other => ?_
  by_cases hother : other = key
  · rw [hother, get?_insert_self, h]
  · rw [get?_insert_of_ne _ hother, get?_erase_of_ne _ hother]

theorem erase_of_none (h : map.get? key = none) : map.erase key = map := by
  refine eq_of_get? fun other => ?_
  by_cases hother : other = key
  · rw [hother, get?_erase_self, h]
  · exact get?_erase_of_ne _ hother

theorem total_erase (map : SortedMap κ α) (key : κ) (weight : α → Nat) :
    total ((map.erase key).values.map weight) + map.weightAt key weight =
      total (map.values.map weight) := by
  cases hkey : map.get? key with
  | none =>
      rw [weightAt_of_none hkey, erase_of_none hkey]
      rfl
  | some value =>
      have htotal := total_insert (map.erase key) key value weight
      rw [insert_erase hkey, weightAt_of_none (get?_erase_self map key)] at htotal
      rw [weightAt_of_get? hkey]
      exact htotal.symm

end SortedMap
end TieredStore
