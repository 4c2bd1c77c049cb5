import TieredStore.Ledger.Directory
import TieredStore.Proofs.Map.Entries
import TieredStore.Proofs.Outcome

/-!
# Ledgers in memory as a shelf of volumes

A directory in memory shows a list of volumes: the ids of its ledgers in
ascending order, the object that each leads to, and the bytes of that object.
Each call of the directory is described by what it does to the shelf.  Only the
last volume is written to, which is all that a log does.

A call that fails leaves the shelf as it is, with one exception: an append that
a crash interrupts leaves some of its bytes, but not all.
-/

namespace TieredStore

structure Volume where
  id : LedgerId
  object : Nat
  bytes : Bytes

namespace Ledgers

def bytes? (ledgers : Ledgers) (id : LedgerId) : Option Bytes :=
  match ledgers.attach id with
  | .ok handle => some (handle.contents ledgers.objects)
  | .error _ => none

structure Shows (ledgers : Ledgers) (volumes : List Volume) : Prop where
  directory : ∃ known, ledgers.directory = .memory known ledgers.faults ∧
    known.entries = volumes.map fun v => (v.id, v.object)
  bytes : ∀ v ∈ volumes, ledgers.objects[v.object]? = some v.bytes
  nodup : (volumes.map (·.object)).Nodup

theorem shows_inMemory : inMemory.Shows [] where
  directory := ⟨∅, rfl, rfl⟩
  bytes := fun _ hv => nomatch hv
  nodup := List.nodup_nil

namespace Shows

variable {ledgers : Ledgers} {volumes : List Volume}

/-!
## Looking
-/

theorem list_eq (h : ledgers.Shows volumes) : ledgers.list = volumes.map (·.id) := by
  obtain ⟨known, hdirectory, hentries⟩ := h.directory
  rw [list, hdirectory]
  show known.entries.map Prod.fst = _
  rw [hentries, List.map_map]
  rfl

theorem ids_ascending (h : ledgers.Shows volumes) :
    volumes.Pairwise (fun a b => a.id < b.id) := by
  obtain ⟨known, -, hentries⟩ := h.directory
  have hsorted := known.ascending
  rw [hentries, List.pairwise_map] at hsorted
  exact hsorted

theorem list_nodup (h : ledgers.Shows volumes) : ledgers.list.Nodup := by
  rw [h.list_eq]
  exact (List.pairwise_map.mpr h.ids_ascending).imp fun hlt => Nat.ne_of_lt hlt

theorem attach_eq {v : Volume} (h : ledgers.Shows volumes) (hv : v ∈ volumes) :
    ledgers.attach v.id = .ok (.memory v.object) := by
  obtain ⟨known, hdirectory, hentries⟩ := h.directory
  have hget : known.get? v.id = some v.object := by
    rw [SortedMap.get?_eq_some_iff, hentries]
    exact List.mem_map_of_mem hv
  rw [attach, hdirectory]
  simp only [hget]

theorem getD_eq {v : Volume} (h : ledgers.Shows volumes) (hv : v ∈ volumes) :
    ledgers.objects.getD v.object [] = v.bytes := by
  rw [List.getD_eq_getElem?_getD, h.bytes v hv]
  rfl

theorem bytes?_eq {v : Volume} (h : ledgers.Shows volumes) (hv : v ∈ volumes) :
    ledgers.bytes? v.id = some v.bytes := by
  rw [bytes?, h.attach_eq hv]
  exact congrArg some (h.getD_eq hv)

theorem setFaults (h : ledgers.Shows volumes) (change : LedgerFaults → LedgerFaults) :
    (ledgers.setFaults change).Shows volumes ∧
      (ledgers.setFaults change).faults = change ledgers.faults := by
  obtain ⟨known, hdirectory, hentries⟩ := h.directory
  have heq : ledgers.setFaults change =
      { directory := .memory known (change ledgers.faults), objects := ledgers.objects } := by
    rw [Ledgers.setFaults, hdirectory]
  rw [heq]
  exact ⟨{ directory := ⟨known, rfl, hentries⟩, bytes := h.bytes, nodup := h.nodup }, rfl⟩

theorem release_eq (h : ledgers.Shows volumes) : ledgers.release = ledgers := by
  obtain ⟨known, hdirectory, -⟩ := h.directory
  rw [release, hdirectory]

theorem acquire_eq (h : ledgers.Shows volumes) : acquire.run ledgers = .ok () ledgers := by
  obtain ⟨known, hdirectory, -⟩ := h.directory
  unfold acquire
  rw [EStateM.run_bind, EStateM.run_get]
  simp only [hdirectory]
  rfl

/-!
## Changing the last volume
-/

variable {older : List Volume} {v : Volume}

theorem modify_last (h : ledgers.Shows (older ++ [v])) {after : Ledgers} (change : Bytes → Bytes)
    (hobjects : after.objects = ledgers.objects.modify v.object change)
    (hdirectory : ∃ known, after.directory = .memory known after.faults ∧
      known.entries = (older ++ [v]).map fun v => (v.id, v.object)) :
    after.Shows (older ++ [{ v with bytes := change v.bytes }]) where
  directory := by
    obtain ⟨known, heq, hentries⟩ := hdirectory
    refine ⟨known, heq, ?_⟩
    rw [hentries, List.map_append, List.map_append]
    rfl
  bytes := by
    intro w hw
    have hnodup := h.nodup
    rw [List.map_append, List.nodup_append] at hnodup
    rw [hobjects, List.getElem?_modify]
    rcases List.mem_append.mp hw with hold | hlast
    · have hne : v.object ≠ w.object := by
        intro heq
        exact hnodup.2.2 _ (List.mem_map_of_mem hold) _ (by simp) heq.symm
      rw [h.bytes w (List.mem_append_left _ hold)]
      simp [hne]
    · rw [List.mem_singleton.mp hlast]
      rw [h.bytes v (List.mem_append_right _ List.mem_cons_self)]
      simp
  nodup := by
    have hnodup := h.nodup
    rw [List.map_append] at hnodup ⊢
    exact hnodup

theorem write_ends (h : ledgers.Shows (older ++ [v])) (data : Bytes) :
    Ends (write (.memory v.object) data) ledgers
      (fun handle after => handle = .memory v.object ∧ after.faults = ledgers.faults ∧
        after.Shows (older ++ [{ v with bytes := v.bytes ++ data }]))
      (fun _ _ => False) := by
  obtain ⟨known, hdirectory, hentries⟩ := h.directory
  refine Ends.of_ok rfl ?_
  exact ⟨rfl, rfl, h.modify_last (· ++ data) rfl ⟨known, hdirectory, hentries⟩⟩

theorem ensureAlive_ends (ledgers : Ledgers) :
    Ends ensureAlive ledgers (fun _ after => after = ledgers ∧ ledgers.faults.crashed = false)
      (fun _ after => after = ledgers ∧ ledgers.faults.crashed = true) := by
  unfold ensureAlive
  refine Ends.get ?_
  by_cases hcrashed : ledgers.faults.crashed = true
  · rw [if_pos hcrashed]
    exact Ends.throw ⟨rfl, hcrashed⟩
  · rw [if_neg hcrashed]
    exact Ends.pure ⟨rfl, by simpa using hcrashed⟩

/-- An append adds all of its bytes, or none unless a crash interrupts it, and never all then. -/
theorem append_ends (h : ledgers.Shows (older ++ [v])) (data : Bytes) :
    Ends (append (.memory v.object) data) ledgers
      (fun handle after => handle = .memory v.object ∧ after.faults.crashed = false ∧
        after.Shows (older ++ [{ v with bytes := v.bytes ++ data }]))
      (fun _ after => after = ledgers ∨ after.faults.crashed = true ∧
        ∃ count, count < data.length ∧
          after.Shows (older ++ [{ v with bytes := v.bytes ++ data.take count }])) := by
  unfold append
  refine Ends.bind ((ensureAlive_ends ledgers).mono ?_ ?_)
  · rintro _ ledgers ⟨rfl, halive⟩
    refine Ends.get ?_
    dsimp only
    split
    · exact Ends.throw (Or.inl rfl)
    · split
      · refine (h.write_ends data).mono ?_ ?_
        · rintro _ after ⟨hhandle, hfaults, hshows⟩
          exact ⟨hhandle, by rw [hfaults]; exact halive, hshows⟩
        · intro _ _ hfalse
          exact hfalse.elim
      · rename_i budget _
        split
        · rename_i hshort
          refine Ends.bind (Ends.discard ((h.write_ends (data.take budget)).mono ?_ ?_))
          · rintro _ after ⟨-, -, hshows⟩
            refine Ends.modifying (Ends.throw (Or.inr ?_))
            obtain ⟨hshows', hfaults⟩ := hshows.setFaults
              ({ · with crashed := true, budget := some 0 })
            exact ⟨by rw [hfaults], budget, hshort, hshows'⟩
          · intro _ _ hfalse
            exact hfalse.elim
        · refine Ends.modifying ?_
          obtain ⟨hshows, hfaults⟩ := h.setFaults
            ({ · with budget := some (budget - data.length) })
          refine (hshows.write_ends data).mono ?_ ?_
          · rintro _ after ⟨hhandle, hsame, hshows'⟩
            exact ⟨hhandle, by rw [hsame, hfaults]; exact halive, hshows'⟩
          · intro _ _ hfalse
            exact hfalse.elim
  · rintro _ ledgers ⟨rfl, -⟩
    exact Or.inl rfl

theorem flush_ends (ledgers : Ledgers) :
    Ends flush ledgers (fun _ after => after = ledgers)
      (fun _ after => after = ledgers ∧
        (ledgers.faults.crashed = true ∨ ledgers.faults.failFlushes = true)) := by
  unfold flush
  refine Ends.bind ((ensureAlive_ends ledgers).mono ?_ ?_)
  · rintro _ ledgers ⟨rfl, -⟩
    refine Ends.get ?_
    split
    · rename_i hfail
      exact Ends.throw ⟨rfl, Or.inr hfail⟩
    · exact Ends.pure rfl
  · rintro _ ledgers ⟨rfl, hcrashed⟩
    exact ⟨rfl, Or.inl hcrashed⟩

theorem truncate_ends (h : ledgers.Shows (older ++ [v])) {target : Nat}
    (htarget : target ≤ v.bytes.length) :
    Ends (truncate (.memory v.object) target) ledgers
      (fun handle after => handle = .memory v.object ∧ after.faults = ledgers.faults ∧
        after.Shows (older ++ [{ v with bytes := v.bytes.take target }]))
      (fun _ after => after = ledgers ∧ ledgers.faults.crashed = true) := by
  obtain ⟨known, hdirectory, hentries⟩ := h.directory
  unfold truncate
  refine Ends.bind ((ensureAlive_ends ledgers).mono ?_ ?_)
  · rintro _ ledgers ⟨rfl, -⟩
    refine Ends.get ?_
    have hsize : ¬ (Handle.memory v.object).size ledgers.objects < target := by
      show ¬ (ledgers.objects.getD v.object []).length < target
      rw [h.getD_eq (List.mem_append_right _ List.mem_cons_self)]
      exact Nat.not_lt.mpr htarget
    have hcut : (Handle.memory v.object).truncate ledgers.objects target =
        .ok (.memory v.object, ledgers.objects.modify v.object (·.take target)) := if_neg hsize
    rw [hcut]
    refine Ends.set (Ends.pure ⟨rfl, rfl, ?_⟩)
    exact h.modify_last (·.take target) rfl ⟨known, hdirectory, hentries⟩
  · rintro _ ledgers ⟨rfl, hcrashed⟩
    exact ⟨rfl, hcrashed⟩

/-!
## Adding and dropping volumes
-/

theorem create_ends (h : ledgers.Shows volumes) {id : LedgerId}
    (hid : ∀ v ∈ volumes, v.id < id) :
    Ends (create id) ledgers
      (fun handle after => ∃ object, handle = .memory object ∧
        after.Shows (volumes ++ [{ id, object, bytes := [] }]))
      (fun _ after => after = ledgers) := by
  obtain ⟨known, hdirectory, hentries⟩ := h.directory
  unfold create
  refine Ends.bind ((ensureAlive_ends ledgers).mono ?_ ?_)
  · rintro _ ledgers ⟨rfl, -⟩
    refine Ends.get ?_
    simp only [hdirectory]
    split
    · exact Ends.throw rfl
    · refine Ends.set (Ends.pure ⟨ledgers.objects.length, rfl, ?_⟩)
      have hlt : ∀ v ∈ volumes, v.object < ledgers.objects.length := by
        intro v hv
        exact (List.getElem?_eq_some_iff.mp (h.bytes v hv)).1
      have hlast : ∀ e ∈ known.entries, Key.rank e.1 < Key.rank id := by
        intro e he
        rw [hentries] at he
        obtain ⟨v, hv, rfl⟩ := List.mem_map.mp he
        exact hid v hv
      refine { directory := ⟨_, rfl, ?_⟩, bytes := ?_, nodup := ?_ }
      · rw [SortedMap.entries_insert_of_forall_lt _ hlast, hentries, List.map_append]
        rfl
      · intro v hv
        rcases List.mem_append.mp hv with hold | hnew
        · rw [List.getElem?_append_left (hlt v hold)]
          exact h.bytes v hold
        · rw [List.mem_singleton.mp hnew, List.getElem?_append_right (Nat.le_refl _)]
          simp
      · rw [List.map_append, List.nodup_append]
        refine ⟨h.nodup, by simp, ?_⟩
        intro a ha b hb heq
        obtain ⟨v, hv, rfl⟩ := List.mem_map.mp ha
        have hlt := hlt v hv
        rw [heq, List.mem_singleton.mp hb] at hlt
        exact Nat.lt_irrefl _ hlt
  · rintro _ ledgers ⟨rfl, -⟩
    rfl

theorem delete_ends {rest : List Volume} (h : ledgers.Shows (v :: rest)) :
    Ends (delete v.id) ledgers
      (fun _ after => after.faults = ledgers.faults ∧ ledgers.faults.crashed = false ∧
        after.Shows rest)
      (fun _ after => after = ledgers ∧ ledgers.faults.crashed = true) := by
  obtain ⟨known, hdirectory, hentries⟩ := h.directory
  unfold delete
  refine Ends.bind ((ensureAlive_ends ledgers).mono ?_ ?_)
  · rintro _ ledgers ⟨rfl, halive⟩
    refine Ends.get ?_
    have hcontains : known.contains v.id = true := by
      rw [SortedMap.contains_eq_true_iff]
      refine ⟨v.object, ?_⟩
      rw [SortedMap.get?_eq_some_iff, hentries]
      exact List.mem_cons_self
    simp only [hdirectory, hcontains, if_true]
    refine Ends.of_ok rfl ⟨rfl, halive, ?_⟩
    refine { directory := ⟨_, rfl, SortedMap.entries_erase_head hentries⟩, bytes := ?_,
             nodup := ?_ }
    · intro w hw
      exact h.bytes w (List.mem_cons_of_mem _ hw)
    · exact (List.nodup_cons.mp h.nodup).2
  · rintro _ ledgers ⟨rfl, hcrashed⟩
    exact ⟨rfl, hcrashed⟩

end Shows
end Ledgers
end TieredStore
