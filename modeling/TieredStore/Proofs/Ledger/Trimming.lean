import TieredStore.Proofs.Ledger.Paging
import TieredStore.Proofs.Ledger.Shelf

/-!
# Cutting a ledger of any directory

Whatever kind of directory it is in, a ledger leads to an object, and a handle
that has just been opened on it sees all bytes of that object.  Cutting a ledger
back changes the bytes of its object and nothing else, so that other ledgers keep
theirs unless they lead to the same object.
-/

namespace TieredStore
namespace Ledgers

variable {ledgers : Ledgers} {id other : LedgerId} {object size : Nat}

def object? (ledgers : Ledgers) (id : LedgerId) : Option Nat :=
  match ledgers.directory with
  | .memory known _ => known.get? id
  | .files folder _ => folder.files.get? (fileName id)

theorem attach_spec (ledgers : Ledgers) (id : LedgerId) :
    match ledgers.object? id with
    | some object => ∃ handle, ledgers.attach id = .ok handle ∧ handle.object = object ∧
        handle.Fresh ledgers.objects
    | none => ∃ cause, ledgers.attach id = .error cause := by
  unfold object? attach
  cases ledgers.directory with
  | memory known faults =>
      cases hget : known.get? id with
      | some object =>
          simp only [hget]
          exact ⟨_, rfl, rfl, rfl⟩
      | none =>
          simp only [hget]
          exact ⟨_, rfl⟩
  | files folder locked =>
      cases hget : folder.files.get? (fileName id) with
      | some object =>
          simp only [Folder.openFile, hget]
          exact ⟨_, rfl, rfl, rfl⟩
      | none =>
          simp only [Folder.openFile, hget]
          exact ⟨_, rfl⟩

theorem attach_of_object? (h : ledgers.object? id = some object) :
    ∃ handle, ledgers.attach id = .ok handle ∧ handle.object = object ∧
      handle.Fresh ledgers.objects := by
  have hattach := ledgers.attach_spec id
  rw [h] at hattach
  exact hattach

theorem attach_of_object?_eq_none (h : ledgers.object? id = none) :
    ∃ cause, ledgers.attach id = .error cause := by
  have hattach := ledgers.attach_spec id
  rw [h] at hattach
  exact hattach

theorem bytes?_eq_map (ledgers : Ledgers) (id : LedgerId) :
    ledgers.bytes? id = (ledgers.object? id).map fun object => ledgers.objects.getD object [] := by
  unfold bytes?
  cases h : ledgers.object? id with
  | none =>
      rcases attach_of_object?_eq_none h with ⟨cause, hattach⟩
      rw [hattach]
      rfl
  | some object =>
      rcases attach_of_object? h with ⟨handle, hattach, hobject, -⟩
      rw [hattach, ← hobject]
      rfl

theorem attach_of_bytes? {bytes : Bytes} (h : ledgers.bytes? id = some bytes) :
    ∃ handle, ledgers.attach id = .ok handle ∧ ledgers.object? id = some handle.object ∧
      handle.Fresh ledgers.objects ∧ handle.contents ledgers.objects = bytes := by
  rw [bytes?_eq_map] at h
  rcases Option.map_eq_some_iff.mp h with ⟨object, hobject, hbytes⟩
  rcases attach_of_object? hobject with ⟨handle, hattach, heq, hfresh⟩
  subst heq
  exact ⟨handle, hattach, hobject, hfresh, hbytes⟩

theorem Shows.object?_eq {volumes : List Volume} {v : Volume} (h : ledgers.Shows volumes)
    (hv : v ∈ volumes) : ledgers.object? v.id = some v.object := by
  obtain ⟨known, hdirectory, hentries⟩ := h.directory
  unfold object?
  simp only [hdirectory]
  rw [SortedMap.get?_eq_some_iff, hentries]
  exact List.mem_map_of_mem hv

/-!
## Cutting an object
-/

def trimmed (ledgers : Ledgers) (object size : Nat) : Ledgers :=
  { ledgers with objects := ledgers.objects.modify object (·.take size) }

theorem getD_modify (objects : Objects) (object other : Nat) {change : Bytes → Bytes}
    (hnil : change [] = []) :
    (objects.modify object change).getD other [] =
      if other = object then change (objects.getD other []) else objects.getD other [] := by
  rw [List.getD_eq_getElem?_getD, List.getD_eq_getElem?_getD, List.getElem?_modify]
  by_cases h : other = object
  · subst h
    cases objects[other]? with
    | none => simp [hnil]
    | some bytes => simp
  · have hne : ¬object = other := fun heq => h heq.symm
    simp [h, hne]

theorem modify_congr_at {objects : Objects} {object : Nat} {change change' : Bytes → Bytes}
    (h : change (objects.getD object []) = change' (objects.getD object [])) :
    objects.modify object change = objects.modify object change' := by
  apply List.ext_getElem?
  intro index
  rw [List.getElem?_modify, List.getElem?_modify]
  by_cases heq : object = index
  · subst heq
    rw [List.getD_eq_getElem?_getD] at h
    cases hget : objects[object]? with
    | none => rfl
    | some bytes =>
        rw [hget] at h
        simpa using h
  · simp [heq]

theorem bytes?_modify (ledgers : Ledgers) (object : Nat) {change : Bytes → Bytes}
    (hnil : change [] = []) (id : LedgerId) :
    bytes? { ledgers with objects := ledgers.objects.modify object change } id =
      (ledgers.bytes? id).map fun bytes =>
        if ledgers.object? id = some object then change bytes else bytes := by
  rw [bytes?_eq_map, bytes?_eq_map]
  have hsame : object? { ledgers with objects := ledgers.objects.modify object change } id =
      ledgers.object? id := rfl
  rw [hsame]
  cases h : ledgers.object? id with
  | none => rfl
  | some found =>
      simp only [Option.map_some, Option.some.injEq]
      exact getD_modify ledgers.objects object found hnil

theorem bytes?_trimmed (ledgers : Ledgers) (object size : Nat) (id : LedgerId) :
    (ledgers.trimmed object size).bytes? id =
      (ledgers.bytes? id).map fun bytes =>
        if ledgers.object? id = some object then bytes.take size else bytes :=
  bytes?_modify ledgers object List.take_nil id

theorem truncate_handle {handle : Handle} {objects : Objects} (hfresh : handle.Fresh objects)
    (hsize : size ≤ (handle.contents objects).length) :
    ∃ handle', handle.truncate objects size =
      .ok (handle', objects.modify handle.object (·.take size)) := by
  cases handle with
  | memory object =>
      exact ⟨.memory object, if_neg (Nat.not_lt.mpr hsize)⟩
  | file path object length =>
      have hlength : length = ((Handle.file path object length).contents objects).length := hfresh
      have hlt : ¬ length < size := by
        rw [hlength]
        exact Nat.not_lt.mpr hsize
      -- setting the length of a file adds nothing if the file is long enough
      have hresize : objects.modify object (Bytes.resize · size) =
          objects.modify object (·.take size) := by
        apply modify_congr_at
        have hsize : size ≤ (objects.getD object []).length := hsize
        have hnone : size - (objects.getD object []).length = 0 := Nat.sub_eq_zero_of_le hsize
        rw [Bytes.resize, hnone]
        exact List.append_nil _
      refine ⟨.file path object size, ?_⟩
      show (if length < size then _ else Except.ok (Handle.file path object size,
        objects.modify object (Bytes.resize · size))) = _
      rw [if_neg hlt, hresize]
      rfl

theorem truncate_fresh {handle : Handle} (hfresh : handle.Fresh ledgers.objects)
    (hsize : size ≤ (handle.contents ledgers.objects).length) :
    Ends (truncate handle size) ledgers (fun _ after => after = ledgers.trimmed handle.object size)
      (fun _ after => after = ledgers ∧ ledgers.faults.crashed = true) := by
  rcases truncate_handle hfresh hsize with ⟨handle', hcut⟩
  unfold truncate
  refine Ends.bind ((Shows.ensureAlive_ends ledgers).mono ?_ ?_)
  · rintro _ ledgers ⟨rfl, -⟩
    refine Ends.get ?_
    rw [hcut]
    exact Ends.set (Ends.pure rfl)
  · rintro _ ledgers ⟨rfl, hcrashed⟩
    exact ⟨rfl, hcrashed⟩

/-- A fault keeps a ledger from being cut for good. -/
def Faulty (ledgers : Ledgers) : Prop :=
  ledgers.faults.crashed = true ∨ ledgers.faults.failFlushes = true

end Ledgers
end TieredStore
