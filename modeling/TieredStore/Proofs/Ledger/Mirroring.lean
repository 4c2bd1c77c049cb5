import Mathlib.Data.List.GetD
import TieredStore.Proofs.Ledger.Naming
import TieredStore.Proofs.Ledger.Trimming
import TieredStore.Proofs.Twins

/-!
# The same ledgers in memory and in a folder

A folder that somebody holds has its lock file first and behind it a file for each
ledger, so that what is object `n` in memory is object `n + 1` there.  Every call
without a fault ends alike in both, as long as a handle onto a file that is
written to knows how long the file is.  A handle that is only read from may know
less, for objects never get shorter.
-/

namespace TieredStore

variable {path : String} {memory folder later after : Ledgers} {id : LedgerId}

/-! ## Objects -/

namespace Ledgers

abbrev filed (objects : Objects) : Objects := [] :: objects

def shelved (path : String) (known : SortedMap LedgerId Nat) : Folder :=
  { path
    made := true
    files := { entries := (lockName, 0) :: known.entries.map fun e => (fileName e.1, e.2 + 1) } }

/-- A directory in memory without faults and a folder that is held have the same ledgers. -/
def Mirrors (path : String) (memory folder : Ledgers) : Prop :=
  ∃ known objects, (∀ e ∈ known.entries, e.1 ≤ maxWord ∧ e.2 < List.length objects) ∧
    memory = { directory := .memory known {}, objects } ∧
    folder = { directory := .files (shelved path known) true, objects := filed objects }

/-- What a later directory has in common with an earlier one whose newest ledger is still there. -/
structure Onward (before after : Ledgers) : Prop where
  lengths : ∀ object,
    (before.objects.getD object []).length ≤ (after.objects.getD object []).length
  same : ∀ id newest object, newest ∈ before.list → id ≤ newest →
    after.object? id = some object → before.object? id = some object
  newest : ∀ id ∈ before.list, ∃ newest ∈ after.list, id ≤ newest

theorem Onward.refl (ledgers : Ledgers) : ledgers.Onward ledgers where
  lengths := fun _ => Nat.le_refl _
  same := fun _ _ _ _ _ hobject => hobject
  newest := fun id hid => ⟨id, hid, Nat.le_refl id⟩

theorem Onward.trans (h : memory.Onward later) (hlater : later.Onward after) :
    memory.Onward after where
  lengths := fun object => Nat.le_trans (h.lengths object) (hlater.lengths object)
  same := by
    intro id newest object hnewest hle hobject
    rcases h.newest newest hnewest with ⟨newer, hnewer, hle'⟩
    exact h.same id newest object hnewest hle
      (hlater.same id newer object hnewer (Nat.le_trans hle hle') hobject)
  newest := by
    intro id hid
    rcases h.newest id hid with ⟨newest, hnewest, hle⟩
    rcases hlater.newest newest hnewest with ⟨newer, hnewer, hle'⟩
    exact ⟨newer, hnewer, Nat.le_trans hle hle'⟩

end Ledgers

/-! ## Handles -/

inductive Handle.Mirrors : Handle → Handle → Prop
  | intro (object : Nat) (path : String) (length : Nat) :
      Mirrors (.memory object) (.file path (object + 1) length)

namespace Handle.Mirrors

variable {handle handle' : Handle} {objects : Objects}

theorem contents_eq (h : Mirrors handle handle') (objects : Objects) :
    handle'.contents (Ledgers.filed objects) = handle.contents objects := by
  cases h
  rfl

theorem read_eq (h : Mirrors handle handle') {offset length : Nat}
    (hsize : offset + length ≤ handle'.size (Ledgers.filed objects))
    (hcontents : offset + length ≤ (handle.contents objects).length) :
    handle'.read (Ledgers.filed objects) offset length = handle.read objects offset length := by
  have hsame := h.contents_eq objects
  have hmemory : handle.size objects = (handle.contents objects).length := by
    cases h
    rfl
  have hlength : ((handle.contents objects).slice offset length).length = length := by
    rw [Bytes.slice, List.length_take, List.length_drop]
    omega
  unfold read
  rw [if_neg (Nat.not_lt.mpr hsize), hmemory, if_neg (Nat.not_lt.mpr hcontents), hsame]

end Handle.Mirrors

/-! ## Looking -/

namespace Ledgers.Mirrors

theorem get?_shelved {known : SortedMap LedgerId Nat} (hids : ∀ e ∈ known.entries, e.1 ≤ maxWord)
    (hid : id ≤ maxWord) :
    (shelved path known).files.get? (fileName id) = (known.get? id).map (· + 1) := by
  have hlock : lockName ≠ fileName id := fun heq => fileName_ne_lockName hid heq.symm
  unfold shelved SortedMap.get?
  rw [NameMap.get?_cons, if_neg hlock]
  generalize known.entries = entries at hids
  induction entries with
  | nil => rfl
  | cons e rest ih =>
      have hrest := ih fun other hother => hids other (List.mem_cons_of_mem _ hother)
      have hname : fileName e.1 = fileName id ↔ Key.rank e.1 = Key.rank id :=
        fileName_inj (hids e List.mem_cons_self) hid
      rw [List.map_cons, NameMap.get?_cons, hrest, SortedMap.find?]
      by_cases heq : Key.rank e.1 = Key.rank id
      · rw [if_pos (hname.mpr heq), if_pos heq]
        rfl
      · rw [if_neg (fun h => heq (hname.mp h)), if_neg heq]

theorem list_eq (h : memory.Mirrors path folder) : folder.list = memory.list := by
  rcases h with ⟨known, objects, hids, rfl, rfl⟩
  have hnames : (known.entries.map fun e => (fileName e.1, e.2 + 1)).filterMap
      (fun e => idOfName? e.1) = known.keys := by
    have hread : ∀ e ∈ known.entries,
        ((fun e => idOfName? e.1) ∘ fun e : LedgerId × Nat => (fileName e.1, e.2 + 1)) e =
          (some ∘ Prod.fst) e := by
      intro e he
      simp only [Function.comp_apply, idOfName?_fileName (hids e he).1]
    rw [List.filterMap_map, List.filterMap_congr hread, List.filterMap_eq_map]
    rfl
  have hsorted : known.keys.Pairwise (fun a b => decide (a ≤ b) = true) := by
    unfold SortedMap.keys
    rw [List.pairwise_map]
    exact known.ascending.imp fun hlt => decide_eq_true (Nat.le_of_lt hlt)
  unfold list shelved
  simp only [List.filterMap_cons, idOfName?_lockName, hnames]
  exact List.mergeSort_of_pairwise hsorted

theorem le_maxWord (h : memory.Mirrors path folder) (hid : id ∈ memory.list) : id ≤ maxWord := by
  rcases h with ⟨known, objects, hids, rfl, -⟩
  rcases List.mem_map.mp hid with ⟨e, he, rfl⟩
  exact (hids e he).1

theorem objects_eq (h : memory.Mirrors path folder) : folder.objects = filed memory.objects := by
  rcases h with ⟨known, objects, -, rfl, rfl⟩
  rfl

theorem object?_eq (h : memory.Mirrors path folder) (hid : id ≤ maxWord) :
    folder.object? id = (memory.object? id).map (· + 1) := by
  rcases h with ⟨known, objects, hids, rfl, rfl⟩
  exact get?_shelved (fun e he => (hids e he).1) hid

theorem mem_list_iff (h : memory.Mirrors path folder) :
    id ∈ memory.list ↔ ∃ object, memory.object? id = some object := by
  rcases h with ⟨known, objects, -, rfl, -⟩
  exact SortedMap.mem_keys

theorem bytes?_eq (h : memory.Mirrors path folder) (hid : id ≤ maxWord) :
    folder.bytes? id = memory.bytes? id := by
  rw [bytes?_eq_map, bytes?_eq_map, h.object?_eq hid, Option.map_map]
  rcases h with ⟨known, objects, -, rfl, rfl⟩
  rfl

/-- Handles onto an object that is there and that the file handle knows all bytes of. -/
structure Writes (memory folder : Ledgers) (handle handle' : Handle) : Prop where
  mirrors : handle.Mirrors handle'
  there : handle.object < memory.objects.length
  fresh : handle'.Fresh folder.objects

theorem attach_cases (h : memory.Mirrors path folder) (hid : id ≤ maxWord) :
    (∃ handle handle', memory.attach id = .ok handle ∧ folder.attach id = .ok handle' ∧
        memory.object? id = some handle.object ∧ Writes memory folder handle handle') ∨
      memory.object? id = none ∧ memory.attach id = .error (.notFound (label id)) ∧
        folder.attach id = .error (.notFound (Path.join path (fileName id))) := by
  rcases h with ⟨known, objects, hids, rfl, rfl⟩
  have hget : (shelved path known).files.get? (fileName id) = (known.get? id).map (· + 1) :=
    get?_shelved (fun e he => (hids e he).1) hid
  unfold attach object? Folder.openFile
  simp only [hget]
  cases hobject : known.get? id with
  | none => exact Or.inr ⟨rfl, rfl, rfl⟩
  | some object =>
      refine Or.inl ⟨_, _, rfl, rfl, rfl, ?_⟩
      constructor
      · exact ⟨object, _, _⟩
      · exact (hids (id, object) (SortedMap.get?_eq_some_iff.mp hobject)).2
      · rfl

/-! ## Going on in memory -/

section Memory

variable {known : SortedMap LedgerId Nat} {objects : Objects}

theorem getD_modify_of_lt {object : Nat} (h : object < objects.length) (other : Nat)
    (change : Bytes → Bytes) :
    (objects.modify object change).getD other [] =
      if other = object then change (objects.getD other []) else objects.getD other [] := by
  rw [List.getD_eq_getElem?_getD, List.getD_eq_getElem?_getD, List.getElem?_modify]
  by_cases heq : other = object
  · subst heq
    simp [h]
  · have hne : ¬object = other := fun h => heq h.symm
    simp [heq, hne]

theorem onward_modify (known : SortedMap LedgerId Nat) {object : Nat} (h : object < objects.length)
    (data : Bytes) :
    Onward { directory := .memory known {}, objects }
      { directory := .memory known {}, objects := objects.modify object (· ++ data) } := by
  constructor
  · intro other
    show (objects.getD other []).length ≤ ((objects.modify object (· ++ data)).getD other []).length
    rw [getD_modify_of_lt h]
    split
    · rw [List.length_append]
      exact Nat.le_add_right _ _
    · exact Nat.le_refl _
  · intro id newest found _ _ hfound
    exact hfound
  · intro id hid
    exact ⟨id, hid, Nat.le_refl id⟩

theorem onward_insert (objects : Objects) (hnew : ∀ other ∈ known.keys, other < id) :
    Onward { directory := .memory known {}, objects }
      { directory := .memory (known.insert id objects.length) {}, objects := objects ++ [[]] } := by
  constructor
  · intro object
    show (objects.getD object []).length ≤ ((objects ++ [[]]).getD object []).length
    by_cases hlt : object < objects.length
    · rw [List.getD_append _ _ _ _ hlt]
    · rw [List.getD_eq_default _ _ (Nat.not_lt.mp hlt)]
      exact Nat.zero_le _
  · intro other newest object hnewest hle hobject
    have hne : other ≠ id := Nat.ne_of_lt (Nat.lt_of_le_of_lt hle (hnew newest hnewest))
    have hobject : (known.insert id objects.length).get? other = some object := hobject
    rw [SortedMap.get?_insert_of_ne known hne] at hobject
    exact hobject
  · intro other hother
    refine ⟨other, ?_, Nat.le_refl other⟩
    show other ∈ (known.insert id objects.length).keys
    rw [SortedMap.keys_insert_of_forall_lt _ hnew]
    exact List.mem_append_left _ hother

theorem mem_keys_erase {kept : LedgerId} :
    kept ∈ (known.erase id).keys ↔ kept ∈ known.keys ∧ kept ≠ id := by
  simp only [SortedMap.mem_keys, SortedMap.get?_erase]
  by_cases heq : kept = id
  · simp [heq]
  · simp [heq]

theorem onward_erase (objects : Objects) {newest : LedgerId} (hnewest : newest ∈ known.keys)
    (hlt : id < newest) :
    Onward { directory := .memory known {}, objects }
      { directory := .memory (known.erase id) {}, objects } := by
  constructor
  · intro other
    exact Nat.le_refl _
  · intro other newest found _ _ hfound
    have hfound : (known.erase id).get? other = some found := hfound
    rw [SortedMap.get?_erase] at hfound
    split at hfound
    · cases hfound
    · exact hfound
  · intro other hother
    by_cases heq : other = id
    · rw [heq]
      exact ⟨newest, mem_keys_erase.mpr ⟨hnewest, Nat.ne_of_gt hlt⟩, Nat.le_of_lt hlt⟩
    · exact ⟨other, mem_keys_erase.mpr ⟨hother, heq⟩, Nat.le_refl other⟩

theorem create_memory (objects : Objects) (habsent : known.get? id = none) :
    (Ledgers.create id).run { directory := .memory known {}, objects } =
      .ok (.memory objects.length)
        { directory := .memory (known.insert id objects.length) {}
          objects := objects ++ [[]] } := by
  have hcontains : known.contains id = false := by
    rw [SortedMap.contains, habsent]
    rfl
  show (if known.contains id = true then _ else _ : LedgersM Handle).run _ = _
  rw [hcontains]
  rfl

theorem delete_memory (objects : Objects) (hthere : id ∈ known.keys) :
    (Ledgers.delete id).run { directory := .memory known {}, objects } =
      .ok () { directory := .memory (known.erase id) {}, objects } := by
  have hcontains : known.contains id = true :=
    SortedMap.contains_eq_true_iff.mpr (SortedMap.mem_keys.mp hthere)
  show (if known.contains id = true then _ else _ : LedgersM Unit).run _ = _
  rw [hcontains]
  rfl

end Memory

/-! ## The same in a folder -/

section Folders

variable {known : SortedMap LedgerId Nat}

theorem append_file (objects : Objects) (object : Nat) (file : String) (data : Bytes) :
    (Handle.file file (object + 1) (objects.getD object []).length).append (filed objects) data =
      (.file file (object + 1) ((objects.getD object []).length + data.length),
        filed (objects.modify object (· ++ data))) := by
  have hwrite : objects.modify object
      (Bytes.overwrite · (objects.getD object []).length data) =
      objects.modify object (· ++ data) := by
    apply modify_congr_at
    unfold Bytes.overwrite Bytes.resize
    rw [List.take_length, Nat.sub_self, List.replicate_zero, List.append_nil,
      List.drop_eq_nil_of_le (Nat.le_add_right _ _), List.append_nil]
  have hunfold : (Handle.file file (object + 1) (objects.getD object []).length).append
      (filed objects) data =
      if data.isEmpty then
        (.file file (object + 1) (objects.getD object []).length, filed objects)
      else
        (.file file (object + 1) ((objects.getD object []).length + data.length),
          filed (objects.modify object
            (Bytes.overwrite · (objects.getD object []).length data))) := rfl
  rw [hunfold, hwrite]
  by_cases hempty : data.isEmpty = true
  · obtain rfl := List.isEmpty_iff.mp hempty
    have hsame : objects.modify object (· ++ []) = objects := by
      simp only [List.append_nil]
      exact List.modify_id _ _
    rw [if_pos hempty, hsame]
    rfl
  · rw [if_neg hempty]

theorem create_file {files : Folder} (locked : Bool) (objects : Objects)
    (habsent : files.files.get? (fileName id) = none) :
    (Ledgers.create id).run { directory := .files files locked, objects } =
      .ok (.file (files.pathOf (fileName id)) objects.length 0)
        { directory := .files { files with
            made := true
            files := files.files.set (fileName id) objects.length } locked
          objects := objects ++ [[]] } := by
  have hcontains : files.files.contains (fileName id) = false := by
    rw [NameMap.contains, habsent]
    rfl
  have halive : ensureAlive.run { directory := .files files locked, objects } =
      .ok () { directory := .files files locked, objects } := rfl
  unfold Ledgers.create
  rw [EStateM.run_bind, halive]
  simp only [EStateM.run_bind, EStateM.run_get, hcontains, Folder.makeFile, habsent]
  rfl

theorem delete_file {files : Folder} (locked : Bool) (objects : Objects) {object : Nat}
    (hthere : files.files.get? (fileName id) = some object) :
    (Ledgers.delete id).run { directory := .files files locked, objects } =
      .ok () { directory := .files { files with files := files.files.erase (fileName id) } locked
               objects } := by
  have hcontains : files.files.contains (fileName id) = true := by
    rw [NameMap.contains, hthere]
    rfl
  have halive : ensureAlive.run { directory := .files files locked, objects } =
      .ok () { directory := .files files locked, objects } := rfl
  unfold Ledgers.delete
  rw [EStateM.run_bind, halive]
  simp only [EStateM.run_bind, EStateM.run_get, hcontains]
  rfl

theorem set_shelved {object : Nat} (habsent : (shelved path known).files.get? (fileName id) = none)
    (hnew : ∀ other ∈ known.keys, other < id) :
    (shelved path known).files.set (fileName id) (object + 1) =
      (shelved path (known.insert id object)).files := by
  have hcontains : (shelved path known).files.contains (fileName id) = false := by
    rw [NameMap.contains, habsent]
    rfl
  have hentries : (known.insert id object).entries = known.entries ++ [(id, object)] := by
    apply SortedMap.entries_insert_of_forall_lt
    intro e he
    exact hnew e.1 (List.mem_map_of_mem he)
  unfold NameMap.set
  rw [hcontains]
  unfold shelved
  rw [hentries, List.map_append]
  rfl

theorem erase_shelved (hids : ∀ e ∈ known.entries, e.1 ≤ maxWord) (hid : id ≤ maxWord) :
    (shelved path known).files.erase (fileName id) = (shelved path (known.erase id)).files := by
  have hlock : lockName ≠ fileName id := fun heq => fileName_ne_lockName hid heq.symm
  have hkept : ∀ e ∈ known.entries,
      ((fun e : String × Nat => decide (e.1 ≠ fileName id)) ∘
        fun e => (fileName e.1, e.2 + 1)) e = decide (Key.rank e.1 ≠ Key.rank id) := by
    intro e he
    have hinj := fileName_inj (hids e he) hid
    simp only [Function.comp_apply, ne_eq, hinj, Key.rank_nat]
  have hfirst : decide (((lockName, 0) : String × Nat).1 ≠ fileName id) = true :=
    decide_eq_true hlock
  have hfilter := List.filter_cons_of_pos
    (p := fun e : String × Nat => decide (e.1 ≠ fileName id))
    (l := known.entries.map fun e => (fileName e.1, e.2 + 1)) hfirst
  rw [List.filter_map, List.filter_congr hkept] at hfilter
  exact congrArg NameMap.mk hfilter

end Folders

/-! ## Changing -/

variable {handle handle' : Handle} {data : Bytes}

/-- What a call without a fault leaves: the same ledgers in both, further on than before. -/
def Keeps (path : String) (before after after' : Ledgers) : Prop :=
  after.Mirrors path after' ∧ before.Onward after

theorem flush (h : memory.Mirrors path folder) :
    Twins Ledgers.flush Ledgers.flush memory folder
      (fun _ after _ after' => after = memory ∧ after' = folder) fun _ _ _ _ => False := by
  rcases h with ⟨known, objects, -, rfl, rfl⟩
  exact Twins.of_ok rfl rfl ⟨rfl, rfl⟩

theorem append (h : memory.Mirrors path folder) (hhandle : Writes memory folder handle handle')
    (data : Bytes) :
    Twins (Ledgers.append handle data) (Ledgers.append handle' data) memory folder
      (fun writer after writer' after' => after.list = memory.list ∧
        Keeps path memory after after' ∧ Writes after after' writer writer')
      fun _ _ _ _ => False := by
  rcases h with ⟨known, objects, hids, rfl, rfl⟩
  rcases hhandle with ⟨⟨object, file, length⟩, hthere, hfresh⟩
  obtain rfl : length = (objects.getD object []).length := hfresh
  have hthere : object < objects.length := hthere
  have hmemory : (Ledgers.append (.memory object) data).run
      { directory := .memory known {}, objects } =
      .ok (.memory object)
        { directory := .memory known {}, objects := objects.modify object (· ++ data) } := rfl
  have hrun (handle : Handle) : (Ledgers.append handle data).run
      { directory := .files (shelved path known) true, objects := filed objects } =
      .ok (handle.append (filed objects) data).1
        { directory := .files (shelved path known) true
          objects := (handle.append (filed objects) data).2 } := rfl
  have hfile := hrun (.file file (object + 1) (objects.getD object []).length)
  rw [append_file] at hfile
  apply Twins.of_ok hmemory hfile
  refine ⟨rfl, ⟨?_, onward_modify known hthere data⟩, ?_⟩
  · refine ⟨known, _, ?_, rfl, rfl⟩
    intro e he
    rw [List.length_modify]
    exact hids e he
  · constructor
    · exact ⟨object, file, _⟩
    · show object < (objects.modify object (· ++ data)).length
      rw [List.length_modify]
      exact hthere
    · show _ = ((objects.modify object (· ++ data)).getD object []).length
      rw [getD_modify_of_lt hthere, if_pos rfl, List.length_append]
      rfl

theorem create (h : memory.Mirrors path folder) (hnew : ∀ other ∈ memory.list, other < id)
    (hid : id ≤ maxWord) :
    Twins (Ledgers.create id) (Ledgers.create id) memory folder
      (fun writer after writer' after' => (∀ other ∈ after.list, other ∈ memory.list ∨ other = id) ∧
        Keeps path memory after after' ∧ Writes after after' writer writer')
      fun _ _ _ _ => False := by
  rcases h with ⟨known, objects, hids, rfl, rfl⟩
  have hnew : ∀ other ∈ known.keys, other < id := hnew
  have habsent : known.get? id = none := by
    cases hget : known.get? id with
    | none => rfl
    | some object =>
        exact absurd (hnew id (SortedMap.mem_keys.mpr ⟨object, hget⟩)) (Nat.lt_irrefl id)
  have hnoFile : (shelved path known).files.get? (fileName id) = none := by
    rw [get?_shelved (fun e he => (hids e he).1) hid, habsent]
    rfl
  have hfile : (Ledgers.create id).run
      { directory := .files (shelved path known) true, objects := filed objects } =
      .ok (.file (Path.join path (fileName id)) (objects.length + 1) 0)
        { directory := .files (shelved path (known.insert id objects.length)) true
          objects := filed (objects ++ [[]]) } := by
    rw [create_file true (filed objects) hnoFile]
    show EStateM.Result.ok _ (Ledgers.mk (.files { shelved path known with
      made := true
      files := (shelved path known).files.set (fileName id) (objects.length + 1) } true) _) = _
    rw [set_shelved hnoFile hnew]
    rfl
  apply Twins.of_ok (create_memory objects habsent) hfile
  refine ⟨?_, ⟨?_, onward_insert objects hnew⟩, ?_⟩
  · intro other hother
    have hother : other ∈ (known.insert id objects.length).keys := hother
    rw [SortedMap.keys_insert_of_forall_lt _ hnew] at hother
    exact (List.mem_append.mp hother).imp_right List.mem_singleton.mp
  · refine ⟨known.insert id objects.length, objects ++ [[]], ?_, rfl, rfl⟩
    intro e he
    rw [List.length_append]
    rcases SortedMap.mem_place he with rfl | hold
    · exact ⟨hid, Nat.lt_succ_self _⟩
    · exact ⟨(hids e hold).1, Nat.lt_succ_of_lt (hids e hold).2⟩
  · constructor
    · exact ⟨objects.length, _, 0⟩
    · show objects.length < (objects ++ [[]]).length
      rw [List.length_append]
      exact Nat.lt_succ_self _
    · show 0 = ((objects ++ [[]]).getD objects.length []).length
      simp

theorem delete (h : memory.Mirrors path folder) (hthere : id ∈ memory.list) {newest : LedgerId}
    (hnewest : newest ∈ memory.list) (hlt : id < newest) :
    Twins (Ledgers.delete id) (Ledgers.delete id) memory folder
      (fun _ after _ after' => (∀ kept, kept ∈ after.list ↔ kept ∈ memory.list ∧ kept ≠ id) ∧
        after.objects = memory.objects ∧ Keeps path memory after after')
      fun _ _ _ _ => False := by
  have hle := h.le_maxWord hthere
  rcases h with ⟨known, objects, hids, rfl, rfl⟩
  have hwords : ∀ e ∈ known.entries, e.1 ≤ maxWord := fun e he => (hids e he).1
  obtain ⟨object, hobject⟩ : ∃ object, known.get? id = some object := SortedMap.mem_keys.mp hthere
  have hfileThere : (shelved path known).files.get? (fileName id) = some (object + 1) := by
    rw [get?_shelved hwords hle, hobject]
    rfl
  have hfile : (Ledgers.delete id).run
      { directory := .files (shelved path known) true, objects := filed objects } =
      .ok () { directory := .files (shelved path (known.erase id)) true, objects := filed objects } := by
    rw [delete_file true (filed objects) hfileThere, erase_shelved hwords hle]
    rfl
  apply Twins.of_ok (delete_memory objects hthere) hfile
  refine ⟨fun kept => mem_keys_erase, rfl, ?_, onward_erase objects hnewest hlt⟩
  refine ⟨known.erase id, objects, ?_, rfl, rfl⟩
  intro e he
  exact hids e (List.mem_of_mem_filter he)

end Ledgers.Mirrors
end TieredStore
