import Mathlib.Data.List.Pairwise
import TieredStore.Proofs.Ledger.Mirroring

/-!
# What a folder of ledgers lists

The list of a folder has the id of every file whose name reads as one, with any number of
digits and with or without a plus sign.  To open a ledger only the file that is named with
twenty digits will do.  The two agree iff no other file reads as an id, which is so for
folders that only their holders have changed.
-/

namespace TieredStore

/-! ## Files by name -/

namespace NameMap

variable {α : Type} {map : NameMap α} {name : String}

def names (map : NameMap α) : List String := map.entries.map (·.1)

theorem get?_eq_none_iff : map.get? name = none ↔ name ∉ map.names := by
  unfold get? names
  rw [Option.map_eq_none_iff, List.find?_eq_none, List.mem_map]
  constructor
  · rintro h ⟨e, he, rfl⟩
    exact h e he (decide_eq_true rfl)
  · intro h e he heq
    exact h ⟨e, he, of_decide_eq_true heq⟩

theorem get?_ne_none_iff : map.get? name ≠ none ↔ name ∈ map.names := by
  rw [Ne, get?_eq_none_iff, not_not]

theorem names_set_of_notMem (h : name ∉ map.names) (value : α) :
    (map.set name value).names = map.names ++ [name] := by
  have hcontains : ¬ map.contains name = true := by
    unfold contains
    rw [get?_eq_none_iff.mpr h]
    exact Bool.false_ne_true
  unfold set
  rw [if_neg hcontains]
  exact List.map_append

theorem names_erase (map : NameMap α) (name : String) :
    (map.erase name).names = map.names.filter (· ≠ name) := by
  unfold names
  rw [List.filter_map]
  rfl

end NameMap

/-- Every file whose name reads as an id is the one that the ledger is opened from. -/
def Folder.Canonical (folder : Folder) : Prop :=
  ∀ name ∈ folder.files.names, ∀ id, Ledgers.idOfName? name = some id → name = Ledgers.fileName id

/-- Each file has a name of its own, and only the files of ledgers read as ids. -/
structure Folder.Orderly (folder : Folder) : Prop where
  nodup : folder.files.names.Nodup
  canonical : folder.Canonical

def Folder.withFile (folder : Folder) (name : String) (object : Nat) : Folder :=
  { folder with made := true, files := folder.files.set name object }

namespace Ledgers

variable {folder : Folder} {locked : Bool} {objects : Objects} {id : LedgerId} {name : String}

@[reducible] def ofFolder (folder : Folder) (locked : Bool) (objects : Objects) : Ledgers :=
  { directory := .files folder locked, objects }

def Opens (ledgers : Ledgers) (id : LedgerId) : Prop := ∃ handle, ledgers.attach id = .ok handle

/-- The list has the ids of the ledgers that can be opened, each once and in ascending order. -/
def Catalogues (ledgers : Ledgers) : Prop :=
  ledgers.list.Pairwise (· < ·) ∧ ∀ id, id ∈ ledgers.list ↔ id ≤ maxWord ∧ ledgers.Opens id

/-! ## Listing -/

theorem idOfName?_append (stem : String) :
    idOfName? (stem ++ nameEnding) = (Text.decimalValue? stem.toList).filter (· ≤ maxWord) := by
  have hends : (stem ++ nameEnding).endsWith nameEnding = true := by
    rw [endsWith_iff, String.toList_append]
    exact List.suffix_append _ _
  have hstem : (stem ++ nameEnding).toList.take
      ((stem ++ nameEnding).length - nameEnding.length) = stem.toList := by
    rw [String.length_append, Nat.add_sub_cancel, String.toList_append, ← String.length_toList]
    exact List.take_left
  unfold idOfName?
  rw [if_pos hends]
  show (Text.decimalValue? ((stem ++ nameEnding).toList.take _)).filter _ = _
  rw [hstem]

theorem idOfName?_eq_some_iff :
    idOfName? name = some id ↔
      ∃ stem, name = stem ++ nameEnding ∧ Text.decimalValue? stem.toList = some id ∧
        id ≤ maxWord := by
  constructor
  · intro h
    have hends : name.endsWith nameEnding = true := by
      by_contra hends
      unfold idOfName? at h
      rw [if_neg hends] at h
      cases h
    rcases endsWith_iff.mp hends with ⟨stem, hstem⟩
    have hname : name = String.ofList stem ++ nameEnding := by
      apply String.toList_inj.mp
      rw [String.toList_append, String.toList_ofList, hstem]
    rw [hname, idOfName?_append, Option.filter_eq_some_iff] at h
    exact ⟨String.ofList stem, hname, h.1, of_decide_eq_true h.2⟩
  · rintro ⟨stem, rfl, hvalue, hid⟩
    rw [idOfName?_append, Option.filter_eq_some_iff]
    exact ⟨hvalue, decide_eq_true hid⟩

theorem le_maxWord_of_idOfName? (h : idOfName? name = some id) : id ≤ maxWord := by
  rcases idOfName?_eq_some_iff.mp h with ⟨_, _, _, hid⟩
  exact hid

theorem list_perm (folder : Folder) (locked : Bool) (objects : Objects) :
    (ofFolder folder locked objects).list.Perm (folder.files.names.filterMap idOfName?) := by
  unfold NameMap.names
  rw [List.filterMap_map]
  exact List.mergeSort_perm _ _

theorem list_ascending (folder : Folder) (locked : Bool) (objects : Objects) :
    (ofFolder folder locked objects).list.Pairwise (· ≤ ·) := by
  have htrans : ∀ a b c : LedgerId, decide (a ≤ b) = true → decide (b ≤ c) = true →
      decide (a ≤ c) = true := by
    intro a b c hab hbc
    exact decide_eq_true (Nat.le_trans (of_decide_eq_true hab) (of_decide_eq_true hbc))
  have htotal : ∀ a b : LedgerId, (decide (a ≤ b) || decide (b ≤ a)) = true := by
    intro a b
    rw [Bool.or_eq_true, decide_eq_true_eq, decide_eq_true_eq]
    exact Nat.le_total a b
  exact (List.pairwise_mergeSort htrans htotal _).imp of_decide_eq_true

theorem mem_list_iff :
    id ∈ (ofFolder folder locked objects).list ↔
      ∃ name ∈ folder.files.names, idOfName? name = some id := by
  rw [(list_perm folder locked objects).mem_iff, List.mem_filterMap]

/-- An id stands in the list as often as there are files whose names read as it. -/
theorem count_list (folder : Folder) (locked : Bool) (objects : Objects) (id : LedgerId) :
    (ofFolder folder locked objects).list.count id =
      folder.files.names.countP (idOfName? · == some id) := by
  rw [(list_perm folder locked objects).count_eq, List.count_filterMap]

theorem opens_iff :
    (ofFolder folder locked objects).Opens id ↔ fileName id ∈ folder.files.names := by
  rw [← NameMap.get?_ne_none_iff]
  show (∃ handle, folder.openFile (fileName id) objects = .ok handle) ↔ _
  unfold Folder.openFile
  cases folder.files.get? (fileName id) with
  | none => simp
  | some object => simp

theorem mem_list_of_opens (hid : id ≤ maxWord) (h : (ofFolder folder locked objects).Opens id) :
    id ∈ (ofFolder folder locked objects).list :=
  mem_list_iff.mpr ⟨fileName id, opens_iff.mp h, idOfName?_fileName hid⟩

theorem strictly_ascending_iff (hnames : folder.files.names.Nodup) :
    (ofFolder folder locked objects).list.Pairwise (· < ·) ↔
      ∀ a ∈ folder.files.names, ∀ b ∈ folder.files.names, ∀ id,
        idOfName? a = some id → idOfName? b = some id → a = b := by
  have hstrict : (ofFolder folder locked objects).list.Pairwise (· < ·) ↔
      (ofFolder folder locked objects).list.Nodup := by
    constructor
    · intro h
      exact h.imp Nat.ne_of_lt
    · intro h
      exact ((list_ascending folder locked objects).and h).imp fun hboth =>
        Nat.lt_of_le_of_ne hboth.1 hboth.2
  rw [hstrict, (list_perm folder locked objects).nodup_iff, List.Nodup, List.pairwise_filterMap]
  constructor
  · intro h a ha b hb id hida hidb
    by_contra hne
    have hsymm : Std.Symm fun a b : String => ∀ i, idOfName? a = some i →
        ∀ j, idOfName? b = some j → i ≠ j :=
      ⟨fun _ _ hab i hi j hj heq => hab j hj i hi heq.symm⟩
    exact h.forall ha hb hne id hida id hidb rfl
  · intro h
    apply hnames.imp_of_mem
    intro a b ha hb hne i hi j hj heq
    subst heq
    exact hne (h a ha b hb i hi hj)

/-- A folder lists what it can open iff all files that read as ids are named alike. -/
theorem catalogues_iff (hnames : folder.files.names.Nodup) :
    (ofFolder folder locked objects).Catalogues ↔ folder.Canonical := by
  unfold Catalogues
  rw [strictly_ascending_iff hnames]
  constructor
  · intro ⟨honce, hlisted⟩ name hname id hid
    have hopens := (hlisted id).mp (mem_list_iff.mpr ⟨name, hname, hid⟩)
    exact honce name hname _ (opens_iff.mp hopens.2) id hid (idOfName?_fileName hopens.1)
  · intro hcanonical
    constructor
    · intro a ha b hb id hida hidb
      rw [hcanonical a ha id hida, hcanonical b hb id hidb]
    · intro id
      constructor
      · intro hmem
        rcases mem_list_iff.mp hmem with ⟨name, hname, hid⟩
        rw [hcanonical name hname id hid] at hname
        exact ⟨le_maxWord_of_idOfName? hid, opens_iff.mpr hname⟩
      · intro ⟨hid, hopens⟩
        exact mem_list_of_opens hid hopens

/-! ## Creating -/

theorem run_ensureAlive (folder : Folder) (locked : Bool) (objects : Objects) :
    ensureAlive.run (ofFolder folder locked objects) =
      .ok () (ofFolder folder locked objects) := rfl

theorem create_new (hnew : fileName id ∉ folder.files.names) (locked : Bool) (objects : Objects) :
    (create id).run (ofFolder folder locked objects) =
      .ok (.file (folder.pathOf (fileName id)) objects.length 0)
        (ofFolder (folder.withFile (fileName id) objects.length) locked (objects ++ [[]])) :=
  Mirrors.create_file locked objects (NameMap.get?_eq_none_iff.mpr hnew)

theorem create_again (hthere : fileName id ∈ folder.files.names) (locked : Bool)
    (objects : Objects) :
    (create id).run (ofFolder folder locked objects) =
      .error (.rejected (.ledgerExists id (some (folder.pathOf (fileName id)))))
        (ofFolder folder locked objects) := by
  have hcontains : folder.files.contains (fileName id) = true :=
    Option.isSome_iff_ne_none.mpr (NameMap.get?_ne_none_iff.mpr hthere)
  unfold create
  rw [EStateM.run_bind, run_ensureAlive]
  simp only [EStateM.run_bind, EStateM.run_get, hcontains]
  rfl

theorem delete_missing (habsent : folder.files.get? (fileName id) = none) (locked : Bool)
    (objects : Objects) :
    (delete id).run (ofFolder folder locked objects) =
      .error (.notFound (label id)) (ofFolder folder locked objects) := by
  have hcontains : folder.files.contains (fileName id) = false := by
    unfold NameMap.contains
    rw [habsent]
    rfl
  unfold delete
  rw [EStateM.run_bind, run_ensureAlive]
  simp only [EStateM.run_bind, EStateM.run_get, hcontains]
  rfl

theorem list_withFile_perm (hid : id ≤ maxWord) (hnew : fileName id ∉ folder.files.names)
    (object : Nat) (locked : Bool) (objects after : Objects) :
    (ofFolder (folder.withFile (fileName id) object) locked after).list.Perm
      (id :: (ofFolder folder locked objects).list) := by
  have hread : ((folder.withFile (fileName id) object).files.names).filterMap idOfName? =
      folder.files.names.filterMap idOfName? ++ [id] := by
    unfold Folder.withFile
    rw [NameMap.names_set_of_notMem hnew, List.filterMap_append]
    simp only [List.filterMap_cons, idOfName?_fileName hid, List.filterMap_nil]
  have hbefore := (list_perm folder locked objects).symm
  apply (list_perm _ locked after).trans
  rw [hread]
  exact List.perm_append_comm.trans (hbefore.cons id)

theorem attach_withFile_self (object : Nat) (locked : Bool) (objects : Objects) :
    (ofFolder (folder.withFile (fileName id) object) locked objects).attach id =
      .ok (.file (folder.pathOf (fileName id)) object (objects.getD object []).length) := by
  show (folder.withFile (fileName id) object).openFile (fileName id) objects = _
  unfold Folder.openFile Folder.withFile
  simp only [NameMap.get?_set_self]
  rfl

theorem getD_append_empty (objects : Objects) (object : Nat) :
    (objects ++ [[]]).getD object [] = objects.getD object [] := by
  simp only [List.getD_eq_getElem?_getD, List.getElem?_append]
  split
  · rfl
  · rename_i hlt
    rw [List.getElem?_eq_none (Nat.not_lt.mp hlt)]
    cases object - objects.length with
    | zero => rfl
    | succ n => rfl

theorem attach_withFile_of_ne {other : LedgerId} (hid : id ≤ maxWord) (hother : other ≤ maxWord)
    (hne : other ≠ id) (object : Nat) (locked : Bool) (objects : Objects) :
    (ofFolder (folder.withFile (fileName id) object) locked (objects ++ [[]])).attach other =
      (ofFolder folder locked objects).attach other := by
  have hnames : fileName other ≠ fileName id := fun heq => hne ((fileName_inj hother hid).mp heq)
  have hget : (folder.withFile (fileName id) object).files.get? (fileName other) =
      folder.files.get? (fileName other) :=
    NameMap.get?_set_of_ne _ hnames _
  show (folder.withFile (fileName id) object).openFile (fileName other) (objects ++ [[]]) =
    folder.openFile (fileName other) objects
  unfold Folder.openFile
  rw [hget]
  cases folder.files.get? (fileName other) with
  | none => rfl
  | some found =>
      show Except.ok (Handle.file _ found ((objects ++ [[]]).getD found []).length) = _
      rw [getD_append_empty]
      rfl

/-! ## Folders that only their holders change -/

theorem orderly_withFile (h : folder.Orderly) (hnew : name ∉ folder.files.names)
    (hname : ∀ id, idOfName? name = some id → name = fileName id) (object : Nat) :
    (folder.withFile name object).Orderly := by
  have hnames : (folder.withFile name object).files.names = folder.files.names ++ [name] :=
    NameMap.names_set_of_notMem hnew object
  constructor
  · rw [hnames]
    apply List.nodup_append.mpr
    refine ⟨h.nodup, List.pairwise_singleton _ name, ?_⟩
    intro a ha b hb heq
    rw [List.mem_singleton] at hb
    exact hnew (hb ▸ heq ▸ ha)
  · intro file hfile id hid
    rw [hnames] at hfile
    rcases List.mem_append.mp hfile with hold | hlast
    · exact h.canonical file hold id hid
    · rw [List.mem_singleton] at hlast
      subst hlast
      exact hname id hid

theorem orderly_erase (h : folder.Orderly) (name : String) :
    Folder.Orderly { folder with files := folder.files.erase name } := by
  constructor
  · show (folder.files.erase name).names.Nodup
    rw [NameMap.names_erase]
    exact h.nodup.filter _
  · intro file hfile
    have hold : file ∈ (folder.files.erase name).names := hfile
    rw [NameMap.names_erase] at hold
    exact h.canonical file (List.mem_filter.mp hold).1

/-- The ledgers are the files of an orderly folder. -/
def Kept (ledgers : Ledgers) : Prop :=
  ∃ folder locked objects, ledgers = ofFolder folder locked objects ∧ folder.Orderly

inductive HolderCall
  | acquire
  | release
  | create (id : LedgerId) (h : id ≤ maxWord)
  | delete (id : LedgerId)
  | append (handle : Handle) (data : Bytes)
  | flush
  | truncate (handle : Handle) (target : Nat)

def after {α : Type} (ledgers : Ledgers) (call : LedgersM α) : Ledgers :=
  match call.run ledgers with
  | .ok _ later => later
  | .error _ later => later

def HolderCall.apply (ledgers : Ledgers) : HolderCall → Ledgers
  | .acquire => ledgers.after Ledgers.acquire
  | .release => ledgers.release
  | .create id _ => ledgers.after (Ledgers.create id)
  | .delete id => ledgers.after (Ledgers.delete id)
  | .append handle data => ledgers.after (Ledgers.append handle data)
  | .flush => ledgers.after Ledgers.flush
  | .truncate handle target => ledgers.after (Ledgers.truncate handle target)

theorem canonical_fileName (hid : id ≤ maxWord) {other : LedgerId}
    (h : idOfName? (fileName id) = some other) : fileName id = fileName other := by
  rw [idOfName?_fileName hid] at h
  rw [Option.some.inj h]

theorem after_acquire (locked : Bool) (objects : Objects) :
    (ofFolder folder locked objects).after acquire =
      ofFolder (folder.makeFile lockName objects).2.1 true
        (folder.makeFile lockName objects).2.2 := by
  cases locked with
  | true => rfl
  | false => rfl

theorem after_truncate (handle : Handle) (target : Nat) (locked : Bool) (objects : Objects) :
    ∃ objects', (ofFolder folder locked objects).after (truncate handle target) =
      ofFolder folder locked objects' := by
  unfold after truncate
  rw [EStateM.run_bind, run_ensureAlive]
  simp only [EStateM.run_bind, EStateM.run_get]
  cases handle.truncate objects target with
  | error cause => exact ⟨objects, rfl⟩
  | ok result => exact ⟨result.2, rfl⟩

theorem Kept.apply {ledgers : Ledgers} (h : ledgers.Kept) (call : HolderCall) :
    (call.apply ledgers).Kept := by
  rcases h with ⟨folder, locked, objects, rfl, horderly⟩
  cases call with
  | acquire =>
      show ((ofFolder folder locked objects).after acquire).Kept
      rw [after_acquire]
      refine ⟨_, _, _, rfl, ?_⟩
      unfold Folder.makeFile
      cases hlock : folder.files.get? lockName with
      | some object => exact horderly
      | none =>
          apply orderly_withFile horderly (NameMap.get?_eq_none_iff.mp hlock)
          intro id hid
          rw [idOfName?_lockName] at hid
          cases hid
  | release => exact ⟨folder, false, objects, rfl, horderly⟩
  | create id hid =>
      show ((ofFolder folder locked objects).after (create id)).Kept
      unfold after
      by_cases hthere : fileName id ∈ folder.files.names
      · rw [create_again hthere]
        exact ⟨folder, locked, objects, rfl, horderly⟩
      · rw [create_new hthere]
        exact ⟨_, _, _, rfl, orderly_withFile horderly hthere (fun _ => canonical_fileName hid) _⟩
  | delete id =>
      show ((ofFolder folder locked objects).after (delete id)).Kept
      unfold after
      cases hthere : folder.files.get? (fileName id) with
      | none =>
          rw [delete_missing hthere]
          exact ⟨folder, locked, objects, rfl, horderly⟩
      | some object =>
          rw [Mirrors.delete_file locked objects hthere]
          exact ⟨_, _, _, rfl, orderly_erase horderly _⟩
  | append handle data => exact ⟨folder, locked, (handle.append objects data).2, rfl, horderly⟩
  | flush => exact ⟨folder, locked, objects, rfl, horderly⟩
  | truncate handle target =>
      rcases after_truncate handle target locked objects with ⟨objects', hafter⟩
      exact ⟨folder, locked, objects', hafter, horderly⟩

theorem kept_inFolder (path : String) : (inFolder path).Kept :=
  ⟨{ path }, false, [], rfl, List.nodup_nil, fun _ hname => nomatch hname⟩

/-- A folder that only its holders have changed lists what it can open. -/
theorem catalogues_of_held (path : String) (calls : List HolderCall) :
    (calls.foldl HolderCall.apply (inFolder path)).Catalogues := by
  have hkept : ∀ ledgers : Ledgers, ledgers.Kept →
      (calls.foldl HolderCall.apply ledgers).Kept := by
    induction calls with
    | nil => exact fun _ h => h
    | cons call rest ih => exact fun ledgers h => ih _ (h.apply call)
  rcases hkept _ (kept_inFolder path) with ⟨folder, locked, objects, hledgers, horderly⟩
  rw [hledgers]
  exact (catalogues_iff horderly.nodup).mpr horderly.canonical

/-! ## The list and what opens -/

/--
The list of a folder has the ids that can be opened, each once and in ascending order, iff
every file that reads as an id is the one it is opened from.  In any folder the list is in
ascending order, has an id once for each file that reads as it, and leaves out no id that
can be opened; and a ledger that is made is then listed and opened from its own file, while
the others stay as they were.  One that is there is not made again.
-/
theorem list_names_what_opens_iff (hnames : folder.files.names.Nodup) (locked : Bool)
    (objects : Objects) :
    let ledgers := ofFolder folder locked objects
    (ledgers.Catalogues ↔ folder.Canonical) ∧
    ledgers.list.Pairwise (· ≤ ·) ∧
    (∀ id, ledgers.list.count id = folder.files.names.countP (idOfName? · == some id)) ∧
    (∀ id ≤ maxWord, ledgers.Opens id → id ∈ ledgers.list) ∧
    ∀ id ≤ maxWord,
      (ledgers.Opens id →
        (create id).run ledgers =
          .error (.rejected (.ledgerExists id (some (folder.pathOf (fileName id))))) ledgers) ∧
      (¬ ledgers.Opens id → ∃ handle after, (create id).run ledgers = .ok handle after ∧
        handle = .file (folder.pathOf (fileName id)) objects.length 0 ∧
        after.list.Perm (id :: ledgers.list) ∧ after.attach id = .ok handle ∧
        (∀ other ≤ maxWord, other ≠ id → after.attach other = ledgers.attach other) ∧
        (folder.Canonical → after.Catalogues)) := by
  intro ledgers
  refine ⟨catalogues_iff hnames, list_ascending folder locked objects,
    count_list folder locked objects, fun id hid => mem_list_of_opens hid, ?_⟩
  intro id hid
  constructor
  · intro hopens
    exact create_again (opens_iff.mp hopens) locked objects
  · intro hclosed
    have hnew : fileName id ∉ folder.files.names := fun hthere => hclosed (opens_iff.mpr hthere)
    refine ⟨_, _, create_new hnew locked objects, rfl,
      list_withFile_perm hid hnew _ locked objects _, ?_, ?_, ?_⟩
    · rw [attach_withFile_self]
      simp
    · intro other hother hne
      exact attach_withFile_of_ne hid hother hne _ locked objects
    · intro hcanonical
      have horderly := orderly_withFile ⟨hnames, hcanonical⟩ hnew
        (fun _ => canonical_fileName hid) objects.length
      exact (catalogues_iff horderly.nodup).mpr horderly.canonical

/-- A folder with a lock file and one ledger, and a file that is neither. -/
private def tidyFolder : Folder :=
  { path := "d", made := true
    files := { entries := [(lockName, 0), (fileName 7, 1), ("7.txt", 2)] } }

theorem list_names_what_opens_iff_tidy :
    tidyFolder.files.names.Nodup ∧
    (ofFolder tidyFolder true [[], [1], []]).Catalogues ∧
    ¬ (ofFolder tidyFolder true [[], [1], []]).Opens maxWord ∧
    ∃ handle after, (create maxWord).run (ofFolder tidyFolder true [[], [1], []]) =
      .ok handle after ∧ after.attach maxWord = .ok handle ∧ maxWord ∈ after.list := by
  have hnames : tidyFolder.files.names.Nodup := by decide
  have hcanonical : tidyFolder.Canonical := by
    intro name hname id hid
    have hcases : name = lockName ∨ name = fileName 7 ∨ name = "7.txt" := by
      simpa [tidyFolder, NameMap.names] using hname
    rcases hcases with rfl | rfl | rfl
    · rw [idOfName?_lockName] at hid
      cases hid
    · exact canonical_fileName (by decide) hid
    · rcases idOfName?_eq_some_iff.mp hid with ⟨stem, hstem, -, -⟩
      have hends : nameEnding.toList <:+ "7.txt".toList :=
        ⟨stem.toList, by rw [← String.toList_append, ← hstem]⟩
      exact absurd hends (by decide)
  have hclosed : ¬ (ofFolder tidyFolder true [[], [1], []]).Opens maxWord := by
    rw [opens_iff]
    decide
  have hall := list_names_what_opens_iff hnames true [[], [1], []]
  rcases (hall.2.2.2.2 maxWord (Nat.le_refl _)).2 hclosed with
    ⟨handle, after, hrun, -, hperm, hattach, -⟩
  exact ⟨hnames, hall.1.mpr hcanonical, hclosed, handle, after, hrun, hattach,
    hperm.mem_iff.mpr List.mem_cons_self⟩

/-- A folder with a ledger and two files whose names have a single digit. -/
private def lenientFolder : Folder :=
  { path := "d", made := true
    files := { entries := [(fileName 1, 0), ("1.ledger", 1), ("2.ledger", 2)] } }

/-- The first ledger is listed twice, and one is listed that cannot be opened. -/
theorem short_names_listed :
    lenientFolder.files.names.Nodup ∧
    2 ≤ (ofFolder lenientFolder true [[], [], []]).list.count 1 ∧
    2 ∈ (ofFolder lenientFolder true [[], [], []]).list ∧
    ¬ (ofFolder lenientFolder true [[], [], []]).Opens 2 ∧
    ¬ (ofFolder lenientFolder true [[], [], []]).Catalogues := by
  have hone : idOfName? "1.ledger" = some 1 :=
    idOfName?_eq_some_iff.mpr ⟨"1", by decide, by decide, by decide⟩
  have htwo : idOfName? "2.ledger" = some 2 :=
    idOfName?_eq_some_iff.mpr ⟨"2", by decide, by decide, by decide⟩
  have hlisted : 2 ∈ (ofFolder lenientFolder true [[], [], []]).list :=
    mem_list_iff.mpr ⟨"2.ledger", by decide, htwo⟩
  have hclosed : ¬ (ofFolder lenientFolder true [[], [], []]).Opens 2 := by
    rw [opens_iff]
    decide
  have htwice : 2 ≤ (ofFolder lenientFolder true [[], [], []]).list.count 1 := by
    have hfirst : idOfName? (fileName 1) = some 1 := idOfName?_fileName (by decide)
    rw [count_list]
    simp [lenientFolder, NameMap.names, hfirst, hone, htwo]
  exact ⟨by decide, htwice, hlisted, hclosed, fun h => hclosed ((h.2 2).mp hlisted).2⟩

end Ledgers
end TieredStore
