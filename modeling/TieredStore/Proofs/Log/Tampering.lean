import TieredStore.Proofs.Log.Damaging
import TieredStore.Proofs.Log.Run

/-!
# A log in which a byte is changed while it is closed

A run has written the records of the ledgers, so all of them are whole and can be
decoded, and after a byte has been changed opening and reading end in a fatal
error.  There is one exception.  If the changed byte makes the length of a frame of
the newest ledger so great that the frame goes on behind the end of the ledger, it
looks like an append that was interrupted.  Then the frame is cut off with all that
stands behind it, although the records in it were acknowledged.
-/

namespace TieredStore

open Chapter LogRecord StoredRecord

/--
The changed byte is in the length of the frame of `record`, which is in the newest
ledger, and the frame is told to go on behind the end of the ledger.
-/
structure Ledgers.Overshoots (ledgers damaged : Ledgers) (id : LedgerId) (offset : Nat)
    (before : List LogRecord) (record : LogRecord) (after : List LogRecord) : Prop where
  newest : ledgers.list.getLast? = some id
  bytes_eq : ledgers.bytes? id = some (LogRecord.frames (before ++ record :: after))
  length_field : ∃ index, offset = (LogRecord.frames before).length + index ∧
    4 ≤ index ∧ index < 8
  beyond : ∃ behind, damaged.bytes? id = some (LogRecord.frames before ++ behind) ∧
    behind.length < Frame.overhead + Frame.declared behind

/-!
## Changing a byte
-/

namespace Ledgers.Shows

variable {ledgers damaged : Ledgers} {volumes : List Volume} {id : LedgerId} {offset : Nat}
  {mask : UInt8}

theorem exists_volume {handle : Handle} (h : ledgers.Shows volumes)
    (hattach : ledgers.attach id = .ok handle) : ∃ v ∈ volumes, v.id = id := by
  obtain ⟨known, hdirectory, hentries⟩ := h.directory
  unfold attach at hattach
  simp only [hdirectory] at hattach
  cases hget : known.get? id with
  | none =>
      rw [hget] at hattach
      cases hattach
  | some object =>
      rw [SortedMap.get?_eq_some_iff, hentries] at hget
      rcases List.mem_map.mp hget with ⟨v, hv, heq⟩
      exact ⟨v, hv, (Prod.mk.inj heq).1⟩

theorem bytes?_modify_of_ne {v w : Volume} {change : Bytes → Bytes} (h : ledgers.Shows volumes)
    (hv : v ∈ volumes) (hw : w ∈ volumes) (hne : w.id ≠ v.id) (hnil : change [] = []) :
    bytes? { ledgers with objects := ledgers.objects.modify v.object change } w.id =
      ledgers.bytes? w.id := by
  have hobjects : ¬ ledgers.object? w.id = some v.object := by
    rw [h.object?_eq hw, Option.some.injEq]
    intro heq
    rw [List.inj_on_of_nodup_map h.nodup hw hv heq] at hne
    exact hne rfl
  rw [bytes?_modify _ _ hnil]
  simp only [if_neg hobjects]
  rw [Option.map_id']

theorem altered_flip (h : ledgers.Shows volumes) (hmask : mask ≠ 0)
    (hflip : (flip id offset mask).run ledgers = .ok true damaged) :
    id ∈ ledgers.list ∧ ledgers.Altered damaged id offset ∧
      damaged.directory = ledgers.directory := by
  cases hattach : ledgers.attach id with
  | error cause =>
      unfold flip existing at hflip
      simp only [EStateM.run_bind, EStateM.run_get, hattach] at hflip
      cases hflip
  | ok handle =>
      rcases h.exists_volume hattach with ⟨v, hv, rfl⟩
      have hlist : v.id ∈ ledgers.list := by
        rw [h.list_eq]
        exact List.mem_map_of_mem hv
      rw [h.attach_eq hv] at hattach
      cases hattach
      unfold flip existing at hflip
      simp only [EStateM.run_bind, EStateM.run_get, h.attach_eq hv] at hflip
      rcases (EStateM.Result.ok.inj hflip) with ⟨hthere, rfl⟩
      have hoffset : offset < v.bytes.length := by
        rw [← h.getD_eq hv]
        exact of_decide_eq_true hthere
      refine ⟨hlist, ⟨rfl, ?_, ?_⟩, rfl⟩
      · intro other hother hne
        rw [h.list_eq] at hother
        rcases List.mem_map.mp hother with ⟨w, hw, rfl⟩
        exact h.bytes?_modify_of_ne hv hw hne (List.modify_nil _ _)
      · refine ⟨v.bytes, v.bytes.modify offset (· ^^^ mask), h.bytes?_eq hv, ?_,
          Bytes.DifferAt.flipped hoffset hmask⟩
        have hchanged := @bytes?_modify ledgers v.object (·.modify offset (· ^^^ mask))
          (List.modify_nil _ _) v.id
        rw [h.bytes?_eq hv, Option.map_some, if_pos (h.object?_eq hv)] at hchanged
        exact hchanged

end Ledgers.Shows

/-!
## The frame that is cut off
-/

theorem LogRecord.frames_eq_run (records : List LogRecord) :
    LogRecord.frames records = Frame.run (records.map LogRecord.bytes) := by
  unfold LogRecord.frames Frame.run
  rw [List.flatMap_map]
  rfl

namespace Damage

variable {ledgers damaged : Ledgers} {pages : List Page} {chapters : List Chapter}
  {id : LedgerId} {offset : Nat} (d : Damage pages damaged id offset)

theorem newer_eq_nil (hnodup : (pages.map (·.id)).Nodup)
    (hnewest : (pages.map (·.id)).getLast? = some id) : d.newer = [] := by
  have hids := congrArg (List.map (·.id)) d.pages_eq
  rw [List.map_append, List.map_cons, d.id_eq] at hids
  rw [hids] at hnodup hnewest
  rcases List.eq_nil_or_concat d.newer with hnil | ⟨between, last, hlast⟩
  · exact hnil
  · rw [hlast, List.concat_eq_append, List.map_append, List.map_singleton, ← List.cons_append,
      ← List.append_assoc, List.getLast?_concat, Option.some.injEq] at hnewest
    rw [hlast, List.concat_eq_append, List.map_append, List.map_singleton, hnewest] at hnodup
    have hnot := (List.nodup_cons.mp (List.nodup_middle.mp hnodup)).1
    exact absurd (by simp) hnot

theorem list_getLast? (h : ledgers.Legible pages) (hnewer : d.newer = []) :
    ledgers.list.getLast? = some id := by
  have hids := congrArg (List.map (·.id)) d.pages_eq
  rw [hnewer, List.map_append, List.map_singleton, d.id_eq] at hids
  rw [← h.ids_eq, hids, List.getLast?_concat]

theorem bytes?_eq (h : ledgers.Legible pages) (hwhole : ∀ page ∈ pages, page.rest = []) :
    ledgers.bytes? id = some (StoredRecord.frames (d.before ++ d.record :: d.after)) := by
  have hpage : d.page ∈ d.older ++ d.page :: d.newer :=
    List.mem_append_right _ List.mem_cons_self
  rw [← d.pages_eq] at hpage
  have hbytes := h.bytes d.page hpage
  rw [Page.bytes, hwhole d.page hpage, List.append_nil, d.id_eq, d.records_eq] at hbytes
  exact hbytes

/-- A frame that is cut off overshoots. -/
theorem overshoots_of_cutsOff (h : ledgers.Legible pages)
    (hwhole : ∀ page ∈ pages, page.rest = []) {records : List LogRecord}
    (hstores : AllStore (Page.recordsOf pages) records) (hcut : d.CutsOff) :
    ∃ older before record after, records = older ++ (before ++ record :: after) ∧
      ledgers.Overshoots damaged id offset before record after := by
  rw [d.recordsOf_eq hcut.1, List.append_assoc] at hstores
  rcases forall₂_of_append hstores with ⟨older, newest, rfl, -, hnewest⟩
  have hbytes := d.bytes?_eq h hwhole
  have hnewest : AllStore (d.before ++ d.record :: d.after) newest := hnewest
  rw [hnewest.frames_eq] at hbytes
  rcases forall₂_of_append hnewest with ⟨before, _ | ⟨record, after⟩, rfl, hbefore, hafter⟩
  · cases hafter
  have hfront : StoredRecord.frames d.before = LogRecord.frames before :=
    AllStore.frames_eq hbefore
  rcases (Frame.unfinished_of_differAt_iff d.differ d.record.fits).mp hcut.2 with
    ⟨hmagic, hlength, hbeyond⟩
  refine ⟨older, before, record, after, rfl, d.list_getLast? h hcut.1, hbytes,
    ⟨d.index, ?_, hmagic, hlength⟩, d.behind, ?_, hbeyond⟩
  · rw [← hfront]
    exact d.offset_eq
  · rw [← hfront]
    exact d.bytes_eq

theorem cutsOff_of_overshoots (h : ledgers.Legible pages) (hnodup : ledgers.list.Nodup)
    (hwhole : ∀ page ∈ pages, page.rest = []) {older before after : List LogRecord}
    {record : LogRecord} (hwritable : AllWritable (older ++ (before ++ record :: after)))
    (hstores : AllStore (Page.recordsOf pages) (older ++ (before ++ record :: after)))
    (hover : ledgers.Overshoots damaged id offset before record after) :
    d.CutsOff ∧ AllHold (Page.recordsOf d.older ++ d.before) (older ++ before) := by
  have hnewest := hover.newest
  rw [← h.ids_eq] at hnewest hnodup
  have hnewer := d.newer_eq_nil hnodup hnewest
  have hbytes := d.bytes?_eq h hwhole
  rw [hover.bytes_eq, Option.some.injEq, LogRecord.frames_eq_run] at hbytes
  have hfits : Frame.AllFit ((before ++ record :: after).map LogRecord.bytes) := by
    intro bytes hmem
    rcases List.mem_map.mp hmem with ⟨r, hr, rfl⟩
    exact (hwritable.of_append.2 r hr).length_le
  -- the frames can be told from the bytes, so the records of the run are those of the page
  have hsame := (Frame.run_inj hfits (StoredRecord.allFit (d.before ++ d.record :: d.after))
    Frame.unfinished_nil Frame.unfinished_nil (congrArg (· ++ []) hbytes)).1
  rw [List.map_append, List.map_append, List.map_cons, List.map_cons] at hsame
  rcases hover.length_field with ⟨index, hoffset, hmagic, hlength⟩
  rw [d.offset_eq, LogRecord.frames_eq_run] at hoffset
  have hindex : index < (Frame.bytes record.bytes).length :=
    Nat.lt_of_lt_of_le hlength (Frame.headerSize_le_length record.bytes)
  rcases Frame.frame_at_unique hsame hoffset.symm hindex d.differ.lt_length with
    ⟨hbefore, -, hafter, rfl⟩
  have hbehind : d.behind.length < Frame.overhead + Frame.declared d.behind := by
    rcases hover.beyond with ⟨behind, hdamaged, hbeyond⟩
    rw [d.bytes_eq, LogRecord.frames_eq_run, hbefore, Option.some.injEq] at hdamaged
    have hsplit : d.behind = behind := List.append_cancel_left hdamaged
    rw [hsplit]
    exact hbeyond
  refine ⟨⟨hnewer, ?_⟩, ?_⟩
  · exact (Frame.unfinished_of_differAt_iff d.differ d.record.fits).mpr ⟨hmagic, hlength, hbehind⟩
  · rw [d.recordsOf_eq hnewer] at hstores
    rcases hstores.allHold.of_append with ⟨kept, lost, hsplit, hkept, hlost⟩
    have hlengths : (record :: after).length = lost.length := by
      rw [← hlost.length_eq, List.length_cons, List.length_cons]
      have hcount := congrArg List.length hafter
      rw [List.length_map, List.length_map] at hcount
      rw [hcount]
    rw [← List.append_assoc] at hsplit
    rw [(List.append_inj' hsplit hlengths).1]
    exact hkept

end Damage

/-!
## Runs
-/

namespace LogRun

variable {log : Log} {damaged : Ledgers} {id : LedgerId} {offset : Nat} {mask : UInt8}

theorem exists_damage (list : List LogStep) (hopen : (start.steps list).session = .opened log)
    (hclean : log.poisoned = false) (hmask : mask ≠ 0)
    (hflip : (Ledgers.flip id offset mask).run ((start.steps list).step .close).session.ledgers =
      .ok true damaged) :
    ∃ pages, log.medium.Legible pages ∧ (∀ page ∈ pages, page.rest = []) ∧
      log.medium.list.Nodup ∧ AllStore (Page.recordsOf pages) (start.steps list).records ∧
      AllWritable (start.steps list).records ∧ damaged.directory = log.medium.directory ∧
      Nonempty (Damage pages damaged id offset) := by
  rcases exact_start.steps list with ⟨first, chapters, tail, hhistory, -, hkeeps⟩
  rw [hopen] at hkeeps
  have hholds : log.Holds first chapters tail := hkeeps
  obtain rfl : tail = [] := hholds.clean hclean
  have hshows := hholds.keeps.shows
  have hclosed : ((start.steps list).step .close).session.ledgers = log.medium := by
    show (start.steps list).session.ledgers.release = log.medium
    rw [hopen]
    exact hshows.release_eq
  rw [hclosed] at hflip
  rcases hshows.altered_flip hmask hflip with ⟨hid, haltered, hdirectory⟩
  rcases hholds.keeps.exists_pages with ⟨pages, hpages, hlegible⟩
  have hwhole : ∀ page ∈ pages, page.rest = [] := fun _ hpage => hpages.rest_eq_nil hpage
  have hnodup := hshows.list_nodup
  rw [← hhistory]
  exact ⟨pages, hlegible, hwhole, hnodup, hpages.stores, hholds.keeps.writable, hdirectory,
    Damage.exists_of_altered hlegible hwhole hnodup hid haltered⟩

/--
When a byte of a ledger has been changed after a log was closed, opening the log or
reading its records ends in a fatal error, unless the byte makes a frame of the
newest ledger overshoot its end.  Exactly then the log is opened without that frame
and what stands behind it.
-/
theorem changed_byte_noticed_iff (list : List LogStep)
    (hopen : (start.steps list).session = .opened log) (hclean : log.poisoned = false)
    (hsound : ¬ log.medium.Faulty) (hmask : mask ≠ 0)
    (hflip : (Ledgers.flip id offset mask).run ((start.steps list).step .close).session.ledgers =
      .ok true damaged)
    (config : Config) {from_ : SequenceNumber}
    (hfrom : ∀ r ∈ (start.steps list).records, from_ ≤ r.1) :
    (damaged.Refuses config from_ ↔ ¬ ∃ older before record after,
      (start.steps list).records = older ++ (before ++ record :: after) ∧
      log.medium.Overshoots damaged id offset before record after) ∧
    ∀ older before record after,
      (start.steps list).records = older ++ (before ++ record :: after) →
      log.medium.Overshoots damaged id offset before record after →
      ∃ reopened, Log.load config damaged = .ok reopened ∧
        reopened.records from_ = (older ++ before).map .ok := by
  rcases exists_damage list hopen hclean hmask hflip with
    ⟨pages, hlegible, hwhole, hnodup, hstores, hwritable, hdirectory, ⟨d⟩⟩
  have hdamaged : ¬ damaged.Faulty := by
    unfold Ledgers.Faulty Ledgers.faults
    rw [hdirectory]
    exact hsound
  have hstart := hstores.allHold.le_seq hfrom
  have hcut : ∀ older before record after,
      (start.steps list).records = older ++ (before ++ record :: after) →
      log.medium.Overshoots damaged id offset before record after →
      d.CutsOff ∧ AllHold (Page.recordsOf d.older ++ d.before) (older ++ before) := by
    intro older before record after heq hover
    rw [heq] at hwritable hstores
    exact d.cutsOff_of_overshoots hlegible hnodup hwhole hwritable hstores hover
  constructor
  · rw [d.refuses_iff hlegible hdamaged hstores.allHold hstart config, not_iff_not]
    constructor
    · exact d.overshoots_of_cutsOff hlegible hwhole hstores
    · rintro ⟨older, before, record, after, heq, hover⟩
      exact (hcut older before record after heq hover).1
  · intro older before record after heq hover
    rcases hcut older before record after heq hover with ⟨hcuts, hkept⟩
    rcases d.load_of_cutsOff hlegible hdamaged hcuts hkept config from_ with
      ⟨reopened, hload, hread⟩
    refine ⟨reopened, hload, ?_⟩
    rw [hread, List.filter_eq_self.mpr]
    intro r hr
    apply decide_eq_true
    apply hfrom r
    rw [heq, ← List.append_assoc]
    exact List.mem_append_left _ hr

private def oneRecord : List LogStep := [.reopen {}, .append (.create 1 "a") trivial]

private def twoRecords : List LogStep := oneRecord ++ [.append (.create 2 "b") trivial]

private def changedAt (list : List LogStep) (offset : Nat) : Ledgers :=
  match (Ledgers.flip 1 offset 1).run ((start.steps list).step .close).session.ledgers with
  | .ok _ after => after
  | .error _ after => after

private theorem flip_changedAt {list : List LogStep} {offset : Nat}
    (h : (match (Ledgers.flip 1 offset 1).run
        ((start.steps list).step .close).session.ledgers with
      | .ok there _ => there
      | .error _ _ => false) = true) :
    (Ledgers.flip 1 offset 1).run ((start.steps list).step .close).session.ledgers =
      .ok true (changedAt list offset) := by
  unfold changedAt
  split at h
  · rename_i hrun
    rw [hrun, h]
  · cases h

theorem changed_byte_noticed_in_record :
    ∃ log, (start.steps oneRecord).session = .opened log ∧
      (Ledgers.flip 1 20 1).run ((start.steps oneRecord).step .close).session.ledgers =
        .ok true (changedAt oneRecord 20) ∧
      (changedAt oneRecord 20).Refuses {} 1 := by
  have hsession : (start.steps oneRecord).session.log?.map (fun log =>
      (log.poisoned, log.medium.faults.crashed, log.medium.faults.failFlushes)) =
      some (false, false, false) := by decide +kernel
  have hrecords : (start.steps oneRecord).records = [(1, .create 1 "a")] := by decide +kernel
  have hflip := @flip_changedAt oneRecord 20 (by decide +kernel)
  rcases Option.map_eq_some_iff.mp hsession with ⟨log, hlog, hstate⟩
  simp only [Prod.mk.injEq] at hstate
  rcases hstate with ⟨hclean, hcrashed, hflushes⟩
  have hopen : (start.steps oneRecord).session = .opened log := LogSession.eq_opened hlog
  have hsound : ¬ log.medium.Faulty := by
    unfold Ledgers.Faulty
    rw [hcrashed, hflushes]
    decide
  have hfrom : ∀ r ∈ (start.steps oneRecord).records, 1 ≤ r.1 := by
    rw [hrecords]
    decide
  refine ⟨log, hopen, hflip, ?_⟩
  have hnoticed := changed_byte_noticed_iff oneRecord hopen hclean hsound (by decide) hflip {} hfrom
  rw [hnoticed.1]
  rintro ⟨older, before, record, after, heq, hover⟩
  rw [hrecords] at heq
  have hlength := congrArg List.length heq
  simp only [List.length_append, List.length_cons, List.length_nil] at hlength
  have hbefore : before = [] := List.eq_nil_of_length_eq_zero (by omega)
  rcases hover.length_field with ⟨index, hoffset, -, hindex⟩
  rw [hbefore, LogRecord.frames_nil, List.length_nil] at hoffset
  omega

/-- The second of two records is gone when the greatest byte of its length has been changed. -/
theorem changed_length_unnoticed :
    (start.steps twoRecords).records = [(1, .create 1 "a"), (2, .create 2 "b")] ∧
      (Ledgers.flip 1 37 1).run ((start.steps twoRecords).step .close).session.ledgers =
        .ok true (changedAt twoRecords 37) ∧
      ¬ (changedAt twoRecords 37).Refuses {} 1 ∧
      ∃ reopened, Log.load {} (changedAt twoRecords 37) = .ok reopened ∧
        reopened.records 1 = [.ok (1, .create 1 "a")] := by
  have hload : (Log.load {} (changedAt twoRecords 37)).toOption.map (·.records 1) =
      some [.ok (1, .create 1 "a")] := by decide +kernel
  refine ⟨by decide +kernel, flip_changedAt (by decide +kernel), ?_⟩
  cases hrun : Log.load {} (changedAt twoRecords 37) with
  | error failed =>
      rw [hrun] at hload
      cases hload
  | ok reopened =>
      rw [hrun] at hload
      have hread : reopened.records 1 = [.ok (1, .create 1 "a")] := Option.some.inj hload
      refine ⟨?_, reopened, rfl, hread⟩
      unfold Ledgers.Refuses
      rw [hrun]
      rintro ⟨e, he, -⟩
      rw [hread] at he
      simp at he

end LogRun
end TieredStore
