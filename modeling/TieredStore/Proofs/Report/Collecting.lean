import TieredStore.Proofs.Container.Starting
import TieredStore.Report.Verification

/-!
# What a report sees of pages

A report walks over the ledgers without opening the log.  On pages whose records
can be decoded it comes upon those records and nothing else, and folding them into
a segment table is applying what they hold.
-/

namespace TieredStore

open StoredRecord Walk

def LoggedRecord.entry (record : LoggedRecord) : LogRecord := (record.header.seq, record.operation)

variable {ledgers : Ledgers} {pages : List Page} {page : Page} {entries : List LogRecord}
  {id : LedgerId} {handle : Handle}

namespace Ledgers

theorem of_reach (h : ledgers.reach id = .ok handle) :
    handle.Fresh ledgers.objects ∧ ledgers.bytes? id = some (handle.contents ledgers.objects) := by
  unfold reach at h
  cases hattach : ledgers.attach id with
  | error cause =>
      rw [hattach] at h
      cases h
  | ok found =>
      rw [hattach] at h
      have hbytes : ledgers.bytes? id = some (found.contents ledgers.objects) := by
        unfold bytes?
        rw [hattach]
      rcases attach_of_bytes? hbytes with ⟨handle', hattach', -, hfresh, -⟩
      rw [hattach] at hattach'
      cases hattach'
      cases h
      exact ⟨hfresh, hbytes⟩

theorem reach_of_bytes? {bytes : Bytes} (h : ledgers.bytes? id = some bytes) :
    ∃ handle, ledgers.reach id = .ok handle ∧ handle.Fresh ledgers.objects ∧
      handle.contents ledgers.objects = bytes := by
  rcases attach_of_bytes? h with ⟨handle, hattach, -, hfresh, hcontents⟩
  refine ⟨handle, ?_, hfresh, hcontents⟩
  unfold reach
  rw [hattach]
  rfl

theorem walk_page (hfresh : handle.Fresh ledgers.objects)
    (hcontents : handle.contents ledgers.objects = page.bytes) :
    ledgers.walk handle = itemsOf 0 (page.records.map (·.bytes)) ++
      endOf (frames page.records).length page.rest := by
  have hfacing := facing_whole hfresh
  rw [hcontents] at hfacing
  rcases hfacing.items_unfinished (StoredRecord.allFit page.records) page.unfinished with
    ⟨after, hitems, -⟩
  unfold walk
  rw [hitems]
  show itemsOf 0 _ ++ endOf (0 + _) _ = _
  rw [Nat.zero_add]
  rfl

theorem filterMap_logged?_endOf (position : Nat) (rest : Bytes) :
    (endOf position rest).filterMap (logged? id) = [] := by
  unfold endOf
  split
  · rfl
  · rfl

theorem filterMap_logged?_itemsOf {records : List StoredRecord} (h : AllHold records entries)
    (position : Nat) :
    ∃ found : List LoggedRecord,
      (itemsOf position (records.map (·.bytes))).filterMap (logged? id) = found.map .ok ∧
        found.map LoggedRecord.entry = entries := by
  induction h generalizing position with
  | nil => exact ⟨[], rfl, rfl⟩
  | @cons record entry records entries hrecord _ ih =>
      rcases ih (position + (Frame.bytes record.bytes).length) with ⟨found, hfound, hentries⟩
      let logged : LoggedRecord :=
        { ledger := id, offset := position, header := record.header, operation := entry.2 }
      have hlogged : logged? id (.ok (.frame position record.bytes)) = some (.ok logged) := by
        unfold logged?
        simp only [hrecord.2]
        rfl
      refine ⟨logged :: found, ?_, ?_⟩
      · rw [List.map_cons, itemsOf, List.filterMap_cons_some hlogged, hfound]
        rfl
      · have hentry : logged.entry = entry := by
          unfold LoggedRecord.entry
          rw [show logged.header.seq = entry.1 from hrecord.1.symm]
        rw [List.map_cons, hentry, hentries]

theorem loggedIn_page (hbytes : ledgers.bytes? page.id = some page.bytes)
    (h : AllHold page.records entries) :
    ∃ found : List LoggedRecord, ledgers.loggedIn page.id = found.map .ok ∧
      found.map LoggedRecord.entry = entries := by
  rcases reach_of_bytes? hbytes with ⟨handle, hreach, hfresh, hcontents⟩
  unfold loggedIn
  rw [hreach]
  simp only [walk_page hfresh hcontents, List.filterMap_append, filterMap_logged?_endOf,
    List.append_nil]
  exact filterMap_logged?_itemsOf h 0

theorem loggedIn_pages (hbytes : ∀ page ∈ pages, ledgers.bytes? page.id = some page.bytes)
    (h : AllHold (Page.recordsOf pages) entries) :
    ∃ found : List LoggedRecord,
      (pages.map (·.id)).flatMap ledgers.loggedIn = found.map .ok ∧
        found.map LoggedRecord.entry = entries := by
  induction pages generalizing entries with
  | nil =>
      cases h
      exact ⟨[], rfl, rfl⟩
  | cons page rest ih =>
      rcases AllHold.of_append h with ⟨first, second, rfl, hfirst, hsecond⟩
      rcases loggedIn_page (hbytes page List.mem_cons_self) hfirst with ⟨found, hfound, hmap⟩
      rcases ih (fun other hother => hbytes other (List.mem_cons_of_mem _ hother)) hsecond with
        ⟨more, hmore, hmap'⟩
      refine ⟨found ++ more, ?_, ?_⟩
      · rw [List.map_cons, List.flatMap_cons, hfound, hmore, List.map_append]
      · rw [List.map_append, hmap, hmap']

theorem Legible.logged_eq (h : ledgers.Legible pages)
    (hentries : AllHold (Page.recordsOf pages) entries) :
    ∃ found : List LoggedRecord, ledgers.logged = found.map .ok ∧
      found.map LoggedRecord.entry = entries := by
  unfold logged
  rw [← h.ids_eq]
  exact loggedIn_pages h.bytes hentries

end Ledgers

namespace Replay

theorem applyAll_of_foldlM {found : List LoggedRecord} {replay final : Replay}
    (h : (found.map Except.ok).foldlM (fun replay item => do replay.take (← item)) replay =
      .ok final) :
    Container.applyAll replay.table (found.map LoggedRecord.entry) = .ok final.table := by
  induction found generalizing replay with
  | nil =>
      cases h
      rfl
  | cons record rest ih =>
      rw [List.map_cons, List.foldlM_cons, ok_bind] at h
      unfold Container.applyAll at ih ⊢
      rw [List.map_cons, List.foldlM_cons]
      unfold take at h
      cases happly : replay.table.apply record.operation with
      | error cause =>
          simp only [happly] at h
          cases h
      | ok table =>
          simp only [happly, ok_bind] at h
          have hentry : replay.table.apply record.entry.2 = .ok table := happly
          rw [hentry, ok_bind]
          exact ih h

theorem applyAll_of_run {replay : Replay} (h : ledgers.Legible pages)
    (hentries : AllHold (Page.recordsOf pages) entries) (hrun : run ledgers = .ok replay) :
    Container.applyAll {} entries = .ok replay.table := by
  rcases h.logged_eq hentries with ⟨found, hlogged, rfl⟩
  unfold run at hrun
  rw [hlogged] at hrun
  exact applyAll_of_foldlM hrun

end Replay
end TieredStore
