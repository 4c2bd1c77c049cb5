import TieredStore.Proofs.Report.Passing
import TieredStore.Report.Inspection
import TieredStore.Report.Listing

/-!
# All readers of a log see the same records

A listing and a verification walk over whole frames, an inspection scans their headers,
and the reader of an open log goes by the sizes that opening has noted and passes over
ledgers.  On pages each of them comes upon the records of the pages, in their order.
Opening cuts the newest page to its records, so that it does not matter whether a report
is made before that or after it.
-/

namespace TieredStore

open SequenceNumber StoredRecord Walk

variable {ledgers : Ledgers} {pages : List Page} {page : Page} {entries : List LogRecord}
  {config : Config} {log : Log}

/-!
## Records that can be decoded
-/

/-- Every complete frame of the ledgers holds a record with a number that is not zero. -/
def Ledgers.Decodable (ledgers : Ledgers) : Prop :=
  ∀ id ∈ ledgers.list, ∀ handle, ledgers.reach id = .ok handle →
    ∀ offset record, .ok (.frame offset record) ∈ ledgers.walk handle →
      ∃ header op, Record.decode record = .ok (header, op) ∧ header.seq ≠ 0

theorem Walk.exists_mem_itemsOf {records : List Bytes} {record : Bytes} (h : record ∈ records)
    (position : Nat) : ∃ offset, .ok (.frame offset record) ∈ itemsOf position records := by
  induction records generalizing position with
  | nil => cases h
  | cons first rest ih =>
      rcases List.mem_cons.mp h with rfl | hrest
      · exact ⟨position, List.mem_cons_self⟩
      · rcases ih hrest (position + (Frame.bytes first).length) with ⟨offset, hmem⟩
        exact ⟨offset, List.mem_cons_of_mem _ hmem⟩

theorem StoredRecord.exists_allHold {records : List StoredRecord}
    (h : ∀ record ∈ records, ∃ header op, Record.decode record.bytes = .ok (header, op) ∧
      header.seq ≠ 0) :
    ∃ entries, AllHold records entries ∧ ∀ entry ∈ entries, entry.1 ≠ 0 := by
  induction records with
  | nil => exact ⟨[], .nil, fun _ hentry => nomatch hentry⟩
  | cons record rest ih =>
      rcases List.forall_mem_cons.mp h with ⟨⟨header, op, hdecode, hseq⟩, hrest⟩
      rcases ih hrest with ⟨entries, hentries, hnonzero⟩
      have hholds := holds_of_decode hdecode
      have hheader : record.header = header := by
        have hboth := hholds.2.symm.trans hdecode
        exact congrArg Prod.fst (Except.ok.inj hboth)
      refine ⟨_ :: entries, .cons hholds hentries, List.forall_mem_cons.mpr ⟨?_, hnonzero⟩⟩
      show record.header.seq ≠ 0
      rw [hheader]
      exact hseq

namespace Ledgers

theorem Decodable.exists_allHold (h : ledgers.Decodable) (hpages : ledgers.Legible pages) :
    ∃ entries, AllHold (Page.recordsOf pages) entries ∧ ∀ entry ∈ entries, entry.1 ≠ 0 := by
  apply StoredRecord.exists_allHold
  intro record hrecord
  rcases List.mem_flatMap.mp hrecord with ⟨page, hpage, hmem⟩
  rcases reach_of_bytes? (hpages.bytes page hpage) with ⟨handle, hreach, hfresh, hcontents⟩
  rcases Walk.exists_mem_itemsOf (List.mem_map_of_mem (f := StoredRecord.bytes) hmem) 0 with
    ⟨offset, hframe⟩
  have hid : page.id ∈ ledgers.list := by
    rw [← hpages.ids_eq]
    exact List.mem_map_of_mem hpage
  refine h page.id hid handle hreach offset record.bytes ?_
  rw [walk_page hfresh hcontents]
  exact List.mem_append_left _ hframe

theorem decodable_of_logged (h : ∀ found ∈ ledgers.logged, ∃ record : LoggedRecord,
    found = .ok record ∧ record.header.seq ≠ 0) : ledgers.Decodable := by
  intro id hid handle hreach offset record hframe
  have hmem : ∀ found, logged? id (.ok (.frame offset record)) = some found →
      found ∈ ledgers.logged := by
    intro found hfound
    refine List.mem_flatMap.mpr ⟨id, hid, ?_⟩
    unfold loggedIn
    rw [hreach]
    exact List.mem_filterMap.mpr ⟨_, hframe, hfound⟩
  unfold logged? at hmem
  cases hdecode : Record.decode record with
  | error cause =>
      simp only [hdecode] at hmem
      rcases h _ (hmem _ rfl) with ⟨_, hfalse, -⟩
      cases hfalse
  | ok decoded =>
      rcases decoded with ⟨header, op⟩
      simp only [hdecode] at hmem
      rcases h _ (hmem _ rfl) with ⟨_, hsame, hseq⟩
      cases hsame
      exact ⟨header, op, rfl, hseq⟩

theorem kind_of_logged {record : LoggedRecord} (h : .ok record ∈ ledgers.logged) :
    record.operation.kind = record.header.kind := by
  rcases List.mem_flatMap.mp h with ⟨id, -, hmem⟩
  unfold loggedIn at hmem
  split at hmem
  · cases List.mem_singleton.mp hmem
  · rcases List.mem_filterMap.mp hmem with ⟨item, -, hitem⟩
    unfold logged? at hitem
    split at hitem
    · cases hitem
    · cases hitem
    · split at hitem
      · cases hitem
      · rename_i hdecode
        cases hitem
        exact Record.kind_of_decode hdecode

end Ledgers

/-!
## Listings
-/

namespace Listing

theorem select_none (start : SequenceNumber) (found : List LoggedRecord) :
    select start none (found.map .ok) = .ok (found.filter fun record => start ≤ record.header.seq) := by
  induction found with
  | nil => rfl
  | cons record rest ih =>
      rw [List.map_cons, List.filter_cons]
      unfold select
      split
      · rename_i hbefore
        rw [if_neg (by simpa using hbefore), ih]
      · rename_i hnot
        rw [if_pos (by simpa using hnot)]
        simp only [Option.map_none, ih]
        rfl

theorem run_legible (h : ledgers.Legible pages) (hentries : AllHold (Page.recordsOf pages) entries)
    (start : SequenceNumber) :
    ∃ found, run ledgers start none = .ok found ∧
      found.map LoggedRecord.entry = entries.filter (fun entry => start ≤ entry.1) ∧
      ∀ record ∈ found, record.operation.kind = record.header.kind := by
  rcases h.logged_eq hentries with ⟨found, hlogged, rfl⟩
  refine ⟨found.filter fun record => start ≤ record.header.seq, ?_, ?_, ?_⟩
  · unfold run
    rw [hlogged, select_none]
  · rw [List.filter_map]
    rfl
  · intro record hrecord
    have hmem : .ok record ∈ ledgers.logged := by
      rw [hlogged]
      exact List.mem_map_of_mem (List.mem_filter.mp hrecord).1
    exact Ledgers.kind_of_logged hmem

end Listing

/-!
## Inspections
-/

namespace Inspection

theorem summaries_of_pages {pages : List Page}
    (hbytes : ∀ page ∈ pages, ledgers.bytes? page.id = some page.bytes)
    (hpages : ∀ page ∈ pages, Consecutive page.seqs) :
    ∃ summaries, (pages.map (·.id)).mapM (summarize ledgers) = .ok summaries ∧
      summaries.map (·.scan) = pages.map Page.scan := by
  induction pages with
  | nil => exact ⟨[], rfl, rfl⟩
  | cons page rest ih =>
      rcases List.forall_mem_cons.mp hbytes with ⟨hfirst, hrest⟩
      rcases List.forall_mem_cons.mp hpages with ⟨hpage, hmore⟩
      rcases ih hrest hmore with ⟨summaries, hsummaries, hscans⟩
      rcases Ledgers.reach_of_bytes? hfirst with ⟨handle, hreach, hfresh, hcontents⟩
      have hscan : Scan.run page.id handle ledgers.objects = .ok page.scan :=
        (Scan.run_eq_ok_iff hfresh).mpr ⟨page, rfl, hcontents.symm, hpage, rfl⟩
      let summary : LedgerSummary := { scan := page.scan, size := handle.size ledgers.objects }
      have hsummary : summarize ledgers page.id = .ok summary := by
        unfold summarize
        rw [hreach, ok_bind, hscan]
        rfl
      refine ⟨summary :: summaries, ?_, ?_⟩
      · rw [List.map_cons, List.mapM_cons, hsummary, ok_bind, hsummaries]
        rfl
      · rw [List.map_cons, List.map_cons, hscans]

theorem total_records (pages : List Page) :
    total ((pages.map Page.scan).map (·.records)) = (Page.recordsOf pages).length := by
  induction pages with
  | nil => rfl
  | cons page rest ih =>
      have hcount : page.scan.records = page.records.length :=
        (Scan.ledger_foldl page.records { ledger := page.id }).2.2.trans (Nat.zero_add _)
      unfold Page.recordsOf at ih ⊢
      rw [List.map_cons, List.map_cons, total_cons, ih, hcount, List.flatMap_cons, List.length_append]

theorem map_ofScan (pages : List Page) :
    (pages.map Page.scan).map LedgerInfo.ofScan = pages.map Page.info := by
  rw [List.map_map]
  exact List.map_congr_left fun page _ => Page.ofScan_scan page

theorem run_legible (h : ledgers.Legible pages) :
    ∃ inspection, run ledgers = .ok inspection ∧
      inspection.recordCount = (Page.recordsOf pages).length ∧
      inspection.first? = (pages.map Page.info).findSome? (·.first) ∧
      inspection.last? = Log.lastOf (pages.map Page.info) := by
  rcases summaries_of_pages h.bytes (fun _ hpage => h.consecutive_of_mem hpage) with
    ⟨summaries, hrun, hscans⟩
  have hinfos : summaries.map (fun summary => LedgerInfo.ofScan summary.scan) =
      pages.map Page.info := by
    rw [← map_ofScan, ← hscans, List.map_map]
    rfl
  refine ⟨{ ledgers := summaries }, ?_, ?_, ?_, ?_⟩
  · unfold run
    rw [← h.ids_eq, hrun]
    rfl
  · unfold recordCount
    rw [← total_records, ← hscans, List.map_map]
    rfl
  · unfold first?
    rw [← hinfos, List.findSome?_map]
    rfl
  · unfold last? Log.lastOf
    rw [← hinfos, ← List.map_reverse, List.findSome?_map]
    rfl

end Inspection

/-!
## All of them
-/

/-- The reports on the ledgers tell of the records that the reader of the log comes upon. -/
structure Log.SeenAlike (log : Log) (seen : Ledgers) : Prop where
  listing : ∀ start, ∃ found, Listing.run seen start none = .ok found ∧
    log.records start = found.map (fun record => .ok record.entry) ∧
    ∀ record ∈ found, record.operation.kind = record.header.kind
  inspection : ∃ inspection, ∃ entries : List LogRecord, Inspection.run seen = .ok inspection ∧
    log.records first = entries.map .ok ∧ inspection.recordCount = entries.length ∧
    inspection.first? = entries.head?.map Prod.fst ∧
    inspection.first? = log.ledgers.findSome? (·.first) ∧
    inspection.last? = entries.getLast?.map Prod.fst ∧ inspection.last? = log.lastSeq?
  verification : ∀ replay, ∃ result, Verification.run seen replay = .ok result ∧
    result.valid = (log.records first).length

theorem Log.seenAlike_of_legible {seen : Ledgers} {others : List Page} (h : seen.Legible others)
    (hinfos : log.ledgers = others.map Page.info)
    (hentries : AllHold (Page.recordsOf others) entries) (hnonzero : ∀ entry ∈ entries, entry.1 ≠ 0)
    (hread : ∀ start, log.records start =
      (entries.filter fun entry => start ≤ entry.1).map .ok) : log.SeenAlike seen := by
  have hall : log.records first = entries.map .ok := by
    rw [hread, List.filter_eq_self.mpr]
    intro entry hentry
    have hpos : first ≤ entry.1 := Nat.pos_of_ne_zero (hnonzero entry hentry)
    exact decide_eq_true hpos
  have hseqs : others.flatMap Page.seqs = entries.map Prod.fst := by
    rw [← Page.map_seq_recordsOf]
    exact hentries.map_seq_eq
  constructor
  · intro start
    rcases Listing.run_legible h hentries start with ⟨found, hrun, hfound, hkinds⟩
    refine ⟨found, hrun, ?_, hkinds⟩
    rw [hread, ← hfound, List.map_map]
    rfl
  · rcases Inspection.run_legible h with ⟨inspection, hrun, hcount, hfirst, hlast⟩
    refine ⟨inspection, entries, hrun, hall, ?_, ?_, ?_, ?_, ?_⟩
    · rw [hcount]
      exact List.Forall₂.length_eq hentries
    · rw [hfirst, Page.findSome?_first, ← List.head?_map, Page.map_seq_recordsOf, hseqs,
        List.head?_map]
    · rw [hfirst, hinfos]
    · rw [hlast, lastOf_pages, hseqs, List.getLast?_map]
    · rw [hlast]
      unfold lastSeq?
      rw [hinfos]
  · intro replay
    rcases Verification.run_legible h hentries replay with ⟨result, hrun, hvalid, -⟩
    refine ⟨result, hrun, ?_⟩
    rw [hvalid, hall, List.length_map]

/--
A listing, an inspection and a verification tell of the records that the reader of the
log comes upon, whether they are made of the ledgers as they were before the log was
opened or as opening has left them.
-/
theorem Log.reports_agree (hload : Log.load config ledgers = .ok log)
    (hdecodes : ledgers.Decodable) : log.SeenAlike ledgers ∧ log.SeenAlike log.medium := by
  rcases pages_of_load hload with ⟨pages, hpages, rfl⟩
  rcases hdecodes.exists_allHold hpages with ⟨entries, hentries, hnonzero⟩
  have hread := @records_of_allHold (ofPages config ledgers pages) pages entries rfl
    (fun _ hpage => ready_ofPages hpages hpage) (fun _ hpage => hpages.consecutive_of_mem hpage)
    hentries
  have hcut : Page.recordsOf (pages.map Page.cut) = Page.recordsOf pages  := by
    unfold Page.recordsOf
    rw [List.flatMap_map]
    rfl
  have hinfos : (pages.map Page.cut).map Page.info = pages.map Page.info := by
    rw [List.map_map]
    rfl
  constructor
  · exact seenAlike_of_legible hpages rfl hentries hnonzero hread
  · exact seenAlike_of_legible hpages.settledAfter hinfos.symm (hcut ▸ hentries) hnonzero hread

/-- Two records, an empty ledger, and a ledger that starts with a checkpoint and is torn. -/
private def tornBehindEmpty : Ledgers :=
  { directory := .memory (.ofList [(1, 0), (2, 1), (5, 2)]) {}
    objects := [((Frame.ofOperation 6 (.create 1 "a")).toOption).getD [] ++
        ((Frame.ofOperation 7 (.append 1 0 3 1 [97, 98])).toOption).getD [], [],
      ((Frame.ofOperation 8 (.checkpoint {})).toOption).getD [] ++
        ((Frame.ofOperation 9 (.create 2 "b")).toOption).getD [] ++ [83, 83]] }

theorem Log.reports_agree_torn :
    ∃ log, Log.load {} tornBehindEmpty = .ok log ∧ log.medium ≠ tornBehindEmpty ∧
      log.lastSeq? = some 9 ∧ log.SeenAlike tornBehindEmpty ∧ log.SeenAlike log.medium := by
  have hdecodes : tornBehindEmpty.Decodable := by
    apply Ledgers.decodable_of_logged
    have hall : (tornBehindEmpty.logged.all fun found =>
        found.toOption.any (·.header.seq ≠ 0)) = true := by decide +kernel
    intro found hfound
    have hone := List.all_eq_true.mp hall found hfound
    cases found with
    | error e => cases hone
    | ok record => exact ⟨record, rfl, of_decide_eq_true hone⟩
  have hload : (Log.load {} tornBehindEmpty).toOption.map (fun log =>
      (decide (log.medium ≠ tornBehindEmpty), log.lastSeq?)) = some (true, some 9) := by
    decide +kernel
  cases hlog : Log.load {} tornBehindEmpty with
  | error failed =>
      rw [hlog] at hload
      cases hload
  | ok log =>
      rw [hlog] at hload
      have hfound := Option.some.inj hload
      have hcut : log.medium ≠ tornBehindEmpty := of_decide_eq_true (congrArg Prod.fst hfound)
      exact ⟨log, rfl, hcut, congrArg Prod.snd hfound, Log.reports_agree hlog hdecodes⟩

end TieredStore
