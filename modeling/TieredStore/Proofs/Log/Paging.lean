import TieredStore.Proofs.Log.Invariant
import TieredStore.Proofs.Log.Reading

/-!
# Chapters as pages

The ledgers of a log that keeps a history are pages: each record of a chapter is
stored as it was written, and a torn frame behind the newest chapter is a frame
that is not all there.  So whatever holds of the log of any legible directory
holds of a log that keeps a history.
-/

namespace TieredStore

open Chapter LogRecord SequenceNumber

def StoredRecord.Stores (record : StoredRecord) (entry : LogRecord) : Prop :=
  record.bytes = entry.bytes ∧ Record.Writable entry.1 entry.2

def StoredRecord.AllStore (records : List StoredRecord) (entries : List LogRecord) : Prop :=
  List.Forall₂ Stores records entries

namespace StoredRecord

variable {record : StoredRecord} {entry : LogRecord} {records : List StoredRecord}
  {entries : List LogRecord}

theorem Stores.header_eq (h : record.Stores entry) : record.header = .of entry.1 entry.2 := by
  have hheader := record.decodes
  rw [h.1, LogRecord.bytes, h.2.decodeHeader_bytes] at hheader
  exact (Except.ok.inj hheader).symm

theorem Stores.holds (h : record.Stores entry) : record.Holds entry := by
  refine ⟨?_, ?_⟩
  · unfold seq
    rw [h.header_eq]
    rfl
  · rw [h.header_eq, h.1]
    exact h.2.decode_bytes

theorem exists_stored (h : AllWritable entries) : ∃ records, AllStore records entries := by
  induction entries with
  | nil => exact ⟨[], .nil⟩
  | cons entry rest ih =>
      have hentry := h entry List.mem_cons_self
      rcases ih (fun r hr => h r (List.mem_cons_of_mem _ hr)) with ⟨records, hrecords⟩
      let record : StoredRecord :=
        { bytes := entry.bytes
          header := .of entry.1 entry.2
          fits := hentry.length_le
          decodes := hentry.decodeHeader_bytes }
      exact ⟨record :: records, .cons ⟨rfl, hentry⟩ hrecords⟩

theorem AllStore.allHold (h : AllStore records entries) : AllHold records entries :=
  h.imp fun _ _ hstores => hstores.holds

theorem AllStore.frames_eq (h : AllStore records entries) : frames records = LogRecord.frames entries := by
  induction h with
  | nil => rfl
  | cons hrecord _ ih =>
      unfold frames at ih ⊢
      rw [List.map_cons, Frame.run_cons, ih, hrecord.1]
      rfl

theorem AllStore.info_eq {page : Page} {chapter : Chapter}
    (h : AllStore page.records chapter.records) (hid : page.id = chapter.id) :
    page.info = chapter.info := by
  have hseqs : page.seqs = chapter.records.map Prod.fst := h.allHold.map_seq_eq
  have hstarts : page.records.head?.any (·.isCheckpoint) =
      chapter.records.head?.any (·.2.isCheckpoint) := by
    have hmarks := congrArg List.head? h.allHold.map_mark_eq
    rw [List.head?_map, List.head?_map] at hmarks
    cases hrecords : page.records.head? with
    | none =>
        rw [hrecords] at hmarks
        rw [Option.map_eq_none_iff.mp hmarks]
        rfl
    | some record =>
        rw [hrecords] at hmarks
        rcases Option.map_eq_some_iff.mp hmarks with ⟨entry, hentry, heq⟩
        rw [hentry]
        exact (Prod.mk.inj heq).2.symm
  unfold Page.info Chapter.info LedgerInfo.ofRecords
  rw [hid, hseqs, hstarts, h.frames_eq, List.head?_map, List.getLast?_map]

end StoredRecord

theorem Frame.Tail.unfinished {tail : Bytes} (h : Frame.Tail tail) : Frame.Unfinished tail := by
  rcases h with ⟨record, htorn⟩
  exact htorn.unfinished

open StoredRecord

/-- The ledgers of chapters are pages that store them. -/
structure Chapter.Pages (chapters : List Chapter) (tail : Bytes) (pages : List Page) : Prop where
  bytes_eq : pages.map (fun page => (page.id, page.bytes)) =
    (volumes tail chapters).map fun v => (v.id, v.bytes)
  stores : AllStore (Page.recordsOf pages) (history chapters)
  info_eq : pages.map Page.info = chapters.map Chapter.info
  whole : ∀ page ∈ pages.dropLast, page.rest = []
  end_eq : ∀ page ∈ pages.getLast?, page.rest = tail

namespace Chapter

variable {chapter : Chapter} {tail : Bytes}

theorem exists_page (h : AllWritable chapter.records) (htail : Frame.Unfinished tail) :
    ∃ page : Page, page.id = chapter.id ∧ AllStore page.records chapter.records ∧
      page.rest = tail ∧ page.bytes = (chapter.volume tail).bytes := by
  rcases exists_stored h with ⟨records, hrecords⟩
  refine ⟨⟨chapter.id, records, tail, htail⟩, rfl, hrecords, rfl, ?_⟩
  unfold Page.bytes volume
  rw [hrecords.frames_eq]

theorem exists_pages (htail : Frame.Unfinished tail) :
    ∀ {chapters : List Chapter}, AllWritable (history chapters) →
      ∃ pages, Pages chapters tail pages
  | [], _ =>
      ⟨[], { bytes_eq := rfl, stores := .nil, info_eq := rfl, whole := nofun, end_eq := nofun }⟩
  | [newest], hwritable => by
      rw [history_cons] at hwritable
      rcases exists_page hwritable.of_append.1 htail with ⟨page, hid, hstores, hrest, hbytes⟩
      refine ⟨[page], ?_, ?_, ?_, ?_, ?_⟩
      · show [(page.id, page.bytes)] = [(newest.id, (newest.volume tail).bytes)]
        rw [hid, hbytes]
      · exact List.rel_append hstores .nil
      · show [page.info] = [newest.info]
        rw [hstores.info_eq hid]
      · intro _ hmem
        cases hmem
      · rintro _ ⟨⟩
        exact hrest
  | chapter :: next :: more, hwritable => by
      rw [history_cons] at hwritable
      rcases exists_page hwritable.of_append.1 Frame.unfinished_nil with
        ⟨page, hid, hstores, hrest, hbytes⟩
      rcases exists_pages htail hwritable.of_append.2 with ⟨pages, hpages⟩
      have hne : pages ≠ [] := by
        rintro rfl
        have hinfo := hpages.info_eq
        cases hinfo
      refine ⟨page :: pages, ?_, ?_, ?_, ?_, ?_⟩
      · rw [volumes_cons (List.cons_ne_nil next more), List.map_cons, List.map_cons,
          hpages.bytes_eq, hid, hbytes]
        rfl
      · exact List.rel_append hstores hpages.stores
      · rw [List.map_cons, List.map_cons, hpages.info_eq, hstores.info_eq hid]
      · intro other hother
        rw [List.dropLast_cons_of_ne_nil hne] at hother
        rcases List.mem_cons.mp hother with rfl | hmem
        · exact hrest
        · exact hpages.whole other hmem
      · intro other hother
        rw [List.getLast?_cons_of_ne_nil hne] at hother
        exact hpages.end_eq other hother

theorem Pages.seqs_eq {chapters : List Chapter} {pages : List Page} (h : Pages chapters tail pages) :
    pages.flatMap Page.seqs = (history chapters).map Prod.fst := by
  rw [← h.stores.allHold.map_seq_eq]
  exact List.map_flatMap.symm

theorem Pages.newest {older : List Chapter} {pages : List Page}
    (h : Pages (older ++ [chapter]) tail pages) :
    ∃ page, pages.getLast? = some page ∧ page.id = chapter.id ∧ page.rest = tail ∧
      StoredRecord.frames page.records = LogRecord.frames chapter.records := by
  have hbytes := h.bytes_eq
  rw [volumes_concat, List.map_append, List.map_singleton] at hbytes
  rcases List.map_eq_append_iff.mp hbytes with ⟨others, rest, rfl, -, hrest⟩
  rcases List.map_eq_cons_iff.mp hrest with ⟨page, none, rfl, hpage, hnone⟩
  rcases List.map_eq_nil_iff.mp hnone
  rcases Prod.mk.inj hpage with ⟨hid, hcontents⟩
  have hend : page.rest = tail := h.end_eq page List.getLast?_concat
  unfold Page.bytes at hcontents
  rw [hend] at hcontents
  exact ⟨page, List.getLast?_concat, hid, hend, List.append_cancel_right hcontents⟩

theorem Pages.rest_eq_nil {chapters : List Chapter} {pages : List Page}
    (h : Pages chapters [] pages) {page : Page} (hpage : page ∈ pages) : page.rest = [] := by
  rcases List.eq_nil_or_concat pages with rfl | ⟨older, newest, rfl⟩
  · cases hpage
  rw [List.concat_eq_append] at h hpage
  rcases List.mem_append.mp hpage with holder | hlast
  · exact h.whole page (by rwa [List.dropLast_concat])
  · exact h.end_eq page (by rw [List.mem_singleton.mp hlast, List.getLast?_concat]; rfl)

end Chapter

variable {ledgers : Ledgers} {log : Log} {first : SequenceNumber} {chapters : List Chapter}
  {tail : Bytes}

theorem Ledgers.Keeps.exists_pages (h : ledgers.Keeps first chapters tail) :
    ∃ pages, Chapter.Pages chapters tail pages ∧ ledgers.Legible pages := by
  rcases Chapter.exists_pages h.tail.unfinished h.writable with ⟨pages, hpages⟩
  refine ⟨pages, hpages, ?_, ?_, hpages.whole, ?_⟩
  · have hids := congrArg (List.map Prod.fst) hpages.bytes_eq
    rw [List.map_map, List.map_map] at hids
    rw [h.shows.list_eq]
    exact hids
  · intro page hpage
    have hmem : (page.id, page.bytes) ∈ (volumes tail chapters).map fun v => (v.id, v.bytes) := by
      rw [← hpages.bytes_eq]
      exact List.mem_map_of_mem hpage
    rcases List.mem_map.mp hmem with ⟨v, hv, heq⟩
    rcases Prod.mk.inj heq with ⟨hid, hbytes⟩
    rw [← hid, ← hbytes]
    exact h.shows.bytes?_eq hv
  · have hruns : (history chapters).map Prod.fst = _ := h.runs
    rw [List.nil_append, hpages.seqs_eq, hruns]
    exact List.isChain_range' _ _ 1

theorem Log.Holds.reads (h : log.Holds first chapters tail) (start : SequenceNumber) :
    (log.readFrom start).Reads log.medium
      (((history chapters).filter (fun r => start ≤ r.1)).map .ok) := by
  rcases h.keeps.exists_pages with ⟨pages, hpages, hlegible⟩
  apply Log.readFrom_reads_of_allHold _ _ _ hpages.stores.allHold
  · rw [h.ledgers_eq, hpages.info_eq]
  · intro page hpage
    exact ⟨page.rest, hlegible.bytes page hpage⟩
  · intro page hpage
    exact hlegible.consecutive_of_mem hpage

theorem Log.Holds.records_eq (h : log.Holds first chapters tail) (start : SequenceNumber) :
    log.records start = ((history chapters).filter (fun r => start ≤ r.1)).map .ok := by
  rw [Log.records_of_reads (h.reads start), LogReader.untilError_map_ok]

end TieredStore
