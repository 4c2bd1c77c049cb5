import Mathlib.Data.List.Nodup
import TieredStore.Ledger.Tampering
import TieredStore.Proofs.Ledger.Damaging
import TieredStore.Proofs.Log.Reading

/-!
# Opening a directory in which a byte has been changed

The directory was legible, all of its pages were whole and all records could be
decoded.  Then one byte of one ledger has been changed.  If the directory is still
legible, the page of that ledger starts with the records before the changed frame
and goes on in one of two ways.  Either it ends there, as the changed frame is
taken for one that is not all there.  Or the changed frame is taken for a frame of
another length, whose record is the start of the old one or goes on behind it, and
which cannot be decoded for that reason.
-/

namespace TieredStore

open StoredRecord SequenceNumber

/-- One byte of one ledger has been changed. -/
structure Ledgers.Altered (ledgers damaged : Ledgers) (id : LedgerId) (offset : Nat) : Prop where
  list_eq : damaged.list = ledgers.list
  others : ∀ other ∈ ledgers.list, other ≠ id → damaged.bytes? other = ledgers.bytes? other
  differ : ∃ bytes changed, ledgers.bytes? id = some bytes ∧ damaged.bytes? id = some changed ∧
    Bytes.DifferAt offset bytes changed

/-- Opening the ledgers, or reading the records from `start` on, ends in a fatal error. -/
def Ledgers.Refuses (ledgers : Ledgers) (config : Config) (start : SequenceNumber) : Prop :=
  match Log.load config ledgers with
  | .ok log => ∃ e, .error e ∈ log.records start ∧ e.fatal = true
  | .error (e, _) => e.fatal = true

/-- The place in a list of whole pages where a byte has been changed. -/
structure Damage (pages : List Page) (damaged : Ledgers) (id : LedgerId) (offset : Nat) where
  older : List Page
  page : Page
  newer : List Page
  before : List StoredRecord
  record : StoredRecord
  after : List StoredRecord
  index : Nat
  changed : Bytes
  pages_eq : pages = older ++ page :: newer
  id_eq : page.id = id
  records_eq : page.records = before ++ record :: after
  offset_eq : offset = (frames before).length + index
  differ : Bytes.DifferAt index (Frame.bytes record.bytes) changed
  bytes_eq : damaged.bytes? id = some (frames before ++ (changed ++ frames after))
  list_eq : damaged.list = pages.map (·.id)
  others : ∀ other ∈ older ++ newer, damaged.bytes? other.id = some other.bytes

namespace Damage

variable {ledgers damaged : Ledgers} {pages found : List Page} {id : LedgerId} {offset : Nat}

theorem exists_of_altered (h : ledgers.Legible pages) (hwhole : ∀ page ∈ pages, page.rest = [])
    (hnodup : ledgers.list.Nodup) (hid : id ∈ ledgers.list)
    (haltered : ledgers.Altered damaged id offset) : Nonempty (Damage pages damaged id offset) := by
  rw [← h.ids_eq] at hid hnodup
  rcases List.mem_map.mp hid with ⟨page, hpage, rfl⟩
  rcases List.append_of_mem hpage with ⟨older, newer, rfl⟩
  rcases haltered.differ with ⟨bytes, changed, hbytes, hchanged, hdiffer⟩
  have hframes : bytes = frames page.records := by
    rw [h.bytes page hpage] at hbytes
    rw [← Option.some.inj hbytes, Page.bytes, hwhole page hpage, List.append_nil]
  rw [hframes] at hdiffer
  rcases Frame.exists_frame_at hdiffer.lt_length with
    ⟨before, record, after, index, hsplit, hoffset, hindex⟩
  rcases List.map_eq_append_iff.mp hsplit with ⟨first, others, hrecords, rfl, hothers⟩
  rcases List.map_eq_cons_iff.mp hothers with ⟨stored, last, rfl, rfl, rfl⟩
  have hpieces : frames page.records =
      frames first ++ (Frame.bytes stored.bytes ++ frames last) := by
    rw [hrecords, frames_append]
    rfl
  rw [hpieces, hoffset] at hdiffer
  rcases hdiffer.split hindex with ⟨piece, rfl, hpiece⟩
  refine ⟨{ older, page, newer, before := first, record := stored, after := last, index,
            changed := piece, pages_eq := rfl, id_eq := rfl, records_eq := hrecords,
            offset_eq := hoffset, differ := hpiece, bytes_eq := hchanged,
            list_eq := haltered.list_eq.trans h.ids_eq.symm, others := ?_ }⟩
  intro other hother
  have hmem : other ∈ older ++ page :: newer := by
    rcases List.mem_append.mp hother with holder | hnewer
    · exact List.mem_append_left _ holder
    · exact List.mem_append_right _ (List.mem_cons_of_mem _ hnewer)
  have hne : other.id ≠ page.id := by
    rw [List.map_append, List.map_cons] at hnodup
    have hmiddle := (List.nodup_cons.mp (List.nodup_middle.mp hnodup)).1
    intro heq
    rw [← List.map_append, ← heq] at hmiddle
    exact hmiddle (List.mem_map_of_mem hother)
  rw [haltered.others other.id (h.ids_eq ▸ List.mem_map_of_mem hmem) hne]
  exact h.bytes other hmem

variable (d : Damage pages damaged id offset)

def behind : Bytes := d.changed ++ frames d.after

theorem record_mem : d.record ∈ Page.recordsOf pages := by
  have hpage : d.page ∈ d.older ++ d.page :: d.newer :=
    List.mem_append_right _ List.mem_cons_self
  rw [← d.pages_eq] at hpage
  apply List.mem_flatMap_of_mem hpage
  rw [d.records_eq]
  exact List.mem_append_right _ List.mem_cons_self

theorem recordsOf_eq (hnewer : d.newer = []) :
    Page.recordsOf pages = (Page.recordsOf d.older ++ d.before) ++ d.record :: d.after := by
  have hrecords := congrArg Page.recordsOf d.pages_eq
  rw [hnewer] at hrecords
  rw [hrecords, Page.recordsOf, List.flatMap_append, List.flatMap_singleton, d.records_eq,
    List.append_assoc]
  rfl

/-- The changed frame is taken for a frame that is not all there, where that is no damage. -/
def CutsOff : Prop := d.newer = [] ∧ Frame.Unfinished d.behind

theorem exists_of_legible (hfound : damaged.Legible found) :
    ∃ (page : Page) (more : List StoredRecord), found = d.older ++ page :: d.newer ∧
      page.id = id ∧ page.records = d.before ++ more ∧ d.behind = frames more ++ page.rest := by
  have hids := hfound.ids_eq
  rw [d.list_eq, d.pages_eq, List.map_append, List.map_cons] at hids
  rcases List.map_eq_append_iff.mp hids with ⟨older, others, rfl, holder, hothers⟩
  rcases List.map_eq_cons_iff.mp hothers with ⟨page, newer, rfl, hid, hnewer⟩
  have hold : older = d.older := by
    apply Page.eq_of_bytesOf holder
    · exact fun p hp => hfound.bytes p (List.mem_append_left _ hp)
    · exact fun p hp => d.others p (List.mem_append_left _ hp)
  have hnew : newer = d.newer := by
    apply Page.eq_of_bytesOf hnewer
    · exact fun p hp => hfound.bytes p (List.mem_append_right _ (List.mem_cons_of_mem _ hp))
    · exact fun p hp => d.others p (List.mem_append_right _ hp)
  have hbytes := hfound.bytes page (List.mem_append_right _ List.mem_cons_self)
  rw [hid, d.id_eq, d.bytes_eq, Option.some.injEq] at hbytes
  rcases Frame.run_append_inj (StoredRecord.allFit d.before) (StoredRecord.allFit page.records)
    page.unfinished hbytes with ⟨more, hsplit, hbehind⟩
  rcases List.map_eq_append_iff.mp hsplit with ⟨first, last, hrecords, hfirst, rfl⟩
  refine ⟨page, last, by rw [hold, hnew], hid.trans d.id_eq, ?_, hbehind⟩
  rw [hrecords, StoredRecord.eq_of_map_bytes hfirst]

theorem legible_of_cutsOff (h : ledgers.Legible pages) (hcut : d.CutsOff) :
    damaged.Legible (d.older ++ [⟨id, d.before, d.behind, hcut.2⟩]) := by
  have hpages := d.pages_eq
  rw [hcut.1] at hpages
  have hids := congrArg (List.map (·.id)) hpages
  have hconsecutive := h.consecutive
  rw [hpages] at hconsecutive
  constructor
  · rw [d.list_eq, hids, List.map_append, List.map_append, List.map_singleton,
      List.map_singleton, d.id_eq]
  · intro page hpage
    rcases List.mem_append.mp hpage with holder | hlast
    · exact d.others page (List.mem_append_left _ holder)
    · rw [List.mem_singleton.mp hlast]
      exact d.bytes_eq
  · intro page hpage
    rw [List.dropLast_concat] at hpage
    have hwhole := h.whole page
    rw [hpages, List.dropLast_concat] at hwhole
    exact hwhole hpage
  · rw [List.nil_append, List.flatMap_append, List.flatMap_singleton] at hconsecutive ⊢
    have hsplit : d.page.seqs = d.before.map (·.seq) ++ (d.record :: d.after).map (·.seq) := by
      unfold Page.seqs
      rw [d.records_eq, List.map_append]
    rw [hsplit, ← List.append_assoc] at hconsecutive
    exact (List.isChain_append.mp hconsecutive).1

/-!
## What reading makes of it
-/

theorem seq_eq_of_starts {record other : StoredRecord}
    (h : record.bytes <+: other.bytes ∨ other.bytes <+: record.bytes) :
    other.seq = record.seq := by
  have hheader : other.header = record.header := by
    rcases h with ⟨more, hmore⟩ | ⟨more, hmore⟩
    · have hother := other.decodes
      rw [← hmore, Record.decodeHeader_append record.decodes more] at hother
      exact (Except.ok.inj hother).symm
    · have hrecord := record.decodes
      rw [← hmore, Record.decodeHeader_append other.decodes more] at hrecord
      exact Except.ok.inj hrecord
  unfold seq
  rw [hheader]

theorem bytes_eq_of_starts {record other : StoredRecord} {entry entry' : LogRecord}
    (h : record.bytes <+: other.bytes ∨ other.bytes <+: record.bytes)
    (hrecord : record.Holds entry) (hother : other.Holds entry') : record.bytes = other.bytes := by
  rcases h with ⟨more, hmore⟩ | ⟨more, hmore⟩
  · have hlonger := hother.2
    rw [← hmore] at hlonger
    rw [← hmore, Record.eq_nil_of_decode_append hrecord.2 hlonger, List.append_nil]
  · have hlonger := hrecord.2
    rw [← hmore] at hlonger
    rw [← hmore, Record.eq_nil_of_decode_append hother.2 hlonger, List.append_nil]

theorem fatal_of_legible {entries : List LogRecord} {start : SequenceNumber}
    (hentries : AllHold (Page.recordsOf pages) entries)
    (hstart : ∀ record ∈ Page.recordsOf pages, start ≤ record.seq)
    (hfound : damaged.Legible found) (hcut : ¬ d.CutsOff) (config : Config) :
    ∃ e, .error e ∈ (Log.ofPages config damaged found).records start ∧ e.fatal = true := by
  have hrecord := d.record_mem
  rcases d.exists_of_legible hfound with ⟨page, more, rfl, -, hrecords, hbehind⟩
  cases more with
  | nil =>
      -- Then the page ends there, which only the newest may do inside a frame.
      have hrest : d.behind = page.rest := hbehind
      have hne : page.rest ≠ [] := by
        rw [← hrest]
        intro hnil
        have hlength := d.differ.lt_length
        rw [d.differ.length_eq, (List.append_eq_nil_iff.mp hnil).1] at hlength
        exact Nat.not_lt_zero _ hlength
      have hnewest : d.newer = [] := by
        cases hnewer : d.newer with
        | nil => rfl
        | cons next rest =>
            rw [hnewer] at hfound
            have hwhole := hfound.whole page (by simp)
            exact absurd hwhole hne
      exact absurd ⟨hnewest, hrest ▸ page.unfinished⟩ hcut
  | cons other rest =>
      have hframe : d.changed ++ frames d.after =
          Frame.bytes other.bytes ++ (frames rest ++ page.rest) := by
        rw [← List.append_assoc]
        exact hbehind
      rcases Frame.prefix_of_differAt d.differ d.record.fits other.fits hframe with
        ⟨hne, hstarts⟩
      have hother : other ∈ page.records := by
        rw [hrecords]
        exact List.mem_append_right _ List.mem_cons_self
      have hpage : page ∈ d.older ++ page :: d.newer :=
        List.mem_append_right _ List.mem_cons_self
      rcases @Log.records_or_error _ config _ hfound start with ⟨seen, hseen, -⟩ | herror
      · -- The reader comes upon the other record, which cannot be decoded.
        have hwanted : page.wanted start = true := by
          cases hwanted : page.wanted start with
          | true => rfl
          | false =>
              have hnone := Page.filter_of_not_wanted (hfound.consecutive_of_mem hpage) hwanted
              have hnot := List.filter_eq_nil_iff.mp hnone other hother
              have hle := hstart d.record hrecord
              rw [← seq_eq_of_starts hstarts] at hle
              exact absurd (decide_eq_true hle) hnot
        have hread : other ∈ Page.recordsOf
            ((d.older ++ page :: d.newer).filter (Page.wanted start)) :=
          List.mem_flatMap_of_mem (List.mem_filter.mpr ⟨hpage, hwanted⟩) hother
        rcases hentries.exists_of_mem hrecord with ⟨entry, hentry⟩
        rcases hseen.exists_of_mem hread with ⟨entry', hentry'⟩
        exact absurd (bytes_eq_of_starts hstarts hentry hentry') hne
      · exact herror

/-- Where the changed frame is cut off, opening and reading answer what stands before it. -/
theorem load_of_cutsOff {entries : List LogRecord} (h : ledgers.Legible pages)
    (hsound : ¬ damaged.Faulty) (hcut : d.CutsOff)
    (hentries : AllHold (Page.recordsOf d.older ++ d.before) entries) (config : Config)
    (start : SequenceNumber) :
    ∃ log, Log.load config damaged = .ok log ∧
      log.records start = (entries.filter (fun entry => start ≤ entry.1)).map .ok := by
  have hlegible := d.legible_of_cutsOff h hcut
  refine ⟨_, Log.load_of_legible hlegible (fun _ _ => Or.inr hsound) config, ?_⟩
  apply Log.records_of_allHold rfl (fun _ hpage => Log.ready_ofPages hlegible hpage)
  · intro page hpage
    exact hlegible.consecutive_of_mem hpage
  · rw [Page.recordsOf, List.flatMap_append, List.flatMap_singleton]
    exact hentries

theorem bytes?_ne_none (d : Damage pages damaged id offset) {other : LedgerId}
    (hother : other ∈ damaged.list) : damaged.bytes? other ≠ none := by
  have hids := congrArg (List.map (·.id)) d.pages_eq
  rw [d.list_eq, hids, List.map_append, List.map_cons] at hother
  have hkept : ∀ page ∈ d.older ++ d.newer, damaged.bytes? page.id ≠ none := by
    intro page hpage
    rw [d.others page hpage]
    exact Option.some_ne_none _
  rcases List.mem_append.mp hother with holder | hrest
  · rcases List.mem_map.mp holder with ⟨page, hpage, rfl⟩
    exact hkept page (List.mem_append_left _ hpage)
  · rcases List.mem_cons.mp hrest with rfl | hnewer
    · rw [d.id_eq, d.bytes_eq]
      exact Option.some_ne_none _
    · rcases List.mem_map.mp hnewer with ⟨page, hpage, rfl⟩
      exact hkept page (List.mem_append_right _ hpage)

/-- A changed byte is noticed exactly unless its frame is cut off. -/
theorem refuses_iff {entries : List LogRecord} {start : SequenceNumber}
    (h : ledgers.Legible pages) (hsound : ¬ damaged.Faulty)
    (hentries : AllHold (Page.recordsOf pages) entries)
    (hstart : ∀ record ∈ Page.recordsOf pages, start ≤ record.seq) (config : Config) :
    damaged.Refuses config start ↔ ¬ d.CutsOff := by
  constructor
  · intro hrefuses hcut
    rw [d.recordsOf_eq hcut.1] at hentries
    rcases hentries.of_append with ⟨kept, lost, -, hkept, -⟩
    rcases d.load_of_cutsOff h hsound hcut hkept config start with ⟨log, hload, hread⟩
    unfold Ledgers.Refuses at hrefuses
    rw [hload] at hrefuses
    rcases hrefuses with ⟨e, he, -⟩
    rw [hread] at he
    rcases List.mem_map.mp he with ⟨entry, -, hentry⟩
    cases hentry
  · intro hcut
    unfold Ledgers.Refuses
    cases hload : Log.load config damaged with
    | error failed =>
        rcases failed with ⟨e, after⟩
        exact (Log.fatal_of_load hload (fun _ hother => d.bytes?_ne_none hother) hsound).1
    | ok log =>
        rcases Log.pages_of_load hload with ⟨found, hfound, rfl⟩
        exact d.fatal_of_legible hentries hstart hfound hcut config

end Damage
end TieredStore
