import Mathlib.Data.List.Chain
import TieredStore.Log.Basic
import TieredStore.Proofs.Ledger.Walking

/-!
# Ledgers as pages

A page is what a scan can make of a ledger: complete records whose first bytes can
be read, and behind them the bytes of a frame that is not all there.  A scan
succeeds exactly if the ledger is a page with consecutive sequence numbers, and
then it tells what the page holds.  Otherwise the error that it ends with is
fatal.
-/

namespace TieredStore

theorem Operation.isCheckpoint_eq (op : Operation) :
    op.isCheckpoint = decide (op.kind = .checkpoint) := by
  cases op <;> rfl

/-- A record as it stands in a ledger, with what its first bytes say. -/
structure StoredRecord where
  bytes : Bytes
  header : Record.Header
  fits : bytes.length ≤ Frame.maxRecordLength
  decodes : Record.decodeHeader bytes = .ok header

namespace StoredRecord

def seq (record : StoredRecord) : SequenceNumber := record.header.seq

def isCheckpoint (record : StoredRecord) : Bool := record.header.kind = .checkpoint

def frames (records : List StoredRecord) : Bytes := Frame.run (records.map (·.bytes))

theorem frames_append (first second : List StoredRecord) :
    frames (first ++ second) = frames first ++ frames second := by
  unfold frames
  rw [List.map_append, Frame.run_append]

theorem eq_of_bytes {record other : StoredRecord} (h : record.bytes = other.bytes) :
    record = other := by
  rcases record with ⟨bytes, header, fits, decodes⟩
  rcases other with ⟨bytes', header', fits', decodes'⟩
  have h : bytes = bytes' := h
  subst h
  rw [decodes] at decodes'
  cases decodes'
  rfl

theorem eq_of_map_bytes {records others : List StoredRecord}
    (h : records.map (·.bytes) = others.map (·.bytes)) : records = others :=
  List.map_inj_right (fun _ _ => eq_of_bytes) |>.mp h

theorem allFit (records : List StoredRecord) : Frame.AllFit (records.map (·.bytes)) := by
  intro bytes hbytes
  rcases List.mem_map.mp hbytes with ⟨record, -, rfl⟩
  exact record.fits

end StoredRecord

def SequenceNumber.Consecutive (seqs : List SequenceNumber) : Prop :=
  seqs.IsChain fun before after => after = before.next

/-- What a ledger holds: complete records and, behind them, a frame that is not all there. -/
structure Page where
  id : LedgerId
  records : List StoredRecord
  rest : Bytes
  unfinished : Frame.Unfinished rest

namespace Page

def bytes (page : Page) : Bytes := StoredRecord.frames page.records ++ page.rest

def seqs (page : Page) : List SequenceNumber := page.records.map (·.seq)

def info (page : Page) : LedgerInfo :=
  { id := page.id
    first := page.seqs.head?
    last := page.seqs.getLast?
    startsWithCheckpoint := page.records.head?.any (·.isCheckpoint)
    size := (StoredRecord.frames page.records).length }

def cut (page : Page) : Page := { page with rest := [], unfinished := Frame.unfinished_nil }

@[simp] theorem id_cut (page : Page) : page.cut.id = page.id := rfl

theorem bytes_cut (page : Page) : page.cut.bytes = StoredRecord.frames page.records :=
  List.append_nil _

theorem cut_of_rest {page : Page} (h : page.rest = []) : page.cut = page := by
  rcases page with ⟨id, records, rest, unfinished⟩
  have h : rest = [] := h
  subst h
  rfl

theorem eq_of_bytes {page other : Page} (hid : page.id = other.id)
    (hbytes : page.bytes = other.bytes) : page = other := by
  rcases page with ⟨id, records, rest, unfinished⟩
  rcases other with ⟨id', records', rest', unfinished'⟩
  have hid : id = id' := hid
  have hsplit := Frame.run_inj (StoredRecord.allFit records) (StoredRecord.allFit records')
    unfinished unfinished' hbytes
  have hrecords := StoredRecord.eq_of_map_bytes hsplit.1
  have hrest : rest = rest' := hsplit.2
  subst hid hrecords hrest
  rfl

theorem eq_of_bytesOf {pages others : List Page} {bytesOf : LedgerId → Option Bytes}
    (hids : pages.map (·.id) = others.map (·.id))
    (hpages : ∀ page ∈ pages, bytesOf page.id = some page.bytes)
    (hothers : ∀ page ∈ others, bytesOf page.id = some page.bytes) : pages = others := by
  induction pages generalizing others with
  | nil => exact (List.map_eq_nil_iff.mp hids.symm).symm
  | cons page rest ih =>
      rcases List.map_eq_cons_iff.mp hids.symm with ⟨other, more, rfl, hid, hmore⟩
      have hid : other.id = page.id := hid
      have hbytes := hpages page List.mem_cons_self
      rw [← hid, hothers other List.mem_cons_self] at hbytes
      rw [eq_of_bytes hid.symm (Option.some.inj hbytes).symm,
        ih hmore.symm (fun p hp => hpages p (List.mem_cons_of_mem _ hp))
          fun p hp => hothers p (List.mem_cons_of_mem _ hp)]

end Page

namespace Scan

open Walk SequenceNumber

/-!
## Taking in records
-/

def including (scan : Scan) (record : StoredRecord) : Scan :=
  { scan with
    first := if scan.last.isNone then some record.seq else scan.first
    last := some record.seq
    startsWithCheckpoint :=
      if scan.last.isNone then record.isCheckpoint else scan.startsWithCheckpoint
    records := scan.records + 1
    byKind := count record.header.kind scan.byKind }

theorem take_stored (scan : Scan) (position : Nat) (record : StoredRecord) :
    scan.take (.ok (.frame position record.bytes)) =
      match scan.last with
      | none => .ok (scan.including record)
      | some last =>
          if record.seq = last.next then .ok (scan.including record)
          else .error (.corrupt (.outOfSequence scan.ledger record.seq last)) := by
  have hobserve : scan.take (.ok (.frame position record.bytes)) = scan.observe record.header := by
    simp only [take, record.decodes]
  rw [hobserve]
  unfold observe including StoredRecord.seq StoredRecord.isCheckpoint
  cases hlast : scan.last with
  | none => simp
  | some last => simp [ite_not]

theorem consecutive_cons {last : Option SequenceNumber} {seq : SequenceNumber}
    {rest : List SequenceNumber} :
    Consecutive (last.toList ++ seq :: rest) ↔
      (∀ before ∈ last, seq = before.next) ∧ Consecutive ((some seq).toList ++ rest) := by
  unfold Consecutive
  cases last with
  | none => simp
  | some before => simp

theorem foldlM_take_eq_ok_iff {seen : Scan} :
    ∀ {records : List Bytes} {position : Nat} {scan : Scan}, Frame.AllFit records →
      ((itemsOf position records).foldlM take scan = .ok seen ↔
        ∃ stored : List StoredRecord, stored.map (·.bytes) = records ∧
          Consecutive (scan.last.toList ++ stored.map (·.seq)) ∧
          seen = stored.foldl including scan)
  | [], position, scan, _ => by
      constructor
      · intro h
        refine ⟨[], rfl, ?_, (Except.ok.inj h).symm⟩
        unfold Consecutive
        cases scan.last <;> simp
      · rintro ⟨stored, hbytes, -, rfl⟩
        rw [List.map_eq_nil_iff.mp hbytes]
        rfl
  | bytes :: records, position, scan, hfit => by
      have ih := fun next => @foldlM_take_eq_ok_iff seen records
        (position + (Frame.bytes bytes).length) next hfit.of_cons.2
      unfold itemsOf
      rw [List.foldlM_cons]
      constructor
      · intro h
        cases hheader : Record.decodeHeader bytes with
        | error cause =>
            simp only [take, hheader] at h
            cases h
        | ok header =>
            let record : StoredRecord := ⟨bytes, header, hfit.of_cons.1, hheader⟩
            have htake := take_stored scan position record
            have hgoes : ∀ before ∈ scan.last, record.seq = before.next := by
              intro before hbefore
              rw [show scan.last = some before from hbefore] at htake
              by_contra hne
              simp only [if_neg hne] at htake
              rw [show bytes = record.bytes from rfl, htake] at h
              cases h
            have hok : scan.take (.ok (.frame position bytes)) = .ok (scan.including record) := by
              rw [show bytes = record.bytes from rfl, htake]
              cases hlast : scan.last with
              | none => rfl
              | some before => simp only [if_pos (hgoes before hlast)]
            rw [hok, ok_bind] at h
            rcases (ih _).mp h with ⟨stored, hbytes, hconsecutive, hseen⟩
            refine ⟨record :: stored, ?_, ?_, hseen⟩
            · rw [List.map_cons, hbytes]
            · exact consecutive_cons.mpr ⟨hgoes, hconsecutive⟩
      · rintro ⟨stored, hbytes, hconsecutive, hseen⟩
        rcases List.map_eq_cons_iff.mp hbytes with ⟨record, more, rfl, rfl, hmore⟩
        rw [List.map_cons, consecutive_cons] at hconsecutive
        have hok : scan.take (.ok (.frame position record.bytes)) =
            .ok (scan.including record) := by
          rw [take_stored]
          cases hlast : scan.last with
          | none => rfl
          | some before => simp only [if_pos (hconsecutive.1 before hlast)]
        rw [hok, ok_bind]
        exact (ih _).mpr ⟨more, hmore, hconsecutive.2, hseen⟩

/-!
## The whole ledger
-/

end Scan

def Page.scan (page : Page) : Scan :=
  { page.records.foldl Scan.including { ledger := page.id } with
    validSize := (StoredRecord.frames page.records).length
    tornAt := if page.rest = [] then none else some (StoredRecord.frames page.records).length }

namespace Scan

open Walk SequenceNumber

theorem ledger_foldl (records : List StoredRecord) (scan : Scan) :
    (records.foldl including scan).ledger = scan.ledger ∧
      (records.foldl including scan).tornAt = scan.tornAt ∧
      (records.foldl including scan).records = scan.records + records.length := by
  induction records generalizing scan with
  | nil => exact ⟨rfl, rfl, rfl⟩
  | cons record rest ih =>
      rcases ih (scan.including record) with ⟨hledger, htorn, hrecords⟩
      refine ⟨hledger, htorn, hrecords.trans ?_⟩
      rw [List.length_cons]
      show scan.records + 1 + rest.length = _
      omega

theorem foldl_of_last {last : SequenceNumber} (records : List StoredRecord) (scan : Scan)
    (h : scan.last = some last) :
    (records.foldl including scan).first = scan.first ∧
      (records.foldl including scan).last = (records.map (·.seq)).getLast?.or scan.last ∧
      (records.foldl including scan).startsWithCheckpoint = scan.startsWithCheckpoint := by
  induction records generalizing scan last with
  | nil => exact ⟨rfl, rfl, rfl⟩
  | cons record rest ih =>
      rcases ih (scan.including record) rfl with ⟨hfirst, hlast, hstarts⟩
      have hisSome : scan.last.isNone = false := by rw [h]; rfl
      refine ⟨?_, ?_, ?_⟩
      · rw [List.foldl_cons, hfirst, including, hisSome]
        rfl
      · rw [List.foldl_cons, hlast, List.map_cons, List.getLast?_cons]
        cases (rest.map (·.seq)).getLast? with
        | none => rfl
        | some seq => rfl
      · rw [List.foldl_cons, hstarts, including, hisSome]
        rfl

end Scan

namespace Page

theorem ofScan_scan (page : Page) : LedgerInfo.ofScan page.scan = page.info := by
  rcases page with ⟨id, records, rest, unfinished⟩
  have hledger := (Scan.ledger_foldl records { ledger := id }).1
  unfold LedgerInfo.ofScan scan info seqs
  cases records with
  | nil => rfl
  | cons record more =>
      rcases Scan.foldl_of_last more (Scan.including { ledger := id } record) rfl with
        ⟨hfirst, hlast, hstarts⟩
      rw [List.foldl_cons] at hledger ⊢
      simp only [hledger, hfirst, hlast, hstarts, List.map_cons, List.getLast?_cons]
      cases (more.map (·.seq)).getLast? with
      | none => rfl
      | some seq => rfl

theorem ledger_scan (page : Page) : page.scan.ledger = page.id :=
  (Scan.ledger_foldl page.records { ledger := page.id }).1

end Page

namespace Scan

open Walk SequenceNumber

variable {id : LedgerId} {handle : Handle} {objects : Objects}

theorem foldlM_take_endOf (position : Nat) (rest : Bytes) {seen : Scan} (htorn : seen.tornAt = none) :
    (endOf position rest).foldlM take seen =
      .ok { seen with tornAt := if rest = [] then none else some position } := by
  unfold endOf
  split
  · rw [← htorn]
    rfl
  · rfl

theorem run_of_unfinished (hfresh : handle.Fresh objects) {records : List Bytes} {rest : Bytes}
    (hfit : Frame.AllFit records) (hrest : Frame.Unfinished rest)
    (hcontents : handle.contents objects = Frame.run records ++ rest) :
    run id handle objects = (do
      let seen ← (itemsOf 0 records).foldlM take { ledger := id }
      let seen ← (endOf (Frame.run records).length rest).foldlM take seen
      return { seen with validSize := (Frame.run records).length }) := by
  have hfacing := facing_whole hfresh
  have hstart : (Walk.whole handle objects).position = 0 := rfl
  rw [hcontents] at hfacing
  rcases hfacing.items_unfinished hfit hrest with ⟨after, hitems, hposition⟩
  rw [hstart, Nat.zero_add] at hitems hposition
  unfold run
  simp only [hitems, List.foldlM_append, bind_assoc, hposition]

/-- A scan succeeds exactly on pages with consecutive sequence numbers, and tells what they hold. -/
theorem run_eq_ok_iff (hfresh : handle.Fresh objects) {scan : Scan} :
    run id handle objects = .ok scan ↔
      ∃ page : Page, page.id = id ∧ page.bytes = handle.contents objects ∧
        Consecutive page.seqs ∧ scan = page.scan := by
  constructor
  · intro h
    rcases Frame.exists_run (handle.contents objects) 0 with
      ⟨records, rest, hcontents, hfit, hrest | ⟨e, hdamaged⟩⟩
    · rw [run_of_unfinished hfresh hfit hrest hcontents] at h
      cases hseen : (itemsOf 0 records).foldlM take { ledger := id } with
      | error e =>
          rw [hseen] at h
          cases h
      | ok seen =>
          rw [hseen, ok_bind] at h
          rcases (foldlM_take_eq_ok_iff hfit).mp hseen with ⟨stored, rfl, hconsecutive, rfl⟩
          rw [foldlM_take_endOf _ _ (ledger_foldl stored { ledger := id }).2.1, ok_bind] at h
          exact ⟨⟨id, stored, rest, hrest⟩, rfl, hcontents.symm, hconsecutive,
            (Except.ok.inj h).symm⟩
    · -- the walk ends with the damage, and no scan takes an error in
      have hfacing := facing_whole hfresh
      rw [hcontents] at hfacing
      rcases hfacing.items_damaged hfit hdamaged with ⟨after, hitems⟩
      unfold run at h
      simp only [hitems, List.foldlM_append] at h
      cases hseen : (itemsOf (Walk.whole handle objects).position records).foldlM take
          { ledger := id } with
      | error e =>
          rw [hseen] at h
          cases h
      | ok seen =>
          rw [hseen] at h
          cases h
  · rintro ⟨⟨id, stored, rest, hrest⟩, rfl, hcontents, hconsecutive, rfl⟩
    have hseen : (itemsOf 0 (stored.map (·.bytes))).foldlM take { ledger := id } =
        .ok (stored.foldl including { ledger := id }) :=
      (foldlM_take_eq_ok_iff (StoredRecord.allFit stored)).mpr ⟨stored, rfl, hconsecutive, rfl⟩
    rw [run_of_unfinished hfresh (StoredRecord.allFit stored) hrest hcontents.symm, hseen, ok_bind,
      foldlM_take_endOf _ _ (ledger_foldl stored _).2.1]
    rfl

theorem fatal_of_take {scan : Scan} {item : Except Error FrameItem} {e : Error}
    (hitem : ∀ cause, item = .error cause → cause.fatal = true) (h : scan.take item = .error e) :
    e.fatal = true := by
  cases item with
  | error cause =>
      cases h
      exact hitem _ rfl
  | ok found =>
      cases found with
      | torn offset => cases h
      | frame offset record =>
          simp only [take, observe] at h
          split at h
          · cases h
            rfl
          · split at h
            · split at h
              · cases h
                rfl
              · cases h
            · cases h

theorem fatal_of_foldlM_take {items : List (Except Error FrameItem)} {scan : Scan} {e : Error}
    (hitems : ∀ cause, .error cause ∈ items → cause.fatal = true)
    (h : items.foldlM take scan = .error e) : e.fatal = true := by
  induction items generalizing scan with
  | nil => cases h
  | cons item rest ih =>
      rw [List.foldlM_cons] at h
      cases htake : scan.take item with
      | ok next =>
          rw [htake, ok_bind] at h
          exact ih (fun cause hcause => hitems cause (List.mem_cons_of_mem _ hcause)) h
      | error cause =>
          rw [htake, error_bind] at h
          cases h
          refine fatal_of_take ?_ htake
          intro cause hcause
          exact hitems cause (hcause ▸ List.mem_cons_self)

theorem fatal_of_run (hfresh : handle.Fresh objects) {e : Error}
    (h : run id handle objects = .error e) : e.fatal = true := by
  have hfatal : ∀ cause, .error cause ∈ ((Walk.whole handle objects).items objects).1 →
      cause.fatal = true := fun _ hmem => (facing_whole hfresh).fatal_of_mem_items hmem
  unfold run at h
  cases hseen : ((Walk.whole handle objects).items objects).1.foldlM take { ledger := id } with
  | ok seen =>
      simp only [hseen, ok_bind] at h
      cases h
  | error cause =>
      simp only [hseen, error_bind] at h
      cases h
      exact fatal_of_foldlM_take hfatal hseen

end Scan
end TieredStore
