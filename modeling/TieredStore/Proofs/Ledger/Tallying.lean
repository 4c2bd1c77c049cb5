import Mathlib.Data.List.Induction
import TieredStore.Proofs.Ledger.Paging
import TieredStore.Proofs.Ledger.Parsing

/-!
# Frames are found again

What has been written frame by frame is found again frame by frame, up to the frame
that is not all there.  A scan of it counts the records of each kind and lists the
kinds in the order in which they turn up.
-/

namespace TieredStore

open SequenceNumber

namespace Scan

/-!
## Kinds and how often they turn up
-/

/-- Each kind once, in the order in which the kinds turn up, and how often it does. -/
def tally (kinds : List RecordKind) : List (RecordKind × Nat) :=
  kinds.eraseDups.map fun kind => (kind, kinds.count kind)

variable {kind : RecordKind} {kinds : List RecordKind}

theorem eraseDups_concat (kinds : List RecordKind) (kind : RecordKind) :
    (kinds ++ [kind]).eraseDups =
      if kind ∈ kinds then kinds.eraseDups else kinds.eraseDups ++ [kind] := by
  rw [List.eraseDups_append]
  by_cases hmem : kind ∈ kinds
  · have hnone : [kind].removeAll kinds = [] := by simp [List.removeAll, hmem]
    rw [if_pos hmem, hnone, List.eraseDups_nil, List.append_nil]
  · have hone : [kind].removeAll kinds = [kind] := by simp [List.removeAll, hmem]
    rw [if_neg hmem, hone]
    rfl

theorem nodup_eraseDups (kinds : List RecordKind) : kinds.eraseDups.Nodup := by
  induction kinds using List.reverseRecOn with
  | nil => exact List.nodup_nil
  | append_singleton kinds kind ih =>
      rw [eraseDups_concat]
      split
      · exact ih
      · rename_i hmem
        refine List.nodup_append.mpr ⟨ih, List.nodup_cons.mpr ⟨List.not_mem_nil, List.nodup_nil⟩, ?_⟩
        intro other hother _ hkind heq
        rw [heq, List.mem_singleton.mp hkind, List.mem_eraseDups] at hother
        exact hmem hother

theorem count_map_of_mem (times : RecordKind → Nat) (hnodup : kinds.Nodup) (hmem : kind ∈ kinds) :
    count kind (kinds.map fun k => (k, times k)) =
      kinds.map fun k => (k, times k + [kind].count k) := by
  induction kinds with
  | nil => cases hmem
  | cons first rest ih =>
      rw [List.map_cons, List.map_cons, count]
      have hrest := List.nodup_cons.mp hnodup
      by_cases heq : first = kind
      · subst heq
        have hsame : rest.map (fun k => (k, times k + [first].count k)) =
            rest.map fun k => (k, times k) := by
          apply List.map_congr_left
          intro other hother
          have hne : first ≠ other := fun h => hrest.1 (h ▸ hother)
          rw [List.count_singleton, if_neg (by simpa using hne), Nat.add_zero]
        rw [if_pos rfl, hsame, List.count_singleton_self]
      · rw [if_neg heq, ih hrest.2 ((List.mem_cons.mp hmem).resolve_left (Ne.symm heq)),
          List.count_singleton, if_neg (by simpa using Ne.symm heq), Nat.add_zero]

theorem count_map_of_not_mem (times : RecordKind → Nat) (hmem : kind ∉ kinds) :
    count kind (kinds.map fun k => (k, times k)) =
      (kinds.map fun k => (k, times k)) ++ [(kind, 1)] := by
  induction kinds with
  | nil => rfl
  | cons first rest ih =>
      have hmem := not_or.mp (List.mem_cons.not.mp hmem)
      rw [List.map_cons, count, if_neg (Ne.symm hmem.1), ih hmem.2]
      rfl

theorem count_tally (kinds : List RecordKind) (kind : RecordKind) :
    count kind (tally kinds) = tally (kinds ++ [kind]) := by
  unfold tally
  rw [eraseDups_concat]
  simp only [List.count_append]
  by_cases hmem : kind ∈ kinds
  · rw [if_pos hmem, count_map_of_mem _ (nodup_eraseDups kinds) (List.mem_eraseDups.mpr hmem)]
  · have hsame : kinds.eraseDups.map (fun k => (k, kinds.count k + [kind].count k)) =
        kinds.eraseDups.map fun k => (k, kinds.count k) := by
      apply List.map_congr_left
      intro other hother
      have hne : kind ≠ other := fun h => hmem (h ▸ List.mem_eraseDups.mp hother)
      rw [List.count_singleton, if_neg (by simpa using hne), Nat.add_zero]
    rw [if_neg hmem, count_map_of_not_mem _ (fun h => hmem (List.mem_eraseDups.mp h)),
      List.map_append, hsame, List.map_singleton, List.count_eq_zero_of_not_mem hmem,
      List.count_singleton_self]

theorem foldl_count (kinds : List RecordKind) :
    kinds.foldl (fun seen kind => count kind seen) [] = tally kinds := by
  induction kinds using List.reverseRecOn with
  | nil => rfl
  | append_singleton kinds kind ih =>
      rw [List.foldl_append, ih]
      exact count_tally kinds kind

theorem byKind_foldl (records : List StoredRecord) (scan : Scan) :
    (records.foldl including scan).byKind =
      (records.map (·.header.kind)).foldl (fun seen kind => count kind seen) scan.byKind := by
  induction records generalizing scan with
  | nil => rfl
  | cons record rest ih => exact ih (scan.including record)

end Scan

theorem Page.scan_eq (page : Page) :
    page.scan =
      { ledger := page.id
        first := page.seqs.head?
        last := page.seqs.getLast?
        startsWithCheckpoint := page.records.head?.any (·.isCheckpoint)
        records := page.records.length
        validSize := (StoredRecord.frames page.records).length
        tornAt := if page.rest = [] then none else some (StoredRecord.frames page.records).length
        byKind := Scan.tally (page.records.map (·.header.kind)) } := by
  have hinfo := page.ofScan_scan
  have hfirst : page.scan.first = page.seqs.head? := congrArg LedgerInfo.first hinfo
  have hlast : page.scan.last = page.seqs.getLast? := congrArg LedgerInfo.last hinfo
  have hstarts : page.scan.startsWithCheckpoint = page.records.head?.any (·.isCheckpoint) :=
    congrArg LedgerInfo.startsWithCheckpoint hinfo
  have hrecords : page.scan.records = page.records.length :=
    (Scan.ledger_foldl page.records _).2.2.trans (Nat.zero_add _)
  have hbyKind : page.scan.byKind = Scan.tally (page.records.map (·.header.kind)) :=
    (Scan.byKind_foldl page.records _).trans (Scan.foldl_count _)
  rw [← hfirst, ← hlast, ← hstarts, ← hrecords, ← hbyKind, ← page.ledger_scan]
  rfl

/-!
## Records that have been written
-/

theorem Record.decodeHeader_of_encode {seq : SequenceNumber} {op : Operation} {written : Bytes}
    (h : encode seq op = .ok written) : decodeHeader written = .ok (Header.of seq op) := by
  rcases encode_eq_ok_iff.mp h with ⟨hcheck, rfl⟩
  have hheader := takes_header (UInt8.le_refl op.kind.version) (check_eq_ok_iff.mp hcheck).1.2
    (payload op)
  rw [decodeHeader, bytes, hheader]
  rfl

theorem StoredRecord.exists_of_encode {entries : List (SequenceNumber × Operation)}
    {records : List Bytes}
    (h : List.Forall₂ (fun entry record => Record.encode entry.1 entry.2 = .ok record) entries
      records) (hfit : Frame.AllFit records) :
    ∃ stored : List StoredRecord, stored.map (·.bytes) = records ∧
      stored.map (·.header) = entries.map fun entry => Record.Header.of entry.1 entry.2 := by
  induction h with
  | nil => exact ⟨[], rfl, rfl⟩
  | cons hrecord _ ih =>
      rcases ih hfit.of_cons.2 with ⟨stored, hbytes, hheaders⟩
      let first : StoredRecord :=
        { bytes := _
          header := _
          fits := hfit.of_cons.1
          decodes := Record.decodeHeader_of_encode hrecord }
      refine ⟨first :: stored, ?_, ?_⟩
      · rw [List.map_cons, hbytes]
      · rw [List.map_cons, List.map_cons, hheaders]

/-!
## A ledger of frames
-/

namespace Frame

open Walk

variable {handle : Handle} {objects : Objects} {records : List Bytes} {further piece : Bytes}

/--
The frames of records are found again, each where it starts, and behind them the
frame that is not all there, if there is any of it; after that there is nothing.  If
the records are operations that were written under consecutive sequence numbers, a
scan tells just what they are.
-/
theorem frames_found_again (hfresh : handle.Fresh objects)
    (hrecords : ∀ record ∈ records, record.length < UInt32.size)
    (hfurther : further.length < UInt32.size) (hpiece : piece <+: bytes further)
    (hproper : piece ≠ bytes further)
    (hcontents : handle.contents objects = run records ++ piece) :
    (∀ record ∈ further :: records, encode record = .ok (bytes record)) ∧
      (∀ count, ((whole handle objects).calls objects count).1 =
          handedOut (itemsOf 0 records ++ endOf (run records).length piece) count ∧
        ((whole handle objects).calls objects count).2.position =
          (run (records.take count)).length) ∧
      ∀ (id : LedgerId) (entries : List (SequenceNumber × Operation)),
        List.Forall₂ (fun entry record => Record.encode entry.1 entry.2 = .ok record) entries
          records →
        Consecutive (entries.map (·.1)) →
        Scan.run id handle objects = .ok
          { ledger := id
            first := (entries.map (·.1)).head?
            last := (entries.map (·.1)).getLast?
            startsWithCheckpoint := entries.head?.any (·.2.isCheckpoint)
            records := entries.length
            validSize := (run records).length
            tornAt := if piece = [] then none else some (run records).length
            byKind := Scan.tally (entries.map (·.2.kind)) } := by
  have hfit : AllFit records := fun record hrecord => Nat.le_of_lt_succ (hrecords record hrecord)
  have hfurther : further.length ≤ maxRecordLength := Nat.le_of_lt_succ hfurther
  have hshort : piece.length < (bytes further).length :=
    Nat.lt_of_le_of_ne hpiece.length_le fun heq => hproper (hpiece.eq_of_length heq)
  have hrest : Unfinished piece := (Torn.mk hpiece hshort hfurther).unfinished
  refine ⟨?_, ?_, ?_⟩
  · intro record hrecord
    have hle : record.length ≤ maxRecordLength := by
      rcases List.mem_cons.mp hrecord with rfl | hmem
      · exact hfurther
      · exact hfit record hmem
    exact if_neg (Nat.not_lt.mpr hle)
  · intro count
    have hfacing := facing_whole hfresh
    rw [hcontents] at hfacing
    have hstart : (whole handle objects).position = 0 := rfl
    have hparse : parse 0 (run records ++ piece) =
        itemsOf 0 records ++ endOf (run records).length piece := by
      rw [parse_run hfit, parse_unfinished hrest, Nat.zero_add]
    rcases hfacing.calls_parse count with ⟨hanswers, hposition, -⟩
    rw [hstart, hparse] at hanswers hposition
    exact ⟨hanswers, hposition.trans ((reached_take 0 _ records piece count).trans (Nat.zero_add _))⟩
  · intro id entries hentries hconsecutive
    rcases StoredRecord.exists_of_encode hentries hfit with ⟨stored, rfl, hheaders⟩
    let page : Page := ⟨id, stored, piece, hrest⟩
    have hseqs : page.seqs = entries.map (·.1) := by
      have hmap := congrArg (List.map (·.seq)) hheaders
      rw [List.map_map, List.map_map] at hmap
      exact hmap
    have hkinds : page.records.map (·.header.kind) = entries.map (·.2.kind) := by
      have hmap := congrArg (List.map (·.kind)) hheaders
      rw [List.map_map, List.map_map] at hmap
      exact hmap
    have hstarts : page.records.head?.any (·.isCheckpoint) =
        entries.head?.any (·.2.isCheckpoint) := by
      have hhead := congrArg (fun headers => headers.head?.any (·.kind = .checkpoint)) hheaders
      simp only [List.head?_map, Option.any_map] at hhead
      simp only [Operation.isCheckpoint_eq]
      exact hhead
    have hlength : page.records.length = entries.length := by
      have hmap := congrArg List.length hheaders
      rwa [List.length_map, List.length_map] at hmap
    have hscan := (Scan.run_eq_ok_iff hfresh).mpr
      ⟨page, rfl, hcontents.symm, by rw [hseqs]; exact hconsecutive, rfl⟩
    rw [hscan, page.scan_eq, hseqs, hkinds, hstarts, hlength]
    rfl

/-- Three records, and the header and one byte of a fourth. -/
theorem frames_found_again_torn :
    let entries : List (SequenceNumber × Operation) :=
      [(5, .create 1 "a"), (6, .seal 1 0), (7, .create 2 "b")]
    let records := entries.map fun entry => Record.bytes entry.1 entry.2
    let piece := (bytes [1, 2, 3]).take 9
    let objects := [run records ++ piece]
    ((whole (.memory 0) objects).calls objects 6).1 =
        handedOut (itemsOf 0 records ++ [.ok (.torn 104)]) 6 ∧
      ((whole (.memory 0) objects).calls objects 6).2.position = 104 ∧
      Scan.run 3 (.memory 0) objects = .ok
        { ledger := 3, first := some 5, last := some 7, records := 3, validSize := 104,
          tornAt := some 104, byKind := [(.create, 2), (.seal, 1)] } := by
  intro entries records piece objects
  have hwritten : List.Forall₂
      (fun entry record => Record.encode entry.1 entry.2 = .ok record) entries records :=
    .cons rfl (.cons rfl (.cons rfl .nil))
  have hshort : ∀ record ∈ records, record.length < UInt32.size := by decide +kernel
  have hfresh : (Handle.memory 0).Fresh objects := rfl
  have hfront : piece <+: bytes [1, 2, 3] := List.take_prefix _ _
  have hproper : piece ≠ bytes [1, 2, 3] := by decide +kernel
  rcases frames_found_again hfresh hshort (by decide) hfront hproper rfl with ⟨-, hcalls, hscan⟩
  have hlength : (run records).length = 104 := by decide +kernel
  have hpiece : piece ≠ [] := by decide +kernel
  have hend : endOf (run records).length piece = [.ok (.torn 104)] := by
    rw [hlength]
    exact if_neg hpiece
  have hscan := hscan 3 entries hwritten (by unfold Consecutive; decide)
  rw [hlength, if_neg hpiece] at hscan
  rw [hend] at hcalls
  exact ⟨(hcalls 6).1, (hcalls 6).2.trans hlength, hscan⟩

end Frame
end TieredStore
