import TieredStore.Proofs.Report.Verifying

/-!
# The verification of legible ledgers

Ledgers that can be opened, with records that can be decoded, pass every check that a
verification makes of them one by one.  So all records count as valid, and if the
verification ends with errors nonetheless, its replay has found a record that does not
fit the segments that the records before it give.
-/

namespace TieredStore

open SequenceNumber StoredRecord Walk

variable {ledgers : Ledgers} {pages before : List Page} {page : Page} {id : LedgerId}
  {ids : List LedgerId} {records : List StoredRecord} {entries : List LogRecord}

/-!
## The replay
-/

namespace Replay

theorem exists_foldlM_of_applyAll {found : List LoggedRecord} {replay : Replay} {table : Table}
    (h : Container.applyAll replay.table (found.map LoggedRecord.entry) = .ok table) :
    ∃ final, (found.map Except.ok).foldlM (fun replay item => do replay.take (← item)) replay =
      .ok final := by
  induction found generalizing replay with
  | nil => exact ⟨replay, rfl⟩
  | cons record rest ih =>
      unfold Container.applyAll at h ih
      rw [List.map_cons, List.foldlM_cons, bind_eq_ok_iff] at h
      rcases h with ⟨middle, happly, hrest⟩
      have happly : replay.table.apply record.operation = .ok middle := happly
      rw [List.map_cons, List.foldlM_cons, ok_bind]
      unfold take
      rw [happly]
      exact ih hrest

theorem run_succeeds_iff (h : ledgers.Legible pages)
    (hentries : AllHold (Page.recordsOf pages) entries) :
    (∃ replay, run ledgers = .ok replay) ↔ ∃ table, Container.applyAll {} entries = .ok table := by
  constructor
  · intro hrun
    rcases hrun with ⟨replay, hrun⟩
    exact ⟨replay.table, applyAll_of_run h hentries hrun⟩
  · intro happly
    rcases happly with ⟨table, happly⟩
    rcases h.logged_eq hentries with ⟨found, hlogged, rfl⟩
    unfold run
    rw [hlogged]
    exact exists_foldlM_of_applyAll happly

end Replay

/-!
## The checks
-/

namespace Verification

variable {found after : Verification} {last : Option SequenceNumber}

/-- Nothing wrong has been found since, and this many records that can be decoded. -/
structure Clean (found : Verification) (count : Nat) (after : Verification) : Prop where
  errors_eq : after.errors = found.errors
  valid_eq : after.valid = found.valid + count

theorem Clean.trans {middle : Verification} {first second : Nat} (h : found.Clean first middle)
    (hnext : middle.Clean second after) : found.Clean (first + second) after where
  errors_eq := hnext.errors_eq.trans h.errors_eq
  valid_eq := by rw [hnext.valid_eq, h.valid_eq, Nat.add_assoc]

theorem noteTorn_clean (found : Verification) {newest : Bool} (h : newest = true ∨ page.rest = []) :
    found.Clean 0 (found.noteTorn page.scan newest) := by
  unfold noteTorn
  by_cases hrest : page.rest = []
  · rw [show page.scan.tornAt = none from if_pos hrest]
    exact ⟨rfl, rfl⟩
  · rw [show page.scan.tornAt = some (frames page.records).length from if_neg hrest]
    rw [h.resolve_right hrest]
    exact ⟨rfl, rfl⟩

theorem noteGap_clean (found : Verification)
    (h : ∀ seq ∈ last, ∀ first ∈ page.seqs.head?, first = seq.next) :
    found.Clean 0 (found.noteGap page.scan last) := by
  have hfirst : page.scan.first = page.seqs.head? :=
    congrArg LedgerInfo.first (Page.ofScan_scan page)
  unfold noteGap
  rw [hfirst]
  cases last with
  | none => exact ⟨rfl, rfl⟩
  | some seq =>
      cases hhead : page.seqs.head? with
      | none => exact ⟨rfl, rfl⟩
      | some first =>
          have hnext := h seq rfl first hhead
          simp only [hnext, ne_eq, not_true_eq_false, if_false]
          exact ⟨rfl, rfl⟩

theorem decodeAll_clean (h : AllHold records entries) (found : Verification) (position stop : Nat)
    (rest : Bytes) :
    ∃ after, decodeAll id found (itemsOf position (records.map (·.bytes)) ++ endOf stop rest) =
      .ok after ∧ found.Clean entries.length after := by
  induction h generalizing found position with
  | nil => exact ⟨found, decodeAll_endOf stop rest, rfl, rfl⟩
  | @cons record entry records entries hrecord _ ih =>
      rcases ih { found with valid := found.valid + 1 }
        (position + (Frame.bytes record.bytes).length) with ⟨after, hafter, hclean⟩
      have hone : found.Clean 1 { found with valid := found.valid + 1 } := ⟨rfl, rfl⟩
      refine ⟨after, ?_, ?_⟩
      · rw [List.map_cons, itemsOf, List.cons_append, decodeAll]
        simp only [hrecord.2]
        exact hafter
      · rw [List.length_cons, Nat.add_comm]
        exact hone.trans hclean

theorem check_clean :
    ∀ {pages before : List Page} {ids : List LedgerId} {entries : List LogRecord},
      ledgers.Continue before ids pages → AllHold (Page.recordsOf pages) entries →
      ∀ found : Verification, ∃ after,
        check ledgers found (before.flatMap Page.seqs).getLast? ids = .ok after ∧
          found.Clean entries.length after
  | [], before, ids, entries, hpages, hentries, found => by
      cases hentries
      rw [← hpages.ids_eq]
      exact ⟨found, rfl, rfl, rfl⟩
  | page :: more, before, ids, entries, hpages, hentries, found => by
      cases ids with
      | nil => cases hpages.ids_eq
      | cons id rest =>
          rcases Ledgers.continue_cons_iff.mp hpages with ⟨_, _, hsame, rfl, hbytes, hend, hmore⟩
          cases hsame
          rcases AllHold.of_append hentries with ⟨first, second, rfl, hfirst, hsecond⟩
          rcases Ledgers.reach_of_bytes? hbytes with ⟨handle, hreach, hfresh, hcontents⟩
          have hfront := hmore.front
          have hpage : Consecutive page.seqs := by
            rw [List.flatMap_append, List.flatMap_singleton] at hfront
            exact (List.isChain_append.mp hfront).2.1
          have hscan : Scan.run page.id handle ledgers.objects = .ok page.scan :=
            (Scan.run_eq_ok_iff hfresh).mpr ⟨page, rfl, hcontents.symm, hpage, rfl⟩
          have hnext := (Log.consecutive_concat hpages.front hpage).mp hfront
          let counted := { found with ledgers := found.ledgers + 1 }
          have hcounted : found.Clean 0 counted := ⟨rfl, rfl⟩
          have htorn := noteTorn_clean counted hend
          have hgap := noteGap_clean (counted.noteTorn page.scan rest.isEmpty) hnext
          rcases decodeAll_clean hfirst ((counted.noteTorn page.scan rest.isEmpty).noteGap page.scan
              (before.flatMap Page.seqs).getLast?) 0 (frames page.records).length page.rest with
            ⟨decoded, hdecode, hdecoded⟩
          rcases check_clean hmore hsecond decoded with ⟨after, hafter, hclean⟩
          refine ⟨after, ?_, ?_⟩
          · unfold check
            simp only [hreach, ok_bind, hscan]
            rw [Ledgers.walk_page hfresh hcontents, last_or, hdecode, ok_bind]
            exact hafter
          · rw [List.length_append]
            have hall := (hcounted.trans (htorn.trans (hgap.trans hdecoded))).trans hclean
            rwa [Nat.zero_add, Nat.zero_add, Nat.zero_add] at hall

/--
A verification of legible ledgers counts all records as valid, and it finds an error only
in the replay: if the records cannot be applied one after the other.
-/
theorem run_legible (h : ledgers.Legible pages) (hentries : AllHold (Page.recordsOf pages) entries)
    (replay : Bool) :
    ∃ result, run ledgers replay = .ok result ∧ result.valid = entries.length ∧
      (result.errors = [] ↔ (replay = true → ∃ table, Container.applyAll {} entries = .ok table)) := by
  rcases check_clean h hentries {} with ⟨checked, hcheck, hclean⟩
  have hcheck : check ledgers {} none ledgers.list = .ok checked := hcheck
  have hvalid : checked.valid = entries.length := by rw [hclean.valid_eq, Nat.zero_add]
  have herrors : checked.errors = [] := hclean.errors_eq
  unfold run
  rw [hcheck, ok_bind]
  refine ⟨_, rfl, ?_⟩
  cases replay with
  | false =>
      refine ⟨hvalid, ?_⟩
      constructor
      · intro _ hreplay
        cases hreplay
      · intro _
        exact herrors
  | true =>
      rw [← Replay.run_succeeds_iff h hentries]
      unfold withReplay passed
      rw [herrors]
      cases hrun : Replay.run ledgers with
      | ok folded => exact ⟨hvalid, fun _ _ => ⟨folded, rfl⟩, fun _ => rfl⟩
      | error cause =>
          refine ⟨hvalid, fun hnone => absurd hnone errors_withErrors, fun hsome => ?_⟩
          rcases hsome rfl with ⟨folded, hfolded⟩
          cases hfolded

end Verification
end TieredStore
