import TieredStore.Proofs.Report.Collecting

/-!
# A log that passes its verification can be opened

The checks of a verification are those of opening the log, and more: every record
is decoded, and an incomplete frame behind an older ledger is an error.  The errors
only grow, so if there are none in the end every check has passed, ledger by
ledger.  The replay of a verification starts with the oldest record and that of a
recovery at the newest checkpoint.  They meet there, as a checkpoint leaves nothing
of the table before it.
-/

namespace TieredStore
namespace Verification

open SequenceNumber StoredRecord Walk

variable {ledgers : Ledgers} {pages before : List Page} {page : Page} {id : LedgerId}
  {found result : Verification} {last : Option SequenceNumber}

/-!
## Errors only grow
-/

theorem errors_withErrors {text : String} : (found.withErrors [text]).errors ≠ [] := by
  unfold withErrors
  simp

theorem of_noteTorn {newest : Bool} (h : (found.noteTorn page.scan newest).errors = []) :
    found.errors = [] ∧ (newest = true ∨ page.rest = []) := by
  by_cases hrest : page.rest = []
  · have htorn : page.scan.tornAt = none := if_pos hrest
    unfold noteTorn at h
    rw [htorn] at h
    exact ⟨h, Or.inr hrest⟩
  · have htorn : page.scan.tornAt = some (frames page.records).length := if_neg hrest
    unfold noteTorn at h
    rw [htorn] at h
    cases newest with
    | true => exact ⟨h, Or.inl rfl⟩
    | false => exact absurd h errors_withErrors

theorem of_noteGap (h : (found.noteGap page.scan last).errors = []) :
    found.errors = [] ∧ ∀ seq ∈ last, ∀ first ∈ page.seqs.head?, first = seq.next := by
  have hfirst : page.scan.first = page.seqs.head? :=
    congrArg LedgerInfo.first (Page.ofScan_scan page)
  unfold noteGap at h
  rw [hfirst] at h
  cases last with
  | none => exact ⟨h, fun _ hnone => nomatch hnone⟩
  | some seq =>
      cases hhead : page.seqs.head? with
      | none =>
          rw [hhead] at h
          exact ⟨h, fun _ _ _ hnone => nomatch hnone⟩
      | some first =>
          rw [hhead] at h
          by_cases heq : first = seq.next
          · simp only [heq, ne_eq, not_true_eq_false, if_false] at h
            refine ⟨h, ?_⟩
            rintro _ ⟨⟩ _ ⟨⟩
            exact heq
          · simp only [ne_eq, heq, not_false_eq_true, if_true] at h
            exact absurd h errors_withErrors

theorem decodeAll_endOf (position : Nat) (rest : Bytes) :
    decodeAll id found (endOf position rest) = .ok found := by
  unfold endOf
  split
  · rfl
  · rfl

theorem of_decodeAll {records : List StoredRecord} {position stop : Nat} {rest : Bytes}
    (h : decodeAll id found (itemsOf position (records.map (·.bytes)) ++ endOf stop rest) =
      .ok result)
    (hpassed : result.errors = []) :
    found.errors = [] ∧ ∃ entries, AllHold records entries := by
  induction records generalizing position found with
  | nil =>
      have hend : decodeAll id found (endOf stop rest) = .ok result := h
      rw [decodeAll_endOf] at hend
      cases hend
      exact ⟨hpassed, [], .nil⟩
  | cons record more ih =>
      rw [List.map_cons, itemsOf, List.cons_append, decodeAll] at h
      cases hdecode : Record.decode record.bytes with
      | error cause =>
          simp only [hdecode] at h
          exact absurd (ih h).1 errors_withErrors
      | ok decoded =>
          simp only [hdecode] at h
          rcases ih h with ⟨herrors, entries, hentries⟩
          exact ⟨herrors, _, .cons (holds_of_decode hdecode) hentries⟩

/-!
## The checks
-/

theorem last_or (before : List Page) (page : Page) :
    page.scan.last.or (before.flatMap Page.seqs).getLast? =
      ((before ++ [page]).flatMap Page.seqs).getLast? := by
  have hlast : page.scan.last = page.seqs.getLast? :=
    congrArg LedgerInfo.last (Page.ofScan_scan page)
  rw [hlast, List.flatMap_append, List.flatMap_singleton, List.getLast?_append]

theorem pages_of_check :
    ∀ {ids : List LedgerId} {before : List Page} {found : Verification},
      check ledgers found (before.flatMap Page.seqs).getLast? ids = .ok result →
      result.errors = [] →
      found.errors = [] ∧ ∃ pages entries, AllHold (Page.recordsOf pages) entries ∧
        (Consecutive (before.flatMap Page.seqs) → ledgers.Continue before ids pages)
  | [], before, found, h, hpassed => by
      cases h
      exact ⟨hpassed, [], [], .nil, Ledgers.continue_nil⟩
  | id :: rest, before, found, h, hpassed => by
      unfold check at h
      cases hreach : ledgers.reach id with
      | error e =>
          simp only [hreach, error_bind] at h
          cases h
      | ok handle =>
          simp only [hreach, ok_bind] at h
          rcases Ledgers.of_reach hreach with ⟨hfresh, hbytes⟩
          cases hscan : Scan.run id handle ledgers.objects with
          | error e =>
              -- the ledger is left out with an error, and no later check takes that back
              simp only [hscan] at h
              exact absurd (pages_of_check h hpassed).1 errors_withErrors
          | ok scan =>
              simp only [hscan] at h
              rcases (Scan.run_eq_ok_iff hfresh).mp hscan with
                ⟨page, rfl, hcontents, hpage, rfl⟩
              rw [← hcontents] at hbytes
              rw [Ledgers.walk_page hfresh hcontents.symm, last_or] at h
              cases hdecode : decodeAll page.id ((({ found with ledgers := found.ledgers + 1 } :
                  Verification).noteTorn page.scan rest.isEmpty).noteGap page.scan
                    (before.flatMap Page.seqs).getLast?)
                  (itemsOf 0 (page.records.map (·.bytes)) ++
                    endOf (frames page.records).length page.rest) with
              | error e =>
                  rw [hdecode] at h
                  cases h
              | ok decoded =>
                  rw [hdecode, ok_bind] at h
                  rcases pages_of_check h hpassed with ⟨hdecoded, pages, entries, hentries, hgo⟩
                  rcases of_decodeAll hdecode hdecoded with ⟨hgap, first, hfirst⟩
                  rcases of_noteGap hgap with ⟨htorn, hnext⟩
                  rcases of_noteTorn htorn with ⟨herrors, hend⟩
                  refine ⟨herrors, page :: pages, first ++ entries,
                    List.rel_append hfirst hentries, ?_⟩
                  intro hbefore
                  have hmore := hgo ((Log.consecutive_concat hbefore hpage).mpr hnext)
                  exact Ledgers.continue_cons_iff.mpr
                    ⟨page, pages, rfl, rfl, hbytes, hend, hmore⟩

theorem pages_of_run (h : run ledgers true = .ok result) (hpassed : result.passed = true) :
    ∃ pages entries replay, ledgers.Legible pages ∧ AllHold (Page.recordsOf pages) entries ∧
      Replay.run ledgers = .ok replay := by
  unfold run at h
  cases hcheck : check ledgers {} none ledgers.list with
  | error e =>
      rw [hcheck] at h
      cases h
  | ok checked =>
      rw [hcheck, ok_bind] at h
      have hresult : checked.withReplay ledgers = result := Except.ok.inj h
      have hchecked : checked.errors = [] ∧ ∃ replay, Replay.run ledgers = .ok replay := by
        have hnone : (checked.withReplay ledgers).errors = [] := by
          rw [hresult]
          exact List.isEmpty_iff.mp hpassed
        unfold withReplay at hnone
        split at hnone
        · rename_i hclean
          split at hnone
          · rename_i replay hrun
            exact ⟨List.isEmpty_iff.mp hclean, replay, hrun⟩
          · exact absurd hnone errors_withErrors
        · rename_i hfailed
          exact absurd (List.isEmpty_iff.mpr hnone) hfailed
      rcases hchecked with ⟨herrors, replay, hreplay⟩
      have hfirst : check ledgers {} (([] : List Page).flatMap Page.seqs).getLast? ledgers.list =
          .ok checked := hcheck
      rcases pages_of_check hfirst herrors with ⟨-, pages, entries, hentries, hgo⟩
      exact ⟨pages, entries, replay, hgo List.isChain_nil, hentries, hreplay⟩

end Verification

/-!
## The newest checkpoint
-/

namespace Container

theorem applyAll_checkpoint {entry : LogRecord} (h : entry.2.isCheckpoint = true)
    (rest : List LogRecord) (table other : Table) :
    applyAll table (entry :: rest) = applyAll other (entry :: rest) := by
  rcases entry with ⟨seq, op⟩
  cases op with
  | checkpoint snapshot => rfl
  | append segment offset client event data => cases h
  | «seal» segment length => cases h
  | merge parent batch length offset => cases h
  | create segment name => cases h
  | createBatch batch name parent => cases h
  | truncate segment offset => cases h

end Container

namespace Log

open SequenceNumber StoredRecord

variable {ledgers : Ledgers} {pages : List Page} {entries : List LogRecord}

/-- What is read from the newest checkpoint on gives the table that all records give. -/
theorem applyAll_newest (h : ledgers.Legible pages)
    (hentries : AllHold (Page.recordsOf pages) entries) (hnonzero : ∀ entry ∈ entries, entry.1 ≠ 0)
    {table : Table} (hall : Container.applyAll {} entries = .ok table) (config : Config) :
    ∃ applied : List LogRecord, (ofPages config ledgers pages).records
        ((ofPages config ledgers pages).latestCheckpoint?.getD first) = applied.map .ok ∧
      Container.applyAll {} applied = .ok table := by
  have hread := @records_of_allHold (ofPages config ledgers pages) pages entries rfl
    (fun _ hpage => ready_ofPages h hpage) (fun _ hpage => h.consecutive_of_mem hpage) hentries
  rcases latestCheckpoint_ofPages config ledgers pages with
    ⟨before, record, after, hsplit, hkind, hlatest, -⟩ | ⟨hlatest, -⟩
  · have hconsecutive := h.consecutive
    rw [List.nil_append, ← Page.map_seq_recordsOf, hentries.map_seq_eq] at hconsecutive
    rw [hsplit] at hentries
    rcases hentries.of_append with ⟨older, newer, rfl, -, _ | ⟨hentry, _⟩⟩
    rename_i entry rest _
    have hseq : record.seq = entry.1 := hentry.1.symm
    refine ⟨entry :: rest, ?_, ?_⟩
    · rw [hlatest, Option.getD_some, hread, hseq, Page.filter_of_split hconsecutive]
    · -- whatever table the older records give, the checkpoint starts over
      have hcheckpoint : entry.2.isCheckpoint = true := by
        rw [hentry.isCheckpoint_eq]
        exact hkind
      unfold Container.applyAll at hall
      rw [List.foldlM_append] at hall
      cases hfront : older.foldlM (fun table entry => table.apply entry.2) ({} : Table) with
      | error cause =>
          rw [hfront] at hall
          cases hall
      | ok middle =>
          rw [hfront, ok_bind] at hall
          rw [Container.applyAll_checkpoint hcheckpoint rest {} middle]
          exact hall
  · refine ⟨entries, ?_, hall⟩
    rw [hlatest, Option.getD_none, hread, List.filter_eq_self.mpr]
    intro entry hentry
    have hpos : first ≤ entry.1 := Nat.pos_of_ne_zero (hnonzero entry hentry)
    exact decide_eq_true hpos

end Log

namespace Verification

open SequenceNumber StoredRecord

variable {ledgers : Ledgers} {result : Verification}

/--
A log that passes its verification can be opened, and what recovery applies from
the newest checkpoint on gives the table that the verification's replay of all
records gives.
-/
theorem passed_opens (hsound : ¬ ledgers.Faulty)
    (hnonzero : ∀ record, .ok record ∈ ledgers.logged → record.header.seq ≠ 0)
    (hrun : run ledgers true = .ok result) (hpassed : result.passed = true) (config : Config) :
    ∃ log replay, Log.load config ledgers = .ok log ∧ Replay.run ledgers = .ok replay ∧
      ∀ {τ : Type} (c : Container τ), c.table = {} → ∃ count after,
        (Container.replay 0 (log.records (log.latestCheckpoint?.getD first))).run c =
          .ok count after ∧ after.table = replay.table := by
  rcases pages_of_run hrun hpassed with ⟨pages, entries, replay, hpages, hentries, hreplay⟩
  have hentry : ∀ entry ∈ entries, entry.1 ≠ 0 := by
    rcases hpages.logged_eq hentries with ⟨found, hlogged, rfl⟩
    intro entry hmem
    rcases List.mem_map.mp hmem with ⟨record, hrecord, rfl⟩
    apply hnonzero record
    rw [hlogged]
    exact List.mem_map_of_mem hrecord
  have hall := Replay.applyAll_of_run hpages hentries hreplay
  rcases Log.applyAll_newest hpages hentries hentry hall config with ⟨applied, hread, hnewest⟩
  refine ⟨Log.ofPages config ledgers pages, replay,
    Log.load_of_legible hpages (fun _ _ => Or.inr hsound) config, hreplay, ?_⟩
  intro τ c hempty
  have hends := Container.replay_table (applied.map .ok) 0 c
  rw [hempty] at hends
  rw [hread]
  cases hreplayed : (Container.replay 0 (applied.map .ok)).run c with
  | error e after => exact absurd hnewest (hends.error hreplayed applied rfl _)
  | ok count after =>
      rcases hends.ok hreplayed with ⟨others, hothers, -, htable⟩
      have hsame : applied = others :=
        List.map_injective_iff.mpr (fun _ _ heq => Except.ok.inj heq) hothers
      rw [← hsame, hnewest] at htable
      exact ⟨count, after, rfl, (Except.ok.inj htable).symm⟩

/-- A record, then a ledger that starts with a checkpoint and ends inside a frame. -/
private def tornBehindCheckpoint : Ledgers :=
  { directory := .memory (.ofList [(1, 0), (3, 1)]) {}
    objects := [((Frame.ofOperation 1 (.create 1 "a")).toOption).getD [],
      ((Frame.ofOperation 2 (.checkpoint {})).toOption).getD [] ++
        ((Frame.ofOperation 3 (.create 2 "b")).toOption).getD [] ++ [83, 83]] }

theorem passed_opens_torn :
    ∃ log replay, Log.load {} tornBehindCheckpoint = .ok log ∧
      Replay.run tornBehindCheckpoint = .ok replay ∧ replay.applied = 3 ∧
      ∀ c : Container Unit, c.table = {} → ∃ count after,
        (Container.replay 0 (log.records (log.latestCheckpoint?.getD first))).run c =
          .ok count after ∧ after.table = replay.table := by
  have hrun : (run tornBehindCheckpoint true).toOption.map
      (fun result => (result.passed, result.replayed)) = some (true, 3) := by decide +kernel
  have happlied : (Replay.run tornBehindCheckpoint).toOption.map (·.applied) = some 3 := by
    decide +kernel
  have hlogged : (tornBehindCheckpoint.logged.map fun found =>
      (found.toOption.map (·.header.seq)).getD 0) = [1, 2, 3] := by decide +kernel
  have hnonzero : ∀ record, .ok record ∈ tornBehindCheckpoint.logged → record.header.seq ≠ 0 := by
    intro record hrecord hzero
    have hmem := List.mem_map_of_mem (f := fun found : Except ReportError LoggedRecord =>
      (found.toOption.map (·.header.seq)).getD 0) hrecord
    rw [hlogged] at hmem
    have hfound : record.header.seq ∈ [1, 2, 3] := hmem
    rw [hzero] at hfound
    simp at hfound
  cases hverified : run tornBehindCheckpoint true with
  | error e =>
      rw [hverified] at hrun
      cases hrun
  | ok result =>
      rw [hverified] at hrun
      have hpassed : result.passed = true := congrArg Prod.fst (Option.some.inj hrun)
      rcases passed_opens (by unfold Ledgers.Faulty; decide) hnonzero hverified hpassed {} with
        ⟨log, replay, hload, hreplay, htable⟩
      rw [hreplay] at happlied
      exact ⟨log, replay, hload, hreplay, Option.some.inj happlied, fun c => htable c⟩

end Verification
end TieredStore
