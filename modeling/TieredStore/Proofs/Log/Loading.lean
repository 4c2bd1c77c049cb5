import TieredStore.Log.Append
import TieredStore.Proofs.Log.Surveying

/-!
# The log of any directory

The ledgers are taken in one after the other, by induction on those that are left:
the pages so far have consecutive sequence numbers, and the next page either goes
on from them or is refused.  So a log is opened exactly from a legible directory
whose newest page can be cut, and the pages say what it is.  The pages that have
been cut are legible again, which is why opening a second time finds the same.
-/

namespace TieredStore

open SequenceNumber

variable {ledgers : Ledgers} {before pages : List Page} {page : Page} {id : LedgerId}
  {ids : List LedgerId} {config : Config} {log : Log}

/-!
## Pages that go on
-/

namespace Ledgers

theorem continue_nil (h : Consecutive (before.flatMap Page.seqs)) :
    ledgers.Continue before [] [] :=
  { ids_eq := rfl
    bytes := fun _ hpage => nomatch hpage
    whole := fun _ hpage => nomatch hpage
    consecutive := by rw [List.append_nil]; exact h }

theorem continue_cons_iff :
    ledgers.Continue before (id :: ids) pages ↔
      ∃ page more, pages = page :: more ∧ page.id = id ∧ ledgers.bytes? id = some page.bytes ∧
        (ids.isEmpty = true ∨ page.rest = []) ∧ ledgers.Continue (before ++ [page]) ids more := by
  constructor
  · intro h
    rcases List.map_eq_cons_iff.mp h.ids_eq with ⟨page, more, rfl, rfl, hids⟩
    refine ⟨page, more, rfl, rfl, h.bytes page List.mem_cons_self, ?_, hids, ?_, ?_, ?_⟩
    · cases more with
      | nil => exact Or.inl (by rw [← hids]; rfl)
      | cons next rest => exact Or.inr (h.whole page List.mem_cons_self)
    · intro other hother
      exact h.bytes other (List.mem_cons_of_mem _ hother)
    · intro other hother
      apply h.whole other
      cases more with
      | nil => cases hother
      | cons next rest => exact List.mem_cons_of_mem _ hother
    · have hall := h.consecutive
      rwa [List.append_cons] at hall
  · rintro ⟨page, more, rfl, rfl, hbytes, hend, hmore⟩
    refine ⟨congrArg (page.id :: ·) hmore.ids_eq, ?_, ?_, ?_⟩
    · intro other hother
      rcases List.mem_cons.mp hother with rfl | hmem
      · exact hbytes
      · exact hmore.bytes other hmem
    · intro other hother
      cases more with
      | nil => cases hother
      | cons next rest =>
          rcases List.mem_cons.mp hother with rfl | hmem
          · rcases hend with hempty | hwhole
            · rw [← hmore.ids_eq] at hempty
              cases hempty
            · exact hwhole
          · exact hmore.whole other hmem
    · have hall := hmore.consecutive
      rwa [← List.append_cons] at hall

theorem Continue.unique {others : List Page} (h : ledgers.Continue before ids pages)
    (hothers : ledgers.Continue before ids others) : pages = others :=
  Page.eq_of_bytesOf (h.ids_eq.trans hothers.ids_eq.symm) h.bytes hothers.bytes

theorem Continue.mem_of_bytes (h : ledgers.Continue before ids pages) (hid : page.id ∈ ids)
    (hbytes : ledgers.bytes? page.id = some page.bytes) : page ∈ pages := by
  rw [← h.ids_eq] at hid
  rcases List.mem_map.mp hid with ⟨other, hother, heq⟩
  have heq : other.id = page.id := heq
  have hfound := h.bytes other hother
  rw [heq] at hfound
  rwa [page_unique heq hfound rfl hbytes]

theorem Continue.newest_of_torn (h : ledgers.Continue before ids pages) (hpage : page ∈ pages)
    (hrest : page.rest ≠ []) : pages.getLast? = some page := by
  rcases List.eq_nil_or_concat pages with rfl | ⟨older, newest, rfl⟩
  · cases hpage
  rw [List.concat_eq_append] at h hpage ⊢
  rw [List.getLast?_concat]
  rcases List.mem_append.mp hpage with hmem | hmem
  · rw [h.whole page (by rwa [List.dropLast_concat])] at hrest
    exact absurd rfl hrest
  · rw [List.mem_singleton.mp hmem]

theorem Continue.front (h : ledgers.Continue before ids pages) :
    Consecutive (before.flatMap Page.seqs) := by
  have hall := h.consecutive
  rw [List.flatMap_append] at hall
  unfold Consecutive at hall ⊢
  exact (List.isChain_append.mp hall).1

theorem settledAfter_cons (page next : Page) (rest : List Page) :
    ledgers.settledAfter (page :: next :: rest) = ledgers.settledAfter (next :: rest) := by
  unfold settledAfter
  rw [List.getLast?_cons_cons]

end Ledgers

namespace Log

/-- What keeps ledgers from being taken in. -/
def Refused (ledgers : Ledgers) (before : List Page) (ids : List LedgerId) (e : Error) : Prop :=
  (∃ id ∈ ids, ledgers.bytes? id = none) ∨ (∃ id ∈ ids, ledgers.Stuck id) ∨
    e.fatal = true ∧ ¬ ∃ pages, ledgers.Continue before ids pages

theorem Refused.cons {e : Error} (hbytes : ledgers.bytes? page.id = some page.bytes)
    (h : Refused ledgers (before ++ [page]) ids e) :
    Refused ledgers before (page.id :: ids) e := by
  rcases h with ⟨missing, hmem, hmissing⟩ | ⟨stuck, hmem, hstuck⟩ | ⟨hfatal, hnone⟩
  · exact Or.inl ⟨missing, List.mem_cons_of_mem _ hmem, hmissing⟩
  · exact Or.inr (Or.inl ⟨stuck, List.mem_cons_of_mem _ hmem, hstuck⟩)
  · refine Or.inr (Or.inr ⟨hfatal, ?_⟩)
    rintro ⟨pages, hpages⟩
    rcases Ledgers.continue_cons_iff.mp hpages with ⟨other, more, -, hid, hother, -, hmore⟩
    rw [Ledgers.page_unique rfl hbytes hid hother] at hmore
    exact hnone ⟨more, hmore⟩

theorem loadLedgers_pages :
    ∀ {ids : List LedgerId} {before : List Page} {ledgers : Ledgers},
      Consecutive (before.flatMap Page.seqs) →
      Ends (loadLedgers (before.map Page.info) ids) ledgers
        (fun infos after => ∃ pages, ledgers.Continue before ids pages ∧
          infos = (before ++ pages).map Page.info ∧ after = ledgers.settledAfter pages)
        (fun e after => Refused ledgers before ids e ∧ ledgers.AtMostCut ids after)
  | [], before, ledgers, hbefore => by
      refine Ends.pure ⟨[], Ledgers.continue_nil hbefore, ?_, rfl⟩
      rw [List.append_nil]
  | id :: rest, before, ledgers, hbefore => by
      unfold loadLedgers
      refine Ends.bind ((loadLedger_page ledgers id rest.isEmpty hbefore).mono ?_ ?_)
      · rintro _ after ⟨page, rfl, hbytes, hend, hnext, rfl, rfl⟩
        have hknown : before.map Page.info ++ [page.info] = (before ++ [page]).map Page.info := by
          rw [List.map_append, List.map_singleton]
        rw [hknown]
        cases rest with
        | nil =>
            have hlast : ledgers.Continue (before ++ [page]) [] [] := Ledgers.continue_nil hnext
            exact Ends.pure ⟨[page],
              Ledgers.continue_cons_iff.mpr ⟨page, [], rfl, rfl, hbytes, hend, hlast⟩, rfl, rfl⟩
        | cons next more =>
            -- a ledger before the newest is whole, so the next one is opened in the same directory
            have hwhole : page.rest = [] := hend.resolve_left (by simp)
            rw [Ledgers.settled_of_rest hwhole]
            refine (loadLedgers_pages hnext).mono ?_ ?_
            · rintro infos after ⟨pages, hpages, hinfos, hafter⟩
              refine ⟨page :: pages,
                Ledgers.continue_cons_iff.mpr ⟨page, pages, rfl, rfl, hbytes, hend, hpages⟩, ?_, ?_⟩
              · rw [hinfos, List.append_assoc]
                rfl
              · rcases Ledgers.continue_cons_iff.mp hpages with ⟨second, third, rfl, -⟩
                rw [hafter, Ledgers.settledAfter_cons]
            · rintro e after ⟨hrefused, hcut⟩
              exact ⟨hrefused.cons hbytes, hcut.mono (List.subset_cons_self _ _)⟩
      · intro e after hdeclined
        refine ⟨?_, hdeclined.atMostCut.mono (List.cons_subset_cons _ (List.nil_subset _))⟩
        rcases hdeclined.cause with hmissing | hstuck | ⟨hfatal, hgap⟩
        · exact Or.inl ⟨id, List.mem_cons_self, hmissing⟩
        · exact Or.inr (Or.inl ⟨id, List.mem_cons_self, hstuck⟩)
        · refine Or.inr (Or.inr ⟨hfatal, ?_⟩)
          rintro ⟨pages, hpages⟩
          rcases Ledgers.continue_cons_iff.mp hpages with ⟨page, more, -, hid, hbytes, hend, hmore⟩
          exact hgap page hid hbytes hend hmore.front

/-!
## The log
-/

def ofPages (config : Config) (ledgers : Ledgers) (pages : List Page) : Log :=
  { medium := ledgers.settledAfter pages
    ledgers := pages.map Page.info
    writer := pages.getLast?.bind fun newest =>
      ((ledgers.settledAfter pages).attach newest.id).toOption
    nextSeq := ((pages.flatMap Page.seqs).getLast?.map next).getD .first
    maxLedgerSize := config.maxLedgerSize
    syncOnAppend := config.syncOnAppend }

theorem nextAfter_pages (pages : List Page) :
    nextAfter (pages.map Page.info) = ((pages.flatMap Page.seqs).getLast?.map next).getD .first := by
  unfold nextAfter
  rw [lastOf_pages]
  cases (pages.flatMap Page.seqs).getLast? with
  | none => rfl
  | some last => rfl

theorem loadWriter_pages (h : ledgers.Continue before ids pages) :
    Ends (loadWriter ids) (ledgers.settledAfter pages)
      (fun writer after => after = ledgers.settledAfter pages ∧
        writer = pages.getLast?.bind fun newest =>
          ((ledgers.settledAfter pages).attach newest.id).toOption)
      (fun _ _ => False) := by
  rcases List.eq_nil_or_concat pages with rfl | ⟨older, newest, rfl⟩
  · rw [← h.ids_eq]
    exact Ends.pure ⟨rfl, rfl⟩
  rw [List.concat_eq_append] at h ⊢
  have hbytes : (ledgers.settledAfter (older ++ [newest])).bytes? newest.id =
      some newest.cut.bytes := by
    unfold Ledgers.settledAfter
    rw [List.getLast?_concat]
    exact Ledgers.bytes?_settled (h.bytes newest (by simp))
  have hlast : ids.getLast? = some newest.id := by
    rw [← h.ids_eq, List.map_append, List.map_singleton, List.getLast?_concat]
  rw [List.getLast?_concat, Option.bind_some]
  cases ids with
  | nil => cases hlast
  | cons id rest =>
      rw [List.getLast?_eq_some_getLast (List.cons_ne_nil _ _), Option.some.injEq] at hlast
      show Ends (do return some (← LoadM.attach ((id :: rest).getLast _))) _ _ _
      rw [hlast]
      refine Ends.bind ((LoadM.attach_of_bytes? hbytes).mono ?_ (fun _ _ hfalse => hfalse))
      rintro handle _ ⟨rfl, hattach, -⟩
      refine Ends.pure ⟨rfl, ?_⟩
      rw [hattach]
      rfl

theorem loadAll_pages (ledgers : Ledgers) :
    Ends loadAll ledgers
      (fun found after => ∃ pages, ledgers.Legible pages ∧ found.1 = pages.map Page.info ∧
        after = ledgers.settledAfter pages ∧
        found.2 = pages.getLast?.bind fun newest => (after.attach newest.id).toOption)
      (fun e after => Refused ledgers [] ledgers.list e ∧
        ledgers.AtMostCut ledgers.list after) := by
  unfold loadAll
  refine Ends.get ?_
  have hfirst : Consecutive (([] : List Page).flatMap Page.seqs) := List.isChain_nil
  refine Ends.bind ((loadLedgers_pages hfirst).mono ?_ (fun _ _ hrefused => hrefused))
  rintro infos _ ⟨pages, hpages, rfl, rfl⟩
  refine Ends.bind ((loadWriter_pages hpages).mono ?_ (fun _ _ hfalse => hfalse.elim))
  rintro writer _ ⟨rfl, hwriter⟩
  exact Ends.pure ⟨pages, hpages, rfl, rfl, hwriter⟩

/--
A log is opened from a legible directory only, and its pages say what it is.  A
directory that is refused has at most been cut.
-/
theorem load_pages (config : Config) (ledgers : Ledgers) :
    match load config ledgers with
    | .ok log => ∃ pages, ledgers.Legible pages ∧ log = ofPages config ledgers pages
    | .error (e, after) =>
        Refused ledgers [] ledgers.list e ∧ ledgers.AtMostCut ledgers.list after := by
  have hload := loadAll_pages ledgers
  unfold Ends at hload
  unfold load
  split at hload
  · rename_i found medium hrun
    rcases found with ⟨infos, writer⟩
    rcases hload with ⟨pages, hpages, hinfos, rfl, hwriter⟩
    have hinfos : infos = pages.map Page.info := hinfos
    have hwriter : writer = _ := hwriter
    rw [hrun, hinfos, hwriter]
    refine ⟨pages, hpages, ?_⟩
    unfold ofPages
    rw [nextAfter_pages]
  · rename_i hrun
    rw [hrun]
    exact hload

theorem pages_of_load (h : load config ledgers = .ok log) :
    ∃ pages, ledgers.Legible pages ∧ log = ofPages config ledgers pages := by
  have hload := load_pages config ledgers
  rwa [h] at hload

/-- Nothing but a torn newest page under a fault keeps a legible directory from being opened. -/
theorem load_of_legible (h : ledgers.Legible pages)
    (hnewest : ∀ newest ∈ pages.getLast?, newest.rest = [] ∨ ¬ ledgers.Faulty) (config : Config) :
    load config ledgers = .ok (ofPages config ledgers pages) := by
  have hload := load_pages config ledgers
  cases hrun : load config ledgers with
  | ok log =>
      rw [hrun] at hload
      rcases hload with ⟨others, hothers, rfl⟩
      rw [h.unique hothers]
  | error failed =>
      rw [hrun] at hload
      rcases hload.1 with ⟨id, hid, hmissing⟩ | ⟨id, hid, other, heq, hother, hrest, hfaulty⟩ |
        ⟨-, hnone⟩
      · rw [← h.ids_eq] at hid
        rcases List.mem_map.mp hid with ⟨page, hpage, rfl⟩
        rw [h.bytes page hpage] at hmissing
        cases hmissing
      · subst heq
        have hmem := h.mem_of_bytes hid hother
        rcases hnewest other (h.newest_of_torn hmem hrest) with hwhole | hsound
        · exact (hrest hwhole).elim
        · exact (hsound hfaulty).elim
      · exact (hnone ⟨pages, h⟩).elim

/-- Where nothing fails, a directory that cannot be opened is not legible, and the error is fatal. -/
theorem fatal_of_load {e : Error} {after : Ledgers} (h : load config ledgers = .error (e, after))
    (hthere : ∀ id ∈ ledgers.list, ledgers.bytes? id ≠ none) (hsound : ¬ ledgers.Faulty) :
    e.fatal = true ∧ ¬ ∃ pages, ledgers.Legible pages := by
  have hload := load_pages config ledgers
  rw [h] at hload
  rcases hload.1 with ⟨id, hid, hmissing⟩ | ⟨id, -, page, -, -, -, hfaulty⟩ | hfatal
  · exact (hthere id hid hmissing).elim
  · exact (hsound hfaulty).elim
  · exact hfatal

end Log

/-!
## What opening leaves
-/

namespace Ledgers

theorem directory_settledAfter (ledgers : Ledgers) (pages : List Page) :
    (ledgers.settledAfter pages).directory = ledgers.directory := by
  unfold settledAfter
  split
  · exact directory_settled _ _
  · rfl

theorem list_settledAfter (ledgers : Ledgers) (pages : List Page) :
    (ledgers.settledAfter pages).list = ledgers.list := by
  unfold list
  rw [directory_settledAfter]

theorem settledAfter_of_whole (h : ∀ newest ∈ pages.getLast?, newest.rest = []) :
    ledgers.settledAfter pages = ledgers := by
  unfold settledAfter
  cases hlast : pages.getLast? with
  | none => rfl
  | some newest => exact settled_of_rest (h newest hlast)

theorem Legible.consecutive_of_mem (h : ledgers.Legible pages) (hpage : page ∈ pages) :
    Consecutive page.seqs := by
  have hconsecutive := h.consecutive
  rcases List.append_of_mem hpage with ⟨older, newer, rfl⟩
  rw [List.nil_append, List.flatMap_append, List.flatMap_cons] at hconsecutive
  exact (List.isChain_append.mp (List.isChain_append.mp hconsecutive).2.1).1

theorem Legible.bytes?_settledAfter (h : ledgers.Legible pages) (hpage : page ∈ pages) :
    (ledgers.settledAfter pages).bytes? page.id = some page.cut.bytes := by
  rcases List.eq_nil_or_concat pages with rfl | ⟨older, newest, rfl⟩
  · cases hpage
  rw [List.concat_eq_append] at h hpage ⊢
  have hnewest := h.bytes newest (by simp)
  unfold settledAfter
  rw [List.getLast?_concat]
  rcases List.mem_append.mp hpage with holder | hlast
  · have hwhole : page.rest = [] := h.whole page (by rwa [List.dropLast_concat])
    rw [Page.cut_of_rest hwhole]
    exact bytes?_settled_of_whole hnewest (h.bytes page hpage) hwhole
  · rw [List.mem_singleton.mp hlast]
    exact bytes?_settled hnewest

theorem Legible.settledAfter (h : ledgers.Legible pages) :
    (ledgers.settledAfter pages).Legible (pages.map Page.cut) := by
  constructor
  · rw [list_settledAfter, ← h.ids_eq, List.map_map]
    rfl
  · intro page hpage
    rcases List.mem_map.mp hpage with ⟨other, hother, rfl⟩
    rw [Page.id_cut]
    exact h.bytes?_settledAfter hother
  · intro page hpage
    rcases List.mem_map.mp (List.dropLast_subset _ hpage) with ⟨other, -, rfl⟩
    rfl
  · have hall := h.consecutive
    rw [List.nil_append] at hall ⊢
    rw [List.flatMap_map]
    exact hall

end Ledgers

namespace Log

/-- Opening what opening has left finds the same log and changes nothing. -/
theorem load_again (h : load config ledgers = .ok log) (config' : Config) :
    load config' log.medium =
      .ok { log with
            maxLedgerSize := config'.maxLedgerSize
            syncOnAppend := config'.syncOnAppend } := by
  rcases pages_of_load h with ⟨pages, hpages, rfl⟩
  have hcut : ∀ newest ∈ (pages.map Page.cut).getLast?, newest.rest = [] := by
    intro newest hnewest
    rw [List.getLast?_map] at hnewest
    rcases Option.map_eq_some_iff.mp hnewest with ⟨page, -, rfl⟩
    rfl
  show load config' (ledgers.settledAfter pages) = _
  rw [load_of_legible hpages.settledAfter (fun newest hnewest => Or.inl (hcut newest hnewest))]
  have hsame : (ledgers.settledAfter pages).settledAfter (pages.map Page.cut) =
      ledgers.settledAfter pages := Ledgers.settledAfter_of_whole hcut
  unfold ofPages
  rw [hsame]
  simp only [List.map_map, List.flatMap_map, List.getLast?_map, Option.bind_map]
  rfl

/--
Opening cuts only an unfinished tail.  Its answer says what the ledgers hold, and
opening once more gives the same answer.
-/
theorem load_cuts_unfinished (h : load config ledgers = .ok log) :
    ∃ pages, ledgers.Legible pages ∧ Consecutive (pages.flatMap Page.seqs) ∧
      log.medium.directory = ledgers.directory ∧
      (∀ page ∈ pages.dropLast, log.medium.bytes? page.id = ledgers.bytes? page.id) ∧
      (∀ newest ∈ pages.getLast?,
        ledgers.bytes? newest.id = some (StoredRecord.frames newest.records ++ newest.rest) ∧
        log.medium.bytes? newest.id = some (StoredRecord.frames newest.records)) ∧
      log.ledgers = pages.map Page.info ∧
      log.nextSeq = ((pages.flatMap Page.seqs).getLast?.map next).getD .first ∧
      ∀ config', load config' log.medium =
        .ok { log with
              maxLedgerSize := config'.maxLedgerSize
              syncOnAppend := config'.syncOnAppend } := by
  have hagain := load_again h
  rcases pages_of_load h with ⟨pages, hpages, rfl⟩
  have hconsecutive := hpages.consecutive
  rw [List.nil_append] at hconsecutive
  refine ⟨pages, hpages, hconsecutive, Ledgers.directory_settledAfter _ _, ?_, ?_, rfl, rfl, hagain⟩
  · intro page hpage
    have hmem := List.dropLast_subset _ hpage
    have hafter := hpages.bytes?_settledAfter hmem
    rw [Page.cut_of_rest (hpages.whole page hpage)] at hafter
    rw [hpages.bytes page hmem]
    exact hafter
  · intro newest hnewest
    have hmem := List.mem_of_getLast? hnewest
    refine ⟨hpages.bytes newest hmem, ?_⟩
    rw [← Page.bytes_cut]
    exact hpages.bytes?_settledAfter hmem

/-- A record, an empty ledger behind it and a ledger that is torn from its first byte. -/
private def tornFromStart : Ledgers :=
  { directory := .memory (.ofList [(1, 0), (2, 1), (7, 2)]) {}
    objects := [((Frame.ofOperation 9 (.create 1 "a")).toOption).getD [], [], [83, 83]] }

theorem load_cuts_unfinished_from_start :
    ∃ log, load {} tornFromStart = .ok log ∧ log.nextSeq = 10 ∧
      log.ledgers.map (·.size) = [33, 0, 0] ∧ log.medium.bytes? 7 = some [] ∧
      ∃ again, load { maxLedgerSize := 1 } log.medium = .ok again ∧
        again.ledgers = log.ledgers ∧ again.medium = log.medium := by
  have hfound : (load {} tornFromStart).toOption.map (fun log =>
      (log.nextSeq, log.ledgers.map (·.size), log.medium.bytes? 7)) =
      some (10, [33, 0, 0], some []) := by decide +kernel
  cases hload : load {} tornFromStart with
  | error failed =>
      rw [hload] at hfound
      cases hfound
  | ok log =>
      rw [hload] at hfound
      simp only [Except.toOption, Option.map_some, Option.some.injEq, Prod.mk.injEq] at hfound
      rcases hfound with ⟨hnextSeq, hsizes, hbytes⟩
      rcases load_cuts_unfinished hload with ⟨_, _, _, _, _, _, _, _, hagain⟩
      exact ⟨log, rfl, hnextSeq, hsizes, hbytes, _, hagain _, rfl, rfl⟩

end Log
end TieredStore
