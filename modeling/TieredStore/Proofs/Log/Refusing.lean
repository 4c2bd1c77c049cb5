import TieredStore.Proofs.Log.Loading

/-!
# What a refused opening leaves

Opening looks at one ledger after the other and cuts the torn end of the newest
before it compares the newest with the others.  Whatever it has refused up to that
point it has left as it was: the ledgers before the newest are never cut.  The one
refusal that comes after the cut is a gap in front of the newest ledger, so what a
refused opening changes is the torn end of a newest ledger that does not go on from
the others, and nothing but that.
-/

namespace TieredStore

open SequenceNumber

variable {ledgers after : Ledgers} {before older older' : List Page} {page newest newest' : Page}
  {id : LedgerId} {ids : List LedgerId} {config : Config} {e : Error}

/--
The ledgers before the newest can be read as a log of whole pages.  The newest is
sound up to a torn end, but its records do not go on from theirs.
-/
structure Ledgers.TornBehindGap (ledgers : Ledgers) (before : List Page) (ids : List LedgerId)
    (older : List Page) (newest : Page) : Prop where
  ids_eq : older.map (·.id) ++ [newest.id] = ids
  front : ledgers.Continue before (older.map (·.id)) older
  whole : ∀ page ∈ older, page.rest = []
  bytes : ledgers.bytes? newest.id = some newest.bytes
  torn : newest.rest ≠ []
  own : Consecutive newest.seqs
  gap : ¬ Consecutive ((before ++ older ++ [newest]).flatMap Page.seqs)

namespace Ledgers

theorem TornBehindGap.bytes_of_mem (h : ledgers.TornBehindGap before ids older newest)
    (hpage : page ∈ older ++ [newest]) : ledgers.bytes? page.id = some page.bytes := by
  rcases List.mem_append.mp hpage with holder | hnewest
  · exact h.front.bytes page holder
  · rw [List.mem_singleton.mp hnewest]
    exact h.bytes

theorem TornBehindGap.unique (h : ledgers.TornBehindGap before ids older newest)
    (h' : ledgers.TornBehindGap before ids older' newest') :
    older ++ [newest] = older' ++ [newest'] := by
  have hids : (older ++ [newest]).map (·.id) = (older' ++ [newest']).map (·.id) := by
    rw [List.map_append, List.map_append, List.map_singleton, List.map_singleton, h.ids_eq,
      h'.ids_eq]
  exact Page.eq_of_bytesOf hids (fun _ => h.bytes_of_mem) fun _ => h'.bytes_of_mem

theorem TornBehindGap.not_continue {pages : List Page}
    (h : ledgers.TornBehindGap before ids older newest) :
    ¬ ledgers.Continue before ids pages := by
  intro hpages
  have hids : pages.map (·.id) = (older ++ [newest]).map (·.id) := by
    rw [hpages.ids_eq, List.map_append, List.map_singleton, h.ids_eq]
  have hall := hpages.consecutive
  rw [Page.eq_of_bytesOf hids hpages.bytes fun _ => h.bytes_of_mem, ← List.append_assoc] at hall
  exact h.gap hall

theorem tornBehindGap_nil (hbefore : Consecutive (before.flatMap Page.seqs))
    (hbytes : ledgers.bytes? page.id = some page.bytes) (htorn : page.rest ≠ [])
    (hown : Consecutive page.seqs)
    (hgap : ¬ Consecutive ((before ++ [page]).flatMap Page.seqs)) :
    ledgers.TornBehindGap before [page.id] [] page :=
  { ids_eq := rfl
    front := continue_nil hbefore
    whole := fun _ hpage => nomatch hpage
    bytes := hbytes
    torn := htorn
    own := hown
    gap := by rwa [List.append_nil] }

theorem TornBehindGap.cons (h : ledgers.TornBehindGap (before ++ [page]) ids older newest)
    (hbytes : ledgers.bytes? page.id = some page.bytes) (hwhole : page.rest = []) :
    ledgers.TornBehindGap before (page.id :: ids) (page :: older) newest :=
  { ids_eq := congrArg (page.id :: ·) h.ids_eq
    front := continue_cons_iff.mpr ⟨page, older, rfl, rfl, hbytes, Or.inr hwhole, h.front⟩
    whole := List.forall_mem_cons.mpr ⟨hwhole, h.whole⟩
    bytes := h.bytes
    torn := h.torn
    own := h.own
    gap := by
      have hgap := h.gap
      rwa [List.append_assoc before, List.singleton_append] at hgap }

theorem TornBehindGap.cases (h : ledgers.TornBehindGap before (id :: ids) older newest) :
    (older = [] ∧ ids = [] ∧ newest.id = id) ∨
      ∃ page more, older = page :: more ∧ page.id = id ∧
        ledgers.bytes? id = some page.bytes ∧ page.rest = [] ∧
        Consecutive ((before ++ [page]).flatMap Page.seqs) ∧
        ledgers.TornBehindGap (before ++ [page]) ids more newest := by
  cases older with
  | nil =>
      rcases List.cons_eq_cons.mp h.ids_eq with ⟨hid, hids⟩
      exact Or.inl ⟨rfl, hids.symm, hid⟩
  | cons page more =>
      rcases List.cons_eq_cons.mp h.ids_eq with ⟨hid, hids⟩
      have hid : page.id = id := hid
      have hfront := h.front
      rw [List.map_cons] at hfront
      rcases continue_cons_iff.mp hfront with ⟨_, _, heq, -, hbytes, -, hmore⟩
      rcases List.cons_eq_cons.mp heq with ⟨rfl, rfl⟩
      refine Or.inr ⟨page, more, rfl, hid, by rw [← hid]; exact hbytes,
        h.whole page List.mem_cons_self, hmore.front, ?_⟩
      exact
        { ids_eq := hids
          front := hmore
          whole := fun other hother => h.whole other (List.mem_cons_of_mem _ hother)
          bytes := h.bytes
          torn := h.torn
          own := h.own
          gap := by
            rw [List.append_assoc before, List.singleton_append]
            exact h.gap }

end Ledgers

namespace Log

def Left (ledgers : Ledgers) (before : List Page) (ids : List LedgerId) (after : Ledgers) : Prop :=
  (after = ledgers ∧ ¬ ∃ older newest, ledgers.TornBehindGap before ids older newest) ∨
    ∃ older newest, ledgers.TornBehindGap before ids older newest ∧ after = ledgers.settled newest

theorem Declined.left (h : Declined ledgers before id ids.isEmpty e after)
    (hsound : ¬ ledgers.Faulty) (hbefore : Consecutive (before.flatMap Page.seqs)) :
    Left ledgers before (id :: ids) after := by
  cases h with
  | missing hmissing hsame =>
      refine Or.inl ⟨hsame, ?_⟩
      rintro ⟨older, newest, htorn⟩
      rcases htorn.cases with ⟨-, -, rfl⟩ | ⟨page, -, -, -, hbytes, -⟩
      · rw [htorn.bytes] at hmissing
        cases hmissing
      · rw [hbytes] at hmissing
        cases hmissing
  | stuck hstuck hcut =>
      rcases hstuck with ⟨-, -, -, -, hfaulty⟩
      exact absurd hfaulty hsound
  | unsound hfatal hsame hnone =>
      refine Or.inl ⟨hsame, ?_⟩
      rintro ⟨older, newest, htorn⟩
      rcases htorn.cases with ⟨-, rfl, rfl⟩ | ⟨page, -, -, hid, hbytes, hwhole, hnext, -⟩
      · exact hnone newest rfl htorn.bytes (Or.inl rfl) htorn.own
      · rw [List.flatMap_append, List.flatMap_singleton] at hnext
        exact hnone page hid hbytes (Or.inr hwhole) (List.isChain_append.mp hnext).2.1
  | gap page hfatal hid hbytes hend hown hgap hcut =>
      subst hid
      by_cases hrest : page.rest = []
      · rw [Ledgers.settled_of_rest hrest] at hcut
        refine Or.inl ⟨hcut, ?_⟩
        rintro ⟨older, newest, htorn⟩
        rcases htorn.cases with ⟨-, -, hid⟩ | ⟨other, -, -, hid, hother, -, hnext, -⟩
        · have hnewest := htorn.bytes
          rw [hid] at hnewest
          rw [← Ledgers.page_unique rfl hbytes hid hnewest] at hrest
          exact htorn.torn hrest
        · rw [Ledgers.page_unique rfl hbytes hid hother] at hnext
          exact hgap hnext
      · have hlast : ids = [] := List.isEmpty_iff.mp (hend.resolve_right hrest)
        subst hlast
        exact Or.inr ⟨[], page, Ledgers.tornBehindGap_nil hbefore hbytes hrest hown hgap, hcut⟩

theorem Left.cons (h : Left ledgers (before ++ [page]) ids after)
    (hbytes : ledgers.bytes? page.id = some page.bytes) (hwhole : page.rest = [])
    (hmore : ids ≠ []) : Left ledgers before (page.id :: ids) after := by
  rcases h with ⟨hsame, hnone⟩ | ⟨older, newest, htorn, hcut⟩
  · refine Or.inl ⟨hsame, ?_⟩
    rintro ⟨older, newest, htorn⟩
    rcases htorn.cases with ⟨-, hids, -⟩ | ⟨other, more, -, hid, hother, -, -, hrest⟩
    · exact hmore hids
    · rw [Ledgers.page_unique rfl hbytes hid hother] at hrest
      exact hnone ⟨more, newest, hrest⟩
  · exact Or.inr ⟨page :: older, newest, htorn.cons hbytes hwhole, hcut⟩

/-- By induction on the ledgers that are left, with the pages taken in so far. -/
theorem loadLedgers_left (hsound : ¬ ledgers.Faulty) :
    ∀ {ids : List LedgerId} {before : List Page}, Consecutive (before.flatMap Page.seqs) →
      Ends (loadLedgers (before.map Page.info) ids) ledgers (fun _ _ => True)
        (fun _ after => Left ledgers before ids after)
  | [], before, _ => Ends.pure trivial
  | id :: rest, before, hbefore => by
      unfold loadLedgers
      refine Ends.bind ((loadLedger_page ledgers id rest.isEmpty hbefore).mono ?_ ?_)
      · rintro _ after ⟨page, rfl, hbytes, hend, hnext, rfl, rfl⟩
        have hknown : before.map Page.info ++ [page.info] = (before ++ [page]).map Page.info := by
          rw [List.map_append, List.map_singleton]
        rw [hknown]
        cases rest with
        | nil => exact Ends.pure trivial
        | cons next more =>
            have hwhole : page.rest = [] := hend.resolve_left (by simp)
            rw [Ledgers.settled_of_rest hwhole]
            refine (loadLedgers_left hsound hnext).mono (fun _ _ _ => trivial) ?_
            intro _ after hleft
            exact hleft.cons hbytes hwhole (List.cons_ne_nil _ _)
      · intro e after hdeclined
        exact hdeclined.left hsound hbefore

theorem loadAll_left (hsound : ¬ ledgers.Faulty) :
    Ends loadAll ledgers (fun _ _ => True)
      (fun _ after => Left ledgers [] ledgers.list after) := by
  have hfirst : Consecutive (([] : List Page).flatMap Page.seqs) := List.isChain_nil
  unfold loadAll
  refine Ends.get (Ends.bind
    (((loadLedgers_pages hfirst).and (loadLedgers_left hsound hfirst)).mono ?_ ?_))
  · rintro infos _ ⟨⟨pages, hpages, -, rfl⟩, -⟩
    refine Ends.bind ((loadWriter_pages hpages).mono ?_ (fun _ _ hfalse => hfalse.elim))
    exact fun _ _ _ => Ends.pure trivial
  · exact fun _ _ h => h.2

theorem left_of_load (hsound : ¬ ledgers.Faulty)
    (h : load config ledgers = .error (e, after)) : Left ledgers [] ledgers.list after := by
  have hleft := loadAll_left hsound
  unfold load at h
  unfold Ends at hleft
  split at h
  · rename_i hrun
    rw [hrun] at hleft
    cases h
    exact hleft
  · cases h

theorem load_of_tornBehindGap (hsound : ¬ ledgers.Faulty)
    (h : ledgers.TornBehindGap [] ledgers.list older newest) (config : Config) :
    ∃ e, e.fatal = true ∧ load config ledgers = .error (e, ledgers.settled newest) := by
  cases hload : load config ledgers with
  | ok log =>
      rcases pages_of_load hload with ⟨pages, hpages, -⟩
      exact absurd hpages h.not_continue
  | error failed =>
      rcases failed with ⟨e, after⟩
      have hthere : ∀ id ∈ ledgers.list, ledgers.bytes? id ≠ none := by
        intro id hid
        rw [← h.ids_eq, ← List.map_singleton, ← List.map_append] at hid
        rcases List.mem_map.mp hid with ⟨page, hpage, rfl⟩
        rw [h.bytes_of_mem hpage]
        exact Option.some_ne_none _
      have hfatal := (fatal_of_load hload hthere hsound).1
      rcases left_of_load hsound hload with ⟨-, hnone⟩ | ⟨older', newest', h', rfl⟩
      · exact absurd ⟨older, newest, h⟩ hnone
      · rcases List.append_inj' (h.unique h') rfl with ⟨-, hsame⟩
        cases hsame
        exact ⟨e, hfatal, rfl⟩

/--
An opening that is refused changes nothing unless the newest ledger is torn behind a
gap.  Such a directory is always refused, and the torn end is all that it loses.
-/
theorem refused_unchanged_iff (hsound : ¬ ledgers.Faulty) (config : Config) :
    ((∀ e after, load config ledgers = .error (e, after) →
        ∀ id, after.bytes? id = ledgers.bytes? id) ↔
      ¬ ∃ older newest, ledgers.TornBehindGap [] ledgers.list older newest) ∧
    ∀ older newest, ledgers.TornBehindGap [] ledgers.list older newest →
      ∃ e after, load config ledgers = .error (e, after) ∧ e.fatal = true ∧
        after.directory = ledgers.directory ∧
        (∀ page ∈ older, after.bytes? page.id = ledgers.bytes? page.id) ∧
        ledgers.bytes? newest.id =
          some (StoredRecord.frames newest.records ++ newest.rest) ∧
        after.bytes? newest.id = some (StoredRecord.frames newest.records) := by
  refine ⟨⟨?_, ?_⟩, ?_⟩
  · rintro hsame ⟨older, newest, htorn⟩
    rcases load_of_tornBehindGap hsound htorn config with ⟨e, -, hload⟩
    have hbytes := hsame e _ hload newest.id
    rw [Ledgers.bytes?_settled htorn.bytes, htorn.bytes, Page.bytes_cut] at hbytes
    exact htorn.torn (List.self_eq_append_right.mp (Option.some.inj hbytes))
  · intro hnone e after hload id
    rcases left_of_load hsound hload with ⟨rfl, -⟩ | ⟨older, newest, htorn, -⟩
    · rfl
    · exact absurd ⟨older, newest, htorn⟩ hnone
  · intro older newest htorn
    rcases load_of_tornBehindGap hsound htorn config with ⟨e, hfatal, hload⟩
    refine ⟨e, _, hload, hfatal, Ledgers.directory_settled _ _, ?_, htorn.bytes, ?_⟩
    · intro page hpage
      have hbytes := htorn.front.bytes page hpage
      rw [Ledgers.bytes?_settled_of_whole htorn.bytes hbytes (htorn.whole page hpage), hbytes]
    · rw [← Page.bytes_cut]
      exact Ledgers.bytes?_settled htorn.bytes

private def firstPage : Page :=
  { id := 1
    records :=
      [{ bytes := [5, 0, 0, 0, 0, 0, 0, 0, 0, 1, 0, 0, 0, 0, 0, 0, 0, 1, 0, 1, 97]
         header := { kind := .create, version := 0, seq := 1 }
         fits := by decide
         decodes := rfl }]
    rest := []
    unfinished := Frame.unfinished_nil }

private def pastGap : Page :=
  { id := 7
    records :=
      [{ bytes := [5, 0, 0, 0, 0, 0, 0, 0, 0, 3, 0, 0, 0, 0, 0, 0, 0, 3, 0, 1, 99]
         header := { kind := .create, version := 0, seq := 3 }
         fits := by decide
         decodes := rfl }]
    rest := [83, 83, 76, 71]
    unfinished := Or.inl (by decide) }

/-- A ledger, an empty one behind it and a torn one that leaves a number out. -/
private def tornPastGap : Ledgers :=
  { directory := .memory (.ofList [(1, 0), (2, 1), (7, 2)]) {}
    objects := [firstPage.bytes, [], pastGap.bytes] }

theorem refused_unchanged_iff_past_gap :
    ¬ tornPastGap.Faulty ∧
      tornPastGap.TornBehindGap [] tornPastGap.list
        [firstPage, ⟨2, [], [], Frame.unfinished_nil⟩] pastGap ∧
      ∃ e after, load {} tornPastGap = .error (e, after) ∧ e.fatal = true ∧
        after.bytes? 1 = some firstPage.bytes ∧ after.bytes? 2 = some [] ∧
        after.bytes? 7 = some (StoredRecord.frames pastGap.records) := by
  have hsound : ¬ tornPastGap.Faulty := by
    unfold Ledgers.Faulty
    decide
  have hfront : ∀ page ∈ [firstPage, ⟨2, [], [], Frame.unfinished_nil⟩],
      tornPastGap.bytes? page.id = some page.bytes ∧ page.rest = [] := by
    rintro page hpage
    rcases List.mem_cons.mp hpage with rfl | hempty
    · exact ⟨rfl, rfl⟩
    · rw [List.mem_singleton.mp hempty]
      exact ⟨rfl, rfl⟩
  have htorn : tornPastGap.TornBehindGap [] tornPastGap.list
      [firstPage, ⟨2, [], [], Frame.unfinished_nil⟩] pastGap :=
    { ids_eq := rfl
      front :=
        { ids_eq := rfl
          bytes := fun page hpage => (hfront page hpage).1
          whole := fun page hpage => (hfront page (List.dropLast_subset _ hpage)).2
          consecutive := List.isChain_singleton _ }
      whole := fun page hpage => (hfront page hpage).2
      bytes := rfl
      torn := List.cons_ne_nil _ _
      own := List.isChain_singleton _
      gap := by
        unfold Consecutive
        decide }
  rcases (refused_unchanged_iff hsound {}).2 _ _ htorn with
    ⟨e, after, hload, hfatal, -, hsame, -, hcut⟩
  refine ⟨hsound, htorn, e, after, hload, hfatal, ?_, ?_, hcut⟩
  · exact hsame firstPage List.mem_cons_self
  · exact hsame _ (List.mem_cons_of_mem _ List.mem_cons_self)

/-- The torn end is cut off before the gap in front of it is found. -/
theorem refused_changes_torn :
    ¬ tornPastGap.Faulty ∧ ∃ e after, load {} tornPastGap = .error (e, after) ∧
      after.bytes? 7 ≠ tornPastGap.bytes? 7 := by
  have hfound : (match load {} tornPastGap with
      | .ok _ => none
      | .error failed => failed.2.bytes? 7) = some (StoredRecord.frames pastGap.records) := by
    decide +kernel
  have hheld : tornPastGap.bytes? 7 = some pastGap.bytes := rfl
  refine ⟨by unfold Ledgers.Faulty; decide, ?_⟩
  cases hload : load {} tornPastGap with
  | ok log =>
      rw [hload] at hfound
      cases hfound
  | error failed =>
      rw [hload] at hfound
      have hfound : failed.2.bytes? 7 = _ := hfound
      refine ⟨failed.1, failed.2, rfl, ?_⟩
      rw [hheld, hfound]
      decide +kernel

end Log
end TieredStore
