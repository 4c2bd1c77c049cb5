import TieredStore.Log.Load
import TieredStore.Proofs.Ledger.Trimming

/-!
# Opening any directory

Opening takes the ledgers for pages, one after the other.  It succeeds exactly if
they are pages of which only the newest ends inside a frame and whose sequence
numbers are consecutive over all of them, and if no fault keeps that frame from
being cut off.  What the log then knows and what the ledgers then hold is said by
the pages alone.  If it fails, it has done no more than to cut a page to its
complete records.
-/

namespace TieredStore

open SequenceNumber

/--
The ledgers with these ids are these pages.  Only the last ends inside a frame,
and the sequence numbers go on from those of the pages before.
-/
structure Ledgers.Continue (ledgers : Ledgers) (before : List Page) (ids : List LedgerId)
    (pages : List Page) : Prop where
  ids_eq : pages.map (·.id) = ids
  bytes : ∀ page ∈ pages, ledgers.bytes? page.id = some page.bytes
  whole : ∀ page ∈ pages.dropLast, page.rest = []
  consecutive : Consecutive ((before ++ pages).flatMap Page.seqs)

/-- The directory can be read as a log, and these are its pages. -/
def Ledgers.Legible (ledgers : Ledgers) (pages : List Page) : Prop :=
  ledgers.Continue [] ledgers.list pages

/-- The ledger ends inside a frame, and a fault keeps that frame from being cut off. -/
def Ledgers.Stuck (ledgers : Ledgers) (id : LedgerId) : Prop :=
  ∃ page : Page, page.id = id ∧ ledgers.bytes? id = some page.bytes ∧ page.rest ≠ [] ∧
    ledgers.Faulty

namespace Ledgers

def settled (ledgers : Ledgers) (page : Page) : Ledgers :=
  if page.rest = [] then ledgers
  else match ledgers.object? page.id with
    | some object => ledgers.trimmed object (StoredRecord.frames page.records).length
    | none => ledgers

def settledAfter (ledgers : Ledgers) (pages : List Page) : Ledgers :=
  match pages.getLast? with
  | some newest => ledgers.settled newest
  | none => ledgers

/-- What a failed opening has done: nothing, or it has cut one of these ledgers. -/
def AtMostCut (ledgers : Ledgers) (ids : List LedgerId) (after : Ledgers) : Prop :=
  after = ledgers ∨ ∃ page : Page, page.id ∈ ids ∧ ledgers.bytes? page.id = some page.bytes ∧
    after = ledgers.settled page

variable {ledgers after : Ledgers} {page other : Page} {id : LedgerId} {ids more : List LedgerId}

theorem page_unique (hid : page.id = id) (hbytes : ledgers.bytes? id = some page.bytes)
    (hother : other.id = id) (hbytes' : ledgers.bytes? id = some other.bytes) : other = page := by
  rw [hbytes, Option.some.injEq] at hbytes'
  exact Page.eq_of_bytes (hother.trans hid.symm) hbytes'.symm

theorem AtMostCut.mono (h : ledgers.AtMostCut ids after) (hids : ids ⊆ more) :
    ledgers.AtMostCut more after := by
  rcases h with hsame | ⟨page, hid, hpage⟩
  · exact Or.inl hsame
  · exact Or.inr ⟨page, hids hid, hpage⟩

theorem settled_of_rest (h : page.rest = []) : ledgers.settled page = ledgers := if_pos h

theorem settled_of_object? {object : Nat} (h : page.rest ≠ [])
    (hobject : ledgers.object? page.id = some object) :
    ledgers.settled page = ledgers.trimmed object (StoredRecord.frames page.records).length := by
  unfold settled
  rw [if_neg h, hobject]

theorem directory_settled (ledgers : Ledgers) (page : Page) :
    (ledgers.settled page).directory = ledgers.directory := by
  unfold settled
  split
  · rfl
  · split
    · rfl
    · rfl

theorem bytes?_settled (h : ledgers.bytes? page.id = some page.bytes) :
    (ledgers.settled page).bytes? page.id = some page.cut.bytes := by
  by_cases hrest : page.rest = []
  · rw [settled_of_rest hrest, Page.cut_of_rest hrest, h]
  · rcases attach_of_bytes? h with ⟨handle, -, hobject, -, -⟩
    rw [settled_of_object? hrest hobject, bytes?_trimmed, h, Option.map_some, if_pos hobject,
      Page.bytes_cut, Page.bytes, List.take_left]

/-- A page without a torn end is kept, whatever other page is cut. -/
theorem bytes?_settled_of_whole (h : ledgers.bytes? page.id = some page.bytes)
    (hother : ledgers.bytes? other.id = some other.bytes) (hwhole : other.rest = []) :
    (ledgers.settled page).bytes? other.id = some other.bytes := by
  by_cases hrest : page.rest = []
  · rw [settled_of_rest hrest, hother]
  · rcases attach_of_bytes? h with ⟨handle, -, hobject, -, hcontents⟩
    rcases attach_of_bytes? hother with ⟨handle', -, hobject', -, hcontents'⟩
    -- in the object that is cut it would have the same bytes and be torn as well
    have hne : ledgers.object? other.id ≠ some handle.object := by
      intro heq
      rw [hobject'] at heq
      have hsame : other.bytes = page.bytes := by
        rw [← hcontents, ← hcontents']
        unfold Handle.contents
        rw [Option.some.inj heq]
      have hpage : ({ other with id := page.id } : Page) = page := Page.eq_of_bytes rfl hsame
      rw [← hpage] at hrest
      exact hrest hwhole
    rw [settled_of_object? hrest hobject, bytes?_trimmed, hother, Option.map_some, if_neg hne]

end Ledgers

namespace Log

variable {ledgers : Ledgers} {id : LedgerId} {before pages : List Page} {page : Page}

/-!
## The end of a ledger
-/

theorem LoadM.call_ends {α : Type} {call : LedgersM α} {answered : α → Ledgers → Prop}
    {failed : Error → Ledgers → Prop}
    (h : Ends call ledgers answered fun cause after => failed (.storage cause) after) :
    Ends (LoadM.call call) ledgers answered failed := by
  unfold Ends EStateM.run LoadM.call
  exact Ends.elim (call.run ledgers) rfl h

theorem LoadM.attach_of_bytes? {bytes : Bytes} (h : ledgers.bytes? id = some bytes) :
    Ends (LoadM.attach id) ledgers
      (fun handle after => after = ledgers ∧ ledgers.attach id = .ok handle ∧
        ledgers.object? id = some handle.object ∧ handle.Fresh ledgers.objects ∧
        handle.contents ledgers.objects = bytes)
      (fun _ _ => False) := by
  rcases Ledgers.attach_of_bytes? h with ⟨handle, hattach, hhandle⟩
  unfold LoadM.attach
  refine Ends.get ?_
  rw [hattach]
  exact Ends.pure ⟨rfl, rfl, hhandle⟩

theorem LoadM.attach_of_bytes?_eq_none (h : ledgers.bytes? id = none) :
    Ends (LoadM.attach id) ledgers (fun _ _ => False) (fun _ after => after = ledgers) := by
  rw [Ledgers.bytes?_eq_map, Option.map_eq_none_iff] at h
  rcases Ledgers.attach_of_object?_eq_none h with ⟨cause, hattach⟩
  unfold LoadM.attach
  refine Ends.get ?_
  rw [hattach]
  exact Ends.throw rfl

/-- A ledger is cut unless a fault is switched on, and nothing else is changed. -/
theorem cutTail_page (h : ledgers.bytes? page.id = some page.bytes) (hrest : page.rest ≠ []) :
    Ends (cutTail page.id (StoredRecord.frames page.records).length) ledgers
      (fun _ after => after = ledgers.settled page)
      (fun _ after => ledgers.Faulty ∧ (after = ledgers ∨ after = ledgers.settled page)) := by
  have hsize : (StoredRecord.frames page.records).length ≤ page.bytes.length := by
    unfold Page.bytes
    rw [List.length_append]
    exact Nat.le_add_right _ _
  unfold cutTail
  refine Ends.bind ((LoadM.attach_of_bytes? h).mono ?_ (fun _ _ hfalse => hfalse.elim))
  rintro handle ledgers ⟨rfl, -, hobject, hfresh, hcontents⟩
  rw [← hcontents] at hsize
  refine Ends.bind (Ends.discard
    (LoadM.call_ends ((Ledgers.truncate_fresh hfresh hsize).mono ?_ ?_)))
  · rintro _ after rfl
    refine LoadM.call_ends ((Ledgers.Shows.flush_ends _).mono ?_ ?_)
    · rintro _ after rfl
      exact (Ledgers.settled_of_object? hrest hobject).symm
    · rintro _ after ⟨rfl, hfault⟩
      exact ⟨hfault, Or.inr (Ledgers.settled_of_object? hrest hobject).symm⟩
  · rintro _ after ⟨rfl, hcrashed⟩
    exact ⟨Or.inl hcrashed, Or.inl rfl⟩

theorem settleTail_page (h : ledgers.bytes? page.id = some page.bytes) (isNewest : Bool) :
    Ends (settleTail page.scan isNewest) ledgers
      (fun _ after => after = ledgers.settled page ∧ (isNewest = true ∨ page.rest = []))
      (fun e after => page.rest ≠ [] ∧ (e.fatal = true ∧ isNewest = false ∧ after = ledgers ∨
        ledgers.Faulty ∧ (after = ledgers ∨ after = ledgers.settled page))) := by
  unfold settleTail
  by_cases hrest : page.rest = []
  · have htorn : page.scan.tornAt = none := if_pos hrest
    rw [htorn, Ledgers.settled_of_rest hrest]
    exact Ends.pure ⟨rfl, Or.inr hrest⟩
  · have htorn : page.scan.tornAt = some (StoredRecord.frames page.records).length := if_neg hrest
    rw [htorn]
    cases isNewest with
    | false => exact Ends.throw ⟨hrest, Or.inl ⟨rfl, rfl, rfl⟩⟩
    | true =>
        show Ends (cutTail page.scan.ledger page.scan.validSize) ledgers _ _
        rw [Page.ledger_scan]
        refine (cutTail_page h hrest).mono ?_ ?_
        · intro _ after hafter
          exact ⟨hafter, Or.inl rfl⟩
        · rintro _ after ⟨hfaulty, hafter⟩
          exact ⟨hrest, Or.inr ⟨hfaulty, hafter⟩⟩

/-!
## Sequence numbers
-/

theorem lastOf_pages (pages : List Page) :
    lastOf (pages.map Page.info) = (pages.flatMap Page.seqs).getLast? := by
  induction pages with
  | nil => rfl
  | cons page rest ih =>
      unfold lastOf at ih ⊢
      rw [List.map_cons, List.reverse_cons, List.findSome?_append, ih, List.flatMap_cons,
        List.getLast?_append]
      have hlast : page.info.last = page.seqs.getLast? := rfl
      cases (rest.flatMap Page.seqs).getLast? with
      | none => simp [hlast]
      | some seq => rfl

theorem consecutive_concat (hbefore : Consecutive (before.flatMap Page.seqs))
    (hpage : Consecutive page.seqs) :
    Consecutive ((before ++ [page]).flatMap Page.seqs) ↔
      ∀ last ∈ (before.flatMap Page.seqs).getLast?, ∀ first ∈ page.seqs.head?,
        first = last.next := by
  rw [List.flatMap_append, List.flatMap_singleton]
  unfold Consecutive at hbefore hpage ⊢
  rw [List.isChain_append]
  exact ⟨fun h => h.2.2, fun h => ⟨hbefore, hpage, h⟩⟩

/-- A page is refused exactly if its numbers do not go on from those of the pages before. -/
theorem ensureContinues_page (hbefore : Consecutive (before.flatMap Page.seqs))
    (hpage : Consecutive page.seqs) :
    ensureContinues (before.map Page.info) page.scan = .ok () ∧
        Consecutive ((before ++ [page]).flatMap Page.seqs) ∨
      (∃ e, e.fatal = true ∧ ensureContinues (before.map Page.info) page.scan = .error e) ∧
        ¬ Consecutive ((before ++ [page]).flatMap Page.seqs) := by
  have hfirst : page.scan.first = page.seqs.head? :=
    congrArg LedgerInfo.first (Page.ofScan_scan page)
  rw [consecutive_concat hbefore hpage]
  unfold ensureContinues
  rw [lastOf_pages, hfirst]
  cases (before.flatMap Page.seqs).getLast? with
  | none => exact Or.inl ⟨rfl, fun _ h => nomatch h⟩
  | some last =>
      cases page.seqs.head? with
      | none => exact Or.inl ⟨rfl, fun _ _ _ h => nomatch h⟩
      | some first =>
          by_cases heq : first = last.next
          · refine Or.inl ⟨by simp [heq], ?_⟩
            intro _ hlast _ hhead
            cases hlast
            cases hhead
            exact heq
          · refine Or.inr ⟨⟨_, rfl, by simp [heq]; rfl⟩, ?_⟩
            intro hall
            exact heq (hall last rfl first rfl)

/-!
## Ledger after ledger
-/

theorem LoadM.scan_ledger (ledgers : Ledgers) (id : LedgerId) :
    Ends (LoadM.scan id) ledgers
      (fun scan after => after = ledgers ∧ ∃ page : Page, page.id = id ∧
        ledgers.bytes? id = some page.bytes ∧ Consecutive page.seqs ∧ scan = page.scan)
      (fun e after => after = ledgers ∧ (ledgers.bytes? id = none ∨ e.fatal = true ∧
        ∀ page : Page, page.id = id → ledgers.bytes? id = some page.bytes →
          ¬ Consecutive page.seqs)) := by
  unfold LoadM.scan
  cases hbytes : ledgers.bytes? id with
  | none =>
      refine Ends.bind ((LoadM.attach_of_bytes?_eq_none hbytes).mono ?_ ?_)
      · intro _ _ hfalse
        exact hfalse.elim
      · intro _ after hafter
        exact ⟨hafter, Or.inl rfl⟩
  | some bytes =>
      refine Ends.bind ((LoadM.attach_of_bytes? hbytes).mono ?_ (fun _ _ hfalse => hfalse.elim))
      rintro handle ledgers ⟨rfl, -, -, hfresh, rfl⟩
      refine Ends.get ?_
      cases hrun : Scan.run id handle ledgers.objects with
      | ok scan =>
          rcases (Scan.run_eq_ok_iff hfresh).mp hrun with ⟨page, hid, hcontents, hpage, hscan⟩
          exact Ends.pure ⟨rfl, page, hid, congrArg some hcontents.symm, hpage, hscan⟩
      | error e =>
          refine Ends.throw ⟨rfl, Or.inr ⟨Scan.fatal_of_run hfresh hrun, ?_⟩⟩
          intro page hid hcontents hpage
          have hok := (Scan.run_eq_ok_iff hfresh).mpr
            ⟨page, hid, (Option.some.inj hcontents).symm, hpage, rfl⟩
          rw [hrun] at hok
          cases hok

/-- Why a ledger is not taken in, and what has then become of the directory. -/
inductive Declined (ledgers : Ledgers) (before : List Page) (id : LedgerId) (isNewest : Bool)
    (e : Error) (after : Ledgers) : Prop where
  | missing (hmissing : ledgers.bytes? id = none) (hsame : after = ledgers)
  | stuck (hstuck : ledgers.Stuck id) (hcut : ledgers.AtMostCut [id] after)
  | unsound (hfatal : e.fatal = true) (hsame : after = ledgers)
      (hnone : ∀ page : Page, page.id = id → ledgers.bytes? id = some page.bytes →
        (isNewest = true ∨ page.rest = []) → ¬ Consecutive page.seqs)
  | gap (page : Page) (hfatal : e.fatal = true) (hid : page.id = id)
      (hbytes : ledgers.bytes? page.id = some page.bytes)
      (hend : isNewest = true ∨ page.rest = []) (hown : Consecutive page.seqs)
      (hgap : ¬ Consecutive ((before ++ [page]).flatMap Page.seqs))
      (hcut : after = ledgers.settled page)

theorem Declined.atMostCut {isNewest : Bool} {e : Error} {after : Ledgers}
    (h : Declined ledgers before id isNewest e after) : ledgers.AtMostCut [id] after := by
  cases h with
  | missing hmissing hsame => exact Or.inl hsame
  | stuck hstuck hcut => exact hcut
  | unsound hfatal hsame hnone => exact Or.inl hsame
  | gap page hfatal hid hbytes hend hown hgap hcut =>
      exact Or.inr ⟨page, List.mem_singleton.mpr hid, hbytes, hcut⟩

theorem Declined.cause {isNewest : Bool} {e : Error} {after : Ledgers}
    (h : Declined ledgers before id isNewest e after) :
    ledgers.bytes? id = none ∨ ledgers.Stuck id ∨ e.fatal = true ∧
      ∀ page : Page, page.id = id → ledgers.bytes? id = some page.bytes →
        (isNewest = true ∨ page.rest = []) →
        ¬ Consecutive ((before ++ [page]).flatMap Page.seqs) := by
  cases h with
  | missing hmissing hsame => exact Or.inl hmissing
  | stuck hstuck hcut => exact Or.inr (Or.inl hstuck)
  | unsound hfatal hsame hnone =>
      refine Or.inr (Or.inr ⟨hfatal, ?_⟩)
      intro page hid hbytes hend hnext
      rw [List.flatMap_append, List.flatMap_singleton] at hnext
      unfold Consecutive at hnext
      exact hnone page hid hbytes hend (List.isChain_append.mp hnext).2.1
  | gap page hfatal hid hbytes hend hown hgap hcut =>
      refine Or.inr (Or.inr ⟨hfatal, ?_⟩)
      intro other hid' hother _
      rw [hid] at hbytes
      rwa [Ledgers.page_unique hid hbytes hid' hother]

theorem loadLedger_page (ledgers : Ledgers) (id : LedgerId) (isNewest : Bool)
    (hbefore : Consecutive (before.flatMap Page.seqs)) :
    Ends (loadLedger (before.map Page.info) id isNewest) ledgers
      (fun found after => ∃ page : Page, page.id = id ∧ ledgers.bytes? id = some page.bytes ∧
        (isNewest = true ∨ page.rest = []) ∧
        Consecutive ((before ++ [page]).flatMap Page.seqs) ∧ found = page.info ∧
        after = ledgers.settled page)
      (fun e after => Declined ledgers before id isNewest e after) := by
  unfold loadLedger
  refine Ends.bind ((LoadM.scan_ledger ledgers id).mono ?_ ?_)
  · rintro _ ledgers ⟨rfl, page, hid, hbytes, hpage, rfl⟩
    have hbytes' : ledgers.bytes? page.id = some page.bytes := by rw [hid, hbytes]
    refine Ends.bind ((settleTail_page hbytes' isNewest).mono ?_ ?_)
    · rintro _ after ⟨rfl, hend⟩
      rcases ensureContinues_page hbefore hpage with ⟨hok, hnext⟩ | ⟨⟨e, hfatal, herror⟩, hgap⟩
      · rw [hok]
        exact Ends.pure ⟨page, hid, hbytes, hend, hnext, Page.ofScan_scan page, rfl⟩
      · rw [herror]
        exact Ends.throw (.gap page hfatal hid hbytes' hend hpage hgap rfl)
    · rintro e after ⟨hrest, ⟨hfatal, hnewest, hsame⟩ | ⟨hfaulty, hafter⟩⟩
      · refine .unsound hfatal hsame ?_
        rintro other hid' hother (htrue | hwhole)
        · rw [hnewest] at htrue
          cases htrue
        · rw [Ledgers.page_unique hid hbytes hid' hother] at hwhole
          exact absurd hwhole hrest
      · exact .stuck ⟨page, hid, hbytes, hrest, hfaulty⟩
          (hafter.imp_right fun heq => ⟨page, List.mem_singleton.mpr hid, hbytes', heq⟩)
  · rintro e _ ⟨rfl, hmissing | ⟨hfatal, hgap⟩⟩
    · exact .missing hmissing rfl
    · exact .unsound hfatal rfl fun page hid hbytes _ => hgap page hid hbytes

end Log
end TieredStore
