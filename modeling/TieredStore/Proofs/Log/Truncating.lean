import TieredStore.Proofs.Log.Invariant

/-!
# Dropping the start of a history

The log drops whole chapters, and only such that the next one starts with a
checkpoint right behind the last record that is dropped.  So what is left are
the records behind that one, and they start with a checkpoint.  The medium
refuses a deletion only after a crash, and then it refuses the first one, so a
truncation that fails has dropped nothing.

If the deletions of some chapters are refused for another reason, those before them
are dropped, and the others are kept.
-/

namespace TieredStore

def Ledgers.deleteOnly (ids : List LedgerId) (cause : MediumError) (id : LedgerId) :
    LedgersM Unit :=
  if id ∈ ids then delete id else throw cause

/-- The chapter starts with the checkpoint of this number. -/
def Chapter.OpensWith (chapter : Chapter) (seq : SequenceNumber) : Prop :=
  ∃ op more, chapter.records = (seq, op) :: more ∧ op.isCheckpoint = true

namespace Log

open Chapter LogRecord

/-- Only these chapters are left of the log; nothing else of it has changed. -/
structure LeftWith (log : Log) (rest : List Chapter) (tail : Bytes) (after : Log) : Prop where
  same : after = { log with medium := after.medium, ledgers := rest.map info }
  shows : after.medium.Shows (volumes tail rest)

variable {log : Log} {first : SequenceNumber} {chapters rest : List Chapter} {chapter : Chapter}
  {tail : Bytes}

theorem dropOldest_ends (hshows : log.medium.Shows (volumes tail (chapter :: rest)))
    (hledgers : log.ledgers = (chapter :: rest).map info) (hrest : rest ≠ []) :
    Ends (dropOldest chapter.id) log
      (fun _ after => after = { log with medium := after.medium, ledgers := rest.map info } ∧
        after.medium.Shows (volumes tail rest) ∧ log.medium.faults.crashed = false ∧
        after.medium.faults.crashed = false)
      (fun _ after => after = log ∧ log.medium.faults.crashed = true) := by
  rw [volumes_cons hrest] at hshows
  unfold dropOldest
  refine Ends.bind (failingAs_ends (onMedium_ends (hshows.delete_ends.mono ?_ ?_)))
  · rintro _ medium ⟨hfaults, halive, hmedium⟩
    refine Ends.modified ⟨?_, hmedium, halive, ?_⟩
    · rw [hledgers]
      rfl
    · rw [hfaults]
      exact halive
  · rintro _ medium ⟨rfl, hcrashed⟩
    exact ⟨rfl, hcrashed⟩

theorem dropAll_ends_of_alive (hrest : rest ≠ []) :
    ∀ {dropped : List Chapter} {log : Log},
      log.medium.Shows (volumes tail (dropped ++ rest)) →
      log.ledgers = (dropped ++ rest).map info → log.medium.faults.crashed = false →
      Ends ((dropped.map info).forM fun ledger => dropOldest ledger.id) log
        (fun _ after => log.LeftWith rest tail after)
        (fun _ _ => False)
  | [], log, hshows, hledgers, _ => by
      refine Ends.pure ⟨?_, hshows⟩
      rw [← show log.ledgers = rest.map info from hledgers]
  | chapter :: dropped, log, hshows, hledgers, halive => by
      have hne : dropped ++ rest ≠ [] := List.append_ne_nil_of_right_ne_nil dropped hrest
      refine Ends.bind ((dropOldest_ends hshows hledgers hne).mono ?_ ?_)
      · rintro _ after ⟨hsame, hshows', -, halive'⟩
        have hledgers' : after.ledgers = (dropped ++ rest).map info := by
          rw [hsame]
          rfl
        refine (dropAll_ends_of_alive hrest hshows' hledgers' halive').mono ?_ ?_
        · rintro _ last ⟨hlast, hend⟩
          refine ⟨?_, hend⟩
          rw [hlast, hsame]
        · intro _ _ hfalse
          exact hfalse
      · rintro _ after ⟨-, hcrashed⟩
        rw [halive] at hcrashed
        cases hcrashed

/-- Either all of the chapters are dropped or none is. -/
theorem dropAll_ends {dropped : List Chapter} (hrest : rest ≠ [])
    (hshows : log.medium.Shows (volumes tail (dropped ++ rest)))
    (hledgers : log.ledgers = (dropped ++ rest).map info) :
    Ends ((dropped.map info).forM fun ledger => dropOldest ledger.id) log
      (fun _ after => log.LeftWith rest tail after)
      (fun _ after => after = log ∧ log.medium.faults.crashed = true) := by
  cases hcrashed : log.medium.faults.crashed with
  | false =>
      refine (dropAll_ends_of_alive hrest hshows hledgers hcrashed).mono (fun _ _ h => h) ?_
      intro _ _ hfalse
      exact hfalse.elim
  | true =>
      cases dropped with
      | nil =>
          refine Ends.pure ⟨?_, hshows⟩
          rw [← show log.ledgers = rest.map info from hledgers]
      | cons chapter dropped =>
          have hne : dropped ++ rest ≠ [] := List.append_ne_nil_of_right_ne_nil dropped hrest
          refine Ends.bind ((dropOldest_ends hshows hledgers hne).mono ?_ ?_)
          · rintro _ after ⟨-, -, halive, -⟩
            rw [hcrashed] at halive
            cases halive
          · rintro _ after ⟨hsame, -⟩
            exact ⟨hsame, rfl⟩

theorem Holds.drop {dropped : List Chapter} (h : log.Holds first (dropped ++ rest) tail)
    (hcheckpoint : ∃ c ∈ rest, c.info.startsWithCheckpoint = true)
    {medium : Ledgers} (hshows : medium.Shows (volumes tail rest)) :
    Holds { log with medium, ledgers := rest.map info } (first + (history dropped).length) rest
      tail := by
  have hrest : rest ≠ [] := by
    intro hnil
    rcases hcheckpoint with ⟨c, hc, -⟩
    rw [hnil] at hc
    cases hc
  have hruns := h.keeps.runs
  have hwritable := h.keeps.writable
  have hfilled := h.keeps.filled
  rw [history_append] at hruns hwritable
  rw [List.dropLast_append_of_ne_nil hrest] at hfilled
  refine { keeps := ?_, ledgers_eq := rfl, writer_eq := ?_, nextSeq_eq := ?_, clean := h.clean }
  · exact { shows := hshows, runs := (runsFrom_append.mp hruns).2,
            writable := hwritable.of_append.2, tail := h.keeps.tail, origin := Or.inr hcheckpoint,
            filled := fun c hc => hfilled c (List.mem_append_right _ hc) }
  · show log.writer = _
    rw [h.writer_eq, List.getLast?_append]
    cases hlast : rest.getLast? with
    | none => exact absurd (List.getLast?_eq_none_iff.mp hlast) hrest
    | some newest => rfl
  · show log.nextSeq = _
    rw [h.nextSeq_eq, history_append, List.length_append]
    exact (Nat.add_assoc _ _ _).symm

theorem info_opensWith {seq : SequenceNumber} :
    (decide (chapter.info.first = some seq) && chapter.info.startsWithCheckpoint) = true ↔
      chapter.OpensWith seq := by
  unfold OpensWith info LedgerInfo.ofRecords
  cases chapter.records with
  | nil => simp
  | cons record more =>
      constructor
      · intro hfound
        simp only [List.head?_cons, Option.map_some, Option.any_some, Option.some.injEq,
          Bool.and_eq_true, decide_eq_true_eq] at hfound
        exact ⟨record.2, more, by rw [← hfound.1], hfound.2⟩
      · rintro ⟨op, rest, heq, hcheckpoint⟩
        cases heq
        simpa using hcheckpoint

/--
A truncation drops the chapters before the one that starts with the checkpoint
behind `upto`.  It is refused without such a chapter or by a medium that has
crashed, and then it leaves everything as it is.
-/
theorem Holds.truncate_drops (h : log.Holds first chapters tail) (upto : SequenceNumber) :
    Ends (truncate upto) log
      (fun _ after => ∃ dropped chapter rest, chapters = dropped ++ chapter :: rest ∧
        chapter.OpensWith upto.next ∧ log.LeftWith (chapter :: rest) tail after)
      (fun e after => after = log ∧
        (log.medium.faults.crashed = true ∧ chapters ≠ [] ∨
          e = .misuse (.notBeforeCheckpoint upto) ∧ ∀ c ∈ chapters, ¬ c.OpensWith upto.next)) := by
  unfold truncate
  refine Ends.get ?_
  extract_lets ledgers
  have hledgers : ledgers = chapters.map info := h.ledgers_eq
  cases hfind : ledgers.findIdx? (fun l => l.first = some upto.next && l.startsWithCheckpoint) with
  | none =>
      refine Ends.throw ⟨rfl, Or.inr ⟨rfl, ?_⟩⟩
      intro c hc hopens
      rw [hledgers] at hfind
      have hnot := List.findIdx?_eq_none_iff.mp hfind c.info (List.mem_map_of_mem hc)
      rw [info_opensWith.mpr hopens] at hnot
      cases hnot
  | some index =>
      obtain ⟨hindex, hfound, -⟩ := List.findIdx?_eq_some_iff_getElem.mp hfind
      have hlt : index < chapters.length := by
        rw [hledgers, List.length_map] at hindex
        exact hindex
      have hget : ledgers[index] = chapters[index].info := by
        simp [hledgers]
      rw [hget] at hfound
      have hsplit : chapters =
          chapters.take index ++ chapters[index] :: chapters.drop (index + 1) := by
        rw [← List.drop_eq_getElem_cons hlt, List.take_append_drop]
      have htake : ledgers.take index = (chapters.take index).map info := by
        rw [hledgers, List.map_take]
      show Ends ((ledgers.take index).forM fun ledger => dropOldest ledger.id) log _ _
      rw [htake]
      refine (dropAll_ends (List.cons_ne_nil chapters[index] (chapters.drop (index + 1)))
        (hsplit ▸ h.keeps.shows) (hsplit ▸ h.ledgers_eq)).mono ?_ ?_
      · intro _ after hafter
        exact ⟨_, _, _, hsplit, info_opensWith.mp hfound, hafter⟩
      · rintro _ after ⟨hsame, hcrashed⟩
        exact ⟨hsame, Or.inl ⟨hcrashed, List.ne_nil_of_length_pos (Nat.zero_lt_of_lt hlt)⟩⟩

theorem Holds.leftWith {dropped : List Chapter}
    (h : log.Holds first (dropped ++ chapter :: rest) tail) {upto : SequenceNumber}
    (hopens : chapter.OpensWith upto.next) {after : Log}
    (hafter : log.LeftWith (chapter :: rest) tail after) :
    after.Holds upto.next (chapter :: rest) tail ∧
      history (chapter :: rest) =
        (history (dropped ++ chapter :: rest)).filter (fun r => upto < r.1) := by
  have hruns := h.keeps.runs
  rw [history_append, runsFrom_append] at hruns
  have hstart : first + (history dropped).length = upto.next := by
    rcases hopens with ⟨op, more, hrecords, -⟩
    have hrun := hruns.2
    rw [history_cons, hrecords, List.cons_append, runsFrom_cons] at hrun
    exact hrun.1.symm
  constructor
  · have hcheckpoint : ∃ c ∈ chapter :: rest, c.info.startsWithCheckpoint = true :=
      ⟨chapter, List.mem_cons_self, (Bool.and_eq_true_iff.mp (info_opensWith.mpr hopens)).2⟩
    have hdrop := h.drop hcheckpoint hafter.shows
    rw [← hafter.same, hstart] at hdrop
    exact hdrop
  · have hbefore : (history dropped).filter (fun r => upto < r.1) = [] :=
      hruns.1.filter_of_ge (Nat.le_of_eq hstart)
    have hbehind : (history (chapter :: rest)).filter (fun r => upto < r.1) =
        history (chapter :: rest) :=
      hruns.2.filter_of_le (Nat.le_of_eq hstart.symm)
    rw [history_append, List.filter_append, hbefore, hbehind, List.nil_append]

/-- A truncation keeps the records behind `upto`, or everything if it fails. -/
theorem Holds.truncate_ends (h : log.Holds first chapters tail) (upto : SequenceNumber) :
    Ends (truncate upto) log
      (fun _ after => after.poisoned = log.poisoned ∧ after.nextSeq = log.nextSeq ∧
        ∃ first' chapters',
        after.Holds first' chapters' tail ∧
        history chapters' = (history chapters).filter (fun r => upto < r.1))
      (fun _ after => after = log) := by
  refine (h.truncate_drops upto).mono ?_ ?_
  · rintro _ after ⟨dropped, chapter, rest, rfl, hopens, hafter⟩
    have hleft := h.leftWith hopens hafter
    exact ⟨by rw [hafter.same], by rw [hafter.same], _, _, hleft.1, hleft.2⟩
  · rintro _ after ⟨hsame, -⟩
    exact hsame

/-!
## Truncations that are stopped
-/

def dropOldestBy (delete : LedgerId → LedgersM Unit) (id : LedgerId) : LogM Unit := do
  failingAs .storage (onMedium (delete id))
  modify fun log => { log with ledgers := log.ledgers.tail }

/-- Drops all records up to `upto`, as far as deletions of the directory go. -/
def truncateBy (delete : LedgerId → LedgersM Unit) (upto : SequenceNumber) : LogM Unit := do
  let ledgers := (← get).ledgers
  match ledgers.findIdx? (fun l => l.first = some upto.next && l.startsWithCheckpoint) with
  | none => throw (.misuse (.notBeforeCheckpoint upto))
  | some index => (ledgers.take index).forM fun ledger => dropOldestBy delete ledger.id

theorem forM_deleteOnly {ids : List LedgerId} (cause : MediumError) :
    ∀ {ledgers : List LedgerInfo}, (∀ l ∈ ledgers, l.id ∈ ids) →
      (ledgers.forM fun ledger => dropOldestBy (Ledgers.deleteOnly ids cause) ledger.id) =
        ledgers.forM fun ledger => dropOldest ledger.id
  | [], _ => rfl
  | ledger :: rest, hmem => by
      have hfirst : dropOldestBy (Ledgers.deleteOnly ids cause) ledger.id =
          dropOldest ledger.id := by
        have hdelete : Ledgers.deleteOnly ids cause ledger.id = Ledgers.delete ledger.id :=
          if_pos (hmem ledger List.mem_cons_self)
        unfold dropOldestBy
        rw [hdelete]
        rfl
      have hrest := forM_deleteOnly cause fun l hl => hmem l (List.mem_cons_of_mem _ hl)
      unfold List.forM
      rw [hfirst, hrest]

theorem dropOldestBy_refused {ids : List LedgerId} {id : LedgerId} (cause : MediumError)
    (hid : id ∉ ids) :
    (dropOldestBy (Ledgers.deleteOnly ids cause) id).run log = .error (.storage cause) log := by
  unfold dropOldestBy
  rw [show Ledgers.deleteOnly ids cause id = throw cause from if_neg hid]
  rfl

theorem dropFirst_ends {dropped kept : List Chapter} (hrest : rest ≠ []) (cause : MediumError)
    (hshows : log.medium.Shows (volumes tail (dropped ++ (kept ++ rest))))
    (hledgers : log.ledgers = (dropped ++ (kept ++ rest)).map info)
    (halive : dropped ≠ [] → log.medium.faults.crashed = false) :
    Ends (((dropped ++ kept).map info).forM fun ledger =>
        dropOldestBy (Ledgers.deleteOnly (dropped.map (·.id)) cause) ledger.id) log
      (fun _ after => kept = [] ∧ log.LeftWith (kept ++ rest) tail after)
      (fun e after => kept ≠ [] ∧ e = .storage cause ∧
        log.LeftWith (kept ++ rest) tail after) := by
  have hne : kept ++ rest ≠ [] := List.append_ne_nil_of_right_ne_nil kept hrest
  have hids : ((dropped ++ (kept ++ rest)).map (·.id)).Pairwise (· < ·) := by
    rw [← map_id_volumes tail, List.pairwise_map]
    exact hshows.ids_ascending
  have hall : ∀ l ∈ dropped.map info, l.id ∈ dropped.map (·.id) := by
    intro l hl
    rcases List.mem_map.mp hl with ⟨c, hc, rfl⟩
    exact List.mem_map_of_mem (f := Chapter.id) hc
  have hdropped : Ends ((dropped.map info).forM fun ledger => dropOldest ledger.id) log
      (fun _ after => log.LeftWith (kept ++ rest) tail after)
      (fun _ _ => False) := by
    cases dropped with
    | nil =>
        apply Ends.pure
        constructor
        · rw [← show log.ledgers = (kept ++ rest).map info from hledgers]
        · exact hshows
    | cons chapter more =>
        exact dropAll_ends_of_alive hne hshows hledgers (halive (List.cons_ne_nil _ _))
  have hsplit : (((dropped ++ kept).map info).forM fun ledger =>
      dropOldestBy (Ledgers.deleteOnly (dropped.map (·.id)) cause) ledger.id) =
      ((dropped.map info).forM fun ledger => dropOldest ledger.id) >>= fun _ =>
        (kept.map info).forM fun ledger =>
          dropOldestBy (Ledgers.deleteOnly (dropped.map (·.id)) cause) ledger.id := by
    rw [List.map_append, ← forM_deleteOnly cause hall]
    exact List.forM_append
  rw [hsplit]
  apply Ends.bind
  apply hdropped.mono
  · rintro _ after hafter
    cases kept with
    | nil => exact Ends.pure ⟨rfl, hafter⟩
    | cons chapter more =>
        have hnot : chapter.id ∉ dropped.map (·.id) := by
          intro hmem
          rw [List.map_append] at hids
          have hlt := (List.pairwise_append.mp hids).2.2 _ hmem chapter.id (by simp)
          exact absurd hlt (Nat.lt_irrefl _)
        rw [List.map_cons]
        unfold List.forM
        apply Ends.bind
        exact Ends.of_error (dropOldestBy_refused cause hnot)
          ⟨List.cons_ne_nil _ _, rfl, hafter⟩
  · intro _ _ hfalse
    exact hfalse.elim

end Log
end TieredStore
