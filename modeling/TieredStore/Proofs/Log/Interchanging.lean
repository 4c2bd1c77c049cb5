import TieredStore.Proofs.Log.Pairing

/-!
# Ledgers in memory and in files are interchangeable

A log and its readers are used step by step, while the log is opened and closed any
number of times over the same directory.  As long as nothing fails below, every
step answers over a folder what it answers over memory, and leaves the same bytes.
Readers are kept across all later steps: those that reach a dropped ledger fail
alike, but for the name by which the ledger is called.
-/

namespace TieredStore

open Chapter LogRecord

/-! ## Using a log -/

inductive LogUse
  | «open» (config : Config)
  /-- A table that is appended as a checkpoint is well-formed. -/
  | append (op : Operation) (wellFormed : op.WellFormed)
  | truncate (upto : SequenceNumber)
  | flush
  | close
  | readFrom (start : SequenceNumber)
  | next (reader : Nat)

inductive LogAnswer
  | opened (ledgers : List LedgerInfo) (nextSeq : SequenceNumber)
  | appended (seq : SequenceNumber)
  | done
  | item (found : Option LogReader.Item)
  | failed (e : Error)
  | absent

structure LogUser where
  session : LogSession
  readers : List LogReader := []

namespace LogUser

def call {α : Type} (user : LogUser) (call : LogM α) (answer : α → LogAnswer) :
    LogAnswer × LogUser :=
  match user.session with
  | .closed _ => (.absent, user)
  | .opened log =>
      match call.run log with
      | .ok a log => (answer a, { user with session := .opened log })
      | .error e log => (.failed e, { user with session := .opened log })

/-- One step.  A log that is opened anew takes the place of the open one. -/
def step (user : LogUser) : LogUse → LogAnswer × LogUser
  | .open config =>
      match Log.load config user.session.ledgers with
      | .ok log => (.opened log.ledgers log.nextSeq, { user with session := .opened log })
      | .error (e, medium) => (.failed e, { user with session := .closed medium })
  | .append op _ => user.call (Log.append op) .appended
  | .truncate upto => user.call (Log.truncate upto) fun _ => .done
  | .flush => user.call Log.flush fun _ => .done
  | .close => (.done, { user with session := .closed user.session.ledgers })
  | .readFrom start =>
      match user.session with
      | .closed _ => (.absent, user)
      | .opened log => (.done, { user with readers := user.readers ++ [log.readFrom start] })
  | .next reader =>
      match user.readers[reader]? with
      | none => (.absent, user)
      | some found =>
          let (item, later) := found.next user.session.ledgers
          (.item item, { user with readers := user.readers.set reader later })

def answers (user : LogUser) : List LogUse → List LogAnswer
  | [] => []
  | use :: rest => (user.step use).1 :: answers (user.step use).2 rest

def steps (user : LogUser) (uses : List LogUse) : LogUser :=
  uses.foldl (fun user use => (user.step use).2) user

def start (ledgers : Ledgers) : LogUser := { session := .closed ledgers }

end LogUser

/-- Answers are the same, up to the name of a ledger that is missing. -/
inductive LogAnswer.Alike (path : String) : LogAnswer → LogAnswer → Prop
  | same (answer : LogAnswer) : Alike path answer answer
  | missing (id : LedgerId) :
      Alike path (.item (some (.error (.storage (.notFound (Ledgers.label id))))))
        (.item (some (.error (.storage (.notFound (Path.join path (Ledgers.fileName id)))))))

theorem LogAnswer.Alike.item {path : String} {found found' : Option LogReader.Item}
    (h : LogReader.Alike path found found') : Alike path (.item found) (.item found') := by
  cases h with
  | same => exact .same _
  | missing id => exact .missing id

/-! ## The same log over memory and over a folder -/

variable {path : String} {memory folder : Ledgers} {log log' after after' : Log}
  {first : SequenceNumber} {chapters : List Chapter}

namespace Log

theorem mem_list_of_legible {pages : List Page} (h : memory.Legible pages) {page : Page}
    (hpage : page ∈ pages) : page.id ∈ memory.list := by
  rw [← h.ids_eq]
  exact List.mem_map_of_mem hpage

theorem legible_mirrors (h : memory.Mirrors path folder) {pages : List Page}
    (hlegible : memory.Legible pages) : folder.Legible pages := by
  constructor
  · rw [h.list_eq]
    exact hlegible.ids_eq
  · intro page hpage
    rw [h.bytes?_eq (h.le_maxWord (mem_list_of_legible hlegible hpage))]
    exact hlegible.bytes page hpage
  · exact hlegible.whole
  · exact hlegible.consecutive

theorem writers_mirrors (h : memory.Mirrors path folder) {pages : List Page}
    (hlegible : memory.Legible pages) :
    Writers memory folder
      (pages.getLast?.bind fun newest => (memory.attach newest.id).toOption)
      (pages.getLast?.bind fun newest => (folder.attach newest.id).toOption) := by
  cases hlast : pages.getLast? with
  | none => exact .nothing
  | some newest =>
      have hid := mem_list_of_legible hlegible (List.mem_of_getLast? hlast)
      rcases h.attach_cases (h.le_maxWord hid) with
        ⟨handle, handle', hattach, hattach', -, hwrites⟩ | ⟨hnone, -⟩
      · rw [Option.bind_some, Option.bind_some, hattach, hattach']
        exact .newest hwrites
      · rcases h.mem_list_iff.mp hid with ⟨object, hobject⟩
        rw [hnone] at hobject
        cases hobject

theorem load_mirrors (h : memory.Mirrors path folder) (hkeeps : memory.Keeps first chapters [])
    (config : Config) :
    ∃ log log', load config memory = .ok log ∧ load config folder = .ok log' ∧
      log.Mirrors path log' ∧ log.medium = memory := by
  rcases hkeeps.exists_pages with ⟨pages, hpages, hlegible⟩
  have hwhole : ∀ newest ∈ pages.getLast?, newest.rest = [] := hpages.end_eq
  have hload := load_of_legible hlegible (fun newest hnewest => Or.inl (hwhole newest hnewest)) config
  have hload' := load_of_legible (legible_mirrors h hlegible)
    (fun newest hnewest => Or.inl (hwhole newest hnewest)) config
  have hsettled : memory.settledAfter pages = memory := Ledgers.settledAfter_of_whole hwhole
  have hsettled' : folder.settledAfter pages = folder := Ledgers.settledAfter_of_whole hwhole
  refine ⟨_, _, hload, hload', ?_, hsettled⟩
  unfold ofPages
  rw [hsettled, hsettled']
  exact .intro h (writers_mirrors h hlegible)

end Log

namespace LogUser

variable {user user' : LogUser}

inductive SessionsMirror (path : String) : LogSession → LogSession → Prop
  | closed {memory folder : Ledgers} (h : memory.Mirrors path folder) :
      SessionsMirror path (.closed memory) (.closed folder)
  | opened {log log' : Log} (h : log.Mirrors path log') (clean : log.poisoned = false) :
      SessionsMirror path (.opened log) (.opened log')

theorem SessionsMirror.ledgers {session session' : LogSession}
    (h : SessionsMirror path session session') : session.ledgers.Mirrors path session'.ledgers := by
  cases h with
  | closed hmirrors => exact hmirrors
  | opened hmirrors _ => exact hmirrors.medium

/-- The ledgers keep a history, and no ledger has a later number than the next record. -/
structure Kept (first : SequenceNumber) (chapters : List Chapter) (session : LogSession) : Prop where
  keeps : LogRun.Keeps first chapters [] session
  ids : ∀ id ∈ session.ledgers.list, id < first + (history chapters).length

structure Mirrors (path : String) (user user' : LogUser) : Prop where
  kept : ∃ first chapters, Kept first chapters user.session
  sessions : SessionsMirror path user.session user'.session
  readers : List.Forall₂ (LogReader.Mirrors user.session.ledgers) user.readers user'.readers

theorem Mirrors.of_onward (h : Mirrors path user user') {session session' : LogSession}
    (hkept : ∃ first chapters, Kept first chapters session)
    (hsessions : SessionsMirror path session session')
    (honward : user.session.ledgers.Onward session.ledgers) :
    Mirrors path { user with session } { user' with session := session' } where
  kept := hkept
  sessions := hsessions
  readers := h.readers.imp fun _ _ hreader => hreader.onward honward

/-- Where both end, the memory of a log is further on and keeps a history. -/
def Advances (path : String) (log after after' : Log) : Prop :=
  after.Mirrors path after' ∧ after.poisoned = false ∧ log.medium.Onward after.medium ∧
    ∃ first chapters, Kept first chapters (.opened after)

/-! ## Steps -/

theorem Mirrors.call {α : Type} {program : LogM α} {answer : α → LogAnswer} {log log' : Log}
    {readers readers' : List LogReader}
    (h : Mirrors path { session := .opened log, readers } { session := .opened log', readers := readers' })
    (htwins : Twins program program log log'
      (fun a after a' after' => a' = a ∧ Advances path log after after')
      fun e after e' after' => e' = e ∧ after = log ∧ after' = log') :
    LogAnswer.Alike path
        (LogUser.call { session := .opened log, readers } program answer).1
        (LogUser.call { session := .opened log', readers := readers' } program answer).1 ∧
      Mirrors path
        (LogUser.call { session := .opened log, readers } program answer).2
        (LogUser.call { session := .opened log', readers := readers' } program answer).2 := by
  unfold LogUser.call
  rcases htwins.cases with ⟨a, after, a', after', hrun, hrun', rfl, hmirrors, hclean, honward, hkept⟩ |
    ⟨e, after, e', after', hrun, hrun', rfl, rfl, rfl⟩
  · simp only [hrun, hrun']
    exact ⟨.same _, h.of_onward hkept (.opened hmirrors hclean) honward⟩
  · simp only [hrun, hrun']
    exact ⟨.same _, h⟩

theorem Kept.id_lt_nextSeq (h : Kept first chapters (.opened log)) :
    ∀ id ∈ log.medium.list, id < log.nextSeq := by
  have hholds : log.Holds first chapters [] := h.keeps
  rw [hholds.nextSeq_eq]
  exact h.ids

theorem Kept.nextLedger_le (h : Kept first chapters (.opened log)) : log.nextLedger ≤ log.nextSeq := by
  have hholds : log.Holds first chapters [] := h.keeps
  rcases List.eq_nil_or_concat chapters with rfl | ⟨older, newest, rfl⟩
  · have hfirst := hholds.keeps.first_eq_of_history_nil rfl
    rw [Log.nextLedger, hholds.ledgers_eq, hholds.nextSeq_eq, hfirst]
    exact Nat.le_refl 1
  · rw [List.concat_eq_append] at h hholds
    have hlist := hholds.keeps.shows.list_eq
    have hnewest : newest.id ∈ log.medium.list := by
      rw [hlist, map_id_volumes, List.map_append]
      exact List.mem_append_right _ List.mem_cons_self
    have hnext : log.nextLedger = newest.id + 1 := by
      rw [Log.nextLedger, hholds.ledgers_eq, List.map_append, List.map_singleton,
        List.getLast?_concat]
      rfl
    rw [hnext]
    exact h.id_lt_nextSeq newest.id hnewest

theorem append_advances (h : log.Mirrors path log') (hclean : log.poisoned = false)
    (hkept : Kept first chapters (.opened log)) {op : Operation} (hwf : op.WellFormed) :
    Twins (Log.append op) (Log.append op) log log'
      (fun seq after seq' after' => seq' = seq ∧ Advances path log after after')
      fun e after e' after' => e' = e ∧ after = log ∧ after' = log' := by
  have hholds : log.Holds first chapters [] := hkept.keeps
  have hnew : ∀ id ∈ log.medium.list, id < log.nextLedger := by
    intro id hid
    rw [hholds.keeps.shows.list_eq] at hid
    rcases List.mem_map.mp hid with ⟨v, hv, rfl⟩
    exact hholds.id_lt_nextLedger v hv
  have hid : ∀ frame, Frame.ofOperation log.nextSeq op = .ok frame → log.nextLedger ≤ maxWord := by
    intro frame hframe
    have hwritable := (frame_of_ofOperation hwf hframe).2
    calc log.nextLedger ≤ log.nextSeq := hkept.nextLedger_le
      _ ≤ maxOffset := hwritable.seq_le
      _ ≤ maxWord := by decide
  refine ((Log.append_twins h op hnew hid).and_ends (hholds.append_ends hwf)).mono ?_ ?_
  · rintro seq after seq' after' ⟨⟨hsame, hmoves⟩, hseq, chapters', hafter, hhistory⟩
    refine ⟨hsame, hmoves.mirrors, hmoves.poisoned.trans hclean, hmoves.onward, first, chapters',
      hafter, ?_⟩
    intro id hid
    have hlength : first + (history chapters').length = log.nextSeq + 1 := by
      rw [hhistory, List.length_append, hholds.nextSeq_eq]
      rfl
    rw [hlength]
    rcases hmoves.ids id hid with hold | hstarted
    · exact Nat.lt_succ_of_lt (hkept.id_lt_nextSeq id hold)
    · rw [List.mem_singleton.mp hstarted]
      exact Nat.lt_succ_of_le hkept.nextLedger_le
  · rintro e after e' after' ⟨hfailed, -⟩
    exact hfailed

theorem truncate_advances (h : log.Mirrors path log') (hclean : log.poisoned = false)
    (hkept : Kept first chapters (.opened log)) (upto : SequenceNumber) :
    Twins (Log.truncate upto) (Log.truncate upto) log log'
      (fun _ after _ after' => Advances path log after after')
      fun e after e' after' => e' = e ∧ after = log ∧ after' = log' := by
  have hholds : log.Holds first chapters [] := hkept.keeps
  have hshows := hholds.keeps.shows
  have hids : log.medium.list = log.ledgers.map (·.id) := by
    rw [hshows.list_eq, map_id_volumes, hholds.ledgers_eq, List.map_map]
    rfl
  have hascending : (log.ledgers.map (·.id)).Pairwise (· < ·) := by
    rw [← hids, hshows.list_eq, List.pairwise_map]
    exact hshows.ids_ascending
  refine ((Log.truncate_twins h upto hids hascending).and_ends (hholds.truncate_ends upto)).mono ?_ ?_
  · rintro _ after _ after' ⟨hmoves, -, hseq, first', chapters', hafter, -⟩
    refine ⟨hmoves.mirrors, hmoves.poisoned.trans hclean, hmoves.onward, first', chapters',
      hafter, ?_⟩
    intro id hid
    rw [← hafter.nextSeq_eq, hseq]
    rcases hmoves.ids id hid with hold | hstarted
    · exact hkept.id_lt_nextSeq id hold
    · cases hstarted
  · rintro e after e' after' ⟨hfailed, -⟩
    exact hfailed

theorem flush_advances (h : log.Mirrors path log') (hclean : log.poisoned = false)
    (hkept : Kept first chapters (.opened log)) :
    Twins Log.flush Log.flush log log'
      (fun _ after _ after' => Advances path log after after') fun _ _ _ _ => False := by
  refine ((Log.flush_twins h).and_ends (Log.flush_ends log)).mono ?_ ?_
  · rintro _ after _ after' ⟨hmoves, rfl⟩
    exact ⟨hmoves.mirrors, hclean, hmoves.onward, first, chapters, hkept⟩
  · rintro _ _ _ _ ⟨hfalse, -⟩
    exact hfalse

theorem readFrom_mirrors (h : log.Mirrors path log') (hkept : Kept first chapters (.opened log))
    (start : SequenceNumber) :
    LogReader.Mirrors log.medium (log.readFrom start) (log'.readFrom start) := by
  have hholds : log.Holds first chapters [] := hkept.keeps
  have hshows := hholds.keeps.shows
  have hsame : log'.readFrom start = log.readFrom start := by
    rw [h.same]
    rfl
  rw [hsame]
  refine { start := rfl, finished := rfl, coming := rfl, expects := ?_, current := .nothing }
  intro c hc
  rcases List.mem_map.mp hc with ⟨info, hinfo, rfl⟩
  have hinfo := List.mem_of_mem_filter hinfo
  rw [hholds.ledgers_eq] at hinfo
  rcases List.mem_map.mp hinfo with ⟨chapter, hchapter, rfl⟩
  have hvolume : chapter.volume [] ∈ volumes [] chapters := by
    rw [volumes_nil]
    exact List.mem_map_of_mem hchapter
  constructor
  · refine ⟨chapter.id, ?_, Nat.le_refl _⟩
    rw [hshows.list_eq]
    exact List.mem_map_of_mem (f := Volume.id) hvolume
  · intro object hobject
    have hfound : log.medium.object? chapter.id = some chapter.object := hshows.object?_eq hvolume
    have hobject : log.medium.object? chapter.id = some object := hobject
    rw [hfound] at hobject
    cases hobject
    have hbytes := hshows.getD_eq hvolume
    show (frames chapter.records).length ≤ (log.medium.objects.getD chapter.object []).length
    have hbytes : log.medium.objects.getD chapter.object [] = frames chapter.records ++ [] := hbytes
    rw [hbytes, List.append_nil]

/-! ## Runs -/

theorem forall₂_place {α β : Type} {relation : α → β → Prop} {as : List α} {bs : List β}
    (h : List.Forall₂ relation as bs) (place : Nat) :
    as[place]? = none ∧ bs[place]? = none ∨
      ∃ a b, as[place]? = some a ∧ bs[place]? = some b ∧ relation a b ∧
        ∀ a' b', relation a' b' → List.Forall₂ relation (as.set place a') (bs.set place b') := by
  induction h generalizing place with
  | nil => exact Or.inl ⟨rfl, rfl⟩
  | cons hfirst hrest ih =>
      rename_i a b as bs
      cases place with
      | zero => exact Or.inr ⟨a, b, rfl, rfl, hfirst, fun a' b' h' => .cons h' hrest⟩
      | succ place =>
          rcases ih place with hnone | ⟨x, y, hx, hy, hrelated, hset⟩
          · exact Or.inl hnone
          · exact Or.inr ⟨x, y, hx, hy, hrelated, fun a' b' h' => .cons hfirst (hset a' b' h')⟩

theorem Mirrors.step (h : Mirrors path user user') (use : LogUse) :
    LogAnswer.Alike path (user.step use).1 (user'.step use).1 ∧
      Mirrors path (user.step use).2 (user'.step use).2 := by
  rcases user with ⟨session, readers⟩
  rcases user' with ⟨session', readers'⟩
  rcases id h with ⟨⟨first, chapters, hkept⟩, hsessions, hreaders⟩
  have hsessions : SessionsMirror path session session' := hsessions
  have hledgers := hsessions.ledgers
  cases use with
  | «open» config =>
      -- nothing is cut off, so the readers made before find what they found
      have hkeeps := hkept.keeps.ledgers
      rcases Log.load_mirrors hledgers hkeeps config with ⟨log, log', hload, hload', hmirrors, hsame⟩
      have hholds := Log.load_keeps hkeeps config
      rw [hload] at hholds
      have hanswer : LogAnswer.opened log'.ledgers log'.nextSeq =
          LogAnswer.opened log.ledgers log.nextSeq := by
        rw [hmirrors.same]
      unfold LogUser.step
      simp only [hload, hload', hanswer]
      refine ⟨.same _, h.of_onward ⟨first, chapters, hholds.1, ?_⟩ (.opened hmirrors hholds.2) ?_⟩
      · show ∀ id ∈ log.medium.list, _
        rw [hsame]
        exact hkept.ids
      · show session.ledgers.Onward log.medium
        rw [hsame]
        exact .refl _
  | append op wellFormed =>
      cases hsessions with
      | closed hmirrors => exact ⟨.same _, h⟩
      | opened hmirrors clean =>
          exact h.call (append_advances hmirrors clean hkept wellFormed)
  | truncate upto =>
      cases hsessions with
      | closed hmirrors => exact ⟨.same _, h⟩
      | opened hmirrors clean =>
          refine h.call ((truncate_advances hmirrors clean hkept upto).mono ?_ ?_)
          · intro _ _ _ _ hadvances
            exact ⟨rfl, hadvances⟩
          · intro _ _ _ _ hfailed
            exact hfailed
  | flush =>
      cases hsessions with
      | closed hmirrors => exact ⟨.same _, h⟩
      | opened hmirrors clean =>
          refine h.call ((flush_advances hmirrors clean hkept).mono_ok ?_)
          intro _ _ _ _ hadvances
          exact ⟨rfl, hadvances⟩
  | close =>
      exact ⟨.same _, h.of_onward ⟨first, chapters, hkept.keeps.ledgers, hkept.ids⟩
        (.closed hledgers) (.refl _)⟩
  | readFrom start =>
      cases hsessions with
      | closed hmirrors => exact ⟨.same _, h⟩
      | opened hmirrors clean =>
          have hreader := readFrom_mirrors hmirrors hkept start
          exact ⟨.same _, { h with readers := List.rel_append hreaders (.cons hreader .nil) }⟩
  | next reader =>
      unfold LogUser.step
      rcases forall₂_place hreaders reader with ⟨hnone, hnone'⟩ | ⟨found, found', hfound, hfound', hreader, hset⟩
      · simp only [hnone, hnone']
        exact ⟨.same _, h⟩
      · rcases hreader.next hledgers with ⟨halike, hlater⟩
        simp only [hfound, hfound']
        exact ⟨.item halike, { h with readers := hset _ _ hlater }⟩

theorem Mirrors.steps (h : Mirrors path user user') (uses : List LogUse) :
    List.Forall₂ (LogAnswer.Alike path) (user.answers uses) (user'.answers uses) ∧
      Mirrors path (user.steps uses) (user'.steps uses) := by
  induction uses generalizing user user' with
  | nil => exact ⟨.nil, h⟩
  | cons use rest ih =>
      rcases h.step use with ⟨halike, hlater⟩
      rcases ih hlater with ⟨hanswers, hafter⟩
      exact ⟨.cons halike hanswers, hafter⟩

theorem mirrors_start (path : String) :
    ∃ folder, Ledgers.acquire.run (Ledgers.inFolder path) = .ok () folder ∧
      Mirrors path (start Ledgers.inMemory) (start folder) := by
  have hmirrors : Ledgers.inMemory.Mirrors path
      { directory := .files (Ledgers.shelved path ∅) true, objects := Ledgers.filed [] } :=
    ⟨∅, [], (fun e he => nomatch he), rfl, rfl⟩
  refine ⟨_, rfl, ⟨.first, [], Ledgers.Keeps.inMemory, ?_⟩, .closed hmirrors, .nil⟩
  intro id hid
  cases hid

/--
Whatever is done to a log and its readers, over a folder it answers step by step
what it answers over memory, up to the name of a missing ledger, and it leaves the
same ledgers with the same bytes.
-/
theorem folder_and_memory_agree (path : String) (uses : List LogUse) :
    ∃ folder, Ledgers.acquire.run (Ledgers.inFolder path) = .ok () folder ∧
      List.Forall₂ (LogAnswer.Alike path) ((start Ledgers.inMemory).answers uses)
        ((start folder).answers uses) ∧
      ((start folder).steps uses).session.ledgers.list =
        ((start Ledgers.inMemory).steps uses).session.ledgers.list ∧
      ∀ id ∈ ((start Ledgers.inMemory).steps uses).session.ledgers.list,
        ((start folder).steps uses).session.ledgers.bytes? id =
          ((start Ledgers.inMemory).steps uses).session.ledgers.bytes? id := by
  rcases mirrors_start path with ⟨folder, hacquire, hstart⟩
  rcases hstart.steps uses with ⟨hanswers, hafter⟩
  have hledgers := hafter.sessions.ledgers
  refine ⟨folder, hacquire, hanswers, hledgers.list_eq, ?_⟩
  intro id hid
  exact hledgers.bytes?_eq (hledgers.le_maxWord hid)

end LogUser
end TieredStore
