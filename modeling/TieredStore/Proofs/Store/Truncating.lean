import Mathlib.Data.List.TakeWhile
import TieredStore.Proofs.Container.Converging
import TieredStore.Proofs.Store.Restoring

/-!
# Truncations that are stopped

Truncating the log drops the ledgers before the newest checkpoint, the oldest first.  If
only some of these deletions are carried out, the log starts in the middle of its history
with records that cannot be replayed on their own.  But a checkpoint always heads its
ledger, and no recovery reads what is before the newest one, so that the log that is left
opens to the same store.
-/

namespace TieredStore

open Chapter LogRecord

/-! ## The newest checkpoint -/

/--
The chapters before the newest one that starts with a checkpoint, this one, and those
behind it.
-/
structure Chapter.SplitsAt (chapters older : List Chapter) (newest : Chapter)
    (newer : List Chapter) : Prop where
  eq : chapters = older ++ newest :: newer
  starts : newest.info.startsWithCheckpoint = true
  newer : ∀ c ∈ newer, c.info.startsWithCheckpoint = false

def Log.outdated (log : Log) : List LedgerInfo :=
  (log.ledgers.reverse.dropWhile (!·.startsWithCheckpoint)).tail.reverse

namespace Chapter.SplitsAt

variable {log : Log} {first : SequenceNumber} {chapters older newer : List Chapter}
  {newest : Chapter} {tail : Bytes} {content : Contents} {replayed : Table}

theorem drop (h : SplitsAt chapters older newest newer) {k : Nat} (hk : k ≤ older.length) :
    SplitsAt (chapters.drop k) (older.drop k) newest newer where
  eq := by rw [h.eq, List.drop_append_of_le_length hk]
  starts := h.starts
  newer := h.newer

theorem find?_reverse (h : SplitsAt chapters older newest newer) :
    (chapters.map info).reverse.find? (·.startsWithCheckpoint) = some newest.info := by
  rw [h.eq]
  simp only [List.map_append, List.map_cons, List.reverse_append, List.reverse_cons,
    List.append_assoc, List.find?_append]
  have hnone : (newer.map info).reverse.find? (·.startsWithCheckpoint) = none := by
    apply List.find?_eq_none.mpr
    intro l hl
    rcases List.mem_map.mp (List.mem_reverse.mp hl) with ⟨c, hc, rfl⟩
    rw [h.newer c hc]
    exact Bool.false_ne_true
  rw [hnone]
  simp [h.starts]

theorem info_first (h : SplitsAt chapters older newest newer)
    (hruns : RunsFrom first (history chapters)) :
    newest.info.first = some (first + (history older).length) := by
  rcases Log.startsWithCheckpoint_eq_true_iff.mp h.starts with ⟨seq, snapshot, rest, hrecords⟩
  rw [h.eq, history_append, history_cons, hrecords, runsFrom_append] at hruns
  have hseq := (runsFrom_cons.mp hruns.2).1
  unfold info LedgerInfo.ofRecords
  rw [hrecords, ← hseq]
  rfl

theorem latestCheckpoint?_eq (h : SplitsAt chapters older newest newer)
    (hledgers : log.ledgers = chapters.map info) : log.latestCheckpoint? = newest.info.first := by
  unfold Log.latestCheckpoint?
  rw [hledgers, h.find?_reverse]
  rfl

theorem recent_eq (h : SplitsAt chapters older newest newer)
    (hruns : RunsFrom first (history chapters)) : recent chapters = history (newest :: newer) := by
  unfold recent
  rw [h.find?_reverse]
  simp only [Option.bind_some, h.info_first hruns, Option.getD_some]
  rw [h.eq, history_append, runsFrom_append] at hruns
  rw [h.eq, history_append, List.filter_append, hruns.1.filter_of_ge (Nat.le_refl _),
    hruns.2.filter_of_le (Nat.le_refl _), List.nil_append]

theorem outdated_eq (h : SplitsAt chapters older newest newer)
    (hledgers : log.ledgers = chapters.map info) : log.outdated = older.map info := by
  have hnewer : ∀ l ∈ (newer.map info).reverse, (!l.startsWithCheckpoint) = true := by
    intro l hl
    rcases List.mem_map.mp (List.mem_reverse.mp hl) with ⟨c, hc, rfl⟩
    rw [h.newer c hc]
    rfl
  unfold Log.outdated
  rw [hledgers, h.eq]
  simp only [List.map_append, List.map_cons, List.reverse_append, List.reverse_cons,
    List.append_assoc]
  rw [List.dropWhile_append_of_pos hnewer, List.singleton_append, List.dropWhile_cons_of_neg]
  · simp
  · simp [h.starts]

end Chapter.SplitsAt

theorem Chapter.splitsAt_or_none (chapters : List Chapter) :
    (∃ older newest newer, SplitsAt chapters older newest newer) ∨
      ∀ c ∈ chapters, c.info.startsWithCheckpoint = false := by
  cases hfind : chapters.reverse.find? (·.info.startsWithCheckpoint) with
  | none =>
      refine Or.inr fun c hc => ?_
      simpa using List.find?_eq_none.mp hfind c (List.mem_reverse.mpr hc)
  | some newest =>
      rcases List.find?_eq_some_iff_append.mp hfind with ⟨hstarts, newer, older, hsplit, hnewer⟩
      refine Or.inl ⟨older.reverse, newest, newer.reverse, ?_, hstarts, ?_⟩
      · rw [← List.reverse_reverse chapters, hsplit, List.reverse_append, List.reverse_cons,
          List.append_assoc]
        rfl
      · intro c hc
        simpa using hnewer c (List.mem_reverse.mp hc)

namespace Log.Holds

variable {log : Log} {first : SequenceNumber} {chapters older newer : List Chapter}
  {newest : Chapter} {tail : Bytes}

/-- A log with outdated ledgers has a newest checkpoint. -/
theorem exists_splitsAt (h : log.Holds first chapters tail) (houtdated : log.outdated ≠ []) :
    ∃ older newest newer, SplitsAt chapters older newest newer := by
  rcases Chapter.splitsAt_or_none chapters with hsplit | hnone
  · exact hsplit
  · have hpassed : ∀ l ∈ log.ledgers.reverse, (!l.startsWithCheckpoint) = true := by
      intro l hl
      rw [h.ledgers_eq] at hl
      rcases List.mem_map.mp (List.mem_reverse.mp hl) with ⟨c, hc, rfl⟩
      rw [hnone c hc]
      rfl
    unfold outdated at houtdated
    rw [List.dropWhile_eq_nil_iff.mpr hpassed] at houtdated
    exact absurd rfl houtdated

theorem records_ne_nil (h : log.Holds first chapters tail)
    (hsplit : SplitsAt chapters older newest newer) {chapter : Chapter} (hmem : chapter ∈ older) :
    chapter.records ≠ [] := by
  apply h.keeps.filled
  rw [hsplit.eq, List.dropLast_append_of_ne_nil (List.cons_ne_nil newest newer)]
  exact List.mem_append_left _ hmem

theorem findSome?_first (h : log.Holds first chapters tail)
    (hsplit : SplitsAt chapters older newest newer) :
    log.ledgers.findSome? (·.first) = some first := by
  have hhead : ∃ chapter more, chapters = chapter :: more ∧ chapter.records ≠ [] := by
    cases older with
    | nil =>
        rcases startsWithCheckpoint_eq_true_iff.mp hsplit.starts with ⟨_, _, _, hrecords⟩
        exact ⟨newest, newer, hsplit.eq, by rw [hrecords]; exact List.cons_ne_nil _ _⟩
    | cons chapter older =>
        exact ⟨chapter, older ++ newest :: newer, hsplit.eq,
          h.records_ne_nil hsplit List.mem_cons_self⟩
  rcases hhead with ⟨chapter, more, hchapters, hrecords⟩
  rcases List.exists_cons_of_ne_nil hrecords with ⟨record, rest, hcons⟩
  have hruns := h.keeps.runs
  rw [hchapters, history_cons, hcons, List.cons_append, runsFrom_cons] at hruns
  rw [h.ledgers_eq, hchapters]
  unfold info LedgerInfo.ofRecords
  rw [← hruns.1]
  simp [hcons]

end Log.Holds

theorem Chapter.first_ne {first : SequenceNumber} {older : List Chapter} {chapter : Chapter}
    (hruns : RunsFrom first (history older)) (hmem : chapter ∈ older) :
    chapter.info.first ≠ some (first + (history older).length) := by
  intro heq
  unfold info LedgerInfo.ofRecords at heq
  cases hrecords : chapter.records with
  | nil =>
      rw [hrecords] at heq
      cases heq
  | cons record rest =>
      rw [hrecords] at heq
      have hfirst : record.1 = first + (history older).length := Option.some.inj heq
      have hlt := (hruns.bounds (List.mem_flatMap.mpr
        ⟨chapter, hmem, by rw [hrecords]; exact List.mem_cons_self⟩)).2
      rw [hfirst] at hlt
      exact absurd hlt (Nat.lt_irrefl _)

/-! ## The log without its first ledgers -/

def Log.oldest (log : Log) : SequenceNumber := (log.ledgers.findSome? (·.first)).getD .first

/--
The log without its first ledgers: it lists those that are left, it reads the records from
the oldest one that is left on, and a fresh look at the ledgers finds the same.
-/
structure Log.Without (log : Log) (count : Nat) (after : Log) : Prop where
  ledgers_eq : after.ledgers = log.ledgers.drop count
  list_eq : after.medium.list = after.ledgers.map (·.id)
  nextSeq_eq : after.nextSeq = log.nextSeq
  records_eq : ∀ from_, after.records from_ = log.records (max from_ after.oldest)
  reopened : ∀ config, ∃ found,
    Log.openIn config (after.medium.release.setFaults fun _ => {}) = .ok found ∧
    found.ledgers = after.ledgers ∧ found.nextSeq = after.nextSeq ∧
    ∀ from_, found.records from_ = after.records from_

namespace Log.Holds

variable {log after : Log} {first : SequenceNumber} {chapters older newer : List Chapter}
  {newest : Chapter} {tail : Bytes}

theorem reopens (h : log.Holds first chapters tail) (config : Config) :
    ∃ found, Log.openIn config (log.medium.release.setFaults fun _ => {}) = .ok found ∧
      found.Holds first chapters [] := by
  rw [h.keeps.shows.release_eq]
  exact openIn_of_no_faults (h.keeps.setFaults _) (h.keeps.shows.setFaults _).2 config

theorem without (h : log.Holds first chapters tail)
    (hsplit : SplitsAt chapters older newest newer) {count : Nat} (hcount : count ≤ older.length)
    (hleft : log.LeftWith (chapters.drop count) tail after) :
    (∃ first', after.Holds first' (chapters.drop count) tail) ∧ log.Without count after := by
  have hrest := hsplit.drop hcount
  have hcheckpoint : ∃ c ∈ chapters.drop count, c.info.startsWithCheckpoint = true := by
    refine ⟨newest, ?_, hsplit.starts⟩
    rw [hrest.eq]
    exact List.mem_append_right _ List.mem_cons_self
  have hparts : chapters.take count ++ chapters.drop count = chapters :=
    List.take_append_drop count chapters
  have hholds : log.Holds first (chapters.take count ++ chapters.drop count) tail := by
    rw [hparts]
    exact h
  have hafter := hholds.drop hcheckpoint hleft.shows
  rw [← hleft.same] at hafter
  have hruns := hholds.keeps.runs
  rw [history_append, runsFrom_append] at hruns
  have holdest : after.oldest = first + (history (chapters.take count)).length := by
    unfold oldest
    rw [hafter.findSome?_first hrest]
    rfl
  refine ⟨⟨_, hafter⟩, ?_⟩
  exact
    { ledgers_eq := by rw [hafter.ledgers_eq, h.ledgers_eq, List.map_drop]
      list_eq := by
        rw [hafter.keeps.shows.list_eq, map_id_volumes, hafter.ledgers_eq, List.map_map]
        rfl
      nextSeq_eq := by rw [hleft.same]
      records_eq := by
        intro from_
        rw [hafter.records_eq, hholds.records_eq, history_append, List.filter_append, holdest,
          hruns.1.filter_of_ge (Nat.le_max_right _ _), List.nil_append]
        refine congrArg _ (List.filter_congr fun r hr => ?_)
        have hle := (hruns.2.bounds hr).1
        exact decide_eq_decide.mpr
          ⟨fun hfrom => Nat.max_le.mpr ⟨hfrom, hle⟩, fun hmax => (Nat.max_le.mp hmax).1⟩
      reopened := by
        intro config
        rcases hafter.reopens config with ⟨found, hrun, hfound⟩
        refine ⟨found, hrun, ?_, ?_, ?_⟩
        · rw [hfound.ledgers_eq, hafter.ledgers_eq]
        · rw [hfound.nextSeq_eq, hafter.nextSeq_eq]
        · intro from_
          rw [hfound.records_eq, hafter.records_eq] }

end Log.Holds

/-! ## Truncating as far as deletions go -/

def Log.deleteFirst (log : Log) (count : Nat) (cause : MediumError) : LedgerId → LedgersM Unit :=
  Ledgers.deleteOnly ((log.outdated.take count).map (·.id)) cause

namespace Store

variable {content : Contents} {store : Store FlakyTier} {first : SequenceNumber}
  {chapters older newer : List Chapter} {newest : Chapter} {tail : Bytes}

/-- Drops all records before the newest checkpoint, as far as deletions of the directory go. -/
def truncateLogBy (delete : LedgerId → LedgersM Unit) :
    StoreM FlakyTier (Option SequenceNumber) := do
  let log := (← get).log
  match log.latestCheckpoint?, log.ledgers.findSome? (·.first) with
  | some checkpoint, some first =>
      if checkpoint ≤ first then return none
      else
        onLog (Log.truncateBy delete checkpoint.prev)
        return some checkpoint.prev
  | _, _ => return none

theorem truncateLogBy_delete : truncateLogBy Ledgers.delete = truncateLog := rfl

theorem truncateLogBy_nil (h : store.log.Holds first chapters tail)
    (hsplit : SplitsAt chapters [] newest newer) (delete : LedgerId → LedgersM Unit) :
    (truncateLogBy delete).run store = .ok none store := by
  have hcheckpoint : store.log.latestCheckpoint? = some first :=
    (hsplit.latestCheckpoint?_eq h.ledgers_eq).trans (hsplit.info_first h.keeps.runs)
  unfold truncateLogBy
  rw [EStateM.run_bind, EStateM.run_get]
  simp only [hcheckpoint, h.findSome?_first hsplit, Nat.le_refl, if_true]
  rfl

theorem truncateLogBy_ends (h : store.log.Holds first chapters tail)
    (hsplit : SplitsAt chapters older newest newer) (holder : older ≠ [])
    (delete : LedgerId → LedgersM Unit)
    {answered : Option SequenceNumber → Store FlakyTier → Prop}
    {failed : Error → Store FlakyTier → Prop}
    (hdrops : Ends ((older.map info).forM fun ledger => Log.dropOldestBy delete ledger.id)
      store.log
      (fun _ log => answered (store.log.latestCheckpoint?.map (·.prev)) { store with log })
      (fun e log => failed e { store with log })) :
    Ends (truncateLogBy delete) store answered failed := by
  have hfirst := hsplit.info_first h.keeps.runs
  have hcheckpoint := (hsplit.latestCheckpoint?_eq h.ledgers_eq).trans hfirst
  have hpos : 0 < (history older).length := by
    rcases List.exists_cons_of_ne_nil holder with ⟨chapter, more, hcons⟩
    have hrecords := h.records_ne_nil hsplit (by rw [hcons]; exact List.mem_cons_self)
    rw [hcons, history_cons, List.length_append]
    exact Nat.add_pos_left (List.length_pos_iff.mpr hrecords) _
  have hindex : store.log.ledgers.findIdx? (fun l =>
      l.first = some (SequenceNumber.prev (first + (history older).length)).next &&
        l.startsWithCheckpoint) = some older.length := by
    have hruns := h.keeps.runs_prefix hsplit.eq
    have hnext : (SequenceNumber.prev (first + (history older).length)).next =
        first + (history older).length := Nat.sub_add_cancel (Nat.le_add_left_of_le hpos)
    have hnone : (older.map info).findIdx? (fun l =>
        l.first = some (first + (history older).length) && l.startsWithCheckpoint) = none := by
      apply List.findIdx?_eq_none_iff.mpr
      intro l hl
      rcases List.mem_map.mp hl with ⟨c, hc, rfl⟩
      rw [decide_eq_false (first_ne hruns hc), Bool.false_and]
    rw [hnext, h.ledgers_eq, hsplit.eq, List.map_append, List.findIdx?_append, hnone, List.map_cons,
      List.findIdx?_cons, hfirst, hsplit.starts]
    simp
  unfold truncateLogBy
  refine Ends.get ?_
  simp only [hcheckpoint, h.findSome?_first hsplit]
  rw [if_neg (Nat.not_le.mpr (Nat.lt_add_of_pos_right hpos))]
  refine Ends.bind (onLog_ends ?_)
  unfold Log.truncateBy
  refine Ends.get ?_
  simp only [hindex]
  rw [h.ledgers_eq, hsplit.eq, List.map_append, List.take_left' (List.length_map _)]
  rw [hcheckpoint] at hdrops
  exact hdrops

theorem truncateLogBy_first (h : store.log.Holds first chapters tail)
    (hsplit : SplitsAt chapters older newest newer) (holder : older ≠ []) {count : Nat}
    (hcount : count ≤ older.length)
    (halive : 0 < count → store.log.medium.faults.crashed = false) (cause : MediumError) :
    ∃ log, (truncateLogBy (store.log.deleteFirst count cause)).run store =
        (if count < older.length then .error (.storage cause) { store with log }
          else .ok (store.log.latestCheckpoint?.map (·.prev)) { store with log }) ∧
      store.log.LeftWith (chapters.drop count) tail log := by
  have hparts : older.take count ++ (older.drop count ++ newest :: newer) = chapters := by
    rw [← List.append_assoc, List.take_append_drop, hsplit.eq]
  have hids : (store.log.outdated.take count).map (·.id) = (older.take count).map (·.id) := by
    rw [hsplit.outdated_eq h.ledgers_eq, ← List.map_take, List.map_map]
    rfl
  have halive' : older.take count ≠ [] → store.log.medium.faults.crashed = false := by
    intro hne
    apply halive
    apply Nat.pos_of_ne_zero
    intro hzero
    rw [hzero] at hne
    exact hne rfl
  have hkept : older.drop count = [] ↔ ¬ count < older.length := by
    rw [List.drop_eq_nil_iff, Nat.not_lt]
  have hdrops := Log.dropFirst_ends (List.cons_ne_nil newest newer) cause
    (by rw [hparts]; exact h.keeps.shows) (by rw [hparts]; exact h.ledgers_eq) halive'
  rw [List.take_append_drop, ← (hsplit.drop hcount).eq, ← hids] at hdrops
  have hends : Ends (truncateLogBy (store.log.deleteFirst count cause)) store
      (fun answer after => ¬ count < older.length ∧
        answer = store.log.latestCheckpoint?.map (·.prev) ∧
        after = { store with log := after.log } ∧
        store.log.LeftWith (chapters.drop count) tail after.log)
      (fun e after => count < older.length ∧ e = .storage cause ∧
        after = { store with log := after.log } ∧
        store.log.LeftWith (chapters.drop count) tail after.log) := by
    apply truncateLogBy_ends h hsplit holder
    apply hdrops.mono
    · rintro _ log ⟨hnil, hlog⟩
      exact ⟨hkept.mp hnil, rfl, rfl, hlog⟩
    · rintro e log ⟨hne, he, hlog⟩
      exact ⟨Classical.not_not.mp fun hnot => hne (hkept.mpr hnot), he, rfl, hlog⟩
  cases hrun : (truncateLogBy (store.log.deleteFirst count cause)).run store with
  | ok answer after =>
      rcases hends.ok hrun with ⟨hall, hanswer, hafter, hlog⟩
      refine ⟨after.log, ?_, hlog⟩
      rw [if_neg hall, ← hafter, hanswer]
  | error e after =>
      rcases hends.error hrun with ⟨hsome, he, hafter, hlog⟩
      refine ⟨after.log, ?_, hlog⟩
      rw [if_pos hsome, ← hafter, he]

theorem truncateLog_rest (h : store.log.Holds first chapters tail)
    (hsplit : SplitsAt chapters older newest newer)
    (halive : store.log.medium.faults.crashed = false) :
    ∃ log, truncateLog.run store =
        .ok (if older = [] then none else store.log.latestCheckpoint?.map (·.prev))
          { store with log } ∧
      store.log.LeftWith (newest :: newer) tail log := by
  by_cases holder : older = []
  · have hchapters : chapters = newest :: newer := by
      rw [hsplit.eq, holder]
      rfl
    rw [holder] at hsplit
    refine ⟨store.log, ?_, ?_⟩
    · rw [if_pos holder]
      exact truncateLogBy_nil h hsplit Ledgers.delete
    · rw [← hchapters]
      exact { same := by rw [← h.ledgers_eq], shows := h.keeps.shows }
  · have hends : Ends truncateLog store
        (fun answer after => answer = store.log.latestCheckpoint?.map (·.prev) ∧
          after = { store with log := after.log } ∧
          store.log.LeftWith (newest :: newer) tail after.log)
        (fun _ _ => False) := by
      rw [← truncateLogBy_delete]
      apply truncateLogBy_ends h hsplit holder
      apply (Log.dropAll_ends_of_alive (List.cons_ne_nil newest newer)
        (by rw [← hsplit.eq]; exact h.keeps.shows) (by rw [← hsplit.eq]; exact h.ledgers_eq)
        halive).mono
      · intro _ log hlog
        exact ⟨rfl, rfl, hlog⟩
      · intro _ _ hfalse
        exact hfalse
    rcases hends.exists_ok with ⟨answer, after, hrun, hanswer, hafter, hlog⟩
    refine ⟨after.log, ?_, hlog⟩
    rw [if_neg holder, hrun, ← hafter, hanswer]

/-- What a truncation that was stopped has left is dropped by the next one. -/
theorem truncateLog_finishes (h : store.log.Holds first chapters tail)
    (hsplit : SplitsAt chapters older newest newer) {count : Nat} (hcount : count ≤ older.length)
    {log : Log} {first' : SequenceNumber} (hlog : log.Holds first' (chapters.drop count) tail)
    (hleft : store.log.LeftWith (chapters.drop count) tail log)
    {change : LedgerFaults → LedgerFaults}
    (halive : (log.medium.setFaults change).faults.crashed = false) :
    ∃ last, truncateLog.run
        { store with log := { log with medium := log.medium.setFaults change } } =
      .ok (if count < older.length then store.log.latestCheckpoint?.map (·.prev) else none)
        { store with log := last } ∧
      store.log.Without older.length last := by
  let switched : Store FlakyTier :=
    { store with log := { log with medium := log.medium.setFaults change } }
  have hswitched : switched.log.Holds first' (chapters.drop count) tail :=
    { hlog with keeps := hlog.keeps.setFaults change }
  have hrest := hsplit.drop hcount
  rcases truncateLog_rest hswitched hrest halive with ⟨last, hrun, hlast⟩
  have hdropped : store.log.LeftWith (chapters.drop older.length) tail last := by
    rw [hsplit.eq, List.drop_left]
    refine { same := ?_, shows := hlast.shows }
    rw [hlast.same]
    show { log with medium := _, ledgers := _ } = _
    rw [hleft.same]
  have hcheckpoint : switched.log.latestCheckpoint? = store.log.latestCheckpoint? :=
    (hrest.latestCheckpoint?_eq hswitched.ledgers_eq).trans
      (hsplit.latestCheckpoint?_eq h.ledgers_eq).symm
  refine ⟨last, ?_, (h.without hsplit (Nat.le_refl _) hdropped).2⟩
  rw [show truncateLog.run _ = _ from hrun, hcheckpoint]
  by_cases hlt : count < older.length
  · rw [if_pos hlt, if_neg (by rw [List.drop_eq_nil_iff]; exact Nat.not_le.mpr hlt)]
  · rw [if_neg hlt, if_pos (List.drop_eq_nil_iff.mpr (Nat.not_lt.mp hlt))]

/-! ## Opening what is left -/

/--
Opening the second host gives the same as opening the first one, but for the log, which
goes on with the same sequence number.
-/
structure OpensAs (config : Config) (host host' : Host FlakyTier) : Prop where
  opened : ∀ s, load config host = .ok s →
    ∃ s', load config host' = .ok s' ∧ s' = { s with log := s'.log } ∧
      s'.log.nextSeq = s.log.nextSeq
  failed : ∀ e left, load config host = .error (e, left) →
    ∃ left', load config host' = .error (e, left')

/-- Recovery depends on the log only by the records from the newest checkpoint on. -/
theorem opensAs_of_recent {config : Config} {host : Host FlakyTier} {ledgers : Ledgers}
    {found found' : Log} (hrun : Log.openIn config host.ledgers = .ok found)
    (hrun' : Log.openIn config ledgers = .ok found')
    (hcheckpoint : found'.latestCheckpoint? = found.latestCheckpoint?)
    (hrecords : ∀ start, found.latestCheckpoint?.getD .first = start →
      found'.records start = found.records start)
    (hnextSeq : found'.nextSeq = found.nextSeq) :
    OpensAs config host { host with ledgers } := by
  have hrecover : (Container.recover found' : ContainerM FlakyTier RecoveryStats) =
      Container.recover found := by
    rw [Container.recover_eq, Container.recover_eq, hcheckpoint, hrecords _ rfl]
  have hload : load config host = recover config found host := by
    unfold load
    rw [hrun]
  have hload' : load config { host with ledgers } =
      recover config found' { host with ledgers } := by
    unfold load
    simp only [hrun']
  rw [recover] at hload hload'
  rw [hrecover] at hload'
  constructor
  · intro s hs
    rw [hload] at hs
    rw [hload']
    simp only at hs ⊢
    split at hs
    · cases hs
    · cases hs
      exact ⟨_, rfl, rfl, hnextSeq⟩
  · intro e left hs
    rw [hload] at hs
    rw [hload']
    simp only at hs ⊢
    split at hs
    · cases hs
      exact ⟨_, rfl⟩
    · cases hs

theorem opensAs_without (h : store.log.Holds first chapters tail)
    (hsplit : SplitsAt chapters older newest newer) {count : Nat} (hcount : count ≤ older.length)
    {log : Log} {first' : SequenceNumber} (hlog : log.Holds first' (chapters.drop count) tail)
    (hnextSeq : log.nextSeq = store.log.nextSeq) (tier : FlakyTier) (config : Config) :
    OpensAs config (store.dropped tier) (dropped { store with log } tier) := by
  have hrest := hsplit.drop hcount
  rcases h.reopens config with ⟨found, hrun, hfound⟩
  rcases hlog.reopens config with ⟨found', hrun', hfound'⟩
  have hcheckpoint : found'.latestCheckpoint? = found.latestCheckpoint? :=
    (hrest.latestCheckpoint?_eq hfound'.ledgers_eq).trans
      (hsplit.latestCheckpoint?_eq hfound.ledgers_eq).symm
  refine opensAs_of_recent hrun hrun' hcheckpoint ?_ ?_
  · rintro start rfl
    rw [hfound.records_recent, ← hcheckpoint, hfound'.records_recent,
      hsplit.recent_eq hfound.keeps.runs, hrest.recent_eq hfound'.keeps.runs]
  · rw [hfound.nextSeq_eq, hfound'.nextSeq_eq, ← h.nextSeq_eq, ← hnextSeq, hlog.nextSeq_eq]

variable {broken : Prop} {s s' : Store FlakyTier}

theorem Kept.reopened (h : store.Kept broken content) {tier : FlakyTier}
    (hgrows : store.container.tier.Grows content store.table tier) {config : Config}
    (hload : load config (store.dropped tier) = .ok s) :
    s.Sound content ∧ s.container.tier.failReads = tier.failReads := by
  rcases h.dropped hgrows with ⟨_, _, _, _, -, hkeeps, -, hlogged, hleft⟩
  have hloaded := load_ends hkeeps hlogged hleft config
  rw [hload] at hloaded
  rcases hloaded with ⟨-, -, hrestored, hfetches⟩
  constructor
  · exact
      { container := hrestored.sound
        fetches := by
          rw [hfetches]
          exact Fetches.sane_empty _ }
  · exact hrestored.failReads_eq

theorem Sound.reads_alike (h : s.Sound content) (hreads : s.container.tier.failReads = false)
    (hsame : s' = { s with log := s'.log }) {id : SegmentId} {t : Segment}
    (ht : s.table.get? id = some t) (hmerged : t.merged = false) {offset : Nat}
    (hstart : t.startOffset ≤ offset) (hoffset : offset ≤ t.length) (maxLength : Nat) :
    ∃ drained after drained' after',
      (readAll id offset maxLength).run s = .ok drained after ∧
      (readAll id offset maxLength).run s' = .ok drained' after' ∧
      drained.data = Bytes.slice (content id) offset maxLength ∧ drained'.data = drained.data := by
  have hsound' : s'.Sound content := by
    rw [hsame]
    exact { container := h.container, fetches := h.fetches }
  have hcontainer : s'.container = s.container := by rw [hsame]
  rcases h.readAll_exact hreads ht hmerged hstart hoffset maxLength with
    ⟨drained, after, hrun, hexact⟩
  rcases hsound'.readAll_exact (by rw [hcontainer]; exact hreads) (by rw [hcontainer]; exact ht)
    hmerged hstart hoffset maxLength with ⟨drained', after', hrun', hexact'⟩
  refine ⟨drained, after, drained', after', hrun, hrun', hexact.data_eq, ?_⟩
  rw [hexact'.data_eq, hexact.data_eq]

end Store

namespace StoreRun

variable {store : Store FlakyTier}

/--
If only the first of the outdated ledgers are deleted, then the log goes on with the others,
truncating it again drops what was not dropped yet, and a store that is opened over what is
left gets the same segments, reads the same and goes on with the same sequence number as one
that is opened over all of the ledgers.
-/
theorem truncation_crash_safe (list : List StoreStep)
    (hopen : (start.steps list).session = .opened store) (houtdated : store.log.outdated ≠ [])
    {count : Nat} (hcount : count ≤ store.log.outdated.length)
    (halive : 0 < count → store.log.medium.faults.crashed = false) (cause : MediumError) :
    ∃ log, (Store.truncateLogBy (store.log.deleteFirst count cause)).run store =
        (if count < store.log.outdated.length then .error (.storage cause) { store with log }
          else .ok (store.log.latestCheckpoint?.map (·.prev)) { store with log }) ∧
      store.log.Without count log ∧
      (∀ change, (log.medium.setFaults change).faults.crashed = false →
        ∃ last, Store.truncateLog.run
            { store with log := { log with medium := log.medium.setFaults change } } =
          .ok (if count < store.log.outdated.length then store.log.latestCheckpoint?.map (·.prev)
            else none) { store with log := last } ∧
          store.log.Without store.log.outdated.length last) ∧
      ∀ tier config, Store.OpensAs config (store.dropped tier)
          (Store.dropped { store with log } tier) ∧
        (store.container.tier.Grows (start.steps list).content store.table tier →
          tier.failReads = false → ∀ s s', Store.load config (store.dropped tier) = .ok s →
          Store.load config (Store.dropped { store with log } tier) = .ok s' →
          s'.table = s.table ∧ ∀ id t offset maxLength, s.table.get? id = some t →
            t.merged = false → t.startOffset ≤ offset → offset ≤ t.length →
            ∃ drained after drained' after',
              (Store.readAll id offset maxLength).run s = .ok drained after ∧
              (Store.readAll id offset maxLength).run s' = .ok drained' after' ∧
              drained.data = Bytes.slice ((start.steps list).content id) offset maxLength ∧
              drained'.data = drained.data) := by
  have hkept := kept_of_opened list hopen
  rcases hkept with ⟨replayed, htracks⟩
  rcases htracks.leads with ⟨first, chapters, tail, hholds, hlogged⟩
  rcases hholds.exists_splitsAt houtdated with ⟨older, newest, newer, hsplit⟩
  have houtdated_eq := hsplit.outdated_eq hholds.ledgers_eq
  have holder : older ≠ [] := by
    intro hnil
    rw [houtdated_eq, hnil] at houtdated
    exact houtdated rfl
  have hlength : store.log.outdated.length = older.length := by
    rw [houtdated_eq, List.length_map]
  rw [hlength] at hcount ⊢
  rcases Store.truncateLogBy_first hholds hsplit holder hcount halive cause with
    ⟨log, hrun, hleft⟩
  rcases hholds.without hsplit hcount hleft with ⟨⟨first', hlog⟩, hwithout⟩
  refine ⟨log, hrun, hwithout, ?_, ?_⟩
  · intro change halive'
    exact Store.truncateLog_finishes hholds hsplit hcount hlog hleft halive'
  · intro tier config
    have hopens := Store.opensAs_without hholds hsplit hcount hlog hwithout.nextSeq_eq tier config
    refine ⟨hopens, ?_⟩
    intro hgrows hreads s s' hs hs'
    rcases hopens.opened s hs with ⟨found, hfound, hsame', -⟩
    rw [hs'] at hfound
    cases hfound
    rcases Store.Kept.reopened ⟨replayed, htracks⟩ hgrows hs with ⟨hsound, hfailReads⟩
    constructor
    · rw [hsame']
      rfl
    · intro id t offset maxLength ht hmerged hstart hoffset
      exact hsound.reads_alike (hfailReads.trans hreads) hsame' ht hmerged hstart hoffset maxLength

/-- Every record has its own ledger, and a checkpoint has just been written. -/
private def snapshotted : List StoreStep :=
  [.reopen { maxLedgerSize := 1 }, .create "a", .append ⟨1, 7, 1, [97, 98, 99]⟩, .checkpoint]

private theorem namesApart_of_checkpoint {first seq : SequenceNumber} {chapters : List Chapter}
    {tail : Bytes} (h : store.log.Holds first chapters tail)
    (hseq : store.log.latestCheckpoint? = some seq) (hlast : store.log.nextSeq = seq.next)
    {records : List LogRecord} (hrecords : store.log.records seq = records.map .ok) :
    Operation.NamesApart [] (records.map (·.2)) := by
  rcases h.records_of_newest hseq hlast with ⟨snapshot, heq⟩
  have hsame : records = [(seq, .checkpoint snapshot)] :=
    (List.map_inj_right fun _ _ h => Except.ok.inj h).mp (hrecords.symm.trans heq)
  rw [hsame]
  exact trivial

private theorem crashed_setFaults (ledgers : Ledgers) :
    (ledgers.setFaults fun _ => {}).faults.crashed = false := by
  rcases ledgers with ⟨directory, objects⟩
  cases directory with
  | memory known faults => rfl
  | files folder locked => rfl

/--
One of two outdated ledgers has been deleted when a deletion fails; then either the other one
is deleted too, or the process ends and the store is opened again.
-/
theorem truncation_crash_safe_halfway :
    ∃ store log last s s', (start.steps snapshotted).session = .opened store ∧
      (Store.truncateLogBy (store.log.deleteFirst 1 (.failed .mediumGone))).run store =
        .error (.storage (.failed .mediumGone)) { store with log } ∧
      store.log.ledgers.map (·.id) = [1, 2, 3] ∧ log.medium.list = [2, 3] ∧
      Store.truncateLog.run
          { store with log := { log with medium := log.medium.setFaults fun _ => {} } } =
        .ok (some 2) { store with log := last } ∧ last.medium.list = [3] ∧
      Store.load {} (store.dropped store.container.tier) = .ok s ∧
      Store.load {} (Store.dropped { store with log } store.container.tier) = .ok s' ∧
      s'.table = s.table ∧ s'.log.nextSeq = s.log.nextSeq := by
  have hisSome : (start.steps snapshotted).session.store?.isSome = true := by decide +kernel
  have hfound : (start.steps snapshotted).session.store?.map (fun store =>
      (store.log.ledgers.map (·.id), store.log.outdated.length, store.log.latestCheckpoint?,
        store.log.nextSeq, store.log.medium.faults.crashed, store.container.tier.failReads)) =
      some ([1, 2, 3], 2, some 3, 4, false, false) := by decide +kernel
  rcases Option.isSome_iff_exists.mp hisSome with ⟨store, hstore⟩
  have hopen : (start.steps snapshotted).session = .opened store := Session.eq_opened hstore
  rw [hstore] at hfound
  simp only [Option.map_some, Option.some.injEq, Prod.mk.injEq] at hfound
  rcases hfound with ⟨hids, hlength, hcheckpoint, hnextSeq, halive, hreads⟩
  rcases (kept_of_opened _ hopen).reopens_iff (Or.inl rfl) {} with ⟨records, hrecords, hiff⟩
  rw [hcheckpoint] at hrecords
  rcases kept_of_opened _ hopen with ⟨replayed, htracks⟩
  rcases htracks.leads with ⟨first, chapters, tail, hholds, -⟩
  rcases hiff.mpr (namesApart_of_checkpoint hholds hcheckpoint hnextSeq hrecords) with ⟨s, hs⟩
  have houtdated : store.log.outdated ≠ [] := by
    apply List.ne_nil_of_length_pos
    rw [hlength]
    exact Nat.zero_lt_two
  rcases truncation_crash_safe _ hopen houtdated (show 1 ≤ store.log.outdated.length by
    rw [hlength]; decide) (fun _ => halive) (.failed .mediumGone) with
    ⟨log, hrun, hwithout, hagain, hopens⟩
  have hlt : 1 < store.log.outdated.length := by rw [hlength]; decide
  rw [if_pos hlt] at hrun
  rcases hagain (fun _ => {}) (crashed_setFaults _) with ⟨last, hrun', hwithout'⟩
  rw [if_pos hlt, hcheckpoint] at hrun'
  rcases hopens store.container.tier {} with ⟨hopensAs, hreads'⟩
  rcases hopensAs.opened s hs with ⟨s', hs', -, hnext⟩
  refine ⟨store, log, last, s, s', hopen, hrun, hids, ?_, hrun', ?_, hs, hs',
    (hreads' (Or.inl rfl) hreads s s' hs hs').1, hnext⟩
  · rw [hwithout.list_eq, hwithout.ledgers_eq, List.map_drop, hids]
    rfl
  · rw [hwithout'.list_eq, hwithout'.ledgers_eq, List.map_drop, hids, hlength]
    rfl

end StoreRun
end TieredStore
