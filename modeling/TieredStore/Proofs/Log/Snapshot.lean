import TieredStore.Proofs.Ledger.Walking
import TieredStore.Proofs.Log.Run

/-!
# A reader sees the log as it was

A reader notes how much of each ledger the log has acknowledged, and opens the
ledgers when it comes to them.  Until then and while it reads them, records are
added behind what it has noted, pieces of frames are left there and cut off, and
newer ledgers are started.  None of that touches the bytes that it has noted, so
without a truncation it comes upon the records that were there when it was made.
-/

namespace TieredStore

open LogRecord

/-!
## What has been noted stays
-/

namespace Chapter

variable {before middle after chapters older : List Chapter} {newest : Chapter} {tail : Bytes}

/-- The chapter has stayed where it was, and at most has got more records. -/
structure GrowsInto (before after : Chapter) : Prop where
  id_eq : after.id = before.id
  object_eq : after.object = before.object
  records : before.records <+: after.records

theorem GrowsInto.refl (chapter : Chapter) : chapter.GrowsInto chapter :=
  ⟨rfl, rfl, List.prefix_rfl⟩

theorem growsInto_extend (chapter : Chapter) (record : LogRecord) :
    chapter.GrowsInto (chapter.extend record) :=
  ⟨rfl, rfl, List.prefix_append _ _⟩

def Grow (before after : List Chapter) : Prop :=
  ∀ c ∈ before, ∃ c' ∈ after, c.GrowsInto c'

theorem Grow.refl (chapters : List Chapter) : Grow chapters chapters :=
  fun c hc => ⟨c, hc, .refl c⟩

theorem Grow.trans (h : Grow before middle) (hnext : Grow middle after) : Grow before after := by
  intro c hc
  obtain ⟨c', hc', hgrows⟩ := h c hc
  obtain ⟨c'', hc'', hgrows'⟩ := hnext c' hc'
  exact ⟨c'', hc'', hgrows'.id_eq.trans hgrows.id_eq, hgrows'.object_eq.trans hgrows.object_eq,
    hgrows.records.trans hgrows'.records⟩

theorem Continues.grow (h : Continues chapters older newest) :
    Grow chapters (older ++ [newest]) := by
  rcases h with rfl | ⟨rfl, -⟩
  · exact .refl _
  · exact fun c hc => ⟨c, List.mem_append_left _ hc, .refl c⟩

theorem grow_extend (older : List Chapter) (newest : Chapter) (record : LogRecord) :
    Grow (older ++ [newest]) (older ++ [newest.extend record]) := by
  intro c hc
  rcases List.mem_append.mp hc with hold | hlast
  · exact ⟨c, List.mem_append_left _ hold, .refl c⟩
  · rw [List.mem_singleton.mp hlast]
    exact ⟨_, List.mem_append_right _ List.mem_cons_self, growsInto_extend _ _⟩

theorem exists_mem_volumes (tail : Bytes) {chapter : Chapter} (h : chapter ∈ chapters) :
    ∃ behind, chapter.volume behind ∈ volumes tail chapters := by
  rcases List.eq_nil_or_concat chapters with rfl | ⟨older, newest, rfl⟩
  · cases h
  · rw [List.concat_eq_append] at h ⊢
    rw [volumes_concat]
    rcases List.mem_append.mp h with hold | hlast
    · exact ⟨[], List.mem_append_left _ (List.mem_map_of_mem hold)⟩
    · rw [List.mem_singleton.mp hlast]
      exact ⟨tail, List.mem_append_right _ List.mem_cons_self⟩

end Chapter

open Chapter

def Ledgers.Retains (ledgers : Ledgers) (noted : List Chapter) : Prop :=
  ∀ c ∈ noted, ledgers.attach c.id = .ok (.memory c.object) ∧
    frames c.records <+: ledgers.objects.getD c.object []

theorem Ledgers.Keeps.retains {ledgers : Ledgers} {first : SequenceNumber}
    {noted chapters : List Chapter} {tail : Bytes} (h : ledgers.Keeps first chapters tail)
    (hgrow : Grow noted chapters) : ledgers.Retains noted := by
  intro c hc
  obtain ⟨c', hc', hgrows⟩ := hgrow c hc
  obtain ⟨behind, hv⟩ := exists_mem_volumes tail hc'
  have hattach := h.shows.attach_eq hv
  have hbytes := h.shows.getD_eq hv
  rw [← hgrows.id_eq, ← hgrows.object_eq]
  refine ⟨hattach, ?_⟩
  show _ <+: ledgers.objects.getD (c'.volume behind).object []
  rw [hbytes]
  obtain ⟨more, hmore⟩ := hgrows.records
  refine ⟨frames more ++ behind, ?_⟩
  rw [volume, ← hmore, frames_append, List.append_assoc]

namespace LogStep

def truncates : LogStep → Bool
  | truncate _ => true
  | _ => false

end LogStep

namespace LogRun

variable {first : SequenceNumber} {chapters : List Chapter} {tail : Bytes} {run : LogRun}

/-- Only a truncation takes chapters away. -/
theorem Keeps.step (h : Keeps first chapters tail run.session) {next : LogStep}
    (hnext : next.truncates = false) :
    ∃ chapters' tail', Keeps first chapters' tail' (run.step next).session ∧
      Grow chapters chapters' := by
  obtain ⟨session, records, acknowledged⟩ := run
  have hunchanged : ∃ chapters' tail', Keeps first chapters' tail' session ∧
      Grow chapters chapters' := ⟨chapters, tail, h, .refl chapters⟩
  cases next with
  | append op wellFormed =>
      cases session with
      | closed medium => exact hunchanged
      | opened log =>
          have hholds : log.Holds first chapters tail := h
          refine step_append_ends
            (motive := fun run => ∃ chapters' tail', Keeps first chapters' tail' run.session ∧
              Grow chapters chapters') wellFormed
            ((hholds.append_continues wellFormed).mono ?_ ?_)
          · -- the record is behind all that was there
            rintro _ after ⟨-, -, older, newest, hcontinues, -, hafter⟩
            exact ⟨_, [], hafter, hcontinues.grow.trans (grow_extend older newest _)⟩
          · rintro _ after (rfl | ⟨-, older, newest, hcontinues, -, tail', -, hafter⟩)
            · exact hunchanged
            · exact ⟨_, tail', hafter, hcontinues.grow⟩
  | truncate upto => cases hnext
  | flush =>
      rw [step_flush]
      exact hunchanged
  | read start => exact hunchanged
  | close => exact ⟨chapters, tail, h.close, .refl chapters⟩
  | reopen config =>
      obtain ⟨tail', hafter⟩ := h.reopen config
      exact ⟨chapters, tail', hafter, .refl chapters⟩
  | switch change => exact ⟨chapters, tail, h.setFaults change, .refl chapters⟩

end LogRun

/-!
## Readers of what has been noted
-/

theorem Handle.read_of_prefix {objects : Objects} {object offset length : Nat} {bytes : Bytes}
    (h : bytes <+: objects.getD object []) (hrange : offset + length ≤ bytes.length) :
    (Handle.memory object).read objects offset length = .ok (bytes.slice offset length) := by
  have hfresh : (Handle.memory object).Fresh objects := rfl
  rw [hfresh.sees.read (Nat.le_trans hrange h.length_le), Bytes.slice_of_prefix h hrange]
  rfl

namespace LogReader

variable {noted : List Chapter} {before after ledgers : Ledgers} {start : SequenceNumber}
  {reader : LogReader} {front : List Item}

def Inside (noted : List Chapter) (walk : Walk) : Prop :=
  ∃ c ∈ noted, walk.handle = .memory c.object ∧ walk.stop = (frames c.records).length

structure Within (noted : List Chapter) (reader : LogReader) : Prop where
  coming : ∀ entry ∈ reader.coming, ∃ c ∈ noted, entry = (c.id, (frames c.records).length)
  current : ∀ entry ∈ reader.current, Inside noted entry.2

theorem seek_inside (id : LedgerId) (start : SequenceNumber) (objects : Objects) :
    ∀ (fuel : Nat) {walk : Walk}, Inside noted walk →
      Inside noted (seek id start objects fuel walk).2
  | 0, _, h => h
  | fuel + 1, walk, h => by
      have hnext : Inside noted (walk.next objects).2 := by
        obtain ⟨c, hc, hhandle, hstop⟩ := h
        have hkeeps := walk.next_keeps objects
        exact ⟨c, hc, hkeeps.1.trans hhandle, hkeeps.2.trans hstop⟩
      unfold seek
      split
      · rename_i hitem
        rwa [hitem] at hnext
      · rename_i hitem
        rwa [hitem] at hnext
      · rename_i hitem
        rwa [hitem] at hnext
      · rename_i hitem
        rw [hitem] at hnext
        split
        · exact hnext
        · split
          · exact seek_inside id start objects fuel hnext
          · exact hnext

theorem seekCurrent_inside {objects : Objects} {current : Option (LedgerId × Walk)} {item : Item}
    {found : LedgerId × Walk} (h : ∀ entry ∈ current, Inside noted entry.2)
    (hseek : seekCurrent start objects current = some (item, found)) : Inside noted found.2 := by
  cases current with
  | none => cases hseek
  | some entry =>
      obtain ⟨id, walk⟩ := entry
      have hinside := seek_inside id start objects (walk.stop - walk.position + 2) (h _ rfl)
      unfold seekCurrent at hseek
      dsimp only at hseek
      split at hseek
      · rename_i later hrun
        rw [hrun] at hinside
        cases hseek
        exact hinside
      · cases hseek

theorem advance_within (hretains : ledgers.Retains noted) (start : SequenceNumber) :
    ∀ {coming : List (LedgerId × Nat)} {current : Option (LedgerId × Walk)},
      Within noted { coming, current, start } →
        Within noted (advance start ledgers coming current).2
  | [], current, h => by
      unfold advance
      split
      · rename_i hseek
        exact { h with current := fun _ hentry => Option.some.inj hentry ▸
          seekCurrent_inside h.current hseek }
      · exact { h with current := fun _ hentry => nomatch hentry }
  | (ledger, size) :: rest, current, h => by
      have hrest : ∀ entry ∈ rest, ∃ c ∈ noted, entry = (c.id, (frames c.records).length) :=
        fun entry hentry => h.coming entry (List.mem_cons_of_mem _ hentry)
      unfold advance
      split
      · rename_i hseek
        exact { h with current := fun _ hentry => Option.some.inj hentry ▸
          seekCurrent_inside h.current hseek }
      · obtain ⟨c, hc, heq⟩ := h.coming (ledger, size) List.mem_cons_self
        cases heq
        simp only [(hretains c hc).1]
        refine advance_within hretains start ⟨hrest, ?_⟩
        intro entry hentry
        rw [← Option.some.inj hentry]
        exact ⟨c, hc, rfl, rfl⟩

theorem Within.next (h : reader.Within noted) (hretains : ledgers.Retains noted) :
    (reader.next ledgers).2.Within noted := by
  have hadvance := advance_within hretains reader.start ⟨h.coming, h.current⟩
  unfold LogReader.next
  split
  · exact h
  · split
    · rename_i hrun
      rwa [hrun] at hadvance
    · rename_i hrun
      rw [hrun] at hadvance
      exact { hadvance with }

theorem Reads.of_retains (h : reader.Reads before front) (hwithin : reader.Within noted)
    (hbefore : before.Retains noted) (hafter : after.Retains noted) :
    reader.Reads after front := by
  rcases h.parts with ⟨current, pages, hfront, hcoming, hready, hcurrent⟩
  refine { going := h.going, parts := ⟨current, pages, hfront, hcoming, ?_, ?_⟩ }
  · -- a ledger that the reader has not opened yet
    intro page hpage
    obtain ⟨more, hbytes⟩ := hready page hpage
    obtain ⟨c, hc, heq⟩ := hwithin.coming (page.id, (StoredRecord.frames page.records).length)
      (by rw [hcoming]; exact List.mem_map_of_mem hpage)
    obtain ⟨hid, hlength⟩ := Prod.mk.inj heq
    have hsame : StoredRecord.frames page.records = frames c.records := by
      obtain ⟨hattach, hprefix⟩ := hbefore c hc
      rw [Ledgers.bytes?, hid, hattach] at hbytes
      have hcontents : before.objects.getD c.object [] = StoredRecord.frames page.records ++ more :=
        Option.some.inj hbytes
      rw [hcontents] at hprefix
      rw [List.prefix_iff_eq_take.mp hprefix, ← hlength, List.take_left]
    obtain ⟨hattach, behind, hbehind⟩ := hafter c hc
    refine ⟨behind, ?_⟩
    rw [Ledgers.bytes?, hid, hattach, hsame, hbehind]
    rfl
  · cases hcurrent' : reader.current with
    | none =>
        rw [hcurrent'] at hcurrent
        exact hcurrent
    | some entry =>
        rw [hcurrent'] at hcurrent
        -- it has one open and reads no further than it has noted
        obtain ⟨records, hfacing, heq⟩ := hcurrent
        obtain ⟨c, hc, hhandle, hstop⟩ := hwithin.current entry hcurrent'
        refine ⟨records, { hfacing with readable := ?_ }, heq⟩
        intro offset count hcount
        have hrange : entry.2.position + offset + count ≤ (frames c.records).length := by
          rw [← hstop, hfacing.stop_eq]
          omega
        have hread := hfacing.readable offset count hcount
        rw [hhandle, Handle.read_of_prefix (hbefore c hc).2 hrange] at hread
        rw [hhandle, Handle.read_of_prefix (hafter c hc).2 hrange]
        exact hread

end LogReader

/-!
## The theorem
-/

namespace LogRun

/--
What a reader answers that is asked again and again, with some steps of the run
before each time.
-/
def answers (run : LogRun) (reader : LogReader) : List (List LogStep) → List (Option LogReader.Item)
  | [] => []
  | steps :: rest =>
      let later := run.steps steps
      let answer := reader.next later.session.ledgers
      answer.1 :: answers later answer.2 rest

/-- The reader has these records in front of it, and nothing takes them away. -/
structure Follows (noted : List Chapter) (run : LogRun) (reader : LogReader)
    (front : List LogRecord) : Prop where
  keeps : ∃ first chapters tail, Keeps first chapters tail run.session ∧ Grow noted chapters
  within : reader.Within noted
  reads : reader.Reads run.session.ledgers (front.map .ok) ∨ front = [] ∧ reader.finished = true

namespace Follows

variable {noted : List Chapter} {run : LogRun} {reader : LogReader} {front : List LogRecord}
  {record : LogRecord}

theorem retains (h : Follows noted run reader front) : run.session.ledgers.Retains noted := by
  obtain ⟨first, chapters, tail, hkeeps, hgrow⟩ := h.keeps
  exact hkeeps.ledgers.retains hgrow

theorem step (h : Follows noted run reader front) {next : LogStep}
    (hnext : next.truncates = false) : Follows noted (run.step next) reader front := by
  obtain ⟨first, chapters, tail, hkeeps, hgrow⟩ := h.keeps
  obtain ⟨chapters', tail', hkeeps', hgrow'⟩ := hkeeps.step hnext
  have hretains := hkeeps'.ledgers.retains (hgrow.trans hgrow')
  refine { keeps := ⟨first, chapters', tail', hkeeps', hgrow.trans hgrow'⟩, within := h.within,
           reads := h.reads.imp_left ?_ }
  intro hreads
  exact hreads.of_retains h.within h.retains hretains

theorem steps (h : Follows noted run reader front) {list : List LogStep}
    (hlist : ∀ next ∈ list, next.truncates = false) :
    Follows noted (run.steps list) reader front := by
  induction list generalizing run with
  | nil => exact h
  | cons next rest ih =>
      exact ih (h.step (hlist next List.mem_cons_self))
        fun s hs => hlist s (List.mem_cons_of_mem _ hs)

/-- Each time the reader answers the first record that is in front of it, or nothing. -/
theorem next (h : Follows noted run reader front) :
    (reader.next run.session.ledgers).1 = front.head?.map .ok ∧
      Follows noted run (reader.next run.session.ledgers).2 front.tail := by
  have hwithin := h.within.next h.retains
  rcases h.reads with hreads | ⟨rfl, hfinished⟩
  · cases front with
    | nil =>
        obtain ⟨hnone, hfinished⟩ := hreads.next_end (fun _ => nofun)
        exact ⟨hnone, { h with within := hwithin, reads := Or.inr ⟨rfl, hfinished⟩ }⟩
    | cons record rest =>
        obtain ⟨hsome, hrest⟩ := hreads.next_ok
        exact ⟨hsome, { h with within := hwithin, reads := Or.inl hrest }⟩
  · rw [LogReader.next_finished hfinished]
    exact ⟨rfl, h⟩

theorem answers_eq (h : Follows noted run reader front) {between : List (List LogStep)}
    (hbetween : ∀ list ∈ between, ∀ next ∈ list, next.truncates = false) :
    run.answers reader between =
      (List.range between.length).map fun k => front[k]?.map .ok := by
  induction between generalizing run reader front with
  | nil => rfl
  | cons list rest ih =>
      have hlater := h.steps (hbetween list List.mem_cons_self)
      obtain ⟨hanswer, hnext⟩ := hlater.next
      have hrest := ih hnext fun other hother => hbetween other (List.mem_cons_of_mem _ hother)
      rw [List.length_cons, List.range_succ_eq_map, List.map_cons, List.map_map, answers, hanswer,
        hrest, List.head?_eq_getElem?]
      simp only [Function.comp_def, List.getElem?_tail, Nat.succ_eq_add_one]

end Follows

/--
A reader that is made of an open log and asked any number of times, with any steps
other than truncations in between, answers the records from its start on that the
log held when it was made, one each time, and then nothing more.
-/
theorem reader_is_a_snapshot (list : List LogStep) {log : Log}
    (hopen : (start.steps list).session = .opened log) (from_ : SequenceNumber)
    (between : List (List LogStep))
    (hbetween : ∀ list ∈ between, ∀ next ∈ list, next.truncates = false) :
    (start.steps list).answers (log.readFrom from_) between =
      (List.range between.length).map fun k =>
        ((start.steps list).records.filter fun r => from_ ≤ r.1)[k]?.map .ok := by
  obtain ⟨first, chapters, tail, hhistory, -, hkeeps⟩ := exact_start.steps list
  have hfollows : Follows chapters (start.steps list) (log.readFrom from_)
      ((start.steps list).records.filter fun r => from_ ≤ r.1) := by
    rw [hopen] at hkeeps
    have hholds : log.Holds first chapters tail := hkeeps
    refine { keeps := ⟨first, chapters, tail, by rw [hopen]; exact hkeeps, .refl chapters⟩,
             within := ⟨?_, fun _ hentry => nomatch hentry⟩, reads := Or.inl ?_ }
    · intro entry hentry
      obtain ⟨ledger, hledger, rfl⟩ := List.mem_map.mp hentry
      have hmem := (List.mem_filter.mp hledger).1
      rw [hholds.ledgers_eq] at hmem
      obtain ⟨c, hc, rfl⟩ := List.mem_map.mp hmem
      exact ⟨c, hc, rfl⟩
    · rw [hopen, ← hhistory]
      exact hholds.reads from_
  exact hfollows.answers_eq hbetween

private def created : List LogStep :=
  [.reopen { maxLedgerSize := 70 }, .append (.create 1 "a") trivial,
    .append (.create 2 "b") trivial]

/-- A crash in the middle of a frame, an opening after it, and a checkpoint in a newer ledger. -/
private def meanwhile : List (List LogStep) :=
  [[.switch ({ · with budget := some 20 }), .append (.create 3 "c") trivial],
    [.switch (fun _ => {}), .reopen {}, .append (.checkpoint {}) Table.WellFormed.empty], [.close], []]

theorem reader_is_a_snapshot_beside_appends :
    ∃ log, (start.steps created).session = .opened log ∧
      (start.steps created).answers (log.readFrom 1) meanwhile =
        [some (.ok (1, .create 1 "a")), some (.ok (2, .create 2 "b")), none, none] := by
  have hisSome : (start.steps created).session.log?.isSome = true := by decide +kernel
  have hrecords : (start.steps created).records = [(1, .create 1 "a"), (2, .create 2 "b")] := by
    decide +kernel
  have hmeanwhile : ∀ list ∈ meanwhile, ∀ next ∈ list, next.truncates = false := by
    simp [meanwhile, LogStep.truncates]
  obtain ⟨log, hlog⟩ := Option.isSome_iff_exists.mp hisSome
  have hopen : (start.steps created).session = .opened log := LogSession.eq_opened hlog
  refine ⟨log, hopen, ?_⟩
  rw [reader_is_a_snapshot created hopen 1 meanwhile hmeanwhile, hrecords]
  rfl

end LogRun
end TieredStore
