import Mathlib.Data.List.Infix
import TieredStore.Proofs.Store.Cursor
import TieredStore.Proofs.Store.Readers

/-!
# Reads have no gaps

In a run with readers one read is followed from its beginning on, with the entries that it
hands out and what calls make of them.  Whatever else is done to the store meanwhile, the
bytes that its entries get are those of the segment from the start of the read on, the read
waits for the last entry and for nothing else, and once it is over it stays so.
-/

namespace TieredStore

/-- A run with readers, one of its reads, and the entries that this read has handed out. -/
structure FollowedRun where
  run : ReaderRun
  read : ReadResult
  entries : List Entry := []

namespace FollowedRun

def begin (run : ReaderRun) (id : SegmentId) (offset maxLength : Nat) (read : ReadResult) :
    FollowedRun :=
  { run := run.step (.read id offset maxLength), read }

def readAfter (followed : FollowedRun) (store : Store FlakyTier) : StoreStep → ReadResult
  | .next read => if read = followed.read then (read.next store).read else followed.read
  | _ => followed.read

def entriesAfter (followed : FollowedRun) (store : Store FlakyTier) : StoreStep → List Entry
  | .next read =>
      if read = followed.read then followed.entries ++ (read.next store).entries
      else followed.entries
  | .awaitEntry entry =>
      followed.entries.map fun other =>
        if other = entry then (entry.awaitContent store).entry else other
  | .pollEntry entry =>
      followed.entries.map fun other =>
        if other = entry then (entry.tryContent store).entry else other
  | _ => followed.entries

def step (followed : FollowedRun) (next : ReaderStep) : FollowedRun :=
  match followed.run.run.session, next with
  | .opened store, .step call =>
      if followed.run.grants call then
        { run := followed.run.step (.step call)
          read := followed.readAfter store call
          entries := followed.entriesAfter store call }
      else followed
  | _, next => { followed with run := followed.run.step next }

def steps (followed : FollowedRun) (list : List ReaderStep) : FollowedRun := list.foldl step followed

def Trusts (followed : FollowedRun) : Prop :=
  ∀ {store}, followed.run.run.session = .opened store →
    store.fetches.Trusts followed.run.run.content store.container.tier

/-! ## Entries and those that are held -/

def Known (entries held : List Entry) : Prop :=
  ∀ entry ∈ entries, ∀ other ∈ held, other.number = entry.number → other = entry

theorem Known.hand_out {entries held new : List Entry} {count : Nat} (h : Known entries held)
    (hentries : ∀ entry ∈ entries, entry.number < count)
    (hheld : ∀ other ∈ held, other.number < count) (hnew : ∀ entry ∈ new, entry.number = count)
    (hone : ∀ entry ∈ new, ∀ other ∈ new, other = entry) :
    Known (entries ++ new) (new ++ held) := by
  intro entry hentry other hother hnumber
  rcases List.mem_append.mp hentry with hold | hadded
  · rcases List.mem_append.mp hother with hother | hother
    · rw [hnew other hother] at hnumber
      exact absurd (hentries entry hold) (Nat.not_lt.mpr (Nat.le_of_eq hnumber))
    · exact h entry hold other hother hnumber
  · rcases List.mem_append.mp hother with hother | hother
    · exact hone entry hadded other hother
    · rw [hnew entry hadded] at hnumber
      exact absurd (hheld other hother) (Nat.not_lt.mpr (Nat.le_of_eq hnumber.symm))

theorem Known.replace {entries held : List Entry} {entry resolved : Entry} (h : Known entries held)
    (hmem : entry ∈ held) (hsame : resolved.number = entry.number)
    (hapart : ∀ other ∈ held.erase entry, entry.number ≠ other.number) :
    Known (entries.map fun other => if other = entry then resolved else other)
      (resolved :: held.erase entry) := by
  intro told htold other hother hnumber
  rcases List.mem_map.mp htold with ⟨before, hbefore, rfl⟩
  by_cases hown : before = entry
  · rw [if_pos hown] at hnumber ⊢
    rcases List.mem_cons.mp hother with rfl | hrest
    · rfl
    · rw [hsame] at hnumber
      exact absurd hnumber.symm (hapart other hrest)
  · rw [if_neg hown] at hnumber ⊢
    rcases List.mem_cons.mp hother with rfl | hrest
    · rw [hsame] at hnumber
      exact absurd (h before hbefore entry hmem hnumber).symm hown
    · exact h before hbefore other (List.mem_of_mem_erase hrest) hnumber

/-! ## One step -/

variable {followed last : FollowedRun} {store after : Store FlakyTier} {next : ReaderStep}
  {entry resolved : Entry}

/-- The read that is followed and its entries are in order. -/
structure Going (followed : FollowedRun) (store : Store FlakyTier) : Prop where
  opened : followed.run.run.session = .opened store
  upheld : followed.run.Upheld
  held : followed.read ∈ followed.run.reads
  cursor : followed.read.Cursor followed.run.run.content followed.entries
  noted : ∀ entry ∈ followed.entries,
    entry.Noted followed.run.run.content followed.read.segment store
  known : Known followed.entries followed.run.entries

/-- The read goes on, at its place, and if it was over it still is. -/
structure Goes (followed last : FollowedRun) (after : Store FlakyTier) : Prop where
  going : last.Going after
  segment_eq : last.read.segment = followed.read.segment
  start_eq : last.read.start = followed.read.start
  maxLength_eq : last.read.maxLength = followed.read.maxLength
  stays_over : Entry.Over followed.read.maxLength followed.entries →
    Entry.Over followed.read.maxLength last.entries

theorem Going.goes (h : followed.Going store) : followed.Goes followed store :=
  ⟨h, rfl, rfl, rfl, fun hover => hover⟩

theorem Goes.trans {middle : FollowedRun} (h : followed.Goes middle store)
    (hlast : middle.Goes last after) : followed.Goes last after where
  going := hlast.going
  segment_eq := hlast.segment_eq.trans h.segment_eq
  start_eq := hlast.start_eq.trans h.start_eq
  maxLength_eq := hlast.maxLength_eq.trans h.maxLength_eq
  stays_over := by
    intro hover
    rw [← h.maxLength_eq]
    refine hlast.stays_over ?_
    rw [h.maxLength_eq]
    exact h.stays_over hover

theorem Going.sound (h : followed.Going store) : store.Sound followed.run.run.content :=
  (StoreRun.Kept.opened h.upheld.kept h.opened).sound

theorem Going.holding (h : followed.Going store) :
    Holding followed.run.run.content store followed.run.reads followed.run.entries :=
  h.upheld.holding h.opened

theorem Going.nexts (h : followed.Going store) :
    (followed.read.next store).Nexts followed.run.run.content store followed.read :=
  followed.read.next_nexts h.sound h.holding.expecting.proper

theorem Going.of_steps (h : followed.Going store) (htrusts : followed.Trusts)
    (hsteps : followed.run.Steps store next after) (hentry : next.entry? = none)
    (hread : followed.read ∈ (followed.run.step next).reads)
    (hentries : ∀ other ∈ (followed.run.step next).entries,
      other ∈ followed.run.entries ∨ store.statuses.length ≤ other.number) :
    followed.Goes { followed with run := followed.run.step next } after := by
  have hspares := hsteps.spares
  rw [hentry] at hspares
  refine ⟨⟨hsteps.opened, h.upheld.step next, hread, h.cursor.grows hspares.grows, ?_, ?_⟩, rfl, rfl,
    rfl, fun hover => hover⟩
  · exact fun entry hmem => (h.noted entry hmem).spared (htrusts h.opened) hspares nofun
  · intro entry hmem other hother hnumber
    rcases hentries other hother with hold | hnew
    · exact h.known entry hmem other hold hnumber
    · rw [hnumber] at hnew
      exact absurd (h.noted entry hmem).given (Nat.not_lt.mpr hnew)

theorem opened_reading {run : StoreRun} (hopen : run.session = .opened store)
    (part : Store FlakyTier → Store FlakyTier)
    (hafter : (run.reading part).session = .opened after) :
    after = part store ∧ (run.reading part).content = run.content := by
  rcases run with ⟨session, content⟩
  cases hopen
  cases hafter
  exact ⟨rfl, rfl⟩

theorem Going.reading (h : followed.Going store) {call : StoreStep}
    (hgrants : followed.run.grants call = true)
    (hsteps : followed.run.Steps store (.step call) after) (part : Store FlakyTier → Store FlakyTier)
    (hpart : followed.run.run.step call = followed.run.run.reading part) :
    after = part store ∧
      (followed.run.step (.step call)).run.content = followed.run.run.content ∧
      store.Spares call.entry? followed.run.run.content followed.run.run.content after := by
  have hopened := hsteps.opened
  have hspares := hsteps.spares
  rw [ReaderRun.step_of_grants h.opened hgrants, hpart] at hopened hspares ⊢
  rcases opened_reading h.opened part hopened with ⟨hafter, hcontent⟩
  refine ⟨hafter, hcontent, ?_⟩
  rw [hcontent] at hspares
  exact hspares

theorem Going.next_entry (h : followed.Going store) (htrusts : followed.Trusts)
    (hgrants : followed.run.grants (.next followed.read) = true)
    (hsteps : followed.run.Steps store (.step (.next followed.read)) after) :
    followed.Goes
      { run := followed.run.step (.step (.next followed.read))
        read := (followed.read.next store).read
        entries := followed.entries ++ (followed.read.next store).entries } after := by
  have hnexts := h.nexts
  rcases h.cursor.next h.noted hnexts with ⟨hcursor, hanswers⟩
  rcases hnexts.same with ⟨hsegment, hstart, hmaxLength⟩
  have hstep := ReaderRun.step_of_grants h.opened hgrants
  rcases h.reading hgrants hsteps (fun store => (followed.read.next store).store) rfl with
    ⟨rfl, hcontent, hspares⟩
  have hnoted : ∀ entry ∈ followed.entries ++ (followed.read.next store).entries,
      entry.Noted followed.run.run.content followed.read.segment
        (followed.read.next store).store := by
    intro entry hentry
    rcases List.mem_append.mp hentry with hold | hnew
    · exact (h.noted entry hold).spared (htrusts h.opened) hspares nofun
    · exact (hnexts.noted hnew).1
  have hone : ∀ entry ∈ (followed.read.next store).entries,
      ∀ other ∈ (followed.read.next store).entries, other = entry := by
    intro entry hentry other hother
    have hresult := ReadResult.Reply.mem_entries_iff.mp hother
    rw [ReadResult.Reply.mem_entries_iff.mp hentry] at hresult
    exact (Option.some.inj (Except.ok.inj hresult)).symm
  refine ⟨⟨hsteps.opened, h.upheld.step _, ?_, ?_, ?_, ?_⟩, hsegment, hstart, hmaxLength, ?_⟩
  · rw [hstep]
    exact List.mem_cons_self
  · rw [hcontent]
    exact hcursor
  · rw [hcontent, hsegment]
    exact hnoted
  · rw [hstep]
    exact h.known.hand_out (fun entry hentry => (h.noted entry hentry).given)
      (fun other hother => (h.holding.known other hother).given)
      (fun entry hentry => (hnexts.noted hentry).2) hone
  · intro hover
    -- a read that is over hands nothing out
    have hnothing : (followed.read.next store).entries = [] := by
      refine List.eq_nil_iff_forall_not_mem.mpr ?_
      intro entry hentry
      rw [ReadResult.Reply.mem_entries_iff, hanswers.none_iff.mpr hover] at hentry
      cases hentry
    rw [hnothing, List.append_nil]
    exact hover

/-! ### Calls for entries -/

theorem Going.held_of_mem (h : followed.Going store) (hheld : entry ∈ followed.run.entries)
    (hentry : entry ∈ followed.entries) :
    entry.Held followed.run.run.content followed.read.segment store := by
  rcases (h.holding.known entry hheld).held with ⟨id, hknown, hlink⟩
  by_cases hwait : entry.wait = none
  · exact ⟨hknown.given, hknown.wanted, hknown.bare, by rw [hwait]; exact nofun,
      by rw [hwait]; exact nofun⟩
  · have hlast := h.cursor.last_of_waits h.noted hentry hwait
    rw [(hlink followed.read h.held hlast).1]
    exact hknown

theorem Going.noted_after (h : followed.Going store) (htrusts : followed.Trusts)
    (hheld : entry ∈ followed.run.entries)
    (hspares : store.Spares (some entry) followed.run.run.content followed.run.run.content after)
    (hresolves : ∀ {id}, entry.Held followed.run.run.content id store →
      entry.Resolves followed.run.run.content id store resolved after) :
    ∀ other ∈ followed.entries,
      other.Called (if other = entry then resolved else other) ∧
      (if other = entry then resolved else other).Noted followed.run.run.content
        followed.read.segment after := by
  intro other hother
  have hnoted := h.noted other hother
  by_cases hsame : other = entry
  · rw [if_pos hsame]
    subst hsame
    have hknown := hresolves (h.held_of_mem hheld hother)
    exact ⟨hnoted.called hknown.outcome, hnoted.resolves (htrusts h.opened) hknown⟩
  · rw [if_neg hsame]
    refine ⟨.refl other, hnoted.spared (htrusts h.opened) hspares ?_⟩
    -- no other entry has its number
    intro hnumber
    exact hsame (h.known other hother entry hheld (Option.some.inj hnumber)).symm

theorem Going.call (h : followed.Going store) (htrusts : followed.Trusts) {call : StoreStep}
    (hgrants : followed.run.grants call = true)
    (hsteps : followed.run.Steps store (.step call) after)
    {part : Store FlakyTier → Store FlakyTier}
    (hpart : followed.run.run.step call = followed.run.run.reading part)
    (hentry : call.entry? = some entry) (hheld : entry ∈ followed.run.entries)
    (hreads : followed.run.readsAfter store call = followed.run.reads)
    (hentries : followed.run.entriesAfter store call =
      resolved :: followed.run.entries.erase entry)
    (hresolves : ∀ {id}, entry.Held followed.run.run.content id store →
      entry.Resolves followed.run.run.content id store resolved (part store)) :
    followed.Goes
      { run := followed.run.step (.step call)
        read := followed.read
        entries := followed.entries.map fun other => if other = entry then resolved else other }
      after := by
  have hstep := ReaderRun.step_of_grants h.opened hgrants
  rcases h.reading hgrants hsteps part hpart with ⟨rfl, hcontent, hspares⟩
  rw [hentry] at hspares
  have hnoted := h.noted_after htrusts hheld hspares hresolves
  have hcalled := fun other hother => (hnoted other hother).1
  refine ⟨⟨hsteps.opened, h.upheld.step _, ?_, ?_, ?_, ?_⟩, rfl, rfl, rfl,
    fun hover => hover.map hcalled⟩
  · rw [hstep]
    show followed.read ∈ followed.run.readsAfter store call
    rw [hreads]
    exact h.held
  · rw [hcontent]
    exact h.cursor.map hcalled
  · rw [hcontent]
    intro other hother
    rcases List.mem_map.mp hother with ⟨before, hbefore, rfl⟩
    exact (hnoted before hbefore).2
  · rw [hstep]
    show Known _ (followed.run.entriesAfter store call)
    rw [hentries]
    rcases (h.holding.known entry hheld).held with ⟨id, hknown, -⟩
    rcases h.holding.apart_of_erase hheld with ⟨hapart, -⟩
    exact h.known.replace hheld (hresolves hknown).outcome.same.1 fun other hother =>
      (hapart other hother).number_ne

theorem Going.drop (h : followed.Going store)
    (hsteps : followed.run.Steps store (.step (.dropEntry entry)) after)
    (hgrants : followed.run.grants (.dropEntry entry) = true) :
    followed.Goes { followed with run := followed.run.step (.step (.dropEntry entry)) } after := by
  have hstep := ReaderRun.step_of_grants h.opened hgrants
  rcases h.reading hgrants hsteps entry.drop rfl with ⟨rfl, hcontent, -⟩
  rcases entry.drop_eq store with ⟨waiters, hdrop, -⟩
  refine ⟨⟨hsteps.opened, h.upheld.step _, ?_, ?_, ?_, ?_⟩, rfl, rfl, rfl, fun hover => hover⟩
  · rw [hstep]
    exact h.held
  · rw [hcontent]
    exact h.cursor
  · rw [hcontent, hdrop]
    intro other hother
    have hnoted := h.noted other hother
    exact ⟨hnoted.given, hnoted.waits, hnoted.fulfils, hnoted.got, hnoted.failed⟩
  · rw [hstep]
    intro other hother held hheld hnumber
    exact h.known other hother held (List.mem_of_mem_erase hheld) hnumber

/-! ### Any step -/

theorem step_of_grants (hopen : followed.run.run.session = .opened store) {call : StoreStep}
    (hgrants : followed.run.grants call = true) :
    followed.step (.step call) =
      { run := followed.run.step (.step call)
        read := followed.readAfter store call
        entries := followed.entriesAfter store call } := by
  unfold step
  rw [hopen]
  exact if_pos hgrants

theorem step_read (hopen : followed.run.run.session = .opened store) (id : SegmentId)
    (offset maxLength : Nat) :
    followed.step (.read id offset maxLength) =
      { followed with run := followed.run.step (.read id offset maxLength) } := by
  unfold step
  rw [hopen]

theorem Going.next_of_any (h : followed.Going store) (htrusts : followed.Trusts) {read : ReadResult}
    (hgrants : followed.run.grants (.next read) = true)
    (hsteps : followed.run.Steps store (.step (.next read)) after) :
    followed.Goes (followed.step (.step (.next read))) after := by
  have hstep := ReaderRun.step_of_grants h.opened hgrants
  rw [step_of_grants h.opened hgrants]
  unfold readAfter entriesAfter
  simp only
  by_cases hown : read = followed.read
  · subst hown
    rw [if_pos rfl, if_pos rfl]
    exact h.next_entry htrusts hgrants hsteps
  · rw [if_neg hown, if_neg hown]
    refine h.of_steps htrusts hsteps rfl ?_ ?_
    · rw [hstep]
      exact List.mem_cons_of_mem _ ((List.mem_erase_of_ne (Ne.symm hown)).mpr h.held)
    · rw [hstep]
      intro other hother
      rcases List.mem_append.mp hother with hnew | hold
      · have hnexts := read.next_nexts h.sound h.holding.expecting.proper
        exact Or.inr (Nat.le_of_eq (hnexts.noted hnew).2.symm)
      · exact Or.inl hold

/-- The read goes on whatever is done to the store that is left open. -/
theorem Going.step (h : followed.Going store) (htrusts : followed.Trusts)
    (hnext : next.keepsOpen = true) : ∃ after, followed.Goes (followed.step next) after := by
  rcases h.upheld.step_open h.opened hnext with ⟨after, hsteps⟩
  cases next with
  | read id offset maxLength =>
      refine ⟨after, ?_⟩
      rw [step_read h.opened]
      have hbegin := ReaderRun.step_read h.opened id offset maxLength
      unfold ReaderRun.begin at hbegin
      refine h.of_steps htrusts hsteps rfl ?_ ?_
      · rw [hbegin]
        split
        · exact List.mem_cons_of_mem _ h.held
        · exact h.held
      · rw [hbegin]
        intro other hother
        split at hother
        · exact Or.inl hother
        · exact Or.inl hother
  | step call =>
      by_cases hgrants : followed.run.grants call = true
      · refine ⟨after, ?_⟩
        have hstep := ReaderRun.step_of_grants h.opened hgrants
        cases call with
        | next read => exact h.next_of_any htrusts hgrants hsteps
        | awaitEntry entry =>
            have hheld : entry ∈ followed.run.entries := of_decide_eq_true hgrants
            have hhonest := (h.holding.known entry hheld).honest
            rw [step_of_grants h.opened hgrants]
            exact h.call htrusts hgrants hsteps rfl rfl hheld rfl rfl fun hknown =>
              hknown.awaitContent h.sound h.holding.expecting hhonest
        | pollEntry entry =>
            have hheld : entry ∈ followed.run.entries := of_decide_eq_true hgrants
            have hhonest := (h.holding.known entry hheld).honest
            rw [step_of_grants h.opened hgrants]
            exact h.call htrusts hgrants hsteps rfl rfl hheld rfl rfl fun hknown =>
              hknown.tryContent h.sound h.holding.expecting hhonest
        | dropEntry entry =>
            rw [step_of_grants h.opened hgrants]
            exact h.drop hsteps hgrants
        | reopen config => cases hnext
        | close => cases hnext
        | _ =>
            rw [step_of_grants h.opened hgrants]
            exact h.of_steps htrusts hsteps rfl (by rw [hstep]; exact h.held)
              (by rw [hstep]; exact fun _ => Or.inl)
      · have hsame : followed.step (.step call) = followed := by
          unfold FollowedRun.step
          rw [h.opened]
          exact if_neg hgrants
        rw [hsame]
        exact ⟨store, h.goes⟩

/-! ## Runs -/

theorem run_step (followed : FollowedRun) (next : ReaderStep) :
    (followed.step next).run = followed.run.step next := by
  unfold step
  split
  · rename_i store call hopen
    split
    · rfl
    · rename_i hgrants
      exact (ReaderRun.step_of_not_grants hopen hgrants).symm
  · rfl

theorem run_steps (list : List ReaderStep) (followed : FollowedRun) :
    (followed.steps list).run = followed.run.steps list := by
  induction list generalizing followed with
  | nil => rfl
  | cons next rest ih =>
      show ((followed.step next).steps rest).run = (followed.run.step next).steps rest
      rw [ih, run_step]

theorem Going.steps (list : List ReaderStep) :
    ∀ {followed : FollowedRun} {store : Store FlakyTier}, followed.Going store →
      (∀ next ∈ list, next.keepsOpen = true) →
      (∀ first, first <+: list → (followed.steps first).Trusts) →
      ∃ after, followed.Goes (followed.steps list) after := by
  induction list with
  | nil => exact fun h _ _ => ⟨_, h.goes⟩
  | cons next rest ih =>
      intro followed store h hlist htrusts
      rcases h.step (htrusts [] List.nil_prefix) (hlist next List.mem_cons_self) with
        ⟨middle, hgoes⟩
      rcases ih hgoes.going (fun other hother => hlist other (List.mem_cons_of_mem _ hother))
        (fun first hfirst => htrusts (next :: first) (List.prefix_cons_inj next |>.mpr hfirst)) with
        ⟨after, hrest⟩
      exact ⟨after, hgoes.trans hrest⟩

theorem Going.over_of_prefix (h : followed.Going store) {list first : List ReaderStep}
    (hlist : ∀ next ∈ list, next.keepsOpen = true)
    (htrusts : ∀ first, first <+: list → (followed.steps first).Trusts) (hfirst : first <+: list)
    (hover : Entry.Over followed.read.maxLength (followed.steps first).entries) :
    Entry.Over followed.read.maxLength (followed.steps list).entries := by
  rcases hfirst with ⟨rest, rfl⟩
  have happend : ∀ others, followed.steps (first ++ others) = (followed.steps first).steps others :=
    fun others => List.foldl_append
  rcases h.steps first (fun next hnext => hlist next (List.mem_append_left _ hnext))
    (fun others hothers => htrusts others (hothers.trans (List.prefix_append _ _))) with
    ⟨middle, hmiddle⟩
  rcases hmiddle.going.steps rest (fun next hnext => hlist next (List.mem_append_right _ hnext))
    (fun others hothers => by
      rw [← happend]
      exact htrusts _ (List.prefix_append_right_inj first |>.mpr hothers)) with ⟨after, hafter⟩
  have hrest := hafter.stays_over
  rw [hmiddle.maxLength_eq, ← happend] at hrest
  exact hrest hover

theorem going_begin {run : ReaderRun} (h : run.Upheld) (hopen : run.run.session = .opened store)
    {id : SegmentId} {offset maxLength : Nat} {read : ReadResult} {begun : Store FlakyTier}
    (hread : (Store.read id offset maxLength).run store = .ok read begun) :
    (begin run id offset maxLength read).Going store ∧
      read = { segment := id, start := offset, maxLength, finished := maxLength = 0 } := by
  have hbegins : Ends (Store.read id offset maxLength) store
      (fun read _ =>
        read = { segment := id, start := offset, maxLength, finished := maxLength = 0 })
      (fun _ _ => True) := by
    unfold Store.read
    refine Ends.bind ((Store.require_ends store id).mono ?_ fun _ _ _ => trivial)
    intro s _ _
    split
    · exact Ends.throw trivial
    · split
      · exact Ends.throw trivial
      · exact Ends.pure rfl
  have hvalue := hbegins.ok hread
  have hrun : run.step (.read id offset maxLength) = { run with reads := read :: run.reads } := by
    rw [ReaderRun.step_read hopen]
    unfold ReaderRun.begin
    rw [hread]
  have hupheld := h.step (.read id offset maxLength)
  refine ⟨⟨?_, hupheld, ?_, ?_, ?_, ?_⟩, hvalue⟩
  · show (run.step (.read id offset maxLength)).run.session = .opened store
    rw [hrun]
    exact hopen
  · show read ∈ (run.step (.read id offset maxLength)).reads
    rw [hrun]
    exact List.mem_cons_self
  · rw [hvalue]
    by_cases hzero : maxLength = 0
    · exact .complete .nil (Nat.le_of_eq hzero) (decide_eq_true hzero) rfl
    · exact .counted .nil (decide_eq_false hzero) rfl rfl
  · exact fun _ hentry => absurd hentry List.not_mem_nil
  · exact fun _ hentry => absurd hentry List.not_mem_nil

/--
A read that was begun at any time is followed through steps that leave the store open; the
tier gives the right bytes for the reads of it that are in flight.  Asked for the next entry
the read complains exactly if the last one has got neither bytes nor a failure.  An entry
starts where the bytes of those before it end, and all of these have got theirs.  What an
entry has got is what it answers, at least one byte and no more than requested.  The bytes are
those of the segment from the start of the read on, and no more than wanted.  There is no next
entry exactly if the last one was terminal or failed or if all that was wanted is there, and
then there is none at any later time.
-/
theorem reads_gapless (list more : List ReaderStep) {store begun : Store FlakyTier}
    (hopen : (ReaderRun.start.steps list).run.session = .opened store)
    {id : SegmentId} {offset maxLength : Nat} {read : ReadResult}
    (hread : (Store.read id offset maxLength).run store = .ok read begun)
    {followed : FollowedRun}
    (hfollowed : followed = begin (ReaderRun.start.steps list) id offset maxLength read)
    (hmore : ∀ next ∈ more, next.keepsOpen = true)
    (htrusts : ∀ first, first <+: more → (followed.steps first).Trusts)
    {entries : List Entry} (hentries : entries = (followed.steps more).entries) :
    ∃ after,
      (followed.steps more).run =
        (ReaderRun.start.steps list).steps (.read id offset maxLength :: more) ∧
      (followed.steps more).run.run.session = .opened after ∧
      (followed.steps more).read ∈ (followed.steps more).run.reads ∧
      (∀ misuse, ((followed.steps more).read.next after).result = .error (.misuse misuse) ↔
        misuse = .unresolvedEntry ∧ Entry.Unresolved entries) ∧
      (∀ before entry rest, entries = before ++ entry :: rest →
        entry.offset = offset + (Entry.received before).length ∧
        entry.requested = maxLength - (Entry.received before).length ∧
        ∀ other ∈ before, ∃ data, other.content = some data) ∧
      (∀ entry ∈ entries, (entry.status after = .pending ↔ entry.wait ≠ none) ∧
        (entry.status after = .failed ↔ entry.Failed) ∧
        ∀ data, entry.content = some data → 1 ≤ data.length ∧ data.length ≤ entry.requested ∧
          (entry.awaitContent after).result = .ok data) ∧
      (Entry.received entries).length ≤ maxLength ∧
      Entry.received entries = Bytes.slice ((followed.steps more).run.run.content id) offset
        (Entry.received entries).length ∧
      (((followed.steps more).read.next after).result = .ok none ↔
        Entry.Over maxLength entries) ∧
      ∀ first, first <+: more → Entry.Over maxLength (followed.steps first).entries →
        ((followed.steps more).read.next after).result = .ok none := by
  rcases going_begin (ReaderRun.upheld_steps list) hopen hread with ⟨hbegin, hvalue⟩
  rw [← hfollowed] at hbegin
  rcases hbegin.steps more hmore htrusts with ⟨after, hgoes⟩
  have hgoing := hgoes.going
  have hrun := run_steps more followed
  -- the read is of the same bytes as when it was begun
  have hplace : (followed.steps more).read.segment = id ∧
      (followed.steps more).read.start = offset ∧
      (followed.steps more).read.maxLength = maxLength := by
    rw [hgoes.segment_eq, hgoes.start_eq, hgoes.maxLength_eq, hfollowed, begin, hvalue]
    exact ⟨rfl, rfl, rfl⟩
  rcases hplace with ⟨hsegment, hstart, hmaxLength⟩
  have hanswers := (hgoing.cursor.next hgoing.noted hgoing.nexts).2
  have harranged := hgoing.cursor.arranged hgoing.noted
  rw [hmaxLength] at hanswers
  rw [hsegment, hstart, hmaxLength] at harranged
  rw [hentries]
  refine ⟨after, ?_, hgoing.opened, hgoing.held, hanswers.misuse_iff, ?_, ?_, harranged.length_le,
    harranged.received_eq, hanswers.none_iff, ?_⟩
  · rw [hrun, hfollowed]
    rfl
  · intro before entry rest hsplit
    rcases harranged.split hsplit with ⟨hcontinues, hgot⟩
    exact ⟨hcontinues.offset_eq, hcontinues.requested_eq, hgot⟩
  · intro entry hentry
    have hnoted := hgoing.noted entry hentry
    refine ⟨hnoted.pending_iff, ⟨hnoted.of_failed, fun h => hnoted.failed h.1 h.2⟩, ?_⟩
    intro data hdata
    have hpiece := (hnoted.got hdata).2.2
    exact ⟨hpiece.pos, hpiece.length_le, hnoted.answers hdata⟩
  · intro first hfirst hover
    have hwanted : followed.read.maxLength = maxLength := by rw [hfollowed, begin, hvalue]
    have hstays := hbegin.over_of_prefix hmore htrusts hfirst
    rw [hwanted] at hstays
    exact hanswers.none_iff.mpr (hstays hover)

private def trustsNow (followed : FollowedRun) : Bool :=
  match followed.run.run.session with
  | .closed _ => true
  | .opened store =>
      store.fetches.queue.all fun fetch =>
        match (Container.readSource fetch.2).run store.container.tier with
        | .ok data _ => decide (data =
            Bytes.slice (followed.run.run.content fetch.2.segment) fetch.2.offset fetch.2.length)
        | .error _ _ => true

private theorem trusts_of_now (h : trustsNow followed = true) : followed.Trusts := by
  intro store hopen fetch hfetch data hgives
  unfold trustsNow at h
  rw [hopen] at h
  have hlooked := List.all_eq_true.mp h fetch hfetch
  rcases hgives with ⟨tier, hrun⟩
  simp only [hrun] at hlooked
  exact of_decide_eq_true hlooked

/-- Two bytes are in the tier, and nothing is cached. -/
private def stored : List ReaderStep :=
  [.step (.reopen { cacheMaxSize := 0, maxStorageReadSize := 2 }), .step (.create "a"),
    .step (.append ⟨1, 7, 1, [97, 98]⟩), .step .flush]

private def opening : ReadResult := { segment := 1, start := 0, maxLength := 3, finished := false }

/-- The first entry comes from the tier, and the second one with an append. -/
private def reading : List ReaderStep :=
  [.step (.next opening),
    .step (.awaitEntry
      { number := 0, kind := .storage, offset := 0, requested := 3, wait := some (.fetch 0) }),
    .step (.next { opening with last := some 0 }), .step (.append ⟨1, 7, 2, [99]⟩),
    .step (.pollEntry
      { number := 1, kind := .future, offset := 2, requested := 1,
        wait := some (.wakeup 0 1 30000) }),
    .step (.next { opening with consumed := 2, last := some 1 })]

private def begun? (store : Store FlakyTier) : Option ReadResult :=
  match (Store.read 1 0 3).run store with
  | .ok read _ => some read
  | .error _ _ => none

private theorem exists_of_begun {store : Store FlakyTier} {read : ReadResult}
    (h : begun? store = some read) : ∃ begun, (Store.read 1 0 3).run store = .ok read begun := by
  unfold begun? at h
  split at h
  next _ begun hrun =>
    cases h
    exact ⟨begun, hrun⟩
  next => cases h

theorem reads_gapless_in_flight :
    ∃ after, ((begin (ReaderRun.start.steps stored) 1 0 3 opening).steps reading).run.run.session =
        .opened after ∧
      Entry.received ((begin (ReaderRun.start.steps stored) 1 0 3 opening).steps reading).entries =
        [97, 98, 99] ∧
      (((begin (ReaderRun.start.steps stored) 1 0 3 opening).steps reading).read.next after).result =
        .ok none := by
  have hisSome : (ReaderRun.start.steps stored).run.session.store?.isSome = true := by
    decide +kernel
  have hbegins : (ReaderRun.start.steps stored).run.session.store?.bind begun? = some opening := by
    decide +kernel
  have htrusts : ∀ first ∈ reading.inits,
      trustsNow ((begin (ReaderRun.start.steps stored) 1 0 3 opening).steps first) = true := by
    decide +kernel
  have hlength : (Entry.received ((begin (ReaderRun.start.steps stored) 1 0 3 opening).steps
      reading).entries).length = 3 := by decide +kernel
  have hcontent : ((begin (ReaderRun.start.steps stored) 1 0 3 opening).steps
      reading).run.run.content 1 = [97, 98, 99] := by decide +kernel
  rcases Option.isSome_iff_exists.mp hisSome with ⟨store, hstore⟩
  rw [hstore] at hbegins
  have hopen := Session.eq_opened hstore
  rcases exists_of_begun hbegins with ⟨begun, hrun⟩
  rcases reads_gapless stored reading hopen hrun rfl (by decide)
    (fun first hfirst => trusts_of_now (htrusts first (List.mem_inits _ _ |>.mpr hfirst))) rfl with
    ⟨after, -, hafter, -, -, -, -, -, hbytes, -, hover⟩
  rw [hcontent, hlength] at hbytes
  exact ⟨after, hafter, hbytes, hover reading List.prefix_rfl (Or.inl (Nat.le_of_eq hlength.symm))⟩

end FollowedRun
end TieredStore
