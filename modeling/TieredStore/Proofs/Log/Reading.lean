import TieredStore.Log.Reader
import TieredStore.Proofs.Log.Loading
import TieredStore.Proofs.Record.Prefixes

/-!
# Reading pages

A reader has in front of it what it is going to make of the rest of the ledger
that it reads and of the ledgers to come.  Each step takes the first of that, and
an error is the last that it comes upon.  What it makes of a record is nothing if
the record is before its start, and an error if the record cannot be decoded.
-/

namespace TieredStore

def StoredRecord.reading (id : LedgerId) (start : SequenceNumber) (position : Nat)
    (record : StoredRecord) : Option LogReader.Item :=
  match Record.decode record.bytes with
  | .error cause => some (.error (.corrupt (.badRecord id position cause)))
  | .ok (header, op) => if header.seq < start then none else some (.ok (header.seq, op))

def StoredRecord.readings (id : LedgerId) (start : SequenceNumber) :
    (position : Nat) → List StoredRecord → List LogReader.Item
  | _, [] => []
  | position, record :: rest =>
      (record.reading id start position).toList ++
        readings id start (position + (Frame.bytes record.bytes).length) rest

def Page.readings (start : SequenceNumber) (page : Page) : List LogReader.Item :=
  StoredRecord.readings page.id start 0 page.records

namespace LogReader

open StoredRecord

variable {ledgers : Ledgers} {start : SequenceNumber} {id : LedgerId}

def untilError : List Item → List Item
  | [] => []
  | .ok record :: rest => .ok record :: untilError rest
  | .error e :: _ => [.error e]

theorem length_readings_le (position : Nat) (records : List StoredRecord) :
    (readings id start position records).length ≤ records.length := by
  induction records generalizing position with
  | nil => exact Nat.le_refl 0
  | cons record rest ih =>
      unfold readings
      have hrest := ih (position + (Frame.bytes record.bytes).length)
      have hone : (record.reading id start position).toList.length ≤ 1 := Option.length_toList_le
      rw [List.length_append, List.length_cons]
      omega

/-!
## One ledger
-/

theorem readings_cons (position : Nat) (record : StoredRecord) (rest : List StoredRecord) :
    readings id start position (record :: rest) = (record.reading id start position).toList ++
      readings id start (position + (Frame.bytes record.bytes).length) rest := rfl

/-- The next item of a ledger is the first that a reader makes of its records. -/
theorem seek_run (start : SequenceNumber) (id : LedgerId) {objects : Objects} :
    ∀ {records : List StoredRecord} {walk : Walk} {fuel : Nat},
      walk.Facing objects (frames records) → records.length < fuel →
      (seek id start objects fuel walk).1 = (readings id start walk.position records).head? ∧
        ∀ record more, readings id start walk.position records = .ok record :: more →
          ∃ rest, (seek id start objects fuel walk).2.Facing objects (frames rest) ∧
            more = readings id start (seek id start objects fuel walk).2.position rest
  | [], walk, fuel, hfacing, hfuel => by
      rcases Nat.exists_eq_add_of_lt hfuel with ⟨fuel, rfl⟩
      have hend : seek id start objects (([] : List StoredRecord).length + fuel + 1) walk =
          (none, { walk with finished := true }) := by
        unfold seek Walk.next
        rw [if_neg (by simp [hfacing.going]), hfacing.step_nil]
      rw [hend]
      exact ⟨rfl, fun _ _ h => nomatch h⟩
  | record :: rest, walk, fuel, hfacing, hfuel => by
      rcases Nat.exists_eq_add_of_lt hfuel with ⟨fuel, rfl⟩
      rcases hfacing.next_record record.fits with ⟨middle, hnext, hmiddle, hposition⟩
      have hposition : middle.position = walk.position + (Frame.bytes record.bytes).length :=
        hposition
      rw [readings_cons, ← hposition]
      unfold seek
      rw [hnext]
      unfold reading
      cases hdecode : Record.decode record.bytes with
      | error cause =>
          simp only [hdecode]
          exact ⟨rfl, fun _ _ h => nomatch h⟩
      | ok decoded =>
          rcases decoded with ⟨header, op⟩
          by_cases hbefore : header.seq < start
          · simp only [hdecode, if_pos hbefore]
            exact seek_run start id hmiddle (by rw [List.length_cons]; omega)
          · simp only [hdecode, if_neg hbefore]
            refine ⟨rfl, ?_⟩
            intro _ more hmore
            exact ⟨rest, hmiddle, (List.cons.inj hmore).2.symm⟩

def Current (ledgers : Ledgers) (start : SequenceNumber) (front : List Item) :
    Option (LedgerId × Walk) → Prop
  | none => front = []
  | some (id, walk) => ∃ records, walk.Facing ledgers.objects (frames records) ∧
      front = readings id start walk.position records

variable {front more : List Item} {item : Item} {current : Option (LedgerId × Walk)}

theorem fuel_lt {objects : Objects} {walk : Walk} {records : List StoredRecord}
    (h : walk.Facing objects (frames records)) :
    records.length < walk.stop - walk.position + 2 := by
  have hle := Frame.length_le_length_run (records.map (·.bytes))
  rw [List.length_map] at hle
  rw [h.remaining]
  unfold frames
  omega

theorem Current.seek_nil (h : Current ledgers start [] current) :
    seekCurrent start ledgers.objects current = none := by
  cases current with
  | none => rfl
  | some pair =>
      rcases pair with ⟨id, walk⟩
      rcases h with ⟨records, hfacing, hnil⟩
      have hseek := (seek_run start id hfacing (fuel_lt hfacing)).1
      rw [← hnil] at hseek
      unfold seekCurrent
      cases hrun : seek id start ledgers.objects (walk.stop - walk.position + 2) walk with
      | mk found after =>
          rw [hrun] at hseek
          have hfound : found = none := hseek
          subst hfound
          simp only [hrun]

theorem Current.seek_cons (h : Current ledgers start (item :: more) current) :
    ∃ current', seekCurrent start ledgers.objects current = some (item, current') ∧
      ∀ record, item = .ok record → Current ledgers start more (some current') := by
  cases current with
  | none => cases h
  | some pair =>
      rcases pair with ⟨id, walk⟩
      rcases h with ⟨records, hfacing, hcons⟩
      rcases seek_run start id hfacing (fuel_lt hfacing) with ⟨hseek, hafter⟩
      rw [← hcons] at hseek hafter
      unfold seekCurrent
      cases hrun : seek id start ledgers.objects (walk.stop - walk.position + 2) walk with
      | mk found after =>
          rw [hrun] at hseek hafter
          have hfound : found = some item := hseek
          subst hfound
          simp only [hrun]
          refine ⟨(id, after), rfl, ?_⟩
          rintro record rfl
          exact hafter record more rfl

/-!
## All ledgers
-/

def Ready (ledgers : Ledgers) (page : Page) : Prop :=
  ∃ more, ledgers.bytes? page.id = some (frames page.records ++ more)

def comingOf (pages : List Page) : List (LedgerId × Nat) :=
  pages.map fun page => (page.id, (frames page.records).length)

/-- The reader has these items in front of it. -/
structure Reads (reader : LogReader) (ledgers : Ledgers) (front : List Item) : Prop where
  going : reader.finished = false
  parts : ∃ current pages, front = current ++ pages.flatMap (Page.readings reader.start) ∧
    reader.coming = comingOf pages ∧ (∀ page ∈ pages, Ready ledgers page) ∧
    Current ledgers reader.start current reader.current

theorem Ready.attach {page : Page} (h : Ready ledgers page) (start : SequenceNumber) :
    ∃ handle, ledgers.attach page.id = .ok handle ∧
      Current ledgers start (page.readings start)
        (some (page.id, { handle, stop := (frames page.records).length })) := by
  rcases h with ⟨more, hbytes⟩
  rcases Ledgers.attach_of_bytes? hbytes with ⟨handle, hattach, -, hfresh, hcontents⟩
  have hle : (frames page.records).length ≤ (handle.contents ledgers.objects).length := by
    rw [hcontents, List.length_append]
    exact Nat.le_add_right _ _
  have hfacing := Walk.facing_take hfresh hle
  rw [hcontents, List.take_left] at hfacing
  exact ⟨handle, hattach, page.records, hfacing, rfl⟩

theorem length_readings_le_total (start : SequenceNumber) (pages : List Page) :
    (pages.flatMap (Page.readings start)).length ≤ total ((comingOf pages).map (·.2)) := by
  induction pages with
  | nil => exact Nat.le_refl 0
  | cons page rest ih =>
      have hitems := @length_readings_le start page.id 0 page.records
      have hle := Frame.length_le_length_run (page.records.map (·.bytes))
      rw [List.length_map] at hle
      rw [List.flatMap_cons, List.length_append]
      show _ ≤ total ((frames page.records).length :: (comingOf rest).map (·.2))
      rw [total_cons]
      unfold Page.readings frames at *
      omega

theorem advance_front (start : SequenceNumber) :
    ∀ {pages : List Page} {front : List Item} {current : Option (LedgerId × Walk)},
      (∀ page ∈ pages, Ready ledgers page) → Current ledgers start front current →
      (advance start ledgers (comingOf pages) current).1 =
          (front ++ pages.flatMap (Page.readings start)).head? ∧
        ∀ record more, front ++ pages.flatMap (Page.readings start) = .ok record :: more →
          (advance start ledgers (comingOf pages) current).2.start = start ∧
            (advance start ledgers (comingOf pages) current).2.Reads ledgers more
  | [], [], current, _, hcurrent => by
      have hend : advance start ledgers (comingOf []) current = (none, { start }) := by
        show advance start ledgers [] current = _
        unfold advance
        rw [hcurrent.seek_nil]
      rw [hend]
      exact ⟨rfl, fun _ _ h => nomatch h⟩
  | page :: rest, [], current, hready, hcurrent => by
      -- the ledger that is being read holds nothing more, and the next one is opened
      rcases (hready page List.mem_cons_self).attach start with ⟨handle, hattach, hnext⟩
      have hopened : advance start ledgers (comingOf (page :: rest)) current =
          advance start ledgers (comingOf rest)
            (some (page.id, { handle, stop := (frames page.records).length })) := by
        show advance start ledgers ((page.id, (frames page.records).length) :: comingOf rest)
          current = _
        rw [advance, hcurrent.seek_nil]
        simp only [hattach]
      rw [hopened, List.nil_append, List.flatMap_cons]
      exact advance_front start (fun other hother => hready other (List.mem_cons_of_mem _ hother))
        hnext
  | pages, item :: front, current, hready, hcurrent => by
      rcases hcurrent.seek_cons with ⟨current', hseek, hafter⟩
      have hfound : advance start ledgers (comingOf pages) current =
          (some item, { start, coming := comingOf pages, current := some current' }) := by
        cases pages with
        | nil =>
            show advance start ledgers [] current = _
            unfold advance
            rw [hseek]
            rfl
        | cons page rest =>
            show advance start ledgers ((page.id, (frames page.records).length) :: comingOf rest)
              current = _
            unfold advance
            rw [hseek]
            rfl
      rw [hfound]
      refine ⟨rfl, ?_⟩
      intro record more hmore
      rw [List.cons_append, List.cons.injEq] at hmore
      exact ⟨rfl, rfl, front, pages, hmore.2.symm, rfl, hready, hafter record hmore.1⟩

/-- The next item is the first in front of the reader, and a record leaves the others there. -/
theorem Reads.next_ok {reader : LogReader} {record : LogRecord}
    (h : reader.Reads ledgers (.ok record :: more)) :
    (reader.next ledgers).1 = some (.ok record) ∧ (reader.next ledgers).2.Reads ledgers more := by
  rcases h.parts with ⟨current, pages, hfront, hcoming, hready, hcurrent⟩
  have hadvance := advance_front reader.start hready hcurrent
  rw [← hcoming, ← hfront] at hadvance
  unfold LogReader.next
  rw [if_neg (by simp [h.going])]
  cases hrun : advance reader.start ledgers reader.coming reader.current with
  | mk found after =>
      rw [hrun] at hadvance
      have hfound : found = some (.ok record) := hadvance.1
      subst hfound
      exact ⟨rfl, (hadvance.2 record more rfl).2⟩

theorem Reads.next_end {reader : LogReader} (h : reader.Reads ledgers front)
    (hend : ∀ record, front.head? ≠ some (.ok record)) :
    (reader.next ledgers).1 = front.head? ∧ (reader.next ledgers).2.finished = true := by
  rcases h.parts with ⟨current, pages, hfront, hcoming, hready, hcurrent⟩
  have hadvance := (advance_front reader.start hready hcurrent).1
  rw [← hcoming, ← hfront] at hadvance
  unfold LogReader.next
  rw [if_neg (by simp [h.going])]
  cases hrun : advance reader.start ledgers reader.coming reader.current with
  | mk found after =>
      rw [hrun] at hadvance
      have hfound : found = front.head? := hadvance
      cases hhead : front.head? with
      | none =>
          rw [hfound, hhead]
          exact ⟨rfl, rfl⟩
      | some item =>
          cases item with
          | error e =>
              rw [hfound, hhead]
              exact ⟨rfl, rfl⟩
          | ok record => exact absurd hhead (hend record)

theorem next_finished {reader : LogReader} (h : reader.finished = true) :
    reader.next ledgers = (none, reader) := by
  unfold LogReader.next
  rw [if_pos h]

theorem itemsWithin_finished {reader : LogReader} (h : reader.finished = true) (fuel : Nat) :
    reader.itemsWithin ledgers fuel = [] := by
  cases fuel with
  | zero => rfl
  | succ fuel =>
      unfold LogReader.itemsWithin
      rw [next_finished h]

theorem Reads.itemsWithin :
    ∀ {fuel : Nat} {reader : LogReader} {front : List Item}, front.length < fuel →
      reader.Reads ledgers front → reader.itemsWithin ledgers fuel = untilError front
  | 0, _, _, hfuel, _ => absurd hfuel (Nat.not_lt_zero _)
  | fuel + 1, reader, front, hfuel, h => by
      unfold LogReader.itemsWithin
      cases hnext : reader.next ledgers with
      | mk found after =>
          cases front with
          | nil =>
              have hend := h.next_end (fun _ => nofun)
              rw [hnext] at hend
              have hfound : found = none := hend.1
              subst hfound
              rfl
          | cons item more =>
              cases item with
              | error e =>
                  have hend := h.next_end (fun _ heq => nomatch heq)
                  rw [hnext] at hend
                  have hfound : found = some (.error e) := hend.1
                  subst hfound
                  simp only [itemsWithin_finished hend.2]
                  rfl
              | ok record =>
                  have hstep := h.next_ok
                  rw [hnext] at hstep
                  have hfound : found = some (.ok record) := hstep.1
                  subst hfound
                  simp only [Reads.itemsWithin (Nat.lt_of_succ_lt_succ hfuel) hstep.2]
                  rfl

theorem untilError_map_ok (entries : List LogRecord) :
    untilError (entries.map .ok) = entries.map .ok := by
  induction entries with
  | nil => rfl
  | cons entry rest ih => exact congrArg (Except.ok entry :: ·) ih

theorem exists_error_of_untilError {items : List Item} {e : Error} (h : .error e ∈ items) :
    ∃ e', .error e' ∈ untilError items ∧ .error e' ∈ items := by
  induction items with
  | nil => cases h
  | cons item rest ih =>
      cases item with
      | error e' => exact ⟨e', List.mem_singleton_self _, List.mem_cons_self⟩
      | ok entry =>
          rcases List.mem_cons.mp h with heq | hrest
          · cases heq
          · rcases ih hrest with ⟨e', hfirst, hmem⟩
            exact ⟨e', List.mem_cons_of_mem _ hfirst, List.mem_cons_of_mem _ hmem⟩

end LogReader

/-!
## What the records hold
-/

namespace StoredRecord

open LogReader

variable {id : LedgerId} {start : SequenceNumber} {position : Nat}
  {record : StoredRecord} {entry : LogRecord} {records : List StoredRecord}
  {entries : List LogRecord}

def Holds (record : StoredRecord) (entry : LogRecord) : Prop :=
  entry.1 = record.seq ∧ Record.decode record.bytes = .ok (record.header, entry.2)

def AllHold (records : List StoredRecord) (entries : List LogRecord) : Prop :=
  List.Forall₂ Holds records entries

theorem holds_of_decode {header : Record.Header} {op : Operation}
    (h : Record.decode record.bytes = .ok (header, op)) : record.Holds (record.seq, op) := by
  have hheader := Record.decodeHeader_of_decode h
  rw [record.decodes] at hheader
  rw [← Except.ok.inj hheader] at h
  exact ⟨rfl, h⟩

theorem Holds.isCheckpoint_eq (h : record.Holds entry) :
    entry.2.isCheckpoint = record.isCheckpoint := by
  rw [Operation.isCheckpoint_eq, Record.kind_of_decode h.2]
  rfl

theorem Holds.reading_eq (h : record.Holds entry) :
    record.reading id start position = if entry.1 < start then none else some (.ok entry) := by
  rcases entry with ⟨seq, op⟩
  rcases h with ⟨heq, hdecode⟩
  have heq : seq = record.seq := heq
  subst heq
  unfold reading
  rw [hdecode]
  rfl

theorem AllHold.readings_eq (h : AllHold records entries) :
    readings id start position records =
      (entries.filter (fun entry => start ≤ entry.1)).map .ok := by
  induction h generalizing position with
  | nil => rfl
  | cons hrecord _ ih =>
      rw [readings_cons, ih, hrecord.reading_eq, List.filter_cons]
      split
      · rename_i hbefore
        have hnot : ¬ start ≤ _ := Nat.not_le.mpr hbefore
        simp [hnot]
      · rename_i hbefore
        have hle : start ≤ _ := Nat.not_lt.mp hbefore
        simp [hle]

theorem forall₂_of_append {relation : StoredRecord → LogRecord → Prop} {more : List StoredRecord}
    (h : List.Forall₂ relation (records ++ more) entries) :
    ∃ first second, entries = first ++ second ∧ List.Forall₂ relation records first ∧
      List.Forall₂ relation more second := by
  induction records generalizing entries with
  | nil => exact ⟨[], entries, rfl, .nil, h⟩
  | cons record rest ih =>
      rcases h with _ | ⟨hrecord, hrest⟩
      rcases ih hrest with ⟨first, second, rfl, hfirst, hsecond⟩
      exact ⟨_ :: first, second, rfl, .cons hrecord hfirst, hsecond⟩

theorem AllHold.of_append {more : List StoredRecord} (h : AllHold (records ++ more) entries) :
    ∃ first second, entries = first ++ second ∧ AllHold records first ∧ AllHold more second :=
  forall₂_of_append h

theorem AllHold.exists_of_mem (h : AllHold records entries) (hrecord : record ∈ records) :
    ∃ entry, record.Holds entry := by
  induction h with
  | nil => cases hrecord
  | cons hfirst _ ih =>
      rcases List.mem_cons.mp hrecord with rfl | hmem
      · exact ⟨_, hfirst⟩
      · exact ih hmem

theorem AllHold.map_seq_eq (h : AllHold records entries) :
    records.map (·.seq) = entries.map Prod.fst := by
  induction h with
  | nil => rfl
  | cons hrecord _ ih => rw [List.map_cons, List.map_cons, ih, hrecord.1]

theorem AllHold.le_seq (h : AllHold records entries) (hstart : ∀ entry ∈ entries, start ≤ entry.1) :
    ∀ record ∈ records, start ≤ record.seq := by
  intro record hrecord
  have hseq : record.seq ∈ entries.map Prod.fst := by
    rw [← h.map_seq_eq]
    exact List.mem_map_of_mem hrecord
  rcases List.mem_map.mp hseq with ⟨entry, hentry, heq⟩
  rw [← heq]
  exact hstart entry hentry

theorem AllHold.map_mark_eq (h : AllHold records entries) :
    entries.map (fun entry => (entry.1, entry.2.isCheckpoint)) =
      records.map (fun record => (record.seq, record.isCheckpoint)) := by
  induction h with
  | nil => rfl
  | cons hrecord _ ih =>
      rw [List.map_cons, List.map_cons, ih, hrecord.1, hrecord.isCheckpoint_eq]

/-- Records can be decoded, or a reader comes upon a fatal error. -/
theorem allHold_or_error (id : LedgerId) (start : SequenceNumber) (position : Nat)
    (records : List StoredRecord) :
    (∃ entries, AllHold records entries) ∨
      ∃ e, .error e ∈ readings id start position records := by
  induction records generalizing position with
  | nil => exact Or.inl ⟨[], .nil⟩
  | cons record rest ih =>
      rw [readings_cons]
      cases hdecode : Record.decode record.bytes with
      | error cause =>
          refine Or.inr ⟨.corrupt (.badRecord id position cause), List.mem_append_left _ ?_⟩
          unfold reading
          rw [hdecode]
          exact List.mem_singleton_self _
      | ok decoded =>
          rcases ih (position + (Frame.bytes record.bytes).length) with ⟨entries, hrest⟩ | ⟨e, he⟩
          · exact Or.inl ⟨_, .cons (holds_of_decode hdecode) hrest⟩
          · exact Or.inr ⟨e, List.mem_append_right _ he⟩

theorem fatal_of_mem_readings {e : Error} (h : .error e ∈ readings id start position records) :
    e.fatal = true := by
  induction records generalizing position with
  | nil => cases h
  | cons record rest ih =>
      rw [readings_cons] at h
      rcases List.mem_append.mp h with hfirst | hrest
      · unfold reading at hfirst
        split at hfirst
        · cases List.mem_singleton.mp hfirst
          rfl
        · split at hfirst
          · cases hfirst
          · cases List.mem_singleton.mp hfirst
      · exact ih hrest

end StoredRecord

namespace Page

open LogReader StoredRecord SequenceNumber

variable {start : SequenceNumber} {pages : List Page} {page : Page}

def recordsOf (pages : List Page) : List StoredRecord := pages.flatMap (·.records)

def wanted (start : SequenceNumber) (page : Page) : Bool :=
  page.info.size ≠ 0 && page.info.last.any (start ≤ ·)

theorem readings_eq {entries : List LogRecord} (h : AllHold (recordsOf pages) entries) :
    pages.flatMap (Page.readings start) =
      (entries.filter (fun entry => start ≤ entry.1)).map .ok := by
  induction pages generalizing entries with
  | nil =>
      cases h
      rfl
  | cons page rest ih =>
      rcases AllHold.of_append h with ⟨first, second, rfl, hfirst, hsecond⟩
      rw [List.flatMap_cons, ih hsecond, List.filter_append, List.map_append]
      exact congrArg (· ++ _) (AllHold.readings_eq hfirst)

theorem allHold_or_error (start : SequenceNumber) (pages : List Page) :
    (∃ entries, AllHold (recordsOf pages) entries) ∨
      ∃ e, .error e ∈ pages.flatMap (Page.readings start) := by
  induction pages with
  | nil => exact Or.inl ⟨[], .nil⟩
  | cons page rest ih =>
      rw [List.flatMap_cons]
      rcases StoredRecord.allHold_or_error page.id start 0 page.records with
        ⟨first, hfirst⟩ | ⟨e, he⟩
      · rcases ih with ⟨second, hsecond⟩ | ⟨e, he⟩
        · exact Or.inl ⟨first ++ second, List.rel_append hfirst hsecond⟩
        · exact Or.inr ⟨e, List.mem_append_right _ he⟩
      · exact Or.inr ⟨e, List.mem_append_left _ he⟩

theorem le_getLast {seqs : List SequenceNumber} (h : Consecutive seqs) {last seq : SequenceNumber}
    (hlast : seqs.getLast? = some last) (hseq : seq ∈ seqs) : seq ≤ last := by
  rcases List.getLast?_eq_some_iff.mp hlast with ⟨before, rfl⟩
  have hchain : (before ++ [last]).IsChain (· < ·) := by
    apply List.IsChain.imp _ h
    intro first second hnext
    rw [hnext]
    exact Nat.lt_succ_self first
  rcases List.mem_append.mp hseq with hbefore | hend
  · have hpairs := List.pairwise_append.mp (List.isChain_iff_pairwise.mp hchain)
    exact Nat.le_of_lt (hpairs.2.2 seq hbefore last (List.mem_singleton_self last))
  · exact Nat.le_of_eq (List.mem_singleton.mp hend)

theorem filter_of_not_wanted (h : Consecutive page.seqs) (hwanted : page.wanted start = false) :
    page.records.filter (fun record => start ≤ record.seq) = [] := by
  apply List.filter_eq_nil_iff.mpr
  intro record hrecord
  have hseq : record.seq ∈ page.seqs := List.mem_map_of_mem hrecord
  have hsize : page.info.size ≠ 0 := by
    have hle := Frame.length_le_length_run (page.records.map (·.bytes))
    have hpos := List.length_pos_of_mem hrecord
    rw [List.length_map] at hle
    exact Nat.ne_of_gt (Nat.lt_of_lt_of_le hpos hle)
  cases hlast : page.seqs.getLast? with
  | none =>
      rw [List.getLast?_eq_none_iff.mp hlast] at hseq
      cases hseq
  | some last =>
      have hle := le_getLast h hlast hseq
      have hinfo : page.info.last = some last := hlast
      have hlt : last < start := by
        simpa [wanted, hsize, hinfo] using hwanted
      have hnot : ¬ start ≤ record.seq := Nat.not_le.mpr (Nat.lt_of_le_of_lt hle hlt)
      simpa using hnot

theorem filter_wanted (h : Consecutive (pages.flatMap Page.seqs)) :
    (recordsOf (pages.filter (wanted start))).filter (fun record => start ≤ record.seq) =
      (recordsOf pages).filter (fun record => start ≤ record.seq) := by
  induction pages with
  | nil => rfl
  | cons page rest ih =>
      rw [List.flatMap_cons] at h
      rcases List.isChain_append.mp h with ⟨hpage, hrest, -⟩
      have ih := ih hrest
      unfold recordsOf at ih ⊢
      rw [List.flatMap_cons, List.filter_append, ← ih]
      cases hwanted : page.wanted start with
      | true => rw [List.filter_cons_of_pos hwanted, List.flatMap_cons, List.filter_append]
      | false =>
          rw [List.filter_cons_of_neg (by simp [hwanted]), filter_of_not_wanted hpage hwanted,
            List.nil_append]

theorem readings_filter_wanted {entries : List LogRecord}
    (hpages : ∀ page ∈ pages, Consecutive page.seqs) (h : AllHold (recordsOf pages) entries)
    (start : SequenceNumber) :
    (pages.filter (wanted start)).flatMap (Page.readings start) =
      pages.flatMap (Page.readings start) := by
  induction pages generalizing entries with
  | nil => rfl
  | cons page rest ih =>
      rcases AllHold.of_append h with ⟨first, second, rfl, hfirst, hsecond⟩
      have ih := ih (fun other hother => hpages other (List.mem_cons_of_mem _ hother)) hsecond
      rw [List.flatMap_cons, ← ih]
      cases hwanted : page.wanted start with
      | true => rw [List.filter_cons_of_pos hwanted, List.flatMap_cons]
      | false =>
          have hnone := filter_of_not_wanted (hpages page List.mem_cons_self) hwanted
          have hreadings : page.readings start = [] := by
            unfold Page.readings
            rw [AllHold.readings_eq hfirst, List.map_eq_nil_iff, List.filter_eq_nil_iff]
            intro entry hentry
            have hseq : entry.1 ∈ page.records.map (·.seq) := by
              rw [hfirst.map_seq_eq]
              exact List.mem_map_of_mem hentry
            rcases List.mem_map.mp hseq with ⟨record, hrecord, heq⟩
            rw [← heq]
            exact List.filter_eq_nil_iff.mp hnone record hrecord
          rw [List.filter_cons_of_neg (by simp [hwanted]), hreadings, List.nil_append]

end Page

/-!
## The log
-/

namespace Log

open LogReader StoredRecord SequenceNumber

variable {log : Log} {pages : List Page}

theorem readFrom_reads (hledgers : log.ledgers = pages.map Page.info)
    (hready : ∀ page ∈ pages, Ready log.medium page) (start : SequenceNumber) :
    (log.readFrom start).Reads log.medium
      ((pages.filter (Page.wanted start)).flatMap (Page.readings start)) := by
  have hcoming : (log.readFrom start).coming = comingOf (pages.filter (Page.wanted start)) := by
    unfold readFrom
    simp only [hledgers, List.filter_map, List.map_map]
    rfl
  refine { going := rfl, parts := ⟨[], _, rfl, hcoming, ?_, rfl⟩ }
  intro page hpage
  exact hready page (List.mem_filter.mp hpage).1

theorem readFrom_reads_of_allHold {entries : List LogRecord}
    (hledgers : log.ledgers = pages.map Page.info)
    (hready : ∀ page ∈ pages, Ready log.medium page)
    (hpages : ∀ page ∈ pages, Consecutive page.seqs)
    (hentries : AllHold (Page.recordsOf pages) entries) (start : SequenceNumber) :
    (log.readFrom start).Reads log.medium
      ((entries.filter (fun entry => start ≤ entry.1)).map .ok) := by
  have hreads := readFrom_reads hledgers hready start
  rwa [Page.readings_filter_wanted hpages hentries, Page.readings_eq hentries] at hreads

theorem records_of_reads {start : SequenceNumber} {front : List Item}
    (h : (log.readFrom start).Reads log.medium front) : log.records start = untilError front := by
  refine LogReader.Reads.itemsWithin ?_ h
  -- no frame is empty, so the bytes to come bound the number of items
  rcases h.parts with ⟨current, pages, rfl, hcoming, -, hcurrent⟩
  have hnil : current = [] := hcurrent
  have hle := length_readings_le_total start pages
  rw [hnil, List.nil_append]
  unfold bound
  rw [hcoming]
  exact Nat.lt_succ_of_le (Nat.le_trans hle (Nat.le_add_right _ _))

theorem records_pages (hledgers : log.ledgers = pages.map Page.info)
    (hready : ∀ page ∈ pages, Ready log.medium page) (start : SequenceNumber) :
    log.records start =
      untilError ((pages.filter (Page.wanted start)).flatMap (Page.readings start)) :=
  records_of_reads (readFrom_reads hledgers hready start)

theorem records_of_allHold {entries : List LogRecord} (hledgers : log.ledgers = pages.map Page.info)
    (hready : ∀ page ∈ pages, Ready log.medium page)
    (hpages : ∀ page ∈ pages, Consecutive page.seqs)
    (hentries : AllHold (Page.recordsOf pages) entries) (start : SequenceNumber) :
    log.records start = (entries.filter (fun entry => start ≤ entry.1)).map .ok := by
  rw [records_of_reads (readFrom_reads_of_allHold hledgers hready hpages hentries start),
    untilError_map_ok]

variable {config : Config} {ledgers : Ledgers}

theorem ready_ofPages (h : ledgers.Legible pages) {page : Page} (hpage : page ∈ pages) :
    Ready (ofPages config ledgers pages).medium page := by
  refine ⟨[], ?_⟩
  rw [List.append_nil, ← Page.bytes_cut]
  exact h.bytes?_settledAfter hpage

theorem records_ofPages (h : ledgers.Legible pages) (start : SequenceNumber) :
    (ofPages config ledgers pages).records start =
      untilError ((pages.filter (Page.wanted start)).flatMap (Page.readings start)) :=
  records_pages rfl (fun _ hpage => ready_ofPages h hpage) start

theorem records_or_error (h : ledgers.Legible pages) (start : SequenceNumber) :
    (∃ entries, AllHold (Page.recordsOf (pages.filter (Page.wanted start))) entries ∧
      (ofPages config ledgers pages).records start =
        (entries.filter (fun entry => start ≤ entry.1)).map .ok) ∨
      ∃ e, .error e ∈ (ofPages config ledgers pages).records start ∧ e.fatal = true := by
  rw [records_ofPages h]
  rcases Page.allHold_or_error start (pages.filter (Page.wanted start)) with
    ⟨entries, hentries⟩ | ⟨e, he⟩
  · refine Or.inl ⟨entries, hentries, ?_⟩
    rw [Page.readings_eq hentries, untilError_map_ok]
  · rcases exists_error_of_untilError he with ⟨e', hread, hmem⟩
    rcases List.mem_flatMap.mp hmem with ⟨page, -, hpage⟩
    exact Or.inr ⟨e', hread, fatal_of_mem_readings hpage⟩

theorem map_mark_records (h : ledgers.Legible pages) {start : SequenceNumber}
    {applied : List LogRecord}
    (hread : (ofPages config ledgers pages).records start = applied.map .ok) :
    applied.map (fun entry => (entry.1, entry.2.isCheckpoint)) =
      ((Page.recordsOf pages).filter (fun record => start ≤ record.seq)).map
        (fun record => (record.seq, record.isCheckpoint)) := by
  rcases @records_or_error _ config _ h start with ⟨entries, hentries, hall⟩ | ⟨e, he, -⟩
  · rw [hread] at hall
    have happlied : applied = entries.filter (fun entry => start ≤ entry.1) :=
      List.map_injective_iff.mpr (fun _ _ heq => Except.ok.inj heq) hall
    have hconsecutive := h.consecutive
    rw [List.nil_append] at hconsecutive
    have hmarks := congrArg (List.filter fun mark => decide (start ≤ mark.1)) hentries.map_mark_eq
    rw [List.filter_map, List.filter_map] at hmarks
    rw [← Page.filter_wanted hconsecutive, happlied]
    exact hmarks
  · rw [hread] at he
    rcases List.mem_map.mp he with ⟨entry, -, hentry⟩
    cases hentry

end Log
end TieredStore
