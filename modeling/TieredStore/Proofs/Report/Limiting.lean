import TieredStore.Proofs.Ledger.Parsing
import TieredStore.Proofs.Report.Collecting
import TieredStore.Report.Listing

/-!
# How far a listing with a limit reads

A listing counts its records when it has come upon one more that it wants.  So it ends
with that record, and what stands behind it does not matter.  But the ledgers have to be
in order up to there: an error between the last record that is shown and the next one that
is wanted prevents the listing, although nothing from there on would be shown.
-/

namespace TieredStore

variable {start : SequenceNumber} {record : LoggedRecord}
  {rest : List (Except ReportError LoggedRecord)} {e : ReportError}

/-!
## What the bytes of the ledgers hold
-/

namespace Ledgers

/-- What the bytes of a ledger hold, frame after frame.  An incomplete frame counts for nothing. -/
def heldIn (ledgers : Ledgers) (id : LedgerId) : List (Except ReportError LoggedRecord) :=
  match ledgers.attach id with
  | .error cause => [.error (.medium cause)]
  | .ok handle => (Frame.parse 0 (handle.contents ledgers.objects)).filterMap (logged? id)

def held (ledgers : Ledgers) : List (Except ReportError LoggedRecord) :=
  ledgers.list.flatMap ledgers.heldIn

theorem loggedIn_eq_heldIn (ledgers : Ledgers) (id : LedgerId) :
    ledgers.loggedIn id = ledgers.heldIn id := by
  unfold loggedIn heldIn
  cases hattach : ledgers.attach id with
  | error cause =>
      have hreach : ledgers.reach id = .error (.medium cause) := by
        unfold reach
        rw [hattach]
        rfl
      rw [hreach]
  | ok handle =>
      have hreach : ledgers.reach id = .ok handle := by
        unfold reach
        rw [hattach]
        rfl
      have hwalk : ledgers.walk handle = Frame.parse 0 (handle.contents ledgers.objects) :=
        (Walk.facing_whole (of_reach hreach).1).items_parse
      rw [hreach]
      simp only [hwalk]

theorem logged_eq_held (ledgers : Ledgers) : ledgers.logged = ledgers.held :=
  List.flatMap_congr fun id _ => ledgers.loggedIn_eq_heldIn id

end Ledgers

namespace Listing

def wanted (start : SequenceNumber) (records : List LoggedRecord) : List LoggedRecord :=
  records.filter fun record => start ≤ record.header.seq

/-- An error stands in front of the first record that is wanted. -/
def BreaksOff (start : SequenceNumber) (rest : List (Except ReportError LoggedRecord))
    (e : ReportError) : Prop :=
  ∃ between behind, rest = between.map .ok ++ .error e :: behind ∧ wanted start between = []

theorem wanted_cons_of_lt (h : record.header.seq < start) (records : List LoggedRecord) :
    wanted start (record :: records) = wanted start records :=
  List.filter_cons_of_neg (by simpa using h)

theorem wanted_cons_of_le (h : start ≤ record.header.seq) (records : List LoggedRecord) :
    wanted start (record :: records) = record :: wanted start records :=
  List.filter_cons_of_pos (by simpa using h)

/-!
## One record after the other
-/

theorem select_unwanted (h : record.header.seq < start) (limit : Option Nat)
    (rest : List (Except ReportError LoggedRecord)) :
    select start limit (.ok record :: rest) = select start limit rest := if_pos h

theorem select_none_wanted (h : start ≤ record.header.seq)
    (rest : List (Except ReportError LoggedRecord)) :
    select start none (.ok record :: rest) = (select start none rest).map (record :: ·) :=
  if_neg (Nat.not_lt.mpr h)

theorem select_full (h : start ≤ record.header.seq)
    (rest : List (Except ReportError LoggedRecord)) :
    select start (some 0) (.ok record :: rest) = .ok [] := if_neg (Nat.not_lt.mpr h)

theorem select_wanted (h : start ≤ record.header.seq) (limit : Nat)
    (rest : List (Except ReportError LoggedRecord)) :
    select start (some (limit + 1)) (.ok record :: rest) =
      (select start (some limit) rest).map (record :: ·) := if_neg (Nat.not_lt.mpr h)

/-!
## Behind the limit
-/

theorem not_breaksOff_nil : ¬ BreaksOff start [] e := by
  rintro ⟨between, behind, hrest, -⟩
  exact List.cons_ne_nil _ _ (List.append_eq_nil_iff.mp hrest.symm).2

theorem breaksOff_error_iff {cause : ReportError} :
    BreaksOff start (.error cause :: rest) e ↔ cause = e := by
  constructor
  · rintro ⟨between, behind, hrest, -⟩
    cases between with
    | nil =>
        cases hrest
        rfl
    | cons record between => cases hrest
  · rintro rfl
    exact ⟨[], rest, rfl, rfl⟩

theorem breaksOff_record_iff :
    BreaksOff start (.ok record :: rest) e ↔ record.header.seq < start ∧ BreaksOff start rest e := by
  constructor
  · rintro ⟨between, behind, hrest, hnone⟩
    cases between with
    | nil => cases hrest
    | cons first between =>
        cases hrest
        rcases Nat.lt_or_ge record.header.seq start with hlt | hle
        · rw [wanted_cons_of_lt hlt] at hnone
          exact ⟨hlt, between, behind, rfl, hnone⟩
        · rw [wanted_cons_of_le hle] at hnone
          cases hnone
  · rintro ⟨hlt, between, behind, rfl, hnone⟩
    exact ⟨record :: between, behind, rfl, (wanted_cons_of_lt hlt between).trans hnone⟩

/-- When nothing more is to be shown, the listing still goes on to the next record that is wanted. -/
theorem select_zero (start : SequenceNumber) (rest : List (Except ReportError LoggedRecord)) :
    (select start (some 0) rest = .ok [] ∧ ∀ e, ¬ BreaksOff start rest e) ∨
      ∃ e, select start (some 0) rest = .error e ∧ ∀ e', BreaksOff start rest e' ↔ e = e' := by
  induction rest with
  | nil => exact Or.inl ⟨rfl, fun e => not_breaksOff_nil⟩
  | cons item rest ih =>
      cases item with
      | error cause => exact Or.inr ⟨cause, rfl, fun e => breaksOff_error_iff⟩
      | ok record =>
          rcases Nat.lt_or_ge record.header.seq start with hlt | hle
          · simp only [select_unwanted hlt, breaksOff_record_iff, hlt, true_and]
            exact ih
          · left
            simp only [breaksOff_record_iff]
            exact ⟨select_full hle rest, fun e h => Nat.not_lt.mpr hle h.1⟩

/-!
## Up to the limit
-/

theorem select_seen (start : SequenceNumber) (seen : List LoggedRecord) (more : Nat)
    (rest : List (Except ReportError LoggedRecord)) :
    select start (some ((wanted start seen).length + more)) (seen.map .ok ++ rest) =
      (select start (some more) rest).map (wanted start seen ++ ·) := by
  induction seen with
  | nil =>
      show select start (some (0 + more)) rest = _
      rw [Nat.zero_add]
      cases select start (some more) rest with
      | error e => rfl
      | ok found => rfl
  | cons record seen ih =>
      rw [List.map_cons, List.cons_append]
      rcases Nat.lt_or_ge record.header.seq start with hlt | hle
      · rw [wanted_cons_of_lt hlt, select_unwanted hlt, ih]
      · rw [wanted_cons_of_le hle, List.length_cons, Nat.add_right_comm, select_wanted hle, ih]
        cases select start (some more) rest with
        | error e => rfl
        | ok found => rfl

/-- With a limit, a listing shows the first of the records that it shows without one. -/
theorem select_take {items : List (Except ReportError LoggedRecord)} {all : List LoggedRecord}
    (h : select start none items = .ok all) (limit : Nat) :
    select start (some limit) items = .ok (all.take limit) := by
  induction items generalizing all limit with
  | nil =>
      cases h
      rw [List.take_nil]
      rfl
  | cons item items ih =>
      cases item with
      | error cause => cases h
      | ok record =>
          rcases Nat.lt_or_ge record.header.seq start with hlt | hle
          · rw [select_unwanted hlt] at h ⊢
            exact ih h limit
          · rw [select_none_wanted hle] at h
            cases hitems : select start none items with
            | error e =>
                rw [hitems] at h
                cases h
            | ok found =>
                rw [hitems] at h
                cases h
                cases limit with
                | zero => exact select_full hle items
                | succ limit =>
                    rw [select_wanted hle, ih hitems limit, List.take_succ_cons]
                    rfl

/--
When the ledgers start with records among which as many are wanted as the limit allows, a
listing shows just these, unless an error comes before another record that is wanted.
Exactly then it fails, with this error.  Where a listing without a limit succeeds, the one
with a limit shows the first of its records.
-/
theorem limited_lists_first_iff (ledgers : Ledgers) (start : SequenceNumber) (limit : Nat) :
    (∀ seen rest, ledgers.held = seen.map .ok ++ rest → (wanted start seen).length = limit →
      (run ledgers start (some limit) = .ok (wanted start seen) ↔
        ¬ ∃ e, BreaksOff start rest e) ∧
      ∀ e, run ledgers start (some limit) = .error e ↔ BreaksOff start rest e) ∧
    ∀ all, run ledgers start none = .ok all →
      run ledgers start (some limit) = .ok (all.take limit) := by
  constructor
  · intro seen rest hheld hcount
    have hrun : run ledgers start (some limit) =
        (select start (some 0) rest).map (wanted start seen ++ ·) := by
      unfold run
      rw [ledgers.logged_eq_held, hheld, ← hcount]
      exact select_seen start seen 0 rest
    rcases select_zero start rest with ⟨hselect, hnever⟩ | ⟨e, hselect, hbreaks⟩
    · have hshown : run ledgers start (some limit) = .ok (wanted start seen) := by
        rw [hrun, hselect]
        exact congrArg Except.ok (List.append_nil _)
      simp [hshown, hnever]
    · have hstopped : run ledgers start (some limit) = .error e := by
        rw [hrun, hselect]
        rfl
      simp [hstopped, hbreaks]
  · intro all hall
    exact select_take hall limit

private def framed (seq : SequenceNumber) (op : Operation) : Bytes :=
  ((Frame.ofOperation seq op).toOption).getD []

private def createdAt (ledger : LedgerId) (offset : Nat) (seq : SequenceNumber) (name : String) :
    LoggedRecord :=
  { ledger, offset, header := ⟨.create, RecordKind.create.version, seq⟩, operation := .create seq name }

/-- Two records in a ledger that is torn, and one with these bytes behind it in another. -/
private def threeRecords (behind : Bytes) : Ledgers :=
  { directory := .memory (.ofList [(1, 0), (3, 1)]) {}
    objects := [framed 1 (.create 1 "a") ++ framed 2 (.create 2 "b") ++ [83, 83],
      framed 3 (.create 3 "c") ++ behind] }

theorem limited_lists_first_iff_broken :
    let broken := threeRecords (List.replicate 12 0)
    let sound := threeRecords []
    let cause : ReportError := .core (.corrupt (.badMagic 33))
    let first := createdAt 1 0 1 "a"
    let second := createdAt 1 33 2 "b"
    let third := createdAt 3 0 3 "c"
    broken.held = [.ok first, .ok second, .ok third, .error cause] ∧
      run broken 2 (some 1) = .ok [second] ∧ run broken 2 (some 2) = .error cause ∧
      run sound 2 none = .ok [second, third] ∧ run sound 2 (some 1) = .ok [second] := by
  intro broken sound cause first second third
  have hheld : broken.held = [.ok first, .ok second, .ok third, .error cause] := by
    rw [← Ledgers.logged_eq_held]
    decide +kernel
  have hall : run sound 2 none = .ok [second, third] := by decide +kernel
  have hpassable : ¬ ∃ e, BreaksOff 2 [.ok third, .error cause] e := by
    rintro ⟨e, hbreaks⟩
    exact absurd (breaksOff_record_iff.mp hbreaks).1 (by decide)
  have hbreaks : BreaksOff 2 [.error cause] cause := breaksOff_error_iff.mpr rfl
  have hone := (limited_lists_first_iff broken 2 1).1 [first, second] [.ok third, .error cause] hheld rfl
  have htwo := (limited_lists_first_iff broken 2 2).1 [first, second, third] [.error cause] hheld rfl
  exact ⟨hheld, hone.1.mpr hpassable, (htwo.2 cause).mpr hbreaks, hall,
    (limited_lists_first_iff sound 2 1).2 [second, third] hall⟩

/-- A ledger of two records after a byte of the second has been changed. -/
private def secondChanged : Ledgers :=
  { directory := .memory (.ofList [(1, 0)]) {}
    objects := [framed 1 (.create 1 "a") ++ (framed 2 (.create 2 "b")).modify 12 (· ^^^ 1)] }

/-- The first record is all that is to be shown, and the damage behind it prevents that. -/
theorem damage_behind_limit_refused :
    let first := createdAt 1 0 1 "a"
    ∃ e, secondChanged.held = [.ok first, .error e] ∧ wanted 1 [first] = [first] ∧
      run secondChanged 1 (some 1) = .error e := by
  refine ⟨.core (.checksumMismatch 0xa46adb75 0x23cc1036), ?_, rfl, by decide +kernel⟩
  rw [← Ledgers.logged_eq_held]
  decide +kernel

end Listing
end TieredStore
