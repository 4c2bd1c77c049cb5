import Mathlib.Data.List.Sort
import Mathlib.Data.Prod.Lex
import TieredStore.Proofs.Waking

/-!
# Whom an event reaches

The waiters of all segments fit in one row, in ascending order of segment, offset and
number, where those of one segment stand next to each other.  An event of a segment
walks along its stretch and stops at the first waiter that it does not reach.  A guard
takes out the one waiter that it was given for.

The row and the registry are told of the same calls and go on side by side: the same
waiters are left, and the messages that the registry holds are those that were sent
along the row, where each waiter is sent one at most.

An append reaches the waiters of its segment below the new length.  The end of a segment
is told to whoever waits below the largest offset there is, so that a waiter for that
offset is passed over and stays.  Waiters of other segments are not touched.
-/

namespace TieredStore

/-! ## Calls -/

inductive WaiterCall
  | register (segment : SegmentId) (offset : Nat)
  | appended (segment : SegmentId) (length : Nat)
  | sealed (segment : SegmentId)
  | merged (segment : SegmentId)
  /-- The guard that the waiter of this number was given is dropped. -/
  | drop (waiter : Nat)

def WaiterCall.Fits : WaiterCall → Prop
  | .register _ offset => offset ≤ maxWord
  | .appended _ length => length ≤ maxWord
  | .sealed _ => True
  | .merged _ => True
  | .drop _ => True

instance : DecidablePred WaiterCall.Fits
  | .register _ offset => inferInstanceAs (Decidable (offset ≤ maxWord))
  | .appended _ length => inferInstanceAs (Decidable (length ≤ maxWord))
  | .sealed _ => inferInstanceAs (Decidable True)
  | .merged _ => inferInstanceAs (Decidable True)
  | .drop _ => inferInstanceAs (Decidable True)

def Waiters.perform (w : Waiters) : WaiterCall → Waiters
  | .register segment offset => (w.register segment offset).2
  | .appended segment length => w.notifyAppended segment length
  | .sealed segment => w.notifySealed segment
  | .merged segment => w.notifyMerged segment
  | .drop waiter => w.deregister waiter

theorem Waiters.deregister_of_gone {w : Waiters} {waiter : Nat}
    (h : ∀ r ∈ w.waiting, r.id ≠ waiter) : w.deregister waiter = w := by
  have hall : w.waiting.filter (·.id ≠ waiter) = w.waiting := by
    apply List.filter_eq_self.mpr
    intro r hr
    exact decide_eq_true (h r hr)
  unfold Waiters.deregister
  rw [hall]

/-- Where a waiter stands: by segment, then by offset, then by number. -/
def Waiter.key (r : Waiter) : Nat ×ₗ Nat ×ₗ Nat := toLex (r.segment, toLex (r.offset, r.id))

structure WaiterRow where
  /-- Those who wait, smallest key first. -/
  pending : List Waiter := []
  /-- The guards that were given out: all who were ever registered, by number. -/
  guards : List Waiter := []
  /-- The messages that were sent, first one first. -/
  sent : List (Nat × Wakeup) := []

namespace WaiterRow

def register (row : WaiterRow) (segment : SegmentId) (offset : Nat) : WaiterRow :=
  let r : Waiter := { id := row.guards.length, segment, offset }
  { row with
    pending := row.pending.orderedInsert (fun a b => a.key ≤ b.key) r
    guards := row.guards ++ [r] }

/-- The waiters of a segment, from its smallest key to its largest. -/
def stretch (row : WaiterRow) (segment : SegmentId) : List Waiter :=
  (row.pending.dropWhile fun r => r.key < toLex (segment, toLex (0, 0))).takeWhile
    fun r => r.key ≤ toLex (segment, toLex (maxWord, maxWord))

/-- The waiters of a segment up to the first that is not below `below`. -/
def reached (row : WaiterRow) (segment : SegmentId) (below : Nat) : List Waiter :=
  (row.stretch segment).takeWhile fun r => r.offset < below

/-- Takes out whoever is reached and sends each of them a message. -/
def tell (row : WaiterRow) (segment : SegmentId) (below : Nat) (wakeup : Wakeup) : WaiterRow :=
  let told := row.reached segment below
  { row with
    pending := row.pending.diff told
    sent := row.sent ++ told.map fun r => (r.id, wakeup) }

def drop (row : WaiterRow) (waiter : Nat) : WaiterRow :=
  match row.guards[waiter]? with
  | some r => { row with pending := row.pending.erase r }
  | none => row

def perform (row : WaiterRow) : WaiterCall → WaiterRow
  | .register segment offset => row.register segment offset
  | .appended segment length => row.tell segment length (.appended length)
  | .sealed segment => row.tell segment maxWord .sealed
  | .merged segment => row.tell segment maxWord .merged
  | .drop waiter => row.drop waiter

end WaiterRow

/-! ## The stretch of a segment -/

theorem takeWhile_eq_filter_of_pairwise {α : Type} {p : α → Bool} {list : List α}
    (h : list.Pairwise fun a b => p b = true → p a = true) : list.takeWhile p = list.filter p := by
  induction list with
  | nil => rfl
  | cons a rest ih =>
      rw [List.pairwise_cons] at h
      by_cases ha : p a = true
      · rw [List.takeWhile_cons_of_pos ha, List.filter_cons_of_pos ha, ih h.2]
      · rw [List.takeWhile_cons_of_neg ha, List.filter_cons_of_neg ha]
        apply Eq.symm
        apply List.filter_eq_nil_iff.mpr
        intro b hb hpb
        exact ha (h.1 b hb hpb)

theorem dropWhile_eq_filter_of_pairwise {α : Type} {p : α → Bool} {list : List α}
    (h : list.Pairwise fun a b => p b = true → p a = true) :
    list.dropWhile p = list.filter fun a => !p a := by
  induction list with
  | nil => rfl
  | cons a rest ih =>
      rw [List.pairwise_cons] at h
      by_cases ha : p a = true
      · rw [List.dropWhile_cons_of_pos ha, List.filter_cons_of_neg (by simp [ha]), ih h.2]
      · rw [List.dropWhile_cons_of_neg ha, List.filter_cons_of_pos (by simp [ha])]
        apply congrArg (a :: ·)
        apply Eq.symm
        apply List.filter_eq_self.mpr
        intro b hb
        cases hpb : p b with
        | false => rfl
        | true => exact absurd (h.1 b hb hpb) ha

namespace Waiter

variable {a b r : Waiter} {segment : SegmentId} {below : Nat}

theorem key_le_iff {offset id : Nat} :
    r.key ≤ toLex (segment, toLex (offset, id)) ↔
      r.segment < segment ∨ r.segment = segment ∧
        (r.offset < offset ∨ r.offset = offset ∧ r.id ≤ id) := by
  unfold key
  rw [Prod.Lex.toLex_le_toLex, Prod.Lex.toLex_le_toLex]

theorem key_lt_iff {offset id : Nat} :
    r.key < toLex (segment, toLex (offset, id)) ↔
      r.segment < segment ∨ r.segment = segment ∧
        (r.offset < offset ∨ r.offset = offset ∧ r.id < id) := by
  unfold key
  rw [Prod.Lex.toLex_lt_toLex, Prod.Lex.toLex_lt_toLex]

theorem offset_le_of_key_le (h : a.key ≤ b.key) (hsegment : a.segment = b.segment) :
    a.offset ≤ b.offset := by
  rcases key_le_iff.mp h with hlt | ⟨-, hlt | ⟨heq, -⟩⟩
  · exact absurd hsegment (Nat.ne_of_lt hlt)
  · exact Nat.le_of_lt hlt
  · exact Nat.le_of_eq heq

theorem segment_eq_of_between (hfirst : ¬ r.key < toLex (segment, toLex (0, 0)))
    (hlast : r.key ≤ toLex (segment, toLex (maxWord, maxWord))) : r.segment = segment := by
  rcases key_le_iff.mp hlast with hlt | ⟨heq, -⟩
  · exact absurd (key_lt_iff.mpr (Or.inl hlt)) hfirst
  · exact heq

theorem between_of_concerns (hbelow : below ≤ maxWord) (h : Waiters.Concerns segment below r) :
    ¬ r.key < toLex (segment, toLex (0, 0)) ∧
      r.key ≤ toLex (segment, toLex (maxWord, maxWord)) := by
  rcases h with ⟨hsegment, hoffset⟩
  constructor
  · intro hfirst
    rcases key_lt_iff.mp hfirst with hlt | ⟨-, hlt | ⟨-, hlt⟩⟩
    · exact absurd hsegment (Nat.ne_of_lt hlt)
    · exact Nat.not_lt_zero _ hlt
    · exact Nat.not_lt_zero _ hlt
  · have hlt : r.offset < maxWord := Nat.lt_of_lt_of_le hoffset hbelow
    exact key_le_iff.mpr (Or.inr ⟨hsegment, Or.inl hlt⟩)

end Waiter

namespace WaiterRow

variable {row : WaiterRow} {segment : SegmentId} {below : Nat}

def Ascends (row : WaiterRow) : Prop := row.pending.Pairwise fun a b => a.key ≤ b.key

theorem Ascends.stretch_eq (h : row.Ascends) (segment : SegmentId) :
    row.stretch segment = (row.pending.filter fun r =>
      !decide (r.key < toLex (segment, toLex (0, 0)))).filter fun r =>
        decide (r.key ≤ toLex (segment, toLex (maxWord, maxWord))) := by
  have hdrop : row.pending.Pairwise fun a b =>
      decide (b.key < toLex (segment, toLex (0, 0))) = true →
        decide (a.key < toLex (segment, toLex (0, 0))) = true := by
    apply h.imp
    intro a b hle hb
    exact decide_eq_true (lt_of_le_of_lt hle (of_decide_eq_true hb))
  have htake : (row.pending.filter fun r =>
      !decide (r.key < toLex (segment, toLex (0, 0)))).Pairwise fun a b =>
        decide (b.key ≤ toLex (segment, toLex (maxWord, maxWord))) = true →
          decide (a.key ≤ toLex (segment, toLex (maxWord, maxWord))) = true := by
    apply (List.Pairwise.filter _ h).imp
    intro a b hle hb
    exact decide_eq_true (le_trans hle (of_decide_eq_true hb))
  unfold stretch
  rw [dropWhile_eq_filter_of_pairwise hdrop, takeWhile_eq_filter_of_pairwise htake]

theorem Ascends.stretch_pairwise (h : row.Ascends) (segment : SegmentId) :
    (row.stretch segment).Pairwise fun a b => a.key ≤ b.key := by
  rw [h.stretch_eq]
  exact (List.Pairwise.filter _ h).filter _

theorem Ascends.segment_eq {r : Waiter} (h : row.Ascends) (hr : r ∈ row.stretch segment) :
    r.segment = segment := by
  rw [h.stretch_eq] at hr
  rcases List.mem_filter.mp hr with ⟨hfirst, hlast⟩
  have hnot := (List.mem_filter.mp hfirst).2
  rw [Bool.not_eq_true', decide_eq_false_iff_not] at hnot
  exact Waiter.segment_eq_of_between hnot (of_decide_eq_true hlast)

/-- Walking along the stretch of a segment reaches whom the event concerns, in order. -/
theorem Ascends.reached_eq (h : row.Ascends) (segment : SegmentId) (hbelow : below ≤ maxWord) :
    row.reached segment below =
      row.pending.filter fun r => r.segment == segment && decide (r.offset < below) := by
  have htake : (row.stretch segment).Pairwise fun a b =>
      decide (b.offset < below) = true → decide (a.offset < below) = true := by
    apply (h.stretch_pairwise segment).imp_of_mem
    intro a b ha hb hle hbelow'
    have hsegment := (h.segment_eq ha).trans (h.segment_eq hb).symm
    exact decide_eq_true (Nat.lt_of_le_of_lt (Waiter.offset_le_of_key_le hle hsegment)
      (of_decide_eq_true hbelow'))
  unfold reached
  rw [takeWhile_eq_filter_of_pairwise htake, h.stretch_eq, List.filter_filter, List.filter_filter]
  apply List.filter_congr
  intro r _
  rw [Bool.eq_iff_iff]
  simp only [Bool.and_eq_true, decide_eq_true_eq, Bool.not_eq_true', decide_eq_false_iff_not,
    beq_iff_eq]
  constructor
  · intro hr
    exact ⟨Waiter.segment_eq_of_between hr.2 hr.1.2, hr.1.1⟩
  · intro hr
    rcases Waiter.between_of_concerns hbelow hr with ⟨hfirst, hlast⟩
    exact ⟨⟨hr.2, hlast⟩, hfirst⟩

/-! ## Side by side -/

instance : Std.Total fun a b : Waiter => a.key ≤ b.key := ⟨fun a b => le_total a.key b.key⟩

instance : IsTrans Waiter fun a b => a.key ≤ b.key := ⟨fun _ _ _ => le_trans⟩

/-- The row and the registry have been told of the same calls. -/
structure Shows (row : WaiterRow) (w : Waiters) : Prop where
  ascends : row.Ascends
  pending : row.pending.Perm w.waiting
  nextId : w.nextId = row.guards.length
  numbered : ∀ {n : Nat} {r : Waiter}, row.guards[n]? = some r → r.id = n
  guarded : ∀ r ∈ row.pending, row.guards[r.id]? = some r
  fits : ∀ r ∈ w.waiting, r.offset ≤ maxWord
  proper : w.Proper
  sent : ∀ id wakeup, w.messages.get? id = some wakeup ↔ (id, wakeup) ∈ row.sent
  once : (row.sent.map (·.1)).Nodup

theorem shows_empty : Shows {} {} where
  ascends := List.Pairwise.nil
  pending := List.Perm.nil
  nextId := rfl
  numbered := fun h => nomatch h
  guarded := fun _ hr => nomatch hr
  fits := fun _ hr => nomatch hr
  proper := Waiters.proper_empty
  sent := fun _ _ => ⟨nofun, nofun⟩
  once := List.nodup_nil

namespace Shows

variable {w : Waiters} {wakeup : Wakeup}

theorem nodup (h : row.Shows w) : row.pending.Nodup :=
  h.pending.nodup_iff.mpr (List.Nodup.of_map _ h.proper.nodup)

/-! ### New waiters -/

theorem register (h : row.Shows w) (segment : SegmentId) {offset : Nat} (hfits : offset ≤ maxWord) :
    (row.register segment offset).Shows (w.register segment offset).2 := by
  let r : Waiter := { id := row.guards.length, segment, offset }
  have hinserted : (row.register segment offset).pending.Perm (r :: row.pending) :=
    List.perm_orderedInsert _ r row.pending
  have hgiven : ∀ {n : Nat} {other : Waiter}, row.guards[n]? = some other →
      (row.guards ++ [r])[n]? = some other := by
    intro n other hn
    rw [List.getElem?_append_left (List.getElem?_eq_some_iff.mp hn).1]
    exact hn
  constructor
  · -- the new waiter is put where the order is kept
    exact List.Pairwise.orderedInsert r row.pending h.ascends
  · apply hinserted.trans
    show (r :: row.pending).Perm (w.waiting ++ [⟨w.nextId, segment, offset⟩])
    rw [h.nextId]
    exact (List.Perm.cons r h.pending).trans (List.perm_append_singleton r w.waiting).symm
  · show w.nextId + 1 = (row.guards ++ [r]).length
    rw [h.nextId, List.length_append]
    rfl
  · intro n other hn
    have hcases : (row.guards ++ [r])[n]? = some other := hn
    rw [List.getElem?_append] at hcases
    split at hcases
    · exact h.numbered hcases
    · rw [List.getElem?_singleton] at hcases
      split at hcases
      · cases hcases
        show row.guards.length = n
        omega
      · cases hcases
  · intro other hother
    show (row.guards ++ [r])[other.id]? = some other
    rcases List.mem_cons.mp (hinserted.mem_iff.mp hother) with heq | hold
    · rw [heq, show r.id = row.guards.length from rfl, List.getElem?_concat_length]
    · exact hgiven (h.guarded other hold)
  · intro other hother
    rcases (w.mem_register segment offset).mp hother with hold | heq
    · exact h.fits other hold
    · rw [heq]
      exact hfits
  · exact (Waiters.Proceeds.register w segment offset).proper h.proper
  · exact h.sent
  · exact h.once

/-! ### Events -/

theorem get?_wake (w : Waiters) (segment : SegmentId) (below : Nat) (wakeup : Wakeup) (id : Nat) :
    (∃ r ∈ w.waiting, Waiters.Concerns segment below r ∧ r.id = id) ∧
        (w.wake segment below wakeup).messages.get? id = some wakeup ∨
      (∀ r ∈ w.waiting, Waiters.Concerns segment below r → r.id ≠ id) ∧
        (w.wake segment below wakeup).messages.get? id = w.messages.get? id := by
  by_cases hreached : ∃ r ∈ w.waiting, Waiters.Concerns segment below r ∧ r.id = id
  · apply Or.inl
    constructor
    · exact hreached
    · rcases hreached with ⟨r, hr, hconcerns, hid⟩
      exact Waiters.get?_foldl_insert_of_mem
        ⟨r, Waiters.mem_concerned.mpr ⟨hr, hconcerns⟩, hid⟩ w.messages
  · have hnone : ∀ r ∈ w.waiting, Waiters.Concerns segment below r → r.id ≠ id :=
      fun r hr hconcerns hid => hreached ⟨r, hr, hconcerns, hid⟩
    apply Or.inr
    constructor
    · exact hnone
    · apply Waiters.get?_foldl_insert_of_forall_ne
      intro r hr
      rcases Waiters.mem_concerned.mp hr with ⟨hwaits, hconcerns⟩
      exact hnone r hwaits hconcerns

theorem mem_reached (h : row.Shows w) (hbelow : below ≤ maxWord) {r : Waiter} :
    r ∈ row.reached segment below ↔ r ∈ w.waiting ∧ Waiters.Concerns segment below r := by
  rw [h.ascends.reached_eq segment hbelow, ← Waiters.mem_concerned]
  exact (h.pending.filter _).mem_iff

theorem pending_tell (h : row.Shows w) (segment : SegmentId) (hbelow : below ≤ maxWord)
    (wakeup : Wakeup) :
    (row.tell segment below wakeup).pending =
      row.pending.filter fun r => !(r.segment == segment && decide (r.offset < below)) := by
  show row.pending.diff (row.reached segment below) = _
  rw [h.nodup.sdiff_eq_filter]
  apply List.filter_congr
  intro r hr
  have hreached : r ∈ row.reached segment below ↔
      (r.segment == segment && decide (r.offset < below)) = true := by
    rw [h.ascends.reached_eq segment hbelow, List.mem_filter]
    exact and_iff_right hr
  rw [Bool.eq_iff_iff, decide_eq_true_eq, hreached, Bool.not_eq_true', Bool.not_eq_true]

theorem tell (h : row.Shows w) (segment : SegmentId) (hbelow : below ≤ maxWord)
    (wakeup : Wakeup) : (row.tell segment below wakeup).Shows (w.wake segment below wakeup) := by
  have hpending := h.pending_tell segment hbelow wakeup
  have hleft : ∀ r ∈ (row.tell segment below wakeup).pending, r ∈ row.pending := by
    intro r hr
    rw [hpending] at hr
    exact (List.mem_filter.mp hr).1
  constructor
  · show List.Pairwise _ _
    rw [hpending]
    exact List.Pairwise.filter _ h.ascends
  · rw [hpending]
    exact h.pending.filter _
  · exact h.nextId
  · exact h.numbered
  · exact fun r hr => h.guarded r (hleft r hr)
  · exact fun r hr => h.fits r (Waiters.mem_wake.mp hr).1
  · exact (Waiters.Proceeds.wake w segment below wakeup).proper h.proper
  · intro id found
    show _ ↔ (id, found) ∈ row.sent ++ (row.reached segment below).map fun r => (r.id, wakeup)
    rw [List.mem_append, List.mem_map, ← h.sent]
    rcases get?_wake w segment below wakeup id with ⟨⟨r, hr, hconcerns, rfl⟩, hget⟩ | ⟨hnone, hget⟩
    · -- one that is reached had no message before
      rw [hget, h.proper.unsent r hr]
      constructor
      · intro hfound
        cases hfound
        exact Or.inr ⟨r, (h.mem_reached hbelow).mpr ⟨hr, hconcerns⟩, rfl⟩
      · intro hfound
        rcases hfound with hbefore | ⟨other, -, heq⟩
        · cases hbefore
        · rw [(Prod.mk.inj heq).2]
    · rw [hget]
      constructor
      · exact Or.inl
      · intro hfound
        rcases hfound with hbefore | ⟨other, hother, heq⟩
        · exact hbefore
        · rcases (h.mem_reached hbelow).mp hother with ⟨hwaits, hconcerns⟩
          exact absurd (Prod.mk.inj heq).1 (hnone other hwaits hconcerns)
  · show ((row.sent ++ (row.reached segment below).map fun r => (r.id, wakeup)).map (·.1)).Nodup
    rw [List.map_append, List.map_map, List.nodup_append]
    refine ⟨h.once, ?_, ?_⟩
    · show ((row.reached segment below).map (·.id)).Nodup
      rw [h.ascends.reached_eq segment hbelow]
      have hids : (row.pending.map (·.id)).Nodup :=
        (h.pending.map (·.id)).nodup_iff.mpr h.proper.nodup
      exact (List.filter_sublist.map _).nodup hids
    · intro id hid other hother heq
      rcases List.mem_map.mp hid with ⟨⟨n, found⟩, hsent, rfl⟩
      rcases List.mem_map.mp hother with ⟨r, hr, rfl⟩
      have hmessage := (h.sent n found).mpr hsent
      exact h.proper.gone_of_message hmessage r ((h.mem_reached hbelow).mp hr).1 heq.symm

/-! ### Guards -/

theorem drop (h : row.Shows w) (waiter : Nat) : (row.drop waiter).Shows (w.deregister waiter) := by
  have hproper := (Waiters.Proceeds.deregister w waiter).proper h.proper
  have hfits : ∀ r ∈ (w.deregister waiter).waiting, r.offset ≤ maxWord :=
    fun r hr => h.fits r (List.mem_filter.mp hr).1
  unfold WaiterRow.drop
  cases hguard : row.guards[waiter]? with
  | none =>
      -- no waiter ever had this number
      have hnone : ∀ r ∈ w.waiting, r.id ≠ waiter := by
        intro r hr hid
        have hgiven := h.guarded r (h.pending.mem_iff.mpr hr)
        rw [hid, hguard] at hgiven
        cases hgiven
      rw [Waiters.deregister_of_gone hnone]
      exact h
  | some r =>
      have hid := h.numbered hguard
      have herase : row.pending.erase r = row.pending.filter (·.id ≠ waiter) := by
        rw [h.nodup.erase_eq_filter]
        apply List.filter_congr
        intro other hother
        rw [Bool.eq_iff_iff, bne_iff_ne, decide_eq_true_eq]
        constructor
        · intro hne heq
          have hgiven := h.guarded other hother
          rw [heq, hguard] at hgiven
          cases hgiven
          exact hne rfl
        · intro hne heq
          rw [heq] at hne
          exact hne hid
      have hsub : ∀ other ∈ row.pending.erase r, other ∈ row.pending :=
        fun other hother => List.mem_of_mem_erase hother
      constructor
      · exact List.Pairwise.sublist List.erase_sublist h.ascends
      · show (row.pending.erase r).Perm (w.waiting.filter (·.id ≠ waiter))
        rw [herase]
        exact h.pending.filter _
      · exact h.nextId
      · exact h.numbered
      · exact fun other hother => h.guarded other (hsub other hother)
      · exact hfits
      · exact hproper
      · exact h.sent
      · exact h.once

/-! ### Runs -/

theorem perform (h : row.Shows w) {call : WaiterCall} (hfits : call.Fits) :
    (row.perform call).Shows (w.perform call) := by
  cases call with
  | register segment offset => exact h.register segment hfits
  | appended segment length => exact h.tell segment hfits (.appended length)
  | «sealed» segment => exact h.tell segment (Nat.le_refl _) .sealed
  | merged segment => exact h.tell segment (Nat.le_refl _) .merged
  | drop waiter => exact h.drop waiter

theorem run (h : row.Shows w) {calls : List WaiterCall} (hfits : ∀ call ∈ calls, call.Fits) :
    (calls.foldl WaiterRow.perform row).Shows (calls.foldl Waiters.perform w) := by
  induction calls generalizing row w with
  | nil => exact h
  | cons call rest ih =>
      have hnext := h.perform (hfits call List.mem_cons_self)
      exact ih hnext fun later hlater => hfits later (List.mem_cons_of_mem _ hlater)

end Shows
end WaiterRow

/-! ## Events and guards -/

namespace WaiterRow

variable {row : WaiterRow} {w : Waiters} {segment : SegmentId} {below : Nat} {wakeup : Wakeup}
  {event : WaiterCall}

/-- The event is for `who`: they are sent the message and wait no more, and that is all. -/
structure Reaches (row : WaiterRow) (w : Waiters) (event : WaiterCall) (who : Waiter → Bool)
    (wakeup : Wakeup) : Prop where
  sent : (row.perform event).sent =
    row.sent ++ (row.pending.filter who).map fun r => (r.id, wakeup)
  waiting : (w.perform event).waiting = w.waiting.filter fun r => !who r
  told : ∀ r ∈ w.waiting, who r = true → (w.perform event).look r.id = .message wakeup
  untold : ∀ id, (∀ r ∈ w.waiting, who r = true → r.id ≠ id) →
    (w.perform event).look id = w.look id

structure Loses (row : WaiterRow) (w : Waiters) (event : WaiterCall) (r : Waiter) : Prop where
  sent : (row.perform event).sent = row.sent
  waiting : (w.perform event).waiting = w.waiting.erase r
  gone : (w.perform event).look r.id = .never
  others : ∀ id, id ≠ r.id → (w.perform event).look id = w.look id

namespace Shows

theorem reaches (h : row.Shows w) (hbelow : below ≤ maxWord)
    (hrow : row.perform event = row.tell segment below wakeup)
    (hregistry : w.perform event = w.wake segment below wakeup) :
    row.Reaches w event (fun r => r.segment == segment && decide (r.offset < below)) wakeup := by
  constructor
  · rw [hrow, ← h.ascends.reached_eq segment hbelow]
    rfl
  · rw [hregistry]
    rfl
  · intro r hr hwho
    rw [hregistry]
    exact Waiters.Proper.look_wake_of_concerns hr
      (Waiters.mem_concerned.mp (List.mem_filter.mpr ⟨hr, hwho⟩)).2
  · intro id hnone
    rw [hregistry]
    have hpassed : ∀ r ∈ w.waiting, r.id = id → ¬ Waiters.Concerns segment below r := by
      intro r hr hid hconcerns
      have hmem := Waiters.mem_concerned.mpr ⟨hr, hconcerns⟩
      exact hnone r hr (List.mem_filter.mp hmem).2 hid
    apply Waiters.look_congr
    · rcases get?_wake w segment below wakeup id with ⟨⟨r, hr, hconcerns, hid⟩, -⟩ | ⟨-, hget⟩
      · exact absurd hconcerns (hpassed r hr hid)
      · exact hget
    · constructor
      · intro hwaits
        rcases hwaits with ⟨r, hr, hid⟩
        exact ⟨r, (Waiters.mem_wake.mp hr).1, hid⟩
      · intro hwaits
        rcases hwaits with ⟨r, hr, hid⟩
        exact ⟨r, Waiters.mem_wake.mpr ⟨hr, hpassed r hr hid⟩, hid⟩

/-- Of a segment that ends, those are left who wait for the largest offset. -/
theorem mem_closed (h : row.Shows w) {r : Waiter} (hsegment : r.segment = segment) :
    r ∈ (w.wake segment maxWord wakeup).waiting ↔ r ∈ w.waiting ∧ r.offset = maxWord := by
  rw [Waiters.mem_wake]
  constructor
  · intro hr
    have hle := h.fits r hr.1
    have hnot : ¬ r.offset < maxWord := fun hlt => hr.2 ⟨hsegment, hlt⟩
    exact ⟨hr.1, Nat.le_antisymm hle (Nat.not_lt.mp hnot)⟩
  · intro hr
    exact ⟨hr.1, fun hconcerns => Nat.ne_of_lt hconcerns.2 hr.2⟩

theorem closed_iff (h : row.Shows w) :
    (∀ r ∈ (w.wake segment maxWord wakeup).waiting, r.segment ≠ segment) ↔
      ∀ r ∈ w.waiting, r.segment = segment → r.offset ≠ maxWord := by
  constructor
  · intro hnone r hr hsegment hoffset
    exact hnone r ((h.mem_closed hsegment).mpr ⟨hr, hoffset⟩) hsegment
  · intro hnone r hr hsegment
    rcases (h.mem_closed hsegment).mp hr with ⟨hwaits, hoffset⟩
    exact hnone r hwaits hsegment hoffset

theorem loses (h : row.Shows w) {r : Waiter} (hr : r ∈ w.waiting) :
    row.Loses w (.drop r.id) r := by
  have hguard := h.guarded r (h.pending.mem_iff.mpr hr)
  constructor
  · show (row.drop r.id).sent = row.sent
    unfold WaiterRow.drop
    rw [hguard]
  · show w.waiting.filter (·.id ≠ r.id) = w.waiting.erase r
    rw [(List.Nodup.of_map _ h.proper.nodup).erase_eq_filter]
    apply List.filter_congr
    intro other hother
    rw [Bool.eq_iff_iff, bne_iff_ne, decide_eq_true_eq]
    constructor
    · intro hid heq
      exact hid (congrArg Waiter.id heq)
    · intro hne hid
      exact hne (h.proper.eq_of_id hr hother hid)
  · apply Waiters.look_of_gone
    · exact h.proper.unsent r hr
    · intro other hother
      exact of_decide_eq_true (List.mem_filter.mp hother).2
  · intro id hne
    exact Waiters.look_deregister_of_ne w hne

end Shows
end WaiterRow

namespace WaiterCall

def registry (calls : List WaiterCall) : Waiters := calls.foldl Waiters.perform {}

def row (calls : List WaiterCall) : WaiterRow := calls.foldl WaiterRow.perform {}

theorem row_shows {calls : List WaiterCall} (hfits : ∀ call ∈ calls, call.Fits) :
    (row calls).Shows (registry calls) :=
  WaiterRow.shows_empty.run hfits

/--
After any calls, an append takes out and tells exactly the waiters of its segment below the
length, and the end of a segment exactly those below the largest offset.  So none of the
segment is left iff none waits for the largest offset.  Whoever is told is told once, and
a guard takes out its own waiter only, if that waits still.
-/
theorem run_notifies_iff {calls : List WaiterCall} (hfits : ∀ call ∈ calls, call.Fits) :
    (row calls).Shows (registry calls) ∧
    (∀ segment length, length ≤ maxWord →
      (row calls).Reaches (registry calls) (.appended segment length)
        (fun r => r.segment == segment && decide (r.offset < length)) (.appended length)) ∧
    (∀ segment,
      (row calls).Reaches (registry calls) (.sealed segment)
        (fun r => r.segment == segment && decide (r.offset < maxWord)) .sealed ∧
      (row calls).Reaches (registry calls) (.merged segment)
        (fun r => r.segment == segment && decide (r.offset < maxWord)) .merged ∧
      ((∀ r ∈ ((registry calls).perform (.sealed segment)).waiting, r.segment ≠ segment) ↔
        ∀ r ∈ (registry calls).waiting, r.segment = segment → r.offset ≠ maxWord) ∧
      ((∀ r ∈ ((registry calls).perform (.merged segment)).waiting, r.segment ≠ segment) ↔
        ∀ r ∈ (registry calls).waiting, r.segment = segment → r.offset ≠ maxWord)) ∧
    ((row calls).sent.map (·.1)).Nodup ∧
    (∀ r ∈ (registry calls).waiting, (row calls).Loses (registry calls) (.drop r.id) r) ∧
    ∀ waiter, (∀ r ∈ (registry calls).waiting, r.id ≠ waiter) →
      (registry calls).perform (.drop waiter) = registry calls := by
  have h := row_shows hfits
  refine ⟨h, ?_, ?_, h.once, fun r hr => h.loses hr, fun _ hnone =>
    Waiters.deregister_of_gone hnone⟩
  · intro segment length hlength
    exact h.reaches hlength rfl rfl
  · intro segment
    exact ⟨h.reaches (Nat.le_refl _) rfl rfl, h.reaches (Nat.le_refl _) rfl rfl, h.closed_iff,
      h.closed_iff⟩

/-- Two wait for one byte, one in a segment beside theirs, and one for the largest offset. -/
private def fourWaiters : List WaiterCall :=
  [.register 1 5, .register 1 5, .register 2 5, .register 1 maxWord]

theorem run_notifies_iff_four :
    (∀ call ∈ fourWaiters, call.Fits) ∧
    ((registry fourWaiters).perform (.appended 1 5)).waiting = (registry fourWaiters).waiting ∧
    ((row fourWaiters).perform (.appended 1 6)).sent = [(0, .appended 6), (1, .appended 6)] ∧
    ((registry fourWaiters).perform (.sealed 1)).waiting = [⟨2, 2, 5⟩, ⟨3, 1, maxWord⟩] ∧
    ((registry fourWaiters).perform (.drop 0)).waiting =
      [⟨1, 1, 5⟩, ⟨2, 2, 5⟩, ⟨3, 1, maxWord⟩] := by
  have hfits : ∀ call ∈ fourWaiters, call.Fits := by decide
  rcases run_notifies_iff hfits with ⟨-, happended, hclosed, -, hdropped, -⟩
  refine ⟨hfits, ?_, ?_, ?_, ?_⟩
  · exact (happended 1 5 (by decide)).waiting
  · exact (happended 1 6 (by decide)).sent
  · exact (hclosed 1).1.waiting
  · exact (hdropped ⟨0, 1, 5⟩ List.mem_cons_self).waiting

/-- A waiter for the largest offset is not told that its segment was sealed. -/
theorem sealed_passes_largest_offset :
    ¬ ∀ (calls : List WaiterCall) (segment : SegmentId), (∀ call ∈ calls, call.Fits) →
      ∀ r ∈ ((registry calls).perform (.sealed segment)).waiting, r.segment ≠ segment := by
  intro h
  have hfits : ∀ call ∈ [WaiterCall.register 1 maxWord], call.Fits := by decide
  exact h [.register 1 maxWord] 1 hfits ⟨0, 1, maxWord⟩ List.mem_cons_self rfl

end WaiterCall
end TieredStore
