import Mathlib.Data.List.Nodup
import TieredStore.Proofs.Table.Advances
import TieredStore.Proofs.Waiters

/-!
# What becomes of a waiter

A waiter waits for a byte behind the end of an open segment.  An operation that brings the
byte, or that closes the segment, takes the waiter out and leaves it the one message that
says so; any other lets it wait.  It has a number of its own, which is not given out again,
so that it never finds a second message.
-/

namespace TieredStore

/-- What is found later instead: a waiter that waits may be woken, and any may be done with. -/
inductive Letter.Leads : Letter → Letter → Prop
  | refl (letter : Letter) : letter.Leads letter
  | woken (wakeup : Wakeup) : Letter.none.Leads (.message wakeup)
  | done (letter : Letter) : letter.Leads .never

theorem Letter.Leads.trans {first second third : Letter} (h : first.Leads second)
    (hafter : second.Leads third) : first.Leads third := by
  cases hafter with
  | refl => exact h
  | done => exact .done _
  | woken wakeup =>
      cases h with
      | refl => exact .woken wakeup

namespace Waiters

variable {w middle after : Waiters} {r : Waiter} {id below : Nat} {segment : SegmentId}
  {wakeup : Wakeup}

/-- Every waiter has a number of its own and no message yet. -/
structure Proper (w : Waiters) : Prop where
  numbered : w.Numbered
  nodup : (w.waiting.map (·.id)).Nodup
  unsent : ∀ r ∈ w.waiting, w.messages.get? r.id = none

theorem proper_empty : Proper {} where
  numbered := numbered_empty
  nodup := List.nodup_nil
  unsent := fun _ hr => nomatch hr

theorem Proper.gone_of_message (h : w.Proper) (hmessage : w.messages.get? id = some wakeup) :
    ∀ r ∈ w.waiting, r.id ≠ id := by
  rintro r hr rfl
  rw [h.unsent r hr] at hmessage
  cases hmessage

/-! ## Looking for a message -/

theorem look_of_message (h : w.messages.get? id = some wakeup) : w.look id = .message wakeup := by
  unfold look
  rw [h]

theorem look_of_waiting (hr : r ∈ w.waiting) (hnone : w.messages.get? r.id = none) :
    w.look r.id = .none := by
  have hany : w.waiting.any (·.id == r.id) = true :=
    List.any_eq_true.mpr ⟨r, hr, beq_self_eq_true r.id⟩
  unfold look
  rw [hnone]
  exact if_pos hany

theorem look_of_gone (hnone : w.messages.get? id = none) (hgone : ∀ r ∈ w.waiting, r.id ≠ id) :
    w.look id = .never := by
  have hany : ¬ w.waiting.any (·.id == id) = true := by
    intro hany
    rcases List.any_eq_true.mp hany with ⟨r, hr, heq⟩
    exact hgone r hr (beq_iff_eq.mp heq)
  unfold look
  rw [hnone]
  exact if_neg hany

theorem look_cases (w : Waiters) (id : Nat) :
    (∃ wakeup, w.messages.get? id = some wakeup ∧ w.look id = .message wakeup) ∨
      w.messages.get? id = none ∧
        ((∃ r ∈ w.waiting, r.id = id) ∧ w.look id = .none ∨
          (∀ r ∈ w.waiting, r.id ≠ id) ∧ w.look id = .never) := by
  cases hmessage : w.messages.get? id with
  | some wakeup => exact Or.inl ⟨wakeup, rfl, look_of_message hmessage⟩
  | none =>
      refine Or.inr ⟨rfl, ?_⟩
      by_cases hwaits : ∃ r ∈ w.waiting, r.id = id
      · rcases hwaits with ⟨r, hr, rfl⟩
        exact Or.inl ⟨⟨r, hr, rfl⟩, look_of_waiting hr hmessage⟩
      · have hgone : ∀ r ∈ w.waiting, r.id ≠ id := fun r hr heq => hwaits ⟨r, hr, heq⟩
        exact Or.inr ⟨hgone, look_of_gone hmessage hgone⟩

theorem message_of_look (h : w.look id = .message wakeup) : w.messages.get? id = some wakeup := by
  rcases w.look_cases id with ⟨found, hmessage, hlook⟩ | ⟨-, ⟨-, hlook⟩ | ⟨-, hlook⟩⟩
  · rw [hlook] at h
    cases h
    exact hmessage
  · rw [hlook] at h
    cases h
  · rw [hlook] at h
    cases h

theorem look_congr (hmessages : after.messages.get? id = w.messages.get? id)
    (hwaiting : (∃ r ∈ after.waiting, r.id = id) ↔ ∃ r ∈ w.waiting, r.id = id) :
    after.look id = w.look id := by
  rcases w.look_cases id with ⟨wakeup, hmessage, hlook⟩ | ⟨hnone, ⟨hwaits, hlook⟩ | ⟨hgone, hlook⟩⟩
  · rw [hlook, look_of_message (hmessages.trans hmessage)]
  · rcases hwaiting.mpr hwaits with ⟨r, hr, rfl⟩
    rw [hlook, look_of_waiting hr (hmessages.trans hnone)]
  · rw [hlook, look_of_gone (hmessages.trans hnone)]
    intro r hr heq
    rcases hwaiting.mp ⟨r, hr, heq⟩ with ⟨other, hother, hid⟩
    exact hgone other hother hid

theorem look_register (w : Waiters) (segment : SegmentId) (offset : Nat) (hid : id < w.nextId) :
    (w.register segment offset).2.look id = w.look id := by
  refine look_congr rfl ⟨?_, ?_⟩
  · rintro ⟨r, hr, rfl⟩
    rcases List.mem_append.mp hr with hold | hnew
    · exact ⟨r, hold, rfl⟩
    · rw [List.mem_singleton.mp hnew] at hid
      exact absurd hid (Nat.lt_irrefl _)
  · rintro ⟨r, hr, rfl⟩
    exact ⟨r, List.mem_append_left _ hr, rfl⟩

theorem look_receive_of_ne (w : Waiters) {waiter : Nat} (hne : id ≠ waiter) :
    (w.receive waiter).2.look id = w.look id := by
  refine look_congr ?_ Iff.rfl
  show (w.messages.erase waiter).get? id = _
  rw [SortedMap.get?_erase, if_neg hne]

theorem look_deregister_of_ne (w : Waiters) {waiter : Nat} (hne : id ≠ waiter) :
    (w.deregister waiter).look id = w.look id := by
  refine look_congr rfl ⟨?_, ?_⟩
  · rintro ⟨r, hr, hid⟩
    exact ⟨r, (List.mem_filter.mp hr).1, hid⟩
  · rintro ⟨r, hr, rfl⟩
    exact ⟨r, List.mem_filter.mpr ⟨hr, decide_eq_true hne⟩, rfl⟩

/-! ## What goes on -/

/-- What is done to the registry keeps it proper, and what was found leads to what is found. -/
structure Proceeds (w after : Waiters) : Prop where
  proper : w.Proper → after.Proper
  nextId_le : w.nextId ≤ after.nextId
  leads : w.Proper → ∀ id, id < w.nextId → (w.look id).Leads (after.look id)

namespace Proceeds

theorem refl (w : Waiters) : w.Proceeds w :=
  ⟨fun h => h, Nat.le_refl _, fun _ id _ => .refl (w.look id)⟩

theorem trans (h : w.Proceeds middle) (hafter : middle.Proceeds after) : w.Proceeds after where
  proper := fun hw => hafter.proper (h.proper hw)
  nextId_le := Nat.le_trans h.nextId_le hafter.nextId_le
  leads := fun hw id hid => (h.leads hw id hid).trans
    (hafter.leads (h.proper hw) id (Nat.lt_of_lt_of_le hid h.nextId_le))

theorem register (w : Waiters) (segment : SegmentId) (offset : Nat) :
    w.Proceeds (w.register segment offset).2 where
  proper := fun h =>
    { numbered := (Heeds.register w segment offset : w.Heeds .empty .empty _).numbered h.numbered
      nodup := by
        show ((w.waiting ++ [(⟨w.nextId, segment, offset⟩ : Waiter)]).map (·.id)).Nodup
        rw [List.map_append, List.nodup_append]
        refine ⟨h.nodup, List.nodup_singleton _, ?_⟩
        intro id hid other hother
        rcases List.mem_map.mp hid with ⟨r, hr, rfl⟩
        rw [List.mem_singleton.mp hother]
        exact Nat.ne_of_lt (h.numbered.waiting r hr)
      unsent := by
        intro r hr
        rcases List.mem_append.mp hr with hold | hnew
        · exact h.unsent r hold
        · rw [List.mem_singleton.mp hnew]
          cases hmessage : w.messages.get? w.nextId with
          | none => exact hmessage
          | some wakeup => exact absurd (h.numbered.messages hmessage) (Nat.lt_irrefl _) }
  nextId_le := Nat.le_succ _
  leads := by
    intro _ id hid
    rw [look_register w segment offset hid]
    exact .refl _

theorem deregister (w : Waiters) (waiter : Nat) : w.Proceeds (w.deregister waiter) where
  proper := fun h =>
    { numbered := (Heeds.deregister w waiter : w.Heeds .empty .empty _).numbered h.numbered
      nodup := (List.filter_sublist.map _).nodup h.nodup
      unsent := fun r hr => h.unsent r (List.mem_filter.mp hr).1 }
  nextId_le := Nat.le_refl _
  leads := by
    intro _ id _
    rcases (w.deregister waiter).look_cases id with
      ⟨wakeup, hmessage, hlook⟩ | ⟨hnone, ⟨⟨r, hr, rfl⟩, hlook⟩ | ⟨-, hlook⟩⟩
    · rw [hlook, look_of_message (show w.messages.get? id = some wakeup from hmessage)]
      exact .refl _
    · rw [hlook, look_of_waiting (List.mem_filter.mp hr).1 hnone]
      exact .refl _
    · rw [hlook]
      exact .done _

theorem receive (w : Waiters) (waiter : Nat) : w.Proceeds (w.receive waiter).2 where
  proper := fun h =>
    { numbered := (Heeds.receive w waiter : w.Heeds .empty .empty _).numbered h.numbered
      nodup := h.nodup
      unsent := by
        intro r hr
        show (w.messages.erase waiter).get? r.id = none
        rw [SortedMap.get?_erase]
        split
        · rfl
        · exact h.unsent r hr }
  nextId_le := Nat.le_refl _
  leads := by
    intro h id _
    by_cases hid : id = waiter
    · subst hid
      rcases w.look_cases id with ⟨wakeup, hmessage, -⟩ | ⟨hnone, -⟩
      · have hnever : (w.receive id).2.look id = .never := by
          refine look_of_gone ?_ (h.gone_of_message hmessage)
          show (w.messages.erase id).get? id = none
          rw [SortedMap.get?_erase, if_pos rfl]
        rw [hnever]
        exact .done _
      · have hsame : (w.receive id).2.look id = w.look id := by
          refine look_congr ?_ Iff.rfl
          show (w.messages.erase id).get? id = _
          rw [SortedMap.get?_erase, if_pos rfl, hnone]
        rw [hsame]
        exact .refl _
    · rw [look_receive_of_ne w hid]
      exact .refl _

theorem was_waiting (h : w.Proceeds after) (hw : w.Proper) (hr : r ∈ after.waiting)
    (hid : r.id < w.nextId) : ∃ other ∈ w.waiting, other.id = r.id := by
  have hleads := h.leads hw r.id hid
  rw [look_of_waiting hr ((h.proper hw).unsent r hr)] at hleads
  rcases w.look_cases r.id with ⟨wakeup, -, hlook⟩ | ⟨-, ⟨hwaits, -⟩ | ⟨-, hlook⟩⟩
  · rw [hlook] at hleads
    cases hleads
  · exact hwaits
  · rw [hlook] at hleads
    cases hleads

end Proceeds

/-! ## Waking -/

theorem get?_foldl_insert_of_forall_ne {list : List Waiter} (hnone : ∀ r ∈ list, r.id ≠ id)
    (messages : SortedMap Nat Wakeup) :
    (list.foldl (fun m r => m.insert r.id wakeup) messages).get? id = messages.get? id := by
  induction list generalizing messages with
  | nil => rfl
  | cons first rest ih =>
      rw [List.foldl_cons, ih fun r hr => hnone r (List.mem_cons_of_mem _ hr)]
      exact SortedMap.get?_insert_of_ne _ (hnone first List.mem_cons_self).symm _

theorem get?_foldl_insert_of_mem {list : List Waiter} (hmem : ∃ r ∈ list, r.id = id)
    (messages : SortedMap Nat Wakeup) :
    (list.foldl (fun m r => m.insert r.id wakeup) messages).get? id = some wakeup := by
  induction list generalizing messages with
  | nil =>
      rcases hmem with ⟨r, hr, -⟩
      cases hr
  | cons first rest ih =>
      by_cases hrest : ∃ r ∈ rest, r.id = id
      · exact ih hrest _
      · rcases hmem with ⟨r, hr, hid⟩
        have hne : ∀ other ∈ rest, other.id ≠ id := fun other hother heq =>
          hrest ⟨other, hother, heq⟩
        rcases List.mem_cons.mp hr with rfl | hlater
        · rw [List.foldl_cons, get?_foldl_insert_of_forall_ne hne, ← hid]
          exact SortedMap.get?_insert_self _ _ _
        · exact absurd hid (hne r hlater)

def Concerns (segment : SegmentId) (below : Nat) (r : Waiter) : Prop :=
  r.segment = segment ∧ r.offset < below

theorem mem_wake :
    r ∈ (w.wake segment below wakeup).waiting ↔ r ∈ w.waiting ∧ ¬ Concerns segment below r := by
  unfold wake Concerns
  simp only [List.mem_filter, Bool.not_eq_true', Bool.and_eq_false_iff, beq_eq_false_iff_ne,
    decide_eq_false_iff_not, ne_eq, not_and_or]

theorem mem_concerned :
    r ∈ w.waiting.filter (fun r => r.segment == segment && decide (r.offset < below)) ↔
      r ∈ w.waiting ∧ Concerns segment below r := by
  unfold Concerns
  simp only [List.mem_filter, Bool.and_eq_true, beq_iff_eq, decide_eq_true_eq]

theorem Proper.eq_of_id (h : w.Proper) {other : Waiter} (hr : r ∈ w.waiting)
    (hother : other ∈ w.waiting) (hid : other.id = r.id) : other = r :=
  List.inj_on_of_nodup_map h.nodup hother hr hid

/-- Whom the event concerns is gone and finds the message. -/
theorem Proper.look_wake_of_concerns (hr : r ∈ w.waiting) (hconcerns : Concerns segment below r) :
    (w.wake segment below wakeup).look r.id = .message wakeup :=
  look_of_message (get?_foldl_insert_of_mem ⟨r, mem_concerned.mpr ⟨hr, hconcerns⟩, rfl⟩ _)

/-- Whom it does not concern waits on. -/
theorem Proper.look_wake_of_not (h : w.Proper) (hr : r ∈ w.waiting)
    (hnot : ¬ Concerns segment below r) : (w.wake segment below wakeup).look r.id = .none := by
  refine look_of_waiting (mem_wake.mpr ⟨hr, hnot⟩) ?_
  refine (get?_foldl_insert_of_forall_ne ?_ _).trans (h.unsent r hr)
  intro other hother hid
  rcases mem_concerned.mp hother with ⟨hwaits, hconcerns⟩
  rw [h.eq_of_id hr hwaits hid] at hconcerns
  exact hnot hconcerns

theorem Proceeds.wake (w : Waiters) (segment : SegmentId) (below : Nat) (wakeup : Wakeup) :
    w.Proceeds (w.wake segment below wakeup) where
  proper := fun h =>
    { numbered :=
        { waiting := fun r hr => h.numbered.waiting r (mem_wake.mp hr).1
          messages := by
            intro id found hfound
            rcases Heeds.get?_of_foldl_insert hfound with hbefore | ⟨-, r, hr, rfl⟩
            · exact h.numbered.messages hbefore
            · exact h.numbered.waiting r (mem_concerned.mp hr).1 }
      nodup := (List.filter_sublist.map _).nodup h.nodup
      unsent := by
        intro r hr
        rcases mem_wake.mp hr with ⟨hwaits, hnot⟩
        rcases (w.wake segment below wakeup).look_cases r.id with
          ⟨found, -, hlook⟩ | ⟨hnone, -⟩
        · rw [h.look_wake_of_not hwaits hnot] at hlook
          cases hlook
        · exact hnone }
  nextId_le := Nat.le_refl _
  leads := by
    intro h id _
    by_cases hwaits : ∃ r ∈ w.waiting, r.id = id
    · rcases hwaits with ⟨r, hr, rfl⟩
      rw [look_of_waiting hr (h.unsent r hr)]
      by_cases hconcerns : Concerns segment below r
      · rw [Proper.look_wake_of_concerns hr hconcerns]
        exact .woken _
      · rw [h.look_wake_of_not hr hconcerns]
        exact .refl _
    · -- nobody waits under this number, so that nothing changes
      have hsame : (w.wake segment below wakeup).look id = w.look id := by
        refine look_congr (get?_foldl_insert_of_forall_ne ?_ _) ⟨?_, ?_⟩
        · exact fun r hr hid => hwaits ⟨r, (mem_concerned.mp hr).1, hid⟩
        · rintro ⟨r, hr, hid⟩
          exact ⟨r, (mem_wake.mp hr).1, hid⟩
        · exact fun hother => absurd hother hwaits
      rw [hsame]
      exact .refl _

end Waiters

/-! ## Waiters and segments -/

/-- The byte that the waiter waits for is not there, and its segment may still get it. -/
def Table.Lacks (table : Table) (r : Waiter) : Prop :=
  ∃ s, table.get? r.segment = some s ∧ s.sealed = false ∧ s.merged = false ∧ s.length ≤ r.offset

/--
The waiter waits exactly if its segment is open and ends before the byte.  Otherwise it is
gone and has found the message that says what has become of the segment.
-/
inductive Waiter.Served (r : Waiter) (s : Segment) (w : Waiters) : Prop
  | waits (hopen : s.sealed = false) (hshort : s.length ≤ r.offset) (hmem : r ∈ w.waiting)
      (hlook : w.look r.id = .none)
  | appended (hlong : r.offset < s.length) (hgone : r ∉ w.waiting)
      (hlook : w.look r.id = .message (.appended s.length))
  | ended (hsealed : s.sealed = true) (hshort : s.length ≤ r.offset) (hgone : r ∉ w.waiting)
      (hlook : w.look r.id = .message .sealed)

/-- What somebody may find who has waited for this byte of the segment. -/
inductive Letter.Suits (table : Table) (id : SegmentId) (offset : Nat) : Letter → Prop
  | none : Suits table id offset .none
  | appended (length : Nat) : Suits table id offset (.message (.appended length))
  | ended (hends : ∀ s, table.get? id = some s → s.sealed = true ∧ s.length ≤ offset) :
      Suits table id offset (.message .sealed)

theorem Letter.Suits.ne_never {table : Table} {id : SegmentId} {offset : Nat} {letter : Letter}
    (h : letter.Suits table id offset) : letter ≠ .never := by
  rintro rfl
  cases h

theorem Letter.Suits.advances {before after : Table} {id : SegmentId} {offset : Nat}
    {letter : Letter} (h : letter.Suits before id offset) (hadvances : before.Advances after)
    (hlt : id < before.nextId) : letter.Suits after id offset := by
  cases h with
  | none => exact .none
  | appended length => exact .appended length
  | ended hends =>
      refine .ended fun t ht => ?_
      rcases hadvances.kept ht hlt with ⟨s, hs, hbecomes⟩
      rcases hends s hs with ⟨hsealed, hshort⟩
      rcases hbecomes.closed hsealed with ⟨hclosed, hlength⟩
      exact ⟨hclosed, hlength ▸ hshort⟩

/-- The registry is proper, and everybody waits for a byte that can still come. -/
structure Waiters.Expecting (table : Table) (w : Waiters) : Prop where
  proper : w.Proper
  lacks : ∀ r ∈ w.waiting, table.Lacks r
  offset_le : ∀ r ∈ w.waiting, r.offset ≤ maxOffset

namespace Waiter

variable {r : Waiter} {s : Segment} {w : Waiters}

theorem Served.congr {t : Segment} (h : r.Served s w) (hlength : t.length = s.length)
    (hsealed : t.sealed = s.sealed) : r.Served t w := by
  cases h with
  | waits hopen hshort hmem hlook =>
      exact .waits (hsealed.trans hopen) (hlength ▸ hshort) hmem hlook
  | appended hlong hgone hlook =>
      exact .appended (hlength ▸ hlong) hgone (hlength ▸ hlook)
  | ended hclosed hshort hgone hlook =>
      exact .ended (hsealed.trans hclosed) (hlength ▸ hshort) hgone hlook

theorem Served.suits (h : r.Served s w) {table : Table} (hs : table.get? r.segment = some s) :
    (w.look r.id).Suits table r.segment r.offset := by
  cases h with
  | waits hopen hshort hmem hlook =>
      rw [hlook]
      exact .none
  | appended hlong hgone hlook =>
      rw [hlook]
      exact .appended s.length
  | ended hsealed hshort hgone hlook =>
      rw [hlook]
      refine .ended fun t ht => ?_
      rw [hs] at ht
      cases ht
      exact ⟨hsealed, hshort⟩

end Waiter

namespace Waiters

variable {w after : Waiters} {table noted : Table} {op : Operation} {content : Contents}
  {segment : SegmentId} {below : Nat} {wakeup : Wakeup} {r : Waiter}

/-- Everybody who waited is served as the table says, and nobody else waits. -/
structure Attended (table : Table) (w after : Waiters) : Prop where
  proceeds : w.Proceeds after
  waiting : ∀ r ∈ after.waiting, r ∈ w.waiting
  messages : ∀ {id wakeup}, w.messages.get? id = some wakeup →
    after.messages.get? id = some wakeup
  served : ∀ r ∈ w.waiting, ∃ s, table.get? r.segment = some s ∧ s.merged = false ∧
    r.Served s after

theorem Expecting.attended (h : w.Expecting table) : w.Attended table w where
  proceeds := .refl w
  waiting := fun _ hr => hr
  messages := fun hmessage => hmessage
  served := by
    intro r hr
    rcases h.lacks r hr with ⟨s, hs, hopen, hmerged, hshort⟩
    exact ⟨s, hs, hmerged, .waits hopen hshort hr (look_of_waiting hr (h.proper.unsent r hr))⟩

theorem Attended.expecting (h : w.Attended noted after) (hw : w.Expecting table) :
    after.Expecting noted where
  proper := h.proceeds.proper hw.proper
  lacks := by
    intro r hr
    rcases h.served r (h.waiting r hr) with ⟨s, hs, hmerged, hserved⟩
    cases hserved with
    | waits hopen hshort _ _ => exact ⟨s, hs, hopen, hmerged, hshort⟩
    | appended _ hgone _ => exact absurd hr hgone
    | ended _ _ hgone _ => exact absurd hr hgone
  offset_le := fun r hr => hw.offset_le r (h.waiting r hr)

theorem Attended.bookkept (h : w.Attended table after) (htable : table.Consistent content)
    (hnoted : table.Bookkept noted) : w.Attended noted after where
  proceeds := h.proceeds
  waiting := h.waiting
  messages := h.messages
  served := by
    intro r hr
    rcases h.served r hr with ⟨s, hs, hmerged, hserved⟩
    rcases hnoted.live htable hs hmerged with ⟨stored, pending, hlive⟩
    exact ⟨_, hlive, hmerged, hserved.congr rfl rfl⟩

/-! ## Operations -/

theorem wake_of_forall_not (h : ∀ r ∈ w.waiting, ¬ Concerns segment below r) :
    w.wake segment below wakeup = w := by
  have hnone : w.waiting.filter (fun r => r.segment == segment && decide (r.offset < below)) = [] :=
    List.eq_nil_iff_forall_not_mem.mpr fun r hr =>
      h r (mem_concerned.mp hr).1 (mem_concerned.mp hr).2
  have hall : w.waiting.filter
      (fun r => !(r.segment == segment && decide (r.offset < below))) = w.waiting := by
    refine List.filter_eq_self.mpr fun r hr => ?_
    have hkeeps : r ∈ (w.wake segment below wakeup).waiting := mem_wake.mpr ⟨hr, h r hr⟩
    exact (List.mem_filter.mp hkeeps).2
  unfold wake
  simp only [hnone, hall]
  rfl

theorem Proceeds.wakeReaders (w : Waiters) (op : Operation) :
    w.Proceeds (Store.wakeReaders w op) := by
  cases op with
  | append segment offset client event data => exact .wake w _ _ _
  | «seal» segment length => exact .wake w _ _ _
  | merge parent batch length offset => exact (Proceeds.wake w _ _ _).trans (.wake _ _ _ _)
  | checkpoint snapshot => exact .refl w
  | create segment name => exact .refl w
  | createBatch batch name parent => exact .refl w
  | truncate segment offset => exact .refl w

theorem Proper.wake_message (h : w.Proper) {id : Nat} {found : Wakeup}
    (hmessage : w.messages.get? id = some found) :
    (w.wake segment below wakeup).messages.get? id = some found := by
  refine (get?_foldl_insert_of_forall_ne ?_ _).trans hmessage
  exact fun r hr => h.gone_of_message hmessage r (mem_concerned.mp hr).1

theorem Proper.wakeReaders_message (h : w.Proper) {id : Nat} {found : Wakeup}
    (hmessage : w.messages.get? id = some found) :
    (Store.wakeReaders w op).messages.get? id = some found := by
  cases op with
  | append segment offset client event data => exact h.wake_message hmessage
  | «seal» segment length => exact h.wake_message hmessage
  | merge parent batch length offset =>
      exact ((Proceeds.wake w _ _ _).proper h).wake_message (h.wake_message hmessage)
  | checkpoint snapshot => exact hmessage
  | create segment name => exact hmessage
  | createBatch batch name parent => exact hmessage
  | truncate segment offset => exact hmessage

theorem mem_register (w : Waiters) (segment : SegmentId) (offset : Nat) :
    r ∈ (w.register segment offset).2.waiting ↔
      r ∈ w.waiting ∨ r = ⟨w.nextId, segment, offset⟩ :=
  List.mem_append.trans (or_congr_right List.mem_singleton)

/-- One more may wait for a byte that can still come. -/
theorem Expecting.register (h : w.Expecting table) {offset : Nat}
    (hlacks : table.Lacks ⟨w.nextId, segment, offset⟩) (hle : offset ≤ maxOffset) :
    (w.register segment offset).2.Expecting table where
  proper := (Proceeds.register w segment offset).proper h.proper
  lacks := by
    intro r hr
    rcases (w.mem_register segment offset).mp hr with hold | rfl
    · exact h.lacks r hold
    · exact hlacks
  offset_le := by
    intro r hr
    rcases (w.mem_register segment offset).mp hr with hold | rfl
    · exact h.offset_le r hold
    · exact hle

theorem Expecting.served_register (h : w.Expecting table) (segment : SegmentId) (offset : Nat)
    (hr : r ∈ w.waiting) :
    ∃ s, table.get? r.segment = some s ∧ s.merged = false ∧
      r.Served s (w.register segment offset).2 := by
  rcases h.lacks r hr with ⟨s, hs, hopen, hmerged, hshort⟩
  refine ⟨s, hs, hmerged, .waits hopen hshort ((w.mem_register segment offset).mpr (Or.inl hr)) ?_⟩
  rw [look_register w segment offset (h.proper.numbered.waiting r hr)]
  exact look_of_waiting hr (h.proper.unsent r hr)

theorem Expecting.served_append (h : w.Expecting table) (hr : r ∈ w.waiting) {s grown : Segment}
    (hs : table.get? r.segment = some s) {length : Nat} (hlength : grown.length = length)
    (hsealed : grown.sealed = s.sealed) :
    r.Served grown (w.notifyAppended r.segment length) := by
  rcases h.lacks r hr with ⟨s', hs', hopen, -, -⟩
  rw [hs] at hs'
  cases hs'
  subst hlength
  by_cases hlt : r.offset < grown.length
  · refine .appended hlt ?_ (Proper.look_wake_of_concerns hr ⟨rfl, hlt⟩)
    exact fun hwaits => (mem_wake.mp hwaits).2 ⟨rfl, hlt⟩
  · have hnot : ¬ Concerns r.segment grown.length r := fun hconcerns => hlt hconcerns.2
    exact .waits (hsealed.trans hopen) (Nat.not_lt.mp hlt) (mem_wake.mpr ⟨hr, hnot⟩)
      (h.proper.look_wake_of_not hr hnot)

theorem Expecting.served_of_ne (h : w.Expecting table) (hr : r ∈ w.waiting) {s t : Segment}
    (hs : table.get? r.segment = some s) (hlength : t.length = s.length)
    (hsealed : t.sealed = s.sealed) (hne : r.segment ≠ segment) :
    r.Served t (w.wake segment below wakeup) := by
  rcases h.lacks r hr with ⟨s', hs', hopen, -, hshort⟩
  rw [hs] at hs'
  cases hs'
  have hnot : ¬ Concerns segment below r := fun hconcerns => hne hconcerns.1
  exact .waits (hsealed.trans hopen) (hlength ▸ hshort) (mem_wake.mpr ⟨hr, hnot⟩)
    (h.proper.look_wake_of_not hr hnot)

theorem Expecting.served_seal (h : w.Expecting table) (hr : r ∈ w.waiting) {s : Segment}
    (hs : table.get? r.segment = some s) :
    r.Served { s with sealed := true } (w.notifySealed r.segment) := by
  rcases h.lacks r hr with ⟨s', hs', -, -, hshort⟩
  rw [hs] at hs'
  cases hs'
  have hconcerns : Concerns r.segment maxWord r :=
    ⟨rfl, Nat.lt_of_le_of_lt (h.offset_le r hr) (by decide)⟩
  refine .ended rfl hshort ?_ (Proper.look_wake_of_concerns hr hconcerns)
  exact fun hstays => (mem_wake.mp hstays).2 hconcerns

theorem Expecting.segment_ne (h : w.Expecting table) (hr : r ∈ w.waiting) {b : Segment}
    (hb : table.get? segment = some b) (hsealed : b.sealed = true) : r.segment ≠ segment := by
  rintro rfl
  rcases h.lacks r hr with ⟨s, hs, hopen, -⟩
  rw [hb] at hs
  cases hs
  rw [hsealed] at hopen
  cases hopen

theorem Expecting.wakeReaders_merge (h : w.Expecting table) {parent batch : SegmentId}
    {b : Segment} (hb : table.get? batch = some b) (hsealed : b.sealed = true)
    (length offset : Nat) :
    Store.wakeReaders w (.merge parent batch length offset) =
      w.notifyAppended parent (offset + length) := by
  refine wake_of_forall_not fun r hr hconcerns => ?_
  exact h.segment_ne (mem_wake.mp hr).1 hb hsealed hconcerns.1

theorem mem_of_mem_wakeReaders (hr : r ∈ (Store.wakeReaders w op).waiting) : r ∈ w.waiting := by
  cases op with
  | append segment offset client event data => exact (mem_wake.mp hr).1
  | «seal» segment length => exact (mem_wake.mp hr).1
  | merge parent batch length offset => exact (mem_wake.mp (mem_wake.mp hr).1).1
  | checkpoint snapshot => exact hr
  | create segment name => exact hr
  | createBatch batch name parent => exact hr
  | truncate segment offset => exact hr

/-- Who waits is told of an operation that brings what he waits for, and else waits on. -/
theorem Expecting.served_wakeReaders (h : w.Expecting table) (hfits : op.Fits table)
    (hcheckpoint : op.isCheckpoint = false) (hr : r ∈ w.waiting) :
    ∃ s, (table.perform op).get? r.segment = some s ∧ s.merged = false ∧
      r.Served s (Store.wakeReaders w op) := by
  rcases h.lacks r hr with ⟨s, hs, hopen, hmerged, hshort⟩
  have hwaits : r.Served s w :=
    .waits hopen hshort hr (look_of_waiting hr (h.proper.unsent r hr))
  cases op with
  | append segment offset client event data =>
      rcases hfits with ⟨t, ht, -, hoffset, -⟩
      by_cases hsegment : r.segment = segment
      · subst hsegment
        rw [hs] at ht
        cases ht
        refine ⟨_, (Table.get?_modify_self _ _ _).trans (congrArg _ hs), hmerged, ?_⟩
        exact h.served_append hr hs (congrArg (· + data.length) hoffset.symm) rfl
      · exact ⟨s, (Table.get?_modify_of_ne _ hsegment _).trans hs, hmerged,
          h.served_of_ne hr hs rfl rfl hsegment⟩
  | «seal» segment length =>
      by_cases hsegment : r.segment = segment
      · subst hsegment
        exact ⟨_, (Table.get?_modify_self _ _ _).trans (congrArg _ hs), hmerged,
          h.served_seal hr hs⟩
      · exact ⟨s, (Table.get?_modify_of_ne _ hsegment _).trans hs, hmerged,
          h.served_of_ne hr hs rfl rfl hsegment⟩
  | merge parent batch length offset =>
      rcases hfits with ⟨t, b, ht, hb, -, -, -, hsealed, -, hoffset, -⟩
      have hmarked : (table.modify batch ({ · with merged := true })).get? r.segment = some s :=
        (Table.get?_modify_of_ne _ (h.segment_ne hr hb hsealed) _).trans hs
      rw [h.wakeReaders_merge hb hsealed]
      by_cases hsegment : r.segment = parent
      · subst hsegment
        rw [hs] at ht
        cases ht
        refine ⟨_, (Table.get?_modify_self _ _ _).trans (congrArg _ hmarked), hmerged, ?_⟩
        exact h.served_append hr hs (congrArg (· + length) hoffset.symm) rfl
      · exact ⟨s, (Table.get?_modify_of_ne _ hsegment _).trans hmarked, hmerged,
          h.served_of_ne hr hs rfl rfl hsegment⟩
  | checkpoint snapshot => cases hcheckpoint
  | create segment name =>
      have hne : r.segment ≠ segment := by
        intro heq
        rw [heq, hfits.2] at hs
        cases hs
      exact ⟨s, (Table.get?_add_of_ne _ hne).trans hs, hmerged, hwaits⟩
  | createBatch batch name parent =>
      have hne : r.segment ≠ batch := by
        intro heq
        rw [heq, hfits.2.1] at hs
        cases hs
      exact ⟨s, (Table.get?_add_of_ne _ hne).trans hs, hmerged, hwaits⟩
  | truncate segment offset =>
      by_cases hsegment : r.segment = segment
      · subst hsegment
        exact ⟨_, (Table.get?_modify_self _ _ _).trans (congrArg _ hs), hmerged,
          hwaits.congr rfl rfl⟩
      · exact ⟨s, (Table.get?_modify_of_ne _ hsegment _).trans hs, hmerged, hwaits⟩

/-- An operation wakes exactly those who wait for what it brings. -/
theorem Expecting.wakeReaders (h : w.Expecting table) (hfits : op.Fits table)
    (hcheckpoint : op.isCheckpoint = false) :
    w.Attended (table.perform op) (Store.wakeReaders w op) where
  proceeds := .wakeReaders w op
  waiting := fun _ => mem_of_mem_wakeReaders
  messages := h.proper.wakeReaders_message
  served := fun _ => h.served_wakeReaders hfits hcheckpoint

end Waiters
end TieredStore
