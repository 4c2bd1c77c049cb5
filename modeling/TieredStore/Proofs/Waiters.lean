import TieredStore.Proofs.Contents
import TieredStore.Proofs.Map.Entries
import TieredStore.Proofs.Table.Fitting
import TieredStore.Store.Mutation

/-!
# Who is told of bytes

A waiter that was registered for an offset is told that its segment has grown only
when the content has a byte at the offset.  What the registry does afterwards keeps
this, as long as it is told of no more than there is: a waiter is registered under
a number of its own, and contents only grow.
-/

namespace TieredStore
namespace Waiters

variable {content grown : Contents} {w middle after : Waiters} {waiter : Nat} {id : SegmentId}
  {offset : Nat}

/-- The numbers that are in use have been given out. -/
structure Numbered (w : Waiters) : Prop where
  waiting : ∀ r ∈ w.waiting, r.id < w.nextId
  messages : ∀ {waiter wakeup}, w.messages.get? waiter = some wakeup → waiter < w.nextId

/--
The number belongs to a waiter for this offset, which is told of growth only if
there is a byte at the offset.
-/
structure Awaits (content : Contents) (w : Waiters) (waiter : Nat) (id : SegmentId) (offset : Nat) :
    Prop where
  given : waiter < w.nextId
  waiting : ∀ r ∈ w.waiting, r.id = waiter → r.segment = id ∧ r.offset = offset
  told : ∀ {length}, w.messages.get? waiter = some (.appended length) →
    offset < (content id).length

/-- Whoever waited waits still or has been told rightly. -/
structure Heeds (content grown : Contents) (w after : Waiters) : Prop where
  numbered : w.Numbered → after.Numbered
  awaits : ∀ {waiter id offset}, w.Awaits content waiter id offset →
    after.Awaits grown waiter id offset

theorem numbered_empty : Numbered {} where
  waiting := fun _ hr => nomatch hr
  messages := fun hget => nomatch hget

namespace Heeds

theorem refl (content : Contents) (w : Waiters) : w.Heeds content content w :=
  ⟨fun h => h, fun h => h⟩

theorem trans {last : Contents} (h : w.Heeds content grown middle)
    (hafter : middle.Heeds grown last after) : w.Heeds content last after :=
  ⟨fun hw => hafter.numbered (h.numbered hw), fun hw => hafter.awaits (h.awaits hw)⟩

theorem of_grown (w : Waiters) (hgrow : ∀ id, content id <+: grown id) :
    w.Heeds content grown w where
  numbered := fun h => h
  awaits := fun h =>
    { h with told := fun htold => Nat.lt_of_lt_of_le (h.told htold) (hgrow _).length_le }

theorem of_fewer {waiting : List Waiter} {messages : SortedMap Nat Wakeup}
    (hwaiting : ∀ r ∈ waiting, r ∈ w.waiting)
    (hmessages : ∀ {waiter wakeup}, messages.get? waiter = some wakeup →
      w.messages.get? waiter = some wakeup) :
    w.Heeds content content { w with waiting, messages } where
  numbered := fun h =>
    { waiting := fun r hr => h.waiting r (hwaiting r hr)
      messages := fun hget => h.messages (hmessages hget) }
  awaits := fun h =>
    { given := h.given
      waiting := fun r hr => h.waiting r (hwaiting r hr)
      told := fun htold => h.told (hmessages htold) }

theorem deregister (w : Waiters) (waiter : Nat) : w.Heeds content content (w.deregister waiter) :=
  of_fewer (fun _ hr => (List.mem_filter.mp hr).1) fun hget => hget

theorem receive (w : Waiters) (waiter : Nat) :
    w.Heeds content content (w.receive waiter).2 := by
  refine of_fewer (fun _ hr => hr) ?_
  intro other wakeup hget
  rw [SortedMap.get?_erase] at hget
  split at hget
  · cases hget
  · exact hget

/-! ## New waiters -/

theorem register (w : Waiters) (segment : SegmentId) (offset : Nat) :
    w.Heeds content content (w.register segment offset).2 where
  numbered := fun h =>
    { waiting := by
        intro r hr
        rcases List.mem_append.mp hr with hold | hnew
        · exact Nat.lt_succ_of_lt (h.waiting r hold)
        · rw [List.mem_singleton.mp hnew]
          exact Nat.lt_succ_self _
      messages := fun hget => Nat.lt_succ_of_lt (h.messages hget) }
  awaits := fun h =>
    { given := Nat.lt_succ_of_lt h.given
      waiting := by
        intro r hr hid
        rcases List.mem_append.mp hr with hold | hnew
        · exact h.waiting r hold hid
        · rw [List.mem_singleton.mp hnew] at hid
          exact absurd h.given (Nat.not_lt.mpr (Nat.le_of_eq hid))
      told := h.told }

/-! ## Wake-ups -/

theorem get?_of_foldl_insert {list : List Waiter} {wakeup found : Wakeup}
    {messages : SortedMap Nat Wakeup}
    (h : (list.foldl (fun m r => m.insert r.id wakeup) messages).get? waiter = some found) :
    messages.get? waiter = some found ∨ found = wakeup ∧ ∃ r ∈ list, r.id = waiter := by
  induction list generalizing messages with
  | nil => exact Or.inl h
  | cons r rest ih =>
      rcases ih h with hbefore | ⟨hfound, other, hother, hid⟩
      · rw [SortedMap.get?_insert] at hbefore
        by_cases hr : waiter = r.id
        · rw [if_pos hr] at hbefore
          cases hbefore
          exact Or.inr ⟨rfl, r, List.mem_cons_self, hr.symm⟩
        · rw [if_neg hr] at hbefore
          exact Or.inl hbefore
      · exact Or.inr ⟨hfound, other, List.mem_cons_of_mem _ hother, hid⟩

theorem wake (w : Waiters) {segment : SegmentId} {below : Nat} {wakeup : Wakeup}
    (hbelow : ∀ {length}, wakeup = .appended length → below ≤ (content segment).length) :
    w.Heeds content content (w.wake segment below wakeup) where
  numbered := fun h =>
    { waiting := fun r hr => h.waiting r (List.mem_filter.mp hr).1
      messages := by
        intro waiter found hget
        rcases get?_of_foldl_insert hget with hbefore | ⟨-, r, hr, rfl⟩
        · exact h.messages hbefore
        · exact h.waiting r (List.mem_filter.mp hr).1 }
  awaits := fun h =>
    { given := h.given
      waiting := fun r hr => h.waiting r (List.mem_filter.mp hr).1
      told := by
        intro length hget
        rcases get?_of_foldl_insert hget with hbefore | ⟨hwakeup, r, hr, hid⟩
        · exact h.told hbefore
        · -- one that is woken waits below the end that is told of
          rcases List.mem_filter.mp hr with ⟨hmem, hconcerns⟩
          rcases h.waiting r hmem hid with ⟨hsegment, hoffset⟩
          simp only [Bool.and_eq_true, beq_iff_eq, decide_eq_true_eq] at hconcerns
          rw [← hsegment, ← hoffset, hconcerns.1]
          exact Nat.lt_of_lt_of_le hconcerns.2 (hbelow hwakeup.symm) }

theorem wakeReaders (w : Waiters) {table : Table} {op : Operation} (hfits : op.Fits table)
    (hlength : ∀ {id s}, table.get? id = some s → s.length = (content id).length) :
    w.Heeds content (content.after op) (Store.wakeReaders w op) := by
  have hgrown := of_grown w (content.prefix_after op)
  cases op with
  | append segment offset client event data =>
      rcases hfits with ⟨s, hs, -, hoffset, -⟩
      refine hgrown.trans (wake w fun _ => ?_)
      have hgrew : (content.append segment data segment).length = offset + data.length := by
        rw [Contents.append_self, List.length_append, hoffset, hlength hs]
      exact Nat.le_of_eq hgrew.symm
  | «seal» segment length => exact hgrown.trans (wake w fun h => nomatch h)
  | merge parent batch length offset =>
      rcases hfits with ⟨s, b, hs, hb, -, -, -, -, hbatch, hoffset, -⟩
      refine hgrown.trans (trans (wake w fun _ => ?_) (wake _ fun h => nomatch h))
      have hgrew : (content.append parent (content batch) parent).length = offset + length := by
        rw [Contents.append_self, List.length_append, hoffset, hbatch, hlength hs, hlength hb]
      exact Nat.le_of_eq hgrew.symm
  | checkpoint snapshot => exact hgrown
  | create segment name => exact hgrown
  | createBatch batch name parent => exact hgrown
  | truncate segment offset => exact hgrown

end Heeds

theorem Numbered.awaits_register (h : w.Numbered) (content : Contents) (segment : SegmentId)
    (offset : Nat) :
    (w.register segment offset).2.Awaits content (w.register segment offset).1 segment offset where
  given := Nat.lt_succ_self _
  waiting := by
    intro r hr hid
    rcases List.mem_append.mp hr with hold | hnew
    · exact absurd (h.waiting r hold) (Nat.not_lt.mpr (Nat.le_of_eq hid.symm))
    · rw [List.mem_singleton.mp hnew]
      exact ⟨rfl, rfl⟩
  told := fun hget => absurd (h.messages hget) (Nat.lt_irrefl _)

theorem Awaits.look (h : w.Awaits content waiter id offset) {wakeup : Wakeup}
    (hlook : w.look waiter = .message wakeup) {length : Nat} (hwakeup : wakeup = .appended length) :
    offset < (content id).length := by
  subst hwakeup
  unfold Waiters.look at hlook
  split at hlook
  · rename_i found hfound
    cases hlook
    exact h.told hfound
  · split at hlook
    · cases hlook
    · cases hlook

end Waiters
end TieredStore
