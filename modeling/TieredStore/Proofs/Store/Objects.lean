import TieredStore.Proofs.Store.Run

/-!
# What the tier holds

At any time the object of a segment has as many bytes of its content as the table
says.  The only exception is a parent whose join with its first pending batch was
broken off: its object has the bytes of the batch already, which the object of the
batch still has as well.  There is no object without a segment.
-/

namespace TieredStore
namespace StoreRun

/--
No byte is lost, doubled or out of place in the tier, whatever is done to the store
and whenever writes fail or joins break off.
-/
theorem objects_hold_contents (list : List StoreStep) {store : Store FlakyTier}
    (hopen : (start.steps list).session = .opened store) :
    (∀ id s, store.table.get? id = some s → store.container.tier.object? s.name = none →
      s.storageLength = 0) ∧
    (∀ id s bytes, store.table.get? id = some s →
      store.container.tier.object? s.name = some bytes →
      bytes = ((start.steps list).content id).take s.storageLength ∨
      Interrupts list ∧ ∃ m b, s.pending.head? = some m ∧ s.storageLength = m.offset ∧
        bytes = ((start.steps list).content id).take m.stop ∧
        store.table.get? m.batch = some b ∧
        store.container.tier.bytes b.name = (start.steps list).content m.batch) ∧
    ∀ name bytes, store.container.tier.object? name = some bytes →
      ∃ id s, store.table.get? id = some s ∧ s.name = name := by
  rcases kept_of_opened list hopen with ⟨replayed, hkept⟩
  have htracked := hkept.tracked
  refine ⟨?_, ?_, ?_⟩
  · intro id s hs hobject
    have hreaches := htracked.sound.stored.reaches hs
    rw [FlakyTier.bytes_of_missing hobject] at hreaches
    exact Nat.le_zero.mp hreaches
  · intro id s bytes hs hobject
    rw [← FlakyTier.bytes_of_object? hobject]
    exact htracked.bytes_eq hs
  · intro name bytes hobject
    exact htracked.sound.stored.owned hobject

/-- A join that breaks off after it has added the bytes of the batch. -/
private def halfway : List StoreStep :=
  [.reopen {}, .create "a", .append ⟨1, 7, 1, [97, 98, 99]⟩, .createBatch 1 5,
    .append ⟨2, 7, 2, [100, 101]⟩, .sealSegment 2, .merge 2 1, .switchTier false false true,
    .flush]

theorem objects_hold_contents_halfway :
    ∃ store, (start.steps halfway).session = .opened store ∧
      ∃ s m b, store.table.get? 1 = some s ∧ s.pending.head? = some m ∧ s.storageLength = 3 ∧
        store.container.tier.object? s.name = some [97, 98, 99, 100, 101] ∧
        store.table.get? m.batch = some b ∧
        store.container.tier.bytes b.name = (start.steps halfway).content m.batch := by
  have hisSome : (start.steps halfway).session.store?.isSome = true := by decide +kernel
  have hobject : (start.steps halfway).session.tier.object? "a" = some [97, 98, 99, 100, 101] := by
    decide +kernel
  have hcontent : (start.steps halfway).content 1 = [97, 98, 99, 100, 101] := by decide +kernel
  have hfound : ((start.steps halfway).session.store?.bind (·.table.get? 1)).map
      (fun s => (s.name, s.storageLength)) = some ("a", 3) := by decide +kernel
  rcases Option.isSome_iff_exists.mp hisSome with ⟨store, hstore⟩
  have hopen := Session.eq_opened hstore
  rw [hopen] at hobject
  rw [hstore] at hfound
  rcases Option.map_eq_some_iff.mp hfound with ⟨s, hs, hfields⟩
  simp only [Prod.mk.injEq] at hfields
  rcases hfields with ⟨hname, hstored⟩
  have hobject : store.container.tier.object? s.name = some [97, 98, 99, 100, 101] := by
    rw [hname]
    exact hobject
  refine ⟨store, hopen, s, ?_⟩
  rcases (objects_hold_contents halfway hopen).2.1 1 s _ hs hobject with hexact | hbroken
  · rw [hcontent, hstored] at hexact
    cases hexact
  · rcases hbroken with ⟨-, m, b, hm, -, -, hb, hbatch⟩
    exact ⟨m, b, hs, hm, hstored, hobject, hb, hbatch⟩

end StoreRun
end TieredStore
