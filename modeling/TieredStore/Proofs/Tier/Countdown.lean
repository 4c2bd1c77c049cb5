import TieredStore.Proofs.Tier.Lawful

/-!
# A tier of which one call fails

The calls of a flaky tier are counted down, and the one that the count ends at fails
and does nothing.  The calls before it and behind it are those of the flaky tier, so
that a tier that fails in this way keeps to its contract.
-/

namespace TieredStore

/-- A flaky tier of which one more call fails. -/
structure CountdownTier where
  inner : FlakyTier
  /-- How many calls come before the one that fails, if one does. -/
  left : Option Nat

namespace CountdownTier

def counted {α : Type} (call : TierM FlakyTier α) : TierM CountdownTier α := fun tier =>
  if tier.left = some 0 then .error (.failed .tierWriteFailed) { tier with left := none }
  else
    match call.run tier.inner with
    | .ok a inner => .ok a { inner, left := tier.left.map (· - 1) }
    | .error e inner => .error e { inner, left := tier.left.map (· - 1) }

instance : Tier CountdownTier where
  read name offset length := counted (Tier.read name offset length)
  write name offset data := counted (Tier.write name offset data)
  concat target source := counted (Tier.concat target source)
  length name := counted (Tier.length name)
  delete name := counted (Tier.delete name)

instance : TierView CountdownTier where
  held tier := tier.inner
  WritesFail tier := tier.left.isSome = true ∨ WritesFail tier.inner
  CallsFail tier := tier.left.isSome = true ∨ CallsFail tier.inner
  JoinsBreak tier := JoinsBreak tier.inner
  Steady := False

theorem noWorse {tier after : CountdownTier} (hinner : NoWorse tier.inner after.inner)
    (hleft : after.left.isSome = true → tier.left.isSome = true) : NoWorse tier after where
  writes := fun hfails => hfails.imp hleft hinner.writes
  calls := fun hfails => hfails.imp hleft hinner.calls
  joins := hinner.joins

/-- A counted call ends as the call of the flaky tier does, or it is the one that fails. -/
theorem counted_ends {α : Type} {call : TierM FlakyTier α} {tier : CountdownTier}
    {answered : α → CountdownTier → Prop} {failed : MediumError → CountdownTier → Prop}
    (hlast : ∀ e (after : CountdownTier), tier.left.isSome = true → after.inner = tier.inner →
      NoWorse tier after → failed e after)
    (hpassed : Ends call tier.inner
      (fun a inner => ∀ after : CountdownTier, after.inner = inner →
        (NoWorse tier.inner inner → NoWorse tier after) → answered a after)
      (fun e inner => ∀ after : CountdownTier, after.inner = inner →
        (NoWorse tier.inner inner → NoWorse tier after) → failed e after)) :
    Ends (counted call) tier answered failed := by
  have hcount : (tier.left.map (· - 1)).isSome = true → tier.left.isSome = true := by
    rw [Option.isSome_map]
    exact id
  unfold Ends EStateM.run at hpassed ⊢
  unfold counted EStateM.run
  by_cases hzero : tier.left = some 0
  · rw [if_pos hzero]
    refine hlast _ _ ?_ rfl (noWorse (NoWorse.refl _) nofun)
    rw [hzero]
    rfl
  · rw [if_neg hzero]
    split at hpassed
    · rename_i hrun
      rw [hrun]
      exact hpassed _ rfl fun hworse => noWorse hworse hcount
    · rename_i hrun
      rw [hrun]
      exact hpassed _ rfl fun hworse => noWorse hworse hcount

instance : LawfulTier CountdownTier where
  callsFail_of_writesFail := fun hfails => hfails.imp id LawfulTier.callsFail_of_writesFail
  length_ends := by
    intro tier name
    refine counted_ends ?_ ((LawfulTier.length_ends tier.inner name).mono ?_ ?_)
    · intro e after hleft hsame hworse
      exact ⟨congrArg FlakyTier.object? hsame, hworse, Or.inl hleft⟩
    · rintro found _ h after rfl hworse
      exact ⟨h.1, hworse h.2.1, h.2.2⟩
    · rintro e _ h after rfl hworse
      exact ⟨h.1, hworse h.2.1, Or.inr h.2.2⟩
  write_ends := by
    intro tier name offset data
    refine counted_ends ?_ ((LawfulTier.write_ends tier.inner name offset data).mono ?_ ?_)
    · intro e after hleft hsame hworse
      exact ⟨Or.inl (congrArg FlakyTier.object? hsame), hworse, fun _ => Or.inl hleft⟩
    · rintro length _ h after rfl hworse
      exact ⟨h.1, hworse h.2.1, False.elim⟩
    · rintro e _ h after rfl hworse
      exact ⟨h.1, hworse h.2.1, fun heq => Or.inr (h.2.2 heq)⟩
  concat_ends := by
    intro tier target source data hsource hne
    refine counted_ends ?_ ((LawfulTier.concat_ends (τ := FlakyTier) hsource hne).mono ?_ ?_)
    · intro e after hleft hsame hworse
      exact ⟨Or.inl (congrArg FlakyTier.object? hsame), hworse, Or.inl hleft⟩
    · rintro length _ h after rfl hworse
      exact ⟨h.1, hworse h.2⟩
    · rintro e _ h after rfl hworse
      exact ⟨h.1, hworse h.2.1, Or.inr h.2.2⟩
  delete_ends := by
    intro tier name data hobject
    refine counted_ends ?_ ((LawfulTier.delete_ends (τ := FlakyTier) hobject).mono ?_ ?_)
    · intro e after hleft hsame hworse
      exact ⟨congrArg FlakyTier.object? hsame, hworse, Or.inl hleft⟩
    · rintro _ _ h after rfl hworse
      exact ⟨h.1, hworse h.2⟩
    · rintro e _ h after rfl hworse
      exact ⟨h.1, hworse h.2.1, Or.inr h.2.2⟩

instance : RecoverableTier CountdownTier where
  Stops := True
  looks := fun tier name => counted_ends (fun _ _ _ hsame _ => ⟨hsame, trivial⟩)
    ((RecoverableTier.looks tier.inner name).mono
      (fun _ _ h _ hafter _ => ⟨hafter.trans h.1, h.2⟩)
      fun _ _ h _ hafter _ => ⟨hafter.trans h.1, trivial⟩)
  deletes := fun hobject => counted_ends (fun _ _ _ hsame _ => ⟨hsame, trivial⟩)
    ((RecoverableTier.deletes (τ := FlakyTier) hobject).mono
      (fun _ _ h after hafter _ => by
        subst hafter
        exact h)
      fun _ _ h _ hafter _ => ⟨hafter.trans h.1, trivial⟩)

end CountdownTier
end TieredStore
