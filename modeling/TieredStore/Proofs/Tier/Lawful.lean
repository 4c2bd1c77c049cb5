import TieredStore.Proofs.Tier.Objects

/-!
# Tiers that keep to their contract

Callers of a tier rely on what its calls do to the objects.  A call that succeeds
does what it is asked for.  One that fails leaves the bytes of all objects as they
are, except that a join can break off after it has added the bytes.  Which calls
fail, and when, is up to the tier; it says of itself whether writes or any calls
can still fail.
-/

namespace TieredStore

/-- What a tier is to its callers. -/
class TierView (τ : Type) where
  /-- A tier in memory with the same objects. -/
  held : τ → FlakyTier
  /-- Writes can fail from now on. -/
  WritesFail : τ → Prop
  /-- Calls can fail from now on. -/
  CallsFail : τ → Prop
  /-- Joins can break off from now on after they have added the bytes. -/
  JoinsBreak : τ → Prop
  /-- Where writes can fail, none succeeds. -/
  Steady : Prop

export TierView (WritesFail CallsFail JoinsBreak)

/-- No call can fail that could not fail before. -/
structure NoWorse {τ : Type} [TierView τ] (tier after : τ) : Prop where
  writes : WritesFail after → WritesFail tier
  calls : CallsFail after → CallsFail tier
  joins : JoinsBreak after → JoinsBreak tier

/-- The calls of the tier do to its objects what they are asked for, unless they fail. -/
class LawfulTier (τ : Type) [Tier τ] extends TierView τ where
  callsFail_of_writesFail : ∀ {tier : τ}, WritesFail tier → CallsFail tier
  length_ends : ∀ (tier : τ) (name : String), Ends (Tier.length name) tier
    (fun found after => (held after).object? = (held tier).object? ∧ NoWorse tier after ∧
      found = ((held tier).object? name).map (·.length))
    (fun _ after => (held after).object? = (held tier).object? ∧ NoWorse tier after ∧
      CallsFail tier)
  write_ends : ∀ (tier : τ) (name : String) (offset : Nat) (data : Bytes),
    Ends (Tier.write name offset data) tier
      (fun length after => (((held tier).bytes name).length = offset ∧
        length = offset + data.length ∧
        (held tier).Sets name (some ((held tier).bytes name ++ data)) (held after)) ∧
        NoWorse tier after ∧ (Steady → ¬ WritesFail tier))
      (fun _ after => (held tier).Touched name (held after) ∧ NoWorse tier after ∧
        (((held tier).bytes name).length = offset → WritesFail tier))
  concat_ends : ∀ {tier : τ} {target source : String} {data : Bytes},
    (held tier).object? source = some data → target ≠ source →
    Ends (Tier.concat target source) tier
      (fun length after => (length = ((held tier).bytes target ++ data).length ∧
        (held tier).Joined target source (held after)) ∧ NoWorse tier after)
      (fun _ after => ((held after).object? = (held tier).object? ∨ JoinsBreak tier ∧
        (held tier).Sets target (some ((held tier).bytes target ++ data)) (held after)) ∧
        NoWorse tier after ∧ CallsFail tier)
  delete_ends : ∀ {tier : τ} {name : String} {data : Bytes},
    (held tier).object? name = some data →
    Ends (Tier.delete name) tier
      (fun _ after => (held tier).Sets name none (held after) ∧ NoWorse tier after)
      (fun _ after => (held after).object? = (held tier).object? ∧ NoWorse tier after ∧
        CallsFail tier)

namespace NoWorse

variable {τ : Type} [TierView τ] {tier after last : τ}

theorem refl (tier : τ) : NoWorse tier tier := ⟨id, id, id⟩

theorem trans (h : NoWorse tier after) (hlast : NoWorse after last) : NoWorse tier last where
  writes := fun hfails => h.writes (hlast.writes hfails)
  calls := fun hfails => h.calls (hlast.calls hfails)
  joins := fun hbreak => h.joins (hlast.joins hbreak)

end NoWorse

/--
Recovery looks at the lengths of objects and deletes some of them.  Such a call does
what it is asked for, or it fails and changes nothing.
-/
class RecoverableTier (τ : Type) [Tier τ] [TierView τ] where
  Stops : Prop
  looks : ∀ (tier : τ) (name : String), Ends (Tier.length name) tier
    (fun found after => TierView.held after = TierView.held tier ∧
      found = ((TierView.held tier).object? name).map (·.length))
    (fun _ after => TierView.held after = TierView.held tier ∧ Stops)
  deletes : ∀ {tier : τ} {name : String} {data : Bytes},
    (TierView.held tier).object? name = some data →
    Ends (Tier.delete name) tier
      (fun _ after => (TierView.held tier).Sets name none (TierView.held after) ∧
        (TierView.held tier).Within (TierView.held after))
      (fun _ after => TierView.held after = TierView.held tier ∧ Stops)

/-!
## The flaky tier
-/

namespace FlakyTier

instance : TierView FlakyTier where
  held tier := tier
  WritesFail tier := tier.failWrites = true
  CallsFail tier := tier.failWrites = true ∨ tier.interruptConcat = true
  JoinsBreak tier := tier.interruptConcat = true
  Steady := True

theorem Within.noWorse {tier after : FlakyTier} (h : tier.Within after) : NoWorse tier after where
  writes := fun hfails => h.failWrites_eq.symm.trans hfails
  calls := by
    intro hfails
    rcases hfails with hwrites | hjoins
    · exact Or.inl (h.failWrites_eq.symm.trans hwrites)
    · exact Or.inr (h.interruptConcat_eq.symm.trans hjoins)
  joins := fun hbreak => h.interruptConcat_eq.symm.trans hbreak

theorem not_callsFail {tier : FlakyTier} (hwrites : tier.failWrites = false)
    (hjoins : tier.interruptConcat = false) : ¬ CallsFail tier := by
  intro hfails
  rcases hfails with hfails | hfails
  · rw [hwrites] at hfails
    cases hfails
  · rw [hjoins] at hfails
    cases hfails

instance : LawfulTier FlakyTier where
  callsFail_of_writesFail := Or.inl
  length_ends := by
    intro tier name
    refine (length_ends tier name).mono ?_ ?_
    · intro found after h
      rcases h with ⟨rfl, hfound⟩
      exact ⟨rfl, NoWorse.refl _, hfound⟩
    · intro _ _ hfalse
      exact hfalse.elim
  write_ends := by
    intro tier name offset data
    refine (write_ends tier name offset data).mono ?_ ?_
    · intro length after h
      rcases h with ⟨hwrite, hworks, hwithin⟩
      refine ⟨hwrite, hwithin.noWorse, fun _ hfails => ?_⟩
      rw [show tier.failWrites = true from hfails] at hworks
      cases hworks
    · intro e after h
      rcases h with hfails | hoffset
      · rcases hfails with ⟨hfails, rfl⟩
        exact ⟨Or.inl rfl, NoWorse.refl _, fun _ => hfails⟩
      · rcases hoffset with ⟨⟨hne, -, hsets⟩, hwithin⟩
        exact ⟨Or.inr hsets, hwithin.noWorse, fun heq => absurd heq hne⟩
  concat_ends := by
    intro tier target source data hsource hne
    refine (concat_ends hsource hne).mono ?_ ?_
    · intro length after h
      exact ⟨h.1, h.2.noWorse⟩
    · intro e after h
      rcases h with hfails | hbroken
      · rcases hfails with ⟨hfails, rfl⟩
        exact ⟨Or.inl rfl, NoWorse.refl _, Or.inl hfails⟩
      · rcases hbroken with ⟨hsets, hjoins, hwithin⟩
        exact ⟨Or.inr ⟨hjoins, hsets⟩, hwithin.noWorse, Or.inr hjoins⟩
  delete_ends := by
    intro tier name data hobject
    refine (delete_ends hobject).mono ?_ ?_
    · intro _ after h
      exact ⟨h.1, h.2.noWorse⟩
    · intro _ _ hfalse
      exact hfalse.elim

instance : RecoverableTier FlakyTier where
  Stops := False
  looks := fun tier name => (length_ends tier name).mono
    (fun _ _ hfound => ⟨hfound.1, hfound.2⟩) fun _ _ hfalse => hfalse.elim
  deletes := fun hobject => (delete_ends hobject).mono
    (fun _ _ hdeleted => hdeleted) fun _ _ hfalse => hfalse.elim

end FlakyTier
end TieredStore
