import TieredStore.Proofs.Container.Flushing
import TieredStore.Proofs.Missing
import TieredStore.Proofs.Table.Bookkeeping

/-!
# A flush only does bookkeeping

Whatever the tier does and wherever a flush ends, of the table it has changed only what
the tier is noted to hold and which merges are noted to be carried out.
-/

namespace TieredStore
namespace Container

variable {τ : Type}

/-! ## Calls of the tier only -/

def SameBesideTier (c after : Container τ) : Prop := ∃ tier, after = { c with tier }

namespace SameBesideTier

variable {c middle after : Container τ}

theorem refl (c : Container τ) : c.SameBesideTier c := ⟨c.tier, rfl⟩

theorem trans (h : c.SameBesideTier middle) (hafter : middle.SameBesideTier after) :
    c.SameBesideTier after := by
  rcases h with ⟨_, rfl⟩
  exact hafter

instance : Std.Refl (SameBesideTier (τ := τ)) := ⟨refl⟩

instance : Trans (SameBesideTier (τ := τ)) SameBesideTier SameBesideTier := ⟨trans⟩

theorem onTier {α : Type} (call : TierM τ α) (c : Container τ) :
    Carries SameBesideTier (onTier call) c :=
  onTier_ends (.of_run (fun _ tier _ => ⟨tier, rfl⟩) fun _ tier _ => ⟨⟨tier, rfl⟩, id⟩)

end SameBesideTier

section Objects

variable [Tier τ]

theorem ensureObject_beside (name : String) (c : Container τ) :
    Carries SameBesideTier (ensureObject name) c := by
  unfold ensureObject
  refine .bind_any (SameBesideTier.onTier _ c) fun length c => ?_
  split
  · exact .discard (SameBesideTier.onTier _ c)
  · exact .pure _ c

theorem joinMade_beside (target source : String) (length : Option Nat) (c : Container τ) :
    Carries SameBesideTier (joinMade target source length) c := by
  unfold joinMade
  split
  · exact .bind_any (.discard (SameBesideTier.onTier _ c)) fun _ made =>
      SameBesideTier.onTier _ made
  · exact SameBesideTier.onTier _ c

theorem joinObjects_beside (target : MergeTarget) (c : Container τ) :
    Carries SameBesideTier (joinObjects target) c := by
  rw [joinObjects_eq]
  refine .bind_any (SameBesideTier.onTier _ c) fun batch c =>
    .bind_any (SameBesideTier.onTier _ c) fun parent c => ?_
  unfold joinFound
  split
  · exact joinMade_beside _ _ _ c
  · split
    · split
      · exact .bind_any (SameBesideTier.onTier _ c) fun _ dropped => .pure _ dropped
      · exact .pure _ c
    · exact joinMade_beside _ _ _ c

end Objects

/-! ## Calls that only make notes -/

/-- Wherever the call ends, it has only made notes in the table. -/
def Notes {α : Type} (call : ContainerM τ α) : Prop :=
  ∀ c, Ends call c (fun _ after => c.table.Bookkept after.table)
    (fun _ after => c.table.Bookkept after.table)

namespace Notes

variable {α β : Type}

theorem pure (a : α) : Notes (Pure.pure a : ContainerM τ α) := fun _ => Ends.pure .refl

theorem throw (e : Error) : Notes (MonadExcept.throw e : ContainerM τ α) :=
  fun _ => Ends.throw .refl

theorem bind {call : ContainerM τ β} {next : β → ContainerM τ α} (h : Notes call)
    (hnext : ∀ b, Notes (next b)) : Notes (call >>= next) := by
  intro c
  apply Ends.bind
  apply (h c).mono
  · intro b middle hmiddle
    apply (hnext b middle).mono
    · intro _ after hafter
      exact hmiddle.trans hafter
    · intro _ after hafter
      exact hmiddle.trans hafter
  · intro _ after hafter
    exact hafter

theorem get {next : Container τ → ContainerM τ α} (h : ∀ c, Notes (next c)) :
    Notes (MonadState.get >>= next) := fun c => Ends.get (h c c)

theorem modified {change : Container τ → Container τ}
    (h : ∀ c : Container τ, c.table.Bookkept (change c).table) :
    Notes (modify change : ContainerM τ PUnit) :=
  fun c => Ends.modified (h c)

theorem of_beside {call : ContainerM τ α} (h : ∀ c, Carries SameBesideTier call c) :
    Notes call := by
  intro c
  refine (h c).mono ?_ ?_
  · rintro _ _ ⟨tier, rfl⟩
    exact .refl
  · rintro _ _ ⟨⟨tier, rfl⟩, -⟩
    exact .refl

theorem cached (id : SegmentId) (offset count : Nat) :
    Notes (cached id offset count : ContainerM τ (Option Bytes)) := fun _ => .refl

end Notes

/-! ## Notes -/

theorem noteStored_bookkept (id : SegmentId) (stored : Nat) (c : Container τ) :
    c.table.Bookkept (noteStored id stored c).table := .stored .refl id stored

theorem finishMerge_bookkept (parent : SegmentId) (m : PendingMerge) (c : Container τ) :
    c.table.Bookkept (finishMerge parent m c).table := by
  unfold finishMerge
  cases hcomplete : c.table.completeMerge? parent m.batch with
  | none => exact .refl
  | some found => exact .finished .refl hcomplete

/-! ## Parts of a flush -/

variable [Tier τ]

theorem copyOut_notes (id : SegmentId) (name : String) (stop fuel offset : Nat) :
    Notes (copyOut id name stop fuel offset : ContainerM τ Nat) := by
  induction fuel generalizing offset with
  | zero => exact .pure offset
  | succ fuel ih =>
      unfold copyOut
      split
      · apply Notes.bind (.cached _ _ _)
        intro block
        cases block with
        | none => exact .throw _
        | some block => exact .bind (.of_beside (SameBesideTier.onTier _)) fun next => ih next
      · exact .pure offset

theorem flushSegment_notes (target : FlushTarget) :
    Notes (flushSegment target : ContainerM τ Nat) := by
  have hcopy : Notes (do
      let stored ← copyOut target.id target.name target.stop (target.stop - target.start)
        target.start
      modify (noteStored target.id stored)
      return stored - target.start : ContainerM τ Nat) := by
    apply Notes.bind (copyOut_notes _ _ _ _ _)
    intro stored
    exact .bind (.modified fun c => noteStored_bookkept target.id stored c) fun _ => .pure _
  unfold flushSegment
  split
  · exact .bind (.of_beside (ensureObject_beside _)) fun _ => hcopy
  · exact hcopy

theorem flushSegments_notes (targets : List FlushTarget) (stats : FlushStats) :
    Notes (flushSegments stats targets : ContainerM τ FlushStats) := by
  induction targets generalizing stats with
  | nil => exact .pure stats
  | cons target rest ih =>
      unfold flushSegments
      exact .bind (flushSegment_notes target) fun written => ih _

theorem carryOut_notes (target : MergeTarget) : Notes (carryOut target : ContainerM τ Unit) := by
  unfold carryOut
  apply Notes.bind (.of_beside (joinObjects_beside target))
  intro length
  split
  · exact .bind (.throw _) fun _ => .modified fun c => finishMerge_bookkept _ _ c
  · exact .modified fun c => finishMerge_bookkept _ _ c

theorem carryOutAll_notes (targets : List MergeTarget) (stats : FlushStats) :
    Notes (carryOutAll stats targets : ContainerM τ FlushStats) := by
  induction targets generalizing stats with
  | nil => exact .pure stats
  | cons target rest ih =>
      unfold carryOutAll
      exact .bind (carryOut_notes target) fun _ => ih _

theorem flushRounds_notes (fuel : Nat) (stats : FlushStats) :
    Notes (flushRounds fuel stats : ContainerM τ FlushStats) := by
  induction fuel generalizing stats with
  | zero => exact .pure stats
  | succ fuel ih =>
      unfold flushRounds
      apply Notes.get
      intro c
      apply Notes.bind (flushSegments_notes _ _)
      intro copied
      apply Notes.get
      intro c
      apply Notes.bind (carryOutAll_notes _ _)
      intro joined
      split
      · exact .pure _
      · exact ih joined

theorem flush_notes : Notes (flush : ContainerM τ FlushStats) :=
  .get fun _ => flushRounds_notes _ _

end Container
end TieredStore
