import TieredStore.Proofs.Container.Copying

/-!
# Joining batches in the tier

A merge is ready when the table holds the parent up to the merge and the whole
batch.  Joining them may break off after the bytes were added; the next attempt
then finds the parent long enough and only drops the batch.  A merge is finished
only when the tier has done both, so that the container is tracked before and
after.

An object that ends elsewhere than before or behind the merge is joined all the
same, and only then is it noticed that it ends at a wrong place.
-/

namespace TieredStore

/-- The target is the first pending merge of its parent, and both segments are in the tier. -/
structure Table.Ready (table : Table) (target : MergeTarget) (s b : Segment)
    (rest : List PendingMerge) : Prop where
  parent : table.get? target.parent = some s
  pending : s.pending = target.merge :: rest
  parentName : s.name = target.parentName
  stored : s.storageLength = target.merge.offset
  batch : table.get? target.merge.batch = some b
  batchName : b.name = target.batchName
  complete : b.storageLength = b.length

namespace Table.Ready

variable {content : Contents} {c : Container FlakyTier} {target : MergeTarget} {s b : Segment}
  {rest : List PendingMerge}

theorem mem (h : c.table.Ready target s b rest) : target.merge ∈ s.pending := by
  rw [h.pending]
  exact List.mem_cons_self

theorem mem_mergeTargets {table : Table} (h : table.Ready target s b rest)
    (hconsistent : table.Consistent content) : target ∈ table.mergeTargets := by
  refine List.mem_filterMap.mpr ⟨s, Table.mem_list.mpr ⟨_, h.parent⟩, ?_⟩
  unfold mergeTarget?
  rw [h.pending]
  simp only [List.head?_cons, Option.bind_eq_bind, Option.bind_some, h.batch]
  rw [if_pos ⟨h.stored, h.complete⟩, hconsistent.id_eq h.parent, h.parentName, h.batchName]

theorem name_ne (h : c.table.Ready target s b rest) (hsound : c.Sound content) :
    s.name ≠ b.name := by
  intro heq
  have hid := hsound.wellFormed.name_inj h.parent h.batch heq
  exact hsound.consistent.batch_ne (hsound.consistent.backed h.parent _ h.mem) hid.symm

theorem batch_bytes (h : c.table.Ready target s b rest) (hsound : c.Sound content) :
    c.tier.bytes b.name = content target.merge.batch ∧
      c.tier.bytes b.name =
        Bytes.slice (content target.parent) target.merge.offset target.merge.length ∧
      (c.tier.bytes b.name).length = target.merge.length := by
  rcases hsound.consistent.backed h.parent _ h.mem with ⟨b', hb', -, -, hlength, hslice⟩
  rw [h.batch] at hb'
  cases hb'
  have heq := hsound.bytes_of_complete h.batch h.complete
  refine ⟨heq, ?_, ?_⟩
  · rw [hslice]
    exact heq
  · rw [heq, ← (hsound.consistent.segment h.batch).length_eq]
    exact hlength

theorem full {table : Table} (h : table.Ready target s b rest)
    (hconsistent : table.Consistent content) :
    s.storageLength = s.limit ∧ b.storageLength = b.limit := by
  have hmem : target.merge ∈ s.pending := by
    rw [h.pending]
    exact List.mem_cons_self
  rcases hconsistent.backed h.parent _ hmem with ⟨b', hb', hparent, -⟩
  rw [h.batch] at hb'
  cases hb'
  rw [Segment.limit_of_cons h.pending,
    Segment.limit_of_nil (hconsistent.pending_of_parent h.batch hparent)]
  exact ⟨h.stored, h.complete⟩

theorem joined_prefix (h : c.table.Ready target s b rest) (hsound : c.Sound content)
    (hlength : (c.tier.bytes s.name).length = target.merge.offset) :
    c.tier.bytes s.name ++ c.tier.bytes b.name <+: content target.parent ∧
      (c.tier.bytes s.name ++ c.tier.bytes b.name).length = target.merge.stop := by
  rcases h.batch_bytes hsound with ⟨-, hbytes, hblength⟩
  constructor
  · refine Container.prefix_of_append_slice (hsound.stored.starts h.parent) ?_
    rw [hblength, hlength]
    exact hbytes
  · rw [List.length_append, hlength, hblength]
    rfl

/-- The object of the parent ends before the batch, or behind it if the join has broken off. -/
theorem parent_length {broken : Prop} (h : c.table.Ready target s b rest)
    (haligned : c.table.AlignedIn broken c.tier) :
    (c.tier.bytes s.name).length = target.merge.offset ∨
      broken ∧ (c.tier.bytes s.name).length = target.merge.stop := by
  rcases haligned _ _ h.parent with heq | hdoubled
  · exact Or.inl (heq.trans h.stored)
  · rcases hdoubled with ⟨hbroken, m, b', hm, -, hlength, -⟩
    rw [h.pending] at hm
    cases hm
    exact Or.inr ⟨hbroken, hlength⟩

theorem joined {table : Table} {other : MergeTarget} {s' b' : Segment}
    {rest' : List PendingMerge} (hother : table.Ready other s' b' rest')
    (h : table.Ready target s b rest) (hconsistent : table.Consistent content)
    (hne : other.parent ≠ target.parent) :
    (table.joined target.parent target.merge).Ready other s' b' rest' := by
  have hmem : other.merge ∈ s'.pending := by
    rw [hother.pending]
    exact List.mem_cons_self
  have hapart := hconsistent.get?_joined_apart h.parent h.pending hother.parent hne hmem
  refine { hother with parent := ?_, batch := ?_ }
  · rw [hapart.1]
    exact hother.parent
  · rw [hapart.2]
    exact hother.batch

theorem names_apart {other : MergeTarget} {s' b' : Segment} {rest' : List PendingMerge}
    (hother : c.table.Ready other s' b' rest') (h : c.table.Ready target s b rest)
    (hsound : c.Sound content) (hne : other.parent ≠ target.parent) :
    (s'.name ≠ s.name ∧ s'.name ≠ b.name) ∧ b'.name ≠ s.name ∧ b'.name ≠ b.name := by
  have hkept := hother.joined h hsound.consistent hne
  have hold : ∀ {id t}, (c.table.joined target.parent target.merge).get? id = some t →
      c.table.get? id = some t → id ≠ target.parent → t.name ≠ s.name ∧ t.name ≠ b.name := by
    intro id t ht ht' hid
    refine ⟨fun hname => hid (hsound.wellFormed.name_inj ht' h.parent hname), fun hname => ?_⟩
    have heq := hsound.wellFormed.name_inj ht' h.batch hname
    rw [heq, Table.get?_joined_batch] at ht
    cases ht
  refine ⟨hold hkept.parent hother.parent hne, hold hkept.batch hother.batch ?_⟩
  intro heq
  rcases hsound.consistent.backed hother.parent _ hother.mem with ⟨b₁, hb₁, hparent, -⟩
  rw [heq, h.parent] at hb₁
  cases hb₁
  have hpending := h.pending
  rw [hsound.consistent.pending_of_parent h.parent hparent] at hpending
  cases hpending

end Table.Ready

/--
A join was stopped: an empty source may have been made, and the bytes may have been
added if joins can break off.
-/
def FlakyTier.Stopped (broken : Prop) (tier : FlakyTier) (target source : String)
    (after : FlakyTier) : Prop :=
  ∃ middle, tier.Touched source middle ∧ (after.object? = middle.object? ∨
    broken ∧ middle.Sets target (some (tier.bytes target ++ tier.bytes source)) after)

namespace Container

section Pieces

variable {τ : Type} [Tier τ]

/-- Adds the source to the target; a source that is not there is made first. -/
def joinMade (target source : String) (length : Option Nat) : ContainerM τ Nat := do
  if length.isNone then discard (onTier (Tier.write source 0 []))
  onTier (Tier.concat target source)

def joinFound (target : MergeTarget) (batch parent : Option Nat) : ContainerM τ Nat :=
  match parent with
  | none => joinMade target.parentName target.batchName batch
  | some length =>
      if target.merge.stop ≤ length then do
        if batch.isSome then onTier (Tier.delete target.batchName)
        return length
      else joinMade target.parentName target.batchName batch

theorem joinObjects_eq (target : MergeTarget) :
    (joinObjects target : ContainerM τ Nat) = (do
      let batch ← onTier (Tier.length target.batchName)
      let parent ← onTier (Tier.length target.parentName)
      joinFound target batch parent) := rfl

theorem joinFound_of_lt (target : MergeTarget) (batch : Option Nat) {length : Nat}
    (h : length < target.merge.stop) :
    (joinFound target batch (some length) : ContainerM τ Nat) =
      joinMade target.parentName target.batchName batch :=
  if_neg (Nat.not_le.mpr h)

theorem joinFound_of_le (target : MergeTarget) (batch : Option Nat) {length : Nat}
    (h : target.merge.stop ≤ length) :
    (joinFound target batch (some length) : ContainerM τ Nat) = (do
      if batch.isSome then onTier (Tier.delete target.batchName)
      return length) :=
  if_pos h

end Pieces

variable {τ : Type} [Tier τ] [LawfulTier τ] {broken : Prop} {content : Contents}
  {replayed : Table} {c middle after : Container τ} {target : MergeTarget} {s b : Segment}
  {rest : List PendingMerge}

/-! ## The objects -/

/-- Only the tier has changed, and no call fails that did not fail before. -/
structure SameSegments (c after : Container τ) : Prop where
  same : after = { c with tier := after.tier }
  noWorse : NoWorse c.tier after.tier

theorem SameSegments.trans (h : SameSegments c middle) (hafter : SameSegments middle after) :
    SameSegments c after where
  same := by
    rw [hafter.same, h.same]
  noWorse := h.noWorse.trans hafter.noWorse

theorem SameSegments.of_tier (c : Container τ) {tier : τ} (h : NoWorse c.tier tier) :
    SameSegments c { c with tier } where
  same := rfl
  noWorse := h

theorem SameSegments.table_eq (h : SameSegments c after) : after.table = c.table := by
  rw [h.same]

theorem SameSegments.held_eq (h : SameSegments c after) :
    after.held = { c.held with tier := after.held.tier } := by
  rw [h.same]
  rfl

theorem concatObjects_ends {c made : Container τ} {target source : String} {data : Bytes}
    (hne : target ≠ source) (hmade : SameSegments c made)
    (htouched : c.held.tier.Touched source made.held.tier)
    (hobject : made.held.tier.object? source = some data) :
    Ends (onTier (Tier.concat target source)) made
      (fun length after =>
        length = (c.held.tier.bytes target ++ c.held.tier.bytes source).length ∧
        c.held.tier.Joined target source after.held.tier ∧ SameSegments c after)
      (fun _ after => c.held.tier.Stopped (JoinsBreak c.tier) target source after.held.tier ∧
        SameSegments c after ∧ CallsFail c.tier) := by
  have htarget := htouched.bytes_eq target
  have hsource := htouched.bytes_eq source
  have hdata := FlakyTier.bytes_of_object? hobject
  refine onTier_ends ((LawfulTier.concat_ends hobject hne).mono ?_ ?_)
  · intro length tier hjoin
    rcases hjoin with ⟨⟨hlength, hjoined⟩, hworse⟩
    refine ⟨?_, ?_, hmade.trans (.of_tier made hworse)⟩
    · rw [← htarget, ← hsource, hdata]
      exact hlength
    · refine { target_eq := ?_, source_eq := hjoined.source_eq, other_eq := ?_ }
      · rw [← htarget, ← hsource]
        exact hjoined.target_eq
      · intro name htargetne hsourcene
        exact (hjoined.other_eq htargetne hsourcene).trans (htouched.object?_of_ne hsourcene)
  · intro _ tier hstop
    rcases hstop with ⟨hstop, hworse, hfails⟩
    refine ⟨⟨made.held.tier, htouched, ?_⟩, hmade.trans (.of_tier made hworse),
      hmade.noWorse.calls hfails⟩
    rw [← htarget, ← hsource, hdata]
    exact hstop.imp_right fun hadded => ⟨hmade.noWorse.joins hadded.1, hadded.2⟩

theorem joinMade_ends (c : Container τ) {target source : String} (hne : target ≠ source) :
    Ends (joinMade target source ((c.held.tier.object? source).map (·.length))) c
      (fun length after =>
        length = (c.held.tier.bytes target ++ c.held.tier.bytes source).length ∧
        c.held.tier.Joined target source after.held.tier ∧ SameSegments c after)
      (fun _ after => c.held.tier.Stopped (JoinsBreak c.tier) target source after.held.tier ∧
        SameSegments c after ∧ CallsFail c.tier) := by
  unfold joinMade
  cases hobject : c.held.tier.object? source with
  | some data =>
      simp only [Option.map_some, Option.isNone_some, Bool.false_eq_true, if_false]
      exact concatObjects_ends hne (.of_tier c (NoWorse.refl _)) (Or.inl rfl) hobject
  | none =>
      have hempty : c.held.tier.bytes source = [] := FlakyTier.bytes_of_missing hobject
      simp only [Option.map_none, Option.isNone_none, if_true]
      refine Ends.bind (Ends.discard (onTier_ends ((LawfulTier.write_ends c.tier source 0
        []).mono ?_ ?_)))
      · intro _ tier hwrite
        rcases hwrite with ⟨⟨-, -, hsets⟩, hworse, -⟩
        have hmade := hsets.object?_self
        rw [List.append_nil] at hsets
        exact concatObjects_ends hne (.of_tier c hworse) (Or.inr hsets) hmade
      · intro _ tier hwrite
        rcases hwrite with ⟨htouched, hworse, hfails⟩
        refine ⟨⟨TierView.held tier, htouched, Or.inl rfl⟩, .of_tier c hworse, ?_⟩
        exact LawfulTier.callsFail_of_writesFail (hfails (congrArg List.length hempty))

theorem joinObjects_of_found (c : Container τ) (target : MergeTarget)
    {answered : Nat → Container τ → Prop} {failed : Error → Container τ → Prop}
    (hlooked : ∀ e {looked : Container τ}, SameSegments c looked →
      looked.held.tier.object? = c.held.tier.object? → CallsFail c.tier → failed e looked)
    (hfound : ∀ {looked : Container τ}, SameSegments c looked →
      looked.held.tier.object? = c.held.tier.object? →
      Ends (joinFound target
          ((looked.held.tier.object? target.batchName).map (·.length))
          ((looked.held.tier.object? target.parentName).map (·.length)))
        looked answered failed) :
    Ends (joinObjects target) c answered failed := by
  rw [joinObjects_eq]
  refine Ends.bind (onTier_ends ((LawfulTier.length_ends c.tier target.batchName).mono ?_ ?_))
  · intro batch tier hbatch
    rcases hbatch with ⟨hsame, hworse, rfl⟩
    have hfirst := SameSegments.of_tier c hworse
    refine Ends.bind (onTier_ends ((LawfulTier.length_ends tier target.parentName).mono ?_ ?_))
    · intro parent tier' hparent
      rcases hparent with ⟨hsame', hworse', rfl⟩
      have hnext := hfound (hfirst.trans (.of_tier { c with tier } hworse')) (hsame'.trans hsame)
      rw [← hsame, ← hsame']
      exact hnext
    · intro e tier' hparent
      rcases hparent with ⟨hsame', hworse', hfails⟩
      exact hlooked _ (hfirst.trans (.of_tier { c with tier } hworse')) (hsame'.trans hsame)
        (hworse.calls hfails)
  · intro e tier hbatch
    exact hlooked _ (.of_tier c hbatch.2.1) hbatch.1 hbatch.2.2

theorem SameSegments.sound (h : SameSegments c after) (hc : c.held.Sound content)
    (hstored : c.table.StoredIn content after.held.tier) : after.held.Sound content := by
  rw [h.held_eq]
  exact hc.with_tier hstored

/-- An object that is long enough stays as it is, and that of the batch is dropped. -/
theorem joinFound_of_reached (c : Container τ) {data : Bytes}
    (hreached : target.merge.stop ≤ data.length) :
    Ends (joinFound target ((c.held.tier.object? target.batchName).map (·.length))
        (some data.length)) c
      (fun length after => length = data.length ∧
        c.held.tier.Sets target.batchName none after.held.tier ∧ SameSegments c after)
      (fun _ after => after.held.tier.object? = c.held.tier.object? ∧ SameSegments c after ∧
        CallsFail c.tier) := by
  rw [joinFound_of_le target _ hreached]
  cases hbatch : c.held.tier.object? target.batchName with
  | none =>
      exact Ends.pure ⟨rfl, ⟨hbatch, fun _ => rfl⟩, .of_tier c (NoWorse.refl _)⟩
  | some batch =>
      refine Ends.bind (onTier_ends ((LawfulTier.delete_ends hbatch).mono ?_ ?_))
      · intro _ tier hdeleted
        exact Ends.pure ⟨rfl, hdeleted.1, .of_tier c hdeleted.2⟩
      · intro _ tier hfailed
        exact ⟨hfailed.1, .of_tier c hfailed.2.1, hfailed.2.2⟩

/-- The object of the parent ends behind the batch, and that of the batch is gone. -/
structure Joint (content : Contents) (target : MergeTarget) (s b : Segment)
    (c after : Container τ) : Prop where
  segments : SameSegments c after
  starts : after.held.tier.bytes s.name <+: content target.parent
  length_eq : (after.held.tier.bytes s.name).length = target.merge.stop
  gone : after.held.tier.object? b.name = none
  others : ∀ {name}, name ≠ s.name → name ≠ b.name →
    after.held.tier.object? name = c.held.tier.object? name

/--
The object of the parent ends before the batch, or behind it if joins can break off,
and all other bytes are kept.
-/
structure Halted (broken : Prop) (content : Contents) (target : MergeTarget) (s : Segment)
    (c after : Container τ) : Prop where
  segments : SameSegments c after
  sound : after.held.Sound content
  length_eq : (after.held.tier.bytes s.name).length = target.merge.offset ∨
    broken ∧ (after.held.tier.bytes s.name).length = target.merge.stop
  others : ∀ {name}, name ≠ s.name → after.held.tier.bytes name = c.held.tier.bytes name

theorem Joint.of_joined (h : c.held.Sound content) (hready : c.table.Ready target s b rest)
    (hlength : (c.held.tier.bytes s.name).length = target.merge.offset)
    (hjoined : c.held.tier.Joined s.name b.name after.held.tier)
    (hsegments : SameSegments c after) : Joint content target s b c after := by
  rcases Table.Ready.joined_prefix (c := c.held) hready h hlength with ⟨hlonger, hstop⟩
  have hbytes := FlakyTier.bytes_of_object? hjoined.target_eq
  refine { segments := hsegments, starts := ?_, length_eq := ?_, gone := hjoined.source_eq,
           others := fun hs hb => hjoined.other_eq hs hb }
  · rw [hbytes]
    exact hlonger
  · rw [hbytes]
    exact hstop

theorem Joint.of_dropped (h : c.held.Sound content) (hready : c.table.Ready target s b rest)
    (hlength : (c.held.tier.bytes s.name).length = target.merge.stop)
    (hdropped : c.held.tier.Sets b.name none after.held.tier)
    (hsegments : SameSegments c after) : Joint content target s b c after := by
  have hbytes := hdropped.bytes_of_ne (Table.Ready.name_ne (c := c.held) hready h)
  refine { segments := hsegments, starts := ?_, length_eq := ?_, gone := hdropped.object?_self,
           others := fun _ hb => hdropped.object?_of_ne hb }
  · rw [hbytes]
    exact h.stored.starts hready.parent
  · rw [hbytes]
    exact hlength

theorem Halted.of_same (h : c.held.Sound content)
    (hlength : (c.held.tier.bytes s.name).length = target.merge.offset ∨
      broken ∧ (c.held.tier.bytes s.name).length = target.merge.stop)
    (hsame : after.held.tier.object? = c.held.tier.object?) (hsegments : SameSegments c after) :
    Halted broken content target s c after := by
  have hbytes : ∀ name, after.held.tier.bytes name = c.held.tier.bytes name := by
    intro name
    exact FlakyTier.bytes_of_object?_eq (congrFun hsame name)
  refine { segments := hsegments, sound := hsegments.sound h (h.stored.of_same hsame),
           length_eq := ?_, others := fun _ => hbytes _ }
  rw [hbytes]
  exact hlength

theorem Halted.of_stopped (h : c.held.Sound content) (hready : c.table.Ready target s b rest)
    (hlength : (c.held.tier.bytes s.name).length = target.merge.offset)
    (hjoins : JoinsBreak c.tier → broken)
    (hstopped : c.held.tier.Stopped (JoinsBreak c.tier) s.name b.name after.held.tier)
    (hsegments : SameSegments c after) : Halted broken content target s c after := by
  rcases Table.Ready.joined_prefix (c := c.held) hready h hlength with ⟨hlonger, hstop⟩
  rcases hstopped with ⟨made, htouched, hsame | ⟨hbreak, hsets⟩⟩
  · have hbytes : ∀ name, after.held.tier.bytes name = c.held.tier.bytes name := by
      intro name
      rw [← htouched.bytes_eq name]
      exact FlakyTier.bytes_of_object?_eq (congrFun hsame name)
    refine { segments := hsegments, sound := hsegments.sound h ?_, length_eq := ?_,
             others := fun _ => hbytes _ }
    · exact (h.stored.touched h.wellFormed hready.batch htouched).of_same hsame
    · rw [hbytes]
      exact Or.inl hlength
  · refine { segments := hsegments, sound := hsegments.sound h ?_, length_eq := ?_, others := ?_ }
    · refine (h.stored.touched h.wellFormed hready.batch htouched).sets h.wellFormed hready.parent
        ?_ hlonger hsets
      rw [htouched.bytes_eq]
      exact List.prefix_append _ _
    · rw [hsets.bytes_self]
      exact Or.inr ⟨hjoins hbreak, hstop⟩
    · intro name hne
      rw [hsets.bytes_of_ne hne, htouched.bytes_eq]

theorem joinFound_ends (h : c.held.Sound content) (hready : c.table.Ready target s b rest)
    (hlength : (c.held.tier.bytes s.name).length = target.merge.offset ∨
      broken ∧ (c.held.tier.bytes s.name).length = target.merge.stop)
    (hjoins : JoinsBreak c.tier → broken) :
    Ends (joinFound target ((c.held.tier.object? target.batchName).map (·.length))
        ((c.held.tier.object? target.parentName).map (·.length))) c
      (fun length after => length = target.merge.stop ∧ Joint content target s b c after)
      (fun _ after => Halted broken content target s c after ∧ CallsFail c.tier) := by
  have hoffset : target.merge.offset ≤ target.merge.stop := Nat.le_add_right _ _
  have hmade : (c.held.tier.bytes s.name).length = target.merge.offset →
      Ends (joinMade target.parentName target.batchName
          ((c.held.tier.object? target.batchName).map (·.length))) c
        (fun length after => length = target.merge.stop ∧ Joint content target s b c after)
        (fun _ after => Halted broken content target s c after ∧ CallsFail c.tier) := by
    intro hbefore
    rw [← hready.parentName, ← hready.batchName]
    have hstop := (Table.Ready.joined_prefix (c := c.held) hready h hbefore).2
    refine (joinMade_ends c (Table.Ready.name_ne (c := c.held) hready h)).mono ?_ ?_
    · intro length after hafter
      rcases hafter with ⟨heq, hjoined, hsegments⟩
      exact ⟨heq.trans hstop, .of_joined h hready hbefore hjoined hsegments⟩
    · intro _ after hafter
      exact ⟨.of_stopped h hready hbefore hjoins hafter.1 hafter.2.1, hafter.2.2⟩
  cases hobject : c.held.tier.object? target.parentName with
  | none =>
      have hbytes : (c.held.tier.bytes s.name).length = 0 := by
        rw [hready.parentName, FlakyTier.bytes_of_missing hobject]
        rfl
      exact hmade (by omega)
  | some data =>
      have hdata : c.held.tier.bytes s.name = data := by
        rw [hready.parentName]
        exact FlakyTier.bytes_of_object? hobject
      rw [hdata] at hlength hmade
      by_cases hreached : target.merge.stop ≤ data.length
      · have hbehind : data.length = target.merge.stop := by omega
        refine (joinFound_of_reached c hreached).mono ?_ ?_
        · intro length after hafter
          rcases hafter with ⟨heq, hdropped, hsegments⟩
          rw [← hready.batchName] at hdropped
          refine ⟨heq.trans hbehind, .of_dropped h hready ?_ hdropped hsegments⟩
          rw [hdata]
          exact hbehind
        · intro _ after hafter
          refine ⟨.of_same h ?_ hafter.1 hafter.2.1, hafter.2.2⟩
          rw [hdata]
          exact hlength
      · rw [Option.map_some, joinFound_of_lt target _ (Nat.not_le.mp hreached)]
        exact hmade (by omega)

theorem joinObjects_ends (h : c.held.Sound content) (hready : c.table.Ready target s b rest)
    (hlength : (c.held.tier.bytes s.name).length = target.merge.offset ∨
      broken ∧ (c.held.tier.bytes s.name).length = target.merge.stop)
    (hjoins : JoinsBreak c.tier → broken) :
    Ends (joinObjects target) c
      (fun length after => length = target.merge.stop ∧ Joint content target s b c after)
      (fun _ after => Halted broken content target s c after ∧ CallsFail c.tier) := by
  refine joinObjects_of_found c target ?_ ?_
  · intro _ looked hlooked hsame hfails
    exact ⟨.of_same h hlength hsame hlooked, hfails⟩
  · intro looked hlooked hsame
    have hstart : Halted broken content target s c looked := .of_same h hlength hsame hlooked
    have hready' : looked.table.Ready target s b rest := by
      rw [hlooked.table_eq]
      exact hready
    refine (joinFound_ends hstart.sound hready' hstart.length_eq fun hbreak =>
      hjoins (hlooked.noWorse.joins hbreak)).mono ?_ ?_
    · intro length after hafter
      rcases hafter with ⟨heq, hjoint⟩
      refine ⟨heq, { hjoint with segments := hlooked.trans hjoint.segments, others := ?_ }⟩
      intro name hs hb
      rw [hjoint.others hs hb, hsame]
    · intro _ after hafter
      rcases hafter with ⟨hhalted, hfails⟩
      refine ⟨{ hhalted with segments := hlooked.trans hhalted.segments, others := ?_ },
        hlooked.noWorse.calls hfails⟩
      intro name hs
      rw [hhalted.others hs, hstart.others hs]

/-! ## Finishing the merge -/

/-- The merge is finished, and only the objects of its parent and of its batch have changed. -/
structure Finished (content : Contents) (target : MergeTarget) (s b : Segment)
    (c after : Container τ) : Prop where
  sound : after.held.Sound content
  table_eq : after.table = c.table.joined target.parent target.merge
  length_eq : (after.held.tier.bytes s.name).length = target.merge.stop
  others : ∀ {name}, name ≠ s.name → name ≠ b.name →
    after.held.tier.object? name = c.held.tier.object? name
  noWorse : NoWorse c.tier after.tier

theorem Finished.keeps (h : Finished content target s b c after) (hc : c.held.Sound content)
    (hready : c.table.Ready target s b rest) {other : MergeTarget} {s' b' : Segment}
    {rest' : List PendingMerge} (hother : c.table.Ready other s' b' rest')
    (hne : other.parent ≠ target.parent) :
    after.table.Ready other s' b' rest' ∧
      after.held.tier.bytes s'.name = c.held.tier.bytes s'.name ∧
      after.held.tier.bytes b'.name = c.held.tier.bytes b'.name := by
  rcases Table.Ready.names_apart (c := c.held) hother hready hc hne with ⟨hparent, hbatch⟩
  refine ⟨?_, ?_, ?_⟩
  · rw [h.table_eq]
    exact hother.joined hready hc.consistent hne
  · exact congrArg (·.getD []) (h.others hparent.1 hparent.2)
  · exact congrArg (·.getD []) (h.others hbatch.1 hbatch.2)

theorem carryOut_ends (h : c.held.Sound content) (hready : c.table.Ready target s b rest)
    (hlength : (c.held.tier.bytes s.name).length = target.merge.offset ∨
      broken ∧ (c.held.tier.bytes s.name).length = target.merge.stop)
    (hjoins : JoinsBreak c.tier → broken) :
    Ends (carryOut target) c (fun _ after => Finished content target s b c after)
      (fun _ after => Halted broken content target s c after ∧ CallsFail c.tier) := by
  unfold carryOut
  refine Ends.bind ((joinObjects_ends h hready hlength hjoins).mono ?_ ?_)
  · intro length after hafter
    rcases hafter with ⟨heq, hjoint⟩
    rw [if_neg (not_not_intro heq)]
    have htable := hjoint.segments.table_eq
    have hs : after.table.get? target.parent = some s := by
      rw [htable]
      exact hready.parent
    have hb : after.table.get? target.merge.batch = some b := by
      rw [htable]
      exact hready.batch
    have hbefore : Sound content { after.held with tier := c.held.tier } := by
      rw [hjoint.segments.held_eq]
      exact h
    have hsound := hbefore.finishMerge (c := after.held) hs hready.pending hb hjoint.starts
      (Nat.le_of_eq hjoint.length_eq.symm) hjoint.gone fun hsn hbn => hjoint.others hsn hbn
    have hheld := held_finishMerge (c := after) hs hready.pending
    refine Ends.modified { sound := ?_, table_eq := ?_, length_eq := ?_, others := ?_,
                           noWorse := ?_ }
    · rw [hheld]
      exact hsound
    · rw [finishMerge_eq hs hready.pending, htable]
    · rw [finishMerge_eq hs hready.pending]
      exact hjoint.length_eq
    · rw [finishMerge_eq hs hready.pending]
      exact fun hsn hbn => hjoint.others hsn hbn
    · rw [finishMerge_eq hs hready.pending]
      exact hjoint.segments.noWorse
  · intro _ after hafter
    exact hafter

end Container
end TieredStore
