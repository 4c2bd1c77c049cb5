import TieredStore.Proofs.Tier.Reading

/-!
# Calls that fail in memory

A call of the tier in memory that fails leaves the objects as they are, with one
exception: a write to an object that is not there, at any offset but zero, makes an
empty object before it is refused.
-/

namespace TieredStore

/-! ## Calls -/

inductive TierCall
  | read (name : String) (offset length : Nat)
  | write (name : String) (offset : Nat) (data : Bytes)
  | concat (target source : String)
  | length (name : String)
  | delete (name : String)

inductive TierAnswer
  | bytes (data : Bytes)
  | length (length : Nat)
  | found (length : Option Nat)
  | done
  deriving DecidableEq

def TierAnswer.ending {τ α : Type} (answer : α → TierAnswer) :
    EStateM.Result MediumError τ α → Except MediumError TierAnswer × τ
  | .ok a after => (.ok (answer a), after)
  | .error e after => (.error e, after)

def TierCall.outcome {τ : Type} (calls : Tier τ) (tier : τ) :
    TierCall → Except MediumError TierAnswer × τ
  | .read name offset count => TierAnswer.ending .bytes ((calls.read name offset count).run tier)
  | .write name offset data => TierAnswer.ending .length ((calls.write name offset data).run tier)
  | .concat target source => TierAnswer.ending .length ((calls.concat target source).run tier)
  | .length name => TierAnswer.ending .found ((calls.length name).run tier)
  | .delete name => TierAnswer.ending (fun _ => .done) ((calls.delete name).run tier)

namespace MemoryTier

variable {tier : MemoryTier} {name source : String} {offset : Nat} {call : TierCall}
  {e : MediumError}

@[reducible] def calls : Tier MemoryTier := inferInstance

def bytes (tier : MemoryTier) (name : String) : Bytes := (tier.contents? name).getD []

def stored (tier : MemoryTier) (name : String) (bytes : Bytes) : MemoryTier :=
  { tier with objects := tier.objects.set name bytes }

def dropped (tier : MemoryTier) (name : String) : MemoryTier :=
  { tier with objects := tier.objects.erase name }

theorem contents?_stored (tier : MemoryTier) (name other : String) (bytes : Bytes) :
    (tier.stored name bytes).contents? other =
      if other = name then some bytes else tier.contents? other := by
  by_cases h : other = name
  · rw [if_pos h, h]
    exact NameMap.get?_set_self _ _ _
  · rw [if_neg h]
    exact NameMap.get?_set_of_ne _ h _

theorem contents?_dropped (tier : MemoryTier) (name other : String) :
    (tier.dropped name).contents? other = if other = name then none else tier.contents? other :=
  NameMap.get?_erase _ _ _

theorem bytes_of_contents? {data : Bytes} (h : tier.contents? name = some data) :
    tier.bytes name = data := by
  unfold bytes
  rw [h]
  rfl

theorem bytes_of_missing (h : tier.contents? name = none) : tier.bytes name = [] := by
  unfold bytes
  rw [h]
  rfl

/-! ## What each call does -/

theorem outcome_read_missing (h : tier.contents? name = none) (offset length : Nat) :
    (TierCall.read name offset length).outcome calls tier =
      (.error (.notFound name), { tier with reads := tier.reads + 1 }) := by
  show TierAnswer.ending _ ((read name offset length).run tier) = _
  rw [run_read, h]
  rfl

theorem outcome_read_short {data : Bytes} {length : Nat} (h : tier.contents? name = some data)
    (hshort : data.length < offset + length) :
    (TierCall.read name offset length).outcome calls tier =
      (.error (.readPastEnd offset length data.length), { tier with reads := tier.reads + 1 }) := by
  show TierAnswer.ending _ ((read name offset length).run tier) = _
  rw [run_read, h]
  simp only
  rw [if_pos hshort]
  rfl

theorem outcome_read_found {data : Bytes} {length : Nat} (h : tier.contents? name = some data)
    (hstop : ¬ data.length < offset + length) :
    (TierCall.read name offset length).outcome calls tier =
      (.ok (.bytes (data.slice offset length)), { tier with reads := tier.reads + 1 }) := by
  show TierAnswer.ending _ ((read name offset length).run tier) = _
  rw [run_read, h]
  simp only
  rw [if_neg hstop]
  rfl

theorem outcome_write_at_end (h : (tier.bytes name).length = offset) (data : Bytes) :
    (TierCall.write name offset data).outcome calls tier =
      (.ok (.length (offset + data.length)),
        (tier.stored name (tier.bytes name)).stored name (tier.bytes name ++ data)) := by
  subst h
  show TierAnswer.ending _ ((write name _ data).run tier) = _
  unfold write
  rw [EStateM.run_bind, EStateM.run_get]
  show TierAnswer.ending _ (EStateM.run
    (if (tier.bytes name).length ≠ (tier.bytes name).length then _ else _) _) = _
  rw [if_neg (fun hne => hne rfl)]
  rfl

theorem outcome_write_elsewhere (h : (tier.bytes name).length ≠ offset) (data : Bytes) :
    (TierCall.write name offset data).outcome calls tier =
      (.error (.invalidOffset name (tier.bytes name).length offset),
        tier.stored name (tier.bytes name)) := by
  show TierAnswer.ending _ ((write name offset data).run tier) = _
  unfold write
  rw [EStateM.run_bind, EStateM.run_get]
  show TierAnswer.ending _ (EStateM.run (if (tier.bytes name).length ≠ offset then _ else _) _) = _
  rw [if_pos h]
  rfl

theorem outcome_concat_missing (h : tier.contents? source = none) (target : String) :
    (TierCall.concat target source).outcome calls tier = (.error (.notFound source), tier) := by
  show TierAnswer.ending _ ((concat target source).run tier) = _
  unfold concat
  rw [EStateM.run_bind, EStateM.run_get]
  simp only [h]
  rfl

theorem outcome_concat_found {data : Bytes} (h : tier.contents? source = some data)
    (target : String) :
    (TierCall.concat target source).outcome calls tier =
      (.ok (.length ((tier.dropped source).bytes target ++ data).length),
        (tier.dropped source).stored target ((tier.dropped source).bytes target ++ data)) := by
  show TierAnswer.ending _ ((concat target source).run tier) = _
  unfold concat
  rw [EStateM.run_bind, EStateM.run_get]
  simp only [h]
  rfl

theorem outcome_length (tier : MemoryTier) (name : String) :
    (TierCall.length name).outcome calls tier =
      (.ok (.found ((tier.contents? name).map (·.length))), tier) := rfl

theorem outcome_delete_missing (h : tier.contents? name = none) :
    (TierCall.delete name).outcome calls tier = (.error (.notFound name), tier) := by
  have hnone : ¬ tier.objects.contains name = true := by
    show ¬ (tier.contents? name).isSome = true
    rw [h]
    exact Bool.false_ne_true
  show TierAnswer.ending _ ((delete name).run tier) = _
  unfold delete
  rw [EStateM.run_bind, EStateM.run_get]
  simp only
  rw [if_neg hnone]
  rfl

theorem outcome_delete_found {data : Bytes} (h : tier.contents? name = some data) :
    (TierCall.delete name).outcome calls tier = (.ok .done, tier.dropped name) := by
  have hsome : tier.objects.contains name = true := by
    show (tier.contents? name).isSome = true
    rw [h]
    rfl
  show TierAnswer.ending _ ((delete name).run tier) = _
  unfold delete
  rw [EStateM.run_bind, EStateM.run_get]
  simp only
  rw [if_pos hsome]
  rfl

/-! ## Failures -/

/-- A call that fails either keeps the objects, or it is a write at a wrong offset. -/
theorem kept_or_written (h : (call.outcome calls tier).1 = .error e) :
    (call.outcome calls tier).2.objects = tier.objects ∨
      ∃ name offset data, call = .write name offset data ∧
        e = .invalidOffset name (tier.bytes name).length offset ∧
        (call.outcome calls tier).2 = tier.stored name (tier.bytes name) := by
  cases call with
  | read name offset length =>
      apply Or.inl
      cases hname : tier.contents? name with
      | none => rw [outcome_read_missing hname]
      | some data =>
          by_cases hshort : data.length < offset + length
          · rw [outcome_read_short hname hshort]
          · rw [outcome_read_found hname hshort]
  | write name offset data =>
      by_cases hend : (tier.bytes name).length = offset
      · rw [outcome_write_at_end hend] at h
        cases h
      · rw [outcome_write_elsewhere hend] at h ⊢
        cases h
        exact Or.inr ⟨name, offset, data, rfl, rfl, rfl⟩
  | concat target source =>
      cases hsource : tier.contents? source with
      | none =>
          rw [outcome_concat_missing hsource]
          exact Or.inl rfl
      | some data =>
          rw [outcome_concat_found hsource] at h
          cases h
  | length name =>
      rw [outcome_length] at h
      cases h
  | delete name =>
      cases hname : tier.contents? name with
      | none =>
          rw [outcome_delete_missing hname]
          exact Or.inl rfl
      | some data =>
          rw [outcome_delete_found hname] at h
          cases h

theorem contents?_stored_bytes (tier : MemoryTier) (name other : String) :
    (tier.stored name (tier.bytes name)).contents? other =
      if other = name ∧ tier.contents? name = none then some [] else tier.contents? other := by
  rw [contents?_stored]
  by_cases hother : other = name
  · subst hother
    rw [if_pos rfl]
    cases hname : tier.contents? other with
    | none => rw [bytes_of_missing hname, if_pos ⟨rfl, rfl⟩]
    | some data => rw [bytes_of_contents? hname, if_neg (fun h => nomatch h.2)]
  · rw [if_neg hother, if_neg (fun h => hother h.1)]

def WritesMissing (tier : MemoryTier) (call : TierCall) : Prop :=
  ∃ name offset data, call = .write name offset data ∧ tier.contents? name = none

theorem contents?_of_failed (h : (call.outcome calls tier).1 = .error e) (other : String) :
    (call.outcome calls tier).2.contents? other = tier.contents? other ∨
      tier.contents? other = none ∧ (call.outcome calls tier).2.contents? other = some [] ∧
        ∃ offset data, call = .write other offset data ∧ e = .invalidOffset other 0 offset := by
  rcases kept_or_written h with hkept | ⟨name, offset, data, hcall, he, hafter⟩
  · unfold contents?
    rw [hkept]
    exact Or.inl rfl
  · rw [hafter, contents?_stored_bytes]
    split
    · rename_i hmissing
      rcases hmissing with ⟨rfl, hnone⟩
      rw [bytes_of_missing hnone] at he
      exact Or.inr ⟨hnone, rfl, offset, data, hcall, he⟩
    · exact Or.inl rfl

/-- An empty object is made wherever a failed write finds none. -/
theorem made_of_writesMissing (h : (call.outcome calls tier).1 = .error e)
    (hmissing : tier.WritesMissing call) :
    ∃ name, tier.contents? name = none ∧
      (call.outcome calls tier).2.contents? name = some [] := by
  rcases hmissing with ⟨name, offset, data, rfl, hnone⟩
  by_cases hend : (tier.bytes name).length = offset
  · rw [outcome_write_at_end hend] at h
    cases h
  · exists name
    constructor
    · exact hnone
    · rw [outcome_write_elsewhere hend]
      show (tier.stored name (tier.bytes name)).contents? name = some []
      rw [contents?_stored_bytes, if_pos ⟨rfl, hnone⟩]

theorem kept_of_not_writesMissing (h : (call.outcome calls tier).1 = .error e)
    (hfound : ¬ tier.WritesMissing call) (other : String) :
    (call.outcome calls tier).2.contents? other = tier.contents? other := by
  rcases contents?_of_failed h other with hkept | ⟨hnone, -, offset, data, hcall, -⟩
  · exact hkept
  · exact absurd ⟨other, offset, data, hcall, hnone⟩ hfound

/--
A call that fails leaves every object as it is, and every length the same, iff it is not a
write to an object that is not there.  Such a write makes the object, with no bytes, and
leaves all others; no object is ever lost or changed.
-/
theorem failed_call_keeps_iff (h : (call.outcome calls tier).1 = .error e) :
    ((∀ name, (call.outcome calls tier).2.contents? name = tier.contents? name) ↔
      ¬ tier.WritesMissing call) ∧
    ((∀ name, ((TierCall.length name).outcome calls (call.outcome calls tier).2).1 =
        ((TierCall.length name).outcome calls tier).1) ↔ ¬ tier.WritesMissing call) ∧
    (∀ name bytes, tier.contents? name = some bytes →
      (call.outcome calls tier).2.contents? name = some bytes) ∧
    ∀ name, (call.outcome calls tier).2.contents? name = tier.contents? name ∨
      tier.contents? name = none ∧ (call.outcome calls tier).2.contents? name = some [] ∧
        ∃ offset data, call = .write name offset data ∧ e = .invalidOffset name 0 offset := by
  refine ⟨⟨?_, kept_of_not_writesMissing h⟩, ⟨?_, ?_⟩, ?_, contents?_of_failed h⟩
  · intro hkept hmissing
    rcases made_of_writesMissing h hmissing with ⟨name, hnone, hmade⟩
    rw [hkept name, hnone] at hmade
    cases hmade
  · intro hkept hmissing
    rcases made_of_writesMissing h hmissing with ⟨name, hnone, hmade⟩
    have hsame := hkept name
    rw [outcome_length, outcome_length, hnone, hmade] at hsame
    cases hsame
  · intro hfound name
    rw [outcome_length, outcome_length, kept_of_not_writesMissing h hfound name]
  · intro name bytes hname
    rcases contents?_of_failed h name with hkept | ⟨hnone, -⟩
    · rw [hkept, hname]
    · rw [hname] at hnone
      cases hnone

private def oneObject : MemoryTier := { objects := { entries := [("s", [97, 98])] } }

theorem failed_call_keeps_iff_written :
    ((TierCall.write "s" 1 [99]).outcome calls oneObject).1 =
      .error (.invalidOffset "s" 2 1) ∧
    ((TierCall.write "s" 1 [99]).outcome calls oneObject).2.contents? "s" = some [97, 98] := by
  have hfails : ((TierCall.write "s" 1 [99]).outcome calls oneObject).1 =
      .error (.invalidOffset "s" 2 1) := rfl
  exact ⟨hfails, (failed_call_keeps_iff hfails).2.2.1 "s" [97, 98] rfl⟩

/-- A write behind the end of nothing is refused and leaves an empty object. -/
theorem failed_write_makes_object :
    ((TierCall.write "s" 1 [97]).outcome calls {}).1 = .error (.invalidOffset "s" 0 1) ∧
      ({} : MemoryTier).contents? "s" = none ∧
      ((TierCall.write "s" 1 [97]).outcome calls {}).2.contents? "s" = some [] :=
  ⟨rfl, rfl, rfl⟩

end MemoryTier
end TieredStore
