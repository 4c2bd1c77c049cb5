import TieredStore.Proofs.Tier.Objects
import TieredStore.Proofs.Twins

/-!
# What a tier gives

A read gives a range of an object, if reads work and the object has the range, and it only
counts.  So what the tier gives for a request is the same as long as the objects are.
-/

namespace TieredStore

theorem MemoryTier.run_read (tier : MemoryTier) (name : String) (offset length : Nat) :
    (read name offset length).run tier =
      match tier.contents? name with
      | none => .error (.notFound name) { tier with reads := tier.reads + 1 }
      | some bytes =>
          if bytes.length < offset + length then
            .error (.readPastEnd offset length bytes.length) { tier with reads := tier.reads + 1 }
          else .ok (bytes.slice offset length) { tier with reads := tier.reads + 1 } := by
  let counted : MemoryTier := { tier with reads := tier.reads + 1 }
  unfold read
  rw [EStateM.run_bind]
  show EStateM.run (get >>= fun tier : MemoryTier => match tier.contents? name with
    | none => _
    | some bytes => _) counted = _
  rw [EStateM.run_bind, EStateM.run_get]
  show EStateM.run (match counted.contents? name with | none => _ | some bytes => _) counted = _
  rw [show counted.contents? name = tier.contents? name from rfl]
  cases tier.contents? name with
  | none => rfl
  | some bytes =>
      simp only
      split
      · rfl
      · rfl

namespace FlakyTier

open Container (readSource)

variable {tier : FlakyTier} {name : String} {request : FetchRequest} {bytes : Bytes}

def counted (tier : FlakyTier) : FlakyTier :=
  { tier with inner := { tier.inner with reads := tier.inner.reads + 1 } }

theorem same_counted (tier : FlakyTier) : Same tier tier.counted := ⟨rfl, rfl, rfl⟩

theorem run_inside {α : Type} (call : TierM MemoryTier α) (tier : FlakyTier) :
    (inside call).run tier = match call.run tier.inner with
      | .ok a inner => .ok a { tier with inner }
      | .error e inner => .error e { tier with inner } := rfl

theorem run_read (tier : FlakyTier) (name : String) (offset length : Nat) :
    (Tier.read name offset length).run tier =
      if tier.failReads = true then .error (.failed .tierReadFailed) tier
      else match tier.object? name with
        | none => .error (.notFound name) tier.counted
        | some bytes =>
            if bytes.length < offset + length then
              .error (.readPastEnd offset length bytes.length) tier.counted
            else .ok (bytes.slice offset length) tier.counted := by
  show EStateM.run (read name offset length) tier = _
  unfold read
  rw [EStateM.run_bind, EStateM.run_get]
  simp only
  by_cases hfails : tier.failReads = true
  · rw [if_pos hfails, if_pos hfails]
    rfl
  · rw [if_neg hfails, if_neg hfails]
    rw [run_inside, MemoryTier.run_read]
    unfold object?
    cases tier.inner.contents? name with
    | none => rfl
    | some bytes =>
        by_cases hshort : bytes.length < offset + length
        · simp only [if_pos hshort]
          rfl
        · simp only [if_neg hshort]
          rfl

/-- What a read gives does not depend on how many there were. -/
theorem read_twins {other : FlakyTier} (h : Same tier other) (name : String)
    (offset length : Nat) :
    Twins (Tier.read name offset length) (Tier.read name offset length) tier other
      (fun data after data' last => data = data' ∧ Same after last)
      (fun e after e' last => e = e' ∧ Same after last) := by
  have hcounted : Same tier.counted other.counted := ⟨h.object?_eq, h.failReads_eq,
    h.interruptConcat_eq⟩
  unfold Twins
  rw [run_read, run_read, h.failReads_eq, h.object?_eq]
  by_cases hfails : tier.failReads = true
  · simp only [if_pos hfails]
    exact ⟨trivial, h⟩
  · simp only [if_neg hfails]
    cases tier.object? name with
    | none => exact ⟨rfl, hcounted⟩
    | some bytes =>
        by_cases hshort : bytes.length < offset + length
        · simp only [if_pos hshort]
          exact ⟨trivial, hcounted⟩
        · simp only [if_neg hshort]
          exact ⟨trivial, hcounted⟩

theorem read_of_object? (hreads : tier.failReads = false) (hobject : tier.object? name = some bytes)
    {offset length : Nat} (hstop : offset + length ≤ bytes.length) :
    ∃ after, (Tier.read name offset length).run tier = .ok (bytes.slice offset length) after ∧
      Same tier after := by
  refine ⟨tier.counted, ?_, tier.same_counted⟩
  rw [run_read, if_neg (by rw [hreads]; exact Bool.false_ne_true), hobject]
  exact if_neg (Nat.not_lt.mpr hstop)

theorem read_of_missing (hreads : tier.failReads = false) (hobject : tier.object? name = none)
    (offset length : Nat) :
    ∃ after, (Tier.read name offset length).run tier = .error (.notFound name) after ∧
      Same tier after := by
  refine ⟨tier.counted, ?_, tier.same_counted⟩
  rw [run_read, if_neg (by rw [hreads]; exact Bool.false_ne_true), hobject]

theorem read_of_short (hreads : tier.failReads = false) (hobject : tier.object? name = some bytes)
    {offset length : Nat} (hshort : bytes.length < offset + length) :
    ∃ after, (Tier.read name offset length).run tier =
        .error (.readPastEnd offset length bytes.length) after ∧ Same tier after := by
  refine ⟨tier.counted, ?_, tier.same_counted⟩
  rw [run_read, if_neg (by rw [hreads]; exact Bool.false_ne_true), hobject]
  exact if_pos hshort

/-! ## Requests -/

theorem readSource_of_missing {n : String} {after : FlakyTier}
    (hread : (Tier.read request.sourceName request.sourceOffset request.length).run tier =
      .error (.notFound n) after) :
    (readSource request).run tier = match request.fallback with
      | some (parent, offset) => (Tier.read parent offset request.length).run after
      | none => .error (.notFound n) after := by
  unfold readSource
  simp only [EStateM.run] at hread ⊢
  cases request.fallback with
  | none => rw [hread]
  | some place => rw [hread]

theorem readSource_twins {other : FlakyTier} (h : Same tier other) (request : FetchRequest) :
    Twins (readSource request) (readSource request) tier other
      (fun data after data' last => data = data' ∧ Same after last)
      (fun e after e' last => e = e' ∧ Same after last) := by
  have hread := read_twins h request.sourceName request.sourceOffset request.length
  rcases hread.cases with ⟨data, after, _, last, hrun, hrun', rfl, hsame⟩ |
    ⟨e, after, _, last, hrun, hrun', rfl, hsame⟩
  · exact .of_ok (readSource_of_ok hrun) (readSource_of_ok hrun') ⟨rfl, hsame⟩
  · by_cases hmissing : ∃ n, e = .notFound n
    · rcases hmissing with ⟨n, rfl⟩
      have hfirst := readSource_of_missing hrun
      have hsecond := readSource_of_missing hrun'
      cases hfallback : request.fallback with
      | none =>
          rw [hfallback] at hfirst hsecond
          exact .of_error hfirst hsecond ⟨rfl, hsame⟩
      | some place =>
          rw [hfallback] at hfirst hsecond
          have hparent := read_twins hsame place.1 place.2 request.length
          unfold Twins at hparent ⊢
          rw [hfirst, hsecond]
          exact hparent
    · exact .of_error (readSource_of_error hrun hmissing) (readSource_of_error hrun' hmissing)
        ⟨rfl, hsame⟩

def Gives (tier : FlakyTier) (request : FetchRequest) (data : Bytes) : Prop :=
  ∃ after, (readSource request).run tier = .ok data after

theorem Gives.length_le {data : Bytes} (h : tier.Gives request data) :
    data.length ≤ request.length := by
  rcases h with ⟨after, hrun⟩
  exact ((readSource_same tier request).ok hrun).2

theorem Gives.of_same {data : Bytes} (h : tier.Gives request data) {other : FlakyTier}
    (hsame : Same tier other) : other.Gives request data := by
  rcases h with ⟨after, hrun⟩
  rcases (readSource_twins hsame request).cases with ⟨found, _, _, last, hfound, hlast, rfl, -⟩ |
    ⟨e, _, _, _, hfailed, -⟩
  · rw [hrun] at hfound
    cases hfound
    exact ⟨last, hlast⟩
  · rw [hrun] at hfailed
    cases hfailed

end FlakyTier
end TieredStore
