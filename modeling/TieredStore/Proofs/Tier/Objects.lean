import TieredStore.Container.Lookup
import TieredStore.Proofs.Outcome
import TieredStore.Proofs.Slices
import TieredStore.Store.Fetch
import TieredStore.Tier.Flaky

/-!
# The objects of a flaky tier

What a tier is to its callers are its objects.  Each call is described by what it
does to them, whether or not it succeeds: a write and a join can fail and change
nothing, a write at a wrong offset can leave an empty object behind, and a join
can break off after it has added the bytes.
-/

namespace TieredStore
namespace FlakyTier

def object? (tier : FlakyTier) (name : String) : Option Bytes := tier.inner.contents? name

def bytes (tier : FlakyTier) (name : String) : Bytes := (tier.object? name).getD []

/-- The same objects are there, and reads work as before. -/
structure Same (tier after : FlakyTier) : Prop where
  object?_eq : after.object? = tier.object?
  failReads_eq : after.failReads = tier.failReads
  interruptConcat_eq : after.interruptConcat = tier.interruptConcat

/-- Only what is behind the switches has changed. -/
def Within (tier after : FlakyTier) : Prop := ∃ inner, after = { tier with inner }

/-- One object was replaced or dropped. -/
structure Sets (tier : FlakyTier) (name : String) (value : Option Bytes) (after : FlakyTier) :
    Prop where
  object?_self : after.object? name = value
  object?_of_ne : ∀ {other}, other ≠ name → after.object? other = tier.object? other

/-- No bytes have changed; at most an empty object has been made. -/
def Touched (tier : FlakyTier) (name : String) (after : FlakyTier) : Prop :=
  after.object? = tier.object? ∨ tier.Sets name (some (tier.bytes name)) after

variable {tier after last : FlakyTier} {name : String}

theorem Within.refl (tier : FlakyTier) : tier.Within tier := ⟨tier.inner, rfl⟩

theorem Within.trans (h : tier.Within after) (hlast : after.Within last) : tier.Within last := by
  rcases h with ⟨inner, rfl⟩
  exact hlast

theorem Within.failReads_eq (h : tier.Within after) : after.failReads = tier.failReads := by
  rcases h with ⟨inner, rfl⟩
  rfl

theorem Within.failWrites_eq (h : tier.Within after) : after.failWrites = tier.failWrites := by
  rcases h with ⟨inner, rfl⟩
  rfl

theorem Within.interruptConcat_eq (h : tier.Within after) :
    after.interruptConcat = tier.interruptConcat := by
  rcases h with ⟨inner, rfl⟩
  rfl

theorem Same.refl (tier : FlakyTier) : Same tier tier := ⟨rfl, rfl, rfl⟩

theorem Same.symm (h : Same tier after) : Same after tier :=
  ⟨h.object?_eq.symm, h.failReads_eq.symm, h.interruptConcat_eq.symm⟩

theorem Same.trans (h : Same tier after) (hlast : Same after last) : Same tier last where
  object?_eq := hlast.object?_eq.trans h.object?_eq
  failReads_eq := hlast.failReads_eq.trans h.failReads_eq
  interruptConcat_eq := hlast.interruptConcat_eq.trans h.interruptConcat_eq

theorem bytes_of_object? {bytes : Bytes} (h : tier.object? name = some bytes) :
    tier.bytes name = bytes := by
  unfold FlakyTier.bytes
  rw [h]
  rfl

theorem bytes_of_missing (h : tier.object? name = none) : tier.bytes name = [] := by
  unfold FlakyTier.bytes
  rw [h]
  rfl

theorem bytes_of_object?_eq (h : after.object? name = tier.object? name) :
    after.bytes name = tier.bytes name := by
  unfold FlakyTier.bytes
  rw [h]

theorem exists_object?_of_lt {offset : Nat} (h : offset < (tier.bytes name).length) :
    ∃ data, tier.object? name = some data := by
  cases hobject : tier.object? name with
  | none =>
      rw [bytes_of_missing hobject] at h
      exact absurd h (Nat.not_lt_zero _)
  | some data => exact ⟨data, rfl⟩

theorem getD_length_object? (tier : FlakyTier) (name : String) :
    ((tier.object? name).map (·.length)).getD 0 = (tier.bytes name).length := by
  cases h : tier.object? name with
  | none =>
      rw [bytes_of_missing h]
      rfl
  | some data =>
      rw [bytes_of_object? h]
      rfl

theorem Sets.bytes_self {value : Bytes} (h : tier.Sets name (some value) after) :
    after.bytes name = value :=
  bytes_of_object? h.object?_self

theorem Sets.bytes_of_ne {value : Option Bytes} (h : tier.Sets name value after) {other : String}
    (hne : other ≠ name) : after.bytes other = tier.bytes other :=
  bytes_of_object?_eq (h.object?_of_ne hne)

theorem Touched.bytes_eq (h : tier.Touched name after) (other : String) :
    after.bytes other = tier.bytes other := by
  rcases h with hsame | hsets
  · exact bytes_of_object?_eq (congrFun hsame other)
  · by_cases hother : other = name
    · rw [hother, hsets.bytes_self]
    · exact hsets.bytes_of_ne hother

theorem Touched.object?_of_ne (h : tier.Touched name after) {other : String} (hne : other ≠ name) :
    after.object? other = tier.object? other := by
  rcases h with hsame | hsets
  · rw [hsame]
  · exact hsets.object?_of_ne hne

theorem sets_set (tier : FlakyTier) (name : String) (value : Bytes) :
    tier.Sets name (some value)
      { tier with inner := { tier.inner with objects := tier.inner.objects.set name value } } where
  object?_self := NameMap.get?_set_self _ _ _
  object?_of_ne := fun hne => NameMap.get?_set_of_ne _ hne _

theorem sets_erase (tier : FlakyTier) (name : String) :
    tier.Sets name none
      { tier with inner := { tier.inner with objects := tier.inner.objects.erase name } } where
  object?_self := by
    show NameMap.get? _ _ = _
    rw [NameMap.get?_erase, if_pos rfl]
  object?_of_ne := by
    intro other hne
    show NameMap.get? _ _ = _
    rw [NameMap.get?_erase, if_neg hne]
    rfl

theorem Sets.trans {value value' : Option Bytes} (h : tier.Sets name value after)
    (hlast : after.Sets name value' last) : tier.Sets name value' last where
  object?_self := hlast.object?_self
  object?_of_ne := fun hne => (hlast.object?_of_ne hne).trans (h.object?_of_ne hne)

/-!
## Calls
-/

theorem inside_ends {α : Type} {call : TierM MemoryTier α} {answered : α → FlakyTier → Prop}
    {failed : MediumError → FlakyTier → Prop}
    (h : Ends call tier.inner (fun a inner => answered a { tier with inner })
      (fun e inner => failed e { tier with inner })) :
    Ends (inside call) tier answered failed := by
  unfold Ends EStateM.run inside
  exact Ends.elim (call tier.inner) rfl h

theorem length_ends (tier : FlakyTier) (name : String) :
    Ends (Tier.length name) tier
      (fun found after => after = tier ∧ found = (tier.object? name).map (·.length))
      (fun _ _ => False) :=
  ⟨rfl, rfl⟩

theorem delete_ends {bytes : Bytes} (h : tier.object? name = some bytes) :
    Ends (Tier.delete name) tier (fun _ after => tier.Sets name none after ∧ tier.Within after)
      (fun _ _ => False) := by
  refine inside_ends ?_
  unfold MemoryTier.delete
  refine Ends.get ?_
  have hcontains : tier.inner.objects.contains name = true := by
    unfold NameMap.contains
    rw [show tier.inner.objects.get? name = some bytes from h]
    rfl
  rw [if_pos hcontains]
  exact Ends.modified ⟨sets_erase tier name, ⟨_, rfl⟩⟩

theorem store_ends (tier : FlakyTier) (name : String) (value : Bytes) :
    Ends (MemoryTier.store name value) tier.inner
      (fun _ inner => tier.Sets name (some value) { tier with inner }) (fun _ _ => False) :=
  sets_set tier name value

theorem inner_write_ends (tier : FlakyTier) (name : String) (offset : Nat) (data : Bytes) :
    Ends (MemoryTier.write name offset data) tier.inner
      (fun length inner => (tier.bytes name).length = offset ∧ length = offset + data.length ∧
        tier.Sets name (some (tier.bytes name ++ data)) { tier with inner })
      (fun e inner => (tier.bytes name).length ≠ offset ∧
        e = .invalidOffset name (tier.bytes name).length offset ∧
        tier.Sets name (some (tier.bytes name)) { tier with inner }) := by
  unfold MemoryTier.write
  refine Ends.get ?_
  extract_lets found
  have hfound : found = tier.bytes name := rfl
  rw [hfound]
  refine Ends.bind ((store_ends tier name (tier.bytes name)).mono ?_ ?_)
  · intro _ inner hsets
    by_cases hlength : (tier.bytes name).length = offset
    · rw [if_neg (not_not_intro hlength)]
      refine Ends.bind ((store_ends { tier with inner } name (tier.bytes name ++ data)).mono ?_ ?_)
      · intro _ inner' hsets'
        exact Ends.pure ⟨hlength, by rw [hlength], hsets.trans hsets'⟩
      · intro _ _ hfalse
        exact hfalse.elim
    · rw [if_pos hlength]
      exact Ends.throw ⟨hlength, rfl, hsets⟩
  · intro _ _ hfalse
    exact hfalse.elim

theorem write_ends (tier : FlakyTier) (name : String) (offset : Nat) (data : Bytes) :
    Ends (Tier.write name offset data) tier
      (fun length after => ((tier.bytes name).length = offset ∧ length = offset + data.length ∧
        tier.Sets name (some (tier.bytes name ++ data)) after) ∧ tier.failWrites = false ∧
        tier.Within after)
      (fun e after => (tier.failWrites = true ∧ after = tier) ∨
        (((tier.bytes name).length ≠ offset ∧
          e = .invalidOffset name (tier.bytes name).length offset ∧
          tier.Sets name (some (tier.bytes name)) after) ∧ tier.Within after)) := by
  show Ends (write name offset data) tier _ _
  unfold write
  refine Ends.get ?_
  by_cases hfail : tier.failWrites = true
  · rw [if_pos hfail]
    exact Ends.throw (Or.inl ⟨hfail, rfl⟩)
  · rw [if_neg hfail]
    refine inside_ends ((inner_write_ends tier name offset data).mono ?_ ?_)
    · intro _ inner h
      exact ⟨h, Bool.eq_false_iff.mpr hfail, inner, rfl⟩
    · intro _ inner h
      exact Or.inr ⟨h, inner, rfl⟩

/-- The target has got the bytes of the source, and the source is gone. -/
structure Joined (tier : FlakyTier) (target source : String) (after : FlakyTier) : Prop where
  target_eq : after.object? target = some (tier.bytes target ++ tier.bytes source)
  source_eq : after.object? source = none
  other_eq : ∀ {other}, other ≠ target → other ≠ source → after.object? other = tier.object? other

theorem addCopy_ends {target source : String} {data : Bytes}
    (hsource : tier.object? source = some data) :
    Ends (addCopy target source) tier.inner
      (fun _ inner => tier.Sets target (some (tier.bytes target ++ data)) { tier with inner })
      (fun _ _ => False) := by
  unfold addCopy
  refine Ends.get ?_
  rw [show tier.inner.contents? source = some data from hsource]
  refine Ends.bind (Ends.of_ok (a := (tier.object? target).map (·.length)) rfl ?_)
  refine Ends.discard ((inner_write_ends tier target _ data).mono ?_ ?_)
  · intro _ _ h
    exact h.2.2
  · intro _ _ h
    exact h.1 (tier.getD_length_object? target).symm

theorem inner_concat_ends {target source : String} {data : Bytes}
    (hsource : tier.object? source = some data) (hne : target ≠ source) :
    Ends (MemoryTier.concat target source) tier.inner
      (fun length inner => length = (tier.bytes target ++ data).length ∧
        tier.Joined target source { tier with inner })
      (fun _ _ => False) := by
  unfold MemoryTier.concat
  refine Ends.get ?_
  rw [show tier.inner.contents? source = some data from hsource]
  refine Ends.modifying (Ends.get ?_)
  extract_lets joined
  let without : FlakyTier :=
    { tier with inner := { tier.inner with objects := tier.inner.objects.erase source } }
  have herase : tier.Sets source none without := sets_erase tier source
  have hjoined : joined = tier.bytes target ++ data := by
    show without.bytes target ++ data = _
    rw [herase.bytes_of_ne hne]
  refine Ends.bind ((store_ends without target joined).mono ?_ ?_)
  · intro _ inner hsets
    rw [hjoined] at hsets
    refine Ends.pure ⟨by rw [hjoined], ?_⟩
    refine { target_eq := ?_, source_eq := ?_, other_eq := ?_ }
    · rw [bytes_of_object? hsource]
      exact hsets.object?_self
    · exact (hsets.object?_of_ne hne.symm).trans herase.object?_self
    · intro other htarget hother
      exact (hsets.object?_of_ne htarget).trans (herase.object?_of_ne hother)
  · intro _ _ hfalse
    exact hfalse

/-- A join that fails has changed nothing, or has added the bytes and kept the source. -/
theorem concat_ends {target source : String} {data : Bytes}
    (hsource : tier.object? source = some data) (hne : target ≠ source) :
    Ends (Tier.concat target source) tier
      (fun length after => (length = (tier.bytes target ++ data).length ∧
        tier.Joined target source after) ∧ tier.Within after)
      (fun _ after => (tier.failWrites = true ∧ after = tier) ∨
        (tier.Sets target (some (tier.bytes target ++ data)) after ∧
          tier.interruptConcat = true ∧ tier.Within after)) := by
  show Ends (concat target source) tier _ _
  unfold concat
  refine Ends.get ?_
  by_cases hfail : tier.failWrites = true
  · rw [if_pos hfail]
    exact Ends.throw (Or.inl ⟨hfail, rfl⟩)
  · rw [if_neg hfail]
    refine Ends.get ?_
    by_cases hinterrupt : tier.interruptConcat = true
    · rw [if_pos hinterrupt]
      refine Ends.bind (inside_ends ((addCopy_ends hsource).mono ?_ ?_))
      · intro _ inner h
        exact Ends.throw (Or.inr ⟨h, hinterrupt, inner, rfl⟩)
      · intro _ _ hfalse
        exact hfalse.elim
    · rw [if_neg hinterrupt]
      refine inside_ends ((inner_concat_ends hsource hne).mono ?_ ?_)
      · intro _ inner h
        exact ⟨h, inner, rfl⟩
      · intro _ _ hfalse
        exact hfalse.elim

theorem read_ends (tier : FlakyTier) (name : String) (offset length : Nat) :
    Ends (Tier.read name offset length) tier
      (fun data after => Same tier after ∧
        ∃ bytes, tier.object? name = some bytes ∧ data = bytes.slice offset length)
      (fun e after => Same tier after ∧ ((∃ n, e = .notFound n) → tier.object? name = none) ∧
        (tier.failReads = true ∨ ∀ bytes, tier.object? name = some bytes →
          bytes.length < offset + length)) := by
  show Ends (read name offset length) tier _ _
  unfold read
  refine Ends.get ?_
  by_cases hfail : tier.failReads = true
  · rw [if_pos hfail]
    refine Ends.throw ⟨Same.refl tier, ?_, Or.inl hfail⟩
    intro hnotFound
    rcases hnotFound with ⟨n, heq⟩
    cases heq
  · rw [if_neg hfail]
    refine inside_ends ?_
    unfold MemoryTier.read
    refine Ends.modifying (Ends.get ?_)
    let counted : FlakyTier :=
      { tier with inner := { tier.inner with reads := tier.inner.reads + 1 } }
    have hsame : Same tier counted := ⟨rfl, rfl, rfl⟩
    cases hobject : tier.object? name with
    | none =>
        rw [show MemoryTier.contents? counted.inner name = none from hobject]
        refine Ends.throw ⟨hsame, fun _ => rfl, Or.inr ?_⟩
        intro bytes hbytes
        cases hbytes
    | some bytes =>
        rw [show MemoryTier.contents? counted.inner name = some bytes from hobject]
        by_cases hshort : bytes.length < offset + length
        · simp only
          rw [if_pos hshort]
          refine Ends.throw ⟨hsame, ?_, Or.inr ?_⟩
          · intro hnotFound
            rcases hnotFound with ⟨n, heq⟩
            cases heq
          · intro bytes' hbytes
            cases hbytes
            exact hshort
        · simp only
          rw [if_neg hshort]
          exact Ends.pure ⟨hsame, bytes, rfl, rfl⟩

/-!
## Fetches
-/

open Container

variable {request : FetchRequest}

theorem readSource_of_ok {data : Bytes}
    (h : (Tier.read request.sourceName request.sourceOffset request.length).run tier =
      .ok data after) : (readSource request).run tier = .ok data after := by
  unfold readSource
  simp only [EStateM.run] at h ⊢
  rw [h]

theorem readSource_of_error {e : MediumError}
    (h : (Tier.read request.sourceName request.sourceOffset request.length).run tier =
      .error e after) (hfound : ¬ ∃ n, e = .notFound n) :
    (readSource request).run tier = .error e after := by
  unfold readSource
  simp only [EStateM.run] at h ⊢
  rw [h]
  cases e with
  | notFound n => exact absurd ⟨n, rfl⟩ hfound
  | _ => rfl

theorem readSource_ends {bytes : Bytes} (hobject : tier.object? request.sourceName = some bytes)
    (hrange : request.sourceOffset + request.length ≤ bytes.length) :
    Ends (readSource request) tier
      (fun data after => Same tier after ∧
        data = bytes.slice request.sourceOffset request.length)
      (fun _ after => Same tier after ∧ tier.failReads = true) := by
  have hread := read_ends tier request.sourceName request.sourceOffset request.length
  cases hrun : (Tier.read request.sourceName request.sourceOffset request.length).run tier with
  | ok data after =>
      rcases hread.ok hrun with ⟨hsame, found, hfound, hdata⟩
      rw [hobject] at hfound
      cases hfound
      exact Ends.of_ok (readSource_of_ok hrun) ⟨hsame, hdata⟩
  | error e after =>
      rcases hread.error hrun with ⟨hsame, hnotFound, hcause⟩
      refine Ends.of_error (readSource_of_error hrun ?_) ⟨hsame, ?_⟩
      · intro hmissing
        rw [hnotFound hmissing] at hobject
        cases hobject
      · rcases hcause with hfail | hshort
        · exact hfail
        · exact absurd hrange (Nat.not_le.mpr (hshort bytes hobject))

/-- A fetch leaves the objects as they are and gives no more bytes than were asked for. -/
theorem readSource_same (tier : FlakyTier) (request : FetchRequest) :
    Ends (readSource request) tier
      (fun data after => Same tier after ∧ data.length ≤ request.length)
      (fun _ after => Same tier after) := by
  have hread := read_ends tier request.sourceName request.sourceOffset request.length
  cases hrun : (Tier.read request.sourceName request.sourceOffset request.length).run tier with
  | ok data after =>
      rcases hread.ok hrun with ⟨hsame, bytes, -, hdata⟩
      refine Ends.of_ok (readSource_of_ok hrun) ⟨hsame, ?_⟩
      rw [hdata, Bytes.length_slice]
      exact Nat.min_le_left _ _
  | error e after =>
      have hsame := (hread.error hrun).1
      by_cases hmissing : ∃ n, e = .notFound n
      · rcases hmissing with ⟨n, heq⟩
        subst heq
        cases hfallback : request.fallback with
        | none =>
            have hmissed : (readSource request).run tier = .error (.notFound n) after := by
              unfold readSource
              simp only [EStateM.run] at hrun ⊢
              rw [hrun]
              simp only [hfallback]
            exact Ends.of_error hmissed hsame
        | some place =>
            have hfound : (readSource request).run tier =
                (Tier.read place.1 place.2 request.length).run after := by
              unfold readSource
              simp only [EStateM.run] at hrun ⊢
              rw [hrun]
              simp only [hfallback]
            have hparent := read_ends after place.1 place.2 request.length
            unfold Ends at hparent ⊢
            rw [hfound]
            split at hparent
            · rcases hparent with ⟨hafter, bytes, -, hdata⟩
              refine ⟨hsame.trans hafter, ?_⟩
              rw [hdata, Bytes.length_slice]
              exact Nat.min_le_left _ _
            · exact hsame.trans hparent.1
      · exact Ends.of_error (readSource_of_error hrun hmissing) hsame

theorem runOrphans_same (tier : FlakyTier) (orphans : List FetchRequest) :
    Same tier (runOrphans tier orphans) := by
  induction orphans generalizing tier with
  | nil => exact Same.refl tier
  | cons request rest ih =>
      have hread := readSource_same tier request
      unfold runOrphans at ih ⊢
      rw [List.foldl_cons]
      cases hrun : (readSource request).run tier with
      | ok data after => exact (hread.ok hrun).1.trans (ih after)
      | error e after => exact (hread.error hrun).trans (ih after)

end FlakyTier
end TieredStore
