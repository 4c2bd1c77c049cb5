import TieredStore.Error
import TieredStore.Proofs.Outcome

/-!
# Failures for want of bytes

Two failures say that bytes of a segment are neither in the cache nor in the tier:
one of a flush, which finds nothing to copy, and one of a look-up.  A program that
fails in other ways only is built from parts that do.
-/

namespace TieredStore

/-- The failure says that bytes are neither in the cache nor in the tier. -/
def Error.MissesBytes : Error → Prop
  | .misuse (.bytesNowhere ..) => True
  | .misuse (.unflushedNotCached ..) => True
  | _ => False

def Delivers {α : Type} (result : Except Error α) : Prop :=
  ∀ e, result = .error e → ¬ e.MissesBytes

/--
Wherever the call ends, its state is related to the one before it; and it does not
fail for want of bytes.
-/
def Carries {σ α : Type} (rel : σ → σ → Prop) (call : EStateM Error σ α) (s : σ) : Prop :=
  Ends call s (fun _ after => rel s after) (fun e after => rel s after ∧ ¬ e.MissesBytes)

def NeverMisses {σ α : Type} (call : EStateM Error σ α) : Prop :=
  ∀ s, Ends call s (fun _ _ => True) (fun e _ => ¬ e.MissesBytes)

namespace Delivers

variable {α β : Type}

theorem ok (a : α) : Delivers (.ok a) := nofun

theorem error {e : Error} (h : ¬ e.MissesBytes) : Delivers (.error e : Except Error α) := by
  intro e' heq
  cases heq
  exact h

theorem bind {result : Except Error α} {next : α → Except Error β} (h : Delivers result)
    (hnext : ∀ a, Delivers (next a)) : Delivers (result >>= next) := by
  cases result with
  | ok a => exact hnext a
  | error e => exact error (h e rfl)

theorem foldlM {f : β → α → Except Error β} (list : List α) (b : β)
    (h : ∀ b, ∀ a ∈ list, Delivers (f b a)) : Delivers (list.foldlM f b) := by
  induction list generalizing b with
  | nil => exact ok b
  | cons a rest ih =>
      rw [List.foldlM_cons]
      refine bind (h b a List.mem_cons_self) fun b' => ih b' fun b'' a' ha' => ?_
      exact h b'' a' (List.mem_cons_of_mem _ ha')

end Delivers

/-! ## Relations that are carried -/

namespace Carries

variable {σ α β : Type} {rel : σ → σ → Prop} {s : σ}

theorem get {next : σ → EStateM Error σ α} (h : Carries rel (next s) s) :
    Carries rel (MonadState.get >>= next) s := Ends.get h

theorem modified {change : σ → σ} (h : rel s (change s)) : Carries rel (modify change) s :=
  Ends.modified h

theorem discard {call : EStateM Error σ α} (h : Carries rel call s) :
    Carries rel (Functor.discard call) s := Ends.discard h

section Refl

variable [Std.Refl rel]

theorem pure (a : α) (s : σ) : Carries rel (Pure.pure a) s := Ends.pure (Std.Refl.refl s)

theorem throw {e : Error} (h : ¬ e.MissesBytes) (s : σ) :
    Carries rel (MonadExcept.throw e : EStateM Error σ α) s := Ends.throw ⟨Std.Refl.refl s, h⟩

end Refl

section Trans

variable [Trans rel rel rel]

theorem after {call : EStateM Error σ α} {middle : σ} (hrel : rel s middle)
    (h : Carries rel call middle) :
    Ends call middle (fun _ last => rel s last) (fun e last => rel s last ∧ ¬ e.MissesBytes) := by
  refine h.mono ?_ ?_
  · intro _ last hlast
    exact Trans.trans hrel hlast
  · intro _ last hlast
    exact ⟨Trans.trans hrel hlast.1, hlast.2⟩

theorem bind {call : EStateM Error σ β} {next : β → EStateM Error σ α}
    {answered : β → σ → Prop} {failed : Error → σ → Prop} (h : Carries rel call s)
    (hends : Ends call s answered failed)
    (hnext : ∀ {b after}, answered b after → Carries rel (next b) after) :
    Carries rel (call >>= next) s := by
  refine Ends.bind ((h.and hends).mono ?_ ?_)
  · intro b middle hmiddle
    exact (hnext hmiddle.2).after hmiddle.1
  · intro _ middle hmiddle
    exact hmiddle.1

theorem bind_any {call : EStateM Error σ β} {next : β → EStateM Error σ α} (h : Carries rel call s)
    (hnext : ∀ b after, Carries rel (next b) after) : Carries rel (call >>= next) s :=
  h.bind h fun {b after} _ => hnext b after

theorem modifying {change : σ → σ} {next : PUnit → EStateM Error σ α} (hchange : rel s (change s))
    (h : Carries rel (next ⟨⟩) (change s)) : Carries rel (modify change >>= next) s :=
  Ends.modifying (h.after hchange)

theorem forM [Std.Refl rel] {f : α → EStateM Error σ PUnit} (list : List α)
    (h : ∀ a s, Carries rel (f a) s) (s : σ) : Carries rel (list.forM f) s := by
  induction list generalizing s with
  | nil => exact pure _ s
  | cons a rest ih => exact bind_any (h a s) fun _ after => ih after

end Trans

end Carries

namespace NeverMisses

variable {σ α β : Type}

theorem pure (a : α) : NeverMisses (Pure.pure a : EStateM Error σ α) := fun _ => Ends.pure trivial

theorem throw {e : Error} (h : ¬ e.MissesBytes) :
    NeverMisses (MonadExcept.throw e : EStateM Error σ α) := fun _ => Ends.throw h

theorem bind {call : EStateM Error σ β} {next : β → EStateM Error σ α} (h : NeverMisses call)
    (hnext : ∀ b, NeverMisses (next b)) : NeverMisses (call >>= next) := by
  intro s
  refine Ends.bind ((h s).mono ?_ fun _ _ he => he)
  intro b after _
  exact hnext b after

theorem get {next : σ → EStateM Error σ α} (h : ∀ s, NeverMisses (next s)) :
    NeverMisses (MonadState.get >>= next) := fun s => Ends.get (h s s)

theorem modified {change : σ → σ} : NeverMisses (modify change : EStateM Error σ PUnit) :=
  fun _ => Ends.modified trivial

theorem discard {call : EStateM Error σ α} (h : NeverMisses call) :
    NeverMisses (Functor.discard call) :=
  fun s => Ends.discard ((h s).mono (fun _ _ _ => trivial) fun _ _ he => he)

theorem forM {f : α → EStateM Error σ PUnit} (list : List α) (h : ∀ a ∈ list, NeverMisses (f a)) :
    NeverMisses (list.forM f) := by
  induction list with
  | nil => exact pure _
  | cons a rest ih =>
      exact bind (h a List.mem_cons_self) fun _ => ih fun b hb => h b (List.mem_cons_of_mem _ hb)

end NeverMisses
end TieredStore
