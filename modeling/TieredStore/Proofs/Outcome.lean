/-!
# Where a call ends

A call with a state ends in an answer or in a failure, and in a state either way.
What holds then is said with one condition for answers and one for failures, and
is carried through a program along its binds, so that every part of a program is
described once and used by its description.
-/

namespace TieredStore

theorem ok_bind {ε α β : Type} (a : α) (next : α → Except ε β) :
    (Except.ok a >>= next) = next a := rfl

theorem error_bind {ε α β : Type} (e : ε) (next : α → Except ε β) :
    (Except.error e >>= next) = .error e := rfl

theorem ok_of_toOption {ε α : Type} {result : Except ε α} {value : α}
    (h : result.toOption = some value) : result = .ok value := by
  cases result with
  | error e => cases h
  | ok found =>
      cases h
      rfl

theorem run_discard {ε σ α : Type} (call : EStateM ε σ α) (s : σ) :
    (discard call).run s = match call.run s with
      | .ok _ after => .ok ⟨⟩ after
      | .error e after => .error e after := by
  unfold discard
  simp only [Functor.mapConst, Function.comp, EStateM.run, EStateM.map]
  rfl

/-- After `call` has run, `answered` holds if it succeeded and `failed` if it did not. -/
def Ends {ε σ α : Type} (call : EStateM ε σ α) (before : σ) (answered : α → σ → Prop)
    (failed : ε → σ → Prop) : Prop :=
  match call.run before with
  | .ok a after => answered a after
  | .error e after => failed e after

namespace Ends

variable {ε σ α β : Type} {answered : α → σ → Prop} {failed : ε → σ → Prop} {s : σ}

theorem of_ok {call : EStateM ε σ α} {a : α} {after : σ} (h : call.run s = .ok a after)
    (ha : answered a after) : Ends call s answered failed := by
  rw [Ends, h]
  exact ha

theorem of_error {call : EStateM ε σ α} {e : ε} {after : σ} (h : call.run s = .error e after)
    (he : failed e after) : Ends call s answered failed := by
  rw [Ends, h]
  exact he

theorem ok {call : EStateM ε σ α} (h : Ends call s answered failed) {a : α} {after : σ}
    (hrun : call.run s = .ok a after) : answered a after := by
  rwa [Ends, hrun] at h

theorem error {call : EStateM ε σ α} (h : Ends call s answered failed) {e : ε} {after : σ}
    (hrun : call.run s = .error e after) : failed e after := by
  rwa [Ends, hrun] at h

theorem of_run {call : EStateM ε σ α}
    (hok : ∀ a after, call.run s = .ok a after → answered a after)
    (herror : ∀ e after, call.run s = .error e after → failed e after) :
    Ends call s answered failed := by
  cases hrun : call.run s with
  | ok a after => exact of_ok hrun (hok a after hrun)
  | error e after => exact of_error hrun (herror e after hrun)

/-- What holds of both ends of a call holds of the one that it comes to. -/
@[elab_as_elim]
theorem elim {call : EStateM ε σ α} {motive : EStateM.Result ε σ α → Prop}
    (result : EStateM.Result ε σ α) (hrun : call.run s = result)
    (h : Ends call s (fun a after => motive (.ok a after)) fun e after => motive (.error e after)) :
    motive result := by
  cases hresult : result with
  | ok a after => exact h.ok (hrun.trans hresult)
  | error e after => exact h.error (hrun.trans hresult)

theorem exists_ok {call : EStateM ε σ α} (h : Ends call s answered fun _ _ => False) :
    ∃ a after, call.run s = .ok a after ∧ answered a after := by
  cases hrun : call.run s with
  | ok a after => exact ⟨a, after, rfl, h.ok hrun⟩
  | error e after => exact (h.error hrun).elim

theorem exists_error {call : EStateM ε σ α} (h : Ends call s (fun _ _ => False) failed) :
    ∃ e after, call.run s = .error e after ∧ failed e after := by
  cases hrun : call.run s with
  | ok a after => exact (h.ok hrun).elim
  | error e after => exact ⟨e, after, rfl, h.error hrun⟩

theorem mono {call : EStateM ε σ α} {answered' : α → σ → Prop} {failed' : ε → σ → Prop}
    (h : Ends call s answered failed) (hanswered : ∀ a after, answered a after → answered' a after)
    (hfailed : ∀ e after, failed e after → failed' e after) : Ends call s answered' failed' :=
  of_run (fun a after hrun => hanswered a after (h.ok hrun))
    fun e after hrun => hfailed e after (h.error hrun)

theorem and {call : EStateM ε σ α} {answered' : α → σ → Prop} {failed' : ε → σ → Prop}
    (h : Ends call s answered failed) (h' : Ends call s answered' failed') :
    Ends call s (fun a after => answered a after ∧ answered' a after)
      (fun e after => failed e after ∧ failed' e after) :=
  of_run (fun _ _ hrun => ⟨h.ok hrun, h'.ok hrun⟩) fun _ _ hrun => ⟨h.error hrun, h'.error hrun⟩

theorem always {call : EStateM ε σ α} {P : Prop} (h : P) :
    Ends call s (fun _ _ => P) (fun _ _ => True) :=
  of_run (fun _ _ _ => h) fun _ _ _ => trivial

/-!
## Programs
-/

theorem pure {a : α} (h : answered a s) : Ends (Pure.pure a) s answered failed := h

theorem throw {e : ε} (h : failed e s) :
    Ends (MonadExcept.throw e : EStateM ε σ α) s answered failed := h

theorem bind {call : EStateM ε σ β} {next : β → EStateM ε σ α}
    (h : Ends call s (fun b after => Ends (next b) after answered failed) failed) :
    Ends (call >>= next) s answered failed := by
  unfold Ends
  rw [EStateM.run_bind]
  exact elim (call.run s) rfl h

theorem discard {call : EStateM ε σ α} {answered : PUnit → σ → Prop}
    (h : Ends call s (fun _ after => answered ⟨⟩ after) failed) :
    Ends (Functor.discard call) s answered failed := by
  unfold Ends
  rw [run_discard]
  exact elim (call.run s) rfl h

theorem get {next : σ → EStateM ε σ α} (h : Ends (next s) s answered failed) :
    Ends (MonadState.get >>= next) s answered failed := h

theorem set {after : σ} {next : PUnit → EStateM ε σ α}
    (h : Ends (next ⟨⟩) after answered failed) :
    Ends (MonadStateOf.set after >>= next) s answered failed := h

theorem modifying {change : σ → σ} {next : PUnit → EStateM ε σ α}
    (h : Ends (next ⟨⟩) (change s) answered failed) :
    Ends (modify change >>= next) s answered failed := h

theorem modified {change : σ → σ} {answered : PUnit → σ → Prop} (h : answered ⟨⟩ (change s)) :
    Ends (modify change) s answered failed := h

theorem bind_always {call : EStateM ε σ β} {next : β → EStateM ε σ α}
    (h : ∀ b after, Ends (next b) after answered fun _ _ => True) :
    Ends (call >>= next) s answered fun _ _ => True :=
  bind ((always h).mono (fun b after hall => hall b after) fun _ _ _ => trivial)

end Ends
end TieredStore
