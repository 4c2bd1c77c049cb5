import TieredStore.Proofs.Outcome

/-!
# Twin runs

Two calls from two states are compared by where they end: both answer or both
fail, and what is then said relates the two answers or failures and the two
states.  A program is compared with itself from other states along its binds, so
that only its smallest parts have to be looked into.
-/

namespace TieredStore

/-- Both calls answer and `answered` relates how, or both fail and `failed` does. -/
def Twins {ε ε' σ σ' α α' : Type} (call : EStateM ε σ α) (call' : EStateM ε' σ' α') (s : σ)
    (s' : σ') (answered : α → σ → α' → σ' → Prop) (failed : ε → σ → ε' → σ' → Prop) : Prop :=
  match call.run s, call'.run s' with
  | .ok a after, .ok a' after' => answered a after a' after'
  | .error e after, .error e' after' => failed e after e' after'
  | _, _ => False

namespace Twins

variable {ε ε' σ σ' α α' β β' : Type} {call : EStateM ε σ α} {call' : EStateM ε' σ' α'} {s : σ}
  {s' : σ'} {answered : α → σ → α' → σ' → Prop} {failed : ε → σ → ε' → σ' → Prop}

theorem of_ok {a : α} {a' : α'} {after : σ} {after' : σ'} (h : call.run s = .ok a after)
    (h' : call'.run s' = .ok a' after') (hanswered : answered a after a' after') :
    Twins call call' s s' answered failed := by
  rw [Twins, h, h']
  exact hanswered

theorem of_error {e : ε} {e' : ε'} {after : σ} {after' : σ'} (h : call.run s = .error e after)
    (h' : call'.run s' = .error e' after') (hfailed : failed e after e' after') :
    Twins call call' s s' answered failed := by
  rw [Twins, h, h']
  exact hfailed

theorem cases (h : Twins call call' s s' answered failed) :
    (∃ a after a' after', call.run s = .ok a after ∧ call'.run s' = .ok a' after' ∧
        answered a after a' after') ∨
      ∃ e after e' after', call.run s = .error e after ∧ call'.run s' = .error e' after' ∧
        failed e after e' after' := by
  unfold Twins at h
  split at h
  · exact Or.inl ⟨_, _, _, _, by assumption, by assumption, h⟩
  · exact Or.inr ⟨_, _, _, _, by assumption, by assumption, h⟩
  · exact h.elim

@[elab_as_elim]
theorem elim {motive : EStateM.Result ε σ α → EStateM.Result ε' σ' α' → Prop}
    (result : EStateM.Result ε σ α) (result' : EStateM.Result ε' σ' α')
    (hrun : call.run s = result) (hrun' : call'.run s' = result')
    (h : Twins call call' s s' (fun a after a' after' => motive (.ok a after) (.ok a' after'))
      fun e after e' after' => motive (.error e after) (.error e' after')) :
    motive result result' := by
  subst hrun hrun'
  rcases h.cases with ⟨a, after, a', after', hrun, hrun', hall⟩ |
    ⟨e, after, e', after', hrun, hrun', hall⟩
  · rw [hrun, hrun']
    exact hall
  · rw [hrun, hrun']
    exact hall

theorem mono {answered' : α → σ → α' → σ' → Prop} {failed' : ε → σ → ε' → σ' → Prop}
    (h : Twins call call' s s' answered failed)
    (hanswered : ∀ a after a' after', answered a after a' after' → answered' a after a' after')
    (hfailed : ∀ e after e' after', failed e after e' after' → failed' e after e' after') :
    Twins call call' s s' answered' failed' := by
  rcases h.cases with ⟨a, after, a', after', hrun, hrun', hall⟩ |
    ⟨e, after, e', after', hrun, hrun', hall⟩
  · exact of_ok hrun hrun' (hanswered _ _ _ _ hall)
  · exact of_error hrun hrun' (hfailed _ _ _ _ hall)

theorem mono_ok {answered' : α → σ → α' → σ' → Prop}
    (h : Twins call call' s s' answered fun _ _ _ _ => False)
    (hanswered : ∀ a after a' after', answered a after a' after' → answered' a after a' after') :
    Twins call call' s s' answered' failed :=
  h.mono hanswered fun _ _ _ _ => False.elim

theorem and_ends {known : α → σ → Prop} {lost : ε → σ → Prop}
    (h : Twins call call' s s' answered failed) (hends : Ends call s known lost) :
    Twins call call' s s' (fun a after a' after' => answered a after a' after' ∧ known a after)
      fun e after e' after' => failed e after e' after' ∧ lost e after := by
  rcases h.cases with ⟨a, after, a', after', hrun, hrun', hall⟩ |
    ⟨e, after, e', after', hrun, hrun', hall⟩
  · exact of_ok hrun hrun' ⟨hall, hends.ok hrun⟩
  · exact of_error hrun hrun' ⟨hall, hends.error hrun⟩

/-!
## Programs
-/

theorem pure {a : α} {a' : α'} (h : answered a s a' s') :
    Twins (Pure.pure a) (Pure.pure a') s s' answered failed := h

theorem throw {e : ε} {e' : ε'} (h : failed e s e' s') :
    Twins (MonadExcept.throw e : EStateM ε σ α) (MonadExcept.throw e' : EStateM ε' σ' α') s s'
      answered failed := h

theorem bind {first : EStateM ε σ β} {first' : EStateM ε' σ' β'} {next : β → EStateM ε σ α}
    {next' : β' → EStateM ε' σ' α'}
    (h : Twins first first' s s'
      (fun b after b' after' => Twins (next b) (next' b') after after' answered failed) failed) :
    Twins (first >>= next) (first' >>= next') s s' answered failed := by
  unfold Twins
  rw [EStateM.run_bind, EStateM.run_bind]
  exact elim (first.run s) (first'.run s') rfl rfl h

theorem get {next : σ → EStateM ε σ α} {next' : σ' → EStateM ε' σ' α'}
    (h : Twins (next s) (next' s') s s' answered failed) :
    Twins (MonadState.get >>= next) (MonadState.get >>= next') s s' answered failed := h

theorem modifying {change : σ → σ} {change' : σ' → σ'} {next : PUnit → EStateM ε σ α}
    {next' : PUnit → EStateM ε' σ' α'}
    (h : Twins (next ⟨⟩) (next' ⟨⟩) (change s) (change' s') answered failed) :
    Twins (modify change >>= next) (modify change' >>= next') s s' answered failed := h

theorem modified {change : σ → σ} {change' : σ' → σ'}
    {answered : PUnit → σ → PUnit → σ' → Prop} (h : answered ⟨⟩ (change s) ⟨⟩ (change' s')) :
    Twins (modify change : EStateM ε σ PUnit) (modify change' : EStateM ε' σ' PUnit) s s'
      answered failed := h

end Twins
end TieredStore
