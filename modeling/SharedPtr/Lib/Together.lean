/-
Two programs on two states that run together: from related states both return,
or both throw the same exception, or neither ends. `Together` is a triple for
the pair, with the values they return in its postcondition; programs that are
built alike are taken statement by statement.
-/
import SharedPtr.Lib.Prog

namespace SharedPtr.Lib.Prog

variable {σ τ ε α α' β β' : Type}

/-- From states with `R` the programs end alike, with `Q` where they return. -/
def Together (R : σ → τ → Prop) (c : Prog σ ε α) (c' : Prog τ ε α') (Q : α → α' → σ → τ → Prop) : Prop :=
  ∀ s t, R s t →
    match c s, c' t with
    | (.ok a, s'), (.ok a', t') => Q a a' s' t'
    | (.throw e, _), (.throw e', _) => e = e'
    | (.stop, _), (.stop, _) => True
    | _, _ => False

variable {R R' : σ → τ → Prop} {Q Q' : α → α' → σ → τ → Prop} {S : β → β' → σ → τ → Prop}

theorem Together.pure {a : α} {a' : α'} (h : ∀ s t, R s t → Q a a' s t) :
    Together R (pure a : Prog σ ε α) (pure a' : Prog τ ε α') Q := h

theorem Together.modify {f : σ → σ} {g : τ → τ} {P : Unit → Unit → σ → τ → Prop}
    (h : ∀ s t, R s t → P () () (f s) (g t)) :
    Together R (modify f : Prog σ ε Unit) (modify g : Prog τ ε Unit) P := h

/-- What is known of values that were returned. -/
theorem Together.of_and {φ : Prop} {c : Prog σ ε α} {c' : Prog τ ε α'} (h : φ → Together R c c' Q) :
    Together (fun s t => φ ∧ R s t) c c' Q := fun s t hs => h hs.1 s t hs.2

theorem Together.weaken {c : Prog σ ε α} {c' : Prog τ ε α'} (h : Together R c c' Q)
    (hR : ∀ s t, R' s t → R s t) (hQ : ∀ a a' s t, Q a a' s t → Q' a a' s t) : Together R' c c' Q' := by
  intro s t hs
  have h := h s t (hR s t hs)
  split at h
  next => exact hQ _ _ _ _ h
  next => exact h
  next => trivial
  next => exact h.elim

theorem Together.bind {c : Prog σ ε α} {c' : Prog τ ε α'} {f : α → Prog σ ε β} {f' : α' → Prog τ ε β'}
    (hc : Together R c c' Q) (hf : ∀ a a', Together (Q a a') (f a) (f' a') S) :
    Together R (c >>= f) (c' >>= f') S := by
  intro s t hs
  have h := hc s t hs
  rw [bind_apply, bind_apply]
  split at h
  next a s' a' t' h₁ h₂ =>
    rw [h₁, h₂]
    exact hf a a' s' t' h
  next h₁ h₂ =>
    rw [h₁, h₂]
    exact h
  next h₁ h₂ =>
    rw [h₁, h₂]
    trivial
  next => exact h.elim

theorem Together.atExit {body : Prog σ ε α} {body' : Prog τ ε α'} {exit : σ → σ} {exit' : τ → τ}
    (hb : Together R body body' Q) (he : ∀ a a' s t, Q a a' s t → Q' a a' (exit s) (exit' t)) :
    Together R (atExit body exit) (atExit body' exit') Q' := by
  intro s t hs
  have h := hb s t hs
  unfold Prog.atExit
  split at h
  next a s' a' t' h₁ h₂ =>
    rw [h₁, h₂]
    exact he a a' s' t' h
  next h₁ h₂ =>
    rw [h₁, h₂]
    exact h
  next h₁ h₂ =>
    rw [h₁, h₂]
    trivial
  next => exact h.elim

end SharedPtr.Lib.Prog
