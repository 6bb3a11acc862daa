/-
Programs that a change `f` of the state does not matter to: they end the same
way after it, in the state changed by `f`.
-/
import SharedPtr.Lib.Prog

namespace SharedPtr.Lib.Prog

variable {σ τ ε α β : Type}

/-- Running `c` after `f` is running it before. -/
def Commutes (f : σ → σ) (c : Prog σ ε α) : Prop := ∀ s, c (f s) = ((c s).1, f (c s).2)

variable {f : σ → σ}

theorem Commutes.pure (a : α) : Commutes f (pure a : Prog σ ε α) := fun _ => rfl

theorem Commutes.throw (e : ε) : Commutes f (throw e : Prog σ ε α) := fun _ => rfl

theorem Commutes.stop : Commutes f (stop : Prog σ ε α) := fun _ => rfl

theorem Commutes.read {g : σ → α} (h : ∀ s, g (f s) = g s) : Commutes f (read g : Prog σ ε α) := fun s => by
  rw [read_apply, read_apply, h]

theorem Commutes.modify {g : σ → σ} (h : ∀ s, g (f s) = f (g s)) : Commutes f (modify g : Prog σ ε Unit) := fun s => by
  rw [modify_apply, modify_apply, h]

theorem Commutes.bind {c : Prog σ ε α} {g : α → Prog σ ε β} (hc : Commutes f c) (hg : ∀ a, Commutes f (g a)) :
    Commutes f (c >>= g) := by
  intro s
  rw [bind_apply, bind_apply, hc s]
  cases c s with
  | mk r s' =>
    cases r with
    | ok a => exact hg a s'
    | throw | stop => rfl

theorem Commutes.ite {p : Prop} [Decidable p] {c c' : Prog σ ε α} (hc : Commutes f c) (hc' : Commutes f c') :
    Commutes f (if p then c else c') := by
  split
  · exact hc
  · exact hc'

theorem Commutes.atExit {body : Prog σ ε α} {exit : σ → σ} (hb : Commutes f body) (he : ∀ s, exit (f s) = f (exit s)) :
    Commutes f (atExit body exit) := by
  intro s
  unfold Prog.atExit
  rw [hb s]
  cases body s with
  | mk r s' => cases r <;> simp only [he]

end SharedPtr.Lib.Prog
