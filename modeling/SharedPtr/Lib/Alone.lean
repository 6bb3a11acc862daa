/-
What some of the steps of a machine lead to by themselves, whichever of them
are taken: the steps of one thread, say, while the others stand still.
`Soon step mine Q n s` holds if the steps `mine` get from `s` to `Q`, at most
`n` of them, and one of them can be taken until then.
-/
import SharedPtr.Lib.Run

namespace SharedPtr.Lib

variable {σ ℓ : Type*}

def Soon (step : σ → ℓ → Option σ) (mine : ℓ → Prop) (Q : σ → Prop) : Nat → σ → Prop
  | 0, s => Q s
  | n + 1, s => Q s ∨
      (∃ l s', mine l ∧ step s l = some s') ∧ ∀ l s', mine l → step s l = some s' → Soon step mine Q n s'

variable {step : σ → ℓ → Option σ} {mine : ℓ → Prop} {Q Q' : σ → Prop} {s : σ} {n m : Nat}

theorem Soon.now (h : Q s) : Soon step mine Q n s := by
  cases n with
  | zero => exact h
  | succ n => exact .inl h

theorem Soon.next (hl : ∃ l s', mine l ∧ step s l = some s')
    (h : ∀ l s', mine l → step s l = some s' → Soon step mine Q n s') : Soon step mine Q (n + 1) s :=
  .inr ⟨hl, h⟩

theorem Soon.mono (h : Soon step mine Q n s) (hnm : n ≤ m) : Soon step mine Q m s := by
  induction n generalizing s m with
  | zero => exact .now h
  | succ n ih =>
    obtain ⟨m, rfl⟩ : ∃ k, m = k + 1 := ⟨m - 1, by omega⟩
    rcases h with h | ⟨hl, h⟩
    · exact .now h
    · exact .next hl fun l s' hm hs => ih (h l s' hm hs) (by omega)

/-- One goal after the other. -/
theorem Soon.trans (h : Soon step mine Q n s) (hQ : ∀ s, Q s → Soon step mine Q' m s) :
    Soon step mine Q' (n + m) s := by
  induction n generalizing s with
  | zero =>
    rw [Nat.zero_add]
    exact hQ s h
  | succ n ih =>
    rw [Nat.add_right_comm]
    rcases h with h | ⟨hl, h⟩
    · exact (hQ s h).mono (by omega)
    · exact .next hl fun l s' hm hs => ih (h l s' hm hs)

/-- There is a run of these steps alone. -/
theorem Soon.exists_run (h : Soon step mine Q n s) :
    ∃ ls s', (∀ l ∈ ls, mine l) ∧ ls.length ≤ n ∧ run step s ls = some s' ∧ Q s' := by
  induction n generalizing s with
  | zero => exact ⟨[], s, by simp, Nat.le_refl _, rfl, h⟩
  | succ n ih =>
    rcases h with h | ⟨⟨l, s₁, hl, hs⟩, h⟩
    · exact ⟨[], s, by simp, Nat.zero_le _, rfl, h⟩
    · obtain ⟨ls, s', hls, hlen, hrun, hq⟩ := ih (h l s₁ hl hs)
      refine ⟨l :: ls, s', ?_, Nat.succ_le_succ hlen, run_cons.mpr ⟨s₁, hs, hrun⟩, hq⟩
      simpa using ⟨hl, hls⟩

end SharedPtr.Lib
