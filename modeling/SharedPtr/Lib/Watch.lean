/-
Programs that append to a log, and an automaton that reads the log. `Follows`
is a triple: it says from which states of both a program may start, that the
automaton does not get stuck on what the program appends, and what holds of
both when it returns. The rules follow the constructors of programs.
-/
import SharedPtr.Lib.Prog
import SharedPtr.Lib.Run

namespace SharedPtr.Lib.Prog

variable {σ ε α β ω κ : Type} (log : σ → List ω) (δ : κ → ω → Option κ)

/-- From `P` the program throws nothing, the automaton reads what it appends
to the log, and where it returns, `Q` holds. -/
def Follows (P : κ → σ → Prop) (c : Prog σ ε α) (Q : α → κ → σ → Prop) : Prop :=
  ∀ q s, P q s → ∃ new q', log (c s).2 = log s ++ new ∧ run δ q new = some q' ∧
    match (c s).1 with
    | .ok a => Q a q' (c s).2
    | .throw _ => False
    | .stop => True

variable {log} {δ} {P P' : κ → σ → Prop} {Q Q' R : α → κ → σ → Prop} {S : β → κ → σ → Prop}

theorem Follows.weaken {c : Prog σ ε α} (hc : Follows log δ P c Q) (hP : ∀ q s, P' q s → P q s)
    (hQ : ∀ a q s, Q a q s → Q' a q s) : Follows log δ P' c Q' := by
  intro q s hs
  obtain ⟨new, q', hlog, hrun, hres⟩ := hc q s (hP q s hs)
  refine ⟨new, q', hlog, hrun, ?_⟩
  cases hr : (c s).1 with
  | ok a =>
    rw [hr] at hres
    exact hQ a q' _ hres
  | throw e =>
    rw [hr] at hres
    exact hres
  | stop => trivial

/-- A program that appends nothing. -/
theorem Follows.silent {c : Prog σ ε α}
    (h : ∀ q s, P q s → (c s).1 = .stop ∧ log (c s).2 = log s ∨
      ∃ a s', c s = (.ok a, s') ∧ log s' = log s ∧ Q a q s') : Follows log δ P c Q := by
  intro q s hs
  rcases h q s hs with ⟨hr, hlog⟩ | ⟨a, s', hc, hlog, hq⟩
  · exact ⟨[], q, by simp [hlog], rfl, by rw [hr]; trivial⟩
  · exact ⟨[], q, by simp [hc, hlog], rfl, by rw [hc]; exact hq⟩

theorem Follows.stop : Follows log δ P (stop : Prog σ ε α) Q :=
  .silent fun _ _ _ => .inl ⟨rfl, rfl⟩

/-- A change of the state, with what it appends. -/
theorem Follows.modify {f : σ → σ} {R : Unit → κ → σ → Prop}
    (h : ∀ q s, P q s → ∃ new q', log (f s) = log s ++ new ∧ run δ q new = some q' ∧ R () q' (f s)) :
    Follows log δ P (modify f : Prog σ ε Unit) R := h

theorem Follows.bind {c : Prog σ ε α} {f : α → Prog σ ε β} (hc : Follows log δ P c Q)
    (hf : ∀ a, Follows log δ (Q a) (f a) S) : Follows log δ P (c >>= f) S := by
  intro q s hs
  obtain ⟨new, q', hlog, hrun, hres⟩ := hc q s hs
  rw [bind_apply]
  split
  next a s' he =>
    rw [he] at hlog hres
    obtain ⟨new', q'', hlog', hrun', hres'⟩ := hf a q' s' hres
    refine ⟨new ++ new', q'', ?_, run_append.mpr ⟨q', hrun, hrun'⟩, hres'⟩
    rw [hlog', hlog, List.append_assoc]
  next e s' he =>
    rw [he] at hres
    exact hres.elim
  next s' he =>
    rw [he] at hlog
    exact ⟨new, q', hlog, hrun, trivial⟩

/-- The exit runs when the body has returned. -/
theorem Follows.atExit {body : Prog σ ε α} {exit : σ → σ} (hb : Follows log δ P body Q)
    (he : ∀ a, Follows log δ (Q a) (Prog.modify exit : Prog σ ε Unit) fun _ => R a) :
    Follows log δ P (atExit body exit) R := by
  intro q s hs
  obtain ⟨new, q', hlog, hrun, hres⟩ := hb q s hs
  unfold Prog.atExit
  cases hr : body s with
  | mk r s' =>
    rw [hr] at hlog hres
    cases r with
    | ok a =>
      obtain ⟨new', q'', hlog', hrun', hres'⟩ := he a q' s' hres
      refine ⟨new ++ new', q'', ?_, run_append.mpr ⟨q', hrun, hrun'⟩, hres'⟩
      rw [show log (exit s') = log s' ++ new' from hlog', hlog, List.append_assoc]
    | throw e => exact hres.elim
    | stop => exact ⟨new, q', hlog, hrun, trivial⟩

end SharedPtr.Lib.Prog
