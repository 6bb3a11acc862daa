/-
Programs over a state that may throw, for code whose objects are destroyed
where their scope ends. A call returns, or an exception leaves it, or it does
neither (a trap, a loop without end); in each case the state shows what it did
so far. `tryCatch` and the two scopes (`atExit`, `withLocal`) follow the rules
of the language: a handler sees what the body did before it threw, and a
destructor runs whether its scope is left by a return or by an exception.
-/
import Mathlib.Tactic.Common

namespace SharedPtr.Lib

/-- How a call ends. -/
inductive Result (ε α : Type)
  | ok (a : α)
  | throw (e : ε)
  | stop
  deriving DecidableEq, Repr

/-- A program: how it ends from a state, and the state it leaves. -/
def Prog (σ ε α : Type) : Type := σ → Result ε α × σ

namespace Prog

variable {σ τ ε α β : Type}

/-- `c; f(result of c)`. -/
def andThen (c : Prog σ ε α) (f : α → Prog σ ε β) : Prog σ ε β := fun s =>
  match c s with
  | (.ok a, s') => f a s'
  | (.throw e, s') => (.throw e, s')
  | (.stop, s') => (.stop, s')

instance : Monad (Prog σ ε) where
  pure a := fun s => (.ok a, s)
  bind := andThen

/-- An exception is thrown. -/
def throw (e : ε) : Prog σ ε α := fun s => (.throw e, s)

/-- The program ends here without a result. -/
def stop : Prog σ ε α := fun s => (.stop, s)

/-- A call that cannot fail. -/
def act (f : σ → α × σ) : Prog σ ε α := fun s => (.ok (f s).1, (f s).2)

/-- A change of the state that cannot fail. -/
def modify (f : σ → σ) : Prog σ ε Unit := fun s => (.ok (), f s)

/-- A value read from the state. -/
def read (f : σ → α) : Prog σ ε α := fun s => (.ok (f s), s)

/-- A value that may not be there. -/
def ofOption : Option α → Prog σ ε α
  | some a => pure a
  | none => stop

/-- `try { body } catch (...) { handler }`. -/
def tryCatch (body : Prog σ ε α) (handler : ε → Prog σ ε α) : Prog σ ε α := fun s =>
  match body s with
  | (.throw e, s') => handler e s'
  | r => r

/-- `body`, and at the end of its scope `exit`. -/
def atExit (body : Prog σ ε α) (exit : σ → σ) : Prog σ ε α := fun s =>
  match body s with
  | (.stop, s') => (.stop, s')
  | (r, s') => (r, exit s')

/-- `body` with a local object `init`, which `dtor` destroys at the end. -/
def withLocal (init : τ) (body : Prog (σ × τ) ε α) (dtor : τ → σ → σ) : Prog σ ε α := fun s =>
  match body (s, init) with
  | (.stop, (s', _)) => (.stop, s')
  | (r, (s', t)) => (r, dtor t s')

/-- A program that does not touch the local object. -/
def outer (c : Prog σ ε α) : Prog (σ × τ) ε α := fun s =>
  let r := c s.1
  (r.1, (r.2, s.2))

@[simp] theorem pure_apply (a : α) (s : σ) : (pure a : Prog σ ε α) s = (.ok a, s) := rfl

theorem bind_apply (c : Prog σ ε α) (f : α → Prog σ ε β) (s : σ) :
    (c >>= f) s = match c s with
      | (.ok a, s') => f a s'
      | (.throw e, s') => (.throw e, s')
      | (.stop, s') => (.stop, s') := rfl

@[simp] theorem throw_apply (e : ε) (s : σ) : (throw e : Prog σ ε α) s = (.throw e, s) := rfl

@[simp] theorem stop_apply (s : σ) : (stop : Prog σ ε α) s = (.stop, s) := rfl

@[simp] theorem act_apply (f : σ → α × σ) (s : σ) : (act f : Prog σ ε α) s = (.ok (f s).1, (f s).2) := rfl

@[simp] theorem modify_apply (f : σ → σ) (s : σ) : (modify f : Prog σ ε Unit) s = (.ok (), f s) := rfl

@[simp] theorem read_apply (f : σ → α) (s : σ) : (read f : Prog σ ε α) s = (.ok (f s), s) := rfl

@[simp] theorem ofOption_some (a : α) (s : σ) : (ofOption (some a) : Prog σ ε α) s = (.ok a, s) := rfl

@[simp] theorem ofOption_none (s : σ) : (ofOption none : Prog σ ε α) s = (.stop, s) := rfl

theorem bind_eq_ok {c : Prog σ ε α} {f : α → Prog σ ε β} {s s' : σ} {b : β} :
    (c >>= f) s = (.ok b, s') ↔ ∃ a t, c s = (.ok a, t) ∧ f a t = (.ok b, s') := by
  rw [bind_apply]
  constructor
  · intro h
    split at h
    next a t hc => exact ⟨a, t, hc, h⟩
    next => cases h
    next => cases h
  · rintro ⟨a, t, hc, hf⟩
    rw [hc]
    exact hf

/-! ## What a program keeps -/

/-- When the program ends, it leaves a state with `I`. -/
def Keeps (I : σ → Prop) (c : Prog σ ε α) : Prop := ∀ s, I s → (c s).1 = .stop ∨ I (c s).2

variable {I : σ → Prop}

theorem Keeps.pure (a : α) : Keeps I (pure a : Prog σ ε α) := fun _ h => .inr h

theorem Keeps.throw (e : ε) : Keeps I (throw e : Prog σ ε α) := fun _ h => .inr h

theorem Keeps.stop : Keeps I (stop : Prog σ ε α) := fun _ _ => .inl rfl

theorem Keeps.bind {c : Prog σ ε α} {f : α → Prog σ ε β} (hc : Keeps I c) (hf : ∀ a, Keeps I (f a)) :
    Keeps I (c >>= f) := by
  intro s hs
  have h := hc s hs
  rw [bind_apply]
  split
  next a s' he =>
    rw [he] at h
    rcases h with h | h
    · cases h
    · exact hf a s' h
  next e s' he =>
    rw [he] at h
    rcases h with h | h
    · cases h
    · exact .inr h
  next => exact .inl rfl

theorem Keeps.ite {p : Prop} [Decidable p] {c c' : Prog σ ε α} (hc : Keeps I c) (hc' : Keeps I c') :
    Keeps I (if p then c else c') := by
  split
  · exact hc
  · exact hc'

theorem Keeps.atExit {body : Prog σ ε α} {exit : σ → σ} (hb : Keeps I body) (he : ∀ s, I s → I (exit s)) :
    Keeps I (atExit body exit) := by
  intro s hs
  have h := hb s hs
  unfold Prog.atExit
  split
  next => exact .inl rfl
  next r s' hr heq =>
    rw [heq] at h
    rcases h with h | h
    · exact absurd h hr
    · exact .inr (he s' h)

end Prog

end SharedPtr.Lib
