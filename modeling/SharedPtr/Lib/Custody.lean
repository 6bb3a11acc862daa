/-
Holders and what they hold. Each holder holds one token or none, and nothing
keeps two of them from holding the same one. `Passes ins outs h h'` says what
came in and what went out from `h` to `h'`, whatever changed hands in between:
each token's holders are counted, and the count moves by what came in and went
out. So a token that comes in only while nobody holds it has one holder at
most (`Passes.sole`).
-/
import Mathlib.Data.Set.Card
import Mathlib.Tactic.Abel

namespace SharedPtr.Lib

variable {X τ : Type*}

/-- Who holds `t`. -/
def holders (h : X → Option τ) (t : τ) : Set X := {x | h x = some t}

@[simp] theorem mem_holders {h : X → Option τ} {t : τ} {x : X} : x ∈ holders h t ↔ h x = some t := Iff.rfl

theorem holders_none (t : τ) : holders (fun _ : X => none) t = ∅ := by
  simp [Set.eq_empty_iff_forall_notMem]

/-- No token has two holders. -/
def Sole (h : X → Option τ) : Prop := ∀ t, (holders h t).encard ≤ 1

theorem sole_iff {h : X → Option τ} : Sole h ↔ ∀ x y t, h x = some t → h y = some t → x = y := by
  simp only [Sole, Set.encard_le_one_iff, mem_holders]
  exact ⟨fun hs x y t => hs t x y, fun hs t x y => hs x y t⟩

theorem sole_none : Sole fun _ : X => (none : Option τ) := by simp [Sole, holders_none]

theorem encard_holders_eq_zero {h : X → Option τ} {t : τ} : (holders h t).encard = 0 ↔ ∀ x, h x ≠ some t := by
  simp [Set.eq_empty_iff_forall_notMem]

theorem encard_holders_eq_one {h : X → Option τ} {t : τ} : (holders h t).encard = 1 ↔ ∃! x, h x = some t := by
  simp only [Set.encard_eq_one, Set.ext_iff, mem_holders, Set.mem_singleton_iff]
  constructor
  · rintro ⟨x, hx⟩
    exact ⟨x, (hx x).mpr rfl, fun y hy => (hx y).mp hy⟩
  · rintro ⟨x, hx, hu⟩
    refine ⟨x, fun y => ⟨hu y, ?_⟩⟩
    rintro rfl
    exact hx

variable [DecidableEq τ]

/-- From `h` to `h'`, `ins` came in and `outs` went out. -/
def Passes (ins outs : List τ) (h h' : X → Option τ) : Prop :=
  ∀ t, (holders h' t).encard + outs.count t = (holders h t).encard + ins.count t

namespace Passes

variable {ins outs ins' outs' : List τ} {h h' h'' : X → Option τ}

theorem refl (h : X → Option τ) : Passes [] [] h h := fun _ => rfl

theorem trans (h₁ : Passes ins outs h h') (h₂ : Passes ins' outs' h' h'') :
    Passes (ins ++ ins') (outs ++ outs') h h'' := by
  intro t
  have e₁ := h₁ t
  have e₂ := h₂ t
  rw [List.count_append, List.count_append, Nat.cast_add, Nat.cast_add]
  calc (holders h'' t).encard + (outs.count t + outs'.count t)
      = ((holders h'' t).encard + outs'.count t) + outs.count t := by abel
    _ = ((holders h' t).encard + outs.count t) + ins'.count t := by rw [e₂]; abel
    _ = (holders h t).encard + (ins.count t + ins'.count t) := by rw [e₁]; abel

/-- What went out and came in again did not pass. -/
theorem cancel {mid : List τ} (hp : Passes (mid ++ ins) (mid ++ outs) h h') : Passes ins outs h h' := by
  intro t
  have e := hp t
  rw [List.count_append, List.count_append, Nat.cast_add, Nat.cast_add, ← add_assoc, ← add_assoc,
    add_right_comm, add_right_comm _ (mid.count t : ℕ∞)] at e
  exact WithTop.add_right_cancel (ENat.natCast_ne_top _) e

/-- A holder gets another token, and loses the one it has. -/
theorem update [DecidableEq X] (h : X → Option τ) (x : X) (p : Option τ) :
    Passes p.toList (h x).toList h (Function.update h x p) := by
  intro t
  have hrest : ∀ g : X → Option τ, (holders g t).encard =
      (holders g t \ {x}).encard + ((g x).toList.count t : ℕ∞) := by
    intro g
    by_cases hg : g x = some t
    · rw [hg, Option.toList_some, List.count_singleton_self, Nat.cast_one,
        Set.encard_sdiff_singleton_add_one (by simpa using hg)]
    · rw [Set.sdiff_singleton_eq_self (by simpa using hg), List.count_eq_zero.mpr (by simpa using hg),
        Nat.cast_zero, add_zero]
  have hsame : holders (Function.update h x p) t \ {x} = holders h t \ {x} := by
    ext y
    by_cases hy : y = x <;> simp [hy]
  rw [hrest h, hrest (Function.update h x p), hsame, Function.update_self]
  abel

theorem perm (hp : Passes ins outs h h') (hi : ins.Perm ins') (ho : outs.Perm outs') : Passes ins' outs' h h' := by
  intro t
  rw [← hi.count_eq t, ← ho.count_eq t]
  exact hp t

/-- `y` gives what it holds to `x`. -/
theorem move [DecidableEq X] (h : X → Option τ) (x y : X) :
    Passes [] (Function.update h y none x).toList h (Function.update (Function.update h y none) x (h y)) := by
  have h₁ := update h y none
  have h₂ := update (Function.update h y none) x (h y)
  exact cancel ((h₁.trans h₂).perm (by simp) (List.Perm.refl _))

/-- The holders exchange what they hold. -/
theorem comp (h : X → Option τ) (σ : Equiv.Perm X) : Passes [] [] h (h ∘ σ) := by
  intro t
  have hpre : holders (h ∘ σ) t = Set.preimage σ (holders h t) := rfl
  rw [hpre, Set.encard_preimage_of_bijective σ.bijective]

theorem sole (hp : Passes ins outs h h') (hs : Sole h) (hn : ins.Nodup)
    (hfree : ∀ t ∈ ins, ∀ x, h x ≠ some t) : Sole h' := by
  intro t
  have hle : (holders h' t).encard ≤ (holders h t).encard + ins.count t := (hp t) ▸ le_self_add
  by_cases ht : t ∈ ins
  · rwa [encard_holders_eq_zero.mpr (hfree t ht), List.count_eq_one_of_mem hn ht, zero_add, Nat.cast_one] at hle
  · rw [List.count_eq_zero.mpr ht, Nat.cast_zero, add_zero] at hle
    exact hle.trans (hs t)

theorem mem_of_held (hp : Passes ins outs (fun _ => none) h') {x : X} {t : τ} (hx : h' x = some t) : t ∈ ins := by
  by_contra ht
  have e := hp t
  rw [holders_none, List.count_eq_zero.mpr ht, Set.encard_empty, Nat.cast_zero, add_zero, add_eq_zero] at e
  exact encard_holders_eq_zero.mp e.1 x hx

/-- All that came in, and nobody held before, is held by one or went out. -/
theorem count_eq (hp : Passes ins outs (fun _ => none) h') (hs : Sole h') (t : τ) :
    (∃! x, h' x = some t) ∧ ins.count t = outs.count t + 1 ∨ (∀ x, h' x ≠ some t) ∧ ins.count t = outs.count t := by
  have e := hp t
  rw [holders_none, Set.encard_empty, zero_add] at e
  rcases Order.le_one_iff.mp (hs t) with h₁ | h₁
  · rw [h₁, zero_add] at e
    exact .inr ⟨encard_holders_eq_zero.mp h₁, (Nat.cast_injective e).symm⟩
  · rw [h₁, add_comm] at e
    exact .inl ⟨encard_holders_eq_one.mp h₁, by exact_mod_cast e.symm⟩

end Passes

end SharedPtr.Lib
