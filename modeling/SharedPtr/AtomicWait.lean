/-
`_Sp_atomic::wait`: what wakes a waiter, and what does not.

The waiter has matched the pair `old` under the lock. It then waits on the
word `_M_val` alone, for it to differ from the block's address with the bit
clear. So the lock bit of another thread, a reader's included, ends the wait
(`wait_woken_by_load`), and a new stored pointer with the same block does not
(`wait_misses_alias`). What the wait does for the pair is proved of the runs
in which neither happens.
-/
import SharedPtr.SpAtomicInv

namespace SharedPtr.Atomic

open Lib

variable {ι : Type} [DecidableEq ι]

/-- The rest of a call of `wait` by `t`: it returns at the last step. -/
inductive Returning (t : ι) : State ι → List (Label ι) → State ι → Prop
  | done {s l s'} (hl : l.thread = t) (hs : step s l = some s') (hpc : (s.thr t).pc = .finish .waited []) :
    Returning t s [l] s'
  | own {s l s₁ ls s'} (hl : l.thread = t) (hs : step s l = some s₁) (hpc : (s.thr t).pc ≠ .finish .waited [])
    (h : Returning t s₁ ls s') : Returning t s (l :: ls) s'
  | other {s l s₁ ls s'} (hl : l.thread ≠ t) (hs : step s l = some s₁) (h : Returning t s₁ ls s') :
    Returning t s (l :: ls) s'

/-- A whole call of `wait(old)`. -/
structure WaitCall (t : ι) (old : Value) (s : State ι) (ls : List (Label ι)) (s' : State ι) : Prop where
  begins : ∃ rest, ls = ⟨t, .begin (.wait old)⟩ :: rest
  returns : Returning t s ls s'

/-! ## Woken for nothing -/

/-- A waiter reads the address of the block it waits on, with the bit set. -/
def Pc.seesLock (val : Word) : Pc → Bool
  | .waiting _ v => val == v.withBit
  | _ => false

/-- The waiter `t` does not. -/
def SeesNoLock (t : ι) (s : State ι) (l : Label ι) : Prop := l.thread = t → (s.thr t).pc.seesLock s.val = false

instance (t : ι) (s : State ι) (l : Label ι) : Decidable (SeesNoLock t s l) :=
  inferInstanceAs (Decidable (l.thread = t → (s.thr t).pc.seesLock s.val = false))

/-- In a call of `wait(old)` that has seen no other pair. -/
def Pc.waitsFor (old : Value) : Pc → Prop
  | .spin op | .lockCas op _ | .locked op _ => op = .wait old
  | .waitLoad o | .unlockLoad (.wait o _) | .unlockCas (.wait o _) _ | .waiting o _ => o = old
  | _ => False

section

variable {s s' : State ι} {t : ι} {old : Value} {ls : List (Label ι)} {pc : Pc}

/-- A waiter goes on waiting, unless the pair is another than the one it
waits to change; the bit of another thread's lock would let it go, too. -/
theorem exec_waitsFor (hi : Inv s) (hpc : (s.thr t).pc = pc) (hw : pc.waitsFor old)
    (hsees : pc.seesLock s.val = false) (h : exec s t pc = some s') :
    (s'.thr t).pc.waitsFor old ∨ s.pair ≠ old := by
  have hholds := hi.holds t
  rw [hpc] at hholds
  cases pc with
  | spin op =>
    simp only [exec, Option.some.injEq] at h
    split at h <;> subst h
    · exact .inl (by rw [State.goto_thr_self]; exact hw)
    · exact .inl (by rw [hpc]; exact hw)
  | lockCas op current =>
    simp only [exec] at h
    split at h <;> cases h <;> exact .inl (by rw [State.goto_thr_self]; exact hw)
  | locked op pi =>
    subst hw
    obtain ⟨rfl, hptr⟩ := hholds
    simp only [exec] at h
    split at h
    · cases h
      exact .inl (by rw [State.goto_thr_self]; rfl)
    · next hne =>
      refine .inr fun hp => hne ?_
      rw [hptr, hp]
      exact ⟨rfl, rfl⟩
  | waitLoad o =>
    cases h
    exact .inl (by rw [State.goto_thr_self]; exact hw)
  | unlockLoad next =>
    cases next with
    | finish => exact hw.elim
    | wait o v =>
      cases h
      exact .inl (by rw [State.goto_thr_self]; exact hw)
  | unlockCas next current =>
    cases next with
    | finish => exact hw.elim
    | wait o v =>
      simp only [exec] at h
      split at h <;> cases h <;> exact .inl (by rw [State.goto_thr_self]; exact hw)
  | waiting o v =>
    obtain rfl : o = old := hw
    simp only [exec, Option.some.injEq] at h
    split at h <;> subst h
    · next hwake =>
      -- the word is neither the address nor the address with the bit
      refine .inr ?_
      intro hp
      obtain rfl := hi.waits t _ _ hpc
      have hclear := hi.clear
      rw [hp] at hclear
      by_cases hin : ∃ u, (s.thr u).pc.inside = true
      · obtain ⟨u, hu⟩ := hin
        rw [hi.held u hu, hp] at hsees
        simp [Pc.seesLock] at hsees
      · have hval := (hi.free fun u => by simpa using fun hu => hin ⟨u, hu⟩).1
        rw [hp] at hval
        simp [wakeTest, hval] at hwake
    · exact .inl (by rw [hpc]; rfl)
  | _ => exact hw.elim

theorem step_waitsFor (hi : Inv s) {l : Label ι} (hl : l.thread = t) (hw : (s.thr t).pc.waitsFor old)
    (hsees : SeesNoLock t s l) (h : step s l = some s') : (s'.thr t).pc.waitsFor old ∨ s.pair ≠ old := by
  obtain ⟨u, act⟩ := l
  obtain rfl : u = t := hl
  have hbusy : (s.thr u).pc ≠ .idle := fun hidle => by
    rw [hidle] at hw
    exact hw
  cases act with
  | run => exact exec_waitsFor hi rfl hw (hsees rfl) h
  | begin | make | drop | notify => simp [step, hbusy] at h

theorem Returning.saw (h : Returning t s ls s') (hi : Inv s) (hw : (s.thr t).pc.waitsFor old)
    (hsees : Along step (SeesNoLock t) s ls) : ∃ u, Visits step s ls u ∧ u.pair ≠ old := by
  induction h with
  | done hl hs hpc =>
    rw [hpc] at hw
    exact hw.elim
  | own hl hs hpc h ih =>
    rcases step_waitsFor hi hl hw hsees.1 hs with hw' | hne
    · obtain ⟨u, hv, hu⟩ := ih (hi.step hs) hw' (hsees.2 _ hs)
      exact ⟨u, .cons hs hv, hu⟩
    · exact ⟨_, .start, hne⟩
  | other hl hs h ih =>
    obtain ⟨u, hv, hu⟩ := ih (hi.step hs) (by rwa [step_thr_ne hs (Ne.symm hl)]) (hsees.2 _ hs)
    exact ⟨u, .cons hs hv, hu⟩

/-- **A waiter that never reads another thread's lock bit is not woken for
nothing**: `wait(old)` returns only if the pair was another at some time
during the call. -/
theorem wait_saw_change (v old : Value) (t : ι) (before ls : List (Label ι)) (s s' : State ι)
    (h : run step (State.init v) before = some s) (hc : WaitCall t old s ls s')
    (hsees : Along step (SeesNoLock t) s ls) : ∃ u, Visits step s ls u ∧ u.pair ≠ old := by
  obtain ⟨⟨rest, rfl⟩, hret⟩ := hc
  have hi := Inv.run h
  have hbegin {s₁ : State ι} (hs : step s ⟨t, .begin (.wait old)⟩ = some s₁) : (s₁.thr t).pc.waitsFor old := by
    simp only [step, Option.ite_none_right_eq_some, Option.some.injEq] at hs
    rw [← hs.2]
    simp [Pc.waitsFor]
  cases hret with
  | done hl hs hpc => simp [step, hpc] at hs
  | own hl hs hpc hret =>
    obtain ⟨u, hv, hu⟩ := hret.saw (hi.step hs) (hbegin hs) (hsees.2 _ hs)
    exact ⟨u, .cons hs hv, hu⟩
  | other hl => exact absurd rfl hl

end

theorem Returning.of_run {t : ι} {s u s' : State ι} {ls : List (Label ι)} {l : Label ι}
    (h : run step s ls = some u) (hbusy : Along step (fun v m => m.thread = t → (v.thr t).pc ≠ .finish .waited []) s ls)
    (hpc : (u.thr t).pc = .finish .waited []) (hl : l.thread = t) (hs : step u l = some s') :
    Returning t s (ls ++ [l]) s' := by
  induction ls generalizing s with
  | nil =>
    cases h
    exact .done hl hs hpc
  | cons m ls ih =>
    obtain ⟨s₁, hm, h⟩ := run_cons.mp h
    by_cases hmt : m.thread = t
    · exact .own hmt hm (hbusy.1 hmt) (ih h (hbusy.2 s₁ hm))
    · exact .other hmt hm (ih h (hbusy.2 s₁ hm))

/-- A waiter that a store of another block wakes. -/
theorem wait_saw_change_store : ∃ (old : Value) (before ls : List (Label (Fin 2))) (s s' : State (Fin 2)),
    run step (State.init old) before = some s ∧ WaitCall 0 old s ls s' ∧ ∃ u, Visits step s ls u ∧ u.pair ≠ old := by
  let old : Value := ⟨16, ⟨32, by decide⟩⟩
  let d : Value := ⟨48, ⟨64, by decide⟩⟩
  let before : List (Label (Fin 2)) := [⟨0, .make old⟩, ⟨1, .make d⟩]
  let s : State (Fin 2) := (run step (State.init old) before).getD (State.init old)
  let body : List (Label (Fin 2)) :=
    [⟨0, .begin (.wait old)⟩, ⟨0, .run⟩, ⟨0, .run⟩, ⟨0, .run⟩, ⟨0, .run⟩, ⟨0, .run⟩, ⟨0, .run⟩, ⟨0, .run⟩,
      ⟨1, .begin (.store d)⟩, ⟨1, .run⟩, ⟨1, .run⟩, ⟨1, .run⟩, ⟨1, .run⟩, ⟨1, .run⟩, ⟨1, .run⟩, ⟨1, .run⟩,
      ⟨1, .notify⟩, ⟨0, .run⟩, ⟨0, .run⟩]
  let u : State (Fin 2) := (run step s body).getD s
  have hs : run step (State.init old) before = some s := run_getD (by decide +kernel) _
  have hu : run step s body = some u := run_getD (by decide +kernel) _
  obtain ⟨s', hs'⟩ : ∃ s', step u ⟨0, .run⟩ = some s' := Option.isSome_iff_exists.mp (by decide +kernel)
  have hc : WaitCall 0 old s (body ++ [⟨0, .run⟩]) s' :=
    ⟨⟨_, rfl⟩, .of_run hu (by decide +kernel) (by decide +kernel) rfl hs'⟩
  exact ⟨old, before, _, s, s', hs, hc, wait_saw_change old old 0 before _ s s' hs hc (by decide +kernel)⟩

/-- A load by another thread sets the bit just when the waiter reads the
word: the wait returns, and the pair was `old` all the time. -/
theorem wait_woken_by_load : ∃ (old : Value) (before ls : List (Label (Fin 2))) (s s' : State (Fin 2)),
    run step (State.init old) before = some s ∧ WaitCall 0 old s ls s' ∧
      ∀ u, Visits step s ls u → u.pair = old := by
  let old : Value := ⟨16, ⟨32, by decide⟩⟩
  let s : State (Fin 2) := (run step (State.init old) [⟨0, .make old⟩]).getD (State.init old)
  let body : List (Label (Fin 2)) :=
    [⟨0, .begin (.wait old)⟩, ⟨0, .run⟩, ⟨0, .run⟩, ⟨0, .run⟩, ⟨0, .run⟩, ⟨0, .run⟩, ⟨0, .run⟩,
      ⟨1, .begin .load⟩, ⟨1, .run⟩, ⟨1, .run⟩, ⟨0, .run⟩, ⟨0, .run⟩]
  let u : State (Fin 2) := (run step s body).getD s
  have hs : run step (State.init old) [⟨0, .make old⟩] = some s := run_getD (by decide +kernel) _
  have hu : run step s body = some u := run_getD (by decide +kernel) _
  obtain ⟨s', hs'⟩ : ∃ s', step u ⟨0, .run⟩ = some s' := Option.isSome_iff_exists.mp (by decide +kernel)
  refine ⟨old, _, body ++ [⟨0, .run⟩], s, s', hs, ⟨⟨_, rfl⟩, .of_run hu (by decide +kernel) (by decide +kernel) rfl hs'⟩,
    forall_visits (by decide +kernel) fun s'' h'' => ?_⟩
  have hend : (run step s (body ++ [⟨0, .run⟩])).map (·.pair) = some old := by decide +kernel
  rw [h''] at hend
  exact Option.some.inj hend

/-! ## Not woken by an alias -/

/-- Whoever publishes the block that a waiter waits on publishes the pointer
it waits on with it. -/
def KeepsPtr (s : State ι) (l : Label ι) : Prop :=
  l.act = .run → ∀ d, (s.thr l.thread).pc.publishes = some d →
    ∀ t old v, (s.thr t).pc = .waiting old v → d.pi = v → d.ptr = old.ptr

/-- With the bit clear, the test that a waiter makes tells a pair other than
the one it has matched. -/
def Wakes (s : State ι) : Prop :=
  s.val &&& lockBit = 0 → ∀ t old v, (s.thr t).pc = .waiting old v → s.pair ≠ old → wakeTest s.val v = true

/-- What a waiter would not notice is not there. -/
def WaitInv (s : State ι) : Prop :=
  ∀ t old v, (s.thr t).pc = .waiting old v → s.pair.pi = v → s.pair = old

omit [DecidableEq ι] in
theorem Inv.wakes_iff {s : State ι} (hi : Inv s) : Wakes s ↔ (s.val &&& lockBit = 0 → WaitInv s) := by
  refine imp_congr_right fun hbit => forall₄_congr ?_
  intro t old v hpc
  have hval : s.val = s.pair.pi.val :=
    (hi.free fun u => hi.outside (p := ⟨s.val, hbit⟩) rfl u).1
  rw [wakeTest, hval, bne_iff_ne, ne_eq, ne_eq, not_imp_not]
  exact ⟨fun h hv => h (congrArg Subtype.val hv), fun h hv => h (Subtype.ext hv)⟩

section

variable {s s' : State ι} {t : ι} {pc : Pc}

/-- Only the exchange that publishes changes the pair, and it leaves the bit clear. -/
theorem exec_publishes (h : exec s t pc = some s') :
    match pc.publishes with
    | none => s'.pair = s.pair
    | some d => s'.pair = d ∧ s'.val = d.pi.val ∧ ∀ old v, (s'.thr t).pc ≠ .waiting old v := by
  cases pc with
  | idle => cases h
  | spin op | waiting old v =>
    simp only [exec, Option.some.injEq] at h
    split at h <;> subst h <;> rfl
  | lockCas op current | unlockCas next current =>
    simp only [exec] at h
    split at h <;> cases h <;> rfl
  | locked op pi =>
    cases op with
    | load | store | exchange =>
      cases h
      rfl
    | compareExchangeStrong | wait =>
      simp only [exec] at h
      split at h <;> cases h <;> rfl
  | finish res dying =>
    cases dying <;> cases h <;> rfl
  | swapPublish isExchange d tmp =>
    cases h
    refine ⟨rfl, rfl, ?_⟩
    intro old v
    rw [State.goto_thr_self]
    cases isExchange <;> simp
  | casPublish e d =>
    cases h
    refine ⟨rfl, rfl, ?_⟩
    intro old v
    simp [State.goto_thr_self]
  | _ =>
    cases h
    rfl

/-- A thread begins to wait with the pair before it that it waits to change. -/
theorem exec_waiting (hi : Inv s) (hpc : (s.thr t).pc = pc) (h : exec s t pc = some s') {old : Value}
    {v : BlockPtr} (hw : (s'.thr t).pc = .waiting old v) : pc = .waiting old v ∨ s.pair = old := by
  have hholds := hi.holds t
  rw [hpc] at hholds
  cases pc with
  | idle => cases h
  | spin op =>
    simp only [exec, Option.some.injEq] at h
    split at h <;> subst h
    · simp at hw
    · simp [hpc] at hw
  | lockCas op current =>
    simp only [exec] at h
    split at h <;> cases h <;> simp at hw
  | locked op pi =>
    cases op with
    | load | store | exchange =>
      cases h
      simp at hw
    | compareExchangeStrong | wait =>
      simp only [exec] at h
      split at h <;> cases h <;> simp at hw
  | swapPublish isExchange d tmp =>
    cases h
    cases isExchange <;> simp at hw
  | unlockCas next current =>
    simp only [exec] at h
    split at h <;> cases h
    · rw [State.goto_thr_self] at hw
      cases next with
      | finish => cases hw
      | wait o w =>
        cases hw
        exact .inr hholds.1.1
    · simp at hw
  | waiting o w =>
    simp only [exec, Option.some.injEq] at h
    split at h <;> subst h
    · simp at hw
    · exact .inl (hpc.symm.trans hw)
  | finish res dying =>
    cases dying <;> cases h <;> simp at hw
  | _ =>
    cases h
    simp at hw

theorem step_waitInv (hi : Inv s) (hwait : WaitInv s) {l : Label ι} (hk : KeepsPtr s l) (h : step s l = some s') :
    WaitInv s' := by
  intro t old v hpc hv
  obtain ⟨u, act⟩ := l
  cases act with
  | run =>
    have hpub := exec_publishes h
    by_cases htu : t = u
    · subst htu
      split at hpub
      · rw [hpub] at hv ⊢
        rcases exec_waiting hi rfl h hpc with hold | hpair
        · exact hwait t old v hold hv
        · exact hpair
      · exact absurd hpc (hpub.2.2 old v)
    · rw [step_thr_ne h htu] at hpc
      split at hpub
      · rw [hpub] at hv ⊢
        exact hwait t old v hpc hv
      · next d hd =>
        rw [hpub.1] at hv ⊢
        have hptr := hk rfl d hd t old v hpc hv
        obtain rfl := hi.waits t old v hpc
        cases d
        cases old
        simp_all
  | notify =>
    simp only [step, Option.ite_none_right_eq_some, Option.some.injEq] at h
    obtain ⟨-, rfl⟩ := h
    exact hwait t old v hpc hv
  | begin | make | drop =>
    simp only [step, Option.ite_none_right_eq_some, Option.some.injEq] at h
    obtain ⟨-, rfl⟩ := h
    by_cases htu : t = u
    · subst htu
      simp at hpc
    · exact hwait t old v (by simpa [htu] using hpc) hv

/-- A step that publishes the block with another pointer goes unnoticed at once. -/
theorem not_wakes_of_step (hi : Inv s) {l : Label ι} (hk : ¬ KeepsPtr s l) (h : step s l = some s') : ¬ Wakes s' := by
  simp only [KeepsPtr, not_forall] at hk
  obtain ⟨hrun, d, hd, t, old, v, hpc, hv, hptr⟩ := hk
  obtain ⟨u, act⟩ := l
  obtain rfl : act = .run := hrun
  have hpub := exec_publishes h
  rw [hd] at hpub
  obtain ⟨hpair, hval, -⟩ := hpub
  have htu : t ≠ u := by
    rintro rfl
    rw [hpc] at hd
    cases hd
  rw [(hi.step h).wakes_iff]
  intro hwait
  have hsame := hwait (by rw [hval]; exact d.pi.2) t old v (by rwa [step_thr_ne h htu]) (by rw [hpair, hv])
  rw [hpair] at hsame
  exact hptr (by rw [hsame])

/-- **When a waiter can tell every change**: just in the runs in which no
thread publishes the block that another waits on with a pointer it does not
wait on. -/
theorem wakes_iff_keepsPtr (v : Value) (ls : List (Label ι)) (s : State ι)
    (h : run step (State.init v) ls = some s) :
    (∀ u, Visits step (State.init v) ls u → Wakes u) ↔ Along step KeepsPtr (State.init v) ls := by
  constructor
  · intro hwakes
    rw [along_iff]
    intro pre l post u hls hpre
    rw [hls, run_append] at h
    obtain ⟨u₁, hu, hpost⟩ := h
    obtain rfl : u = u₁ := Option.some.inj (hpre.symm.trans hu)
    obtain ⟨u', hl, -⟩ := run_cons.mp hpost
    by_contra hk
    refine not_wakes_of_step (Inv.run hpre) hk hl (hwakes u' ⟨pre ++ [l], post, ?_, run_snoc.mpr ⟨u, hpre, hl⟩⟩)
    simp [hls]
  · rintro hk u ⟨pre, post, rfl, hpre⟩
    have hpair := run_invariant_along (I := fun s => Inv s ∧ WaitInv s)
      (fun s l s' hi hc hs => ⟨hi.1.step hs, step_waitInv hi.1 hi.2 hc hs⟩) hpre (hk.append hpre).1
      ⟨.init v, nofun⟩
    exact hpair.1.wakes_iff.mpr fun _ => hpair.2

end

/-- A store of another pointer with the same block, and the notification:
the waiter's test does not tell it from what it waits on. -/
theorem wait_misses_alias : ∃ (old d : Value) (ls : List (Label (Fin 2))) (s : State (Fin 2)),
    run step (State.init old) ls = some s ∧ s.val &&& lockBit = 0 ∧ (s.thr 0).pc = .waiting old old.pi ∧
      s.pair = d ∧ d ≠ old ∧ wakeTest s.val old.pi = false := by
  let old : Value := ⟨16, ⟨32, by decide⟩⟩
  let d : Value := ⟨24, ⟨32, by decide⟩⟩
  let ls : List (Label (Fin 2)) :=
    [⟨0, .make old⟩, ⟨1, .make d⟩, ⟨0, .begin (.wait old)⟩, ⟨0, .run⟩, ⟨0, .run⟩, ⟨0, .run⟩, ⟨0, .run⟩, ⟨0, .run⟩,
      ⟨0, .run⟩, ⟨1, .begin (.store d)⟩, ⟨1, .run⟩, ⟨1, .run⟩, ⟨1, .run⟩, ⟨1, .run⟩, ⟨1, .run⟩, ⟨1, .run⟩, ⟨1, .run⟩,
      ⟨1, .notify⟩]
  let s : State (Fin 2) := (run step (State.init old) ls).getD (State.init old)
  have hs : run step (State.init old) ls = some s := run_getD (by decide +kernel) _
  exact ⟨old, d, ls, s, hs, by decide +kernel, by decide +kernel, by decide +kernel, by decide, by decide +kernel⟩

/-- With another block the waiter can tell. -/
theorem wakes_iff_keepsPtr_store : ∃ (old d : Value) (ls : List (Label (Fin 2))) (s : State (Fin 2)),
    run step (State.init old) ls = some s ∧ (s.thr 0).pc = .waiting old old.pi ∧ s.pair = d ∧
      ((∀ u, Visits step (State.init old) ls u → Wakes u) ↔ Along step KeepsPtr (State.init old) ls) := by
  let old : Value := ⟨16, ⟨32, by decide⟩⟩
  let d : Value := ⟨48, ⟨64, by decide⟩⟩
  let ls : List (Label (Fin 2)) :=
    [⟨0, .make old⟩, ⟨1, .make d⟩, ⟨0, .begin (.wait old)⟩, ⟨0, .run⟩, ⟨0, .run⟩, ⟨0, .run⟩, ⟨0, .run⟩, ⟨0, .run⟩,
      ⟨0, .run⟩, ⟨1, .begin (.store d)⟩, ⟨1, .run⟩, ⟨1, .run⟩, ⟨1, .run⟩, ⟨1, .run⟩, ⟨1, .run⟩]
  let s : State (Fin 2) := (run step (State.init old) ls).getD (State.init old)
  have hs : run step (State.init old) ls = some s := run_getD (by decide +kernel) _
  exact ⟨old, d, ls, s, hs, by decide +kernel, by decide +kernel, wakes_iff_keepsPtr old ls s hs⟩

end SharedPtr.Atomic
