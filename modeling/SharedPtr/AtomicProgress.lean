/-
The lock of `_Sp_atomic` over whole runs: a thread that has it gives it up
within five steps of its own, whatever the others do; and while nobody has it,
a thread left alone returns from its operation, or is in `_M_val.wait`, within
ten. So nothing that threads do can keep an operation from its end for good
(`operations_finish`).
-/
import SharedPtr.Lib.Alone
import SharedPtr.SpAtomicInv

namespace SharedPtr.Atomic

open Lib

/-- The steps a thread takes until it gives up the lock. -/
def Pc.hold : Pc → Nat
  | .locked .. => 5
  | .casRead .. => 4
  | .loadRef _ | .casRef .. | .waitLoad _ => 3
  | .swapWrite .. | .casWrite .. | .unlockLoad _ => 2
  | .swapPublish .. | .casPublish .. | .unlockCas .. => 1
  | .idle | .spin _ | .lockCas .. | .waiting .. | .finish .. => 0

def After.rest : After → Nat
  | .finish _ dying => dying.length + 1
  | .wait .. => 0

/-- The steps of its own to the end of its operation, or to the platform wait,
of a thread that finds the lock free or has it. -/
def Pc.rest : Pc → Nat
  | .idle | .waiting .. => 0
  | .spin _ | .lockCas .. => 10
  | .locked .. => 8
  | .casRead .. => 7
  | .casRef .. => 6
  | .loadRef _ | .swapWrite .. | .casWrite .. => 4
  | .waitLoad _ | .swapPublish .. | .casPublish .. => 3
  | .unlockLoad next => next.rest + 2
  | .unlockCas next _ => next.rest + 1
  | .finish _ dying => dying.length + 1

theorem Pc.hold_le (pc : Pc) : pc.hold ≤ 5 := by
  cases pc <;> simp [hold]

/-- Neither on its way to the lock nor in `_M_val.wait`. -/
def Pc.busy : Pc → Bool
  | .idle | .spin _ | .lockCas .. | .waiting .. => false
  | _ => true

/-- Back in its caller, or in `_M_val.wait`. -/
def Pc.stopped : Pc → Bool
  | .idle | .waiting .. => true
  | _ => false

theorem Pc.hold_pos {pc : Pc} (h : pc.inside = true) : 0 < pc.hold := by
  cases pc <;> first | exact Nat.succ_pos _ | cases h

theorem Pc.busy_of_inside {pc : Pc} (h : pc.inside = true) : pc.busy = true := by
  cases pc <;> first | rfl | cases h

variable {ι : Type} [DecidableEq ι] {s s' : State ι} {t : ι} {pc : Pc}

/-- A step of a thread that is busy can be taken, and brings it nearer to the
end of its operation, and to that of its time with the lock. -/
theorem exec_busy (hi : Inv s) (hpc : (s.thr t).pc = pc) (hb : pc.busy = true) :
    ∃ s', exec s t pc = some s' ∧ ((s'.thr t).pc.busy = true ∨ (s'.thr t).pc.stopped = true) ∧
      (s'.thr t).pc.rest < pc.rest ∧ (s'.thr t).pc.hold ≤ pc.hold - 1 := by
  have hholds := hi.holds t
  rw [hpc] at hholds
  cases pc with
  | idle | spin | lockCas | waiting => cases hb
  | locked op pi =>
    cases op with
    | load | store | exchange => exact ⟨_, rfl, by simp [Pc.busy], by simp [Pc.rest], by simp [Pc.hold]⟩
    | compareExchangeStrong e d =>
      simp only [exec]
      split <;> exact ⟨_, rfl, by simp [Pc.busy], by simp [Pc.rest], by simp [Pc.hold]⟩
    | wait old =>
      simp only [exec]
      split <;> exact ⟨_, rfl, by simp [Pc.busy], by simp [Pc.rest, After.rest], by simp [Pc.hold]⟩
  | loadRef | swapWrite | casWrite | casPublish | casRead | casRef | waitLoad | unlockLoad =>
    exact ⟨_, rfl, by simp [Pc.busy], by simp [Pc.rest, After.rest], by simp [Pc.hold]⟩
  | swapPublish isExchange d tmp =>
    cases isExchange <;> exact ⟨_, rfl, by simp [Pc.busy], by simp [Pc.rest], by simp [Pc.hold]⟩
  | unlockCas next current =>
    obtain ⟨-, rfl, -⟩ := hholds
    refine ⟨_, by simp only [exec, if_true]; rfl, ?_, ?_, ?_⟩
    · cases next <;> simp [After.pc, Pc.busy, Pc.stopped]
    · cases next <;> simp [After.pc, Pc.rest, After.rest]
    · cases next <;> simp [After.pc, Pc.hold]
  | finish res dying =>
    cases dying <;> exact ⟨_, rfl, by simp [Pc.busy, Pc.stopped], by simp [Pc.rest], by simp [Pc.hold]⟩

variable {l : Label ι} {ls : List (Label ι)}

/-- In an operation, a thread's only step is the next one of that. -/
theorem run_of_step (h : step s l = some s') (hpc : (s.thr l.thread).pc ≠ .idle) :
    l.act = .run ∧ exec s l.thread (s.thr l.thread).pc = some s' := by
  obtain ⟨t, act⟩ := l
  cases act with
  | run => exact ⟨rfl, h⟩
  | begin | make | drop | notify => simp [step, hpc] at h

/-- While a thread has the lock, its steps are no more than it takes to give it up. -/
theorem steps_inside (hi : Inv s) (h : run step s ls = some s')
    (hin : ∀ u, Visits step s ls u → (u.thr t).pc.inside = true) :
    ls.countP (·.thread = t) + (s'.thr t).pc.hold ≤ (s.thr t).pc.hold := by
  induction ls generalizing s with
  | nil =>
    cases h
    simp
  | cons l ls ih =>
    obtain ⟨s₁, h₁, h₂⟩ := run_cons.mp h
    have hrest := ih (hi.step h₁) h₂ fun u hu => hin u (.cons h₁ hu)
    have hnow := hin s .start
    by_cases hl : l.thread = t
    · subst hl
      obtain ⟨-, hexec⟩ := run_of_step h₁ fun hidle => by simp [hidle, Pc.inside] at hnow
      obtain ⟨s₂, hs₂, -, -, hhold⟩ := exec_busy hi rfl (Pc.busy_of_inside hnow)
      obtain rfl : s₂ = s₁ := Option.some.inj (hs₂.symm.trans hexec)
      have hpos := Pc.hold_pos hnow
      rw [List.countP_cons_of_pos (by simp)]
      omega
    · have hsame := step_thr_ne h₁ (Ne.symm hl)
      rw [hsame] at hrest
      rwa [List.countP_cons_of_neg (by simpa using hl)]

abbrev Alone (t : ι) (Q : State ι → Prop) (n : Nat) (s : State ι) : Prop := Soon step (fun l : Label ι => l.thread = t) Q n s

/-- The only step of a thread in an operation, taken alone. -/
theorem Alone.exec {Q : State ι → Prop} {n : Nat} (hpc : (s.thr t).pc ≠ .idle)
    (h : ∃ s', exec s t (s.thr t).pc = some s' ∧ Alone t Q n s') : Alone t Q (n + 1) s := by
  obtain ⟨s₁, hs₁, hsoon⟩ := h
  refine .next ⟨⟨t, .run⟩, s₁, rfl, hs₁⟩ ?_
  rintro l s' rfl hs
  obtain ⟨-, hexec⟩ := run_of_step hs hpc
  obtain rfl : s₁ = s' := Option.some.inj (hs₁.symm.trans hexec)
  exact hsoon

theorem Pc.ne_idle_of_busy {pc : Pc} (h : pc.busy = true) : pc ≠ .idle := by
  rintro rfl
  cases h

/-- The only thread that can have the lock gives it up. -/
theorem alone_leaves {n : Nat} (hi : Inv s) (hothers : ∀ u ≠ t, (s.thr u).pc.inside = false) (hn : (s.thr t).pc.hold ≤ n) :
    Alone t (fun s' => ∀ u, (s'.thr u).pc.inside = false) n s := by
  have hout : (s.thr t).pc.inside = false → ∀ u, (s.thr u).pc.inside = false := fun hown u =>
    if hu : u = t then hu ▸ hown else hothers u hu
  induction n generalizing s with
  | zero =>
    refine .now (hout ((Bool.eq_false_or_eq_true _).resolve_left fun hin => ?_))
    have := Pc.hold_pos hin
    omega
  | succ n ih =>
    cases hin : (s.thr t).pc.inside with
    | false => exact .now (hout hin)
    | true =>
      have hb := Pc.busy_of_inside hin
      obtain ⟨s₁, hs₁, -, -, hhold⟩ := exec_busy hi rfl hb
      have hothers₁ : ∀ u ≠ t, (s₁.thr u).pc.inside = false := fun u hu => by
        rw [exec_thr_ne hs₁ hu]
        exact hothers u hu
      refine .exec (Pc.ne_idle_of_busy hb) ⟨s₁, hs₁, ih (exec_inv hi rfl hs₁) hothers₁ (by omega) fun hown u => ?_⟩
      exact if hu : u = t then hu ▸ hown else hothers₁ u hu

/-- A thread that is busy comes to the end of its operation. -/
theorem alone_ends {n : Nat} (hi : Inv s) (hb : (s.thr t).pc.busy = true ∨ (s.thr t).pc.stopped = true)
    (hn : (s.thr t).pc.rest ≤ n) : Alone t (fun s' => (s'.thr t).pc.stopped = true) n s := by
  induction n generalizing s with
  | zero =>
    refine .now (hb.resolve_left fun hb => ?_)
    obtain ⟨s₁, -, -, hrest, -⟩ := exec_busy hi rfl hb
    omega
  | succ n ih =>
    rcases hb with hb | hb
    · obtain ⟨s₁, hs₁, hb₁, hrest, -⟩ := exec_busy hi rfl hb
      exact .exec (Pc.ne_idle_of_busy hb) ⟨s₁, hs₁, ih (exec_inv hi rfl hs₁) hb₁ (by omega)⟩
    · exact .now hb

/-- The lock is taken where the word is as it was found. -/
theorem alone_locks {op : Op} {current : BlockPtr} (hi : Inv s) (hpc : (s.thr t).pc = .lockCas op current)
    (hval : s.val = current.val) : Alone t (fun s' => (s'.thr t).pc.stopped = true) 9 s := by
  have hexec : exec s t (s.thr t).pc = some ({ s with val := current.withBit }.goto t (.locked op current)) := by
    rw [hpc]
    exact if_pos hval
  refine .exec (by simp [hpc]) ⟨_, hexec, alone_ends (exec_inv hi rfl hexec) ?_ ?_⟩
  · simp [Pc.busy]
  · simp [Pc.rest]

/-- While nobody has the lock, a thread left alone comes to the end of its operation. -/
theorem alone_free (hi : Inv s) (hfree : ∀ u, (s.thr u).pc.inside = false) (hrest : (s.thr t).pc.rest ≤ 10) :
    Alone t (fun s' => (s'.thr t).pc.stopped = true) 10 s := by
  obtain ⟨hval, -⟩ := hi.free hfree
  have hclear : s.val &&& lockBit = 0 := by rw [hval]; exact s.pair.pi.2
  cases hpc : (s.thr t).pc with
  | spin op =>
    have hexec : exec s t (s.thr t).pc = some (s.goto t (.lockCas op ⟨s.val, hclear⟩)) := by
      simp only [hpc, exec, dif_pos hclear]
    exact .exec (by simp [hpc]) ⟨_, hexec,
      alone_locks (exec_inv hi rfl hexec) (congrArg Thread.pc (State.goto_thr_self _ _ _)) rfl⟩
  | lockCas op current =>
    by_cases hcur : s.val = current.val
    · exact (alone_locks hi hpc hcur).mono (by omega)
    · have hexec : exec s t (s.thr t).pc = some (s.goto t (.lockCas op (clear s.val))) := by
        simp only [hpc, exec, if_neg hcur]
      exact .exec (by simp [hpc]) ⟨_, hexec,
        alone_locks (exec_inv hi rfl hexec) (congrArg Thread.pc (State.goto_thr_self _ _ _)) (clear_of_and_eq hclear).symm⟩
  | idle | waiting => exact .now (by rw [hpc]; rfl)
  | _ => exact alone_ends hi (.inl (by rw [hpc]; rfl)) hrest

theorem step_rest (hi : Inv s) (hr : ∀ u, (s.thr u).pc.rest ≤ 10) (h : step s l = some s') (u : ι) :
    (s'.thr u).pc.rest ≤ 10 := by
  by_cases hu : u = l.thread
  · subst hu
    by_cases hidle : (s.thr l.thread).pc = .idle
    · obtain ⟨t, act⟩ := l
      cases act with
      | run => simp [step, exec, show (s.thr t).pc = .idle from hidle] at h
      | begin | make | drop | notify =>
        simp only [step, Option.ite_none_right_eq_some, Option.some.injEq] at h
        rw [← h.2]
        simp [Pc.rest, show (s.thr t).pc = .idle from hidle]
    · obtain ⟨-, hexec⟩ := run_of_step h hidle
      cases hpc : (s.thr l.thread).pc with
      | idle => exact absurd hpc hidle
      | spin op | lockCas op current | waiting old v =>
        rw [hpc] at hexec
        simp only [exec] at hexec
        split at hexec <;> cases hexec <;> simp [Pc.rest, hpc]
      | _ =>
        obtain ⟨s₁, hs₁, -, hrest, -⟩ := exec_busy hi hpc rfl
        rw [hpc] at hexec
        obtain rfl := Option.some.inj (hs₁.symm.trans hexec)
        have := hr l.thread
        rw [hpc] at this
        omega
  · rw [step_thr_ne h hu]
    exact hr u

theorem rest_run {v : Value} (h : run step (State.init v) ls = some s) (t : ι) : (s.thr t).pc.rest ≤ 10 := by
  have hboth := run_invariant (I := fun s : State ι => Inv s ∧ ∀ u, (s.thr u).pc.rest ≤ 10)
    (fun s l s' hi hs => ⟨hi.1.step hs, step_rest hi.1 hi.2 hs⟩) h ⟨.init v, fun _ => Nat.zero_le _⟩
  exact hboth.2 t

/-- **No operation is kept from its end.** A thread that gets the lock takes
less than five steps of its own before the one that gives it up, whatever the
others do; while nobody has it, each thread alone returns from its operation
or is in `_M_val.wait` after ten steps; and so all of them can come to that
from wherever they are. -/
theorem operations_finish (v : Value) (ls : List (Label ι)) (s : State ι) (h : run step (State.init v) ls = some s) :
    (∀ t ls' s', run step s ls' = some s' → (∀ u, Visits step s ls' u → (u.thr t).pc.inside = true) →
      ls'.countP (·.thread = t) < 5) ∧
    ((∀ u, (s.thr u).pc.inside = false) → ∀ t, Alone t (fun s' => (s'.thr t).pc.stopped = true) 10 s) ∧
    ∀ t, ∃ ls' s', ls'.length ≤ 15 ∧ run step s ls' = some s' ∧ (s'.thr t).pc.stopped = true := by
  have hi := Inv.run h
  refine ⟨fun t ls' s' hrun hin => ?_, fun hfree t => alone_free hi hfree (rest_run h t), fun t => ?_⟩
  · have hsteps := steps_inside hi hrun hin
    have hlast := Pc.hold_pos (hin s' ⟨ls', [], by simp, hrun⟩)
    have := (s.thr t).pc.hold_le
    omega
  · -- first the thread that has the lock, if there is one
    have hunlock : ∃ ls₁ s₁, ls₁.length ≤ 5 ∧ run step s ls₁ = some s₁ ∧ ∀ u, (s₁.thr u).pc.inside = false := by
      by_cases hex : ∃ u, (s.thr u).pc.inside = true
      · obtain ⟨u, hu⟩ := hex
        obtain ⟨ls₁, s₁, -, hlen, hrun, hout⟩ := (alone_leaves hi (hi.others hu) (Pc.hold_le _)).exists_run
        exact ⟨ls₁, s₁, hlen, hrun, hout⟩
      · exact ⟨[], s, Nat.zero_le _, rfl, fun u => (Bool.eq_false_or_eq_true _).resolve_left fun hu => hex ⟨u, hu⟩⟩
    obtain ⟨ls₁, s₁, hlen₁, hrun₁, hfree⟩ := hunlock
    have hall : run step (State.init v) (ls ++ ls₁) = some s₁ := run_append.mpr ⟨s, h, hrun₁⟩
    obtain ⟨ls₂, s₂, -, hlen₂, hrun₂, hstop⟩ := (alone_free (Inv.run hall) hfree (rest_run hall t)).exists_run
    exact ⟨ls₁ ++ ls₂, s₂, by rw [List.length_append]; omega, run_append.mpr ⟨s₁, hrun₁, hrun₂⟩, hstop⟩

/-- Thread 0 has the lock, thread 1 waits for it, and returns nevertheless. -/
theorem operations_finish_two :
    let start : State (Fin 2) := State.init ⟨0, .null⟩
    let ls : List (Label (Fin 2)) := [⟨0, .begin .load⟩, ⟨0, .run⟩, ⟨0, .run⟩, ⟨1, .begin .load⟩, ⟨1, .run⟩]
    let s := (run step start ls).getD start
    (s.thr 0).pc.inside = true ∧ (s.thr 1).pc = .spin .load ∧
      ∃ ls' s', ls'.length ≤ 15 ∧ run step s ls' = some s' ∧ (s'.thr 1).pc.stopped = true := by
  intro start ls s
  have hs : run step start ls = some s := run_getD (by decide) _
  exact ⟨by decide, by decide, (operations_finish _ ls s hs).2.2 1⟩

end SharedPtr.Atomic
