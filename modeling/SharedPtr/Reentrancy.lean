/-
What a deleter, or the destructor of the object, may do with weak handles to
the block that is calling it. While `_M_dispose` runs its thread may begin
operations (`Thread.canBegin`): the conversions it makes fail, each after
finitely many steps of its own, and the use counts it reads are zero; what it
does to the weak count neither calls `_M_destroy` before `_M_dispose` returns
nor keeps it from being called in the end.

A thread in user code has no conversion of its own under way
(`LockOnTop.not_locking`), so a program with one thread never waits for the
mutex and never sees a count that is to be reset.
-/
import SharedPtr.AddRefLock
import SharedPtr.Expiry

namespace SharedPtr

open Lib Finset

variable {ι : Type}

/-- `_M_dispose` has been called and has not returned. -/
def State.InDispose (s : State ι) : Prop := s.block.disposeCalls ≠ s.block.disposeReturns

/-- Thread `t` is inside `_M_add_ref_lock_nothrow`. -/
def State.Locking (s : State ι) (t : ι) : Prop := ∃ i ∈ (s.thr t).todo, i.phase ≠ none

/-! ## Conversions are never interrupted by their own thread -/

/-- Only the next instruction may be a conversion's. -/
def Thread.LockOnTop (th : Thread) : Prop := ∀ i ∈ th.todo.tail, i.phase = none

/-- What an operation or an instruction puts on the list of things to do. -/
def Pushes (th th' : Thread) : Prop := ∃ is, th'.todo = is ++ th.todo ∧ ∀ i ∈ is.tail, i.phase = none

theorem Pushes.lockOnTop {th th' : Thread} (h : Pushes th th') (hth : ∀ i ∈ th.todo, i.phase = none) :
    th'.LockOnTop := by
  obtain ⟨is, htodo, his⟩ := h
  intro i hi
  rw [htodo] at hi
  cases is with
  | nil => exact hth i (List.mem_of_mem_tail hi)
  | cons j is =>
    rcases List.mem_append.mp hi with hi | hi
    · exact his i hi
    · exact hth i hi

theorem Pushes.of_todo {th th' : Thread} (h : th'.todo = th.todo) : Pushes th th' := ⟨[], h, nofun⟩

theorem Pushes.push_one {th th' : Thread} (i : Instr) (h : th'.todo = i :: th.todo) : Pushes th th' :=
  ⟨[i], h, nofun⟩

theorem Pushes.drop (th : Thread) (k : Kind) (pi : Pi) : Pushes th (th.drop k pi) := by
  cases pi with
  | other => exact .of_todo rfl
  | self => exact .push_one _ rfl

theorem Pushes.releaseThenSet (th : Thread) (k : Kind) (p : Nat) (pi tmp : Pi) :
    Pushes th (th.releaseThenSet k p pi tmp) := by
  cases pi with
  | other => exact .of_todo rfl
  | self => exact ⟨[.release k, .set k p tmp], rfl, by simp [Instr.phase]⟩

theorem Pushes.lockFails (th : Thread) (r p : Nat) (nothrow : Bool) : Pushes th (th.lockFails r p nothrow) := by
  cases nothrow <;> exact .of_todo rfl

theorem Pushes.lockSucceeds (th : Thread) (r p : Nat) (nothrow : Bool) : Pushes th (th.lockSucceeds r p nothrow) := by
  cases nothrow with
  | true => exact .push_one _ rfl
  | false => exact .of_todo rfl

theorem begin_pushes {lp : LockPolicy} {b b' : CountedBase} {th th' : Thread} {op : Op}
    (h : begin lp b th op = some (b', th')) : Pushes th th' := by
  cases op with
  | make k p =>
    cases h
    exact .of_todo rfl
  | copyShared r p | weakFromShared r p | copyWeak r p =>
    simp only [begin, Option.bind_eq_bind, Option.bind_eq_some_iff, Option.some.injEq, Prod.mk.injEq] at h
    obtain ⟨pi, -, b₁, -, -, rfl⟩ := h
    exact .of_todo rfl
  | move k r p =>
    simp only [begin, Option.bind_eq_bind, Option.bind_eq_some_iff, Option.some.injEq, Prod.mk.injEq] at h
    obtain ⟨pi, -, -, rfl⟩ := h
    exact .of_todo rfl
  | assignShared p r =>
    simp only [begin, Option.bind_eq_bind, Option.bind_eq_some_iff] at h
    obtain ⟨tmp, -, pi, -, h⟩ := h
    split at h
    · cases h
      exact .of_todo rfl
    · simp only [Option.bind_eq_some_iff, Option.some.injEq, Prod.mk.injEq] at h
      obtain ⟨b₁, -, -, rfl⟩ := h
      exact .releaseThenSet ..
  | assignWeakShared p r | assignWeak p r =>
    simp only [begin, Option.bind_eq_bind, Option.bind_eq_some_iff, Option.some.injEq, Prod.mk.injEq] at h
    obtain ⟨tmp, -, pi, -, b₁, -, -, rfl⟩ := h
    exact .releaseThenSet ..
  | moveAssign k p r =>
    simp only [begin, Option.bind_eq_bind, Option.bind_eq_some_iff, Option.some.injEq, Prod.mk.injEq] at h
    obtain ⟨tmp, -, pi, -, -, rfl⟩ := h
    exact .drop ..
  | moveAssignConv p r =>
    simp only [begin, Option.bind_eq_bind, Option.bind_eq_some_iff, Option.some.injEq, Prod.mk.injEq] at h
    obtain ⟨tmp, -, pi, -, -, rfl⟩ := h
    exact .releaseThenSet ..
  | swap k p q =>
    simp only [begin, Option.bind_eq_bind, Option.bind_eq_some_iff, Option.some.injEq, Prod.mk.injEq] at h
    obtain ⟨tmp, -, pi, -, -, rfl⟩ := h
    exact .of_todo rfl
  | reset k p | destroy k p =>
    simp only [begin, Option.bind_eq_bind, Option.bind_eq_some_iff, Option.some.injEq, Prod.mk.injEq] at h
    obtain ⟨pi, -, -, rfl⟩ := h
    exact .drop ..
  | convert nothrow r p =>
    simp only [begin] at h
    split at h
    · cases h
    · cases h
      cases nothrow <;> exact .of_todo rfl
    · cases lp with
      | single =>
        simp only [addRefLockNothrow] at h
        split at h
        · cases h
          exact .lockFails (th.take .weak r) ..
        · simp only [Option.map_eq_some_iff, Prod.mk.injEq] at h
          obtain ⟨b₁, -, -, rfl⟩ := h
          exact .lockSucceeds (th.take .weak r) ..
      | mutex =>
        simp only [addRefLockNothrow, Option.ite_none_left_eq_some, Option.some.injEq, Prod.mk.injEq] at h
        obtain ⟨-, -, rfl⟩ := h
        exact .push_one _ rfl
      | atomic dw =>
        simp only [addRefLockNothrow] at h
        split at h
        · cases h
          exact .lockFails (th.take .weak r) ..
        · cases h
          exact .push_one _ rfl
  | useCount k r =>
    simp only [begin, Option.map_eq_some_iff, Prod.mk.injEq] at h
    obtain ⟨-, -, -, rfl⟩ := h
    exact .of_todo rfl

theorem exec_pushes {lp : LockPolicy} {b b' : CountedBase} {th th' : Thread} {spurious : Bool} {i : Instr}
    (h : exec lp b th spurious i = some (b', th')) : Pushes th th' := by
  have hdec {b₁ : CountedBase} {c : AtomicWord} {j : Instr}
      (h : some (b₁, if c = 1 then th.push [j] else th) = some (b', th')) : Pushes th th' := by
    obtain ⟨-, rfl⟩ := Prod.mk.inj (Option.some.inj h)
    split
    · exact .push_one _ rfl
    · exact .of_todo rfl
  cases i with
  | set k p tmp | lockGet r p =>
    cases h
    exact .of_todo rfl
  | release k =>
    cases k with
    | shared =>
      simp only [exec] at h
      split at h <;>
      · cases h
        exact .push_one _ rfl
    | weak => exact hdec (exec_decWeakLast lp b th spurious ▸ h)
  | decUse => exact hdec (exec_decUse lp b th spurious ▸ h)
  | decWeakLast => exact hdec (exec_decWeakLast lp b th spurious ▸ h)
  | zeroUse | zeroWeak | dispose | disposeReturn =>
    cases h
    exact .push_one _ rfl
  | destroy =>
    cases h
    exact .of_todo rfl
  | lockCas r p nothrow count =>
    simp only [exec] at h
    split at h
    · simp only [Option.bind_eq_bind, Option.bind_eq_some_iff, Option.some.injEq, Prod.mk.injEq] at h
      obtain ⟨-, -, -, rfl⟩ := h
      exact .lockSucceeds ..
    · split at h
      · cases h
        exact .lockFails ..
      · cases h
        exact .push_one _ rfl
  | lockAdd r p nothrow =>
    rw [exec_lockAdd] at h
    split at h
    · simp only [Option.map_eq_some_iff, Prod.mk.injEq] at h
      obtain ⟨-, -, -, rfl⟩ := h
      exact .push_one _ rfl
    · cases h
      exact .push_one _ rfl
  | lockUndo r p nothrow =>
    cases h
    exact .push_one _ rfl
  | lockUnlock r p nothrow ok =>
    cases h
    cases ok with
    | true => exact .lockSucceeds ..
    | false => exact .lockFails ..

/-- A thread between operations, or in user code, has no conversion under way. -/
theorem Thread.LockOnTop.phase_of_canBegin {th : Thread} (h : th.LockOnTop) (hcan : th.canBegin = true) :
    ∀ i ∈ th.todo, i.phase = none := by
  intro i hi
  unfold Thread.canBegin at hcan
  split at hcan
  next htodo => simp [htodo] at hi
  next sole rest htodo =>
    rw [htodo] at hi
    rcases List.mem_cons.mp hi with rfl | hi
    · rfl
    · exact h i (by rw [htodo]; exact hi)
  next => cases hcan

variable [DecidableEq ι]

theorem lockOnTop_step {lp : LockPolicy} {s s' : State ι} {l : Label ι} (h : step lp s l = some s')
    (hs : ∀ t, (s.thr t).LockOnTop) : ∀ t, (s'.thr t).LockOnTop := by
  obtain ⟨j, act⟩ := l
  have hset (x : CountedBase × Thread) (hx : x.2.LockOnTop) (t : ι) : ((s.set j x).thr t).LockOnTop := by
    by_cases ht : t = j
    · subst ht
      rwa [State.set_thr_self]
    · rw [State.set_thr_ne _ ht]
      exact hs t
  cases act with
  | begin op =>
    simp only [step, Option.ite_none_right_eq_some, Option.map_eq_some_iff] at h
    obtain ⟨hcan, ⟨b', th'⟩, hb, rfl⟩ := h
    exact hset _ ((begin_pushes hb).lockOnTop ((hs j).phase_of_canBegin hcan))
  | pass k p dest q =>
    simp only [step, Option.ite_none_right_eq_some, Option.bind_eq_bind, Option.bind_eq_some_iff,
      Option.some.injEq] at h
    obtain ⟨-, pi, -, rfl⟩ := h
    have hmid := hset (s.block, (s.thr j).take k p) (hs j)
    intro t
    by_cases ht : t = dest
    · subst ht
      rw [State.set_thr_self]
      exact hmid t
    · rw [State.set_thr_ne _ ht]
      exact hmid t
  | run spurious =>
    simp only [step] at h
    split at h
    next => cases h
    next i rest htodo =>
      simp only [Option.map_eq_some_iff] at h
      obtain ⟨⟨b', th'⟩, hx, rfl⟩ := h
      exact hset _ ((exec_pushes hx).lockOnTop fun i hi => hs j i (by rw [htodo]; exact hi))

theorem lockOnTop_run {lp : LockPolicy} {t₀ : ι} {s : State ι} {ls : List (Label ι)}
    (h : run (step lp) (State.init t₀) ls = some s) (t : ι) : (s.thr t).LockOnTop :=
  run_invariant (fun _ _ _ hs h => lockOnTop_step h hs) h (fun _ => nofun) t

omit [DecidableEq ι] in
theorem not_locking {s : State ι} {t : ι} (h : (s.thr t).LockOnTop) (hcan : (s.thr t).canBegin = true) :
    ¬ s.Locking t := by
  rintro ⟨i, hi, hph⟩
  exact hph (h.phase_of_canBegin hcan i hi)

/-! ## A conversion when no shared handle is left -/

theorem step_run {lp : LockPolicy} {s : State ι} {t : ι} {th : Thread} {i : Instr}
    (h : s.thr t = th.push [i]) (spurious : Bool) :
    step lp s ⟨t, .run spurious⟩ = (exec lp s.block th spurious i).map (s.set t) := by
  simp only [step, h]
  rfl

/-- A conversion that finds the count zero and the mutex free returns by its
own thread's steps, and leaves the block as it was. -/
theorem convert_fails {lp : LockPolicy} {s : State ι} {t : ι} {r : Nat} (nothrow : Bool) (p : Nat)
    (hcan : (s.thr t).canBegin = true) (hslot : (s.thr t).slot .weak r = some .self) (hz : s.block.useCount = 0)
    (hfree : lp = .mutex → s.block.locked = false) :
    ∃ ls s', ConvertCall lp t false s (⟨t, .begin (.convert nothrow r p)⟩ :: ls) s' ∧ (∀ l ∈ ls, l.thread = t) ∧
      s'.thr t = ((s.thr t).take .weak r).lockFails r p nothrow ∧ s'.block = s.block := by
  let th := (s.thr t).take .weak r
  have hbegin : step lp s ⟨t, .begin (.convert nothrow r p)⟩ =
      (addRefLockNothrow lp s.block th r p nothrow).map (s.set t) := by
    simp [step, hcan, begin, hslot, th]
  have hbegins (ls : List (Label ι)) : ∃ nothrow' r' p' rest,
      (⟨t, .begin (.convert nothrow r p)⟩ : Label ι) :: ls = ⟨t, .begin (.convert nothrow' r' p')⟩ :: rest ∧
        (s.thr t).slot .weak r' = some .self := ⟨nothrow, r, p, ls, rfl, hslot⟩
  cases lp with
  | single =>
    refine ⟨[], s.set t (s.block, th.lockFails r p nothrow), ⟨hbegins [], .done rfl ?_ ?_⟩, by simp, ?_, rfl⟩
    · simp [hbegin, addRefLockNothrow, hz]
    · simp [returns, hslot, hz]
    · exact State.set_thr_self ..
  | atomic dw =>
    refine ⟨[], s.set t (s.block, th.lockFails r p nothrow), ⟨hbegins [], .done rfl ?_ ?_⟩, by simp, ?_, rfl⟩
    · simp [hbegin, addRefLockNothrow, hz]
    · simp [returns, hslot, hz]
    · exact State.set_thr_self ..
  | mutex =>
    have hfree := hfree rfl
    let s₁ := s.set t ({ s.block with locked := true }, th.push [.lockAdd r p nothrow])
    let s₂ := s₁.set t ({ s₁.block with useCount := s₁.block.useCount + 1 }, th.push [.lockUndo r p nothrow])
    let s₃ := s₂.set t ({ s₂.block with useCount := 0 }, th.push [.lockUnlock r p nothrow false])
    let s₄ := s₃.set t ({ s₃.block with locked := false }, th.lockFails r p nothrow)
    have h₁ : step .mutex s ⟨t, .begin (.convert nothrow r p)⟩ = some s₁ := by
      simp [hbegin, addRefLockNothrow, hfree, s₁]
    have h₂ : step .mutex s₁ ⟨t, .run false⟩ = some s₂ := by
      have hz₁ : ¬ s₁.block.useCount ≠ 0 := not_not.mpr hz
      rw [step_run (State.set_thr_self ..), exec_lockAdd, if_neg hz₁]
      rfl
    have h₃ : step .mutex s₂ ⟨t, .run false⟩ = some s₃ := by
      rw [step_run (State.set_thr_self ..)]
      rfl
    have h₄ : step .mutex s₃ ⟨t, .run false⟩ = some s₄ := by
      rw [step_run (State.set_thr_self ..)]
      rfl
    refine ⟨[⟨t, .run false⟩, ⟨t, .run false⟩, ⟨t, .run false⟩], s₄,
      ⟨hbegins _, .own rfl h₁ ?_ (.own rfl h₂ ?_ (.own rfl h₃ ?_ (.done rfl h₄ ?_)))⟩, by simp, ?_, ?_⟩
    · simp [returns]
    · simp [returns, s₁, Thread.push]
    · simp [returns, s₂, Thread.push]
    · simp [returns, s₃, Thread.push]
    · exact State.set_thr_self ..
    · -- counted up from zero, and reset
      show { s.block with useCount := 0, locked := false } = s.block
      rw [← hz, ← hfree]

/-! ## In `_M_dispose` -/

section

variable [Fintype ι] {lp : LockPolicy} {s : State ι}

/-- What holds in a state of a run for the program that `_M_dispose` runs. -/
structure DisposeReentrant (lp : LockPolicy) (s : State ι) : Prop where
  /-- No conversion that returns has succeeded. -/
  noneSucceeds : s.InDispose → ∀ l s' ok, step lp s l = some s' → returns lp s l = some ok → ok = false
  /-- A conversion returns: `lock()` makes an empty pointer, the constructor throws. -/
  returns : s.InDispose → ∀ t nothrow r p, (s.thr t).canBegin = true → (s.thr t).slot .weak r = some .self →
    (lp = .mutex → ∀ u ≠ t, ¬ s.Locking u) →
    ∃ ls s', ConvertCall lp t false s (⟨t, .begin (.convert nothrow r p)⟩ :: ls) s' ∧ (∀ l ∈ ls, l.thread = t) ∧
      s'.thr t = ((s.thr t).take .weak r).lockFails r p nothrow ∧ s'.block = s.block
  /-- `use_count()` is zero. -/
  useCount : s.InDispose → ∀ l s' c, step lp s l = some s' → s.observes l = some c →
    (lp = .mutex → ∀ u ≠ l.thread, ¬ s.Locking u) → c = 0
  /-- `_M_destroy` is called after `_M_dispose` has returned. -/
  destroyLater : s.block.destroyCalls ≠ 0 → s.block.disposeCalls = 1 ∧ s.block.disposeReturns = 1
  once : s.block.disposeCalls ≤ 1 ∧ s.block.destroyCalls ≤ 1
  /-- When no handle is left and nothing in progress, each has been called. -/
  ended : s.Idle → (∀ k, s.held k = 0) → s.block.disposeCalls = 1 ∧ s.block.destroyCalls = 1

omit [DecidableEq ι] in
theorem Inv.expired_of_inDispose (hi : Inv lp s) (h : s.InDispose) : s.Expired := by
  have hd := hi.ledger.disposeCalls
  have hr := hi.ledger.disposeReturns
  unfold State.InDispose at h
  unfold State.Expired
  omega

omit [DecidableEq ι] in
/-- Nobody has the mutex when nobody is inside a conversion. -/
theorem Inv.not_locked (hi : Inv lp s) (h : ∀ t, ¬ s.Locking t) : s.block.locked = false := by
  by_contra hl
  have hlocked := hi.ledger.locked
  rw [Bool.not_eq_false _ |>.mp hl, Bool.toNat_true] at hlocked
  have hmem : .mutex ∈ s.accounts ∨ .undo ∈ s.accounts := by
    rw [← Multiset.count_pos, ← Multiset.count_pos]
    omega
  have hph {i : Instr} (hi : .mutex ∈ i.accounts ∨ .undo ∈ i.accounts) : i.phase ≠ none := by
    cases i with
    | set k p tmp => cases tmp <;> simp [Instr.accounts, Pi.accounts] at hi
    | lockAdd | lockUndo | lockUnlock => simp [Instr.phase]
    | _ => simp [Instr.accounts] at hi
  rw [mem_accounts_iff (a := .mutex) (by simp), mem_accounts_iff (a := .undo) (by simp)] at hmem
  rcases hmem with ⟨t, i, hi, ha⟩ | ⟨t, i, hi, ha⟩
  · exact h t ⟨i, hi, hph (.inl ha)⟩
  · exact h t ⟨i, hi, hph (.inr ha)⟩

omit [DecidableEq ι] [Fintype ι] in
theorem State.Undoing.locking (h : s.Undoing) : ∃ t, s.Locking t := by
  obtain ⟨t, r, p, nothrow, h⟩ := h
  exact ⟨t, _, h, by simp [Instr.phase]⟩

/-- **`_M_dispose` is re-entrant for weak handles**, in every state of every
run and for each policy. -/
theorem dispose_reentrant (lp : LockPolicy) (t₀ : ι) (ls : List (Label ι)) (s : State ι)
    (h : run (step lp) (State.init t₀) ls = some s) : DisposeReentrant lp s := by
  have hi := Inv.run h
  have hlife : Lifetime lp s := hi.ledger.lifetime
  have htop := lockOnTop_run h
  -- while no other thread is inside a conversion, a thread in user code sees the count of no owners
  have hzero (hin : s.InDispose) {t : ι} (hcan : (s.thr t).canBegin = true)
      (hothers : lp = .mutex → ∀ u ≠ t, ¬ s.Locking u) :
      s.block.useCount = 0 ∧ (lp = .mutex → s.block.locked = false) := by
    have hnone (hlp : lp = .mutex) (u : ι) : ¬ s.Locking u := by
      by_cases hu : u = t
      · exact hu ▸ not_locking (htop t) hcan
      · exact hothers hlp u hu
    refine ⟨(hi.useCount_eq_zero (hi.expired_of_inDispose hin)).mpr fun hundo => ?_, fun hlp => hi.not_locked (hnone hlp)⟩
    by_cases hlp : lp = .mutex
    · obtain ⟨u, hu⟩ := hundo.locking
      exact hnone hlp u hu
    · exact hi.not_undoing hlp hundo
  refine ⟨fun hin l s' ok hs hr => ?_, fun hin t nothrow r p hcan hslot hothers => ?_,
    fun hin l s' c hs hobs hothers => ?_, fun hd => ?_, ⟨hlife.disposeOnce, hlife.destroyOnce⟩, fun hidle hheld => ?_⟩
  · cases ok with
    | false => rfl
    | true =>
      have he := expired_step hi hs (hi.expired_of_inDispose hin)
      exact (not_expired_of_mem (ref_mem_of_returns hs hr) he).elim
  · obtain ⟨hz, hfree⟩ := hzero hin hcan hothers
    exact convert_fails nothrow p hcan hslot hz hfree
  · obtain ⟨j, act⟩ := l
    rw [State.observes_eq hobs, ← eq_zero_iff]
    cases act with
    | begin op =>
      simp only [step, Option.ite_none_right_eq_some] at hs
      exact (hzero hin hs.1 hothers).1
    | pass => cases hobs
    | run spurious =>
      -- the read at the end of a `lock()` that has succeeded: not in `_M_dispose`
      simp only [State.observes] at hobs
      split at hobs
      next r p rest htodo =>
        have hmem : .ref .shared ∈ s.accounts :=
          mem_accounts_of_thread (mem_of_todo htodo (by simp [Instr.accounts]))
        exact (not_expired_of_mem hmem (hi.expired_of_inDispose hin)).elim
      next => cases hobs
  · have hr := (hlife.destroyLast hd).1
    have hcalls := hi.ledger.disposeReturns
    have honce := hlife.disposeOnce
    omega
  · obtain ⟨h₁, -, h₂⟩ := hlife.ended hidle hheld
    exact ⟨h₁, h₂⟩

end

/-- One thread, under the mutex policy: the object's weak handle 1 is copied
in `_M_dispose` and destroyed there, and the copy is still there. -/
theorem dispose_reentrant_member : ∃ (ls : List (Label (Fin 1))) (s : State (Fin 1)),
    run (step .mutex) (State.init 0) ls = some s ∧ s.InDispose ∧ (s.thr 0).slot .weak 2 = some .self ∧
      DisposeReentrant .mutex s := by
  let ls : List (Label (Fin 1)) :=
    [⟨0, .begin (.weakFromShared 0 1)⟩, ⟨0, .begin (.destroy .shared 0)⟩, ⟨0, .run false⟩, ⟨0, .run false⟩,
      ⟨0, .run false⟩, ⟨0, .begin (.copyWeak 1 2)⟩, ⟨0, .begin (.destroy .weak 1)⟩, ⟨0, .run false⟩]
  have h : (run (step .mutex) (State.init 0) ls).map (fun s => (s.block, (s.thr 0).slot .weak 2)) =
      some (⟨0, 2, false, 1, 0, 0⟩, some .self) := by decide +kernel
  obtain ⟨s, hs, hb⟩ := Option.map_eq_some_iff.mp h
  obtain ⟨hblock, hslot⟩ := Prod.mk.inj hb
  refine ⟨ls, s, hs, ?_, hslot, dispose_reentrant _ 0 ls s hs⟩
  rw [State.InDispose, hblock]
  decide

end SharedPtr
