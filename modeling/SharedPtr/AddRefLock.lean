/-
`_M_add_ref_lock_nothrow`, the conversion of a weak handle to a shared one,
under each policy and every interleaving.

A call is the part of a run from the step that begins it to the step at which
it returns (`Returns`); other threads' steps come between. A call that
succeeds has one step that counts up, from a count that is not zero. A call
that fails saw a zero, and taking its steps out of the run changes nothing
for anybody else: under `_S_mutex` the count is one too high for a while, but
no thread is left that could tell.
-/
import SharedPtr.Lifetime

namespace SharedPtr

open Lib Finset

variable {ι : Type} [DecidableEq ι]

/-- Whether `l` is a step at which a call of `_M_add_ref_lock_nothrow`
returns, and what it returns. -/
def returns (lp : LockPolicy) (s : State ι) (l : Label ι) : Option Bool :=
  match l.act with
  | .begin (.convert _ r _) =>
    if (s.thr l.thread).slot .weak r = some .self then
      match lp with
      | .single => some (s.block.useCount != 0)
      | .mutex => none
      | .atomic _ => if s.block.useCount = 0 then some false else none
    else none
  | .run spurious =>
    match (s.thr l.thread).todo with
    | .lockCas _ _ _ count :: _ =>
      if s.block.useCount = count.val ∧ spurious = false then some true
      else if s.block.useCount = 0 then some false
      else none
    | .lockUnlock _ _ _ ok :: _ => some ok
    | _ => none
  | _ => none

/-- The rest of a call by thread `t`, from `s` on: it returns `ok` at the last
step, into `s'`. -/
inductive Returns (lp : LockPolicy) (t : ι) (ok : Bool) : State ι → List (Label ι) → State ι → Prop
  | done {s l s'} (hl : l.thread = t) (hs : step lp s l = some s') (hr : returns lp s l = some ok) :
    Returns lp t ok s [l] s'
  | own {s l s₁ ls s'} (hl : l.thread = t) (hs : step lp s l = some s₁) (hr : returns lp s l = none)
    (h : Returns lp t ok s₁ ls s') : Returns lp t ok s (l :: ls) s'
  | other {s l s₁ ls s'} (hl : l.thread ≠ t) (hs : step lp s l = some s₁) (h : Returns lp t ok s₁ ls s') :
    Returns lp t ok s (l :: ls) s'

/-- A whole call: `weak_ptr::lock()` or `shared_ptr(weak_ptr)` on a handle
that holds the block. -/
structure ConvertCall (lp : LockPolicy) (t : ι) (ok : Bool) (s : State ι) (ls : List (Label ι)) (s' : State ι) :
    Prop where
  begins : ∃ nothrow r p rest, ls = ⟨t, .begin (.convert nothrow r p)⟩ :: rest ∧ (s.thr t).slot .weak r = some .self
  returns : Returns lp t ok s ls s'

/-- No step of `t` changes the use count. -/
def Quiet (lp : LockPolicy) (t : ι) (s : State ι) (ls : List (Label ι)) : Prop :=
  Along (step lp) (fun u l => l.thread = t → ∀ u', step lp u l = some u' → u'.block.useCount = u.block.useCount) s ls

/-- One step of `t` changes the use count: it finds it not zero, and adds one. -/
def CountsUp (lp : LockPolicy) (t : ι) (s : State ι) (ls : List (Label ι)) : Prop :=
  ∃ pre l post u u', ls = pre ++ l :: post ∧ run (step lp) s pre = some u ∧ step lp u l = some u' ∧ l.thread = t ∧
    u.block.useCount ≠ 0 ∧ u'.block.useCount = u.block.useCount + 1 ∧ Quiet lp t s pre ∧ Quiet lp t u' post

theorem Returns.run {lp : LockPolicy} {t : ι} {ok : Bool} {s s' : State ι} {ls : List (Label ι)}
    (h : Returns lp t ok s ls s') : run (step lp) s ls = some s' := by
  induction h with
  | done hl hs hr => exact run_cons.mpr ⟨_, hs, rfl⟩
  | own hl hs hr h ih => exact run_cons.mpr ⟨_, hs, ih⟩
  | other hl hs h ih => exact run_cons.mpr ⟨_, hs, ih⟩

/-! ## The steps of a call -/

/-- Where a call is. -/
inductive Phase
  | start
  /-- The count is not yet changed. -/
  | trying
  /-- `_S_mutex`: counted up, the mutex still held. -/
  | counted
  | undoing
  /-- `_S_mutex`: the count is as it was, the mutex still held. -/
  | failing
  | returned (ok : Bool)

/-- Where the call is whose next step the instruction is. -/
def Instr.phase : Instr → Option Phase
  | .lockCas .. | .lockAdd .. => some .trying
  | .lockUndo .. => some .undoing
  | .lockUnlock _ _ _ ok => some (if ok then .counted else .failing)
  | _ => none

/-- One step of a call. -/
inductive CallStep (lp : LockPolicy) : Phase → CountedBase → CountedBase → Phase → Prop
  | single {b} (hlp : lp = .single) (h : b.useCount ≠ 0) :
    CallStep lp .start b { b with useCount := b.useCount + 1 } (.returned true)
  | zero {b} (h : b.useCount = 0) : CallStep lp .start b b (.returned false)
  | load {b} (dw : Bool) (hlp : lp = .atomic dw) : CallStep lp .start b b .trying
  | lock {b} (hlp : lp = .mutex) (h : b.locked = false) : CallStep lp .start b { b with locked := true } .trying
  | cas {b} (h : b.useCount ≠ 0) : CallStep lp .trying b { b with useCount := b.useCount + 1 } (.returned true)
  | casFail {b} (hlp : lp ≠ .mutex) (h : b.useCount = 0) : CallStep lp .trying b b (.returned false)
  | retry {b} : CallStep lp .trying b b .trying
  | add {b} (h : b.useCount ≠ 0) : CallStep lp .trying b { b with useCount := b.useCount + 1 } .counted
  | addZero {b} (hlp : lp = .mutex) (h : b.useCount = 0) :
    CallStep lp .trying b { b with useCount := b.useCount + 1 } .undoing
  | undo {b} : CallStep lp .undoing b { b with useCount := 0 } .failing
  | unlock {b} : CallStep lp .counted b { b with locked := false } (.returned true)
  | unlockFail {b} : CallStep lp .failing b { b with locked := false } (.returned false)

/-- Thread `t` is inside a call, at `ph`. -/
def State.At (s : State ι) (t : ι) (ph : Phase) : Prop :=
  ∃ i rest, (s.thr t).todo = i :: rest ∧ i.phase = some ph

/-- A call, with where it is before each step. -/
inductive Call (lp : LockPolicy) (t : ι) (ok : Bool) : Phase → State ι → List (Label ι) → State ι → Prop
  | returned {s} : Call lp t ok (.returned ok) s [] s
  | own {ph ph' s l s₁ ls s'} (hl : l.thread = t) (hs : step lp s l = some s₁)
    (hc : CallStep lp ph s.block s₁.block ph') (hthr : ∀ j ≠ t, s₁.thr j = s.thr j)
    (h : Call lp t ok ph' s₁ ls s') : Call lp t ok ph s (l :: ls) s'
  | other {ph s l s₁ ls s'} (hl : l.thread ≠ t) (hs : step lp s l = some s₁) (hat : s.At t ph)
    (h : Call lp t ok ph s₁ ls s') : Call lp t ok ph s (l :: ls) s'

theorem State.set_thr_ne (s : State ι) {t j : ι} (h : j ≠ t) (x : CountedBase × Thread) :
    (s.set t x).thr j = s.thr j := by
  simp [State.set, h]

@[simp] theorem State.set_thr_self (s : State ι) (t : ι) (x : CountedBase × Thread) : (s.set t x).thr t = x.2 := by
  simp [State.set]

@[simp] theorem State.set_block (s : State ι) (t : ι) (x : CountedBase × Thread) : (s.set t x).block = x.1 := rfl

/-- Another thread's step leaves the work of `t` as it is. -/
theorem todo_of_other {lp : LockPolicy} {s s' : State ι} {l : Label ι} {t : ι} (hl : l.thread ≠ t)
    (h : step lp s l = some s') : (s'.thr t).todo = (s.thr t).todo := by
  obtain ⟨j, act⟩ := l
  cases act with
  | begin op =>
    simp only [step, Option.ite_none_right_eq_some, Option.map_eq_some_iff] at h
    obtain ⟨-, x, -, rfl⟩ := h
    rw [s.set_thr_ne (Ne.symm hl)]
  | pass k p dest q =>
    simp only [step, Option.ite_none_right_eq_some, Option.bind_eq_bind, Option.bind_eq_some_iff,
      Option.some.injEq] at h
    obtain ⟨-, pi, -, rfl⟩ := h
    by_cases hd : t = dest
    · subst hd
      simp [Thread.put, s.set_thr_ne (Ne.symm hl)]
    · rw [State.set_thr_ne _ hd, s.set_thr_ne (Ne.symm hl)]
  | run spurious =>
    simp only [step] at h
    split at h
    · cases h
    · simp only [Option.map_eq_some_iff] at h
      obtain ⟨x, -, rfl⟩ := h
      rw [s.set_thr_ne (Ne.symm hl)]

theorem Policy.mutex_of_mem {lp : LockPolicy} {x : Multiset Account} (hp : Policy lp x)
    (h : .mutex ∈ x ∨ .undo ∈ x) : lp = .mutex := by
  by_contra hlp
  have hzero := hp.mutex hlp
  rcases h with h | h <;> have := Multiset.count_pos.mpr h <;> omega

theorem Policy.not_mutex_of_mem {lp : LockPolicy} {x : Multiset Account} (hp : Policy lp x) (h : .cas ∈ x) :
    lp ≠ .mutex := by
  intro hlp
  have hzero := hp.cas (by simp [hlp])
  have := Multiset.count_pos.mpr h
  omega

/-- What a step of a call says: where the call is next, or what it returns. -/
def Steps (lp : LockPolicy) (ph : Phase) (s : State ι) (l : Label ι) (s' : State ι) : Prop :=
  (∀ j ≠ l.thread, s'.thr j = s.thr j) ∧ ∃ ph', CallStep lp ph s.block s'.block ph' ∧
    match returns lp s l with
    | some ok => ph' = .returned ok
    | none => s'.At l.thread ph'

theorem start_step {lp : LockPolicy} {s s' : State ι} {t : ι} {nothrow : Bool} {r p : Nat}
    (hslot : (s.thr t).slot .weak r = some .self)
    (h : step lp s ⟨t, .begin (.convert nothrow r p)⟩ = some s') :
    Steps lp .start s ⟨t, .begin (.convert nothrow r p)⟩ s' := by
  simp only [step, begin, hslot, Option.ite_none_right_eq_some, Option.map_eq_some_iff] at h
  obtain ⟨-, ⟨b', th'⟩, hx, rfl⟩ := h
  refine ⟨fun j hj => s.set_thr_ne hj _, ?_⟩
  simp only [returns, hslot, if_true, State.set_block]
  cases lp with
  | single =>
    simp only [addRefLockNothrow] at hx
    split at hx
    · next hu =>
      cases hx
      exact ⟨_, .zero hu, by simp [hu]⟩
    · next hu =>
      simp only [Option.map_eq_some_iff, CountedBase.addRefCopy_eq_some, Prod.mk.injEq] at hx
      obtain ⟨_, ⟨-, rfl⟩, rfl, rfl⟩ := hx
      exact ⟨_, .single rfl hu, congrArg Phase.returned (bne_iff_ne.mpr hu).symm⟩
  | mutex =>
    simp only [addRefLockNothrow, Option.ite_none_left_eq_some, Option.some.injEq, Prod.mk.injEq] at hx
    obtain ⟨hl, rfl, rfl⟩ := hx
    exact ⟨_, .lock rfl (by simpa using hl), .lockAdd r p nothrow, _, congrArg Thread.todo (s.set_thr_self t _), rfl⟩
  | atomic dw =>
    simp only [addRefLockNothrow] at hx
    split at hx
    · next hu =>
      cases hx
      exact ⟨_, .zero hu, by simp [hu]⟩
    · next hu =>
      cases hx
      simp only [hu, if_false]
      exact ⟨_, .load dw rfl, .lockCas r p nothrow ⟨s.block.useCount, hu⟩, _, congrArg Thread.todo (s.set_thr_self t _),
        rfl⟩

section

variable [Fintype ι] {lp : LockPolicy} {s s' : State ι} {t : ι} {ph : Phase}

theorem own_step (hi : Inv lp s) (hat : s.At t ph) {act : Act ι} (h : step lp s ⟨t, act⟩ = some s') :
    Steps lp ph s ⟨t, act⟩ s' := by
  obtain ⟨i, rest, htodo, hph⟩ := hat
  have hbegin : (s.thr t).canBegin = false := by
    rw [Thread.canBegin, htodo]
    cases i <;> first | rfl | cases hph
  cases act with
  | begin op => simp [step, hbegin] at h
  | pass k p dest q => simp [step, hbegin] at h
  | run spurious =>
    simp only [step, htodo, Option.map_eq_some_iff] at h
    obtain ⟨⟨b', th'⟩, hx, rfl⟩ := h
    refine ⟨fun j hj => s.set_thr_ne hj _, ?_⟩
    simp only [returns, htodo, State.set_block]
    cases i with
    | lockCas r p nothrow count =>
      obtain rfl := Option.some.inj hph
      simp only [exec] at hx
      dsimp only
      split at hx
      · next hc =>
        simp only [Option.bind_eq_bind, Option.bind_eq_some_iff, chk_eq_some, Option.some.injEq, Prod.mk.injEq] at hx
        obtain ⟨_, -, rfl, rfl⟩ := hx
        rw [if_pos hc, ← hc.1]
        exact ⟨_, .cas (hc.1 ▸ count.2), rfl⟩
      · next hc =>
        rw [if_neg hc]
        split at hx
        · next hu =>
          cases hx
          rw [if_pos hu]
          -- under the mutex policy no compare-exchange is ever to come
          have hmem : Account.cas ∈ s.accounts := mem_accounts_of_thread (mem_of_todo htodo (by simp [Instr.accounts]))
          exact ⟨_, .casFail (hi.policy.not_mutex_of_mem hmem) hu, rfl⟩
        · next hu =>
          cases hx
          rw [if_neg hu]
          exact ⟨_, .retry, .lockCas r p nothrow ⟨s.block.useCount, hu⟩, _,
            congrArg Thread.todo (s.set_thr_self t _), rfl⟩
    | lockAdd r p nothrow =>
      obtain rfl := Option.some.inj hph
      rw [exec_lockAdd] at hx
      split at hx
      · next hu =>
        simp only [Option.map_eq_some_iff, Prod.mk.injEq] at hx
        obtain ⟨_, -, rfl, rfl⟩ := hx
        exact ⟨_, .add hu, .lockUnlock r p nothrow true, _, congrArg Thread.todo (s.set_thr_self t _), rfl⟩
      · next hu =>
        cases hx
        have hmem : Account.mutex ∈ s.accounts := mem_accounts_of_thread (mem_of_todo htodo (by simp [Instr.accounts]))
        have hlp : lp = .mutex := hi.policy.mutex_of_mem (.inl hmem)
        exact ⟨_, .addZero hlp (not_not.mp hu), .lockUndo r p nothrow, _,
          congrArg Thread.todo (s.set_thr_self t _), rfl⟩
    | lockUndo r p nothrow =>
      obtain rfl := Option.some.inj hph
      cases hx
      exact ⟨_, .undo, .lockUnlock r p nothrow false, _, congrArg Thread.todo (s.set_thr_self t _), rfl⟩
    | lockUnlock r p nothrow ok =>
      obtain rfl := Option.some.inj hph
      cases hx
      cases ok with
      | true => exact ⟨_, .unlock, rfl⟩
      | false => exact ⟨_, .unlockFail, rfl⟩
    | _ => cases hph

/-- A call that is under way goes on as the phases say. -/
theorem Returns.call {ok : Bool} {ls : List (Label ι)} (h : Returns lp t ok s ls s') (hi : Inv lp s)
    (hat : s.At t ph) : Call lp t ok ph s ls s' := by
  induction h generalizing ph with
  | done hl hs hr =>
    subst hl
    obtain ⟨hthr, ph', hc, hph⟩ := own_step hi hat hs
    rw [hr] at hph
    subst hph
    exact .own rfl hs hc hthr .returned
  | own hl hs hr h ih =>
    subst hl
    obtain ⟨hthr, ph', hc, hph⟩ := own_step hi hat hs
    rw [hr] at hph
    exact .own rfl hs hc hthr (ih (hi.step hs) hph)
  | other hl hs h ih =>
    obtain ⟨i, rest, htodo, hph⟩ := hat
    exact .other hl hs ⟨i, rest, htodo, hph⟩ (ih (hi.step hs) ⟨i, rest, (todo_of_other hl hs).trans htodo, hph⟩)

theorem ConvertCall.call {ok : Bool} {ls : List (Label ι)} (h : ConvertCall lp t ok s ls s') (hi : Inv lp s) :
    Call lp t ok .start s ls s' := by
  obtain ⟨⟨nothrow, r, p, rest, rfl, hslot⟩, h⟩ := h
  cases h with
  | done hl hs hr =>
    obtain ⟨hthr, ph', hc, hph⟩ := start_step hslot hs
    rw [hr] at hph
    subst hph
    exact .own rfl hs hc hthr .returned
  | own hl hs hr h =>
    obtain ⟨hthr, ph', hc, hph⟩ := start_step hslot hs
    rw [hr] at hph
    exact .own rfl hs hc hthr (h.call (hi.step hs) hph)
  | other hl => exact absurd rfl hl

end

/-! ## A call that succeeds -/

section

variable {lp : LockPolicy} {s s' : State ι} {t : ι} {ok : Bool} {ls : List (Label ι)} {ph : Phase}

theorem Quiet.cons {l : Label ι} {s₁ : State ι} (hs : step lp s l = some s₁)
    (hq : l.thread = t → s₁.block.useCount = s.block.useCount) (h : Quiet lp t s₁ ls) : Quiet lp t s (l :: ls) := by
  refine ⟨fun ht u hu => ?_, fun u hu => ?_⟩ <;> rw [hs, Option.some.injEq] at hu <;> subst hu
  · exact hq ht
  · exact h

theorem CountsUp.cons {l : Label ι} {s₁ : State ι} (hs : step lp s l = some s₁)
    (hq : l.thread = t → s₁.block.useCount = s.block.useCount) (h : CountsUp lp t s₁ ls) :
    CountsUp lp t s (l :: ls) := by
  obtain ⟨pre, m, post, u, u', rfl, hpre, hm, ht, hu, hu', hqpre, hqpost⟩ := h
  exact ⟨l :: pre, m, post, u, u', rfl, run_cons.mpr ⟨s₁, hs, hpre⟩, hm, ht, hu, hu', hqpre.cons hs hq, hqpost⟩

/-- How a call ends once the count was found zero or not. -/
def Phase.ends : Phase → Option Bool
  | .start | .trying => none
  | .counted => some true
  | .undoing | .failing => some false
  | .returned ok => some ok

theorem CallStep.ends {b b' : CountedBase} {ph' : Phase} (h : CallStep lp ph b b' ph') {r : Bool}
    (he : ph.ends = some r) : ph'.ends = some r := by
  cases h <;> cases he <;> rfl

theorem Call.ends (h : Call lp t ok ph s ls s') {r : Bool} (he : ph.ends = some r) : ok = r := by
  induction h with
  | returned => exact Option.some.inj he
  | own hl hs hc hthr h ih => exact ih (hc.ends he)
  | other hl hs hat h ih => exact ih he

/-- A step before the end is known changes no count, or counts up from a
count that is not zero, or finds zero. -/
theorem CallStep.begins {b b' : CountedBase} {ph' : Phase} (h : CallStep lp ph b b' ph') (he : ph.ends = none) :
    (ph'.ends = none ∧ b'.useCount = b.useCount) ∨
    (ph'.ends = some true ∧ b.useCount ≠ 0 ∧ b'.useCount = b.useCount + 1) ∨
    (ph'.ends = some false ∧ b.useCount = 0) := by
  cases h with
  | single _ hu | cas hu | add hu => exact .inr (.inl ⟨rfl, hu, rfl⟩)
  | zero hu | casFail _ hu | addZero _ hu => exact .inr (.inr ⟨rfl, hu⟩)
  | load | lock | retry => exact .inl ⟨rfl, rfl⟩
  | undo | unlock | unlockFail => cases he

/-- Having counted up, a call leaves the count alone. -/
theorem CallStep.counted {b b' : CountedBase} {ph' : Phase} (h : CallStep lp ph b b' ph')
    (he : ph.ends = some true) : b'.useCount = b.useCount := by
  cases h <;> first | rfl | cases he

theorem Call.quiet (h : Call lp t ok ph s ls s') (he : ph.ends = some true) : Quiet lp t s ls := by
  induction h with
  | returned => trivial
  | own hl hs hc hthr h ih => exact (ih (hc.ends he)).cons hs fun _ => hc.counted he
  | other hl hs hat h ih => exact (ih he).cons hs fun ht => absurd ht hl

/-- **A call succeeds only by the step that counts up, and that step finds
the count not zero.** -/
theorem Call.countsUp (h : Call lp t true ph s ls s') (he : ph.ends = none) : CountsUp lp t s ls := by
  induction h with
  | returned => cases he
  | own hl hs hc hthr h ih =>
    rcases hc.begins he with ⟨he', hsame⟩ | ⟨he', hu, hu'⟩ | ⟨he', -⟩
    · exact (ih he').cons hs fun _ => hsame
    · exact ⟨[], _, _, _, _, rfl, rfl, hs, hl, hu, hu', trivial, h.quiet he'⟩
    · exact absurd (h.ends he') (by simp)
  | other hl hs hat h ih => exact (ih he).cons hs fun ht => absurd ht hl

/-- A call fails only after it has seen the count zero. -/
theorem Call.sawZero (h : Call lp t false ph s ls s') (he : ph.ends = none) :
    ∃ u, Visits (step lp) s ls u ∧ u.block.useCount = 0 := by
  induction h with
  | returned => cases he
  | own hl hs hc hthr h ih =>
    rcases hc.begins he with ⟨he', -⟩ | ⟨he', -⟩ | ⟨-, hu⟩
    · obtain ⟨u, hv, hu⟩ := ih he'
      exact ⟨u, .cons hs hv, hu⟩
    · exact absurd (h.ends he') (by simp)
    · exact ⟨_, .start, hu⟩
  | other hl hs hat h ih =>
    obtain ⟨u, hv, hu⟩ := ih he
    exact ⟨u, .cons hs hv, hu⟩

end

/-! ## A call that fails -/

section Frames

variable {lp : LockPolicy} {b b' : CountedBase} {th th' : Thread}

def CountedBase.withLock (d : Bool) (b : CountedBase) : CountedBase := { b with locked := d }

def CountedBase.withUse (c : AtomicWord) (b : CountedBase) : CountedBase := { b with useCount := c }

theorem addRef_withLock {k : Kind} {pi : Pi} (d : Bool) (h : b.addRef k pi = some b') :
    (b.withLock d).addRef k pi = some (b'.withLock d) := by
  match k, pi with
  | .shared, .other | .weak, .other =>
    cases h
    rfl
  | .shared, .self =>
    obtain ⟨hu, rfl⟩ := CountedBase.addRefCopy_eq_some.mp h
    exact CountedBase.addRefCopy_eq_some.mpr ⟨hu, rfl⟩
  | .weak, .self =>
    obtain ⟨hw, rfl⟩ := CountedBase.weakAddRef_eq_some.mp h
    exact CountedBase.weakAddRef_eq_some.mpr ⟨hw, rfl⟩

theorem addRef_withUse {k : Kind} {pi : Pi} (c : AtomicWord) (hk : k = .shared → pi = .other)
    (h : b.addRef k pi = some b') : (b.withUse c).addRef k pi = some (b'.withUse c) := by
  match k, pi with
  | .shared, .other | .weak, .other =>
    cases h
    rfl
  | .shared, .self => cases hk rfl
  | .weak, .self =>
    obtain ⟨hw, rfl⟩ := CountedBase.weakAddRef_eq_some.mp h
    exact CountedBase.weakAddRef_eq_some.mpr ⟨hw, rfl⟩

/-- An operation that begins while the mutex is held takes references to
what handles hold, and that is all it does to the block. -/
theorem begin_frame (f : CountedBase → CountedBase)
    (hadd : ∀ k k' r pi b', (k' = .shared → k = .shared) → th.slot k r = some pi → b.addRef k' pi = some b' →
      (f b).addRef k' pi = some (f b'))
    (hl : b.locked = true) {op : Op} (h : begin .mutex b th op = some (b', th')) :
    begin .mutex (f b) th op = some (f b', th') := by
  cases op with
  | make k p =>
    cases h
    rfl
  | copyShared r p =>
    simp only [begin, Option.bind_eq_bind, Option.bind_eq_some_iff, Option.some.injEq, Prod.mk.injEq] at h ⊢
    obtain ⟨pi, hr, _, hb, rfl, rfl⟩ := h
    exact ⟨pi, hr, _, hadd _ _ r pi _ id hr hb, rfl, rfl⟩
  | weakFromShared r p =>
    simp only [begin, Option.bind_eq_bind, Option.bind_eq_some_iff, Option.some.injEq, Prod.mk.injEq] at h ⊢
    obtain ⟨pi, hr, _, hb, rfl, rfl⟩ := h
    exact ⟨pi, hr, _, hadd _ _ r pi _ (by simp) hr hb, rfl, rfl⟩
  | copyWeak r p =>
    simp only [begin, Option.bind_eq_bind, Option.bind_eq_some_iff, Option.some.injEq, Prod.mk.injEq] at h ⊢
    obtain ⟨pi, hr, _, hb, rfl, rfl⟩ := h
    exact ⟨pi, hr, _, hadd _ _ r pi _ (by simp) hr hb, rfl, rfl⟩
  | assignShared p r =>
    simp only [begin, Option.bind_eq_bind, Option.bind_eq_some_iff] at h ⊢
    obtain ⟨tmp, hr, pi, hp, h⟩ := h
    refine ⟨tmp, hr, pi, hp, ?_⟩
    split at h
    · next heq =>
      cases h
      rw [if_pos heq]
    · next hne =>
      rw [if_neg hne]
      simp only [Option.bind_eq_some_iff, Option.some.injEq, Prod.mk.injEq] at h ⊢
      obtain ⟨_, hb, rfl, rfl⟩ := h
      exact ⟨_, hadd _ _ r tmp _ id hr hb, rfl, rfl⟩
  | assignWeakShared p r =>
    simp only [begin, Option.bind_eq_bind, Option.bind_eq_some_iff, Option.some.injEq, Prod.mk.injEq] at h ⊢
    obtain ⟨tmp, hr, pi, hp, _, hb, rfl, rfl⟩ := h
    exact ⟨tmp, hr, pi, hp, _, hadd _ _ r tmp _ (by simp) hr hb, rfl, rfl⟩
  | assignWeak p r =>
    simp only [begin, Option.bind_eq_bind, Option.bind_eq_some_iff, Option.some.injEq, Prod.mk.injEq] at h ⊢
    obtain ⟨tmp, hr, pi, hp, _, hb, rfl, rfl⟩ := h
    exact ⟨tmp, hr, pi, hp, _, hadd _ _ r tmp _ (by simp) hr hb, rfl, rfl⟩
  | convert nothrow r p =>
    simp only [begin] at h ⊢
    split at h
    · cases h
    · next hr =>
      cases h
      simp
    · simp [addRefLockNothrow, hl] at h
  | useCount k r =>
    simp only [begin, Option.map_eq_some_iff, Prod.mk.injEq] at h ⊢
    obtain ⟨pi, hr, rfl, rfl⟩ := h
    exact ⟨pi, hr, rfl, rfl⟩
  | move | reset | destroy =>
    simp only [begin, Option.bind_eq_bind, Option.bind_eq_some_iff, Option.some.injEq, Prod.mk.injEq] at h ⊢
    obtain ⟨pi, hp, rfl, rfl⟩ := h
    exact ⟨pi, hp, rfl, rfl⟩
  | moveAssign | moveAssignConv | swap =>
    simp only [begin, Option.bind_eq_bind, Option.bind_eq_some_iff, Option.some.injEq, Prod.mk.injEq] at h ⊢
    obtain ⟨tmp, hr, pi, hp, rfl, rfl⟩ := h
    exact ⟨tmp, hr, pi, hp, rfl, rfl⟩

/-- An instruction of no call does not look at the mutex. -/
theorem exec_withLock {lp : LockPolicy} {i : Instr} (d : Bool) {spurious : Bool} (hph : i.phase = none)
    (h : exec lp b th spurious i = some (b', th')) :
    exec lp (b.withLock d) th spurious i = some (b'.withLock d, th') := by
  cases i with
  | release k =>
    cases k with
    | shared =>
      simp only [exec] at h
      split at h
      · next hsole =>
        cases h
        exact if_pos hsole
      · next hsole =>
        cases h
        exact if_neg hsole
    | weak =>
      cases h
      rfl
  | decUse =>
    rw [exec_decUse] at h ⊢
    simp only [CountedBase.withLock, Option.some.injEq, Prod.mk.injEq] at h ⊢
    exact ⟨h.1 ▸ rfl, h.2⟩
  | lockCas | lockAdd | lockUndo | lockUnlock => cases hph
  | _ =>
    cases h
    rfl

/-- An instruction of no call that holds no shared reference does not look at
the use count. -/
theorem exec_withUse {lp : LockPolicy} {i : Instr} (c : AtomicWord) {spurious : Bool} (hph : i.phase = none)
    (href : .ref .shared ∉ i.accounts) (hsole : .sole ∉ i.accounts)
    (h : exec lp b th spurious i = some (b', th')) :
    exec lp (b.withUse c) th spurious i = some (b'.withUse c, th') := by
  cases i with
  | release k =>
    cases k with
    | shared => simp [Instr.accounts] at href
    | weak =>
      cases h
      rfl
  | decUse => simp [Instr.accounts] at href
  | zeroUse => simp [Instr.accounts] at hsole
  | lockCas | lockAdd | lockUndo | lockUnlock => cases hph
  | _ =>
    cases h
    rfl

end Frames

/-- The block as it would be without the call, while the call is under way. -/
def Phase.erased (lp : LockPolicy) (ph : Phase) (b : CountedBase) : CountedBase :=
  match ph with
  | .start | .counted | .returned _ => b
  | .trying => if lp = .mutex then b.withLock false else b
  | .undoing => (b.withLock false).withUse 0
  | .failing => b.withLock false

theorem CallStep.erased {lp : LockPolicy} {ph ph' : Phase} {b b' : CountedBase} (h : CallStep lp ph b b' ph')
    (hend : ph'.ends ≠ some true) : ph'.erased lp b' = ph.erased lp b := by
  cases h with
  | single | cas | add | unlock => exact absurd rfl hend
  | zero | retry => rfl
  | load dw hlp => simp [Phase.erased, hlp]
  | lock hlp hl => simp [Phase.erased, hlp, CountedBase.withLock, ← hl]
  | casFail hlp hu => simp [Phase.erased, hlp]
  | addZero hlp hu => simp [Phase.erased, hlp, CountedBase.withLock, CountedBase.withUse, ← hu]
  | undo | unlockFail => rfl

/-- Another thread's step, where thread `t` is out of sight and the block is `f` of what it was. -/
theorem step_frame {lp : LockPolicy} {s s₁ u : State ι} {t : ι} {l : Label ι} (f : CountedBase → CountedBase)
    (hl : l.thread ≠ t) (hs : step lp s l = some s₁)
    (hbegin : ∀ op x, begin lp s.block (s.thr l.thread) op = some x →
      begin lp (f s.block) (s.thr l.thread) op = some (f x.1, x.2))
    (hexec : ∀ i rest spurious x, (s.thr l.thread).todo = i :: rest →
      exec lp s.block { s.thr l.thread with todo := rest } spurious i = some x →
      exec lp (f s.block) { s.thr l.thread with todo := rest } spurious i = some (f x.1, x.2))
    (hu : u.block = f s.block) (hthr : ∀ j ≠ t, u.thr j = s.thr j) :
    ∃ u₁, step lp u l = some u₁ ∧ u₁.block = f s₁.block ∧ ∀ j ≠ t, u₁.thr j = s₁.thr j := by
  obtain ⟨j, act⟩ := l
  have hj : u.thr j = s.thr j := hthr j hl
  have hset (x y : CountedBase × Thread) (hy : y.2 = x.2) (k : ι) (hk : k ≠ t) :
      (u.set j y).thr k = (s.set j x).thr k := by
    by_cases hkj : k = j
    · subst hkj
      simp [hy]
    · rw [u.set_thr_ne hkj, s.set_thr_ne hkj, hthr k hk]
  cases act with
  | begin op =>
    simp only [step, Option.ite_none_right_eq_some, Option.map_eq_some_iff] at hs
    obtain ⟨hcan, x, hx, rfl⟩ := hs
    refine ⟨u.set j (f x.1, x.2), ?_, rfl, hset _ _ rfl⟩
    simp only [step, hj, hu, hcan, if_true, hbegin op x hx, Option.map_some]
  | pass k p dest q =>
    simp only [step, Option.ite_none_right_eq_some, Option.bind_eq_bind, Option.bind_eq_some_iff,
      Option.some.injEq] at hs
    obtain ⟨hcan, pi, hp, rfl⟩ := hs
    have hmid := hset (s.block, (s.thr j).take k p) (u.block, (s.thr j).take k p) rfl
    let v := u.set j (u.block, (s.thr j).take k p)
    refine ⟨v.set dest (v.block, (v.thr dest).put k q pi), ?_, hu, fun m hm => ?_⟩
    · simp only [step, hj, hcan, if_true, Option.bind_eq_bind, hp, Option.bind_some]
      rfl
    · by_cases hmd : m = dest
      · subst hmd
        simp only [State.set_thr_self]
        rw [← hmid m hm]
      · rw [State.set_thr_ne _ hmd, State.set_thr_ne _ hmd]
        exact hmid m hm
  | run spurious =>
    simp only [step] at hs
    split at hs
    · cases hs
    · next i rest htodo =>
      simp only [Option.map_eq_some_iff] at hs
      obtain ⟨x, hx, rfl⟩ := hs
      refine ⟨u.set j (f x.1, x.2), ?_, rfl, hset _ _ rfl⟩
      simp only [step, hj, hu, htodo, hexec i rest spurious x htodo hx, Option.map_some]

section

variable [Fintype ι] {lp : LockPolicy} {s s' : State ι} {t : ι} {ph : Phase}

/-- Who is inside a call holds the mutex, if there is one. -/
theorem Instr.holds {i : Instr} (h : i.phase ≠ none) :
    1 ≤ i.accounts.count .mutex + i.accounts.count .undo + i.accounts.count .cas := by
  cases i with
  | lockCas | lockAdd | lockUndo => simp [Instr.accounts]
  | lockUnlock r p nothrow ok => cases ok <;> simp [Instr.accounts]
  | _ => exact absurd rfl h

theorem count_le_of_todo {th : Thread} {i : Instr} {rest : List Instr} (h : th.todo = i :: rest) (a : Account) :
    i.accounts.count a ≤ th.accounts.count a := by
  simp only [Thread.accounts, h, List.map_cons, List.sum_cons, Multiset.count_add]
  omega

/-- Inside a call the mutex is held. -/
theorem Inv.locked (hi : Inv .mutex s) (hat : s.At t ph) : s.block.locked = true := by
  obtain ⟨i, rest, htodo, hph⟩ := hat
  have hlocked := hi.ledger.locked
  have hcas := hi.policy.cas nofun
  have hmine := Instr.holds (i := i) (by simp [hph])
  have hcount := count_le_of_todo htodo
  have hm := hcount .mutex
  have hu := hcount .undo
  have hc := hcount .cas
  obtain ⟨others, hacc, -⟩ := exists_sum_update Thread.accounts s.thr t
  rw [State.accounts, hacc] at hlocked hcas
  simp only [Multiset.count_add] at hlocked hcas
  rcases hb : s.block.locked with - | -
  · simp only [hb, Bool.toNat_false] at hlocked
    omega
  · rfl

/-- While a call holds the mutex, no other thread is inside one. -/
theorem Inv.alone (hi : Inv .mutex s) (hat : s.At t ph) {j : ι} (hj : j ≠ t) {i : Instr} {rest : List Instr}
    (htodo : (s.thr j).todo = i :: rest) : i.phase = none := by
  obtain ⟨i', rest', htodo', hph'⟩ := hat
  have hlocked := hi.ledger.locked
  have hcas := hi.policy.cas nofun
  have hle := s.block.locked.toNat_le
  have hmine := Instr.holds (i := i') (by simp [hph'])
  have hm := count_le_of_todo htodo' .mutex
  have hu := count_le_of_todo htodo' .undo
  have hc := count_le_of_todo htodo' .cas
  by_contra hne
  have hother := Instr.holds hne
  have hm' := count_le_of_todo htodo .mutex
  have hu' := count_le_of_todo htodo .undo
  have hc' := count_le_of_todo htodo .cas
  obtain ⟨others, hacc⟩ := exists_sum_eq_add_add Thread.accounts s.thr hj.symm
  rw [State.accounts, hacc] at hlocked hcas
  simp only [Multiset.count_add] at hlocked hcas
  omega

/-- While a call undoes its increment, no shared handle is left. -/
theorem Inv.undoing (hi : Inv lp s) (hat : s.At t .undoing) :
    .ref .shared ∉ s.accounts ∧ .sole ∉ s.accounts ∧ lp = .mutex := by
  obtain ⟨i, rest, htodo, hph⟩ := hat
  have hmem : .undo ∈ s.accounts := by
    refine mem_accounts_of_thread (mem_of_todo htodo ?_)
    cases i with
    | lockUndo => simp [Instr.accounts]
    | lockUnlock r p nothrow ok => cases ok <;> cases hph
    | _ => cases hph
  have hundo := hi.ledger.undo
  have hpos := Multiset.count_pos.mpr hmem
  rw [← Multiset.count_eq_zero, ← Multiset.count_eq_zero]
  exact ⟨by omega, by omega, hi.policy.mutex_of_mem (.inr hmem)⟩

theorem Inv.failing (hi : Inv lp s) (hat : s.At t .failing) : lp = .mutex := by
  obtain ⟨i, rest, htodo, hph⟩ := hat
  refine hi.policy.mutex_of_mem (.inl (mem_accounts_of_thread (mem_of_todo htodo ?_)))
  cases i with
  | lockUnlock r p nothrow ok =>
    cases ok with
    | true => cases hph
    | false => simp [Instr.accounts]
  | _ => cases hph

end

section

variable [Fintype ι] {lp : LockPolicy} {s s₁ s' u : State ι} {t : ι} {l : Label ι} {ph : Phase}

/-- The other threads do not look at the mutex while a call holds it. -/
theorem frame_withLock (hi : Inv .mutex s) (hat : s.At t ph) (hl : l.thread ≠ t) (hs : step .mutex s l = some s₁)
    (hu : u.block = s.block.withLock false) (hthr : ∀ j ≠ t, u.thr j = s.thr j) :
    ∃ u₁, step .mutex u l = some u₁ ∧ u₁.block = s₁.block.withLock false ∧ ∀ j ≠ t, u₁.thr j = s₁.thr j :=
  step_frame (CountedBase.withLock false) hl hs
    (fun _ _ h => begin_frame _ (fun _ _ _ _ _ _ _ hb => addRef_withLock false hb) (hi.locked hat) h)
    (fun _ _ _ _ htodo h => exec_withLock false (hi.alone hat hl htodo) h) hu hthr

/-- Nor at the use count while it is one too high. -/
theorem frame_withUse (hi : Inv .mutex s) (hat : s.At t .undoing) (hl : l.thread ≠ t)
    (hs : step .mutex s l = some s₁) (hu : u.block = (s.block.withLock false).withUse 0)
    (hthr : ∀ j ≠ t, u.thr j = s.thr j) :
    ∃ u₁, step .mutex u l = some u₁ ∧ u₁.block = (s₁.block.withLock false).withUse 0 ∧
      ∀ j ≠ t, u₁.thr j = s₁.thr j := by
  obtain ⟨hshared, hsole, -⟩ := hi.undoing hat
  refine step_frame (fun b => (b.withLock false).withUse 0) hl hs (fun op x h => ?_)
    (fun i rest spurious x htodo h => ?_) hu hthr
  · refine begin_frame (fun b => (b.withLock false).withUse 0) (fun k k' r pi b' hk hr hb => ?_) (hi.locked hat) h
    refine addRef_withUse 0 (fun hk' => ?_) (addRef_withLock false hb)
    obtain rfl := hk hk'
    cases pi with
    | self => exact absurd (mem_accounts_of_thread (ref_mem_of_slot hr)) hshared
    | other => rfl
  · have hmem (a : Account) (ha : a ∉ s.accounts) : a ∉ i.accounts := fun h' =>
      ha (mem_accounts_of_thread (mem_of_todo htodo h'))
    have hph := hi.alone hat hl htodo
    exact exec_withUse 0 hph (hmem _ hshared) (hmem _ hsole) (exec_withLock false hph h)

/-- While a call of `t` is under way that has not succeeded, what the others
do they could do as well without it. -/
theorem other_frame (hi : Inv lp s) (hat : s.At t ph) (hend : ph.ends ≠ some true) (hl : l.thread ≠ t)
    (hs : step lp s l = some s₁) (hu : u.block = ph.erased lp s.block) (hthr : ∀ j ≠ t, u.thr j = s.thr j) :
    ∃ u₁, step lp u l = some u₁ ∧ u₁.block = ph.erased lp s₁.block ∧ ∀ j ≠ t, u₁.thr j = s₁.thr j := by
  have hsame (hu : u.block = s.block) :
      ∃ u₁, step lp u l = some u₁ ∧ u₁.block = s₁.block ∧ ∀ j ≠ t, u₁.thr j = s₁.thr j :=
    step_frame id hl hs (fun _ _ h => h) (fun _ _ _ _ _ h => h) hu hthr
  cases ph with
  | start | returned => exact hsame hu
  | counted => exact absurd rfl hend
  | trying =>
    simp only [Phase.erased] at hu ⊢
    split at hu
    · next hlp =>
      subst hlp
      simpa using frame_withLock hi hat hl hs hu hthr
    · next hlp => simpa [hlp] using hsame hu
  | undoing =>
    obtain ⟨-, -, rfl⟩ := hi.undoing hat
    exact frame_withUse hi hat hl hs hu hthr
  | failing =>
    obtain rfl := hi.failing hat
    exact frame_withLock hi hat hl hs hu hthr

/-- **A call that fails leaves no trace**: without its steps the same run
ends with the same block and the same other threads. -/
theorem Call.erase {ls : List (Label ι)} (h : Call lp t false ph s ls s') (hi : Inv lp s)
    (hend : ph.ends ≠ some true) (hu : u.block = ph.erased lp s.block) (hthr : ∀ j ≠ t, u.thr j = s.thr j) :
    ∃ u', run (step lp) u (ls.filter (·.thread ≠ t)) = some u' ∧ u'.block = s'.block ∧ ∀ j ≠ t, u'.thr j = s'.thr j := by
  induction h generalizing u with
  | returned => exact ⟨u, rfl, hu, hthr⟩
  | own hl hs hc hthr' h ih =>
    have hend' : _ ≠ some true := fun he => absurd (h.ends he) (by simp)
    rw [List.filter_cons_of_neg (by simp [hl])]
    exact ih (hi.step hs) hend' (hu.trans (hc.erased hend').symm) fun j hj => (hthr j hj).trans (hthr' j hj).symm
  | other hl hs hat h ih =>
    obtain ⟨u₁, hu₁, hb, ht⟩ := other_frame hi hat hend hl hs hu hthr
    obtain ⟨u', hrun, hu'⟩ := ih (hi.step hs) hend hb ht
    rw [List.filter_cons_of_pos (by simpa using hl)]
    exact ⟨u', run_cons.mpr ⟨u₁, hu₁, hrun⟩, hu'⟩

end

/-! ## What a call returns -/

section

variable {lp : LockPolicy} {s s' : State ι} {t : ι} {l : Label ι} {ok : Bool}

/-- What the caller has in hand when a call returns. -/
theorem returns_result (hs : step lp s l = some s') (hr : returns lp s l = some ok) :
    ∃ th r p nothrow, s'.thr l.thread = if ok then th.lockSucceeds r p nothrow else Thread.lockFails th r p nothrow := by
  obtain ⟨j, act⟩ := l
  cases act with
  | begin op =>
    cases op with
    | convert nothrow r p =>
      simp only [returns, Option.ite_none_right_eq_some] at hr
      obtain ⟨hslot, hr⟩ := hr
      simp only [step, begin, hslot, Option.ite_none_right_eq_some, Option.map_eq_some_iff] at hs
      obtain ⟨-, ⟨b', th'⟩, hx, rfl⟩ := hs
      refine ⟨(s.thr j).take .weak r, r, p, nothrow, ?_⟩
      rw [State.set_thr_self]
      cases lp with
      | single =>
        simp only [addRefLockNothrow] at hx
        cases hr
        split at hx
        · next hu =>
          cases hx
          simp [hu]
        · next hu =>
          simp only [Option.map_eq_some_iff, Prod.mk.injEq] at hx
          obtain ⟨_, -, -, rfl⟩ := hx
          exact (if_pos (bne_iff_ne.mpr hu)).symm
      | mutex => cases hr
      | atomic dw =>
        simp only [Option.ite_none_right_eq_some, Option.some.injEq] at hr
        obtain ⟨hu, rfl⟩ := hr
        simp only [addRefLockNothrow, hu, dif_pos] at hx
        cases hx
        rfl
    | _ => cases hr
  | pass => cases hr
  | run spurious =>
    simp only [returns] at hr
    simp only [step] at hs
    split at hs
    · next hnil =>
      cases hs
    · next i rest htodo =>
      rw [htodo] at hr
      simp only [Option.map_eq_some_iff] at hs
      obtain ⟨⟨b', th'⟩, hx, rfl⟩ := hs
      rw [State.set_thr_self]
      cases i with
      | lockCas r p nothrow count =>
        refine ⟨{ s.thr j with todo := rest }, r, p, nothrow, ?_⟩
        simp only [exec] at hx
        dsimp only at hr
        split at hr
        · next hc =>
          cases hr
          simp only [if_pos hc, Option.bind_eq_bind, Option.bind_eq_some_iff, Option.some.injEq, Prod.mk.injEq] at hx
          obtain ⟨_, -, -, rfl⟩ := hx
          rfl
        · next hc =>
          rw [Option.ite_none_right_eq_some, Option.some.injEq] at hr
          obtain ⟨hu, rfl⟩ := hr
          simp only [if_neg hc, dif_pos hu] at hx
          cases hx
          rfl
      | lockUnlock r p nothrow ok' =>
        cases hr
        cases hx
        exact ⟨{ s.thr j with todo := rest }, r, p, nothrow, rfl⟩
      | _ => cases hr

variable [Fintype ι]

theorem Ledger.not_disposed {b : CountedBase} {x : Multiset Account} (hl : Ledger b x) (h : .ref .shared ∈ x) :
    b.disposeCalls = 0 ∧ b.useCount ≠ 0 := by
  have hpos := Multiset.count_pos.mpr h
  have hd := hl.disposeCalls
  have hu := hl.use
  rw [ne_eq, eq_zero_iff]
  omega

/-- A call that succeeds makes a shared handle. -/
theorem ref_mem_of_returns (hs : step lp s l = some s') (hr : returns lp s l = some true) :
    .ref .shared ∈ s'.accounts := by
  obtain ⟨th, r, p, nothrow, hth⟩ := returns_result hs hr
  rw [if_pos rfl] at hth
  refine mem_accounts_of_thread (t := l.thread) ?_
  rw [hth, accounts_lockSucceeds]
  simp

/-- **No call succeeds once `_M_dispose` has begun.** -/
theorem not_disposed_of_returns (hi : Inv lp s) (hs : step lp s l = some s') (hr : returns lp s l = some true) :
    s'.block.disposeCalls = 0 ∧ s'.block.useCount ≠ 0 :=
  (hi.step hs).ledger.not_disposed (ref_mem_of_returns hs hr)

/-- `weak_ptr::lock()` reads a count that is not zero after it has
succeeded, so it keeps the stored pointer. -/
theorem lockGet_reads (hi : Inv lp s) {r p : Nat} {rest : List Instr} (h : (s.thr t).todo = .lockGet r p :: rest) :
    s.block.useCount ≠ 0 :=
  (hi.ledger.not_disposed (mem_accounts_of_thread (mem_of_todo h (by simp [Instr.accounts])))).2

theorem Returns.last {ls : List (Label ι)} (h : Returns lp t ok s ls s') (hi : Inv lp s) :
    ∃ u l, Inv lp u ∧ step lp u l = some s' ∧ returns lp u l = some ok := by
  induction h with
  | done hl hs hr => exact ⟨_, _, hi, hs, hr⟩
  | own hl hs hr h ih => exact ih (hi.step hs)
  | other hl hs h ih => exact ih (hi.step hs)

/-- **The conversion is atomic and revives nothing.** A call that succeeds
has counted up from a count that was not zero, and ends before `_M_dispose`
begins; one that fails saw the count zero, and leaves the block and every
other thread as they would be without it. -/
theorem add_ref_lock_nothrow_atomic (lp : LockPolicy) (t₀ t : ι) (before ls : List (Label ι)) (s s' : State ι)
    (ok : Bool) (h : run (step lp) (State.init t₀) before = some s) (hc : ConvertCall lp t ok s ls s') :
    (ok = true → CountsUp lp t s ls ∧ s'.block.disposeCalls = 0 ∧ s'.block.useCount ≠ 0) ∧
    (ok = false → (∃ u, Visits (step lp) s ls u ∧ u.block.useCount = 0) ∧
      ∃ u, run (step lp) s (ls.filter (·.thread ≠ t)) = some u ∧ u.block = s'.block ∧
        ∀ j ≠ t, u.thr j = s'.thr j) := by
  have hi := Inv.run h
  have hcall := hc.call hi
  constructor
  · rintro rfl
    obtain ⟨u, l, hiu, hs, hr⟩ := hc.returns.last hi
    exact ⟨hcall.countsUp rfl, not_disposed_of_returns hiu hs hr⟩
  · rintro rfl
    exact ⟨hcall.sawZero rfl, hcall.erase hi nofun rfl fun _ _ => rfl⟩

end

/-- A conversion under the mutex policy while the last handle is being
released: it counts up from zero and takes that back. -/
theorem add_ref_lock_nothrow_atomic_overlap : ∃ (before ls : List (Label (Fin 2))) (s s' : State (Fin 2)),
    run (step .mutex) (State.init 0) before = some s ∧ ConvertCall .mutex 1 false s ls s' ∧
      (∃ u, Visits (step .mutex) s ls u ∧ u.block.useCount = 0) ∧
      ∃ u, run (step .mutex) s (ls.filter (·.thread ≠ 1)) = some u ∧ u.block = s'.block ∧
        ∀ j ≠ 1, u.thr j = s'.thr j := by
  let before : List (Label (Fin 2)) :=
    [⟨0, .begin (.weakFromShared 0 5)⟩, ⟨0, .pass .weak 5 1 5⟩, ⟨0, .begin (.destroy .shared 0)⟩, ⟨0, .run false⟩]
  let ls : List (Label (Fin 2)) :=
    [⟨1, .begin (.convert true 5 6)⟩, ⟨0, .run false⟩, ⟨1, .run false⟩, ⟨0, .run false⟩, ⟨1, .run false⟩,
      ⟨1, .run false⟩]
  have hc : ∃ s s', run (step .mutex) (State.init 0) before = some s ∧ ConvertCall .mutex 1 false s ls s' :=
    ⟨_, _, rfl, ⟨true, 5, 6, _, rfl, rfl⟩, .own rfl rfl rfl (.other (by decide) rfl (.own rfl rfl rfl
      (.other (by decide) rfl (.own rfl rfl rfl (.done rfl rfl rfl)))))⟩
  obtain ⟨s, s', hs, hc⟩ := hc
  exact ⟨before, ls, s, s', hs, hc, (add_ref_lock_nothrow_atomic .mutex 0 1 before ls s s' false hs hc).2 rfl⟩

end SharedPtr
