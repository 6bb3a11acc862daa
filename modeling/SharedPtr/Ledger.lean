/-
The ledger of a control block: what every handle and every function in flight
has a claim on, and how the two counters follow from it.

Each handle that holds the block, and each instruction a thread still has to
run, stands for some `Account`s (`Thread.accounts`); the sum over the threads
is the account of the state. The releasing functions pass their claim along:
a shared handle becomes `toDispose`, then `inDispose`, then `implied` (the
weak reference the shared handles held together) and `doomed`. `Transition`
says once what a step can do to the block and to the account; the invariant
`Ledger` is kept by each transition and so by every step of every run.
-/
import SharedPtr.CountedBase
import SharedPtr.Lib.Run
import SharedPtr.Lib.Tally

namespace SharedPtr

open Lib Finset

/-- What a handle or an instruction still to run has a claim on. -/
inductive Account
  /-- A counted handle. -/
  | ref (k : Kind)
  /-- The last handle of all, in the double-word branch: counters to be zeroed. -/
  | sole
  /-- The same, `_M_use_count` zeroed. -/
  | soleLeft
  /-- `_M_dispose` to be called, by the double-word branch (`sole`) or not. -/
  | toDispose (sole : Bool)
  | inDispose (sole : Bool)
  /-- The weak reference of the shared handles, after `_M_dispose`. -/
  | implied
  /-- `_M_destroy` to be called. -/
  | doomed
  /-- The mutex, held by `_M_add_ref_lock_nothrow`. -/
  | mutex
  /-- The mutex, with `_M_use_count` one too high. -/
  | undo
  /-- A compare-exchange on `_M_use_count` to come. -/
  | cas
  deriving DecidableEq

/-- What a handle has a claim on. -/
def Pi.accounts (k : Kind) : Pi → Multiset Account
  | .self => {.ref k}
  | .other => 0

def Instr.accounts : Instr → Multiset Account
  | .set k _ tmp => tmp.accounts k
  | .release k => {.ref k}
  | .decUse => {.ref .shared}
  | .zeroUse => {.sole}
  | .zeroWeak => {.soleLeft}
  | .dispose sole => {.toDispose sole}
  | .disposeReturn sole => {.inDispose sole}
  | .decWeakLast => {.implied}
  | .destroy => {.doomed}
  | .lockCas .. => {.ref .weak, .cas}
  | .lockAdd .. => {.ref .weak, .mutex}
  | .lockUndo .. => {.ref .weak, .undo}
  | .lockUnlock _ _ _ ok => if ok then {.ref .weak, .ref .shared, .mutex} else {.ref .weak, .mutex}
  | .lockGet .. => {.ref .weak, .ref .shared}

/-- The claims of a list of handles of one kind. -/
def heldBy (k : Kind) (hs : List (Nat × Pi)) : Multiset Account := (hs.map fun h => h.2.accounts k).sum

def Thread.accounts (th : Thread) : Multiset Account :=
  heldBy .shared (th.handles .shared) + heldBy .weak (th.handles .weak) + (th.todo.map Instr.accounts).sum

def State.accounts {ι : Type} [Fintype ι] (s : State ι) : Multiset Account := ∑ t, (s.thr t).accounts

/-- What a step does to the block, what it takes out of the account and what
it puts in. -/
inductive Transition (lp : LockPolicy) : CountedBase → CountedBase → Multiset Account → Multiset Account → Prop
  | keep {b} : Transition lp b b 0 0
  | addRefCopy {b} (h : b.useCount ≠ -1) :
    Transition lp b { b with useCount := b.useCount + 1 } {.ref .shared} {.ref .shared, .ref .shared}
  | weakAddRef {b} (k : Kind) (h : b.weakCount ≠ -1) :
    Transition lp b { b with weakCount := b.weakCount + 1 } {.ref k} {.ref k, .ref .weak}
  | decUse {b} (h : b.useCount ≠ 1) :
    Transition lp b { b with useCount := b.useCount + -1 } {.ref .shared} 0
  | decUseLast {b} (h : b.useCount = 1) :
    Transition lp b { b with useCount := b.useCount + -1 } {.ref .shared} {.toDispose false}
  | testSole {b} (hlp : lp = .atomic true) (hu : b.useCount = 1) (hw : b.weakCount = 1) :
    Transition lp b b {.ref .shared} {.sole}
  | zeroUse {b} : Transition lp b { b with useCount := 0 } {.sole} {.soleLeft}
  | zeroWeak {b} : Transition lp b { b with weakCount := 0 } {.soleLeft} {.toDispose true}
  | dispose {b} (sole : Bool) :
    Transition lp b { b with disposeCalls := b.disposeCalls + 1 } {.toDispose sole} {.inDispose sole}
  | disposeReturn {b} (sole : Bool) :
    Transition lp b { b with disposeReturns := b.disposeReturns + 1 } {.inDispose sole}
      {if sole then .doomed else .implied}
  | decWeak {b} (a : Account) (ha : a = .implied ∨ a = .ref .weak) (h : b.weakCount ≠ 1) :
    Transition lp b { b with weakCount := b.weakCount + -1 } {a} 0
  | decWeakLast {b} (a : Account) (ha : a = .implied ∨ a = .ref .weak) (h : b.weakCount = 1) :
    Transition lp b { b with weakCount := b.weakCount + -1 } {a} {.doomed}
  | destroy {b} : Transition lp b { b with destroyCalls := b.destroyCalls + 1 } {.doomed} 0
  | lockSingle {b} (hlp : lp = .single) (h : b.useCount ≠ 0) (h' : b.useCount ≠ -1) :
    Transition lp b { b with useCount := b.useCount + 1 } {.ref .weak} {.ref .weak, .ref .shared}
  | lockLoad {b} (dw : Bool) (hlp : lp = .atomic dw) : Transition lp b b 0 {.cas}
  | lockCas {b} (h : b.useCount ≠ 0) (h' : b.useCount ≠ -1) :
    Transition lp b { b with useCount := b.useCount + 1 } {.ref .weak, .cas} {.ref .weak, .ref .shared}
  | lockFail {b} : Transition lp b b {.cas} 0
  | lock {b} (hlp : lp = .mutex) (h : b.locked = false) :
    Transition lp b { b with locked := true } 0 {.mutex}
  | lockAdd {b} (h : b.useCount ≠ 0) (h' : b.useCount ≠ -1) :
    Transition lp b { b with useCount := b.useCount + 1 } {.ref .weak, .mutex} {.ref .weak, .ref .shared, .mutex}
  | lockAddZero {b} (h : b.useCount = 0) :
    Transition lp b { b with useCount := b.useCount + 1 } {.mutex} {.undo}
  | lockUndo {b} : Transition lp b { b with useCount := 0 } {.undo} {.mutex}
  | unlock {b} : Transition lp b { b with locked := false } {.mutex} 0

/-! ## The account of a thread -/

section Accounts

variable {th : Thread} {k : Kind} {p : Nat} {pi : Pi}

@[simp] theorem heldBy_cons (h : Nat × Pi) (hs : List (Nat × Pi)) :
    heldBy k (h :: hs) = h.2.accounts k + heldBy k hs := rfl

theorem heldBy_eraseP {hs : List (Nat × Pi)} (h : hs.lookup p = some pi) :
    heldBy k hs = pi.accounts k + heldBy k (hs.eraseP fun h => h.1 == p) := by
  induction hs with
  | nil => simp at h
  | cons x hs ih =>
    obtain ⟨q, x⟩ := x
    rw [List.lookup_cons] at h
    by_cases hpq : q = p
    · subst hpq
      simp only [beq_self_eq_true, Option.some.injEq] at h
      simp [h]
    · have hqp : (p == q) = false := by simpa using fun he : p = q => hpq he.symm
      simp only [hqp] at h
      rw [List.eraseP_cons_of_neg (by simpa using hpq), heldBy_cons, heldBy_cons, ih h]
      abel

theorem accounts_put (th : Thread) (k : Kind) (p : Nat) (pi : Pi) :
    (th.put k p pi).accounts = pi.accounts k + th.accounts := by
  cases k <;> simp [Thread.accounts, Thread.put] <;> abel

theorem accounts_take (h : th.slot k p = some pi) :
    th.accounts = pi.accounts k + (th.take k p).accounts := by
  have hk := heldBy_eraseP (k := k) h
  cases k <;> simp [Thread.accounts, Thread.take, hk] <;> abel

theorem accounts_push (th : Thread) (is : List Instr) :
    (th.push is).accounts = (is.map Instr.accounts).sum + th.accounts := by
  simp only [Thread.accounts, Thread.push, List.map_append, List.sum_append]
  abel

theorem accounts_drop (th : Thread) (k : Kind) (pi : Pi) :
    (th.drop k pi).accounts = pi.accounts k + th.accounts := by
  cases pi <;> simp [Thread.drop, accounts_push, Pi.accounts, Instr.accounts]

theorem accounts_assign (th : Thread) (k : Kind) (p : Nat) (pi : Pi) :
    (th.assign k p pi).accounts = pi.accounts k + (th.take k p).accounts := accounts_put ..

theorem take_assign (th : Thread) (k : Kind) (p : Nat) (pi : Pi) : (th.assign k p pi).take k p = th.take k p := by
  simp [Thread.assign, Thread.take, Thread.put]

/-- What a handle held is still to be released; what it is set to is new. -/
theorem accounts_releaseThenSet (h : th.slot k p = some pi) (tmp : Pi) :
    (th.releaseThenSet k p pi tmp).accounts = tmp.accounts k + th.accounts := by
  rw [accounts_take h]
  cases pi with
  | other => simp [Thread.releaseThenSet, Thread.assign, accounts_put, Pi.accounts]
  | self =>
    simp only [Thread.releaseThenSet, accounts_push, List.map_cons, List.map_nil, List.sum_cons, List.sum_nil,
      Instr.accounts, Pi.accounts]
    abel

theorem accounts_lockFails (th : Thread) (r p : Nat) (nothrow : Bool) :
    (th.lockFails r p nothrow).accounts = {.ref .weak} + th.accounts := by
  cases nothrow <;> simp [Thread.lockFails, accounts_put, Pi.accounts]

theorem accounts_lockSucceeds (th : Thread) (r p : Nat) (nothrow : Bool) :
    (th.lockSucceeds r p nothrow).accounts = {.ref .weak, .ref .shared} + th.accounts := by
  cases nothrow <;> simp [Thread.lockSucceeds, accounts_put, accounts_push, Instr.accounts, Pi.accounts]

end Accounts

/-! ## What a step can do -/

/-- A thread's step: the block makes a transition, and the thread's account
moves accordingly. -/
def ThreadStep (lp : LockPolicy) (b b' : CountedBase) (x y : Multiset Account) : Prop :=
  ∃ loss gain, Transition lp b b' loss gain ∧ Moves loss gain x y

theorem ThreadStep.keep {lp : LockPolicy} {b : CountedBase} {x y : Multiset Account} (h : y = x) :
    ThreadStep lp b b x y :=
  ⟨0, 0, .keep, h ▸ .refl x⟩

/-- Counting one more reference for a handle that is there. -/
theorem addRef_step {lp : LockPolicy} {b b' : CountedBase} {k k' : Kind} {pi : Pi} {x rest : Multiset Account}
    (hk : k' = .shared → k = .shared) (hb : b.addRef k' pi = some b') (hx : x = pi.accounts k + rest) :
    ThreadStep lp b b' x (pi.accounts k' + x) := by
  cases pi with
  | other =>
    simp only [CountedBase.addRef, Option.some.injEq] at hb
    subst hb
    exact .keep (by simp [Pi.accounts])
  | self =>
    cases k' with
    | shared =>
      obtain rfl := hk rfl
      obtain ⟨hu, rfl⟩ := CountedBase.addRefCopy_eq_some.mp hb
      exact ⟨_, _, .addRefCopy hu, rest, hx, by subst hx; simp [Pi.accounts]⟩
    | weak =>
      obtain ⟨hw, rfl⟩ := CountedBase.weakAddRef_eq_some.mp hb
      refine ⟨_, _, .weakAddRef k hw, rest, hx, ?_⟩
      subst hx
      simp [Pi.accounts]

theorem addRefLockNothrow_step {lp : LockPolicy} {b b' : CountedBase} {th th' : Thread} {r p : Nat}
    {nothrow : Bool} (h : addRefLockNothrow lp b th r p nothrow = some (b', th')) :
    ThreadStep lp b b' ({.ref .weak} + th.accounts) th'.accounts := by
  cases lp with
  | single =>
    simp only [addRefLockNothrow] at h
    split at h
    · cases h
      exact .keep (accounts_lockFails ..)
    · next hu =>
      simp only [Option.map_eq_some_iff, CountedBase.addRefCopy_eq_some, Prod.mk.injEq] at h
      obtain ⟨_, ⟨hmax, rfl⟩, rfl, rfl⟩ := h
      exact ⟨_, _, .lockSingle rfl hu hmax, th.accounts, rfl, accounts_lockSucceeds ..⟩
  | mutex =>
    simp only [addRefLockNothrow, Option.ite_none_left_eq_some, Option.some.injEq, Prod.mk.injEq] at h
    obtain ⟨hl, rfl, rfl⟩ := h
    refine ⟨_, _, .lock rfl (by simpa using hl), {.ref .weak} + th.accounts, by simp, ?_⟩
    simp [accounts_push, Instr.accounts, Multiset.cons_swap]
  | atomic dw =>
    simp only [addRefLockNothrow] at h
    split at h
    · cases h
      exact .keep (accounts_lockFails ..)
    · next hu =>
      cases h
      refine ⟨_, _, .lockLoad dw rfl, {.ref .weak} + th.accounts, by simp, ?_⟩
      simp [accounts_push, Instr.accounts, Multiset.cons_swap]


/-- `_M_weak_release`, and the same decrement at the end of `_M_release_last_use`. -/
theorem decWeak_step {lp : LockPolicy} {b b' : CountedBase} {th th' : Thread} {a : Account}
    (ha : a = .implied ∨ a = .ref .weak)
    (h : exec lp b th false .decWeakLast = some (b', th')) :
    ThreadStep lp b b' ({a} + th.accounts) th'.accounts := by
  rw [exec_decWeakLast, Option.some.injEq, Prod.mk.injEq] at h
  obtain ⟨rfl, rfl⟩ := h
  split
  · next hw => exact ⟨_, _, .decWeakLast a ha hw, th.accounts, rfl, by simp [accounts_push, Instr.accounts]⟩
  · next hw => exact ⟨_, _, .decWeak a ha hw, th.accounts, rfl, by simp⟩

theorem begin_step {lp : LockPolicy} {b b' : CountedBase} {th th' : Thread} {op : Op}
    (h : begin lp b th op = some (b', th')) : ThreadStep lp b b' th.accounts th'.accounts := by
  cases op with
  | make k p =>
    cases h
    exact .keep (by simp [accounts_put, Pi.accounts])
  | copyShared r p =>
    simp only [begin, Option.bind_eq_bind, Option.bind_eq_some_iff, Option.some.injEq, Prod.mk.injEq] at h
    obtain ⟨pi, hr, _, hb, rfl, rfl⟩ := h
    rw [accounts_put]
    exact addRef_step (fun _ => rfl) hb (accounts_take hr)
  | weakFromShared r p =>
    simp only [begin, Option.bind_eq_bind, Option.bind_eq_some_iff, Option.some.injEq, Prod.mk.injEq] at h
    obtain ⟨pi, hr, _, hb, rfl, rfl⟩ := h
    rw [accounts_put]
    exact addRef_step (fun h => by cases h) hb (accounts_take hr)
  | copyWeak r p =>
    simp only [begin, Option.bind_eq_bind, Option.bind_eq_some_iff, Option.some.injEq, Prod.mk.injEq] at h
    obtain ⟨pi, hr, _, hb, rfl, rfl⟩ := h
    rw [accounts_put]
    exact addRef_step (fun h => by cases h) hb (accounts_take hr)
  | move k r p =>
    simp only [begin, Option.bind_eq_bind, Option.bind_eq_some_iff, Option.some.injEq, Prod.mk.injEq] at h
    obtain ⟨pi, hr, rfl, rfl⟩ := h
    exact .keep (by rw [accounts_put, accounts_take hr, accounts_assign, Pi.accounts, zero_add])
  | assignShared p r =>
    simp only [begin, Option.bind_eq_bind, Option.bind_eq_some_iff] at h
    obtain ⟨tmp, hr, pi, hp, h⟩ := h
    split at h
    · cases h
      exact .keep rfl
    · simp only [Option.bind_eq_some_iff, Option.some.injEq, Prod.mk.injEq] at h
      obtain ⟨_, hb, rfl, rfl⟩ := h
      rw [accounts_releaseThenSet hp]
      exact addRef_step (fun _ => rfl) hb (accounts_take hr)
  | assignWeakShared p r =>
    simp only [begin, Option.bind_eq_bind, Option.bind_eq_some_iff, Option.some.injEq, Prod.mk.injEq] at h
    obtain ⟨tmp, hr, pi, hp, _, hb, rfl, rfl⟩ := h
    rw [accounts_releaseThenSet hp]
    exact addRef_step (fun h => by cases h) hb (accounts_take hr)
  | assignWeak p r =>
    simp only [begin, Option.bind_eq_bind, Option.bind_eq_some_iff, Option.some.injEq, Prod.mk.injEq] at h
    obtain ⟨tmp, hr, pi, hp, _, hb, rfl, rfl⟩ := h
    rw [accounts_releaseThenSet hp]
    exact addRef_step (fun h => by cases h) hb (accounts_take hr)
  | moveAssign k p r =>
    simp only [begin, Option.bind_eq_bind, Option.bind_eq_some_iff, Option.some.injEq, Prod.mk.injEq] at h
    obtain ⟨tmp, hr, pi, hp, rfl, rfl⟩ := h
    refine .keep ?_
    rw [accounts_drop, accounts_assign, add_left_comm, ← accounts_take hp, accounts_take hr, accounts_assign,
      Pi.accounts, zero_add]
  | moveAssignConv p r =>
    simp only [begin, Option.bind_eq_bind, Option.bind_eq_some_iff, Option.some.injEq, Prod.mk.injEq] at h
    obtain ⟨tmp, hr, pi, hp, rfl, rfl⟩ := h
    refine .keep ?_
    rw [accounts_releaseThenSet hp, accounts_take hr, accounts_assign, Pi.accounts, zero_add]
  | swap k p q =>
    simp only [begin, Option.bind_eq_bind, Option.bind_eq_some_iff, Option.some.injEq, Prod.mk.injEq] at h
    obtain ⟨tmp, hq, pi, hp, rfl, rfl⟩ := h
    refine .keep ?_
    by_cases hpq : p = q
    · subst hpq
      obtain rfl : pi = tmp := Option.some.inj (hp.symm.trans hq)
      rw [accounts_assign, take_assign, ← accounts_take hp]
    · have hp' : (th.assign k q pi).slot k p = some pi := (th.slot_assign k pi hpq).trans hp
      have h₁ := accounts_take hp'
      rw [accounts_assign] at h₁
      have h₂ := accounts_take hq
      rw [accounts_assign]
      -- `q` holds what `p` held, and `p` what `q` held
      have h₃ : ((th.assign k q pi).take k p).accounts = (th.take k q).accounts := by
        exact add_left_cancel h₁.symm
      rw [h₃, h₂]
  | reset k p =>
    simp only [begin, Option.bind_eq_bind, Option.bind_eq_some_iff, Option.some.injEq, Prod.mk.injEq] at h
    obtain ⟨pi, hp, rfl, rfl⟩ := h
    refine .keep ?_
    rw [accounts_drop, accounts_take hp, accounts_assign, Pi.accounts, zero_add]
  | destroy k p =>
    simp only [begin, Option.bind_eq_bind, Option.bind_eq_some_iff, Option.some.injEq, Prod.mk.injEq] at h
    obtain ⟨pi, hp, rfl, rfl⟩ := h
    exact .keep (by rw [accounts_drop, accounts_take hp])
  | convert nothrow r p =>
    simp only [begin] at h
    split at h
    · cases h
    · cases h
      refine .keep ?_
      cases nothrow <;> simp [accounts_put, Pi.accounts]
    · next hr =>
      rw [accounts_take hr]
      exact addRefLockNothrow_step h
  | useCount k r =>
    simp only [begin, Option.map_eq_some_iff, Prod.mk.injEq] at h
    obtain ⟨_, _, rfl, rfl⟩ := h
    exact .keep rfl

theorem exec_step {lp : LockPolicy} {b b' : CountedBase} {th th' : Thread} {spurious : Bool} {i : Instr}
    (h : exec lp b th spurious i = some (b', th')) :
    ThreadStep lp b b' (i.accounts + th.accounts) th'.accounts := by
  cases i with
  | set k p tmp =>
    cases h
    exact .keep (accounts_put ..)
  | release k =>
    cases k with
    | shared =>
      simp only [exec] at h
      split at h
      · next hs =>
        cases h
        exact ⟨_, _, .testSole hs.1 hs.2.1 hs.2.2, th.accounts, rfl, by simp [accounts_push, Instr.accounts]⟩
      · cases h
        exact .keep (by simp [accounts_push, Instr.accounts])
    | weak => exact decWeak_step (.inr rfl) h
  | decUse =>
    rw [exec_decUse, Option.some.injEq, Prod.mk.injEq] at h
    obtain ⟨rfl, rfl⟩ := h
    split
    · next hu => exact ⟨_, _, .decUseLast hu, th.accounts, rfl, by simp [accounts_push, Instr.accounts]⟩
    · next hu => exact ⟨_, _, .decUse hu, th.accounts, rfl, by simp⟩
  | zeroUse =>
    cases h
    exact ⟨_, _, .zeroUse, th.accounts, rfl, by simp [accounts_push, Instr.accounts]⟩
  | zeroWeak =>
    cases h
    exact ⟨_, _, .zeroWeak, th.accounts, rfl, by simp [accounts_push, Instr.accounts]⟩
  | dispose sole =>
    cases h
    exact ⟨_, _, .dispose sole, th.accounts, rfl, by simp [accounts_push, Instr.accounts]⟩
  | disposeReturn sole =>
    cases h
    refine ⟨_, _, .disposeReturn sole, th.accounts, rfl, ?_⟩
    cases sole <;> simp [accounts_push, Instr.accounts]
  | decWeakLast => exact decWeak_step (.inl rfl) h
  | destroy =>
    cases h
    exact ⟨_, _, .destroy, th.accounts, rfl, by simp⟩
  | lockCas r p nothrow count =>
    simp only [exec] at h
    split at h
    · next hc =>
      simp only [Option.bind_eq_bind, Option.bind_eq_some_iff, chk_eq_some, Option.some.injEq, Prod.mk.injEq] at h
      obtain ⟨_, hmax, rfl, rfl⟩ := h
      rw [← hc.1] at hmax ⊢
      refine ⟨_, _, .lockCas (hc.1 ▸ count.2) hmax, th.accounts, rfl, accounts_lockSucceeds ..⟩
    · split at h
      · cases h
        refine ⟨_, _, .lockFail, {.ref .weak} + th.accounts, ?_, by simp [accounts_lockFails]⟩
        simp [Instr.accounts, Multiset.cons_swap]
      · cases h
        exact .keep (by simp [accounts_push, Instr.accounts])
  | lockAdd r p nothrow =>
    rw [exec_lockAdd] at h
    split at h
    · next hu =>
      simp only [Option.map_eq_some_iff, chk_eq_some, Prod.mk.injEq] at h
      obtain ⟨_, hmax, rfl, rfl⟩ := h
      exact ⟨_, _, .lockAdd hu hmax, th.accounts, rfl, by simp [accounts_push, Instr.accounts]⟩
    · next hu =>
      cases h
      refine ⟨_, _, .lockAddZero (not_not.mp hu), {.ref .weak} + th.accounts, ?_, ?_⟩ <;>
        simp [accounts_push, Instr.accounts, Multiset.cons_swap]
  | lockUndo r p nothrow =>
    cases h
    refine ⟨_, _, .lockUndo, {.ref .weak} + th.accounts, ?_, ?_⟩ <;>
      simp [accounts_push, Instr.accounts, Multiset.cons_swap]
  | lockUnlock r p nothrow ok =>
    cases h
    cases ok with
    | false =>
      refine ⟨_, _, .unlock, {.ref .weak} + th.accounts, ?_, ?_⟩ <;>
        simp [accounts_lockFails, Instr.accounts, Multiset.cons_swap]
    | true =>
      refine ⟨_, _, .unlock, {.ref .weak, .ref .shared} + th.accounts, ?_, ?_⟩ <;>
        simp [accounts_lockSucceeds, Instr.accounts, Multiset.cons_swap]
  | lockGet r p =>
    cases h
    exact .keep (by simp [accounts_put, Instr.accounts, Pi.accounts, Multiset.cons_swap])

section Steps

variable {ι : Type} [DecidableEq ι] [Fintype ι] {lp : LockPolicy} {s s' : State ι} {l : Label ι}

/-- **Every step is a transition of the ledger.** -/
theorem step_accounts (h : step lp s l = some s') :
    ThreadStep lp s.block s'.block s.accounts s'.accounts := by
  obtain ⟨t, act⟩ := l
  cases act with
  | begin op =>
    simp only [step, Option.ite_none_right_eq_some, Option.map_eq_some_iff] at h
    obtain ⟨-, ⟨b', th'⟩, hb, rfl⟩ := h
    obtain ⟨loss, gain, ht, hm⟩ := begin_step hb
    exact ⟨loss, gain, ht, hm.sum_update⟩
  | pass k p dest q =>
    simp only [step, Option.ite_none_right_eq_some, Option.bind_eq_bind, Option.bind_eq_some_iff,
      Option.some.injEq] at h
    obtain ⟨-, pi, hp, rfl⟩ := h
    -- one thread's account loses the handle, then another's gains it
    have htake : Moves (pi.accounts k) 0 (s.thr t).accounts ((s.thr t).take k p).accounts :=
      ⟨_, accounts_take hp, (zero_add _).symm⟩
    have hput (th : Thread) : Moves 0 (pi.accounts k) th.accounts (th.put k q pi).accounts :=
      accounts_put th k q pi ▸ .gain _ _
    obtain ⟨rest, hs, hmid⟩ := htake.sum_update (ι := ι) (f := Thread.accounts)
    obtain ⟨rest', hmid', hs'⟩ := (hput _).sum_update (ι := ι) (f := Thread.accounts)
    have hrest : rest = rest' := by simpa using hmid.symm.trans hmid'
    exact .keep (hs'.trans (hrest ▸ hs.symm))
  | run spurious =>
    simp only [step] at h
    split at h
    · cases h
    · next i rest htodo =>
      simp only [Option.map_eq_some_iff] at h
      obtain ⟨⟨b', th'⟩, hx, rfl⟩ := h
      obtain ⟨loss, gain, ht, hm⟩ := exec_step hx
      refine ⟨loss, gain, ht, Moves.sum_update ?_⟩
      have hacc : (s.thr t).accounts = i.accounts + { s.thr t with todo := rest : Thread }.accounts := by
        simp only [Thread.accounts, htodo, List.map_cons, List.sum_cons]
        abel
      rwa [hacc]

end Steps

/-! ## The invariant -/

/-- How the block's counters and calls follow from the account. -/
@[mk_iff] structure Ledger (b : CountedBase) (a : Multiset Account) : Prop where
  use : b.useCount.toNat = a.count (.ref .shared) + a.count .sole + a.count .undo
  /-- All shared handles together hold one weak reference. -/
  weak : b.weakCount.toNat = a.count (.ref .weak) + min (a.count (.ref .shared) + a.count .sole) 1
    + a.count .soleLeft + a.count (.toDispose false) + a.count (.inDispose false) + a.count .implied
  disposeCalls : b.disposeCalls + min (a.count (.ref .shared) + a.count .sole) 1 + a.count .soleLeft
    + a.count (.toDispose false) + a.count (.toDispose true) = 1
  disposeReturns : b.disposeReturns + a.count (.inDispose false) + a.count (.inDispose true) = b.disposeCalls
  implied : a.count .implied ≤ b.disposeReturns
  destroyCalls : b.destroyCalls + a.count .doomed + a.count (.toDispose true) + a.count (.inDispose true)
    + min b.weakCount.toNat 1 = 1
  doomed : b.destroyCalls + a.count .doomed ≤ b.disposeReturns
  /-- The double-word branch has the block to itself. -/
  sole : a.count .sole + a.count .soleLeft = 0 ∨
    a.count .sole ≤ 1 ∧ a.count (.ref .shared) = 0 ∧ a.count (.ref .weak) = 0
  locked : a.count .mutex + a.count .undo = b.locked.toNat
  /-- `_M_use_count` is one too high only when no shared handle is left. -/
  undo : a.count .undo = 0 ∨ a.count (.ref .shared) + a.count .sole = 0

/-- The policies' ways of locking are not mixed. -/
structure Policy (lp : LockPolicy) (a : Multiset Account) : Prop where
  cas : (∀ dw, lp ≠ .atomic dw) → a.count .cas = 0
  mutex : lp ≠ .mutex → a.count .mutex + a.count .undo = 0

theorem count_account (a x : Account) (rest : Multiset Account) :
    Multiset.count a ({x} + rest) = (if a = x then 1 else 0) + Multiset.count a rest := by
  rw [Multiset.count_add, Multiset.count_singleton]

theorem count_account_cons (a x : Account) (xs rest : Multiset Account) :
    Multiset.count a (x ::ₘ xs + rest) = (if a = x then 1 else 0) + Multiset.count a (xs + rest) := by
  rw [Multiset.cons_add, Multiset.count_cons, add_comm]

namespace Ledger

variable {b : CountedBase} {rest : Multiset Account}

theorem addRefCopy (h : b.useCount ≠ -1) (hl : Ledger b ({.ref .shared} + rest)) :
    Ledger { b with useCount := b.useCount + 1 } ({.ref .shared, .ref .shared} + rest) := by
  simp only [ledger_iff, Multiset.insert_eq_cons, count_account_cons, count_account, toNat_add_one h, reduceCtorEq,
    Account.ref.injEq, if_true, if_false] at hl ⊢
  omega

theorem weakAddRef (k : Kind) (h : b.weakCount ≠ -1) (hl : Ledger b ({.ref k} + rest)) :
    Ledger { b with weakCount := b.weakCount + 1 } ({.ref k, .ref .weak} + rest) := by
  cases k <;>
    simp only [ledger_iff, Multiset.insert_eq_cons, count_account_cons, count_account, toNat_add_one h, reduceCtorEq,
      Account.ref.injEq, if_true, if_false] at hl ⊢ <;>
    omega

theorem use_ne_zero (hl : Ledger b ({.ref .shared} + rest)) : b.useCount ≠ 0 := by
  have hu := hl.use
  simp only [count_account, if_true] at hu
  rw [ne_eq, eq_zero_iff]
  omega

theorem decUse (h : b.useCount ≠ 1) (hl : Ledger b ({.ref .shared} + rest)) :
    Ledger { b with useCount := b.useCount + -1 } (0 + rest) := by
  have hu := hl.use_ne_zero
  rw [ne_eq, eq_one_iff] at h
  simp only [ledger_iff, count_account, toNat_add_neg_one hu, reduceCtorEq, Account.ref.injEq, if_true, if_false,
    zero_add] at hl ⊢
  omega

theorem decUseLast (h : b.useCount = 1) (hl : Ledger b ({.ref .shared} + rest)) :
    Ledger { b with useCount := b.useCount + -1 } ({.toDispose false} + rest) := by
  have hu := hl.use_ne_zero
  rw [eq_one_iff] at h
  simp only [ledger_iff, count_account, toNat_add_neg_one hu, reduceCtorEq, Account.ref.injEq,
    Account.toDispose.injEq, if_true, if_false] at hl ⊢
  omega

theorem testSole (hu : b.useCount = 1) (hw : b.weakCount = 1) (hl : Ledger b ({.ref .shared} + rest)) :
    Ledger b ({.sole} + rest) := by
  simp only [ledger_iff, count_account, reduceCtorEq, Account.ref.injEq, if_true, if_false] at hl ⊢
  rw [eq_one_iff] at hu hw
  omega

theorem zeroUse (hl : Ledger b ({.sole} + rest)) : Ledger { b with useCount := 0 } ({.soleLeft} + rest) := by
  simp only [ledger_iff, count_account, reduceCtorEq, if_true, if_false, BitVec.ofNat_eq_ofNat,
    BitVec.toNat_ofNat] at hl ⊢
  omega

theorem zeroWeak (hl : Ledger b ({.soleLeft} + rest)) :
    Ledger { b with weakCount := 0 } ({.toDispose true} + rest) := by
  simp only [ledger_iff, count_account, reduceCtorEq, Account.toDispose.injEq, if_true, if_false,
    BitVec.ofNat_eq_ofNat, BitVec.toNat_ofNat] at hl ⊢
  omega

theorem dispose (sole : Bool) (hl : Ledger b ({.toDispose sole} + rest)) :
    Ledger { b with disposeCalls := b.disposeCalls + 1 } ({.inDispose sole} + rest) := by
  cases sole <;>
    simp only [ledger_iff, count_account, reduceCtorEq, Account.toDispose.injEq, Account.inDispose.injEq, if_true,
      if_false] at hl ⊢ <;>
    omega

theorem disposeReturn (sole : Bool) (hl : Ledger b ({.inDispose sole} + rest)) :
    Ledger { b with disposeReturns := b.disposeReturns + 1 }
      ({if sole then .doomed else .implied} + rest) := by
  cases sole <;>
    simp only [ledger_iff, count_account, reduceCtorEq, Account.inDispose.injEq, if_true, if_false] at hl ⊢ <;>
    omega

/-- Who may decrement the weak count finds it positive. -/
theorem weak_ne_zero {a : Account} (ha : a = .implied ∨ a = .ref .weak) (hl : Ledger b ({a} + rest)) :
    b.weakCount ≠ 0 := by
  have hw := hl.weak
  rw [ne_eq, eq_zero_iff]
  rcases ha with rfl | rfl <;> simp only [count_account, if_true] at hw <;> omega

theorem decWeak {a : Account} (ha : a = .implied ∨ a = .ref .weak) (h : b.weakCount ≠ 1)
    (hl : Ledger b ({a} + rest)) : Ledger { b with weakCount := b.weakCount + -1 } (0 + rest) := by
  have hw := hl.weak_ne_zero ha
  rw [ne_eq, eq_one_iff] at h
  rcases ha with rfl | rfl <;>
    simp only [ledger_iff, count_account, toNat_add_neg_one hw, reduceCtorEq, Account.ref.injEq, if_true, if_false,
      zero_add] at hl ⊢ <;>
    omega

theorem decWeakLast {a : Account} (ha : a = .implied ∨ a = .ref .weak) (h : b.weakCount = 1)
    (hl : Ledger b ({a} + rest)) : Ledger { b with weakCount := b.weakCount + -1 } ({.doomed} + rest) := by
  have hw := hl.weak_ne_zero ha
  rw [eq_one_iff] at h
  rcases ha with rfl | rfl <;>
    simp only [ledger_iff, count_account, toNat_add_neg_one hw, reduceCtorEq, Account.ref.injEq, if_true,
      if_false] at hl ⊢ <;>
    omega

theorem destroy (hl : Ledger b ({.doomed} + rest)) :
    Ledger { b with destroyCalls := b.destroyCalls + 1 } (0 + rest) := by
  simp only [ledger_iff, count_account, reduceCtorEq, if_true, if_false, zero_add] at hl ⊢
  omega

/-- A weak handle at hand and a use count that is not zero, nor one too high:
there is a shared handle. -/
theorem lockAdds (h : b.useCount ≠ 0) (h' : b.useCount ≠ -1) (hundo : rest.count .undo = 0)
    (hl : Ledger b ({.ref .weak} + rest)) :
    Ledger { b with useCount := b.useCount + 1 } ({.ref .weak, .ref .shared} + rest) := by
  rw [ne_eq, eq_zero_iff] at h
  simp only [ledger_iff, Multiset.insert_eq_cons, count_account_cons, count_account, toNat_add_one h', reduceCtorEq,
    Account.ref.injEq, if_true, if_false] at hl ⊢
  omega

theorem cas (hl : Ledger b rest) : Ledger b ({.cas} + rest) := by
  simpa only [ledger_iff, count_account, reduceCtorEq, if_false, zero_add] using hl

theorem of_cas (hl : Ledger b ({.cas} + rest)) : Ledger b rest := by
  simpa only [ledger_iff, count_account, reduceCtorEq, if_false, zero_add] using hl

theorem lock (h : b.locked = false) (hl : Ledger b rest) : Ledger { b with locked := true } ({.mutex} + rest) := by
  simp only [ledger_iff, count_account, reduceCtorEq, if_true, if_false, zero_add, h, Bool.toNat_false,
    Bool.toNat_true] at hl ⊢
  omega

theorem unlock (hl : Ledger b ({.mutex} + rest)) : Ledger { b with locked := false } rest := by
  have hlocked := b.locked.toNat_le
  simp only [ledger_iff, count_account, reduceCtorEq, if_true, if_false, zero_add, Bool.toNat_false] at hl ⊢
  omega

theorem lockAddZero (h : b.useCount = 0) (hl : Ledger b ({.mutex} + rest)) :
    Ledger { b with useCount := b.useCount + 1 } ({.undo} + rest) := by
  have hinc := toNat_add_one (x := b.useCount) (by rw [h]; decide)
  rw [eq_zero_iff] at h
  simp only [ledger_iff, count_account, reduceCtorEq, if_true, if_false, hinc] at hl ⊢
  omega

theorem lockUndo (hl : Ledger b ({.undo} + rest)) : Ledger { b with useCount := 0 } ({.mutex} + rest) := by
  have hlocked := b.locked.toNat_le
  simp only [ledger_iff, count_account, reduceCtorEq, if_true, if_false, BitVec.ofNat_eq_ofNat,
    BitVec.toNat_ofNat] at hl ⊢
  omega

end Ledger

section

variable {lp : LockPolicy} {b b' : CountedBase} {x y loss gain : Multiset Account}

theorem Transition.policy (ht : Transition lp b b' loss gain) (hm : Moves loss gain x y) (hp : Policy lp x) :
    Policy lp y := by
  obtain ⟨rest, rfl, rfl⟩ := hm
  obtain ⟨hcas, hmutex⟩ := hp
  simp only [Multiset.count_add] at hcas hmutex
  constructor
  · intro hlp
    have h := hcas hlp
    rw [Multiset.count_add]
    cases ht with
    | lockLoad dw hdw => exact absurd hdw (hlp dw)
    | disposeReturn sole => cases sole <;> simpa using h
    | decWeak a ha _ => rcases ha with rfl | rfl <;> simpa using h
    | decWeakLast a ha _ => rcases ha with rfl | rfl <;> simpa using h
    | lockCas | lockFail => simp at h
    | _ => simpa using h
  · intro hlp
    have h := hmutex hlp
    rw [Multiset.count_add, Multiset.count_add]
    cases ht with
    | lock hl => exact absurd hl hlp
    | disposeReturn sole => cases sole <;> simpa using h
    | decWeak a ha _ => rcases ha with rfl | rfl <;> simpa using h
    | decWeakLast a ha _ => rcases ha with rfl | rfl <;> simpa using h
    | lockAdd | lockAddZero | lockUndo | unlock => simp at h
    | _ => simpa using h

/-- **Every transition keeps the ledger.** -/
theorem Transition.ledger (ht : Transition lp b b' loss gain) (hm : Moves loss gain x y) (hp : Policy lp x)
    (hl : Ledger b x) : Ledger b' y := by
  obtain ⟨rest, rfl, rfl⟩ := hm
  cases ht with
  | keep => exact hl
  | addRefCopy h => exact hl.addRefCopy h
  | weakAddRef k h => exact hl.weakAddRef k h
  | decUse h => exact hl.decUse h
  | decUseLast h => exact hl.decUseLast h
  | testSole hlp hu hw => exact hl.testSole hu hw
  | zeroUse => exact hl.zeroUse
  | zeroWeak => exact hl.zeroWeak
  | dispose sole => exact hl.dispose sole
  | disposeReturn sole => exact hl.disposeReturn sole
  | decWeak a ha h => exact hl.decWeak ha h
  | decWeakLast a ha h => exact hl.decWeakLast ha h
  | destroy => exact hl.destroy
  | lockSingle hlp h h' =>
    have hu := hp.mutex (by simp [hlp])
    simp only [count_account, reduceCtorEq, if_false] at hu
    exact hl.lockAdds h h' (by omega)
  | lockLoad dw hlp => exact (zero_add rest).symm ▸ hl.cas
  | lockCas h h' =>
    -- a compare-exchange to come: the policy is not the mutex one
    have hcas : Multiset.count .cas ({.ref .weak, .cas} + rest) ≠ 0 := by simp
    have hu := hp.mutex fun hm => hcas (hp.cas (by simp [hm]))
    simp only [Multiset.insert_eq_cons, count_account_cons, count_account, reduceCtorEq, if_false] at hu
    have hx : {.ref .weak, .cas} + rest = {.cas} + ({.ref .weak} + rest) := by
      simp only [Multiset.insert_eq_cons, ← Multiset.singleton_add]
      abel
    exact Ledger.lockAdds h h' (by omega) (hx ▸ hl).of_cas
  | lockFail => exact (zero_add rest).symm ▸ hl.of_cas
  | lock hlp h => exact (zero_add rest).symm ▸ (hl.lock h)
  | lockAdd h h' =>
    -- the mutex is held here, so by nobody who has counted one too many
    have hlocked := hl.locked
    have hle := b.locked.toNat_le
    simp only [Multiset.insert_eq_cons, count_account_cons, count_account, reduceCtorEq, if_true, if_false] at hlocked
    have hx : {.ref .weak, .mutex} + rest = {.ref .weak} + ({.mutex} + rest) := by
      simp only [Multiset.insert_eq_cons, ← Multiset.singleton_add]
      abel
    have hy : {.ref .weak, .ref .shared, .mutex} + rest = {.ref .weak, .ref .shared} + ({.mutex} + rest) := by
      simp only [Multiset.insert_eq_cons, ← Multiset.singleton_add]
      abel
    rw [hy]
    refine Ledger.lockAdds h h' ?_ (hx ▸ hl)
    simp only [count_account, reduceCtorEq, if_false]
    omega
  | lockAddZero h => exact hl.lockAddZero h
  | lockUndo => exact hl.lockUndo
  | unlock => exact (zero_add rest).symm ▸ hl.unlock

end

section Runs

variable {ι : Type} [DecidableEq ι] [Fintype ι] {lp : LockPolicy} {s s' : State ι} {l : Label ι}

/-- The invariant of the machine. -/
structure Inv (lp : LockPolicy) (s : State ι) : Prop where
  ledger : Ledger s.block s.accounts
  policy : Policy lp s.accounts

theorem accounts_init (t : ι) : (State.init t).accounts = {.ref .shared} := by
  have hacc (u : ι) : ((State.init t).thr u).accounts = if u = t then {.ref .shared} else 0 := by
    by_cases h : u = t <;> simp [State.init, Thread.accounts, h, heldBy, Pi.accounts]
  rw [State.accounts, Finset.sum_congr rfl fun u _ => hacc u, Finset.sum_ite_eq' univ t, if_pos (mem_univ t)]

theorem Inv.init (lp : LockPolicy) (t : ι) : Inv lp (State.init t) := by
  constructor <;> rw [accounts_init]
  · constructor <;> simp [State.init, CountedBase.new]
  · constructor <;> simp

theorem Inv.step (hi : Inv lp s) (h : step lp s l = some s') : Inv lp s' := by
  obtain ⟨loss, gain, ht, hm⟩ := step_accounts h
  exact ⟨ht.ledger hm hi.policy hi.ledger, ht.policy hm hi.policy⟩

/-- **The ledger holds in every reachable state.** -/
theorem Inv.run {t₀ : ι} {ls : List (Label ι)} (h : run (SharedPtr.step lp) (State.init t₀) ls = some s) :
    Inv lp s :=
  run_invariant (fun _ _ _ hi hs => hi.step hs) h (.init lp t₀)

end Runs

end SharedPtr
