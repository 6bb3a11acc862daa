/-
The double-word branch of `_Sp_counted_base<_S_atomic>::_M_release` against
the path without it.

Reading both counters as 1 means that the handle being released is the only
one and that nothing else is under way (`enters_alone`); from then on nobody
but the releasing thread touches the block. So the branch is matched, step
by step, by the machine whose `_M_release` has no such branch: `decUse` where
it zeroes the use count, `decWeakLast` after `_M_dispose` has returned. The
relation is between the threads' lists of things to do (`Thread.plain`); what
the blocks then have in common follows from their ledgers (`Plain.block`).
-/
import SharedPtr.Reentrancy

namespace SharedPtr

open Lib Finset

/-! ## The path without the branch -/

/-- The instruction of the path without the branch. -/
def Instr.plain : Instr → Instr
  | .zeroUse => .decUse
  | .zeroWeak | .dispose true => .dispose false
  | .disposeReturn true => .disposeReturn false
  | i => i

def Thread.plain (th : Thread) : Thread := { th with todo := th.todo.map Instr.plain }

/-- What the instructions of the branch have a claim on, without it. -/
def Account.plain : Account → Account
  | .sole => .ref .shared
  | .soleLeft | .toDispose true => .toDispose false
  | .inDispose true => .inDispose false
  | a => a

/-- The virtual functions of a control block. -/
inductive VirtualCall
  | dispose
  | destroy
  deriving DecidableEq, Repr

variable {ι : Type}

/-- The virtual calls a step makes. -/
def State.calls (s : State ι) (l : Label ι) : List VirtualCall :=
  match l.act with
  | .run _ =>
    match (s.thr l.thread).todo with
    | .dispose _ :: _ => [.dispose]
    | .destroy :: _ => [.destroy]
    | _ => []
  | _ => []

/-- The steps that match a step, without the branch: none for the store of
zero to `_M_weak_count`, and the decrement of it after `_M_dispose`. -/
def State.plainLabels (s : State ι) (l : Label ι) : List (Label ι) :=
  match l.act with
  | .run _ =>
    match (s.thr l.thread).todo with
    | .zeroWeak :: _ => []
    | .disposeReturn true :: _ => [l, ⟨l.thread, .run false⟩]
    | _ => [l]
  | _ => [l]

/-- `_M_release` finds both counters 1 and enters the branch. -/
def State.enters (s : State ι) (l : Label ι) : Prop :=
  (∃ spurious, l.act = .run spurious) ∧ (∃ rest, (s.thr l.thread).todo = .release .shared :: rest) ∧
    s.block.useCount = 1 ∧ s.block.weakCount = 1

/-! ## Threads -/

section

variable {th th' : Thread} {b b' : CountedBase}

@[simp] theorem Thread.plain_slot (th : Thread) (k : Kind) (p : Nat) : th.plain.slot k p = th.slot k p := rfl

@[simp] theorem Thread.plain_put (th : Thread) (k : Kind) (p : Nat) (pi : Pi) :
    (th.put k p pi).plain = th.plain.put k p pi := rfl

@[simp] theorem Thread.plain_take (th : Thread) (k : Kind) (p : Nat) : (th.take k p).plain = th.plain.take k p := rfl

@[simp] theorem Thread.plain_assign (th : Thread) (k : Kind) (p : Nat) (pi : Pi) :
    (th.assign k p pi).plain = th.plain.assign k p pi := rfl

@[simp] theorem Thread.plain_push (th : Thread) (is : List Instr) :
    (th.push is).plain = th.plain.push (is.map Instr.plain) := by
  simp [push, plain]

@[simp] theorem Thread.plain_drop (th : Thread) (k : Kind) (pi : Pi) : (th.drop k pi).plain = th.plain.drop k pi := by
  cases pi <;> simp [drop, Instr.plain]

@[simp] theorem Thread.plain_releaseThenSet (th : Thread) (k : Kind) (p : Nat) (pi tmp : Pi) :
    (th.releaseThenSet k p pi tmp).plain = th.plain.releaseThenSet k p pi tmp := by
  cases pi <;> simp [releaseThenSet, Instr.plain]

@[simp] theorem Thread.plain_lockFails (th : Thread) (r p : Nat) (nothrow : Bool) :
    (th.lockFails r p nothrow).plain = th.plain.lockFails r p nothrow := by
  cases nothrow <;> rfl

@[simp] theorem Thread.plain_lockSucceeds (th : Thread) (r p : Nat) (nothrow : Bool) :
    (th.lockSucceeds r p nothrow).plain = th.plain.lockSucceeds r p nothrow := by
  cases nothrow <;> rfl

@[simp] theorem Thread.plain_canBegin (th : Thread) : th.plain.canBegin = th.canBegin := by
  obtain ⟨handles, todo⟩ := th
  cases todo with
  | nil => rfl
  | cons i rest =>
    cases i with
    | dispose sole | disposeReturn sole => cases sole <;> rfl
    | _ => rfl

/-- An operation that does not touch the block does not depend on it. -/
theorem begin_untouched {lp : LockPolicy} {op : Op} (h : begin lp b th op = some (b', th')) (hn : ¬ op.touches th)
    (b₂ : CountedBase) (lp₂ : LockPolicy) : begin lp₂ b₂ th op = some (b₂, th') := by
  have hadd {k k' : Kind} {r : Nat} {pi : Pi} (hn : th.slot k r ≠ some .self) (hr : th.slot k r = some pi)
      (b : CountedBase) : b.addRef k' pi = some b := by
    cases pi with
    | self => exact absurd hr hn
    | other => cases k' <;> rfl
  cases op with
  | make k p =>
    cases h
    rfl
  | copyShared r p | weakFromShared r p | copyWeak r p =>
    simp only [begin, Option.bind_eq_bind, Option.bind_eq_some_iff, Option.some.injEq, Prod.mk.injEq] at h ⊢
    obtain ⟨pi, hr, _, -, -, rfl⟩ := h
    exact ⟨pi, hr, _, hadd hn hr b₂, rfl, rfl⟩
  | assignShared p r =>
    simp only [begin, Option.bind_eq_bind, Option.bind_eq_some_iff] at h ⊢
    obtain ⟨tmp, hr, pi, hp, h⟩ := h
    refine ⟨tmp, hr, pi, hp, ?_⟩
    split at h
    next heq =>
      cases h
      rw [if_pos heq]
    next hne =>
      have htmp : th.slot .shared r ≠ some .self := by
        intro hself
        refine hn ⟨hself, fun hp' => hne ?_⟩
        rw [hr] at hself
        rw [hp] at hp'
        cases hself
        cases hp'
        rfl
      rw [if_neg hne]
      simp only [Option.bind_eq_some_iff, Option.some.injEq, Prod.mk.injEq] at h ⊢
      obtain ⟨_, -, -, rfl⟩ := h
      exact ⟨_, hadd htmp hr b₂, rfl, rfl⟩
  | assignWeakShared p r | assignWeak p r =>
    simp only [begin, Option.bind_eq_bind, Option.bind_eq_some_iff, Option.some.injEq, Prod.mk.injEq] at h ⊢
    obtain ⟨tmp, hr, pi, hp, _, -, -, rfl⟩ := h
    exact ⟨tmp, hr, pi, hp, _, hadd hn hr b₂, rfl, rfl⟩
  | convert nothrow r p =>
    simp only [begin] at h ⊢
    split at h
    next => cases h
    next hr =>
      cases h
      rfl
    next hr => exact absurd hr hn
  | useCount k r =>
    simp only [begin, Option.map_eq_some_iff, Prod.mk.injEq] at h ⊢
    obtain ⟨pi, hr, -, rfl⟩ := h
    exact ⟨pi, hr, trivial, rfl⟩
  | move | reset | destroy =>
    simp only [begin, Option.bind_eq_bind, Option.bind_eq_some_iff, Option.some.injEq, Prod.mk.injEq] at h ⊢
    obtain ⟨pi, hp, -, rfl⟩ := h
    exact ⟨pi, hp, trivial, rfl⟩
  | moveAssign | moveAssignConv | swap =>
    simp only [begin, Option.bind_eq_bind, Option.bind_eq_some_iff, Option.some.injEq, Prod.mk.injEq] at h ⊢
    obtain ⟨tmp, hr, pi, hp, -, rfl⟩ := h
    exact ⟨tmp, hr, pi, hp, trivial, rfl⟩

/-- Operations begin alike with and without the branch. -/
theorem begin_plain {op : Op} (h : begin (.atomic true) b th op = some (b', th')) :
    begin (.atomic false) b th.plain op = some (b', th'.plain) := by
  cases op with
  | make k p =>
    cases h
    rfl
  | copyShared r p | weakFromShared r p | copyWeak r p =>
    simp only [begin, Option.bind_eq_bind, Option.bind_eq_some_iff, Option.some.injEq, Prod.mk.injEq] at h ⊢
    obtain ⟨pi, hr, _, hb, rfl, rfl⟩ := h
    exact ⟨pi, hr, _, hb, rfl, rfl⟩
  | assignShared p r =>
    simp only [begin, Option.bind_eq_bind, Option.bind_eq_some_iff] at h ⊢
    obtain ⟨tmp, hr, pi, hp, h⟩ := h
    refine ⟨tmp, hr, pi, hp, ?_⟩
    split at h
    next heq =>
      cases h
      rw [if_pos heq]
    next hne =>
      rw [if_neg hne]
      simp only [Option.bind_eq_some_iff, Option.some.injEq, Prod.mk.injEq] at h ⊢
      obtain ⟨_, hb, rfl, rfl⟩ := h
      exact ⟨_, hb, rfl, by simp⟩
  | assignWeakShared p r | assignWeak p r =>
    simp only [begin, Option.bind_eq_bind, Option.bind_eq_some_iff, Option.some.injEq, Prod.mk.injEq] at h ⊢
    obtain ⟨tmp, hr, pi, hp, _, hb, rfl, rfl⟩ := h
    exact ⟨tmp, hr, pi, hp, _, hb, rfl, by simp⟩
  | convert nothrow r p =>
    simp only [begin, Thread.plain_slot] at h ⊢
    split at h
    next => cases h
    next hr =>
      cases h
      cases nothrow <;> rfl
    next hr =>
      simp only [addRefLockNothrow] at h ⊢
      split at h
      next hz =>
        cases h
        rw [dif_pos hz, Thread.plain_lockFails]
        rfl
      next hz =>
        cases h
        rw [dif_neg hz]
        rfl
  | useCount k r =>
    simp only [begin, Option.map_eq_some_iff, Prod.mk.injEq] at h ⊢
    obtain ⟨pi, hr, rfl, rfl⟩ := h
    exact ⟨pi, hr, rfl, rfl⟩
  | move | reset | destroy =>
    simp only [begin, Option.bind_eq_bind, Option.bind_eq_some_iff, Option.some.injEq, Prod.mk.injEq] at h ⊢
    obtain ⟨pi, hp, rfl, rfl⟩ := h
    exact ⟨pi, hp, rfl, by simp⟩
  | swap | moveAssign | moveAssignConv =>
    simp only [begin, Option.bind_eq_bind, Option.bind_eq_some_iff, Option.some.injEq, Prod.mk.injEq] at h ⊢
    obtain ⟨tmp, hr, pi, hp, rfl, rfl⟩ := h
    exact ⟨tmp, hr, pi, hp, rfl, by simp⟩

/-- The instructions run alike but for the three that the branch has in
another place. -/
theorem exec_plain {spurious : Bool} {i : Instr} (hu : i ≠ .zeroUse) (hw : i ≠ .zeroWeak)
    (hd : i ≠ .disposeReturn true) (h : exec (.atomic true) b th spurious i = some (b', th')) :
    exec (.atomic false) b th.plain spurious i.plain = some (b', th'.plain) := by
  have hdec {c : AtomicWord} {j : Instr} (hj : j.plain = j) :
      (if c = 1 then th.plain.push [j] else th.plain) = (if c = 1 then th.push [j] else th).plain := by
    split <;> simp [hj]
  cases i with
  | zeroUse => exact absurd rfl hu
  | zeroWeak => exact absurd rfl hw
  | disposeReturn sole =>
    cases sole with
    | true => exact absurd rfl hd
    | false =>
      cases h
      simp [exec, Instr.plain]
  | dispose sole =>
    cases sole <;>
    · cases h
      simp [exec, Instr.plain]
  | set k p tmp | lockGet r p | destroy =>
    cases h
    rfl
  | release k =>
    cases k with
    | shared =>
      have hplain : exec (.atomic false) b th.plain spurious (.release .shared) =
          some (b, th.plain.push [.decUse]) := by simp [exec]
      simp only [exec] at h
      split at h <;>
      · cases h
        exact hplain.trans (by simp [Instr.plain])
    | weak =>
      change exec (.atomic true) b th spurious .decWeakLast = _ at h
      change exec (.atomic false) b th.plain spurious .decWeakLast = _
      rw [exec_decWeakLast] at h ⊢
      rw [hdec rfl, ← (Prod.mk.inj (Option.some.inj h)).1, ← (Prod.mk.inj (Option.some.inj h)).2]
  | decUse =>
    change exec (.atomic false) b th.plain spurious .decUse = _
    rw [exec_decUse] at h ⊢
    rw [hdec rfl, ← (Prod.mk.inj (Option.some.inj h)).1, ← (Prod.mk.inj (Option.some.inj h)).2]
  | decWeakLast =>
    change exec (.atomic false) b th.plain spurious .decWeakLast = _
    rw [exec_decWeakLast] at h ⊢
    rw [hdec rfl, ← (Prod.mk.inj (Option.some.inj h)).1, ← (Prod.mk.inj (Option.some.inj h)).2]
  | lockCas r p nothrow count =>
    simp only [exec, Instr.plain] at h ⊢
    split at h
    next hc =>
      simp only [Option.bind_eq_bind, Option.bind_eq_some_iff, Option.some.injEq, Prod.mk.injEq] at h
      obtain ⟨u, hu, rfl, rfl⟩ := h
      simp [hc, hu]
    next hc =>
      rw [if_neg hc]
      split at h
      next hz =>
        cases h
        rw [dif_pos hz, Thread.plain_lockFails]
      next hz =>
        cases h
        rw [dif_neg hz, Thread.plain_push]
        rfl
  | lockAdd r p nothrow =>
    change exec (.atomic false) b th.plain spurious (.lockAdd r p nothrow) = _
    rw [exec_lockAdd] at h ⊢
    split at h
    next hz =>
      simp only [Option.map_eq_some_iff, Prod.mk.injEq] at h
      obtain ⟨u, hu, rfl, rfl⟩ := h
      rw [if_pos hz, hu, Thread.plain_push]
      rfl
    next hz =>
      cases h
      rw [if_neg hz, Thread.plain_push]
      rfl
  | lockUndo r p nothrow =>
    cases h
    simp [exec, Instr.plain]
  | lockUnlock r p nothrow ok =>
    cases h
    cases ok <;> simp [exec, Instr.plain]

end

/-! ## Ledgers -/

theorem Instr.accounts_plain (i : Instr) : i.plain.accounts = i.accounts.map Account.plain := by
  cases i with
  | set k p tmp => cases tmp <;> simp [Instr.plain, Instr.accounts, Pi.accounts, Account.plain]
  | dispose sole | disposeReturn sole => cases sole <;> simp [Instr.plain, Instr.accounts, Account.plain]
  | lockUnlock r p nothrow ok => cases ok <;> simp [Instr.plain, Instr.accounts, Account.plain]
  | _ => simp [Instr.plain, Instr.accounts, Account.plain]

theorem Thread.accounts_plain (th : Thread) : th.plain.accounts = th.accounts.map Account.plain := by
  have hheld (k : Kind) (hs : List (Nat × Pi)) : (heldBy k hs).map Account.plain = heldBy k hs := by
    induction hs with
    | nil => rfl
    | cons h hs ih =>
      rw [heldBy_cons, Multiset.map_add, ih]
      cases h.2 <;> rfl
  have htodo (is : List Instr) : ((is.map Instr.plain).map Instr.accounts).sum =
      ((is.map Instr.accounts).sum).map Account.plain := by
    induction is with
    | nil => rfl
    | cons i is ih => simp only [List.map_cons, List.sum_cons, Multiset.map_add, ih, Instr.accounts_plain]
  simp only [accounts, plain, htodo, Multiset.map_add, hheld]

/-- What the claims of the two machines count to. -/
theorem count_plain (x : Multiset Account) :
    (x.map Account.plain).count (.ref .shared) = x.count (.ref .shared) + x.count .sole ∧
    (x.map Account.plain).count (.ref .weak) = x.count (.ref .weak) ∧
    (x.map Account.plain).count .sole = 0 ∧ (x.map Account.plain).count .soleLeft = 0 ∧
    (x.map Account.plain).count (.toDispose false) =
      x.count (.toDispose false) + x.count (.toDispose true) + x.count .soleLeft ∧
    (x.map Account.plain).count (.toDispose true) = 0 ∧
    (x.map Account.plain).count (.inDispose false) = x.count (.inDispose false) + x.count (.inDispose true) ∧
    (x.map Account.plain).count (.inDispose true) = 0 ∧
    (x.map Account.plain).count .implied = x.count .implied ∧
    (x.map Account.plain).count .doomed = x.count .doomed := by
  induction x using Multiset.induction with
  | empty => simp
  | cons a x ih =>
    rw [Multiset.map_cons]
    cases a with
    | ref k =>
      cases k <;>
      · simp only [Account.plain, Multiset.count_cons, reduceCtorEq, Account.ref.injEq, if_true, if_false]
        omega
    | toDispose sole | inDispose sole =>
      cases sole <;>
      · simp only [Account.plain, Multiset.count_cons, reduceCtorEq, Account.toDispose.injEq,
          Account.inDispose.injEq, if_true, if_false]
        omega
    | _ =>
      simp only [Account.plain, Multiset.count_cons, reduceCtorEq, Account.ref.injEq, Account.toDispose.injEq,
        if_true, if_false]
      omega

section

variable [Fintype ι] {s u : State ι} {t : ι}

/-- The states correspond: the second machine has no double-word branch. -/
structure Plain (s u : State ι) : Prop where
  inv : Inv (.atomic true) s
  inv' : Inv (.atomic false) u
  thr : ∀ t, u.thr t = (s.thr t).plain

theorem Plain.accounts (h : Plain s u) : u.accounts = s.accounts.map Account.plain := by
  have hsum : s.accounts.map Account.plain = ∑ t, ((s.thr t).accounts).map Account.plain :=
    map_sum (Multiset.mapAddMonoidHom Account.plain) _ _
  rw [hsum, State.accounts]
  exact Finset.sum_congr rfl fun t _ => by rw [h.thr, Thread.accounts_plain]

/-- The branch after the counters are zeroed, up to the end of `_M_dispose`. -/
def State.pending (s : State ι) : Nat := s.accounts.count (.toDispose true) + s.accounts.count (.inDispose true)

/-- **The ledgers determine what the blocks have in common.** -/
theorem Plain.block (h : Plain s u) : u.block.useCount = s.block.useCount ∧
    u.block.weakCount.toNat = s.block.weakCount.toNat + s.pending ∧ (s.pending = 0 → u.block = s.block) := by
  have hl := h.inv.ledger
  have hl' := h.inv'.ledger
  have hpol : s.accounts.count .mutex + s.accounts.count .undo = 0 := h.inv.policy.mutex nofun
  have hpol' : u.accounts.count .mutex + u.accounts.count .undo = 0 := h.inv'.policy.mutex nofun
  obtain ⟨c₁, c₂, c₃, c₄, c₅, c₆, c₇, c₈, c₉, c₁₀⟩ := h.accounts ▸ count_plain s.accounts
  have hu : u.block.useCount.toNat = s.block.useCount.toNat := by
    rw [hl.use, hl'.use]
    omega
  have hw : u.block.weakCount.toNat = s.block.weakCount.toNat + s.pending := by
    rw [hl.weak, hl'.weak, c₁, c₂, c₃, c₄, c₅, c₇, c₉, State.pending]
    omega
  have hd : u.block.disposeCalls = s.block.disposeCalls := by
    have hd := hl.disposeCalls
    have hd' := hl'.disposeCalls
    rw [c₁, c₃, c₄, c₅, c₆] at hd'
    omega
  have hr : u.block.disposeReturns = s.block.disposeReturns := by
    have hr := hl.disposeReturns
    have hr' := hl'.disposeReturns
    rw [c₇, c₈] at hr'
    omega
  have hlock : u.block.locked = s.block.locked := by
    have hinj : ∀ c d : Bool, c.toNat = d.toNat → c = d := by decide
    exact hinj _ _ (by rw [← hl.locked, ← hl'.locked, hpol, hpol'])
  have hx : s.pending = 0 → u.block.destroyCalls = s.block.destroyCalls := by
    intro hp
    have hx := hl.destroyCalls
    have hx' := hl'.destroyCalls
    rw [c₆, c₈, c₁₀, hw, hp] at hx'
    unfold State.pending at hp
    omega
  refine ⟨BitVec.eq_of_toNat_eq hu, hw, ?_⟩
  intro hp
  rw [hp] at hw
  calc u.block = ⟨u.block.useCount, u.block.weakCount, u.block.locked, u.block.disposeCalls,
        u.block.disposeReturns, u.block.destroyCalls⟩ := rfl
    _ = s.block := by rw [BitVec.eq_of_toNat_eq hu, BitVec.eq_of_toNat_eq hw, hlock, hd, hr, hx hp]

end

/-! ## The thread in the branch is alone -/

/-- A claim of the branch, or of a thread about to call `_M_destroy`. -/
def Account.exclusive : Account → Bool
  | .sole | .soleLeft | .toDispose true | .inDispose true | .doomed => true
  | _ => false

/-- There is one exclusive claim, and no other that keeps the block. -/
theorem Ledger.exclusive {b : CountedBase} {x : Multiset Account} (hl : Ledger b x) {a : Account} (ha : a ∈ x)
    (hx : a.exclusive = true) :
    (x.count (.ref .shared) = 0 ∧ x.count (.ref .weak) = 0) ∧
      (x.count (.toDispose false) = 0 ∧ x.count (.inDispose false) = 0 ∧ x.count .implied = 0) ∧
      x.count .sole + x.count .soleLeft + (x.count (.toDispose true) + x.count (.inDispose true)) +
        x.count .doomed = 1 := by
  have hpos := Multiset.count_pos.mpr ha
  obtain ⟨use, weak, disposeCalls, disposeReturns, implied, destroyCalls, doomed, sole, -, undo⟩ := hl
  cases a with
  | toDispose b | inDispose b =>
    cases b with
    | false => cases hx
    | true => omega
  | sole | soleLeft | doomed => omega
  | _ => cases hx

theorem mem_of_mem_todo {th : Thread} {i : Instr} (h : i ∈ th.todo) {a : Account} (ha : a ∈ i.accounts) :
    a ∈ th.accounts := by
  obtain ⟨l₁, l₂, htodo⟩ := List.append_of_mem h
  simp [Thread.accounts, htodo, ha]

section

variable [Fintype ι] [DecidableEq ι] {lp : LockPolicy} {s u : State ι} {t j : ι}

omit [DecidableEq ι] in
theorem exclusive_of_pending (hp : s.pending ≠ 0) : ∃ a ∈ s.accounts, a.exclusive = true := by
  unfold State.pending at hp
  by_cases h : s.accounts.count (.toDispose true) = 0
  · exact ⟨.inDispose true, Multiset.count_pos.mp (by omega), rfl⟩
  · exact ⟨.toDispose true, Multiset.count_pos.mp (by omega), rfl⟩

/-- While the branch is between its stores and the end of `_M_dispose`, all
other work is to assign what is no reference to the block. -/
theorem Inv.todo_of_pending (hi : Inv lp s) (hp : s.pending ≠ 0) {i : Instr} (hi' : i ∈ (s.thr t).todo) :
    (∃ k p, i = .set k p .other) ∨ i = .dispose true ∨ i = .disposeReturn true := by
  obtain ⟨a, ha, hx⟩ := exclusive_of_pending hp
  obtain ⟨⟨h₁, h₂⟩, ⟨h₃, h₄, h₅⟩, hone⟩ := hi.ledger.exclusive ha hx
  have hnot {a : Account} (hz : s.accounts.count a = 0) (ha : a ∈ i.accounts) : False :=
    Multiset.count_eq_zero.mp hz (mem_accounts_of_thread (mem_of_mem_todo hi' ha))
  unfold State.pending at hp
  cases i with
  | set k p tmp =>
    cases tmp with
    | other => exact .inl ⟨k, p, rfl⟩
    | self => cases k <;> exact (hnot (by assumption) (Multiset.mem_singleton_self _)).elim
  | release k => cases k <;> exact (hnot (by assumption) (Multiset.mem_singleton_self _)).elim
  | decUse => exact (hnot h₁ (Multiset.mem_singleton_self _)).elim
  | zeroUse => exact (hnot (a := .sole) (by omega) (Multiset.mem_singleton_self _)).elim
  | zeroWeak => exact (hnot (a := .soleLeft) (by omega) (Multiset.mem_singleton_self _)).elim
  | dispose sole =>
    cases sole with
    | false => exact (hnot h₃ (Multiset.mem_singleton_self _)).elim
    | true => exact .inr (.inl rfl)
  | disposeReturn sole =>
    cases sole with
    | false => exact (hnot h₄ (Multiset.mem_singleton_self _)).elim
    | true => exact .inr (.inr rfl)
  | decWeakLast => exact (hnot h₅ (Multiset.mem_singleton_self _)).elim
  | destroy => exact (hnot (a := .doomed) (by omega) (Multiset.mem_singleton_self _)).elim
  | lockUnlock r p nothrow ok => exact (hnot h₂ (by cases ok <;> simp [Instr.accounts])).elim
  | lockCas | lockAdd | lockUndo | lockGet => exact (hnot h₂ (by simp [Instr.accounts])).elim

theorem countP_live (x : Multiset Account) : x.countP (·.live) =
    x.count (.ref .shared) + x.count (.ref .weak) + (x.count .sole + x.count .soleLeft) +
      (x.count (.toDispose false) + x.count (.toDispose true)) +
      (x.count (.inDispose false) + x.count (.inDispose true)) + (x.count .implied + x.count .doomed) := by
  induction x using Multiset.induction with
  | empty => simp
  | cons a x ih =>
    rw [Multiset.countP_cons, ih]
    cases a with
    | ref k =>
      cases k <;>
      · simp only [Account.live, Multiset.count_cons, reduceCtorEq, Account.ref.injEq, if_true, if_false]
        omega
    | toDispose sole | inDispose sole =>
      cases sole <;>
      · simp only [Account.live, Multiset.count_cons, reduceCtorEq, Account.toDispose.injEq,
          Account.inDispose.injEq, if_true, if_false]
        omega
    | _ =>
      simp only [Account.live, Multiset.count_cons, reduceCtorEq, Bool.false_eq_true, if_true, if_false]
      omega

/-- A thread with an exclusive claim is the only one with a claim that keeps the block. -/
theorem Inv.eq_of_exclusive (hi : Inv lp s) {a a' : Account} (ha : a ∈ (s.thr t).accounts)
    (hx : a.exclusive = true) (ha' : a' ∈ (s.thr j).accounts) (hlive : a'.live = true) : j = t := by
  by_contra hne
  obtain ⟨⟨h₁, h₂⟩, ⟨h₃, h₄, h₅⟩, hone⟩ := hi.ledger.exclusive (mem_accounts_of_thread ha) hx
  obtain ⟨rest, hacc⟩ := exists_sum_eq_add_add Thread.accounts s.thr hne
  have hall : s.accounts.countP (·.live) = 1 := by
    rw [countP_live]
    omega
  have hj : 0 < (s.thr j).accounts.countP (·.live) := Multiset.countP_pos.mpr ⟨a', ha', hlive⟩
  have ht : 0 < (s.thr t).accounts.countP (·.live) := by
    refine Multiset.countP_pos.mpr ⟨a, ha, ?_⟩
    cases a with
    | toDispose sole | inDispose sole => rfl
    | sole | soleLeft | doomed => rfl
    | _ => cases hx
  rw [State.accounts, hacc, Multiset.countP_add, Multiset.countP_add] at hall
  omega

/-! ## The simulation -/

theorem Plain.begin (h : Plain s u) {op : Op} {b' : CountedBase} {th' : Thread}
    (hb : begin (.atomic true) s.block (s.thr t) op = some (b', th')) :
    ∃ b₂, SharedPtr.begin (.atomic false) u.block (s.thr t).plain op = some (b₂, th'.plain) := by
  by_cases hp : s.pending = 0
  · rw [h.block.2.2 hp]
    exact ⟨b', begin_plain hb⟩
  · -- there is no reference to the block that an operation could use
    have hn : ¬ op.touches (s.thr t) := by
      intro htouch
      obtain ⟨k, hk⟩ := Op.live htouch
      obtain ⟨a, ha, hx⟩ := exclusive_of_pending hp
      obtain ⟨⟨h₁, h₂⟩, -⟩ := h.inv.ledger.exclusive ha hx
      have hpos := Multiset.count_pos.mpr (mem_accounts_of_thread hk)
      cases k <;> omega
    exact ⟨u.block, begin_plain (begin_untouched hb hn u.block _)⟩

theorem Plain.set (h : Plain s u) {s₁ : State ι} {l : Label ι} {ls : List (Label ι)} {u₁ : State ι}
    (hs : step (.atomic true) s l = some s₁) (hu : run (step (.atomic false)) u ls = some u₁)
    (hthr : ∀ j, u₁.thr j = (s₁.thr j).plain) : Plain s₁ u₁ :=
  ⟨h.inv.step hs, run_invariant (fun _ _ _ hi hs => hi.step hs) hu h.inv', hthr⟩

theorem Plain.set_thr (h : Plain s u) (x : CountedBase × Thread) (b₂ : CountedBase) (j : ι) :
    (u.set t (b₂, x.2.plain)).thr j = ((s.set t x).thr j).plain := by
  by_cases hj : j = t
  · rw [hj, State.set_thr_self, State.set_thr_self]
  · rw [State.set_thr_ne _ hj, State.set_thr_ne _ hj, h.thr]

/-- One instruction, matched by one. -/
theorem Plain.exec (h : Plain s u) {i : Instr} {rest : List Instr} (htodo : (s.thr t).todo = i :: rest)
    (hu : i ≠ .zeroUse) (hw : i ≠ .zeroWeak) (hd : i ≠ .disposeReturn true) {spurious : Bool} {b' : CountedBase}
    {th' : Thread} (hx : exec (.atomic true) s.block { s.thr t with todo := rest } spurious i = some (b', th')) :
    ∃ b₂, SharedPtr.exec (.atomic false) u.block (Thread.plain { s.thr t with todo := rest }) spurious i.plain =
      some (b₂, th'.plain) := by
  by_cases hp : s.pending = 0
  · rw [h.block.2.2 hp]
    exact ⟨b', exec_plain hu hw hd hx⟩
  · obtain ⟨k, p, rfl⟩ | rfl | rfl := h.inv.todo_of_pending hp (i := i) (t := t) (by simp [htodo])
    · cases hx
      exact ⟨u.block, rfl⟩
    · cases hx
      exact ⟨{ u.block with disposeCalls := u.block.disposeCalls + 1 }, by simp [SharedPtr.exec, Instr.plain]⟩
    · exact absurd rfl hd

/-- A step from `s` to `s₁` is matched from `u`, with the same calls. -/
def MatchedPlain (s s₁ u : State ι) (l : Label ι) : Prop :=
  ∃ u₁, run (step (.atomic false)) u (s.plainLabels l) = some u₁ ∧
    outputs (step (.atomic false)) State.calls u (s.plainLabels l) = s.calls l ∧ Plain s₁ u₁

variable {s₁ u₁ : State ι} {l : Label ι} {i : Instr} {rest : List Instr} {spurious : Bool}

/-- A step matched by the step of the same label. -/
theorem Plain.matched (h : Plain s u) (hs : step (.atomic true) s l = some s₁) (hlabels : s.plainLabels l = [l])
    (hu : step (.atomic false) u l = some u₁) (hcalls : u.calls l = s.calls l)
    (hthr : ∀ j, u₁.thr j = (s₁.thr j).plain) : MatchedPlain s s₁ u l := by
  have hrun : run (step (.atomic false)) u [l] = some u₁ := run_cons.mpr ⟨u₁, hu, rfl⟩
  rw [MatchedPlain, hlabels]
  exact ⟨u₁, hrun, by rw [outputs_cons hu, hcalls]; exact List.append_nil _, h.set hs hrun hthr⟩

/-- The next step of a thread, without the branch. -/
theorem Plain.step_run (h : Plain s u) (htodo : (s.thr t).todo = i :: rest) (spurious : Bool) :
    step (.atomic false) u ⟨t, .run spurious⟩ =
      (SharedPtr.exec (.atomic false) u.block (Thread.plain { s.thr t with todo := rest }) spurious i.plain).map
        (u.set t) := by
  refine SharedPtr.step_run ?_ spurious
  rw [h.thr, Thread.plain, htodo]
  rfl

/-- For the first store the use count, which is 1, is counted down to zero. -/
theorem Plain.zeroUse (h : Plain s u) (htodo : (s.thr t).todo = .zeroUse :: rest)
    (hs : step (.atomic true) s ⟨t, .run spurious⟩ = some s₁) : MatchedPlain s s₁ u ⟨t, .run spurious⟩ := by
  let th : Thread := { s.thr t with todo := rest }
  have hs₁ : s₁ = s.set t ({ s.block with useCount := 0 }, th.push [.zeroWeak]) := by
    simp only [step, htodo, SharedPtr.exec, Option.map_some, Option.some.injEq] at hs
    exact hs.symm
  have huse : u.block.useCount = 1 := by
    have hsole := Multiset.count_pos.mpr
      (mem_accounts_of_thread (mem_of_todo htodo (Multiset.mem_singleton_self _)))
    have hl := h.inv.ledger
    have hpol := h.inv.policy.mutex (by simp)
    have hcase := hl.sole
    rw [h.block.1, eq_one_iff, hl.use]
    omega
  have hu : step (.atomic false) u ⟨t, .run spurious⟩ =
      some (u.set t ({ u.block with useCount := u.block.useCount + -1 }, (th.push [.zeroWeak]).plain)) := by
    rw [h.step_run htodo, show Instr.zeroUse.plain = .decUse from rfl, exec_decUse, if_pos huse]
    rfl
  refine h.matched hs (by simp [State.plainLabels, htodo]) hu ?_ ?_
  · simp [State.calls, htodo, h.thr, Thread.plain, Instr.plain]
  · rw [hs₁]
    exact h.set_thr (_, th.push [.zeroWeak]) _

/-- For the second store there is no step: `_M_weak_count` stays 1. -/
theorem Plain.zeroWeak (h : Plain s u) (htodo : (s.thr t).todo = .zeroWeak :: rest)
    (hs : step (.atomic true) s ⟨t, .run spurious⟩ = some s₁) : MatchedPlain s s₁ u ⟨t, .run spurious⟩ := by
  let th : Thread := { s.thr t with todo := rest }
  have hs₁ : s₁ = s.set t ({ s.block with weakCount := 0 }, th.push [.dispose true]) := by
    simp only [step, htodo, SharedPtr.exec, Option.map_some, Option.some.injEq] at hs
    exact hs.symm
  have hlabels : s.plainLabels ⟨t, .run spurious⟩ = [] := by simp [State.plainLabels, htodo]
  have hcalls : s.calls ⟨t, .run spurious⟩ = [] := by simp [State.calls, htodo]
  have hrun : run (step (.atomic false)) u [] = some u := rfl
  rw [MatchedPlain, hlabels, hcalls]
  refine ⟨u, hrun, rfl, h.set hs hrun ?_⟩
  intro j
  rw [hs₁]
  by_cases hj : j = t
  · rw [hj, State.set_thr_self, h.thr, Thread.plain, htodo]
    rfl
  · rw [State.set_thr_ne _ hj, h.thr]

/-- When `_M_dispose` has returned, `_M_weak_count` is counted down to zero. -/
theorem Plain.disposeReturn (h : Plain s u) (htodo : (s.thr t).todo = .disposeReturn true :: rest)
    (hs : step (.atomic true) s ⟨t, .run spurious⟩ = some s₁) : MatchedPlain s s₁ u ⟨t, .run spurious⟩ := by
  let th : Thread := { s.thr t with todo := rest }
  have hs₁ : s₁ = s.set t ({ s.block with disposeReturns := s.block.disposeReturns + 1 }, th.push [.destroy]) := by
    simp only [step, htodo, SharedPtr.exec, Option.map_some, Option.some.injEq] at hs
    exact hs.symm
  have hweak : u.block.weakCount = 1 := by
    have hin := Multiset.count_pos.mpr
      (mem_accounts_of_thread (mem_of_todo htodo (Multiset.mem_singleton_self _)))
    have hone := h.inv.ledger.destroyCalls
    have hw := h.block.2.1
    unfold State.pending at hw
    rw [eq_one_iff]
    omega
  let v := u.set t ({ u.block with disposeReturns := u.block.disposeReturns + 1 }, th.plain.push [.decWeakLast])
  let w := v.set t ({ v.block with weakCount := v.block.weakCount + -1 }, (th.push [.destroy]).plain)
  have hv : step (.atomic false) u ⟨t, .run spurious⟩ = some v := by
    rw [h.step_run htodo]
    rfl
  have hw : step (.atomic false) v ⟨t, .run false⟩ = some w := by
    rw [SharedPtr.step_run (State.set_thr_self ..), exec_decWeakLast, if_pos (show v.block.weakCount = 1 from hweak)]
    rfl
  have hlabels : s.plainLabels ⟨t, .run spurious⟩ = [⟨t, .run spurious⟩, ⟨t, .run false⟩] := by
    simp [State.plainLabels, htodo]
  have hrun : run (step (.atomic false)) u [⟨t, .run spurious⟩, ⟨t, .run false⟩] = some w :=
    run_cons.mpr ⟨v, hv, run_cons.mpr ⟨w, hw, rfl⟩⟩
  rw [MatchedPlain, hlabels]
  refine ⟨w, hrun, ?_, h.set hs hrun fun j => ?_⟩
  · rw [outputs_cons hv, outputs_cons hw]
    simp [State.calls, htodo, h.thr, Thread.plain, Instr.plain, v, Thread.push, outputs]
  · rw [hs₁]
    by_cases hj : j = t
    · rw [hj, State.set_thr_self, State.set_thr_self]
    · rw [State.set_thr_ne _ hj, State.set_thr_ne _ hj, State.set_thr_ne _ hj, h.thr]

/-- **A step is matched by the steps without the branch**, with the same calls. -/
theorem Plain.step (h : Plain s u) (hs : step (.atomic true) s l = some s₁) : MatchedPlain s s₁ u l := by
  have hs' := hs
  obtain ⟨t, act⟩ := l
  cases act with
  | begin op =>
    simp only [SharedPtr.step, Option.ite_none_right_eq_some, Option.map_eq_some_iff] at hs
    obtain ⟨hcan, ⟨b', th'⟩, hb, rfl⟩ := hs
    obtain ⟨b₂, hb₂⟩ := h.begin hb
    have hu : SharedPtr.step (.atomic false) u ⟨t, .begin op⟩ = some (u.set t (b₂, th'.plain)) := by
      simp only [SharedPtr.step, h.thr, Thread.plain_canBegin, hcan, if_true, hb₂, Option.map_some]
    exact h.matched hs' rfl hu rfl (h.set_thr (b', th') b₂)
  | pass k p dest q =>
    simp only [SharedPtr.step, Option.ite_none_right_eq_some, Option.bind_eq_bind, Option.bind_eq_some_iff,
      Option.some.injEq] at hs
    obtain ⟨hcan, pi, hp, rfl⟩ := hs
    have hmid := h.set_thr (t := t) (s.block, (s.thr t).take k p) u.block
    have hu : SharedPtr.step (.atomic false) u ⟨t, .pass k p dest q⟩ =
        some ((u.set t (u.block, ((s.thr t).take k p).plain)).set dest
          (u.block, (((s.set t (s.block, (s.thr t).take k p)).thr dest).put k q pi).plain)) := by
      simp only [SharedPtr.step, h.thr, Thread.plain_canBegin, hcan, if_true, Thread.plain_slot, hp,
        Option.bind_eq_bind, Option.bind_some, ← Thread.plain_take, hmid, ← Thread.plain_put]
      rfl
    refine h.matched hs' rfl hu rfl ?_
    intro j
    by_cases hj : j = dest
    · rw [hj, State.set_thr_self, State.set_thr_self]
    · rw [State.set_thr_ne _ hj, State.set_thr_ne _ hj, hmid]
  | run spurious =>
    simp only [SharedPtr.step] at hs
    split at hs
    next => cases hs
    next i rest htodo =>
      simp only [Option.map_eq_some_iff] at hs
      obtain ⟨⟨b', th'⟩, hx, rfl⟩ := hs
      by_cases hzu : i = .zeroUse
      · exact h.zeroUse (hzu ▸ htodo) hs'
      by_cases hzw : i = .zeroWeak
      · exact h.zeroWeak (hzw ▸ htodo) hs'
      by_cases hdr : i = .disposeReturn true
      · exact h.disposeReturn (hdr ▸ htodo) hs'
      obtain ⟨b₂, hb₂⟩ := h.exec htodo hzu hzw hdr hx
      have hutodo : (u.thr t).todo = i.plain :: rest.map Instr.plain := by
        rw [h.thr, Thread.plain, htodo, List.map_cons]
      have hu : SharedPtr.step (.atomic false) u ⟨t, .run spurious⟩ = some (u.set t (b₂, th'.plain)) := by
        rw [h.step_run htodo, hb₂, Option.map_some]
      refine h.matched hs' ?_ hu ?_ (h.set_thr (b', th') b₂)
      · cases i with
        | zeroWeak => exact absurd rfl hzw
        | disposeReturn sole =>
          cases sole with
          | true => exact absurd rfl hdr
          | false => simp [State.plainLabels, htodo]
        | _ => simp [State.plainLabels, htodo]
      · simp only [State.calls, htodo, hutodo]
        cases i with
        | zeroWeak => exact absurd rfl hzw
        | dispose sole | disposeReturn sole => cases sole <;> rfl
        | _ => rfl

/-! ## Entering the branch -/

/-- Both counters are 1: the handle being released is the only one, and all
other work is to assign what is no reference to the block. -/
theorem Inv.enters_alone (hi : Inv (.atomic true) s) (h : s.enters l) :
    s.owners .shared = 1 ∧ s.owners .weak = 0 ∧
      ∀ j, ∀ i ∈ if j = l.thread then (s.thr j).todo.tail else (s.thr j).todo, ∃ k p, i = .set k p .other := by
  obtain ⟨-, ⟨rest, htodo⟩, huse, hweak⟩ := h
  have hmem : .ref .shared ∈ (s.thr l.thread).accounts := mem_of_todo htodo (Multiset.mem_singleton_self _)
  have hpos := Multiset.count_pos.mpr (mem_accounts_of_thread hmem)
  have hl := hi.ledger
  rw [eq_one_iff] at huse hweak
  have hcounts : s.owners .shared = 1 ∧ s.owners .weak = 0 ∧ s.accounts.countP (·.live) = 1 := by
    obtain ⟨use, weak, disposeCalls, disposeReturns, implied, destroyCalls, doomed, sole, -, -⟩ := hl
    rw [countP_live, State.owners, State.owners]
    omega
  refine ⟨hcounts.1, hcounts.2.1, ?_⟩
  intro j i hi'
  -- an instruction that is not such an assignment has a second claim
  by_contra hset
  have hlive : 0 < i.accounts.countP (·.live) := by
    rcases i.live with ⟨k, p, tmp, rfl⟩ | ⟨a, ha, hlive⟩
    · cases tmp with
      | other => exact absurd ⟨k, p, rfl⟩ hset
      | self => exact Multiset.countP_pos.mpr ⟨.ref k, Multiset.mem_singleton_self _, rfl⟩
    · exact Multiset.countP_pos.mpr ⟨a, ha, hlive⟩
  have hone := hcounts.2.2
  by_cases hj : j = l.thread
  · subst hj
    rw [if_pos rfl, htodo] at hi'
    obtain ⟨l₁, l₂, hrest⟩ := List.append_of_mem hi'
    obtain ⟨others, hacc, -⟩ := exists_sum_update Thread.accounts s.thr l.thread
    rw [State.accounts, hacc, Multiset.countP_add] at hone
    have htwo : 2 ≤ (s.thr l.thread).accounts.countP (·.live) := by
      have hhead : (Instr.release .shared).accounts.countP (·.live) = 1 := by decide
      simp only [Thread.accounts, htodo, List.tail_cons] at hrest ⊢
      rw [hrest]
      simp only [List.map_cons, List.map_append, List.sum_cons, List.sum_append, Multiset.countP_add, hhead]
      omega
    omega
  · rw [if_neg hj] at hi'
    obtain ⟨a, ha, hl'⟩ := Multiset.countP_pos.mp hlive
    have h₁ : 0 < (s.thr j).accounts.countP (·.live) := Multiset.countP_pos.mpr ⟨a, mem_of_mem_todo hi' ha, hl'⟩
    have h₂ : 0 < (s.thr l.thread).accounts.countP (·.live) := Multiset.countP_pos.mpr ⟨_, hmem, rfl⟩
    obtain ⟨others, hacc⟩ := exists_sum_eq_add_add Thread.accounts s.thr hj
    rw [State.accounts, hacc, Multiset.countP_add, Multiset.countP_add] at hone
    omega

/-- An instruction of the branch, or the call of `_M_destroy`. -/
def Instr.exclusive : Instr → Bool
  | .zeroUse | .zeroWeak | .dispose true | .disposeReturn true | .destroy => true
  | _ => false

/-- Thread `t` has entered the branch. -/
def State.InBranch (s : State ι) (t : ι) : Prop :=
  (∃ i ∈ (s.thr t).todo, i.exclusive = true) ∨ s.block.destroyCalls ≠ 0

theorem Instr.exclusive_accounts (h : i.exclusive = true) : ∃ a ∈ i.accounts, a.exclusive = true := by
  cases i with
  | zeroUse | zeroWeak | destroy => exact ⟨_, Multiset.mem_singleton_self _, rfl⟩
  | dispose sole | disposeReturn sole =>
    cases sole with
    | true => exact ⟨_, Multiset.mem_singleton_self _, rfl⟩
    | false => cases h
  | _ => cases h

theorem exec_exclusive {b b' : CountedBase} {th th' : Thread}
    (h : SharedPtr.exec lp b th spurious i = some (b', th')) (hi : i.exclusive = true) :
    (∃ j ∈ th'.todo, j.exclusive = true) ∨ b'.destroyCalls ≠ 0 := by
  have hnext {j : Instr} (htodo : th'.todo = j :: th.todo) (hj : j.exclusive = true) :
      (∃ j ∈ th'.todo, j.exclusive = true) ∨ b'.destroyCalls ≠ 0 := .inl ⟨j, by simp [htodo], hj⟩
  cases i with
  | zeroUse | zeroWeak =>
    cases h
    exact hnext rfl rfl
  | dispose sole | disposeReturn sole =>
    cases sole with
    | true =>
      cases h
      exact hnext rfl rfl
    | false => cases hi
  | destroy =>
    cases h
    exact .inr (Nat.succ_ne_zero _)
  | _ => cases hi

theorem Transition.destroyCalls_le {b b' : CountedBase} {loss gain : Multiset Account}
    (h : Transition lp b b' loss gain) : b.destroyCalls ≤ b'.destroyCalls := by
  cases h with
  | destroy => exact Nat.le_succ _
  | _ => exact Nat.le_refl _

theorem inBranch_step (h : step lp s l = some s₁) (hb : s.InBranch t) : s₁.InBranch t := by
  have hle : s.block.destroyCalls ≤ s₁.block.destroyCalls := by
    obtain ⟨loss, gain, ht, -⟩ := step_accounts h
    exact ht.destroyCalls_le
  rcases hb with ⟨i, hi, hx⟩ | hd
  · by_cases hl : l.thread = t
    · obtain ⟨j, act⟩ := l
      obtain rfl : j = t := hl
      cases act with
      | begin op =>
        simp only [step, Option.ite_none_right_eq_some, Option.map_eq_some_iff] at h
        obtain ⟨-, ⟨b', th'⟩, hb, rfl⟩ := h
        obtain ⟨is, htodo, -⟩ := begin_pushes hb
        exact .inl ⟨i, by simp [htodo, hi], hx⟩
      | pass k p dest q =>
        simp only [step, Option.ite_none_right_eq_some, Option.bind_eq_bind, Option.bind_eq_some_iff,
          Option.some.injEq] at h
        obtain ⟨-, pi, -, rfl⟩ := h
        refine .inl ⟨i, ?_, hx⟩
        by_cases hj : j = dest
        · subst hj
          simpa [Thread.put, Thread.take] using hi
        · rw [State.set_thr_ne _ hj, State.set_thr_self]
          exact hi
      | run spurious =>
        simp only [step] at h
        split at h
        next => cases h
        next i' rest htodo =>
          simp only [Option.map_eq_some_iff] at h
          obtain ⟨⟨b', th'⟩, hx', rfl⟩ := h
          rw [htodo] at hi
          unfold State.InBranch
          rw [State.set_thr_self]
          rcases List.mem_cons.mp hi with rfl | hi
          · exact exec_exclusive hx' hx
          · obtain ⟨is, htodo', -⟩ := exec_pushes hx'
            exact .inl ⟨i, by simp [htodo', hi], hx⟩
    · exact .inl ⟨i, by rw [todo_of_other hl h]; exact hi, hx⟩
  · exact .inr (by omega)

theorem inBranch_run {ls : List (Label ι)} (h : run (step lp) s ls = some s₁) (hb : s.InBranch t) :
    s₁.InBranch t :=
  run_invariant (I := fun s => s.InBranch t) (fun _ _ _ hb h => inBranch_step h hb) h hb

omit [Fintype ι] in
theorem inBranch_of_enters (h : step (.atomic true) s l = some s₁) (he : s.enters l) : s₁.InBranch l.thread := by
  obtain ⟨t, act⟩ := l
  obtain ⟨⟨spurious, rfl⟩, ⟨rest, htodo⟩, huse, hweak⟩ := he
  simp only [step, htodo, SharedPtr.exec, huse, hweak, and_self, if_true, Option.map_some, Option.some.injEq] at h
  subst h
  refine .inl ⟨.zeroUse, ?_, rfl⟩
  rw [State.set_thr_self]
  exact List.mem_cons_self

/-- Where a thread is in the branch, no other one touches the block. -/
theorem Inv.eq_of_touches (hi : Inv lp s) (hb : s.InBranch t) (h : l.touches s) : l.thread = t := by
  obtain ⟨a', ha', hlive⟩ := l.live_of_thread h
  rcases hb with ⟨i, hi', hx⟩ | hd
  · obtain ⟨a, ha, hx⟩ := i.exclusive_accounts hx
    exact hi.eq_of_exclusive (mem_of_mem_todo hi' ha) hx ha' hlive
  · exact absurd (hi.ledger.alive (mem_accounts_of_thread ha') hlive) hd

/-! ## The contract -/

/-- What the double-word branch is, over a run. -/
structure RefinesPlain (t₀ : ι) (ls : List (Label ι)) : Prop where
  /-- It is entered where the handle released is the only one and no other
  operation on the block is in flight. -/
  alone : ∀ pre l post u, ls = pre ++ l :: post → run (step (.atomic true)) (State.init t₀) pre = some u →
    u.enters l → u.owners .shared = 1 ∧ u.owners .weak = 0 ∧
      ∀ j, ∀ i ∈ if j = l.thread then (u.thr j).todo.tail else (u.thr j).todo, ∃ k p, i = .set k p .other
  /-- From then on no other thread reads or writes the block. -/
  unseen : ∀ u l v l', Later (.atomic true) (State.init t₀) ls u l v l' → u.enters l → l'.touches v →
    l'.thread = l.thread
  /-- The path without it makes the same calls. -/
  sameCalls : ∃ u, run (step (.atomic false)) (State.init t₀)
      (outputs (step (.atomic true)) State.plainLabels (State.init t₀) ls) = some u ∧
    outputs (step (.atomic false)) State.calls (State.init t₀)
        (outputs (step (.atomic true)) State.plainLabels (State.init t₀) ls) =
      outputs (step (.atomic true)) State.calls (State.init t₀) ls

/-- **The double-word branch of `_M_release` refines the path without it**,
in every interleaving. -/
theorem fast_path_refines_plain (t₀ : ι) (ls : List (Label ι)) (s : State ι)
    (h : run (step (.atomic true)) (State.init t₀) ls = some s) : RefinesPlain t₀ ls where
  alone pre l post u _ hu he := (Inv.run hu).enters_alone he
  unseen u l v l' hlater he htouch := by
    obtain ⟨pre, mid, post, -, hu, hv⟩ := hlater
    obtain ⟨u₁, hl, hmid⟩ := run_cons.mp hv
    have hb := inBranch_run hmid (inBranch_of_enters hl he)
    exact (Inv.run (run_append.mpr ⟨u, hu, hv⟩)).eq_of_touches hb htouch
  sameCalls := by
    have hinit : Plain (State.init t₀) (State.init t₀ : State ι) := ⟨.init _ t₀, .init _ t₀, fun _ => rfl⟩
    obtain ⟨u, hu, hcalls, -⟩ := run_simulated (fun _ _ _ _ hR hs => Plain.step hR hs) h hinit
    exact ⟨u, hu, hcalls⟩

end

/-- A handle copied by one thread and dropped by another; the last one goes by
the double-word branch. -/
theorem fast_path_refines_plain_last : ∃ (ls : List (Label (Fin 2))) (s : State (Fin 2)),
    run (step (.atomic true)) (State.init 0) ls = some s ∧ s.block = ⟨0, 0, false, 1, 1, 1⟩ ∧ RefinesPlain 0 ls := by
  let ls : List (Label (Fin 2)) :=
    [⟨0, .begin (.copyShared 0 1)⟩, ⟨0, .pass .shared 1 1 0⟩, ⟨1, .begin (.destroy .shared 0)⟩, ⟨1, .run false⟩,
      ⟨1, .run false⟩, ⟨0, .begin (.reset .shared 0)⟩, ⟨0, .run false⟩, ⟨0, .run false⟩, ⟨0, .run false⟩,
      ⟨0, .run false⟩, ⟨0, .run false⟩, ⟨0, .run false⟩]
  have h : (run (step (.atomic true)) (State.init 0) ls).map (·.block) = some ⟨0, 0, false, 1, 1, 1⟩ := by
    decide +kernel
  obtain ⟨s, hs, hb⟩ := Option.map_eq_some_iff.mp h
  exact ⟨ls, s, hs, hb, fast_path_refines_plain 0 ls s hs⟩

end SharedPtr
