/-
The conversion of a `weak_ptr` reads the object only while the temporary of its
own `lock()` holds a reference to it, and what it stores is right whenever it
can still be got at (`safe_upcast`).

Between the two steps of a conversion the object may go. The pointer is then
null, or the one found by then, while the reference is to a block that is
expired: no later `lock()` gives that pointer away, as expiry is permanent. So
each stored pointer is the one it ought to be, or the block has expired
(`Ptrs.Good`).
-/
import SharedPtr.WeakUpcast

namespace SharedPtr.Upcast

open Lib

variable {ι : Type} [DecidableEq ι] [Fintype ι] {lp : LockPolicy}

/-! ## Expiry -/

theorem not_expired_of_slot {s : State ι} {t : ι} {p : Nat} (h : (s.thr t).slot .shared p = some .self) :
    ¬ s.Expired :=
  not_expired_of_mem (mem_accounts_of_thread (ref_mem_of_slot h))

/-! ## Stored pointers -/

/-- The stored pointer is the one it ought to be, or nobody gets at it any more. -/
def Stored.Good (b : State ι) (st : Stored) : Prop := st.ptr = st.refers ∨ b.Expired

def Ptrs.Good (b : State ι) (m : Ptrs) : Prop := ∀ k p, (m k p).Good b

section

variable {b b' : State ι} {m : Ptrs} {st : Stored} {k : Kind} {r p : Nat} {nothrow : Bool}

omit [DecidableEq ι]

theorem Stored.Good.null : Stored.null.Good b := .inl rfl

theorem Ptrs.Good.mono (h : m.Good b) (he : b.Expired → b'.Expired) : m.Good b' :=
  fun k p => (h k p).imp_right he

theorem Ptrs.Good.put (h : m.Good b) (hst : st.Good b) : (m.put k p st).Good b := by
  intro k' p'
  unfold Ptrs.put
  split
  next => exact hst
  next => exact h k' p'

theorem Ptrs.Good.source (h : m.Good b) (given : Option Ptr) : (m.source k r given).Good b := by
  unfold Ptrs.source
  split
  next => exact .inl rfl
  next => exact h k r

theorem Ptrs.Good.lockFails (h : m.Good b) : (m.lockFails p nothrow).Good b := by
  unfold Ptrs.lockFails
  split
  next => exact h.put .null
  next => exact h

theorem Ptrs.Good.lockSucceeds (h : m.Good b) : (m.lockSucceeds r p nothrow).Good b := by
  unfold Ptrs.lockSucceeds
  split
  next => exact h
  next => exact h.put (h _ _)

theorem Ptrs.Good.begin (h : m.Good b) (blk : CountedBase) (th : Thread) (given : Option Ptr) (op : Op) :
    (m.begin lp blk th given op).Good b := by
  cases op with
  | make | reset => exact h.put .null
  | copyShared | assignShared | weakFromShared | assignWeakShared => exact h.put (h.source given)
  | copyWeak | assignWeak => exact h.put (h _ _)
  | move | moveAssign => exact (h.put .null).put (h.source given)
  | swap => exact (h.put (h _ _)).put (h _ _)
  | convert nothrow r p =>
    simp only [Ptrs.begin]
    split
    next =>
      cases lp with
      | single =>
        simp only [Ptrs.addRefLockNothrow]
        split
        next => exact h.lockFails
        next => exact h.lockSucceeds
      | mutex => exact h
      | atomic =>
        simp only [Ptrs.addRefLockNothrow]
        split
        next => exact h.lockFails
        next => exact h
    next => exact h.lockFails
  | moveAssignConv | destroy | useCount => exact h

/-- The use count that `lock()` reads once more is not zero. -/
theorem Ptrs.Good.exec (h : m.Good b) {blk : CountedBase} {spurious : Bool} {i : Instr}
    (hget : ∀ r p, i = .lockGet r p → blk.useCount ≠ 0) : (m.exec blk spurious i).Good b := by
  cases i with
  | lockCas r p nothrow count =>
    simp only [Ptrs.exec]
    split
    next => exact h.lockSucceeds
    next =>
      split
      next => exact h.lockFails
      next => exact h
  | lockUnlock r p nothrow ok =>
    cases ok with
    | true => exact h.lockSucceeds
    | false => exact h.lockFails
  | lockGet r p =>
    simp only [Ptrs.exec, if_pos (hget r p rfl)]
    exact h.put (h .weak r)
  | _ => exact h

end

/-! ## `lock()` within a conversion -/

/-- The instruction is one of `lock()` of the weak handle `r`, for `p`. -/
def Instr.Locks (r p : Nat) : Instr → Prop
  | .lockCas r' p' nothrow _ | .lockAdd r' p' nothrow | .lockUndo r' p' nothrow | .lockUnlock r' p' nothrow _ =>
    r' = r ∧ p' = p ∧ nothrow = true
  | .lockGet r' p' => r' = r ∧ p' = p
  | _ => False

/-- The call has found the use count zero. -/
def Instr.SawZero : Instr → Prop
  | .lockUndo .. | .lockUnlock _ _ _ false => True
  | _ => False

section

variable {b b' : CountedBase} {th th' : Thread} {r p : Nat} {m : Ptrs}

omit [DecidableEq ι] [Fintype ι]

/-- How `lock()` begins: it has more to do, or has found the count zero. -/
theorem addRefLockNothrow_cases (h : addRefLockNothrow lp b th r p true = some (b', th')) :
    (∃ i, th'.todo = i :: th.todo ∧ Instr.Locks r p i ∧ ¬ Instr.SawZero i ∧ m.addRefLockNothrow lp b r p true = m) ∨
    th'.todo = th.todo ∧ b.useCount = 0 ∧ m.addRefLockNothrow lp b r p true = m.put .shared p .null := by
  cases lp with
  | single =>
    simp only [addRefLockNothrow] at h
    simp only [Ptrs.addRefLockNothrow]
    split at h
    next hu =>
      cases h
      rw [if_pos hu]
      exact .inr ⟨rfl, hu, rfl⟩
    next hu =>
      obtain ⟨b₁, -, he⟩ := Option.map_eq_some_iff.mp h
      cases he
      rw [if_neg hu]
      exact .inl ⟨.lockGet r p, rfl, ⟨rfl, rfl⟩, False.elim, rfl⟩
  | mutex =>
    simp only [addRefLockNothrow, Option.ite_none_left_eq_some, Option.some.injEq, Prod.mk.injEq] at h
    obtain ⟨-, -, rfl⟩ := h
    exact .inl ⟨.lockAdd r p true, rfl, ⟨rfl, rfl, rfl⟩, False.elim, rfl⟩
  | atomic dw =>
    simp only [addRefLockNothrow] at h
    simp only [Ptrs.addRefLockNothrow]
    split at h
    next hu =>
      cases h
      rw [if_pos hu]
      exact .inr ⟨rfl, hu, rfl⟩
    next hu =>
      cases h
      rw [if_neg hu]
      exact .inl ⟨.lockCas r p true ⟨b.useCount, hu⟩, rfl, ⟨rfl, rfl, rfl⟩, False.elim, rfl⟩

/-- How it goes on: it has more to do, or has found the count zero, or gives the temporary its pointer. -/
theorem exec_lock_cases {i : Instr} {rest : List Instr} {spurious : Bool} (hi : Instr.Locks r p i)
    (h : exec lp b { th with todo := rest } spurious i = some (b', th')) :
    (∃ i', th'.todo = i' :: rest ∧ Instr.Locks r p i' ∧ (Instr.SawZero i' → Instr.SawZero i ∨ b.useCount = 0) ∧
      m.exec b spurious i = m) ∨
    (th'.todo = rest ∧ (Instr.SawZero i ∨ b.useCount = 0) ∧ m.exec b spurious i = m.put .shared p .null) ∨
    (i = .lockGet r p ∧ th'.todo = rest ∧ th'.slot .shared p = some .self) := by
  cases i with
  | lockCas r' p' nothrow count =>
    obtain ⟨rfl, rfl, rfl⟩ := hi
    simp only [exec] at h
    simp only [Ptrs.exec]
    split at h
    next hc =>
      simp only [Option.bind_eq_bind, Option.bind_eq_some_iff, Option.some.injEq, Prod.mk.injEq] at h
      obtain ⟨-, -, -, rfl⟩ := h
      rw [if_pos hc]
      exact .inl ⟨.lockGet r' p', rfl, ⟨rfl, rfl⟩, False.elim, rfl⟩
    next hc =>
      rw [if_neg hc]
      split at h
      next hu =>
        cases h
        rw [if_pos hu]
        exact .inr (.inl ⟨rfl, .inr hu, rfl⟩)
      next hu =>
        cases h
        rw [if_neg hu]
        exact .inl ⟨.lockCas r' p' true ⟨b.useCount, hu⟩, rfl, ⟨rfl, rfl, rfl⟩, False.elim, rfl⟩
  | lockAdd r' p' nothrow =>
    obtain ⟨rfl, rfl, rfl⟩ := hi
    rw [exec_lockAdd] at h
    split at h
    next hu =>
      obtain ⟨-, -, he⟩ := Option.map_eq_some_iff.mp h
      cases he
      exact .inl ⟨.lockUnlock r' p' true true, rfl, ⟨rfl, rfl, rfl⟩, False.elim, rfl⟩
    next hu =>
      cases h
      exact .inl ⟨.lockUndo r' p' true, rfl, ⟨rfl, rfl, rfl⟩, fun _ => .inr (not_not.mp hu), rfl⟩
  | lockUndo r' p' nothrow =>
    obtain ⟨rfl, rfl, rfl⟩ := hi
    cases h
    exact .inl ⟨.lockUnlock r' p' true false, rfl, ⟨rfl, rfl, rfl⟩, fun _ => .inl trivial, rfl⟩
  | lockUnlock r' p' nothrow ok =>
    obtain ⟨rfl, rfl, rfl⟩ := hi
    cases h
    cases ok with
    | true => exact .inl ⟨.lockGet r' p', rfl, ⟨rfl, rfl⟩, False.elim, rfl⟩
    | false => exact .inr (.inl ⟨rfl, .inl trivial, rfl⟩)
  | lockGet r' p' =>
    obtain ⟨rfl, rfl⟩ := hi
    cases h
    exact .inr (.inr ⟨rfl, rfl, by simp [Thread.slot, Thread.put]⟩)
  | _ => exact hi.elim

end

/-! ## Where a conversion is -/

/-- The pointer is converted, to the right one if the block is not expired. -/
def Frame.Dropped (b : State ι) (f : Frame) : Prop :=
  ∃ v, f.stage = .dropping v ∧ (f.own = true → v = f.goal ∨ b.Expired)

/-- What holds while `lock()` runs, in a thread `th` with the pointers `m`. -/
inductive Frame.Locking (b : State ι) (th : Thread) (m : Ptrs) (f : Frame) : Prop
  /-- It has more to do; what it has to look at is as it was. -/
  | runs (i : Instr) (rest : List Instr) (htodo : th.todo = i :: rest) (hdepth : rest.length = f.depth)
    (hi : Instr.Locks f.r f.tmp i) (hgoal : (m .weak f.r).refers.map f.rel.address = f.goal)
    (hzero : Instr.SawZero i → b.Expired)
  /-- The temporary has a reference. -/
  | holds (htodo : th.todo.length = f.depth) (hslot : th.slot .shared f.tmp = some .self)
    (hptr : (m .shared f.tmp).ptr.map f.rel.address = f.goal)
  /-- It is empty. -/
  | empty (htodo : th.todo.length = f.depth) (hptr : (m .shared f.tmp).ptr = none) (hexp : f.own = true → b.Expired)

/-- Only the innermost conversion can be in `lock()`. -/
def FramesGood (b : State ι) (th : Thread) (m : Ptrs) : List Frame → Prop
  | [] => True
  | f :: fs => (f.Dropped b ∨ f.stage = .locking ∧ f.Locking b th m) ∧ ∀ g ∈ fs, g.Dropped b

section

variable {b b' : State ι} {th th' : Thread} {m m' : Ptrs} {f : Frame} {fs : List Frame}

omit [DecidableEq ι]

theorem Frame.Dropped.mono (h : f.Dropped b) (he : b.Expired → b'.Expired) : f.Dropped b' := by
  obtain ⟨v, hv, hgood⟩ := h
  exact ⟨v, hv, fun hown => (hgood hown).imp_right he⟩

theorem FramesGood.of_dropped (h : ∀ f ∈ fs, f.Dropped b) : FramesGood b th m fs := by
  cases fs with
  | nil => trivial
  | cons f fs => exact ⟨.inl (h f List.mem_cons_self), fun g hg => h g (List.mem_cons_of_mem f hg)⟩

/-- Another thread's step: the work of this one is as it was, and so are the handles of its conversions. -/
theorem FramesGood.mono (h : FramesGood b th m fs) (he : b.Expired → b'.Expired) (htodo : th'.todo = th.todo)
    (hsame : ∀ f ∈ fs, th'.slot .shared f.tmp = th.slot .shared f.tmp ∧ m' .weak f.r = m .weak f.r ∧
      m' .shared f.tmp = m .shared f.tmp) : FramesGood b' th' m' fs := by
  cases fs with
  | nil => trivial
  | cons f fs =>
    obtain ⟨hslot, hweak, hshared⟩ := hsame f List.mem_cons_self
    refine ⟨?_, fun g hg => (h.2 g hg).mono he⟩
    rcases h.1 with hd | ⟨hstage, hl⟩
    · exact .inl (hd.mono he)
    · refine .inr ⟨hstage, ?_⟩
      cases hl with
      | runs i rest htodo' hdepth hi hgoal hzero =>
        exact .runs i rest (htodo.trans htodo') hdepth hi (by rw [hweak, hgoal]) fun hz => he (hzero hz)
      | holds htodo' hslot' hptr =>
        exact .holds (by rw [htodo, htodo']) (hslot.trans hslot') (by rw [hshared, hptr])
      | empty htodo' hptr hexp =>
        exact .empty (by rw [htodo, htodo']) (by rw [hshared, hptr]) fun hown => he (hexp hown)

theorem Instr.Locks.not_canBegin {i : Instr} {rest : List Instr} {r p : Nat} (h : Instr.Locks r p i)
    (htodo : th.todo = i :: rest) : th.canBegin = false := by
  unfold Thread.canBegin
  rw [htodo]
  cases i <;> first | rfl | exact h.elim

/-- A thread that does not have to go on with a conversion, and begins something, is not in `lock()`. -/
theorem FramesGood.dropped (h : FramesGood b th m fs) (hready : ∀ f ∈ fs.head?, th.todo.length ≠ f.depth)
    (hcan : th.canBegin = true) : ∀ f ∈ fs, f.Dropped b := by
  cases fs with
  | nil => nofun
  | cons f fs =>
    have hf := hready f rfl
    rcases h.1 with hd | ⟨-, hl⟩
    · intro g hg
      rcases List.mem_cons.mp hg with rfl | hg
      · exact hd
      · exact h.2 g hg
    · cases hl with
      | runs i rest htodo _ hi =>
        rw [hi.not_canBegin htodo] at hcan
        cases hcan
      | holds htodo => exact (hf htodo).elim
      | empty htodo => exact (hf htodo).elim

end

/-- What a run keeps. -/
structure PtrInv (lp : LockPolicy) (s : PtrState ι) : Prop where
  base : Inv lp s.base
  stored : ∀ t, (s.stored t).Good s.base
  frames : ∀ t, FramesGood s.base (s.base.thr t) (s.stored t) (s.upcasts t)

theorem PtrInv.init (lp : LockPolicy) (t : ι) (q : Ptr) : PtrInv lp (PtrState.init t q) where
  base := .init lp t
  stored u k p := by
    simp only [PtrState.init]
    split <;> exact .inl rfl
  frames u := trivial

/-! ## Steps that are no conversion -/

omit [Fintype ι] in
theorem canBegin_of_step {s s' : State ι} {t : ι} {op : Op} (h : step lp s ⟨t, .begin op⟩ = some s') :
    (s.thr t).canBegin = true := by
  simp only [step, Option.ite_none_right_eq_some] at h
  exact h.1

omit [DecidableEq ι] [Fintype ι] in
theorem slot_put_ne (th : Thread) {n n' : Kind × Nat} (pi : Pi) (h : n ≠ n') :
    (th.put n'.1 n'.2 pi).slot n.1 n.2 = th.slot n.1 n.2 := by
  by_cases hk : n.1 = n'.1
  · have hp : n.2 ≠ n'.2 := fun hp => h (Prod.ext hk hp)
    simp [Thread.slot, Thread.put, hk, List.lookup_cons, beq_false_of_ne hp]
  · simp [Thread.slot, Thread.put, hk]

omit [DecidableEq ι] [Fintype ι] in
theorem Ptrs.put_ne (m : Ptrs) {n n' : Kind × Nat} (st : Stored) (h : n ≠ n') :
    m.put n'.1 n'.2 st n.1 n.2 = m n.1 n.2 :=
  if_neg fun he => h (Prod.ext he.1 he.2)

section

variable {s : PtrState ι} {b : State ι} {l : Label ι} {given : Option Ptr} {t u : ι}

omit [Fintype ι] in
theorem plainStored_run {spurious : Bool} {i : Instr} {rest : List Instr} (htodo : (s.base.thr t).todo = i :: rest) :
    s.plainStored lp ⟨t, .run spurious⟩ given =
      Function.update s.stored t ((s.stored t).exec s.base.block spurious i) := by
  simp only [PtrState.plainStored, htodo]

omit [Fintype ι] in
variable (given) in
/-- A step of another thread leaves the handles that are in use. -/
theorem plain_other (hu : u ≠ l.thread) (h : step lp s.base l = some b) (hadm : s.Admits l) {n : Kind × Nat}
    (hn : s.Uses u n) : (b.thr u).slot n.1 n.2 = (s.base.thr u).slot n.1 n.2 ∧
      s.plainStored lp l given u n.1 n.2 = s.stored u n.1 n.2 := by
  obtain ⟨t, act⟩ := l
  cases act with
  | begin op =>
    simp only [step, Option.ite_none_right_eq_some, Option.map_eq_some_iff] at h
    obtain ⟨-, x, -, rfl⟩ := h
    simp only [PtrState.plainStored]
    rw [s.base.set_thr_ne hu, Function.update_of_ne hu]
    exact ⟨rfl, rfl⟩
  | pass k p dest q =>
    simp only [step, Option.ite_none_right_eq_some, Option.bind_eq_bind, Option.bind_eq_some_iff,
      Option.some.injEq] at h
    obtain ⟨-, pi, -, rfl⟩ := h
    simp only [PtrState.plainStored]
    by_cases hd : u = dest
    · subst hd
      have hne : n ≠ (k, q) := by
        rintro rfl
        exact hadm hn
      rw [State.set_thr_self, s.base.set_thr_ne hu, Function.update_self]
      exact ⟨slot_put_ne _ pi hne, Ptrs.put_ne _ _ hne⟩
    · rw [State.set_thr_ne _ hd, s.base.set_thr_ne hu, Function.update_of_ne hd]
      exact ⟨rfl, rfl⟩
  | run spurious =>
    simp only [step] at h
    split at h
    next => cases h
    next i rest htodo =>
      obtain ⟨x, -, rfl⟩ := Option.map_eq_some_iff.mp h
      rw [plainStored_run htodo, s.base.set_thr_ne hu, Function.update_of_ne hu]
      exact ⟨rfl, rfl⟩

theorem plain_stored (hi : PtrInv lp s) (h : step lp s.base l = some b) (u : ι) :
    (s.plainStored lp l given u).Good b := by
  have hgood : ∀ u, (s.stored u).Good b := fun u => (hi.stored u).mono (expired_step hi.base h)
  obtain ⟨t, act⟩ := l
  cases act with
  | begin op =>
    simp only [PtrState.plainStored, Function.update_apply]
    split
    next => exact (hgood t).begin _ _ given op
    next => exact hgood u
  | pass k p dest q =>
    simp only [PtrState.plainStored, Function.update_apply]
    split
    next => exact (hgood dest).put (hgood t k p)
    next => exact hgood u
  | run spurious =>
    cases htodo : (s.base.thr t).todo with
    | nil => simp [step, htodo] at h
    | cons i rest =>
      rw [plainStored_run htodo, Function.update_apply]
      split
      next =>
        refine (hgood t).exec ?_
        rintro r p rfl
        exact lockGet_reads hi.base htodo
      next => exact hgood u

omit [DecidableEq ι] [Fintype ι] in
theorem uses_of_frame {f : Frame} (hf : f ∈ s.upcasts u) {n : Kind × Nat} (hn : n ∈ f.toConversion.names) : s.Uses u n :=
  .inr (.inr ⟨f, hf, hn⟩)

theorem plain_frames_other (hi : PtrInv lp s) (hu : u ≠ l.thread) (h : step lp s.base l = some b)
    (hadm : s.Admits l) : FramesGood b (b.thr u) (s.plainStored lp l given u) (s.upcasts u) := by
  refine (hi.frames u).mono (expired_step hi.base h) (todo_of_other (Ne.symm hu) h) ?_
  intro f hf
  have hr : s.Uses u (.weak, f.r) := uses_of_frame hf (by simp [Conversion.names])
  have htmp : s.Uses u (.shared, f.tmp) := uses_of_frame hf (by simp [Conversion.names])
  have hweak := plain_other given hu h hadm hr
  have hshared := plain_other given hu h hadm htmp
  exact ⟨hshared.1, hweak.2, hshared.2⟩

/-- An instruction of `lock()`. -/
theorem locking_run {f : Frame} {spurious : Bool} {i : Instr} {rest : List Instr} (hi : PtrInv lp s)
    (h : step lp s.base ⟨t, .run spurious⟩ = some b) (htodo : (s.base.thr t).todo = i :: rest)
    (hdepth : rest.length = f.depth) (hlocks : Instr.Locks f.r f.tmp i)
    (hgoal : (s.stored t .weak f.r).refers.map f.rel.address = f.goal) (hzero : Instr.SawZero i → s.base.Expired) :
    f.Locking b (b.thr t) (s.plainStored lp ⟨t, .run spurious⟩ given t) := by
  have hexp := expired_step hi.base h
  simp only [step, htodo, Option.map_eq_some_iff] at h
  obtain ⟨⟨blk, th'⟩, hx, rfl⟩ := h
  rw [plainStored_run htodo, Function.update_self, State.set_thr_self]
  rcases exec_lock_cases (m := s.stored t) hlocks hx with
    ⟨i', htodo', hlocks', hzero', hm⟩ | ⟨htodo', hzero', hm⟩ | ⟨rfl, htodo', hslot⟩
  · rw [hm]
    refine .runs i' rest htodo' hdepth hlocks' hgoal ?_
    intro hz
    exact hexp ((hzero' hz).elim hzero hi.base.expired)
  · rw [hm]
    refine .empty (by rw [htodo', hdepth]) (by simp [Ptrs.put, Stored.null]) ?_
    intro _
    exact hexp (hzero'.elim hzero hi.base.expired)
  · -- the pointer that is stored now is the right one: the reference keeps the block from expiry
    have hmem : Account.ref .shared ∈ s.base.accounts :=
      mem_accounts_of_thread (mem_of_todo htodo (by simp [Instr.accounts]))
    have hright := (hi.stored t .weak f.r).resolve_right (not_expired_of_mem hmem)
    refine .holds (by rw [htodo', hdepth]) hslot ?_
    simp only [Ptrs.exec, if_pos (lockGet_reads hi.base htodo)]
    simp [Ptrs.put, hright, hgoal]

/-- A thread's own step, in `lock()` or not. -/
theorem plain_frames_self (hi : PtrInv lp s) (h : step lp s.base l = some b) (hready : s.Ready l.thread) :
    FramesGood b (b.thr l.thread) (s.plainStored lp l given l.thread) (s.upcasts l.thread) := by
  have hexp := expired_step hi.base h
  have hgood := hi.frames l.thread
  cases hfs : s.upcasts l.thread with
  | nil => trivial
  | cons f fs =>
    rw [hfs] at hgood
    have hf : (s.base.thr l.thread).todo.length ≠ f.depth := hready f (by rw [hfs]; rfl)
    refine ⟨?_, fun g hg => (hgood.2 g hg).mono hexp⟩
    rcases hgood.1 with hd | ⟨hstage, hl⟩
    · exact .inl (hd.mono hexp)
    · refine .inr ⟨hstage, ?_⟩
      cases hl with
      | holds htodo => exact (hf htodo).elim
      | empty htodo => exact (hf htodo).elim
      | runs i rest htodo hdepth hlocks hgoal hzero =>
        have hcan := hlocks.not_canBegin htodo
        obtain ⟨t, act⟩ := l
        cases act with
        | begin op =>
          rw [canBegin_of_step h] at hcan
          cases hcan
        | pass k p dest q => simp [step, hcan] at h
        | run spurious => exact locking_run hi h htodo hdepth hlocks hgoal hzero

theorem PtrInv.plain (hi : PtrInv lp s) (h : step lp s.base l = some b) (hready : s.Ready l.thread)
    (hadm : s.Admits l) : PtrInv lp { s with base := b, stored := s.plainStored lp l given } where
  base := hi.base.step h
  stored := plain_stored hi h
  frames u := by
    by_cases hu : u = l.thread
    · subst hu
      exact plain_frames_self hi h hready
    · exact plain_frames_other hi hu h hadm

/-! ## The steps of a conversion -/

omit [Fintype ι] in
theorem thr_begin_ne {s s' : State ι} {op : Op} (h : step lp s ⟨t, .begin op⟩ = some s') (hu : u ≠ t) :
    s'.thr u = s.thr u := by
  simp only [step, Option.ite_none_right_eq_some, Option.map_eq_some_iff] at h
  obtain ⟨-, x, -, rfl⟩ := h
  exact s.set_thr_ne hu x

/-- A conversion makes thread `t` begin an operation; the other threads are as they were. -/
theorem PtrInv.of_begin (hi : PtrInv lp s) {op : Op} (h : step lp s.base ⟨t, .begin op⟩ = some b) {m : Ptrs}
    {fs : List Frame} (hm : m.Good b) (hfs : FramesGood b (b.thr t) m fs) :
    PtrInv lp ⟨b, Function.update s.stored t m, Function.update s.upcasts t fs⟩ where
  base := hi.base.step h
  stored u := by
    by_cases hu : u = t
    · subst hu
      simpa using hm
    · simpa [hu] using (hi.stored u).mono (expired_step hi.base h)
  frames u := by
    by_cases hu : u = t
    · subst hu
      simpa using hfs
    · simp only [Function.update_of_ne hu]
      refine (hi.frames u).mono (expired_step hi.base h) (by rw [thr_begin_ne h hu]) ?_
      intro f _
      exact ⟨by rw [thr_begin_ne h hu], rfl, rfl⟩

variable {s' : PtrState ι} {f : Frame} {rest : List Frame}

/-- The pointer that was converted is stored, and the reference taken. -/
theorem PtrInv.finish (hi : PtrInv lp s) {c : Conversion} {v goal : Ptr} {own : Bool}
    (h : s.finish lp t c v own goal rest = some s') (hv : own = true → v = goal ∨ s.base.Expired)
    (hrest : ∀ g ∈ rest, g.Dropped s.base) : PtrInv lp s' := by
  obtain ⟨b, hb, rfl⟩ := Option.map_eq_some_iff.mp h
  have hexp := expired_step hi.base hb
  have hm : (s.stored t).Good b := (hi.stored t).mono hexp
  have hst : Stored.Good b ⟨v, if own then goal else v⟩ := by
    cases own with
    | false => exact .inl rfl
    | true => exact (hv rfl).imp_right hexp
  refine hi.of_begin hb (.put ?_ hst) (.of_dropped fun g hg => (hrest g hg).mono hexp)
  split
  next => exact hm.put .null
  next => exact hm

theorem PtrInv.beginLock (hi : PtrInv lp s) {c : Conversion} {own : Bool}
    (h : s.beginLock lp t ⟨c, (s.base.thr t).todo.length, .locking, own,
      (s.stored t .weak c.r).refers.map c.rel.address⟩ = some s')
    (hown : own = true → (s.base.thr t).slot .weak c.r = some .self)
    (hrest : ∀ g ∈ s.upcasts t, g.Dropped s.base) : PtrInv lp s' := by
  obtain ⟨b, hb, rfl⟩ := Option.map_eq_some_iff.mp h
  have hexp := expired_step hi.base hb
  have hm : (s.stored t).Good b := (hi.stored t).mono hexp
  refine hi.of_begin hb (hm.begin _ _ none _) ⟨.inr ⟨rfl, ?_⟩, fun g hg => (hrest g hg).mono hexp⟩
  simp only [step, begin, Option.ite_none_right_eq_some, Option.map_eq_some_iff] at hb
  obtain ⟨-, ⟨blk, th'⟩, hx, rfl⟩ := hb
  rw [State.set_thr_self]
  simp only [Ptrs.begin]
  split at hx
  next => cases hx
  next hslot =>
    -- an empty handle, or another block's
    cases hx
    rw [hslot]
    refine .empty rfl (by simp [Ptrs.lockFails, Ptrs.put, Stored.null]) ?_
    intro ho
    rw [hown ho] at hslot
    cases hslot
  next hslot =>
    rw [hslot]
    rcases addRefLockNothrow_cases (m := s.stored t) hx with ⟨i, htodo, hlocks, hzero, hm⟩ | ⟨htodo, hu, hm⟩
    · dsimp only
      rw [hm]
      exact .runs i _ htodo rfl hlocks rfl fun hz => (hzero hz).elim
    · dsimp only
      rw [hm]
      refine .empty (by rw [htodo]; rfl) (by simp [Ptrs.put, Stored.null]) ?_
      intro _
      exact hexp (hi.base.expired hu)

omit [DecidableEq ι] [Fintype ι] in
/-- Where `lock()` is not needed the object is not read. -/
theorem reads_of_direct {rel : DerivedToBase} {hasTrait : Bool} (h : rel.direct hasTrait = true) : rel.reads = false := by
  cases rel with
  | virtualBase => cases h
  | _ => rfl

omit [DecidableEq ι] [Fintype ι] in
theorem cast_of_direct {rel : DerivedToBase} {hasTrait alive : Bool} (h : rel.direct hasTrait = true) :
    rel.cast alive = rel.address := by
  cases rel with
  | virtualBase => cases h
  | _ => rfl

/-- The temporary keeps the object while its pointer is converted. -/
theorem cast_eq_address (hi : PtrInv lp s) (hslot : (s.base.thr t).slot .shared f.tmp = some .self) (q : Nat) :
    f.rel.cast (s.base.block.disposeCalls = 0) q = f.rel.address q := by
  have hd := (hi.base.ledger.not_disposed (mem_accounts_of_thread (ref_mem_of_slot hslot))).1
  simp only [hd, decide_true]
  cases f.rel <;> rfl

theorem PtrInv.dropTmp (hi : PtrInv lp s) (h : s.dropTmp lp t f rest = some s')
    (hf : f.Locking s.base (s.base.thr t) (s.stored t)) (hdepth : (s.base.thr t).todo.length = f.depth)
    (hrest : ∀ g ∈ rest, g.Dropped s.base) : PtrInv lp s' := by
  obtain ⟨b, hb, rfl⟩ := Option.map_eq_some_iff.mp h
  have hexp := expired_step hi.base hb
  have hdropped : Frame.Dropped b { f with
      stage := .dropping ((s.stored t .shared f.tmp).ptr.map (f.rel.cast (s.base.block.disposeCalls = 0))) } := by
    refine ⟨_, rfl, ?_⟩
    intro hown
    cases hf with
    | runs i rest htodo hd =>
      rw [htodo, List.length_cons, hd] at hdepth
      omega
    | holds _ hslot hptr =>
      left
      rw [← hptr]
      exact congrArg (Option.map · _) (funext (cast_eq_address hi hslot))
    | empty _ hptr he => exact .inr (hexp (he hown))
  have hall := List.forall_mem_cons.mpr ⟨hdropped, fun g hg => (hrest g hg).mono hexp⟩
  have hinv := hi.of_begin hb ((hi.stored t).mono hexp) (.of_dropped hall)
  rwa [Function.update_eq_self] at hinv

/-! ## Runs -/

/-- **What a step keeps.** -/
theorem PtrInv.step {hasTrait : Bool} {l : PtrLabel ι} (hi : PtrInv lp s) (h : ptrStep lp hasTrait s l = some s') :
    PtrInv lp s' := by
  cases l with
  | plain l given =>
    simp only [ptrStep, Option.ite_none_right_eq_some, Option.map_eq_some_iff] at h
    obtain ⟨⟨hready, hadm⟩, b, hb, rfl⟩ := h
    exact hi.plain hb hready hadm
  | upcast t c =>
    simp only [ptrStep, Option.ite_none_right_eq_some] at h
    obtain ⟨⟨hready, -, -⟩, h⟩ := h
    split at h
    next hdirect =>
      have hcan : (s.base.thr t).canBegin = true := by
        obtain ⟨b, hb, -⟩ := Option.map_eq_some_iff.mp h
        exact canBegin_of_step hb
      refine hi.finish h ?_ ((hi.frames t).dropped hready hcan)
      intro _
      rw [cast_of_direct hdirect]
      exact (hi.stored t .weak c.r).imp_left (congrArg (Option.map c.rel.address))
    next =>
      split at h
      next => cases h
      next =>
        have hcan : (s.base.thr t).canBegin = true := by
          obtain ⟨b, hb, -⟩ := Option.map_eq_some_iff.mp h
          exact canBegin_of_step hb
        exact hi.beginLock h (fun ho => of_decide_eq_true ho) ((hi.frames t).dropped hready hcan)
  | advance t =>
    simp only [ptrStep] at h
    have hgood := hi.frames t
    split at h
    next => cases h
    next f rest hfs =>
      rw [hfs] at hgood
      simp only [Option.ite_none_right_eq_some] at h
      obtain ⟨hdepth, h⟩ := h
      split at h
      next hstage =>
        rcases hgood.1 with ⟨v, hv, -⟩ | ⟨-, hl⟩
        · rw [hstage] at hv
          cases hv
        · exact hi.dropTmp h hl hdepth hgood.2
      next v hstage =>
        rcases hgood.1 with ⟨v', hv, hright⟩ | ⟨hl, -⟩
        · rw [hstage] at hv
          cases hv
          exact hi.finish h hright hgood.2
        · rw [hstage] at hl
          cases hl

theorem PtrInv.run {hasTrait : Bool} {t₀ : ι} {q : Ptr} {ls : List (PtrLabel ι)}
    (h : run (ptrStep lp hasTrait) (PtrState.init t₀ q) ls = some s) : PtrInv lp s :=
  run_invariant (fun _ _ _ hi hstep => hi.step hstep) h (.init lp t₀ q)

omit [DecidableEq ι] in
/-- A conversion that reads an object through the temporary has a reference by it. -/
theorem Frame.Locking.slot_of_ptr {th : Thread} {m : Ptrs} (h : f.Locking b th m) (hdepth : th.todo.length = f.depth)
    (hptr : (m .shared f.tmp).ptr.isSome) : th.slot .shared f.tmp = some .self := by
  cases h with
  | runs i rest htodo hd =>
    rw [htodo, List.length_cons, hd] at hdepth
    omega
  | holds _ hslot => exact hslot
  | empty _ hnone =>
    rw [hnone] at hptr
    cases hptr

end

/-- The step reads the object to convert a pointer to it. -/
def PtrState.reads (s : PtrState ι) (hasTrait : Bool) : PtrLabel ι → Bool
  | .plain .. => false
  | .upcast t c => c.rel.direct hasTrait && c.rel.reads && (s.stored t .weak c.r).ptr.isSome
  | .advance t =>
    match s.upcasts t with
    | ⟨c, _, .locking, _, _⟩ :: _ => c.rel.reads && (s.stored t .shared c.tmp).ptr.isSome
    | _ => false

/-- The step with which a conversion of the weak handle `r` to the shared handle `p` is done and has succeeded:
`lock()` has stored the pointer, or `shared_ptr(weak_ptr)` has not thrown. -/
def gets (lp : LockPolicy) (s : State ι) (l : Label ι) : Option (Nat × Nat) :=
  match l.act with
  | .begin (.convert false r p) => if returns lp s l = some true then some (r, p) else none
  | .run _ =>
    match (s.thr l.thread).todo with
    | .lockGet r p :: _ => some (r, p)
    | .lockCas r p false _ :: _ | .lockUnlock r p false _ :: _ =>
      if returns lp s l = some true then some (r, p) else none
    | _ => none
  | _ => none

section

variable {s : PtrState ι} {b : State ι} {l : Label ι} {given : Option Ptr} {r p : Nat}

variable (given) in
/-- The new handle refers to what the weak one does, and the block is not expired. -/
theorem gets_spec (h : step lp s.base l = some b) (hg : gets lp s.base l = some (r, p)) :
    (s.plainStored lp l given l.thread .shared p).refers = (s.stored l.thread .weak r).refers ∧ ¬ b.Expired := by
  have hreturns (hr : returns lp s.base l = some true) : ¬ b.Expired := not_expired_of_mem (ref_mem_of_returns h hr)
  obtain ⟨t, act⟩ := l
  cases act with
  | pass => cases hg
  | begin op =>
    cases op with
    | convert nothrow r' p' =>
      cases nothrow with
      | true => cases hg
      | false =>
        simp only [gets, Option.ite_none_right_eq_some, Option.some.injEq, Prod.mk.injEq] at hg
        obtain ⟨hr, rfl, rfl⟩ := hg
        refine ⟨?_, hreturns hr⟩
        simp only [returns, Option.ite_none_right_eq_some] at hr
        obtain ⟨hslot, hr⟩ := hr
        cases lp with
        | single =>
          have hu : s.base.block.useCount ≠ 0 := by simpa using hr
          have hm : (s.stored t).addRefLockNothrow .single s.base.block r' p' false =
              (s.stored t).put .shared p' (s.stored t .weak r') := if_neg hu
          simp [PtrState.plainStored, Ptrs.begin, hslot, hm, Ptrs.put]
        | mutex => cases hr
        | atomic dw => simp at hr
    | _ => cases hg
  | run spurious =>
    cases htodo : (s.base.thr t).todo with
    | nil => simp [step, htodo] at h
    | cons i rest =>
      rw [plainStored_run htodo, Function.update_self]
      cases i with
      | lockGet r' p' =>
        simp only [gets, htodo, Option.some.injEq, Prod.mk.injEq] at hg
        obtain ⟨rfl, rfl⟩ := hg
        refine ⟨by simp [Ptrs.exec, Ptrs.put], ?_⟩
        simp only [step, htodo, Option.map_eq_some_iff] at h
        obtain ⟨x, hx, rfl⟩ := h
        cases hx
        refine not_expired_of_slot (t := t) (p := p') ?_
        rw [State.set_thr_self]
        simp [Thread.slot, Thread.put]
      | lockCas r' p' nothrow count =>
        cases nothrow with
        | true => simp [gets, htodo] at hg
        | false =>
          simp only [gets, htodo, Option.ite_none_right_eq_some, Option.some.injEq, Prod.mk.injEq] at hg
          obtain ⟨hr, rfl, rfl⟩ := hg
          refine ⟨?_, hreturns hr⟩
          have hc : s.base.block.useCount = count.val ∧ spurious = false := by
            by_contra hc
            simp [returns, htodo, hc] at hr
          simp [Ptrs.exec, hc, Ptrs.lockSucceeds, Ptrs.put]
      | lockUnlock r' p' nothrow ok =>
        cases nothrow with
        | true => simp [gets, htodo] at hg
        | false =>
          simp only [gets, htodo, Option.ite_none_right_eq_some, Option.some.injEq, Prod.mk.injEq] at hg
          obtain ⟨hr, rfl, rfl⟩ := hg
          refine ⟨?_, hreturns hr⟩
          have hok : ok = true := by simpa [returns, htodo] using hr
          simp [Ptrs.exec, hok, Ptrs.lockSucceeds, Ptrs.put]
      | _ => simp [gets, htodo] at hg

end

end SharedPtr.Upcast
