/-
No user code runs while an operation of an atomic pointer holds its lock:
whatever the objects are when it starts, nothing is released, destroyed or
deallocated between `lock` and `unlock` in what it appends to the log.

An automaton reads the log; each function is followed from "not held" to "not
held". Where a function moves pointers under the lock (`__x = std::move(*__p)`),
the temporary that is destroyed has what the target was, and the target is
empty: it is a new local, or was moved from.
-/
import SharedPtr.AtomicPtr
import SharedPtr.HandleLedger
import SharedPtr.Lib.Watch

namespace SharedPtr.Seq

open Lib (Prog Result run)
open Lib.Prog (Follows)

set_option linter.unusedSectionVars false

/-- While the lock is held, giving it up is all that happens. -/
def underLock (held : Bool) : Event → Option Bool
  | .lock => if held then none else some true
  | .unlock => if held then some false else none
  | _ => if held then none else some false

/-! ## What a release logs -/

def Event.isLocking : Event → Bool
  | .lock | .unlock => true
  | _ => false

theorem run_underLock {es : List Event} (h : ∀ e ∈ es, e.isLocking = false) :
    run underLock false es = some false := by
  induction es with
  | nil => rfl
  | cons e es ih =>
    have he : underLock false e = some false := by
      have := h e (List.mem_cons_self ..)
      cases e <;> first | rfl | cases this
    exact Lib.run_cons.mpr ⟨false, he, ih fun e he => h e (List.mem_cons_of_mem _ he)⟩

theorem Block.isLocking_release {m : Mode} {k : Kind} {blk : Block} {b : Nat} {e : Event}
    (h : e ∈ blk.release m k b) : e.isLocking = false := by
  rcases List.mem_cons.mp h with rfl | h
  · rfl
  · obtain ⟨c, -, h⟩ := List.mem_flatMap.mp h
    cases c with
    | dispose =>
      rcases List.mem_cons.mp h with rfl | h
      · rfl
      · have he := Managed.mem_dispose h
        cases e <;> first | rfl | cases he
    | destroy =>
      simp only [Block.call, List.mem_cons, List.not_mem_nil, or_false] at h
      rcases h with rfl | rfl <;> rfl

theorem dropCount_log (m : Mode) (k : Kind) (pi : CountPtr) (h : Heap) :
    ∃ new, (dropCount m k pi h).log = h.log ++ new ∧ run underLock false new = some false := by
  cases pi with
  | none => exact ⟨[], by simp [dropCount], rfl⟩
  | some b =>
    simp only [dropCount, release]
    split
    next => exact ⟨[], by simp, rfl⟩
    next blk _ => exact ⟨_, rfl, run_underLock fun e he => Block.isLocking_release he⟩

variable {V A : Type} [DecidableEq V] [DecidableEq A] {m : Mode} {k : Kind} {a : A} {x r : Ref V}

theorem destroyObject_log (m : Mode) (x : Ref V) (s : Mem V) :
    ∃ new, (destroyObject m x s).heap.log = s.heap.log ++ new ∧ run underLock false new = some false := by
  unfold destroyObject
  split
  next => exact ⟨[], by simp, rfl⟩
  next h _ => exact dropCount_log m h.kind h.pi s.heap

/-! ## Functions that log nothing -/

/-- The program throws nothing and logs nothing. -/
def Silent {α : Type} (c : Prog (Mem V) Exn α) : Prop :=
  ∀ s, (c s).2.heap.log = s.heap.log ∧ ∀ e, (c s).1 ≠ .throw e

theorem Silent.of_ok {α : Type} {c : Prog (Mem V) Exn α} {v : α} (h : ∀ s, c s = (.ok v, s)) : Silent c := by
  intro s
  rw [h s]
  exact ⟨rfl, fun e he => by cases he⟩

theorem Silent.bind {α β : Type} {c : Prog (Mem V) Exn α} {f : α → Prog (Mem V) Exn β} (hc : Silent c)
    (hf : ∀ v, Silent (f v)) : Silent (c >>= f) := by
  intro s
  have h := hc s
  rw [Prog.bind_apply]
  split
  next v s' he =>
    rw [he] at h
    exact ⟨(hf v s').1.trans h.1, (hf v s').2⟩
  next e s' he =>
    rw [he] at h
    exact absurd rfl (h.2 e)
  next s' he =>
    rw [he] at h
    exact ⟨h.1, nofun⟩

theorem get_silent : Silent (get k x : Prog (Mem V) Exn Handle) := by
  intro s
  rcases get_cases k x s with he | ⟨h, -, -, he⟩
  · exact ⟨by rw [he], by rw [he]; exact nofun⟩
  · exact ⟨by rw [he], by rw [he]; exact nofun⟩

theorem put_silent {h : Handle} : Silent (put x h : Prog (Mem V) Exn Unit) := fun _ => ⟨rfl, nofun⟩

theorem create_silent {h : Handle} : Silent (create x h : Prog (Mem V) Exn Unit) := by
  intro s
  rcases create_cases x h s with he | ⟨-, he⟩
  · exact ⟨by rw [he], by rw [he]; exact nofun⟩
  · exact ⟨by rw [he]; rfl, by rw [he]; exact nofun⟩

theorem addRef_silent {b : Nat} : Silent (onHeap (addRef m k b) : Prog (Mem V) Exn Unit) := by
  intro s
  unfold onHeap addRef
  dsimp only
  split
  next => exact ⟨rfl, nofun⟩
  next blk _ =>
    split
    next => exact ⟨rfl, nofun⟩
    next => exact ⟨rfl, nofun⟩

/-- The heap part of a program, statement by statement. -/
theorem onHeap_bind {α β : Type} (c : Prog Heap Exn α) (f : α → Prog Heap Exn β) :
    (onHeap (c >>= f) : Prog (Mem V) Exn β) = onHeap c >>= fun v => onHeap (f v) := by
  funext s
  simp only [onHeap, Prog.bind_apply]
  cases hc : c s.heap with
  | mk r h => cases r <;> rfl

theorem copyCount_silent {pi : CountPtr} : Silent (onHeap (copyCount m k pi) : Prog (Mem V) Exn CountPtr) := by
  cases pi with
  | none => exact .of_ok fun _ => rfl
  | some b =>
    rw [copyCount, onHeap_bind]
    exact addRef_silent.bind fun _ => .of_ok fun _ => rfl

theorem defaultCtor_silent : Silent (defaultCtor k x : Prog (Mem V) Exn Unit) := create_silent

theorem copyCtor_silent {kr : Kind} : Silent (copyCtor m k x kr r : Prog (Mem V) Exn Unit) :=
  get_silent.bind fun _ => copyCount_silent.bind fun _ => create_silent

theorem moveCtor_silent : Silent (moveCtor k x r : Prog (Mem V) Exn Unit) :=
  get_silent.bind fun _ => create_silent.bind fun _ => put_silent

theorem swap_silent : Silent (swap k x r : Prog (Mem V) Exn Unit) :=
  get_silent.bind fun _ => get_silent.bind fun _ => put_silent.bind fun _ => put_silent

/-! ## Moves under the lock -/

/-- Where `x` is, it refers to no control block. -/
def Mem.Vacant (s : Mem V) (x : Ref V) : Prop := ∀ h, s.obj x = some h → h.pi = none

/-- The temporary of a move assignment ends with what the target was. -/
theorem moveAssign_vacant {s : Mem V} (hx : s.Vacant x) (hxt : x ≠ .inr .tmp) (hrt : r ≠ .inr .tmp) :
    (moveAssign m k x r s).1 = .stop ∧ (moveAssign m k x r s).2.heap.log = s.heap.log ∨
      ∃ s', moveAssign m k x r s = (.ok (), s') ∧ s'.heap.log = s.heap.log ∧ (r ≠ x → s'.Vacant r) := by
  refine ifConstexpr_elim (P := fun c => (c s).1 = .stop ∧ (c s).2.heap.log = s.heap.log ∨
    ∃ s', c s = (.ok (), s') ∧ s'.heap.log = s.heap.log ∧ (r ≠ x → s'.Vacant r)) (.inl ⟨rfl, rfl⟩) ?_
  rcases get_cases k r s with hg | ⟨h, hr, hk, hg⟩
  · simp [swapTemporary, moveCtor, Prog.bind_apply, hg]
  rcases create_cases (.inr .tmp) h s with hc | ⟨ht, hc⟩
  · simp [swapTemporary, moveCtor, Prog.bind_apply, hg, hc]
  set s₂ := (s.set (.inr .tmp) (some h)).set r (some ⟨k, none, none⟩) with hs₂
  have htmp : s₂.obj (.inr .tmp) = some h := by
    rw [hs₂, Mem.set_obj_of_ne _ (Ne.symm hrt), Mem.set_obj]
  have hvac : s₂.Vacant x := by
    intro h' hh'
    by_cases hxr : x = r
    · rw [hs₂, hxr, Mem.set_obj] at hh'
      cases hh'
      rfl
    · rw [hs₂, Mem.set_obj_of_ne _ hxr, Mem.set_obj_of_ne _ hxt] at hh'
      exact hx h' hh'
  have hget : get k (.inr .tmp) s₂ = (.ok h, s₂) := by simp [get, htmp, hk]
  rcases get_cases k x s₂ with hg' | ⟨h', hx', -, hg'⟩
  · simp [swapTemporary, moveCtor, Prog.bind_apply, hg, hc, put, ← hs₂, Prog.atExit, swap, hget, hg']
    rfl
  refine .inr ⟨(((s₂.set (.inr .tmp) (some h')).set x (some h)).set (.inr .tmp) none), ?_, rfl, fun hrx h'' hh'' => ?_⟩
  · have hdrop : destroyObject m (.inr .tmp) ((s₂.set (.inr .tmp) (some h')).set x (some h)) =
        ((s₂.set (.inr .tmp) (some h')).set x (some h)).set (.inr .tmp) none := by
      have ho : ((s₂.set (.inr .tmp) (some h')).set x (some h)).obj (.inr .tmp) = some h' := by
        rw [Mem.set_obj_of_ne _ (Ne.symm hxt), Mem.set_obj]
      simp only [destroyObject, ho, hvac h' hx', dropCount]
      rfl
    simp [swapTemporary, moveCtor, Prog.bind_apply, hg, hc, put, ← hs₂, Prog.atExit, swap, hget, hg', hdrop]
  · rw [Mem.set_obj_of_ne _ hrt, Mem.set_obj_of_ne _ hrx, Mem.set_obj_of_ne _ hrt, hs₂, Mem.set_obj] at hh''
    cases hh''
    rfl

/-- A copy assignment to a vacant pointer releases nothing. -/
theorem copyAssign_vacant {s : Mem V} (hx : s.Vacant x) :
    (copyAssign m .shared x .shared r s).2.heap.log = s.heap.log ∧
      ∀ e, (copyAssign m .shared x .shared r s).1 ≠ .throw e := by
  rcases get_cases .shared r s with hg | ⟨h, -, -, hg⟩
  · simp [copyAssign, Prog.bind_apply, hg]
  rcases get_cases .shared x s with hg' | ⟨t, ht, -, hg'⟩
  · simp [copyAssign, Prog.bind_apply, hg, hg']
  have hassign : ∀ pi, Silent (onHeap (assignCount m .shared none pi) : Prog (Mem V) Exn CountPtr) := by
    intro pi
    unfold assignCount replaceCount
    dsimp only
    split
    next =>
      rw [onHeap_bind]
      exact copyCount_silent.bind fun _ => .of_ok fun _ => rfl
    next => exact .of_ok fun _ => rfl
  have hrest : Silent (do
      put x { t with ptr := h.ptr }
      let h ← get .shared r
      let pi ← onHeap (assignCount m .shared none h.pi)
      put x ⟨.shared, h.ptr, pi⟩ : Prog (Mem V) Exn Unit) :=
    put_silent.bind fun _ => get_silent.bind fun h => (hassign h.pi).bind fun _ => put_silent
  have he : copyAssign m .shared x .shared r s = (do
      put x { t with ptr := h.ptr }
      let h ← get .shared r
      let pi ← onHeap (assignCount m .shared none h.pi)
      put x ⟨.shared, h.ptr, pi⟩ : Prog (Mem V) Exn Unit) s := by
    rw [← hx t ht]
    simp only [copyAssign, Prog.bind_apply, hg, hg']
  rw [he]
  exact hrest s

/-! ## Operations, followed by the automaton -/

/-- The log of the program. -/
def World.log (w : World V A) : List Event := w.mem.heap.log

/-- The lock is held, or not. -/
def Holds (held : Bool) : Bool → World V A → Prop := fun q _ => q = held

/-- The program takes the lock from `b` to `b'`. -/
abbrev Takes {α : Type} (b b' : Bool) (c : Prog (World V A) Exn α) : Prop :=
  Follows World.log underLock (Holds b) c fun _ => Holds b'

theorem Silent.takes {α : Type} {c : Prog (Mem V) Exn α} (hc : Silent c) (b : Bool) :
    Takes b b (onMem c : Prog (World V A) Exn α) := by
  refine .silent ?_
  intro q w hq
  obtain ⟨hlog, hthrow⟩ := hc w.mem
  unfold onMem
  cases hr : c w.mem with
  | mk res s =>
    rw [hr] at hlog hthrow
    cases res with
    | ok v => exact .inr ⟨v, _, rfl, hlog, hq⟩
    | throw e => exact absurd rfl (hthrow e)
    | stop => exact .inl ⟨rfl, hlog⟩

theorem emit_takes {b : Bool} (c : Bool) {e : Event} (h : underLock b e = some c) :
    Takes b c (Prog.modify (World.emit [e]) : Prog (World V A) Exn Unit) :=
  .modify fun q w hq => ⟨[e], c, rfl, by rw [hq, Lib.run_cons]; exact ⟨c, h, rfl⟩, rfl⟩

theorem destroyObject_takes :
    Takes false false (Prog.modify fun w => { w with mem := destroyObject m x w.mem } : Prog (World V A) Exn Unit) :=
  .modify fun q w hq => by
    obtain ⟨new, hlog, hrun⟩ := destroyObject_log m x w.mem
    exact ⟨new, false, hlog, by rw [hq]; exact hrun, rfl⟩

theorem getAtomic_takes {b : Bool} : Takes b b (getAtomic k a : Prog (World V A) Exn SpAtomic) := by
  refine .silent ?_
  intro q w hq
  unfold getAtomic
  split
  next => exact .inl ⟨rfl, rfl⟩
  next o _ =>
    split
    next => exact .inr ⟨o, w, rfl, rfl, hq⟩
    next => exact .inl ⟨rfl, rfl⟩

theorem putAtomic_takes {b : Bool} {o : SpAtomic} : Takes b b (putAtomic a o : Prog (World V A) Exn Unit) :=
  .silent fun _ _ hq => .inr ⟨(), _, rfl, rfl, hq⟩

theorem createAtomic_takes {b : Bool} {o : SpAtomic} : Takes b b (createAtomic a o : Prog (World V A) Exn Unit) := by
  refine .silent ?_
  intro q w hq
  unfold createAtomic
  split
  next => exact .inr ⟨(), _, rfl, rfl, hq⟩
  next => exact .inl ⟨rfl, rfl⟩

theorem ofOption_takes {α : Type} {b : Bool} {o : Option α} : Takes b b (Prog.ofOption o : Prog (World V A) Exn α) := by
  cases o with
  | none => exact .stop
  | some v => exact .silent fun q w hq => .inr ⟨v, w, rfl, rfl, hq⟩

theorem pure_takes {α : Type} {b : Bool} (v : α) : Takes b b (pure v : Prog (World V A) Exn α) :=
  .silent fun _ w hq => .inr ⟨v, w, rfl, rfl, hq⟩

theorem lock_takes : Takes false true (lock m k a : Prog (World V A) Exn CountPtr) := by
  refine getAtomic_takes.bind ?_
  intro o
  cases m with
  | constEval => exact ofOption_takes.bind fun _ => (emit_takes _ rfl).bind fun _ => pure_takes _
  | runTime =>
    dsimp only
    split
    next => exact .stop
    next =>
      split
      next => exact putAtomic_takes.bind fun _ => (emit_takes _ rfl).bind fun _ => ofOption_takes
      next => exact .stop

theorem unlock_takes : Takes true false (unlock m k a : Prog (World V A) Exn Unit) := by
  cases m with
  | constEval => exact emit_takes _ rfl
  | runTime =>
    refine getAtomic_takes.bind ?_
    intro o
    dsimp only
    split
    next => exact putAtomic_takes.bind fun _ => emit_takes _ rfl
    next => exact .stop

theorem swapUnlock_takes {pi : CountPtr} : Takes true false (swapUnlock m k a pi : Prog (World V A) Exn CountPtr) := by
  refine getAtomic_takes.bind fun o => putAtomic_takes.bind fun _ => (emit_takes false rfl).bind ?_
  intro _
  cases m with
  | constEval => exact ofOption_takes
  | runTime => exact ofOption_takes

theorem waitUnlock_takes {wakes : Bool} : Takes true false (waitUnlock m k a wakes : Prog (World V A) Exn Unit) := by
  cases m with
  | constEval => exact .stop
  | runTime =>
    refine unlock_takes.bind ?_
    intro _
    split
    next => exact pure_takes ()
    next => exact .stop

namespace SpAtomic

theorem load_takes : Takes false false (load m k a x : Prog (World V A) Exn Unit) :=
  (defaultCtor_silent.takes false).bind fun _ => lock_takes.bind fun _ => getAtomic_takes.bind fun _ =>
    (put_silent.takes true).bind fun _ => (copyCount_silent.takes true).bind fun _ =>
      (put_silent.takes true).bind fun _ => unlock_takes

theorem swap_takes : Takes false false (swap m k a x : Prog (World V A) Exn Unit) :=
  lock_takes.bind fun _ => getAtomic_takes.bind fun _ => (get_silent.takes true).bind fun _ =>
    putAtomic_takes.bind fun _ => (put_silent.takes true).bind fun _ =>
      swapUnlock_takes.bind fun _ => put_silent.takes false

theorem compareExchangeStrong_takes {e d : Ref V} :
    Takes false false (compareExchangeStrong m k a e d : Prog (World V A) Exn Bool) := by
  refine lock_takes.bind fun pi => getAtomic_takes.bind fun o => (get_silent.takes true).bind ?_
  intro he
  split
  next =>
    exact (get_silent.takes true).bind fun _ => putAtomic_takes.bind fun _ => swapUnlock_takes.bind fun _ =>
      (put_silent.takes false).bind fun _ => pure_takes true
  next =>
    -- `__sink` is destroyed after `unlock`
    refine (moveCtor_silent.takes true).bind fun _ => Follows.atExit (Q := fun _ => Holds false) ?_
      fun _ => destroyObject_takes
    exact (put_silent.takes true).bind fun _ => (copyCount_silent.takes true).bind fun _ =>
      (put_silent.takes true).bind fun _ => unlock_takes.bind fun _ => pure_takes false

theorem wait_takes {wakes : Bool} : Takes false false (wait m k a x wakes : Prog (World V A) Exn Unit) := by
  refine lock_takes.bind fun pi => getAtomic_takes.bind fun o => (get_silent.takes true).bind ?_
  intro h
  split
  next => exact waitUnlock_takes
  next => exact unlock_takes

theorem ctor_takes : Takes false false (ctor k a x : Prog (World V A) Exn Unit) :=
  (get_silent.takes false).bind fun _ => createAtomic_takes.bind fun _ => put_silent.takes false

theorem dtor_takes : Takes false false (dtor m k a : Prog (World V A) Exn Unit) := by
  have hdrop : ∀ pi, Takes false false (onMem (onHeap (Prog.modify (dropCount m k pi))) : Prog (World V A) Exn Unit) := by
    intro pi q w hq
    obtain ⟨new, hlog, hrun⟩ := dropCount_log m k pi w.mem.heap
    exact ⟨new, false, hlog, by rw [hq]; exact hrun, rfl⟩
  exact (getAtomic_takes.bind fun o => ofOption_takes.bind fun pi => hdrop pi).bind fun _ =>
    .silent fun _ _ hq => .inr ⟨(), _, rfl, rfl, hq⟩

end SpAtomic

/-! ## The free functions -/

/-- A body that logs nothing, whatever the pointers are. -/
theorem locker_takes {α : Type} {body : Prog (Mem V) Exn α} (hbody : Silent body) :
    Takes false false (locker body : Prog (World V A) Exn α) :=
  (emit_takes true rfl).bind fun _ => Follows.atExit (Q := fun _ => Holds true) (hbody.takes true)
    fun _ => emit_takes _ rfl

theorem atomicLoad_takes : Takes false false (atomicLoad m x r : Prog (World V A) Exn Unit) :=
  locker_takes copyCtor_silent

theorem atomicStore_takes : Takes false false (atomicStore x r : Prog (World V A) Exn Unit) :=
  locker_takes swap_silent

theorem atomicExchange_takes {ret : Ref V} : Takes false false (atomicExchange x ret r : Prog (World V A) Exn Unit) :=
  locker_takes (swap_silent.bind fun _ => moveCtor_silent)

/-- The lock is held and `x` is vacant. -/
def Emptied (x : Ref V) : Bool → World V A → Prop := fun q w => q = true ∧ w.mem.Vacant x

/-- A move assignment to a vacant pointer, under the lock, leaves the other one vacant. -/
theorem moveAssign_takes (hxt : x ≠ .inr .tmp) (hrt : r ≠ .inr .tmp) (hrx : r ≠ x) :
    Follows World.log underLock (Emptied x) (onMem (moveAssign m k x r) : Prog (World V A) Exn Unit)
      fun _ => Emptied r := by
  refine .silent ?_
  intro q w hq
  unfold onMem
  obtain ⟨hr, hlog⟩ | ⟨s', he, hlog, hvac⟩ := moveAssign_vacant (m := m) (k := k) hq.2 hxt hrt
  · exact .inl ⟨hr, hlog⟩
  · rw [he]
    exact .inr ⟨(), _, rfl, hlog, hq.1, hvac hrx⟩

theorem copyAssign_takes :
    Follows World.log underLock (Emptied x) (onMem (copyAssign m .shared x .shared r) : Prog (World V A) Exn Unit)
      fun _ => Holds true := by
  refine .silent ?_
  intro q w hq
  obtain ⟨hlog, hthrow⟩ := copyAssign_vacant (m := m) (r := r) hq.2
  unfold onMem
  cases hr : copyAssign m .shared x .shared r w.mem with
  | mk res s =>
    rw [hr] at hlog hthrow
    cases res with
    | ok v => exact .inr ⟨v, _, rfl, hlog, hq.1⟩
    | throw e => exact absurd rfl (hthrow e)
    | stop => exact .inl ⟨rfl, hlog⟩

theorem equivalent_takes {p v : Ref V} :
    Follows World.log underLock (Emptied x) (onMem (equivalent p v) : Prog (World V A) Exn Bool)
      fun _ => Emptied x := by
  refine .silent ?_
  intro q w hq
  unfold onMem equivalent
  rcases get_cases .shared p w.mem with he | ⟨hp, -, -, he⟩
  · exact .inl (by simp [Prog.bind_apply, he])
  rcases get_cases .shared v w.mem with he' | ⟨hv, -, -, he'⟩
  · exact .inl (by simp [Prog.bind_apply, he, he'])
  · simp only [Prog.bind_apply, he, he', Prog.read_apply]
    exact .inr ⟨_, w, rfl, rfl, hq⟩

theorem onMem_bind {α β : Type} (c : Prog (Mem V) Exn α) (f : α → Prog (Mem V) Exn β) :
    (onMem (c >>= f) : Prog (World V A) Exn β) = onMem c >>= fun v => onMem (f v) := by
  funext w
  simp only [onMem, Prog.bind_apply]
  cases hc : c w.mem with
  | mk r s => cases r <;> rfl

/-- Under the lock first `__x` is vacant, then what was moved into it. -/
theorem atomicCompareExchangeStrong_takes {p v : V} :
    Takes false false (atomicCompareExchangeStrong m (.inl p) (.inl v) (.inr .param) : Prog (World V A) Exn Bool) := by
  have hx : ∀ y : V, Follows World.log underLock (Emptied (.inr .x))
      (onMem (moveAssign m .shared (.inr .x) (.inl y)) : Prog (World V A) Exn Unit) fun _ => Emptied (.inl y) :=
    fun y => moveAssign_takes (by simp) (by simp) (by simp)
  have hw : Follows World.log underLock (Emptied (.inl p))
      (onMem (moveAssign m .shared (.inl p) (.inr .param)) : Prog (World V A) Exn Unit) fun _ => Holds true :=
    (moveAssign_takes (by simp) (by simp) (by simp)).weaken (fun _ _ h => h) fun _ _ _ h => h.1
  have hmake : Follows World.log underLock (Holds false)
      (onMem (defaultCtor .shared (.inr .x)) : Prog (World V A) Exn Unit)
      fun _ q w => q = false ∧ w.mem.Vacant (.inr .x) := by
    refine .silent ?_
    intro q w hq
    unfold onMem defaultCtor
    rcases create_cases (.inr .x) ⟨.shared, none, none⟩ w.mem with he | ⟨-, he⟩
    · exact .inl (by simp [he])
    · rw [he]
      refine .inr ⟨(), _, rfl, rfl, hq, ?_⟩
      intro h hh
      rw [Mem.set_obj] at hh
      cases hh
      rfl
  have hlock : Follows World.log underLock (fun q w => q = false ∧ w.mem.Vacant (.inr .x))
      (Prog.modify (World.emit [.lock]) : Prog (World V A) Exn Unit) fun _ => Emptied (.inr .x) :=
    .modify fun q w hq => ⟨[.lock], true, rfl, by rw [hq.1]; rfl, rfl, hq.2⟩
  refine hmake.bind fun _ => Follows.atExit (Q := fun _ => Holds false) ?_ fun _ => destroyObject_takes
  refine hlock.bind fun _ => Follows.atExit (Q := fun _ => Holds true) ?_ fun _ => emit_takes _ rfl
  rw [onMem_bind]
  refine equivalent_takes.bind ?_
  intro same
  cases same with
  | true =>
    simp only [if_true, onMem_bind]
    exact (hx p).bind fun _ => hw.bind fun _ => pure_takes true
  | false =>
    simp only [Bool.false_eq_true, if_false, onMem_bind]
    exact (hx v).bind fun _ => copyAssign_takes.bind fun _ => pure_takes false

/-! ## Calls -/

theorem pass_silent {l : Local} {arg : Arg V} : Silent (arg.pass m k l) := by
  cases arg with
  | copy r => exact copyCtor_silent
  | move r => exact moveCtor_silent
  | null => exact defaultCtor_silent
  | ofShared r => exact copyCtor_silent

theorem withParam_takes {α : Type} {l : Local} {make : Prog (Mem V) Exn Unit} {body : Prog (World V A) Exn α}
    (hmake : Silent make) (hbody : Takes false false body) : Takes false false (withParam m l make body) :=
  (hmake.takes false).bind fun _ => Follows.atExit (Q := fun _ => Holds false) hbody fun _ => destroyObject_takes

theorem passing_takes {α : Type} {direct : Bool} {l : Local} {arg : Arg V} {body : Prog (World V A) Exn α}
    (hbody : Takes false false body) : Takes false false (passing m direct l k arg body) := by
  unfold passing
  split
  next => exact withParam_takes pass_silent hbody
  next => exact withParam_takes pass_silent (withParam_takes moveCtor_silent hbody)

theorem call_takes (op : AtomicOp V A) : Takes false false (op.call m) := by
  have hnone : ∀ {c : Prog (World V A) Exn Unit}, Takes false false c →
      Takes false false (c >>= fun _ => (pure none : Prog (World V A) Exn (Option Bool))) :=
    fun hc => hc.bind fun _ => pure_takes none
  cases op with
  | default k a => exact hnone createAtomic_takes
  | construct k a arg => exact hnone (passing_takes SpAtomic.ctor_takes)
  | destroy k a => exact hnone SpAtomic.dtor_takes
  | load k a ret | convert k a ret => exact hnone SpAtomic.load_takes
  | store k a desired | assign k a desired => exact hnone (passing_takes SpAtomic.swap_takes)
  | exchange k a ret desired =>
    exact hnone (passing_takes (SpAtomic.swap_takes.bind fun _ => moveCtor_silent.takes false))
  | compareExchangeStrong direct k a expected desired =>
    exact (passing_takes (withParam_takes copyCtor_silent SpAtomic.compareExchangeStrong_takes)).bind
      fun r => pure_takes (some r)
  | wait k a old wakes => exact hnone (passing_takes SpAtomic.wait_takes)
  | atomicLoad p ret => exact hnone atomicLoad_takes
  | atomicStore direct p r => exact hnone (passing_takes atomicStore_takes)
  | atomicExchange direct p ret r => exact hnone (passing_takes atomicExchange_takes)
  | atomicCompareExchangeStrong direct p v w =>
    exact (passing_takes atomicCompareExchangeStrong_takes).bind fun r => pure_takes (some r)

theorem exec_takes (op : AtomicOp V A) : Takes false false (op.exec m) :=
  ifConstexpr_elim .stop (call_takes op)

/-- **Nothing is released under the lock**: what any operation logs, from any
state of the program, is read by the automaton, also when the operation traps
on the way; and an operation that returns has given the lock up. -/
theorem nothing_released_under_lock (m : Mode) (op : AtomicOp V A) (w : World V A) :
    ∃ new held, (op.exec m w).2.mem.heap.log = w.mem.heap.log ++ new ∧ run underLock false new = some held ∧
      ((op.exec m w).1 ≠ .stop → held = false) := by
  obtain ⟨new, held, hlog, hrun, hres⟩ := exec_takes (m := m) op false w rfl
  refine ⟨new, held, hlog, hrun, ?_⟩
  intro hstop
  cases hr : (op.exec m w).1 with
  | ok r =>
    rw [hr] at hres
    exact hres
  | throw e =>
    rw [hr] at hres
    exact hres.elim
  | stop => exact absurd hr hstop

/-- A store over the last owner: the object goes when the lock is given up. -/
example :
    let c : Chunk := ⟨.new, .controlBlock, some 0, 1⟩
    let s : Mem (Fin 1) := ⟨(Heap.empty.construct (.countedPtr (some 8)) c).2, fun _ => none⟩
    let w : World (Fin 1) (Fin 1) := ⟨s.set (.inl 0) (some ⟨.shared, some 8, some 0⟩), fun _ => none⟩
    ((AtomicOp.atomicStore true 0 .null).exec .defaultPolicy w).2.mem.heap.log =
      [.lock, .unlock, .release .shared 0, .dispose 0, .deleter .delete (some 8), .destroy 0, .deallocate c] := by
  decide

end SharedPtr.Seq
