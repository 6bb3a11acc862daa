/-
`_Sp_atomic` (`bits/shared_ptr_atomic.h`), the run-time branch of the code for
C++26: `atomic<shared_ptr<T>>` and `atomic<weak_ptr<T>>`.

The object is the stored pointer `_M_ptr` and the word `_M_val`, the address
of the control block with the lock in its lowest bit. Every load,
compare-exchange and exchange on `_M_val` is a step, so is every read or
write of `_M_ptr` and every count of a reference. An operation's place and
local variables are its `Pc`; what its parameters and locals still own when it
is done is released one by one (`finish`), after the lock is given up.

Counts are kept for all blocks (`refs`): references of the kind the object
stores, use counts or weak counts. `pair` is for the statements only: the
pair the object means, replaced by the exchange that publishes a new one. No
step reads it.
-/
import SharedPtr.Lib.Run
import Mathlib.Data.Multiset.AddSub

namespace SharedPtr.Atomic

/-- `uintptr_t`. -/
abbrev Word := BitVec 64

/-- `_S_lock_bit`. -/
def lockBit : Word := 1

/-- A control block's address, or null: the lowest bit is clear
(`alignof(_Sp_counted_base) > 1`). -/
def BlockPtr := { w : Word // w &&& lockBit = 0 }
  deriving DecidableEq

namespace BlockPtr

def null : BlockPtr := ⟨0, by decide⟩

/-- `p | _S_lock_bit`. -/
def withBit (p : BlockPtr) : Word := p.val ||| lockBit

end BlockPtr

/-- `w & ~_S_lock_bit`. -/
def clear (w : Word) : BlockPtr := ⟨w &&& ~~~lockBit, by rw [BitVec.and_assoc]; simp [lockBit]⟩

/-- A `shared_ptr` or `weak_ptr`: stored pointer and control block. -/
structure Value where
  ptr : Word
  pi : BlockPtr
  deriving DecidableEq

inductive Op
  | load
  /-- `store` is `swap` with the parameter, which is then destroyed. -/
  | store (desired : Value)
  /-- `exchange` is `swap` with the parameter, which is then returned. -/
  | exchange (desired : Value)
  | compareExchangeStrong (expected desired : Value)
  | wait (old : Value)
  deriving DecidableEq

/-- What an operation answers; a compare-exchange leaves its answer in `expected`. -/
inductive Res
  | loaded (v : Value)
  | stored
  | exchanged (v : Value)
  | succeeded (expected : Value)
  | failed (expected : Value)
  | waited
  deriving DecidableEq

/-- The values an operation is given. -/
def Op.args : Op → List Value
  | .load => []
  | .store d | .exchange d => [d]
  | .compareExchangeStrong e d => [e, d]
  | .wait old => [old]

/-- The values it leaves with the caller. -/
def Res.values : Res → List Value
  | .loaded v | .exchanged v | .succeeded v | .failed v => [v]
  | .stored | .waited => []

/-- What follows `unlock`. -/
inductive After
  | finish (res : Res) (dying : List Value)
  /-- `_M_val.wait(v)`. -/
  | wait (old : Value) (v : BlockPtr)
  deriving DecidableEq

/-- Where a thread is, with the local variables of the operation. -/
inductive Pc
  | idle
  /-- `lock`: the loop of loads. -/
  | spin (op : Op)
  /-- `lock`: the compare-exchange. -/
  | lockCas (op : Op) (current : BlockPtr)
  /-- `lock` has returned `pi`; `_M_ptr` is read next. -/
  | locked (op : Op) (pi : BlockPtr)
  /-- `load`: `_S_add_ref`. -/
  | loadRef (ret : Value)
  /-- `swap`: `_M_ptr = __r._M_ptr`, after `__tmp = _M_ptr`; the operation is `exchange` or `store`. -/
  | swapWrite (isExchange : Bool) (desired : Value) (tmp : Word)
  /-- `swap`: the exchange of `_M_swap_unlock`. -/
  | swapPublish (isExchange : Bool) (desired : Value) (tmp : Word)
  /-- `compare_exchange_strong`: `_M_ptr = __desired._M_ptr`. -/
  | casWrite (expected desired : Value)
  /-- The exchange of `_M_swap_unlock`. -/
  | casPublish (expected desired : Value)
  /-- The other branch: `__expected._M_ptr = _M_ptr`, the old `__expected` in `__sink`. -/
  | casRead (sink desired : Value) (pi : BlockPtr)
  /-- `_S_add_ref`. -/
  | casRef (sink desired expected : Value)
  /-- `_M_wait_unlock`: the load. -/
  | waitLoad (old : Value)
  /-- `unlock`: the load. -/
  | unlockLoad (next : After)
  /-- `unlock`: the compare-exchange. -/
  | unlockCas (next : After) (current : Word)
  /-- In `_M_val.wait(v)`; the word is read next, when the platform wait returns. -/
  | waiting (old : Value) (v : BlockPtr)
  /-- Locals and parameters are destroyed, then the operation returns. -/
  | finish (res : Res) (dying : List Value)
  deriving DecidableEq

def After.pc : After → Pc
  | .finish res dying => .finish res dying
  | .wait old v => .waiting old v

/-- Between the return of `lock()` and the step that gives up the lock. -/
def Pc.inside : Pc → Bool
  | .idle | .spin _ | .lockCas .. | .waiting .. | .finish .. => false
  | _ => true

/-- At a step that reads or writes `_M_ptr`. -/
def Pc.touchesPtr : Pc → Bool
  | .locked .. | .swapWrite .. | .casWrite .. | .casRead .. => true
  | _ => false

/-- What the exchange that gives up the lock publishes, when that is next. -/
def Pc.publishes : Pc → Option Value
  | .swapPublish _ d _ | .casPublish _ d => some d
  | _ => none

/-- A thread: where it is, and the values it owns. -/
structure Thread where
  pc : Pc
  held : Multiset Value

structure State (ι : Type) where
  /-- `_M_ptr`. -/
  ptr : Word
  /-- `_M_refcount._M_val`. -/
  val : Word
  refs : BlockPtr → Nat
  thr : ι → Thread
  pair : Value

/-- `if (p) p->_M_add_ref_copy()` or `_M_weak_add_ref()`. -/
def addRef (refs : BlockPtr → Nat) (p : BlockPtr) : BlockPtr → Nat :=
  if p = .null then refs else Function.update refs p (refs p + 1)

/-- `if (p) p->_M_release()` or `_M_weak_release()`. -/
def release (refs : BlockPtr → Nat) (p : BlockPtr) : BlockPtr → Nat :=
  if p = .null then refs else Function.update refs p (refs p - 1)

inductive Act
  | begin (op : Op)
  | run
  /-- The thread gets a value from elsewhere, or copies one. -/
  | make (v : Value)
  /-- The thread destroys a value. -/
  | drop (v : Value)
  /-- `notify_one` and `notify_all`: they touch nothing here. -/
  | notify

structure Label (ι : Type) where
  thread : ι
  act : Act

variable {ι : Type} [DecidableEq ι]

/-- Thread `t` goes on at `pc`. -/
def State.goto (s : State ι) (t : ι) (pc : Pc) : State ι :=
  { s with thr := Function.update s.thr t { s.thr t with pc } }

@[simp] theorem State.goto_thr_self (s : State ι) (t : ι) (pc : Pc) :
    (s.goto t pc).thr t = { s.thr t with pc } := by
  simp [State.goto]

theorem State.goto_thr_ne (s : State ι) {t u : ι} (h : u ≠ t) (pc : Pc) : (s.goto t pc).thr u = s.thr u := by
  simp [State.goto, h]

/-- What `_M_val.wait(v)` asks of the word it has read: `!(v == val)`. -/
def wakeTest (val : Word) (v : BlockPtr) : Bool := val != v.val

/-- The next step of an operation. -/
def exec (s : State ι) (t : ι) : Pc → Option (State ι)
  | .idle => none
  | .spin op =>
    some (if h : s.val &&& lockBit = 0 then s.goto t (.lockCas op ⟨s.val, h⟩) else s)
  | .lockCas op current =>
    if s.val = current.val then some ({ s with val := current.withBit }.goto t (.locked op current))
    else some (s.goto t (.lockCas op (clear s.val)))
  | .locked op pi =>
    match op with
    | .load => some (s.goto t (.loadRef ⟨s.ptr, pi⟩))
    | .store d => some (s.goto t (.swapWrite false d s.ptr))
    | .exchange d => some (s.goto t (.swapWrite true d s.ptr))
    | .compareExchangeStrong e d =>
      if s.ptr = e.ptr ∧ pi = e.pi then some (s.goto t (.casWrite e d)) else some (s.goto t (.casRead e d pi))
    | .wait old =>
      if s.ptr = old.ptr ∧ pi = old.pi then some (s.goto t (.waitLoad old))
      else some (s.goto t (.unlockLoad (.finish .waited [old])))
  | .loadRef ret => some ({ s with refs := addRef s.refs ret.pi }.goto t (.unlockLoad (.finish (.loaded ret) [])))
  | .swapWrite isExchange d tmp => some ({ s with ptr := d.ptr }.goto t (.swapPublish isExchange d tmp))
  | .swapPublish isExchange d tmp =>
    let r : Value := ⟨tmp, clear s.val⟩
    some ({ s with val := d.pi.val, pair := d }.goto t
      (if isExchange then .finish (.exchanged r) [] else .finish .stored [r]))
  | .casWrite e d => some ({ s with ptr := d.ptr }.goto t (.casPublish e d))
  | .casPublish e d =>
    -- `__desired` keeps its pointer and gets the old control block
    some ({ s with val := d.pi.val, pair := d }.goto t
      (.finish (.succeeded e) [⟨d.ptr, clear s.val⟩]))
  | .casRead sink d pi => some (s.goto t (.casRef sink d ⟨s.ptr, pi⟩))
  | .casRef sink d expected =>
    some ({ s with refs := addRef s.refs expected.pi }.goto t (.unlockLoad (.finish (.failed expected) [sink, d])))
  | .waitLoad old => some (s.goto t (.unlockLoad (.wait old (clear s.val))))
  | .unlockLoad next => some (s.goto t (.unlockCas next s.val))
  | .unlockCas next current =>
    if s.val = current then some ({ s with val := (clear current).val }.goto t next.pc)
    else some (s.goto t (.unlockCas next (s.val ||| lockBit)))
  | .waiting old v => some (if wakeTest s.val v then s.goto t (.finish .waited [old]) else s)
  | .finish res (v :: dying) => some ({ s with refs := release s.refs v.pi }.goto t (.finish res dying))
  | .finish res [] =>
    some { s with thr := Function.update s.thr t ⟨.idle, ↑res.values + (s.thr t).held⟩ }

def step (s : State ι) (l : Label ι) : Option (State ι) :=
  let th := s.thr l.thread
  match l.act with
  | .run => exec s l.thread th.pc
  | .begin op =>
    if th.pc = .idle ∧ ↑op.args ≤ th.held then
      some { s with thr := Function.update s.thr l.thread ⟨.spin op, th.held - ↑op.args⟩ }
    else none
  | .make v =>
    if th.pc = .idle then
      some { s with refs := addRef s.refs v.pi, thr := Function.update s.thr l.thread ⟨.idle, v ::ₘ th.held⟩ }
    else none
  | .drop v =>
    if th.pc = .idle ∧ v ∈ th.held then
      some { s with refs := release s.refs v.pi, thr := Function.update s.thr l.thread ⟨.idle, th.held.erase v⟩ }
    else none
  | .notify => if th.pc = .idle then some s else none

theorem exec_thr_ne {s s' : State ι} {t u : ι} {pc : Pc} (h : exec s u pc = some s') (ht : t ≠ u) :
    s'.thr t = s.thr t := by
  have hgoto (s₀ : State ι) (hs : s₀.thr = s.thr) (pc' : Pc) : (s₀.goto u pc').thr t = s.thr t := by
    rw [s₀.goto_thr_ne ht, hs]
  cases pc with
  | idle => cases h
  | spin op | waiting old v =>
    simp only [exec, Option.some.injEq] at h
    split at h <;> subst h
    · exact hgoto _ rfl _
    · rfl
  | lockCas op current | unlockCas next current =>
    simp only [exec] at h
    split at h <;> cases h <;> exact hgoto _ rfl _
  | locked op pi =>
    cases op with
    | load | store | exchange =>
      cases h
      exact hgoto _ rfl _
    | compareExchangeStrong | wait =>
      simp only [exec] at h
      split at h <;> cases h <;> exact hgoto _ rfl _
  | finish res dying =>
    cases dying with
    | nil =>
      cases h
      exact Function.update_of_ne ht ..
    | cons v dying =>
      cases h
      exact hgoto _ rfl _
  | _ =>
    cases h
    exact hgoto _ rfl _

/-- A step changes no other thread. -/
theorem step_thr_ne {s s' : State ι} {t : ι} {l : Label ι} (h : step s l = some s') (ht : t ≠ l.thread) :
    s'.thr t = s.thr t := by
  obtain ⟨u, act⟩ := l
  cases act with
  | run => exact exec_thr_ne h ht
  | notify =>
    simp only [step, Option.ite_none_right_eq_some, Option.some.injEq] at h
    rw [← h.2]
  | begin | make | drop =>
    simp only [step, Option.ite_none_right_eq_some, Option.some.injEq] at h
    rw [← h.2]
    exact Function.update_of_ne ht ..

/-- Only these steps depend on `_M_ptr` or change it. -/
theorem exec_ptr (s : State ι) (t : ι) {pc : Pc} (h : pc.touchesPtr = false) (ptr : Word) :
    exec { s with ptr } t pc = (exec s t pc).map fun s' => { s' with ptr } := by
  cases pc with
  | locked | swapWrite | casWrite | casRead => cases h
  | spin op =>
    simp only [exec]
    split <;> rfl
  | lockCas op current | unlockCas next current =>
    simp only [exec]
    split <;> rfl
  | waiting old v =>
    simp only [exec]
    split <;> rfl
  | finish res dying => cases dying <;> rfl
  | _ => rfl

/-- `_Sp_atomic(value_type __r)`: the object has the reference of `v`, the only
one there is at first. -/
def State.init (v : Value) : State ι where
  ptr := v.ptr
  val := v.pi.val
  refs := addRef (fun _ => 0) v.pi
  thr _ := ⟨.idle, 0⟩
  pair := v

end SharedPtr.Atomic
