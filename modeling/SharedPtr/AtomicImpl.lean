/-
`__atomic_impl` (`bits/atomic_base.h`): the operations of `std::atomic<T>` and
`std::atomic_ref<T>` for a `T` that may have padding, and the loops by which
floating-point types and `fetch_min` and `fetch_max` are built on
`compare_exchange_weak`.

The built-in atomics compare and copy whole object representations; what a
program means is the value. Each built-in is one step, and threads take turns
at any step. A weak compare-exchange may fail although the representations
agree: whether it does is in the label, and so is the padding of a value that
the language computes, which nothing promises.

`op`, `tries` and `spurious` are for the statements only: what the thread was
called with, the compare-exchanges it has made for it, and how many of these
failed spuriously. No step reads them.
-/
import SharedPtr.Lib.Run
import Mathlib.Logic.Function.Basic

namespace SharedPtr.AtomicImpl

/-- An object representation: the bits of the value and those of the padding. -/
structure Rep (V P : Type) where
  val : V
  pad : P
  deriving DecidableEq

/-- What the code asks of the type's layout; `zero` is padding all clear. -/
structure Layout (P : Type) where
  zero : P
  /-- `__maybe_has_padding<_Tp>()`. -/
  maybeHasPadding : Bool
  padless : maybeHasPadding = false → ∀ p : P, p = zero

/-- The operators of `_Tp` that the loops use. -/
structure Arith (V : Type) where
  plus : V → V → V
  minus : V → V → V
  less : V → V → Bool

structure Config (V P : Type) where
  layout : Layout P
  arith : Arith V
  /-- The object is used through `atomic_ref`: the `_AtomicRef` of its compare-exchanges. -/
  atomicRef : Bool

/-- The read-modify-writes that are loops. -/
inductive Rmw
  | fetchAddFlt
  | fetchSubFlt
  | addFetchFlt
  | subFetchFlt
  | fetchMin
  | fetchMax
  deriving DecidableEq

/-- The operations, on representations (`R` is `Rep V P`) or on values. -/
inductive Op (R : Type)
  | load
  | store (t : R)
  | exchange (desired : R)
  | compareExchange (weak : Bool) (expected desired : R)
  | rmw (f : Rmw) (i : R)
  deriving DecidableEq

/-- The answers. A compare-exchange leaves `expected` with the caller. -/
inductive Res (R : Type)
  | loaded (v : R)
  | stored
  | exchanged (v : R)
  | succeeded (expected : R)
  | failed (expected : R)
  | fetched (v : R)
  deriving DecidableEq

variable {V P : Type}

/-- `__clear_padding`. -/
def clearPadding (L : Layout P) (r : Rep V P) : Rep V P :=
  if L.maybeHasPadding then { r with pad := L.zero } else r

@[simp] theorem clearPadding_eq (L : Layout P) (r : Rep V P) : clearPadding L r = ⟨r.val, L.zero⟩ := by
  cases h : L.maybeHasPadding with
  | true => simp [clearPadding, h]
  | false => simp [clearPadding, h, ← L.padless h r.pad]

/-! ## `__compare_exchange` -/

/-- `__compare_exchange` at its built-in, with its locals. -/
structure Frame (V P : Type) where
  atomicRef : Bool
  weak : Bool
  /-- `__e`. -/
  e : Rep V P
  /-- `*__pi`. -/
  i : Rep V P
  /-- `*__pexp`. -/
  exp : Rep V P
  deriving DecidableEq

def Frame.enter (L : Layout P) (atomicRef weak : Bool) (e i : Rep V P) : Frame V P :=
  { atomicRef, weak, e, i := clearPadding L i, exp := clearPadding L e }

/-- How one turn of `__compare_exchange` ends. -/
inductive Turn (V P : Type)
  | success
  /-- `false`, with what is copied to `__e`. -/
  | failure (e : Rep V P)
  | again (fr : Frame V P)

variable [DecidableEq V] [DecidableEq P]

/-- Whether `__atomic_compare_exchange` fails although it need not. -/
def Frame.fails (fr : Frame V P) (obj : Rep V P) (spurious : Bool) : Bool :=
  obj = fr.exp && (fr.weak && spurious)

/-- The built-in, and what the code makes of it. A failed built-in has put the
object's representation into `*__pexp`. -/
def Frame.turn (L : Layout P) (fr : Frame V P) (obj : Rep V P) (spurious : Bool) : Turn V P :=
  if obj = fr.exp ∧ ¬fr.fails obj spurious then .success
  else if L.maybeHasPadding ∧ fr.atomicRef ∧ clearPadding L fr.exp = clearPadding L obj then
    .again { fr with exp := obj }
  else .failure obj

/-! ## The loops -/

/-- `__newval`; a computed value has the padding `junk`. -/
def Rmw.newval (A : Arith V) (junk : P) (oldval i : Rep V P) : Rmw → Rep V P
  | .fetchAddFlt | .addFetchFlt => ⟨A.plus oldval.val i.val, junk⟩
  | .fetchSubFlt | .subFetchFlt => ⟨A.minus oldval.val i.val, junk⟩
  | .fetchMin => if A.less oldval.val i.val then oldval else i
  | .fetchMax => if A.less i.val oldval.val then oldval else i

/-- What it returns. -/
def Rmw.result {R : Type} (oldval newval : R) : Rmw → R
  | .addFetchFlt | .subFetchFlt => newval
  | .fetchAddFlt | .fetchSubFlt | .fetchMin | .fetchMax => oldval

/-! ## The machine -/

/-- Where a thread is, with the local variables of the operation. -/
inductive Pc (V P : Type)
  | idle
  | load
  | store (t : Rep V P)
  | exchange (desired : Rep V P)
  | cas (fr : Frame V P)
  /-- A loop's first load. -/
  | rmwLoad (f : Rmw) (i : Rep V P)
  /-- A loop's `compare_exchange_weak`; `fr.e` is `__oldval`. -/
  | rmwCas (f : Rmw) (i newval : Rep V P) (fr : Frame V P)
  | done (res : Res (Rep V P))
  deriving DecidableEq

structure Thread (V P : Type) where
  pc : Pc V P
  op : Op (Rep V P)
  tries : Nat
  spurious : Nat
  deriving DecidableEq

structure State (ι V P : Type) where
  obj : Rep V P
  thr : ι → Thread V P

inductive Act (V P : Type)
  | begin (op : Op (Rep V P))
  | run (spurious : Bool) (junk : P)
  deriving DecidableEq

structure Label (ι V P : Type) where
  thread : ι
  act : Act V P
  deriving DecidableEq

/-- The operation's first step. -/
def Op.start (cfg : Config V P) : Op (Rep V P) → Pc V P
  | .load => .load
  | .store t => .store t
  | .exchange d => .exchange d
  | .compareExchange weak e d => .cas (.enter cfg.layout cfg.atomicRef weak e d)
  | .rmw f i => .rmwLoad f i

/-- A turn of a loop: `compare_exchange_weak` is called without `_AtomicRef`. -/
def loopTurn (cfg : Config V P) (f : Rmw) (junk : P) (i oldval : Rep V P) : Pc V P :=
  let newval := f.newval cfg.arith junk oldval i
  .rmwCas f i newval (.enter cfg.layout false true oldval newval)

variable {ι : Type} [DecidableEq ι]

/-- The object becomes `obj`, and thread `t` goes on at `pc`. -/
def State.put (s : State ι V P) (t : ι) (obj : Rep V P) (pc : Pc V P) : State ι V P :=
  { obj, thr := Function.update s.thr t { s.thr t with pc } }

/-- So does it after a compare-exchange, which is counted. -/
def State.putTry (s : State ι V P) (t : ι) (obj : Rep V P) (pc : Pc V P) (spurious : Bool) : State ι V P :=
  { obj
    thr := Function.update s.thr t
      { s.thr t with
        pc
        tries := (s.thr t).tries + 1
        spurious := (s.thr t).spurious + spurious.toNat } }

omit [DecidableEq V] [DecidableEq P] in
theorem update_pc (thr : ι → Thread V P) (t : ι) (th : Thread V P) :
    (Function.update thr t th t).pc = th.pc := by
  rw [Function.update_self]

omit [DecidableEq V] [DecidableEq P] in
theorem State.put_pc (s : State ι V P) (t : ι) (obj : Rep V P) (pc : Pc V P) :
    ((s.put t obj pc).thr t).pc = pc := update_pc ..

omit [DecidableEq V] [DecidableEq P] in
theorem State.putTry_pc (s : State ι V P) (t : ι) (obj : Rep V P) (pc : Pc V P) (spurious : Bool) :
    ((s.putTry t obj pc spurious).thr t).pc = pc := update_pc ..

/-- The next step of an operation. -/
def exec (cfg : Config V P) (s : State ι V P) (t : ι) (spurious : Bool) (junk : P) : Pc V P → Option (State ι V P)
  | .idle => none
  | .load => some (s.put t s.obj (.done (.loaded s.obj)))
  | .store v => some (s.put t (clearPadding cfg.layout v) (.done .stored))
  | .exchange d => some (s.put t (clearPadding cfg.layout d) (.done (.exchanged s.obj)))
  | .cas fr =>
    let missed := fr.fails s.obj spurious
    match fr.turn cfg.layout s.obj spurious with
    | .success => some (s.putTry t fr.i (.done (.succeeded fr.e)) missed)
    | .failure e => some (s.putTry t s.obj (.done (.failed e)) missed)
    | .again fr' => some (s.putTry t s.obj (.cas fr') missed)
  | .rmwLoad f i => some (s.put t s.obj (loopTurn cfg f junk i s.obj))
  | .rmwCas f i newval fr =>
    let missed := fr.fails s.obj spurious
    match fr.turn cfg.layout s.obj spurious with
    | .success => some (s.putTry t fr.i (.done (.fetched (f.result fr.e newval))) missed)
    | .failure e => some (s.putTry t s.obj (loopTurn cfg f junk i e) missed)
    | .again fr' => some (s.putTry t s.obj (.rmwCas f i newval fr') missed)
  | .done _ => some (s.put t s.obj .idle)

def step (cfg : Config V P) (s : State ι V P) (l : Label ι V P) : Option (State ι V P) :=
  match l.act with
  | .begin op =>
    if (s.thr l.thread).pc = .idle then
      some { s with thr := Function.update s.thr l.thread ⟨op.start cfg, op, 0, 0⟩ }
    else none
  | .run spurious junk => exec cfg s l.thread spurious junk (s.thr l.thread).pc

/-- No thread has started on the object, which has the representation `r`. -/
def initial (r : Rep V P) : State ι V P := ⟨r, fun _ => ⟨.idle, .load, 0, 0⟩⟩

/-- Natural numbers with a bit of padding. -/
def bitPadded (atomicRef : Bool) : Config Nat Bool where
  layout := ⟨false, true, by intro h; cases h⟩
  arith := ⟨(· + ·), (· - ·), fun a b => decide (a < b)⟩
  atomicRef

/-- `atomic(_Tp __i)`, at run time. -/
def construct (L : Layout P) (i : Rep V P) : State ι V P := initial (clearPadding L i)

end SharedPtr.AtomicImpl
