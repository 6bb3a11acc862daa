/-
Programs over any number of shared and weak pointers: an operation is one
member function on named objects, an exception ends the operation and not the
program. `Mem.Ok` holds in every state a run reaches (`run_ok`), so at the end
of a run that leaves no object everything acquired was returned, once
(`settled_of_no_objects`).
-/
import SharedPtr.HandleLedger
import SharedPtr.Lib.Run

namespace SharedPtr.Seq

open Lib (Prog Result run Visits)
open Lib.Prog (Keeps)

/-- Operations on shared (`k = .shared`) and weak pointers; a new object is `x`. -/
inductive Op (V : Type)
  /-- `T x;` -/
  | default (k : Kind) (x : V)
  /-- `shared_ptr<Y> x(p, d);` -/
  | own (x : V) (p : Ptr) (d : Nat)
  /-- `T x(r);` -/
  | copy (k : Kind) (x r : V)
  /-- `weak_ptr<Y> x(r);` for a shared pointer `r` -/
  | weaken (x r : V)
  /-- `shared_ptr<Y> x(r, p);` -/
  | aliasOf (x r : V) (p : Ptr)
  /-- `T x(std::move(r));` -/
  | move (k : Kind) (x r : V)
  /-- `shared_ptr<Y> x(std::move(r), p);` -/
  | aliasMove (x r : V) (p : Ptr)
  /-- `shared_ptr<Y> x(r);` for a weak pointer `r` -/
  | convert (x r : V)
  /-- `shared_ptr<Y> x = r.lock();` -/
  | lock (x r : V)
  /-- `x = r;` -/
  | assign (k : Kind) (x r : V)
  /-- `x = r;` for a weak pointer `x` and a shared pointer `r` -/
  | assignShared (x r : V)
  /-- `x = std::move(r);` -/
  | moveAssign (k : Kind) (x r : V)
  /-- `x = std::move(r);` for weak pointers of different types -/
  | weakMoveAssignFrom (x r : V)
  /-- `x.swap(y);` -/
  | swap (k : Kind) (x y : V)
  /-- `x.reset();` -/
  | reset (k : Kind) (x : V)
  /-- `x.reset(p, d);` -/
  | resetOwn (x : V) (p : Ptr) (d : Nat)
  /-- The object `x` is destroyed. -/
  | destroy (x : V)
  deriving DecidableEq, Repr

variable {V : Type} [DecidableEq V] (E : Env) (m : Mode)

/-- `__shared_ptr(_Yp* __p, _Deleter __d)`. -/
def ptrDeleterCtor (x : Ref V) (p : Ptr) (d : Deleter) : Prog (Mem V) Exn Unit :=
  ownCtor x p (SharedCount.ofPtrDeleter E p d)

def exec : Op V → Prog (Mem V) Exn Unit
  | .default k x => defaultCtor k (.inl x)
  | .own x p d => ptrDeleterCtor E (.inl x) p (.user d)
  | .copy k x r => copyCtor m k (.inl x) k (.inl r)
  | .weaken x r => copyCtor m .weak (.inl x) .shared (.inl r)
  | .aliasOf x r p => aliasCtor m (.inl x) (.inl r) p
  | .move k x r => moveCtor k (.inl x) (.inl r)
  | .aliasMove x r p => aliasMoveCtor (.inl x) (.inl r) p
  | .convert x r => weakCtor m (.inl x) (.inl r)
  | .lock x r => lockCtor m (.inl x) (.inl r)
  | .assign k x r => copyAssign m k (.inl x) k (.inl r)
  | .assignShared x r => copyAssign m .weak (.inl x) .shared (.inl r)
  | .moveAssign k x r => moveAssign m k (.inl x) (.inl r)
  | .weakMoveAssignFrom x r => weakMoveAssignFrom m (.inl x) (.inl r)
  | .swap k x y => swap k (.inl x) (.inl y)
  | .reset k x => reset m k (.inl x)
  | .resetOwn x p d => swapTemporary m .shared (fun tmp => ptrDeleterCtor E tmp p (.user d)) (.inl x)
  | .destroy x => Prog.modify (destroyObject m (.inl x))

/-- The state after an operation that ends. -/
def step (s : Mem V) (op : Op V) : Option (Mem V) :=
  match exec E m op s with
  | (.stop, _) => none
  | (_, s') => some s'

/-! ## Runs keep the invariant -/

variable [Fintype V] {E} {m} {hand : Resource → Nat} {I : Owners → Heap → Prop}

theorem exec_keeps (hI : Ledger I)
    (hctor : ∀ p d own h, I own h → AddsIn I own .shared (SharedCount.ofPtrDeleter E p (.user d)) h) (op : Op V) :
    Keeps (Mem.Holds I) (exec E m op) := by
  cases op with
  | default => exact defaultCtor_keeps
  | own => exact ownCtor_keeps (hctor _ _)
  | copy => exact copyCtor_keeps hI (.inr rfl)
  | weaken => exact copyCtor_keeps hI (.inl rfl)
  | aliasOf => exact aliasCtor_keeps hI
  | move => exact moveCtor_keeps
  | aliasMove => exact aliasMoveCtor_keeps
  | convert => exact weakCtor_keeps hI
  | lock => exact lockCtor_keeps hI
  | assign => exact copyAssign_keeps hI (.inr rfl)
  | assignShared => exact copyAssign_keeps hI (.inl rfl)
  | moveAssign => exact moveAssign_keeps hI
  | weakMoveAssignFrom => exact weakMoveAssignFrom_keeps hI
  | swap => exact swap_keeps
  | reset => exact reset_keeps hI
  | resetOwn => exact swapTemporary_keeps hI fun _ => ownCtor_keeps (hctor _ _)
  | destroy => exact fun s ok => .inr (destroyObject_holds hI ok)

/-- A program's deleter gives nothing back. -/
theorem ofPtrDeleter_adds (p : Ptr) (d : Nat) (own : Owners) (h : Heap) (ok : HeapOk own hand h) :
    Adds own hand .shared (SharedCount.ofPtrDeleter E p (.user d)) h := by
  have hret : ∀ r, trade.returned (Deleter.call (.user d) p) r = 0 := fun r => by
    simp [Deleter.call, Lib.Trade.returned_cons, trade]
  refine HeapOk.ofPtrDeleterAlloc ?_
  simpa only [hret, Nat.add_zero] using ok

theorem exec_ok (op : Op V) : Keeps (Mem.Ok hand) (exec E m op) := exec_keeps ledger_heapOk ofPtrDeleter_adds op

theorem step_ok {s s' : Mem V} {op : Op V} (ok : s.Ok hand) (h : step E m s op = some s') : s'.Ok hand := by
  have hk := exec_ok (E := E) (m := m) op s ok
  unfold step at h
  split at h
  next => cases h
  next r u hr he =>
    cases h
    rw [he] at hk
    exact hk.resolve_left hr

/-- Every state of a run has the invariant. -/
theorem run_ok {s s' : Mem V} {ops : List (Op V)} (h : run (step E m) s ops = some s')
    (ok : s.Ok hand) : s'.Ok hand :=
  Lib.run_invariant (fun _ _ _ ok h => step_ok ok h) h ok

omit [DecidableEq V] in
/-- When no object is left, all that was acquired was returned. -/
theorem settled_of_no_objects {s : Mem V} (ok : s.Ok fun _ => 0) (hs : ∀ r, s.obj r = none) :
    trade.Settled s.heap.log := by
  have hown : s.owners = fun _ _ => 0 := by
    funext k b
    simp [Mem.owners, hs]
  rw [Mem.Ok, hown] at ok
  refine ⟨ok.safe, ?_⟩
  intro r
  have hout : s.heap.outstanding r = 0 := by
    refine Finset.sum_eq_zero ?_
    intro b _
    have hblk := ok.blocks b
    cases hb : s.heap.blocks b with
    | none => rfl
    | some blk =>
      rw [hb] at hblk
      have hu : blk.counts.useCount = 0 := eq_zero_iff.mpr hblk.1
      have hw : blk.counts.weakCount = 0 := eq_zero_iff.mpr (by simpa using hblk.2.1)
      simp only [Option.elim, Block.outstanding, Counts.due, if_pos hu, if_pos hw, Nat.add_zero]
  have hbal := ok.balance r
  omega

end SharedPtr.Seq
