/-
The functions of the header do the same whatever the log says: an operation
that starts after other events ends the same way, and appends the same
(`anyOp_commutes`). The log is the history of a program and no part of its
state.
-/
import SharedPtr.Construction
import SharedPtr.Lib.Commute

namespace SharedPtr.Seq

open Lib (Prog Result)
open Lib.Prog (Commutes)

/-- The same heap, with the events `l` before its log. -/
def Heap.after (l : List Event) (h : Heap) : Heap := { h with log := l ++ h.log }

variable {l : List Event} {h : Heap} {E : Env} {m : Mode} {k : Kind}

namespace Heap

@[simp] theorem after_log : (h.after l).log = l ++ h.log := rfl

@[simp] theorem after_blocks : (h.after l).blocks = h.blocks := rfl

@[simp] theorem after_next : (h.after l).next = h.next := rfl

@[simp] theorem after_allocations : (h.after l).allocations = h.allocations := rfl

@[simp] theorem after_constructions : (h.after l).constructions = h.constructions := rfl

@[simp] theorem after_setCounts (b : Nat) (blk : Block) (c : Counts) :
    (h.after l).setCounts b blk c = (h.setCounts b blk c).after l := rfl

@[simp] theorem after_emit (es : List Event) : (h.after l).emit es = (h.emit es).after l := by
  simp only [emit, after, List.append_assoc]

@[simp] theorem after_construct (md : Managed) (c : Chunk) :
    ((h.after l).construct md c).2 = (h.construct md c).2.after l := rfl

@[simp] theorem after_afterFailure : (h.after l).afterFailure = h.afterFailure.after l := rfl

@[simp] theorem after_afterConstruct (source : Source) (mem : Ptr) (md : Managed) :
    (h.after l).afterConstruct source mem md = (h.afterConstruct source mem md).after l := by
  simp only [afterConstruct, after_afterFailure, after_emit, after_construct]

@[simp] theorem after_afterElements (c : Chunk) (via : Option Source) (init : Nat → Init) (p : Ptr) (B : Built) :
    (h.after l).afterElements c via init p B = (h.afterElements c via init p B).after l := by
  simp only [afterElements, afterAllocate, afterBuild, after_afterFailure, after_emit]
  simp only [after, List.append_assoc]

end Heap

/-! ## Counts -/

theorem release_after (b : Nat) (h : Heap) : release m k b (h.after l) = (release m k b h).after l := by
  unfold release
  rw [Heap.after_blocks]
  cases h.blocks b with
  | none => rfl
  | some blk => simp only [Heap.after_setCounts, Heap.after_emit]

theorem dropCount_after (pi : CountPtr) (h : Heap) : dropCount m k pi (h.after l) = (dropCount m k pi h).after l := by
  cases pi with
  | none => rfl
  | some b => exact release_after b h

theorem addRef_commutes (b : Nat) : Commutes (Heap.after l) (addRef m k b) := by
  intro h
  unfold addRef
  rw [Heap.after_blocks]
  cases h.blocks b with
  | none => rfl
  | some blk => cases hc : blk.counts.addRef m k <;> simp only [hc, Heap.after_setCounts]

theorem addRefLockNothrow_commutes (b : Nat) : Commutes (Heap.after l) (addRefLockNothrow m b) := by
  intro h
  unfold addRefLockNothrow
  rw [Heap.after_blocks]
  cases h.blocks b with
  | none => rfl
  | some blk => cases hc : blk.counts.addRefLockNothrow m <;> simp only [hc, Heap.after_setCounts]

theorem copyCount_commutes (r : CountPtr) : Commutes (Heap.after l) (copyCount m k r) := by
  cases r with
  | none => exact Commutes.pure none
  | some b => exact (addRef_commutes b).bind fun _ => Commutes.pure _

theorem assignCount_commutes (pi r : CountPtr) : Commutes (Heap.after l) (assignCount m k pi r) := by
  have hreplace : Commutes (Heap.after l) (replaceCount m k pi r) :=
    (copyCount_commutes r).bind fun tmp => (Commutes.modify (dropCount_after pi)).bind fun _ => Commutes.pure tmp
  cases k with
  | weak => exact hreplace
  | shared => exact Commutes.ite hreplace (Commutes.pure pi)

theorem countOfWeak_commutes (r : CountPtr) : Commutes (Heap.after l) (countOfWeak m r) := by
  have hthrow : Commutes (Heap.after l) (throwBadWeakPtr m : Prog Heap Exn CountPtr) :=
    ifConstexpr_elim Commutes.stop (Commutes.throw _)
  cases r with
  | none => exact hthrow
  | some b => exact (addRefLockNothrow_commutes b).bind fun _ => Commutes.ite (Commutes.pure _) hthrow

theorem countOfWeakNothrow_commutes (r : CountPtr) : Commutes (Heap.after l) (countOfWeakNothrow m r) := by
  cases r with
  | none => exact Commutes.pure none
  | some b => exact (addRefLockNothrow_commutes b).bind fun _ => Commutes.ite (Commutes.pure _) (Commutes.pure _)

theorem useCount_after (pi : CountPtr) (h : Heap) : useCount m pi (h.after l) = useCount m pi h := rfl

/-! ## New blocks -/

theorem ofPtr_commutes (p : Ptr) : Commutes (Heap.after l) (SharedCount.ofPtr E p) := by
  intro h
  simp only [SharedCount.ofPtr_apply, Heap.after_allocations]
  cases E.allocate h.allocations <;>
    simp only [Heap.after_afterFailure, Heap.after_emit, Heap.after_next, Heap.after_afterConstruct]

theorem ofPtrDeleterAlloc_commutes (p : Ptr) (d : Deleter) (a : Source) :
    Commutes (Heap.after l) (SharedCount.ofPtrDeleterAlloc E p d a) := by
  intro h
  simp only [SharedCount.ofPtrDeleterAlloc_apply, Heap.after_allocations]
  cases E.allocate h.allocations <;>
    simp only [Heap.after_afterFailure, Heap.after_emit, Heap.after_next, Heap.after_afterConstruct]

theorem cestAllocateShared_commutes (a : Source) (n : Nat) (init : Init) :
    Commutes (Heap.after l) (cestAllocateShared E a n init) := by
  intro h
  simp only [cestAllocateShared_apply, Heap.after_allocations, Heap.after_constructions]
  cases E.allocate h.allocations with
  | error e => simp only [Heap.after_afterFailure, Heap.after_emit]
  | ok p =>
    cases (E.build (fun _ => init) h.constructions 0 n).failure with
    | some e => simp only [Heap.after_afterElements, Heap.after_emit]
    | none =>
      cases E.allocate (h.allocations + 1) <;>
        simp only [Heap.after_afterElements, Heap.after_afterFailure, Heap.after_emit, Heap.after_next,
          Heap.after_afterConstruct]

theorem ofAllocShared_commutes (L : Layout) (a : Source) (ini : Initial) :
    Commutes (Heap.after l) (SharedCount.ofAllocShared E L a ini) := by
  intro h
  simp only [ofAllocShared_apply, Heap.after_allocations, Heap.after_constructions]
  cases E.allocate h.allocations with
  | error e => rfl
  | ok mem =>
    cases (E.build (fun _ => ini.init) h.constructions 0 1).failure with
    | some e => cases mem <;> simp [dropGuard]
    | none => simp only [Heap.after_afterElements, Heap.after_next, Heap.after_construct]

theorem allocateSharedArray_commutes (L : Layout) (a : Source) (shape : ArrayShape L) (ini : Initial) :
    Commutes (Heap.after l) (allocateSharedArray E L a shape ini) := by
  intro h
  simp only [allocateSharedArray_apply]
  split
  · simp only [ofCountedArray_apply ⟨a, BitVec.ofNat 64 shape.count, false⟩ ini rfl, Heap.after_allocations, Heap.after_constructions]
    cases E.allocate h.allocations with
    | error e => rfl
    | ok p =>
      simp only
      split
      next e hf => cases p <;> simp [SharedCount.dropArray]
      next hf => split <;> simp only [Heap.after_afterElements, Heap.after_next, Heap.after_construct]
  · simp only [Heap.after_emit]

theorem allocateShared_commutes (L : Layout) (constEval : Bool) (a : Source) (form : Form L) (ini : Initial) :
    Commutes (Heap.after l) (allocateShared E L constEval a form ini) := by
  unfold allocateShared
  split
  · exact cestAllocateShared_commutes _ _ _
  · cases form with
    | single => exact ofAllocShared_commutes _ _ _
    | array shape => exact allocateSharedArray_commutes _ _ _ _

/-! ## Objects -/

variable {V : Type} [DecidableEq V] {x r : Ref V} {kr : Kind} {p : Ptr}

/-- The same memory, with the events `l` before its log. -/
def Mem.after (l : List Event) (s : Mem V) : Mem V := { s with heap := s.heap.after l }

omit [DecidableEq V] in
@[simp] theorem Mem.after_obj (s : Mem V) : (s.after l).obj = s.obj := rfl

omit [DecidableEq V] in
@[simp] theorem Mem.after_heap (s : Mem V) : (s.after l).heap = s.heap.after l := rfl

omit [DecidableEq V] in
theorem onHeap_commutes {α : Type} {c : Prog Heap Exn α} (hc : Commutes (Heap.after l) c) :
    Commutes (Mem.after l) (onHeap c : Prog (Mem V) Exn α) := fun s => by
  simp only [onHeap, hc s.heap, Mem.after]

omit [DecidableEq V] in
theorem get_commutes : Commutes (Mem.after l) (get k x) := by
  intro s
  simp only [get, Mem.after_obj]
  cases s.obj x with
  | none => rfl
  | some h => by_cases hk : h.kind = k <;> simp only [hk, if_true, if_false]

theorem put_commutes (h : Handle) : Commutes (Mem.after l) (put x h) := Commutes.modify fun _ => rfl

theorem create_commutes (h : Handle) : Commutes (Mem.after l) (create x h) := by
  intro s
  simp only [create, Mem.after_obj]
  cases s.obj x <;> rfl

theorem destroyObject_after (s : Mem V) : destroyObject m x (s.after l) = (destroyObject m x s).after l := by
  simp only [destroyObject, Mem.after_obj]
  cases s.obj x with
  | none => rfl
  | some h =>
    simp only [Mem.after_heap, dropCount_after]
    rfl

theorem swap_commutes {y : Ref V} : Commutes (Mem.after l) (swap k x y) :=
  get_commutes.bind fun _ => get_commutes.bind fun _ => (put_commutes _).bind fun _ => put_commutes _

theorem swapTemporary_commutes {make : Ref V → Prog (Mem V) Exn Unit} (hmake : ∀ t, Commutes (Mem.after l) (make t)) :
    Commutes (Mem.after l) (swapTemporary m k make x) :=
  (hmake _).bind fun _ => swap_commutes.atExit destroyObject_after

theorem moveCtor_commutes : Commutes (Mem.after l) (moveCtor k x r) :=
  get_commutes.bind fun h => (create_commutes h).bind fun _ => put_commutes _

theorem copyCtor_commutes : Commutes (Mem.after l) (copyCtor m k x kr r) :=
  get_commutes.bind fun h => (onHeap_commutes (copyCount_commutes h.pi)).bind fun _ => create_commutes _

theorem aliasCtor_commutes : Commutes (Mem.after l) (aliasCtor m x r p) :=
  get_commutes.bind fun h => (onHeap_commutes (copyCount_commutes h.pi)).bind fun _ => create_commutes _

theorem aliasMoveCtor_commutes : Commutes (Mem.after l) (aliasMoveCtor x r p) :=
  get_commutes.bind fun _ => (create_commutes _).bind fun _ => put_commutes _

theorem copyAssign_commutes : Commutes (Mem.after l) (copyAssign m k x kr r) :=
  get_commutes.bind fun _ => get_commutes.bind fun t => (put_commutes _).bind fun _ => get_commutes.bind fun h =>
    (onHeap_commutes (assignCount_commutes t.pi h.pi)).bind fun _ => put_commutes _

theorem ownCtor_commutes {rc : Prog Heap Exn CountPtr} (hrc : Commutes (Heap.after l) rc) :
    Commutes (Mem.after l) (ownCtor x p rc) := (onHeap_commutes hrc).bind fun _ => create_commutes _

theorem exec_commutes (op : Op V) : Commutes (Mem.after l) (exec E m op) := by
  cases op with
  | default => exact create_commutes _
  | own => exact ownCtor_commutes (ofPtrDeleterAlloc_commutes _ _ _)
  | copy | weaken => exact copyCtor_commutes
  | aliasOf => exact aliasCtor_commutes
  | move => exact moveCtor_commutes
  | aliasMove => exact aliasMoveCtor_commutes
  | convert =>
    exact get_commutes.bind fun h => (onHeap_commutes (countOfWeak_commutes h.pi)).bind fun _ => create_commutes _
  | lock =>
    exact get_commutes.bind fun h => (onHeap_commutes (countOfWeakNothrow_commutes h.pi)).bind fun pi =>
      (Commutes.read fun s => useCount_after pi s.heap).bind fun _ => create_commutes _
  | assign | assignShared => exact copyAssign_commutes
  | moveAssign => exact ifConstexpr_elim Commutes.stop (swapTemporary_commutes fun _ => moveCtor_commutes)
  | weakMoveAssignFrom =>
    exact get_commutes.bind fun _ => get_commutes.bind fun t => (put_commutes _).bind fun _ =>
      (onHeap_commutes (Commutes.modify (dropCount_after t.pi))).bind fun _ =>
        (put_commutes _).bind fun _ => put_commutes _
  | swap => exact swap_commutes
  | reset => exact swapTemporary_commutes fun _ => create_commutes _
  | resetOwn => exact swapTemporary_commutes fun _ => ownCtor_commutes (ofPtrDeleterAlloc_commutes _ _ _)
  | destroy => exact Commutes.modify destroyObject_after

/-! ## Constructions -/

/-- The same, with a `unique_ptr` beside the memory. -/
def besideUnique (l : List Event) (s : Mem V × UniquePtr) : Mem V × UniquePtr := (s.1.after l, s.2)

omit [DecidableEq V] in
theorem inMem_commutes {α : Type} {c : Prog (Mem V) Exn α} (hc : Commutes (Mem.after l) c) :
    Commutes (besideUnique l) (inMem c) := fun s => by
  simp only [inMem, Prog.outer, besideUnique, hc s.1]

omit [DecidableEq V] in
theorem ofUniqueIn_commutes : Commutes (besideUnique l) (ofUniqueIn E : Prog (Mem V × UniquePtr) Exn CountPtr) := by
  rintro ⟨s, r⟩
  simp only [ofUniqueIn, besideUnique, Mem.after_heap, SharedCount.ofUnique_apply, Heap.after_allocations]
  split
  · rfl
  · cases E.allocate s.heap.allocations with
    | error e => rfl
    | ok mem => cases r.del <;> simp only [Heap.after_afterFailure, Heap.after_emit, Heap.after_next,
        Heap.after_afterConstruct, Mem.after]

theorem uniqueCtor_commutes : Commutes (besideUnique l) (uniqueCtor E m x) :=
  Commutes.bind (Commutes.read (f := besideUnique l) fun _ => rfl) fun _ => ofUniqueIn_commutes.bind fun tmp =>
    (inMem_commutes (onHeap_commutes (assignCount_commutes none tmp))).bind fun _ =>
      (inMem_commutes (onHeap_commutes (Commutes.modify (dropCount_after tmp)))).bind fun _ =>
        inMem_commutes (create_commutes _)

theorem ctor_commutes (c : Construction) : Commutes (Mem.after l) (c.ctor E m x) := by
  cases c with
  | raw arg =>
    cases arg with
    | ptr isArray p =>
      cases isArray with
      | false => exact ownCtor_commutes (ofPtr_commutes p)
      | true => exact ownCtor_commutes (ofPtrDeleterAlloc_commutes _ _ _)
    | ptrDeleter | ptrDeleterAlloc => exact ownCtor_commutes (ofPtrDeleterAlloc_commutes _ _ _)
  | unique r =>
    intro s
    have hc := uniqueCtor_commutes (E := E) (m := m) (x := x) (l := l) (s, r)
    simp only [besideUnique] at hc
    simp only [Construction.ctor, withUnique, hc]
  | make a L form ini =>
    exact (onHeap_commutes (allocateShared_commutes _ _ _ _ _)).bind fun _ => create_commutes _

/-- **No operation reads the log.** -/
theorem anyOp_commutes (op : AnyOp V) : Commutes (Mem.after l) (op.exec E m) := by
  cases op with
  | plain op => exact exec_commutes op
  | construct x c => exact ctor_commutes c
  | reset x arg =>
    have hswap : Commutes (Mem.after l) (swapTemporary m .shared ((Construction.raw arg).ctor E m) (.inl x)) :=
      swapTemporary_commutes fun _ => ctor_commutes (.raw arg)
    cases arg with
    | ptr isArray p => exact get_commutes.bind fun _ => Commutes.ite Commutes.stop hswap
    | ptrDeleter => exact hswap
    | ptrDeleterAlloc => exact ifConstexpr_elim Commutes.stop hswap
  | assignUnique x r =>
    have heq : (AnyOp.assignUnique x r).exec E m = swapTemporary m .shared ((Construction.unique r).ctor E m) (.inl x) :=
      funext fun s => uniqueAssign_eq E m (.inl x) r s
    rw [heq]
    exact swapTemporary_commutes fun _ => ctor_commutes (.unique r)

end SharedPtr.Seq
