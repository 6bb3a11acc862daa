/-
The constructors of `__shared_count` that take ownership of a pointer
(`bits/shared_ptr_base.h`, with `bits/allocated_ptr.h`).

What code outside the header answers is the environment's: whether an
allocation succeeds and where, and whether the construction of an element
throws. Copying and moving deleters and allocators does not throw. A deleter
object that was moved from is `none`; calling it has no result.

What each constructor does (`ofPtr_apply`, `ofPtrDeleterAlloc_apply`,
`ofUnique_apply`) depends on nothing but its one allocation.
-/
import SharedPtr.Heap

namespace SharedPtr.Seq

open Lib (Prog Result)

/-- The answers of the allocator to its calls, in their order, and of the
elements' constructors to theirs: the value of the element, or an exception. -/
structure Env where
  allocate : Nat → Except Exn Ptr
  construct : Nat → Init → Except Exn Nat

variable (E : Env)

/-- `allocate(n)`, or the allocation of a new-expression. -/
def allocate (source : Source) (valueType : ValueType) (n : Nat) : Prog Heap Exn Ptr := fun h =>
  let h' := { h with allocations := h.allocations + 1 }
  match E.allocate h.allocations with
  | .error e => (.throw e, h')
  | .ok p => (.ok p, h'.emit [.allocate ⟨source, valueType, p, n⟩])

/-- `__d(__p)` on a deleter object. -/
def callDeleter (d : Option Deleter) (p : Ptr) : Prog Heap Exn Unit :=
  match d with
  | none => Prog.stop
  | some d => Prog.modify (Heap.emit (d.call p))

/-- `~__allocated_ptr()` for one control block from `source`. -/
def dropGuard (source : Source) (guard : Ptr) (h : Heap) : Heap :=
  if guard ≠ none then h.emit [.deallocate ⟨source, .controlBlock, guard, 1⟩] else h

namespace SharedCount

/-- `__shared_count(_Ptr __p)`. -/
def ofPtr (p : Ptr) : Prog Heap Exn CountPtr :=
  Prog.tryCatch
    (do
      let mem ← allocate E .new .controlBlock 1
      let pi ← Prog.act (Heap.construct (.countedPtr p) ⟨.new, .controlBlock, mem, 1⟩)
      pure (some pi))
    (fun e => do
      callDeleter (some .delete) p
      Prog.throw e)

/-- `__shared_count(_Ptr __p, _Deleter __d, _Alloc __a)`; the local objects are
the parameter `__d`, then `__guard` (null before it is initialised). -/
def ofPtrDeleterAlloc (p : Ptr) (d : Deleter) (a : Source) : Prog Heap Exn CountPtr :=
  Prog.withLocal (some d)
    (Prog.tryCatch
      (Prog.withLocal none
        (do
          let mem ← Prog.outer (Prog.outer (allocate E a .controlBlock 1))
          Prog.modify fun s => (s.1, mem)
          -- `::new (__mem) _Sp_cd_type(__p, std::move(__d), std::move(__a))`
          let d ← Prog.act fun s => (s.1.2, ((s.1.1, none), s.2))
          let d ← Prog.ofOption d
          let pi ← Prog.outer (Prog.outer
            (Prog.act (Heap.construct (.countedDeleter p d) ⟨a, .controlBlock, mem, 1⟩)))
          Prog.modify fun s => (s.1, none)
          pure (some pi))
        fun guard s => (dropGuard a guard s.1, s.2))
      fun e => do
        let d ← Prog.read (·.2)
        Prog.outer (callDeleter d p)
        Prog.throw e)
    fun _ h => h

/-- `__shared_count(_Ptr __p, _Deleter __d)`. -/
def ofPtrDeleter (p : Ptr) (d : Deleter) : Prog Heap Exn CountPtr := ofPtrDeleterAlloc E p d .std

/-- `__shared_count(_Ptr __p, /* is_array = */ false_type)` and `true_type`. -/
def ofPtrArray (isArray : Bool) (p : Ptr) : Prog Heap Exn CountPtr :=
  if isArray then ofPtrDeleterAlloc E p .arrayDelete .std else ofPtr E p

end SharedCount

/-- A `unique_ptr`: its pointer and deleter, and whether `_Del` is a reference
type, so that the deleter is not moved but referred to. -/
structure UniquePtr where
  ptr : Ptr
  del : Option Deleter
  refDel : Bool
  deriving DecidableEq, Repr

/-- `release()`. -/
def UniquePtr.release (r : UniquePtr) : Ptr × UniquePtr := (r.ptr, { r with ptr := none })

/-- `std::forward<_Del>(__r.get_deleter())`, taken over by a new object. -/
def UniquePtr.forwardDeleter (r : UniquePtr) : Option Deleter × UniquePtr :=
  (r.del, if r.refDel then r else { r with del := none })

/-- `_Sp_cd_type(__r.release(), std::forward<_Del>(__r.get_deleter()))`: with `_Del2`, a `reference_wrapper` if
`_Del` is a reference. -/
def UniquePtr.counted (r : UniquePtr) (p : Ptr) (d : Deleter) : Managed :=
  if r.refDel then .countedReference p d else .countedDeleter p d

/-- `__shared_count(std::unique_ptr<_Tp, _Del>&& __r)`, with `__r` beside the heap. -/
def SharedCount.ofUnique : Prog (Heap × UniquePtr) Exn CountPtr := do
  let r ← Prog.read (·.2)
  if r.ptr = none then pure none
  else do
    let mem ← Prog.outer (allocate E .std .controlBlock 1)
    let p ← Prog.act fun s => (s.2.release.1, (s.1, s.2.release.2))
    let d ← Prog.act fun s => (s.2.forwardDeleter.1, (s.1, s.2.forwardDeleter.2))
    let d ← Prog.ofOption d
    let pi ← Prog.outer (Prog.act (Heap.construct (r.counted p d) ⟨.std, .controlBlock, mem, 1⟩))
    pure (some pi)

/-! ## What they do -/

/-- The heap when the next allocation has failed. -/
def Heap.afterFailure (h : Heap) : Heap := { h with allocations := h.allocations + 1 }

/-- The heap when the next allocation has given storage at `mem` and a control
block is constructed there. -/
def Heap.afterConstruct (h : Heap) (source : Source) (mem : Ptr) (managed : Managed) : Heap :=
  ((h.afterFailure.emit [.allocate ⟨source, .controlBlock, mem, 1⟩]).construct managed
    ⟨source, .controlBlock, mem, 1⟩).2

@[simp] theorem UniquePtr.dispose_counted (r : UniquePtr) (p : Ptr) (d : Deleter) :
    (r.counted p d).dispose = d.call p := by
  unfold counted
  split <;> rfl

namespace SharedCount

theorem ofPtr_apply (p : Ptr) (h : Heap) :
    ofPtr E p h =
      match E.allocate h.allocations with
      | .error e => (.throw e, h.afterFailure.emit (Deleter.delete.call p))
      | .ok mem => (.ok (some h.next), h.afterConstruct .new mem (.countedPtr p)) := by
  cases he : E.allocate h.allocations with
  | error e => simp [ofPtr, Prog.tryCatch, Prog.bind_apply, allocate, he, callDeleter, Heap.afterFailure]
  | ok mem =>
    simp [ofPtr, Prog.tryCatch, Prog.bind_apply, allocate, he, Heap.construct, Heap.afterConstruct,
      Heap.afterFailure, Heap.emit]

/-- The deleter is called where the allocation failed: it was not moved yet. -/
theorem ofPtrDeleterAlloc_apply (p : Ptr) (d : Deleter) (a : Source) (h : Heap) :
    ofPtrDeleterAlloc E p d a h =
      match E.allocate h.allocations with
      | .error e => (.throw e, h.afterFailure.emit (d.call p))
      | .ok mem => (.ok (some h.next), h.afterConstruct a mem (.countedDeleter p d)) := by
  cases he : E.allocate h.allocations with
  | error e =>
    simp [ofPtrDeleterAlloc, Prog.withLocal, Prog.tryCatch, Prog.bind_apply, Prog.outer, allocate, he,
      dropGuard, callDeleter, Heap.afterFailure]
  | ok mem =>
    simp [ofPtrDeleterAlloc, Prog.withLocal, Prog.tryCatch, Prog.bind_apply, Prog.outer, allocate, he,
      dropGuard, Heap.construct, Heap.afterConstruct, Heap.afterFailure, Heap.emit]

theorem ofUnique_apply (h : Heap) (r : UniquePtr) :
    ofUnique E (h, r) =
      if r.ptr = none then (.ok none, (h, r))
      else
        match E.allocate h.allocations with
        | .error e => (.throw e, (h.afterFailure, r))
        | .ok mem =>
          let r' := r.release.2.forwardDeleter.2
          match r.del with
          | none => (.stop, (h.afterFailure.emit [.allocate ⟨.std, .controlBlock, mem, 1⟩], r'))
          | some d => (.ok (some h.next), (h.afterConstruct .std mem (r.counted r.ptr d), r')) := by
  by_cases hp : r.ptr = none
  · simp [ofUnique, Prog.bind_apply, hp]
  · rw [if_neg hp]
    cases he : E.allocate h.allocations with
    | error e => simp [ofUnique, Prog.bind_apply, Prog.outer, hp, allocate, he, Heap.afterFailure]
    | ok mem =>
      cases hd : r.del with
      | none =>
        simp [ofUnique, Prog.bind_apply, Prog.outer, hp, allocate, he, UniquePtr.release,
          UniquePtr.forwardDeleter, hd, Heap.afterFailure]
      | some d =>
        simp [ofUnique, Prog.bind_apply, Prog.outer, hp, allocate, he, UniquePtr.release,
          UniquePtr.forwardDeleter, hd, Heap.construct, Heap.afterConstruct, Heap.afterFailure, Heap.emit]

end SharedCount

end SharedPtr.Seq
