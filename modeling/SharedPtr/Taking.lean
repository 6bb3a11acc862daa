/-
Taking ownership: the constructors of `__shared_ptr` from a pointer, with or
without a deleter and an allocator, and from a `unique_ptr`; `reset`; and the
assignment from a `unique_ptr` (`bits/shared_ptr_base.h`).

A `unique_ptr` argument is an object of the caller, beside the memory. The
constructors that own a raw pointer differ in their one control block only,
and do what `Offer.take` says (`Raw.ctor_apply`); the one from a `unique_ptr`
does the same, and leaves the argument alone until nothing can fail
(`uniqueCtor_apply`).
-/
import SharedPtr.HandleLedger

namespace SharedPtr.Seq

open Lib (Prog Result)

/-- The arguments `(p)`, of an array type or not, `(p, d)` and `(p, d, a)`. -/
inductive Raw
  | ptr (isArray : Bool) (p : Ptr)
  | ptrDeleter (p : Ptr) (d : Deleter)
  | ptrDeleterAlloc (p : Ptr) (d : Deleter) (a : Source)
  deriving DecidableEq, Repr

variable {V : Type} [DecidableEq V] (E : Env) (m : Mode)

/-- `__shared_ptr(_Yp* __p)`, `__shared_ptr(_Yp* __p, _Deleter __d)` and
`__shared_ptr(_Yp* __p, _Deleter __d, _Alloc __a)`. -/
def Raw.ctor (x : Ref V) : Raw → Prog (Mem V) Exn Unit
  | .ptr isArray p => ownCtor x p (SharedCount.ofPtrArray E isArray p)
  | .ptrDeleter p d => ownCtor x p (SharedCount.ofPtrDeleter E p d)
  | .ptrDeleterAlloc p d a => ownCtor x p (SharedCount.ofPtrDeleterAlloc E p d a)

/-- The overloads of `reset` with arguments; the one for a pointer asserts
that it is not the one that is owned, and the one with an allocator is not
`constexpr`. -/
def Raw.reset (x : Ref V) : Raw → Prog (Mem V) Exn Unit
  | .ptr isArray p => do
    let h ← get .shared x
    if p ≠ none ∧ p = h.ptr then Prog.stop
    else swapTemporary m .shared (fun tmp => Raw.ctor E tmp (.ptr isArray p)) x
  | .ptrDeleter p d => swapTemporary m .shared (fun tmp => Raw.ctor E tmp (.ptrDeleter p d)) x
  | .ptrDeleterAlloc p d a =>
    ifConstexpr m false (swapTemporary m .shared (fun tmp => Raw.ctor E tmp (.ptrDeleterAlloc p d a)) x)

/-- A program on the memory and not on the argument. -/
def inMem {α : Type} (c : Prog (Mem V) Exn α) : Prog (Mem V × UniquePtr) Exn α := Prog.outer c

/-- `__shared_count(std::unique_ptr&&)`, with the memory around the heap. -/
def ofUniqueIn : Prog (Mem V × UniquePtr) Exn CountPtr := fun s =>
  let r := SharedCount.ofUnique E (s.1.heap, s.2)
  (r.1, ({ s.1 with heap := r.2.1 }, r.2.2))

/-- `__shared_ptr(unique_ptr<_Yp, _Del>&& __r)`: the count is assigned from a
temporary, by copy. -/
def uniqueCtor (x : Ref V) : Prog (Mem V × UniquePtr) Exn Unit := do
  let p ← Prog.read (·.2.ptr)
  let tmp ← ofUniqueIn E
  let pi ← inMem (onHeap (assignCount m .shared none tmp))
  inMem (onHeap (Prog.modify (dropCount m .shared tmp)))
  inMem (create x ⟨.shared, p, pi⟩)

/-- `operator=(unique_ptr<_Yp, _Del>&& __r)`. -/
def uniqueAssign (x : Ref V) : Prog (Mem V × UniquePtr) Exn Unit := do
  uniqueCtor E m (.inr .tmp)
  Prog.atExit (inMem (swap .shared (.inr .tmp) x)) fun s => (destroyObject m (.inr .tmp) s.1, s.2)

inductive TakeOp (V : Type)
  | ctor (x : V) (arg : Raw)
  /-- `(nullptr, d)` -/
  | ctorNull (x : V) (d : Deleter)
  /-- `(nullptr, d, a)` -/
  | ctorNullAlloc (x : V) (d : Deleter) (a : Source)
  | ctorUnique (x : V)
  | reset (x : V) (arg : Raw)
  | assignUnique (x : V)
  deriving DecidableEq, Repr

def TakeOp.exec : TakeOp V → Prog (Mem V × UniquePtr) Exn Unit
  | .ctor x arg => inMem (arg.ctor E (.inl x))
  | .ctorNull x d => inMem (ownCtor (.inl x) none (SharedCount.ofPtrDeleter E none d))
  | .ctorNullAlloc x d a => inMem (ownCtor (.inl x) none (SharedCount.ofPtrDeleterAlloc E none d a))
  | .ctorUnique x => uniqueCtor E m (.inl x)
  | .reset x arg => inMem (arg.reset E m (.inl x))
  | .assignUnique x => uniqueAssign E m (.inl x)

/-! ## What they do -/

/-- A pointer to own, its deleter, and its control block. -/
structure Offer where
  ptr : Ptr
  del : Deleter
  source : Source
  managed : Managed

/-- The offer made by a constructor that uses a deleter. -/
def Offer.withDeleter (p : Ptr) (d : Deleter) (a : Source) : Offer := ⟨p, d, a, .countedDeleter p d⟩

/-- The offer of a `unique_ptr` with the deleter `d`. -/
def UniquePtr.offer (r : UniquePtr) (d : Deleter) : Offer := ⟨r.ptr, d, .std, r.counted r.ptr d⟩

def Raw.offer : Raw → Offer
  | .ptr false p => ⟨p, .delete, .new, .countedPtr p⟩
  | .ptr true p => .withDeleter p .arrayDelete .std
  | .ptrDeleter p d => .withDeleter p d .std
  | .ptrDeleterAlloc p d a => .withDeleter p d a

variable {E}

/-- What owning the pointer of an offer does, given the answer of the allocator. -/
def Offer.take (o : Offer) (x : Ref V) (s : Mem V) : Except Exn Ptr → Result Exn Unit × Mem V
  | .error e => (.throw e, { s with heap := s.heap.afterFailure.emit (o.del.call o.ptr) })
  | .ok mem =>
    (.ok (), { s with heap := s.heap.afterConstruct o.source mem o.managed }.set x
      (some ⟨.shared, o.ptr, some s.heap.next⟩))

theorem ownCtor_apply (o : Offer) {rc : Prog Heap Exn CountPtr} {x : Ref V} {s : Mem V}
    (hrc : ∀ h, rc h = match E.allocate h.allocations with
      | .error e => (.throw e, h.afterFailure.emit (o.del.call o.ptr))
      | .ok mem => (.ok (some h.next), h.afterConstruct o.source mem o.managed))
    (hx : s.obj x = none) : ownCtor x o.ptr rc s = o.take x s (E.allocate s.heap.allocations) := by
  rw [ownCtor, Prog.bind_apply, onHeap, hrc]
  cases E.allocate s.heap.allocations with
  | error e => rfl
  | ok mem => simp [create, hx, Offer.take]

theorem withDeleter_apply (p : Ptr) (d : Deleter) (a : Source) {x : Ref V} {s : Mem V} (hx : s.obj x = none) :
    ownCtor x p (SharedCount.ofPtrDeleterAlloc E p d a) s =
      (Offer.withDeleter p d a).take x s (E.allocate s.heap.allocations) :=
  ownCtor_apply (.withDeleter p d a) (SharedCount.ofPtrDeleterAlloc_apply E p d a) hx

theorem Raw.ctor_apply (arg : Raw) {x : Ref V} {s : Mem V} (hx : s.obj x = none) :
    arg.ctor E x s = arg.offer.take x s (E.allocate s.heap.allocations) := by
  cases arg with
  | ptr isArray p =>
    cases isArray with
    | false => exact ownCtor_apply ⟨p, .delete, .new, .countedPtr p⟩ (SharedCount.ofPtr_apply E p) hx
    | true => exact withDeleter_apply p .arrayDelete .std hx
  | ptrDeleter p d => exact withDeleter_apply p d .std hx
  | ptrDeleterAlloc p d a => exact withDeleter_apply p d a hx

/-- The temporary `__shared_count` of the constructor from a `unique_ptr` has
one owner, then two, then one. -/
theorem count_moves (h : Heap) (source : Source) (mem : Ptr) (md : Managed) :
    ∃ h', assignCount m .shared none (some h.next) (h.afterConstruct source mem md) = (.ok (some h.next), h') ∧
      dropCount m .shared (some h.next) h' =
        (h.afterConstruct source mem md).emit [.release .shared h.next] := by
  have hblk : (h.afterConstruct source mem md).blocks h.next = some ⟨.new, md, ⟨source, .controlBlock, mem, 1⟩⟩ := by
    simp [Heap.afterConstruct, Heap.construct, Heap.emit, Heap.afterFailure]
  have hadd : Counts.addRef m .shared .new = some ⟨2, 1⟩ :=
    Counts.addRefCopy_eq_some.mpr ⟨by decide, rfl⟩
  have hdrop : Counts.drop m .shared ⟨2, 1⟩ = (.new, []) := by
    rw [show Counts.drop m .shared = Counts.release m from rfl, Counts.release_eq]
    rfl
  refine ⟨(h.afterConstruct source mem md).setCounts h.next ⟨.new, md, ⟨source, .controlBlock, mem, 1⟩⟩ ⟨2, 1⟩, ?_, ?_⟩
  · simp [assignCount, replaceCount, copyCount, Prog.bind_apply, addRef, hblk, hadd, dropCount]
  · simp only [dropCount, release, Heap.setCounts, Function.update_self, hdrop, Block.release, List.flatMap_nil,
      Function.update_idem]
    congr 1
    rw [← hblk, Function.update_eq_self]

theorem uniqueCtor_apply {x : Ref V} {s : Mem V} {r : UniquePtr} (hx : s.obj x = none) {d : Deleter}
    (hd : r.del = some d) :
    uniqueCtor E m x (s, r) =
      if r.ptr = none then (.ok (), (s.set x (some ⟨.shared, none, none⟩), r))
      else
        match E.allocate s.heap.allocations with
        | .error e => (.throw e, ({ s with heap := s.heap.afterFailure }, r))
        | .ok mem =>
          (.ok (), ({ s with
              heap := (s.heap.afterConstruct .std mem (r.counted r.ptr d)).emit [.release .shared s.heap.next]
            }.set x (some ⟨.shared, r.ptr, some s.heap.next⟩), r.release.2.forwardDeleter.2)) := by
  by_cases hp : r.ptr = none
  · simp [uniqueCtor, Prog.bind_apply, ofUniqueIn, SharedCount.ofUnique_apply, hp, inMem, Prog.outer, onHeap, create,
      hx, dropCount, assignCount]
  · rw [if_neg hp]
    cases he : E.allocate s.heap.allocations with
    | error e => simp [uniqueCtor, Prog.bind_apply, ofUniqueIn, SharedCount.ofUnique_apply, hp, he]
    | ok mem =>
      obtain ⟨h', hassign, hdrop⟩ := count_moves m s.heap .std mem (r.counted r.ptr d)
      simp [uniqueCtor, Prog.bind_apply, ofUniqueIn, SharedCount.ofUnique_apply, hp, he, hd, inMem, Prog.outer, onHeap,
        hassign, hdrop, create, hx]

/-- The pointer in the temporary changes places with `x`'s, which is released. -/
theorem swap_temporary {s : Mem V} {t h : Handle} {x : Ref V} (ht : s.obj (.inr .tmp) = some t) (hkt : t.kind = .shared)
    (hx : s.obj x = some h) (hkx : h.kind = .shared) (hne : x ≠ .inr .tmp) :
    ∃ s', Prog.atExit (swap .shared (.inr .tmp) x) (destroyObject m (.inr .tmp)) s = (.ok (), s') ∧
      s'.heap = dropCount m .shared h.pi s.heap ∧ s'.obj = ((s.set x (some t)).set (.inr .tmp) none).obj := by
  have hobj : ((s.set (.inr .tmp) (some h)).set x (some t)).obj (.inr .tmp) = some h := by
    rw [Mem.set_obj_of_ne _ (Ne.symm hne), Mem.set_obj]
  have hset : ((s.set (.inr .tmp) (some h)).set x (some t)).set (.inr .tmp) none =
      (s.set x (some t)).set (.inr .tmp) none := by
    rw [Mem.set_comm _ hne, Mem.set_set]
  refine ⟨destroyObject m (.inr .tmp) ((s.set (.inr .tmp) (some h)).set x (some t)), ?_, ?_, ?_⟩
  · simp only [Prog.atExit, swap, Prog.bind_apply, get, ht, hkt, hx, hkx, if_true, put, Prog.modify_apply]
  · simp only [destroyObject, hobj, hkx, Mem.set_heap]
  · simp only [destroyObject, hobj]
    rw [← hset]

end SharedPtr.Seq
