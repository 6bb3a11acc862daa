/-
Taking ownership has the strong guarantee, wherever the allocation of a
control block fails: when an operation throws, a raw pointer went to its
deleter, once; a `unique_ptr` has what it had, and so has every shared
pointer; and no storage is kept. When it returns, the target is the one owner
of the pointer, and its deleter was not called.

A null `unique_ptr` owns nothing that could be taken: the target is empty.
-/
import SharedPtr.Taking
import SharedPtr.Modes

namespace SharedPtr.Seq

open Lib (Prog Result Trade)

variable {V : Type} [DecidableEq V]

namespace TakeOp

/-- The shared pointer that is constructed or assigned to. -/
def target : TakeOp V → V
  | ctor x _ | ctorNull x _ | ctorNullAlloc x _ _ | ctorUnique x | reset x _ | assignUnique x => x

def isUnique : TakeOp V → Bool
  | ctorUnique _ | assignUnique _ => true
  | _ => false

/-- `reset(p, d, a)` is not `constexpr`. -/
def isConstexpr : TakeOp V → Bool
  | reset _ (.ptrDeleterAlloc ..) => false
  | _ => true

/-- What is there to be owned, `r` being the `unique_ptr`. -/
def offer (r : UniquePtr) : TakeOp V → Option Offer
  | ctor _ arg | reset _ arg => some arg.offer
  | ctorNull _ d => some (.withDeleter none d .std)
  | ctorNullAlloc _ d a => some (.withDeleter none d a)
  | ctorUnique _ | assignUnique _ =>
    if r.ptr = none then none else r.del.map r.offer

/-- A new object is constructed, an old one assigned to; a `unique_ptr` has a
deleter; and `reset(p)` is not called with the pointer that is owned. -/
def Admissible (s : Mem V) (r : UniquePtr) : TakeOp V → Prop
  | ctor x _ | ctorNull x _ | ctorNullAlloc x _ _ => s.obj (.inl x) = none
  | ctorUnique x => s.obj (.inl x) = none ∧ r.del ≠ none
  | reset x arg => ∃ h, s.obj (.inl x) = some h ∧ h.kind = .shared ∧
      ∀ isArray p, arg = .ptr isArray p → p = none ∨ p ≠ h.ptr
  | assignUnique x => (∃ h, s.obj (.inl x) = some h ∧ h.kind = .shared) ∧ r.del ≠ none

end TakeOp

def Event.isDeleter : Event → Bool
  | .deleter .. => true
  | _ => false

/-- What the destruction of `x` logs. -/
def Mem.releaseOf (m : Mode) (s : Mem V) (x : Ref V) : List Event :=
  match s.obj x with
  | none => []
  | some h =>
    match h.pi with
    | none => []
    | some b =>
      match s.heap.blocks b with
      | none => []
      | some blk => blk.release m h.kind b

/-- The state after an exception: nothing has changed but for the deleter's work. -/
structure RolledBack (op : TakeOp V) (o : Offer) (s s' : Mem V) (r r' : UniquePtr) : Prop where
  objects : s'.obj = s.obj
  blocks : s'.heap.blocks = s.heap.blocks
  argument : r' = r
  log : ∃ new, s'.heap.log = s.heap.log ++ new ∧
    new.filter Event.isDeleter = (if op.isUnique then [] else [.deleter o.del o.ptr]) ∧
    ∀ c, trade.acquired new (.chunk c) ≤ trade.returned new (.chunk c)

/-- The state after a return: the target has a block `b` of its own, which
will give the pointer to the deleter and has not done so yet. -/
structure Took (m : Mode) (op : TakeOp V) (o : Offer) (s s' : Mem V) (r' : UniquePtr) (b : Nat) : Prop where
  fresh : s.heap.blocks b = none
  target : s'.obj (.inl op.target) = some ⟨.shared, o.ptr, some b⟩
  managed : ∃ blk, s'.heap.blocks b = some blk ∧ blk.managed.dispose = o.del.call o.ptr
  useCount : useCount m (some b) s'.heap = 1
  log : ∃ new, s'.heap.log = s.heap.log ++ new ∧ new.count (.dispose b) = 0 ∧
    new.filter Event.isDeleter = (s.releaseOf m (.inl op.target)).filter Event.isDeleter
  others : ∀ y, y ≠ .inl op.target → s'.obj y = s.obj y
  argument : op.isUnique → r'.ptr = none

/-- The strong guarantee of an operation with something to own, which neither
returns nor throws if constant evaluation ends there. -/
def StrongGuarantee (m : Mode) (op : TakeOp V) (o : Offer) (s : Mem V) (r : UniquePtr) :
    Result Exn Unit × Mem V × UniquePtr → Prop
  | (.throw _, s', r') => RolledBack op o s s' r r'
  | (.ok (), s', r') => ∃ b, Took m op o s s' r' b
  | (.stop, _) => m = .constEval ∧ op.isConstexpr = false

/-! ## A constructor -/

theorem Raw.dispose_offer (arg : Raw) : arg.offer.managed.dispose = arg.offer.del.call arg.offer.ptr := by
  rcases arg with ⟨_ | _, p⟩ | _ | _ <;> rfl

theorem Deleter.filter_call (d : Deleter) (p : Ptr) : (d.call p).filter Event.isDeleter = [.deleter d p] := by
  have hel : ∀ a i, (destroyElements a p i).filter Event.isDeleter = [] := by
    intro a i
    induction i with
    | zero => rfl
    | succ i ih => simp [destroyElements, Event.isDeleter, ih]
  cases d with
  | elements a2 i n =>
    show (Event.deleter (.elements a2 i n) p :: (destroyElements a2 p i ++ _)).filter _ = _
    rw [List.filter_cons_of_pos rfl, List.filter_append, hel]
    rfl
  | _ => rfl

theorem Deleter.acquired_call (d : Deleter) (p : Ptr) (r : Resource) : trade.acquired (d.call p) r = 0 :=
  Trade.acquired_eq_zero (Managed.acquires_dispose (.countedDeleter p d)) r

theorem getUseCount_new (m : Mode) : Counts.getUseCount m .new = 1 := by
  cases m <;> rfl

/-- The heap with one block more, which a `unique_ptr`'s constructor also released once. -/
def Heap.afterTake (h : Heap) (o : Offer) (mem : Ptr) (unique : Bool) : Heap :=
  (h.afterConstruct o.source mem o.managed).emit (if unique then [.release .shared h.next] else [])

theorem Heap.afterTake_log (h : Heap) (o : Offer) (mem : Ptr) (unique : Bool) :
    (h.afterTake o mem unique).log = h.log ++
      (.allocate ⟨o.source, .controlBlock, mem, 1⟩ :: if unique then [.release .shared h.next] else []) := by
  cases unique <;> simp [afterTake, afterConstruct, Heap.construct, Heap.emit, afterFailure]

theorem Heap.afterTake_blocks (h : Heap) (o : Offer) (mem : Ptr) (unique : Bool) :
    (h.afterTake o mem unique).blocks =
      Function.update h.blocks h.next (some ⟨.new, o.managed, ⟨o.source, .controlBlock, mem, 1⟩⟩) := by
  cases unique <;> rfl

/-- The state when the allocation has failed. -/
def Offer.failed (o : Offer) (unique : Bool) (s : Mem V) : Mem V :=
  { s with heap := s.heap.afterFailure.emit (if unique then [] else o.del.call o.ptr) }

omit [DecidableEq V] in
theorem Offer.failed_unique (o : Offer) (s : Mem V) : o.failed true s = { s with heap := s.heap.afterFailure } := by
  simp [failed, Heap.emit]

omit [DecidableEq V] in
theorem Offer.rolledBack (o : Offer) (op : TakeOp V) (s : Mem V) (r : UniquePtr) :
    RolledBack op o s (o.failed op.isUnique s) r r := by
  refine ⟨rfl, rfl, rfl, _, rfl, ?_, fun c => ?_⟩
  · split
    · rfl
    · exact Deleter.filter_call ..
  · split
    · rfl
    · rw [Deleter.acquired_call]
      exact Nat.zero_le _

section

variable [Fintype V] {hand : Resource → Nat} {m : Mode} {op : TakeOp V} {o : Offer} {s s' : Mem V} {r' : UniquePtr}

/-- The new block is there, and the owner of the old one was dropped. -/
theorem took_of_heap (mem : Ptr) (ok : s.Ok hand) (hmd : o.managed.dispose = o.del.call o.ptr) {old : CountPtr}
    (hold : s.obj (.inl op.target) = none ∧ old = none ∨
      ∃ h, s.obj (.inl op.target) = some h ∧ h.kind = .shared ∧ h.pi = old)
    (hheap : s'.heap = dropCount m .shared old (s.heap.afterTake o mem op.isUnique))
    (htarget : s'.obj (.inl op.target) = some ⟨.shared, o.ptr, some s.heap.next⟩)
    (hothers : ∀ y, y ≠ .inl op.target → s'.obj y = s.obj y) (harg : op.isUnique → r'.ptr = none) :
    Took m op o s s' r' s.heap.next := by
  have hfresh : s.heap.blocks s.heap.next = none := by
    have := ok.named s.heap.next
    simpa using this
  have hnew : (s.heap.afterTake o mem op.isUnique).blocks s.heap.next =
      some ⟨.new, o.managed, ⟨o.source, .controlBlock, mem, 1⟩⟩ := by
    rw [Heap.afterTake_blocks, Function.update_self]
  -- the old block, if any, is another one
  obtain ⟨hblk, new, hlog, hcount, hfilter⟩ : s'.heap.blocks s.heap.next =
        some ⟨.new, o.managed, ⟨o.source, .controlBlock, mem, 1⟩⟩ ∧
      ∃ new, s'.heap.log = (s.heap.afterTake o mem op.isUnique).log ++ new ∧ new.count (.dispose s.heap.next) = 0 ∧
        new = s.releaseOf m (.inl op.target) := by
    cases old with
    | none =>
      rw [hheap]
      refine ⟨hnew, [], by simp [dropCount], rfl, ?_⟩
      unfold Mem.releaseOf
      rcases hold with ⟨h, -⟩ | ⟨h, h', -, h''⟩
      · rw [h]
      · rw [h']
        simp only [h'']
    | some b =>
      rcases hold with ⟨-, h⟩ | ⟨h, hobj, hkind, hpi⟩
      · cases h
      obtain ⟨blk, hb⟩ := HeapOk.exists_block ok (Mem.owners_ne_zero hobj hpi)
      have hne : b ≠ s.heap.next := by
        rintro rfl
        rw [hfresh] at hb
        cases hb
      have hb' : (s.heap.afterTake o mem op.isUnique).blocks b = some blk := by
        rw [Heap.afterTake_blocks, Function.update_of_ne hne, hb]
      have hrel : s.releaseOf m (.inl op.target) = blk.release m .shared b := by
        simp only [Mem.releaseOf, hobj, hpi, hb, hkind]
      rw [hheap]
      simp only [dropCount, release, hb']
      refine ⟨?_, _, rfl, ?_, hrel.symm⟩
      · simpa [Heap.setCounts, Heap.emit, Function.update_of_ne (Ne.symm hne)] using hnew
      · rw [(count_release m .shared blk b s.heap.next).1, if_neg (Ne.symm hne)]
  rw [Heap.afterTake_log, List.append_assoc] at hlog
  refine ⟨hfresh, htarget, ⟨_, hblk, hmd⟩, ?_, ⟨_, hlog, ?_, ?_⟩, hothers, harg⟩
  · simp only [useCount, Option.bind_some, hblk, getUseCount_new]
  · cases op.isUnique <;> simp [hcount]
  · rw [← hfilter]
    cases op.isUnique <;> simp [Event.isDeleter]

/-! ## The operations -/

variable (m op) in
/-- A constructor at a target that is not there. -/
theorem ctor_guarantee (ok : s.Ok hand) (hmd : o.managed.dispose = o.del.call o.ptr)
    (hx : s.obj (.inl op.target) = none) (hop : op.isUnique = false) (r : UniquePtr) (a : Except Exn Ptr) :
    StrongGuarantee m op o s r
      ((o.take (.inl op.target) s a).1, (o.take (.inl op.target) s a).2, r) := by
  cases a with
  | error e =>
    have h := o.rolledBack op s r
    rw [hop] at h
    exact h
  | ok mem =>
    refine ⟨_, took_of_heap mem ok hmd (.inl ⟨hx, rfl⟩) ?_ (Mem.set_obj ..) (fun y hy => ?_) ?_⟩
    · rw [hop]
      simp [dropCount, Heap.afterTake, Heap.emit, Offer.take]
    · exact Mem.set_obj_of_ne _ hy _
    · simp [hop]

/-- The temporary of `reset` and of the assignment, with the new block. -/
def Offer.temporary (o : Offer) (unique : Bool) (s : Mem V) (mem : Ptr) : Mem V :=
  { s with heap := s.heap.afterTake o mem unique }.set (.inr .tmp) (some ⟨.shared, o.ptr, some s.heap.next⟩)

variable (m op r') in
/-- It is swapped with the target. -/
theorem swapped_guarantee (ok : s.Ok hand) (idle : s.Idle) (hmd : o.managed.dispose = o.del.call o.ptr) {h : Handle}
    (hx : s.obj (.inl op.target) = some h) (hk : h.kind = .shared) (mem : Ptr) (harg : op.isUnique → r'.ptr = none) :
    ∃ s', Prog.atExit (swap .shared (.inr .tmp) (.inl op.target)) (destroyObject m (.inr .tmp))
        (o.temporary op.isUnique s mem) = (.ok (), s') ∧ Took m op o s s' r' s.heap.next := by
  have hx' : (o.temporary op.isUnique s mem).obj (.inl op.target) = some h := by
    rw [Offer.temporary, Mem.set_obj_of_ne _ (by simp)]
    exact hx
  obtain ⟨s', he, hheap, hobj⟩ := swap_temporary (m := m) (Mem.set_obj ..) rfl hx' hk (by simp)
  refine ⟨s', he, took_of_heap mem ok hmd (.inr ⟨h, hx, hk, rfl⟩) hheap ?_ (fun y hy => ?_) harg⟩
  · rw [hobj, Mem.set_obj_of_ne _ (by simp), Mem.set_obj]
  · rw [hobj]
    by_cases hyt : y = .inr .tmp
    · rw [hyt, Mem.set_obj, idle]
    · rw [Mem.set_obj_of_ne _ hyt, Mem.set_obj_of_ne _ hy]
      exact Mem.set_obj_of_ne _ hyt _

theorem reset_guarantee {E : Env} (ok : s.Ok hand) (idle : s.Idle) {x : V} {arg : Raw} {r : UniquePtr} {h : Handle}
    (hx : s.obj (.inl x) = some h) (hk : h.kind = .shared)
    (hself : ∀ isArray p, arg = .ptr isArray p → p = none ∨ p ≠ h.ptr) :
    StrongGuarantee m (.reset x arg) arg.offer s r ((TakeOp.reset x arg).exec E m (s, r)) := by
  have hreset : m = .constEval ∧ (TakeOp.reset x arg).isConstexpr = false ∧ arg.reset E m (.inl x) s = (.stop, s) ∨
      arg.reset E m (.inl x) s = swapTemporary m .shared (fun tmp => Raw.ctor E tmp arg) (.inl x) s := by
    cases arg with
    | ptr isArray p =>
      have hne : ¬ (p ≠ none ∧ p = h.ptr) := by
        rcases hself isArray p rfl with hp | hp
        · exact fun hc => hc.1 hp
        · exact fun hc => hp hc.2
      exact .inr (by simp only [Raw.reset, Prog.bind_apply, get, hx, hk, if_true, if_neg hne])
    | ptrDeleter => exact .inr rfl
    | ptrDeleterAlloc =>
      by_cases hm : m = .constEval
      · subst hm
        exact .inl ⟨rfl, rfl, rfl⟩
      · exact .inr (congrFun (ifConstexpr_of fun hc => absurd hc hm) s)
  obtain ⟨hm, hc, hreset⟩ | hreset := hreset
  · simp only [TakeOp.exec, inMem, Prog.outer, hreset]
    exact ⟨hm, hc⟩
  have hctor : Raw.ctor E (.inr .tmp) arg s = arg.offer.take (.inr .tmp) s (E.allocate s.heap.allocations) :=
    arg.ctor_apply (idle .tmp)
  simp only [TakeOp.exec, inMem, Prog.outer, hreset, swapTemporary, Prog.bind_apply, hctor]
  cases E.allocate s.heap.allocations with
  | error e => exact arg.offer.rolledBack (.reset x arg) s r
  | ok mem =>
    obtain ⟨s', he, htook⟩ :=
      swapped_guarantee m (.reset x arg) r ok idle arg.dispose_offer hx hk mem (by simp [TakeOp.isUnique])
    have htmp : (arg.offer.take (.inr .tmp) s (.ok mem)).2 = arg.offer.temporary false s mem := by
      simp [Offer.take, Offer.temporary, Heap.afterTake, Heap.emit]
    simp only [Offer.take] at htmp ⊢
    rw [htmp]
    have he : Prog.atExit (swap .shared (.inr .tmp) (.inl x)) (destroyObject m (.inr .tmp))
        (arg.offer.temporary false s mem) = (.ok (), s') := he
    simp only [he]
    exact ⟨_, htook⟩

theorem UniquePtr.forwardDeleter_ptr (r : UniquePtr) : r.release.2.forwardDeleter.2.ptr = none := by
  obtain ⟨p, d, refDel⟩ := r
  cases refDel <;> rfl

omit [DecidableEq V] [Fintype V] in
/-- The part of a program on the memory, with the argument beside it. -/
theorem atExit_inMem {c : Prog (Mem V) Exn Unit} {f : Mem V → Mem V} {s s' : Mem V} (r : UniquePtr)
    (h : Prog.atExit c f s = (.ok (), s')) :
    Prog.atExit (inMem c) (fun u : Mem V × UniquePtr => (f u.1, u.2)) (s, r) = (.ok (), (s', r)) := by
  unfold Prog.atExit at h
  simp only [Prog.atExit, inMem, Prog.outer]
  cases hc : c s with
  | mk res u =>
    rw [hc] at h
    cases res with
    | ok | throw =>
      simp only [Prod.mk.injEq] at h
      simp [h.1, h.2]
    | stop => cases h

theorem assignUnique_guarantee {E : Env} (ok : s.Ok hand) (idle : s.Idle) {x : V} {r : UniquePtr} {h : Handle}
    (hx : s.obj (.inl x) = some h) (hk : h.kind = .shared) {d : Deleter} (hd : r.del = some d) (hp : r.ptr ≠ none) :
    StrongGuarantee m (.assignUnique x) (r.offer d) s r
      ((TakeOp.assignUnique x).exec E m (s, r)) := by
  have hctor := uniqueCtor_apply (E := E) m (idle .tmp) hd
  rw [if_neg hp] at hctor
  cases he : E.allocate s.heap.allocations with
  | error e =>
    rw [he] at hctor
    simp only [TakeOp.exec, uniqueAssign, Prog.bind_apply, hctor]
    have h := (r.offer d).rolledBack (.assignUnique x) s r
    rw [show (TakeOp.assignUnique x).isUnique = true from rfl, Offer.failed_unique] at h
    exact h
  | ok mem =>
    rw [he] at hctor
    obtain ⟨s', he, htook⟩ := swapped_guarantee (o := r.offer d) m (.assignUnique x)
      r.release.2.forwardDeleter.2 ok idle (r.dispose_counted _ d) hx hk mem fun _ => r.forwardDeleter_ptr
    have hexec : (TakeOp.assignUnique x).exec E m (s, r) = (.ok (), (s', r.release.2.forwardDeleter.2)) := by
      simp only [TakeOp.exec, uniqueAssign, Prog.bind_apply, hctor]
      exact atExit_inMem _ he
    rw [hexec]
    exact ⟨_, htook⟩

omit [Fintype V] in
/-- A null argument: the target is released all the same. -/
theorem assignUnique_null {E : Env} (idle : s.Idle) {x : V} {r : UniquePtr} {h : Handle}
    (hx : s.obj (.inl x) = some h) (hk : h.kind = .shared) {d : Deleter} (hd : r.del = some d) (hp : r.ptr = none) :
    ∃ s', (TakeOp.assignUnique x).exec E m (s, r) = (.ok (), (s', r)) ∧
      s'.obj (.inl x) = some ⟨.shared, none, none⟩ ∧ ∀ y, y ≠ .inl x → s'.obj y = s.obj y := by
  have hctor := uniqueCtor_apply (E := E) m (idle .tmp) hd
  rw [if_pos hp] at hctor
  have hx' : (s.set (.inr .tmp) (some ⟨.shared, none, none⟩)).obj (.inl x) = some h := by
    rw [Mem.set_obj_of_ne _ (by simp), hx]
  obtain ⟨s', he, -, hobj⟩ := swap_temporary (m := m) (Mem.set_obj ..) rfl hx' hk (by simp)
  refine ⟨s', ?_, ?_, fun y hy => ?_⟩
  · simp only [TakeOp.exec, uniqueAssign, Prog.bind_apply, hctor]
    exact atExit_inMem _ he
  · rw [hobj, Mem.set_obj_of_ne _ (by simp), Mem.set_obj]
  · rw [hobj]
    by_cases hyt : y = .inr .tmp
    · rw [hyt, Mem.set_obj, idle]
    · rw [Mem.set_obj_of_ne _ hyt, Mem.set_obj_of_ne _ hy, Mem.set_obj_of_ne _ hyt]

theorem ctorUnique_guarantee {E : Env} (ok : s.Ok hand) {x : V} {r : UniquePtr} (hx : s.obj (.inl x) = none)
    {d : Deleter} (hd : r.del = some d) (hp : r.ptr ≠ none) :
    StrongGuarantee m (.ctorUnique x) (r.offer d) s r ((TakeOp.ctorUnique x).exec E m (s, r)) := by
  have hctor := uniqueCtor_apply (E := E) m hx hd
  rw [if_neg hp] at hctor
  simp only [TakeOp.exec, hctor]
  cases E.allocate s.heap.allocations with
  | error e =>
    have h := (r.offer d).rolledBack (.ctorUnique x) s r
    rw [show (TakeOp.ctorUnique x).isUnique = true from rfl, Offer.failed_unique] at h
    exact h
  | ok mem =>
    refine ⟨_, took_of_heap mem ok (r.dispose_counted _ d) (.inl ⟨hx, rfl⟩) rfl (Mem.set_obj ..)
      (fun y hy => Mem.set_obj_of_ne _ hy _) fun _ => r.forwardDeleter_ptr⟩

/-- **The strong guarantee** of every operation that takes ownership, whatever
the allocator answers; where there is nothing to own, a null `unique_ptr`, the
target is an empty shared pointer. -/
theorem strong_guarantee (E : Env) (m : Mode) (op : TakeOp V) (s : Mem V) (r : UniquePtr) (ok : s.Ok hand)
    (idle : s.Idle) (adm : op.Admissible s r) :
    match op.offer r with
    | some o => StrongGuarantee m op o s r (op.exec E m (s, r))
    | none => ∃ s', op.exec E m (s, r) = (.ok (), (s', r)) ∧
        s'.obj (.inl op.target) = some ⟨.shared, none, none⟩ ∧ ∀ y, y ≠ .inl op.target → s'.obj y = s.obj y := by
  cases op with
  | ctor x arg =>
    have h := ctor_guarantee m (.ctor x arg) ok arg.dispose_offer adm rfl r (E.allocate s.heap.allocations)
    simp only [TakeOp.offer, TakeOp.exec, inMem, Prog.outer, arg.ctor_apply adm]
    exact h
  | ctorNull x d =>
    have h := ctor_guarantee (o := .withDeleter none d .std) m (.ctorNull x d) ok rfl adm rfl r
      (E.allocate s.heap.allocations)
    simp only [TakeOp.offer, TakeOp.exec, inMem, Prog.outer, SharedCount.ofPtrDeleter,
      withDeleter_apply none d .std adm]
    exact h
  | ctorNullAlloc x d a =>
    have h := ctor_guarantee (o := .withDeleter none d a) m (.ctorNullAlloc x d a) ok rfl adm rfl r
      (E.allocate s.heap.allocations)
    simp only [TakeOp.offer, TakeOp.exec, inMem, Prog.outer, withDeleter_apply none d a adm]
    exact h
  | reset x arg =>
    obtain ⟨h, hx, hk, hself⟩ := adm
    exact reset_guarantee ok idle hx hk hself
  | ctorUnique x =>
    obtain ⟨hx, hdel⟩ := adm
    obtain ⟨d, hd⟩ := Option.ne_none_iff_exists'.mp hdel
    by_cases hp : r.ptr = none
    · simp only [TakeOp.offer, if_pos hp, TakeOp.exec, uniqueCtor_apply (E := E) m hx hd]
      exact ⟨_, rfl, Mem.set_obj .., fun y hy => Mem.set_obj_of_ne _ hy _⟩
    · simp only [TakeOp.offer, if_neg hp, hd, Option.map_some]
      exact ctorUnique_guarantee ok hx hd hp
  | assignUnique x =>
    obtain ⟨⟨h, hx, hk⟩, hdel⟩ := adm
    obtain ⟨d, hd⟩ := Option.ne_none_iff_exists'.mp hdel
    by_cases hp : r.ptr = none
    · simp only [TakeOp.offer, if_pos hp]
      exact assignUnique_null idle hx hk hd hp
    · simp only [TakeOp.offer, if_neg hp, hd, Option.map_some]
      exact assignUnique_guarantee ok idle hx hk hd hp

end

/-- With no handle and no block, a null `unique_ptr` is no owner to take over from. -/
theorem not_taken_from_null : ¬ ∀ (E : Env) (m : Mode) (op : TakeOp Unit) (s : Mem Unit) (r : UniquePtr),
    s.Ok (fun _ => 0) → s.Idle → op.Admissible s r → ∃ o, StrongGuarantee m op o s r (op.exec E m (s, r)) := by
  intro h
  obtain ⟨o, b, htook⟩ := h .generous .defaultPolicy (.ctorUnique ()) .empty ⟨none, some (.defaultDelete 0), false⟩ Mem.Ok.empty
    (fun _ => rfl) ⟨rfl, nofun⟩
  have hpi : some none = some (some b) := congrArg (Option.map Handle.pi) htook.target
  cases hpi

/-- One shared pointer, the owner of the object at 5. -/
def oneOwner : Mem Unit := (exec .generous .defaultPolicy (.own () (some 5) 1) .empty).2

/-- It is reset to own the object at 7, and there is no storage for a block. -/
theorem strong_guarantee_reset : oneOwner.obj (.inl ()) = some ⟨.shared, some 5, some 0⟩ ∧
    StrongGuarantee .defaultPolicy (.reset () (.ptr false (some 7))) ⟨some 7, .delete, .new, .countedPtr (some 7)⟩
      oneOwner ⟨none, none, false⟩ ((TakeOp.reset () (.ptr false (some 7))).exec
        ⟨fun _ => .error (.user 1), fun _ _ => .ok 0⟩ .defaultPolicy (oneOwner, ⟨none, none, false⟩)) :=
  have ok : oneOwner.Ok fun _ => 0 :=
    step_ok Mem.Ok.empty (show step .generous .defaultPolicy .empty (.own () (some 5) 1) = some oneOwner from rfl)
  ⟨rfl, strong_guarantee _ _ (.reset () (.ptr false (some 7))) oneOwner _ ok (fun l => by cases l <;> rfl)
    ⟨_, rfl, rfl, fun _ p h => .inr (by cases h; decide)⟩⟩

end SharedPtr.Seq
