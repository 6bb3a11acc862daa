/-
`out_ptr` of a shared pointer (`bits/out_ptr.h`, the specialisation of
`_Impl`): the pointer is reset, gets a control block that owns nothing yet, and
the function that is called writes the stored pointer. The destructor of the
adaptor hands the pointer to the block, or gives the block back.

It is to end where `reset(p, d, a)` would (`LikeReset`), for the pointer `p`
that the function leaves. What it leaves out is
`_M_enable_shared_from_this_with`.
-/
import SharedPtr.SharedFromThis
import SharedPtr.Reassignment

namespace SharedPtr.Seq

open Lib (Prog Result)

/-! ## The adaptor -/

section

variable {V : Type} [DecidableEq V] (E : Env) (m : Mode)

/-- `__a2.allocate(1)`, and `::new (__mem) _Scd(nullptr, ...)`. -/
def preallocate (d : Deleter) (a : Source) : Prog Heap Exn Nat := do
  let mem ← allocate E a .controlBlock 1
  Prog.act (Heap.construct (.countedDeleter none d) ⟨a, .controlBlock, mem, 1⟩)

/-- `_Impl(_Smart& __s, _Del __d, _Alloc __a)`, where `__s` is `x`. -/
def outPtrCtor (x : Ref V) (d : Deleter) (a : Source) : Prog (Mem V) Exn Unit := do
  reset m .shared x
  let b ← onHeap (preallocate E d a)
  let h ← get .shared x
  put x { h with pi := some b }

/-- `*slot = p;`: the slot, `_M_get()`, is `_M_ptr` of `x`. -/
def writeSlot (x : Ref V) (p : Ptr) : Prog (Mem V) Exn Unit := do
  let h ← get .shared x
  put x { h with ptr := p }

/-- `static_cast<_Scd*>(__pi)->_M_ptr = __ptr;` -/
def Heap.setPtr (b : Nat) (p : Ptr) (h : Heap) : Heap :=
  match h.blocks b with
  | some ⟨counts, .countedDeleter _ d, c⟩ =>
    { h with blocks := Function.update h.blocks b (some ⟨counts, .countedDeleter p d, c⟩) }
  | _ => h

/-- `_M_destroy()` of the block named `b`. -/
def Heap.callDestroy (b : Nat) (h : Heap) : Heap :=
  match h.blocks b with
  | some blk => h.emit (blk.call b .destroy)
  | none => h

/-- `~_Impl()`. -/
def outPtrDtor (x : Ref V) (s : Mem V) : Mem V :=
  match s.obj x with
  | some ⟨.shared, some p, some b⟩ => { s with heap := s.heap.setPtr b (some p) }
  | some ⟨.shared, none, some b⟩ => { s.set x (some ⟨.shared, none, none⟩) with heap := s.heap.callDestroy b }
  | _ => s

end

/-! ## The function that is called -/

variable {V O : Type} [DecidableEq V] [DecidableEq O]

/-- What the function does that concerns the adaptor. -/
inductive SlotStep (O : Type)
  | write (p : Ptr)
  /-- An object with the base `enable_shared_from_this` is constructed. -/
  | object (o : O)
  deriving DecidableEq, Repr

/-- The function, with the slot of `x`. -/
def fillSlot (x : Ref (V ⊕ O)) : List (SlotStep O) → Prog (Mem (V ⊕ O)) Exn Unit
  | [] => pure ()
  | .write p :: steps => do
    writeSlot x p
    fillSlot x steps
  | .object o :: steps => do
    defaultCtor .weak (weakThis o)
    fillSlot x steps

/-- The function, with a slot that is no smart pointer's. -/
def makeObjects : List (SlotStep O) → Prog (Mem (V ⊕ O)) Exn Unit
  | [] => pure ()
  | .write _ :: steps => makeObjects steps
  | .object o :: steps => do
    defaultCtor .weak (weakThis o)
    makeObjects steps

/-- The pointer that it leaves in the slot, where `p` was. -/
def leftIn : Ptr → List (SlotStep O) → Ptr
  | p, [] => p
  | _, .write p :: steps => leftIn p steps
  | p, .object _ :: steps => leftIn p steps

section

variable (E : Env) (m : Mode)

/-- What `x.reset(p, d, a)` does, for an object with the base, `o`, or without: `x` is swapped
with `shared_ptr(p, d, a)`. -/
def resetTo (base : Option O) (x : Ref (V ⊕ O)) (p : Ptr) (d : Deleter) (a : Source) : Prog (Mem (V ⊕ O)) Exn Unit :=
  match base with
  | some o => swapTemporary m .shared (fun tmp => adoptCtor E m tmp o (.raw (.ptrDeleterAlloc p d a))) x
  | none => swapTemporary m .shared (fun tmp => Raw.ctor E tmp (.ptrDeleterAlloc p d a)) x

/-- Both programs end alike: the same smart pointers and control blocks, and the same calls. -/
structure EndsAlike {V : Type} (s s' : Mem V) : Prop where
  obj : s.obj = s'.obj
  blocks : s.heap.blocks = s'.heap.blocks
  next : s.heap.next = s'.heap.next
  log : s.heap.log.Perm s'.heap.log

/-- The weak pointer at `w` refers to what has an owner. -/
def Shares {V : Type} (s : Mem V) (w : Ref V) : Prop :=
  ∃ t, s.obj w = some t ∧ t.kind = .weak ∧ useCount m t.pi s.heap ≠ 0

/-- What `out_ptr(x, d, a)` is to do from the state `s`, in which `x` is `h`, where the function
that is called takes the `steps`: if it had another slot, `t` would be the state after it. -/
def LikeReset (x : V) (d : Deleter) (a : Source) (base : Option O) (steps : List (SlotStep O)) (h : Handle)
    (s t : Mem (V ⊕ O)) : Prop :=
  let x : Ref (V ⊕ O) := .inl (.inl x)
  let b := s.heap.next
  -- the reference of `x` is released
  let log := (dropCount m .shared h.pi s.heap).log
  match outPtrCtor E m x d a s with
  | (.throw e, s₁) => E.allocate s.heap.allocations = .error e ∧ s₁.obj x = some ⟨.shared, none, none⟩ ∧ s₁.heap.log = log
  | (.ok (), s₁) => ∃ c s₂, s₁.obj x = some ⟨.shared, none, some b⟩ ∧ s₁.heap.log = log ++ [.allocate c] ∧
      fillSlot x steps s₁ = (.ok (), s₂) ∧ s₂.heap = s₁.heap ∧
      let s₃ := outPtrDtor x s₂
      match leftIn none steps with
      | none => s₃.obj x = some ⟨.shared, none, none⟩ ∧ s₃.heap.log = s₁.heap.log ++ [.destroy b, .deallocate c]
      | some p => s₃.obj x = some ⟨.shared, some p, some b⟩ ∧
          s₃.heap.blocks b = some ⟨.new, .countedDeleter (some p) d, c⟩ ∧ s₃.heap.log = s₁.heap.log ∧
          (∃ t', resetTo E m base x (some p) d a t = (.ok (), t') ∧ EndsAlike s₃ t') ∧
          ∀ o, base = some o → Shares m s₃ (weakThis o)
  | (.stop, _) => False

/-- Whether there is nothing to be done for `enable_shared_from_this`: no block, no object, no base,
or an object that has other owners than `x` already. -/
def NothingToEnable (base : Option O) (steps : List (SlotStep O)) (h : Handle) (s t : Mem (V ⊕ O)) : Prop :=
  (∃ e, E.allocate s.heap.allocations = .error e) ∨ leftIn none steps = none ∨
    ∀ o, base = some o → Shares m { t with heap := dropCount m .shared h.pi s.heap } (weakThis o)

end

/-! ## What each part does -/

section

variable {V : Type} [DecidableEq V] {E : Env} {m : Mode} {s : Mem V} {x : Ref V} {h : Handle} {d : Deleter} {a : Source}

/-- `x` takes over what a constructor has made, and its own is released. -/
theorem swapTemporary_apply (make : Ref V → Prog (Mem V) Exn Unit) {u : Mem V} {t : Handle}
    (hmake : make (.inr .tmp) s = (.ok (), u.set (.inr .tmp) (some t))) (ht : t.kind = .shared) (hx : u.obj x = some h)
    (hk : h.kind = .shared) (hfree : u.obj (.inr .tmp) = none) :
    swapTemporary m .shared make x s =
      (.ok (), { u with heap := dropCount m .shared h.pi u.heap }.set x (some t)) := by
  have hne : x ≠ .inr .tmp := by
    intro he
    rw [he, hfree] at hx
    cases hx
  obtain ⟨s', he, hheap, hobj⟩ := swap_temporary (m := m) (s := u.set (.inr .tmp) (some t))
    (Mem.set_obj ..) ht ((Mem.set_obj_of_ne _ hne _).trans hx) hk hne
  rw [swapTemporary, Prog.bind_apply, hmake]
  simp only [he]
  obtain ⟨heap', obj'⟩ := s'
  rw [Prod.mk.injEq]
  refine ⟨rfl, ?_⟩
  rw [show heap' = dropCount m .shared h.pi u.heap from hheap, show obj' = _ from hobj, Mem.set_around u hfree hne]
  rfl

theorem reset_apply (hx : s.obj x = some h) (hk : h.kind = .shared) (hfree : s.obj (.inr .tmp) = none) :
    reset m .shared x s =
      (.ok (), { s with heap := dropCount m .shared h.pi s.heap }.set x (some ⟨.shared, none, none⟩)) :=
  swapTemporary_apply _ (create_apply hfree _) rfl hx hk hfree

theorem dropCount_allocations (k : Kind) (pi : CountPtr) (h : Heap) :
    (dropCount m k pi h).allocations = h.allocations ∧ (dropCount m k pi h).next = h.next := by
  cases pi with
  | none => exact ⟨rfl, rfl⟩
  | some b =>
    simp only [dropCount, release]
    cases h.blocks b with
    | none => exact ⟨rfl, rfl⟩
    | some blk => exact ⟨rfl, rfl⟩

theorem preallocate_apply (h : Heap) :
    preallocate E d a h =
      match E.allocate h.allocations with
      | .error e => (.throw e, h.afterFailure)
      | .ok mem => (.ok h.next, h.afterConstruct a mem (.countedDeleter none d)) := by
  rw [preallocate, Prog.bind_apply, allocate_apply]
  cases E.allocate h.allocations with
  | error e => rfl
  | ok mem => rfl

theorem outPtrCtor_apply (hx : s.obj x = some h) (hk : h.kind = .shared) (hfree : s.obj (.inr .tmp) = none) :
    outPtrCtor E m x d a s =
      let heap := dropCount m .shared h.pi s.heap
      match E.allocate s.heap.allocations with
      | .error e => (.throw e, { s with heap := heap.afterFailure }.set x (some ⟨.shared, none, none⟩))
      | .ok mem => (.ok (), { s with heap := heap.afterConstruct a mem (.countedDeleter none d) }.set x
          (some ⟨.shared, none, some s.heap.next⟩)) := by
  obtain ⟨hcalls, hnext⟩ := dropCount_allocations (m := m) .shared h.pi s.heap
  rw [outPtrCtor, Prog.bind_apply, reset_apply hx hk hfree]
  simp only [Prog.bind_apply, onHeap, Mem.set_heap, preallocate_apply, hcalls]
  cases E.allocate s.heap.allocations with
  | error e => rfl
  | ok mem => simp [get, put, Mem.set, hnext]

/-- The pointer is handed to the block. -/
theorem outPtrDtor_some (p : Nat) (heap : Heap) (mem : Ptr) :
    outPtrDtor x ({ s with heap := heap.afterConstruct a mem (.countedDeleter none d) }.set x
        (some ⟨.shared, some p, some heap.next⟩)) =
      { s with heap := heap.afterConstruct a mem (.countedDeleter (some p) d) }.set x
        (some ⟨.shared, some p, some heap.next⟩) := by
  simp [outPtrDtor, Heap.setPtr, Heap.afterConstruct, Heap.construct, Heap.emit, Heap.afterFailure, Mem.set]

/-- The block is given back. -/
theorem outPtrDtor_none (heap : Heap) (mem : Ptr) :
    outPtrDtor x ({ s with heap := heap.afterConstruct a mem (.countedDeleter none d) }.set x
        (some ⟨.shared, none, some heap.next⟩)) =
      { s with
        heap := (heap.afterConstruct a mem (.countedDeleter none d)).emit
          [.destroy heap.next, .deallocate ⟨a, .controlBlock, mem, 1⟩] }.set x (some ⟨.shared, none, none⟩) := by
  simp [outPtrDtor, Heap.callDestroy, Block.call, Heap.afterConstruct, Heap.construct, Heap.emit, Heap.afterFailure,
    Mem.set]

/-- The construction of a block and a release of another. -/
theorem dropCount_afterConstruct {pi : CountPtr} {heap : Heap} (hpi : ∀ b, pi = some b → b ≠ heap.next) (mem : Ptr)
    (md : Managed) :
    (dropCount m .shared pi (heap.afterConstruct a mem md)).blocks =
        Function.update (dropCount m .shared pi heap).blocks heap.next
          (some ⟨.new, md, ⟨a, .controlBlock, mem, 1⟩⟩) ∧
      ∃ es, (dropCount m .shared pi heap).log = heap.log ++ es ∧
        (dropCount m .shared pi (heap.afterConstruct a mem md)).log =
          heap.log ++ (.allocate ⟨a, .controlBlock, mem, 1⟩ :: es) := by
  have hlog : (heap.afterConstruct a mem md).log = heap.log ++ [.allocate ⟨a, .controlBlock, mem, 1⟩] := rfl
  cases pi with
  | none => exact ⟨rfl, [], (List.append_nil _).symm, rfl⟩
  | some b =>
    have hblock : (heap.afterConstruct a mem md).blocks b = heap.blocks b := Function.update_of_ne (hpi b rfl) ..
    simp only [dropCount, release, hblock]
    cases heap.blocks b with
    | none => exact ⟨rfl, [], (List.append_nil _).symm, rfl⟩
    | some blk =>
      refine ⟨Function.update_comm (hpi b rfl).symm .., blk.release m .shared b, rfl, ?_⟩
      simp only [Heap.emit, Heap.setCounts, hlog, List.append_assoc, List.singleton_append]

end

/-! ## The call -/

section

variable {E : Env} {m : Mode} {x : V} {d : Deleter} {a : Source} {base : Option O} {steps : List (SlotStep O)}
  {s t : Mem (V ⊕ O)} {h : Handle}

/-- Only objects that were not there come to be. -/
theorem makeObjects_obj (hmake : makeObjects steps s = (.ok (), t)) (y : Ref (V ⊕ O)) :
    t.heap = s.heap ∧ (t.obj y = s.obj y ∨ t.obj y = some ⟨.weak, none, none⟩ ∧ ∃ o, y = weakThis o) := by
  induction steps generalizing s with
  | nil =>
    cases hmake
    exact ⟨rfl, .inl rfl⟩
  | cons step steps ih =>
    cases step with
    | write p => exact ih hmake
    | object o =>
      rw [makeObjects] at hmake
      obtain ⟨_, u, hu, hmake⟩ := Prog.bind_eq_ok.mp hmake
      obtain ⟨hheap, hobj⟩ := ih hmake
      rcases create_cases (weakThis o) ⟨.weak, none, none⟩ s with he | ⟨hnone, he⟩
      · rw [defaultCtor, he] at hu
        cases hu
      · rw [defaultCtor, he] at hu
        cases hu
        refine ⟨hheap, ?_⟩
        by_cases hy : y = weakThis o
        · subst hy
          rcases hobj with hobj | hobj
          · exact .inr ⟨hobj.trans (Mem.set_obj ..), o, rfl⟩
          · exact .inr hobj
        · rwa [Mem.set_obj_of_ne _ hy] at hobj

theorem makeObjects_obj_of_ne (hmake : makeObjects steps s = (.ok (), t)) {y : Ref (V ⊕ O)}
    (hy : ∀ o, y ≠ weakThis o) : t.obj y = s.obj y := by
  obtain ⟨-, hobj | ⟨-, o, ho⟩⟩ := makeObjects_obj hmake y
  · exact hobj
  · exact (hy o ho).elim

/-- The function does the same with the slot of `x`, and leaves its pointer there. -/
theorem fillSlot_apply (hmake : makeObjects steps s = (.ok (), t)) (heap : Heap) (p : Ptr) (pi : CountPtr) :
    fillSlot (.inl (.inl x)) steps ({ s with heap := heap }.set (.inl (.inl x)) (some ⟨.shared, p, pi⟩)) =
      (.ok (), { t with heap := heap }.set (.inl (.inl x)) (some ⟨.shared, leftIn p steps, pi⟩)) := by
  induction steps generalizing s p with
  | nil =>
    cases hmake
    rfl
  | cons step steps ih =>
    cases step with
    | write q =>
      rw [fillSlot, Prog.bind_apply]
      simp only [writeSlot, Prog.bind_apply, get, Mem.set_obj, if_true, put, Prog.modify_apply, Mem.set_set]
      exact ih hmake q
    | object o =>
      rw [makeObjects] at hmake
      obtain ⟨_, u, hu, hmake⟩ := Prog.bind_eq_ok.mp hmake
      rcases create_cases (weakThis o) ⟨.weak, none, none⟩ s with he | ⟨hnone, he⟩
      · rw [defaultCtor, he] at hu
        cases hu
      · rw [defaultCtor, he] at hu
        cases hu
        have hne : (weakThis o : Ref (V ⊕ O)) ≠ .inl (.inl x) := by simp
        have hcreate := create_apply ((Mem.set_obj_of_ne { s with heap := heap } hne (some ⟨.shared, p, pi⟩)).trans hnone)
          ⟨.weak, none, none⟩
        rw [Mem.set_comm _ hne] at hcreate
        rw [fillSlot, Prog.bind_apply, defaultCtor, hcreate]
        exact ih hmake p

/-- Only constant evaluation cannot call `reset` for it. -/
theorem resetTo_eq (hm : m ≠ .constEval) (x : Ref (V ⊕ O)) (p : Ptr) :
    resetTo E m none x p d a = Raw.reset E m x (.ptrDeleterAlloc p d a) ∧
      ∀ o, resetTo E m (some o) x p d a = adoptReset E m x o (.ptrDeleterAlloc p d a) :=
  ⟨(ifConstexpr_of fun hc => absurd hc hm).symm, fun _ => (ifConstexpr_of fun hc => absurd hc hm).symm⟩

/-- A reset that has nothing to enable. -/
theorem resetTo_apply {p : Nat} {mem : Ptr} (hx : t.obj (.inl (.inl x)) = some h) (hk : h.kind = .shared)
    (hfree : t.obj (.inr .tmp) = none) (hmem : E.allocate t.heap.allocations = .ok mem)
    (hbase : ∀ o, base = some o →
      Shares m { t with heap := t.heap.afterConstruct a mem (.countedDeleter (some p) d) } (weakThis o)) :
    resetTo E m base (.inl (.inl x)) (some p) d a t =
      (.ok (), { t with heap := dropCount m .shared h.pi (t.heap.afterConstruct a mem (.countedDeleter (some p) d)) }.set
        (.inl (.inl x)) (some ⟨.shared, some p, some t.heap.next⟩)) := by
  have hctor : Raw.ctor E (.inr .tmp) (.ptrDeleterAlloc (some p) d a) t =
      (.ok (), { t with heap := t.heap.afterConstruct a mem (.countedDeleter (some p) d) }.set (.inr .tmp)
        (some ⟨.shared, some p, some t.heap.next⟩)) := by
    rw [Raw.ctor_apply _ hfree, hmem]
    rfl
  cases base with
  | none =>
    exact swapTemporary_apply (fun tmp => Raw.ctor E tmp (.ptrDeleterAlloc (some p) d a)) hctor rfl hx hk hfree
  | some o =>
    refine swapTemporary_apply (fun tmp => adoptCtor E m tmp o (.raw (.ptrDeleterAlloc (some p) d a)))
      (u := { t with heap := t.heap.afterConstruct a mem (.countedDeleter (some p) d) })
      (t := ⟨.shared, some p, some t.heap.next⟩) ?_ rfl hx hk hfree
    obtain ⟨w, hw, hkw, huse⟩ := hbase o rfl
    rw [adoptCtor, Prog.bind_apply, show Construction.ctor E m (.inr .tmp) (.raw (.ptrDeleterAlloc (some p) d a)) t = _
      from hctor]
    have hne : (weakThis o : Ref (V ⊕ O)) ≠ .inr .tmp := by simp
    have hw' := (Mem.set_obj_of_ne { t with heap := t.heap.afterConstruct a mem (.countedDeleter (some p) d) } hne
      (some ⟨.shared, some p, some t.heap.next⟩)).trans hw
    -- `_M_assign` finds an owner
    simp [Prog.bind_apply, Construction.makesObject, Construction.hasEsftBase, enableSharedFromThisWith, weakAssign, get,
      hw', hkw, huse]

omit [DecidableEq V] [DecidableEq O] in
theorem useCount_congr {b : Nat} {heap : Heap} (heap' : Heap) (hb : heap.blocks b = heap'.blocks b) :
    useCount m (some b) heap = useCount m (some b) heap' := by
  simp only [useCount, Option.bind_some, hb]

variable [Fintype V] [Fintype O]

/-- What has an owner still when `x` is released, had one before. -/
theorem useCount_of_dropCount (ok : s.Holds BlocksOk) (hx : s.obj (.inl (.inl x)) = some h) (hk : h.kind = .shared)
    {b : Nat} (huse : useCount m (some b) (dropCount m .shared h.pi s.heap) ≠ 0) : useCount m (some b) s.heap ≠ 0 := by
  cases hpi : h.pi with
  | none => rwa [hpi] at huse
  | some b₀ =>
    obtain ⟨blk, hblk⟩ := exists_block_of_obj ok hx hpi
    by_cases hb : b = b₀
    · rw [hb, Ne, useCount_eq_zero ok, ← hk]
      exact Mem.owners_ne_zero hx hpi
    · rwa [hpi, dropCount, release_of_block hblk, useCount_congr s.heap] at huse
      exact Function.update_of_ne hb ..

/-- What a weak pointer of an object refers to, was there before the call. -/
theorem weakThis_pi_lt (ok : s.Holds BlocksOk) (hcall : makeObjects steps s = (.ok (), t)) {o : O} {w : Handle}
    (hw : t.obj (weakThis o) = some w) {b : Nat} (hb : w.pi = some b) : b < s.heap.next := by
  obtain ⟨-, hobj | ⟨hobj, -⟩⟩ := makeObjects_obj hcall (weakThis o)
  · rw [hobj] at hw
    obtain ⟨blk, hblk⟩ := exists_block_of_obj ok hw hb
    exact ok.lt hblk
  · rw [hobj] at hw
    cases hw
    cases hb

/-- The new block changes nothing for the others. -/
theorem shares_congr (ok : s.Holds BlocksOk) (hcall : makeObjects steps s = (.ok (), t)) (heap : Heap) {heap' : Heap}
    (hblocks : ∀ b, b < s.heap.next → heap.blocks b = heap'.blocks b) (o : O) :
    Shares m { t with heap := heap } (weakThis o) ↔ Shares m { t with heap := heap' } (weakThis o) := by
  refine exists_congr fun w => and_congr_right fun hw => and_congr_right ?_
  intro _
  cases hb : w.pi with
  | none => exact Iff.rfl
  | some b =>
    rw [useCount_congr _ (hblocks b (weakThis_pi_lt ok hcall hw hb))]

/-- An owner that is left when `x` is released was there before, and with the new block. -/
theorem Shares.of_dropCount (ok : s.Holds BlocksOk) (stored : s.obj (.inl (.inl x)) = some h) (shared : h.kind = .shared)
    (called : makeObjects steps s = (.ok (), t)) (mem : Ptr) (md : Managed) {o : O}
    (hshares : Shares m { t with heap := dropCount m .shared h.pi s.heap } (weakThis o)) :
    Shares m { t with heap := s.heap.afterConstruct a mem md } (weakThis o) := by
  obtain ⟨w, hw, hkw, huse⟩ := hshares
  refine ⟨w, hw, hkw, ?_⟩
  cases hb : w.pi with
  | none =>
    rw [hb] at huse
    exact absurd rfl huse
  | some b =>
    rw [hb] at huse
    rw [useCount_congr s.heap]
    · exact useCount_of_dropCount ok stored shared huse
    · exact Function.update_of_ne (Nat.ne_of_lt (weakThis_pi_lt ok called hw hb)) ..

/-- It makes no difference whether the block is constructed before the release or after it. -/
theorem endsAlike_of_release (ok : s.Holds BlocksOk) (stored : s.obj (.inl (.inl x)) = some h) (u : Mem (V ⊕ O))
    (mem : Ptr) (md : Managed) (y : Ref (V ⊕ O)) (o : Option Handle) :
    EndsAlike ({ u with heap := (dropCount m .shared h.pi s.heap).afterConstruct a mem md }.set y o)
      ({ u with heap := dropCount m .shared h.pi (s.heap.afterConstruct a mem md) }.set y o) := by
  have hlt (b : Nat) (hb : h.pi = some b) : b ≠ s.heap.next := by
    obtain ⟨blk, hblk⟩ := exists_block_of_obj ok stored hb
    exact Nat.ne_of_lt (ok.lt hblk)
  obtain ⟨hblocks, es, hlog, hlog'⟩ := dropCount_afterConstruct (m := m) (a := a) hlt mem md
  have hnext := (dropCount_allocations (m := m) .shared h.pi s.heap).2
  refine ⟨rfl, ?_, ?_, ?_⟩
  · rw [Mem.set_heap, Mem.set_heap, hblocks, ← hnext]
    rfl
  · rw [Mem.set_heap, Mem.set_heap, (dropCount_allocations ..).2]
    exact congrArg (· + 1) hnext
  · rw [Mem.set_heap, Mem.set_heap, hlog']
    show ((dropCount m .shared h.pi s.heap).log ++ _).Perm _
    rw [hlog, List.append_assoc]
    exact List.Perm.append_left _ List.perm_append_comm

/-- Whether an object has an owner, when the adaptor is gone. -/
theorem shares_outPtr (ok : s.Holds BlocksOk) (called : makeObjects steps s = (.ok (), t)) {heap : Heap}
    (hnext : heap.next = s.heap.next) (mem : Ptr) (md : Managed) (own : Option Handle) (o : O) :
    Shares m ({ t with heap := heap.afterConstruct a mem md }.set (.inl (.inl x)) own) (weakThis o) ↔
      Shares m { t with heap := heap } (weakThis o) := by
  refine Iff.trans ?_ (shares_congr ok called (heap.afterConstruct a mem md)
    (fun b hb => Function.update_of_ne (Nat.ne_of_lt (hnext.symm ▸ hb)) ..) o)
  rw [Shares, Shares, Mem.set_obj_of_ne _ (show weakThis o ≠ _ by nofun)]
  rfl

/-- **`out_ptr` ends where `reset` would**, exactly if there is nothing to enable. -/
theorem outPtr_like_reset_iff (E : Env) (m : Mode) (x : V) (d : Deleter) (a : Source) (base : Option O)
    (steps : List (SlotStep O)) (h : Handle) (s t : Mem (V ⊕ O)) (ok : s.Holds BlocksOk)
    (stored : s.obj (.inl (.inl x)) = some h) (shared : h.kind = .shared) (free : s.obj (.inr .tmp) = none)
    (called : makeObjects steps s = (.ok (), t)) :
    LikeReset E m x d a base steps h s t ↔ NothingToEnable E m base steps h s t := by
  have hnext := (dropCount_allocations (m := m) .shared h.pi s.heap).2
  have htx : t.obj (.inl (.inl x)) = some h := (makeObjects_obj_of_ne called fun o => by nofun).trans stored
  have htfree : t.obj (.inr .tmp) = none := (makeObjects_obj_of_ne called fun o => by nofun).trans free
  have htheap : t.heap = s.heap := (makeObjects_obj called (.inr .tmp)).1
  simp only [LikeReset, outPtrCtor_apply stored shared free, NothingToEnable]
  cases hmem : E.allocate s.heap.allocations with
  | error e => exact iff_of_true ⟨rfl, Mem.set_obj .., rfl⟩ (.inl ⟨e, rfl⟩)
  | ok mem =>
    have hfill := fillSlot_apply (x := x) called
      ((dropCount m .shared h.pi s.heap).afterConstruct a mem (.countedDeleter none d)) none (some s.heap.next)
    cases hleft : leftIn none steps with
    | none =>
      rw [hleft] at hfill
      refine iff_of_true ⟨_, _, Mem.set_obj .., rfl, hfill, rfl, ?_⟩ (.inr (.inl rfl))
      rw [← hnext, outPtrDtor_none]
      exact ⟨Mem.set_obj .., rfl⟩
    | some p =>
      rw [hleft] at hfill
      have hshares (o : O) := shares_outPtr (m := m) (x := x) (a := a) ok called hnext mem (.countedDeleter (some p) d)
        (some ⟨.shared, some p, some s.heap.next⟩) o
      have hdtor := outPtrDtor_some (s := t) (x := .inl (.inl x)) (d := d) (a := a) p (dropCount m .shared h.pi s.heap) mem
      rw [hnext] at hdtor
      constructor
      · intro ⟨c, s₂, _, _, hs₂, _, _, _, _, _, hall⟩
        rw [hfill] at hs₂
        cases hs₂
        refine .inr (.inr ?_)
        intro o ho
        have := hall o ho
        rw [hdtor] at this
        exact (hshares o).mp this
      · intro hcond
        rcases hcond with ⟨e, he⟩ | hnone | hall
        · cases he
        · cases hnone
        have hreset : resetTo E m base (.inl (.inl x)) (some p) d a t = _ := resetTo_apply htx shared htfree
          (htheap ▸ hmem) (htheap.symm ▸ fun o ho => (hall o ho).of_dropCount ok stored shared called mem _)
        rw [htheap] at hreset
        refine ⟨_, _, Mem.set_obj .., rfl, hfill, rfl, ?_⟩
        rw [hdtor]
        refine ⟨Mem.set_obj .., ?_, rfl, ?_, fun o ho => (hshares o).mpr (hall o ho)⟩
        · rw [Mem.set_heap, ← hnext]
          exact Function.update_self ..
        · exact ⟨_, hreset, endsAlike_of_release ok stored t mem _ _ _⟩

end

/-- A shared pointer that is empty, and nothing else. -/
def emptyPointer : Mem (Unit ⊕ Unit) := Mem.empty.set (.inl (.inl ())) (some ⟨.shared, none, none⟩)

theorem emptyPointer_holds : emptyPointer.Holds BlocksOk :=
  (defaultCtor_keeps (V := Unit ⊕ Unit) (k := .shared) (x := Sum.inl (.inl ())) Mem.empty holds_empty).resolve_left nofun

/-- The function writes three times; the class has no base. -/
theorem outPtr_like_reset_iff_thrice :
    LikeReset pages .defaultPolicy () (.user 1) (.user 0) none [.write (some 8), .write none, .write (some 16)]
      ⟨.shared, none, none⟩ emptyPointer emptyPointer :=
  (outPtr_like_reset_iff pages .defaultPolicy () (.user 1) (.user 0) none _ _ _ _ emptyPointer_holds rfl rfl rfl rfl).mpr
    (.inr (.inr nofun))

/-- The function constructs an object with the base and leaves a pointer to it. `out_ptr` leaves
`_M_weak_this` of the object empty, and `reset` does not. -/
theorem outPtr_enables_nothing :
    let t := emptyPointer.set (weakThis ()) (some ⟨.weak, none, none⟩)
    makeObjects [.object (), .write (some 8)] emptyPointer = (.ok (), t) ∧
      (resetTo pages .defaultPolicy (some ()) (.inl (.inl ())) (some 8) (.user 1) (.user 0) t).2.obj (weakThis ()) =
        some ⟨.weak, some 8, some 0⟩ ∧
      ¬ LikeReset pages .defaultPolicy () (.user 1) (.user 0) (some ()) [.object (), .write (some 8)] ⟨.shared, none, none⟩
        emptyPointer t := by
  refine ⟨rfl, by decide +kernel, ?_⟩
  intro ⟨c, s₂, _, _, hs₂, _, _, _, _, _, hall⟩
  cases hs₂
  obtain ⟨w, hw, _, huse⟩ := hall () rfl
  cases hw
  exact huse rfl

end SharedPtr.Seq
