/-
`get_deleter` (`bits/shared_ptr.h`), and `_M_get_deleter` of the control blocks
(`bits/shared_ptr_base.h`).

`get_deleter<D>(x)` finds a deleter exactly where the block that `x` shares was
made to keep one of type `D`, whatever became of the handle that made it; and
what it finds is what is called when the last owner goes (`getDeleter_finds`).
A pointer that is owned without a deleter has none, though it is deleted; and
of a `unique_ptr` that refers to its deleter the block keeps a
`reference_wrapper`, which is of another type.
-/
import SharedPtr.DeleterCalls

namespace SharedPtr.Seq

open Lib (Prog Result run outputs)
open Lib.Prog (Keeps)

/-! ## The functions -/

/-- Types that `get_deleter` can be asked for. -/
inductive DeleterType
  /-- `__sp_array_delete` -/
  | arrayDelete
  /-- `default_delete` of the type called `T`. -/
  | defaultDelete (T : Nat)
  /-- A type of the program's. -/
  | user (c : Nat)
  | referenceWrapper (D : DeleterType)
  deriving DecidableEq, Repr

/-- What `_M_get_deleter` is asked for. -/
inductive TypeInfo
  /-- `typeid(_Del)` -/
  | deleter (D : DeleterType)
  /-- `typeid(_Sp_make_shared_tag)` -/
  | makeSharedTag
  /-- `_Sp_make_shared_tag::_S_ti()`, which is no real `type_info` -/
  | makeSharedFake
  deriving DecidableEq, Repr

/-- What a `void*` that is not null points to. -/
inductive Pointee
  /-- The deleter in the block named `b`. -/
  | deleter (b : Nat)
  /-- The object in the block named `b`, at `p`. -/
  | object (b : Nat) (p : Ptr)
  deriving DecidableEq, Repr

/-- The type of a deleter; `cls` says of which a program's deleter is. -/
def Deleter.type (cls : Nat → DeleterType) : Deleter → Option DeleterType
  -- what `_Sp_counted_ptr` does is no object
  | .delete => none
  | .arrayDelete => some .arrayDelete
  | .defaultDelete T => some (.defaultDelete T)
  | .user d => some (cls d)
  -- `_Del` has no name outside `cest_allocate_shared`
  | .elements .. => none

/-- `_M_get_deleter(__ti)` of the block named `b`. -/
def Managed.getDeleter (cls : Nat → DeleterType) (b : Nat) (ti : TypeInfo) : Managed → Option Pointee
  | countedPtr _ => none
  | countedDeleter _ del => if (del.type cls).map .deleter = some ti then some (.deleter b) else none
  | countedReference _ del =>
    if (del.type cls).map (fun D => .deleter (.referenceWrapper D)) = some ti then some (.deleter b) else none
  | countedInplace _ ptr => if ti = .makeSharedFake ∨ ti = .makeSharedTag then some (.object b ptr) else none
  | countedOverwrite _ => none
  | countedArray .. => none

/-- `__shared_count::_M_get_deleter(__ti)`. -/
def countGetDeleter (cls : Nat → DeleterType) (pi : CountPtr) (ti : TypeInfo) (h : Heap) : Option Pointee :=
  match pi with
  | none => none
  | some b => (h.blocks b).bind fun blk => blk.managed.getDeleter cls b ti

variable {V : Type} [DecidableEq V]

/-- `get_deleter<_Del>(x)`. -/
def getDeleter (cls : Nat → DeleterType) (D : DeleterType) (x : Ref V) : Prog (Mem V) Exn (Option Pointee) := do
  let h ← get .shared x
  let del ← Prog.read fun s => countGetDeleter cls h.pi (.deleter D) s.heap
  -- `static_cast<_Del*>(__del)`, which constant evaluation does not allow of null
  match del with
  | some del => pure (some del)
  | none => pure none

/-! ## Deleters in blocks -/

/-- What a `_Sp_counted_deleter` keeps: the pointer, and the deleter or a `reference_wrapper` of it. -/
structure Held where
  del : Deleter
  byReference : Bool
  ptr : Ptr
  deriving DecidableEq, Repr

/-- The type of the deleter that is kept. -/
def Held.type (cls : Nat → DeleterType) (o : Held) : Option DeleterType :=
  (o.del.type cls).map fun D => if o.byReference then .referenceWrapper D else D

def Managed.passed : Managed → Option Held
  | countedDeleter ptr del => some ⟨del, false, ptr⟩
  | countedReference ptr del => some ⟨del, true, ptr⟩
  | _ => none

def Heap.passed (h : Heap) (b : Nat) : Option Held := (h.blocks b).bind (·.managed.passed)

/-- What a construction puts in its block. -/
def Raw.passes (E : Env) (h : Heap) : Raw → Option Held
  | .ptr false _ => none
  | arg =>
    match E.allocate h.allocations with
    | .error _ => none
    | .ok _ => some ⟨arg.offer.del, false, arg.offer.ptr⟩

def Construction.passes (E : Env) (h : Heap) : Construction → Option Held
  | raw arg => arg.passes E h
  | unique r => ((Construction.unique r).acquires E h).head?.map fun o => ⟨o.1, r.refDel, o.2⟩
  | make .. => none

def AnyOp.passes (E : Env) (h : Heap) : AnyOp V → Option Held
  | plain (.own _ p d) | plain (.resetOwn _ p d) => (Raw.ptrDeleter p (.user d)).passes E h
  | plain _ => none
  | construct _ c => c.passes E h
  | reset _ arg => arg.passes E h
  | assignUnique _ r => (Construction.unique r).passes E h

def CastOp.passes (E : Env) (h : Heap) : CastOp V → Option Held
  | op o => o.passes E h
  | cast .. | own .. => none

/-- The block that an operation makes with a deleter, and what is in it. -/
def CastOp.stores (E : Env) (s : Mem V) (o : CastOp V) : List (Nat × Held) :=
  ((o.passes E s.heap).map fun o => (s.heap.next, o)).toList

/-- The blocks that a run makes with deleters. -/
abbrev stored (E : Env) (m : Mode) (s : Mem V) (ops : List (CastOp V)) : List (Nat × Held) :=
  outputs (CastOp.step E m) (CastOp.stores E) s ops

section

variable {E : Env} {m : Mode} {o : Held} {h : Heap}

/-- Counting leaves the deleters where they are. -/
theorem steady_passed (f : Nat → Option Held) : Steady fun h => h.passed = f where
  emit _ h₀ := h₀
  asked _ _ h₀ := h₀
  setCounts {h b blk} c hb h₀ := by
    rw [← h₀]
    funext b'
    rw [Heap.passed, Heap.passed]
    by_cases hbb : b' = b
    · subst hbb
      simp [Heap.setCounts, hb]
    · simp only [Heap.setCounts, Function.update_of_ne hbb]

theorem passed_construct (h : Heap) (md : Managed) (c : Chunk) : (h.construct md c).2.passed h.next = md.passed := by
  simp [Heap.passed, Heap.construct]

theorem passed_construct_of_ne {b : Nat} (hb : b ≠ h.next) (md : Managed) (c : Chunk) :
    (h.construct md c).2.passed b = h.passed b := by
  simp only [Heap.passed, Heap.construct, Function.update_of_ne hb]

theorem passed_ofPtrDeleterAlloc (q : Ptr) (d' : Deleter) (a : Source) (hnext : h.blocks h.next = none) :
    (SharedCount.ofPtrDeleterAlloc E q d' a h).2.passed h.next =
      match E.allocate h.allocations with
      | .error _ => none
      | .ok _ => some ⟨d', false, q⟩ := by
  rw [SharedCount.ofPtrDeleterAlloc_apply]
  cases E.allocate h.allocations with
  | error e =>
    show (h.blocks h.next).bind _ = none
    rw [hnext]
    rfl
  | ok mem => exact passed_construct (h.afterFailure.emit _) _ _

theorem passed_ofPtr (q : Ptr) (hnext : h.blocks h.next = none) : (SharedCount.ofPtr E q h).2.passed h.next = none := by
  rw [SharedCount.ofPtr_apply]
  cases E.allocate h.allocations with
  | error e =>
    show (h.blocks h.next).bind _ = none
    rw [hnext]
    rfl
  | ok mem => exact passed_construct (h.afterFailure.emit _) _ _

/-! ## New blocks -/

variable {x : Ref V} {s s' : Mem V}

theorem dispose_of_passed {md : Managed} (h : md.passed = some o) : md.dispose = o.del.call o.ptr := by
  cases md with
  | countedDeleter | countedReference =>
    cases h
    rfl
  | countedPtr | countedInplace | countedOverwrite | countedArray => cases h

theorem deleter_of_passed {md : Managed} (h : md.passed = some o) : md.deleter = some (o.del, o.ptr) := by
  cases md with
  | countedDeleter | countedReference =>
    cases h
    rfl
  | countedPtr | countedInplace | countedOverwrite | countedArray => cases h

theorem UniquePtr.passed_counted (r : UniquePtr) (p : Ptr) (d : Deleter) :
    (r.counted p d).passed = some ⟨d, r.refDel, p⟩ := by
  obtain ⟨q, d', refDel⟩ := r
  cases refDel <;> rfl

/-- An array or an object that is made with its block has no deleter of the program's. -/
theorem passed_make {a : Source} {L : Layout} {form : Form L} {ini : Initial} {constEval : Bool} (hd : o.del.given)
    (hnext : h.blocks h.next = none) : (allocateShared E L constEval a form ini h).1 = .stop ∨
      (allocateShared E L constEval a form ini h).2.passed h.next ≠ some o := by
  have hb := allocateShared_builds E L constEval a form ini h
  have ht := tally_allocateShared (E := E) (p := o.ptr) L constEval a form ini hd hnext
  generalize allocateShared E L constEval a form ini h = r at hb ht
  cases hb with
  | stopped => exact .inl rfl
  | failed hc =>
    refine .inr ?_
    rw [Heap.passed, hc.blocks, hnext]
    simp
  | made hc hpi =>
    rename_i r h' new md c
    refine .inr fun hpass => ?_
    have ht := ht.resolve_left (by simp)
    rw [← hc.next] at hpass ht
    rw [passed_construct] at hpass
    have hlog : h'.log = h'.log ++ [] := (List.append_nil _).symm
    rw [tally_construct hlog rfl, hc.log, deleter_of_passed hpass] at ht
    simp only [Option.toList_some, List.count_cons_self, List.count_append, List.count_nil,
      Nat.add_zero] at ht
    omega

theorem passed_ctor (c : Construction) (hd : o.del.given) (hnext : s.heap.blocks s.heap.next = none) :
    (c.ctor E m x s).1 = .stop ∨
      ((c.ctor E m x s).2.heap.passed s.heap.next = some o ↔ c.passes E s.heap = some o) := by
  have hown : ∀ {q rc o'}, (rc s.heap).2.passed s.heap.next = o' → (ownCtor x q rc s).1 = .stop ∨
      ((ownCtor x q rc s).2.heap.passed s.heap.next = some o ↔ o' = some o) := fun {q rc o'} h =>
    (ownCtor_heap x q rc s).imp_right fun he => by rw [he, h]
  cases c with
  | raw arg =>
    cases arg with
    | ptr isArray q =>
      cases isArray with
      | false => exact hown (passed_ofPtr q hnext)
      | true => exact hown (passed_ofPtrDeleterAlloc q .arrayDelete .std hnext)
    | ptrDeleter q d' => exact hown (passed_ofPtrDeleterAlloc q d' .std hnext)
    | ptrDeleterAlloc q d' a => exact hown (passed_ofPtrDeleterAlloc q d' a hnext)
  | unique r =>
    rw [Construction.ctor, Construction.passes]
    have hnone : s.heap.passed s.heap.next = none := by rw [Heap.passed, hnext]; rfl
    rcases uniqueCtor_heap E m x s r with he | ⟨ha, he | he⟩ | ⟨d', mem, -, ha, he⟩
    · exact .inl he
    · exact .inr (by rw [he, ha, hnone]; simp)
    · refine .inr ?_
      rw [he, ha, show s.heap.afterFailure.passed s.heap.next = s.heap.passed s.heap.next from rfl, hnone]
      simp
    · have hpass : ((s.heap.afterConstruct .std mem (r.counted r.ptr d')).emit
          [.release .shared s.heap.next]).passed s.heap.next = some ⟨d', r.refDel, r.ptr⟩ :=
        (passed_construct (s.heap.afterFailure.emit _) _ _).trans (r.passed_counted _ _)
      exact .inr (by rw [he, ha, hpass]; rfl)
  | make a L form ini =>
    rcases makeCtor_heap x (allocateShared E L (m = .constEval) a form ini) s with he | ⟨hne, he⟩
    · exact .inl he
    · refine .inr ?_
      have hpass : (allocateShared E L (m = .constEval) a form ini s.heap).2.passed s.heap.next ≠ some o :=
        (passed_make hd hnext).resolve_left hne
      rw [Construction.ctor, he]
      exact iff_of_false hpass (Option.some_ne_none _).symm

/-! ## Operations -/

/-- From `h` to `h'` one block was made at most, with what is in `made`, as far as `o` goes. -/
structure Passed (o : Held) (made : Option Held) (h h' : Heap) : Prop where
  others : ∀ b, b ≠ h.next → h'.passed b = h.passed b
  new : h'.passed h.next = some o ↔ made = some o

theorem Passed.of_eq {h h' h'' : Heap} {made : Option Held} (hp : Passed o made h h') (he : h''.passed = h'.passed) :
    Passed o made h h'' := ⟨fun b hb => by rw [he, hp.others b hb], by rw [he]; exact hp.new⟩

theorem Passed.none {h h' : Heap} (hnext : h.blocks h.next = none) (he : h'.passed = h.passed) :
    Passed o none h h' :=
  ⟨fun b _ => by rw [he], iff_of_false (by rw [he, Heap.passed, hnext]; simp) (by simp)⟩

theorem ctor_passed (c : Construction) (hd : o.del.given) (hnext : s.heap.blocks s.heap.next = none) (x : Ref V) :
    (c.ctor E m x s).1 = .stop ∨ Passed o (c.passes E s.heap) s.heap (c.ctor E m x s).2.heap := by
  have hnew := passed_ctor (E := E) (m := m) (x := x) c hd hnext
  have hc := c.ctor_constructs E m x s
  generalize c.ctor E m x s = r at hnew hc
  cases hc with
  | stopped => exact .inl rfl
  | failed hc => exact hnew.imp_right fun hnew => ⟨fun b hb => by simp only [Heap.passed, hc.blocks], hnew⟩
  | empty => exact hnew.imp_right fun hnew => ⟨fun b hb => rfl, hnew⟩
  | made hx hc =>
    rename_i h' new copy md c q hcopy
    refine hnew.imp_right fun hnew => ⟨fun b hb => ?_, hnew⟩
    have hother := passed_construct_of_ne (h := h') (b := b) (by rwa [hc.next]) md c
    rw [show h'.passed b = s.heap.passed b by simp only [Heap.passed, hc.blocks]] at hother
    exact hother

theorem swapTemporary_passed {k : Kind} {make : Ref V → Prog (Mem V) Exn Unit} {made : Option Held}
    (hmake : (make (.inr .tmp) s).1 = .stop ∨ Passed o made s.heap (make (.inr .tmp) s).2.heap) :
    (swapTemporary m k make x s).1 = .stop ∨ Passed o made s.heap (swapTemporary m k make x s).2.heap := by
  have hrest : ∀ f, Keeps (Both (fun h => h.passed = f) fun _ => True)
      (Prog.atExit (swap k (.inr .tmp) x) (destroyObject m (.inr .tmp))) := fun f =>
    (swap_frame (W := fun _ => True) frameOf_true trivial trivial).atExit fun _ =>
      destroyObject_frame (W := fun _ => True) (steady_passed f) frameOf_true trivial
  rw [swapTemporary, Prog.bind_apply]
  cases hr : make (.inr .tmp) s with
  | mk r s' =>
    rw [hr] at hmake
    cases r with
    | ok => exact (hrest _ s' ⟨rfl, trivial⟩).imp_right fun h => (hmake.resolve_left (by simp)).of_eq h.1
    | throw => exact hmake
    | stop => exact .inl rfl

theorem exec_passed (op : Op V) (hd : o.del.given) (hnext : s.heap.blocks s.heap.next = none) : (exec E m op s).1 = .stop ∨
    Passed o ((AnyOp.plain op).passes E s.heap) s.heap (exec E m op s).2.heap := by
  cases hop : op.owns with
  | false =>
    have hk := exec_steady (E := E) (m := m) (steady_passed s.heap.passed) (W := fun _ => True) frameOf_true hop
      (fun _ _ => trivial) trivial s ⟨rfl, trivial⟩
    have hnone : (AnyOp.plain op).passes E s.heap = none := by
      cases op <;> first | rfl | cases hop
    rw [hnone]
    exact hk.imp_right fun h => .none hnext h.1
  | true =>
    cases op with
    | own x q d' => exact ctor_passed (m := m) (.raw (.ptrDeleter q (.user d'))) hd hnext _
    | resetOwn x q d' => exact swapTemporary_passed (ctor_passed (m := m) (.raw (.ptrDeleter q (.user d'))) hd hnext _)
    | _ => cases hop

theorem castOp_passed (op : CastOp V) (hd : o.del.given) (hnext : s.heap.blocks s.heap.next = none) :
    (op.exec E m s).1 = .stop ∨ Passed o (op.passes E s.heap) s.heap (op.exec E m s).2.heap := by
  cases op with
  | op op =>
    cases op with
    | plain op => exact exec_passed op hd hnext
    | construct x c => exact ctor_passed c hd hnext _
    | reset x arg =>
      rcases reset_cases E m (.inl x) arg s with he | he
      · exact .inl (by rw [CastOp.exec, AnyOp.exec, he])
      · rw [CastOp.exec, AnyOp.exec, he]
        exact swapTemporary_passed (ctor_passed (.raw arg) hd hnext _)
    | assignUnique x r =>
      rw [CastOp.exec, AnyOp.exec, uniqueAssign_eq]
      exact swapTemporary_passed (ctor_passed (.unique r) hd hnext _)
  | own c x r =>
    rcases get_cases .shared (.inl r) s with he | ⟨h, -, -, he⟩
    · exact .inl (by simp [CastOp.exec, Prog.bind_apply, he])
    · rw [CastOp.exec, Prog.bind_apply, he]
      exact ctor_passed (m := m) (.raw (.ptr false (c h.ptr))) hd hnext _
  | cast c moved x r =>
    have hplain : ∀ op : Op V, op.owns = false →
        Keeps (Both (fun h => h.passed = s.heap.passed) fun _ => True) (exec E m op) := fun op hop =>
      exec_steady (W := fun _ => True) (steady_passed _) frameOf_true hop (fun _ _ => trivial) trivial
    have hk : Keeps (Both (fun h => h.passed = s.heap.passed) fun _ => True) (c.exec m moved (.inl x) (.inl r)) := by
      rw [PointerCast.exec_eq]
      refine ifConstexpr_elim Keeps.stop ?_
      refine get_keeps.bind fun h => Keeps.ite (create_frame (W := fun _ => True) frameOf_true trivial _) ?_
      cases moved with
      | false => exact hplain (.aliasOf x r (c.apply h.ptr)) rfl
      | true => exact hplain (.aliasMove x r (c.apply h.ptr)) rfl
    exact (hk s ⟨rfl, trivial⟩).imp_right fun h => .none hnext h.1

/-! ## Whole programs -/

omit [DecidableEq V] in
theorem mem_stores {op : CastOp V} {b : Nat} :
    (b, o) ∈ op.stores E s ↔ b = s.heap.next ∧ op.passes E s.heap = some o := by
  rw [CastOp.stores, Option.mem_toList, Option.map_eq_some_iff]
  constructor
  · rintro ⟨o', ho', he⟩
    cases he
    exact ⟨rfl, ho'⟩
  · rintro ⟨rfl, ho'⟩
    exact ⟨_, ho', rfl⟩

/-- The list says in which blocks the deleter is. -/
theorem stored_iff [Fintype V] {ops : List (CastOp V)} (h : run (CastOp.step E m) Mem.empty ops = some s)
    (hd : o.del.given) (b : Nat) : (b, o) ∈ stored E m Mem.empty ops ↔ s.heap.passed b = some o := by
  have hstep : ∀ es s (op : CastOp V) t, (s.Holds BlocksOk ∧ ∀ b, (b, o) ∈ es ↔ s.heap.passed b = some o) →
      op.step E m s = some t →
        t.Holds BlocksOk ∧ ∀ b, (b, o) ∈ es ++ op.stores E s ↔ t.heap.passed b = some o := by
    rintro es s op t ⟨ok, hes⟩ hs
    have hnext : s.heap.blocks s.heap.next = none := ok.next_none
    have hpass := CastOp.of_step (P := fun t => Passed o (op.passes E s.heap) s.heap t.heap) hs
      (castOp_passed op hd hnext)
    refine ⟨CastOp.of_step hs (castOp_keeps op s ok), fun b => ?_⟩
    rw [List.mem_append, mem_stores, hes]
    by_cases hb : b = s.heap.next
    · subst hb
      rw [hpass.new, Heap.passed, hnext]
      simp
    · rw [hpass.others b hb]
      simp [hb]
  have hnil : (Mem.empty : Mem V).Holds BlocksOk ∧
      ∀ b, (b, o) ∈ ([] : List (Nat × Held)) ↔ (Mem.empty : Mem V).heap.passed b = some o :=
    ⟨holds_empty, fun b => by simp [Heap.passed, Mem.empty, Heap.empty]⟩
  exact (Lib.run_invariant_outputs hstep h hnil).2 b

/-- A block answers with what it keeps, if that is of the type. -/
theorem Managed.getDeleter_deleter (cls : Nat → DeleterType) (b : Nat) (D : DeleterType) (md : Managed) (r : Pointee) :
    md.getDeleter cls b (.deleter D) = some r ↔ ∃ o, md.passed = some o ∧ o.type cls = some D ∧ r = .deleter b := by
  cases md with
  | countedDeleter ptr del | countedReference ptr del =>
    cases hdel : del.type cls <;> simp [getDeleter, passed, Held.type, hdel, eq_comm (a := r)]
  | countedPtr | countedInplace | countedOverwrite | countedArray => simp [getDeleter, passed]

theorem countGetDeleter_deleter (cls : Nat → DeleterType) (pi : CountPtr) (D : DeleterType) (h : Heap) (r : Pointee) :
    countGetDeleter cls pi (.deleter D) h = some r ↔
      ∃ b o, pi = some b ∧ h.passed b = some o ∧ o.type cls = some D ∧ r = .deleter b := by
  cases pi with
  | none => simp [countGetDeleter]
  | some b =>
    cases hb : h.blocks b with
    | none => simp [countGetDeleter, Heap.passed, hb]
    | some blk => simp [countGetDeleter, Heap.passed, hb, Managed.getDeleter_deleter]

theorem Held.given_of_type {cls : Nat → DeleterType} {D : DeleterType} (h : o.type cls = some D) : o.del.given := by
  obtain ⟨d, byReference, p⟩ := o
  cases d with
  | elements => cases h
  | delete | arrayDelete | defaultDelete | user => rfl

/-- **`get_deleter` finds the deleter that was passed** when the block that `x` shares was made, if what the block
keeps is of the type asked for; it is called with its pointer when the block's last owner goes. -/
theorem getDeleter_finds [Fintype V] (E : Env) (m : Mode) (cls : Nat → DeleterType) (ops : List (CastOp V)) (s : Mem V)
    (x : V) (q : Ptr) (pi : CountPtr) (D : DeleterType) (h : run (CastOp.step E m) Mem.empty ops = some s)
    (hx : s.obj (.inl x) = some ⟨.shared, q, pi⟩) :
    ∃ res, getDeleter cls D (.inl x) s = (.ok res, s) ∧
      (∀ r, res = some r ↔ ∃ b o, pi = some b ∧ (b, o) ∈ stored E m Mem.empty ops ∧ o.type cls = some D ∧
        r = .deleter b) ∧
      ∀ b o, pi = some b → (b, o) ∈ stored E m Mem.empty ops → o.type cls = some D →
        s.heap.log.count (.dispose b) = 0 ∧
          ∀ ops' t, run (CastOp.step E m) s ops' = some t → t.owners .shared b = 0 →
            t.heap.log.count (.dispose b) = 1 ∧ [.dispose b, .deleter o.del o.ptr] <:+: t.heap.log := by
  refine ⟨countGetDeleter cls pi (.deleter D) s.heap, ?_, fun r => ?_, fun b o hpi hmem hD => ?_⟩
  · have hget : get .shared (.inl x) s = (.ok ⟨.shared, q, pi⟩, s) := by simp only [get, hx, if_true]
    rw [getDeleter, Prog.bind_apply, hget]
    simp only [Prog.bind_apply, Prog.read_apply]
    cases countGetDeleter cls pi (.deleter D) s.heap <;> rfl
  · rw [countGetDeleter_deleter]
    refine exists_congr fun b => exists_congr fun o => and_congr_right fun _ => ?_
    refine and_congr_left fun hr => ?_
    rw [stored_iff h (Held.given_of_type hr.1)]
  · have hgiven := Held.given_of_type hD
    have ok := run_called (d := o.del) (p := o.ptr) hgiven h Called.holds_empty
    have hpass := (stored_iff h hgiven b).mp hmem
    obtain ⟨blk, hb, hmd⟩ := Option.bind_eq_some_iff.mp hpass
    have hblk := ok.blocksOk.blocks b
    rw [hb] at hblk
    have hown : s.owners .shared b ≠ 0 := Mem.owners_ne_zero (h := ⟨.shared, q, pi⟩) hx hpi
    refine ⟨hblk.2.2.1.trans (if_neg hown), fun ops' t ht h₀ => ?_⟩
    have hall : run (CastOp.step E m) Mem.empty (ops ++ ops') = some t := Lib.run_append.mpr ⟨s, h, ht⟩
    have ok' := run_called (d := o.del) (p := o.ptr) hgiven hall Called.holds_empty
    have hmem' : (b, o) ∈ stored E m Mem.empty (ops ++ ops') := by
      rw [stored, Lib.outputs_append h]
      exact List.mem_append_left _ hmem
    obtain ⟨blk', hb', hmd'⟩ := Option.bind_eq_some_iff.mp ((stored_iff hall hgiven b).mp hmem')
    have hblk' := ok'.blocksOk.blocks b
    rw [hb'] at hblk'
    refine ⟨hblk'.2.2.1.trans (if_pos h₀), List.IsInfix.trans ?_ (ok'.disposed b blk' hb' h₀)⟩
    rw [dispose_of_passed hmd']
    exact ⟨[], _, rfl⟩

/-- A `unique_ptr` that refers to its deleter gives its pointer away, and the handle is cast: it is a
`reference_wrapper` that is found, not the deleter; and the deleter is called once all are gone. -/
theorem getDeleter_finds_cast :
    let m := Mode.defaultPolicy
    let ops : List (CastOp (Fin 2)) :=
      [.op (.construct 0 (.unique ⟨some 8, some (.user 5), true⟩)), .cast (.static (·.map (· + 16))) true 1 0]
    let s := (run (CastOp.step pages m) Mem.empty ops).getD Mem.empty
    let t := (run (CastOp.step pages m) s [.op (.plain (.destroy 1))]).getD s
    getDeleter .user (.referenceWrapper (.user 5)) (.inl 1) s = (.ok (some (.deleter 0)), s) ∧
      getDeleter .user (.user 5) (.inl 1) s = (.ok none, s) ∧
      [.dispose 0, .deleter (.user 5) (some 8)] <:+: t.heap.log := by
  intro m ops s t
  have hs : run (CastOp.step pages m) Mem.empty ops = some s := Lib.run_getD (by decide) _
  have ht : run (CastOp.step pages m) s [.op (.plain (.destroy 1))] = some t := Lib.run_getD (by decide) _
  have hmem : (0, ⟨.user 5, true, some 8⟩) ∈ stored pages m Mem.empty ops := by decide
  obtain ⟨res, hget, hres, hcalled⟩ := getDeleter_finds pages m .user ops s 1 (some 24) (some 0)
    (.referenceWrapper (.user 5)) hs rfl
  obtain rfl := (hres (.deleter 0)).mpr ⟨0, _, rfl, hmem, rfl, rfl⟩
  exact ⟨hget, rfl, ((hcalled 0 _ rfl hmem rfl).2 _ t ht (by decide)).2⟩

end

end SharedPtr.Seq
