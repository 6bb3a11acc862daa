/-
What no function of the header can end. A property of the heap that is kept
by the few steps all functions are made of (`Stable`) is kept by the functions,
and so by runs (`run_stable`): a control block remains the one it is
(`stable_isBlock`), and nothing is taken out of the log (`stable_log`). Beside
it, objects that a function does not name are as they were (`exec_frame`).
-/
import SharedPtr.Program

namespace SharedPtr.Seq

open Lib (Prog Result run)
open Lib.Prog (Keeps)

/-- A property that the counting functions and the calls out of the header keep. -/
structure Steady (I : Heap → Prop) : Prop where
  emit : ∀ {h : Heap} (es : List Event), I h → I (h.emit es)
  asked : ∀ {h : Heap} (a c : Nat), I h → I { h with allocations := a, constructions := c }
  setCounts : ∀ {h : Heap} {b : Nat} {blk : Block} (c : Counts), h.blocks b = some blk → I h → I (h.setCounts b blk c)

/-- A property that the steps of the functions keep. -/
structure Stable (I : Heap → Prop) : Prop extends Steady I where
  construct : ∀ {h : Heap} (md : Managed) (c : Chunk), I h → I (h.construct md c).2

/-- The block named `b` has these members, and this storage. -/
def IsBlock (b : Nat) (md : Managed) (c : Chunk) (h : Heap) : Prop :=
  b < h.next ∧ ∃ counts, h.blocks b = some ⟨counts, md, c⟩

theorem stable_isBlock (b : Nat) (md : Managed) (c : Chunk) : Stable (IsBlock b md c) where
  emit _ hI := hI
  asked _ _ hI := hI
  setCounts := by
    rintro h b' blk cts hb ⟨hlt, counts, hcounts⟩
    refine ⟨hlt, ?_⟩
    by_cases hbb : b = b'
    · subst hbb
      rw [hb] at hcounts
      cases hcounts
      exact ⟨cts, by simp [Heap.setCounts]⟩
    · exact ⟨counts, by rw [← hcounts]; exact Function.update_of_ne hbb ..⟩
  construct := by
    rintro h md' c' ⟨hlt, counts, hcounts⟩
    refine ⟨Nat.lt_succ_of_lt hlt, counts, ?_⟩
    rw [← hcounts]
    exact Function.update_of_ne (Nat.ne_of_lt hlt) ..

theorem stable_log (log : List Event) : Stable fun h => log <+: h.log where
  emit es hI := hI.trans (List.prefix_append _ es)
  asked _ _ hI := hI
  setCounts _ _ hI := hI
  construct _ _ hI := hI

theorem stable_true : Stable fun _ => True where
  emit _ _ := trivial
  asked _ _ _ := trivial
  setCounts _ _ _ := trivial
  construct _ _ _ := trivial

variable {I : Heap → Prop} {E : Env} {m : Mode} {k : Kind}

/-! ## Counts -/

namespace Steady

theorem release (hI : Steady I) {h : Heap} (b : Nat) (h₀ : I h) : I (Seq.release m k b h) := by
  unfold Seq.release
  split
  next => exact h₀
  next blk hb => exact hI.emit _ (hI.setCounts _ hb h₀)

theorem dropCount (hI : Steady I) {h : Heap} (pi : CountPtr) (h₀ : I h) : I (Seq.dropCount m k pi h) := by
  cases pi with
  | none => exact h₀
  | some b => exact hI.release b h₀

theorem addRef (hI : Steady I) (b : Nat) : Keeps I (addRef m k b) := by
  intro h h₀
  unfold Seq.addRef
  split
  next => exact .inl rfl
  next blk hb =>
    split
    next => exact .inl rfl
    next => exact .inr (hI.setCounts _ hb h₀)

theorem addRefLockNothrow (hI : Steady I) (b : Nat) : Keeps I (addRefLockNothrow m b) := by
  intro h h₀
  unfold Seq.addRefLockNothrow
  split
  next => exact .inl rfl
  next blk hb =>
    split
    next => exact .inl rfl
    next => exact .inr (hI.setCounts _ hb h₀)

theorem copyCount (hI : Steady I) (r : CountPtr) : Keeps I (copyCount m k r) := by
  cases r with
  | none => exact Keeps.pure none
  | some b => exact (hI.addRef b).bind fun _ => Keeps.pure _

theorem replaceCount (hI : Steady I) (pi r : CountPtr) : Keeps I (replaceCount m k pi r) :=
  (hI.copyCount r).bind fun tmp =>
    Keeps.bind (fun _ h₀ => .inr (hI.dropCount pi h₀)) fun _ => Keeps.pure tmp

theorem assignCount (hI : Steady I) (pi r : CountPtr) : Keeps I (assignCount m k pi r) := by
  cases k with
  | weak => exact hI.replaceCount pi r
  | shared =>
    by_cases hne : r ≠ pi
    · rw [show Seq.assignCount m .shared pi r = Seq.replaceCount m .shared pi r from if_pos hne]
      exact hI.replaceCount pi r
    · rw [show Seq.assignCount m .shared pi r = pure pi from if_neg hne]
      exact Keeps.pure pi

theorem countOfWeak (hI : Steady I) (r : CountPtr) : Keeps I (countOfWeak m r) := by
  have hthrow : Keeps I (throwBadWeakPtr m : Prog Heap Exn CountPtr) := ifConstexpr_elim Keeps.stop (Keeps.throw _)
  cases r with
  | none => exact hthrow
  | some b =>
    refine (hI.addRefLockNothrow b).bind ?_
    intro ok
    cases ok with
    | true => exact Keeps.pure _
    | false => exact hthrow

theorem countOfWeakNothrow (hI : Steady I) (r : CountPtr) : Keeps I (countOfWeakNothrow m r) := by
  cases r with
  | none => exact Keeps.pure none
  | some b =>
    refine (hI.addRefLockNothrow b).bind ?_
    intro ok
    cases ok with
    | true => exact Keeps.pure _
    | false => exact Keeps.pure _

theorem afterFailure (hI : Steady I) {h : Heap} (h₀ : I h) : I h.afterFailure :=
  hI.asked (h.allocations + 1) h.constructions h₀

end Steady

namespace Stable

theorem afterConstruct (hI : Stable I) {h : Heap} (source : Source) (mem : Ptr) (md : Managed) (h₀ : I h) :
    I (h.afterConstruct source mem md) :=
  hI.construct _ _ (hI.emit _ (hI.afterFailure h₀))

theorem ofPtrDeleterAlloc (hI : Stable I) (p : Ptr) (d : Deleter) (a : Source) :
    Keeps I (SharedCount.ofPtrDeleterAlloc E p d a) := by
  intro h h₀
  rw [SharedCount.ofPtrDeleterAlloc_apply]
  cases E.allocate h.allocations with
  | error e => exact .inr (hI.emit _ (hI.afterFailure h₀))
  | ok mem => exact .inr (hI.afterConstruct a mem _ h₀)

end Stable

/-! ## Objects -/

variable {V : Type} [DecidableEq V] {x r : Ref V} {kr : Kind} {p : Ptr}

/-- The property, of a state. -/
abbrev atHeap (I : Heap → Prop) (s : Mem V) : Prop := I s.heap

/-- A property of the objects that no change of the objects in `W` can end. -/
def FrameOf (Q : (Ref V → Option Handle) → Prop) (W : Ref V → Prop) : Prop :=
  ∀ obj x o, W x → Q obj → Q (Function.update obj x o)

/-- A property of the heap, and one of the objects. -/
def Both (I : Heap → Prop) (Q : (Ref V → Option Handle) → Prop) (s : Mem V) : Prop := I s.heap ∧ Q s.obj

theorem frameOf_true {W : Ref V → Prop} : FrameOf (fun _ => True) W := fun _ _ _ _ h => h

/-- Other objects change. -/
theorem frameOf_object (y : Ref V) (o : Option Handle) : FrameOf (fun obj => obj y = o) (· ≠ y) :=
  fun _ _ _ hne h => (Function.update_of_ne (Ne.symm hne) ..).trans h

section

variable {Q : (Ref V → Option Handle) → Prop} {W : Ref V → Prop}

omit [DecidableEq V] in
/-- A program that only reads. -/
theorem get_keeps {P : Mem V → Prop} : Keeps P (get k x) := by
  intro s h₀
  rcases get_cases k x s with he | ⟨h, -, -, he⟩
  · exact .inl (by rw [he])
  · exact .inr (by rw [he]; exact h₀)

theorem put_frame (hQ : FrameOf Q W) (hx : W x) (h : Handle) : Keeps (Both I Q) (put x h) :=
  fun _ h₀ => .inr ⟨h₀.1, hQ _ _ _ hx h₀.2⟩

theorem create_frame (hQ : FrameOf Q W) (hx : W x) (h : Handle) : Keeps (Both I Q) (create x h) := by
  intro s h₀
  rcases create_cases x h s with he | ⟨-, he⟩
  · exact .inl (by rw [he])
  · exact .inr (by rw [he]; exact ⟨h₀.1, hQ _ _ _ hx h₀.2⟩)

omit [DecidableEq V] in
theorem onHeap_frame {α : Type} {c : Prog Heap Exn α} (hc : Keeps I c) : Keeps (Both I Q) (onHeap c) :=
  fun s h₀ => (hc s.heap h₀.1).imp_right fun h => ⟨h, h₀.2⟩

theorem destroyObject_frame (hI : Steady I) (hQ : FrameOf Q W) (hx : W x) {s : Mem V} (h₀ : Both I Q s) :
    Both I Q (destroyObject m x s) := by
  unfold destroyObject
  split
  · exact h₀
  · exact ⟨hI.dropCount _ h₀.1, hQ _ _ _ hx h₀.2⟩

theorem swap_frame (hQ : FrameOf Q W) {y : Ref V} (hx : W x) (hy : W y) : Keeps (Both I Q) (swap k x y) :=
  get_keeps.bind fun _ => get_keeps.bind fun _ => (put_frame hQ hx _).bind fun _ => put_frame hQ hy _

theorem swapTemporary_frame (hI : Steady I) (hQ : FrameOf Q W) (htmp : W (.inr .tmp)) (hx : W x)
    {make : Ref V → Prog (Mem V) Exn Unit} (hmake : Keeps (Both I Q) (make (.inr .tmp))) :
    Keeps (Both I Q) (swapTemporary m k make x) :=
  hmake.bind fun _ => (swap_frame hQ htmp hx).atExit fun _ => destroyObject_frame hI hQ htmp

theorem moveCtor_frame (hQ : FrameOf Q W) (hx : W x) (hr : W r) : Keeps (Both I Q) (moveCtor k x r) :=
  get_keeps.bind fun h => (create_frame hQ hx h).bind fun _ => put_frame hQ hr _

theorem copyCtor_frame (hI : Steady I) (hQ : FrameOf Q W) (hx : W x) : Keeps (Both I Q) (copyCtor m k x kr r) :=
  get_keeps.bind fun h => (onHeap_frame (hI.copyCount h.pi)).bind fun _ => create_frame hQ hx _

theorem copyAssign_frame (hI : Steady I) (hQ : FrameOf Q W) (hx : W x) : Keeps (Both I Q) (copyAssign m k x kr r) :=
  get_keeps.bind fun _ => get_keeps.bind fun t => (put_frame hQ hx _).bind fun _ => get_keeps.bind fun h =>
    (onHeap_frame (hI.assignCount t.pi h.pi)).bind fun _ => put_frame hQ hx _

theorem ownCtor_frame (hQ : FrameOf Q W) (hx : W x) {rc : Prog Heap Exn CountPtr} (hrc : Keeps I rc) :
    Keeps (Both I Q) (ownCtor x p rc) :=
  (onHeap_frame hrc).bind fun _ => create_frame hQ hx _

end

/-! ## Programs -/

/-- The objects that an operation makes, ends or changes. -/
def Op.changes {V : Type} : Op V → List V
  | .default _ x | .own x _ _ | .copy _ x _ | .weaken x _ | .aliasOf x _ _ | .convert x _ | .lock x _
  | .assign _ x _ | .assignShared x _ | .reset _ x | .resetOwn x _ _ | .destroy x => [x]
  | .move _ x r | .aliasMove x r _ | .moveAssign _ x r | .weakMoveAssignFrom x r | .swap _ x r => [x, r]

/-- The operations that make a control block. -/
def Op.owns {V : Type} : Op V → Bool
  | .own .. | .resetOwn .. => true
  | _ => false

theorem exec_steady (hI : Steady I) {Q : (Ref V → Option Handle) → Prop} {W : Ref V → Prop} (hQ : FrameOf Q W) {op : Op V}
    (hop : op.owns = false) (hW : ∀ x ∈ op.changes, W (.inl x)) (htmp : W (.inr .tmp)) :
    Keeps (Both I Q) (exec E m op) := by
  cases op <;> simp only [Op.changes, List.mem_cons, List.not_mem_nil, or_false, forall_eq_or_imp, forall_eq] at hW
  case own | resetOwn => cases hop
  case default => exact create_frame hQ hW _
  case copy | weaken => exact copyCtor_frame hI hQ hW
  case aliasOf =>
    exact get_keeps.bind fun h => (onHeap_frame (hI.copyCount h.pi)).bind fun _ => create_frame hQ hW _
  case move => exact moveCtor_frame hQ hW.1 hW.2
  case aliasMove => exact get_keeps.bind fun _ => (create_frame hQ hW.1 _).bind fun _ => put_frame hQ hW.2 _
  case convert =>
    exact get_keeps.bind fun h => (onHeap_frame (hI.countOfWeak h.pi)).bind fun _ => create_frame hQ hW _
  case lock =>
    exact get_keeps.bind fun h => (onHeap_frame (hI.countOfWeakNothrow h.pi)).bind fun _ =>
      Keeps.bind (fun _ h₀ => .inr h₀) fun _ => create_frame hQ hW _
  case assign | assignShared => exact copyAssign_frame hI hQ hW
  case moveAssign =>
    exact ifConstexpr_elim Keeps.stop (swapTemporary_frame hI hQ htmp hW.1 (moveCtor_frame hQ htmp hW.2))
  case weakMoveAssignFrom =>
    exact get_keeps.bind fun _ => get_keeps.bind fun t => (put_frame hQ hW.1 _).bind fun _ =>
      (onHeap_frame fun _ h₀ => .inr (hI.dropCount t.pi h₀)).bind fun _ =>
        (put_frame hQ hW.1 _).bind fun _ => put_frame hQ hW.2 _
  case swap => exact swap_frame hQ hW.1 hW.2
  case reset => exact swapTemporary_frame hI hQ htmp hW (create_frame hQ htmp _)
  case destroy => exact fun _ h₀ => .inr (destroyObject_frame hI hQ hW h₀)

theorem exec_frame (hI : Stable I) {Q : (Ref V → Option Handle) → Prop} {W : Ref V → Prop} (hQ : FrameOf Q W) (op : Op V)
    (hW : ∀ x ∈ op.changes, W (.inl x)) (htmp : W (.inr .tmp)) : Keeps (Both I Q) (exec E m op) := by
  have hown : ∀ p d, Keeps I (SharedCount.ofPtrDeleter E p d) := fun p d => hI.ofPtrDeleterAlloc p d .std
  cases hop : op.owns with
  | false => exact exec_steady hI.toSteady hQ hop hW htmp
  | true =>
    cases op with
    | own x p d => exact ownCtor_frame hQ (hW x (List.mem_singleton_self x)) (hown p _)
    | resetOwn x p d =>
      exact swapTemporary_frame hI.toSteady hQ htmp (hW x (List.mem_singleton_self x)) (ownCtor_frame hQ htmp (hown p _))
    | _ => cases hop

theorem exec_stable (hI : Stable I) (op : Op V) : Keeps (atHeap I) (exec E m op) := fun s h₀ =>
  (exec_frame (E := E) (m := m) hI frameOf_true (W := fun _ => True) op (fun _ _ => trivial) trivial s
    ⟨h₀, trivial⟩).imp_right And.left

theorem step_stable (hI : Stable I) {s s' : Mem V} {op : Op V} (h : step E m s op = some s') (h₀ : I s.heap) :
    I s'.heap := by
  have hk := exec_stable (E := E) (m := m) hI op s h₀
  unfold step at h
  split at h
  next => cases h
  next r u hr he =>
    cases h
    rw [he] at hk
    exact hk.resolve_left hr

/-- What holds of the heap once holds to the end of the run. -/
theorem run_stable (hI : Stable I) {s s' : Mem V} {ops : List (Op V)} (h : run (step E m) s ops = some s')
    (h₀ : I s.heap) : I s'.heap :=
  Lib.run_invariant (I := atHeap I) (fun _ _ _ h₀ h => step_stable hI h h₀) h h₀

end SharedPtr.Seq
