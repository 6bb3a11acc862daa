/-
Programs that take ownership in all the ways there are: by the constructors
from a pointer and from a `unique_ptr`, by `reset` and by assignment, and by
`allocate_shared`, of an object or an array.

Whatever a construction does, it ends in one of four ways (`Constructs`): it
has no result; it throws, with objects and blocks as they were; it makes an
empty shared pointer, of a null `unique_ptr`; or the new shared pointer is the
one owner of a new block. So one lemma for each construction is all that an
invariant of programs needs of it (`anyOp_keeps`, `anyOp_frame`).
-/
import SharedPtr.Taking
import SharedPtr.SharedArray

namespace SharedPtr.Seq

open Lib (Prog Result run)
open Lib.Prog (Keeps)

/-- The arguments of a construction that takes ownership: of a constructor from
a pointer or a `unique_ptr`, or of `allocate_shared`. -/
inductive Construction
  | raw (arg : Raw)
  | unique (r : UniquePtr)
  | make (a : Source) (L : Layout) (form : Form L) (ini : Initial)

variable {V : Type} [DecidableEq V]

/-- A call with the `unique_ptr` `r` as its argument. -/
def withUnique (r : UniquePtr) (c : Prog (Mem V × UniquePtr) Exn Unit) : Prog (Mem V) Exn Unit := fun s =>
  let t := c (s, r)
  (t.1, t.2.1)

section

variable (E : Env) (m : Mode)

/-- The construction of the shared pointer `x`. -/
def Construction.ctor (x : Ref V) : Construction → Prog (Mem V) Exn Unit
  | raw arg => arg.ctor E x
  | unique r => withUnique r (uniqueCtor E m x)
  | make a L form ini => makeCtor x (allocateShared E L (m = .constEval) a form ini)

inductive AnyOp (V : Type)
  | plain (op : Op V)
  /-- `shared_ptr<T> x(...);` or `shared_ptr<T> x = allocate_shared<T>(...);` -/
  | construct (x : V) (c : Construction)
  /-- `x.reset(...);` -/
  | reset (x : V) (arg : Raw)
  /-- `x = std::move(r);` for a `unique_ptr` `r` -/
  | assignUnique (x : V) (r : UniquePtr)

def AnyOp.exec : AnyOp V → Prog (Mem V) Exn Unit
  | plain op => Seq.exec E m op
  | construct x c => c.ctor E m (.inl x)
  | reset x arg => arg.reset E m (.inl x)
  | assignUnique x r => withUnique r (uniqueAssign E m (.inl x))

/-- The state after an operation that ends. -/
def AnyOp.step (s : Mem V) (op : AnyOp V) : Option (Mem V) :=
  match op.exec E m s with
  | (.stop, _) => none
  | (_, s') => some s'

end

/-- The objects that an operation makes, ends or changes. -/
def AnyOp.changes {V : Type} : AnyOp V → List V
  | plain op => op.changes
  | construct x _ | reset x _ | assignUnique x _ => [x]

/-! ## Calls out of the header -/

/-- A call of a counting function, or one that it makes. -/
def Event.ofCounts : Event → Bool
  | .release .. | .dispose _ | .destroy _ => true
  | _ => false

/-- Only allocators, constructors and deleters were called. -/
structure CallsOut (h h' : Heap) (new : List Event) : Prop where
  blocks : h'.blocks = h.blocks
  next : h'.next = h.next
  log : h'.log = h.log ++ new
  calm : ∀ e ∈ new, e.ofCounts = false

theorem calm_of_ofDispose {es : List Event} (h : ∀ e ∈ es, e.ofDispose) : ∀ e ∈ es, e.ofCounts = false := by
  intro e he
  have hd := h e he
  cases e <;> first | rfl | cases hd

theorem calm_elementEvents {c : Chunk} {via : Option Source} {init : Nat → Init} {p : Ptr} {B : Built} :
    ∀ e ∈ elementEvents c via init p B, e.ofCounts = false := by
  intro e he
  rcases List.mem_cons.mp he with rfl | he
  · rfl
  · have hb := mem_buildEvents he
    cases e <;> first | rfl | cases hb

theorem calm_append {es es' : List Event} (h : ∀ e ∈ es, e.ofCounts = false) (h' : ∀ e ∈ es', e.ofCounts = false) :
    ∀ e ∈ es ++ es', e.ofCounts = false := fun e he =>
  (List.mem_append.mp he).elim (h e) (h' e)

theorem CallsOut.quiet {h h' : Heap} {new : List Event} (hc : CallsOut h h' new) : Quiet new := by
  intro b
  constructor <;>
  · rw [List.count_eq_zero]
    intro he
    cases hc.calm _ he

theorem CallsOut.blocksOk {own : Owners} {h h' : Heap} {new : List Event} (hc : CallsOut h h' new)
    (ok : BlocksOk own h) : BlocksOk own h' := ok.quiet hc.blocks hc.next hc.log hc.quiet

theorem Stable.callsOut {I : Heap → Prop} (hI : Stable I) {h h' : Heap} {new : List Event} (hc : CallsOut h h' new)
    (h₀ : I h) : I h' := by
  obtain ⟨blocks, next, a, c, log⟩ := h'
  obtain ⟨hblocks, hnext, hlog, -⟩ := hc
  obtain rfl : blocks = h.blocks := hblocks
  obtain rfl : next = h.next := hnext
  obtain rfl : log = h.log ++ new := hlog
  exact hI.emit new (hI.asked a c h₀)

/-! ## One block at most -/

/-- How a program that makes a control block ends; `pi` says which it is. -/
inductive Builds {α : Type} (pi : α → CountPtr) (h : Heap) : Result Exn α × Heap → Prop
  | failed {e : Exn} {h' : Heap} {new : List Event} : CallsOut h h' new → Builds pi h (.throw e, h')
  | stopped {h' : Heap} : Builds pi h (.stop, h')
  | made {r : α} {h' : Heap} {new : List Event} {md : Managed} {c : Chunk} : CallsOut h h' new → pi r = some h.next →
      Builds pi h (.ok r, (h'.construct md c).2)

theorem ofPtrDeleterAlloc_builds (E : Env) (p : Ptr) (d : Deleter) (a : Source) (h : Heap) :
    Builds id h (SharedCount.ofPtrDeleterAlloc E p d a h) := by
  rw [SharedCount.ofPtrDeleterAlloc_apply]
  cases E.allocate h.allocations with
  | error e => exact .failed ⟨rfl, rfl, rfl, calm_of_ofDispose fun e he => Deleter.mem_call he⟩
  | ok mem => exact .made ⟨rfl, rfl, rfl, by simp [Event.ofCounts]⟩ rfl

theorem ofPtr_builds (E : Env) (p : Ptr) (h : Heap) : Builds id h (SharedCount.ofPtr E p h) := by
  rw [SharedCount.ofPtr_apply]
  cases E.allocate h.allocations with
  | error e => exact .failed ⟨rfl, rfl, rfl, calm_of_ofDispose fun e he => Deleter.mem_call he⟩
  | ok mem => exact .made ⟨rfl, rfl, rfl, by simp [Event.ofCounts]⟩ rfl

/-- What follows the elements. -/
theorem callsOut_afterElements {h h' : Heap} {c : Chunk} {via : Option Source} {init : Nat → Init} {p : Ptr} {B : Built}
    {l : List Event} (hblocks : h'.blocks = h.blocks) (hnext : h'.next = h.next)
    (hlog : h'.log = (h.afterElements c via init p B).log ++ l) (hl : ∀ e ∈ l, e.ofCounts = false) :
    CallsOut h h' (elementEvents c via init p B ++ l) :=
  ⟨hblocks, hnext, by rw [hlog, Heap.afterElements_log, List.append_assoc], calm_append calm_elementEvents hl⟩

theorem cest_builds (E : Env) (a : Source) (n : Nat) (init : Init) (h : Heap) :
    Builds Prod.snd h (cestAllocateShared E a n init h) := by
  have hcall : ∀ i p, ∀ e ∈ (Deleter.elements a i n).call p, e.ofCounts = false := fun _ _ =>
    calm_of_ofDispose fun _ he => Deleter.mem_call he
  rw [cestAllocateShared_apply]
  cases E.allocate h.allocations with
  | error e => exact .failed ⟨rfl, rfl, rfl, hcall _ _⟩
  | ok p =>
    simp only
    cases (E.build (fun _ => init) h.constructions 0 n).failure with
    | some e => exact .failed (callsOut_afterElements rfl rfl rfl (hcall _ _))
    | none =>
      cases E.allocate (h.allocations + 1) with
      | error e => exact .failed (callsOut_afterElements rfl rfl rfl (hcall _ _))
      | ok mem =>
        exact .made (callsOut_afterElements rfl rfl rfl
          (l := [.allocate ⟨a, .controlBlock, mem, 1⟩]) (by simp [Event.ofCounts])) rfl

theorem ofAllocShared_builds (E : Env) (L : Layout) (a : Source) (ini : Initial) (h : Heap) :
    Builds Prod.snd h (SharedCount.ofAllocShared E L a ini h) := by
  rw [ofAllocShared_apply]
  cases E.allocate h.allocations with
  | error e => exact .failed ⟨rfl, rfl, (List.append_nil _).symm, nofun⟩
  | ok mem =>
    simp only
    cases (E.build (fun _ => ini.init) h.constructions 0 1).failure with
    | some e =>
      cases mem with
      | none => exact .failed (callsOut_afterElements rfl rfl (List.append_nil _).symm nofun)
      | some p =>
        exact .failed (callsOut_afterElements rfl rfl rfl (l := [.deallocate ⟨a, .controlBlock, some p, 1⟩])
          (by simp [Event.ofCounts]))
    | none => exact .made (callsOut_afterElements rfl rfl (List.append_nil _).symm nofun) rfl

theorem allocateSharedArray_builds (E : Env) (L : Layout) (a : Source) (shape : ArrayShape L) (ini : Initial)
    (h : Heap) : Builds Prod.snd h (allocateSharedArray E L a shape ini h) := by
  by_cases hlt : shape.count < 2 ^ 64
  · cases hp : E.allocate h.allocations with
    | error e =>
      rw [allocateSharedArray_apply, if_pos hlt, ofCountedArray_apply _ _ rfl, hp]
      exact .failed ⟨rfl, rfl, (List.append_nil _).symm, nofun⟩
    | ok p =>
      rw [allocateSharedArray_of_allocate hlt hp]
      simp only
      cases (shape.build E ini h).failure with
      | some e =>
        have hrange : ∀ e ∈ destroyRange (ini.via a) p (shape.build E ini h).values.length, e.ofCounts = false :=
          calm_of_ofDispose fun e he => mem_destroyRange he
        simp only [SharedCount.dropArray]
        split
        · exact .failed (callsOut_afterElements rfl rfl (List.append_assoc ..)
            (calm_append hrange (by simp [Event.ofCounts])))
        · exact .failed (callsOut_afterElements rfl rfl rfl hrange)
      | none =>
        cases p.bind (SharedCount.blockAddress L (BitVec.ofNat 64 shape.count)) with
        | none => exact .stopped
        | some self => exact .made (callsOut_afterElements rfl rfl (List.append_nil _).symm nofun) rfl
  · rw [allocateSharedArray_apply, if_neg hlt]
    exact .stopped

theorem allocateShared_builds (E : Env) (L : Layout) (constEval : Bool) (a : Source) (form : Form L) (ini : Initial)
    (h : Heap) : Builds Prod.snd h (allocateShared E L constEval a form ini h) := by
  unfold allocateShared
  split
  · exact cest_builds ..
  · cases form with
    | single => exact ofAllocShared_builds ..
    | array shape => exact allocateSharedArray_builds ..

/-! ## One owner at most -/

/-- How the construction of the shared pointer `x` ends. -/
inductive Constructs (x : Ref V) (s : Mem V) : Result Exn Unit × Mem V → Prop
  | failed {e : Exn} {h' : Heap} {new : List Event} : CallsOut s.heap h' new →
      Constructs x s (.throw e, { s with heap := h' })
  | stopped {s' : Mem V} : Constructs x s (.stop, s')
  | empty : s.obj x = none → Constructs x s (.ok (), s.set x (some ⟨.shared, none, none⟩))
  /-- The constructor from a `unique_ptr` releases a count once, `copy`. -/
  | made {h' : Heap} {new copy : List Event} {md : Managed} {c : Chunk} {p : Ptr} : s.obj x = none →
      CallsOut s.heap h' new → (∀ e ∈ copy, e = .release .shared s.heap.next) →
      Constructs x s
        (.ok (), { s with heap := (h'.construct md c).2.emit copy }.set x (some ⟨.shared, p, some s.heap.next⟩))

variable {x : Ref V} {s : Mem V}

theorem makeCtor_constructs {rc : Prog Heap Exn (Ptr × CountPtr)} (hrc : Builds Prod.snd s.heap (rc s.heap)) :
    Constructs x s (makeCtor x rc s) := by
  rw [makeCtor, Prog.bind_apply, onHeap]
  cases hr : rc s.heap with
  | mk r h₁ =>
    rw [hr] at hrc
    cases hrc with
    | failed hc => exact .failed hc
    | stopped => exact .stopped
    | made hc hpi =>
      rename_i made h' new md c
      obtain ⟨p, pi⟩ := made
      obtain rfl : pi = some s.heap.next := hpi
      obtain he | ⟨hx, he⟩ := create_cases x ⟨.shared, p, some s.heap.next⟩ { s with heap := (h'.construct md c).2 }
      · simp only [he]
        exact .stopped
      · simp only [he]
        have hm : Constructs x s (.ok (), { s with heap := (h'.construct md c).2.emit [] }.set x
          (some ⟨.shared, p, some s.heap.next⟩)) := .made hx hc (by simp)
        rwa [show (h'.construct md c).2.emit [] = (h'.construct md c).2 by simp [Heap.emit]] at hm

theorem ownCtor_constructs {p : Ptr} {rc : Prog Heap Exn CountPtr} (hrc : Builds id s.heap (rc s.heap)) :
    Constructs x s (ownCtor x p rc s) := by
  have hmake : ownCtor x p rc s = makeCtor x (do let pi ← rc; pure (p, pi)) s := by
    simp only [ownCtor, makeCtor, Prog.bind_apply, onHeap]
    cases rc s.heap with
    | mk r h => cases r <;> rfl
  rw [hmake]
  refine makeCtor_constructs ?_
  rw [Prog.bind_apply]
  cases hr : rc s.heap with
  | mk r h =>
    rw [hr] at hrc
    cases hrc with
    | failed hc => exact .failed hc
    | stopped => exact .stopped
    | made hc hpi => exact .made hc hpi

theorem uniqueCtor_constructs (E : Env) (m : Mode) (r : UniquePtr) :
    Constructs x s (withUnique r (uniqueCtor E m x) s) := by
  by_cases hp : r.ptr = none
  · have hnull : uniqueCtor E m x (s, r) = inMem (create x ⟨.shared, none, none⟩) (s, r) := by
      simp [uniqueCtor, Prog.bind_apply, ofUniqueIn, SharedCount.ofUnique_apply, hp, inMem, Prog.outer, onHeap,
        dropCount, assignCount]
    rw [withUnique, hnull, inMem, Prog.outer]
    rcases create_cases x ⟨.shared, none, none⟩ s with he | ⟨hx, he⟩
    · simp only [he]
      exact .stopped
    · simp only [he]
      exact .empty hx
  · cases he : E.allocate s.heap.allocations with
    | error e =>
      have hthrow : uniqueCtor E m x (s, r) = (.throw e, ({ s with heap := s.heap.afterFailure }, r)) := by
        simp [uniqueCtor, Prog.bind_apply, ofUniqueIn, SharedCount.ofUnique_apply, hp, he]
      rw [withUnique, hthrow]
      exact .failed ⟨rfl, rfl, (List.append_nil _).symm, by simp⟩
    | ok mem =>
      cases hd : r.del with
      | none =>
        have hstop : (uniqueCtor E m x (s, r)).1 = .stop := by
          simp [uniqueCtor, Prog.bind_apply, ofUniqueIn, SharedCount.ofUnique_apply, hp, he, hd]
        rw [withUnique, hstop]
        exact .stopped
      | some d =>
        obtain ⟨h', hassign, hdrop⟩ := count_moves m s.heap .std mem (r.counted r.ptr d)
        have hcalls : CallsOut s.heap (s.heap.afterFailure.emit [.allocate ⟨.std, .controlBlock, mem, 1⟩])
            [.allocate ⟨.std, .controlBlock, mem, 1⟩] := ⟨rfl, rfl, rfl, by simp [Event.ofCounts]⟩
        obtain ⟨h₂, hh₂⟩ : ∃ h₂, h₂ = (s.heap.afterConstruct .std mem (r.counted r.ptr d)).emit
          [.release .shared s.heap.next] := ⟨_, rfl⟩
        rw [← hh₂] at hdrop
        have hcreate : uniqueCtor E m x (s, r) = inMem (create x ⟨.shared, r.ptr, some s.heap.next⟩)
            ({ s with heap := h₂ }, r.release.2.forwardDeleter.2) := by
          simp [uniqueCtor, Prog.bind_apply, ofUniqueIn, SharedCount.ofUnique_apply, hp, he, hd, inMem, Prog.outer, onHeap,
            hassign, hdrop]
        rw [withUnique, hcreate, inMem, Prog.outer]
        obtain hs | ⟨hx, hs⟩ := create_cases x ⟨.shared, r.ptr, some s.heap.next⟩ { s with heap := h₂ }
        · simp only [hs]
          exact .stopped
        · simp only [hs]
          rw [hh₂]
          exact .made (s := s) hx hcalls fun e he => List.mem_singleton.mp he

/-- **Every construction** ends in one of the four ways. -/
theorem Construction.ctor_constructs (E : Env) (m : Mode) (x : Ref V) (c : Construction) (s : Mem V) :
    Constructs x s (c.ctor E m x s) := by
  cases c with
  | raw arg =>
    cases arg with
    | ptr isArray p =>
      refine ownCtor_constructs ?_
      cases isArray with
      | false => exact ofPtr_builds ..
      | true => exact ofPtrDeleterAlloc_builds ..
    | ptrDeleter p d => exact ownCtor_constructs (ofPtrDeleterAlloc_builds ..)
    | ptrDeleterAlloc p d a => exact ownCtor_constructs (ofPtrDeleterAlloc_builds ..)
  | unique r => exact uniqueCtor_constructs E m r
  | make a L form ini => exact makeCtor_constructs (allocateShared_builds ..)

/-! ## Reset and assignment -/

/-- `reset` and the assignment swap the object with a temporary, unless an assertion fails or
constant evaluation ends. -/
theorem reset_cases (E : Env) (m : Mode) (x : Ref V) (arg : Raw) (s : Mem V) :
    arg.reset E m x s = (.stop, s) ∨
      arg.reset E m x s = swapTemporary m .shared ((Construction.raw arg).ctor E m) x s := by
  cases arg with
  | ptr isArray p =>
    rcases get_cases .shared x s with he | ⟨h, -, -, he⟩
    · exact .inl (by simp [Raw.reset, Prog.bind_apply, he])
    · simp only [Raw.reset, Prog.bind_apply, he]
      split
      · exact .inl rfl
      · exact .inr rfl
  | ptrDeleter => exact .inr rfl
  | ptrDeleterAlloc => exact ifConstexpr_cases s

theorem uniqueAssign_eq (E : Env) (m : Mode) (x : Ref V) (r : UniquePtr) (s : Mem V) :
    withUnique r (uniqueAssign E m x) s = swapTemporary m .shared ((Construction.unique r).ctor E m) x s := by
  simp only [withUnique, uniqueAssign, swapTemporary, Construction.ctor, Prog.bind_apply]
  cases uniqueCtor E m (.inr .tmp) (s, r) with
  | mk res u =>
    cases res with
    | throw | stop => rfl
    | ok =>
      simp only [Prog.atExit, inMem, Prog.outer]
      cases swap .shared (.inr .tmp) x u.1 with
      | mk res' u' => cases res' <;> rfl

/-! ## What programs keep -/

/-- Each construction of a block, and each of the four ways, keeps the counters' invariant. -/
theorem Constructs.holds [Fintype V] {r : Result Exn Unit × Mem V} (hc : Constructs x s r) (ok : s.Holds BlocksOk) :
    r.1 = .stop ∨ r.2.Holds BlocksOk := by
  cases hc with
  | failed hc => exact .inr (hc.blocksOk ok)
  | stopped => exact .inl rfl
  | empty hx =>
    refine .inr ?_
    rw [Mem.Holds, Mem.owners_create hx, Owners.add_none]
    exact ok
  | made hx hc hcopy =>
    refine .inr ?_
    rename_i h' new copy md c p
    have hown := Mem.owners_create (s := { s with heap := (h'.construct md c).2.emit copy })
      (h := ⟨.shared, p, some s.heap.next⟩) hx
    have ok' := (hc.blocksOk ok).construct md c
    rw [hc.next] at ok'
    rw [Mem.Holds, hown]
    refine ok'.emit ?_
    intro b
    constructor <;>
    · rw [List.count_eq_zero]
      intro he
      cases hcopy _ he

theorem Constructs.frame {r : Result Exn Unit × Mem V} {I : Heap → Prop} {Q : (Ref V → Option Handle) → Prop}
    {W : Ref V → Prop} (hI : Stable I) (hQ : FrameOf Q W) (hx : W x) (hc : Constructs x s r) (h₀ : Both I Q s) :
    r.1 = .stop ∨ Both I Q r.2 := by
  cases hc with
  | failed hc => exact .inr ⟨hI.callsOut hc h₀.1, h₀.2⟩
  | stopped => exact .inl rfl
  | empty => exact .inr ⟨h₀.1, hQ _ _ _ hx h₀.2⟩
  | made _ hc => exact .inr ⟨hI.emit _ (hI.construct _ _ (hI.callsOut hc h₀.1)), hQ _ _ _ hx h₀.2⟩

section

variable {E : Env} {m : Mode}

theorem ofPtrDeleter_addsIn (p : Ptr) (d : Nat) (own : Owners) (h : Heap) (ok : BlocksOk own h) :
    AddsIn BlocksOk own .shared (SharedCount.ofPtrDeleter E p (.user d)) h := by
  have hb := ofPtrDeleterAlloc_builds E p (.user d) .std h
  unfold AddsIn
  rw [SharedCount.ofPtrDeleter]
  cases hr : SharedCount.ofPtrDeleterAlloc E p (.user d) .std h with
  | mk r h₁ =>
    rw [hr] at hb
    cases hb with
    | failed hc => exact hc.blocksOk ok
    | stopped => trivial
    | made hc hpi =>
      rename_i pi h' new md c
      obtain rfl : pi = some h.next := hpi
      have ok' := (hc.blocksOk ok).construct md c
      rwa [hc.next] at ok'

theorem anyOp_keeps [Fintype V] (op : AnyOp V) : Keeps (Mem.Holds BlocksOk) (op.exec E m) := by
  have hctor : ∀ (c : Construction) (x : Ref V), Keeps (Mem.Holds BlocksOk) (c.ctor E m x) := fun c x s ok =>
    (c.ctor_constructs E m x s).holds ok
  cases op with
  | plain op => exact exec_keeps ledger_blocksOk ofPtrDeleter_addsIn op
  | construct x c => exact hctor c _
  | reset x arg =>
    intro s ok
    rcases reset_cases E m (.inl x) arg s with he | he
    · exact .inl (by rw [AnyOp.exec, he])
    · rw [AnyOp.exec, he]
      exact swapTemporary_keeps ledger_blocksOk (fun tmp => hctor (.raw arg) tmp) s ok
  | assignUnique x r =>
    intro s ok
    rw [AnyOp.exec, uniqueAssign_eq]
    exact swapTemporary_keeps ledger_blocksOk (fun tmp => hctor (.unique r) tmp) s ok

theorem anyOp_frame {I : Heap → Prop} (hI : Stable I) {Q : (Ref V → Option Handle) → Prop} {W : Ref V → Prop}
    (hQ : FrameOf Q W) (op : AnyOp V) (hW : ∀ x ∈ op.changes, W (.inl x)) (htmp : W (.inr .tmp)) :
    Keeps (Both I Q) (op.exec E m) := by
  have hctor : ∀ (c : Construction) (x : Ref V), W x → Keeps (Both I Q) (c.ctor E m x) := fun c x hx s h₀ =>
    (c.ctor_constructs E m x s).frame hI hQ hx h₀
  cases op with
  | plain op => exact exec_frame hI hQ op hW htmp
  | construct x c => exact hctor c _ (hW x (List.mem_singleton_self x))
  | reset x arg =>
    intro s h₀
    rcases reset_cases E m (.inl x) arg s with he | he
    · exact .inl (by rw [AnyOp.exec, he])
    · rw [AnyOp.exec, he]
      exact swapTemporary_frame hI.toSteady hQ htmp (hW x (List.mem_singleton_self x)) (hctor (.raw arg) _ htmp) s h₀
  | assignUnique x r =>
    intro s h₀
    rw [AnyOp.exec, uniqueAssign_eq]
    exact swapTemporary_frame hI.toSteady hQ htmp (hW x (List.mem_singleton_self x)) (hctor (.unique r) _ htmp) s h₀

/-! ## One block at most, of every operation -/

theorem steady_next (n : Nat) : Steady fun h => h.next ≤ n where
  emit _ h := h
  asked _ _ h := h
  setCounts _ _ h := h

theorem Constructs.next_le {r : Result Exn Unit × Mem V} (hc : Constructs x s r) :
    r.1 = .stop ∨ r.2.heap.next ≤ s.heap.next + 1 := by
  cases hc with
  | failed hc => exact .inr (hc.next ▸ Nat.le_succ _)
  | stopped => exact .inl rfl
  | empty => exact .inr (Nat.le_succ _)
  | made _ hc => exact .inr (Nat.le_of_eq (congrArg (· + 1) hc.next))

theorem swapTemporary_next_le {make : Ref V → Prog (Mem V) Exn Unit}
    (hmake : Constructs (.inr .tmp) s (make (.inr .tmp) s)) :
    (swapTemporary m .shared make x s).1 = .stop ∨ (swapTemporary m .shared make x s).2.heap.next ≤ s.heap.next + 1 := by
  have hle := hmake.next_le
  have hrest : Keeps (Both (fun h => h.next ≤ s.heap.next + 1) fun _ => True)
      (Prog.atExit (swap .shared (.inr .tmp) x) (destroyObject m (.inr .tmp))) :=
    (swap_frame (W := fun _ => True) frameOf_true trivial trivial).atExit fun _ =>
      destroyObject_frame (W := fun _ => True) (steady_next _) frameOf_true trivial
  rw [swapTemporary, Prog.bind_apply]
  cases hr : make (.inr .tmp) s with
  | mk r s' =>
    rw [hr] at hle
    cases r with
    | ok => exact (hrest s' ⟨hle.resolve_left nofun, trivial⟩).imp_right And.left
    | throw => exact hle
    | stop => exact .inl rfl

theorem anyOp_next_le (op : AnyOp V) (s : Mem V) :
    (op.exec E m s).1 = .stop ∨ (op.exec E m s).2.heap.next ≤ s.heap.next + 1 := by
  cases op with
  | plain op =>
    cases hop : op.owns with
    | false =>
      have hk := exec_steady (E := E) (m := m) (steady_next s.heap.next) (W := fun _ => True) frameOf_true hop
        (fun _ _ => trivial) trivial s ⟨Nat.le_refl _, trivial⟩
      exact hk.imp_right fun h => Nat.le_succ_of_le h.1
    | true =>
      cases op with
      | own x p d => exact (ownCtor_constructs (ofPtrDeleterAlloc_builds E p (.user d) .std _)).next_le
      | resetOwn x p d => exact swapTemporary_next_le (ownCtor_constructs (ofPtrDeleterAlloc_builds E p (.user d) .std _))
      | _ => cases hop
  | construct x c => exact (c.ctor_constructs E m (.inl x) s).next_le
  | reset x arg =>
    rcases reset_cases E m (.inl x) arg s with he | he
    · exact .inl (by rw [AnyOp.exec, he])
    · rw [AnyOp.exec, he]
      exact swapTemporary_next_le ((Construction.raw arg).ctor_constructs E m _ s)
  | assignUnique x r =>
    rw [AnyOp.exec, uniqueAssign_eq]
    exact swapTemporary_next_le ((Construction.unique r).ctor_constructs E m _ s)

/-! ## Steps -/

theorem AnyOp.of_step {P : Mem V → Prop} {op : AnyOp V} {s' : Mem V} (h : op.step E m s = some s')
    (hk : (op.exec E m s).1 = .stop ∨ P (op.exec E m s).2) : P s' := by
  unfold AnyOp.step at h
  split at h
  next => cases h
  next r u hr he =>
    cases h
    rw [he] at hk
    exact hk.resolve_left hr

theorem AnyOp.step_stable {I : Heap → Prop} (hI : Stable I) {op : AnyOp V} {s' : Mem V} (h : op.step E m s = some s')
    (h₀ : I s.heap) : I s'.heap :=
  (AnyOp.of_step h (anyOp_frame hI (W := fun _ => True) frameOf_true op (fun _ _ => trivial) trivial s
    ⟨h₀, trivial⟩)).1

theorem AnyOp.run_stable {I : Heap → Prop} (hI : Stable I) {ops : List (AnyOp V)} {s' : Mem V}
    (h : run (AnyOp.step E m) s ops = some s') (h₀ : I s.heap) : I s'.heap :=
  Lib.run_invariant (I := atHeap I) (fun _ _ _ h₀ h => AnyOp.step_stable hI h h₀) h h₀

theorem AnyOp.run_holds [Fintype V] {ops : List (AnyOp V)} {s' : Mem V} (h : run (AnyOp.step E m) s ops = some s')
    (ok : s.Holds BlocksOk) : s'.Holds BlocksOk :=
  Lib.run_invariant (fun _ op _ ok h => AnyOp.of_step h (anyOp_keeps op _ ok)) h ok

/-- An object that no operation changes. -/
theorem AnyOp.run_object {ops : List (AnyOp V)} {s' : Mem V} (h : run (AnyOp.step E m) s ops = some s') {x : V}
    (hx : ∀ op ∈ ops, x ∉ op.changes) : s'.obj (.inl x) = s.obj (.inl x) := by
  induction ops generalizing s with
  | nil => cases h; rfl
  | cons op ops ih =>
    obtain ⟨u, hu, h⟩ := Lib.run_cons.mp h
    have hframe := AnyOp.of_step hu (anyOp_frame stable_true (frameOf_object (.inl x) (s.obj (.inl x))) op
      (fun y hy he => hx op (List.mem_cons_self ..) (Sum.inl.inj he ▸ hy)) nofun s ⟨trivial, rfl⟩)
    rw [ih h fun op' hop' => hx op' (List.mem_cons_of_mem _ hop')]
    exact hframe.2

end

variable (E m) in
/-- A run of a program leads from the heap `h` to `h'`. -/
def Leads (h h' : Heap) : Prop :=
  ∃ (V : Type) (_ : DecidableEq V) (s t : Mem V) (ops : List (AnyOp V)),
    s.heap = h ∧ t.heap = h' ∧ run (AnyOp.step E m) s ops = some t

theorem Leads.refl (h : Heap) : Leads E m h h :=
  ⟨Unit, inferInstance, ⟨h, fun _ => none⟩, ⟨h, fun _ => none⟩, [], rfl, rfl, rfl⟩

theorem Leads.isBlock {h h' : Heap} (hl : Leads E m h h') {b : Nat} {md : Managed} {c : Chunk} (hb : IsBlock b md c h) :
    IsBlock b md c h' := by
  obtain ⟨V, _, s, t, ops, rfl, rfl, hrun⟩ := hl
  exact AnyOp.run_stable (stable_isBlock b md c) hrun hb

/-- An allocator that gives a page for each block. -/
def pages : Env := ⟨fun k => .ok (some (4096 * (k + 1))), fun k _ => .ok k⟩

end SharedPtr.Seq
