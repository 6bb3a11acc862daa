/-
Releases that run code: a deleter, or the destructor of the object, may itself
call functions of the header, on the very objects that are being changed. A
release is then a program and not one change of the memory: the members are
read and written when the source reads and writes them, and in between the
code of `_M_dispose` runs.

User code is a tree of calls, each chosen from what was read before it. The
story of a run is the memory and, for each call of `_M_dispose`, the objects
as the call found them. A control block that was destroyed is gone: to use it
is to have no result.

With deleters that do nothing a release does what `Counts.release` says
(`releaseBlock_calm`).
-/
import SharedPtr.OwnerOrder
import SharedPtr.Lib.Together

namespace SharedPtr.Seq

open Lib (Prog Result)
open Lib.Prog (Keeps Together)

/-- The memory, and the calls of `_M_dispose` so far: the block, and the
objects then. -/
structure Story (V : Type) where
  mem : Mem V
  disposals : List (Nat × (Ref V → Option Handle))

/-- A call of a function of the header, other than `get()` and `use_count()`. -/
inductive UserCall (V : Type)
  | copy (k : Kind) (x : V) (kr : Kind) (r : V)
  | lock (x r : V)
  | assign (k : Kind) (x : V) (kr : Kind) (r : V)
  | reset (k : Kind) (x : V)
  /-- The end of an object, such as a member of the object that is destroyed. -/
  | destroy (x : V)
  deriving DecidableEq, Repr

/-- What a deleter or a destructor does. -/
inductive UserCode (V : Type)
  | done
  /-- `get()` and `use_count()` are read. -/
  | read (k : Kind) (x : V) (next : Ptr → Int → UserCode V)
  | call (c : UserCall V) (next : UserCode V)

/-- The objects that a call names. -/
def UserCall.names {V : Type} : UserCall V → List V
  | .copy _ x _ r | .lock x r | .assign _ x _ r => [x, r]
  | .reset _ x | .destroy x => [x]

/-- No object of `W` is named, whatever is read. -/
def UserCode.Avoids {V : Type} (W : Ref V → Prop) : UserCode V → Prop
  | .done => True
  | .read _ x next => ¬ W (.inl x) ∧ ∀ p count, (next p count).Avoids W
  | .call c next => (∀ x ∈ c.names, ¬ W (.inl x)) ∧ next.Avoids W

theorem UserCode.avoids_none {V : Type} (code : UserCode V) : code.Avoids fun _ => False := by
  induction code with
  | done => trivial
  | read k x next ih => exact ⟨id, ih⟩
  | call c next ih => exact ⟨fun _ _ => id, ih⟩

variable {V : Type}

/-- A program on the memory only. -/
def inStory {α : Type} (c : Prog (Mem V) Exn α) : Prog (Story V) Exn α := fun s =>
  let r := c s.mem
  (r.1, { s with mem := r.2 })

/-- The block named `b`. -/
def block (b : Nat) : Prog Heap Exn Block := fun h =>
  match h.blocks b with
  | none => (.stop, h)
  | some blk => (.ok blk, h)

/-- `_M_destroy()`. -/
def destroyBlock (b : Nat) : Prog Heap Exn Unit := do
  let blk ← block b
  Prog.modify fun h => { h.emit (blk.call b .destroy) with blocks := Function.update h.blocks b none }

variable (m : Mode)

/-- `_M_weak_release()`; `_S_single` has `__exchange_and_add_single`, which does the same. -/
def weakReleaseBlock (b : Nat) : Prog Heap Exn Unit := do
  let blk ← block b
  let (old, new) := exchangeAndAddDispatch m.isSingleThreaded blk.counts.weakCount (-1)
  Prog.modify (·.setCounts b blk { blk.counts with weakCount := new })
  if old = 1 then destroyBlock b else pure ()

/-! ## Releases, where `run b` is the code of the deleter of `b` -/

variable (run : Nat → Prog (Story V) Exn Unit)

/-- `_M_dispose()`. -/
def disposeBlock (b : Nat) : Prog (Story V) Exn Unit := do
  let blk ← inStory (onHeap (block b))
  Prog.modify fun s =>
    ⟨{ s.mem with heap := s.mem.heap.emit (blk.call b .dispose) }, s.disposals ++ [(b, s.mem.obj)]⟩
  run b

/-- `_M_release_last_use()`: the weak count is the one that `_M_dispose` leaves. -/
def releaseLastUseBlock (b : Nat) : Prog (Story V) Exn Unit := do
  disposeBlock run b
  inStory (onHeap (weakReleaseBlock m b))

/-- `_M_release()` without the double-word check. -/
def releasePlainBlock (b : Nat) : Prog (Story V) Exn Unit := do
  let blk ← inStory (onHeap (block b))
  let (old, new) := exchangeAndAddDispatch m.isSingleThreaded blk.counts.useCount (-1)
  inStory (onHeap (Prog.modify (·.setCounts b blk { blk.counts with useCount := new })))
  if old = 1 then releaseLastUseBlock m run b else pure ()

/-- `_M_release()` where both counts are read as one word. -/
def releaseUniqueBlock (b : Nat) : Prog (Story V) Exn Unit := do
  let blk ← inStory (onHeap (block b))
  if blk.counts.bothCounts = Counts.uniqueRef then do
    inStory (onHeap (Prog.modify (·.setCounts b blk ⟨0, 0⟩)))
    disposeBlock run b
    inStory (onHeap (destroyBlock b))
  else releasePlainBlock m run b

/-- `_M_release()`. -/
def releaseBlock (b : Nat) : Prog (Story V) Exn Unit :=
  match m with
  | .runTime (.atomic true) .. => releaseUniqueBlock m run b
  | _ => releasePlainBlock m run b

/-! ## Deleters that do nothing -/

section

variable {m : Mode} {run : Nat → Prog (Story V) Exn Unit} {h : Heap} {s : Story V} {b : Nat} {blk : Block}

theorem inStory_apply {α : Type} (c : Prog (Mem V) Exn α) (s : Story V) :
    inStory c s = ((c s.mem).1, { s with mem := (c s.mem).2 }) := rfl

theorem onHeap_apply {α : Type} (c : Prog Heap Exn α) (s : Mem V) :
    onHeap c s = ((c s.heap).1, { s with heap := (c s.heap).2 }) := rfl

theorem block_apply (hb : h.blocks b = some blk) : block b h = (.ok blk, h) := by
  simp only [block, hb]

/-- The heap when the calls `calls` to the block were made and its counts are `c`. -/
def Heap.afterCalls (h : Heap) (b : Nat) (blk : Block) (c : Counts) (calls : List Call) : Heap :=
  { h.emit (calls.flatMap (blk.call b)) with
    blocks := Function.update h.blocks b (if .destroy ∈ calls then none else some { blk with counts := c }) }

theorem setCounts_block (h : Heap) (b : Nat) (blk : Block) (c : Counts) :
    (h.setCounts b blk c).blocks b = some { blk with counts := c } := Function.update_self ..

theorem destroyBlock_apply (hb : h.blocks b = some blk) :
    destroyBlock b h =
      (.ok (), { h.emit (blk.call b .destroy) with blocks := Function.update h.blocks b none }) := by
  simp only [destroyBlock, Prog.bind_apply, block_apply hb, Prog.modify_apply]

theorem weakReleaseBlock_apply (hb : h.blocks b = some blk) :
    weakReleaseBlock m b h =
      (.ok (), h.afterCalls b blk (blk.counts.weakRelease m).1 (blk.counts.weakRelease m).2) := by
  simp only [weakReleaseBlock, Prog.bind_apply, block_apply hb, exchangeAndAddDispatch_eq, exchangeAndAdd,
    Prog.modify_apply, Counts.weakRelease_eq]
  split
  next =>
    rw [destroyBlock_apply (setCounts_block ..)]
    simp [Heap.afterCalls, Heap.setCounts, Heap.emit, Block.call]
  next => simp [Heap.afterCalls, Heap.setCounts, Heap.emit, Counts.lessWeak, BitVec.sub_eq_add_neg]

/-- A call of `_M_dispose` is recorded as it begins. -/
theorem disposeBlock_eq (hb : s.mem.heap.blocks b = some blk) :
    disposeBlock run b s =
      run b ⟨{ s.mem with heap := s.mem.heap.emit (blk.call b .dispose) }, s.disposals ++ [(b, s.mem.obj)]⟩ := by
  simp only [disposeBlock, Prog.bind_apply, inStory_apply, onHeap_apply, block_apply hb, Prog.modify_apply]

theorem releasePlainBlock_calm (hb : s.mem.heap.blocks b = some blk) (hrun : ∀ s, run b s = (.ok (), s)) :
    releasePlainBlock m run b s =
      (.ok (), ⟨{ s.mem with heap := s.mem.heap.afterCalls b blk (blk.counts.release m).1 (blk.counts.release m).2 },
        s.disposals ++ if .dispose ∈ (blk.counts.release m).2 then [(b, s.mem.obj)] else []⟩) := by
  simp only [releasePlainBlock, Prog.bind_apply, inStory_apply, onHeap_apply, block_apply hb,
    exchangeAndAddDispatch_eq, exchangeAndAdd, Prog.modify_apply, Counts.release_eq]
  split
  next =>
    have hb' (c : Counts) (es : List Event) : ((s.mem.heap.setCounts b blk c).emit es).blocks b =
        some { blk with counts := c } := setCounts_block ..
    simp only [releaseLastUseBlock, Prog.bind_apply]
    rw [disposeBlock_eq (setCounts_block ..), hrun]
    simp only [inStory_apply, onHeap_apply, weakReleaseBlock_apply (hb' ..), Counts.weakRelease_eq]
    split <;> simp [Heap.afterCalls, Heap.setCounts, Heap.emit, Block.call, Counts.lessUse, BitVec.sub_eq_add_neg]
  next => simp [Heap.afterCalls, Heap.setCounts, Heap.emit, Counts.lessUse, BitVec.sub_eq_add_neg]

/-- No code runs while there are other owners. -/
theorem releaseBlock_kept (hb : s.mem.heap.blocks b = some blk) (hu : blk.counts.useCount ≠ 1) :
    releaseBlock m run b s =
      (.ok (), { s with mem := { s.mem with heap := s.mem.heap.setCounts b blk blk.counts.lessUse } }) := by
  have hplain : releasePlainBlock m run b s =
      (.ok (), { s with mem := { s.mem with heap := s.mem.heap.setCounts b blk blk.counts.lessUse } }) := by
    simp only [releasePlainBlock, Prog.bind_apply, inStory_apply, onHeap_apply, block_apply hb,
      exchangeAndAddDispatch_eq, exchangeAndAdd, Prog.modify_apply, hu, if_false, Counts.lessUse,
      BitVec.add_neg_eq_sub, Prog.pure_apply]
  unfold releaseBlock
  split
  next st n =>
    have hu' : ¬ blk.counts.bothCounts = Counts.uniqueRef := fun h => hu (Counts.bothCounts_eq_uniqueRef.mp h).1
    simp only [releaseUniqueBlock, Prog.bind_apply, inStory_apply, onHeap_apply, block_apply hb, hu', if_false]
    exact hplain
  next => exact hplain

/-- **A release without user code** makes the calls of `Counts.release`, and
leaves its counts. -/
theorem releaseBlock_calm (hb : s.mem.heap.blocks b = some blk) (hrun : ∀ s, run b s = (.ok (), s)) :
    releaseBlock m run b s =
      (.ok (), ⟨{ s.mem with heap := s.mem.heap.afterCalls b blk (blk.counts.release m).1 (blk.counts.release m).2 },
        s.disposals ++ if .dispose ∈ (blk.counts.release m).2 then [(b, s.mem.obj)] else []⟩) := by
  rw [← releasePlainBlock_calm (m := m) hb hrun]
  unfold releaseBlock
  split
  next st n =>
    simp only [releaseUniqueBlock, Prog.bind_apply, inStory_apply, onHeap_apply, block_apply hb]
    split
    next hu =>
      -- both counts are 1
      have hb' (es : List Event) : ((s.mem.heap.setCounts b blk ⟨0, 0⟩).emit es).blocks b =
          some { blk with counts := ⟨0, 0⟩ } := setCounts_block ..
      obtain ⟨h₁, h₂⟩ := Counts.bothCounts_eq_uniqueRef.mp hu
      rw [releasePlainBlock_calm hb hrun, Counts.release_eq]
      simp only [Prog.bind_apply, inStory_apply, onHeap_apply, Prog.modify_apply]
      rw [disposeBlock_eq (setCounts_block ..), hrun]
      simp only [destroyBlock_apply (hb' _)]
      simp [h₁, h₂, Heap.afterCalls, Heap.setCounts, Heap.emit, Block.call]
    next => rfl
  next => rfl

end

/-! ## Runs side by side -/

section

/-- The program runs alike from related stories. -/
def RunsAlike {α : Type} (R : Story V → Story V → Prop) (c : Prog (Story V) Exn α) : Prop :=
  Together R c c fun a a' s t => a = a' ∧ R s t

variable {R : Story V → Story V → Prop} {α β : Type}

theorem RunsAlike.pure (a : α) : RunsAlike R (pure a : Prog (Story V) Exn α) := Together.pure fun _ _ h => ⟨rfl, h⟩

theorem RunsAlike.stop : RunsAlike R (Prog.stop : Prog (Story V) Exn α) := fun _ _ _ => trivial

theorem RunsAlike.bind {c : Prog (Story V) Exn α} {f : α → Prog (Story V) Exn β} (hc : RunsAlike R c)
    (hf : ∀ a, RunsAlike R (f a)) :
    RunsAlike R (c >>= f) :=
  Together.bind hc fun a _ => .of_and fun h => h ▸ hf a

theorem RunsAlike.ite {p : Prop} [Decidable p] {c c' : Prog (Story V) Exn α} (hc : RunsAlike R c) (hc' : RunsAlike R c') :
    RunsAlike R (if p then c else c') := by
  split
  · exact hc
  · exact hc'

theorem inStory_bind (c : Prog (Mem V) Exn α) (f : α → Prog (Mem V) Exn β) :
    inStory (c >>= f) = inStory c >>= fun a => inStory (f a) := by
  funext s
  simp only [inStory, Prog.bind_apply]
  cases c s.mem with
  | mk r h => cases r <;> rfl

end

/-! ## Handles -/

variable [DecidableEq V]

/-- `~__shared_count()` and `~__weak_count()`. -/
def dropBlock (k : Kind) : CountPtr → Prog (Story V) Exn Unit
  | none => pure ()
  | some b =>
    match k with
    | .shared => releaseBlock m run b
    | .weak => inStory (onHeap (weakReleaseBlock m b))

/-- `~__shared_ptr()` and `~__weak_ptr()`. -/
def destroyHandle (x : Ref V) : Prog (Story V) Exn Unit := do
  let h ← inStory (object x)
  inStory (Prog.modify (·.set x none))
  dropBlock m run h.kind h.pi

/-- `operator=` of the `__shared_count` or `__weak_count` of `x`, from that of `r`. -/
def assignBlock (k : Kind) (x : Ref V) (kr : Kind) (r : Ref V) : Prog (Story V) Exn Unit := do
  let h ← inStory (get kr r)
  let t ← inStory (get k x)
  if k = .shared ∧ h.pi = t.pi then pure ()
  else do
    let tmp ← inStory (onHeap (copyCount m k h.pi))
    dropBlock m run k t.pi
    -- the stored pointer may be another one by now
    let t ← inStory (get k x)
    inStory (put x { t with pi := tmp })

/-- `operator=(const __shared_ptr& __r)` and the like: the members are assigned one after the other. -/
def assignHandle (k : Kind) (x : Ref V) (kr : Kind) (r : Ref V) : Prog (Story V) Exn Unit := do
  let h ← inStory (get kr r)
  let t ← inStory (get k x)
  inStory (put x { t with ptr := h.ptr })
  assignBlock m run k x kr r

/-- `make(tmp).swap(x)`. -/
def swapHandle (k : Kind) (make : Ref V → Prog (Mem V) Exn Unit) (x : Ref V) : Prog (Story V) Exn Unit := do
  inStory (make (.inr .tmp))
  inStory (swap k (.inr .tmp) x)
  destroyHandle m run (.inr .tmp)

/-- `reset()`. -/
def resetHandle (k : Kind) (x : Ref V) : Prog (Story V) Exn Unit := swapHandle m run k (defaultCtor k) x

/-! ## User code -/

def UserCall.exec : UserCall V → Prog (Story V) Exn Unit
  | .copy k x kr r => inStory (copyCtor m k (.inl x) kr (.inl r))
  | .lock x r => inStory (lockCtor m (.inl x) (.inl r))
  | .assign k x kr r => assignHandle m run k (.inl x) kr (.inl r)
  | .reset k x => resetHandle m run k (.inl x)
  | .destroy x => destroyHandle m run (.inl x)

/-- `get()` and `use_count()` of `x`, whose block has to be there. -/
def readHandle (k : Kind) (x : Ref V) : Prog (Mem V) Exn (Ptr × Int) := do
  let h ← get k x
  match h.pi with
  | none => pure (h.ptr, 0)
  | some b => do
    let blk ← onHeap (block b)
    pure (h.ptr, blk.counts.getUseCount m)

def UserCode.exec : UserCode V → Prog (Story V) Exn Unit
  | .done => pure ()
  | .read k x next => do
    let (p, count) ← inStory (readHandle m k (.inl x))
    (next p count).exec
  | .call c next => do
    c.exec m run
    next.exec

/-- The code of the deleters, `body b` for that of `b`, with at most `n` calls of
`_M_dispose` under way at once. -/
def nested (body : Nat → UserCode V) : Nat → Nat → Prog (Story V) Exn Unit
  | 0 => fun _ => Prog.stop
  | n + 1 => fun b => (body b).exec m (nested body n)

/-! ## Code that does not name an object

A relation of stories that differ in the objects of `W` at most. Programs that
do not name those run alike from related stories, and leave related ones. -/

structure Frames (R : Story V → Story V → Prop) (W : Ref V → Prop) : Prop where
  heap_eq : ∀ {s t}, R s t → s.mem.heap = t.mem.heap
  obj_eq : ∀ {s t x}, R s t → ¬ W x → s.mem.obj x = t.mem.obj x
  heap : ∀ {s t} (h : Heap), R s t →
    R { s with mem := { s.mem with heap := h } } { t with mem := { t.mem with heap := h } }
  set : ∀ {s t x} (o : Option Handle), R s t → ¬ W x → R { s with mem := s.mem.set x o } { t with mem := t.mem.set x o }
  dispose : ∀ {s t} (b : Nat), R s t →
    R { s with disposals := s.disposals ++ [(b, s.mem.obj)] } { t with disposals := t.disposals ++ [(b, t.mem.obj)] }

variable {R : Story V → Story V → Prop} {W : Ref V → Prop} {m : Mode} {run : Nat → Prog (Story V) Exn Unit}
  {α : Type} {k kr : Kind} {x r : Ref V}

section

variable (hR : Frames R W)

include hR

theorem Frames.onHeap (c : Prog Heap Exn α) : RunsAlike R (inStory (onHeap c)) := by
  intro s t h
  simp only [inStory, Seq.onHeap, ← hR.heap_eq h]
  cases c s.mem.heap with
  | mk r h' =>
    cases r with
    | ok a => exact ⟨rfl, hR.heap h' h⟩
    | throw e => rfl
    | stop => trivial

theorem Frames.object (hx : ¬ W x) : RunsAlike R (inStory (object x)) := by
  intro s t h
  simp only [inStory, Seq.object, ← hR.obj_eq h hx]
  cases s.mem.obj x with
  | none => trivial
  | some o => exact ⟨rfl, h⟩

theorem Frames.get (hx : ¬ W x) : RunsAlike R (inStory (get k x)) := by
  intro s t h
  simp only [inStory, Seq.get, ← hR.obj_eq h hx]
  cases s.mem.obj x with
  | none => trivial
  | some o =>
    by_cases hk : o.kind = k
    · simp only [hk, if_true]
      exact ⟨trivial, h⟩
    · simp only [hk, if_false]

theorem Frames.modify (o : Option Handle) (hx : ¬ W x) : RunsAlike R (inStory (Prog.modify (·.set x o))) :=
  fun _ _ h => ⟨rfl, hR.set o h hx⟩

theorem Frames.create (o : Handle) (hx : ¬ W x) : RunsAlike R (inStory (create x o)) := by
  intro s t h
  simp only [inStory, Seq.create, ← hR.obj_eq h hx]
  cases s.mem.obj x with
  | none => exact ⟨trivial, hR.set (some o) h hx⟩
  | some _ => trivial

theorem Frames.copyCtor (hx : ¬ W x) (hr : ¬ W r) : RunsAlike R (inStory (copyCtor m k x kr r)) := by
  simp only [Seq.copyCtor, inStory_bind]
  exact (hR.get hr).bind fun _ => (hR.onHeap _).bind fun _ => hR.create _ hx

theorem Frames.swap (hx : ¬ W x) (hr : ¬ W r) : RunsAlike R (inStory (swap k x r)) := by
  simp only [Seq.swap, inStory_bind]
  exact (hR.get hx).bind fun _ => (hR.get hr).bind fun _ => (hR.modify _ hx).bind fun _ => hR.modify _ hr

theorem Frames.lockCtor (hx : ¬ W x) (hr : ¬ W r) : RunsAlike R (inStory (lockCtor m x r)) := by
  simp only [Seq.lockCtor, inStory_bind]
  refine (hR.get hr).bind fun _ => (hR.onHeap _).bind fun pi => RunsAlike.bind ?_ fun _ => hR.create _ hx
  exact hR.onHeap (Prog.read (useCount m pi))

theorem Frames.readHandle (hx : ¬ W x) : RunsAlike R (inStory (readHandle m k x)) := by
  simp only [Seq.readHandle, inStory_bind]
  refine (hR.get hx).bind ?_
  intro h
  cases h.pi with
  | none => exact .pure _
  | some b =>
    simp only [inStory_bind]
    exact (hR.onHeap _).bind fun _ => .pure _

/-! ### Releases -/

variable (hrun : ∀ b, RunsAlike R (run b))

include hrun

theorem Frames.disposeBlock (b : Nat) : RunsAlike R (disposeBlock run b) := by
  refine (hR.onHeap _).bind fun blk => RunsAlike.bind (fun s t h => ⟨rfl, ?_⟩) fun _ => hrun b
  show R ⟨⟨s.mem.heap.emit _, s.mem.obj⟩, _⟩ ⟨⟨t.mem.heap.emit _, t.mem.obj⟩, _⟩
  rw [← hR.heap_eq h]
  exact hR.heap _ (hR.dispose b h)

theorem Frames.releasePlainBlock (b : Nat) : RunsAlike R (releasePlainBlock m run b) :=
  (hR.onHeap _).bind fun _ => (hR.onHeap _).bind fun _ =>
    RunsAlike.ite ((hR.disposeBlock hrun b).bind fun _ => hR.onHeap _) (.pure ())

theorem Frames.releaseBlock (b : Nat) : RunsAlike R (releaseBlock m run b) := by
  unfold Seq.releaseBlock
  split
  next =>
    exact (hR.onHeap _).bind fun _ => RunsAlike.ite
      ((hR.onHeap _).bind fun _ => (hR.disposeBlock hrun b).bind fun _ => hR.onHeap _) (hR.releasePlainBlock hrun b)
  next => exact hR.releasePlainBlock hrun b

theorem Frames.dropBlock (pi : CountPtr) : RunsAlike R (dropBlock m run k pi) := by
  cases pi with
  | none => exact .pure ()
  | some b =>
    cases k with
    | shared => exact hR.releaseBlock hrun b
    | weak => exact hR.onHeap _

/-! ### Handles -/

theorem Frames.destroyHandle (hx : ¬ W x) : RunsAlike R (destroyHandle m run x) :=
  (hR.object hx).bind fun _ => (hR.modify none hx).bind fun _ => hR.dropBlock hrun _

theorem Frames.assignBlock (hx : ¬ W x) (hr : ¬ W r) : RunsAlike R (assignBlock m run k x kr r) :=
  (hR.get hr).bind fun _ => (hR.get hx).bind fun _ => RunsAlike.ite (.pure ()) <|
    (hR.onHeap _).bind fun _ => (hR.dropBlock hrun _).bind fun _ => (hR.get hx).bind fun _ => hR.modify _ hx

theorem Frames.assignHandle (hx : ¬ W x) (hr : ¬ W r) : RunsAlike R (assignHandle m run k x kr r) :=
  (hR.get hr).bind fun _ => (hR.get hx).bind fun _ => (hR.modify _ hx).bind fun _ => hR.assignBlock hrun hx hr

theorem Frames.resetHandle (htmp : ¬ W (.inr .tmp)) (hx : ¬ W x) : RunsAlike R (resetHandle m run k x) :=
  (hR.create _ htmp).bind fun _ => (hR.swap htmp hx).bind fun _ => hR.destroyHandle hrun htmp

end

/-! ### User code -/

theorem Frames.call (hR : Frames R W) (htmp : ¬ W (.inr .tmp)) (hrun : ∀ b, RunsAlike R (run b)) {c : UserCall V}
    (hc : ∀ x ∈ c.names, ¬ W (.inl x)) : RunsAlike R (c.exec m run) := by
  cases c <;> simp only [UserCall.names, List.mem_cons, List.not_mem_nil, or_false, forall_eq_or_imp, forall_eq] at hc
  case copy => exact hR.copyCtor hc.1 hc.2
  case lock => exact hR.lockCtor hc.1 hc.2
  case assign => exact hR.assignHandle hrun hc.1 hc.2
  case reset => exact hR.resetHandle hrun htmp hc
  case destroy => exact hR.destroyHandle hrun hc

theorem Frames.code (hR : Frames R W) (htmp : ¬ W (.inr .tmp)) (hrun : ∀ b, RunsAlike R (run b)) {code : UserCode V}
    (hcode : code.Avoids W) : RunsAlike R (code.exec m run) := by
  induction code with
  | done => exact .pure ()
  | read k x next ih => exact (hR.readHandle hcode.1).bind fun a => ih a.1 a.2 (hcode.2 a.1 a.2)
  | call c next ih => exact (hR.call htmp hrun hcode.1).bind fun _ => ih hcode.2

/-- **Code that does not name an object of `W`** runs alike, however deep it is nested. -/
theorem Frames.nested (hR : Frames R W) (htmp : ¬ W (.inr .tmp)) {body : Nat → UserCode V}
    (hbody : ∀ b, (body b).Avoids W) (n b : Nat) : RunsAlike R (nested m body n b) := by
  induction n generalizing b with
  | zero => exact .stop
  | succ n ih => exact hR.code htmp ih (hbody b)

/-! ### What is recorded -/

/-- One story, in which the calls `L` came first. -/
def Recorded (L : List (Nat × (Ref V → Option Handle))) (s t : Story V) : Prop := s = t ∧ L <+: s.disposals

theorem frames_recorded (L : List (Nat × (Ref V → Option Handle))) : Frames (Recorded L) fun _ => False where
  heap_eq h := by rw [h.1]
  obj_eq h _ := by rw [h.1]
  heap _ h := ⟨by rw [h.1], h.2⟩
  set _ h _ := ⟨by rw [h.1], h.2⟩
  dispose b h := ⟨by rw [h.1], h.2.trans (List.prefix_append ..)⟩

omit [DecidableEq V] in
theorem RunsAlike.recorded {L : List (Nat × (Ref V → Option Handle))} {c : Prog (Story V) Exn α}
    (hc : RunsAlike (Recorded L) c)
    {s s' : Story V} {a : α} (h : c s = (.ok a, s')) (hs : L <+: s.disposals) : L <+: s'.disposals := by
  have hc := hc s s ⟨rfl, hs⟩
  rw [h] at hc
  exact hc.2.2

theorem nested_recorded (L : List (Nat × (Ref V → Option Handle))) (body : Nat → UserCode V) (n b : Nat) :
    RunsAlike (Recorded L) (nested m body n b) :=
  (frames_recorded L).nested id (fun b => (body b).avoids_none) n b

/-- The last owner's release calls `_M_dispose`. -/
theorem releaseBlock_records {s s' : Story V} {b : Nat} {blk : Block} (hrun : ∀ L b, RunsAlike (Recorded L) (run b))
    (hb : s.mem.heap.blocks b = some blk) (hu : blk.counts.useCount = 1) (h : releaseBlock m run b s = (.ok (), s')) :
    s.disposals ++ [(b, s.mem.obj)] <+: s'.disposals := by
  have hdispose (c : Counts) {f : Prog Heap Exn Unit} (h : (disposeBlock run b >>= fun _ => inStory (onHeap f))
      { s with mem := { s.mem with heap := s.mem.heap.setCounts b blk c } } = (.ok (), s')) :
      s.disposals ++ [(b, s.mem.obj)] <+: s'.disposals := by
    obtain ⟨_, t, ht, h⟩ := Prog.bind_eq_ok.mp h
    rw [disposeBlock_eq (setCounts_block ..)] at ht
    exact ((frames_recorded _).onHeap f).recorded h ((hrun _ b).recorded ht List.prefix_rfl)
  have hplain (h : releasePlainBlock m run b s = (.ok (), s')) : s.disposals ++ [(b, s.mem.obj)] <+: s'.disposals := by
    simp only [releasePlainBlock, Prog.bind_apply, inStory_apply, onHeap_apply, block_apply hb,
      exchangeAndAddDispatch_eq, exchangeAndAdd, Prog.modify_apply, hu, if_true] at h
    exact hdispose _ h
  unfold releaseBlock at h
  split at h
  next =>
    simp only [releaseUniqueBlock, Prog.bind_apply, inStory_apply, onHeap_apply, block_apply hb] at h
    split at h
    next => exact hdispose ⟨0, 0⟩ h
    next => exact hplain h
  next => exact hplain h

end SharedPtr.Seq
