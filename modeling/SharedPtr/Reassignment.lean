/-
Copy assignment against copy-and-swap, where the deleter of the old object may
read, copy and reset the pointer that is assigned to.

`operator=` updates the stored pointer, releases the old control block and only
then takes over the new one. While the deleter of the old object runs, the
pointer has the new stored pointer and the old block, which nobody owns any
more. So the two are alike exactly when no deleter runs: the source shares the
block, the target is empty, or the old object has other owners
(`copyAssign_like_copySwap`). Where one runs, the outcome is the same only if
no code under it names the target.
-/
import SharedPtr.UserCode

namespace SharedPtr.Seq

open Lib (Prog Result)
open Lib.Prog (Keeps Together)

variable {V : Type} [DecidableEq V]

/-- The member functions: the assignment of shared pointers, defaulted or
converting, and that of their counts. -/
inductive Assigned
  | pointer
  | count
  deriving DecidableEq, Repr

/-- `_M_swap(__r)`. -/
def swapCount (x r : Ref V) : Prog (Mem V) Exn Unit := do
  let hx ← get .shared x
  let hr ← get .shared r
  put r { hr with pi := hx.pi }
  put x { hx with pi := hr.pi }

section

variable (m : Mode) (run : Nat → Prog (Story V) Exn Unit)

/-- `x = r`. -/
def assignOf (x r : Ref V) : Assigned → Prog (Story V) Exn Unit
  | .pointer => assignHandle m run .shared x .shared r
  | .count => assignBlock m run .shared x .shared r

/-- `shared_ptr(r).swap(x)`, or `__shared_count(r)._M_swap(x)`, whose temporary
is a shared pointer without a stored pointer here. -/
def copySwap (x r : Ref V) : Assigned → Prog (Story V) Exn Unit
  | .pointer => swapHandle m run .shared (fun tmp => copyCtor m .shared tmp .shared r) x
  | .count => do
    inStory (aliasCtor m (.inr .tmp) r none)
    inStory (swapCount (.inr .tmp) x)
    destroyHandle m run (.inr .tmp)

end

/-- The blocks whose deleters were called. -/
def Story.names (s : Story V) : List Nat := s.disposals.map Prod.fst

/-- `x = r` has the outcome of the copy and swap, disposes of nothing twice, and
each deleter of the old block finds `x` with the new one. -/
def LikeCopySwap (m : Mode) (body : Nat → UserCode V) (form : Assigned) (x r : Ref V) (s : Mem V) : Prop :=
  ∃ n s₁ s₂, assignOf m (nested m body n) x r form ⟨s, []⟩ = (.ok (), s₁) ∧
    copySwap m (nested m body n) x r form ⟨s, []⟩ = (.ok (), s₂) ∧
    s₁.mem = s₂.mem ∧ s₁.names = s₂.names ∧ s₁.names.Nodup ∧
    ∀ hx hr b seen, s.obj x = some hx → s.obj r = some hr → hx.pi = some b → (b, seen) ∈ s₁.disposals →
      ∃ h, seen x = some h ∧ h.pi = hr.pi

/-- The outcomes of both, with at most `n` deleters under way at once. -/
def SameOutcome (m : Mode) (body : Nat → UserCode V) (form : Assigned) (x r : Ref V) (s : Mem V) (n : Nat) : Prop :=
  let a := assignOf m (nested m body n) x r form ⟨s, []⟩
  let c := copySwap m (nested m body n) x r form ⟨s, []⟩
  a.1 = c.1 ∧ (a.1 = .ok () → a.2.mem = c.2.mem ∧ a.2.names = c.2.names)

/-- The use count can be incremented. -/
def CanCount (h : Heap) (pi : CountPtr) : Prop :=
  ∀ b blk, pi = some b → h.blocks b = some blk → blk.counts.useCount ≠ -1

/-- One owner is left. -/
def LastOwner (h : Heap) (pi : CountPtr) : Prop :=
  ∃ b blk, pi = some b ∧ h.blocks b = some blk ∧ blk.counts.useCount = 1

/-! ## What both do, up to the release -/

variable {m : Mode} {run : Nat → Prog (Story V) Exn Unit} {s : Mem V} {x r : Ref V} {hx hr : Handle}
  {d : List (Nat × (Ref V → Option Handle))}

/-- The stored pointer that the target gets. -/
def Assigned.ptr (hx hr : Handle) : Assigned → Ptr
  | pointer => hr.ptr
  | count => hx.ptr

/-- The target once its stored pointer is assigned, and in the end. -/
def Assigned.halfway (form : Assigned) (hx hr : Handle) : Handle := ⟨.shared, form.ptr hx hr, hx.pi⟩

def Assigned.final (form : Assigned) (hx hr : Handle) : Handle := ⟨.shared, form.ptr hx hr, hr.pi⟩

omit [DecidableEq V] in
theorem get_apply {k : Kind} (h : s.obj x = some hx) (hk : hx.kind = k) : get k x s = (.ok hx, s) := by
  simp only [get, h, hk, if_true]

theorem create_apply (h : s.obj x = none) (o : Handle) : create x o s = (.ok (), s.set x (some o)) := by
  simp only [create, h]

/-- The objects on which both work. -/
structure Operands (s : Mem V) (x r : Ref V) (hx hr : Handle) : Prop where
  target : s.obj x = some hx
  source : s.obj r = some hr
  target_kind : hx.kind = .shared
  source_kind : hr.kind = .shared
  free : s.obj (.inr .tmp) = none

omit [DecidableEq V] in
theorem Operands.target_ne (o : Operands s x r hx hr) : x ≠ .inr .tmp := by
  intro he
  have h := o.target
  rw [he, o.free] at h
  cases h

/-- A local object comes and goes. -/
theorem Mem.set_around (s : Mem V) {x y : Ref V} (hy : s.obj y = none) (hne : x ≠ y) (a b : Option Handle) :
    ((s.set y a).set x b).set y none = s.set x b := by
  have h : s.set y none = s := congrArg (Mem.mk s.heap) (by rw [← hy, Function.update_eq_self])
  rw [Mem.set_comm _ hne, Mem.set_set, Mem.set_comm _ hne.symm, h]

/-- The temporary changes places with the target, and is destroyed. -/
theorem swap_destroy {t : Handle} (hne : x ≠ .inr .tmp) (htmp : s.obj (.inr .tmp) = some t) (htk : t.kind = .shared)
    (hox : s.obj x = some hx) (hxk : hx.kind = .shared) :
    (inStory (swap .shared (.inr .tmp) x) >>= fun _ => destroyHandle m run (.inr .tmp)) ⟨s, d⟩ =
      dropBlock m run .shared hx.pi ⟨(s.set x (some t)).set (.inr .tmp) none, d⟩ := by
  have hobj : ((s.set (.inr .tmp) (some hx)).set x (some t)).obj (.inr .tmp) = some hx :=
    (Mem.set_obj_of_ne _ hne.symm _).trans (Mem.set_obj ..)
  have hset : ((s.set (.inr .tmp) (some hx)).set x (some t)).set (.inr .tmp) none =
      (s.set x (some t)).set (.inr .tmp) none := by
    rw [Mem.set_comm _ hne, Mem.set_set]
  simp only [Prog.bind_apply, inStory_apply, swap, get_apply htmp htk, get_apply hox hxk, put, Prog.modify_apply,
    destroyHandle, object_apply hobj, hset, hxk]

theorem swapCount_destroy {t : Handle} (htmp : s.obj (.inr .tmp) = some t) (htk : t.kind = .shared)
    (hox : s.obj x = some hx) (hxk : hx.kind = .shared) :
    (inStory (swapCount (.inr .tmp) x) >>= fun _ => destroyHandle m run (.inr .tmp)) ⟨s, d⟩ =
      dropBlock m run .shared hx.pi ⟨(s.set x (some { hx with pi := t.pi })).set (.inr .tmp) none, d⟩ := by
  obtain ⟨kind, p, pi⟩ := t
  obtain rfl : kind = .shared := htk
  have hobj : ((s.set x (some { hx with pi := pi })).set (.inr .tmp) (some ⟨.shared, p, hx.pi⟩)).obj (.inr .tmp) =
      some ⟨.shared, p, hx.pi⟩ := Mem.set_obj ..
  simp only [Prog.bind_apply, inStory_apply, swapCount, get_apply htmp rfl, get_apply hox hxk, put, Prog.modify_apply,
    destroyHandle, object_apply hobj, Mem.set_set]

/-- The copy and swap makes all changes, and then releases the old block. -/
theorem copySwap_apply (o : Operands s x r hx hr) {h₁ : Heap} (hc : copyCount m .shared hr.pi s.heap = (.ok hr.pi, h₁))
    (form : Assigned) :
    copySwap m run x r form ⟨s, d⟩ =
      dropBlock m run .shared hx.pi ⟨{ s with heap := h₁ }.set x (some (form.final hx hr)), d⟩ := by
  have hne := o.target_ne
  have hget := get_apply o.source o.source_kind
  have hfree : ({ s with heap := h₁ } : Mem V).obj (.inr .tmp) = none := o.free
  have hox (t : Handle) : (({ s with heap := h₁ } : Mem V).set (.inr .tmp) (some t)).obj x = some hx :=
    (Mem.set_obj_of_ne _ hne _).trans o.target
  cases form with
  | pointer =>
    have hmake : inStory (copyCtor m .shared (.inr .tmp) .shared r) ⟨s, d⟩ =
        (.ok (), ⟨{ s with heap := h₁ }.set (.inr .tmp) (some ⟨.shared, hr.ptr, hr.pi⟩), d⟩) := by
      simp only [inStory_apply, copyCtor, Prog.bind_apply, hget, onHeap_apply, hc, create_apply hfree]
    simp only [copySwap, swapHandle]
    rw [Prog.bind_apply, hmake]
    dsimp only
    rw [swap_destroy hne (Mem.set_obj ..) rfl (hox _) o.target_kind, Mem.set_around _ hfree hne]
    rfl
  | count =>
    have hmake : inStory (aliasCtor m (.inr .tmp) r none) ⟨s, d⟩ =
        (.ok (), ⟨{ s with heap := h₁ }.set (.inr .tmp) (some ⟨.shared, none, hr.pi⟩), d⟩) := by
      simp only [inStory_apply, aliasCtor, Prog.bind_apply, hget, onHeap_apply, hc, create_apply hfree]
    simp only [copySwap]
    rw [Prog.bind_apply, hmake]
    dsimp only
    rw [swapCount_destroy (Mem.set_obj ..) rfl (hox _) o.target_kind, Mem.set_around _ hfree hne, Assigned.final,
      ← o.target_kind]
    rfl

/-- The count of `x` becomes `tmp`; its stored pointer is what it is by then. -/
def takeOver (x : Ref V) (tmp : CountPtr) : Prog (Story V) Exn Unit := do
  let t ← inStory (get .shared x)
  inStory (put x { t with pi := tmp })

theorem takeOver_apply {t : Handle} (hox : s.obj x = some t) (hk : t.kind = .shared) (tmp : CountPtr) :
    takeOver x tmp ⟨s, d⟩ = (.ok (), ⟨s.set x (some { t with pi := tmp }), d⟩) := by
  simp only [takeOver, Prog.bind_apply, inStory_apply, get_apply hox hk, put, Prog.modify_apply]

theorem assignBlock_apply (hox : s.obj x = some hx) (hxk : hx.kind = .shared) (hor : s.obj r = some hr)
    (hrk : hr.kind = .shared) (hne : hr.pi ≠ hx.pi) {h₁ : Heap}
    (hc : copyCount m .shared hr.pi s.heap = (.ok hr.pi, h₁)) :
    assignBlock m run .shared x .shared r ⟨s, d⟩ =
      (dropBlock m run .shared hx.pi >>= fun _ => takeOver x hr.pi) ⟨{ s with heap := h₁ }, d⟩ := by
  simp only [assignBlock, Prog.bind_apply, inStory_apply, get_apply hor hrk, get_apply hox hxk, hne, and_false, if_false,
    onHeap_apply, hc, takeOver]

theorem assignBlock_same (hox : s.obj x = some hx) (hxk : hx.kind = .shared) (hor : s.obj r = some hr)
    (hrk : hr.kind = .shared) (heq : hr.pi = hx.pi) :
    assignBlock m run .shared x .shared r ⟨s, d⟩ = (.ok (), ⟨s, d⟩) := by
  simp only [assignBlock, Prog.bind_apply, inStory_apply, get_apply hor hrk, get_apply hox hxk, heq, and_self, if_true,
    Prog.pure_apply]

/-- The stored pointer comes first. -/
theorem assignOf_pointer (o : Operands s x r hx hr) :
    assignOf m run x r .pointer ⟨s, d⟩ =
      assignBlock m run .shared x .shared r ⟨s.set x (some { hx with ptr := hr.ptr }), d⟩ := by
  simp only [assignOf, assignHandle, Prog.bind_apply, inStory_apply, get_apply o.source o.source_kind,
    get_apply o.target o.target_kind, put, Prog.modify_apply]

theorem Operands.set_target (o : Operands s x r hx hr) (h : Heap) :
    { s with heap := h }.set x (some hx) = { s with heap := h } := by
  rw [Mem.set, ← o.target, Function.update_eq_self]

/-- The assignment from another block releases the old one halfway. -/
theorem assignOf_apply (o : Operands s x r hx hr) (hne : hr.pi ≠ hx.pi) {h₁ : Heap}
    (hc : copyCount m .shared hr.pi s.heap = (.ok hr.pi, h₁)) (form : Assigned) :
    assignOf m run x r form ⟨s, d⟩ =
      (dropBlock m run .shared hx.pi >>= fun _ => takeOver x hr.pi)
        ⟨{ s with heap := h₁ }.set x (some (form.halfway hx hr)), d⟩ := by
  have hrx : r ≠ x := by
    intro he
    have h := o.source
    rw [he, o.target] at h
    exact hne (by rw [Option.some.inj h])
  cases form with
  | pointer =>
    have hor : (s.set x (some { hx with ptr := hr.ptr })).obj r = some hr := (Mem.set_obj_of_ne _ hrx _).trans o.source
    have h : Assigned.halfway .pointer hx hr = { hx with ptr := hr.ptr } := by
      rw [Assigned.halfway, ← o.target_kind]
      rfl
    rw [assignOf_pointer o, h]
    exact assignBlock_apply (s.set_obj x (some { hx with ptr := hr.ptr })) o.target_kind hor o.source_kind hne hc
  | count =>
    have h : Assigned.halfway .count hx hr = hx := by
      rw [Assigned.halfway, ← o.target_kind]
      rfl
    rw [h, o.set_target]
    exact assignBlock_apply o.target o.target_kind o.source o.source_kind hne hc

/-- The assignment from the same block. -/
theorem assignOf_same (o : Operands s x r hx hr) (heq : hr.pi = hx.pi) (form : Assigned) :
    assignOf m run x r form ⟨s, d⟩ = (.ok (), ⟨s.set x (some (form.final hx hr)), d⟩) := by
  cases form with
  | pointer =>
    obtain ⟨hr', hor', hrk', hpi⟩ : ∃ hr', (s.set x (some { hx with ptr := hr.ptr })).obj r = some hr' ∧
        hr'.kind = .shared ∧ hr'.pi = hx.pi := by
      by_cases hrx : r = x
      · exact ⟨{ hx with ptr := hr.ptr }, by rw [hrx, Mem.set_obj], o.target_kind, rfl⟩
      · exact ⟨hr, (Mem.set_obj_of_ne _ hrx _).trans o.source, o.source_kind, heq⟩
    have h : Assigned.final .pointer hx hr = { hx with ptr := hr.ptr } := by
      rw [Assigned.final, heq, ← o.target_kind]
      rfl
    rw [assignOf_pointer o, h]
    exact assignBlock_same (s.set_obj x (some { hx with ptr := hr.ptr })) o.target_kind hor' hrk' hpi
  | count =>
    have h : Assigned.final .count hx hr = hx := by
      rw [Assigned.final, heq, ← o.target_kind]
      rfl
    rw [h, o.set_target]
    exact assignBlock_same o.target o.target_kind o.source o.source_kind heq

/-- Without room in the count there is no copy. -/
theorem copySwap_stop (o : Operands s x r hx hr) (hc : (copyCount m .shared hr.pi s.heap).1 = .stop) (form : Assigned) :
    (copySwap m run x r form ⟨s, d⟩).1 = .stop := by
  have hget := get_apply o.source o.source_kind
  obtain ⟨h₁, hc⟩ : ∃ h₁, copyCount m .shared hr.pi s.heap = (.stop, h₁) := ⟨_, Prod.ext hc rfl⟩
  cases form with
  | pointer => simp only [copySwap, swapHandle, copyCtor, Prog.bind_apply, inStory_apply, hget, onHeap_apply, hc]
  | count => simp only [copySwap, aliasCtor, Prog.bind_apply, inStory_apply, hget, onHeap_apply, hc]

/-! ## Counts -/

/-- Every shared pointer refers to a block with a use count, if to any. -/
def Mem.Counted (s : Mem V) (h : Handle) : Prop :=
  ∀ b, h.pi = some b → ∃ blk, s.heap.blocks b = some blk ∧ blk.counts.useCount ≠ 0

theorem Mem.Holds.counted [Fintype V] (ok : s.Holds BlocksOk) {h : Handle} (hox : s.obj x = some h)
    (hk : h.kind = .shared) : s.Counted h := by
  intro b hb
  have hown := Mem.owners_ne_zero hox hb
  rw [hk] at hown
  obtain ⟨blk, hblk⟩ := ok.exists_block hown
  have hok := ok.blocks b
  rw [hblk] at hok
  refine ⟨blk, hblk, ?_⟩
  rw [Ne, eq_zero_iff, hok.1]
  exact hown

theorem copyCount_some {h : Heap} {b : Nat} {blk : Block} (hb : h.blocks b = some blk) (hne : blk.counts.useCount ≠ -1) :
    copyCount m .shared (some b) h = (.ok (some b), h.setCounts b blk (blk.counts.more .shared)) := by
  have hadd : blk.counts.addRef m .shared = some (blk.counts.more .shared) :=
    Counts.addRefCopy_eq_some.mpr ⟨hne, rfl⟩
  simp only [copyCount, Prog.bind_apply, addRef, hb, hadd, Prog.pure_apply]

theorem copyCount_stop {h : Heap} {b : Nat} {blk : Block} (hb : h.blocks b = some blk) (heq : blk.counts.useCount = -1) :
    (copyCount m .shared (some b) h).1 = .stop := by
  have hadd : blk.counts.addRef m .shared = none := by
    rw [Option.eq_none_iff_forall_ne_some]
    intro c hc
    exact (Counts.addRefCopy_eq_some.mp hc).1 heq
  simp only [copyCount, Prog.bind_apply, addRef, hb, hadd]

omit [DecidableEq V] in
/-- The source is copied: its block has an owner more, and the others are as they were. -/
theorem copyCount_ok (hc : s.Counted hr) (hcan : CanCount s.heap hr.pi) :
    ∃ h₁, copyCount m .shared hr.pi s.heap = (.ok hr.pi, h₁) ∧ ∀ b, hr.pi ≠ some b → h₁.blocks b = s.heap.blocks b := by
  cases hpi : hr.pi with
  | none => exact ⟨s.heap, rfl, fun _ _ => rfl⟩
  | some b =>
    obtain ⟨blk, hb, -⟩ := hc b hpi
    refine ⟨_, copyCount_some hb (hcan b blk hpi hb), ?_⟩
    intro b' hne
    exact Function.update_of_ne (fun h => hne (by rw [h])) ..

omit [DecidableEq V] in
/-- A release that runs no code. -/
theorem dropBlock_kept {h : Heap} {pi : CountPtr}
    (hkept : ∀ b, pi = some b → ∃ blk, h.blocks b = some blk ∧ blk.counts.useCount ≠ 1) :
    ∃ h₂, ∀ t : Mem V, t.heap = h → dropBlock m run .shared pi ⟨t, d⟩ = (.ok (), ⟨{ t with heap := h₂ }, d⟩) := by
  cases pi with
  | none =>
    refine ⟨h, ?_⟩
    intro t ht
    rw [← ht]
    rfl
  | some b =>
    obtain ⟨blk, hb, hne⟩ := hkept b rfl
    refine ⟨h.setCounts b blk blk.counts.lessUse, ?_⟩
    intro t ht
    rw [← ht] at hb ⊢
    exact releaseBlock_kept hb hne

/-- A reference more, and one less. -/
theorem setCounts_back {h : Heap} {b : Nat} {blk : Block} (hb : h.blocks b = some blk) :
    (h.setCounts b blk (blk.counts.more .shared)).setCounts b { blk with counts := blk.counts.more .shared }
      (blk.counts.more .shared).lessUse = h := by
  have hcounts : (blk.counts.more .shared).lessUse = blk.counts := by
    simp only [Counts.more, Counts.lessUse, BitVec.add_sub_cancel]
  simp only [Heap.setCounts, hcounts, Function.update_idem]
  rw [← hb, Function.update_eq_self]

/-! ## When no deleter runs -/

variable {body : Nat → UserCode V} {form : Assigned}

variable (m run form) in
/-- Both end in one memory, and dispose of nothing. -/
def EndsQuietly (x r : Ref V) (s : Mem V) : Prop :=
  ∃ t, assignOf m run x r form ⟨s, []⟩ = (.ok (), ⟨t, []⟩) ∧ copySwap m run x r form ⟨s, []⟩ = (.ok (), ⟨t, []⟩)

/-- A shared block: the source is copied, and the copy released. -/
theorem endsQuietly_of_same (o : Operands s x r hx hr) (hcr : s.Counted hr) (hcan : CanCount s.heap hr.pi)
    (heq : hr.pi = hx.pi) : EndsQuietly m run form x r s := by
  obtain ⟨h₁, hc, hswap⟩ : ∃ h₁, copyCount m .shared hr.pi s.heap = (.ok hr.pi, h₁) ∧
      dropBlock m run .shared hx.pi ⟨{ s with heap := h₁ }.set x (some (form.final hx hr)), []⟩ =
        (.ok (), ⟨s.set x (some (form.final hx hr)), []⟩) := by
    rw [← heq]
    cases hpi : hr.pi with
    | none => exact ⟨s.heap, rfl, rfl⟩
    | some b =>
      obtain ⟨blk, hb, hu⟩ := hcr b hpi
      have hmore : (blk.counts.more .shared).useCount ≠ 1 := fun h => hu (by simpa [Counts.more] using h)
      have hback := setCounts_back hb
      refine ⟨_, copyCount_some hb (hcan b blk hpi hb), ?_⟩
      refine (releaseBlock_kept (setCounts_block ..) hmore).trans ?_
      simp only [Mem.set_heap, hback]
      rfl
  exact ⟨_, assignOf_same o heq form, (copySwap_apply o hc form).trans hswap⟩

/-- A target that is empty or not the last owner. -/
theorem endsQuietly_of_kept (o : Operands s x r hx hr) (hcx : s.Counted hx) (hcr : s.Counted hr)
    (hcan : CanCount s.heap hr.pi) (hne : hr.pi ≠ hx.pi) (hkept : ¬ LastOwner s.heap hx.pi) :
    EndsQuietly m run form x r s := by
  obtain ⟨h₁, hc, hothers⟩ := copyCount_ok (m := m) hcr hcan
  have hblock (b : Nat) (hb : hx.pi = some b) : ∃ blk, h₁.blocks b = some blk ∧ blk.counts.useCount ≠ 1 := by
    obtain ⟨blk, hblk, -⟩ := hcx b hb
    exact ⟨blk, (hothers b fun h => hne (by rw [h, hb])).trans hblk, fun hu => hkept ⟨b, blk, hb, hblk, hu⟩⟩
  obtain ⟨h₂, hdrop⟩ : ∃ h₂, ∀ t : Mem V, t.heap = h₁ →
      dropBlock m run .shared hx.pi ⟨t, []⟩ = (.ok (), ⟨{ t with heap := h₂ }, []⟩) := dropBlock_kept hblock
  have hobj : (⟨h₂, (({ s with heap := h₁ } : Mem V).set x (some (form.halfway hx hr))).obj⟩ : Mem V).obj x =
      some (form.halfway hx hr) := Mem.set_obj ..
  refine ⟨({ s with heap := h₂ } : Mem V).set x (some (form.final hx hr)), ?_,
    (copySwap_apply o hc form).trans (hdrop _ rfl)⟩
  rw [assignOf_apply o hne hc, Prog.bind_apply, hdrop _ rfl]
  refine (takeOver_apply hobj rfl hr.pi).trans ?_
  simp only [Mem.set, Function.update_idem]
  rfl

theorem EndsQuietly.like (h : EndsQuietly m (nested m body 0) form x r s) : LikeCopySwap m body form x r s := by
  obtain ⟨t, hassign, hswap⟩ := h
  refine ⟨0, _, _, hassign, hswap, rfl, rfl, List.nodup_nil, ?_⟩
  intro _ _ _ _ _ _ _ hmem
  cases hmem

/-! ## When one does -/

/-- The source can be copied, or the copy and swap has no result. -/
theorem LikeCopySwap.canCount (h : LikeCopySwap m body form x r s) (o : Operands s x r hx hr) :
    CanCount s.heap hr.pi := by
  intro b blk hb hblk hmax
  obtain ⟨n, s₁, s₂, -, hswap, -⟩ := h
  have hstop : (copyCount m .shared hr.pi s.heap).1 = .stop := by
    rw [hb]
    exact copyCount_stop hblk hmax
  have hswap' : (copySwap m (nested m body n) x r form ⟨s, []⟩).1 = .stop := copySwap_stop o hstop form
  rw [hswap] at hswap'
  cases hswap'

/-- The last owner's release finds the target with the old block. -/
theorem LikeCopySwap.not_lastOwner (h : LikeCopySwap m body form x r s) (o : Operands s x r hx hr) (hcr : s.Counted hr)
    (hne : hr.pi ≠ hx.pi) : ¬ LastOwner s.heap hx.pi := by
  intro ⟨b, blk, hb, hblk, hlast⟩
  have hcan := h.canCount o
  obtain ⟨n, s₁, s₂, hassign, -, -, -, -, hsees⟩ := h
  obtain ⟨h₁, hc, hothers⟩ := copyCount_ok (m := m) hcr hcan
  rw [assignOf_apply o hne hc, hb] at hassign
  obtain ⟨_, t, hdrop, htake⟩ := Prog.bind_eq_ok.mp hassign
  have hrec := releaseBlock_records (fun L b => nested_recorded L body n b)
    ((hothers b fun h => hne (by rw [h, hb])).trans hblk) hlast hdrop
  have hafter : RunsAlike (Recorded ([] ++ [(b, ({ s with heap := h₁ }.set x (some (form.halfway hx hr))).obj)]))
      (takeOver x hr.pi) :=
    ((frames_recorded _).get id).bind fun _ => (frames_recorded _).modify _ id
  obtain ⟨h, hseen, hpi⟩ := hsees hx hr b _ o.target o.source hb
    ((hafter.recorded htake hrec).subset (List.mem_singleton_self _))
  rw [Mem.set_obj] at hseen
  rw [← Option.some.inj hseen] at hpi
  exact hne hpi.symm

/-! ## Deleters that do not name the target -/

/-- Two stories that differ in what `x` is. -/
def Differ (x : Ref V) (a b : Handle) (s t : Story V) : Prop :=
  s.mem.obj x = some a ∧ t.mem = s.mem.set x (some b) ∧ s.names = t.names

theorem frames_differ (x : Ref V) (a b : Handle) : Frames (Differ x a b) (· = x) where
  heap_eq h := by rw [h.2.1, Mem.set_heap]
  obj_eq h hne := by rw [h.2.1, Mem.set_obj_of_ne _ hne]
  heap _ h := ⟨h.1, by rw [h.2.1]; rfl, h.2.2⟩
  set _ h hne := by
    refine ⟨(Mem.set_obj_of_ne _ (Ne.symm hne) _).trans h.1, ?_, h.2.2⟩
    rw [h.2.1, Mem.set_comm _ hne]
  dispose _ h := ⟨h.1, h.2.1, by simpa [Story.names] using h.2.2⟩

/-- The release, from halfway and from the end, ends alike. -/
theorem sameOutcome_of_avoids (o : Operands s x r hx hr) (hcr : s.Counted hr) (hcan : CanCount s.heap hr.pi)
    (hne : hr.pi ≠ hx.pi) (hbody : ∀ b, (body b).Avoids (· = x)) (n : Nat) : SameOutcome m body form x r s n := by
  obtain ⟨h₁, hc, -⟩ := copyCount_ok (m := m) hcr hcan
  have hrun (b : Nat) : RunsAlike (Differ x (form.halfway hx hr) (form.final hx hr)) (nested m body n b) :=
    (frames_differ ..).nested (fun h => o.target_ne h.symm) hbody n b
  have halike : RunsAlike (Differ x (form.halfway hx hr) (form.final hx hr))
      (dropBlock m (nested m body n) .shared hx.pi) :=
    (frames_differ ..).dropBlock hrun hx.pi
  have h := halike ⟨({ s with heap := h₁ } : Mem V).set x (some (form.halfway hx hr)), []⟩
    ⟨({ s with heap := h₁ } : Mem V).set x (some (form.final hx hr)), []⟩
    ⟨Mem.set_obj .., by rw [Mem.set_set], rfl⟩
  simp only [SameOutcome, assignOf_apply o hne hc, copySwap_apply o hc, Prog.bind_apply]
  split at h
  next a s' a' t' h₁ h₂ =>
    obtain ⟨-, hobj, hmem, hnames⟩ := h
    rw [h₁, h₂]
    simp only [takeOver_apply hobj rfl]
    refine ⟨trivial, fun _ => ⟨?_, hnames⟩⟩
    rw [hmem]
    rfl
  next h₁ h₂ =>
    rw [h₁, h₂]
    exact ⟨by rw [h], nofun⟩
  next h₁ h₂ =>
    rw [h₁, h₂]
    exact ⟨rfl, nofun⟩
  next => exact h.elim

/-- **Copy assignment is the copy and swap** exactly when no deleter runs: the
source shares the block, or the target is not the last owner. Where one runs,
the outcome is the same when no deleter names the target. -/
theorem copyAssign_like_copySwap [Fintype V] (m : Mode) (body : Nat → UserCode V) (form : Assigned) {s : Mem V} {x r : V}
    {hx hr : Handle} (ok : s.Holds BlocksOk) (o : Operands s (.inl x) (.inl r) hx hr) :
    (LikeCopySwap m body form (.inl x) (.inl r) s ↔
      CanCount s.heap hr.pi ∧ (hr.pi = hx.pi ∨ ¬ LastOwner s.heap hx.pi)) ∧
    (CanCount s.heap hr.pi → (∀ b, (body b).Avoids (· = .inl x)) →
      ∀ n, SameOutcome m body form (.inl x) (.inl r) s n) := by
  have hcx := ok.counted o.target o.target_kind
  have hcr := ok.counted o.source o.source_kind
  refine ⟨⟨fun h => ⟨h.canCount o, ?_⟩, fun ⟨hcan, h⟩ => ?_⟩, fun hcan hbody n => ?_⟩
  · by_cases heq : hr.pi = hx.pi
    · exact .inl heq
    · exact .inr (h.not_lastOwner o hcr heq)
  · by_cases heq : hr.pi = hx.pi
    · exact (endsQuietly_of_same o hcr hcan heq).like
    · exact (endsQuietly_of_kept o hcx hcr hcan heq (h.resolve_left heq)).like
  · by_cases heq : hr.pi = hx.pi
    · have hquiet : EndsQuietly m (nested m body n) form (.inl x) (.inl r) s := endsQuietly_of_same o hcr hcan heq
      obtain ⟨t, hassign, hswap⟩ := hquiet
      simp only [SameOutcome, hassign, hswap, forall_const, and_self]
    · exact sameOutcome_of_avoids o hcr hcan heq hbody n

/-- Two pointers, each with an object of its own. -/
def twoOwners {V : Type} (x y : V) : List (AnyOp V) :=
  [.construct x (.raw (.ptrDeleter (some 8) (.user 0))), .construct y (.raw (.ptrDeleter (some 16) (.user 1)))]

/-- The deleter of the first block resets the first pointer. -/
def resetsTarget {V : Type} (x : V) : Nat → UserCode V
  | 0 => .call (.reset .shared x) .done
  | _ => .done

/-- The memory then: each block has one owner. -/
theorem run_twoOwners : ∃ s blk blk', Lib.run (AnyOp.step pages .constEval) .empty (twoOwners (0 : Fin 2) 1) = some s ∧
    Operands s (.inl 0) (.inl 1) ⟨.shared, some 8, some 0⟩ ⟨.shared, some 16, some 1⟩ ∧
    s.heap.blocks 0 = some blk ∧ blk.counts = .new ∧ s.heap.blocks 1 = some blk' ∧ blk'.counts = .new :=
  ⟨_, _, _, rfl, ⟨rfl, rfl, rfl, rfl, rfl⟩, rfl, rfl, rfl, rfl⟩

/-- An assignment to itself: no deleter runs. -/
theorem copyAssign_like_copySwap_self :
    ∃ s, Lib.run (AnyOp.step pages .constEval) .empty (twoOwners (0 : Fin 2) 1) = some s ∧
      LikeCopySwap .constEval (resetsTarget 0) .pointer (.inl 0) (.inl 0) s := by
  obtain ⟨s, blk, -, hrun, o, hblk, hcounts, -⟩ := run_twoOwners
  have o' : Operands s (.inl 0) (.inl 0) ⟨.shared, some 8, some 0⟩ ⟨.shared, some 8, some 0⟩ :=
    ⟨o.target, o.target, rfl, rfl, o.free⟩
  have hcan : CanCount s.heap (some 0) := by
    intro b blk' hb hblk'
    cases hb
    rw [hblk] at hblk'
    rw [← Option.some.inj hblk', hcounts]
    decide
  exact ⟨s, hrun, (copyAssign_like_copySwap .constEval (resetsTarget 0) .pointer (AnyOp.run_holds hrun holds_empty)
    o').1.mpr ⟨hcan, .inl rfl⟩⟩

/-- How a program ends in that memory, and what the first pointer is then. -/
def targetAfter (x y : V) (c : Prog (Story V) Exn Unit) : Option (Result Exn Unit × Option Handle) :=
  (Lib.run (AnyOp.step pages .constEval) .empty (twoOwners x y)).map fun s =>
    ((c ⟨s, []⟩).1, (c ⟨s, []⟩).2.mem.obj (.inl x))

/-- The deleter runs while the target refers to the old block, and resets it: the
assignment leaves a null pointer with a reference to the new block, the copy and
swap an empty one. -/
theorem reset_in_deleter :
    targetAfter (0 : Fin 2) 1 (assignOf .constEval (nested .constEval (resetsTarget 0) 1) (.inl 0) (.inl 1) .pointer) =
        some (.ok (), some ⟨.shared, none, some 1⟩) ∧
      targetAfter (0 : Fin 2) 1 (copySwap .constEval (nested .constEval (resetsTarget 0) 1) (.inl 0) (.inl 1) .pointer) =
        some (.ok (), some ⟨.shared, none, none⟩) ∧
      ∃ s, Lib.run (AnyOp.step pages .constEval) .empty (twoOwners (0 : Fin 2) 1) = some s ∧
        ¬ LikeCopySwap .constEval (resetsTarget 0) .pointer (.inl 0) (.inl 1) s := by
  refine ⟨by decide +kernel, by decide +kernel, ?_⟩
  obtain ⟨s, blk, -, hrun, o, hblk, hcounts, -⟩ := run_twoOwners
  have hcounted := (AnyOp.run_holds hrun holds_empty).counted o.source o.source_kind
  exact ⟨s, hrun, fun h => h.not_lastOwner o hcounted (by decide) ⟨0, blk, rfl, hblk, by rw [hcounts]; rfl⟩⟩

end SharedPtr.Seq
