/-
A pointer that is given to a shared pointer is passed to its deleter once: when
the last owner of its control block goes, or at once when there is no storage
for a block. Copies, aliases, casts and locks in between change nothing
(`deleter_calls`). A second shared pointer made of the same pointer is what
the comments on the casts warn of: the pointer is deleted twice
(`owned_again_deletes_twice`).
-/
import SharedPtr.PointerCasts

namespace SharedPtr.Seq

open Lib (Prog Result run outputs)
open Lib.Prog (Keeps)

/-! ## Pointers that are given -/

/-- The deleter of a block and the pointer that it is called with. -/
def Managed.deleter : Managed → Option (Deleter × Ptr)
  | .countedPtr ptr => some (.delete, ptr)
  | .countedDeleter ptr del | .countedReference ptr del => some (del, ptr)
  | _ => none

@[simp] theorem UniquePtr.deleter_counted (r : UniquePtr) (p : Ptr) (d : Deleter) :
    (r.counted p d).deleter = some (d, p) := by
  unfold counted
  split <;> rfl

/-- A deleter that a program can pass, or that a constructor chooses for it. -/
def Deleter.given : Deleter → Bool
  | .elements .. => false
  | _ => true

def Raw.acquires (arg : Raw) : List (Deleter × Ptr) := [(arg.offer.del, arg.offer.ptr)]

/-- The pointers that a construction takes ownership of, with their deleters: none of a `unique_ptr` that
is empty, or that keeps its pointer since there is no storage. -/
def Construction.acquires (E : Env) (h : Heap) : Construction → List (Deleter × Ptr)
  | raw arg => arg.acquires
  | unique r =>
    match r.ptr, E.allocate h.allocations, r.del with
    | some p, .ok _, some d => [(d, some p)]
    | _, _, _ => []
  | make .. => []

variable {V : Type} [DecidableEq V]

def AnyOp.acquires (E : Env) (h : Heap) : AnyOp V → List (Deleter × Ptr)
  | plain (.own _ p d) | plain (.resetOwn _ p d) => [(.user d, p)]
  | plain _ => []
  | construct _ c => c.acquires E h
  | reset _ arg => arg.acquires
  | assignUnique _ r => (Construction.unique r).acquires E h

/-- The pointers that an operation takes ownership of in the state `s`. -/
def CastOp.acquires (E : Env) (s : Mem V) : CastOp V → List (Deleter × Ptr)
  | op o => o.acquires E s.heap
  | cast .. => []
  | own c _ r => [(.delete, (s.obj (.inl r)).elim none fun h => c h.ptr)]

/-- The pointers given to shared pointers in a run, in their order. -/
abbrev acquired (E : Env) (m : Mode) (s : Mem V) (ops : List (CastOp V)) : List (Deleter × Ptr) :=
  outputs (CastOp.step E m) (CastOp.acquires E) s ops

/-! ## Calls of deleters -/

section

variable {d d' : Deleter} {p q : Ptr}

theorem not_mem_destroyElements (a : Source) (i : Nat) : .deleter d p ∉ destroyElements a q i := by
  induction i with
  | zero => simp [destroyElements]
  | succ i ih => simp [destroyElements, ih]

theorem not_mem_destroyN (n : Nat) : .deleter d p ∉ destroyN q n := by simp [destroyN]

theorem not_mem_destroyRange (via : Option Source) (n : Nat) : .deleter d p ∉ destroyRange via q n := by
  cases via with
  | none => exact not_mem_destroyN n
  | some a => simp [destroyRange]

theorem not_mem_elementEvents (c : Chunk) (via : Option Source) (init : Nat → Init) (B : Built) :
    .deleter d p ∉ elementEvents c via init q B := by
  intro h
  rcases List.mem_cons.mp h with h | h
  · cases h
  · cases mem_buildEvents h

theorem count_call : (d'.call q).count (.deleter d p) = [(d', q)].count (d, p) := by
  have hrest : ∀ es, .deleter d p ∉ es → (Event.deleter d' q :: es).count (.deleter d p) = [(d', q)].count (d, p) := by
    intro es hes
    simp [List.count_cons, List.count_eq_zero.mpr hes]
  cases d' with
  | elements a2 i n => exact hrest _ (by simp [not_mem_destroyElements])
  | delete | arrayDelete | defaultDelete | user => exact hrest _ (by simp)

/-- The virtual function calls the deleter of the block. -/
theorem Managed.count_dispose (md : Managed) : md.dispose.count (.deleter d p) = md.deleter.toList.count (d, p) := by
  have hnone : ∀ es : List Event, .deleter d p ∉ es → es.count (.deleter d p) = 0 := fun es => List.count_eq_zero.mpr
  cases md with
  | countedPtr | countedDeleter | countedReference => exact count_call
  | countedInplace | countedOverwrite => exact hnone _ (by simp [dispose])
  | countedArray alloc n overwrite allocPtr self =>
    refine hnone _ ?_
    simp only [dispose, disposeArray]
    split
    · split
      · exact not_mem_destroyN n
      · exact not_mem_destroyElements alloc n
    · simp

theorem count_calls_deleter (blk : Block) (b : Nat) (calls : List Call) :
    (calls.flatMap (blk.call b)).count (.deleter d p) =
      calls.count .dispose * blk.managed.dispose.count (.deleter d p) := by
  induction calls with
  | nil => simp
  | cons c calls ih =>
    rw [List.flatMap_cons, List.count_append, ih]
    cases c with
    | dispose =>
      have h : (blk.call b .dispose).count (.deleter d p) = blk.managed.dispose.count (.deleter d p) := by
        simp [Block.call]
      rw [h, List.count_cons_self, Nat.succ_mul, Nat.add_comm]
    | destroy =>
      have h : (blk.call b .destroy).count (.deleter d p) = 0 := by simp [Block.call]
      rw [h, Nat.zero_add, List.count_cons_of_ne (by simp)]

theorem count_release_deleter (m : Mode) (k : Kind) (blk : Block) (b : Nat) :
    (blk.release m k b).count (.deleter d p) =
      (blk.counts.drop m k).2.count .dispose * blk.managed.dispose.count (.deleter d p) := by
  rw [Block.release, List.count_cons_of_ne (by simp), count_calls_deleter]

end

/-! ## The invariant -/

/-- Whether the block is to call `d` with `p` yet. -/
def Block.owes (blk : Block) (d : Deleter) (p : Ptr) : Nat :=
  blk.counts.due (blk.managed.dispose.count (.deleter d p)) 0

/-- The calls of `d` with `p` that the blocks will make. -/
def Heap.owes (h : Heap) (d : Deleter) (p : Ptr) : Nat := ∑ b ∈ Finset.range h.next, (h.blocks b).elim 0 (·.owes d p)

/-- The calls made and the calls to come are `n`, and each block without owners has made its own. -/
structure Called (d : Deleter) (p : Ptr) (n : Nat) (own : Owners) (h : Heap) : Prop where
  blocksOk : BlocksOk own h
  calls : h.log.count (.deleter d p) + h.owes d p = n
  disposed : ∀ b blk, h.blocks b = some blk → own .shared b = 0 → (.dispose b :: blk.managed.dispose) <:+: h.log

section

variable {d : Deleter} {p : Ptr} {n : Nat} {own : Owners} {h h' : Heap} {m : Mode} {k : Kind}

/-- A block's part of the sum, and the others'. -/
theorem Heap.exists_owes {b : Nat} {blk : Block} (hb : h.blocks b = some blk) (hlt : b < h.next) :
    ∃ rest, h.owes d p = blk.owes d p + rest ∧
      ∀ c, (h.setCounts b blk c).owes d p = Block.owes { blk with counts := c } d p + rest := by
  obtain ⟨rest, hs, hu⟩ := Lib.exists_sum_update_of_mem (fun o : Option Block => o.elim 0 (·.owes d p))
    h.blocks (Finset.mem_range.mpr hlt)
  rw [hb] at hs
  exact ⟨rest, hs, fun c => hu _⟩

/-- A block after new counters were set. -/
theorem setCounts_cases {b b' : Nat} {blk blk' : Block} {c : Counts} (hb' : (h.setCounts b blk c).blocks b' = some blk') :
    b' = b ∧ blk' = { blk with counts := c } ∨ b' ≠ b ∧ h.blocks b' = some blk' := by
  by_cases hbb : b' = b
  · subst hbb
    have hset : Function.update h.blocks b' (some { blk with counts := c }) b' = some blk' := hb'
    rw [Function.update_self] at hset
    exact .inl ⟨rfl, (Option.some.inj hset).symm⟩
  · exact .inr ⟨hbb, (Function.update_of_ne hbb ..).symm.trans hb'⟩

theorem Called.release {b : Nat} (ok : Called d p n (own.add k (some b)) h) : Called d p n own (release m k b h) := by
  obtain ⟨blk, hb, hw, hu, hlast⟩ := ok.blocksOk.of_add
  obtain ⟨rest, ho, ho'⟩ := Heap.exists_owes (d := d) (p := p) hb (ok.blocksOk.lt hb)
  have hdue := Counts.due_drop (m := m) hw hu hlast (blk.managed.dispose.count (.deleter d p)) 0
  have hcalls := ok.calls
  refine ⟨ok.blocksOk.release, ?_, fun b' blk' hb' hown => ?_⟩
  · rw [release_of_block hb]
    show (h.log ++ _).count _ + (h.setCounts b blk (blk.counts.drop m k).1).owes d p = n
    rw [List.count_append, count_release_deleter, ho']
    rw [ho] at hcalls
    simp only [Block.owes, Nat.mul_zero, Nat.add_zero] at hcalls hdue ⊢
    omega
  · rw [release_of_block hb] at hb' ⊢
    have old : ∀ {blk₀ : Block}, h.blocks b' = some blk₀ → own.add k (some b) .shared b' = 0 →
        (.dispose b' :: blk₀.managed.dispose) <:+: h.log ++ blk.release m k b := fun hb₀ h₀ =>
      (ok.disposed b' _ hb₀ h₀).trans (List.infix_append' [] h.log _)
    rcases setCounts_cases hb' with ⟨hbb, rfl⟩ | ⟨hbb, hb₀⟩
    · subst hbb
      cases k with
      | weak =>
        have hinfix := old hb (by simpa [Owners.add] using hown)
        exact hinfix
      | shared =>
        -- The last owner goes.
        have hblk := ok.blocksOk.blocks b'
        rw [hb] at hblk
        have h1 : blk.counts.useCount = 1 := by
          rw [eq_one_iff, hblk.1]
          simp [Owners.add, hown]
        refine ⟨h.log ++ [.release .shared b'],
          (if blk.counts.weakCount = 1 then [Call.destroy] else []).flatMap (blk.call b'), ?_⟩
        show _ = h.log ++ blk.release m .shared b'
        rw [Block.release, show Counts.drop m .shared = Counts.release m from rfl, Counts.release_eq, if_pos h1,
          List.flatMap_cons]
        simp [Block.call]
    · exact old hb₀ (by simpa [Owners.add, Ne.symm hbb] using hown)

theorem Called.more {b : Nat} {blk : Block} (ok : Called d p n own h) (hb : h.blocks b = some blk)
    (hown : own.admits k b) (hu : k = .shared → blk.counts.useCount ≠ -1) (hw : k = .weak → blk.counts.weakCount ≠ -1) :
    Called d p n (own.add k (some b)) (h.setCounts b blk (blk.counts.more k)) := by
  obtain ⟨hw0, hu0⟩ := ok.blocksOk.of_admits hb hown
  obtain ⟨rest, ho, ho'⟩ := Heap.exists_owes (d := d) (p := p) hb (ok.blocksOk.lt hb)
  refine ⟨ok.blocksOk.more hb hown hu hw, ?_, fun b' blk' hb' h₀ => ?_⟩
  · rw [ho', Block.owes, Counts.due_more hw0 (fun hk => (hu0 hk).2) hu hw]
    rw [show blk.counts.due _ _ = blk.owes d p from rfl, ← ho]
    exact ok.calls
  · have h₁ : own .shared b' = 0 := Nat.eq_zero_of_add_eq_zero_right h₀
    rcases setCounts_cases hb' with ⟨rfl, rfl⟩ | ⟨-, hb₀⟩
    · exact ok.disposed b' blk hb h₁
    · exact ok.disposed b' blk' hb₀ h₁

variable (d p n) in
theorem ledger_called : Ledger (Called d p n) := ⟨Called.blocksOk, Called.release, Called.more⟩

theorem Called.callsOut {new : List Event} (ok : Called d p n own h) (hc : CallsOut h h' new) :
    Called d p (n + new.count (.deleter d p)) own h' := by
  refine ⟨hc.blocksOk ok.blocksOk, ?_, fun b blk hb h₀ => ?_⟩
  · have howes : h'.owes d p = h.owes d p := by rw [Heap.owes, hc.blocks, hc.next, Heap.owes]
    rw [howes, hc.log, List.count_append, ← ok.calls]
    omega
  · rw [hc.blocks] at hb
    rw [hc.log]
    exact (ok.disposed b blk hb h₀).trans (List.infix_append' [] h.log new)

/-- A new block owes a call of its deleter. -/
theorem Called.construct (ok : Called d p n own h) (md : Managed) (c : Chunk) :
    Called d p (n + md.dispose.count (.deleter d p)) (own.add .shared (some h.next)) (h.construct md c).2 := by
  refine ⟨ok.blocksOk.construct md c, ?_, fun b blk hb h₀ => ?_⟩
  swap
  · have hne : b ≠ h.next := by
      rintro rfl
      simp [Owners.add] at h₀
    exact ok.disposed b blk ((Function.update_of_ne hne ..).symm.trans hb) (Nat.eq_zero_of_add_eq_zero_right h₀)
  have hnew : Block.owes ⟨.new, md, c⟩ d p = md.dispose.count (.deleter d p) := by
    simp [Block.owes, Counts.due, Counts.new]
  have hsum : (h.construct md c).2.owes d p = h.owes d p + Block.owes ⟨.new, md, c⟩ d p := by
    simp only [Heap.owes, Heap.construct, Finset.sum_range_succ, Function.update_self, Option.elim]
    congr 1
    refine Finset.sum_congr rfl ?_
    intro b hb
    rw [Function.update_of_ne (Nat.ne_of_lt (Finset.mem_range.mp hb))]
  rw [hsum, hnew, ← ok.calls]
  show h.log.count _ + _ = _
  omega

theorem Called.emit (ok : Called d p n own h) {es : List Event} (hq : Quiet es) :
    Called d p (n + es.count (.deleter d p)) own (h.emit es) := by
  refine ⟨ok.blocksOk.emit hq, ?_, fun b blk hb h₀ => (ok.disposed b blk hb h₀).trans (List.infix_append' [] h.log es)⟩
  show (h.log ++ es).count _ + h.owes d p = _
  rw [List.count_append, ← ok.calls]
  omega

end

/-! ## New blocks -/

/-- The calls made, and those that the block named `b` will make. -/
def Heap.tally (h : Heap) (b : Nat) (d : Deleter) (p : Ptr) : Nat :=
  h.log.count (.deleter d p) + (h.blocks b).elim 0 (·.managed.dispose.count (.deleter d p))

section

variable {E : Env} {m : Mode} {d : Deleter} {p : Ptr} {n : Nat} {own : Owners} {h : Heap}

theorem tally_emit {h : Heap} {es : List Event} (hnext : h.blocks h.next = none) :
    (h.afterFailure.emit es).tally h.next d p = h.log.count (.deleter d p) + es.count (.deleter d p) := by
  show (h.log ++ es).count _ + (h.blocks h.next).elim 0 _ = _
  rw [hnext, List.count_append]
  rfl

theorem tally_afterFailure (hnext : h.blocks h.next = none) :
    h.afterFailure.tally h.next d p = h.log.count (.deleter d p) := by
  show h.log.count _ + (h.blocks h.next).elim 0 _ = _
  rw [hnext]
  rfl

theorem tally_construct {h h' : Heap} {es : List Event} (hlog : h'.log = h.log ++ es) (hnext : h'.next = h.next)
    (md : Managed) (c : Chunk) : (h'.construct md c).2.tally h.next d p =
      h.log.count (.deleter d p) + es.count (.deleter d p) + md.deleter.toList.count (d, p) := by
  show h'.log.count _ + (Function.update h'.blocks h'.next _ h.next).elim 0 _ = _
  rw [hnext, Function.update_self, hlog, List.count_append, ← Managed.count_dispose]
  rfl

theorem tally_afterConstruct (h : Heap) (source : Source) (mem : Ptr) (md : Managed) :
    (h.afterConstruct source mem md).tally h.next d p =
      h.log.count (.deleter d p) + md.deleter.toList.count (d, p) := by
  have hlog : (h.afterFailure.emit [.allocate ⟨source, .controlBlock, mem, 1⟩]).log =
      h.log ++ [.allocate ⟨source, .controlBlock, mem, 1⟩] := rfl
  rw [Heap.afterConstruct, tally_construct hlog rfl]
  simp

/-- The pointer is passed to the deleter, or a block will pass it. -/
theorem tally_ofPtrDeleterAlloc (q : Ptr) (d' : Deleter) (a : Source) (hnext : h.blocks h.next = none) :
    (SharedCount.ofPtrDeleterAlloc E q d' a h).2.tally h.next d p =
      h.log.count (.deleter d p) + [(d', q)].count (d, p) := by
  rw [SharedCount.ofPtrDeleterAlloc_apply]
  cases E.allocate h.allocations with
  | error e => exact (tally_emit hnext).trans (by rw [count_call])
  | ok mem => exact tally_afterConstruct h a mem _

theorem tally_ofPtr (q : Ptr) (hnext : h.blocks h.next = none) :
    (SharedCount.ofPtr E q h).2.tally h.next d p = h.log.count (.deleter d p) + [(.delete, q)].count (d, p) := by
  rw [SharedCount.ofPtr_apply]
  cases E.allocate h.allocations with
  | error e => exact (tally_emit hnext).trans (by rw [count_call])
  | ok mem => exact tally_afterConstruct h .new mem _

/-- Elements are constructed, and no deleter is called. -/
theorem tally_elements {h' : Heap} {c : Chunk} {via : Option Source} {init : Nat → Init} {q : Ptr} {B : Built}
    {l : List Event} (hnext : h.blocks h.next = none) (hblocks : h'.blocks = h.blocks)
    (hlog : h'.log = (h.afterElements c via init q B).log ++ l) (hl : .deleter d p ∉ l) :
    h'.tally h.next d p = h.log.count (.deleter d p) := by
  rw [Heap.tally, hblocks, hnext, hlog, Heap.afterElements_log, List.count_append, List.count_append,
    List.count_eq_zero.mpr (not_mem_elementEvents c via init B), List.count_eq_zero.mpr hl]
  rfl

/-- The same, and a block without this deleter is constructed. -/
theorem tally_block {h' : Heap} {c c' : Chunk} {via : Option Source} {init : Nat → Init} {q : Ptr} {B : Built}
    {l : List Event} {md : Managed} (hnext : h'.next = h.next) (hlog : h'.log = (h.afterElements c via init q B).log ++ l)
    (hl : .deleter d p ∉ l) (hmd : md.deleter ≠ some (d, p)) :
    (h'.construct md c').2.tally h.next d p = h.log.count (.deleter d p) := by
  have hcount : md.deleter.toList.count (d, p) = 0 := by
    cases hd : md.deleter with
    | none => rfl
    | some o =>
      rw [hd] at hmd
      simpa [List.count_singleton] using fun ho => hmd (congrArg some ho)
  rw [Heap.afterElements_log, List.append_assoc] at hlog
  rw [tally_construct hlog hnext, hcount, List.count_append, List.count_eq_zero.mpr (not_mem_elementEvents c via init B),
    List.count_eq_zero.mpr hl]
  rfl

theorem not_mem_call {a2 : Source} {i k : Nat} {q : Ptr} (hd : d.given) :
    .deleter d p ∉ (Deleter.elements a2 i k).call q := by
  have hne : d ≠ .elements a2 i k := by
    rintro rfl
    cases hd
  simp [Deleter.call, not_mem_destroyElements, hne]

theorem tally_cest (a : Source) (k : Nat) (init : Init) (hd : d.given) (hnext : h.blocks h.next = none) :
    (cestAllocateShared E a k init h).2.tally h.next d p = h.log.count (.deleter d p) := by
  rw [cestAllocateShared_apply]
  cases E.allocate h.allocations with
  | error e => exact (tally_emit hnext).trans (by rw [List.count_eq_zero.mpr (not_mem_call hd)]; rfl)
  | ok q =>
    simp only
    cases (E.build (fun _ => init) h.constructions 0 k).failure with
    | some e => exact tally_elements hnext rfl rfl (not_mem_call hd)
    | none =>
      cases E.allocate (h.allocations + 1) with
      | error e => exact tally_elements hnext rfl rfl (not_mem_call hd)
      | ok mem =>
        refine tally_block rfl (l := [.allocate ⟨a, .controlBlock, mem, 1⟩]) rfl (by simp) ?_
        intro hmd
        cases hmd
        cases hd

theorem tally_ofAllocShared (L : Layout) (a : Source) (ini : Initial) (hnext : h.blocks h.next = none) :
    (SharedCount.ofAllocShared E L a ini h).2.tally h.next d p = h.log.count (.deleter d p) := by
  rw [ofAllocShared_apply]
  cases E.allocate h.allocations with
  | error e => exact tally_afterFailure hnext
  | ok mem =>
    simp only
    cases (E.build (fun _ => ini.init) h.constructions 0 1).failure with
    | some e =>
      cases mem with
      | none => exact tally_elements hnext rfl (List.append_nil _).symm (by simp)
      | some q => exact tally_elements hnext rfl (l := [.deallocate ⟨a, .controlBlock, some q, 1⟩]) rfl (by simp)
    | none =>
      refine tally_block rfl (List.append_nil _).symm (by simp) ?_
      unfold Initial.inplace
      split <;> simp [Managed.deleter]

theorem tally_allocateSharedArray (L : Layout) (a : Source) (shape : ArrayShape L) (ini : Initial)
    (hnext : h.blocks h.next = none) : (allocateSharedArray E L a shape ini h).1 = .stop ∨
      (allocateSharedArray E L a shape ini h).2.tally h.next d p = h.log.count (.deleter d p) := by
  by_cases hlt : shape.count < 2 ^ 64
  · cases hp : E.allocate h.allocations with
    | error e =>
      rw [allocateSharedArray_apply, if_pos hlt, ofCountedArray_apply _ _ rfl, hp]
      exact .inr (tally_afterFailure hnext)
    | ok q =>
      rw [allocateSharedArray_of_allocate hlt hp]
      simp only
      cases (shape.build E ini h).failure with
      | some e =>
        have hrange : .deleter d p ∉ destroyRange (ini.via a) q (shape.build E ini h).values.length :=
          not_mem_destroyRange _ _
        simp only [SharedCount.dropArray]
        split
        · exact .inr (tally_elements hnext rfl (List.append_assoc ..) (by simp [hrange]))
        · exact .inr (tally_elements hnext rfl rfl hrange)
      | none =>
        cases q.bind (SharedCount.blockAddress L (BitVec.ofNat 64 shape.count)) with
        | none => exact .inl rfl
        | some self => exact .inr (tally_block rfl (List.append_nil _).symm (by simp) (by simp [Managed.deleter]))
  · rw [allocateSharedArray_apply, if_neg hlt]
    exact .inl rfl

theorem tally_allocateShared (L : Layout) (constEval : Bool) (a : Source) (form : Form L) (ini : Initial)
    (hd : d.given) (hnext : h.blocks h.next = none) : (allocateShared E L constEval a form ini h).1 = .stop ∨
      (allocateShared E L constEval a form ini h).2.tally h.next d p = h.log.count (.deleter d p) := by
  unfold allocateShared
  split
  · exact .inr (tally_cest a _ _ hd hnext)
  · cases form with
    | single => exact .inr (tally_ofAllocShared L a ini hnext)
    | array shape => exact tally_allocateSharedArray L a shape ini hnext

end

/-! ## Operations -/

section

variable [Fintype V] {E : Env} {m : Mode} {d : Deleter} {p : Ptr} {n a : Nat} {x : Ref V} {s : Mem V}

omit [DecidableEq V] in
theorem Called.holds_empty : (Mem.empty : Mem V).Holds (Called d p 0) :=
  ⟨Seq.holds_empty, rfl, nofun⟩

/-- A construction makes the calls, or a block that will. -/
theorem Constructs.called {r : Result Exn Unit × Mem V} (hc : Constructs x s r) (ok : s.Holds (Called d p n))
    (ht : r.1 = .stop ∨ r.2.heap.tally s.heap.next d p = s.heap.log.count (.deleter d p) + a) :
    r.1 = .stop ∨ r.2.Holds (Called d p (n + a)) := by
  have hnext : s.heap.blocks s.heap.next = none := ok.blocksOk.next_none
  cases hc with
  | stopped => exact .inl rfl
  | failed hc =>
    rename_i e h' new
    have hnew : new.count (.deleter d p) = a := by
      have ht := ht.resolve_left (by simp)
      rw [Heap.tally, hc.log, hc.blocks, hnext, List.count_append] at ht
      simpa using ht
    exact .inr (hnew ▸ ok.callsOut hc)
  | empty hx =>
    have ha : a = 0 := by
      have ht := ht.resolve_left (by simp)
      rw [Heap.tally, Mem.set_heap, hnext] at ht
      simpa using ht.symm
    subst ha
    refine .inr ?_
    rw [Mem.Holds, Mem.owners_create hx, Owners.add_none]
    exact ok
  | made hx hc hcopy =>
    rename_i h' new copy md c q
    have hcount : copy.count (.deleter d p) = 0 := List.count_eq_zero.mpr fun he => by cases hcopy _ he
    have hquiet : Quiet copy := fun b => by
      constructor <;> exact List.count_eq_zero.mpr fun he => by cases hcopy _ he
    have hnew : new.count (.deleter d p) + md.dispose.count (.deleter d p) = a := by
      have ht : ((h'.construct md c).2.emit copy).tally s.heap.next d p = _ := ht.resolve_left (by simp)
      rw [Heap.tally, ← hc.next] at ht
      simp only [Heap.emit, Heap.construct, Function.update_self, Option.elim, hc.log, List.count_append, hcount] at ht
      omega
    have ok' := ((ok.callsOut hc).construct md c).emit hquiet
    rw [hcount, Nat.add_zero, Nat.add_assoc, hnew, hc.next] at ok'
    refine .inr ?_
    rw [Mem.Holds, Mem.owners_create (s := { s with heap := (h'.construct md c).2.emit copy }) hx]
    exact ok'

omit [Fintype V] in
/-- The heap is what the construction of the reference has made of it. -/
theorem ownCtor_heap (x : Ref V) (q : Ptr) (rc : Prog Heap Exn CountPtr) (s : Mem V) :
    (ownCtor x q rc s).1 = .stop ∨ (ownCtor x q rc s).2.heap = (rc s.heap).2 := by
  rw [ownCtor, Prog.bind_apply, onHeap]
  cases rc s.heap with
  | mk r h =>
    cases r with
    | stop | throw => exact .inr rfl
    | ok pi =>
      rcases create_cases x ⟨.shared, q, pi⟩ { s with heap := h } with he | ⟨-, he⟩
      · exact .inl (by simp [he])
      · exact .inr (by simp [he])

omit [Fintype V] in
theorem makeCtor_heap (x : Ref V) (rc : Prog Heap Exn (Ptr × CountPtr)) (s : Mem V) :
    (makeCtor x rc s).1 = .stop ∨ (rc s.heap).1 ≠ .stop ∧ (makeCtor x rc s).2.heap = (rc s.heap).2 := by
  rw [makeCtor, Prog.bind_apply, onHeap]
  cases rc s.heap with
  | mk r h =>
    cases r with
    | stop => exact .inl rfl
    | throw => exact .inr ⟨by simp, rfl⟩
    | ok made =>
      rcases create_cases x ⟨.shared, made.1, made.2⟩ { s with heap := h } with he | ⟨-, he⟩
      · exact .inl (by simp [he])
      · exact .inr ⟨by simp, by simp [he]⟩

omit [Fintype V] in
/-- A `unique_ptr` gives its pointer to a new block, or keeps it. -/
theorem uniqueCtor_heap (E : Env) (m : Mode) (x : Ref V) (s : Mem V) (r : UniquePtr) :
    (withUnique r (uniqueCtor E m x) s).1 = .stop ∨
      (Construction.unique r).acquires E s.heap = [] ∧
        ((withUnique r (uniqueCtor E m x) s).2.heap = s.heap ∨
          (withUnique r (uniqueCtor E m x) s).2.heap = s.heap.afterFailure) ∨
      ∃ d' mem, r.del = some d' ∧ (Construction.unique r).acquires E s.heap = [(d', r.ptr)] ∧
        (withUnique r (uniqueCtor E m x) s).2.heap =
          (s.heap.afterConstruct .std mem (r.counted r.ptr d')).emit [.release .shared s.heap.next] := by
  cases hp : r.ptr with
  | none =>
    have hnull : uniqueCtor E m x (s, r) = inMem (create x ⟨.shared, none, none⟩) (s, r) := by
      simp [uniqueCtor, Prog.bind_apply, ofUniqueIn, SharedCount.ofUnique_apply, hp, inMem, Prog.outer, onHeap,
        dropCount, assignCount]
    rw [withUnique, hnull, inMem, Prog.outer]
    rcases create_cases x ⟨.shared, none, none⟩ s with he | ⟨-, he⟩
    · exact .inl (by simp [he])
    · exact .inr (.inl ⟨by simp [Construction.acquires, hp], .inl (by simp [he])⟩)
  | some q =>
    cases he : E.allocate s.heap.allocations with
    | error e =>
      have hthrow : uniqueCtor E m x (s, r) = (.throw e, ({ s with heap := s.heap.afterFailure }, r)) := by
        simp [uniqueCtor, Prog.bind_apply, ofUniqueIn, SharedCount.ofUnique_apply, hp, he]
      rw [withUnique, hthrow]
      exact .inr (.inl ⟨by simp [Construction.acquires, hp, he], .inr rfl⟩)
    | ok mem =>
      cases hd : r.del with
      | none =>
        refine .inl ?_
        simp [withUnique, uniqueCtor, Prog.bind_apply, ofUniqueIn, SharedCount.ofUnique_apply, hp, he, hd]
      | some d' =>
        obtain ⟨h', hassign, hdrop⟩ := count_moves m s.heap .std mem (r.counted (some q) d')
        obtain ⟨h₂, hh₂⟩ : ∃ h₂, h₂ = (s.heap.afterConstruct .std mem (r.counted (some q) d')).emit
          [.release .shared s.heap.next] := ⟨_, rfl⟩
        rw [← hh₂] at hdrop
        have hcreate : uniqueCtor E m x (s, r) = inMem (create x ⟨.shared, some q, some s.heap.next⟩)
            ({ s with heap := h₂ }, r.release.2.forwardDeleter.2) := by
          simp [uniqueCtor, Prog.bind_apply, ofUniqueIn, SharedCount.ofUnique_apply, hp, he, hd, inMem, Prog.outer, onHeap,
            hassign, hdrop]
        rw [withUnique, hcreate, inMem, Prog.outer]
        rcases create_cases x ⟨.shared, some q, some s.heap.next⟩ { s with heap := h₂ } with hs | ⟨-, hs⟩
        · exact .inl (by simp [hs])
        · refine .inr (.inr ⟨d', mem, rfl, by simp [Construction.acquires, hp, he, hd], ?_⟩)
          simp only [hs, Mem.set_heap]
          exact hh₂

omit [Fintype V] in
theorem tally_uniqueCtor (r : UniquePtr) (hnext : s.heap.blocks s.heap.next = none) :
    (withUnique r (uniqueCtor E m x) s).1 = .stop ∨
      (withUnique r (uniqueCtor E m x) s).2.heap.tally s.heap.next d p =
        s.heap.log.count (.deleter d p) + ((Construction.unique r).acquires E s.heap).count (d, p) := by
  rcases uniqueCtor_heap E m x s r with he | ⟨ha, he | he⟩ | ⟨d', mem, -, ha, he⟩
  · exact .inl he
  · exact .inr (by rw [he, ha, Heap.tally, hnext]; rfl)
  · exact .inr (by rw [he, ha, tally_afterFailure hnext]; rfl)
  · have ht := tally_afterConstruct (d := d) (p := p) s.heap .std mem (r.counted r.ptr d')
    refine .inr ?_
    rw [he, ha]
    simpa [Heap.tally, Heap.emit] using ht

omit [Fintype V] in
/-- **Every construction** makes the calls of what it takes, or a block that will. -/
theorem tally_ctor (c : Construction) (hd : d.given) (hnext : s.heap.blocks s.heap.next = none) :
    (c.ctor E m x s).1 = .stop ∨ (c.ctor E m x s).2.heap.tally s.heap.next d p =
      s.heap.log.count (.deleter d p) + (c.acquires E s.heap).count (d, p) := by
  have hown : ∀ {q rc k}, (rc s.heap).2.tally s.heap.next d p = k → (ownCtor x q rc s).1 = .stop ∨
      (ownCtor x q rc s).2.heap.tally s.heap.next d p = k := fun {q rc k} h =>
    (ownCtor_heap x q rc s).imp_right fun he => by rw [he, h]
  cases c with
  | raw arg =>
    cases arg with
    | ptr isArray q =>
      cases isArray with
      | false => exact hown (tally_ofPtr q hnext)
      | true => exact hown (tally_ofPtrDeleterAlloc q _ _ hnext)
    | ptrDeleter q d' | ptrDeleterAlloc q d' => exact hown (tally_ofPtrDeleterAlloc q d' _ hnext)
  | unique r => exact tally_uniqueCtor r hnext
  | make a L form ini =>
    rcases makeCtor_heap x (allocateShared E L (m = .constEval) a form ini) s with he | ⟨hne, he⟩
    · exact .inl he
    · refine .inr ?_
      rw [Construction.ctor, he, (tally_allocateShared L _ a form ini hd hnext).resolve_left hne]
      rfl

theorem ctor_called (c : Construction) (hd : d.given) (x : Ref V) (ok : s.Holds (Called d p n)) :
    (c.ctor E m x s).1 = .stop ∨ (c.ctor E m x s).2.Holds (Called d p (n + (c.acquires E s.heap).count (d, p))) :=
  (c.ctor_constructs E m x s).called ok (tally_ctor c hd ok.blocksOk.next_none)

theorem swapTemporary_called {k : Kind} {make : Ref V → Prog (Mem V) Exn Unit}
    (hmake : (make (.inr .tmp) s).1 = .stop ∨ (make (.inr .tmp) s).2.Holds (Called d p n)) :
    (swapTemporary m k make x s).1 = .stop ∨ (swapTemporary m k make x s).2.Holds (Called d p n) := by
  have hrest : Keeps (Mem.Holds (Called d p n)) (Prog.atExit (swap k (.inr .tmp) x) (destroyObject m (.inr .tmp))) :=
    swap_keeps.atExit fun _ => destroyObject_holds (ledger_called d p n)
  rw [swapTemporary, Prog.bind_apply]
  cases hr : make (.inr .tmp) s with
  | mk r s' =>
    rw [hr] at hmake
    cases r with
    | ok => exact hrest s' (hmake.resolve_left (by simp))
    | throw => exact hmake
    | stop => exact .inl rfl

theorem exec_called (op : Op V) (hd : d.given) (ok : s.Holds (Called d p n)) : (exec E m op s).1 = .stop ∨
    (exec E m op s).2.Holds (Called d p (n + ((AnyOp.plain op).acquires E s.heap).count (d, p))) := by
  have hI := ledger_called d p n
  cases op with
  | own x q d' => exact ctor_called (m := m) (.raw (.ptrDeleter q (.user d'))) hd _ ok
  | resetOwn x q d' => exact swapTemporary_called (ctor_called (m := m) (.raw (.ptrDeleter q (.user d'))) hd _ ok)
  | default => exact defaultCtor_keeps s ok
  | copy => exact copyCtor_keeps hI (.inr rfl) s ok
  | weaken => exact copyCtor_keeps hI (.inl rfl) s ok
  | aliasOf => exact aliasCtor_keeps hI s ok
  | move => exact moveCtor_keeps s ok
  | aliasMove => exact aliasMoveCtor_keeps s ok
  | convert => exact weakCtor_keeps hI s ok
  | lock => exact lockCtor_keeps hI s ok
  | assign => exact copyAssign_keeps hI (.inr rfl) s ok
  | assignShared => exact copyAssign_keeps hI (.inl rfl) s ok
  | moveAssign => exact moveAssign_keeps hI s ok
  | weakMoveAssignFrom => exact weakMoveAssignFrom_keeps hI s ok
  | swap => exact swap_keeps s ok
  | reset => exact reset_keeps hI s ok
  | destroy => exact .inr (destroyObject_holds hI ok)

theorem anyOp_called (o : AnyOp V) (hd : d.given) (ok : s.Holds (Called d p n)) : (o.exec E m s).1 = .stop ∨
    (o.exec E m s).2.Holds (Called d p (n + (o.acquires E s.heap).count (d, p))) := by
  cases o with
  | plain op => exact exec_called op hd ok
  | construct x c => exact ctor_called c hd _ ok
  | reset x arg =>
    rcases reset_cases E m (.inl x) arg s with he | he
    · exact .inl (by rw [AnyOp.exec, he])
    · rw [AnyOp.exec, he]
      exact swapTemporary_called (ctor_called (.raw arg) hd _ ok)
  | assignUnique x r =>
    rw [AnyOp.exec, uniqueAssign_eq]
    exact swapTemporary_called (ctor_called (.unique r) hd _ ok)

theorem castOp_called (o : CastOp V) (hd : d.given) (ok : s.Holds (Called d p n)) : (o.exec E m s).1 = .stop ∨
    (o.exec E m s).2.Holds (Called d p (n + (o.acquires E s).count (d, p))) := by
  cases o with
  | op o => exact anyOp_called o hd ok
  | cast c moved x r => exact pointerCast_keeps (ledger_called d p n) c s ok
  | own c x r =>
    rcases get_cases .shared (.inl r) s with he | ⟨h, hr, -, he⟩
    · exact .inl (by simp [CastOp.exec, Prog.bind_apply, he])
    · rw [CastOp.exec, Prog.bind_apply, he, CastOp.acquires, hr]
      exact ctor_called (m := m) (.raw (.ptr false (c h.ptr))) hd _ ok

/-! ## Whole programs -/

theorem run_called {ops : List (CastOp V)} {t : Mem V} (hd : d.given) (h : run (CastOp.step E m) s ops = some t)
    (ok : s.Holds (Called d p n)) : t.Holds (Called d p (n + (acquired E m s ops).count (d, p))) := by
  have hstep : ∀ (es : List (Deleter × Ptr)) s (o : CastOp V) t, s.Holds (Called d p (n + es.count (d, p))) →
      o.step E m s = some t → t.Holds (Called d p (n + (es ++ o.acquires E s).count (d, p))) := by
    intro es s o t ok hs
    rw [List.count_append, ← Nat.add_assoc]
    exact CastOp.of_step hs (castOp_called o hd ok)
  have hnil : s.Holds (Called d p (n + ([] : List (Deleter × Ptr)).count (d, p))) := ok
  exact Lib.run_invariant_outputs hstep h hnil

/-- The block named `b` has the deleter `d`, for `p`. -/
def Heap.promises (h : Heap) (b : Nat) (d : Deleter) (p : Ptr) : Bool :=
  (h.blocks b).any fun blk => blk.managed.deleter = some (d, p)

omit [DecidableEq V] [Fintype V] in
/-- What is owed is owed by the blocks that have owners. -/
theorem owes_eq_card {own : Owners} {h : Heap} (ok : BlocksOk own h) :
    h.owes d p = ((Finset.range h.next).filter fun b => own .shared b ≠ 0 ∧ h.promises b d p).card := by
  rw [Finset.card_filter, Heap.owes]
  refine Finset.sum_congr rfl fun b _ => ?_
  have hblk := ok.blocks b
  cases hb : h.blocks b with
  | none => simp [Heap.promises, hb]
  | some blk =>
    rw [hb] at hblk
    have hu : blk.counts.useCount = 0 ↔ own .shared b = 0 := by rw [eq_zero_iff, hblk.1]
    simp only [Option.elim, Block.owes, Counts.due, ite_self, Nat.add_zero, hu, Heap.promises, hb, Option.any_some,
      Managed.count_dispose]
    by_cases h0 : own .shared b = 0
    · simp [h0]
    · cases hdel : blk.managed.deleter with
      | none => simp [h0]
      | some o => by_cases ho : o = (d, p) <;> simp [h0, ho]

/-- **Each pointer is passed to its deleter once**: what a program has given to shared pointers was passed to
the deleter, but for the blocks that still have owners. -/
theorem deleter_calls (E : Env) (m : Mode) (ops : List (CastOp V)) (s : Mem V) (d : Deleter) (p : Ptr)
    (h : run (CastOp.step E m) Mem.empty ops = some s) (hd : d.given) :
    s.heap.log.count (.deleter d p) +
        ((Finset.range s.heap.next).filter fun b => s.owners .shared b ≠ 0 ∧ s.heap.promises b d p).card =
      (acquired E m Mem.empty ops).count (d, p) := by
  have ok := run_called (p := p) hd h Called.holds_empty
  rw [← owes_eq_card ok.blocksOk, ok.calls, Nat.zero_add]

/-- A shared pointer is cast and the argument destroyed; a `unique_ptr` gives its pointer to another one. -/
theorem deleter_calls_three :
    let ops : List (CastOp (Fin 3)) := [.op (.plain (.own 0 (some 8) 1)), .cast (.static (·.map (· + 16))) false 1 0,
      .op (.construct 2 (.unique ⟨some 64, some (.defaultDelete 0), false⟩)), .op (.plain (.destroy 0)),
      .op (.plain (.destroy 2)), .op (.plain (.destroy 1))]
    let s := (run (CastOp.step pages .constEval) Mem.empty ops).getD Mem.empty
    s.heap.log.count (.deleter (.user 1) (some 8)) = 1 ∧
      s.heap.log.count (.deleter (.user 1) (some 8)) + ((Finset.range s.heap.next).filter fun b =>
        s.owners .shared b ≠ 0 ∧ s.heap.promises b (.user 1) (some 8)).card =
        (acquired pages .constEval Mem.empty ops).count (.user 1, some 8) := by
  intro ops s
  have hs : run (CastOp.step pages .constEval) Mem.empty ops = some s := Lib.run_getD (by decide) _
  exact ⟨by decide, deleter_calls pages .constEval ops s (.user 1) (some 8) hs rfl⟩

omit [DecidableEq V] in
theorem owners_of_no_objects {s : Mem V} (hs : ∀ r, s.obj r = none) : s.owners = fun _ _ => 0 := by
  funext k b
  simp [Mem.owners, hs]

/-- **The seemingly equivalent code**: where `r` owns `p`, which it is to delete, a second owner made of the
pointer deletes it again. A cast does not. -/
theorem owned_again_deletes_twice (E : Env) (m : Mode) (pre post : List (CastOp V)) (u s : Mem V) (x r : V) (a b : Nat)
    (c : Ptr → Ptr) (hu : run (CastOp.step E m) Mem.empty pre = some u)
    (hr : u.obj (.inl r) = some ⟨.shared, some a, some b⟩) (hb : u.heap.promises b .delete (some a))
    (hc : c (some a) = some a) (hs : ∀ y, s.obj y = none) :
    (run (CastOp.step E m) u (.own c x r :: post) = some s → 2 ≤ s.heap.log.count (.deleter .delete (some a))) ∧
      ∀ k moved, run (CastOp.step E m) u (.cast k moved x r :: post) = some s →
        (acquired E m Mem.empty pre).count (.delete, some a) = 1 →
        (acquired E m u (.cast k moved x r :: post)).count (.delete, some a) = 0 →
          s.heap.log.count (.deleter .delete (some a)) = 1 := by
  have ok := run_called (d := .delete) (p := some a) rfl hu Called.holds_empty
  have hend : ∀ {n}, s.Holds (Called .delete (some a) n) → s.heap.log.count (.deleter .delete (some a)) = n := by
    intro n oks
    rw [← oks.calls, owes_eq_card oks.blocksOk, owners_of_no_objects hs]
    simp
  constructor
  · intro h
    have hone : 1 ≤ (acquired E m Mem.empty pre).count (.delete, some a) := by
      have howed := ok.calls
      rw [owes_eq_card ok.blocksOk, Nat.zero_add] at howed
      have hmem : b ∈ (Finset.range u.heap.next).filter fun b => u.owners .shared b ≠ 0 ∧
          u.heap.promises b .delete (some a) := by
        obtain ⟨blk, hblk⟩ := ok.blocksOk.exists_block (Mem.owners_ne_zero hr rfl)
        exact Finset.mem_filter.mpr
          ⟨Finset.mem_range.mpr (ok.blocksOk.lt hblk), Mem.owners_ne_zero (h := ⟨.shared, some a, some b⟩) hr rfl, hb⟩
      have := Finset.card_pos.mpr ⟨b, hmem⟩
      omega
    have htwo : 1 ≤ (acquired E m u (.own c x r :: post)).count (.delete, some a) := by
      obtain ⟨u', hu', -⟩ := Lib.run_cons.mp h
      rw [acquired, Lib.outputs_cons hu', List.count_append, CastOp.acquires, hr]
      simp [hc]
    rw [hend (run_called rfl h ok)]
    omega
  · intro k moved h hpre hpost
    rw [hend (run_called rfl h ok), hpre, hpost]

/-- A base at the same address, owned again and cast. -/
theorem owned_again_deletes_twice_base :
    let pre : List (CastOp (Fin 2)) := [.op (.construct 0 (.raw (.ptr false (some 8))))]
    let post : List (CastOp (Fin 2)) := [.op (.plain (.destroy 0)), .op (.plain (.destroy 1))]
    let u := (run (CastOp.step pages .constEval) Mem.empty pre).getD Mem.empty
    let s := (run (CastOp.step pages .constEval) u (.own id 1 0 :: post)).getD Mem.empty
    let t := (run (CastOp.step pages .constEval) u (.cast .const true 1 0 :: post)).getD Mem.empty
    2 ≤ s.heap.log.count (.deleter .delete (some 8)) ∧ t.heap.log.count (.deleter .delete (some 8)) = 1 := by
  intro pre post u s t
  have hu : run (CastOp.step pages .constEval) Mem.empty pre = some u := Lib.run_getD (by decide) _
  have hs : run (CastOp.step pages .constEval) u (.own id 1 0 :: post) = some s := Lib.run_getD (by decide) _
  have ht : run (CastOp.step pages .constEval) u (.cast .const true 1 0 :: post) = some t := Lib.run_getD (by decide) _
  exact ⟨(owned_again_deletes_twice pages .constEval pre post u s 1 0 8 0 id hu rfl (by decide) rfl (by decide)).1 hs,
    (owned_again_deletes_twice pages .constEval pre post u t 1 0 8 0 id hu rfl (by decide) rfl (by decide)).2
      .const true ht (by decide) (by decide)⟩

end

end SharedPtr.Seq
