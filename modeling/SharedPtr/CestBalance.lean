/-
`cest_allocate_shared` returns what it acquires, whatever throws and when: the
elements that were constructed are destroyed, the storage is given back, and
the exception is the caller's. When nothing throws, the shared pointer's block
has all of it to return, and does so once the last handle is gone.

The one exception is the allocation of the elements' storage. When that throws,
the deleter is called all the same and gives back a null pointer, which no
allocation returned.
-/
import SharedPtr.MakeShared
import SharedPtr.Stable

namespace SharedPtr.Seq

open Lib (Prog Result Trade run)

/-! ## The invariant after a construction -/

section

variable {own : Owners} {hand : Resource → Nat} {h : Heap} {via : Option Source} {init : Nat → Init} {p : Ptr}
  {c : Chunk} {B : Built}

/-- Blocks and log are all there is to it. -/
theorem HeapOk.congr {hand' : Resource → Nat} {h' : Heap} (ok : HeapOk own hand h) (hblocks : h'.blocks = h.blocks)
    (hnext : h'.next = h.next) (hlog : h'.log = h.log) (hhand : ∀ r, hand' r = hand r) : HeapOk own hand' h' := by
  obtain rfl : hand' = hand := funext hhand
  refine ⟨?_, ?_, ?_, ?_⟩
  · rw [hblocks, hlog]
    exact ok.blocks
  · rw [hblocks, hnext]
    exact ok.named
  · intro r
    have hout : h'.outstanding r = h.outstanding r := by
      rw [Heap.outstanding, hnext, hblocks]
      rfl
    rw [hlog, hout]
    exact ok.balance r
  · rw [hlog]
    exact ok.safe

/-- The storage `c` is acquired, and elements in it are. -/
def elementEvents (c : Chunk) (via : Option Source) (init : Nat → Init) (p : Ptr) (B : Built) : List Event :=
  .allocate c :: buildEvents via init p B.failure 0 B.values

theorem Heap.afterElements_log : (h.afterElements c via init p B).log = h.log ++ elementEvents c via init p B := by
  simp [Heap.afterElements, Heap.afterBuild, Heap.afterAllocate, Heap.afterFailure, Heap.emit, elementEvents]

theorem quiet_elementEvents : Quiet (elementEvents c via init p B) := by
  intro b
  obtain ⟨h₁, h₂⟩ := quiet_buildEvents via init p B.failure 0 B.values b
  simp [elementEvents, h₁, h₂]

theorem returns_elementEvents : ∀ e ∈ elementEvents c via init p B, trade.returns e = none := by
  intro e he
  rcases List.mem_cons.mp he with rfl | he
  · rfl
  · exact returns_buildEvents e he

theorem acquired_elementEvents (r : Resource) : trade.acquired (elementEvents c via init p B) r =
    trade.returned [.deallocate c] r + elementRange p B.values.length r := by
  rw [elementEvents, Trade.acquired_cons, acquired_buildEvents, Trade.returned_cons]
  rfl

/-- The elements that there are, and their storage, are returned. -/
theorem settled_elementEvents {es : List Event} (hacq : ∀ e ∈ es, trade.acquires e = none)
    (hret : ∀ r, trade.returned es r = trade.returned [.deallocate c] r + elementRange p B.values.length r) :
    trade.Settled (elementEvents c via init p B ++ es) := by
  have hnone : ∀ e ∈ elementEvents c via init p B, trade.returns e = none := returns_elementEvents
  have hsafe := (Trade.Safe.nil (T := trade)).append_of_returns hnone
  rw [List.nil_append] at hsafe
  refine ⟨hsafe.append fun r => ?_, fun r => ?_⟩
  · rw [Trade.returned_eq_zero hnone, acquired_elementEvents, hret, Nat.zero_add]
  · rw [Trade.acquired_append, Trade.returned_append, Trade.acquired_eq_zero hacq, Trade.returned_eq_zero hnone,
      acquired_elementEvents, hret, Nat.zero_add, Nat.add_zero]

end

/-! ## All or nothing -/

variable {V : Type} [DecidableEq V]

/-- The call has left nothing behind. -/
structure Undone (s s' : Mem V) : Prop where
  objects : s'.obj = s.obj
  blocks : s'.heap.blocks = s.heap.blocks
  log : ∃ new, s'.heap.log = s.heap.log ++ new ∧ trade.Settled new

/-- The new shared pointer `x` owns `n` elements from `p` on; its block `b` has all there is to return. -/
structure Made (n : Nat) (s s' : Mem V) (x : V) (p : Ptr) (b : Nat) (blk : Block) : Prop where
  fresh : s.heap.blocks b = none
  target : s'.obj (.inl x) = some ⟨.shared, p, some b⟩
  others : ∀ y, y ≠ .inl x → s'.obj y = s.obj y
  block : s'.heap.blocks b = some blk
  counts : blk.counts = .new
  log : ∃ new, s'.heap.log = s.heap.log ++ new ∧ trade.Safe new ∧
    (∀ k < n, trade.acquired new (.element p k) = 1) ∧
    ∀ r, trade.acquired new r = trade.returned new r + trade.returned blk.managed.dispose r +
      trade.returned [.deallocate blk.chunk] r

section

variable [Fintype V] {hand : Resource → Nat}

/-- However the program goes on from `s'`: the block `b` is the same block; it is disposed of and
destroyed, once, when its handles are gone; and nothing is outstanding when there are no handles. -/
def ReturnsAll (s' : Mem V) (b : Nat) (blk : Block) : Prop :=
  ∀ (E : Env) (m : Mode) (ops : List (Op V)) (t : Mem V), run (step E m) s' ops = some t →
    IsBlock b blk.managed blk.chunk t.heap ∧
    ((∀ k, t.owners k b = 0) → t.heap.log.count (.dispose b) = 1 ∧ t.heap.log.count (.destroy b) = 1) ∧
    ((∀ r, t.obj r = none) → trade.Settled t.heap.log)

omit [DecidableEq V] in
theorem Mem.Ok.released {t : Mem V} (ok : t.Ok hand) {b : Nat} {md : Managed} {c : Chunk} (hb : IsBlock b md c t.heap)
    (hown : ∀ k, t.owners k b = 0) : t.heap.log.count (.dispose b) = 1 ∧ t.heap.log.count (.destroy b) = 1 := by
  have hok := HeapOk.blocks ok b
  obtain ⟨-, counts, hblk⟩ := hb
  rw [hblk, hown, hown] at hok
  exact ⟨hok.2.2.1, hok.2.2.2⟩

theorem Mem.Ok.returnsAll {s' : Mem V} (ok : s'.Ok fun _ => 0) {b : Nat} {blk : Block}
    (hb : s'.heap.blocks b = some blk) : ReturnsAll s' b blk := by
  intro E m ops t hrun
  have hlt : b < s'.heap.next := (HeapOk.named ok b).mp (by simp [hb])
  have hblk := run_stable (stable_isBlock b blk.managed blk.chunk) hrun ⟨hlt, blk.counts, hb⟩
  have ok' := run_ok hrun ok
  exact ⟨hblk, ok'.released hblk, settled_of_no_objects ok'⟩

end

/-! ## `cest_allocate_shared` -/

variable {E : Env} {a : Source} {n : Nat} {init : Init} {s : Mem V} {x : V}

/-- The exception of the first call that throws. -/
inductive CestFails (E : Env) (n : Nat) (init : Init) (h : Heap) : Exn → Prop
  | elements {e : Exn} : E.allocate h.allocations = .error e → CestFails E n init h e
  | element {p : Ptr} {e : Exn} {k : Nat} : E.allocate h.allocations = .ok p → k < n →
      E.construct (h.constructions + k) init = .error e →
      (∀ j < k, ∃ v, E.construct (h.constructions + j) init = .ok v) → CestFails E n init h e
  | controlBlock {p : Ptr} {e : Exn} : E.allocate h.allocations = .ok p →
      (∀ k < n, ∃ v, E.construct (h.constructions + k) init = .ok v) →
      E.allocate (h.allocations + 1) = .error e → CestFails E n init h e

/-- What a call is to do. -/
def CestBalanced [Fintype V] (E : Env) (a : Source) (n : Nat) (init : Init) (s : Mem V) (x : V) : Prop :=
  match makeCtor (.inl x) (cestAllocateShared E a n init) s with
  | (.throw e, s') => CestFails E n init s.heap e ∧ Undone s s'
  | (.ok (), s') => (∀ e, ¬ CestFails E n init s.heap e) ∧
      ∃ p b blk, Made n s s' x p b blk ∧ ReturnsAll s' b blk
  | (.stop, _) => False

/-! ### Each way out -/

theorem Deleter.returned_elements (a : Source) (i n : Nat) (p : Ptr) (r : Resource) :
    trade.returned ((Deleter.elements a i n).call p) r =
      trade.returned [.deallocate ⟨a, .element, p, n⟩] r + elementRange p i r := by
  show trade.returned (.deleter (.elements a i n) p :: (destroyElements a p i ++ _)) r = _
  rw [Trade.returned_cons, Trade.returned_append, returned_destroyElements]
  simp only [trade, reduceCtorEq, if_false]
  omega

omit [DecidableEq V] in
/-- The elements that were constructed in the storage `c` are destroyed, and it is given back. -/
theorem undone_of_elements {via : Option Source} {init : Nat → Init} {c : Chunk} {p : Ptr} {B : Built} {es : List Event}
    {h' : Heap} (hacq : ∀ e ∈ es, trade.acquires e = none)
    (hret : ∀ r, trade.returned es r = trade.returned [.deallocate c] r + elementRange p B.values.length r)
    (hblocks : h'.blocks = s.heap.blocks) (hlog : h'.log = (s.heap.afterElements c via init p B).log ++ es) :
    Undone s { s with heap := h' } := by
  refine ⟨rfl, hblocks, elementEvents c via init p B ++ es, ?_, settled_elementEvents hacq hret⟩
  rw [hlog, Heap.afterElements_log, List.append_assoc]

omit [DecidableEq V] in
/-- The pointer that is given back was not allocated. -/
theorem not_undone_of_allocate {h' : Heap}
    (hlog : h'.log = s.heap.log ++ (Deleter.elements a 0 n).call none) : ¬ Undone s { s with heap := h' } := by
  rintro ⟨-, -, new, hnew, hset⟩
  have hnew' : new = (Deleter.elements a 0 n).call none := List.append_cancel_left (hnew.symm.trans hlog)
  have hbal := hset.2 (.chunk ⟨a, .element, none, n⟩)
  rw [hnew', Deleter.returned_elements, Trade.returned_cons] at hbal
  simp [Deleter.call, destroyElements, Trade.acquired_cons, trade, elementRange] at hbal

variable [Fintype V]

/-- A control block is constructed that is to return all that the call has acquired. -/
theorem made_of_construct (ok : s.Ok fun _ => 0) (hx : s.obj (.inl x) = none) {h₁ : Heap} {md : Managed} {c : Chunk}
    {p : Ptr} {new : List Event} (hblocks : h₁.blocks = s.heap.blocks) (hnext : h₁.next = s.heap.next)
    (hlog : h₁.log = s.heap.log ++ new) (hq : Quiet new) (hret : ∀ e ∈ new, trade.returns e = none)
    (hel : ∀ k < n, trade.acquired new (.element p k) = 1)
    (hacq : ∀ r, trade.acquired new r = trade.returned md.dispose r + trade.returned [.deallocate c] r) :
    Made n s ({ s with heap := (h₁.construct md c).2 }.set (.inl x) (some ⟨.shared, p, some s.heap.next⟩)) x p
        s.heap.next ⟨.new, md, c⟩ ∧
      ReturnsAll ({ s with heap := (h₁.construct md c).2 }.set (.inl x) (some ⟨.shared, p, some s.heap.next⟩))
        s.heap.next ⟨.new, md, c⟩ := by
  have hnone : s.heap.blocks s.heap.next = none := by
    have := HeapOk.named ok s.heap.next
    simpa using this
  have hblock : (h₁.construct md c).2.blocks s.heap.next = some ⟨.new, md, c⟩ := by
    rw [Heap.construct, ← hnext]
    exact Function.update_self ..
  have hsafe := (Trade.Safe.nil (T := trade)).append_of_returns hret
  have ok₁ : HeapOk s.owners (fun r => 0 + trade.returned md.dispose r + trade.returned [.deallocate c] r) h₁ :=
    (HeapOk.emit_acquire ok hq hret).congr hblocks hnext hlog fun r => by rw [hacq, Nat.zero_add, Nat.zero_add]
  have ok' : Mem.Ok (fun _ => 0)
      ({ s with heap := (h₁.construct md c).2 }.set (.inl x) (some ⟨.shared, p, some s.heap.next⟩)) := by
    have hown := Mem.owners_create (s := { s with heap := (h₁.construct md c).2 }) (h := ⟨.shared, p, some s.heap.next⟩) hx
    rw [Mem.Ok, hown, ← hnext]
    exact ok₁.construct
  refine ⟨⟨hnone, Mem.set_obj .., fun y hy => Mem.set_obj_of_ne _ hy _, hblock, rfl, new, hlog, ?_, hel, fun r => ?_⟩,
    ok'.returnsAll hblock⟩
  · simpa using hsafe
  · rw [hacq, Trade.returned_eq_zero hret, Nat.zero_add]

theorem balanced_of_allocate (ok : s.Ok fun _ => 0) (hx : s.obj (.inl x) = none) {p : Ptr}
    (hp : E.allocate s.heap.allocations = .ok p) : CestBalanced E a n init s x := by
  unfold CestBalanced
  rw [makeCtor_apply hx, cestAllocateShared_apply, hp]
  cases hf : (E.build (fun _ => init) s.heap.constructions 0 n).failure with
  | some e =>
    obtain ⟨k, hk, hek, hpre⟩ := Env.build_failure.mp hf
    simp only [hf]
    exact ⟨.element hp hk hek hpre, undone_of_elements (Managed.acquires_dispose (.countedDeleter p (.elements a _ n)))
      (Deleter.returned_elements a _ n p) rfl rfl⟩
  | none =>
    have hall : ∀ k < n, ∃ v, E.construct (s.heap.constructions + k) init = .ok v := by
      simpa using Env.build_failure_none.mp hf
    simp only [hf]
    cases hmem : E.allocate (s.heap.allocations + 1) with
    | error e =>
      exact ⟨.controlBlock hp hall hmem, undone_of_elements (Managed.acquires_dispose (.countedDeleter p
        (.elements a _ n))) (Deleter.returned_elements a _ n p) rfl rfl⟩
    | ok mem =>
      have hlen := Env.build_length hf
      have hlog : ((s.heap.afterElements ⟨a, .element, p, n⟩ (some a) (fun _ => init) p
          (E.build (fun _ => init) s.heap.constructions 0 n)).afterFailure.emit [.allocate ⟨a, .controlBlock, mem, 1⟩]).log =
          s.heap.log ++ (elementEvents ⟨a, .element, p, n⟩ (some a) (fun _ => init) p
            (E.build (fun _ => init) s.heap.constructions 0 n) ++ [.allocate ⟨a, .controlBlock, mem, 1⟩]) := by
        rw [← List.append_assoc, ← Heap.afterElements_log]
        rfl
      refine ⟨fun e he => ?_, p, s.heap.next, _, made_of_construct ok hx
        rfl rfl hlog ?_ ?_ ?_ ?_⟩
      · cases he with
        | elements h => rw [hp] at h; cases h
        | element _ hk hek _ =>
          obtain ⟨v, hv⟩ := hall _ hk
          rw [hv] at hek
          cases hek
        | controlBlock _ _ h => rw [hmem] at h; cases h
      · intro b
        have hquiet : Quiet (elementEvents ⟨a, .element, p, n⟩ (some a) (fun _ => init) p
          (E.build (fun _ => init) s.heap.constructions 0 n)) := quiet_elementEvents
        simp [hquiet b]
      · intro e he
        rcases List.mem_append.mp he with he | he
        · exact returns_elementEvents e he
        · rw [List.mem_singleton.mp he]
          rfl
      · intro k hk
        rw [Trade.acquired_append, acquired_elementEvents, hlen]
        simp [Trade.acquired_cons, Trade.returned_cons, trade, elementRange, hk]
      · intro r
        rw [Trade.acquired_append, acquired_elementEvents, hlen]
        rw [show (Managed.countedDeleter p (.elements a n n)).dispose = (Deleter.elements a n n).call p from rfl,
          Deleter.returned_elements]
        rfl

/-- **The balance of `cest_allocate_shared`**: kept at every point of failure but one, where the
elements have no storage yet. -/
theorem cest_balanced_iff (E : Env) (a : Source) (n : Nat) (init : Init) (s : Mem V) (x : V) (ok : s.Ok fun _ => 0)
    (hx : s.obj (.inl x) = none) :
    CestBalanced E a n init s x ↔ ∃ p, E.allocate s.heap.allocations = .ok p := by
  constructor
  · intro h
    cases hp : E.allocate s.heap.allocations with
    | ok p => exact ⟨p, rfl⟩
    | error e =>
      unfold CestBalanced at h
      rw [makeCtor_apply hx, cestAllocateShared_apply, hp] at h
      exact absurd h.2 (not_undone_of_allocate rfl)
  · rintro ⟨p, hp⟩
    exact balanced_of_allocate ok hx hp

/-- The constructor of the second element throws. -/
theorem cest_balanced_iff_element :
    CestBalanced ⟨fun n => .ok (some n), fun k _ => if k = 1 then .error (.user 5) else .ok k⟩ (.user 0) 3 .value
      (.empty : Mem Unit) () :=
  (cest_balanced_iff _ (.user 0) 3 .value .empty () Mem.Ok.empty rfl).mpr ⟨_, rfl⟩

/-- An allocator without storage for 3 elements is given back a null pointer. -/
theorem cest_unbalanced :
    (cestAllocateShared ⟨fun _ => .error (.user 1), fun k _ => .ok k⟩ (.user 0) 3 .value .empty).2.log =
        [.deleter (.elements (.user 0) 0 3) none, .deallocate ⟨.user 0, .element, none, 3⟩] ∧
      ¬ CestBalanced ⟨fun _ => .error (.user 1), fun k _ => .ok k⟩ (.user 0) 3 .value (.empty : Mem Unit) () := by
  refine ⟨rfl, ?_⟩
  intro h
  exact absurd h.2 (not_undone_of_allocate rfl)

end SharedPtr.Seq
