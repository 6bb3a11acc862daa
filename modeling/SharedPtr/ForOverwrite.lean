/-
The `for_overwrite` forms of `make_shared` and `allocate_shared`: the elements
are to be default-initialised, and destroyed, without the allocator. That is
what is done at run time (`overwrite_atRunTime`). By constant evaluation the
elements are made by `cest_allocate_shared` with no arguments: the allocator is
asked to construct every one of them, and its value is that of `T()`.
-/
import SharedPtr.ElementWork

namespace SharedPtr.Seq

open Lib (Prog Result)

def Event.asksAllocator : Event → Bool
  | .allocatorConstruct .. | .allocatorDestroy .. => true
  | _ => false

/-- The index of an element that a constructor without arguments or allocator is called for. -/
def Work.defaultCall : Work → Option Nat
  | .construct false .default k => some k
  | _ => none

/-- The elements up to `n` are destroyed, without an allocator. -/
def plainlyUndone (n : Nat) : List Work := (List.range n).map .destroyed

/-- Each of the `n` elements is default-initialised, once, and destroyed, once, by its control block;
or those that there were are destroyed at once. The allocator has no part in it. -/
def OverwriteWork (n : Nat) (h : Heap) (r : Result Exn (Ptr × CountPtr) × Heap) : Prop :=
  ∃ new, r.2.log = h.log ++ new ∧ (∀ e ∈ new, e.asksAllocator = false) ∧
    (∀ init p k, .plainConstruct init p k ∈ new → init = .default) ∧
    ((∃ p b blk, r.1 = .ok (p, some b) ∧ r.2.blocks b = some blk ∧
        (new.filterMap Event.construction).filterMap Work.defaultCall = List.range n ∧
        (new.filterMap Event.construction).filterMap Work.index = List.range n ∧
        new.filterMap Event.destruction = [] ∧
        (blk.managed.dispose.filterMap Event.destruction).Perm (plainlyUndone n)) ∨
      (∀ made, r.1 ≠ .ok made) ∧ ∃ m, (new.filterMap Event.construction).filterMap Work.index = List.range m ∧
        (new.filterMap Event.destruction).Perm (plainlyUndone m))

variable {E : Env} {L : Layout} {a : Source} {h : Heap} {p : Ptr}

/-! ## The work of a range -/

theorem buildEvents_default {failure : Option Exn} {i : Nat} {values : List Nat} {e : Event}
    (he : e ∈ buildEvents none (fun _ => .default) p failure i values) :
    e.asksAllocator = false ∧ ∀ init q k, e = .plainConstruct init q k → init = .default := by
  induction values generalizing i with
  | nil =>
    unfold buildEvents at he
    split at he
    · cases he
    · rw [List.mem_singleton.mp he]
      exact ⟨rfl, fun _ _ _ h => by cases h; rfl⟩
  | cons v values ih =>
    rcases List.mem_cons.mp he with rfl | he
    · exact ⟨rfl, fun _ _ _ h => by cases h; rfl⟩
    · rcases List.mem_cons.mp he with rfl | he
      · exact ⟨rfl, by simp⟩
      · exact ih he

theorem index_default (failure : Option Exn) (i : Nat) (values : List Nat) :
    ((buildEvents none (fun _ => .default) p failure i values).filterMap Event.construction).filterMap Work.index =
      List.range' i values.length := by
  induction values generalizing i with
  | nil =>
    unfold buildEvents
    split <;> rfl
  | cons v values ih =>
    rw [List.length_cons, List.range'_succ, ← ih]
    rfl

theorem defaultCall_default (i : Nat) (values : List Nat) :
    ((buildEvents none (fun _ => .default) p none i values).filterMap Event.construction).filterMap Work.defaultCall =
      List.range' i values.length := by
  induction values generalizing i with
  | nil => rfl
  | cons v values ih =>
    rw [List.length_cons, List.range'_succ, ← ih]
    rfl

theorem destruction_destroyN (p : Ptr) (n : Nat) : (destroyN p n).filterMap Event.destruction = plainlyUndone n := by
  rw [destroyN, List.filterMap_map, plainlyUndone, ← List.filterMap_eq_map]
  rfl

/-- What remains is to say what follows the constructors. -/
theorem overwriteWork_of_log {n : Nat} {r : Result Exn (Ptr × CountPtr) × Heap} (c : Chunk) (p : Ptr) (B : Built)
    (rest : List Event) (hlog : r.2.log = h.log ++ (elementEvents c none (fun _ => .default) p B ++ rest))
    (hdispose : ∀ e ∈ rest, e.ofDispose) (hplain : ∀ e ∈ rest, e.asksAllocator = false)
    (hout : (B.failure = none ∧ B.values.length = n ∧ rest = [] ∧ ∃ p b blk, r.1 = .ok (p, some b) ∧
        r.2.blocks b = some blk ∧ (blk.managed.dispose.filterMap Event.destruction).Perm (plainlyUndone n)) ∨
      (∀ made, r.1 ≠ .ok made) ∧ rest.filterMap Event.destruction = plainlyUndone B.values.length) :
    OverwriteWork n h r := by
  have hcons : (elementEvents c none (fun _ => .default) p B ++ rest).filterMap Event.construction =
      (buildEvents none (fun _ => .default) p B.failure 0 B.values).filterMap Event.construction := by
    rw [List.filterMap_append, construction_of_ofDispose hdispose, List.append_nil, elementEvents,
      List.filterMap_cons_none rfl]
  have hdestr : (elementEvents c none (fun _ => .default) p B ++ rest).filterMap Event.destruction =
      rest.filterMap Event.destruction := by
    rw [List.filterMap_append, elementEvents, List.filterMap_cons_none rfl,
      destruction_of_ofBuild fun e he => mem_buildEvents he, List.nil_append]
  refine ⟨_, hlog, fun e he => ?_, fun init q k he => ?_, ?_⟩
  · rcases List.mem_append.mp he with he | he
    · rcases List.mem_cons.mp he with rfl | he
      · rfl
      · exact (buildEvents_default he).1
    · exact hplain e he
  · rcases List.mem_append.mp he with he | he
    · rcases List.mem_cons.mp he with he | he
      · cases he
      · exact (buildEvents_default he).2 _ _ _ rfl
    · cases hdispose _ he
  · rw [hcons, hdestr]
    rcases hout with ⟨hf, hlen, hrest, q, b, blk, hr, hb, hperm⟩ | ⟨hr, hrest⟩
    · refine .inl ⟨q, b, blk, hr, hb, ?_, ?_, by rw [hrest]; rfl, hperm⟩
      · rw [hf, defaultCall_default, hlen, List.range_eq_range']
      · rw [index_default, hlen, List.range_eq_range']
    · exact .inr ⟨hr, B.values.length, by rw [index_default, List.range_eq_range'], hrest ▸ List.Perm.refl _⟩

/-- A call that makes no element. -/
theorem overwriteWork_of_none {n : Nat} {r : Result Exn (Ptr × CountPtr) × Heap} (new : List Event)
    (hlog : r.2.log = h.log ++ new) (hr : ∀ made, r.1 ≠ .ok made)
    (hnew : ∀ e ∈ new, e.asksAllocator = false ∧ e.construction = none ∧ e.destruction = none) : OverwriteWork n h r := by
  have hcons : new.filterMap Event.construction = [] := by
    rw [List.filterMap_eq_nil_iff]
    exact fun e he => (hnew e he).2.1
  have hdestr : new.filterMap Event.destruction = [] := by
    rw [List.filterMap_eq_nil_iff]
    exact fun e he => (hnew e he).2.2
  refine ⟨new, hlog, fun e he => (hnew e he).1, fun init q k he => ?_, .inr ⟨hr, 0, by rw [hcons]; rfl, by
    rw [hdestr]
    exact List.Perm.refl _⟩⟩
  cases (hnew _ he).2.1

/-! ## At run time -/

theorem overwrite_single : OverwriteWork 1 h (SharedCount.ofAllocShared E L a .overwrite h) := by
  rw [ofAllocShared_apply]
  cases E.allocate h.allocations with
  | error e => exact overwriteWork_of_none [] (List.append_nil _).symm (by simp) (by simp)
  | ok mem =>
    obtain ⟨B, hB⟩ : ∃ B, B = E.build (fun _ => .default) h.constructions 0 1 := ⟨_, rfl⟩
    simp only [Initial.init, Initial.inplaceVia, if_true, Initial.inplace, ← hB]
    cases hf : B.failure with
    | some e =>
      have hlen : B.values = [] := by
        rw [hB, Env.build] at hf ⊢
        split at hf
        next => rfl
        next => cases hf
      refine overwriteWork_of_log ⟨a, .controlBlock, mem, 1⟩ (mem.map (· + L.storage)) B
        (if mem ≠ none then [.deallocate ⟨a, .controlBlock, mem, 1⟩] else []) ?_ (fun e he => ?_) (fun e he => ?_)
        (.inr ⟨by simp, ?_⟩)
      · rw [← List.append_assoc, ← Heap.afterElements_log]
        cases mem <;> simp [dropGuard, Heap.emit]
      · cases mem with
        | none => cases he
        | some _ => rw [List.mem_singleton.mp he]; rfl
      · cases mem with
        | none => cases he
        | some _ => rw [List.mem_singleton.mp he]; rfl
      · rw [hlen]
        cases mem <;> rfl
    | none =>
      refine overwriteWork_of_log ⟨a, .controlBlock, mem, 1⟩ (mem.map (· + L.storage)) B []
        ?_ (by simp) (by simp) (.inl ⟨hf, ?_, rfl, mem.map (· + L.storage), h.next,
          ⟨.new, .countedOverwrite (mem.map (· + L.storage)), ⟨a, .controlBlock, mem, 1⟩⟩, rfl, Function.update_self ..,
          List.Perm.refl _⟩)
      · rw [List.append_nil, ← Heap.afterElements_log]
        rfl
      · rw [hB]
        exact Env.build_length (by rw [← hB, hf])

theorem overwrite_array {shape : ArrayShape L}
    (hsum : ∀ p, E.allocate h.allocations = .ok p → shape.count < 2 ^ 64 → shape.count + L.tail < 2 ^ 64)
    (room : ∀ p, E.allocate h.allocations = .ok p → L.Room p (shape.chunk a p).n) :
    OverwriteWork shape.count h (allocateSharedArray E L a shape .overwrite h) := by
  by_cases hlt : shape.count < 2 ^ 64
  · cases hp : E.allocate h.allocations with
    | error e =>
      rw [allocateSharedArray_apply, if_pos hlt, ofCountedArray_apply _ _ rfl, hp]
      exact overwriteWork_of_none [] (List.append_nil _).symm (by simp) (by simp)
    | ok p =>
      have hroom := room p hp
      rw [ArrayShape.chunk_n (hsum p hp hlt)] at hroom
      obtain ⟨raw, rfl, hdvd, hroom⟩ := hroom
      obtain ⟨self, hself, -⟩ := blockAddress_inside hdvd hroom
      obtain ⟨B, hB⟩ : ∃ B, B = shape.build E .overwrite h := ⟨_, rfl⟩
      rw [allocateSharedArray_of_allocate hlt hp, ← hB]
      simp only [Initial.via, Layout.elementInit, true_or, if_true]
      cases hf : B.failure with
      | some e =>
        refine overwriteWork_of_log (shape.chunk a (some raw)) (some raw) B
          (destroyN (some raw) B.values.length ++ [.deallocate (shape.chunk a (some raw))])
          ?_ (fun e he => ?_) (fun e he => ?_) (.inr ⟨by simp, ?_⟩)
        · rw [← List.append_assoc, ← List.append_assoc, ← Heap.afterElements_log]
          rfl
        · rcases List.mem_append.mp he with he | he
          · exact mem_destroyN he
          · rw [List.mem_singleton.mp he]
            rfl
        · rcases List.mem_append.mp he with he | he
          · obtain ⟨k, -, rfl⟩ := List.mem_map.mp he
            rfl
          · rw [List.mem_singleton.mp he]
            rfl
        · rw [List.filterMap_append, destruction_destroyN]
          exact List.append_nil _
      | none =>
        simp only [Option.bind_some, hself]
        refine overwriteWork_of_log (shape.chunk a (some raw)) (some raw) B []
          ?_ (by simp) (by simp) (.inl ⟨hf, ?_, rfl, some raw, h.next,
            ⟨.new, .countedArray a shape.count true (some raw) self.toNat, shape.chunk a (some raw)⟩, rfl,
            Function.update_self .., ?_⟩)
        · rw [List.append_nil, ← Heap.afterElements_log]
          rfl
        · rw [hB]
          exact Env.build_length (by rw [← ArrayShape.build, ← hB, hf])
        · by_cases hn : shape.count = 0
          · simp [Managed.dispose, hn, plainlyUndone]
          · simp only [Managed.dispose, if_pos hn, disposeArray, if_true, destruction_destroyN]
            exact List.Perm.refl _
  · rw [allocateSharedArray_apply, if_neg hlt]
    exact overwriteWork_of_none [.terminate] rfl (by simp) fun e he => by
      rw [List.mem_singleton.mp he]
      exact ⟨rfl, rfl, rfl⟩

/-! ## By constant evaluation -/

theorem cest_log (init : Init) (n : Nat) (hp : E.allocate h.allocations = .ok p) :
    ∃ rest, (cestAllocateShared E a n init h).2.log = h.log ++ (elementEvents ⟨a, .element, p, n⟩ (some a)
      (fun _ => init) p (E.build (fun _ => init) h.constructions 0 n) ++ rest) := by
  obtain ⟨B, hB⟩ : ∃ B, B = E.build (fun _ => init) h.constructions 0 n := ⟨_, rfl⟩
  rw [cestAllocateShared_apply, hp, ← hB]
  cases hf : B.failure with
  | some e =>
    refine ⟨(Deleter.elements a B.values.length n).call p, ?_⟩
    rw [← List.append_assoc, ← Heap.afterElements_log]
    simp only [hf]
    rfl
  | none =>
    cases hmem : E.allocate (h.allocations + 1) with
    | error e =>
      refine ⟨(Deleter.elements a B.values.length n).call p, ?_⟩
      rw [← List.append_assoc, ← Heap.afterElements_log]
      simp only [hf]
      rfl
    | ok mem =>
      refine ⟨[.allocate ⟨a, .controlBlock, mem, 1⟩], ?_⟩
      rw [← List.append_assoc, ← Heap.afterElements_log]
      simp only [hf]
      rfl

/-- The allocator is asked for the first element. -/
theorem not_overwrite_cest {n m : Nat} (hn : n ≠ 0) (hp : E.allocate h.allocations = .ok p) :
    ¬ OverwriteWork m h (cestAllocateShared E a n .value h) := by
  rintro ⟨new, hnew, hplain, -⟩
  obtain ⟨rest, hlog⟩ := cest_log (a := a) .value n hp
  rw [hlog, List.append_cancel_left_eq] at hnew
  obtain ⟨k, rfl⟩ := Nat.exists_eq_succ_of_ne_zero hn
  have hcall : Event.allocatorConstruct a .value p 0 ∈ new := by
    rw [← hnew]
    refine List.mem_append_left _ (List.mem_cons_of_mem _ ?_)
    rw [Env.build]
    split <;> simp [buildEvents, constructCall]
  cases hplain _ hcall

theorem overwrite_cest_zero : OverwriteWork 0 h (cestAllocateShared E a 0 .value h) := by
  rw [cestAllocateShared_apply]
  have hcall : ∀ q, ∀ e ∈ (Deleter.elements a 0 0).call q,
      e.asksAllocator = false ∧ e.construction = none ∧ e.destruction = none := by
    intro q e he
    simp only [Deleter.call, destroyElements, List.nil_append, List.mem_cons, List.not_mem_nil, or_false] at he
    rcases he with rfl | rfl <;> exact ⟨rfl, rfl, rfl⟩
  cases E.allocate h.allocations with
  | error e => exact overwriteWork_of_none _ rfl (by simp) (hcall none)
  | ok p =>
    simp only [Env.build]
    cases E.allocate (h.allocations + 1) with
    | error e =>
      refine overwriteWork_of_none (.allocate ⟨a, .element, p, 0⟩ :: (Deleter.elements a 0 0).call p) ?_ (by simp)
        fun e he => ?_
      · simp [Heap.emit, Heap.afterElements_log, Heap.afterFailure, elementEvents, buildEvents]
      · rcases List.mem_cons.mp he with rfl | he
        · exact ⟨rfl, rfl, rfl⟩
        · exact hcall p e he
    | ok mem =>
      refine ⟨[.allocate ⟨a, .element, p, 0⟩, .allocate ⟨a, .controlBlock, mem, 1⟩], ?_, fun e he => ?_,
        fun init q k he => ?_,
        .inl ⟨p, h.next, ⟨.new, .countedDeleter p (.elements a 0 0), ⟨a, .controlBlock, mem, 1⟩⟩, rfl,
          Function.update_self .., rfl, rfl, rfl, List.Perm.refl _⟩⟩
      · simp [Heap.emit, Heap.afterElements_log, Heap.afterFailure, Heap.afterConstruct, Heap.construct, elementEvents,
          buildEvents]
      · simp only [List.mem_cons, List.not_mem_nil, or_false] at he
        rcases he with rfl | rfl <;> rfl
      · simp at he

theorem overwrite_cest_of_error {n : Nat} {e : Exn} (hp : E.allocate h.allocations = .error e) :
    OverwriteWork n h (cestAllocateShared E a n .value h) := by
  rw [cestAllocateShared_apply, hp]
  refine overwriteWork_of_none ((Deleter.elements a 0 n).call none) rfl nofun ?_
  intro e he
  simp only [Deleter.call, destroyElements, List.nil_append, List.mem_cons, List.not_mem_nil, or_false] at he
  rcases he with rfl | rfl <;> exact ⟨rfl, rfl, rfl⟩

/-! ## Both -/

/-- How many elements `_Up` there are. -/
def Form.count : Form L → Nat
  | .single => 1
  | .array shape => shape.count

theorem Form.count_of_n {form : Form L} (hn : form.n = 0) : form.count = 0 := by
  cases form with
  | single => cases hn
  | array shape =>
    cases shape with
    | unbounded n =>
      have : n.toNat = 0 := hn
      simp [count, ArrayShape.count, this]
    | bounded c size_lt =>
      have : c = 0 := hn
      simp [count, ArrayShape.count, this]

theorem overwrite_atRunTime {form : Form L}
    (hsum : ∀ shape, form = .array shape → ∀ p, E.allocate h.allocations = .ok p → shape.count < 2 ^ 64 →
      shape.count + L.tail < 2 ^ 64)
    (room : ∀ shape, form = .array shape → ∀ p, E.allocate h.allocations = .ok p → L.Room p (shape.chunk a p).n) :
    OverwriteWork form.count h (allocateShared E L false a form .overwrite h) := by
  unfold allocateShared
  rw [if_neg Bool.false_ne_true]
  cases form with
  | single => exact overwrite_single
  | array shape => exact overwrite_array (hsum shape rfl) (room shape rfl)

theorem overwrite_constant (form : Form L) :
    allocateShared E L true a form .overwrite h = cestAllocateShared E a form.n .value h := by
  unfold allocateShared
  rw [if_pos rfl]
  rfl

/-- **The `for_overwrite` forms** do at run time what they are to do, and by constant evaluation when
there is no element: with `std::allocator` (`make_shared_for_overwrite`), and with any other. -/
theorem for_overwrite_alike_iff (E : Env) (L : Layout) (a : Source) (form : Form L) (h : Heap)
    (room : ∀ shape, form = .array shape → ∀ p, E.allocate h.allocations = .ok p → L.Room p (shape.chunk a p).n) :
    (OverwriteWork form.n h (allocateShared E L true a form .overwrite h) ∧
        OverwriteWork form.count h (allocateShared E L false a form .overwrite h) ↔
      form.n = 0 ∨ ∃ e, E.allocate h.allocations = .error e) ∧
    ((∀ shape, form = .array shape → shape.count < 2 ^ 64 → shape.count + L.tail < 2 ^ 64) →
      OverwriteWork form.count h (allocateShared E L false a form .overwrite h)) := by
  rw [overwrite_constant]
  refine ⟨⟨fun ⟨hc, _⟩ => ?_, ?_⟩, fun hsum =>
    overwrite_atRunTime (fun shape hs _ _ => hsum shape hs) room⟩
  · by_contra hnot
    simp only [not_or, not_exists] at hnot
    cases hp : E.allocate h.allocations with
    | error e => exact hnot.2 e hp
    | ok p => exact not_overwrite_cest hnot.1 hp hc
  · rintro (hn | ⟨e, hp⟩)
    · refine ⟨hn ▸ overwrite_cest_zero, overwrite_atRunTime (fun shape hs _ _ _ => ?_) room⟩
      have hcount := Form.count_of_n hn
      have := L.tail_lt
      subst hs
      rw [Form.count] at hcount
      omega
    · refine ⟨overwrite_cest_of_error hp, overwrite_atRunTime (fun shape _ p hp' _ => ?_) room⟩
      rw [hp] at hp'
      cases hp'

/-- Two bytes at run time. -/
theorem for_overwrite_alike_iff_bytes :
    OverwriteWork 2 .empty (allocateShared ⟨fun _ => .ok (some 4096), fun k _ => .ok k⟩ .bytes false .std
      (.array (.unbounded 2)) .overwrite .empty) :=
  (for_overwrite_alike_iff ⟨fun _ => .ok (some 4096), fun k _ => .ok k⟩ .bytes .std (.array (.unbounded 2)) .empty
    fun shape hs p hp => by
      cases hs
      cases hp
      exact ⟨4096, rfl, by decide, by decide⟩).2 fun shape hs _ => by
    cases hs
    decide

/-- One byte by constant evaluation: the allocator is asked for a `char()`. -/
theorem not_alike_for_byte :
    (allocateShared ⟨fun _ => .ok (some 4096), fun _ _ => .ok 0⟩ .bytes true (.user 0) .single .overwrite .empty).2.log =
        [.allocate ⟨.user 0, .element, some 4096, 1⟩, .allocatorConstruct (.user 0) .value (some 4096) 0,
          .construct (some 4096) 0 0, .allocate ⟨.user 0, .controlBlock, some 4096, 1⟩] ∧
      ¬ (OverwriteWork 1 .empty
          (allocateShared ⟨fun _ => .ok (some 4096), fun _ _ => .ok 0⟩ .bytes true (.user 0) .single .overwrite .empty) ∧
        OverwriteWork 1 .empty
          (allocateShared ⟨fun _ => .ok (some 4096), fun _ _ => .ok 0⟩ .bytes false (.user 0) .single .overwrite .empty)) :=
  ⟨rfl, fun h => not_overwrite_cest (n := 1) (p := some 4096) (by decide) rfl (overwrite_constant .single ▸ h.1)⟩

end SharedPtr.Seq
