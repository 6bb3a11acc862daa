/-
What `make_shared` and `allocate_shared` do to elements, by constant evaluation
and at run time: the constructors that are called, in their order and with
their answers, and the elements that are destroyed. With an allocator of one's
own they do the same (`same_element_work`), though not with the same code; the
elements of an array that could not be finished are destroyed from the last
one on by constant evaluation, and from the first one on at run time.
-/
import SharedPtr.SharedArray

namespace SharedPtr.Seq

open Lib (Prog Result)

/-- What is done to an element, wherever it is. -/
inductive Work
  /-- A constructor is called, through the allocator or not. -/
  | construct (viaAllocator : Bool) (init : Init) (k : Nat)
  | constructed (k v : Nat)
  /-- The allocator is asked to destroy it. -/
  | destroy (k : Nat)
  | destroyed (k : Nat)
  deriving DecidableEq, Repr

def Event.construction : Event → Option Work
  | .allocatorConstruct _ init _ k => some (.construct true init k)
  | .plainConstruct init _ k => some (.construct false init k)
  | .construct _ k v => some (.constructed k v)
  | _ => none

def Event.destruction : Event → Option Work
  | .allocatorDestroy _ _ k => some (.destroy k)
  | .destroyElement _ k => some (.destroyed k)
  | _ => none

/-- The index of an element that was constructed. -/
def Work.index : Work → Option Nat
  | .constructed k _ => some k
  | _ => none

/-- The elements up to `n` are destroyed, each once. -/
def undone (n : Nat) : List Work := (List.range n).flatMap fun k => [.destroy k, .destroyed k]

/-- The same constructors with the same answers, the same exception or none, and then the same
elements destroyed: at once, or by the control block. -/
def SameWork (hC hR : Heap) (rC rR : Result Exn (Ptr × CountPtr) × Heap) : Prop :=
  ∃ newC newR n, rC.2.log = hC.log ++ newC ∧ rR.2.log = hR.log ++ newR ∧
    newC.filterMap Event.construction = newR.filterMap Event.construction ∧
    (newC.filterMap Event.construction).filterMap Work.index = List.range n ∧
    ((∃ e, rC.1 = .throw e ∧ rR.1 = .throw e ∧
        (newC.filterMap Event.destruction).Perm (undone n) ∧ (newR.filterMap Event.destruction).Perm (undone n)) ∨
      ∃ pC pR bC bR blkC blkR, rC.1 = .ok (pC, some bC) ∧ rR.1 = .ok (pR, some bR) ∧
        newC.filterMap Event.destruction = [] ∧ newR.filterMap Event.destruction = [] ∧
        rC.2.blocks bC = some blkC ∧ (blkC.managed.dispose.filterMap Event.destruction).Perm (undone n) ∧
        rR.2.blocks bR = some blkR ∧ (blkR.managed.dispose.filterMap Event.destruction).Perm (undone n))

/-! ## The work of a range -/

/-- The work of the constructors, with an allocator. -/
def buildWork (init : Init) (failure : Option Exn) : Nat → List Nat → List Work
  | i, [] => if failure = none then [] else [.construct true init i]
  | i, v :: values => .construct true init i :: .constructed i v :: buildWork init failure (i + 1) values

variable {a : Source} {init : Init} {p : Ptr} {n : Nat} {h : Heap} {E : Env}

theorem construction_buildEvents (failure : Option Exn) (i : Nat) (values : List Nat) :
    (buildEvents (some a) (fun _ => init) p failure i values).filterMap Event.construction =
      buildWork init failure i values := by
  induction values generalizing i with
  | nil =>
    unfold buildEvents buildWork
    split <;> rfl
  | cons v values ih =>
    rw [buildEvents, buildWork, ← ih]
    rfl

theorem index_buildWork (failure : Option Exn) (i : Nat) (values : List Nat) :
    (buildWork init failure i values).filterMap Work.index = List.range' i values.length := by
  induction values generalizing i with
  | nil =>
    unfold buildWork
    split <;> rfl
  | cons v values ih =>
    rw [List.length_cons, List.range'_succ, ← ih]
    rfl

theorem destruction_of_ofBuild {es : List Event} (h : ∀ e ∈ es, e.ofBuild) : es.filterMap Event.destruction = [] := by
  rw [List.filterMap_eq_nil_iff]
  intro e he
  have := h e he
  cases e <;> first | rfl | cases this

theorem construction_of_ofDispose {es : List Event} (h : ∀ e ∈ es, e.ofDispose) :
    es.filterMap Event.construction = [] := by
  rw [List.filterMap_eq_nil_iff]
  intro e he
  have := h e he
  cases e <;> first | rfl | cases this

theorem undone_succ (n : Nat) : undone (n + 1) = undone n ++ [.destroy n, .destroyed n] := by
  simp [undone, List.range_succ]

/-- Backwards. -/
theorem destruction_destroyElements (a : Source) (p : Ptr) (n : Nat) :
    ((destroyElements a p n).filterMap Event.destruction).Perm (undone n) := by
  induction n with
  | zero => exact List.Perm.refl _
  | succ n ih =>
    rw [undone_succ]
    exact (List.Perm.append_left [Work.destroy n, Work.destroyed n] ih).trans List.perm_append_comm

/-- Forwards. -/
theorem destruction_destroyRange (a : Source) (p : Ptr) (n : Nat) :
    (destroyRange (some a) p n).filterMap Event.destruction = undone n := by
  induction n with
  | zero => rfl
  | succ n ih =>
    simp only [destroyRange] at ih ⊢
    rw [undone_succ, ← ih, List.range_succ, List.flatMap_append, List.filterMap_append]
    rfl

theorem destruction_elements (a : Source) (p : Ptr) (i n : Nat) :
    (((Deleter.elements a i n).call p).filterMap Event.destruction).Perm (undone i) := by
  have hcall : ((Deleter.elements a i n).call p).filterMap Event.destruction =
      (destroyElements a p i).filterMap Event.destruction := by
    show (Event.deleter (.elements a i n) p :: (destroyElements a p i ++ [_])).filterMap _ = _
    rw [List.filterMap_cons_none rfl, List.filterMap_append]
    exact List.append_nil _
  rw [hcall]
  exact destruction_destroyElements a p i

/-! ## Each way of making elements -/

/-- The elements are made with the allocator `a`, and given back or given to a control block. -/
def Makes (E : Env) (a : Source) (init : Init) (n : Nat) (h : Heap) (r : Result Exn (Ptr × CountPtr) × Heap) : Prop :=
  ∃ c p rest,
    let B := E.build (fun _ => init) h.constructions 0 n
    r.2.log = h.log ++ (elementEvents c (some a) (fun _ => init) p B ++ rest) ∧ rest.filterMap Event.construction = [] ∧
    ((∃ e, B.failure = some e ∧ r.1 = .throw e ∧ (rest.filterMap Event.destruction).Perm (undone B.values.length)) ∨
      B.failure = none ∧ rest.filterMap Event.destruction = [] ∧ ∃ q b blk, r.1 = .ok (q, some b) ∧
        r.2.blocks b = some blk ∧ (blk.managed.dispose.filterMap Event.destruction).Perm (undone n))

/-- Alike constructors make for alike work. -/
theorem Makes.same {E' : Env} {a' : Source} {h' : Heap} {r r' : Result Exn (Ptr × CountPtr) × Heap}
    (hbuild : E.build (fun _ => init) h.constructions 0 n = E'.build (fun _ => init) h'.constructions 0 n)
    (hr : Makes E a init n h r) (hr' : Makes E' a' init n h' r') : SameWork h h' r r' := by
  obtain ⟨c, p, rest, hlog, hcons, hout⟩ := hr
  obtain ⟨c', p', rest', hlog', hcons', hout'⟩ := hr'
  rw [← hbuild] at hlog' hout'
  obtain ⟨B, hB⟩ : ∃ B, B = E.build (fun _ => init) h.constructions 0 n := ⟨_, rfl⟩
  rw [← hB] at hlog hlog' hout hout'
  have hconstruction : ∀ (a : Source) (c : Chunk) (p : Ptr) (rest : List Event), rest.filterMap Event.construction = [] →
      (elementEvents c (some a) (fun _ => init) p B ++ rest).filterMap Event.construction =
        buildWork init B.failure 0 B.values := by
    intro a c p rest hrest
    rw [List.filterMap_append, hrest, List.append_nil, elementEvents, List.filterMap_cons_none rfl,
      construction_buildEvents]
  have hdestruction : ∀ (a : Source) (c : Chunk) (p : Ptr) (rest : List Event),
      (elementEvents c (some a) (fun _ => init) p B ++ rest).filterMap Event.destruction =
        rest.filterMap Event.destruction := by
    intro a c p rest
    rw [List.filterMap_append, elementEvents, List.filterMap_cons_none rfl,
      destruction_of_ofBuild fun e he => mem_buildEvents he, List.nil_append]
  refine ⟨_, _, B.values.length, hlog, hlog', ?_, ?_, ?_⟩
  · rw [hconstruction a c p rest hcons, hconstruction a' c' p' rest' hcons']
  · rw [hconstruction a c p rest hcons, index_buildWork, List.range_eq_range']
  · rw [hdestruction, hdestruction]
    rcases hout with ⟨e, hf, hthrow, hperm⟩ | ⟨hf, hnil, q, b, blk, hok, hb, hperm⟩
    · rcases hout' with ⟨e', hf', hthrow', hperm'⟩ | ⟨hf', -⟩
      · rw [hf] at hf'
        cases hf'
        exact .inl ⟨e, hthrow, hthrow', hperm, hperm'⟩
      · rw [hf] at hf'
        cases hf'
    · rcases hout' with ⟨e', hf', -⟩ | ⟨-, hnil', q', b', blk', hok', hb', hperm'⟩
      · rw [hf] at hf'
        cases hf'
      · have hlen : B.values.length = n := by
          rw [hB]
          exact Env.build_length (by rw [← hB, hf])
        rw [hlen]
        exact .inr ⟨q, q', b, b', blk, blk', hok, hok', hnil, hnil', hb, hperm, hb', hperm'⟩

variable (a init n) in
theorem makes_cest {mem : Ptr} (hp : E.allocate h.allocations = .ok p)
    (hmem : E.allocate (h.allocations + 1) = .ok mem) : Makes E a init n h (cestAllocateShared E a n init h) := by
  obtain ⟨B, hB⟩ : ∃ B, B = E.build (fun _ => init) h.constructions 0 n := ⟨_, rfl⟩
  rw [Makes, cestAllocateShared_apply, hp, ← hB]
  cases hf : B.failure with
  | some e =>
    refine ⟨⟨a, .element, p, n⟩, p, (Deleter.elements a B.values.length n).call p, ?_, ?_, .inl ⟨e, hf, ?_, ?_⟩⟩
    · simp only [hf, Heap.emit, Heap.afterElements_log, List.append_assoc]
    · exact construction_of_ofDispose fun e he => Deleter.mem_call he
    · simp only [hf]
    · exact destruction_elements ..
  | none =>
    refine ⟨⟨a, .element, p, n⟩, p, [.allocate ⟨a, .controlBlock, mem, 1⟩], ?_, rfl,
      .inr ⟨hf, rfl, p, h.next, ⟨.new, .countedDeleter p (.elements a B.values.length n), ⟨a, .controlBlock, mem, 1⟩⟩,
        ?_, ?_, ?_⟩⟩
    · rw [← List.append_assoc, ← Heap.afterElements_log]
      simp only [hf, hmem]
      rfl
    · simp only [hf, hmem]
    · simp only [hf, hmem]
      exact Function.update_self ..
    · have hlen : B.values.length = n := by
        rw [hB]
        exact Env.build_length (by rw [← hB, hf])
      rw [hlen]
      exact destruction_elements ..

variable {L : Layout} {ini : Initial}

theorem makes_inplace (hini : ini ≠ .overwrite) (hp : E.allocate h.allocations = .ok p) :
    Makes E a ini.init 1 h (SharedCount.ofAllocShared E L a ini h) := by
  obtain ⟨B, hB⟩ : ∃ B, B = E.build (fun _ => ini.init) h.constructions 0 1 := ⟨_, rfl⟩
  have hvia : ini.inplaceVia a = some a := if_neg hini
  rw [Makes, ofAllocShared_apply, hp, hvia, ← hB]
  cases hf : B.failure with
  | some e =>
    have hlen : B.values = [] := by
      rw [hB, Env.build] at hf ⊢
      split at hf
      next => rfl
      next => cases hf
    refine ⟨⟨a, .controlBlock, p, 1⟩, p.map (· + L.storage), if p ≠ none then [.deallocate ⟨a, .controlBlock, p, 1⟩] else [],
      ?_, ?_, .inl ⟨e, hf, ?_, ?_⟩⟩
    · simp only [hf]
      cases p <;> simp [dropGuard, Heap.emit, Heap.afterElements_log]
    · cases p <;> rfl
    · simp only [hf]
    · rw [hlen]
      cases p <;> exact List.Perm.refl _
  | none =>
    refine ⟨⟨a, .controlBlock, p, 1⟩, p.map (· + L.storage), [], ?_, rfl,
      .inr ⟨hf, rfl, p.map (· + L.storage), h.next, ⟨.new, .countedInplace a (p.map (· + L.storage)), ⟨a, .controlBlock, p, 1⟩⟩,
        ?_, ?_, List.Perm.refl _⟩⟩
    · rw [List.append_nil, ← Heap.afterElements_log]
      simp only [hf]
      rfl
    · simp only [hf]
    · simp only [hf, Initial.inplace, if_neg hini]
      exact Function.update_self ..

/-- `allocate(m)` has succeeded: the storage is there, and an array of `m` elements is an object. -/
def Layout.Storage (L : Layout) (p : Ptr) (m : Nat) : Prop := L.Room p m ∧ m * L.elemSize < 2 ^ 63

theorem Layout.tail_le (L : Layout) : L.tail ≤ 2 ^ 63 := by
  have hpos := L.elemSize_pos
  have hbytes := L.tailBytes_le
  have hblock := L.block_lt
  refine Nat.div_le_of_le_mul ?_
  have := Nat.le_mul_of_pos_left (2 ^ 63 - 1) hpos
  rw [Nat.mul_sub_one] at this
  omega

theorem elementInit_eq (hU : L.isArray = false) : L.elementInit ini = fun _ => ini.init := by
  cases ini <;> simp [Layout.elementInit, Initial.init, hU]

theorem makes_array {shape : ArrayShape L} {id : Nat} (hU : L.isArray = false) (hini : ini ≠ .overwrite)
    (hsum : shape.count + L.tail < 2 ^ 64) (hp : E.allocate h.allocations = .ok p)
    (room : L.Room p (shape.chunk (.user id) p).n) :
    Makes E (.user id) ini.init shape.count h (allocateSharedArray E L (.user id) shape ini h) := by
  have hlt : shape.count < 2 ^ 64 := by omega
  rw [ArrayShape.chunk_n hsum] at room
  obtain ⟨raw, rfl, hdvd, hroom⟩ := room
  obtain ⟨self, hself, -⟩ := blockAddress_inside hdvd hroom
  obtain ⟨B, hB⟩ : ∃ B, B = shape.build E ini h := ⟨_, rfl⟩
  have hB' : E.build (fun _ => ini.init) h.constructions 0 shape.count = B := by
    rw [hB, ArrayShape.build, elementInit_eq hU]
  have hvia : ini.via (.user id) = some (.user id) := if_neg (by simp [hini])
  rw [Makes, allocateSharedArray_of_allocate hlt hp, hB', ← hB, hvia, elementInit_eq hU]
  cases hf : B.failure with
  | some e =>
    refine ⟨shape.chunk (.user id) (some raw), some raw,
      destroyRange (some (.user id)) (some raw) B.values.length ++ [.deallocate (shape.chunk (.user id) (some raw))],
      ?_, ?_, .inl ⟨e, hf, ?_, ?_⟩⟩
    · simp only [hf]
      rw [← List.append_assoc, ← List.append_assoc, ← Heap.afterElements_log]
      rfl
    · refine construction_of_ofDispose ?_
      intro e he
      rcases List.mem_append.mp he with he | he
      · exact mem_destroyRange he
      · rw [List.mem_singleton.mp he]
        rfl
    · simp only [hf]
    · rw [List.filterMap_append, destruction_destroyRange]
      exact (List.append_nil _).symm ▸ List.Perm.refl _
  | none =>
    refine ⟨shape.chunk (.user id) (some raw), some raw, [], ?_, rfl, .inr ⟨hf, rfl, some raw, h.next,
      ⟨.new, .countedArray (.user id) shape.count (ini = .overwrite) (some raw) self.toNat,
        shape.chunk (.user id) (some raw)⟩, ?_, ?_, ?_⟩⟩
    · rw [List.append_nil, ← Heap.afterElements_log]
      simp only [hf, Option.bind_some, hself]
      rfl
    · simp only [hf, Option.bind_some, hself]
    · simp only [hf, Option.bind_some, hself]
      exact Function.update_self ..
    · by_cases hn : shape.count = 0
      · simp [Managed.dispose, hn, undone]
      · simp only [Managed.dispose, if_pos hn, disposeArray, hini, decide_false]
        exact destruction_destroyElements ..

/-- **The same element work** by constant evaluation and at run time. -/
theorem same_element_work (L : Layout) (hU : L.isArray = false) (construct : Nat → Init → Except Exn Nat)
    (allocateC allocateR : Nat → Except Exn Ptr) (id : Nat) (form : Form L) (ini : Initial) (hini : ini ≠ .overwrite)
    (hC hR : Heap) (hcount : hC.constructions = hR.constructions) (pC mem pR : Ptr)
    (elements : allocateC hC.allocations = .ok pC ∧ L.Storage pC form.n)
    (controlBlock : allocateC (hC.allocations + 1) = .ok mem)
    (storage : allocateR hR.allocations = .ok pR ∧
      ∀ shape, form = .array shape → L.Storage pR (shape.chunk (.user id) pR).n) :
    SameWork hC hR (allocateShared ⟨allocateC, construct⟩ L true (.user id) form ini hC)
      (allocateShared ⟨allocateR, construct⟩ L false (.user id) form ini hR) := by
  have hargs : ini.args = ini.init := by
    cases ini <;> first | rfl | exact absurd rfl hini
  have hbuild : ∀ c i n, Env.build ⟨allocateC, construct⟩ (fun _ => ini.init) c i n =
      Env.build ⟨allocateR, construct⟩ (fun _ => ini.init) c i n := by
    intro c i n
    induction n generalizing c i with
    | zero => rfl
    | succ n ih => simp only [Env.build, ih]
  have hconst := makes_cest (E := ⟨allocateC, construct⟩) (.user id) ini.init form.n elements.1 controlBlock
  unfold allocateShared
  rw [if_pos rfl, if_neg Bool.false_ne_true, hargs]
  cases form with
  | single => exact hconst.same (by rw [hcount, hbuild]) (makes_inplace hini storage.1)
  | array shape =>
    have hn : (Form.array shape).n = shape.count := by
      cases shape <;> simp [Form.n, ArrayShape.count, L.extent_eq hU]
    have htail := L.tail_le
    have hsize := elements.2.2
    have hle := Nat.le_mul_of_pos_right (Form.array shape).n L.elemSize_pos
    have hrun := makes_array (E := ⟨allocateR, construct⟩) hU hini (by omega) storage.1
      (storage.2 shape rfl).1
    rw [hn] at hconst ⊢
    exact hconst.same (by rw [hcount, hbuild]) hrun

/-- Two bytes, of which the second cannot be constructed. -/
theorem same_element_work_bytes :
    SameWork .empty .empty
      (allocateShared ⟨fun _ => .ok (some 4096), fun k _ => if k = 1 then .error (.user 5) else .ok k⟩ .bytes true (.user 0)
        (.array (.unbounded 2)) (.value 7) .empty)
      (allocateShared ⟨fun _ => .ok (some 8192), fun k _ => if k = 1 then .error (.user 5) else .ok k⟩ .bytes false (.user 0)
        (.array (.unbounded 2)) (.value 7) .empty) :=
  same_element_work .bytes rfl _ (fun _ => .ok (some 4096)) (fun _ => .ok (some 8192)) 0 _ (.value 7) nofun .empty .empty
    rfl (some 4096) (some 4096) (some 8192) ⟨rfl, ⟨4096, rfl, by decide, by decide⟩, by decide⟩ rfl
    ⟨rfl, fun shape h => by cases h; exact ⟨⟨8192, rfl, by decide, by decide⟩, by decide⟩⟩

end SharedPtr.Seq
