/-
`make_shared` and `allocate_shared` (`bits/shared_ptr.h`): by constant
evaluation, with the elements in storage of their own that a deleter gives
back (`cest_allocate_shared`); and at run time, with the element in the control
block or the control block behind the elements of an array
(`bits/shared_ptr_base.h`).

What each constructor of `__shared_count` does is a function of the answers of
the environment (`cestAllocateShared_apply`, `ofAllocShared_apply`,
`ofCountedArray_apply`).
-/
import SharedPtr.Elements
import SharedPtr.HandleLedger

namespace SharedPtr.Seq

open Lib (Prog Result Trade)

/-! ## Sizes -/

/-- A `size_t`. -/
abbrev SizeT := BitVec 64

/-- What the compiler decides, for an array type `_Tp` and the class
`_Sp_counted_array` that goes with it; `_Up` is `remove_all_extents_t<_Tp>`. -/
structure Layout where
  /-- `sizeof(_Up)` and `alignof(_Up)` -/
  elemSize : Nat
  elemAlign : Nat
  /-- Whether `remove_extent_t<_Tp>` is an array, and its size over `sizeof(_Up)` -/
  isArray : Bool
  extent : Nat
  /-- `sizeof(_Sp_counted_array)` and `alignof(_Sp_counted_array)` -/
  blockSize : Nat
  blockAlign : Nat
  /-- Where `_M_storage` is in a `_Sp_counted_ptr_inplace`. -/
  storage : Nat
  elemSize_pos : 0 < elemSize
  extent_pos : 0 < extent
  extent_eq : isArray = false → extent = 1
  blockSize_pos : 0 < blockSize
  elemAlign_pow : ∃ i, elemAlign = 2 ^ i
  blockAlign_pow : ∃ i, blockAlign = 2 ^ i
  elemAlign_dvd : elemAlign ∣ elemSize
  blockAlign_dvd : blockAlign ∣ blockSize
  /-- No object is larger than half the address space. -/
  element_lt : extent * elemSize < 2 ^ 63
  block_lt : blockSize + blockAlign ≤ 2 ^ 63

namespace Layout

variable (L : Layout)

/-- `__bytes` of `_S_tail()`. -/
def tailBytes : Nat := L.blockSize + if L.elemAlign < L.blockAlign then L.blockAlign - L.elemAlign else 0

/-- `_S_tail()`. -/
def tail : Nat := (L.tailBytes + L.elemSize - 1) / L.elemSize

end Layout

/-- `std::align`: the address, if the object fits. -/
def align (align size ptr space : SizeT) : Option SizeT :=
  if space < size then none
  else
    let aligned := (ptr - 1 + align) &&& -align
    let diff := aligned - ptr
    if space - size < diff then none else some aligned

/-- `_Sp_counted_array_base`. -/
structure CountedArrayBase where
  alloc : Source
  n : SizeT
  overwrite : Bool
  deriving DecidableEq, Repr

/-- The initial value: a null pointer, a pointer to `u`, or `_Sp_overwrite_tag`. -/
inductive Initial
  | null
  | value (u : Nat)
  | overwrite
  deriving DecidableEq, Repr

section

variable (E : Env) (L : Layout)

/-! ## By constant evaluation -/

/-- `__i` and `__p` of `cest_allocate_shared`. -/
structure CestLocals where
  i : Nat
  p : Ptr
  deriving DecidableEq, Repr

/-- `for (; __i < __n; ++__i) construct(__a2, addressof(__p[__i]), ...)`, for at most `turns` turns. -/
def cestLoop (a2 : Source) (n : Nat) (init : Init) : Nat → Prog (Heap × CestLocals) Exn Unit
  | 0 => Prog.stop
  | turns + 1 => do
    let l ← Prog.read (·.2)
    if l.i < n then do
      Prog.outer (construct E (some a2) init l.p l.i)
      Prog.modify fun s => (s.1, { s.2 with i := s.2.i + 1 })
      cestLoop a2 n init turns
    else pure ()

/-- `cest_allocate_shared`; the stored pointer and the control block are returned. -/
def cestAllocateShared (a : Source) (n : Nat) (init : Init) : Prog Heap Exn (Ptr × CountPtr) :=
  Prog.withLocal ⟨0, none⟩
    (do
      Prog.tryCatch
        (do
          let p ← Prog.outer (allocate E a .element n)
          Prog.modify fun s => (s.1, { s.2 with p := p })
          cestLoop E a n init (n + 1))
        fun e => do
          let l ← Prog.read (·.2)
          Prog.outer (callDeleter (some (.elements a l.i n)) l.p)
          Prog.throw e
      -- `return shared_ptr<_Tp>(__p, _Del{__a2, __i, __n}, __a2)`
      let l ← Prog.read (·.2)
      let pi ← Prog.outer (SharedCount.ofPtrDeleterAlloc E l.p (.elements a l.i n) a)
      pure (l.p, pi))
    fun _ h => h

/-! ## At run time -/

/-- An exception cannot leave a `noexcept` function. -/
def noexcept {α : Type} (c : Prog Heap Exn α) : Prog Heap Exn α := fun h =>
  match c h with
  | (.throw _, h') => (.stop, h'.emit [.terminate])
  | r => r

/-- `__make_shared_arr_tag`. -/
def makeSharedArrTag (n : SizeT) (a : Source) : Prog Heap Exn CountedArrayBase :=
  noexcept <|
    if BitVec.umulOverflow (BitVec.ofNat 64 L.extent) n then Prog.throw .badArrayNewLength
    else pure ⟨a, BitVec.ofNat 64 L.extent * n, false⟩

/-- `__make_shared_arrN_tag`, for an array of `count` elements: `sizeof(_Tp) / sizeof(_Up)`. -/
def makeSharedArrNTag (count : Nat) (a : Source) : Prog Heap Exn CountedArrayBase :=
  pure ⟨a, BitVec.ofNat 64 (count * (L.extent * L.elemSize) / L.elemSize), false⟩

namespace SharedCount

/-- `__shared_count(_Tp*& __p, _Sp_alloc_shared_tag<_Alloc> __a, ...)`, for either class
`_Sp_counted_ptr_inplace`; the local object is `__guard`. -/
def ofAllocShared (a : Source) (ini : Initial) : Prog Heap Exn (Ptr × CountPtr) :=
  Prog.withLocal none
    (do
      let mem ← Prog.outer (allocate E a .controlBlock 1)
      Prog.modify fun s => (s.1, mem)
      let ptr := mem.map (· + L.storage)
      let managed ← Prog.outer <| match ini with
        | .null => do
          construct E (some a) .value ptr 0
          pure (Managed.countedInplace a ptr)
        | .value u => do
          construct E (some a) (.args u) ptr 0
          pure (Managed.countedInplace a ptr)
        | .overwrite => do
          construct E none .default ptr 0
          pure (Managed.countedOverwrite ptr)
      let pi ← Prog.outer (Prog.act (Heap.construct managed ⟨a, .controlBlock, mem, 1⟩))
      Prog.modify fun s => (s.1, none)
      pure (ptr, some pi))
    fun guard h => dropGuard a guard h

/-- `_M_init`. -/
def init (p : Ptr) (ini : Initial) (base : CountedArrayBase) : Prog Heap Exn CountedArrayBase :=
  match ini with
  | .overwrite => do
    uninitializedDefaultConstructN E p base.n.toNat
    pure { base with overwrite := true }
  | .null => do
    uninitializedDefaultNA E p base.n.toNat base.alloc
    pure base
  | .value u => do
    if L.isArray then uninitializedCopyA E p base.n.toNat u L.extent base.alloc
    else uninitializedFillNA E p base.n.toNat u base.alloc
    pure base

/-- What `_M_alloc_array(_S_tail())` asks for: `_M_n + __tail`. -/
def arrayCount (n : SizeT) : Nat := (n + BitVec.ofNat 64 L.tail).toNat

/-- Where the block goes, `__c`, with the elements at `raw`. -/
def blockAddress (n : SizeT) (raw : Nat) : Option SizeT :=
  let c := BitVec.ofNat 64 raw + BitVec.ofNat 64 L.elemSize * n
  if L.elemAlign < L.blockAlign then
    align (BitVec.ofNat 64 L.blockAlign) (BitVec.ofNat 64 L.blockSize) c (BitVec.ofNat 64 (L.elemSize * L.tail))
  else some c

/-- `~_Guarded_ptr()`. -/
def dropArray (guard : CountedArrayBase × Ptr) (h : Heap) : Heap :=
  if guard.2 ≠ none then h.emit [.deallocate ⟨guard.1.alloc, .element, guard.2, arrayCount L guard.1.n⟩] else h

/-- `__shared_count(_Tp*& __p, const _Sp_counted_array_base<_Alloc>& __a, _Init __init)`; the
local object is `__guard`: its base and its `_M_ptr`. -/
def ofCountedArray (base : CountedArrayBase) (ini : Initial) : Prog Heap Exn (Ptr × CountPtr) := do
  let p ← allocate E base.alloc .element (arrayCount L base.n)
  Prog.withLocal (base, p)
    (do
      let base ← Prog.outer (init E L p ini base)
      Prog.modify fun s => (s.1, base, s.2.2)
      let raw ← Prog.ofOption p
      let self ← Prog.ofOption (blockAddress L base.n raw)
      let pi ← Prog.outer (Prog.act (Heap.construct
        (.countedArray base.alloc base.n.toNat base.overwrite p self.toNat)
        ⟨base.alloc, .element, p, arrayCount L base.n⟩))
      Prog.modify fun s => (s.1, s.2.1, none)
      pure (p, some pi))
    (dropArray L)

end SharedCount

/-- `_Tp[]` with `n` elements, or `_Tp[count]`, which is an object's type. -/
inductive ArrayShape (L : Layout)
  | unbounded (n : SizeT)
  | bounded (count : Nat) (size_lt : count * (L.extent * L.elemSize) < 2 ^ 63)

/-- How many elements `_Up` there are. -/
def ArrayShape.count {L : Layout} : ArrayShape L → Nat
  | unbounded n => L.extent * n.toNat
  | bounded count _ => count * L.extent

def arrayTag (a : Source) : ArrayShape L → Prog Heap Exn CountedArrayBase
  | .unbounded n => makeSharedArrTag L n a
  | .bounded count _ => makeSharedArrNTag L count a

/-- An array, at run time. -/
def allocateSharedArray (a : Source) (shape : ArrayShape L) (ini : Initial) : Prog Heap Exn (Ptr × CountPtr) := do
  let base ← arrayTag L a shape
  SharedCount.ofCountedArray E L base ini

/-- One object, or an array. -/
inductive Form (L : Layout)
  | single
  | array (shape : ArrayShape L)

/-- `__n`: 1, the argument, or `extent_v<_Tp>`. -/
def Form.n {L : Layout} : Form L → Nat
  | single => 1
  | array (.unbounded n) => n.toNat
  | array (.bounded count _) => count

/-- The arguments that `cest_allocate_shared` is called with. -/
def Initial.args : Initial → Init
  | .null => .value
  | .value u => .args u
  | .overwrite => .value

/-- `allocate_shared` and `allocate_shared_for_overwrite`; `make_shared` and
`make_shared_for_overwrite` are those of `std::allocator`. -/
def allocateShared (constEval : Bool) (a : Source) (form : Form L) (ini : Initial) : Prog Heap Exn (Ptr × CountPtr) :=
  if constEval then cestAllocateShared E a form.n ini.args
  else
    match form with
    | .single => SharedCount.ofAllocShared E L a ini
    | .array shape => allocateSharedArray E L a shape ini

/-- A constructor of a shared pointer whose `_M_ptr` and `_M_refcount` are what `rc` makes. -/
def makeCtor {V : Type} [DecidableEq V] (x : Ref V) (rc : Prog Heap Exn (Ptr × CountPtr)) : Prog (Mem V) Exn Unit := do
  let (p, pi) ← onHeap rc
  create x ⟨.shared, p, pi⟩

end

/-! ## What they do -/

variable {E : Env} {L : Layout} {h : Heap}

theorem makeCtor_apply {V : Type} [DecidableEq V] {x : Ref V} {rc : Prog Heap Exn (Ptr × CountPtr)} {s : Mem V}
    (hx : s.obj x = none) :
    makeCtor x rc s =
      match rc s.heap with
      | (.ok made, h) => (.ok (), { s with heap := h }.set x (some ⟨.shared, made.1, made.2⟩))
      | (.throw e, h) => (.throw e, { s with heap := h })
      | (.stop, h) => (.stop, { s with heap := h }) := by
  simp only [makeCtor, Prog.bind_apply, onHeap]
  cases rc s.heap with
  | mk r h =>
    cases r with
    | ok made => simp [create, hx]
    | throw e => rfl
    | stop => rfl

/-- The heap when the next allocation has given the storage `c`. -/
def Heap.afterAllocate (h : Heap) (c : Chunk) : Heap := h.afterFailure.emit [.allocate c]

theorem allocate_apply (source : Source) (valueType : ValueType) (n : Nat) :
    allocate E source valueType n h =
      match E.allocate h.allocations with
      | .error e => (.throw e, h.afterFailure)
      | .ok p => (.ok p, h.afterAllocate ⟨source, valueType, p, n⟩) := by
  unfold allocate
  split <;> simp_all [Heap.afterAllocate, Heap.afterFailure]

theorem cestLoop_apply (a : Source) {n : Nat} (init : Init) (p : Ptr) (turns i : Nat) (hi : i ≤ n)
    (hturns : n - i < turns) :
    cestLoop E a n init turns (h, ⟨i, p⟩) =
      let B := E.build (fun _ => init) h.constructions i (n - i)
      (B.result, h.afterBuild (some a) (fun _ => init) p i B, ⟨i + B.values.length, p⟩) := by
  induction turns generalizing h i with
  | zero => omega
  | succ turns ih =>
    by_cases hin : i < n
    · obtain ⟨k, hk⟩ : ∃ k, n - i = k + 1 := ⟨n - i - 1, by omega⟩
      have hk' : n - (i + 1) = k := by omega
      have hturn := construct_build E (some a) (fun _ => init) p h i k
      rw [hk]
      simp only [cestLoop, Prog.bind_apply, Prog.read_apply, hin, if_true, Prog.outer, hturn]
      cases he : E.construct h.constructions init with
      | error e => simp [Env.build, he, Built.result]
      | ok v =>
        have hc : (h.afterBuild (some a) (fun _ => init) p i ⟨[v], none⟩).constructions = h.constructions + 1 := rfl
        simp only [Prog.modify_apply, ih (i + 1) hin (by omega), hk', hc, Heap.afterBuild_cons, Env.build, he]
        simp [Built.result]
        omega
    · have h0 : n - i = 0 := by omega
      simp [cestLoop, Prog.bind_apply, hin, h0, Env.build, Built.result, Heap.afterBuild, buildEvents, Built.calls]

/-- The heap when the elements were built in the storage `c`, or the first of them. -/
def Heap.afterElements (h : Heap) (c : Chunk) (via : Option Source) (init : Nat → Init) (p : Ptr) (B : Built) : Heap :=
  (h.afterAllocate c).afterBuild via init p 0 B

/-- `cest_allocate_shared` with the allocator `a`, for `n` elements: the elements that are there
and their storage are the deleter's, whatever throws. -/
theorem cestAllocateShared_apply (a : Source) (n : Nat) (init : Init) :
    cestAllocateShared E a n init h =
      match E.allocate h.allocations with
      | .error e => (.throw e, h.afterFailure.emit ((Deleter.elements a 0 n).call none))
      | .ok p =>
        let B := E.build (fun _ => init) h.constructions 0 n
        let h' := h.afterElements ⟨a, .element, p, n⟩ (some a) (fun _ => init) p B
        let d := Deleter.elements a B.values.length n
        match B.failure with
        | some e => (.throw e, h'.emit (d.call p))
        | none =>
          match E.allocate (h.allocations + 1) with
          | .error e => (.throw e, h'.afterFailure.emit (d.call p))
          | .ok mem => (.ok (p, some h.next), h'.afterConstruct a mem (.countedDeleter p d)) := by
  simp only [cestAllocateShared, Prog.withLocal, Prog.tryCatch, Prog.bind_apply, Prog.outer, allocate_apply]
  cases E.allocate h.allocations with
  | error e => simp [callDeleter]
  | ok p =>
    have hloop := cestLoop_apply (E := E) (h := h.afterAllocate ⟨a, .element, p, n⟩) a init p (n + 1) 0 (Nat.zero_le n)
      (by omega)
    have hc : (h.afterAllocate ⟨a, .element, p, n⟩).constructions = h.constructions := rfl
    simp only [Nat.sub_zero, hc, Nat.zero_add] at hloop
    simp only [Prog.modify_apply, hloop]
    cases hf : (E.build (fun _ => init) h.constructions 0 n).failure with
    | some e => simp [Built.result, hf, callDeleter, Heap.afterElements]
    | none =>
      have ha : ((h.afterAllocate ⟨a, .element, p, n⟩).afterBuild (some a) (fun _ => init) p 0
          (E.build (fun _ => init) h.constructions 0 n)).allocations = h.allocations + 1 := rfl
      simp only [Built.result, hf, Prog.read_apply, SharedCount.ofPtrDeleterAlloc_apply, Heap.afterElements, ha]
      cases E.allocate (h.allocations + 1) <;> rfl

/-! ### At run time -/

/-- How an element is initialised. -/
def Layout.elementInit (L : Layout) (ini : Initial) : Nat → Init :=
  match ini with
  | .null => fun _ => .value
  | .value u => if L.isArray then fun k => .element u (k % L.extent) else fun _ => .args u
  | .overwrite => fun _ => .default

/-- The allocator that an algorithm for an array asks, if any. -/
def Initial.via (ini : Initial) (alloc : Source) : Option Source :=
  if ini = .overwrite ∨ alloc = .std then none else some alloc

theorem init_apply (p : Ptr) (ini : Initial) (base : CountedArrayBase) (hb : base.overwrite = false) :
    SharedCount.init E L p ini base h =
      let B := E.build (L.elementInit ini) h.constructions 0 base.n.toNat
      let h' := h.afterBuild (ini.via base.alloc) (L.elementInit ini) p 0 B
      match B.failure with
      | some e => (.throw e, h'.emit (destroyRange (ini.via base.alloc) p B.values.length))
      | none => (.ok { base with overwrite := ini = .overwrite }, h') := by
  have key : ∀ base' : CountedArrayBase, base' = { base with overwrite := ini = .overwrite } →
      (do uninitialized E (ini.via base.alloc) (L.elementInit ini) p base.n.toNat; pure base' :
        Prog Heap Exn CountedArrayBase) h =
      let B := E.build (L.elementInit ini) h.constructions 0 base.n.toNat
      let h' := h.afterBuild (ini.via base.alloc) (L.elementInit ini) p 0 B
      match B.failure with
      | some e => (.throw e, h'.emit (destroyRange (ini.via base.alloc) p B.values.length))
      | none => (.ok { base with overwrite := ini = .overwrite }, h') := by
    rintro _ rfl
    simp only [Prog.bind_apply, uninitialized_apply]
    cases hf : (E.build (L.elementInit ini) h.constructions 0 base.n.toNat).failure <;> simp [Built.result, hf]
  have hsame : ini ≠ .overwrite → base = { base with overwrite := decide (ini = .overwrite) } := fun hi => by
    simp only [hi, decide_false, ← hb]
  cases ini with
  | overwrite => exact key _ rfl
  | null =>
    rw [← key base (hsame (by simp))]
    cases ha : base.alloc <;> simp [SharedCount.init, uninitializedDefaultNA, uninitializedDefaultN, Initial.via, ha,
      Layout.elementInit]
  | value u =>
    rw [← key base (hsame (by simp))]
    cases ha : base.alloc <;> cases hi : L.isArray <;> simp [SharedCount.init, uninitializedFillNA, uninitializedFillN,
      uninitializedCopyA, uninitializedCopy, Initial.via, ha, hi, Layout.elementInit]

/-- **An array and its control block** in one piece of storage; the elements are gone, and so is the
storage, when a constructor throws. -/
theorem ofCountedArray_apply (base : CountedArrayBase) (ini : Initial) (hb : base.overwrite = false) :
    SharedCount.ofCountedArray E L base ini h =
      match E.allocate h.allocations with
      | .error e => (.throw e, h.afterFailure)
      | .ok p =>
        let c : Chunk := ⟨base.alloc, .element, p, SharedCount.arrayCount L base.n⟩
        let via := ini.via base.alloc
        let B := E.build (L.elementInit ini) h.constructions 0 base.n.toNat
        let h' := h.afterElements c via (L.elementInit ini) p B
        match B.failure with
        | some e => (.throw e, SharedCount.dropArray L (base, p) (h'.emit (destroyRange via p B.values.length)))
        | none =>
          match p.bind (SharedCount.blockAddress L base.n) with
          | none => (.stop, h')
          | some self => (.ok (p, some h.next),
              (h'.construct (.countedArray base.alloc base.n.toNat (ini = .overwrite) p self.toNat) c).2) := by
  simp only [SharedCount.ofCountedArray, Prog.bind_apply, allocate_apply]
  cases E.allocate h.allocations with
  | error e => rfl
  | ok p =>
    have hc : (h.afterAllocate ⟨base.alloc, .element, p, SharedCount.arrayCount L base.n⟩).constructions =
      h.constructions := rfl
    simp only [Prog.withLocal, Prog.bind_apply, Prog.outer, init_apply p ini base hb, hc, Heap.afterElements]
    cases (E.build (L.elementInit ini) h.constructions 0 base.n.toNat).failure with
    | some e => rfl
    | none =>
      cases p with
      | none => rfl
      | some raw =>
        simp only [Prog.modify_apply, Prog.ofOption_some, Option.bind_some]
        cases SharedCount.blockAddress L base.n raw with
        | none => rfl
        | some self => rfl

/-- `_Sp_counted_ptr_inplace` with the element at `ptr`. -/
def Initial.inplace (ini : Initial) (a : Source) (ptr : Ptr) : Managed :=
  if ini = .overwrite then .countedOverwrite ptr else .countedInplace a ptr

/-- How the element of a control block is initialised, and with which allocator. -/
def Initial.init : Initial → Init
  | .null => .value
  | .value u => .args u
  | .overwrite => .default

def Initial.inplaceVia (ini : Initial) (a : Source) : Option Source := if ini = .overwrite then none else some a

/-- **One object in its control block.** -/
theorem ofAllocShared_apply (a : Source) (ini : Initial) :
    SharedCount.ofAllocShared E L a ini h =
      match E.allocate h.allocations with
      | .error e => (.throw e, h.afterFailure)
      | .ok mem =>
        let c : Chunk := ⟨a, .controlBlock, mem, 1⟩
        let ptr := mem.map (· + L.storage)
        let B := E.build (fun _ => ini.init) h.constructions 0 1
        let h' := h.afterElements c (ini.inplaceVia a) (fun _ => ini.init) ptr B
        match B.failure with
        | some e => (.throw e, dropGuard a mem h')
        | none => (.ok (ptr, some h.next), (h'.construct (ini.inplace a ptr) c).2) := by
  simp only [SharedCount.ofAllocShared, Prog.withLocal, Prog.bind_apply, Prog.outer, allocate_apply]
  cases E.allocate h.allocations with
  | error e => rfl
  | ok mem =>
    have hturn := fun (via : Option Source) (i : Init) => construct_build E via (fun _ => i)
      (mem.map (· + L.storage)) (h.afterAllocate ⟨a, .controlBlock, mem, 1⟩) 0 0
    have hc : (h.afterAllocate ⟨a, .controlBlock, mem, 1⟩).constructions = h.constructions := rfl
    cases ini <;> simp only [Prog.modify_apply, Prog.bind_apply, hturn, hc, Initial.init, Env.build,
      Initial.inplaceVia, Heap.afterElements]
    case null => cases E.construct h.constructions .value <;> rfl
    case value u => cases E.construct h.constructions (.args u) <;> rfl
    case overwrite => cases E.construct h.constructions .default <;> rfl

theorem arrayTag_apply (a : Source) (shape : ArrayShape L) :
    arrayTag L a shape h =
      if shape.count < 2 ^ 64 then (.ok ⟨a, BitVec.ofNat 64 shape.count, false⟩, h) else (.stop, h.emit [.terminate]) := by
  have hext : L.extent < 2 ^ 64 := by
    have := Nat.le_mul_of_pos_right L.extent L.elemSize_pos
    have := L.element_lt
    omega
  cases shape with
  | unbounded n =>
    have hn : BitVec.ofNat 64 L.extent * n = BitVec.ofNat 64 (L.extent * n.toNat) := by
      rw [BitVec.ofNat_mul, BitVec.ofNat_toNat, BitVec.setWidth_eq]
    have hov : BitVec.umulOverflow (BitVec.ofNat 64 L.extent) n = decide (2 ^ 64 ≤ L.extent * n.toNat) := by
      rw [BitVec.umulOverflow, BitVec.toNat_ofNat, Nat.mod_eq_of_lt hext]
    by_cases hlt : L.extent * n.toNat < 2 ^ 64
    · rw [decide_eq_false (Nat.not_le_of_lt hlt)] at hov
      refine Eq.trans ?_ (if_pos hlt).symm
      rw [arrayTag, makeSharedArrTag, hov, hn]
      rfl
    · rw [decide_eq_true (Nat.le_of_not_lt hlt)] at hov
      refine Eq.trans ?_ (if_neg hlt).symm
      rw [arrayTag, makeSharedArrTag, hov]
      rfl
  | bounded count size_lt =>
    have hdiv : count * (L.extent * L.elemSize) / L.elemSize = count * L.extent := by
      rw [← Nat.mul_assoc, Nat.mul_div_cancel _ L.elemSize_pos]
    have hlt : count * L.extent < 2 ^ 64 := by
      have := Nat.le_mul_of_pos_right (count * L.extent) L.elemSize_pos
      rw [Nat.mul_assoc] at this
      omega
    refine Eq.trans ?_ (if_pos hlt).symm
    rw [arrayTag, makeSharedArrNTag, hdiv]
    rfl

end SharedPtr.Seq
