/-
`make_shared` of an array of arrays from an initial element `u`, at run time
(`_Sp_counted_array_base::_M_init` in `bits/shared_ptr_base.h`): the class
`_Iter`, which goes through the elements of `u` over and over, and the loop of
`__uninitialized_copy_a` over it. `SharedCount.init` has the elements that the
iterator is to refer to; the iterator refers to them (`initFromArray_eq`).

`u` is an array of arrays in memory, so its elements are those of `u[0]`, then
those of `u[1]`, and so on (`Nested.flatten`), and a pointer into `u` is an
index. (By constant evaluation an allocator of one's own has to construct each
`U` from `u`; there is no iterator.)
-/
import SharedPtr.ArrayExceptions

namespace SharedPtr.Seq

open Lib (Prog Result)

/-! ## Arrays of arrays -/

/-- An array of arrays with the extents `ns`. -/
def Nested (α : Type) : List Nat → Type
  | [] => α
  | n :: ns => Fin n → Nested α ns

/-- Its elements, as they are in memory. -/
def Nested.flatten {α : Type} : {ns : List Nat} → Nested α ns → List α
  | [], u => [u]
  | _ :: _, u => (List.ofFn fun i => flatten (u i)).flatten

theorem Nested.length_flatten {α : Type} {ns : List Nat} (u : Nested α ns) : u.flatten.length = ns.prod := by
  induction ns with
  | nil => rfl
  | cons n ns ih =>
    rw [flatten, List.length_flatten, List.map_ofFn, List.prod_cons]
    have hlen : (List.length ∘ fun i => flatten (u i)) = fun _ => ns.prod := funext fun i => ih (u i)
    rw [hlen, List.ofFn_const, List.sum_replicate_nat]

/-- `remove_extent_t<_Tp>` is an array with the extents `ns`, or no array. -/
structure Layout.Nests (L : Layout) (ns : List Nat) : Prop where
  isArray : L.isArray = true ↔ ns ≠ []
  extent : L.extent = ns.prod

/-! ## The iterator -/

/-- `_S_first_elem`, of a pointer to an array with the extents `ns`. The arrays of one type in `u` are
counted from the first one: `*__p`, a pointer to the first of its `_Nm` elements. -/
def firstElem : List Nat → Nat → Nat
  | [], p => p
  | n :: ns, p => firstElem ns (p * n)

/-- `_Iter`. -/
structure Iter where
  p : Nat
  len : SizeT
  pos : SizeT
  deriving DecidableEq, Repr

namespace Iter

/-- `operator++`. -/
def next (it : Iter) : Iter := { it with pos := it.pos + 1 }

/-- `operator*`: the element of `u`, in a program that does not divide by 0. -/
def deref (it : Iter) : Option Nat := if it.len = 0 then none else some (it.p + (it.pos % it.len).toNat)

/-- `operator==`. -/
def equal (it it' : Iter) : Bool := it.pos = it'.pos

end Iter

section

variable (E : Env) (via : Option Source) (u : Nat) (p : Ptr)

/-- `for (; __first != __last; ++__first, (void)++__result) construct(__alloc, addressof(*__result), *__first)`,
for at most `turns` turns. -/
def copyLoop (last : Iter) : Nat → Iter → Prog (Heap × UninitDestroyGuard) Exn Unit
  | 0, _ => Prog.stop
  | turns + 1, first =>
    if first.equal last then pure ()
    else do
      let j ← Prog.ofOption first.deref
      let guard ← Prog.read (·.2)
      Prog.outer (construct E via (.element u j) p guard.cur)
      Prog.modify fun s => (s.1, { s.2 with cur := s.2.cur + 1 })
      copyLoop last turns first.next

/-- `__uninitialized_copy_a`, and `__do_uninit_copy` where the allocator is `std::allocator`. -/
def copyFrom (first last : Iter) (turns : Nat) : Prog Heap Exn Unit :=
  Prog.withLocal ⟨0, false⟩
    (do
      copyLoop E via u p last turns first
      Prog.modify fun s => (s.1, { s.2 with released := true }))
    fun guard h => if guard.released then h else h.emit (destroyRange via p guard.cur)

/-- `_M_init(__p, __init)`, where `*__init` is `u`, an array with the extents `ns`. -/
def initFromArray (L : Layout) (ns : List Nat) (base : CountedArrayBase) (turns : Nat) :
    Prog Heap Exn CountedArrayBase := do
  let first : Iter := ⟨firstElem ns 0, BitVec.ofNat 64 (ns.prod * L.elemSize / L.elemSize), 0⟩
  let last := { first with pos := base.n }
  copyFrom E (if base.alloc = .std then none else some base.alloc) u p first last turns
  pure base

end

/-! ## The loop -/

variable {E : Env} {via : Option Source} {u : Nat} {p : Ptr} {L : Layout} {ns : List Nat}

theorem firstElem_eq (ns : List Nat) (p : Nat) : firstElem ns p = p * ns.prod := by
  induction ns generalizing p with
  | nil => simp [firstElem]
  | cons n ns ih => rw [firstElem, ih, List.prod_cons, Nat.mul_assoc]

/-- The iterator at the position `i`, over an array of `len` elements. -/
def Iter.ofPos (len i : Nat) : Iter := ⟨0, BitVec.ofNat 64 len, BitVec.ofNat 64 i⟩

theorem Iter.next_ofPos (len i : Nat) : (ofPos len i).next = ofPos len (i + 1) := by
  rw [next, ofPos, ofPos, BitVec.ofNat_add]
  rfl

theorem Iter.equal_ofPos (len : Nat) {i n : Nat} (hi : i < 2 ^ 64) (hn : n < 2 ^ 64) :
    (ofPos len i).equal (ofPos len n) = decide (i = n) := by
  rw [equal, ofPos, ofPos, decide_eq_decide, ← BitVec.toNat_inj, BitVec.toNat_ofNat, BitVec.toNat_ofNat,
    Nat.mod_eq_of_lt hi, Nat.mod_eq_of_lt hn]

theorem Iter.deref_ofPos {len i : Nat} (hlen : 0 < len) (hlt : len < 2 ^ 64) (hi : i < 2 ^ 64) :
    (ofPos len i).deref = some (i % len) := by
  have hne : BitVec.ofNat 64 len ≠ 0 := by
    intro he
    have := congrArg BitVec.toNat he
    rw [BitVec.toNat_ofNat, Nat.mod_eq_of_lt hlt] at this
    exact absurd this (by simpa using Nat.ne_of_gt hlen)
  rw [deref, ofPos, if_neg hne, BitVec.toNat_umod, BitVec.toNat_ofNat, BitVec.toNat_ofNat, Nat.mod_eq_of_lt hlt,
    Nat.mod_eq_of_lt hi, Nat.zero_add]

/-- From the position `i` on, the loop ends after as many turns as there are elements to come. -/
theorem copyLoop_eq {len n : Nat} (hlen : 0 < len) (hlt : len < 2 ^ 64) (hn : n < 2 ^ 64) (turns i : Nat) (hi : i ≤ n)
    (hturns : n - i < turns) (h : Heap) :
    copyLoop E via u p (.ofPos len n) turns (.ofPos len i) (h, ⟨i, false⟩) =
      uninitLoop E via (fun k => .element u (k % len)) p (n - i) (h, ⟨i, false⟩) := by
  induction turns generalizing i h with
  | zero => omega
  | succ turns ih =>
    have heq := Iter.equal_ofPos len (i := i) (by omega) hn
    by_cases hin : i = n
    · rw [copyLoop, heq, decide_eq_true hin, if_pos rfl, hin, Nat.sub_self, uninitLoop]
    · obtain ⟨k, hk⟩ : ∃ k, n - i = k + 1 := ⟨n - i - 1, by omega⟩
      have hk' : n - (i + 1) = k := by omega
      rw [copyLoop, heq, decide_eq_false hin, if_neg Bool.false_ne_true, hk, uninitLoop]
      simp only [Prog.bind_apply, Iter.deref_ofPos hlen hlt (i := i) (by omega), Prog.ofOption_some, Prog.read_apply,
        Prog.outer, Iter.next_ofPos]
      cases construct E via (.element u (i % len)) p i h with
      | mk r h' =>
        cases r with
        | ok => simp only [Prog.modify_apply, ih (i + 1) (by omega) (by omega), hk']
        | throw e => rfl
        | stop => rfl

theorem copyFrom_eq {len n : Nat} (hlen : 0 < len) (hlt : len < 2 ^ 64) (hn : n < 2 ^ 64) {turns : Nat}
    (hturns : n < turns) :
    copyFrom E via u p (.ofPos len 0) (.ofPos len n) turns =
      uninitialized E via (fun k => .element u (k % len)) p n := by
  funext h
  have hloop : copyLoop E via u p (.ofPos len n) turns (.ofPos len 0) (h, ⟨0, false⟩) = _ :=
    copyLoop_eq hlen hlt hn turns 0 (Nat.zero_le n) hturns h
  simp only [copyFrom, uninitialized, Prog.withLocal, Prog.bind_apply, hloop, Nat.sub_zero]

/-- **The iterator's loop ends**, and refers to the elements of `u` in their order, again and again. -/
theorem initFromArray_eq (hL : L.Nests ns) (hns : ns ≠ []) (base : CountedArrayBase) {turns : Nat}
    (hturns : base.n.toNat < turns) :
    initFromArray E u p L ns base turns = SharedCount.init E L p (.value u) base := by
  have hlen : 0 < ns.prod := hL.extent ▸ L.extent_pos
  have hlt : ns.prod < 2 ^ 64 := by
    have hle := Nat.le_mul_of_pos_right L.extent L.elemSize_pos
    have := L.element_lt
    rw [hL.extent] at hle this
    omega
  have hiter : ∀ pos : SizeT, (⟨firstElem ns 0, BitVec.ofNat 64 (ns.prod * L.elemSize / L.elemSize), pos⟩ : Iter) =
      .ofPos ns.prod pos.toNat := by
    intro pos
    rw [firstElem_eq, Nat.zero_mul, Nat.mul_div_cancel _ L.elemSize_pos, Iter.ofPos, BitVec.ofNat_toNat,
      BitVec.setWidth_eq]
  have hcopy (via : Option Source) : copyFrom E via u p (.ofPos ns.prod 0) (.ofPos ns.prod base.n.toNat) turns = _ :=
    copyFrom_eq hlen hlt base.n.isLt hturns
  simp only [initFromArray, hiter, show BitVec.toNat (0 : SizeT) = 0 from rfl, hcopy, SharedCount.init,
    hL.isArray.mpr hns, if_true]
  cases base.alloc <;> simp [uninitializedCopyA, uninitializedCopy, hL.extent]

/-! ## What is constructed -/

/-- How an element is copied from the element `j` of `u`: from `u` itself, if that is no array. -/
def copyOf (ns : List Nat) (u j : Nat) : Init := if ns = [] then .args u else .element u j

/-- What the constructor of an element is called with. -/
def Event.initialiser : Event → Option Init
  | .allocatorConstruct _ init _ _ | .plainConstruct init _ _ => some init
  | _ => none

/-- An element that was constructed, and its value. -/
def Event.valued : Event → Option (Ptr × Nat × Nat)
  | .construct p k v => some (p, k, v)
  | _ => none

/-- The elements at `p`, `count` of them, are copied from those of `u` in their order, again and again; `c`
constructors were called before, `new` is logged, and element `k` gets the value `v k`. -/
structure Filled (E : Env) (ns : List Nat) (u : Nat) (p : Ptr) (c count : Nat) (new : List Event) (v : Nat → Nat) :
    Prop where
  constructed : new.filterMap Event.valued = (List.range count).map fun k => (p, k, v k)
  copied : new.filterMap Event.initialiser = (List.range count).map fun k => copyOf ns u (k % ns.prod)
  inside : ∀ init ∈ new.filterMap Event.initialiser, ∃ j < ns.prod, init = copyOf ns u j
  answers : ∀ k < count, E.construct (c + k) (copyOf ns u (k % ns.prod)) = .ok (v k)
  /-- Where a copy has the value of what it is copied from. -/
  values : ∀ U : Nested Nat ns, (∀ c j w, U.flatten[j]? = some w → E.construct c (copyOf ns u j) = .ok w) →
    ∀ k < count, U.flatten[k % ns.prod]? = some (v k)

/-- What `make_shared` does with the storage at `p`: `_M_init` fills it, and its loop ends. -/
def FillsCyclically (E : Env) (L : Layout) (ns : List Nat) (a : Source) (shape : ArrayShape L) (u : Nat) (p : Ptr)
    (h : Heap) : Prop :=
  (ns ≠ [] → ∀ base turns, base.n.toNat < turns →
      initFromArray E u p L ns base turns = SharedCount.init E L p (.value u) base) ∧
    ∃ new v, (allocateSharedArray E L a shape (.value u) h).2.log = h.log ++ .allocate (shape.chunk a p) :: new ∧
      Filled E ns u p h.constructions shape.count new v

theorem elementInit_copyOf (hL : L.Nests ns) (u : Nat) :
    L.elementInit (.value u) = fun k => copyOf ns u (k % ns.prod) := by
  funext k
  by_cases hns : ns = []
  · have hi : L.isArray ≠ true := fun h => hL.isArray.mp h hns
    simp [Layout.elementInit, copyOf, hns, hi]
  · simp [Layout.elementInit, copyOf, hns, hL.isArray.mpr hns, hL.extent]

/-- No constructor throws. -/
theorem Env.build_of_ok {init : Nat → Init} {v : Nat → Nat} {c i n : Nat}
    (hv : ∀ k < n, E.construct (c + k) (init (i + k)) = .ok (v (i + k))) :
    E.build init c i n = ⟨(List.range' i n).map v, none⟩ := by
  induction n generalizing c i with
  | zero => rfl
  | succ n ih =>
    have hrest : E.build init (c + 1) (i + 1) n = ⟨(List.range' (i + 1) n).map v, none⟩ := ih fun k hk => by
      have := hv (k + 1) (by omega)
      rwa [← Nat.add_assoc, ← Nat.add_assoc, Nat.add_right_comm, Nat.add_right_comm i] at this
    have hfirst : E.construct c (init i) = .ok (v i) := hv 0 (Nat.succ_pos n)
    simp only [Env.build, hfirst, hrest, List.range'_succ, List.map_cons]

theorem valued_buildEvents (init : Nat → Init) (v : Nat → Nat) (i n : Nat) :
    (buildEvents via init p none i ((List.range' i n).map v)).filterMap Event.valued =
      (List.range' i n).map fun k => (p, k, v k) := by
  induction n generalizing i with
  | zero => rfl
  | succ n ih =>
    rw [List.range'_succ, List.map_cons, List.map_cons, buildEvents, ← ih]
    cases via <;> rfl

theorem initialiser_buildEvents (init : Nat → Init) (v : Nat → Nat) (i n : Nat) :
    (buildEvents via init p none i ((List.range' i n).map v)).filterMap Event.initialiser =
      (List.range' i n).map init := by
  induction n generalizing i with
  | zero => rfl
  | succ n ih =>
    rw [List.range'_succ, List.map_cons, List.map_cons, buildEvents, ← ih]
    cases via <;> rfl

theorem fills_cyclically (E : Env) {L : Layout} {ns : List Nat} (hL : L.Nests ns) (a : Source) (shape : ArrayShape L)
    (u : Nat) (h : Heap) {p : Ptr} (hlt : shape.count < 2 ^ 64) (hp : E.allocate h.allocations = .ok p)
    (hquiet : ∀ k < shape.count, ∃ v, E.construct (h.constructions + k) (copyOf ns u (k % ns.prod)) = .ok v) :
    FillsCyclically E L ns a shape u p h := by
  have hlen : 0 < ns.prod := hL.extent ▸ L.extent_pos
  choose! v hv using hquiet
  have hbuild : shape.build E (.value u) h = ⟨(List.range' 0 shape.count).map v, none⟩ := by
    rw [ArrayShape.build, elementInit_copyOf hL]
    exact Env.build_of_ok fun k hk => by
      rw [Nat.zero_add]
      exact hv k hk
  -- the log of the constructors
  obtain ⟨new, hnew⟩ : ∃ new, new = buildEvents ((Initial.value u).via a) (fun k => copyOf ns u (k % ns.prod)) p none 0
    ((List.range' 0 shape.count).map v) := ⟨_, rfl⟩
  have hcopied : new.filterMap Event.initialiser = (List.range shape.count).map fun k => copyOf ns u (k % ns.prod) := by
    rw [hnew, initialiser_buildEvents, List.range_eq_range']
  refine ⟨fun hns base turns hturns => initFromArray_eq hL hns base hturns, new, v, ?_, ?_, hcopied, ?_, hv, ?_⟩
  · rw [allocateSharedArray_of_allocate hlt hp, hbuild, elementInit_copyOf hL]
    simp only
    split
    all_goals
      rw [hnew]
      exact Heap.afterElements_log
  · rw [hnew, valued_buildEvents, List.range_eq_range']
  · intro init hinit
    rw [hcopied] at hinit
    obtain ⟨k, -, rfl⟩ := List.mem_map.mp hinit
    exact ⟨k % ns.prod, Nat.mod_lt k hlen, rfl⟩
  · intro U hU k hk
    have hlt : k % ns.prod < U.flatten.length := by
      rw [U.length_flatten]
      exact Nat.mod_lt k hlen
    have hget := List.getElem?_eq_getElem hlt
    have hcopy := hU (h.constructions + k) _ _ hget
    rw [hv k hk] at hcopy
    rw [hget, Except.ok.inj hcopy]

/-- Three times two rows of two. -/
theorem fills_cyclically_rows :
    FillsCyclically ⟨fun _ => .ok (some 4096), fun _ init => match init with
      | .element _ j => .ok (10 + j)
      | _ => .ok 0⟩ .rows [2, 2] (.user 0) (.unbounded 3) 7 (some 4096) .empty ∧
      (ArrayShape.unbounded (L := .rows) 3).count = 12 :=
  ⟨fills_cyclically _ ⟨by decide, rfl⟩ (.user 0) (.unbounded 3) 7 .empty (by decide) rfl fun k _ => ⟨10 + k % 4, rfl⟩, rfl⟩

end SharedPtr.Seq
