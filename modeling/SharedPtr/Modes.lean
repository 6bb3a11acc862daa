/-
The lock policies run every program alike, while no control block has 2^31
owners: after every operation the objects read the same (`get()`,
`use_count()`, `expired()`), the same exceptions were thrown, and the same
`_M_dispose` and `_M_destroy` calls were made, in the same order. Constant
evaluation does so up to the first operation that calls a function without
`constexpr`, where it ends; there are two (`Op.isConstexpr`).

Copies and releases agree on every value of the counters (`Counts.release_eq`
and the like), so the functions built from them are equal. A use count is
read, and a lock made, where the count is the number of owners
(`Mem.Ok`), which the bound keeps below 2^31.
-/
import SharedPtr.Program

namespace SharedPtr.Seq

open Lib (Prog Result run Visits Along)
open Lib.Prog (Keeps)

variable {V : Type} [DecidableEq V]

/-- What a program can read of an object. -/
inductive Observation
  | shared (get : Ptr) (useCount : Int)
  | weak (useCount : Int) (expired : Bool)
  deriving DecidableEq, Repr

def Handle.observe (m : Mode) (h : Heap) (o : Handle) : Observation :=
  let count := useCount m o.pi h
  match o.kind with
  | .shared => .shared o.ptr count
  | .weak => .weak count (count == 0)

/-- The calls of `_M_dispose` and `_M_destroy`. -/
def Event.isVirtual : Event → Bool
  | .dispose _ | .destroy _ => true
  | _ => false

/-- What is known after an operation: how it ended, what the objects read, and
the virtual calls so far. -/
structure Report (V : Type) where
  result : Result Exn Unit
  objects : V → Option Observation
  calls : List Event

def report (m : Mode) (r : Result Exn Unit) (s : Mem V) : Report V where
  result := r
  objects v := (s.obj (.inl v)).map (Handle.observe m s.heap)
  calls := s.heap.log.filter Event.isVirtual

/-- The reports of the operations, up to one that does not end. -/
def trace (E : Env) (m : Mode) : List (Op V) → Mem V → List (Report V)
  | [], _ => []
  | op :: ops, s =>
    match exec E m op s with
    | (.stop, _) => []
    | (r, s') => report m r s' :: trace E m ops s'

variable {E : Env} {m m' : Mode}

/-! ## Functions that are equal -/

theorem addRef_eq (m m' : Mode) : addRef m = addRef m' := by
  funext k b h
  have hc : Counts.addRef m k = Counts.addRef m' k := by
    cases k with
    | shared => exact funext fun c => Counts.addRefCopy_eq m m' c
    | weak => exact funext fun c => Counts.weakAddRef_eq m m' c
  unfold addRef
  rw [hc]

theorem release_eq (m m' : Mode) : release m = release m' := by
  funext k b h
  have hc : Counts.drop m k = Counts.drop m' k := by
    cases k with
    | shared => exact funext fun c => (Counts.release_eq m c).trans (Counts.release_eq m' c).symm
    | weak => exact funext fun c => (Counts.weakRelease_eq m c).trans (Counts.weakRelease_eq m' c).symm
  unfold release Block.release
  rw [hc]

theorem copyCount_eq (m m' : Mode) : copyCount m = copyCount m' := by
  unfold copyCount
  rw [addRef_eq m m']

theorem dropCount_eq (m m' : Mode) : dropCount m = dropCount m' := by
  unfold dropCount
  rw [release_eq m m']

theorem assignCount_eq (m m' : Mode) : assignCount m = assignCount m' := by
  unfold assignCount replaceCount
  rw [copyCount_eq m m', dropCount_eq m m']

theorem destroyObject_eq (m m' : Mode) : destroyObject (V := V) m = destroyObject m' := by
  unfold destroyObject
  rw [dropCount_eq m m']

theorem swapTemporary_eq (m m' : Mode) : swapTemporary (V := V) m = swapTemporary m' := by
  unfold swapTemporary
  rw [destroyObject_eq m m']

/-! ## Functions that are not `constexpr` -/

/-- The mode whose run is asked for its owners: it adds to any use count but
the largest. -/
def counting : Mode := .runTime .single true 0

theorem counting_ne : counting ≠ .constEval := nofun

/-- All that the operation calls is `constexpr`: `__weak_ptr::operator=(__weak_ptr&&)`
is not, nor is `__throw_bad_weak_ptr`, for the conversion of an expired pointer. -/
def Op.isConstexpr (s : Mem V) : Op V → Bool
  | .moveAssign k _ _ => k = .shared
  | .convert _ r => (s.obj (.inl r)).all fun h => useCount counting h.pi s.heap ≠ 0
  | _ => true

/-- The operations that ask for a use count. -/
def Op.locks : Op V → Bool
  | .convert .. | .lock .. => true
  | _ => false

theorem exec_eq {m : Mode} {op : Op V} {s : Mem V} (h : op.locks = false)
    (hm : m = .constEval → op.isConstexpr s = true) : exec E m op = exec E counting op := by
  cases op with
  | convert | lock => cases h
  | default | own | move | aliasMove | swap => rfl
  | copy | weaken => simp only [exec, copyCtor, copyCount_eq m counting]
  | aliasOf => simp only [exec, aliasCtor, copyCount_eq m counting]
  | assign | assignShared => simp only [exec, copyAssign, assignCount_eq m counting]
  | moveAssign k x r =>
    have hk : m = .constEval → decide (k = .shared) = true := hm
    simp only [exec, moveAssign, ifConstexpr_of hk, ifConstexpr_of fun hc => absurd hc counting_ne,
      swapTemporary_eq m counting]
  | reset => simp only [exec, reset, swapTemporary_eq m counting]
  | resetOwn => simp only [exec, swapTemporary_eq m counting]
  | weakMoveAssignFrom => simp only [exec, weakMoveAssignFrom, dropCount_eq m counting]
  | destroy => simp only [exec, destroyObject_eq m counting]

/-! ## Counts below 2^31 -/

section

variable [Fintype V] {s : Mem V} {hand : Resource → Nat}

/-- Every block has fewer than 2^31 owners. -/
def FewOwners (s : Mem V) : Prop := ∀ b, s.owners .shared b < 2 ^ 31

omit [DecidableEq V] in
theorem useCount_eq (ok : s.Ok hand) (few : FewOwners s) (m m' : Mode) (pi : CountPtr) :
    useCount m pi s.heap = useCount m' pi s.heap := by
  unfold useCount
  cases pi with
  | none => rfl
  | some b =>
    cases hb : s.heap.blocks b with
    | none => simp [hb]
    | some blk =>
      have hblk := ok.blocks b
      rw [hb] at hblk
      have hlt : blk.counts.useCount.toNat < 2 ^ 31 := by
        rw [hblk.1]
        exact few b
      simp [hb, Counts.getUseCount_eq hlt]

omit [DecidableEq V] in
theorem report_eq (ok : s.Ok hand) (few : FewOwners s) (m m' : Mode) (r : Result Exn Unit) :
    report m r s = report m' r s := by
  have hobs : Handle.observe m s.heap = Handle.observe m' s.heap := by
    funext o
    simp only [Handle.observe, useCount_eq ok few m m']
  simp only [report, hobs]

/-- A lock that would leave fewer than 2^31 owners. -/
theorem addRefLockNothrow_eq {h : Heap} {own : Owners} (ok : HeapOk own hand h) {b : Nat}
    (few : own .shared b + 1 < 2 ^ 31) (m m' : Mode) : addRefLockNothrow m b h = addRefLockNothrow m' b h := by
  unfold addRefLockNothrow
  cases hb : h.blocks b with
  | none => rfl
  | some blk =>
    have hblk := ok.blocks b
    rw [hb] at hblk
    have hlt : blk.counts.useCount.toNat + 1 < 2 ^ 31 := by rwa [hblk.1]
    simp only [Counts.addRefLockNothrow_eq hlt]

theorem addRefLockNothrow_counting {h : Heap} {own : Owners} (ok : HeapOk own hand h) {b : Nat}
    (hown : own .shared b ≠ 0) (few : own .shared b < 2 ^ 31) :
    ∃ h', addRefLockNothrow counting b h = (.ok true, h') := by
  obtain ⟨blk, hb⟩ := ok.exists_block hown
  have hblk := ok.blocks b
  rw [hb] at hblk
  have h0 : blk.counts.useCount ≠ 0 := by rwa [Ne, eq_zero_iff, hblk.1]
  have h1 : blk.counts.useCount ≠ -1 := by
    intro he
    have h2 := hblk.1
    rw [he, toNat_neg_one] at h2
    omega
  have hl : blk.counts.addRefLockNothrow counting =
      some (true, { blk.counts with useCount := blk.counts.useCount + 1 }) := by
    simp only [Counts.addRefLockNothrow, counting, if_neg h0, Counts.addRefCopy_eq_some.mpr ⟨h1, rfl⟩,
      Option.bind_eq_bind, Option.bind_some]
  refine ⟨h.setCounts b blk { blk.counts with useCount := blk.counts.useCount + 1 }, ?_⟩
  simp only [addRefLockNothrow, hb, hl]

/-- Both stop, or they do the same. -/
def Alike (r r' : Result Exn Unit × Mem V) : Prop := r.1 = .stop ∧ r'.1 = .stop ∨ r = r'

/-- The object a lock makes: `g` is what follows `_M_add_ref_lock_nothrow` on
`b`, with `f` where that returned false. -/
theorem lock_alike {b : Nat} {x : V} {f : Mode → Mem V → Result Exn Unit × Mem V} {p : Mode → Heap → Ptr}
    {g : Mode → Result Exn Unit × Mem V} (ok : s.Ok hand) (few : FewOwners s)
    (hg : ∀ m, g m =
      match addRefLockNothrow m b s.heap with
      | (.ok true, h') => create (.inl x) ⟨.shared, p m h', some b⟩ { s with heap := h' }
      | (.ok false, h') => f m { s with heap := h' }
      | (.throw e, h') => (.throw e, { s with heap := h' })
      | (.stop, h') => (.stop, { s with heap := h' }))
    (hf : s.owners .shared b = 0 → f m = f counting)
    (hp : ∀ h', HeapOk (s.owners.add .shared (some b)) hand h' → s.owners .shared b + 1 < 2 ^ 31 →
      p m h' = p counting h')
    (hpost : ∀ s', g counting = (.ok (), s') → FewOwners s') : Alike (g m) (g counting) := by
  by_cases hown : s.owners .shared b = 0
  · have heq := addRefLockNothrow_eq ok (b := b) (by omega) m counting
    right
    rw [hg, hg, heq, hf hown]
    obtain he | ⟨-, he⟩ | ⟨h', hne, -⟩ := ledger_heapOk.addRefLockNothrow (m := counting) (b := b) ok
    · rw [he]
    · rw [he]
    · exact absurd hown hne
  have hstop : ∀ m', s.obj (.inl x) ≠ none → (g m').1 = .stop := by
    intro m' hx
    rw [hg]
    obtain he | ⟨h0, -⟩ | ⟨h', -, he, -⟩ := ledger_heapOk.addRefLockNothrow (m := m') (b := b) ok
    · rw [he]
    · exact absurd h0 hown
    · rw [he]
      obtain hc | ⟨hx', -⟩ := create_cases (.inl x) ⟨.shared, p m' h', some b⟩ { s with heap := h' }
      · exact congrArg Prod.fst hc
      · exact absurd hx' hx
  by_cases hx : s.obj (.inl x) = none
  · -- The lock succeeds in the counting mode, and makes an object: so there is room for one.
    obtain ⟨h', he⟩ := addRefLockNothrow_counting ok hown (few b)
    have hcreate : ∀ o : Handle, create (.inl x) o { s with heap := h' } =
        (.ok (), Mem.set { s with heap := h' } (.inl x) (some o)) := fun o => by simp only [create, hx]
    have hroom : s.owners .shared b + 1 < 2 ^ 31 := by
      have h1 := hpost _ (by rw [hg, he]; exact hcreate _) b
      rw [Mem.owners_create (s := { s with heap := h' }) hx] at h1
      have h2 : s.owners .shared b + (if Kind.shared = .shared ∧ some b = some b then 1 else 0) < 2 ^ 31 := h1
      simpa using h2
    right
    rw [hg, hg, addRefLockNothrow_eq ok hroom m counting]
    obtain he' | ⟨h0, -⟩ | ⟨h'', -, he', ok'⟩ := ledger_heapOk.addRefLockNothrow (m := counting) (b := b) ok
    · rw [he']
    · exact absurd h0 hown
    · rw [he']
      simp only [hp h'' ok' hroom]
  · exact .inl ⟨hstop m hx, hstop counting hx⟩

theorem lockCtor_alike {x r : V} (ok : s.Ok hand) (few : FewOwners s)
    (hpost : ∀ s', lockCtor counting (.inl x) (.inl r) s = (.ok (), s') → FewOwners s') :
    Alike (lockCtor m (.inl x) (.inl r) s) (lockCtor counting (.inl x) (.inl r) s) := by
  rcases get_cases .weak (.inl r) s with he | ⟨h, -, -, he⟩
  · exact .inl (by simp [lockCtor, Prog.bind_apply, he])
  cases hb : h.pi with
  | none =>
    right
    simp [lockCtor, Prog.bind_apply, he, hb, countOfWeakNothrow, onHeap, useCount]
  | some b =>
    refine lock_alike (b := b) (x := x) (g := fun m => lockCtor m (.inl x) (.inl r) s)
      (p := fun m h' => if useCount m (some b) h' ≠ 0 then h.ptr else none)
      (f := fun _ => create (.inl x) ⟨.shared, none, none⟩) ok few (fun m => ?_) (fun _ => rfl)
      (fun h' ok' hroom => ?_) hpost
    · simp only [lockCtor, Prog.bind_apply, he, hb, countOfWeakNothrow, onHeap, Prog.read_apply]
      cases hl : addRefLockNothrow m b s.heap with
      | mk res h' =>
        cases res with
        | ok locked =>
          cases locked with
          | true => rfl
          | false => simp [useCount]
        | throw e => rfl
        | stop => rfl
    · have hu : useCount m (some b) h' = useCount counting (some b) h' := by
        unfold useCount
        cases hblk : h'.blocks b with
        | none => simp [hblk]
        | some blk =>
          have hok := ok'.blocks b
          rw [hblk] at hok
          have hlt : blk.counts.useCount.toNat < 2 ^ 31 := by
            rw [hok.1]
            simpa [Owners.add] using hroom
          simp [hblk, Counts.getUseCount_eq hlt]
      simp only [hu]

theorem weakCtor_alike {x r : V} (ok : s.Ok hand) (few : FewOwners s)
    (hm : m = .constEval → ∀ h, s.obj (.inl r) = some h → useCount counting h.pi s.heap ≠ 0)
    (hpost : ∀ s', weakCtor counting (.inl x) (.inl r) s = (.ok (), s') → FewOwners s') :
    Alike (weakCtor m (.inl x) (.inl r) s) (weakCtor counting (.inl x) (.inl r) s) := by
  rcases get_cases .weak (.inl r) s with he | ⟨h, hr, -, he⟩
  · exact .inl (by simp [weakCtor, Prog.bind_apply, he])
  cases hb : h.pi with
  | none =>
    have hne : m ≠ .constEval := fun hc => hm hc h hr (by rw [hb]; rfl)
    right
    simp [weakCtor, Prog.bind_apply, he, hb, countOfWeak, onHeap, throwBadWeakPtr_of_ne hne, throwBadWeakPtr_of_ne counting_ne]
  | some b =>
    refine lock_alike (b := b) (x := x) (g := fun m => weakCtor m (.inl x) (.inl r) s) (p := fun _ _ => h.ptr)
      (f := fun m => onHeap (throwBadWeakPtr m) >>= fun pi => create (.inl x) ⟨.shared, h.ptr, pi⟩) ok few (fun m => ?_)
      (fun hown => ?_) (fun _ _ _ => rfl) hpost
    · simp only [weakCtor, Prog.bind_apply, he, hb, countOfWeak, onHeap]
      cases hl : addRefLockNothrow m b s.heap with
      | mk res h' =>
        cases res with
        | ok locked => cases locked <;> rfl
        | throw e => rfl
        | stop => rfl
    · have hne : m ≠ .constEval := fun hc => hm hc h hr (by rw [hb]; exact (useCount_eq_zero ok.blocksOk).mpr hown)
      rw [throwBadWeakPtr_of_ne hne, throwBadWeakPtr_of_ne counting_ne]

/-- An operation after which there are few owners, and which `m` can run. -/
theorem exec_alike {op : Op V} (ok : s.Ok hand) (few : FewOwners s) (hm : m = .constEval → op.isConstexpr s = true)
    (hpost : ∀ s', step E counting s op = some s' → FewOwners s') :
    Alike (exec E m op s) (exec E counting op s) := by
  have hstep : ∀ s', exec E counting op s = (.ok (), s') → FewOwners s' := fun s' he =>
    hpost s' (by simp only [step, he])
  cases hop : op.locks with
  | false => exact .inr (congrFun (exec_eq hop hm) s)
  | true =>
    cases op with
    | convert x r =>
      refine weakCtor_alike ok few (fun hc h hr => ?_) hstep
      simpa [Op.isConstexpr, hr] using hm hc
    | lock x r => exact lockCtor_alike ok few hstep
    | _ => cases hop

/-- Constant evaluation ends at an operation that it cannot run. -/
theorem exec_constEval_stop {op : Op V} (ok : s.Ok hand) (hop : op.isConstexpr s = false) :
    (exec E .constEval op s).1 = .stop := by
  cases op with
  | moveAssign k =>
    cases k with
    | shared => cases hop
    | weak => rfl
  | convert x r =>
    rcases get_cases .weak (.inl r) s with he | ⟨h, hr, -, he⟩
    · simp [exec, weakCtor, Prog.bind_apply, he]
    have hzero : useCount counting h.pi s.heap = 0 := by simpa [Op.isConstexpr, hr] using hop
    cases hb : h.pi with
    | none => simp [exec, weakCtor, Prog.bind_apply, he, hb, countOfWeak, onHeap, throwBadWeakPtr]
    | some b =>
      rw [hb, useCount_eq_zero ok.blocksOk] at hzero
      obtain hl | ⟨-, hl⟩ | ⟨h', hown, -⟩ := ledger_heapOk.addRefLockNothrow (m := .constEval) (b := b) ok
      · simp [exec, weakCtor, Prog.bind_apply, he, hb, countOfWeak, onHeap, hl]
      · simp [exec, weakCtor, Prog.bind_apply, he, hb, countOfWeak, onHeap, hl, throwBadWeakPtr]
      · exact absurd hzero hown
  | _ => cases hop

end

/-! ## Whole programs -/

/-- Constant evaluation can run the operations of the program, as far as it goes. -/
def Evaluable (E : Env) (s : Mem V) (ops : List (Op V)) : Prop :=
  Along (step E counting) (fun u op => (step E counting u op).isSome → op.isConstexpr u = true) s ops

instance (E : Env) (s : Mem V) (ops : List (Op V)) : Decidable (Evaluable E s ops) :=
  inferInstanceAs (Decidable (Along ..))

theorem trace_cons (op : Op V) (ops : List (Op V)) (s : Mem V) :
    trace E m (op :: ops) s =
      (step E m s op).elim [] fun s' => report m (exec E m op s).1 s' :: trace E m ops s' := by
  simp only [trace, step]
  cases exec E m op s with
  | mk r s' => cases r <;> rfl

theorem Alike.step_eq {op : Op V} {s : Mem V} (h : Alike (exec E m op s) (exec E m' op s)) :
    step E m s op = step E m' s op := by
  rcases h with ⟨h, h'⟩ | h
  · generalize hr : exec E m op s = r at h
    generalize hr' : exec E m' op s = r' at h'
    obtain ⟨r, u⟩ := r
    obtain ⟨r', u'⟩ := r'
    obtain rfl : r = .stop := h
    obtain rfl : r' = .stop := h'
    simp only [step, hr, hr']
  · simp only [step, h]

omit [DecidableEq V] in
theorem Alike.result_eq {r r' : Result Exn Unit × Mem V} (h : Alike r r') : r.1 = r'.1 := by
  rcases h with ⟨h, h'⟩ | h
  · rw [h, h']
  · rw [h]

theorem step_eq_none {op : Op V} {s : Mem V} (h : (exec E m op s).1 = .stop) : step E m s op = none := by
  unfold step
  split
  · rfl
  next r u hr he =>
    rw [he] at h
    exact absurd h hr

section

variable [Fintype V] {s : Mem V} {hand : Resource → Nat}

/-- The same where `m` need not run an operation that ends in no other mode. -/
theorem exec_alike_of_isSome {op : Op V} (ok : s.Ok hand) (few : FewOwners s)
    (hm : m = .constEval → (step E counting s op).isSome → op.isConstexpr s = true)
    (hpost : ∀ s', step E counting s op = some s' → FewOwners s') :
    Alike (exec E m op s) (exec E counting op s) := by
  cases hop : op.isConstexpr s with
  | true => exact exec_alike ok few (fun _ => hop) hpost
  | false =>
    by_cases hc : m = .constEval
    · -- constant evaluation ends here, and so does the run
      have hnone : step E counting s op = none := by
        by_contra hne
        rw [hm hc (Option.isSome_iff_ne_none.mpr hne)] at hop
        cases hop
      subst hc
      refine .inl ⟨exec_constEval_stop ok hop, ?_⟩
      unfold step at hnone
      split at hnone
      next he => rw [he]
      next => cases hnone
    · exact exec_alike ok few (fun h => absurd h hc) hpost

/-- A mode that can run the program. -/
theorem trace_eq {ops : List (Op V)} (ok : s.Ok hand)
    (few : ∀ u, Visits (step E counting) s ops u → FewOwners u) (hm : m = .constEval → Evaluable E s ops) :
    trace E m ops s = trace E counting ops s := by
  induction ops generalizing s with
  | nil => rfl
  | cons op ops ih =>
    have hpost : ∀ s', step E counting s op = some s' → FewOwners s' := fun s' hs =>
      few s' (Visits.cons hs Visits.start)
    have halike := exec_alike_of_isSome (m := m) ok (few s Visits.start) (fun hc => (hm hc).1) hpost
    rw [trace_cons, trace_cons, halike.step_eq, halike.result_eq]
    cases hs : step E counting s op with
    | none => rfl
    | some s' =>
      have ok' := step_ok ok hs
      simp only [Option.elim, report_eq ok' (hpost s' hs) m counting,
        ih ok' (fun u hu => few u (Visits.cons hs hu)) fun hc => (hm hc).2 s' hs]

/-- Constant evaluation does not get past an operation that it cannot run. -/
theorem evaluable_of_trace_eq {ops : List (Op V)} (ok : s.Ok hand)
    (few : ∀ u, Visits (step E counting) s ops u → FewOwners u)
    (h : trace E .constEval ops s = trace E counting ops s) : Evaluable E s ops := by
  induction ops generalizing s with
  | nil => trivial
  | cons op ops ih =>
    rw [trace_cons, trace_cons] at h
    cases hs : step E counting s op with
    | none => exact ⟨by simp [hs], by simp [hs]⟩
    | some s₁ =>
      cases hop : op.isConstexpr s with
      | false =>
        rw [step_eq_none (exec_constEval_stop ok hop), hs] at h
        cases h
      | true =>
        have hpost : ∀ s', step E counting s op = some s' → FewOwners s' := fun s' hs =>
          few s' (Visits.cons hs Visits.start)
        have halike := exec_alike (m := .constEval) ok (few s Visits.start) (fun _ => hop) hpost
        rw [halike.step_eq, hs] at h
        refine ⟨fun _ => hop, fun s' hs' => ?_⟩
        obtain rfl : s₁ = s' := Option.some.inj (hs.symm.trans hs')
        exact ih (step_ok ok hs) (fun u hu => few u (Visits.cons hs hu)) (List.cons.inj h).2

end

/-- **Which modes run a program alike**, when in no state that the program goes
through a block has 2^31 owners: those of run time always do, and constant
evaluation does if and only if it can run the program. -/
theorem modes_agree_iff [Fintype V] (E : Env) (m m' : Mode) (ops : List (Op V))
    (few : ∀ s, Visits (step E counting) Mem.empty ops s → FewOwners s) :
    trace E m ops Mem.empty = trace E m' ops Mem.empty ↔
      (m = .constEval ↔ m' = .constEval) ∨ Evaluable E Mem.empty ops := by
  have hconst : trace E .constEval ops Mem.empty = trace E counting ops Mem.empty ↔ Evaluable E Mem.empty ops :=
    ⟨evaluable_of_trace_eq Mem.Ok.empty few, fun h => trace_eq Mem.Ok.empty few fun _ => h⟩
  have hrun : ∀ {m : Mode}, m ≠ .constEval → trace E m ops Mem.empty = trace E counting ops Mem.empty := fun hm =>
    trace_eq Mem.Ok.empty few fun hc => absurd hc hm
  by_cases hm : m = .constEval <;> by_cases hm' : m' = .constEval
  · simp [hm, hm']
  · rw [hrun hm', hm, hconst]
    simp [hm']
  · rw [hrun hm, hm', eq_comm, hconst]
    simp [hm]
  · simp [hrun hm, hrun hm', hm, hm']

/-- An allocator that always has storage, and elements that can always be constructed. -/
def Env.generous : Env := ⟨fun n => .ok (some n), fun _ _ => .ok 0⟩

/-- A shared pointer, a weak one and a lock; the owners go, the lock fails, and
the last weak pointer goes. -/
def lockAfterExpiry : List (Op (Fin 3)) :=
  [.own 0 (some 7) 1, .weaken 1 0, .lock 2 1, .destroy 0, .destroy 2, .lock 0 1, .destroy 1]

theorem modes_agree_lockAfterExpiry :
    (trace Env.generous .constEval lockAfterExpiry Mem.empty).map (fun r => (r.result, r.objects 2, r.calls)) =
        [(.ok (), none, []), (.ok (), none, []), (.ok (), some (.shared (some 7) 2), []),
          (.ok (), some (.shared (some 7) 1), []), (.ok (), none, [.dispose 0]),
          (.ok (), none, [.dispose 0]), (.ok (), none, [.dispose 0, .destroy 0])] ∧
      trace Env.generous .constEval lockAfterExpiry Mem.empty =
        trace Env.generous (.runTime (.atomic true) false 2) lockAfterExpiry Mem.empty :=
  ⟨by decide +kernel, (modes_agree_iff _ _ _ _ fun s _ b =>
    Nat.lt_of_le_of_lt (s.owners_le .shared b) (by decide)).mpr (.inr (by decide +kernel))⟩

/-- A weak pointer is moved to another one; and one that has expired is converted. -/
def weakMoved : List (Op (Fin 3)) := [.own 0 (some 7) 1, .weaken 1 0, .default .weak 2, .moveAssign .weak 2 1]

def expiredConverted : List (Op (Fin 3)) := [.own 0 (some 7) 1, .weaken 1 0, .destroy 0, .convert 2 1]

theorem modes_disagree : [weakMoved, expiredConverted].Forall fun ops =>
    (∀ s, Visits (step Env.generous counting) Mem.empty ops s → FewOwners s) ∧
      trace Env.generous .constEval ops Mem.empty ≠ trace Env.generous .defaultPolicy ops Mem.empty := by
  refine List.forall_iff_forall_mem.mpr fun ops hops => ?_
  refine ⟨fun s _ b => Nat.lt_of_le_of_lt (s.owners_le .shared b) (by decide), fun h => ?_⟩
  have hlength := congrArg List.length h
  clear h
  revert ops
  decide +kernel

end SharedPtr.Seq
