/-
The two functions that compare and exchange shared pointers
(`bits/shared_ptr_atomic.h`): the member `compare_exchange_strong` of
`_Sp_atomic`, which compares the words, counts by itself and swaps or sinks,
and the free function `atomic_compare_exchange_strong_explicit`, which asks
`operator==` and `owner_less` and assigns.

The object is a shared pointer for the one and an atomic pointer with the same
members for the other; all else is the same, and no other thread runs.
-/
import SharedPtr.OutPtr
import SharedPtr.OwnerOrder
import SharedPtr.AtomicConst

namespace SharedPtr.Seq

open Lib (Prog Result)

set_option linter.unusedSectionVars false

variable {V A : Type} [DecidableEq V] [DecidableEq A]

/-! ## The calls -/

section

variable (m : Mode)

/-- A call whose parameter the caller has made, and destroys. -/
def called {α : Type} (body : Prog (World V A) Exn α) : Prog (World V A) Exn α :=
  Prog.atExit body fun w => { w with mem := destroyObject m (.inr .param) w.mem }

/-- `atomic_compare_exchange_strong_explicit(&p, &e, desired)`. -/
def freeExchange (p e : V) : Prog (World V A) Exn Bool :=
  called m (atomicCompareExchangeStrong m (.inl p) (.inl e) (.inr .param))

/-- `a.compare_exchange_strong(e, desired)`. -/
def memberExchange (a : A) (e : V) : Prog (World V A) Exn Bool :=
  called m (SpAtomic.compareExchangeStrong m .shared a (.inl e) (.inr .param))

end

/-- An atomic pointer with the members of `h`. -/
def SpAtomic.holding (h : Handle) : SpAtomic := ⟨h.kind, h.ptr, .ofPtr h.pi⟩

/-- The object is atomic, `a`, and not the shared pointer `p`. -/
def World.atomically (p : V) (a : A) (h : Handle) (w : World V A) : World V A :=
  ⟨w.mem.set (.inl p) none, Function.update w.atomics a (some (.holding h))⟩

/-- The object `p`, what it is compared with, and the parameter. -/
structure Exchange (s : Mem V) (p e : V) (h he hd : Handle) : Prop where
  object : s.obj (.inl p) = some h
  expected : s.obj (.inl e) = some he
  desired : s.obj (.inr .param) = some hd
  object_kind : h.kind = .shared
  expected_kind : he.kind = .shared
  desired_kind : hd.kind = .shared
  ne : e ≠ p
  tmp : s.obj (.inr .tmp) = none
  x : s.obj (.inr .x) = none
  sink : s.obj (.inr .sink) = none

/-- What the object and the expected pointer are after an exchange that returns `ok`. -/
def exchanged (ok : Bool) (h he hd : Handle) : Handle × Handle := if ok then (hd, he) else (h, h)

/-- Both have returned `ok`, and left `u` and `u'`: the object is `p` or `a`. -/
structure BothExchanged (ok : Bool) (p e : V) (a : A) (w : World V A) (h he hd : Handle) (u u' : World V A) : Prop where
  answer : ok = true ↔ h.ptr = he.ptr ∧ h.pi = he.pi
  object : u.mem.obj (.inl p) = some (exchanged ok h he hd).1
  object' : u'.atomics a = some (.holding (exchanged ok h he hd).1)
  expected : u.mem.obj (.inl e) = some (exchanged ok h he hd).2
  param : u.mem.obj (.inr .param) = none
  /-- The expected pointer, and all others but the object, are the same for both. -/
  same : ∀ y, y ≠ .inl p → u'.mem.obj y = u.mem.obj y
  others : ∀ y, y ≠ .inl p → y ≠ .inl e → y ≠ .inr .param → u.mem.obj y = w.mem.obj y
  atomics : u.atomics = w.atomics ∧ ∀ a', a' ≠ a → u'.atomics a' = w.atomics a'
  /-- The counts of each block, and what is disposed of, in what order. -/
  heap : u'.mem.heap = u.mem.heap

/-- The two end alike; an owner more than there can be, of the object's block, ends neither. -/
def ExchangeAlike (m : Mode) (p e : V) (a : A) (h he hd : Handle) (w : World V A) : Prop :=
  (∃ ok u u', freeExchange m p e w = (.ok ok, u) ∧ memberExchange m a e (w.atomically p a h) = (.ok ok, u') ∧
      BothExchanged ok p e a w h he hd u u') ∨
    (freeExchange m p e w).1 = .stop ∧ (memberExchange m a e (w.atomically p a h)).1 = .stop ∧
      ¬ (h.ptr = he.ptr ∧ h.pi = he.pi) ∧ ¬ CanCount w.mem.heap h.pi

/-! ## Assignments and the lock -/

section

variable {m : Mode} {s : Mem V} {x r : Ref V} {h : Handle}

theorem Mem.set_apply (s : Mem V) (x y : Ref V) (o : Option Handle) :
    (s.set x o).obj y = if y = x then o else s.obj y := Function.update_apply ..

theorem moveCtor_apply (hx : s.obj x = none) (hr : s.obj r = some h) (hk : h.kind = .shared) :
    moveCtor .shared x r s = (.ok (), (s.set x (some h)).set r (some ⟨.shared, none, none⟩)) := by
  simp only [moveCtor, Prog.bind_apply, get_apply hr hk, create_apply hx, put, Prog.modify_apply]

/-- A move to a pointer that is empty. -/
theorem moveAssign_apply (hx : s.obj x = some ⟨.shared, none, none⟩) (hr : s.obj r = some h) (hk : h.kind = .shared)
    (hne : x ≠ r) (hfree : s.obj (.inr .tmp) = none) :
    moveAssign m .shared x r s = (.ok (), (s.set r (some ⟨.shared, none, none⟩)).set x (some h)) := by
  have hrt : r ≠ .inr .tmp := by
    intro he
    rw [he, hfree] at hr
    cases hr
  have hmake : moveCtor .shared (.inr .tmp) r s =
      (.ok (), (s.set r (some ⟨.shared, none, none⟩)).set (.inr .tmp) (some h)) := by
    rw [moveCtor_apply hfree hr hk]
    rw [Mem.set_comm _ hrt]
  rw [moveAssign_shared]
  exact swapTemporary_apply (fun tmp => moveCtor .shared tmp r) hmake hk
    ((Mem.set_obj_of_ne _ hne _).trans hx) rfl ((Mem.set_obj_of_ne _ (Ne.symm hrt) _).trans hfree)

/-- A local and the parameter go out of scope. -/
theorem destroyObjects_apply {t : Handle} (hx : s.obj x = some h) (hkx : h.kind = .shared)
    (hp : s.obj (.inr .param) = some t) (hkp : t.kind = .shared) (hne : .inr .param ≠ x) :
    destroyObject m (.inr .param) (destroyObject m x s) =
      ⟨dropCount m .shared t.pi (dropCount m .shared h.pi s.heap), ((s.set x none).set (.inr .param) none).obj⟩ := by
  simp only [destroyObject, hx, hkx, Mem.set_apply, if_neg hne, hp, hkp]
  rfl

theorem assignCount_none (pi : CountPtr) (heap : Heap) :
    assignCount m .shared none pi heap = copyCount m .shared pi heap := by
  cases pi with
  | none => rfl
  | some b =>
    simp only [assignCount, ne_eq, reduceCtorEq, not_false_eq_true, if_true, replaceCount, Prog.bind_apply]
    split <;> simp_all [dropCount]

/-- A copy to a pointer that is empty. -/
theorem copyAssign_empty (hx : s.obj x = some ⟨.shared, none, none⟩) (hr : s.obj r = some h) (hk : h.kind = .shared)
    (hne : x ≠ r) :
    copyAssign m .shared x .shared r s =
      match copyCount m .shared h.pi s.heap with
      | (.ok pi, heap) => (.ok (), { s with heap := heap }.set x (some ⟨.shared, h.ptr, pi⟩))
      | (.throw e, heap) => (.throw e, { s with heap := heap }.set x (some ⟨.shared, h.ptr, none⟩))
      | (.stop, heap) => (.stop, { s with heap := heap }.set x (some ⟨.shared, h.ptr, none⟩)) := by
  have hr' : (s.set x (some ⟨.shared, h.ptr, none⟩)).obj r = some h := (Mem.set_obj_of_ne _ (Ne.symm hne) _).trans hr
  simp only [copyAssign, Prog.bind_apply, get_apply hr hk, get_apply hx rfl, put, Prog.modify_apply, get_apply hr' hk,
    onHeap, Mem.set_heap, assignCount_none]
  cases copyCount m .shared h.pi s.heap with
  | mk res heap => cases res <;> simp [Mem.set]

end

section

variable {m : Mode} {k : Kind} {a : A} {o : SpAtomic} {w : World V A}

/-- A locked object: only at run time is that seen. -/
def SpAtomic.heldIn (m : Mode) (o : SpAtomic) : SpAtomic :=
  match m with
  | .constEval => o
  | .runTime .. => o.locked

theorem getAtomic_apply (ho : w.atomics a = some o) (hk : o.kind = k) : getAtomic k a w = (.ok o, w) := by
  simp only [getAtomic, ho, hk, if_true]

theorem lock_apply (ho : w.atomics a = some o) (hk : o.kind = k) (hb : o.val.bit = false) :
    lock m k a w = (.ok o.val.pi, (w.setAtomic a (some (o.heldIn m))).emit [.lock]) := by
  cases m with
  | constEval =>
    have hset : w.setAtomic a (some o) = w := by rw [World.setAtomic, ← ho, Function.update_eq_self]
    simp only [lock, Prog.bind_apply, getAtomic_apply ho hk, Tagged.toPtr, hb, Bool.false_eq_true, if_false,
      Prog.ofOption_some, Prog.modify_apply, Prog.pure_apply, SpAtomic.heldIn, hset]
  | runTime =>
    rw [lock_runTime, getAtomic_apply ho hk]
    simp only [hb, Bool.false_eq_true, if_false, SpAtomic.heldIn]

theorem unlock_apply (ho : w.atomics a = some (o.heldIn m)) (hk : o.kind = k) (hb : o.val.bit = false) :
    unlock m k a w = (.ok (), (w.setAtomic a (some o)).emit [.unlock]) := by
  cases m with
  | constEval =>
    have hset : w.setAtomic a (some o) = w := by
      rw [World.setAtomic, ← show w.atomics a = some o from ho, Function.update_eq_self]
    rw [hset]
    rfl
  | runTime =>
    obtain ⟨kind, ptr, pi, bit⟩ := o
    obtain rfl : bit = false := hb
    simp only [unlock, Prog.bind_apply, getAtomic_apply ho hk, Tagged.compareExchangeStrong, if_true, putAtomic,
      Prog.modify_apply]
    rfl

theorem swapUnlock_apply (ho : w.atomics a = some (o.heldIn m)) (hk : o.kind = k) (hb : o.val.bit = false)
    (pi : CountPtr) :
    swapUnlock m k a pi w = (.ok o.val.pi, (w.setAtomic a (some { o with val := .ofPtr pi })).emit [.unlock]) := by
  cases m with
  | constEval =>
    have ho' : w.atomics a = some o := ho
    simp only [swapUnlock, Prog.bind_apply, getAtomic_apply ho' hk, putAtomic, Prog.modify_apply, Tagged.toPtr, hb,
      Bool.false_eq_true, if_false, Prog.ofOption_some]
  | runTime =>
    have ho' : w.atomics a = some o.locked := ho
    simp only [swapUnlock, Prog.bind_apply, getAtomic_apply ho' hk, putAtomic, Prog.modify_apply]
    rfl

end

/-! ## The free function -/

section

variable {m : Mode} {s : Mem V} {p e : V} {h he hd : Handle}

theorem equivalent_apply (hp : s.obj (.inl p) = some h) (hk : h.kind = .shared) (hv : s.obj (.inl e) = some he)
    (hkv : he.kind = .shared) :
    equivalent (.inl p) (.inl e) s =
      (.ok (decide (h.ptr = he.ptr ∧ s.heap.address h.pi = s.heap.address he.pi)), s) := by
  simp only [equivalent, Prog.bind_apply, get_apply hp hk, get_apply hv hkv, Prog.read_apply, less]
  rw [Prod.mk.injEq, Result.ok.injEq, Bool.eq_iff_iff]
  simp only [Bool.and_eq_true, beq_iff_eq, Bool.not_eq_true', decide_eq_false_iff_not, decide_eq_true_eq, and_true]
  rw [and_assoc, and_congr_right_iff]
  intro _
  omega

/-- What the body of the free function finds: `__x` is empty, and the lock is taken. -/
def bodyEntry (s : Mem V) : Mem V :=
  { s with heap := s.heap.emit [.lock] }.set (.inr .x) (some ⟨.shared, none, none⟩)

theorem Exchange.asks (X : Exchange s p e h he hd) :
    equivalent (.inl p) (.inl e) (bodyEntry s) =
      (.ok (decide (h.ptr = he.ptr ∧ s.heap.address h.pi = s.heap.address he.pi)), bodyEntry s) :=
  equivalent_apply (by simp [bodyEntry, Mem.set_apply, X.object]) X.object_kind
    (by simp [bodyEntry, Mem.set_apply, X.expected]) X.expected_kind

/-- Around the body of the free function: the local `__x`, the lock and the parameter. -/
theorem called_locker {body : Prog (Mem V) Exn Bool} (ok : Bool) {u : Mem V} {hx hp : Handle}
    (hfree : s.obj (.inr .x) = none)
    (hbody : body (bodyEntry s) = (.ok ok, u))
    (hox : u.obj (.inr .x) = some hx) (hkx : hx.kind = .shared) (hop : u.obj (.inr .param) = some hp)
    (hkp : hp.kind = .shared) (atomics : A → Option SpAtomic) :
    called m (do
        onMem (defaultCtor .shared (.inr .x))
        Prog.atExit (locker body) fun w => { w with mem := destroyObject m (.inr .x) w.mem }) ⟨s, atomics⟩ =
      (.ok ok, ⟨⟨dropCount m .shared hp.pi (dropCount m .shared hx.pi (u.heap.emit [.unlock])),
        ((u.set (.inr .x) none).set (.inr .param) none).obj⟩, atomics⟩) := by
  have hinit : defaultCtor .shared (.inr .x) s = (.ok (), s.set (.inr .x) (some ⟨.shared, none, none⟩)) :=
    create_apply hfree _
  have hlock : (World.emit [.lock] ⟨s.set (.inr .x) (some ⟨.shared, none, none⟩), atomics⟩ : World V A).mem =
      bodyEntry s := rfl
  simp only [called, Prog.atExit, Prog.bind_apply, onMem, hinit, locker, Prog.modify_apply, hlock, hbody]
  have hend := destroyObjects_apply (m := m) (s := { u with heap := u.heap.emit [.unlock] }) hox hkx hop hkp (by simp)
  simp only [World.emit, hend]
  rfl

theorem called_locker_stop {body : Prog (Mem V) Exn Bool} (hfree : s.obj (.inr .x) = none)
    (hbody : (body (bodyEntry s)).1 = .stop) (atomics : A → Option SpAtomic) :
    (called m (do
        onMem (defaultCtor .shared (.inr .x))
        Prog.atExit (locker body) fun w => { w with mem := destroyObject m (.inr .x) w.mem }) ⟨s, atomics⟩).1 =
      .stop := by
  have hinit : defaultCtor .shared (.inr .x) s = (.ok (), s.set (.inr .x) (some ⟨.shared, none, none⟩)) :=
    create_apply hfree _
  have hlock : (World.emit [.lock] ⟨s.set (.inr .x) (some ⟨.shared, none, none⟩), atomics⟩ : World V A).mem =
      bodyEntry s := rfl
  simp only [called, Prog.atExit, Prog.bind_apply, onMem, hinit, locker, Prog.modify_apply, hlock]
  generalize body (bodyEntry s) = r at hbody
  obtain ⟨res, u⟩ := r
  obtain rfl : res = .stop := hbody
  rfl

theorem freeExchange_equal (X : Exchange s p e h he hd) (hptr : h.ptr = he.ptr)
    (haddr : s.heap.address h.pi = s.heap.address he.pi) (atomics : A → Option SpAtomic) :
    freeExchange m p e ⟨s, atomics⟩ =
      (.ok true, ⟨⟨dropCount m .shared h.pi ((s.heap.emit [.lock]).emit [.unlock]),
        ((s.set (.inl p) (some hd)).set (.inr .param) none).obj⟩, atomics⟩) := by
  have hasks := X.asks
  rw [decide_eq_true ⟨hptr, haddr⟩] at hasks
  -- `__x = std::move(*__p)`
  have hold := moveAssign_apply (m := m) (s := bodyEntry s) (x := .inr .x) (r := .inl p) (by simp [bodyEntry])
    (by simp [bodyEntry, Mem.set_apply, X.object]) X.object_kind nofun (by simp [bodyEntry, Mem.set_apply, X.tmp])
  set s₂ : Mem V := ((bodyEntry s).set (.inl p) (some ⟨.shared, none, none⟩)).set (.inr .x) (some h) with hs₂
  -- `*__p = std::move(__w)`
  have hnew := moveAssign_apply (m := m) (s := s₂) (x := .inl p) (r := .inr .param) (by simp [hs₂, Mem.set_apply])
    (by simp [hs₂, bodyEntry, Mem.set_apply, X.desired]) X.desired_kind nofun
    (by simp [hs₂, bodyEntry, Mem.set_apply, X.tmp])
  set s₃ : Mem V := (s₂.set (.inr .param) (some ⟨.shared, none, none⟩)).set (.inl p) (some hd) with hs₃
  have hx₃ : s₃.obj (.inr .x) = some h := by simp [hs₃, hs₂, Mem.set_apply]
  have hd₃ : s₃.obj (.inr .param) = some ⟨.shared, none, none⟩ := by simp [hs₃, Mem.set_apply]
  refine (called_locker true X.x ?_ hx₃ X.object_kind hd₃ rfl atomics).trans ?_
  · simp only [Prog.bind_apply, hasks, if_true, hold, hnew, Prog.pure_apply]
  · have hobj : ((s₃.set (.inr .x) none).set (.inr .param) none).obj =
        ((s.set (.inl p) (some hd)).set (.inr .param) none).obj := by
      funext y
      by_cases hy : y = .inr .x
      · simp [Mem.set_apply, hy, X.x]
      · simp only [hs₃, hs₂, bodyEntry, Mem.set_apply, hy, if_false]
        split_ifs <;> rfl
    rw [hobj]
    rfl

/-- Where the object and what it is compared with differ, up to the copy. -/
theorem freeExchange_unequal (X : Exchange s p e h he hd)
    (hne : ¬ (h.ptr = he.ptr ∧ s.heap.address h.pi = s.heap.address he.pi)) (atomics : A → Option SpAtomic) :
    (∀ heap, copyCount m .shared h.pi (s.heap.emit [.lock]) = (.ok h.pi, heap) →
      freeExchange m p e ⟨s, atomics⟩ =
        (.ok false, ⟨⟨dropCount m .shared hd.pi (dropCount m .shared he.pi (heap.emit [.unlock])),
          ((s.set (.inl e) (some h)).set (.inr .param) none).obj⟩, atomics⟩)) ∧
    ((copyCount m .shared h.pi (s.heap.emit [.lock])).1 = .stop →
      (freeExchange m p e ⟨s, atomics⟩).1 = .stop) := by
  have hasks := X.asks
  rw [decide_eq_false hne] at hasks
  -- `__x = std::move(*__v)`
  have hold := moveAssign_apply (m := m) (s := bodyEntry s) (x := .inr .x) (r := .inl e) (by simp [bodyEntry])
    (by simp [bodyEntry, Mem.set_apply, X.expected]) X.expected_kind nofun (by simp [bodyEntry, Mem.set_apply, X.tmp])
  set s₂ : Mem V := ((bodyEntry s).set (.inl e) (some ⟨.shared, none, none⟩)).set (.inr .x) (some he) with hs₂
  -- `*__v = *__p`
  have hcopy := copyAssign_empty (m := m) (s := s₂) (x := .inl e) (r := .inl p) (by simp [hs₂, Mem.set_apply])
    (by simp [hs₂, bodyEntry, Mem.set_apply, Ne.symm X.ne, X.object]) X.object_kind (by simpa using X.ne)
  have hheap : s₂.heap = s.heap.emit [.lock] := rfl
  rw [hheap] at hcopy
  refine ⟨fun heap hok => ?_, fun hstop => ?_⟩
  · rw [hok] at hcopy
    set s₃ : Mem V := { s₂ with heap := heap }.set (.inl e) (some ⟨.shared, h.ptr, h.pi⟩) with hs₃
    have hx₃ : s₃.obj (.inr .x) = some he := by simp [hs₃, hs₂, Mem.set_apply]
    have hd₃ : s₃.obj (.inr .param) = some hd := by simp [hs₃, hs₂, bodyEntry, Mem.set_apply, X.desired]
    refine (called_locker false X.x ?_ hx₃ X.expected_kind hd₃ X.desired_kind atomics).trans ?_
    · simp only [Prog.bind_apply, hasks, Bool.false_eq_true, if_false, hold, hcopy, Prog.pure_apply]
      rfl
    · have hh : (⟨.shared, h.ptr, h.pi⟩ : Handle) = h := by rw [← X.object_kind]
      have hobj : ((s₃.set (.inr .x) none).set (.inr .param) none).obj =
          ((s.set (.inl e) (some h)).set (.inr .param) none).obj := by
        funext y
        by_cases hy : y = .inr .x
        · simp [Mem.set_apply, hy, X.x]
        · simp only [hs₃, hs₂, bodyEntry, Mem.set_apply, hy, if_false, hh]
          split_ifs <;> rfl
      rw [hobj]
      rfl
  · generalize copyCount m .shared h.pi (s.heap.emit [.lock]) = r at hcopy hstop
    obtain ⟨res, heap⟩ := r
    obtain rfl : res = .stop := hstop
    refine called_locker_stop X.x ?_ atomics
    simp only [Prog.bind_apply, hasks, Bool.false_eq_true, if_false, hold, hcopy]

end

/-! ## The member -/

section

variable {m : Mode} {w : World V A} {a : A} {e : V} {h he hd : Handle}

theorem SpAtomic.heldIn_kind : ((SpAtomic.holding h).heldIn m).kind = h.kind := by cases m <;> rfl

theorem SpAtomic.heldIn_ptr : ((SpAtomic.holding h).heldIn m).ptr = h.ptr := by cases m <;> rfl

theorem SpAtomic.heldIn_setPtr (p : Ptr) :
    { (SpAtomic.holding h).heldIn m with ptr := p } = (SpAtomic.holding { h with ptr := p }).heldIn m := by
  cases m <;> rfl

theorem memberExchange_equal (ha : w.atomics a = some (.holding h)) (hk : h.kind = .shared)
    (hve : w.mem.obj (.inl e) = some he) (hke : he.kind = .shared) (hvd : w.mem.obj (.inr .param) = some hd)
    (hkd : hd.kind = .shared) (heq : h.ptr = he.ptr ∧ h.pi = he.pi) :
    memberExchange m a e w =
      (.ok true, ⟨⟨dropCount m .shared h.pi ((w.mem.heap.emit [.lock]).emit [.unlock]),
        (w.mem.set (.inr .param) none).obj⟩, Function.update w.atomics a (some (.holding hd))⟩) := by
  set w₁ := (w.setAtomic a (some ((SpAtomic.holding h).heldIn m))).emit [.lock] with hw₁
  have hlock : lock m .shared a w = (.ok h.pi, w₁) := lock_apply ha hk rfl
  have hget : getAtomic .shared a w₁ = (.ok ((SpAtomic.holding h).heldIn m), w₁) :=
    getAtomic_apply (Function.update_self ..) (SpAtomic.heldIn_kind.trans hk)
  have hgete : get .shared (.inl e) w₁.mem = (.ok he, w₁.mem) := get_apply hve hke
  have hgetd : get .shared (.inr .param) w₁.mem = (.ok hd, w₁.mem) := get_apply hvd hkd
  set w₂ := w₁.setAtomic a (some ((SpAtomic.holding { h with ptr := hd.ptr }).heldIn m)) with hw₂
  have hswap : swapUnlock m .shared a hd.pi w₂ = (.ok h.pi, (w₂.setAtomic a (some (.holding hd))).emit [.unlock]) := by
    rw [swapUnlock_apply (o := .holding { h with ptr := hd.ptr }) (Function.update_self ..) hk rfl hd.pi]
    simp only [SpAtomic.holding, hk, hkd, Tagged.ofPtr]
  simp only [memberExchange, called, Prog.atExit, SpAtomic.compareExchangeStrong, Prog.bind_apply, hlock, hget,
    onMem, hgete, SpAtomic.heldIn_ptr, if_pos heq, hgetd, putAtomic, Prog.modify_apply, SpAtomic.heldIn_setPtr, ← hw₂,
    hswap, put, Prog.pure_apply]
  simp only [destroyObject, Mem.set_obj, hkd]
  simp only [World.emit, World.setAtomic, hw₂, hw₁, Mem.set, Function.update_idem]

theorem memberExchange_unequal (ha : w.atomics a = some (.holding h)) (hk : h.kind = .shared)
    (hve : w.mem.obj (.inl e) = some he) (hke : he.kind = .shared) (hvd : w.mem.obj (.inr .param) = some hd)
    (hkd : hd.kind = .shared) (hfree : w.mem.obj (.inr .sink) = none) (hne : ¬ (h.ptr = he.ptr ∧ h.pi = he.pi)) :
    (∀ heap, copyCount m .shared h.pi (w.mem.heap.emit [.lock]) = (.ok h.pi, heap) →
      memberExchange m a e w =
        (.ok false, ⟨⟨dropCount m .shared hd.pi (dropCount m .shared he.pi (heap.emit [.unlock])),
          ((w.mem.set (.inl e) (some h)).set (.inr .param) none).obj⟩, w.atomics⟩)) ∧
    ((copyCount m .shared h.pi (w.mem.heap.emit [.lock])).1 = .stop → (memberExchange m a e w).1 = .stop) := by
  set w₁ := (w.setAtomic a (some ((SpAtomic.holding h).heldIn m))).emit [.lock] with hw₁
  have hlock : lock m .shared a w = (.ok h.pi, w₁) := lock_apply ha hk rfl
  have hget : getAtomic .shared a w₁ = (.ok ((SpAtomic.holding h).heldIn m), w₁) :=
    getAtomic_apply (Function.update_self ..) (SpAtomic.heldIn_kind.trans hk)
  have hgete : get .shared (.inl e) w₁.mem = (.ok he, w₁.mem) := get_apply hve hke
  have hsink : moveCtor .shared (.inr .sink) (.inl e) w₁.mem = _ := moveCtor_apply hfree hve hke
  have hheap : w₁.mem.heap = w.mem.heap.emit [.lock] := rfl
  refine ⟨fun heap hok => ?_, fun hstop => ?_⟩
  · set s : Mem V := ⟨heap, ((w.mem.set (.inr .sink) (some he)).set (.inl e) (some h)).obj⟩ with hs
    have hcopied : (Mem.mk heap (((w₁.mem.set (.inr .sink) (some he)).set (.inl e) (some ⟨.shared, none, none⟩)).set
        (.inl e) (some ⟨.shared, h.ptr, none⟩)).obj).set (.inl e) (some ⟨.shared, h.ptr, h.pi⟩) = s := by
      rw [show (⟨.shared, h.ptr, h.pi⟩ : Handle) = h by rw [← hk]]
      simp only [hs, hw₁, World.emit, World.setAtomic, Mem.set, Function.update_idem]
    have hunlock : unlock m .shared a ⟨s, w₁.atomics⟩ =
        (.ok (), (World.setAtomic a (some (.holding h)) ⟨s, w₁.atomics⟩).emit [.unlock]) :=
      unlock_apply (Function.update_self ..) hk rfl
    simp only [memberExchange, called, Prog.atExit, SpAtomic.compareExchangeStrong, Prog.bind_apply, hlock, hget,
      onMem, hgete, SpAtomic.heldIn_ptr, if_neg hne, hsink, put, Prog.modify_apply, onHeap, Mem.set_heap, hheap, hok,
      hcopied, hunlock, Prog.pure_apply]
    have hsunk : s.obj (.inr .sink) = some he := by simp [hs, Mem.set_apply]
    have hparam : s.obj (.inr .param) = some hd := by simp [hs, Mem.set_apply, hvd]
    have hend := destroyObjects_apply (m := m) (s := { s with heap := s.heap.emit [.unlock] })
      (x := .inr .sink) hsunk hke hparam hkd (by simp)
    have hobj : ((s.set (.inr .sink) none).set (.inr .param) none).obj =
        ((w.mem.set (.inl e) (some h)).set (.inr .param) none).obj := by
      funext y
      by_cases hy : y = .inr .sink
      · simp [Mem.set_apply, hy, hfree]
      · simp only [hs, Mem.set_apply, hy, if_false]
    have hatomics : Function.update w₁.atomics a (some (.holding h)) = w.atomics := by
      rw [hw₁, World.emit, World.setAtomic, Function.update_idem, ← ha, Function.update_eq_self]
    simp only [World.emit, World.setAtomic, hend, hatomics, ← hobj]
    rfl
  · simp only [memberExchange, called, Prog.atExit, SpAtomic.compareExchangeStrong, Prog.bind_apply, hlock, hget,
      onMem, hgete, SpAtomic.heldIn_ptr, if_neg hne, hsink, put, Prog.modify_apply, onHeap, Mem.set_heap, hheap]
    generalize copyCount m .shared h.pi (w.mem.heap.emit [.lock]) = r at hstop
    obtain ⟨res, heap⟩ := r
    obtain rfl : res = .stop := hstop
    rfl

end

/-! ## Both -/

section

variable [Fintype V] {m : Mode} {s : Mem V} {p e : V} {h he hd : Handle}

theorem Exchange.equal_iff (X : Exchange s p e h he hd) (ok : s.Holds BlocksOk) (hA : Apart s.heap) :
    s.heap.address h.pi = s.heap.address he.pi ↔ h.pi = he.pi :=
  hA.address_eq_iff ok (fun _ hb => Mem.owners_ne_zero X.object hb) fun _ hb => Mem.owners_ne_zero X.expected hb

/-- The copy that both make of the object, under the lock. -/
theorem Exchange.copy_cases (X : Exchange s p e h he hd) (ok : s.Holds BlocksOk) :
    (∃ heap, copyCount m .shared h.pi (s.heap.emit [.lock]) = (.ok h.pi, heap)) ∨
      (copyCount m .shared h.pi (s.heap.emit [.lock])).1 = .stop ∧ ¬ CanCount s.heap h.pi := by
  cases hpi : h.pi with
  | none => exact .inl ⟨_, rfl⟩
  | some b =>
    obtain ⟨blk, hb⟩ := ok.exists_block (Mem.owners_ne_zero X.object hpi)
    have hb' : (s.heap.emit [.lock]).blocks b = some blk := hb
    by_cases hmax : blk.counts.useCount = -1
    · exact .inr ⟨copyCount_stop hb' hmax, fun hcan => hcan b blk rfl hb hmax⟩
    · exact .inl ⟨_, copyCount_some hb' hmax⟩

/-- **The two functions agree**, for every value of the object, of what is expected and of what is
desired, where the counts are right and the blocks in memory apart. -/
theorem compareExchanges_agree (m : Mode) {s : Mem V} {p e : V} {h he hd : Handle} (X : Exchange s p e h he hd)
    (ok : s.Holds BlocksOk) (hA : Apart s.heap) (atomics : A → Option SpAtomic) (a : A) :
    ExchangeAlike m p e a h he hd ⟨s, atomics⟩ := by
  have haddr := X.equal_iff ok hA
  -- the other world, of the atomic object
  have ha : ((⟨s, atomics⟩ : World V A).atomically p a h).atomics a = some (.holding h) := Function.update_self ..
  have hve : (s.set (.inl p) none).obj (.inl e) = some he := by simp [Mem.set_apply, X.ne, X.expected]
  have hvd : (s.set (.inl p) none).obj (.inr .param) = some hd := by simp [Mem.set_apply, X.desired]
  have hsink : (s.set (.inl p) none).obj (.inr .sink) = none := by simp [Mem.set_apply, X.sink]
  by_cases heq : h.ptr = he.ptr ∧ h.pi = he.pi
  · have hfree := freeExchange_equal (m := m) X heq.1 (haddr.mpr heq.2) atomics
    have hmember := memberExchange_equal (m := m) ha X.object_kind hve X.expected_kind hvd X.desired_kind heq
    refine .inl ⟨true, _, _, hfree, hmember, ?_⟩
    exact
      { answer := by simp [heq]
        object := by simp [exchanged, Mem.set_apply]
        object' := by simp [exchanged]
        expected := by simp [exchanged, Mem.set_apply, X.ne, X.expected]
        param := by simp
        same := fun y hy => by simp [World.atomically, Mem.set_apply, hy]
        others := fun y hy _ hy' => by simp [Mem.set_apply, hy, hy']
        atomics := ⟨rfl, fun a' ha' => by simp [World.atomically, Function.update_of_ne ha']⟩
        heap := rfl }
  · have hne : ¬ (h.ptr = he.ptr ∧ s.heap.address h.pi = s.heap.address he.pi) := by rwa [haddr]
    obtain ⟨hfree, hfree'⟩ := freeExchange_unequal (m := m) X hne atomics
    obtain ⟨hmember, hmember'⟩ := memberExchange_unequal (m := m) ha X.object_kind hve X.expected_kind hvd
      X.desired_kind hsink heq
    obtain ⟨heap, hok⟩ | ⟨hstop, hcan⟩ := X.copy_cases (m := m) ok
    · refine .inl ⟨false, _, _, hfree heap hok, hmember heap hok, ?_⟩
      exact
        { answer := by simp [heq]
          object := by simp [exchanged, Mem.set_apply, Ne.symm X.ne, X.object]
          object' := by simp [exchanged, World.atomically]
          expected := by simp [exchanged, Mem.set_apply]
          param := by simp
          same := fun y hy => by simp [World.atomically, Mem.set_apply, hy]
          others := fun y _ hy hy' => by simp [Mem.set_apply, hy, hy']
          atomics := ⟨rfl, fun a' ha' => by simp [World.atomically, Function.update_of_ne ha']⟩
          heap := rfl }
    · exact .inr ⟨hfree' hstop, hmember' hstop, heq, hcan⟩

end

/-- The object at 8 has an owner, and another one that stores 16. -/
def aliasing {V : Type} (x y : V) : List (AnyOp V) :=
  [.construct x (.raw (.ptrDeleter (some 8) (.user 0))), .plain (.aliasOf y x (some 16))]

theorem freshRun_aliasing : FreshRun pages .defaultPolicy .empty (aliasing (0 : Fin 2) 1) := by
  have h₀ : (Mem.empty : Mem (Fin 2)).Holds BlocksOk := holds_empty
  refine ⟨fun u₁ h₁ => ?_, fun u₁ h₁ => ?_⟩
  · obtain rfl := Option.some.inj h₁
    exact fresh_of_made ⟨.new, .countedDeleter (some 8) (.user 0), ⟨.std, .controlBlock, some 4096, 1⟩⟩ (by decide)
      rfl rfl rfl h₀.named nofun
  have ok₁ := AnyOp.of_step h₁ (anyOp_keeps _ _ h₀)
  exact ⟨fun u₂ h₂ => fresh_of_not_owns ok₁ rfl h₂, fun _ _ => trivial⟩

/-- One owner with two pointers: the exchange with a null pointer fails, and copies. -/
theorem compareExchanges_agree_aliasing : ∃ s : Mem (Fin 2),
    Exchange s 0 1 ⟨.shared, some 8, some 0⟩ ⟨.shared, some 16, some 0⟩ ⟨.shared, none, none⟩ ∧
      ExchangeAlike .defaultPolicy 0 1 (0 : Fin 1) ⟨.shared, some 8, some 0⟩ ⟨.shared, some 16, some 0⟩
        ⟨.shared, none, none⟩ ⟨s, fun _ => none⟩ := by
  obtain ⟨s, hrun, h₀, h₁, hidle⟩ : ∃ s,
      Lib.run (AnyOp.step pages .defaultPolicy) .empty (aliasing (0 : Fin 2) 1) = some s ∧
      s.obj (.inl 0) = some ⟨.shared, some 8, some 0⟩ ∧ s.obj (.inl 1) = some ⟨.shared, some 16, some 0⟩ ∧
      s.Idle := ⟨_, rfl, rfl, rfl, fun l => by cases l <;> rfl⟩
  have hmake := create_apply (hidle .param) ⟨.shared, none, none⟩
  have ok : (s.set (.inr .param) (some ⟨.shared, none, none⟩)).Holds BlocksOk := by
    have hkeep := defaultCtor_keeps (k := .shared) (x := .inr .param) s (AnyOp.run_holds hrun holds_empty)
    rw [defaultCtor, hmake] at hkeep
    exact hkeep.resolve_left (by simp)
  have hA : Apart s.heap := run_apart hrun freshRun_aliasing holds_empty Apart.empty
  have X : Exchange (s.set (.inr .param) (some ⟨.shared, none, none⟩)) 0 1 ⟨.shared, some 8, some 0⟩
      ⟨.shared, some 16, some 0⟩ ⟨.shared, none, none⟩ :=
    ⟨h₀, h₁, rfl, rfl, rfl, rfl, by decide, hidle .tmp, hidle .x, hidle .sink⟩
  exact ⟨_, X, compareExchanges_agree .defaultPolicy X ok hA (fun _ => none) 0⟩

end SharedPtr.Seq
