/-
The construction of a range of elements: the calls of constructors, through an
allocator or not, and the algorithms of `bits/stl_uninitialized.h`, whose guard
destroys what there is when a constructor throws.

What the constructors of a range answer, up to the first exception, is
`Env.build`, and what is logged depends on it alone (`uninitialized_apply`).
For trivial types the algorithms have shortcuts (a fill, or no code at all)
with the effect of the loops, which are what is written here.
-/
import SharedPtr.HeapLedger

namespace SharedPtr.Seq

open Lib (Prog Result Trade)

section

variable (E : Env)

/-- The call that is to construct the element `p[k]`; `via` is the allocator, where one is asked. -/
def constructCall (via : Option Source) (init : Init) (p : Ptr) (k : Nat) : Event :=
  match via with
  | some a => .allocatorConstruct a init p k
  | none => .plainConstruct init p k

/-- `construct(a, p + k, ...)` of the allocator's traits, or a constructor called without one. -/
def construct (via : Option Source) (init : Init) (p : Ptr) (k : Nat) : Prog Heap Exn Unit := fun h =>
  let h' := { h with constructions := h.constructions + 1 }.emit [constructCall via init p k]
  match E.construct h.constructions init with
  | .error e => (.throw e, h')
  | .ok v => (.ok (), h'.emit [.construct p k v])

/-- `std::_Destroy(__p, __p + __n, __alloc)`, or `std::_Destroy(__p, __p + __n)`. -/
def destroyRange (via : Option Source) (p : Ptr) (n : Nat) : List Event :=
  match via with
  | some a => (List.range n).flatMap fun k => [.allocatorDestroy a p k, .destroyElement p k]
  | none => destroyN p n

/-- `_UninitDestroyGuard`: `*_M_cur`, which is the algorithm's `__first`, and whether it was
released; `_M_first` is the element 0. -/
structure UninitDestroyGuard where
  cur : Nat
  released : Bool
  deriving DecidableEq, Repr

/-- `for (; __n > 0; --__n, (void) ++__first) construct(...)`. -/
def uninitLoop (via : Option Source) (init : Nat → Init) (p : Ptr) :
    Nat → Prog (Heap × UninitDestroyGuard) Exn Unit
  | 0 => pure ()
  | n + 1 => do
    let guard ← Prog.read (·.2)
    Prog.outer (construct E via (init guard.cur) p guard.cur)
    Prog.modify fun s => (s.1, { s.2 with cur := s.2.cur + 1 })
    uninitLoop via init p n

/-- The algorithms below: the loop, with its guard. -/
def uninitialized (via : Option Source) (init : Nat → Init) (p : Ptr) (n : Nat) : Prog Heap Exn Unit :=
  Prog.withLocal ⟨0, false⟩
    (do
      uninitLoop E via init p n
      Prog.modify fun s => (s.1, { s.2 with released := true }))
    fun guard h => if guard.released then h else h.emit (destroyRange via p guard.cur)

/-- `std::__uninitialized_default_n`. -/
def uninitializedDefaultN (p : Ptr) (n : Nat) : Prog Heap Exn Unit := uninitialized E none (fun _ => .value) p n

/-- `std::uninitialized_fill_n`. -/
def uninitializedFillN (p : Ptr) (n u : Nat) : Prog Heap Exn Unit := uninitialized E none (fun _ => .args u) p n

/-- `std::uninitialized_copy`, from the elements of the array `u` of `len`, over and over. -/
def uninitializedCopy (p : Ptr) (n u len : Nat) : Prog Heap Exn Unit :=
  uninitialized E none (fun k => .element u (k % len)) p n

/-- `std::uninitialized_default_construct_n`. -/
def uninitializedDefaultConstructN (p : Ptr) (n : Nat) : Prog Heap Exn Unit :=
  uninitialized E none (fun _ => .default) p n

/-- `std::__uninitialized_default_n_a`; `std::allocator` is not asked. -/
def uninitializedDefaultNA (p : Ptr) (n : Nat) : Source → Prog Heap Exn Unit
  | .std => uninitializedDefaultN E p n
  | alloc => uninitialized E (some alloc) (fun _ => .value) p n

/-- `std::__uninitialized_fill_n_a`. -/
def uninitializedFillNA (p : Ptr) (n u : Nat) : Source → Prog Heap Exn Unit
  | .std => uninitializedFillN E p n u
  | alloc => uninitialized E (some alloc) (fun _ => .args u) p n

/-- `std::__uninitialized_copy_a`. -/
def uninitializedCopyA (p : Ptr) (n u len : Nat) : Source → Prog Heap Exn Unit
  | .std => uninitializedCopy E p n u len
  | alloc => uninitialized E (some alloc) (fun k => .element u (k % len)) p n

/-! ## What the constructors answer -/

/-- The elements of a range that were constructed, by their values, and the exception that ended it. -/
structure Built where
  values : List Nat
  failure : Option Exn
  deriving DecidableEq, Repr

/-- The constructors of the elements from `i` on, `n` of them; the next call is the call `c`. -/
def Env.build (init : Nat → Init) (c i : Nat) : Nat → Built
  | 0 => ⟨[], none⟩
  | n + 1 =>
    match E.construct c (init i) with
    | .error e => ⟨[], some e⟩
    | .ok v => ⟨v :: (Env.build init (c + 1) (i + 1) n).values, (Env.build init (c + 1) (i + 1) n).failure⟩

end

/-- How many constructors were called. -/
def Built.calls (B : Built) : Nat := B.values.length + if B.failure = none then 0 else 1

def Built.result (B : Built) : Result Exn Unit :=
  match B.failure with
  | none => .ok ()
  | some e => .throw e

/-- The log of the constructors' calls for the elements from `i` on. -/
def buildEvents (via : Option Source) (init : Nat → Init) (p : Ptr) (failure : Option Exn) : Nat → List Nat → List Event
  | i, [] => if failure = none then [] else [constructCall via (init i) p i]
  | i, v :: values => constructCall via (init i) p i :: .construct p i v :: buildEvents via init p failure (i + 1) values

/-- The heap after them. -/
def Heap.afterBuild (h : Heap) (via : Option Source) (init : Nat → Init) (p : Ptr) (i : Nat) (B : Built) : Heap :=
  { h with
    constructions := h.constructions + B.calls
    log := h.log ++ buildEvents via init p B.failure i B.values }

variable {E : Env} {via : Option Source} {init : Nat → Init} {p : Ptr} {h : Heap}

theorem Built.calls_cons (v : Nat) (values : List Nat) (failure : Option Exn) :
    Built.calls ⟨v :: values, failure⟩ = Built.calls ⟨values, failure⟩ + 1 := by
  simp only [calls, List.length_cons]
  omega

variable (E via init p h) in
/-- One turn of a loop that constructs elements: the next one, and the others after it. -/
theorem construct_build (i n : Nat) :
    construct E via (init i) p i h =
        match E.construct h.constructions (init i) with
        | .error e => (.throw e, h.afterBuild via init p i (E.build init h.constructions i (n + 1)))
        | .ok v => (.ok (), h.afterBuild via init p i ⟨[v], none⟩) := by
  unfold construct Env.build
  split
  next => simp [Heap.afterBuild, Built.calls, buildEvents, Heap.emit]
  next => simp [Heap.afterBuild, Built.calls, buildEvents, Heap.emit]

theorem Heap.afterBuild_cons (i v : Nat) (B : Built) :
    (h.afterBuild via init p i ⟨[v], none⟩).afterBuild via init p (i + 1) B =
      h.afterBuild via init p i ⟨v :: B.values, B.failure⟩ := by
  simp only [afterBuild, buildEvents, Built.calls_cons, if_true, List.append_assoc, List.cons_append, List.nil_append,
    Heap.mk.injEq, true_and]
  refine ⟨?_, trivial⟩
  simp only [Built.calls, List.length_nil, if_true]
  omega

theorem uninitLoop_apply (n i : Nat) :
    uninitLoop E via init p n (h, ⟨i, false⟩) =
      ((E.build init h.constructions i n).result, h.afterBuild via init p i (E.build init h.constructions i n),
        ⟨i + (E.build init h.constructions i n).values.length, false⟩) := by
  induction n generalizing h i with
  | zero => simp [uninitLoop, Env.build, Built.result, Heap.afterBuild, buildEvents, Built.calls]
  | succ n ih =>
    have hturn := construct_build E via init p h i n
    simp only [uninitLoop, Prog.bind_apply, Prog.read_apply, Prog.outer, hturn]
    cases he : E.construct h.constructions (init i) with
    | error e => simp [Env.build, he, Built.result]
    | ok v =>
      have hc : (h.afterBuild via init p i ⟨[v], none⟩).constructions = h.constructions + 1 := rfl
      simp only [Prog.modify_apply, ih, hc, Heap.afterBuild_cons, Env.build, he]
      simp [Built.result]
      omega

/-- **An algorithm with a guard**: all elements, or none and the exception. -/
theorem uninitialized_apply (n : Nat) :
    uninitialized E via init p n h =
      let B := E.build init h.constructions 0 n
      (B.result, if B.failure = none then h.afterBuild via init p 0 B
        else (h.afterBuild via init p 0 B).emit (destroyRange via p B.values.length)) := by
  simp only [uninitialized, Prog.withLocal, Prog.bind_apply, uninitLoop_apply]
  cases hf : (E.build init h.constructions 0 n).failure with
  | none => simp [Built.result, hf]
  | some e => simp [Built.result, hf]

/-! ## How far the constructors get -/

theorem Env.build_length {c i n : Nat} (hf : (E.build init c i n).failure = none) :
    (E.build init c i n).values.length = n := by
  induction n generalizing c i with
  | zero => rfl
  | succ n ih =>
    unfold Env.build at hf ⊢
    split at hf
    next => cases hf
    next => simp [ih hf]

theorem Built.calls_le (E : Env) (init : Nat → Init) (c i n : Nat) : (E.build init c i n).calls ≤ n := by
  induction n generalizing c i with
  | zero => exact Nat.le_refl 0
  | succ n ih =>
    unfold Env.build
    split
    next => simp [calls]
    next =>
      rw [calls_cons]
      exact Nat.succ_le_succ (ih (c + 1) (i + 1))

/-- The exception is that of the first constructor that throws. -/
theorem Env.build_failure {c i n : Nat} {e : Exn} : (E.build init c i n).failure = some e ↔
    ∃ k < n, E.construct (c + k) (init (i + k)) = .error e ∧
      ∀ j < k, ∃ v, E.construct (c + j) (init (i + j)) = .ok v := by
  induction n generalizing c i with
  | zero => simp [Env.build]
  | succ n ih =>
    cases he : E.construct c (init i) with
    | error e' =>
      simp only [Env.build, he, Option.some.injEq]
      constructor
      · rintro rfl
        exact ⟨0, Nat.succ_pos n, he, nofun⟩
      · rintro ⟨k, -, hk, hpre⟩
        cases k with
        | zero =>
          rw [Nat.add_zero, Nat.add_zero, he] at hk
          cases hk
          rfl
        | succ k =>
          obtain ⟨v, hv⟩ := hpre 0 (Nat.succ_pos k)
          rw [Nat.add_zero, Nat.add_zero, he] at hv
          cases hv
    | ok v =>
      simp only [Env.build, he, ih]
      constructor
      · rintro ⟨k, hk, hek, hpre⟩
        refine ⟨k + 1, by omega, by rwa [Nat.add_right_comm, Nat.add_right_comm i] at hek, ?_⟩
        intro j hj
        cases j with
        | zero => exact ⟨v, he⟩
        | succ j =>
          obtain ⟨w, hw⟩ := hpre j (by omega)
          exact ⟨w, by rwa [Nat.add_right_comm, Nat.add_right_comm i] at hw⟩
      · rintro ⟨k, hk, hek, hpre⟩
        cases k with
        | zero =>
          rw [Nat.add_zero, Nat.add_zero, he] at hek
          cases hek
        | succ k =>
          refine ⟨k, by omega, by rwa [Nat.add_right_comm, Nat.add_right_comm i], ?_⟩
          intro j hj
          obtain ⟨w, hw⟩ := hpre (j + 1) (by omega)
          exact ⟨w, by rwa [Nat.add_right_comm, Nat.add_right_comm i]⟩

/-- As many are there as were constructed before it. -/
theorem Env.build_stops {c i n k : Nat} {e : Exn} (hk : k < n) (he : E.construct (c + k) (init (i + k)) = .error e)
    (hpre : ∀ j < k, ∃ v, E.construct (c + j) (init (i + j)) = .ok v) : (E.build init c i n).values.length = k := by
  induction k generalizing c i n with
  | zero =>
    obtain ⟨n, rfl⟩ := Nat.exists_eq_succ_of_ne_zero (Nat.ne_of_gt hk)
    have he : E.construct c (init i) = .error e := he
    simp only [Env.build, he, List.length_nil]
  | succ k ih =>
    obtain ⟨n, rfl⟩ := Nat.exists_eq_succ_of_ne_zero (n := n) (by omega)
    obtain ⟨v, hv⟩ := hpre 0 (Nat.succ_pos k)
    have hv : E.construct c (init i) = .ok v := hv
    simp only [Env.build, hv, List.length_cons, Nat.add_right_cancel_iff]
    refine ih (by omega) (by rwa [Nat.add_right_comm, Nat.add_right_comm i]) ?_
    intro j hj
    obtain ⟨w, hw⟩ := hpre (j + 1) (by omega)
    exact ⟨w, by rwa [Nat.add_right_comm, Nat.add_right_comm i]⟩

theorem Env.build_failure_none {c i n : Nat} : (E.build init c i n).failure = none ↔
    ∀ k < n, ∃ v, E.construct (c + k) (init (i + k)) = .ok v := by
  induction n generalizing c i with
  | zero => simp [Env.build]
  | succ n ih =>
    cases he : E.construct c (init i) with
    | error e =>
      simp only [Env.build, he, reduceCtorEq, false_iff]
      intro hall
      obtain ⟨v, hv⟩ := hall 0 (Nat.succ_pos n)
      rw [Nat.add_zero, Nat.add_zero, he] at hv
      cases hv
    | ok v =>
      simp only [Env.build, he, ih]
      constructor
      · intro hall k hk
        cases k with
        | zero => exact ⟨v, he⟩
        | succ k =>
          obtain ⟨w, hw⟩ := hall k (by omega)
          exact ⟨w, by rwa [Nat.add_right_comm, Nat.add_right_comm i] at hw⟩
      · intro hall k hk
        obtain ⟨w, hw⟩ := hall (k + 1) (by omega)
        exact ⟨w, by rwa [Nat.add_right_comm, Nat.add_right_comm i]⟩

/-! ## Elements as resources -/

/-- The elements `p[0]` to `p[n - 1]`. -/
def elementRange (p : Ptr) (n : Nat) : Resource → Nat
  | .element q k => if q = p ∧ k < n then 1 else 0
  | .chunk _ => 0

theorem elementRange_succ (p : Ptr) (n : Nat) (r : Resource) :
    elementRange p (n + 1) r = elementRange p n r + if r = .element p n then 1 else 0 := by
  cases r with
  | chunk c => simp [elementRange]
  | element q k =>
    by_cases hq : q = p
    · rcases lt_trichotomy k n with hk | rfl | hk
      · simp [elementRange, hq, hk, Nat.lt_succ_of_lt hk, Nat.ne_of_lt hk]
      · simp [elementRange, hq]
      · simp [elementRange, hq, Nat.not_lt_of_gt hk, Nat.ne_of_gt hk, Nat.not_lt_of_ge hk]
    · simp [elementRange, hq]

theorem returned_destroyElements (a : Source) (p : Ptr) (n : Nat) (r : Resource) :
    trade.returned (destroyElements a p n) r = elementRange p n r := by
  induction n with
  | zero => cases r <;> simp [destroyElements, elementRange]
  | succ n ih =>
    rw [destroyElements, Trade.returned_cons, Trade.returned_cons, ih, elementRange_succ]
    simp [trade, Nat.add_comm, eq_comm]

theorem returned_destroyN (p : Ptr) (n : Nat) (r : Resource) : trade.returned (destroyN p n) r = elementRange p n r := by
  induction n with
  | zero => cases r <;> simp [destroyN, elementRange]
  | succ n ih =>
    rw [destroyN, List.range_succ, List.map_append, Trade.returned_append, ← destroyN, ih, elementRange_succ]
    simp [Trade.returned_cons, trade, eq_comm]

theorem returned_destroyRange (via : Option Source) (p : Ptr) (n : Nat) (r : Resource) :
    trade.returned (destroyRange via p n) r = elementRange p n r := by
  cases via with
  | none => exact returned_destroyN p n r
  | some a =>
    induction n with
    | zero => cases r <;> simp [destroyRange, elementRange]
    | succ n ih =>
      simp only [destroyRange] at ih ⊢
      rw [List.range_succ, List.flatMap_append, Trade.returned_append, ih, elementRange_succ]
      simp [Trade.returned_cons, trade, eq_comm]

theorem returned_disposeArray (a : Source) (n : Nat) (o : Bool) (p : Ptr) (r : Resource) :
    trade.returned (disposeArray a n o p) r = elementRange p n r := by
  cases o with
  | true => exact returned_destroyN p n r
  | false => exact returned_destroyElements a p n r

theorem mem_destroyRange {n : Nat} {e : Event} (h : e ∈ destroyRange via p n) : e.ofDispose := by
  cases via with
  | none => exact mem_destroyN h
  | some a =>
    obtain ⟨k, -, he⟩ := List.mem_flatMap.mp h
    simp only [List.mem_cons, List.not_mem_nil, or_false] at he
    rcases he with rfl | rfl <;> rfl

/-- A constructor is called, or has constructed an element. -/
def Event.ofBuild : Event → Bool
  | .allocatorConstruct .. | .plainConstruct .. | .construct .. => true
  | _ => false

theorem ofBuild_constructCall (via : Option Source) (init : Init) (p : Ptr) (k : Nat) :
    (constructCall via init p k).ofBuild := by
  cases via <;> rfl

theorem mem_buildEvents {failure : Option Exn} {i : Nat} {values : List Nat} {e : Event}
    (h : e ∈ buildEvents via init p failure i values) : e.ofBuild := by
  induction values generalizing i with
  | nil =>
    unfold buildEvents at h
    split at h
    · cases h
    · rw [List.mem_singleton.mp h]
      exact ofBuild_constructCall ..
  | cons v values ih =>
    rcases List.mem_cons.mp h with rfl | h
    · exact ofBuild_constructCall ..
    · rcases List.mem_cons.mp h with rfl | h
      · rfl
      · exact ih h

/-- The element a constructor is called for, or has constructed. -/
def Event.builds : Event → Option (Ptr × Nat)
  | .allocatorConstruct _ _ p k | .plainConstruct _ p k | .construct p k _ => some (p, k)
  | _ => none

theorem builds_buildEvents {via : Option Source} {init : Nat → Init} {p q : Ptr} {failure : Option Exn} {i k : Nat}
    {values : List Nat} {e : Event} (he : e ∈ buildEvents via init p failure i values) (hk : e.builds = some (q, k)) :
    q = p ∧ k < i + Built.calls ⟨values, failure⟩ := by
  have hcall : ∀ j, (constructCall via (init j) p j).builds = some (p, j) := fun j => by cases via <;> rfl
  induction values generalizing i with
  | nil =>
    unfold buildEvents at he
    split at he
    · cases he
    next hf =>
      rw [List.mem_singleton.mp he, hcall] at hk
      cases hk
      simp [Built.calls, hf]
  | cons v values ih =>
    rw [Built.calls_cons]
    rcases List.mem_cons.mp he with rfl | he
    · rw [hcall] at hk
      cases hk
      exact ⟨rfl, by omega⟩
    · rcases List.mem_cons.mp he with rfl | he
      · cases hk
        exact ⟨rfl, by omega⟩
      · obtain ⟨hq, hlt⟩ := ih he
        exact ⟨hq, by omega⟩

variable (via init p) in
theorem quiet_buildEvents (failure : Option Exn) (i : Nat) (values : List Nat) :
    Quiet (buildEvents via init p failure i values) := by
  intro b
  constructor <;>
  · rw [List.count_eq_zero]
    intro h
    cases mem_buildEvents h

theorem returns_buildEvents {failure : Option Exn} {i : Nat} {values : List Nat} :
    ∀ e ∈ buildEvents via init p failure i values, trade.returns e = none := by
  intro e h
  have he := mem_buildEvents h
  cases e <;> first | rfl | cases he

variable (via init p) in
theorem acquired_buildEvents_add (failure : Option Exn) (i : Nat) (values : List Nat) (r : Resource) :
    elementRange p i r + trade.acquired (buildEvents via init p failure i values) r =
      elementRange p (i + values.length) r := by
  have hcall : ∀ k, trade.acquires (constructCall via (init k) p k) = none := fun k => by cases via <;> rfl
  induction values generalizing i with
  | nil =>
    unfold buildEvents
    split
    · simp
    · simp [Trade.acquired_cons, hcall]
  | cons v values ih =>
    have hlen : i + (v :: values).length = i + 1 + values.length := by simp; omega
    rw [buildEvents, Trade.acquired_cons, Trade.acquired_cons, hcall, hlen, ← ih (i + 1), elementRange_succ]
    simp only [reduceCtorEq, if_false, trade, Option.some.injEq, eq_comm (a := r)]
    omega

/-- What was constructed is what is to be destroyed. -/
theorem acquired_buildEvents (failure : Option Exn) (values : List Nat) (r : Resource) :
    trade.acquired (buildEvents via init p failure 0 values) r = elementRange p values.length r := by
  have h := acquired_buildEvents_add via init p failure 0 values r
  have h0 : elementRange p 0 r = 0 := by cases r <;> simp [elementRange]
  rwa [h0, Nat.zero_add, Nat.zero_add] at h

end SharedPtr.Seq
