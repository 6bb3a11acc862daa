/-
The smart pointer adaptors `out_ptr_t` and `inout_ptr_t` (`bits/out_ptr.h`):
the specialisations of `_Impl` that write the stored pointer in place, and for
a `unique_ptr` the primary template, which has a pointer of its own.

With `__abi_break_for_conv_ops` each specialisation has two members more,
`_M_pv` and `_M_p_orig`. The conversion to `void**` then gives the address of
`_M_pv`, and the destructor stores `_M_pv` if it is not `_M_p_orig`; so these
are to start as the stored pointer. `inout_ptr` of a `unique_ptr` without a
replacement deleter leaves them null: nothing there sets them.

A callee gets the address of one pointer, its slot, and reads and writes that.
`pointer` is `element_type*`, and a deleter is a value that is copied.
-/
import SharedPtr.OutPtr

namespace SharedPtr.Seq

open Lib (Prog Result)

/-! ## The callee -/

/-- What the callee does with its slot. -/
inductive Callee
  | done
  | read (next : Ptr → Callee)
  | write (p : Ptr) (next : Callee)

/-- What it reads, and what it leaves in the slot, where `p` was. -/
def Callee.run : Callee → Ptr → List Ptr × Ptr
  | done, p => ([], p)
  | read next, p => (p :: ((next p).run p).1, ((next p).run p).2)
  | write q next, _ => next.run q

inductive Direction
  | out
  | inout
  deriving DecidableEq, Repr

/-- What the callee is to find in its slot: null for `out_ptr`, for `inout_ptr` the stored pointer. -/
def Direction.initial (p : Ptr) : Direction → Ptr
  | out => none
  | inout => p

/-! ## `unique_ptr` -/

/-- A `unique_ptr` of which the deleter is a `D`, and the calls of deleters so far. -/
structure UniqPtrImpl (D : Type) where
  ptr : Ptr
  del : D
  calls : List (D × Nat)
  deriving DecidableEq, Repr

namespace UniqPtrImpl

variable {D : Type}

/-- `_M_deleter()(__p)`, if there is a `__p`. -/
def callDel (p : Ptr) (u : UniqPtrImpl D) : UniqPtrImpl D :=
  { u with calls := u.calls ++ p.toList.map fun q => (u.del, q) }

/-- `reset(__p)`. -/
def reset (p : Ptr) (u : UniqPtrImpl D) : UniqPtrImpl D := { u with ptr := p }.callDel u.ptr

/-- `release()`. -/
def release (u : UniqPtrImpl D) : Ptr × UniqPtrImpl D := (u.ptr, { u with ptr := none })

/-- `~unique_ptr()`. -/
def destroy (u : UniqPtrImpl D) : UniqPtrImpl D := { u.callDel u.ptr with ptr := none }

/-- `operator=(__uniq_ptr_impl&& __u)`, and `__u` then. -/
def moveAssign (u r : UniqPtrImpl D) : UniqPtrImpl D × UniqPtrImpl D :=
  ({ u.reset r.release.1 with del := r.release.2.del }, r.release.2)

/-- `__s = _Smart(__p, __d)`: the temporary is moved from, and destroyed. -/
def assignNew (p : Ptr) (d : D) (u : UniqPtrImpl D) : UniqPtrImpl D :=
  let r := u.moveAssign ⟨p, d, []⟩
  { r.1 with calls := r.1.calls ++ r.2.destroy.calls }

end UniqPtrImpl

/-! ## The primary template, for a `unique_ptr` -/

namespace Primary

variable {D : Type}

/-- `_M_out_init()` or `_M_inout_init()`: what `_M_ptr` is, and the `unique_ptr`. -/
def init (u : UniqPtrImpl D) : Direction → Ptr × UniqPtrImpl D
  | .out => (none, u.reset none)
  | .inout => u.release

/-- `~_Impl()`, where `_M_ptr` is `p`; a `unique_ptr` is not reset with a deleter. -/
def dtor (d : Option D) (p : Ptr) (u : UniqPtrImpl D) : UniqPtrImpl D :=
  match p, d with
  | none, _ => u
  | some q, none => u.reset (some q)
  | some q, some d => u.assignNew (some q) d

/-- `f(out_ptr(u))` or `f(inout_ptr(u))`: what the callee reads, and the `unique_ptr` in the end. -/
def typed (dir : Direction) (d : Option D) (callee : Callee) (u : UniqPtrImpl D) : List Ptr × UniqPtrImpl D :=
  let r := init u dir
  ((callee.run r.1).1, dtor d (callee.run r.1).2 r.2)

end Primary

/-! ## The specialisations -/

/-- `_M_pv` and `_M_p_orig`. -/
structure Shadow where
  pv : Ptr
  orig : Ptr
  deriving DecidableEq, Repr

section

variable {V : Type} [DecidableEq V]

/-- `_M_ptr` of the `shared_ptr` called `x`. -/
def Mem.slot (x : V) (s : Mem V) : Ptr := (s.obj (.inl x)).bind Handle.ptr

/-- `_M_ptr` of `x` is written, without a change to `_M_refcount`. -/
def Mem.setSlot (x : V) (p : Ptr) (s : Mem V) : Mem V :=
  s.set (.inl x) ((s.obj (.inl x)).map fun h => { h with ptr := p })

/-- `_Impl(_Smart& __s, _Del __d, _Alloc __a)`, where `__s` is `x`. -/
def sharedImpl (E : Env) (m : Mode) (x : V) (d : Deleter) (a : Source) : Prog (Mem V) Exn Shadow := do
  outPtrCtor E m (.inl x) d a
  let h ← get .shared (.inl x)
  pure ⟨h.ptr, h.ptr⟩

end

/-- The specialisations of `_Impl` with both conversions: for a raw pointer, for a `unique_ptr` without a
replacement deleter and with one, and for the `shared_ptr` called `x`. -/
inductive Specialisation (V D : Type)
  | raw
  | unique (d : Option D)
  | shared (E : Env) (m : Mode) (x : V) (d : Deleter) (a : Source)

namespace Specialisation

variable {V D : Type} [DecidableEq V]

/-- The smart pointer, and what is to be seen of its deleters. -/
def State : Specialisation V D → Type
  | raw => Ptr
  | unique _ => UniqPtrImpl D
  | shared .. => Mem V

/-- `static_assert`: a `shared_ptr` has no `inout_ptr`. -/
def Allows : Specialisation V D → Direction → Prop
  | shared .., .inout => False
  | _, _ => True

/-- The stored pointer, `*_M_get()`. -/
def slot : (S : Specialisation V D) → S.State → Ptr
  | raw, (p : Ptr) => p
  | unique _, (u : UniqPtrImpl D) => u.ptr
  | shared _ _ x _ _, (s : Mem V) => s.slot x

/-- The stored pointer is written. -/
def setSlot (p : Ptr) : (S : Specialisation V D) → S.State → S.State
  | raw, _ => p
  | unique _, (u : UniqPtrImpl D) => { u with ptr := p }
  | shared _ _ x _ _, (s : Mem V) => s.setSlot x p

/-- `_M_impl{__smart, ...}`; the first two are aggregates. -/
def ctor : (S : Specialisation V D) → Prog S.State Exn Shadow
  | raw => pure ⟨none, none⟩
  | unique none => pure ⟨none, none⟩
  | unique (some _) => Prog.read fun u : UniqPtrImpl D => ⟨u.ptr, u.ptr⟩
  | shared E m x d a => sharedImpl E m x d a

/-- `_M_out_init()`, where there is one. -/
def outInit : (S : Specialisation V D) → Shadow → S.State → Shadow × S.State
  | raw, _, _ => (⟨none, none⟩, (none : Ptr))
  | unique _, _, (u : UniqPtrImpl D) => (⟨none, none⟩, u.reset none)
  | shared .., sh, s => (sh, s)

/-- `_M_inout_init()`, where there is one. -/
def inoutInit : (S : Specialisation V D) → Shadow → S.State → Shadow × S.State
  | raw, _, (p : Ptr) => (⟨p, p⟩, p)
  | unique _, sh, u => (sh, u)
  | shared .., sh, s => (sh, s)

/-- The rest of `~_Impl()`. -/
def finish : (S : Specialisation V D) → S.State → S.State
  | raw, p => p
  | unique none, u => u
  | unique (some d), (u : UniqPtrImpl D) => if u.ptr = none then u else { u with del := d }
  | shared _ _ x _ _, (s : Mem V) => outPtrDtor (.inl x) s

variable (S : Specialisation V D)

/-- The constructor of `out_ptr_t` or `inout_ptr_t`. -/
def construct (dir : Direction) : Prog S.State Exn Shadow := do
  let sh ← S.ctor
  Prog.act fun s =>
    match dir with
    | .out => S.outInit sh s
    | .inout => S.inoutInit sh s

/-- `~_Impl()`, with `__abi_break_for_conv_ops` or without. -/
def dtor (abiBreak : Bool) (sh : Shadow) (s : S.State) : S.State :=
  S.finish (if abiBreak = true ∧ sh.pv ≠ sh.orig then S.setSlot sh.pv s else s)

/-- `f(out_ptr(s))` or `f(inout_ptr(s))`, by the conversion to `Pointer*`: what the callee reads. -/
def typed (abiBreak : Bool) (dir : Direction) (callee : Callee) : Prog S.State Exn (List Ptr) := do
  let sh ← S.construct dir
  Prog.act fun s =>
    let (reads, p) := callee.run (S.slot s)
    (reads, S.dtor abiBreak sh (S.setSlot p s))

/-- By the conversion to `void**`, with `__abi_break_for_conv_ops`. -/
def untyped (dir : Direction) (callee : Callee) : Prog S.State Exn (List Ptr) := do
  let sh ← S.construct dir
  Prog.act fun s =>
    let (reads, p) := callee.run sh.pv
    (reads, S.dtor true { sh with pv := p } s)

/-- The two conversions come to the same from `s`; and where the adaptor is constructed, the callee reads
as if its slot were the smart pointer, and the smart pointer ends with what the callee leaves. -/
def RoutesAgree (dir : Direction) (callee : Callee) (s : S.State) : Prop :=
  S.untyped dir callee s = S.typed true dir callee s ∧
    ∀ sh s₁, S.construct dir s = (.ok sh, s₁) →
      ∃ s₂, S.typed true dir callee s = (.ok (callee.run (dir.initial (S.slot s))).1, s₂) ∧
        S.slot s₂ = (callee.run (dir.initial (S.slot s))).2

end Specialisation

/-! ## The stored pointer -/

section

variable {V : Type} [DecidableEq V] {E : Env} {m : Mode} {s s' : Mem V} {x : V} {d : Deleter} {a : Source}

theorem reset_ok (hreset : reset m .shared (.inl x) s = (.ok (), s')) :
    s'.obj (.inl x) = some ⟨.shared, none, none⟩ := by
  have hreset' := hreset
  rw [reset, swapTemporary] at hreset'
  obtain ⟨_, t, hmake, hswap⟩ := Prog.bind_eq_ok.mp hreset'
  rcases create_cases (.inr .tmp) ⟨.shared, none, none⟩ s with he | ⟨hfree, he⟩
  · rw [defaultCtor, he] at hmake
    cases hmake
  · rw [defaultCtor, he] at hmake
    cases hmake
    have hne : (.inl x : Ref V) ≠ .inr .tmp := by simp
    have htmp := get_apply (Mem.set_obj s (.inr .tmp) (some ⟨.shared, none, none⟩)) rfl
    rcases get_cases .shared (.inl x) (s.set (.inr .tmp) (some ⟨.shared, none, none⟩)) with he | ⟨h, hx, hk, he⟩
    · rw [Prog.atExit, swap, Prog.bind_apply, htmp] at hswap
      simp only [Prog.bind_apply, he] at hswap
      cases hswap
    · rw [Mem.set_obj_of_ne _ hne] at hx
      rw [reset_apply hx hk hfree] at hreset
      cases hreset
      exact Mem.set_obj ..

theorem outPtrCtor_ok (hctor : outPtrCtor E m (.inl x) d a s = (.ok (), s')) :
    ∃ pi, s'.obj (.inl x) = some ⟨.shared, none, pi⟩ := by
  rw [outPtrCtor] at hctor
  obtain ⟨_, s₁, hreset, hctor⟩ := Prog.bind_eq_ok.mp hctor
  have hx := reset_ok hreset
  obtain ⟨b, s₂, halloc, hctor⟩ := Prog.bind_eq_ok.mp hctor
  obtain ⟨h, s₃, hget, hput⟩ := Prog.bind_eq_ok.mp hctor
  have hobj : s₂.obj = s₁.obj := (congrArg (fun r => r.2.obj) halloc).symm
  rcases get_cases .shared (.inl x) s₂ with he | ⟨h', hx', -, he⟩
  · rw [he] at hget
    cases hget
  · rw [he] at hget
    cases hget
    rw [hobj, hx] at hx'
    cases hx'
    cases hput
    exact ⟨some b, Mem.set_obj ..⟩

theorem sharedImpl_ok {sh : Shadow} (hctor : sharedImpl E m x d a s = (.ok sh, s')) :
    sh = ⟨none, none⟩ ∧ ∃ pi, s'.obj (.inl x) = some ⟨.shared, none, pi⟩ := by
  rw [sharedImpl] at hctor
  obtain ⟨_, s₁, hctor, hget⟩ := Prog.bind_eq_ok.mp hctor
  obtain ⟨pi, hx⟩ := outPtrCtor_ok hctor
  rw [Prog.bind_apply, get_apply hx rfl] at hget
  cases hget
  exact ⟨rfl, pi, hx⟩

/-- The destructor of the adaptor leaves the stored pointer. -/
theorem slot_outPtrDtor (s : Mem V) : (outPtrDtor (.inl x) s).slot x = s.slot x := by
  unfold outPtrDtor
  split
  next => rfl
  next hx => simp [Mem.slot, hx, Mem.set]
  next => rfl

theorem Mem.setSlot_slot (s : Mem V) : s.setSlot x (s.slot x) = s := by
  have hobj : (s.obj (.inl x)).map (fun h => { h with ptr := s.slot x }) = s.obj (.inl x) := by
    rw [Mem.slot]
    cases s.obj (.inl x) with
    | none => rfl
    | some h => rfl
  rw [Mem.setSlot, hobj, Mem.set, Function.update_eq_self]

theorem Mem.slot_setSlot {h : Handle} (hx : s.obj (.inl x) = some h) (p : Ptr) : (s.setSlot x p).slot x = p := by
  rw [Mem.slot, Mem.setSlot, Mem.set_obj, hx]
  rfl

end

namespace Specialisation

variable {V D : Type} [DecidableEq V] {S : Specialisation V D}

theorem setSlot_slot (s : S.State) : S.setSlot (S.slot s) s = s := by
  cases S with
  | raw => rfl
  | unique d => rfl
  | shared E m x d a => exact Mem.setSlot_slot s

theorem slot_finish (s : S.State) : S.slot (S.finish s) = S.slot s := by
  cases S with
  | raw => rfl
  | unique d =>
    cases d with
    | none => rfl
    | some d =>
      have hptr (u : UniqPtrImpl D) : (if u.ptr = none then u else { u with del := d }).ptr = u.ptr := by
        split
        next => rfl
        next => rfl
      exact hptr s
  | shared E m x d a => exact slot_outPtrDtor s

/-- The two members start as the stored pointer, which is what the callee is to find; and it can be written. -/
structure Initialised (S : Specialisation V D) (dir : Direction) (s : S.State) (sh : Shadow) (s₁ : S.State) :
    Prop where
  pv : sh.pv = S.slot s₁
  orig : sh.orig = S.slot s₁
  slot : S.slot s₁ = dir.initial (S.slot s)
  set : ∀ p, S.slot (S.setSlot p s₁) = p

theorem construct_ok {dir : Direction} (hS : S.Allows dir) {s s₁ : S.State} {sh : Shadow}
    (hc : S.construct dir s = (.ok sh, s₁)) (hinit : S = .unique none → dir = .inout → S.slot s = none) :
    Initialised S dir s sh s₁ := by
  cases S with
  | raw =>
    cases dir with
    | out =>
      cases hc
      exact ⟨rfl, rfl, rfl, fun _ => rfl⟩
    | inout =>
      cases hc
      exact ⟨rfl, rfl, rfl, fun _ => rfl⟩
  | unique d =>
    cases dir with
    | out =>
      cases d with
      | none =>
        cases hc
        exact ⟨rfl, rfl, rfl, fun _ => rfl⟩
      | some d =>
        cases hc
        exact ⟨rfl, rfl, rfl, fun _ => rfl⟩
    | inout =>
      cases d with
      | none =>
        have hs := hinit rfl rfl
        cases hc
        exact ⟨hs.symm, hs.symm, rfl, fun _ => rfl⟩
      | some d =>
        cases hc
        exact ⟨rfl, rfl, rfl, fun _ => rfl⟩
  | shared E m x d a =>
    cases dir with
    | inout => exact hS.elim
    | out =>
      obtain ⟨sh', s₂, hctor, hact⟩ := Prog.bind_eq_ok.mp hc
      cases hact
      obtain ⟨rfl, pi, hx⟩ := sharedImpl_ok hctor
      have hslot : Mem.slot x s₂ = none := congrArg (Option.bind · Handle.ptr) hx
      exact ⟨hslot.symm, hslot.symm, hslot, Mem.slot_setSlot hx⟩

section

variable {dir : Direction} {callee : Callee} {s s₁ : S.State} {sh : Shadow}

theorem typed_apply (hc : S.construct dir s = (.ok sh, s₁)) (abiBreak : Bool) :
    S.typed abiBreak dir callee s =
      (.ok (callee.run (S.slot s₁)).1, S.dtor abiBreak sh (S.setSlot (callee.run (S.slot s₁)).2 s₁)) := by
  rw [typed, Prog.bind_apply, hc]
  rfl

theorem untyped_apply (hc : S.construct dir s = (.ok sh, s₁)) :
    S.untyped dir callee s =
      (.ok (callee.run sh.pv).1, S.dtor true { sh with pv := (callee.run sh.pv).2 } s₁) := by
  rw [untyped, Prog.bind_apply, hc]
  rfl

/-- Where the adaptor is not constructed, no callee is called. -/
theorem routesAgree_of_not_ok (hc : ∀ sh s₁, S.construct dir s ≠ (.ok sh, s₁)) :
    S.RoutesAgree dir callee s := by
  refine ⟨?_, fun sh s₁ h => (hc sh s₁ h).elim⟩
  obtain ⟨r, t, he⟩ : ∃ r t, S.construct dir s = (r, t) := ⟨_, _, rfl⟩
  cases r with
  | ok sh => exact (hc sh t he).elim
  | throw e => rw [untyped, typed, Prog.bind_apply, Prog.bind_apply, he]
  | stop => rw [untyped, typed, Prog.bind_apply, Prog.bind_apply, he]

/-- With both members alike, the destructor does not store one. -/
theorem dtor_of_eq (abiBreak : Bool) (hsh : sh.pv = sh.orig) (s : S.State) : S.dtor abiBreak sh s = S.finish s := by
  rw [dtor, if_neg]
  intro h
  exact h.2 hsh

/-- What is left in `_M_pv` is stored, if that is a change of it or not. -/
theorem dtor_of_slot {orig : Ptr} (horig : orig = S.slot s) (p : Ptr) :
    S.dtor true ⟨p, orig⟩ s = S.finish (S.setSlot p s) := by
  rw [dtor]
  split
  next => rfl
  next h =>
    have hp : p = S.slot s := by
      by_contra hne
      exact h ⟨rfl, fun he => hne (he.trans horig)⟩
    rw [hp, setSlot_slot]

theorem Initialised.routesAgree (hi : Initialised S dir s sh s₁) (hc : S.construct dir s = (.ok sh, s₁)) :
    S.RoutesAgree dir callee s := by
  have htyped : S.typed true dir callee s = _ := typed_apply hc true
  rw [dtor_of_eq true (hi.pv.trans hi.orig.symm)] at htyped
  constructor
  · rw [untyped_apply hc, htyped, hi.pv, dtor_of_slot hi.orig]
  · intro sh' s₁' hc'
    rw [hi.slot] at htyped
    exact ⟨_, htyped, by rw [slot_finish, hi.set]⟩

end

end Specialisation

/-! ## The two conversions -/

/-- It reads its slot before it writes it, or writes it and leaves null. -/
def Callee.NeedsPointer : Callee → Prop
  | done => False
  | read _ => True
  | write q next => (next.run q).2 = none

section

variable {V D : Type} [DecidableEq V] {callee : Callee} {u : UniqPtrImpl D}

theorem unique_typed :
    (Specialisation.unique none : Specialisation V D).typed true .inout callee u =
      (.ok (callee.run u.ptr).1, ({ u with ptr := (callee.run u.ptr).2 } : UniqPtrImpl D)) := rfl

/-- With `_M_pv` and `_M_p_orig` null, the stored pointer is not read, and null is not stored. -/
theorem unique_untyped :
    (Specialisation.unique none : Specialisation V D).untyped .inout callee u =
      (.ok (callee.run none).1,
        (if (callee.run none).2 = none then u else { u with ptr := (callee.run none).2 } : UniqPtrImpl D)) := by
  have hdtor (p : Ptr) : (Specialisation.unique none : Specialisation V D).dtor true ⟨p, none⟩ u =
      (if p = none then u else { u with ptr := p } : UniqPtrImpl D) := by
    cases p with
    | none => rfl
    | some p => rfl
  exact congrArg (Prod.mk _) (hdtor _)

theorem unique_routesAgree_iff (hu : u.ptr ≠ none) :
    (Specialisation.unique none : Specialisation V D).RoutesAgree .inout callee u ↔ ¬ callee.NeedsPointer := by
  have hiff : (Specialisation.unique none : Specialisation V D).RoutesAgree .inout callee u ↔
      (callee.run none).1 = (callee.run u.ptr).1 ∧
        (if (callee.run none).2 = none then u else { u with ptr := (callee.run none).2 }) =
          { u with ptr := (callee.run u.ptr).2 } := by
    constructor
    · intro h
      have he := unique_untyped.symm.trans (h.1.trans unique_typed)
      exact ⟨Result.ok.inj (Prod.mk.inj he).1, (Prod.mk.inj he).2⟩
    · intro ⟨hreads, hs⟩
      have he := congrArg₂ Prod.mk (congrArg (Result.ok (ε := Exn)) hreads) hs
      exact ⟨unique_untyped.trans (he.trans unique_typed.symm), fun _ _ _ => ⟨_, unique_typed, rfl⟩⟩
  rw [hiff]
  cases callee with
  | done => simp [Callee.run, Callee.NeedsPointer]
  | read next => simp [Callee.run, Callee.NeedsPointer, Ne.symm hu]
  | write q next =>
    by_cases h : (next.run q).2 = none
    · have hne : u ≠ { u with ptr := none } := fun he => hu (congrArg UniqPtrImpl.ptr he)
      simp [Callee.run, Callee.NeedsPointer, h, hne]
    · simp [Callee.run, Callee.NeedsPointer, h]

end

/-- **The conversion to `void**` does what the conversion to `Pointer*` does**, for each specialisation and each
callee, but for `inout_ptr` of a `unique_ptr` without a replacement deleter: there it does so if the `unique_ptr`
is empty, or if the callee neither reads its slot first nor leaves null in it. -/
theorem routesAgree_iff {V D : Type} [DecidableEq V] {S : Specialisation V D} {dir : Direction} (hS : S.Allows dir)
    (callee : Callee) (s : S.State) :
    S.RoutesAgree dir callee s ↔
      ¬ (S = .unique none ∧ dir = .inout ∧ S.slot s ≠ none ∧ callee.NeedsPointer) := by
  by_cases hinit : S = .unique none ∧ dir = .inout ∧ S.slot s ≠ none
  · obtain ⟨rfl, rfl, hs⟩ := hinit
    rw [unique_routesAgree_iff hs]
    simp [hs]
  · have hinit' (h : S = .unique none) (h' : dir = .inout) : S.slot s = none := by
      by_contra hs
      exact hinit ⟨h, h', hs⟩
    refine iff_of_true ?_ fun h => hinit ⟨h.1, h.2.1, h.2.2.1⟩
    by_cases hc : ∃ sh s₁, S.construct dir s = (.ok sh, s₁)
    · obtain ⟨sh, s₁, hc⟩ := hc
      exact (Specialisation.construct_ok hS hc hinit').routesAgree hc
    · exact Specialisation.routesAgree_of_not_ok fun sh s₁ h => hc ⟨sh, s₁, h⟩

/-- `inout_ptr` of a `unique_ptr` without a replacement deleter: a stored pointer is not read, and a null is lost. -/
theorem inout_unique_loses :
    let S : Specialisation Empty Nat := .unique none
    let u : UniqPtrImpl Nat := ⟨some 8, 1, []⟩
    S.Allows .inout ∧ ¬ S.RoutesAgree .inout (.read fun _ => .done) u ∧
      S.untyped .inout (.write none .done) u = (.ok [], u) ∧
      S.typed true .inout (.write none .done) u = (.ok [], (⟨none, 1, []⟩ : UniqPtrImpl Nat)) := by
  refine ⟨trivial, ?_, rfl, rfl⟩
  intro h
  have he : (Result.ok [none] : Result Exn (List Ptr)) = .ok [some 8] := congrArg Prod.fst h.1
  cases he

/-- With a pointer left, the same callee does no harm. -/
theorem inout_unique_replaced :
    let S : Specialisation Empty Nat := .unique none
    S.Allows .inout ∧ S.RoutesAgree .inout (.write none (.read fun _ => .write (some 9) .done))
      (⟨some 8, 1, []⟩ : UniqPtrImpl Nat) :=
  ⟨trivial, (routesAgree_iff (show Specialisation.Allows (.unique none) .inout from trivial) _ _).mpr
    fun h => Option.some_ne_none 9 h.2.2.2⟩

/-! ## The primary template and the specialisation -/

/-- The pointers that the `unique_ptr` is to delete, once each: what the callee leaves, and for `out_ptr` what was
stored first. `inout_ptr` hands that over to the callee. -/
def Direction.acquired (p left : Ptr) : Direction → List Nat
  | out => p.toList ++ left.toList
  | inout => left.toList

section

variable {V D : Type} [DecidableEq V] {u : UniqPtrImpl D}

theorem UniqPtrImpl.reset_of_empty (hu : u.ptr = none) (p : Ptr) : u.reset p = { u with ptr := p } := by
  simp [reset, callDel, hu]

theorem UniqPtrImpl.assignNew_of_empty (hu : u.ptr = none) (p : Ptr) (d : D) :
    u.assignNew p d = { u with ptr := p, del := d } := by
  simp [assignNew, moveAssign, release, destroy, reset_of_empty hu, callDel]

/-- The `unique_ptr` is empty by the time of the destructor, so that what was stored in it is not deleted again. -/
theorem Primary.dtor_of_empty (hu : u.ptr = none) (d : Option D) (p : Ptr) :
    Primary.dtor d p u = ⟨p, if p = none then u.del else d.getD u.del, u.calls⟩ := by
  cases p with
  | none =>
    simp only [dtor, if_true, ← hu]
  | some q =>
    cases d with
    | none => exact UniqPtrImpl.reset_of_empty hu _
    | some d => exact UniqPtrImpl.assignNew_of_empty hu _ _

theorem Primary.init_eq (u : UniqPtrImpl D) (dir : Direction) :
    Primary.init u dir = (dir.initial u.ptr,
      ⟨none, u.del, u.calls ++ (dir.acquired u.ptr none).map fun q => (u.del, q)⟩) := by
  cases dir with
  | out => simp [init, UniqPtrImpl.reset, UniqPtrImpl.callDel, Direction.initial, Direction.acquired]
  | inout => simp [init, UniqPtrImpl.release, Direction.initial, Direction.acquired]

theorem unique_construct (dir : Direction) (d : Option D) (u : UniqPtrImpl D) :
    ∃ p, (Specialisation.unique d : Specialisation V D).construct dir u =
      (.ok ⟨p, p⟩, match dir with | .out => u.reset none | .inout => u) := by
  cases dir with
  | out =>
    cases d with
    | none => exact ⟨_, rfl⟩
    | some d => exact ⟨_, rfl⟩
  | inout =>
    cases d with
    | none => exact ⟨_, rfl⟩
    | some d => exact ⟨_, rfl⟩

/-- The specialisation writes in place, from where the primary template starts. -/
theorem unique_typed_apply (dir : Direction) (d : Option D) (callee : Callee) (u : UniqPtrImpl D) (abiBreak : Bool) :
    (Specialisation.unique d : Specialisation V D).typed abiBreak dir callee u =
      (.ok (callee.run (Primary.init u dir).1).1, (Specialisation.unique d : Specialisation V D).finish
        { (Primary.init u dir).2 with ptr := (callee.run (Primary.init u dir).1).2 }) := by
  obtain ⟨p, hc⟩ := unique_construct (V := V) dir d u
  rw [Specialisation.typed_apply hc, Specialisation.dtor_of_eq _ rfl]
  cases dir with
  | out => rfl
  | inout => rfl

/-- What is left by `~_Impl()` of the specialisation. -/
theorem finish_unique (d : Option D) (u : UniqPtrImpl D) :
    (Specialisation.unique d : Specialisation V D).finish u =
      (⟨u.ptr, if u.ptr = none then u.del else d.getD u.del, u.calls⟩ : UniqPtrImpl D) := by
  obtain ⟨p, del, calls⟩ := u
  cases d with
  | none =>
    simp only [Option.getD_none, ite_self]
    rfl
  | some d =>
    cases p with
    | none => rfl
    | some q => rfl

theorem Primary.typed_eq (dir : Direction) (d : Option D) (callee : Callee) (u : UniqPtrImpl D) :
    Primary.typed dir d callee u =
      ((callee.run (dir.initial u.ptr)).1, ⟨(callee.run (dir.initial u.ptr)).2,
        if (callee.run (dir.initial u.ptr)).2 = none then u.del else d.getD u.del,
        u.calls ++ (dir.acquired u.ptr none).map fun q => (u.del, q)⟩) := by
  simp only [Primary.typed, Primary.init_eq]
  rw [Primary.dtor_of_empty rfl]

theorem Direction.acquired_eq (dir : Direction) (p left : Ptr) :
    dir.acquired p left = dir.acquired p none ++ left.toList := by
  cases dir with
  | out => simp [acquired]
  | inout => rfl

end

/-- **The specialisation for a `unique_ptr` does what the primary template does.** The callee reads the same, and the
same `unique_ptr` is left, after the same calls of the same deleters. It holds what the callee left, with the
replacement deleter unless that is null; and each pointer that it acquired is deleted once, by the time it is
destroyed. -/
theorem unique_agrees_with_primary {V D : Type} [DecidableEq V] (dir : Direction) (d : Option D) (callee : Callee)
    (u : UniqPtrImpl D) (abiBreak : Bool) :
    let (reads, u') := Primary.typed dir d callee u
    let left := (callee.run (dir.initial u.ptr)).2
    (Specialisation.unique d : Specialisation V D).typed abiBreak dir callee u = (.ok reads, u') ∧
      reads = (callee.run (dir.initial u.ptr)).1 ∧ u'.ptr = left ∧
      u'.del = (if left = none then u.del else d.getD u.del) ∧
      u'.calls = u.calls ++ (dir.acquired u.ptr none).map (fun q => (u.del, q)) ∧
      u'.destroy.calls = u'.calls ++ left.toList.map (fun q => (u'.del, q)) ∧
      u'.destroy.calls.map Prod.snd = u.calls.map Prod.snd ++ dir.acquired u.ptr left := by
  rw [unique_typed_apply, finish_unique, Primary.init_eq, Primary.typed_eq]
  refine ⟨rfl, rfl, rfl, rfl, rfl, rfl, ?_⟩
  rw [dir.acquired_eq u.ptr (callee.run (dir.initial u.ptr)).2]
  simp [UniqPtrImpl.destroy, UniqPtrImpl.callDel, Function.comp_def]

end SharedPtr.Seq
