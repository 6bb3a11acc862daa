/-
Every member function of the smart pointers keeps the invariant of the
control blocks, with the objects in memory as the handles that are counted:
at the end of a function, whether it returns or throws, each block's counters
are the numbers of the objects that refer to it.
-/
import SharedPtr.Handles
import SharedPtr.HeapLedger
import Mathlib.Algebra.Order.BigOperators.Group.Finset

namespace SharedPtr.Seq

open Lib (Prog Result)
open Lib.Prog (Keeps)

variable {V : Type} [DecidableEq V]

/-- Whether the handle is of class `k` and refers to `b`. -/
def Handle.owns (h : Handle) (k : Kind) (b : Nat) : Nat := if k = h.kind ∧ h.pi = some b then 1 else 0

section

variable [Fintype V]

/-- The handles in memory. -/
def Mem.owners (s : Mem V) : Owners := fun k b => ∑ r, (s.obj r).elim 0 (·.owns k b)

/-- The invariant, with `hand` in hand. -/
def Mem.Ok (hand : Resource → Nat) (s : Mem V) : Prop := HeapOk s.owners hand s.heap

/-- An invariant of the blocks, with the handles in memory. -/
def Mem.Holds (I : Owners → Heap → Prop) (s : Mem V) : Prop := I s.owners s.heap

variable {I : Owners → Heap → Prop} {s : Mem V} {x r : Ref V} {h : Handle} {k : Kind} {m : Mode}

omit [DecidableEq V] in
theorem Mem.Ok.empty : (Mem.empty : Mem V).Ok fun _ => 0 := by
  have h : (Mem.empty : Mem V).owners = fun _ _ => 0 := by
    funext k b
    simp [Mem.owners, Mem.empty]
  rw [Mem.Ok, h]
  exact HeapOk.empty

omit [DecidableEq V] in
theorem holds_empty : (Mem.empty : Mem V).Holds BlocksOk := HeapOk.blocksOk Mem.Ok.empty

omit [DecidableEq V] in
theorem Mem.owners_le (s : Mem V) (k : Kind) (b : Nat) : s.owners k b ≤ Fintype.card (Ref V) := by
  have h : ∀ r, (s.obj r).elim 0 (·.owns k b) ≤ 1 := by
    intro r
    cases s.obj r with
    | none => exact Nat.zero_le 1
    | some h =>
      simp only [Option.elim, Handle.owns]
      split <;> omega
  calc s.owners k b ≤ ∑ _r : Ref V, 1 := Finset.sum_le_sum fun r _ => h r
    _ = Fintype.card (Ref V) := by simp

/-- Where there is no object, one more. -/
theorem Mem.owners_create (hx : s.obj x = none) : (s.set x (some h)).owners = s.owners.add h.kind h.pi := by
  funext k b
  obtain ⟨rest, hs, hu⟩ := Lib.exists_sum_update (fun o : Option Handle => o.elim 0 (·.owns k b)) s.obj x
  rw [hx] at hs
  simp only [Mem.owners, Mem.set, Owners.add]
  rw [hs, hu]
  simp only [Option.elim, Handle.owns]
  omega

/-- One object among the others. -/
theorem Mem.owners_remove (hx : s.obj x = some h) : s.owners = (s.set x none).owners.add h.kind h.pi := by
  have hset : s = (s.set x none).set x (some h) := by
    simp [Mem.set, ← hx]
  conv_lhs => rw [hset]
  exact Mem.owners_create (s.set_obj x none)

/-- The object `x` is assigned to. -/
theorem Mem.owners_put : (s.set x (some h)).owners = (s.set x none).owners.add h.kind h.pi := by
  rw [← Mem.owners_create (x := x) (s.set_obj x none), Mem.set_set]

theorem Mem.owners_ne_zero {b : Nat} (hx : s.obj x = some h) (hb : h.pi = some b) : s.owners h.kind b ≠ 0 := by
  rw [Mem.owners_remove hx]
  simp [Owners.add, hb]

omit [DecidableEq V] in
theorem useCount_eq_zero (ok : s.Holds BlocksOk) {b : Nat} :
    useCount m (some b) s.heap = 0 ↔ s.owners .shared b = 0 := by
  have hblk := ok.blocks b
  cases hb : s.heap.blocks b with
  | none =>
    rw [hb] at hblk
    simp [useCount, hb, hblk.1]
  | some blk =>
    rw [hb] at hblk
    rw [← hblk.1, ← eq_zero_iff]
    simp only [useCount, Option.bind_some, hb]
    cases m with
    | constEval => exact (BitVec.toInt_inj (y := 0))
    | runTime => exact Int.natCast_eq_zero.trans eq_zero_iff.symm

theorem Mem.owners_admits {kr : Kind} (hr : s.obj r = some h) (hk : h.kind = kr) (hkr : kr = .shared ∨ k = kr) :
    ∀ b, h.pi = some b → s.owners.admits k b := by
  intro b hb
  have hne := Mem.owners_ne_zero hr hb
  rw [hk] at hne
  cases kr with
  | shared => exact .inl hne
  | weak =>
    rcases hkr with h | h
    · cases h
    · exact .inr ⟨h, hne⟩

/-! ## The steps of the functions -/

omit [DecidableEq V] [Fintype V] in
theorem get_cases (k : Kind) (x : Ref V) (s : Mem V) :
    get k x s = (.stop, s) ∨ ∃ h, s.obj x = some h ∧ h.kind = k ∧ get k x s = (.ok h, s) := by
  unfold get
  split
  next => exact .inl rfl
  next h hx =>
    split
    next hk => exact .inr ⟨h, hx, hk, rfl⟩
    next => exact .inl rfl

omit [Fintype V] in
theorem create_cases (x : Ref V) (h : Handle) (s : Mem V) :
    create x h s = (.stop, s) ∨ s.obj x = none ∧ create x h s = (.ok (), s.set x (some h)) := by
  unfold create
  split
  next hx => exact .inr ⟨hx, rfl⟩
  next => exact .inl rfl

/-- A new object takes over a reference that is counted already. -/
theorem Mem.Holds.create {heap : Heap} (ok : I (s.owners.add h.kind h.pi) heap) :
    (Seq.create x h { s with heap := heap }).1 = .stop ∨ (Seq.create x h { s with heap := heap }).2.Holds I := by
  obtain he | ⟨hx, he⟩ := create_cases x h { s with heap := heap }
  · exact .inl (by rw [he])
  · rw [he]
    refine .inr ?_
    have ho : (Mem.set { s with heap := heap } x (some h)).owners = s.owners.add h.kind h.pi := Mem.owners_create hx
    rw [Mem.Holds, ho]
    exact ok

theorem destroyObject_holds (hI : Ledger I) (ok : s.Holds I) : (destroyObject m x s).Holds I := by
  unfold destroyObject
  split
  next => exact ok
  next h hx =>
    rw [Mem.Holds, Mem.owners_remove hx] at ok
    exact hI.dropCount ok

/-! ## Construction -/

theorem keeps_create (h0 : h.pi = none) : Keeps (Mem.Holds I) (create x h) := by
  intro s ok
  have ok' : I (s.owners.add h.kind h.pi) s.heap := by
    rw [h0, Owners.add_none]
    exact ok
  exact Mem.Holds.create ok'

theorem defaultCtor_keeps : Keeps (Mem.Holds I) (defaultCtor k x) := keeps_create rfl

/-- A new object gets a reference made by `c`. -/
theorem adds_create {c : Prog Heap Exn CountPtr} {g : CountPtr → Prog (Mem V) Exn Unit}
    (hc : AddsIn I s.owners k c s.heap)
    (hg : ∀ pi s', ∃ p, g pi s' = Seq.create x ⟨k, p, pi⟩ s') :
    ((onHeap c >>= g) s).1 = .stop ∨ ((onHeap c >>= g) s).2.Holds I := by
  rw [Prog.bind_apply, onHeap]
  unfold AddsIn at hc
  split at hc
  next pi h' he =>
    obtain ⟨p, hg⟩ := hg pi { s with heap := h' }
    simp only [he, hg]
    exact Mem.Holds.create hc
  next e h' he =>
    simp only [he]
    exact .inr hc
  next h' he => exact .inl (by simp only [he])

theorem copyCtor_keeps (hI : Ledger I) {kr : Kind} (hk : kr = .shared ∨ k = kr) :
    Keeps (Mem.Holds I) (copyCtor m k x kr r) := by
  intro s ok
  rcases get_cases kr r s with he | ⟨h, hr, hkr, he⟩
  · exact .inl (by simp [copyCtor, Prog.bind_apply, he])
  · have hadds := hI.copyCount_adds (m := m) ok (Mem.owners_admits (k := k) hr hkr hk)
    have := adds_create (x := x) hadds fun pi s' => ⟨h.ptr, rfl⟩
    rwa [copyCtor, Prog.bind_apply, he]

theorem aliasCtor_keeps (hI : Ledger I) {p : Ptr} : Keeps (Mem.Holds I) (aliasCtor m x r p) := by
  intro s ok
  rcases get_cases .shared r s with he | ⟨h, hr, hkr, he⟩
  · exact .inl (by simp [aliasCtor, Prog.bind_apply, he])
  · have hadds := hI.copyCount_adds (m := m) ok (Mem.owners_admits (k := .shared) hr hkr (.inl rfl))
    have := adds_create (x := x) hadds fun pi s' => ⟨p, rfl⟩
    rwa [aliasCtor, Prog.bind_apply, he]

theorem weakCtor_keeps (hI : Ledger I) : Keeps (Mem.Holds I) (weakCtor m x r) := by
  intro s ok
  rcases get_cases .weak r s with he | ⟨h, hr, hkr, he⟩
  · exact .inl (by simp [weakCtor, Prog.bind_apply, he])
  · have := adds_create (x := x) (hI.countOfWeak (m := m) (r := h.pi) ok) fun pi s' => ⟨h.ptr, rfl⟩
    rwa [weakCtor, Prog.bind_apply, he]

theorem lockCtor_keeps (hI : Ledger I) : Keeps (Mem.Holds I) (lockCtor m x r) := by
  intro s ok
  rcases get_cases .weak r s with he | ⟨h, hr, hkr, he⟩
  · exact .inl (by simp [lockCtor, Prog.bind_apply, he])
  · rw [lockCtor, Prog.bind_apply, he]
    exact adds_create (x := x) (hI.countOfWeakNothrow (m := m) (r := h.pi) ok) fun pi s' => ⟨_, rfl⟩

/-- A new object takes the reference of another one, which is left empty. -/
theorem take_keeps {p : Ptr} (s : Mem V) (ok : s.Holds I) (hr : s.obj r = some h) :
    ((Seq.create x { h with ptr := p } >>= fun _ => put r ⟨h.kind, none, none⟩) s).1 = .stop ∨
      ((Seq.create x { h with ptr := p } >>= fun _ => put r ⟨h.kind, none, none⟩) s).2.Holds I := by
  rw [Prog.bind_apply]
  obtain he | ⟨hx, he⟩ := create_cases x { h with ptr := p } s
  · exact .inl (by rw [he])
  · have hne : r ≠ x := by
      rintro rfl
      rw [hx] at hr
      cases hr
    have hr' : (s.set x (some { h with ptr := p })).obj r = some h := by
      rw [Mem.set_obj_of_ne _ hne, hr]
    have ho : ((s.set x (some { h with ptr := p })).set r (some ⟨h.kind, none, none⟩)).owners = s.owners := by
      rw [Mem.owners_put, Owners.add_none]
      refine Owners.add_cancel h.kind h.pi ?_
      rw [← Mem.owners_remove hr', Mem.owners_create hx]
    rw [he]
    refine .inr ?_
    show Mem.Holds I ((s.set x (some { h with ptr := p })).set r _)
    rw [Mem.Holds, ho]
    exact ok

theorem moveCtor_keeps : Keeps (Mem.Holds I) (moveCtor k x r) := by
  intro s ok
  rcases get_cases k r s with he | ⟨h, hr, rfl, he⟩
  · exact .inl (by simp [moveCtor, Prog.bind_apply, he])
  · rw [moveCtor, Prog.bind_apply, he]
    exact take_keeps (p := h.ptr) s ok hr

theorem aliasMoveCtor_keeps {p : Ptr} : Keeps (Mem.Holds I) (aliasMoveCtor x r p) := by
  intro s ok
  rcases get_cases .shared r s with he | ⟨h, hr, hkr, he⟩
  · exact .inl (by simp [aliasMoveCtor, Prog.bind_apply, he])
  · have := take_keeps (x := x) (p := p) s ok hr
    rw [aliasMoveCtor, Prog.bind_apply, he]
    rwa [hkr] at this

theorem ownCtor_keeps {p : Ptr} {rc : Prog Heap Exn CountPtr}
    (hrc : ∀ own h, I own h → AddsIn I own .shared rc h) : Keeps (Mem.Holds I) (ownCtor x p rc) :=
  fun _ ok => adds_create (x := x) (hrc _ _ ok) fun _ _ => ⟨p, rfl⟩

/-! ## Assignment and modifiers -/

theorem swap_keeps {y : Ref V} : Keeps (Mem.Holds I) (swap k x y) := by
  intro s ok
  rcases get_cases k x s with he | ⟨hx, hsx, -, he⟩
  · exact .inl (by simp [swap, Prog.bind_apply, he])
  rcases get_cases k y s with he' | ⟨hy, hsy, -, he'⟩
  · exact .inl (by simp [swap, Prog.bind_apply, he, he'])
  refine .inr ?_
  have hs : (swap k x y s).2 = { s with obj := s.obj ∘ Equiv.swap y x } := by
    simp only [swap, Prog.bind_apply, he, he', put, Prog.modify_apply, Mem.set]
    rw [Equiv.comp_swap_eq_update, hsx, hsy]
  have ho : (swap k x y s).2.owners = s.owners := by
    funext k' b
    rw [hs]
    exact Equiv.sum_comp (Equiv.swap y x) fun r => (s.obj r).elim 0 (·.owns k' b)
  rw [Mem.Holds, ho, hs]
  exact ok

theorem copyAssign_keeps (hI : Ledger I) {kr : Kind} (hk : kr = .shared ∨ k = kr) :
    Keeps (Mem.Holds I) (copyAssign m k x kr r) := by
  intro s ok
  rcases get_cases kr r s with he | ⟨h, hr, hkr, he⟩
  · exact .inl (by simp [copyAssign, Prog.bind_apply, he])
  rcases get_cases k x s with he' | ⟨t, hx, rfl, he'⟩
  · exact .inl (by simp [copyAssign, Prog.bind_apply, he, he'])
  -- `__r` is read again after the pointer was assigned, which leaves its reference
  obtain ⟨h', hr', hpi, hk'⟩ : ∃ h', (s.set x (some { t with ptr := h.ptr })).obj r = some h' ∧ h'.pi = h.pi ∧
      h'.kind = kr := by
    by_cases hrx : r = x
    · subst hrx
      rw [hx] at hr
      cases hr
      exact ⟨_, Mem.set_obj .., rfl, hkr⟩
    · exact ⟨h, by rw [Mem.set_obj_of_ne _ hrx, hr], rfl, hkr⟩
  have hadm := Mem.owners_admits (k := t.kind) hr hkr hk
  rw [Mem.Holds, Mem.owners_remove hx] at ok
  rw [Mem.owners_remove hx] at hadm
  have hget : get kr r (s.set x (some { t with ptr := h.ptr })) = (.ok h', s.set x (some { t with ptr := h.ptr })) := by
    simp only [get, hr', hk', if_true]
  obtain hc | ⟨heap, hc, ok'⟩ := hI.assignCount (m := m) (k := t.kind) (r := h'.pi) ok
    fun b hb => hadm b (by rw [← hpi, hb])
  · exact .inl (by simp [copyAssign, Prog.bind_apply, he, he', put, hget, onHeap, hc])
  · have hs : copyAssign m t.kind x kr r s =
        (.ok (), { s.set x (some ⟨t.kind, h'.ptr, h'.pi⟩) with heap := heap }) := by
      simp only [copyAssign, Prog.bind_apply, he, he', put, Prog.modify_apply, hget, onHeap, Mem.set_heap, hc]
      simp [Mem.set]
    rw [hs]
    refine .inr ?_
    rw [Mem.Holds, show Mem.owners { s.set x (some ⟨t.kind, h'.ptr, h'.pi⟩) with heap := heap } =
      (s.set x (some ⟨t.kind, h'.ptr, h'.pi⟩)).owners from rfl, Mem.owners_put]
    exact ok'

theorem swapTemporary_keeps (hI : Ledger I) {make : Ref V → Prog (Mem V) Exn Unit}
    (hmake : ∀ x, Keeps (Mem.Holds I) (make x)) : Keeps (Mem.Holds I) (swapTemporary m k make x) :=
  (hmake _).bind fun _ => swap_keeps.atExit fun _ => destroyObject_holds hI

theorem moveAssign_keeps (hI : Ledger I) : Keeps (Mem.Holds I) (moveAssign m k x r) :=
  ifConstexpr_elim Keeps.stop (swapTemporary_keeps hI fun _ => moveCtor_keeps)

theorem reset_keeps (hI : Ledger I) : Keeps (Mem.Holds I) (reset m k x) :=
  swapTemporary_keeps hI fun _ => defaultCtor_keeps

theorem weakMoveAssignFrom_keeps (hI : Ledger I) : Keeps (Mem.Holds I) (weakMoveAssignFrom m x r) := by
  intro s ok
  rcases get_cases .weak r s with he | ⟨h, hr, hkh, he⟩
  · exact .inl (by simp [weakMoveAssignFrom, Prog.bind_apply, he])
  rcases get_cases .weak x s with he' | ⟨t, hx, hkt, he'⟩
  · exact .inl (by simp [weakMoveAssignFrom, Prog.bind_apply, he, he'])
  have hs : weakMoveAssignFrom m x r s = (.ok (),
      { (s.set x (some ⟨.weak, h.ptr, h.pi⟩)).set r (some ⟨.weak, none, none⟩) with
        heap := dropCount m .weak t.pi s.heap }) := by
    simp only [weakMoveAssignFrom, Prog.bind_apply, he, he', put, Prog.modify_apply, onHeap, Mem.set_heap]
    simp [Mem.set]
  rw [hs]
  refine .inr ?_
  rw [Mem.Holds, show Mem.owners { (s.set x (some ⟨.weak, h.ptr, h.pi⟩)).set r (some ⟨.weak, none, none⟩) with
      heap := dropCount m .weak t.pi s.heap } =
    ((s.set x (some ⟨.weak, h.ptr, h.pi⟩)).set r (some ⟨.weak, none, none⟩)).owners from rfl]
  have hown : s.owners = (((s.set x (some ⟨.weak, h.ptr, h.pi⟩)).set r
      (some ⟨.weak, none, none⟩)).owners).add .weak t.pi := by
    have ht : s.owners = (s.set x none).owners.add .weak t.pi := hkt ▸ Mem.owners_remove hx
    rw [Mem.owners_put, Owners.add_none]
    by_cases hrx : r = x
    · rw [hrx, Mem.set_set]
      exact ht
    · have hr' : (s.set x (some ⟨.weak, h.ptr, h.pi⟩)).obj r = some h := by
        rw [Mem.set_obj_of_ne _ hrx, hr]
      have hh : (s.set x (some ⟨.weak, h.ptr, h.pi⟩)).owners =
          ((s.set x (some ⟨.weak, h.ptr, h.pi⟩)).set r none).owners.add .weak h.pi := by
        have ho := Mem.owners_remove hr'
        rwa [hkh] at ho
      refine Owners.add_cancel .weak h.pi ?_
      calc s.owners.add .weak h.pi
          = ((s.set x none).owners.add .weak h.pi).add .weak t.pi := by rw [ht, Owners.add_comm]
        _ = (s.set x (some ⟨.weak, h.ptr, h.pi⟩)).owners.add .weak t.pi := by rw [Mem.owners_put]
        _ = _ := by rw [hh, Owners.add_comm]
  rw [Mem.Holds, hown] at ok
  exact hI.dropCount ok

end

end SharedPtr.Seq
