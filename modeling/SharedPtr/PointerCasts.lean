/-
The casts of shared pointers (`bits/shared_ptr.h`, `bits/shared_ptr_base.h`),
of an lvalue and of an rvalue, in programs with all other operations.

A cast of an rvalue takes the reference over, and counts nothing: it does what
the cast of the lvalue does followed by `reset()` of the argument, but for one
release (`movedCasts_like_copies`). Where a `dynamic_cast` gives null, the
argument stays as it is.
-/
import SharedPtr.LogIndependence
import SharedPtr.OutPtr

namespace SharedPtr.Seq

open Lib (Prog Result run Visits Along outputs)
open Lib.Prog (Keeps Commutes)

/-! ## The functions -/

section

variable {V : Type} [DecidableEq V] (m : Mode)

/-- `_Sp(__r, __p)` or `_Sp(std::move(__r), __p)`. -/
def castCtor (moved : Bool) (x r : Ref V) (p : Ptr) : Prog (Mem V) Exn Unit :=
  if moved then aliasMoveCtor x r p else aliasCtor m x r p

/-- A function that makes its result of `__r` and of what the cast `c` gives for `__r.get()`. -/
def pointerCast (moved : Bool) (c : Ptr → Ptr) (x r : Ref V) : Prog (Mem V) Exn Unit := do
  let h ← get .shared r
  castCtor m moved x r (c h.ptr)

def staticPointerCast (moved : Bool) (c : Ptr → Ptr) (x r : Ref V) : Prog (Mem V) Exn Unit := pointerCast m moved c x r

/-- A `const_cast` gives the same address. -/
def constPointerCast (moved : Bool) (x r : Ref V) : Prog (Mem V) Exn Unit := pointerCast m moved id x r

/-- A `reinterpret_cast` gives the same address. -/
def reinterpretPointerCast (moved : Bool) (x r : Ref V) : Prog (Mem V) Exn Unit :=
  ifConstexpr m false (pointerCast m moved id x r)

def dynamicPointerCast (moved : Bool) (c : Ptr → Ptr) (x r : Ref V) : Prog (Mem V) Exn Unit := do
  let h ← get .shared r
  if c h.ptr ≠ none then castCtor m moved x r (c h.ptr) else defaultCtor .shared x

end

/-- The casts, with what a `static_cast` or `dynamic_cast` makes of an address. -/
inductive PointerCast
  | static (c : Ptr → Ptr)
  | const
  | dynamic (c : Ptr → Ptr)
  | reinterpret

/-- What the cast makes of the stored pointer. -/
def PointerCast.apply : PointerCast → Ptr → Ptr
  | static c | dynamic c => c
  | const | reinterpret => id

/-- The result is empty, and not of the argument. -/
def PointerCast.fails (c : PointerCast) (p : Ptr) : Bool :=
  match c with
  | dynamic c => c p == none
  | _ => false

def PointerCast.isConstexpr : PointerCast → Bool
  | reinterpret => false
  | _ => true

inductive CastOp (V : Type)
  | op (o : AnyOp V)
  /-- `shared_ptr<T> x = static_pointer_cast<T>(r);` and the like, or of `std::move(r)` -/
  | cast (c : PointerCast) (moved : Bool) (x r : V)
  /-- `shared_ptr<T> x(static_cast<T*>(r.get()));` -/
  | own (c : Ptr → Ptr) (x r : V)

section

variable {V : Type} [DecidableEq V] (E : Env) (m : Mode)

def PointerCast.exec (moved : Bool) (x r : Ref V) : PointerCast → Prog (Mem V) Exn Unit
  | static c => staticPointerCast m moved c x r
  | const => constPointerCast m moved x r
  | dynamic c => dynamicPointerCast m moved c x r
  | reinterpret => reinterpretPointerCast m moved x r

def CastOp.exec : CastOp V → Prog (Mem V) Exn Unit
  | op o => o.exec E m
  | cast c moved x r => c.exec m moved (.inl x) (.inl r)
  | own c x r => do
    let h ← get .shared (.inl r)
    (Raw.ptr false (c h.ptr)).ctor E (.inl x)

/-- The state after an operation that ends. -/
def CastOp.step (s : Mem V) (o : CastOp V) : Option (Mem V) :=
  match o.exec E m s with
  | (.stop, _) => none
  | (_, s') => some s'

/-- The cast of a moved argument as the cast of the argument, which is reset then. -/
def CastOp.copied (s : Mem V) : CastOp V → List (CastOp V)
  | cast c true x r =>
    if (s.obj (.inl r)).any fun h => c.fails h.ptr then [cast c false x r]
    else [cast c false x r, op (.plain (.reset .shared r))]
  | o => [o]

end

/-- Whether it is a cast of a moved argument. -/
def CastOp.moves {V : Type} : CastOp V → Bool
  | cast _ moved _ _ => moved
  | _ => false

variable {V : Type} [DecidableEq V] {E : Env} {m : Mode} {x r : Ref V} {s s' : Mem V}

theorem PointerCast.exec_eq (c : PointerCast) (moved : Bool) (x r : Ref V) :
    c.exec m moved x r = ifConstexpr m c.isConstexpr (do
      let h ← get .shared r
      if c.fails h.ptr then defaultCtor .shared x else castCtor m moved x r (c.apply h.ptr)) := by
  cases c with
  | reinterpret => rfl
  | static | const => exact ifConstexpr_true.symm
  | dynamic c =>
    refine (congrArg (get .shared r >>= ·) (funext fun h => ?_)).trans ifConstexpr_true.symm
    by_cases hc : c h.ptr = none <;> simp [fails, apply, hc]

theorem CastOp.of_step {P : Mem V → Prop} {o : CastOp V} (h : o.step E m s = some s')
    (hk : (o.exec E m s).1 = .stop ∨ P (o.exec E m s).2) : P s' := by
  unfold CastOp.step at h
  split at h
  next => cases h
  next r u hr he =>
    cases h
    rw [he] at hk
    exact hk.resolve_left hr

/-! ## What programs with casts keep -/

theorem castCtor_keeps [Fintype V] {I : Owners → Heap → Prop} (hI : Ledger I) {moved : Bool} {p : Ptr} :
    Keeps (Mem.Holds I) (castCtor m moved x r p) := by
  cases moved with
  | false => exact aliasCtor_keeps hI
  | true => exact aliasMoveCtor_keeps

theorem pointerCast_keeps [Fintype V] {I : Owners → Heap → Prop} (hI : Ledger I) (c : PointerCast) {moved : Bool} :
    Keeps (Mem.Holds I) (c.exec m moved x r) := by
  rw [PointerCast.exec_eq]
  exact ifConstexpr_elim Keeps.stop (get_keeps.bind fun h => Keeps.ite defaultCtor_keeps (castCtor_keeps hI))

theorem castOp_keeps [Fintype V] (o : CastOp V) : Keeps (Mem.Holds BlocksOk) (o.exec E m) := by
  cases o with
  | op o => exact anyOp_keeps o
  | cast c moved x r => exact pointerCast_keeps ledger_blocksOk c
  | own c x r =>
    exact get_keeps.bind fun h s ok => ((Construction.raw (.ptr false (c h.ptr))).ctor_constructs E m (.inl x) s).holds ok

/-- No temporary of a function is there. -/
def Mem.TmpFree (s : Mem V) : Prop := s.obj (.inr .tmp) = none

/-- The temporary is no object of the program. -/
theorem tmpFree_frame {W : Ref V → Prop} (hW : ∀ y, W y → y ≠ .inr .tmp) :
    FrameOf (fun obj : Ref V → Option Handle => obj (.inr .tmp) = none) W := fun _ _ _ hy h =>
  (Function.update_of_ne (Ne.symm (hW _ hy)) ..).trans h

theorem destroyObject_self (x : Ref V) (s : Mem V) : (destroyObject m x s).obj x = none := by
  unfold destroyObject
  split
  next hx => exact hx
  next => exact Mem.set_obj ..

theorem swapTemporary_tmpFree {k : Kind} {make : Ref V → Prog (Mem V) Exn Unit}
    (hmake : ∀ s e, s.TmpFree → (make (.inr .tmp) s).1 = .throw e → (make (.inr .tmp) s).2.TmpFree) :
    Keeps Mem.TmpFree (swapTemporary m k make x) := by
  intro s hs
  have hthrow := hmake s
  rw [swapTemporary, Prog.bind_apply]
  cases hm : make (.inr .tmp) s with
  | mk res s₁ =>
    rw [hm] at hthrow
    cases res with
    | stop => exact .inl rfl
    | throw e => exact .inr (hthrow e hs rfl)
    | ok =>
      simp only [Prog.atExit]
      cases swap k (.inr .tmp) x s₁ with
      | mk res' s₂ =>
        cases res' with
        | stop => exact .inl rfl
        | throw | ok => exact .inr (destroyObject_self _ _)

theorem create_ne_throw (x : Ref V) (h : Handle) (s : Mem V) (e : Exn) : (create x h s).1 ≠ .throw e := by
  rcases create_cases x h s with he | ⟨-, he⟩ <;> simp [he]

theorem moveCtor_ne_throw (k : Kind) (x r : Ref V) (s : Mem V) (e : Exn) : (moveCtor k x r s).1 ≠ .throw e := by
  rcases get_cases k r s with he | ⟨h, -, -, he⟩
  · simp [moveCtor, Prog.bind_apply, he]
  · rcases create_cases x h s with hc | ⟨-, hc⟩ <;> simp [moveCtor, Prog.bind_apply, he, hc, put]

theorem Constructs.tmpFree {res : Result Exn Unit × Mem V} (hc : Constructs x s res) (hs : s.TmpFree) {e : Exn}
    (he : res.1 = .throw e) : res.2.TmpFree := by
  cases hc with
  | failed => exact hs
  | stopped | empty | made => cases he

theorem anyOp_tmpFree (o : AnyOp V) : Keeps Mem.TmpFree (o.exec E m) := by
  have hprogram : ∀ y : V, Sum.inl y ≠ (.inr .tmp : Ref V) := nofun
  have hframe := tmpFree_frame (V := V) (W := (· ≠ .inr .tmp)) fun _ h => h
  have hI := stable_true.toSteady
  have drop : ∀ {c : Prog (Mem V) Exn Unit},
      Keeps (Both (fun _ => True) fun obj => obj (.inr .tmp) = none) c → Keeps Mem.TmpFree c := fun hc s hs =>
    (hc s ⟨trivial, hs⟩).imp_right And.right
  have hctor : ∀ (c : Construction) (x : V), Keeps Mem.TmpFree (c.ctor E m (.inl x)) := fun c x =>
    drop fun s hs => (c.ctor_constructs E m (.inl x) s).frame stable_true hframe (hprogram x) hs
  have hswap : ∀ (c : Construction) (x : V), Keeps Mem.TmpFree (swapTemporary m .shared (c.ctor E m) (.inl x)) :=
    fun c x => swapTemporary_tmpFree fun s e hs he => (c.ctor_constructs E m _ s).tmpFree hs he
  cases o with
  | plain op =>
    cases op with
    | default k x => exact drop (create_frame hframe (hprogram x) _)
    | own x p d => exact hctor (.raw (.ptrDeleter p (.user d))) x
    | copy k x | weaken x => exact drop (copyCtor_frame hI hframe (hprogram x))
    | aliasOf x =>
      exact drop (get_keeps.bind fun h => (onHeap_frame (hI.copyCount h.pi)).bind fun _ => create_frame hframe (hprogram x) _)
    | move k x r => exact drop (moveCtor_frame hframe (hprogram x) (hprogram r))
    | aliasMove x r =>
      exact drop (get_keeps.bind fun _ => (create_frame hframe (hprogram x) _).bind fun _ => put_frame hframe (hprogram r) _)
    | convert x =>
      exact drop (get_keeps.bind fun h => (onHeap_frame (hI.countOfWeak h.pi)).bind fun _ =>
        create_frame hframe (hprogram x) _)
    | lock x =>
      exact drop (get_keeps.bind fun h => (onHeap_frame (hI.countOfWeakNothrow h.pi)).bind fun _ =>
        Keeps.bind (fun _ h₀ => .inr h₀) fun _ => create_frame hframe (hprogram x) _)
    | assign k x | assignShared x => exact drop (copyAssign_frame hI hframe (hprogram x))
    | moveAssign k x r =>
      exact ifConstexpr_elim Keeps.stop (swapTemporary_tmpFree fun s e _ he => absurd he (moveCtor_ne_throw _ _ _ s e))
    | weakMoveAssignFrom x r =>
      exact drop (get_keeps.bind fun _ => get_keeps.bind fun _ => (put_frame hframe (hprogram x) _).bind fun _ =>
        (onHeap_frame fun _ _ => .inr trivial).bind fun _ =>
          (put_frame hframe (hprogram x) _).bind fun _ => put_frame hframe (hprogram r) _)
    | swap k x y => exact drop (swap_frame hframe (hprogram x) (hprogram y))
    | reset k x => exact swapTemporary_tmpFree fun s e _ he => absurd he (create_ne_throw _ _ s e)
    | resetOwn x p d => exact hswap (.raw (.ptrDeleter p (.user d))) x
    | destroy x => exact drop fun _ h₀ => .inr (destroyObject_frame hI hframe (hprogram x) h₀)
  | construct x c => exact hctor c x
  | reset x arg =>
    intro s hs
    rcases reset_cases E m (.inl x) arg s with he | he
    · exact .inl (by rw [AnyOp.exec, he])
    · rw [AnyOp.exec, he]
      exact hswap (.raw arg) x s hs
  | assignUnique x r =>
    intro s hs
    rw [AnyOp.exec, uniqueAssign_eq]
    exact hswap (.unique r) x s hs

theorem castOp_tmpFree (o : CastOp V) : Keeps Mem.TmpFree (o.exec E m) := by
  have hprogram : ∀ y : V, Sum.inl y ≠ (.inr .tmp : Ref V) := nofun
  have hcreate : ∀ (y : V) (h : Handle), Keeps Mem.TmpFree (create (.inl y) h) := fun y h s hs =>
    (create_frame (I := fun _ => True) (tmpFree_frame fun _ h => h) (hprogram y) h s ⟨trivial, hs⟩).imp_right And.right
  cases o with
  | op o => exact anyOp_tmpFree o
  | own c x r => exact get_keeps.bind fun h => anyOp_tmpFree (m := m) (.construct x (.raw (.ptr false (c h.ptr))))
  | cast c moved x r =>
    show Keeps Mem.TmpFree (c.exec m moved (.inl x) (.inl r))
    rw [PointerCast.exec_eq]
    refine ifConstexpr_elim Keeps.stop ?_
    refine get_keeps.bind fun h => Keeps.ite (hcreate x _) ?_
    cases moved with
    | false => exact anyOp_tmpFree (E := E) (.plain (.aliasOf x r (c.apply h.ptr)))
    | true => exact anyOp_tmpFree (E := E) (m := m) (.plain (.aliasMove x r (c.apply h.ptr)))

/-! ## Other logs -/

theorem castOp_commutes {l : List Event} (o : CastOp V) : Commutes (Mem.after l) (o.exec E m) := by
  cases o with
  | op o => exact anyOp_commutes o
  | own c x r => exact get_commutes.bind fun h => ctor_commutes (m := m) (.raw (.ptr false (c h.ptr)))
  | cast c moved x r =>
    show Commutes (Mem.after l) (c.exec m moved (.inl x) (.inl r))
    rw [PointerCast.exec_eq]
    refine ifConstexpr_elim Commutes.stop ?_
    refine get_commutes.bind fun h => Commutes.ite (create_commutes _) ?_
    cases moved with
    | false => exact aliasCtor_commutes
    | true => exact aliasMoveCtor_commutes

/-- The same memory, with another log. -/
def Mem.withLog (log : List Event) (s : Mem V) : Mem V := { s with heap := { s.heap with log := log } }

/-- What an operation appends to any log. -/
theorem castOp_appends (o : CastOp V) (s : Mem V) : ∃ new, ∀ log,
    o.exec E m (s.withLog log) = ((o.exec E m s).1, (o.exec E m s).2.withLog (log ++ new)) := by
  have hafter : ∀ log, s.withLog log = (s.withLog []).after log := fun log => by
    simp [Mem.withLog, Mem.after, Heap.after]
  have hself : o.exec E m s = o.exec E m (s.withLog s.heap.log) := rfl
  refine ⟨(o.exec E m (s.withLog [])).2.heap.log, fun log => ?_⟩
  rw [hself, hafter log, hafter s.heap.log, castOp_commutes, castOp_commutes]
  rfl

def Event.notRelease : Event → Bool
  | .release .. => false
  | _ => true

/-- The same memory, and logs that agree but for the releases. -/
def SameButReleases (s u : Mem V) : Prop :=
  ∃ log, u = s.withLog log ∧ log.filter Event.notRelease = s.heap.log.filter Event.notRelease

omit [DecidableEq V] in
theorem SameButReleases.refl (s : Mem V) : SameButReleases s s := ⟨s.heap.log, rfl, rfl⟩

omit [DecidableEq V] in
theorem SameButReleases.trans {s u t : Mem V} (h : SameButReleases s u) (h' : SameButReleases u t) :
    SameButReleases s t := by
  obtain ⟨log, rfl, hlog⟩ := h
  obtain ⟨log', rfl, hlog'⟩ := h'
  exact ⟨log', rfl, hlog'.trans hlog⟩

/-- An operation does the same in both. -/
theorem SameButReleases.step {s u s' : Mem V} {o : CastOp V} (h : SameButReleases s u) (hs : o.step E m s = some s') :
    ∃ u', o.step E m u = some u' ∧ SameButReleases s' u' := by
  obtain ⟨log, rfl, hlog⟩ := h
  obtain ⟨new, hnew⟩ := castOp_appends (E := E) (m := m) o s
  have hself := hnew s.heap.log
  rw [show s.withLog s.heap.log = s from rfl] at hself
  unfold CastOp.step at hs
  cases he : o.exec E m s with
  | mk res t =>
    rw [he] at hs hself hnew
    have hs' : s' = t := by
      cases res with
      | stop => cases hs
      | throw | ok => exact (Option.some.inj hs).symm
    subst hs'
    have hstop : res ≠ .stop := by
      rintro rfl
      cases hs
    have hlog' : s'.heap.log = s.heap.log ++ new := congrArg (fun r => r.2.heap.log) hself
    refine ⟨s'.withLog (log ++ new), ?_, log ++ new, rfl, ?_⟩
    · unfold CastOp.step
      rw [hnew]
      cases res with
      | stop => exact absurd rfl hstop
      | throw | ok => rfl
    · rw [hlog', List.filter_append, List.filter_append, hlog]

theorem SameButReleases.run {s u s' : Mem V} {ops : List (CastOp V)} (h : SameButReleases s u)
    (hs : run (CastOp.step E m) s ops = some s') :
    ∃ u', run (CastOp.step E m) u ops = some u' ∧ SameButReleases s' u' := by
  induction ops generalizing s u with
  | nil => cases hs; exact ⟨u, rfl, h⟩
  | cons o ops ih =>
    obtain ⟨s₁, hs₁, hs⟩ := Lib.run_cons.mp hs
    obtain ⟨u₁, hu₁, h₁⟩ := h.step hs₁
    obtain ⟨u', hu', h'⟩ := ih h₁ hs
    exact ⟨u', Lib.run_cons.mpr ⟨u₁, hu₁, hu'⟩, h'⟩

/-! ## A moved argument -/

/-- One more owner. -/
def Counts.oneMore (c : Counts) : Counts := { c with useCount := c.useCount + 1 }

theorem Counts.lessUse_oneMore (c : Counts) : c.oneMore.lessUse = c := by
  simp only [lessUse, oneMore, BitVec.add_sub_cancel]

/-- A reference that is counted and released at once. -/
theorem release_of_addRef {h : Heap} {b : Nat} {blk : Block} (hb : h.blocks b = some blk) (h0 : blk.counts.useCount ≠ 0)
    (hmax : blk.counts.useCount ≠ -1) :
    addRef m .shared b h = (.ok (), h.setCounts b blk blk.counts.oneMore) ∧
      release m .shared b (h.setCounts b blk blk.counts.oneMore) = h.emit [.release .shared b] := by
  have hadd : blk.counts.addRef m .shared = some blk.counts.oneMore := Counts.addRefCopy_eq_some.mpr ⟨hmax, rfl⟩
  refine ⟨by simp only [addRef, hb, hadd], ?_⟩
  have h1 : blk.counts.oneMore.useCount ≠ 1 := by
    rw [Ne, Counts.oneMore, eq_one_iff, toNat_add_one hmax]
    rw [Ne, eq_zero_iff] at h0
    omega
  have hdrop : Counts.drop m .shared blk.counts.oneMore = (blk.counts, []) := by
    rw [show Counts.drop m .shared = Counts.release m from rfl, Counts.release_eq, if_neg h1,
      Counts.lessUse_oneMore]
  have hsame : Function.update (Function.update h.blocks b (some { blk with counts := blk.counts.oneMore })) b (some blk) =
      h.blocks := by
    rw [Function.update_idem, ← hb, Function.update_eq_self]
  simp only [release, Heap.setCounts, Function.update_self, Block.release, hdrop, hsame]
  rfl

/-- An aliasing copy, and the reset of what was copied. -/
theorem reset_of_aliasCtor [Fintype V] {x r : V} {p : Ptr} {h : Handle} (ok : s.Holds BlocksOk) (hs : s.TmpFree)
    (few : ∀ b, s.owners .shared b < 2 ^ 32 - 1) (hr : s.obj (.inl r) = some h) (hk : h.kind = .shared)
    (hx : s.obj (.inl x) = none) : ∃ t log, aliasCtor m (.inl x) (.inl r) p s = (.ok (), t) ∧
      reset m .shared (.inl r) t =
        (.ok (), ((s.set (.inl x) (some ⟨.shared, p, h.pi⟩)).set (.inl r) (some ⟨.shared, none, none⟩)).withLog log) ∧
      log.filter Event.notRelease = s.heap.log.filter Event.notRelease := by
  have hne : (.inl r : Ref V) ≠ .inl x := by
    rintro he
    rw [he, hx] at hr
    cases hr
  have hget : get .shared (.inl r) s = (.ok h, s) := by simp only [get, hr, hk, if_true]
  obtain ⟨h₁, log, hcopy, hdrop, hlog⟩ : ∃ h₁ log, copyCount m .shared h.pi s.heap = (.ok h.pi, h₁) ∧
      dropCount m .shared h.pi h₁ = { s.heap with log := log } ∧
      log.filter Event.notRelease = s.heap.log.filter Event.notRelease := by
    cases hpi : h.pi with
    | none => exact ⟨s.heap, s.heap.log, rfl, rfl, rfl⟩
    | some b =>
      have hown := Mem.owners_ne_zero hr hpi
      rw [hk] at hown
      obtain ⟨blk, hb⟩ := BlocksOk.exists_block ok hown
      have hblk := ok.blocks b
      rw [hb] at hblk
      have h0 : blk.counts.useCount ≠ 0 := by rwa [Ne, eq_zero_iff, hblk.1]
      have hmax : blk.counts.useCount ≠ -1 := by
        intro he
        have hfew := few b
        rw [← hblk.1, he, toNat_neg_one] at hfew
        exact absurd hfew (Nat.lt_irrefl _)
      obtain ⟨hadd, hrelease⟩ := release_of_addRef (m := m) hb h0 hmax
      refine ⟨s.heap.setCounts b blk blk.counts.oneMore, s.heap.log ++ [.release .shared b], ?_, ?_, ?_⟩
      · simp only [copyCount, Prog.bind_apply, hadd, Prog.pure_apply]
      · exact hrelease
      · simp [Event.notRelease]
  have hcreate := create_apply (x := (.inl x : Ref V)) (s := { s with heap := h₁ }) hx ⟨.shared, p, h.pi⟩
  obtain ⟨t, ht⟩ : ∃ t, t = Mem.set { s with heap := h₁ } (.inl x) (some ⟨.shared, p, h.pi⟩) := ⟨_, rfl⟩
  have htr : t.obj (.inl r) = some h := by rw [ht, Mem.set_obj_of_ne _ hne, hr]
  have htmp : t.obj (.inr .tmp) = none := by rw [ht, Mem.set_obj_of_ne _ (by simp), hs]
  refine ⟨t, log, ?_, ?_, hlog⟩
  · rw [aliasCtor, Prog.bind_apply, hget]
    simp only [Prog.bind_apply, onHeap, hcopy]
    rw [ht]
    exact hcreate
  · rw [reset_apply htr hk htmp, ht, Mem.set_heap, hdrop]
    rfl

/-- **A cast of an rvalue** is the cast of the lvalue, and the reset of the argument. -/
theorem cast_moved [Fintype V] {c : PointerCast} {x r : V} (ok : s.Holds BlocksOk) (hs : s.TmpFree)
    (few : ∀ b, s.owners .shared b < 2 ^ 32 - 1) (h : (CastOp.cast c true x r).step E m s = some s') :
    ∃ u, run (CastOp.step E m) s ((CastOp.cast c true x r).copied s) = some u ∧ SameButReleases s' u := by
  by_cases hm : m = .constEval ∧ c.isConstexpr = false
  · simp [CastOp.step, CastOp.exec, PointerCast.exec_eq, ifConstexpr, hm] at h
  have hexec : ∀ moved, c.exec m moved (.inl x) (.inl r) = (do
      let h ← get .shared (.inl r)
      if c.fails h.ptr then defaultCtor .shared (.inl x) else castCtor m moved (.inl x) (.inl r) (c.apply h.ptr)) :=
    fun moved => (c.exec_eq moved _ _).trans (if_neg hm)
  simp only [CastOp.step, CastOp.exec, hexec, Prog.bind_apply] at h
  rcases get_cases .shared (.inl r) s with he | ⟨hd, hr, hk, he⟩
  · simp [he] at h
  rw [he] at h
  by_cases hf : c.fails hd.ptr = true
  · refine ⟨s', ?_, .refl s'⟩
    simp only [hf, if_true] at h
    simp only [CastOp.copied, hr, Option.any_some, hf, if_true, Lib.run_cons, CastOp.step, CastOp.exec,
      hexec, Prog.bind_apply, he, h, Lib.run_nil, Option.some.injEq, exists_eq_left']
  · simp only [if_neg hf] at h
    rw [castCtor, if_pos rfl, aliasMoveCtor, Prog.bind_apply, he] at h
    simp only [Prog.bind_apply] at h
    rcases create_cases (.inl x) ⟨.shared, c.apply hd.ptr, hd.pi⟩ s with hc | ⟨hx, hc⟩
    · simp [hc] at h
    simp only [hc, put, Prog.modify_apply, Option.some.injEq] at h
    obtain ⟨t, log, halias, hreset, hlog⟩ := reset_of_aliasCtor (m := m) (p := c.apply hd.ptr) ok hs few hr hk hx
    refine ⟨s'.withLog log, ?_, log, rfl, ?_⟩
    · simp only [CastOp.copied, hr, Option.any_some, hf, if_false, Lib.run_cons, CastOp.step, CastOp.exec,
        hexec, Prog.bind_apply, he, castCtor, halias, AnyOp.exec, exec, hreset, Lib.run_nil,
        Option.some.injEq, exists_eq_left', Bool.false_eq_true]
      rw [h]
    · rw [← h]
      exact hlog

/-- The two programs' states, with what the next step needs. -/
def CastsAlike [Fintype V] (s u : Mem V) : Prop := s.Holds BlocksOk ∧ s.TmpFree ∧ SameButReleases s u

theorem CastsAlike.step [Fintype V] {u : Mem V} {o : CastOp V} (h : CastsAlike s u)
    (few : ∀ b, s.owners .shared b < 2 ^ 32 - 1) (hs : o.step E m s = some s') :
    ∃ u', run (CastOp.step E m) u (o.copied s) = some u' ∧ CastsAlike s' u' := by
  obtain ⟨ok, htmp, hsame⟩ := h
  have ok' := CastOp.of_step hs (castOp_keeps o s ok)
  have htmp' := CastOp.of_step hs (castOp_tmpFree o s htmp)
  have hone : ∀ o' : CastOp V, o'.step E m s = some s' →
      ∃ u', run (CastOp.step E m) u [o'] = some u' ∧ CastsAlike s' u' := by
    intro o' ho'
    obtain ⟨u', hu', hsame'⟩ := hsame.step ho'
    exact ⟨u', Lib.run_cons.mpr ⟨u', hu', rfl⟩, ok', htmp', hsame'⟩
  cases o with
  | op | own => exact hone _ hs
  | cast c moved x r =>
    cases moved with
    | false => exact hone _ hs
    | true =>
      obtain ⟨t, ht, hst⟩ := cast_moved ok htmp few hs
      obtain ⟨u', hu', htu⟩ := hsame.run ht
      exact ⟨u', hu', ok', htmp', hst.trans htu⟩

omit [DecidableEq V] in
theorem moves_copied {s : Mem V} {o o' : CastOp V} (h : o' ∈ o.copied s) : o'.moves = false := by
  cases o with
  | op | own => rw [List.mem_singleton.mp h]; rfl
  | cast c moved x r =>
    cases moved with
    | false => rw [List.mem_singleton.mp h]; rfl
    | true =>
      simp only [CastOp.copied] at h
      split at h
      · rw [List.mem_singleton.mp h]
        rfl
      · rcases List.mem_cons.mp h with rfl | h
        · rfl
        · rw [List.mem_singleton.mp h]
          rfl

/-- **Casts of rvalues save counting, and nothing else**: a program in which each of them is the cast of
the lvalue, with the reset of the argument where the cast does not fail, ends in the same objects and
blocks, with the same history but for the releases. -/
theorem movedCasts_like_copies [Fintype V] (E : Env) (m : Mode) (ops : List (CastOp V)) (s : Mem V)
    (h : run (CastOp.step E m) Mem.empty ops = some s)
    (few : ∀ u, Visits (CastOp.step E m) Mem.empty ops u → ∀ b, u.owners .shared b < 2 ^ 32 - 1) :
    (∀ o ∈ outputs (CastOp.step E m) CastOp.copied Mem.empty ops, o.moves = false) ∧
      ∃ u, run (CastOp.step E m) Mem.empty (outputs (CastOp.step E m) CastOp.copied Mem.empty ops) = some u ∧
        u.obj = s.obj ∧ u.heap.blocks = s.heap.blocks ∧ u.heap.next = s.heap.next ∧
        u.heap.log.filter Event.notRelease = s.heap.log.filter Event.notRelease := by
  refine ⟨fun o ho => ?_, ?_⟩
  · obtain ⟨u, o', -, ho⟩ := Lib.mem_outputs ho
    exact moves_copied ho
  · have hfew : Along (CastOp.step E m) (fun u _ => ∀ b, u.owners .shared b < 2 ^ 32 - 1) Mem.empty ops :=
      Lib.along_iff.mpr fun pre o post u hops hpre => few u ⟨pre, o :: post, hops, hpre⟩
    obtain ⟨u, hu, -, -, log, rfl, hlog⟩ := Lib.run_simulated_along (R := CastsAlike)
      (fun s u o s' hR few hs => hR.step few hs) h hfew ⟨holds_empty, rfl, .refl _⟩
    exact ⟨_, hu, rfl, rfl, rfl, hlog⟩

/-- A pointer is owned, cast to a base at an offset, and the result by a `dynamic_cast` that fails. -/
theorem movedCasts_like_copies_three :
    let ops : List (CastOp (Fin 3)) := [.op (.plain (.own 0 (some 8) 1)), .cast (.static (·.map (· + 16))) true 1 0,
      .cast (.dynamic fun _ => none) true 2 1]
    let s := (run (CastOp.step pages .constEval) Mem.empty ops).getD Mem.empty
    let copies := outputs (CastOp.step pages .constEval) CastOp.copied Mem.empty ops
    (∀ o ∈ copies, o.moves = false) ∧
      ∃ u, run (CastOp.step pages .constEval) Mem.empty copies = some u ∧ u.obj = s.obj ∧ u.heap.blocks = s.heap.blocks ∧
        u.heap.next = s.heap.next ∧
        u.heap.log.filter Event.notRelease = s.heap.log.filter Event.notRelease := by
  intro ops s copies
  have hs : run (CastOp.step pages .constEval) Mem.empty ops = some s := Lib.run_getD (by decide) _
  refine movedCasts_like_copies pages .constEval ops s hs fun u _ b => ?_
  exact (u.owners_le .shared b).trans_lt (by decide)

end SharedPtr.Seq
