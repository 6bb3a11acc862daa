/-
Objects of a class with the base `enable_shared_from_this` (`bits/shared_ptr.h`).
Each has a weak pointer, `_M_weak_this`, which the constructors of shared
pointers that take ownership of the object assign to
(`_M_enable_shared_from_this_with`), where it is empty or has expired
(`_M_assign`).

The objects are named by `O`, and `_M_weak_this` of each is in memory beside the
smart pointers, named by `V`. It is private: no operation on smart pointers
changes it. An object that a deleter deletes ends after the operation that
called the deleter, by an operation of its own; the counts are the same then as
if it had ended inside.
-/
import SharedPtr.Construction

namespace SharedPtr.Seq

open Lib (Prog Result run Along)
open Lib.Prog (Keeps)

variable {V O : Type} [DecidableEq V] [DecidableEq O]

/-- `_M_weak_this` of `o`. -/
abbrev weakThis (o : O) : Ref (V ⊕ O) := .inl (.inr o)

section

variable (E : Env) (m : Mode)

/-- `_M_assign(__ptr, __refcount)` of the weak pointer `w`, with `x`'s `_M_refcount`. -/
def weakAssign (w : Ref V) (ptr : Ptr) (x : Ref V) : Prog (Mem V) Exn Unit := do
  let t ← get .weak w
  let count ← Prog.read fun s => useCount m t.pi s.heap
  if count = 0 then do
    put w { t with ptr := ptr }
    let h ← get .shared x
    let pi ← onHeap (assignCount m .weak t.pi h.pi)
    put w ⟨.weak, ptr, pi⟩
  else pure ()

/-- `_M_enable_shared_from_this_with(__p)` in a constructor of `x`, which stores
`__p`; the base of a null pointer is null. -/
def enableSharedFromThisWith (w x : Ref V) : Prog (Mem V) Exn Unit := do
  let h ← get .shared x
  if h.ptr ≠ none then weakAssign m w h.ptr x else pure ()

/-- `__has_esft_base`, of a class that has the base: not for arrays. -/
def Construction.hasEsftBase : Construction → Bool
  | raw (.ptr isArray _) => !isArray
  | make _ _ (.array _) _ => false
  | _ => true

/-- Whether the object is constructed, too. -/
def Construction.makesObject : Construction → Bool
  | make .. => true
  | _ => false

/-- The construction of `x` for the object `o`. -/
def adoptCtor (x : Ref (V ⊕ O)) (o : O) (c : Construction) : Prog (Mem (V ⊕ O)) Exn Unit := do
  c.ctor E m x
  (if c.makesObject then defaultCtor .weak (weakThis o) else pure ())
  (if c.hasEsftBase then enableSharedFromThisWith m (weakThis o) x else pure ())

/-- `x.reset(...)` for the object `o`. -/
def adoptReset (x : Ref (V ⊕ O)) (o : O) : Raw → Prog (Mem (V ⊕ O)) Exn Unit
  | .ptr isArray p => do
    let h ← get .shared x
    if p ≠ none ∧ p = h.ptr then Prog.stop
    else swapTemporary m .shared (fun tmp => adoptCtor E m tmp o (.raw (.ptr isArray p))) x
  | .ptrDeleter p d => swapTemporary m .shared (fun tmp => adoptCtor E m tmp o (.raw (.ptrDeleter p d))) x
  | .ptrDeleterAlloc p d a =>
    ifConstexpr m false (swapTemporary m .shared (fun tmp => adoptCtor E m tmp o (.raw (.ptrDeleterAlloc p d a))) x)

/-- `x = std::move(r)` for a `unique_ptr` `r` to the object `o`. -/
def adoptAssign (x : Ref (V ⊕ O)) (o : O) (r : UniquePtr) : Prog (Mem (V ⊕ O)) Exn Unit :=
  swapTemporary m .shared (fun tmp => adoptCtor E m tmp o (.unique r)) x

/-- Operations on objects with the base, and on smart pointers. -/
inductive ObjectOp (V O : Type)
  /-- An operation on smart pointers; if it takes ownership, then of something else. -/
  | handle (op : AnyOp (V ⊕ O))
  /-- `T o;` -/
  | object (o : O)
  /-- `T o(r);`, also for an rvalue `r` -/
  | copyObject (o r : O)
  /-- `o = r;`, also for an rvalue `r` -/
  | assignObject (o r : O)
  /-- `shared_ptr<T> x(...);` for the object `o`, and `shared_ptr<T> x = allocate_shared<T>(...);` that constructs `o` -/
  | adopt (x : V) (o : O) (c : Construction)
  /-- `x.reset(...);` -/
  | adoptReset (x : V) (o : O) (arg : Raw)
  /-- `x = std::move(r);` -/
  | adoptAssign (x : V) (o : O) (r : UniquePtr)
  /-- `shared_ptr<T> x = o.shared_from_this();` -/
  | sharedFromThis (x : V) (o : O)
  /-- `weak_ptr<T> x = o.weak_from_this();` -/
  | weakFromThis (x : V) (o : O)
  /-- The object `o` is destroyed. -/
  | endObject (o : O)

def ObjectOp.exec : ObjectOp V O → Prog (Mem (V ⊕ O)) Exn Unit
  | handle op => if op.changes.any Sum.isRight then Prog.stop else op.exec E m
  | object o => defaultCtor .weak (weakThis o)
  | copyObject o r => do
    let _ ← get .weak (weakThis r)
    defaultCtor .weak (weakThis o)
  | assignObject o r => do
    let _ ← get .weak (weakThis r)
    let _ ← get .weak (weakThis o)
    pure ()
  | adopt x o c => adoptCtor E m (.inl (.inl x)) o c
  | adoptReset x o arg => Seq.adoptReset E m (.inl (.inl x)) o arg
  | adoptAssign x o r => Seq.adoptAssign E m (.inl (.inl x)) o r
  | sharedFromThis x o => weakCtor m (.inl (.inl x)) (weakThis o)
  | weakFromThis x o => copyCtor m .weak (.inl (.inl x)) .weak (weakThis o)
  | endObject o => Prog.modify (destroyObject m (weakThis o))

/-- The state after an operation that ends. -/
def ObjectOp.step (s : Mem (V ⊕ O)) (op : ObjectOp V O) : Option (Mem (V ⊕ O)) :=
  match op.exec E m s with
  | (.stop, _) => none
  | (_, s') => some s'

end

/-- The smart pointer that is to take ownership of `o`. -/
def ObjectOp.adopts (o : O) : ObjectOp V O → Option V
  | adopt x o' c => if o' = o ∧ c.hasEsftBase then some x else none
  | adoptReset x o' arg => if o' = o ∧ (Construction.raw arg).hasEsftBase then some x else none
  | adoptAssign x o' _ => if o' = o then some x else none
  | _ => none

variable {E : Env} {m : Mode}

/-! ## The assignment of `_M_weak_this` -/

/-- `_M_assign` is the assignment of the shared pointer, or nothing. -/
theorem weakAssign_eq {w x : Ref V} {s : Mem V} {h t : Handle} (hx : s.obj x = some h) (hkx : h.kind = .shared)
    (hw : s.obj w = some t) (hkw : t.kind = .weak) :
    weakAssign m w h.ptr x s = if useCount m t.pi s.heap = 0 then copyAssign m .weak w .shared x s else (.ok (), s) := by
  have hne : x ≠ w := by
    rintro rfl
    rw [hx] at hw
    cases hw
    rw [hkx] at hkw
    cases hkw
  have hx' : (s.set w (some { t with ptr := h.ptr })).obj x = some h := by rw [Mem.set_obj_of_ne _ hne, hx]
  have hget : get .shared x s = (.ok h, s) := by simp only [get, hx, hkx, if_true]
  have hget' : get .weak w s = (.ok t, s) := by simp only [get, hw, hkw, if_true]
  have hget₁ : get .shared x (s.set w (some { t with ptr := h.ptr })) =
      (.ok h, s.set w (some { t with ptr := h.ptr })) := by
    simp only [get, hx', hkx, if_true]
  simp only [weakAssign, Prog.bind_apply, hget', Prog.read_apply]
  split
  next =>
    simp only [copyAssign, Prog.bind_apply, hget, hget', put, Prog.modify_apply, hget₁]
  next => rfl

theorem enableSharedFromThisWith_cases (w x : Ref V) (s : Mem V) :
    (enableSharedFromThisWith m w x s).1 = .stop ∨ ∃ h, s.obj x = some h ∧ h.kind = .shared ∧
      (h.ptr = none ∧ enableSharedFromThisWith m w x s = (.ok (), s) ∨
        h.ptr ≠ none ∧ ∃ t, s.obj w = some t ∧ t.kind = .weak ∧ enableSharedFromThisWith m w x s =
          if useCount m t.pi s.heap = 0 then copyAssign m .weak w .shared x s else (.ok (), s)) := by
  rcases get_cases .shared x s with he | ⟨h, hx, hkx, he⟩
  · exact .inl (by simp only [enableSharedFromThisWith, Prog.bind_apply, he])
  by_cases hp : h.ptr = none
  · exact .inr ⟨h, hx, hkx, .inl ⟨hp, by simp [enableSharedFromThisWith, Prog.bind_apply, he, hp]⟩⟩
  have hassign : enableSharedFromThisWith m w x s = weakAssign m w h.ptr x s := by
    simp only [enableSharedFromThisWith, Prog.bind_apply, he, ne_eq, hp, not_false_eq_true, if_true]
  rcases get_cases .weak w s with hw | ⟨t, hw, hkw, -⟩
  · exact .inl (by rw [hassign]; simp only [weakAssign, Prog.bind_apply, hw])
  · exact .inr ⟨h, hx, hkx, .inr ⟨hp, t, hw, hkw, by rw [hassign, weakAssign_eq hx hkx hw hkw]⟩⟩

/-! ## Weak references released -/

/-- Of the weak references to the block `b`, `n` are released, and nothing else happens to it. -/
structure WeakReleases (n b : Nat) (h h' : Heap) : Prop where
  counts : ∃ blk, h.blocks b = some blk ∧ h'.blocks b = some { blk with counts := Counts.lessWeak^[n] blk.counts }
  log : ∃ new, h'.log = h.log ++ new ∧ new.count (.release .weak b) = n

theorem WeakReleases.trans {n n' b : Nat} {h h' h'' : Heap} (hr : WeakReleases n b h h') (hr' : WeakReleases n' b h' h'') :
    WeakReleases (n + n') b h h'' := by
  obtain ⟨⟨blk, hb, hb'⟩, new, hlog, hnew⟩ := hr
  obtain ⟨⟨blk', hb₁, hb₂⟩, new', hlog', hnew'⟩ := hr'
  rw [hb'] at hb₁
  obtain rfl := Option.some.inj hb₁
  refine ⟨⟨blk, hb, ?_⟩, new ++ new', ?_, ?_⟩
  · rw [hb₂, Nat.add_comm, Function.iterate_add_apply]
  · rw [hlog', hlog, List.append_assoc]
  · rw [List.count_append, hnew, hnew']

theorem iterate_lessWeak_useCount (n : Nat) (c : Counts) : (Counts.lessWeak^[n] c).useCount = c.useCount := by
  induction n generalizing c with
  | zero => rfl
  | succ n ih => rw [Function.iterate_succ_apply, ih, Counts.lessWeak_useCount]

theorem WeakReleases.useCount_eq {n b : Nat} {h h' : Heap} (hr : WeakReleases n b h h') :
    useCount m (some b) h' = useCount m (some b) h := by
  obtain ⟨blk, hb, hb'⟩ := hr.counts
  have hu := iterate_lessWeak_useCount n blk.counts
  simp only [useCount, Option.bind_some, hb, hb']
  cases m <;> simp only [Counts.getUseCount, hu]

/-- A release, among the events of one. -/
theorem count_weak_release (k : Kind) (blk : Block) (b b' : Nat) :
    (blk.release m k b').count (.release .weak b) = if k = .weak ∧ b' = b then 1 else 0 := by
  have hcalls : (.release .weak b) ∉ (blk.counts.drop m k).2.flatMap (blk.call b') := by
    intro he
    obtain ⟨c, -, he⟩ := List.mem_flatMap.mp he
    cases c with
    | dispose =>
      rcases List.mem_cons.mp he with he | he
      · cases he
      · cases Managed.mem_dispose he
    | destroy => simp [Block.call] at he
  rw [Block.release, List.count_cons, List.count_eq_zero.mpr hcalls, Nat.zero_add]
  simp

theorem weakReleases_self {b : Nat} {h : Heap} {blk : Block} (hb : h.blocks b = some blk) :
    WeakReleases 1 b h (release m .weak b h) := by
  rw [release_of_block hb, show Counts.drop m .weak = Counts.weakRelease m from rfl, Counts.weakRelease_eq]
  refine ⟨⟨blk, hb, Function.update_self ..⟩, blk.release m .weak b, rfl, ?_⟩
  rw [count_weak_release, if_pos ⟨rfl, rfl⟩]

theorem weakReleases_of_ne {k : Kind} {b b' : Nat} {h : Heap} {blk : Block} (hb : h.blocks b = some blk) (hne : b' ≠ b) :
    WeakReleases 0 b h (release m k b' h) := by
  cases hb' : h.blocks b' with
  | none =>
    rw [show release m k b' h = h by simp only [release, hb']]
    exact ⟨⟨blk, hb, hb⟩, [], (List.append_nil _).symm, rfl⟩
  | some blk' =>
    rw [release_of_block hb']
    refine ⟨⟨blk, hb, (Function.update_of_ne (Ne.symm hne) ..).trans hb⟩, blk'.release m k b', rfl, ?_⟩
    rw [count_weak_release, if_neg fun h => hne h.2]

/-- The assignment of a reference to another block. -/
theorem weakReleases_assign {b b' : Nat} {pi : CountPtr} {h h' : Heap} {blk : Block} (hb : h.blocks b = some blk)
    (hne : b' ≠ b) (ha : assignCount m .weak (some b) (some b') h = (.ok pi, h')) : WeakReleases 1 b h h' := by
  simp only [assignCount, replaceCount, copyCount, Prog.bind_apply, addRef] at ha
  cases hb' : h.blocks b' with
  | none => simp [hb'] at ha
  | some blk' =>
    cases hc : blk'.counts.addRef m .weak with
    | none => simp [hb', hc] at ha
    | some c =>
      simp only [hb', hc, Prog.pure_apply, Prog.modify_apply, Prod.mk.injEq] at ha
      have hb₁ : (h.setCounts b' blk' c).blocks b = some blk := (Function.update_of_ne (Ne.symm hne) ..).trans hb
      rw [← ha.2]
      exact WeakReleases.trans (n := 0) ⟨⟨blk, hb, hb₁⟩, [], (List.append_nil _).symm, rfl⟩ (weakReleases_self hb₁)

/-- No weak reference is released where ownership is taken. -/
theorem Constructs.weakReleases {x : Ref V} {s : Mem V} {r : Result Exn Unit × Mem V} (hc : Constructs x s r) {b : Nat}
    {blk : Block} (hb : s.heap.blocks b = some blk) (hlt : b < s.heap.next) :
    r.1 = .stop ∨ WeakReleases 0 b s.heap r.2.heap := by
  have hcalm : ∀ {es : List Event}, (∀ e ∈ es, e.ofCounts = false) → es.count (.release .weak b) = 0 := by
    intro es hes
    rw [List.count_eq_zero]
    intro he
    cases hes _ he
  cases hc with
  | failed hc => exact .inr ⟨⟨blk, hb, (congrFun hc.blocks b).trans hb⟩, _, hc.log, hcalm hc.calm⟩
  | stopped => exact .inl rfl
  | empty => exact .inr ⟨⟨blk, hb, hb⟩, [], (List.append_nil _).symm, rfl⟩
  | made _ hc hcopy =>
    rename_i h' new copy md c p hx
    refine .inr ⟨⟨blk, hb, ?_⟩, new ++ copy, ?_, ?_⟩
    · have hne : b ≠ h'.next := by
        rw [hc.next]
        exact Nat.ne_of_lt hlt
      show Function.update h'.blocks h'.next _ b = _
      rw [Function.update_of_ne hne, hc.blocks, hb]
      rfl
    · show h'.log ++ copy = _
      rw [hc.log, List.append_assoc]
    · rw [List.count_append, hcalm hc.calm, List.count_eq_zero.mpr]
      intro he
      cases hcopy _ he

/-! ## What the operations keep -/

theorem enableSharedFromThisWith_keeps {P : Mem V → Prop} {w x : Ref V} (h : Keeps P (copyAssign m .weak w .shared x)) :
    Keeps P (enableSharedFromThisWith m w x) := by
  intro s h₀
  obtain he | ⟨-, -, -, ⟨-, he⟩ | ⟨-, t, -, -, he⟩⟩ := enableSharedFromThisWith_cases (m := m) w x s
  · exact .inl he
  · exact .inr (by rw [he]; exact h₀)
  · rw [he]
    split
    · exact h s h₀
    · exact .inr h₀

theorem adoptCtor_keeps {P : Mem (V ⊕ O) → Prop} {x : Ref (V ⊕ O)} {o : O} {c : Construction}
    (hctor : Keeps P (c.ctor E m x)) (hobject : Keeps P (defaultCtor .weak (weakThis o)))
    (hassign : Keeps P (copyAssign m .weak (weakThis o) .shared x)) : Keeps P (adoptCtor E m x o c) :=
  hctor.bind fun _ => (Keeps.ite hobject (Keeps.pure ())).bind fun _ =>
    Keeps.ite (enableSharedFromThisWith_keeps hassign) (Keeps.pure ())

/-- `reset` swaps the object with a temporary, unless an assertion fails or constant evaluation ends. -/
theorem adoptReset_cases (x : Ref (V ⊕ O)) (o : O) (arg : Raw) (s : Mem (V ⊕ O)) :
    adoptReset E m x o arg s = (.stop, s) ∨
      adoptReset E m x o arg s = swapTemporary m .shared (fun tmp => adoptCtor E m tmp o (.raw arg)) x s := by
  cases arg with
  | ptr isArray p =>
    rcases get_cases .shared x s with he | ⟨h, -, -, he⟩
    · exact .inl (by simp [adoptReset, Prog.bind_apply, he])
    · simp only [adoptReset, Prog.bind_apply, he]
      split
      · exact .inl rfl
      · exact .inr rfl
  | ptrDeleter => exact .inr rfl
  | ptrDeleterAlloc => exact ifConstexpr_cases s

theorem adoptReset_keeps {P : Mem (V ⊕ O) → Prop} {x : Ref (V ⊕ O)} {o : O} {arg : Raw}
    (h : Keeps P (swapTemporary m .shared (fun tmp => adoptCtor E m tmp o (.raw arg)) x)) :
    Keeps P (adoptReset E m x o arg) := by
  intro s h₀
  obtain he | he := adoptReset_cases (E := E) (m := m) x o arg s
  · exact .inl (by rw [he])
  · rw [he]
    exact h s h₀

theorem objectOp_keeps [Fintype V] [Fintype O] (op : ObjectOp V O) : Keeps (Mem.Holds BlocksOk) (op.exec E m) := by
  have hadopt : ∀ (x : Ref (V ⊕ O)) o c, Keeps (Mem.Holds BlocksOk) (adoptCtor E m x o c) := fun x o c =>
    adoptCtor_keeps (fun s ok => (c.ctor_constructs E m x s).holds ok) defaultCtor_keeps
      (copyAssign_keeps ledger_blocksOk (.inl rfl))
  have hswap : ∀ (x : Ref (V ⊕ O)) o c,
      Keeps (Mem.Holds BlocksOk) (swapTemporary m .shared (fun tmp => adoptCtor E m tmp o c) x) := fun x o c =>
    swapTemporary_keeps ledger_blocksOk fun tmp => hadopt tmp o c
  cases op with
  | handle op => exact Keeps.ite (fun _ _ => .inl rfl) (anyOp_keeps op)
  | object => exact defaultCtor_keeps
  | copyObject => exact get_keeps.bind fun _ => defaultCtor_keeps
  | assignObject => exact get_keeps.bind fun _ => get_keeps.bind fun _ => Keeps.pure ()
  | adopt x o c => exact hadopt _ o c
  | adoptReset x o arg => exact adoptReset_keeps (hswap _ o _)
  | adoptAssign x o r => exact hswap _ o _
  | sharedFromThis => exact weakCtor_keeps ledger_blocksOk
  | weakFromThis => exact copyCtor_keeps ledger_blocksOk (.inr rfl)
  | endObject => exact fun s ok => .inr (destroyObject_holds ledger_blocksOk ok)

/-- The objects that an operation makes, ends or changes. -/
def ObjectOp.changes {V O : Type} : ObjectOp V O → List (V ⊕ O)
  | handle op => op.changes
  | object o | copyObject o _ | endObject o => [.inr o]
  | assignObject .. => []
  | adopt x o _ | adoptReset x o _ | adoptAssign x o _ => [.inl x, .inr o]
  | sharedFromThis x _ | weakFromThis x _ => [.inl x]

theorem adoptCtor_frame {I : Heap → Prop} (hI : Stable I) {Q : (Ref (V ⊕ O) → Option Handle) → Prop}
    {W : Ref (V ⊕ O) → Prop} (hQ : FrameOf Q W) {x : Ref (V ⊕ O)} {o : O} (hx : W x) (ho : W (weakThis o))
    (c : Construction) :
    Keeps (Both I Q) (adoptCtor E m x o c) :=
  adoptCtor_keeps (fun s h₀ => (c.ctor_constructs E m x s).frame hI hQ hx h₀) (create_frame hQ ho _)
    (copyAssign_frame hI.toSteady hQ ho)

theorem objectOp_frame {I : Heap → Prop} (hI : Stable I) {Q : (Ref (V ⊕ O) → Option Handle) → Prop}
    {W : Ref (V ⊕ O) → Prop} (hQ : FrameOf Q W) (op : ObjectOp V O) (hW : ∀ x ∈ op.changes, W (.inl x))
    (htmp : W (.inr .tmp)) : Keeps (Both I Q) (op.exec E m) := by
  have hswap : ∀ (x : Ref (V ⊕ O)) o c, W x → W (weakThis o) →
      Keeps (Both I Q) (swapTemporary m .shared (fun tmp => adoptCtor E m tmp o c) x) := fun x o c hx ho =>
    swapTemporary_frame hI.toSteady hQ htmp hx (adoptCtor_frame hI hQ htmp ho c)
  cases op <;> simp only [ObjectOp.changes, List.mem_cons, List.not_mem_nil, or_false, forall_eq_or_imp, forall_eq] at hW
  case handle op => exact Keeps.ite (fun _ _ => .inl rfl) (anyOp_frame hI hQ op hW htmp)
  case object => exact create_frame hQ hW _
  case copyObject => exact get_keeps.bind fun _ => create_frame hQ hW _
  case assignObject => exact get_keeps.bind fun _ => get_keeps.bind fun _ => Keeps.pure ()
  case adopt x o c => exact adoptCtor_frame hI hQ hW.1 hW.2 c
  case adoptReset x o arg => exact adoptReset_keeps (hswap _ o _ hW.1 hW.2)
  case adoptAssign x o r => exact hswap _ o _ hW.1 hW.2
  case sharedFromThis =>
    exact get_keeps.bind fun h => (onHeap_frame (hI.countOfWeak h.pi)).bind fun _ => create_frame hQ hW _
  case weakFromThis => exact copyCtor_frame hI.toSteady hQ hW
  case endObject => exact fun _ h₀ => .inr (destroyObject_frame hI.toSteady hQ hW h₀)

/-! ## Adoption -/

/-- The weak pointer at `w` is empty or has expired, if it is there. -/
def Expired (m : Mode) (s : Mem V) (w : Ref V) : Prop := ∀ t, s.obj w = some t → useCount m t.pi s.heap = 0

/-- `x` owns a new block, which `w` refers to, where it had expired. -/
structure Links (m : Mode) (w x : Ref V) (s s' : Mem V) : Prop where
  expired : Expired m s w
  owner : ∃ p, s'.obj x = some ⟨.shared, some p, some s.heap.next⟩ ∧ s'.obj w = some ⟨.weak, some p, some s.heap.next⟩
  released : ∀ t b, s.obj w = some t → t.pi = some b → WeakReleases 1 b s.heap s'.heap

/-- How an adoption ends by the shared pointer `x` of the object with the weak pointer `w`. -/
inductive Adopts (m : Mode) (w x : Ref V) (base : Bool) (s : Mem V) : Result Exn Unit × Mem V → Prop
  | stopped {s' : Mem V} : Adopts m w x base s (.stop, s')
  | kept {r : Result Exn Unit} {s' : Mem V} : (s'.obj w = s.obj w ∨ s.obj w = none ∧ s'.obj w = some ⟨.weak, none, none⟩) →
      (base = true → Expired m s w → ∀ p b, s'.obj x = some ⟨.shared, some p, some b⟩ → s.heap.blocks b ≠ none) →
      Adopts m w x base s (r, s')
  | linked {s' : Mem V} : base = true → Links m w x s s' → Adopts m w x base s (.ok (), s')

section

variable [Fintype V] {w x : Ref V} {s u : Mem V}

omit [Fintype V] [DecidableEq V] in
theorem Adopts.of_stop {base : Bool} {r : Result Exn Unit × Mem V} (h : r.1 = .stop) : Adopts m w x base s r := by
  obtain ⟨r, s'⟩ := r
  obtain rfl : r = .stop := h
  exact .stopped

theorem exists_block_of_obj (ok : s.Holds BlocksOk) {t : Handle} {b : Nat} (hx : s.obj x = some t) (hb : t.pi = some b) :
    ∃ blk, s.heap.blocks b = some blk := ok.exists_block (Mem.owners_ne_zero hx hb)

omit [Fintype V] [DecidableEq V] in
theorem weakAssignCount_cases (pi r : CountPtr) (h : Heap) :
    (assignCount m .weak pi r h).1 = .stop ∨ ∃ h', assignCount m .weak pi r h = (.ok r, h') := by
  cases r with
  | none => exact .inr ⟨dropCount m .weak pi h, rfl⟩
  | some b =>
    simp only [assignCount, replaceCount, copyCount, Prog.bind_apply, addRef]
    cases h.blocks b with
    | none => exact .inl rfl
    | some blk =>
      simp only
      cases blk.counts.addRef m .weak with
      | none => exact .inl rfl
      | some c => exact .inr ⟨dropCount m .weak pi (h.setCounts b blk c), rfl⟩

omit [Fintype V] in
theorem copyAssign_apply {h t : Handle} (hx : s.obj x = some h) (hkx : h.kind = .shared) (hw : s.obj w = some t)
    (hkw : t.kind = .weak) (hne : x ≠ w) :
    (copyAssign m .weak w .shared x s).1 = .stop ∨ ∃ h', assignCount m .weak t.pi h.pi s.heap = (.ok h.pi, h') ∧
      copyAssign m .weak w .shared x s = (.ok (), { s.set w (some ⟨.weak, h.ptr, h.pi⟩) with heap := h' }) := by
  have hx' : (s.set w (some ⟨.weak, h.ptr, t.pi⟩)).obj x = some h := by rw [Mem.set_obj_of_ne _ hne, hx]
  have hassign : copyAssign m .weak w .shared x s =
      (onHeap (assignCount m .weak t.pi h.pi) >>= fun pi => put w ⟨.weak, h.ptr, pi⟩)
        (s.set w (some ⟨.weak, h.ptr, t.pi⟩)) := by
    simp only [copyAssign, Prog.bind_apply, get, hx, hkx, hw, hkw, if_true, put, Prog.modify_apply, hx']
  rw [hassign, Prog.bind_apply, onHeap, Mem.set_heap]
  obtain he | ⟨h', he⟩ := weakAssignCount_cases (m := m) t.pi h.pi s.heap
  · generalize assignCount m .weak t.pi h.pi s.heap = r at he
    obtain ⟨r, h'⟩ := r
    obtain rfl : r = .stop := he
    exact .inl rfl
  · refine .inr ⟨h', he, ?_⟩
    simp [he, put, Mem.set]

/-- What `_M_assign` does where the block of `w` has no owner: `x`, the new owner, is assigned. -/
theorem copyAssign_adopts (ok : s.Holds BlocksOk) {h t : Handle} (hne : x ≠ w) (hx : u.obj x = some h)
    (hkx : h.kind = .shared) (hp : h.ptr ≠ none) (hpi : h.pi = some s.heap.next)
    (hw : u.obj w = s.obj w ∨ s.obj w = none ∧ u.obj w = some ⟨.weak, none, none⟩)
    (hheap : ∀ b blk, s.heap.blocks b = some blk → WeakReleases 0 b s.heap u.heap) (ht : u.obj w = some t)
    (hkt : t.kind = .weak) (hzero : useCount m t.pi s.heap = 0) :
    Adopts m w x true s (copyAssign m .weak w .shared x u) := by
  obtain hstop | ⟨heap, hassign, hcopy⟩ := copyAssign_apply (m := m) hx hkx ht hkt hne
  · exact .of_stop hstop
  · rw [hcopy]
    obtain ⟨hk, p, pi⟩ := h
    obtain rfl : hk = .shared := hkx
    obtain ⟨p, rfl⟩ := Option.ne_none_iff_exists'.mp hp
    obtain rfl : pi = some s.heap.next := hpi
    refine .linked rfl ⟨fun t' ht' => ?_, ⟨p, ?_, ?_⟩, fun t' b ht' hb => ?_⟩
    · rcases hw with hw | ⟨hw, -⟩
      · rw [← hw, ht] at ht'
        cases ht'
        exact hzero
      · rw [hw] at ht'
        cases ht'
    · exact (Mem.set_obj_of_ne u hne _).trans hx
    · exact Mem.set_obj ..
    · obtain ⟨blk, hblk⟩ := exists_block_of_obj ok ht' hb
      have hlt := ok.lt hblk
      have hu := hheap b blk hblk
      rcases hw with hw | ⟨hw, -⟩
      · rw [← hw, ht] at ht'
        cases ht'
        obtain ⟨blk', -, hblk'⟩ := hu.counts
        rw [hb] at hassign
        exact WeakReleases.trans hu (weakReleases_assign hblk' (Nat.ne_of_gt hlt) hassign)
      · rw [hw] at ht'
        cases ht'

/-- From the construction of `x` to the end of the constructor. -/
theorem hook_adopts (base : Bool) (ok : s.Holds BlocksOk) {h : Handle} (hne : x ≠ w)
    (hx : u.obj x = some h) (hpi : h.ptr ≠ none → h.pi = some s.heap.next)
    (hw : u.obj w = s.obj w ∨ s.obj w = none ∧ u.obj w = some ⟨.weak, none, none⟩)
    (hheap : ∀ b blk, s.heap.blocks b = some blk → WeakReleases 0 b s.heap u.heap) :
    Adopts m w x base s ((if base then enableSharedFromThisWith m w x else pure ()) u) := by
  cases base with
  | false => exact .kept hw nofun
  | true =>
    show Adopts m w x true s (enableSharedFromThisWith m w x u)
    -- what `w` refers to has the same use count as before
    have huse : ∀ t, u.obj w = some t → useCount m t.pi u.heap = useCount m t.pi s.heap := by
      intro t ht
      rcases hw with hw | ⟨-, hw⟩
      · rw [hw] at ht
        cases hp : t.pi with
        | none => rfl
        | some b =>
          obtain ⟨blk, hb⟩ := exists_block_of_obj ok ht hp
          exact (hheap b blk hb).useCount_eq
      · rw [hw] at ht
        cases ht
        rfl
    obtain he | ⟨h', hx', hkx, ⟨hp, he⟩ | ⟨hp, t, ht, hkt, he⟩⟩ := enableSharedFromThisWith_cases (m := m) w x u
    · exact .of_stop he
    · rw [he]
      refine .kept hw ?_
      intro _ _ p b hxb
      rw [hx'] at hxb
      cases hxb
      cases hp
    · obtain rfl : h = h' := Option.some.inj (hx.symm.trans hx')
      rw [he]
      split
      next hzero =>
        exact copyAssign_adopts ok hne hx hkx hp (hpi hp) hw hheap ht hkt ((huse t ht).symm.trans hzero)
      next hlive =>
        refine .kept hw fun _ hexp p b _ => absurd ?_ hlive
        rcases hw with hw | ⟨-, hw⟩
        · rw [huse t ht]
          exact hexp t (hw ▸ ht)
        · rw [hw] at ht
          cases ht
          rfl

theorem WeakReleases.refl {b : Nat} {h : Heap} {blk : Block} (hb : h.blocks b = some blk) : WeakReleases 0 b h h :=
  ⟨⟨blk, hb, hb⟩, [], (List.append_nil _).symm, rfl⟩

/-- The constructor makes a temporary that changes places with `x`'s pointer. -/
theorem swapTemporary_adopts {base : Bool} {make : Ref V → Prog (Mem V) Exn Unit} (ok : s.Holds BlocksOk)
    (hx : x ≠ .inr .tmp) (hw : w ≠ .inr .tmp) (hne : x ≠ w)
    (hmake : Adopts m w (.inr .tmp) base s (make (.inr .tmp) s))
    (hkeep : (make (.inr .tmp) s).1 = .stop ∨ (make (.inr .tmp) s).2.obj x = s.obj x) :
    Adopts m w x base s (swapTemporary m .shared make x s) := by
  rw [swapTemporary, Prog.bind_apply]
  generalize make (.inr .tmp) s = r at hmake hkeep
  obtain ⟨r, u⟩ := r
  cases r with
  | stop => exact .stopped
  | throw e =>
    cases hmake with
    | kept hw' _ =>
      refine .kept hw' ?_
      intro _ _ p b hxb
      rw [show u.obj x = s.obj x from hkeep.resolve_left (by simp)] at hxb
      obtain ⟨blk, hb⟩ := exists_block_of_obj ok hxb rfl
      simp [hb]
  | ok =>
    have hkeep : u.obj x = s.obj x := hkeep.resolve_left (by simp)
    simp only
    rcases get_cases .shared (.inr .tmp) u with hs | ⟨t, ht, hkt, hs⟩
    · simp only [Prog.atExit, swap, Prog.bind_apply, hs]
      exact .stopped
    rcases get_cases .shared x u with hs' | ⟨h, hxu, hkx, -⟩
    · simp only [Prog.atExit, swap, Prog.bind_apply, hs, hs']
      exact .stopped
    obtain ⟨s', he, hheap, hobj⟩ := swap_temporary (m := m) ht hkt hxu hkx hx
    have hw' : s'.obj w = u.obj w := by
      rw [hobj, Mem.set_obj_of_ne _ hw, Mem.set_obj_of_ne _ (Ne.symm hne)]
    have hx' : s'.obj x = some t := by
      rw [hobj, Mem.set_obj_of_ne _ hx, Mem.set_obj]
    rw [he]
    cases hmake with
    | kept hw₁ hnew =>
      exact .kept (by rwa [hw']) fun hb hexp p b hxb => hnew hb hexp p b (by rw [ht, ← hxb, hx'])
    | linked hb hl =>
      obtain ⟨p, hp, hw₁⟩ := hl.owner
      refine .linked hb ⟨hl.expired, ⟨p, by rw [hx', ← ht, hp], by rw [hw', hw₁]⟩, ?_⟩
      intro t' b ht' hb'
      have hreleased := hl.released t' b ht' hb'
      obtain ⟨blk, -, hblk⟩ := hreleased.counts
      rw [hheap]
      show WeakReleases (1 + 0) b s.heap _
      refine WeakReleases.trans hreleased ?_
      cases hpi : h.pi with
      | none => exact WeakReleases.refl hblk
      | some b' =>
        refine weakReleases_of_ne hblk ?_
        rintro rfl
        -- `x` owns its block, and the block of `w` has no owner
        have hzero := hl.expired t' ht'
        rw [hb', useCount_eq_zero ok] at hzero
        have hown := Mem.owners_ne_zero (hkeep ▸ hxu) hpi
        rw [hkx] at hown
        exact hown hzero

end

section

variable [Fintype V] [Fintype O] {s s' : Mem (V ⊕ O)}

theorem adoptCtor_adopts (ok : s.Holds BlocksOk) {x : Ref (V ⊕ O)} {o : O} (hne : x ≠ weakThis o) (c : Construction) :
    Adopts m (weakThis o) x c.hasEsftBase s (adoptCtor E m x o c s) := by
  -- what follows the construction of `x`
  have hrest : ∀ (u : Mem (V ⊕ O)) h, u.obj x = some h → (h.ptr ≠ none → h.pi = some s.heap.next) →
      u.obj (weakThis o) = s.obj (weakThis o) →
      (∀ b blk, s.heap.blocks b = some blk → WeakReleases 0 b s.heap u.heap) →
      Adopts m (weakThis o) x c.hasEsftBase s
        (((if c.makesObject then defaultCtor .weak (weakThis o) else pure ()) >>= fun _ =>
          if c.hasEsftBase then enableSharedFromThisWith m (weakThis o) x else pure ()) u) := by
    intro u h hx hpi hw hheap
    cases c.makesObject with
    | false => exact hook_adopts _ ok hne hx hpi (.inl hw) hheap
    | true =>
      simp only [if_true]
      rw [Prog.bind_apply, defaultCtor]
      rcases create_cases (weakThis o) ⟨.weak, none, none⟩ u with he | ⟨hnone, he⟩
      · simp only [he]
        exact .stopped
      · simp only [he]
        exact hook_adopts _ ok hne ((Mem.set_obj_of_ne u hne _).trans hx) hpi (.inr ⟨hw ▸ hnone, Mem.set_obj ..⟩) hheap
  have hc := c.ctor_constructs E m x s
  have hheap : ∀ b blk, s.heap.blocks b = some blk →
      (c.ctor E m x s).1 = .stop ∨ WeakReleases 0 b s.heap (c.ctor E m x s).2.heap :=
    fun b blk hb => hc.weakReleases hb (ok.lt hb)
  rw [adoptCtor, Prog.bind_apply]
  generalize c.ctor E m x s = r at hc hheap
  cases hc with
  | failed =>
    refine .kept (.inl rfl) ?_
    intro _ _ p b hxb
    obtain ⟨blk, hb⟩ := exists_block_of_obj ok hxb rfl
    rw [hb]
    nofun
  | stopped => exact .stopped
  | empty =>
    exact hrest _ _ (Mem.set_obj ..) (absurd rfl) (Mem.set_obj_of_ne _ (Ne.symm hne) _)
      fun b blk hb => (hheap b blk hb).resolve_left nofun
  | made =>
    exact hrest _ _ (Mem.set_obj ..) (fun _ => rfl) (Mem.set_obj_of_ne _ (Ne.symm hne) _)
      fun b blk hb => (hheap b blk hb).resolve_left nofun

/-- By what operation `_M_weak_this` of `o` changes. -/
inductive Tracks (m : Mode) (op : ObjectOp V O) (o : O) (s s' : Mem (V ⊕ O)) : Prop
  | same : s'.obj (weakThis o) = s.obj (weakThis o) → Tracks m op o s s'
  | object : s.obj (weakThis o) = none → s'.obj (weakThis o) = some ⟨.weak, none, none⟩ → Tracks m op o s s'
  | ended : op = .endObject o → s'.obj (weakThis o) = none → Tracks m op o s s'
  | linked {x : V} : op.adopts o = some x → Links m (weakThis o) (.inl (.inl x)) s s' → Tracks m op o s s'

theorem swapTemporary_adoptCtor_adopts (ok : s.Holds BlocksOk) (x : V) (o : O) (c : Construction) :
    Adopts m (weakThis o) (.inl (.inl x)) c.hasEsftBase s
      (swapTemporary m .shared (fun tmp => adoptCtor E m tmp o c) (.inl (.inl x)) s) := by
  have hkeep := adoptCtor_frame (E := E) (m := m) stable_true (frameOf_object (.inl (.inl x)) (s.obj (.inl (.inl x))))
    (x := .inr .tmp) (o := o) nofun nofun c s ⟨trivial, rfl⟩
  exact swapTemporary_adopts ok nofun nofun nofun (adoptCtor_adopts ok (by nofun) c) (hkeep.imp_right And.right)

theorem adoptReset_adopts (ok : s.Holds BlocksOk) (x : V) (o : O) (arg : Raw) :
    Adopts m (weakThis o) (.inl (.inl x)) (Construction.raw arg).hasEsftBase s (adoptReset E m (.inl (.inl x)) o arg s) := by
  obtain he | he := adoptReset_cases (E := E) (m := m) (.inl (.inl x)) o arg s
  · rw [he]
    exact .stopped
  · rw [he]
    exact swapTemporary_adoptCtor_adopts ok x o (.raw arg)

/-- Every operation that adopts an object. -/
theorem objectOp_adopts (ok : s.Holds BlocksOk) {op : ObjectOp V O} {x : V} {o : O} (h : op.adopts o = some x) :
    Adopts m (weakThis o) (.inl (.inl x)) true s (op.exec E m s) := by
  cases op with
  | adopt y o' c =>
    obtain ⟨⟨rfl, hbase⟩, he⟩ := Option.ite_none_right_eq_some.mp h
    obtain rfl := Option.some.inj he
    exact hbase ▸ adoptCtor_adopts ok (by nofun) c
  | adoptReset y o' arg =>
    obtain ⟨⟨rfl, hbase⟩, he⟩ := Option.ite_none_right_eq_some.mp h
    obtain rfl := Option.some.inj he
    exact hbase ▸ adoptReset_adopts ok y o' arg
  | adoptAssign y o' r =>
    obtain ⟨rfl, he⟩ := Option.ite_none_right_eq_some.mp h
    obtain rfl := Option.some.inj he
    exact swapTemporary_adoptCtor_adopts ok y o' (.unique r)
  | _ => cases h

omit [Fintype V] [Fintype O] in
theorem object_tracks (op : ObjectOp V O) (o : O) :
    (defaultCtor .weak (weakThis o) s).1 = .stop ∨ Tracks m op o s (defaultCtor .weak (weakThis o) s).2 := by
  rw [defaultCtor]
  rcases create_cases (weakThis o) ⟨.weak, none, none⟩ s with he | ⟨hnone, he⟩
  · exact .inl (by rw [he])
  · rw [he]
    exact .inr (.object hnone (Mem.set_obj ..))

omit [DecidableEq V] [Fintype V] [Fintype O] in
theorem Adopts.tracks {base : Bool} {x : V} {o : O} {op : ObjectOp V O} {r : Result Exn Unit × Mem (V ⊕ O)}
    (h : Adopts m (weakThis o) (.inl (.inl x)) base s r) (hop : base = true → op.adopts o = some x) :
    r.1 = .stop ∨ Tracks m op o s r.2 := by
  cases h with
  | stopped => exact .inl rfl
  | kept hw =>
    rcases hw with hw | ⟨hnone, hw⟩
    · exact .inr (.same hw)
    · exact .inr (.object hnone hw)
  | linked hb hl => exact .inr (.linked (hop hb) hl)

/-- **What an operation does** to `_M_weak_this` of an object. -/
theorem objectOp_tracks (ok : s.Holds BlocksOk) (op : ObjectOp V O) (o : O) :
    (op.exec E m s).1 = .stop ∨ Tracks m op o s (op.exec E m s).2 := by
  by_cases hmem : .inr o ∈ op.changes
  · cases op <;> simp only [ObjectOp.changes, List.mem_cons, List.not_mem_nil, or_false, reduceCtorEq, false_or,
      Sum.inr.injEq] at hmem
    case handle op =>
      have hprivate : op.changes.any Sum.isRight = true := List.any_eq_true.mpr ⟨.inr o, hmem, rfl⟩
      exact .inl (by simp only [ObjectOp.exec, hprivate, if_true, Prog.stop_apply])
    case object =>
      subst hmem
      exact object_tracks _ o
    case copyObject r =>
      subst hmem
      rcases get_cases .weak (weakThis r) s with hr | ⟨h, -, -, hr⟩
      · exact .inl (by simp only [ObjectOp.exec, Prog.bind_apply, hr])
      · simp only [ObjectOp.exec, Prog.bind_apply, hr]
        exact object_tracks _ o
    case adopt x _ c =>
      subst hmem
      exact (adoptCtor_adopts ok (by simp) c).tracks fun hb => if_pos ⟨rfl, hb⟩
    case adoptReset x _ arg =>
      subst hmem
      exact (adoptReset_adopts ok x o arg).tracks fun hb => if_pos ⟨rfl, hb⟩
    case adoptAssign x _ r =>
      subst hmem
      exact (swapTemporary_adoptCtor_adopts ok x o (.unique r)).tracks fun _ => if_pos rfl
    case endObject =>
      subst hmem
      refine .inr (.ended rfl ?_)
      simp only [ObjectOp.exec, Prog.modify_apply, destroyObject]
      split
      next hnone => exact hnone
      next => exact Mem.set_obj ..
  · have hkeep := objectOp_frame (E := E) (m := m) stable_true (frameOf_object (weakThis o) (s.obj (weakThis o))) op
      (fun y hy he => hmem (Sum.inl.inj he ▸ hy)) (by simp) s ⟨trivial, rfl⟩
    exact hkeep.imp_right fun h => .same h.2

end

/-! ## The owners -/

/-- Some shared pointer owns the block that the weak pointer at `w` refers to. -/
def Owned (s : Mem V) (w : Ref V) : Prop :=
  ∃ t b, s.obj w = some t ∧ t.pi = some b ∧ ∃ y h, s.obj y = some h ∧ h.kind = .shared ∧ h.pi = some b

section

variable [Fintype V] {s : Mem V}

omit [DecidableEq V] in
theorem owners_eq_zero {k : Kind} {b : Nat} :
    s.owners k b = 0 ↔ ∀ y h, s.obj y = some h → h.kind = k → h.pi ≠ some b := by
  simp only [Mem.owners, Finset.sum_eq_zero_iff, Finset.mem_univ, forall_const]
  refine forall_congr' ?_
  intro y
  cases s.obj y with
  | none => simp
  | some h =>
    simp only [Option.elim, Handle.owns, ite_eq_right_iff, one_ne_zero, imp_false, not_and, Option.some.injEq,
      forall_eq', @eq_comm _ k]

omit [DecidableEq V] in
theorem not_owned_iff (ok : s.Holds BlocksOk) {w : Ref V} : ¬ Owned s w ↔ Expired m s w := by
  constructor
  · intro hnot t ht
    cases hpi : t.pi with
    | none => rfl
    | some b =>
      rw [useCount_eq_zero ok, owners_eq_zero]
      exact fun y h hy hk hb => hnot ⟨t, b, ht, hpi, y, h, hy, hk, hb⟩
  · rintro hexp ⟨t, b, ht, hpi, y, h, hy, hk, hb⟩
    have hzero := hexp t ht
    rw [hpi, useCount_eq_zero ok, owners_eq_zero] at hzero
    exact hzero y h hy hk hb

/-! ## Locking `_M_weak_this` -/

/-- A weak pointer that has expired is not converted, and nothing happens. -/
theorem weakCtor_expired (ok : s.Holds BlocksOk) {x w : Ref V} {t : Handle} (hw : s.obj w = some t) (hkw : t.kind = .weak)
    (hzero : useCount m t.pi s.heap = 0) :
    weakCtor m x w s = (if m = .constEval then .stop else .throw .badWeakPtr, s) := by
  have hcount : countOfWeak m t.pi s.heap = (if m = .constEval then .stop else .throw .badWeakPtr, s.heap) := by
    cases hpi : t.pi with
    | none => exact throwBadWeakPtr_apply m s.heap
    | some b =>
      rw [hpi] at hzero
      obtain ⟨blk, hb⟩ := exists_block_of_obj ok hw hpi
      have hu : blk.counts.useCount = 0 := by
        have hblk := ok.blocks b
        rw [hb] at hblk
        rw [eq_zero_iff, hblk.1]
        exact (useCount_eq_zero ok).mp hzero
      have hlock : blk.counts.addRefLockNothrow m = some (false, blk.counts) := by
        rw [Counts.addRefLockNothrow_eq (by rw [hu]; decide), if_pos hu]
      have hsame : s.heap.setCounts b blk blk.counts = s.heap := by
        simp only [Heap.setCounts, ← hb, Function.update_eq_self]
      simp only [countOfWeak, Prog.bind_apply, addRefLockNothrow, hb, hlock, hsame]
      exact throwBadWeakPtr_apply m s.heap
  simp only [weakCtor, Prog.bind_apply, get, hw, hkw, if_true, onHeap, hcount]
  split_ifs <;> rfl

omit [Fintype V] in
/-- A weak pointer that has not expired is converted, unless the lock has no place for one more owner. -/
theorem weakCtor_live {x w : Ref V} {t : Handle} {b : Nat} {blk : Block} (hx : s.obj x = none) (hw : s.obj w = some t)
    (hkw : t.kind = .weak) (hpi : t.pi = some b) (hb : s.heap.blocks b = some blk) (hu : blk.counts.useCount ≠ 0) :
    (weakCtor m x w s).1 = .stop ∧ 2 ^ 31 ≤ blk.counts.useCount.toNat + 1 ∨
      blk.counts.useCount ≠ -1 ∧ weakCtor m x w s = (.ok (), { s with heap := s.heap.setCounts b blk (blk.counts.more .shared) }.set x
        (some ⟨.shared, t.ptr, some b⟩)) := by
  have hctor : weakCtor m x w s = (onHeap (countOfWeak m (some b)) >>= fun pi => create x ⟨.shared, t.ptr, pi⟩) s := by
    rw [weakCtor, Prog.bind_apply]
    simp only [get, hw, hkw, if_true, hpi]
  cases hlock : blk.counts.addRefLockNothrow m with
  | none =>
    refine .inl ⟨?_, ?_⟩
    · rw [hctor]
      simp only [Prog.bind_apply, onHeap, countOfWeak, addRefLockNothrow, hb, hlock]
    · by_contra hlt
      rw [Counts.addRefLockNothrow_eq (by omega), if_neg hu] at hlock
      cases hlock
  | some r =>
    rcases Counts.addRefLockNothrow_locked hlock with ⟨-, h0⟩ | ⟨rfl, -, hne⟩
    · exact absurd h0 hu
    · refine .inr ⟨hne, ?_⟩
      rw [hctor]
      simp only [Prog.bind_apply, onHeap, countOfWeak, addRefLockNothrow, hb, hlock, if_true, Prog.pure_apply, create, hx]
      rfl

end

/-! ## The law -/

section

variable [Fintype V] [Fintype O] {s s' : Mem (V ⊕ O)}

omit [Fintype V] [Fintype O] in
theorem ObjectOp.of_step {P : Mem (V ⊕ O) → Prop} {op : ObjectOp V O} (h : op.step E m s = some s')
    (hk : (op.exec E m s).1 = .stop ∨ P (op.exec E m s).2) : P s' := by
  unfold ObjectOp.step at h
  split at h
  next => cases h
  next r u hr he =>
    cases h
    rw [he] at hk
    exact hk.resolve_left hr

theorem ObjectOp.run_holds {ops : List (ObjectOp V O)} (h : run (ObjectOp.step E m) s ops = some s')
    (ok : s.Holds BlocksOk) : s'.Holds BlocksOk :=
  Lib.run_invariant (fun _ op _ ok h => ObjectOp.of_step h (objectOp_keeps op _ ok)) h ok

/-- The operation took ownership of `o` by the new block `b`, while `_M_weak_this` was empty or had expired. -/
structure Adoption (E : Env) (m : Mode) (op : ObjectOp V O) (o : O) (p b : Nat) (s s' : Mem (V ⊕ O)) : Prop where
  step : op.step E m s = some s'
  vacant : ¬ Owned s (weakThis o)
  fresh : s.heap.blocks b = none
  owner : ∃ x, op.adopts o = some x ∧ s'.obj (.inl (.inl x)) = some ⟨.shared, some p, some b⟩

/-- What holds of `_M_weak_this` of `o` in the state `s` that the operations `ops` have reached. -/
structure TracksOwner (E : Env) (m : Mode) (ops : List (ObjectOp V O)) (s : Mem (V ⊕ O)) (o : O) : Prop where
  adopted : ∀ t b, s.obj (weakThis o) = some t → t.pi = some b → ∃ pre op post u u' p, ops = pre ++ op :: post ∧
    run (ObjectOp.step E m) .empty pre = some u ∧ Adoption E m op o p b u u' ∧ t = ⟨.weak, some p, some b⟩
  /-- While the block has an owner, only the end of the object ends the reference. -/
  kept : ∀ ops' s', run (ObjectOp.step E m) s ops' = some s' →
    Along (ObjectOp.step E m) (fun u op => Owned u (weakThis o) ∧ op ≠ .endObject o) s ops' →
    s'.obj (weakThis o) = s.obj (weakThis o)
  /-- But for a block with the largest number of owners there can be, which gets no other one. -/
  shared : ∀ x t b, s.obj (.inl (.inl x)) = none → s.obj (weakThis o) = some t → t.pi = some b →
    Owned s (weakThis o) → ∃ blk, s.heap.blocks b = some blk ∧
      ((ObjectOp.sharedFromThis x o).exec E m s = (.ok (),
          { s with heap := s.heap.setCounts b blk (blk.counts.more .shared) }.set (.inl (.inl x)) (some ⟨.shared, t.ptr, some b⟩)) ∧
          (blk.counts.more .shared).useCount.toNat = blk.counts.useCount.toNat + 1 ∨
        ((ObjectOp.sharedFromThis x o).exec E m s).1 = .stop ∧ 2 ^ 31 ≤ blk.counts.useCount.toNat + 1)
  /-- Constant evaluation ends here instead. -/
  thrown : ∀ x, s.obj (weakThis o) ≠ none → ¬ Owned s (weakThis o) →
    (ObjectOp.sharedFromThis x o).exec E m s = (if m = .constEval then .stop else .throw .badWeakPtr, s)
  readopted : ∀ op p b s', Adoption E m op o p b s s' → s'.obj (weakThis o) = some ⟨.weak, some p, some b⟩ ∧
    ∀ t b', s.obj (weakThis o) = some t → t.pi = some b' → WeakReleases 1 b' s.heap s'.heap

theorem weakThis_kind {ops : List (ObjectOp V O)} {o : O} (hrun : run (ObjectOp.step E m) .empty ops = some s) {t : Handle}
    (ht : s.obj (weakThis o) = some t) : t.kind = .weak := by
  have hinv := Lib.run_invariant
    (I := fun u : Mem (V ⊕ O) => u.Holds BlocksOk ∧ ∀ t, u.obj (weakThis o) = some t → t.kind = .weak)
    (fun u op u' hu hstep => ?_) hrun ⟨holds_empty, nofun⟩
  · exact hinv.2 t ht
  · refine ⟨ObjectOp.of_step hstep (objectOp_keeps op u hu.1), ?_⟩
    intro t ht
    have htracks : Tracks m op o u u' := ObjectOp.of_step hstep (objectOp_tracks hu.1 op o)
    cases htracks with
    | same hw => exact hu.2 t (hw ▸ ht)
    | object _ hw =>
      rw [hw] at ht
      cases ht
      rfl
    | ended _ hw =>
      rw [hw] at ht
      cases ht
    | linked _ hl =>
      obtain ⟨p, -, hw⟩ := hl.owner
      rw [hw] at ht
      cases ht
      rfl

theorem exists_adoption {ops : List (ObjectOp V O)} {o : O} (hrun : run (ObjectOp.step E m) .empty ops = some s)
    {t : Handle}
    {b : Nat} (ht : s.obj (weakThis o) = some t) (hb : t.pi = some b) :
    ∃ pre op post u u' p, ops = pre ++ op :: post ∧ run (ObjectOp.step E m) .empty pre = some u ∧
      Adoption E m op o p b u u' ∧ t = ⟨.weak, some p, some b⟩ := by
  induction ops using List.reverseRecOn generalizing s with
  | nil =>
    cases hrun
    cases ht
  | append_singleton ops op ih =>
    obtain ⟨u, hu, hstep⟩ := Lib.run_snoc.mp hrun
    have ok := ObjectOp.run_holds hu holds_empty
    have htracks : Tracks m op o u s := ObjectOp.of_step hstep (objectOp_tracks ok op o)
    cases htracks with
    | same hw =>
      obtain ⟨pre, op', post, v, v', p, rfl, hpre, had⟩ := ih hu (hw ▸ ht)
      exact ⟨pre, op', post ++ [op], v, v', p, by simp, hpre, had⟩
    | object _ hw =>
      rw [hw] at ht
      cases ht
      cases hb
    | ended _ hw =>
      rw [hw] at ht
      cases ht
    | linked hop hl =>
      rename_i x
      obtain ⟨p, hx, hw⟩ := hl.owner
      rw [hw] at ht
      cases ht
      cases hb
      exact ⟨ops, op, [], u, s, p, rfl, hu, ⟨hstep, (not_owned_iff ok).mpr hl.expired, ok.next_none, x, hop, hx⟩, rfl⟩

theorem kept_while_owned (ok : s.Holds BlocksOk) {ops : List (ObjectOp V O)} {o : O}
    (hrun : run (ObjectOp.step E m) s ops = some s')
    (h : Along (ObjectOp.step E m) (fun u op => Owned u (weakThis o) ∧ op ≠ .endObject o) s ops) :
    s'.obj (weakThis o) = s.obj (weakThis o) := by
  have hinv := Lib.run_invariant_along
    (I := fun u : Mem (V ⊕ O) => u.Holds BlocksOk ∧ u.obj (weakThis o) = s.obj (weakThis o))
    (fun u op u' hu hc hstep => ?_) hrun h ⟨ok, rfl⟩
  · exact hinv.2
  · obtain ⟨howned, hop⟩ := hc
    refine ⟨ObjectOp.of_step hstep (objectOp_keeps op u hu.1), ?_⟩
    have htracks : Tracks m op o u u' := ObjectOp.of_step hstep (objectOp_tracks hu.1 op o)
    cases htracks with
    | same hw => rw [hw, hu.2]
    | object hnone =>
      obtain ⟨t, b, ht, -⟩ := howned
      rw [hnone] at ht
      cases ht
    | ended he => exact absurd he hop
    | linked _ hl => exact absurd howned ((not_owned_iff hu.1).mpr hl.expired)

theorem readopted_of_adoption (ok : s.Holds BlocksOk) {op : ObjectOp V O} {o : O} {p b : Nat}
    (had : Adoption E m op o p b s s') :
    s'.obj (weakThis o) = some ⟨.weak, some p, some b⟩ ∧
      ∀ t b', s.obj (weakThis o) = some t → t.pi = some b' → WeakReleases 1 b' s.heap s'.heap := by
  obtain ⟨x, hop, hx⟩ := had.owner
  have hexp : Expired m s (weakThis o) := (not_owned_iff ok).mp had.vacant
  have hlinks : Links m (weakThis o) (.inl (.inl x)) s s' := by
    have hadopts := objectOp_adopts (E := E) (m := m) ok hop
    have hstep := had.step
    unfold ObjectOp.step at hstep
    generalize op.exec E m s = r at hadopts hstep
    cases hadopts with
    | stopped => cases hstep
    | kept hw hnew =>
      rename_i r u
      have hu : u = s' := by
        cases r with
        | stop => cases hstep
        | ok | throw => exact Option.some.inj hstep
      subst hu
      exact absurd had.fresh (hnew rfl hexp p b hx)
    | linked _ hl =>
      obtain rfl := Option.some.inj hstep
      exact hl
  obtain ⟨p', hx', hw⟩ := hlinks.owner
  rw [hx] at hx'
  cases hx'
  exact ⟨hw, hlinks.released⟩

end

/-- An object is adopted, shared from itself, left by its owners, and adopted again. -/
def adoptedTwice {V : Type} (x y z : V) : List (ObjectOp V Unit) :=
  [.object (), .adopt x () (.raw (.ptrDeleter (some 8) (.user 0))), .sharedFromThis y (),
    .handle (.plain (.destroy (.inl x))), .handle (.plain (.destroy (.inl y))),
    .adopt z () (.raw (.ptrDeleter (some 8) (.user 1)))]

end SharedPtr.Seq
