/-
The atomic pointers of constant evaluation and those of run time do the same.
At run time the word of an object has the lock bit between `lock` and
`unlock`; otherwise the two objects are equal at every statement (`Corresponds`),
and each of `lock`, `unlock` and `_M_swap_unlock` keeps that, with the bit set
or cleared on one side. A program on atomic pointers has the same reports on
both sides, up to a call of a function that is not `constexpr`, where constant
evaluation ends; and no operation leaves a bit set.
-/
import SharedPtr.UnderLock
import SharedPtr.Modes
import SharedPtr.Lib.Together

namespace SharedPtr.Seq

open Lib (Prog Result run Visits Along)
open Lib.Prog (Together)

set_option linter.unusedSectionVars false

variable {V A : Type} [DecidableEq V] [DecidableEq A] {k : Kind}

/-- No object has its bit set. -/
def World.Clear (w : World V A) : Prop := ∀ a o, w.atomics a = some o → o.val.bit = false

/-- At run time, with `held`, an object of class `k`, locked; and by constant
evaluation. -/
structure Corresponds (k : Kind) (held : Option A) (w w' : World V A) : Prop where
  mem : w.mem = w'.mem
  clear : w'.Clear
  present : ∀ a, held = some a → ∃ o, w'.atomics a = some o ∧ o.kind = k
  atomics : ∀ a, w.atomics a = (w'.atomics a).map fun o =>
    if held = some a then { o with val := o.val.withBit } else o

theorem Corresponds.eq {w w' : World V A} (h : Corresponds k none w w') : w = w' := by
  obtain ⟨mem, atomics⟩ := w
  obtain ⟨mem', atomics'⟩ := w'
  obtain rfl : mem = mem' := h.mem
  have ha : atomics = atomics' := funext fun a => by simpa using h.atomics a
  rw [ha]

theorem Corresponds.refl {w : World V A} (h : w.Clear) : Corresponds k none w w :=
  ⟨rfl, h, nofun, fun a => by simp⟩

variable {held : Option A} {lp : LockPolicy} {st : Bool} {n : Nat} {a : A} {x r : Ref V}

/-- The object at run time, while it is locked. -/
def SpAtomic.locked (o : SpAtomic) : SpAtomic := { o with val := o.val.withBit }

theorem onMem_corresponds {α : Type} {c c' : Prog (Mem V) Exn α} (hc : c = c') :
    Together (Corresponds k held) (onMem c : Prog (World V A) Exn α) (onMem c')
      fun v v' w w' => v = v' ∧ Corresponds k held w w' := by
  subst hc
  intro w w' hw
  unfold onMem
  rw [hw.mem]
  cases c w'.mem with
  | mk res s =>
    cases res with
    | ok v => exact ⟨rfl, rfl, hw.clear, hw.present, hw.atomics⟩
    | throw e => rfl
    | stop => trivial

theorem getAtomic_corresponds :
    Together (Corresponds k held) (getAtomic k a : Prog (World V A) Exn SpAtomic) (getAtomic k a)
      fun o o' w w' =>
        (o'.val.bit = false ∧ o'.kind = k ∧ o = if held = some a then o'.locked else o') ∧ Corresponds k held w w' := by
  intro w w' hw
  have ha := hw.atomics a
  unfold getAtomic
  cases ho : w'.atomics a with
  | none =>
    rw [ho] at ha
    simp only [ha, Option.map_none]
  | some o =>
    rw [ho] at ha
    have hk : (if held = some a then { o with val := o.val.withBit } else o).kind = o.kind := by split <;> rfl
    simp only [ha, Option.map_some, hk]
    by_cases hkind : o.kind = k
    · simp only [if_pos hkind]
      exact ⟨⟨hw.clear a o ho, hkind, rfl⟩, hw⟩
    · simp only [if_neg hkind]

/-- A locked object is written on both sides. -/
theorem putAtomic_corresponds {o o' : SpAtomic} (hbit : o'.val.bit = false) (hk : o'.kind = k)
    (ho : o = o'.locked) :
    Together (Corresponds k (some a)) (putAtomic a o : Prog (World V A) Exn Unit) (putAtomic a o')
      fun _ _ => Corresponds k (some a) := by
  refine .modify fun w w' hw => ⟨hw.mem, fun a' o₁ h₁ => ?_, fun a' haa => ?_, fun a' => ?_⟩
  · by_cases haa : a' = a
    · subst haa
      simp only [World.setAtomic, Function.update_self, Option.some.injEq] at h₁
      rw [← h₁, hbit]
    · simp only [World.setAtomic, Function.update_of_ne haa] at h₁
      exact hw.clear a' o₁ h₁
  · cases haa
    exact ⟨o', by simp [World.setAtomic], hk⟩
  · by_cases haa : a' = a
    · subst haa
      simp only [World.setAtomic, Function.update_self, Option.map_some, if_true, ho, SpAtomic.locked]
    · simp only [World.setAtomic, Function.update_of_ne haa, hw.atomics a']

/-! ## `lock`, `unlock` and `_M_swap_unlock` -/

theorem lock_runTime (w : World V A) :
    lock (.runTime lp st n) k a w =
      match getAtomic k a w with
      | (.ok o, _) =>
        if o.val.bit then (.stop, w) else (.ok o.val.pi, (w.setAtomic a (some o.locked)).emit [.lock])
      | _ => (.stop, w) := by
  unfold lock
  rw [Prog.bind_apply]
  unfold getAtomic
  cases w.atomics a with
  | none => rfl
  | some o =>
    by_cases hk : o.kind = k
    · simp only [if_pos hk]
      cases hb : o.val.bit with
      | true => rfl
      | false => simp [Tagged.compareExchangeStrong, Prog.bind_apply, putAtomic, Tagged.toPtr, hb, SpAtomic.locked]
    · simp only [if_neg hk]

theorem lock_corresponds :
    Together (Corresponds k none) (lock (.runTime lp st n) k a : Prog (World V A) Exn CountPtr) (lock .constEval k a)
      fun pi pi' w w' => pi = pi' ∧ Corresponds k (some a) w w' := by
  have hce : ∀ w : World V A, lock .constEval k a w =
      match getAtomic k a w with
      | (.ok o, _) => if o.val.bit then (.stop, w) else (.ok o.val.pi, w.emit [.lock])
      | _ => (.stop, w) := by
    intro w
    unfold lock
    rw [Prog.bind_apply]
    unfold getAtomic
    cases w.atomics a with
    | none => rfl
    | some o =>
      by_cases hk : o.kind = k
      · simp only [if_pos hk]
        cases hb : o.val.bit <;> simp [Prog.bind_apply, Tagged.toPtr, hb]
      · simp only [if_neg hk]
  intro w w' hw
  obtain rfl := hw.eq
  rw [lock_runTime, hce]
  unfold getAtomic
  cases ho : w.atomics a with
  | none => trivial
  | some o =>
    by_cases hk : o.kind = k
    · simp only [if_pos hk, hw.clear a o ho, Bool.false_eq_true, if_false]
      refine ⟨trivial, rfl, hw.clear, fun a' haa => ?_, fun a' => ?_⟩
      · cases haa
        exact ⟨o, ho, hk⟩
      by_cases haa : a' = a
      · subst haa
        simp [World.setAtomic, World.emit, ho, SpAtomic.locked]
      · simp [World.setAtomic, World.emit, Function.update_of_ne haa, Ne.symm haa]
    · simp only [if_neg hk]

theorem unlock_corresponds :
    Together (Corresponds k (some a)) (unlock (.runTime lp st n) k a : Prog (World V A) Exn Unit)
      (unlock .constEval k a) fun _ _ => Corresponds k none := by
  intro w w' hw
  obtain ⟨o, ho, hk⟩ := hw.present a rfl
  have ha := hw.atomics a
  rw [ho, Option.map_some, if_pos rfl] at ha
  have hrt : unlock (.runTime lp st n) k a w = (.ok (), (w.setAtomic a (some o)).emit [.unlock]) := by
    have hb := hw.clear a o ho
    obtain ⟨kind, ptr, pi, bit⟩ := o
    obtain rfl : bit = false := hb
    obtain rfl : kind = k := hk
    simp only [unlock, Prog.bind_apply, getAtomic, ha, if_true, Tagged.compareExchangeStrong, Tagged.clear,
      Tagged.withBit, putAtomic, Prog.modify_apply]
  rw [hrt]
  refine ⟨by simp only [World.emit, World.setAtomic, hw.mem], hw.clear, nofun, ?_⟩
  intro a'
  by_cases haa : a' = a
  · subst haa
    simp [World.setAtomic, World.emit, ho]
  · have := hw.atomics a'
    simpa [World.setAtomic, World.emit, Function.update_of_ne haa, Ne.symm haa] using this

theorem swapUnlock_corresponds {pi : CountPtr} :
    Together (Corresponds k (some a)) (swapUnlock (.runTime lp st n) k a pi : Prog (World V A) Exn CountPtr)
      (swapUnlock .constEval k a pi) fun pi pi' w w' => pi = pi' ∧ Corresponds k none w w' := by
  intro w w' hw
  obtain ⟨o, ho, hk⟩ := hw.present a rfl
  have ha := hw.atomics a
  rw [ho, Option.map_some, if_pos rfl] at ha
  have hb := hw.clear a o ho
  have hrt : swapUnlock (.runTime lp st n) k a pi w =
      (.ok o.val.pi, (w.setAtomic a (some { o with val := .ofPtr pi })).emit [.unlock]) := by
    simp only [swapUnlock, Prog.bind_apply, getAtomic, ha, hk, if_true, putAtomic, Prog.modify_apply]
    rfl
  have hce : swapUnlock .constEval k a pi w' =
      (.ok o.val.pi, (w'.setAtomic a (some { o with val := .ofPtr pi })).emit [.unlock]) := by
    simp only [swapUnlock, Prog.bind_apply, getAtomic, ho, hk, if_true, putAtomic, Prog.modify_apply,
      Tagged.toPtr, hb, Bool.false_eq_true, if_false, Prog.ofOption_some]
  rw [hrt, hce]
  refine ⟨rfl, by simp only [World.emit, World.setAtomic, hw.mem], fun a' o₁ h₁ => ?_, nofun, fun a' => ?_⟩
  · by_cases haa : a' = a
    · subst haa
      simp only [World.emit, World.setAtomic, Function.update_self, Option.some.injEq] at h₁
      rw [← h₁]
      rfl
    · simp only [World.emit, World.setAtomic, Function.update_of_ne haa] at h₁
      exact hw.clear a' o₁ h₁
  · by_cases haa : a' = a
    · subst haa
      simp [World.setAtomic, World.emit]
    · have := hw.atomics a'
      simpa [World.setAtomic, World.emit, Function.update_of_ne haa, Ne.symm haa] using this

/-! ## The operations -/

/-- The members of a locked object, but for the bit. -/
theorem getLocked_corresponds :
    Together (Corresponds k (some a)) (getAtomic k a : Prog (World V A) Exn SpAtomic) (getAtomic k a)
      fun o o' w w' => (o'.val.bit = false ∧ o'.kind = k ∧ o = o'.locked) ∧ Corresponds k (some a) w w' :=
  getAtomic_corresponds.weaken (fun _ _ h => h) fun o o' w w' h => by simpa using h

theorem copyCount_corresponds {pi : CountPtr} :
    Together (Corresponds k held) (onMem (onHeap (copyCount (.runTime lp st n) k pi)) : Prog (World V A) Exn CountPtr)
      (onMem (onHeap (copyCount .constEval k pi))) fun v v' w w' => v = v' ∧ Corresponds k held w w' :=
  onMem_corresponds (by rw [copyCount_eq _ .constEval])

/-- The program is the same one on both sides, and has no value. -/
theorem same_corresponds (c : Prog (Mem V) Exn Unit) :
    Together (Corresponds k held) (onMem c : Prog (World V A) Exn Unit) (onMem c) fun _ _ => Corresponds k held :=
  (onMem_corresponds rfl).weaken (fun _ _ h => h) fun _ _ _ _ h => h.2

theorem get_corresponds :
    Together (Corresponds k held) (onMem (get k x) : Prog (World V A) Exn Handle) (onMem (get k x))
      fun h h' w w' => h = h' ∧ Corresponds k held w w' := onMem_corresponds rfl

namespace SpAtomic

theorem load_corresponds :
    Together (Corresponds k none) (load (.runTime lp st n) k a x : Prog (World V A) Exn Unit) (load .constEval k a x)
      fun _ _ => Corresponds k none := by
  refine Together.bind (same_corresponds _) fun _ _ => lock_corresponds.bind fun pi _ => .of_and ?_
  rintro rfl
  refine getLocked_corresponds.bind fun _ o => .of_and ?_
  rintro ⟨-, -, rfl⟩
  refine Together.bind (same_corresponds _) fun _ _ => copyCount_corresponds.bind fun pi _ => .of_and ?_
  rintro rfl
  exact Together.bind (same_corresponds _) fun _ _ => unlock_corresponds

theorem swap_corresponds :
    Together (Corresponds k none) (swap (.runTime lp st n) k a x : Prog (World V A) Exn Unit) (swap .constEval k a x)
      fun _ _ => Corresponds k none := by
  refine lock_corresponds.bind fun _ _ => .of_and fun _ => getLocked_corresponds.bind fun _ o => .of_and ?_
  rintro ⟨hbit, hk, rfl⟩
  refine get_corresponds.bind fun h _ => .of_and ?_
  rintro rfl
  refine Together.bind (putAtomic_corresponds hbit hk rfl) fun _ _ => Together.bind (same_corresponds _) fun _ _ =>
    Together.bind swapUnlock_corresponds fun pi _ => .of_and ?_
  rintro rfl
  exact same_corresponds _

theorem compareExchangeStrong_corresponds {e d : Ref V} :
    Together (Corresponds k none) (compareExchangeStrong (.runTime lp st n) k a e d : Prog (World V A) Exn Bool)
      (compareExchangeStrong .constEval k a e d) fun r r' w w' => r = r' ∧ Corresponds k none w w' := by
  refine lock_corresponds.bind fun pi _ => .of_and ?_
  rintro rfl
  refine getLocked_corresponds.bind fun _ o => .of_and ?_
  rintro ⟨hbit, hk, rfl⟩
  refine get_corresponds.bind fun he _ => .of_and ?_
  rintro rfl
  by_cases hc : o.ptr = he.ptr ∧ pi = he.pi
  · rw [if_pos hc, if_pos (show o.locked.ptr = he.ptr ∧ pi = he.pi from hc)]
    refine get_corresponds.bind fun hd _ => .of_and ?_
    rintro rfl
    refine Together.bind (putAtomic_corresponds hbit hk rfl) fun _ _ =>
      Together.bind swapUnlock_corresponds fun old _ => .of_and ?_
    rintro rfl
    exact Together.bind (same_corresponds _) fun _ _ => .pure fun _ _ h => ⟨rfl, h⟩
  · rw [if_neg hc, if_neg (show ¬ (o.locked.ptr = he.ptr ∧ pi = he.pi) from hc)]
    refine Together.bind (same_corresponds _) fun _ _ => Together.atExit
      (Q := fun r r' w w' => r = r' ∧ Corresponds k none w w') ?_ ?_
    · refine Together.bind (same_corresponds _) fun _ _ => copyCount_corresponds.bind fun pi _ => .of_and ?_
      rintro rfl
      exact Together.bind (same_corresponds _) fun _ _ => Together.bind unlock_corresponds fun _ _ =>
        .pure fun _ _ h => ⟨rfl, h⟩
    · rintro r r' w w' ⟨rfl, hw⟩
      exact ⟨rfl, by rw [hw.mem, destroyObject_eq _ .constEval], hw.clear, hw.present, hw.atomics⟩

theorem wait_corresponds :
    Together (Corresponds k none) (wait (.runTime lp st n) k a x false : Prog (World V A) Exn Unit)
      (wait .constEval k a x false) fun _ _ => Corresponds k none := by
  refine lock_corresponds.bind fun pi _ => .of_and ?_
  rintro rfl
  refine getLocked_corresponds.bind fun _ o => .of_and ?_
  rintro ⟨-, -, rfl⟩
  refine get_corresponds.bind fun h _ => .of_and ?_
  rintro rfl
  by_cases hc : o.ptr = h.ptr ∧ pi = h.pi
  · -- run time is blocked, constant evaluation does not end
    rw [if_pos hc, if_pos (show o.locked.ptr = h.ptr ∧ pi = h.pi from hc)]
    intro w w' hw
    have hu : Together (Corresponds k (some a)) (unlock (.runTime lp st n) k a : Prog (World V A) Exn Unit)
      (unlock .constEval k a) fun _ _ => Corresponds k none := unlock_corresponds
    replace hu := hu w w' hw
    unfold waitUnlock
    dsimp only
    rw [Prog.bind_apply]
    cases hr : unlock (.runTime lp st n) k a w with
    | mk res s =>
      rw [hr] at hu
      cases res with
      | ok => trivial
      | throw | stop => exact hu.elim
  · rw [if_neg hc, if_neg (show ¬ (o.locked.ptr = h.ptr ∧ pi = h.pi) from hc)]
    exact unlock_corresponds

end SpAtomic

/-- With nothing locked the two sides are equal: a program that sets no bit. -/
theorem clear_corresponds {α : Type} {c c' : Prog (World V A) Exn α} (hc : c = c')
    (h : ∀ w v w', w.Clear → c w = (.ok v, w') → w'.Clear) :
    Together (Corresponds k none) c c' fun v v' w w' => v = v' ∧ Corresponds k none w w' := by
  subst hc
  intro w w' hw
  obtain rfl := hw.eq
  cases hr : c w with
  | mk res s =>
    cases res with
    | ok v => exact ⟨rfl, .refl (h w v s hw.clear hr)⟩
    | throw e => rfl
    | stop => trivial

theorem World.Clear.setAtomic {w : World V A} (h : w.Clear) {o : Option SpAtomic}
    (ho : ∀ o', o = some o' → o'.val.bit = false) : (w.setAtomic a o).Clear := by
  intro a' o' h'
  by_cases haa : a' = a
  · subst haa
    exact ho o' (by simpa [World.setAtomic] using h')
  · exact h a' o' (by simpa [World.setAtomic, Function.update_of_ne haa] using h')

theorem createAtomic_corresponds {o : SpAtomic} (hbit : o.val.bit = false) :
    Together (Corresponds k none) (createAtomic a o : Prog (World V A) Exn Unit) (createAtomic a o)
      fun _ _ => Corresponds k none := by
  refine (clear_corresponds rfl fun w v w' hw he => ?_).weaken (fun _ _ h => h) fun _ _ _ _ h => h.2
  unfold createAtomic at he
  split at he
  · cases he
    exact hw.setAtomic fun o' ho' => by cases ho'; exact hbit
  · cases he

theorem ctor_corresponds :
    Together (Corresponds k none) (SpAtomic.ctor k a x : Prog (World V A) Exn Unit) (SpAtomic.ctor k a x)
      fun _ _ => Corresponds k none := by
  refine Together.bind get_corresponds fun h _ => .of_and ?_
  rintro rfl
  exact Together.bind (createAtomic_corresponds rfl) fun _ _ => same_corresponds _

theorem dtor_corresponds :
    Together (Corresponds k none) (SpAtomic.dtor (.runTime lp st n) k a : Prog (World V A) Exn Unit)
      (SpAtomic.dtor .constEval k a) fun _ _ => Corresponds k none := by
  have hdrop : dropCount (.runTime lp st n) = dropCount .constEval := dropCount_eq _ _
  refine (clear_corresponds (by simp only [SpAtomic.dtor, destroyCount, hdrop]) fun w v w' hw he => ?_).weaken
    (fun _ _ h => h) fun _ _ _ _ h => h.2
  unfold SpAtomic.dtor destroyCount at he
  rw [Prog.bind_apply, Prog.bind_apply] at he
  unfold getAtomic at he
  cases ho : w.atomics a with
  | none => simp [ho] at he
  | some o =>
    by_cases hk : o.kind = k
    · simp only [ho, hk, if_true, Tagged.toPtr, hw a o ho, Bool.false_eq_true, if_false, Prog.bind_apply,
        Prog.ofOption_some, onMem, onHeap, Prog.modify_apply] at he
      cases he
      exact World.Clear.setAtomic (w := ⟨_, w.atomics⟩) hw (by simp)
    · simp [ho, hk] at he

/-! ## Calls -/

theorem pass_eq (m m' : Mode) (k : Kind) (l : Local) (arg : Arg V) : arg.pass m k l = arg.pass m' k l := by
  cases arg <;> simp only [Arg.pass, copyCtor, copyCount_eq m m']

/-- A parameter is made, and destroyed when the call has returned. -/
theorem withParam_corresponds {α : Type} {l : Local} {make make' : Prog (Mem V) Exn Unit}
    {body body' : Prog (World V A) Exn α} (hmake : make = make')
    (hbody : Together (Corresponds k none) body body' fun v v' w w' => v = v' ∧ Corresponds k none w w') :
    Together (Corresponds k none) (withParam (.runTime lp st n) l make body) (withParam .constEval l make' body')
      fun v v' w w' => v = v' ∧ Corresponds k none w w' := by
  subst hmake
  refine Together.bind (same_corresponds _) fun _ _ => Together.atExit hbody ?_
  rintro v v' w w' ⟨rfl, hw⟩
  exact ⟨rfl, by rw [hw.mem, destroyObject_eq _ .constEval], hw.clear, hw.present, hw.atomics⟩

theorem passing_corresponds {α : Type} {direct : Bool} {l : Local} {arg : Arg V} {body body' : Prog (World V A) Exn α}
    (hbody : Together (Corresponds k none) body body' fun v v' w w' => v = v' ∧ Corresponds k none w w') :
    Together (Corresponds k none) (passing (.runTime lp st n) direct l k arg body)
      (passing .constEval direct l k arg body') fun v v' w w' => v = v' ∧ Corresponds k none w w' := by
  unfold passing
  split
  next => exact withParam_corresponds (pass_eq ..) hbody
  next => exact withParam_corresponds (pass_eq ..) (withParam_corresponds rfl hbody)

/-- What a free function does to the atomic objects: nothing. -/
theorem locker_atomics {α : Type} (body : Prog (Mem V) Exn α) (w : World V A) :
    (locker body w).2.atomics = w.atomics := by
  simp only [locker, Prog.bind_apply, Prog.modify_apply, Prog.atExit, onMem]
  cases body (World.emit [.lock] w).mem with
  | mk res s => cases res <;> rfl

theorem locker_corresponds {α : Type} {body body' : Prog (Mem V) Exn α} (hbody : body = body') :
    Together (Corresponds k none) (locker body : Prog (World V A) Exn α) (locker body')
      fun v v' w w' => v = v' ∧ Corresponds k none w w' := by
  subst hbody
  refine clear_corresponds rfl ?_
  intro w v w' hw he
  have ha := locker_atomics body w
  rw [he] at ha
  intro a o ho
  exact hw a o (by rw [← ha, ho])

theorem atomicCompareExchangeStrong_corresponds {p v d : Ref V} :
    Together (Corresponds k none) (atomicCompareExchangeStrong (.runTime lp st n) p v d : Prog (World V A) Exn Bool)
      (atomicCompareExchangeStrong .constEval p v d) fun r r' w w' => r = r' ∧ Corresponds k none w w' := by
  refine Together.bind (same_corresponds _) fun _ _ => Together.atExit (locker_corresponds ?_) ?_
  · simp only [moveAssign_shared, copyAssign, swapTemporary_eq _ .constEval,
      assignCount_eq (.runTime lp st n) .constEval]
  · rintro r r' w w' ⟨rfl, hw⟩
    exact ⟨rfl, by rw [hw.mem, destroyObject_eq _ .constEval], hw.clear, hw.present, hw.atomics⟩

/-- The operation in a program of one thread: nobody wakes it. -/
def AtomicOp.alone : AtomicOp V A → AtomicOp V A
  | .wait k a old _ => .wait k a old false
  | op => op

/-- No value on either side. -/
theorem unit_corresponds {c c' : Prog (World V A) Exn Unit}
    (h : Together (Corresponds k none) c c' fun _ _ => Corresponds k none) :
    Together (Corresponds k none) c c' fun v v' w w' => v = v' ∧ Corresponds k none w w' :=
  h.weaken (fun _ _ h => h) fun _ _ _ _ h => ⟨rfl, h⟩

theorem call_corresponds (op : AtomicOp V A) :
    ∃ k, Together (Corresponds k none) (op.alone.call (.runTime lp st n) : Prog (World V A) Exn (Option Bool))
      (op.alone.call .constEval) fun r r' w w' => r = r' ∧ Corresponds k none w w' := by
  have hnone : ∀ {k} {c c' : Prog (World V A) Exn Unit},
      (Together (Corresponds k none) c c' fun v v' w w' => v = v' ∧ Corresponds k none w w') →
      Together (Corresponds k none) (c >>= fun _ => (pure none : Prog (World V A) Exn (Option Bool)))
        (c' >>= fun _ => (pure none : Prog (World V A) Exn (Option Bool)))
        fun r r' w w' => r = r' ∧ Corresponds k none w w' :=
    fun hc => hc.bind fun _ _ => .of_and fun _ => .pure fun _ _ h => ⟨rfl, h⟩
  have hsome : ∀ {k} {c c' : Prog (World V A) Exn Bool},
      (Together (Corresponds k none) c c' fun v v' w w' => v = v' ∧ Corresponds k none w w') →
      Together (Corresponds k none) (c >>= fun r => (pure (some r) : Prog (World V A) Exn (Option Bool)))
        (c' >>= fun r => (pure (some r) : Prog (World V A) Exn (Option Bool)))
        fun r r' w w' => r = r' ∧ Corresponds k none w w' :=
    fun hc => hc.bind fun r _ => .of_and fun he => by rw [he]; exact .pure fun _ _ h => ⟨rfl, h⟩
  cases op with
  | default k a => exact ⟨k, hnone (unit_corresponds (createAtomic_corresponds rfl))⟩
  | construct k a arg => exact ⟨k, hnone (passing_corresponds (unit_corresponds ctor_corresponds))⟩
  | destroy k a => exact ⟨k, hnone (unit_corresponds dtor_corresponds)⟩
  | load k a ret | convert k a ret => exact ⟨k, hnone (unit_corresponds SpAtomic.load_corresponds)⟩
  | store k a desired | assign k a desired =>
    exact ⟨k, hnone (passing_corresponds (unit_corresponds SpAtomic.swap_corresponds))⟩
  | exchange k a ret desired =>
    exact ⟨k, hnone (passing_corresponds
      (unit_corresponds (Together.bind SpAtomic.swap_corresponds fun _ _ => same_corresponds _)))⟩
  | compareExchangeStrong direct k a expected desired =>
    refine ⟨k, hsome (passing_corresponds (withParam_corresponds ?_ SpAtomic.compareExchangeStrong_corresponds))⟩
    simp only [copyCtor, copyCount_eq (.runTime lp st n) .constEval]
  | wait k a old wakes => exact ⟨k, hnone (passing_corresponds (unit_corresponds SpAtomic.wait_corresponds))⟩
  | atomicLoad p ret =>
    refine ⟨.shared, hnone (locker_corresponds ?_)⟩
    simp only [copyCtor, copyCount_eq (.runTime lp st n) .constEval]
  | atomicStore direct p r => exact ⟨.shared, hnone (passing_corresponds (locker_corresponds rfl))⟩
  | atomicExchange direct p ret r => exact ⟨.shared, hnone (passing_corresponds (locker_corresponds rfl))⟩
  | atomicCompareExchangeStrong direct p v w =>
    exact ⟨.shared, hsome (passing_corresponds atomicCompareExchangeStrong_corresponds)⟩

/-! ## Programs -/

/-- What a program does next: an operation, or anything with its own pointers. -/
inductive AtomicStep (V A : Type)
  | call (op : AtomicOp V A)
  | other (f : Mem V → Mem V)

def AtomicStep.body (m : Mode) : AtomicStep V A → Prog (World V A) Exn (Option Bool)
  | .call op => op.alone.call m
  | .other f => do
    Prog.modify fun w => { w with mem := f w.mem }
    pure none

def AtomicStep.isConstexpr : AtomicStep V A → Bool
  | .call op => op.isConstexpr
  | .other _ => true

def AtomicStep.exec (m : Mode) (l : AtomicStep V A) : Prog (World V A) Exn (Option Bool) :=
  ifConstexpr m l.isConstexpr (l.body m)

def atomicStep (m : Mode) (w : World V A) (l : AtomicStep V A) : Option (World V A) :=
  match l.exec m w with
  | (.stop, _) => none
  | (_, w') => some w'

/-- What is known after a step: what it returned, the pointers, the pairs the
atomic objects hold, and the counters of every block. -/
structure AtomicReport (V A : Type) where
  result : Result Exn (Option Bool)
  objects : Ref V → Option Handle
  pairs : A → Option (Ptr × CountPtr)
  counts : Nat → Option Counts

def atomicReport (r : Result Exn (Option Bool)) (w : World V A) : AtomicReport V A where
  result := r
  objects := w.mem.obj
  pairs a := (w.atomics a).map fun o => (o.ptr, o.val.pi)
  counts b := (w.mem.heap.blocks b).map (·.counts)

/-- The reports of the steps, up to one that does not end. -/
def atomicTrace (m : Mode) : List (AtomicStep V A) → World V A → List (AtomicReport V A)
  | [], _ => []
  | l :: ls, w =>
    match l.exec m w with
    | (.stop, _) => []
    | (r, w') => atomicReport r w' :: atomicTrace m ls w'

variable (lp st n) in
theorem body_corresponds (l : AtomicStep V A) :
    ∃ k, Together (Corresponds k none) (l.body (.runTime lp st n) : Prog (World V A) Exn (Option Bool))
      (l.body .constEval) fun r r' w w' => r = r' ∧ Corresponds k none w w' := by
  cases l with
  | call op => exact call_corresponds op
  | other f =>
    refine ⟨.shared, Together.bind (Q := fun _ _ => Corresponds .shared none) (.modify fun w w' hw => ?_)
      fun _ _ => .pure fun _ _ h => ⟨rfl, h⟩⟩
    exact ⟨by rw [hw.mem], hw.clear, hw.present, hw.atomics⟩

/-- No step throws. -/
theorem body_ne_throw (m : Mode) (l : AtomicStep V A) (w : World V A) (e : Exn) : (l.body m w).1 ≠ .throw e := by
  cases l with
  | call op =>
    intro he
    obtain ⟨new, held, hlog, hrun, hres⟩ := call_takes (m := m) op.alone false w rfl
    rw [show (op.alone.call m w).1 = .throw e from he] at hres
    exact hres
  | other f => exact nofun

variable (lp st n) in
/-- A step from a state with no bit set ends alike in both modes, in one
state, if constant evaluation can make it. -/
theorem step_cases (l : AtomicStep V A) {w : World V A} (hw : w.Clear) :
    ((l.exec (.runTime lp st n) w).1 = .stop ∧ (l.exec .constEval w).1 = .stop) ∨
      ∃ r u, l.exec (.runTime lp st n) w = (.ok r, u) ∧ u.Clear ∧
        l.exec .constEval w = if l.isConstexpr then (.ok r, u) else (.stop, w) := by
  have hce : l.exec .constEval w = if l.isConstexpr then l.body .constEval w else (.stop, w) := by
    unfold AtomicStep.exec
    cases l.isConstexpr <;> rfl
  obtain ⟨k, h⟩ := body_corresponds lp st n l
  have h := h w w (.refl hw)
  have hthrow := body_ne_throw (.runTime lp st n) l w
  rw [AtomicStep.exec, ifConstexpr_runTime, hce]
  cases hr : l.body (.runTime lp st n) w with
  | mk res u =>
    cases hc : l.body .constEval w with
    | mk res' u' =>
      rw [hr, hc] at h
      rw [hr] at hthrow
      cases res with
      | ok r =>
        cases res' with
        | ok r' =>
          obtain ⟨rfl, hu⟩ := h
          obtain rfl := hu.eq
          exact .inr ⟨_, u, rfl, hu.clear, rfl⟩
        | throw | stop => exact h.elim
      | throw e => exact absurd rfl (hthrow e)
      | stop =>
        cases res' with
        | ok | throw => exact h.elim
        | stop => exact .inl ⟨rfl, by split <;> rfl⟩

/-- Constant evaluation can make the calls of the program, as far as it goes. -/
def AtomicEvaluable (lp : LockPolicy) (st : Bool) (n : Nat) : World V A → List (AtomicStep V A) → Prop :=
  Along (atomicStep (.runTime lp st n)) fun u l => (atomicStep (.runTime lp st n) u l).isSome → l.isConstexpr = true

theorem atomicTrace_stop {m : Mode} {l : AtomicStep V A} (ls : List (AtomicStep V A)) {w : World V A}
    (h : (l.exec m w).1 = .stop) : atomicStep m w l = none ∧ atomicTrace m (l :: ls) w = [] := by
  generalize hr : l.exec m w = r at h
  obtain ⟨res, u⟩ := r
  obtain rfl : res = .stop := h
  simp only [atomicStep, atomicTrace, hr, and_self]

theorem atomicTrace_ok {m : Mode} {l : AtomicStep V A} (ls : List (AtomicStep V A)) {w u : World V A}
    {r : Option Bool} (h : l.exec m w = (.ok r, u)) :
    atomicStep m w l = some u ∧ atomicTrace m (l :: ls) w = atomicReport (.ok r) u :: atomicTrace m ls u := by
  simp only [atomicStep, atomicTrace, h, and_self]

theorem trace_corresponds (ls : List (AtomicStep V A)) {w : World V A} (hw : w.Clear) :
    atomicTrace .constEval ls w = atomicTrace (.runTime lp st n) ls w ↔ AtomicEvaluable lp st n w ls := by
  induction ls generalizing w with
  | nil => simp [atomicTrace, AtomicEvaluable, Along]
  | cons l ls ih =>
    rcases step_cases lp st n l hw with ⟨hr, hc⟩ | ⟨r, u, hr, hu, hc⟩
    · obtain ⟨hstep, htrace⟩ := atomicTrace_stop ls hr
      rw [htrace, (atomicTrace_stop ls hc).2]
      simp [AtomicEvaluable, Along, hstep]
    · obtain ⟨hstep, htrace⟩ := atomicTrace_ok ls hr
      cases hl : l.isConstexpr with
      | true =>
        rw [hl, if_pos rfl] at hc
        rw [htrace, (atomicTrace_ok ls hc).2, List.cons.injEq, and_iff_right rfl, ih hu]
        simp [AtomicEvaluable, Along, hstep, hl]
      | false =>
        rw [hl, if_neg Bool.false_ne_true] at hc
        rw [htrace, (atomicTrace_stop ls (by rw [hc])).2]
        simp [AtomicEvaluable, Along, hstep, hl]

theorem visits_clear {ls : List (AtomicStep V A)} {w u : World V A} (hw : w.Clear)
    (hu : Visits (atomicStep (.runTime lp st n)) w ls u) : u.Clear := by
  obtain ⟨pre, post, -, hrun⟩ := hu
  refine Lib.run_invariant (I := World.Clear) (fun s l s' hs h => ?_) hrun hw
  rcases step_cases lp st n l hs with ⟨hr, -⟩ | ⟨r, v, hr, hv, -⟩
  · rw [(atomicTrace_stop [] hr).1] at h
    cases h
  · rw [(atomicTrace_ok [] hr).1] at h
    cases h
    exact hv

/-- The assertion of the destructor. -/
theorem destroy_ne_stop {u : World V A} (hu : u.Clear) {o : SpAtomic} (ho : u.atomics a = some o) :
    ((AtomicOp.destroy o.kind a).exec (.runTime lp st n) u).1 ≠ .stop := by
  simp only [AtomicOp.exec, ifConstexpr_runTime, AtomicOp.call, SpAtomic.dtor, destroyCount, Prog.bind_apply,
    getAtomic, ho, if_true, Tagged.toPtr, hu a o ho, Bool.false_eq_true, if_false, Prog.ofOption_some, onMem, onHeap,
    Prog.modify_apply, Prog.pure_apply]
  simp

/-- **Where constant evaluation simulates run time**: any program of one
thread, from a state with no atomic object, has the same reports by constant
evaluation and at run time if and only if constant evaluation can make its
calls; and at run time, after every step, no lock bit is set and the destructor
of no object can fail. -/
theorem constant_evaluation_simulates_iff (lp : LockPolicy) (st : Bool) (n : Nat) (ls : List (AtomicStep V A))
    (s : Mem V) :
    (atomicTrace .constEval ls ⟨s, fun _ => none⟩ = atomicTrace (.runTime lp st n) ls ⟨s, fun _ => none⟩ ↔
        AtomicEvaluable lp st n ⟨s, fun _ => none⟩ ls) ∧
      ∀ u, Visits (atomicStep (.runTime lp st n)) ⟨s, fun _ => none⟩ ls u →
        u.Clear ∧ ∀ a o, u.atomics a = some o →
          ((AtomicOp.destroy o.kind a).exec (.runTime lp st n) u).1 ≠ .stop := by
  have hclear : World.Clear (⟨s, fun _ => none⟩ : World V A) := nofun
  refine ⟨trace_corresponds ls hclear, ?_⟩
  intro u hu
  have hc := visits_clear hclear hu
  exact ⟨hc, fun a o ho => destroy_ne_stop hc ho⟩

/-- Each of the calls that constant evaluation cannot make for a weak pointer, `x`. -/
def weakCalls {V A : Type} (a : A) (x y : V) : List (List (AtomicOp V A)) :=
  [[.construct .weak a (.copy x)], [.default .weak a, .convert .weak a y], [.default .weak a, .assign .weak a (.copy x)],
    [.default .weak a, .exchange .weak a y (.copy x)],
    [.default .weak a, .compareExchangeStrong true .weak a x (.copy x)]]

theorem weakCalls_not_simulated : (weakCalls (0 : Fin 1) (0 : Fin 2) 1).Forall fun ops =>
    let w : World (Fin 2) (Fin 1) := ⟨(Mem.empty : Mem (Fin 2)).set (.inl 0) (some ⟨.weak, none, none⟩), fun _ => none⟩
    atomicTrace .constEval (ops.map .call) w ≠ atomicTrace .defaultPolicy (ops.map .call) w := by
  refine List.forall_iff_forall_mem.mpr fun ops hops h => ?_
  have hlength := congrArg List.length h
  clear h
  revert ops
  decide

/-- Both outcomes of a compare-exchange, and what it leaves. -/
example :
    let s : Mem (Fin 2) := ⟨(Heap.empty.construct (.countedPtr (some 8)) ⟨.new, .controlBlock, some 0, 1⟩).2, fun _ => none⟩
    let ls : List (AtomicStep (Fin 2) (Fin 1)) :=
      [.call (.construct .shared 0 (.copy 0)), .call (.load .shared 0 1),
        .call (.compareExchangeStrong false .shared 0 0 .null), .call (.compareExchangeStrong false .shared 0 1 .null)]
    (atomicTrace (.runTime (.atomic true) false 1) ls ⟨s.set (.inl 0) (some ⟨.shared, some 8, some 0⟩), fun _ => none⟩).map
        (fun r => (r.result, r.pairs 0, (r.counts 0).map (·.useCount))) =
      [(.ok none, some (some 8, some 0), some 2), (.ok none, some (some 8, some 0), some 3),
        (.ok (some true), some (none, none), some 2), (.ok (some false), some (none, none), some 1)] := by
  decide

end SharedPtr.Seq
