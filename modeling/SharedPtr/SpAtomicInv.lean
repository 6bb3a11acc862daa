/-
The lock in the lowest bit of `_M_val` works: at most one thread is between
`lock()` and the step that gives the lock up, the word is the block's address
with the bit set just while there is one, and what the thread inside has read
into its locals is what the object means (`Inv`). References are conserved
(`Counted`): each block has as many as the object and the threads own.
-/
import SharedPtr.SpAtomic
import SharedPtr.Lib.Tally

namespace SharedPtr.Atomic

open Lib Finset

/-! ## The lock bit -/

theorem clear_of_and_eq {w : Word} (h : w &&& lockBit = 0) : (clear w).val = w := by
  have hones : lockBit ||| ~~~lockBit = BitVec.allOnes 64 := by decide
  calc (clear w).val = w &&& ~~~lockBit := rfl
    _ = (w &&& lockBit) ||| (w &&& ~~~lockBit) := by rw [h]; exact BitVec.zero_or.symm
    _ = w &&& (lockBit ||| ~~~lockBit) := BitVec.and_or_distrib_left.symm
    _ = w := by rw [hones, BitVec.and_allOnes]

@[simp] theorem clear_val (p : BlockPtr) : clear p.val = p := Subtype.ext (clear_of_and_eq p.2)

@[simp] theorem clear_withBit (p : BlockPtr) : clear p.withBit = p := by
  refine Subtype.ext ?_
  have hbit : lockBit &&& ~~~lockBit = 0 := by decide
  calc (p.val ||| lockBit) &&& ~~~lockBit
      = (p.val &&& ~~~lockBit) ||| (lockBit &&& ~~~lockBit) := BitVec.and_or_distrib_right
    _ = (p.val &&& ~~~lockBit) ||| 0 := by rw [hbit]
    _ = p.val &&& ~~~lockBit := BitVec.or_zero
    _ = p.val := clear_of_and_eq p.2

theorem withBit_and (p : BlockPtr) : p.withBit &&& lockBit = lockBit := by
  rw [BlockPtr.withBit, BitVec.and_or_distrib_right, p.2, BitVec.and_self]
  exact BitVec.zero_or

theorem withBit_ne_val (p q : BlockPtr) : p.withBit ≠ q.val := by
  intro h
  have hbit := withBit_and p
  rw [h, q.2] at hbit
  exact absurd hbit (by decide)

/-! ## Mutual exclusion -/

/-- What a thread on its way into the platform wait knows of the pair. -/
def After.Holds (pair : Value) : After → Prop
  | .finish .. => True
  | .wait old v => pair = old ∧ v = old.pi

/-- What the thread inside knows: its locals agree with the pair the object
means, and only the two writers have `_M_ptr` ahead of it. -/
def Pc.Holds (ptr val : Word) (pair : Value) : Pc → Prop
  | .locked _ pi => pi = pair.pi ∧ ptr = pair.ptr
  | .loadRef ret => ret = pair ∧ ptr = pair.ptr
  | .swapWrite _ _ tmp => tmp = pair.ptr ∧ ptr = pair.ptr
  | .swapPublish _ d tmp => tmp = pair.ptr ∧ ptr = d.ptr
  | .casWrite e _ => pair = e ∧ ptr = pair.ptr
  | .casPublish e d => pair = e ∧ ptr = d.ptr
  | .casRead e _ pi => pair ≠ e ∧ pi = pair.pi ∧ ptr = pair.ptr
  | .casRef _ _ v => v = pair ∧ ptr = pair.ptr
  | .waitLoad old => pair = old ∧ ptr = pair.ptr
  | .unlockLoad next => next.Holds pair ∧ ptr = pair.ptr
  | .unlockCas next current => next.Holds pair ∧ current = val ∧ ptr = pair.ptr
  | .idle | .spin _ | .lockCas .. | .waiting .. | .finish .. => True

section

variable {ι : Type}

/-- The invariant of the object. -/
structure Inv (s : State ι) : Prop where
  /-- With nobody inside, the fields are the pair. -/
  free : (∀ t, (s.thr t).pc.inside = false) → s.val = s.pair.pi.val ∧ s.ptr = s.pair.ptr
  /-- With somebody inside, the bit is set. -/
  held : ∀ t, (s.thr t).pc.inside = true → s.val = s.pair.pi.withBit
  holds : ∀ t, (s.thr t).pc.Holds s.ptr s.val s.pair
  alone : ∀ t u, (s.thr t).pc.inside = true → (s.thr u).pc.inside = true → t = u
  /-- A waiter waits for the word of the value it was given. -/
  waits : ∀ t old v, (s.thr t).pc = .waiting old v → v = old.pi

theorem Pc.holds_of_outside {pc : Pc} (h : pc.inside = false) (ptr val : Word) (pair : Value) :
    pc.Holds ptr val pair := by
  cases pc <;> trivial

variable {s s' : State ι} {t : ι}

/-- In any case the word names the pair's block. -/
theorem Inv.clear (hi : Inv s) : clear s.val = s.pair.pi := by
  by_cases h : ∃ t, (s.thr t).pc.inside = true
  · obtain ⟨t, ht⟩ := h
    rw [hi.held t ht, clear_withBit]
  · rw [(hi.free fun t => by simpa using fun ht => h ⟨t, ht⟩).1, clear_val]

/-- The bit is clear: nobody is inside. -/
theorem Inv.outside (hi : Inv s) {p : BlockPtr} (h : s.val = p.val) (u : ι) : (s.thr u).pc.inside = false := by
  rw [← Bool.not_eq_true]
  exact fun hu => withBit_ne_val _ _ ((hi.held u hu).symm.trans h)

/-- A step of a thread outside that stays outside, the fields as they were. -/
theorem Inv.stay (hi : Inv s) (hthr : ∀ u ≠ t, s'.thr u = s.thr u) (hptr : s'.ptr = s.ptr) (hval : s'.val = s.val)
    (hpair : s'.pair = s.pair) (hout : (s.thr t).pc.inside = false) (hout' : (s'.thr t).pc.inside = false)
    (hwait : ∀ old v, (s'.thr t).pc = .waiting old v → v = old.pi) : Inv s' := by
  have hin (u : ι) (hu : (s'.thr u).pc.inside = true) : u ≠ t := fun h => by simp [h, hout'] at hu
  constructor
  · intro h
    rw [hval, hptr, hpair]
    refine hi.free ?_
    intro u
    by_cases hut : u = t
    · rw [hut, hout]
    · rw [← hthr u hut, h u]
  · intro u hu
    have hut := hin u hu
    rw [hthr u hut] at hu
    rw [hval, hpair]
    exact hi.held u hu
  · intro u
    rw [hptr, hval, hpair]
    by_cases hut : u = t
    · exact Pc.holds_of_outside (hut ▸ hout') ..
    · rw [hthr u hut]
      exact hi.holds u
  · intro u w hu hw
    have hut := hin u hu
    have hwt := hin w hw
    rw [hthr u hut] at hu
    rw [hthr w hwt] at hw
    exact hi.alone u w hu hw
  · intro u old v hu
    by_cases hut : u = t
    · exact hwait old v (hut ▸ hu)
    · exact hi.waits u old v (hthr u hut ▸ hu)

/-- A step of the thread inside, or one that gets inside: no other is. -/
theorem Inv.own (hi : Inv s) (hthr : ∀ u ≠ t, s'.thr u = s.thr u)
    (halone : ∀ u ≠ t, (s.thr u).pc.inside = false)
    (hin : (s'.thr t).pc.inside = true → s'.val = s'.pair.pi.withBit)
    (hout : (s'.thr t).pc.inside = false → s'.val = s'.pair.pi.val ∧ s'.ptr = s'.pair.ptr)
    (hholds : (s'.thr t).pc.Holds s'.ptr s'.val s'.pair)
    (hwait : ∀ old v, (s'.thr t).pc = .waiting old v → v = old.pi) : Inv s' := by
  have hself (u : ι) (hu : (s'.thr u).pc.inside = true) : u = t := by
    by_contra hut
    rw [hthr u hut, halone u hut] at hu
    cases hu
  constructor
  · intro h
    exact hout (h t)
  · intro u hu
    exact hin (hself u hu ▸ hu)
  · intro u
    by_cases hut : u = t
    · exact hut ▸ hholds
    · rw [hthr u hut]
      exact Pc.holds_of_outside (halone u hut) ..
  · intro u w hu hw
    rw [hself u hu, hself w hw]
  · intro u old v hu
    by_cases hut : u = t
    · exact hwait old v (hut ▸ hu)
    · exact hi.waits u old v (hthr u hut ▸ hu)

theorem Inv.others (hi : Inv s) (h : (s.thr t).pc.inside = true) (u : ι) (hu : u ≠ t) :
    (s.thr u).pc.inside = false := by
  rw [← Bool.not_eq_true]
  exact fun hin => hu (hi.alone u t hin h)

end

section

variable {ι : Type} [DecidableEq ι] {s s' : State ι} {t : ι}

variable {ptr val : Word} {refs : BlockPtr → Nat} {pair : Value} {pc : Pc}

/-- The thread goes on outside. -/
theorem Inv.goto_outside (hi : Inv s) (hout : (s.thr t).pc.inside = false) (hout' : pc.inside = false)
    (hwait : ∀ old v, pc = .waiting old v → v = old.pi) :
    Inv (State.goto ⟨s.ptr, s.val, refs, s.thr, s.pair⟩ t pc) := by
  refine hi.stay (t := t) (fun u hu => State.goto_thr_ne _ hu _) rfl rfl rfl hout ?_ ?_ <;> rwa [State.goto_thr_self]

/-- The thread inside goes on inside, or a thread gets inside. -/
theorem Inv.goto_inside (hi : Inv s) (halone : ∀ u ≠ t, (s.thr u).pc.inside = false) (hin : pc.inside = true)
    (hval : val = pair.pi.withBit) (hholds : pc.Holds ptr val pair) :
    Inv (State.goto ⟨ptr, val, refs, s.thr, pair⟩ t pc) := by
  refine hi.own (t := t) (fun u hu => State.goto_thr_ne _ hu _) halone (fun _ => hval) (fun hout => ?_) ?_
    fun old v hw => ?_
  · rw [State.goto_thr_self] at hout
    exact absurd (hin.symm.trans hout) (by simp)
  · rw [State.goto_thr_self]
    exact hholds
  · rw [State.goto_thr_self] at hw
    subst hw
    cases hin

/-- The thread inside gives up the lock. -/
theorem Inv.goto_leave (hi : Inv s) (halone : ∀ u ≠ t, (s.thr u).pc.inside = false) (hout : pc.inside = false)
    (hval : val = pair.pi.val) (hptr : ptr = pair.ptr) (hwait : ∀ old v, pc = .waiting old v → v = old.pi) :
    Inv (State.goto ⟨ptr, val, refs, s.thr, pair⟩ t pc) := by
  refine hi.own (t := t) (fun u hu => State.goto_thr_ne _ hu _) halone (fun hin => ?_) (fun _ => ⟨hval, hptr⟩) ?_ ?_
  · rw [State.goto_thr_self] at hin
    exact absurd (hout.symm.trans hin) (by simp)
  · rw [State.goto_thr_self]
    exact Pc.holds_of_outside hout ..
  · rwa [State.goto_thr_self]

/-- **Every step of an operation keeps the invariant.** By where the thread is. -/
theorem exec_inv (hi : Inv s) (hpc : (s.thr t).pc = pc) (h : exec s t pc = some s') : Inv s' := by
  have hholds := hi.holds t
  have hbit (hin : pc.inside = true) := hi.held t (hpc ▸ hin)
  have hothers (hin : pc.inside = true) := hi.others (t := t) (hpc ▸ hin)
  have hout (hout : pc.inside = false) : (s.thr t).pc.inside = false := hpc ▸ hout
  rw [hpc] at hholds
  cases pc with
  | idle => cases h
  | spin op =>
    simp only [exec, Option.some.injEq] at h
    split at h <;> subst h
    · exact hi.goto_outside (hout rfl) rfl (by simp)
    · exact hi
  | lockCas op current =>
    simp only [exec] at h
    split at h
    · next hval =>
      cases h
      have hall := hi.outside hval
      obtain ⟨hv, hp⟩ := hi.free hall
      obtain rfl : current = s.pair.pi := Subtype.ext (hval.symm.trans hv)
      refine hi.goto_inside (fun u _ => hall u) rfl ?_ ?_
      · rfl
      · exact ⟨rfl, hp⟩
    · cases h
      exact hi.goto_outside (hout rfl) rfl (by simp)
  | locked op pi =>
    obtain ⟨rfl, hptr⟩ := hholds
    have hstay {pc' : Pc} (hin : pc'.inside = true) (hh : pc'.Holds s.ptr s.val s.pair) : Inv (s.goto t pc') :=
      hi.goto_inside (hothers rfl) hin (hbit rfl) hh
    have hpair (v : Value) : s.ptr = v.ptr ∧ s.pair.pi = v.pi ↔ s.pair = v := by
      rw [hptr]
      exact ⟨fun hv => by cases v; cases hp : s.pair; simp_all, fun hv => by simp [hv]⟩
    cases op with
    | load =>
      cases h
      exact hstay rfl ⟨by rw [hptr], hptr⟩
    | store d | exchange d =>
      cases h
      exact hstay rfl ⟨hptr, hptr⟩
    | compareExchangeStrong e d =>
      simp only [exec, hpair] at h
      split at h
      · next heq =>
        cases h
        exact hstay rfl ⟨heq, hptr⟩
      · next hne =>
        cases h
        exact hstay rfl ⟨hne, rfl, hptr⟩
    | wait old =>
      simp only [exec, hpair] at h
      split at h
      · next heq =>
        cases h
        exact hstay rfl ⟨heq, hptr⟩
      · cases h
        exact hstay rfl ⟨trivial, hptr⟩
  | loadRef ret =>
    cases h
    refine hi.goto_inside (hothers rfl) rfl (hbit rfl) ?_
    exact ⟨trivial, hholds.2⟩
  | swapWrite isExchange d tmp =>
    cases h
    refine hi.goto_inside (hothers rfl) rfl (hbit rfl) ?_
    exact ⟨hholds.1, rfl⟩
  | swapPublish isExchange d tmp =>
    cases h
    exact hi.goto_leave (hothers rfl) (by cases isExchange <;> rfl) rfl hholds.2 (by cases isExchange <;> simp)
  | casWrite e d =>
    cases h
    refine hi.goto_inside (hothers rfl) rfl (hbit rfl) ?_
    exact ⟨hholds.1, rfl⟩
  | casPublish e d =>
    cases h
    exact hi.goto_leave (hothers rfl) rfl rfl hholds.2 (by simp)
  | casRead sink d pi =>
    cases h
    obtain ⟨-, rfl, hptr⟩ := hholds
    refine hi.goto_inside (hothers rfl) rfl (hbit rfl) ?_
    exact ⟨by rw [hptr], hptr⟩
  | casRef sink d expected =>
    cases h
    refine hi.goto_inside (hothers rfl) rfl (hbit rfl) ?_
    exact ⟨trivial, hholds.2⟩
  | waitLoad old =>
    cases h
    refine hi.goto_inside (hothers rfl) rfl (hbit rfl) ?_
    exact ⟨⟨hholds.1, by rw [hi.clear, hholds.1]⟩, hholds.2⟩
  | unlockLoad next =>
    cases h
    refine hi.goto_inside (hothers rfl) rfl (hbit rfl) ?_
    exact ⟨hholds.1, rfl, hholds.2⟩
  | unlockCas next current =>
    obtain ⟨hnext, rfl, hptr⟩ := hholds
    simp only [exec, if_true, Option.some.injEq] at h
    subst h
    refine hi.goto_leave (hothers rfl) ?_ ?_ ?_ ?_
    · cases next <;> rfl
    · show (Atomic.clear s.val).val = s.pair.pi.val
      rw [hi.clear]
    · exact hptr
    · intro old v hw
      cases next with
      | finish => cases hw
      | wait old' v' =>
        cases hw
        exact hnext.2
  | waiting old v =>
    simp only [exec, Option.some.injEq] at h
    split at h <;> subst h
    · exact hi.goto_outside (hout rfl) rfl (by simp)
    · exact hi
  | finish res dying =>
    cases dying with
    | cons v dying =>
      cases h
      exact hi.goto_outside (hout rfl) rfl (by simp)
    | nil =>
      cases h
      refine hi.stay (t := t) (fun u hu => ?_) rfl rfl rfl (hout rfl) ?_ ?_ <;> simp [Pc.inside, *]

theorem Inv.step (hi : Inv s) {l : Label ι} (h : step s l = some s') : Inv s' := by
  obtain ⟨t, act⟩ := l
  cases act with
  | run => exact exec_inv hi rfl h
  | begin op =>
    simp only [Atomic.step, Option.ite_none_right_eq_some, Option.some.injEq] at h
    obtain ⟨⟨hpc, -⟩, rfl⟩ := h
    refine hi.stay (t := t) (fun u hu => ?_) rfl rfl rfl (by rw [hpc]; rfl) ?_ ?_ <;> simp [Pc.inside, *]
  | make v =>
    simp only [Atomic.step, Option.ite_none_right_eq_some, Option.some.injEq] at h
    obtain ⟨hpc, rfl⟩ := h
    refine hi.stay (t := t) (fun u hu => ?_) rfl rfl rfl (by rw [hpc]; rfl) ?_ ?_ <;> simp [Pc.inside, *]
  | drop v =>
    simp only [Atomic.step, Option.ite_none_right_eq_some, Option.some.injEq] at h
    obtain ⟨⟨hpc, -⟩, rfl⟩ := h
    refine hi.stay (t := t) (fun u hu => ?_) rfl rfl rfl (by rw [hpc]; rfl) ?_ ?_ <;> simp [Pc.inside, *]
  | notify =>
    simp only [Atomic.step, Option.ite_none_right_eq_some, Option.some.injEq] at h
    exact h.2 ▸ hi

end

theorem Inv.init {ι : Type} (v : Value) : Inv (State.init v : State ι) where
  free _ := ⟨rfl, rfl⟩
  held _ h := by cases h
  holds _ := trivial
  alone _ _ h := by cases h
  waits _ _ _ h := by cases h

theorem Inv.run {ι : Type} [DecidableEq ι] {s : State ι} {v : Value} {ls : List (Label ι)}
    (h : run Atomic.step (State.init v) ls = some s) : Inv s :=
  run_invariant (fun _ _ _ hi hs => hi.step hs) h (.init v)

/-! ## References -/

/-- The blocks of a list of values. -/
def blocks (vs : List Value) : Multiset BlockPtr := ↑(vs.map Value.pi)

@[simp] theorem blocks_nil : blocks [] = 0 := rfl

@[simp] theorem blocks_cons (v : Value) (vs : List Value) : blocks (v :: vs) = {v.pi} + blocks vs := rfl

def After.claims : After → Multiset BlockPtr
  | .finish res dying => blocks (res.values ++ dying)
  | .wait old _ => blocks [old]

/-- The references an operation's parameters and locals own. -/
def Pc.claims : Pc → Multiset BlockPtr
  | .idle | .loadRef _ => 0
  | .spin op | .lockCas op _ | .locked op _ => blocks op.args
  | .swapWrite _ d _ | .swapPublish _ d _ => blocks [d]
  | .casWrite e d | .casPublish e d | .casRead e d _ | .casRef e d _ => blocks [e, d]
  | .waitLoad old | .waiting old _ => blocks [old]
  | .unlockLoad next | .unlockCas next _ => next.claims
  | .finish res dying => blocks (res.values ++ dying)

def Thread.claims (th : Thread) : Multiset BlockPtr := th.pc.claims + th.held.map Value.pi

@[simp] theorem After.claims_pc (a : After) : a.pc.claims = a.claims := by cases a <;> rfl

theorem claims_of_pc {th : Thread} {pc : Pc} (h : th.pc = pc) : th.claims = pc.claims + th.held.map Value.pi := by
  rw [Thread.claims, h]

section

variable {ι : Type} [Fintype ι]

/-- The references all threads own. -/
def State.claimed (s : State ι) : Multiset BlockPtr := ∑ t, (s.thr t).claims

/-- The references the object and the threads own. -/
def State.owned (s : State ι) : Multiset BlockPtr := {s.pair.pi} + s.claimed

/-- Each block has been counted once for each owner. -/
def Counted (refs : BlockPtr → Nat) (owned : Multiset BlockPtr) : Prop := ∀ b ≠ .null, refs b = owned.count b

/-- What a step does to the counts and to the owners. -/
inductive RefStep : (BlockPtr → Nat) → Multiset BlockPtr → (BlockPtr → Nat) → Multiset BlockPtr → Prop
  | keep {refs owned} : RefStep refs owned refs owned
  | add {refs owned} (p : BlockPtr) : RefStep refs owned (addRef refs p) ({p} + owned)
  | release {refs owned} (p : BlockPtr) : RefStep refs ({p} + owned) (release refs p) owned

theorem RefStep.counted {refs refs' : BlockPtr → Nat} {owned owned' : Multiset BlockPtr}
    (h : RefStep refs owned refs' owned') (hc : Counted refs owned) : Counted refs' owned' := by
  intro b hb
  have hcb := hc b hb
  cases h with
  | keep => exact hcb
  | add p =>
    rw [addRef, Multiset.count_add, Multiset.count_singleton, ← hcb]
    by_cases hp : b = p
    · subst hp
      rw [if_neg hb, if_pos rfl, Function.update_self]
      omega
    · rw [if_neg hp, zero_add]
      split
      · rfl
      · rw [Function.update_of_ne hp]
  | release p =>
    rw [Multiset.count_add, Multiset.count_singleton] at hcb
    rw [Atomic.release]
    by_cases hp : b = p
    · subst hp
      rw [if_pos rfl] at hcb
      rw [if_neg hb, Function.update_self]
      omega
    · rw [if_neg hp, zero_add] at hcb
      split
      · exact hcb
      · rwa [Function.update_of_ne hp]

variable [DecidableEq ι] {s s' : State ι} {t : ι} {pc : Pc} {ptr val : Word} {refs : BlockPtr → Nat} {pair : Value}

/-- What moves between the object and a thread moves between all owners. -/
theorem owned_update {th : Thread} {loss gain : Multiset BlockPtr}
    (h : Moves loss gain ({s.pair.pi} + (s.thr t).claims) ({pair.pi} + th.claims)) :
    Moves loss gain s.owned (State.owned ⟨ptr, val, refs, Function.update s.thr t th, pair⟩) := by
  obtain ⟨rest, hs, hth⟩ := exists_sum_update Thread.claims s.thr t
  have h' := h.frame rest
  rw [add_assoc, add_assoc, ← hs, ← hth th] at h'
  exact h'

theorem refStep_keep {th : Thread} (h : {pair.pi} + th.claims = {s.pair.pi} + (s.thr t).claims) :
    RefStep s.refs s.owned s.refs (State.owned ⟨ptr, val, refs, Function.update s.thr t th, pair⟩) := by
  have hm : Moves 0 0 ({s.pair.pi} + (s.thr t).claims) ({pair.pi} + th.claims) := by
    rw [h]
    exact .refl _
  obtain ⟨rest, hs, hs'⟩ := owned_update hm
  rw [hs', ← hs]
  exact .keep

theorem refStep_add (p : BlockPtr) {th : Thread} (h : th.claims = {p} + (s.thr t).claims) :
    RefStep s.refs s.owned (addRef s.refs p)
      (State.owned ⟨ptr, val, refs, Function.update s.thr t th, s.pair⟩) := by
  have hm : Moves 0 {p} ({s.pair.pi} + (s.thr t).claims) ({s.pair.pi} + th.claims) :=
    ⟨_, (zero_add _).symm, by rw [h]; abel⟩
  obtain ⟨rest, hs, hs'⟩ := owned_update hm
  rw [hs', hs, zero_add]
  exact .add p

theorem refStep_release (p : BlockPtr) {th : Thread} (h : (s.thr t).claims = {p} + th.claims) :
    RefStep s.refs s.owned (release s.refs p)
      (State.owned ⟨ptr, val, refs, Function.update s.thr t th, s.pair⟩) := by
  have hm : Moves {p} 0 ({s.pair.pi} + (s.thr t).claims) ({s.pair.pi} + th.claims) :=
    ⟨_, by rw [h]; abel, (zero_add _).symm⟩
  obtain ⟨rest, hs, hs'⟩ := owned_update hm
  rw [hs', hs, zero_add]
  exact .release p

/-- **Every step of an operation keeps count**: what it counts it owns, what
it releases it owned, and the exchange hands one block over for another. -/
theorem exec_refs (hi : Inv s) (hpc : (s.thr t).pc = pc) (h : exec s t pc = some s') :
    RefStep s.refs s.owned s'.refs s'.owned := by
  have hclaims := claims_of_pc hpc
  cases pc with
  | idle => cases h
  | spin op =>
    simp only [exec, Option.some.injEq] at h
    split at h <;> subst h
    · exact refStep_keep (by rw [hclaims]; rfl)
    · exact .keep
  | lockCas op current =>
    simp only [exec] at h
    split at h <;> cases h <;> exact refStep_keep (by rw [hclaims]; rfl)
  | locked op pi =>
    cases op with
    | load | store | exchange =>
      cases h
      exact refStep_keep (by rw [hclaims]; rfl)
    | compareExchangeStrong | wait =>
      simp only [exec] at h
      split at h <;> cases h <;> exact refStep_keep (by rw [hclaims]; rfl)
  | loadRef ret =>
    cases h
    refine refStep_add ret.pi ?_
    rw [hclaims]
    simp only [Thread.claims, Pc.claims, After.claims, Res.values, List.append_nil, blocks_cons, blocks_nil]
    abel
  | casRef sink d expected =>
    cases h
    refine refStep_add expected.pi ?_
    rw [hclaims]
    simp only [Thread.claims, Pc.claims, After.claims, Res.values, List.cons_append, List.nil_append,
      blocks_cons, blocks_nil]
    abel
  | swapPublish isExchange d tmp =>
    cases h
    refine refStep_keep ?_
    rw [hclaims, hi.clear]
    cases isExchange <;> exact add_left_comm _ _ _
  | casPublish e d =>
    cases h
    refine refStep_keep ?_
    rw [hclaims, hi.clear]
    simp only [Thread.claims, Pc.claims, Res.values, List.cons_append, List.nil_append, blocks_cons, blocks_nil]
    abel
  | swapWrite | casWrite | casRead | waitLoad | unlockLoad =>
    cases h
    exact refStep_keep (by rw [hclaims]; rfl)
  | unlockCas next current =>
    simp only [exec] at h
    split at h <;> cases h
    · exact refStep_keep (by rw [hclaims, Thread.claims, After.claims_pc]; rfl)
    · exact refStep_keep (by rw [hclaims]; rfl)
  | waiting old v =>
    simp only [exec, Option.some.injEq] at h
    split at h <;> subst h
    · exact refStep_keep (by rw [hclaims]; rfl)
    · exact .keep
  | finish res dying =>
    cases dying with
    | nil =>
      cases h
      refine refStep_keep ?_
      rw [hclaims]
      simp [Thread.claims, Pc.claims, blocks]
    | cons v dying =>
      cases h
      refine refStep_release v.pi ?_
      have hdying : blocks (res.values ++ v :: dying) = {v.pi} + blocks (res.values ++ dying) := by
        simp [blocks, ← Multiset.coe_add, ← Multiset.cons_coe]
      rw [hclaims]
      simp only [Thread.claims, Pc.claims, hdying, add_assoc]

theorem step_refs (hi : Inv s) {l : Label ι} (h : step s l = some s') : RefStep s.refs s.owned s'.refs s'.owned := by
  obtain ⟨t, act⟩ := l
  cases act with
  | run => exact exec_refs hi rfl h
  | begin op =>
    simp only [Atomic.step, Option.ite_none_right_eq_some, Option.some.injEq] at h
    obtain ⟨⟨hpc, hargs⟩, rfl⟩ := h
    refine refStep_keep ?_
    obtain ⟨rest, hrest⟩ := Multiset.le_iff_exists_add.mp hargs
    rw [claims_of_pc hpc, Thread.claims, hrest]
    simp [Pc.claims, blocks]
  | make v =>
    simp only [Atomic.step, Option.ite_none_right_eq_some, Option.some.injEq] at h
    obtain ⟨hpc, rfl⟩ := h
    exact refStep_add v.pi (by rw [claims_of_pc hpc, Thread.claims, Multiset.map_cons]; simp [Pc.claims])
  | drop v =>
    simp only [Atomic.step, Option.ite_none_right_eq_some, Option.some.injEq] at h
    obtain ⟨⟨hpc, hv⟩, rfl⟩ := h
    refine refStep_release v.pi ?_
    rw [claims_of_pc hpc, Thread.claims, ← Multiset.cons_erase hv]
    simp [Pc.claims]
  | notify =>
    simp only [Atomic.step, Option.ite_none_right_eq_some, Option.some.injEq] at h
    exact h.2 ▸ .keep

omit [DecidableEq ι] in
theorem counted_init (v : Value) : Counted (State.init v : State ι).refs (State.init v : State ι).owned := by
  intro b hb
  have hclaimed : (State.init v : State ι).claimed = 0 := Finset.sum_eq_zero fun _ _ => rfl
  rw [State.owned, hclaimed, add_zero, Multiset.count_singleton]
  by_cases hbv : b = v.pi
  · subst hbv
    simp [State.init, addRef, hb]
  · by_cases hv : v.pi = .null <;> simp [State.init, addRef, hbv, hv, hb]

theorem Counted.run {v : Value} {ls : List (Label ι)} (h : Lib.run step (State.init v) ls = some s) :
    Counted s.refs s.owned :=
  (run_invariant (I := fun s => Inv s ∧ Counted s.refs s.owned)
    (fun _ _ _ hi hs => ⟨hi.1.step hs, (step_refs hi.1 hs).counted hi.2⟩) h ⟨.init v, counted_init v⟩).2

end

end SharedPtr.Atomic
