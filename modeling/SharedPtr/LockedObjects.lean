/-
The free functions of `bits/shared_ptr_atomic.h` at work, with the references
that the objects and the threads own. The functions are atomic on all objects
together, whatever keys their addresses share (`freeFunctions_linearizable`);
each block is counted once for each owner (`freeFunctions_counted`); and a
reference is only given up by a thread whose locker is gone
(`released_unlocked`), as the comments on `swap` and on `__x` ask.
-/
import SharedPtr.FreeFunctions
import SharedPtr.Lib.Tally

namespace SharedPtr.Locker

open Lib Finset
open SharedPtr.Atomic (Word BlockPtr Value addRef release)

/-- The threads in the functions, the counts of all blocks, and the values the
threads own besides. -/
structure State (ι O K : Type) where
  sys : Guarded.State (Contents O) K Emit ι (Op O) Ended
  refs : BlockPtr → Nat
  held : ι → Multiset Value

inductive Act (O : Type)
  /-- A call; the parameters are moved from values the thread owns. -/
  | begin (op : Op O)
  | run
  /-- The thread gets a value from elsewhere, or copies one. -/
  | make (v : Value)
  /-- The thread destroys a value. -/
  | drop (v : Value)

def Emit.apply (refs : BlockPtr → Nat) : Emit → BlockPtr → Nat
  | .addRef b => Atomic.addRef refs b
  | .release b => Atomic.release refs b

/-- What a thread gets from a step that returns. -/
def returned {W : Cell O → Type} (isRun : Bool) : Place W Emit (Op O) Ended → Multiset Value
  | .leaving res [] => if isRun then ↑res.ans.values else 0
  | _ => 0

section

variable {ι O K : Type} [DecidableEq ι] [DecidableEq O] [DecidableEq K] (key : O → K)

def step (s : State ι O K) (l : ι × Act O) : Option (State ι O K) :=
  match l.2 with
  | .begin op =>
    if ↑op.args ≤ s.held l.1 then
      ((functions key).step s.sys (l.1, .begin op)).map fun sys =>
        { s with sys, held := Function.update s.held l.1 (s.held l.1 - ↑op.args) }
    else none
  | .run =>
    ((functions key).step s.sys (l.1, .run)).map fun sys =>
      { sys
        refs := (Guarded.emitted s.sys (l.1, .run)).foldl Emit.apply s.refs
        held := Function.update s.held l.1 (returned true (s.sys.thr l.1) + s.held l.1) }
  | .make v =>
    match s.sys.thr l.1 with
    | .idle => some { s with refs := addRef s.refs v.pi, held := Function.update s.held l.1 (v ::ₘ s.held l.1) }
    | _ => none
  | .drop v =>
    match s.sys.thr l.1 with
    | .idle =>
      if v ∈ s.held l.1 then
        some { s with refs := release s.refs v.pi, held := Function.update s.held l.1 ((s.held l.1).erase v) }
      else none
    | _ => none

/-- Calls, effects and answers. -/
def observe (s : State ι O K) (l : ι × Act O) : Option (Event ι (Op O) Ans) :=
  match l.2 with
  | .begin op => Guarded.observe Ended.ans s.sys (l.1, .begin op)
  | .run => Guarded.observe Ended.ans s.sys (l.1, .run)
  | .make _ | .drop _ => none

/-- A memory of objects that have the values `m`. -/
def cells (m : O → Value) : ∀ x, Contents O x
  | (o, .ptr) => (m o).ptr
  | (o, .pi) => (m o).pi

variable [Fintype O]

/-- One if `v` owns a reference to `b`. -/
def one (b : BlockPtr) (v : Value) : Nat := if v.pi = b then 1 else 0

/-- No thread has started, and only the objects own references. -/
def init (m : O → Value) : State ι O K := ⟨Guarded.init (cells m), fun b => ∑ o, one b (m o), fun _ => 0⟩

end

section

variable {ι O K : Type} [DecidableEq ι] [DecidableEq O] [DecidableEq K] {key : O → K} {s s' : State ι O K}

theorem step_sys {l : ι × Act O} (h : step key s l = some s') :
    (∃ act, (functions key).step s.sys (l.1, act) = some s'.sys ∧
      observe s l = Guarded.observe Ended.ans s.sys (l.1, act)) ∨
      s'.sys = s.sys ∧ observe s l = none := by
  obtain ⟨t, act⟩ := l
  cases act with
  | begin op =>
    simp only [step, Option.ite_none_right_eq_some, Option.map_eq_some_iff] at h
    obtain ⟨-, sys, hsys, rfl⟩ := h
    exact .inl ⟨.begin op, hsys, rfl⟩
  | run =>
    simp only [step, Option.map_eq_some_iff] at h
    obtain ⟨sys, hsys, rfl⟩ := h
    exact .inl ⟨.run, hsys, rfl⟩
  | make v =>
    simp only [step] at h
    split at h <;> cases h
    exact .inr ⟨rfl, rfl⟩
  | drop v =>
    simp only [step] at h
    split at h
    · simp only [Option.ite_none_right_eq_some, Option.some.injEq] at h
      obtain ⟨-, rfl⟩ := h
      exact .inr ⟨rfl, rfl⟩
    · cases h

theorem step_inv (hi : Guarded.Inv (functions key) s.sys) {l : ι × Act O} (h : step key s l = some s') :
    Guarded.Inv (functions key) s'.sys := by
  rcases step_sys h with ⟨act, hsys, -⟩ | ⟨hsys, -⟩
  · exact Guarded.step_inv hi hsys
  · rw [hsys]
    exact hi

/-- A function takes effect where its locker goes. -/
theorem step_matched {x : (O → Value) × (ι → Status (Op O) Ans)} {l : ι × Act O}
    (hR : Guarded.Rel (functions key) objects Ended.ans s.sys x) (h : step key s l = some s') :
    Matched memorySpec (fun u => Guarded.Rel (functions key) objects Ended.ans u.sys) s' x (observe s l) := by
  rcases step_sys h with ⟨act, hsys, hobs⟩ | ⟨hsys, hobs⟩
  · have hmatch := Guarded.step_matched body_spec hR hsys
    rw [hobs]
    exact hmatch
  · rw [hobs]
    show Guarded.Rel (functions key) objects Ended.ans s'.sys x
    rw [hsys]
    exact hR

variable [Fintype O]

omit [DecidableEq ι] [DecidableEq K] in
theorem init_rel (m : O → Value) : Guarded.Rel (functions key) objects Ended.ans
    (init m : State ι O K).sys (m, fun _ => .idle) := ⟨Guarded.init_inv _, rfl⟩

/-- **The free functions are linearizable.** Any threads, any objects, any
keys: the history is one of a memory in which each function is a single step
on all objects, and an object nobody has locked has the value it has there. -/
theorem freeFunctions_linearizable {m : O → Value} {ls : List (ι × Act O)} (h : run (step key) (init m) ls = some s) :
    ∃ x, Path memorySpec (m, fun _ => .idle) (trace (step key) observe (init m : State ι O K) ls) x ∧
      ∀ o, s.sys.owner (key o) = none → objects s.sys.mem o = x.1 o := by
  obtain ⟨x, hpath, hi, rfl⟩ := linearizable (fun _ _ _ _ hR hl => step_matched hR hl) h (init_rel m)
  refine ⟨_, hpath, fun o ho => ?_⟩
  have hfree (f : Field) : s.sys.mem (o, f) = s.sys.published (o, f) := hi.free (o, f) ho
  show objects s.sys.mem o = objects s.sys.published o
  simp only [objects, hfree]

end

/-! ## The counts -/

section

variable {O : Type} [DecidableEq O] [Fintype O] {b : BlockPtr}

theorem sum_put (m : O → Value) (p : O) (r : Value) :
    ∑ o, one b (Function.update m p r o) + one b (m p) = ∑ o, one b (m o) + one b r := by
  obtain ⟨rest, hm, hput⟩ := exists_sum_update (one b) m p
  rw [hm, hput]
  omega

theorem count_addRef (b : BlockPtr) (v : Value) : [Emit.addRef v.pi].count (.addRef b) = one b v := by
  simp [List.count_cons, one]

theorem count_release (b : BlockPtr) (v : Value) : [Emit.release v.pi].count (.release b) = one b v := by
  simp [List.count_cons, one]

/-- **What a function takes out of the objects it destroys or returns, and what
it puts in it was given or has counted.** -/
theorem conserved (hb : b ≠ .null) (op : Op O) (m : O → Value) :
    ∑ o, one b ((memorySpec m op).1 o) + ((op.dying m).map (one b)).sum +
        ((memorySpec m op).2.values.map (one b)).sum =
      ∑ o, one b (m o) + (op.args.map (one b)).sum + (op.counted m).count (.addRef b) := by
  cases op with
  | load p => simp [memorySpec, Op.dying, Ans.values, Op.args, Op.counted, count_addRef]
  | store p r =>
    have hsum := sum_put (b := b) m p r
    simp [memorySpec, Op.dying, Ans.values, Op.args, Op.counted]
    omega
  | exchange p r =>
    have hsum := sum_put (b := b) m p r
    simp [memorySpec, Op.dying, Ans.values, Op.args, Op.counted]
    omega
  | compareExchangeStrong p v w =>
    by_cases heq : m p = m v
    · have hsum := sum_put (b := b) m p w
      simp [memorySpec, Op.dying, Ans.values, Op.args, Op.counted, heq] at *
      omega
    · have hsum := sum_put (b := b) m v (m p)
      by_cases hnull : (m p).pi = .null
      · have hzero : one b (m p) = 0 := by simp [one, hnull, hb.symm]
        simp [memorySpec, Op.dying, Ans.values, Op.args, Op.counted, heq, hnull] at *
        omega
      · have hcount : [Emit.addRef (m p).pi, .release .null].count (.addRef b) = one b (m p) := by
          simp [List.count_cons, one]
        simp only [memorySpec, Op.dying, Ans.values, Op.args, Op.counted, if_neg heq, if_neg hnull, hcount, List.map_cons,
          List.map_nil, List.sum_cons, List.sum_nil]
        omega

/-- The references a thread in a function owns: its parameters and what it has
counted, then what it destroys and returns. -/
def claims (b : BlockPtr) : Place (Contents O) Emit (Op O) Ended → Nat
  | .idle => 0
  | .waiting op => (op.args.map (one b)).sum
  | .inside op done _ => (op.args.map (one b)).sum + done.count (.addRef b)
  | .leaving res todo => (res.ans.values.map (one b)).sum + todo.count (.release b)

variable {ι K : Type} [DecidableEq ι] [DecidableEq K] {key : O → K}

/-- The references of several values. -/
def inAll (b : BlockPtr) (vs : Multiset Value) : Nat := (vs.map (one b)).sum

theorem inAll_coe (b : BlockPtr) (vs : List Value) : inAll b ↑vs = (vs.map (one b)).sum := rfl

theorem inAll_add (b : BlockPtr) (vs ws : Multiset Value) : inAll b (vs + ws) = inAll b vs + inAll b ws := by
  rw [inAll, Multiset.map_add, Multiset.sum_add]
  rfl

theorem inAll_cons (b : BlockPtr) (v : Value) (vs : Multiset Value) : inAll b (v ::ₘ vs) = one b v + inAll b vs := by
  rw [inAll, Multiset.map_cons, Multiset.sum_cons]
  rfl

def State.account (s : State ι O K) (b : BlockPtr) (t : ι) : Nat := claims b (s.sys.thr t) + inAll b (s.held t)

/-- The references that the objects and the threads own. -/
def State.owned [Fintype ι] (s : State ι O K) (b : BlockPtr) : Nat :=
  ∑ o, one b (objects s.sys.published o) + ∑ t, s.account b t

omit [Fintype O] [DecidableEq ι] [DecidableEq K] in
/-- What a section emits while it has its keys adds references, or releases nothing. -/
theorem emit_inside {s : Guarded.State (Contents O) K Emit ι (Op O) Ended} (hi : Guarded.Inv (functions key) s) {t : ι}
    {op : Op O} {done : List Emit} {e : Emit} {k : Code O Ended} (hpl : s.thr t = .inside op done (.emit e k)) :
    (∃ p, e = .addRef p) ∨ e = .release .null := by
  have hemits := hi.emits t op done _ hpl
  have hmem : e ∈ op.counted (objects s.published) := by
    rw [← body_out]
    show e ∈ ((functions key).body op).out s.published
    rw [← hemits]
    simp [Body.out]
  cases op with
  | load p => exact .inl ⟨_, by simpa [Op.counted] using hmem⟩
  | store p r | exchange p r => simp [Op.counted] at hmem
  | compareExchangeStrong p v w =>
    simp only [Op.counted] at hmem
    split at hmem
    · exact .inr (by simpa using hmem)
    · split at hmem
      · simp at hmem
      · simp only [List.mem_cons, List.not_mem_nil, or_false] at hmem
        exact hmem.imp (fun h => ⟨_, h⟩) id

theorem count_dying (b : BlockPtr) (vs : List Value) :
    (vs.map fun v => Emit.release v.pi).count (.release b) = (vs.map (one b)).sum := by
  induction vs with
  | nil => rfl
  | cons v vs ih =>
    rw [List.map_cons, List.map_cons, List.sum_cons, List.count_cons, ih, one]
    simp only [beq_iff_eq, Emit.release.injEq]
    omega

/-- A step of a function: what the objects and the thread own changes by what is
counted and released, and by the parameters and results that come and go. -/
theorem sys_owned (hb : b ≠ .null) {s s' : Guarded.State (Contents O) K Emit ι (Op O) Ended}
    (hi : Guarded.Inv (functions key) s) {t : ι} (h : (functions key).step s (t, .run) = some s') :
    ∑ o, one b (objects s'.published o) + claims b (s'.thr t) +
        (Guarded.emitted s (t, .run)).count (.release b) + inAll b (returned true (s.thr t)) =
      ∑ o, one b (objects s.published o) + claims b (s.thr t) + (Guarded.emitted s (t, .run)).count (.addRef b) := by
  simp only [Guarded.step] at h
  cases hpl : s.thr t with
  | idle => rw [hpl] at h; cases h
  | waiting op =>
    rw [hpl] at h
    simp only [Guarded.exec, Option.ite_none_right_eq_some, Option.some.injEq] at h
    obtain ⟨-, rfl⟩ := h
    simp [Guarded.emitted, hpl, claims, returned, inAll]
  | inside op done left =>
    rw [hpl] at h
    cases left with
    | read | write =>
      cases h
      simp [Guarded.emitted, hpl, claims, returned, inAll]
    | emit e k =>
      cases h
      rcases emit_inside hi hpl with ⟨p, rfl⟩ | rfl
      · simp [Guarded.emitted, hpl, claims, returned, inAll, List.count_append]
        omega
      · simp [Guarded.emitted, hpl, claims, returned, inAll, List.count_append, hb.symm]
    | ret r =>
      have hemits : done = op.counted (objects s.published) := by
        have hout : done ++ [] = op.body.out s.published := hi.emits t op done _ hpl
        rw [← body_out, ← hout, List.append_nil]
      have hres : r = (op.body.exec s.published).2 := hi.result t op done _ hpl
      have hspec := body_spec op s.published
      have hpublished := hi.published_eq hpl
      cases h
      have hlaw := conserved hb op (objects s.published)
      rw [hspec, ← body_dying] at hlaw
      simp only [claims, hpl, Guarded.emitted, returned, inAll, Function.update_self, List.count_nil, Multiset.map_zero,
        Multiset.sum_zero, add_zero, hpublished]
      show _ + ((r.ans.values.map (one b)).sum + (r.dying.map fun v => Emit.release v.pi).count (.release b)) = _
      rw [count_dying, hemits, hres]
      show ∑ o, one b (objects (op.body.exec s.published).1 o) + _ = _
      simp only at hlaw
      omega
  | leaving res todo =>
    rw [hpl] at h
    cases todo with
    | nil =>
      cases h
      simp [Guarded.emitted, hpl, claims, returned, inAll_coe]
    | cons e todo =>
      cases h
      have hmem : e ∈ res.dying.map fun v => Emit.release v.pi := (hi.tail t res _ hpl).mem List.mem_cons_self
      obtain ⟨v, -, rfl⟩ := List.mem_map.mp hmem
      simp [Guarded.emitted, hpl, claims, returned, inAll, List.count_cons]
      omega

/-! ## Every step -/

/-- What one emission does to the count of `b`. -/
theorem apply_count (hb : b ≠ .null) (refs : BlockPtr → Nat) (e : Emit) (h : [e].count (.release b) ≤ refs b) :
    e.apply refs b + [e].count (.release b) = refs b + [e].count (.addRef b) := by
  cases e with
  | addRef p =>
    have hcount : [Emit.addRef p].count (.addRef b) = if p = b then 1 else 0 := by simp [List.count_cons]
    rw [hcount]
    by_cases hp : p = b
    · subst hp
      simp [Emit.apply, Atomic.addRef, hb]
    · by_cases hnull : p = .null <;> simp [Emit.apply, Atomic.addRef, hp, hnull, Ne.symm hp, hb.symm]
  | release p =>
    have hcount : [Emit.release p].count (.release b) = if p = b then 1 else 0 := by simp [List.count_cons]
    rw [hcount] at h ⊢
    by_cases hp : p = b
    · subst hp
      rw [if_pos rfl] at h
      simp [Emit.apply, Atomic.release, hb]
      omega
    · by_cases hnull : p = .null <;> simp [Emit.apply, Atomic.release, hp, hnull, Ne.symm hp, hb.symm]

omit [DecidableEq O] [Fintype O] [DecidableEq ι] [DecidableEq K] in
/-- At most one thing is emitted at a time. -/
theorem emitted_length (s : Guarded.State (Contents O) K Emit ι (Op O) Ended) (l : ι × Guarded.Act (Op O)) :
    Guarded.emitted s l = [] ∨ ∃ e, Guarded.emitted s l = [e] := by
  unfold Guarded.emitted
  split
  · exact .inr ⟨_, rfl⟩
  · exact .inr ⟨_, rfl⟩
  · exact .inl rfl

variable [Fintype ι]

omit [DecidableEq O] [DecidableEq K] in
/-- One thread's account changes, and the sum with it. -/
theorem owned_change {s s' : State ι O K} {t : ι} {x y : Nat} (hother : ∀ u ≠ t, s'.account b u = s.account b u)
    (h : ∑ o, one b (objects s'.sys.published o) + s'.account b t + x =
      ∑ o, one b (objects s.sys.published o) + s.account b t + y) : s'.owned b + x = s.owned b + y := by
  have hs := Finset.add_sum_erase univ (s.account b) (mem_univ t)
  have hs' := Finset.add_sum_erase univ (s'.account b) (mem_univ t)
  have hrest : ∑ u ∈ univ.erase t, s'.account b u = ∑ u ∈ univ.erase t, s.account b u :=
    Finset.sum_congr rfl fun u hu => hother u (Finset.ne_of_mem_erase hu)
  simp only [State.owned, ← hs, ← hs', hrest]
  omega

/-- Each block has been counted once for each owner. -/
def Counted (s : State ι O K) : Prop := ∀ b ≠ .null, s.refs b = s.owned b

/-- What a step does to the count of a block and to its owners. -/
theorem step_owned (hb : b ≠ .null) {s s' : State ι O K} (hi : Guarded.Inv (functions key) s.sys) {l : ι × Act O}
    (h : step key s l = some s') :
    (∃ e : Emit, s'.refs = e.apply s.refs ∧
      s'.owned b + [e].count (.release b) = s.owned b + [e].count (.addRef b)) ∨
    s'.refs = s.refs ∧ s'.owned b = s.owned b := by
  obtain ⟨t, act⟩ := l
  cases act with
  | begin op =>
    simp only [step, Option.ite_none_right_eq_some, Option.map_eq_some_iff] at h
    obtain ⟨hargs, sys, hsys, rfl⟩ := h
    obtain ⟨hidle, rfl⟩ := Guarded.step_begin hsys
    have hheld : (op.args.map (one b)).sum + inAll b (s.held t - ↑op.args) = inAll b (s.held t) := by
      rw [← inAll_coe, ← inAll_add, add_tsub_cancel_of_le hargs]
    refine .inr ⟨rfl, ?_⟩
    refine owned_change (t := t) (x := 0) (y := 0) (fun u hu => by simp [State.account, hu]) ?_
    simp only [State.account, Function.update_self, hidle, claims]
    omega
  | run =>
    simp only [step, Option.map_eq_some_iff] at h
    obtain ⟨sys, hsys, rfl⟩ := h
    have hother (u : ι) (hu : u ≠ t) : sys.thr u = s.sys.thr u := Guarded.step_thr_ne hsys hu
    have hlaw := sys_owned hb hi hsys
    have hchange (refs : BlockPtr → Nat) := owned_change (b := b) (t := t)
      (x := (Guarded.emitted s.sys (t, .run)).count (.release b))
      (y := (Guarded.emitted s.sys (t, .run)).count (.addRef b))
      (s := s)
      (fun u hu => show State.account ⟨sys, refs, Function.update s.held t (returned true (s.sys.thr t) + s.held t)⟩ b u =
        s.account b u by simp [State.account, hu, hother u hu])
      (by
        simp only [State.account, Function.update_self, inAll_add]
        omega)
    rcases emitted_length s.sys (t, .run) with hnone | ⟨e, he⟩
    · rw [hnone] at hchange ⊢
      exact .inr ⟨rfl, hchange _⟩
    · rw [he] at hchange ⊢
      exact .inl ⟨e, rfl, hchange _⟩
  | make v =>
    simp only [step] at h
    split at h <;> cases h
    refine .inl ⟨.addRef v.pi, rfl, ?_⟩
    refine owned_change (t := t) (fun u hu => by simp [State.account, hu]) ?_
    rw [count_addRef]
    simp [State.account, inAll_cons]
    omega
  | drop v =>
    simp only [step] at h
    split at h
    case h_2 => cases h
    simp only [Option.ite_none_right_eq_some, Option.some.injEq] at h
    obtain ⟨hv, rfl⟩ := h
    refine .inl ⟨.release v.pi, rfl, ?_⟩
    refine owned_change (t := t) (fun u hu => by simp [State.account, hu]) ?_
    have hheld : inAll b (s.held t) = one b v + inAll b ((s.held t).erase v) := by
      rw [← inAll_cons, Multiset.cons_erase hv]
    rw [count_release]
    simp [State.account, hheld]
    omega

theorem step_counted {s s' : State ι O K} (hi : Guarded.Inv (functions key) s.sys) (hc : Counted s) {l : ι × Act O}
    (h : step key s l = some s') : Counted s' := by
  intro b hb
  have hcb := hc b hb
  rcases step_owned hb hi h with ⟨e, hrefs, howned⟩ | ⟨hrefs, howned⟩
  · have hle : [e].count (.release b) ≤ s.refs b := by
      cases e with
      | addRef p => simp
      | release p =>
        have hzero : [Emit.release p].count (.addRef b) = 0 := by simp
        omega
    have happly := apply_count hb s.refs e hle
    rw [hrefs]
    omega
  · rw [hrefs, howned]
    exact hcb

omit [DecidableEq O] [DecidableEq ι] [DecidableEq K] in
theorem init_counted (m : O → Value) : Counted (init m : State ι O K) := by
  intro b _
  have hnone : ∑ t, (init m : State ι O K).account b t = 0 := Finset.sum_eq_zero fun _ _ => rfl
  rw [State.owned, hnone, add_zero]
  rfl

/-- **References are conserved.** In every state of every run each block is
counted once for each object and each value of a thread that owns it: none is
lost, none is given up twice. -/
theorem freeFunctions_counted {m : O → Value} {ls : List (ι × Act O)} {s : State ι O K}
    (h : run (step key) (init m) ls = some s) : Counted s :=
  (run_invariant (I := fun u => Guarded.Inv (functions key) u.sys ∧ Counted u)
    (fun _ _ _ hu hl => ⟨step_inv hu.1 hl, step_counted hu.1 hu.2 hl⟩) h
    ⟨Guarded.init_inv _, init_counted m⟩).2

omit [Fintype O] [Fintype ι] in
/-- **Nothing is destroyed under a lock.** A step that lowers the count of a
block is made by a thread that holds no key. -/
theorem released_unlocked [Fintype O] {m : O → Value} {ls : List (ι × Act O)} {s s' : State ι O K}
    (h : run (step key) (init m) ls = some s) {l : ι × Act O} (hl : step key s l = some s')
    (hless : s'.refs b < s.refs b) (k : K) : s.sys.owner k ≠ some l.1 := by
  have hi : Guarded.Inv (functions key) s.sys :=
    run_invariant (fun _ _ _ hu hl => step_inv hu hl) h (Guarded.init_inv _)
  intro hk
  obtain ⟨op, done, left, hin, -⟩ := hi.holder k l.1 hk
  obtain ⟨t, act⟩ := l
  cases act with
  | begin op =>
    simp only [step, Option.ite_none_right_eq_some, Option.map_eq_some_iff] at hl
    obtain ⟨-, sys, -, rfl⟩ := hl
    exact Nat.lt_irrefl _ hless
  | run =>
    simp only [step, Option.map_eq_some_iff] at hl
    obtain ⟨sys, -, rfl⟩ := hl
    cases left with
    | ret | read | write =>
      simp only [Guarded.emitted, hin, List.foldl_nil] at hless
      omega
    | emit e c =>
      simp only [Guarded.emitted, hin, List.foldl_cons, List.foldl_nil] at hless
      rcases emit_inside hi hin with ⟨p, rfl⟩ | rfl
      · have hle : s.refs b ≤ Emit.apply s.refs (.addRef p) b := by
          simp only [Emit.apply, Atomic.addRef]
          split
          · exact Nat.le_refl _
          · by_cases hp : b = p
            · subst hp
              simp
            · simp [hp]
        omega
      · simp [Emit.apply, Atomic.release] at hless
  | make v | drop v =>
    simp only [step, hin] at hl
    cases hl

end

/-! ## A run -/

/-- A value that owns the block at address 4. -/
def owner4 : Value := ⟨8, ⟨4, by decide⟩⟩

/-- What the second thread tries: object `true` has what it expects of `false`. -/
def tryCompare : Act Bool := .begin (.compareExchangeStrong false true empty)

def turns (t : Bool) (n : Nat) : List (Bool × Act Bool) := List.replicate n (t, .run)

/-- A store overtakes a compare-exchange, which fails and leaves the new value
in object `true`; from there the first thread loads it, and the second thread
tries again. -/
def compareAgain : List (Bool × Act Bool) :=
  [(true, .make owner4), (false, .make empty), (false, .make empty), (true, .begin (.store false owner4))] ++
    turns true 3 ++ [(false, tryCompare)] ++ turns true 5 ++
    turns false 4 ++ [(true, .begin (.load true))] ++ turns false 14 ++
    turns true 3 ++ [(false, tryCompare)] ++ turns true 3 ++ turns false 17

def start : State Bool Bool Unit := init fun _ => empty

theorem freeFunctions_linearizable_again : ∃ s : State Bool Bool Unit, ∃ x,
    run (step fun _ => ()) start compareAgain = some s ∧
    Path memorySpec (fun _ => empty, fun _ => .idle) (trace (step fun _ => ()) observe start compareAgain) x ∧
    s.sys.owner () = none ∧ objects s.sys.mem = x.1 := by
  let s : State Bool Bool Unit := (run (step fun _ => ()) start compareAgain).getD start
  have hs : run (step fun _ => ()) start compareAgain = some s := run_getD (by decide +kernel) _
  obtain ⟨x, hpath, hfree⟩ := freeFunctions_linearizable hs
  have hunlocked : s.sys.owner () = none := by decide +kernel
  exact ⟨s, x, hs, hpath, hunlocked, funext fun o => hfree o hunlocked⟩

/-- An object, a value that was loaded and the old value of the compare-exchange own the block. -/
theorem freeFunctions_counted_again : ∃ s : State Bool Bool Unit,
    run (step fun _ => ()) start compareAgain = some s ∧ s.refs owner4.pi = 3 ∧ Counted s := by
  let s : State Bool Bool Unit := (run (step fun _ => ()) start compareAgain).getD start
  have hs : run (step fun _ => ()) start compareAgain = some s := run_getD (by decide +kernel) _
  exact ⟨s, hs, by decide +kernel, freeFunctions_counted hs⟩

/-- The reference to the old value goes once the lock is given back. -/
theorem released_unlocked_again : ∃ s s' : State Bool Bool Unit,
    run (step fun _ => ()) start compareAgain = some s ∧ step (fun _ => ()) s (false, .run) = some s' ∧
    s'.refs owner4.pi = 2 ∧ s.sys.owner () ≠ some false := by
  let s : State Bool Bool Unit := (run (step fun _ => ()) start compareAgain).getD start
  have hs : run (step fun _ => ()) start compareAgain = some s := run_getD (by decide +kernel) _
  let s' : State Bool Bool Unit := (run (step fun _ => ()) s [(false, .run)]).getD s
  have hs' : run (step fun _ => ()) s [(false, .run)] = some s' := run_getD (by decide +kernel) _
  have hstep : step (fun _ => ()) s (false, .run) = some s' := by
    obtain ⟨u, hu, hnil⟩ := run_cons.mp hs'
    cases hnil
    exact hu
  have hless : s'.refs owner4.pi < s.refs owner4.pi := by decide +kernel
  exact ⟨s, s', hs, hstep, by decide +kernel, released_unlocked hs hstep hless ()⟩

end SharedPtr.Locker
