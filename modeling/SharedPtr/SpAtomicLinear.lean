/-
`atomic<shared_ptr<T>>` and `atomic<weak_ptr<T>>` are linearizable on the
whole pair. Each operation takes effect at one step inside its locked region:
`load`, and a compare-exchange that fails, where they read `_M_ptr`; the
others at the exchange that publishes the new block and gives up the lock.
-/
import SharedPtr.SpAtomicInv
import SharedPtr.Lib.Linearizable

namespace SharedPtr.Atomic

open Lib

/-- What the operations mean on the pair; `wait` is not among those claimed. -/
def pairSpec : Spec Value Op Res
  | a, .load => (a, .loaded a)
  | _, .store d => (d, .stored)
  | a, .exchange d => (d, .exchanged a)
  | a, .compareExchangeStrong e d => if a = e then (d, .succeeded e) else (a, .failed a)
  | a, .wait _ => (a, .waited)

/-- The pair an answer shows. -/
def reads : Op → Res → Option Value
  | _, .loaded v | _, .exchanged v | _, .failed v => some v
  | _, .stored | _, .succeeded _ | _, .waited => none

/-- The pair an operation with that answer has put there. -/
def writes : Op → Res → Option Value
  | .store d, _ | .exchange d, _ | .compareExchangeStrong _ d, .succeeded _ => some d
  | _, _ => none

def Op.isWait : Op → Bool
  | .wait _ => true
  | _ => false

section

variable {ι : Type}

/-- Calls, effects and answers. A wait shows nothing. -/
def observe (s : State ι) (l : Label ι) : Option (Event ι Op Res) :=
  match l.act with
  | .begin op => if op.isWait then none else some (.call l.thread op)
  | .run =>
    match (s.thr l.thread).pc with
    | .locked .load pi => some (.effect l.thread .load (.loaded ⟨s.ptr, pi⟩))
    | .casRead e d pi => some (.effect l.thread (.compareExchangeStrong e d) (.failed ⟨s.ptr, pi⟩))
    | .swapPublish isExchange d tmp =>
      some (if isExchange then .effect l.thread (.exchange d) (.exchanged ⟨tmp, clear s.val⟩)
        else .effect l.thread (.store d) .stored)
    | .casPublish e d => some (.effect l.thread (.compareExchangeStrong e d) (.succeeded e))
    | .finish .waited [] => none
    | .finish res [] => some (.ret l.thread res)
    | _ => none
  | _ => none

/-- What a thread has under way, by where it is. -/
def After.status : After → Status Op Res
  | .finish .waited _ | .wait .. => .idle
  | .finish res _ => .done res

def Pc.status : Pc → Status Op Res
  | .idle | .waitLoad _ | .waiting .. | .finish .waited _ => .idle
  | .spin op | .lockCas op _ | .locked op _ => if op.isWait then .idle else .called op
  | .loadRef ret => .done (.loaded ret)
  | .swapWrite isExchange d _ | .swapPublish isExchange d _ => .called (if isExchange then .exchange d else .store d)
  | .casWrite e d | .casPublish e d | .casRead e d _ => .called (.compareExchangeStrong e d)
  | .casRef _ _ expected => .done (.failed expected)
  | .unlockLoad next | .unlockCas next _ => next.status
  | .finish res _ => .done res

@[simp] theorem After.status_pc (a : After) : a.pc.status = a.status := by
  rcases a with ⟨res, _⟩ | _
  · cases res <;> rfl
  · rfl

/-- The pair and the operations under way, as the atomic object has them. -/
def State.abs (s : State ι) : Value × (ι → Status Op Res) := (s.pair, fun t => (s.thr t).pc.status)

end

section

variable {ι : Type} [DecidableEq ι] {s s' : State ι} {t : ι} {pc : Pc} {ptr val : Word} {refs : BlockPtr → Nat}
  {pair : Value}

theorem abs_update (th : Thread) :
    State.abs ⟨ptr, val, refs, Function.update s.thr t th, pair⟩ =
      (pair, Function.update s.abs.2 t th.pc.status) := by
  refine Prod.ext rfl (funext ?_)
  intro u
  by_cases hu : u = t
  · subst hu
    simp [State.abs]
  · simp [State.abs, hu]

theorem abs_keep {th : Thread} (h : th.pc.status = (s.thr t).pc.status) :
    State.abs ⟨ptr, val, refs, Function.update s.thr t th, s.pair⟩ = s.abs := by
  rw [abs_update, h]
  exact Prod.ext rfl (Function.update_eq_self _ _)

theorem effect_update {op : Op} {res : Res} {th : Thread} (hop : (s.thr t).pc.status = .called op)
    (hspec : pairSpec s.pair op = (pair, res)) (hth : th.pc.status = .done res) :
    AtomicStep pairSpec s.abs (.effect t op res) (State.abs ⟨ptr, val, refs, Function.update s.thr t th, pair⟩) := by
  have hstep : AtomicStep pairSpec s.abs (.effect t op _) _ := AtomicStep.effect op hop
  rw [hspec] at hstep
  rw [abs_update, hth]
  exact hstep

/-- What a step shows, the atomic object does. -/
def Matches (s s' : State ι) : Option (Event ι Op Res) → Prop
  | none => s'.abs = s.abs
  | some e => AtomicStep pairSpec s.abs e s'.abs

theorem exec_matches (hi : Inv s) (hpc : (s.thr t).pc = pc) (h : exec s t pc = some s') :
    Matches s s' (observe s ⟨t, .run⟩) := by
  have hstatus : (s.thr t).pc.status = pc.status := congrArg Pc.status hpc
  have hholds := hi.holds t
  rw [hpc] at hholds
  cases pc with
  | idle => cases h
  | spin op =>
    simp only [exec, Option.some.injEq] at h
    simp only [observe, hpc]
    split at h <;> subst h
    · exact abs_keep hstatus.symm
    · rfl
  | lockCas op current =>
    simp only [exec] at h
    simp only [observe, hpc]
    split at h <;> cases h <;> exact abs_keep hstatus.symm
  | locked op pi =>
    obtain ⟨rfl, hptr⟩ := hholds
    have hpair : (⟨s.ptr, s.pair.pi⟩ : Value) = s.pair := by rw [hptr]
    cases op with
    | load =>
      cases h
      simp only [observe, hpc, hpair]
      exact effect_update hstatus rfl rfl
    | store | exchange =>
      cases h
      simp only [observe, hpc]
      exact abs_keep hstatus.symm
    | compareExchangeStrong | wait =>
      simp only [exec] at h
      simp only [observe, hpc]
      split at h <;> cases h <;> exact abs_keep hstatus.symm
  | casRead e d pi =>
    obtain ⟨hne, rfl, hptr⟩ := hholds
    have hpair : (⟨s.ptr, s.pair.pi⟩ : Value) = s.pair := by rw [hptr]
    cases h
    simp only [observe, hpc, hpair]
    exact effect_update hstatus (by simp [pairSpec, hne]) rfl
  | swapPublish isExchange d tmp =>
    obtain ⟨rfl, -⟩ := hholds
    cases h
    simp only [observe, hpc, hi.clear]
    cases isExchange <;> exact effect_update hstatus rfl rfl
  | casPublish e d =>
    cases h
    simp only [observe, hpc]
    exact effect_update hstatus (by simp [pairSpec, hholds.1]) rfl
  | loadRef | swapWrite | casWrite | casRef | waitLoad | unlockLoad =>
    cases h
    simp only [observe, hpc]
    exact abs_keep hstatus.symm
  | unlockCas next current =>
    simp only [exec] at h
    simp only [observe, hpc]
    split at h <;> cases h
    · exact abs_keep ((After.status_pc next).trans hstatus.symm)
    · exact abs_keep hstatus.symm
  | waiting old v =>
    simp only [exec, Option.some.injEq] at h
    simp only [observe, hpc]
    split at h <;> subst h
    · exact abs_keep hstatus.symm
    · rfl
  | finish res dying =>
    cases dying with
    | cons v dying =>
      cases h
      simp only [observe, hpc]
      cases res <;> exact abs_keep hstatus.symm
    | nil =>
      cases h
      cases res with
      | waited =>
        simp only [observe, hpc]
        exact abs_keep hstatus.symm
      | _ =>
        simp only [observe, hpc, Matches]
        rw [abs_update]
        exact .ret _ hstatus

/-- **Every step does to the pair what it shows, or nothing.** -/
theorem step_matches (hi : Inv s) {l : Label ι} (h : step s l = some s') : Matches s s' (observe s l) := by
  obtain ⟨t, act⟩ := l
  cases act with
  | run => exact exec_matches hi rfl h
  | begin op =>
    simp only [step, Option.ite_none_right_eq_some, Option.some.injEq] at h
    obtain ⟨⟨hpc, -⟩, rfl⟩ := h
    have hstatus : (s.thr t).pc.status = .idle := congrArg Pc.status hpc
    simp only [observe]
    cases hop : op.isWait with
    | true => exact abs_keep (by rw [hstatus, Pc.status, hop]; rfl)
    | false =>
      simp only [Bool.false_eq_true, if_false, Matches]
      rw [abs_update, Pc.status, hop]
      exact .call op hstatus
  | make v =>
    simp only [step, Option.ite_none_right_eq_some, Option.some.injEq] at h
    obtain ⟨hpc, rfl⟩ := h
    exact abs_keep (congrArg Pc.status hpc).symm
  | drop v =>
    simp only [step, Option.ite_none_right_eq_some, Option.some.injEq] at h
    obtain ⟨⟨hpc, -⟩, rfl⟩ := h
    exact abs_keep (congrArg Pc.status hpc).symm
  | notify =>
    simp only [step, Option.ite_none_right_eq_some, Option.some.injEq] at h
    rw [← h.2]
    rfl

theorem path_of_run {v : Value} {ls : List (Label ι)} (h : run step (State.init v) ls = some s) :
    Path pairSpec (v, fun _ => .idle) (trace step observe (State.init v) ls) s.abs := by
  have hstep (s : State ι) (x) (l : Label ι) (s' : State ι) (hx : Inv s ∧ x = s.abs) (hs : step s l = some s') :
      Matched pairSpec (fun s x => Inv s ∧ x = s.abs) s' x (observe s l) := by
    obtain ⟨hi, rfl⟩ := hx
    have hmatch := step_matches hi hs
    cases hobs : observe s l with
    | none =>
      rw [hobs] at hmatch
      exact ⟨hi.step hs, hmatch.symm⟩
    | some e =>
      rw [hobs] at hmatch
      exact ⟨_, hmatch, hi.step hs, rfl⟩
  obtain ⟨x, hpath, -, rfl⟩ := linearizable hstep h ⟨.init v, rfl⟩
  exact hpath

theorem pairSpec_reads (a : Value) (op : Op) (p : Value) (h : reads op (pairSpec a op).2 = some p) : p = a := by
  cases op with
  | compareExchangeStrong e d =>
    simp only [pairSpec] at h
    split at h <;> simp_all [reads]
  | _ => simp_all [pairSpec, reads]

theorem pairSpec_writes (a : Value) (op : Op) :
    (pairSpec a op).1 = a ∨ writes op (pairSpec a op).2 = some (pairSpec a op).1 := by
  cases op with
  | load | wait => exact .inl rfl
  | store | exchange => exact .inr rfl
  | compareExchangeStrong e d =>
    simp only [pairSpec]
    split
    · exact .inr rfl
    · exact .inl rfl

omit [DecidableEq ι] in
/-- A step that takes effect is one of the thread inside. -/
theorem inside_of_effect {l : Label ι} {op : Op} {res : Res} (h : observe s l = some (.effect t op res)) :
    l.thread = t ∧ (s.thr t).pc.inside = true := by
  obtain ⟨u, act⟩ := l
  cases act with
  | begin op' =>
    simp only [observe] at h
    split at h <;> cases h
  | make | drop | notify => cases h
  | run =>
    simp only [observe] at h
    split at h
    · next hpc =>
      cases h
      exact ⟨rfl, by rw [hpc]; rfl⟩
    · next hpc =>
      cases h
      exact ⟨rfl, by rw [hpc]; rfl⟩
    · next isExchange d tmp hpc =>
      cases isExchange <;> cases h <;> exact ⟨rfl, by rw [hpc]; rfl⟩
    · next hpc =>
      cases h
      exact ⟨rfl, by rw [hpc]; rfl⟩
    · cases h
    · cases h
    · cases h

/-- The contract of the atomic smart pointer, in the state `s` that the run
`ls` reaches from the object made of `v`. -/
structure Linearizable [Fintype ι] (v : Value) (ls : List (Label ι)) (s : State ι) : Prop where
  /-- At most one thread is between `lock()` and the step that gives up the lock; the bit says whether there is one. -/
  alone : ∀ t u, (s.thr t).pc.inside = true → (s.thr u).pc.inside = true → t = u
  bit : s.val &&& lockBit = lockBit ↔ ∃ t, (s.thr t).pc.inside = true
  /-- What a thread outside does neither depends on `_M_ptr` nor changes it. -/
  touches : ∀ t, (s.thr t).pc.inside = false → ∀ ptr,
    exec { s with ptr } t (s.thr t).pc = (exec s t (s.thr t).pc).map fun s' => { s' with ptr }
  /-- Each operation takes effect on the pair at one instant, between its call and its answer, as if alone; the
  pair that has come about is the one the fields hold when the bit is clear. -/
  path : ∃ st, Path pairSpec (v, fun _ => .idle) (trace step observe (State.init v) ls) (s.pair, st)
  fields : s.val &&& lockBit = 0 → s.pair = ⟨s.ptr, clear s.val⟩
  /-- That instant is inside the locked region. -/
  instant : ∀ l t op res, observe s l = some (.effect t op res) → l.thread = t ∧ (s.thr t).pc.inside = true
  /-- Every pair that is answered was put there whole, by one operation or the constructor. -/
  whole : ∀ pre post t op res p,
    effects (trace step observe (State.init v) ls) = pre ++ (t, op, res) :: post → reads op res = some p →
    p = v ∨ ∃ w ∈ pre, writes w.2.1 w.2.2 = some p
  /-- The block in `_M_val` has one reference that is the object's, besides those of the threads. -/
  counted : ∀ b ≠ .null, s.refs b = (if clear s.val = b then 1 else 0) + s.claimed.count b

theorem Pc.not_touchesPtr {pc : Pc} (h : pc.inside = false) : pc.touchesPtr = false := by
  cases pc <;> first | rfl | cases h

/-- **Atomic smart pointers are linearizable on the whole pair**, and lose
and duplicate no reference, in every run of any number of threads. -/
theorem atomic_pair_linearizable [Fintype ι] (v : Value) (ls : List (Label ι)) (s : State ι)
    (h : run step (State.init v) ls = some s) : Linearizable v ls s where
  alone := (Inv.run h).alone
  bit := by
    have hi := Inv.run h
    constructor
    · intro hbit
      by_contra hnone
      have hval := (hi.free fun t => by simpa using fun ht => hnone ⟨t, ht⟩).1
      rw [hval, s.pair.pi.2] at hbit
      exact absurd hbit (by decide)
    · rintro ⟨t, ht⟩
      rw [hi.held t ht, withBit_and]
  touches t hout ptr := exec_ptr s t (Pc.not_touchesPtr hout) ptr
  path := ⟨_, path_of_run h⟩
  fields hbit := by
    have hi := Inv.run h
    have hout (t : ι) : (s.thr t).pc.inside = false := hi.outside (p := ⟨s.val, hbit⟩) rfl t
    rw [hi.clear, (hi.free hout).2]
  instant _ _ _ _ := inside_of_effect
  whole pre post t op res p hops hp :=
    (path_of_run h).sequential.provenance (fun a op p => pairSpec_reads a op p) pairSpec_writes hops hp
  counted b hb := by
    rw [Counted.run h b hb, State.owned, Multiset.count_add, Multiset.count_singleton, (Inv.run h).clear]
    simp only [eq_comm]

end

/-- One thread exchanges while another loads; the load waits for the bit and
sees the new pair. -/
theorem atomic_pair_linearizable_exchange_load : ∃ (ls : List (Label (Fin 2))) (s : State (Fin 2)),
    run step (State.init ⟨16, ⟨32, by decide⟩⟩) ls = some s ∧ s.ptr = 48 ∧ s.val = 65 ∧
      Linearizable ⟨16, ⟨32, by decide⟩⟩ ls s := by
  let d : Value := ⟨48, ⟨64, by decide⟩⟩
  let ls : List (Label (Fin 2)) :=
    [⟨0, .make d⟩, ⟨0, .begin (.exchange d)⟩, ⟨1, .begin .load⟩, ⟨0, .run⟩, ⟨1, .run⟩, ⟨0, .run⟩, ⟨1, .run⟩,
      ⟨0, .run⟩, ⟨0, .run⟩, ⟨0, .run⟩, ⟨1, .run⟩, ⟨1, .run⟩, ⟨1, .run⟩, ⟨0, .run⟩]
  have h : (run step (State.init ⟨16, ⟨32, by decide⟩⟩) ls).map (fun s => (s.ptr, s.val)) = some (48, 65) := by
    decide +kernel
  obtain ⟨s, hs, hb⟩ := Option.map_eq_some_iff.mp h
  rw [Prod.mk.injEq] at hb
  exact ⟨ls, s, hs, hb.1, hb.2, atomic_pair_linearizable _ ls s hs⟩

end SharedPtr.Atomic
