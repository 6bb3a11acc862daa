/-
What the operations of `__atomic_impl` keep. Whatever they write has its
padding clear, so the object is as it was found or clean (`Inv.obj`). From
that follows what the comment in `__compare_exchange` says of its loop: it
runs no more than three times, unless the built-in fails spuriously
(`compareExchange_tries`).
-/
import SharedPtr.AtomicImpl

namespace SharedPtr.AtomicImpl

open Lib

section

variable {V P : Type}

/-- The compare-exchanges are loops. -/
def Config.retries (cfg : Config V P) : Bool := cfg.layout.maybeHasPadding && cfg.atomicRef

theorem retries_iff {cfg : Config V P} :
    cfg.retries = true ↔ cfg.layout.maybeHasPadding = true ∧ cfg.atomicRef = true := by
  simp [Config.retries]

/-- What `__newval` means as a value. -/
def Rmw.apply (A : Arith V) (oldval i : V) : Rmw → V
  | .fetchAddFlt | .addFetchFlt => A.plus oldval i
  | .fetchSubFlt | .subFetchFlt => A.minus oldval i
  | .fetchMin => if A.less oldval i then oldval else i
  | .fetchMax => if A.less i oldval then oldval else i

theorem newval_val (A : Arith V) (junk : P) (oldval i : Rep V P) (f : Rmw) :
    (f.newval A junk oldval i).val = f.apply A oldval.val i.val := by
  cases f with
  | fetchAddFlt | addFetchFlt | fetchSubFlt | subFetchFlt => rfl
  | fetchMin | fetchMax => simp only [Rmw.newval, Rmw.apply]; split <;> rfl

theorem result_val (oldval newval : Rep V P) (f : Rmw) :
    (f.result oldval newval).val = f.result oldval.val newval.val := by
  cases f <;> rfl

theorem Rep.ext_val {L : Layout P} {r r' : Rep V P} (hr : r.pad = L.zero) (hr' : r'.pad = L.zero)
    (h : r.val = r'.val) : r = r' := by
  cases r
  cases r'
  simp_all

/-! ## A turn of `__compare_exchange` -/

section

variable [DecidableEq V] [DecidableEq P] {L : Layout P} {fr fr' : Frame V P} {obj e : Rep V P} {spurious : Bool}

theorem fails_iff : fr.fails obj spurious = true ↔ obj = fr.exp ∧ fr.weak = true ∧ spurious = true := by
  simp [Frame.fails]

theorem turn_success (h : fr.turn L obj spurious = .success) : obj = fr.exp ∧ fr.fails obj spurious = false := by
  unfold Frame.turn at h
  split at h
  case isTrue hexp => exact ⟨hexp.1, by simpa using hexp.2⟩
  case isFalse => split at h <;> cases h

theorem not_success (h : ¬(obj = fr.exp ∧ ¬fr.fails obj spurious)) :
    obj ≠ fr.exp ∧ fr.fails obj spurious = false ∨ fr.fails obj spurious = true := by
  by_cases hobj : obj = fr.exp
  · exact .inr (by simpa [hobj] using h)
  · exact .inl ⟨hobj, by simp [Frame.fails, hobj]⟩

/-- Another turn: the values agree, and the padding does not unless the failure was spurious. -/
theorem turn_again (h : fr.turn L obj spurious = .again fr') :
    fr' = { fr with exp := obj } ∧ (L.maybeHasPadding = true ∧ fr.atomicRef = true) ∧ obj.val = fr.exp.val ∧
      (obj ≠ fr.exp ∧ fr.fails obj spurious = false ∨ fr.fails obj spurious = true) := by
  unfold Frame.turn at h
  split at h
  case isTrue => cases h
  case isFalse hexp =>
    split at h
    case isTrue hag =>
      cases h
      obtain ⟨hpad, href, hval⟩ := hag
      simp only [clearPadding_eq, Rep.mk.injEq, and_true] at hval
      exact ⟨rfl, ⟨hpad, href⟩, hval.symm, not_success hexp⟩
    case isFalse => cases h

/-- A failure: where the loop is there to tell, the values differ. -/
theorem turn_failure (h : fr.turn L obj spurious = .failure e) :
    e = obj ∧ (L.maybeHasPadding = true → fr.atomicRef = true → obj.val ≠ fr.exp.val) ∧
      (obj ≠ fr.exp ∧ fr.fails obj spurious = false ∨ fr.fails obj spurious = true) := by
  unfold Frame.turn at h
  split at h
  case isTrue => cases h
  case isFalse hexp =>
    split at h
    case isTrue => cases h
    case isFalse hag =>
      cases h
      refine ⟨rfl, ?_, not_success hexp⟩
      intro hpad href hval
      refine hag ⟨hpad, href, ?_⟩
      simp [hval]

end

/-! ## The invariant -/

/-- How far the loop of a compare-exchange has come, by the turns that were not
spurious; `r₀` is the object as the threads found it. -/
inductive Frame.Phase (L : Layout P) (r₀ obj : Rep V P) (fr : Frame V P) (tries spurious : Nat) : Prop
  /-- The expected value is the caller's, its padding cleared. -/
  | first (hn : tries = spurious) (hexp : fr.exp.pad = L.zero)
  /-- The object had the value, but not the padding: nothing had been written. -/
  | second (hn : tries = spurious + 1) (hexp : fr.exp = r₀)
  /-- It was written since. -/
  | third (hn : tries = spurious + 2) (hexp : fr.exp.pad = L.zero) (hobj : obj.pad = L.zero)

/-- A compare-exchange under way. -/
structure Frame.Ok (cfg : Config V P) (r₀ obj : Rep V P) (fr : Frame V P) (th : Thread V P) : Prop where
  op : ∃ d, th.op = .compareExchange fr.weak fr.e d ∧ fr.i = clearPadding cfg.layout d
  ref : fr.atomicRef = cfg.atomicRef
  val : fr.exp.val = fr.e.val
  phase : fr.Phase cfg.layout r₀ obj th.tries th.spurious
  strong : fr.weak = false → th.spurious = 0
  once : cfg.retries = false → th.tries = 0 ∧ fr.exp.pad = cfg.layout.zero

/-- How many turns an operation has made in the end. -/
def Turns (cfg : Config V P) (tries spurious : Nat) : Op (Rep V P) → Prop
  | .compareExchange weak _ _ =>
    tries ≤ spurious + 3 ∧ (weak = false → spurious = 0) ∧ (cfg.retries = false → tries = 1)
  | _ => True

/-- What a thread's locals are, by where it is. -/
def Thread.Ok (cfg : Config V P) (r₀ obj : Rep V P) (th : Thread V P) : Prop :=
  match th.pc with
  | .idle => True
  | .load => th.op = .load
  | .store t => th.op = .store t
  | .exchange d => th.op = .exchange d
  | .cas fr => fr.Ok cfg r₀ obj th
  | .rmwLoad f i => th.op = .rmw f i
  | .rmwCas f i newval fr =>
    th.op = .rmw f i ∧ newval.val = f.apply cfg.arith fr.e.val i.val ∧
      fr = .enter cfg.layout false true fr.e newval
  | .done _ => Turns cfg th.tries th.spurious th.op

structure Inv {ι : Type} (cfg : Config V P) (r₀ : Rep V P) (s : State ι V P) : Prop where
  obj : s.obj = r₀ ∨ s.obj.pad = cfg.layout.zero
  thr : ∀ t, (s.thr t).Ok cfg r₀ s.obj

section

variable {cfg : Config V P} {fr fr' : Frame V P} {r₀ obj : Rep V P} {th : Thread V P}

/-- What another thread may do to the object. -/
theorem Thread.Ok.stable {obj' : Rep V P} (h : th.Ok cfg r₀ obj)
    (hobj : obj' = obj ∨ obj'.pad = cfg.layout.zero) : th.Ok cfg r₀ obj' := by
  unfold Thread.Ok at *
  cases hpc : th.pc with
  | cas fr =>
    rw [hpc] at h
    have hfr : fr.Ok cfg r₀ obj th := h
    refine { hfr with phase := ?_ }
    cases hfr.phase with
    | first hn hexp => exact .first hn hexp
    | second hn hexp => exact .second hn hexp
    | third hn hexp hclean =>
      refine .third hn hexp ?_
      rcases hobj with rfl | hobj
      · exact hclean
      · exact hobj
  | idle | load | store | exchange | rmwLoad | rmwCas | done =>
    rw [hpc] at h
    exact h

/-- What a compare-exchange writes is clean. -/
theorem Frame.Ok.clean (h : fr.Ok cfg r₀ obj th) : fr.i.pad = cfg.layout.zero := by
  obtain ⟨d, -, hi⟩ := h.op
  simp [hi]

theorem loopTurn_ok {f : Rmw} {junk : P} {i oldval : Rep V P} (hop : th.op = .rmw f i) :
    Thread.Ok cfg r₀ obj { th with pc := loopTurn cfg f junk i oldval } :=
  ⟨hop, newval_val .., rfl⟩

theorem start_ok (op : Op (Rep V P)) : Thread.Ok cfg r₀ obj ⟨op.start cfg, op, 0, 0⟩ := by
  cases op with
  | load | store t | exchange d | rmw f i => rfl
  | compareExchange weak e d =>
    exact ⟨⟨d, rfl, rfl⟩, rfl, by simp [Frame.enter], .first rfl (by simp [Frame.enter]), fun _ => rfl,
      fun _ => ⟨rfl, by simp [Frame.enter]⟩⟩

/-! ## What a turn does to it -/

variable [DecidableEq V] [DecidableEq P] {spurious : Bool}

theorem Frame.Ok.again {th' : Thread V P} (h : fr.Ok cfg r₀ obj th)
    (hobj : obj = r₀ ∨ obj.pad = cfg.layout.zero) (hturn : fr.turn cfg.layout obj spurious = .again fr')
    (hop : th'.op = th.op) (htries : th'.tries = th.tries + 1)
    (hspurious : th'.spurious = th.spurious + (fr.fails obj spurious).toNat) : fr'.Ok cfg r₀ obj th' := by
  obtain ⟨rfl, ⟨hpad, href⟩, hval, hfail⟩ := turn_again hturn
  refine ⟨by rw [hop]; exact h.op, h.ref, hval.trans h.val, ?_, ?_, ?_⟩
  · rcases hfail with ⟨hne, hfail⟩ | hfail
    · rw [hfail, Bool.toNat_false, Nat.add_zero] at hspurious
      cases h.phase with
      | first hn hexp =>
        -- the values agree, so the padding is not clear: the object is as it was found
        have hdirty : obj.pad ≠ cfg.layout.zero := fun hz => hne (Rep.ext_val hz hexp hval)
        exact .second (by omega) (hobj.resolve_right hdirty)
      | second hn hexp =>
        have hclean := hobj.resolve_left (fun hr => hne (hr.trans hexp.symm))
        exact .third (by omega) hclean hclean
      | third hn hexp hclean => exact absurd (Rep.ext_val hclean hexp hval) hne
    · obtain ⟨hexp, -⟩ := fails_iff.mp hfail
      rw [hfail, Bool.toNat_true] at hspurious
      subst hexp
      cases h.phase with
      | first hn hexp => exact .first (by omega) hexp
      | second hn hexp => exact .second (by omega) hexp
      | third hn hexp hclean => exact .third (by omega) hexp hclean
  · intro hweak
    have hfails : fr.fails obj spurious = false := by simp [Frame.fails, show fr.weak = false from hweak]
    rw [hspurious, h.strong hweak, hfails, Bool.toNat_false]
  · intro hr
    rw [retries_iff.mpr ⟨hpad, h.ref ▸ href⟩] at hr
    cases hr

/-- The last turn. -/
theorem Frame.Ok.turns (h : fr.Ok cfg r₀ obj th) :
    Turns cfg (th.tries + 1) (th.spurious + (fr.fails obj spurious).toNat) th.op := by
  obtain ⟨⟨d, hop, -⟩, -, -, hphase, hstrong, honce⟩ := h
  rw [hop]
  refine ⟨?_, fun hweak => ?_, fun hr => by simp [(honce hr).1]⟩
  · cases hphase <;> omega
  · simp [Frame.fails, hweak, hstrong hweak]

end

end

section

variable {V P : Type} [DecidableEq V] [DecidableEq P] {ι : Type} [DecidableEq ι] {cfg : Config V P}
  {r₀ : Rep V P} {s s' : State ι V P} {t : ι}

omit [DecidableEq V] [DecidableEq P] in
/-- One thread moves on; the object is what it was, or clean. -/
theorem Inv.update (hi : Inv cfg r₀ s) {obj : Rep V P} {th : Thread V P}
    (hobj : obj = s.obj ∨ obj.pad = cfg.layout.zero) (hth : th.Ok cfg r₀ obj) :
    Inv cfg r₀ { obj, thr := Function.update s.thr t th : State ι V P } := by
  refine ⟨?_, fun u => ?_⟩
  · rcases hobj with rfl | hobj
    · exact hi.obj
    · exact .inr hobj
  · by_cases hu : u = t
    · subst hu
      simpa using hth
    · simpa [hu] using (hi.thr u).stable hobj

theorem exec_inv {spurious : Bool} {junk : P} {pc : Pc V P} (hi : Inv cfg r₀ s) (hpc : (s.thr t).pc = pc)
    (h : exec cfg s t spurious junk pc = some s') : Inv cfg r₀ s' := by
  have hok := hi.thr t
  unfold Thread.Ok at hok
  rw [hpc] at hok
  cases pc with
  | idle => cases h
  | load =>
    cases h
    exact hi.update (.inl rfl) (by simp [Thread.Ok, Turns, show (s.thr t).op = .load from hok])
  | store v =>
    cases h
    exact hi.update (.inr (by simp)) (by simp [Thread.Ok, Turns, show (s.thr t).op = .store v from hok])
  | exchange d =>
    cases h
    exact hi.update (.inr (by simp)) (by simp [Thread.Ok, Turns, show (s.thr t).op = .exchange d from hok])
  | cas fr =>
    have hfr : fr.Ok cfg r₀ s.obj (s.thr t) := hok
    simp only [exec] at h
    split at h <;> cases h
    · exact hi.update (.inr hfr.clean) hfr.turns
    · exact hi.update (.inl rfl) hfr.turns
    · rename_i hturn
      exact hi.update (.inl rfl) (hfr.again hi.obj hturn rfl rfl rfl)
  | rmwLoad f i =>
    cases h
    exact hi.update (.inl rfl) (loopTurn_ok hok)
  | rmwCas f i newval fr =>
    obtain ⟨hop, hnew, hfr⟩ := hok
    have hdone {n m : Nat} : Turns cfg n m (s.thr t).op := by rw [hop]; trivial
    simp only [exec] at h
    split at h <;> cases h
    · exact hi.update (.inr (by rw [hfr]; simp [Frame.enter])) hdone
    · exact hi.update (.inl rfl) ⟨hop, newval_val .., rfl⟩
    · rename_i hturn
      obtain ⟨-, ⟨-, href⟩, -⟩ := turn_again hturn
      rw [hfr] at href
      cases href
  | done res =>
    cases h
    exact hi.update (.inl rfl) trivial

theorem step_inv (hi : Inv cfg r₀ s) {l : Label ι V P} (h : step cfg s l = some s') : Inv cfg r₀ s' := by
  unfold step at h
  split at h
  case h_1 op hact =>
    split at h <;> cases h
    exact hi.update (.inl rfl) (start_ok op)
  case h_2 => exact exec_inv hi rfl h

omit [DecidableEq V] [DecidableEq P] [DecidableEq ι] in
theorem initial_inv : Inv cfg r₀ (initial r₀ : State ι V P) := ⟨.inl rfl, fun _ => trivial⟩

theorem run_inv {ls : List (Label ι V P)} (h : run (step cfg) (initial r₀) ls = some s') : Inv cfg r₀ s' :=
  run_invariant (fun _ _ _ hi hl => step_inv hi hl) h initial_inv

/-- **The loop of `__compare_exchange`.** Whatever the other threads do, a
compare-exchange on an `atomic_ref` has at no time compared more than three
times, not counting the times its built-in failed spuriously; on an `atomic`, and
for types without padding, it has compared once when it is done, and not before.
A strong one never fails spuriously. -/
theorem compareExchange_tries {ls : List (Label ι V P)} {s : State ι V P}
    (h : run (step cfg) (initial r₀) ls = some s) {weak : Bool} {e d : Rep V P}
    (hop : (s.thr t).op = .compareExchange weak e d) (hpc : (s.thr t).pc ≠ .idle) :
    (s.thr t).tries ≤ (s.thr t).spurious + 3 ∧
      (weak = false → (s.thr t).spurious = 0 ∧ (s.thr t).tries ≤ 3) ∧
      (cfg.retries = false → ((∃ res, (s.thr t).pc = .done res) → (s.thr t).tries = 1) ∧
        ((∀ res, (s.thr t).pc ≠ .done res) → (s.thr t).tries = 0)) := by
  have hok := (run_inv h).thr t
  unfold Thread.Ok at hok
  cases hthr : (s.thr t).pc with
  | idle => exact absurd hthr hpc
  | load | store | exchange | rmwLoad =>
    rw [hthr, hop] at hok
    cases hok
  | rmwCas =>
    rw [hthr, hop] at hok
    cases hok.1
  | cas fr =>
    rw [hthr] at hok
    have hfr : fr.Ok cfg r₀ s.obj (s.thr t) := hok
    have hweak : fr.weak = weak := by
      obtain ⟨d', hd, -⟩ := hfr.op
      rw [hop] at hd
      cases hd
      rfl
    have htries : (s.thr t).tries ≤ (s.thr t).spurious + 3 := by
      cases hfr.phase <;> omega
    refine ⟨htries, fun hw => ?_, fun hr => ⟨fun hdone => ?_, fun _ => (hfr.once hr).1⟩⟩
    · have hstrong := hfr.strong (hweak.trans hw)
      exact ⟨hstrong, by omega⟩
    · obtain ⟨res, hres⟩ := hdone
      cases hres
  | done res =>
    rw [hthr, hop] at hok
    obtain ⟨htries, hstrong, honce⟩ := hok
    refine ⟨htries, fun hw => ?_, fun hr => ⟨fun _ => honce hr, fun hnot => absurd rfl (hnot res)⟩⟩
    have hspurious := hstrong hw
    exact ⟨hspurious, by omega⟩

end

/-- A compare-exchange on an `atomic_ref` that finds padding set, and then that
another thread has stored the same value. -/
def threeTurns : List (Label Bool Nat Bool) :=
  [⟨true, .begin (.compareExchange false ⟨5, true⟩ ⟨9, true⟩)⟩, ⟨true, .run false true⟩,
    ⟨false, .begin (.store ⟨5, true⟩)⟩, ⟨false, .run false true⟩, ⟨true, .run false true⟩, ⟨true, .run false true⟩]

/-- The bound is reached. -/
theorem compareExchange_three : ∃ s : State Bool Nat Bool,
    run (step (bitPadded true)) (initial ⟨5, true⟩) threeTurns = some s ∧
    (s.thr true).pc = .done (.succeeded ⟨5, true⟩) ∧ (s.thr true).tries = 3 ∧ (s.thr true).spurious = 0 ∧
    (s.thr true).tries ≤ 3 := by
  let s : State Bool Nat Bool := (run (step (bitPadded true)) (initial ⟨5, true⟩) threeTurns).getD (initial ⟨5, true⟩)
  have hs : run (step (bitPadded true)) (initial ⟨5, true⟩) threeTurns = some s := run_getD (by decide) _
  have hdone : (s.thr true).pc = .done (.succeeded ⟨5, true⟩) := by decide
  have hop : (s.thr true).op = .compareExchange false ⟨5, true⟩ ⟨9, true⟩ := by decide
  exact ⟨s, hs, hdone, by decide, (compareExchange_tries hs hop (by rw [hdone]; decide)).2.1 rfl⟩

end SharedPtr.AtomicImpl
