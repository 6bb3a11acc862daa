/-
`std::atomic<T>` and `std::atomic_ref<T>` compare values, although the
built-ins compare representations: for any number of threads every history is
one of an atomic value, with the loops of `__fetch_add_flt` and the like as
single operations. For `atomic_ref` this holds whatever the padding of the
object it is made for; for `atomic` it holds exactly because the padding is
clear from the start (`linearizable_iff`).
-/
import SharedPtr.AtomicImplInv
import SharedPtr.Lib.Outcome

namespace SharedPtr.AtomicImpl

open Lib

section

variable {V P R R' : Type}

def Op.map (g : R → R') : Op R → Op R'
  | .load => .load
  | .store t => .store (g t)
  | .exchange d => .exchange (g d)
  | .compareExchange weak e d => .compareExchange weak (g e) (g d)
  | .rmw f i => .rmw f (g i)

def Res.map (g : R → R') : Res R → Res R'
  | .loaded v => .loaded (g v)
  | .stored => .stored
  | .exchanged v => .exchanged (g v)
  | .succeeded e => .succeeded (g e)
  | .failed e => .failed (g e)
  | .fetched v => .fetched (g v)

/-- What the operations mean on the value. A weak compare-exchange may fail
although the value is the expected one, but not where its loop is there. -/
def valueSpec (cfg : Config V P) : Outcome.Spec V (Op V) (Res V)
  | a, .load, b, res => b = a ∧ res = .loaded a
  | _, .store d, b, res => b = d ∧ res = .stored
  | a, .exchange d, b, res => b = d ∧ res = .exchanged a
  | a, .compareExchange weak e d, b, res =>
    a = e ∧ b = d ∧ res = .succeeded e ∨
      b = a ∧ res = .failed a ∧ (a ≠ e ∨ weak = true ∧ cfg.retries = false)
  | a, .rmw f i, b, res => b = f.apply cfg.arith a i ∧ res = .fetched (f.result a b)

/-- What a thread has under way. -/
def Thread.status (th : Thread V P) : Status (Op V) (Res V) :=
  match th.pc with
  | .idle => .idle
  | .done res => .done (res.map Rep.val)
  | _ => .called (th.op.map Rep.val)

theorem start_status (cfg : Config V P) (op : Op (Rep V P)) :
    Thread.status ⟨op.start cfg, op, 0, 0⟩ = .called (op.map Rep.val) := by
  cases op <;> rfl

theorem status_of_pc {th : Thread V P} {pc : Pc V P} (h : th.pc = pc) :
    th.status = Thread.status { th with pc } := by
  subst h
  rfl

/-- The value, and the operations under way. -/
def State.abs {ι : Type} (s : State ι V P) : V × (ι → Status (Op V) (Res V)) :=
  (s.obj.val, fun t => (s.thr t).status)

end

section

variable {V P : Type} [DecidableEq V] [DecidableEq P] {ι : Type}

/-- Calls, effects and answers. -/
def observe (cfg : Config V P) (s : State ι V P) (l : Label ι V P) : Option (Event ι (Op V) (Res V)) :=
  let th := s.thr l.thread
  let effect := fun res : Res (Rep V P) => Event.effect l.thread (th.op.map Rep.val) (res.map Rep.val)
  match l.act with
  | .begin op => some (.call l.thread (op.map Rep.val))
  | .run spurious _ =>
    match th.pc with
    | .idle | .rmwLoad .. => none
    | .load => some (effect (.loaded s.obj))
    | .store _ => some (effect .stored)
    | .exchange _ => some (effect (.exchanged s.obj))
    | .cas fr =>
      match fr.turn cfg.layout s.obj spurious with
      | .success => some (effect (.succeeded fr.e))
      | .failure e => some (effect (.failed e))
      | .again _ => none
    | .rmwCas f _ newval fr =>
      match fr.turn cfg.layout s.obj spurious with
      | .success => some (effect (.fetched (f.result fr.e newval)))
      | .failure _ | .again _ => none
    | .done res => some (.ret l.thread (res.map Rep.val))

variable [DecidableEq ι] {cfg : Config V P} {r₀ : Rep V P} {s s' : State ι V P} {t : ι}

omit [DecidableEq V] [DecidableEq P] in
theorem abs_update (obj : Rep V P) (th : Thread V P) :
    State.abs { obj, thr := Function.update s.thr t th : State ι V P } =
      (obj.val, Function.update s.abs.2 t th.status) := by
  refine Prod.ext rfl (funext ?_)
  intro u
  by_cases hu : u = t
  · subst hu
    simp [State.abs]
  · simp [State.abs, hu]

omit [DecidableEq V] [DecidableEq P] in
theorem abs_keep {th : Thread V P} (h : th.status = (s.thr t).status) :
    State.abs { obj := s.obj, thr := Function.update s.thr t th : State ι V P } = s.abs := by
  rw [abs_update, h]
  exact Prod.ext rfl (Function.update_eq_self _ _)

omit [DecidableEq V] [DecidableEq P] in
theorem effect_update {op : Op (Rep V P)} {res : Res (Rep V P)} {obj : Rep V P} {th : Thread V P}
    (hop : (s.thr t).status = .called (op.map Rep.val)) (hth : th.status = .done (res.map Rep.val))
    (hspec : valueSpec cfg s.obj.val (op.map Rep.val) obj.val (res.map Rep.val)) :
    Outcome.AtomicStep (valueSpec cfg) s.abs (.effect t (op.map Rep.val) (res.map Rep.val))
      (State.abs { obj, thr := Function.update s.thr t th : State ι V P }) := by
  rw [abs_update, hth]
  exact .effect _ _ hop hspec

/-- The padding is no hindrance: the loop is there, or there is none set. -/
def Sound (cfg : Config V P) (r : Rep V P) : Prop := cfg.retries = true ∨ r.pad = cfg.layout.zero

omit [DecidableEq V] [DecidableEq P] [DecidableEq ι] in
theorem Inv.sound (hi : Inv cfg r₀ s) (h : Sound cfg r₀) : Sound cfg s.obj := by
  rcases hi.obj with hobj | hobj
  · rw [hobj]
    exact h
  · exact .inr hobj

/-- A compare-exchange that answers `false`. -/
theorem failure_spec {fr : Frame V P} {th : Thread V P} {obj e : Rep V P} {spurious : Bool}
    (hfr : fr.Ok cfg r₀ obj th) (hsound : Sound cfg obj)
    (hturn : fr.turn cfg.layout obj spurious = .failure e) :
    e = obj ∧ (obj.val ≠ fr.e.val ∨ fr.weak = true ∧ cfg.retries = false) := by
  obtain ⟨he, hval, hfail⟩ := turn_failure hturn
  refine ⟨he, ?_⟩
  cases hr : cfg.retries with
  | true =>
    obtain ⟨hpad, href⟩ := retries_iff.mp hr
    rw [← hfr.val]
    exact .inl (hval hpad (hfr.ref.trans href))
  | false =>
    rcases hfail with ⟨hne, -⟩ | hfail
    · have hclean : obj.pad = cfg.layout.zero := by simpa [Sound, hr] using hsound
      rw [← hfr.val]
      exact .inl fun h => hne (Rep.ext_val hclean (hfr.once hr).2 h)
    · exact .inr ⟨(fails_iff.mp hfail).2.1, rfl⟩

/-- What a step shows, the atomic value does. -/
def Matches (cfg : Config V P) (s s' : State ι V P) : Option (Event ι (Op V) (Res V)) → Prop
  | none => s'.abs = s.abs
  | some e => Outcome.AtomicStep (valueSpec cfg) s.abs e s'.abs

theorem exec_matches {spurious : Bool} {junk : P} {pc : Pc V P} (hi : Inv cfg r₀ s) (hsound : Sound cfg s.obj)
    (hpc : (s.thr t).pc = pc) (h : exec cfg s t spurious junk pc = some s') :
    Matches cfg s s' (observe cfg s ⟨t, .run spurious junk⟩) := by
  have hok := hi.thr t
  unfold Thread.Ok at hok
  rw [hpc] at hok
  have hstatus := status_of_pc hpc
  simp only [observe, hpc]
  cases pc with
  | idle => cases h
  | load =>
    cases h
    exact effect_update hstatus rfl (by rw [show (s.thr t).op = .load from hok]; exact ⟨rfl, rfl⟩)
  | store v =>
    cases h
    exact effect_update hstatus rfl (by rw [show (s.thr t).op = .store v from hok]; exact ⟨by simp, rfl⟩)
  | exchange d =>
    cases h
    exact effect_update hstatus rfl (by rw [show (s.thr t).op = .exchange d from hok]; exact ⟨by simp, rfl⟩)
  | cas fr =>
    have hfr : fr.Ok cfg r₀ s.obj (s.thr t) := hok
    obtain ⟨d, hop, hd⟩ := hfr.op
    simp only [exec] at h
    cases hturn : fr.turn cfg.layout s.obj spurious with
    | success =>
      simp only [hturn, Option.some.injEq] at h ⊢
      subst h
      have hval : s.obj.val = fr.e.val := (congrArg Rep.val (turn_success hturn).1).trans hfr.val
      exact effect_update hstatus rfl (by rw [hop]; exact .inl ⟨hval, by simp [hd], rfl⟩)
    | failure e =>
      simp only [hturn, Option.some.injEq] at h ⊢
      subst h
      obtain ⟨rfl, hfail⟩ := failure_spec hfr hsound hturn
      exact effect_update hstatus rfl (by rw [hop]; exact .inr ⟨rfl, rfl, hfail⟩)
    | again fr' =>
      simp only [hturn, Option.some.injEq] at h ⊢
      subst h
      exact abs_keep hstatus.symm
  | rmwLoad f i =>
    cases h
    exact abs_keep hstatus.symm
  | rmwCas f i newval fr =>
    obtain ⟨hop, hnew, hfr⟩ := hok
    simp only [exec] at h
    cases hturn : fr.turn cfg.layout s.obj spurious with
    | success =>
      simp only [hturn, Option.some.injEq] at h ⊢
      subst h
      obtain ⟨hobj, -⟩ := turn_success hturn
      have hval : s.obj.val = fr.e.val := by rw [hobj, hfr]; simp [Frame.enter]
      have hwritten : fr.i.val = f.apply cfg.arith s.obj.val i.val := by rw [hval, ← hnew, hfr]; simp [Frame.enter]
      refine effect_update hstatus rfl ?_
      rw [hop]
      refine ⟨hwritten, congrArg Res.fetched ?_⟩
      rw [result_val, hwritten, hnew, hval]
    | failure e =>
      simp only [hturn, Option.some.injEq] at h ⊢
      subst h
      exact abs_keep hstatus.symm
    | again fr' =>
      simp only [hturn, Option.some.injEq] at h ⊢
      subst h
      exact abs_keep hstatus.symm
  | done res =>
    cases h
    simp only [Matches, State.put, abs_update]
    exact .ret _ hstatus

theorem step_matches {l : Label ι V P} (hi : Inv cfg r₀ s) (hsound : Sound cfg s.obj)
    (h : step cfg s l = some s') : Matches cfg s s' (observe cfg s l) := by
  unfold step at h
  split at h
  case h_1 op hact =>
    split at h <;> cases h
    rename_i hidle
    have hstatus : (s.thr l.thread).status = .idle := by simp [Thread.status, hidle]
    simp only [observe, hact, Matches, abs_update, start_status]
    exact .call _ hstatus
  case h_2 spurious junk hact =>
    have hmatch := exec_matches hi hsound rfl h
    simp only [observe, hact] at *
    exact hmatch

/-- Runs from a representation that is no hindrance. -/
theorem run_linearizable {ls : List (Label ι V P)} (hsound : Sound cfg r₀)
    (h : run (step cfg) (initial r₀) ls = some s) :
    ∃ x, Outcome.Path (valueSpec cfg) (r₀.val, fun _ => .idle) (trace (step cfg) (observe cfg) (initial r₀) ls) x ∧
      x.1 = s.obj.val := by
  have hmatched : ∀ (u : State ι V P) x l u', Inv cfg r₀ u ∧ x = u.abs → step cfg u l = some u' →
      Outcome.Matched (valueSpec cfg) (fun u x => Inv cfg r₀ u ∧ x = u.abs) u' x (observe cfg u l) := by
    rintro u x l u' ⟨hi, rfl⟩ hl
    have hmatch := step_matches hi (hi.sound hsound) hl
    have hi' := step_inv hi hl
    cases hobs : observe cfg u l with
    | none =>
      rw [hobs] at hmatch
      exact ⟨hi', hmatch.symm⟩
    | some e =>
      rw [hobs] at hmatch
      exact ⟨_, hmatch, hi', rfl⟩
  obtain ⟨x, hpath, -, rfl⟩ := Outcome.linearizable hmatched h ⟨initial_inv, rfl⟩
  exact ⟨_, hpath, rfl⟩

/-- The constructor of `atomic` clears the padding: its object is an atomic value, with the loops or without. -/
theorem construct_linearizable {i : Rep V P} {ls : List (Label ι V P)}
    (h : run (step cfg) (construct cfg.layout i) ls = some s) :
    ∃ x, Outcome.Path (valueSpec cfg) (i.val, fun _ => .idle)
      (trace (step cfg) (observe cfg) (construct cfg.layout i) ls) x ∧ x.1 = s.obj.val := by
  rw [construct, clearPadding_eq] at h ⊢
  exact run_linearizable (.inr rfl) h

/-- One strong compare-exchange that expects the value the object has. -/
def expectsIt (t : ι) (cfg : Config V P) (r : Rep V P) : List (Label ι V P) :=
  [⟨t, .begin (.compareExchange false (clearPadding cfg.layout r) r)⟩, ⟨t, .run false cfg.layout.zero⟩]

/-- It fails if there is padding set and no loop. -/
theorem expectsIt_trace (h : ¬Sound cfg r₀) :
    (run (step cfg) (initial r₀ : State ι V P) (expectsIt t cfg r₀)).isSome ∧
    trace (step cfg) (observe cfg) (initial r₀ : State ι V P) (expectsIt t cfg r₀) =
      [.call t (.compareExchange false r₀.val r₀.val),
        .effect t (.compareExchange false r₀.val r₀.val) (.failed r₀.val)] := by
  obtain ⟨hretry, hdirty⟩ := not_or.mp h
  have hne : r₀ ≠ ⟨r₀.val, cfg.layout.zero⟩ := fun hr => hdirty (congrArg Rep.pad hr)
  have hturn : (Frame.enter cfg.layout cfg.atomicRef false ⟨r₀.val, cfg.layout.zero⟩ r₀).turn cfg.layout r₀ false =
      .failure r₀ := by
    have hand : ¬(cfg.layout.maybeHasPadding = true ∧ cfg.atomicRef = true ∧
        clearPadding cfg.layout (⟨r₀.val, cfg.layout.zero⟩ : Rep V P) = clearPadding cfg.layout r₀) :=
      fun hall => hretry (retries_iff.mpr ⟨hall.1, hall.2.1⟩)
    simp only [clearPadding_eq] at hand
    simp only [Frame.turn, Frame.enter, clearPadding_eq, hne, false_and, if_false, if_neg hand]
  constructor
  · simp [expectsIt, run, step, initial, exec, Op.start, hturn]
  · simp [expectsIt, trace, step, observe, initial, exec, Op.start, Op.map, Res.map, hturn]

/-- **Linearizability.** All histories of an object are those of an atomic
value exactly when the compare-exchanges have their loop or the object starts
with its padding clear. -/
theorem linearizable_iff [Inhabited ι] :
    (∀ (ls : List (Label ι V P)) (s : State ι V P), run (step cfg) (initial r₀) ls = some s →
      ∃ x, Outcome.Path (valueSpec cfg) (r₀.val, fun _ => .idle)
        (trace (step cfg) (observe cfg) (initial r₀) ls) x ∧ x.1 = s.obj.val) ↔
      Sound cfg r₀ := by
  constructor
  · intro hall
    by_contra hnot
    obtain ⟨hrun, htrace⟩ := expectsIt_trace (t := (default : ι)) hnot
    obtain ⟨s, hs⟩ := Option.isSome_iff_exists.mp hrun
    obtain ⟨x, hpath, -⟩ := hall _ s hs
    rw [htrace] at hpath
    cases hpath with
    | cons h₁ hrest =>
      cases h₁ with
      | call op hidle =>
        cases hrest with
        | cons h₂ hnil =>
          cases h₂ with
          | effect op res hst hspec =>
            rcases hspec with ⟨-, -, hres⟩ | ⟨-, -, hres⟩
            · cases hres
            · rcases hres with hne | ⟨hweak, -⟩
              · exact hne rfl
              · cases hweak
  · intro hsound ls s hrun
    exact run_linearizable hsound hrun

end

end SharedPtr.AtomicImpl
