/-
How the loops of `__fetch_add_flt`, `__fetch_min` and the like get on. On an
object with clear padding a turn is lost only to a write by another thread
(`missed_le_changed`), and a thread left alone finishes. On an `atomic_ref`
whose object has padding set they do not: they call `compare_exchange_weak`
without `_AtomicRef`, which compares with the padding clear, so a thread left
alone finishes exactly if it is (`loop_alone_iff`), and until some operation
has written the object, no loop can take effect (`dirty_effects`).
-/
import SharedPtr.AtomicImplLinear
import SharedPtr.Lib.Amortized

namespace SharedPtr.AtomicImpl

open Lib

/-- Inside one of the loops. -/
def Pc.looping {V P : Type} : Pc V P → Bool
  | .rmwLoad .. | .rmwCas .. => true
  | _ => false

section

variable {V P : Type} [DecidableEq V] [DecidableEq P] {ι : Type} [DecidableEq ι] {cfg : Config V P}
  {r₀ : Rep V P} {s s' : State ι V P} {t : ι} {f : Rmw} {i newval : Rep V P} {fr : Frame V P}

/-! ## One step -/

/-- A step leaves the object alone, or what it writes is clean. -/
theorem exec_obj {spurious : Bool} {junk : P} {pc : Pc V P} (hi : Inv cfg r₀ s) (hpc : (s.thr t).pc = pc)
    (h : exec cfg s t spurious junk pc = some s') : s'.obj = s.obj ∨ s'.obj.pad = cfg.layout.zero := by
  have hok := hi.thr t
  unfold Thread.Ok at hok
  rw [hpc] at hok
  cases pc with
  | idle => cases h
  | load | rmwLoad | done => cases h; exact .inl rfl
  | store | exchange => cases h; exact .inr (by simp [State.put])
  | cas fr =>
    have hfr : fr.Ok cfg r₀ s.obj (s.thr t) := hok
    simp only [exec] at h
    split at h <;> cases h
    · exact .inr hfr.clean
    · exact .inl rfl
    · exact .inl rfl
  | rmwCas f i newval fr =>
    obtain ⟨-, -, hfr⟩ := hok
    simp only [exec] at h
    split at h <;> cases h
    · exact .inr (by rw [hfr]; simp [State.putTry, Frame.enter])
    · exact .inl rfl
    · exact .inl rfl

theorem step_obj {l : Label ι V P} (hi : Inv cfg r₀ s) (h : step cfg s l = some s') :
    s'.obj = s.obj ∨ s'.obj.pad = cfg.layout.zero := by
  unfold step at h
  split at h
  · split at h <;> cases h
    exact .inl rfl
  · exact exec_obj hi rfl h

theorem step_clean {l : Label ι V P} (hi : Inv cfg r₀ s) (h : step cfg s l = some s')
    (hclean : s.obj.pad = cfg.layout.zero) : s'.obj.pad = cfg.layout.zero := by
  rcases step_obj hi h with hobj | hobj
  · rw [hobj]
    exact hclean
  · exact hobj

/-- The other threads stay where they are. -/
theorem step_other {l : Label ι V P} (h : step cfg s l = some s') (ht : l.thread ≠ t) : s'.thr t = s.thr t := by
  have hput (obj pc) : (s.put l.thread obj pc).thr t = s.thr t := by simp [State.put, ht.symm]
  have htry (obj pc b) : (s.putTry l.thread obj pc b).thr t = s.thr t := by simp [State.putTry, ht.symm]
  unfold step at h
  split at h
  · split at h <;> cases h
    simp [ht.symm]
  · unfold exec at h
    split at h
    case h_1 => cases h
    case h_2 | h_3 | h_4 | h_6 | h_8 => cases h; exact hput _ _
    case h_5 | h_7 => split at h <;> cases h <;> exact htry _ _ _

omit [DecidableEq V] [DecidableEq P] [DecidableEq ι] in
/-- A loop at its compare-exchange expects `__oldval` with its padding clear. -/
theorem Inv.loop (hi : Inv cfg r₀ s) (hpc : (s.thr t).pc = .rmwCas f i newval fr) :
    fr = .enter cfg.layout false true fr.e newval := by
  have hok := hi.thr t
  unfold Thread.Ok at hok
  rw [hpc] at hok
  exact hok.2.2

/-- A turn of a loop: it takes effect, or it starts again from what it found. -/
theorem exec_rmwCas {spurious : Bool} {junk : P} (hi : Inv cfg r₀ s) (hpc : (s.thr t).pc = .rmwCas f i newval fr)
    (h : exec cfg s t spurious junk (.rmwCas f i newval fr) = some s') :
    s.obj = fr.exp ∧ s' = s.putTry t fr.i (.done (.fetched (f.result fr.e newval))) (fr.fails s.obj spurious) ∨
      (s.obj ≠ fr.exp ∨ fr.fails s.obj spurious = true) ∧
        s' = s.putTry t s.obj (loopTurn cfg f junk i s.obj) (fr.fails s.obj spurious) := by
  simp only [exec] at h
  split at h
  case h_1 hturn => cases h; exact .inl ⟨(turn_success hturn).1, rfl⟩
  case h_2 e hturn =>
    cases h
    obtain ⟨rfl, -, hfail⟩ := turn_failure hturn
    exact .inr ⟨hfail.imp And.left id, rfl⟩
  case h_3 hturn =>
    obtain ⟨-, ⟨-, href⟩, -⟩ := turn_again hturn
    rw [hi.loop hpc] at href
    cases href

/-! ## Turns lost -/

/-- `t` loses a turn of a loop: the object is not what it read. -/
def missed (t : ι) (s : State ι V P) (l : Label ι V P) : Nat :=
  match l.act, (s.thr t).pc with
  | .run _ _, .rmwCas _ _ _ fr => if l.thread = t ∧ s.obj ≠ fr.exp then 1 else 0
  | _, _ => 0

/-- Another thread than `t` changes the object. -/
def changed (cfg : Config V P) (t : ι) (s : State ι V P) (l : Label ι V P) : Nat :=
  if l.thread ≠ t ∧ (step cfg s l).any (fun s' => s'.obj ≠ s.obj) then 1 else 0

/-- `t` is about to lose a turn. -/
def stale (t : ι) (s : State ι V P) : Nat :=
  match (s.thr t).pc with
  | .rmwCas _ _ _ fr => if s.obj ≠ fr.exp then 1 else 0
  | _ => 0

omit [DecidableEq ι] in
theorem stale_start {op : Op (Rep V P)} (h : (s.thr t).pc = op.start cfg) : stale t s = 0 := by
  unfold stale
  rw [h]
  cases op <;> rfl

omit [DecidableEq ι] in
/-- What was just read is not stale. -/
theorem stale_loopTurn {junk : P} (h : (s.thr t).pc = loopTurn cfg f junk i s.obj)
    (hclean : s.obj.pad = cfg.layout.zero) : stale t s = 0 := by
  have hobj : (⟨s.obj.val, cfg.layout.zero⟩ : Rep V P) = s.obj := by rw [← hclean]
  unfold stale
  rw [h]
  simp [loopTurn, Frame.enter, hobj]

/-- A turn of `t`'s own: what it loses was stale, and then nothing is. -/
theorem missed_own {l : Label ι V P} (hi : Inv cfg r₀ s) (hclean : s.obj.pad = cfg.layout.zero)
    (h : step cfg s l = some s') (ht : l.thread = t) : missed t s l + stale t s' ≤ stale t s := by
  subst ht
  unfold step at h
  split at h
  case h_1 op hact =>
    split at h <;> cases h
    rw [stale_start (update_pc ..)]
    simp [missed, hact]
  case h_2 spurious junk hact =>
    cases hpc : (s.thr l.thread).pc with
    | idle => rw [hpc] at h; cases h
    | load | store | exchange | done =>
      rw [hpc] at h
      cases h
      simp [missed, stale, hact, hpc, State.put]
    | cas fr =>
      rw [hpc] at h
      simp only [exec] at h
      split at h <;> cases h <;> simp [missed, stale, hact, hpc, State.putTry]
    | rmwLoad f i =>
      rw [hpc] at h
      cases h
      have hread : stale l.thread (s.put l.thread s.obj (loopTurn cfg f junk i s.obj)) = 0 :=
        stale_loopTurn (State.put_pc ..) hclean
      rw [hread]
      simp [missed, hact, hpc]
    | rmwCas f i newval fr =>
      rw [hpc] at h
      rcases exec_rmwCas hi hpc h with ⟨hobj, rfl⟩ | ⟨-, rfl⟩
      · simp [missed, stale, hact, hpc, hobj, State.putTry]
      · have hread (b : Bool) : stale l.thread (s.putTry l.thread s.obj (loopTurn cfg f junk i s.obj) b) = 0 :=
          stale_loopTurn (State.putTry_pc ..) hclean
        rw [hread]
        simp [missed, stale, hact, hpc]

theorem missed_step {l : Label ι V P} (hi : Inv cfg r₀ s) (hclean : s.obj.pad = cfg.layout.zero)
    (h : step cfg s l = some s') : missed t s l + stale t s' ≤ changed cfg t s l + stale t s := by
  by_cases ht : l.thread = t
  · have hown := missed_own hi hclean h ht
    omega
  · have hmissed : missed t s l = 0 := by
      unfold missed
      split <;> simp [ht]
    rw [hmissed]
    by_cases hobj : s'.obj = s.obj
    · have hsame : stale t s' = stale t s := by simp only [stale, step_other h ht, hobj]
      omega
    · have hchanged : changed cfg t s l = 1 := by simp [changed, h, ht, hobj]
      have hle : stale t s' ≤ 1 := by
        unfold stale
        split
        · split <;> omega
        · omega
      omega

/-- **A turn of a loop is lost only to progress.** On an object whose padding
was clear, each thread loses at most as many turns of its loops, not counting
spurious failures, as the other threads change the object. -/
theorem missed_le_changed {ls : List (Label ι V P)} (hclean : r₀.pad = cfg.layout.zero)
    (h : run (step cfg) (initial r₀) ls = some s) :
    total (step cfg) (missed t) (initial r₀) ls ≤ total (step cfg) (changed cfg t) (initial r₀) ls := by
  have hle : total (step cfg) (missed t) (initial r₀) ls + stale t s ≤
      total (step cfg) (changed cfg t) (initial r₀) ls + stale t (initial r₀) :=
    total_le (I := fun u => Inv cfg r₀ u ∧ u.obj.pad = cfg.layout.zero)
      (fun u l u' hu hl => ⟨step_inv hu.1 hl, step_clean hu.1 hl hu.2⟩)
      (fun u l u' hu hl => missed_step hu.1 hu.2 hl) h ⟨initial_inv, hclean⟩
  have hstart : stale t (initial r₀ : State ι V P) = 0 := rfl
  omega

/-- A loop that reads, loses a turn to a store, and finishes. -/
def oneMissed : List (Label Bool Nat Bool) :=
  [⟨true, .begin (.rmw .fetchAddFlt ⟨1, false⟩)⟩, ⟨true, .run false true⟩,
    ⟨false, .begin (.store ⟨7, true⟩)⟩, ⟨false, .run false true⟩, ⟨true, .run false true⟩, ⟨true, .run false true⟩]

theorem missed_le_changed_one : ∃ s : State Bool Nat Bool,
    run (step (bitPadded true)) (initial ⟨5, false⟩) oneMissed = some s ∧
    (s.thr true).pc = .done (.fetched ⟨7, false⟩) ∧ s.obj = ⟨8, false⟩ ∧
    total (step (bitPadded true)) (missed true) (initial ⟨5, false⟩) oneMissed = 1 ∧
    total (step (bitPadded true)) (missed true) (initial ⟨5, false⟩) oneMissed ≤
      total (step (bitPadded true)) (changed (bitPadded true) true) (initial ⟨5, false⟩) oneMissed := by
  let s : State Bool Nat Bool := (run (step (bitPadded true)) (initial ⟨5, false⟩) oneMissed).getD (initial ⟨5, false⟩)
  have hs : run (step (bitPadded true)) (initial ⟨5, false⟩) oneMissed = some s := run_getD (by decide) _
  exact ⟨s, hs, by decide, by decide, by decide, missed_le_changed rfl hs⟩

/-! ## Padding that is set -/

/-- On an object with padding set a loop goes on and writes nothing. -/
theorem looping_step {l : Label ι V P} (hi : Inv cfg r₀ s) (hdirty : s.obj.pad ≠ cfg.layout.zero)
    (hloop : (s.thr t).pc.looping = true) (h : step cfg s l = some s') (ht : l.thread = t) :
    s'.obj = s.obj ∧ (s'.thr t).pc.looping = true := by
  subst ht
  unfold step at h
  split at h
  case h_1 =>
    split at h <;> cases h
    rename_i hidle
    rw [hidle] at hloop
    cases hloop
  case h_2 spurious junk hact =>
    cases hpc : (s.thr l.thread).pc with
    | idle | load | store | exchange | cas | done => rw [hpc] at hloop; cases hloop
    | rmwLoad f i =>
      rw [hpc] at h
      cases h
      exact ⟨rfl, by simp [State.put, loopTurn, Pc.looping]⟩
    | rmwCas f i newval fr =>
      rw [hpc] at h
      rcases exec_rmwCas hi hpc h with ⟨hobj, -⟩ | ⟨-, rfl⟩
      · rw [hi.loop hpc] at hobj
        exact absurd (by rw [hobj]; simp [Frame.enter]) hdirty
      · exact ⟨rfl, by simp [State.putTry, loopTurn, Pc.looping]⟩

/-- Two steps without a spurious failure finish a loop on a clean object. -/
theorem looping_finish (hi : Inv cfg r₀ s) (hclean : s.obj.pad = cfg.layout.zero)
    (hloop : (s.thr t).pc.looping = true) :
    ∃ (ls : List (Label ι V P)) (s' : State ι V P), (∀ l ∈ ls, l.thread = t) ∧
      run (step cfg) s ls = some s' ∧ ∃ v, (s'.thr t).pc = .done (.fetched v) := by
  have hobj : (⟨s.obj.val, cfg.layout.zero⟩ : Rep V P) = s.obj := by rw [← hclean]
  let go : Label ι V P := ⟨t, .run false cfg.layout.zero⟩
  -- one step, from a state that has just read the object
  have hlast (u : State ι V P) (f i) (hu : u.obj = s.obj)
      (hpc : (u.thr t).pc = loopTurn cfg f cfg.layout.zero i s.obj) :
      ∃ u', step cfg u go = some u' ∧ ∃ v, (u'.thr t).pc = .done (.fetched v) := by
    simp only [go, step, hpc, loopTurn, exec, Frame.turn, Frame.enter, Frame.fails, hu, clearPadding_eq, hobj]
    exact ⟨_, rfl, _, State.putTry_pc ..⟩
  cases hpc : (s.thr t).pc with
  | idle | load | store | exchange | cas | done => rw [hpc] at hloop; cases hloop
  | rmwLoad f i =>
    have hfirst : step cfg s go = some (s.put t s.obj (loopTurn cfg f cfg.layout.zero i s.obj)) := by
      simp [go, step, hpc, exec]
    obtain ⟨u', hu', hv⟩ := hlast (s.put t s.obj (loopTurn cfg f cfg.layout.zero i s.obj)) f i rfl (by simp [State.put])
    exact ⟨[go, go], u', by simp [go], run_cons.mpr ⟨_, hfirst, run_cons.mpr ⟨u', hu', rfl⟩⟩, hv⟩
  | rmwCas f i newval fr =>
    obtain ⟨u, hfirst⟩ : ∃ u, step cfg s go = some u := by
      simp only [go, step, hpc, exec]
      split <;> exact ⟨_, rfl⟩
    have hturn : exec cfg s t false cfg.layout.zero (.rmwCas f i newval fr) = some u := by
      rw [← hfirst]
      simp [go, step, hpc]
    rcases exec_rmwCas hi hpc hturn with ⟨-, rfl⟩ | ⟨-, rfl⟩
    · exact ⟨[go], _, by simp [go], run_cons.mpr ⟨_, hfirst, rfl⟩, _, State.putTry_pc ..⟩
    · obtain ⟨u', hu', hv⟩ := hlast (s.putTry t s.obj (loopTurn cfg f cfg.layout.zero i s.obj) (fr.fails s.obj false))
        f i rfl (State.putTry_pc ..)
      exact ⟨[go, go], u', by simp [go], run_cons.mpr ⟨_, hfirst, run_cons.mpr ⟨u', hu', rfl⟩⟩, hv⟩

/-- **A loop by itself.** A thread inside one of the loops can finish without
a step of another thread exactly if the padding of the object is clear. -/
theorem loop_alone_iff {pre : List (Label ι V P)} (hpre : run (step cfg) (initial r₀) pre = some s)
    (hloop : (s.thr t).pc.looping = true) :
    (∃ (ls : List (Label ι V P)) (s' : State ι V P), (∀ l ∈ ls, l.thread = t) ∧
      run (step cfg) s ls = some s' ∧ ∃ v, (s'.thr t).pc = .done (.fetched v)) ↔
      s.obj.pad = cfg.layout.zero := by
  have hi := run_inv hpre
  refine ⟨?_, fun hclean => looping_finish hi hclean hloop⟩
  rintro ⟨ls, s', hls, hrun, v, hdone⟩
  by_contra hdirty
  have hkeep : (Inv cfg r₀ s' ∧ s'.obj.pad ≠ cfg.layout.zero) ∧ (s'.thr t).pc.looping = true := by
    refine run_invariant_along (C := fun _ l => l.thread = t)
      (I := fun u => (Inv cfg r₀ u ∧ u.obj.pad ≠ cfg.layout.zero) ∧ (u.thr t).pc.looping = true)
      ?_ hrun ?_ ⟨⟨hi, hdirty⟩, hloop⟩
    · rintro u l u' ⟨⟨hu, hd⟩, hl⟩ ht hstep
      obtain ⟨hobj, hl'⟩ := looping_step hu hd hl hstep ht
      exact ⟨⟨step_inv hu hstep, by rw [hobj]; exact hd⟩, hl'⟩
    · rw [along_iff]
      rintro _ l _ _ rfl -
      exact hls l (by simp)
  rw [hdone] at hkeep
  cases hkeep.2

/-- `fetch_add` on an `atomic_ref<long double>` to an object whose padding
nobody has cleared: alone it never returns. -/
theorem loop_alone_dirty : ∃ s : State Bool Nat Bool,
    run (step (bitPadded true)) (initial ⟨5, true⟩) [⟨true, .begin (.rmw .fetchAddFlt ⟨1, false⟩)⟩] = some s ∧
    ¬∃ (ls : List (Label Bool Nat Bool)) (s' : State Bool Nat Bool), (∀ l ∈ ls, l.thread = true) ∧
      run (step (bitPadded true)) s ls = some s' ∧ ∃ v, (s'.thr true).pc = .done (.fetched v) := by
  let s : State Bool Nat Bool := (run (step (bitPadded true)) (initial ⟨5, true⟩)
    [⟨true, .begin (.rmw .fetchAddFlt ⟨1, false⟩)⟩]).getD (initial ⟨5, true⟩)
  have hs : run (step (bitPadded true)) (initial ⟨5, true⟩) [⟨true, .begin (.rmw .fetchAddFlt ⟨1, false⟩)⟩] = some s :=
    run_getD (by decide) _
  have hloop : (s.thr true).pc.looping = true := by decide
  have hdirty : s.obj.pad ≠ (bitPadded true).layout.zero := by decide
  exact ⟨s, hs, fun hfinish => hdirty ((loop_alone_iff hs hloop).mp hfinish)⟩

/-- What an operation may answer before the object is written. -/
def Res.reading (v : V) : Res V → Prop
  | .loaded a | .failed a => a = v
  | .stored | .exchanged _ | .succeeded _ | .fetched _ => False

/-- A step that leaves padding set shows no effect that writes. -/
theorem step_reading {l : Label ι V P} (hi : Inv cfg r₀ s) (h : step cfg s l = some s')
    (hdirty : s'.obj.pad ≠ cfg.layout.zero) {op : Op V} {res : Res V} {u : ι}
    (hobs : observe cfg s l = some (.effect u op res)) : res.reading s.obj.val := by
  have hok := hi.thr l.thread
  unfold Thread.Ok at hok
  unfold step at h
  unfold observe at hobs
  split at h
  case h_1 hact => rw [hact] at hobs; cases hobs
  case h_2 spurious junk hact =>
    simp only [hact] at hobs
    cases hpc : (s.thr l.thread).pc with
    | idle | rmwLoad | done => simp [hpc] at hobs
    | load =>
      simp only [hpc, Option.some.injEq, Event.effect.injEq] at hobs
      obtain ⟨-, -, rfl⟩ := hobs
      exact rfl
    | store | exchange =>
      rw [hpc] at h
      cases h
      exact absurd (by simp [State.put]) hdirty
    | cas fr =>
      rw [hpc] at h hok
      have hfr : fr.Ok cfg r₀ s.obj (s.thr l.thread) := hok
      simp only [exec, hpc] at h hobs
      cases hturn : fr.turn cfg.layout s.obj spurious with
      | success =>
        simp only [hturn, Option.some.injEq] at h
        subst h
        exact absurd hfr.clean hdirty
      | failure e =>
        simp only [hturn, Option.some.injEq, Event.effect.injEq] at hobs
        obtain ⟨-, -, rfl⟩ := hobs
        obtain ⟨rfl, -⟩ := turn_failure hturn
        exact rfl
      | again fr' => simp [hturn] at hobs
    | rmwCas f i newval fr =>
      have hfr := hi.loop hpc
      rw [hpc] at h
      simp only [exec, hpc] at h hobs
      cases hturn : fr.turn cfg.layout s.obj spurious with
      | success =>
        simp only [hturn, Option.some.injEq] at h
        subst h
        exact absurd (by rw [hfr]; simp [State.putTry, Frame.enter]) hdirty
      | failure e => simp [hturn] at hobs
      | again fr' => simp [hturn] at hobs

/-- **While padding is set.** If the object ends with padding set, it is as it
was found, and all operations that have taken effect are loads and failed
compare-exchanges, which saw the value it was found with. -/
theorem dirty_effects {ls : List (Label ι V P)} (h : run (step cfg) (initial r₀) ls = some s)
    (hdirty : s.obj.pad ≠ cfg.layout.zero) :
    s.obj = r₀ ∧ ∀ e ∈ effects (trace (step cfg) (observe cfg) (initial r₀) ls), e.2.2.reading r₀.val := by
  have hobj : s.obj = r₀ := (run_inv h).obj.resolve_right hdirty
  refine ⟨hobj, ?_⟩
  have hall (u : State ι V P) (hu : Inv cfg r₀ u) (hrun : run (step cfg) u ls = some s) :
      u.obj = r₀ ∧ ∀ e ∈ effects (trace (step cfg) (observe cfg) u ls), e.2.2.reading r₀.val := by
    clear h
    induction ls generalizing u with
    | nil =>
      cases hrun
      exact ⟨hobj, by simp [trace, effects]⟩
    | cons l ls ih =>
      obtain ⟨u', hl, hrest⟩ := run_cons.mp hrun
      have hu' := step_inv hu hl
      obtain ⟨hobj', hread⟩ := ih u' hu' hrest
      have hd' : u'.obj.pad ≠ cfg.layout.zero := by rw [hobj', ← hobj]; exact hdirty
      have hsame : u.obj = r₀ := by
        rcases step_obj hu hl with hso | hso
        · rw [← hso]
          exact hobj'
        · exact absurd hso hd'
      refine ⟨hsame, ?_⟩
      intro e he
      simp only [trace, hl, Option.map_some, Option.getD_some, effects, List.filterMap_append, List.mem_append] at he
      rcases he with he | he
      · cases hobs : observe cfg u l with
        | none => simp [hobs] at he
        | some ev =>
          cases ev with
          | call | ret => simp [hobs] at he
          | effect v op res =>
            simp only [hobs, Option.toList_some, List.filterMap_cons, List.filterMap_nil, List.mem_singleton] at he
            subst he
            rw [← hsame]
            exact step_reading hu hl hd' hobs
      · exact hread e he
  exact (hall _ initial_inv h).2

end

/-- A load, and a compare-exchange that fails, beside a loop. -/
def onlyReads : List (Label Bool Nat Bool) :=
  [⟨true, .begin (.rmw .fetchAddFlt ⟨1, false⟩)⟩, ⟨true, .run false true⟩, ⟨false, .begin .load⟩, ⟨false, .run false true⟩,
    ⟨false, .run false true⟩, ⟨false, .begin (.compareExchange true ⟨4, true⟩ ⟨6, true⟩)⟩, ⟨false, .run false true⟩,
    ⟨true, .run false true⟩]

theorem dirty_effects_two : ∃ s : State Bool Nat Bool,
    run (step (bitPadded true)) (initial ⟨5, true⟩) onlyReads = some s ∧
    (effects (trace (step (bitPadded true)) (observe (bitPadded true)) (initial ⟨5, true⟩) onlyReads)).length = 2 ∧
    ∀ e ∈ effects (trace (step (bitPadded true)) (observe (bitPadded true)) (initial ⟨5, true⟩) onlyReads),
      e.2.2.reading 5 := by
  let s : State Bool Nat Bool := (run (step (bitPadded true)) (initial ⟨5, true⟩) onlyReads).getD (initial ⟨5, true⟩)
  have hs : run (step (bitPadded true)) (initial ⟨5, true⟩) onlyReads = some s := run_getD (by decide) _
  have hdirty : s.obj.pad ≠ (bitPadded true).layout.zero := by decide
  exact ⟨s, hs, by decide, (dirty_effects hs hdirty).2⟩

end SharedPtr.AtomicImpl
