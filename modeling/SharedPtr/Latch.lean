/-
`latch`: `count_down`, `try_wait`, `wait` and `arrive_and_wait`. The counter
is an `int`, waited on by itself until it is 0. Nobody gets past the latch
before all have arrived, and everybody does after (`latch_opens`). `arrived`
is the sum of the updates, which no step reads.
-/
import SharedPtr.Lib.IntType
import SharedPtr.WaitAddress

namespace SharedPtr.Wait.Latch

open Lib (run Along Soon)

structure Counter where
  counter : BitVec 32
  arrived : Int

inductive Op
  | countDown (update : Int)
  | tryWait
  | wait
  | arriveAndWait (update : Int)

/-- Where a call is; `passed` is where `wait` or `arrive_and_wait` has
returned, or `try_wait` with true. -/
inductive At
  | idle
  | countDown (update : Int)
  | notify
  | tryWait
  | wait
  | arriveAndWait (update : Int)
  | notifyAndPass
  | passed
  deriving DecidableEq

/-- `fetch_sub(&_M_counter, __update)`. -/
def Counter.sub (m : Counter) (update : Int) : Counter :=
  ⟨m.counter - BitVec.ofInt 32 update, m.arrived + update⟩

def act : At → Act Counter At 32
  | .idle | .passed => .idle
  | .countDown update => .atomic fun m => (m.sub update, if m.counter.toInt = update then .notify else .idle)
  | .notify => .notify true .idle
  | .tryWait => .atomic fun m => (m, if m.counter = 0 then .passed else .idle)
  | .wait => .wait (· == 0) fun _ => .passed
  | .arriveAndWait update => .atomic fun m => (m.sub update, if m.counter.toInt = update then .notifyAndPass else .wait)
  | .notifyAndPass => .notify true .passed

def call : Op → At
  | .countDown update => .countDown update
  | .tryWait => .tryWait
  | .wait => .wait
  | .arriveAndWait update => .arriveAndWait update

def latch : Client Counter At Op 32 where
  value := Counter.counter
  act := act
  call o m := (m, call o)
  call_value _ _ := rfl

variable {ι : Type} [DecidableEq ι] [Fintype ι] {s s' : State ι Counter At} {t : ι} {l : Label ι Op} {expected : BitVec 32}

abbrev step : State ι Counter At → Label ι Op → Option (State ι Counter At) := latch.step .platform

def init (ι : Type) (expected : BitVec 32) : State ι Counter At := .init ⟨expected, 0⟩ fun _ => .idle

/-- What `count_down` and `arrive_and_wait` assert of `__update`. -/
def Allowed (s : State ι Counter At) (l : Label ι Op) : Prop :=
  match s.thr l.thread with
  | .client (.countDown update) | .client (.arriveAndWait update) => 0 ≤ update ∧ update ≤ s.mem.counter.toInt
  | _ => True

instance (s : State ι Counter At) (l : Label ι Op) : Decidable (Allowed s l) := by
  unfold Allowed
  split <;> infer_instance

/-- The counter is what has not arrived, and it is 0 for who is past the latch. -/
structure Ok (expected : BitVec 32) (s : State ι Counter At) : Prop where
  counter : s.mem.counter.toInt = expected.toInt - s.mem.arrived
  nonneg : 0 ≤ s.mem.counter.toInt
  passed : ∀ t, (s.thr t).place = .passed ∨ (s.thr t).place = .notifyAndPass → s.mem.counter = 0

omit [DecidableEq ι] [Fintype ι] in
theorem Allowed.update {c : At} {u : Int} (ha : Allowed s l) (hpc : s.thr l.thread = .client c)
    (hc : c = .countDown u ∨ c = .arriveAndWait u) : 0 ≤ u ∧ u ≤ s.mem.counter.toInt := by
  unfold Allowed at ha
  rw [hpc] at ha
  rcases hc with rfl | rfl <;> exact ha

theorem toInt_sub (c : BitVec 32) {u : Int} (h₀ : 0 ≤ u) (h : u ≤ c.toInt) : (c - BitVec.ofInt 32 u).toInt = c.toInt - u := by
  have hlt : c.toInt < 2 ^ (32 - 1) := BitVec.toInt_lt
  exact Lib.Additive.sub.toInt_wrap (by decide) c (Int.sub_nonneg_of_le h) (by
    show c.toInt - u < _
    omega)

theorem eq_zero_of_toInt {c : BitVec 32} (h : c.toInt = 0) : c = 0 := BitVec.eq_of_toInt_eq (by simpa using h)

namespace Ok

omit [DecidableEq ι] [Fintype ι] in
theorem others (ok : Ok expected s) (hmem : s'.mem = s.mem) (hplace : ∀ u ≠ t, (s'.thr u).place = (s.thr u).place)
    (hown : (s'.thr t).place = .passed ∨ (s'.thr t).place = .notifyAndPass → s.mem.counter = 0) : Ok expected s' where
  counter := hmem ▸ ok.counter
  nonneg := hmem ▸ ok.nonneg
  passed u hu := by
    rw [hmem]
    by_cases hut : u = t
    · exact hown (hut ▸ hu)
    · exact ok.passed u (hplace u hut ▸ hu)

omit [Fintype ι] in
theorem stay {d : At} (ok : Ok expected s) (hd : d = .passed ∨ d = .notifyAndPass → s.mem.counter = 0) :
    Ok expected (s.goto t (.client d)) :=
  ok.others (t := t) rfl (fun u hu => by rw [State.goto_thr_ne _ hu]) (by rwa [State.goto_thr_self])

omit [Fintype ι] in
/-- Threads arrive; with the last of them the latch opens. -/
theorem sub {u : Int} {d : At} (ok : Ok expected s) (h₀ : 0 ≤ u) (hu : u ≤ s.mem.counter.toInt)
    (hd : d = .passed ∨ d = .notifyAndPass → s.mem.counter.toInt = u) :
    Ok expected (State.goto { s with mem := s.mem.sub u } t (.client d)) := by
  have hsub : (s.mem.sub u).counter.toInt = s.mem.counter.toInt - u := toInt_sub _ h₀ hu
  have hc := ok.counter
  refine ⟨?_, ?_, fun v hv => ?_⟩
  · show (s.mem.sub u).counter.toInt = expected.toInt - (s.mem.arrived + u)
    omega
  · show 0 ≤ (s.mem.sub u).counter.toInt
    omega
  · refine eq_zero_of_toInt (c := (s.mem.sub u).counter) ?_
    by_cases hvt : v = t
    · rw [hvt, State.goto_thr_self] at hv
      have := hd hv
      omega
    · rw [State.goto_thr_ne _ hvt] at hv
      have hz : s.mem.counter.toInt = 0 := by
        rw [ok.passed v hv]
        rfl
      omega

omit [DecidableEq ι] [Fintype ι] in
theorem leaves {c d : At} {v : BitVec 32} (h : latch.Leaves c v d) :
    c = .notify ∧ d = .idle ∨ c = .wait ∧ v = 0 ∧ d = .passed ∨ c = .notifyAndPass ∧ d = .passed := by
  cases c with
  | notify => exact .inl ⟨rfl, h⟩
  | wait => exact .inr (.inl ⟨rfl, by simpa using h.1, h.2⟩)
  | notifyAndPass => exact .inr (.inr ⟨rfl, h⟩)
  | idle | countDown | tryWait | arriveAndWait | passed => exact h.elim

theorem step (ok : Ok expected s) (ha : Allowed s l) (h : step s l = some s') : Ok expected s' := by
  obtain ⟨t, choice⟩ := l
  cases Client.step_view h with
  | call hpc hact =>
    rename_i c o
    exact ok.stay (by cases o <;> simp [latch, call])
  | atomic hpc hact =>
    rename_i c f
    cases c with
    | idle | notify | wait | notifyAndPass | passed => cases hact
    | countDown u =>
      cases hact
      obtain ⟨h₀, hu⟩ := ha.update hpc (.inl rfl)
      refine ok.sub h₀ hu fun hd => ?_
      by_cases heq : s.mem.counter.toInt = u <;> simp [heq] at hd
    | arriveAndWait u =>
      cases hact
      obtain ⟨h₀, hu⟩ := ha.update hpc (.inr rfl)
      refine ok.sub h₀ hu fun hd => ?_
      by_contra heq
      simp [heq] at hd
    | tryWait =>
      cases hact
      refine ok.stay fun (hd : ite _ _ _ = _ ∨ ite _ _ _ = _) => ?_
      by_contra heq
      rw [if_neg heq] at hd
      simp at hd
  | inside hmem hplace =>
    exact ok.others (t := t) hmem (fun u _ => hplace u) fun hu => ok.passed t (hplace t ▸ hu)
  | leave hmem hthr hplace hd =>
    refine ok.others (t := t) hmem hplace fun hu => ?_
    rw [hthr] at hu
    rcases leaves hd with ⟨-, rfl⟩ | ⟨-, hv, -⟩ | ⟨hc, -⟩
    · simp [Pc.place] at hu
    · exact hv
    · exact ok.passed t (.inr hc)

end Ok

omit [DecidableEq ι] [Fintype ι] in
/-- With the last arrival a notification follows. -/
theorem Allowed.tells (ha : Allowed s l) : latch.Tells s l := by
  intro _ c f hpc hact d hd hd'
  obtain rfl : d = .wait := by
    cases d with
    | wait => rfl
    | idle | countDown | notify | tryWait | arriveAndWait | notifyAndPass | passed => cases hd'
  have hne : s.mem.counter ≠ 0 := by simpa [Client.awaited, latch, act] using hd
  have hzero : (f s.mem).1.counter = 0 := by simpa [Client.awaited, latch, act] using hd'
  have hlast : ∀ u, 0 ≤ u ∧ u ≤ s.mem.counter.toInt → (s.mem.sub u).counter = 0 → s.mem.counter.toInt = u := by
    rintro u ⟨h₀, hu⟩ hz
    have hsub := toInt_sub s.mem.counter h₀ hu
    rw [show s.mem.counter - BitVec.ofInt 32 u = 0 from hz] at hsub
    have h0 : (0 : BitVec 32).toInt = 0 := rfl
    omega
  cases c with
  | idle | notify | wait | notifyAndPass | passed => cases hact
  | tryWait =>
    cases hact
    exact absurd hzero hne
  | countDown u =>
    cases hact
    have heq := hlast u (ha.update hpc (.inl rfl)) hzero
    simp only [heq, if_true]
    rfl
  | arriveAndWait u =>
    cases hact
    have heq := hlast u (ha.update hpc (.inr rfl)) hzero
    simp only [heq, if_true]
    rfl

theorem invariants {ls : List (Label ι Op)} (he : 0 ≤ expected.toInt) (h : run step (init ι expected) ls = some s)
    (ha : Along step Allowed (init ι expected) ls) : Ok expected s ∧ latch.Inv .platform s := by
  have hinit : Ok expected (init ι expected) := by
    refine ⟨?_, he, fun t ht => by rcases ht with ht | ht <;> cases ht⟩
    show expected.toInt = expected.toInt - 0
    omega
  refine Lib.run_invariant_along (I := fun s => Ok expected s ∧ latch.Inv .platform s)
    (fun s l s' hi ha hs => ?_) h ha ⟨hinit, fun _ => trivial⟩
  exact ⟨hi.1.step ha hs, hi.2.step ha.tells hs⟩

/-- **Nobody gets past the latch before all have arrived, and everybody does
after**: once the last to arrive has notified, no thread that waits is asleep,
and none falls asleep in the steps that take it past the latch. -/
theorem latch_opens (expected : BitVec 32) (ls : List (Label ι Op)) (s : State ι Counter At) (he : 0 ≤ expected.toInt)
    (h : run step (init ι expected) ls = some s) (ha : Along step Allowed (init ι expected) ls) (t : ι) :
    ((s.thr t).place = .passed → s.mem.arrived = expected.toInt) ∧
      (s.mem.arrived = expected.toInt → ¬ latch.Owing s → (s.thr t).place = .wait → (s.thr t).isAsleep = false ∧
        Soon (latch.stepAwake .platform) (fun l => l.thread = t) (fun s' => s'.thr t = .client .passed) 4 s) := by
  obtain ⟨ok, hi⟩ := invariants he h ha
  have hc := ok.counter
  constructor
  · intro hp
    have hz : s.mem.counter.toInt = 0 := by
      rw [ok.passed t (.inl hp)]
      rfl
    omega
  · intro harr hq hp
    have hzero : s.mem.counter = 0 := eq_zero_of_toInt (by omega)
    have hv : s.version < 2 ^ 32 := by
      rw [Client.version_run rfl h]
      decide
    have hawaited : latch.awaited .wait s.mem.counter = true := by
      rw [hzero]
      rfl
    have hplaced := Client.placed_run h t
    refine ⟨hi.awake hq hv (by rwa [hp]), ?_⟩
    have hpassed : ∀ d, latch.after .wait s.mem.counter = some d → (s.goto t (.client d)).thr t = .client .passed := by
      intro d hd
      obtain rfl : At.passed = d := Option.some.inj hd
      exact State.goto_thr_self _ _ _
    cases hthr : s.thr t with
    | client c =>
      rw [hthr] at hp
      obtain rfl : c = .wait := hp
      obtain ⟨d, hd, hsoon⟩ := Client.called_soon (O := Op) hi hq hv hthr (.inl ⟨_, _, rfl⟩) hawaited
      exact hsoon.trans (m := 0) fun s' hs' => hs' ▸ hpassed d hd
    | setup c | load c old | impl c old | asleep c old =>
      rw [hthr] at hp
      obtain rfl : c = .wait := hp
      obtain ⟨d, hd, hsoon⟩ := Client.waits_soon (O := Op) (t := t) hi hq hv (c := .wait) (by rw [hthr]; rfl) hawaited
      exact hsoon.trans (m := 1) fun s' hs' => .now (hs' ▸ hpassed d hd)
    | waking c =>
      rw [hthr] at hp hplaced
      obtain rfl : c = .wait := hp
      cases hplaced

/-- Two threads arrive at a latch for two; the first one to arrive sleeps. -/
theorem latch_opens_two :
    let start : State (Fin 2) Counter At := init (Fin 2) 2
    let ls : List (Label (Fin 2) Op) := [⟨0, .call (.arriveAndWait 1)⟩, ⟨0, .run⟩, ⟨0, .run⟩, ⟨0, .run⟩, ⟨0, .sleep⟩,
      ⟨1, .call (.countDown 1)⟩, ⟨1, .run⟩, ⟨1, .run⟩, ⟨1, .wake [0]⟩]
    let s := (run step start ls).getD start
    s.mem.arrived = 2 ∧ (s.thr 0).isAsleep = false ∧
      Soon (latch.stepAwake .platform) (fun l => l.thread = 0) (fun s' => s'.thr 0 = .client .passed) 4 s := by
  intro start ls s
  have hs : run step start ls = some s := Lib.run_getD (by decide) _
  have harr : s.mem.arrived = 2 := by decide
  exact ⟨harr, (latch_opens 2 ls s (by decide) hs (by decide) 0).2 harr (by decide) (by decide)⟩

end SharedPtr.Wait.Latch
