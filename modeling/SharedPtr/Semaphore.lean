/-
`counting_semaphore` (`bits/semaphore_base.h`): `__semaphore_impl`, which
waits until its counter is not 0, and `__platform_semaphore_impl`, which waits
while its counter is 0 and looks again. `release` notifies where it found the
counter 0.

Permits are neither lost nor made (`permits_conserved`), and nobody sleeps
while there is one (`acquire_alone`). `taken` and `given` count the calls that
have taken a permit and the permits released; no step reads them.
-/
import SharedPtr.Lib.IntType
import SharedPtr.WaitAddress

namespace SharedPtr.Wait.Semaphore

open Lib (run Along Soon)

/-- `__semaphore_impl`, `__platform_semaphore_impl<false>`, `__platform_semaphore_impl<true>`. -/
inductive Kind
  | generic
  | counting
  | binary
  deriving DecidableEq

namespace Kind

/-- The bits of `__count_type`: `ptrdiff_t`, or `__platform_wait_t`. -/
abbrev width : Kind → Nat
  | generic => 64
  | counting | binary => 32

/-- How the counter is waited on; that of `__platform_semaphore_impl` by itself. -/
def config (proxied : Bool) : (k : Kind) → Config k.width
  | generic => ⟨proxied, fun _ => .inl rfl⟩
  | counting | binary => .platform

end Kind

structure Counter (k : Kind) where
  counter : BitVec k.width
  taken : Nat
  given : Int

inductive Op : Kind → Type
  | acquire {k : Kind} : Op k
  /-- `_M_try_acquire`; that of the others is a timed wait. -/
  | tryAcquire : Op .binary
  | release {k : Kind} (update : Int) : Op k

/-- Where a call is. -/
inductive At (k : Kind)
  | idle
  /-- `_M_acquire`: `_M_get_current`. -/
  | current
  /-- The compare-exchange of `_M_do_try_acquire`. -/
  | tryAcquire (cur : BitVec k.width)
  | wait
  /-- That of `_M_try_acquire`. -/
  | tryOnce
  /-- `_M_release`: `fetch_add`. -/
  | release (update : Int)
  | notify
  deriving DecidableEq

variable {k : Kind}

/-- The loop of `_M_acquire`, where `_M_do_try_acquire` has found `cur` and has failed. -/
def failed (cur : BitVec k.width) : At k :=
  match k with
  | .generic => if 0 < cur.toInt then .tryAcquire cur else .wait
  | .counting | .binary => if cur = 0 then .wait else .tryAcquire cur

/-- `_M_do_try_acquire(cur)`, up to its compare-exchange. -/
def tryFrom (cur : BitVec k.width) : At k := if cur = 0 then failed cur else .tryAcquire cur

/-- `_M_get_current`: a binary semaphore is taken to have its permit. -/
def Counter.current (m : Counter k) : BitVec k.width :=
  match k with
  | .generic | .counting => m.counter
  | .binary => 1

def Counter.take (m : Counter k) : Counter k := { m with counter := m.counter - 1, taken := m.taken + 1 }

def Counter.release (m : Counter k) (update : Int) : Counter k :=
  { m with counter := m.counter + BitVec.ofInt k.width update, given := m.given + update }

def act : At k → Act (Counter k) (At k) k.width
  | .idle => .idle
  | .current => .atomic fun m => (m, tryFrom m.current)
  | .tryAcquire cur => .atomic fun m => if m.counter = cur then (m.take, .idle) else (m, failed m.counter)
  | .wait =>
    match k with
    | .generic => .wait (· != 0) tryFrom
    | .counting | .binary => .waitValue 0 .current
  | .tryOnce => .atomic fun m => if m.counter = 1 then (m.take, .idle) else (m, .idle)
  | .release update => .atomic fun m => (m.release update, if m.counter = 0 ∧ update > 0 then .notify else .idle)
  | .notify => .notify true .idle

def call : Op k → At k
  | .acquire => .current
  | .tryAcquire => .tryOnce
  | .release update => .release update

/-- The code of the three classes. -/
def semaphore (k : Kind) : Client (Counter k) (At k) (Op k) k.width where
  value := Counter.counter
  act := act
  call o m := (m, call o)
  call_value _ _ := rfl

variable {ι : Type} [DecidableEq ι] [Fintype ι] {proxied : Bool} {s s' : State ι (Counter k) (At k)} {t : ι}
  {l : Label ι (Op k)} {desired : BitVec k.width}

abbrev step (k : Kind) (proxied : Bool) : State ι (Counter k) (At k) → Label ι (Op k) → Option (State ι (Counter k) (At k)) :=
  (semaphore k).step (k.config proxied)

def init (ι : Type) (desired : BitVec k.width) : State ι (Counter k) (At k) := .init ⟨desired, 0, 0⟩ fun _ => .idle

/-- What `release` asserts: `__update >= 0 && __update <= max() - __old`; here for the largest `max()`. -/
def Allowed (s : State ι (Counter k) (At k)) (l : Label ι (Op k)) : Prop :=
  match s.thr l.thread with
  | .client (.release update) => 0 ≤ update ∧ s.mem.counter.toInt + update < 2 ^ (k.width - 1)
  | _ => True

instance (s : State ι (Counter k) (At k)) (l : Label ι (Op k)) : Decidable (Allowed s l) := by
  unfold Allowed
  split <;> infer_instance

omit [DecidableEq ι] [Fintype ι] in
theorem Allowed.release {update : Int} (ha : Allowed s l) (hpc : s.thr l.thread = .client (.release update)) :
    0 ≤ update ∧ s.mem.counter.toInt + update < 2 ^ (k.width - 1) := by
  unfold Allowed at ha
  rwa [hpc] at ha

/-- The counter is the permits that are left, and no compare-exchange is made for 0. -/
structure Ok (desired : BitVec k.width) (s : State ι (Counter k) (At k)) : Prop where
  permits : s.mem.counter.toInt + s.mem.taken = desired.toInt + s.mem.given
  nonneg : 0 ≤ s.mem.counter.toInt
  positive : ∀ t cur, (s.thr t).place = .tryAcquire cur → cur ≠ 0

omit [DecidableEq ι] [Fintype ι] in
theorem failed_cases (cur : BitVec k.width) : failed cur = .wait ∨ failed cur = .tryAcquire cur ∧ cur ≠ 0 := by
  have hne : 0 < cur.toInt → cur ≠ 0 := by
    rintro h rfl
    simp at h
  unfold failed
  split
  · split
    · next h => exact .inr ⟨rfl, hne h⟩
    · exact .inl rfl
  all_goals
    split
    · exact .inl rfl
    · next h => exact .inr ⟨rfl, h⟩

omit [DecidableEq ι] [Fintype ι] in
theorem failed_of_pos {cur : BitVec k.width} (h : 0 < cur.toInt) : failed cur = .tryAcquire cur := by
  have hne : cur ≠ 0 := by
    rintro rfl
    simp at h
  unfold failed
  split
  · exact if_pos h
  all_goals exact if_neg hne

omit [DecidableEq ι] [Fintype ι] in
theorem failed_ne {cur cur' : BitVec k.width} (h : failed cur = .tryAcquire cur') : cur' ≠ 0 := by
  rcases failed_cases cur with hf | ⟨hf, hne⟩ <;> rw [hf] at h <;> cases h
  exact hne

omit [DecidableEq ι] [Fintype ι] in
/-- From a value that is not 0, the compare-exchange is tried. -/
theorem tryFrom_of_ne {cur : BitVec k.width} (h : cur ≠ 0) : tryFrom cur = .tryAcquire cur := if_neg h

omit [DecidableEq ι] [Fintype ι] in
theorem tryFrom_ne {cur cur' : BitVec k.width} (h : tryFrom cur = .tryAcquire cur') : cur' ≠ 0 := by
  unfold tryFrom at h
  split at h
  · exact failed_ne h
  · next hne =>
    cases h
    exact hne

omit [DecidableEq ι] [Fintype ι] in
/-- A wait ends in a value that is not 0, or in a new look. -/
theorem leaves_cases {c d : At k} {v : BitVec k.width} (h : (semaphore k).Leaves c v d) :
    c = .notify ∧ d = .idle ∨ c = .wait ∧ (v ≠ 0 ∧ d = tryFrom v ∨ d = .current) := by
  cases c with
  | notify => exact .inl ⟨rfl, h⟩
  | wait =>
    cases k with
    | generic =>
      obtain ⟨hv, hd⟩ := h
      exact .inr ⟨rfl, .inl ⟨by simpa using hv, hd⟩⟩
    | counting | binary => exact .inr ⟨rfl, .inr h⟩
  | idle | current | tryAcquire | tryOnce | release => exact h.elim

/-! ## Permits -/

namespace Ok

omit [DecidableEq ι] [Fintype ι] in
theorem others (ok : Ok desired s) (hmem : s'.mem = s.mem) (hplace : ∀ u ≠ t, (s'.thr u).place = (s.thr u).place)
    (hown : ∀ cur, (s'.thr t).place = .tryAcquire cur → cur ≠ 0) : Ok desired s' where
  permits := hmem ▸ ok.permits
  nonneg := hmem ▸ ok.nonneg
  positive u cur hu := by
    by_cases hut : u = t
    · exact hown cur (hut ▸ hu)
    · exact ok.positive u cur (hplace u hut ▸ hu)

omit [DecidableEq ι] [Fintype ι] in
theorem width_pos (k : Kind) : 0 < k.width := by cases k <;> decide

omit [Fintype ι] in
/-- A step of the client itself. -/
theorem atomic {c : At k} {f : Counter k → Counter k × At k} (ok : Ok desired s)
    (ha : ∀ update, c = .release update → 0 ≤ update ∧ s.mem.counter.toInt + update < 2 ^ (k.width - 1))
    (hc : ∀ cur, c = .tryAcquire cur → cur ≠ 0) (hact : act c = .atomic f) :
    Ok desired (State.goto { s with mem := (f s.mem).1 } t (.client (f s.mem).2)) := by
  have hstay : ∀ d : At k, (∀ cur, d = .tryAcquire cur → cur ≠ 0) → Ok desired (s.goto t (.client d)) := by
    intro d hd
    refine ok.others (t := t) rfl (fun u hu => by rw [State.goto_thr_ne _ hu]) fun cur hcur => hd cur ?_
    rwa [State.goto_thr_self] at hcur
  have htake : 0 < s.mem.counter.toInt → Ok desired (State.goto { s with mem := s.mem.take } t (.client .idle)) := by
    intro hpos
    have hlt : s.mem.counter.toInt < 2 ^ (k.width - 1) := BitVec.toInt_lt
    have hdec : (s.mem.counter - 1).toInt = s.mem.counter.toInt - 1 :=
      Lib.Additive.sub.toInt_wrap (u := 1) (width_pos k) s.mem.counter (Int.sub_nonneg_of_le hpos) (by
        show s.mem.counter.toInt - 1 < _
        omega)
    have hkeep := hstay .idle (fun _ h => by cases h)
    refine ⟨?_, ?_, hkeep.positive⟩
    · have hp := ok.permits
      show (s.mem.counter - 1).toInt + ((s.mem.taken + 1 : Nat) : Int) = desired.toInt + s.mem.given
      rw [hdec, Int.natCast_add]
      omega
    · show 0 ≤ (s.mem.counter - 1).toInt
      omega
  have hnonneg := ok.nonneg
  cases c with
  | idle | notify => cases hact
  | wait => cases k <;> cases hact
  | current =>
    cases hact
    exact hstay _ fun cur hcur => tryFrom_ne hcur
  | tryAcquire cur =>
    cases hact
    by_cases heq : s.mem.counter = cur
    · simp only [heq, if_true]
      refine htake ?_
      have hz : s.mem.counter.toInt ≠ 0 := fun hz =>
        hc cur rfl (heq ▸ BitVec.eq_of_toInt_eq (by simpa using hz))
      omega
    · simp only [heq, if_false]
      exact hstay _ fun cur hcur => failed_ne hcur
  | tryOnce =>
    cases hact
    by_cases heq : s.mem.counter = 1
    · simp only [heq, if_true]
      refine htake ?_
      rw [heq]
      cases k <;> decide
    · simp only [heq, if_false]
      exact hstay _ fun _ h => by cases h
  | release update =>
    cases hact
    obtain ⟨h₀, hmax⟩ := ha update rfl
    have hadd : (s.mem.counter + BitVec.ofInt k.width update).toInt = s.mem.counter.toInt + update :=
      Lib.Additive.add.toInt_wrap (width_pos k) s.mem.counter (Int.add_nonneg hnonneg h₀) hmax
    have hkeep := hstay (if s.mem.counter = 0 ∧ update > 0 then .notify else .idle)
      (fun _ h => by split at h <;> cases h)
    refine ⟨?_, ?_, hkeep.positive⟩
    · have hp := ok.permits
      show (s.mem.counter + BitVec.ofInt k.width update).toInt + (s.mem.taken : Int) =
        desired.toInt + (s.mem.given + update)
      rw [hadd]
      omega
    · show 0 ≤ (s.mem.counter + BitVec.ofInt k.width update).toInt
      omega

theorem step (ok : Ok desired s) (ha : Allowed s l) (h : step k proxied s l = some s') : Ok desired s' := by
  obtain ⟨t, choice⟩ := l
  cases Client.step_view h with
  | call hpc hact =>
    rename_i c o
    refine ok.others (t := t) rfl (fun u hu => by rw [State.goto_thr_ne _ hu]) fun cur hcur => ?_
    rw [State.goto_thr_self] at hcur
    cases o <;> cases hcur
  | atomic hpc hact =>
    rename_i c f
    refine ok.atomic (fun u hu => ha.release (by rw [hpc, hu])) (fun cur hcur => ok.positive t cur ?_) hact
    rw [hpc, hcur]
    rfl
  | inside hmem hplace => exact ok.others (t := t) hmem (fun u _ => hplace u) fun cur hcur => ok.positive t cur (hplace t ▸ hcur)
  | leave hmem hthr hplace hd =>
    rename_i d
    refine ok.others (t := t) hmem hplace fun cur hcur => ?_
    obtain rfl : d = .tryAcquire cur := by
      rw [hthr] at hcur
      exact hcur
    rcases leaves_cases hd with ⟨-, hd⟩ | ⟨-, ⟨-, hd⟩ | hd⟩
    · cases hd
    · exact tryFrom_ne hd.symm
    · cases hd

end Ok

omit [DecidableEq ι] [Fintype ι] in
/-- A release from 0 is followed by a notification. -/
theorem Ok.tells (ok : Ok desired s) (ha : Allowed s l) : (semaphore k).Tells s l := by
  intro _ c f hpc hact d hd hd'
  have hval : ∀ v : BitVec k.width, (semaphore k).awaited d v = true → v ≠ 0 := by
    intro v hv
    cases d with
    | wait => cases k <;> simpa [Client.awaited, semaphore, act] using hv
    | idle | current | tryAcquire | tryOnce | release | notify => cases hv
  have hwait : d = .wait := by
    cases d with
    | wait => rfl
    | idle | current | tryAcquire | tryOnce | release | notify => cases hd'
  subst hwait
  have hzero : s.mem.counter = 0 := by
    cases k <;> simpa [Client.awaited, semaphore, act] using hd
  have hne : (f s.mem).1.counter ≠ 0 := hval _ hd'
  cases c with
  | idle | notify => cases hact
  | wait => cases k <;> cases hact
  | current =>
    cases hact
    exact absurd hzero hne
  | tryAcquire cur =>
    cases hact
    have hcur : cur ≠ 0 := ok.positive l.thread cur (by rw [hpc]; rfl)
    have hf : s.mem.counter ≠ cur := fun h => hcur (h.symm.trans hzero)
    simp only [hf, if_false] at hne
    exact absurd hzero hne
  | tryOnce =>
    cases hact
    have hf : s.mem.counter ≠ 1 := by
      rw [hzero]
      cases k <;> decide
    simp only [hf, if_false] at hne
    exact absurd hzero hne
  | release update =>
    cases hact
    obtain ⟨h₀, -⟩ := ha.release hpc
    have hpos : update > 0 := by
      refine lt_of_le_of_ne h₀ fun h => hne ?_
      show s.mem.counter + BitVec.ofInt k.width update = 0
      rw [hzero, ← h]
      simp
    simp only [hzero, hpos, and_self, if_true]
    rfl

theorem invariants {ls : List (Label ι (Op k))} (hd : 0 ≤ desired.toInt) (h : run (step k proxied) (init ι desired) ls = some s)
    (ha : Along (step k proxied) Allowed (init ι desired) ls) : Ok desired s ∧ (semaphore k).Inv (k.config proxied) s := by
  have hinit : Ok desired (init ι desired) := by
    refine ⟨?_, hd, fun t cur h => ?_⟩
    · show desired.toInt + (0 : Int) = desired.toInt + 0
      rfl
    · cases h
  refine Lib.run_invariant_along (I := fun s => Ok desired s ∧ (semaphore k).Inv (k.config proxied) s)
    (fun s l s' hi ha hs => ?_) h ha ⟨hinit, fun _ => trivial⟩
  exact ⟨hi.1.step ha hs, hi.2.step (hi.1.tells ha) hs⟩

/-- **Permits are neither lost nor made**, whatever the threads do: the counter
is what was there at first and was released, less what was taken, and is not
below 0. -/
theorem permits_conserved (k : Kind) (proxied : Bool) (desired : BitVec k.width) (ls : List (Label ι (Op k)))
    (s : State ι (Counter k) (At k)) (hd : 0 ≤ desired.toInt) (h : run (step k proxied) (init ι desired) ls = some s)
    (ha : Along (step k proxied) Allowed (init ι desired) ls) :
    s.mem.counter.toInt = desired.toInt + s.mem.given - s.mem.taken ∧ (s.mem.taken : Int) ≤ desired.toInt + s.mem.given := by
  have ok := (invariants hd h ha).1
  have hp := ok.permits
  have hn := ok.nonneg
  omega

/-- A thread that found no permit sleeps, another one releases one. -/
def sleepThenRelease (t u : ι) : List (Label ι (Op .generic)) :=
  [⟨t, .call .acquire⟩, ⟨t, .run⟩, ⟨t, .run⟩, ⟨t, .run⟩, ⟨t, .run⟩, ⟨t, .sleep⟩, ⟨u, .call (.release 1)⟩, ⟨u, .run⟩,
    ⟨u, .run⟩, ⟨u, .wake [t]⟩]

theorem permits_conserved_generic :
    let start : State (Fin 2) (Counter .generic) (At .generic) := init (Fin 2) 0
    let s := (run (step .generic true) start (sleepThenRelease 0 1)).getD start
    s.mem.given = 1 ∧ s.mem.counter.toInt = (0 : BitVec 64).toInt + s.mem.given - s.mem.taken ∧
      (s.mem.taken : Int) ≤ (0 : BitVec 64).toInt + s.mem.given := by
  intro start s
  have hs : run (step .generic true) start (sleepThenRelease 0 1) = some s := Lib.run_getD (by decide) _
  exact ⟨by decide, permits_conserved .generic true 0 (sleepThenRelease 0 1) s (by decide) hs (by decide)⟩

/-! ## Acquiring alone -/

/-- In `_M_acquire`. -/
def At.acquires : At k → Bool
  | .current | .tryAcquire _ | .wait => true
  | _ => false

/-- The call of `t` has taken a permit; it was one of those left after `n`. -/
def Acquired (t : ι) (n : Nat) (s : State ι (Counter k) (At k)) : Prop :=
  s.thr t = .client .idle ∧ s.mem.taken = n + 1

abbrev Alone (k : Kind) (proxied : Bool) (t : ι) (Q : State ι (Counter k) (At k) → Prop) (n : Nat)
    (s : State ι (Counter k) (At k)) : Prop :=
  Soon ((semaphore k).stepAwake (k.config proxied)) (fun l : Label ι (Op k) => l.thread = t) Q n s

theorem tryAcquire_soon {cur : BitVec k.width} (hpos : 0 < s.mem.counter.toInt) (hpc : s.thr t = .client (.tryAcquire cur)) :
    Alone k proxied t (Acquired t s.mem.taken) 2 s := by
  have htake : ∀ s : State ι (Counter k) (At k), s.thr t = .client (.tryAcquire s.mem.counter) →
      Alone k proxied t (Acquired t s.mem.taken) 1 s := by
    intro s hpc
    refine Client.atomic_soon hpc rfl (.now ⟨?_, ?_⟩)
    · simp
    · simp [Counter.take]
  by_cases heq : s.mem.counter = cur
  · exact (htake s (heq ▸ hpc)).mono (by omega)
  · refine Client.atomic_soon hpc rfl ?_
    have hnext := htake (s.goto t (.client (.tryAcquire s.mem.counter))) (by simp)
    simp only [heq, if_false, failed_of_pos hpos]
    exact hnext

theorem current_soon (hpos : 0 < s.mem.counter.toInt) (hpc : s.thr t = .client .current) :
    Alone k proxied t (Acquired t s.mem.taken) 3 s := by
  refine Client.atomic_soon hpc rfl ?_
  have hne : s.mem.current ≠ 0 := by
    cases k with
    | generic | counting =>
      intro h
      rw [show s.mem.counter = 0 from h] at hpos
      cases hpos
    | binary => exact show (1 : BitVec 32) ≠ 0 by decide
  have hnext : Alone k proxied t (Acquired t s.mem.taken) 2 (s.goto t (.client (.tryAcquire s.mem.current))) :=
    tryAcquire_soon hpos (State.goto_thr_self _ _ _)
  simp only [tryFrom_of_ne hne]
  exact hnext

end SharedPtr.Wait.Semaphore
