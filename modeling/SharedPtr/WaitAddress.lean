/-
Waiting and notifying (`bits/atomic_wait.h`): `__wait_args`,
`__atomic_wait_address`, `__atomic_wait_address_v`, `__atomic_notify_address`.

The object waited on is `w` bits of a memory `σ`. What threads do besides is
given by a `Client`: at each place one atomic operation on the memory, or a
call of one of these functions. `_M_setup_proxy_wait`, `__wait_impl` and
`__notify_impl` are not in the headers. Of `__wait_impl` it is only assumed
that it goes to sleep just if the word it waits on still is `_M_old`; it
may return at any time, with the word loaded or not. `__notify_impl` changes the
word of a proxy, then wakes all sleepers, or at least one.
-/
import SharedPtr.Lib.Alone
import Mathlib.Algebra.Group.Int.Defs
import Mathlib.Algebra.Group.Nat.Defs
import Mathlib.Data.Fintype.Basic

namespace SharedPtr.Wait

open Lib (run Along Soon)

/-- `__wait_value_type`. -/
abbrev WaitValue := BitVec 64

/-- What threads do on the object, place by place. -/
inductive Act (σ C : Type) (w : Nat)
  | idle
  /-- An atomic operation. -/
  | atomic (f : σ → σ × C)
  /-- `__atomic_wait_address(__addr, __pred, __vfn)`, which answers with the value that met `__pred`. -/
  | wait (pred : BitVec w → Bool) (k : BitVec w → C)
  /-- `__atomic_wait_address_v(__addr, __old, __order)`: waits once. -/
  | waitValue (old : BitVec w) (k : C)
  /-- `__atomic_notify_address(__addr, __all)`. -/
  | notify (all : Bool) (k : C)

/-- The code of the threads: `O` are the operations an idle one can call. -/
structure Client (σ C O : Type) (w : Nat) where
  value : σ → BitVec w
  act : C → Act σ C w
  call : O → σ → σ × C
  /-- The caller does not touch the object. -/
  call_value : ∀ o m, value (call o m).1 = value m

/-- Whether `_M_setup_proxy_wait` returns true for the object. A wait without a
proxy is for the sizes `_M_store` has a case for. -/
structure Config (w : Nat) where
  proxied : Bool
  fits : proxied = false → w = 64 ∨ w = 32 ∨ w = 16 ∨ w = 8

def Config.proxy (w : Nat) : Config w := ⟨true, nofun⟩

/-- `__platform_wait_uses_type`, where `__platform_wait_t` is `int`. -/
def Config.platform : Config 32 := ⟨false, fun _ => .inr (.inl rfl)⟩

/-- `_M_store`: the bits as an unsigned integer. -/
def store {w : Nat} (val : BitVec w) : WaitValue := val.setWidth 64

/-- Where `_M_on_wake` casts `_M_old` back. -/
def unstore (w : Nat) (old : WaitValue) : BitVec w := old.setWidth w

/-- The word of a proxy after `n` notifications: `__platform_wait_t` has 32 bits. -/
def proxyWord (n : Nat) : WaitValue := (BitVec.ofNat 32 n).setWidth 64

/-- A thread: at a place of the client, or inside a function the client called at `c`. -/
inductive Pc (C : Type)
  | client (c : C)
  /-- `_M_setup_proxy_wait` is called next. -/
  | setup (c : C)
  /-- `__vfn` is. -/
  | load (c : C) (old : WaitValue)
  /-- In `__wait_impl`, awake. -/
  | impl (c : C) (old : WaitValue)
  | asleep (c : C) (old : WaitValue)
  /-- In `__notify_impl`, about to wake sleepers. -/
  | waking (c : C)
  deriving DecidableEq

structure State (ι σ C : Type) where
  mem : σ
  /-- How often a proxy's word was changed. -/
  version : Nat
  thr : ι → Pc C

inductive Choice (ι O : Type)
  /-- An idle thread calls an operation. -/
  | call (o : O)
  | run
  /-- `__wait_impl` goes to sleep. -/
  | sleep
  /-- `__wait_impl` returns; `_M_has_val` says if it has loaded the word. -/
  | back (hasVal : Bool)
  | wake (woken : List ι)

structure Label (ι O : Type) where
  thread : ι
  choice : Choice ι O

variable {ι σ C O : Type} {w : Nat} [DecidableEq ι]

def State.goto (s : State ι σ C) (t : ι) (pc : Pc C) : State ι σ C :=
  { s with thr := Function.update s.thr t pc }

@[simp] theorem State.goto_mem (s : State ι σ C) (t : ι) (pc : Pc C) : (s.goto t pc).mem = s.mem := rfl

@[simp] theorem State.goto_version (s : State ι σ C) (t : ι) (pc : Pc C) : (s.goto t pc).version = s.version := rfl

@[simp] theorem State.goto_thr_self (s : State ι σ C) (t : ι) (pc : Pc C) : (s.goto t pc).thr t = pc := by
  simp [State.goto]

theorem State.goto_thr_ne (s : State ι σ C) {t u : ι} (h : u ≠ t) (pc : Pc C) : (s.goto t pc).thr u = s.thr u := by
  simp [State.goto, h]

namespace Client

variable (P : Client σ C O w)

/-- The loop of `__atomic_wait_address`: the predicate is asked of `__val`. -/
def test (c : C) (val : BitVec w) (old : WaitValue) : Pc C :=
  match P.act c with
  | .wait pred k => if pred val then .client (k val) else .impl c old
  | .waitValue _ k => .client k
  | _ => .client c

/-- The word `__wait_impl` waits on: `*_M_obj`. -/
def word (cfg : Config w) (s : State ι σ C) : WaitValue :=
  if cfg.proxied then proxyWord s.version else store (P.value s.mem)

/-- `_M_on_wake`, up to its next access to memory. -/
def onWake (cfg : Config w) (c : C) (old : WaitValue) (res : Option WaitValue) : Pc C :=
  match P.act c, cfg.proxied, res with
  | .waitValue _ k, _, _ => .client k
  | _, true, some v => .load c v
  | _, true, none => .setup c
  | _, false, some v => P.test c (unstore w v) v
  | _, false, none => .load c old

/-- The next step of a thread that is not waiting for its turn in `__wait_impl` or `__notify_impl`. -/
def exec (cfg : Config w) (s : State ι σ C) (t : ι) : Pc C → Option (State ι σ C)
  | .client c =>
    match P.act c with
    | .idle => none
    | .atomic f => some ({ s with mem := (f s.mem).1 }.goto t (.client (f s.mem).2))
    | .wait _ _ => some (s.goto t (if cfg.proxied then .setup c else .load c 0))
    | .waitValue old _ => if cfg.proxied then none else some (s.goto t (.impl c (store old)))
    | .notify _ _ => some ({ s with version := if cfg.proxied then s.version + 1 else s.version }.goto t (.waking c))
  | .setup c => some (s.goto t (.load c (proxyWord s.version)))
  | .load c old =>
    let val := P.value s.mem
    some (s.goto t (P.test c val (if cfg.proxied then old else store val)))
  | .impl _ _ | .asleep _ _ | .waking _ => none

end Client

def Pc.isAsleep : Pc C → Bool
  | .asleep _ _ => true
  | _ => false

/-- The place of a thread in the client's code. -/
def Pc.place : Pc C → C
  | .client c | .setup c | .load c _ | .impl c _ | .asleep c _ | .waking c => c

/-- The sleepers in `woken` go on. -/
def wakeUp (thr : ι → Pc C) (woken : List ι) (u : ι) : Pc C :=
  match thr u with
  | .asleep c old => if u ∈ woken then .impl c old else .asleep c old
  | pc => pc

/-- A notification wakes all sleepers, or one at least. -/
def Enough [Fintype ι] (thr : ι → Pc C) (all : Bool) (woken : List ι) : Prop :=
  if all then ∀ u, (thr u).isAsleep → u ∈ woken
  else (∃ u, (thr u).isAsleep) → ∃ u, (thr u).isAsleep ∧ u ∈ woken

instance [Fintype ι] (thr : ι → Pc C) (all : Bool) (woken : List ι) : Decidable (Enough thr all woken) := by
  unfold Enough
  infer_instance

namespace Client

variable [Fintype ι] (P : Client σ C O w) (cfg : Config w)

def step (s : State ι σ C) (l : Label ι O) : Option (State ι σ C) :=
  match s.thr l.thread, l.choice with
  | .client c, .call o =>
    match P.act c with
    | .idle => some ({ s with mem := (P.call o s.mem).1 }.goto l.thread (.client (P.call o s.mem).2))
    | _ => none
  | pc, .run => P.exec cfg s l.thread pc
  | .impl c old, .sleep => if P.word cfg s = old then some (s.goto l.thread (.asleep c old)) else none
  | .impl c old, .back hasVal | .asleep c old, .back hasVal =>
    some (s.goto l.thread (P.onWake cfg c old (if hasVal then some (P.word cfg s) else none)))
  | .waking c, .wake woken =>
    match P.act c with
    | .notify all k =>
      if Enough s.thr all woken then some ({ s with thr := wakeUp s.thr woken }.goto l.thread (.client k)) else none
    | _ => none
  | _, _ => none

/-- A step of a thread that is awake: asleep it cannot count on its return from `__wait_impl`. -/
def stepAwake (s : State ι σ C) (l : Label ι O) : Option (State ι σ C) :=
  if (s.thr l.thread).isAsleep then none else P.step cfg s l

/-- What a step is, by the function it is in. -/
inductive Step (s : State ι σ C) (t : ι) : Choice ι O → State ι σ C → Prop
  | call {c o} (hpc : s.thr t = .client c) (hact : P.act c = .idle) :
    Step s t (.call o) ({ s with mem := (P.call o s.mem).1 }.goto t (.client (P.call o s.mem).2))
  | atomic {c f} (hpc : s.thr t = .client c) (hact : P.act c = .atomic f) :
    Step s t .run ({ s with mem := (f s.mem).1 }.goto t (.client (f s.mem).2))
  | wait {c pred k} (hpc : s.thr t = .client c) (hact : P.act c = .wait pred k) :
    Step s t .run (s.goto t (if cfg.proxied then .setup c else .load c 0))
  | waitValue {c old k} (hpc : s.thr t = .client c) (hact : P.act c = .waitValue old k) (hcfg : cfg.proxied = false) :
    Step s t .run (s.goto t (.impl c (store old)))
  | notify {c all k} (hpc : s.thr t = .client c) (hact : P.act c = .notify all k) :
    Step s t .run ({ s with version := if cfg.proxied then s.version + 1 else s.version }.goto t (.waking c))
  | setup {c} (hpc : s.thr t = .setup c) : Step s t .run (s.goto t (.load c (proxyWord s.version)))
  | load {c old} (hpc : s.thr t = .load c old) : Step s t .run
      (s.goto t (P.test c (P.value s.mem) (if cfg.proxied then old else store (P.value s.mem))))
  | sleep {c old} (hpc : s.thr t = .impl c old) (hword : P.word cfg s = old) : Step s t .sleep (s.goto t (.asleep c old))
  | back {c old hasVal} (hpc : s.thr t = .impl c old ∨ s.thr t = .asleep c old) : Step s t (.back hasVal)
      (s.goto t (P.onWake cfg c old (if hasVal then some (P.word cfg s) else none)))
  | wake {c all k woken} (hpc : s.thr t = .waking c) (hact : P.act c = .notify all k)
    (hwoken : Enough s.thr all woken) : Step s t (.wake woken) ({ s with thr := wakeUp s.thr woken }.goto t (.client k))

variable {P cfg}

theorem exec_cases {s s' : State ι σ C} {t : ι} (h : P.exec cfg s t (s.thr t) = some s') :
    P.Step cfg s t (.run : Choice ι O) s' := by
  cases hpc : s.thr t with
  | client c =>
    rw [hpc, exec] at h
    cases hact : P.act c with
    | idle => simp [hact] at h
    | atomic f =>
      simp only [hact, Option.some.injEq] at h
      exact h ▸ .atomic hpc hact
    | wait pred k =>
      simp only [hact, Option.some.injEq] at h
      exact h ▸ .wait hpc hact
    | waitValue old k =>
      simp only [hact] at h
      split at h
      · cases h
      · next hcfg => exact Option.some.inj h ▸ .waitValue hpc hact (by simpa using hcfg)
    | notify all k =>
      simp only [hact, Option.some.injEq] at h
      exact h ▸ .notify hpc hact
  | setup c =>
    rw [hpc] at h
    exact Option.some.inj h ▸ .setup hpc
  | load c old =>
    rw [hpc] at h
    exact Option.some.inj h ▸ .load hpc
  | impl | asleep | waking =>
    rw [hpc] at h
    cases h

theorem step_cases {s s' : State ι σ C} {l : Label ι O} (h : P.step cfg s l = some s') :
    P.Step cfg s l.thread l.choice s' := by
  obtain ⟨t, choice⟩ := l
  cases choice with
  | run =>
    refine exec_cases ?_
    cases hpc : s.thr t <;> simpa only [step, hpc] using h
  | call o =>
    cases hpc : s.thr t with
    | client c =>
      cases hact : P.act c <;> simp only [step, hpc, hact, Option.some.injEq, reduceCtorEq] at h
      exact h ▸ .call hpc hact
    | _ => simp [step, hpc] at h
  | sleep =>
    cases hpc : s.thr t with
    | impl c old =>
      simp only [step, hpc, Option.ite_none_right_eq_some, Option.some.injEq] at h
      exact h.2 ▸ .sleep hpc h.1
    | _ => simp [step, hpc] at h
  | back hasVal =>
    cases hpc : s.thr t with
    | impl c old =>
      simp only [step, hpc, Option.some.injEq] at h
      exact h ▸ .back (.inl hpc)
    | asleep c old =>
      simp only [step, hpc, Option.some.injEq] at h
      exact h ▸ .back (.inr hpc)
    | _ => simp [step, hpc] at h
  | wake woken =>
    cases hpc : s.thr t with
    | waking c =>
      cases hact : P.act c <;>
        simp only [step, hpc, hact, Option.ite_none_right_eq_some, Option.some.injEq, reduceCtorEq] at h
      exact h.2 ▸ .wake hpc hact h.1
    | _ => simp [step, hpc] at h

theorem stepAwake_eq_some {s s' : State ι σ C} {l : Label ι O} :
    P.stepAwake cfg s l = some s' ↔ (s.thr l.thread).isAsleep = false ∧ P.step cfg s l = some s' := by
  unfold stepAwake
  cases (s.thr l.thread).isAsleep <;> simp

/-! ## No notification is missed -/

section

variable (P) (cfg)

/-- What a thread that waits at `c` waits for, of the value. -/
def awaited (c : C) (v : BitVec w) : Bool :=
  match P.act c with
  | .wait pred _ => pred v
  | .waitValue old _ => v != old
  | _ => false

def notifiesAll (c : C) : Bool :=
  match P.act c with
  | .notify true _ => true
  | _ => false

/-- A call of `__atomic_notify_address(__addr, true)` is next. -/
def Told (s : State ι σ C) : Prop := ∃ u c, s.thr u = .client c ∧ P.notifiesAll c = true

/-- It is, or it has not woken the sleepers yet. -/
def Owing (s : State ι σ C) : Prop :=
  ∃ u c, (s.thr u = .client c ∨ s.thr u = .waking c) ∧ P.notifiesAll c = true

def owes : Pc C → Bool
  | .client c | .waking c => P.notifiesAll c
  | _ => false

/-- The next wait on the word for another value than `old` ends, or what the
thread waits for is not there, or a notification is to come. -/
def Armed (s : State ι σ C) (c : C) (old : WaitValue) : Prop :=
  if cfg.proxied then
    ∃ n ≤ s.version, old = proxyWord n ∧ (P.awaited c (P.value s.mem) → P.Told s ∨ n < s.version)
  else P.awaited c (unstore w old) = false ∧ store (unstore w old) = old

def PcOk (s : State ι σ C) : Pc C → Prop
  | .load _ old => cfg.proxied → ∃ n ≤ s.version, old = proxyWord n
  | .impl c old => P.Armed cfg s c old
  | .asleep c old => P.Armed cfg s c old ∧ (P.awaited c (P.value s.mem) → P.Owing s ∨ 2 ^ 32 ≤ s.version)
  | _ => True

def Inv (s : State ι σ C) : Prop := ∀ t, P.PcOk cfg s (s.thr t)

/-- An atomic operation that makes what a thread may wait for come true is
followed by a notification. -/
def Tells (s : State ι σ C) (l : Label ι O) : Prop :=
  l.choice = .run → ∀ c f, s.thr l.thread = .client c → P.act c = .atomic f →
    ∀ d, P.awaited d (P.value s.mem) = false → P.awaited d (P.value (f s.mem).1) = true → P.notifiesAll (f s.mem).2 = true

end

/-- From `s` to `s'` a notification that was to come still is, or has changed
the word; and what comes true is going to be told. -/
structure Carries (P : Client σ C O w) (cfg : Config w) (s s' : State ι σ C) : Prop where
  version : s.version ≤ s'.version
  told : cfg.proxied → P.Told s → P.Told s' ∨ s.version < s'.version
  comes : ∀ c, P.awaited c (P.value s'.mem) → P.awaited c (P.value s.mem) ∨ P.Told s'

variable {s s' : State ι σ C} {t : ι} {c : C} {old : WaitValue}

omit [DecidableEq ι] [Fintype ι] in
theorem Told.owing (h : P.Told s) : P.Owing s := by
  obtain ⟨u, c, hu, hc⟩ := h
  exact ⟨u, c, .inl hu, hc⟩

omit [DecidableEq ι] [Fintype ι] in
theorem Armed.carry (h : P.Armed cfg s c old) (hs : P.Carries cfg s s') : P.Armed cfg s' c old := by
  unfold Armed at h ⊢
  split at h
  · next hp =>
    rw [if_pos hp]
    obtain ⟨n, hn, hold, htold⟩ := h
    refine ⟨n, hn.trans hs.version, hold, fun ha => ?_⟩
    rcases hs.comes c ha with ha | ht
    · rcases htold ha with ht | hlt
      · exact (hs.told hp ht).imp_right fun hlt => hn.trans_lt hlt
      · exact .inr (hlt.trans_le hs.version)
    · exact .inl ht
  · next hp =>
    rw [if_neg hp]
    exact h

omit [DecidableEq ι] [Fintype ι] in
theorem PcOk.carry {pc : Pc C} (h : P.PcOk cfg s pc) (hs : P.Carries cfg s s') (howing : P.Owing s → P.Owing s') :
    P.PcOk cfg s' pc := by
  cases pc with
  | load c old =>
    intro hp
    obtain ⟨n, hn, hold⟩ := h hp
    exact ⟨n, hn.trans hs.version, hold⟩
  | impl c old => exact Armed.carry h hs
  | asleep c old =>
    refine ⟨Armed.carry h.1 hs, fun ha => ?_⟩
    rcases hs.comes c ha with ha | ht
    · exact (h.2 ha).imp howing fun hv => hv.trans hs.version
    · exact .inl ht.owing
  | client | setup | waking => trivial

omit [DecidableEq ι] [Fintype ι] in
theorem Told.others (h : P.Told s) (hthr : ∀ u ≠ t, s'.thr u = s.thr u)
    (hpc : ∀ c, s.thr t = .client c → P.notifiesAll c = false) : P.Told s' := by
  obtain ⟨u, c, hu, hc⟩ := h
  have hne : u ≠ t := by
    rintro rfl
    simp [hpc c hu] at hc
  exact ⟨u, c, by rw [hthr u hne, hu], hc⟩

omit [DecidableEq ι] [Fintype ι] in
theorem Owing.others (h : P.Owing s) (hthr : ∀ u ≠ t, s'.thr u = s.thr u)
    (hpc : ∀ c, s.thr t = .client c ∨ s.thr t = .waking c → P.notifiesAll c = false) : P.Owing s' := by
  obtain ⟨u, c, hu, hc⟩ := h
  have hne : u ≠ t := by
    rintro rfl
    simp [hpc c hu] at hc
  exact ⟨u, c, by rwa [hthr u hne], hc⟩

omit [DecidableEq ι] [Fintype ι] in
theorem Inv.others (hi : P.Inv cfg s) (hthr : ∀ u ≠ t, s'.thr u = s.thr u) (hs : P.Carries cfg s s')
    (howing : P.Owing s → P.Owing s') (hown : P.PcOk cfg s' (s'.thr t)) : P.Inv cfg s' := by
  intro u
  by_cases hu : u = t
  · exact hu ▸ hown
  · rw [hthr u hu]
    exact (hi u).carry hs howing

omit [Fintype ι] in
/-- A step of `t` within a wait. -/
theorem Inv.goto {pc : Pc C} (hi : P.Inv cfg s) (hpc : ∀ c, s.thr t = .client c ∨ s.thr t = .waking c → P.notifiesAll c = false)
    (hown : P.PcOk cfg s pc) : P.Inv cfg (s.goto t pc) := by
  have hthr : ∀ u ≠ t, (s.goto t pc).thr u = s.thr u := fun u hu => s.goto_thr_ne hu pc
  have hs : P.Carries cfg s (s.goto t pc) :=
    ⟨Nat.le_refl _, fun _ h => .inl (h.others hthr fun c hc => hpc c (.inl hc)), fun _ h => .inl h⟩
  have howing : P.Owing s → P.Owing (s.goto t pc) := fun h => h.others hthr hpc
  refine hi.others hthr hs howing ?_
  rw [State.goto_thr_self]
  exact hown.carry hs howing

theorem unstore_store (hw : w = 64 ∨ w = 32 ∨ w = 16 ∨ w = 8) (v : BitVec w) : unstore w (store v) = v := by
  rw [unstore, store, BitVec.setWidth_setWidth_of_le _ (by omega), BitVec.setWidth_eq]

omit [DecidableEq ι] [Fintype ι] in
/-- A wait without a proxy is for a value that was not what is waited for. -/
theorem armed_store {v : BitVec w} (hcfg : cfg.proxied = false) (ha : P.awaited c v = false) : P.Armed cfg s c (store v) := by
  have hv := unstore_store (cfg.fits hcfg) v
  rw [Armed, if_neg (by simp [hcfg]), hv]
  exact ⟨ha, rfl⟩

omit [DecidableEq ι] [Fintype ι] in
theorem pcOk_test {v : BitVec w} (h : P.awaited c v = false → P.Armed cfg s c old) : P.PcOk cfg s (P.test c v old) := by
  unfold test
  cases hact : P.act c with
  | wait pred k =>
    by_cases hv : pred v = true
    · simp only [hv, if_true]
      trivial
    · simp only [hv]
      exact h (by simpa [awaited, hact] using hv)
  | _ => trivial

omit [DecidableEq ι] [Fintype ι] in
/-- What `__wait_impl` answers was the word, of a proxy or of the object. -/
theorem pcOk_onWake {res : Option WaitValue} (h : ∀ v, res = some v → v = P.word cfg s) :
    P.PcOk cfg s (P.onWake cfg c old res) := by
  unfold onWake
  split
  · trivial
  · next v hp _ =>
    intro _
    refine ⟨s.version, Nat.le_refl _, ?_⟩
    rw [h _ rfl, word, if_pos hp]
  · trivial
  · next v hp _ =>
    have hv : v = store (P.value s.mem) := by
      rw [h _ rfl, word, if_neg (by simp [hp])]
    subst hv
    rw [unstore_store (cfg.fits hp)]
    exact pcOk_test fun ha => armed_store hp ha
  · next hp _ =>
    intro hp'
    simp [hp] at hp'

omit [DecidableEq ι] [Fintype ι] in
theorem proxyWord_eq {n m : Nat} (hn : n ≤ m) (h : proxyWord n = proxyWord m) : n = m ∨ 2 ^ 32 ≤ m := by
  have h' := congrArg BitVec.toNat h
  simp only [proxyWord, BitVec.toNat_setWidth, BitVec.toNat_ofNat] at h'
  omega

omit [DecidableEq ι] [Fintype ι] in
/-- Who goes to sleep has not missed a notification. -/
theorem Armed.sleep (h : P.Armed cfg s c old) (hword : P.word cfg s = old) :
    P.awaited c (P.value s.mem) → P.Owing s ∨ 2 ^ 32 ≤ s.version := by
  intro ha
  unfold Armed at h
  unfold word at hword
  split at h
  · next hp =>
    obtain ⟨n, hn, hold, htold⟩ := h
    rw [if_pos hp, hold] at hword
    rcases htold ha with ht | hlt
    · exact .inl ht.owing
    · rcases proxyWord_eq hn hword.symm with he | hwrap
      · omega
      · exact .inr hwrap
  · next hp =>
    rw [if_neg hp] at hword
    rw [← hword, unstore_store (cfg.fits (by simpa using hp))] at h
    rw [h.1] at ha
    cases ha

omit [Fintype ι] in
theorem wakeUp_thr (thr : ι → Pc C) (woken : List ι) (u : ι) :
    wakeUp thr woken u = thr u ∨ ∃ c old, thr u = .asleep c old ∧ u ∈ woken ∧ wakeUp thr woken u = .impl c old := by
  unfold wakeUp
  split
  · next c old hu =>
    split
    · next hw => exact .inr ⟨c, old, hu, hw, rfl⟩
    · exact .inl hu.symm
  · exact .inl rfl

theorem Inv.wake {all : Bool} {k : C} {woken : List ι} (hi : P.Inv cfg s) (hpc : s.thr t = .waking c)
    (hact : P.act c = .notify all k) (hwoken : Enough s.thr all woken) :
    P.Inv cfg ({ s with thr := wakeUp s.thr woken }.goto t (.client k)) := by
  set s' := State.goto { s with thr := wakeUp s.thr woken } t (.client k) with hs'
  have hclient : ∀ u d, s.thr u = .client d ∨ s.thr u = .waking d ∧ u ≠ t → s'.thr u = s.thr u := by
    rintro u d (hu | ⟨hu, hne⟩)
    · have hne : u ≠ t := by
        rintro rfl
        simp [hpc] at hu
      rw [hs', State.goto_thr_ne _ hne]
      simp [wakeUp, hu]
    · rw [hs', State.goto_thr_ne _ hne]
      simp [wakeUp, hu]
  have hs : P.Carries cfg s s' := by
    refine ⟨Nat.le_refl _, ?_, fun _ h => .inl h⟩
    rintro - ⟨u, d, hu, hd⟩
    exact .inl ⟨u, d, (hclient u d (.inl hu)).trans hu, hd⟩
  intro u
  by_cases hu : u = t
  · rw [hu, hs', State.goto_thr_self]
    trivial
  have hthr : s'.thr u = wakeUp s.thr woken u := State.goto_thr_ne _ hu _
  have hok := hi u
  rw [hthr]
  rcases wakeUp_thr s.thr woken u with he | ⟨d, old, hd, hmem, he⟩
  · rw [he]
    cases hall : all with
    | false =>
      refine hok.carry hs ?_
      rintro ⟨v, d, hv, hd⟩
      have hne : v = t → False := by
        rintro rfl
        have : c = d := by simpa [hpc] using hv
        subst this
        simp [notifiesAll, hact, hall] at hd
      rcases hv with hv | hv
      · exact ⟨v, d, .inl ((hclient v d (.inl hv)).trans hv), hd⟩
      · exact ⟨v, d, .inr ((hclient v d (.inr ⟨hv, hne⟩)).trans hv), hd⟩
    | true =>
      -- no sleeper is left
      cases hpu : s.thr u with
      | asleep d old =>
        rw [hall] at hwoken
        have hin : u ∈ woken := by
          rw [Enough, if_pos rfl] at hwoken
          exact hwoken u (by rw [hpu]; rfl)
        simp [wakeUp, hpu, hin] at he
      | impl d old =>
        rw [hpu] at hok
        exact Armed.carry hok hs
      | load d old =>
        rw [hpu] at hok
        exact hok
      | client | setup | waking => trivial
  · rw [he]
    rw [hd] at hok
    exact Armed.carry hok.1 hs

theorem Inv.step {l : Label ι O} (hi : P.Inv cfg s) (htells : P.Tells s l) (h : P.step cfg s l = some s') :
    P.Inv cfg s' := by
  obtain ⟨t, choice⟩ := l
  have hgoto : ∀ (m : σ) v pc, ∀ u ≠ t, (State.goto { s with mem := m, version := v } t pc).thr u = s.thr u :=
    fun m v pc u hu => State.goto_thr_ne _ hu pc
  have hnot : ∀ {pc}, s.thr t = pc → (∀ d, pc ≠ .client d) → (∀ d, pc ≠ .waking d) →
      ∀ d, s.thr t = .client d ∨ s.thr t = .waking d → P.notifiesAll d = false := by
    rintro pc hpc h₁ h₂ d (hd | hd)
    · exact absurd (hpc.symm.trans hd) (h₁ d)
    · exact absurd (hpc.symm.trans hd) (h₂ d)
  have hact : ∀ {c}, s.thr t = .client c → P.notifiesAll c = false →
      ∀ d, s.thr t = .client d ∨ s.thr t = .waking d → P.notifiesAll d = false := by
    intro c hpc hc d hd
    have : d = c := by simpa [hpc, eq_comm] using hd
    exact this ▸ hc
  cases step_cases h with
  | call hpc hidle =>
    rename_i c o
    have hno := hact hpc (by simp [notifiesAll, hidle])
    refine hi.others (hgoto _ _ _) ⟨Nat.le_refl _, fun _ h => .inl (h.others (hgoto _ _ _) fun d hd => hno d (.inl hd)),
      fun d hd => .inl ?_⟩ (fun h => h.others (hgoto _ _ _) hno) ?_
    · simpa [P.call_value] using hd
    · rw [State.goto_thr_self]
      trivial
  | atomic hpc hatomic =>
    rename_i c f
    have hno := hact hpc (by simp [notifiesAll, hatomic])
    refine hi.others (hgoto _ _ _) ⟨Nat.le_refl _, fun _ h => .inl (h.others (hgoto _ _ _) fun d hd => hno d (.inl hd)),
      fun d hd => ?_⟩ (fun h => h.others (hgoto _ _ _) hno) ?_
    · by_cases hb : P.awaited d (P.value s.mem) = true
      · exact .inl hb
      · refine .inr ⟨t, _, State.goto_thr_self _ _ _, ?_⟩
        exact htells rfl c f hpc hatomic d (by simpa using hb) hd
    · rw [State.goto_thr_self]
      trivial
  | wait hpc hwait =>
    refine hi.goto (hact hpc (by simp [notifiesAll, hwait])) ?_
    split
    · trivial
    · next hp => exact fun h => absurd h hp
  | waitValue hpc hwait hcfg =>
    refine hi.goto (hact hpc (by simp [notifiesAll, hwait])) (armed_store hcfg ?_)
    simp [awaited, hwait]
  | notify hpc hnotify =>
    rename_i c all k
    set s₁ : State ι σ C := State.goto
      { s with version := if cfg.proxied then s.version + 1 else s.version } t (.waking c) with hs₁
    have hv : s.version ≤ s₁.version := by
      show s.version ≤ if cfg.proxied then s.version + 1 else s.version
      split <;> omega
    refine hi.others (hgoto _ _ _) ⟨hv, fun hp _ => .inr ?_, fun d hd => .inl hd⟩ ?_ ?_
    · show s.version < if cfg.proxied then s.version + 1 else s.version
      simp [hp]
    · rintro ⟨u, d, hu, hd⟩
      by_cases hut : u = t
      · subst hut
        have : d = c := by simpa [hpc, eq_comm] using hu
        exact ⟨u, c, .inr (State.goto_thr_self _ _ _), this ▸ hd⟩
      · exact ⟨u, d, by rwa [hs₁, hgoto _ _ _ u hut], hd⟩
    · rw [State.goto_thr_self]
      trivial
  | setup hpc =>
    exact hi.goto (hnot hpc (by simp) (by simp)) fun _ => ⟨s.version, Nat.le_refl _, rfl⟩
  | load hpc =>
    rename_i c old
    have hok := hi t
    rw [hpc] at hok
    refine hi.goto (hnot hpc (by simp) (by simp)) (pcOk_test fun ha => ?_)
    by_cases hp : cfg.proxied = true
    · obtain ⟨n, hn, hold⟩ := hok hp
      rw [if_pos hp, Armed, if_pos hp]
      exact ⟨n, hn, hold, fun h => absurd h (by simp [ha])⟩
    · rw [if_neg hp]
      exact armed_store (by simpa using hp) ha
  | sleep hpc hword =>
    rename_i c old
    have hok := hi t
    rw [hpc] at hok
    exact hi.goto (hnot hpc (by simp) (by simp)) ⟨hok, Armed.sleep hok hword⟩
  | back hpc =>
    rename_i c old hasVal
    refine hi.goto ?_ (pcOk_onWake fun v hv => ?_)
    · rcases hpc with hpc | hpc <;> exact hnot hpc (by simp) (by simp)
    · cases hasVal with
      | false => cases hv
      | true => exact (Option.some.inj hv).symm
  | wake hpc hnotify hwoken => exact hi.wake hpc hnotify hwoken

/-- What follows a wait at `c` that ends with the value `v`. -/
def after (P : Client σ C O w) (c : C) (v : BitVec w) : Option C :=
  match P.act c with
  | .wait _ k => some (k v)
  | .waitValue _ k => some k
  | _ => none

omit [DecidableEq ι] [Fintype ι] in
theorem test_of_awaited {v : BitVec w} (old : WaitValue) (ha : P.awaited c v = true) :
    ∃ d, P.after c v = some d ∧ P.test c v old = .client d := by
  unfold awaited at ha
  unfold after test
  cases hact : P.act c with
  | wait pred k =>
    simp only [hact] at ha
    exact ⟨k v, rfl, by simp [ha]⟩
  | waitValue _ k => exact ⟨k, rfl, rfl⟩
  | _ => simp [hact] at ha

/-- In `__atomic_wait_address` or `__atomic_wait_address_v`, called at `c`. -/
def WaitsAt (c : C) : Pc C → Prop
  | .setup d | .load d _ | .impl d _ | .asleep d _ => d = c
  | _ => False

omit [DecidableEq ι] [Fintype ι] in
theorem WaitsAt.place {pc : Pc C} (h : WaitsAt c pc) : pc.place = c := by
  cases pc with
  | setup | load | impl | asleep => exact h
  | client | waking => exact h.elim

omit [Fintype ι] in
theorem goto_goto (pc pc' : Pc C) : (s.goto t pc).goto t pc' = s.goto t pc' := by
  simp [State.goto]

omit [DecidableEq ι] [Fintype ι] in
theorem onWake_cases (old : WaitValue) (res : Option WaitValue)
    (hv : ∀ v, res = some v → cfg.proxied = false → unstore w v = P.value s.mem)
    (ha : P.awaited c (P.value s.mem) = true) :
    (∃ v, P.onWake cfg c old res = .load c v) ∨ P.onWake cfg c old res = .setup c ∨
      ∃ d, P.after c (P.value s.mem) = some d ∧ P.onWake cfg c old res = .client d := by
  unfold onWake
  split
  · next _ k hact => exact .inr (.inr ⟨k, by simp [after, hact], rfl⟩)
  · exact .inl ⟨_, rfl⟩
  · exact .inr (.inl rfl)
  · next hp _ =>
    rw [hv _ rfl hp]
    exact .inr (.inr (test_of_awaited _ ha))
  · exact .inl ⟨_, rfl⟩

/-- From the load of a value that is waited for, a thread goes on alone. -/
theorem load_soon (cfg : Config w) (hpc : s.thr t = .load c old) (ha : P.awaited c (P.value s.mem) = true) :
    ∃ d, P.after c (P.value s.mem) = some d ∧
      Soon (P.stepAwake cfg) (fun l : Label ι O => l.thread = t) (· = s.goto t (.client d)) 1 s := by
  obtain ⟨d, hd, -⟩ := test_of_awaited 0 ha
  refine ⟨d, hd, .next ⟨⟨t, .run⟩, _, rfl, by simp only [stepAwake, step, hpc]; rfl⟩ ?_⟩
  rintro ⟨u, choice⟩ s' rfl hs
  refine .now ?_
  cases step_cases (stepAwake_eq_some.mp hs).2 with
  | load h =>
    rename_i c' old'
    obtain ⟨rfl, rfl⟩ : c = c' ∧ old = old' := by simpa [hpc] using h
    obtain ⟨d', hd', htest⟩ := test_of_awaited (if cfg.proxied then old else store (P.value s.mem)) ha
    rw [htest, Option.some.inj (hd.symm.trans hd')]
  | back h => simp [hpc] at h
  | call h | atomic h | wait h | waitValue h | notify h | setup h | sleep h | wake h => simp [hpc] at h

theorem setup_soon (cfg : Config w) (hpc : s.thr t = .setup c) (ha : P.awaited c (P.value s.mem) = true) :
    ∃ d, P.after c (P.value s.mem) = some d ∧
      Soon (P.stepAwake cfg) (fun l : Label ι O => l.thread = t) (· = s.goto t (.client d)) 2 s := by
  obtain ⟨d, hd, -⟩ := test_of_awaited 0 ha
  refine ⟨d, hd, .next ⟨⟨t, .run⟩, _, rfl, by simp only [stepAwake, step, hpc]; rfl⟩ ?_⟩
  rintro ⟨u, choice⟩ s' rfl hs
  cases step_cases (stepAwake_eq_some.mp hs).2 with
  | setup h =>
    rename_i c'
    obtain rfl : c = c' := by simpa [hpc] using h
    have hload := load_soon (O := O) (P := P) cfg
      (State.goto_thr_self s u (Pc.load c (proxyWord s.version))) ha
    obtain ⟨d', hd', hsoon⟩ := hload
    rw [goto_goto] at hsoon
    rwa [Option.some.inj (hd.symm.trans hd')]
  | back h => simp [hpc] at h
  | call h | atomic h | wait h | waitValue h | notify h | load h | sleep h | wake h => simp [hpc] at h

omit [DecidableEq ι] [Fintype ι] in
/-- Where all notifications have come, nobody sleeps who waits for what is there. -/
theorem Inv.awake (hi : P.Inv cfg s) (hq : ¬ P.Owing s) (hv : s.version < 2 ^ 32)
    (ha : P.awaited (s.thr t).place (P.value s.mem) = true) : (s.thr t).isAsleep = false := by
  have hok := hi t
  cases hthr : s.thr t with
  | asleep c old =>
    rw [hthr] at hok ha
    rcases hok.2 ha with h | h
    · exact absurd h hq
    · omega
  | client | setup | load | impl | waking => rfl

theorem waits_soon (hi : P.Inv cfg s) (hq : ¬ P.Owing s) (hv : s.version < 2 ^ 32) (hpc : WaitsAt c (s.thr t))
    (ha : P.awaited c (P.value s.mem) = true) : ∃ d, P.after c (P.value s.mem) = some d ∧
      Soon (P.stepAwake cfg) (fun l : Label ι O => l.thread = t) (· = s.goto t (.client d)) 3 s := by
  have hok := hi t
  cases hthr : s.thr t with
  | client | waking =>
    rw [hthr] at hpc
    exact hpc.elim
  | setup d =>
    rw [hthr] at hpc
    obtain rfl : d = c := hpc
    exact (setup_soon cfg hthr ha).imp fun d h => ⟨h.1, h.2.mono (by omega)⟩
  | load d old =>
    rw [hthr] at hpc
    obtain rfl : d = c := hpc
    exact (load_soon cfg hthr ha).imp fun d h => ⟨h.1, h.2.mono (by omega)⟩
  | asleep d old =>
    rw [hthr] at hpc
    obtain rfl : d = c := hpc
    have hawake := hi.awake (t := t) hq hv (by rwa [hthr])
    rw [hthr] at hawake
    cases hawake
  | impl d old =>
    rw [hthr] at hpc hok
    obtain rfl : d = c := hpc
    obtain ⟨e, he, -⟩ := test_of_awaited 0 ha
    refine ⟨e, he, .next ⟨⟨t, .back true⟩, _, rfl, by simp only [stepAwake, step, hthr]; rfl⟩ ?_⟩
    rintro ⟨u, choice⟩ s' rfl hs
    cases step_cases (stepAwake_eq_some.mp hs).2 with
    | sleep h hword =>
      rename_i d' old'
      obtain ⟨rfl, rfl⟩ : d = d' ∧ old = old' := by simpa [hthr] using h
      exact absurd (Armed.sleep hok hword ha) (by rintro (h | h); exacts [hq h, by omega])
    | back h =>
      rename_i d' old' hasVal
      obtain ⟨rfl, rfl⟩ : d = d' ∧ old = old' := by simpa [hthr] using h
      set res := if hasVal then some (P.word cfg s) else none with hres
      have hval : ∀ v, res = some v → cfg.proxied = false → unstore w v = P.value s.mem := by
        intro v hv hp
        rw [hres] at hv
        split at hv <;> cases hv
        rw [word, if_neg (by simp [hp]), unstore_store (cfg.fits hp)]
      rcases onWake_cases old res hval ha with ⟨v, hw⟩ | hw | ⟨e', he', hw⟩
      · rw [hw]
        obtain ⟨e', he', hsoon⟩ := load_soon (O := O) (P := P) cfg
          (State.goto_thr_self s u (Pc.load d v)) ha
        rw [goto_goto] at hsoon
        rw [Option.some.inj (he.symm.trans he')]
        exact hsoon.mono (by omega)
      · rw [hw]
        obtain ⟨e', he', hsoon⟩ := setup_soon (O := O) (P := P) cfg
          (State.goto_thr_self s u (Pc.setup d)) ha
        rw [goto_goto] at hsoon
        rwa [Option.some.inj (he.symm.trans he')]
      · refine .now ?_
        rw [hw, Option.some.inj (he.symm.trans he')]
    | call h | atomic h | wait h | waitValue h | notify h | setup h | load h | wake h => simp [hthr] at h

/-- An operation of the client's own. -/
theorem atomic_soon {f : σ → σ × C} {Q : State ι σ C → Prop} {n : Nat} (hpc : s.thr t = .client c)
    (hact : P.act c = .atomic f) (h : Soon (P.stepAwake cfg) (fun l : Label ι O => l.thread = t) Q n
      (State.goto { s with mem := (f s.mem).1 } t (.client (f s.mem).2))) :
    Soon (P.stepAwake cfg) (fun l : Label ι O => l.thread = t) Q (n + 1) s := by
  refine .next ⟨⟨t, .run⟩, _, rfl, by simp only [stepAwake, step, hpc, exec, hact]; rfl⟩ ?_
  rintro ⟨u, choice⟩ s' rfl hs
  cases step_cases (stepAwake_eq_some.mp hs).2 with
  | atomic h' hact' =>
    cases hpc.symm.trans h'
    cases hact.symm.trans hact'
    exact h
  | call h' hact' | wait h' hact' | waitValue h' hact' | notify h' hact' =>
    cases hpc.symm.trans h'
    cases hact.symm.trans hact'
  | back h' => simp [hpc] at h'
  | setup h' | load h' | sleep h' | wake h' => simp [hpc] at h'

/-- A wait that is called where what it waits for is there. -/
theorem called_soon (hi : P.Inv cfg s) (hq : ¬ P.Owing s) (hv : s.version < 2 ^ 32) (hpc : s.thr t = .client c)
    (hact : (∃ pred k, P.act c = .wait pred k) ∨ ∃ old k, P.act c = .waitValue old k ∧ cfg.proxied = false)
    (ha : P.awaited c (P.value s.mem) = true) : ∃ d, P.after c (P.value s.mem) = some d ∧
      Soon (P.stepAwake cfg) (fun l : Label ι O => l.thread = t) (· = s.goto t (.client d)) 4 s := by
  obtain ⟨d, hd, -⟩ := test_of_awaited 0 ha
  have hno : P.notifiesAll c = false := by
    rcases hact with ⟨_, _, h⟩ | ⟨_, _, h, -⟩ <;> simp [notifiesAll, h]
  have hself : ∀ e, s.thr t = .client e ∨ s.thr t = .waking e → P.notifiesAll e = false := by
    rintro e (h | h)
    · obtain rfl : c = e := by simpa [hpc] using h
      exact hno
    · simp [hpc] at h
  -- wherever the wait begins
  have hinside : ∀ pc, WaitsAt c pc → P.PcOk cfg s pc →
      Soon (P.stepAwake cfg) (fun l : Label ι O => l.thread = t) (· = s.goto t (.client d)) 3 (s.goto t pc) := by
    intro pc hw hok
    have howing : ¬ P.Owing (s.goto t pc) := by
      rintro ⟨u, e, hu, he⟩
      by_cases hut : u = t
      · rw [hut, State.goto_thr_self] at hu
        rcases hu with rfl | rfl <;> exact hw
      · rw [State.goto_thr_ne _ hut] at hu
        exact hq ⟨u, e, hu, he⟩
    obtain ⟨d', hd', hsoon⟩ := waits_soon (O := O) (t := t) (c := c) (hi.goto hself hok) howing hv
      (by rwa [State.goto_thr_self]) ha
    rw [goto_goto] at hsoon
    rwa [Option.some.inj (hd.symm.trans hd')]
  refine ⟨d, hd, .next ?_ ?_⟩
  · rcases hact with ⟨_, _, h⟩ | ⟨_, _, h, hcfg⟩
    · exact ⟨⟨t, .run⟩, _, rfl, by simp only [stepAwake, step, hpc, exec, h]; rfl⟩
    · exact ⟨⟨t, .run⟩, _, rfl, by simp only [stepAwake, step, hpc, exec, h, hcfg]; rfl⟩
  · rintro ⟨u, choice⟩ s' rfl hs
    cases step_cases (stepAwake_eq_some.mp hs).2 with
    | wait h' hact' =>
      cases hpc.symm.trans h'
      refine hinside _ ?_ ?_
      · split <;> rfl
      · split
        · trivial
        · next hp => exact fun h => absurd h hp
    | waitValue h' hact' hcfg =>
      cases hpc.symm.trans h'
      exact hinside _ rfl (armed_store hcfg (by simp [awaited, hact']))
    | call h' hact' | atomic h' hact' | notify h' hact' =>
      cases hpc.symm.trans h'
      rcases hact with ⟨_, _, h⟩ | ⟨_, _, h, -⟩ <;> simp [hact'] at h
    | back h' => simp [hpc] at h'
    | setup h' | load h' | sleep h' | wake h' => simp [hpc] at h'

end Client

/-- The threads start at places of the client. -/
def State.init (m : σ) (start : ι → C) : State ι σ C := ⟨m, 0, fun t => .client (start t)⟩

variable [Fintype ι]

instance (P : Client σ C O w) (s : State ι σ C) : Decidable (P.Owing s) :=
  decidable_of_iff (∃ u, P.owes (s.thr u) = true) <| by
    refine exists_congr fun u => ?_
    cases s.thr u <;> simp [Client.owes]

theorem Client.Inv.run {P : Client σ C O w} {cfg : Config w} {m : σ} {start : ι → C} {ls : List (Label ι O)}
    {s : State ι σ C} (h : run (P.step cfg) (State.init m start) ls = some s)
    (htells : Along (P.step cfg) P.Tells (State.init m start) ls) : P.Inv cfg s :=
  Lib.run_invariant_along (fun _ _ _ hi ht hs => hi.step ht hs) h htells fun _ => trivial

/-- **No notification is missed**: while every operation that makes what a
thread may wait for come true is followed by a notification of all threads,
then wherever none is to come any more (and the 32 bits of a proxy have not
come round), a thread that waits for what is there is awake, and stays awake
for the three steps of its own that take it out of the wait, whichever they are. -/
theorem notified_waits_return (P : Client σ C O w) (cfg : Config w) (m : σ) (start : ι → C) (ls : List (Label ι O))
    (s : State ι σ C) (h : run (P.step cfg) (State.init m start) ls = some s)
    (htells : Along (P.step cfg) P.Tells (State.init m start) ls) (hq : ¬ P.Owing s) (hv : s.version < 2 ^ 32) (t : ι)
    (c : C) (hpc : Client.WaitsAt c (s.thr t)) (ha : P.awaited c (P.value s.mem) = true) :
    (s.thr t).isAsleep = false ∧ ∃ d, P.after c (P.value s.mem) = some d ∧
      Soon (P.stepAwake cfg) (fun l : Label ι O => l.thread = t) (· = s.goto t (.client d)) 3 s := by
  have hi := Client.Inv.run h htells
  exact ⟨hi.awake hq hv (by rwa [hpc.place]), Client.waits_soon hi hq hv hpc ha⟩

/-! ## What a client sees of a step -/

namespace Client

/-- The function called at `c` returns to `d`, with `v` the value of the object. -/
def Leaves (P : Client σ C O w) (c : C) (v : BitVec w) (d : C) : Prop :=
  match P.act c with
  | .wait pred k => pred v = true ∧ d = k v
  | .waitValue _ k | .notify _ k => d = k
  | _ => False

/-- A step is an operation of the client, or it is inside a function that the client called. -/
inductive View (P : Client σ C O w) (s : State ι σ C) (t : ι) : Choice ι O → State ι σ C → Prop
  | call {c o} (hpc : s.thr t = .client c) (hact : P.act c = .idle) :
    View P s t (.call o) ({ s with mem := (P.call o s.mem).1 }.goto t (.client (P.call o s.mem).2))
  | atomic {c f} (hpc : s.thr t = .client c) (hact : P.act c = .atomic f) :
    View P s t .run ({ s with mem := (f s.mem).1 }.goto t (.client (f s.mem).2))
  | inside {ch s'} (hmem : s'.mem = s.mem) (hplace : ∀ u, (s'.thr u).place = (s.thr u).place) : View P s t ch s'
  | leave {ch s' d} (hmem : s'.mem = s.mem) (hthr : s'.thr t = .client d)
    (hplace : ∀ u ≠ t, (s'.thr u).place = (s.thr u).place) (hd : P.Leaves (s.thr t).place (P.value s.mem) d) : View P s t ch s'

variable {P : Client σ C O w} {cfg : Config w} {s s' : State ι σ C} {t : ι} {c : C} {old : WaitValue}

omit [Fintype ι] in
/-- `t` stays at its place, or leaves the function it has called. -/
theorem view_goto {ch : Choice ι O} {pc : Pc C} (hpc : (s.thr t).place = c)
    (h : pc.place = c ∨ ∃ d, pc = .client d ∧ P.Leaves c (P.value s.mem) d) : P.View s t ch (s.goto t pc) := by
  rcases h with h | ⟨d, rfl, hd⟩
  · refine .inside rfl fun u => ?_
    by_cases hu : u = t
    · rw [hu, State.goto_thr_self, h, hpc]
    · rw [State.goto_thr_ne _ hu]
  · exact .leave rfl (State.goto_thr_self _ _ _) (fun u hu => by rw [State.goto_thr_ne _ hu]) (hpc ▸ hd)

omit [DecidableEq ι] [Fintype ι] in
theorem test_place (v : BitVec w) :
    (P.test c v old).place = c ∨ ∃ d, P.test c v old = .client d ∧ P.Leaves c v d := by
  unfold test Leaves
  cases hact : P.act c with
  | wait pred k =>
    by_cases hv : pred v = true
    · exact .inr ⟨k v, by simp [hv], by simp [hv]⟩
    · exact .inl (by simp [hv, Pc.place])
  | waitValue _ k => exact .inr ⟨k, rfl, rfl⟩
  | _ => exact .inl rfl

omit [DecidableEq ι] [Fintype ι] in
theorem onWake_place {res : Option WaitValue} (h : ∀ v, res = some v → v = P.word cfg s) :
    (P.onWake cfg c old res).place = c ∨
      ∃ d, P.onWake cfg c old res = .client d ∧ P.Leaves c (P.value s.mem) d := by
  unfold onWake
  split
  · next _ k hact => exact .inr ⟨k, rfl, by simp [Leaves, hact]⟩
  · exact .inl rfl
  · exact .inl rfl
  · next v hp _ =>
    have hv : v = store (P.value s.mem) := by
      rw [h _ rfl, word, if_neg (by simp [hp])]
    rw [hv, unstore_store (cfg.fits hp)]
    exact test_place _
  · exact .inl rfl

theorem step_view {l : Label ι O} (h : P.step cfg s l = some s') : P.View s l.thread l.choice s' := by
  obtain ⟨t, choice⟩ := l
  cases step_cases h with
  | call hpc hact => exact .call hpc hact
  | atomic hpc hact => exact .atomic hpc hact
  | wait hpc hact =>
    refine view_goto (congrArg Pc.place hpc) (.inl ?_)
    split <;> rfl
  | waitValue hpc hact hcfg => exact view_goto (congrArg Pc.place hpc) (.inl rfl)
  | notify hpc hact =>
    refine .inside rfl fun u => ?_
    by_cases hu : u = t
    · rw [hu, State.goto_thr_self, hpc]
      rfl
    · rw [State.goto_thr_ne _ hu]
  | setup hpc => exact view_goto (congrArg Pc.place hpc) (.inl rfl)
  | load hpc => exact view_goto (congrArg Pc.place hpc) (test_place _)
  | sleep hpc hword => exact view_goto (congrArg Pc.place hpc) (.inl rfl)
  | back hpc =>
    rename_i c old hasVal
    refine view_goto (c := c) (by rcases hpc with hpc | hpc <;> rw [hpc] <;> rfl) (onWake_place fun v hv => ?_)
    cases hasVal with
    | false => cases hv
    | true => exact (Option.some.inj hv).symm
  | wake hpc hact hwoken =>
    rename_i c all k woken
    refine .leave rfl (State.goto_thr_self _ _ _) (fun u hu => ?_) ?_
    · rw [State.goto_thr_ne _ hu]
      rcases wakeUp_thr s.thr woken u with he | ⟨d, old, hd, -, he⟩
      · exact congrArg Pc.place he
      · exact (congrArg Pc.place he).trans (congrArg Pc.place hd).symm
    · rw [hpc]
      simp [Leaves, Pc.place, hact]

/-! ## Where the functions are called -/

def waits (P : Client σ C O w) (c : C) : Bool :=
  match P.act c with
  | .wait _ _ | .waitValue _ _ => true
  | _ => false

def notifies (P : Client σ C O w) (c : C) : Bool :=
  match P.act c with
  | .notify _ _ => true
  | _ => false

/-- A thread that waits has called a function that waits, and one that notifies a function that does. -/
def Placed (P : Client σ C O w) : Pc C → Prop
  | .client _ => True
  | .setup c | .load c _ | .impl c _ | .asleep c _ => P.waits c = true
  | .waking c => P.notifies c = true

omit [DecidableEq ι] [Fintype ι] in
theorem placed_test {v : BitVec w} (h : P.waits c = true) : P.Placed (P.test c v old) := by
  unfold test
  split
  · split
    · trivial
    · exact h
  · trivial
  · trivial

omit [DecidableEq ι] [Fintype ι] in
theorem placed_onWake {res : Option WaitValue} (h : P.waits c = true) : P.Placed (P.onWake cfg c old res) := by
  unfold onWake
  split
  · trivial
  · exact h
  · exact h
  · exact placed_test h
  · exact h

theorem placed_step {l : Label ι O} (hp : ∀ u, P.Placed (s.thr u)) (h : P.step cfg s l = some s') (u : ι) :
    P.Placed (s'.thr u) := by
  have hgoto : ∀ (m : σ) v pc, P.Placed pc → P.Placed ((State.goto { s with mem := m, version := v } l.thread pc).thr u) := by
    intro m v pc hpc
    by_cases hu : u = l.thread
    · rw [hu, State.goto_thr_self]
      exact hpc
    · rw [State.goto_thr_ne _ hu]
      exact hp u
  have hown := hp l.thread
  obtain ⟨t, choice⟩ := l
  cases step_cases h with
  | call | atomic => exact hgoto _ _ _ trivial
  | notify hpc hact => exact hgoto _ _ _ (by simp [Placed, notifies, hact])
  | wait hpc hact =>
    refine hgoto _ _ _ ?_
    split <;> simp [Placed, waits, hact]
  | waitValue hpc hact => exact hgoto _ _ _ (by simp [Placed, waits, hact])
  | setup hpc | sleep hpc =>
    rw [hpc] at hown
    exact hgoto _ _ _ hown
  | load hpc =>
    rw [hpc] at hown
    exact hgoto _ _ _ (placed_test hown)
  | back hpc =>
    refine hgoto _ _ _ (placed_onWake ?_)
    rcases hpc with hpc | hpc <;> rw [hpc] at hown <;> exact hown
  | wake hpc hact hwoken =>
    by_cases hu : u = t
    · rw [hu, State.goto_thr_self]
      trivial
    · rw [State.goto_thr_ne _ hu]
      rcases wakeUp_thr s.thr _ u with he | ⟨d, old, hd, -, he⟩
      · exact (congrArg P.Placed he).mpr (hp u)
      · have hd' := hp u
        rw [hd] at hd'
        exact (congrArg P.Placed he).mpr hd'

theorem placed_run {m : σ} {start : ι → C} {ls : List (Label ι O)} (h : run (P.step cfg) (State.init m start) ls = some s)
    (u : ι) : P.Placed (s.thr u) := by
  have hinit : ∀ u, P.Placed ((State.init m start).thr u) := fun _ => trivial
  exact Lib.run_invariant (I := fun s => ∀ u, P.Placed (s.thr u)) (fun _ _ _ hp hs => placed_step hp hs) h hinit u

/-- Without a proxy no word is changed by notifying. -/
theorem version_run {m : σ} {start : ι → C} {ls : List (Label ι O)} (hcfg : cfg.proxied = false)
    (h : run (P.step cfg) (State.init m start) ls = some s) : s.version = 0 := by
  refine Lib.run_invariant (I := fun s => s.version = 0) (fun s l s' hv hs => ?_) h rfl
  obtain ⟨t, choice⟩ := l
  cases step_cases hs <;> simpa [hcfg] using hv

end Client

/-! ## An atomic byte -/

inductive ByteOp
  /-- `store(v)`, then `notify_all()`. -/
  | store (v : BitVec 8)
  | wait (old : BitVec 8)

inductive ByteAt
  | idle
  | store (v : BitVec 8)
  | notifyAll
  | wait (old : BitVec 8)
  deriving DecidableEq

/-- `__atomic_base<_ITp>` for a type of one byte. -/
def byte : Client (BitVec 8) ByteAt ByteOp 8 where
  value v := v
  act
    | .idle => .idle
    | .store v => .atomic fun _ => (v, .notifyAll)
    | .notifyAll => .notify true .idle
    | .wait old => .wait (· != old) fun _ => .idle
  call
    | .store v, m => (m, .store v)
    | .wait old, m => (m, .wait old)
  call_value o m := by cases o <;> rfl

omit [DecidableEq ι] [Fintype ι] in
theorem byte_tells (s : State ι (BitVec 8) ByteAt) (l : Label ι ByteOp) : byte.Tells s l := by
  intro _ c f _ hact d _ _
  cases c <;> cases hact
  rfl

/-- Thread 0 sleeps until the value is not 0, thread 1 stores 1 and wakes it; then thread 0 is waiting no longer than
three steps. -/
theorem notified_waits_return_byte :
    let cfg := Config.proxy 8
    let start : Fin 2 → ByteAt := fun _ => .idle
    let ls : List (Label (Fin 2) ByteOp) := [⟨0, .call (.wait 0)⟩, ⟨0, .run⟩, ⟨0, .run⟩, ⟨0, .run⟩, ⟨0, .sleep⟩,
      ⟨1, .call (.store 1)⟩, ⟨1, .run⟩, ⟨1, .run⟩, ⟨1, .wake [0]⟩]
    let s := (run (byte.step cfg) (State.init 0 start) ls).getD (State.init 0 start)
    s.thr 0 = .impl (.wait 0) 0 ∧ (s.thr 0).isAsleep = false ∧ ∃ d, byte.after (.wait 0) (byte.value s.mem) = some d ∧
      Soon (byte.stepAwake cfg) (fun l : Label (Fin 2) ByteOp => l.thread = 0) (· = s.goto 0 (.client d)) 3 s := by
  intro cfg start ls s
  have hs : run (byte.step cfg) (State.init 0 start) ls = some s := Lib.run_getD (by decide) _
  have htells : Along (byte.step cfg) byte.Tells (State.init 0 start) ls :=
    Lib.along_iff.mpr fun _ _ _ _ _ _ => byte_tells _ _
  have hthr : s.thr 0 = .impl (.wait 0) 0 := by decide
  refine ⟨hthr, notified_waits_return byte cfg 0 start ls s hs htells (by decide) (by decide) 0 (.wait 0) ?_ (by decide)⟩
  rw [hthr]
  rfl

end SharedPtr.Wait
