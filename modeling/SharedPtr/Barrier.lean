/-
`barrier`: `__tree_barrier_base` and `__tree_barrier`.

A phase is a tournament of the threads that are expected: in each round they
look for a ticket that is free, two threads at a ticket, and the second one
goes on to the next round; the one who gets to the end completes the phase,
and the waiting threads are notified. A ticket is `__old_phase` until its
first thread comes, then `__half_step`, then `__full_step`, which is the next
phase.

`begun`, `epoch`, `completed`, `passed` and `tries` are for the statements
only: the arrivals begun in this phase, the phases that are over, the calls of
`_M_completion`, the tickets that a thread has gone past in its round, and its
compare-exchanges. No step reads them.
-/
import SharedPtr.WaitAddress

namespace SharedPtr.Wait.Barrier

/-- `__barrier_phase_t`. -/
abbrev Phase := BitVec 8

/-- `arrival_token`: the phase of an arrival. -/
structure Token where
  phase : Phase
  epoch : Nat
  deriving DecidableEq

/-- The local variables of `arrive`. -/
structure Call where
  /-- `__old_phase`. -/
  token : Token
  /-- The hash of the thread's id. -/
  current : Nat
  /-- The caller is `arrive_and_wait`. -/
  andWait : Bool
  /-- `__update`, less the arrival that is being made. -/
  left : Nat
  deriving DecidableEq

/-- Those of `_M_arrive`. -/
structure Seat where
  round : Nat
  current : Nat
  /-- `__current_expected`. -/
  expected : Nat
  passed : Nat
  tries : Nat
  deriving DecidableEq

structure Shared where
  expected : Nat
  adjustment : Int
  phase : Phase
  /-- `__state[current].__tickets[round]`, by the round first. -/
  ticket : Nat → Nat → Phase
  begun : Nat
  epoch : Nat
  completed : Nat

inductive Op
  | arrive (hash update : Nat)
  | arriveAndWait (hash : Nat)
  | arriveAndDrop (hash : Nat)
  | wait (token : Token)

/-- Where a call is. -/
inductive At
  | idle
  /-- `arrive_and_drop`: `fetch_sub`. -/
  | drop (hash : Nat)
  /-- `arrive`: the load of `_M_phase`. -/
  | load (hash : Nat) (andWait : Bool) (update : Nat)
  /-- `_M_arrive` reads `_M_expected`. -/
  | enter (c : Call)
  /-- The compare-exchange from `__old_phase`. -/
  | first (c : Call) (a : Seat)
  /-- That from `__half_step`. -/
  | second (c : Call) (a : Seat)
  /-- `_M_invoke_completion`. -/
  | complete (c : Call)
  /-- `_M_expected += _M_expected_adjustment.load()`. -/
  | adjust (c : Call)
  /-- `_M_expected_adjustment.store(0)`. -/
  | clear (c : Call)
  /-- `__phase.store(__new_phase)`. -/
  | publish (c : Call)
  | notify (c : Call)
  | wait (token : Token)
  /-- `wait` has returned. -/
  | passed (token : Token)
  deriving DecidableEq

namespace Seat

/-- `__end_node`. -/
def endNode (a : Seat) : Nat := (a.expected + 1) / 2

/-- At the last node of a round with an odd number of entrants. -/
def Sole (a : Seat) : Prop := a.current + 1 = a.endNode ∧ a.expected % 2 = 1

instance (a : Seat) : Decidable a.Sole := inferInstanceAs (Decidable (_ ∧ _))

/-- The head of the inner loop. -/
def head (a : Seat) : Seat := if a.current = a.endNode then { a with current := 0 } else a

/-- `++__current`. -/
def next (a : Seat) : Seat := head { a with current := a.current + 1, passed := a.passed + 1 }

/-- Into the next round. -/
def win (a : Seat) : Seat := { a with round := a.round + 1, current := a.current / 2, expected := a.endNode, passed := 0 }

def tried (a : Seat) : Seat := { a with tries := a.tries + 1 }

end Seat

/-- The outer loop of `_M_arrive`. -/
def play (c : Call) (a : Seat) : At := if a.expected ≤ 1 then .complete c else .first c a.head

/-- The loop of `arrive`, with `update` arrivals to make. -/
def loop (c : Call) (update : Nat) : At :=
  if update = 0 then (if c.andWait then .wait c.token else .idle) else .enter { c with left := update - 1 }

def Shared.setTicket (m : Shared) (r k : Nat) (v : Phase) : Shared :=
  { m with ticket := Function.update m.ticket r (Function.update (m.ticket r) k v) }

def Shared.now (m : Shared) : Token := ⟨m.phase, m.epoch⟩

def act : At → Act Shared At 8
  | .idle | .passed _ => .idle
  | .drop hash => .atomic fun m => ({ m with adjustment := m.adjustment - 1 }, .load hash false 1)
  | .load hash andWait update => .atomic fun m => (m, loop ⟨m.now, hash, andWait, 0⟩ update)
  | .enter c => .atomic fun m => (m, play c ⟨0, c.current % ((m.expected + 1) / 2), m.expected, 0, 0⟩)
  | .first c a => .atomic fun m =>
    let expect := m.ticket a.round a.current
    if expect = c.token.phase then
      if a.Sole then (m.setTicket a.round a.current (c.token.phase + 2), play c a.tried.win)
      else (m.setTicket a.round a.current (c.token.phase + 1), loop c c.left)
    else if ¬ a.Sole ∧ expect = c.token.phase + 1 then (m, .second c a.tried)
    else (m, .first c a.tried.next)
  | .second c a => .atomic fun m =>
    if m.ticket a.round a.current = c.token.phase + 1 then
      (m.setTicket a.round a.current (c.token.phase + 2), play c a.tried.win)
    else (m, .first c a.tried.next)
  | .complete c => .atomic fun m => ({ m with completed := m.completed + 1 }, .adjust c)
  | .adjust c => .atomic fun m => ({ m with expected := (m.expected + m.adjustment).toNat }, .clear c)
  | .clear c => .atomic fun m => ({ m with adjustment := 0 }, .publish c)
  | .publish c => .atomic fun m => ({ m with phase := c.token.phase + 2, begun := 0, epoch := m.epoch + 1 }, .notify c)
  | .notify c => .notify true (loop c c.left)
  | .wait token => .wait (· != token.phase) fun _ => .passed token

/-- The arrivals of a call, and its first place. -/
def Op.arrivals : Op → Nat
  | .arrive _ update => update
  | .arriveAndWait _ | .arriveAndDrop _ => 1
  | .wait _ => 0

def Op.start : Op → At
  | .arrive hash update => .load hash false update
  | .arriveAndWait hash => .load hash true 1
  | .arriveAndDrop hash => .drop hash
  | .wait token => .wait token

def barrier : Client Shared At Op 8 where
  value := Shared.phase
  act := act
  call o m := ({ m with begun := m.begun + o.arrivals }, o.start)
  call_value _ _ := rfl

variable {ι : Type} [DecidableEq ι] [Fintype ι] {cfg : Config 8} {s s' : State ι Shared At} {t : ι} {l : Label ι Op}

abbrev step (cfg : Config 8) : State ι Shared At → Label ι Op → Option (State ι Shared At) := barrier.step cfg

/-- `__tree_barrier(__expected, __completion)`, not in a constant expression. -/
def init (ι : Type) (expected : Nat) : State ι Shared At := .init ⟨expected, 0, 0, fun _ _ => 0, 0, 0, 0⟩ fun _ => .idle

/-- A phase's token, in the phase `epoch` or later. -/
def Token.Dated (epoch : Nat) (token : Token) : Prop :=
  token.phase = BitVec.ofNat 8 (2 * token.epoch) ∧ token.epoch ≤ epoch

instance (epoch : Nat) (token : Token) : Decidable (token.Dated epoch) := inferInstanceAs (Decidable (_ ∧ _))

/-- What callers have to see to: some arrivals, no more than are expected in
the phase; and a token that an arrival has returned. -/
def Op.Allowed (m : Shared) : Op → Prop
  | .wait token => token.Dated m.epoch
  | o => 0 < o.arrivals ∧ m.begun + o.arrivals ≤ m.expected

instance (m : Shared) (o : Op) : Decidable (o.Allowed m) := by
  unfold Op.Allowed
  split <;> infer_instance

def Allowed (s : State ι Shared At) (l : Label ι Op) : Prop :=
  match l.choice with
  | .call o => o.Allowed s.mem
  | _ => True

instance (s : State ι Shared At) (l : Label ι Op) : Decidable (Allowed s l) := by
  unfold Allowed
  split <;> infer_instance

/-! ## What a step does -/

/-- The steps of a thread at the barrier, with what is known where they are taken. -/
inductive Move (m : Shared) : At → Shared → At → Prop
  | call {c} {o : Op} (hc : act c = .idle) (ha : o.Allowed m) : Move m c { m with begun := m.begun + o.arrivals } o.start
  | drop {hash} : Move m (.drop hash) { m with adjustment := m.adjustment - 1 } (.load hash false 1)
  | load {hash andWait update} : Move m (.load hash andWait update) m (loop ⟨m.now, hash, andWait, 0⟩ update)
  | enter {c} : Move m (.enter c) m (play c ⟨0, c.current % ((m.expected + 1) / 2), m.expected, 0, 0⟩)
  | sole {c a} (ht : m.ticket a.round a.current = c.token.phase) (ha : a.Sole) :
    Move m (.first c a) (m.setTicket a.round a.current (c.token.phase + 2)) (play c a.tried.win)
  | firstOfTwo {c a} (ht : m.ticket a.round a.current = c.token.phase) (ha : ¬ a.Sole) :
    Move m (.first c a) (m.setTicket a.round a.current (c.token.phase + 1)) (loop c c.left)
  | again {c a} (ht : m.ticket a.round a.current = c.token.phase + 1) (ha : ¬ a.Sole) :
    Move m (.first c a) m (.second c a.tried)
  | past {c a} (ht : m.ticket a.round a.current ≠ c.token.phase)
    (ht' : ¬ (¬ a.Sole ∧ m.ticket a.round a.current = c.token.phase + 1)) : Move m (.first c a) m (.first c a.tried.next)
  | secondOfTwo {c a} (ht : m.ticket a.round a.current = c.token.phase + 1) :
    Move m (.second c a) (m.setTicket a.round a.current (c.token.phase + 2)) (play c a.tried.win)
  | late {c a} (ht : m.ticket a.round a.current ≠ c.token.phase + 1) : Move m (.second c a) m (.first c a.tried.next)
  | complete {c} : Move m (.complete c) { m with completed := m.completed + 1 } (.adjust c)
  | adjust {c} : Move m (.adjust c) { m with expected := (m.expected + m.adjustment).toNat } (.clear c)
  | clear {c} : Move m (.clear c) { m with adjustment := 0 } (.publish c)
  | publish {c} :
    Move m (.publish c) { m with phase := c.token.phase + 2, begun := 0, epoch := m.epoch + 1 } (.notify c)
  | notified {c} : Move m (.notify c) m (loop c c.left)
  | woken {token : Token} (hv : m.phase ≠ token.phase) : Move m (.wait token) m (.passed token)
  | stay {c} : Move m c m c

/-- A step moves one thread. -/
structure Moved (s s' : State ι Shared At) (t : ι) (c d : At) : Prop where
  start : (s.thr t).place = c
  stop : (s'.thr t).place = d
  others : ∀ u ≠ t, (s'.thr u).place = (s.thr u).place

omit [Fintype ι] in
theorem moved_goto {m : Shared} {c d : At} (hpc : s.thr t = .client c) :
    Moved s (State.goto { s with mem := m } t (.client d)) t c d where
  start := congrArg Pc.place hpc
  stop := congrArg Pc.place (State.goto_thr_self _ _ _)
  others _ hu := congrArg Pc.place (State.goto_thr_ne _ hu _)

theorem atomic_move {m : Shared} {c : At} {f : Shared → Shared × At} (h : act c = .atomic f) : Move m c (f m).1 (f m).2 := by
  cases c with
  | idle | notify | wait | passed => cases h
  | drop => cases h; exact .drop
  | load => cases h; exact .load
  | enter => cases h; exact .enter
  | complete => cases h; exact .complete
  | adjust => cases h; exact .adjust
  | clear => cases h; exact .clear
  | publish => cases h; exact .publish
  | first c a =>
    cases h
    by_cases hfree : m.ticket a.round a.current = c.token.phase
    · by_cases hsole : a.Sole
      · simp only [hfree, hsole, if_true]
        exact .sole hfree hsole
      · simp only [hfree, hsole, if_true, if_false]
        exact .firstOfTwo hfree hsole
    · by_cases hhalf : ¬ a.Sole ∧ m.ticket a.round a.current = c.token.phase + 1
      · simp only [if_neg hfree, if_pos hhalf]
        exact .again hhalf.2 hhalf.1
      · simp only [if_neg hfree, if_neg hhalf]
        exact .past hfree hhalf
  | second c a =>
    cases h
    by_cases hhalf : m.ticket a.round a.current = c.token.phase + 1
    · simp only [hhalf, if_true]
      exact .secondOfTwo hhalf
    · simp only [hhalf, if_false]
      exact .late hhalf

theorem leaves_move {m : Shared} {c d : At} (h : barrier.Leaves c m.phase d) : Move m c m d := by
  cases c with
  | notify c =>
    obtain rfl : d = loop c c.left := h
    exact .notified
  | wait token =>
    obtain ⟨hv, rfl⟩ : (m.phase != token.phase) = true ∧ d = .passed token := h
    exact .woken (by simpa using hv)
  | idle | drop | load | enter | first | second | complete | adjust | clear | publish | passed => exact h.elim

theorem step_moves (ha : Allowed s l) (h : step cfg s l = some s') :
    ∃ c d, Moved s s' l.thread c d ∧ Move s.mem c s'.mem d := by
  obtain ⟨t, choice⟩ := l
  cases Client.step_view h with
  | call hpc hact =>
    exact ⟨_, _, moved_goto hpc, .call hact ha⟩
  | atomic hpc hact => exact ⟨_, _, moved_goto hpc, atomic_move hact⟩
  | inside hmem hplace => exact ⟨_, _, ⟨rfl, hplace t, fun u _ => hplace u⟩, hmem ▸ .stay⟩
  | leave hmem hthr hplace hd => exact ⟨_, _, ⟨rfl, congrArg Pc.place hthr, hplace⟩, by rw [hmem]; exact leaves_move hd⟩

end SharedPtr.Wait.Barrier
