/-
The tickets of a phase as a tournament (`score`), and what is known of a
thread by its place: it has not tried a ticket more than twice, and those it
has gone past are full.
-/
import SharedPtr.Barrier
import SharedPtr.Lib.Tournament

namespace SharedPtr.Wait.Barrier

open Lib.Tournament

variable {ι : Type} [DecidableEq ι] [Fintype ι] {s s' : State ι Shared At} {t : ι}

/-! ## Counting threads -/

/-- The arrivals a call has still to bring to a ticket, the one that looks for it apart. -/
def At.pending : At → Nat
  | .drop _ => 1
  | .load _ _ update => update
  | .enter c => c.left + 1
  | .first c _ | .second c _ | .complete c | .adjust c | .clear c | .publish c | .notify c => c.left
  | _ => 0

def At.between (r : Nat) : At → Nat
  | .first _ a | .second _ a => if a.round = r then 1 else 0
  | _ => 0

def At.champion : At → Nat
  | .complete _ | .adjust _ => 1
  | _ => 0

/-- Between the change of `_M_expected` and that of `_M_phase`. -/
def At.closing : At → Nat
  | .clear _ | .publish _ => 1
  | _ => 0

/-- Between the call of `_M_completion` and the change of `_M_phase`. -/
def At.finishing : At → Nat
  | .adjust _ | .clear _ | .publish _ => 1
  | _ => 0

def At.dropping : At → Nat
  | .drop _ => 1
  | _ => 0

def total (f : At → Nat) (s : State ι Shared At) : Nat := ∑ u, f (s.thr u).place

section

variable {c d : At}

theorem Moved.total (h : Moved s s' t c d) (f : At → Nat) : total f s' + f c = total f s + f d := by
  obtain ⟨rest, hs, hs'⟩ := Lib.exists_sum_update f (fun u => (s.thr u).place) t
  have hnew : Barrier.total f s' = f d + rest := by
    rw [Barrier.total, ← hs']
    refine Finset.sum_congr rfl fun u _ => ?_
    by_cases hu : u = t
    · rw [hu, Function.update_self, h.stop]
    · rw [Function.update_of_ne hu, h.others u hu]
  have hold : Barrier.total f s = f c + rest := h.start ▸ hs
  omega

omit [Fintype ι] in
theorem Moved.forall (h : Moved s s' t c d) {p q : At → Prop} (hp : ∀ u, p (s.thr u).place) (hd : q d)
    (hq : ∀ e, p e → q e) (u : ι) : q (s'.thr u).place := by
  by_cases hu : u = t
  · rw [hu, h.stop]
    exact hd
  · rw [h.others u hu]
    exact hq _ (hp u)

end

theorem le_total (f : At → Nat) (u : ι) : f (s.thr u).place ≤ total f s := by
  obtain ⟨rest, hs, -⟩ := Lib.exists_sum_update f (fun u => (s.thr u).place) u
  have hold : total f s = f (s.thr u).place + rest := hs
  omega

theorem eq_zero_of_total {f : At → Nat} (h : total f s = 0) (u : ι) : f (s.thr u).place = 0 :=
  Nat.le_zero.mp (h ▸ le_total f u)

/-- One thread has it all. -/
theorem eq_zero_of_ne {f : At → Nat} {u : ι} (h : total f s = f (s.thr t).place) (hu : u ≠ t) : f (s.thr u).place = 0 := by
  have hsum := Finset.add_sum_erase Finset.univ (fun v => f (s.thr v).place) (Finset.mem_univ t)
  have hle := Finset.single_le_sum (f := fun v => f (s.thr v).place) (fun _ _ => Nat.zero_le _)
    (Finset.mem_erase.mpr ⟨hu, Finset.mem_univ u⟩)
  rw [total] at h
  omega

/-- A ticket as a node of the tournament. -/
def fill (cap : Nat) (phase ticket : Phase) : Nat :=
  if ticket = phase + 2 then cap else if ticket = phase + 1 then 1 else 0

def score (s : State ι Shared At) : Score where
  filled r k := fill (cap (entries s.mem.expected r) k) s.mem.phase (s.mem.ticket r k)
  between r := total (At.between r) s
  champions := total At.champion s

/-- A ticket that the tournament uses. -/
def Used (m : Shared) (r k : Nat) : Prop := 1 < entries m.expected r ∧ k < entries m.expected (r + 1)

/-- What a ticket can hold in a phase. -/
def TicketOk (m : Shared) (r k : Nat) : Prop :=
  m.ticket r k = m.phase ∨ m.ticket r k = m.phase + 2 ∨
    m.ticket r k = m.phase + 1 ∧ cap (entries m.expected r) k = 2

/-- The tickets that a thread has gone past in its round are full. -/
def PassedFull (m : Shared) (a : Seat) : Prop :=
  ∃ start < a.endNode, a.current = (start + a.passed) % a.endNode ∧
    ∀ i < a.passed, m.ticket a.round ((start + i) % a.endNode) = m.phase + 2

/-- The nodes of the rounds before `r`. -/
def nodesBefore (n r : Nat) : Nat := ∑ q ∈ Finset.range r, entries n (q + 1)

/-- `tries` compare-exchanges, not more than two at a node; `more` of them at the present one. -/
structure SeatOk (m : Shared) (a : Seat) (more : Nat) : Prop where
  expected : a.expected = entries m.expected a.round
  active : 1 < a.expected
  current : a.current < a.endNode
  passed : PassedFull m a
  tries : a.tries ≤ 2 * (nodesBefore m.expected a.round + a.passed) + more

/-- What holds of a thread. -/
def At.Ok (m : Shared) : At → Prop
  | .idle | .drop _ => True
  | .load _ _ update => 0 < update
  | .enter c | .complete c | .adjust c | .clear c | .publish c => c.token = m.now
  | .first c a => c.token = m.now ∧ SeatOk m a 0
  | .second c a => c.token = m.now ∧ SeatOk m a 1 ∧ ¬ a.Sole ∧ m.ticket a.round a.current ≠ m.phase
  | .notify c => c.left = 0 ∧ c.token.Dated m.epoch
  | .wait token => token.Dated m.epoch
  | .passed token => token.epoch < m.epoch

/-- Threads arrive. -/
structure Gathering (s : State ι Shared At) : Prop where
  tickets : ∀ r k, Used s.mem r k → TicketOk s.mem r k
  begun : s.mem.begun ≤ s.mem.expected
  standing : ∃ entered, entered + total At.pending s = s.mem.begun ∧ (score s).Standing s.mem.expected entered
  dropped : (total At.dropping s : Int) ≤ s.mem.adjustment + s.mem.begun

/-- A thread completes the phase, and no other one is in `arrive`. -/
structure Closing (s : State ι Shared At) : Prop where
  tickets : ∀ r k, Used s.mem r k → s.mem.ticket r k = s.mem.phase + 2
  begun : s.mem.expected ≤ s.mem.begun
  pending : total At.pending s = 0
  between : ∀ r, total (At.between r) s = 0
  champion : total At.champion s = 0
  adjustment : ∀ u c, (s.thr u).place = .publish c → s.mem.adjustment = 0

structure Ok (n : Nat) (s : State ι Shared At) : Prop where
  phase : s.mem.phase = BitVec.ofNat 8 (2 * s.mem.epoch)
  adjustment : s.mem.adjustment ≤ 0
  expected : s.mem.expected ≤ n
  completed : s.mem.completed = s.mem.epoch + total At.finishing s
  threads : ∀ u, (s.thr u).place.Ok s.mem
  stage : total At.closing s = 0 ∧ Gathering s ∨ total At.closing s = 1 ∧ Closing s

/-! ## Seats -/

theorem phase_ne (p : Phase) : p ≠ p + 1 ∧ p ≠ p + 2 ∧ p + 1 ≠ p + 2 := by
  refine ⟨?_, ?_, ?_⟩ <;> bv_omega

section

variable {m m' : Shared} {a : Seat} {more : Nat} {c : Call} {d : At}

theorem Seat.head_of_lt (h : a.current < a.endNode) : a.head = a := if_neg (by omega)

theorem Seat.next_eq (a : Seat) : a.next =
    { a with current := if a.current + 1 = a.endNode then 0 else a.current + 1, passed := a.passed + 1 } := by
  show (if a.current + 1 = a.endNode then _ else _) = _
  split <;> rfl

theorem SeatOk.mono (h : SeatOk m a more) (hexp : m'.expected = m.expected) (hphase : m'.phase = m.phase)
    (hfull : ∀ r k, m.ticket r k = m.phase + 2 → m'.ticket r k = m.phase + 2) : SeatOk m' a more where
  expected := hexp ▸ h.expected
  active := h.active
  current := h.current
  passed := by
    obtain ⟨start, hstart, hcur, hp⟩ := h.passed
    exact ⟨start, hstart, hcur, fun i hi => hphase ▸ hfull _ _ (hp i hi)⟩
  tries := hexp ▸ h.tries

/-- The seat a thread starts from. -/
theorem seatOk_start (hash : Nat) (h : 1 < m.expected) : SeatOk m ⟨0, hash % ((m.expected + 1) / 2), m.expected, 0, 0⟩ 0 := by
  have hlt : hash % ((m.expected + 1) / 2) < (m.expected + 1) / 2 := Nat.mod_lt _ (by omega)
  exact ⟨rfl, h, hlt, ⟨_, hlt, (Nat.mod_eq_of_lt hlt).symm, fun i hi => absurd hi (Nat.not_lt_zero i)⟩, Nat.zero_le _⟩

namespace SeatOk

variable (h : SeatOk m a more) (hmore : more ≤ 1)

include h

theorem endNode_eq : a.endNode = entries m.expected (a.round + 1) := by
  rw [Seat.endNode, h.expected, entries]

theorem used : Used m a.round a.current := ⟨h.expected ▸ h.active, h.endNode_eq ▸ h.current⟩

theorem cap_eq : cap (entries m.expected a.round) a.current = if a.Sole then 1 else 2 := by
  rw [← h.expected]
  rfl

include hmore

/-- Past a full ticket. -/
theorem next (hfull : m.ticket a.round a.current = m.phase + 2) : SeatOk m a.tried.next 0 := by
  obtain ⟨start, hstart, hcur, hp⟩ := h.passed
  have hlt := h.current
  have hpos : 0 < a.endNode := by omega
  have hnext : (if a.current + 1 = a.endNode then 0 else a.current + 1) = (start + (a.passed + 1)) % a.endNode := by
    rw [← Nat.add_assoc, ← Nat.mod_add_mod, ← hcur]
    split
    · next hend => rw [hend, Nat.mod_self]
    · exact (Nat.mod_eq_of_lt (by omega)).symm
  have hcurrent : a.tried.next.current = (start + (a.passed + 1)) % a.endNode := by
    rw [Seat.next_eq]
    exact hnext
  have hfields : a.tried.next.round = a.round ∧ a.tried.next.expected = a.expected ∧
      a.tried.next.passed = a.passed + 1 ∧ a.tried.next.tries = a.tries + 1 := by
    rw [Seat.next_eq]
    exact ⟨rfl, rfl, rfl, rfl⟩
  obtain ⟨hround, hexp, hpassed, htries⟩ := hfields
  have hnode : a.tried.next.endNode = a.endNode := by rw [Seat.endNode, hexp, Seat.endNode]
  refine ⟨by rw [hexp, hround, h.expected], hexp ▸ h.active, ?_, ⟨start, hnode ▸ hstart, ?_, fun i hi => ?_⟩, ?_⟩
  · rw [hcurrent, hnode]
    exact Nat.mod_lt _ hpos
  · rw [hcurrent, hpassed, hnode]
  · rw [hround, hnode]
    rw [hpassed] at hi
    rcases Nat.lt_succ_iff_lt_or_eq.mp hi with hlt | rfl
    · exact hp i hlt
    · rw [← hcur]
      exact hfull
  · have := h.tries
    rw [htries, hround, hpassed]
    omega

/-- Into a round with more than one entrant. -/
theorem win (hpassed : a.passed < a.endNode) (hend : 1 < a.endNode) : SeatOk m a.tried.win 0 := by
  have hlt := h.current
  have hcur : a.current / 2 < (a.endNode + 1) / 2 := by omega
  refine ⟨h.endNode_eq, hend, hcur, ⟨_, hcur, (Nat.mod_eq_of_lt hcur).symm, fun i hi => absurd hi (Nat.not_lt_zero i)⟩, ?_⟩
  have htries := h.tries
  have hend := h.endNode_eq
  show a.tries + 1 ≤ 2 * (nodesBefore m.expected (a.round + 1) + 0) + 0
  rw [nodesBefore, Finset.sum_range_succ, ← hend]
  rw [nodesBefore] at htries
  omega

end SeatOk

end

/-! ## The places after a step -/

section

variable {m m' : Shared} {a : Seat} {c : Call} {d : At} {update r : Nat}

theorem now_dated (h : m.phase = BitVec.ofNat 8 (2 * m.epoch)) : m.now.Dated m.epoch := ⟨h, Nat.le_refl _⟩

theorem At.Ok.mono (h : d.Ok m) (hexp : m'.expected = m.expected) (hnow : m'.now = m.now)
    (hfull : ∀ r k, m.ticket r k = m.phase + 2 → m'.ticket r k = m.phase + 2)
    (hused : ∀ r k, m.ticket r k ≠ m.phase → m'.ticket r k ≠ m.phase) : d.Ok m' := by
  obtain ⟨hphase, hepoch⟩ : m'.phase = m.phase ∧ m'.epoch = m.epoch := Token.mk.inj hnow
  cases d with
  | idle | drop => trivial
  | load => exact h
  | enter | complete | adjust | clear | publish => exact Eq.trans h hnow.symm
  | first c a => exact ⟨h.1.trans hnow.symm, h.2.mono hexp hphase hfull⟩
  | second c a =>
    obtain ⟨ht, hseat, hsole, hne⟩ := h
    exact ⟨ht.trans hnow.symm, hseat.mono hexp hphase hfull, hsole, hphase.symm ▸ hused _ _ hne⟩
  | notify c => exact ⟨h.1, hepoch.symm ▸ h.2⟩
  | wait token => exact (hepoch.symm ▸ h : token.Dated m'.epoch)
  | passed token => exact (hepoch.symm ▸ h : token.epoch < m'.epoch)

theorem play_ok (ht : c.token = m.now) (h : 1 < a.expected → SeatOk m a 0) : (play c a).Ok m := by
  unfold play
  split
  · exact ht
  · have hseat := h (by omega)
    rw [Seat.head_of_lt hseat.current]
    exact ⟨ht, hseat⟩

theorem loop_ok (hd : c.token.Dated m.epoch) (ht : 0 < update → c.token = m.now) : (loop c update).Ok m := by
  unfold loop
  split
  · split
    · exact hd
    · trivial
  · exact ht (by omega)

theorem Seat.head_round (a : Seat) : a.head.round = a.round := by
  unfold Seat.head
  split <;> rfl

theorem play_between : (play c a).between r = if 1 < a.expected then (if a.round = r then 1 else 0) else 0 := by
  unfold play
  split
  · next h => exact (if_neg (by omega)).symm
  · next h => simp [At.between, Seat.head_round, Nat.lt_of_not_le h]

theorem play_champion : (play c a).champion = if 1 < a.expected then 0 else 1 := by
  unfold play
  split
  · next h => exact (if_neg (by omega)).symm
  · next h => exact (if_pos (by omega)).symm

theorem play_pending : (play c a).pending = c.left := by
  unfold play
  split <;> rfl

theorem loop_pending : (loop c update).pending = update := by
  unfold loop
  split
  · split <;> simp_all [At.pending]
  · show update - 1 + 1 = update
    omega

/-- A call that goes on with its next arrival, or returns, is at no ticket. -/
theorem loop_counts (c : Call) (update : Nat) : (∀ r, (loop c update).between r = 0) ∧ (loop c update).champion = 0 ∧ (loop c update).closing = 0 ∧
    (loop c update).finishing = 0 ∧ (loop c update).dropping = 0 := by
  unfold loop
  split
  · split <;> simp [At.between, At.champion, At.closing, At.finishing, At.dropping]
  · simp [At.between, At.champion, At.closing, At.finishing, At.dropping]

theorem play_counts : (play c a).closing = 0 ∧ (play c a).finishing = 0 ∧ (play c a).dropping = 0 := by
  unfold play
  split <;> simp [At.closing, At.finishing, At.dropping]

end

/-- A ticket that was not full is used. -/
theorem setTicket_keeps {m : Shared} {r k : Nat} {v : Phase} (ht : m.ticket r k ≠ m.phase + 2) (hv : v ≠ m.phase) :
    (∀ q j, m.ticket q j = m.phase + 2 → (m.setTicket r k v).ticket q j = m.phase + 2) ∧
      ∀ q j, m.ticket q j ≠ m.phase → (m.setTicket r k v).ticket q j ≠ m.phase := by
  have hother : ∀ q j, ¬ (q = r ∧ j = k) → (m.setTicket r k v).ticket q j = m.ticket q j := by
    intro q j hne
    by_cases hq : q = r
    · have hj : j ≠ k := fun hj => hne ⟨hq, hj⟩
      simp [Shared.setTicket, hq, hj]
    · simp [Shared.setTicket, hq]
  refine ⟨fun q j h => ?_, fun q j h => ?_⟩
  · rw [hother q j fun ⟨hq, hj⟩ => ht (by rw [← hq, ← hj, h]), h]
  · by_cases hqj : q = r ∧ j = k
    · obtain ⟨rfl, rfl⟩ := hqj
      simpa [Shared.setTicket] using hv
    · rwa [hother q j hqj]

end SharedPtr.Wait.Barrier
