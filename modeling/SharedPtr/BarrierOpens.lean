/-
The barrier over whole runs: the completion function runs once in each phase
(`completion_once`), arriving is wait-free (`arrive_waitFree`), and nobody gets
past the barrier before the phase is over, and everybody does then
(`barrier_opens`).
-/
import SharedPtr.BarrierInv

namespace SharedPtr.Wait.Barrier

open Lib (run Along Soon)
open Lib.Tournament

variable {ι : Type} [DecidableEq ι] [Fintype ι] {cfg : Config 8} {s s' : State ι Shared At} {t : ι} {n : Nat}
  {ls : List (Label ι Op)}

omit [DecidableEq ι] [Fintype ι] in
/-- Who publishes the next phase notifies. -/
theorem tells (s : State ι Shared At) (l : Label ι Op) : barrier.Tells s l := by
  intro _ c f _ hact d hd hd'
  obtain ⟨token, rfl⟩ : ∃ token, d = .wait token := by
    cases d with
    | wait token => exact ⟨token, rfl⟩
    | idle | drop | load | enter | first | second | complete | adjust | clear | publish | notify | passed => cases hd'
  have heq : s.mem.phase = token.phase := by simpa [Client.awaited, barrier, act] using hd
  have hne : (f s.mem).1.phase ≠ token.phase := by simpa [Client.awaited, barrier, act] using hd'
  have hmove := atomic_move (m := s.mem) hact
  show barrier.notifiesAll (f s.mem).2 = true
  generalize (f s.mem).1 = m' at hne hmove
  generalize (f s.mem).2 = e at hmove
  cases hmove with
  | publish => rfl
  | call hc => cases hc.symm.trans hact
  | notified | woken | stay => exact absurd heq hne
  | drop | load | enter | sole | firstOfTwo | again | past | secondOfTwo | late | complete | adjust | clear => exact absurd heq hne

theorem invariants (h : run (step cfg) (init ι n) ls = some s) (ha : Along (step cfg) Allowed (init ι n) ls) :
    Ok n s ∧ barrier.Inv cfg s :=
  Lib.run_invariant_along (I := fun s => Ok n s ∧ barrier.Inv cfg s)
    (fun s l _ hi ha hs => ⟨hi.1.step ha hs, hi.2.step (tells s l) hs⟩) h ha ⟨.init, fun _ => trivial⟩

/-! ## The completion -/

/-- In `arrive` or `arrive_and_drop`, before the next phase begins. -/
def At.arrives : At → Bool
  | .idle | .notify _ | .wait _ | .passed _ => false
  | _ => true

/-- From the call of `_M_completion` on. -/
def At.completes : At → Bool
  | .complete _ | .adjust _ | .clear _ | .publish _ => true
  | _ => false

theorem At.Ok.arrives {m : Shared} {c : At} (h : c.Ok m) (hp : c.pending = 0) (hb : ∀ r, c.between r = 0) (hc : c.champion = 0)
    (hcl : c.closing = 0) : c.arrives = false := by
  cases c with
  | idle | notify | wait | passed => rfl
  | load hash andWait update => exact absurd hp (Nat.ne_of_gt h)
  | first c a | second c a => exact absurd (hb a.round) (by simp [At.between])
  | drop | enter => cases hp
  | complete | adjust => cases hc
  | clear | publish => cases hcl

namespace Ok

variable (ok : Ok n s)

include ok

/-- A thread that completes the phase is alone in `arrive`. -/
theorem alone (hpc : (s.thr t).place.completes = true) {u : ι} (hu : u ≠ t) :
    (s.thr u).place.arrives = false ∧ (s.thr u).place.finishing = 0 := by
  have hcounts : 0 < (s.thr t).place.champion ∧ (s.thr t).place.closing = 0 ∨
      0 < (s.thr t).place.closing ∧ (s.thr t).place.closing = 1 := by
    cases hc : (s.thr t).place <;> rw [hc] at hpc <;> cases hpc
    case complete | adjust => exact .inl ⟨Nat.zero_lt_one, rfl⟩
    case clear | publish => exact .inr ⟨Nat.zero_lt_one, rfl⟩
  have hothers : (s.thr u).place.pending = 0 ∧ (∀ r, (s.thr u).place.between r = 0) ∧ (s.thr u).place.champion = 0 ∧
      (s.thr u).place.closing = 0 := by
    rcases hcounts with ⟨hc, -⟩ | ⟨hc, hone⟩
    · obtain ⟨hz, g⟩ := ok.gathers rfl (.inl (Nat.lt_of_lt_of_le hc (Nat.le_add_left _ _)))
      have hle := le_total (s := s) At.champion t
      obtain ⟨hone, hp, -, hb, -⟩ := g.won (hc.trans_le hle)
      refine ⟨eq_zero_of_total hp u, fun r => ?_, eq_zero_of_ne (by omega) hu, eq_zero_of_total hz u⟩
      by_cases hr : 1 < entries s.mem.expected r
      · exact eq_zero_of_total (hb r hr) u
      · exact eq_zero_of_total (ok.total_between_inactive hr) u
    · obtain ⟨hz, h⟩ := ok.closes rfl hc
      exact ⟨eq_zero_of_total h.pending u, fun r => eq_zero_of_total (h.between r) u, eq_zero_of_total h.champion u,
        eq_zero_of_ne (by rw [hz, hone]) hu⟩
  obtain ⟨hp, hb, hc, hcl⟩ := hothers
  refine ⟨(ok.threads u).arrives hp hb hc hcl, ?_⟩
  cases hpc : (s.thr u).place <;> rw [hpc] at hc hcl
  case adjust => cases hc
  case clear | publish => cases hcl
  all_goals rfl

theorem completed_le : s.mem.completed ≤ s.mem.epoch + 1 := by
  have hfinishing : total At.finishing s ≤ 1 := by
    by_cases h : ∃ t, (s.thr t).place.completes = true
    · obtain ⟨t, ht⟩ := h
      have hsum := Finset.add_sum_erase Finset.univ (fun u => (s.thr u).place.finishing) (Finset.mem_univ t)
      have hrest : ∑ u ∈ Finset.univ.erase t, (s.thr u).place.finishing = 0 :=
        Finset.sum_eq_zero fun u hu => (ok.alone ht (Finset.ne_of_mem_erase hu)).2
      have hown : (s.thr t).place.finishing ≤ 1 := by
        cases (s.thr t).place <;> simp [At.finishing]
      rw [total]
      omega
    · rw [total, Finset.sum_eq_zero]
      · exact Nat.zero_le _
      · intro u _
        have hu : (s.thr u).place.completes ≠ true := fun hu => h ⟨u, hu⟩
        cases hc : (s.thr u).place <;> rw [hc] at hu
        case adjust | clear | publish => exact absurd rfl hu
        all_goals rfl
  have := ok.completed
  omega

end Ok

/-- **The completion function runs once in each phase**: when all threads that
are expected have arrived, with no other thread in `arrive` from then on until
the next phase begins; and who gets past the barrier comes after it. -/
theorem completion_once (cfg : Config 8) (n : Nat) (ls : List (Label ι Op)) (s : State ι Shared At)
    (h : run (step cfg) (init ι n) ls = some s) (ha : Along (step cfg) Allowed (init ι n) ls) :
    (s.mem.epoch ≤ s.mem.completed ∧ s.mem.completed ≤ s.mem.epoch + 1) ∧
      (∀ t c, (s.thr t).place = .complete c → s.mem.completed = s.mem.epoch ∧ s.mem.begun = s.mem.expected ∧ c.left = 0 ∧
        0 ≤ s.mem.expected + s.mem.adjustment) ∧
      (∀ t, (s.thr t).place.completes = true → ∀ u ≠ t, (s.thr u).place.arrives = false) ∧
      ∀ t token, (s.thr t).place = .passed token → token.epoch < s.mem.completed := by
  have ok := (invariants h ha).1
  have hcompleted := ok.completed
  refine ⟨⟨by omega, ok.completed_le⟩, fun t c hpc => ?_, fun t ht u hu => (ok.alone ht hu).1, fun t token hpc => ?_⟩
  · have hcompletes : (s.thr t).place.completes = true := by rw [hpc]; rfl
    obtain ⟨-, g⟩ := ok.gathers hpc (.inl (Nat.lt_of_lt_of_le Nat.zero_lt_one (Nat.le_add_left _ _)))
    have hchampion := le_total (s := s) At.champion t
    rw [hpc] at hchampion
    obtain ⟨-, hp, hbegun, -⟩ := g.won hchampion
    have hleft := eq_zero_of_total hp t
    rw [hpc] at hleft
    have hfinishing : total At.finishing s = 0 := Finset.sum_eq_zero fun u _ => by
      by_cases hu : u = t
      · rw [hu, hpc]
        rfl
      · exact (ok.alone hcompletes hu).2
    have hdropped := g.dropped
    exact ⟨by omega, hbegun, hleft, by omega⟩
  · have hown := ok.threads t
    rw [hpc] at hown
    have hown : token.epoch < s.mem.epoch := hown
    omega

/-- `t` arrives and sleeps; then `u` arrives, tries the ticket, and sees that it is the second one. -/
def twoArrive (t u : ι) : List (Label ι Op) :=
  [⟨t, .call (.arriveAndWait 0)⟩, ⟨t, .run⟩, ⟨t, .run⟩, ⟨t, .run⟩, ⟨t, .run⟩, ⟨t, .run⟩, ⟨t, .run⟩, ⟨t, .sleep⟩,
    ⟨u, .call (.arriveAndDrop 0)⟩, ⟨u, .run⟩, ⟨u, .run⟩, ⟨u, .run⟩, ⟨u, .run⟩]

theorem completion_once_two :
    let start : State (Fin 2) Shared At := init (Fin 2) 2
    let s := (run (step (.proxy 8)) start (twoArrive 0 1 ++ [⟨1, .run⟩])).getD start
    let c : Call := ⟨⟨0, 0⟩, 0, false, 0⟩
    (s.thr 1).place = .complete c ∧ s.mem.completed = s.mem.epoch ∧ s.mem.begun = s.mem.expected ∧ c.left = 0 ∧
      0 ≤ s.mem.expected + s.mem.adjustment := by
  intro start s c
  have hs : run (step (.proxy 8)) start (twoArrive 0 1 ++ [⟨1, .run⟩]) = some s := Lib.run_getD (by decide) _
  have hpc : (s.thr 1).place = .complete c := by decide
  exact ⟨hpc, (completion_once (.proxy 8) 2 _ s hs (by decide)).2.1 1 c hpc⟩

/-! ## Arriving -/

theorem nodesBefore_le (n r : Nat) (hr : 1 < entries n r) : nodesBefore n r + 2 * (entries n r - 1) ≤ 2 * (n - 1) := by
  induction r with
  | zero =>
    rw [nodesBefore, Finset.sum_range_zero, entries]
    omega
  | succ r ih =>
    have hprev := entries_anti (Nat.le_succ r) hr
    have h := ih hprev
    have hhalf : entries n (r + 1) = (entries n r + 1) / 2 := rfl
    rw [nodesBefore] at h ⊢
    rw [Finset.sum_range_succ]
    omega

/-- **`_M_arrive` is wait-free**: whatever other threads do, a thread needs at
most four compare-exchanges for each other thread that is expected; and each
ticket it tries is one of those allocated. -/
theorem arrive_waitFree (cfg : Config 8) (n : Nat) (ls : List (Label ι Op)) (s : State ι Shared At)
    (h : run (step cfg) (init ι n) ls = some s) (ha : Along (step cfg) Allowed (init ι n) ls) (t : ι) (c : Call) (a : Seat)
    (hpc : (s.thr t).place = .first c a ∨ (s.thr t).place = .second c a) :
    a.tries < 4 * (n - 1) ∧ a.current < (n + 1) / 2 ∧ (n ≤ 2 ^ 63 → a.round < 64) := by
  have ok := (invariants h ha).1
  have hown := ok.threads t
  have hseat : ∃ more ≤ 1, SeatOk s.mem a more := by
    rcases hpc with hpc | hpc <;> rw [hpc] at hown
    · exact ⟨0, Nat.zero_le _, hown.2⟩
    · exact ⟨1, Nat.le_refl _, hown.2.1⟩
  obtain ⟨more, hmore, hseat⟩ := hseat
  have hgathers : 0 < (s.thr t).place.between a.round := by
    rcases hpc with hpc | hpc <;> rw [hpc] <;> simp [At.between]
  obtain ⟨-, g⟩ := ok.gathers rfl (.inr ⟨_, hgathers⟩)
  have hpassed := g.passed_lt hseat (hgathers.trans_le (le_total (At.between a.round) t))
  have hactive : 1 < entries s.mem.expected a.round := hseat.expected ▸ hseat.active
  have hexp := ok.expected
  refine ⟨?_, ?_, fun hn => ?_⟩
  · have htries := hseat.tries
    have hnodes := nodesBefore_le s.mem.expected a.round hactive
    have hhalf := hseat.endNode_eq
    have hend : a.endNode ≤ entries s.mem.expected a.round := by
      rw [Seat.endNode, hseat.expected]
      omega
    omega
  · have hfirst := entries_le (n := s.mem.expected) (Nat.le_add_left 1 a.round)
    have hcur := hseat.current
    rw [hseat.endNode_eq] at hcur
    have hone : entries s.mem.expected 1 = (s.mem.expected + 1) / 2 := rfl
    omega
  · by_contra hlate
    have hpow := entries_le_pow (n := s.mem.expected) (m := 0) (r := 63) (by omega)
    have := entries_anti (q := 63) (by omega) hactive
    omega

theorem arrive_waitFree_two :
    let start : State (Fin 2) Shared At := init (Fin 2) 2
    let s := (run (step (.proxy 8)) start (twoArrive 0 1)).getD start
    let a : Seat := ⟨0, 0, 2, 0, 1⟩
    (s.thr 1).place = .second ⟨⟨0, 0⟩, 0, false, 0⟩ a ∧ a.tries < 4 * (2 - 1) ∧ a.current < (2 + 1) / 2 ∧
      (2 ≤ 2 ^ 63 → a.round < 64) := by
  intro start s a
  have hs : run (step (.proxy 8)) start (twoArrive 0 1) = some s := Lib.run_getD (by decide) _
  have hpc : (s.thr 1).place = .second ⟨⟨0, 0⟩, 0, false, 0⟩ a := by decide
  exact ⟨hpc, arrive_waitFree (.proxy 8) 2 _ s hs (by decide) 1 _ a (.inr hpc)⟩

/-! ## Waiting -/

omit [DecidableEq ι] in
theorem Ok.begun_lt (ok : Ok n s) (h : ∀ u, (s.thr u).place.arrives = false) (hpos : 0 < s.mem.expected) :
    s.mem.begun < s.mem.expected := by
  have hcounts : ∀ f : At → Nat, (∀ c : At, c.arrives = false → c.Ok s.mem → f c = 0) → total f s = 0 := fun f hf =>
    Finset.sum_eq_zero fun u _ => hf _ (h u) (ok.threads u)
  have hclosing : total At.closing s = 0 := hcounts _ fun c hc _ => by
    cases c <;> first | rfl | cases hc
  obtain ⟨-, g⟩ := ok.stage.resolve_right fun ⟨hz, _⟩ => by omega
  have hpending : total At.pending s = 0 := hcounts _ fun c hc hok => by
    cases c with
    | notify c => exact hok.1
    | idle | wait | passed => rfl
    | drop | load | enter | first | second | complete | adjust | clear | publish => cases hc
  have hbetween : ∀ r, total (At.between r) s = 0 := fun r => hcounts _ fun c hc _ => by
    cases c <;> first | rfl | cases hc
  have hchampion : total At.champion s = 0 := hcounts _ fun c hc _ => by
    cases c <;> first | rfl | cases hc
  obtain ⟨entered, hentered, hstanding⟩ := g.standing
  have hbegun := g.begun
  refine lt_of_le_of_ne hbegun fun heq => ?_
  have hone : (score s).champions = 1 := hstanding.champion hpos (by omega) fun r _ => hbetween r
  have : (score s).champions = total At.champion s := rfl
  omega

/-- **The barrier opens**: nobody gets past it before the phase is over, which
it is once all arrivals that are expected have been made and have returned;
and then, when no thread has still to notify (and the proxy's word has not come
round), a thread that waits for this phase is awake and gets past in four steps
of its own without falling asleep, if not 128 phases have gone by. -/
theorem barrier_opens (cfg : Config 8) (n : Nat) (ls : List (Label ι Op)) (s : State ι Shared At)
    (h : run (step cfg) (init ι n) ls = some s) (ha : Along (step cfg) Allowed (init ι n) ls) :
    (∀ t token, (s.thr t).place = .passed token → token.epoch < s.mem.epoch) ∧
      ((∀ u, (s.thr u).place.arrives = false) → 0 < s.mem.expected → s.mem.begun < s.mem.expected) ∧
      ∀ t token, (s.thr t).place = .wait token → token.epoch < s.mem.epoch → s.mem.epoch < token.epoch + 128 →
        ¬ barrier.Owing s → s.version < 2 ^ 32 → (s.thr t).isAsleep = false ∧
        Soon (barrier.stepAwake cfg) (fun l => l.thread = t) (fun s' => s'.thr t = .client (.passed token)) 4 s := by
  obtain ⟨ok, hi⟩ := invariants h ha
  refine ⟨fun t token hpc => ?_, ok.begun_lt, fun t token hpc hold hnew hq hv => ?_⟩
  · have hown := ok.threads t
    rw [hpc] at hown
    exact hown
  · have hown := ok.threads t
    rw [hpc] at hown
    have hne : s.mem.phase ≠ token.phase := by
      rw [ok.phase, hown.1]
      intro heq
      have := congrArg BitVec.toNat heq
      simp only [BitVec.toNat_ofNat] at this
      omega
    have hawaited : barrier.awaited (.wait token) s.mem.phase = true := by
      simpa [Client.awaited, barrier, act] using hne
    refine ⟨hi.awake hq hv (by rwa [hpc]), ?_⟩
    have hpassed : ∀ d, barrier.after (.wait token) s.mem.phase = some d →
        (s.goto t (.client d)).thr t = .client (.passed token) := by
      intro d hd
      obtain rfl : At.passed token = d := Option.some.inj hd
      exact State.goto_thr_self _ _ _
    have hplaced := Client.placed_run h t
    cases hthr : s.thr t with
    | client c =>
      rw [hthr] at hpc
      obtain rfl : c = .wait token := hpc
      obtain ⟨d, hd, hsoon⟩ := Client.called_soon (O := Op) hi hq hv hthr (.inl ⟨_, _, rfl⟩) hawaited
      exact hsoon.trans (m := 0) fun s' hs' => hs' ▸ hpassed d hd
    | setup c | load c old | impl c old | asleep c old =>
      rw [hthr] at hpc
      obtain rfl : c = .wait token := hpc
      obtain ⟨d, hd, hsoon⟩ := Client.waits_soon (O := Op) (t := t) hi hq hv (c := .wait token) (by rw [hthr]; rfl) hawaited
      exact hsoon.trans (m := 1) fun s' hs' => .now (hs' ▸ hpassed d hd)
    | waking c =>
      rw [hthr] at hpc hplaced
      obtain rfl : c = .wait token := hpc
      cases hplaced

/-- Thread 1 completes the phase, and wakes thread 0. -/
theorem barrier_opens_two :
    let start : State (Fin 2) Shared At := init (Fin 2) 2
    let ls : List (Label (Fin 2) Op) := twoArrive 0 1 ++ List.replicate 6 ⟨1, .run⟩ ++ [⟨1, .wake [0]⟩]
    let s := (run (step (.proxy 8)) start ls).getD start
    (s.thr 0).place = .wait ⟨0, 0⟩ ∧ (s.thr 0).isAsleep = false ∧
      Soon (barrier.stepAwake (.proxy 8)) (fun l => l.thread = 0) (fun s' => s'.thr 0 = .client (.passed ⟨0, 0⟩)) 4 s := by
  intro start ls s
  have hs : run (step (.proxy 8)) start ls = some s := Lib.run_getD (by decide) _
  have hpc : (s.thr 0).place = .wait ⟨0, 0⟩ := by decide
  exact ⟨hpc, (barrier_opens (.proxy 8) 2 ls s hs (by decide)).2.2 0 ⟨0, 0⟩ hpc (by decide) (by decide) (by decide)
    (by decide)⟩

end SharedPtr.Wait.Barrier
