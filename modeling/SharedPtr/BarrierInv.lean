/-
The barrier's invariant (`Ok`): either threads arrive, and the tournament
stands as the arrivals that have begun say, or one thread completes the phase
and no other one is in `arrive`. Every step keeps it (`Ok.step`).
-/
import SharedPtr.BarrierTickets

namespace SharedPtr.Wait.Barrier

open Lib.Tournament

variable {ι : Type} [DecidableEq ι] [Fintype ι] {cfg : Config 8} {s s' : State ι Shared At} {t : ι} {l : Label ι Op}

/-! ## Threads arrive -/

theorem fill_eq (cap : Nat) (p : Phase) : fill cap p p = 0 ∧ fill cap p (p + 1) = 1 ∧ fill cap p (p + 2) = cap := by
  obtain ⟨h₁, h₂, h₃⟩ := phase_ne p
  exact ⟨by rw [fill, if_neg h₂, if_neg h₁], by rw [fill, if_neg h₃, if_pos rfl], if_pos rfl⟩

section

variable {c d e : At} {a : Seat} {call : Call} {more r k : Nat} {v : Phase} {T : Score} {n : Nat}

omit [DecidableEq ι] in
theorem score_filled_setTicket (h : s'.mem = s.mem.setTicket r k v)
    (hv : fill (cap (entries s.mem.expected r) k) s.mem.phase v = (score s).filled r k + 1) :
    (score s').filled = ((score s).place r k).filled := by
  funext q j
  by_cases hq : q = r
  · subst hq
    by_cases hj : j = k
    · subst hj
      simpa [score, Score.place, h, Shared.setTicket] using hv
    · simp [score, Score.place, h, Shared.setTicket, hj]
  · simp [score, Score.place, h, Shared.setTicket, hq]

omit [DecidableEq ι] in
/-- A thread begins a round, or is the champion. -/
theorem score_play (hfilled : (score s').filled = T.filled)
    (hb : ∀ q, total (At.between q) s' = T.between q + (play call a).between q)
    (hc : total At.champion s' = T.champions + (play call a).champion) (ha : a.expected = entries n a.round) :
    score s' = T.enter n a.round := by
  rw [Score.enter, ← ha]
  by_cases hmore : 1 < a.expected
  · rw [if_pos hmore]
    refine Score.ext hfilled (funext fun q => ?_) ?_
    · show total (At.between q) s' = Function.update T.between a.round (T.between a.round + 1) q
      rw [hb, play_between, if_pos hmore]
      by_cases hq : a.round = q
      · rw [if_pos hq, hq, Function.update_self]
      · rw [if_neg hq, Function.update_of_ne (Ne.symm hq), Nat.add_zero]
    · show total At.champion s' = _
      rw [hc, play_champion, if_pos hmore, Nat.add_zero]
  · rw [if_neg hmore]
    refine Score.ext hfilled (funext fun q => ?_) ?_
    · show total (At.between q) s' = _
      rw [hb, play_between, if_neg hmore, Nat.add_zero]
    · show total At.champion s' = _
      rw [hc, play_champion, if_neg hmore]

omit [DecidableEq ι] in
theorem score_filled_of (hexp : s'.mem.expected = s.mem.expected) (hphase : s'.mem.phase = s.mem.phase)
    (hticket : s'.mem.ticket = s.mem.ticket) : (score s').filled = (score s).filled := by
  simp only [score, hexp, hphase, hticket]

namespace Gathering

variable (g : Gathering s)

include g

omit [DecidableEq ι] in
/-- A thread has not gone past all tickets of its round. -/
theorem passed_lt (h : SeatOk s.mem a more) (hn : 0 < total (At.between a.round) s) : a.passed < a.endNode := by
  obtain ⟨start, hstart, hcur, hp⟩ := h.passed
  obtain ⟨entered, hentered, hstanding⟩ := g.standing
  have hbegun := g.begun
  obtain ⟨k, hk, hroom⟩ := hstanding.room (by omega) (h.expected ▸ h.active) hn
  rw [← h.endNode_eq] at hk
  by_contra hall
  have hticket := hp ((k + a.endNode - start) % a.endNode) (Nat.lt_of_lt_of_le (Nat.mod_lt _ (by omega)) (Nat.not_lt.mp hall))
  have hround : (start + (k + a.endNode - start) % a.endNode) % a.endNode = k := by
    rw [Nat.add_mod_mod, show start + (k + a.endNode - start) = k + a.endNode by omega, Nat.add_mod_right, Nat.mod_eq_of_lt hk]
  rw [hround] at hticket
  have hfull : (score s).filled a.round k = cap (entries s.mem.expected a.round) k := by
    show fill _ _ _ = _
    rw [hticket, (fill_eq _ _).2.2]
  omega

/-- Nobody comes to a ticket or leaves one. -/
theorem quiet (hm : Moved s s' t c d) (hexp : s'.mem.expected = s.mem.expected) (hphase : s'.mem.phase = s.mem.phase)
    (hticket : s'.mem.ticket = s.mem.ticket) (hb : ∀ r, d.between r = c.between r) (hc : d.champion = c.champion)
    (hpending : d.pending + s.mem.begun = c.pending + s'.mem.begun) (hbegun : s'.mem.begun ≤ s.mem.expected)
    (hdrop : d.dropping + (s.mem.adjustment + s.mem.begun) ≤ c.dropping + (s'.mem.adjustment + s'.mem.begun)) :
    Gathering s' where
  tickets r k hu := by
    unfold Used TicketOk at *
    rw [hexp] at hu
    rw [hexp, hphase, hticket]
    exact g.tickets r k hu
  begun := hexp ▸ hbegun
  standing := by
    obtain ⟨entered, hentered, hstanding⟩ := g.standing
    have hscore : score s' = score s := by
      refine Score.ext (score_filled_of hexp hphase hticket) (funext fun q => ?_) ?_
      · have := hm.total (At.between q)
        rw [hb] at this
        exact Nat.add_right_cancel this
      · have := hm.total At.champion
        rw [hc] at this
        exact Nat.add_right_cancel this
    have := hm.total At.pending
    exact ⟨entered, by omega, by rwa [hscore, hexp]⟩
  dropped := by
    have h := g.dropped
    have := hm.total At.dropping
    omega

/-- A thread comes to the first round. -/
theorem enter (hm : Moved s s' t (.enter call) (play call a)) (hmem : s'.mem = s.mem) (hround : a.round = 0)
    (ha : a.expected = s.mem.expected) : Gathering s' where
  tickets := hmem.symm ▸ g.tickets
  begun := hmem.symm ▸ g.begun
  standing := by
    obtain ⟨entered, hentered, hstanding⟩ := g.standing
    have hscore : score s' = (score s).enter s.mem.expected 0 := by
      rw [← hround]
      refine score_play (by simp only [score, hmem]) (fun q => hm.total (At.between q)) (hm.total At.champion) ?_
      rw [ha, hround, entries]
    have hpending := hm.total At.pending
    rw [play_pending, show (At.enter call).pending = call.left + 1 from rfl] at hpending
    refine ⟨entered + 1, by rw [hmem]; omega, ?_⟩
    rw [hscore, hmem]
    exact hstanding.enter
  dropped := by
    have hdrop := hm.total At.dropping
    rw [play_counts.2.2, show (At.enter call).dropping = 0 from rfl] at hdrop
    have := g.dropped
    rw [hmem]
    omega

omit [DecidableEq ι] in
theorem setTicket_ok (hmem : s'.mem = s.mem.setTicket r k v)
    (hv : v = s.mem.phase + 2 ∨ v = s.mem.phase + 1 ∧ cap (entries s.mem.expected r) k = 2) (q j : Nat)
    (hu : Used s'.mem q j) : TicketOk s'.mem q j := by
  rw [hmem] at hu ⊢
  have hold := g.tickets q j hu
  unfold TicketOk Shared.setTicket at *
  by_cases hq : q = r
  · subst hq
    by_cases hj : j = k
    · subst hj
      simp only [Function.update_self]
      exact .inr hv
    · simpa only [Function.update_self, Function.update_of_ne hj] using hold
  · simpa only [Function.update_of_ne hq] using hold

/-- The first one of two leaves its mark. -/
theorem place (hm : Moved s s' t (.first call a) (loop call call.left))
    (hmem : s'.mem = s.mem.setTicket a.round a.current (s.mem.phase + 1)) (hseat : SeatOk s.mem a more) (ha : ¬ a.Sole)
    (ht : s.mem.ticket a.round a.current = s.mem.phase) : Gathering s' := by
  have hcap : cap (entries s.mem.expected a.round) a.current = 2 := by rw [hseat.cap_eq, if_neg ha]
  have hempty : (score s).filled a.round a.current = 0 := by
    show fill _ _ _ = 0
    rw [ht, (fill_eq _ _).1]
  have hfill := score_filled_setTicket hmem (by rw [hempty]; exact (fill_eq _ _).2.1)
  obtain ⟨hb, hc, -, -, hd⟩ := loop_counts call call.left
  have hone : total (At.between a.round) s' + 1 = total (At.between a.round) s := by
    have := hm.total (At.between a.round)
    rw [hb, show (At.first call a).between a.round = 1 from if_pos rfl] at this
    omega
  obtain ⟨hactive, hk⟩ := hseat.used
  obtain ⟨entered, hentered, hstanding⟩ := g.standing
  refine ⟨g.setTicket_ok hmem (.inr ⟨rfl, hcap⟩), hmem.symm ▸ g.begun, ⟨entered, ?_, ?_⟩, ?_⟩
  · have hpending := hm.total At.pending
    rw [loop_pending, show (At.first call a).pending = call.left from rfl] at hpending
    rw [hmem]
    show _ = s.mem.begun
    omega
  · have hscore : score s' = (score s).place a.round a.current := by
      refine Score.ext hfill (funext fun q => ?_) ?_
      · show total (At.between q) s' = Function.update (score s).between a.round ((score s).between a.round - 1) q
        by_cases hq : q = a.round
        · subst hq
          rw [Function.update_self]
          show _ = total (At.between a.round) s - 1
          omega
        · have := hm.total (At.between q)
          rw [hb, show (At.first call a).between q = 0 from if_neg (Ne.symm hq)] at this
          rw [Function.update_of_ne hq]
          exact this
      · have := hm.total At.champion
        rw [hc, show (At.first call a).champion = 0 from rfl] at this
        exact this
    have hroom : (score s).filled a.round a.current + 1 < cap (entries s.mem.expected a.round) a.current := by omega
    rw [hscore, hmem]
    exact hstanding.place hactive hk (show 0 < total (At.between a.round) s by omega) hroom
  · have hdrop := hm.total At.dropping
    rw [hd, show (At.first call a).dropping = 0 from rfl] at hdrop
    have := g.dropped
    rw [hmem]
    show _ ≤ s.mem.adjustment + s.mem.begun
    omega

/-- The last one at a ticket goes on. -/
theorem advance (hm : Moved s s' t c (play call a.tried.win)) (hcs : c = .first call a ∨ c = .second call a)
    (hmem : s'.mem = s.mem.setTicket a.round a.current (s.mem.phase + 2)) (hseat : SeatOk s.mem a more)
    (ht : (score s).filled a.round a.current + 1 = cap (entries s.mem.expected a.round) a.current) : Gathering s' := by
  have hfill := score_filled_setTicket hmem ((fill_eq _ _).2.2.trans ht.symm)
  have hcounts : (∀ q, c.between q = if a.round = q then 1 else 0) ∧ c.champion = 0 ∧ c.pending = call.left ∧
      c.dropping = 0 := by
    rcases hcs with rfl | rfl <;> exact ⟨fun _ => rfl, rfl, rfl, rfl⟩
  obtain ⟨hb, hc, hp, hd⟩ := hcounts
  have hone : 0 < total (At.between a.round) s := by
    have := le_total (s := s) (At.between a.round) t
    rw [hm.start, hb, if_pos rfl] at this
    exact this
  obtain ⟨hactive, hk⟩ := hseat.used
  obtain ⟨entered, hentered, hstanding⟩ := g.standing
  refine ⟨g.setTicket_ok hmem (.inl rfl), hmem.symm ▸ g.begun, ⟨entered, ?_, ?_⟩, ?_⟩
  · have hpending := hm.total At.pending
    rw [play_pending, hp] at hpending
    rw [hmem]
    show _ = s.mem.begun
    omega
  · have hbetween : ∀ q, total (At.between q) s' =
        ((score s).place a.round a.current).between q + (play call a.tried.win).between q := by
      intro q
      have := hm.total (At.between q)
      show _ = Function.update (score s).between a.round ((score s).between a.round - 1) q + _
      by_cases hq : q = a.round
      · subst hq
        rw [hb, if_pos rfl] at this
        rw [Function.update_self]
        show _ = total (At.between a.round) s - 1 + _
        omega
      · rw [hb, if_neg (Ne.symm hq), Nat.add_zero] at this
        rw [Function.update_of_ne hq]
        exact this
    have hchampion : total At.champion s' = ((score s).place a.round a.current).champions + (play call a.tried.win).champion := by
      have := hm.total At.champion
      rw [hc] at this
      exact this
    have hscore : score s' = ((score s).place a.round a.current).enter s.mem.expected (a.round + 1) :=
      score_play hfill hbetween hchampion hseat.endNode_eq
    rw [hscore, hmem]
    exact hstanding.advance hactive hk hone ht
  · have hdrop := hm.total At.dropping
    rw [play_counts.2.2, hd] at hdrop
    have := g.dropped
    rw [hmem]
    show _ ≤ s.mem.adjustment + s.mem.begun
    omega

omit [DecidableEq ι] in
/-- A champion is the only one; all threads have arrived, and all tickets are full. -/
theorem won (h : 0 < total At.champion s) : total At.champion s = 1 ∧ total At.pending s = 0 ∧
    s.mem.begun = s.mem.expected ∧ (∀ r, 1 < entries s.mem.expected r → total (At.between r) s = 0) ∧
    ∀ r k, Used s.mem r k → s.mem.ticket r k = s.mem.phase + 2 := by
  obtain ⟨entered, hentered, hstanding⟩ := g.standing
  have hbegun := g.begun
  have hpos : 0 < s.mem.expected := by
    by_contra hzero
    have hstart := hstanding.start
    rw [Score.reached, if_neg (by rw [entries]; omega)] at hstart
    have : (score s).champions = total At.champion s := rfl
    omega
  obtain ⟨hone, hall, hrounds⟩ := hstanding.won (by omega) hpos h
  refine ⟨hone, by omega, by omega, fun r hr => (hrounds r hr).1, fun r k hu => ?_⟩
  have hfill : fill (cap (entries s.mem.expected r) k) s.mem.phase (s.mem.ticket r k) = cap (entries s.mem.expected r) k :=
    (hrounds r hu.1).2 k hu.2
  rcases g.tickets r k hu with ht | ht | ⟨ht, hcap⟩
  · rw [ht, (fill_eq _ _).1, cap] at hfill
    split at hfill <;> omega
  · exact ht
  · rw [ht, (fill_eq _ _).2.1, hcap] at hfill
    omega

end Gathering

/-- Nobody comes to `arrive`. -/
theorem Closing.quiet (h : Closing s) (hm : Moved s s' t c d) (hmem : s'.mem = s.mem) (hb : ∀ r, d.between r = c.between r)
    (hc : d.champion = c.champion) (hpending : d.pending = c.pending) (hd : ∀ e, d = .publish e → c = d) : Closing s' where
  tickets := hmem.symm ▸ h.tickets
  begun := hmem.symm ▸ h.begun
  pending := by
    have := hm.total At.pending
    have := h.pending
    omega
  between r := by
    have := hm.total (At.between r)
    rw [hb] at this
    have := h.between r
    omega
  champion := by
    have := hm.total At.champion
    have := h.champion
    omega
  adjustment u e he := by
    rw [hmem]
    by_cases hu : u = t
    · rw [hu, hm.stop] at he
      exact h.adjustment t e (by rw [hm.start, hd e he, he])
    · exact h.adjustment u e (hm.others u hu ▸ he)

namespace Ok

variable (ok : Ok n s)

include ok

/-- Of the steps that change neither the phase nor the number of the expected. -/
theorem keep (hm : Moved s s' t c d) (hexp : s'.mem.expected = s.mem.expected) (hnow : s'.mem.now = s.mem.now)
    (hadj : s'.mem.adjustment ≤ 0) (hcomp : s'.mem.completed + c.finishing = s.mem.completed + d.finishing)
    (hfull : ∀ r k, s.mem.ticket r k = s.mem.phase + 2 → s'.mem.ticket r k = s.mem.phase + 2)
    (hused : ∀ r k, s.mem.ticket r k ≠ s.mem.phase → s'.mem.ticket r k ≠ s.mem.phase) (hd : d.Ok s'.mem)
    (hstage : total At.closing s' = 0 ∧ Gathering s' ∨ total At.closing s' = 1 ∧ Closing s') : Ok n s' where
  phase := by
    obtain ⟨hphase, hepoch⟩ := Token.mk.inj hnow
    rw [hphase, hepoch, ok.phase]
  adjustment := hadj
  expected := hexp ▸ ok.expected
  completed := by
    obtain ⟨-, hepoch⟩ := Token.mk.inj hnow
    have := hm.total At.finishing
    have := ok.completed
    omega
  threads := hm.forall ok.threads hd fun e he => he.mono hexp hnow hfull hused
  stage := hstage

/-- A thread in `arrive` that does not complete the phase. -/
theorem gathers (hpc : (s.thr t).place = c) (h : 0 < c.pending + c.champion ∨ ∃ r, 0 < c.between r) :
    total At.closing s = 0 ∧ Gathering s := by
  refine ok.stage.resolve_right fun ⟨_, hc⟩ => ?_
  rcases h with h | ⟨r, h⟩
  · have hp := eq_zero_of_total hc.pending t
    have hch := eq_zero_of_total hc.champion t
    rw [hpc] at hp hch
    omega
  · have hb := eq_zero_of_total (hc.between r) t
    rw [hpc] at hb
    omega

theorem closes (hpc : (s.thr t).place = c) (h : 0 < c.closing) : total At.closing s = 1 ∧ Closing s := by
  refine ok.stage.resolve_left fun ⟨hz, _⟩ => ?_
  have := eq_zero_of_total hz t
  rw [hpc] at this
  omega

omit [DecidableEq ι] in
theorem total_between_inactive {r : Nat} (hr : ¬ 1 < entries s.mem.expected r) : total (At.between r) s = 0 := by
  refine Finset.sum_eq_zero fun u _ => ?_
  have hu := ok.threads u
  have hseat : ∀ (a : Seat) more, SeatOk s.mem a more → a.round ≠ r := by
    rintro a more h rfl
    exact hr (h.expected ▸ h.active)
  cases hpc : (s.thr u).place with
  | first c a =>
    rw [hpc] at hu
    exact if_neg (hseat a 0 hu.2)
  | second c a =>
    rw [hpc] at hu
    exact if_neg (hseat a 1 hu.2.1)
  | idle | drop | load | enter | complete | adjust | clear | publish | notify | wait | passed => rfl

/-- A step of a thread that does not touch the barrier, and counts where it was counted. -/
theorem quiet (hm : Moved s s' t c d) (hmem : s'.mem = s.mem) (hb : ∀ r, d.between r = c.between r)
    (hcounts : d.pending = c.pending ∧ d.champion = c.champion ∧ d.closing = c.closing ∧ d.finishing = c.finishing ∧
      d.dropping = c.dropping) (hpublish : ∀ e, d = .publish e → c = d) (hd : d.Ok s.mem) : Ok n s' := by
  obtain ⟨hp, hc, hcl, hf, hdr⟩ := hcounts
  refine ok.keep hm (by rw [hmem]) (by rw [hmem]) (hmem ▸ ok.adjustment) (by rw [hmem, hf])
    (fun r k h => by rwa [hmem]) (fun r k h => by rwa [hmem]) (hmem ▸ hd) ?_
  have hclosing := hm.total At.closing
  rw [hcl] at hclosing
  refine ok.stage.imp (fun ⟨hz, g⟩ => ⟨by omega, ?_⟩) fun ⟨hz, h⟩ => ⟨by omega, h.quiet hm hmem hb hc hp hpublish⟩
  exact g.quiet hm (by rw [hmem]) (by rw [hmem]) (by rw [hmem]) hb hc (by rw [hp, hmem]) (hmem ▸ g.begun) (by rw [hdr, hmem])

theorem starts {o : Op} (hm : Moved s s' t c o.start) (hc : act c = .idle)
    (hmem : s'.mem = { s.mem with begun := s.mem.begun + o.arrivals }) (ha : o.Allowed s.mem) : Ok n s' := by
  have hidle : (∀ r, c.between r = 0) ∧ c.champion = 0 ∧ c.pending = 0 ∧ c.closing = 0 ∧ c.finishing = 0 ∧
      c.dropping = 0 := by
    cases c with
    | idle | passed => exact ⟨fun _ => rfl, rfl, rfl, rfl, rfl, rfl⟩
    | drop | load | enter | first | second | complete | adjust | clear | publish | notify | wait => cases hc
  obtain ⟨hb, hch, hp, hcl, hf, hdr⟩ := hidle
  have hstart : (∀ r, o.start.between r = 0) ∧ o.start.champion = 0 ∧ o.start.pending = o.arrivals ∧
      o.start.closing = 0 ∧ o.start.finishing = 0 ∧ o.start.dropping ≤ o.arrivals := by
    cases o <;> exact ⟨fun _ => rfl, rfl, rfl, rfl, rfl, by simp [Op.start, At.dropping, Op.arrivals]⟩
  obtain ⟨hb', hch', hp', hcl', hf', hdr'⟩ := hstart
  have hd : o.start.Ok s'.mem := by
    rw [hmem]
    cases o with
    | arrive hash update => exact ha.1
    | arriveAndWait hash => exact Nat.zero_lt_one
    | arriveAndDrop hash => trivial
    | wait token => exact ha
  have hbegun : o.arrivals = 0 ∨ s.mem.begun + o.arrivals ≤ s.mem.expected := by
    cases o with
    | wait token => exact .inl rfl
    | arrive | arriveAndWait | arriveAndDrop => exact .inr ha.2
  refine ok.keep hm (by rw [hmem]) (by rw [hmem]; rfl) (hmem ▸ ok.adjustment) (by rw [hmem, hf, hf'])
    (fun r k h => by rwa [hmem]) (fun r k h => by rwa [hmem]) hd ?_
  have hclosing := hm.total At.closing
  rcases ok.stage with ⟨hz, g⟩ | ⟨hz, h⟩
  · refine .inl ⟨by omega, g.quiet hm (by rw [hmem]) (by rw [hmem]) (by rw [hmem]) (fun r => by rw [hb, hb'])
      (by rw [hch, hch']) ?_ ?_ ?_⟩
    · rw [hmem, hp, hp']
      show _ = 0 + (s.mem.begun + o.arrivals)
      omega
    · have := g.begun
      rw [hmem]
      show s.mem.begun + o.arrivals ≤ _
      omega
    · rw [hmem, hdr]
      show _ ≤ (0 : Nat) + (s.mem.adjustment + (s.mem.begun + o.arrivals : Nat))
      omega
  · have hnone : o.arrivals = 0 := by
      cases o with
      | wait token => rfl
      | arrive | arriveAndWait | arriveAndDrop =>
        have h₁ := ha.1
        have h₂ := ha.2
        have h₃ := h.begun
        omega
    refine .inr ⟨by omega, h.quiet hm (by rw [hmem, hnone]; rfl) (fun r => by rw [hb, hb']) (by rw [hch, hch'])
      (by omega) fun e he => ?_⟩
    cases o <;> cases he

/-- Arrivals go on. -/
theorem arrives (hm : Moved s s' t c d) (hpc : 0 < c.pending + c.champion ∨ ∃ r, 0 < c.between r)
    (hexp : s'.mem.expected = s.mem.expected) (hnow : s'.mem.now = s.mem.now) (hadj : s'.mem.adjustment ≤ 0)
    (hcomp : s'.mem.completed + c.finishing = s.mem.completed + d.finishing)
    (hfull : ∀ r k, s.mem.ticket r k = s.mem.phase + 2 → s'.mem.ticket r k = s.mem.phase + 2)
    (hused : ∀ r k, s.mem.ticket r k ≠ s.mem.phase → s'.mem.ticket r k ≠ s.mem.phase) (hd : d.Ok s'.mem)
    (hclosing : d.closing = 0) (hg : Gathering s → Gathering s') : Ok n s' := by
  obtain ⟨hz, g⟩ := ok.gathers hm.start hpc
  have := hm.total At.closing
  exact ok.keep hm hexp hnow hadj hcomp hfull hused hd (.inl ⟨by omega, hg g⟩)

/-- `_M_expected` is changed by the only thread left in `arrive`. -/
theorem adjust (hm : Moved s s' t (.adjust call) (.clear call))
    (hmem : s'.mem = { s.mem with expected := (s.mem.expected + s.mem.adjustment).toNat }) : Ok n s' := by
  obtain ⟨hz, g⟩ := ok.gathers hm.start (.inl (Nat.lt_of_lt_of_le Nat.zero_lt_one (Nat.le_add_left _ _)))
  have hchampion : 0 < total At.champion s := by
    have := le_total (s := s) At.champion t
    rw [hm.start] at this
    exact this
  obtain ⟨hone, hpending, hbegun, hrounds, hfull⟩ := g.won hchampion
  have hbetween : ∀ r, total (At.between r) s = 0 := fun r =>
    if hr : 1 < entries s.mem.expected r then hrounds r hr else ok.total_between_inactive hr
  have hle : s'.mem.expected ≤ s.mem.expected := by
    have := ok.adjustment
    rw [hmem]
    show (_ : Int).toNat ≤ _
    omega
  have hmono : ∀ r, entries s'.mem.expected r ≤ entries s.mem.expected r := fun r => entries_mono hle
  have hothers : ∀ u ≠ t, (s.thr u).place.champion = 0 := fun u hu =>
    eq_zero_of_ne (by rw [hone, hm.start]; rfl) hu
  refine ⟨by rw [hmem]; exact ok.phase, by rw [hmem]; exact ok.adjustment, hle.trans ok.expected, ?_, fun u => ?_, .inr ⟨?_, ?_⟩⟩
  · have := hm.total At.finishing
    rw [show (At.clear call).finishing = (At.adjust call).finishing from rfl] at this
    have := ok.completed
    rw [hmem]
    show s.mem.completed = s.mem.epoch + _
    omega
  · by_cases hu : u = t
    · have hown := ok.threads t
      rw [hm.start] at hown
      rw [hu, hm.stop, hmem]
      exact hown
    · have hold := ok.threads u
      have hb : ∀ r, (s.thr u).place.between r = 0 := fun r => eq_zero_of_total (hbetween r) u
      rw [hm.others u hu, hmem]
      cases hpc : (s.thr u).place with
      | first c a =>
        rw [hpc] at hb
        exact absurd (hb a.round) (by simp [At.between])
      | second c a =>
        rw [hpc] at hb
        exact absurd (hb a.round) (by simp [At.between])
      | idle | drop | load | enter | complete | adjust | clear | publish | notify | wait | passed =>
        rw [hpc] at hold
        exact hold
  · have := hm.total At.closing
    rw [show (At.clear call).closing = 1 from rfl, show (At.adjust call).closing = 0 from rfl] at this
    omega
  · refine ⟨fun r k hu => ?_, by rw [hbegun.symm] at hle; rw [hmem] at hle ⊢; exact hle, ?_, fun r => ?_, ?_, fun u e he => ?_⟩
    · have hold : Used s.mem r k := ⟨hu.1.trans_le (hmono r), hu.2.trans_le (hmono (r + 1))⟩
      rw [hmem]
      exact hfull r k hold
    · have := hm.total At.pending
      rw [show (At.clear call).pending = (At.adjust call).pending from rfl] at this
      omega
    · have := hm.total (At.between r)
      rw [show (At.clear call).between r = 0 from rfl, hbetween] at this
      omega
    · have := hm.total At.champion
      rw [show (At.clear call).champion = 0 from rfl, show (At.adjust call).champion = 1 from rfl] at this
      omega
    · by_cases hu : u = t
      · rw [hu, hm.stop] at he
        cases he
      · have := eq_zero_of_total hz u
        rw [← hm.others u hu, he] at this
        cases this

theorem clear (hm : Moved s s' t (.clear call) (.publish call)) (hmem : s'.mem = { s.mem with adjustment := 0 }) :
    Ok n s' := by
  obtain ⟨hz, h⟩ := ok.closes hm.start Nat.zero_lt_one
  have hown := ok.threads t
  rw [hm.start] at hown
  refine ok.keep hm (by rw [hmem]) (by rw [hmem]; rfl) (by rw [hmem]) (by rw [hmem]; rfl)
    (fun r k h => by rwa [hmem]) (fun r k h => by rwa [hmem]) (by rw [hmem]; exact hown) (.inr ⟨?_, ?_⟩)
  · have := hm.total At.closing
    rw [show (At.publish call).closing = (At.clear call).closing from rfl] at this
    omega
  · refine ⟨by rw [hmem]; exact h.tickets, by rw [hmem]; exact h.begun, ?_, fun r => ?_, ?_, fun u e he => by rw [hmem]⟩
    · have := hm.total At.pending
      rw [show (At.publish call).pending = (At.clear call).pending from rfl] at this
      have := h.pending
      omega
    · have := hm.total (At.between r)
      rw [show (At.publish call).between r = (At.clear call).between r from rfl] at this
      have := h.between r
      omega
    · have := hm.total At.champion
      rw [show (At.publish call).champion = (At.clear call).champion from rfl] at this
      have := h.champion
      omega

/-- The next phase begins, with nobody in `arrive`. -/
theorem publish (hm : Moved s s' t (.publish call) (.notify call))
    (hmem : s'.mem = { s.mem with phase := call.token.phase + 2, begun := 0, epoch := s.mem.epoch + 1 }) : Ok n s' := by
  obtain ⟨hz, h⟩ := ok.closes hm.start Nat.zero_lt_one
  have hown := ok.threads t
  rw [hm.start] at hown
  have htoken : call.token = s.mem.now := hown
  have hphase : s'.mem.phase = s.mem.phase + 2 := by
    rw [hmem, htoken]
    rfl
  have hleft : call.left = 0 := by
    have := eq_zero_of_total h.pending t
    rw [hm.start] at this
    exact this
  have hothers : ∀ u ≠ t, (s.thr u).place.closing = 0 := fun u hu => eq_zero_of_ne (by rw [hz, hm.start]; rfl) hu
  have hpending : total At.pending s' = 0 := by
    have := hm.total At.pending
    rw [show (At.notify call).pending = (At.publish call).pending from rfl] at this
    have := h.pending
    omega
  have hbetween : ∀ r, total (At.between r) s' = 0 := fun r => by
    have := hm.total (At.between r)
    rw [show (At.notify call).between r = (At.publish call).between r from rfl] at this
    have := h.between r
    omega
  have hchampion : total At.champion s' = 0 := by
    have := hm.total At.champion
    rw [show (At.notify call).champion = (At.publish call).champion from rfl] at this
    have := h.champion
    omega
  have hdated : ∀ token : Token, token.Dated s.mem.epoch → token.Dated (s.mem.epoch + 1) := fun token hd =>
    ⟨hd.1, Nat.le_succ_of_le hd.2⟩
  refine ⟨?_, ?_, by rw [hmem]; exact ok.expected, ?_, fun u => ?_, .inl ⟨?_, ?_⟩⟩
  · rw [hphase, ok.phase, hmem]
    show BitVec.ofNat 8 (2 * s.mem.epoch) + BitVec.ofNat 8 2 = BitVec.ofNat 8 (2 * (s.mem.epoch + 1))
    rw [← BitVec.ofNat_add]
    rfl
  · rw [hmem]
    exact ok.adjustment
  · have := hm.total At.finishing
    rw [show (At.notify call).finishing = 0 from rfl, show (At.publish call).finishing = 1 from rfl] at this
    have := ok.completed
    rw [hmem]
    show s.mem.completed = s.mem.epoch + 1 + _
    omega
  · by_cases hu : u = t
    · rw [hu, hm.stop, hmem]
      exact ⟨hleft, hdated _ (htoken ▸ now_dated ok.phase)⟩
    · have hold := ok.threads u
      have hp := eq_zero_of_total h.pending u
      have hb := fun r => eq_zero_of_total (h.between r) u
      have hc := eq_zero_of_total h.champion u
      have hcl := hothers u hu
      rw [hm.others u hu, hmem]
      cases hpc : (s.thr u).place <;> rw [hpc] at hold hp hb hc hcl
      case idle | drop => trivial
      case load => exact hold
      case notify c => exact ⟨hold.1, hdated _ hold.2⟩
      case wait token => exact hdated _ hold
      case passed token => exact Nat.lt_succ_of_lt hold
      case enter => cases hp
      case first c a | second c a => exact absurd (hb a.round) (by simp [At.between])
      case complete | adjust => cases hc
      case clear | publish => cases hcl
  · have := hm.total At.closing
    rw [show (At.notify call).closing = 0 from rfl, show (At.publish call).closing = 1 from rfl] at this
    omega
  · have htickets : ∀ r k, Used s'.mem r k → s'.mem.ticket r k = s'.mem.phase := fun r k hu => by
      rw [hphase, hmem]
      rw [hmem] at hu
      exact h.tickets r k hu
    refine ⟨fun r k hu => .inl (htickets r k hu), by rw [hmem]; exact Nat.zero_le _, ⟨0, ?_, ?_⟩, ?_⟩
    · rw [hpending, hmem]
    · refine Score.standing_zero (fun r k hr hk => ?_) hbetween hchampion
      show fill _ _ _ = 0
      rw [htickets r k ⟨hr, hk⟩, (fill_eq _ _).1]
    · have hle : total At.dropping s' ≤ total At.pending s' := Finset.sum_le_sum fun u _ => by
        cases (s'.thr u).place <;> simp [At.dropping, At.pending]
      have hadj : s'.mem.adjustment = 0 := by
        rw [hmem]
        exact h.adjustment t call hm.start
      have hbegun : s'.mem.begun = 0 := by rw [hmem]
      omega

/-- The last one at a ticket goes on. -/
theorem advances (hm : Moved s s' t c (play call a.tried.win)) (hcs : c = .first call a ∨ c = .second call a)
    (htoken : call.token = s.mem.now) (hmem : s'.mem = s.mem.setTicket a.round a.current (call.token.phase + 2))
    (hseat : SeatOk s.mem a more) (hmore : more ≤ 1) (ht : s.mem.ticket a.round a.current ≠ s.mem.phase + 2)
    (hfill : (score s).filled a.round a.current + 1 = cap (entries s.mem.expected a.round) a.current) : Ok n s' := by
  obtain ⟨-, hp₂, -⟩ := phase_ne s.mem.phase
  have hmem' : s'.mem = s.mem.setTicket a.round a.current (s.mem.phase + 2) := by
    rw [hmem, htoken]
    rfl
  obtain ⟨hfull, hused⟩ := setTicket_keeps ht (Ne.symm hp₂)
  have hcounts : 0 < c.between a.round ∧ c.finishing = 0 := by
    rcases hcs with rfl | rfl <;> exact ⟨by simp [At.between], rfl⟩
  obtain ⟨hb, hf⟩ := hcounts
  obtain ⟨-, g⟩ := ok.gathers hm.start (.inr ⟨_, hb⟩)
  have hpassed : a.passed < a.endNode := by
    refine g.passed_lt hseat ?_
    have := le_total (s := s) (At.between a.round) t
    rw [hm.start] at this
    exact hb.trans_le this
  refine ok.arrives hm (.inr ⟨_, hb⟩) (by rw [hmem']; rfl) (by rw [hmem']; rfl) (by rw [hmem']; exact ok.adjustment)
    (by rw [hmem', hf, play_counts.2.1]; rfl) (by rw [hmem']; exact hfull) (by rw [hmem']; exact hused) ?_ play_counts.1
    fun g => g.advance hm hcs hmem' hseat hfill
  refine play_ok (htoken.trans (by rw [hmem']; rfl)) fun hend => ?_
  refine (hseat.win hmore hpassed hend).mono (by rw [hmem']; rfl) (by rw [hmem']; rfl) ?_
  rw [hmem']
  exact hfull

theorem step (ha : Allowed s l) (h : Barrier.step cfg s l = some s') : Ok n s' := by
  obtain ⟨c, d, hm, hmove⟩ := step_moves ha h
  have hown := ok.threads l.thread
  rw [hm.start] at hown
  obtain ⟨hp₁, hp₂, hp₃⟩ := phase_ne s.mem.phase
  generalize hmem : s'.mem = m' at hmove
  cases hmove with
  | call hc ha => exact ok.starts hm hc hmem ha
  | adjust => exact ok.adjust hm hmem
  | clear => exact ok.clear hm hmem
  | publish => exact ok.publish hm hmem
  | stay => exact ok.quiet hm hmem (fun _ => rfl) ⟨rfl, rfl, rfl, rfl, rfl⟩ (fun _ _ => rfl) hown
  | drop =>
    refine ok.arrives hm (.inl Nat.zero_lt_one) (by rw [hmem]) (by rw [hmem]; rfl) ?_ (by rw [hmem]; rfl)
      (fun r k h => by rwa [hmem]) (fun r k h => by rwa [hmem]) Nat.zero_lt_one rfl fun g => ?_
    · have := ok.adjustment
      rw [hmem]
      show s.mem.adjustment - 1 ≤ 0
      omega
    · refine g.quiet hm (by rw [hmem]) (by rw [hmem]) (by rw [hmem]) (fun _ => rfl) rfl (by rw [hmem]; rfl)
        (hmem ▸ g.begun) ?_
      rw [hmem]
      show (0 : Int) + _ ≤ 1 + (s.mem.adjustment - 1 + s.mem.begun)
      omega
  | load =>
    rename_i hash andWait update
    obtain ⟨hb, hc, hcl, hf, hdr⟩ := loop_counts ⟨s.mem.now, hash, andWait, 0⟩ update
    refine ok.quiet hm hmem hb ⟨loop_pending, hc, hcl, hf, hdr⟩ (fun e he => ?_)
      (loop_ok (now_dated ok.phase) fun _ => rfl)
    rw [he] at hcl
    cases hcl
  | enter =>
    rename_i call
    have hne : 0 < (At.enter call).pending + (At.enter call).champion := Nat.lt_of_lt_of_le (Nat.succ_pos _) (Nat.le_add_right _ _)
    exact ok.arrives hm (.inl hne) (by rw [hmem]) (by rw [hmem]) (hmem ▸ ok.adjustment)
      (by rw [hmem, play_counts.2.1]; rfl) (fun r k h => by rwa [hmem]) (fun r k h => by rwa [hmem])
      (by rw [hmem]; exact play_ok hown fun h => seatOk_start _ h) play_counts.1 fun g => g.enter hm hmem rfl rfl
  | sole ht hsole =>
    obtain ⟨htoken, hseat⟩ := hown
    rw [htoken] at ht
    have ht : s.mem.ticket _ _ = s.mem.phase := ht
    refine ok.advances hm (.inl rfl) htoken hmem hseat (Nat.zero_le _) (ht ▸ hp₂) ?_
    show fill _ _ _ + 1 = _
    rw [ht, (fill_eq _ _).1, hseat.cap_eq, if_pos hsole]
  | firstOfTwo ht hsole =>
    rename_i call a
    obtain ⟨htoken, hseat⟩ := hown
    rw [htoken] at ht hmem
    have ht : s.mem.ticket a.round a.current = s.mem.phase := ht
    have hmem : s'.mem = s.mem.setTicket a.round a.current (s.mem.phase + 1) := hmem
    obtain ⟨hfull, hused⟩ := setTicket_keeps (r := a.round) (by rw [ht]; exact hp₂) (Ne.symm hp₁)
    obtain ⟨-, -, hcl, hf, -⟩ := loop_counts call call.left
    refine ok.arrives hm (.inr ⟨a.round, by simp [At.between]⟩) (by rw [hmem]; rfl) (by rw [hmem]; rfl)
      (by rw [hmem]; exact ok.adjustment) (by rw [hmem, hf]; rfl) (by rw [hmem]; exact hfull) (by rw [hmem]; exact hused)
      ?_ hcl fun g => g.place hm hmem hseat hsole ht
    rw [hmem]
    exact loop_ok (htoken ▸ now_dated ok.phase) fun _ => htoken
  | again ht hsole =>
    obtain ⟨htoken, hseat⟩ := hown
    rw [htoken] at ht
    have htries := hseat.tries
    refine ok.quiet hm hmem (fun _ => rfl) ⟨rfl, rfl, rfl, rfl, rfl⟩ (fun _ he => by cases he)
      ⟨htoken, ⟨hseat.expected, hseat.active, hseat.current, hseat.passed, Nat.succ_le_succ htries⟩, hsole, ?_⟩
    exact ht ▸ Ne.symm hp₁
  | past ht ht' =>
    rename_i call a
    obtain ⟨htoken, hseat⟩ := hown
    obtain ⟨-, g⟩ := ok.gathers hm.start (.inr ⟨a.round, by simp [At.between]⟩)
    rw [htoken] at ht ht'
    have hfull : s.mem.ticket a.round a.current = s.mem.phase + 2 := by
      rcases g.tickets _ _ hseat.used with h | h | ⟨h, hcap⟩
      · exact absurd h ht
      · exact h
      · rw [hseat.cap_eq] at hcap
        split at hcap
        · cases hcap
        · next hsole => exact absurd ⟨hsole, h⟩ ht'
    have hround : a.tried.next.round = a.round := by rw [Seat.next_eq]; rfl
    refine ok.quiet hm hmem (fun r => by rw [At.between, At.between, hround]) ⟨rfl, rfl, rfl, rfl, rfl⟩ (fun _ he => by cases he)
      ⟨htoken, hseat.next (Nat.zero_le _) hfull⟩
  | secondOfTwo ht =>
    obtain ⟨htoken, hseat, hsole, -⟩ := hown
    rw [htoken] at ht
    have ht : s.mem.ticket _ _ = s.mem.phase + 1 := ht
    refine ok.advances hm (.inr rfl) htoken hmem hseat (Nat.le_refl _) (ht ▸ hp₃) ?_
    show fill _ _ _ + 1 = _
    rw [ht, (fill_eq _ _).2.1, hseat.cap_eq, if_neg hsole]
  | late ht =>
    rename_i call a
    obtain ⟨htoken, hseat, hsole, hne⟩ := hown
    obtain ⟨-, g⟩ := ok.gathers hm.start (.inr ⟨a.round, by simp [At.between]⟩)
    rw [htoken] at ht
    have hfull : s.mem.ticket a.round a.current = s.mem.phase + 2 := by
      rcases g.tickets _ _ hseat.used with h | h | ⟨h, -⟩
      · exact absurd h hne
      · exact h
      · exact absurd h ht
    have hround : a.tried.next.round = a.round := by rw [Seat.next_eq]; rfl
    refine ok.quiet hm hmem (fun r => by rw [At.between, At.between, hround]) ⟨rfl, rfl, rfl, rfl, rfl⟩ (fun _ he => by cases he)
      ⟨htoken, hseat.next (Nat.le_refl _) hfull⟩
  | complete =>
    rename_i call
    refine ok.arrives hm (.inl (Nat.lt_of_lt_of_le Nat.zero_lt_one (Nat.le_add_left _ _))) (by rw [hmem]) (by rw [hmem]; rfl)
      (hmem ▸ ok.adjustment) (by rw [hmem]; rfl) (fun r k h => by rwa [hmem]) (fun r k h => by rwa [hmem])
      (by rw [hmem]; exact hown) rfl fun g => ?_
    exact g.quiet hm (by rw [hmem]) (by rw [hmem]) (by rw [hmem]) (fun _ => rfl) rfl (by rw [hmem]; rfl) (hmem ▸ g.begun)
      (by rw [hmem]; exact Int.le_refl _)
  | notified =>
    rename_i call
    obtain ⟨hb, hc, hcl, hf, hdr⟩ := loop_counts call call.left
    refine ok.quiet hm hmem hb ⟨loop_pending, hc, hcl, hf, hdr⟩ (fun e he => ?_)
      (loop_ok hown.2 fun hpos => absurd hown.1 (by omega))
    rw [he] at hcl
    cases hcl
  | woken hv =>
    rename_i token
    refine ok.quiet hm hmem (fun _ => rfl) ⟨rfl, rfl, rfl, rfl, rfl⟩ (fun _ he => by cases he) ?_
    obtain ⟨hphase, hepoch⟩ := hown
    refine lt_of_le_of_ne hepoch fun heq => hv ?_
    rw [ok.phase, hphase, heq]

omit [DecidableEq ι] ok in
theorem init : Ok n (Barrier.init ι n) := by
  have hzero : ∀ f : At → Nat, f .idle = 0 → total f (Barrier.init ι n) = 0 := fun f hf =>
    Finset.sum_eq_zero fun _ _ => hf
  refine ⟨rfl, Int.le_refl _, Nat.le_refl _, by rw [hzero _ rfl]; rfl, fun _ => trivial, .inl ⟨hzero _ rfl, ?_⟩⟩
  refine ⟨fun r k _ => .inl rfl, Nat.zero_le _, ⟨0, by rw [hzero _ rfl]; rfl, ?_⟩, by rw [hzero _ rfl]; rfl⟩
  exact Score.standing_zero (fun r k _ _ => (fill_eq (cap (entries n r) k) 0).1) (fun r => hzero _ rfl) (hzero _ rfl)

end Ok

end

end SharedPtr.Wait.Barrier
