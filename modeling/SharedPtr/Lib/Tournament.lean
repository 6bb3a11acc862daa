/-
A tournament of `n`: in each round the entrants are placed at nodes, two at
each, but for the last node of a round with an odd number of entrants, which
takes one. The last one placed at a node goes on to the next round, until a
round has one entrant.

However many have been placed where, one champion means that all `n` have
entered and all nodes are full (`Standing.won`), and once all have entered and
are placed there is one (`Standing.champion`).
-/
import Mathlib.Algebra.BigOperators.Ring.Finset
import Mathlib.Algebra.Order.BigOperators.Group.Finset
import SharedPtr.Lib.Tally

namespace SharedPtr.Lib.Tournament

open Finset

/-- The number of entrants of a round. -/
def entries (n : Nat) : Nat → Nat
  | 0 => n
  | r + 1 => (entries n r + 1) / 2

/-- How many node `k` takes in a round of `e` entrants. -/
def cap (e k : Nat) : Nat := if k + 1 = (e + 1) / 2 ∧ e % 2 = 1 then 1 else 2

variable {n m r q e k : Nat}

theorem entries_mono (h : n ≤ m) : entries n r ≤ entries m r := by
  induction r with
  | zero => exact h
  | succ r ih =>
    rw [entries, entries]
    omega

theorem entries_le (h : q ≤ r) : entries n r ≤ entries n q := by
  induction r, h using Nat.le_induction with
  | base => exact Nat.le_refl _
  | succ r _ ih =>
    rw [entries]
    omega

theorem entries_anti (h : q ≤ r) (hr : 1 < entries n r) : 1 < entries n q := hr.trans_le (entries_le h)

theorem entries_pos (hn : 0 < n) : 0 < entries n r := by
  induction r with
  | zero => exact hn
  | succ r ih =>
    rw [entries]
    omega

theorem entries_le_pow (h : n ≤ 2 ^ (m + r)) : entries n r ≤ 2 ^ m := by
  induction r generalizing m with
  | zero => exact h
  | succ r ih =>
    have hr := ih (m := m + 1) (by rwa [Nat.add_right_comm])
    rw [entries]
    omega

/-- The round of the champion. -/
theorem exists_final (hn : 0 < n) : ∃ R, entries n R = 1 ∧ ∀ q, 1 < entries n q ↔ q < R := by
  have hex : ∃ R, entries n R ≤ 1 :=
    ⟨n, entries_le_pow (m := 0) (by rw [Nat.zero_add]; exact Nat.lt_two_pow_self.le)⟩
  have hR := Nat.find_spec hex
  refine ⟨Nat.find hex, Nat.le_antisymm hR (entries_pos hn), fun q => ⟨fun hq => ?_, fun hq => ?_⟩⟩
  · by_contra hle
    have := entries_anti (Nat.le_of_not_lt hle) hq
    omega
  · have := Nat.find_min hex hq
    omega

theorem sum_cap (e : Nat) : ∑ k ∈ range ((e + 1) / 2), cap e k = e := by
  obtain ⟨j, rfl | rfl⟩ : ∃ j, e = 2 * j ∨ e = 2 * j + 1 := ⟨e / 2, by omega⟩
  · have hcap : ∀ k ∈ range ((2 * j + 1) / 2), cap (2 * j) k = 2 := fun k _ => if_neg (by omega)
    rw [sum_const_nat hcap, card_range]
    omega
  · have hnodes : (2 * j + 1 + 1) / 2 = j + 1 := by omega
    have hcap : ∀ k ∈ range j, cap (2 * j + 1) k = 2 := fun k hk => if_neg (by have := mem_range.mp hk; omega)
    have hlast : cap (2 * j + 1) j = 1 := if_pos (by omega)
    rw [hnodes, sum_range_succ, sum_const_nat hcap, card_range, hlast]
    omega

/-- How far a tournament is. -/
@[ext] structure Score where
  /-- Entrants placed at a node. -/
  filled : Nat → Nat → Nat
  /-- Entrants of a round still to be placed. -/
  between : Nat → Nat
  champions : Nat

namespace Score

variable (T : Score)

/-- Who has reached a round; the round of one is for champions. -/
def reached (n r : Nat) : Nat :=
  if 1 < entries n r then T.between r + ∑ k ∈ range (entries n (r + 1)), T.filled r k else T.champions

/-- The full nodes of a round. -/
def decided (n r : Nat) : Nat :=
  ∑ k ∈ range (entries n (r + 1)), if T.filled r k = cap (entries n r) k then 1 else 0

/-- `entered` have entered, and nobody was lost. -/
structure Standing (n entered : Nat) : Prop where
  filled_le : ∀ r k, 1 < entries n r → k < entries n (r + 1) → T.filled r k ≤ cap (entries n r) k
  start : entered = T.reached n 0
  next : ∀ r, 1 < entries n r → T.decided n r = T.reached n (r + 1)

end Score

variable {T : Score} {entered : Nat}

theorem decided_le : T.decided n r ≤ entries n (r + 1) := by
  have hle : ∀ k ∈ range (entries n (r + 1)), (if T.filled r k = cap (entries n r) k then 1 else 0) ≤ 1 := by
    intro k _
    split <;> omega
  have hsum := sum_le_sum hle
  rw [sum_const_nat (fun _ _ => rfl), card_range, Nat.mul_one] at hsum
  exact hsum

/-- All nodes of a round are full if and only if as many have been placed as have entered it. -/
theorem sum_filled_eq_iff (hle : ∀ k < entries n (r + 1), T.filled r k ≤ cap (entries n r) k) :
    ∑ k ∈ range (entries n (r + 1)), T.filled r k = entries n r ↔
      ∀ k < entries n (r + 1), T.filled r k = cap (entries n r) k := by
  have hcap := sum_cap (entries n r)
  rw [show (entries n r + 1) / 2 = entries n (r + 1) from rfl] at hcap
  conv_lhs => rw [← hcap]
  rw [sum_eq_sum_iff_of_le fun k hk => hle k (mem_range.mp hk)]
  simp

theorem decided_eq_iff :
    T.decided n r = entries n (r + 1) ↔ ∀ k < entries n (r + 1), T.filled r k = cap (entries n r) k := by
  have hle : ∀ k ∈ range (entries n (r + 1)), (if T.filled r k = cap (entries n r) k then 1 else 0) ≤ 1 := by
    intro k _
    split <;> omega
  have hone : entries n (r + 1) = ∑ k ∈ range (entries n (r + 1)), 1 := by simp
  rw [Score.decided]
  conv_lhs => rhs; rw [hone]
  rw [sum_eq_sum_iff_of_le hle]
  simp

namespace Score.Standing

variable (h : T.Standing n entered) (hn : entered ≤ n)

include h hn

theorem reached_le (hr : ∀ q < r, 1 < entries n q) : T.reached n r ≤ entries n r := by
  cases r with
  | zero => exact h.start ▸ hn
  | succ r =>
    rw [← h.next r (hr r (Nat.lt_succ_self r))]
    exact decided_le

/-- An entrant that is still to be placed finds a node that is not full. -/
theorem room (hr : 1 < entries n r) (hb : 0 < T.between r) : ∃ k < entries n (r + 1), T.filled r k < cap (entries n r) k := by
  by_contra hfull
  have hall : ∀ k < entries n (r + 1), T.filled r k = cap (entries n r) k := fun k hk =>
    (h.filled_le r k hr hk).eq_or_lt.resolve_right fun hlt => hfull ⟨k, hk, hlt⟩
  have hsum := (sum_filled_eq_iff fun k hk => (hall k hk).le).mpr hall
  have hle := h.reached_le hn fun q hq => entries_anti hq.le hr
  rw [Score.reached, if_pos hr] at hle
  omega

/-- Where all nodes of a round are full, all its entrants have come and are placed. -/
theorem reached_of_decided (hr : 1 < entries n r) (hd : T.decided n r = entries n (r + 1)) :
    T.reached n r = entries n r ∧ T.between r = 0 := by
  have hall := decided_eq_iff.mp hd
  have hsum := (sum_filled_eq_iff fun k hk => (hall k hk).le).mpr hall
  have hle := h.reached_le hn fun q hq => entries_anti hq.le hr
  rw [Score.reached, if_pos hr] at hle ⊢
  omega

omit hn in
theorem decided_of_reached (hr : 1 < entries n r) (hd : T.reached n r = entries n r) (hb : T.between r = 0) :
    T.decided n r = entries n (r + 1) := by
  rw [Score.reached, if_pos hr, hb, Nat.zero_add] at hd
  exact decided_eq_iff.mpr ((sum_filled_eq_iff fun k hk => h.filled_le r k hr hk).mp hd)

/-- **One champion**: then all have entered, and every node is full. -/
theorem won (hpos : 0 < n) (hc : 0 < T.champions) : T.champions = 1 ∧ entered = n ∧
    ∀ r, 1 < entries n r → T.between r = 0 ∧ ∀ k < entries n (r + 1), T.filled r k = cap (entries n r) k := by
  obtain ⟨R, hR, hlast⟩ := exists_final hpos
  have hreach : T.reached n R = T.champions := if_neg (by omega)
  have hle := h.reached_le hn fun q hq => (hlast q).mpr hq
  -- from the last round back to the first
  have hback : ∀ d r, r + d = R → T.reached n r = entries n r := by
    intro d
    induction d with
    | zero =>
      intro r hr
      obtain rfl : r = R := hr
      omega
    | succ d ih =>
      intro r hr
      have hact : 1 < entries n r := (hlast r).mpr (by omega)
      have hnext := ih (r + 1) (by omega)
      exact (h.reached_of_decided hn hact (by rw [h.next r hact, hnext])).1
  refine ⟨by omega, by rw [h.start]; exact hback R 0 (Nat.zero_add R), fun r hact => ?_⟩
  have hr := (hlast r).mp hact
  have hd : T.decided n r = entries n (r + 1) := by
    rw [h.next r hact]
    exact hback (R - (r + 1)) (r + 1) (by omega)
  exact ⟨(h.reached_of_decided hn hact hd).2, decided_eq_iff.mp hd⟩

omit hn in
/-- Once all have entered and are placed, there is a champion. -/
theorem champion (hpos : 0 < n) (he : entered = n) (hb : ∀ r, 1 < entries n r → T.between r = 0) : T.champions = 1 := by
  obtain ⟨R, hR, hlast⟩ := exists_final hpos
  have hforth : ∀ r ≤ R, T.reached n r = entries n r := by
    intro r
    induction r with
    | zero =>
      intro _
      exact h.start.symm.trans he
    | succ r ih =>
      intro hr
      have hact : 1 < entries n r := (hlast r).mpr (by omega)
      rw [← h.next r hact]
      exact h.decided_of_reached hact (ih (by omega)) (hb r hact)
  have hend := hforth R (Nat.le_refl R)
  rwa [Score.reached, if_neg (by omega), hR] at hend

end Score.Standing

/-- Before anyone has entered. -/
theorem Score.standing_zero (hf : ∀ r k, 1 < entries n r → k < entries n (r + 1) → T.filled r k = 0)
    (hb : ∀ r, T.between r = 0) (hc : T.champions = 0) : T.Standing n 0 := by
  have hreached : ∀ r, T.reached n r = 0 := by
    intro r
    rw [reached]
    split
    · next hr => simp [hb, sum_eq_zero fun k hk => hf r k hr (mem_range.mp hk)]
    · exact hc
  refine ⟨fun r k hr hk => by rw [hf r k hr hk]; exact Nat.zero_le _, (hreached 0).symm, fun r hr => ?_⟩
  rw [hreached, decided]
  refine sum_eq_zero fun k hk => if_neg ?_
  rw [hf r k hr (mem_range.mp hk), cap]
  split <;> omega

/-! ## Entering and being placed -/

namespace Score

/-- One more entrant of round `r`, or one champion. -/
def enter (T : Score) (n r : Nat) : Score :=
  if 1 < entries n r then { T with between := Function.update T.between r (T.between r + 1) }
  else { T with champions := T.champions + 1 }

/-- An entrant of round `r` is placed at node `k`. -/
def place (T : Score) (r k : Nat) : Score where
  filled := Function.update T.filled r (Function.update (T.filled r) k (T.filled r k + 1))
  between := Function.update T.between r (T.between r - 1)
  champions := T.champions

/-- A round that is played, or the one of the champion. -/
def Played (n r : Nat) : Prop := ∀ q < r, 1 < entries n q

theorem decided_enter : (T.enter n r).decided n q = T.decided n q := by
  unfold enter
  split <;> rfl

theorem reached_enter_self : (T.enter n r).reached n r = T.reached n r + 1 := by
  unfold enter
  split
  · next hr =>
    simp only [reached, if_pos hr, Function.update_self]
    omega
  · next hr => simp only [reached, if_neg hr]

theorem reached_enter_ne (hr : Played n r) (hq : Played n q) (hne : q ≠ r) : (T.enter n r).reached n q = T.reached n q := by
  unfold enter
  split
  · simp only [reached, Function.update_of_ne hne]
  · next hnot =>
    have hact : 1 < entries n q := by
      by_contra h
      rcases Nat.lt_or_gt_of_ne hne with hlt | hlt
      · exact h (hr q hlt)
      · exact hnot (hq r hlt)
    simp only [reached, if_pos hact]

variable (hr : 1 < entries n r) (hk : k < entries n (r + 1)) (hb : 0 < T.between r)

include hr hk hb in
theorem reached_place : (T.place r k).reached n q = T.reached n q := by
  by_cases hq : q = r
  · subst hq
    obtain ⟨rest, hsum, hupd⟩ := exists_sum_update_of_mem (fun x : Nat => x) (T.filled q) (mem_range.mpr hk)
    simp only [reached, if_pos hr, place, Function.update_self]
    rw [hsum, hupd]
    omega
  · simp only [reached, place, Function.update_of_ne hq]

theorem decided_place_ne (hq : q ≠ r) : (T.place r k).decided n q = T.decided n q := by
  simp only [decided, place, Function.update_of_ne hq]

include hk in
theorem decided_place : (T.place r k).decided n r + (if T.filled r k = cap (entries n r) k then 1 else 0) =
    T.decided n r + if T.filled r k + 1 = cap (entries n r) k then 1 else 0 := by
  have hsplit : ∀ f : Nat → Nat, ∑ j ∈ range (entries n (r + 1)), (if f j = cap (entries n r) j then 1 else 0) =
      (if f k = cap (entries n r) k then 1 else 0) +
        ∑ j ∈ (range (entries n (r + 1))).erase k, if f j = cap (entries n r) j then 1 else 0 := fun f =>
    (add_sum_erase _ (fun j => if f j = cap (entries n r) j then 1 else 0) (mem_range.mpr hk)).symm
  have hrest : ∑ j ∈ (range (entries n (r + 1))).erase k,
        (if Function.update (T.filled r) k (T.filled r k + 1) j = cap (entries n r) j then 1 else 0) =
      ∑ j ∈ (range (entries n (r + 1))).erase k, if T.filled r j = cap (entries n r) j then 1 else 0 :=
    sum_congr rfl fun j hj => by rw [Function.update_of_ne (ne_of_mem_erase hj)]
  simp only [decided, place, Function.update_self]
  rw [hsplit (T.filled r), hsplit, hrest, Function.update_self]
  omega

namespace Standing

variable (h : T.Standing n entered)

include h

theorem enter : (T.enter n 0).Standing n (entered + 1) where
  filled_le := by
    unfold Score.enter
    split <;> exact h.filled_le
  start := by rw [reached_enter_self, h.start]
  next q hq := by
    rw [decided_enter, reached_enter_ne (fun q hq => absurd hq (Nat.not_lt_zero q)) _ (Nat.succ_ne_zero q), h.next q hq]
    exact fun p hp => entries_anti (Nat.le_of_lt_succ hp) hq

include hr hk hb

omit hb in
theorem filled_le_place (hlt : T.filled r k < cap (entries n r) k) (q j : Nat) (hq : 1 < entries n q) (hj : j < entries n (q + 1)) :
    (T.place r k).filled q j ≤ cap (entries n q) j := by
  by_cases hqr : q = r
  · subst hqr
    by_cases hjk : j = k
    · subst hjk
      simp only [Score.place, Function.update_self]
      exact hlt
    · simpa [Score.place, hjk] using h.filled_le q j hq hj
  · simpa [Score.place, hqr] using h.filled_le q j hq hj

/-- The first one of two at a node stays there. -/
theorem place (hlt : T.filled r k + 1 < cap (entries n r) k) : (T.place r k).Standing n entered where
  filled_le := h.filled_le_place hr hk (by omega)
  start := by rw [reached_place hr hk hb, h.start]
  next q hq := by
    rw [reached_place hr hk hb, ← h.next q hq]
    by_cases hqr : q = r
    · have hd := decided_place (T := T) hk
      rw [if_neg (by omega), if_neg (by omega)] at hd
      rw [hqr]
      exact hd
    · exact decided_place_ne hqr

/-- The last one goes on. -/
theorem advance (hfull : T.filled r k + 1 = cap (entries n r) k) : ((T.place r k).enter n (r + 1)).Standing n entered where
  filled_le := by
    unfold Score.enter
    split <;> exact h.filled_le_place hr hk (by omega)
  start := by
    have hplayed : Played n (r + 1) := fun q hq => entries_anti (Nat.le_of_lt_succ hq) hr
    rw [reached_enter_ne hplayed (fun q hq => absurd hq (Nat.not_lt_zero q)) (Nat.succ_ne_zero r).symm,
      reached_place hr hk hb, h.start]
  next q hq := by
    have hplayed : ∀ {p}, 1 < entries n p → Played n (p + 1) := fun hp q hq => entries_anti (Nat.le_of_lt_succ hq) hp
    rw [decided_enter]
    by_cases hqr : q = r
    · have hd := decided_place (T := T) hk
      rw [if_neg (by omega), if_pos hfull] at hd
      rw [hqr, reached_enter_self, reached_place hr hk hb, ← h.next r hr]
      exact hd
    · rw [reached_enter_ne (hplayed hr) (hplayed hq) (by omega), reached_place hr hk hb, decided_place_ne hqr, h.next q hq]

end Standing

end Score

end SharedPtr.Lib.Tournament
