/-
The life of a control block: when `_M_dispose` and `_M_destroy` run, that
nothing reads or writes a counter afterwards, and what the counters say when
no operation is in progress. All of it is read off the ledger.
-/
import SharedPtr.Ledger

namespace SharedPtr

open Lib Finset

variable {ι : Type} [Fintype ι]

/-- The handles that hold the block, those an operation has in hand included. -/
def State.owners (s : State ι) (k : Kind) : Nat := s.accounts.count (.ref k)

/-- The handles that hold the block and that no operation has in hand. -/
def State.held (s : State ι) (k : Kind) : Nat := ∑ t, ((s.thr t).handles k).countP (·.2 = .self)

/-- No operation is in progress. -/
def State.Idle (s : State ι) : Prop := ∀ t, (s.thr t).todo = []

/-- Whether an operation's first step reads or writes a counter of the block
or locks its mutex. -/
def Op.touches (th : Thread) : Op → Prop
  | .make .. | .move .. | .moveAssign .. | .moveAssignConv .. | .swap .. | .reset .. | .destroy .. => False
  | .copyShared r _ | .weakFromShared r _ | .assignWeakShared _ r => th.slot .shared r = some .self
  | .copyWeak r _ | .assignWeak _ r | .convert _ r _ => th.slot .weak r = some .self
  | .assignShared p r => th.slot .shared r = some .self ∧ th.slot .shared p ≠ some .self
  | .useCount k r => th.slot k r = some .self

/-- Whether a step reads or writes the block or calls one of its functions. -/
def Label.touches (s : State ι) (l : Label ι) : Prop :=
  match l.act with
  | .begin op => op.touches (s.thr l.thread)
  | .pass .. => False
  | .run _ =>
    match (s.thr l.thread).todo with
    | [] | .set .. :: _ => False
    | _ => True

/-! ## No operation in progress -/

theorem count_heldBy (a : Account) (k : Kind) (hs : List (Nat × Pi)) :
    (heldBy k hs).count a = if a = .ref k then hs.countP (·.2 = .self) else 0 := by
  induction hs with
  | nil => simp [heldBy]
  | cons h hs ih =>
    obtain ⟨p, pi⟩ := h
    rw [heldBy_cons, Multiset.count_add, ih]
    cases pi <;> by_cases hk : a = .ref k <;> simp [Pi.accounts, hk, add_comm]

theorem count_ref_of_todo_nil {th : Thread} (h : th.todo = []) (k : Kind) :
    th.accounts.count (.ref k) = (th.handles k).countP (·.2 = .self) := by
  cases k <;> simp [Thread.accounts, h, count_heldBy]

theorem count_of_todo_nil {th : Thread} (h : th.todo = []) {a : Account} (ha : ∀ k, a ≠ .ref k) :
    th.accounts.count a = 0 := by
  simp [Thread.accounts, h, count_heldBy, ha]

theorem State.Idle.owners {s : State ι} (h : s.Idle) (k : Kind) : s.owners k = s.held k := by
  rw [State.owners, State.accounts, Multiset.count_sum', State.held]
  exact Finset.sum_congr rfl fun t _ => count_ref_of_todo_nil (h t) k

theorem State.Idle.count {s : State ι} (h : s.Idle) {a : Account} (ha : ∀ k, a ≠ .ref k) :
    s.accounts.count a = 0 := by
  rw [State.accounts, Multiset.count_sum']
  exact Finset.sum_eq_zero fun t _ => count_of_todo_nil (h t) ha

/-- The ledger when no operation is in progress. -/
theorem Ledger.idle {s : State ι} (hl : Ledger s.block s.accounts) (h : s.Idle) :
    s.block.useCount.toNat = s.held .shared ∧
    s.block.weakCount.toNat = s.held .weak + min (s.held .shared) 1 ∧
    s.block.disposeCalls + min (s.held .shared) 1 = 1 ∧
    s.block.disposeReturns = s.block.disposeCalls ∧
    s.block.destroyCalls + min s.block.weakCount.toNat 1 = 1 := by
  have hs : s.accounts.count (.ref .shared) = s.held .shared := h.owners .shared
  have hw : s.accounts.count (.ref .weak) = s.held .weak := h.owners .weak
  have hsole := h.count (a := .sole) nofun
  have hleft := h.count (a := .soleLeft) nofun
  have hto (sole : Bool) := h.count (a := .toDispose sole) nofun
  have hin (sole : Bool) := h.count (a := .inDispose sole) nofun
  have himplied := h.count (a := .implied) nofun
  have hdoomed := h.count (a := .doomed) nofun
  have hundo := h.count (a := .undo) nofun
  obtain ⟨use, weak, disposeCalls, disposeReturns, -, destroyCalls, -, -, -, -⟩ := hl
  simp only [hs, hw, hsole, hleft, hto, hin, himplied, hdoomed, hundo, add_zero] at *
  exact ⟨use, weak, disposeCalls, disposeReturns, destroyCalls⟩

variable [DecidableEq ι]

/-! ## What a live claim says about the block -/

/-- A claim that keeps the block from being destroyed. -/
def Account.live : Account → Bool
  | .mutex | .undo | .cas => false
  | _ => true

theorem Ledger.alive {b : CountedBase} {x : Multiset Account} (hl : Ledger b x) {a : Account} (ha : a ∈ x)
    (hlive : a.live) : b.destroyCalls = 0 := by
  have hpos := Multiset.count_pos.mpr ha
  obtain ⟨use, weak, disposeCalls, disposeReturns, implied, destroyCalls, doomed, sole, locked, undo⟩ := hl
  cases a with
  | ref k => cases k <;> omega
  | toDispose sole => cases sole <;> omega
  | inDispose sole => cases sole <;> omega
  | mutex | undo | cas => cases hlive
  | _ => omega

theorem mem_accounts_of_thread {s : State ι} {t : ι} {a : Account} (h : a ∈ (s.thr t).accounts) : a ∈ s.accounts := by
  obtain ⟨rest, hrest, -⟩ := exists_sum_update Thread.accounts s.thr t
  rw [State.accounts, hrest]
  exact Multiset.mem_add.mpr (.inl h)

theorem ref_mem_of_slot {th : Thread} {k : Kind} {p : Nat} (h : th.slot k p = some .self) :
    .ref k ∈ th.accounts := by
  rw [accounts_take h]
  simp [Pi.accounts]

theorem mem_of_todo {th : Thread} {i : Instr} {rest : List Instr} (h : th.todo = i :: rest) {a : Account}
    (ha : a ∈ i.accounts) : a ∈ th.accounts := by
  simp [Thread.accounts, h, ha]

/-- Every instruction on the block has a claim that keeps it. -/
theorem Instr.live (i : Instr) : (∃ k p tmp, i = .set k p tmp) ∨ ∃ a ∈ i.accounts, a.live := by
  cases i with
  | set k p tmp => exact .inl ⟨k, p, tmp, rfl⟩
  | lockUnlock r p nothrow ok => exact .inr ⟨.ref .weak, by cases ok <;> simp [Instr.accounts], rfl⟩
  | lockCas | lockAdd | lockUndo | lockGet => exact .inr ⟨.ref .weak, by simp [Instr.accounts], rfl⟩
  | _ => exact .inr ⟨_, Multiset.mem_singleton_self _, rfl⟩

theorem Op.live {th : Thread} {op : Op} (h : op.touches th) : ∃ k, .ref k ∈ th.accounts := by
  cases op with
  | copyShared | weakFromShared | assignWeakShared => exact ⟨.shared, ref_mem_of_slot h⟩
  | copyWeak | assignWeak | convert => exact ⟨.weak, ref_mem_of_slot h⟩
  | assignShared => exact ⟨.shared, ref_mem_of_slot h.1⟩
  | useCount k => exact ⟨k, ref_mem_of_slot h⟩
  | _ => exact h.elim

omit [Fintype ι] [DecidableEq ι] in
/-- A step on the block is one of a thread with a claim that keeps it. -/
theorem Label.live_of_thread {s : State ι} {l : Label ι} (h : l.touches s) :
    ∃ a ∈ (s.thr l.thread).accounts, a.live := by
  obtain ⟨t, act⟩ := l
  cases act with
  | begin op =>
    obtain ⟨k, hk⟩ := Op.live h
    exact ⟨_, hk, rfl⟩
  | pass => exact h.elim
  | run spurious =>
    simp only [Label.touches] at h
    split at h
    · exact h.elim
    · exact h.elim
    · next todo hempty hset =>
      obtain ⟨i, rest, htodo⟩ := List.exists_cons_of_ne_nil hempty
      rcases i.live with ⟨k, p, tmp, rfl⟩ | ⟨a, ha, hlive⟩
      · exact (hset _ _ _ _ htodo).elim
      · exact ⟨a, mem_of_todo htodo ha, hlive⟩

theorem Label.live {s : State ι} {l : Label ι} (h : l.touches s) : ∃ a ∈ s.accounts, a.live := by
  obtain ⟨a, ha, hlive⟩ := l.live_of_thread h
  exact ⟨a, mem_accounts_of_thread ha, hlive⟩

/-! ## The contract -/

/-- The contract of the control block, in a state of a run. -/
structure Lifetime (lp : LockPolicy) (s : State ι) : Prop where
  disposeOnce : s.block.disposeCalls ≤ 1
  /-- `_M_dispose` is called only when the last shared handle is gone, for good. -/
  disposeLast : s.block.disposeCalls ≠ 0 → s.owners .shared = 0
  destroyOnce : s.block.destroyCalls ≤ 1
  /-- `_M_destroy` is called only after `_M_dispose` has returned, and when no handle is left. -/
  destroyLast : s.block.destroyCalls ≠ 0 → s.block.disposeReturns = 1 ∧ ∀ k, s.owners k = 0
  /-- When no handle is left and no operation in progress, each has run once. -/
  ended : s.Idle → (∀ k, s.held k = 0) →
    s.block.disposeCalls = 1 ∧ s.block.disposeReturns = 1 ∧ s.block.destroyCalls = 1
  /-- No step after `_M_destroy` reads or writes a counter. -/
  untouched : ∀ l s', step lp s l = some s' → l.touches s → s.block.destroyCalls = 0
  /-- `_M_use_count` is #shared and `_M_weak_count` is #weak + (#shared != 0). -/
  counts : s.Idle → s.block.useCount.toNat = s.held .shared ∧
    s.block.weakCount.toNat = s.held .weak + if s.held .shared ≠ 0 then 1 else 0
  /-- With fewer than 2^31 handles no counter is negative and no step traps. -/
  noTrap : (∀ k, s.owners k < 2 ^ 31) →
    (s.Idle → s.block.useCount.toInt = s.held .shared) ∧
    (∀ k pi, (s.block.addRef k pi).isSome) ∧
    ∀ t, (s.thr t).todo ≠ [] → (step lp s ⟨t, .run false⟩).isSome

/-- With fewer than 2^31 handles no counter has its largest value. -/
theorem Ledger.not_max {b : CountedBase} {x : Multiset Account} (hl : Ledger b x)
    (hs : x.count (.ref .shared) < 2 ^ 31) (hw : x.count (.ref .weak) < 2 ^ 31) :
    b.useCount ≠ -1 ∧ b.weakCount ≠ -1 := by
  obtain ⟨use, weak, disposeCalls, disposeReturns, implied, -, -, sole, locked, -⟩ := hl
  have hlocked := b.locked.toNat_le
  constructor
  · intro hmax
    rw [hmax, toNat_neg_one] at use
    omega
  · intro hmax
    rw [hmax, toNat_neg_one] at weak
    omega

theorem CountedBase.addRef_isSome {b : CountedBase} (hu : b.useCount ≠ -1) (hw : b.weakCount ≠ -1) (k : Kind)
    (pi : Pi) : (b.addRef k pi).isSome := by
  rw [Option.isSome_iff_exists]
  match k, pi with
  | .shared, .other | .weak, .other => exact ⟨b, rfl⟩
  | .shared, .self => exact ⟨_, addRefCopy_eq_some.mpr ⟨hu, rfl⟩⟩
  | .weak, .self => exact ⟨_, weakAddRef_eq_some.mpr ⟨hw, rfl⟩⟩

theorem exec_isSome (lp : LockPolicy) {b : CountedBase} (hu : b.useCount ≠ -1) (th : Thread) (i : Instr) :
    (exec lp b th false i).isSome := by
  have hchk : chk true b.useCount = some () := chk_eq_some.mpr hu
  cases i with
  | release k =>
    cases k with
    | shared =>
      simp only [exec]
      split <;> rfl
    | weak => rfl
  | lockCas r p nothrow count =>
    simp only [exec]
    split
    · next h => simp [← h.1, hchk]
    · split <;> rfl
  | lockAdd =>
    rw [exec_lockAdd, hchk]
    split <;> rfl
  | _ => rfl

theorem Ledger.lifetime {lp : LockPolicy} {s : State ι} (hl : Ledger s.block s.accounts) : Lifetime lp s where
  disposeOnce := by
    have := hl.disposeCalls
    omega
  disposeLast h := by
    have := hl.disposeCalls
    rw [State.owners]
    omega
  destroyOnce := by
    have := hl.destroyCalls
    omega
  destroyLast h := by
    obtain ⟨use, weak, disposeCalls, disposeReturns, implied, destroyCalls, doomed, sole, locked, undo⟩ := hl
    refine ⟨by omega, ?_⟩
    intro k
    rw [State.owners]
    cases k <;> omega
  ended hidle hheld := by
    obtain ⟨_, hw, hd, hr, hdestroy⟩ := hl.idle hidle
    rw [hheld, hheld] at hw
    rw [hheld] at hd
    omega
  untouched l s' _ htouch := by
    obtain ⟨a, ha, hlive⟩ := l.live htouch
    exact hl.alive ha hlive
  counts hidle := by
    obtain ⟨hu, hw, _⟩ := hl.idle hidle
    refine ⟨hu, hw.trans ?_⟩
    split <;> omega
  noTrap hbound := by
    obtain ⟨hu, hw⟩ := hl.not_max (hbound .shared) (hbound .weak)
    refine ⟨fun hidle => ?_, CountedBase.addRef_isSome hu hw, fun t ht => ?_⟩
    · have hs := hbound .shared
      rw [hidle.owners] at hs
      rw [BitVec.toInt_eq_toNat_of_lt (by rw [(hl.idle hidle).1]; omega), (hl.idle hidle).1]
    · obtain ⟨i, rest, htodo⟩ := List.exists_cons_of_ne_nil ht
      simpa [step, htodo] using exec_isSome lp hu _ i

/-- **The control block lives as long as it must and no longer**, in every
state of every interleaving, for each policy. -/
theorem control_block_lifetime (lp : LockPolicy) (t₀ : ι) (ls : List (Label ι)) (s : State ι)
    (h : run (step lp) (State.init t₀) ls = some s) : Lifetime lp s :=
  (Inv.run h).ledger.lifetime

/-- One thread copies its handle to another, which takes a weak handle and
drops the copy; then both drop what they hold. -/
theorem control_block_lifetime_two_threads : ∃ (ls : List (Label (Fin 2))) (s : State (Fin 2)),
    run (step (.atomic true)) (State.init 0) ls = some s ∧ s.block = ⟨0, 0, false, 1, 1, 1⟩ ∧
      Lifetime (.atomic true) s := by
  let ls : List (Label (Fin 2)) :=
    [⟨0, .begin (.copyShared 0 1)⟩, ⟨0, .pass .shared 1 1 0⟩, ⟨1, .begin (.weakFromShared 0 1)⟩,
      ⟨1, .begin (.destroy .shared 0)⟩, ⟨1, .run false⟩, ⟨0, .begin (.reset .shared 0)⟩, ⟨1, .run false⟩,
      ⟨0, .run false⟩, ⟨0, .run false⟩, ⟨0, .run false⟩, ⟨1, .begin (.destroy .weak 1)⟩, ⟨0, .run false⟩,
      ⟨0, .run false⟩, ⟨1, .run false⟩, ⟨1, .run false⟩]
  have h : (run (step (.atomic true)) (State.init 0) ls).map (·.block) = some ⟨0, 0, false, 1, 1, 1⟩ := by
    decide +kernel
  obtain ⟨s, hs, hb⟩ := Option.map_eq_some_iff.mp h
  exact ⟨ls, s, hs, hb, control_block_lifetime _ 0 ls s hs⟩

end SharedPtr
