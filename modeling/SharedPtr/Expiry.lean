/-
Expiry as other threads see it. Who reads a use count of zero knows that no
shared handle is left, and from then on none is made (`Transition.expired`):
what a later observer reads is the number of failing `lock()` calls that have
counted up and not yet reset the count. Only `_S_mutex` counts up before it
looks; there an observer that comes between the two reads 1.
-/
import SharedPtr.Lifetime

namespace SharedPtr

open Lib Finset

variable {ι : Type}

/-- What a step returns of `_M_get_use_count()`: to the caller of `use_count()`
or `expired()`, or to the constructor that `lock()` ends with. -/
def State.observes (s : State ι) (l : Label ι) : Option Nat :=
  match l.act with
  | .begin (.useCount k r) =>
    if (s.thr l.thread).slot k r = some .self then some s.block.useCount.toNat else none
  | .run _ =>
    match (s.thr l.thread).todo with
    | .lockGet .. :: _ => some s.block.useCount.toNat
    | _ => none
  | _ => none

/-- A failing `_M_add_ref_lock_nothrow` of `_S_mutex` has counted up and not
yet reset the count. -/
def State.Undoing (s : State ι) : Prop := ∃ t r p nothrow, Instr.lockUndo r p nothrow ∈ (s.thr t).todo

theorem State.observes_eq {s : State ι} {l : Label ι} {c : Nat} (h : s.observes l = some c) :
    c = s.block.useCount.toNat := by
  unfold observes at h
  split at h
  next =>
    simp only [Option.ite_none_right_eq_some, Option.some.injEq] at h
    exact h.2.symm
  next =>
    split at h
    next => exact (Option.some.inj h).symm
    next => cases h
  next => cases h

section Expired

variable [Fintype ι]

/-- No shared handle is left, nor the last one about to zero the counters. -/
def State.Expired (s : State ι) : Prop := s.accounts.count (.ref .shared) + s.accounts.count .sole = 0

/-- A claim that no handle has is an instruction's. -/
theorem mem_accounts_iff {s : State ι} {a : Account} (ha : ∀ k, a ≠ .ref k) :
    a ∈ s.accounts ↔ ∃ t, ∃ i ∈ (s.thr t).todo, a ∈ i.accounts := by
  have hheld (k : Kind) (hs : List (Nat × Pi)) : a ∉ heldBy k hs := by
    rw [← Multiset.count_eq_zero, count_heldBy, if_neg (ha k)]
  have htodo (is : List Instr) : a ∈ (is.map Instr.accounts).sum ↔ ∃ i ∈ is, a ∈ i.accounts := by
    induction is with
    | nil => simp
    | cons i is ih => simp [ih]
  simp [State.accounts, Multiset.mem_sum, Thread.accounts, hheld, htodo]

theorem mem_accounts_undo {i : Instr} : .undo ∈ i.accounts ↔ ∃ r p nothrow, i = .lockUndo r p nothrow := by
  cases i with
  | set k p tmp => cases tmp <;> simp [Instr.accounts, Pi.accounts]
  | lockUnlock r p nothrow ok => cases ok <;> simp [Instr.accounts]
  | _ => simp [Instr.accounts]

theorem State.undoing_iff (s : State ι) : s.Undoing ↔ s.accounts.count .undo ≠ 0 := by
  rw [← Nat.pos_iff_ne_zero, Multiset.count_pos, mem_accounts_iff (a := .undo) nofun]
  simp only [mem_accounts_undo]
  constructor
  · rintro ⟨t, r, p, nothrow, h⟩; exact ⟨t, _, h, r, p, nothrow, rfl⟩
  · rintro ⟨t, i, h, r, p, nothrow, rfl⟩; exact ⟨t, r, p, nothrow, h⟩

/-- Nobody makes a shared handle where there is none. -/
theorem Transition.expired {lp : LockPolicy} {b b' : CountedBase} {x y loss gain : Multiset Account}
    (ht : Transition lp b b' loss gain) (hm : Moves loss gain x y) (hp : Policy lp x) (hl : Ledger b x)
    (h : x.count (.ref .shared) + x.count .sole = 0) : y.count (.ref .shared) + y.count .sole = 0 := by
  obtain ⟨rest, rfl, rfl⟩ := hm
  have huse := hl.use
  have hlocked := hl.locked
  have hle := b.locked.toNat_le
  have hnz : b.useCount ≠ 0 → b.useCount.toNat ≠ 0 := fun hne he => hne (eq_zero_iff.mpr he)
  simp only [Multiset.count_add] at h huse hlocked ⊢
  cases ht with
  | addRefCopy | testSole | decUse | decUseLast | zeroUse => simp at h
  | weakAddRef k =>
    cases k with
    | shared => simp at h
    | weak => simpa using h
  | decWeak a ha | decWeakLast a ha => rcases ha with rfl | rfl <;> simp at h ⊢ <;> omega
  | disposeReturn sole => cases sole <;> simp at h ⊢ <;> omega
  | lockSingle hlp hz =>
    -- the count is not zero, so it is one too high: not under this policy
    have hpol := hp.mutex (by simp [hlp])
    have := hnz hz
    simp only [Multiset.count_add] at hpol
    omega
  | lockCas hz =>
    have hcas : Multiset.count .cas ({.ref .weak, .cas} + rest) ≠ 0 := by simp
    have hpol := hp.mutex fun hm => hcas (hp.cas (by simp [hm]))
    have := hnz hz
    simp only [Multiset.count_add] at hpol
    omega
  | lockAdd hz =>
    -- nor while somebody else has the mutex
    have := hnz hz
    have hmutex : Multiset.count .mutex ({.ref .weak, .mutex} : Multiset Account) = 1 := by decide
    omega
  | _ => simpa using h

variable {lp : LockPolicy} {s s' : State ι}

theorem not_expired_of_mem (h : .ref .shared ∈ s.accounts) : ¬ s.Expired := by
  have hpos := Multiset.count_pos.mpr h
  unfold State.Expired
  omega

theorem Inv.expired (hi : Inv lp s) (h : s.block.useCount = 0) : s.Expired := by
  have huse := hi.ledger.use
  rw [eq_zero_iff.mp h] at huse
  unfold State.Expired
  omega

/-- After expiry the use count is the number of calls that will reset it. -/
theorem Inv.useCount_eq_zero (hi : Inv lp s) (he : s.Expired) : s.block.useCount = 0 ↔ ¬ s.Undoing := by
  have huse := hi.ledger.use
  unfold State.Expired at he
  rw [eq_zero_iff, State.undoing_iff, not_not]
  omega

theorem Inv.not_undoing (hi : Inv lp s) (h : lp ≠ .mutex) : ¬ s.Undoing := by
  have hpol := hi.policy.mutex h
  rw [State.undoing_iff, not_not]
  omega

variable [DecidableEq ι]

theorem expired_step {l : Label ι} (hi : Inv lp s) (h : step lp s l = some s') (he : s.Expired) : s'.Expired := by
  obtain ⟨loss, gain, ht, hm⟩ := step_accounts h
  exact ht.expired hm hi.policy hi.ledger he

theorem expired_run {ls : List (Label ι)} (hi : Inv lp s) (he : s.Expired) (h : run (step lp) s ls = some s') :
    s'.Expired := by
  have hstep : ∀ (s : State ι) l s', Inv lp s ∧ s.Expired → step lp s l = some s' → Inv lp s' ∧ s'.Expired := by
    rintro s l s' ⟨hi, he⟩ h
    exact ⟨hi.step h, expired_step hi h he⟩
  exact (run_invariant hstep h ⟨hi, he⟩).2

end Expired

/-! ## Observations in a run -/

section

variable [DecidableEq ι]

/-- In the run `ls` from `s₀` the step `l` is taken in `u`, and later the step `l'` in `u'`. -/
def Later (lp : LockPolicy) (s₀ : State ι) (ls : List (Label ι)) (u : State ι) (l : Label ι) (u' : State ι)
    (l' : Label ι) : Prop :=
  ∃ pre mid post, ls = pre ++ l :: (mid ++ l' :: post) ∧ run (step lp) s₀ pre = some u ∧
    run (step lp) u (l :: mid) = some u'

/-- Once a step has observed a use count of zero, no later step observes another. -/
def ExpiryPermanent (lp : LockPolicy) (s₀ : State ι) (ls : List (Label ι)) : Prop :=
  ∀ u l u' l', Later lp s₀ ls u l u' l' → u.observes l = some 0 → ∀ c, u'.observes l' = some c → c = 0

/-- Once a step has looked at the use count when it was zero, no later step
looks at it while a failing call has it counted up. -/
def ObserversMissUndo (lp : LockPolicy) (s₀ : State ι) (ls : List (Label ι)) : Prop :=
  ∀ u l u' l', Later lp s₀ ls u l u' l' → (u.observes l).isSome → u.block.useCount = 0 →
    (u'.observes l').isSome → ¬ u'.Undoing

variable [Fintype ι] {lp : LockPolicy} {t₀ : ι} {ls : List (Label ι)}

/-- After a step in a state with use count zero, another step finds the count
zero where no failing call has it counted up. -/
theorem Later.useCount_eq_zero {u u' : State ι} {l l' : Label ι} (h : Later lp (State.init t₀) ls u l u' l')
    (hz : u.block.useCount = 0) : u'.block.useCount = 0 ↔ ¬ u'.Undoing := by
  obtain ⟨pre, mid, post, -, hu, hu'⟩ := h
  have hi : Inv lp u := .run hu
  have hi' : Inv lp u' := .run (run_append.mpr ⟨u, hu, hu'⟩)
  exact hi'.useCount_eq_zero (expired_run hi (hi.expired hz) hu')

/-- **Expiry is permanent for the observers of a run** if and only if none of
them comes between the two stores of a failing `lock()`. -/
theorem expiry_permanent_iff (lp : LockPolicy) (t₀ : ι) (ls : List (Label ι)) :
    ExpiryPermanent lp (State.init t₀) ls ↔ ObserversMissUndo lp (State.init t₀) ls := by
  constructor
  · intro h u l u' l' hlater hobs hz hobs'
    obtain ⟨c, hc⟩ := Option.isSome_iff_exists.mp hobs
    obtain ⟨c', hc'⟩ := Option.isSome_iff_exists.mp hobs'
    have hc0 : c = 0 := by rw [State.observes_eq hc, eq_zero_iff.mp hz]
    have hzero := h u l u' l' hlater (hc0 ▸ hc) c' hc'
    rw [State.observes_eq hc', ← eq_zero_iff] at hzero
    exact (hlater.useCount_eq_zero hz).mp hzero
  · intro h u l u' l' hlater hobs c hc
    have hz : u.block.useCount = 0 := eq_zero_iff.mpr (State.observes_eq hobs).symm
    have hmiss := h u l u' l' hlater (by simp [hobs]) hz (by simp [hc])
    rw [State.observes_eq hc, ← eq_zero_iff]
    exact (hlater.useCount_eq_zero hz).mpr hmiss

/-- The other policies never count up before they look. -/
theorem expiry_permanent_of_ne_mutex (h : lp ≠ .mutex) : ExpiryPermanent lp (State.init t₀) ls := by
  rw [expiry_permanent_iff]
  rintro u l u' l' ⟨pre, mid, post, -, hu, hu'⟩ - - -
  exact (Inv.run (run_append.mpr ⟨u, hu, hu'⟩)).not_undoing h

end

/-- Thread 0 drops the only shared handle and finds the count zero; a failing
`lock()` of thread 1 counts up; thread 0 looks again. -/
def lookDuringLock : List (Label (Fin 2)) :=
  [⟨0, .begin (.weakFromShared 0 1)⟩, ⟨0, .begin (.copyWeak 1 2)⟩, ⟨0, .pass .weak 2 1 0⟩,
    ⟨0, .begin (.destroy .shared 0)⟩, ⟨0, .run false⟩, ⟨0, .run false⟩, ⟨0, .run false⟩, ⟨0, .run false⟩,
    ⟨0, .run false⟩, ⟨0, .begin (.useCount .weak 1)⟩, ⟨1, .begin (.convert true 0 0)⟩, ⟨1, .run false⟩,
    ⟨0, .begin (.useCount .weak 1)⟩]

theorem expiry_seen_undone : ¬ ExpiryPermanent .mutex (State.init 0) lookDuringLock := by
  intro h
  have hu : ((run (step .mutex) (State.init 0) (lookDuringLock.take 9)).bind fun u =>
      (u.observes ⟨0, .begin (.useCount .weak 1)⟩).bind fun c =>
      (run (step .mutex) u ((lookDuringLock.drop 9).take 3)).bind fun u' =>
      (u'.observes ⟨0, .begin (.useCount .weak 1)⟩).map fun c' => (c, c')) = some (0, 1) := by
    decide +kernel
  simp only [Option.bind_eq_some_iff, Option.map_eq_some_iff] at hu
  obtain ⟨u, hu, c, hc, u', hu', c', hc', he⟩ := hu
  obtain ⟨rfl, rfl⟩ := Prod.mk.inj he
  exact absurd (h u _ u' _ ⟨_, _, [], rfl, hu, hu'⟩ hc 1 hc') (by decide)

end SharedPtr
