/-
The use count over its whole range, for each lock policy, by constant
evaluation and at run time, and for both widths of `long`: what
`_M_get_use_count` returns for N owners, and what becomes of the counter word
when an owner is added or released.

An addition in plain `int` that overflows is an outcome of its own here, and
so is a trap. Where `long` is wider these are the functions of `Counters`
(`addRefCopy_toOption`, `addRefLockNothrow_toOption`).
-/
import SharedPtr.Counters

namespace SharedPtr.Seq

/-- How the functions of a use count are compiled and executed. -/
structure Setting where
  lp : LockPolicy
  constEval : Bool
  /-- The answer of `__is_single_threaded()` at run time. -/
  singleThreaded : Bool
  /-- `sizeof(long) > sizeof(_Atomic_word)`. -/
  wideLong : Bool
  /-- A block of `_S_mutex` has a `__mutex` for a base, and that no `constexpr` constructor. -/
  constructible : constEval = true → lp ≠ .mutex
  deriving DecidableEq, Repr

/-- How a function ends. -/
inductive Outcome (α : Type)
  | value (a : α)
  /-- `__builtin_trap()`. -/
  | trap
  /-- A signed integer overflow. -/
  | overflow
  /-- The loop has had its turns and not ended. -/
  | more
  deriving DecidableEq, Repr

namespace Outcome

variable {α β : Type}

def map (f : α → β) : Outcome α → Outcome β
  | .value a => .value (f a)
  | .trap => .trap
  | .overflow => .overflow
  | .more => .more

def toOption : Outcome α → Option α
  | .value a => some a
  | _ => none

theorem toOption_map (f : α → β) (o : Outcome α) : (o.map f).toOption = o.toOption.map f := by
  cases o <;> rfl

end Outcome

namespace Setting

/-- The bodies in use: `_S_single`'s are the same in constant evaluation, and
the others' branches for it are `_S_atomic`'s. -/
def mode (S : Setting) (spurious : Nat) : Mode :=
  if S.constEval then
    if S.lp = .single then .runTime .single true 0 else .constEval
  else .runTime S.lp S.singleThreaded spurious

/-- The greatest number of owners that fits. -/
def maxOwners (S : Setting) : Nat := if S.wideLong then 2 ^ 32 - 1 else 2 ^ 31 - 1

/-- The conversion of a `make_unsigned<_Atomic_word>::type` to `long`. -/
def toLong (S : Setting) (count : AtomicWord) : Int := if S.wideLong then count.toNat else count.toInt

/-- `_M_get_use_count`. -/
def getUseCount (S : Setting) (useCount : AtomicWord) : Int :=
  if S.constEval ∧ S.lp ≠ .single then useCount.toInt else S.toLong useCount

/-- `_S_chk(__count)`, then `a`. -/
def check {α : Type} (S : Setting) (count : AtomicWord) (a : α) : Outcome α :=
  match chk S.wideLong count with
  | none => .trap
  | some () => .value a

/-- `_M_add_ref_copy`. -/
def addRefCopy (S : Setting) (useCount : AtomicWord) : Outcome AtomicWord :=
  match S.lp with
  | .single => S.check useCount (atomicAddSingle useCount 1)
  | _ =>
    let (old, new) := exchangeAndAddDispatch (S.mode 0).isSingleThreaded useCount 1
    S.check old new

/-- The loop of `_S_atomic`'s `_M_add_ref_lock_nothrow`; at run time at most
`n` more turns fail for no reason. -/
def addRefLockLoop (S : Setting) (n : Nat) (count useCount : AtomicWord) : Outcome (Bool × AtomicWord) :=
  if count = 0 then .value (false, useCount)
  else
    match Counts.compareExchange (S.mode 0) (n != 0) useCount count with
    | none => .overflow
    | some (true, useCount, count) => S.check count (true, useCount)
    | some (false, _, count) =>
      match n with
      | 0 => .more
      | n + 1 => addRefLockLoop S n count useCount

/-- `_M_add_ref_lock_nothrow`. -/
def addRefLockNothrow (S : Setting) (spurious : Nat) (useCount : AtomicWord) : Outcome (Bool × AtomicWord) :=
  match S.lp with
  | .single => if useCount = 0 then .value (false, useCount) else (S.addRefCopy useCount).map (true, ·)
  | .mutex =>
    let (old, new) := exchangeAndAddDispatch S.singleThreaded useCount 1
    if old ≠ 0 then S.check old (true, new) else .value (false, 0)
  | .atomic _ => S.addRefLockLoop spurious (BitVec.ofInt 32 (S.getUseCount useCount)) useCount

/-- `_M_release`, as far as the use count goes. -/
def release (S : Setting) (weakCount useCount : AtomicWord) : AtomicWord :=
  (Counts.release (S.mode 0) ⟨useCount, weakCount⟩).1.useCount

/-! ## The functions of `Counters` -/

section

variable {S : Setting} {useCount : AtomicWord}

theorem check_toOption {α : Type} (hw : S.wideLong = true) (count : AtomicWord) (a : α) :
    (S.check count a).toOption = (chk true count).map fun _ => a := by
  unfold check
  rw [hw]
  cases chk true count <;> rfl

variable (useCount) in
theorem getUseCount_eq (hw : S.wideLong = true) (spurious : Nat) (weakCount : AtomicWord) :
    S.getUseCount useCount = Counts.getUseCount (S.mode spurious) ⟨useCount, weakCount⟩ := by
  obtain ⟨lp, constEval, st, wide, hcons⟩ := S
  obtain rfl : wide = true := hw
  rcases lp with _ | _ | _ <;> cases constEval <;> rfl

/-- `_M_add_ref_copy`, whatever the policy. -/
theorem addRefCopy_eq (S : Setting) (useCount : AtomicWord) :
    S.addRefCopy useCount = S.check useCount (useCount + 1) := by
  unfold addRefCopy
  cases S.lp with
  | single => rfl
  | mutex | atomic => simp only [exchangeAndAddDispatch_eq, exchangeAndAdd]

variable (useCount) in
theorem addRefCopy_toOption (hw : S.wideLong = true) (m : Mode) (weakCount : AtomicWord) :
    (S.addRefCopy useCount).toOption = (Counts.addRefCopy m ⟨useCount, weakCount⟩).map (·.useCount) := by
  rw [addRefCopy_eq, check_toOption hw]
  cases hc : chk true useCount with
  | some u =>
    rw [Counts.addRefCopy_eq_some.mpr ⟨chk_eq_some.mp hc, rfl⟩]
    rfl
  | none =>
    have hmax : useCount = -1 := by
      by_contra hne
      rw [show chk true useCount = some () from chk_eq_some.mpr hne] at hc
      cases hc
    cases ha : Counts.addRefCopy m ⟨useCount, weakCount⟩ with
    | none => rfl
    | some c => exact absurd hmax (Counts.addRefCopy_eq_some.mp ha).1

/-- The compare-exchange does not ask how often it will fail. -/
theorem compareExchange_spurious (S : Setting) (spurious : Nat) :
    Counts.compareExchange (S.mode spurious) = Counts.compareExchange (S.mode 0) := by
  unfold mode
  split
  next => rfl
  next => rfl

variable (useCount) in
theorem addRefLockLoop_toOption (hw : S.wideLong = true) (spurious n : Nat) (count weakCount : AtomicWord) :
    (S.addRefLockLoop n count useCount).toOption =
      (Counts.addRefLockLoop (S.mode spurious) n count ⟨useCount, weakCount⟩).map fun r => (r.1, r.2.useCount) := by
  induction n generalizing count with
  | zero =>
    unfold addRefLockLoop Counts.addRefLockLoop
    rw [compareExchange_spurious S spurious]
    split
    next => rfl
    next =>
      simp only [Option.bind_eq_bind]
      cases Counts.compareExchange (S.mode 0) (0 != 0) useCount count with
      | none => rfl
      | some r =>
        obtain ⟨ok, new, old⟩ := r
        cases ok with
        | true =>
          simp only [check_toOption hw]
          cases hc : chk true old <;> simp [hc]
        | false => rfl
  | succ n ih =>
    unfold addRefLockLoop Counts.addRefLockLoop
    rw [compareExchange_spurious S spurious]
    split
    next => rfl
    next =>
      simp only [Option.bind_eq_bind]
      cases Counts.compareExchange (S.mode 0) (n + 1 != 0) useCount count with
      | none => rfl
      | some r =>
        obtain ⟨ok, new, old⟩ := r
        cases ok with
        | true =>
          simp only [check_toOption hw]
          cases hc : chk true old <;> simp [hc]
        | false => simpa using ih old

theorem addRefLockNothrow_toOption (hw : S.wideLong = true) (spurious : Nat) (weakCount : AtomicWord) :
    (S.addRefLockNothrow (S.mode spurious).spurious useCount).toOption =
      (Counts.addRefLockNothrow (S.mode spurious) ⟨useCount, weakCount⟩).map fun r => (r.1, r.2.useCount) := by
  have hcopy := addRefCopy_toOption useCount hw (.runTime .single S.singleThreaded spurious) weakCount
  have hget := getUseCount_eq useCount hw spurious weakCount
  have hloop := addRefLockLoop_toOption useCount hw spurious (S.mode spurious).spurious
    (BitVec.ofInt 32 (S.getUseCount useCount)) weakCount
  obtain ⟨lp, constEval, st, wide, hcons⟩ := S
  cases lp with
  | single =>
    have hboth : Counts.addRefLockNothrow (mode ⟨.single, constEval, st, wide, hcons⟩ spurious) ⟨useCount, weakCount⟩ =
        if useCount = 0 then some (false, ⟨useCount, weakCount⟩)
        else (Counts.addRefCopy (.runTime .single st spurious) ⟨useCount, weakCount⟩).map (true, ·) := by
      cases constEval <;>
      · simp only [mode, Counts.addRefLockNothrow, Counts.addRefCopy, if_true, Bool.false_eq_true, if_false]
        split
        next => rfl
        next => cases chk true useCount <;> rfl
    rw [hboth, addRefLockNothrow]
    by_cases h0 : useCount = 0
    · simp only [if_pos h0]
      rfl
    · simp only [if_neg h0, Outcome.toOption_map, hcopy]
      cases Counts.addRefCopy (.runTime .single st spurious) ⟨useCount, weakCount⟩ <;> rfl
  | mutex =>
    cases constEval with
    | true => exact absurd rfl (hcons rfl)
    | false =>
      simp only [mode, addRefLockNothrow, Counts.addRefLockNothrow, exchangeAndAddDispatch_eq, exchangeAndAdd,
        Bool.false_eq_true, if_false]
      split
      next =>
        rw [check_toOption hw]
        cases chk true useCount <;> rfl
      next => rfl
  | atomic dw =>
    rw [addRefLockNothrow, hloop]
    cases constEval with
    | true => rw [hget]; rfl
    | false => rw [hget]; rfl

/-! ## Each owner counts -/

/-- The use count is exact for `N` owners. -/
structure Exact (S : Setting) (N : Nat) : Prop where
  useCount : S.getUseCount (BitVec.ofNat 32 N) = N
  copy : S.addRefCopy (BitVec.ofNat 32 N) =
    if N = S.maxOwners then .trap else .value (BitVec.ofNat 32 (N + 1))
  lock : ∀ spurious, S.addRefLockNothrow spurious (BitVec.ofNat 32 N) =
    if N = 0 then .value (false, BitVec.ofNat 32 N)
    else if N = S.maxOwners then .trap
    else .value (true, BitVec.ofNat 32 (N + 1))
  release : N ≠ 0 → ∀ weakCount, S.release weakCount (BitVec.ofNat 32 N) = BitVec.ofNat 32 (N - 1)
  zero : BitVec.ofNat 32 N = 0 ↔ N = 0

/-- Neither is the count read as a negative number by constant evaluation, nor
is `__count + 1` computed for the largest `int`. -/
def InRange (S : Setting) (N : Nat) : Prop :=
  (S.constEval = true → S.lp ≠ .single → N < 2 ^ 31) ∧ ∀ dw, S.lp = .atomic dw → N ≠ 2 ^ 31 - 1

theorem maxOwners_lt (S : Setting) : S.maxOwners < 2 ^ 32 := by
  unfold maxOwners
  split <;> decide

theorem ofNat_maxOwners (S : Setting) : BitVec.ofNat 32 S.maxOwners = maxCount S.wideLong := by
  unfold maxOwners
  cases S.wideLong <;> decide

theorem check_ofNat {N : Nat} (h : N ≤ S.maxOwners) {α : Type} (a : α) :
    S.check (BitVec.ofNat 32 N) a = if N = S.maxOwners then .trap else .value a := by
  have hlt := S.maxOwners_lt
  have hiff : BitVec.ofNat 32 N = maxCount S.wideLong ↔ N = S.maxOwners := by
    rw [← ofNat_maxOwners]
    constructor
    · intro he
      have hn := congrArg BitVec.toNat he
      rw [BitVec.toNat_ofNat, BitVec.toNat_ofNat, Nat.mod_eq_of_lt (by omega), Nat.mod_eq_of_lt hlt] at hn
      exact hn
    · rintro rfl; rfl
  unfold check chk
  by_cases hN : N = S.maxOwners
  · rw [if_pos hN, if_pos (hiff.mpr hN)]
  · rw [if_neg hN, if_neg (hiff.not.mpr hN)]

theorem ofNat_eq_zero {N : Nat} (h : N ≤ S.maxOwners) : BitVec.ofNat 32 N = 0 ↔ N = 0 := by
  have hlt := S.maxOwners_lt
  rw [eq_zero_iff, BitVec.toNat_ofNat, Nat.mod_eq_of_lt (by omega)]

theorem getUseCount_ofNat {N : Nat} (h : N ≤ S.maxOwners) :
    S.getUseCount (BitVec.ofNat 32 N) = N ↔ (S.constEval = true → S.lp ≠ .single → N < 2 ^ 31) := by
  have hlt := S.maxOwners_lt
  have hnat : (BitVec.ofNat 32 N).toNat = N := by rw [BitVec.toNat_ofNat, Nat.mod_eq_of_lt (by omega)]
  have hint : (BitVec.ofNat 32 N).toInt = N ↔ N < 2 ^ 31 := by
    rw [BitVec.toInt_eq_toNat_cond, hnat]
    split <;> omega
  unfold getUseCount toLong
  by_cases hc : S.constEval = true ∧ S.lp ≠ .single
  · rw [if_pos hc, hint]
    simp [hc]
  · rw [if_neg hc]
    have hr : (S.constEval = true → S.lp ≠ .single → N < 2 ^ 31) ↔ True :=
      iff_true_intro fun h₁ h₂ => absurd ⟨h₁, h₂⟩ hc
    rw [hr]
    cases hw : S.wideLong with
    | true => simp [hnat]
    | false =>
      have hmax : N < 2 ^ 31 := by
        simp only [maxOwners, hw, Bool.false_eq_true, if_false] at h
        omega
      simpa using hint.mpr hmax

theorem compareExchange_self (m : Mode) (fails : Bool) (x : AtomicWord) :
    Counts.compareExchange m fails x x =
      (intAddOne x).map fun y => if m = .constEval ∨ fails = false then (true, y, x) else (false, x, x) := by
  have hx : intAddOne x = none ∨ ∃ y, intAddOne x = some y := by cases intAddOne x <;> simp
  rcases hx with hx | ⟨y, hx⟩ <;> cases m <;> cases fails <;> simp [Counts.compareExchange, hx]

/-- The loop, from the value it has to find. -/
theorem addRefLockLoop_same {count : AtomicWord} (h0 : count ≠ 0) (n : Nat) :
    S.addRefLockLoop n count count =
      if count = BitVec.intMax 32 then .overflow else S.check count (true, count + 1) := by
  by_cases hmax : count = BitVec.intMax 32
  · have hadd : intAddOne count = none := if_pos hmax
    unfold addRefLockLoop
    rw [if_neg h0, compareExchange_self, hadd, if_pos hmax]
    rfl
  · have hadd : intAddOne count = some (count + 1) := if_neg hmax
    rw [if_neg hmax]
    induction n with
    | zero =>
      unfold addRefLockLoop
      rw [if_neg h0, compareExchange_self, hadd, Option.map_some, if_pos (.inr rfl)]
    | succ n ih =>
      unfold addRefLockLoop
      rw [if_neg h0, compareExchange_self, hadd, Option.map_some]
      by_cases hm : S.mode 0 = .constEval
      · rw [if_pos (.inl hm)]
      · -- a turn that fails for no reason leaves the count as it was
        rw [if_neg (by simp [hm])]
        exact ih

theorem ofInt_getUseCount (S : Setting) (useCount : AtomicWord) :
    BitVec.ofInt 32 (S.getUseCount useCount) = useCount := by
  unfold getUseCount toLong
  split
  next => exact BitVec.ofInt_toInt
  next =>
    split
    next => simp
    next => exact BitVec.ofInt_toInt

/-- A lock: `_S_atomic` computes `__count + 1` before it looks for the greatest count. -/
theorem addRefLockNothrow_eq (spurious : Nat) :
    S.addRefLockNothrow spurious useCount =
      if useCount = 0 then .value (false, useCount)
      else if (∃ dw, S.lp = .atomic dw) ∧ useCount = BitVec.intMax 32 then .overflow
      else S.check useCount (true, useCount + 1) := by
  unfold addRefLockNothrow
  by_cases h0 : useCount = 0
  · cases S.lp with
    | single => simp only [if_pos h0]
    | mutex => simp [exchangeAndAdd, h0]
    | atomic =>
      simp only [ofInt_getUseCount, if_pos h0]
      unfold addRefLockLoop
      rw [if_pos h0]
  · cases hlp : S.lp with
    | single =>
      have hna : ¬ ((∃ dw, LockPolicy.single = .atomic dw) ∧ useCount = BitVec.intMax 32) := by simp
      simp only [if_neg h0, if_neg hna, addRefCopy_eq, check]
      cases chk S.wideLong useCount <;> rfl
    | mutex =>
      have hna : ¬ ((∃ dw, LockPolicy.mutex = .atomic dw) ∧ useCount = BitVec.intMax 32) := by simp
      simp only [exchangeAndAddDispatch_eq, exchangeAndAdd, if_neg hna, ne_eq, h0, not_false_eq_true, if_true, if_false]
    | atomic dw =>
      simp only [ofInt_getUseCount, addRefLockLoop_same h0, if_neg h0, LockPolicy.atomic.injEq, exists_eq', true_and]

/-- **The use count is exact** for N owners if and only if N is in the range
in which the two bodies that compute with a signed count are right. -/
theorem use_count_exact_iff (S : Setting) (N : Nat) (h : N ≤ S.maxOwners) : S.Exact N ↔ S.InRange N := by
  have hlt := S.maxOwners_lt
  have hnat : (BitVec.ofNat 32 N).toNat = N := by rw [BitVec.toNat_ofNat, Nat.mod_eq_of_lt (by omega)]
  have hzero : BitVec.ofNat 32 N = 0 ↔ N = 0 := ofNat_eq_zero h
  have hmax : BitVec.ofNat 32 N = BitVec.intMax 32 ↔ N = 2 ^ 31 - 1 := by
    rw [← BitVec.toNat_inj, hnat]
    rfl
  constructor
  · intro hx
    refine ⟨(getUseCount_ofNat h).mp hx.useCount, ?_⟩
    intro dw hdw hN
    have hlock := hx.lock 0
    have h0 : N ≠ 0 := by omega
    rw [addRefLockNothrow_eq, if_neg (hzero.not.mpr h0), if_pos ⟨⟨dw, hdw⟩, hmax.mpr hN⟩, if_neg h0] at hlock
    split at hlock <;> cases hlock
  · intro hr
    refine ⟨(getUseCount_ofNat h).mpr hr.1, ?_, fun n => ?_, fun h0 weakCount => ?_, hzero⟩
    · rw [addRefCopy_eq, check_ofNat h, BitVec.ofNat_add]
      rfl
    · have hne : ¬ ((∃ dw, S.lp = .atomic dw) ∧ BitVec.ofNat 32 N = BitVec.intMax 32) := by
        rintro ⟨⟨dw, hdw⟩, hN⟩
        exact hr.2 dw hdw (hmax.mp hN)
      rw [addRefLockNothrow_eq, if_neg hne, check_ofNat h, BitVec.ofNat_add]
      exact if_congr hzero rfl rfl
    · have hne : (⟨BitVec.ofNat 32 N, weakCount⟩ : Counts).useCount ≠ 0 := hzero.not.mpr h0
      have hrel : S.release weakCount (BitVec.ofNat 32 N) =
          (Counts.lessUse ⟨BitVec.ofNat 32 N, weakCount⟩).useCount := by
        rw [release, Counts.release_eq]
        split <;> rfl
      rw [hrel, ← BitVec.toNat_inj, Counts.toNat_lessUse hne, hnat, BitVec.toNat_ofNat, Nat.mod_eq_of_lt (by omega)]

/-- `_S_atomic` at run time, where `long` is wider. -/
def atomicRunTime : Setting := ⟨.atomic false, false, false, true, nofun⟩

/-- The same by constant evaluation. -/
def atomicConstEval : Setting := ⟨.atomic false, true, false, true, nofun⟩

/-- With 2^31 - 1 owners a lock adds 1 to the largest `int`. -/
theorem use_count_not_exact : ¬ atomicRunTime.Exact (2 ^ 31 - 1) := by
  intro hx
  have hlock := hx.lock 0
  rw [show atomicRunTime.addRefLockNothrow 0 (BitVec.ofNat 32 (2 ^ 31 - 1)) = .overflow by decide +kernel] at hlock
  exact absurd hlock (by decide +kernel)

/-- The greatest count of all, and a constant evaluation with a count that is negative as an `int`. -/
theorem use_count_exact_greatest : atomicRunTime.Exact (2 ^ 32 - 1) ∧ ¬ atomicConstEval.Exact (2 ^ 31) :=
  ⟨(use_count_exact_iff atomicRunTime (2 ^ 32 - 1) (by decide)).mpr ⟨nofun, fun _ _ => by decide⟩,
    fun h => by
      have hr := (use_count_exact_iff atomicConstEval (2 ^ 31) (by decide)).mp h
      exact absurd (hr.1 rfl nofun) (by decide)⟩

end

end Setting

end SharedPtr.Seq
