/-
The counters of one control block as one thread executes them, in each of the
ways the header has: by constant evaluation (`_S_atomic` with the branches
under `__builtin_is_constant_evaluated()`), and at run time under each lock
policy. A function that traps, or that adds 1 to the largest `int` (undefined
at run time, no constant expression otherwise), has no result.

`release` and `weakRelease` return the virtual calls they make, in order: no
call made by `_M_dispose` reads or writes these counters here.

The ways agree (`addRefCopy_eq`, `release_eq`, `addRefLock_eq`,
`getUseCount_eq`): the first two on every value of the counters, the others
while the use count is below 2^31.
-/
import SharedPtr.CountedBase

namespace SharedPtr.Seq

/-- How counter functions are executed; at run time, with the answer of
`__is_single_threaded()` and how often a weak compare-exchange fails on equal
values before it succeeds. -/
inductive Mode
  | constEval
  | runTime (lp : LockPolicy) (singleThreaded : Bool) (spurious : Nat)
  deriving DecidableEq, Repr

/-- Run time with `__default_lock_policy`, in a program of one thread. -/
def Mode.defaultPolicy : Mode := .runTime (.atomic true) true 0

/-- `__is_single_threaded()`. -/
def Mode.isSingleThreaded : Mode → Bool
  | .constEval => true
  | .runTime _ st _ => st

def Mode.spurious : Mode → Nat
  | .constEval => 0
  | .runTime _ _ n => n

/-- `_M_use_count` and `_M_weak_count`. -/
structure Counts where
  useCount : AtomicWord
  weakCount : AtomicWord
  deriving DecidableEq, Repr

/-- The virtual functions that the counters call. -/
inductive Call
  | dispose
  | destroy
  deriving DecidableEq, Repr

/-- `__count + 1` in `int`. -/
def intAddOne (count : AtomicWord) : Option AtomicWord :=
  if count = BitVec.intMax 32 then none else some (count + 1)

namespace Counts

/-- `_Sp_counted_base()`. -/
def new : Counts := ⟨1, 1⟩

/-- `_M_add_ref_copy`. -/
def addRefCopy : Mode → Counts → Option Counts
  | .runTime .single _ _, c => do
    chk true c.useCount
    some { c with useCount := atomicAddSingle c.useCount 1 }
  | m, c => do
    let (old, new) := exchangeAndAddDispatch m.isSingleThreaded c.useCount 1
    chk true old
    some { c with useCount := new }

/-- `_M_weak_add_ref`. -/
def weakAddRef (m : Mode) (c : Counts) : Option Counts :=
  let (old, new) := exchangeAndAddDispatch m.isSingleThreaded c.weakCount 1
  if old = -1 then none else some { c with weakCount := new }

/-- `_M_get_use_count`, a `long`. -/
def getUseCount : Mode → Counts → Int
  | .constEval, c => c.useCount.toInt
  | .runTime .., c => c.useCount.toNat

/-- The compare-exchange of `__count` with `__count + 1` in the loop below:
whether it succeeded, and `_M_use_count` and `__count` after it. The one for
constant evaluation is written out; the other is
`__atomic_compare_exchange_n`, weak. -/
def compareExchange : Mode → Bool → AtomicWord → AtomicWord → Option (Bool × AtomicWord × AtomicWord)
  | .constEval, _, useCount, count =>
    if useCount = count then do
      let next ← intAddOne count
      some (true, next, count)
    else some (false, useCount, useCount)
  | .runTime .., fails, useCount, count => do
    let next ← intAddOne count
    if useCount = count ∧ fails = false then some (true, next, count)
    else some (false, useCount, useCount)

/-- The loop of `_S_atomic`'s `_M_add_ref_lock_nothrow`, of which at most `n`
more turns fail for no reason. -/
def addRefLockLoop (m : Mode) (n : Nat) (count : AtomicWord) (c : Counts) : Option (Bool × Counts) :=
  if count = 0 then some (false, c)
  else do
    let (ok, useCount, count) ← compareExchange m (n != 0) c.useCount count
    if ok then do
      chk true count
      some (true, { c with useCount := useCount })
    else
      match n with
      | 0 => none
      | n + 1 => addRefLockLoop m n count c

/-- `_M_add_ref_lock_nothrow`. -/
def addRefLockNothrow : Mode → Counts → Option (Bool × Counts)
  | .runTime .single st n, c =>
    if c.useCount = 0 then some (false, c)
    else do
      let c' ← addRefCopy (.runTime .single st n) c
      some (true, c')
  | .runTime .mutex st _, c =>
    let (old, new) := exchangeAndAddDispatch st c.useCount 1
    if old ≠ 0 then do
      chk true old
      some (true, { c with useCount := new })
    -- Count was zero; reset to zero.
    else some (false, { c with useCount := 0 })
  | m, c => addRefLockLoop m m.spurious (BitVec.ofInt 32 (c.getUseCount m)) c

/-- `_M_weak_release`. -/
def weakRelease : Mode → Counts → Counts × List Call
  | .runTime .single .., c =>
    let (old, new) := exchangeAndAddSingle c.weakCount (-1)
    ({ c with weakCount := new }, if old = 1 then [.destroy] else [])
  | m, c =>
    let (old, new) := exchangeAndAddDispatch m.isSingleThreaded c.weakCount (-1)
    ({ c with weakCount := new }, if old = 1 then [.destroy] else [])

/-- `_M_release_last_use`, `_M_release_last_use_cold`. -/
def releaseLastUse (m : Mode) (c : Counts) : Counts × List Call :=
  let (old, new) := exchangeAndAddDispatch m.isSingleThreaded c.weakCount (-1)
  ({ c with weakCount := new }, .dispose :: if old = 1 then [.destroy] else [])

/-- The two counters read as one `long long`, the use count in the low word. -/
def bothCounts (c : Counts) : BitVec 64 := c.weakCount ++ c.useCount

/-- `__unique_ref`. -/
def uniqueRef : BitVec 64 := 1 + 1 <<< 32

/-- `_M_release` without the double-word check. -/
def releasePlain (m : Mode) (c : Counts) : Counts × List Call :=
  let (old, new) := exchangeAndAddDispatch m.isSingleThreaded c.useCount (-1)
  let c := { c with useCount := new }
  if old = 1 then releaseLastUse m c else (c, [])

/-- `_M_release`. -/
def release : Mode → Counts → Counts × List Call
  | .runTime .single st n, c =>
    let (old, new) := exchangeAndAddSingle c.useCount (-1)
    let c := { c with useCount := new }
    if old = 1 then
      let r := weakRelease (.runTime .single st n) c
      (r.1, .dispose :: r.2)
    else (c, [])
  | .runTime (.atomic true) st n, c =>
    if c.bothCounts = uniqueRef then (⟨0, 0⟩, [.dispose, .destroy])
    else releasePlain (.runTime (.atomic true) st n) c
  | m, c => releasePlain m c

/-! ## What they do -/

/-- One shared owner less, and one weak one. -/
def lessUse (c : Counts) : Counts := { c with useCount := c.useCount - 1 }

def lessWeak (c : Counts) : Counts := { c with weakCount := c.weakCount - 1 }

@[simp] theorem lessUse_weakCount (c : Counts) : c.lessUse.weakCount = c.weakCount := rfl

@[simp] theorem lessWeak_useCount (c : Counts) : c.lessWeak.useCount = c.useCount := rfl

theorem toNat_lessUse {c : Counts} (h : c.useCount ≠ 0) :
    c.lessUse.useCount.toNat = c.useCount.toNat - 1 := by
  rw [lessUse, BitVec.sub_eq_add_neg, toNat_add_neg_one h]

theorem toNat_lessWeak {c : Counts} (h : c.weakCount ≠ 0) :
    c.lessWeak.weakCount.toNat = c.weakCount.toNat - 1 := by
  rw [lessWeak, BitVec.sub_eq_add_neg, toNat_add_neg_one h]

theorem lessUse_ne_zero {c : Counts} (h₀ : c.useCount ≠ 0) (h₁ : c.useCount ≠ 1) : c.lessUse.useCount ≠ 0 := by
  rw [Ne, eq_zero_iff] at h₀ ⊢
  rw [Ne, eq_one_iff] at h₁
  rw [toNat_lessUse (by rwa [Ne, eq_zero_iff])]
  omega

theorem lessWeak_ne_zero {c : Counts} (h₀ : c.weakCount ≠ 0) (h₁ : c.weakCount ≠ 1) :
    c.lessWeak.weakCount ≠ 0 := by
  rw [Ne, eq_zero_iff] at h₀ ⊢
  rw [Ne, eq_one_iff] at h₁
  rw [toNat_lessWeak (by rwa [Ne, eq_zero_iff])]
  omega

theorem lessUse_eq_zero {c : Counts} (h : c.useCount = 1) : c.lessUse.useCount = 0 := by
  rw [eq_zero_iff, toNat_lessUse (by rw [h]; decide), h]
  rfl

theorem lessWeak_eq_zero {c : Counts} (h : c.weakCount = 1) : c.lessWeak.weakCount = 0 := by
  rw [eq_zero_iff, toNat_lessWeak (by rw [h]; decide), h]
  rfl

theorem chk_of_ne {count : AtomicWord} (h : count ≠ -1) : chk true count = some () :=
  chk_eq_some.mpr h

theorem addRefCopy_eq_some {m : Mode} {c c' : Counts} :
    c.addRefCopy m = some c' ↔ c.useCount ≠ -1 ∧ c' = { c with useCount := c.useCount + 1 } := by
  have h : c.addRefCopy m = (chk true c.useCount).bind fun _ =>
      some { c with useCount := c.useCount + 1 } := by
    rcases m with _ | ⟨_ | _ | _, _ | _, _⟩ <;> rfl
  simp only [h, Option.bind_eq_some_iff, chk_eq_some, Option.some.injEq, exists_const, @eq_comm _ _ c']

theorem weakAddRef_eq_some {m : Mode} {c c' : Counts} :
    c.weakAddRef m = some c' ↔ c.weakCount ≠ -1 ∧ c' = { c with weakCount := c.weakCount + 1 } := by
  simp only [weakAddRef, exchangeAndAddDispatch_eq, exchangeAndAdd]
  split
  next h => simp [h]
  next h => simp only [Option.some.injEq, ne_eq, h, not_false_eq_true, true_and, @eq_comm _ _ c']

theorem weakRelease_eq (m : Mode) (c : Counts) :
    c.weakRelease m = (c.lessWeak, if c.weakCount = 1 then [.destroy] else []) := by
  have h : c.weakRelease m =
      ({ c with weakCount := c.weakCount + -1 }, if c.weakCount = 1 then [.destroy] else []) := by
    rcases m with _ | ⟨_ | _ | _, _ | _, _⟩ <;> rfl
  rw [h, BitVec.add_neg_eq_sub, lessWeak]

theorem bothCounts_eq_uniqueRef {c : Counts} :
    c.bothCounts = uniqueRef ↔ c.useCount = 1 ∧ c.weakCount = 1 := by
  have hu : uniqueRef = (1 : BitVec 32) ++ (1 : BitVec 32) := by decide
  rw [bothCounts, hu]
  constructor
  · intro h
    have hlo : c.useCount = 1 := by
      rw [← BitVec.extractLsb'_append_eq_right (a := c.weakCount) (b := c.useCount), h]
      decide
    rw [hlo, BitVec.append_left_inj] at h
    exact ⟨hlo, h⟩
  · rintro ⟨h₁, h₂⟩
    rw [h₁, h₂]

/-- `_M_release`, whatever the mode. -/
theorem release_eq (m : Mode) (c : Counts) :
    c.release m =
      if c.useCount = 1 then
        (c.lessUse.lessWeak, .dispose :: if c.weakCount = 1 then [.destroy] else [])
      else (c.lessUse, []) := by
  have hplain : c.releasePlain m = if c.useCount = 1 then
        (c.lessUse.lessWeak, .dispose :: if c.weakCount = 1 then [.destroy] else [])
      else (c.lessUse, []) := by
    simp only [releasePlain, releaseLastUse, exchangeAndAddDispatch_eq, exchangeAndAdd,
      BitVec.add_neg_eq_sub, lessUse, lessWeak]
  rcases m with _ | ⟨_ | _ | dw, st, n⟩
  · exact hplain
  · rw [← hplain]
    simp only [release, releasePlain, releaseLastUse, weakRelease_eq, exchangeAndAddDispatch_eq,
      exchangeAndAdd, exchangeAndAddSingle, lessWeak, BitVec.add_neg_eq_sub]
  · exact hplain
  · cases dw with
    | false => exact hplain
    | true =>
      simp only [release]
      split
      next h =>
        obtain ⟨h₁, h₂⟩ := bothCounts_eq_uniqueRef.mp h
        rw [if_pos h₁, if_pos h₂]
        simp only [lessUse, lessWeak, h₁, h₂]
        rfl
      next => exact hplain

theorem compareExchange_eq_some {m : Mode} {fails : Bool} {x : AtomicWord} {r : Bool × AtomicWord × AtomicWord}
    (h : compareExchange m fails x x = some r) : r = (true, x + 1, x) ∨ r = (false, x, x) := by
  have hadd : ∀ y, intAddOne x = some y → y = x + 1 := by
    intro y hy
    unfold intAddOne at hy
    split at hy
    · cases hy
    · exact (Option.some.inj hy).symm
  cases m with
  | constEval =>
    simp only [compareExchange, if_true, Option.bind_eq_bind, Option.bind_eq_some_iff] at h
    obtain ⟨y, hy, he⟩ := h
    exact .inl (by rw [← Option.some.inj he, hadd y hy])
  | runTime =>
    simp only [compareExchange, Option.bind_eq_bind, Option.bind_eq_some_iff] at h
    obtain ⟨y, hy, he⟩ := h
    split at he
    · exact .inl (by rw [← Option.some.inj he, hadd y hy])
    · exact .inr (Option.some.inj he).symm

theorem ofInt_getUseCount (m : Mode) (c : Counts) : BitVec.ofInt 32 (c.getUseCount m) = c.useCount := by
  cases m with
  | constEval => simp [getUseCount]
  | runTime => simp [getUseCount]

/-- What a lock that has a result did. -/
def Locked (c : Counts) (r : Bool × Counts) : Prop :=
  r = (false, c) ∧ c.useCount = 0 ∨
    r = (true, { c with useCount := c.useCount + 1 }) ∧ c.useCount ≠ 0 ∧ c.useCount ≠ -1

/-- A turn of the loop has a result, or it fails for no reason and another turn follows. -/
theorem addRefLockLoop_cases {m : Mode} {c : Counts} {r : Bool × Counts} {n : Nat}
    (h : c.addRefLockLoop m n c.useCount = some r) :
    c.Locked r ∨ ∃ n', n = n' + 1 ∧ c.addRefLockLoop m n' c.useCount = some r := by
  unfold addRefLockLoop at h
  split at h
  next h0 => exact .inl (.inl ⟨(Option.some.inj h).symm, h0⟩)
  next h0 =>
    simp only [Option.bind_eq_bind, Option.bind_eq_some_iff] at h
    obtain ⟨e, he, h⟩ := h
    rcases compareExchange_eq_some he with rfl | rfl
    · simp only [if_true, Option.bind_eq_some_iff, chk_eq_some, Option.some.injEq] at h
      obtain ⟨-, hc, rfl⟩ := h
      exact .inl (.inr ⟨rfl, h0, hc⟩)
    · cases n with
      | zero => simp at h
      | succ n' => exact .inr ⟨n', rfl, by simpa only [Bool.false_eq_true, if_false] using h⟩

theorem addRefLockLoop_locked {m : Mode} {c : Counts} {r : Bool × Counts} (n : Nat)
    (h : c.addRefLockLoop m n c.useCount = some r) : c.Locked r := by
  induction n with
  | zero =>
    rcases addRefLockLoop_cases h with hl | ⟨n', hn, -⟩
    · exact hl
    · cases hn
  | succ n ih =>
    rcases addRefLockLoop_cases h with hl | ⟨n', hn, hrest⟩
    · exact hl
    · cases hn
      exact ih hrest

/-- `_M_add_ref_lock_nothrow`, whatever the mode. -/
theorem addRefLockNothrow_locked {m : Mode} {c : Counts} {r : Bool × Counts}
    (h : c.addRefLockNothrow m = some r) : c.Locked r := by
  rcases m with _ | ⟨_ | _ | _, st, n⟩
  · simp only [addRefLockNothrow, ofInt_getUseCount] at h
    exact addRefLockLoop_locked _ h
  · simp only [addRefLockNothrow] at h
    split at h
    next h0 => exact .inl ⟨(Option.some.inj h).symm, h0⟩
    next h0 =>
      simp only [Option.bind_eq_bind, Option.bind_eq_some_iff, addRefCopy_eq_some] at h
      obtain ⟨c', ⟨hc, rfl⟩, he⟩ := h
      exact .inr ⟨(Option.some.inj he).symm, h0, hc⟩
  · simp only [addRefLockNothrow, exchangeAndAddDispatch_eq, exchangeAndAdd] at h
    split at h
    next h0 =>
      simp only [Option.bind_eq_bind, Option.bind_eq_some_iff, chk_eq_some] at h
      obtain ⟨-, hc, he⟩ := h
      exact .inr ⟨(Option.some.inj he).symm, h0, hc⟩
    next h0 =>
      have h0 : c.useCount = 0 := not_not.mp h0
      exact .inl ⟨by rw [← Option.some.inj h, ← h0], h0⟩
  · simp only [addRefLockNothrow, ofInt_getUseCount] at h
    exact addRefLockLoop_locked _ h

/-! ## The modes agree -/

theorem addRefCopy_eq (m m' : Mode) (c : Counts) : c.addRefCopy m = c.addRefCopy m' :=
  Option.ext fun _ => addRefCopy_eq_some.trans addRefCopy_eq_some.symm

theorem weakAddRef_eq (m m' : Mode) (c : Counts) : c.weakAddRef m = c.weakAddRef m' :=
  Option.ext fun _ => weakAddRef_eq_some.trans weakAddRef_eq_some.symm

theorem getUseCount_eq {c : Counts} (h : c.useCount.toNat < 2 ^ 31) (m : Mode) :
    c.getUseCount m = c.useCount.toNat := by
  cases m with
  | constEval => rw [getUseCount, BitVec.toInt_eq_toNat_of_lt (by omega)]
  | runTime => rfl

theorem ne_intMax {x : AtomicWord} (h : x.toNat + 1 < 2 ^ 31) : x ≠ BitVec.intMax 32 := by
  intro he
  rw [he] at h
  exact absurd h (by decide)

theorem ne_neg_one {x : AtomicWord} (h : x.toNat + 1 < 2 ^ 31) : x ≠ -1 := by
  intro he
  rw [he] at h
  exact absurd h (by decide)

/-- Nobody else is on the counters: the two compare-exchanges see equal values. -/
theorem compareExchange_same {x : AtomicWord} (h : x.toNat + 1 < 2 ^ 31) (m : Mode) (fails : Bool) :
    compareExchange m fails x x = some (true, x + 1, x) ∨ compareExchange m fails x x = some (false, x, x) ∧
      fails = true := by
  cases m with
  | constEval => exact .inl (by simp only [compareExchange, intAddOne, if_neg (ne_intMax h), if_true,
      Option.bind_eq_bind, Option.bind_some])
  | runTime =>
    simp only [compareExchange, intAddOne, if_neg (ne_intMax h), Option.bind_eq_bind, Option.bind_some,
      true_and]
    cases fails with
    | false => exact .inl rfl
    | true => exact .inr ⟨rfl, rfl⟩

/-- The loop ends, however often the compare-exchange fails for no reason. -/
theorem addRefLockLoop_eq {c : Counts} (h : c.useCount.toNat + 1 < 2 ^ 31) (m : Mode) (n : Nat) :
    c.addRefLockLoop m n c.useCount =
      if c.useCount = 0 then some (false, c)
      else some (true, { c with useCount := c.useCount + 1 }) := by
  induction n with
  | zero =>
    rw [addRefLockLoop]
    rcases compareExchange_same h m (0 != 0) with he | ⟨-, hf⟩
    · simp only [he, chk_of_ne (ne_neg_one h), Option.bind_eq_bind, Option.bind_some, if_true]
    · simp at hf
  | succ n ih =>
    rw [addRefLockLoop]
    rcases compareExchange_same h m (n + 1 != 0) with he | ⟨he, -⟩
    · simp only [he, chk_of_ne (ne_neg_one h), Option.bind_eq_bind, Option.bind_some, if_true]
    · split
      next => rfl
      next h0 =>
        rw [if_neg h0] at ih
        simpa only [he, Option.bind_eq_bind, Option.bind_some, Bool.false_eq_true, if_false] using ih

/-- A lock, where the count it may make still is below 2^31. -/
theorem addRefLockNothrow_eq {c : Counts} (h : c.useCount.toNat + 1 < 2 ^ 31) (m : Mode) :
    c.addRefLockNothrow m =
      if c.useCount = 0 then some (false, c)
      else some (true, { c with useCount := c.useCount + 1 }) := by
  have hloop : ∀ m n, c.addRefLockLoop m n (BitVec.ofInt 32 (c.getUseCount m)) =
      if c.useCount = 0 then some (false, c)
      else some (true, { c with useCount := c.useCount + 1 }) := by
    intro m n
    rw [ofInt_getUseCount, addRefLockLoop_eq h]
  rcases m with _ | ⟨_ | _ | _, st, n⟩
  · exact hloop _ _
  · simp only [addRefLockNothrow, addRefCopy_eq_some.mpr ⟨ne_neg_one h, rfl⟩, Option.bind_eq_bind,
      Option.bind_some]
  · simp only [addRefLockNothrow, exchangeAndAddDispatch_eq, exchangeAndAdd, chk_of_ne (ne_neg_one h),
      Option.bind_eq_bind, Option.bind_some]
    by_cases h0 : c.useCount = 0
    · rw [if_neg (not_not.mpr h0), if_pos h0, ← h0]
    · rw [if_pos h0, if_neg h0]
  · exact hloop _ _

end Counts

end SharedPtr.Seq
