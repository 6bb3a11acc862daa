/-
The public algorithms of `bits/stl_uninitialized.h` that have shortcuts at run
time: bytes are copied or set, or the first object is copied over the others,
where the element type is trivial. In a constant evaluation they take none, and
come to the same (`shortcuts_agree`), negative counts apart
(`fillN_below_zero`).
-/
import SharedPtr.CommitOrRollback

namespace SharedPtr.Raw

open Lib (Prog Result)

variable {α ε : Type} {C : Ctors α ε} {cell cell' : Nat → Option α} {k n : Nat} {args : List (Arg α)} {vs : List α}
  {failure : Option ε} {first result : Nat} {x z : α}

/-- `__builtin_memcpy(result, first, n * sizeof(T))`. -/
def memcpy (cell : Nat → Option α) (first result n p : Nat) : Option α :=
  if result ≤ p ∧ p < result + n then cell (first + (p - result)) else cell p

/-- `__builtin_memset(first, x, n)` and `std::fill_n(first, n, x)`. -/
def filled (cell : Nat → Option α) (first n : Nat) (x : α) (p : Nat) : Option α :=
  if first ≤ p ∧ p < first + n then some x else cell p

/-- `*p`. -/
def load (p : Nat) : Prog (Memory α) ε α := fun s => Prog.ofOption (s.cell p) s

def write (f : (Nat → Option α) → Nat → Option α) : Prog (Memory α) ε Unit :=
  Prog.modify fun s => { s with cell := f s.cell }

/-! ## The functions, whether in a constant evaluation, and for types with the shortcut or without -/

namespace Ctors

variable (C) (constEval can : Bool)

def uninitializedCopy (first last result : Nat) : Prog (Memory α) ε Nat :=
  if constEval || !can then C.doUninitCopy first last result
  else do
    write fun cell => memcpy cell first result (last - first)
    return result + (last - first)

/-- `uninitialized_move`, whose iterators are taken off before the bytes are copied. -/
def uninitializedMove (first last result : Nat) : Prog (Memory α) ε Nat :=
  if constEval || !can then C.uninitializedMoveA first last result
  else do
    write fun cell => memcpy cell first result (last - first)
    return result + (last - first)

def uninitializedFill (first last : Nat) (x : α) : Prog (Memory α) ε Unit :=
  if constEval || !can then C.doUninitFill first last x else write fun cell => filled cell first (last - first) x

def uninitializedFillN (first : Nat) (n : Int) (x : α) : Prog (Memory α) ε Nat :=
  if constEval || !can then C.doUninitFillN first n x
  else if 0 < n then do
    write fun cell => filled cell first n.toNat x
    return first + n.toNat
  else return first

/-- `__uninitialized_default`, with `__uninitialized_default_1<true>`. -/
def uninitializedDefault (first last : Nat) : Prog (Memory α) ε Unit :=
  if constEval || !can then C.uninitDefault first last
  else if first = last then return ()
  else do
    C.construct first .value
    if first + 1 ≠ last then
      let val ← load first
      write fun cell => filled cell (first + 1) (last - (first + 1)) val

/-- `__uninitialized_default_n`, with `__uninitialized_default_n_1<true>`. -/
def uninitializedDefaultN (first : Nat) (n : Int) : Prog (Memory α) ε Nat :=
  if constEval || !can then C.uninitDefaultN first n
  else if 0 < n then do
    C.construct first .value
    let val ← load first
    write fun cell => filled cell (first + 1) (n - 1).toNat val
    return first + 1 + (n - 1).toNat
  else return first

end Ctors

inductive Public (α : Type)
  | copy (first last result : Nat)
  | move (first last result : Nat)
  | fill (first last : Nat) (x : α)
  | fillN (first : Nat) (n : Int) (x : α)
  | valueConstruct (first last : Nat)
  | valueConstructN (first : Nat) (n : Int)

namespace Public

def exec (C : Ctors α ε) (constEval can : Bool) : Public α → Prog (Memory α) ε (List Nat)
  | copy first last result => do return [← C.uninitializedCopy constEval can first last result]
  | move first last result => do return [← C.uninitializedMove constEval can first last result]
  | fill first last x => do
    C.uninitializedFill constEval can first last x
    return []
  | fillN first n x => do return [← C.uninitializedFillN constEval can first n x]
  | valueConstruct first last => do
    C.uninitializedDefault constEval can first last
    return []
  | valueConstructN first n => do return [← C.uninitializedDefaultN constEval can first n]

/-- Without a shortcut. -/
def algorithm : Public α → Algorithm α
  | copy first last result => .copy first last result
  | move first last result => .move first last result
  | fill first last x => .fill first last x
  | fillN first n x => .fillN first n x
  | valueConstruct first last => .default first last
  | valueConstructN first n => .defaultN first n

end Public

/-- What the shortcuts rely on: constructors do not throw, and copies are copies of the bytes. -/
structure Trivial (C : Ctors α ε) (z : α) : Prop where
  value : ∀ k, C.value k = .ok z
  copy : ∀ k x, C.copy k x = .ok x
  move : ∀ k x, C.move k x = .ok x
  moved : ∀ k x, C.moved k x = x

/-- What a trivial type's element is made from an argument. -/
def made (z : α) (cell : Nat → Option α) : Arg α → Option α
  | .value | .novalue => some z
  | .copyOf x => some x
  | .copyFrom q | .moveFrom q => cell q

namespace Trivial

variable {arg : Arg α}

theorem left_eq (hC : Trivial C z) : C.left cell k arg = cell := by
  cases arg with
  | value | novalue | copyOf | copyFrom => rfl
  | moveFrom q =>
    have hmoved : C.moved k = id := funext (hC.moved k)
    rw [Ctors.left, hmoved, Option.map_id_fun, id, Function.update_eq_self]

theorem answer_eq (hC : Trivial C z) (harg : arg ≠ .novalue) : C.answer cell k arg = (made z cell arg).map .ok := by
  cases arg with
  | value => exact congrArg some (hC.value k)
  | novalue => exact absurd rfl harg
  | copyOf x => exact congrArg some (hC.copy k x)
  | copyFrom q =>
    have hcopy : C.copy k = .ok := funext (hC.copy k)
    rw [Ctors.answer, hcopy, made]
  | moveFrom q =>
    have hmove : C.move k = .ok := funext (hC.move k)
    rw [Ctors.answer, hmove, made]

theorem constructs (hC : Trivial C z) (h : Constructs C cell k args vs failure cell') (hargs : .novalue ∉ args) :
    failure = none ∧ cell' = cell ∧ vs.map some = args.map (made z cell) := by
  induction h with
  | nil => exact ⟨rfl, rfl, rfl⟩
  | ok ha _ ih =>
    rw [List.mem_cons, not_or] at hargs
    rw [hC.left_eq] at ih
    obtain ⟨hf, hcell, hvs⟩ := ih hargs.2
    rw [hC.answer_eq (Ne.symm hargs.1)] at ha
    obtain ⟨w, hw, hv⟩ := Option.map_eq_some_iff.mp ha
    cases hv
    exact ⟨hf, hcell, by rw [List.map_cons, List.map_cons, hw, hvs]⟩
  | error ha =>
    rw [List.mem_cons, not_or] at hargs
    rw [hC.answer_eq (Ne.symm hargs.1)] at ha
    obtain ⟨w, -, hv⟩ := Option.map_eq_some_iff.mp ha
    cases hv

end Trivial

/-! ## What the loops leave -/

/-- The objects of one range over the cells of another memory. -/
theorem overlay_map {base : Nat → Option α} (h : vs.map some = (List.range' first n).map cell) (p : Nat) :
    overlay base result vs p = if result ≤ p ∧ p < result + n then cell (first + (p - result)) else base p := by
  induction n generalizing first result vs with
  | zero =>
    obtain rfl : vs = [] := by simpa using h
    exact (if_neg (by omega)).symm
  | succ n ih =>
    cases vs with
    | nil => simp at h
    | cons v vs =>
      obtain ⟨hv, hvs⟩ := List.cons.inj h
      rw [overlay, Function.update_apply, ih hvs]
      by_cases hp : p = result
      · simp [hp, hv]
      · rw [if_neg hp]
        by_cases hin : result + 1 ≤ p ∧ p < result + 1 + n
        · rw [if_pos hin, if_pos (by omega)]
          congr 1
          omega
        · rw [if_neg hin, if_neg (by omega)]

theorem overlay_memcpy (h : vs.map some = (List.range' first n).map cell) :
    overlay cell result vs = memcpy cell first result n := funext (overlay_map h)

theorem filled_succ : filled (Function.update cell first (some x)) (first + 1) n x = filled cell first (n + 1) x := by
  funext p
  simp only [filled, Function.update_apply]
  grind

theorem overlay_filled (h : vs.map some = List.replicate n (some x)) :
    overlay cell first vs = filled cell first n x := by
  obtain rfl : vs = List.replicate n x := by
    rw [← List.map_replicate] at h
    exact List.map_injective_iff.mpr (fun _ _ => Option.some.inj) h
  induction n generalizing first cell with
  | zero =>
    funext p
    exact (if_neg (by omega)).symm
  | succ n ih =>
    rw [List.replicate_succ, overlay, ← overlay_update (Nat.lt_succ_self first), ← filled_succ]
    exact ih (by simp)

theorem filled_zero : filled cell first 0 x = cell := by
  funext p
  exact if_neg (by omega)

theorem construct_first (hC : Trivial C z) (hraw : cell first = none) :
    C.construct first .value ⟨cell, k⟩ = (.ok (), ⟨filled cell first 1 z, k + 1⟩) := by
  rw [← filled_succ, filled_zero]
  exact construct_ok hraw (congrArg some (hC.value k))

theorem load_first :
    (load first : Prog (Memory α) ε α) ⟨filled cell first 1 z, k⟩ = (.ok z, ⟨filled cell first 1 z, k⟩) := by
  have hfirst : filled cell first 1 z first = some z := if_pos (by omega)
  simp only [load, hfirst, Prog.ofOption_some]

/-- Copies of the first object behind it. -/
theorem filled_first : filled (filled cell first 1 z) (first + 1) n z = filled cell first (n + 1) z := by
  rw [← filled_succ, filled_zero, filled_succ]

/-! ## They agree -/

theorem Public.exec_constEval (can : Bool) (op : Public α) : op.exec C true can = op.algorithm.exec C := by
  cases op <;> rfl

theorem Public.exec_cannot (op : Public α) : op.exec C false false = op.algorithm.exec C := by
  cases op <;> rfl

theorem Public.no_novalue (op : Public α) : .novalue ∉ op.algorithm.elements := by
  cases op <;> simp [algorithm, Algorithm.elements, List.mem_replicate]

theorem Algorithm.exec_trivial (hC : Trivial C z) {op : Algorithm α} (h : op.Ready cell)
    (hop : .novalue ∉ op.elements) :
    ∃ vs, vs.map some = op.elements.map (made z cell) ∧
      op.exec C ⟨cell, k⟩ = (.ok op.returns, ⟨overlay cell op.target vs, k + vs.length⟩) := by
  obtain ⟨vs, failure, cell', hc⟩ := Constructs.exists_of_alive (C := C) (k := k) h.alive
  obtain ⟨rfl, rfl, hvs⟩ := hC.constructs hc hop
  exact ⟨vs, hvs, (Algorithm.builds h.valid).apply hc h.raw h.alive⟩

/-! The shortcuts, one function at a time. -/

theorem uninitializedFillN_shortcut {n : Int} (hn : 0 ≤ n) :
    C.uninitializedFillN false true first n x ⟨cell, k⟩ =
      (.ok (first + n.toNat), ⟨filled cell first n.toNat x, k⟩) := by
  simp only [Ctors.uninitializedFillN, Bool.not_true, Bool.or_self, Bool.false_eq_true, if_false]
  by_cases hpos : 0 < n
  · rw [if_pos hpos]
    rfl
  · obtain rfl : n = 0 := by omega
    rw [Int.toNat_zero, filled_zero]
    rfl

theorem uninitializedDefault_shortcut (hC : Trivial C z) {last : Nat} (hle : first ≤ last)
    (hraw : first < last → cell first = none) :
    ∃ k', C.uninitializedDefault false true first last ⟨cell, k⟩ =
      (.ok (), ⟨filled cell first (last - first) z, k'⟩) := by
  simp only [Ctors.uninitializedDefault, Bool.not_true, Bool.or_self, Bool.false_eq_true, if_false]
  by_cases hnone : first = last
  · refine ⟨k, ?_⟩
    rw [if_pos hnone, hnone, Nat.sub_self, filled_zero]
    rfl
  · have hfirst := construct_first (k := k) hC (hraw (by omega))
    refine ⟨k + 1, ?_⟩
    rw [if_neg hnone]
    by_cases hone : first + 1 = last
    · have hlen : last - first = 1 := by omega
      simp only [Prog.bind_apply, hfirst, hone, ne_eq, not_true, if_false, hlen]
      rfl
    · have hlen : last - first = last - (first + 1) + 1 := by omega
      simp only [ne_eq, hone, not_false_eq_true, if_true, hlen, Prog.bind_apply, hfirst, load_first, write,
        Prog.modify_apply, filled_first]

theorem uninitializedDefaultN_shortcut (hC : Trivial C z) {n : Int} (hraw : 0 < n → cell first = none) :
    ∃ k', C.uninitializedDefaultN false true first n ⟨cell, k⟩ =
      (.ok (first + n.toNat), ⟨filled cell first n.toNat z, k'⟩) := by
  simp only [Ctors.uninitializedDefaultN, Bool.not_true, Bool.or_self, Bool.false_eq_true, if_false]
  by_cases hn : 0 < n
  · have hlen : n.toNat = (n - 1).toNat + 1 := by omega
    have hlast : first + 1 + (n - 1).toNat = first + n.toNat := by omega
    refine ⟨k + 1, ?_⟩
    simp only [if_pos hn, Prog.bind_apply, construct_first hC (hraw hn), load_first, write, Prog.modify_apply,
      filled_first, hlast, ← hlen]
    rfl
  · have hzero : n.toNat = 0 := by omega
    refine ⟨k, ?_⟩
    rw [if_neg hn, hzero, filled_zero]
    rfl

theorem Public.shortcut_apply (hC : Trivial C z) {op : Public α} (h : op.algorithm.Ready cell)
    (hvs : vs.map some = op.algorithm.elements.map (made z cell)) :
    ∃ k', op.exec C false true ⟨cell, k⟩ =
      (.ok op.algorithm.returns, ⟨overlay cell op.algorithm.target vs, k'⟩) := by
  cases op with
  | copy first last result | move first last result =>
    have hlen : (range first last).length = last - first := List.length_range'
    have hcell : overlay cell result vs = memcpy cell first result (last - first) :=
      overlay_memcpy (hvs.trans (List.map_map ..))
    refine ⟨k, ?_⟩
    simp only [algorithm, Algorithm.returns, Algorithm.target, Algorithm.elements, hcell, List.length_map, hlen]
    rfl
  | fill first last x =>
    have hcell : overlay cell first vs = filled cell first (last - first) x :=
      overlay_filled (hvs.trans (List.map_replicate ..))
    refine ⟨k, ?_⟩
    simp only [algorithm, Algorithm.returns, Algorithm.target, hcell]
    rfl
  | fillN first n x =>
    have hcell : overlay cell first vs = filled cell first n.toNat x :=
      overlay_filled (hvs.trans (List.map_replicate ..))
    refine ⟨k, ?_⟩
    simp only [algorithm, Algorithm.returns, Algorithm.target, Algorithm.elements, hcell, List.length_replicate, exec,
      Prog.bind_apply, uninitializedFillN_shortcut h.valid]
    rfl
  | valueConstruct first last =>
    have hcell : overlay cell first vs = filled cell first (last - first) z :=
      overlay_filled (hvs.trans (List.map_replicate ..))
    have hraw : first < last → cell first = none := fun hlt =>
      h.raw 0 (by simpa [algorithm, Algorithm.elements] using Nat.sub_pos_of_lt hlt)
    obtain ⟨k', hshort⟩ := uninitializedDefault_shortcut (k := k) hC h.valid hraw
    refine ⟨k', ?_⟩
    simp only [algorithm, Algorithm.returns, Algorithm.target, hcell, exec, Prog.bind_apply, hshort]
    rfl
  | valueConstructN first n =>
    have hcell : overlay cell first vs = filled cell first n.toNat z :=
      overlay_filled (hvs.trans (List.map_replicate ..))
    have hraw : 0 < n → cell first = none := fun hn => h.raw 0 (by simpa [algorithm, Algorithm.elements] using hn)
    obtain ⟨k', hshort⟩ := uninitializedDefaultN_shortcut (k := k) hC hraw
    refine ⟨k', ?_⟩
    simp only [algorithm, Algorithm.returns, Algorithm.target, Algorithm.elements, hcell, List.length_replicate, exec,
      Prog.bind_apply, hshort]
    rfl

/-- For types that have the shortcuts, if they are trivial, and for those that have not, each algorithm has the same
answer and leaves the same objects in a constant evaluation as at run time. -/
theorem shortcuts_agree {op : Public α} {can : Bool} (hC : can = true → ∃ z, Trivial C z)
    (h : op.algorithm.Ready cell) :
    (op.exec C true can ⟨cell, k⟩).1 = (op.exec C false can ⟨cell, k⟩).1 ∧
      (op.exec C true can ⟨cell, k⟩).2.cell = (op.exec C false can ⟨cell, k⟩).2.cell := by
  rw [Public.exec_constEval]
  cases can with
  | false => rw [Public.exec_cannot]; exact ⟨rfl, rfl⟩
  | true =>
    obtain ⟨z, hz⟩ := hC rfl
    obtain ⟨vs, hvs, hloop⟩ := Algorithm.exec_trivial (k := k) hz h op.no_novalue
    obtain ⟨k', hshort⟩ := Public.shortcut_apply (k := k) hz h hvs
    rw [hloop, hshort]
    exact ⟨rfl, rfl⟩

/-- Integers. -/
def integers : Ctors Nat Unit := ⟨fun _ => .ok 0, fun _ => .ok 0, fun _ x => .ok x, fun _ x => .ok x, fun _ x => x⟩

theorem shortcuts_agree_integers :
    ((Public.valueConstruct 20 23).exec integers true true ⟨fun _ => none, 0⟩).1 =
        ((Public.valueConstruct 20 23).exec integers false true ⟨fun _ => none, 0⟩).1 ∧
      ((Public.valueConstruct 20 23).exec integers true true ⟨fun _ => none, 0⟩).2.cell =
        ((Public.valueConstruct 20 23).exec integers false true ⟨fun _ => none, 0⟩).2.cell := by
  refine shortcuts_agree (fun _ => ⟨0, fun _ => rfl, fun _ _ => rfl, fun _ _ => rfl, fun _ _ => rfl⟩) ?_
  exact ⟨show 20 ≤ 23 by decide, fun _ _ => rfl, by simp [Alive, Public.algorithm, Algorithm.elements, Arg.source]⟩

/-- `uninitialized_fill_n` with a negative count is no constant expression, but returns at run time where it has the
shortcut. -/
theorem fillN_below_zero {n : Int} (hn : n < 0) (s : Memory α) :
    (Public.fillN first n x).exec C true true s = (.stop, s) ∧
      (Public.fillN first n x).exec C false true s = (.ok [first], s) := by
  have hpos : ¬ 0 < n := by omega
  constructor
  · have hstop : C.doUninitFillN first n x = Prog.stop := if_pos hn
    rw [Public.exec_constEval, Public.algorithm, Algorithm.exec, hstop]
    rfl
  · have hnothing : C.uninitializedFillN false true first n x = pure first := if_neg hpos
    rw [Public.exec, hnothing]
    rfl

end SharedPtr.Raw
