/-
What runs of `unique_ptr` operations keep (`bits/unique_ptr.h`). What one
operation does is said once (`Effect`): which pointers come in and go out, which
pairs of a pointer and a deleter there are then, and where they come from; and
so is what becomes of the deleters themselves, which may be behind references
(`Forwarded`). Over a whole run all pointers handed over are accounted for
(`pointers_passed`), a pointer has one owner at most (`sole_owner`), and is with
the deleter it was last paired with (`paired_last`).

The pairing is what an operation breaks off in the middle: an assignment
resets the target before it assigns the deleter, `swap` exchanges the pointers
before the deleters. It holds again when the operation returns, and a deleter
is called only with a pointer that was there before with it.
-/
import SharedPtr.UniqueOwners
import SharedPtr.Lib.Custody

namespace SharedPtr.Unique

open SharedPtr.Seq (Ptr)
open Lib (run run_cons run_snoc Along outputs outputs_cons outputs_append Passes Sole)

variable {X D L : Type*}

/-! ## What one operation does -/

/-- The pointer of `x` and its deleter, if `x` owns one. -/
def World.own (w : World X D L) (x : X) : Option (Nat × Deleter D L) :=
  (w.deleter x).bind fun d => (w.ptr x).map fun q => (q, d)

theorem own_eq_some {w : World X D L} {x : X} {q : Nat} {d : Deleter D L} :
    w.own x = some (q, d) ↔ w.ptr x = some q ∧ w.deleter x = some d := by
  cases hd : w.deleter x <;> cases hp : w.ptr x <;> simp [World.own, hd, hp, and_comm]

theorem mem_pairing {p : Ptr} {o : Option (Deleter D L)} {q : Nat} {d : Deleter D L} :
    (q, d) ∈ pairing p o ↔ p = some q ∧ o = some d := by
  cases p <;> cases o <;> simp [pairing, eq_comm]

/-- The events of an operation. -/
structure Events (w : World X D L) (ins : List Nat) (new : List (Event D L)) (w' : World X D L) : Prop where
  log : w'.log = w.log ++ new
  passes : Passes ins (new.filterMap Event.ptr) w.ptr w'.ptr
  /-- A deleter is called with a pointer it was with, and before anything is assigned to it. -/
  called : ∀ d v p, .call d v p ∈ new → v = w.read d ∧ ∃ x q, p = some q ∧ w.own x = some (q, d)

theorem Events.silent {w w' : World X D L} {ins : List Nat} (hlog : w'.log = w.log)
    (hp : Passes ins [] w.ptr w'.ptr) : Events w ins [] w' :=
  ⟨by rw [hlog, List.append_nil], hp, fun _ _ _ => nofun⟩

theorem filterMap_ptr_calls (d : Deleter D L) (v : D) (p : Ptr) :
    (calls d v p).filterMap Event.ptr = p.toList := by
  cases p <;> rfl

/-- The deleter of `x` is called with its pointer, or it has none. -/
theorem Events.of_calls {w w' : World X D L} {x : X} {d : Deleter D L} {p : Ptr} {ins : List Nat}
    (hd : w.deleter x = some d) (hp : ∀ q, p = some q → w.ptr x = some q)
    (hlog : w'.log = w.log ++ calls d (w.read d) p) (hpass : Passes ins p.toList w.ptr w'.ptr) :
    Events w ins (calls d (w.read d) p) w' := by
  refine ⟨hlog, by rwa [filterMap_ptr_calls], ?_⟩
  intro d' v p' hmem
  obtain ⟨q, hq, he⟩ := List.mem_map.mp hmem
  cases he
  have hpq : p = some q := Option.mem_toList.mp hq
  exact ⟨rfl, x, q, rfl, own_eq_some.mpr ⟨hp q hpq, hd⟩⟩

theorem ne_of_deleter {w : World X D L} {x y : X} {e : Deleter D L} (hx : w.deleter x = none)
    (hy : w.deleter y = some e) : x ≠ y := by
  rintro rfl
  rw [hx] at hy
  cases hy

theorem exists_deleter_of_convert {w : World X D L} {y : X} {c : Conversion D} {d : Deleter D L}
    (h : w.convert c y = some d) : ∃ e, w.deleter y = some e := by
  unfold World.convert at h
  split at h
  next hy => exact ⟨_, hy⟩
  next hy => exact ⟨_, hy⟩
  next => cases h

variable [DecidableEq X] (M : DeleterMoves D)

/-- All an operation does, as far as pointers and their deleters go. -/
structure Effect (w : World X D L) (op : Op X D L) (w' : World X D L) : Prop where
  events : ∃ new, Events w op.acquires new w'
  kept : ∀ x q d, w'.own x = some (q, d) → (q, d) ∈ pairs M w op ∨ ∃ y, w.own y = some (q, d)
  made : ∀ q d, (q, d) ∈ pairs M w op → ∃ x, w'.own x = some (q, d)
  /-- What is moved from is left empty, unless it is moved to itself. -/
  moved : ∀ y x, op.moved = some (y, x) → w'.ptr x = w.ptr y ∧ (y ≠ x → w'.ptr y = none ∧ (w'.deleter y).isSome)

variable {M} {w w' : World X D L} {x y : X} {d e : Deleter D L} {p : Ptr} {op : Op X D L}

/-- An operation that empties `y`, if that is another object than `x`, and leaves `x` with `p`. -/
theorem Effect.of_target (hev : ∃ new, Events w op.acquires new w')
    (hp : w'.ptr = Function.update (Function.update w.ptr y none) x p)
    (hrest : ∀ z, z ≠ x → z ≠ y → w'.deleter z = w.deleter z)
    (hkept : ∀ q d, p = some q → w'.deleter x = some d → (q, d) ∈ pairs M w op ∨ ∃ z, w.own z = some (q, d))
    (hmade : ∀ q d, (q, d) ∈ pairs M w op → p = some q ∧ w'.deleter x = some d)
    (hmoved : ∀ b a, op.moved = some (b, a) → b = y ∧ a = x ∧ p = w.ptr y ∧ (y ≠ x → (w'.deleter y).isSome)) :
    Effect M w op w' where
  events := hev
  kept := by
    intro z q d hz
    rw [own_eq_some, hp] at hz
    by_cases hzx : z = x
    · subst hzx
      rw [Function.update_self] at hz
      exact hkept q d hz.1 hz.2
    · rw [Function.update_of_ne hzx] at hz
      by_cases hzy : z = y
      · subst hzy
        rw [Function.update_self] at hz
        cases hz.1
      · rw [Function.update_of_ne hzy, hrest z hzx hzy] at hz
        exact .inr ⟨z, own_eq_some.mpr hz⟩
  made := by
    intro q d hmem
    refine ⟨x, own_eq_some.mpr ?_⟩
    rw [hp, Function.update_self]
    exact hmade q d hmem
  moved := by
    intro b a hm
    obtain ⟨rfl, rfl, rfl, hd⟩ := hmoved b a hm
    refine ⟨by rw [hp, Function.update_self], ?_⟩
    intro hne
    rw [hp, Function.update_of_ne hne, Function.update_self]
    exact ⟨rfl, hd hne⟩

/-! ## One object -/

theorem effect_construct (hx : w.deleter x = none) :
    Effect M w (.construct x p d) (w.put x (some ⟨p, d⟩)) := by
  have hpass : Passes p.toList [] w.ptr (w.put x (some ⟨p, d⟩)).ptr := by
    simpa [ptr_eq_none hx] using Passes.update w.ptr x p
  refine .of_target (x := x) (y := x) (p := p) ⟨[], .silent rfl hpass⟩ (by simp) ?_ ?_ ?_ nofun
  · intro z hzx _
    simp [hzx]
  · intro q d' hq hd
    left
    simpa [pairs, mem_pairing, hq] using hd
  · intro q d' hmem
    simpa [pairs, mem_pairing] using hmem

/-- `x` gets `p`, and the deleter of `x` its old pointer; `op` makes no other pair than `p` with that deleter. -/
theorem effect_of_reset (hx : w.deleter x = some d) (hins : op.acquires = p.toList)
    (hpairs : pairs M w op = pairing p (some d)) (hmoved : op.moved = none) : Effect M w op (w.reset x p) := by
  have hp : (w.reset x p).ptr = Function.update w.ptr x p := ptr_reset hx p
  have hpass : Passes op.acquires (w.ptr x).toList w.ptr (w.reset x p).ptr := by
    rw [hp, hins]
    exact Passes.update w.ptr x p
  refine .of_target (x := x) (y := x) (p := p) ⟨_, .of_calls hx (fun _ h => h) (log_reset hx p) hpass⟩
    (by simp [hp]) ?_ ?_ ?_ ?_
  · intro z _ _
    rw [deleter_reset]
  · intro q d' hq hd
    rw [deleter_reset, hx] at hd
    rw [hpairs]
    exact .inl (mem_pairing.mpr ⟨hq, hd⟩)
  · intro q d' hmem
    rw [hpairs] at hmem
    rw [deleter_reset, hx]
    exact mem_pairing.mp hmem
  · intro b a hm
    rw [hmoved] at hm
    cases hm

/-- `x` is left without a pointer, by an operation that makes no pair. -/
theorem effect_of_empty (hev : ∃ new, Events w [] new w') (hins : op.acquires = [])
    (hpairs : pairs M w op = []) (hmoved : op.moved = none) (hp : w'.ptr = Function.update w.ptr x none)
    (hd : ∀ z, z ≠ x → w'.deleter z = w.deleter z) : Effect M w op w' := by
  refine .of_target (x := x) (y := x) (p := none) (hins ▸ hev) (by simp [hp]) (fun z hz _ => hd z hz) nofun ?_ ?_
  · intro q d' hmem
    rw [hpairs] at hmem
    cases hmem
  · intro b a hm
    rw [hmoved] at hm
    cases hm

theorem effect_release (hx : w.deleter x = some d) :
    Effect M w (.release x) { w.release x with log := w.log ++ [.release (w.ptr x)] } := by
  have hp : (w.release x).ptr = Function.update w.ptr x none := ptr_setPtr hx none
  refine effect_of_empty ⟨[.release (w.ptr x)], rfl, ?_, ?_⟩ rfl rfl rfl hp ?_
  · have hout : ([.release (w.ptr x)] : List (Event D L)).filterMap Event.ptr = (w.ptr x).toList := by
      cases h : w.ptr x <;> simp [Event.ptr]
    rw [hout]
    exact hp ▸ Passes.update w.ptr x none
  · intro d' v p' hmem
    simp at hmem
  · intro z _
    exact congrFun (deleter_setPtr none) z

theorem effect_destroy (hx : w.deleter x = some d) : Effect M w (.destroy x) (w.destroy x) := by
  have hx' : (w.callDeleter x (w.ptr x)).deleter x = some d := by rwa [deleter_callDeleter]
  have hp : (w.destroy x).ptr = Function.update w.ptr x none := by
    rw [World.destroy, ptr_put, ptr_setPtr hx', ptr_callDeleter]
    exact Function.update_idem ..
  have hpass : Passes [] (w.ptr x).toList w.ptr (w.destroy x).ptr := hp ▸ Passes.update w.ptr x none
  refine effect_of_empty ⟨_, .of_calls hx (fun _ h => h) (log_callDeleter hx _) hpass⟩ rfl rfl rfl hp ?_
  intro z hz
  simp [World.destroy, hz]

/-! ## Two objects -/

/-- The pointer of `y` goes into `x` where there was no object. -/
theorem Events.of_construct (hx : w.deleter x = none) (hxy : x ≠ y) (hlog : w'.log = w.log)
    (hp : w'.ptr = Function.update (Function.update w.ptr y none) x (w.ptr y)) : Events w [] [] w' := by
  refine .silent hlog ?_
  have hpass := Passes.move w.ptr x y
  rw [Function.update_of_ne hxy, ptr_eq_none hx] at hpass
  rwa [hp]

theorem effect_moveConstruct (hx : w.deleter x = none) (hy : w.deleter y = some e) :
    Effect M w (.moveConstruct x y) (((w.put x (some ⟨w.ptr y, e⟩)).moveFrom M y).setPtr y none) := by
  have hxy := ne_of_deleter hx hy
  have hput : ((w.put x (some ⟨w.ptr y, e⟩)).moveFrom M y).deleter y |>.isSome := by
    rw [isSome_deleter_moveFrom, deleter_put, Function.update_of_ne hxy.symm, hy]
    rfl
  obtain ⟨e', he'⟩ := Option.isSome_iff_exists.mp hput
  have hp : (((w.put x (some ⟨w.ptr y, e⟩)).moveFrom M y).setPtr y none).ptr =
      Function.update (Function.update w.ptr y none) x (w.ptr y) := by
    rw [ptr_setPtr he', ptr_moveFrom, ptr_put, Function.update_comm hxy.symm]
    rfl
  refine .of_target ⟨[], .of_construct hx hxy (by simp) hp⟩ hp ?_ ?_ nofun ?_
  · intro z hzx hzy
    rw [deleter_setPtr, deleter_moveFrom_of_ne M hzy, deleter_put, Function.update_of_ne hzx]
  · intro q d' hq hd
    rw [deleter_setPtr, deleter_moveFrom_of_ne M hxy, deleter_put, Function.update_self] at hd
    exact .inr ⟨y, own_eq_some.mpr ⟨hq, hy.trans hd⟩⟩
  · intro b a hm
    cases hm
    exact ⟨rfl, rfl, rfl, fun _ => by rwa [deleter_setPtr]⟩

theorem effect_convertConstruct {c : Conversion D} (hx : w.deleter x = none) (hc : w.convert c y = some d) :
    Effect M w (.convertConstruct x y c) (((w.release y).moveFrom M y).put x (some ⟨w.ptr y, d⟩)) := by
  obtain ⟨e, hy⟩ := exists_deleter_of_convert hc
  have hxy := ne_of_deleter hx hy
  have hp : (((w.release y).moveFrom M y).put x (some ⟨w.ptr y, d⟩)).ptr =
      Function.update (Function.update w.ptr y none) x (w.ptr y) := by
    rw [ptr_put, ptr_moveFrom, World.release, ptr_setPtr hy]
    rfl
  refine .of_target ⟨[], .of_construct hx hxy (by simp [World.release]) hp⟩ hp ?_ ?_ ?_ ?_
  · intro z hzx hzy
    rw [deleter_put, Function.update_of_ne hzx, deleter_moveFrom_of_ne M hzy, World.release, deleter_setPtr]
  · intro q d' hq hd
    rw [deleter_put, Function.update_self] at hd
    exact .inl (mem_pairing.mpr ⟨hq, hc.trans hd⟩)
  · intro q d' hmem
    obtain ⟨hq, hd⟩ := mem_pairing.mp hmem
    rw [deleter_put, Function.update_self]
    exact ⟨hq, hc.symm.trans hd⟩
  · intro b a hm
    cases hm
    refine ⟨rfl, rfl, rfl, fun _ => ?_⟩
    rw [deleter_put, Function.update_of_ne hxy.symm, isSome_deleter_moveFrom, World.release, deleter_setPtr, hy]
    rfl

@[simp] theorem referents_reset_release : ((w.release y).reset x p).referents = w.referents := by
  rw [referents_reset, World.release, referents_setPtr]

/-- `reset(__u.release())`: `x` gets the pointer of `y`, and its deleter the one it had, if `x` and `y` are not the
same object. The deleters are still where they were. -/
theorem reset_release (hx : w.deleter x = some d) (hy : w.deleter y = some e) :
    ((w.release y).reset x (w.ptr y)).ptr = Function.update (Function.update w.ptr y none) x (w.ptr y) ∧
      ((w.release y).reset x (w.ptr y)).deleter = w.deleter ∧
      ∃ new, Events w [] new ((w.release y).reset x (w.ptr y)) := by
  have hx' : (w.release y).deleter x = some d := by rwa [World.release, deleter_setPtr]
  have hfree : (w.release y).ptr = Function.update w.ptr y none := ptr_setPtr hy none
  have hp : ((w.release y).reset x (w.ptr y)).ptr = Function.update (Function.update w.ptr y none) x (w.ptr y) := by
    rw [ptr_reset hx', hfree]
  have hlog := log_reset hx' (w.ptr y)
  rw [hfree, read_eq (w := w) (by simp [World.release]), World.release, log_setPtr] at hlog
  refine ⟨hp, by rw [deleter_reset, World.release, deleter_setPtr], _, .of_calls hx ?_ hlog ?_⟩
  · intro q hq
    by_cases hxy : x = y
    · subst hxy
      rw [Function.update_self] at hq
      cases hq
    · rwa [Function.update_of_ne hxy] at hq
  · rw [hp]
    exact Passes.move w.ptr x y

/-- An assignment, of which the second half leaves `x` with the deleter `a`. -/
theorem effect_of_assign {w₁ w' : World X D L} {a : Deleter D L} (hw₁ : w₁ = (w.release y).reset x (w.ptr y))
    (hx : w.deleter x = some d) (hy : w.deleter y = some e) (hins : op.acquires = []) (hmoved : op.moved = some (y, x))
    (hp : w'.ptr = w₁.ptr) (hlog : w'.log = w₁.log) (hrest : ∀ z, z ≠ x → z ≠ y → w'.deleter z = w₁.deleter z)
    (hyy : y ≠ x → (w'.deleter y).isSome = (w₁.deleter y).isSome) (ha : w'.deleter x = some a)
    (hpairs : pairs M w op = pairing (w.ptr y) (some a) ∨ pairs M w op = [] ∧ w.deleter y = some a) :
    Effect M w op w' := by
  obtain ⟨hp₁, hd₁, new, hev⟩ := reset_release hx hy
  rw [← hw₁] at hp₁ hd₁ hev
  have hev' : Events w op.acquires new w' := by
    rw [hins]
    exact ⟨hlog.trans hev.log, hp ▸ hev.passes, hev.called⟩
  refine .of_target ⟨new, hev'⟩ (hp.trans hp₁) (fun z hzx hzy => by rw [hrest z hzx hzy, hd₁]) ?_ ?_ ?_
  · intro q a' hq ha'
    rcases hpairs with hpairs | ⟨-, hya⟩
    · rw [hpairs]
      exact .inl (mem_pairing.mpr ⟨hq, ha.symm.trans ha'⟩)
    · exact .inr ⟨y, own_eq_some.mpr ⟨hq, hya.trans (ha.symm.trans ha')⟩⟩
  · intro q a' hmem
    rcases hpairs with hpairs | ⟨hpairs, -⟩
    · rw [hpairs] at hmem
      obtain ⟨hq, he⟩ := mem_pairing.mp hmem
      exact ⟨hq, ha.trans he⟩
    · rw [hpairs] at hmem
      cases hmem
  · intro b c hm
    rw [hmoved] at hm
    cases hm
    refine ⟨rfl, rfl, rfl, fun hyx => ?_⟩
    rw [hyy hyx, hd₁, hy]
    rfl

variable [DecidableEq L]

/-- An assignment of which the second half is `_M_deleter() = std::forward<_Ep>(__u._M_deleter())`. -/
theorem effect_of_assignDeleter {w₁ : World X D L} {a : Deleter D L} (hw₁ : w₁ = (w.release y).reset x (w.ptr y))
    (hx : w.deleter x = some d) (hy : w.deleter y = some e) (hins : op.acquires = []) (hmoved : op.moved = some (y, x))
    (conv : D → D) (ha : (w₁.assignDeleter M conv x y).deleter x = some a)
    (hpairs : pairs M w op = pairing (w.ptr y) (some a) ∨ pairs M w op = [] ∧ w.deleter y = some a) :
    Effect M w op (w₁.assignDeleter M conv x y) :=
  effect_of_assign hw₁ hx hy hins hmoved (ptr_assignDeleter conv) (log_assignDeleter conv)
    (fun _ => deleter_assignDeleter_of_ne conv) (isSome_deleter_assignDeleter conv) ha hpairs

theorem effect_moveAssign (hx : w.deleter x = some d) (hy : w.deleter y = some e) (ha : d.Alike e) :
    Effect M w (.moveAssign x y) (w.moveAssign M x y) := by
  obtain ⟨w₁, hw₁⟩ : ∃ w₁, w₁ = (w.release y).reset x (w.ptr y) := ⟨_, rfl⟩
  have hd₁ : w₁.deleter = w.deleter := hw₁ ▸ (reset_release hx hy).2.1
  have hx₁ : w₁.deleter x = some d := by rw [hd₁, hx]
  have hy₁ : w₁.deleter y = some e := by rw [hd₁, hy]
  simp only [World.moveAssign, ← hw₁, hx₁]
  cases d with
  | value a =>
    cases e with
    | ref l => exact ha.elim
    | value b =>
      by_cases hxy : x = y
      · subst hxy
        simp only [if_true]
        have hset := deleter_setDeleter hx₁ (.value (M.selfMoved a))
        refine effect_of_assign hw₁ hx hx rfl rfl (ptr_setDeleter _) rfl ?_ (fun h => (h rfl).elim)
          (by rw [hset, Function.update_self]) (.inl (by simp [pairs, hx]))
        intro z hz _
        rw [hset, Function.update_of_ne hz]
      · simp only [hxy, if_false]
        exact effect_of_assignDeleter hw₁ hx hy rfl rfl id (deleter_assignDeleter_value id hx₁ hy₁ hxy)
          (.inr ⟨by simp [pairs, hx, hxy], hy⟩)
  | ref l =>
    exact effect_of_assignDeleter hw₁ hx hy rfl rfl id (deleter_assignDeleter_ref id hx₁ hy₁)
      (.inl (by simp [pairs, hx]))

theorem effect_convertAssign {conv : D → D} (hx : w.deleter x = some d) (hy : w.deleter y = some e) (hxy : x ≠ y) :
    Effect M w (.convertAssign x y conv) (w.convertAssign M conv x y) := by
  obtain ⟨w₁, hw₁⟩ : ∃ w₁, w₁ = (w.release y).reset x (w.ptr y) := ⟨_, rfl⟩
  have hd₁ : w₁.deleter = w.deleter := hw₁ ▸ (reset_release hx hy).2.1
  have hr₁ : w₁.read = w.read := read_eq (hw₁ ▸ referents_reset_release)
  have hx₁ : w₁.deleter x = some d := by rw [hd₁, hx]
  have hy₁ : w₁.deleter y = some e := by rw [hd₁, hy]
  rw [World.convertAssign, ← hw₁]
  cases d with
  | value a =>
    refine effect_of_assignDeleter hw₁ hx hy rfl rfl conv (deleter_assignDeleter_value conv hx₁ hy₁ hxy) (.inl ?_)
    simp [pairs, hx, World.convert, hy, hr₁]
  | ref l =>
    exact effect_of_assignDeleter hw₁ hx hy rfl rfl conv (deleter_assignDeleter_ref conv hx₁ hy₁)
      (.inl (by simp [pairs, hx]))

theorem ptr_swap (hx : w.deleter x = some d) (hy : w.deleter y = some e) :
    (w.swap x y).ptr = w.ptr ∘ Equiv.swap x y := by
  have hy' : (w.setPtr x (w.ptr y)).deleter y = some e := by rwa [deleter_setPtr]
  rw [World.swap, ptr_swapDeleters, ptr_setPtr hy', ptr_setPtr hx, Equiv.swap_comm, Equiv.comp_swap_eq_update]

theorem own_swap_value {a b : D} (hx : w.deleter x = some (.value a)) (hy : w.deleter y = some (.value b)) :
    (w.swap x y).own = w.own ∘ Equiv.swap x y := by
  have hd : (w.swap x y).deleter = w.deleter ∘ Equiv.swap x y := by
    rw [World.swap, deleter_swapDeleters_value (a := a) (b := b) (by simpa using hx) (by simpa using hy)]
    simp only [deleter_setPtr]
  funext z
  rw [World.own, hd, ptr_swap hx hy]
  rfl

/-- The pointers are exchanged, and then the deleters, or what they refer to. -/
theorem effect_swap (hx : w.deleter x = some d) (hy : w.deleter y = some e) (ha : d.Alike e) :
    Effect M w (.swap x y) (w.swap x y) := by
  have hp := ptr_swap hx hy
  have hlog : (w.swap x y).log = w.log := by simp [World.swap]
  have hev : ∃ new, Events w (Op.swap x y : Op X D L).acquires new (w.swap x y) :=
    ⟨[], .silent hlog (hp ▸ Passes.comp w.ptr _)⟩
  cases d with
  | value a =>
    cases e with
    | ref l => exact ha.elim
    | value b =>
      have ho := own_swap_value hx hy
      refine ⟨hev, ?_, ?_, nofun⟩
      · intro z q d hz
        rw [ho] at hz
        exact .inr ⟨Equiv.swap x y z, hz⟩
      · intro q d hmem
        simp [pairs, hx] at hmem
  | ref l =>
    cases e with
    | value b => exact ha.elim
    | ref m =>
      have hd : (w.swap x y).deleter = w.deleter := by
        rw [World.swap, deleter_swapDeleters_ref (by simpa using hx) (by simpa using hy), deleter_setPtr, deleter_setPtr]
      have hpairs : pairs M w (.swap x y) = pairing (w.ptr x) (w.deleter y) ++ pairing (w.ptr y) (w.deleter x) := by
        simp [pairs, hx]
      refine ⟨hev, ?_, ?_, nofun⟩
      · intro z q d hz
        rw [own_eq_some, hp, hd, Function.comp_apply, Equiv.swap_apply_def] at hz
        rw [hpairs, List.mem_append, mem_pairing, mem_pairing]
        split at hz
        next hzx =>
          subst hzx
          exact .inl (.inr hz)
        next =>
          split at hz
          next hzy =>
            subst hzy
            exact .inl (.inl hz)
          next => exact .inr ⟨z, own_eq_some.mpr hz⟩
      · intro q d hmem
        rw [hpairs, List.mem_append, mem_pairing, mem_pairing] at hmem
        rcases hmem with hmem | hmem
        · refine ⟨y, own_eq_some.mpr ?_⟩
          rwa [hp, hd, Function.comp_apply, Equiv.swap_apply_right]
        · refine ⟨x, own_eq_some.mpr ?_⟩
          rwa [hp, hd, Function.comp_apply, Equiv.swap_apply_left]

/-- **What a step does.** -/
theorem step_effect (h : step M w op = some w') : Effect M w op w' := by
  cases op with
  | construct x p d =>
    simp only [step] at h
    split at h
    next hx =>
      cases h
      exact effect_construct (Option.isNone_iff_eq_none.mp hx)
    next => cases h
  | moveConstruct x y =>
    simp only [step] at h
    split at h
    next hx hy =>
      cases h
      exact effect_moveConstruct hx hy
    next => cases h
  | convertConstruct x y c =>
    simp only [step] at h
    split at h
    next hx hc =>
      cases h
      exact effect_convertConstruct hx hc
    next => cases h
  | moveAssign x y =>
    simp only [step] at h
    split at h
    next hx hy =>
      split at h
      next ha =>
        cases h
        exact effect_moveAssign hx hy ha
      next => cases h
    next => cases h
  | convertAssign x y conv =>
    simp only [step] at h
    split at h
    next hx hy =>
      split at h
      next hxy =>
        cases h
        exact effect_convertAssign hx hy hxy
      next => cases h
    next => cases h
  | reset x p =>
    obtain ⟨d, hx, rfl⟩ := Option.map_eq_some_iff.mp h
    exact effect_of_reset hx rfl (by simp [pairs, hx]) rfl
  | release x =>
    obtain ⟨d, hx, rfl⟩ := Option.map_eq_some_iff.mp h
    exact effect_release hx
  | swap x y =>
    simp only [step] at h
    split at h
    next hx hy =>
      split at h
      next ha =>
        cases h
        exact effect_swap hx hy ha
      next => cases h
    next => cases h
  | assignNull x =>
    obtain ⟨d, hx, rfl⟩ := Option.map_eq_some_iff.mp h
    exact effect_of_reset hx rfl rfl rfl
  | destroy x =>
    obtain ⟨d, hx, rfl⟩ := Option.map_eq_some_iff.mp h
    exact effect_destroy hx

/-! ## The deleters themselves -/

/-- What an operation does to the deleters themselves, also behind references: those it moves or exchanges arrive
where they go, and no other deleter of the program is assigned to. -/
structure Forwarded (w : World X D L) (op : Op X D L) (w' : World X D L) : Prop where
  taken : ∀ x y conv, (x, y, conv) ∈ op.takes → (x = y → ∃ l, w.deleter x = some (.ref l)) →
    w'.deleterOf x = (w.deleterOf y).map conv
  rest : ∀ l, (∀ t ∈ op.takes, w.deleter t.1 ≠ some (.ref l)) → w'.referents l = w.referents l

omit [DecidableEq X] [DecidableEq L] in
theorem Forwarded.of_untaken (ht : op.takes = []) (hr : w'.referents = w.referents) : Forwarded w op w' := by
  refine ⟨?_, fun l _ => by rw [hr]⟩
  intro x y conv hmem
  rw [ht] at hmem
  cases hmem

omit [DecidableEq X] [DecidableEq L] in
theorem Forwarded.of_single {conv : D → D} (ht : op.takes = [(x, y, conv)])
    (hd : (x = y → ∃ l, w.deleter x = some (.ref l)) → w'.deleterOf x = (w.deleterOf y).map conv)
    (hr : ∀ l, w.deleter x ≠ some (.ref l) → w'.referents l = w.referents l) : Forwarded w op w' := by
  refine ⟨?_, ?_⟩
  · intro a b f hmem
    rw [ht, List.mem_singleton] at hmem
    cases hmem
    exact hd
  · intro l hl
    rw [ht] at hl
    exact hr l (hl _ (List.mem_singleton_self _))

omit [DecidableEq L] in
theorem forwarded_moveConstruct (hx : w.deleter x = none) (hy : w.deleter y = some e) :
    Forwarded w (.moveConstruct x y) (((w.put x (some ⟨w.ptr y, e⟩)).moveFrom M y).setPtr y none) := by
  have hxy := ne_of_deleter hx hy
  have hr : (((w.put x (some ⟨w.ptr y, e⟩)).moveFrom M y).setPtr y none).referents = w.referents := by simp
  refine .of_single rfl (fun _ => ?_) (fun l _ => by rw [hr])
  rw [World.deleterOf, read_eq hr, deleter_setPtr, deleter_moveFrom_of_ne M hxy, deleter_put, Function.update_self,
    World.deleterOf, hy]
  rfl

omit [DecidableEq L] in
theorem forwarded_convertConstruct {c : Conversion D} (hc : w.convert c y = some d) :
    Forwarded w (.convertConstruct x y c) (((w.release y).moveFrom M y).put x (some ⟨w.ptr y, d⟩)) := by
  have hr : (((w.release y).moveFrom M y).put x (some ⟨w.ptr y, d⟩)).referents = w.referents := by
    simp [World.release]
  have hd : (((w.release y).moveFrom M y).put x (some ⟨w.ptr y, d⟩)).deleterOf x = some (w.read d) := by
    rw [World.deleterOf, read_eq hr, deleter_put, Function.update_self]
    rfl
  unfold World.convert at hc
  split at hc
  next hy =>
    cases hc
    exact .of_single rfl (fun _ => by rw [hd, World.deleterOf, hy]; rfl) (fun l _ => by rw [hr])
  next hy =>
    cases hc
    exact .of_single rfl (fun _ => by rw [hd, World.deleterOf, hy]; rfl) (fun l _ => by rw [hr])
  next => cases hc

/-- The deleters are still what they were when the second half of an assignment begins. -/
theorem forwarded_assignDeleter {w₁ : World X D L} {conv : D → D} (hd₁ : w₁.deleter = w.deleter)
    (hr₁ : w₁.referents = w.referents) (hx : w.deleter x = some d) (hy : w.deleter y = some e)
    (ht : op.takes = [(x, y, conv)]) : Forwarded w op (w₁.assignDeleter M conv x y) := by
  refine .of_single ht ?_ ?_
  · intro hxy
    have hxy' : x = y → ∃ l, d = .ref l := by
      rw [hx] at hxy
      simpa using hxy
    rw [deleterOf_assignDeleter conv (hd₁ ▸ hx) (hd₁ ▸ hy) hxy', read_eq hr₁, World.deleterOf, hy]
    rfl
  · intro l hl
    rw [referents_assignDeleter conv (hd₁ ▸ hl), hr₁]

theorem forwarded_moveAssign (hx : w.deleter x = some d) (hy : w.deleter y = some e) :
    Forwarded w (.moveAssign x y) (w.moveAssign M x y) := by
  obtain ⟨w₁, hw₁⟩ : ∃ w₁, w₁ = (w.release y).reset x (w.ptr y) := ⟨_, rfl⟩
  have hd₁ : w₁.deleter = w.deleter := hw₁ ▸ (reset_release hx hy).2.1
  have hr₁ : w₁.referents = w.referents := hw₁ ▸ referents_reset_release
  simp only [World.moveAssign, ← hw₁, hd₁, hx]
  cases d with
  | ref l => exact forwarded_assignDeleter hd₁ hr₁ hx hy rfl
  | value a =>
    by_cases hxy : x = y
    · subst hxy
      simp only [if_true]
      refine .of_single (x := x) (y := x) rfl (fun h => ?_) fun l _ => by rw [referents_setDeleter, hr₁]
      obtain ⟨l, hl⟩ := h rfl
      rw [hx] at hl
      cases hl
    · simp only [hxy, if_false]
      exact forwarded_assignDeleter hd₁ hr₁ hx hy rfl

theorem forwarded_swap (hx : w.deleter x = some d) (hy : w.deleter y = some e) (ha : d.Alike e) :
    Forwarded w (.swap x y) (w.swap x y) := by
  obtain ⟨w₁, hw₁⟩ : ∃ w₁, w₁ = (w.setPtr x (w.ptr y)).setPtr y (w.ptr x) := ⟨_, rfl⟩
  have hd₁ : w₁.deleter = w.deleter := by rw [hw₁, deleter_setPtr, deleter_setPtr]
  have hr₁ : w₁.referents = w.referents := by rw [hw₁, referents_setPtr, referents_setPtr]
  obtain ⟨hdx, hdy⟩ := deleterOf_swapDeleters (hd₁ ▸ hx) (hd₁ ▸ hy) ha
  rw [deleterOf_eq (congrFun hd₁ _) hr₁] at hdx hdy
  rw [World.swap, ← hw₁]
  refine ⟨?_, ?_⟩
  · intro a b conv hmem _
    simp only [Op.takes, List.mem_cons, List.not_mem_nil, or_false] at hmem
    rcases hmem with h | h
    · cases h
      rw [hdx, Option.map_id_apply]
    · cases h
      rw [hdy, Option.map_id_apply]
  · intro l hl
    have hlx := hl (x, y, id) (by simp [Op.takes])
    have hly := hl (y, x, id) (by simp [Op.takes])
    rw [referents_swapDeleters (hd₁ ▸ hlx) (hd₁ ▸ hly), hr₁]

theorem step_forwarded (h : step M w op = some w') : Forwarded w op w' := by
  cases op with
  | construct x p d =>
    simp only [step] at h
    split at h
    next => cases h; exact .of_untaken rfl rfl
    next => cases h
  | moveConstruct x y =>
    simp only [step] at h
    split at h
    next hx hy => cases h; exact forwarded_moveConstruct hx hy
    next => cases h
  | convertConstruct x y c =>
    simp only [step] at h
    split at h
    next hc => cases h; exact forwarded_convertConstruct hc
    next => cases h
  | moveAssign x y =>
    simp only [step] at h
    split at h
    next hx hy =>
      split at h
      next => cases h; exact forwarded_moveAssign hx hy
      next => cases h
    next => cases h
  | convertAssign x y conv =>
    simp only [step] at h
    split at h
    next hx hy =>
      split at h
      next =>
        cases h
        exact forwarded_assignDeleter (reset_release hx hy).2.1 referents_reset_release hx hy rfl
      next => cases h
    next => cases h
  | swap x y =>
    simp only [step] at h
    split at h
    next hx hy =>
      split at h
      next ha => cases h; exact forwarded_swap hx hy ha
      next => cases h
    next => cases h
  | reset x p | assignNull x =>
    obtain ⟨d, -, rfl⟩ := Option.map_eq_some_iff.mp h
    exact .of_untaken rfl (referents_reset _)
  | release x =>
    obtain ⟨d, -, rfl⟩ := Option.map_eq_some_iff.mp h
    exact .of_untaken rfl rfl
  | destroy x =>
    obtain ⟨d, -, rfl⟩ := Option.map_eq_some_iff.mp h
    exact .of_untaken rfl (by simp [World.destroy])

/-! ## Runs -/

/-- The operation hands over no pointer that an object has. -/
def Fresh (w : World X D L) (op : Op X D L) : Prop := ∀ q ∈ op.acquires, ∀ x, w.ptr x ≠ some q

omit [DecidableEq X] [DecidableEq L] in
theorem nodup_acquires (op : Op X D L) : op.acquires.Nodup := by
  cases op with
  | construct x p d | reset x p => cases p <;> simp [Op.acquires]
  | _ => exact List.nodup_nil

/-- All pointers that come in are in an object, or came out again. -/
theorem pointers_passed {ops : List (Op X D L)} (h : run (step M) w ops = some w') :
    ∃ new, w'.log = w.log ++ new ∧ Passes (acquired ops) (new.filterMap Event.ptr) w.ptr w'.ptr := by
  induction ops generalizing w with
  | nil =>
    cases h
    exact ⟨[], by simp, .refl _⟩
  | cons op ops ih =>
    obtain ⟨w₁, h₁, h₂⟩ := run_cons.mp h
    obtain ⟨new, hev⟩ := (step_effect h₁).events
    obtain ⟨rest, hlog, hrest⟩ := ih h₂
    refine ⟨new ++ rest, by rw [hlog, hev.log, List.append_assoc], ?_⟩
    rw [acquired, List.flatMap_cons, List.filterMap_append]
    exact hev.passes.trans hrest

theorem sole_owner {ops : List (Op X D L)} (h : run (step M) w ops = some w')
    (hf : Along (step M) Fresh w ops) (hs : Sole w.ptr) : Sole w'.ptr := by
  refine Lib.run_invariant_along (I := fun w => Sole w.ptr) ?_ h hf hs
  intro w op w' hs hf hstep
  obtain ⟨new, hev⟩ := (step_effect hstep).events
  exact hev.passes.sole hs (nodup_acquires op) hf

/-- Pointers that are all different are fresh. -/
theorem fresh_of_nodup {referents : L → D} {ops : List (Op X D L)} (hn : (acquired ops).Nodup) :
    Along (step M) Fresh (World.init referents) ops := by
  rw [Lib.along_iff]
  rintro pre op post u rfl hpre q hq x hx
  obtain ⟨new, -, hpass⟩ := pointers_passed hpre
  have hmem : q ∈ acquired pre := hpass.mem_of_held hx
  rw [acquired, List.flatMap_append, List.flatMap_cons] at hn
  exact List.disjoint_of_nodup_append hn hmem (List.mem_append_left _ hq)

/-! ## Pairs -/

omit [DecidableEq X] [DecidableEq L] in
theorem lastPaired_append (ps new : List (Nat × Deleter D L)) (q : Nat) :
    lastPaired (ps ++ new) q = (lastPaired new q).or (lastPaired ps q) := by
  rw [lastPaired, List.reverse_append, List.lookup_append]
  rfl

omit [DecidableEq X] [DecidableEq L] in
theorem mem_of_lastPaired {ps : List (Nat × Deleter D L)} {q : Nat} (h : lastPaired ps q = some d) : (q, d) ∈ ps := by
  obtain ⟨l₁, l₂, hps, -⟩ := List.lookup_eq_some_iff.mp h
  rw [← List.mem_reverse, hps]
  simp

omit [DecidableEq X] [DecidableEq L] in
theorem not_mem_of_lastPaired {ps : List (Nat × Deleter D L)} {q : Nat} (h : lastPaired ps q = none) :
    (q, d) ∉ ps := by
  intro hmem
  have hne := List.lookup_eq_none_iff.mp h (q, d) (List.mem_reverse.mpr hmem)
  simp at hne

/-- Each pointer is with the deleter it was last paired with. -/
def Paired (ps : List (Nat × Deleter D L)) (w : World X D L) : Prop :=
  ∀ x q d, w.own x = some (q, d) → lastPaired ps q = some d

omit [DecidableEq L] in
theorem Effect.paired {ps : List (Nat × Deleter D L)} (h : Effect M w op w') (hs : Sole w'.ptr) (hp : Paired ps w) :
    Paired (ps ++ pairs M w op) w' := by
  intro x q d hx
  rw [lastPaired_append]
  cases hn : lastPaired (pairs M w op) q with
  | some a =>
    obtain ⟨y, hy⟩ := h.made q a (mem_of_lastPaired hn)
    rw [own_eq_some] at hx hy
    obtain rfl := Lib.sole_iff.mp hs x y q hx.1 hy.1
    rw [Option.some_or, ← hx.2, ← hy.2]
  | none =>
    rw [Option.none_or]
    rcases h.kept x q d hx with hnew | ⟨y, hy⟩
    · exact (not_mem_of_lastPaired hn hnew).elim
    · exact hp y q d hy

theorem paired_last {ops : List (Op X D L)} (ps : List (Nat × Deleter D L)) (h : run (step M) w ops = some w')
    (hf : Along (step M) Fresh w ops) (hs : Sole w.ptr) (hp : Paired ps w) : Paired (ps ++ pairings M w ops) w' := by
  induction ops generalizing w ps with
  | nil =>
    cases h
    rwa [pairings, outputs, List.append_nil]
  | cons op ops ih =>
    obtain ⟨w₁, h₁, h₂⟩ := run_cons.mp h
    have hrun : run (step M) w [op] = some w₁ := run_cons.mpr ⟨w₁, h₁, rfl⟩
    have hs₁ : Sole w₁.ptr := sole_owner hrun ⟨hf.1, fun _ _ => trivial⟩ hs
    have hp₁ := (step_effect h₁).paired hs₁ hp
    rw [pairings, outputs_cons h₁, ← List.append_assoc]
    exact ih _ h₂ (hf.2 w₁ h₁) hs₁ hp₁

/-! ## What becomes of a pointer -/

/-- How often a deleter was called with `q`. -/
def World.called (w : World X D L) (q : Nat) : Nat :=
  w.log.countP fun e => match e with
    | .call _ _ p => p = some q
    | .release _ => false

/-- How often `release` returned `q`. -/
def World.released (w : World X D L) (q : Nat) : Nat :=
  w.log.countP fun e => match e with
    | .call _ _ _ => false
    | .release p => p = some q

omit [DecidableEq X] [DecidableEq L] in
theorem count_filterMap_ptr (w : World X D L) (q : Nat) :
    (w.log.filterMap Event.ptr).count q = w.called q + w.released q := by
  unfold World.called World.released
  induction w.log with
  | nil => rfl
  | cons e log ih =>
    rw [List.countP_cons, List.countP_cons, List.filterMap_cons]
    cases e with
    | call _ _ p | release p =>
      cases p with
      | none => simp [Event.ptr, ih]
      | some a =>
        simp only [Event.ptr, List.count_cons, ih, beq_iff_eq, Option.some.injEq, decide_eq_true_eq]
        split <;> simp
        omega

/-- **Unique ownership, with the right deleter.** In every run in which a pointer is handed over only while no object
has it (as pointers that are all different are, `fresh_of_nodup`): a pointer is in one object at most; as often as it
was handed over, a deleter was called with it or it was released, but for the one time that it still is in an object.
Whatever comes next, a deleter is called only with a pointer, not with null, that is in an object and was last paired
with that deleter, as the deleter was before the operation; what is moved goes to the target, and the source is empty,
if it is not the target itself. A target has, or refers to, what the deleter it takes was, converted, and no other
deleter of the program is assigned to. -/
theorem unique_ownership (referents : L → D) (ops : List (Op X D L)) (w : World X D L)
    (h : run (step M) (World.init referents) ops = some w)
    (hf : Along (step M) Fresh (World.init referents) ops) :
    (∀ q, (∃! x, w.ptr x = some q) ∧ (acquired ops).count q = w.called q + w.released q + 1 ∨
      (∀ x, w.ptr x ≠ some q) ∧ (acquired ops).count q = w.called q + w.released q) ∧
    ∀ op w', step M w op = some w' →
      (∃ new, w'.log = w.log ++ new ∧ ∀ d v p, .call d v p ∈ new → v = w.read d ∧
        ∃ q, p = some q ∧ (∃ x, w.ptr x = some q) ∧ lastPaired (pairings M (World.init referents) ops) q = some d) ∧
      (∀ y x, op.moved = some (y, x) → w'.ptr x = w.ptr y ∧ (y ≠ x → w'.ptr y = none ∧ (w'.deleter y).isSome)) ∧
      (∀ x y conv, (x, y, conv) ∈ op.takes → (x = y → ∃ l, w.deleter x = some (.ref l)) →
        w'.deleterOf x = (w.deleterOf y).map conv) ∧
      ∀ l, (∀ t ∈ op.takes, w.deleter t.1 ≠ some (.ref l)) → w'.referents l = w.referents l := by
  have hinit : Sole (World.init (X := X) referents).ptr := Lib.sole_none
  have hs := sole_owner h hf hinit
  refine ⟨?_, ?_⟩
  · intro q
    obtain ⟨new, hlog, hpass⟩ := pointers_passed h
    have hnew : w.log = new := hlog
    rw [← count_filterMap_ptr, hnew]
    exact hpass.count_eq hs q
  · intro op w' hstep
    have heff := step_effect hstep
    have hfwd := step_forwarded hstep
    refine ⟨?_, heff.moved, hfwd.taken, hfwd.rest⟩
    obtain ⟨new, hev⟩ := heff.events
    refine ⟨new, hev.log, ?_⟩
    intro d v p hmem
    obtain ⟨hv, x, q, hpq, hx⟩ := hev.called d v p hmem
    have hpaired := paired_last [] h hf hinit nofun
    exact ⟨hv, q, hpq, ⟨x, (own_eq_some.mp hx).1⟩, hpaired x q d hx⟩

/-- Two objects that refer to their deleters, 11 and 12, are swapped, and the one is moved into the other: the pointer
that came with 12 is deleted by it, and the other one is with 11 again. -/
theorem unique_ownership_swap_moveAssign :
    let M : DeleterMoves Nat := ⟨fun _ => 0, id⟩
    let init : World Nat Nat Nat := World.init (· + 10)
    let ops : List (Op Nat Nat Nat) := [.construct 0 (some 8) (.ref 1), .construct 1 (some 9) (.ref 2), .swap 0 1]
    ∃ w w', run (step M) init ops = some w ∧ step M w (.moveAssign 0 1) = some w' ∧
      ((∃! x, w.ptr x = some 9) ∧ (acquired ops).count 9 = w.called 9 + w.released 9 + 1 ∨
        (∀ x, w.ptr x ≠ some 9) ∧ (acquired ops).count 9 = w.called 9 + w.released 9) ∧
      (∃ new, w'.log = w.log ++ new ∧ ∀ d v p, .call d v p ∈ new → v = w.read d ∧
        ∃ q, p = some q ∧ (∃ x, w.ptr x = some q) ∧ lastPaired (pairings M init ops) q = some d) ∧
      w'.ptr 0 = w.ptr 1 ∧ w'.ptr 1 = none ∧ w'.deleterOf 0 = (w.deleterOf 1).map id ∧
      w.deleterOf 0 = some 12 ∧ w.deleterOf 1 = some 11 ∧ w'.log = [.call (.ref 1) 12 (some 9)] ∧
      w'.deleterOf 0 = some 11 := by
  intro M init ops
  have hf : Along (step M) Fresh init ops := fresh_of_nodup (by decide)
  obtain ⟨w, hw⟩ : ∃ w, run (step M) init ops = some w := ⟨_, rfl⟩
  obtain ⟨w', hw'⟩ : ∃ w', step M w (.moveAssign 0 1) = some w' := by cases hw; exact ⟨_, rfl⟩
  obtain ⟨hcount, hnext⟩ := unique_ownership (· + 10) ops w hw hf
  obtain ⟨hcalled, hmoved, htaken, -⟩ := hnext (.moveAssign 0 1) w' hw'
  obtain ⟨h₀, h₁⟩ := hmoved 1 0 rfl
  have h₂ := htaken 0 1 id (List.mem_singleton_self _) (fun h => by cases h)
  refine ⟨w, w', hw, hw', hcount 9, hcalled, h₀, (h₁ (by decide)).1, h₂, ?_⟩
  cases hw
  cases hw'
  exact ⟨rfl, rfl, rfl, rfl⟩

/-- An object that is moved to itself is not empty. -/
theorem self_moved_not_empty :
    ∃ w : World Nat Nat Nat, run (step ⟨fun _ => 0, id⟩) (World.init fun _ => 0)
      [.construct 0 (some 8) (.value 1), .moveAssign 0 0] = some w ∧
      (.moveAssign 0 0 : Op Nat Nat Nat).moved = some (0, 0) ∧ w.ptr 0 ≠ none :=
  ⟨_, rfl, rfl, by decide⟩

end SharedPtr.Unique
