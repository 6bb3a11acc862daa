/-
`__relocate_a` of `bits/stl_uninitialized.h`: each object is moved to its new
place and destroyed. There is no guard: when a move throws, what was relocated
stays relocated, and the rest stays where it is. The target may overlap the
source if it begins before it, and then only. Where bytes are copied instead,
at run time, the ranges may not overlap at all; the new place then holds the
objects that it would in a constant evaluation (`relocates_or_stops`).
-/
import SharedPtr.Shortcuts

namespace SharedPtr.Raw

open Lib (Prog Result)

variable {α ε : Type} {C : Ctors α ε} {cell cell' : Nat → Option α} {k n : Nat} {vs : List α} {v : α}
  {failure : Option ε} {first result : Nat}

namespace Ctors

variable (C)

/-- `__relocate_object_a`. -/
def relocateObjectA (dest orig : Nat) : Prog (Memory α) ε Unit := do
  C.construct dest (.moveFrom orig)
  destroyAt orig

/-- The loop of `__relocate_a_1`, with so many objects to go. -/
def relocateLoop : Nat → Nat → Nat → Prog (Memory α) ε Nat
  | 0, _, cur => pure cur
  | n + 1, first, cur => do
    C.relocateObjectA cur first
    relocateLoop n (first + 1) (cur + 1)

end Ctors

/-- The `n` objects from `first` and from `result` on share no place. -/
def Apart (first result n : Nat) : Prop := result + n ≤ first ∨ first + n ≤ result

instance : Decidable (Apart first result n) := inferInstanceAs (Decidable (_ ∨ _))

/-- `__builtin_memcpy`, which has no meaning where the ranges overlap. -/
def copyBytes (first result n : Nat) : Prog (Memory α) ε Unit :=
  if Apart first result n then write fun cell => memcpy cell first result n else Prog.stop

namespace Ctors

variable (C) (constEval bitwise : Bool)

/-- The overload of `__relocate_a_1` for pointers and `std::allocator`. In a constant evaluation it wraps a pointer
and calls the other one. -/
def relocatePointers (first last result : Nat) : Prog (Memory α) ε Nat :=
  if 0 < last - first then
    if constEval then C.relocateLoop (last - first) first result
    else do
      copyBytes first result (last - first)
      return result + (last - first)
  else return result + (last - first)

/-- `__relocate_a`; `bitwise` says whether the type is `__is_bitwise_relocatable` and that overload is there. -/
def relocateA (first last result : Nat) : Prog (Memory α) ε Nat :=
  if bitwise then C.relocatePointers constEval first last result else C.relocateLoop (last - first) first result

end Ctors

/-- There are `n` objects from `first` on. -/
def Objects (cell : Nat → Option α) (first n : Nat) : Prop := ∀ j < n, (cell (first + j)).isSome

/-- Each object's new place is raw, or has been left when its turn comes. -/
def Room (cell : Nat → Option α) (first result n : Nat) : Prop :=
  ∀ j < n, cell (result + j) = none ∨ result < first ∧ first ≤ result + j

/-- The first `n` objects are gone. -/
def cleared (cell : Nat → Option α) (first n p : Nat) : Option α := if first ≤ p ∧ p < first + n then none else cell p

/-- The objects `vs` are in their new place. -/
def Relocated (first result : Nat) (vs : List α) (failure : Option ε) (cell : Nat → Option α) (k : Nat) :
    Result ε Nat × Memory α :=
  match failure with
  | none => (.ok (result + vs.length), ⟨overlay (cleared cell first vs.length) result vs, k + vs.length⟩)
  | some e => (.throw e, ⟨overlay (cleared cell first vs.length) result vs, k + vs.length + 1⟩)

/-- The memory when the object at `first` has become `v` at `result`. -/
def relocatedOne (cell : Nat → Option α) (first result : Nat) (v : α) : Nat → Option α :=
  Function.update (Function.update cell result (some v)) first none

theorem cleared_zero : cleared cell first 0 = cell := by
  funext p
  exact if_neg (by omega)

theorem Objects.ne_result (ho : Objects cell first n) (hraw : cell result = none) {j : Nat} (hj : j < n) :
    first + j ≠ result := by
  intro h
  have := ho j hj
  rw [h, hraw] at this
  cases this

theorem Objects.alive (ho : Objects cell first n) : Alive cell ((List.range' first n).map .moveFrom) := by
  intro arg harg q hq
  obtain ⟨p, hp, rfl⟩ := List.mem_map.mp harg
  obtain rfl : p = q := Option.some.inj hq
  obtain ⟨hle, hlt⟩ := List.mem_range'_1.mp hp
  have := ho (p - first) (by omega)
  rwa [Nat.add_sub_cancel' hle] at this

theorem source_ne_range {p : Nat} (hp : ¬ (first ≤ p ∧ p < first + n)) :
    ∀ arg ∈ (List.range' first n).map (Arg.moveFrom : Nat → Arg α), arg.source ≠ some p := by
  intro arg harg hs
  obtain ⟨q, hq, rfl⟩ := List.mem_map.mp harg
  obtain rfl : q = p := Option.some.inj hs
  exact hp (List.mem_range'_1.mp hq)

theorem relocatedOne_of_ne {p : Nat} (hf : p ≠ first) (hr : p ≠ result) :
    relocatedOne cell first result v p = cell p := by
  rw [relocatedOne, Function.update_of_ne hf, Function.update_of_ne hr]

theorem relocatedOne_first : relocatedOne cell first result v first = none := Function.update_self ..

/-! ## One object -/

theorem relocateObject_ok (hraw : cell result = none) (hne : first ≠ result)
    (ha : C.answer cell k (.moveFrom first) = some (.ok v)) :
    C.relocateObjectA result first ⟨cell, k⟩ =
      (.ok (), ⟨relocatedOne (C.left cell k (.moveFrom first)) first result v, k + 1⟩) := by
  obtain ⟨a, hfirst, -⟩ := Option.map_eq_some_iff.mp ha
  have hobject : Function.update (C.left cell k (.moveFrom first)) result (some v) first = some (C.moved k a) := by
    rw [Function.update_of_ne hne, Ctors.left, Function.update_self, hfirst]
    rfl
  simp only [Ctors.relocateObjectA, Prog.bind_apply, construct_ok hraw ha, destroyAt, hobject, relocatedOne]

theorem relocateObject_error {e : ε} (hraw : cell result = none)
    (ha : C.answer cell k (.moveFrom first) = some (.error e)) :
    C.relocateObjectA result first ⟨cell, k⟩ = (.throw e, ⟨C.left cell k (.moveFrom first), k + 1⟩) := by
  simp only [Ctors.relocateObjectA, Prog.bind_apply, construct_error hraw ha]

/-- There is an object in the way. -/
theorem relocateObject_stop (hresult : cell result ≠ none) : (C.relocateObjectA result first ⟨cell, k⟩).1 = .stop := by
  obtain ⟨w, hw⟩ := Option.ne_none_iff_exists'.mp hresult
  simp only [Ctors.relocateObjectA, Prog.bind_apply, Ctors.construct, hw]

theorem Objects.next (ho : Objects cell first (n + 1)) (hraw : cell result = none) :
    Objects (relocatedOne (C.left cell k (.moveFrom first)) first result v) (first + 1) n := by
  intro j hj
  have hne : first + 1 + j ≠ result := by
    rw [Nat.add_assoc]
    exact ho.ne_result hraw (by omega)
  rw [relocatedOne_of_ne (by omega) hne, Ctors.isSome_left, Nat.add_assoc]
  exact ho (1 + j) (by omega)

/-- Relocating the first object takes no place that the others need, and leaves its own. -/
theorem room_succ (hraw : cell result = none) : Room cell first result (n + 1) ↔
    Room (relocatedOne (C.left cell k (.moveFrom first)) first result v) (first + 1) (result + 1) n := by
  have hsame : ∀ p, p ≠ first → p ≠ result →
      (relocatedOne (C.left cell k (.moveFrom first)) first result v p = none ↔ cell p = none) := by
    intro p hf hr
    rw [relocatedOne_of_ne hf hr, Ctors.left_of_ne (fun h => hf (Arg.moveFrom.inj h).symm)]
  constructor
  · intro h j hj
    have hj' := h (j + 1) (by omega)
    -- A place where the first object was is raw now.
    by_cases hp : result + 1 + j = first
    · rw [hp]
      exact .inl relocatedOne_first
    · rw [hsame _ hp (by omega), Nat.add_assoc, Nat.add_comm 1]
      exact hj'.imp_right fun hroom => by omega
  · intro h j hj
    cases j with
    | zero => exact .inl hraw
    | succ j =>
      by_cases hp : result + (j + 1) = first
      · exact .inr (by omega)
      · have hj' := h j (by omega)
        rw [Nat.add_assoc, Nat.add_comm 1, hsame _ hp (by omega)] at hj'
        exact hj'.imp_right fun hroom => by omega

/-! ## The loop -/

theorem relocated_cons (hresult : ¬ (first ≤ result ∧ result < first + (vs.length + 1))) :
    Relocated (first + 1) (result + 1) vs failure (relocatedOne cell first result v) (k + 1) =
      Relocated first result (v :: vs) failure cell k := by
  have hcleared : cleared (relocatedOne cell first result v) (first + 1) vs.length =
      Function.update (cleared cell first (vs.length + 1)) result (some v) := by
    funext p
    simp only [cleared, relocatedOne, Function.update_apply]
    grind
  have hcell : overlay (cleared (relocatedOne cell first result v) (first + 1) vs.length) (result + 1) vs =
      overlay (cleared cell first (vs.length + 1)) result (v :: vs) := by
    rw [hcleared, overlay_update (Nat.lt_succ_self result), overlay]
  have hlen : k + 1 + vs.length = k + (vs.length + 1) ∧ result + 1 + vs.length = result + (vs.length + 1) := by omega
  cases failure <;> simp only [Relocated, hcell, List.length_cons, hlen]

theorem relocateLoop_apply (h : Constructs C cell k ((List.range' first n).map .moveFrom) vs failure cell')
    (ho : Objects cell first n) (hroom : Room cell first result n) :
    C.relocateLoop n first result ⟨cell, k⟩ = Relocated first result vs failure cell' k := by
  induction n generalizing cell cell' k vs first result with
  | zero =>
    cases h
    simp only [Relocated, List.length_nil, cleared_zero]
    rfl
  | succ n ih =>
    have hraw : cell result = none := (hroom 0 (by omega)).resolve_right (by omega)
    have hne : first ≠ result := ho.ne_result hraw (Nat.succ_pos n)
    rw [List.range'_succ, List.map_cons] at h
    cases h with
    | error ha =>
      simp only [Ctors.relocateLoop, Prog.bind_apply, relocateObject_error hraw ha, Relocated, List.length_nil,
        cleared_zero]
      rfl
    | ok ha h =>
      rename_i v vs
      -- Neither the new object nor the one that is gone is a source of what is to come.
      have hresult : ¬ (first + 1 ≤ result ∧ result < first + 1 + n) := fun hin =>
        ho.ne_result hraw (j := result - first) (by omega) (by omega)
      have hfirst : ¬ (first + 1 ≤ first ∧ first < first + 1 + n) := by omega
      have h' := (h.update (x := some v) (source_ne_range hresult)).update (x := none) (source_ne_range hfirst)
      have hnext := ih h' (ho.next hraw) ((room_succ hraw).mp hroom)
      have hlen := h.length_le
      rw [List.length_map, List.length_range'] at hlen
      simp only [Ctors.relocateLoop, Prog.bind_apply, relocateObject_ok hraw hne ha]
      exact hnext.trans (relocated_cons (by omega))

/-- Where there is no room, an object is constructed over another. -/
theorem relocateLoop_stop (hmove : ∀ k x, ∃ v, C.move k x = .ok v) (ho : Objects cell first n)
    (hroom : ¬ Room cell first result n) : (C.relocateLoop n first result ⟨cell, k⟩).1 = .stop := by
  induction n generalizing cell k first result with
  | zero => exact absurd (fun j hj => absurd hj (Nat.not_lt_zero j)) hroom
  | succ n ih =>
    by_cases hraw : cell result = none
    · obtain ⟨a, hfirst⟩ := Option.isSome_iff_exists.mp (ho 0 (Nat.succ_pos n))
      obtain ⟨v, hv⟩ := hmove k a
      have ha : C.answer cell k (.moveFrom first) = some (.ok v) := by
        rw [Ctors.answer, show cell first = some a from hfirst, ← hv]
        rfl
      have hne : first ≠ result := ho.ne_result hraw (Nat.succ_pos n)
      simp only [Ctors.relocateLoop, Prog.bind_apply, relocateObject_ok hraw hne ha]
      exact ih (ho.next hraw) (mt (room_succ hraw).mpr hroom)
    · have hstop : (C.relocateObjectA result first ⟨cell, k⟩).1 = .stop := relocateObject_stop hraw
      simp only [Ctors.relocateLoop, Prog.bind_apply]
      split
      next heq => simp [heq] at hstop
      next heq => simp [heq] at hstop
      next => rfl

/-! ## The functions -/

/-- Unless bytes are copied, it is the loop. -/
theorem relocateA_loop {constEval bitwise : Bool} (h : (constEval || !bitwise) = true) :
    C.relocateA constEval bitwise first (first + n) result = C.relocateLoop n first result := by
  have hlen : first + n - first = n := Nat.add_sub_cancel_left ..
  unfold Ctors.relocateA Ctors.relocatePointers
  rw [hlen]
  cases bitwise with
  | false => rfl
  | true =>
    obtain rfl : constEval = true := by simpa using h
    cases n with
    | zero => rfl
    | succ n => simp

theorem relocateA_bytes (hn : 0 < n) : C.relocateA false true first (first + n) result =
    (copyBytes first result n >>= fun _ => pure (result + n) : Prog (Memory α) ε Nat) := by
  have hlen : first + n - first = n := Nat.add_sub_cancel_left ..
  unfold Ctors.relocateA Ctors.relocatePointers
  simp [hlen, hn]

theorem relocateA_none {constEval bitwise : Bool} :
    C.relocateA constEval bitwise first (first + 0) result = pure result := by
  unfold Ctors.relocateA Ctors.relocatePointers
  rw [Nat.add_zero, Nat.sub_self]
  cases bitwise <;> rfl

theorem relocateA_apart (h : Apart first result n) :
    C.relocateA false true first (first + n) result ⟨cell, k⟩ =
      (.ok (result + n), ⟨memcpy cell first result n, k⟩) := by
  cases n with
  | zero =>
    have hcell : memcpy cell first result 0 = cell := funext fun p => if_neg (by omega)
    rw [relocateA_none, hcell]
    rfl
  | succ n =>
    rw [relocateA_bytes (Nat.succ_pos n), copyBytes, if_pos h]
    rfl

theorem relocateA_overlap (h : ¬ Apart first result n) :
    (C.relocateA false true first (first + n) result ⟨cell, k⟩).1 = .stop := by
  have hn : 0 < n := by
    rw [Apart] at h
    omega
  rw [relocateA_bytes hn, copyBytes, if_neg h]
  rfl

/-- Moves that make what their source was make the objects of the range. -/
theorem Constructs.of_moves (hmove : ∀ k x, C.move k x = .ok x)
    (h : Constructs C cell k ((List.range' first n).map .moveFrom) vs failure cell') :
    failure = none ∧ vs.map some = (List.range' first n).map cell := by
  induction n generalizing cell k vs first with
  | zero =>
    cases h
    exact ⟨rfl, rfl⟩
  | succ n ih =>
    have hanswer : C.answer cell k (.moveFrom first) = (cell first).map .ok := by
      rw [Ctors.answer, funext (hmove k)]
    rw [List.range'_succ, List.map_cons] at h
    cases h with
    | error ha =>
      rw [hanswer] at ha
      obtain ⟨w, -, hw⟩ := Option.map_eq_some_iff.mp ha
      cases hw
    | ok ha h =>
      rw [hanswer] at ha
      obtain ⟨w, hfirst, hw⟩ := Option.map_eq_some_iff.mp ha
      cases hw
      obtain ⟨hf, hvs⟩ := ih h
      refine ⟨hf, ?_⟩
      rw [List.range'_succ, List.map_cons, List.map_cons, hfirst, hvs]
      congr 1
      refine List.map_congr_left fun p hp => Ctors.left_of_ne fun heq => ?_
      have := List.mem_range'_1.mp hp
      rw [Arg.moveFrom.inj heq] at this
      omega

/-- The loop leaves the same objects as `memcpy`, the old place apart. -/
theorem relocateLoop_moves (hmove : ∀ k x, C.move k x = .ok x) (ho : Objects cell first n)
    (hraw : RawFrom cell result n) : ∃ s, C.relocateLoop n first result ⟨cell, k⟩ = (.ok (result + n), s) ∧
      ∀ p, ¬ (first ≤ p ∧ p < first + n) → s.cell p = memcpy cell first result n p := by
  obtain ⟨vs, failure, cell', h⟩ := Constructs.exists_of_alive (C := C) (k := k) ho.alive
  obtain ⟨rfl, hvs⟩ := h.of_moves hmove
  have hlen : vs.length = n := by simpa using congrArg List.length hvs
  have hloop := relocateLoop_apply h ho fun j hj => .inl (hraw j hj)
  rw [Relocated, hlen] at hloop
  refine ⟨_, hloop, fun p hp => ?_⟩
  have hleft : cell' p = cell p := h.eq_of_not_moved fun hmem => source_ne_range hp _ hmem rfl
  show overlay (cleared cell' first n) result vs p = _
  rw [overlay_map hvs, memcpy, cleared, if_neg hp, hleft]

/-- Where there is room, the loop relocates the objects up to the first whose move throws, and the others are where
they were; where there is none and no move throws, the program constructs an object over another. Where bytes are
copied, which has no meaning unless the ranges are apart, each object is in its new place and no other cell has
changed; where that was raw, a constant evaluation leaves the same there, if a move makes the object that it moves. -/
theorem relocates_or_stops (ho : Objects cell first n) :
    (∀ constEval bitwise, (constEval || !bitwise) = true →
      (Room cell first result n → ∃ vs failure cell',
        Constructs C cell k ((List.range' first n).map .moveFrom) vs failure cell' ∧
        C.relocateA constEval bitwise first (first + n) result ⟨cell, k⟩ = Relocated first result vs failure cell' k ∧
        ∀ p, ¬ (first ≤ p ∧ p < first + n) → cell' p = cell p) ∧
      ((∀ k x, ∃ v, C.move k x = .ok v) → ¬ Room cell first result n →
        (C.relocateA constEval bitwise first (first + n) result ⟨cell, k⟩).1 = .stop)) ∧
    (Apart first result n → ∃ s, C.relocateA false true first (first + n) result ⟨cell, k⟩ = (.ok (result + n), s) ∧
      (∀ j < n, s.cell (result + j) = cell (first + j)) ∧
      (∀ p, ¬ (result ≤ p ∧ p < result + n) → s.cell p = cell p) ∧
      (RawFrom cell result n → (∀ k x, C.move k x = .ok x) →
        ∃ t, C.relocateA true true first (first + n) result ⟨cell, k⟩ = (.ok (result + n), t) ∧
          ∀ p, ¬ (first ≤ p ∧ p < first + n) → t.cell p = s.cell p)) ∧
    (¬ Apart first result n → (C.relocateA false true first (first + n) result ⟨cell, k⟩).1 = .stop) := by
  refine ⟨fun constEval bitwise hloop => ?_, fun hapart => ?_, relocateA_overlap⟩
  · rw [relocateA_loop hloop]
    refine ⟨fun hroom => ?_, fun hmove => relocateLoop_stop hmove ho⟩
    obtain ⟨vs, failure, cell', h⟩ := Constructs.exists_of_alive (C := C) (k := k) ho.alive
    refine ⟨vs, failure, cell', h, relocateLoop_apply h ho hroom, fun p hp => h.eq_of_not_moved fun hmem => ?_⟩
    exact source_ne_range hp _ hmem rfl
  · refine ⟨_, relocateA_apart hapart, fun j hj => ?_, fun p hp => if_neg hp, fun hraw hmove => ?_⟩
    · show memcpy cell first result n (result + j) = _
      rw [memcpy, if_pos (by omega), Nat.add_sub_cancel_left]
    · rw [relocateA_loop (by rfl)]
      exact relocateLoop_moves hmove ho hraw

/-- A move leaves 0 behind. -/
def leavesZero : Ctors Nat Unit := ⟨fun _ => .ok 0, fun _ => .ok 0, fun _ x => .ok x, fun _ x => .ok x, fun _ _ => 0⟩

/-- Three objects, from 10 on. -/
def threeObjects (p : Nat) : Option Nat := if 10 ≤ p ∧ p < 13 then some p else none

/-- One place to the left, which the loop can do and `memcpy` cannot; one to the right, which has no meaning; and into
places of their own. -/
theorem relocates_or_stops_overlap :
    (leavesZero.relocateA true true 10 (10 + 3) 9 ⟨threeObjects, 0⟩).1 = .ok 12 ∧
    (∃ vs failure cell', Constructs leavesZero threeObjects 0 ((List.range' 10 3).map .moveFrom) vs failure cell' ∧
      leavesZero.relocateA true true 10 (10 + 3) 9 ⟨threeObjects, 0⟩ = Relocated 10 9 vs failure cell' 0 ∧
      ∀ p, ¬ (10 ≤ p ∧ p < 10 + 3) → cell' p = threeObjects p) ∧
    (leavesZero.relocateA false true 10 (10 + 3) 9 ⟨threeObjects, 0⟩).1 = .stop ∧
    (leavesZero.relocateA false false 10 (10 + 3) 11 ⟨threeObjects, 0⟩).1 = .stop ∧
    ∃ s t, leavesZero.relocateA false true 10 (10 + 3) 20 ⟨threeObjects, 0⟩ = (.ok 23, s) ∧
      leavesZero.relocateA true true 10 (10 + 3) 20 ⟨threeObjects, 0⟩ = (.ok 23, t) ∧
      ∀ p, ¬ (10 ≤ p ∧ p < 10 + 3) → t.cell p = s.cell p := by
  have ho : Objects threeObjects 10 3 := by
    unfold Objects
    decide
  have hroom : Room threeObjects 10 9 3 := by
    unfold Room
    decide
  have hnone : ¬ Room threeObjects 10 11 3 := by
    unfold Room
    decide
  have hraw : RawFrom threeObjects 20 3 := by
    unfold RawFrom
    decide
  have hapart : Apart 10 20 3 := .inr (by decide)
  obtain ⟨s, hs, -, -, hagree⟩ := (relocates_or_stops (C := leavesZero) (k := 0) ho).2.1 hapart
  obtain ⟨t, ht, heq⟩ := hagree hraw fun _ _ => rfl
  exact ⟨rfl, ((relocates_or_stops ho).1 true true rfl).1 hroom, (relocates_or_stops ho).2.2 (by decide),
    ((relocates_or_stops ho).1 false false rfl).2 (fun _ x => ⟨x, rfl⟩) hnone, s, t, hs, ht, heq⟩

end SharedPtr.Raw
