/-
Every algorithm of `bits/stl_uninitialized.h` makes all its elements, or it
throws what the first constructor to fail has thrown and leaves no element;
the sources are as they were, but for those that were moved from
(`commits_or_rolls_back`).
-/
import SharedPtr.RawMemory

namespace SharedPtr.Raw

open Lib (Prog Result)

variable {α ε : Type} {C : Ctors α ε} {cell cell' : Nat → Option α} {k : Nat} {args : List (Arg α)} {vs : List α}
  {failure : Option ε}

/-! ## One range after the other -/

theorem overlay_comm {first mid : Nat} {ws : List α} (h : first + vs.length ≤ mid) :
    overlay (overlay cell first vs) mid ws = overlay (overlay cell mid ws) first vs := by
  induction vs generalizing first with
  | nil => rfl
  | cons v vs ih =>
    rw [List.length_cons] at h
    rw [overlay, overlay, overlay_update (by omega), ih (by omega)]

theorem Constructs.overlay {first : Nat} {ws : List α} (h : Constructs C cell k args vs failure cell')
    (hp : ∀ p, first ≤ p → p < first + ws.length → ∀ arg ∈ args, arg.source ≠ some p) :
    Constructs C (Raw.overlay cell first ws) k args vs failure (Raw.overlay cell' first ws) := by
  induction ws generalizing first with
  | nil => exact h
  | cons w ws ih =>
    rw [List.length_cons] at hp
    exact (ih fun p h₁ h₂ => hp p (by omega) (by omega)).update (hp first (Nat.le_refl _) (by omega))

theorem Constructs.alive {bs : List (Arg α)} (h : Constructs C cell k args vs failure cell') (ha : Alive cell bs) :
    Alive cell' bs := fun a hab q hq => by
  rw [h.isSome_eq]
  exact ha a hab q hq

theorem isSome_overlay {first q : Nat} (h : (cell q).isSome) : (Raw.overlay cell first vs q).isSome := by
  induction vs generalizing first with
  | nil => exact h
  | cons v vs ih =>
    by_cases hq : q = first
    · rw [hq, Raw.overlay, Function.update_self]
      rfl
    · rw [Raw.overlay, Function.update_of_ne hq]
      exact ih

theorem Alive.overlay {first : Nat} (ha : Alive cell args) : Alive (Raw.overlay cell first vs) args := fun a hab q hq =>
  isSome_overlay (ha a hab q hq)

theorem Alive.of_append_right {as bs : List (Arg α)} (h : Alive cell (as ++ bs)) : Alive cell bs := fun a ha =>
  h a (List.mem_append_right _ ha)

theorem Alive.of_append_left {as bs : List (Arg α)} (h : Alive cell (as ++ bs)) : Alive cell as := fun a ha =>
  h a (List.mem_append_left _ ha)

theorem RawFrom.mono {first n m : Nat} (h : RawFrom cell first n) (hm : m ≤ n) : RawFrom cell first m := fun j hj =>
  h j (hj.trans_le hm)

section

variable {β γ : Type} {p : Prog (Memory α) ε β} {q : Prog (Memory α) ε γ} {a : β} {b : γ} {as bs : List (Arg α)}
  {ws : List α} {cell'' : Nat → Option α} {first : Nat}

/-- The second range, in the scope of the guard of the first. -/
theorem second_apply (hq : Builds C q b (first + as.length) bs) (h : Constructs C cell k as vs none cell')
    (h' : Constructs C cell' (k + as.length) bs ws failure cell'') (hraw : RawFrom cell first (as ++ bs).length)
    (ha : Alive cell (as ++ bs)) :
    guarded first (do
      Prog.modify fun s => (s.1, first + as.length)
      Prog.outer q) ⟨overlay cell' first vs, k + as.length⟩ =
    Settled b first (vs ++ ws) failure cell'' k := by
  have hlen := h.length_eq
  rw [List.length_append] at hraw
  have hraw' : RawFrom cell' first (as.length + bs.length) := h.raw hraw
  have halive : Alive cell' bs := h.alive ha.of_append_right
  -- The objects just made are no sources of the second range, whose constructors do not see them.
  have hsource : ∀ p, first ≤ p → p < first + vs.length → ∀ arg ∈ bs, arg.source ≠ some p := by
    intro p h₁ h₂
    have hp := hraw' (p - first) (by omega)
    rw [Nat.add_sub_cancel' h₁] at hp
    exact halive.source_ne hp
  have hsecond : q ⟨overlay cell' first vs, k + as.length⟩ =
      Settled b (first + as.length) ws failure (overlay cell'' first vs) (k + as.length) := by
    refine hq.apply (h'.overlay hsource) (fun j hj => ?_) halive.overlay
    rw [overlay_of_ge (by omega), Nat.add_assoc]
    exact hraw' _ (by omega)
  have hcomm : overlay (overlay cell'' first vs) (first + as.length) ws = overlay cell'' first (vs ++ ws) := by
    rw [overlay_append, hlen, overlay_comm (hlen ▸ Nat.le_refl (first + vs.length))]
  simp only [guarded, Prog.bind_apply, Prog.modify_apply, Prog.outer, hsecond]
  cases failure with
  | none => simp only [Settled, List.length_append, hcomm, hlen, Nat.add_assoc]
  | some e =>
    -- The second call has taken back its own objects; the guard here takes back the first range.
    have hfirst : RawFrom cell'' first vs.length := h'.raw (hraw'.mono (by omega))
    simp only [Settled, List.length_append, hlen]
    rw [show first + as.length - first = vs.length by omega]
    simp only [destroyN_overlay hfirst]
    rw [show k + as.length + ws.length + 1 = k + (as.length + ws.length) + 1 by omega]
    rfl

/-- Two ranges are one: the guard of the second call takes back the first range too. -/
theorem Builds.both {c : β → Prog (Memory α) ε γ} (hp : Builds C p a first as)
    (hq : Builds C q b (first + as.length) bs) (hc : c a = guarded first do
      Prog.modify fun s => (s.1, first + as.length)
      Prog.outer q) : Builds C (p >>= c) b first (as ++ bs) := by
  refine ⟨fun {cell cell' k us failure} h hraw ha => ?_⟩
  have hfirst : RawFrom cell first as.length := hraw.mono (by simp)
  obtain ⟨e, rfl, h⟩ | ⟨vs, ws, mid, rfl, h, h'⟩ := h.of_append
  · rw [Prog.bind_apply, hp.apply h hfirst ha.of_append_left]
    rfl
  · rw [Prog.bind_apply, hp.apply h hfirst ha.of_append_left]
    simp only [Settled, h.length_eq, hc]
    exact second_apply hq h h' hraw ha

/-- What is made of the answer. -/
theorem Builds.map (f : β → γ) (hp : Builds C p a first args) : Builds C (do return f (← p)) (f a) first args := by
  refine ⟨fun {cell cell' k vs failure} h hraw ha => ?_⟩
  rw [Prog.bind_apply, hp.apply h hraw ha]
  cases failure <;> rfl

end

/-! ## Every algorithm -/

/-- The calls. -/
inductive Algorithm (α : Type)
  | copy (first last result : Nat)
  | move (first last result : Nat)
  | moveIfNoexcept (moves : Bool) (first last result : Nat)
  | copyN (first : Nat) (n : Int) (result : Nat)
  | moveN (first : Nat) (n : Int) (result : Nat)
  | fill (first last : Nat) (x : α)
  | fillN (first : Nat) (n : Int) (x : α)
  | fillNA (first : Nat) (n : Int) (x : α)
  | default (first last : Nat)
  | defaultN (first : Nat) (n : Int)
  | defaultNovalue (first last : Nat)
  | defaultNovalueN (first : Nat) (n : Int)
  | copyMove (first₁ last₁ first₂ last₂ result : Nat)
  | moveCopy (first₁ last₁ first₂ last₂ result : Nat)
  | fillMove (result mid : Nat) (x : α) (first last : Nat)
  | moveFill (first₁ last₁ first₂ last₂ : Nat) (x : α)
  deriving DecidableEq

namespace Algorithm

/-- The call, and the iterators it returns. -/
def exec (C : Ctors α ε) : Algorithm α → Prog (Memory α) ε (List Nat)
  | copy first last result => do return [← C.doUninitCopy first last result]
  | move first last result => do return [← C.uninitializedMoveA first last result]
  | moveIfNoexcept moves first last result => do return [← C.uninitializedMoveIfNoexceptA moves first last result]
  | copyN first n result => do return [← C.uninitializedCopyN first n result]
  | moveN first n result => do
    let r ← C.uninitializedMoveN first n result
    return [r.1, r.2]
  | fill first last x => do
    C.doUninitFill first last x
    return []
  | fillN first n x => do return [← C.doUninitFillN first n x]
  | fillNA first n x => do return [← C.uninitializedFillNA first n x]
  | default first last => do
    C.uninitDefault first last
    return []
  | defaultN first n => do return [← C.uninitDefaultN first n]
  | defaultNovalue first last => do
    C.uninitDefaultNovalue first last
    return []
  | defaultNovalueN first n => do return [← C.uninitDefaultNovalueN first n]
  | copyMove first₁ last₁ first₂ last₂ result => do return [← C.uninitializedCopyMove first₁ last₁ first₂ last₂ result]
  | moveCopy first₁ last₁ first₂ last₂ result => do return [← C.uninitializedMoveCopy first₁ last₁ first₂ last₂ result]
  | fillMove result mid x first last => do return [← C.uninitializedFillMove result mid x first last]
  | moveFill first₁ last₁ first₂ last₂ x => do
    C.uninitializedMoveFill first₁ last₁ first₂ last₂ x
    return []

/-- Where the elements are to be. -/
def target : Algorithm α → Nat
  | copy _ _ result | move _ _ result | moveIfNoexcept _ _ _ result | copyN _ _ result | moveN _ _ result
  | copyMove _ _ _ _ result | moveCopy _ _ _ _ result | fillMove result _ _ _ _ => result
  | fill first _ _ | fillN first _ _ | fillNA first _ _ | default first _ | defaultN first _ | defaultNovalue first _
  | defaultNovalueN first _ | moveFill _ _ first _ _ => first

/-- What they are to be made from, in order. -/
def elements : Algorithm α → List (Arg α)
  | copy first last _ | moveIfNoexcept false first last _ => (range first last).map .copyFrom
  | move first last _ | moveIfNoexcept true first last _ => (range first last).map .moveFrom
  | copyN first n _ => (List.range' first n.toNat).map .copyFrom
  | moveN first n _ => (List.range' first n.toNat).map .moveFrom
  | fill first last x => List.replicate (last - first) (.copyOf x)
  | fillN _ n x | fillNA _ n x => List.replicate n.toNat (.copyOf x)
  | default first last => List.replicate (last - first) .value
  | defaultN _ n => List.replicate n.toNat .value
  | defaultNovalue first last => List.replicate (last - first) .novalue
  | defaultNovalueN _ n => List.replicate n.toNat .novalue
  | copyMove first₁ last₁ first₂ last₂ _ => (range first₁ last₁).map .copyFrom ++ (range first₂ last₂).map .moveFrom
  | moveCopy first₁ last₁ first₂ last₂ _ => (range first₁ last₁).map .moveFrom ++ (range first₂ last₂).map .copyFrom
  | fillMove result mid x first last => List.replicate (mid - result) (.copyOf x) ++ (range first last).map .moveFrom
  | moveFill first₁ last₁ first₂ last₂ x =>
    (range first₁ last₁).map .moveFrom ++ List.replicate (last₂ - (first₂ + (last₁ - first₁))) (.copyOf x)

/-- The iterators returned: behind the elements, and behind those they were made from where the call has both. -/
def returns (op : Algorithm α) : List Nat :=
  match op with
  | moveN first n _ => [first + n.toNat, op.target + op.elements.length]
  | fill .. | default .. | defaultNovalue .. | moveFill .. => []
  | _ => [op.target + op.elements.length]

/-- The ranges are ranges. -/
def Valid : Algorithm α → Prop
  | copy first last _ | move first last _ | moveIfNoexcept _ first last _ | fill first last _ | default first last
  | defaultNovalue first last => first ≤ last
  | copyN _ n _ | moveN _ n _ | fillN _ n _ => 0 ≤ n
  | fillNA .. | defaultN .. | defaultNovalueN .. => True
  | copyMove first₁ last₁ first₂ last₂ _ | moveCopy first₁ last₁ first₂ last₂ _ => first₁ ≤ last₁ ∧ first₂ ≤ last₂
  | fillMove result mid _ first last => result ≤ mid ∧ first ≤ last
  | moveFill first₁ last₁ first₂ last₂ _ => first₁ ≤ last₁ ∧ first₂ + (last₁ - first₁) ≤ last₂

/-- What the standard asks for: the target is raw, and the sources are there. -/
structure Ready (cell : Nat → Option α) (op : Algorithm α) : Prop where
  valid : op.Valid
  raw : RawFrom cell op.target op.elements.length
  alive : Alive cell op.elements

/-- Every algorithm makes its elements or nothing. -/
theorem builds {op : Algorithm α} (hop : op.Valid) : Builds C (op.exec C) op.returns op.target op.elements := by
  cases op with
  | copy first last result | move first last result | copyN first n result | fillNA first n x | defaultN first n
  | defaultNovalueN first n => exact (uninit_builds rfl).map ([·])
  | moveIfNoexcept moves first last result => cases moves <;> exact (uninit_builds rfl).map ([·])
  | moveN first n result => exact ((uninit_builds rfl).map (first + n.toNat, ·)).map fun r => [r.1, r.2]
  | fill first last x | default first last | defaultNovalue first last =>
    exact ((uninit_builds rfl).map fun _ => ()).map fun _ => []
  | fillN first n x =>
    have hn : C.doUninitFillN first n x = C.uninit first (List.replicate n.toNat (.copyOf x)) :=
      if_neg (Int.not_lt.mpr hop)
    simp only [exec, hn]
    exact (uninit_builds rfl).map ([·])
  | copyMove first₁ last₁ first₂ last₂ result | moveCopy first₁ last₁ first₂ last₂ result =>
    refine ((uninit_builds rfl).both (uninit_builds ?_) ?_).map ([·])
    · rw [target, elements, List.length_append, Nat.add_assoc]
    · rfl
  | fillMove result mid x first last =>
    have hmid : mid = result + (List.replicate (mid - result) (Arg.copyOf x)).length := by
      rw [List.length_replicate, Nat.add_sub_cancel' hop.1]
    refine (((uninit_builds rfl).map fun _ => ()).both (uninit_builds ?_) ?_).map ([·])
    · rw [target, elements, List.length_append, Nat.add_assoc]
    · rw [← hmid]
      rfl
  | moveFill first₁ last₁ first₂ last₂ x =>
    refine ((uninit_builds rfl).both ((uninit_builds rfl).map fun _ => ()) ?_).map fun _ => []
    rw [List.length_map, range, List.length_range']
    rfl

end Algorithm

/-- Where its target is raw and its sources are there, an algorithm makes what its constructors make, all of it, or
throws what one of them has thrown, with no element left; a cell that is neither in the target nor moved from is as
it was, and none has lost its object. -/
theorem commits_or_rolls_back {op : Algorithm α} (h : op.Ready cell) :
    ∃ vs failure cell', Constructs C cell k op.elements vs failure cell' ∧
      op.exec C ⟨cell, k⟩ = Settled op.returns op.target vs failure cell' k ∧
      (∀ p, .moveFrom p ∉ op.elements → cell' p = cell p) ∧ ∀ p, (cell' p).isSome = (cell p).isSome := by
  obtain ⟨vs, failure, cell', hc⟩ := Constructs.exists_of_alive (C := C) (k := k) h.alive
  refine ⟨vs, failure, cell', hc, (Algorithm.builds h.valid).apply hc h.raw h.alive, fun p hp => ?_, hc.isSome_eq⟩
  exact hc.eq_of_not_moved hp

/-- The third constructor call throws. -/
def thirdThrows : Ctors Nat Unit where
  value k := if k = 2 then .error () else .ok 0
  novalue k := if k = 2 then .error () else .ok 0
  copy k x := if k = 2 then .error () else .ok x
  move k x := if k = 2 then .error () else .ok x
  moved _ _ := 0

/-- Objects from 10 to 13. -/
def fourObjects (p : Nat) : Option Nat := if 10 ≤ p ∧ p < 14 then some (p * p) else none

/-- One is copied, and the next two are moved. -/
def copyThenMove : Algorithm Nat := .copyMove 10 11 11 13 20

theorem commits_or_rolls_back_third :
    (copyThenMove.exec thirdThrows ⟨fourObjects, 0⟩).1 = .throw () ∧
      ∃ vs failure cell', Constructs thirdThrows fourObjects 0 copyThenMove.elements vs failure cell' ∧
        copyThenMove.exec thirdThrows ⟨fourObjects, 0⟩ = Settled [23] 20 vs failure cell' 0 ∧
        (∀ p, .moveFrom p ∉ copyThenMove.elements → cell' p = fourObjects p) ∧
        ∀ p, (cell' p).isSome = (fourObjects p).isSome := by
  refine ⟨rfl, commits_or_rolls_back ⟨⟨by decide, by decide⟩, ?_, ?_⟩⟩
  · have h : ∀ j < 3, fourObjects (20 + j) = none := by decide
    exact h
  · have h : Alive fourObjects [.copyFrom 10, .moveFrom 11, .moveFrom 12] := by simp [Alive, Arg.source, fourObjects]
    exact h

end SharedPtr.Raw
