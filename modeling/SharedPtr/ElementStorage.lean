/-
The elements of a shared array have been modelled by the calls that are made
for them. Here the same calls fill storage, and the two models of the loops of
`bits/stl_uninitialized.h` agree (`uninit_of_uninitialized`).
-/
import SharedPtr.Elements
import SharedPtr.RawMemory

namespace SharedPtr.Raw

open SharedPtr.Seq (Env Init Exn Heap Source Ptr)

variable {E : Env} {cell : Nat → Option (Init ⊕ Nat)} {init : Nat → Init}

/-- What an element is constructed from; an initial value is known by its name. -/
def ofInit : Init → Arg (Init ⊕ Nat)
  | .value => .value
  | .default => .novalue
  | init => .copyOf (.inl init)

/-- The constructors that answer as `E` does, with the elements' values. -/
def ofEnv (E : Env) : Ctors (Init ⊕ Nat) Exn where
  value k := (E.construct k .value).map .inr
  novalue k := (E.construct k .default).map .inr
  copy k x := x.elim (fun init => (E.construct k init).map .inr) fun v => .ok (.inr v)
  move _ x := .ok x
  moved _ x := x

theorem answer_ofInit (k : Nat) (init : Init) :
    (ofEnv E).answer cell k (ofInit init) = some ((E.construct k init).map .inr) := by
  cases init <;> rfl

theorem left_ofInit (k : Nat) (init : Init) : (ofEnv E).left cell k (ofInit init) = cell := by
  cases init <;> rfl

theorem source_ofInit (init : Init) : (ofInit init).source = none := by
  cases init <;> rfl

/-- The elements from `i` on. -/
def initArgs (init : Nat → Init) (i n : Nat) : List (Arg (Init ⊕ Nat)) := (List.range' i n).map fun j => ofInit (init j)

theorem initArgs_succ (i n : Nat) : initArgs init i (n + 1) = ofInit (init i) :: initArgs init (i + 1) n := rfl

theorem constructs_build (c i n : Nat) :
    Constructs (ofEnv E) cell c (initArgs init i n) ((E.build init c i n).values.map .inr) (E.build init c i n).failure
      cell := by
  induction n generalizing c i with
  | zero => exact .nil cell c
  | succ n ih =>
    have ha : (ofEnv E).answer cell c (ofInit (init i)) = some ((E.construct c (init i)).map .inr) :=
      answer_ofInit c (init i)
    cases hc : E.construct c (init i) with
    | error e =>
      rw [hc] at ha
      have herror : Constructs (ofEnv E) cell c (initArgs init i (n + 1)) [] (some e) _ := .error ha
      rw [left_ofInit] at herror
      simpa only [initArgs_succ, Env.build, hc, List.map_nil] using herror
    | ok v =>
      rw [hc] at ha
      simp only [initArgs_succ, Env.build, hc, List.map_cons]
      refine .ok ha ?_
      rw [left_ofInit]
      exact ih (c + 1) (i + 1)

theorem alive_initArgs (i n : Nat) : Alive cell (initArgs init i n) := by
  intro arg harg q hq
  obtain ⟨j, -, rfl⟩ := List.mem_map.mp harg
  rw [source_ofInit] at hq
  cases hq

variable {first n : Nat}

theorem uninit_initArgs (init : Nat → Init) (hraw : RawFrom cell first n) (c : Nat) :
    (ofEnv E).uninit first (initArgs init 0 n) ⟨cell, c⟩ =
      Settled (first + n) first ((E.build init c 0 n).values.map .inr) (E.build init c 0 n).failure cell c := by
  have hlen : (initArgs init 0 n).length = n := by rw [initArgs, List.length_map, List.length_range']
  refine (uninit_builds (by rw [hlen])).apply (constructs_build c 0 n) ?_ (alive_initArgs 0 n)
  rwa [hlen]

/-- A range of a shared array, by its calls and in storage: both models end alike, with as many constructors called,
and the storage has the elements that were made, or none. -/
theorem uninit_of_uninitialized (hraw : RawFrom cell first n) (via : Option Source) (p : Ptr) (h : Heap) :
    (ofEnv E).uninit first (initArgs init 0 n) ⟨cell, h.constructions⟩ =
        Settled (first + n) first ((E.build init h.constructions 0 n).values.map .inr)
          (E.build init h.constructions 0 n).failure cell h.constructions ∧
      (Seq.uninitialized E via init p n h).1 = (E.build init h.constructions 0 n).result ∧
      (Seq.uninitialized E via init p n h).2.constructions =
        ((ofEnv E).uninit first (initArgs init 0 n) ⟨cell, h.constructions⟩).2.calls := by
  have hstorage := uninit_initArgs (E := E) init hraw h.constructions
  refine ⟨hstorage, ?_, ?_⟩
  · rw [Seq.uninitialized_apply]
  · rw [Seq.uninitialized_apply, hstorage]
    cases hf : (E.build init h.constructions 0 n).failure with
    | none => simp [Settled, Seq.Heap.afterBuild, Seq.Built.calls, hf]
    | some e => simp [Settled, Seq.Heap.afterBuild, Seq.Heap.emit, Seq.Built.calls, hf, Nat.add_assoc]

end SharedPtr.Raw
