/-
An array made by `make_shared` at run time is there with all its elements, or
it is not there and the caller has the exception: the elements that were
constructed are destroyed, and the storage is given back with the count it was
allocated with.

The exception to this is the exception for the length. It is thrown by a
function that is `noexcept`, and ends the program.
-/
import SharedPtr.SharedArray

namespace SharedPtr.Seq

open Lib (Prog Result Trade)

variable {V : Type} [DecidableEq V] {L : Layout} {E : Env} {a : Source} {ini : Initial} {shape : ArrayShape L}
  {s : Mem V} {x : V} {p : Ptr}

/-- The exceptions there are: for the length, the allocator's, and the first constructor's that throws. -/
inductive ArrayFails (E : Env) (shape : ArrayShape L) (ini : Initial) (h : Heap) : Exn → Prop
  | length : 2 ^ 64 ≤ shape.count → ArrayFails E shape ini h .badArrayNewLength
  | storage {e : Exn} : shape.count < 2 ^ 64 → E.allocate h.allocations = .error e → ArrayFails E shape ini h e
  | element {p : Ptr} {e : Exn} {k : Nat} : shape.count < 2 ^ 64 → E.allocate h.allocations = .ok p →
      k < shape.count → E.construct (h.constructions + k) (L.elementInit ini k) = .error e →
      (∀ j < k, ∃ v, E.construct (h.constructions + j) (L.elementInit ini j) = .ok v) → ArrayFails E shape ini h e

/-- What a call is to do. -/
def CleanExceptions [Fintype V] (E : Env) (a : Source) (shape : ArrayShape L) (ini : Initial) (s : Mem V) (x : V) : Prop :=
  match makeCtor (.inl x) (allocateSharedArray E L a shape ini) s with
  | (.throw e, s') => ArrayFails E shape ini s.heap e ∧ Undone s s'
  | (.ok (), s') => (∀ e, ¬ ArrayFails E shape ini s.heap e) ∧
      ∃ p b blk, Made shape.count s s' x p b blk ∧ ReturnsAll s' b blk
  | (.stop, _) => False

theorem not_clean_of_overflow [Fintype V] (hx : s.obj (.inl x) = none) (hlt : ¬ shape.count < 2 ^ 64) :
    ¬ CleanExceptions E a shape ini s x := by
  unfold CleanExceptions
  rw [makeCtor_apply hx, allocateSharedArray_apply, if_neg hlt]
  exact id

omit [DecidableEq V] in
/-- The elements go first, and the storage after them. -/
theorem undone_of_element (raw : Nat) {h' : Heap}
    (hh : h' = SharedCount.dropArray L (⟨a, BitVec.ofNat 64 shape.count, false⟩, some raw)
      ((s.heap.afterElements (shape.chunk a (some raw)) (ini.via a) (L.elementInit ini) (some raw)
        (shape.build E ini s.heap)).emit
          (destroyRange (ini.via a) (some raw) (shape.build E ini s.heap).values.length))) :
    Undone s { s with heap := h' } := by
  subst hh
  have hlog : (SharedCount.dropArray L (⟨a, BitVec.ofNat 64 shape.count, false⟩, some raw)
      ((s.heap.afterElements (shape.chunk a (some raw)) (ini.via a) (L.elementInit ini) (some raw)
        (shape.build E ini s.heap)).emit
          (destroyRange (ini.via a) (some raw) (shape.build E ini s.heap).values.length))).log =
      (s.heap.afterElements (shape.chunk a (some raw)) (ini.via a) (L.elementInit ini) (some raw)
        (shape.build E ini s.heap)).log ++
          (destroyRange (ini.via a) (some raw) (shape.build E ini s.heap).values.length ++
            [.deallocate (shape.chunk a (some raw))]) := by
    rw [← List.append_assoc]
    rfl
  refine undone_of_elements (fun e he => ?_) (fun r => ?_) rfl hlog
  · rcases List.mem_append.mp he with he | he
    · have := mem_destroyRange he
      cases e <;> first | rfl | cases this
    · rw [List.mem_singleton.mp he]
      rfl
  · rw [Trade.returned_append, returned_destroyRange, Nat.add_comm]

theorem clean_of_count [Fintype V] (ok : s.Ok fun _ => 0) (hx : s.obj (.inl x) = none)
    (hsum : shape.count + L.tail < 2 ^ 64)
    (room : ∀ p, E.allocate s.heap.allocations = .ok p → L.Room p (shape.chunk a p).n) :
    CleanExceptions E a shape ini s x := by
  have hlt : shape.count < 2 ^ 64 := by omega
  unfold CleanExceptions
  rw [makeCtor_apply hx]
  cases hp : E.allocate s.heap.allocations with
  | error e =>
    rw [allocateSharedArray_apply, if_pos hlt, ofCountedArray_apply _ _ rfl, hp]
    exact ⟨.storage hlt hp, rfl, rfl, [], (List.append_nil _).symm, Trade.Safe.nil, fun _ => rfl⟩
  | ok p =>
    obtain ⟨raw, rfl, hdvd, hroom⟩ := room p hp
    rw [ArrayShape.chunk_n hsum] at hroom
    rw [allocateSharedArray_of_allocate hlt hp]
    cases hf : (shape.build E ini s.heap).failure with
    | some e =>
      obtain ⟨k, hk, hek, hpre⟩ := Env.build_failure.mp hf
      simp only [Nat.zero_add] at hek hpre
      simp only [hf]
      exact ⟨.element hlt hp hk hek hpre, undone_of_element raw rfl⟩
    | none =>
      have hall := Env.build_failure_none.mp hf
      simp only [Nat.zero_add] at hall
      obtain ⟨self, hself, -⟩ := blockAddress_inside hdvd hroom
      have hlen : (shape.build E ini s.heap).values.length = shape.count := Env.build_length hf
      simp only [hf, Option.bind_some, hself]
      refine ⟨fun e he => ?_, some raw, s.heap.next, _, made_of_construct ok hx
        rfl rfl Heap.afterElements_log quiet_elementEvents returns_elementEvents (fun k hk => ?_) fun r => ?_⟩
      · cases he with
        | length h => omega
        | storage _ h => rw [hp] at h; cases h
        | element _ _ hk hek _ =>
          obtain ⟨v, hv⟩ := hall _ hk
          rw [hv] at hek
          cases hek
      · rw [acquired_elementEvents, hlen]
        simp [Trade.returned_cons, trade, elementRange, hk]
      · rw [acquired_elementEvents, hlen, Nat.add_comm]
        congr 1
        by_cases hn : shape.count = 0
        · cases r <;> simp [Managed.dispose, hn, elementRange]
        · rw [Managed.dispose, if_pos hn, returned_disposeArray]

/-- **An exception is clean**, but for one that is about the length. -/
theorem exceptions_clean_iff [Fintype V] (E : Env) (a : Source) (shape : ArrayShape L) (ini : Initial) (s : Mem V) (x : V)
    (ok : s.Ok fun _ => 0) (hx : s.obj (.inl x) = none)
    (hwrap : shape.count < 2 ^ 64 → shape.count + L.tail < 2 ^ 64)
    (room : ∀ p, E.allocate s.heap.allocations = .ok p → L.Room p (shape.chunk a p).n) :
    CleanExceptions E a shape ini s x ↔ shape.count < 2 ^ 64 := by
  constructor
  · intro h
    by_contra hlt
    exact not_clean_of_overflow hx hlt h
  · exact fun hlt => clean_of_count ok hx (hwrap hlt) room

/-- The third of four elements cannot be constructed. -/
theorem exceptions_clean_iff_third :
    CleanExceptions (L := .bytes) ⟨fun _ => .ok (some 4096), fun k _ => if k = 2 then .error (.user 5) else .ok k⟩
      (.user 0) (.unbounded 4) (.value 1) (.empty : Mem Unit) () :=
  (exceptions_clean_iff _ (.user 0) (.unbounded 4) (.value 1) .empty () Mem.Ok.empty rfl (fun _ => by decide)
    fun p hp => by
      cases hp
      exact ⟨4096, rfl, by decide, by decide⟩).mpr (by decide)

/-- Elements of four bytes each, for a `char[][4]`. -/
def Layout.rows : Layout :=
  { Layout.bytes with isArray := true, extent := 4, extent_pos := Nat.succ_pos _, extent_eq := nofun, element_lt := by decide }

/-- `make_shared<char[][4]>(n)` for `n` with `4 * n = 2 ^ 64` ends the program. -/
theorem length_not_clean :
    (allocateSharedArray ⟨fun _ => .ok (some 4096), fun k _ => .ok k⟩ .rows .std (.unbounded (BitVec.ofNat 64 (2 ^ 62)))
        .null .empty).2.log = [.terminate] ∧
      ¬ CleanExceptions (L := .rows) ⟨fun _ => .ok (some 4096), fun k _ => .ok k⟩ .std
        (.unbounded (BitVec.ofNat 64 (2 ^ 62))) .null (.empty : Mem Unit) () :=
  ⟨by rw [allocateSharedArray_apply]; rfl, not_clean_of_overflow rfl (by decide)⟩

end SharedPtr.Seq
