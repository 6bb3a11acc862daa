/-
`make_shared` of arrays at run time: the count that the storage is allocated
with, and what becomes of an exception.

The elements are followed by room for the control block, as many elements as
`_S_tail()` says. That is room enough, wherever the elements end
(`blockAddress_inside`), when `_M_n + __tail` does not wrap around.
-/
import SharedPtr.CestBalance
import SharedPtr.Lib.Align

namespace SharedPtr.Seq

open Lib (Prog Result Trade roundUp)

/-! ## Sizes -/

namespace Layout

variable (L : Layout)

theorem elemAlign_pos : 0 < L.elemAlign := Nat.pos_of_dvd_of_pos L.elemAlign_dvd L.elemSize_pos

theorem blockAlign_le : L.blockAlign ≤ L.blockSize := Nat.le_of_dvd L.blockSize_pos L.blockAlign_dvd

theorem elemSize_lt : L.elemSize < 2 ^ 63 :=
  Nat.lt_of_le_of_lt (Nat.le_mul_of_pos_left L.elemSize L.extent_pos) L.element_lt

theorem tailBytes_le : L.tailBytes ≤ L.blockSize + L.blockAlign := by
  unfold tailBytes
  split <;> omega

theorem blockSize_le : L.blockSize ≤ L.tailBytes := Nat.le_add_right ..

/-- The tail is as many elements as it takes. -/
theorem tailBytes_le_tail : L.tailBytes ≤ L.elemSize * L.tail := by
  have h := Nat.lt_div_mul_add (a := L.tailBytes + L.elemSize - 1) L.elemSize_pos
  have hpos := L.elemSize_pos
  rw [tail, Nat.mul_comm]
  omega

theorem tail_size_lt : L.elemSize * L.tail < 2 ^ 64 := by
  have h := Nat.div_mul_le_self (L.tailBytes + L.elemSize - 1) L.elemSize
  have := L.tailBytes_le
  have := L.block_lt
  have := L.elemSize_lt
  rw [tail, Nat.mul_comm]
  omega

theorem tail_lt : L.tail < 2 ^ 64 :=
  Nat.lt_of_le_of_lt (Nat.le_mul_of_pos_left L.tail L.elemSize_pos) L.tail_size_lt

/-- `p` is where `m` elements have room. -/
def Room (p : Ptr) (m : Nat) : Prop := ∃ raw, p = some raw ∧ L.elemAlign ∣ raw ∧ raw + L.elemSize * m ≤ 2 ^ 64

end Layout

variable {L : Layout}

/-- `std::align` finds the next multiple, which is not far from a multiple of the element's alignment. -/
theorem align_block {c : Nat} (hlt : L.elemAlign < L.blockAlign) (hdvd : L.elemAlign ∣ c)
    (hc : c + L.elemSize * L.tail ≤ 2 ^ 64) :
    ∃ self, align (BitVec.ofNat 64 L.blockAlign) (BitVec.ofNat 64 L.blockSize) (BitVec.ofNat 64 c)
        (BitVec.ofNat 64 (L.elemSize * L.tail)) = some self ∧
      c ≤ self.toNat ∧ self.toNat + L.blockSize ≤ c + L.elemSize * L.tail ∧ L.blockAlign ∣ self.toNat := by
  have hbytes : L.blockSize + (L.blockAlign - L.elemAlign) ≤ L.elemSize * L.tail := by
    have := L.tailBytes_le_tail
    rwa [Layout.tailBytes, if_pos hlt] at this
  have hspace := L.tail_size_lt
  have hle := L.blockAlign_le
  have hapos : 0 < L.blockAlign := by omega
  have helem := L.elemAlign_pos
  -- the address, as a number
  obtain ⟨j, hj⟩ := L.blockAlign_pow
  have hj64 : j < 64 := (Nat.pow_lt_pow_iff_right (by decide : 1 < 2)).mp (by rw [← hj]; omega)
  have hdvd' : L.elemAlign ∣ L.blockAlign := by
    obtain ⟨i, hi⟩ := L.elemAlign_pow
    rw [hi, hj] at hlt ⊢
    exact Nat.pow_dvd_pow 2 (Nat.le_of_lt ((Nat.pow_lt_pow_iff_right (by decide)).mp hlt))
  have hup := Lib.roundUp_le hapos hdvd' hdvd
  have hle_up := Lib.le_roundUp c hapos
  have hsum : (BitVec.ofNat 64 c - 1 + BitVec.ofNat 64 L.blockAlign).toNat = c + (L.blockAlign - 1) := by
    have hadd : BitVec.ofNat 64 c - 1 + BitVec.ofNat 64 L.blockAlign = BitVec.ofNat 64 (c + (L.blockAlign - 1)) := by
      have hsub : BitVec.ofNat 64 L.blockAlign = BitVec.ofNat 64 (L.blockAlign - 1) + 1 := by
        rw [show (1 : BitVec 64) = BitVec.ofNat 64 1 from rfl, ← BitVec.ofNat_add, Nat.sub_add_cancel hapos]
      rw [hsub, BitVec.ofNat_add, BitVec.add_comm (BitVec.ofNat 64 (L.blockAlign - 1)), ← BitVec.add_assoc,
        BitVec.sub_add_cancel]
    rw [hadd, BitVec.toNat_ofNat, Nat.mod_eq_of_lt]
    omega
  obtain ⟨self, hdef⟩ : ∃ self, self = (BitVec.ofNat 64 c - 1 + BitVec.ofNat 64 L.blockAlign) &&&
    -(BitVec.ofNat 64 L.blockAlign) := ⟨_, rfl⟩
  have hself : self.toNat = roundUp c L.blockAlign := by
    rw [hdef, roundUp, hj, Lib.toNat_and_neg _ hj64, ← hj, hsum]
  -- there is space for the distance
  have hblock : (BitVec.ofNat 64 L.blockSize).toNat = L.blockSize := by
    rw [BitVec.toNat_ofNat, Nat.mod_eq_of_lt (by omega)]
  have hspace' : (BitVec.ofNat 64 (L.elemSize * L.tail)).toNat = L.elemSize * L.tail := by
    rw [BitVec.toNat_ofNat, Nat.mod_eq_of_lt hspace]
  have hc' : (BitVec.ofNat 64 c).toNat = c := by
    rw [BitVec.toNat_ofNat, Nat.mod_eq_of_lt (by omega)]
  have hfit : ¬ BitVec.ofNat 64 (L.elemSize * L.tail) < BitVec.ofNat 64 L.blockSize := by
    rw [BitVec.lt_def, hblock, hspace']
    omega
  have hdist : ¬ BitVec.ofNat 64 (L.elemSize * L.tail) - BitVec.ofNat 64 L.blockSize < self - BitVec.ofNat 64 c := by
    rw [BitVec.lt_def, BitVec.toNat_sub_of_le (BitVec.le_def.mpr (by omega)),
      BitVec.toNat_sub_of_le (BitVec.le_def.mpr (by omega))]
    omega
  refine ⟨self, ?_, by omega, by omega, hself ▸ Lib.dvd_roundUp c L.blockAlign⟩
  rw [align, if_neg hfit]
  simp only [← hdef]
  rw [if_neg hdist]

/-- The smaller of two powers of two divides the larger. -/
theorem Layout.blockAlign_dvd_elemAlign (hle : ¬ L.elemAlign < L.blockAlign) : L.blockAlign ∣ L.elemAlign := by
  obtain ⟨i, hi⟩ := L.elemAlign_pow
  obtain ⟨j, hj⟩ := L.blockAlign_pow
  rw [hi, hj] at hle ⊢
  exact Nat.pow_dvd_pow 2 ((Nat.pow_le_pow_iff_right (by decide)).mp (Nat.le_of_not_lt hle))

/-- **The control block is inside the storage**, behind the elements, and aligned. -/
theorem blockAddress_inside {count raw : Nat} (hdvd : L.elemAlign ∣ raw)
    (hroom : raw + L.elemSize * (count + L.tail) ≤ 2 ^ 64) :
    ∃ self, SharedCount.blockAddress L (BitVec.ofNat 64 count) raw = some self ∧
      raw + L.elemSize * count ≤ self.toNat ∧ self.toNat + L.blockSize ≤ raw + L.elemSize * (count + L.tail) ∧
      L.blockAlign ∣ self.toNat := by
  have hc : BitVec.ofNat 64 raw + BitVec.ofNat 64 L.elemSize * BitVec.ofNat 64 count =
      BitVec.ofNat 64 (raw + L.elemSize * count) := by
    rw [BitVec.ofNat_add, BitVec.ofNat_mul]
  have htail := L.tailBytes_le_tail
  have hblock := L.blockSize_le
  have hpos := L.blockSize_pos
  rw [Nat.mul_add, ← Nat.add_assoc] at hroom ⊢
  have hend : L.elemAlign ∣ raw + L.elemSize * count :=
    Nat.dvd_add hdvd (Nat.dvd_mul_right_of_dvd L.elemAlign_dvd count)
  rw [SharedCount.blockAddress, hc]
  by_cases hlt : L.elemAlign < L.blockAlign
  · rw [if_pos hlt]
    exact align_block hlt hend hroom
  · rw [if_neg hlt]
    have hself : (BitVec.ofNat 64 (raw + L.elemSize * count)).toNat = raw + L.elemSize * count := by
      rw [BitVec.toNat_ofNat, Nat.mod_eq_of_lt (by omega)]
    refine ⟨_, rfl, ?_⟩
    rw [hself]
    exact ⟨Nat.le_refl _, by omega, Nat.dvd_trans (L.blockAlign_dvd_elemAlign hlt) hend⟩

/-! ## What the call does -/

variable {E : Env} {h : Heap} {a : Source} {ini : Initial} {shape : ArrayShape L}

theorem allocateSharedArray_apply (a : Source) (shape : ArrayShape L) (ini : Initial) :
    allocateSharedArray E L a shape ini h =
      if shape.count < 2 ^ 64 then SharedCount.ofCountedArray E L ⟨a, BitVec.ofNat 64 shape.count, false⟩ ini h
      else (.stop, h.emit [.terminate]) := by
  rw [allocateSharedArray, Prog.bind_apply, arrayTag_apply]
  by_cases hlt : shape.count < 2 ^ 64
  · rw [if_pos hlt, if_pos hlt]
  · rw [if_neg hlt, if_neg hlt]

/-- What the call allocates, given the answer. -/
def ArrayShape.chunk (shape : ArrayShape L) (a : Source) (p : Ptr) : Chunk :=
  ⟨a, .element, p, SharedCount.arrayCount L (BitVec.ofNat 64 shape.count)⟩

/-- The elements it constructs. -/
def ArrayShape.build (shape : ArrayShape L) (E : Env) (ini : Initial) (h : Heap) : Built :=
  E.build (L.elementInit ini) h.constructions 0 shape.count

theorem ArrayShape.chunk_n (hlt : shape.count + L.tail < 2 ^ 64) (p : Ptr) :
    (shape.chunk a p).n = shape.count + L.tail := by
  rw [chunk, SharedCount.arrayCount, ← BitVec.ofNat_add, BitVec.toNat_ofNat, Nat.mod_eq_of_lt hlt]

/-- The call, when its count does not overflow and there is storage. -/
theorem allocateSharedArray_of_allocate (hlt : shape.count < 2 ^ 64) {p : Ptr} (hp : E.allocate h.allocations = .ok p) :
    allocateSharedArray E L a shape ini h =
      let B := shape.build E ini h
      let h' := h.afterElements (shape.chunk a p) (ini.via a) (L.elementInit ini) p B
      match B.failure with
      | some e => (.throw e, SharedCount.dropArray L (⟨a, BitVec.ofNat 64 shape.count, false⟩, p)
          (h'.emit (destroyRange (ini.via a) p B.values.length)))
      | none =>
        match p.bind (SharedCount.blockAddress L (BitVec.ofNat 64 shape.count)) with
        | none => (.stop, h')
        | some self => (.ok (p, some h.next),
            (h'.construct (.countedArray a shape.count (ini = .overwrite) p self.toNat) (shape.chunk a p)).2) := by
  have hcount : (BitVec.ofNat 64 shape.count).toNat = shape.count := by
    rw [BitVec.toNat_ofNat, Nat.mod_eq_of_lt hlt]
  rw [allocateSharedArray_apply, if_pos hlt, ofCountedArray_apply _ _ rfl, hp]
  simp only [hcount]
  rfl

/-! ## The count -/

/-- The call fails, and no element was constructed. -/
def FailsEarly {α : Type} (h : Heap) (r : Result Exn α × Heap) : Prop :=
  (∀ made, r.1 ≠ .ok made) ∧ ∃ new, r.2.log = h.log ++ new ∧ ∀ p k v, .construct p k v ∉ new

/-- Storage for `count` elements and the tail was allocated; the elements are in it, and so is the
control block behind them. -/
def Enough (L : Layout) (count : Nat) (h : Heap) (r : Result Exn (Ptr × CountPtr) × Heap) : Prop :=
  ∃ new c raw, r.2.log = h.log ++ new ∧ .allocate c ∈ new ∧ c.ptr = some raw ∧ count + L.tail ≤ c.n ∧
    (∀ e ∈ new, ∀ q k, e.builds = some (q, k) → q = c.ptr ∧ L.elemSize * (k + 1) ≤ L.elemSize * c.n) ∧
    ∀ made, r.1 = .ok made → ∃ b blk alloc n overwrite self, made.2 = some b ∧ r.2.blocks b = some blk ∧
      blk.managed = .countedArray alloc n overwrite c.ptr self ∧
      raw + L.elemSize * count ≤ self ∧ self + L.blockSize ≤ raw + L.elemSize * c.n

/-! ### Each way out -/

variable {p : Ptr}

/-- Nothing is constructed when storage is given back. -/
theorem mem_dropArray (L : Layout) (base : CountedArrayBase) (p : Ptr) (h : Heap) :
    ∃ es, (SharedCount.dropArray L (base, p) h).log = h.log ++ es ∧ ∀ e ∈ es, e.ofDispose := by
  unfold SharedCount.dropArray
  split
  · exact ⟨_, rfl, fun e he => by rw [List.mem_singleton.mp he]; rfl⟩
  · exact ⟨[], (List.append_nil _).symm, nofun⟩

variable (a ini) in
/-- The log of a call that has storage. -/
theorem allocateSharedArray_log (hlt : shape.count < 2 ^ 64) (hp : E.allocate h.allocations = .ok p) :
    ∃ rest, (allocateSharedArray E L a shape ini h).2.log = h.log ++
        (elementEvents (shape.chunk a p) (ini.via a) (L.elementInit ini) p (shape.build E ini h) ++ rest) ∧
      ∀ e ∈ rest, e.ofDispose := by
  rw [allocateSharedArray_of_allocate hlt hp]
  simp only
  split
  next e hf =>
    obtain ⟨es, hes, hdispose⟩ := mem_dropArray L ⟨a, BitVec.ofNat 64 shape.count, false⟩ p
      ((h.afterElements (shape.chunk a p) (ini.via a) (L.elementInit ini) p (shape.build E ini h)).emit
        (destroyRange (ini.via a) p (shape.build E ini h).values.length))
    refine ⟨destroyRange (ini.via a) p (shape.build E ini h).values.length ++ es, ?_, fun e he => ?_⟩
    · rw [hes]
      simp only [Heap.emit, Heap.afterElements_log, List.append_assoc]
    · rcases List.mem_append.mp he with he | he
      · exact mem_destroyRange he
      · exact hdispose e he
  next hf =>
    refine ⟨[], ?_, by simp⟩
    split <;> simp [Heap.afterElements_log, Heap.construct]

/-- The only allocation is that of the array. -/
theorem allocate_mem {c : Chunk} {via : Option Source} {init : Nat → Init} {B : Built} {rest : List Event}
    (hrest : ∀ e ∈ rest, e.ofDispose) {c' : Chunk} (hc : .allocate c' ∈ elementEvents c via init p B ++ rest) :
    c' = c := by
  rcases List.mem_append.mp hc with hc | hc
  · rcases List.mem_cons.mp hc with hc | hc
    · cases hc
      rfl
    · cases mem_buildEvents hc
  · cases hrest _ hc

theorem failsEarly_of_construct (hlt : shape.count < 2 ^ 64) (hp : E.allocate h.allocations = .ok p)
    (hpos : 0 < shape.count) {e : Exn} (he : E.construct h.constructions (L.elementInit ini 0) = .error e) :
    FailsEarly h (allocateSharedArray E L a shape ini h) := by
  have hB : shape.build E ini h = ⟨[], some e⟩ := by
    obtain ⟨n, hn⟩ := Nat.exists_eq_succ_of_ne_zero (Nat.ne_of_gt hpos)
    rw [ArrayShape.build, hn, Env.build, he]
  obtain ⟨rest, hlog, hrest⟩ := allocateSharedArray_log a ini hlt hp
  refine ⟨fun made hm => ?_, _, hlog, fun q k v hmem => ?_⟩
  · rw [allocateSharedArray_of_allocate hlt hp] at hm
    simp [hB] at hm
  · rcases List.mem_append.mp hmem with hmem | hmem
    · rw [hB] at hmem
      rcases List.mem_cons.mp hmem with hmem | hmem
      · cases hmem
      · simp only [buildEvents, reduceCtorEq, if_false, List.mem_singleton] at hmem
        cases h : ini.via a <;> rw [h] at hmem <;> cases hmem
    · cases hrest _ hmem

theorem enough_of_allocate (hlt : shape.count + L.tail < 2 ^ 64) (hp : E.allocate h.allocations = .ok p)
    (room : L.Room p (shape.count + L.tail)) :
    Enough L shape.count h (allocateSharedArray E L a shape ini h) := by
  have hlt' : shape.count < 2 ^ 64 := by omega
  obtain ⟨raw, rfl, hdvd, hroom⟩ := room
  obtain ⟨rest, hlog, hrest⟩ := allocateSharedArray_log a ini hlt' hp
  have hn := ArrayShape.chunk_n (a := a) hlt (some raw)
  refine ⟨_, shape.chunk a (some raw), raw, hlog, by simp [elementEvents], rfl, hn.ge, fun e he q k hk => ?_,
    fun made hmade => ?_⟩
  · rcases List.mem_append.mp he with he | he
    · rcases List.mem_cons.mp he with rfl | he
      · cases hk
      · obtain ⟨hq, hk⟩ := builds_buildEvents he hk
        have hcalls := Built.calls_le E (L.elementInit ini) h.constructions 0 shape.count
        refine ⟨hq, Nat.mul_le_mul_left _ ?_⟩
        rw [Nat.zero_add] at hk
        have : k < (shape.build E ini h).calls := hk
        rw [ArrayShape.build] at this
        omega
    · have := hrest e he
      cases e <;> cases hk <;> cases this
  · obtain ⟨self, hself, hlow, hhigh, -⟩ := blockAddress_inside hdvd hroom
    rw [allocateSharedArray_of_allocate hlt' hp] at hmade ⊢
    simp only [Option.bind_some, hself] at hmade ⊢
    cases hf : (shape.build E ini h).failure with
    | some e => simp [hf] at hmade
    | none =>
      simp only [hf, Result.ok.injEq] at hmade ⊢
      subst hmade
      refine ⟨h.next, _, a, shape.count, decide (ini = .overwrite), self.toNat, rfl, Function.update_self .., rfl, hlow, ?_⟩
      rwa [hn]

/-- A sum that wraps around: the elements that are constructed have no room. -/
theorem under_allocates (hlt : shape.count < 2 ^ 64) (hwrap : 2 ^ 64 ≤ shape.count + L.tail)
    (hp : E.allocate h.allocations = .ok p) {v : Nat}
    (hv : E.construct h.constructions (L.elementInit ini 0) = .ok v) :
    ¬ (FailsEarly h (allocateSharedArray E L a shape ini h) ∨
      Enough L shape.count h (allocateSharedArray E L a shape ini h)) := by
  have htail := L.tail_lt
  obtain ⟨rest, hlog, hrest⟩ := allocateSharedArray_log a ini hlt hp
  rintro (⟨-, new, hnew, hnone⟩ | ⟨new, c, raw, hnew, hc, -, hle, -⟩)
  all_goals rw [hlog, List.append_cancel_left_eq] at hnew
  · refine hnone p 0 v ?_
    obtain ⟨n, hn⟩ := Nat.exists_eq_succ_of_ne_zero (n := shape.count) (by omega)
    rw [← hnew]
    refine List.mem_append_left _ (List.mem_cons_of_mem _ ?_)
    simp [ArrayShape.build, hn, Env.build, hv, buildEvents]
  · rw [← hnew] at hc
    obtain rfl := allocate_mem hrest hc
    have hn : (shape.chunk a p).n = (shape.count + L.tail) % 2 ^ 64 := by
      rw [ArrayShape.chunk, SharedCount.arrayCount, ← BitVec.ofNat_add, BitVec.toNat_ofNat]
    have := Nat.mod_lt (shape.count + L.tail) (Nat.two_pow_pos 64)
    omega

/-- **Enough is allocated** for every count but those with which `_M_n + __tail` wraps around, and
then too if the call has failed before it constructs an element. -/
theorem allocates_enough_iff (E : Env) (L : Layout) (a : Source) (n : SizeT) (ini : Initial) (h : Heap)
    (room : ∀ p, E.allocate h.allocations = .ok p →
      L.Room p (SharedCount.arrayCount L (BitVec.ofNat 64 (L.extent * n.toNat)))) :
    FailsEarly h (allocateSharedArray E L a (.unbounded n) ini h) ∨
        Enough L (L.extent * n.toNat) h (allocateSharedArray E L a (.unbounded n) ini h) ↔
      2 ^ 64 ≤ L.extent * n.toNat ∨ L.extent * n.toNat + L.tail < 2 ^ 64 ∨
        (∃ e, E.allocate h.allocations = .error e) ∨
        ∃ e, E.construct h.constructions (L.elementInit ini 0) = .error e := by
  have htail := L.tail_lt
  have hcount : (ArrayShape.unbounded n : ArrayShape L).count = L.extent * n.toNat := rfl
  constructor
  · intro hprop
    by_contra hnot
    simp only [not_or, not_le, not_lt, not_exists] at hnot
    obtain ⟨hlt, hwrap, hallocate, hconstruct⟩ := hnot
    cases hp : E.allocate h.allocations with
    | error e => exact hallocate e hp
    | ok p =>
      cases hv : E.construct h.constructions (L.elementInit ini 0) with
      | error e => exact hconstruct e hv
      | ok v =>
        have hlt : (ArrayShape.unbounded n : ArrayShape L).count < 2 ^ 64 := hlt
        exact under_allocates hlt hwrap hp hv hprop
  · intro hcond
    by_cases hlt : L.extent * n.toNat < 2 ^ 64
    · cases hp : E.allocate h.allocations with
      | error e =>
        refine .inl ?_
        rw [allocateSharedArray_apply, hcount, if_pos hlt, ofCountedArray_apply _ _ rfl, hp]
        exact ⟨nofun, [], (List.append_nil _).symm, nofun⟩
      | ok p =>
        by_cases hsum : L.extent * n.toNat + L.tail < 2 ^ 64
        · have hroom := room p hp
          rw [SharedCount.arrayCount, ← BitVec.ofNat_add, BitVec.toNat_ofNat, Nat.mod_eq_of_lt hsum] at hroom
          have hsum : (ArrayShape.unbounded n : ArrayShape L).count + L.tail < 2 ^ 64 := hsum
          exact .inr (enough_of_allocate hsum hp hroom)
        · obtain ⟨e, he⟩ : ∃ e, E.construct h.constructions (L.elementInit ini 0) = .error e := by
            rcases hcond with hc | hc | ⟨e, he⟩ | hc
            · omega
            · exact absurd hc hsum
            · rw [hp] at he
              cases he
            · exact hc
          have hlt : (ArrayShape.unbounded n : ArrayShape L).count < 2 ^ 64 := hlt
          exact .inl (failsEarly_of_construct hlt hp (by rw [hcount]; omega) he)
    · refine .inl ?_
      rw [allocateSharedArray_apply, hcount, if_neg hlt]
      exact ⟨nofun, [.terminate], rfl, fun q k v hmem => by simp at hmem⟩

/-- Elements of one byte, with a block of 40. -/
def Layout.bytes : Layout where
  elemSize := 1
  elemAlign := 1
  isArray := false
  extent := 1
  blockSize := 40
  blockAlign := 8
  storage := 16
  elemSize_pos := by decide
  extent_pos := by decide
  extent_eq _ := rfl
  blockSize_pos := by decide
  elemAlign_pow := ⟨0, rfl⟩
  blockAlign_pow := ⟨3, rfl⟩
  elemAlign_dvd := by decide
  blockAlign_dvd := by decide
  element_lt := by decide
  block_lt := by decide

/-- Three bytes, and 47 for the block. -/
theorem allocates_enough_iff_three :
    FailsEarly .empty (allocateSharedArray ⟨fun _ => .ok (some 4096), fun k _ => .ok k⟩ .bytes .std (.unbounded 3) .null
        .empty) ∨
      Enough .bytes 3 .empty (allocateSharedArray ⟨fun _ => .ok (some 4096), fun k _ => .ok k⟩ .bytes .std (.unbounded 3)
        .null .empty) :=
  (allocates_enough_iff ⟨fun _ => .ok (some 4096), fun k _ => .ok k⟩ .bytes .std 3 .null .empty fun p hp => by
    cases hp
    exact ⟨4096, rfl, by decide, by decide⟩).mpr (.inr (.inl (by decide)))

/-- As many bytes as a `size_t` can count: 46 are allocated. -/
theorem not_enough_for_bytes :
    (ArrayShape.chunk (.unbounded (BitVec.allOnes 64) : ArrayShape .bytes) .std (some 4096)).n = 46 ∧
      ¬ (FailsEarly .empty (allocateSharedArray ⟨fun _ => .ok (some 4096), fun k _ => .ok k⟩ .bytes .std
          (.unbounded (BitVec.allOnes 64)) .null .empty) ∨
        Enough .bytes (2 ^ 64 - 1) .empty (allocateSharedArray ⟨fun _ => .ok (some 4096), fun k _ => .ok k⟩ .bytes .std
          (.unbounded (BitVec.allOnes 64)) .null .empty)) :=
  ⟨by decide, under_allocates (by decide) (by decide) rfl rfl⟩

end SharedPtr.Seq
