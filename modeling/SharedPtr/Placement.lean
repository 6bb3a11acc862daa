/-
Where the control block of an array is: behind the elements, at a multiple of
its alignment, and before the end of the storage. The number of elements that
`_S_tail` adds, the space that `std::align` is told of and the masks in
`std::align` are computed apart from each other, and fit for every size and
every alignment that types can have.

`_M_destroy` computes once more what was allocated, from the members.
-/
import SharedPtr.Construction

namespace SharedPtr.Seq

open Lib (Prog Result)

/-- `_S_tail()` in `size_t`. -/
def Layout.tailWord (L : Layout) : SizeT :=
  let bytes := BitVec.ofNat 64 L.blockSize +
    if L.elemAlign < L.blockAlign then BitVec.ofNat 64 L.blockAlign - BitVec.ofNat 64 L.elemAlign else 0
  (bytes + BitVec.ofNat 64 L.elemSize - 1) / BitVec.ofNat 64 L.elemSize

/-- Nothing wraps around. -/
theorem Layout.toNat_tailWord (L : Layout) : L.tailWord.toNat = L.tail := by
  have hblock := L.block_lt
  have hsize := L.elemSize_lt
  have hpos := L.elemSize_pos
  have halign := L.elemAlign_pos
  have hbytes : (BitVec.ofNat 64 L.blockSize + if L.elemAlign < L.blockAlign then
      BitVec.ofNat 64 L.blockAlign - BitVec.ofNat 64 L.elemAlign else 0) = BitVec.ofNat 64 L.tailBytes := by
    rw [tailBytes, BitVec.ofNat_add]
    congr 1
    by_cases hlt : L.elemAlign < L.blockAlign
    · rw [if_pos hlt, if_pos hlt, BitVec.ofNat_sub_ofNat_of_le _ _ (by omega) (by omega)]
    · rw [if_neg hlt, if_neg hlt]
      rfl
  have htail : L.tailBytes + L.elemSize - 1 < 2 ^ 64 := by
    have : L.tailBytes < L.blockSize + L.blockAlign ∨ L.tailBytes = L.blockSize := by
      unfold tailBytes
      split <;> omega
    omega
  have hsum : BitVec.ofNat 64 L.tailBytes + BitVec.ofNat 64 L.elemSize - 1 =
      BitVec.ofNat 64 (L.tailBytes + L.elemSize - 1) := by
    rw [← BitVec.ofNat_add, show (1 : BitVec 64) = BitVec.ofNat 64 1 from rfl,
      BitVec.ofNat_sub_ofNat_of_le _ _ (by decide) (by omega)]
  rw [tailWord]
  simp only [hbytes, hsum]
  rw [BitVec.toNat_udiv, BitVec.toNat_ofNat, BitVec.toNat_ofNat, Nat.mod_eq_of_lt htail, Nat.mod_eq_of_lt (by omega)]
  rfl

/-- An address for the control block that has `n` elements from `base` on before it. -/
structure Fits (L : Layout) (base n self : Nat) : Prop where
  aligned : L.blockAlign ∣ self
  behind : base + n * L.elemSize ≤ self
  inside : self + L.blockSize ≤ base + (n + L.tail) * L.elemSize
  not_null : base ≠ 0 → self ≠ 0

theorem blockAddress_fits {L : Layout} {n : SizeT} {base : Nat} (hdvd : L.elemAlign ∣ base)
    (hroom : base + (n.toNat + L.tail) * L.elemSize ≤ 2 ^ 64) :
    ∃ self, SharedCount.blockAddress L n base = some self ∧ Fits L base n.toNat self.toNat := by
  rw [Nat.mul_comm] at hroom
  obtain ⟨self, hself, hbehind, hinside, haligned⟩ := blockAddress_inside hdvd hroom
  rw [BitVec.ofNat_toNat, BitVec.setWidth_eq] at hself
  rw [Nat.mul_comm] at hbehind hinside
  exact ⟨self, hself, haligned, hbehind, hinside, by omega⟩

/-- What `_Sp_counted_array::_M_destroy()` gives back, as the members have it. -/
def Managed.storage (L : Layout) : Managed → Option Chunk
  | .countedArray alloc n _ allocPtr _ =>
    some ⟨alloc, .element, allocPtr, (BitVec.ofNat 64 n + L.tailWord).toNat⟩
  | _ => none

section

variable (E : Env) (m : Mode) (L : Layout) (a : Source) (n : SizeT) (ini : Initial) (base : Nat)

/-- A call whose storage is at `base`: if it returns, the block fits, and in whatever the program
does then the block's `_M_destroy` gives back what was allocated. -/
def PlacesBlock (h : Heap) : Prop :=
  match SharedCount.ofCountedArray E L ⟨a, n, false⟩ ini h with
  | (.ok made, h') => ∃ c es b self, h'.log = h.log ++ .allocate c :: es ∧ c.ptr = some base ∧
      made = (some base, some b) ∧ Fits L base n.toNat self ∧
      ∀ h'', Leads E m h' h'' → ∃ blk, h''.blocks b = some blk ∧ blk.address = some self ∧
        blk.managed.storage L = some c ∧ blk.call b .destroy = [.destroy b, .deallocate c]
  | (.throw _, _) => True
  | (.stop, _) => False

end

/-- **The control block fits**, wherever the storage is, and the storage is given back as it was
allocated. -/
theorem block_fits (L : Layout) (n : SizeT) (base : Nat) (aligned : L.elemAlign ∣ base)
    (inside : base + (n.toNat + L.tailWord.toNat) * L.elemSize ≤ 2 ^ 64) :
    (∃ self, SharedCount.blockAddress L n base = some self ∧ Fits L base n.toNat self.toNat) ∧
      ∀ E m a ini h, E.allocate h.allocations = .ok (some base) → PlacesBlock E m L a n ini base h := by
  rw [L.toNat_tailWord] at inside
  obtain ⟨self, hself, hfits⟩ := blockAddress_fits aligned inside
  refine ⟨⟨self, hself, hfits⟩, ?_⟩
  intro E m a ini h hp
  rw [PlacesBlock, ofCountedArray_apply _ _ rfl, hp]
  cases hf : (E.build (L.elementInit ini) h.constructions 0 n.toNat).failure with
  | some e => simp only [hf]
  | none =>
    simp only [hf, Option.bind_some, hself]
    refine ⟨_, _, h.next, self.toNat, (Heap.afterElements_log (h := h)).trans rfl, rfl, rfl, hfits, ?_⟩
    intro h' hl
    obtain ⟨-, counts, hb⟩ := hl.isBlock ⟨Nat.lt_succ_self h.next, .new, Function.update_self ..⟩
    refine ⟨_, hb, rfl, ?_, rfl⟩
    rw [Managed.storage, SharedCount.arrayCount, ← L.toNat_tailWord, BitVec.ofNat_toNat, BitVec.ofNat_toNat,
      BitVec.setWidth_eq, BitVec.setWidth_eq]

/-- Five bytes from an odd address on, and a block that is a multiple of 8. -/
theorem block_fits_five :
    SharedCount.blockAddress .bytes 5 4097 = some 4104 ∧
      (∃ self, SharedCount.blockAddress .bytes 5 4097 = some self ∧ Fits .bytes 4097 5 self.toNat) ∧
      PlacesBlock ⟨fun _ => .ok (some 4097), fun k _ => .ok k⟩ (.runTime .mutex true 0) .bytes .std 5 .null 4097 .empty :=
  have h := block_fits .bytes 5 4097 (by decide) (by decide)
  ⟨by decide, h.1, h.2 _ _ _ _ _ rfl⟩

end SharedPtr.Seq
