/-
The owner order (`owner_before`, `owner_less`) and what goes with it
(`owner_equal`, `owner_hash`). All of them compare the addresses of control
blocks, which tell the blocks apart as long as the allocator does not return
memory that is still allocated (`Fresh`): a block that some handle refers to,
were it only an expired weak pointer, has not given back its storage
(`BlocksOk`), so no other block was made in it.

Two handles are equivalent when they descend from one construction that took
ownership (`Descends`), or are both empty.
-/
import SharedPtr.Construction
import SharedPtr.AtomicPtr
import Mathlib.Order.RelClasses

namespace SharedPtr.Seq

open Lib (Prog Result run Along)
open Lib.Prog (Keeps)

variable {V : Type} [DecidableEq V]

/-! ## The member functions -/

/-- The object `x`, of either class. -/
def object (x : Ref V) : Prog (Mem V) Exn Handle := fun s =>
  match s.obj x with
  | none => (.stop, s)
  | some h => (.ok h, s)

/-- `owner_before`, whose four overloads all call `_M_less`. -/
def ownerBefore (x y : Ref V) : Prog (Mem V) Exn Bool := do
  let hx ← object x
  let hy ← object y
  Prog.read fun s => less s.heap hx.pi hy.pi

/-- The call operators of `_Sp_owner_less`. -/
def ownerLess (x y : Ref V) : Prog (Mem V) Exn Bool := ownerBefore x y

/-- `operator==` of two counts of one class. -/
def sameCount (pi pi' : CountPtr) : Prog Heap Exn Bool := Prog.read fun h => h.address pi == h.address pi'

/-- A comparison with a `__shared_count` that is converted to a `__weak_count`,
a temporary of the full expression. -/
def asWeak (m : Mode) (pi : CountPtr) (same : CountPtr → Prog Heap Exn Bool) : Prog Heap Exn Bool := do
  let tmp ← copyCount m .weak pi
  Prog.atExit (same tmp) (dropCount m .weak tmp)

/-- `owner_equal`. No `operator==` takes counts of both classes. -/
def ownerEqual (m : Mode) (x y : Ref V) : Prog (Mem V) Exn Bool := do
  let hx ← object x
  let hy ← object y
  onHeap <|
    match hx.kind, hy.kind with
    | .shared, .weak => asWeak m hx.pi fun tmp => sameCount tmp hy.pi
    | .weak, .shared => asWeak m hy.pi fun tmp => sameCount hx.pi tmp
    | _, _ => sameCount hx.pi hy.pi

/-- `owner_hash`: the hash of a pointer is its address. -/
def ownerHash (x : Ref V) : Prog (Mem V) Exn Nat := do
  let h ← object x
  Prog.read fun s => s.heap.address h.pi

/-! ## Fresh storage -/

/-- The memory of a block: its storage, from where that begins to the block itself, which is
behind the elements of an array. -/
def Block.Occupies (blk : Block) (a : Nat) : Prop :=
  ∃ raw self, blk.chunk.ptr = some raw ∧ blk.address = some self ∧ raw ≤ a ∧ a ≤ self

/-- The block is in storage that is not null. -/
def Block.Stored (blk : Block) : Prop :=
  ∃ raw self, blk.chunk.ptr = some raw ∧ blk.address = some self ∧ 0 < raw ∧ raw ≤ self

/-- What the allocator answered between `h` and `h'`: the blocks made there are in their storage
(`enough_of_allocate` for an array), and that was not allocated. The storage of a block is given
back by `_M_destroy`, and not before. -/
structure Fresh (h h' : Heap) : Prop where
  stored : ∀ b blk, h.next ≤ b → h'.blocks b = some blk → blk.Stored
  apart : ∀ b blk b' blk', h.next ≤ b → b' < b → h'.blocks b = some blk → h'.blocks b' = some blk' →
    .destroy b' ∉ h.log → ∀ a, blk.Occupies a → ¬ blk'.Occupies a

variable (E : Env) (m : Mode)

/-- Every operation of the run gets fresh storage. -/
def FreshRun (s : Mem V) (ops : List (AnyOp V)) : Prop :=
  Along (AnyOp.step E m) (fun u op => ∀ u', op.step E m u = some u' → Fresh u.heap u'.heap) s ops

/-- Operation `i` of the run made the block that the handle refers to. -/
def Descends (ops : List (AnyOp V)) (i : Nat) (o : Handle) : Prop :=
  ∃ u u' b, run (AnyOp.step E m) (.empty : Mem V) (ops.take i) = some u ∧
    run (AnyOp.step E m) (.empty : Mem V) (ops.take (i + 1)) = some u' ∧
    o.pi = some b ∧ u.heap.blocks b = none ∧ u'.heap.blocks b ≠ none

variable {E m}

/-! ## Blocks in memory are apart -/

/-- The blocks that have not given back their storage. -/
structure Apart (h : Heap) : Prop where
  stored : ∀ b blk, h.blocks b = some blk → .destroy b ∉ h.log → blk.Stored
  apart : ∀ b blk b' blk', b' < b → h.blocks b = some blk → h.blocks b' = some blk' → .destroy b ∉ h.log →
    .destroy b' ∉ h.log → ∀ a, blk.Occupies a → ¬ blk'.Occupies a

theorem Apart.empty : Apart Heap.empty := by
  refine ⟨fun _ _ h => ?_, fun _ _ _ _ _ h => ?_⟩ <;> cases h

/-- A block that was there before has other counts at most. -/
theorem block_of_isBlock {h h' : Heap} {b : Nat} {blk blk₀ : Block} (hb₀ : h.blocks b = some blk₀) (hlt : b < h.next)
    (hkeep : ∀ md c, IsBlock b md c h → IsBlock b md c h') (hb : h'.blocks b = some blk) :
    blk = { blk₀ with counts := blk.counts } := by
  obtain ⟨-, counts, hcounts⟩ := hkeep blk₀.managed blk₀.chunk ⟨hlt, blk₀.counts, hb₀⟩
  rw [hb] at hcounts
  cases hcounts
  rfl

theorem Apart.step {h h' : Heap} (hA : Apart h) (hf : Fresh h h') (hnamed : ∀ b, (h.blocks b).isSome ↔ b < h.next)
    (hlog : h.log <+: h'.log) (hkeep : ∀ b md c, IsBlock b md c h → IsBlock b md c h') : Apart h' := by
  have hold : ∀ b blk, b < h.next → h'.blocks b = some blk → ∃ blk₀, h.blocks b = some blk₀ ∧
      blk = { blk₀ with counts := blk.counts } := by
    intro b blk hlt hb
    obtain ⟨blk₀, hb₀⟩ := Option.isSome_iff_exists.mp ((hnamed b).mpr hlt)
    exact ⟨blk₀, hb₀, block_of_isBlock hb₀ hlt (hkeep b) hb⟩
  have hmem : ∀ b, .destroy b ∉ h'.log → .destroy b ∉ h.log := fun b hn he => hn (hlog.subset he)
  refine ⟨fun b blk hb hn => ?_, fun b blk b' blk' hlt hb hb' hn hn' => ?_⟩
  · by_cases hnew : h.next ≤ b
    · exact hf.stored b blk hnew hb
    · obtain ⟨blk₀, hb₀, he⟩ := hold b blk (Nat.lt_of_not_le hnew) hb
      rw [he]
      exact hA.stored b blk₀ hb₀ (hmem b hn)
  · by_cases hnew : h.next ≤ b
    · exact hf.apart b blk b' blk' hnew hlt hb hb' (hmem b' hn')
    · obtain ⟨blk₀, hb₀, he⟩ := hold b blk (Nat.lt_of_not_le hnew) hb
      obtain ⟨blk₁, hb₁, he'⟩ := hold b' blk' (by omega) hb'
      rw [he, he']
      exact hA.apart b blk₀ b' blk₁ hlt hb₀ hb₁ (hmem b hn) (hmem b' hn')

/-- A handle's block has not given back its storage. -/
theorem BlocksOk.not_destroyed {own : Owners} {h : Heap} {k : Kind} {b : Nat} (ok : BlocksOk own h) (hown : own k b ≠ 0) :
    ∃ blk, h.blocks b = some blk ∧ .destroy b ∉ h.log := by
  obtain ⟨blk, hb⟩ := ok.exists_block hown
  have hok := ok.blocks b
  rw [hb] at hok
  refine ⟨blk, hb, List.count_eq_zero.mp ?_⟩
  rw [hok.2.2.2, if_neg]
  rintro ⟨hu, hw⟩
  cases k <;> contradiction

/-- The addresses of blocks that handles refer to tell which they are. -/
theorem Apart.address_eq_iff {own : Owners} {h : Heap} (hA : Apart h) (ok : BlocksOk own h) {k k' : Kind}
    {pi pi' : CountPtr} (hpi : ∀ b, pi = some b → own k b ≠ 0) (hpi' : ∀ b, pi' = some b → own k' b ≠ 0) :
    h.address pi = h.address pi' ↔ pi = pi' := by
  -- of a handle that is not empty, the address is not 0 and lies in the block
  have hsome : ∀ {k} {b : Nat}, own k b ≠ 0 → ∃ blk, h.blocks b = some blk ∧ .destroy b ∉ h.log ∧
      0 < h.address (some b) ∧ blk.Occupies (h.address (some b)) := by
    intro k b hown
    obtain ⟨blk, hb, hn⟩ := ok.not_destroyed hown
    obtain ⟨raw, self, hraw, hself, hpos, hle⟩ := hA.stored b blk hb hn
    have ha : h.address (some b) = self := by simp [Heap.address, hb, hself]
    rw [ha]
    exact ⟨blk, hb, hn, by omega, raw, self, hraw, hself, hle, Nat.le_refl _⟩
  refine ⟨fun he => ?_, fun he => he ▸ rfl⟩
  cases pi with
  | none =>
    cases pi' with
    | none => rfl
    | some b' =>
      obtain ⟨-, -, -, hpos, -⟩ := hsome (hpi' b' rfl)
      rw [← he] at hpos
      exact absurd hpos (Nat.lt_irrefl 0)
  | some b =>
    obtain ⟨blk, hb, hn, hpos, hocc⟩ := hsome (hpi b rfl)
    cases pi' with
    | none =>
      rw [he] at hpos
      exact absurd hpos (Nat.lt_irrefl 0)
    | some b' =>
      obtain ⟨blk', hb', hn', -, hocc'⟩ := hsome (hpi' b' rfl)
      rcases Nat.lt_trichotomy b' b with hlt | rfl | hlt
      · rw [← he] at hocc'
        exact absurd hocc' (hA.apart b blk b' blk' hlt hb hb' hn hn' _ hocc)
      · rfl
      · rw [he] at hocc
        exact absurd hocc (hA.apart b' blk' b blk hlt hb' hb hn' hn _ hocc')

/-! ## Runs -/

section

variable [Fintype V] {s s' : Mem V} {ops : List (AnyOp V)}

theorem run_apart (hrun : run (AnyOp.step E m) s ops = some s') (hfresh : FreshRun E m s ops) (ok : s.Holds BlocksOk)
    (hA : Apart s.heap) : Apart s'.heap := by
  have h := Lib.run_invariant_along (I := fun u : Mem V => u.Holds BlocksOk ∧ Apart u.heap)
    (fun u op u' hu hc hstep => ?_) hrun hfresh ⟨ok, hA⟩
  · exact h.2
  · refine ⟨AnyOp.of_step hstep (anyOp_keeps op u hu.1), hu.2.step (hc u' hstep) hu.1.named ?_ ?_⟩
    · exact AnyOp.step_stable (stable_log u.heap.log) hstep (List.prefix_refl _)
    · exact fun b md c => AnyOp.step_stable (stable_isBlock b md c) hstep

omit [Fintype V] in
/-- Every block was made by some operation. -/
theorem exists_descends (hrun : run (AnyOp.step E m) .empty ops = some s) {o : Handle} {b : Nat} (hpi : o.pi = some b)
    (hb : s.heap.blocks b ≠ none) : ∃ i < ops.length, Descends E m ops i o := by
  induction ops using List.reverseRecOn generalizing s with
  | nil =>
    cases hrun
    exact absurd rfl hb
  | append_singleton ops op ih =>
    obtain ⟨u, hu, hstep⟩ := Lib.run_snoc.mp hrun
    by_cases hb' : u.heap.blocks b = none
    · refine ⟨ops.length, by simp, u, s, b, ?_, ?_, hpi, hb', hb⟩
      · rwa [List.take_left]
      · rw [List.take_of_length_le (by simp)]
        exact hrun
    · obtain ⟨i, hi, hd⟩ := ih hu hb'
      refine ⟨i, by simp; omega, ?_⟩
      unfold Descends
      rw [List.take_append_of_le_length (Nat.le_of_lt hi), List.take_append_of_le_length hi]
      exact hd

/-- An operation makes one block at most. -/
theorem Descends.unique {i : Nat} {o o' : Handle} (h : Descends E m ops i o) (h' : Descends E m ops i o') :
    o.pi = o'.pi := by
  obtain ⟨u, u', b, hu, hu', hpi, hnone, hsome⟩ := h
  obtain ⟨v, v', b', hv, hv', hpi', hnone', hsome'⟩ := h'
  obtain rfl : u = v := Option.some.inj (hu.symm.trans hv)
  obtain rfl : u' = v' := Option.some.inj (hu'.symm.trans hv')
  have ok := (AnyOp.run_holds hu holds_empty).named
  have ok' := (AnyOp.run_holds hu' holds_empty).named
  have hle : u'.heap.next ≤ u.heap.next + 1 := by
    by_cases hi : i < ops.length
    · rw [List.take_succ_eq_append_getElem hi] at hu'
      obtain ⟨w, hw, hstep⟩ := Lib.run_snoc.mp hu'
      rw [hu] at hw
      cases hw
      exact AnyOp.of_step (P := fun t => t.heap.next ≤ u.heap.next + 1) hstep (anyOp_next_le _ u)
    · rw [List.take_of_length_le (by omega)] at hu hu'
      rw [hu] at hu'
      cases hu'
      omega
  have hb : ∀ b, u.heap.blocks b = none → u'.heap.blocks b ≠ none → b = u.heap.next := by
    intro b hn hs
    have h₁ : ¬ b < u.heap.next := by rw [← ok, hn]; simp
    have h₂ : b < u'.heap.next := by rw [← ok']; exact Option.isSome_iff_ne_none.mpr hs
    omega
  rw [hpi, hpi', hb b hnone hsome, hb b' hnone' hsome']

/-- Both empty, or of one construction. -/
def Equivalent (E : Env) (m : Mode) (ops : List (AnyOp V)) (o o' : Handle) : Prop :=
  o.pi = none ∧ o'.pi = none ∨ ∃ i, Descends E m ops i o ∧ Descends E m ops i o'

theorem equivalent_iff (hrun : run (AnyOp.step E m) .empty ops = some s) {x : Ref V} {hx hy : Handle}
    (hox : s.obj x = some hx) : Equivalent E m ops hx hy ↔ hx.pi = hy.pi := by
  constructor
  · rintro (⟨h, h'⟩ | ⟨i, h, h'⟩)
    · rw [h, h']
    · exact h.unique h'
  · intro he
    cases hpi : hx.pi with
    | none => exact .inl ⟨hpi, he ▸ hpi⟩
    | some b =>
      obtain ⟨blk, hb⟩ := (AnyOp.run_holds hrun holds_empty).exists_block (Mem.owners_ne_zero hox hpi)
      obtain ⟨i, -, u, u', b', hu, hu', hpi', hrest⟩ := exists_descends hrun hpi (by rw [hb]; nofun)
      exact .inr ⟨i, ⟨u, u', b', hu, hu', hpi', hrest⟩, ⟨u, u', b', hu, hu', he ▸ hpi', hrest⟩⟩

/-! ## The comparisons -/

omit [DecidableEq V] [Fintype V] in
theorem object_apply {x : Ref V} {h : Handle} (hx : s.obj x = some h) : object x s = (.ok h, s) := by
  simp only [object, hx]

omit [DecidableEq V] [Fintype V] in
theorem ownerBefore_apply {x y : Ref V} {hx hy : Handle} (hox : s.obj x = some hx) (hoy : s.obj y = some hy) :
    ownerBefore x y s = (.ok (less s.heap hx.pi hy.pi), s) := by
  simp [ownerBefore, Prog.bind_apply, object_apply hox, object_apply hoy]

omit [DecidableEq V] [Fintype V] in
theorem ownerHash_apply {x : Ref V} {h : Handle} (hx : s.obj x = some h) :
    ownerHash x s = (.ok (s.heap.address h.pi), s) := by
  simp [ownerHash, Prog.bind_apply, object_apply hx]

omit [DecidableEq V] [Fintype V] in
/-- A temporary `__weak_count` of a block with handles leaves nothing behind. -/
theorem weak_temporary {own : Owners} {h : Heap} {k : Kind} {b : Nat} (ok : BlocksOk own h) (hown : own k b ≠ 0) :
    ∃ blk, h.blocks b = some blk ∧
      (blk.counts.weakCount = -1 ∧ copyCount m .weak (some b) h = (.stop, h) ∨
        ∃ h', copyCount m .weak (some b) h = (.ok (some b), h') ∧ (∀ pi, h'.address pi = h.address pi) ∧
          dropCount m .weak (some b) h' = h.emit [.release .weak b]) := by
  obtain ⟨blk, hb⟩ := ok.exists_block hown
  have hw0 := (ok.of_admits (k := .weak) hb (by cases k <;> simp_all [Owners.admits])).1
  refine ⟨blk, hb, ?_⟩
  have hadd : copyCount m .weak (some b) h =
      (blk.counts.weakAddRef m).elim (.stop, h) fun c => (.ok (some b), h.setCounts b blk c) := by
    simp only [copyCount, Prog.bind_apply, addRef, hb, Counts.addRef]
    cases blk.counts.weakAddRef m <;> rfl
  by_cases hmax : blk.counts.weakCount = -1
  · refine .inl ⟨hmax, ?_⟩
    rw [hadd]
    cases hc : blk.counts.weakAddRef m with
    | none => rfl
    | some c => exact absurd hmax (Counts.weakAddRef_eq_some.mp hc).1
  · refine .inr ⟨h.setCounts b blk { blk.counts with weakCount := blk.counts.weakCount + 1 }, ?_, fun pi => ?_, ?_⟩
    · rw [hadd, Counts.weakAddRef_eq_some.mpr ⟨hmax, rfl⟩, Option.elim_some]
    · cases pi with
      | none => rfl
      | some b' =>
        by_cases hbb : b' = b
        · subst hbb
          simp [Heap.address, Heap.setCounts, hb, Block.address]
        · simp [Heap.address, Heap.setCounts, Function.update_of_ne hbb]
    · have hne : blk.counts.weakCount + 1 ≠ 1 := by
        intro he
        exact hw0 (BitVec.add_right_eq_self.mp (by rw [BitVec.add_comm]; exact he))
      have hcounts : Counts.drop m .weak { blk.counts with weakCount := blk.counts.weakCount + 1 } = (blk.counts, []) := by
        rw [show Counts.drop m .weak = Counts.weakRelease m from rfl, Counts.weakRelease_eq]
        simp only [Counts.lessWeak, BitVec.add_sub_cancel, if_neg hne]
      simp only [dropCount, release, Heap.setCounts, Function.update_self, hcounts, Block.release, List.flatMap_nil,
        Function.update_idem]
      rw [← hb, Function.update_eq_self]

omit [DecidableEq V] [Fintype V] in
theorem asWeak_apply {own : Owners} {h : Heap} {k : Kind} {pi : CountPtr} (ok : BlocksOk own h)
    (hown : ∀ b, pi = some b → own k b ≠ 0) (same : CountPtr → Prog Heap Exn Bool) {answer : Bool}
    (hsame : ∀ h', (∀ q, h'.address q = h.address q) → same pi h' = (.ok answer, h')) :
    (∃ h', asWeak m pi same h = (.ok answer, h') ∧ h'.blocks = h.blocks) ∨
      (asWeak m pi same h).1 = .stop ∧ ∃ b blk, pi = some b ∧ h.blocks b = some blk ∧ blk.counts.weakCount = -1 := by
  cases pi with
  | none =>
    refine .inl ⟨h, ?_, rfl⟩
    simp [asWeak, Prog.bind_apply, copyCount, Prog.atExit, hsame h fun _ => rfl, dropCount]
  | some b =>
    obtain ⟨blk, hb, ⟨hmax, hstop⟩ | ⟨h', hcopy, haddr, hdrop⟩⟩ := weak_temporary (m := m) ok (hown b rfl)
    · exact .inr ⟨by simp [asWeak, Prog.bind_apply, hstop], b, blk, rfl, hb, hmax⟩
    · refine .inl ⟨h.emit [.release .weak b], ?_, rfl⟩
      simp only [asWeak, Prog.bind_apply, hcopy, Prog.atExit, hsame h' haddr, hdrop]

/-- What `owner_equal` answers; the temporary has no place where its count is at the maximum. -/
theorem ownerEqual_apply (ok : s.Holds BlocksOk) {x y : Ref V} {hx hy : Handle} (hox : s.obj x = some hx)
    (hoy : s.obj y = some hy) :
    (∃ h', ownerEqual m x y s = (.ok (s.heap.address hx.pi == s.heap.address hy.pi), { s with heap := h' }) ∧
        h'.blocks = s.heap.blocks) ∨
      (ownerEqual m x y s).1 = .stop ∧ hx.kind ≠ hy.kind ∧ ∃ b blk, (if hx.kind = .shared then hx.pi else hy.pi) = some b ∧
        s.heap.blocks b = some blk ∧ blk.counts.weakCount = -1 := by
  have hsame : ∀ h' : Heap, (∀ q, h'.address q = s.heap.address q) →
      sameCount hx.pi hy.pi h' = (.ok (s.heap.address hx.pi == s.heap.address hy.pi), h') := by
    intro h' haddr
    rw [sameCount, Prog.read_apply, haddr, haddr]
  simp only [ownerEqual, Prog.bind_apply, object_apply hox, object_apply hoy, onHeap]
  cases hkx : hx.kind <;> cases hky : hy.kind <;> simp only
  case shared.shared | weak.weak => exact .inl ⟨s.heap, by rw [hsame s.heap fun _ => rfl], rfl⟩
  case shared.weak =>
    obtain ⟨h', he, hblocks⟩ | ⟨hstop, hmax⟩ := asWeak_apply (m := m) ok
      (fun b hb => Mem.owners_ne_zero hox hb) (fun tmp => sameCount tmp hy.pi) hsame
    · exact .inl ⟨h', by rw [he], hblocks⟩
    · exact .inr ⟨hstop, by simp, hmax⟩
  case weak.shared =>
    obtain ⟨h', he, hblocks⟩ | ⟨hstop, hmax⟩ := asWeak_apply (m := m) ok
      (fun b hb => Mem.owners_ne_zero hoy hb) (fun tmp => sameCount hx.pi tmp) hsame
    · exact .inl ⟨h', by rw [he], hblocks⟩
    · exact .inr ⟨hstop, by simp, hmax⟩

/-! ## The laws -/

/-- The comparison `cmp` orders the shared and weak pointers there are. -/
def Orders (cmp : Ref V → Ref V → Prog (Mem V) Exn Bool) (s : Mem V) : Prop :=
  IsStrictWeakOrder {x : V // (s.obj (.inl x)).isSome} fun x y => (cmp (.inl x.1) (.inl y.1) s).1 = .ok true

/-- What is said of two handles, `x` and `y`, after the operations `ops`. -/
structure Agree (E : Env) (m : Mode) (ops : List (AnyOp V)) (s : Mem V) (x y : V) (hx hy : Handle) : Prop where
  before : (ownerBefore (.inl x) (.inl y) s).1 = .ok false ∧ (ownerBefore (.inl y) (.inl x) s).1 = .ok false ↔
    Equivalent E m ops hx hy
  less : (ownerLess (.inl x) (.inl y) s).1 = .ok false ∧ (ownerLess (.inl y) (.inl x) s).1 = .ok false ↔
    Equivalent E m ops hx hy
  hash : (ownerHash (.inl x) s).1 = (ownerHash (.inl y) s).1 ↔ Equivalent E m ops hx hy
  /-- But for a block with the largest number of weak references there can be, on which
  `owner_equal` makes no other one. -/
  equal : (∃ b h', ownerEqual m (.inl x) (.inl y) s = (.ok b, { s with heap := h' }) ∧ h'.blocks = s.heap.blocks ∧
      (b = true ↔ Equivalent E m ops hx hy)) ∨
    (ownerEqual m (.inl x) (.inl y) s).1 = .stop ∧ hx.kind ≠ hy.kind ∧
      ∃ b blk, (if hx.kind = .shared then hx.pi else hy.pi) = some b ∧ s.heap.blocks b = some blk ∧
        blk.counts.weakCount = -1

/-- The answers for `x` and `y` are the same in `s'` as in `s`. -/
structure SameAnswers (m : Mode) (s s' : Mem V) (x y : V) : Prop where
  before : (ownerBefore (.inl x) (.inl y) s').1 = (ownerBefore (.inl x) (.inl y) s).1
  less : (ownerLess (.inl x) (.inl y) s').1 = (ownerLess (.inl x) (.inl y) s).1
  hash : (ownerHash (.inl x) s').1 = (ownerHash (.inl x) s).1
  equal : ∀ b b', (ownerEqual m (.inl x) (.inl y) s).1 = .ok b → (ownerEqual m (.inl x) (.inl y) s').1 = .ok b' → b' = b

omit [DecidableEq V] [Fintype V] in
theorem ownerBefore_orders (s : Mem V) : Orders ownerBefore s := by
  have hr : (fun x y : {x : V // (s.obj (.inl x)).isSome} => (ownerBefore (.inl x.1) (.inl y.1) s).1 = .ok true) =
      Function.onFun (· < ·) fun x => s.heap.address ((s.obj (.inl x.1)).get x.2).pi := by
    funext x y
    rw [ownerBefore_apply (Option.some_get x.2).symm (Option.some_get y.2).symm]
    simp [less, Function.onFun]
  have hnat : IsStrictWeakOrder Nat (· < ·) :=
    { irrefl := Nat.lt_irrefl, trans := fun _ _ _ => Nat.lt_trans, incomp_trans := fun _ _ _ => by omega }
  rw [Orders, hr]
  infer_instance

theorem agree_of_address (hrun : run (AnyOp.step E m) .empty ops = some s) (hA : Apart s.heap) {x y : V} {hx hy : Handle}
    (hox : s.obj (.inl x) = some hx) (hoy : s.obj (.inl y) = some hy) : Agree E m ops s x y hx hy := by
  have ok := AnyOp.run_holds hrun holds_empty
  have haddr : s.heap.address hx.pi = s.heap.address hy.pi ↔ Equivalent E m ops hx hy :=
    (hA.address_eq_iff ok (fun b hb => Mem.owners_ne_zero hox hb) fun b hb => Mem.owners_ne_zero hoy hb).trans
      (equivalent_iff hrun hox).symm
  have hbefore : (ownerBefore (.inl x) (.inl y) s).1 = .ok false ∧ (ownerBefore (.inl y) (.inl x) s).1 = .ok false ↔
      Equivalent E m ops hx hy := by
    rw [ownerBefore_apply hox hoy, ownerBefore_apply hoy hox, ← haddr]
    simp only [less, Result.ok.injEq, decide_eq_false_iff_not]
    omega
  refine ⟨hbefore, hbefore, ?_, ?_⟩
  · rw [ownerHash_apply hox, ownerHash_apply hoy, ← haddr]
    simp
  · obtain ⟨h', he, hblocks⟩ | hstop := ownerEqual_apply (m := m) ok hox hoy
    · exact .inl ⟨_, h', he, hblocks, by rw [beq_iff_eq, haddr]⟩
    · exact .inr hstop

/-- An address does not change. -/
theorem address_of_run {ops' : List (AnyOp V)} (ok : s.Holds BlocksOk) (hrun : run (AnyOp.step E m) s ops' = some s')
    {x : Ref V} {o : Handle} (hx : s.obj x = some o) : s'.heap.address o.pi = s.heap.address o.pi := by
  cases hpi : o.pi with
  | none => rfl
  | some b =>
    obtain ⟨blk, hb⟩ := ok.exists_block (Mem.owners_ne_zero hx hpi)
    obtain ⟨-, counts, hb'⟩ := AnyOp.run_stable (stable_isBlock b blk.managed blk.chunk) hrun ⟨ok.lt hb, blk.counts, hb⟩
    simp [Heap.address, hb, hb', Block.address]

/-- **The owner order** in a state `s` that a run has reached, and, as the run goes on, in any other one. -/
theorem owner_order (E : Env) (m : Mode) (ops : List (AnyOp V)) (s : Mem V)
    (hrun : run (AnyOp.step E m) .empty ops = some s) (hfresh : FreshRun E m .empty ops) :
    Orders ownerBefore s ∧ Orders ownerLess s ∧
      ∀ x y hx hy, s.obj (.inl x) = some hx → s.obj (.inl y) = some hy → Agree E m ops s x y hx hy ∧
        ∀ ops' s', run (AnyOp.step E m) s ops' = some s' → (∀ op ∈ ops', x ∉ op.changes ∧ y ∉ op.changes) →
          SameAnswers m s s' x y := by
  have ok := AnyOp.run_holds hrun holds_empty
  have hA := run_apart hrun hfresh holds_empty Apart.empty
  refine ⟨ownerBefore_orders s, ownerBefore_orders s, fun x y hx hy hox hoy => ⟨agree_of_address hrun hA hox hoy, ?_⟩⟩
  intro ops' s' hrun' hkeep
  have ok' := AnyOp.run_holds hrun' ok
  have hox' := (AnyOp.run_object hrun' fun op hop => (hkeep op hop).1).trans hox
  have hoy' := (AnyOp.run_object hrun' fun op hop => (hkeep op hop).2).trans hoy
  have hax := address_of_run ok hrun' hox
  have hay := address_of_run ok hrun' hoy
  have hbefore : (ownerBefore (.inl x) (.inl y) s').1 = (ownerBefore (.inl x) (.inl y) s).1 := by
    rw [ownerBefore_apply hox hoy, ownerBefore_apply hox' hoy']
    simp only [less, hax, hay]
  refine ⟨hbefore, hbefore, ?_, fun b b' hb hb' => ?_⟩
  · rw [ownerHash_apply hox, ownerHash_apply hox', hax]
  · obtain ⟨h₁, he, -⟩ | ⟨hstop, -⟩ := ownerEqual_apply (m := m) ok hox hoy
    · obtain ⟨h₂, he', -⟩ | ⟨hstop, -⟩ := ownerEqual_apply (m := m) ok' hox' hoy'
      · rw [he, hax.symm, hay.symm] at hb
        rw [he'] at hb'
        cases hb
        cases hb'
        rfl
      · rw [hstop] at hb'
        cases hb'
    · rw [hstop] at hb
      cases hb

/-! ## Storage that is fresh -/

/-- Where no block is made, no storage is asked for. -/
theorem fresh_of_not_owns {op : Op V} (ok : s.Holds BlocksOk) (hop : op.owns = false)
    (h : AnyOp.step E m s (.plain op) = some s') : Fresh s.heap s'.heap := by
  have hle : s'.heap.next ≤ s.heap.next := (AnyOp.of_step h (exec_steady (steady_next s.heap.next) (W := fun _ => True)
    frameOf_true hop (fun _ _ => trivial) trivial s ⟨Nat.le_refl _, trivial⟩)).1
  have ok' : s'.Holds BlocksOk := AnyOp.of_step h (anyOp_keeps _ s ok)
  have hnone : ∀ b blk, s.heap.next ≤ b → s'.heap.blocks b ≠ some blk := fun b blk hb he => by
    have := ok'.lt he
    omega
  exact ⟨fun b blk hb he => absurd he (hnone b blk hb), fun b blk _ _ hb _ he => absurd he (hnone b blk hb)⟩

omit [DecidableEq V] [Fintype V] in
/-- One block is made. -/
theorem fresh_of_made {h h' : Heap} (blk : Block) {raw : Nat} (hpos : 0 < raw) (hraw : blk.chunk.ptr = some raw)
    (hself : blk.address = some raw) (hblocks : h'.blocks = Function.update h.blocks h.next (some blk))
    (hnamed : ∀ b, (h.blocks b).isSome ↔ b < h.next)
    (happart : ∀ b blk', h.blocks b = some blk' → .destroy b ∉ h.log → ¬ blk'.Occupies raw) : Fresh h h' := by
  have hnew : ∀ b blk', h.next ≤ b → h'.blocks b = some blk' → b = h.next ∧ blk' = blk := by
    intro b blk' hb he
    rw [hblocks] at he
    by_cases hbn : b = h.next
    · subst hbn
      rw [Function.update_self] at he
      exact ⟨rfl, (Option.some.inj he).symm⟩
    · rw [Function.update_of_ne hbn] at he
      have := (hnamed b).mp (by simp [he])
      omega
  refine ⟨fun b blk' hb he => ?_, fun b blk' b' blk'' hb hlt he he' hn a ha ha' => ?_⟩
  · obtain ⟨-, rfl⟩ := hnew b blk' hb he
    exact ⟨raw, raw, hraw, hself, hpos, Nat.le_refl _⟩
  · obtain ⟨rfl, rfl⟩ := hnew b blk' hb he
    obtain ⟨r, s, hr, hs, h₁, h₂⟩ := ha
    rw [hraw] at hr
    rw [hself] at hs
    cases hr
    cases hs
    obtain rfl : a = raw := by omega
    rw [hblocks, Function.update_of_ne (Nat.ne_of_lt hlt)] at he'
    exact happart b' blk'' he' hn ha'

end

/-- The object at 8 is owned, referred to and disposed of; then the object at 16 is owned. -/
def expiredAndOwned {V : Type} (x y z : V) : List (AnyOp V) :=
  [.construct x (.raw (.ptrDeleter (some 8) (.user 1))), .plain (.weaken y x), .plain (.destroy x),
    .construct z (.raw (.ptr false (some 16)))]

theorem freshRun_expiredAndOwned : FreshRun pages .defaultPolicy .empty (expiredAndOwned (0 : Fin 3) 1 2) := by
  have h₀ : (Mem.empty : Mem (Fin 3)).Holds BlocksOk := holds_empty
  refine ⟨fun u₁ h₁ => ?_, fun u₁ h₁ => ?_⟩
  · obtain rfl := Option.some.inj h₁
    exact fresh_of_made ⟨.new, .countedDeleter (some 8) (.user 1), ⟨.std, .controlBlock, some 4096, 1⟩⟩ (by decide)
      rfl rfl rfl h₀.named nofun
  have ok₁ := AnyOp.of_step h₁ (anyOp_keeps _ _ h₀)
  refine ⟨fun u₂ h₂ => fresh_of_not_owns ok₁ rfl h₂, ?_⟩
  intro u₂ h₂
  have ok₂ := AnyOp.of_step h₂ (anyOp_keeps _ _ ok₁)
  refine ⟨fun u₃ h₃ => fresh_of_not_owns ok₂ rfl h₃, ?_⟩
  intro u₃ h₃
  have ok₃ := AnyOp.of_step h₃ (anyOp_keeps _ _ ok₂)
  refine ⟨fun u₄ h₄ => ?_, fun _ _ => trivial⟩
  obtain rfl := Option.some.inj h₁
  obtain rfl := Option.some.inj h₂
  obtain rfl := Option.some.inj h₃
  obtain rfl := Option.some.inj h₄
  refine fresh_of_made ⟨.new, .countedPtr (some 16), ⟨.new, .controlBlock, some 8192, 1⟩⟩ (by decide) rfl rfl rfl
    ok₃.named fun b blk hb _ ⟨raw, self, _, hself, _, hle⟩ => ?_
  -- the first block is still there, in another page
  have hb0 : b = 0 := Nat.lt_one_iff.mp (ok₃.lt hb)
  subst hb0
  obtain rfl := Option.some.inj hb
  obtain rfl : self = 4096 := (Option.some.inj hself).symm
  omega

/-- An expired weak pointer and an owner. -/
theorem owner_order_expired :
    ∃ s, run (AnyOp.step pages .defaultPolicy) .empty (expiredAndOwned (0 : Fin 3) 1 2) = some s ∧
      (ownerBefore (.inl 1) (.inl 2) s).1 = .ok true ∧ useCount .defaultPolicy (some 0) s.heap = 0 ∧
      Agree pages .defaultPolicy (expiredAndOwned 0 1 2) s 1 2 ⟨.weak, some 8, some 0⟩ ⟨.shared, some 16, some 1⟩ :=
  ⟨_, rfl, rfl, rfl, ((owner_order pages .defaultPolicy (expiredAndOwned 0 1 2) _ rfl freshRun_expiredAndOwned).2.2 1 2 _ _
    rfl rfl).1⟩

end SharedPtr.Seq
