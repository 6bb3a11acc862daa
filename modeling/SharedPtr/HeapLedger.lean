/-
What holds of the control blocks whatever handles do: each block's counters
are the numbers of its handles (`_M_use_count` #shared, `_M_weak_count` #weak
+ (#shared != 0)); it was disposed of once or not at all, as it has shared
handles or not, and destroyed once it has no handles; and what was acquired
is what was returned, what the blocks will return, and what is in hand.

`own` says how many handles of each class a block has. A release and a handle
more are enough to know of an invariant (`Ledger`): one lemma for each counting
function says what it does to `own` then.
-/
import SharedPtr.Owning
import SharedPtr.Lib.Trade
import SharedPtr.Lib.Tally
import Mathlib.Tactic.Ring

namespace SharedPtr.Seq

open Lib (Prog Result Trade)

/-- What a program gets from the environment and has to give back. -/
inductive Resource
  | chunk (c : Chunk)
  | element (p : Ptr) (k : Nat)
  deriving DecidableEq, Repr

def trade : Trade Event Resource where
  acquires
    | .allocate c => some (.chunk c)
    | .construct p k _ => some (.element p k)
    | _ => none
  returns
    | .deallocate c => some (.chunk c)
    | .destroyElement p k => some (.element p k)
    | _ => none

/-! ## Events of the virtual functions -/

/-- The events of a virtual function on the object and its elements. -/
def Event.ofDispose : Event → Bool
  | .deleter .. | .allocatorDestroy .. | .destroyElement .. | .deallocate _ => true
  | _ => false

theorem mem_destroyElements {a : Source} {p : Ptr} {i : Nat} {e : Event} (h : e ∈ destroyElements a p i) :
    e.ofDispose := by
  induction i with
  | zero => cases h
  | succ i ih =>
    rcases List.mem_cons.mp h with rfl | h
    · rfl
    · rcases List.mem_cons.mp h with rfl | h
      · rfl
      · exact ih h

theorem Deleter.mem_call {d : Deleter} {p : Ptr} {e : Event} (h : e ∈ d.call p) : e.ofDispose := by
  rcases List.mem_cons.mp h with rfl | h
  · rfl
  · cases d with
    | elements a2 i n =>
      rcases List.mem_append.mp h with h | h
      · exact mem_destroyElements h
      · rw [List.mem_singleton.mp h]
        rfl
    | _ => cases h

theorem mem_destroyN {p : Ptr} {n : Nat} {e : Event} (h : e ∈ destroyN p n) : e.ofDispose := by
  obtain ⟨k, -, rfl⟩ := List.mem_map.mp h
  rfl

theorem mem_disposeArray {a : Source} {n : Nat} {o : Bool} {p : Ptr} {e : Event}
    (h : e ∈ disposeArray a n o p) : e.ofDispose := by
  cases o with
  | true => exact mem_destroyN h
  | false => exact mem_destroyElements h

theorem Managed.mem_dispose {md : Managed} {e : Event} (h : e ∈ md.dispose) : e.ofDispose := by
  cases md with
  | countedPtr ptr => exact Deleter.mem_call (d := .delete) h
  | countedDeleter ptr del | countedReference ptr del => exact Deleter.mem_call h
  | countedInplace alloc ptr =>
    simp only [dispose, List.mem_cons, List.not_mem_nil, or_false] at h
    rcases h with rfl | rfl <;> rfl
  | countedOverwrite ptr =>
    rw [List.mem_singleton.mp h]
    rfl
  | countedArray alloc n overwrite allocPtr self =>
    by_cases hn : n = 0
    · simp [dispose, hn] at h
    · rw [show dispose (.countedArray alloc n overwrite allocPtr self) = disposeArray alloc n overwrite allocPtr from
        if_pos hn] at h
      exact mem_disposeArray h

/-- Nothing about a block's life is in the events. -/
def Quiet (es : List Event) : Prop := ∀ b, es.count (.dispose b) = 0 ∧ es.count (.destroy b) = 0

theorem Managed.quiet_dispose (md : Managed) : Quiet md.dispose := by
  intro b
  constructor <;>
  · rw [List.count_eq_zero]
    intro h
    cases Managed.mem_dispose h

theorem Managed.acquires_dispose (md : Managed) : ∀ e ∈ md.dispose, trade.acquires e = none := by
  intro e h
  have he := Managed.mem_dispose h
  cases e <;> first | rfl | cases he

/-- The calls made to `b`, in the log. -/
theorem count_calls (blk : Block) (b b' : Nat) (calls : List Call) :
    (calls.flatMap (blk.call b)).count (.dispose b') = (if b' = b then calls.count .dispose else 0) ∧
      (calls.flatMap (blk.call b)).count (.destroy b') = if b' = b then calls.count .destroy else 0 := by
  induction calls with
  | nil => simp
  | cons c calls ih =>
    have hq := blk.managed.quiet_dispose b'
    rw [List.flatMap_cons, List.count_append, List.count_append, ih.1, ih.2]
    cases c with
    | dispose =>
      simp only [Block.call, List.count_cons, hq.1, hq.2]
      by_cases hb : b' = b
      · subst hb; simp; omega
      · simp [hb, Ne.symm hb]
    | destroy =>
      simp only [Block.call, List.count_cons, List.count_nil]
      by_cases hb : b' = b
      · subst hb; simp; omega
      · simp [hb, Ne.symm hb]

theorem acquires_calls (blk : Block) (b : Nat) (calls : List Call) :
    ∀ e ∈ calls.flatMap (blk.call b), trade.acquires e = none := by
  intro e he
  obtain ⟨c, -, he⟩ := List.mem_flatMap.mp he
  cases c with
  | dispose =>
    rcases List.mem_cons.mp he with rfl | he
    · rfl
    · exact Managed.acquires_dispose _ e he
  | destroy => simp only [Block.call, List.mem_cons, List.not_mem_nil, or_false] at he
               rcases he with rfl | rfl <;> rfl

theorem returned_calls (blk : Block) (b : Nat) (calls : List Call) (r : Resource) :
    trade.returned (calls.flatMap (blk.call b)) r =
      calls.count .dispose * trade.returned blk.managed.dispose r +
        calls.count .destroy * trade.returned [.deallocate blk.chunk] r := by
  induction calls with
  | nil => simp
  | cons c calls ih =>
    rw [List.flatMap_cons, Trade.returned_append, ih]
    cases c with
    | dispose =>
      have h : trade.returned (blk.call b .dispose) r = trade.returned blk.managed.dispose r := by
        simp [Block.call, Trade.returned_cons, trade]
      simp only [h, List.count_cons_self, List.count_cons_of_ne, ne_eq, reduceCtorEq, not_false_eq_true]
      ring
    | destroy =>
      have h : trade.returned (blk.call b .destroy) r = trade.returned [.deallocate blk.chunk] r := by
        simp [Block.call, Trade.returned_cons, trade]
      simp only [h, List.count_cons_self, List.count_cons_of_ne, ne_eq, reduceCtorEq, not_false_eq_true]
      ring

theorem count_release (m : Mode) (k : Kind) (blk : Block) (b b' : Nat) :
    (blk.release m k b).count (.dispose b') =
        (if b' = b then (blk.counts.drop m k).2.count .dispose else 0) ∧
      (blk.release m k b).count (.destroy b') =
        if b' = b then (blk.counts.drop m k).2.count .destroy else 0 := by
  simpa [Block.release, List.count_cons] using count_calls blk b b' (blk.counts.drop m k).2

theorem returned_release (m : Mode) (k : Kind) (blk : Block) (b : Nat) (r : Resource) :
    trade.returned (blk.release m k b) r =
      (blk.counts.drop m k).2.count .dispose * trade.returned blk.managed.dispose r +
        (blk.counts.drop m k).2.count .destroy * trade.returned [.deallocate blk.chunk] r := by
  rw [Block.release, Trade.returned_cons, returned_calls]
  simp [trade]

theorem acquired_release (m : Mode) (k : Kind) (blk : Block) (b : Nat) (r : Resource) :
    trade.acquired (blk.release m k b) r = 0 := by
  refine Trade.acquired_eq_zero (fun e he => ?_) r
  rcases List.mem_cons.mp he with rfl | he
  · rfl
  · exact acquires_calls _ _ _ e he

/-! ## The invariant -/

/-- How many handles of a class own a block. -/
abbrev Owners := Kind → Nat → Nat

/-- One handle more, unless it is empty. -/
def Owners.add (own : Owners) (k : Kind) (pi : CountPtr) : Owners := fun k' b =>
  own k' b + if k' = k ∧ pi = some b then 1 else 0

@[simp] theorem Owners.add_none (own : Owners) (k : Kind) : own.add k none = own := by
  funext k' b
  simp [Owners.add]

theorem Owners.add_comm (own : Owners) (k k' : Kind) (pi pi' : CountPtr) :
    (own.add k pi).add k' pi' = (own.add k' pi').add k pi := by
  funext k₁ b
  simp only [Owners.add]
  omega

theorem Owners.add_cancel {own own' : Owners} (k : Kind) (pi : CountPtr) (h : own.add k pi = own'.add k pi) :
    own = own' := by
  funext k' b
  have := congrFun (congrFun h k') b
  simp only [Owners.add] at this
  omega

/-- A block with `u` shared and `w` weak handles that was disposed of `d`
times and destroyed `x` times. -/
def BlockOk (u w d x : Nat) : Option Block → Prop
  | none => u = 0 ∧ w = 0 ∧ d = 0 ∧ x = 0
  | some blk =>
    blk.counts.useCount.toNat = u ∧ blk.counts.weakCount.toNat = w + (if u = 0 then 0 else 1) ∧
      d = (if u = 0 then 1 else 0) ∧ x = if u = 0 ∧ w = 0 then 1 else 0

/-- `d` while there are shared handles, and `x` while there are handles. -/
def Counts.due (c : Counts) (d x : Nat) : Nat :=
  (if c.useCount = 0 then 0 else d) + if c.weakCount = 0 then 0 else x

/-- What the block will return: its object and its storage. -/
def Block.outstanding (blk : Block) (r : Resource) : Nat :=
  blk.counts.due (trade.returned blk.managed.dispose r) (trade.returned [.deallocate blk.chunk] r)

def Heap.outstanding (h : Heap) (r : Resource) : Nat :=
  ∑ b ∈ Finset.range h.next, (h.blocks b).elim 0 (·.outstanding r)

/-- **The invariant**, with `own` handles and `hand` in hand. -/
structure HeapOk (own : Owners) (hand : Resource → Nat) (h : Heap) : Prop where
  blocks : ∀ b, BlockOk (own .shared b) (own .weak b) (h.log.count (.dispose b)) (h.log.count (.destroy b))
    (h.blocks b)
  named : ∀ b, (h.blocks b).isSome ↔ b < h.next
  balance : ∀ r, trade.acquired h.log r = trade.returned h.log r + h.outstanding r + hand r
  safe : trade.Safe h.log

/-- What it says of the counters and the calls alone. -/
structure BlocksOk (own : Owners) (h : Heap) : Prop where
  blocks : ∀ b, BlockOk (own .shared b) (own .weak b) (h.log.count (.dispose b)) (h.log.count (.destroy b))
    (h.blocks b)
  named : ∀ b, (h.blocks b).isSome ↔ b < h.next

theorem HeapOk.empty : HeapOk (fun _ _ => 0) (fun _ => 0) Heap.empty where
  blocks _ := ⟨rfl, rfl, rfl, rfl⟩
  named b := by simp [Heap.empty]
  balance _ := rfl
  safe := Trade.Safe.nil

variable {own : Owners} {hand : Resource → Nat} {h : Heap} {m : Mode} {k : Kind}

theorem HeapOk.blocksOk (ok : HeapOk own hand h) : BlocksOk own h := ⟨ok.blocks, ok.named⟩

theorem BlocksOk.lt (ok : BlocksOk own h) {b : Nat} {blk : Block} (hb : h.blocks b = some blk) : b < h.next :=
  (ok.named b).mp (by simp [hb])

theorem BlocksOk.next_none (ok : BlocksOk own h) : h.blocks h.next = none := by
  simpa using ok.named h.next

theorem BlocksOk.exists_block (ok : BlocksOk own h) {b : Nat} (hb : own k b ≠ 0) :
    ∃ blk, h.blocks b = some blk := by
  have hok := ok.blocks b
  cases hblk : h.blocks b with
  | some blk => exact ⟨blk, rfl⟩
  | none =>
    rw [hblk] at hok
    obtain ⟨hu, hw, -⟩ := hok
    cases k <;> contradiction

theorem HeapOk.exists_block (ok : HeapOk own hand h) {b : Nat} (hb : own k b ≠ 0) :
    ∃ blk, h.blocks b = some blk := ok.blocksOk.exists_block hb

/-- A block's part of the sum, and the others'. -/
theorem Heap.exists_outstanding {b : Nat} {blk : Block} (hb : h.blocks b = some blk) (hlt : b < h.next)
    (r : Resource) :
    ∃ rest, h.outstanding r = blk.outstanding r + rest ∧
      ∀ c, (h.setCounts b blk c).outstanding r = Block.outstanding { blk with counts := c } r + rest := by
  obtain ⟨rest, hs, hu⟩ := Lib.exists_sum_update_of_mem (fun o : Option Block => o.elim 0 (·.outstanding r))
    h.blocks (Finset.mem_range.mpr hlt)
  rw [hb] at hs
  exact ⟨rest, hs, fun c => hu _⟩

/-! ## Releasing -/

/-- The block of a handle that is released, with the handle still counted. -/
theorem BlockOk.drop {u w d x : Nat} {blk : Block}
    (ok : BlockOk (u + if k = .shared then 1 else 0) (w + if k = .weak then 1 else 0) d x (some blk)) :
    BlockOk u w (d + (blk.counts.drop m k).2.count .dispose) (x + (blk.counts.drop m k).2.count .destroy)
      (some { blk with counts := (blk.counts.drop m k).1 }) := by
  obtain ⟨hu, hw, rfl, rfl⟩ := ok
  cases k with
  | shared =>
    simp only [if_true, reduceCtorEq, if_false, Nat.add_zero, Nat.succ_ne_zero, false_and] at hu hw ⊢
    have hu0 : blk.counts.useCount ≠ 0 := by rw [Ne, eq_zero_iff]; omega
    have hw0 : blk.counts.weakCount ≠ 0 := by rw [Ne, eq_zero_iff]; omega
    rw [show Counts.drop m .shared = Counts.release m from rfl, Counts.release_eq]
    by_cases hu1 : u = 0
    · rw [if_pos (eq_one_iff.mpr (by omega))]
      simp only [BlockOk, List.count_cons, Counts.lessWeak_useCount, Counts.toNat_lessUse hu0,
        Counts.toNat_lessWeak (c := blk.counts.lessUse) hw0, Counts.lessUse_weakCount, eq_one_iff, hw, hu, hu1]
      by_cases hw1 : w = 0 <;> simp [hw1]
    · have h1 : blk.counts.useCount ≠ 1 := by rw [Ne, eq_one_iff]; omega
      rw [if_neg h1]
      simp [BlockOk, Counts.toNat_lessUse hu0, hu, hw, hu1]
  | weak =>
    simp only [if_true, reduceCtorEq, if_false, Nat.add_zero, Nat.succ_ne_zero, and_false] at hu hw ⊢
    have hw0 : blk.counts.weakCount ≠ 0 := by rw [Ne, eq_zero_iff]; omega
    rw [show Counts.drop m .weak = Counts.weakRelease m from rfl, Counts.weakRelease_eq]
    simp only [BlockOk, Counts.lessWeak_useCount, Counts.toNat_lessWeak hw0, eq_one_iff, hw, hu]
    by_cases hu1 : u = 0
    · by_cases hw1 : w = 0 <;> simp [hu1, hw1]
    · by_cases hw1 : w = 0 <;> simp [hu1, hw1]

/-- What is due, before and after. -/
theorem Counts.due_drop {c : Counts} (hw : c.weakCount ≠ 0) (hu : k = .shared → c.useCount ≠ 0)
    (hlast : k = .weak → c.weakCount = 1 → c.useCount = 0) (d x : Nat) :
    c.due d x = (c.drop m k).1.due d x + (c.drop m k).2.count .dispose * d +
      (c.drop m k).2.count .destroy * x := by
  cases k with
  | shared =>
    have hu := hu rfl
    rw [show Counts.drop m .shared = Counts.release m from rfl, Counts.release_eq]
    by_cases h1 : c.useCount = 1
    · rw [if_pos h1]
      by_cases h2 : c.weakCount = 1
      · rw [if_pos h2, due, due, if_neg hu, if_neg hw, lessWeak_useCount, if_pos (lessUse_eq_zero h1),
          if_pos (lessWeak_eq_zero (c := c.lessUse) h2)]
        simp
      · rw [if_neg h2, due, due, if_neg hu, if_neg hw, lessWeak_useCount, if_pos (lessUse_eq_zero h1),
          if_neg (lessWeak_ne_zero (c := c.lessUse) hw h2)]
        simp
        omega
    · rw [if_neg h1, due, due, if_neg hu, if_neg (lessUse_ne_zero hu h1), lessUse_weakCount]
      simp
  | weak =>
    rw [show Counts.drop m .weak = Counts.weakRelease m from rfl, Counts.weakRelease_eq]
    by_cases h2 : c.weakCount = 1
    · rw [if_pos h2, due, due, if_neg hw, lessWeak_useCount, if_pos (hlast rfl h2), if_pos (lessWeak_eq_zero h2)]
      simp
    · rw [if_neg h2, due, due, if_neg hw, lessWeak_useCount, if_neg (lessWeak_ne_zero hw h2)]
      simp

/-- What is known of a handle's block. -/
theorem BlocksOk.of_add {b : Nat} (ok : BlocksOk (own.add k (some b)) h) :
    ∃ blk, h.blocks b = some blk ∧ blk.counts.weakCount ≠ 0 ∧ (k = .shared → blk.counts.useCount ≠ 0) ∧
      (k = .weak → blk.counts.weakCount = 1 → blk.counts.useCount = 0) := by
  obtain ⟨blk, hb⟩ := ok.exists_block (k := k) (b := b) (by simp [Owners.add])
  have hblk := ok.blocks b
  rw [hb] at hblk
  simp only [Owners.add, and_true] at hblk
  refine ⟨blk, hb, ?_, ?_, ?_⟩
  · rw [Ne, eq_zero_iff, hblk.2.1]
    cases k <;> simp
  · rintro rfl
    rw [Ne, eq_zero_iff, hblk.1]
    simp
  · rintro rfl h1
    have h2 := hblk.2.1
    rw [eq_one_iff] at h1
    rw [eq_zero_iff, hblk.1]
    by_contra hne
    rw [if_neg hne] at h2
    simp at h2
    omega

theorem release_of_block {b : Nat} {blk : Block} (hb : h.blocks b = some blk) :
    Seq.release m k b h = (h.setCounts b blk (blk.counts.drop m k).1).emit (blk.release m k b) := by
  simp only [Seq.release, hb]

/-- **A release** takes the handle out of the count. -/
theorem BlocksOk.release {b : Nat} (ok : BlocksOk (own.add k (some b)) h) : BlocksOk own (release m k b h) := by
  obtain ⟨blk, hb, -⟩ := ok.of_add
  have hlt := ok.lt hb
  have hblk := ok.blocks b
  rw [hb] at hblk
  simp only [Owners.add, and_true] at hblk
  have hcount := count_release m k blk b
  rw [release_of_block hb]
  refine ⟨fun b' => ?_, fun b' => ?_⟩
  · by_cases hbb : b' = b
    · subst hbb
      simp only [Heap.emit, Heap.setCounts, Function.update_self, List.count_append, (hcount b').1,
        (hcount b').2, if_true]
      exact BlockOk.drop (by simpa only [eq_comm] using hblk)
    · simp only [Heap.emit, Heap.setCounts, Function.update_of_ne hbb, List.count_append, (hcount b').1,
        (hcount b').2, if_neg hbb, Nat.add_zero]
      simpa [Owners.add, Ne.symm hbb] using ok.blocks b'
  · by_cases hbb : b' = b
    · subst hbb
      simp [Heap.emit, Heap.setCounts, hlt]
    · simp only [Heap.emit, Heap.setCounts, Function.update_of_ne hbb]
      exact ok.named b'

theorem HeapOk.release {b : Nat} (ok : HeapOk (own.add k (some b)) hand h) : HeapOk own hand (release m k b h) := by
  have ok' := ok.blocksOk.release (m := m)
  obtain ⟨blk, hb, hw, hu, hlast⟩ := ok.blocksOk.of_add
  have hdue := fun r => Counts.due_drop (m := m) hw hu hlast (trade.returned blk.managed.dispose r)
    (trade.returned [.deallocate blk.chunk] r)
  rw [release_of_block hb] at ok' ⊢
  refine ⟨ok'.blocks, ok'.named, fun r => ?_, ?_⟩
  · obtain ⟨rest, ho, ho'⟩ := Heap.exists_outstanding hb (ok.blocksOk.lt hb) r
    have hbal := ok.balance r
    have hd := hdue r
    show trade.acquired (h.log ++ _) r = trade.returned (h.log ++ _) r +
      (h.setCounts b blk (blk.counts.drop m k).1).outstanding r + hand r
    rw [Trade.acquired_append, Trade.returned_append, acquired_release, returned_release, ho']
    rw [ho] at hbal
    simp only [Block.outstanding] at hbal ⊢
    omega
  · refine ok.safe.append ?_
    intro r
    obtain ⟨rest, ho, -⟩ := Heap.exists_outstanding hb (ok.blocksOk.lt hb) r
    have hbal := ok.balance r
    have hd := hdue r
    rw [returned_release]
    rw [ho] at hbal
    simp only [Block.outstanding] at hbal
    omega

/-! ## Adding handles -/

/-- The counters of a block that has handles get one handle more. -/
theorem BlocksOk.setCounts {b : Nat} {blk : Block} (ok : BlocksOk own h) (hb : h.blocks b = some blk) {c : Counts}
    (hblk : BlockOk (own.add k (some b) .shared b) (own.add k (some b) .weak b) (h.log.count (.dispose b))
      (h.log.count (.destroy b)) (some { blk with counts := c })) :
    BlocksOk (own.add k (some b)) (h.setCounts b blk c) := by
  have hlt := ok.lt hb
  refine ⟨fun b' => ?_, fun b' => ?_⟩
  · by_cases hbb : b' = b
    · subst hbb
      simpa only [Heap.setCounts, Function.update_self] using hblk
    · simp only [Heap.setCounts, Function.update_of_ne hbb]
      simpa [Owners.add, Ne.symm hbb] using ok.blocks b'
  · by_cases hbb : b' = b
    · subst hbb
      simp [Heap.setCounts, hlt]
    · simp only [Heap.setCounts, Function.update_of_ne hbb]
      exact ok.named b'

theorem HeapOk.setCounts {b : Nat} {blk : Block} (ok : HeapOk own hand h) (hb : h.blocks b = some blk) {c : Counts}
    (hdue : ∀ d x, c.due d x = blk.counts.due d x) (ok' : BlocksOk (own.add k (some b)) (h.setCounts b blk c)) :
    HeapOk (own.add k (some b)) hand (h.setCounts b blk c) := by
  refine ⟨ok'.blocks, ok'.named, fun r => ?_, ok.safe⟩
  obtain ⟨rest, ho, ho'⟩ := Heap.exists_outstanding hb (ok.blocksOk.lt hb) r
  rw [ho', Block.outstanding, hdue]
  rw [show blk.counts.due _ _ = blk.outstanding r from rfl, ← ho]
  exact ok.balance r

/-- The counters with one handle more. -/
def Counts.more (k : Kind) (c : Counts) : Counts :=
  match k with
  | .shared => { c with useCount := c.useCount + 1 }
  | .weak => { c with weakCount := c.weakCount + 1 }

theorem Counts.addRef_eq_some {c c' : Counts} (hc : c.addRef m k = some c') :
    c' = c.more k ∧ (k = .shared → c.useCount ≠ -1) ∧ (k = .weak → c.weakCount ≠ -1) := by
  cases k with
  | shared =>
    obtain ⟨hne, rfl⟩ := addRefCopy_eq_some.mp hc
    exact ⟨rfl, fun _ => hne, nofun⟩
  | weak =>
    obtain ⟨hne, rfl⟩ := weakAddRef_eq_some.mp hc
    exact ⟨rfl, nofun, fun _ => hne⟩

/-- A block that a handle can be added to: a shared one beside a shared one,
a weak one beside any. -/
def Owners.admits (own : Owners) (k : Kind) (b : Nat) : Prop :=
  own .shared b ≠ 0 ∨ k = .weak ∧ own .weak b ≠ 0

/-- The counters of a block that a handle can be added to. -/
theorem BlocksOk.of_admits {b : Nat} {blk : Block} (ok : BlocksOk own h) (hb : h.blocks b = some blk)
    (hown : own.admits k b) : blk.counts.weakCount ≠ 0 ∧ (k = .shared → own .shared b ≠ 0 ∧ blk.counts.useCount ≠ 0) := by
  have hblk := ok.blocks b
  rw [hb] at hblk
  obtain ⟨h1, h2, -⟩ := hblk
  constructor
  · rw [Ne, eq_zero_iff, h2]
    rcases hown with h | ⟨-, h⟩ <;> simp [h]
  · rintro rfl
    rcases hown with h | ⟨h, -⟩
    · exact ⟨h, by rwa [Ne, eq_zero_iff, h1]⟩
    · cases h

/-- **One handle more** on a block that has some. -/
theorem BlocksOk.more {b : Nat} {blk : Block} (ok : BlocksOk own h) (hb : h.blocks b = some blk)
    (hown : own.admits k b) (hu : k = .shared → blk.counts.useCount ≠ -1)
    (hw : k = .weak → blk.counts.weakCount ≠ -1) :
    BlocksOk (own.add k (some b)) (h.setCounts b blk (blk.counts.more k)) := by
  obtain ⟨-, hshared⟩ := ok.of_admits hb hown
  have hblk := ok.blocks b
  rw [hb] at hblk
  obtain ⟨h1, h2, h3, h4⟩ := hblk
  cases k with
  | shared =>
    have hown : own .shared b ≠ 0 := (hshared rfl).1
    have hu1 : (blk.counts.more .shared).useCount.toNat = blk.counts.useCount.toNat + 1 := toNat_add_one (hu rfl)
    refine ok.setCounts hb ⟨?_, ?_, ?_, ?_⟩
    · simp [hu1, h1, Owners.add]
    · show blk.counts.weakCount.toNat = _
      simpa [Owners.add, hown] using h2
    · simpa [Owners.add, hown] using h3
    · simpa [Owners.add, hown] using h4
  | weak =>
    have hw1 : (blk.counts.more .weak).weakCount.toNat = blk.counts.weakCount.toNat + 1 := toNat_add_one (hw rfl)
    refine ok.setCounts hb ⟨?_, ?_, ?_, ?_⟩
    · show blk.counts.useCount.toNat = _
      simpa [Owners.add] using h1
    · simp [hw1, h2, Owners.add]
      omega
    · simpa [Owners.add] using h3
    · rw [h4]
      rcases hown with h | ⟨-, h⟩ <;> simp [Owners.add, h]

/-- The same is due as before. -/
theorem Counts.due_more {c : Counts} (hw0 : c.weakCount ≠ 0) (hu0 : k = .shared → c.useCount ≠ 0)
    (hu : k = .shared → c.useCount ≠ -1) (hw : k = .weak → c.weakCount ≠ -1) (d x : Nat) :
    (c.more k).due d x = c.due d x := by
  cases k with
  | shared =>
    have hu2 : (c.more .shared).useCount ≠ 0 := by
      rw [Ne, eq_zero_iff, more, toNat_add_one (hu rfl)]
      omega
    rw [due, due, if_neg (hu0 rfl), if_neg hu2]
    rfl
  | weak =>
    have hw2 : (c.more .weak).weakCount ≠ 0 := by
      rw [Ne, eq_zero_iff, more, toNat_add_one (hw rfl)]
      omega
    rw [due, due, if_neg hw0, if_neg hw2]
    rfl

theorem HeapOk.more {b : Nat} {blk : Block} (ok : HeapOk own hand h) (hb : h.blocks b = some blk)
    (hown : own.admits k b) (hu : k = .shared → blk.counts.useCount ≠ -1)
    (hw : k = .weak → blk.counts.weakCount ≠ -1) :
    HeapOk (own.add k (some b)) hand (h.setCounts b blk (blk.counts.more k)) := by
  obtain ⟨hw0, hu0⟩ := ok.blocksOk.of_admits hb hown
  exact ok.setCounts hb (Counts.due_more hw0 (fun hk => (hu0 hk).2) hu hw) (ok.blocksOk.more hb hown hu hw)

/-! ## What the counting functions keep -/

/-- An invariant of the blocks and their handles that a release and a handle more keep. -/
structure Ledger (I : Owners → Heap → Prop) : Prop where
  blocksOk : ∀ {own h}, I own h → BlocksOk own h
  release : ∀ {own h m k b}, I (own.add k (some b)) h → I own (Seq.release m k b h)
  more : ∀ {own : Owners} {h k b blk}, I own h → h.blocks b = some blk → own.admits k b →
    (k = .shared → blk.counts.useCount ≠ -1) → (k = .weak → blk.counts.weakCount ≠ -1) →
    I (own.add k (some b)) (h.setCounts b blk (blk.counts.more k))

theorem ledger_blocksOk : Ledger BlocksOk := ⟨id, BlocksOk.release, BlocksOk.more⟩

theorem ledger_heapOk : Ledger fun own h => HeapOk own hand h := ⟨HeapOk.blocksOk, HeapOk.release, HeapOk.more⟩

/-- A program that makes a `_M_pi` of class `k`: the reference is counted when
it returns, and nothing changed when it throws. -/
def AddsIn (I : Owners → Heap → Prop) (own : Owners) (k : Kind) (c : Prog Heap Exn CountPtr) (h : Heap) : Prop :=
  match c h with
  | (.ok pi, h') => I (own.add k pi) h'
  | (.throw _, h') => I own h'
  | (.stop, _) => True

/-- The same, of the whole invariant. -/
def Adds (own : Owners) (hand : Resource → Nat) (k : Kind) (c : Prog Heap Exn CountPtr) (h : Heap) : Prop :=
  match c h with
  | (.ok pi, h') => HeapOk (own.add k pi) hand h'
  | (.throw _, h') => HeapOk own hand h'
  | (.stop, _) => True

namespace Ledger

variable {I : Owners → Heap → Prop}

theorem dropCount (hI : Ledger I) {pi : CountPtr} (ok : I (own.add k pi) h) : I own (dropCount m k pi h) := by
  cases pi with
  | none =>
    rw [Owners.add_none] at ok
    exact ok
  | some b => exact hI.release ok

/-- `_M_add_ref_copy` and `_M_weak_add_ref`. -/
theorem addRef (hI : Ledger I) {b : Nat} (ok : I own h) (hown : own.admits k b) :
    addRef m k b h = (.stop, h) ∨ ∃ h', addRef m k b h = (.ok (), h') ∧ I (own.add k (some b)) h' := by
  unfold Seq.addRef
  split
  next => exact .inl rfl
  next blk hb =>
    split
    next => exact .inl rfl
    next c hc =>
      obtain ⟨rfl, hu, hw⟩ := Counts.addRef_eq_some hc
      exact .inr ⟨_, rfl, hI.more ok hb hown hu hw⟩

/-- A copy of a reference. -/
theorem copyCount (hI : Ledger I) {r : CountPtr} (ok : I own h) (hown : ∀ b, r = some b → own.admits k b) :
    copyCount m k r h = (.stop, h) ∨ ∃ h', copyCount m k r h = (.ok r, h') ∧ I (own.add k r) h' := by
  cases r with
  | none => exact .inr ⟨h, rfl, by simpa using ok⟩
  | some b =>
    obtain he | ⟨h', he, ok'⟩ := hI.addRef (m := m) ok (hown b rfl)
    · exact .inl (by simp [Seq.copyCount, Prog.bind_apply, he])
    · exact .inr ⟨h', by simp [Seq.copyCount, Prog.bind_apply, he], ok'⟩

theorem copyCount_adds (hI : Ledger I) {r : CountPtr} (ok : I own h) (hown : ∀ b, r = some b → own.admits k b) :
    AddsIn I own k (Seq.copyCount m k r) h := by
  obtain he | ⟨h', he, ok'⟩ := hI.copyCount (m := m) ok hown
  · simp [AddsIn, he]
  · simpa [AddsIn, he] using ok'

/-- `_M_add_ref_lock_nothrow`: it succeeds where there is a shared handle. -/
theorem addRefLockNothrow (hI : Ledger I) {b : Nat} (ok : I own h) :
    addRefLockNothrow m b h = (.stop, h) ∨ (own .shared b = 0 ∧ addRefLockNothrow m b h = (.ok false, h)) ∨
      ∃ h', own .shared b ≠ 0 ∧ addRefLockNothrow m b h = (.ok true, h') ∧ I (own.add .shared (some b)) h' := by
  unfold Seq.addRefLockNothrow
  split
  next => exact .inl rfl
  next blk hb =>
    have hblk := (hI.blocksOk ok).blocks b
    rw [hb] at hblk
    split
    next => exact .inl rfl
    next locked c hc =>
      rcases Counts.addRefLockNothrow_locked hc with ⟨he, h0⟩ | ⟨he, h0, hne⟩
      · cases he
        refine .inr (.inl ⟨by rw [← hblk.1, ← eq_zero_iff, h0], ?_⟩)
        have hsame : h.setCounts b blk blk.counts = h := by
          simp only [Heap.setCounts, ← hb, Function.update_eq_self]
        rw [hsame]
      · cases he
        have hown : own .shared b ≠ 0 := by rwa [← hblk.1, Ne, ← eq_zero_iff]
        exact .inr (.inr ⟨_, hown, rfl, hI.more ok hb (.inl hown) (fun _ => hne) nofun⟩)

/-- `__shared_count(const __weak_count&)`. -/
theorem countOfWeak (hI : Ledger I) {r : CountPtr} (ok : I own h) : AddsIn I own .shared (countOfWeak m r) h := by
  have hthrow : AddsIn I own .shared (throwBadWeakPtr m) h :=
    ifConstexpr_elim (P := fun c => AddsIn I own .shared c h) trivial ok
  cases r with
  | none => exact hthrow
  | some b =>
    obtain he | ⟨-, he⟩ | ⟨h', -, he, ok'⟩ := hI.addRefLockNothrow (m := m) (b := b) ok
    · simp [AddsIn, Seq.countOfWeak, Prog.bind_apply, he]
    · simpa [AddsIn, Seq.countOfWeak, Prog.bind_apply, he] using hthrow
    · simpa [AddsIn, Seq.countOfWeak, Prog.bind_apply, he] using ok'

/-- `__shared_count(const __weak_count&, nothrow_t)`. -/
theorem countOfWeakNothrow (hI : Ledger I) {r : CountPtr} (ok : I own h) :
    AddsIn I own .shared (countOfWeakNothrow m r) h := by
  cases r with
  | none => simpa [AddsIn, Seq.countOfWeakNothrow] using ok
  | some b =>
    obtain he | ⟨-, he⟩ | ⟨h', -, he, ok'⟩ := hI.addRefLockNothrow (m := m) (b := b) ok
    · simp [AddsIn, Seq.countOfWeakNothrow, Prog.bind_apply, he]
    · simpa [AddsIn, Seq.countOfWeakNothrow, Prog.bind_apply, he] using ok
    · simpa [AddsIn, Seq.countOfWeakNothrow, Prog.bind_apply, he] using ok'

/-- An assignment to a `_M_pi`: the old reference is dropped and the new one counted. -/
theorem assignCount (hI : Ledger I) {pi r : CountPtr} (ok : I (own.add k pi) h)
    (hown : ∀ b, r = some b → (own.add k pi).admits k b) :
    assignCount m k pi r h = (.stop, h) ∨ ∃ h', assignCount m k pi r h = (.ok r, h') ∧ I (own.add k r) h' := by
  have hreplace : replaceCount m k pi r h = (.stop, h) ∨
      ∃ h', replaceCount m k pi r h = (.ok r, h') ∧ I (own.add k r) h' := by
    obtain he | ⟨h', he, ok'⟩ := hI.copyCount (m := m) ok hown
    · exact .inl (by simp [replaceCount, Prog.bind_apply, he])
    · rw [Owners.add_comm] at ok'
      exact .inr ⟨Seq.dropCount m k pi h', by simp [replaceCount, Prog.bind_apply, he], hI.dropCount ok'⟩
  cases k with
  | shared =>
    unfold Seq.assignCount
    split
    next => exact hreplace
    next hne =>
      obtain rfl := not_not.mp hne
      exact .inr ⟨h, rfl, ok⟩
  | weak => exact hreplace

end Ledger

/-! ## New blocks, storage and elements -/

/-- The new block has one owner. -/
theorem BlocksOk.construct (ok : BlocksOk own h) (md : Managed) (c : Chunk) :
    BlocksOk (own.add .shared (some h.next)) (h.construct md c).2 := by
  have hnew := ok.blocks h.next
  rw [ok.next_none] at hnew
  obtain ⟨h1, h2, h3, h4⟩ := hnew
  refine ⟨fun b => ?_, fun b => ?_⟩
  · by_cases hb : b = h.next
    · subst hb
      simp only [Heap.construct, Function.update_self]
      refine ⟨by simp [Owners.add, h1, Counts.new], by simp [Owners.add, h1, h2, Counts.new], ?_, ?_⟩
      · simp [Owners.add, h3]
      · simp [Owners.add, h4]
    · simp only [Heap.construct, Function.update_of_ne hb]
      simpa [Owners.add, Ne.symm hb] using ok.blocks b
  · by_cases hb : b = h.next
    · subst hb
      simp [Heap.construct]
    · simp only [Heap.construct, Function.update_of_ne hb, ok.named b]
      omega

/-- Nothing happens to the blocks. -/
theorem BlocksOk.quiet {h' : Heap} {new : List Event} (ok : BlocksOk own h) (hblocks : h'.blocks = h.blocks)
    (hnext : h'.next = h.next) (hlog : h'.log = h.log ++ new) (hq : Quiet new) : BlocksOk own h' where
  blocks b := by
    rw [hblocks, hlog, List.count_append, List.count_append, (hq b).1, (hq b).2]
    exact ok.blocks b
  named b := by
    rw [hblocks, hnext]
    exact ok.named b

theorem BlocksOk.emit {es : List Event} (ok : BlocksOk own h) (hq : Quiet es) : BlocksOk own (h.emit es) :=
  ok.quiet rfl rfl rfl hq

/-- A control block is constructed: what it will return is in hand before. -/
theorem HeapOk.construct {md : Managed} {c : Chunk}
    (ok : HeapOk own (fun r => hand r + trade.returned md.dispose r + trade.returned [.deallocate c] r) h) :
    HeapOk (own.add .shared (some h.next)) hand (h.construct md c).2 := by
  have ok' := ok.blocksOk.construct md c
  refine ⟨ok'.blocks, ok'.named, fun r => ?_, ok.safe⟩
  have hbal := ok.balance r
  have hsum : (h.construct md c).2.outstanding r =
      h.outstanding r + Block.outstanding ⟨.new, md, c⟩ r := by
    simp only [Heap.outstanding, Heap.construct, Finset.sum_range_succ, Function.update_self, Option.elim]
    congr 1
    refine Finset.sum_congr rfl ?_
    intro b hb
    rw [Function.update_of_ne (Nat.ne_of_lt (Finset.mem_range.mp hb))]
  have hout : Block.outstanding ⟨.new, md, c⟩ r = trade.returned md.dispose r + trade.returned [.deallocate c] r := by
    simp [Block.outstanding, Counts.due, Counts.new]
  rw [hsum, hout]
  show trade.acquired h.log r = trade.returned h.log r + _ + _
  omega

/-- Calls that acquire only. -/
theorem HeapOk.emit_acquire {es : List Event} (ok : HeapOk own hand h) (hq : Quiet es)
    (hret : ∀ e ∈ es, trade.returns e = none) :
    HeapOk own (fun r => hand r + trade.acquired es r) (h.emit es) where
  blocks := (ok.blocksOk.emit hq).blocks
  named := ok.named
  balance r := by
    have hbal := ok.balance r
    show trade.acquired (h.log ++ es) r = trade.returned (h.log ++ es) r + h.outstanding r + _
    rw [Trade.acquired_append, Trade.returned_append, Trade.returned_eq_zero hret]
    omega
  safe := ok.safe.append_of_returns hret

/-- Calls that return only what is in hand. -/
theorem HeapOk.emit_return {es : List Event} (ok : HeapOk own (fun r => hand r + trade.returned es r) h)
    (hq : Quiet es) (hacq : ∀ e ∈ es, trade.acquires e = none) : HeapOk own hand (h.emit es) where
  blocks := (ok.blocksOk.emit hq).blocks
  named := ok.named
  balance r := by
    have hbal := ok.balance r
    show trade.acquired (h.log ++ es) r = trade.returned (h.log ++ es) r + h.outstanding r + _
    rw [Trade.acquired_append, Trade.returned_append, Trade.acquired_eq_zero hacq]
    omega
  safe := ok.safe.append fun r => by
    have hbal := ok.balance r
    omega

/-- The log alone is in the invariant, not how often the environment was asked. -/
theorem HeapOk.afterFailure (ok : HeapOk own hand h) : HeapOk own hand h.afterFailure :=
  ⟨ok.blocks, ok.named, ok.balance, ok.safe⟩

/-- A control block is allocated and constructed. -/
theorem HeapOk.afterConstruct (md : Managed) {source : Source} {mem : Ptr}
    (ok : HeapOk own (fun r => hand r + trade.returned md.dispose r) h) :
    HeapOk (own.add .shared (some h.next)) hand (h.afterConstruct source mem md) := by
  have hq : Quiet [.allocate ⟨source, .controlBlock, mem, 1⟩] := fun b => by simp
  have hret : ∀ e ∈ [Event.allocate ⟨source, .controlBlock, mem, 1⟩], trade.returns e = none := by simp [trade]
  have ok' := ok.afterFailure.emit_acquire hq hret
  have hacq : ∀ r, trade.acquired [.allocate ⟨source, .controlBlock, mem, 1⟩] r =
      trade.returned [.deallocate ⟨source, .controlBlock, mem, 1⟩] r := by
    intro r
    rw [Trade.acquired_cons, Trade.returned_cons, Trade.acquired_nil, Trade.returned_nil]
    rfl
  simp only [hacq] at ok'
  exact ok'.construct

/-- The constructor with a deleter: what the deleter would return is in hand. -/
theorem HeapOk.ofPtrDeleterAlloc {E : Env} {p : Ptr} {d : Deleter} {a : Source}
    (ok : HeapOk own (fun r => hand r + trade.returned (d.call p) r) h) :
    Adds own hand .shared (SharedCount.ofPtrDeleterAlloc E p d a) h := by
  rw [Adds, SharedCount.ofPtrDeleterAlloc_apply]
  cases E.allocate h.allocations with
  | error e =>
    exact ok.afterFailure.emit_return (Managed.quiet_dispose (.countedDeleter p d))
      (Managed.acquires_dispose (.countedDeleter p d))
  | ok mem => exact HeapOk.afterConstruct (.countedDeleter p d) ok

end SharedPtr.Seq
