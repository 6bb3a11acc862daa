/-
The order in which the elements of an array are destroyed, when it was made by
`make_shared` at run time. The control block destroys them from the last one
on (`_M_dispose_array`), unless they were made for overwriting: `destroy_n`
begins with the first. The guard of the algorithms that construct the elements
begins with the first, too, whatever the elements are initialised with.
-/
import SharedPtr.ElementWork
import SharedPtr.Reassignment

namespace SharedPtr.Seq

open Lib (Prog Result run)

/-! ## Orders in a log -/

namespace Event

/-- The element that is there now. -/
def constructed : Event → Option (Ptr × Nat)
  | .construct p k _ => some (p, k)
  | _ => none

/-- The element that no longer is. -/
def destroyed : Event → Option (Ptr × Nat)
  | .destroyElement p k => some (p, k)
  | _ => none

end Event

/-- The elements that were constructed in `es` are destroyed in `es'`, in the reverse order. -/
def InReverse (es es' : List Event) : Prop :=
  es'.filterMap Event.destroyed = (es.filterMap Event.constructed).reverse

/-- `p[0]` to `p[n - 1]`, in this order. -/
def inOrder (p : Ptr) (n : Nat) : List (Ptr × Nat) := (List.range n).map fun k => (p, k)

theorem inOrder_succ (p : Ptr) (n : Nat) : inOrder p (n + 1) = inOrder p n ++ [(p, n)] := by
  rw [inOrder, inOrder, List.range_succ, List.map_append, List.map_singleton]

/-- The first element is not the last one, when there are two. -/
theorem inOrder_eq_reverse_iff (p : Ptr) (n : Nat) : inOrder p n = (inOrder p n).reverse ↔ n < 2 := by
  constructor
  · intro h
    by_contra hn
    obtain ⟨k, rfl⟩ : ∃ k, n = k + 2 := ⟨n - 2, by omega⟩
    have hhead := congrArg List.head? h
    rw [inOrder_succ p (k + 1), List.reverse_append, List.reverse_singleton, List.singleton_append, List.head?_cons,
      inOrder, List.range_succ_eq_map] at hhead
    simp at hhead
  · intro hn
    obtain rfl | rfl : n = 0 ∨ n = 1 := by omega
    · rfl
    · rfl

variable {p : Ptr} {n : Nat} {a : Source} {via : Option Source}

theorem destroyed_destroyN : (destroyN p n).filterMap Event.destroyed = inOrder p n := by
  rw [destroyN, inOrder, List.filterMap_map, ← List.filterMap_eq_map]
  rfl

theorem destroyed_destroyRange : (destroyRange via p n).filterMap Event.destroyed = inOrder p n := by
  cases via with
  | none => exact destroyed_destroyN
  | some a =>
    induction n with
    | zero => rfl
    | succ n ih =>
      simp only [destroyRange] at ih ⊢
      rw [inOrder_succ, ← ih, List.range_succ, List.flatMap_append, List.filterMap_append]
      rfl

theorem destroyed_destroyElements : (destroyElements a p n).filterMap Event.destroyed = (inOrder p n).reverse := by
  induction n with
  | zero => rfl
  | succ n ih =>
    rw [inOrder_succ, List.reverse_append, List.reverse_singleton, List.singleton_append, ← ih]
    rfl

theorem destroyed_of_ofBuild {es : List Event} (h : ∀ e ∈ es, e.ofBuild) : es.filterMap Event.destroyed = [] := by
  rw [List.filterMap_eq_nil_iff]
  intro e he
  have := h e he
  cases e <;> first | rfl | cases this

theorem constructed_of_ofDispose {es : List Event} (h : ∀ e ∈ es, e.ofDispose) :
    es.filterMap Event.constructed = [] := by
  rw [List.filterMap_eq_nil_iff]
  intro e he
  have := h e he
  cases e <;> first | rfl | cases this

theorem constructed_buildEvents {init : Nat → Init} {failure : Option Exn} (i : Nat) (values : List Nat) :
    inOrder p i ++ (buildEvents via init p failure i values).filterMap Event.constructed =
      inOrder p (i + values.length) := by
  have hcall : ∀ k, (constructCall via (init k) p k).constructed = none := fun k => by cases via <;> rfl
  induction values generalizing i with
  | nil =>
    unfold buildEvents
    split
    · simp
    · simp [hcall]
  | cons v values ih =>
    have hlen : i + (v :: values).length = i + 1 + values.length := by
      rw [List.length_cons]
      omega
    rw [buildEvents, List.filterMap_cons_none (hcall i), hlen, ← ih (i + 1), inOrder_succ, List.append_assoc]
    rfl

variable {c : Chunk} {init : Nat → Init} {B : Built}

theorem constructed_elementEvents :
    (elementEvents c via init p B).filterMap Event.constructed = inOrder p B.values.length := by
  have hbuild : inOrder p 0 ++ (buildEvents via init p B.failure 0 B.values).filterMap Event.constructed =
      inOrder p (0 + B.values.length) := constructed_buildEvents 0 B.values
  rw [elementEvents, List.filterMap_cons_none rfl, ← Nat.zero_add B.values.length, ← hbuild]
  rfl

theorem destroyed_elementEvents : (elementEvents c via init p B).filterMap Event.destroyed = [] := by
  rw [elementEvents, List.filterMap_cons_none rfl]
  exact destroyed_of_ofBuild fun e he => mem_buildEvents he

/-! ## The property -/

section

variable (E : Env) (m : Mode) (L : Layout) (a : Source) (shape : ArrayShape L) (ini : Initial)

/-- The elements are destroyed in the reverse order: those of an array that cannot be finished by
the call, and those of one that can by the last owner's `~__shared_count()`, whatever the program
has done until then. -/
def DestroysInReverse (h : Heap) : Prop :=
  match allocateSharedArray E L a shape ini h with
  | (.throw _, h') => ∃ new, h'.log = h.log ++ new ∧ InReverse new new
  | (.ok made, h') => ∃ new, h'.log = h.log ++ new ∧ ∀ h'', Leads E m h' h'' → LastOwner h'' made.2 →
      ∃ es, (dropCount m .shared made.2 h'').log = h''.log ++ es ∧ InReverse new es
  | (.stop, _) => True

/-- A constructor throws when two elements or more are there. -/
def RollsBackTwo (h : Heap) : Prop :=
  shape.count < 2 ^ 64 ∧ (∃ p, E.allocate h.allocations = .ok p) ∧
    ∃ k < shape.count, 2 ≤ k ∧ (∃ e, E.construct (h.constructions + k) (L.elementInit ini k) = .error e) ∧
      ∀ j < k, ∃ v, E.construct (h.constructions + j) (L.elementInit ini j) = .ok v

/-- Two elements or more are there in the end, to be overwritten. -/
def OverwritesTwo (h : Heap) : Prop :=
  ini = .overwrite ∧ 2 ≤ shape.count ∧ shape.count < 2 ^ 64 ∧
    (∃ raw, E.allocate h.allocations = .ok (some raw) ∧
      (SharedCount.blockAddress L (BitVec.ofNat 64 shape.count) raw).isSome) ∧
    ∀ k < shape.count, ∃ v, E.construct (h.constructions + k) (L.elementInit ini k) = .ok v

end

variable {E : Env} {m : Mode} {L : Layout} {shape : ArrayShape L} {ini : Initial} {h : Heap}

/-! ## Either way out -/

/-- `~_Guarded_ptr()` ends no element. -/
theorem dropArray_log (L : Layout) (base : CountedArrayBase) (p : Ptr) (h : Heap) :
    ∃ es, (SharedCount.dropArray L (base, p) h).log = h.log ++ es ∧
      es.filterMap Event.constructed = [] ∧ es.filterMap Event.destroyed = [] := by
  unfold SharedCount.dropArray
  split
  · exact ⟨_, rfl, rfl, rfl⟩
  · exact ⟨[], (List.append_nil _).symm, rfl, rfl⟩

/-- The guard has the first element destroyed first. -/
theorem inReverse_of_throw (hlt : shape.count < 2 ^ 64) (hp : E.allocate h.allocations = .ok p) {e : Exn}
    (hf : (shape.build E ini h).failure = some e) :
    DestroysInReverse E m L a shape ini h ↔ (shape.build E ini h).values.length < 2 := by
  obtain ⟨B, hB⟩ : ∃ B, B = shape.build E ini h := ⟨_, rfl⟩
  rw [DestroysInReverse, allocateSharedArray_of_allocate hlt hp, ← hB]
  rw [← hB] at hf
  simp only [hf]
  obtain ⟨es, hes, hconstructed, hdestroyed⟩ := dropArray_log L ⟨a, BitVec.ofNat 64 shape.count, false⟩ p
    ((h.afterElements (shape.chunk a p) (ini.via a) (L.elementInit ini) p B).emit
      (destroyRange (ini.via a) p B.values.length))
  rw [hes, Heap.emit]
  simp only [Heap.afterElements_log, List.append_assoc, List.append_cancel_left_eq, exists_eq_left']
  rw [InReverse, List.filterMap_append, List.filterMap_append, List.filterMap_append, List.filterMap_append,
    hconstructed, hdestroyed, constructed_elementEvents, destroyed_elementEvents, destroyed_destroyRange,
    constructed_of_ofDispose fun e he => mem_destroyRange he, List.nil_append, List.append_nil, List.append_nil,
    List.append_nil]
  exact inOrder_eq_reverse_iff p _

/-- The last owner's destructor has the block's elements destroyed. -/
theorem dropCount_last {b : Nat} {md : Managed} {c : Chunk} (hb : IsBlock b md c h) (hlast : LastOwner h (some b)) :
    ∃ es, (dropCount m .shared (some b) h).log = h.log ++ es ∧
      es.filterMap Event.destroyed = md.dispose.filterMap Event.destroyed := by
  obtain ⟨-, counts, hb⟩ := hb
  obtain ⟨b', blk, hb', hblk, hu⟩ := hlast
  cases hb'
  rw [hb] at hblk
  cases hblk
  refine ⟨_, by rw [dropCount, release_of_block hb]; rfl, ?_⟩
  rw [Block.release, Counts.drop, Counts.release_eq, if_pos hu, List.flatMap_cons, Block.call,
    List.filterMap_cons_none rfl, List.filterMap_append, List.filterMap_cons_none rfl]
  split
  · exact List.append_nil _
  · exact List.append_nil _

/-- Which elements the last owner ends is settled when the block is made. -/
theorem forall_leads_iff {b : Nat} {md : Managed} {c : Chunk} (hb : IsBlock b md c h) (hlast : LastOwner h (some b))
    (gone : List (Ptr × Nat)) :
    (∀ h', Leads E m h h' → LastOwner h' (some b) →
        ∃ es, (dropCount m .shared (some b) h').log = h'.log ++ es ∧ es.filterMap Event.destroyed = gone) ↔
      md.dispose.filterMap Event.destroyed = gone := by
  constructor
  · intro hall
    obtain ⟨es, hes, hgone⟩ := hall h (Leads.refl h) hlast
    obtain ⟨es', hes', hdispose⟩ := dropCount_last (m := m) hb hlast
    rw [hes, List.append_cancel_left_eq] at hes'
    rw [← hdispose, ← hes', hgone]
  · intro hgone h' hl hlast'
    rw [← hgone]
    exact dropCount_last (hl.isBlock hb) hlast'

theorem destroyed_dispose (alloc : Source) (n : Nat) (overwrite : Bool) (p : Ptr) (self : Nat) :
    (Managed.countedArray alloc n overwrite p self).dispose.filterMap Event.destroyed =
      if overwrite then inOrder p n else (inOrder p n).reverse := by
  by_cases hn : n = 0
  · subst hn
    cases overwrite <;> rfl
  · rw [Managed.dispose, if_pos hn, disposeArray]
    cases overwrite with
    | true => exact destroyed_destroyN
    | false => exact destroyed_destroyElements

/-- The control block has the first element destroyed last, unless it is to be overwritten. -/
theorem inReverse_of_made (hlt : shape.count < 2 ^ 64) (raw : Nat) (hp : E.allocate h.allocations = .ok (some raw))
    (hf : (shape.build E ini h).failure = none) (self : SizeT)
    (hself : SharedCount.blockAddress L (BitVec.ofNat 64 shape.count) raw = some self) :
    DestroysInReverse E m L a shape ini h ↔ (ini = .overwrite → shape.count < 2) := by
  have hlen : (shape.build E ini h).values.length = shape.count := Env.build_length hf
  obtain ⟨B, hB⟩ : ∃ B, B = shape.build E ini h := ⟨_, rfl⟩
  rw [DestroysInReverse, allocateSharedArray_of_allocate hlt hp, ← hB]
  rw [← hB] at hf hlen
  simp only [hf, Option.bind_some, hself]
  obtain ⟨h', hh⟩ : ∃ h', h' = ((h.afterElements (shape.chunk a (some raw)) (ini.via a) (L.elementInit ini) (some raw)
    B).construct (.countedArray a shape.count (ini = .overwrite) (some raw) self.toNat) (shape.chunk a (some raw))).2 :=
    ⟨_, rfl⟩
  have hlog : h'.log = h.log ++ elementEvents (shape.chunk a (some raw)) (ini.via a) (L.elementInit ini) (some raw) B := by
    rw [hh, ← Heap.afterElements_log]
    rfl
  have hblock : h'.blocks h.next = some ⟨.new, .countedArray a shape.count (ini = .overwrite) (some raw) self.toNat,
      shape.chunk a (some raw)⟩ := by
    rw [hh]
    exact Function.update_self ..
  have hnext : h'.next = h.next + 1 := by
    rw [hh]
    rfl
  have hall := forall_leads_iff (E := E) (m := m) ⟨by omega, .new, hblock⟩ ⟨h.next, _, rfl, hblock, rfl⟩
    (inOrder (some raw) shape.count).reverse
  rw [← hh, hlog]
  simp only [List.append_cancel_left_eq, exists_eq_left', InReverse, constructed_elementEvents, hlen]
  rw [hall, destroyed_dispose]
  by_cases hini : ini = .overwrite
  · simp only [hini, decide_true, if_true, forall_const]
    exact inOrder_eq_reverse_iff (some raw) shape.count
  · simp [hini]

/-! ## The order -/

/-- The constructor that throws, and how many elements there are. -/
theorem rollsBackTwo_iff (hlt : shape.count < 2 ^ 64) (hp : E.allocate h.allocations = .ok p) :
    RollsBackTwo E L shape ini h ↔
      (shape.build E ini h).failure ≠ none ∧ 2 ≤ (shape.build E ini h).values.length := by
  constructor
  · intro ⟨_, _, k, hk, htwo, ⟨e, he⟩, hpre⟩
    have he' : E.construct (h.constructions + k) (L.elementInit ini (0 + k)) = .error e := by rwa [Nat.zero_add]
    have hpre' : ∀ j < k, ∃ v, E.construct (h.constructions + j) (L.elementInit ini (0 + j)) = .ok v := by
      simpa only [Nat.zero_add] using hpre
    have hf : (shape.build E ini h).failure = some e := Env.build_failure.mpr ⟨k, hk, he', hpre'⟩
    have hlen : (shape.build E ini h).values.length = k := Env.build_stops hk he' hpre'
    exact ⟨by rw [hf]; nofun, by omega⟩
  · intro ⟨hf, htwo⟩
    obtain ⟨e, hf⟩ := Option.ne_none_iff_exists'.mp hf
    obtain ⟨k, hk, he, hpre⟩ := Env.build_failure.mp hf
    have hlen : (shape.build E ini h).values.length = k := Env.build_stops hk he hpre
    simp only [Nat.zero_add] at he hpre
    exact ⟨hlt, ⟨p, hp⟩, k, hk, by omega, ⟨e, he⟩, hpre⟩

/-- No constructor throws. -/
theorem ArrayShape.build_complete :
    (shape.build E ini h).failure = none ↔
      ∀ k < shape.count, ∃ v, E.construct (h.constructions + k) (L.elementInit ini k) = .ok v := by
  rw [ArrayShape.build, Env.build_failure_none]
  simp only [Nat.zero_add]

/-- **The reverse order** is kept, but for a guard that destroys two elements or more, and for two
elements or more that are to be overwritten. -/
theorem destroysInReverse_iff (E : Env) (m : Mode) (L : Layout) (a : Source) (shape : ArrayShape L) (ini : Initial)
    (h : Heap) :
    DestroysInReverse E m L a shape ini h ↔ ¬ RollsBackTwo E L shape ini h ∧ ¬ OverwritesTwo E L shape ini h := by
  by_cases hlt : shape.count < 2 ^ 64
  · cases hp : E.allocate h.allocations with
    | error e =>
      -- no storage, so no element
      rw [DestroysInReverse, allocateSharedArray_apply, if_pos hlt, ofCountedArray_apply _ _ rfl, hp]
      refine iff_of_true ⟨[], (List.append_nil _).symm, rfl⟩ ⟨?_, ?_⟩
      · intro ⟨_, ⟨q, hq⟩, _⟩
        rw [hp] at hq
        cases hq
      · intro ⟨_, _, _, ⟨raw, hraw, _⟩, _⟩
        rw [hp] at hraw
        cases hraw
    | ok p =>
      rw [rollsBackTwo_iff hlt hp]
      cases hf : (shape.build E ini h).failure with
      | some e =>
        rw [inReverse_of_throw hlt hp hf]
        have hover : ¬ OverwritesTwo E L shape ini h := by
          intro ⟨_, _, _, _, hall⟩
          rw [ArrayShape.build_complete.mpr hall] at hf
          cases hf
        simp [hover]
      | none =>
        have hall := ArrayShape.build_complete.mp hf
        cases hself : p.bind (SharedCount.blockAddress L (BitVec.ofNat 64 shape.count)) with
        | none =>
          rw [DestroysInReverse, allocateSharedArray_of_allocate hlt hp]
          simp only [hf, hself]
          refine iff_of_true trivial ⟨by simp, ?_⟩
          intro ⟨_, _, _, ⟨raw, hraw, hsome⟩, _⟩
          rw [hp] at hraw
          cases hraw
          rw [Option.bind_some] at hself
          simp [hself] at hsome
        | some self =>
          obtain ⟨raw, rfl, hself⟩ := Option.bind_eq_some_iff.mp hself
          rw [inReverse_of_made hlt _ hp hf _ hself]
          have hover : OverwritesTwo E L shape ini h ↔ ini = .overwrite ∧ 2 ≤ shape.count :=
            ⟨fun ho => ⟨ho.1, ho.2.1⟩,
              fun ho => ⟨ho.1, ho.2, hlt, ⟨raw, hp, Option.isSome_iff_exists.mpr ⟨self, hself⟩⟩, hall⟩⟩
          rw [hover]
          simp
  · rw [DestroysInReverse, allocateSharedArray_apply, if_neg hlt]
    exact iff_of_true trivial ⟨fun hr => hlt hr.1, fun ho => hlt ho.2.2.1⟩

/-- The third of four elements cannot be constructed: the first is destroyed before the second. Four
elements that are to be overwritten are destroyed in the order they were constructed in. -/
theorem first_destroyed_first :
    ¬ DestroysInReverse ⟨fun _ => .ok (some 4096), fun k _ => if k = 2 then .error (.user 5) else .ok k⟩
        (.runTime .mutex true 0) .bytes (.user 0) (.unbounded 4) (.value 1) .empty ∧
      ¬ DestroysInReverse ⟨fun _ => .ok (some 4096), fun k _ => .ok k⟩ (.runTime .mutex true 0) .bytes .std
        (.unbounded 4) .overwrite .empty := by
  rw [inReverse_of_throw (p := some 4096) (by decide) rfl (e := .user 5) rfl,
    inReverse_of_made (by decide) 4096 rfl rfl 4104#64 (by decide)]
  decide

end SharedPtr.Seq
