/-
Critical sections. A section is a program over a memory (`Body`): it reads and
writes cells one at a time, and emits what it does elsewhere. Cells are
guarded by keys. A thread takes the keys of its operation, runs the section,
gives the keys back all at once, and emits what is left to do; threads take
turns at every step. Where each section touches only cells whose keys it holds
(`Guarded.within`), operations are atomic: the machine is linearizable to what
the sections do when run alone (`Guarded.linearizable`).

`published` is for the statements only: the memory as the sections that are
over have left it. No step reads it.
-/
import SharedPtr.Lib.Linearizable

namespace SharedPtr.Lib

variable {L K ε ι Op Res α β : Type} {W : L → Type}

/-! ## Sections -/

/-- A program over cells `L`, the cell `x` holding a `W x`. -/
inductive Body (W : L → Type) (ε α : Type) : Type
  | ret (a : α)
  | read (x : L) (k : W x → Body W ε α)
  | write (x : L) (w : W x) (k : Body W ε α)
  | emit (e : ε) (k : Body W ε α)

namespace Body

def bind : Body W ε α → (α → Body W ε β) → Body W ε β
  | .ret a, f => f a
  | .read x k, f => .read x fun w => (k w).bind f
  | .write x w k, f => .write x w (k.bind f)
  | .emit e k, f => .emit e (k.bind f)

instance : Monad (Body W ε) where
  pure := .ret
  bind := bind

def get (x : L) : Body W ε (W x) := .read x .ret

def put (x : L) (w : W x) : Body W ε Unit := .write x w (.ret ())

def tell (e : ε) : Body W ε Unit := .emit e (.ret ())

/-- The section touches only cells that meet `P`. -/
def Within (P : L → Prop) : Body W ε α → Prop
  | .ret _ => True
  | .read x k => P x ∧ ∀ w, (k w).Within P
  | .write x _ k => P x ∧ k.Within P
  | .emit _ k => k.Within P

section

variable {P : L → Prop}

@[simp] theorem within_pure (a : α) : (pure a : Body W ε α).Within P := trivial

@[simp] theorem within_get {x : L} : (get x : Body W ε (W x)).Within P ↔ P x := by simp [get, Within]

@[simp] theorem within_put {x : L} {w : W x} : (put x w : Body W ε Unit).Within P ↔ P x := by simp [put, Within]

@[simp] theorem within_tell {e : ε} : (tell e : Body W ε Unit).Within P := trivial

theorem Within.bind {b : Body W ε α} {f : α → Body W ε β} (hb : b.Within P) (hf : ∀ a, (f a).Within P) :
    (b >>= f).Within P := by
  induction b with
  | ret a => exact hf a
  | read x k ih => exact ⟨hb.1, fun w => ih w (hb.2 w)⟩
  | write x w k ih => exact ⟨hb.1, ih hb.2⟩
  | emit e k ih => exact ih hb

end

variable [DecidableEq L]

/-- The section run alone: the memory it leaves, and what it returns. -/
def exec (mem : ∀ x, W x) : Body W ε α → (∀ x, W x) × α
  | .ret a => (mem, a)
  | .read x k => (k (mem x)).exec mem
  | .write x w k => k.exec (Function.update mem x w)
  | .emit _ k => k.exec mem

/-- What it emits. -/
def out (mem : ∀ x, W x) : Body W ε α → List ε
  | .ret _ => []
  | .read x k => (k (mem x)).out mem
  | .write x w k => k.out (Function.update mem x w)
  | .emit e k => e :: k.out mem

section

variable {mem mem' : ∀ x, W x} {P : L → Prop}

@[simp] theorem exec_pure (a : α) : (pure a : Body W ε α).exec mem = (mem, a) := rfl

@[simp] theorem out_pure (a : α) : (pure a : Body W ε α).out mem = [] := rfl

@[simp] theorem exec_get (x : L) : (get x : Body W ε (W x)).exec mem = (mem, mem x) := rfl

@[simp] theorem out_get (x : L) : (get x : Body W ε (W x)).out mem = [] := rfl

@[simp] theorem exec_put (x : L) (w : W x) : (put x w : Body W ε Unit).exec mem = (Function.update mem x w, ()) := rfl

@[simp] theorem out_put (x : L) (w : W x) : (put x w : Body W ε Unit).out mem = [] := rfl

@[simp] theorem exec_tell (e : ε) : (tell e : Body W ε Unit).exec mem = (mem, ()) := rfl

@[simp] theorem out_tell (e : ε) : (tell e : Body W ε Unit).out mem = [e] := rfl

@[simp] theorem exec_bind (b : Body W ε α) (f : α → Body W ε β) :
    (b >>= f).exec mem = (f (b.exec mem).2).exec (b.exec mem).1 := by
  induction b generalizing mem with
  | ret a => rfl
  | read x k ih => exact ih (mem x)
  | write x w k ih => exact ih
  | emit e k ih => exact ih

@[simp] theorem out_bind (b : Body W ε α) (f : α → Body W ε β) :
    (b >>= f).out mem = b.out mem ++ (f (b.exec mem).2).out (b.exec mem).1 := by
  induction b generalizing mem with
  | ret a => rfl
  | read x k ih => exact ih (mem x)
  | write x w k ih => exact ih
  | emit e k ih => exact congrArg (e :: ·) ih

/-- A section leaves the cells it does not touch. -/
theorem Within.frame {b : Body W ε α} (hb : b.Within P) {x : L} (hx : ¬P x) : (b.exec mem).1 x = mem x := by
  induction b generalizing mem with
  | ret a => rfl
  | read y k ih => exact ih (mem y) (hb.2 (mem y))
  | write y w k ih =>
    have hne : x ≠ y := fun h => hx (h ▸ hb.1)
    exact (ih hb.2).trans (Function.update_of_ne hne ..)
  | emit e k ih => exact ih hb

/-- It depends only on those it touches. -/
theorem Within.agree {b : Body W ε α} (hb : b.Within P) (h : ∀ x, P x → mem x = mem' x) :
    (b.exec mem).2 = (b.exec mem').2 ∧ (∀ x, P x → (b.exec mem).1 x = (b.exec mem').1 x) ∧
      b.out mem = b.out mem' := by
  induction b generalizing mem mem' with
  | ret a => exact ⟨rfl, h, rfl⟩
  | read y k ih =>
    simp only [exec, out, h y hb.1]
    exact ih (mem' y) (hb.2 (mem' y)) h
  | write y w k ih =>
    refine ih hb.2 ?_
    intro x hx
    by_cases hxy : x = y
    · subst hxy
      simp
    · simp [hxy, h x hx]
  | emit e k ih =>
    obtain ⟨hres, hmem, hout⟩ := ih hb h
    exact ⟨hres, hmem, congrArg (e :: ·) hout⟩

end

end Body

/-! ## The machine -/

/-- Operations as critical sections. -/
structure Guarded (W : L → Type) (K ε Op Res : Type) where
  /-- The key that guards a cell. -/
  key : L → K
  keys : Op → List K
  body : Op → Body W ε Res
  /-- What is done once the keys are given back. -/
  tail : Res → List ε
  within : ∀ op, (body op).Within fun x => key x ∈ keys op

/-- Where a thread is. -/
inductive Place (W : L → Type) (ε Op Res : Type)
  | idle
  | waiting (op : Op)
  /-- It holds the keys; it has emitted `done`, and `left` is still to run. -/
  | inside (op : Op) (done : List ε) (left : Body W ε Res)
  | leaving (res : Res) (todo : List ε)

namespace Guarded

structure State (W : L → Type) (K ε ι Op Res : Type) where
  mem : ∀ x, W x
  owner : K → Option ι
  thr : ι → Place W ε Op Res
  published : ∀ x, W x

inductive Act (Op : Type)
  | begin (op : Op)
  | run

variable [DecidableEq L] [DecidableEq K] [DecidableEq ι] (G : Guarded W K ε Op Res)

/-- Whether all keys are free. -/
def free (owner : K → Option ι) (ks : List K) : Bool := ks.all fun k => (owner k).isNone

/-- The next step of an operation. -/
def exec (s : State W K ε ι Op Res) (t : ι) : Place W ε Op Res → Option (State W K ε ι Op Res)
  | .idle => none
  | .waiting op =>
    if free s.owner (G.keys op) then
      some { s with
        owner := fun k => if k ∈ G.keys op then some t else s.owner k
        thr := Function.update s.thr t (.inside op [] (G.body op)) }
    else none
  | .inside op done (.read x k) => some { s with thr := Function.update s.thr t (.inside op done (k (s.mem x))) }
  | .inside op done (.write x w k) =>
    some { s with mem := Function.update s.mem x w, thr := Function.update s.thr t (.inside op done k) }
  | .inside op done (.emit e k) => some { s with thr := Function.update s.thr t (.inside op (done ++ [e]) k) }
  | .inside op _ (.ret r) =>
    some { s with
      owner := fun k => if k ∈ G.keys op then none else s.owner k
      thr := Function.update s.thr t (.leaving r (G.tail r))
      published := fun x => if G.key x ∈ G.keys op then s.mem x else s.published x }
  | .leaving res (_ :: todo) => some { s with thr := Function.update s.thr t (.leaving res todo) }
  | .leaving _ [] => some { s with thr := Function.update s.thr t .idle }

def step (s : State W K ε ι Op Res) (l : ι × Act Op) : Option (State W K ε ι Op Res) :=
  match l.2, s.thr l.1 with
  | .begin op, .idle => some { s with thr := Function.update s.thr l.1 (.waiting op) }
  | .begin _, _ => none
  | .run, pl => G.exec s l.1 pl

variable {G} in
theorem step_begin {s s' : State W K ε ι Op Res} {t : ι} {op : Op} (h : G.step s (t, .begin op) = some s') :
    s.thr t = .idle ∧ s' = { s with thr := Function.update s.thr t (.waiting op) } := by
  simp only [step] at h
  cases hpl : s.thr t with
  | idle =>
    rw [hpl] at h
    exact ⟨rfl, (Option.some.inj h).symm⟩
  | waiting | inside | leaving => simp [hpl] at h

variable {G} in
/-- A step changes no other thread. -/
theorem step_thr_ne {s s' : State W K ε ι Op Res} {l : ι × Act Op} (h : G.step s l = some s') {u : ι} (hu : u ≠ l.1) :
    s'.thr u = s.thr u := by
  obtain ⟨t, act⟩ := l
  cases act with
  | begin op =>
    obtain ⟨-, rfl⟩ := step_begin h
    exact Function.update_of_ne hu ..
  | run =>
    simp only [step] at h
    cases hpl : s.thr t with
    | idle => rw [hpl] at h; cases h
    | waiting op =>
      rw [hpl] at h
      simp only [exec, Option.ite_none_right_eq_some, Option.some.injEq] at h
      obtain ⟨-, rfl⟩ := h
      exact Function.update_of_ne hu ..
    | inside op done left => rw [hpl] at h; cases left <;> cases h <;> exact Function.update_of_ne hu ..
    | leaving res todo => rw [hpl] at h; cases todo <;> cases h <;> exact Function.update_of_ne hu ..

/-- What a step emits. -/
def emitted (s : State W K ε ι Op Res) (l : ι × Act Op) : List ε :=
  match l.2, s.thr l.1 with
  | .run, .inside _ _ (.emit e _) => [e]
  | .run, .leaving _ (e :: _) => [e]
  | _, _ => []

def init (mem : ∀ x, W x) : State W K ε ι Op Res := ⟨mem, fun _ => none, fun _ => .idle, mem⟩

/-! ## Sections do not disturb one another -/

/-- What holds while sections run. -/
structure Inv (s : State W K ε ι Op Res) : Prop where
  owns : ∀ t op done left, s.thr t = .inside op done left → ∀ k ∈ G.keys op, s.owner k = some t
  within : ∀ t op done left, s.thr t = .inside op done left → left.Within fun x => G.key x ∈ G.keys op
  /-- What is left will have done what the section does to the published memory. -/
  result : ∀ t op done left, s.thr t = .inside op done left →
    (left.exec s.mem).2 = ((G.body op).exec s.published).2
  cells : ∀ t op done left, s.thr t = .inside op done left → ∀ x, G.key x ∈ G.keys op →
    (left.exec s.mem).1 x = ((G.body op).exec s.published).1 x
  emits : ∀ t op done left, s.thr t = .inside op done left →
    done ++ left.out s.mem = (G.body op).out s.published
  /-- A cell nobody guards is published. -/
  free : ∀ x, s.owner (G.key x) = none → s.mem x = s.published x
  /-- Only threads inside hold keys. -/
  holder : ∀ k t, s.owner k = some t → ∃ op done left, s.thr t = .inside op done left ∧ k ∈ G.keys op
  /-- What is left to do afterwards is what is left of the tail. -/
  tail : ∀ t res todo, s.thr t = .leaving res todo → todo <:+ G.tail res

variable {G} {s s' : State W K ε ι Op Res} {t u : ι}

omit [DecidableEq K] [DecidableEq ι] in
/-- Two threads inside hold different keys. -/
theorem Inv.disjoint (hi : Inv G s) {op op' : Op} {done done' : List ε} {left left' : Body W ε Res}
    (ht : s.thr t = .inside op done left) (hu : s.thr u = .inside op' done' left') (h : u ≠ t) {k : K}
    (hk : k ∈ G.keys op') : k ∉ G.keys op := by
  intro hk'
  have hboth := (hi.owns t op done left ht k hk').symm.trans (hi.owns u op' done' left' hu k hk)
  exact h (Option.some.inj hboth).symm

omit [DecidableEq K] in
/-- A thread moves to a place outside, or goes on inside; the others' cells and
keys stay. -/
theorem Inv.move (hi : Inv G s) {pl : Place W ε Op Res} {mem : ∀ x, W x} {owner : K → Option ι}
    {published : ∀ x, W x}
    (hkeys : ∀ u op done left, u ≠ t → s.thr u = .inside op done left → ∀ k ∈ G.keys op, owner k = some u)
    (hcells : ∀ u op done left, u ≠ t → s.thr u = .inside op done left → ∀ x, G.key x ∈ G.keys op →
      mem x = s.mem x ∧ published x = s.published x)
    (hfree : ∀ x, owner (G.key x) = none → mem x = published x)
    (hholder : ∀ k u, owner k = some u → u ≠ t → s.owner k = some u)
    (hself : ∀ k, owner k = some t → ∃ op done left, pl = .inside op done left ∧ k ∈ G.keys op)
    (htail : ∀ res todo, pl = .leaving res todo → todo <:+ G.tail res)
    (hown : ∀ op done left, pl = .inside op done left → (∀ k ∈ G.keys op, owner k = some t) ∧
      left.Within (fun x => G.key x ∈ G.keys op) ∧ (left.exec mem).2 = ((G.body op).exec published).2 ∧
      (∀ x, G.key x ∈ G.keys op → (left.exec mem).1 x = ((G.body op).exec published).1 x) ∧
      done ++ left.out mem = (G.body op).out published) :
    Inv G ⟨mem, owner, Function.update s.thr t pl, published⟩ := by
  have hcase (u : ι) (op : Op) (done : List ε) (left : Body W ε Res)
      (h : Function.update s.thr t pl u = .inside op done left) :
      (∀ k ∈ G.keys op, owner k = some u) ∧ left.Within (fun x => G.key x ∈ G.keys op) ∧
      (left.exec mem).2 = ((G.body op).exec published).2 ∧
      (∀ x, G.key x ∈ G.keys op → (left.exec mem).1 x = ((G.body op).exec published).1 x) ∧
      done ++ left.out mem = (G.body op).out published := by
    by_cases hut : u = t
    · subst hut
      rw [Function.update_self] at h
      exact hown op done left h
    · rw [Function.update_of_ne hut] at h
      have hsame := hcells u op done left hut h
      have hwithin := hi.within u op done left h
      obtain ⟨hres, hmem, hout⟩ := hwithin.agree fun x hx => (hsame x hx).1
      obtain ⟨hres', hmem', hout'⟩ := (G.within op).agree fun x hx => (hsame x hx).2
      refine ⟨hkeys u op done left hut h, hwithin, ?_, fun x hx => ?_, ?_⟩
      · rw [hres, hres', hi.result u op done left h]
      · rw [hmem x hx, hmem' x hx, hi.cells u op done left h x hx]
      · rw [hout, hout', hi.emits u op done left h]
  refine ⟨fun u op done left h => (hcase u op done left h).1, fun u op done left h => (hcase u op done left h).2.1,
    fun u op done left h => (hcase u op done left h).2.2.1, fun u op done left h => (hcase u op done left h).2.2.2.1,
    fun u op done left h => (hcase u op done left h).2.2.2.2, hfree, fun k u hk => ?_, fun u res todo h => ?_⟩
  · by_cases hut : u = t
    · subst hut
      simpa using hself k hk
    · simpa [hut] using hi.holder k u (hholder k u hk hut)
  · by_cases hut : u = t
    · subst hut
      exact htail res todo (by simpa using h)
    · exact hi.tail u res todo (by simpa [hut] using h)

omit [DecidableEq K] in
/-- A thread outside stays outside. -/
theorem Inv.outside (hi : Inv G s) {pl : Place W ε Op Res} (hout : ∀ op done left, s.thr t ≠ .inside op done left)
    (hpl : ∀ op done left, pl ≠ .inside op done left) (htail : ∀ res todo, pl = .leaving res todo → todo <:+ G.tail res) :
    Inv G { s with thr := Function.update s.thr t pl } := by
  refine hi.move (fun u op done left _ h => hi.owns u op done left h) (fun _ _ _ _ _ _ _ _ => ⟨rfl, rfl⟩) hi.free
    (fun _ _ hk _ => hk) (fun k hk => ?_) htail fun op done left h => absurd h (hpl op done left)
  obtain ⟨op, done, left, hin, -⟩ := hi.holder k t hk
  exact absurd hin (hout op done left)

omit [DecidableEq K] in
/-- A thread inside goes on, and may write what it guards. -/
theorem Inv.inside (hi : Inv G s) {op : Op} {done done' : List ε} {left left' : Body W ε Res} {mem : ∀ x, W x}
    (hpl : s.thr t = .inside op done left) (hwithin : left'.Within fun x => G.key x ∈ G.keys op)
    (hmem : ∀ x, G.key x ∉ G.keys op → mem x = s.mem x) (hexec : left'.exec mem = left.exec s.mem)
    (hout : done' ++ left'.out mem = done ++ left.out s.mem) :
    Inv G { s with mem, thr := Function.update s.thr t (.inside op done' left') } := by
  refine hi.move (fun u op' done left _ h => hi.owns u op' done left h) (fun u op' done₁ left₁ hu h x hx => ?_)
    (fun x hx => ?_) (fun _ _ hk _ => hk) (fun k hk => ?_) (fun _ _ h => by cases h) fun op' done₁ left₁ hin => ?_
  · exact ⟨hmem x (hi.disjoint hpl h hu hx), rfl⟩
  · have hkey : G.key x ∉ G.keys op := by
      intro hkey
      rw [hi.owns t op done left hpl _ hkey] at hx
      cases hx
    rw [hmem x hkey]
    exact hi.free x hx
  · obtain ⟨op₀, done₀, left₀, hin, hmem₀⟩ := hi.holder k t hk
    rw [hpl] at hin
    cases hin
    exact ⟨op, done', left', rfl, hmem₀⟩
  · cases hin
    refine ⟨hi.owns t op done left hpl, hwithin, ?_, ?_, ?_⟩
    · rw [hexec]
      exact hi.result t op done left hpl
    · rw [hexec]
      exact hi.cells t op done left hpl
    · rw [hout]
      exact hi.emits t op done left hpl

omit [DecidableEq K] [DecidableEq ι] in
theorem free_iff {owner : K → Option ι} {ks : List K} : free owner ks = true ↔ ∀ k ∈ ks, owner k = none := by
  simp [free]

/-- **Every step keeps the invariant.** By what is left of the section. -/
theorem exec_inv (hi : Inv G s) {pl : Place W ε Op Res} (hpl : s.thr t = pl) (h : G.exec s t pl = some s') :
    Inv G s' := by
  cases pl with
  | idle => cases h
  | waiting op =>
    simp only [exec, Option.ite_none_right_eq_some, Option.some.injEq] at h
    obtain ⟨hfree, rfl⟩ := h
    rw [free_iff] at hfree
    have hother (u : ι) (op' done left) (hu : s.thr u = .inside op' done left) (k : K) (hk : k ∈ G.keys op') :
        k ∉ G.keys op := by
      intro hk'
      have hown := hi.owns u op' done left hu k hk
      rw [hfree k hk'] at hown
      cases hown
    refine hi.move (fun u op' done left _ hu k hk => ?_) (fun _ _ _ _ _ _ _ _ => ⟨rfl, rfl⟩) (fun x hx => ?_)
      (fun k u hk hut => ?_) (fun k hk => ?_) (fun _ _ h => by cases h) fun op' done left hin => ?_
    · rw [if_neg (hother u op' done left hu k hk)]
      exact hi.owns u op' done left hu k hk
    · split at hx
      · cases hx
      · exact hi.free x hx
    · split at hk
      · exact absurd (Option.some.inj hk).symm hut
      · exact hk
    · split at hk
      case isTrue hkey => exact ⟨op, [], G.body op, rfl, hkey⟩
      case isFalse =>
        obtain ⟨op', done, left, hin, -⟩ := hi.holder k t hk
        rw [hpl] at hin
        cases hin
    · cases hin
      obtain ⟨hres, hmem, hout⟩ := (G.within op).agree fun x hx => hi.free x (hfree _ hx)
      exact ⟨fun k hk => if_pos hk, G.within op, hres, hmem, hout⟩
  | inside op done left =>
    have hwithin := hi.within t op done left hpl
    cases left with
    | read x k =>
      cases h
      exact hi.inside hpl (hwithin.2 _) (fun _ _ => rfl) rfl rfl
    | write x w k =>
      cases h
      refine hi.inside hpl hwithin.2 (fun y hy => ?_) rfl rfl
      have hne : y ≠ x := by
        rintro rfl
        exact hy hwithin.1
      exact Function.update_of_ne hne ..
    | emit e k =>
      cases h
      exact hi.inside hpl hwithin (fun _ _ => rfl) rfl (by simp [Body.out])
    | ret r =>
      cases h
      refine hi.move (fun u op' done' left' hu h k hk => ?_) (fun u op' done' left' hu h x hx => ⟨rfl, ?_⟩)
        (fun x hx => ?_) (fun k u hk hut => ?_) (fun k hk => ?_) (fun res todo h => ?_) (fun _ _ _ hin => by cases hin)
      · rw [if_neg (hi.disjoint hpl h hu hk)]
        exact hi.owns u op' done' left' h k hk
      · exact if_neg (hi.disjoint hpl h hu hx)
      · split at hx
        case isTrue hkey => rw [if_pos hkey]
        case isFalse hkey => rw [if_neg hkey]; exact hi.free x hx
      · split at hk
        · cases hk
        · exact hk
      · split at hk
        case isTrue => cases hk
        case isFalse hkey =>
          obtain ⟨op', done', left', hin, hmem⟩ := hi.holder k t hk
          rw [hpl] at hin
          cases hin
          exact absurd hmem hkey
      · cases h
        exact List.suffix_refl _
  | leaving res todo =>
    cases todo with
    | nil =>
      cases h
      exact hi.outside (by simp [hpl]) (by simp) (by simp)
    | cons e todo =>
      cases h
      refine hi.outside (by simp [hpl]) (by simp) fun res' todo' h => ?_
      cases h
      exact (List.suffix_cons e todo).trans (hi.tail t res _ hpl)

theorem step_inv (hi : Inv G s) {l : ι × Act Op} (h : G.step s l = some s') : Inv G s' := by
  unfold step at h
  split at h
  case h_1 hidle =>
    cases h
    exact hi.outside (by simp [hidle]) (by simp) (by simp)
  case h_2 => cases h
  case h_3 => exact exec_inv hi rfl h

omit [DecidableEq K] [DecidableEq ι] in
theorem init_inv (mem : ∀ x, W x) : Inv G (init mem : State W K ε ι Op Res) :=
  ⟨by simp [init], by simp [init], by simp [init], by simp [init], by simp [init], fun _ _ => rfl, by simp [init],
    by simp [init]⟩

omit [DecidableEq ι] in
/-- What a section that is over has published. -/
theorem Inv.published_eq (hi : Inv G s) {op : Op} {done : List ε} {r : Res}
    (hpl : s.thr t = .inside op done (.ret r)) :
    (fun x => if G.key x ∈ G.keys op then s.mem x else s.published x) = ((G.body op).exec s.published).1 := by
  funext x
  by_cases hx : G.key x ∈ G.keys op
  · rw [if_pos hx]
    exact hi.cells t op done (.ret r) hpl x hx
  · rw [if_neg hx]
    exact ((G.within op).frame hx).symm

/-! ## Linearizability -/

section

variable {Abs Ans : Type} {abs : (∀ x, W x) → Abs} {spec : Spec Abs Op Ans} {answer : Res → Ans}

/-- Calls, effects and answers: an operation takes effect when it gives back its keys. -/
def observe (answer : Res → Ans) (s : State W K ε ι Op Res) (l : ι × Act Op) : Option (Event ι Op Ans) :=
  match l.2, s.thr l.1 with
  | .begin op, _ => some (.call l.1 op)
  | .run, .inside op _ (.ret r) => some (.effect l.1 op (answer r))
  | .run, .leaving res [] => some (.ret l.1 (answer res))
  | .run, _ => none

def status (answer : Res → Ans) : Place W ε Op Res → Status Op Ans
  | .idle => .idle
  | .waiting op | .inside op _ _ => .called op
  | .leaving res _ => .done (answer res)

/-- The published memory and the operations under way. -/
def view (abs : (∀ x, W x) → Abs) (answer : Res → Ans) (s : State W K ε ι Op Res) : Abs × (ι → Status Op Ans) :=
  (abs s.published, fun t => status answer (s.thr t))

omit [DecidableEq L] [DecidableEq K] in
theorem view_update (pl : Place W ε Op Res) (mem published : ∀ x, W x) (owner : K → Option ι) :
    view abs answer ⟨mem, owner, Function.update s.thr t pl, published⟩ =
      (abs published, Function.update (view abs answer s).2 t (status answer pl)) := by
  refine Prod.ext rfl (funext ?_)
  intro u
  by_cases hut : u = t
  · subst hut
    simp [view]
  · simp [view, hut]

omit [DecidableEq L] [DecidableEq K] in
theorem view_keep {pl : Place W ε Op Res} {mem : ∀ x, W x} {owner : K → Option ι}
    (h : status answer pl = status answer (s.thr t)) :
    view abs answer ⟨mem, owner, Function.update s.thr t pl, s.published⟩ = view abs answer s := by
  rw [view_update, h]
  exact Prod.ext rfl (Function.update_eq_self _ _)

/-- A step of the machine is one of the atomic object. -/
def Rel (G : Guarded W K ε Op Res) (abs : (∀ x, W x) → Abs) (answer : Res → Ans) (s : State W K ε ι Op Res)
    (x : Abs × (ι → Status Op Ans)) : Prop := Inv G s ∧ x = view abs answer s

/-- **Sections that run alone do what the specification says, and touch only
what they guard: then so do sections that take turns.** -/
theorem step_matched
    (hspec : ∀ op mem, spec (abs mem) op = (abs ((G.body op).exec mem).1, answer ((G.body op).exec mem).2))
    {x : Abs × (ι → Status Op Ans)} {l : ι × Act Op} (hR : Rel G abs answer s x) (h : G.step s l = some s') :
    Matched spec (Rel G abs answer) s' x (observe answer s l) := by
  obtain ⟨hi, rfl⟩ := hR
  have hi' := step_inv hi h
  obtain ⟨t, act⟩ := l
  cases act with
  | begin op =>
    obtain ⟨hidle, rfl⟩ := step_begin h
    refine ⟨_, .call op (by simp [status, hidle]), hi', ?_⟩
    rw [view_update]
    rfl
  | run =>
    simp only [step] at h
    cases hpl : s.thr t with
    | idle => rw [hpl] at h; cases h
    | waiting op =>
      rw [hpl] at h
      simp only [exec, Option.ite_none_right_eq_some, Option.some.injEq] at h
      obtain ⟨-, rfl⟩ := h
      simp only [observe, hpl]
      exact ⟨hi', (view_keep (by rw [hpl]; rfl)).symm⟩
    | inside op done left =>
      rw [hpl] at h
      cases left with
      | read | write | emit =>
        cases h
        simp only [observe, hpl]
        exact ⟨hi', (view_keep (by rw [hpl]; rfl)).symm⟩
      | ret r =>
        cases h
        simp only [observe, hpl]
        have hres : r = ((G.body op).exec s.published).2 := hi.result t op done (.ret r) hpl
        have hstep : AtomicStep spec (abs s.published, (view abs answer s).2)
            (.effect t op (spec (abs s.published) op).2)
            ((spec (abs s.published) op).1, Function.update (view abs answer s).2 t
              (.done (spec (abs s.published) op).2)) := .effect op (by simp [view, status, hpl])
        rw [hspec, ← hres] at hstep
        refine ⟨_, hstep, hi', ?_⟩
        rw [view_update, hi.published_eq hpl]
        rfl
    | leaving res todo =>
      rw [hpl] at h
      cases todo with
      | cons e todo =>
        cases h
        simp only [observe, hpl]
        exact ⟨hi', (view_keep (by rw [hpl]; rfl)).symm⟩
      | nil =>
        cases h
        simp only [observe, hpl]
        refine ⟨_, .ret _ (by simp [status, hpl]), hi', ?_⟩
        rw [view_update]
        rfl

end

end Guarded

end SharedPtr.Lib
