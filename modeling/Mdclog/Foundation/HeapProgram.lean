import Mathlib.Logic.Function.Basic
import Mathlib.Tactic.Common

/-! Programs over a heap of blocks and one pointer slot, and their total
correctness. Every access to memory is one command; a command that reads or
frees a dead block faults. -/
namespace Foundation.HeapProgram

abbrev Addr := Nat

/-- A pointer, with `none` for the null pointer. -/
abbrev Pointer := Option Addr

/-- The live blocks. -/
abbrev Heap (B : Type) := Addr → Option B

/-- What one thread can reach: the heap, its slot, and the blocks it has
freed, the latest first. -/
structure Memory (B : Type) where
  heap : Heap B
  slot : Pointer
  freed : List Addr

def Memory.set (s : Memory B) (a : Addr) (block : Option B) : Memory B :=
  { s with heap := Function.update s.heap a block }

@[simp] theorem Memory.set_slot (s : Memory B) (a : Addr) (block : Option B) :
    (s.set a block).slot = s.slot := rfl

@[simp] theorem Memory.set_freed (s : Memory B) (a : Addr) (block : Option B) :
    (s.set a block).freed = s.freed := rfl

@[simp] theorem Memory.set_heap_self (s : Memory B) (a : Addr) (block : Option B) :
    (s.set a block).heap a = block := by
  simp [Memory.set]

theorem Memory.set_heap_of_ne (s : Memory B) {a c : Addr} (block : Option B) (h : c ≠ a) :
    (s.set a block).heap c = s.heap c := by
  simp [Memory.set, h]

theorem Memory.set_set (s : Memory B) (a : Addr) (block block' : Option B) :
    (s.set a block).set a block' = s.set a block' := by
  simp [Memory.set]

def Memory.release (s : Memory B) (a : Addr) : Memory B :=
  { s.set a none with freed := a :: s.freed }

@[simp] theorem Memory.release_slot (s : Memory B) (a : Addr) : (s.release a).slot = s.slot := rfl

@[simp] theorem Memory.release_freed (s : Memory B) (a : Addr) :
    (s.release a).freed = a :: s.freed := rfl

@[simp] theorem Memory.release_heap_self (s : Memory B) (a : Addr) :
    (s.release a).heap a = none := s.set_heap_self a none

theorem Memory.release_heap_of_ne (s : Memory B) {a c : Addr} (h : c ≠ a) :
    (s.release a).heap c = s.heap c := s.set_heap_of_ne none h

theorem Memory.release_dead (s : Memory B) {a : Addr} (c : Addr) (h : s.heap a = none) :
    (s.release c).heap a = none := by
  by_cases hc : a = c
  · rw [hc, s.release_heap_self]
  · rw [s.release_heap_of_ne hc, h]

/-- One access to memory. `load` and `store` see a field of a block and have no
meaning on a block without it; `trySlot` sets the slot if the allocator has memory
for that, and says whether it had. -/
inductive Cmd (B : Type) : Type → Type 1
  | malloc (block : B) : Cmd B Pointer
  | load {β : Type} (p : Pointer) (field : B → Option β) : Cmd B β
  | store (p : Pointer) (field : B → Option B) : Cmd B Unit
  | free (p : Pointer) : Cmd B Unit
  | getSlot : Cmd B Pointer
  | setSlot (p : Pointer) : Cmd B Unit
  | trySlot (p : Pointer) : Cmd B Bool

/-- The effect of a command, `none` for a fault. Only `malloc` and `trySlot` use
`choice`: the address the allocator picked, or the null pointer. What it gives to
`trySlot` is no block of the program. -/
def Cmd.exec (choice : Pointer) : Cmd B β → Memory B → Option (β × Memory B)
  | .malloc block, s =>
      match choice with
      | none => some (none, s)
      | some a => some (some a, s.set a (some block))
  | .load p field, s => do
      let a ← p
      let block ← s.heap a
      let value ← field block
      return (value, s)
  | .store p field, s => do
      let a ← p
      let block ← s.heap a
      let block ← field block
      return ((), s.set a (some block))
  | .free none, s => some ((), s)
  | .free (some a), s => do
      let _ ← s.heap a
      return ((), s.release a)
  | .getSlot, s => some (s.slot, s)
  | .setSlot p, s => some ((), { s with slot := p })
  | .trySlot p, s =>
      match choice with
      | none => some (false, s)
      | some _ => some (true, { s with slot := p })

/-- The choices an allocator has: a dead address and, where `fails`, none. -/
def Cmd.Legal (fails : Prop) (heap : Heap B) : Cmd B β → Pointer → Prop
  | .malloc _, none | .trySlot _, none => fails
  | .malloc _, some a | .trySlot _, some a => heap a = none
  | _, choice => choice = none

/-- A program: commands in sequence and loops. `iter` runs its body on a loop
state until the body leaves the loop with a value. -/
inductive Prog (B : Type) : Type → Type 1
  | ret {α : Type} (value : α) : Prog B α
  | act {α β : Type} (c : Cmd B β) (next : β → Prog B α) : Prog B α
  | iter {α β σ : Type} (body : σ → Prog B (σ ⊕ β)) (state : σ) (next : β → Prog B α) : Prog B α

def Prog.bind : Prog B α → (α → Prog B β) → Prog B β
  | .ret value, f => f value
  | .act c next, f => .act c fun result => (next result).bind f
  | .iter body state next, f => .iter body state fun value => (next value).bind f

instance : Monad (Prog B) where
  pure := .ret
  bind := .bind

def malloc (block : B) : Prog B Pointer := .act (.malloc block) .ret

def load (p : Pointer) (field : B → Option β) : Prog B β := .act (.load p field) .ret

def store (p : Pointer) (field : B → Option B) : Prog B Unit := .act (.store p field) .ret

def free (p : Pointer) : Prog B Unit := .act (.free p) .ret

def getSlot : Prog B Pointer := .act .getSlot .ret

def setSlot (p : Pointer) : Prog B Unit := .act (.setSlot p) .ret

def trySlot (p : Pointer) : Prog B Bool := .act (.trySlot p) .ret

def loop (body : σ → Prog B (σ ⊕ β)) (state : σ) : Prog B β := .iter body state .ret

/-- One round of a loop. -/
def Prog.unroll (body : σ → Prog B (σ ⊕ β)) (state : σ) (next : β → Prog B α) : Prog B α :=
  (body state).bind fun
    | .inl state => .iter body state next
    | .inr value => next value

theorem Prog.bind_assoc (p : Prog B α) (f : α → Prog B β) (g : β → Prog B γ) :
    (p.bind f).bind g = p.bind fun value => (f value).bind g := by
  induction p with
  | ret value => rfl
  | act c next ih => simp only [Prog.bind, ih]
  | iter body state next _ ih => simp only [Prog.bind, ih]

theorem Prog.unroll_bind (body : σ → Prog B (σ ⊕ β)) (state : σ) (next : β → Prog B α)
    (f : α → Prog B γ) :
    (Prog.unroll body state next).bind f = Prog.unroll body state fun v => (next v).bind f := by
  unfold Prog.unroll
  rw [Prog.bind_assoc]
  congr 1
  funext result
  cases result with
  | inl state => rfl
  | inr value => rfl

/-- Total correctness: from `s` every run of the program is free of faults,
keeps `inv` at every step, ends, and ends in `post`. -/
inductive WP (fails : Prop) (inv : Memory B → Prop) (post : α → Memory B → Prop) :
    Prog B α → Memory B → Prop
  | ret {value : α} {s : Memory B} (hinv : inv s) (hpost : post value s) :
      WP fails inv post (.ret value) s
  | act {β : Type} {c : Cmd B β} {next : β → Prog B α} {s : Memory B} (hinv : inv s)
      (hsafe : ∀ choice, c.Legal fails s.heap choice → (c.exec choice s).isSome)
      (hnext : ∀ choice result s', c.Legal fails s.heap choice →
        c.exec choice s = some (result, s') → WP fails inv post (next result) s') :
      WP fails inv post (.act c next) s
  | iter {β σ : Type} {body : σ → Prog B (σ ⊕ β)} {state : σ} {next : β → Prog B α}
      {s : Memory B} (hinv : inv s) (hnext : WP fails inv post (.unroll body state next) s) :
      WP fails inv post (.iter body state next) s

variable {fails : Prop} {inv : Memory B → Prop} {s : Memory B}

theorem WP.step_inv {post : α → Memory B → Prop} {p : Prog B α} (h : WP fails inv post p s) :
    inv s := by
  cases h <;> assumption

theorem WP.ret_post {post : α → Memory B → Prop} {value : α}
    (h : WP fails inv post (.ret value) s) : post value s := by
  cases h
  assumption

theorem WP.act_safe {post : α → Memory B → Prop} {c : Cmd B β} {next : β → Prog B α}
    (h : WP fails inv post (.act c next) s) {choice : Pointer}
    (hlegal : c.Legal fails s.heap choice) : (c.exec choice s).isSome := by
  cases h with
  | act _ hsafe _ => exact hsafe choice hlegal

theorem WP.act_next {post : α → Memory B → Prop} {c : Cmd B β} {next : β → Prog B α}
    (h : WP fails inv post (.act c next) s) {choice : Pointer} {result : β} {s' : Memory B}
    (hlegal : c.Legal fails s.heap choice) (hexec : c.exec choice s = some (result, s')) :
    WP fails inv post (next result) s' := by
  cases h with
  | act _ _ hnext => exact hnext choice result s' hlegal hexec

theorem WP.iter_next {post : α → Memory B → Prop} {body : σ → Prog B (σ ⊕ β)} {state : σ}
    {next : β → Prog B α} (h : WP fails inv post (.iter body state next) s) :
    WP fails inv post (.unroll body state next) s := by
  cases h
  assumption

theorem WP.mono {weaker : Memory B → Prop} {post post' : α → Memory B → Prop} {p : Prog B α}
    (h : WP fails inv post p s) (hinv : ∀ s, inv s → weaker s)
    (hpost : ∀ value s, inv s → post value s → post' value s) : WP fails weaker post' p s := by
  induction h with
  | ret hs hvalue => exact .ret (hinv _ hs) (hpost _ _ hs hvalue)
  | act hs hsafe _ ih => exact .act (hinv _ hs) hsafe ih
  | iter hs _ ih => exact .iter (hinv _ hs) ih

/-- Consequence, with the same step invariant. -/
theorem WP.post {post post' : α → Memory B → Prop} {p : Prog B α} (h : WP fails inv post p s)
    (hpost : ∀ value s, inv s → post value s → post' value s) : WP fails inv post' p s :=
  h.mono (fun _ hs => hs) hpost

/-- Sequential composition. -/
theorem WP.bind {post : β → Memory B → Prop} {p : Prog B α} {f : α → Prog B β}
    (h : WP fails inv (fun value s => WP fails inv post (f value) s) p s) :
    WP fails inv post (p >>= f) s := by
  change WP fails inv post (p.bind f) s
  induction h with
  | ret _ hvalue => exact hvalue
  | act hs hsafe _ ih => exact .act hs hsafe ih
  | iter hs _ ih =>
    rw [Prog.unroll_bind] at ih
    exact .iter hs ih

theorem WP.pure {post : α → Memory B → Prop} {value : α} (hinv : inv s) (hpost : post value s) :
    WP fails inv post (pure value) s := .ret hinv hpost

/-- A loop runs its body once and then goes on or leaves. -/
theorem WP.loop {post : β → Memory B → Prop} {body : σ → Prog B (σ ⊕ β)} {state : σ}
    (hinv : inv s)
    (h : WP fails inv (fun result s =>
      match result with
      | .inl state => WP fails inv post (loop body state) s
      | .inr value => post value s) (body state) s) :
    WP fails inv post (loop body state) s := by
  refine .iter hinv (WP.bind (h.post fun result s hs hresult => ?_))
  cases result with
  | inl state => exact hresult
  | inr value => exact .ret hs hresult

/-! One rule for each command. -/

theorem WP.malloc {post : Pointer → Memory B → Prop} {block : B} (hinv : inv s)
    (hok : ∀ a, s.heap a = none →
      inv (s.set a (some block)) ∧ post (some a) (s.set a (some block)))
    (hfail : fails → post none s) : WP fails inv post (malloc block) s := by
  refine .act hinv ?_ ?_
  · intro choice _
    cases choice <;> rfl
  · intro choice result s' hlegal hexec
    cases choice with
    | none =>
      cases hexec
      exact .ret hinv (hfail hlegal)
    | some a =>
      cases hexec
      exact .ret (hok a hlegal).1 (hok a hlegal).2

/-- An allocation that cannot fail. -/
theorem WP.malloc_ok {inv : Memory B → Prop} {s : Memory B} {post : Pointer → Memory B → Prop}
    {block : B} (hinv : inv s)
    (hok : ∀ a, s.heap a = none →
      inv (s.set a (some block)) ∧ post (some a) (s.set a (some block))) :
    WP False inv post (HeapProgram.malloc block) s :=
  WP.malloc hinv hok False.elim

theorem WP.load {post : β → Memory B → Prop} {a : Addr} {block : B} {field : B → Option β}
    {value : β} (hinv : inv s) (hlive : s.heap a = some block) (hfield : field block = some value)
    (hpost : post value s) : WP fails inv post (load (some a) field) s := by
  have hexec : ∀ choice, (Cmd.load (some a) field).exec choice s = some (value, s) := by
    simp [Cmd.exec, hlive, hfield]
  refine .act hinv (fun choice _ => by simp [hexec]) ?_
  intro choice result s' _ h
  rw [hexec, Option.some.injEq, Prod.mk.injEq] at h
  obtain ⟨rfl, rfl⟩ := h
  exact .ret hinv hpost

theorem WP.store {post : Unit → Memory B → Prop} {a : Addr} {block block' : B}
    {field : B → Option B} (hinv : inv s) (hlive : s.heap a = some block)
    (hfield : field block = some block') (hinv' : inv (s.set a (some block')))
    (hpost : post () (s.set a (some block'))) : WP fails inv post (store (some a) field) s := by
  have hexec : ∀ choice, (Cmd.store (some a) field).exec choice s =
      some ((), s.set a (some block')) := by
    simp [Cmd.exec, hlive, hfield]
  refine .act hinv (fun choice _ => by simp [hexec]) ?_
  intro choice result s' _ h
  rw [hexec, Option.some.injEq, Prod.mk.injEq] at h
  obtain ⟨rfl, rfl⟩ := h
  exact .ret hinv' hpost

theorem WP.free {post : Unit → Memory B → Prop} {a : Addr} {block : B} (hinv : inv s)
    (hlive : s.heap a = some block) (hinv' : inv (s.release a))
    (hpost : post () (s.release a)) :
    WP fails inv post (free (some a)) s := by
  have hexec : ∀ choice, (Cmd.free (some a)).exec choice s =
      some ((), s.release a) := by
    simp [Cmd.exec, hlive]
  refine .act hinv (fun choice _ => by simp [hexec]) ?_
  intro choice result s' _ h
  rw [hexec, Option.some.injEq, Prod.mk.injEq] at h
  obtain ⟨rfl, rfl⟩ := h
  exact .ret hinv' hpost

theorem WP.getSlot {post : Pointer → Memory B → Prop} (hinv : inv s) (hpost : post s.slot s) :
    WP fails inv post getSlot s := by
  refine .act hinv (fun choice _ => rfl) ?_
  intro choice result s' _ h
  cases h
  exact .ret hinv hpost

theorem WP.setSlot {post : Unit → Memory B → Prop} {p : Pointer} (hinv : inv s)
    (hinv' : inv { s with slot := p }) (hpost : post () { s with slot := p }) :
    WP fails inv post (setSlot p) s := by
  refine .act hinv (fun choice _ => rfl) ?_
  intro choice result s' _ h
  cases h
  exact .ret hinv' hpost

theorem WP.trySlot {post : Bool → Memory B → Prop} {p : Pointer} (hinv : inv s)
    (hinv' : inv { s with slot := p }) (hok : post true { s with slot := p })
    (hfail : fails → post false s) : WP fails inv post (trySlot p) s := by
  refine .act hinv ?_ ?_
  · intro choice _
    cases choice <;> rfl
  · intro choice result s' hlegal hexec
    cases choice with
    | none =>
      cases hexec
      exact .ret hinv (hfail hlegal)
    | some a =>
      cases hexec
      exact .ret hinv' hok

end Foundation.HeapProgram
