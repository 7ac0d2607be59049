import Mathlib.Data.Finset.Basic
import Mathlib.Data.Finset.Insert
import Mathlib.Data.Fintype.Basic
import Mdclog.Foundation.Machine

/-! Threads that share a flag and a pointer under a read/write lock, and that have
objects with a pointer each, used by one thread at a time. Every lock operation, every
access of a pointer and every `free` is a step. -/
namespace Foundation.LockedHeap

/-! Programs. -/

abbrev Pointer := Option Nat

/-- What is left to do for a call. An `access` reads or writes the bytes of a block. -/
inductive Code where
  | done
  | readFlag (next : Bool → Code)
  | writeFlag (value : Bool) (next : Code)
  | wrlock (next : Code)
  | rdlock (next : Code)
  | unlock (next : Code)
  | readShared (next : Pointer → Code)
  | writeShared (p : Pointer) (next : Code)
  | newObject (next : Option Nat → Code)
  | readObject (a : Nat) (next : Pointer → Code)
  | writeObject (a : Nat) (p : Pointer) (next : Code)
  | freeObject (a : Nat) (next : Code)
  | malloc (next : Pointer → Code)
  | access (p : Pointer) (next : Code)
  | free (p : Pointer) (next : Code)

/-- A block is allocated once: an address that `malloc` hands out again is a new block. -/
inductive Life where
  | unused
  | live
  | freed
  deriving DecidableEq

inductive Thread (Call : Type) where
  | idle
  | running (call : Call) (code : Code)

structure State (T Call : Type) where
  flag : Bool
  shared : Pointer
  objects : Nat → Option Pointer
  life : Nat → Life
  writer : Option T
  readers : Finset T
  thread : T → Thread Call

/-- The calls there are: what each does, the object it uses, and whether it ends that
object. -/
structure Calls (Call : Type) where
  program : Call → Code
  object : Call → Option Nat
  ends : Call → Bool

/-- A thread starts a call, goes on with it, or comes back from it. `choice` is what an
allocation returns. -/
inductive Label (T Call : Type) where
  | start (t : T) (call : Call)
  | advance (t : T) (choice : Option Nat)
  | finish (t : T)

section machine
variable {T Call : Type} [DecidableEq T]

def State.goto (s : State T Call) (t : T) (thread : Thread Call) : State T Call :=
  { s with thread := Function.update s.thread t thread }

/-- The next step of a call. A thread waits for the lock; otherwise a step without a
result is one that uses an object that does not exist. -/
def advance (s : State T Call) (t : T) (call : Call) (choice : Option Nat) :
    Code → Option (State T Call)
  | .done => none
  | .readFlag next => some (s.goto t (.running call (next s.flag)))
  | .writeFlag value next => some ({ s with flag := value }.goto t (.running call next))
  | .wrlock next =>
      if s.writer = none ∧ s.readers = ∅ then
        some ({ s with writer := some t }.goto t (.running call next))
      else none
  | .rdlock next =>
      if s.writer = none then
        some ({ s with readers := insert t s.readers }.goto t (.running call next))
      else none
  | .unlock next =>
      some ({ s with writer := if s.writer = some t then none else s.writer
                     readers := s.readers.erase t }.goto t (.running call next))
  | .readShared next => some (s.goto t (.running call (next s.shared)))
  | .writeShared p next => some ({ s with shared := p }.goto t (.running call next))
  | .newObject next =>
      match choice with
      | none => some (s.goto t (.running call (next none)))
      | some a =>
          if s.objects a = none then
            some ({ s with objects := Function.update s.objects a (some none) }.goto t
              (.running call (next (some a))))
          else none
  | .readObject a next => (s.objects a).map fun p => s.goto t (.running call (next p))
  | .writeObject a p next => (s.objects a).map fun _ =>
      { s with objects := Function.update s.objects a (some p) }.goto t (.running call next)
  | .freeObject a next => (s.objects a).map fun _ =>
      { s with objects := Function.update s.objects a none }.goto t (.running call next)
  | .malloc next =>
      match choice with
      | none => some (s.goto t (.running call (next none)))
      | some b =>
          if s.life b = .unused then
            some ({ s with life := Function.update s.life b .live }.goto t
              (.running call (next (some b))))
          else none
  | .access _ next => some (s.goto t (.running call next))
  | .free p next =>
      some ({ s with life := fun b => if p = some b then .freed else s.life b }.goto t
        (.running call next))

variable (calls : Calls Call)

def step (s : State T Call) : Label T Call → Option (State T Call)
  | .start t call =>
      match s.thread t with
      | .idle => some (s.goto t (.running call (calls.program call)))
      | .running _ _ => none
  | .advance t choice =>
      match s.thread t with
      | .idle => none
      | .running call code => advance s t call choice code
  | .finish t =>
      match s.thread t with
      | .running _ .done => some (s.goto t .idle)
      | _ => none

def machine (T : Type) [DecidableEq T] : Machine (State T Call) (Label T Call) where
  init := ⟨false, none, fun _ => none, fun _ => .unused, none, ∅, fun _ => .idle⟩
  step := step calls

/-- The call of this thread uses the object. -/
def Thread.Uses (a : Nat) : Thread Call → Prop
  | .idle => False
  | .running call _ => calls.object call = some a

/-- An object exists and nobody uses it when a call gets it. -/
def disciplined (s : State T Call) : Label T Call → Prop
  | .start _ call => ∀ a ∈ calls.object call,
      s.objects a ≠ none ∧ ∀ t, ¬(s.thread t).Uses calls a
  | _ => True

instance (a : Nat) : (thread : Thread Call) → Decidable (thread.Uses calls a)
  | .idle => inferInstanceAs (Decidable False)
  | .running call _ => inferInstanceAs (Decidable (calls.object call = some a))

instance [Fintype T] (s : State T Call) : (label : Label T Call) →
    Decidable (disciplined calls s label)
  | .start _ call => inferInstanceAs (Decidable (∀ a ∈ calls.object call,
      s.objects a ≠ none ∧ ∀ t, ¬(s.thread t).Uses calls a))
  | .advance _ _ | .finish _ => inferInstanceAs (Decidable True)

/-- The next step of the thread uses a pointer that is not valid. -/
def Faults (s : State T Call) (t : T) : Prop :=
  match s.thread t with
  | .running _ (.access p _) => ∀ b ∈ p, s.life b ≠ .live
  | .running _ (.free p _) => ∃ b ∈ p, s.life b ≠ .live
  | .running _ (.readObject a _) | .running _ (.writeObject a _ _)
  | .running _ (.freeObject a _) => s.objects a = none
  | _ => False

theorem step_cases {s s' : State T Call} {label : Label T Call}
    (hstep : step calls s label = some s') :
    (∃ t call, label = .start t call ∧ s.thread t = .idle ∧
      s' = s.goto t (.running call (calls.program call))) ∨
    (∃ t call, label = .finish t ∧ s.thread t = .running call .done ∧ s' = s.goto t .idle) ∨
    ∃ t choice call code, label = .advance t choice ∧ s.thread t = .running call code ∧
      advance s t call choice code = some s' := by
  cases label with
  | start t call =>
    cases hthread : s.thread t with
    | running call code => simp [step, hthread] at hstep
    | idle =>
      simp only [step, hthread, Option.some.injEq] at hstep
      exact .inl ⟨t, call, rfl, hthread, hstep.symm⟩
  | finish t =>
    cases hthread : s.thread t with
    | idle => simp [step, hthread] at hstep
    | running call code =>
      cases code with
      | done =>
        simp only [step, hthread, Option.some.injEq] at hstep
        exact .inr (.inl ⟨t, call, rfl, hthread, hstep.symm⟩)
      | _ => simp [step, hthread] at hstep
  | advance t choice =>
    cases hthread : s.thread t with
    | idle => simp [step, hthread] at hstep
    | running call code =>
      simp only [step, hthread] at hstep
      exact .inr (.inr ⟨t, choice, call, code, rfl, hthread, hstep⟩)

end machine

/-! What a thread knows and owns. -/

/-- How it holds the lock, with the value of the shared pointer. -/
inductive Mode where
  | out
  | reader (p : Pointer)
  | writer (p : Pointer)

/-- `object` is the object of the call with its pointer. -/
structure Local where
  mode : Mode
  blocks : Set Nat
  object : Option (Nat × Pointer)

def pointee (p : Pointer) : Set Nat := {b | p = some b}

/-- The pointer of the object is null or to a block of the thread. -/
def Local.Settled (l : Local) : Prop := ∀ a p, l.object = some (a, p) → pointee p ⊆ l.blocks

/-- Outside the write lock a `strict` call keeps the pointer of its object valid. -/
def Local.Kept (strict : Bool) (l : Local) : Prop :=
  strict = true → (∀ p, l.mode ≠ .writer p) → l.Settled

theorem kept_writer {strict : Bool} {l : Local} {p : Pointer} (h : l.mode = .writer p) :
    l.Kept strict := fun _ hnot => absurd h (hnot p)

theorem kept_settled {strict : Bool} {l : Local} (h : l.Settled) : l.Kept strict := fun _ _ => h

theorem Local.Settled.mono {l : Local} {blocks : Set Nat} (h : l.Settled)
    (hblocks : l.blocks ⊆ blocks) (mode : Mode) :
    Local.Settled { l with mode := mode, blocks := blocks } :=
  fun a p hp => (h a p hp).trans hblocks

/-- The code only uses what the thread owns, and as a reader the shared block. The lock
hands over the block of the shared pointer to a writer, which gives back the block of the
pointer it leaves there. -/
def Safe (strict : Bool) : Code → Local → Prop
  | .done, l => l.mode = .out ∧ l.Settled
  | .readFlag next, l => l.Kept strict ∧ ∀ value, Safe strict (next value) l
  | .writeFlag _ next, l => l.Kept strict ∧ Safe strict next l
  | .wrlock next, l => l.Kept strict ∧ l.mode = .out ∧ ∀ p, Disjoint (pointee p) l.blocks →
      Safe strict next { l with mode := .writer p, blocks := l.blocks ∪ pointee p }
  | .rdlock next, l => l.Kept strict ∧ l.mode = .out ∧
      ∀ p, Safe strict next { l with mode := .reader p }
  | .unlock next, l => l.Kept strict ∧
      ((∃ p, l.mode = .reader p ∧ Safe strict next { l with mode := .out }) ∨
        ∃ p, l.mode = .writer p ∧ pointee p ⊆ l.blocks ∧
          Safe strict next { l with mode := .out, blocks := l.blocks \ pointee p })
  | .readShared next, l => l.Kept strict ∧
      ∃ p, (l.mode = .reader p ∨ l.mode = .writer p) ∧ Safe strict (next p) l
  | .writeShared p next, l => l.Kept strict ∧
      (∃ q, l.mode = .writer q) ∧ Safe strict next { l with mode := .writer p }
  | .newObject next, l => l.Kept strict ∧ ∀ a, Safe strict (next a) l
  | .readObject a next, l => l.Kept strict ∧
      ∃ p, l.object = some (a, p) ∧ Safe strict (next p) l
  | .writeObject a p next, l => l.Kept strict ∧
      (∃ q, l.object = some (a, q)) ∧ Safe strict next { l with object := some (a, p) }
  | .freeObject a next, l => l.Kept strict ∧
      (∃ q, l.object = some (a, q)) ∧ Safe strict next { l with object := none }
  | .malloc next, l => l.Kept strict ∧ Safe strict (next none) l ∧
      ∀ b, b ∉ l.blocks → Safe strict (next (some b)) { l with blocks := insert b l.blocks }
  | .access p next, l => l.Kept strict ∧
      (∃ b, p = some b ∧ (l.mode = .reader p ∨ (∀ q, l.mode ≠ .reader q) ∧ b ∈ l.blocks)) ∧
      Safe strict next l
  | .free p next, l => l.Kept strict ∧ pointee p ⊆ l.blocks ∧
      Safe strict next { l with blocks := l.blocks \ pointee p }

theorem Safe.kept {strict : Bool} {code : Code} {l : Local} (h : Safe strict code l) :
    l.Kept strict := by
  cases code with
  | done => exact fun _ _ => h.2
  | _ => exact h.1

/-- What a call starts with, its object having this pointer. -/
def entry (object : Option Nat) (p : Pointer) : Local :=
  ⟨.out, pointee p, object.map fun a => (a, p)⟩

/-- Every call is safe from its start, unless it ends its object also in keeping that
object's pointer valid. -/
def Calls.Verified {Call : Type} (calls : Calls Call) : Prop :=
  ∀ call p, (calls.object call = none → p = none) →
    Safe (!calls.ends call) (calls.program call) (entry (calls.object call) p)

end Foundation.LockedHeap
