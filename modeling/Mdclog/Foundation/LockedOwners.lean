import Mdclog.Foundation.LockedHeap
import Mdclog.Foundation.Ownership

/-! Calls that use only what they own keep every pointer valid, in any order of their
steps: the lock, the objects and the threads hand the blocks to each other. -/
namespace Foundation.LockedHeap
open Ownership

section invariant
variable {T Call : Type} (calls : Calls Call)

def ModeFits (s : State T Call) (t : T) : Mode → Prop
  | .out => s.writer ≠ some t ∧ t ∉ s.readers
  | .reader p => s.writer ≠ some t ∧ t ∈ s.readers ∧ s.shared = p
  | .writer p => s.writer = some t ∧ t ∉ s.readers ∧ s.shared = p

structure ThreadFits (s : State T Call) (t : T) (l : Local) : Prop where
  mode : ModeFits s t l.mode
  object : ∀ a p, l.object = some (a, p) → s.objects a = some p ∧ (s.thread t).Uses calls a
  idle : s.thread t = .idle → l.mode = .out
  safe : ∀ call code, s.thread t = .running call code → Safe (!calls.ends call) code l

inductive Owner (T : Type) where
  | lock
  | object (a : Nat)
  | thread (t : T)

/-- The lock owns the block of the shared pointer while nobody writes, an object its
block while nobody uses it. -/
def Owns (s : State T Call) (locals : T → Local) : Owner T → Nat → Prop
  | .lock, b => s.writer = none ∧ s.shared = some b
  | .object a, b => s.objects a = some (some b) ∧ ∀ t p, (locals t).object ≠ some (a, p)
  | .thread t, b => b ∈ (locals t).blocks

structure Fits (s : State T Call) (locals : T → Local) : Prop where
  threads : ∀ t, ThreadFits calls s t (locals t)
  alone : s.writer = none ∨ s.readers = ∅
  unique : ∀ {t u a}, (s.thread t).Uses calls a → (s.thread u).Uses calls a → t = u
  sound : Sound (Owns s locals) fun b => s.life b = .live

variable {calls} {s s' : State T Call} {locals : T → Local} {t : T}

/-- A thread does not notice the steps of the others. -/
theorem ThreadFits.frame {l : Local} (h : ThreadFits calls s t l)
    (hthread : s'.thread t = s.thread t) (hwriter : s'.writer = some t ↔ s.writer = some t)
    (hreaders : t ∈ s'.readers ↔ t ∈ s.readers)
    (hshared : s.writer = some t ∨ t ∈ s.readers → s'.shared = s.shared)
    (hobjects : ∀ a, (s.thread t).Uses calls a → s.objects a ≠ none →
      s'.objects a = s.objects a) : ThreadFits calls s' t l where
  mode := by
    have hmode := h.mode
    cases hl : l.mode with
    | out =>
      rw [hl] at hmode
      exact ⟨mt hwriter.mp hmode.1, mt hreaders.mp hmode.2⟩
    | reader p =>
      rw [hl] at hmode
      exact ⟨mt hwriter.mp hmode.1, hreaders.mpr hmode.2.1,
        (hshared (.inr hmode.2.1)).trans hmode.2.2⟩
    | writer p =>
      rw [hl] at hmode
      exact ⟨hwriter.mpr hmode.1, mt hreaders.mp hmode.2.1,
        (hshared (.inl hmode.1)).trans hmode.2.2⟩
  object a p hobject := by
    obtain ⟨hvalue, huses⟩ := h.object a p hobject
    rw [hthread, hobjects a huses (by simp [hvalue])]
    exact ⟨hvalue, huses⟩
  idle hidle := h.idle (hthread ▸ hidle)
  safe call code hrunning := h.safe call code (hthread ▸ hrunning)

theorem Fits.object_kept (h : Fits calls s locals) (a : Nat) (p : Pointer)
    (hobject : (locals t).object = some (a, p)) :
    s.objects a = some p ∧ ∃ q, (locals t).object = some (a, q) :=
  ⟨((h.threads t).object a p hobject).1, p, hobject⟩

/-! What follows for a state. -/

/-- Who holds a pointer to the block: the shared pointer, or an object. -/
def Holds (s : State T Call) : Option Nat → Nat → Prop
  | none, b => s.shared = some b
  | some a, b => s.objects a = some (some b)

theorem Fits.shared_live (h : Fits calls s locals) (hwriter : s.writer = none) {b : Nat}
    (hb : s.shared = some b) : s.life b = .live :=
  h.sound.live (show Owns s locals .lock b from ⟨hwriter, hb⟩)

theorem Fits.mem_readers (h : Fits calls s locals) (ht : t ∈ s.readers) :
    (locals t).mode = .reader s.shared := by
  have hmode := (h.threads t).mode
  cases hl : (locals t).mode with
  | out =>
    rw [hl] at hmode
    exact absurd ht hmode.2
  | reader p =>
    rw [hl] at hmode
    rw [hmode.2.2]
  | writer p =>
    rw [hl] at hmode
    exact absurd ht hmode.2.1

/-- A reader accesses the shared block. -/
theorem Fits.reader_access (h : Fits calls s locals) (ht : t ∈ s.readers) {call : Call}
    {p : Pointer} {next : Code} (hrunning : s.thread t = .running call (.access p next)) :
    s.shared = p := by
  obtain ⟨-, ⟨b, -, hreader | ⟨hother, -⟩⟩, -⟩ := (h.threads t).safe _ _ hrunning
  · rw [h.mem_readers ht] at hreader
    exact Mode.reader.inj hreader
  · exact absurd (h.mem_readers ht) (hother _)

theorem Fits.not_faults (h : Fits calls s locals) (t : T) : ¬Faults s t := by
  intro hfault
  unfold Faults at hfault
  split at hfault
  next call p next hrunning =>
    obtain ⟨-, ⟨b, rfl, hreader | ⟨-, hmem⟩⟩, -⟩ := (h.threads t).safe _ _ hrunning
    · have hmode := (h.threads t).mode
      rw [hreader] at hmode
      obtain ⟨-, hin, hshared⟩ := hmode
      have hwriter := h.alone.resolve_right (Finset.ne_empty_of_mem hin)
      exact hfault b rfl (h.shared_live hwriter hshared)
    · exact hfault b rfl (h.sound.live (show Owns s locals (.thread t) b from hmem))
  next call p next hrunning =>
    obtain ⟨-, hblocks, -⟩ := (h.threads t).safe _ _ hrunning
    obtain ⟨b, hb, hdead⟩ := hfault
    exact hdead (h.sound.live (show Owns s locals (.thread t) b from hblocks hb))
  next call a next hrunning =>
    obtain ⟨-, p, hp, -⟩ := (h.threads t).safe _ _ hrunning
    rw [((h.threads t).object a p hp).1] at hfault
    cases hfault
  next call a p next hrunning =>
    obtain ⟨-, ⟨q, hq⟩, -⟩ := (h.threads t).safe _ _ hrunning
    rw [((h.threads t).object a q hq).1] at hfault
    cases hfault
  next call a next hrunning =>
    obtain ⟨-, ⟨q, hq⟩, -⟩ := (h.threads t).safe _ _ hrunning
    rw [((h.threads t).object a q hq).1] at hfault
    cases hfault
  next => exact hfault

/-- While nobody writes and no call ends its object, every pointer is valid, and no two
are the same. -/
theorem Fits.valid (h : Fits calls s locals) (hwriter : s.writer = none)
    (hends : ∀ t call code, s.thread t = .running call code → calls.ends call = false) :
    Sound (Holds s) fun b => s.life b = .live := by
  -- an object in use has its block from the thread that uses it
  have howner : ∀ {x b}, Holds s x b → ∃ o, Owns s locals o b ∧
      (o = .lock ∧ x = none ∨ ∃ a, x = some a ∧
        (o = .object a ∨ ∃ t p, o = .thread t ∧ (locals t).object = some (a, p))) := by
    intro x b hb
    cases x with
    | none => exact ⟨.lock, ⟨hwriter, hb⟩, .inl ⟨rfl, rfl⟩⟩
    | some a =>
      by_cases hused : ∃ t p, (locals t).object = some (a, p)
      · obtain ⟨t, p, hp⟩ := hused
        obtain ⟨hvalue, huses⟩ := (h.threads t).object a p hp
        have hpb : b ∈ pointee p := Option.some.inj (hvalue.symm.trans hb)
        have hmode := (h.threads t).mode
        have hnot : ∀ q, (locals t).mode ≠ .writer q := by
          intro q hq
          rw [hq, ModeFits, hwriter] at hmode
          cases hmode.1
        cases hthread : s.thread t with
        | idle =>
          rw [hthread] at huses
          exact huses.elim
        | running call code =>
          have hkept := ((h.threads t).safe _ _ hthread).kept
          rw [hends t call code hthread] at hkept
          have hmem : b ∈ (locals t).blocks := hkept rfl hnot a p hp hpb
          exact ⟨.thread t, hmem, .inr ⟨a, rfl, .inr ⟨t, p, rfl, hp⟩⟩⟩
      · refine ⟨.object a, ⟨hb, fun t p hp => hused ⟨t, p, hp⟩⟩, .inr ⟨a, rfl, .inl rfl⟩⟩
  refine ⟨fun hb => ?_, fun {x y b} hx hy => ?_⟩
  · obtain ⟨o, hown, -⟩ := howner hb
    exact h.sound.live hown
  · obtain ⟨o, hox, hkind⟩ := howner hx
    obtain ⟨o', hoy, hkind'⟩ := howner hy
    obtain rfl := h.sound.unique hox hoy
    rcases hkind with ⟨rfl, rfl⟩ | ⟨a, rfl, rfl | ⟨t, p, rfl, hp⟩⟩
    · rcases hkind' with ⟨-, rfl⟩ | ⟨a', rfl, heq | ⟨t', p', heq, -⟩⟩
      · rfl
      · cases heq
      · cases heq
    · rcases hkind' with ⟨heq, -⟩ | ⟨a', rfl, heq | ⟨t', p', heq, -⟩⟩
      · cases heq
      · cases heq
        rfl
      · cases heq
    · rcases hkind' with ⟨heq, -⟩ | ⟨a', rfl, heq | ⟨t', p', heq, hp'⟩⟩
      · cases heq
      · cases heq
      · cases heq
        rw [hp] at hp'
        cases hp'
        rfl

/-! Steps. -/

variable [DecidableEq T]

/-- One step of a running call, with what the thread knows and owns afterwards. -/
theorem Fits.advance {call : Call} {code code' : Code} (h : Fits calls s locals) (l : Local)
    (hrunning : s.thread t = .running call code)
    (hthread : s'.thread = Function.update s.thread t (.running call code'))
    (hmode : ModeFits s' t l.mode)
    (hobject : ∀ a p, l.object = some (a, p) →
      s'.objects a = some p ∧ ∃ q, (locals t).object = some (a, q))
    (hsafe : Safe (!calls.ends call) code' l)
    (hwriter : ∀ u, u ≠ t → (s'.writer = some u ↔ s.writer = some u))
    (hreaders : ∀ u, u ≠ t → (u ∈ s'.readers ↔ u ∈ s.readers))
    (hshared : ∀ u, u ≠ t → s.writer = some u ∨ u ∈ s.readers → s'.shared = s.shared)
    (hobjects : ∀ a, s'.objects a = s.objects a ∨ s.objects a = none ∨
      ∃ q, (locals t).object = some (a, q))
    (halone : s'.writer = none ∨ s'.readers = ∅)
    (hsound : Sound (Owns s' (Function.update locals t l)) fun b => s'.life b = .live) :
    Fits calls s' (Function.update locals t l) := by
  have huses : ∀ u a, (s'.thread u).Uses calls a ↔ (s.thread u).Uses calls a := by
    intro u a
    rw [hthread]
    by_cases hu : u = t
    · subst hu
      rw [Function.update_self, hrunning]
      rfl
    · rw [Function.update_of_ne hu]
  have hself : ThreadFits calls s' t l := by
    refine ⟨hmode, fun a p hl => ?_, fun hidle => ?_, fun call' code'' hrun => ?_⟩
    · obtain ⟨hvalue, q, hq⟩ := hobject a p hl
      exact ⟨hvalue, (huses t a).mpr ((h.threads t).object a q hq).2⟩
    · rw [hthread, Function.update_self] at hidle
      cases hidle
    · rw [hthread, Function.update_self] at hrun
      cases hrun
      exact hsafe
  refine ⟨?_, halone, fun ht hu => h.unique ((huses _ _).mp ht) ((huses _ _).mp hu), hsound⟩
  apply (Function.forall_update_iff locals fun u l => ThreadFits calls s' u l).mpr
  refine ⟨hself, fun u hu => ?_⟩
  refine (h.threads u).frame (by rw [hthread, Function.update_of_ne hu]) (hwriter u hu)
    (hreaders u hu) (hshared u hu) fun a ha hexists => ?_
  rcases hobjects a with hsame | hnone | ⟨q, hq⟩
  · exact hsame
  · exact absurd hnone hexists
  · exact absurd (h.unique ha ((h.threads t).object a q hq).2) hu

/-! The owners after a step of `t` that leaves it with `l`. -/

theorem Owns.thread_of_update {l : Local} {u : T} {b : Nat}
    (hown : Owns s' (Function.update locals t l) (.thread u) b) :
    (u = t ∧ b ∈ l.blocks) ∨ (u ≠ t ∧ Owns s locals (.thread u) b) := by
  change b ∈ (Function.update locals t l u).blocks at hown
  by_cases hu : u = t
  · subst hu
    rw [Function.update_self] at hown
    exact .inl ⟨rfl, hown⟩
  · rw [Function.update_of_ne hu] at hown
    exact .inr ⟨hu, hown⟩

theorem Owns.object_of_update {l : Local} {a b : Nat}
    (hown : Owns s' (Function.update locals t l) (.object a) b)
    (hvalue : s'.objects a = some (some b) → s.objects a = some (some b) ∨
      ∃ p, l.object = some (a, p))
    (hobject : s'.objects a = some (some b) → ∀ p, (locals t).object = some (a, p) →
      ∃ q, l.object = some (a, q)) : Owns s locals (.object a) b := by
  have hself : ∀ p, l.object ≠ some (a, p) := by
    have hunused := hown.2 t
    rwa [Function.update_self] at hunused
  refine ⟨?_, fun u p hu => ?_⟩
  · rcases hvalue hown.1 with hsame | ⟨p, hp⟩
    · exact hsame
    · exact absurd hp (hself p)
  · by_cases hut : u = t
    · subst hut
      obtain ⟨q, hq⟩ := hobject hown.1 p hu
      exact hself q hq
    · have hother := hown.2 u p
      rw [Function.update_of_ne hut] at hother
      exact hother hu

section steps
variable {call : Call} {next : Code} (h : Fits calls s locals)
include h

/-- A step that neither takes nor gives a block. -/
theorem Fits.owners_kept {l : Local} (hlife : s'.life = s.life)
    (hlock : s'.writer = none → s.writer = none ∧ s'.shared = s.shared)
    (hblocks : l.blocks = (locals t).blocks)
    (hvalue : ∀ a b, s'.objects a = some (some b) → s.objects a = some (some b) ∨
      ∃ p, l.object = some (a, p))
    (hobject : ∀ a b, s'.objects a = some (some b) → ∀ p, (locals t).object = some (a, p) →
      ∃ q, l.object = some (a, q)) :
    Sound (Owns s' (Function.update locals t l)) fun b => s'.life b = .live := by
  rw [hlife]
  refine h.sound.mono (fun {o b} hown => ?_)
  cases o with
  | lock =>
    obtain ⟨hnone, hsame⟩ := hlock hown.1
    exact ⟨hnone, hsame.symm.trans hown.2⟩
  | object a => exact hown.object_of_update (hvalue a b) (hobject a b)
  | thread u =>
    rcases hown.thread_of_update with ⟨rfl, hold⟩ | ⟨-, hold⟩
    · rwa [hblocks] at hold
    · exact hold

/-- A step that only reads, or writes the flag. -/
theorem Fits.quiet {code code' : Code} (flag : Bool)
    (hrunning : s.thread t = .running call code)
    (hsafe : Safe (!calls.ends call) code' (locals t)) :
    Fits calls ({ s with flag := flag }.goto t (.running call code')) locals := by
  have hfits : Fits calls ({ s with flag := flag }.goto t (.running call code'))
      (Function.update locals t (locals t)) := by
    refine h.advance (locals t) hrunning rfl (h.threads t).mode h.object_kept hsafe
      (fun _ _ => Iff.rfl) (fun _ _ => Iff.rfl) (fun _ _ _ => rfl) (fun _ => .inl rfl) h.alone ?_
    exact h.owners_kept rfl (fun hw => ⟨hw, rfl⟩) rfl (fun _ _ => .inl) fun _ _ _ p hp => ⟨p, hp⟩
  rwa [Function.update_eq_self] at hfits

theorem Fits.wrlock (hrunning : s.thread t = .running call (.wrlock next))
    (hfree : s.writer = none ∧ s.readers = ∅) :
    ∃ locals', Fits calls ({ s with writer := some t }.goto t (.running call next)) locals' := by
  obtain ⟨-, hmode, hnext⟩ := (h.threads t).safe _ _ hrunning
  have hdisjoint : Disjoint (pointee s.shared) (locals t).blocks := by
    rw [Set.disjoint_left]
    intro b hb hmem
    have hlock : Owns s locals .lock b := ⟨hfree.1, hb⟩
    cases h.sound.unique hlock (show Owns s locals (.thread t) b from hmem)
  let l : Local := { locals t with
    mode := .writer s.shared, blocks := (locals t).blocks ∪ pointee s.shared }
  have hmode' : ModeFits ({ s with writer := some t }.goto t (.running call next)) t l.mode :=
    ⟨rfl, by simp [State.goto, hfree.2], rfl⟩
  refine ⟨_, h.advance l hrunning rfl hmode' h.object_kept (hnext _ hdisjoint) ?_
    (fun _ _ => Iff.rfl) (fun _ _ _ => rfl) (fun _ => .inl rfl) (.inr hfree.2) ?_⟩
  · intro u hu
    simp [State.goto, hfree.1, Ne.symm hu]
  · refine h.sound.move .lock (.thread t) (pointee s.shared) (fun {o b} hown => ?_)
    cases o with
    | lock => cases hown.1
    | object a => exact .inr ⟨hown.object_of_update .inl fun _ p hp => ⟨p, hp⟩, nofun⟩
    | thread u =>
      rcases hown.thread_of_update with ⟨rfl, hold | hnew⟩ | ⟨-, hold⟩
      · exact .inr ⟨hold, nofun⟩
      · exact .inl ⟨rfl, hnew, hfree.1, hnew⟩
      · exact .inr ⟨hold, nofun⟩

theorem Fits.rdlock (hrunning : s.thread t = .running call (.rdlock next))
    (hfree : s.writer = none) :
    ∃ locals', Fits calls
      ({ s with readers := insert t s.readers }.goto t (.running call next)) locals' := by
  obtain ⟨-, hmode, hnext⟩ := (h.threads t).safe _ _ hrunning
  let l : Local := { locals t with mode := .reader s.shared }
  have hmode' : ModeFits ({ s with readers := insert t s.readers }.goto t (.running call next)) t
      l.mode := ⟨by simp [State.goto, hfree], Finset.mem_insert_self t s.readers, rfl⟩
  refine ⟨_, h.advance l hrunning rfl hmode' h.object_kept (hnext _) (fun _ _ => Iff.rfl) ?_
    (fun _ _ _ => rfl) (fun _ => .inl rfl) (.inl hfree) ?_⟩
  · intro u hu
    simp [State.goto, hu]
  · exact h.owners_kept rfl (fun _ => ⟨hfree, rfl⟩) rfl (fun _ _ => .inl) fun _ _ _ p hp => ⟨p, hp⟩

theorem Fits.unlock (hrunning : s.thread t = .running call (.unlock next)) :
    ∃ locals', Fits calls
      ({ s with writer := if s.writer = some t then none else s.writer
                readers := s.readers.erase t }.goto t (.running call next)) locals' := by
  obtain ⟨-, hunlock⟩ := (h.threads t).safe _ _ hrunning
  have hmode := (h.threads t).mode
  rcases hunlock with ⟨p, hreader, hnext⟩ | ⟨p, hwriter, hblocks, hnext⟩
  · rw [hreader] at hmode
    obtain ⟨hother, hmem, hshared⟩ := hmode
    have hnone : s.writer = none :=
      h.alone.resolve_right (Finset.ne_empty_of_mem hmem)
    rw [if_neg hother]
    let l : Local := { locals t with mode := .out }
    have hmode' : ModeFits ({ s with readers := s.readers.erase t }.goto t (.running call next)) t
        l.mode := ⟨hother, Finset.notMem_erase t s.readers⟩
    refine ⟨_, h.advance l hrunning rfl hmode' h.object_kept hnext (fun _ _ => Iff.rfl) ?_
      (fun _ _ _ => rfl) (fun _ => .inl rfl) (.inl hnone) ?_⟩
    · intro u hu
      simp [State.goto, hu]
    · exact h.owners_kept rfl (fun _ => ⟨hnone, rfl⟩) rfl (fun _ _ => .inl)
        fun _ _ _ p hp => ⟨p, hp⟩
  · rw [hwriter] at hmode
    obtain ⟨hself, hmem, hshared⟩ := hmode
    rw [if_pos hself]
    let l : Local := { locals t with mode := .out, blocks := (locals t).blocks \ pointee p }
    have hmode' : ModeFits ({ s with writer := none, readers := s.readers.erase t }.goto t
        (.running call next)) t l.mode := ⟨nofun, Finset.notMem_erase t s.readers⟩
    refine ⟨_, h.advance l hrunning rfl hmode' h.object_kept hnext ?_ ?_
      (fun _ _ _ => rfl) (fun _ => .inl rfl) (.inl rfl) ?_⟩
    · intro u hu
      simp [State.goto, hself, Ne.symm hu]
    · intro u hu
      simp [State.goto, hu]
    · refine h.sound.move (.thread t) .lock (pointee p) (fun {o b} hown => ?_)
      cases o with
      | lock =>
        have hb : b ∈ pointee p := hshared.symm.trans hown.2
        exact .inl ⟨rfl, hb, hblocks hb⟩
      | object a => exact .inr ⟨hown.object_of_update .inl fun _ p hp => ⟨p, hp⟩, nofun⟩
      | thread u =>
        rcases hown.thread_of_update with ⟨rfl, hold, hkept⟩ | ⟨hu, hold⟩
        · exact .inr ⟨hold, fun _ => hkept⟩
        · exact .inr ⟨hold, fun heq => absurd (Owner.thread.inj heq) hu⟩

theorem Fits.writeShared {p : Pointer}
    (hrunning : s.thread t = .running call (.writeShared p next)) :
    ∃ locals', Fits calls ({ s with shared := p }.goto t (.running call next)) locals' := by
  obtain ⟨-, ⟨q, hwriter⟩, hnext⟩ := (h.threads t).safe _ _ hrunning
  have hmode := (h.threads t).mode
  rw [hwriter] at hmode
  obtain ⟨hself, hmem, -⟩ := hmode
  have hnone : s.readers = ∅ := h.alone.resolve_left (by rw [hself]; nofun)
  let l : Local := { locals t with mode := .writer p }
  have hmode' : ModeFits ({ s with shared := p }.goto t (.running call next)) t l.mode :=
    ⟨hself, hmem, rfl⟩
  refine ⟨_, h.advance l hrunning rfl hmode' h.object_kept hnext (fun _ _ => Iff.rfl)
    (fun _ _ => Iff.rfl) ?_ (fun _ => .inl rfl) h.alone ?_⟩
  · rintro u hu (hw | hr)
    · rw [hself] at hw
      exact absurd (Option.some.inj hw).symm hu
    · rw [hnone] at hr
      exact absurd hr (Finset.notMem_empty u)
  · refine h.owners_kept rfl (fun hw => ?_) rfl (fun _ _ => .inl) fun _ _ _ p hp => ⟨p, hp⟩
    cases hself.symm.trans hw

theorem Fits.newObject {next : Option Nat → Code} {a : Nat}
    (hrunning : s.thread t = .running call (.newObject next)) (hnone : s.objects a = none) :
    ∃ locals', Fits calls ({ s with objects := Function.update s.objects a (some none) }.goto t
      (.running call (next (some a)))) locals' := by
  obtain ⟨-, hnext⟩ := (h.threads t).safe _ _ hrunning
  refine ⟨_, h.advance (locals t) hrunning rfl (h.threads t).mode ?_ (hnext _) (fun _ _ => Iff.rfl)
    (fun _ _ => Iff.rfl) (fun _ _ _ => rfl) ?_ h.alone ?_⟩
  · intro a' p hp
    obtain ⟨hvalue, hq⟩ := h.object_kept a' p hp
    have hne : a' ≠ a := by
      rintro rfl
      rw [hnone] at hvalue
      cases hvalue
    exact ⟨(Function.update_of_ne hne _ _).trans hvalue, hq⟩
  · intro a'
    by_cases ha : a' = a
    · exact .inr (.inl (ha ▸ hnone))
    · exact .inl (Function.update_of_ne ha _ _)
  · refine h.owners_kept rfl (fun hw => ⟨hw, rfl⟩) rfl (fun a' b hvalue => .inl ?_)
      fun _ _ _ p hp => ⟨p, hp⟩
    by_cases ha : a' = a
    · subst ha
      change Function.update s.objects a' (some none) a' = some (some b) at hvalue
      rw [Function.update_self] at hvalue
      cases hvalue
    · exact (Function.update_of_ne ha _ _).symm.trans hvalue

theorem Fits.writeObject {a : Nat} {p : Pointer}
    (hrunning : s.thread t = .running call (.writeObject a p next)) :
    ∃ locals', Fits calls ({ s with objects := Function.update s.objects a (some p) }.goto t
      (.running call next)) locals' := by
  obtain ⟨-, ⟨q, hobject⟩, hnext⟩ := (h.threads t).safe _ _ hrunning
  refine ⟨_, h.advance { locals t with object := some (a, p) } hrunning rfl (h.threads t).mode ?_
    hnext (fun _ _ => Iff.rfl) (fun _ _ => Iff.rfl) (fun _ _ _ => rfl) ?_ h.alone ?_⟩
  · rintro _ _ ⟨⟩
    exact ⟨Function.update_self .., q, hobject⟩
  · intro a'
    by_cases ha : a' = a
    · exact .inr (.inr ⟨q, ha ▸ hobject⟩)
    · exact .inl (Function.update_of_ne ha _ _)
  · refine h.owners_kept rfl (fun hw => ⟨hw, rfl⟩) rfl (fun a' b hvalue => ?_)
      fun a' b _ p' hp' => ?_
    · by_cases ha : a' = a
      · exact .inr ⟨p, by rw [ha]⟩
      · exact .inl ((Function.update_of_ne ha _ _).symm.trans hvalue)
    · rw [hobject] at hp'
      cases hp'
      exact ⟨p, rfl⟩

theorem Fits.freeObject {a : Nat} (hrunning : s.thread t = .running call (.freeObject a next)) :
    ∃ locals', Fits calls ({ s with objects := Function.update s.objects a none }.goto t
      (.running call next)) locals' := by
  obtain ⟨-, ⟨q, hobject⟩, hnext⟩ := (h.threads t).safe _ _ hrunning
  have hgone : ∀ b, Function.update s.objects a none a ≠ some (some b) := by
    intro b hb
    rw [Function.update_self] at hb
    cases hb
  refine ⟨_, h.advance { locals t with object := none } hrunning rfl (h.threads t).mode nofun hnext
    (fun _ _ => Iff.rfl) (fun _ _ => Iff.rfl) (fun _ _ _ => rfl) ?_ h.alone ?_⟩
  · intro a'
    by_cases ha : a' = a
    · exact .inr (.inr ⟨q, ha ▸ hobject⟩)
    · exact .inl (Function.update_of_ne ha _ _)
  · refine h.owners_kept rfl (fun hw => ⟨hw, rfl⟩) rfl (fun a' b hvalue => .inl ?_)
      fun a' b hvalue p hp => ?_
    · by_cases ha : a' = a
      · subst ha
        exact absurd hvalue (hgone b)
      · exact (Function.update_of_ne ha _ _).symm.trans hvalue
    · rw [hobject] at hp
      cases hp
      exact absurd hvalue (hgone b)

theorem Fits.malloc {next : Pointer → Code} {b : Nat}
    (hrunning : s.thread t = .running call (.malloc next)) (hunused : s.life b = .unused) :
    ∃ locals', Fits calls ({ s with life := Function.update s.life b .live }.goto t
      (.running call (next (some b)))) locals' := by
  obtain ⟨-, -, hnext⟩ := (h.threads t).safe _ _ hrunning
  have hdead : ¬s.life b = .live := by
    rw [hunused]
    nofun
  have hnew : b ∉ (locals t).blocks :=
    fun hmem => hdead (h.sound.live (show Owns s locals (.thread t) b from hmem))
  refine ⟨_, h.advance { locals t with blocks := insert b (locals t).blocks } hrunning rfl
    (h.threads t).mode h.object_kept (hnext b hnew) (fun _ _ => Iff.rfl) (fun _ _ => Iff.rfl)
    (fun _ _ _ => rfl) (fun _ => .inl rfl) h.alone ?_⟩
  refine h.sound.alloc (.thread t) hdead (fun {o c} hown => ?_) (fun {c} hc => ?_)
  · cases o with
    | lock => exact .inr hown
    | object a => exact .inr (hown.object_of_update .inl fun _ p hp => ⟨p, hp⟩)
    | thread u =>
      rcases hown.thread_of_update with ⟨rfl, hc | hold⟩ | ⟨-, hold⟩
      · exact .inl ⟨rfl, hc⟩
      · exact .inr hold
      · exact .inr hold
  · change Function.update s.life b .live c = .live
    by_cases hcb : c = b
    · rw [hcb, Function.update_self]
    · rw [Function.update_of_ne hcb]
      exact hc.resolve_right hcb

theorem Fits.free {p : Pointer} (hrunning : s.thread t = .running call (.free p next)) :
    ∃ locals', Fits calls
      ({ s with life := fun b => if p = some b then .freed else s.life b }.goto t
        (.running call next)) locals' := by
  obtain ⟨-, hblocks, hnext⟩ := (h.threads t).safe _ _ hrunning
  -- whoever owns the block is the thread, which has given it up
  have hmine : ∀ {o b}, Owns s locals o b → o ≠ .thread t → ¬pointee p b :=
    fun hown hne hb => hne (h.sound.unique hown (show Owns s locals (.thread t) _ from hblocks hb))
  refine ⟨_, h.advance { locals t with blocks := (locals t).blocks \ pointee p } hrunning rfl
    (h.threads t).mode h.object_kept hnext (fun _ _ => Iff.rfl) (fun _ _ => Iff.rfl)
    (fun _ _ _ => rfl) (fun _ => .inl rfl) h.alone ?_⟩
  refine h.sound.free (pointee p) (fun {o b} hown => ?_) (fun {b} hlive hkept => ?_)
  · cases o with
    | lock =>
      have hold : Owns s locals .lock b := hown
      exact ⟨hold, hmine hold nofun⟩
    | object a =>
      have hold : Owns s locals (.object a) b :=
        hown.object_of_update .inl fun _ p hp => ⟨p, hp⟩
      exact ⟨hold, hmine hold nofun⟩
    | thread u =>
      rcases hown.thread_of_update with ⟨rfl, hold, hkept⟩ | ⟨hu, hold⟩
      · exact ⟨hold, hkept⟩
      · exact ⟨hold, hmine hold fun heq => hu (Owner.thread.inj heq)⟩
  · exact (if_neg hkept).trans hlive

/-- A thread goes from one call to another, or to none. -/
theorem Fits.switch {thread : Thread Call} (l : Local)
    (hself : ThreadFits calls (s.goto t thread) t l)
    (huses : ∀ u a, thread.Uses calls a → ¬(s.thread u).Uses calls a)
    (hsound : Sound (Owns (s.goto t thread) (Function.update locals t l))
      fun b => s.life b = .live) :
    Fits calls (s.goto t thread) (Function.update locals t l) := by
  have hthread : ∀ u, u ≠ t → (s.goto t thread).thread u = s.thread u :=
    fun u hu => Function.update_of_ne hu _ _
  have hnew : (s.goto t thread).thread t = thread := Function.update_self ..
  refine ⟨?_, h.alone, fun {u v a} hu hv => ?_, hsound⟩
  · apply (Function.forall_update_iff locals fun u l => ThreadFits calls (s.goto t thread) u l).mpr
    refine ⟨hself, fun u hu => ?_⟩
    exact (h.threads u).frame (hthread u hu) Iff.rfl Iff.rfl (fun _ => rfl) fun _ _ _ => rfl
  · by_cases hut : u = t
    · by_cases hvt : v = t
      · rw [hut, hvt]
      · rw [hut, hnew] at hu
        rw [hthread v hvt] at hv
        exact absurd hv (huses v a hu)
    · rw [hthread u hut] at hu
      by_cases hvt : v = t
      · rw [hvt, hnew] at hv
        exact absurd hu (huses u a hv)
      · rw [hthread v hvt] at hv
        exact h.unique hu hv

/-- A call gets its object, with the block of its pointer. -/
theorem Fits.start (hverified : calls.Verified) (hidle : s.thread t = .idle)
    (hmay : disciplined calls s (.start t call)) :
    ∃ locals', Fits calls (s.goto t (.running call (calls.program call))) locals' := by
  obtain ⟨p, hnull, hvalue⟩ : ∃ p, (calls.object call = none → p = none) ∧
      ∀ a, calls.object call = some a → s.objects a = some p := by
    cases hobject : calls.object call with
    | none => exact ⟨none, fun _ => rfl, nofun⟩
    | some a =>
      obtain ⟨p, hp⟩ := Option.ne_none_iff_exists'.mp (hmay a hobject).1
      refine ⟨p, nofun, ?_⟩
      rintro _ ⟨⟩
      exact hp
  have hentry : ∀ a q, (entry (calls.object call) p).object = some (a, q) →
      calls.object call = some a ∧ q = p := by
    intro a q hq
    obtain ⟨a', ha', heq⟩ := Option.map_eq_some_iff.mp hq
    cases heq
    exact ⟨ha', rfl⟩
  have hmode := (h.threads t).mode
  rw [(h.threads t).idle hidle] at hmode
  have hself : ThreadFits calls (s.goto t (.running call (calls.program call))) t
      (entry (calls.object call) p) := by
    have hthread : (s.goto t (.running call (calls.program call))).thread t =
        .running call (calls.program call) := Function.update_self ..
    refine ⟨hmode, fun a q hq => ?_, fun hbusy => ?_, fun call' code hrun => ?_⟩
    · obtain ⟨ha, rfl⟩ := hentry a q hq
      rw [hthread]
      exact ⟨hvalue a ha, ha⟩
    · rw [hthread] at hbusy
      cases hbusy
    · rw [hthread] at hrun
      cases hrun
      exact hverified call p hnull
  refine ⟨_, h.switch _ hself (fun u a ha => (hmay a ha).2 u) ?_⟩
  cases hobject : calls.object call with
  | none =>
    obtain rfl := hnull hobject
    refine h.sound.mono (fun {o b} hown => ?_)
    cases o with
    | lock => exact hown
    | object a =>
      refine hown.object_of_update .inl fun _ q hq => ?_
      have huses := ((h.threads t).object a q hq).2
      rw [hidle] at huses
      exact huses.elim
    | thread u =>
      rcases hown.thread_of_update with ⟨-, hempty⟩ | ⟨-, hold⟩
      · cases hempty
      · exact hold
  | some a =>
    have hunused : ∀ u q, (locals u).object ≠ some (a, q) :=
      fun u q hq => (hmay a hobject).2 u ((h.threads u).object a q hq).2
    refine h.sound.move (.object a) (.thread t) (pointee p) (fun {o b} hown => ?_)
    cases o with
    | lock => exact .inr ⟨hown, nofun⟩
    | object a' =>
      have hother : a' ≠ a := by
        rintro rfl
        have hself' := hown.2 t p
        rw [Function.update_self] at hself'
        exact hself' rfl
      refine .inr ⟨⟨hown.1, fun u q hq => ?_⟩, fun heq => absurd (Owner.object.inj heq) hother⟩
      by_cases hut : u = t
      · have huses := ((h.threads u).object a' q hq).2
        rw [hut, hidle] at huses
        exact huses
      · have hunused' := hown.2 u q
        rw [Function.update_of_ne hut] at hunused'
        exact hunused' hq
    | thread u =>
      rcases hown.thread_of_update with ⟨rfl, hb⟩ | ⟨-, hold⟩
      · refine .inl ⟨rfl, hb, ?_, hunused⟩
        rw [hvalue a hobject, show p = some b from hb]
      · exact .inr ⟨hold, nofun⟩

/-- A call leaves its object, with a block of its own if with any. -/
theorem Fits.finish (hrunning : s.thread t = .running call .done) :
    ∃ locals', Fits calls (s.goto t .idle) locals' := by
  obtain ⟨hout, hsettled⟩ := (h.threads t).safe _ _ hrunning
  have hmode := (h.threads t).mode
  rw [hout] at hmode
  have hself : ThreadFits calls (s.goto t .idle) t ⟨.out, ∅, none⟩ := by
    refine ⟨hmode, nofun, fun _ => rfl, fun call' code hrun => ?_⟩
    rw [show (s.goto t .idle).thread t = .idle from Function.update_self ..] at hrun
    cases hrun
  refine ⟨_, h.switch _ hself nofun ?_⟩
  cases hobject : (locals t).object with
  | none =>
    refine h.sound.mono (fun {o b} hown => ?_)
    cases o with
    | lock => exact hown
    | object a =>
      refine hown.object_of_update .inl fun _ q hq => ?_
      rw [hobject] at hq
      cases hq
    | thread u =>
      rcases hown.thread_of_update with ⟨-, hempty⟩ | ⟨-, hold⟩
      · cases hempty
      · exact hold
  | some object =>
    obtain ⟨a, p⟩ := object
    refine h.sound.move (.thread t) (.object a) (pointee p) (fun {o b} hown => ?_)
    cases o with
    | lock => exact .inr ⟨hown, nofun⟩
    | object a' =>
      by_cases ha : a' = a
      · subst ha
        have hvalue := ((h.threads t).object a' p hobject).1
        have hb : b ∈ pointee p := Option.some.inj (hvalue.symm.trans hown.1)
        exact .inl ⟨rfl, hb, hsettled a' p hobject hb⟩
      · refine .inr ⟨⟨hown.1, fun u q hq => ?_⟩, nofun⟩
        by_cases hut : u = t
        · rw [hut, hobject] at hq
          cases hq
          exact ha rfl
        · have hunused := hown.2 u q
          rw [Function.update_of_ne hut] at hunused
          exact hunused hq
    | thread u =>
      rcases hown.thread_of_update with ⟨-, hempty⟩ | ⟨hu, hold⟩
      · cases hempty
      · exact .inr ⟨hold, fun heq => absurd (Owner.thread.inj heq) hu⟩

end steps

theorem Fits.advanced {call : Call} {choice : Option Nat} {code : Code}
    (h : Fits calls s locals) (hthread : s.thread t = .running call code)
    (hstep : LockedHeap.advance s t call choice code = some s') :
    ∃ locals', Fits calls s' locals' := by
  have hsafe := (h.threads t).safe _ _ hthread
  have hmode := (h.threads t).mode
  cases code with
  | done => simp [LockedHeap.advance] at hstep
  | readFlag next =>
    cases hstep
    exact ⟨_, h.quiet s.flag hthread (hsafe.2 _)⟩
  | writeFlag value next =>
    cases hstep
    exact ⟨_, h.quiet value hthread hsafe.2⟩
  | wrlock next =>
    simp only [LockedHeap.advance, Option.ite_none_right_eq_some] at hstep
    obtain ⟨hfree, ⟨⟩⟩ := hstep
    exact h.wrlock hthread hfree
  | rdlock next =>
    simp only [LockedHeap.advance, Option.ite_none_right_eq_some] at hstep
    obtain ⟨hfree, ⟨⟩⟩ := hstep
    exact h.rdlock hthread hfree
  | unlock next =>
    cases hstep
    exact h.unlock hthread
  | readShared next =>
    cases hstep
    obtain ⟨-, p, hp, hnext⟩ := hsafe
    have hshared : s.shared = p := by
      rcases hp with hp | hp <;> rw [hp] at hmode <;> exact hmode.2.2
    rw [← hshared] at hnext
    exact ⟨_, h.quiet s.flag hthread hnext⟩
  | writeShared p next =>
    cases hstep
    exact h.writeShared hthread
  | newObject next =>
    cases choice with
    | none =>
      cases hstep
      exact ⟨_, h.quiet s.flag hthread (hsafe.2 _)⟩
    | some a =>
      simp only [LockedHeap.advance, Option.ite_none_right_eq_some] at hstep
      obtain ⟨hnone, ⟨⟩⟩ := hstep
      exact h.newObject hthread hnone
  | readObject a next =>
    obtain ⟨-, p, hp, hnext⟩ := hsafe
    simp only [LockedHeap.advance, ((h.threads t).object a p hp).1, Option.map_some] at hstep
    cases hstep
    exact ⟨_, h.quiet s.flag hthread hnext⟩
  | writeObject a p next =>
    obtain ⟨_, -, rfl⟩ := Option.map_eq_some_iff.mp hstep
    exact h.writeObject hthread
  | freeObject a next =>
    obtain ⟨_, -, rfl⟩ := Option.map_eq_some_iff.mp hstep
    exact h.freeObject hthread
  | malloc next =>
    cases choice with
    | none =>
      cases hstep
      exact ⟨_, h.quiet s.flag hthread hsafe.2.1⟩
    | some b =>
      simp only [LockedHeap.advance, Option.ite_none_right_eq_some] at hstep
      obtain ⟨hunused, ⟨⟩⟩ := hstep
      exact h.malloc hthread hunused
  | access p next =>
    cases hstep
    exact ⟨_, h.quiet s.flag hthread hsafe.2.2⟩
  | free p next =>
    cases hstep
    exact h.free hthread

theorem Fits.step {label : Label T Call} (hverified : calls.Verified) (h : Fits calls s locals)
    (hmay : disciplined calls s label) (hstep : step calls s label = some s') :
    ∃ locals', Fits calls s' locals' := by
  obtain ⟨t, call, rfl, hthread, rfl⟩ | ⟨t, call, rfl, hthread, rfl⟩ |
    ⟨t, choice, call, code, rfl, hthread, hadvance⟩ := step_cases calls hstep
  · exact h.start hverified hthread hmay
  · exact h.finish hthread
  · exact h.advanced hthread hadvance

theorem initial_fits : ∃ locals, Fits calls (machine calls T).init locals := by
  refine ⟨fun _ => ⟨.out, ∅, none⟩, fun t => ?_, .inl rfl, nofun, ?_, ?_⟩
  · exact ⟨⟨nofun, Finset.notMem_empty t⟩, nofun, fun _ => rfl, nofun⟩
  · rintro (_ | a | t) b hown
    · cases hown.2
    · cases hown.1
    · cases hown
  · rintro (_ | a | t) _ b hown
    · cases hown.2
    · cases hown.1
    · cases hown

theorem run_fits {labels : List (Label T Call)} (hverified : calls.Verified)
    (hrun : (machine calls T).Run (disciplined calls) labels s) :
    ∃ locals, Fits calls s locals := by
  refine @Machine.Run.invariant _ _ (machine calls T) (disciplined calls)
    (fun s => ∃ locals, Fits calls s locals) labels s hrun initial_fits ?_
  rintro s label s' hmay hstep ⟨locals, hfits⟩
  exact hfits.step hverified hmay hstep

/-- Only the lock operations and the assignment touch the lock and the shared pointer. -/
theorem advance_guarded {call : Call} {choice : Option Nat} {code : Code}
    (hstep : advance s t call choice code = some s') :
    (s'.writer = s.writer ∧ s'.shared = s.shared) ∨ (∃ next, code = .wrlock next ∧ s.readers = ∅) ∨
      (∃ next, code = .unlock next ∧ s'.shared = s.shared ∧
        (s'.writer = none ∨ s'.writer = s.writer)) ∨ ∃ p next, code = .writeShared p next := by
  cases code with
  | done => cases hstep
  | wrlock next =>
    simp only [LockedHeap.advance, Option.ite_none_right_eq_some] at hstep
    exact .inr (.inl ⟨next, rfl, hstep.1.2⟩)
  | unlock next =>
    cases hstep
    refine .inr (.inr (.inl ⟨next, rfl, rfl, ?_⟩))
    change (if s.writer = some t then none else s.writer) = none ∨ _
    by_cases hw : s.writer = some t
    · exact .inl (if_pos hw)
    · exact .inr (if_neg hw)
  | writeShared p next => exact .inr (.inr (.inr ⟨p, next, rfl⟩))
  | rdlock next =>
    simp only [LockedHeap.advance, Option.ite_none_right_eq_some] at hstep
    obtain ⟨-, ⟨⟩⟩ := hstep
    exact .inl ⟨rfl, rfl⟩
  | readObject a next | writeObject a p next | freeObject a next =>
    obtain ⟨_, -, rfl⟩ := Option.map_eq_some_iff.mp hstep
    exact .inl ⟨rfl, rfl⟩
  | newObject next | malloc next =>
    cases choice with
    | none =>
      cases hstep
      exact .inl ⟨rfl, rfl⟩
    | some a =>
      simp only [LockedHeap.advance, Option.ite_none_right_eq_some] at hstep
      obtain ⟨-, ⟨⟩⟩ := hstep
      exact .inl ⟨rfl, rfl⟩
  | readFlag next | writeFlag value next | readShared next | access p next | free p next =>
    cases hstep
    exact .inl ⟨rfl, rfl⟩

/-- While there is a reader, no step replaces the shared pointer or frees its block. -/
theorem Fits.reader_kept {label : Label T Call} (hverified : calls.Verified)
    (h : Fits calls s locals) (ht : t ∈ s.readers) (hmay : disciplined calls s label)
    (hstep : LockedHeap.step calls s label = some s') :
    s'.shared = s.shared ∧ ∀ b, s.shared = some b → s'.life b = .live := by
  have hwriter : s.writer = none := h.alone.resolve_right (Finset.ne_empty_of_mem ht)
  have hkept : s'.writer = none ∧ s'.shared = s.shared := by
    obtain ⟨u, call, -, -, rfl⟩ | ⟨u, call, -, -, rfl⟩ |
      ⟨u, choice, call, code, -, hthread, hadvance⟩ := step_cases calls hstep
    · exact ⟨hwriter, rfl⟩
    · exact ⟨hwriter, rfl⟩
    · rcases advance_guarded hadvance with ⟨hw, hs⟩ | ⟨next, -, hnone⟩ | ⟨next, -, hs, hw⟩ |
        ⟨p, next, rfl⟩
      · exact ⟨hw.trans hwriter, hs⟩
      · exact absurd hnone (Finset.ne_empty_of_mem ht)
      · exact ⟨hw.elim id fun hw => hw.trans hwriter, hs⟩
      · obtain ⟨-, ⟨q, hq⟩, -⟩ := (h.threads u).safe _ _ hthread
        have hmode := (h.threads u).mode
        rw [hq, ModeFits, hwriter] at hmode
        cases hmode.1
  obtain ⟨locals', h'⟩ := h.step hverified hmay hstep
  refine ⟨hkept.2, fun b hb => h'.shared_live hkept.1 ?_⟩
  rw [hkept.2]
  exact hb

end invariant

end Foundation.LockedHeap
