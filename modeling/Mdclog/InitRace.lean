import Mdclog.ApiFrame
import Mdclog.Foundation.Machine

/-! `init_done` between `mdclog_init` of one thread and the calls of the others that run
`init_library(NULL)`. The accesses outside the lock and the critical sections are the
steps; what a critical section does is `Api.configure`. -/
namespace Mdclog.InitRace
open Foundation Foundation.StateProgram
open CString Escape Api ApiFrame

/-- `mdclog_init` of an object that carries `identity`: before it clears the flag,
between that and its test, behind the test, and back with zero. -/
inductive MainPc where
  | idle
  | cleared (attr : Nat) (identity : CStr)
  | entering (attr : Nat) (identity : CStr)
  | returned (identity : CStr)
  deriving DecidableEq

/-- `entering t` says that thread `t` is behind its test and before its critical section.
A call of the initialising thread between two `mdclog_init` is one of some `t`. -/
structure State (T : Type) where
  library : Library T
  main : MainPc
  entering : T → Bool

inductive Label (T : Type) where
  | clear (attr : Nat)
  | testInit
  | enterInit
  | test (t : T)
  | enter (t : T)

/-- `mdclog_init` begins with an object that has an identity. -/
def State.clear (s : State T) (attr : Nat) : Option (State T) := do
  let identity ← s.library.attrs attr
  let identity ← identity
  return { s with library := { s.library with initDone := false, logFormatInitDone := false }
                  main := .cleared attr identity }

def step [DecidableEq T] (system : System) (s : State T) : Label T → Option (State T)
  | .clear attr =>
      match s.main with
      | .idle | .returned _ => s.clear attr
      | _ => none
  | .testInit =>
      match s.main with
      | .cleared attr identity =>
          some { s with main := if s.library.initDone then .returned identity
                                else .entering attr identity }
      | _ => none
  | .enterInit =>
      match s.main with
      | .entering attr identity => do
          let (_, library) ← (configure system (some attr)).run s.library
          return { s with library := library, main := .returned identity }
      | _ => none
  | .test t =>
      if s.entering t then none
      else some { s with entering := Function.update s.entering t !s.library.initDone }
  | .enter t =>
      if s.entering t then do
        let (_, library) ← (configure system none).run s.library
        return { s with library := library, entering := Function.update s.entering t false }
      else none

/-- The library may be in any state at the start. -/
def machine [DecidableEq T] (system : System) (library : Library T) :
    Machine (State T) (Label T) where
  init := ⟨library, .idle, fun _ => false⟩
  step := step system

/-- Between the return of `mdclog_init` and the start of another the identity is that of
its object. -/
def Configured (s : State T) : Prop :=
  ∀ identity, s.main = .returned identity → s.library.identity = some identity

/-- Not between the clearing of the flag and its test, and not behind the critical
section of `mdclog_init`. -/
def MainPc.harmless : MainPc → Bool
  | .idle | .entering _ _ => true
  | .cleared _ _ | .returned _ => false

/-- No other critical section where it undoes what `mdclog_init` does. -/
def ordered (s : State T) : Label T → Prop
  | .enter _ => s.main.harmless = true
  | _ => True

instance (s : State T) : (label : Label T) → Decidable (ordered s label)
  | .enter _ => inferInstanceAs (Decidable (s.main.harmless = true))
  | .clear _ | .testInit | .enterInit | .test _ => inferInstanceAs (Decidable True)

/-- What holds while the critical sections are ordered. -/
def Inv (s : State T) : Prop :=
  match s.main with
  | .idle => True
  | .cleared attr identity =>
      s.library.initDone = false ∧ s.library.attrs attr = some (some identity)
  | .entering attr identity => s.library.attrs attr = some (some identity)
  | .returned identity => s.library.identity = some identity

theorem configure_given {system : System} {library : Library T} {attr : Nat} {identity : CStr}
    (hattr : library.attrs attr = some (some identity)) :
    Wlp (fun _ library' => library'.identity = some identity)
      (configure system (some attr)) library := by
  apply Wlp.bind
  apply Wlp.bind
  apply Wlp.get
  apply Wlp.lift
  rw [hattr]
  rintro _ ⟨⟩
  exact Wlp.modify rfl

/-- The critical section of the others. -/
theorem configure_default (system : System) (library : Library T) :
    Wlp (fun _ library' => library'.attrs = library.attrs ∧ library'.initDone = true ∧
      Fallback system library'.identity) (configure system none) library := by
  apply Wlp.bind
  apply Wlp.pure
  apply Wlp.bind
  have hdefault := @defaultIdentity_keeps T system (fun s => s.attrs = library.attrs) (fun hs => hs)
    library rfl
  refine hdefault.mono ?_
  rintro identity library' ⟨hattrs, hidentity⟩
  exact Wlp.modify ⟨hattrs, rfl, hidentity⟩

section runs
variable [DecidableEq T] {system : System} {library : Library T}

theorem step_enter {s s' : State T} {t : T} (hstep : step system s (.enter t) = some s') :
    s'.main = s.main ∧ s'.library.attrs = s.library.attrs ∧ s'.library.initDone = true ∧
      Fallback system s'.library.identity := by
  simp only [step, Option.ite_none_right_eq_some, Option.bind_eq_bind,
    Option.bind_eq_some_iff] at hstep
  obtain ⟨-, ⟨_, library'⟩, hrun, ⟨⟩⟩ := hstep
  exact ⟨rfl, configure_default system s.library _ _ hrun⟩

theorem step_inv {s s' : State T} {label : Label T} (hmay : ordered s label)
    (hstep : step system s label = some s') (h : Inv s) : Inv s' := by
  cases label with
  | clear attr =>
    have hclear : s.clear attr = some s' := by
      unfold step at hstep
      cases hmain : s.main <;> simp only [hmain, reduceCtorEq] at hstep <;> exact hstep
    simp only [State.clear, Option.bind_eq_bind, Option.bind_eq_some_iff] at hclear
    obtain ⟨_, hattr, identity, rfl, ⟨⟩⟩ := hclear
    exact ⟨rfl, hattr⟩
  | testInit =>
    cases hmain : s.main with
    | cleared attr identity =>
      rw [Inv, hmain] at h
      simp only [step, hmain, h.1] at hstep
      cases hstep
      exact h.2
    | idle => simp [step, hmain] at hstep
    | entering attr identity => simp [step, hmain] at hstep
    | returned identity => simp [step, hmain] at hstep
  | enterInit =>
    cases hmain : s.main with
    | entering attr identity =>
      rw [Inv, hmain] at h
      simp only [step, hmain, Option.bind_eq_bind, Option.bind_eq_some_iff] at hstep
      obtain ⟨⟨_, library'⟩, hrun, ⟨⟩⟩ := hstep
      exact configure_given h _ _ hrun
    | idle => simp [step, hmain] at hstep
    | cleared attr identity => simp [step, hmain] at hstep
    | returned identity => simp [step, hmain] at hstep
  | test t =>
    simp only [step, Option.ite_none_left_eq_some] at hstep
    obtain ⟨-, ⟨⟩⟩ := hstep
    exact h
  | enter t =>
    obtain ⟨hmain', hattrs, -, -⟩ := step_enter hstep
    rw [Inv, hmain']
    cases hmain : s.main with
    | idle => trivial
    | entering attr identity =>
      rw [Inv, hmain] at h
      change s'.library.attrs attr = _
      rw [hattrs]
      exact h
    | cleared attr identity =>
      have hharmless : s.main.harmless = true := hmay
      rw [hmain] at hharmless
      cases hharmless
    | returned identity =>
      have hharmless : s.main.harmless = true := hmay
      rw [hmain] at hharmless
      cases hharmless

/-- A critical section out of order undoes the identity, if it is not the default one. -/
theorem exists_undone {s s₁ : State T} {t : T} (henter : step system s (.enter t) = some s₁)
    (hout : ¬ordered s (.enter t))
    (hother : ∀ attr identity, s.main = .cleared attr identity ∨ s.main = .returned identity →
      identity ≠ CStr.escaped system.progname) :
    ∃ (later : List (Label T)) (s' : State T),
      later.foldlM (step system) s₁ = some s' ∧ ¬Configured s' := by
  obtain ⟨hmain₁, -, hdone, hfallback, -⟩ := step_enter henter
  cases hmain : s.main with
  | idle =>
    have hharmless : s.main.harmless = true := by rw [hmain]; rfl
    exact absurd hharmless hout
  | entering attr identity =>
    have hharmless : s.main.harmless = true := by rw [hmain]; rfl
    exact absurd hharmless hout
  | cleared attr identity =>
    -- the test finds the flag set, and `mdclog_init` returns
    have htest : step system s₁ .testInit = some { s₁ with main := .returned identity } := by
      simp only [step, hmain₁, hmain, hdone, if_true]
    refine ⟨[.testInit], { s₁ with main := .returned identity }, ?_, fun hconfigured => ?_⟩
    · rw [List.foldlM_cons, htest]
      rfl
    · exact hother attr identity (.inl hmain) (hfallback identity (hconfigured identity rfl))
  | returned identity =>
    refine ⟨[], s₁, rfl, fun hconfigured => ?_⟩
    have hidentity := hconfigured identity (hmain₁.trans hmain)
    exact hother 0 identity (.inr hmain) (hfallback identity hidentity)

end runs

theorem Inv.configured {s : State T} (h : Inv s) : Configured s := by
  intro identity hmain
  rwa [Inv, hmain] at h

/-- In every run in which no other thread has its critical section between the clearing
and the test of `mdclog_init` or behind the critical section of `mdclog_init`, the
identity is the one it was called with; any other critical section there undoes it. -/
theorem init_configures [DecidableEq T] (system : System) (library : Library T) :
    (∀ {labels : List (Label T)} {s : State T},
      (machine system library).Run ordered labels s → Configured s) ∧
    ∀ {labels : List (Label T)} {s s₁ : State T} {t : T},
      (machine system library).Run (fun _ _ => True) labels s →
      step system s (.enter t) = some s₁ → ¬ordered s (.enter t) →
      (∀ attr identity, s.main = .cleared attr identity ∨ s.main = .returned identity →
        identity ≠ CStr.escaped system.progname) →
      ∃ later s', (machine system library).Run (fun _ _ => True) (labels ++ .enter t :: later) s' ∧
        ¬Configured s' := by
  constructor
  · intro labels s hrun
    exact (hrun.invariant trivial step_inv).configured
  · intro labels s s₁ t hrun henter hout hother
    obtain ⟨later, s', hlater, hundone⟩ := exists_undone henter hout hother
    exact ⟨later, s', hrun.continue henter hlater, hundone⟩

/-- A library with one prepared object. -/
def prepared : Library Unit :=
  { Library.initial with
    attrs := fun attr => if attr = 0 then some (some (.ofString "x")) else none }

theorem init_configures_slow_logger :
    ∃ (labels : List (Label Unit)) (s : State Unit),
      (machine ⟨.ofString "prog", fun _ => true⟩ prepared).Run ordered labels s ∧
      s.main = .returned (.ofString "x") ∧ s.library.identity = some (.ofString "x") := by
  have hexec : ([Label.test (), .clear 0, .testInit, .enter (), .enterInit, .test ()].foldlM
      (fun s label => if ordered s label then
        (machine ⟨.ofString "prog", fun _ => true⟩ prepared).step s label else none)
      (machine ⟨.ofString "prog", fun _ => true⟩ prepared).init).map State.main =
      some (.returned (.ofString "x")) := by
    decide +kernel
  obtain ⟨s, hexec, hmain⟩ := Option.map_eq_some_iff.mp hexec
  have hrun := Machine.Run.of_steps hexec
  exact ⟨_, s, hrun, hmain, (init_configures _ prepared).1 hrun _ hmain⟩

/-- A logger that has tested the flag before `mdclog_init` comes to its critical section
afterwards. -/
theorem init_undone :
    ∃ (labels : List (Label Unit)) (s : State Unit),
      (machine ⟨.ofString "prog", fun _ => true⟩ prepared).Run (fun _ _ => True) labels s ∧
      s.main = .returned (.ofString "x") ∧ s.library.identity = some (.ofString "prog") ∧
      ¬Configured s := by
  have hexec : ([Label.test (), .clear 0, .testInit, .enterInit, .enter ()].foldlM
      (fun s label => if True then
        (machine ⟨.ofString "prog", fun _ => true⟩ prepared).step s label else none)
      (machine ⟨.ofString "prog", fun _ => true⟩ prepared).init).map
        (fun s => (s.main, s.library.identity)) =
      some (.returned (.ofString "x"), some (.ofString "prog")) := by
    decide +kernel
  obtain ⟨s, hexec, hstate⟩ := Option.map_eq_some_iff.mp hexec
  rw [Prod.mk.injEq] at hstate
  refine ⟨_, s, Machine.Run.of_steps hexec, hstate.1, hstate.2, fun hconfigured => ?_⟩
  have hidentity := hconfigured _ hstate.1
  rw [hstate.2] at hidentity
  exact absurd hidentity (by decide)

end Mdclog.InitRace
