import Mathlib.Logic.Function.Basic
import Mdclog.Foundation.Machine

/-! The key of the MDC lists: `create_pthread_key` runs under `pthread_once`, which
`init_library` calls behind its test of `init_done`, and any thread may clear that flag
again. -/
namespace Mdclog.KeyOnce
open Foundation

/-- `mdckey_once`. -/
inductive Once (T : Type) where
  | fresh
  | running (t : T)
  | done
  deriving DecidableEq

/-- A thread outside the library, before its test of `init_done`, before `pthread_once`, in
`create_pthread_key` before and behind `pthread_key_create`, before its critical section, and
back from `init_library`. -/
inductive Pc where
  | idle
  | testing
  | calling
  | creating
  | created
  | publishing
  | back
  deriving DecidableEq

/-- `keys` is how often `pthread_key_create` has been called. -/
structure State (T : Type) where
  once : Once T
  keys : Nat
  initDone : Bool
  pcs : T → Pc

/-- `init` is the beginning of `mdclog_init`, `begin` that of an MDC call or of `mdclog_write`,
`access` the use of the key in `get_list`. -/
inductive Label (T : Type) where
  | init (t : T)
  | begin (t : T)
  | clean (t : T)
  | test (t : T)
  | once (t : T)
  | create (t : T)
  | finish (t : T)
  | publish (t : T)
  | access (t : T)
  | leave (t : T)

variable {T : Type} [DecidableEq T]

def State.goto (s : State T) (t : T) (pc : Pc) : State T :=
  { s with pcs := Function.update s.pcs t pc }

theorem goto_pcs (s : State T) (t u : T) (pc : Pc) :
    (s.goto t pc).pcs u = if u = t then pc else s.pcs u := Function.update_apply ..

/-- `pthread_once` runs its function in the first call and makes the others wait for its end. -/
def step (s : State T) : Label T → Option (State T)
  | .init t =>
      if s.pcs t = .idle then some { s.goto t .testing with initDone := false } else none
  | .begin t => if s.pcs t = .idle then some (s.goto t .testing) else none
  | .clean t => if s.pcs t = .idle then some { s with initDone := false } else none
  | .test t =>
      if s.pcs t = .testing then some (s.goto t (if s.initDone then .back else .calling)) else none
  | .once t =>
      if s.pcs t = .calling then
        match s.once with
        | .fresh => some { s.goto t .creating with once := .running t }
        | .running _ => none
        | .done => some (s.goto t .publishing)
      else none
  | .create t =>
      if s.pcs t = .creating then some { s.goto t .created with keys := s.keys + 1 } else none
  | .finish t =>
      if s.pcs t = .created then some { s.goto t .publishing with once := .done } else none
  | .publish t =>
      if s.pcs t = .publishing then some { s.goto t .back with initDone := true } else none
  | .access t => if s.pcs t = .back then some s else none
  | .leave t => if s.pcs t = .back then some (s.goto t .idle) else none

def machine (T : Type) [DecidableEq T] : Machine (State T) (Label T) where
  init := ⟨.fresh, 0, false, fun _ => .idle⟩
  step := step

/-- Who runs the function, and what it has done. -/
structure Inv (s : State T) : Prop where
  fresh : s.once = .fresh → s.keys = 0
  running : ∀ t, s.once = .running t →
    s.pcs t = .creating ∧ s.keys = 0 ∨ s.pcs t = .created ∧ s.keys = 1
  done : s.once = .done → s.keys = 1
  inside : ∀ t, s.pcs t = .creating ∨ s.pcs t = .created → s.once = .running t
  past : ∀ t, s.pcs t = .publishing ∨ s.pcs t = .back → s.once = .done
  flag : s.initDone = true → s.once = .done

/-- A thread that is not in the function goes to a place outside it. -/
theorem Inv.goto {s : State T} (h : Inv s) {t : T} {pc : Pc}
    (hfrom : s.pcs t ≠ .creating ∧ s.pcs t ≠ .created) (hto : pc ≠ .creating ∧ pc ≠ .created)
    (hpast : pc = .publishing ∨ pc = .back → s.once = .done) : Inv (s.goto t pc) where
  fresh := h.fresh
  running u hu := by
    have hne : u ≠ t := by
      rintro rfl
      rcases h.running u hu with ⟨hpc, -⟩ | ⟨hpc, -⟩
      · exact hfrom.1 hpc
      · exact hfrom.2 hpc
    rw [goto_pcs, if_neg hne]
    exact h.running u hu
  done := h.done
  inside u hu := by
    by_cases hut : u = t
    · subst hut
      rw [goto_pcs, if_pos rfl] at hu
      exact (hu.elim hto.1 hto.2).elim
    · exact h.inside u (by simpa [goto_pcs, hut] using hu)
  past u hu := by
    by_cases hut : u = t
    · subst hut
      exact hpast (by simpa [goto_pcs] using hu)
    · exact h.past u (by simpa [goto_pcs, hut] using hu)
  flag := h.flag

/-- The first call begins to run the function. -/
theorem Inv.run {s : State T} (h : Inv s) (t : T) (honce : s.once = .fresh) :
    Inv { s.goto t .creating with once := .running t } where
  fresh := nofun
  running u hu := by
    cases hu
    exact .inl ⟨by simp [goto_pcs], h.fresh honce⟩
  done := nofun
  inside u hu := by
    by_cases hut : u = t
    · rw [hut]
    · have hrunning := h.inside u (by simpa [goto_pcs, hut] using hu)
      rw [honce] at hrunning
      cases hrunning
  past u hu := by
    by_cases hut : u = t
    · simp [goto_pcs, hut] at hu
    · have hdone := h.past u (by simpa [goto_pcs, hut] using hu)
      rw [honce] at hdone
      cases hdone
  flag hset := by
    have hdone := h.flag hset
    rw [honce] at hdone
    cases hdone

theorem Inv.create {s : State T} (h : Inv s) {t : T} (hpc : s.pcs t = .creating) :
    Inv { s.goto t .created with keys := s.keys + 1 } := by
  have honce := h.inside t (.inl hpc)
  have hkeys : s.keys = 0 := by
    rcases h.running t honce with ⟨-, hkeys⟩ | ⟨hcreated, -⟩
    · exact hkeys
    · rw [hpc] at hcreated
      cases hcreated
  refine ⟨?_, ?_, ?_, ?_, ?_, h.flag⟩
  · intro hfresh
    cases honce.symm.trans hfresh
  · intro u hu
    cases honce.symm.trans hu
    exact .inr ⟨by simp [goto_pcs], by simp [hkeys]⟩
  · intro hdone
    cases honce.symm.trans hdone
  · intro u hu
    by_cases hut : u = t
    · rw [hut]
      exact honce
    · exact h.inside u (by simpa [goto_pcs, hut] using hu)
  · intro u hu
    by_cases hut : u = t
    · simp [goto_pcs, hut] at hu
    · exact h.past u (by simpa [goto_pcs, hut] using hu)

theorem Inv.finish {s : State T} (h : Inv s) {t : T} (hpc : s.pcs t = .created) :
    Inv { s.goto t .publishing with once := .done } := by
  have honce := h.inside t (.inr hpc)
  refine ⟨nofun, nofun, fun _ => ?_, ?_, fun _ _ => rfl, fun _ => rfl⟩
  · rcases h.running t honce with ⟨hcreating, -⟩ | ⟨-, hkeys⟩
    · rw [hpc] at hcreating
      cases hcreating
    · exact hkeys
  · intro u hu
    by_cases hut : u = t
    · simp [goto_pcs, hut] at hu
    · have hrunning := h.inside u (by simpa [goto_pcs, hut] using hu)
      cases honce.symm.trans hrunning
      exact absurd rfl hut

theorem step_inv {s s' : State T} {label : Label T} (hstep : step s label = some s')
    (h : Inv s) : Inv s' := by
  cases label with
  | init t =>
    simp only [step, Option.ite_none_right_eq_some, Option.some.injEq] at hstep
    obtain ⟨hpc, rfl⟩ := hstep
    have hgoto : Inv (s.goto t .testing) := h.goto (by simp [hpc]) (by simp) (by simp)
    exact ⟨hgoto.fresh, hgoto.running, hgoto.done, hgoto.inside, hgoto.past, nofun⟩
  | begin t =>
    simp only [step, Option.ite_none_right_eq_some, Option.some.injEq] at hstep
    obtain ⟨hpc, rfl⟩ := hstep
    exact h.goto (by simp [hpc]) (by simp) (by simp)
  | clean t =>
    simp only [step, Option.ite_none_right_eq_some, Option.some.injEq] at hstep
    obtain ⟨-, rfl⟩ := hstep
    exact ⟨h.fresh, h.running, h.done, h.inside, h.past, nofun⟩
  | test t =>
    simp only [step, Option.ite_none_right_eq_some, Option.some.injEq] at hstep
    obtain ⟨hpc, rfl⟩ := hstep
    cases hdone : s.initDone with
    | true => exact h.goto (by simp [hpc]) (by simp) fun _ => h.flag hdone
    | false => exact h.goto (by simp [hpc]) (by simp) (by simp)
  | once t =>
    simp only [step, Option.ite_none_right_eq_some] at hstep
    obtain ⟨hpc, hstep⟩ := hstep
    cases honce : s.once with
    | fresh =>
      rw [honce] at hstep
      cases hstep
      exact h.run t honce
    | running u =>
      rw [honce] at hstep
      cases hstep
    | done =>
      rw [honce] at hstep
      cases hstep
      exact h.goto (by simp [hpc]) (by simp) fun _ => honce
  | create t =>
    simp only [step, Option.ite_none_right_eq_some, Option.some.injEq] at hstep
    obtain ⟨hpc, rfl⟩ := hstep
    exact h.create hpc
  | finish t =>
    simp only [step, Option.ite_none_right_eq_some, Option.some.injEq] at hstep
    obtain ⟨hpc, rfl⟩ := hstep
    exact h.finish hpc
  | publish t =>
    simp only [step, Option.ite_none_right_eq_some, Option.some.injEq] at hstep
    obtain ⟨hpc, rfl⟩ := hstep
    have hdone := h.past t (.inl hpc)
    have hgoto : Inv (s.goto t .back) := h.goto (by simp [hpc]) (by simp) fun _ => hdone
    exact ⟨hgoto.fresh, hgoto.running, hgoto.done, hgoto.inside, hgoto.past, fun _ => hdone⟩
  | access t =>
    simp only [step, Option.ite_none_right_eq_some, Option.some.injEq] at hstep
    obtain ⟨-, rfl⟩ := hstep
    exact h
  | leave t =>
    simp only [step, Option.ite_none_right_eq_some, Option.some.injEq] at hstep
    obtain ⟨hpc, rfl⟩ := hstep
    exact h.goto (by simp [hpc]) (by simp) (by simp)

/-- The steps that go on with a call. -/
def Label.goesOn : Label T → Bool
  | .init _ | .begin _ | .clean _ | .access _ => false
  | _ => true

/-- While a thread is in the library some thread can go on: who waits in `pthread_once` waits
for one that is in the function. -/
theorem exists_step {s : State T} (h : Inv s) {t : T} (hpc : s.pcs t ≠ .idle) :
    ∃ label s', label.goesOn = true ∧ step s label = some s' := by
  cases hplace : s.pcs t with
  | idle => exact absurd hplace hpc
  | testing => exact ⟨.test t, _, rfl, if_pos hplace⟩
  | calling =>
    cases honce : s.once with
    | fresh => exact ⟨.once t, _, rfl, by rw [step, if_pos hplace, honce]⟩
    | done => exact ⟨.once t, _, rfl, by rw [step, if_pos hplace, honce]⟩
    | running u =>
      rcases h.running u honce with ⟨hcreating, -⟩ | ⟨hcreated, -⟩
      · exact ⟨.create u, _, rfl, if_pos hcreating⟩
      · exact ⟨.finish u, _, rfl, if_pos hcreated⟩
  | creating => exact ⟨.create t, _, rfl, if_pos hplace⟩
  | created => exact ⟨.finish t, _, rfl, if_pos hplace⟩
  | publishing => exact ⟨.publish t, _, rfl, if_pos hplace⟩
  | back => exact ⟨.leave t, _, rfl, if_pos hplace⟩

/-- In every run `pthread_key_create` is called at most once, it has been called whenever a
thread is back from `init_library` or finds `init_done` set, and no thread is left waiting. -/
theorem key_created_once {labels : List (Label T)} {s : State T}
    (hrun : (machine T).Run (fun _ _ => True) labels s) :
    s.keys ≤ 1 ∧ (∀ t, s.pcs t = .back → s.keys = 1) ∧ (s.initDone = true → s.keys = 1) ∧
      ∀ t, s.pcs t ≠ .idle → ∃ label s', label.goesOn = true ∧ step s label = some s' := by
  have h : Inv s := hrun.invariant ⟨fun _ => rfl, nofun, nofun, by simp [machine],
    by simp [machine], nofun⟩ fun _ hstep => step_inv hstep
  refine ⟨?_, fun t hpc => h.done (h.past t (.inr hpc)), fun hset => h.done (h.flag hset),
    fun t hpc => exists_step h hpc⟩
  cases honce : s.once with
  | fresh => exact Nat.le_trans (Nat.le_of_eq (h.fresh honce)) (Nat.zero_le 1)
  | running t => rcases h.running t honce with ⟨-, hkeys⟩ | ⟨-, hkeys⟩ <;> omega
  | done => exact Nat.le_of_eq (h.done honce)

/-- The flag is cleared while another thread is in `create_pthread_key`, and the call that
cleared it comes to `pthread_once` when that one is back. -/
def cleared : List (Label Bool) :=
  [.begin true, .test true, .once true, .init false, .test false, .create true, .finish true,
    .once false, .publish false]

theorem key_created_once_cleared : ∃ s : State Bool,
    (machine Bool).Run (fun _ _ => True) cleared s ∧ s.keys = 1 ∧ s.pcs false = .back := by
  obtain ⟨s, hsteps, hback⟩ : ∃ s, cleared.foldlM
      (fun s label => if True then step s label else none) (machine Bool).init = some s ∧
      s.pcs false = .back := ⟨_, rfl, rfl⟩
  have hrun : (machine Bool).Run (fun _ _ => True) cleared s := Machine.Run.of_steps hsteps
  exact ⟨s, hrun, (key_created_once hrun).2.1 false hback, hback⟩

end Mdclog.KeyOnce
