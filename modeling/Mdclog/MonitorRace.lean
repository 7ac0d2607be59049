import Mdclog.Foundation.Machine

/-! `log_format_init_done` between the calls that start a monitor and the monitors
themselves, one access at a time. Files, watches and `pthread_create` are there. -/
namespace Mdclog.MonitorRace
open Foundation

/-- `mdclog_format_initialize(1)` of a thread: not running, or behind its test of the
flag and before its `pthread_create`. -/
inductive CallerPc where
  | idle
  | creating
  deriving DecidableEq

/-- `monitor_loglevel_change_handler`: not started yet, before it sets the flag, at the
test of its loop, in the loop's body, behind the loop, and gone. -/
inductive MonitorPc where
  | created
  | started
  | testing
  | watching
  | leaving
  | gone
  deriving DecidableEq

structure State (T : Type) where
  logFormatInitDone : Bool
  callers : T → CallerPc
  monitors : List MonitorPc

/-- `init` is the access of `mdclog_init`, `test` and `create` are those of
`mdclog_format_initialize(1)`, the others are steps of the `index`-th monitor. -/
inductive Label (T : Type) where
  | init (t : T)
  | test (t : T)
  | create (t : T)
  | start (index : Nat)
  | setFlag (index : Nat)
  | testLoop (index : Nat)
  | wake (index : Nat)
  | exit (index : Nat)

/-- The `index`-th monitor goes from one place to another. -/
def State.move (s : State T) (index : Nat) (source target : MonitorPc) : Option (State T) :=
  if s.monitors[index]? = some source then
    some { s with monitors := s.monitors.set index target }
  else none

def step [DecidableEq T] (s : State T) : Label T → Option (State T)
  | .init t => if s.callers t = .idle then some { s with logFormatInitDone := false } else none
  | .test t =>
      if s.callers t = .idle then
        if s.logFormatInitDone then some s
        else some { s with callers := Function.update s.callers t .creating }
      else none
  | .create t =>
      if s.callers t = .creating then
        some { s with callers := Function.update s.callers t .idle
                      monitors := s.monitors ++ [.created] }
      else none
  | .start index => s.move index .created .started
  | .setFlag index => { s with logFormatInitDone := true }.move index .started .testing
  | .testLoop index =>
      s.move index .testing (if s.logFormatInitDone then .watching else .leaving)
  | .wake index => s.move index .watching .testing
  | .exit index => s.move index .leaving .gone

def machine (T : Type) [DecidableEq T] : Machine (State T) (Label T) where
  init := ⟨false, fun _ => .idle, []⟩
  step := step

/-- Inside the watch loop. -/
def MonitorPc.watches : MonitorPc → Bool
  | .testing | .watching => true
  | _ => false

/-- Not yet behind its loop. -/
def MonitorPc.active : MonitorPc → Bool
  | .leaving | .gone => false
  | _ => true

def OneWatcher (s : State T) : Prop :=
  s.logFormatInitDone = true → s.monitors.countP MonitorPc.watches ≤ 1

/-- A monitor is started only when every earlier one has left its loop. -/
def alone (s : State T) : Label T → Prop
  | .create _ => s.monitors.countP MonitorPc.active = 0
  | _ => True

instance (s : State T) : (label : Label T) → Decidable (alone s label)
  | .create _ => inferInstanceAs (Decidable (s.monitors.countP MonitorPc.active = 0))
  | .init _ | .test _ | .start _ | .setFlag _ | .testLoop _ | .wake _ | .exit _ =>
      inferInstanceAs (Decidable True)

theorem active_of_watches {pc : MonitorPc} (h : pc.watches = true) : pc.active = true := by
  cases pc <;> first | rfl | cases h

/-- A monitor that has left its loop stays out of it. -/
theorem countP_move {s s' : State T} {index : Nat} {source target : MonitorPc}
    (h : s.move index source target = some s')
    (hactive : target.active = true → source.active = true) :
    s'.monitors.countP MonitorPc.active ≤ s.monitors.countP MonitorPc.active := by
  unfold State.move at h
  split at h
  · rename_i hsource
    cases h
    obtain ⟨hindex, hget⟩ := List.getElem?_eq_some_iff.mp hsource
    have hcount := List.boole_getElem_le_countP (p := MonitorPc.active) hindex
    rw [List.countP_set hindex, hget]
    rw [hget] at hcount
    by_cases htarget : target.active = true
    · rw [if_pos htarget, if_pos (hactive htarget)]
      rw [if_pos (hactive htarget)] at hcount
      omega
    · rw [if_neg htarget]
      omega
  · cases h

section runs
variable [DecidableEq T]

theorem step_active {s s' : State T} {label : Label T} (hmay : alone s label)
    (hstep : step s label = some s') (h : s.monitors.countP MonitorPc.active ≤ 1) :
    s'.monitors.countP MonitorPc.active ≤ 1 := by
  cases label with
  | init t =>
    simp only [step, Option.ite_none_right_eq_some] at hstep
    obtain ⟨-, ⟨⟩⟩ := hstep
    exact h
  | test t =>
    simp only [step, Option.ite_none_right_eq_some] at hstep
    obtain ⟨-, hstep⟩ := hstep
    split at hstep <;> cases hstep <;> exact h
  | create t =>
    simp only [step, Option.ite_none_right_eq_some] at hstep
    obtain ⟨-, ⟨⟩⟩ := hstep
    have hnone : s.monitors.countP MonitorPc.active = 0 := hmay
    rw [List.countP_append, hnone]
    exact Nat.le_refl 1
  | start index => exact Nat.le_trans (countP_move hstep (fun _ => rfl)) h
  | setFlag index => exact Nat.le_trans (countP_move hstep (fun _ => rfl)) h
  | testLoop index => exact Nat.le_trans (countP_move hstep (fun _ => rfl)) h
  | wake index => exact Nat.le_trans (countP_move hstep (fun _ => rfl)) h
  | exit index => exact Nat.le_trans (countP_move hstep nofun) h

/-- A monitor that is not behind its loop can go on into it. -/
theorem exists_watches {s : State T} {index : Nat} {pc : MonitorPc}
    (hget : s.monitors[index]? = some pc) (hactive : pc.active = true) :
    ∃ (later : List (Label T)) (s' : State T) (target : MonitorPc),
      later.foldlM step s = some s' ∧ s'.monitors = s.monitors.set index target ∧
      target.watches = true ∧ (pc = .created → s'.logFormatInitDone = true) := by
  obtain ⟨hindex, hpc⟩ := List.getElem?_eq_some_iff.mp hget
  have hstay : s.monitors = s.monitors.set index pc := by
    rw [← hpc, List.set_getElem_self]
  have hsetFlag : ∀ {s : State T}, s.monitors[index]? = some .started →
      step s (.setFlag index) =
        some { s with logFormatInitDone := true, monitors := s.monitors.set index .testing } :=
    fun hstarted => if_pos hstarted
  cases pc with
  | created =>
    have hstart : step s (.start index) =
        some { s with monitors := s.monitors.set index .started } := if_pos hget
    refine ⟨[.start index, .setFlag index], { s with
      logFormatInitDone := true
      monitors := (s.monitors.set index .started).set index .testing }, .testing, ?_, ?_, rfl, ?_⟩
    · rw [List.foldlM_cons, hstart, Option.bind_eq_bind, Option.bind_some, List.foldlM_cons,
        hsetFlag (List.getElem?_set_self hindex)]
      rfl
    · exact List.set_set _
    · exact fun _ => rfl
  | started =>
    refine ⟨[.setFlag index], { s with
      logFormatInitDone := true, monitors := s.monitors.set index .testing }, .testing, ?_, rfl,
      rfl, nofun⟩
    rw [List.foldlM_cons, hsetFlag hget]
    rfl
  | testing => exact ⟨[], s, .testing, rfl, hstay, rfl, nofun⟩
  | watching => exact ⟨[], s, .watching, rfl, hstay, rfl, nofun⟩
  | leaving => cases hactive
  | gone => cases hactive

/-- If a monitor is started too early, two may come to watch. -/
theorem exists_two_watchers {s s₁ : State T} {t : T} (hcreate : step s (.create t) = some s₁)
    (hearly : ¬alone s (.create t)) :
    ∃ (later : List (Label T)) (s' : State T), later.foldlM step s₁ = some s' ∧ ¬OneWatcher s' := by
  obtain ⟨pc, hmem, hactive⟩ := List.countP_pos_iff.mp (Nat.pos_of_ne_zero hearly)
  obtain ⟨index, hindex, hpc⟩ := List.getElem_of_mem hmem
  simp only [step, Option.ite_none_right_eq_some] at hcreate
  obtain ⟨-, ⟨⟩⟩ := hcreate
  have hold : (s.monitors ++ [MonitorPc.created])[index]? = some pc := by
    rw [List.getElem?_append_left hindex, List.getElem?_eq_getElem hindex, hpc]
  set s₁ : State T := { s with
    callers := Function.update s.callers t .idle, monitors := s.monitors ++ [.created] } with hs₁
  obtain ⟨later₁, s₂, target₁, hrun₁, hmonitors₁, htarget₁, -⟩ :=
    exists_watches (show s₁.monitors[index]? = some pc from hold) hactive
  have hnew : s₂.monitors[s.monitors.length]? = some .created := by
    rw [hmonitors₁, List.getElem?_set_ne (by omega), hs₁]
    exact List.getElem?_concat_length
  obtain ⟨later₂, s₃, target₂, hrun₂, hmonitors₂, htarget₂, hflag⟩ := exists_watches hnew rfl
  refine ⟨later₁ ++ later₂, s₃, ?_, ?_⟩
  · rw [List.foldlM_append, hrun₁]
    exact hrun₂
  · intro hone
    have htwo := hone (hflag rfl)
    have hlength : s.monitors.length < s₂.monitors.length := by
      rw [hmonitors₁, List.length_set, hs₁, List.length_append]
      exact Nat.lt_succ_self _
    have hcreated : s₂.monitors[s.monitors.length] = .created :=
      (List.getElem?_eq_some_iff.mp hnew).2
    have hfirst : 0 < s₂.monitors.countP MonitorPc.watches := by
      refine List.countP_pos_iff.mpr ⟨target₁, ?_, htarget₁⟩
      rw [hmonitors₁]
      have hmem : index < s₁.monitors.length := by
        rw [hs₁, List.length_append]
        exact Nat.lt_add_right 1 hindex
      exact List.mem_set hmem target₁
    have hout : MonitorPc.created.watches = false := rfl
    rw [hmonitors₂, List.countP_set hlength, hcreated, hout, if_pos htarget₂] at htwo
    simp only [Bool.false_eq_true, if_false] at htwo
    omega

end runs

/-- At most one monitor watches with the flag set, in every run that starts a monitor
only when the earlier ones have left their loops; any other start can be followed by
two that watch. -/
theorem one_watcher [DecidableEq T] :
    (∀ {labels : List (Label T)} {s : State T}, (machine T).Run alone labels s → OneWatcher s) ∧
    ∀ {labels : List (Label T)} {s s₁ : State T} {t : T},
      (machine T).Run (fun _ _ => True) labels s → step s (.create t) = some s₁ →
      ¬alone s (.create t) →
      ∃ later s', (machine T).Run (fun _ _ => True) (labels ++ .create t :: later) s' ∧
        ¬OneWatcher s' := by
  constructor
  · intro labels s hrun _
    have hactive : (fun s : State T => s.monitors.countP MonitorPc.active ≤ 1) s :=
      hrun.invariant (Nat.zero_le 1) step_active
    exact Nat.le_trans (List.countP_mono_left fun pc _ => active_of_watches) hactive
  · intro labels s s₁ t hrun hcreate hearly
    obtain ⟨later, s', hlater, htwo⟩ := exists_two_watchers hcreate hearly
    exact ⟨later, s', hrun.continue hcreate hlater, htwo⟩

/-- A second initialisation that waits for the first monitor. -/
theorem one_watcher_restart :
    ∃ (labels : List (Label Unit)) (s : State Unit), (machine Unit).Run alone labels s ∧
      s.monitors = [.gone, .watching] ∧ OneWatcher s := by
  obtain ⟨s, hexec, hmonitors⟩ : ∃ s : State Unit,
      [Label.test (), .create (), .start 0, .setFlag 0, .testLoop 0, .init (), .wake 0, .testLoop 0,
        .exit 0, .test (), .create (), .start 1, .setFlag 1, .testLoop 1].foldlM
        (fun s label => if alone s label then (machine Unit).step s label else none)
        (machine Unit).init = some s ∧ s.monitors = [.gone, .watching] := ⟨_, rfl, rfl⟩
  have hrun := Machine.Run.of_steps hexec
  exact ⟨_, s, hrun, hmonitors, one_watcher.1 hrun⟩

/-- Two initialisations before the first monitor has set the flag. -/
theorem two_watchers :
    ∃ (labels : List (Label Unit)) (s : State Unit),
      (machine Unit).Run (fun _ _ => True) labels s ∧ s.logFormatInitDone = true ∧
      s.monitors = [.watching, .watching] ∧ ¬OneWatcher s := by
  obtain ⟨s, hexec, hflag, hmonitors⟩ : ∃ s : State Unit,
      [Label.test (), .create (), .test (), .create (), .start 0, .setFlag 0, .testLoop 0, .start 1,
        .setFlag 1, .testLoop 1].foldlM
        (fun s label => if True then (machine Unit).step s label else none)
        (machine Unit).init = some s ∧ s.logFormatInitDone = true ∧
      s.monitors = [.watching, .watching] := ⟨_, rfl, rfl, rfl⟩
  refine ⟨_, s, Machine.Run.of_steps hexec, hflag, hmonitors, fun hone => ?_⟩
  have htwo := hone hflag
  rw [hmonitors] at htwo
  exact absurd htwo (by decide)

end Mdclog.MonitorRace
