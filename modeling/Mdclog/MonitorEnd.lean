import Mdclog.FileWatch

/-! How the monitors end when the flag has been cleared: `mdclog_init` and
`mdclog_lib_clean` clear it, and every monitor looks at it once a round. -/
namespace Mdclog.MonitorEnd
open Foundation CString JsonFormat ConfigMap FileWatch

/-- The steps and the levels that are left to a monitor when the flag is clear. -/
def stepsLeft (m : Monitor) : Nat :=
  match m.pc with
  | .selecting => 6
  | .reading => 5
  | .parsing => 4
  | .scanning => 3
  | .holding _ => 2
  | .testing => 1
  | .created | .watched | .gone => 0

def levelsLeft (m : Monitor) : Nat :=
  match m.pc with
  | .selecting | .reading | .parsing | .scanning | .holding _ => 1
  | .testing | .created | .watched | .gone => 0

/-- Behind its write of the flag. -/
def pastFlag (m : Monitor) : Bool :=
  match m.pc with
  | .created | .watched => false
  | _ => true

/-- In a `read` that returns only for an event or a signal. -/
def Waiting (m : Monitor) : Prop := m.pc = .reading ∧ m.queue = 0

def sets : Task → Bool
  | .set => true
  | _ => false

/-- What a monitor does only when a signal has come. -/
def signal : Task → Bool
  | .interrupted | .readInterrupted => true
  | _ => false

section moves
variable {fileName : CStr} {disturbed : Bool} {content : Option (List UInt8)} {m m' : Monitor}
  {task : Task} (h : Moves fileName false disturbed content m task m')
include h

theorem moves_stop (hpast : pastFlag m = true) :
    task.flag false = false ∧ pastFlag m' = true ∧ 1 + stepsLeft m' ≤ stepsLeft m ∧
      (if sets task then 1 else 0) + levelsLeft m' ≤ levelsLeft m := by
  cases h with
  | start queue deaf hname => cases hpast
  | startFails queue deaf => cases hpast
  | setFlag queue deaf => cases hpast
  | loop queue deaf hflag => cases hflag
  | _ => exact ⟨rfl, rfl, by simp [stepsLeft], by simp [sets, levelsLeft]⟩

/-- Without a signal a monitor reads only what is there. -/
theorem moves_waiting (hsignal : signal task = false) : ¬Waiting m' := by
  rintro ⟨hpc, hqueue⟩
  cases h with
  | ready queue deaf hpos => exact absurd hqueue (Nat.ne_of_gt hpos)
  | interrupted queue deaf => cases hsignal
  | _ => cases hpc

end moves

/-- Nothing but a signal moves these. -/
theorem next_of_gone_or_waiting {m : Monitor} (h : m.pc = .gone ∨ Waiting m) (fileName : CStr)
    (flag disturbed : Bool) (content : Option (List UInt8)) {task : Task}
    (hsignal : signal task = false) : m.next fileName flag disturbed content task = none := by
  cases hnext : m.next fileName flag disturbed content task with
  | none => rfl
  | some m' =>
    exfalso
    rcases h with hgone | ⟨hreading, hqueue⟩
    · cases moves_of_next hnext <;> cases hgone
    · cases moves_of_next hnext with
      | read queue taken deaf hpos hle =>
        dsimp only at hqueue
        omega
      | readInterrupted deaf => cases hsignal
      | _ => cases hreading

/-- Any other monitor behind its write of the flag has a step. -/
theorem exists_move {m : Monitor} {content : Option (List UInt8)} {leftover : CStr → CStr}
    (fileName : CStr) (flag disturbed : Bool) (hpast : pastFlag m = true)
    (hparse : (parseFile ⟨content, leftover⟩).isSome) (hgone : m.pc ≠ .gone)
    (hwaiting : ¬Waiting m) :
    ∃ task m', signal task = false ∧
      m.next fileName flag disturbed content task = some m' := by
  obtain ⟨pc, queue, deaf⟩ := m
  cases pc with
  | created => cases hpast
  | watched => cases hpast
  | testing => exact ⟨.testLoop, _, rfl, rfl⟩
  | selecting =>
    rcases Nat.eq_zero_or_pos queue with rfl | hpos
    · exact ⟨.timeout, _, rfl, rfl⟩
    · exact ⟨.ready, _, rfl, if_pos ⟨rfl, hpos⟩⟩
  | reading =>
    have hpos : 0 < queue := Nat.pos_of_ne_zero fun hnone => hwaiting ⟨rfl, hnone⟩
    exact ⟨.read 1, _, rfl, if_pos ⟨rfl, Nat.one_pos, hpos⟩⟩
  | parsing => exact ⟨.enter, _, rfl, rfl⟩
  | scanning =>
    obtain ⟨token, hnext⟩ := next_parse hparse fileName flag disturbed queue deaf
    exact ⟨.parse leftover token, _, rfl, hnext⟩
  | holding token => exact ⟨.set, _, rfl, rfl⟩
  | gone => exact absurd rfl hgone

section stopping
variable {T : Type} [DecidableEq T] {fileName : CStr}

/-- No monitor can go on unless a signal comes. -/
def Stuck (fileName : CStr) (s : State T) : Prop :=
  ∀ index task, signal task = false → step fileName s (.monitor index task) = none

theorem stuck_iff {s : State T} (hpast : ∀ m ∈ s.monitors, pastFlag m = true)
    {leftover : CStr → CStr} (hparse : (parseFile ⟨s.content, leftover⟩).isSome) :
    Stuck fileName s ↔ ∀ m ∈ s.monitors, m.pc = .gone ∨ Waiting m := by
  constructor
  · intro hstuck m hm
    by_contra hlive
    rw [not_or] at hlive
    obtain ⟨index, hget⟩ := List.mem_iff_getElem?.mp hm
    obtain ⟨task, m', hsignal, hnext⟩ := exists_move fileName s.logFormatInitDone s.disturbed
      (hpast m hm) hparse hlive.1 hlive.2
    have hnone := hstuck index task hsignal
    simp only [step, hget, Option.bind_eq_bind, Option.bind_some, hnext] at hnone
    cases hnone
  · intro hall index task hsignal
    cases hget : s.monitors[index]? with
    | none => simp only [step, hget, Option.bind_eq_bind, Option.bind_none]
    | some m =>
      have hnext := next_of_gone_or_waiting (hall m (List.mem_of_getElem? hget)) fileName
        s.logFormatInitDone s.disturbed s.content hsignal
      simp only [step, hget, Option.bind_eq_bind, Option.bind_some, hnext, Option.bind_none]

/-- What one step leaves of the monitors, when the flag is clear. -/
theorem stopping_step {s s' : State T} {index : Nat} {task : Task}
    (hflag : s.logFormatInitDone = false) (hpast : ∀ m ∈ s.monitors, pastFlag m = true)
    (hstep : step fileName s (.monitor index task) = some s') :
    s'.logFormatInitDone = false ∧ s'.content = s.content ∧
      (∀ m ∈ s'.monitors, pastFlag m = true) ∧
      1 + (s'.monitors.map stepsLeft).sum ≤ (s.monitors.map stepsLeft).sum ∧
      (if sets task then 1 else 0) + (s'.monitors.map levelsLeft).sum ≤
        (s.monitors.map levelsLeft).sum ∧
      (signal task = false → (∀ m ∈ s.monitors, ¬Waiting m) → ∀ m ∈ s'.monitors, ¬Waiting m) := by
  obtain ⟨m, m', hget, hmoves, rfl⟩ := monitor_cases hstep
  rw [hflag] at hmoves
  obtain ⟨hclear, hpast', hsteps, hlevels⟩ :=
    moves_stop hmoves (hpast m (List.mem_of_getElem? hget))
  refine ⟨by rw [hflag, hclear], (after_frame s task).1, ?_, sum_set_le stepsLeft hget hsteps,
    sum_set_le levelsLeft hget hlevels, ?_⟩
  · intro other hother
    rcases List.mem_or_eq_of_mem_set hother with hold | rfl
    · exact hpast other hold
    · exact hpast'
  · intro hsignal hnone other hother
    rcases List.mem_or_eq_of_mem_set hother with hold | rfl
    · exact hnone other hold
    · exact moves_waiting hmoves hsignal

theorem stopping_run {s s' : State T} {tasks : List (Nat × Task)}
    (hflag : s.logFormatInitDone = false) (hpast : ∀ m ∈ s.monitors, pastFlag m = true)
    (hrun : (tasks.map fun item => Label.monitor item.1 item.2).foldlM (step fileName) s =
      some s') :
    s'.logFormatInitDone = false ∧ s'.content = s.content ∧
      (∀ m ∈ s'.monitors, pastFlag m = true) ∧
      tasks.length + (s'.monitors.map stepsLeft).sum ≤ (s.monitors.map stepsLeft).sum ∧
      tasks.countP (fun item => sets item.2) + (s'.monitors.map levelsLeft).sum ≤
        (s.monitors.map levelsLeft).sum ∧
      ((∀ m ∈ s.monitors, ¬Waiting m) → (∀ item ∈ tasks, signal item.2 = false) →
        ∀ m ∈ s'.monitors, ¬Waiting m) := by
  induction tasks generalizing s with
  | nil =>
    cases hrun
    exact ⟨hflag, rfl, hpast, by simp, by simp, fun hnone _ => hnone⟩
  | cons item tasks ih =>
    rw [List.map_cons, List.foldlM_cons] at hrun
    obtain ⟨s₁, hstep, hrest⟩ := Option.bind_eq_some_iff.mp hrun
    obtain ⟨hflag₁, hcontent₁, hpast₁, hsteps₁, hlevels₁, hnone₁⟩ :=
      stopping_step hflag hpast hstep
    obtain ⟨hflag', hcontent, hpast', hsteps, hlevels, hnone⟩ := ih hflag₁ hpast₁ hrest
    refine ⟨hflag', hcontent.trans hcontent₁, hpast', ?_, ?_, fun hwaits hsignal => ?_⟩
    · rw [List.length_cons]
      omega
    · rw [List.countP_cons]
      omega
    · exact hnone (hnone₁ (hsignal item (by simp)) hwaits) fun other hother =>
        hsignal other (by simp [hother])

end stopping

/-- Once the flag is clear and no monitor is on its way to set it, the monitors end: together
they take at most six steps and set the level at most once for each of them, and where none can
go on all are gone, but for those that a signal has sent into a `read` without an event. -/
theorem monitors_end {T : Type} [DecidableEq T] {fileName : CStr} {s s' : State T}
    {tasks : List (Nat × Task)} (hflag : s.logFormatInitDone = false)
    (hpast : ∀ m ∈ s.monitors, pastFlag m = true)
    (hrun : (tasks.map fun item => Label.monitor item.1 item.2).foldlM (step fileName) s =
      some s') :
    s'.logFormatInitDone = false ∧ tasks.length ≤ 6 * s.monitors.length ∧
      tasks.countP (fun item => sets item.2) ≤ s.monitors.length ∧
      ((∃ leftover, (parseFile ⟨s.content, leftover⟩).isSome) →
        (Stuck fileName s' ↔ ∀ m ∈ s'.monitors, m.pc = .gone ∨ Waiting m) ∧
        ((∀ m ∈ s.monitors, ¬Waiting m) → (∀ item ∈ tasks, signal item.2 = false) →
          (Stuck fileName s' ↔ ∀ m ∈ s'.monitors, m.pc = .gone))) := by
  obtain ⟨hflag', hcontent, hpast', hsteps, hlevels, hwaiting⟩ := stopping_run hflag hpast hrun
  have hsix := List.sum_le_card_nsmul (s.monitors.map stepsLeft) 6 (by
    simp only [List.mem_map, forall_exists_index, and_imp]
    rintro _ m - rfl
    unfold stepsLeft
    split <;> decide)
  have hone := List.sum_le_card_nsmul (s.monitors.map levelsLeft) 1 (by
    simp only [List.mem_map, forall_exists_index, and_imp]
    rintro _ m - rfl
    unfold levelsLeft
    split <;> decide)
  simp only [List.length_map, Nat.nsmul_eq_mul] at hsix hone
  refine ⟨hflag', by omega, by omega, ?_⟩
  rintro ⟨leftover, hparse⟩
  rw [← hcontent] at hparse
  have hstuck : Stuck fileName s' ↔ ∀ m ∈ s'.monitors, m.pc = .gone ∨ Waiting m :=
    stuck_iff hpast' hparse
  refine ⟨hstuck, fun hnone hsignal => hstuck.trans ?_⟩
  exact forall₂_congr fun m hm => or_iff_left (hwaiting hnone hsignal m hm)

/-- Two calls pass the flag and start a monitor each; the second one comes to its loop behind a
change of the file, and then the library is cleaned up. -/
def started : List (Label Bool) :=
  [.test true, .test false, .enter true, .parse true id (some (.ofString "INFO")), .set true,
    .create true true, .enter false, .parse false id (some (.ofString "INFO")), .set false,
    .create false true, .monitor 0 (.start true), .monitor 0 .setFlag, .monitor 0 .testLoop,
    .replace (some (ascii "log-level: DEBUG\n")) fun _ => false, .monitor 1 (.start true),
    .monitor 1 .setFlag, .monitor 1 .testLoop, .clear true]

/-- The first one acts on the change and goes; a signal sends the second one into `read`. -/
def endings : List (Nat × Task) :=
  [(0, .ready), (1, .interrupted), (0, .read 1), (0, .enter),
    (0, .parse id (some (.ofString "DEBUG"))), (0, .set), (0, .testLoop)]

theorem monitors_end_two : ∃ s s' : State Bool,
    (machine Bool (.ofString "/cfg/map") (some (ascii "log-level: INFO\n"))).Run
        (fun _ _ => True) started s ∧
      (endings.map fun item => Label.monitor item.1 item.2).foldlM
        (step (.ofString "/cfg/map")) s = some s' ∧
      s'.monitors.map Monitor.pc = [.gone, .reading] ∧ s'.currentLevel = .debug ∧
      s'.logFormatInitDone = false ∧ Stuck (.ofString "/cfg/map") s' := by
  obtain ⟨s, s', hsteps, hrun, hflag, hpast, hmonitors, hcontent, hlevel⟩ : ∃ s s', started.foldlM
      (fun s label => if True then step (.ofString "/cfg/map") s label else none)
      (machine Bool (.ofString "/cfg/map") (some (ascii "log-level: INFO\n"))).init = some s ∧
      (endings.map fun item => Label.monitor item.1 item.2).foldlM
        (step (.ofString "/cfg/map")) s = some s' ∧ s.logFormatInitDone = false ∧
      (∀ m ∈ s.monitors, pastFlag m = true) ∧
      s'.monitors = [⟨.gone, 0, false⟩, ⟨.reading, 0, false⟩] ∧
      s.content = some (ascii "log-level: DEBUG\n") ∧ s'.currentLevel = .debug :=
    ⟨_, _, rfl, rfl, rfl, by decide, rfl, rfl, rfl⟩
  obtain ⟨hflag', -, -, hstuck⟩ := monitors_end hflag hpast hrun
  refine ⟨s, s', Machine.Run.of_steps hsteps, hrun, by rw [hmonitors]; rfl, hlevel, hflag',
    (hstuck ⟨id, ?_⟩).1.mpr ?_⟩
  · rw [hcontent]
    decide
  · rw [hmonitors]
    simp [Waiting]

end Mdclog.MonitorEnd
