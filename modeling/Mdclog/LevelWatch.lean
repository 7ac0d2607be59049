import Mdclog.FileWatch

/-! Under a watch the level follows the config map, and without one it does not. -/
namespace Mdclog.LevelWatch
open Foundation CString JsonFormat ConfigMap FileWatch

/-! What keeps the level in step with the file. -/

section runs
variable {T : Type}

/-- The file is changed only under a watch and not while a call reads it, it is not removed,
`parse_file` runs alone and finds in the memory of its line what `keeps` says, and the flag is
not cleared under a running monitor. -/
def Careful (keeps : (CStr → CStr) → Prop) (s : State T) : Label T → Prop
  | .clear _ => ∀ m ∈ s.monitors, m.pc = .gone
  | .enter _ | .monitor _ .enter | .strtok => s.readers = 0
  | .parse _ leftover _ | .monitor _ (.parse leftover _) => keeps leftover
  | .write _ | .replace _ _ =>
      (∀ t, (s.callers t).reads = false) ∧ ∃ m ∈ s.monitors, m.watches = true
  | .close _ => ∀ t, (s.callers t).reads = false
  | .unlink _ => False
  | _ => True

def tells (label : Label T) (told : Bool) : Bool :=
  match label with
  | .set _ | .close _ | .replace _ _ => true
  | .levelSet _ _ => false
  | _ => told

/-- The level is to be that of the file: what was last is a call that read it, or a change of
it, and not `mdclog_level_set`. -/
def fromFile (labels : List (Label T)) : Bool :=
  labels.foldl (fun told label => tells label told) false

/-- `parse_file` may return this for the file. -/
def Reads (keeps : (CStr → CStr) → Prop) (content : Option (List UInt8))
    (token : Option CStr) : Prop :=
  ∃ leftover, keeps leftover ∧ parseFile ⟨content, leftover⟩ = some token

def Right (keeps : (CStr → CStr) → Prop) (s : State T) : Prop :=
  ∃ token, Reads keeps s.content token ∧ s.currentLevel = levelOf token

def Due (s : State T) : Prop := ∃ m ∈ s.monitors, m.due = true

instance (s : State T) : Decidable (Due s) :=
  inferInstanceAs (Decidable (∃ m ∈ s.monitors, m.due = true))

/-- The change is announced and every event has been acted on. -/
def Settled (s : State T) : Prop := s.unannounced = false ∧ ¬Due s

/-- The calls of `parse_file` come one after another. -/
structure Alone (s : State T) : Prop where
  single : s.readers ≤ 1
  inside : s.readers = 0 ∨ (∃ t, s.callers t = .scanning) ∨ ∃ m ∈ s.monitors, m.pc = .scanning
  calm : s.disturbed = true → 0 < s.readers ∧ ∀ t, s.callers t ≠ .scanning
  hearing : ∀ m ∈ s.monitors, m.deaf = false

/-- A monitor that was disturbed will hear of it. -/
structure Orderly (s : State T) : Prop extends Alone s where
  noticed : s.disturbed = true → ∀ m ∈ s.monitors, m.pc = .scanning →
    0 < m.queue ∨ s.unannounced = true

structure Tracks (keeps : (CStr → CStr) → Prop) (told : Bool) (s : State T) : Prop where
  flag : ∀ m ∈ s.monitors, m.loops = true → s.logFormatInitDone = true
  callers : ∀ t token, s.callers t = .holding token → Reads keeps s.content token
  fresh : ∀ m ∈ s.monitors, ∀ token, m.pc = .holding token →
    Reads keeps s.content token ∨ 0 < m.queue ∨ s.unannounced = true
  watched : s.unannounced = true → ∃ m ∈ s.monitors, m.watches = true
  level : told = true → Right keeps s ∨ Due s ∨ s.unannounced = true

/-! One reader at a time. -/

theorem Alone.disturb {s : State T} (h : Alone s) (hidle : ∀ t, s.callers t ≠ .scanning) :
    Alone s.disturb := by
  refine ⟨h.single, h.inside, fun hdisturbed => ⟨?_, hidle⟩, h.hearing⟩
  rcases Bool.or_eq_true_iff.mp hdisturbed with hold | hreaders
  · exact (h.calm hold).1
  · exact of_decide_eq_true hreaders

theorem orderly_of_calm {s : State T} (hsingle : s.readers ≤ 1)
    (hinside : s.readers = 0 ∨ (∃ t, s.callers t = .scanning) ∨
      ∃ m ∈ s.monitors, m.pc = .scanning)
    (hcalm : s.disturbed = false) (hhearing : ∀ m ∈ s.monitors, m.deaf = false) : Orderly s := by
  refine ⟨⟨hsingle, hinside, fun hdisturbed => ?_, hhearing⟩, fun hdisturbed => ?_⟩
  · exact absurd (hcalm.symm.trans hdisturbed) Bool.false_ne_true
  · exact absurd (hcalm.symm.trans hdisturbed) Bool.false_ne_true

theorem Alone.notify {s : State T} (h : Alone s) (merged : Nat → Bool)
    (content : Option (List UInt8)) (unannounced : Bool) :
    Orderly { s.notify merged with content := content, unannounced := unannounced } := by
  refine ⟨⟨h.single, ?_, h.calm, ?_⟩, ?_⟩
  · rcases h.inside with hnone | hcaller | ⟨m, hm, hpc⟩
    · exact .inl hnone
    · exact .inr (.inl hcaller)
    · obtain ⟨index, hindex, rfl⟩ := List.getElem_of_mem hm
      exact .inr (.inr ⟨_, List.mem_mapIdx.mpr ⟨index, hindex, rfl⟩, (notice_pc _ _).trans hpc⟩)
  · intro m hm
    obtain ⟨old, hold, index, rfl⟩ := mem_notify hm
    rw [notice_deaf]
    exact h.hearing old hold
  · intro _ m hm hscanning
    refine .inl (notified h.hearing hm ?_)
    rw [Monitor.watches, hscanning]

theorem ne_of_not_reads {s : State T} (h : ∀ t, (s.callers t).reads = false) {pc : CallerPc}
    (hpc : pc.reads = true) (t : T) : s.callers t ≠ pc := by
  intro hsame
  have hreads := h t
  rw [hsame, hpc] at hreads
  cases hreads

/-- The only reader has left. -/
theorem Orderly.leave {s : State T} (h : Orderly s) :
    s.leave.readers = 0 ∧ s.leave.disturbed = false := by
  have hsingle := h.single
  refine ⟨show s.readers - 1 = 0 by omega, ?_⟩
  simp only [State.leave, Bool.and_eq_false_iff, decide_eq_false_iff_not]
  exact .inr (by omega)

/-- Nobody is disturbed by the only reader. -/
theorem Orderly.enter {s : State T} (h : Orderly s) (hnone : s.readers = 0) :
    s.enter.readers = 1 ∧ s.enter.disturbed = false := by
  refine ⟨by simp [State.enter, hnone], ?_⟩
  cases hdisturbed : s.disturbed with
  | true =>
    have hpos := (h.calm hdisturbed).1
    omega
  | false => simp [State.enter, State.disturb, hdisturbed, hnone]

/-- An event for every watch, whatever has happened to the file. -/
theorem Tracks.notify {keeps : (CStr → CStr) → Prop} {told : Bool} {s : State T}
    (h : Tracks keeps told s) (hhearing : ∀ m ∈ s.monitors, m.deaf = false)
    (merged : Nat → Bool) :
    (∀ m ∈ (s.notify merged).monitors, m.loops = true → s.logFormatInitDone = true) ∧
      (∀ m ∈ (s.notify merged).monitors, ∀ token, m.pc = .holding token → 0 < m.queue) ∧
      (Due s → Due (s.notify merged)) := by
  refine ⟨?_, ?_, ?_⟩
  · intro m hm hloops
    obtain ⟨old, hold, index, rfl⟩ := mem_notify hm
    rw [Monitor.loops, notice_pc] at hloops
    exact h.flag old hold hloops
  · intro m hm token htoken
    refine notified hhearing hm ?_
    rw [Monitor.watches, htoken]
  · rintro ⟨m, hm, hdue⟩
    obtain ⟨m', hm', -, hdue'⟩ := exists_notify merged hhearing ⟨m, hm, watches_of_due hdue⟩
    exact ⟨m', hm', hdue'⟩

/-- Who is inside `parse_file` is of no account. -/
theorem Tracks.readers {keeps : (CStr → CStr) → Prop} {told : Bool} {s : State T}
    (h : Tracks keeps told s) (readers : Nat) (disturbed : Bool) :
    Tracks keeps told { s with readers := readers, disturbed := disturbed } :=
  ⟨h.flag, h.callers, h.fresh, h.watched, h.level⟩

variable [DecidableEq T] {fileName : CStr}

theorem Orderly.goto {s : State T} (h : Orderly s) (t : T) {pc : CallerPc} (hpc : pc ≠ .scanning)
    (hold : s.callers t ≠ .scanning) : Orderly (s.goto t pc) := by
  have hsame : ∀ u, (s.goto t pc).callers u = .scanning ↔ s.callers u = .scanning := by
    intro u
    by_cases hu : u = t
    · subst hu
      simp [State.goto, hpc, hold]
    · simp [State.goto, Function.update_of_ne hu]
  refine ⟨⟨h.single, ?_, fun hdisturbed => ?_, h.hearing⟩, h.noticed⟩
  · simp only [hsame]
    exact h.inside
  · obtain ⟨hpos, hcallers⟩ := h.calm hdisturbed
    exact ⟨hpos, fun u hu => hcallers u ((hsame u).mp hu)⟩

theorem monitor_orderly {keeps : (CStr → CStr) → Prop} {s s' : State T} {index : Nat}
    {task : Task} (hmay : Careful keeps s (.monitor index task))
    (hstep : step fileName s (.monitor index task) = some s') (h : Orderly s) : Orderly s' := by
  obtain ⟨m, m', hget, hmoves, rfl⟩ := monitor_cases hstep
  have hmem := List.mem_of_getElem? hget
  obtain ⟨hindex, -⟩ := List.getElem?_eq_some_iff.mp hget
  have hhearing : ∀ other ∈ s.monitors.set index m', other.deaf = false := by
    intro other hother
    rcases List.mem_or_eq_of_mem_set hother with hold | rfl
    · exact h.hearing other hold
    · exact hmoves.hears (h.hearing m hmem)
  by_cases henter : task = .enter
  · subst henter
    obtain ⟨hone, hcalm⟩ := h.enter hmay
    have hscanning : m'.pc = .scanning := by
      cases hmoves
      rfl
    exact orderly_of_calm (Nat.le_of_eq hone)
      (.inr (.inr ⟨m', List.mem_set hindex m', hscanning⟩)) hcalm hhearing
  by_cases hparse : ∃ leftover token, task = .parse leftover token
  · obtain ⟨leftover, token, rfl⟩ := hparse
    obtain ⟨hnone, hcalm⟩ := h.leave
    exact orderly_of_calm (Nat.le_trans (Nat.le_of_eq hnone) (Nat.zero_le 1)) (.inl hnone) hcalm
      hhearing
  have hout : m.pc ≠ .scanning := fun hpc => hparse (hmoves.leaves hpc)
  have hout' : m'.pc ≠ .scanning := fun hpc => henter (hmoves.enters hpc)
  rw [after_same s henter fun leftover token htask => hparse ⟨leftover, token, htask⟩]
  refine ⟨⟨h.single, ?_, h.calm, hhearing⟩, ?_⟩
  · rcases h.inside with hnone | hcaller | hmonitor
    · exact .inl hnone
    · exact .inr (.inl hcaller)
    · exact .inr (.inr (exists_set hget (fun hpc => absurd hpc hout) hmonitor))
  · intro hdisturbed other hother hpc
    rcases List.mem_or_eq_of_mem_set hother with hold | rfl
    · exact h.noticed hdisturbed other hold hpc
    · exact absurd hpc hout'

theorem step_orderly (hslash : watchesDirectory fileName = true) {keeps : (CStr → CStr) → Prop}
    {s s' : State T} {label : Label T} (hmay : Careful keeps s label)
    (hstep : step fileName s label = some s') (h : Orderly s) : Orderly s' := by
  cases label with
  | clear t =>
    simp only [step, Option.ite_none_right_eq_some] at hstep
    obtain ⟨-, ⟨⟩⟩ := hstep
    exact ⟨⟨h.single, h.inside, h.calm, h.hearing⟩, h.noticed⟩
  | levelSet t level =>
    simp only [step, Option.ite_none_right_eq_some] at hstep
    obtain ⟨-, ⟨⟩⟩ := hstep
    exact ⟨⟨h.single, h.inside, h.calm, h.hearing⟩, h.noticed⟩
  | test t =>
    simp only [step, Option.ite_none_right_eq_some, Option.some.injEq] at hstep
    obtain ⟨hidle, rfl⟩ := hstep
    split
    · exact h
    · exact h.goto t nofun (by rw [hidle]; nofun)
  | enter t =>
    simp only [step, Option.ite_none_right_eq_some, Option.some.injEq] at hstep
    obtain ⟨-, rfl⟩ := hstep
    obtain ⟨hone, hcalm⟩ := h.enter hmay
    exact orderly_of_calm (Nat.le_of_eq hone) (.inr (.inl ⟨t, Function.update_self ..⟩)) hcalm
      h.hearing
  | parse t leftover token =>
    simp only [step, Option.ite_none_right_eq_some, Option.some.injEq] at hstep
    obtain ⟨-, rfl⟩ := hstep
    obtain ⟨hnone, hcalm⟩ := h.leave
    exact orderly_of_calm (Nat.le_trans (Nat.le_of_eq hnone) (Nat.zero_le 1)) (.inl hnone) hcalm
      h.hearing
  | set t =>
    simp only [step] at hstep
    split at hstep
    next token htoken =>
      cases hstep
      have hgoto : Orderly (s.goto t .creating) := h.goto t nofun (by rw [htoken]; nofun)
      exact ⟨⟨hgoto.single, hgoto.inside, hgoto.calm, hgoto.hearing⟩, hgoto.noticed⟩
    next => cases hstep
  | create t watch =>
    simp only [step, Option.ite_none_right_eq_some, Option.some.injEq] at hstep
    obtain ⟨hcreating, rfl⟩ := hstep
    have hgoto : Orderly (s.goto t .idle) := h.goto t nofun (by rw [hcreating]; nofun)
    refine ⟨⟨h.single, ?_, hgoto.calm, ?_⟩, ?_⟩
    · rcases hgoto.inside with hnone | hcaller | ⟨m, hm, hpc⟩
      · exact .inl hnone
      · exact .inr (.inl hcaller)
      · exact .inr (.inr ⟨m, List.mem_append_left _ hm, hpc⟩)
    · intro m hm
      rcases mem_created hm with hold | rfl
      · exact h.hearing m hold
      · rfl
    · intro hdisturbed m hm hpc
      rcases mem_created hm with hold | rfl
      · exact h.noticed hdisturbed m hold hpc
      · cases hpc
  | monitor index task => exact monitor_orderly hmay hstep h
  | strtok =>
    cases hstep
    rwa [disturb_of_alone hmay]
  | write content =>
    cases hstep
    have halone := h.toAlone.disturb (ne_of_not_reads hmay.1 rfl)
    exact ⟨⟨halone.single, halone.inside, halone.calm, halone.hearing⟩, fun _ _ _ _ => .inr rfl⟩
  | close merged =>
    simp only [step, Option.ite_none_right_eq_some, Option.some.injEq] at hstep
    obtain ⟨-, rfl⟩ := hstep
    exact h.toAlone.notify merged s.content false
  | replace content merged =>
    simp only [step, hslash, if_true, Option.some.injEq] at hstep
    subst hstep
    have halone := h.toAlone.disturb (ne_of_not_reads hmay.1 rfl)
    exact halone.notify merged content s.unannounced
  | unlink lives => exact absurd hmay not_false
  | notice merged =>
    simp only [step, hslash, if_true, Option.some.injEq] at hstep
    subst hstep
    exact h.toAlone.notify merged s.content s.unannounced

/-! Steps and runs. -/

section tracks
variable {keeps : (CStr → CStr) → Prop} {told : Bool}

theorem holding_of_goto {s : State T} {t u : T} {pc : CallerPc} {token : Option CStr}
    (h : (s.goto t pc).callers u = .holding token) :
    pc = .holding token ∨ s.callers u = .holding token := by
  by_cases hu : u = t
  · subst hu
    exact .inl (by simpa [State.goto] using h)
  · exact .inr (by simpa [State.goto, Function.update_of_ne hu] using h)

/-- A step of a call that leaves the level, the flag, the file and the monitors. -/
theorem Tracks.goto {s : State T} (h : Tracks keeps told s) (t : T) {pc : CallerPc}
    (hpc : ∀ token, pc = .holding token → Reads keeps s.content token) :
    Tracks keeps told (s.goto t pc) where
  flag := h.flag
  callers u token htoken := by
    rcases holding_of_goto htoken with hnew | hold
    · exact hpc token hnew
    · exact h.callers u token hold
  fresh := h.fresh
  watched := h.watched
  level := h.level

theorem monitor_tracks {s s' : State T} {index : Nat} {task : Task}
    (hmay : Careful keeps s (.monitor index task))
    (hstep : step fileName s (.monitor index task) = some s') (horderly : Orderly s)
    (h : Tracks keeps told s) : Tracks keeps told s' := by
  obtain ⟨m, m', hget, hmoves, rfl⟩ := monitor_cases hstep
  obtain ⟨hcontent, hunannounced, hcallers⟩ := after_frame s task
  have hmem := List.mem_of_getElem? hget
  have hloops := h.flag m hmem
  refine ⟨?_, ?_, ?_, ?_, ?_⟩
  · intro other hother hotherLoops
    rcases List.mem_or_eq_of_mem_set hother with hold | rfl
    · have hset := h.flag other hold hotherLoops
      cases task with
      | setFlag => rfl
      | _ => exact hset
    · exact hmoves.loops hloops hotherLoops
  · simp only [hcallers, hcontent]
    exact h.callers
  · simp only [hcontent, hunannounced]
    intro other hother token htoken
    rcases List.mem_or_eq_of_mem_set hother with hold | rfl
    · exact h.fresh other hold token htoken
    · obtain ⟨leftover, rfl, hreturns, hscanning, hqueue⟩ := hmoves.returned htoken
      rcases hreturns with hdisturbed | hparse
      · rw [hqueue]
        exact .inr (horderly.noticed hdisturbed m hmem hscanning)
      · exact .inl ⟨leftover, hmay, hparse⟩
  · simp only [hunannounced]
    intro hopen
    exact exists_set hget (hmoves.watches hloops) (h.watched hopen)
  · intro htold
    simp only [Right, hcontent, hunannounced]
    by_cases htask : task = .set
    · subst htask
      cases hmoves with
      | set queue deaf token =>
        rcases h.fresh _ hmem token rfl with hfresh | hqueue | hopen
        · exact .inl ⟨token, hfresh, rfl⟩
        · obtain ⟨hindex, -⟩ := List.getElem?_eq_some_iff.mp hget
          exact .inr (.inl ⟨_, List.mem_set hindex _, decide_eq_true hqueue⟩)
        · exact .inr (.inr hopen)
    · rcases h.level htold with ⟨token, hparse, hlevel⟩ | hdue | hopen
      · exact .inl ⟨token, hparse, (level_of_ne_set htask _).trans hlevel⟩
      · exact .inr (.inl (exists_set hget (hmoves.due hloops htask) hdue))
      · exact .inr (.inr hopen)

theorem step_tracks (hslash : watchesDirectory fileName = true) {s s' : State T}
    {label : Label T} (hmay : Careful keeps s label) (hstep : step fileName s label = some s')
    (horderly : Orderly s) (h : Tracks keeps told s) : Tracks keeps (tells label told) s' := by
  have hhearing := horderly.hearing
  cases label with
  | clear t =>
    simp only [step, Option.ite_none_right_eq_some] at hstep
    obtain ⟨-, ⟨⟩⟩ := hstep
    refine ⟨?_, h.callers, h.fresh, h.watched, h.level⟩
    intro m hm hloops
    rw [Monitor.loops, hmay m hm] at hloops
    cases hloops
  | levelSet t level =>
    simp only [step, Option.ite_none_right_eq_some] at hstep
    obtain ⟨-, ⟨⟩⟩ := hstep
    exact ⟨h.flag, h.callers, h.fresh, h.watched, nofun⟩
  | test t =>
    simp only [step, Option.ite_none_right_eq_some, Option.some.injEq] at hstep
    obtain ⟨-, rfl⟩ := hstep
    split
    · exact h
    · exact h.goto t nofun
  | enter t =>
    simp only [step, Option.ite_none_right_eq_some, Option.some.injEq] at hstep
    obtain ⟨-, rfl⟩ := hstep
    have hinside : Tracks keeps told s.enter := h.readers (s.readers + 1) _
    exact hinside.goto t nofun
  | parse t leftover token =>
    simp only [step, Option.ite_none_right_eq_some, Option.some.injEq] at hstep
    obtain ⟨⟨hscanning, hreturns⟩, rfl⟩ := hstep
    have hleft : Tracks keeps told s.leave := h.readers (s.readers - 1) _
    refine hleft.goto t ?_
    rintro _ ⟨⟩
    rcases hreturns with hdisturbed | hparse
    · exact absurd hscanning ((horderly.calm hdisturbed).2 t)
    · exact ⟨leftover, hmay, hparse⟩
  | set t =>
    simp only [step] at hstep
    split at hstep
    next token htoken =>
      cases hstep
      have hgoto : Tracks keeps told (s.goto t .creating) := h.goto t nofun
      exact ⟨h.flag, hgoto.callers, h.fresh, h.watched,
        fun _ => .inl ⟨token, h.callers t token htoken, rfl⟩⟩
    next => cases hstep
  | create t watch =>
    simp only [step, Option.ite_none_right_eq_some, Option.some.injEq] at hstep
    obtain ⟨-, rfl⟩ := hstep
    have hgoto : Tracks keeps told (s.goto t .idle) := h.goto t nofun
    refine ⟨?_, hgoto.callers, ?_, ?_, ?_⟩
    · intro m hm hloops
      rcases mem_created hm with hold | rfl
      · exact h.flag m hold hloops
      · cases hloops
    · intro m hm token htoken
      rcases mem_created hm with hold | rfl
      · exact h.fresh m hold token htoken
      · cases htoken
    · intro hopen
      obtain ⟨m, hm, hwatches⟩ := h.watched hopen
      exact ⟨m, List.mem_append_left _ hm, hwatches⟩
    · intro htold
      rcases h.level htold with hright | ⟨m, hm, hdue⟩ | hopen
      · exact .inl hright
      · exact .inr (.inl ⟨m, List.mem_append_left _ hm, hdue⟩)
      · exact .inr (.inr hopen)
  | monitor index task => exact monitor_tracks hmay hstep horderly h
  | strtok =>
    cases hstep
    rwa [disturb_of_alone hmay]
  | write content =>
    cases hstep
    refine ⟨h.flag, ?_, fun _ _ _ _ => .inr (.inr rfl), fun _ => hmay.2, fun _ => .inr (.inr rfl)⟩
    intro t token htoken
    exact absurd htoken (ne_of_not_reads hmay.1 rfl t)
  | close merged =>
    simp only [step, Option.ite_none_right_eq_some, Option.some.injEq] at hstep
    obtain ⟨hopen, rfl⟩ := hstep
    obtain ⟨hflag, hqueue, -⟩ := h.notify hhearing merged
    obtain ⟨m, hm, -, hdue⟩ := exists_notify merged hhearing (h.watched hopen)
    refine ⟨hflag, ?_, fun m hm token htoken => .inr (.inl (hqueue m hm token htoken)), nofun,
      fun _ => .inr (.inl ⟨m, hm, hdue⟩)⟩
    intro t token htoken
    exact absurd htoken (ne_of_not_reads hmay rfl t)
  | replace content merged =>
    simp only [step, hslash, if_true, Option.some.injEq] at hstep
    subst hstep
    obtain ⟨hflag, hqueue, -⟩ := h.notify hhearing merged
    obtain ⟨m, hm, hwatches, hdue⟩ := exists_notify merged hhearing hmay.2
    refine ⟨hflag, ?_, fun m hm token htoken => .inr (.inl (hqueue m hm token htoken)),
      fun _ => ⟨m, hm, hwatches⟩, fun _ => .inr (.inl ⟨m, hm, hdue⟩)⟩
    intro t token htoken
    exact absurd htoken (ne_of_not_reads hmay.1 rfl t)
  | unlink lives => exact absurd hmay not_false
  | notice merged =>
    simp only [step, hslash, if_true, Option.some.injEq] at hstep
    subst hstep
    obtain ⟨hflag, hqueue, hdue⟩ := h.notify hhearing merged
    refine ⟨hflag, h.callers, fun m hm token htoken => .inr (.inl (hqueue m hm token htoken)), ?_,
      ?_⟩
    · intro hopen
      obtain ⟨m, hm, hwatches, -⟩ := exists_notify merged hhearing (h.watched hopen)
      exact ⟨m, hm, hwatches⟩
    · intro htold
      rcases h.level htold with hright | hold | hopen
      · exact .inl hright
      · exact .inr (.inl (hdue hold))
      · exact .inr (.inr hopen)

variable {content : Option (List UInt8)} {labels : List (Label T)} {s : State T}

theorem run_tracks (hslash : watchesDirectory fileName = true)
    (h : (machine T fileName content).Run (Careful keeps) labels s) :
    Orderly s ∧ Tracks keeps (fromFile labels) s := by
  induction h with
  | start =>
    exact ⟨orderly_of_calm (Nat.zero_le 1) (.inl rfl) rfl nofun,
      ⟨nofun, nofun, nofun, nofun, nofun⟩⟩
  | @step labels label s s' run hmay hstep ih =>
    rw [fromFile, List.foldl_append]
    exact ⟨step_orderly hslash hmay hstep ih.1, step_tracks hslash hmay hstep ih.1 ih.2⟩

end tracks

/-! Every event is acted on. -/

end runs

instance {T : Type} [Fintype T] (keeps : (CStr → CStr) → Prop) [DecidablePred keeps]
    (s : State T) : (label : Label T) → Decidable (Careful keeps s label)
  | .clear _ => inferInstanceAs (Decidable (∀ m ∈ s.monitors, m.pc = .gone))
  | .enter _ | .monitor _ .enter | .strtok => inferInstanceAs (Decidable (s.readers = 0))
  | .parse _ leftover _ | .monitor _ (.parse leftover _) =>
      inferInstanceAs (Decidable (keeps leftover))
  | .write _ | .replace _ _ => inferInstanceAs (Decidable
      ((∀ t, (s.callers t).reads = false) ∧ ∃ m ∈ s.monitors, m.watches = true))
  | .close _ => inferInstanceAs (Decidable (∀ t, (s.callers t).reads = false))
  | .unlink _ => inferInstanceAs (Decidable False)
  | .levelSet _ _ | .test _ | .set _ | .create _ _ | .notice _ | .monitor _ (.start _)
  | .monitor _ .setFlag | .monitor _ .testLoop | .monitor _ .timeout | .monitor _ .ready
  | .monitor _ .interrupted | .monitor _ (.read _) | .monitor _ .readInterrupted
  | .monitor _ .set => inferInstanceAs (Decidable True)

/-- The names of the levels survive in the memory of the line. -/
def keepsNames (leftover : CStr → CStr) : Prop :=
  ∀ name ∈ ["ERR", "WARN", "INFO", "DEBUG"], leftover (.ofString name) = .ofString name

instance : DecidablePred keepsNames := fun leftover =>
  inferInstanceAs (Decidable (∀ name ∈ ["ERR", "WARN", "INFO", "DEBUG"],
    leftover (.ofString name) = .ofString name))

/-- The map is replaced while the monitor waits in `select`. -/
def replaced : List (Label Unit) :=
  [.test (), .enter (), .parse () id (some (.ofString "INFO")), .set (), .create () true,
    .monitor 0 (.start true), .monitor 0 .setFlag, .monitor 0 .testLoop,
    .replace (some (ascii "log-level: DEBUG\n")) fun _ => false, .monitor 0 .ready,
    .monitor 0 (.read 1), .monitor 0 .enter, .monitor 0 (.parse id (some (.ofString "DEBUG"))),
    .monitor 0 .set]

section quiet
variable {T : Type}

/-- A step without an event of the watch and without a call that reads the file or sets the
level. -/
def quiet : Label T → Bool
  | .clear _ | .test _ | .create _ _ | .monitor _ _ | .strtok | .write _ => true
  | _ => false

variable [DecidableEq T] {fileName : CStr}

theorem quiet_step {s s' : State T} {label : Label T} (hquiet : quiet label = true)
    (hstep : step fileName s label = some s') (h : ¬Due s) :
    s'.currentLevel = s.currentLevel ∧ ¬Due s' := by
  cases label with
  | clear t =>
    simp only [step, Option.ite_none_right_eq_some] at hstep
    obtain ⟨-, ⟨⟩⟩ := hstep
    exact ⟨rfl, h⟩
  | test t =>
    simp only [step, Option.ite_none_right_eq_some, Option.some.injEq] at hstep
    obtain ⟨-, rfl⟩ := hstep
    split <;> exact ⟨rfl, h⟩
  | create t watch =>
    simp only [step, Option.ite_none_right_eq_some, Option.some.injEq] at hstep
    obtain ⟨-, rfl⟩ := hstep
    refine ⟨rfl, ?_⟩
    rintro ⟨m, hm, hdue⟩
    rcases mem_created hm with hold | rfl
    · exact h ⟨m, hold, hdue⟩
    · cases hdue
  | monitor index task =>
    obtain ⟨m, m', hget, hmoves, rfl⟩ := monitor_cases hstep
    have hm : m.due = false := by
      by_contra hdue
      exact h ⟨m, List.mem_of_getElem? hget, by simpa using hdue⟩
    obtain ⟨hlevel, hm'⟩ := hmoves.quiet hm s.currentLevel
    refine ⟨hlevel, ?_⟩
    rintro ⟨other, hother, hdue⟩
    rcases List.mem_or_eq_of_mem_set hother with hold | rfl
    · exact h ⟨other, hold, hdue⟩
    · rw [hm'] at hdue
      cases hdue
  | strtok =>
    cases hstep
    exact ⟨rfl, h⟩
  | write content =>
    cases hstep
    exact ⟨rfl, h⟩
  | _ => cases hquiet

theorem quiet_run {s s' : State T} {later : List (Label T)}
    (hquiet : ∀ label ∈ later, quiet label = true)
    (hrun : later.foldlM (step fileName) s = some s') (h : ¬Due s) :
    s'.currentLevel = s.currentLevel ∧ ¬Due s' := by
  induction later generalizing s with
  | nil =>
    cases hrun
    exact ⟨rfl, h⟩
  | cons label later ih =>
    rw [List.foldlM_cons] at hrun
    obtain ⟨s₁, hstep, hrest⟩ := Option.bind_eq_some_iff.mp hrun
    obtain ⟨hlevel, hnone⟩ := quiet_step (hquiet label (by simp)) hstep h
    obtain ⟨hlevel', hnone'⟩ := ih (fun other hother => hquiet other (by simp [hother])) hrest hnone
    exact ⟨hlevel'.trans hlevel, hnone'⟩

theorem replace_unwatched {s s' : State T} (hunwatched : ∀ m ∈ s.monitors, m.watches = false)
    {content : Option (List UInt8)} {merged : Nat → Bool}
    (hstep : step fileName s (.replace content merged) = some s') :
    s'.currentLevel = s.currentLevel ∧ ¬Due s' := by
  have hdeaf : ∀ m ∈ s.monitors, ∀ flag, m.notice flag = m ∧ m.orphan flag = m := by
    intro m hm flag
    have hears : ¬m.hears = true := by simp [Monitor.hears, hunwatched m hm]
    exact ⟨if_neg hears, if_neg hears⟩
  have hnone : ∀ m ∈ s.monitors, m.due ≠ true := by
    intro m hm hdue
    have hwatches := watches_of_due hdue
    rw [hunwatched m hm] at hwatches
    cases hwatches
  rw [step] at hstep
  split at hstep
  all_goals
    cases hstep
    refine ⟨rfl, ?_⟩
    rintro ⟨m, hm, hdue⟩
    obtain ⟨index, hindex, rfl⟩ := List.mem_mapIdx.mp hm
    have hmem : s.monitors[index] ∈ s.monitors := List.getElem_mem hindex
  · rw [show s.disturb.monitors[index] = s.monitors[index] from rfl,
      (hdeaf _ hmem _).1] at hdue
    exact hnone _ hmem hdue
  · rw [show s.disturb.monitors[index] = s.monitors[index] from rfl,
      (hdeaf _ hmem _).2] at hdue
    exact hnone _ hmem hdue

end quiet

/-- A change that is made before the watch is in place is missed: until another event or
another call the level stays what it was. -/
theorem unwatched_change_missed {T : Type} [DecidableEq T] {fileName : CStr} {s s' : State T}
    (hunwatched : ∀ m ∈ s.monitors, m.watches = false) (content : Option (List UInt8))
    (merged : Nat → Bool) {later : List (Label T)} (hquiet : ∀ label ∈ later, quiet label = true)
    (hrun : (.replace content merged :: later).foldlM (step fileName) s = some s') :
    s'.currentLevel = s.currentLevel ∧ ¬Due s' := by
  rw [List.foldlM_cons] at hrun
  obtain ⟨s₁, hstep, hlater⟩ := Option.bind_eq_some_iff.mp hrun
  obtain ⟨hlevel, hnone⟩ := replace_unwatched hunwatched hstep
  obtain ⟨hlevel', hnone'⟩ := quiet_run hquiet hlater hnone
  exact ⟨hlevel'.trans hlevel, hnone'⟩

/-- The monitor that has been created comes to its loop and waits there. -/
def cameLate : List (Label Unit) :=
  [.monitor 0 (.start true), .monitor 0 .setFlag, .monitor 0 .testLoop, .monitor 0 .timeout]

theorem unwatched_change_missed_late : ∃ s s' : State Unit,
    (machine Unit (.ofString "/cfg/map") (some (ascii "log-level: INFO\n"))).Run
        (Careful keepsNames) (replaced.take 5) s ∧
      (.replace (some (ascii "log-level: DEBUG\n")) (fun _ => false) :: cameLate).foldlM
        (step (.ofString "/cfg/map")) s = some s' ∧
      s'.content = some (ascii "log-level: DEBUG\n") ∧ s'.currentLevel = .info := by
  obtain ⟨s, s', hsteps, hlater, hunwatched, hcontent, hlevel⟩ : ∃ s s', (replaced.take 5).foldlM
      (fun s label => if Careful keepsNames s label then step (.ofString "/cfg/map") s label
        else none)
      (machine Unit (.ofString "/cfg/map") (some (ascii "log-level: INFO\n"))).init = some s ∧
      (.replace (some (ascii "log-level: DEBUG\n")) (fun _ => false) :: cameLate).foldlM
        (step (.ofString "/cfg/map")) s = some s' ∧ (∀ m ∈ s.monitors, m.watches = false) ∧
      s'.content = some (ascii "log-level: DEBUG\n") ∧ s.currentLevel = .info :=
    ⟨_, _, rfl, rfl, by decide, rfl, rfl⟩
  have hmissed := unwatched_change_missed hunwatched _ _ (by decide) hlater
  exact ⟨s, s', Machine.Run.of_steps hsteps, hlater, hcontent, hmissed.1.trans hlevel⟩

end Mdclog.LevelWatch
