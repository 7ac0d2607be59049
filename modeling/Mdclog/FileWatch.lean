import Mathlib.Algebra.Order.BigOperators.Group.List
import Mdclog.ConfigMap
import Mdclog.Foundation.Machine

/-! How a change of the config map reaches the level: the calls that read the map, the
monitors, and the events of what they watch. -/
namespace Mdclog.FileWatch
open Foundation CString JsonFormat ConfigMap

/-- `mdclog_format_initialize` of a thread: not running, behind its test of the flag, inside
`parse_file`, with what that returned, and behind `update_mdc_log_level_severity`. -/
inductive CallerPc where
  | idle
  | parsing
  | scanning
  | holding (token : Option CStr)
  | creating
  deriving DecidableEq

/-- `monitor_loglevel_change_handler`: before `inotify_add_watch`, before it sets the flag, at
the test of its loop, in `select`, before or in `read`, behind it, inside `parse_file`, with
what that returned, and gone. -/
inductive MonitorPc where
  | created
  | watched
  | testing
  | selecting
  | reading
  | parsing
  | scanning
  | holding (token : Option CStr)
  | gone
  deriving DecidableEq

/-- A monitor and the events of its watch that it has not read. A watch of the file itself is
`deaf` when another file has taken the name. -/
structure Monitor where
  pc : MonitorPc
  queue : Nat
  deaf : Bool

/-- `unannounced` is a change of the file that no event has told of: it is open for writing.
The `readers` are inside `parse_file`; they are `disturbed` when the file has changed around
them, or when another call has used the one state that `strtok` has. -/
structure State (T : Type) where
  currentLevel : Severity
  logFormatInitDone : Bool
  content : Option (List UInt8)
  unannounced : Bool
  readers : Nat
  disturbed : Bool
  callers : T → CallerPc
  monitors : List Monitor

/-- The steps of a monitor. A signal makes `select` or a `read` that waits fail; `select` says
so by the same truth value as for an event. `enter` and `parse` are the ends of `parse_file`. -/
inductive Task where
  | start (ok : Bool)
  | setFlag
  | testLoop
  | timeout
  | ready
  | interrupted
  | read (taken : Nat)
  | readInterrupted
  | enter
  | parse (leftover : CStr → CStr) (token : Option CStr)
  | set

/-- `clear` is what `mdclog_init` and `mdclog_lib_clean` do to the flag; `test` to `create` are
the accesses of `mdclog_format_initialize`, and `strtok` is a call of the program's own. The
file is written and closed, replaced by a renamed one or removed, and `notice` is an event for
another file of the directory. An event is `merged` with an unread one where they are equal or
the queue is full. -/
inductive Label (T : Type) where
  | clear (t : T)
  | levelSet (t : T) (level : Severity)
  | test (t : T)
  | enter (t : T)
  | parse (t : T) (leftover : CStr → CStr) (token : Option CStr)
  | set (t : T)
  | create (t : T) (watch : Bool)
  | monitor (index : Nat) (task : Task)
  | strtok
  | write (content : Option (List UInt8))
  | close (merged : Nat → Bool)
  | replace (content : Option (List UInt8)) (merged : Nat → Bool)
  | unlink (lives : Nat → Bool)
  | notice (merged : Nat → Bool)

/-- On its way from the test of the flag to the level. -/
def CallerPc.reads : CallerPc → Bool
  | .parsing | .scanning | .holding _ => true
  | _ => false

/-- The watch is in place. -/
def Monitor.watches (m : Monitor) : Bool :=
  match m.pc with
  | .created | .gone => false
  | _ => true

/-- Behind the flag. -/
def Monitor.loops (m : Monitor) : Bool :=
  match m.pc with
  | .created | .watched | .gone => false
  | _ => true

/-- There is an event that it has not acted on. -/
def Monitor.due (m : Monitor) : Bool :=
  match m.pc with
  | .created | .gone => false
  | .parsing | .scanning | .holding _ => true
  | _ => 0 < m.queue

def Monitor.hears (m : Monitor) : Bool := m.watches && !m.deaf

def Monitor.notice (merged : Bool) (m : Monitor) : Monitor :=
  if m.hears then { m with queue := if merged && 0 < m.queue then m.queue else m.queue + 1 }
  else m

/-- The watch of a file ends when the file does, with a last event if that is at once. -/
def Monitor.orphan (lives : Bool) (m : Monitor) : Monitor :=
  if m.hears then { m with deaf := true, queue := if lives then m.queue else m.queue + 1 } else m

/-- A name without a slash is watched itself. -/
def watchesDirectory (fileName : CStr) : Bool := fileName.bytes.contains slash

/-- What `parse_file` may return, having read its file alone or not. -/
def Returns (disturbed : Bool) (content : Option (List UInt8)) (leftover : CStr → CStr)
    (token : Option CStr) : Prop :=
  disturbed = true ∨ parseFile ⟨content, leftover⟩ = some token

instance (disturbed : Bool) (content : Option (List UInt8)) (leftover : CStr → CStr)
    (token : Option CStr) : Decidable (Returns disturbed content leftover token) :=
  inferInstanceAs (Decidable (_ ∨ _))

/-- What a task makes of a monitor. The descriptor of the watch is a blocking one: a `read`
without an event waits for one, or for a signal. -/
def Monitor.next (fileName : CStr) (flag disturbed : Bool) (content : Option (List UInt8))
    (m : Monitor) : Task → Option Monitor
  | .start ok =>
      if m.pc = .created ∧ (ok = true → dname fileName ≠ []) then
        some ⟨if ok then .watched else .gone, 0, false⟩
      else none
  | .setFlag => if m.pc = .watched then some { m with pc := .testing } else none
  | .testLoop =>
      if m.pc = .testing then
        some (if flag then { m with pc := .selecting } else ⟨.gone, 0, m.deaf⟩)
      else none
  | .timeout => if m.pc = .selecting ∧ m.queue = 0 then some { m with pc := .testing } else none
  | .ready => if m.pc = .selecting ∧ 0 < m.queue then some { m with pc := .reading } else none
  | .interrupted => if m.pc = .selecting then some { m with pc := .reading } else none
  | .read taken =>
      if m.pc = .reading ∧ 0 < taken ∧ taken ≤ m.queue then
        some { m with pc := .parsing, queue := m.queue - taken }
      else none
  | .readInterrupted =>
      if m.pc = .reading ∧ m.queue = 0 then some { m with pc := .testing } else none
  | .enter => if m.pc = .parsing then some { m with pc := .scanning } else none
  | .parse leftover token =>
      if m.pc = .scanning ∧ Returns disturbed content leftover token then
        some { m with pc := .holding token }
      else none
  | .set =>
      match m.pc with
      | .holding _ => some { m with pc := .testing }
      | _ => none

/-- `update_mdc_log_level_severity` without what it prints. -/
def levelOf (token : Option CStr) : Severity := (updateMdcLogLevelSeverity token).1

def Monitor.level (m : Monitor) (task : Task) (level : Severity) : Severity :=
  match task, m.pc with
  | .set, .holding token => levelOf token
  | _, _ => level

def Task.flag (task : Task) (flag : Bool) : Bool :=
  match task with
  | .setFlag => true
  | _ => flag

section machine
variable {T : Type}

def State.disturb (s : State T) : State T := { s with disturbed := s.disturbed || 0 < s.readers }

def State.enter (s : State T) : State T := { s.disturb with readers := s.readers + 1 }

/-- The last reader leaves nothing behind. -/
def State.leave (s : State T) : State T :=
  { s with readers := s.readers - 1, disturbed := s.disturbed && 1 < s.readers }

def State.after (s : State T) (task : Task) : State T :=
  match task with
  | .enter => s.enter
  | .parse _ _ => s.leave
  | _ => s

def State.notify (s : State T) (merged : Nat → Bool) : State T :=
  { s with monitors := s.monitors.mapIdx fun index m => m.notice (merged index) }

def State.orphan (s : State T) (lives : Nat → Bool) : State T :=
  { s with monitors := s.monitors.mapIdx fun index m => m.orphan (lives index) }

variable [DecidableEq T]

def State.goto (s : State T) (t : T) (pc : CallerPc) : State T :=
  { s with callers := Function.update s.callers t pc }

def step (fileName : CStr) (s : State T) : Label T → Option (State T)
  | .clear t => if s.callers t = .idle then some { s with logFormatInitDone := false } else none
  | .levelSet t level =>
      if s.callers t = .idle then some { s with currentLevel := level } else none
  | .test t =>
      if s.callers t = .idle then some (if s.logFormatInitDone then s else s.goto t .parsing)
      else none
  | .enter t => if s.callers t = .parsing then some (s.enter.goto t .scanning) else none
  | .parse t leftover token =>
      if s.callers t = .scanning ∧ Returns s.disturbed s.content leftover token then
        some (s.leave.goto t (.holding token))
      else none
  | .set t =>
      match s.callers t with
      | .holding token => some { s.goto t .creating with currentLevel := levelOf token }
      | _ => none
  | .create t watch =>
      if s.callers t = .creating then
        some { s.goto t .idle with
          monitors := s.monitors ++ if watch then [⟨.created, 0, false⟩] else [] }
      else none
  | .monitor index task => do
      let m ← s.monitors[index]?
      let m' ← m.next fileName s.logFormatInitDone s.disturbed s.content task
      return { s.after task with
        currentLevel := m.level task s.currentLevel
        logFormatInitDone := task.flag s.logFormatInitDone
        monitors := s.monitors.set index m' }
  | .strtok => some s.disturb
  | .write content => some { s.disturb with content := content, unannounced := true }
  | .close merged =>
      if s.unannounced then some { s.notify merged with unannounced := false } else none
  | .replace content merged =>
      if watchesDirectory fileName then some { s.disturb.notify merged with content := content }
      else some { s.disturb.orphan merged with content := content }
  -- the mask has no event for a name that goes away
  | .unlink lives =>
      if watchesDirectory fileName then some { s.disturb with content := none }
      else some { s.disturb.orphan lives with content := none }
  | .notice merged => if watchesDirectory fileName then some (s.notify merged) else none

end machine

/-- The library before any call, beside a config map with this name and content. -/
def machine (T : Type) [DecidableEq T] (fileName : CStr) (content : Option (List UInt8)) :
    Machine (State T) (Label T) where
  init := ⟨.err, false, content, false, 0, false, fun _ => .idle, []⟩
  step := step fileName

section monitors
variable {T : Type}

/-! Monitors. -/

theorem exists_set {p : Monitor → Prop} {monitors : List Monitor} {index : Nat} {m m' : Monitor}
    (hget : monitors[index]? = some m) (hp : p m → p m') (h : ∃ other ∈ monitors, p other) :
    ∃ other ∈ monitors.set index m', p other := by
  obtain ⟨other, hmem, hother⟩ := h
  obtain ⟨place, hplace⟩ := List.mem_iff_getElem?.mp hmem
  obtain ⟨hindex, -⟩ := List.getElem?_eq_some_iff.mp hget
  by_cases hsame : index = place
  · subst hsame
    obtain rfl : m = other := Option.some.inj (hget.symm.trans hplace)
    exact ⟨m', List.mem_set hindex m', hp hother⟩
  · refine ⟨other, List.mem_iff_getElem?.mpr ⟨place, ?_⟩, hother⟩
    rw [List.getElem?_set_ne hsame, hplace]

/-- The moves of a monitor, one for each task and outcome. -/
inductive Moves (fileName : CStr) (flag disturbed : Bool) (content : Option (List UInt8)) :
    Monitor → Task → Monitor → Prop where
  | start (queue : Nat) (deaf : Bool) (hname : dname fileName ≠ []) :
      Moves fileName flag disturbed content ⟨.created, queue, deaf⟩ (.start true)
        ⟨.watched, 0, false⟩
  | startFails (queue : Nat) (deaf : Bool) :
      Moves fileName flag disturbed content ⟨.created, queue, deaf⟩ (.start false)
        ⟨.gone, 0, false⟩
  | setFlag (queue : Nat) (deaf : Bool) :
      Moves fileName flag disturbed content ⟨.watched, queue, deaf⟩ .setFlag
        ⟨.testing, queue, deaf⟩
  | loop (queue : Nat) (deaf : Bool) (hflag : flag = true) :
      Moves fileName flag disturbed content ⟨.testing, queue, deaf⟩ .testLoop
        ⟨.selecting, queue, deaf⟩
  | quit (queue : Nat) (deaf : Bool) (hflag : flag = false) :
      Moves fileName flag disturbed content ⟨.testing, queue, deaf⟩ .testLoop ⟨.gone, 0, deaf⟩
  | timeout (deaf : Bool) :
      Moves fileName flag disturbed content ⟨.selecting, 0, deaf⟩ .timeout ⟨.testing, 0, deaf⟩
  | ready (queue : Nat) (deaf : Bool) (hpos : 0 < queue) :
      Moves fileName flag disturbed content ⟨.selecting, queue, deaf⟩ .ready
        ⟨.reading, queue, deaf⟩
  | interrupted (queue : Nat) (deaf : Bool) :
      Moves fileName flag disturbed content ⟨.selecting, queue, deaf⟩ .interrupted
        ⟨.reading, queue, deaf⟩
  | read (queue taken : Nat) (deaf : Bool) (hpos : 0 < taken) (hle : taken ≤ queue) :
      Moves fileName flag disturbed content ⟨.reading, queue, deaf⟩ (.read taken)
        ⟨.parsing, queue - taken, deaf⟩
  | readInterrupted (deaf : Bool) :
      Moves fileName flag disturbed content ⟨.reading, 0, deaf⟩ .readInterrupted
        ⟨.testing, 0, deaf⟩
  | enter (queue : Nat) (deaf : Bool) :
      Moves fileName flag disturbed content ⟨.parsing, queue, deaf⟩ .enter ⟨.scanning, queue, deaf⟩
  | parse (queue : Nat) (deaf : Bool) (leftover : CStr → CStr) (token : Option CStr)
      (hreturns : Returns disturbed content leftover token) :
      Moves fileName flag disturbed content ⟨.scanning, queue, deaf⟩ (.parse leftover token)
        ⟨.holding token, queue, deaf⟩
  | set (queue : Nat) (deaf : Bool) (token : Option CStr) :
      Moves fileName flag disturbed content ⟨.holding token, queue, deaf⟩ .set
        ⟨.testing, queue, deaf⟩

section moves
variable {fileName : CStr} {flag disturbed : Bool} {content : Option (List UInt8)}
  {m m' : Monitor} {task : Task}

theorem moves_of_next (h : m.next fileName flag disturbed content task = some m') :
    Moves fileName flag disturbed content m task m' := by
  obtain ⟨pc, queue, deaf⟩ := m
  cases task with
  | start ok =>
    simp only [Monitor.next, Option.ite_none_right_eq_some, Option.some.injEq] at h
    obtain ⟨⟨rfl, hname⟩, rfl⟩ := h
    cases ok with
    | true => exact .start queue deaf (hname rfl)
    | false => exact .startFails queue deaf
  | setFlag =>
    simp only [Monitor.next, Option.ite_none_right_eq_some, Option.some.injEq] at h
    obtain ⟨rfl, rfl⟩ := h
    exact .setFlag queue deaf
  | testLoop =>
    simp only [Monitor.next, Option.ite_none_right_eq_some, Option.some.injEq] at h
    obtain ⟨rfl, rfl⟩ := h
    cases flag with
    | true => exact .loop queue deaf rfl
    | false => exact .quit queue deaf rfl
  | timeout =>
    simp only [Monitor.next, Option.ite_none_right_eq_some, Option.some.injEq] at h
    obtain ⟨⟨rfl, rfl⟩, rfl⟩ := h
    exact .timeout deaf
  | ready =>
    simp only [Monitor.next, Option.ite_none_right_eq_some, Option.some.injEq] at h
    obtain ⟨⟨rfl, hpos⟩, rfl⟩ := h
    exact .ready queue deaf hpos
  | interrupted =>
    simp only [Monitor.next, Option.ite_none_right_eq_some, Option.some.injEq] at h
    obtain ⟨rfl, rfl⟩ := h
    exact .interrupted queue deaf
  | read taken =>
    simp only [Monitor.next, Option.ite_none_right_eq_some, Option.some.injEq] at h
    obtain ⟨⟨rfl, hpos, hle⟩, rfl⟩ := h
    exact .read queue taken deaf hpos hle
  | readInterrupted =>
    simp only [Monitor.next, Option.ite_none_right_eq_some, Option.some.injEq] at h
    obtain ⟨⟨rfl, rfl⟩, rfl⟩ := h
    exact .readInterrupted deaf
  | enter =>
    simp only [Monitor.next, Option.ite_none_right_eq_some, Option.some.injEq] at h
    obtain ⟨rfl, rfl⟩ := h
    exact .enter queue deaf
  | parse leftover token =>
    simp only [Monitor.next, Option.ite_none_right_eq_some, Option.some.injEq] at h
    obtain ⟨⟨rfl, hreturns⟩, rfl⟩ := h
    exact .parse queue deaf leftover token hreturns
  | set =>
    cases pc with
    | holding token =>
      cases h
      exact .set queue deaf token
    | _ => cases h

variable (h : Moves fileName flag disturbed content m task m')
include h

theorem Moves.loops (hloops : m.loops = true → flag = true) (hloops' : m'.loops = true) :
    task.flag flag = true := by
  cases h with
  | start queue deaf hname => cases hloops'
  | startFails queue deaf => cases hloops'
  | setFlag queue deaf => rfl
  | quit queue deaf hflag => cases hloops'
  | _ => exact hloops rfl

theorem Moves.hears (hdeaf : m.deaf = false) : m'.deaf = false := by
  cases h with
  | start queue deaf hname => rfl
  | startFails queue deaf => rfl
  | _ => exact hdeaf

theorem Moves.enters (hscanning : m'.pc = .scanning) : task = .enter := by
  cases h with
  | enter queue deaf => rfl
  | _ => cases hscanning

theorem Moves.leaves (hscanning : m.pc = .scanning) :
    ∃ leftover token, task = .parse leftover token := by
  cases h with
  | parse queue deaf leftover token hreturns => exact ⟨leftover, token, rfl⟩
  | _ => cases hscanning

/-- A token comes from `parse_file`. -/
theorem Moves.returned {token : Option CStr} (htoken : m'.pc = .holding token) :
    ∃ leftover, task = .parse leftover token ∧ Returns disturbed content leftover token ∧
      m.pc = .scanning ∧ m'.queue = m.queue := by
  cases h with
  | parse queue deaf leftover read hreturns =>
    cases htoken
    exact ⟨leftover, rfl, hreturns, rfl, rfl⟩
  | _ => cases htoken

theorem Moves.watches (hloops : m.loops = true → flag = true) (hwatches : m.watches = true) :
    m'.watches = true := by
  cases h with
  | start queue deaf hname => cases hwatches
  | startFails queue deaf => cases hwatches
  | quit queue deaf hflag =>
    have hset := hloops rfl
    rw [hflag] at hset
    cases hset
  | _ => rfl

/-- Only the level that it sets ends the work of a monitor that stays. -/
theorem Moves.due (hloops : m.loops = true → flag = true) (htask : task ≠ .set)
    (hdue : m.due = true) : m'.due = true := by
  cases h with
  | start queue deaf hname => cases hdue
  | startFails queue deaf => cases hdue
  | quit queue deaf hflag =>
    have hset := hloops rfl
    rw [hflag] at hset
    cases hset
  | set queue deaf token => exact absurd rfl htask
  | read queue taken deaf hpos hle => rfl
  | enter queue deaf => rfl
  | parse queue deaf leftover token hreturns => rfl
  | _ => exact hdue

/-- A monitor without an event goes round its loop and leaves the level. -/
theorem Moves.quiet (hdue : m.due = false) (level : Severity) :
    m.level task level = level ∧ m'.due = false := by
  cases h with
  | start queue deaf hname => exact ⟨rfl, rfl⟩
  | startFails queue deaf => exact ⟨rfl, rfl⟩
  | quit queue deaf hflag => exact ⟨rfl, rfl⟩
  | read queue taken deaf hpos hle =>
    have hqueue : queue = 0 := by simpa [Monitor.due] using hdue
    omega
  | enter queue deaf => cases hdue
  | parse queue deaf leftover token hreturns => cases hdue
  | set queue deaf token => cases hdue
  | _ => exact ⟨rfl, hdue⟩

end moves

theorem notice_pc (merged : Bool) (m : Monitor) : (m.notice merged).pc = m.pc := by
  unfold Monitor.notice
  split <;> rfl

theorem notice_deaf (merged : Bool) (m : Monitor) : (m.notice merged).deaf = m.deaf := by
  unfold Monitor.notice
  split <;> rfl

theorem hears_of_watches {m : Monitor} (h : m.watches = true) (hdeaf : m.deaf = false) :
    m.hears = true := by
  rw [Monitor.hears, h, hdeaf]
  rfl

theorem notice_queue (merged : Bool) {m : Monitor} (h : m.hears = true) :
    0 < (m.notice merged).queue := by
  rw [Monitor.notice, if_pos h]
  dsimp only
  split
  next hmerged => simpa using (Bool.and_eq_true_iff.mp hmerged).2
  next => exact Nat.succ_pos _

theorem notice_due (merged : Bool) {m : Monitor} (h : m.hears = true) :
    (m.notice merged).due = true := by
  have hqueue := notice_queue merged h
  have hwatches : m.watches = true := (Bool.and_eq_true_iff.mp h).1
  unfold Monitor.due
  rw [notice_pc]
  unfold Monitor.watches at hwatches
  cases hpc : m.pc <;> simp_all

theorem watches_of_due {m : Monitor} (h : m.due = true) : m.watches = true := by
  obtain ⟨pc, queue, deaf⟩ := m
  cases pc with
  | created => cases h
  | gone => cases h
  | _ => rfl

theorem mem_notify {s : State T} {merged : Nat → Bool} {m : Monitor}
    (h : m ∈ (s.notify merged).monitors) :
    ∃ old ∈ s.monitors, ∃ index, m = old.notice (merged index) := by
  obtain ⟨index, hindex, rfl⟩ := List.mem_mapIdx.mp h
  exact ⟨s.monitors[index], List.getElem_mem hindex, index, rfl⟩

theorem exists_notify {s : State T} (merged : Nat → Bool)
    (hhearing : ∀ m ∈ s.monitors, m.deaf = false) (h : ∃ m ∈ s.monitors, m.watches = true) :
    ∃ m ∈ (s.notify merged).monitors, m.watches = true ∧ m.due = true := by
  obtain ⟨m, hmem, hwatches⟩ := h
  obtain ⟨index, hindex, rfl⟩ := List.getElem_of_mem hmem
  have hears := hears_of_watches hwatches (hhearing _ hmem)
  refine ⟨_, List.mem_mapIdx.mpr ⟨index, hindex, rfl⟩, ?_, notice_due _ hears⟩
  rw [Monitor.watches, notice_pc]
  exact hwatches

/-- Whoever is past its watch has an event. -/
theorem notified {s : State T} {merged : Nat → Bool} (hhearing : ∀ m ∈ s.monitors, m.deaf = false)
    {m : Monitor} (hm : m ∈ (s.notify merged).monitors) (hwatches : m.watches = true) :
    0 < m.queue := by
  obtain ⟨old, hold, index, rfl⟩ := mem_notify hm
  rw [Monitor.watches, notice_pc] at hwatches
  exact notice_queue _ (hears_of_watches hwatches (hhearing old hold))

theorem mem_created {monitors : List Monitor} {watch : Bool} {m : Monitor}
    (h : m ∈ monitors ++ if watch then [⟨.created, 0, false⟩] else []) :
    m ∈ monitors ∨ m = ⟨.created, 0, false⟩ := by
  cases watch with
  | true => simpa using h
  | false => exact .inl (by simpa using h)

theorem disturb_of_alone {s : State T} (h : s.readers = 0) : s.disturb = s := by
  have hnone : (s.disturbed || decide (0 < s.readers)) = s.disturbed := by simp [h]
  rw [State.disturb, hnone]

theorem after_same (s : State T) {task : Task} (henter : task ≠ .enter)
    (hparse : ∀ leftover token, task ≠ .parse leftover token) : s.after task = s := by
  cases task with
  | enter => exact absurd rfl henter
  | parse leftover token => exact absurd rfl (hparse leftover token)
  | _ => rfl

theorem after_frame (s : State T) (task : Task) :
    (s.after task).content = s.content ∧ (s.after task).unannounced = s.unannounced ∧
      (s.after task).callers = s.callers := by
  cases task <;> exact ⟨rfl, rfl, rfl⟩

theorem level_of_ne_set {m : Monitor} {task : Task} (h : task ≠ .set) (level : Severity) :
    m.level task level = level := by
  cases task with
  | set => exact absurd rfl h
  | _ => rfl

theorem sum_set_le (measure : Monitor → Nat) {monitors : List Monitor} {index : Nat}
    {m m' : Monitor} (hget : monitors[index]? = some m) {cost : Nat}
    (h : cost + measure m' ≤ measure m) :
    cost + ((monitors.set index m').map measure).sum ≤ (monitors.map measure).sum := by
  induction monitors generalizing index with
  | nil => cases hget
  | cons other monitors ih =>
    cases index with
    | zero =>
      cases hget
      simp only [List.set_cons_zero, List.map_cons, List.sum_cons]
      omega
    | succ index =>
      have hrest := ih hget
      simp only [List.set_cons_succ, List.map_cons, List.sum_cons]
      omega

theorem next_parse {content : Option (List UInt8)} {leftover : CStr → CStr}
    (hparse : (parseFile ⟨content, leftover⟩).isSome) (fileName : CStr) (flag disturbed : Bool)
    (queue : Nat) (deaf : Bool) :
    ∃ token, Monitor.next fileName flag disturbed content ⟨.scanning, queue, deaf⟩
      (.parse leftover token) = some ⟨.holding token, queue, deaf⟩ := by
  obtain ⟨token, htoken⟩ := Option.isSome_iff_exists.mp hparse
  exact ⟨token, if_pos ⟨rfl, .inr htoken⟩⟩

theorem monitor_cases [DecidableEq T] {fileName : CStr} {s s' : State T} {index : Nat}
    {task : Task}
    (h : step fileName s (.monitor index task) = some s') :
    ∃ m m', s.monitors[index]? = some m ∧
      Moves fileName s.logFormatInitDone s.disturbed s.content m task m' ∧
      s' = { s.after task with
        currentLevel := m.level task s.currentLevel
        logFormatInitDone := task.flag s.logFormatInitDone
        monitors := s.monitors.set index m' } := by
  obtain ⟨m, hget, h⟩ := Option.bind_eq_some_iff.mp h
  obtain ⟨m', hnext, h⟩ := Option.bind_eq_some_iff.mp h
  cases h
  exact ⟨m, m', hget, moves_of_next hnext, rfl⟩

end monitors

end Mdclog.FileWatch
