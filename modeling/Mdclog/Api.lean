import Mdclog.ConfigMap
import Mdclog.EntryRoom
import Mdclog.Foundation.StateProgram
import Mdclog.MdcStore

/-! `mdclog.c`: the public calls, each as one step on the state of the library.
A program without a result has no defined behaviour. -/
namespace Mdclog.Api
open Foundation.ByteBuffer Foundation.Fitting Foundation.OrderedMap Foundation.StateProgram
open CString Escape JsonFormat ConfigMap EntryRoom MdcStore

/-- What the process has from outside: its name, and which of its allocations
succeed. -/
structure System where
  progname : CStr
  malloc : Nat → Bool

/-- The list of a thread. When `mdclog_internal_put_mdc` fails after it has
linked or found its entry, it destroys the entry and leaves it in the list: then
the list is `broken` right behind the pairs of the `store`. -/
structure Chain where
  store : Store
  broken : Bool

/-- What goes to the standard output: the payload of a `write`, or the text of a
`printf`. -/
inductive Output where
  | write (payload : List UInt8)
  | printf (text : List UInt8)
  deriving DecidableEq

/-- Where the thread of `monitor_loglevel_change_handler` is: before it watches,
at the test of its loop, or waiting for an event. -/
inductive MonitorPc where
  | starting
  | testing
  | waiting
  deriving DecidableEq

/-- A monitor thread and the file name it was started with. -/
structure Monitor where
  pc : MonitorPc
  fileName : Option CStr

/-- `attrs` gives the identity of every live attribute object by its address,
`mdcs` the list of every thread that has one. -/
structure Library (T : Type) where
  currentLevel : Severity
  initDone : Bool
  logFormatInitDone : Bool
  identity : Option CStr
  attrs : Nat → Option (Option CStr)
  mdcs : T → Option Chain
  monitors : List Monitor
  allocations : Nat
  output : List Output

def Library.initial {T : Type} : Library T :=
  ⟨.err, false, false, none, fun _ => none, fun _ => none, [], 0, []⟩

section programs
variable {T : Type} [DecidableEq T] (system : System)

abbrev Program (T : Type) := StateT (Library T) Option

/-- Does the next allocation succeed? -/
def allocate : Program T Bool := do
  let s ← get
  modify fun s => { s with allocations := s.allocations + 1 }
  return system.malloc s.allocations

def strdup (text : CStr) : Program T (Option CStr) := do
  let ok ← allocate system
  return if ok then some text else none

/-- `attr->identity`. A dead object has none. -/
def attrIdentity (attr : Nat) : Program T (Option CStr) := do
  let s ← get
  liftM (s.attrs attr)

/-- The branch of `init_library` for a null `attr` or one without an identity. -/
def defaultIdentity : Program T (Option CStr) := do
  let identity ← strdup system system.progname
  match identity with
  | none => return none
  | some identity =>
      if mdclogInternalContainsSpecialCharacters identity then
        let ok ← allocate system
        if ok then
          -- the bytes `malloc` left do not matter, see `escapedCopy_eq`
          let copy ← liftM (escapedCopy (fun _ => 0) identity)
          return some copy
        else return none
      else return some identity

/-- The part of `init_library` under the lock: the identity of `attr` moves into
the configuration. -/
def configure (attr : Option Nat) : Program T Unit := do
  let given ← match attr with
    | none => pure none
    | some attr => attrIdentity attr
  match attr, given with
  | some attr, some identity =>
      modify fun s => { s with identity := some identity,
                               attrs := Function.update s.attrs attr (some none),
                               initDone := true }
  | _, _ =>
      let identity ← defaultIdentity system
      modify fun s => { s with identity := identity, initDone := true }

def initLibrary (attr : Option Nat) : Program T Unit := do
  let s ← get
  if s.initDone then return else configure system attr

def mdclogInit (attr : Option Nat) : Program T Int := do
  modify fun s => { s with initDone := false, logFormatInitDone := false }
  initLibrary system attr
  return 0

/-- `address` is where `malloc` puts the object. -/
def mdclogAttrInit (address : Nat) : Program T Int := do
  let ok ← allocate system
  if ok then
    let s ← get
    if (s.attrs address).isSome then failure
    else
      modify fun s => { s with attrs := Function.update s.attrs address (some none) }
      return 0
  else return -1

def mdclogAttrDestroy (attr : Option Nat) : Program T Unit :=
  match attr with
  | none => return
  | some attr => do
      let _ ← attrIdentity attr
      modify fun s => { s with attrs := Function.update s.attrs attr none }

def mdclogAttrSetIdent (attr : Option Nat) (identity : Option CStr) : Program T Int :=
  match attr, identity with
  | some attr, some identity =>
      if mdclogInternalContainsSpecialCharacters identity ||
          decide (identityMaxLength < identity.bytes.length) then return -1
      else do
        let _ ← attrIdentity attr
        let copy ← strdup system identity
        modify fun s => { s with attrs := Function.update s.attrs attr (some copy) }
        return 0
  | _, _ => return -1

def mdclogLevelSet (level : Severity) : Program T Unit :=
  modify fun s => { s with currentLevel := level }

def mdclogLevelGet : Program T Severity := do
  let s ← get
  return s.currentLevel

/-! The MDC calls. -/

def setList (t : T) (list : Option Chain) : Program T Unit :=
  modify fun s => { s with mdcs := Function.update s.mdcs t list }

def getList (t : T) : Program T (Option Chain) := do
  let s ← get
  match s.mdcs t with
  | some list => return some list
  | none =>
      let ok ← allocate system
      if ok then
        -- `pthread_setspecific` needs memory of its own
        let ok ← allocate system
        if ok then
          setList t (some ⟨.empty, false⟩)
          return some ⟨.empty, false⟩
        else return none
      else return none

/-- The value stored under `key`; the search must not reach a destroyed entry. -/
def Chain.search (list : Chain) (key : CStr) : Option (Option CStr) :=
  match get? key list.store.pairs with
  | some value => some (some value)
  | none => if list.broken then none else some none

/-- The list up to the entry of `key`, which has been destroyed. -/
def Chain.cut (list : Chain) (key : CStr) : Chain := ⟨list.store.until key, true⟩

def mdclogInternalPutMdc (t : T) (key value : CStr) (h : Clean key.bytes) : Program T Int := do
  let list ← getList system t
  match list with
  | none => return -1
  | some list =>
      let found ← liftM (list.search key)
      match found with
      | none =>
          let entry ← allocate system
          if entry then
            let name ← allocate system
            let copy ← allocate system
            if name && copy then
              setList t (some ⟨list.store.put key value h, list.broken⟩)
              return 0
            else
              -- the new entry is the first of the list
              setList t (some ⟨.empty, true⟩)
              return -1
          else return -1
      | some _ =>
          let copy ← allocate system
          if copy then
            setList t (some ⟨list.store.put key value h, list.broken⟩)
            return 0
          else
            setList t (some (list.cut key))
            return -1

def mdclogMdcAdd (t : T) (key value : Option CStr) : Program T Int :=
  match key, value with
  | some key, some value =>
      if h : mdclogInternalContainsSpecialCharacters key = false then do
        initLibrary system none
        mdclogInternalPutMdc system t key value ((clean_iff key).mp h)
      else return -1
  | _, _ => return -1

theorem mdclogMdcAdd_clean (t : T) {key : CStr} (hkey : Clean key.bytes) (value : CStr) :
    mdclogMdcAdd system t (some key) (some value) = (do
      initLibrary system none
      mdclogInternalPutMdc system t key value hkey) :=
  dif_pos ((clean_iff key).mpr hkey)

theorem mdclogMdcAdd_special (t : T) {key : CStr} (hkey : ¬Clean key.bytes) (value : CStr) :
    mdclogMdcAdd system t (some key) (some value) = pure (-1) :=
  dif_neg fun h => hkey ((clean_iff key).mp h)

def mdclogMdcGet (t : T) (key : Option CStr) : Program T (Option CStr) :=
  match key with
  | none => return none
  | some key => do
      initLibrary system none
      let list ← getList system t
      match list with
      | none => return none
      | some list =>
          let found ← liftM (list.search key)
          match found with
          | none => return none
          | some value => strdup system value

/-- Unlinking an entry writes to the one behind it, which may be destroyed. -/
def mdclogMdcRemove (t : T) (key : Option CStr) : Program T Unit :=
  match key with
  | none => return
  | some key => do
      initLibrary system none
      let list ← getList system t
      match list with
      | none => return
      | some list =>
          let found ← liftM (list.search key)
          match found with
          | none => return
          | some _ =>
              if list.broken && (keys list.store.pairs).getLast? == some key then failure
              else setList t (some ⟨list.store.erase key, list.broken⟩)

def mdclogMdcClean (t : T) : Program T Unit := do
  initLibrary system none
  let list ← getList system t
  match list with
  | none => return
  | some list =>
      if list.broken then failure else setList t (some ⟨.empty, false⟩)

/-- The public header does not declare it. -/
def mdclogLibClean : Program T Unit :=
  modify fun s => { s with identity := none, initDone := false, logFormatInitDone := false }

/-! The log entry. -/

def pipeBuf : Nat := 4096

/-- Does the walk of `format_mdc` go on behind these pairs? -/
def passes (tv : Timeval) (identity : Option CStr) (severity : Severity)
    (pairs : List (CStr × CStr)) : Bool :=
  headLength tv identity severity + total pairLength pairs + 28 ≤ pipeBuf - 1

/-- One call of `mdclog_write`: the time it reads, the bytes it finds in its
buffer and in the one it allocates, and its call of `vsnprintf`. -/
structure Message where
  tv : Timeval
  stack : Nat → UInt8
  heap : Nat → UInt8
  call : Vsnprintf

/-- The pairs the formatter gets from the list of the thread. -/
def firstMdc (t : T) (tv : Timeval) (severity : Severity) : Program T (List (CStr × CStr)) := do
  let list ← getList system t
  match list with
  | none => return []
  | some list =>
      let s ← get
      if list.broken && passes tv s.identity severity list.store.pairs then failure
      else return list.store.pairs

/-- The end of `mdclog_write`: the entry gets its newline and is written.
`TEMP_FAILURE_RETRY` only repeats a `write` with the same payload. -/
def emit (buffer : Buffer) (len : Int) : Program T Unit :=
  if 0 < len then do
    let buffer ← liftM (store buffer len.toNat newline)
    modify fun s => { s with output := s.output ++ [.write (buffer.take (len.toNat + 1))] }
  else return

def mdclogWrite (t : T) (severity : Severity) (message : Message) : Program T Unit := do
  let s ← get
  if s.currentLevel.code < severity.code then return
  else
    initLibrary system none
    let mdc ← firstMdc system t message.tv severity
    let s ← get
    let ok ← allocate system
    let (buffer, len) ← liftM (mdclogInternalFormatToJsonStr (fresh message.stack pipeBuf)
      (pipeBuf - 1) message.tv s.identity severity mdc (if ok then some message.heap else none)
      message.call)
    emit buffer len

/-! Format initialisation and the monitor. -/

def strBuff : Nat := 128

def logFileConfigMap : CStr := .ofString "CONFIG_MAP_NAME"

def logFields : List CStr :=
  [.ofString "SYSTEM_NAME", .ofString "HOST_NAME", .ofString "SERVICE_NAME",
    .ofString "CONTAINER_NAME", .ofString "POD_NAME"]

/-- What a call finds outside the library. `file` is what `parse_file` finds under a
name, `lstat` says whether the file exists, `pthreadCreate` is what that call returns. -/
structure Environment where
  getenv : CStr → Option CStr
  file : CStr → Reading
  lstat : CStr → Bool
  pthreadCreate : Int
  getpid : Nat
  getpid_le : getpid ≤ intMax

/-- The characters that `snprintf(buff_string, STR_BUFF, "%d", getpid())` leaves. -/
def pidText (pid : Nat) : Option CStr := do
  let (buffer, _) ← snprintf (List.replicate strBuff 0) 0 strBuff (decimal pid)
  return CStr.ofMemory buffer

def readEnvParam (env : Environment) (envkey : CStr) : Program T (Option CStr) :=
  match env.getenv envkey with
  | none => return none
  | some value => strdup system value

/-- `parse_file` and `update_mdc_log_level_severity`, as both callers use them. -/
def readLogLevel (reading : Reading) : Program T Unit := do
  let token ← liftM (parseFile reading)
  let logLevel ← match token with
    | none => pure none
    | some token => strdup system token
  let (level, printed) := updateMdcLogLevelSeverity logLevel
  modify fun s => { s with output := s.output ++ if printed = [] then [] else [.printf printed] }
  mdclogLevelSet level

def enableLogChangeNotify (env : Environment) (fileName : CStr) : Program T Int := do
  if env.lstat fileName then
    let arg ← strdup system fileName
    modify fun s => { s with monitors :=
      s.monitors ++ if env.pthreadCreate = 0 then [⟨.starting, arg⟩] else [] }
    return env.pthreadCreate
  else return -1

def updateMdclogArray (t : T) (key value : CStr) : Program T Int := do
  let oldValue ← mdclogMdcGet system t (some key)
  match oldValue with
  | none => mdclogMdcAdd system t (some key) (some value)
  | some _ =>
      mdclogMdcRemove system t (some key)
      mdclogMdcAdd system t (some key) (some value)

/-- The loop of `mdclog_format_initialize` over the fields still to come. -/
def updateFields (t : T) (env : Environment) : List CStr → Program T Int
  | [] => return 0
  | field :: fields => do
      let fieldValue ← readEnvParam system env field
      match fieldValue with
      | some value =>
          let ret ← updateMdclogArray system t field value
          if ret = 0 then updateFields t env fields else return ret
      | none =>
          let _ ← mdclogMdcAdd system t (some field) (some (.ofString ""))
          updateFields t env fields

/-- `mdclog_format_initialize` from the process id on. -/
def finishFormat (t : T) (logfileMonitor : Int) (env : Environment) : Program T Int := do
  let buffString ← liftM (pidText env.getpid)
  let logFileName ← readEnvParam system env logFileConfigMap
  let ret ← updateMdclogArray system t (.ofString "PID") buffString
  match logFileName with
  | none => return ret
  | some fileName =>
      readLogLevel system (env.file fileName)
      if logfileMonitor ≠ 0 ∧ ret = 0 then enableLogChangeNotify system env fileName
      else return ret

def mdclogFormatInitialize (t : T) (logfileMonitor : Int) (env : Environment) :
    Program T Int := do
  let s ← get
  if s.logFormatInitDone then return 0
  else
    let ret ← updateFields system t env logFields
    if ret = 0 then finishFormat system t logfileMonitor env else return ret

def Library.goto {T : Type} (s : Library T) (index : Nat) (monitor : Monitor) : Library T :=
  { s with monitors := s.monitors.set index monitor }

def Library.gone {T : Type} (s : Library T) (index : Nat) : Library T :=
  { s with monitors := s.monitors.eraseIdx index }

/-- One step of the `index`-th monitor. The inotify calls succeed if `watched`, but no
directory has the empty name; `event` is what `parse_file` finds when there is an event
to read. -/
def monitorStep (index : Nat) (watched : Bool) (event : Option Reading) : Program T Unit := do
  let s ← get
  let monitor ← liftM s.monitors[index]?
  match monitor with
  | ⟨.starting, none⟩ => failure
  | ⟨.starting, some fileName⟩ =>
      if watched ∧ dname fileName ≠ [] then
        modify fun s => Library.goto { s with logFormatInitDone := true } index
          ⟨.testing, some fileName⟩
      else modify fun s => s.gone index
  | ⟨.testing, fileName⟩ =>
      if s.logFormatInitDone then modify fun s => s.goto index ⟨.waiting, fileName⟩
      else modify fun s => s.gone index
  | ⟨.waiting, fileName⟩ => do
      modify fun s => s.goto index ⟨.testing, fileName⟩
      match event with
      | none => return
      | some reading => readLogLevel system reading

/-! Runs of the library. -/

inductive ApiCall where
  | write (severity : Severity) (message : Message)
  | levelSet (level : Severity)
  | attrInit (address : Nat)
  | attrDestroy (attr : Option Nat)
  | attrSetIdent (attr : Option Nat) (identity : Option CStr)
  | init (attr : Option Nat)
  | mdcAdd (key value : Option CStr)
  | mdcGet (key : Option CStr)
  | mdcRemove (key : Option CStr)
  | mdcClean
  | formatInitialize (logfileMonitor : Int) (env : Environment)

def ApiCall.run (t : T) : ApiCall → Program T Result
  | .write severity message => do
      mdclogWrite system t severity message
      return .done
  | .levelSet level => do
      mdclogLevelSet level
      return .done
  | .attrInit address => do return .status (← mdclogAttrInit system address)
  | .attrDestroy attr => do
      mdclogAttrDestroy attr
      return .done
  | .attrSetIdent attr identity => do return .status (← mdclogAttrSetIdent system attr identity)
  | .init attr => do return .status (← mdclogInit system attr)
  | .mdcAdd key value => do return .status (← mdclogMdcAdd system t key value)
  | .mdcGet key => do return .value (← mdclogMdcGet system t key)
  | .mdcRemove key => do
      mdclogMdcRemove system t key
      return .done
  | .mdcClean => do
      mdclogMdcClean system t
      return .done
  | .formatInitialize logfileMonitor env => do
      return .status (← mdclogFormatInitialize system t logfileMonitor env)

/-- A call of a thread with its result, or a step of a monitor. -/
inductive Event (T : Type) where
  | call (t : T) (made : ApiCall) (result : Result)
  | monitor (index : Nat) (watched : Bool) (read : Option Reading)

def Event.Happens (event : Event T) (s s' : Library T) : Prop :=
  match event with
  | .call t made result => (made.run system t).run s = some (result, s')
  | .monitor index watched read => (monitorStep system index watched read).run s = some ((), s')

/-- The runs in which every event is one that `may` happen in its state. -/
inductive Run (may : Library T → Event T → Prop) : List (Event T) → Library T → Prop where
  | start : Run may [] .initial
  | step {events : List (Event T)} {event : Event T} {s s' : Library T} (run : Run may events s)
      (hmay : may s event) (happens : event.Happens system s s') : Run may (events ++ [event]) s'

/-! Running given events. -/

def Event.exec (event : Event T) (s : Library T) : Option (Library T) :=
  match event with
  | .call t made result => do
      let (r, s') ← (made.run system t).run s
      if r = result then some s' else none
  | .monitor index watched read => ((monitorStep system index watched read).run s).map Prod.snd

theorem Event.happens_of_exec {event : Event T} {s s' : Library T}
    (h : event.exec system s = some s') : event.Happens system s s' := by
  cases event with
  | monitor index watched read =>
    obtain ⟨⟨_, s₁⟩, hstep, rfl⟩ := Option.map_eq_some_iff.mp h
    exact hstep
  | call t made result =>
    rw [Event.exec, Option.bind_eq_bind, Option.bind_eq_some_iff] at h
    obtain ⟨⟨r, s₁⟩, hrun, hif⟩ := h
    rw [Option.ite_none_right_eq_some] at hif
    obtain ⟨rfl, ⟨⟩⟩ := hif
    exact hrun

theorem Run.append_exec {may : Library T → Event T → Prop} {events later : List (Event T)}
    {s s' : Library T} (hrun : Run system may events s)
    (h : later.foldlM (fun s event => event.exec system s) s = some s')
    (hmay : ∀ s, ∀ event ∈ later, may s event) : Run system may (events ++ later) s' := by
  induction later generalizing events s with
  | nil =>
    cases h
    rwa [List.append_nil]
  | cons event later ih =>
    rw [List.foldlM_cons, Option.bind_eq_bind, Option.bind_eq_some_iff] at h
    obtain ⟨s₁, hstep, hrest⟩ := h
    have hnext : Run system may (events ++ [event]) s₁ :=
      .step hrun (hmay s event (by simp)) (Event.happens_of_exec system hstep)
    rw [show events ++ event :: later = events ++ [event] ++ later by simp]
    exact ih hnext hrest fun s other hother => hmay s other (by simp [hother])

theorem Run.of_exec {may : Library T → Event T → Prop} {events : List (Event T)} {s : Library T}
    (h : events.foldlM (fun s event => event.exec system s) .initial = some s)
    (hmay : ∀ s, ∀ event ∈ events, may s event) : Run system may events s :=
  Run.append_exec system .start h hmay

end programs

end Mdclog.Api
