import Mdclog.FormatStore
import Mdclog.WriteRun

/-! What the library is for, without its lists, its buffers, its allocations and its
lazy initialisation: a logger with one level, one identity and one store for each
thread. -/
namespace Mdclog.LoggerSpec
open Foundation.ByteBuffer Foundation.Fitting
open CString Escape JsonFormat LogEntry ConfigMap EntryRoom MdcStore Api FormatStore

/-- A step of a program that uses the library: one of the events, or a call of a
function that no event is about. -/
inductive Action (T : Type) where
  | event (event : Event T)
  | levelGet (t : T) (level : Severity)
  | libClean (t : T)

def Action.Happens {T : Type} [DecidableEq T] (system : System) (action : Action T)
    (s s' : Library T) : Prop :=
  match action with
  | .event made => made.Happens system s s'
  | .levelGet _ level => mdclogLevelGet.run s = some (level, s')
  | .libClean _ => mdclogLibClean.run s = some ((), s')

/-- `formatDone` is the flag that the monitors set and `mdclog_init` clears. -/
structure Logger (T : Type) where
  level : Severity
  formatDone : Bool
  identity : CStr
  attrs : Nat → Option (Option CStr)
  stores : T → Store
  monitors : List Monitor

section calls
variable {T : Type}

/-- `name` is the identity of a process that sets none. -/
def Logger.initial (name : CStr) : Logger T :=
  ⟨.err, false, name, fun _ => none, fun _ => .empty, []⟩

/-- The line of an entry, if the pairs leave room for one. -/
def entryLine (identity : CStr) (store : Store) (severity : Severity) (tv : Timeval)
    (bytes : List UInt8) : List Output :=
  if FillsRoom (pipeBuf - 1) tv (some identity) severity store.pairs then []
  else [.write (entryText (pipeBuf - 1) tv (some identity) severity store.pairs bytes ++ [newline])]

/-- A call of `vsnprintf` that fails is left out. -/
def Logger.write (l : Logger T) (t : T) (severity : Severity) (message : Message) :
    Option (List Output) :=
  match message.call with
  | .failure _ _ _ => none
  | .output bytes _ =>
      some (if l.level.code < severity.code then []
        else entryLine l.identity (l.stores t) severity message.tv bytes)

/-- A new level from the config map, and what is printed when the map names none. -/
def Logger.readLevel (l : Logger T) (reading : Reading) :
    Option (List Output × Logger T) := do
  let token ← parseFile reading
  let (level, printed) := updateMdcLogLevelSeverity token
  return (if printed = [] then [] else [.printf printed], { l with level := level })

def Logger.setAttr (l : Logger T) (attr : Nat) (value : Option (Option CStr)) : Logger T :=
  { l with attrs := Function.update l.attrs attr value }

/-- The library starts again, with the identity of `attr` or with the default one. -/
def Logger.init (name : CStr) (l : Logger T) (attr : Option Nat) : Option (Logger T) :=
  match attr with
  | none => some { l with identity := name, formatDone := false }
  | some attr => do
      let given ← l.attrs attr
      return { l.setAttr attr (some none) with identity := given.getD name, formatDone := false }

def Logger.attrInit (l : Logger T) (address : Nat) : Option (Logger T) :=
  if (l.attrs address).isSome then none else some (l.setAttr address (some none))

def Logger.attrDestroy (l : Logger T) (attr : Option Nat) : Option (Logger T) :=
  match attr with
  | none => some l
  | some attr => (l.attrs attr).map fun _ => l.setAttr attr none

def Logger.attrSetIdent (l : Logger T) (attr : Option Nat) (identity : Option CStr) :
    Option (Int × Logger T) :=
  match attr, identity with
  | some attr, some identity =>
      if mdclogInternalContainsSpecialCharacters identity ||
          decide (identityMaxLength < identity.bytes.length) then some (-1, l)
      else (l.attrs attr).map fun _ => (0, l.setAttr attr (some (some identity)))
  | _, _ => some (-1, l)

/-- A monitor is started for a file that exists. -/
def Logger.watch (l : Logger T) (env : Environment) (fileName : CStr) : Int × Logger T :=
  if env.lstat fileName then
    (env.pthreadCreate, { l with monitors :=
      l.monitors ++ if env.pthreadCreate = 0 then [⟨.starting, some fileName⟩] else [] })
  else (-1, l)

/-- The config map sets the level and, if that is asked for, is watched. -/
def Logger.configMap (l : Logger T) (logfileMonitor : Int) (env : Environment)
    (fileName : CStr) : Option (Int × List Output × Logger T) :=
  (l.readLevel (env.file fileName)).map fun (printed, l) =>
    if logfileMonitor = 0 then (0, printed, l)
    else ((l.watch env fileName).1, printed, (l.watch env fileName).2)

/-- One step of a monitor. -/
def Logger.monitorStep (l : Logger T) (index : Nat) (watched : Bool)
    (event : Option Reading) : Option (List Output × Logger T) := do
  let monitor ← l.monitors[index]?
  let goto (pc : MonitorPc) : List Monitor := l.monitors.set index ⟨pc, monitor.fileName⟩
  match monitor.pc with
  | .starting =>
      match monitor.fileName with
      | none => none
      | some fileName =>
          if watched ∧ dname fileName ≠ [] then
            return ([], { l with formatDone := true, monitors := goto .testing })
          else return ([], { l with monitors := l.monitors.eraseIdx index })
  | .testing =>
      if l.formatDone then return ([], { l with monitors := goto .waiting })
      else return ([], { l with monitors := l.monitors.eraseIdx index })
  | .waiting =>
      match event with
      | none => return ([], { l with monitors := goto .testing })
      | some reading => Logger.readLevel { l with monitors := goto .testing } reading

def Logger.withStores (l : Logger T) (stores : T → Store) : Logger T := { l with stores := stores }

variable [DecidableEq T]

def Logger.setStore (l : Logger T) (t : T) (store : Store) : Logger T :=
  { l with stores := Function.update l.stores t store }

@[simp] theorem Logger.setStore_same (l : Logger T) (t : T) (store : Store) :
    (l.setStore t store).stores t = store := Function.update_self ..

theorem Logger.setStore_other (l : Logger T) {t u : T} (h : u ≠ t) (store : Store) :
    (l.setStore t store).stores u = l.stores u := Function.update_of_ne h ..

@[simp] theorem Logger.setStore_own (l : Logger T) (t : T) : l.setStore t (l.stores t) = l := by
  rw [Logger.setStore, Function.update_eq_self]

def Logger.formatInitialize (l : Logger T) (t : T) (logfileMonitor : Int) (env : Environment) :
    Option (Int × List Output × Logger T) :=
  if l.formatDone then some (0, [], l)
  else do
    let pid ← pidText env.getpid
    let l := l.setStore t (formatted env pid (l.stores t))
    match env.getenv logFileConfigMap with
    | none => return (0, [], l)
    | some fileName => l.configMap logfileMonitor env fileName

/-- What a call returns and prints, and what it leaves. -/
def Logger.call (name : CStr) (l : Logger T) (t : T) :
    ApiCall → Option (Result × List Output × Logger T)
  | .write severity message => do return (.done, ← l.write t severity message, l)
  | .levelSet level => some (.done, [], { l with level := level })
  | .attrInit address => do return (.status 0, [], ← l.attrInit address)
  | .attrDestroy attr => do return (.done, [], ← l.attrDestroy attr)
  | .attrSetIdent attr identity => do
      let (code, l) ← l.attrSetIdent attr identity
      return (.status code, [], l)
  | .init attr => do return (.status 0, [], ← l.init name attr)
  | .mdcAdd key value =>
      let (store, code) := (l.stores t).add key value
      some (.status code, [], l.setStore t store)
  | .mdcGet key => some (.value ((l.stores t).get key), [], l)
  | .mdcRemove key => some (.done, [], l.setStore t ((l.stores t).remove key))
  | .mdcClean => some (.done, [], l.setStore t .empty)
  | .formatInitialize logfileMonitor env => do
      let (code, printed, l) ← l.formatInitialize t logfileMonitor env
      return (.status code, printed, l)

/-- The logger does the action with the result it carries and this output. -/
def Logger.Acts (name : CStr) (l : Logger T) (action : Action T) (added : List Output)
    (l' : Logger T) : Prop :=
  match action with
  | .event (.call t made result) => l.call name t made = some (result, added, l')
  | .event (.monitor index watched read) =>
      l.monitorStep index watched read = some (added, l')
  | .levelGet _ level => level = l.level ∧ added = [] ∧ l' = l
  | .libClean _ => added = [] ∧ l' = { l with identity := name, formatDone := false }

end calls

end Mdclog.LoggerSpec
