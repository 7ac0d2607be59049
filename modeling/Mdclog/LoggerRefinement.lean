import Mdclog.Foundation.Trace
import Mdclog.LatestInit
import Mdclog.LoggerSpec
import Mdclog.Payload

/-! When its allocations succeed the library shows what the logger of `LoggerSpec`
shows: the same results and the same output for every sequence of actions. -/
namespace Mdclog.LoggerRefinement
open Foundation.ByteBuffer Foundation.Fitting Foundation.StateProgram Foundation.Trace
open CString Escape JsonFormat LogEntry ConfigMap EntryRoom MdcStore Api ApiFrame WriteRun
open FormatFields FormatStore LatestInit LoggerSpec Payload

variable {T : Type} {system : System}

/-! What the calls of one thread leave alone. -/

/-- `s` and `s₀` differ in the list of `t` and in what nobody can see. -/
structure Beside (system : System) (t : T) (s₀ s : Library T) : Prop where
  level : s.currentLevel = s₀.currentLevel
  flag : s.logFormatInitDone = s₀.logFormatInitDone
  identity : usedIdentity system s = usedIdentity system s₀
  attrs : s.attrs = s₀.attrs
  monitors : s.monitors = s₀.monitors
  output : s.output = s₀.output
  lists : ∀ u, u ≠ t → s.mdcs u = s₀.mdcs u

theorem Beside.refl (t : T) (s : Library T) : Beside system t s s :=
  ⟨rfl, rfl, rfl, rfl, rfl, rfl, fun _ _ => rfl⟩

section beside
variable {t : T} {s₀ : Library T}

theorem allocate_beside : Keeps (Beside system t s₀) (allocate system : Program T Bool) := by
  intro s h
  apply Wlp.bind
  apply Wlp.get
  apply Wlp.bind
  apply Wlp.modify
  exact Wlp.pure ⟨h.level, h.flag, h.identity, h.attrs, h.monitors, h.output, h.lists⟩

theorem strdup_beside (text : CStr) :
    Keeps (Beside system t s₀) (strdup system text : Program T (Option CStr)) :=
  allocate_beside.bind fun _ => .pure _

theorem initLibrary_beside (hmalloc : ∀ n, system.malloc n = true) :
    Keeps (Beside system t s₀) (initLibrary system none : Program T Unit) := by
  intro s h
  apply Wlp.bind
  apply Wlp.get
  by_cases hdone : s.initDone = true
  · rw [if_pos hdone]
    exact Wlp.pure h
  · rw [if_neg hdone]
    obtain ⟨count, hdefault⟩ := defaultIdentity_run hmalloc s
    apply Wlp.bind
    apply Wlp.pure
    apply Wlp.bind
    intro identity s₁ hrun
    rw [hdefault, Option.some.injEq, Prod.mk.injEq] at hrun
    obtain ⟨rfl, rfl⟩ := hrun
    apply Wlp.modify
    refine ⟨h.level, h.flag, ?_, h.attrs, h.monitors, h.output, h.lists⟩
    rw [← h.identity, usedIdentity, usedIdentity, if_neg hdone, if_pos rfl]

variable [DecidableEq T]

theorem setList_beside (list : Option Chain) :
    Keeps (Beside system t s₀) (setList t list : Program T Unit) := by
  refine Keeps.modify fun s h => ⟨h.level, h.flag, h.identity, h.attrs, h.monitors, h.output, ?_⟩
  intro u hu
  rw [← h.lists u hu]
  exact Function.update_of_ne hu _ _

theorem getList_beside : Keeps (Beside system t s₀) (getList system t) := by
  refine Keeps.get.bind fun s => ?_
  cases s.mdcs t with
  | some list => exact .pure _
  | none =>
    refine allocate_beside.bind fun ok => .ite (fun _ => ?_) fun _ => .pure _
    refine allocate_beside.bind fun ok => .ite (fun _ => ?_) fun _ => .pure _
    exact (setList_beside _).bind fun _ => .pure _

theorem mdclogInternalPutMdc_beside (key value : CStr) (hkey : Clean key.bytes) :
    Keeps (Beside system t s₀) (mdclogInternalPutMdc system t key value hkey) := by
  refine getList_beside.bind fun list => ?_
  cases list with
  | none => exact .pure _
  | some list =>
    refine (Keeps.lift _).bind fun found => ?_
    cases found with
    | none =>
      refine allocate_beside.bind fun _ => .ite (fun _ => ?_) fun _ => .pure _
      refine allocate_beside.bind fun _ => allocate_beside.bind fun _ =>
        .ite (fun _ => ?_) fun _ => ?_
      · exact (setList_beside _).bind fun _ => .pure _
      · exact (setList_beside _).bind fun _ => .pure _
    | some _ =>
      refine allocate_beside.bind fun _ => .ite (fun _ => ?_) fun _ => ?_
      · exact (setList_beside _).bind fun _ => .pure _
      · exact (setList_beside _).bind fun _ => .pure _

/-- The search that `mdclog_mdc_get` and `mdclog_mdc_remove` begin with. -/
theorem search_beside (hmalloc : ∀ n, system.malloc n = true) {α : Type} (key : CStr) (missing : α)
    {found : Chain → Option CStr → Program T α}
    (hfound : ∀ list value, Keeps (Beside system t s₀) (found list value)) :
    Keeps (Beside system t s₀) (do
      initLibrary system none
      let list ← getList system t
      match list with
      | none => return missing
      | some list => do
          let value ← liftM (list.search key)
          found list value) := by
  refine (initLibrary_beside hmalloc).bind fun _ => getList_beside.bind fun list => ?_
  cases list with
  | none => exact .pure _
  | some list => exact (Keeps.lift _).bind (hfound list)

theorem firstMdc_beside (tv : Timeval) (severity : Severity) :
    Keeps (Beside system t s₀) (firstMdc system t tv severity) := by
  refine getList_beside.bind fun list => ?_
  cases list with
  | none => exact .pure _
  | some list => exact Keeps.get.bind fun s => .ite (fun _ => .failure) fun _ => .pure _

variable (hmalloc : ∀ n, system.malloc n = true)
include hmalloc

theorem mdclogMdcAdd_beside (key value : Option CStr) :
    Keeps (Beside system t s₀) (mdclogMdcAdd system t key value) := by
  cases key with
  | none => exact .pure _
  | some key =>
    cases value with
    | none => exact .pure _
    | some value =>
      by_cases hkey : Clean key.bytes
      · rw [mdclogMdcAdd_clean system t hkey]
        exact (initLibrary_beside hmalloc).bind fun _ => mdclogInternalPutMdc_beside key value hkey
      · rw [mdclogMdcAdd_special system t hkey]
        exact .pure _

theorem mdclogMdcGet_beside (key : Option CStr) :
    Keeps (Beside system t s₀) (mdclogMdcGet system t key) := by
  cases key with
  | none => exact .pure _
  | some key =>
    refine search_beside hmalloc key none fun list value => ?_
    cases value with
    | none => exact .pure _
    | some value => exact strdup_beside value

theorem mdclogMdcRemove_beside (key : Option CStr) :
    Keeps (Beside system t s₀) (mdclogMdcRemove system t key) := by
  cases key with
  | none => exact .pure _
  | some key =>
    refine search_beside hmalloc key () fun list value => ?_
    cases value with
    | none => exact .pure _
    | some value => exact .ite (fun _ => .failure) fun _ => setList_beside _

theorem mdclogMdcClean_beside : Keeps (Beside system t s₀) (mdclogMdcClean system t) := by
  refine (initLibrary_beside hmalloc).bind fun _ => getList_beside.bind fun list => ?_
  cases list with
  | none => exact .pure _
  | some list => exact .ite (fun _ => .failure) fun _ => setList_beside _

theorem updateMdclogArray_beside (key value : CStr) :
    Keeps (Beside system t s₀) (updateMdclogArray system t key value) := by
  refine (mdclogMdcGet_beside hmalloc _).bind fun oldValue => ?_
  cases oldValue with
  | none => exact mdclogMdcAdd_beside hmalloc _ _
  | some _ =>
    exact (mdclogMdcRemove_beside hmalloc _).bind fun _ => mdclogMdcAdd_beside hmalloc _ _

omit [DecidableEq T] hmalloc in
theorem readEnvParam_beside (env : Environment) (envkey : CStr) :
    Keeps (Beside system t s₀) (readEnvParam system env envkey : Program T (Option CStr)) := by
  unfold readEnvParam
  cases env.getenv envkey with
  | none => exact .pure _
  | some value => exact strdup_beside value

theorem updateFields_beside (env : Environment) (fields : List CStr) :
    Keeps (Beside system t s₀) (updateFields system t env fields) := by
  induction fields with
  | nil => exact .pure _
  | cons field fields ih =>
    refine (readEnvParam_beside env field).bind fun value => ?_
    cases value with
    | none => exact (mdclogMdcAdd_beside hmalloc _ _).bind fun _ => ih
    | some value =>
      exact (updateMdclogArray_beside hmalloc _ _).bind fun ret =>
        .ite (fun _ => ih) fun _ => .pure _

end beside

/-! The logger behind a state of the library. -/

/-- `init_library` has not run yet, or a list is not there yet: nobody sees that. -/
structure Stands (system : System) (s : Library T) (l : Logger T) : Prop where
  level : s.currentLevel = l.level
  flag : s.logFormatInitDone = l.formatDone
  identity : usedIdentity system s = some l.identity
  attrs : s.attrs = l.attrs
  stores : ∀ t, storeOf s t = some (l.stores t)
  monitors : s.monitors = l.monitors

/-- A program returns the result, has printed the output and leaves the logger. -/
def Shows {α : Type} (system : System) (printed : List Output) (result : α)
    (outcome : α × List Output × Logger T) (s : Library T) : Prop :=
  result = outcome.1 ∧ s.output = printed ++ outcome.2.1 ∧ Stands system s outcome.2.2

theorem has_keeps {α : Type} {t : T} {p : Program T α} {s₀ : Library T} {flag : Bool} {store : Store}
    (hbeside : Keeps (Beside system t s₀) p)
    (hhas : ∀ {s}, Has 0 flag t store s → Wp (fun _ s' => Has 0 flag t store s') p s) :
    Keeps (fun s => Beside system t s₀ s ∧ Has 0 flag t store s) p :=
  fun s h a s' hrun => ⟨hbeside s h.1 a s' hrun, (hhas h.2).wlp a s' hrun⟩

theorem returns {α β : Type} {p : Program T α} {s : Library T} {printed : List Output}
    {outcome : Option (α × List Output × Logger T)} {outcome' : Option (β × List Output × Logger T)}
    (f : α → β) (hsame : outcome' = outcome.map fun o => (f o.1, o.2))
    (h : Meets (Shows system printed) p s outcome) :
    Meets (Shows system printed) (p >>= fun a => pure (f a)) s outcome' := by
  rw [hsame]
  cases outcome with
  | none => exact Meets.bind_none h
  | some o =>
    refine Meets.of_wp (Wp.bind (Wp.mono h ?_))
    rintro _ s' ⟨rfl, hs'⟩
    exact Wp.pure ⟨rfl, hs'⟩

section calls
variable {s : Library T} {l : Logger T}

theorem Stands.has (h : Stands system s l) (t : T) :
    Has 0 l.formatDone t (l.stores t) s := ⟨Nat.zero_le _, h.flag, h.stores t⟩

variable [DecidableEq T] {t : T}

theorem Stands.setStore {s' : Library T} (h : Stands system s l) (hbeside : Beside system t s s')
    {store : Store} (hstore : storeOf s' t = some store) :
    Stands system s' (l.setStore t store) where
  level := hbeside.level.trans h.level
  flag := hbeside.flag.trans h.flag
  identity := hbeside.identity.trans h.identity
  attrs := hbeside.attrs.trans h.attrs
  monitors := hbeside.monitors.trans h.monitors
  stores u := by
    by_cases hu : u = t
    · subst hu
      rw [hstore, l.setStore_same]
    · rw [l.setStore_other hu, ← h.stores u, storeOf, storeOf, hbeside.lists u hu]

/-- A call that is an operation on the store of its thread. -/
theorem store_shows {α : Type} {p : Program T α} {value : α} {flag : Bool} {store : Store}
    (h : Stands system s l) (hbeside : Keeps (Beside system t s) p)
    (hhas : Wp (fun r s' => r = value ∧ Has 0 flag t store s') p s) :
    Meets (Shows system s.output) p s (some (value, [], l.setStore t store)) := by
  refine (hhas.and_wlp (hbeside s (.refl t s))).mono ?_
  rintro r s' ⟨⟨rfl, hs'⟩, hframe⟩
  exact ⟨rfl, by rw [hframe.output, List.append_nil], h.setStore hframe hs'.store⟩

theorem Stands.of_beside {s' : Library T} (h : Stands system s l) (hbeside : Beside system t s s')
    (hstore : storeOf s' t = some (l.stores t)) : Stands system s' l := by
  rw [← l.setStore_own t]
  exact h.setStore hbeside hstore

section succeeding
variable (hmalloc : ∀ n, system.malloc n = true)
include hmalloc

theorem mdclogMdcClean_has {count : Nat} {flag : Bool} {store : Store}
    (h : Has count flag t store s) :
    Wp (fun _ s' => Has count flag t .empty s') (mdclogMdcClean system t) s := by
  apply Wp.bind
  refine (initLibrary_has h).mono ?_
  intro _ s₁ hs₁
  apply Wp.bind
  refine (getList_has (fun n _ => hmalloc n) hs₁).mono ?_
  rintro _ s₂ ⟨rfl, hs₂⟩
  dsimp only
  rw [if_neg Bool.false_ne_true]
  exact hs₂.setList _

theorem firstMdc_has {flag : Bool} {store : Store} (tv : Timeval) (severity : Severity)
    (h : Has 0 flag t store s) :
    Wp (fun _ s' => Has 0 flag t store s') (firstMdc system t tv severity) s := by
  apply Wp.bind
  refine (getList_has (fun n _ => hmalloc n) h).mono ?_
  rintro _ s₁ ⟨rfl, hs₁⟩
  apply Wp.bind
  apply Wp.get
  rw [Bool.false_and, if_neg Bool.false_ne_true]
  exact Wp.pure hs₁

theorem mdclogWrite_stands (h : Stands system s l) (severity : Severity) (message : Message) :
    Wlp (fun _ s' => Stands system s' l) (mdclogWrite system t severity message) s := by
  apply Wlp.bind
  apply Wlp.get
  refine Wlp.ite (fun _ => Wlp.pure h) fun _ => ?_
  have hstart : Beside system t s s ∧ Has 0 l.formatDone t (l.stores t) s := ⟨.refl t s, h.has t⟩
  apply Wlp.bind
  refine (has_keeps (initLibrary_beside hmalloc) initLibrary_has s hstart).mono ?_
  intro _ s₁ hs₁
  apply Wlp.bind
  refine (has_keeps (firstMdc_beside message.tv severity)
    (firstMdc_has hmalloc message.tv severity) s₁ hs₁).mono ?_
  intro mdc s₂ hs₂
  apply Wlp.bind
  apply Wlp.get
  apply Wlp.bind
  refine (has_keeps allocate_beside
    (fun hs => (allocate_has (fun n _ => hmalloc n) hs).mono fun _ _ => And.right) s₂ hs₂).mono ?_
  intro ok s₃ hs₃
  have hs₃ : Stands system s₃ l := h.of_beside hs₃.1 hs₃.2.store
  apply Wlp.bind
  refine Wlp.lift fun entry _ => ?_
  refine Wlp.ite (fun _ => ?_) fun _ => Wlp.pure hs₃
  apply Wlp.bind
  refine Wlp.lift fun buffer _ => Wlp.modify ?_
  exact ⟨hs₃.level, hs₃.flag, hs₃.identity, hs₃.attrs, hs₃.stores, hs₃.monitors⟩

theorem mdclogWrite_shows (h : Stands system s l) (severity : Severity) {message : Message}
    {bytes : List UInt8} {hbytes : bytes.length ≤ intMax}
    (hcall : message.call = .output bytes hbytes) :
    Meets (Shows system s.output) (mdclogWrite system t severity message) s
      ((l.write t severity message).map fun added => ((), added, l)) := by
  unfold Logger.write
  rw [hcall]
  by_cases hlevel : l.level.code < severity.code
  · simp only [if_pos hlevel]
    rw [← h.level] at hlevel
    apply Meets.bind_wp
    apply Wp.get
    rw [if_pos hlevel]
    exact Wp.pure ⟨rfl, (List.append_nil _).symm, h⟩
  · simp only [if_neg hlevel]
    rw [← h.level] at hlevel
    have hpairs : pairsOf s t = (l.stores t).pairs := by
      have hstore := h.stores t
      rw [storeOf] at hstore
      rw [pairsOf]
      cases hlist : s.mdcs t with
      | none =>
        rw [hlist, Option.some.injEq] at hstore
        rw [← hstore]
        rfl
      | some list =>
        rw [(h.has t).list hlist]
        rfl
    have hwhole : ∀ list, s.mdcs t = some list → list.broken = false := by
      intro list hlist
      rw [(h.has t).list hlist]
    obtain ⟨s', hrun, houtput⟩ := mdclogWrite_run hmalloc hwhole (Nat.le_of_not_lt hlevel) hcall
    rw [h.identity, hpairs] at houtput
    exact ⟨(), s', hrun, rfl, houtput, mdclogWrite_stands hmalloc h severity message () s' hrun⟩

omit [DecidableEq T] in
theorem readLogLevel_shows (h : Stands system s l) (reading : Reading) :
    Meets (Shows system s.output) (readLogLevel system reading) s
      ((l.readLevel reading).map fun outcome => ((), outcome)) := by
  unfold Logger.readLevel readLogLevel
  cases parseFile reading with
  | none => rfl
  | some token =>
    -- the same end for a level and for none
    have hset : ∀ {s₁ : Library T}, s₁.output = s.output → Stands system s₁ l →
        Wp (fun r s' => Shows system s.output r ((), (if (updateMdcLogLevelSeverity token).2 = []
            then [] else [.printf (updateMdcLogLevelSeverity token).2]),
            { l with level := (updateMdcLogLevelSeverity token).1 }) s') (do
          modify fun s => { s with output := s.output ++
            if (updateMdcLogLevelSeverity token).2 = [] then []
            else [.printf (updateMdcLogLevelSeverity token).2] }
          mdclogLevelSet (updateMdcLogLevelSeverity token).1 : Program T Unit) s₁ := by
      intro s₁ houtput hs₁
      apply Wp.bind
      apply Wp.modify
      apply Wp.modify
      exact ⟨rfl, by rw [houtput], rfl, hs₁.flag, hs₁.identity, hs₁.attrs, hs₁.stores,
        hs₁.monitors⟩
    apply Meets.bind_wp
    apply Wp.lift
    apply Meets.of_wp
    cases token with
    | none => exact Wp.bind (Wp.pure (hset rfl h))
    | some token =>
      refine Wp.bind ⟨_, _, strdup_run hmalloc token s, hset rfl ?_⟩
      exact ⟨h.level, h.flag, h.identity, h.attrs, h.stores, h.monitors⟩

omit [DecidableEq T] in
theorem enableLogChangeNotify_shows (h : Stands system s l) (env : Environment) (fileName : CStr) :
    Wp (fun code s' => code = (l.watch env fileName).1 ∧ s'.output = s.output ∧
      Stands system s' (l.watch env fileName).2) (enableLogChangeNotify system env fileName) s := by
  unfold enableLogChangeNotify Logger.watch
  by_cases hfile : env.lstat fileName = true
  · rw [if_pos hfile, if_pos hfile]
    apply Wp.bind
    refine ⟨_, _, strdup_run hmalloc fileName s, ?_⟩
    apply Wp.bind
    apply Wp.modify
    apply Wp.pure
    refine ⟨rfl, rfl, h.level, h.flag, h.identity, h.attrs, h.stores, ?_⟩
    rw [← h.monitors]
  · rw [if_neg hfile, if_neg hfile]
    exact Wp.pure ⟨rfl, rfl, h⟩

omit [DecidableEq T] in
theorem configMap_shows (h : Stands system s l) (logfileMonitor : Int) (env : Environment)
    (fileName : CStr) :
    Meets (Shows system s.output) (do
      readLogLevel system (env.file fileName)
      if logfileMonitor ≠ 0 ∧ (0 : Int) = 0 then enableLogChangeNotify system env fileName
      else return 0) s (l.configMap logfileMonitor env fileName) := by
  have hlevel := readLogLevel_shows hmalloc h (env.file fileName)
  unfold Logger.configMap
  cases hread : l.readLevel (env.file fileName) with
  | none =>
    rw [hread] at hlevel
    exact Meets.bind_none hlevel
  | some outcome =>
    obtain ⟨printed, l₁⟩ := outcome
    rw [hread] at hlevel
    apply Wp.bind
    refine Wp.mono hlevel ?_
    rintro _ s₁ ⟨-, houtput, hs₁⟩
    by_cases hmonitor : logfileMonitor = 0
    · simp only [hmonitor, ne_eq, not_true_eq_false, false_and, if_false, if_true]
      exact Wp.pure ⟨rfl, houtput, hs₁⟩
    · simp only [hmonitor, ne_eq, not_false_eq_true, and_true, if_true, if_false]
      refine (enableLogChangeNotify_shows hmalloc hs₁ env fileName).mono ?_
      rintro code s₂ ⟨hcode, houtput₂, hs₂⟩
      exact ⟨hcode, houtput₂.trans houtput, hs₂⟩

theorem mdclogFormatInitialize_shows (h : Stands system s l) (logfileMonitor : Int)
    (env : Environment) :
    Meets (Shows system s.output) (mdclogFormatInitialize system t logfileMonitor env) s
      (l.formatInitialize t logfileMonitor env) := by
  unfold Logger.formatInitialize
  cases hdone : l.formatDone with
  | true =>
    rw [if_pos rfl]
    exact ⟨0, s, mdclogFormatInitialize_done (h.flag.trans hdone) t logfileMonitor env, rfl,
      (List.append_nil _).symm, h⟩
  | false =>
    rw [if_neg Bool.false_ne_true]
    obtain ⟨pid, hpid, -⟩ := pidText_eq env.getpid_le
    rw [hpid, Option.bind_eq_bind, Option.bind_some]
    -- the six fields
    have hfields : Wp (fun code s' => code = 0 ∧ Beside system t s s' ∧
        Has 0 false t (logFields.foldl (setField env) (l.stores t)) s')
        (updateFields system t env logFields) s := by
      refine ((updateFields_has (fun n _ => hmalloc n) env logFields (by decide +kernel)
        (hdone ▸ h.has t)).and_wlp (updateFields_beside hmalloc env logFields s (.refl t s))).mono ?_
      rintro code s' ⟨⟨hcode, hhas⟩, hbeside⟩
      exact ⟨hcode, hbeside, hhas⟩
    apply Meets.bind_wp
    apply Wp.get
    rw [if_neg (by rw [h.flag, hdone]; exact Bool.false_ne_true)]
    apply Meets.bind_wp
    refine hfields.mono ?_
    rintro _ s₁ ⟨rfl, hbeside₁, hs₁⟩
    rw [if_pos rfl]
    apply Meets.bind_wp
    rw [hpid]
    apply Wp.lift
    apply Meets.bind_wp
    refine ((readEnvParam_has (fun n _ => hmalloc n) hs₁ env logFileConfigMap).and_wlp
      (readEnvParam_beside env logFileConfigMap s₁ hbeside₁)).mono ?_
    rintro _ s₂ ⟨⟨rfl, hs₂⟩, hbeside₂⟩
    apply Meets.bind_wp
    refine ((updateMdclogArray_has (fun n _ => hmalloc n) hs₂ (by decide +kernel) pid).and_wlp
      (updateMdclogArray_beside hmalloc (.ofString "PID") pid s₂ hbeside₂)).mono ?_
    rintro _ s₃ ⟨⟨rfl, hs₃⟩, hbeside₃⟩
    have hstands : Stands system s₃ (l.setStore t (formatted env pid (l.stores t))) :=
      h.setStore hbeside₃ hs₃.store
    -- the config map
    cases env.getenv logFileConfigMap with
    | none => exact Wp.pure ⟨rfl, by rw [hbeside₃.output, List.append_nil], hstands⟩
    | some fileName =>
      rw [← hbeside₃.output]
      exact configMap_shows hmalloc hstands logfileMonitor env fileName

omit [DecidableEq T] in
theorem mdclogInit_shows (h : Stands system s l) (attr : Option Nat) :
    Meets (Shows system s.output) (mdclogInit system attr) s
      ((l.init (CStr.escaped system.progname) attr).map fun l' => (0, [], l')) := by
  set s₁ : Library T := { s with initDone := false, logFormatInitDone := false } with hs₁
  obtain ⟨count, hdefault⟩ := defaultIdentity_run hmalloc s₁
  cases attr with
  | none =>
    apply Meets.bind_wp
    apply Wp.modify
    apply Meets.bind_wp
    apply Wp.bind
    apply Wp.get
    rw [if_neg Bool.false_ne_true]
    apply Wp.bind
    apply Wp.pure
    apply Wp.bind
    refine ⟨_, _, hdefault, Wp.modify ?_⟩
    exact Wp.pure ⟨rfl, (List.append_nil _).symm, h.level, rfl, rfl, h.attrs, h.stores, h.monitors⟩
  | some a =>
    unfold Logger.init
    dsimp only
    rw [← h.attrs]
    cases hgiven : s.attrs a with
    | none =>
      have hfails : (initLibrary system (some a)).run s₁ = none := by
        simp [initLibrary, configure, attrIdentity, hs₁, hgiven]
      apply Meets.bind_wp
      apply Wp.modify
      exact Meets.bind_none hfails
    | some given =>
      have hread : (attrIdentity a).run s₁ = some (given, s₁) := by
        simp [attrIdentity, hs₁, hgiven]
      apply Meets.bind_wp
      apply Wp.modify
      apply Meets.bind_wp
      apply Wp.bind
      apply Wp.get
      rw [if_neg Bool.false_ne_true]
      apply Wp.bind
      refine ⟨_, _, hread, ?_⟩
      cases given with
      | none =>
        -- an object without an identity stays as it is
        have hsame : Function.update s.attrs a (some none) = s.attrs := by
          rw [← hgiven, Function.update_eq_self]
        apply Wp.bind
        refine ⟨_, _, hdefault, Wp.modify (Wp.pure ?_)⟩
        refine ⟨rfl, (List.append_nil _).symm, h.level, rfl, rfl, ?_, h.stores, h.monitors⟩
        rw [Logger.setAttr, ← h.attrs, hsame]
      | some identity =>
        refine Wp.modify (Wp.pure ⟨rfl, (List.append_nil _).symm, h.level, rfl, rfl, ?_, h.stores,
          h.monitors⟩)
        rw [Logger.setAttr, ← h.attrs]

omit [DecidableEq T] hmalloc in
theorem Stands.setAttr (h : Stands system s l) (attr : Nat) (value : Option (Option CStr))
    (count : Nat) :
    Stands system { s with allocations := count, attrs := Function.update s.attrs attr value }
      (l.setAttr attr value) :=
  ⟨h.level, h.flag, h.identity, by rw [Logger.setAttr, ← h.attrs], h.stores, h.monitors⟩

omit [DecidableEq T] in
theorem mdclogAttrInit_shows (h : Stands system s l) (address : Nat) :
    Meets (Shows system s.output) (mdclogAttrInit system address) s
      ((l.attrInit address).map fun l' => (0, [], l')) := by
  unfold Logger.attrInit
  rw [← h.attrs]
  apply Meets.bind_wp
  refine ⟨_, _, allocate_run hmalloc s, ?_⟩
  dsimp only
  rw [if_pos rfl]
  apply Meets.bind_wp
  apply Wp.get
  by_cases hlive : (s.attrs address).isSome = true
  · rw [if_pos hlive, if_pos hlive]
    rfl
  · rw [if_neg hlive, if_neg hlive]
    apply Meets.bind_wp
    apply Wp.modify
    exact Wp.pure ⟨rfl, (List.append_nil _).symm, h.setAttr address (some none) _⟩

omit [DecidableEq T] hmalloc in
/-- A dead object has no defined behaviour, a live one is there for the rest of the call. -/
theorem attrIdentity_meets {α β : Type} {post : α → β → Library T → Prop} (h : Stands system s l)
    (attr : Nat) {f : Option CStr → Program T α} {g : Option CStr → β}
    (hf : ∀ given, s.attrs attr = some given → Meets post (f given) s (some (g given))) :
    Meets post (attrIdentity attr >>= f) s ((l.attrs attr).map g) := by
  rw [← h.attrs]
  cases hgiven : s.attrs attr with
  | none => exact Meets.bind_none (by simp [attrIdentity, hgiven])
  | some given =>
    exact Meets.bind_wp ⟨given, s, by simp [attrIdentity, hgiven], hf given hgiven⟩

omit [DecidableEq T] hmalloc in
theorem mdclogAttrDestroy_shows (h : Stands system s l) (attr : Option Nat) :
    Meets (Shows system s.output) (mdclogAttrDestroy attr) s
      ((l.attrDestroy attr).map fun l' => ((), [], l')) := by
  cases attr with
  | none => exact Wp.pure ⟨rfl, (List.append_nil _).symm, h⟩
  | some attr =>
    unfold Logger.attrDestroy
    rw [Option.map_map]
    refine attrIdentity_meets h attr fun given _ => Wp.modify ?_
    exact ⟨rfl, (List.append_nil _).symm, h.setAttr attr none s.allocations⟩

omit [DecidableEq T] in
theorem mdclogAttrSetIdent_shows (h : Stands system s l) (attr : Option Nat)
    (identity : Option CStr) :
    Meets (Shows system s.output) (mdclogAttrSetIdent system attr identity) s
      ((l.attrSetIdent attr identity).map fun outcome => (outcome.1, [], outcome.2)) := by
  have hrefused : Wp (fun code s' => Shows system s.output code (-1, [], l) s')
      (pure (-1) : Program T Int) s := Wp.pure ⟨rfl, (List.append_nil _).symm, h⟩
  cases attr with
  | none => exact hrefused
  | some attr =>
    cases identity with
    | none => exact hrefused
    | some identity =>
      unfold mdclogAttrSetIdent Logger.attrSetIdent
      dsimp only
      by_cases hbad : (mdclogInternalContainsSpecialCharacters identity ||
          decide (identityMaxLength < identity.bytes.length)) = true
      · rw [if_pos hbad, if_pos hbad]
        exact hrefused
      · rw [if_neg hbad, if_neg hbad, Option.map_map]
        refine attrIdentity_meets h attr fun given _ => ?_
        apply Meets.bind_wp
        refine ⟨_, _, strdup_run hmalloc identity s, ?_⟩
        apply Meets.bind_wp
        apply Wp.modify
        exact Wp.pure ⟨rfl, (List.append_nil _).symm, h.setAttr attr (some (some identity)) _⟩

omit [DecidableEq T] in
theorem monitorStep_shows (h : Stands system s l) (index : Nat) (watched : Bool)
    (read : Option Reading) :
    Meets (Shows system s.output) (monitorStep system index watched read) s
      ((l.monitorStep index watched read).map fun outcome => ((), outcome)) := by
  unfold Logger.monitorStep
  rw [← h.monitors]
  apply Meets.bind_wp
  apply Wp.get
  cases hmonitor : s.monitors[index]? with
  | none => exact Meets.bind_none rfl
  | some monitor =>
    apply Meets.bind_wp
    apply Wp.lift
    obtain ⟨pc, fileName⟩ := monitor
    have hstands : ∀ monitors, Stands system { s with monitors := monitors }
        { l with monitors := monitors } := fun monitors =>
      ⟨h.level, h.flag, h.identity, h.attrs, h.stores, rfl⟩
    have hshows : ∀ monitors, Shows system s.output () ((), [], { l with monitors := monitors })
        { s with monitors := monitors } := fun monitors =>
      ⟨rfl, (List.append_nil _).symm, hstands monitors⟩
    cases pc with
    | starting =>
      cases fileName with
      | none => rfl
      | some fileName =>
        by_cases hwatched : watched = true ∧ dname fileName ≠ []
        · simp only [Option.bind_eq_bind, Option.bind_some, if_pos hwatched]
          exact Wp.modify ⟨rfl, (List.append_nil _).symm, h.level, rfl, h.identity, h.attrs,
            h.stores, rfl⟩
        · simp only [Option.bind_eq_bind, Option.bind_some, if_neg hwatched]
          exact Wp.modify (hshows _)
    | testing =>
      cases hdone : l.formatDone with
      | true =>
        simp only [h.flag.trans hdone, if_true]
        exact Wp.modify (hdone ▸ hshows _)
      | false =>
        simp only [h.flag.trans hdone, Bool.false_eq_true, if_false]
        exact Wp.modify (hdone ▸ hshows _)
    | waiting =>
      cases read with
      | none => exact Wp.bind (Wp.modify (Wp.pure (hshows _)))
      | some reading =>
        apply Meets.bind_wp
        apply Wp.modify
        exact readLogLevel_shows hmalloc (hstands (s.monitors.set index ⟨.testing, fileName⟩))
          reading

theorem call_shows (h : Stands system s l) (made : ApiCall)
    (hformats : ∀ severity message, made = .write severity message →
      ∃ bytes hbytes, message.call = .output bytes hbytes) :
    Meets (Shows system s.output) (made.run system t) s
      (l.call (CStr.escaped system.progname) t made) := by
  cases made with
  | write severity message =>
    obtain ⟨bytes, hbytes, hcall⟩ := hformats severity message rfl
    refine returns (fun _ => Result.done) ?_ (mdclogWrite_shows hmalloc h severity hcall)
    rw [Logger.call]
    cases l.write t severity message <;> rfl
  | levelSet level =>
    exact Wp.bind (Wp.modify (Wp.pure ⟨rfl, (List.append_nil _).symm, rfl, h.flag, h.identity,
      h.attrs, h.stores, h.monitors⟩))
  | attrInit address =>
    refine returns Result.status ?_ (mdclogAttrInit_shows hmalloc h address)
    rw [Logger.call]
    cases l.attrInit address <;> rfl
  | attrDestroy attr =>
    refine returns (fun _ => Result.done) ?_ (mdclogAttrDestroy_shows h attr)
    rw [Logger.call]
    cases l.attrDestroy attr <;> rfl
  | attrSetIdent attr identity =>
    refine returns Result.status ?_ (mdclogAttrSetIdent_shows hmalloc h attr identity)
    rw [Logger.call]
    cases l.attrSetIdent attr identity <;> rfl
  | init attr =>
    refine returns Result.status ?_ (mdclogInit_shows hmalloc h attr)
    rw [Logger.call]
    cases l.init (CStr.escaped system.progname) attr <;> rfl
  | mdcAdd key value =>
    exact returns Result.status rfl (store_shows h (mdclogMdcAdd_beside hmalloc key value)
      (mdclogMdcAdd_has (fun n _ => hmalloc n) (h.has t) key value))
  | mdcGet key =>
    have hget := store_shows h (mdclogMdcGet_beside hmalloc key)
      (mdclogMdcGet_has (fun n _ => hmalloc n) (h.has t) key)
    rw [l.setStore_own] at hget
    exact returns Result.value rfl hget
  | mdcRemove key =>
    have hhas : Wp (fun r s' => r = () ∧ Has 0 l.formatDone t ((l.stores t).remove key) s')
        (mdclogMdcRemove system t key) s :=
      (mdclogMdcRemove_has (fun n _ => hmalloc n) (h.has t) key).mono fun _ _ hs => ⟨rfl, hs⟩
    exact returns (fun _ => Result.done) rfl
      (store_shows h (mdclogMdcRemove_beside hmalloc key) hhas)
  | mdcClean =>
    have hhas : Wp (fun r s' => r = () ∧ Has 0 l.formatDone t .empty s')
        (mdclogMdcClean system t) s :=
      (mdclogMdcClean_has hmalloc (h.has t)).mono fun _ _ hs => ⟨rfl, hs⟩
    exact returns (fun _ => Result.done) rfl (store_shows h (mdclogMdcClean_beside hmalloc) hhas)
  | formatInitialize logfileMonitor env =>
    refine returns Result.status ?_ (mdclogFormatInitialize_shows hmalloc h logfileMonitor env)
    rw [Logger.call]
    cases l.formatInitialize t logfileMonitor env <;> rfl

end succeeding

end calls

/-! Runs. -/

def Formats : Action T → Prop
  | .event made => formats made
  | _ => True

/-- A step of the library with what it prints. Calls of `vsnprintf` succeed. -/
structure Does [DecidableEq T] (system : System) (s : Library T) (action : Action T)
    (added : List Output) (s' : Library T) : Prop where
  formats : Formats action
  happens : action.Happens system s s'
  output : s'.output = s.output ++ added

theorem stands_initial : Stands system (Library.initial : Library T)
    (.initial (CStr.escaped system.progname)) :=
  ⟨rfl, rfl, rfl, rfl, fun _ => rfl, rfl⟩

theorem formats_call {t : T} {made : ApiCall} {result : Result}
    (h : Formats (.event (.call t made result))) (severity : Severity) (message : Message)
    (hmade : made = .write severity message) :
    ∃ bytes hbytes, message.call = .output bytes hbytes := by
  subst hmade
  exact h

section steps
variable [DecidableEq T] (hmalloc : ∀ n, system.malloc n = true) {s : Library T} {l : Logger T}
  {action : Action T} {added : List Output} (h : Stands system s l)
include hmalloc h

/-- A step of the library is a step of the logger behind it. -/
theorem does_acts {s' : Library T} (hdoes : Does system s action added s') :
    ∃ l', l.Acts (CStr.escaped system.progname) action added l' ∧ Stands system s' l' := by
  obtain ⟨hformats, happens, houtput⟩ := hdoes
  cases action with
  | event made =>
    cases made with
    | call t made result =>
      obtain ⟨⟨result', printed, l'⟩, hcall, rfl, hprinted, hstands⟩ :=
        (call_shows hmalloc h made (formats_call hformats)).of_run happens
      obtain rfl : added = printed := List.append_cancel_left (houtput.symm.trans hprinted)
      exact ⟨l', hcall, hstands⟩
    | monitor index watched read =>
      obtain ⟨⟨⟨⟩, printed, l'⟩, hstep, -, hprinted, hstands⟩ :=
        (monitorStep_shows hmalloc h index watched read).of_run happens
      obtain rfl : added = printed := List.append_cancel_left (houtput.symm.trans hprinted)
      obtain ⟨⟨_, _⟩, hstep, ⟨⟩⟩ := Option.map_eq_some_iff.mp hstep
      exact ⟨l', hstep, hstands⟩
  | levelGet t level =>
    cases happens
    have hnone : added = [] := by simpa using houtput
    exact ⟨l, ⟨h.level, hnone, rfl⟩, h⟩
  | libClean t =>
    cases happens
    have hnone : added = [] := by simpa using houtput
    exact ⟨_, ⟨hnone, rfl⟩, h.level, rfl, rfl, h.attrs, h.stores, h.monitors⟩

/-- And every step of the logger is one of the library. -/
theorem acts_does {l' : Logger T}
    (hacts : l.Acts (CStr.escaped system.progname) action added l') :
    ∃ s', Does system s action added s' ∧ Stands system s' l' := by
  cases action with
  | event made =>
    cases made with
    | call t made result =>
      have hcall : l.call (CStr.escaped system.progname) t made = some (result, added, l') := hacts
      have hformats : Formats (.event (.call t made result)) := by
        cases made with
        | write severity message =>
          rw [Logger.call, Logger.write] at hcall
          cases hmessage : message.call with
          | output bytes hbytes => exact ⟨bytes, hbytes, hmessage⟩
          | failure ret hret contents =>
            rw [hmessage] at hcall
            cases hcall
        | _ => trivial
      have hmeets := call_shows hmalloc h (t := t) made (formats_call hformats)
      rw [hcall] at hmeets
      obtain ⟨_, s', hrun, rfl, hprinted, hstands⟩ := hmeets
      exact ⟨s', ⟨hformats, hrun, hprinted⟩, hstands⟩
    | monitor index watched read =>
      have hstep : l.monitorStep index watched read = some (added, l') := hacts
      have hmeets := monitorStep_shows hmalloc h index watched read
      rw [hstep] at hmeets
      obtain ⟨⟨⟩, s', hrun, -, hprinted, hstands⟩ := hmeets
      exact ⟨s', ⟨trivial, hrun, hprinted⟩, hstands⟩
  | levelGet t level =>
    obtain ⟨rfl, rfl, rfl⟩ := hacts
    exact ⟨s, ⟨trivial, by rw [← h.level]; rfl, (List.append_nil _).symm⟩, h⟩
  | libClean t =>
    obtain ⟨rfl, rfl⟩ := hacts
    exact ⟨_, ⟨trivial, rfl, (List.append_nil _).symm⟩, h.level, rfl, rfl, h.attrs, h.stores,
      h.monitors⟩

end steps

section runs
variable [DecidableEq T] (hmalloc : ∀ n, system.malloc n = true)
  {trace : List (Action T × List Output)}
include hmalloc

theorem logger_of_library {s s' : Library T} {l : Logger T} (hstands : Stands system s l)
    (h : Follows (Does system) s trace s') :
    ∃ l', Follows (Logger.Acts (CStr.escaped system.progname)) l trace l' ∧
      Stands system s' l' := by
  have hsim : Simulates (Does system) (Logger.Acts (T := T) (CStr.escaped system.progname)) some
      (Stands system) := fun _ _ _ _ _ hstands hdoes => does_acts hmalloc hstands hdoes
  simpa only [shown_some] using h.simulate hsim hstands

theorem library_of_logger {s : Library T} {l l' : Logger T} (hstands : Stands system s l)
    (h : Follows (Logger.Acts (CStr.escaped system.progname)) l trace l') :
    ∃ s', Follows (Does system) s trace s' ∧ Stands system s' l' := by
  have hsim : Simulates (Logger.Acts (T := T) (CStr.escaped system.progname)) (Does system) some
      (fun l s => Stands system s l) :=
    fun _ _ _ _ _ hstands hacts => acts_does hmalloc hstands hacts
  simpa only [shown_some] using h.simulate hsim hstands

end runs

/-- The library and the logger show the same traces, and are in the same state after
them. -/
theorem library_refines_logger [DecidableEq T] (hmalloc : ∀ n, system.malloc n = true)
    (trace : List (Action T × List Output)) :
    (∀ s, Follows (Does system) .initial trace s →
      ∃ l, Follows (Logger.Acts (CStr.escaped system.progname))
        (.initial (CStr.escaped system.progname)) trace l ∧ Stands system s l) ∧
    ∀ l, Follows (Logger.Acts (CStr.escaped system.progname))
        (.initial (CStr.escaped system.progname)) trace l →
      ∃ s, Follows (Does system) .initial trace s ∧ Stands system s l :=
  ⟨fun _ h => logger_of_library hmalloc stands_initial h,
    fun _ h => library_of_logger hmalloc stands_initial h⟩

/-- A pair is added, read back rendered, and kept over `mdclog_lib_clean`. -/
def rendered : List (Action Unit × List Output) :=
  [(.event (.call () (.mdcAdd (some (.ofString "k")) (some (.ofString "v\n"))) (.status 0)), []),
    (.libClean (), []),
    (.event (.call () (.mdcGet (some (.ofString "k"))) (.value (some (.ofString "v ")))), []),
    (.levelGet () .err, [])]

def renderedEnd : Logger Unit :=
  (Logger.initial (CStr.escaped (.ofString "prog"))).setStore ()
    (Store.empty.add (some (.ofString "k")) (some (.ofString "v\n"))).1

theorem rendered_follows : Follows (Logger.Acts (CStr.escaped (.ofString "prog")))
    (.initial (CStr.escaped (.ofString "prog"))) rendered renderedEnd :=
  (((Follows.start.step (by rfl)).step (by exact ⟨rfl, rfl⟩)).step (by rfl)).step
    (by exact ⟨rfl, rfl, rfl⟩)

theorem library_refines_rendered :
    ∃ s : Library Unit, Follows (Does ⟨.ofString "prog", fun _ => true⟩) .initial rendered s ∧
      s.currentLevel = .err := by
  obtain ⟨s, hrun, hstands⟩ := (@library_refines_logger Unit ⟨.ofString "prog", fun _ => true⟩ _
    (fun _ => rfl) rendered).2 _ rendered_follows
  exact ⟨s, hrun, hstands.level⟩

end Mdclog.LoggerRefinement
