import Mdclog.ApiFrame
import Mdclog.EntryBytes

/-! The fields that `mdclog_format_initialize` leaves in the list of its caller. -/
namespace Mdclog.FormatFields
open Foundation.OrderedMap Foundation.StateProgram
open CString Escape ConfigMap MdcStore Api ApiFrame

variable {T : Type} {system : System}

/-- What the list of a thread holds under a key. -/
def field (s : Library T) (t : T) (key : CStr) : Option CStr :=
  (s.mdcs t).bind fun list => get? key list.store.pairs

/-- The value of a field: that of the variable, empty if there is none. -/
def envValue (env : Environment) (key : CStr) : CStr := (env.getenv key).getD (.ofString "")

structure FieldsSet (env : Environment) (t : T) (s : Library T) : Prop where
  fields : ∀ key ∈ logFields, field s t key = some (CStr.escaped (envValue env key))
  pid : (field s t (.ofString "PID")).map CStr.bytes = some (decimal env.getpid)

/-! A process id is a short number: nothing of it is cut or escaped. -/

theorem clean_decimal (n : Nat) : Clean (decimal n) := by
  intro c hc
  refine ⟨EntryBytes.printable_decimal n c hc, ?_⟩
  have hdigit := Decode.decimal_isDigit n c hc
  simp only [Foundation.Json.isDigit, Bool.and_eq_true, decide_eq_true_eq] at hdigit
  simp only [isEscaped, Bool.or_eq_false_iff, decide_eq_false_iff_not]
  constructor
  · rintro rfl
    exact absurd hdigit.2 (by decide)
  · rintro rfl
    exact absurd hdigit.1 (by decide)

theorem pidText_eq {pid : Nat} (h : pid ≤ intMax) :
    ∃ text, pidText pid = some text ∧ text.bytes = decimal pid := by
  have hlength : (decimal pid).length ≤ 10 :=
    LogEntry.length_decimal_le (by decide) (Nat.lt_of_le_of_lt h (by decide))
  have hnul : 0 ∉ decimal pid := nul_notMem_of_isprint fun b hb => (clean_decimal pid b hb).1
  have hroom : (decimal pid).length < strBuff := Nat.lt_of_le_of_lt hlength (by decide)
  have hprint := snprintf_of_lt [] (List.replicate strBuff 0) (decimal pid) hroom
    (by rw [List.length_replicate]) (Nat.le_trans hlength (by decide))
  simp only [List.nil_append, List.length_nil] at hprint
  refine ⟨CStr.ofMemory (decimal pid), ?_, CStr.bytes_ofMemory_of_notMem hnul⟩
  unfold pidText
  rw [hprint]
  exact congrArg some (CStr.ofMemory_append_nul _ _)

/-! When every allocation from the `count`-th on succeeds. -/

/-- The library is past `count` allocations and the thread's list holds `fields`. -/
structure Holding (count : Nat) (t : T) (fields : CStr → Option CStr) (s : Library T) : Prop where
  allocations : count ≤ s.allocations
  fields : field s t = fields

theorem Holding.of_mdcs {count : Nat} {t : T} {fields : CStr → Option CStr} {s s' : Library T}
    (h : Holding count t fields s) (hmdcs : s'.mdcs = s.mdcs)
    (hcount : s.allocations ≤ s'.allocations) : Holding count t fields s' where
  allocations := Nat.le_trans h.allocations hcount
  fields := by rw [← h.fields, show field s' t = field s t by unfold field; rw [hmdcs]]

section calls
variable {count : Nat} {t : T} {fields : CStr → Option CStr}

theorem Holding.lookup {s : Library T} (h : Holding count t fields s) {list : Chain}
    (hlist : s.mdcs t = some list) (key : CStr) : get? key list.store.pairs = fields key := by
  rw [← h.fields, field, hlist, Option.bind_some]

theorem initLibrary_holding {s : Library T} (h : Holding count t fields s) :
    Wlp (fun _ s' => Holding count t fields s') (initLibrary system none) s := by
  apply Wlp.bind
  apply Wlp.get
  apply Wlp.ite
  · intro _
    exact Wlp.pure h
  · intro _
    apply Wlp.bind
    apply Wlp.pure
    apply Wlp.bind
    have hdefault := @defaultIdentity_keeps T system (Holding count t fields)
      (fun hs => hs.of_mdcs rfl (Nat.le_succ _)) s h
    refine hdefault.mono ?_
    rintro identity s' ⟨hs', -⟩
    exact Wlp.modify (hs'.of_mdcs rfl (Nat.le_refl _))

theorem Holding.setList [DecidableEq T] {s : Library T} (h : Holding count t fields s)
    (list : Chain) :
    Wlp (fun _ s' => Holding count t (fun key => get? key list.store.pairs) s' ∧
      s'.mdcs t = some list) (setList t (some list)) s := by
  apply Wlp.modify
  have hlist : Function.update s.mdcs t (some list) t = some list := Function.update_self ..
  refine ⟨⟨h.allocations, ?_⟩, hlist⟩
  funext key
  change (Function.update s.mdcs t (some list) t).bind _ = _
  rw [hlist, Option.bind_some]

section succeeding
variable (hmalloc : ∀ n, count ≤ n → system.malloc n = true)
include hmalloc

theorem allocate_holding {s : Library T} (h : Holding count t fields s) :
    Wlp (fun ok s' => ok = true ∧ Holding count t fields s' ∧ s'.mdcs = s.mdcs)
      (allocate system) s := by
  apply Wlp.bind
  apply Wlp.get
  apply Wlp.bind
  apply Wlp.modify
  exact Wlp.pure ⟨hmalloc _ h.allocations, h.of_mdcs rfl (Nat.le_succ _), rfl⟩

theorem strdup_holding {s : Library T} (h : Holding count t fields s) (text : CStr) :
    Wlp (fun copy s' => copy = some text ∧ Holding count t fields s') (strdup system text) s := by
  apply Wlp.bind
  refine (allocate_holding hmalloc h).mono ?_
  rintro _ s' ⟨rfl, hs', -⟩
  exact Wlp.pure ⟨rfl, hs'⟩

theorem readEnvParam_holding {s : Library T} (h : Holding count t fields s) (env : Environment)
    (envkey : CStr) :
    Wlp (fun value s' => value = env.getenv envkey ∧ Holding count t fields s')
      (readEnvParam system env envkey) s := by
  unfold readEnvParam
  cases env.getenv envkey with
  | none => exact Wlp.pure ⟨rfl, h⟩
  | some value => exact strdup_holding hmalloc h value

theorem readLogLevel_holding {s : Library T} (h : Holding count t fields s)
    (reading : Reading) :
    Wlp (fun _ s' => Holding count t fields s') (readLogLevel system reading) s := by
  -- the level and what is printed for it are not in the list
  have hlevel : ∀ {s : Library T}, Holding count t fields s → ∀ logLevel : Option CStr,
      Wlp (fun _ s' => Holding count t fields s') (do
        modify fun s => { s with output := s.output ++
          if (updateMdcLogLevelSeverity logLevel).2 = [] then []
          else [.printf (updateMdcLogLevelSeverity logLevel).2] }
        mdclogLevelSet (updateMdcLogLevelSeverity logLevel).1 : Program T Unit) s := by
    intro s hs logLevel
    apply Wlp.bind
    apply Wlp.modify
    exact Wlp.modify (hs.of_mdcs rfl (Nat.le_refl _))
  apply Wlp.bind
  apply Wlp.lift
  intro token _
  cases token with
  | none => exact hlevel h none
  | some token =>
    apply Wlp.bind
    refine (strdup_holding hmalloc h token).mono ?_
    rintro logLevel s₁ ⟨-, hs₁⟩
    exact hlevel hs₁ logLevel

theorem enableLogChangeNotify_holding {s : Library T} (h : Holding count t fields s)
    (env : Environment) (fileName : CStr) :
    Wlp (fun _ s' => Holding count t fields s') (enableLogChangeNotify system env fileName) s := by
  apply Wlp.ite
  · intro _
    apply Wlp.bind
    refine (strdup_holding hmalloc h fileName).mono ?_
    rintro arg s₁ ⟨-, hs₁⟩
    apply Wlp.bind
    apply Wlp.modify
    exact Wlp.pure (hs₁.of_mdcs rfl (Nat.le_refl _))
  · intro _
    exact Wlp.pure h

variable [DecidableEq T]

theorem getList_holding {s : Library T} (h : Holding count t fields s) :
    Wlp (fun list s' => ∃ chain, list = some chain ∧ s'.mdcs t = some chain ∧
      Holding count t fields s') (getList system t) s := by
  apply Wlp.bind
  apply Wlp.get
  cases hlist : s.mdcs t with
  | some list => exact Wlp.pure ⟨list, rfl, hlist, h⟩
  | none =>
    have hempty : fields = fun _ => none := by
      rw [← h.fields]
      funext key
      rw [field, hlist, Option.bind_none]
    apply Wlp.bind
    refine (allocate_holding hmalloc h).mono ?_
    rintro _ s₁ ⟨rfl, hs₁, -⟩
    apply Wlp.bind
    refine (allocate_holding hmalloc hs₁).mono ?_
    rintro _ s₂ ⟨rfl, hs₂, -⟩
    apply Wlp.bind
    refine (hs₂.setList _).mono ?_
    rintro _ s₃ ⟨hs₃, hlist₃⟩
    refine Wlp.pure ⟨_, rfl, hlist₃, ?_⟩
    rw [hempty]
    exact hs₃

theorem mdclogInternalPutMdc_holding {s : Library T} (h : Holding count t fields s)
    (key value : CStr) (hkey : Clean key.bytes) :
    Wlp (fun code s' => code = 0 ∧
      Holding count t (Function.update fields key (some (CStr.escaped value))) s')
      (mdclogInternalPutMdc system t key value hkey) s := by
  apply Wlp.bind
  refine (getList_holding hmalloc h).mono ?_
  rintro _ s₁ ⟨list, rfl, hlist, hs₁⟩
  -- both branches end by storing the pair
  have hput : ∀ {s : Library T}, Holding count t fields s →
      Wlp (fun code s' => code = 0 ∧
        Holding count t (Function.update fields key (some (CStr.escaped value))) s')
        (setList t (some ⟨list.store.put key value hkey, list.broken⟩) >>= fun _ => pure (0 : Int))
        s := by
    intro s hs
    apply Wlp.bind
    refine (hs.setList _).mono ?_
    rintro _ s' ⟨hs', -⟩
    refine Wlp.pure ⟨rfl, ?_⟩
    have hfields : Function.update fields key (some (CStr.escaped value)) =
        fun other => get? other (list.store.put key value hkey).pairs := by
      funext other
      by_cases hother : other = key
      · subst hother
        rw [Function.update_self]
        exact (get?_put_self _ _ _).symm
      · rw [Function.update_of_ne hother, ← hs₁.lookup hlist]
        exact (get?_put_of_ne hother _ _).symm
    rw [hfields]
    exact hs'
  apply Wlp.bind
  apply Wlp.lift
  intro found _
  cases found with
  | none =>
    apply Wlp.bind
    refine (allocate_holding hmalloc hs₁).mono ?_
    rintro _ s₂ ⟨rfl, hs₂, -⟩
    apply Wlp.bind
    refine (allocate_holding hmalloc hs₂).mono ?_
    rintro _ s₃ ⟨rfl, hs₃, -⟩
    apply Wlp.bind
    refine (allocate_holding hmalloc hs₃).mono ?_
    rintro _ s₄ ⟨rfl, hs₄, -⟩
    exact hput hs₄
  | some _ =>
    apply Wlp.bind
    refine (allocate_holding hmalloc hs₁).mono ?_
    rintro _ s₂ ⟨rfl, hs₂, -⟩
    exact hput hs₂

theorem mdclogMdcAdd_holding {s : Library T} (h : Holding count t fields s) {key : CStr}
    (hkey : Clean key.bytes) (value : CStr) :
    Wlp (fun code s' => code = 0 ∧
      Holding count t (Function.update fields key (some (CStr.escaped value))) s')
      (mdclogMdcAdd system t (some key) (some value)) s := by
  rw [mdclogMdcAdd_clean system t hkey]
  apply Wlp.bind
  refine (initLibrary_holding h).mono ?_
  intro _ s₁ hs₁
  exact mdclogInternalPutMdc_holding hmalloc hs₁ key value hkey

theorem mdclogMdcGet_holding {s : Library T} (h : Holding count t fields s) (key : CStr) :
    Wlp (fun _ s' => Holding count t fields s') (mdclogMdcGet system t (some key)) s := by
  apply Wlp.bind
  refine (initLibrary_holding h).mono ?_
  intro _ s₁ hs₁
  apply Wlp.bind
  refine (getList_holding hmalloc hs₁).mono ?_
  rintro _ s₂ ⟨list, rfl, -, hs₂⟩
  apply Wlp.bind
  apply Wlp.lift
  intro found _
  cases found with
  | none => exact Wlp.pure hs₂
  | some value => exact (strdup_holding hmalloc hs₂ value).mono fun _ _ hs' => hs'.2

/-- Only the key that is removed may change. -/
theorem mdclogMdcRemove_holding {s : Library T} (h : Holding count t fields s) (key : CStr) :
    Wlp (fun _ s' => ∃ left : CStr → Option CStr,
      (∀ other, other ≠ key → left other = fields other) ∧ Holding count t left s')
      (mdclogMdcRemove system t (some key)) s := by
  apply Wlp.bind
  refine (initLibrary_holding h).mono ?_
  intro _ s₁ hs₁
  apply Wlp.bind
  refine (getList_holding hmalloc hs₁).mono ?_
  rintro _ s₂ ⟨list, rfl, hlist, hs₂⟩
  apply Wlp.bind
  apply Wlp.lift
  intro found _
  cases found with
  | none => exact Wlp.pure ⟨fields, fun _ _ => rfl, hs₂⟩
  | some value =>
    apply Wlp.ite
    · intro _
      exact Wlp.failure
    · intro _
      refine (hs₂.setList _).mono ?_
      rintro _ s₃ ⟨hs₃, -⟩
      refine ⟨_, fun other hother => ?_, hs₃⟩
      rw [← hs₂.lookup hlist]
      exact get?_erase_of_ne hother _

theorem updateMdclogArray_holding {s : Library T} (h : Holding count t fields s) {key : CStr}
    (hkey : Clean key.bytes) (value : CStr) :
    Wlp (fun code s' => code = 0 ∧
      Holding count t (Function.update fields key (some (CStr.escaped value))) s')
      (updateMdclogArray system t key value) s := by
  apply Wlp.bind
  refine (mdclogMdcGet_holding hmalloc h key).mono ?_
  intro oldValue s₁ hs₁
  cases oldValue with
  | none => exact mdclogMdcAdd_holding hmalloc hs₁ hkey value
  | some _ =>
    apply Wlp.bind
    refine (mdclogMdcRemove_holding hmalloc hs₁ key).mono ?_
    rintro _ s₂ ⟨left, hleft, hs₂⟩
    have hsame : Function.update left key (some (CStr.escaped value)) =
        Function.update fields key (some (CStr.escaped value)) := by
      funext other
      by_cases hother : other = key
      · subst hother
        rw [Function.update_self, Function.update_self]
      · rw [Function.update_of_ne hother, Function.update_of_ne hother, hleft other hother]
    rw [← hsame]
    exact mdclogMdcAdd_holding hmalloc hs₂ hkey value

/-- The loop sets every field it has left. -/
theorem updateFields_holding (env : Environment) (names : List CStr)
    (hnames : ∀ name ∈ names, Clean name.bytes) {s : Library T} (h : Holding count t fields s) :
    Wlp (fun code s' => code = 0 ∧
      Holding count t (fun key => if key ∈ names then some (CStr.escaped (envValue env key))
        else fields key) s') (updateFields system t env names) s := by
  induction names generalizing s fields with
  | nil => exact Wlp.pure ⟨rfl, by simpa using h⟩
  | cons name names ih =>
    have hname := hnames name (by simp)
    have hrest := fun other hother => hnames other (List.mem_cons_of_mem name hother)
    -- both branches store the value and go on
    have hnext : ∀ {s : Library T}, Holding count t
        (Function.update fields name (some (CStr.escaped (envValue env name)))) s →
        Wlp (fun code s' => code = 0 ∧ Holding count t
          (fun key => if key ∈ name :: names then some (CStr.escaped (envValue env key))
            else fields key) s') (updateFields system t env names) s := by
      intro s hs
      refine (ih hrest hs).mono ?_
      rintro code s' ⟨hcode, hs'⟩
      refine ⟨hcode, hs'.allocations, hs'.fields.trans ?_⟩
      funext key
      by_cases hkey : key ∈ names
      · rw [if_pos hkey, if_pos (List.mem_cons_of_mem name hkey)]
      · rw [if_neg hkey]
        by_cases hsame : key = name
        · subst hsame
          rw [Function.update_self, if_pos List.mem_cons_self]
        · rw [Function.update_of_ne hsame, if_neg (by simp [hsame, hkey])]
    apply Wlp.bind
    refine (readEnvParam_holding hmalloc h env name).mono ?_
    rintro _ s₁ ⟨rfl, hs₁⟩
    cases hvalue : env.getenv name with
    | some value =>
      apply Wlp.bind
      refine (updateMdclogArray_holding hmalloc hs₁ hname value).mono ?_
      rintro _ s₂ ⟨rfl, hs₂⟩
      apply hnext
      rwa [envValue, hvalue]
    | none =>
      apply Wlp.bind
      refine (mdclogMdcAdd_holding hmalloc hs₁ hname _).mono ?_
      rintro _ s₂ ⟨-, hs₂⟩
      apply hnext
      rwa [envValue, hvalue]

theorem finishFormat_holding {s : Library T} (h : Holding count t fields s) (logfileMonitor : Int)
    (env : Environment) :
    Wlp (fun _ s' => ∃ pid : CStr, pid.bytes = decimal env.getpid ∧
      Holding count t (Function.update fields (.ofString "PID") (some (CStr.escaped pid))) s')
      (finishFormat system t logfileMonitor env) s := by
  obtain ⟨pid, hpid, hbytes⟩ := pidText_eq env.getpid_le
  apply Wlp.bind
  rw [hpid]
  apply Wlp.lift
  rintro _ ⟨⟩
  apply Wlp.bind
  refine (readEnvParam_holding hmalloc h env logFileConfigMap).mono ?_
  rintro logFileName s₁ ⟨-, hs₁⟩
  apply Wlp.bind
  refine (updateMdclogArray_holding hmalloc hs₁ (by decide) pid).mono ?_
  rintro ret s₂ ⟨-, hs₂⟩
  cases logFileName with
  | none => exact Wlp.pure ⟨pid, hbytes, hs₂⟩
  | some fileName =>
    apply Wlp.bind
    refine (readLogLevel_holding hmalloc hs₂ _).mono ?_
    intro _ s₃ hs₃
    apply Wlp.ite
    · intro _
      exact (enableLogChangeNotify_holding hmalloc hs₃ env fileName).mono
        fun _ _ hs₄ => ⟨pid, hbytes, hs₄⟩
    · intro _
      exact Wlp.pure ⟨pid, hbytes, hs₃⟩

/-- The work that is done when the flag is clear. -/
theorem mdclogFormatInitialize_fieldsSet {s : Library T} (h : Holding count t fields s)
    (hflag : s.logFormatInitDone = false) (logfileMonitor : Int) (env : Environment) :
    Wlp (fun _ s' => FieldsSet env t s')
      (mdclogFormatInitialize system t logfileMonitor env) s := by
  apply Wlp.bind
  apply Wlp.get
  rw [hflag]
  apply Wlp.bind
  refine (updateFields_holding hmalloc env logFields (by decide) h).mono ?_
  rintro _ s₁ ⟨rfl, hs₁⟩
  refine (finishFormat_holding hmalloc hs₁ logfileMonitor env).mono ?_
  rintro _ s' ⟨pid, hpid, hs'⟩
  constructor
  · intro key hkey
    have hne : key ≠ .ofString "PID" := by
      rintro rfl
      exact absurd hkey (by decide)
    rw [hs'.fields, Function.update_of_ne hne, if_pos hkey]
  · rw [hs'.fields, Function.update_self, Option.map_some]
    change some (escapeText pid.bytes) = _
    rw [hpid, escapeText_of_clean (clean_decimal _)]

end succeeding

end calls

/-- With the flag set nothing is done. -/
theorem mdclogFormatInitialize_done [DecidableEq T] {s : Library T}
    (hflag : s.logFormatInitDone = true) (t : T) (logfileMonitor : Int) (env : Environment) :
    (mdclogFormatInitialize system t logfileMonitor env).run s = some (0, s) := by
  unfold mdclogFormatInitialize
  rw [StateT.run_bind, StateT.run_get, Option.pure_def, Option.bind_eq_bind, Option.bind_some,
    if_pos hflag]
  rfl

/-- In every run, a call that returns zero with its allocations made leaves the fields
in the list of its caller exactly if it finds the flag clear or the fields set. -/
theorem format_initialize_sets_iff [DecidableEq T] {events : List (Event T)} {s s' : Library T}
    (_hrun : Run system (fun _ _ => True) events s)
    (hmalloc : ∀ n, s.allocations ≤ n → system.malloc n = true) {t : T} {logfileMonitor : Int}
    {env : Environment}
    (hcall : (Event.call t (.formatInitialize logfileMonitor env) (.status 0)).Happens
      system s s') :
    FieldsSet env t s' ↔ s.logFormatInitDone = false ∨ FieldsSet env t s := by
  obtain ⟨ret, hret, -⟩ := of_bind_pure hcall
  cases hflag : s.logFormatInitDone with
  | false =>
    have hset := mdclogFormatInitialize_fieldsSet hmalloc ⟨Nat.le_refl _, rfl⟩ hflag
      logfileMonitor env ret s' hret
    exact iff_of_true hset (.inl rfl)
  | true =>
    rw [mdclogFormatInitialize_done hflag] at hret
    cases hret
    simp

/-- A system name, and a file in a directory to monitor. -/
def monitored : Environment where
  getenv name :=
    if name = .ofString "SYSTEM_NAME" then some (.ofString "a\\b")
    else if name = logFileConfigMap then some (.ofString "/cfg/map") else none
  file _ := ⟨some (ascii "log-level: INFO\n"), id⟩
  lstat _ := true
  pthreadCreate := 0
  getpid := 42
  getpid_le := by decide

theorem format_initialize_sets_first :
    ∃ s' : Library Unit,
      (Event.call () (.formatInitialize 1 monitored) (.status 0)).Happens
        ⟨.ofString "prog", fun _ => true⟩ .initial s' ∧ FieldsSet monitored () s' := by
  have hexec : ((Event.call () (.formatInitialize 1 monitored) (.status 0)).exec
      ⟨.ofString "prog", fun _ => true⟩ Library.initial).isSome := by
    decide +kernel
  obtain ⟨s', hexec⟩ := Option.isSome_iff_exists.mp hexec
  have hcall := Event.happens_of_exec _ hexec
  exact ⟨s', hcall, (format_initialize_sets_iff .start (fun _ _ => rfl) hcall).mpr (.inl rfl)⟩

/-- The monitor of one thread has set the flag when another thread asks for its fields. -/
theorem format_initialize_other_thread :
    ∃ s s' : Library Bool,
      Run ⟨.ofString "prog", fun _ => true⟩ (fun _ _ => True)
        [.call false (.formatInitialize 1 monitored) (.status 0), .monitor 0 true none] s ∧
      (Event.call true (.formatInitialize 0 monitored) (.status 0)).Happens
        ⟨.ofString "prog", fun _ => true⟩ s s' ∧ ¬FieldsSet monitored true s' := by
  have hexec : ([Event.call false (.formatInitialize 1 monitored) (.status 0),
      .monitor 0 true none].foldlM (fun s event => Event.exec
        ⟨.ofString "prog", fun _ => true⟩ event s) Library.initial).map
        (fun s => (s.logFormatInitDone, (s.mdcs true).isNone)) = some (true, true) := by
    decide +kernel
  obtain ⟨s, hexec, hstate⟩ := Option.map_eq_some_iff.mp hexec
  simp only [Prod.mk.injEq] at hstate
  obtain ⟨hflag, hnone⟩ := hstate
  refine ⟨s, s, Run.of_exec _ hexec fun _ _ _ => trivial, ?_, fun hset => ?_⟩
  · change (mdclogFormatInitialize _ _ _ _ >>= fun code => pure (Result.status code)).run s = _
    rw [StateT.run_bind, mdclogFormatInitialize_done hflag]
    rfl
  · have hpid := hset.pid
    rw [field, Option.isNone_iff_eq_none.mp hnone] at hpid
    cases hpid

end Mdclog.FormatFields
