import Mdclog.Api

/-! What the calls of the library leave alone: a property that is `Stable` under the
few ways the state changes is kept by every call that has no attribute object. -/
namespace Mdclog.ApiFrame
open Foundation.ByteBuffer Foundation.StateProgram
open CString Escape JsonFormat ConfigMap MdcStore Api

variable {T : Type} {system : System}

/-- A list can only be broken by an allocation that failed. -/
def Whole (system : System) (s : Library T) : Prop :=
  (∀ n, system.malloc n = true) → ∀ t list, s.mdcs t = some list → list.broken = false

/-- What `init_library` may store for want of an identity. -/
def Fallback (system : System) (identity : Option CStr) : Prop :=
  (∀ id ∈ identity, id = CStr.escaped system.progname) ∧
    ((∀ n, system.malloc n = true) → identity.isSome)

structure Stable [DecidableEq T] (system : System) (inv : Library T → Prop) : Prop where
  whole : ∀ {s}, inv s → Whole system s
  allocations : ∀ {s}, inv s → inv { s with allocations := s.allocations + 1 }
  lists : ∀ {s} t {list : Chain}, ((∀ n, system.malloc n = true) → list.broken = false) → inv s →
    inv { s with mdcs := Function.update s.mdcs t (some list) }
  level : ∀ {s} level, inv s → inv { s with currentLevel := level }
  monitors : ∀ {s} monitors flag, inv s →
    inv { s with monitors := monitors, logFormatInitDone := flag }
  fallback : ∀ {s identity}, Fallback system identity → s.initDone = false → inv s →
    inv { s with identity := identity, initDone := true }

/-! Allocations. -/

theorem allocate_eq (s : Library T) :
    (allocate system).run s =
      some (system.malloc s.allocations, { s with allocations := s.allocations + 1 }) := rfl

theorem strdup_eq (text : CStr) (s : Library T) :
    (strdup system text).run s =
      some (if system.malloc s.allocations then some text else none,
        { s with allocations := s.allocations + 1 }) := rfl

section allocations
variable {inv : Library T → Prop}
  (hcount : ∀ {s : Library T}, inv s → inv { s with allocations := s.allocations + 1 })
include hcount

theorem allocate_keeps {s : Library T} (h : inv s) :
    Wlp (fun ok s' => inv s' ∧ ((∀ n, system.malloc n = true) → ok = true))
      (allocate system) s := by
  apply Wlp.bind
  apply Wlp.get
  apply Wlp.bind
  apply Wlp.modify
  exact Wlp.pure ⟨hcount h, fun hmalloc => hmalloc _⟩

theorem strdup_keeps {s : Library T} (h : inv s) (text : CStr) :
    Wlp (fun copy s' => inv s' ∧ (∀ id ∈ copy, id = text) ∧
      ((∀ n, system.malloc n = true) → copy.isSome)) (strdup system text) s := by
  apply Wlp.bind
  refine (allocate_keeps hcount h).mono ?_
  rintro ok s' ⟨hs', hok⟩
  apply Wlp.pure
  refine ⟨hs', fun id hid => ?_, fun hmalloc => by rw [hok hmalloc]; rfl⟩
  cases ok with
  | false => simp at hid
  | true => simpa using hid.symm

omit hcount in
/-- The default identity is the escaped program name in either branch; it takes one
allocation or two. -/
theorem defaultIdentity_result (s : Library T) :
    ∃ identity count, s.allocations ≤ count ∧
      (defaultIdentity system).run s = some (identity, { s with allocations := count }) ∧
      (∀ id ∈ identity, id = CStr.escaped system.progname) ∧
      (system.malloc s.allocations = true → system.malloc (s.allocations + 1) = true →
        identity.isSome) := by
  unfold defaultIdentity
  rw [StateT.run_bind, strdup_eq]
  cases system.malloc s.allocations with
  | false => exact ⟨none, _, Nat.le_succ _, rfl, by simp, nofun⟩
  | true =>
    simp only [if_true, Option.bind_eq_bind, Option.bind_some, escapedCopy_eq]
    by_cases hspecial : mdclogInternalContainsSpecialCharacters system.progname = true
    · rw [if_pos hspecial, StateT.run_bind, allocate_eq]
      dsimp only
      cases system.malloc (s.allocations + 1) with
      | false => exact ⟨none, _, Nat.le_add_right _ 2, rfl, by simp, nofun⟩
      | true => exact ⟨_, _, Nat.le_add_right _ 2, rfl, by simp, fun _ _ => rfl⟩
    · have hsame := escaped_of_clean ((clean_iff system.progname).mp (by simpa using hspecial))
      rw [if_neg hspecial]
      refine ⟨some system.progname, _, Nat.le_succ _, rfl, ?_, fun _ _ => rfl⟩
      rintro _ ⟨⟩
      exact hsame.symm

theorem defaultIdentity_keeps {s : Library T} (h : inv s) :
    Wlp (fun identity s' => inv s' ∧ Fallback system identity) (defaultIdentity system) s := by
  obtain ⟨identity, count, hcounted, hrun, hescaped, hsome⟩ := @defaultIdentity_result T system s
  have hcounts : ∀ k, inv { s with allocations := s.allocations + k } := by
    intro k
    induction k with
    | zero => exact h
    | succ k ih => exact hcount ih
  intro _ _ hrun'
  rw [hrun] at hrun'
  cases hrun'
  have hkept := hcounts (count - s.allocations)
  rw [Nat.add_sub_cancel' hcounted] at hkept
  exact ⟨hkept, hescaped, fun hmalloc => hsome (hmalloc _) (hmalloc _)⟩

end allocations

theorem Whole.update [DecidableEq T] {s : Library T} (h : Whole system s) (t : T) {list : Chain}
    (hlist : (∀ n, system.malloc n = true) → list.broken = false) :
    Whole system { s with mdcs := Function.update s.mdcs t (some list) } := by
  intro hmalloc t' list' hmdcs
  by_cases ht : t' = t
  · subst ht
    have heq : list = list' := by simpa using hmdcs
    rw [← heq]
    exact hlist hmalloc
  · exact h hmalloc t' list' (by simpa [ht] using hmdcs)

section stable
variable [DecidableEq T] {inv : Library T → Prop} (hstable : Stable system inv)
include hstable

theorem Stable.done : Stable system fun s => inv s ∧ s.initDone = true where
  whole h := hstable.whole h.1
  allocations h := ⟨hstable.allocations h.1, h.2⟩
  lists t _ hlist h := ⟨hstable.lists t hlist h.1, h.2⟩
  level level h := ⟨hstable.level level h.1, h.2⟩
  monitors monitors flag h := ⟨hstable.monitors monitors flag h.1, h.2⟩
  fallback hidentity hclear h := ⟨hstable.fallback hidentity hclear h.1, rfl⟩

/-- The branch of `init_library` for want of an identity. -/
theorem fallback_keeps {s : Library T} (h : inv s) (hdone : s.initDone = false) :
    Wlp (fun _ s' => inv s' ∧ s'.initDone = true) (do
      let identity ← defaultIdentity system
      modify fun s => { s with identity := identity, initDone := true } : Program T Unit) s := by
  have hdefault := @defaultIdentity_keeps T system (fun s => inv s ∧ s.initDone = false)
    (fun hs => ⟨hstable.allocations hs.1, hs.2⟩) s ⟨h, hdone⟩
  apply Wlp.bind
  refine hdefault.mono ?_
  rintro identity s' ⟨⟨hs', hclear⟩, hidentity⟩
  exact Wlp.modify ⟨hstable.fallback hidentity hclear hs', rfl⟩

theorem initLibrary_done {s : Library T} (h : inv s) :
    Wlp (fun _ s' => inv s' ∧ s'.initDone = true) (initLibrary system none) s := by
  apply Wlp.bind
  apply Wlp.get
  apply Wlp.ite
  · intro hdone
    exact Wlp.pure ⟨h, hdone⟩
  · intro hdone
    apply Wlp.bind
    apply Wlp.pure
    exact fallback_keeps hstable h (by simpa using hdone)

theorem initLibrary_keeps : Keeps inv (initLibrary system none : Program T Unit) :=
  fun _ h => (initLibrary_done hstable h).mono fun _ _ hs' => hs'.1

theorem readEnvParam_keeps (env : Environment) (envkey : CStr) {s : Library T} (h : inv s) :
    Wlp (fun value s' => inv s' ∧ ∀ text ∈ value, env.getenv envkey = some text)
      (readEnvParam system env envkey) s := by
  unfold readEnvParam
  cases hget : env.getenv envkey with
  | none => exact Wlp.pure ⟨h, by simp⟩
  | some value =>
    refine (strdup_keeps hstable.allocations h value).mono ?_
    rintro copy s' ⟨hs', hcopy, -⟩
    exact ⟨hs', fun text htext => by rw [hcopy text htext]⟩

/-- What is printed for a level is left to the caller. -/
theorem readLogLevel_keeps {reading : Reading}
    (hprint : ∀ token, parseFile reading = some token → ∀ logLevel : Option CStr,
      (∀ level ∈ logLevel, level ∈ token) →
      ((∀ n, system.malloc n = true) → token.isSome → logLevel.isSome) →
      ∀ {s : Library T}, inv s → inv { s with output := s.output ++
        if (updateMdcLogLevelSeverity logLevel).2 = [] then []
        else [.printf (updateMdcLogLevelSeverity logLevel).2] }) :
    Keeps inv (readLogLevel system reading : Program T Unit) := by
  intro s h
  apply Wlp.bind
  apply Wlp.lift
  intro token htoken
  cases token with
  | none =>
    apply Wlp.bind
    apply Wlp.pure
    apply Wlp.bind
    apply Wlp.modify
    exact Wlp.modify (hstable.level _ (hprint none htoken none nofun (by simp) h))
  | some token =>
    apply Wlp.bind
    refine (strdup_keeps hstable.allocations h token).mono ?_
    rintro logLevel s₁ ⟨hs₁, hlevel, hsome⟩
    apply Wlp.bind
    apply Wlp.modify
    refine Wlp.modify (hstable.level _ (hprint _ htoken logLevel ?_ ?_ hs₁))
    · intro level hmem
      rw [hlevel level hmem]
      rfl
    · exact fun hmalloc _ => hsome hmalloc

theorem enableLogChangeNotify_keeps (env : Environment) (fileName : CStr) :
    Keeps inv (enableLogChangeNotify system env fileName : Program T Int) := by
  refine Keeps.ite (fun _ => ?_) fun _ => Keeps.pure (-1)
  refine Keeps.bind
    (fun s h => (strdup_keeps hstable.allocations h fileName).mono fun _ _ hs' => hs'.1)
    fun arg => ?_
  exact Keeps.bind (Keeps.modify fun s h => hstable.monitors _ s.logFormatInitDone h)
    fun _ => Keeps.pure _

theorem monitorStep_keeps (index : Nat) (watched : Bool) {read : Option Reading}
    {s : Library T} (h : inv s)
    (hread : ∀ reading, read = some reading →
      (s.monitors[index]?).map Monitor.pc = some .waiting →
      Keeps inv (readLogLevel system reading : Program T Unit)) :
    Wlp (fun _ s' => inv s') (monitorStep system index watched read) s := by
  have hgone : Keeps inv (modify fun s => s.gone index : Program T PUnit) :=
    Keeps.modify fun s h => hstable.monitors _ s.logFormatInitDone h
  have hgoto : ∀ monitor, Keeps inv (modify fun s => s.goto index monitor : Program T PUnit) :=
    fun monitor => Keeps.modify fun s h => hstable.monitors _ s.logFormatInitDone h
  apply Wlp.bind
  apply Wlp.get
  apply Wlp.bind
  apply Wlp.lift
  rintro ⟨pc, fileName⟩ hmonitor
  cases pc with
  | starting =>
    cases fileName with
    | none => exact Wlp.failure
    | some fileName =>
      refine Keeps.ite (fun _ => Keeps.modify fun s h => ?_) (fun _ => hgone) s h
      have hset := hstable.monitors (s.monitors.set index ⟨.testing, some fileName⟩) true h
      exact hset
  | testing => exact Keeps.ite (fun _ => hgoto _) (fun _ => hgone) s h
  | waiting =>
    refine Keeps.bind (hgoto _) (fun _ => ?_) s h
    cases read with
    | none => exact Keeps.pure ()
    | some reading => exact hread reading rfl (by rw [hmonitor]; rfl)

/-! The MDC calls. -/

theorem setList_keeps (t : T) {list : Chain}
    (hlist : (∀ n, system.malloc n = true) → list.broken = false) :
    Keeps inv (setList t (some list) : Program T Unit) :=
  Keeps.modify fun _ h => hstable.lists t hlist h

theorem getList_keeps (t : T) {s : Library T} (h : inv s) :
    Wlp (fun list s' => inv s' ∧
      ((∀ n, system.malloc n = true) → ∀ chain ∈ list, chain.broken = false))
      (getList system t) s := by
  apply Wlp.bind
  apply Wlp.get
  cases hlist : s.mdcs t with
  | some list =>
    refine Wlp.pure ⟨h, fun hmalloc chain hchain => ?_⟩
    cases hchain
    exact hstable.whole h hmalloc t list hlist
  | none =>
    apply Wlp.bind
    refine (allocate_keeps hstable.allocations h).mono ?_
    rintro ok s₁ ⟨hs₁, -⟩
    apply Wlp.ite
    · intro _
      apply Wlp.bind
      refine (allocate_keeps hstable.allocations hs₁).mono ?_
      rintro ok s₂ ⟨hs₂, -⟩
      apply Wlp.ite
      · intro _
        apply Wlp.bind
        refine (setList_keeps hstable t (fun _ => rfl) s₂ hs₂).mono ?_
        intro _ s₃ hs₃
        exact Wlp.pure ⟨hs₃, by simp⟩
      · intro _
        exact Wlp.pure ⟨hs₂, by simp⟩
    · intro _
      exact Wlp.pure ⟨hs₁, by simp⟩

theorem mdclogInternalPutMdc_keeps (t : T) (key value : CStr) (hkey : Clean key.bytes) :
    Keeps inv (mdclogInternalPutMdc system t key value hkey) := by
  intro s h
  apply Wlp.bind
  refine (getList_keeps hstable t h).mono ?_
  rintro list s₁ ⟨hs₁, hwhole⟩
  cases list with
  | none => exact Wlp.pure hs₁
  | some list =>
    -- both outcomes leave a list that only a failed allocation may have broken
    have hput : ∀ {s : Library T}, inv s → ∀ (code : Int) (chain : Chain),
        ((∀ n, system.malloc n = true) → chain.broken = false) →
        Wlp (fun _ s' => inv s') (setList t (some chain) >>= fun _ => pure code) s :=
      fun hs code chain hchain =>
        Keeps.bind (setList_keeps hstable t hchain) (fun _ => Keeps.pure code) _ hs
    apply Wlp.bind
    apply Wlp.lift
    intro found _
    cases found with
    | none =>
      apply Wlp.bind
      refine (allocate_keeps hstable.allocations hs₁).mono ?_
      rintro entry s₂ ⟨hs₂, -⟩
      apply Wlp.ite
      · intro _
        apply Wlp.bind
        refine (allocate_keeps hstable.allocations hs₂).mono ?_
        rintro name s₃ ⟨hs₃, hname⟩
        apply Wlp.bind
        refine (allocate_keeps hstable.allocations hs₃).mono ?_
        rintro copy s₄ ⟨hs₄, hcopy⟩
        apply Wlp.ite
        · intro _
          exact hput hs₄ _ _ fun hmalloc => hwhole hmalloc list rfl
        · intro hfailed
          refine hput hs₄ _ _ fun hmalloc => absurd ?_ hfailed
          rw [hname hmalloc, hcopy hmalloc]
          rfl
      · intro _
        exact Wlp.pure hs₂
    | some _ =>
      apply Wlp.bind
      refine (allocate_keeps hstable.allocations hs₁).mono ?_
      rintro copy s₂ ⟨hs₂, hcopy⟩
      apply Wlp.ite
      · intro _
        exact hput hs₂ _ _ fun hmalloc => hwhole hmalloc list rfl
      · intro hfailed
        exact hput hs₂ _ _ fun hmalloc => absurd (hcopy hmalloc) hfailed

theorem mdclogMdcAdd_keeps (t : T) (key value : Option CStr) :
    Keeps inv (mdclogMdcAdd system t key value) := by
  cases key with
  | none => exact Keeps.pure (-1)
  | some key =>
    cases value with
    | none => exact Keeps.pure (-1)
    | some value =>
      by_cases hclean : Clean key.bytes
      · rw [mdclogMdcAdd_clean system t hclean]
        exact Keeps.bind (initLibrary_keeps hstable) fun _ =>
          mdclogInternalPutMdc_keeps hstable t key value hclean
      · rw [mdclogMdcAdd_special system t hclean]
        exact Keeps.pure (-1)

/-- The search of the other MDC calls, with what they do to the list. -/
theorem search_keeps {α : Type} (t : T) (key : CStr) (missing : α)
    {found : Chain → Option CStr → Program T α}
    (hfound : ∀ list value, ((∀ n, system.malloc n = true) → list.broken = false) →
      Keeps inv (found list value)) :
    Keeps inv (do
      let list ← getList system t
      match list with
      | none => return missing
      | some list => do
          let value ← liftM (list.search key)
          found list value) := by
  intro s h
  apply Wlp.bind
  refine (getList_keeps hstable t h).mono ?_
  rintro list s₁ ⟨hs₁, hwhole⟩
  cases list with
  | none => exact Wlp.pure hs₁
  | some list =>
    exact Keeps.bind (Keeps.lift _)
      (fun value => hfound list value fun hmalloc => hwhole hmalloc list rfl) s₁ hs₁

theorem mdclogMdcGet_keeps (t : T) (key : Option CStr) :
    Keeps inv (mdclogMdcGet system t key) := by
  cases key with
  | none => exact Keeps.pure none
  | some key =>
    refine Keeps.bind (initLibrary_keeps hstable) fun _ =>
      search_keeps hstable t key none fun list value _ => ?_
    cases value with
    | none => exact Keeps.pure none
    | some value =>
      exact fun s h => (strdup_keeps hstable.allocations h value).mono fun _ _ hs' => hs'.1

theorem mdclogMdcRemove_keeps (t : T) (key : Option CStr) :
    Keeps inv (mdclogMdcRemove system t key) := by
  cases key with
  | none => exact Keeps.pure ()
  | some key =>
    refine Keeps.bind (initLibrary_keeps hstable) fun _ =>
      search_keeps hstable t key () fun list value hlist => ?_
    cases value with
    | none => exact Keeps.pure ()
    | some value => exact Keeps.ite (fun _ => Keeps.failure) fun _ => setList_keeps hstable t hlist

theorem mdclogMdcClean_keeps (t : T) : Keeps inv (mdclogMdcClean system t) := by
  refine Keeps.bind (initLibrary_keeps hstable) fun _ => ?_
  intro s h
  apply Wlp.bind
  refine (getList_keeps hstable t h).mono ?_
  rintro list s₁ ⟨hs₁, -⟩
  cases list with
  | none => exact Wlp.pure hs₁
  | some list =>
    exact Keeps.ite (fun _ => Keeps.failure) (fun _ => setList_keeps hstable t fun _ => rfl) s₁ hs₁

theorem firstMdc_keeps (t : T) (tv : Timeval) (severity : Severity) {s : Library T} (h : inv s) :
    Wlp (fun mdc s' => inv s' ∧ ∃ store : Store, mdc = store.pairs)
      (firstMdc system t tv severity) s := by
  apply Wlp.bind
  refine (getList_keeps hstable t h).mono ?_
  rintro list s₁ ⟨hs₁, -⟩
  cases list with
  | none => exact Wlp.pure ⟨hs₁, .empty, rfl⟩
  | some list =>
    apply Wlp.bind
    apply Wlp.get
    apply Wlp.ite
    · intro _
      exact Wlp.failure
    · intro _
      exact Wlp.pure ⟨hs₁, list.store, rfl⟩

/-- What is written for an entry is left to the caller. -/
theorem mdclogWrite_keeps (t : T) (severity : Severity) (message : Message)
    (hemit : ∀ {s : Library T} {store : Store} {malloc : Option (Nat → UInt8)} {buffer : Buffer}
      {len : Int}, inv s → s.initDone = true →
      mdclogInternalFormatToJsonStr (fresh message.stack pipeBuf) (pipeBuf - 1) message.tv
        s.identity severity store.pairs malloc message.call = some (buffer, len) →
      Wlp (fun _ s' => inv s') (emit buffer len) s) :
    Keeps inv (mdclogWrite system t severity message) := by
  refine Keeps.bind Keeps.get fun s₀ => Keeps.ite (fun _ => Keeps.pure ()) fun _ => ?_
  intro s h
  apply Wlp.bind
  refine (initLibrary_done hstable h).mono ?_
  rintro _ s₁ hs₁
  apply Wlp.bind
  refine (firstMdc_keeps hstable.done t message.tv severity hs₁).mono ?_
  rintro _ s₂ ⟨hs₂, store, rfl⟩
  apply Wlp.bind
  apply Wlp.get
  apply Wlp.bind
  have halloc := @allocate_keeps T system
    (fun s => (inv s ∧ s.initDone = true) ∧ s.identity = s₂.identity)
    (fun hs => ⟨hstable.done.allocations hs.1, hs.2⟩) s₂ ⟨hs₂, rfl⟩
  refine halloc.mono ?_
  rintro ok s₃ ⟨⟨hs₃, hidentity⟩, -⟩
  apply Wlp.bind
  apply Wlp.lift
  rintro ⟨buffer, len⟩ hformat
  rw [← hidentity] at hformat
  exact hemit hs₃.1 hs₃.2 hformat

/-! Format initialisation. -/

theorem updateMdclogArray_keeps (t : T) (key value : CStr) :
    Keeps inv (updateMdclogArray system t key value) := by
  refine Keeps.bind (mdclogMdcGet_keeps hstable t (some key)) fun oldValue => ?_
  cases oldValue with
  | none => exact mdclogMdcAdd_keeps hstable t (some key) (some value)
  | some _ =>
    exact Keeps.bind (mdclogMdcRemove_keeps hstable t (some key)) fun _ =>
      mdclogMdcAdd_keeps hstable t (some key) (some value)

theorem updateFields_keeps (t : T) (env : Environment) (fields : List CStr) :
    Keeps inv (updateFields system t env fields) := by
  induction fields with
  | nil => exact Keeps.pure 0
  | cons field fields ih =>
    refine Keeps.bind
      (fun s h => (readEnvParam_keeps hstable env field h).mono fun _ _ hs' => hs'.1)
      fun fieldValue => ?_
    cases fieldValue with
    | none => exact Keeps.bind (mdclogMdcAdd_keeps hstable t (some field) _) fun _ => ih
    | some value =>
      exact Keeps.bind (updateMdclogArray_keeps hstable t field value) fun ret =>
        Keeps.ite (fun _ => ih) fun _ => Keeps.pure ret

theorem finishFormat_keeps (t : T) (logfileMonitor : Int) (env : Environment)
    (hread : ∀ fileName, env.getenv logFileConfigMap = some fileName →
      Keeps inv (readLogLevel system (env.file fileName) : Program T Unit)) :
    Keeps inv (finishFormat system t logfileMonitor env) := by
  refine Keeps.bind (Keeps.lift _) fun buffString => ?_
  intro s h
  apply Wlp.bind
  refine (readEnvParam_keeps hstable env logFileConfigMap h).mono ?_
  rintro logFileName s₁ ⟨hs₁, hname⟩
  refine Keeps.bind (updateMdclogArray_keeps hstable t _ buffString) (fun ret => ?_) s₁ hs₁
  cases logFileName with
  | none => exact Keeps.pure ret
  | some fileName =>
    exact Keeps.bind (hread fileName (hname fileName rfl)) fun _ =>
      Keeps.ite (fun _ => enableLogChangeNotify_keeps hstable env fileName) fun _ => Keeps.pure ret

/-- The level is read only by a call that finds the flag clear. -/
theorem mdclogFormatInitialize_keeps (t : T) (logfileMonitor : Int) (env : Environment)
    {s : Library T} (h : inv s)
    (hread : s.logFormatInitDone = false → ∀ fileName,
      env.getenv logFileConfigMap = some fileName →
      Keeps inv (readLogLevel system (env.file fileName) : Program T Unit)) :
    Wlp (fun _ s' => inv s') (mdclogFormatInitialize system t logfileMonitor env) s := by
  apply Wlp.bind
  apply Wlp.get
  apply Wlp.ite
  · intro _
    exact Wlp.pure h
  · intro hflag
    refine Keeps.bind (updateFields_keeps hstable t env logFields) (fun ret => ?_) s h
    exact Keeps.ite
      (fun _ => finishFormat_keeps hstable t logfileMonitor env (hread (by simpa using hflag)))
      fun _ => Keeps.pure ret

/-! Events. -/

/-- No attribute object and no initialisation. -/
def Plain : Event T → Prop
  | .call _ (.attrInit _) _ | .call _ (.attrDestroy _) _ | .call _ (.attrSetIdent _ _) _
  | .call _ (.init _) _ => False
  | _ => True

/-- The event reads the level from a file and finds this. -/
def ReadsLevel (s : Library T) (reading : Reading) : Event T → Prop
  | .call _ (.formatInitialize _ env) _ => s.logFormatInitDone = false ∧
      ∃ fileName, env.getenv logFileConfigMap = some fileName ∧ reading = env.file fileName
  | .monitor index _ read => read = some reading ∧
      (s.monitors[index]?).map Monitor.pc = some .waiting
  | _ => False

theorem event_keeps {event : Event T} {s s' : Library T} (hplain : Plain event)
    (hread : ∀ reading, ReadsLevel s reading event →
      Keeps inv (readLogLevel system reading : Program T Unit))
    (hemit : ∀ {t severity message result}, event = .call t (.write severity message) result →
      ∀ {s : Library T} {store : Store} {malloc : Option (Nat → UInt8)} {buffer : Buffer}
        {len : Int}, inv s → s.initDone = true →
        mdclogInternalFormatToJsonStr (fresh message.stack pipeBuf) (pipeBuf - 1) message.tv
          s.identity severity store.pairs malloc message.call = some (buffer, len) →
        Wlp (fun _ s' => inv s') (emit buffer len) s)
    (happens : event.Happens system s s') (h : inv s) : inv s' := by
  cases event with
  | monitor index watched read =>
    refine monitorStep_keeps hstable index watched h ?_ _ _ happens
    exact fun reading hreading hpc => hread reading ⟨hreading, hpc⟩
  | call t made result =>
    have hkeeps : Wlp (fun _ s' => inv s') (made.run system t) s := by
      cases made with
      | write severity message =>
        exact Keeps.bind (mdclogWrite_keeps hstable t severity message (hemit rfl))
          (fun _ => Keeps.pure _) s h
      | levelSet level =>
        exact Keeps.bind (Keeps.modify fun s h => hstable.level level h) (fun _ => Keeps.pure _) s h
      | attrInit address => exact hplain.elim
      | attrDestroy attr => exact hplain.elim
      | attrSetIdent attr identity => exact hplain.elim
      | init attr => exact hplain.elim
      | mdcAdd key value =>
        exact Keeps.bind (mdclogMdcAdd_keeps hstable t key value) (fun _ => Keeps.pure _) s h
      | mdcGet key =>
        exact Keeps.bind (mdclogMdcGet_keeps hstable t key) (fun _ => Keeps.pure _) s h
      | mdcRemove key =>
        exact Keeps.bind (mdclogMdcRemove_keeps hstable t key) (fun _ => Keeps.pure _) s h
      | mdcClean => exact Keeps.bind (mdclogMdcClean_keeps hstable t) (fun _ => Keeps.pure _) s h
      | formatInitialize logfileMonitor env =>
        apply Wlp.bind
        refine (mdclogFormatInitialize_keeps hstable t logfileMonitor env h ?_).mono
          fun _ _ hs' => Wlp.pure hs'
        exact fun hflag fileName hname => hread _ ⟨hflag, fileName, hname, rfl⟩
    exact hkeeps _ _ happens

end stable

/-! The calls with an attribute object. -/

/-- What these calls may do besides: store an identity that passed the test or none, move
one into the configuration, and clear the flags. -/
structure AttrStable [DecidableEq T] (system : System) (inv : Library T → Prop) : Prop
    extends Stable system inv where
  attr : ∀ {s} attr {value : Option (Option CStr)},
    (∀ id, value = some (some id) → Clean id.bytes) → inv s →
    inv { s with attrs := Function.update s.attrs attr value }
  given : ∀ {s attr identity}, s.attrs attr = some (some identity) → inv s →
    inv { s with identity := some identity,
                 attrs := Function.update s.attrs attr (some none), initDone := true }
  restart : ∀ {s}, inv s → inv { s with initDone := false, logFormatInitDone := false }

theorem attrIdentity_reads (attr : Nat) (s : Library T) :
    Wlp (fun given s' => s' = s ∧ s.attrs attr = some given) (attrIdentity attr) s := by
  apply Wlp.bind
  apply Wlp.get
  apply Wlp.lift
  intro given hgiven
  exact ⟨rfl, hgiven⟩

section attributes
variable [DecidableEq T] {inv : Library T → Prop} (hattrs : AttrStable system inv)
include hattrs

theorem initLibrary_attr_keeps (attr : Option Nat) :
    Keeps inv (initLibrary system attr : Program T Unit) := by
  cases attr with
  | none => exact initLibrary_keeps hattrs.toStable
  | some attr =>
    intro s h
    apply Wlp.bind
    apply Wlp.get
    apply Wlp.ite
    · intro _
      exact Wlp.pure h
    · intro hdone
      apply Wlp.bind
      refine (attrIdentity_reads attr s).mono ?_
      rintro given _ ⟨rfl, hgiven⟩
      cases given with
      | none =>
        exact (fallback_keeps hattrs.toStable h (by simpa using hdone)).mono fun _ _ hs' => hs'.1
      | some identity => exact Wlp.modify (hattrs.given hgiven h)

theorem mdclogInit_keeps (attr : Option Nat) :
    Keeps inv (mdclogInit system attr : Program T Int) :=
  Keeps.bind (Keeps.modify fun _ h => hattrs.restart h) fun _ =>
    Keeps.bind (initLibrary_attr_keeps hattrs attr) fun _ => Keeps.pure 0

theorem mdclogAttrInit_keeps (address : Nat) :
    Keeps inv (mdclogAttrInit system address : Program T Int) := by
  intro s h
  apply Wlp.bind
  refine (allocate_keeps hattrs.allocations h).mono ?_
  rintro ok s₁ ⟨hs₁, -⟩
  apply Wlp.ite
  · intro _
    apply Wlp.bind
    apply Wlp.get
    apply Wlp.ite
    · intro _
      exact Wlp.failure
    · intro _
      apply Wlp.bind
      apply Wlp.modify
      exact Wlp.pure (hattrs.attr address (by simp) hs₁)
  · intro _
    exact Wlp.pure hs₁

theorem mdclogAttrDestroy_keeps (attr : Option Nat) :
    Keeps inv (mdclogAttrDestroy attr : Program T Unit) := by
  intro s h
  cases attr with
  | none => exact Wlp.pure h
  | some attr =>
    apply Wlp.bind
    refine (attrIdentity_reads attr s).mono ?_
    rintro _ _ ⟨rfl, -⟩
    exact Wlp.modify (hattrs.attr attr (by simp) h)

theorem mdclogAttrSetIdent_keeps (attr : Option Nat) (identity : Option CStr) :
    Keeps inv (mdclogAttrSetIdent system attr identity : Program T Int) := by
  intro s h
  cases attr with
  | none => exact Wlp.pure h
  | some attr =>
    cases identity with
    | none => exact Wlp.pure h
    | some identity =>
      apply Wlp.ite
      · intro _
        exact Wlp.pure h
      · intro haccepted
        have hclean : Clean identity.bytes :=
          (clean_iff identity).mp (by simpa using (by simpa using haccepted : _ ∧ _).1)
        apply Wlp.bind
        refine (attrIdentity_reads attr s).mono ?_
        rintro _ _ ⟨rfl, -⟩
        apply Wlp.bind
        refine (strdup_keeps hattrs.allocations h identity).mono ?_
        rintro copy s₂ ⟨hs₂, hcopy, -⟩
        apply Wlp.bind
        apply Wlp.modify
        refine Wlp.pure (hattrs.attr attr (fun id hid => ?_) hs₂)
        rw [hcopy id (by simpa using hid)]
        exact hclean

/-- Every event keeps a property that all these changes keep. -/
theorem any_event_keeps {event : Event T} {s s' : Library T}
    (hread : ∀ reading, Keeps inv (readLogLevel system reading : Program T Unit))
    (hemit : ∀ {t severity message result}, event = .call t (.write severity message) result →
      ∀ {s : Library T} {store : Store} {malloc : Option (Nat → UInt8)} {buffer : Buffer}
        {len : Int}, inv s → s.initDone = true →
        mdclogInternalFormatToJsonStr (fresh message.stack pipeBuf) (pipeBuf - 1) message.tv
          s.identity severity store.pairs malloc message.call = some (buffer, len) →
        Wlp (fun _ s' => inv s') (emit buffer len) s)
    (happens : event.Happens system s s') (h : inv s) : inv s' := by
  have hplain : Plain event → inv s' := fun hplain =>
    event_keeps hattrs.toStable hplain (fun reading _ => hread reading) hemit happens h
  cases event with
  | monitor index watched read => exact hplain trivial
  | call t made result =>
    cases made with
    | attrInit address =>
      exact Keeps.bind (mdclogAttrInit_keeps hattrs address) (fun _ => Keeps.pure _) s h _ _
        happens
    | attrDestroy attr =>
      exact Keeps.bind (mdclogAttrDestroy_keeps hattrs attr) (fun _ => Keeps.pure _) s h _ _
        happens
    | attrSetIdent attr identity =>
      exact Keeps.bind (mdclogAttrSetIdent_keeps hattrs attr identity) (fun _ => Keeps.pure _) s h
        _ _ happens
    | init attr =>
      exact Keeps.bind (mdclogInit_keeps hattrs attr) (fun _ => Keeps.pure _) s h _ _ happens
    | _ => exact hplain trivial

end attributes

end Mdclog.ApiFrame
