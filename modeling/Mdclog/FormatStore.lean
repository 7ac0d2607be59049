import Mdclog.FormatFields

/-! The MDC calls as operations on the store of their thread, when the allocations they
make succeed, and what `mdclog_format_initialize` makes of that store. -/
namespace Mdclog.FormatStore
open Foundation.OrderedMap Foundation.StateProgram
open CString Escape ConfigMap MdcStore Api ApiFrame FormatFields

variable {T : Type} {system : System}

/-- The store of a thread. A list with a destroyed entry in it holds no store. -/
def storeOf (s : Library T) (t : T) : Option Store :=
  match s.mdcs t with
  | none => some .empty
  | some list => if list.broken then none else some list.store

/-- The library is past `count` allocations, the thread has this store and the flag of
the format initialisation this value. -/
structure Has (count : Nat) (flag : Bool) (t : T) (store : Store) (s : Library T) : Prop where
  allocations : count ≤ s.allocations
  flag : s.logFormatInitDone = flag
  store : storeOf s t = some store

section calls
variable {count : Nat} {flag : Bool} {t : T} {store : Store}

theorem Has.of_mdcs {s s' : Library T} (h : Has count flag t store s) (hmdcs : s'.mdcs = s.mdcs)
    (hflag : s'.logFormatInitDone = s.logFormatInitDone)
    (hcount : s.allocations ≤ s'.allocations) : Has count flag t store s' where
  allocations := Nat.le_trans h.allocations hcount
  flag := hflag.trans h.flag
  store := by rw [← h.store, storeOf, storeOf, hmdcs]

/-- A thread with a list has this one. -/
theorem Has.list {s : Library T} (h : Has count flag t store s) {list : Chain}
    (hlist : s.mdcs t = some list) : list = ⟨store, false⟩ := by
  have hstore := h.store
  rw [storeOf, hlist] at hstore
  obtain ⟨kept, broken⟩ := list
  cases broken with
  | false =>
    cases hstore
    rfl
  | true => cases hstore

theorem Has.setList [DecidableEq T] {s : Library T} (h : Has count flag t store s)
    (next : Store) :
    Wp (fun _ s' => Has count flag t next s') (setList t (some ⟨next, false⟩)) s := by
  apply Wp.modify
  have hlist : Function.update s.mdcs t (some ⟨next, false⟩) t = some ⟨next, false⟩ :=
    Function.update_self ..
  refine ⟨h.allocations, h.flag, ?_⟩
  rw [storeOf]
  dsimp only
  rw [hlist]
  rfl

theorem initLibrary_has {s : Library T} (h : Has count flag t store s) :
    Wp (fun _ s' => Has count flag t store s') (initLibrary system none) s := by
  apply Wp.bind
  apply Wp.get
  by_cases hdone : s.initDone = true
  · rw [if_pos hdone]
    exact Wp.pure h
  · rw [if_neg hdone]
    obtain ⟨identity, total, htotal, hdefault, -⟩ := @defaultIdentity_result T system s
    apply Wp.bind
    apply Wp.pure
    apply Wp.bind
    exact ⟨identity, _, hdefault, Wp.modify (h.of_mdcs rfl rfl htotal)⟩

section succeeding
variable (hmalloc : ∀ n, count ≤ n → system.malloc n = true)
include hmalloc

theorem allocate_has {s : Library T} (h : Has count flag t store s) :
    Wp (fun ok s' => ok = true ∧ Has count flag t store s') (allocate system) s := by
  apply Wp.bind
  apply Wp.get
  apply Wp.bind
  apply Wp.modify
  exact Wp.pure ⟨hmalloc _ h.allocations, h.of_mdcs rfl rfl (Nat.le_succ _)⟩

theorem strdup_has {s : Library T} (h : Has count flag t store s) (text : CStr) :
    Wp (fun copy s' => copy = some text ∧ Has count flag t store s') (strdup system text) s := by
  apply Wp.bind
  refine (allocate_has hmalloc h).mono ?_
  rintro _ s' ⟨rfl, hs'⟩
  exact Wp.pure ⟨rfl, hs'⟩

theorem readEnvParam_has {s : Library T} (h : Has count flag t store s) (env : Environment)
    (envkey : CStr) :
    Wp (fun value s' => value = env.getenv envkey ∧ Has count flag t store s')
      (readEnvParam system env envkey) s := by
  unfold readEnvParam
  cases env.getenv envkey with
  | none => exact Wp.pure ⟨rfl, h⟩
  | some value => exact strdup_has hmalloc h value

variable [DecidableEq T]

theorem getList_has {s : Library T} (h : Has count flag t store s) :
    Wp (fun list s' => list = some ⟨store, false⟩ ∧ Has count flag t store s')
      (getList system t) s := by
  apply Wp.bind
  apply Wp.get
  cases hlist : s.mdcs t with
  | some list =>
    obtain rfl := h.list hlist
    exact Wp.pure ⟨rfl, h⟩
  | none =>
    obtain rfl : store = .empty := by
      have hstore := h.store
      rw [storeOf, hlist] at hstore
      exact (Option.some.inj hstore).symm
    apply Wp.bind
    refine (allocate_has hmalloc h).mono ?_
    rintro _ s₁ ⟨rfl, hs₁⟩
    rw [if_pos rfl]
    apply Wp.bind
    refine (allocate_has hmalloc hs₁).mono ?_
    rintro _ s₂ ⟨rfl, hs₂⟩
    rw [if_pos rfl]
    apply Wp.bind
    refine (hs₂.setList _).mono ?_
    intro _ s₃ hs₃
    exact Wp.pure ⟨rfl, hs₃⟩

omit hmalloc in
theorem search_of_whole (key : CStr) :
    Chain.search ⟨store, false⟩ key = some (store.get (some key)) := by
  rw [Chain.search, Store.get, Option.bind_some]
  cases get? key store.pairs with
  | none => rfl
  | some value => rfl

theorem mdclogInternalPutMdc_has {s : Library T} (h : Has count flag t store s) (key value : CStr)
    (hkey : Clean key.bytes) :
    Wp (fun code s' => code = 0 ∧ Has count flag t (store.put key value hkey) s')
      (mdclogInternalPutMdc system t key value hkey) s := by
  apply Wp.bind
  refine (getList_has hmalloc h).mono ?_
  rintro _ s₁ ⟨rfl, hs₁⟩
  -- both branches end by storing the pair
  have hput : ∀ {s : Library T}, Has count flag t store s →
      Wp (fun code s' => code = 0 ∧ Has count flag t (store.put key value hkey) s')
        (setList t (some ⟨store.put key value hkey, false⟩) >>= fun _ => pure (0 : Int)) s := by
    intro s hs
    apply Wp.bind
    refine (hs.setList _).mono ?_
    intro _ s' hs'
    exact Wp.pure ⟨rfl, hs'⟩
  dsimp only
  rw [search_of_whole]
  apply Wp.bind
  apply Wp.lift
  cases store.get (some key) with
  | none =>
    apply Wp.bind
    refine (allocate_has hmalloc hs₁).mono ?_
    rintro _ s₂ ⟨rfl, hs₂⟩
    apply Wp.bind
    refine (allocate_has hmalloc hs₂).mono ?_
    rintro _ s₃ ⟨rfl, hs₃⟩
    apply Wp.bind
    refine (allocate_has hmalloc hs₃).mono ?_
    rintro _ s₄ ⟨rfl, hs₄⟩
    exact hput hs₄
  | some _ =>
    apply Wp.bind
    refine (allocate_has hmalloc hs₁).mono ?_
    rintro _ s₂ ⟨rfl, hs₂⟩
    exact hput hs₂

/-- `mdclog_mdc_add` is the `add` of the store. -/
theorem mdclogMdcAdd_has {s : Library T} (h : Has count flag t store s) (key value : Option CStr) :
    Wp (fun code s' => code = (store.add key value).2 ∧
      Has count flag t (store.add key value).1 s') (mdclogMdcAdd system t key value) s := by
  cases key with
  | none => exact Wp.pure ⟨rfl, h⟩
  | some key =>
    cases value with
    | none => exact Wp.pure ⟨rfl, h⟩
    | some value =>
      by_cases hkey : Clean key.bytes
      · simp only [mdclogMdcAdd_clean system t hkey, Store.add, dif_pos hkey]
        apply Wp.bind
        refine (initLibrary_has h).mono ?_
        intro _ s₁ hs₁
        exact mdclogInternalPutMdc_has hmalloc hs₁ key value hkey
      · simp only [mdclogMdcAdd_special system t hkey, Store.add, dif_neg hkey]
        exact Wp.pure ⟨rfl, h⟩

/-- `mdclog_mdc_get` is the `get` of the store. -/
theorem mdclogMdcGet_has {s : Library T} (h : Has count flag t store s) (key : Option CStr) :
    Wp (fun value s' => value = store.get key ∧ Has count flag t store s')
      (mdclogMdcGet system t key) s := by
  cases key with
  | none => exact Wp.pure ⟨rfl, h⟩
  | some key =>
    apply Wp.bind
    refine (initLibrary_has h).mono ?_
    intro _ s₁ hs₁
    apply Wp.bind
    refine (getList_has hmalloc hs₁).mono ?_
    rintro _ s₂ ⟨rfl, hs₂⟩
    dsimp only
    rw [search_of_whole]
    apply Wp.bind
    apply Wp.lift
    cases store.get (some key) with
    | none => exact Wp.pure ⟨rfl, hs₂⟩
    | some value => exact strdup_has hmalloc hs₂ value

/-- `mdclog_mdc_remove` is the `remove` of the store. -/
theorem mdclogMdcRemove_has {s : Library T} (h : Has count flag t store s) (key : Option CStr) :
    Wp (fun _ s' => Has count flag t (store.remove key) s') (mdclogMdcRemove system t key) s := by
  cases key with
  | none => exact Wp.pure h
  | some key =>
    apply Wp.bind
    refine (initLibrary_has h).mono ?_
    intro _ s₁ hs₁
    apply Wp.bind
    refine (getList_has hmalloc hs₁).mono ?_
    rintro _ s₂ ⟨rfl, hs₂⟩
    dsimp only
    rw [search_of_whole]
    apply Wp.bind
    apply Wp.lift
    cases hget : store.get (some key) with
    | none =>
      have hsame : store.remove (some key) = store := Store.ext (erase_of_get?_none hget)
      rw [hsame]
      exact Wp.pure hs₂
    | some value =>
      simp only [Bool.false_and, Bool.false_eq_true, if_false]
      exact hs₂.setList _

end succeeding

end calls

/-! What `mdclog_format_initialize` does to a store. -/

/-- `update_mdclog_array`: a known key is removed first, so it goes to the front. -/
def replaced (store : Store) (key value : CStr) : Store :=
  ((store.remove (some key)).add (some key) (some value)).1

/-- One round of the loop: a variable that is not set is added as an empty value, in the
place of the old one if there is one. -/
def setField (env : Environment) (store : Store) (name : CStr) : Store :=
  match env.getenv name with
  | some value => replaced store name value
  | none => (store.add (some name) (some (.ofString ""))).1

/-- The stores differ only at `key`, where the new one has this value; all other pairs
keep their order. -/
structure Sets (key value : CStr) (store store' : Store) : Prop where
  get : ∀ k, get? k store'.pairs = if k = key then some (CStr.escaped value)
    else get? k store.pairs
  others : ∀ keep : CStr → Bool, keep key = false →
    store'.pairs.filter (fun pair => keep pair.1) = store.pairs.filter fun pair => keep pair.1

theorem add_sets (store : Store) {key : CStr} (hkey : Clean key.bytes) (value : CStr) :
    Sets key value store (store.add (some key) (some value)).1 := by
  have hadd : (store.add (some key) (some value)).1.pairs =
      put key (CStr.escaped value) store.pairs := by
    rw [Store.add, dif_pos hkey]
    rfl
  constructor
  · intro k
    rw [hadd]
    by_cases hk : k = key
    · rw [if_pos hk, hk, get?_put_self]
    · rw [if_neg hk, get?_put_of_ne hk]
  · intro keep hkeep
    rw [hadd, filter_put hkeep]

theorem replaced_sets (store : Store) {key : CStr} (hkey : Clean key.bytes) (value : CStr) :
    Sets key value store (replaced store key value) := by
  obtain ⟨hget, hothers⟩ := add_sets (store.remove (some key)) hkey value
  constructor
  · intro k
    rw [replaced, hget k]
    by_cases hk : k = key
    · rw [if_pos hk, if_pos hk]
    · rw [if_neg hk, if_neg hk]
      exact get?_erase_of_ne hk _
  · intro keep hkeep
    rw [replaced, hothers keep hkeep]
    exact filter_erase hkeep _

theorem setField_sets (env : Environment) (store : Store) {name : CStr}
    (hname : Clean name.bytes) : Sets name (envValue env name) store (setField env store name) := by
  unfold setField envValue
  cases env.getenv name with
  | some value => exact replaced_sets store hname value
  | none => exact add_sets store hname _

/-- The loop sets every field it has left. -/
theorem foldl_setField (env : Environment) (names : List CStr)
    (hnames : ∀ name ∈ names, Clean name.bytes) (store : Store) :
    (∀ k, get? k (names.foldl (setField env) store).pairs =
      if k ∈ names then some (CStr.escaped (envValue env k)) else get? k store.pairs) ∧
    ∀ keep : CStr → Bool, (∀ name ∈ names, keep name = false) →
      (names.foldl (setField env) store).pairs.filter (fun pair => keep pair.1) =
        store.pairs.filter fun pair => keep pair.1 := by
  induction names generalizing store with
  | nil => exact ⟨fun _ => by simp, fun _ _ => rfl⟩
  | cons name names ih =>
    obtain ⟨hfirst, hothers⟩ := setField_sets env store (hnames name (by simp))
    obtain ⟨hget, hrest⟩ := ih (fun other hother => hnames other (by simp [hother]))
      (setField env store name)
    rw [List.foldl_cons]
    constructor
    · intro k
      rw [hget k]
      by_cases hk : k ∈ names
      · rw [if_pos hk, if_pos (List.mem_cons_of_mem name hk)]
      · rw [if_neg hk, hfirst k]
        by_cases hsame : k = name
        · rw [if_pos hsame, if_pos (by simp [hsame]), hsame]
        · rw [if_neg hsame, if_neg (by simp [hsame, hk])]
    · intro keep hkeep
      rw [hrest keep fun other hother => hkeep other (by simp [hother]),
        hothers keep (hkeep name (by simp))]

/-- The store after `mdclog_format_initialize`, for a process id with these characters. -/
def formatted (env : Environment) (pid : CStr) (store : Store) : Store :=
  replaced (logFields.foldl (setField env) store) (.ofString "PID") pid

theorem add_status (store : Store) {key : CStr} (hkey : Clean key.bytes) (value : CStr) :
    (store.add (some key) (some value)).2 = 0 := by
  rw [Store.add, dif_pos hkey]

section formatting
variable [DecidableEq T] {count : Nat} {flag : Bool} {t : T}
  (hmalloc : ∀ n, count ≤ n → system.malloc n = true)
include hmalloc

theorem updateMdclogArray_has {s : Library T} {store : Store} (h : Has count flag t store s)
    {key : CStr} (hkey : Clean key.bytes) (value : CStr) :
    Wp (fun code s' => code = 0 ∧ Has count flag t (replaced store key value) s')
      (updateMdclogArray system t key value) s := by
  apply Wp.bind
  refine (mdclogMdcGet_has hmalloc h (some key)).mono ?_
  rintro _ s₁ ⟨rfl, hs₁⟩
  cases hget : store.get (some key) with
  | none =>
    have hsame : store.remove (some key) = store := Store.ext (erase_of_get?_none hget)
    refine (mdclogMdcAdd_has hmalloc hs₁ (some key) (some value)).mono ?_
    rintro code s' ⟨hcode, hs'⟩
    rw [replaced, hsame]
    exact ⟨hcode.trans (add_status store hkey value), hs'⟩
  | some _ =>
    apply Wp.bind
    refine (mdclogMdcRemove_has hmalloc hs₁ (some key)).mono ?_
    intro _ s₂ hs₂
    refine (mdclogMdcAdd_has hmalloc hs₂ (some key) (some value)).mono ?_
    rintro code s' ⟨hcode, hs'⟩
    exact ⟨hcode.trans (add_status _ hkey value), hs'⟩

theorem updateFields_has (env : Environment) (names : List CStr)
    (hnames : ∀ name ∈ names, Clean name.bytes) {s : Library T} {store : Store}
    (h : Has count flag t store s) :
    Wp (fun code s' => code = 0 ∧ Has count flag t (names.foldl (setField env) store) s')
      (updateFields system t env names) s := by
  induction names generalizing s store with
  | nil => exact Wp.pure ⟨rfl, h⟩
  | cons name names ih =>
    have hname := hnames name (by simp)
    have hrest := fun other hother => hnames other (List.mem_cons_of_mem name hother)
    apply Wp.bind
    refine (readEnvParam_has hmalloc h env name).mono ?_
    rintro _ s₁ ⟨rfl, hs₁⟩
    rw [List.foldl_cons]
    cases hvalue : env.getenv name with
    | some value =>
      have hset : setField env store name = replaced store name value := by
        rw [setField, hvalue]
      apply Wp.bind
      refine (updateMdclogArray_has hmalloc hs₁ hname value).mono ?_
      rintro _ s₂ ⟨rfl, hs₂⟩
      rw [if_pos rfl, hset]
      exact ih hrest hs₂
    | none =>
      have hset : setField env store name =
          (store.add (some name) (some (.ofString ""))).1 := by
        rw [setField, hvalue]
      apply Wp.bind
      refine (mdclogMdcAdd_has hmalloc hs₁ (some name) (some (.ofString ""))).mono ?_
      rintro _ s₂ ⟨-, hs₂⟩
      rw [hset]
      exact ih hrest hs₂

theorem mdclogFormatInitialize_has {s : Library T} {store : Store} (h : Has count false t store s)
    (logfileMonitor : Int) {env : Environment} (henv : env.getenv logFileConfigMap = none) :
    Wp (fun code s' => code = 0 ∧ ∃ pid : CStr, pid.bytes = decimal env.getpid ∧
      Has count false t (formatted env pid store) s')
      (mdclogFormatInitialize system t logfileMonitor env) s := by
  obtain ⟨pid, hpid, hbytes⟩ := pidText_eq env.getpid_le
  apply Wp.bind
  apply Wp.get
  rw [h.flag]
  apply Wp.bind
  refine (updateFields_has hmalloc env logFields (by decide) h).mono ?_
  rintro _ s₁ ⟨rfl, hs₁⟩
  rw [if_pos rfl, finishFormat, hpid]
  apply Wp.bind
  apply Wp.lift
  apply Wp.bind
  refine (readEnvParam_has hmalloc hs₁ env logFileConfigMap).mono ?_
  rintro _ s₂ ⟨rfl, hs₂⟩
  rw [henv]
  apply Wp.bind
  refine (updateMdclogArray_has hmalloc hs₂ (by decide) pid).mono ?_
  rintro _ s₃ ⟨rfl, hs₃⟩
  exact Wp.pure ⟨rfl, pid, hbytes, hs₃⟩

end formatting

/-- The old map, overridden by the six fields. -/
def overridden (env : Environment) (store : Store) (key : CStr) : Option (List UInt8) :=
  if key ∈ logFields then some (escapeText (envValue env key).bytes)
  else if key = .ofString "PID" then some (decimal env.getpid)
  else (get? key store.pairs).map CStr.bytes

/-- A key that is not one of the six fields. -/
def otherKey (key : CStr) : Bool := key ∉ logFields ∧ key ≠ .ofString "PID"

theorem get?_formatted {env : Environment} {pid : CStr} (hpid : pid.bytes = decimal env.getpid)
    (store : Store) (key : CStr) :
    (get? key (formatted env pid store).pairs).map CStr.bytes = overridden env store key := by
  have hfields := (foldl_setField env logFields (by decide) store).1 key
  rw [formatted, (replaced_sets _ (by decide) pid).get key, overridden]
  by_cases hkey : key = .ofString "PID"
  · have hnot : CStr.ofString "PID" ∉ logFields := by decide
    rw [if_pos hkey, hkey, if_neg hnot, if_pos rfl, Option.map_some]
    change some (escapeText pid.bytes) = _
    rw [hpid, escapeText_of_clean (clean_decimal _)]
  · rw [if_neg hkey, if_neg hkey, hfields]
    by_cases hmem : key ∈ logFields
    · rw [if_pos hmem, if_pos hmem]
      rfl
    · rw [if_neg hmem, if_neg hmem]

/-- Overriding once more changes nothing. -/
theorem overridden_formatted {env : Environment} {pid : CStr}
    (hpid : pid.bytes = decimal env.getpid) (store : Store) (key : CStr) :
    overridden env (formatted env pid store) key = overridden env store key := by
  rw [overridden, get?_formatted hpid, overridden]
  by_cases hfield : key ∈ logFields
  · rw [if_pos hfield, if_pos hfield]
  · rw [if_neg hfield]
    by_cases hkey : key = .ofString "PID"
    · rw [if_pos hkey, if_neg hfield, if_pos hkey]
    · rw [if_neg hkey]

theorem filter_formatted (env : Environment) (pid : CStr) (store : Store) :
    (formatted env pid store).pairs.filter (fun pair => otherKey pair.1) =
      store.pairs.filter fun pair => otherKey pair.1 := by
  rw [formatted, (replaced_sets _ (by decide) pid).others otherKey (by decide)]
  exact (foldl_setField env logFields (by decide) store).2 otherKey (by decide)

/-! Where all allocations succeed, every thread has a store at any time. -/

section runs
variable [DecidableEq T]

theorem whole_stable : AttrStable system (Whole system : Library T → Prop) where
  whole h := h
  allocations h := h
  lists t _ hlist h := h.update t hlist
  level _ h := h
  monitors _ _ h := h
  fallback _ _ h := h
  attr _ _ _ h := h
  given _ h := h
  restart h := h

theorem event_whole {event : Event T} {s s' : Library T} (happens : event.Happens system s s')
    (h : Whole system s) : Whole system s' := by
  refine any_event_keeps whole_stable ?_ ?_ happens h
  · exact fun _ => readLogLevel_keeps whole_stable.toStable fun _ _ _ _ _ _ h => h
  · intro _ _ _ _ _ s₁ _ _ buffer len hs₁ _ _
    refine Keeps.ite (fun _ => ?_) (fun _ => Keeps.pure ()) s₁ hs₁
    exact Keeps.bind (Keeps.lift _) fun _ => Keeps.modify fun _ h => h

theorem run_whole {may : Library T → Event T → Prop} {events : List (Event T)} {s : Library T}
    (h : Run system may events s) : Whole system s := by
  induction h with
  | start =>
    intro _ _ _ hlist
    cases hlist
  | step run _ happens ih => exact event_whole happens ih

theorem exists_storeOf {may : Library T → Event T → Prop} {events : List (Event T)}
    {s : Library T} (hrun : Run system may events s) (hmalloc : ∀ n, system.malloc n = true)
    (t : T) : ∃ store, storeOf s t = some store := by
  unfold storeOf
  cases hlist : s.mdcs t with
  | none => exact ⟨_, rfl⟩
  | some list =>
    have hwhole := run_whole hrun hmalloc t list hlist
    refine ⟨list.store, ?_⟩
    dsimp only
    rw [hwhole]
    rfl

/-- In every run: the calling thread has a store unless an allocation has failed, and from
any store a call with the flag clear, no config map and its own allocations made sets the
six fields, leaves all other pairs in their order, and changes nothing when repeated. -/
theorem format_initialize_overrides {events : List (Event T)} {s : Library T}
    (hrun : Run system (fun _ _ => True) events s) (t : T)
    (hflag : s.logFormatInitDone = false) {env : Environment}
    (henv : env.getenv logFileConfigMap = none) :
    ((∀ n, system.malloc n = true) → ∃ store, storeOf s t = some store) ∧
    ∀ store, storeOf s t = some store → (∀ n, s.allocations ≤ n → system.malloc n = true) →
      ∀ logfileMonitor, ∃ s' store',
        (mdclogFormatInitialize system t logfileMonitor env).run s = some (0, s') ∧
        storeOf s' t = some store' ∧ (keys store'.pairs).Nodup ∧
        (∀ key, (get? key store'.pairs).map CStr.bytes = overridden env store key) ∧
        store'.pairs.filter (fun pair => otherKey pair.1) =
          store.pairs.filter (fun pair => otherKey pair.1) ∧
        ∀ again, ∃ s'' store'',
          (mdclogFormatInitialize system t again env).run s' = some (0, s'') ∧
          storeOf s'' t = some store'' ∧
          ∀ key, get? key store''.pairs = get? key store'.pairs := by
  refine ⟨fun hmalloc => exists_storeOf hrun hmalloc t, ?_⟩
  intro store hstore hmalloc logfileMonitor
  have hfirst : Has s.allocations false t store s := ⟨Nat.le_refl _, hflag, hstore⟩
  obtain ⟨_, s', hcall, rfl, pid, hpid, hs'⟩ :=
    mdclogFormatInitialize_has hmalloc hfirst logfileMonitor henv
  refine ⟨s', _, hcall, hs'.store, (formatted env pid store).distinct, get?_formatted hpid store,
    filter_formatted env pid store, fun again => ?_⟩
  obtain ⟨_, s'', hcall', rfl, pid', hpid', hs''⟩ :=
    mdclogFormatInitialize_has hmalloc hs' again henv
  refine ⟨s'', _, hcall', hs''.store, fun key => ?_⟩
  have hbytes : Function.Injective (Option.map CStr.bytes) :=
    Option.map_injective fun _ _ h => CStr.ext h
  apply hbytes
  rw [get?_formatted hpid', overridden_formatted hpid, get?_formatted hpid]

end runs

/-- Only the host name is set. -/
def unmonitored : Environment where
  getenv name := if name = .ofString "HOST_NAME" then some (.ofString "a\"b") else none
  file _ := ⟨none, id⟩
  lstat _ := false
  pthreadCreate := 0
  getpid := 7
  getpid_le := by decide

/-- An old host name is replaced. -/
theorem format_initialize_overrides_host :
    ∃ (s s' : Library Unit) (store' : Store),
      Run ⟨.ofString "prog", fun _ => true⟩ (fun _ _ => True)
        [.call () (.mdcAdd (some (.ofString "HOST_NAME")) (some (.ofString "old"))) (.status 0),
          .call () (.mdcAdd (some (.ofString "k")) (some (.ofString "v"))) (.status 0)] s ∧
      (mdclogFormatInitialize ⟨.ofString "prog", fun _ => true⟩ () 0 unmonitored).run s =
        some (0, s') ∧
      storeOf s' () = some store' ∧
      (get? (.ofString "HOST_NAME") store'.pairs).map CStr.bytes = some (ascii "a\\\"b") := by
  have hexec : ([Event.call () (.mdcAdd (some (.ofString "HOST_NAME")) (some (.ofString "old")))
      (.status 0), .call () (.mdcAdd (some (.ofString "k")) (some (.ofString "v")))
      (.status 0)].foldlM (fun s event => Event.exec ⟨.ofString "prog", fun _ => true⟩ event s)
        Library.initial).map (fun s => s.logFormatInitDone) = some false := by
    decide +kernel
  obtain ⟨s, hexec, hflag⟩ := Option.map_eq_some_iff.mp hexec
  have hrun := @Run.of_exec Unit _ ⟨.ofString "prog", fun _ => true⟩ (fun _ _ => True) _ _ hexec
    fun _ _ _ => trivial
  obtain ⟨hstore, hcall⟩ := @format_initialize_overrides Unit
    ⟨.ofString "prog", fun _ => true⟩ _ _ s hrun () hflag unmonitored (by decide)
  obtain ⟨store, hstore⟩ := hstore fun _ => rfl
  obtain ⟨s', store', hcall, hstore', -, hget, -, -⟩ := hcall store hstore (fun _ _ => rfl) 0
  refine ⟨s, s', store', hrun, hcall, hstore', ?_⟩
  rw [hget, overridden, if_pos (by decide)]
  decide

end Mdclog.FormatStore
