import Mdclog.LoggerRefinement

/-! What follows for whole runs of the library from the logger it refines: the threads
see nothing of each other, and `mdclog_lib_clean` is a call of `mdclog_init`. -/
namespace Mdclog.LoggerRuns
open Foundation.StateProgram Foundation.Trace
open CString Escape JsonFormat ConfigMap MdcStore Api WriteRun FormatStore
open LoggerSpec LoggerRefinement

variable {T : Type} {system : System}

/-! The calls that are about the store of their thread. -/

def ownStore : ApiCall → Bool
  | .write _ _ | .mdcAdd _ _ | .mdcGet _ | .mdcRemove _ | .mdcClean => true
  | _ => false

/-- Such a call on a store, for a logger with this level and this identity. -/
def onStore (level : Severity) (identity : CStr) (store : Store) :
    ApiCall → Option (Result × List Output × Store)
  | .write severity message =>
      match message.call with
      | .failure _ _ _ => none
      | .output bytes _ =>
          some (.done, if level.code < severity.code then []
            else entryLine identity store severity message.tv bytes, store)
  | .mdcAdd key value => some (.status (store.add key value).2, [], (store.add key value).1)
  | .mdcGet key => some (.value (store.get key), [], store)
  | .mdcRemove key => some (.done, [], store.remove key)
  | .mdcClean => some (.done, [], .empty)
  | _ => none

theorem call_ownStore [DecidableEq T] (name : CStr) (l : Logger T) (t : T) {made : ApiCall}
    (hmade : ownStore made = true) :
    l.call name t made = (onStore l.level l.identity (l.stores t) made).map fun outcome =>
      (outcome.1, outcome.2.1, l.setStore t outcome.2.2) := by
  cases made with
  | write severity message =>
    rw [Logger.call, Logger.write, onStore]
    cases message.call with
    | failure ret hret contents => rfl
    | output bytes hbytes => simp
  | mdcAdd key value => rfl
  | mdcGet key => simp [Logger.call, onStore]
  | mdcRemove key => rfl
  | mdcClean => rfl
  | _ => cases hmade

/-! The rest of the logger does not depend on the stores. -/

theorem readLevel_withStores (l : Logger T) (stores : T → Store)
    (reading : Reading) :
    (l.withStores stores).readLevel reading =
      (l.readLevel reading).map fun outcome => (outcome.1, outcome.2.withStores stores) := by
  unfold Logger.readLevel
  cases parseFile reading with
  | none => rfl
  | some token => rfl

theorem configMap_withStores (l : Logger T) (stores : T → Store) (logfileMonitor : Int)
    (env : Environment) (fileName : CStr) :
    (l.withStores stores).configMap logfileMonitor env fileName =
      (l.configMap logfileMonitor env fileName).map fun outcome =>
        (outcome.1, outcome.2.1, outcome.2.2.withStores stores) := by
  unfold Logger.configMap
  rw [readLevel_withStores, Option.map_map, Option.map_map]
  congr 1
  funext outcome
  obtain ⟨printed, l'⟩ := outcome
  unfold Logger.watch
  by_cases hmonitor : logfileMonitor = 0
  · simp only [Function.comp_apply, if_pos hmonitor]
  · by_cases hfile : env.lstat fileName = true
    · simp only [Function.comp_apply, if_neg hmonitor, if_pos hfile]
      rfl
    · simp only [Function.comp_apply, if_neg hmonitor, if_neg hfile]

theorem monitorStep_withStores (l : Logger T) (stores : T → Store) (index : Nat) (watched : Bool)
    (read : Option Reading) :
    (l.withStores stores).monitorStep index watched read =
      (l.monitorStep index watched read).map fun outcome =>
        (outcome.1, outcome.2.withStores stores) := by
  have hmonitors : (l.withStores stores).monitors = l.monitors := rfl
  have hdone : (l.withStores stores).formatDone = l.formatDone := rfl
  unfold Logger.monitorStep
  rw [hmonitors]
  cases l.monitors[index]? with
  | none => rfl
  | some monitor =>
    obtain ⟨pc, fileName⟩ := monitor
    cases pc with
    | starting =>
      cases fileName with
      | none => rfl
      | some fileName =>
        by_cases hwatched : watched = true ∧ dname fileName ≠ []
        · simp only [Option.bind_eq_bind, Option.bind_some, if_pos hwatched]
          rfl
        · simp only [Option.bind_eq_bind, Option.bind_some, if_neg hwatched]
          rfl
    | testing =>
      rw [hdone]
      cases hflag : l.formatDone <;> simp [Logger.withStores, hflag]
    | waiting =>
      cases read with
      | none => rfl
      | some reading => exact readLevel_withStores { l with monitors := _ } stores reading

theorem call_withStores [DecidableEq T] (name : CStr) (l : Logger T) (stores : T → Store) (t : T)
    {made : ApiCall} (hmade : ownStore made = false)
    (hformat : ∀ logfileMonitor env, made ≠ .formatInitialize logfileMonitor env) :
    (l.withStores stores).call name t made = (l.call name t made).map fun outcome =>
      (outcome.1, outcome.2.1, outcome.2.2.withStores stores) := by
  have hattrs : (l.withStores stores).attrs = l.attrs := rfl
  cases made with
  | levelSet level => rfl
  | attrInit address =>
    rw [Logger.call, Logger.call, Logger.attrInit, Logger.attrInit, hattrs]
    cases l.attrs address <;> rfl
  | attrDestroy attr =>
    cases attr with
    | none => rfl
    | some attr =>
      rw [Logger.call, Logger.call, Logger.attrDestroy, Logger.attrDestroy, hattrs]
      cases l.attrs attr <;> rfl
  | attrSetIdent attr identity =>
    cases attr with
    | none => rfl
    | some attr =>
      cases identity with
      | none => rfl
      | some identity =>
        simp only [Logger.call, Logger.attrSetIdent, hattrs]
        by_cases hbad : (mdclogInternalContainsSpecialCharacters identity ||
            decide (identityMaxLength < identity.bytes.length)) = true
        · simp only [if_pos hbad]
          rfl
        · simp only [if_neg hbad]
          cases l.attrs attr <;> rfl
  | init attr =>
    cases attr with
    | none => rfl
    | some attr =>
      rw [Logger.call, Logger.call, Logger.init, Logger.init, hattrs]
      cases l.attrs attr <;> rfl
  | formatInitialize logfileMonitor env => exact absurd rfl (hformat logfileMonitor env)
  | _ => cases hmade

/-! What a set of threads sees. -/

/-- The writes and MDC calls of the threads that are not `seen`. -/
def unseen (seen : T → Bool) : Action T → Bool
  | .event (.call t made _) => ownStore made && !seen t
  | _ => false

def sight (seen : T → Bool) (action : Action T) : Option (Action T) :=
  if unseen seen action then none else some action

/-- The loggers differ in the stores of threads that are not `seen`. -/
def Alike (seen : T → Bool) (l l' : Logger T) : Prop :=
  ∃ stores, l' = l.withStores stores ∧ ∀ t, seen t = true → stores t = l.stores t

theorem Alike.refl (seen : T → Bool) (l : Logger T) : Alike seen l l :=
  ⟨l.stores, rfl, fun _ _ => rfl⟩

variable [DecidableEq T]

theorem Alike.setStore {seen : T → Bool} {l : Logger T} {stores : T → Store}
    (h : ∀ t, seen t = true → stores t = l.stores t) (t : T) {store store' : Store}
    (hstore : seen t = true → store' = store) :
    Alike seen (l.setStore t store) ((l.withStores stores).setStore t store') := by
  refine ⟨Function.update stores t store', rfl, fun u hu => ?_⟩
  by_cases hut : u = t
  · subst hut
    rw [Function.update_self, l.setStore_same, hstore hu]
  · rw [Function.update_of_ne hut, l.setStore_other hut, h u hu]

omit [DecidableEq T] in
theorem configMap_stores {l l₁ : Logger T} {logfileMonitor code : Int} {env : Environment}
    {fileName : CStr} {printed : List Output}
    (h : l.configMap logfileMonitor env fileName = some (code, printed, l₁)) :
    l₁.stores = l.stores := by
  have hsame := configMap_withStores l l.stores logfileMonitor env fileName
  rw [show l.withStores l.stores = l from rfl, h] at hsame
  exact congrArg (fun outcome => outcome.2.2.stores) (Option.some.inj hsame)

theorem formatInitialize_alike {seen : T → Bool} {l l₁ : Logger T} {stores : T → Store} {t : T}
    {logfileMonitor code : Int} {env : Environment} {printed : List Output}
    (hsame : ∀ t, seen t = true → stores t = l.stores t)
    (h : l.formatInitialize t logfileMonitor env = some (code, printed, l₁)) :
    ∃ l₁', (l.withStores stores).formatInitialize t logfileMonitor env = some (code, printed, l₁') ∧
      Alike seen l₁ l₁' := by
  have hdone : (l.withStores stores).formatDone = l.formatDone := rfl
  unfold Logger.formatInitialize at h ⊢
  rw [hdone]
  cases hflag : l.formatDone with
  | true =>
    rw [hflag, if_pos rfl] at h
    cases h
    exact ⟨_, if_pos rfl, stores, rfl, hsame⟩
  | false =>
    rw [hflag, if_neg Bool.false_ne_true] at h
    rw [if_neg Bool.false_ne_true]
    cases hpid : pidText env.getpid with
    | none =>
      rw [hpid] at h
      cases h
    | some pid =>
      rw [hpid, Option.bind_eq_bind, Option.bind_some] at h
      rw [Option.bind_eq_bind, Option.bind_some]
      have halike : Alike seen (l.setStore t (formatted env pid (l.stores t)))
          ((l.withStores stores).setStore t (formatted env pid (stores t))) :=
        .setStore hsame t fun ht => by rw [hsame t ht]
      cases hfile : env.getenv logFileConfigMap with
      | none =>
        rw [hfile] at h
        cases h
        exact ⟨_, rfl, halike⟩
      | some fileName =>
        rw [hfile] at h
        change (l.setStore t (formatted env pid (l.stores t))).configMap logfileMonitor env
          fileName = some (code, printed, l₁) at h
        obtain ⟨stores', hstores', hsame'⟩ := halike
        have hmatch := configMap_withStores (l.setStore t (formatted env pid (l.stores t))) stores'
          logfileMonitor env fileName
        rw [← hstores', h] at hmatch
        refine ⟨_, hmatch, stores', rfl, fun u hu => ?_⟩
        rw [hsame' u hu, configMap_stores h]

theorem call_alike {seen : T → Bool} {name : CStr} {l l₁ : Logger T} {stores : T → Store} {t : T}
    {made : ApiCall} {result : Result} {added : List Output} (hown : ownStore made = false)
    (hsame : ∀ t, seen t = true → stores t = l.stores t)
    (h : l.call name t made = some (result, added, l₁)) :
    ∃ l₁', (l.withStores stores).call name t made = some (result, added, l₁') ∧
      Alike seen l₁ l₁' := by
  by_cases hformat : ∃ logfileMonitor env, made = .formatInitialize logfileMonitor env
  · obtain ⟨logfileMonitor, env, rfl⟩ := hformat
    rw [Logger.call, Option.bind_eq_bind, Option.bind_eq_some_iff] at h
    obtain ⟨⟨code, printed, l₂⟩, hinit, heq⟩ := h
    cases heq
    obtain ⟨l₁', hmatch, halike⟩ := formatInitialize_alike hsame hinit
    refine ⟨l₁', ?_, halike⟩
    rw [Logger.call, hmatch]
    rfl
  · have hother : ∀ logfileMonitor env, made ≠ .formatInitialize logfileMonitor env :=
      fun logfileMonitor env hmade => hformat ⟨logfileMonitor, env, hmade⟩
    have hmatch := call_withStores name l stores t hown hother
    have hself := call_withStores name l l.stores t hown hother
    rw [h] at hmatch
    rw [show l.withStores l.stores = l from rfl, h] at hself
    have hstores : l₁.stores = l.stores :=
      congrArg (fun outcome => outcome.2.2.stores) (Option.some.inj hself)
    exact ⟨_, hmatch, stores, rfl, fun u hu => by rw [hstores, hsame u hu]⟩

/-- Every step of a logger is one of every other that the threads in sight cannot tell
from it, unless it is out of sight. -/
theorem sight_simulates (name : CStr) (seen : T → Bool) :
    Simulates (Logger.Acts name) (Logger.Acts name) (sight seen) (Alike seen) := by
  rintro l l₁ _ action added ⟨stores, rfl, hsame⟩ hacts
  cases action with
  | event made =>
    cases made with
    | call t made result =>
      have hcall : l.call name t made = some (result, added, l₁) := hacts
      cases hown : ownStore made with
      | true =>
        rw [call_ownStore name l t hown] at hcall
        obtain ⟨⟨result, added, store⟩, honStore, heq⟩ := Option.map_eq_some_iff.mp hcall
        cases heq
        cases ht : seen t with
        | true =>
          have hstore : (l.withStores stores).stores t = l.stores t := hsame t ht
          have hmatch : (l.withStores stores).call name t made =
              some (result, added, (l.withStores stores).setStore t store) := by
            rw [call_ownStore name _ t hown, hstore]
            exact Option.map_eq_some_iff.mpr ⟨_, honStore, rfl⟩
          simp only [sight, unseen, hown, ht, Bool.not_true, Bool.and_false, Bool.false_eq_true,
            if_false]
          exact ⟨_, hmatch, .setStore hsame t fun _ => rfl⟩
        | false =>
          simp only [sight, unseen, hown, ht, Bool.not_false, Bool.and_true, if_true]
          refine ⟨stores, rfl, fun u hu => ?_⟩
          have hut : u ≠ t := by
            rintro rfl
            rw [ht] at hu
            cases hu
          rw [l.setStore_other hut, hsame u hu]
      | false =>
        simp only [sight, unseen, hown, Bool.false_and, Bool.false_eq_true, if_false]
        exact call_alike hown hsame hcall
    | monitor index watched read =>
      have hstep : l.monitorStep index watched read = some (added, l₁) := hacts
      have hmatch := monitorStep_withStores l stores index watched read
      have hself := monitorStep_withStores l l.stores index watched read
      rw [hstep] at hmatch
      rw [show l.withStores l.stores = l from rfl, hstep] at hself
      have hstores : l₁.stores = l.stores :=
        congrArg (fun outcome => outcome.2.stores) (Option.some.inj hself)
      exact ⟨_, hmatch, stores, rfl, fun u hu => by rw [hstores, hsame u hu]⟩
  | levelGet t level =>
    obtain ⟨rfl, rfl, rfl⟩ := hacts
    exact ⟨_, ⟨rfl, rfl, rfl⟩, stores, rfl, hsame⟩
  | libClean t =>
    obtain ⟨rfl, rfl⟩ := hacts
    exact ⟨_, ⟨rfl, rfl⟩, stores, rfl, hsame⟩

/-- The threads that are not `seen` could as well not have written and not have used
their stores: the others get the same results and the same lines, and so do the calls
about the level, the identity and the monitors. -/
theorem others_unseen (hmalloc : ∀ n, system.malloc n = true) (seen : T → Bool)
    {trace : List (Action T × List Output)} {s : Library T}
    (h : Follows (Does system) .initial trace s) :
    ∃ s', Follows (Does system) .initial (shown (sight seen) trace) s' ∧
      s'.currentLevel = s.currentLevel ∧ s'.logFormatInitDone = s.logFormatInitDone ∧
      usedIdentity system s' = usedIdentity system s ∧ s'.attrs = s.attrs ∧
      s'.monitors = s.monitors ∧ ∀ t, seen t = true → storeOf s' t = storeOf s t := by
  obtain ⟨l, hlogger, hl⟩ := logger_of_library hmalloc stands_initial h
  obtain ⟨_, hpurged, stores, rfl, hsame⟩ :=
    hlogger.simulate (sight_simulates _ seen) (.refl seen _)
  obtain ⟨s', hs', hl'⟩ := library_of_logger hmalloc stands_initial hpurged
  refine ⟨s', hs', hl'.level.trans hl.level.symm, hl'.flag.trans hl.flag.symm,
    hl'.identity.trans hl.identity.symm, hl'.attrs.trans hl.attrs.symm,
    hl'.monitors.trans hl.monitors.symm, fun t ht => ?_⟩
  rw [hl'.stores t, hl.stores t, ← hsame t ht]
  rfl

/-- Two threads use the same key. -/
def twoThreads : List (Action Bool × List Output) :=
  [(.event (.call true (.mdcAdd (some (.ofString "k")) (some (.ofString "x"))) (.status 0)), []),
    (.event (.call false (.mdcAdd (some (.ofString "k")) (some (.ofString "y"))) (.status 0)), []),
    (.event (.call true (.mdcGet (some (.ofString "k"))) (.value (some (.ofString "x")))), []),
    (.event (.call false (.mdcGet (some (.ofString "k"))) (.value (some (.ofString "y")))), [])]

def twoStores (t : Bool) : Store :=
  (Store.empty.add (some (.ofString "k")) (some (.ofString (if t then "x" else "y")))).1

theorem twoThreads_run : ∃ s : Library Bool,
    Follows (Does ⟨.ofString "prog", fun _ => true⟩) .initial twoThreads s ∧
      ∀ t, storeOf s t = some (twoStores t) := by
  have hlogger : Follows (Logger.Acts (CStr.escaped (.ofString "prog")))
      (.initial (CStr.escaped (.ofString "prog"))) twoThreads
      (((Logger.initial _).setStore true (twoStores true)).setStore false (twoStores false)) :=
    (((Follows.start.step (by rfl)).step (by rfl)).step (by rfl)).step (by rfl)
  obtain ⟨s, hrun, hs⟩ := library_of_logger (fun _ => rfl) (@stands_initial Bool
    ⟨.ofString "prog", fun _ => true⟩) hlogger
  refine ⟨s, hrun, fun t => ?_⟩
  rw [hs.stores]
  cases t <;> rfl

theorem others_unseen_first : ∃ s' : Library Bool,
    Follows (Does ⟨.ofString "prog", fun _ => true⟩) .initial
      [(.event (.call true (.mdcAdd (some (.ofString "k")) (some (.ofString "x"))) (.status 0)), []),
        (.event (.call true (.mdcGet (some (.ofString "k"))) (.value (some (.ofString "x")))), [])]
      s' ∧ storeOf s' true = some (twoStores true) := by
  obtain ⟨s, hrun, hs⟩ := twoThreads_run
  obtain ⟨s', hrun', -, -, -, -, -, hstore⟩ := others_unseen (fun _ => rfl) (fun t => t) hrun
  exact ⟨s', hrun', (hstore true rfl).trans (hs true)⟩

/-! Interleavings. -/

/-- The part of a trace that is due to `t`. -/
def madeBy (t : T) (trace : List (Action T × List Output)) : List (Action T × List Output) :=
  trace.filter fun item =>
    match item.1 with
    | .event (.call u _ _) | .levelGet u _ | .libClean u => u = t
    | .event (.monitor _ _ _) => false

/-- All of the trace are writes and MDC calls. -/
def OwnCalls (trace : List (Action T × List Output)) : Prop :=
  ∀ item ∈ trace, ∃ t made result, item.1 = .event (.call t made result) ∧ ownStore made = true

/-- The step of a thread on its store. -/
def StoreActs (level : Severity) (identity : CStr) (store : Store) (action : Action T)
    (added : List Output) (store' : Store) : Prop :=
  ∃ t made result, action = .event (.call t made result) ∧
    onStore level identity store made = some (result, added, store')

theorem madeBy_snoc (t u : T) (made : ApiCall) (result : Result) (added : List Output)
    (trace : List (Action T × List Output)) :
    madeBy t (trace ++ [(.event (.call u made result), added)]) =
      if u = t then madeBy t trace ++ [(.event (.call u made result), added)]
      else madeBy t trace := by
  by_cases hu : u = t
  · rw [if_pos hu]
    simp [madeBy, hu]
  · rw [if_neg hu]
    simp [madeBy, hu]

theorem acts_own_iff {name : CStr} {l l' : Logger T} {stores : T → Store} {u : T} {made : ApiCall}
    {result : Result} {added : List Output} (hown : ownStore made = true) :
    (l.withStores stores).Acts name (.event (.call u made result)) added l' ↔
      ∃ store, StoreActs l.level l.identity (stores u) (.event (.call u made result)) added store ∧
        l' = l.withStores (Function.update stores u store) := by
  change (l.withStores stores).call name u made = some (result, added, l') ↔ _
  rw [call_ownStore name _ u hown, Option.map_eq_some_iff]
  constructor
  · rintro ⟨⟨_, _, store⟩, honStore, heq⟩
    cases heq
    exact ⟨store, ⟨u, made, _, rfl, honStore⟩, rfl⟩
  · rintro ⟨store, ⟨_, _, _, heq, honStore⟩, rfl⟩
    cases heq
    exact ⟨_, honStore, rfl⟩

/-- Threads that write and use their stores act side by side. -/
theorem follows_own_iff {name : CStr} {l l' : Logger T} {trace : List (Action T × List Output)}
    (hown : OwnCalls trace) :
    Follows (Logger.Acts name) l trace l' ↔ ∃ stores, l' = l.withStores stores ∧
      ∀ t, Follows (StoreActs l.level l.identity) (l.stores t) (madeBy t trace) (stores t) := by
  induction trace using List.reverseRecOn generalizing l' with
  | nil =>
    simp only [madeBy, List.filter_nil, follows_nil]
    constructor
    · rintro rfl
      exact ⟨l'.stores, rfl, fun _ => rfl⟩
    · rintro ⟨stores, rfl, hstores⟩
      rw [funext hstores]
      rfl
  | append_singleton trace item ih =>
    obtain ⟨u, made, result, hitem, hmade⟩ := hown item (by simp)
    obtain ⟨action, added⟩ := item
    dsimp only at hitem
    subst hitem
    have hfront : OwnCalls trace := fun item hmem => hown item (by simp [hmem])
    rw [follows_snoc]
    constructor
    · rintro ⟨l₁, hrun, hacts⟩
      obtain ⟨stores, rfl, hstores⟩ := (ih hfront).mp hrun
      obtain ⟨store, hstore, rfl⟩ := (acts_own_iff hmade).mp hacts
      refine ⟨_, rfl, fun t => ?_⟩
      rw [madeBy_snoc]
      by_cases hu : u = t
      · subst hu
        rw [if_pos rfl, Function.update_self]
        exact (hstores u).step hstore
      · rw [if_neg hu, Function.update_of_ne (Ne.symm hu)]
        exact hstores t
    · rintro ⟨stores, rfl, hstores⟩
      have hlast := hstores u
      rw [madeBy_snoc, if_pos rfl, follows_snoc] at hlast
      obtain ⟨store, hbefore, hstore⟩ := hlast
      refine ⟨l.withStores (Function.update stores u store),
        (ih hfront).mpr ⟨_, rfl, fun t => ?_⟩, (acts_own_iff hmade).mpr ⟨stores u, ?_, ?_⟩⟩
      · by_cases hu : t = u
        · subst hu
          rwa [Function.update_self]
        · have hother := hstores t
          rwa [madeBy_snoc, if_neg (Ne.symm hu), ← Function.update_of_ne hu store stores] at hother
      · rwa [Function.update_self]
      · simp

theorem madeBy_madeBy (t u : T) (trace : List (Action T × List Output)) :
    madeBy u (madeBy t trace) = if u = t then madeBy t trace else [] := by
  by_cases hu : u = t
  · subst hu
    rw [if_pos rfl, madeBy, madeBy, List.filter_filter]
    simp only [Bool.and_self]
  · rw [if_neg hu, madeBy, madeBy, List.filter_filter, List.filter_eq_nil_iff]
    rintro ⟨action, added⟩ -
    cases action with
    | event made =>
      cases made with
      | call v made result => simpa using fun hv => hv ▸ hu
      | monitor index watched read => simp
    | levelGet v level => simpa using fun hv => hv ▸ hu
    | libClean v => simpa using fun hv => hv ▸ hu

section library
variable (hmalloc : ∀ n, system.malloc n = true) {s₀ : Library T} {l : Logger T}
  (hl : Stands system s₀ l) {trace : List (Action T × List Output)} (hown : OwnCalls trace)
include hmalloc hl hown

theorem stores_of_own {s : Library T} (h : Follows (Does system) s₀ trace s) :
    ∃ stores : T → Store, (∀ t, storeOf s t = some (stores t)) ∧
      ∀ t, Follows (StoreActs l.level l.identity) (l.stores t) (madeBy t trace) (stores t) := by
  obtain ⟨l', hrun, hl'⟩ := logger_of_library hmalloc hl h
  obtain ⟨stores, rfl, hstores⟩ := (follows_own_iff hown).mp hrun
  exact ⟨stores, hl'.stores, hstores⟩

theorem own_of_stores {stores : T → Store}
    (h : ∀ t, Follows (StoreActs l.level l.identity) (l.stores t) (madeBy t trace) (stores t)) :
    ∃ s, Follows (Does system) s₀ trace s ∧ ∀ t, storeOf s t = some (stores t) := by
  obtain ⟨s, hrun, hs⟩ := library_of_logger hmalloc hl ((follows_own_iff hown).mpr ⟨stores, rfl, h⟩)
  exact ⟨s, hrun, hs.stores⟩

end library

/-- From any state of the library the threads can make these calls with these results
and lines, and leave these stores, exactly when each of them can do its part alone: no
interleaving adds a behaviour and none takes one away. -/
theorem interleavings_agree (hmalloc : ∀ n, system.malloc n = true)
    {before trace : List (Action T × List Output)} {s₀ : Library T}
    (hbefore : Follows (Does system) .initial before s₀) (hown : OwnCalls trace)
    (stores : T → Store) :
    (∃ s, Follows (Does system) s₀ trace s ∧ ∀ t, storeOf s t = some (stores t)) ↔
      ∀ t, ∃ s, Follows (Does system) s₀ (madeBy t trace) s ∧ storeOf s t = some (stores t) := by
  obtain ⟨l, -, hl⟩ := logger_of_library hmalloc stands_initial hbefore
  have hpart : ∀ t, OwnCalls (madeBy t trace) := fun t item hitem =>
    hown item (List.mem_of_mem_filter hitem)
  constructor
  · rintro ⟨s, hrun, hs⟩ t
    obtain ⟨stores', hs', halone⟩ := stores_of_own hmalloc hl hown hrun
    have hsame : stores = stores' := funext fun t => Option.some.inj ((hs t).symm.trans (hs' t))
    subst hsame
    -- the other threads do nothing
    have hquiet : ∀ u, Follows (StoreActs l.level l.identity) (l.stores u)
        (madeBy u (madeBy t trace)) (Function.update l.stores t (stores t) u) := by
      intro u
      rw [madeBy_madeBy]
      by_cases hu : u = t
      · subst hu
        rw [if_pos rfl, Function.update_self]
        exact halone u
      · rw [if_neg hu, Function.update_of_ne hu]
        exact .start
    obtain ⟨s₁, hrun₁, hs₁⟩ := own_of_stores hmalloc hl (hpart t) hquiet
    exact ⟨s₁, hrun₁, by rw [hs₁ t, Function.update_self]⟩
  · intro halone
    refine own_of_stores hmalloc hl hown fun t => ?_
    obtain ⟨s, hrun, hs⟩ := halone t
    obtain ⟨stores', hs', hparts⟩ := stores_of_own hmalloc hl (hpart t) hrun
    have hsame : stores t = stores' t := Option.some.inj (hs.symm.trans (hs' t))
    have hmine := hparts t
    rwa [madeBy_madeBy, if_pos rfl, ← hsame] at hmine

theorem interleavings_agree_two : ∃ s : Library Bool,
    Follows (Does ⟨.ofString "prog", fun _ => true⟩) .initial (madeBy false twoThreads) s ∧
      storeOf s false = some (twoStores false) := by
  have hown : OwnCalls twoThreads := by
    intro item hitem
    simp only [twoThreads, List.mem_cons, List.not_mem_nil, or_false] at hitem
    rcases hitem with rfl | rfl | rfl | rfl <;> exact ⟨_, _, _, rfl, rfl⟩
  exact (interleavings_agree (fun _ => rfl) .start hown twoStores).mp twoThreads_run false

/-! `mdclog_lib_clean`. -/

/-- `mdclog_init(NULL)` in the place of `mdclog_lib_clean`. -/
def asInit : Action T → Action T
  | .libClean t => .event (.call t (.init none) (.status 0))
  | action => action

theorem acts_asInit (name : CStr) (l : Logger T) (action : Action T) (added : List Output)
    (l' : Logger T) : l.Acts name (asInit action) added l' ↔ l.Acts name action added l' := by
  cases action with
  | event made => exact Iff.rfl
  | levelGet t level => exact Iff.rfl
  | libClean t =>
    change some (Result.status 0, [], _) = some (Result.status 0, added, l') ↔
      added = [] ∧ l' = { l with identity := name, formatDone := false }
    simp only [Option.some.injEq, Prod.mk.injEq, true_and, eq_comm]

omit [DecidableEq T] in
theorem stands_unique {s : Library T} {l l' : Logger T} (h : Stands system s l)
    (h' : Stands system s l') : l = l' := by
  obtain ⟨level, formatDone, identity, attrs, stores, monitors⟩ := l
  obtain ⟨level', formatDone', identity', attrs', stores', monitors'⟩ := l'
  have hidentity : identity = identity' := Option.some.inj (h.identity.symm.trans h'.identity)
  have hstores : stores = stores' := by
    funext t
    exact Option.some.inj ((h.stores t).symm.trans (h'.stores t))
  cases h.level.symm.trans h'.level
  cases h.flag.symm.trans h'.flag
  cases h.attrs.symm.trans h'.attrs
  cases h.monitors.symm.trans h'.monitors
  cases hidentity
  cases hstores
  rfl

/-- Nothing tells a `mdclog_lib_clean` from a `mdclog_init(NULL)`: neither a later result
nor a later line, nor what the library is left with. -/
theorem libClean_is_init (hmalloc : ∀ n, system.malloc n = true)
    (trace : List (Action T × List Output)) (l : Logger T) :
    (∃ s, Follows (Does system) .initial trace s ∧ Stands system s l) ↔
      ∃ s, Follows (Does system) .initial (trace.map fun item => (asInit item.1, item.2)) s ∧
        Stands system s l := by
  have hlogger : ∀ trace : List (Action T × List Output),
      (∃ s, Follows (Does system) .initial trace s ∧ Stands system s l) ↔
        Follows (Logger.Acts (CStr.escaped system.progname))
          (.initial (CStr.escaped system.progname)) trace l := by
    intro trace
    constructor
    · rintro ⟨s, hrun, hstands⟩
      obtain ⟨l', hl', hstands'⟩ := logger_of_library hmalloc stands_initial hrun
      rwa [stands_unique hstands hstands']
    · exact fun h => library_of_logger hmalloc stands_initial h
  rw [hlogger, hlogger, follows_map (acts_asInit _)]

theorem libClean_is_init_rendered :
    ∃ s : Library Unit, Follows (Does ⟨.ofString "prog", fun _ => true⟩) .initial
      (rendered.map fun item => (asInit item.1, item.2)) s ∧
      Stands ⟨.ofString "prog", fun _ => true⟩ s renderedEnd := by
  obtain ⟨s, hrun, hstands⟩ := library_of_logger (fun _ => rfl) (@stands_initial Unit
    ⟨.ofString "prog", fun _ => true⟩) rendered_follows
  exact (libClean_is_init (fun _ => rfl) rendered renderedEnd).mp ⟨s, hrun, hstands⟩

end Mdclog.LoggerRuns
