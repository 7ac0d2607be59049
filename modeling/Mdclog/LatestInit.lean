import Mdclog.ApiFrame
import Mdclog.WriteRun

/-! Which identity `mdclog_write` uses, from the calls made before it. -/
namespace Mdclog.LatestInit
open Foundation.ByteBuffer Foundation.StateProgram
open CString Escape JsonFormat ConfigMap MdcStore Api ApiFrame WriteRun

variable {T : Type} {system : System}

/-- The identity an attribute object holds: that of the latest `set_ident` on it
that returned 0, if no `mdclog_init` has taken it since. The latest event comes
first. -/
def identOf (attr : Nat) : List (Event T) → Option CStr
  | [] => none
  | .call _ (.attrSetIdent (some a) (some identity)) (.status 0) :: history =>
      if a = attr then some identity else identOf attr history
  | .call _ (.init (some a)) _ :: history => if a = attr then none else identOf attr history
  | .call _ (.attrInit a) (.status 0) :: history =>
      if a = attr then none else identOf attr history
  | _ :: history => identOf attr history

/-- The identity that the latest `mdclog_init` took from its attribute object. -/
def decided : List (Event T) → Option CStr
  | [] => none
  | .call _ (.init none) _ :: _ => none
  | .call _ (.init (some attr)) _ :: history => identOf attr history
  | _ :: history => decided history

theorem identOf_plain (attr : Nat) {event : Event T} (h : Plain event) (history : List (Event T)) :
    identOf attr (event :: history) = identOf attr history := by
  cases event with
  | monitor index watched read => rfl
  | call t made result =>
    cases made with
    | attrInit _ | attrDestroy _ | attrSetIdent _ _ | init _ => exact h.elim
    | _ => rfl

theorem decided_of_not_init {event : Event T}
    (h : ∀ t attr result, event ≠ .call t (.init attr) result) (history : List (Event T)) :
    decided (event :: history) = decided history := by
  cases event with
  | monitor index watched read => rfl
  | call t made result =>
    cases made with
    | init attr => exact absurd rfl (h t attr result)
    | _ => rfl

/-- An identity comes from an earlier event or from a `set_ident` just now. -/
theorem identOf_cons {attr : Nat} {event : Event T} {history : List (Event T)} {id : CStr}
    (h : identOf attr (event :: history) = some id) :
    identOf attr history = some id ∨
      ∃ t, event = .call t (.attrSetIdent (some attr) (some id)) (.status 0) := by
  unfold identOf at h
  split at h
  · cases h
  all_goals
    rename_i heq
    obtain ⟨rfl, rfl⟩ := List.cons.inj heq
  · split at h
    · rename_i hattr
      subst hattr
      cases h
      exact .inr ⟨_, rfl⟩
    · exact .inl h
  · split at h
    · cases h
    · exact .inl h
  · split at h
    · cases h
    · exact .inl h
  · exact .inl h

theorem decided_cons {event : Event T} {history : List (Event T)} {id : CStr}
    (h : decided (event :: history) = some id) :
    decided history = some id ∨ ∃ attr, identOf attr history = some id := by
  unfold decided at h
  split at h
  · cases h
  · cases h
  all_goals
    rename_i heq
    obtain ⟨rfl, rfl⟩ := List.cons.inj heq
  · exact .inr ⟨_, h⟩
  · exact .inl h

/-- The part of `mdclog_write` behind `init_library`, for an identity. -/
def formatEntry [DecidableEq T] (system : System) (t : T) (severity : Severity) (message : Message)
    (identity : Option CStr) : Program T Unit := do
  let mdc ← firstMdc system t message.tv severity
  let ok ← allocate system
  let (buffer, len) ← liftM (mdclogInternalFormatToJsonStr (fresh message.stack pipeBuf)
    (pipeBuf - 1) message.tv identity severity mdc (if ok then some message.heap else none)
    message.call)
  emit buffer len

/-- The state and the calls agree. -/
structure Tracks (system : System) (history : List (Event T)) (s : Library T) : Prop where
  whole : Whole system s
  attrs : ∀ attr given, s.attrs attr = some given → given = identOf attr history
  used : usedIdentity system s =
    some ((decided history).getD (CStr.escaped system.progname))

theorem emit_tracks {history : List (Event T)} {s : Library T} (h : Tracks system history s)
    (buffer : Buffer) (len : Int) :
    Wlp (fun _ s' => Tracks system history s') (emit buffer len) s := by
  refine Keeps.ite (fun _ => ?_) (fun _ => Keeps.pure ()) s h
  exact Keeps.bind (Keeps.lift _) fun buffer =>
    Keeps.modify fun s h => ⟨h.whole, h.attrs, h.used⟩

/-! The calls with an attribute object. -/

/-- What `mdclog_init` finds in its attribute object. -/
def given (s : Library T) (attr : Option Nat) : Option CStr :=
  attr.bind fun a => (s.attrs a).join

section attributes
variable (hmalloc : ∀ n, system.malloc n = true)
include hmalloc

theorem mdclogAttrInit_result (address : Nat) (s : Library T) :
    Wlp (fun r s' => r = 0 ∧ ∃ count, s' = { s with
      allocations := count, attrs := Function.update s.attrs address (some none) })
      (mdclogAttrInit system address) s := by
  apply Wlp.bind
  intro ok s₁ hrun
  rw [allocate_run hmalloc] at hrun
  cases hrun
  apply Wlp.bind
  apply Wlp.get
  apply Wlp.ite
  · intro _
    exact Wlp.failure
  · intro _
    apply Wlp.bind
    apply Wlp.modify
    exact Wlp.pure ⟨rfl, _, rfl⟩

theorem mdclogAttrSetIdent_result (attr : Option Nat) (identity : Option CStr) (s : Library T) :
    Wlp (fun r s' => (r = -1 ∧ s' = s) ∨ (r = 0 ∧ ∃ a id count, attr = some a ∧
      identity = some id ∧ Clean id.bytes ∧ s' = { s with
        allocations := count, attrs := Function.update s.attrs a (some (some id)) }))
      (mdclogAttrSetIdent system attr identity) s := by
  cases attr with
  | none => exact Wlp.pure (.inl ⟨rfl, rfl⟩)
  | some a =>
    cases identity with
    | none => exact Wlp.pure (.inl ⟨rfl, rfl⟩)
    | some id =>
      apply Wlp.ite
      · intro _
        exact Wlp.pure (.inl ⟨rfl, rfl⟩)
      · intro haccepted
        have hclean : Clean id.bytes :=
          (clean_iff id).mp (by simpa using (by simpa using haccepted : _ ∧ _).1)
        apply Wlp.bind
        refine (attrIdentity_reads a s).mono ?_
        rintro old _ ⟨rfl, -⟩
        apply Wlp.bind
        intro copy s₁ hrun
        rw [strdup_run hmalloc] at hrun
        cases hrun
        apply Wlp.bind
        apply Wlp.modify
        exact Wlp.pure (.inr ⟨rfl, a, id, _, rfl, rfl, hclean, rfl⟩)

theorem configure_result (attr : Option Nat) (s : Library T) :
    Wlp (fun _ s' => (∀ a, attr = some a → s.attrs a = some (given s attr)) ∧ ∃ count, s' = { s with
      allocations := count
      identity := some ((given s attr).getD (CStr.escaped system.progname))
      attrs := match attr with
        | none => s.attrs
        | some a => Function.update s.attrs a (some none)
      initDone := true }) (configure system attr) s := by
  obtain ⟨count, hdefault⟩ := defaultIdentity_run hmalloc s
  cases attr with
  | none =>
    apply Wlp.bind
    apply Wlp.pure
    apply Wlp.bind
    intro identity s₁ hrun
    rw [hdefault] at hrun
    cases hrun
    exact Wlp.modify ⟨nofun, count, rfl⟩
  | some a =>
    apply Wlp.bind
    refine (attrIdentity_reads a s).mono ?_
    rintro found s' ⟨hs', hfound⟩
    rw [hs']
    have hgiven : given s (some a) = found := by
      simp [given, hfound]
    have hlive : ∀ a', some a = some a' → s.attrs a' = some (given s (some a)) := by
      rintro _ ⟨rfl⟩
      rw [hgiven, hfound]
    cases found with
    | none =>
      apply Wlp.bind
      intro identity s₁ hrun
      rw [hdefault] at hrun
      cases hrun
      refine Wlp.modify ⟨hlive, count, ?_⟩
      rw [hgiven]
      have hsame : Function.update s.attrs a (some none) = s.attrs := by
        rw [← hfound, Function.update_eq_self]
      simp [hsame]
    | some identity =>
      refine Wlp.modify ⟨hlive, s.allocations, ?_⟩
      rw [hgiven]
      rfl

theorem mdclogInit_result (attr : Option Nat) (s : Library T) :
    Wlp (fun _ s' => (∀ a, attr = some a → s.attrs a = some (given s attr)) ∧ ∃ count, s' = { s with
      allocations := count
      identity := some ((given s attr).getD (CStr.escaped system.progname))
      attrs := match attr with
        | none => s.attrs
        | some a => Function.update s.attrs a (some none)
      initDone := true
      logFormatInitDone := false }) (mdclogInit system attr) s := by
  apply Wlp.bind
  apply Wlp.modify
  apply Wlp.bind
  apply Wlp.bind
  apply Wlp.get
  apply Wlp.ite
  · nofun
  · intro _
    refine (configure_result hmalloc attr _).mono ?_
    intro _ s' hs'
    exact Wlp.pure hs'

/-- What a call stores for want of an identity is what it uses then. -/
theorem fallback_used {s : Library T} {identity : Option CStr} (h : Fallback system identity)
    (hclear : s.initDone = false) : identity = usedIdentity system s := by
  obtain ⟨id, hid⟩ := Option.isSome_iff_exists.mp (h.2 hmalloc)
  rw [usedIdentity, hclear, hid, h.1 id hid]
  rfl

end attributes

/-! Every event keeps state and calls in step. -/

theorem attrDestroy_tracks [DecidableEq T] {history : List (Event T)} {s s' : Library T} {t : T}
    {attr : Option Nat} {result : Result}
    (happens : (Event.call t (.attrDestroy attr) result).Happens system s s')
    (h : Tracks system history s) :
    Tracks system (.call t (.attrDestroy attr) result :: history) s' := by
  have hkeeps : Keeps (Tracks system history) (mdclogAttrDestroy attr : Program T Unit) := by
    cases attr with
    | none => exact Keeps.pure ()
    | some a =>
      refine Keeps.bind (Keeps.bind Keeps.get fun s => Keeps.lift _) fun _ =>
        Keeps.modify fun s h => ⟨h.whole, fun other given hgiven => ?_, h.used⟩
      by_cases hother : other = a
      · subst hother
        simp at hgiven
      · exact h.attrs other given (by simpa [hother] using hgiven)
  obtain ⟨r, hrun, rfl⟩ := of_bind_pure happens
  have hs' := hkeeps s h _ _ hrun
  exact ⟨hs'.whole, hs'.attrs, hs'.used⟩

theorem firstMdc_identity [DecidableEq T] (t : T) (tv : Timeval) (severity : Severity)
    (identity : Option CStr) :
    Keeps (fun s => s.identity = identity) (firstMdc system t tv severity) := by
  have hallocate : Keeps (fun s : Library T => s.identity = identity) (allocate system) :=
    Keeps.bind Keeps.get fun _ => Keeps.bind (Keeps.modify fun _ h => h) fun _ => Keeps.pure _
  have hget : Keeps (fun s => s.identity = identity) (getList system t) := by
    refine Keeps.bind Keeps.get fun s => ?_
    cases s.mdcs t with
    | some list => exact Keeps.pure _
    | none =>
      refine Keeps.bind hallocate fun ok => Keeps.ite (fun _ => ?_) fun _ => Keeps.pure none
      refine Keeps.bind hallocate fun ok => Keeps.ite (fun _ => ?_) fun _ => Keeps.pure none
      exact Keeps.bind (Keeps.modify fun _ h => h) fun _ => Keeps.pure _
  refine Keeps.bind hget fun list => ?_
  cases list with
  | none => exact Keeps.pure []
  | some list =>
    exact Keeps.bind Keeps.get fun _ => Keeps.ite (fun _ => Keeps.failure) fun _ => Keeps.pure _

section steps
variable [DecidableEq T] (hmalloc : ∀ n, system.malloc n = true)
include hmalloc

theorem stable_tracks (history : List (Event T)) : Stable system (Tracks system history) where
  whole h := h.whole
  allocations h := ⟨h.whole, h.attrs, h.used⟩
  lists t _ hlist h := ⟨Whole.update h.whole t hlist, h.attrs, h.used⟩
  level _ h := ⟨h.whole, h.attrs, h.used⟩
  monitors _ _ h := ⟨h.whole, h.attrs, h.used⟩
  fallback := by
    intro s identity hidentity hclear h
    exact ⟨h.whole, h.attrs, (fallback_used hmalloc hidentity hclear).trans h.used⟩

theorem readLogLevel_tracks (history : List (Event T)) (reading : Reading) :
    Keeps (Tracks system history) (readLogLevel system reading : Program T Unit) :=
  readLogLevel_keeps (stable_tracks hmalloc history) fun _ _ _ _ _ _ h =>
    ⟨h.whole, h.attrs, h.used⟩

theorem plain_tracks {history : List (Event T)} {event : Event T} {s s' : Library T}
    (hplain : Plain event) (happens : event.Happens system s s') (h : Tracks system history s) :
    Tracks system (event :: history) s' := by
  have hs' : Tracks system history s' :=
    event_keeps (stable_tracks hmalloc history) hplain
      (fun reading _ => readLogLevel_tracks hmalloc history reading)
      (fun _ _ _ _ _ _ h _ _ => emit_tracks h _ _) happens h
  have hdecided : decided (event :: history) = decided history := by
    refine decided_of_not_init ?_ history
    rintro t attr result rfl
    exact hplain
  refine ⟨hs'.whole, fun attr given hgiven => ?_, ?_⟩
  · rw [identOf_plain attr hplain]
    exact hs'.attrs attr given hgiven
  · rw [hdecided]
    exact hs'.used

theorem attrInit_tracks {history : List (Event T)} {s s' : Library T} {t : T} {address : Nat}
    {result : Result} (happens : (Event.call t (.attrInit address) result).Happens system s s')
    (h : Tracks system history s) :
    Tracks system (.call t (.attrInit address) result :: history) s' := by
  obtain ⟨r, hrun, rfl⟩ := of_bind_pure happens
  obtain ⟨rfl, count, rfl⟩ := mdclogAttrInit_result hmalloc address s _ _ hrun
  refine ⟨h.whole, fun attr given hgiven => ?_, h.used⟩
  rw [identOf]
  by_cases hattr : address = attr
  · subst hattr
    simpa using hgiven.symm
  · rw [if_neg hattr]
    exact h.attrs attr given (by simpa [Ne.symm hattr] using hgiven)

theorem attrSetIdent_tracks {history : List (Event T)} {s s' : Library T} {t : T}
    {attr : Option Nat} {identity : Option CStr} {result : Result}
    (happens : (Event.call t (.attrSetIdent attr identity) result).Happens system s s')
    (h : Tracks system history s) :
    Tracks system (.call t (.attrSetIdent attr identity) result :: history) s' := by
  obtain ⟨r, hrun, rfl⟩ := of_bind_pure happens
  rcases mdclogAttrSetIdent_result hmalloc attr identity s _ _ hrun with
    ⟨rfl, rfl⟩ | ⟨rfl, a, id, count, rfl, rfl, -, rfl⟩
  · -- a call that fails is passed over
    have hident : ∀ other, identOf other
        (.call t (.attrSetIdent attr identity) (.status (-1)) :: history) =
        identOf other history := by
      intro other
      cases attr <;> cases identity <;> rfl
    refine ⟨h.whole, fun other given hgiven => ?_, h.used⟩
    rw [hident]
    exact h.attrs other given hgiven
  · refine ⟨h.whole, fun other given hgiven => ?_, h.used⟩
    rw [identOf]
    by_cases hother : a = other
    · subst hother
      simpa using hgiven.symm
    · rw [if_neg hother]
      exact h.attrs other given (by simpa [Ne.symm hother] using hgiven)

theorem init_tracks {history : List (Event T)} {s s' : Library T} {t : T} {attr : Option Nat}
    {result : Result} (happens : (Event.call t (.init attr) result).Happens system s s')
    (h : Tracks system history s) : Tracks system (.call t (.init attr) result :: history) s' := by
  obtain ⟨r, hrun, rfl⟩ := of_bind_pure happens
  obtain ⟨hlive, count, rfl⟩ := mdclogInit_result hmalloc attr s _ _ hrun
  cases attr with
  | none => exact ⟨h.whole, h.attrs, rfl⟩
  | some a =>
    refine ⟨h.whole, fun other found hfound => ?_, ?_⟩
    · rw [identOf]
      by_cases hother : a = other
      · subst hother
        simpa using hfound.symm
      · rw [if_neg hother]
        exact h.attrs other found (by simpa [Ne.symm hother] using hfound)
    · rw [decided, ← h.attrs a _ (hlive a rfl)]
      rfl

theorem run_tracks {events : List (Event T)} {s : Library T} {may : Library T → Event T → Prop}
    (h : Run system may events s) : Tracks system events.reverse s := by
  induction h with
  | start =>
    exact ⟨fun _ _ _ hlist => by simp [Library.initial] at hlist, by simp [Library.initial], rfl⟩
  | @step events event s s' _ _ happens ih =>
    rw [List.reverse_append, List.reverse_singleton, List.singleton_append]
    cases event with
    | monitor index watched read => exact plain_tracks hmalloc trivial happens ih
    | call t made result =>
      cases made with
      | attrInit address => exact attrInit_tracks hmalloc happens ih
      | attrDestroy attr => exact attrDestroy_tracks happens ih
      | attrSetIdent attr identity => exact attrSetIdent_tracks hmalloc happens ih
      | init attr => exact init_tracks hmalloc happens ih
      | _ => exact plain_tracks hmalloc trivial happens ih

/-- `mdclog_write` formats with the identity that `init_library` leaves. -/
theorem mdclogWrite_formats (s : Library T) (t : T) {severity : Severity}
    (hlevel : severity.code ≤ s.currentLevel.code) (message : Message) :
    ∃ s₁, (initLibrary system none).run s = some ((), s₁) ∧
      s₁.identity = usedIdentity system s ∧
      (mdclogWrite system t severity message).run s =
        (formatEntry system t severity message (usedIdentity system s)).run s₁ := by
  obtain ⟨s₁, hinit, hidentity, -, -⟩ := initLibrary_run hmalloc s
  refine ⟨s₁, hinit, hidentity, ?_⟩
  unfold mdclogWrite formatEntry
  rw [StateT.run_bind, StateT.run_get, Option.pure_def, Option.bind_eq_bind, Option.bind_some,
    if_neg (Nat.not_lt.mpr hlevel), StateT.run_bind, hinit, Option.bind_eq_bind, Option.bind_some,
    StateT.run_bind, StateT.run_bind]
  refine Option.bind_congr fun ⟨mdc, s₂⟩ hfirst => ?_
  have hkept : s₂.identity = usedIdentity system s :=
    firstMdc_identity t message.tv severity _ s₁ hidentity _ _ hfirst
  rw [StateT.run_bind, StateT.run_get, Option.pure_def, Option.bind_eq_bind, Option.bind_some,
    hkept]

end steps

/-- The identity of every entry comes from the latest `mdclog_init`: what the latest
`set_ident` with result 0 gave its attribute object and no `mdclog_init` took
before, else the program name. -/
theorem latest_init_decides [DecidableEq T] (hmalloc : ∀ n, system.malloc n = true)
    {events : List (Event T)} {s : Library T} (hrun : Run system (fun _ _ => True) events s)
    (t : T) {severity : Severity} (hlevel : severity.code ≤ s.currentLevel.code)
    (message : Message) :
    ∃ s₁ identity, (initLibrary system none).run s = some ((), s₁) ∧
      identity = (decided events.reverse).getD (CStr.escaped system.progname) ∧
      s₁.identity = some identity ∧
      (mdclogWrite system t severity message).run s =
        (formatEntry system t severity message (some identity)).run s₁ := by
  have hused := (run_tracks hmalloc hrun).used
  obtain ⟨s₁, hinit, hidentity, hwrite⟩ := mdclogWrite_formats hmalloc s t hlevel message
  rw [hused] at hidentity hwrite
  exact ⟨s₁, _, hinit, rfl, hidentity, hwrite⟩

/-- Make an attribute object, name it and initialise with it, each once. -/
def named (initialisations : Nat) : List (Event Unit) :=
  [.call () (.attrInit 0) (.status 0),
    .call () (.attrSetIdent (some 0) (some (.ofString "x"))) (.status 0)] ++
    List.replicate initialisations (.call () (.init (some 0)) (.status 0))

theorem latest_init_decides_named :
    ∃ s s₁, Run ⟨.ofString "prog", fun _ => true⟩ (fun _ _ => True) (named 1) s ∧
      (initLibrary ⟨.ofString "prog", fun _ => true⟩ none).run s = some ((), s₁) ∧
      s₁.identity = some (.ofString "x") := by
  obtain ⟨s, hexec, hlevel⟩ : ∃ s, (named 1).foldlM (fun s event => event.exec
      ⟨.ofString "prog", fun _ => true⟩ s) Library.initial = some s ∧ s.currentLevel = .err :=
    ⟨_, rfl, rfl⟩
  have hrun : Run ⟨.ofString "prog", fun _ => true⟩ (fun _ _ => True) (named 1) s :=
    Run.of_exec _ hexec fun _ _ _ => trivial
  obtain ⟨s₁, _, hinit, rfl, hidentity, -⟩ := latest_init_decides (fun _ => rfl) hrun ()
    (show Severity.err.code ≤ s.currentLevel.code by rw [hlevel])
    ⟨⟨1, 0⟩, fun _ => 0, fun _ => 0, .output [] (by decide)⟩
  exact ⟨s, s₁, hrun, hinit, hidentity⟩

/-- The second `mdclog_init` with the same object finds it empty. -/
theorem same_attr_again :
    ∃ s, Run ⟨.ofString "prog", fun _ => true⟩ (fun _ _ => True) (named 2) s ∧
      (initLibrary ⟨.ofString "prog", fun _ => true⟩ none).run s = some ((), s) ∧
      s.identity = some (.ofString "prog") ∧ CStr.ofString "prog" ≠ .ofString "x" := by
  obtain ⟨s, hexec, hinit, hidentity⟩ : ∃ s, (named 2).foldlM (fun s event => event.exec
      ⟨.ofString "prog", fun _ => true⟩ s) Library.initial = some s ∧
      (initLibrary ⟨.ofString "prog", fun _ => true⟩ none).run s = some ((), s) ∧
      s.identity = some (.ofString "prog") := ⟨_, rfl, rfl, rfl⟩
  exact ⟨s, Run.of_exec _ hexec fun _ _ _ => trivial, hinit, hidentity, by decide⟩

end Mdclog.LatestInit
