import Mdclog.EntryDecode
import Mdclog.LatestInit
import Mdclog.Payload

/-! What the library writes to the standard output over a whole run. -/
namespace Mdclog.Stdout
open Foundation.ByteBuffer Foundation.Json Foundation.StateProgram
open CString Escape JsonFormat Sections LogEntry ConfigMap MdcStore Api ApiFrame WriteRun
open Foundation.Fitting EntryRoom Decode EntryDecode EntryBytes Payload LatestInit

variable {T : Type} {system : System}

def Output.bytes : Output → List UInt8
  | .write payload => payload
  | .printf text => text

/-- Everything written so far, one piece behind the other. -/
def stdout (s : Library T) : List UInt8 := s.output.flatMap Output.bytes

/-- What has reached the file, and what is still in the buffer of `printf`. A `write` reaches
the file at once; the buffer is written out from its front, up to a point that `may` allows. -/
inductive Delivers (may : List UInt8 → Prop) :
    List Output → List UInt8 → List UInt8 → Prop where
  | start : Delivers may [] [] []
  | write {pieces : List Output} {file held : List UInt8} (payload : List UInt8)
      (h : Delivers may pieces file held) :
      Delivers may (pieces ++ [.write payload]) (file ++ payload) held
  | printf {pieces : List Output} {file held : List UInt8} (text : List UInt8)
      (h : Delivers may pieces file held) :
      Delivers may (pieces ++ [.printf text]) file (held ++ text)
  | flush {pieces : List Output} {file front held : List UInt8} (hmay : may front)
      (h : Delivers may pieces file (front ++ held)) :
      Delivers may pieces (file ++ front) held

def isObject (line : List UInt8) : Prop := ∃ members, decode line = some (.object members)

/-- Lines that end in a newline, each one JSON object. -/
def JsonLines (text : List UInt8) : Prop :=
  ∃ lines : List (List UInt8), text = lines.flatMap (fun line => line ++ [newline]) ∧
    ∀ line ∈ lines, newline ∉ line ∧ isObject line

/-! One entry. -/

theorem exists_stored (store : Store) : ∃ pairs : List (CStr × CStr),
    store.pairs = pairs.map stored ∧ ∀ pair ∈ pairs, Clean pair.1.bytes := by
  have hall : ∀ list : List (CStr × CStr), (∀ pair ∈ list, Clean pair.1.bytes) →
      (∀ pair ∈ list, ∃ value, pair.2 = CStr.escaped value) →
      ∃ pairs : List (CStr × CStr), list = pairs.map stored ∧
        ∀ pair ∈ pairs, Clean pair.1.bytes := by
    intro list hclean hescaped
    induction list with
    | nil => exact ⟨[], rfl, nofun⟩
    | cons pair list ih =>
      obtain ⟨value, hvalue⟩ := hescaped pair (by simp)
      obtain ⟨pairs, rfl, hpairs⟩ := ih (fun p hp => hclean p (by simp [hp]))
        fun p hp => hescaped p (by simp [hp])
      refine ⟨(pair.1, value) :: pairs, ?_, ?_⟩
      · rw [List.map_cons, stored, ← hvalue]
      · intro p hp
        rcases List.mem_cons.mp hp with rfl | hp
        · exact hclean pair (by simp)
        · exact hpairs p hp
  exact hall store.pairs store.clean store.escaped

/-- A severity without a name only leaves its member out. -/
theorem entry_eq_unnamed {len : Nat} (tv : Timeval) {identity : Option CStr} {severity : Severity}
    (hcrit : severity.val = none) (mdc : List (CStr × CStr)) {text : List UInt8}
    (hlen : minBufferLength ≤ len)
    (hroom : (entryFront len tv identity severity mdc).length + 20 < len) (hnul : 0 ∉ text) :
    entryText len tv identity severity mdc text =
      [0x7b] ++ (ascii "\"ts\":" ++ decimal (timestamp tv)) ++ [comma] ++
        (ascii "\"id\":\"" ++ identityShown identity ++ ascii "\"") ++ [comma] ++
        mdcText (fitPairs (len - (entryHead tv identity severity).length - 28) mdc) ++ [comma] ++
        (msgHeader ++ escapeText (messageText
          (len - (entryFront len tv identity severity mdc).length - 1) text) ++ ascii "\"") ++
        [0x7d] := by
  have hts : timestampText tv ≠ [] := by
    simp [timestampText, show ascii "\"ts\":" ≠ [] by decide]
  have hid : identityText identity ≠ [] := by
    simp [identityText, show ascii "\"id\":\"" ≠ [] by decide]
  have hhead : entryHead tv identity severity =
      [0x7b] ++ (ascii "\"ts\":" ++ decimal (timestamp tv)) ++ [comma] ++
        (ascii "\"id\":\"" ++ identityShown identity ++ ascii "\"") ++ [comma] := by
    simp only [entryHead, severityMember, hcrit, withComma, if_neg hts, if_neg hid]
    simp [timestampText, identityText, identityShown]
  have hmessage := entryMessage_eq hroom hnul
  rw [entryText]
  simp only [hmessage]
  rw [entryFront_eq tv identity severity mdc hlen, ← hhead]

theorem isObject_entryText {len : Nat} (tv : Timeval) {identity : Option CStr}
    (hidentity : ∀ id ∈ identity, mdclogInternalContainsSpecialCharacters id = false)
    (severity : Severity) (store : Store) {text : List UInt8} (hlen : minBufferLength ≤ len)
    (hroom : (entryFront len tv identity severity store.pairs).length + 20 < len)
    (hnul : 0 ∉ text) : isObject (entryText len tv identity severity store.pairs text) := by
  obtain ⟨pairs, hpairs, hclean⟩ := exists_stored store
  rw [hpairs] at hroom ⊢
  obtain ⟨kept, hkept, hfit⟩ := List.prefix_map_iff.mp (fitPairs_isPrefix
    (len - (entryHead tv identity severity).length - 28) (pairs.map stored))
  have hcleanKept : ∀ pair ∈ kept, Clean pair.1.bytes := fun pair hpair =>
    hclean pair (hkept.subset hpair)
  cases hcrit : severity.val with
  | none =>
    rw [entry_eq_unnamed tv hcrit (pairs.map stored) hlen hroom hnul, hfit]
    exact decode_entry_unnamed _ _ _ _ (clean_identityShown hidentity) hcleanKept
  | some crit =>
    rw [entry_eq tv hcrit (pairs.map stored) hlen hroom hnul, hfit]
    exact ⟨_, decode_entry _ _ _ _ _ (clean_severity hcrit) (clean_identityShown hidentity)
      hcleanKept⟩

/-! The run. -/

/-- A payload that is one entry. -/
def IsEntry (piece : Output) : Prop :=
  ∃ line, piece = .write (line ++ [newline]) ∧ newline ∉ line ∧ isObject line

theorem jsonLines_of_entries {pieces : List Output} (h : ∀ piece ∈ pieces, IsEntry piece) :
    JsonLines (pieces.flatMap Output.bytes) := by
  induction pieces with
  | nil => exact ⟨[], rfl, nofun⟩
  | cons piece pieces ih =>
    obtain ⟨line, rfl, hline⟩ := h piece (by simp)
    obtain ⟨lines, hlines, hall⟩ := ih fun other hother => h other (by simp [hother])
    refine ⟨line :: lines, ?_, ?_⟩
    · rw [List.flatMap_cons, List.flatMap_cons, hlines]
      rfl
    · intro other hother
      rcases List.mem_cons.mp hother with rfl | hother
      · exact hline
      · exact hall other hother

/-- Entries never wait in a buffer. -/
theorem Delivers.of_entries {may : List UInt8 → Prop} {pieces : List Output}
    {file held : List UInt8} (h : Delivers may pieces file held)
    (hentries : ∀ piece ∈ pieces, IsEntry piece) :
    file = pieces.flatMap Output.bytes ∧ held = [] := by
  induction h with
  | start => exact ⟨rfl, rfl⟩
  | write payload h ih =>
    obtain ⟨rfl, rfl⟩ := ih fun piece hpiece => hentries piece (by simp [hpiece])
    exact ⟨by simp [Output.bytes], rfl⟩
  | printf text h ih =>
    obtain ⟨line, ⟨⟩, -⟩ := hentries (.printf text) (by simp)
  | flush hmay h ih =>
    obtain ⟨rfl, hheld⟩ := ih hentries
    obtain ⟨rfl, rfl⟩ := List.append_eq_nil_iff.mp hheld
    exact ⟨List.append_nil _, rfl⟩

/-- Every piece so far is an entry, and the next one gets this identity. -/
structure Streams (system : System) (identity : Option CStr) (s : Library T) : Prop where
  whole : Whole system s
  used : usedIdentity system s = identity
  entries : ∀ piece ∈ s.output, IsEntry piece

theorem emit_streams {identity : Option CStr} {s : Library T} (h : Streams system identity s)
    (hdone : s.initDone = true)
    (hclean : ∀ id ∈ identity, mdclogInternalContainsSpecialCharacters id = false)
    {store : Store} {stack : Nat → UInt8} {tv : Timeval} {severity : Severity}
    {malloc : Option (Nat → UInt8)} {bytes : List UInt8} {hbytes : bytes.length ≤ intMax}
    (hnul : 0 ∉ bytes) {buffer : Buffer} {len : Int}
    (hformat : mdclogInternalFormatToJsonStr (fresh stack pipeBuf) (pipeBuf - 1) tv s.identity
      severity store.pairs malloc (.output bytes hbytes) = some (buffer, len)) :
    Wlp (fun _ s' => Streams system identity s') (emit buffer len) s := by
  have hidentity : s.identity = identity := by
    have hused := h.used
    rwa [usedIdentity, if_pos hdone] at hused
  by_cases hpos : 0 < len
  · obtain ⟨rest, rfl, rfl, hroom⟩ := format_pos hformat hpos
    intro _ s' hrun
    rw [emit_run s _ rest (by simp [entryText])] at hrun
    cases hrun
    refine ⟨h.whole, h.used, fun piece hpiece => ?_⟩
    rcases List.mem_append.mp hpiece with hold | hnew
    · exact h.entries piece hold
    · cases List.mem_singleton.mp hnew
      rw [hidentity] at hroom ⊢
      have hprint := printable_entryText tv severity bytes
        (show minBufferLength ≤ pipeBuf - 1 by decide)
        (fun id hid c hc => ((clean_iff id).mp (hclean id hid) c hc).1) (printable_store store)
      refine ⟨_, rfl, fun hmem => ?_,
        isObject_entryText tv hclean severity store (by decide) hroom hnul⟩
      exact absurd (hprint newline hmem) (by decide)
  · rw [emit, if_neg hpos]
    exact Wlp.pure h

/-- A file that is read has a level in it. -/
def levelFound (s : Library T) (event : Event T) : Prop :=
  ∀ reading, ReadsLevel s reading event → parseFile reading ≠ some none

/-- `vsnprintf` succeeds and gives no NUL. -/
def nulFree : Event T → Prop
  | .call _ (.write _ message) _ =>
      ∃ bytes hbytes, message.call = .output bytes hbytes ∧ 0 ∉ bytes
  | _ => True

section steps
variable [DecidableEq T] (hmalloc : ∀ n, system.malloc n = true)
include hmalloc

theorem stable_streams (identity : Option CStr) :
    Stable system (Streams system identity : Library T → Prop) where
  whole h := h.whole
  allocations h := ⟨h.whole, h.used, h.entries⟩
  lists t _ hlist h := ⟨Whole.update h.whole t hlist, h.used, h.entries⟩
  level _ h := ⟨h.whole, h.used, h.entries⟩
  monitors _ _ h := ⟨h.whole, h.used, h.entries⟩
  fallback := by
    intro s found hfound hclear h
    exact ⟨h.whole, (fallback_used hmalloc hfound hclear).trans h.used, h.entries⟩

/-- A level in the file keeps `update_mdc_log_level_severity` silent. -/
theorem readLogLevel_streams (identity : Option CStr) {reading : Reading}
    (hfound : parseFile reading ≠ some none) :
    Keeps (Streams system identity) (readLogLevel system reading : Program T Unit) := by
  refine readLogLevel_keeps (stable_streams hmalloc identity) ?_
  intro token htoken logLevel _ hsome s h
  have htokenSome : token.isSome := by
    cases token with
    | none => exact absurd htoken hfound
    | some level => rfl
  obtain ⟨level, rfl⟩ := Option.isSome_iff_exists.mp (hsome hmalloc htokenSome)
  have hsilent : (updateMdcLogLevelSeverity (some level)).2 = [] := by
    simp only [updateMdcLogLevelSeverity]
    split_ifs <;> rfl
  refine ⟨h.whole, h.used, ?_⟩
  rw [if_pos hsilent, List.append_nil]
  exact h.entries

/-- Identities that `set_ident` accepted need no escape. -/
theorem run_clean {events : List (Event T)} {s : Library T} {may : Library T → Event T → Prop}
    (h : Run system may events s) :
    (∀ attr id, identOf attr events.reverse = some id → Clean id.bytes) ∧
      ∀ id, decided events.reverse = some id → Clean id.bytes := by
  induction h with
  | start => exact ⟨nofun, nofun⟩
  | @step events event s s' _ _ happens ih =>
    rw [List.reverse_append, List.reverse_singleton, List.singleton_append]
    refine ⟨fun attr id hid => ?_, fun id hid => ?_⟩
    · rcases identOf_cons hid with hold | ⟨t, rfl⟩
      · exact ih.1 attr id hold
      · obtain ⟨r, hset, hr⟩ := of_bind_pure happens
        cases hr
        rcases mdclogAttrSetIdent_result hmalloc _ _ s _ _ hset with
          ⟨hr, -⟩ | ⟨-, _, _, _, ⟨⟩, ⟨⟩, hclean, -⟩
        · cases hr
        · exact hclean
    · rcases decided_cons hid with hold | ⟨attr, hattr⟩
      · exact ih.2 id hold
      · exact ih.1 attr id hattr

/-- The calls on attribute objects write nothing. -/
theorem output_of_not_plain {event : Event T} {s s' : Library T} (hplain : ¬Plain event)
    (happens : event.Happens system s s') : s'.output = s.output := by
  cases event with
  | monitor index watched read => exact absurd trivial hplain
  | call t made result =>
    cases made with
    | attrInit address =>
      obtain ⟨r, hrun, -⟩ := of_bind_pure happens
      obtain ⟨-, count, rfl⟩ := mdclogAttrInit_result hmalloc address s _ _ hrun
      rfl
    | attrDestroy attr =>
      obtain ⟨r, hrun, -⟩ := of_bind_pure happens
      have hkeeps :
          Keeps (fun s₁ : Library T => s₁.output = s.output) (mdclogAttrDestroy attr) := by
        cases attr with
        | none => exact Keeps.pure ()
        | some attr =>
          exact Keeps.bind (Keeps.bind Keeps.get fun _ => Keeps.lift _) fun _ =>
            Keeps.modify fun _ h => h
      exact hkeeps s rfl _ _ hrun
    | attrSetIdent attr identity =>
      obtain ⟨r, hrun, -⟩ := of_bind_pure happens
      rcases mdclogAttrSetIdent_result hmalloc attr identity s _ _ hrun with
        ⟨-, rfl⟩ | ⟨-, _, _, _, -, -, -, rfl⟩ <;> rfl
    | init attr =>
      obtain ⟨r, hrun, -⟩ := of_bind_pure happens
      obtain ⟨-, count, rfl⟩ := mdclogInit_result hmalloc attr s _ _ hrun
      rfl
    | _ => exact absurd trivial hplain

theorem event_entries {event : Event T} {s s' : Library T} (hfound : levelFound s event)
    (hnul : nulFree event) (happens : event.Happens system s s') (hwhole : Whole system s)
    (hclean : ∀ t severity message result, event = .call t (.write severity message) result →
      ∀ id ∈ usedIdentity system s, mdclogInternalContainsSpecialCharacters id = false)
    (h : ∀ piece ∈ s.output, IsEntry piece) : ∀ piece ∈ s'.output, IsEntry piece := by
  by_cases hplain : Plain event
  · have hstreams : Streams system (usedIdentity system s) s := ⟨hwhole, rfl, h⟩
    refine (event_keeps (stable_streams hmalloc _) hplain
      (fun reading hread => readLogLevel_streams hmalloc _ (hfound reading hread)) ?_ happens
      hstreams).entries
    rintro t severity message result rfl s₁ store malloc buffer len hs₁ hdone hformat
    obtain ⟨bytes, hbytes, hcall, hbytesNul⟩ := hnul
    rw [hcall] at hformat
    exact emit_streams hs₁ hdone (hclean t severity message result rfl) hbytesNul hformat
  · rw [output_of_not_plain hmalloc hplain happens]
    exact h

theorem run_entries {events : List (Event T)} {s : Library T}
    (hrun : Run system (fun s event => levelFound s event ∧ nulFree event) events s)
    (hident : ∀ before t severity message result,
      before ++ [.call t (.write severity message) result] <+: events →
      (decided before.reverse).isSome) : ∀ piece ∈ s.output, IsEntry piece := by
  induction hrun with
  | start => exact nofun
  | @step events event s s' run hmay happens ih =>
    have hold := ih fun before t severity message result hbefore =>
      hident before t severity message result (hbefore.trans (List.prefix_append _ _))
    have htracks := run_tracks hmalloc run
    refine event_entries hmalloc hmay.1 hmay.2 happens htracks.whole ?_ hold
    rintro t severity message result rfl id hid
    obtain ⟨given, hgiven⟩ := Option.isSome_iff_exists.mp
      (hident events t severity message result (List.prefix_refl _))
    rw [htracks.used, hgiven] at hid
    cases hid
    exact (clean_iff _).mpr ((run_clean hmalloc run).2 given hgiven)

end steps

/-- As long as every file that is read has a level in it, the standard output is
lines of JSON, and it reaches the file as it is written. -/
theorem stdout_jsonLines [DecidableEq T] (hmalloc : ∀ n, system.malloc n = true)
    {events : List (Event T)} {s : Library T}
    (hrun : Run system (fun s event => levelFound s event ∧ nulFree event) events s)
    (hident : ∀ before t severity message result,
      before ++ [.call t (.write severity message) result] <+: events →
      (decided before.reverse).isSome) :
    JsonLines (stdout s) ∧ ∀ (may : List UInt8 → Prop) (file held : List UInt8),
      Delivers may s.output file held → file = stdout s ∧ held = [] := by
  have hentries := run_entries hmalloc hrun hident
  exact ⟨jsonLines_of_entries hentries, fun _ _ _ h => h.of_entries hentries⟩

/-- An environment that names a file with this content. -/
def fileOnly (content : List UInt8) : Environment where
  getenv name := if name = logFileConfigMap then some (.ofString "f") else none
  file _ := ⟨some content, id⟩
  lstat _ := true
  pthreadCreate := 0
  getpid := 1
  getpid_le := by decide

/-- A program sets its identity and then reads a file with this content. -/
def configured (content : List UInt8) : List (Event Unit) :=
  [.call () (.attrInit 0) (.status 0),
    .call () (.attrSetIdent (some 0) (some (.ofString "x"))) (.status 0),
    .call () (.init (some 0)) (.status 0),
    .call () (.formatInitialize 0 (fileOnly content)) (.status 0)]

theorem stdout_jsonLines_configured :
    ∃ (events : List (Event Unit)) (s : Library Unit) (payload : List UInt8),
      Run ⟨.ofString "prog", fun _ => true⟩ (fun s event => levelFound s event ∧ nulFree event)
        events s ∧ s.output = [.write payload] ∧ JsonLines (stdout s) := by
  have hexec : ((configured (ascii "log-level: DEBUG\n")).foldlM (fun s event => Event.exec
      ⟨.ofString "prog", fun _ => true⟩ event s) Library.initial).map
      (fun s => (s.currentLevel, s.output, decide (total pairLength (pairsOf s ()) < 1000))) =
      some (.debug, [], true) := by
    decide +kernel
  obtain ⟨s, hexec, hstate⟩ := Option.map_eq_some_iff.mp hexec
  simp only [Prod.mk.injEq, decide_eq_true_eq] at hstate
  obtain ⟨hlevel, houtput, hroom⟩ := hstate
  have hrun : Run ⟨.ofString "prog", fun _ => true⟩
      (fun s event => levelFound s event ∧ nulFree event)
      (configured (ascii "log-level: DEBUG\n")) s := by
    refine Run.of_exec _ hexec fun s event hevent => ?_
    simp only [configured, List.mem_cons, List.not_mem_nil, or_false] at hevent
    rcases hevent with rfl | rfl | rfl | rfl
    · exact ⟨nofun, trivial⟩
    · exact ⟨nofun, trivial⟩
    · exact ⟨nofun, trivial⟩
    · refine ⟨?_, trivial⟩
      rintro _ ⟨-, fileName, -, rfl⟩
      change parseFile ⟨some (ascii "log-level: DEBUG\n"), id⟩ ≠ some none
      decide +kernel
  let message : Message := ⟨⟨1, 0⟩, fun _ => 0, fun _ => 0, .output (ascii "hello") (by decide)⟩
  obtain ⟨s', hwrite, hwritten⟩ := @mdclogWrite_run Unit ⟨.ofString "prog", fun _ => true⟩ _
    (fun _ => rfl) s () ((run_tracks (fun _ => rfl) hrun).whole (fun _ => rfl) ()) .err
    (by rw [hlevel]; decide) message _ _ rfl
  have hpipe : pipeBuf = 4096 := rfl
  rw [if_neg (not_fillsRoom _ _ _ (by omega)), houtput, List.nil_append] at hwritten
  have hhappens : (Event.call () (.write .err message) .done).Happens
      ⟨.ofString "prog", fun _ => true⟩ s s' := by
    change (mdclogWrite _ _ _ _ >>= fun _ => pure Result.done).run _ = _
    rw [StateT.run_bind, hwrite]
    rfl
  have hrun' : Run ⟨.ofString "prog", fun _ => true⟩
      (fun s event => levelFound s event ∧ nulFree event)
      (configured (ascii "log-level: DEBUG\n") ++ [.call () (.write .err message) .done]) s' :=
    .step hrun ⟨nofun, _, _, rfl, by decide⟩ hhappens
  refine ⟨_, s', _, hrun', hwritten, (stdout_jsonLines (fun _ => rfl) hrun' ?_).1⟩
  -- the only `mdclog_write` comes last
  rintro (_ | ⟨_, _ | ⟨_, _ | ⟨_, _ | ⟨_, _ | ⟨_, before⟩⟩⟩⟩⟩) t severity message' result hbefore
  all_goals
    simp only [configured, List.cons_append, List.nil_append, List.cons_prefix_cons] at hbefore
  · cases hbefore.1
  · cases hbefore.2.1
  · cases hbefore.2.2.1
  · cases hbefore.2.2.2.1
  · obtain ⟨rfl, rfl, rfl, rfl, -⟩ := hbefore
    rfl
  · simp at hbefore

/-- The first line of such a text is found by its newline. -/
theorem jsonLines_first {body rest : List UInt8} (hbody : newline ∉ body)
    (h : JsonLines (body ++ newline :: rest)) : isObject body := by
  have hfirst : ∀ {line : List UInt8} (more : List UInt8), newline ∉ line →
      (line ++ newline :: more).takeWhile (fun b => b ≠ newline) = line := by
    intro line more hline
    rw [List.takeWhile_append_of_pos (fun b hb => by
      rw [decide_eq_true_eq]
      rintro rfl
      exact hline hb), List.takeWhile_cons_of_neg (by simp), List.append_nil]
  obtain ⟨lines, htext, hlines⟩ := h
  cases lines with
  | nil => simp at htext
  | cons line lines =>
    obtain ⟨hline, hobject⟩ := hlines line (by simp)
    rw [List.flatMap_cons, List.append_assoc, List.singleton_append] at htext
    have heq := congrArg (List.takeWhile fun b => b ≠ newline) htext
    rw [hfirst _ hbody, hfirst _ hline] at heq
    rw [heq]
    exact hobject

/-- A file without a level. -/
theorem stdout_not_jsonLines :
    ∃ s, Run ⟨.ofString "prog", fun _ => true⟩ (fun _ event => nulFree event)
      (configured (ascii "a: b\n")) s ∧
      stdout s = levelMessage ∧ Delivers (fun _ => True) s.output (stdout s) [] ∧
      ¬JsonLines (stdout s) := by
  have hexec : ((configured (ascii "a: b\n")).foldlM (fun s event => Event.exec
      ⟨.ofString "prog", fun _ => true⟩ event s) Library.initial).map Library.output =
      some [.printf levelMessage] := by
    decide +kernel
  obtain ⟨s, hrun, hpieces⟩ := Option.map_eq_some_iff.mp hexec
  have houtput : stdout s = levelMessage := by
    rw [stdout, hpieces, List.flatMap_singleton, Output.bytes]
  refine ⟨s, Run.of_exec _ hrun ?_, houtput, ?_, ?_⟩
  · intro _ event hevent
    simp only [configured, List.mem_cons, List.not_mem_nil, or_false] at hevent
    rcases hevent with rfl | rfl | rfl | rfl <;> trivial
  · rw [houtput, hpieces]
    have hprinted : Delivers (fun _ => True) [.printf levelMessage] [] (levelMessage ++ []) := by
      simpa using Delivers.start.printf levelMessage
    exact hprinted.flush trivial
  · rw [houtput]
    intro hlines
    have hsplit : levelMessage = levelMessage.dropLast ++ newline :: [] := by decide
    rw [hsplit] at hlines
    obtain ⟨members, hmembers⟩ := jsonLines_first (by decide) hlines
    have hnone : decode levelMessage.dropLast = none := by decide +kernel
    rw [hnone] at hmembers
    cases hmembers

end Mdclog.Stdout
