import Mdclog.DefaultIdentity
import Mdclog.LoggerRefinement
import Mdclog.Stdout

/-! What a reader of the standard output gets back: the entries that the program asked
for, in their order, with the values that it gave. -/
namespace Mdclog.LogReader
open Foundation.ByteBuffer Foundation.Fitting Foundation.Json Foundation.OrderedMap Foundation.Trace
open CString Escape JsonFormat Sections LogEntry ConfigMap EntryRoom EntryBytes MdcStore Api
open WriteRun Decode EntryDecode DefaultIdentity FormatStore LoggerSpec LoggerRefinement Payload
open Stdout

variable {T : Type} {system : System}

/-- The JSON values among the lines of a text. -/
def readLog (text : List UInt8) : List Value := (text.splitOn newline).filterMap decode

theorem readLog_nil : readLog [] = [] := by decide

theorem readLog_line {line : List UInt8} (hline : newline ∉ line) :
    readLog (line ++ [newline]) = (decode line).toList := by
  rw [readLog, List.splitOn_append_cons_self_of_not_mem hline, List.filterMap_cons,
    show ([].splitOn newline).filterMap decode = [] from readLog_nil]
  cases decode line <;> rfl

/-! Whole lines, in the order in which they reach the file. -/

/-- Nothing, or a text that ends with a line: as far as a line-buffered stream is written
out. -/
def WholeLines (text : List UInt8) : Prop := text = [] ∨ ∃ body, text = body ++ [newline]

theorem wholeLines_append {text more : List UInt8} (h : WholeLines text)
    (hmore : WholeLines more) : WholeLines (text ++ more) := by
  rcases hmore with rfl | ⟨body, rfl⟩
  · rwa [List.append_nil]
  · exact .inr ⟨text ++ body, (List.append_assoc ..).symm⟩

theorem wholeLines_rest {text more : List UInt8} (h : WholeLines (text ++ more)) :
    WholeLines more := by
  rcases List.eq_nil_or_concat more with rfl | ⟨body, last, rfl⟩
  · exact .inl rfl
  · rcases h with hnil | ⟨all, hall⟩
    · simp at hnil
    · rw [List.concat_eq_append, ← List.append_assoc] at hall
      rw [List.concat_eq_append, (List.append_inj' hall rfl).2]
      exact .inr ⟨body, rfl⟩

theorem readLog_append {text : List UInt8} (h : WholeLines text) (more : List UInt8) :
    readLog (text ++ more) = readLog text ++ readLog more := by
  rcases h with rfl | ⟨body, rfl⟩
  · rw [readLog_nil, List.nil_append, List.nil_append]
  · have hsplit : ∀ rest, readLog (body ++ newline :: rest) = readLog body ++ readLog rest := by
      intro rest
      rw [readLog, List.splitOn_append_cons_self, List.filterMap_append]
      rfl
    rw [List.append_assoc, List.singleton_append, hsplit, hsplit, readLog_nil, List.append_nil]

/-- A line of the log, or a line that is no entry. -/
def Tidy : Output → Prop
  | .write payload => WholeLines payload
  | .printf text => WholeLines text ∧ readLog text = []

/-- The values that a piece brings. -/
def values : Output → List Value
  | .write payload => readLog payload
  | .printf _ => []

/-- Wherever between two lines the buffer is written out, the file has the values of the
pieces in their order. -/
theorem readLog_delivered {pieces : List Output} {file held : List UInt8}
    (h : Delivers WholeLines pieces file held) (htidy : ∀ piece ∈ pieces, Tidy piece) :
    WholeLines file ∧ WholeLines held ∧ readLog held = [] ∧
      readLog file = pieces.flatMap values := by
  induction h with
  | start => exact ⟨.inl rfl, .inl rfl, readLog_nil, readLog_nil⟩
  | write payload h ih =>
    obtain ⟨hfile, hheld, hnone, hreads⟩ := ih fun piece hpiece => htidy piece (by simp [hpiece])
    have hpayload : WholeLines payload := htidy (.write payload) (by simp)
    refine ⟨wholeLines_append hfile hpayload, hheld, hnone, ?_⟩
    rw [readLog_append hfile, hreads, List.flatMap_append, List.flatMap_singleton]
    rfl
  | printf text h ih =>
    obtain ⟨hfile, hheld, hnone, hreads⟩ := ih fun piece hpiece => htidy piece (by simp [hpiece])
    obtain ⟨htext, hremark⟩ : WholeLines text ∧ readLog text = [] := htidy (.printf text) (by simp)
    refine ⟨hfile, wholeLines_append hheld htext, ?_, ?_⟩
    · rw [readLog_append hheld, hnone, hremark, List.append_nil]
    · rw [hreads, List.flatMap_append, List.flatMap_singleton, values, List.append_nil]
  | flush hmay h ih =>
    obtain ⟨hfile, hboth, hnone, hreads⟩ := ih htidy
    rw [readLog_append hmay] at hnone
    obtain ⟨hfront, hrest⟩ := List.append_eq_nil_iff.mp hnone
    refine ⟨wholeLines_append hfile hmay, wholeLines_rest hboth, hrest, ?_⟩
    rw [readLog_append hfile, hfront, List.append_nil, hreads]

/-- A stream that is written out at the end of every `printf`. -/
theorem delivers_at_once {pieces : List Output} (htidy : ∀ piece ∈ pieces, Tidy piece) :
    Delivers WholeLines pieces (pieces.flatMap Output.bytes) [] := by
  induction pieces using List.reverseRecOn with
  | nil => exact .start
  | append_singleton pieces piece ih =>
    have hpieces := ih fun other hother => htidy other (by simp [hother])
    rw [List.flatMap_append, List.flatMap_singleton]
    cases piece with
    | write payload => exact hpieces.write payload
    | printf text =>
      have htext : Tidy (.printf text) := htidy (.printf text) (by simp)
      have hprinted : Delivers WholeLines (pieces ++ [.printf text])
          (pieces.flatMap Output.bytes) (text ++ []) := by
        simpa using hpieces.printf text
      exact hprinted.flush htext.1

/-! The entries. -/

/-- An entry with the texts that the program gave. -/
structure Record where
  ts : Nat
  crit : Option (List UInt8)
  id : List UInt8
  mdc : List (CStr × CStr)
  msg : List UInt8
  deriving DecidableEq

def stringMember (name text : List UInt8) : List UInt16 × Value :=
  (units name, .string (units (render text)))

/-- A record as a JSON object: a byte that cannot be printed is a space in it. -/
def Record.value (record : Record) : Value :=
  .object ((units (ascii "ts"), .number ⟨record.ts, 0⟩) ::
    (record.crit.elim [] (fun crit => [stringMember (ascii "crit") crit]) ++
      [stringMember (ascii "id") record.id,
        (units (ascii "mdc"), .object (record.mdc.map pairMember)),
        stringMember (ascii "msg") record.msg]))

def keptPairs (head : Nat) (pairs : List (CStr × CStr)) : List (CStr × CStr) :=
  fitting (fun pair => pairLength (stored pair)) (pipeBuf - 1 - head - 28) pairs

/-- The bytes in front of the message. -/
def frontLength (head : Nat) (kept : List (CStr × CStr)) : Nat :=
  head + (8 + (total (fun pair => pairLength (stored pair)) kept - 1)) + 1

/-- What an entry says for an identity, pairs and a message text as the program gave
them. -/
def recordOf (identity : CStr) (pairs : List (CStr × CStr)) (severity : Severity) (tv : Timeval)
    (text : List UInt8) : Record :=
  let head := headLength tv (some (CStr.escaped identity)) severity
  let kept := keptPairs head pairs
  { ts := timestamp tv
    crit := severity.val
    id := fitPrefix identityMaxLength identity.bytes
    mdc := kept
    msg := messageText (pipeBuf - 1 - frontLength head kept - 1) text }

theorem parses_escaped {name more : List UInt8} {members : List (List UInt16 × Value)}
    (text : List UInt8) (hname : Clean name) (h : Parses more members) :
    Parses (stringOn name (escapeText text) more) (stringMember name text :: members) := by
  intro fuel hfuel
  simp only [stringOn, List.length_append, List.length_cons] at hfuel
  obtain ⟨fuel, rfl⟩ : ∃ n, fuel = n + 1 + 1 := ⟨fuel - 2, by omega⟩
  exact parseMembers_stringMember text hname (h (fuel + 1) (by omega))

theorem fitPairs_stored (head : Nat) (pairs : List (CStr × CStr)) :
    fitPairs (pipeBuf - 1 - head - 28) (pairs.map stored) = (keptPairs head pairs).map stored := by
  have hcost : (fun pair : CStr × CStr => (pairText pair).length) = pairLength :=
    funext length_pairText
  rw [fitPairs, hcost, fitting_map]
  rfl

theorem length_entryFront (tv : Timeval) (identity : Option CStr) (severity : Severity)
    (pairs : List (CStr × CStr)) :
    (entryFront (pipeBuf - 1) tv identity severity (pairs.map stored)).length =
      frontLength (headLength tv identity severity)
        (keptPairs (headLength tv identity severity) pairs) := by
  rw [entryFront_eq tv identity severity _ (by decide), length_entryHead, fitPairs_stored,
    List.length_append, List.length_append, length_entryHead, length_mdcText, ← total_pairLength]
  simp [frontLength, total, Function.comp_def]

/-- The bytes that `format_identity` keeps are whole characters. -/
theorem identityShown_escaped {identity : CStr} (h : ¬SplitsPair identity.bytes) :
    identityShown (some (CStr.escaped identity)) =
      escapeText (fitPrefix identityMaxLength identity.bytes) := by
  obtain ⟨shown, hshown, htake⟩ := take_escapeText h
  have hlength := length_escapeText_fitPrefix identityMaxLength identity.bytes
  have hfit : escapeText (fitPrefix identityMaxLength identity.bytes) <+: escapeText shown := by
    rw [← htake, List.prefix_take_iff]
    exact ⟨(fitPrefix_isPrefix _ _).flatMap _, hlength⟩
  have hroom : total (fun c => (escapeByte c).length) shown ≤ identityMaxLength := by
    rw [← length_escapeText, ← htake]
    exact List.length_take_le _ _
  have hback : escapeText shown <+: escapeText (fitPrefix identityMaxLength identity.bytes) :=
    (isPrefix_fitting _ hshown hroom).flatMap _
  calc identityShown (some (CStr.escaped identity)) = escapeText shown := htake
    _ = _ := (hfit.eq_of_length_le hback.length_le).symm

theorem decode_entryText {identity : CStr} (hsplits : ¬SplitsPair identity.bytes)
    {pairs : List (CStr × CStr)} (hclean : ∀ pair ∈ pairs, Clean pair.1.bytes) (tv : Timeval)
    (severity : Severity) {text : List UInt8} (hnul : 0 ∉ text)
    (hroom : ¬FillsRoom (pipeBuf - 1) tv (some (CStr.escaped identity)) severity
      (pairs.map stored)) :
    decode (entryText (pipeBuf - 1) tv (some (CStr.escaped identity)) severity (pairs.map stored)
      text) = some (recordOf identity pairs severity tv text).value := by
  have hmin : minBufferLength ≤ pipeBuf - 1 := by decide
  have hfront := (room_iff tv _ severity _ hmin).mpr hroom
  obtain ⟨-, hcritName, hidName, -, -⟩ := clean_ascii_names
  obtain ⟨hts, hcritText, hidText, hmdc, hmsg, hquote, hcomma⟩ := ascii_names
  have hkept : ∀ pair ∈ keptPairs (headLength tv (some (CStr.escaped identity)) severity) pairs,
      Clean pair.1.bytes := fun pair hpair =>
    hclean pair ((fitting_isPrefix _ _ _).subset hpair)
  have hmembers := parses_escaped (fitPrefix identityMaxLength identity.bytes) hidName
    (parses_mdcOn hkept (recordOf identity pairs severity tv text).msg)
  cases hcrit : severity.val with
  | none =>
    have hvalue := decode_timestamp (timestamp tv) hmembers
    rw [entry_eq_unnamed tv hcrit _ hmin hfront hnul, length_entryFront, length_entryHead,
      fitPairs_stored, identityShown_escaped hsplits, hts, hidText, mdcText, hmdc, hmsg, hquote,
      hcomma]
    simp only [stringOn, mdcOn, List.append_assoc, List.cons_append, List.nil_append] at hvalue ⊢
    rw [Record.value]
    simp only [recordOf, hcrit] at hvalue ⊢
    exact hvalue
  | some crit =>
    have hvalue := decode_timestamp (timestamp tv) (parses_escaped crit hcritName hmembers)
    rw [entry_eq tv hcrit _ hmin hfront hnul, length_entryFront, length_entryHead,
      fitPairs_stored, identityShown_escaped hsplits, hts, hcritText, hidText, mdcText, hmdc, hmsg,
      hquote, hcomma]
    rw [escapeText_of_clean (clean_severity hcrit)] at hvalue
    simp only [stringOn, mdcOn, List.append_assoc, List.cons_append, List.nil_append] at hvalue ⊢
    rw [Record.value]
    simp only [recordOf, hcrit] at hvalue ⊢
    exact hvalue

/-! The program's side of a run. -/

/-- The MDC calls that `update_mdclog_array` makes for a key, as it finds or does not
find one. -/
def replaceCalls (key value : CStr) : List Call :=
  [.remove (some key), .add (some key) (some value)]

def fieldCalls (env : Environment) (name : CStr) : List Call :=
  match env.getenv name with
  | some value => replaceCalls name value
  | none => [.add (some name) (some (.ofString ""))]

def formatCalls (env : Environment) : List Call :=
  match pidText env.getpid with
  | some pid => logFields.flatMap (fieldCalls env) ++ replaceCalls (.ofString "PID") pid
  | none => []

/-- The MDC calls that a call of the program amounts to. -/
def mdcCalls (formatDone : Bool) : ApiCall → List Call
  | .mdcAdd key value => [.add key value]
  | .mdcRemove key => [.remove key]
  | .mdcClean => [.clean]
  | .formatInitialize _ env => if formatDone then [] else formatCalls env
  | _ => []

/-- The logger, and the identity and the pairs as the program gave them. -/
structure Journal (T : Type) where
  logger : Logger T
  identity : CStr
  pairs : T → List (CStr × CStr)

def Journal.initial (progname : CStr) : Journal T :=
  ⟨.initial (CStr.escaped progname), progname, fun _ => []⟩

/-- The identity after a call, from the one before it and those of the attributes. -/
def callIdentity (name : CStr) (attrs : Nat → Option (Option CStr)) (identity : CStr) :
    ApiCall → CStr
  | .init none => name
  | .init (some attr) => (attrs attr).join.getD name
  | _ => identity

def Journal.identityAfter (progname : CStr) (j : Journal T) : Action T → CStr
  | .event (.call _ made _) => callIdentity progname j.logger.attrs j.identity made
  | .libClean _ => progname
  | _ => j.identity

def Journal.pairsAfter [DecidableEq T] (j : Journal T) : Action T → T → List (CStr × CStr)
  | .event (.call t made _) => Function.update j.pairs t
      ((mdcCalls j.logger.formatDone made).foldl (fun pairs call => Call.added call pairs)
        (j.pairs t))
  | _ => j.pairs

/-- The entry that an action asks for: one that the level lets through and that does not
fill its room. -/
def Journal.records (j : Journal T) : Action T → List Record
  | .event (.call t (.write severity message) _) =>
      match message.call with
      | .failure _ _ _ => []
      | .output bytes _ =>
          if j.logger.level.code < severity.code ∨ FillsRoom (pipeBuf - 1) message.tv
            (some (CStr.escaped j.identity)) severity ((j.pairs t).map stored) then []
          else [recordOf j.identity (j.pairs t) severity message.tv bytes]
  | _ => []

structure Journal.Notes [DecidableEq T] (progname : CStr) (j : Journal T) (action : Action T)
    (records : List Record) (j' : Journal T) : Prop where
  acts : ∃ added, j.logger.Acts (CStr.escaped progname) action added j'.logger
  identity : j'.identity = j.identityAfter progname action
  pairs : j'.pairs = j.pairsAfter action
  records : records = j.records action

/-- The logger has escaped what the program gave. -/
structure Journal.Kept (j : Journal T) : Prop where
  identity : j.logger.identity = CStr.escaped j.identity
  splits : ¬SplitsPair j.identity.bytes
  attrs : ∀ attr id, j.logger.attrs attr = some (some id) → Clean id.bytes
  stores : ∀ t, (j.logger.stores t).pairs = (j.pairs t).map stored

theorem foldl_stored (calls : List Call) {store : Store} {pairs : List (CStr × CStr)}
    (h : store.pairs = pairs.map stored) :
    (after store calls).pairs =
      (calls.foldl (fun pairs call => Call.added call pairs) pairs).map stored := by
  induction calls generalizing store pairs with
  | nil => exact h
  | cons call calls ih => exact ih (run_stored call h)

theorem after_append (store : Store) (calls later : List Call) :
    after store (calls ++ later) = after (after store calls) later :=
  List.foldl_append

theorem after_fieldCalls (env : Environment) (store : Store) (name : CStr) :
    after store (fieldCalls env name) = setField env store name := by
  unfold fieldCalls setField
  cases env.getenv name <;> rfl

theorem after_formatCalls {env : Environment} {pid : CStr} (hpid : pidText env.getpid = some pid)
    (store : Store) : after store (formatCalls env) = formatted env pid store := by
  have hfields : ∀ (names : List CStr) (store : Store),
      after store (names.flatMap (fieldCalls env)) = names.foldl (setField env) store := by
    intro names
    induction names with
    | nil => exact fun _ => rfl
    | cons name names ih =>
      intro store
      rw [List.flatMap_cons, after_append, after_fieldCalls, ih, List.foldl_cons]
  simp only [formatCalls, hpid]
  rw [after_append, hfields]
  rfl

/-- Nothing, or the line of `update_mdc_log_level_severity` that is no entry. -/
def Remark (printed : List Output) : Prop := printed = [] ∨ printed = [.printf levelMessage]

theorem levelMessage_line : levelMessage.dropLast ++ [newline] = levelMessage ∧
    newline ∉ levelMessage.dropLast ∧ decode levelMessage.dropLast = none := by
  decide +kernel

/-- These pieces bring these values. -/
def Brings (pieces : List Output) (brought : List Value) : Prop :=
  pieces.flatMap values = brought ∧ ∀ piece ∈ pieces, Tidy piece

theorem brings_nil : Brings [] [] := ⟨rfl, nofun⟩

theorem Brings.append {pieces more : List Output} {brought later : List Value}
    (h : Brings pieces brought) (hmore : Brings more later) :
    Brings (pieces ++ more) (brought ++ later) := by
  refine ⟨by rw [List.flatMap_append, h.1, hmore.1], fun piece hpiece => ?_⟩
  rcases List.mem_append.mp hpiece with hold | hnew
  · exact h.2 piece hold
  · exact hmore.2 piece hnew

theorem Remark.brings {printed : List Output} (h : Remark printed) : Brings printed [] := by
  obtain ⟨hline, hnewline, hdecode⟩ := levelMessage_line
  rcases h with rfl | rfl
  · exact brings_nil
  · refine ⟨rfl, List.forall_mem_singleton.mpr ⟨.inr ⟨_, hline.symm⟩, ?_⟩⟩
    rw [← hline, readLog_line hnewline, hdecode]
    rfl

/-- What reading a config map leaves as it is. -/
structure Aside (l l' : Logger T) (printed : List Output) : Prop where
  identity : l'.identity = l.identity
  attrs : l'.attrs = l.attrs
  stores : l'.stores = l.stores
  remark : Remark printed

section aside
variable {l l' : Logger T} {printed : List Output}

theorem Aside.silent (hidentity : l'.identity = l.identity) (hattrs : l'.attrs = l.attrs)
    (hstores : l'.stores = l.stores) : Aside l l' [] :=
  ⟨hidentity, hattrs, hstores, .inl rfl⟩

theorem readLevel_aside {reading : Reading}
    (h : l.readLevel reading = some (printed, l')) : Aside l l' printed := by
  obtain ⟨token, -, h⟩ := Option.bind_eq_some_iff.mp h
  cases h
  refine ⟨rfl, rfl, rfl, ?_⟩
  cases token with
  | none =>
    have hline := levelMessage_line.1
    refine .inr (if_neg fun hnil => ?_)
    rw [show levelMessage = [] from hnil] at hline
    simp at hline
  | some level =>
    have hsilent : (updateMdcLogLevelSeverity (some level)).2 = [] := by
      simp only [updateMdcLogLevelSeverity]
      split_ifs <;> rfl
    exact .inl (if_pos hsilent)

theorem configMap_aside {logfileMonitor code : Int} {env : Environment} {fileName : CStr}
    (h : l.configMap logfileMonitor env fileName = some (code, printed, l')) :
    Aside l l' printed := by
  obtain ⟨⟨out, l₁⟩, hread, h⟩ := Option.map_eq_some_iff.mp h
  have haside := readLevel_aside hread
  dsimp only at h
  split at h
  · cases h
    exact haside
  · cases h
    unfold Logger.watch
    split
    · exact ⟨haside.identity, haside.attrs, haside.stores, haside.remark⟩
    · exact haside

theorem monitorStep_aside {index : Nat} {watched : Bool} {event : Option Reading}
    (h : l.monitorStep index watched event = some (printed, l')) : Aside l l' printed := by
  obtain ⟨monitor, -, h⟩ := Option.bind_eq_some_iff.mp h
  split at h
  · cases hname : monitor.fileName with
    | none =>
      simp only [hname] at h
      cases h
    | some fileName =>
      simp only [hname] at h
      split_ifs at h <;> cases h <;> exact .silent rfl rfl rfl
  · split_ifs at h <;> cases h <;> exact .silent rfl rfl rfl
  · cases event with
    | none =>
      cases h
      exact .silent rfl rfl rfl
    | some reading =>
      have haside := readLevel_aside h
      exact ⟨haside.identity, haside.attrs, haside.stores, haside.remark⟩

theorem formatInitialize_aside [DecidableEq T] {t : T} {logfileMonitor code : Int}
    {env : Environment} (h : l.formatInitialize t logfileMonitor env = some (code, printed, l')) :
    Aside (l.setStore t (after (l.stores t)
      (mdcCalls l.formatDone (.formatInitialize logfileMonitor env)))) l' printed := by
  unfold Logger.formatInitialize at h
  cases hdone : l.formatDone with
  | true =>
    rw [if_pos hdone] at h
    cases h
    exact .silent rfl rfl (by simp [mdcCalls, after])
  | false =>
    rw [if_neg (by simp [hdone])] at h
    obtain ⟨pid, hpid, h⟩ := Option.bind_eq_some_iff.mp h
    rw [mdcCalls, if_neg Bool.false_ne_true, after_formatCalls hpid]
    cases hfile : env.getenv logFileConfigMap with
    | none =>
      rw [hfile] at h
      cases h
      exact .silent rfl rfl rfl
    | some fileName =>
      rw [hfile] at h
      exact configMap_aside h

end aside

/-! One step. -/

def isWrite : ApiCall → Bool
  | .write _ _ => true
  | _ => false

/-- What a call does to the texts of the logger. -/
structure Effect [DecidableEq T] (name : CStr) (l : Logger T) (t : T) (made : ApiCall)
    (added : List Output) (l' : Logger T) : Prop where
  stores : l'.stores = (l.setStore t (after (l.stores t) (mdcCalls l.formatDone made))).stores
  identity : l'.identity = callIdentity name l.attrs l.identity made
  attrs : ∀ attr id, l'.attrs attr = some (some id) →
    l.attrs attr = some (some id) ∨ Clean id.bytes
  remark : isWrite made = false → Remark added

theorem setAttr_attrs {l : Logger T} {address : Nat} {value : Option (Option CStr)}
    (hvalue : ∀ id, value = some (some id) → Clean id.bytes) (attr : Nat) (id : CStr)
    (h : (l.setAttr address value).attrs attr = some (some id)) :
    l.attrs attr = some (some id) ∨ Clean id.bytes := by
  by_cases hattr : attr = address
  · subst hattr
    exact .inr (hvalue id (by simpa [Logger.setAttr] using h))
  · exact .inl (by simpa [Logger.setAttr, Function.update_of_ne hattr] using h)

theorem attrSetIdent_cases {l l' : Logger T} {attr : Option Nat} {identity : Option CStr}
    {code : Int} (h : l.attrSetIdent attr identity = some (code, l')) :
    l' = l ∨ ∃ address id, l' = l.setAttr address (some (some id)) ∧ Clean id.bytes := by
  cases attr with
  | none =>
    cases h
    exact .inl rfl
  | some attr =>
    cases identity with
    | none =>
      cases h
      exact .inl rfl
    | some id =>
      dsimp only [Logger.attrSetIdent] at h
      split at h
      next =>
        cases h
        exact .inl rfl
      next hgood =>
        obtain ⟨-, -, heq⟩ := Option.map_eq_some_iff.mp h
        cases heq
        simp only [Bool.or_eq_true, not_or, Bool.not_eq_true] at hgood
        exact .inr ⟨attr, id, rfl, (clean_iff id).mp hgood.1⟩

section calls
variable [DecidableEq T] {name : CStr} {l l' : Logger T} {t : T} {made : ApiCall}

/-- A call that is not about MDCs, and prints nothing. -/
theorem Effect.apart {added : List Output} (hcalls : mdcCalls l.formatDone made = [])
    (hstores : l'.stores = l.stores)
    (hidentity : l'.identity = callIdentity name l.attrs l.identity made)
    (hattrs : ∀ attr id, l'.attrs attr = some (some id) →
      l.attrs attr = some (some id) ∨ Clean id.bytes)
    (hadded : isWrite made = false → added = []) :
    Effect name l t made added l' where
  stores := by simp [hcalls, after, hstores]
  identity := hidentity
  attrs := hattrs
  remark hmade := .inl (hadded hmade)

theorem call_effect {result : Result} {added : List Output}
    (h : l.call name t made = some (result, added, l')) : Effect name l t made added l' := by
  have hsame : ∀ attr id, l.attrs attr = some (some id) →
      l.attrs attr = some (some id) ∨ Clean id.bytes := fun _ _ h => .inl h
  cases made with
  | write severity message =>
    obtain ⟨out, -, h⟩ := Option.bind_eq_some_iff.mp h
    cases h
    exact .apart rfl rfl rfl hsame nofun
  | levelSet level =>
    cases h
    exact .apart rfl rfl rfl hsame fun _ => rfl
  | attrInit address =>
    obtain ⟨l₁, hl₁, h⟩ := Option.bind_eq_some_iff.mp h
    cases h
    unfold Logger.attrInit at hl₁
    split at hl₁
    · cases hl₁
    · cases hl₁
      exact .apart rfl rfl rfl (setAttr_attrs nofun) fun _ => rfl
  | attrDestroy attr =>
    obtain ⟨l₁, hl₁, h⟩ := Option.bind_eq_some_iff.mp h
    cases h
    cases attr with
    | none =>
      cases hl₁
      exact .apart rfl rfl rfl hsame fun _ => rfl
    | some attr =>
      obtain ⟨-, -, rfl⟩ := Option.map_eq_some_iff.mp hl₁
      exact .apart rfl rfl rfl (setAttr_attrs nofun) fun _ => rfl
  | attrSetIdent attr identity =>
    obtain ⟨⟨code, l₁⟩, hl₁, h⟩ := Option.bind_eq_some_iff.mp h
    cases h
    obtain rfl | ⟨address, id, rfl, hid⟩ := attrSetIdent_cases hl₁
    · exact .apart rfl rfl rfl hsame fun _ => rfl
    · refine .apart rfl rfl rfl (setAttr_attrs ?_) fun _ => rfl
      rintro _ ⟨⟩
      exact hid
  | init attr =>
    obtain ⟨l₁, hl₁, h⟩ := Option.bind_eq_some_iff.mp h
    cases h
    cases attr with
    | none =>
      cases hl₁
      exact .apart rfl rfl rfl hsame fun _ => rfl
    | some attr =>
      obtain ⟨given, hgiven, hl₁⟩ := Option.bind_eq_some_iff.mp hl₁
      cases hl₁
      refine .apart rfl rfl ?_ (setAttr_attrs nofun) fun _ => rfl
      rw [callIdentity, hgiven]
      rfl
  | mdcAdd key value =>
    cases h
    exact ⟨rfl, rfl, hsame, fun _ => .inl rfl⟩
  | mdcGet key =>
    cases h
    exact .apart rfl rfl rfl hsame fun _ => rfl
  | mdcRemove key =>
    cases h
    exact ⟨rfl, rfl, hsame, fun _ => .inl rfl⟩
  | mdcClean =>
    cases h
    exact ⟨rfl, rfl, hsame, fun _ => .inl rfl⟩
  | formatInitialize logfileMonitor env =>
    obtain ⟨⟨code, printed, l₁⟩, hl₁, h⟩ := Option.bind_eq_some_iff.mp h
    cases h
    have haside := formatInitialize_aside hl₁
    refine ⟨haside.stores, haside.identity, fun attr id hid => ?_, fun _ => haside.remark⟩
    rw [haside.attrs] at hid
    exact .inl hid

end calls

theorem not_splitsPair {text : List UInt8} (h : Clean text) : ¬SplitsPair text := by
  rintro ⟨shown, c, hprefix, -, hc⟩
  have hmem : c ∈ text := hprefix.subset (by simp)
  rw [(h c hmem).2] at hc
  contradiction

/-- `vsnprintf` gives no NUL. -/
def NulFree : Action T → Prop
  | .event made => nulFree made
  | _ => True

theorem entryLine_brings {j : Journal T} (h : j.Kept) (t : T) (severity : Severity) (tv : Timeval)
    {bytes : List UInt8} (hnul : 0 ∉ bytes) (hlevel : ¬j.logger.level.code < severity.code) :
    Brings (entryLine j.logger.identity (j.logger.stores t) severity tv bytes)
      ((if j.logger.level.code < severity.code ∨ FillsRoom (pipeBuf - 1) tv
          (some (CStr.escaped j.identity)) severity ((j.pairs t).map stored) then []
        else [recordOf j.identity (j.pairs t) severity tv bytes]).map Record.value) := by
  have hclean : ∀ pair ∈ j.pairs t, Clean pair.1.bytes := by
    intro pair hpair
    have hstored : stored pair ∈ (j.logger.stores t).pairs := by
      rw [h.stores t]
      exact List.mem_map_of_mem hpair
    exact (j.logger.stores t).clean (stored pair) hstored
  rw [entryLine, h.identity, h.stores t]
  by_cases hfills : FillsRoom (pipeBuf - 1) tv (some (CStr.escaped j.identity)) severity
      ((j.pairs t).map stored)
  · rw [if_pos hfills, if_pos (.inr hfills)]
    exact brings_nil
  · rw [if_neg hfills, if_neg (by simp [hlevel, hfills])]
    have hprint : Printable (entryText (pipeBuf - 1) tv (some (CStr.escaped j.identity)) severity
        ((j.pairs t).map stored) bytes) := by
      rw [← h.stores t]
      refine printable_entryText tv severity bytes (by decide) ?_ (printable_store _)
      rintro _ ⟨⟩
      exact fun c hc => isprint_escapeText _ c hc
    have hline : newline ∉ entryText (pipeBuf - 1) tv (some (CStr.escaped j.identity)) severity
        ((j.pairs t).map stored) bytes := fun hmem =>
      absurd (hprint newline hmem) (by decide)
    refine ⟨?_, List.forall_mem_singleton.mpr (.inr ⟨_, rfl⟩)⟩
    rw [List.flatMap_singleton, values, readLog_line hline,
      decode_entryText h.splits hclean tv severity hnul hfills]
    rfl

section steps
variable [DecidableEq T] {progname : CStr} {j : Journal T} {action : Action T}
  {added : List Output} {l' : Logger T} (h : j.Kept)
  (hacts : j.logger.Acts (CStr.escaped progname) action added l')
include h hacts

theorem acts_identity (hname : ¬SplitsPair progname.bytes) :
    l'.identity = CStr.escaped (j.identityAfter progname action) ∧
      ¬SplitsPair (j.identityAfter progname action).bytes := by
  cases action with
  | event made =>
    cases made with
    | call t made result =>
      have hidentity := (call_effect hacts).identity
      cases made with
      | init attr =>
        cases attr with
        | none => exact ⟨hidentity, hname⟩
        | some attr =>
          rw [hidentity, Journal.identityAfter, callIdentity, callIdentity]
          cases hattr : (j.logger.attrs attr).join with
          | none => exact ⟨rfl, hname⟩
          | some id =>
            have hclean := h.attrs attr id (by simpa using Option.join_eq_some_iff.mp hattr)
            exact ⟨(escaped_of_clean hclean).symm, not_splitsPair hclean⟩
      | _ => exact ⟨hidentity.trans h.identity, h.splits⟩
    | monitor index watched read =>
      exact ⟨(monitorStep_aside hacts).identity.trans h.identity, h.splits⟩
  | levelGet t level =>
    obtain ⟨-, -, rfl⟩ := hacts
    exact ⟨h.identity, h.splits⟩
  | libClean t =>
    obtain ⟨-, rfl⟩ := hacts
    exact ⟨rfl, hname⟩

theorem acts_attrs (attr : Nat) (id : CStr) (hid : l'.attrs attr = some (some id)) :
    Clean id.bytes := by
  cases action with
  | event made =>
    cases made with
    | call t made result =>
      rcases (call_effect hacts).attrs attr id hid with hold | hclean
      · exact h.attrs attr id hold
      · exact hclean
    | monitor index watched read =>
      rw [(monitorStep_aside hacts).attrs] at hid
      exact h.attrs attr id hid
  | levelGet t level =>
    obtain ⟨-, -, rfl⟩ := hacts
    exact h.attrs attr id hid
  | libClean t =>
    obtain ⟨-, rfl⟩ := hacts
    exact h.attrs attr id hid

theorem acts_stores (u : T) : (l'.stores u).pairs = (j.pairsAfter action u).map stored := by
  cases action with
  | event made =>
    cases made with
    | call t made result =>
      rw [(call_effect hacts).stores, Journal.pairsAfter]
      by_cases hu : u = t
      · subst hu
        rw [Logger.setStore_same, Function.update_self]
        exact foldl_stored _ (h.stores u)
      · rw [Logger.setStore_other _ hu, Function.update_of_ne hu]
        exact h.stores u
    | monitor index watched read =>
      rw [(monitorStep_aside hacts).stores]
      exact h.stores u
  | levelGet t level =>
    obtain ⟨-, -, rfl⟩ := hacts
    exact h.stores u
  | libClean t =>
    obtain ⟨-, rfl⟩ := hacts
    exact h.stores u

theorem acts_kept (hname : ¬SplitsPair progname.bytes) :
    Journal.Kept ⟨l', j.identityAfter progname action, j.pairsAfter action⟩ where
  identity := (acts_identity h hacts hname).1
  splits := (acts_identity h hacts hname).2
  attrs := acts_attrs h hacts
  stores := acts_stores h hacts

theorem acts_brings (hnul : NulFree action) :
    Brings added ((j.records action).map Record.value) := by
  cases action with
  | event made =>
    cases made with
    | call t made result =>
      cases made with
      | write severity message =>
        obtain ⟨bytes, hbytes, hcall, hnul⟩ := hnul
        obtain ⟨out, hwrite, hacts⟩ := Option.bind_eq_some_iff.mp hacts
        cases hacts
        simp only [Logger.write, hcall, Option.some.injEq] at hwrite
        subst hwrite
        simp only [Journal.records, hcall]
        by_cases hlevel : j.logger.level.code < severity.code
        · rw [if_pos hlevel, if_pos (.inl hlevel)]
          exact brings_nil
        · rw [if_neg hlevel]
          exact entryLine_brings h t severity message.tv hnul hlevel
      | _ => exact ((call_effect hacts).remark rfl).brings
    | monitor index watched read => exact (monitorStep_aside hacts).remark.brings
  | levelGet t level =>
    obtain ⟨-, rfl, -⟩ := hacts
    exact brings_nil
  | libClean t =>
    obtain ⟨rfl, -⟩ := hacts
    exact brings_nil

end steps

/-! The run. -/

theorem stdout_of_follows [DecidableEq T] {trace : List (Action T × List Output)}
    {s s' : Library T} (h : Follows (Does system) s trace s') :
    s'.output = s.output ++ trace.flatMap Prod.snd := by
  induction h with
  | start => simp
  | step run hstep ih => rw [hstep.output, ih, List.flatMap_append]; simp

theorem noted_of_logger [DecidableEq T] {progname : CStr} (hname : ¬SplitsPair progname.bytes)
    {trace : List (Action T × List Output)} {l : Logger T}
    (h : Follows (Logger.Acts (CStr.escaped progname)) (.initial (CStr.escaped progname)) trace l)
    (hnul : ∀ item ∈ trace, NulFree item.1) :
    ∃ (noted : List (Action T × List Record)) (j : Journal T),
      Follows (Journal.Notes progname) (.initial progname) noted j ∧ j.logger = l ∧ j.Kept ∧
      noted.map Prod.fst = trace.map Prod.fst ∧
      Brings (trace.flatMap Prod.snd) ((noted.flatMap Prod.snd).map Record.value) := by
  induction h with
  | start => exact ⟨[], .initial progname, .start, rfl, ⟨rfl, hname, nofun, fun _ => rfl⟩, rfl,
      brings_nil⟩
  | @step trace action added l₁ l₂ run hstep ih =>
    obtain ⟨noted, j, hnoted, rfl, hkept, hsame, hbrings⟩ :=
      ih fun item hitem => hnul item (by simp [hitem])
    refine ⟨noted ++ [(action, j.records action)],
      ⟨l₂, j.identityAfter progname action, j.pairsAfter action⟩,
      hnoted.step ⟨⟨added, hstep⟩, rfl, rfl, rfl⟩, rfl, acts_kept hkept hstep hname, ?_, ?_⟩
    · rw [List.map_append, List.map_append, hsame]
      rfl
    · have hlast := acts_brings hkept hstep (hnul (action, added) (by simp))
      simp only [List.flatMap_append, List.flatMap_singleton, List.map_append]
      exact hbrings.append hlast

/-- The JSON values in the output are the entries that the calls asked for, one behind
the other: the time, the severity, the identity of the latest `mdclog_init`, the pairs of
the calling thread that fit, as it set them, and the message or the part of it that
fits. A remark of `printf` may come late, but not in the middle of a line. -/
theorem log_reads_back [DecidableEq T] (hmalloc : ∀ n, system.malloc n = true)
    (hname : ¬SplitsPair system.progname.bytes) {trace : List (Action T × List Output)}
    {s : Library T} (h : Follows (Does system) .initial trace s)
    (hnul : ∀ item ∈ trace, NulFree item.1) :
    ∃ (noted : List (Action T × List Record)) (j : Journal T),
      Follows (Journal.Notes system.progname) (.initial system.progname) noted j ∧
      noted.map Prod.fst = trace.map Prod.fst ∧ Stands system s j.logger ∧
      Delivers WholeLines s.output (stdout s) [] ∧
      ∀ file held, Delivers WholeLines s.output file held →
        readLog file = (noted.flatMap Prod.snd).map Record.value := by
  obtain ⟨l, hlogger, hstands⟩ := logger_of_library hmalloc stands_initial h
  obtain ⟨noted, j, hnoted, rfl, -, hsame, hbrings⟩ := noted_of_logger hname hlogger hnul
  have houtput : s.output = trace.flatMap Prod.snd := stdout_of_follows h
  rw [← houtput] at hbrings
  refine ⟨noted, j, hnoted, hsame, hstands, delivers_at_once hbrings.2, ?_⟩
  intro file held hdelivers
  obtain ⟨-, -, -, hreads⟩ := readLog_delivered hdelivers hbrings.2
  rw [hreads, hbrings.1]

def tabbed : Message := ⟨⟨1, 0⟩, fun _ => 0, fun _ => 0, .output (ascii "a\tb") (by decide)⟩

/-- An entry of a process whose name has a quote in it. -/
def quoted : Action Unit := .event (.call () (.write .err tabbed) .done)

def quotedRecord : Record := ⟨1000, some (ascii "ERROR"), ascii "p\"", [], ascii "a\tb"⟩

theorem records_quoted : (Journal.initial (.ofString "p\"")).records quoted = [quotedRecord] := by
  decide +kernel

theorem log_reads_back_quoted : ∃ (out : List Output) (s : Library Unit),
    Follows (Does ⟨.ofString "p\"", fun _ => true⟩) .initial [(quoted, out)] s ∧
      Delivers WholeLines s.output (stdout s) [] ∧ readLog (stdout s) = [quotedRecord.value] := by
  have hlogger : Follows (Logger.Acts (CStr.escaped (.ofString "p\"")))
      (.initial (CStr.escaped (.ofString "p\""))) [(quoted, entryLine
        (CStr.escaped (.ofString "p\"")) .empty .err tabbed.tv (ascii "a\tb"))]
      (.initial (CStr.escaped (.ofString "p\""))) :=
    Follows.start.step (by rfl)
  have hstands : Stands ⟨.ofString "p\"", fun _ => true⟩ (Library.initial : Library Unit)
      (.initial (CStr.escaped (.ofString "p\""))) := stands_initial
  obtain ⟨s, hrun, -⟩ := library_of_logger (fun _ => rfl) hstands hlogger
  have hname : ¬SplitsPair (CStr.ofString "p\"").bytes := by
    rintro ⟨shown, c, hshort, hlength, -⟩
    have hle : (escapeText shown).length ≤ (escapeText (CStr.ofString "p\"").bytes).length :=
      (((List.prefix_append shown [c]).trans hshort).flatMap escapeByte).length_le
    rw [hlength] at hle
    exact absurd hle (by decide)
  obtain ⟨noted, j, hnoted, hsame, -, hatOnce, hreads⟩ := log_reads_back (fun _ => rfl) hname hrun
    (List.forall_mem_singleton.mpr ⟨_, _, rfl, by decide⟩)
  obtain ⟨⟨action, records⟩, rfl, rfl⟩ := List.map_eq_singleton_iff.mp hsame
  obtain ⟨j₀, hstart, hstep⟩ := follows_snoc.mp
    (show Follows _ _ ([] ++ [(quoted, records)]) j from hnoted)
  obtain rfl := follows_nil.mp hstart
  refine ⟨_, s, hrun, hatOnce, ?_⟩
  rw [hreads _ _ hatOnce, List.flatMap_singleton, hstep.records, records_quoted]
  rfl

end Mdclog.LogReader
