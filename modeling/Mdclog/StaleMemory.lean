import Mathlib.Data.List.Forall2
import Mdclog.FormatSafety
import Mdclog.Payload

/-! The bytes that the buffers of `mdclog_write` hold before they are written, over whole
runs. -/
namespace Mdclog.StaleMemory
open Foundation.ByteBuffer Foundation.StateProgram
open CString Escape JsonFormat LogEntry MdcStore Api WriteRun FormatSafety Payload

variable {T : Type} {system : System}

/-- The end of `mdclog_write` with the bytes its buffers hold. -/
def writeEntry (stack : Nat → UInt8) (malloc : Option (Nat → UInt8)) (tv : Timeval)
    (identity : Option CStr) (severity : Severity) (mdc : List (CStr × CStr))
    (call : Vsnprintf) : Program T Unit := do
  let (buffer, len) ← liftM (mdclogInternalFormatToJsonStr (fresh stack pipeBuf) (pipeBuf - 1) tv
    identity severity mdc malloc call)
  emit buffer len

theorem mdclogWrite_eq [DecidableEq T] (t : T) (severity : Severity) (message : Message) :
    mdclogWrite system t severity message = (do
      let s ← get
      if s.currentLevel.code < severity.code then return
      else
        initLibrary system none
        let mdc ← firstMdc system t message.tv severity
        let s ← get
        let ok ← allocate system
        writeEntry message.stack (if ok then some message.heap else none) message.tv s.identity
          severity mdc message.call) := rfl

section entry
variable (stack : Nat → UInt8) (tv : Timeval) (identity : Option CStr) (severity : Severity)
  (mdc : List (CStr × CStr)) {bytes : List UInt8} {hbytes : bytes.length ≤ intMax}

/-- What is written, from what is to be written alone. -/
theorem writeEntry_eq (heap : Nat → UInt8) :
    (writeEntry stack (some heap) tv identity severity mdc (.output bytes hbytes) :
      Program T Unit) =
      if (entryFront (pipeBuf - 1) tv identity severity mdc).length + 20 < pipeBuf - 1 then
        modify fun s => { s with output := s.output ++
          [.write (entryText (pipeBuf - 1) tv identity severity mdc bytes ++ [ConfigMap.newline])] }
      else return := by
  obtain ⟨rest, hformat⟩ := mdclogInternalFormatToJsonStr_eq (fresh stack pipeBuf) tv identity
    severity mdc heap bytes hbytes (by decide : minBufferLength ≤ pipeBuf - 1) (by decide)
    (by rw [length_fresh]; decide)
  unfold writeEntry
  rw [hformat]
  by_cases hroom : (entryFront (pipeBuf - 1) tv identity severity mdc).length + 20 < pipeBuf - 1
  · rw [if_pos hroom, if_pos hroom]
    funext s
    exact emit_run s _ rest (by simp [entryText])
  · rw [if_neg hroom, if_neg hroom]
    rfl

theorem writeEntry_none :
    (writeEntry stack none tv identity severity mdc (.output bytes hbytes) : Program T Unit) =
      return := by
  have hbuffer : pipeBuf - 1 ≤ (fresh stack pipeBuf).length := by
    rw [length_fresh]
    decide
  obtain ⟨result, r, hformat⟩ := formatLogEntry_returns (by decide : 21 ≤ pipeBuf - 1) (by decide)
    hbuffer tv identity severity mdc none bytes hbytes
  have hr := formatLogEntry_of_malloc_none hformat
  have hlen : ¬pipeBuf - 1 < minBufferLength := by decide
  unfold writeEntry mdclogInternalFormatToJsonStr
  rw [if_neg hlen, hformat, hr]
  rfl

end entry

/-- The same event, where the buffers may hold other bytes. -/
inductive OtherBytes : Event T → Event T → Prop where
  | same (event : Event T) : OtherBytes event event
  | write {t : T} {severity : Severity} {message message' : Message} {result : Result}
      (htv : message'.tv = message.tv) (hcall : message'.call = message.call) :
      OtherBytes (.call t (.write severity message) result)
        (.call t (.write severity message') result)

theorem mdclogWrite_congr [DecidableEq T] (t : T) (severity : Severity) {message message' : Message}
    (htv : message'.tv = message.tv) (hcall : message'.call = message.call)
    (hformats : ∃ bytes hbytes, message.call = .output bytes hbytes) :
    mdclogWrite system t severity message' = mdclogWrite system t severity message := by
  obtain ⟨bytes, hbytes, houtput⟩ := hformats
  have hentry : ∀ ok identity mdc,
      (writeEntry message'.stack (if ok = true then some message'.heap else none) message.tv identity
        severity mdc (.output bytes hbytes) : Program T Unit) =
      writeEntry message.stack (if ok = true then some message.heap else none) message.tv identity
        severity mdc (.output bytes hbytes) := by
    intro ok identity mdc
    cases ok with
    | true => simp only [if_true, writeEntry_eq]
    | false => simp only [Bool.false_eq_true, if_false, writeEntry_none]
  simp only [mdclogWrite_eq, htv, hcall, houtput, hentry]

theorem OtherBytes.happens [DecidableEq T] {event event' : Event T} (h : OtherBytes event event')
    (hformats : formats event) {s s' : Library T} (happens : event.Happens system s s') :
    formats event' ∧ event'.Happens system s s' := by
  cases h with
  | same => exact ⟨hformats, happens⟩
  | write htv hcall =>
    refine ⟨by rwa [formats, hcall], ?_⟩
    simp only [Event.Happens, ApiCall.run] at happens ⊢
    rwa [mdclogWrite_congr _ _ htv hcall hformats]

/-- Whatever bytes the buffers of the calls of `mdclog_write` held before, every call has
the same result and the library writes the same: none of these bytes gets out. -/
theorem stale_bytes_unseen [DecidableEq T] {events events' : List (Event T)} {s : Library T}
    (hrun : Run system (fun _ event => formats event) events s)
    (h : List.Forall₂ OtherBytes events events') :
    Run system (fun _ event => formats event) events' s := by
  induction hrun generalizing events' with
  | start =>
    cases h
    exact .start
  | @step events event s s' run hmay happens ih =>
    rw [← List.forall₂_reverse_iff, List.reverse_append, List.reverse_singleton,
      List.singleton_append] at h
    obtain ⟨last, front, hlast, hfront, heq⟩ := List.forall₂_cons_left_iff.mp h
    have hevents' : events' = front.reverse ++ [last] := by
      rw [← List.reverse_reverse events', heq, List.reverse_cons]
    rw [hevents']
    obtain ⟨hmay', happens'⟩ := hlast.happens hmay happens
    refine .step (ih ?_) hmay' happens'
    rw [← List.forall₂_reverse_iff, List.reverse_reverse]
    exact hfront

/-- A first call, with its buffers filled by `byte`. -/
def greeting (byte : UInt8) : Message :=
  ⟨⟨1, 0⟩, fun _ => byte, fun _ => byte, .output (ascii "hello") (by decide)⟩

theorem stale_bytes_unseen_first :
    ∃ s : Library Unit, s.output ≠ [] ∧
      Run ⟨.ofString "prog", fun _ => true⟩ (fun _ event => formats event)
        [.call () (.write .err (greeting 0x73)) .done] s := by
  obtain ⟨s, hwrite, houtput⟩ := @mdclogWrite_run Unit ⟨.ofString "prog", fun _ => true⟩ _
    (fun _ => rfl) Library.initial () (by simp [Library.initial]) .err (Nat.le_refl 1) (greeting 0)
    _ _ rfl
  rw [if_neg (EntryRoom.not_fillsRoom _ _ _ (by decide))] at houtput
  have happens : (Event.call () (.write .err (greeting 0)) .done).Happens
      ⟨.ofString "prog", fun _ => true⟩ Library.initial s := by
    change (mdclogWrite _ _ _ _ >>= fun _ => pure Result.done).run _ = _
    rw [StateT.run_bind, hwrite]
    rfl
  have hrun : Run ⟨.ofString "prog", fun _ => true⟩ (fun _ event => formats event)
      [.call () (.write .err (greeting 0)) .done] s := .step .start ⟨_, _, rfl⟩ happens
  exact ⟨s, by simp [houtput], stale_bytes_unseen hrun (.cons (.write rfl rfl) .nil)⟩

end Mdclog.StaleMemory
