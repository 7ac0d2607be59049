import Mdclog.ApiFrame
import Mdclog.EntryBytes
import Mdclog.WriteRun

/-! What `mdclog_write` passes to `write` is always one short line of printable
characters. -/
namespace Mdclog.Payload
open Foundation.ByteBuffer Foundation.StateProgram
open CString Escape JsonFormat LogEntry ConfigMap MdcStore Api ApiFrame WriteRun EntryBytes

/-- At most `PIPE_BUF` bytes, a newline at the end and only printable ASCII
characters in front of it. -/
def Line (payload : List UInt8) : Prop :=
  payload.length ≤ pipeBuf ∧
    ∃ body, payload = body ++ [newline] ∧ ∀ b ∈ body, 0x20 ≤ b ∧ b ≤ 0x7e

section invariant
variable {T : Type} {system : System}

/-- Every text the formatter may get is printable, and every payload so far was a
line. A list can only be broken by an allocation that failed. -/
structure Sane (system : System) (s : Library T) : Prop where
  identity : ∀ id ∈ s.identity, Printable id.bytes
  attrs : ∀ attr id, s.attrs attr = some (some id) → Printable id.bytes
  lines : ∀ payload, Output.write payload ∈ s.output → Line payload
  whole : (∀ n, system.malloc n = true) → ∀ t list, s.mdcs t = some list → list.broken = false

theorem sane_initial : Sane system (Library.initial : Library T) where
  identity := by simp [Library.initial]
  attrs := by simp [Library.initial]
  lines := by simp [Library.initial]
  whole := by simp [Library.initial]

variable {s : Library T}

theorem Sane.setAttr (h : Sane system s) (attr : Nat) {value : Option (Option CStr)}
    (hvalue : ∀ id, value = some (some id) → Printable id.bytes) :
    Sane system { s with attrs := Function.update s.attrs attr value } := by
  refine ⟨h.identity, fun a id ha => ?_, h.lines, h.whole⟩
  by_cases hattr : a = attr
  · subst hattr
    exact hvalue id (by simpa using ha)
  · exact h.attrs a id (by simpa [hattr] using ha)

theorem Sane.setIdentity (h : Sane system s) {identity : Option CStr} (initDone : Bool)
    (hidentity : ∀ id ∈ identity, Printable id.bytes) :
    Sane system { s with identity := identity, initDone := initDone } :=
  ⟨hidentity, h.attrs, h.lines, h.whole⟩

theorem Sane.addOutput (h : Sane system s) {added : List Output}
    (hadded : ∀ payload, Output.write payload ∈ added → Line payload) :
    Sane system { s with output := s.output ++ added } := by
  refine ⟨h.identity, h.attrs, fun payload hmem => ?_, h.whole⟩
  rcases List.mem_append.mp hmem with hold | hnew
  · exact h.lines payload hold
  · exact hadded payload hnew

/-! The formatter's entry and the newline behind it. -/

/-- A positive length comes with the entry it belongs to. -/
theorem format_pos {stack : Nat → UInt8} {tv : Timeval} {identity : Option CStr}
    {severity : Severity} {mdc : List (CStr × CStr)} {malloc : Option (Nat → UInt8)}
    {bytes : List UInt8} {hbytes : bytes.length ≤ intMax} {buffer : Buffer} {len : Int}
    (hformat : mdclogInternalFormatToJsonStr (fresh stack pipeBuf) (pipeBuf - 1) tv identity
      severity mdc malloc (.output bytes hbytes) = some (buffer, len)) (hpos : 0 < len) :
    ∃ rest, buffer = entryText (pipeBuf - 1) tv identity severity mdc bytes ++ 0 :: rest ∧
      len = (entryText (pipeBuf - 1) tv identity severity mdc bytes).length ∧
      (entryFront (pipeBuf - 1) tv identity severity mdc).length + 20 < pipeBuf - 1 := by
  cases malloc with
  | none =>
    rw [mdclogInternalFormatToJsonStr, if_neg (by decide)] at hformat
    rw [formatLogEntry_of_malloc_none hformat] at hpos
    omega
  | some contents =>
    obtain ⟨rest, hresult⟩ := mdclogInternalFormatToJsonStr_eq (fresh stack pipeBuf) tv identity
      severity mdc contents bytes hbytes (by decide : minBufferLength ≤ pipeBuf - 1) (by decide)
      (by rw [length_fresh]; decide)
    rw [hformat] at hresult
    split at hresult
    · rename_i hroom
      obtain ⟨rfl, rfl⟩ := Prod.mk.inj (Option.some.inj hresult)
      exact ⟨rest, rfl, rfl, hroom⟩
    · obtain ⟨-, rfl⟩ := Prod.mk.inj (Option.some.inj hresult)
      omega

theorem line_entry {entry : List UInt8} (hprint : Printable entry)
    (hlength : entry.length < pipeBuf - 1) : Line (entry ++ [newline]) := by
  refine ⟨?_, entry, rfl, fun b hb => ?_⟩
  · rw [List.length_append, List.length_singleton]
    omega
  · have hb := hprint b hb
    simpa [isprint] using hb

theorem emit_sane (h : Sane system s) {mdc : List (CStr × CStr)} (hmdc : PrintablePairs mdc)
    {stack : Nat → UInt8} {tv : Timeval} {severity : Severity} {malloc : Option (Nat → UInt8)}
    {bytes : List UInt8} {hbytes : bytes.length ≤ intMax} {buffer : Buffer} {len : Int}
    {identity : Option CStr} (hidentity : ∀ id ∈ identity, Printable id.bytes)
    (hformat : mdclogInternalFormatToJsonStr (fresh stack pipeBuf) (pipeBuf - 1) tv identity
      severity mdc malloc (.output bytes hbytes) = some (buffer, len)) :
    Wlp (fun _ s' => Sane system s') (emit buffer len) s := by
  by_cases hpos : 0 < len
  · obtain ⟨rest, rfl, rfl, hroom⟩ := format_pos hformat hpos
    have hlength := length_entryText_lt tv identity severity mdc bytes hroom
    intro _ s' hrun
    rw [emit_run s _ rest (by simp [entryText])] at hrun
    cases hrun
    apply h.addOutput
    intro payload hmem
    cases List.mem_singleton.mp hmem
    exact line_entry (printable_entryText tv severity bytes (by decide) hidentity hmdc) hlength
  · rw [emit, if_neg hpos]
    exact Wlp.pure h

/-! Each call keeps the invariant. -/

theorem Fallback.printable {identity : Option CStr} (h : Fallback system identity) :
    ∀ id ∈ identity, Printable id.bytes := by
  intro id hid
  rw [h.1 id hid]
  exact isprint_escapeText system.progname.bytes

variable [DecidableEq T]

theorem stable_sane : AttrStable system (Sane system : Library T → Prop) where
  whole h := h.whole
  allocations h := ⟨h.identity, h.attrs, h.lines, h.whole⟩
  lists t _ hlist h := ⟨h.identity, h.attrs, h.lines, Whole.update h.whole t hlist⟩
  level _ h := ⟨h.identity, h.attrs, h.lines, h.whole⟩
  monitors _ _ h := ⟨h.identity, h.attrs, h.lines, h.whole⟩
  fallback hidentity _ h := h.setIdentity true (Fallback.printable hidentity)
  attr attr _ hvalue h := h.setAttr attr fun id hid b hb => (hvalue id hid b hb).1
  given {s attr identity} hgiven h := by
    have hmoved : Sane system { s with attrs := Function.update s.attrs attr (some none) } :=
      h.setAttr attr (by simp)
    apply hmoved.setIdentity true
    rintro id ⟨⟩
    exact h.attrs attr identity hgiven
  restart h := ⟨h.identity, h.attrs, h.lines, h.whole⟩

theorem readLogLevel_sane (reading : Reading) :
    Keeps (Sane system) (readLogLevel system reading : Program T Unit) := by
  refine readLogLevel_keeps stable_sane.toStable fun _ _ logLevel _ _ s h => h.addOutput ?_
  intro payload hmem
  split at hmem
  · exact absurd hmem List.not_mem_nil
  · cases List.mem_singleton.mp hmem

/-- `vsnprintf` succeeds in every call of `mdclog_write`. -/
def formats : Event T → Prop
  | .call _ (.write _ message) _ => ∃ bytes hbytes, message.call = .output bytes hbytes
  | _ => True

theorem event_sane {event : Event T} {s s' : Library T} (hformats : formats event)
    (happens : event.Happens system s s') (h : Sane system s) : Sane system s' := by
  refine any_event_keeps stable_sane readLogLevel_sane ?_ happens h
  rintro t severity message result rfl s₁ store malloc buffer len hs₁ - hformat
  obtain ⟨bytes, hbytes, hcall⟩ := hformats
  rw [hcall] at hformat
  exact emit_sane hs₁ (printable_store store) hs₁.identity hformat

theorem run_sane {events : List (Event T)} {s : Library T}
    (h : Run system (fun _ event => formats event) events s) : Sane system s := by
  induction h with
  | start => exact sane_initial
  | step run hformats happens ih => exact event_sane hformats happens ih

/-- Whatever the calls, the program name, the environment and the allocations
that fail, what `mdclog_write` passes to `write` is one line. -/
theorem payload_line {events : List (Event T)} {s : Library T}
    (h : Run system (fun _ event => formats event) events s) {payload : List UInt8}
    (hmem : Output.write payload ∈ s.output) :
    payload.length ≤ pipeBuf ∧
      ∃ body, payload = body ++ [newline] ∧ ∀ b ∈ body, 0x20 ≤ b ∧ b ≤ 0x7e :=
  (run_sane h).lines payload hmem

end invariant

/-- The first call of a program whose name holds a newline. -/
theorem payload_line_first :
    ∃ (events : List (Event Unit)) (s : Library Unit) (payload : List UInt8),
      Run ⟨.ofString "a\nb", fun _ => true⟩ (fun _ event => formats event) events s ∧
      Output.write payload ∈ s.output ∧ payload.length ≤ pipeBuf ∧
      ∃ body, payload = body ++ [newline] ∧ ∀ b ∈ body, 0x20 ≤ b ∧ b ≤ 0x7e := by
  let message : Message :=
    ⟨⟨1, 0⟩, fun _ => 0, fun _ => 0, .output (ascii "line\nbreak") (by decide)⟩
  obtain ⟨s, hwrite, houtput⟩ := @mdclogWrite_run Unit ⟨.ofString "a\nb", fun _ => true⟩ _
    (fun _ => rfl) Library.initial () (by simp [Library.initial]) .err (Nat.le_refl 1) message _ _
    rfl
  have hroom : ¬EntryRoom.FillsRoom (pipeBuf - 1) message.tv
      (usedIdentity ⟨.ofString "a\nb", fun _ => true⟩ (Library.initial : Library Unit)) .err
      (pairsOf (Library.initial : Library Unit) ()) :=
    EntryRoom.not_fillsRoom _ _ _ (by decide)
  rw [if_neg hroom] at houtput
  have hhappens : (Event.call () (.write .err message) .done).Happens
      ⟨.ofString "a\nb", fun _ => true⟩ Library.initial s := by
    change (mdclogWrite _ _ _ _ >>= fun _ => pure Result.done).run _ = _
    rw [StateT.run_bind, hwrite]
    rfl
  have hrun : Run ⟨.ofString "a\nb", fun _ => true⟩ (fun _ event => formats event)
      [.call () (.write .err message) .done] s := .step .start ⟨_, _, rfl⟩ hhappens
  obtain ⟨payload, hpayload⟩ : ∃ payload, s.output = [.write payload] := ⟨_, houtput⟩
  have hmem : Output.write payload ∈ s.output := by
    rw [hpayload]
    exact List.mem_singleton.mpr rfl
  exact ⟨_, s, payload, hrun, hmem, payload_line hrun hmem⟩

end Mdclog.Payload
