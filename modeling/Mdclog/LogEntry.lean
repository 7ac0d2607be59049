import Mdclog.Sections

/-! The complete log entry. Every section but the message is followed by a
comma, and while they are written twenty bytes are kept back: `front.length +
20 ≤ len` is the invariant the sections share. The message, the closing brace
and the NUL need one byte more than that. -/
namespace Mdclog.LogEntry
open Foundation.ByteBuffer CString Escape JsonFormat Sections

def withComma (text : List UInt8) : List UInt8 :=
  if text = [] then [] else text ++ [comma]

theorem length_withComma_le (text : List UInt8) : (withComma text).length ≤ text.length + 1 := by
  unfold withComma
  split <;> simp

theorem appendComma_wrote {front text : List UInt8} {size : Nat} {result : Option (Buffer × Nat)}
    (h : Wrote front text size result) :
    ∃ back, (result >>= appendComma front.length) =
        some (front ++ withComma text ++ back, (front ++ withComma text).length) ∧
      (front ++ withComma text).length + back.length = size := by
  obtain ⟨back, rfl, hsize⟩ := h
  unfold withComma
  by_cases htext : text = []
  · subst htext
    refine ⟨0 :: back, ?_, ?_⟩
    · simp [appendComma]
    · simp only [List.length_nil, if_true, List.append_nil, List.length_cons] at hsize ⊢
      omega
  · have hpos := List.length_pos_of_ne_nil htext
    refine ⟨back, ?_, ?_⟩
    · rw [if_neg htext, Option.bind_eq_bind, Option.bind_some, appendComma, if_pos hpos]
      simp only [← List.length_append]
      rw [store_append]
      simp [Nat.add_assoc]
    · rw [if_neg htext]
      simp only [List.length_append, List.length_singleton]
      omega

/-- What a writer of one of the first four sections promises: it fills a room of
`len` bytes with `text len`, and that leaves a byte for the NUL. -/
structure Section where
  writer : Buffer → Nat → Nat → Option (Buffer × Nat)
  text : Nat → List UInt8
  short : ∀ len, text len = [] ∨ (text len).length < len
  wrote : ∀ (front back : List UInt8) (len : Nat), 0 < back.length → len ≤ back.length →
    len ≤ intMax → Wrote front (text len) (front.length + back.length)
      (writer (front ++ back) front.length len)

def timestampSection (tv : Timeval) : Section where
  writer buffer base len := formatTimestamp buffer base len tv
  text len := whole len (timestampText tv)
  short := whole_short _
  wrote front back _ := formatTimestamp_wrote front back tv

def severitySection (severity : Severity) : Section where
  writer buffer base len := formatSeverity buffer base len severity
  text len := whole len (severityMember severity)
  short := whole_short _
  wrote front back _ := formatSeverity_wrote front back severity

def identitySection (identity : Option CStr) : Section where
  writer buffer base len := formatIdentity buffer base len identity
  text len := whole len (identityText identity)
  short := whole_short _
  wrote front back _ := formatIdentity_wrote front back identity

def mdcSection (mdc : List (CStr × CStr)) : Section where
  writer buffer base len := formatMdc buffer base len mdc
  text len := mdcMember len mdc
  short := mdcMember_short mdc
  wrote front back _ := formatMdc_wrote front back mdc

/-- The entry so far, with one section more. -/
def Section.append (part : Section) (len : Nat) (front : List UInt8) : List UInt8 :=
  front ++ withComma (part.text (len - front.length - 20))

theorem Section.reserve (part : Section) {len : Nat} {front : List UInt8}
    (h : front.length + 20 ≤ len) : (part.append len front).length + 20 ≤ len := by
  unfold Section.append
  rcases part.short (len - front.length - 20) with hempty | hshort
  · simpa [hempty, withComma] using h
  · have hcomma := length_withComma_le (part.text (len - front.length - 20))
    rw [List.length_append]
    omega

/-- The call of a section writer in `format_log_entry`. -/
def Section.run (part : Section) (len : Nat) (state : Buffer × Nat) : Option (Buffer × Nat) := do
  let written ← part.writer state.1 state.2 (sectionRoom len state.2)
  appendComma state.2 written

/-- The buffer holds `front`, the offset points behind it, and the reserve is
untouched. -/
def Stage (len size : Nat) (front : List UInt8) (state : Option (Buffer × Nat)) : Prop :=
  ∃ rest, state = some (front ++ rest, front.length) ∧
    front.length + rest.length = size ∧ front.length + 20 ≤ len

theorem Section.step (part : Section) {len size : Nat} {front : List UInt8}
    {state : Option (Buffer × Nat)} (h : Stage len size front state) (hsize : len ≤ size)
    (hmax : len ≤ intMax) :
    Stage len size (part.append len front) (state >>= part.run len) := by
  obtain ⟨back, rfl, hback, hreserve⟩ := h
  have hoffset : sizeSub len front.length = len - front.length := sizeSub_eq (by omega)
  have hminimum : sizeSub (len - front.length) 19 = len - front.length - 19 :=
    sizeSub_eq (by omega)
  have hroom : sectionRoom len front.length = len - front.length - 20 := by
    unfold sectionRoom
    rw [length_minimumMessage, hoffset, hminimum, sizeSub_eq (by omega)]
    omega
  obtain ⟨rest, hrest, hlength⟩ := appendComma_wrote
    (part.wrote front back (len - front.length - 20) (by omega) (by omega) (by omega))
  refine ⟨rest, ?_, ?_, part.reserve hreserve⟩
  · rw [Option.bind_eq_bind, Option.bind_some, Section.run, hroom]
    exact hrest
  · rw [← hback]
    exact hlength

/-- Everything in front of the message. -/
def entryFront (len : Nat) (tv : Timeval) (identity : Option CStr) (severity : Severity)
    (mdc : List (CStr × CStr)) : List UInt8 :=
  (mdcSection mdc).append len <| (identitySection identity).append len <|
    (severitySection severity).append len <| (timestampSection tv).append len [0x7b]

/-- The message of an entry whose sections in front of it are written. -/
def entryMessage (len : Nat) (front bytes : List UInt8) : List UInt8 :=
  messageMember (len - front.length - 1)
    (CStr.ofMemory (bytes.take (len - front.length - 1 - 8))).bytes
    (decide (len - front.length - 1 ≤ bytes.length + 8))

/-- What `format_log_entry` does after the first four sections. -/
def closeEntry (len : Nat) (malloc : Option (Nat → UInt8)) (call : Vsnprintf)
    (state : Buffer × Nat) : Option (Buffer × Int) := do
  let (buffer, ret) ← formatMessage state.1 state.2 (sizeSub (sizeSub len state.2) 1) malloc call
  if 0 < ret then
    let buffer ← store buffer (state.2 + ret) 0x7d
    let buffer ← store buffer (state.2 + ret + 1) 0
    return (buffer, (state.2 + ret + 1 : Nat))
  else
    let buffer ← store buffer 0 0
    return (buffer, -1)

theorem formatLogEntry_sections (buffer : Buffer) (len : Nat) (tv : Timeval)
    (identity : Option CStr) (severity : Severity) (mdc : List (CStr × CStr))
    (malloc : Option (Nat → UInt8)) (call : Vsnprintf) :
    formatLogEntry buffer len tv identity severity mdc malloc call =
      (store buffer 0 0x7b >>= fun buffer => pure (buffer, 1)) >>=
        (timestampSection tv).run len >>= (severitySection severity).run len >>=
        (identitySection identity).run len >>= (mdcSection mdc).run len >>=
        closeEntry len malloc call := by
  simp only [formatLogEntry, Section.run, bind_assoc, pure_bind]
  rfl

/-- The state of `format_log_entry` in front of the message. -/
theorem entryFront_stage (buffer : Buffer) {len : Nat} (tv : Timeval) (identity : Option CStr)
    (severity : Severity) (mdc : List (CStr × CStr)) (hlen : 21 ≤ len) (hmax : len ≤ intMax)
    (hbuffer : len ≤ buffer.length) :
    Stage len buffer.length (entryFront len tv identity severity mdc)
      ((store buffer 0 0x7b >>= fun buffer => pure (buffer, 1)) >>=
        (timestampSection tv).run len >>= (severitySection severity).run len >>=
        (identitySection identity).run len >>= (mdcSection mdc).run len) := by
  obtain ⟨first, back, rfl⟩ : ∃ first back, buffer = first :: back := by
    cases buffer with
    | nil =>
      rw [List.length_nil] at hbuffer
      omega
    | cons first back => exact ⟨first, back, rfl⟩
  have hopen : Stage len (first :: back).length [0x7b]
      (store (first :: back) 0 0x7b >>= fun buffer => pure (buffer, 1)) := by
    refine ⟨back, ?_, ?_, by simpa using hlen⟩
    · simp [store]
    · simp [Nat.add_comm]
  exact (mdcSection mdc).step ((identitySection identity).step ((severitySection severity).step
    ((timestampSection tv).step hopen hbuffer hmax) hbuffer hmax) hbuffer hmax) hbuffer hmax

/-- One spec for `format_log_entry`: an entry with its NUL, unless the sections
in front of the message have used up all but the twenty bytes kept back. -/
theorem formatLogEntry_eq (buffer : Buffer) {len : Nat} (tv : Timeval) (identity : Option CStr)
    (severity : Severity) (mdc : List (CStr × CStr)) (contents : Nat → UInt8)
    (bytes : List UInt8) (hbytes : bytes.length ≤ intMax) (hlen : 21 ≤ len)
    (hmax : len ≤ intMax) (hbuffer : len ≤ buffer.length) :
    let front := entryFront len tv identity severity mdc
    let entry := front ++ entryMessage len front bytes ++ [0x7d]
    ∃ rest, formatLogEntry buffer len tv identity severity mdc (some contents)
        (.output bytes hbytes) =
      if front.length + 20 < len then some (entry ++ 0 :: rest, (entry.length : Int))
      else some (0 :: rest, -1) := by
  intro front entry
  obtain ⟨rest, hstate, hsize, hreserve⟩ : Stage len buffer.length front _ :=
    entryFront_stage buffer tv identity severity mdc hlen hmax hbuffer
  have hoffset : sizeSub len front.length = len - front.length := sizeSub_eq (by omega)
  have hone : sizeSub (len - front.length) 1 = len - front.length - 1 := sizeSub_eq (by omega)
  obtain ⟨after, hmessage, hafter⟩ : Wrote front (entryMessage len front bytes)
      (front.length + rest.length) _ :=
    formatMessage_wrote front rest contents bytes hbytes (len - front.length - 1)
      (by omega) (by omega)
  rw [formatLogEntry_sections, hstate, Option.bind_eq_bind, Option.bind_some, closeEntry]
  simp only [hoffset, hone, hmessage, Option.bind_eq_bind, Option.bind_some]
  by_cases hroom : front.length + 20 < len
  · have hnonempty : 0 < (entryMessage len front bytes).length := by
      apply List.length_pos_of_ne_nil
      rw [entryMessage, Ne, messageMember_eq_nil_iff]
      omega
    have hshort : (entryMessage len front bytes).length < len - front.length - 1 :=
      length_messageMember_lt _ _ (by omega)
    have hclose := store_store (front ++ entryMessage len front bytes) (0 :: after) 0x7d 0 (by
      rw [List.length_cons]
      omega)
    rw [List.length_append, Option.bind_eq_bind] at hclose
    refine ⟨after.drop 1, ?_⟩
    rw [if_pos hroom, if_pos hnonempty, ← Option.bind_assoc, hclose]
    simp [entry, Nat.add_assoc]
  · have hempty : entryMessage len front bytes = [] := by
      rw [entryMessage, messageMember_eq_nil_iff]
      omega
    have herase := store_eq_some [] 0 (show front ++ 0 :: after ≠ [] by simp)
    refine ⟨(front ++ 0 :: after).drop 1, ?_⟩
    rw [if_neg hroom, hempty]
    simp only [List.nil_append, List.length_nil] at herase
    simp [herase]

/-! From `MIN_BUFFER_LENGTH` on the first three sections always fit. -/

theorem length_decimal_le {n count : Nat} (hcount : 0 < count) (h : n < 10 ^ count) :
    (decimal n).length ≤ count := by
  unfold decimal
  split
  · exact hcount
  · simpa using (Nat.digits_length_le_iff (by decide) n).mpr h

theorem length_timestampText_le (tv : Timeval) : (timestampText tv).length ≤ 25 := by
  have hlabel : (ascii "\"ts\":").length = 5 := by decide
  have hdigits : (decimal (timestamp tv)).length ≤ 20 := by
    apply length_decimal_le (by decide)
    exact (Nat.mod_lt _ (by decide)).trans (by decide)
  rw [timestampText, List.length_append, hlabel]
  omega

theorem length_severityMember_le (severity : Severity) :
    (severityMember severity).length ≤ 16 := by
  cases severity with
  | other code h => exact Nat.zero_le 16
  | _ => decide

theorem length_identityText_le (identity : Option CStr) : (identityText identity).length ≤ 107 := by
  have hlabel : (ascii "\"id\":\"").length = 6 := by decide
  have hquote : (ascii "\"").length = 1 := by decide
  simp only [identityText, List.length_append, hlabel, hquote, List.length_take]
  unfold identityMaxLength
  omega

/-- The part of an entry in front of the MDC section. -/
def entryHead (tv : Timeval) (identity : Option CStr) (severity : Severity) : List UInt8 :=
  [0x7b] ++ withComma (timestampText tv) ++ withComma (severityMember severity) ++
    withComma (identityText identity)

theorem length_entryHead_le (tv : Timeval) (identity : Option CStr) (severity : Severity) :
    (entryHead tv identity severity).length ≤ 152 := by
  have h₁ := (length_withComma_le _).trans (Nat.succ_le_succ (length_timestampText_le tv))
  have h₂ := (length_withComma_le _).trans (Nat.succ_le_succ (length_severityMember_le severity))
  have h₃ := (length_withComma_le _).trans (Nat.succ_le_succ (length_identityText_le identity))
  simp only [entryHead, List.length_append, List.length_singleton]
  omega

/-- A section of fixed text is written whole into a large enough room. -/
theorem Section.append_of_whole (part : Section) {len : Nat} {front text : List UInt8}
    (htext : ∀ room, part.text room = whole room text)
    (h : front.length + text.length + 21 ≤ len) :
    part.append len front = front ++ withComma text := by
  rw [Section.append, htext, whole, if_pos (by omega)]

theorem entryFront_eq {len : Nat} (tv : Timeval) (identity : Option CStr) (severity : Severity)
    (mdc : List (CStr × CStr)) (hlen : minBufferLength ≤ len) :
    entryFront len tv identity severity mdc = entryHead tv identity severity ++
      mdcText (fitPairs (len - (entryHead tv identity severity).length - 28) mdc) ++ [comma] := by
  have hmin : minBufferLength = 1000 := rfl
  have h₁ := length_timestampText_le tv
  have h₂ := length_severityMember_le severity
  have h₃ := length_identityText_le identity
  have c₁ := length_withComma_le (timestampText tv)
  have c₂ := length_withComma_le (severityMember severity)
  have hhead := length_entryHead_le tv identity severity
  unfold entryFront
  rw [(timestampSection tv).append_of_whole (fun _ => rfl) (by rw [List.length_singleton]; omega),
    (severitySection severity).append_of_whole (fun _ => rfl)
      (by simp only [List.length_append, List.length_singleton]; omega),
    (identitySection identity).append_of_whole (fun _ => rfl)
      (by simp only [List.length_append, List.length_singleton]; omega)]
  change entryHead tv identity severity ++
    withComma (mdcMember (len - (entryHead tv identity severity).length - 20) mdc) = _
  rw [mdcMember, if_pos (by omega), withComma, if_neg (by simp [mdcText]), List.append_assoc,
    show len - (entryHead tv identity severity).length - 20 - 8 =
      len - (entryHead tv identity severity).length - 28 by omega]

/-- The entry written when there is room, as one text. -/
def entryText (len : Nat) (tv : Timeval) (identity : Option CStr) (severity : Severity)
    (mdc : List (CStr × CStr)) (bytes : List UInt8) : List UInt8 :=
  let front := entryFront len tv identity severity mdc
  front ++ entryMessage len front bytes ++ [0x7d]

/-- Without memory for the message there is no entry. -/
theorem formatMessage_of_malloc_none {buffer result : Buffer} {base len written : Nat}
    {call : Vsnprintf} (h : formatMessage buffer base len none call = some (result, written)) :
    written = 0 := by
  unfold formatMessage at h
  split at h
  · simp only [Option.bind_eq_bind, Option.bind_eq_some_iff, Option.pure_def, Option.some.injEq,
      Prod.mk.injEq] at h
    obtain ⟨-, -, -, rfl⟩ := h
    rfl
  · simp only [Option.bind_eq_bind, Option.bind_eq_some_iff] at h
    obtain ⟨⟨printed, start⟩, -, h⟩ := h
    dsimp only at h
    split at h <;>
      · simp only [Option.bind_eq_some_iff, Option.pure_def, Option.some.injEq,
          Prod.mk.injEq] at h
        obtain ⟨-, -, -, rfl⟩ := h
        rfl

theorem formatLogEntry_of_malloc_none {buffer result : Buffer} {len : Nat} {tv : Timeval}
    {identity : Option CStr} {severity : Severity} {mdc : List (CStr × CStr)} {call : Vsnprintf}
    {r : Int} (h : formatLogEntry buffer len tv identity severity mdc none call =
      some (result, r)) : r = -1 := by
  rw [formatLogEntry_sections, Option.bind_eq_bind, Option.bind_eq_some_iff] at h
  obtain ⟨state, -, h⟩ := h
  unfold closeEntry at h
  rw [Option.bind_eq_bind, Option.bind_eq_some_iff] at h
  obtain ⟨⟨written, ret⟩, hmessage, h⟩ := h
  rw [formatMessage_of_malloc_none hmessage] at h
  simp only [Nat.lt_irrefl, if_false, Option.bind_eq_bind, Option.bind_eq_some_iff,
    Option.pure_def, Option.some.injEq, Prod.mk.injEq] at h
  obtain ⟨-, -, -, rfl⟩ := h
  rfl

/-- The formatter from `MIN_BUFFER_LENGTH` on. -/
theorem mdclogInternalFormatToJsonStr_eq (buffer : Buffer) {len : Nat} (tv : Timeval)
    (identity : Option CStr) (severity : Severity) (mdc : List (CStr × CStr))
    (contents : Nat → UInt8) (bytes : List UInt8) (hbytes : bytes.length ≤ intMax)
    (hlen : minBufferLength ≤ len) (hmax : len ≤ intMax) (hbuffer : len ≤ buffer.length) :
    ∃ rest, mdclogInternalFormatToJsonStr buffer len tv identity severity mdc (some contents)
        (.output bytes hbytes) =
      if (entryFront len tv identity severity mdc).length + 20 < len then
        some (entryText len tv identity severity mdc bytes ++ 0 :: rest,
          ((entryText len tv identity severity mdc bytes).length : Int))
      else some (0 :: rest, -1) := by
  have hmin : minBufferLength = 1000 := rfl
  rw [mdclogInternalFormatToJsonStr, if_neg (by omega)]
  exact formatLogEntry_eq buffer tv identity severity mdc contents bytes hbytes (by omega) hmax
    hbuffer

theorem length_entryText_lt {len : Nat} (tv : Timeval) (identity : Option CStr)
    (severity : Severity) (mdc : List (CStr × CStr)) (bytes : List UInt8)
    (hroom : (entryFront len tv identity severity mdc).length + 20 < len) :
    (entryText len tv identity severity mdc bytes).length < len := by
  have hmessage : (entryMessage len (entryFront len tv identity severity mdc) bytes).length <
      len - (entryFront len tv identity severity mdc).length - 1 :=
    length_messageMember_lt _ _ (by omega)
  simp only [entryText, List.length_append, List.length_singleton]
  omega

end Mdclog.LogEntry
