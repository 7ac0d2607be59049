import Mdclog.LogEntry

/-! The formatter with every length and every backward read checked. The checks
never fail, so the subtractions of the source never wrap around. -/
namespace Mdclog.FormatSafety
open Foundation.ByteBuffer CString Escape JsonFormat Sections LogEntry

/-- A remaining length, which must not be negative. -/
def checkedSub (a b : Nat) : Option Nat := if b ≤ a then some (a - b) else none

theorem checkedSub_eq {a b : Nat} (h : b ≤ a) : checkedSub a b = some (sizeSub a b) := by
  rw [checkedSub, if_pos h, sizeSub_eq h]

/-- `truncateLoop` that may only read the message text, which lies in
`[start, stop)`; `last` is `len - 1`. -/
def truncateLoopChecked (buffer : Buffer) (base last start stop : Nat) : Nat → Option Nat
  | 0 => if last ≤ 0 + truncatedText.length then none else some 0
  | i + 1 =>
      if last ≤ i + 1 + truncatedText.length then
        if start ≤ i ∧ i < stop then
          match buffer[base + i]? with
          | none => none
          | some c =>
              if c = backslash || c = quote then
                match i with
                | 0 => none
                | j + 1 => truncateLoopChecked buffer base last start stop j
              else truncateLoopChecked buffer base last start stop i
        else none
      else some (i + 1)

/-- `formatMessage`, with a call of `mdclog_internal_escape` only for a positive
length. -/
def formatMessageChecked (buffer : Buffer) (base len : Nat) (malloc : Option (Nat → UInt8))
    (call : Vsnprintf) : Option (Buffer × Nat) := do
  if len ≤ minimumMessage.length then
    let buffer ← store buffer base 0
    return (buffer, 0)
  let (buffer, start) ← snprintf buffer base len (ascii "\"msg\":\"")
  if start < 0 ∨ len ≤ sizeOfInt start then
    let buffer ← store buffer base 0
    return (buffer, 0)
  let msgStart := start.toNat
  let room ← checkedSub len msgStart
  match malloc with
  | none =>
      let buffer ← store buffer base 0
      return (buffer, 0)
  | some contents =>
      let tmpBuf := fresh contents room
      let (tmpBuf, ret) ← vsnprintf call tmpBuf room
      let msgLen := sizeOfInt ret
      let cut := decide (room ≤ sizeAdd msgLen 1)
      let escapeRoom ← checkedSub room 1
      if escapeRoom = 0 then none
      else
        let (buffer, escapedLen, escapeCut) ← mdclogInternalEscape buffer (base + msgStart)
          escapeRoom (CStr.ofMemory tmpBuf)
        let totalLen := msgStart + escapedLen
        if cut || escapeCut then
          let last ← checkedSub len 1
          let i ← truncateLoopChecked buffer base last msgStart totalLen totalLen
          let (buffer, added) ← sprintf buffer (base + i) (truncatedText ++ ascii "\"")
          return (buffer, i + added)
        else
          let (buffer, added) ← sprintf buffer (base + totalLen) (ascii "\"")
          return (buffer, totalLen + added)

def formatMdcLoopChecked (base len : Nat) :
    Buffer → Nat → Nat → List (CStr × CStr) → Option (Buffer × Nat × Nat)
  | buffer, offset, mdcCount, [] => some (buffer, offset, mdcCount)
  | buffer, offset, mdcCount, pair :: mdc => do
      let room ← checkedSub len offset
      let (buffer, ret) ← snprintf buffer (base + offset) room (pairText pair)
      if ret < 0 ∨ room ≤ sizeOfInt ret then
        return (buffer, offset, mdcCount)
      else
        formatMdcLoopChecked base len buffer (offset + ret.toNat) (mdcCount + 1) mdc

def formatMdcChecked (buffer : Buffer) (base len : Nat) (mdc : List (CStr × CStr)) :
    Option (Buffer × Nat) := do
  let (buffer, ret) ← snprintf buffer base len (ascii "\"mdc\":\x7b")
  if ret < 0 ∨ len ≤ sizeAdd (sizeOfInt ret) 1 then
    let buffer ← store buffer base 0
    return (buffer, 0)
  let (buffer, offset, mdcCount) ← formatMdcLoopChecked base len buffer ret.toNat 0 mdc
  let offset ← if 0 < mdcCount then checkedSub offset 1 else some offset
  let buffer ← store buffer (base + offset) 0x7d
  let buffer ← store buffer (base + (offset + 1)) 0
  return (buffer, offset + 1)

def sectionRoomChecked (len offset : Nat) : Option Nat := do
  let room ← checkedSub len offset
  let room ← checkedSub room minimumMessage.length
  checkedSub room 1

def formatLogEntryChecked (buffer : Buffer) (len : Nat) (tv : Timeval) (identity : Option CStr)
    (severity : Severity) (mdc : List (CStr × CStr)) (malloc : Option (Nat → UInt8))
    (call : Vsnprintf) : Option (Buffer × Int) := do
  let buffer ← store buffer 0 0x7b
  let offset := 1
  let room ← sectionRoomChecked len offset
  let written ← formatTimestamp buffer offset room tv
  let (buffer, offset) ← appendComma offset written
  let room ← sectionRoomChecked len offset
  let written ← formatSeverity buffer offset room severity
  let (buffer, offset) ← appendComma offset written
  let room ← sectionRoomChecked len offset
  let written ← formatIdentity buffer offset room identity
  let (buffer, offset) ← appendComma offset written
  let room ← sectionRoomChecked len offset
  let written ← formatMdcChecked buffer offset room mdc
  let (buffer, offset) ← appendComma offset written
  let room ← checkedSub len offset
  let room ← checkedSub room 1
  let (buffer, ret) ← formatMessageChecked buffer offset room malloc call
  if 0 < ret then
    let buffer ← store buffer (offset + ret) 0x7d
    let buffer ← store buffer (offset + ret + 1) 0
    return (buffer, (offset + ret + 1 : Nat))
  else
    let buffer ← store buffer 0 0
    return (buffer, -1)

/-! The checks hold whatever is in the buffer. -/

/-- The search reads only where the mark does not fit yet, which is at least
eight bytes into the member. -/
theorem truncateLoopChecked_eq (buffer : Buffer) (base : Nat) {len start stop i : Nat}
    (hlen : 20 ≤ len) (hstart : start ≤ 7) (hi : i ≤ stop) :
    truncateLoopChecked buffer base (sizeSub len 1) start stop i =
      truncateLoop buffer base len i := by
  have hsub : sizeSub len 1 = len - 1 := sizeSub_eq (by omega)
  have hmark := length_truncatedText
  induction i using Nat.strong_induction_on with
  | h i ih =>
    cases i with
    | zero => rfl
    | succ i =>
      rw [truncateLoopChecked.eq_def, truncateLoop.eq_def]
      dsimp only
      by_cases hcut : sizeSub len 1 ≤ i + 1 + truncatedText.length
      · have hinside : start ≤ i ∧ i < stop := by omega
        rw [if_pos hcut, if_pos hcut, if_pos hinside]
        cases buffer[base + i]? with
        | none => rfl
        | some c =>
          dsimp only
          split
          · cases i with
            | zero => rfl
            | succ j => exact ih j (by omega) (by omega)
          · exact ih i (by omega) (by omega)
      · rw [if_neg hcut, if_neg hcut]

theorem snprintf_le {buffer result : Buffer} {base size : Nat} {out : List UInt8} {value : Int}
    (h : snprintf buffer base size out = some (result, value)) : value ≤ intMax := by
  by_cases hmax : out.length ≤ intMax
  · rw [snprintf_value h hmax]
    exact_mod_cast hmax
  · unfold snprintf at h
    rw [if_neg hmax] at h
    have hminus : (-1 : Int) ≤ intMax := by decide
    split at h
    · cases h
      exact hminus
    · obtain ⟨_, _, h⟩ := Option.bind_eq_some_iff.mp h
      cases h
      exact hminus

theorem sizeOfInt_of_nonneg {value : Int} (hpos : 0 ≤ value) (hmax : value ≤ intMax) :
    sizeOfInt value = value.toNat := by
  obtain ⟨n, rfl⟩ := Int.eq_ofNat_of_zero_le hpos
  exact sizeOfInt_natCast (lt_sizeModulus (by exact_mod_cast hmax))

/-- A length that passed the test of its caller lies inside the room. -/
theorem lt_of_accepted {value : Int} {room : Nat} (hmax : value ≤ intMax)
    (h : ¬(value < 0 ∨ room ≤ sizeOfInt value)) : value.toNat < room := by
  rw [sizeOfInt_of_nonneg (by omega) hmax] at h
  omega

theorem formatMessageChecked_eq (buffer : Buffer) (base len : Nat)
    (malloc : Option (Nat → UInt8)) (call : Vsnprintf) :
    formatMessageChecked buffer base len malloc call =
      formatMessage buffer base len malloc call := by
  have hheader : (ascii "\"msg\":\"").length = 7 := by decide
  unfold formatMessageChecked formatMessage
  rw [length_minimumMessage]
  by_cases hshort : len ≤ 19
  · simp only [if_pos hshort]
  · simp only [if_neg hshort, Option.bind_eq_bind]
    refine Option.bind_congr fun printed hprint => ?_
    obtain ⟨buffer, start⟩ := printed
    obtain rfl : start = (7 : Nat) := by
      rw [← hheader]
      exact snprintf_value hprint (by rw [hheader]; decide)
    have hsize : sizeOfInt ((7 : Nat) : Int) = 7 := by decide
    have hgood : ¬(((7 : Nat) : Int) < 0 ∨ len ≤ 7) := by omega
    have hroom : sizeSub len 7 = len - 7 := sizeSub_eq (by omega)
    have hone : sizeSub (len - 7) 1 = len - 7 - 1 := sizeSub_eq (by omega)
    simp only [hsize, if_neg hgood, Int.toNat_natCast, checkedSub_eq (show 7 ≤ len by omega),
      Option.bind_some]
    cases malloc with
    | none => rfl
    | some contents =>
      dsimp only
      refine Option.bind_congr fun called _ => ?_
      have hpos : ¬len - 7 - 1 = 0 := by omega
      simp only [hroom, checkedSub_eq (show 1 ≤ len - 7 by omega), Option.bind_some, hone,
        if_neg hpos, checkedSub_eq (show 1 ≤ len by omega),
        truncateLoopChecked_eq _ _ (show 20 ≤ len by omega) (Nat.le_refl 7) (Nat.le_refl _)]

theorem formatMdcLoopChecked_eq (base : Nat) {len : Nat} (buffer : Buffer) (offset count : Nat)
    (mdc : List (CStr × CStr)) (hoffset : offset < len) :
    formatMdcLoopChecked base len buffer offset count mdc =
      formatMdcLoop base len buffer offset count mdc := by
  induction mdc generalizing buffer offset count with
  | nil => rfl
  | cons pair mdc ih =>
    have hsub : sizeSub len offset = len - offset := sizeSub_eq (by omega)
    rw [formatMdcLoopChecked, formatMdcLoop, checkedSub_eq (by omega), Option.bind_eq_bind,
      Option.bind_some]
    refine Option.bind_congr fun printed hprint => ?_
    obtain ⟨buffer, ret⟩ := printed
    dsimp only
    by_cases hstop : ret < 0 ∨ sizeSub len offset ≤ sizeOfInt ret
    · rw [if_pos hstop, if_pos hstop]
    · have hlt := lt_of_accepted (snprintf_le hprint) hstop
      rw [if_neg hstop, if_neg hstop, ih _ _ _ (by omega)]

/-- The loop ends inside its room, and moves on only with a pair. -/
theorem formatMdcLoop_lt {base len offset count : Nat} {buffer result : Buffer}
    {mdc : List (CStr × CStr)} {offset' count' : Nat} (hoffset : offset < len)
    (h : formatMdcLoop base len buffer offset count mdc = some (result, offset', count')) :
    offset ≤ offset' ∧ offset' < len ∧ count ≤ count' ∧ (count' = count → offset' = offset) := by
  induction mdc generalizing buffer offset count with
  | nil =>
    cases h
    exact ⟨Nat.le_refl _, hoffset, Nat.le_refl _, fun _ => rfl⟩
  | cons pair mdc ih =>
    have hsub : sizeSub len offset = len - offset := sizeSub_eq (by omega)
    rw [formatMdcLoop] at h
    obtain ⟨⟨buffer, ret⟩, hprint, h⟩ := Option.bind_eq_some_iff.mp h
    dsimp only at h
    by_cases hstop : ret < 0 ∨ sizeSub len offset ≤ sizeOfInt ret
    · rw [if_pos hstop] at h
      cases h
      exact ⟨Nat.le_refl _, hoffset, Nat.le_refl _, fun _ => rfl⟩
    · have hlt := lt_of_accepted (snprintf_le hprint) hstop
      rw [if_neg hstop] at h
      obtain ⟨hle, hlast, hcount, -⟩ := ih (by omega) h
      exact ⟨by omega, hlast, by omega, fun _ => by omega⟩

theorem formatMdcChecked_eq (buffer : Buffer) (base len : Nat) (mdc : List (CStr × CStr)) :
    formatMdcChecked buffer base len mdc = formatMdc buffer base len mdc := by
  have hheader : (ascii "\"mdc\":\x7b").length = 7 := by decide
  unfold formatMdcChecked formatMdc
  refine Option.bind_congr fun printed hprint => ?_
  obtain ⟨buffer, ret⟩ := printed
  obtain rfl : ret = (7 : Nat) := by
    rw [← hheader]
    exact snprintf_value hprint (by rw [hheader]; decide)
  have hsize : sizeAdd (sizeOfInt ((7 : Nat) : Int)) 1 = 8 := by decide
  dsimp only
  rw [hsize]
  by_cases hsmall : ((7 : Nat) : Int) < 0 ∨ len ≤ 8
  · rw [if_pos hsmall, if_pos hsmall]
  · rw [if_neg hsmall, if_neg hsmall, Int.toNat_natCast,
      formatMdcLoopChecked_eq _ _ _ _ _ (by omega)]
    refine Option.bind_congr fun looped hloop => ?_
    obtain ⟨buffer, offset, count⟩ := looped
    obtain ⟨hle, -, -, -⟩ := formatMdcLoop_lt (by omega) hloop
    dsimp only
    split
    · rw [checkedSub_eq (by omega), sizeSub_eq (by omega)]
      rfl
    · rfl

/-! A section never uses more than its room. -/

/-- The length a section writer returned in a room of `room` bytes. -/
def Within (room : Nat) (result : Option (Buffer × Nat)) : Prop :=
  ∀ written, result = some written → written.2 = 0 ∨ written.2 < room

theorem formatField_within (buffer : Buffer) (base room : Nat) (out : List UInt8) :
    Within room (formatField buffer base room out) := by
  intro written h
  unfold formatField at h
  obtain ⟨⟨buffer, ret⟩, hprint, h⟩ := Option.bind_eq_some_iff.mp h
  dsimp only at h
  by_cases hstop : ret < 0 ∨ room ≤ sizeOfInt ret
  · rw [if_pos hstop] at h
    obtain ⟨_, _, h⟩ := Option.bind_eq_some_iff.mp h
    cases h
    exact .inl rfl
  · rw [if_neg hstop] at h
    cases h
    exact .inr (by dsimp only; omega)

theorem formatSeverity_within (buffer : Buffer) (base room : Nat) (severity : Severity) :
    Within room (formatSeverity buffer base room severity) := by
  unfold formatSeverity
  cases severity.val with
  | some val => exact formatField_within buffer base room _
  | none =>
    intro written h
    obtain ⟨_, _, h⟩ := Option.bind_eq_some_iff.mp h
    cases h
    exact .inl rfl

theorem formatMdc_within (buffer : Buffer) (base room : Nat) (mdc : List (CStr × CStr)) :
    Within room (formatMdc buffer base room mdc) := by
  have hheader : (ascii "\"mdc\":\x7b").length = 7 := by decide
  intro written h
  unfold formatMdc at h
  obtain ⟨⟨buffer, ret⟩, hprint, h⟩ := Option.bind_eq_some_iff.mp h
  obtain rfl : ret = (7 : Nat) := by
    rw [← hheader]
    exact snprintf_value hprint (by rw [hheader]; decide)
  have hsize : sizeAdd (sizeOfInt ((7 : Nat) : Int)) 1 = 8 := by decide
  dsimp only at h
  rw [hsize] at h
  by_cases hsmall : ((7 : Nat) : Int) < 0 ∨ room ≤ 8
  · rw [if_pos hsmall] at h
    obtain ⟨_, _, h⟩ := Option.bind_eq_some_iff.mp h
    cases h
    exact .inl rfl
  · rw [if_neg hsmall, Int.toNat_natCast] at h
    obtain ⟨⟨buffer, offset, count⟩, hloop, h⟩ := Option.bind_eq_some_iff.mp h
    obtain ⟨hle, hlt, -, hsame⟩ := formatMdcLoop_lt (by omega) hloop
    obtain ⟨_, _, h⟩ := Option.bind_eq_some_iff.mp h
    obtain ⟨_, _, h⟩ := Option.bind_eq_some_iff.mp h
    cases h
    right
    dsimp only
    split
    · omega
    · have hfirst := hsame (by omega)
      omega

theorem sectionRoom_eq {len offset : Nat} (h : offset + 20 ≤ len) :
    sectionRoom len offset = len - offset - 20 ∧
      sectionRoomChecked len offset = some (sectionRoom len offset) := by
  have hoffset : sizeSub len offset = len - offset := sizeSub_eq (by omega)
  have hminimum : sizeSub (len - offset) 19 = len - offset - 19 := sizeSub_eq (by omega)
  have hone : sizeSub (len - offset - 19) 1 = len - offset - 19 - 1 := sizeSub_eq (by omega)
  unfold sectionRoom sectionRoomChecked
  rw [length_minimumMessage, checkedSub_eq (show offset ≤ len by omega), Option.bind_eq_bind,
    Option.bind_some, hoffset, checkedSub_eq (show 19 ≤ len - offset by omega),
    Option.bind_some, hminimum,
    checkedSub_eq (show 1 ≤ len - offset - 19 by omega), hone]
  exact ⟨by omega, rfl⟩

/-- The reserve is still there behind a section and its comma. -/
theorem appendComma_reserve {len offset : Nat} {result : Option (Buffer × Nat)}
    {written state : Buffer × Nat} (h : offset + 20 ≤ len)
    (hwithin : Within (sectionRoom len offset) result) (hwritten : result = some written)
    (hstate : appendComma offset written = some state) : state.2 + 20 ≤ len := by
  have hroom := hwithin written hwritten
  rw [(sectionRoom_eq h).1] at hroom
  unfold appendComma at hstate
  by_cases hpos : 0 < written.2
  · rw [if_pos hpos] at hstate
    obtain ⟨_, _, hstate⟩ := Option.bind_eq_some_iff.mp hstate
    cases hstate
    dsimp only
    omega
  · rw [if_neg hpos] at hstate
    cases hstate
    exact h

/-- One section in the two formatters. -/
theorem section_congr {len offset : Nat} (h : offset + 20 ≤ len)
    (writer : Nat → Option (Buffer × Nat)) (hwithin : ∀ room, Within room (writer room))
    {rest rest' : Buffer × Nat → Option (Buffer × Int)}
    (hrest : ∀ state, state.2 + 20 ≤ len → rest state = rest' state) :
    ((sectionRoomChecked len offset).bind fun room =>
        (writer room).bind fun written => (appendComma offset written).bind rest) =
      (writer (sectionRoom len offset)).bind fun written =>
        (appendComma offset written).bind rest' := by
  rw [(sectionRoom_eq h).2, Option.bind_some]
  refine Option.bind_congr fun written hwritten => Option.bind_congr fun state hstate => ?_
  exact hrest state (appendComma_reserve h (hwithin _) hwritten hstate)

theorem formatLogEntryChecked_eq (buffer : Buffer) {len : Nat} (hlen : 21 ≤ len) (tv : Timeval)
    (identity : Option CStr) (severity : Severity) (mdc : List (CStr × CStr))
    (malloc : Option (Nat → UInt8)) (call : Vsnprintf) :
    formatLogEntryChecked buffer len tv identity severity mdc malloc call =
      formatLogEntry buffer len tv identity severity mdc malloc call := by
  unfold formatLogEntryChecked formatLogEntry
  refine Option.bind_congr fun buffer _ => ?_
  refine section_congr (show 1 + 20 ≤ len by omega) (fun room => formatTimestamp buffer 1 room tv)
    (fun room => formatField_within _ _ _ _) fun state₁ h₁ => ?_
  refine section_congr h₁ (fun room => formatSeverity state₁.1 state₁.2 room severity)
    (fun room => formatSeverity_within _ _ _ _) fun state₂ h₂ => ?_
  refine section_congr h₂ (fun room => formatIdentity state₂.1 state₂.2 room identity)
    (fun room => formatField_within _ _ _ _) fun state₃ h₃ => ?_
  simp only [formatMdcChecked_eq, formatMessageChecked_eq]
  refine section_congr h₃ (fun room => formatMdc state₃.1 state₃.2 room mdc)
    (fun room => formatMdc_within _ _ _ _) fun state₄ h₄ => ?_
  have hoffset : sizeSub len state₄.2 = len - state₄.2 := sizeSub_eq (by omega)
  simp only [checkedSub_eq (show state₄.2 ≤ len by omega), Option.bind_eq_bind, Option.bind_some,
    hoffset, checkedSub_eq (show 1 ≤ len - state₄.2 by omega)]

/-! The formatter always returns. -/

theorem formatMessage_malloc_none (front back : List UInt8) {len : Nat} (call : Vsnprintf)
    (hpos : 0 < back.length) (hback : len ≤ back.length) (hmax : len ≤ intMax) :
    ∃ rest, formatMessage (front ++ back) front.length len none call =
        some (front ++ rest, 0) ∧ rest.length = back.length := by
  have hheader : (ascii "\"msg\":\"").length = 7 := by decide
  have hstore : ∀ {back : List UInt8}, 0 < back.length →
      store (front ++ back) front.length 0 = some (front ++ 0 :: back.drop 1) ∧
        (0 :: back.drop 1).length = back.length := by
    intro back hback
    refine ⟨store_eq_some front 0 (List.ne_nil_of_length_pos hback), ?_⟩
    rw [List.length_cons, List.length_drop]
    omega
  unfold formatMessage
  rw [length_minimumMessage]
  by_cases hshort : len ≤ 19
  · rw [if_pos hshort, (hstore hpos).1]
    exact ⟨_, rfl, (hstore hpos).2⟩
  · have hsize : sizeOfInt ((7 : Nat) : Int) = 7 := by decide
    have hgood : ¬(((7 : Nat) : Int) < 0 ∨ len ≤ 7) := by omega
    have hcut : 0 < (ascii "\"msg\":\"" ++ 0 :: back.drop 8).length := by simp
    rw [if_neg hshort, snprintf_of_lt front back _ (by omega) hback (by omega)]
    simp only [Option.bind_eq_bind, Option.bind_some, hheader, hsize, if_neg hgood]
    rw [List.append_assoc, (hstore hcut).1]
    refine ⟨_, rfl, (hstore hcut).2.trans ?_⟩
    rw [List.length_append, hheader, List.length_cons, List.length_drop]
    omega

theorem formatLogEntry_returns {buffer : Buffer} {len : Nat} (hlen : 21 ≤ len)
    (hmax : len ≤ intMax) (hbuffer : len ≤ buffer.length) (tv : Timeval) (identity : Option CStr)
    (severity : Severity) (mdc : List (CStr × CStr)) (malloc : Option (Nat → UInt8))
    (bytes : List UInt8) (hbytes : bytes.length ≤ intMax) :
    ∃ result r, formatLogEntry buffer len tv identity severity mdc malloc (.output bytes hbytes) =
      some (result, r) := by
  cases malloc with
  | some contents =>
    obtain ⟨rest, hformat⟩ := formatLogEntry_eq buffer tv identity severity mdc contents bytes
      hbytes hlen hmax hbuffer
    rw [hformat]
    split
    · exact ⟨_, _, rfl⟩
    · exact ⟨_, _, rfl⟩
  | none =>
    obtain ⟨rest, hstate, hsize, hreserve⟩ :=
      entryFront_stage buffer tv identity severity mdc hlen hmax hbuffer
    have hoffset : sizeSub len (entryFront len tv identity severity mdc).length =
        len - (entryFront len tv identity severity mdc).length := sizeSub_eq (by omega)
    have hone : sizeSub (len - (entryFront len tv identity severity mdc).length) 1 =
        len - (entryFront len tv identity severity mdc).length - 1 := sizeSub_eq (by omega)
    obtain ⟨after, hmessage, hafter⟩ := formatMessage_malloc_none
      (entryFront len tv identity severity mdc) rest (.output bytes hbytes)
      (by omega)
      (show len - (entryFront len tv identity severity mdc).length - 1 ≤ rest.length by omega)
      (by omega)
    have herase := store_eq_some [] 0
      (show entryFront len tv identity severity mdc ++ after ≠ [] from
        List.ne_nil_of_length_pos (by rw [List.length_append]; omega))
    rw [List.nil_append, List.length_nil] at herase
    rw [formatLogEntry_sections, hstate, Option.bind_eq_bind, Option.bind_some, closeEntry]
    simp only [hoffset, hone, hmessage, Option.bind_eq_bind, Option.bind_some, Nat.lt_irrefl,
      if_false, herase]
    exact ⟨_, _, rfl⟩

/-- In a buffer of exactly `len` bytes the formatter stores no byte outside it,
computes no negative length, reads only message text on its way back, and calls
`mdclog_internal_escape` with a positive length. -/
theorem formatLogEntry_safe {buffer : Buffer} {len : Nat} (hlen : 21 ≤ len)
    (hmax : len ≤ intMax) (hbuffer : buffer.length = len) (tv : Timeval) (identity : Option CStr)
    (severity : Severity) (mdc : List (CStr × CStr)) (malloc : Option (Nat → UInt8))
    (bytes : List UInt8) (hbytes : bytes.length ≤ intMax) :
    ∃ result r,
      formatLogEntryChecked buffer len tv identity severity mdc malloc (.output bytes hbytes) =
        some (result, r) ∧
      formatLogEntry buffer len tv identity severity mdc malloc (.output bytes hbytes) =
        some (result, r) := by
  obtain ⟨result, r, hformat⟩ := formatLogEntry_returns hlen hmax (Nat.le_of_eq hbuffer.symm) tv
    identity severity mdc malloc bytes hbytes
  refine ⟨result, r, ?_, hformat⟩
  rw [formatLogEntryChecked_eq buffer hlen, hformat]

/-- The way back from the end of the buffer crosses an escaped quote. -/
theorem formatLogEntry_safe_cut :
    ∃ rest, formatLogEntryChecked (List.replicate 86 0) 86 ⟨1, 0⟩ none .err
      [(.ofString "k", .ofString "v")] (some fun _ => 0)
      (.output (ascii "ab\"\"\"\"cdefghijklmnopqrstuvwxyz") (by decide)) =
        some (ascii "\x7b\"ts\":1000,\"crit\":\"ERROR\",\"id\":\"(null)\"," ++
          ascii "\"mdc\":\x7b\"k\":\"v\"\x7d,\"msg\":\"ab\\\"\\\"\\\"[truncated]\"\x7d" ++
          0 :: rest, 84) := by
  obtain ⟨result, r, hchecked, hformat⟩ := @formatLogEntry_safe (List.replicate 86 0) 86
    (by decide) (by decide) List.length_replicate ⟨1, 0⟩ none .err
    [(.ofString "k", .ofString "v")] (some fun _ => 0)
    (ascii "ab\"\"\"\"cdefghijklmnopqrstuvwxyz") (by decide)
  refine ⟨[0], ?_⟩
  rw [hchecked, ← hformat]
  decide +kernel

end Mdclog.FormatSafety
