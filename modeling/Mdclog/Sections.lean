import Mdclog.JsonFormat

/-! What each section writer leaves in the buffer. A writer gets `len` bytes at
`base`; it stores a text and a NUL there, touches nothing in front, and returns
the length of the text. -/
namespace Mdclog.Sections
open Foundation.ByteBuffer Foundation.Fitting CString Escape JsonFormat

/-- A text that is written only if it fits together with its NUL. -/
def whole (len : Nat) (text : List UInt8) : List UInt8 :=
  if text.length < len then text else []

theorem whole_short (text : List UInt8) (len : Nat) :
    whole len text = [] ∨ (whole len text).length < len := by
  unfold whole
  split
  · right
    assumption
  · left
    rfl

/-- Writing a NUL at the start of the section takes everything back. -/
theorem wrote_nothing (front back : List UInt8) (h : 0 < back.length) :
    Wrote front [] (front.length + back.length) (do
      let buffer ← store (front ++ back) front.length 0
      return (buffer, 0)) := by
  refine ⟨back.drop 1, ?_, ?_⟩
  · rw [store_eq_some front _ (List.ne_nil_of_length_pos h)]
    simp
  · rw [List.length_drop, List.length_nil]
    omega

theorem formatField_wrote (front back out : List UInt8) {len : Nat}
    (hpos : 0 < back.length) (hback : len ≤ back.length) (hmax : len ≤ intMax) :
    Wrote front (whole len out) (front.length + back.length)
      (formatField (front ++ back) front.length len out) := by
  unfold formatField whole
  by_cases hfit : out.length < len
  · have hsize : sizeOfInt (out.length : Int) = out.length :=
      sizeOfInt_natCast (lt_sizeModulus (by omega))
    rw [snprintf_of_lt front back out hfit hback (by omega), if_pos hfit]
    refine ⟨back.drop (out.length + 1), ?_, ?_⟩
    · simp only [Option.bind_eq_bind, Option.bind_some, hsize]
      rw [if_neg (by omega)]
      rfl
    · rw [List.length_drop]
      omega
  · obtain ⟨rest, value, hprint, hrest, hvalue⟩ :=
      snprintf_of_le front back out (by omega) hback
    rw [hprint, if_neg hfit, ← hrest]
    simp only [Option.bind_eq_bind, Option.bind_some, if_pos hvalue]
    exact wrote_nothing front rest (by omega)

theorem formatTimestamp_wrote (front back : List UInt8) (tv : Timeval) {len : Nat}
    (hpos : 0 < back.length) (hback : len ≤ back.length) (hmax : len ≤ intMax) :
    Wrote front (whole len (timestampText tv)) (front.length + back.length)
      (formatTimestamp (front ++ back) front.length len tv) :=
  formatField_wrote front back _ hpos hback hmax

/-- The severity member; nothing for a value that names no level. -/
def severityMember (severity : Severity) : List UInt8 :=
  match severity.val with
  | some val => severityText val
  | none => []

theorem formatSeverity_wrote (front back : List UInt8) (severity : Severity) {len : Nat}
    (hpos : 0 < back.length) (hback : len ≤ back.length) (hmax : len ≤ intMax) :
    Wrote front (whole len (severityMember severity)) (front.length + back.length)
      (formatSeverity (front ++ back) front.length len severity) := by
  unfold formatSeverity severityMember
  cases severity.val with
  | some val => exact formatField_wrote front back _ hpos hback hmax
  | none =>
    have hnothing : whole len [] = [] := by simp [whole]
    rw [hnothing]
    exact wrote_nothing front back (by omega)

theorem formatIdentity_wrote (front back : List UInt8) (identity : Option CStr) {len : Nat}
    (hpos : 0 < back.length) (hback : len ≤ back.length) (hmax : len ≤ intMax) :
    Wrote front (whole len (identityText identity)) (front.length + back.length)
      (formatIdentity (front ++ back) front.length len identity) :=
  formatField_wrote front back _ hpos hback hmax

/-! The MDC section. -/

def pairsText (pairs : List (CStr × CStr)) : List UInt8 := pairs.flatMap pairText

@[simp] theorem pairsText_cons (pair : CStr × CStr) (pairs : List (CStr × CStr)) :
    pairsText (pair :: pairs) = pairText pair ++ pairsText pairs := rfl

theorem length_pairText (pair : CStr × CStr) :
    (pairText pair).length = pair.1.bytes.length + pair.2.bytes.length + 6 := by
  have h₁ : (ascii "\"").length = 1 := by decide
  have h₂ : (ascii "\":\"").length = 3 := by decide
  have h₃ : (ascii "\",").length = 2 := by decide
  simp only [pairText, List.length_append, h₁, h₂, h₃]
  omega

theorem length_pairsText (pairs : List (CStr × CStr)) :
    (pairsText pairs).length = total (fun pair => (pairText pair).length) pairs := by
  simp [pairsText, total, List.length_flatMap]

/-- The pairs that fit into `room` bytes, each with its comma. -/
def fitPairs (room : Nat) (pairs : List (CStr × CStr)) : List (CStr × CStr) :=
  fitting (fun pair => (pairText pair).length) room pairs

theorem fitPairs_isPrefix (room : Nat) (pairs : List (CStr × CStr)) :
    fitPairs room pairs <+: pairs :=
  fitting_isPrefix _ room pairs

theorem length_pairsText_fitPairs (room : Nat) (pairs : List (CStr × CStr)) :
    (pairsText (fitPairs room pairs)).length ≤ room := by
  rw [length_pairsText]
  exact total_fitting_le _ room pairs

def mdcHeader : List UInt8 := ascii "\"mdc\":\x7b"

theorem length_mdcHeader : mdcHeader.length = 7 := by decide

/-- The member with exactly these pairs: the last comma gives way to the brace. -/
def mdcText (pairs : List (CStr × CStr)) : List UInt8 :=
  mdcHeader ++ (pairsText pairs).dropLast ++ [0x7d]

/-- The loop stores whole pairs and stops in front of the first that does not
fit; what a cut pair left behind it is part of `rest`. -/
theorem formatMdcLoop_eq (base : Nat) {len : Nat} (offset count : Nat) (front back : List UInt8)
    (mdc : List (CStr × CStr)) (hoffset : offset < len) (hmax : len ≤ intMax)
    (hfront : front.length = base + offset) (hback : len - offset ≤ back.length) :
    let kept := fitPairs (len - 1 - offset) mdc
    ∃ rest, formatMdcLoop base len (front ++ back) offset count mdc =
        some (front ++ pairsText kept ++ rest, offset + (pairsText kept).length,
          count + kept.length) ∧
      rest.length + (pairsText kept).length = back.length := by
  intro kept
  induction mdc generalizing front back offset count with
  | nil => exact ⟨back, by simp [kept, fitPairs, fitting, pairsText, formatMdcLoop]⟩
  | cons pair mdc ih =>
    have hsub : sizeSub len offset = len - offset := sizeSub_eq (by omega)
    rw [formatMdcLoop, hsub, ← hfront]
    by_cases hfit : (pairText pair).length < len - offset
    · have hroom : (pairText pair).length ≤ len - 1 - offset := by omega
      have hkept : kept =
          pair :: fitPairs (len - 1 - (offset + (pairText pair).length)) mdc := by
        rw [show len - 1 - (offset + (pairText pair).length) =
          len - 1 - offset - (pairText pair).length by omega]
        simp only [kept, fitPairs, fitting, if_pos hroom]
      obtain ⟨rest, hloop, hrest⟩ := ih (offset + (pairText pair).length) (count + 1)
        (front ++ pairText pair) (0 :: back.drop ((pairText pair).length + 1)) (by omega)
        (by rw [List.length_append]; omega)
        (by rw [List.length_cons, List.length_drop]; omega)
      have hsize : sizeOfInt ((pairText pair).length : Int) = (pairText pair).length :=
        sizeOfInt_natCast (lt_sizeModulus (by omega))
      rw [List.length_cons, List.length_drop] at hrest
      refine ⟨rest, ?_, ?_⟩
      · rw [snprintf_of_lt front back _ hfit hback (by omega)]
        simp only [Option.bind_eq_bind, Option.bind_some, hsize, Int.toNat_natCast]
        rw [if_neg (by omega), hloop, hkept]
        simp only [pairsText_cons, List.append_assoc, List.length_append, List.length_cons,
          Nat.add_assoc, Nat.add_comm 1]
      · rw [hkept, pairsText_cons, List.length_append]
        omega
    · have hroom : ¬(pairText pair).length ≤ len - 1 - offset := by omega
      have hkept : kept = [] := by simp only [kept, fitPairs, fitting, if_neg hroom]
      obtain ⟨rest, value, hprint, hrest, hvalue⟩ :=
        snprintf_of_le front back (pairText pair) (by omega) hback
      refine ⟨rest, ?_, ?_⟩
      · rw [hprint, hkept]
        simp only [Option.bind_eq_bind, Option.bind_some, if_pos hvalue]
        simp [pairsText]
      · rw [hkept]
        simpa [pairsText] using hrest

/-- The text of the section in a room of `len` bytes. -/
def mdcMember (len : Nat) (mdc : List (CStr × CStr)) : List UInt8 :=
  if 8 < len then mdcText (fitPairs (len - 8) mdc) else []

theorem pairsText_eq_nil_iff {pairs : List (CStr × CStr)} : pairsText pairs = [] ↔ pairs = [] := by
  cases pairs with
  | nil => simp [pairsText]
  | cons pair pairs =>
    have hlength := length_pairText pair
    simp only [pairsText_cons, List.append_eq_nil_iff, reduceCtorEq, iff_false, not_and]
    intro h
    rw [h, List.length_nil] at hlength
    omega

theorem length_mdcText (pairs : List (CStr × CStr)) :
    (mdcText pairs).length = 8 + ((pairsText pairs).length - 1) := by
  simp only [mdcText, List.length_append, length_mdcHeader, List.length_dropLast,
    List.length_singleton]
  omega

theorem mdcMember_short (mdc : List (CStr × CStr)) (len : Nat) :
    mdcMember len mdc = [] ∨ (mdcMember len mdc).length < len := by
  unfold mdcMember
  split
  · right
    have hfit := length_pairsText_fitPairs (len - 8) mdc
    rw [length_mdcText]
    omega
  · left
    rfl

/-- Two bytes stored one after the other. -/
theorem store_store (front back : List UInt8) (first second : UInt8) (h : 2 ≤ back.length) :
    (do
      let buffer ← store (front ++ back) front.length first
      store buffer (front.length + 1) second) =
      some (front ++ first :: second :: back.drop 2) := by
  match back, h with
  | b₁ :: b₂ :: back, _ =>
    have hsecond := store_append (front ++ [first]) b₂ second back
    rw [List.length_append, List.length_singleton, List.append_assoc] at hsecond
    rw [store_append]
    simpa using hsecond

/-- The brace goes to the place of the last comma, or behind the header if no
pair was written. -/
theorem dropLast_append_tail (pairs : List (CStr × CStr)) (rest : List UInt8)
    (hrest : 0 < rest.length) (hlength : 2 ≤ rest.length + (pairsText pairs).length) :
    ∃ tail, pairsText pairs ++ rest = (pairsText pairs).dropLast ++ tail ∧ 2 ≤ tail.length := by
  by_cases hpairs : pairsText pairs = []
  · refine ⟨rest, ?_, ?_⟩
    · simp [hpairs]
    · simpa [hpairs] using hlength
  · refine ⟨(pairsText pairs).getLast hpairs :: rest, ?_, ?_⟩
    · rw [List.append_cons, List.dropLast_append_getLast]
    · rw [List.length_cons]
      omega

theorem commaOffset_eq (pairs : List (CStr × CStr)) :
    (if 0 < pairs.length then mdcHeader.length + (pairsText pairs).length - 1
      else mdcHeader.length + (pairsText pairs).length) =
      (mdcHeader ++ (pairsText pairs).dropLast).length := by
  rw [List.length_append, List.length_dropLast]
  cases pairs with
  | nil => simp [pairsText]
  | cons pair pairs =>
    have hpair := length_pairText pair
    rw [if_pos (by simp), pairsText_cons, List.length_append]
    omega

theorem formatMdc_wrote (front back : List UInt8) (mdc : List (CStr × CStr)) {len : Nat}
    (hpos : 0 < back.length) (hback : len ≤ back.length) (hmax : len ≤ intMax) :
    Wrote front (mdcMember len mdc) (front.length + back.length)
      (formatMdc (front ++ back) front.length len mdc) := by
  unfold formatMdc mdcMember
  change Wrote _ _ _ (snprintf _ _ _ mdcHeader >>= _)
  have hheader := length_mdcHeader
  by_cases hcut : mdcHeader.length < len
  · have hsize : sizeOfInt (mdcHeader.length : Int) = mdcHeader.length :=
      sizeOfInt_natCast (lt_sizeModulus (by omega))
    have hadd : sizeAdd mdcHeader.length 1 = mdcHeader.length + 1 := by
      rw [length_mdcHeader]
      decide
    rw [snprintf_of_lt front back mdcHeader hcut hback (by omega)]
    simp only [Option.bind_eq_bind, Option.bind_some, hsize, hadd, Int.toNat_natCast]
    by_cases hroom : 8 < len
    · obtain ⟨rest, hloop, hrest⟩ := formatMdcLoop_eq front.length mdcHeader.length 0
        (front ++ mdcHeader) (0 :: back.drop (mdcHeader.length + 1)) mdc hcut hmax (by simp)
        (by rw [List.length_cons, List.length_drop]; omega)
      rw [show len - 1 - mdcHeader.length = len - 8 by omega] at hloop hrest
      have hfit := length_pairsText_fitPairs (len - 8) mdc
      rw [if_pos hroom]
      generalize fitPairs (len - 8) mdc = kept at hloop hrest hfit ⊢
      rw [List.length_cons, List.length_drop] at hrest
      obtain ⟨tail, htail, htwo⟩ := dropLast_append_tail kept rest (by omega) (by omega)
      have hclose := store_store (front ++ (mdcHeader ++ (pairsText kept).dropLast)) tail
        0x7d 0 htwo
      rw [List.length_append] at hclose
      rw [if_neg (by omega), hloop]
      simp only [Option.bind_some, Nat.zero_add, commaOffset_eq]
      rw [List.append_assoc (front ++ mdcHeader), htail, ← List.append_assoc, ← Nat.add_assoc,
        List.append_assoc front, ← Option.bind_assoc]
      change Wrote _ _ _ ((store _ _ _ >>= fun _ => store _ _ _).bind _)
      rw [hclose]
      refine ⟨tail.drop 2, ?_, ?_⟩
      · simp [mdcText, Nat.add_assoc]
      · have hlengths := congrArg List.length htail
        simp only [List.length_append] at hlengths
        rw [List.length_drop, mdcText]
        simp only [List.length_append, List.length_singleton]
        omega
    · have hsmall : ((mdcHeader.length : Int) < 0 ∨ len ≤ mdcHeader.length + 1) := by omega
      have hnothing := wrote_nothing front (mdcHeader ++ 0 :: back.drop (mdcHeader.length + 1))
        (by simp)
      rw [if_pos hsmall, if_neg hroom, List.append_assoc]
      have hsize : (mdcHeader ++ 0 :: back.drop (mdcHeader.length + 1)).length = back.length := by
        simp only [List.length_append, List.length_cons, List.length_drop]
        omega
      rwa [hsize] at hnothing
  · obtain ⟨rest, value, hprint, hrest, _⟩ :=
      snprintf_of_le front back mdcHeader (by omega) hback
    have hvalue := snprintf_value hprint (by rw [hheader]; decide)
    have hsmall : value < 0 ∨ len ≤ sizeAdd (sizeOfInt value) 1 := by
      right
      rw [hvalue, hheader]
      exact (show len ≤ 8 by omega)
    rw [hprint, if_neg (show ¬8 < len by omega), ← hrest]
    simp only [Option.bind_eq_bind, Option.bind_some, if_pos hsmall]
    exact wrote_nothing front rest (by omega)

/-! The message section. -/

def msgHeader : List UInt8 := ascii "\"msg\":\""

theorem length_msgHeader : msgHeader.length = 7 := by decide

theorem length_truncatedText : truncatedText.length = 11 := by decide

theorem length_minimumMessage : minimumMessage.length = 19 := by decide

/-- The last byte of an escaped character tells whether it was a pair. -/
theorem escapeByte_last (c : UInt8) :
    ∃ init last, escapeByte c = init ++ [last] ∧ isEscaped last = isEscaped c ∧
      init.length = if isEscaped c then 1 else 0 := by
  by_cases hc : isEscaped c = true
  · refine ⟨[backslash], c, ?_, rfl, by simp [hc]⟩
    simp [escapeByte, hc, renderByte_of_isprint (isprint_of_isEscaped hc)]
  · exact ⟨[], renderByte c, by simp [escapeByte, hc], isEscaped_renderByte c, by simp [hc]⟩

/-- A round of the search goes back over one plain byte. -/
theorem truncateLoop_plain {buffer : Buffer} {base len i : Nat} {c : UInt8}
    (hcut : sizeSub len 1 ≤ i + 1 + truncatedText.length) (hget : buffer[base + i]? = some c)
    (hc : ¬isEscaped c = true) :
    truncateLoop buffer base len (i + 1) = truncateLoop buffer base len i := by
  rw [truncateLoop.eq_def]
  simp only [hget]
  rw [if_pos hcut]
  exact if_neg hc

/-- A round of the search goes back over an escaped byte and its backslash. -/
theorem truncateLoop_escaped {buffer : Buffer} {base len i : Nat} {c : UInt8}
    (hcut : sizeSub len 1 ≤ i + 1 + 1 + truncatedText.length)
    (hget : buffer[base + (i + 1)]? = some c) (hc : isEscaped c = true) :
    truncateLoop buffer base len (i + 1 + 1) = truncateLoop buffer base len i := by
  rw [truncateLoop.eq_def]
  simp only [hget]
  rw [if_pos hcut]
  exact if_pos hc

theorem truncateLoop_of_lt {buffer : Buffer} {base len i : Nat}
    (hroom : i + truncatedText.length < sizeSub len 1) :
    truncateLoop buffer base len i = some i := by
  cases i with
  | zero =>
    rw [truncateLoop, if_neg (by omega)]
  | succ i =>
    rw [truncateLoop.eq_def]
    simp only
    rw [if_neg (by omega)]

/-- The search stands on the boundary of a character in every round, so it
stops behind the longest prefix that leaves room for the mark, and never in
front of the text. -/
theorem truncateLoop_eq (front rest text : List UInt8) {len : Nat} (hlen : 20 ≤ len) :
    truncateLoop (front ++ msgHeader ++ escapeText text ++ rest) front.length len
        (7 + (escapeText text).length) =
      some (7 + (escapeText (fitPrefix (len - 20) text)).length) := by
  have hsub : sizeSub len 1 = len - 1 := sizeSub_eq (by omega)
  have hmark := length_truncatedText
  induction text using List.reverseRecOn generalizing rest with
  | nil =>
    simp only [escapeText_nil, List.length_nil, fitPrefix, fitting]
    exact truncateLoop_of_lt (by omega)
  | append_singleton text c ih =>
    obtain ⟨init, last, hbyte, hlast, hinit⟩ := escapeByte_last c
    have hescape : escapeText (text ++ [c]) = escapeText text ++ (init ++ [last]) := by
      simp [hbyte]
    have hlength : (escapeText (text ++ [c])).length =
        (escapeText text).length + init.length + 1 := by
      rw [hescape]
      simp only [List.length_append, List.length_singleton]
      omega
    by_cases hfit : (escapeText (text ++ [c])).length ≤ len - 20
    · rw [fitPrefix_eq_self_iff.mpr hfit]
      exact truncateLoop_of_lt (by omega)
    · have hget : (front ++ msgHeader ++ escapeText (text ++ [c]) ++ rest)[front.length +
          (7 + (escapeText text).length + init.length)]? = some last := by
        have hfront : front.length + (7 + (escapeText text).length + init.length) =
            (front ++ msgHeader ++ escapeText text ++ init).length := by
          simp only [List.length_append, length_msgHeader]
          omega
        rw [hescape, hfront, show front ++ msgHeader ++ (escapeText text ++ (init ++ [last])) ++
          rest = front ++ msgHeader ++ escapeText text ++ init ++ last :: rest by simp,
          List.getElem?_append_right (Nat.le_refl _)]
        simp
      have hrec := ih (init ++ [last] ++ rest)
      rw [show front ++ msgHeader ++ escapeText text ++ (init ++ [last] ++ rest) =
        front ++ msgHeader ++ escapeText (text ++ [c]) ++ rest by simp [hbyte]] at hrec
      rw [hlength, fitPrefix_append_singleton (by omega)]
      -- one byte back for a plain character, two for an escaped one
      by_cases hc : isEscaped c = true
      · rw [if_pos hc] at hinit
        rw [hinit] at hget ⊢
        rw [← hrec, show 7 + ((escapeText text).length + 1 + 1) =
          7 + (escapeText text).length + 1 + 1 by omega]
        exact truncateLoop_escaped (by omega) hget (hlast ▸ hc)
      · rw [if_neg hc] at hinit
        rw [hinit] at hget ⊢
        rw [← hrec, show 7 + ((escapeText text).length + 0 + 1) =
          7 + (escapeText text).length + 1 by omega]
        exact truncateLoop_plain (by omega) hget (hlast ▸ hc)

/-- The text of the section for the formatted string `text`; `cut` says that the
string itself had already been cut. -/
def messageMember (len : Nat) (text : List UInt8) (cut : Bool) : List UInt8 :=
  if len ≤ 19 then []
  else if cut || decide (fitPrefix (len - 9) text ≠ text) then
    msgHeader ++ escapeText (fitPrefix (len - 20) text) ++ truncatedText ++ ascii "\""
  else
    msgHeader ++ escapeText text ++ ascii "\""

/-- The two ways the message is closed print at the end of some text. -/
theorem sprintf_wrote (front text back out : List UInt8) (h : out.length < back.length) :
    Wrote front (msgHeader ++ text ++ out) (front.length + (7 + text.length + back.length))
      (do
        let (buffer, added) ← sprintf (front ++ msgHeader ++ text ++ back)
          (front.length + (7 + text.length)) out
        return (buffer, 7 + text.length + added)) := by
  have hfront : front.length + (7 + text.length) = (front ++ msgHeader ++ text).length := by
    simp only [List.length_append, length_msgHeader]
    omega
  refine ⟨back.drop (out.length + 1), ?_, ?_⟩
  · rw [hfront, sprintf_eq_some _ _ _ h]
    simp only [Option.bind_eq_bind, Option.bind_some, List.length_append, length_msgHeader]
    simp
  · simp only [List.length_append, length_msgHeader, List.length_drop]
    omega

/-- The section for whatever string `vsnprintf` has left in the temporary buffer. -/
theorem formatMessage_copied (front back : List UInt8) (contents : Nat → UInt8)
    (call : Vsnprintf) {len : Nat} (hlen : 20 ≤ len) (hback : len ≤ back.length) {tmp : Buffer}
    {ret : Int} (hcall : vsnprintf call (fresh contents (len - 7)) (len - 7) = some (tmp, ret)) :
    Wrote front
      (messageMember len (CStr.ofMemory tmp).bytes
        (decide (len - 7 ≤ sizeAdd (sizeOfInt ret) 1)))
      (front.length + back.length)
      (formatMessage (front ++ back) front.length len (some contents) call) := by
  unfold formatMessage messageMember
  have hheader := length_msgHeader
  have hshort : ¬len ≤ 19 := by omega
  rw [length_minimumMessage]
  simp only [if_neg hshort]
  change Wrote _ _ _ (snprintf _ _ _ msgHeader >>= _)
  have hsize : sizeOfInt ((7 : Nat) : Int) = 7 := by decide
  have hgood : ¬(((7 : Nat) : Int) < 0 ∨ len ≤ 7) := by omega
  have hsub : sizeSub len 7 = len - 7 := sizeSub_eq (by omega)
  have hsub' : sizeSub (len - 7) 1 = len - 8 := by
    rw [sizeSub_eq (by omega)]
    omega
  rw [snprintf_of_lt front back msgHeader (by omega) hback (by rw [hheader]; decide)]
  simp only [Option.bind_eq_bind, Option.bind_some, hsize, hgood, if_false, Int.toNat_natCast,
    hheader, hsub, hsub', hcall]
  generalize CStr.ofMemory tmp = text
  obtain ⟨rest, hescape, hrest⟩ := mdclogInternalEscape_eq (front ++ msgHeader)
    (0 :: back.drop (7 + 1)) text (show 0 < len - 8 by omega)
    (by rw [List.length_cons, List.length_drop]; omega)
  rw [List.length_append, hheader, show len - 8 - 1 = len - 9 by omega] at hescape
  rw [List.length_cons, List.length_drop, show len - 8 - 1 = len - 9 by omega] at hrest
  simp only [hescape, Option.bind_some]
  split
  · -- the mark goes behind the longest prefix that leaves room for it
    obtain ⟨more, hmore⟩ :
        fitPrefix (len - 20) text.bytes <+: fitPrefix (len - 9) text.bytes := by
      rw [← fitPrefix_fitPrefix (show len - 20 ≤ len - 9 by omega)]
      exact fitPrefix_isPrefix _ _
    have hsplit : escapeText (fitPrefix (len - 9) text.bytes) ++ 0 :: rest =
        escapeText (fitPrefix (len - 20) text.bytes) ++ (escapeText more ++ 0 :: rest) := by
      rw [← hmore]
      simp
    have hkept := length_escapeText_fitPrefix (len - 20) text.bytes
    have hlengths := congrArg List.length hsplit
    simp only [List.length_append, List.length_cons] at hlengths
    have hwrote := sprintf_wrote front (escapeText (fitPrefix (len - 20) text.bytes))
      (escapeText more ++ 0 :: rest) (truncatedText ++ ascii "\"") (by
        simp only [List.length_append, List.length_cons, length_truncatedText]
        change 11 + 1 < _
        omega)
    rw [truncateLoop_eq front (0 :: rest) _ (by omega),
      fitPrefix_fitPrefix (show len - 20 ≤ len - 9 by omega)]
    rw [show front ++ msgHeader ++ escapeText (fitPrefix (len - 9) text.bytes) ++ 0 :: rest =
      front ++ msgHeader ++ escapeText (fitPrefix (len - 20) text.bytes) ++
        (escapeText more ++ 0 :: rest) by
          rw [List.append_assoc _ (escapeText _), hsplit, ← List.append_assoc]]
    rw [← List.append_assoc, show 7 + (escapeText (fitPrefix (len - 20) text.bytes)).length +
      (escapeText more ++ 0 :: rest).length = back.length by
        simp only [List.length_append, List.length_cons]
        omega] at hwrote
    exact hwrote
  · rename_i hwhole
    have hkept : fitPrefix (len - 9) text.bytes = text.bytes := by
      simp only [Bool.or_eq_true, decide_eq_true_eq, not_or, not_not] at hwhole
      exact hwhole.2
    have hfit := fitPrefix_eq_self_iff.mp hkept
    rw [hkept] at hrest ⊢
    have hwrote := sprintf_wrote front (escapeText text.bytes) (0 :: rest) (ascii "\"") (by
      simp only [List.length_cons]
      change 1 < _
      omega)
    rw [show 7 + (escapeText text.bytes).length + (0 :: rest).length = back.length by
      rw [List.length_cons]
      omega] at hwrote
    exact hwrote

theorem formatMessage_wrote (front back : List UInt8) (contents : Nat → UInt8)
    (bytes : List UInt8) (hbytes : bytes.length ≤ intMax) (len : Nat) (hlen : 0 < len)
    (hback : len ≤ back.length) :
    Wrote front
      (messageMember len (CStr.ofMemory (bytes.take (len - 8))).bytes
        (decide (len ≤ bytes.length + 8)))
      (front.length + back.length)
      (formatMessage (front ++ back) front.length len (some contents) (.output bytes hbytes)) := by
  by_cases hshort : len ≤ 19
  · unfold formatMessage messageMember
    rw [length_minimumMessage, if_pos hshort]
    simp only [if_pos hshort]
    exact wrote_nothing front back (by omega)
  · obtain ⟨tmp, htmp⟩ := snprintf_stores (fresh contents (len - 7)) bytes
      (show 0 < len - 7 by omega) (by simp) hbytes
    have hwrote := formatMessage_copied front back contents (.output bytes hbytes) (by omega) hback
      htmp
    have hadd : sizeAdd (sizeOfInt (bytes.length : Int)) 1 = bytes.length + 1 := by
      rw [sizeOfInt_natCast (lt_sizeModulus hbytes), sizeAdd_eq]
      unfold intMax sizeModulus at *
      omega
    have hcut : decide (len - 7 ≤ bytes.length + 1) = decide (len ≤ bytes.length + 8) :=
      decide_eq_decide.mpr (by omega)
    rwa [CStr.ofMemory_append_nul, hadd, hcut, show len - 7 - 1 = len - 8 by omega] at hwrote

theorem length_messageMember_lt (text : List UInt8) (cut : Bool) {len : Nat} (hlen : 0 < len) :
    (messageMember len text cut).length < len := by
  have hquote : (ascii "\"").length = 1 := by decide
  unfold messageMember
  split
  · exact hlen
  · split
    · have hfit := length_escapeText_fitPrefix (len - 20) text
      simp only [List.length_append, length_msgHeader, length_truncatedText, hquote]
      omega
    · rename_i hwhole
      simp only [Bool.or_eq_true, decide_eq_true_eq, not_or, not_not] at hwhole
      have hfit := fitPrefix_eq_self_iff.mp hwhole.2
      simp only [List.length_append, length_msgHeader, hquote]
      omega

theorem messageMember_eq_nil_iff (text : List UInt8) (cut : Bool) (len : Nat) :
    messageMember len text cut = [] ↔ len ≤ 19 := by
  have hheader : msgHeader ≠ [] := by decide
  unfold messageMember
  split
  · simp_all
  · split <;> simp_all

/-- The section for a message without NUL bytes: all of it when it fits,
otherwise the longest prefix that leaves room for the mark. -/
theorem messageMember_eq {len : Nat} {text : List UInt8} (hlen : 20 ≤ len) (hnul : 0 ∉ text) :
    messageMember len (CStr.ofMemory (text.take (len - 8))).bytes
        (decide (len ≤ text.length + 8)) =
      if (escapeText text).length + 9 ≤ len then
        msgHeader ++ escapeText text ++ ascii "\""
      else
        msgHeader ++ escapeText (fitPrefix (len - 20) text) ++ truncatedText ++ ascii "\"" := by
  have hcut : 0 ∉ text.take (len - 8) := fun h => hnul (List.mem_of_mem_take h)
  have hlong := length_le_escapeText text
  rw [CStr.bytes_ofMemory_of_notMem hcut]
  unfold messageMember
  rw [if_neg (by omega), fitPrefix_take (by omega), fitPrefix_take (by omega)]
  by_cases hfit : (escapeText text).length + 9 ≤ len
  · have hwhole : text.take (len - 8) = text := List.take_of_length_le (by omega)
    rw [hwhole, fitPrefix_eq_self_iff.mpr (show _ ≤ len - 9 by omega), if_pos hfit]
    rw [if_neg]
    simp only [ne_eq, not_true_eq_false, decide_false, Bool.or_false, decide_eq_true_eq]
    omega
  · rw [if_neg hfit, if_pos]
    simp only [Bool.or_eq_true, decide_eq_true_eq]
    by_cases htake : len ≤ text.length + 8
    · exact .inl htake
    · right
      rw [List.take_of_length_le (by omega), Ne, fitPrefix_eq_self_iff]
      omega

end Mdclog.Sections
