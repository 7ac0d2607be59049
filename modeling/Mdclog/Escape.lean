import Mdclog.CString
import Mdclog.Foundation.Fitting

/-! `json_format.c`, lines 59 to 135: escaping of text for a JSON string
literal, and the two functions that must agree with it (the size of the escaped
text, and the test whether escaping would change anything). -/
namespace Mdclog.Escape
open Foundation.ByteBuffer Foundation.Fitting CString

/-- The `for` loop of `mdclog_internal_escape`. The string argument is the part
not yet read; the result holds the index `d` and what is left of the string. -/
def escapeLoop (base len : Nat) : Buffer → Nat → List UInt8 → Option (Buffer × Nat × List UInt8)
  | buffer, d, [] => some (buffer, d, [])
  | buffer, d, c :: str =>
      if d < sizeSub len 1 then do
        let escaped := c = backslash || c = quote
        let buffer ← if escaped then store buffer (base + d) backslash else some buffer
        let d := if escaped then d + 1 else d
        let buffer ← store buffer (base + d) (if isprint c then c else space)
        escapeLoop base len buffer (d + 1) str
      else
        some (buffer, d, c :: str)

/-- `mdclog_internal_escape(&buffer[base], len, str, &truncated)`: the buffer,
the value returned and the truncation flag. -/
def mdclogInternalEscape (buffer : Buffer) (base len : Nat) (str : CStr) :
    Option (Buffer × Nat × Bool) := do
  let (buffer, d, unread) ← escapeLoop base len buffer 0 str.bytes
  if d = len then
    -- the last character was escaped, but it must be truncated
    let buffer ← store buffer (base + sizeSub len 2) 0
    return (buffer, sizeSub len 2, true)
  else
    let buffer ← store buffer (base + d) 0
    return (buffer, d, decide (unread ≠ []))

def escapedSizeLoop : List UInt8 → Nat → Nat
  | [], len => len
  | c :: str, len => escapedSizeLoop str ((if c = backslash || c = quote then len + 1 else len) + 1)

def mdclogInternalEscapedSize (str : CStr) : Nat :=
  escapedSizeLoop str.bytes 0 + 1

def containsSpecialLoop : List UInt8 → Bool
  | [] => false
  | c :: str => if !isprint c || c = backslash || c = quote then true else containsSpecialLoop str

def mdclogInternalContainsSpecialCharacters (str : CStr) : Bool :=
  containsSpecialLoop str.bytes

/-! What the loops compute, without buffers. -/

/-- A byte the library escapes. -/
def isEscaped (c : UInt8) : Bool := c = backslash || c = quote

def renderByte (c : UInt8) : UInt8 := if isprint c then c else space

/-- The text with every non-printable byte replaced by a space. -/
def render (text : List UInt8) : List UInt8 := text.map renderByte

def escapeByte (c : UInt8) : List UInt8 :=
  if isEscaped c then [backslash, renderByte c] else [renderByte c]

def escapeText (text : List UInt8) : List UInt8 := text.flatMap escapeByte

@[simp] theorem escapeText_nil : escapeText [] = [] := rfl

@[simp] theorem escapeText_cons (c : UInt8) (text : List UInt8) :
    escapeText (c :: text) = escapeByte c ++ escapeText text := rfl

@[simp] theorem escapeText_append (left right : List UInt8) :
    escapeText (left ++ right) = escapeText left ++ escapeText right := by
  simp [escapeText]

theorem length_escapeByte (c : UInt8) :
    (escapeByte c).length = if isEscaped c then 2 else 1 := by
  unfold escapeByte
  split <;> rfl

theorem length_escapeByte_pos (c : UInt8) : 0 < (escapeByte c).length := by
  rw [length_escapeByte]
  split <;> omega

theorem length_escapeByte_le (c : UInt8) : (escapeByte c).length ≤ 2 := by
  rw [length_escapeByte]
  split <;> omega

theorem length_escapeText (text : List UInt8) :
    (escapeText text).length = total (fun c => (escapeByte c).length) text := by
  simp [escapeText, total, List.length_flatMap]

/-- The longest prefix whose escaped text has at most `room` bytes. -/
def fitPrefix (room : Nat) (text : List UInt8) : List UInt8 :=
  fitting (fun c => (escapeByte c).length) room text

theorem fitPrefix_isPrefix (room : Nat) (text : List UInt8) : fitPrefix room text <+: text :=
  fitting_isPrefix _ room text

theorem length_escapeText_fitPrefix (room : Nat) (text : List UInt8) :
    (escapeText (fitPrefix room text)).length ≤ room := by
  rw [length_escapeText]
  exact total_fitting_le _ room text

theorem fitPrefix_eq_self_iff {room : Nat} {text : List UInt8} :
    fitPrefix room text = text ↔ (escapeText text).length ≤ room := by
  rw [length_escapeText]
  exact fitting_eq_self_iff _

theorem fitPrefix_fitPrefix {small large : Nat} (h : small ≤ large) (text : List UInt8) :
    fitPrefix small (fitPrefix large text) = fitPrefix small text :=
  fitting_fitting _ h text

theorem fitPrefix_append_singleton {room : Nat} {text : List UInt8} {c : UInt8}
    (h : room < (escapeText (text ++ [c])).length) :
    fitPrefix room (text ++ [c]) = fitPrefix room text := by
  rw [length_escapeText] at h
  exact fitting_append_singleton _ h

theorem length_le_escapeText (text : List UInt8) : text.length ≤ (escapeText text).length := by
  induction text with
  | nil => simp
  | cons c text ih =>
    have hpos := length_escapeByte_pos c
    rw [escapeText_cons, List.length_append, List.length_cons]
    omega

/-- A text can be cut first, if what is left is longer than the room. -/
theorem fitPrefix_take {room count : Nat} (h : room ≤ count) (text : List UInt8) :
    fitPrefix room (text.take count) = fitPrefix room text := by
  have hshort : (fitPrefix room text).length ≤ count :=
    ((length_le_escapeText _).trans (length_escapeText_fitPrefix room text)).trans h
  have hcut : fitPrefix room text <+: text.take count :=
    List.prefix_take_iff.mpr ⟨fitPrefix_isPrefix room text, hshort⟩
  apply List.IsPrefix.eq_of_length_le
  · exact isPrefix_fitting _ ((fitPrefix_isPrefix room _).trans (List.take_prefix count text))
      (total_fitting_le _ room _)
  · exact (isPrefix_fitting _ hcut (total_fitting_le _ room text)).length_le

/-! The loop meets the description. -/

theorem escapeLoop_of_le {base len d : Nat} (buffer : Buffer) (str : List UInt8)
    (h : sizeSub len 1 ≤ d) : escapeLoop base len buffer d str = some (buffer, d, str) := by
  cases str with
  | nil => rfl
  | cons c str => rw [escapeLoop, if_neg (by omega)]

/-- One round of the loop stores the escaped form of one character. -/
theorem escapeLoop_cons (base len : Nat) {d : Nat} {front back : List UInt8} (c : UInt8)
    (str : List UInt8) (hd : d < sizeSub len 1) (hfront : front.length = base + d)
    (hback : (escapeByte c).length ≤ back.length) :
    escapeLoop base len (front ++ back) d (c :: str) =
      escapeLoop base len (front ++ escapeByte c ++ back.drop (escapeByte c).length)
        (d + (escapeByte c).length) str := by
  rw [escapeLoop, if_pos hd]
  by_cases hc : isEscaped c
  · have hc' : (decide (c = backslash) || decide (c = quote)) = true := hc
    have hbyte : escapeByte c = [backslash, renderByte c] := by simp [escapeByte, hc]
    obtain ⟨b₁, b₂, back, rfl⟩ : ∃ b₁ b₂ rest, back = b₁ :: b₂ :: rest := by
      match back, hback with
      | b₁ :: b₂ :: rest, _ => exact ⟨b₁, b₂, rest, rfl⟩
      | [], h => simp [hbyte] at h
      | [_], h => simp [hbyte] at h
    have hfirst : store (front ++ b₁ :: b₂ :: back) (base + d) backslash =
        some ((front ++ [backslash]) ++ b₂ :: back) := by
      rw [← hfront, store_append]
      simp
    have hsecond : store ((front ++ [backslash]) ++ b₂ :: back) (base + (d + 1)) (renderByte c) =
        some ((front ++ [backslash]) ++ renderByte c :: back) := by
      rw [show base + (d + 1) = (front ++ [backslash]).length by simp [hfront]; omega,
        store_append]
    simp only [hc', if_true, hfirst, Option.bind_eq_bind, Option.bind_some]
    change (store _ _ (renderByte c)).bind _ = _
    rw [hsecond, hbyte]
    simp
  · have hc' : (decide (c = backslash) || decide (c = quote)) = false := by
      simpa [isEscaped] using hc
    have hbyte : escapeByte c = [renderByte c] := by simp [escapeByte, hc]
    obtain ⟨b, back, rfl⟩ : ∃ b rest, back = b :: rest := by
      match back, hback with
      | b :: rest, _ => exact ⟨b, rest, rfl⟩
      | [], h => simp [hbyte] at h
    simp only [hc', Bool.false_eq_true, if_false, Option.bind_eq_bind, Option.bind_some]
    change (store _ _ (renderByte c)).bind _ = _
    rw [← hfront, store_append, hbyte]
    simp

/-- The loop stores the longest prefix that fits, or one escaped character more,
which then ends exactly at `len`. -/
theorem escapeLoop_eq (base : Nat) {len d : Nat} (front back str : List UInt8) (hd : d < len)
    (hfront : front.length = base + d) (hback : len - d ≤ back.length) :
    let kept := fitPrefix (len - 1 - d) str
    (escapeLoop base len (front ++ back) d str =
        some (front ++ escapeText kept ++ back.drop (escapeText kept).length,
          d + (escapeText kept).length, str.drop kept.length)) ∨
      (kept ≠ str ∧ d + (escapeText kept).length + 2 = len ∧ ∃ rest unread,
        escapeLoop base len (front ++ back) d str =
            some (front ++ escapeText kept ++ rest, len, unread) ∧
          rest.length + (escapeText kept).length = back.length) := by
  intro kept
  have hsub : sizeSub len 1 = len - 1 := sizeSub_eq (by omega)
  induction str generalizing front back d with
  | nil =>
    left
    simp [kept, fitPrefix, fitting, escapeLoop]
  | cons c str ih =>
    by_cases hroom : d < len - 1
    · have htwo := length_escapeByte_le c
      have hone := length_escapeByte_pos c
      have hstep := escapeLoop_cons base len c str
        (by omega) hfront (show (escapeByte c).length ≤ back.length by omega)
      by_cases hfit : (escapeByte c).length ≤ len - 1 - d
      · -- the character fits: the rest is the induction hypothesis
        have hkept : kept = c :: fitPrefix (len - 1 - (d + (escapeByte c).length)) str := by
          rw [show len - 1 - (d + (escapeByte c).length) =
            len - 1 - d - (escapeByte c).length by omega]
          simp only [kept, fitPrefix, fitting, if_pos hfit]
        have hrec := ih (d := d + (escapeByte c).length) (front ++ escapeByte c)
          (back.drop (escapeByte c).length) (by omega)
          (by rw [List.length_append]; omega) (by rw [List.length_drop]; omega)
        simp only at hrec
        rw [hstep, hkept]
        rcases hrec with hrec | ⟨hne, hlen, rest, unread, hrec, hrest⟩
        · left
          rw [hrec]
          simp [Nat.add_assoc]
        · right
          refine ⟨by simpa using hne, ?_, rest, unread, ?_, ?_⟩
          · simp only [escapeText_cons, List.length_append]
            omega
          · rw [hrec]
            simp
          · simp only [escapeText_cons, List.length_append]
            rw [List.length_drop] at hrest
            omega
      · -- an escaped character with one byte of room: it ends at `len`
        have hkept : kept = [] := by simp only [kept, fitPrefix, fitting, if_neg hfit]
        right
        rw [hkept, hstep, escapeLoop_of_le _ _ (by omega)]
        refine ⟨by simp, by simp only [escapeText_nil, List.length_nil]; omega,
          escapeByte c ++ back.drop (escapeByte c).length, str, ?_, ?_⟩
        · rw [show d + (escapeByte c).length = len by omega]
          simp
        · simp only [List.length_append, List.length_drop, escapeText_nil, List.length_nil]
          omega
    · left
      have hkept : kept = [] := by
        simp only [kept, fitPrefix, fitting]
        rw [if_neg]
        have := length_escapeByte_pos c
        omega
      rw [hkept, escapeLoop_of_le _ _ (by omega)]
      simp

/-- The text kept by an escape buffer of `len` bytes. -/
theorem mdclogInternalEscape_eq {len : Nat} (front back : List UInt8) (str : CStr)
    (hlen : 0 < len) (hback : len ≤ back.length) :
    ∃ rest, mdclogInternalEscape (front ++ back) front.length len str =
        some (front ++ escapeText (fitPrefix (len - 1) str.bytes) ++ 0 :: rest,
          (escapeText (fitPrefix (len - 1) str.bytes)).length,
          decide (fitPrefix (len - 1) str.bytes ≠ str.bytes)) ∧
      (escapeText (fitPrefix (len - 1) str.bytes)).length + 1 + rest.length = back.length := by
  have hloop := escapeLoop_eq front.length (d := 0) front back str.bytes hlen
    (by simp) (by simpa using hback)
  have hfit := length_escapeText_fitPrefix (len - 1) str.bytes
  simp only [Nat.sub_zero, Nat.zero_add] at hloop
  generalize hkept : fitPrefix (len - 1) str.bytes = kept at hloop hfit ⊢
  unfold mdclogInternalEscape
  rcases hloop with hloop | ⟨hne, hcut, rest, unread, hloop, hrest⟩
  · refine ⟨back.drop ((escapeText kept).length + 1), ?_, ?_⟩
    · have hunread : (str.bytes.drop kept.length ≠ []) ↔ kept ≠ str.bytes := by
        have hprefix : kept <+: str.bytes := hkept ▸ fitPrefix_isPrefix _ _
        rw [Ne, Ne, not_iff_not, List.drop_eq_nil_iff]
        constructor
        · intro h
          exact hprefix.eq_of_length (le_antisymm hprefix.length_le h)
        · rintro rfl
          exact le_rfl
      have hstore : store (front ++ escapeText kept ++ back.drop (escapeText kept).length)
          (front.length + (escapeText kept).length) 0 =
            some (front ++ escapeText kept ++ 0 :: back.drop ((escapeText kept).length + 1)) := by
        rw [← List.length_append, store_eq_some]
        · rw [List.drop_drop]
        · rw [Ne, List.drop_eq_nil_iff]
          omega
      have hlast : (escapeText kept).length ≠ len := by omega
      simp only [hloop, Option.bind_eq_bind, Option.bind_some, if_neg hlast, hstore, hunread]
      rfl
    · rw [List.length_drop]
      omega
  · refine ⟨rest.drop 1, ?_, ?_⟩
    · have hsub : sizeSub len 2 = (escapeText kept).length := by
        rw [sizeSub_eq (by omega)]
        omega
      simp only [hloop, Option.bind_eq_bind, Option.bind_some, if_true, hsub]
      rw [← List.length_append, store_eq_some]
      · simp [hne]
      · rintro rfl
        simp only [List.length_nil] at hrest
        omega
    · rw [List.length_drop]
      omega

/-! Agreement of the three loops. -/

theorem escapedSizeLoop_eq (str : List UInt8) (len : Nat) :
    escapedSizeLoop str len = len + (escapeText str).length := by
  induction str generalizing len with
  | nil => simp [escapedSizeLoop]
  | cons c str ih =>
    rw [escapedSizeLoop, ih, escapeText_cons, List.length_append, length_escapeByte]
    unfold isEscaped
    split <;> omega

theorem mdclogInternalEscapedSize_eq (str : CStr) :
    mdclogInternalEscapedSize str = (escapeText str.bytes).length + 1 := by
  simp [mdclogInternalEscapedSize, escapedSizeLoop_eq]

theorem containsSpecialLoop_eq_false_iff (str : List UInt8) :
    containsSpecialLoop str = false ↔ ∀ c ∈ str, isprint c = true ∧ isEscaped c = false := by
  induction str with
  | nil => simp [containsSpecialLoop]
  | cons c str ih =>
    rw [containsSpecialLoop]
    rw [List.forall_mem_cons, ← ih, Bool.or_assoc]
    change (if (!isprint c || isEscaped c) = true then true else _) = false ↔ _
    cases isprint c <;> cases isEscaped c <;> simp

theorem renderByte_of_isprint {c : UInt8} (h : isprint c = true) : renderByte c = c := by
  simp [renderByte, h]

theorem isEscaped_eq_false_iff {c : UInt8} :
    isEscaped c = false ↔ c ≠ backslash ∧ c ≠ quote := by
  simp [isEscaped]

theorem isprint_of_isEscaped {c : UInt8} (h : isEscaped c = true) : isprint c = true := by
  simp only [isEscaped, Bool.or_eq_true, decide_eq_true_eq] at h
  rcases h with rfl | rfl <;> decide

/-- A byte that is replaced was not one of those that are escaped. -/
theorem isEscaped_renderByte (c : UInt8) : isEscaped (renderByte c) = isEscaped c := by
  unfold renderByte
  split
  · rfl
  · rename_i hprint
    have hc : isEscaped c = false :=
      Bool.eq_false_iff.mpr fun hc => hprint (isprint_of_isEscaped hc)
    rw [hc]
    decide

theorem render_of_isprint {text : List UInt8} (h : ∀ c ∈ text, isprint c = true) :
    render text = text :=
  (List.map_congr_left fun c hc => renderByte_of_isprint (h c hc)).trans (List.map_id text)

theorem isprint_renderByte (c : UInt8) : isprint (renderByte c) = true := by
  unfold renderByte
  split
  · assumption
  · decide

theorem isprint_escapeByte (c : UInt8) : ∀ b ∈ escapeByte c, isprint b = true := by
  intro b hb
  unfold escapeByte at hb
  split at hb
  · simp only [List.mem_cons, List.not_mem_nil, or_false] at hb
    rcases hb with rfl | rfl
    · decide
    · exact isprint_renderByte c
  · simp only [List.mem_singleton] at hb
    rw [hb]
    exact isprint_renderByte c

theorem isprint_escapeText (text : List UInt8) : ∀ b ∈ escapeText text, isprint b = true := by
  intro b hb
  obtain ⟨c, _, hc⟩ := List.mem_flatMap.mp hb
  exact isprint_escapeByte c b hc

theorem nul_notMem_of_isprint {text : List UInt8} (h : ∀ b ∈ text, isprint b = true) :
    0 ∉ text := by
  intro hmem
  exact absurd (h 0 hmem) (by decide)

/-- The escaped form of a string, as a string. -/
def CStr.escaped (str : CStr) : CStr :=
  ⟨escapeText str.bytes, nul_notMem_of_isprint (isprint_escapeText str.bytes)⟩

theorem escapeText_of_clean {text : List UInt8}
    (h : ∀ c ∈ text, isprint c = true ∧ isEscaped c = false) : escapeText text = text := by
  induction text with
  | nil => rfl
  | cons c text ih =>
    have hc := h c (by simp)
    rw [escapeText_cons, ih fun b hb => h b (by simp [hb])]
    simp [escapeByte, hc.2, renderByte_of_isprint hc.1]

/-- No special character: what `mdclog_internal_contains_special_characters`
finds nothing in. -/
def Clean (text : List UInt8) : Prop := ∀ c ∈ text, isprint c = true ∧ isEscaped c = false

theorem clean_iff (str : CStr) :
    mdclogInternalContainsSpecialCharacters str = false ↔ Clean str.bytes :=
  containsSpecialLoop_eq_false_iff str.bytes

theorem escaped_of_clean {str : CStr} (h : Clean str.bytes) : CStr.escaped str = str :=
  CStr.ext (escapeText_of_clean h)

/-- The copy made by allocating `mdclog_internal_escaped_size` bytes, whatever
they hold, and escaping into them: lines 168 to 180 of `mdc.c`, and the same two
calls in `init_library`. -/
def escapedCopy (contents : Nat → UInt8) (str : CStr) : Option CStr := do
  let size := mdclogInternalEscapedSize str
  let (buffer, _, _) ← mdclogInternalEscape (fresh contents size) 0 size str
  return CStr.ofMemory buffer

/-- Such a copy is never truncated: the buffer is filled to its last byte. -/
theorem mdclogInternalEscape_exact (block : List UInt8) (str : CStr)
    (hblock : block.length = mdclogInternalEscapedSize str) :
    mdclogInternalEscape block 0 (mdclogInternalEscapedSize str) str =
      some (escapeText str.bytes ++ [0], mdclogInternalEscapedSize str - 1, false) := by
  have hsize := mdclogInternalEscapedSize_eq str
  obtain ⟨rest, hescape, hrest⟩ := mdclogInternalEscape_eq [] block str
    (show 0 < mdclogInternalEscapedSize str by omega) hblock.ge
  have hkept : fitPrefix (mdclogInternalEscapedSize str - 1) str.bytes = str.bytes :=
    fitPrefix_eq_self_iff.mpr (by omega)
  rw [hkept] at hescape hrest
  obtain rfl : rest = [] := List.length_eq_zero_iff.mp (by omega)
  simp only [List.nil_append, List.length_nil] at hescape
  rw [hescape, show (escapeText str.bytes).length = mdclogInternalEscapedSize str - 1 by omega]
  simp

theorem escapedCopy_eq (contents : Nat → UInt8) (str : CStr) :
    escapedCopy contents str = some (CStr.escaped str) := by
  unfold escapedCopy
  simp only [mdclogInternalEscape_exact _ str (length_fresh contents _), Option.bind_eq_bind,
    Option.bind_some]
  exact congrArg some (CStr.ofMemory_bytes (CStr.escaped str) [])

end Mdclog.Escape
