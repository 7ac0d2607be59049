import Mdclog.Decode
import Mdclog.EscapeLaws

/-! What the message section tells its reader: whether it shows memory that nobody has
written, and whether a part of the message is missing without a mark. -/
namespace Mdclog.MessageText
open Foundation.ByteBuffer Foundation.Json
open CString Escape JsonFormat Sections EntryBytes Decode

/-! Uninitialised memory. -/

def fails : Vsnprintf → Bool
  | .output _ _ => false
  | .failure _ _ _ => true

/-- Two calls with one outcome. What a failed call leaves in its buffer is not specified. -/
def SameOutcome : Vsnprintf → Vsnprintf → Prop
  | .output bytes _, .output bytes' _ => bytes = bytes'
  | .failure ret _ _, .failure ret' _ _ => ret = ret'
  | _, _ => False

/-- What the caller of `format_message` gets: the string at its pointer, which is behind
`front`, and the value returned. `contents` is what `malloc` finds in the new block. -/
def message (front back : List UInt8) (len : Nat) (contents : Nat → UInt8) (call : Vsnprintf) :
    Option (CStr × Nat) :=
  (formatMessage (front ++ back) front.length len (some contents) call).map fun result =>
    (CStr.ofMemory (result.1.drop front.length), result.2)

/-- The message is the same whatever was in the two buffers, and a failure is reported. -/
structure NothingExposed (len : Nat) (call : Vsnprintf) : Prop where
  same : ∀ (call' : Vsnprintf) (contents contents' : Nat → UInt8)
    (front back front' back' : List UInt8), SameOutcome call call' →
    len ≤ back.length → len ≤ back'.length →
    ∃ result, message front back len contents call = some result ∧
      message front' back' len contents' call' = some result
  reported : fails call = true → ∀ (contents : Nat → UInt8) (front back : List UInt8),
    len ≤ back.length → message front back len contents call = some (.ofString "", 0)

theorem message_of_wrote {front back text : List UInt8} {len size : Nat} {contents : Nat → UInt8}
    {call : Vsnprintf}
    (h : Wrote front text size
      (formatMessage (front ++ back) front.length len (some contents) call)) :
    message front back len contents call = some (CStr.ofMemory text, text.length) := by
  obtain ⟨rest, hformat, -⟩ := h
  rw [message, hformat, Option.map_some, List.append_assoc, List.drop_left,
    CStr.ofMemory_append_nul]

/-- A call that succeeds overwrites what it uses of its buffer. -/
theorem message_output (front back : List UInt8) (contents : Nat → UInt8) {bytes : List UInt8}
    (hbytes : bytes.length ≤ intMax) {len : Nat} (hlen : 20 ≤ len) (hback : len ≤ back.length) :
    message front back len contents (.output bytes hbytes) =
      some (CStr.ofMemory (messageMember len (CStr.ofMemory (bytes.take (len - 8))).bytes
          (decide (len ≤ bytes.length + 8))),
        (messageMember len (CStr.ofMemory (bytes.take (len - 8))).bytes
          (decide (len ≤ bytes.length + 8))).length) :=
  message_of_wrote (formatMessage_wrote front back contents bytes hbytes len (by omega) hback)

/-- A call that fails is not noticed. -/
theorem message_failure (front back : List UInt8) (contents left : Nat → UInt8) {ret : Int}
    (hret : ret < 0) {len : Nat} (hlen : 20 ≤ len) (hback : len ≤ back.length) :
    message front back len contents (.failure ret hret left) =
      some (CStr.ofMemory (messageMember len (CStr.ofMemory (fresh left (len - 7))).bytes
          (decide (len - 7 ≤ sizeAdd (sizeOfInt ret) 1))),
        (messageMember len (CStr.ofMemory (fresh left (len - 7))).bytes
          (decide (len - 7 ≤ sizeAdd (sizeOfInt ret) 1))).length) := by
  have hcall : vsnprintf (.failure ret hret left) (fresh contents (len - 7)) (len - 7) =
      some (fresh left (len - 7), ret) := by
    rw [vsnprintf, length_fresh]
  exact message_of_wrote (formatMessage_copied front back contents _ hlen hback hcall)

/-- Nothing is exposed exactly if `vsnprintf` does not fail. -/
theorem nothing_exposed_iff {len : Nat} (hlen : 20 ≤ len) (call : Vsnprintf) :
    NothingExposed len call ↔ fails call = false := by
  cases call with
  | output bytes hbytes =>
    refine iff_of_true ⟨?_, nofun⟩ rfl
    intro call' contents contents' front back front' back' hsame hback hback'
    cases call' with
    | failure ret hret left => exact hsame.elim
    | output bytes' hbytes' =>
      obtain rfl : bytes = bytes' := hsame
      exact ⟨_, message_output front back contents hbytes hlen hback,
        message_output front' back' contents' hbytes' hlen hback'⟩
  | failure ret hret left =>
    refine iff_of_false (fun h => ?_) nofun
    have hreported := h.reported rfl (fun _ => 0) [] (List.replicate len 0) (by simp)
    rw [message_failure [] _ _ left hret hlen (by simp)] at hreported
    have hlength := congrArg Prod.snd (Option.some.inj hreported)
    have hempty := (messageMember_eq_nil_iff _ _ len).mp (List.length_eq_zero_iff.mp hlength)
    omega

theorem nothing_exposed_hello : NothingExposed 32 (.output (ascii "hello") (by decide)) :=
  (nothing_exposed_iff (by decide) _).mpr rfl

/-- Memory that holds a string of one letter. -/
def letterAt (letter : UInt8) : Nat → UInt8 := fun i => if i = 0 then letter else 0

/-- Two calls that fail and write nothing: the letter that was in the new block is shown. -/
theorem memory_exposed :
    SameOutcome (.failure (-1) (by decide) (letterAt 0x6b))
      (.failure (-1) (by decide) (letterAt 0x71)) ∧
    message [] (List.replicate 32 0) 32 (letterAt 0x6b)
        (.failure (-1) (by decide) (letterAt 0x6b)) = some (.ofString "\"msg\":\"k\"", 9) ∧
    message [] (List.replicate 32 0) 32 (letterAt 0x71)
        (.failure (-1) (by decide) (letterAt 0x71)) = some (.ofString "\"msg\":\"q\"", 9) ∧
    ¬NothingExposed 32 (.failure (-1) (by decide) (letterAt 0x6b)) := by
  have hk : message [] (List.replicate 32 0) 32 (letterAt 0x6b)
      (.failure (-1) (by decide) (letterAt 0x6b)) = some (.ofString "\"msg\":\"k\"", 9) := by
    decide
  refine ⟨rfl, hk, by decide, fun h => ?_⟩
  rw [h.reported rfl (letterAt 0x6b) [] (List.replicate 32 0) (by decide)] at hk
  exact absurd hk (by decide)

/-! Parts that are missing. -/

/-- The member has the mark in front of its closing quote, or its literal decodes to the
whole text, one character for each byte. -/
def NothingLost (text out : List UInt8) : Prop :=
  ∃ literal, out = ascii "\"msg\":\"" ++ literal ++ [quote] ∧
    (truncatedText <:+ literal ∨
      parseString (literal ++ [quote]) = some (units (render text), []))

theorem concat_isSuffix_concat {a b : UInt8} {left right : List UInt8} :
    left ++ [a] <:+ right ++ [b] ↔ a = b ∧ left <:+ right := by
  rw [← List.reverse_prefix, List.reverse_concat, List.reverse_concat, List.cons_prefix_cons,
    List.reverse_prefix]

/-- Text that escaping leaves alone and that is not made of replacements ends the escaped
text only if it ends the text. -/
theorem isSuffix_escapeText_iff {mark : List UInt8}
    (hmark : ∀ c ∈ mark, isEscaped c = false ∧ isprint c = true ∧ c ≠ space)
    (text : List UInt8) : mark <:+ escapeText text ↔ mark <:+ text := by
  induction mark using List.reverseRecOn generalizing text with
  | nil => simp
  | append_singleton mark x ih =>
    have hx := hmark x (by simp)
    rcases List.eq_nil_or_concat text with rfl | ⟨init, c, rfl⟩
    · simp
    · obtain ⟨lead, last, hbyte, hlast, hlead⟩ := escapeByte_last c
      rw [List.concat_eq_append, escapeText_append, escapeText_cons, escapeText_nil,
        List.append_nil, hbyte, ← List.append_assoc, concat_isSuffix_concat,
        concat_isSuffix_concat]
      cases hc : isEscaped c with
      | true =>
        rw [hc] at hlast
        have hne : x ≠ last := fun h => absurd (h ▸ hx.1) (by rw [hlast]; decide)
        have hne' : x ≠ c := fun h => absurd (h ▸ hx.1) (by rw [hc]; decide)
        exact iff_of_false (fun h => hne h.1) fun h => hne' h.1
      | false =>
        rw [hc] at hlead
        obtain rfl : lead = [] := List.length_eq_zero_iff.mp hlead
        obtain rfl : renderByte c = last := by
          rw [escapeByte, hc] at hbyte
          simpa using hbyte
        have hrender : x = renderByte c ↔ x = c := by
          unfold renderByte
          split
          · rfl
          · rename_i hprint
            refine iff_of_false hx.2.2 fun h => ?_
            exact hprint (h ▸ hx.2.1)
        rw [List.append_nil, hrender, ih fun b hb => hmark b (by simp [hb])]

theorem truncatedText_plain :
    ∀ c ∈ truncatedText, isEscaped c = false ∧ isprint c = true ∧ c ≠ space := by
  decide +kernel

/-- `format_message` sets its mark: the output was too long for the temporary buffer, or
what is in front of its first NUL is too long when it is escaped. -/
def Marked (text : List UInt8) (len : Nat) : Prop :=
  len ≤ text.length + 8 ∨ len < mdclogInternalEscapedSize (CStr.ofMemory text) + 8

theorem messageMember_of_marked {text : List UInt8} {len : Nat} (hlen : 20 ≤ len)
    (h : Marked text len) :
    ∃ kept, messageMember len (CStr.ofMemory (text.take (len - 8))).bytes
        (decide (len ≤ text.length + 8)) =
      msgHeader ++ escapeText kept ++ truncatedText ++ ascii "\"" := by
  refine ⟨fitPrefix (len - 20) (CStr.ofMemory (text.take (len - 8))).bytes, ?_⟩
  unfold messageMember
  rw [if_neg (by omega), if_pos]
  simp only [Bool.or_eq_true, decide_eq_true_eq]
  by_cases hcut : len ≤ text.length + 8
  · exact .inl hcut
  · right
    have hlong := h.resolve_left hcut
    rw [mdclogInternalEscapedSize_eq] at hlong
    rw [List.take_of_length_le (by omega), Ne, fitPrefix_eq_self_iff]
    omega

theorem messageMember_of_not_marked {text : List UInt8} {len : Nat} (hlen : 20 ≤ len)
    (h : ¬Marked text len) :
    messageMember len (CStr.ofMemory (text.take (len - 8))).bytes
        (decide (len ≤ text.length + 8)) =
      msgHeader ++ escapeText (CStr.ofMemory text).bytes ++ ascii "\"" := by
  rw [Marked, not_or, mdclogInternalEscapedSize_eq] at h
  unfold messageMember
  rw [if_neg (by omega), List.take_of_length_le (by omega), if_neg]
  simp only [Bool.or_eq_true, decide_eq_true_eq, not_or, not_not]
  refine ⟨h.1, fitPrefix_eq_self_iff.mpr ?_⟩
  omega

/-- The string in a memory is all of it exactly if there is no NUL. -/
theorem render_ofMemory_iff (text : List UInt8) :
    units (render (CStr.ofMemory text).bytes) = units (render text) ↔ 0 ∉ text := by
  constructor
  · intro h
    have hlength := congrArg List.length h
    simp only [units, render, List.length_map] at hlength
    have hsame : (CStr.ofMemory text).bytes = text :=
      (List.takeWhile_prefix _).eq_of_length hlength
    rw [← hsame]
    exact (CStr.ofMemory text).nulFree
  · intro h
    rw [CStr.bytes_ofMemory_of_notMem h]

theorem nothingLost_iff {text : List UInt8} {len : Nat} (hlen : 20 ≤ len) :
    NothingLost text (messageMember len (CStr.ofMemory (text.take (len - 8))).bytes
        (decide (len ≤ text.length + 8))) ↔
      0 ∉ text ∨ Marked text len ∨ truncatedText <:+ (CStr.ofMemory text).bytes := by
  by_cases hmarked : Marked text len
  · refine iff_of_true ?_ (.inr (.inl hmarked))
    obtain ⟨kept, hout⟩ := messageMember_of_marked hlen hmarked
    refine ⟨escapeText kept ++ truncatedText, ?_, .inl (List.suffix_append _ _)⟩
    rw [hout]
    simp only [List.append_assoc]
    rfl
  · have hmember := messageMember_of_not_marked hlen hmarked
    have hliteral : ∀ literal, messageMember len (CStr.ofMemory (text.take (len - 8))).bytes
        (decide (len ≤ text.length + 8)) = ascii "\"msg\":\"" ++ literal ++ [quote] ↔
        escapeText (CStr.ofMemory text).bytes = literal := by
      intro literal
      rw [hmember]
      change ascii "\"msg\":\"" ++ _ ++ [quote] = _ ↔ _
      rw [List.append_left_inj, List.append_right_inj]
    have hparse := parseString_escapeText (CStr.ofMemory text).bytes []
    have hsuffix := isSuffix_escapeText_iff truncatedText_plain (CStr.ofMemory text).bytes
    unfold NothingLost
    simp only [hliteral, exists_eq_left']
    change _ ∨ parseString (_ ++ 0x22 :: []) = _ ↔ _
    rw [hparse, hsuffix, Option.some.injEq, Prod.mk.injEq, render_ofMemory_iff]
    simp [hmarked, or_comm]

/-- For every text that `vsnprintf` can produce: no part of it disappears without the mark
exactly if it has no NUL, or the mark is set anyway, or the text in front of its first NUL
ends like the mark. -/
theorem nothing_lost_iff (front back : List UInt8) (contents : Nat → UInt8) {text : List UInt8}
    (htext : text.length ≤ intMax) {len : Nat} (hlen : 20 ≤ len) (hback : len ≤ back.length) :
    (∃ out rest, formatMessage (front ++ back) front.length len (some contents)
        (.output text htext) = some (front ++ out ++ 0 :: rest, out.length) ∧
      0 ∉ out ∧ NothingLost text out) ↔
    (0 ∉ text ∨
      (len ≤ text.length + 8 ∨ len < mdclogInternalEscapedSize (CStr.ofMemory text) + 8) ∨
      truncatedText <:+ (CStr.ofMemory text).bytes) := by
  obtain ⟨rest, hformat, -⟩ := formatMessage_wrote front back contents text htext len (by omega)
    hback
  rw [hformat]
  refine Iff.trans ⟨?_, fun h => ⟨_, rest, rfl, ?_, h⟩⟩ (nothingLost_iff hlen)
  · rintro ⟨out, rest', hout, -, hlost⟩
    simp only [Option.some.injEq, Prod.mk.injEq, List.append_assoc,
      List.append_cancel_left_eq] at hout
    rw [(List.append_inj hout.1 hout.2).1]
    exact hlost
  · exact nul_notMem_of_isprint (printable_messageMember _ _ _)

/-- A message without NUL. -/
theorem nothing_lost_hello :
    ∃ out rest, formatMessage (List.replicate 32 0) 0 32 (some fun _ => 0)
        (.output (ascii "hello") (by decide)) = some (out ++ 0 :: rest, out.length) ∧
      0 ∉ out ∧ NothingLost (ascii "hello") out :=
  (@nothing_lost_iff [] (List.replicate 32 0) (fun _ => 0) (ascii "hello") (by decide) 32
    (by decide) (by decide)).mpr (.inl (by decide))

/-- What `"a%cb"` prints for the argument 0: everything behind the `a` is missing. -/
theorem nul_hides_rest :
    (∃ rest, formatMessage (List.replicate 32 0) 0 32 (some fun _ => 0)
        (.output [0x61, 0, 0x62] (by decide)) = some (ascii "\"msg\":\"a\"" ++ 0 :: rest, 9)) ∧
    ¬∃ out rest, formatMessage (List.replicate 32 0) 0 32 (some fun _ => 0)
        (.output [0x61, 0, 0x62] (by decide)) = some (out ++ 0 :: rest, out.length) ∧
      0 ∉ out ∧ NothingLost [0x61, 0, 0x62] out := by
  have hformat : ∃ rest, formatMessage (List.replicate 32 0) 0 32 (some fun _ => 0)
      (.output [0x61, 0, 0x62] (by decide)) =
      some (ascii "\"msg\":\"a\"" ++ 0 :: rest, 9) :=
    ⟨_, rfl⟩
  refine ⟨hformat, ?_⟩
  obtain ⟨rest, hformat⟩ := hformat
  rintro ⟨out, rest', hout, -, literal, hmember, hlost⟩
  rw [hformat, Option.some.injEq, Prod.mk.injEq] at hout
  have hsame := (List.append_inj hout.1 hout.2).1
  have hliteral : [0x61] = literal := by
    rw [hmember] at hsame
    exact List.append_cancel_left (List.append_cancel_right
      (show ascii "\"msg\":\"" ++ [0x61] ++ [quote] = _ from hsame))
  subst hliteral
  rcases hlost with hmark | hparse
  · exact absurd hmark (by decide)
  · exact absurd hparse (by decide)

end Mdclog.MessageText
