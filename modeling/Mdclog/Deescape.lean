import Mdclog.EscapeLaws

/-! `json_format.c`, lines 94 to 113: taking the escapes back, and why this undoes
`mdclog_internal_escape` wherever the two of them cut. -/
namespace Mdclog.Deescape
open Foundation.ByteBuffer CString Escape FormatLaws EscapeLaws

/-- The `for` loop of `mdclog_internal_deescape`: the buffer and the index `d`. There is
no index when the branch for a malformed escape is taken. -/
def deescapeLoop (base len : Nat) : Buffer → Nat → List UInt8 → Option (Buffer × Option Nat)
  | buffer, d, [] => some (buffer, some d)
  | buffer, d, c :: str =>
      if d < sizeSub len 1 then
        if c = backslash then
          match str with
          -- the character behind the backslash is the NUL
          | [] => some (buffer, none)
          | e :: str =>
              if e ≠ backslash ∧ e ≠ quote then some (buffer, none)
              else do
                let buffer ← store buffer (base + d) e
                deescapeLoop base len buffer (d + 1) str
        else do
          let buffer ← store buffer (base + d) c
          deescapeLoop base len buffer (d + 1) str
      else some (buffer, some d)

/-- `mdclog_internal_deescape(&buffer[base], len, str)`: the buffer and the value
returned. -/
def mdclogInternalDeescape (buffer : Buffer) (base len : Nat) (str : CStr) :
    Option (Buffer × Nat) := do
  let (buffer, d) ← deescapeLoop base len buffer 0 str.bytes
  match d with
  | none => do
      let buffer ← store buffer base 0
      return (buffer, 0)
  | some d => do
      let buffer ← store buffer (base + d) 0
      return (buffer, d)

/-- One round reads the escaped form of one character and stores the character. -/
theorem deescapeLoop_escapeByte (base len : Nat) {d : Nat} {front back : List UInt8} (c : UInt8)
    (str : List UInt8) (hd : d < sizeSub len 1) (hfront : front.length = base + d)
    (hback : back ≠ []) :
    deescapeLoop base len (front ++ back) d (escapeByte c ++ str) =
      deescapeLoop base len (front ++ [renderByte c] ++ back.drop 1) (d + 1) str := by
  have hstore : store (front ++ back) (base + d) (renderByte c) =
      some (front ++ [renderByte c] ++ back.drop 1) := by
    rw [← hfront, store_eq_some front _ hback]
    simp
  by_cases hc : isEscaped c = true
  · have hbyte : escapeByte c = [backslash, renderByte c] := by simp [escapeByte, hc]
    have hescaped : ¬(renderByte c ≠ backslash ∧ renderByte c ≠ quote) := by
      rw [← isEscaped_eq_false_iff, isEscaped_renderByte, hc]
      decide
    rw [hbyte, List.cons_append, List.singleton_append, deescapeLoop, if_pos hd, if_pos rfl,
      if_neg hescaped, hstore]
    rfl
  · have hbyte : escapeByte c = [renderByte c] := by simp [escapeByte, hc]
    have hplain : renderByte c ≠ backslash := by
      rw [Bool.not_eq_true, ← isEscaped_renderByte, isEscaped_eq_false_iff] at hc
      exact hc.1
    rw [hbyte, List.singleton_append, deescapeLoop.eq_def]
    simp only [if_pos hd, if_neg hplain, hstore]
    rfl

theorem deescapeLoop_of_le {base len d : Nat} (buffer : Buffer) (str : List UInt8)
    (h : sizeSub len 1 ≤ d) : deescapeLoop base len buffer d str = some (buffer, some d) := by
  cases str with
  | nil => rfl
  | cons c str =>
    rw [deescapeLoop.eq_def]
    simp only [if_neg (show ¬d < sizeSub len 1 by omega)]

/-- On escaped text the loop never finds a malformed escape, and stores the characters
it has room for. -/
theorem deescapeLoop_escapeText (base : Nat) {len d : Nat} (front back text : List UInt8)
    (hd : d < len) (hfront : front.length = base + d) (hback : len - d ≤ back.length) :
    deescapeLoop base len (front ++ back) d (escapeText text) =
      some (front ++ render (text.take (len - 1 - d)) ++
          back.drop (text.take (len - 1 - d)).length,
        some (d + (text.take (len - 1 - d)).length)) := by
  have hsub : sizeSub len 1 = len - 1 := sizeSub_eq (by omega)
  induction text generalizing front back d with
  | nil => simp [deescapeLoop, render]
  | cons c text ih =>
    by_cases hroom : d < len - 1
    · have hne : back ≠ [] := List.ne_nil_of_length_pos (by omega)
      have htake : (c :: text).take (len - 1 - d) = c :: text.take (len - 1 - (d + 1)) := by
        rw [show len - 1 - d = len - 1 - (d + 1) + 1 by omega, List.take_succ_cons]
      rw [escapeText_cons, deescapeLoop_escapeByte base len c _ (by omega) hfront hne, htake,
        ih (front ++ [renderByte c]) (back.drop 1) (by omega)
          (by rw [List.length_append, List.length_singleton]; omega)
          (by rw [List.length_drop]; omega)]
      simp only [render, List.map_cons, List.append_assoc, List.singleton_append, List.drop_drop,
        List.length_cons]
      rw [Nat.add_comm 1, Nat.add_assoc, Nat.add_comm 1]
    · rw [deescapeLoop_of_le _ _ (by omega), show len - 1 - d = 0 by omega]
      simp [render]

/-- What a buffer of any size receives from escaped text. -/
theorem mdclogInternalDeescape_escaped (block : List UInt8) {text : List UInt8} {str : CStr}
    (hstr : str.bytes = escapeText text) (hblock : 0 < block.length) :
    ∃ rest, mdclogInternalDeescape block 0 block.length str =
        some (render (text.take (block.length - 1)) ++ 0 :: rest,
          min (block.length - 1) text.length) ∧
      (render (text.take (block.length - 1)) ++ 0 :: rest).length = block.length := by
  have hloop := deescapeLoop_escapeText 0 [] block text hblock rfl (Nat.le_refl _)
  have hlength : (text.take (block.length - 1)).length = min (block.length - 1) text.length :=
    List.length_take
  simp only [List.nil_append, Nat.sub_zero, Nat.zero_add, hlength] at hloop
  refine ⟨block.drop (min (block.length - 1) text.length + 1), ?_, ?_⟩
  · have hroom : block.drop (min (block.length - 1) text.length) ≠ [] := by
      rw [Ne, List.drop_eq_nil_iff]
      omega
    have hstore := store_eq_some (render (text.take (block.length - 1))) 0 hroom
    rw [render, List.length_map, hlength, List.drop_drop] at hstore
    unfold mdclogInternalDeescape
    rw [hstr, hloop, Option.bind_eq_bind, Option.bind_some]
    simp only [Nat.zero_add, render, hstore]
    rfl
  · simp only [render, List.length_append, List.length_map, List.length_cons, hlength,
      List.length_drop]
    omega

/-- Replaced characters need no escape, so escaping sees no difference. -/
theorem escapeText_render (text : List UInt8) : escapeText (render text) = escapeText text := by
  have hbyte : ∀ c, escapeByte (renderByte c) = escapeByte c := by
    intro c
    rw [escapeByte, isEscaped_renderByte, renderByte_of_isprint (isprint_renderByte c)]
    rfl
  rw [escapeText, render, List.flatMap_map]
  exact congrArg (text.flatMap ·) (funext hbyte)

/-- The string that a text and its NUL stand for. -/
theorem ofMemory_of_isprint {text : List UInt8} (h : ∀ c ∈ text, isprint c = true)
    (rest : List UInt8) : (CStr.ofMemory (text ++ 0 :: rest)).bytes = text := by
  rw [CStr.ofMemory_append_nul]
  exact CStr.bytes_ofMemory_of_notMem (nul_notMem_of_isprint h)

theorem isprint_render (text : List UInt8) : ∀ c ∈ render text, isprint c = true := by
  intro c hc
  obtain ⟨b, -, rfl⟩ := List.mem_map.mp hc
  exact isprint_renderByte b

/-- Escaping into `block` and taking the escapes back into `target`. -/
theorem deescape_escape (str : CStr) (block target : List UInt8) (hlen : 1 ≤ block.length)
    (hn : 1 ≤ target.length) :
    ∃ kept buffer truncated restored, LongestPrefix str.bytes 1 block.length kept ∧
      mdclogInternalEscape block 0 block.length str =
        some (buffer, (escapeText kept).length, truncated) ∧
      (∃ looped d, deescapeLoop 0 target.length target 0 (CStr.ofMemory buffer).bytes =
        some (looped, some d)) ∧
      mdclogInternalDeescape target 0 target.length (CStr.ofMemory buffer) =
        some (restored, min (target.length - 1) kept.length) ∧
      (CStr.ofMemory restored).bytes = render (kept.take (target.length - 1)) ∧
      (mdclogInternalEscapedSize str ≤ block.length → str.bytes.length < target.length →
        (CStr.ofMemory restored).bytes = render str.bytes ∧
        ∀ again : List UInt8, mdclogInternalEscapedSize str ≤ again.length →
          ∃ buffer', mdclogInternalEscape again 0 again.length (CStr.ofMemory restored) =
              some (buffer', (escapeText kept).length, false) ∧
            CStr.ofMemory buffer' = CStr.ofMemory buffer) := by
  obtain ⟨rest, hescape, -⟩ := mdclogInternalEscape_block [] block [] str hlen
  simp only [List.nil_append, List.append_nil, List.length_nil] at hescape
  have hkept : LongestPrefix str.bytes 1 block.length (fitPrefix (block.length - 1) str.bytes) :=
    longestPrefix_fitPrefix hlen
  have hwhole : mdclogInternalEscapedSize str ≤ block.length →
      fitPrefix (block.length - 1) str.bytes = str.bytes := by
    intro hsize
    have hnot := mt (fitPrefix_ne_iff hlen str).mp (by omega)
    exact not_not.mp hnot
  generalize fitPrefix (block.length - 1) str.bytes = kept at hescape hkept hwhole
  have hbytes : (CStr.ofMemory (escapeText kept ++ 0 :: rest)).bytes = escapeText kept :=
    ofMemory_of_isprint (isprint_escapeText kept) rest
  obtain ⟨tail, hdeescape, -⟩ := mdclogInternalDeescape_escaped target hbytes hn
  have hloop := deescapeLoop_escapeText 0 [] target kept hn rfl (Nat.le_refl _)
  have hrestored := ofMemory_of_isprint (isprint_render (kept.take (target.length - 1))) tail
  refine ⟨kept, _, _, _, hkept, hescape, ⟨_, _, by rw [hbytes]; exact hloop⟩, hdeescape, hrestored,
    fun hsize hroom => ?_⟩
  have hall := hwhole hsize
  rw [hall, List.take_of_length_le (by omega)] at hrestored ⊢
  refine ⟨hrestored, fun again hagain => ?_⟩
  have hlength := mdclogInternalEscapedSize_eq str
  obtain ⟨rest', hescape', -⟩ := mdclogInternalEscape_block [] again []
    (CStr.ofMemory (render str.bytes ++ 0 :: tail)) (by omega)
  have hfits : fitPrefix (again.length - 1) (render str.bytes) = render str.bytes := by
    rw [fitPrefix_eq_self_iff, escapeText_render]
    omega
  simp only [List.nil_append, List.append_nil, List.length_nil, hrestored, hfits,
    escapeText_render, ne_eq, not_true_eq_false, decide_false] at hescape'
  refine ⟨_, hescape', ?_⟩
  rw [CStr.ofMemory_append_nul, CStr.ofMemory_append_nul]

/-- Both cut: two of the four bytes fit, and one of them is restored. -/
theorem deescape_escape_cut :
    ∃ kept buffer truncated restored, LongestPrefix (ascii "\\a\tb") 1 4 kept ∧
      mdclogInternalEscape [7, 7, 7, 7] 0 4 (.ofString "\\a\tb") =
        some (buffer, (escapeText kept).length, truncated) ∧
      mdclogInternalDeescape [7, 7] 0 2 (CStr.ofMemory buffer) =
        some (restored, min 1 kept.length) ∧
      (CStr.ofMemory restored).bytes = render (kept.take 1) := by
  obtain ⟨kept, buffer, truncated, restored, hkept, hescape, -, hdeescape, hrestored, -⟩ :=
    deescape_escape (.ofString "\\a\tb") [7, 7, 7, 7] [7, 7] (by decide) (by decide)
  exact ⟨kept, buffer, truncated, restored, hkept, hescape, hdeescape, hrestored⟩

end Mdclog.Deescape
