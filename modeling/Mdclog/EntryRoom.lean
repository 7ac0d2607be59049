import Mdclog.LogEntry

/-! The one length of the MDC section that loses an entry. Twenty bytes are kept
back for the minimum message, its brace and its NUL, which need twenty-one. -/
namespace Mdclog.EntryRoom
open Foundation.Fitting CString JsonFormat Sections LogEntry

/-- The bytes of an entry in front of its MDC section, commas included. -/
def headLength (tv : Timeval) (identity : Option CStr) (severity : Severity) : Nat :=
  1 + (6 + (decimal (timestamp tv)).length) +
    (severity.val.elim 0 fun crit => 10 + crit.length) +
    (8 + min identityMaxLength (identity.getD (CStr.ofString "(null)")).bytes.length)

/-- The bytes of `"key":"value",`. -/
def pairLength (pair : CStr × CStr) : Nat := pair.1.bytes.length + pair.2.bytes.length + 6

/-- Some first pairs of the list fill their room to the last byte. -/
def FillsRoom (len : Nat) (tv : Timeval) (identity : Option CStr) (severity : Severity)
    (mdc : List (CStr × CStr)) : Prop :=
  ∃ front ∈ mdc.inits, headLength tv identity severity + total pairLength front + 28 = len

instance (len : Nat) (tv : Timeval) (identity : Option CStr) (severity : Severity)
    (mdc : List (CStr × CStr)) : Decidable (FillsRoom len tv identity severity mdc) :=
  inferInstanceAs (Decidable (∃ front ∈ mdc.inits, _))

theorem length_entryHead (tv : Timeval) (identity : Option CStr) (severity : Severity) :
    (entryHead tv identity severity).length = headLength tv identity severity := by
  have hts : (ascii "\"ts\":").length = 5 := by decide
  have hcrit : (ascii "\"crit\":\"").length = 8 := by decide
  have hid : (ascii "\"id\":\"").length = 6 := by decide
  have hquote : (ascii "\"").length = 1 := by decide
  have hne : ∀ {text : List UInt8}, 0 < text.length →
      (withComma text).length = text.length + 1 := by
    intro text htext
    rw [withComma, if_neg (List.ne_nil_of_length_pos htext)]
    simp
  have hstamp : (timestampText tv).length = 5 + (decimal (timestamp tv)).length := by
    rw [timestampText, List.length_append, hts]
  have hident : (identityText identity).length =
      7 + min identityMaxLength (identity.getD (CStr.ofString "(null)")).bytes.length := by
    simp only [identityText, List.length_append, List.length_take, hid, hquote]
    omega
  have hlevel : (withComma (severityMember severity)).length =
      severity.val.elim 0 fun crit => 10 + crit.length := by
    unfold severityMember
    cases severity.val with
    | none => rfl
    | some crit =>
      have hlength : (severityText crit).length = 9 + crit.length := by
        simp only [severityText, List.length_append, hcrit, hquote]
        omega
      simp only [Option.elim_some]
      rw [hne (by omega), hlength]
      omega
  simp only [entryHead, List.length_append, List.length_singleton, hlevel]
  rw [hne (by omega), hne (by omega), hstamp, hident, headLength]
  omega

theorem total_pairLength (pairs : List (CStr × CStr)) :
    total pairLength pairs = (pairsText pairs).length := by
  rw [length_pairsText]
  congr 1
  funext pair
  exact (length_pairText pair).symm

/-- There is room for the message unless the MDC section takes all there is. -/
theorem room_iff {len : Nat} (tv : Timeval) (identity : Option CStr) (severity : Severity)
    (mdc : List (CStr × CStr)) (hlen : minBufferLength ≤ len) :
    (entryFront len tv identity severity mdc).length + 20 < len ↔
      ¬FillsRoom len tv identity severity mdc := by
  have hmin : minBufferLength = 1000 := rfl
  have hhead := length_entryHead_le tv identity severity
  rw [length_entryHead] at hhead
  have hfills : FillsRoom len tv identity severity mdc ↔
      (pairsText (fitPairs (len - headLength tv identity severity - 28) mdc)).length =
        len - headLength tv identity severity - 28 := by
    have hexact := total_fitting_eq_iff pairLength (len - headLength tv identity severity - 28) mdc
    have hfit : fitting pairLength (len - headLength tv identity severity - 28) mdc =
        fitPairs (len - headLength tv identity severity - 28) mdc := by
      rw [fitPairs]
      congr 1
      funext pair
      exact (length_pairText pair).symm
    rw [hfit, total_pairLength] at hexact
    rw [hexact]
    constructor
    · rintro ⟨front, hmem, hfront⟩
      exact ⟨front, hmem, by omega⟩
    · rintro ⟨front, hmem, hfront⟩
      exact ⟨front, hmem, by omega⟩
  have hle := length_pairsText_fitPairs (len - headLength tv identity severity - 28) mdc
  rw [hfills, entryFront_eq tv identity severity mdc hlen]
  simp only [List.length_append, length_mdcText, List.length_singleton, length_entryHead]
  omega

/-- A short list leaves room. -/
theorem not_fillsRoom {len : Nat} (tv : Timeval) (identity : Option CStr) (severity : Severity)
    {mdc : List (CStr × CStr)} (h : total pairLength mdc + 180 < len) :
    ¬FillsRoom len tv identity severity mdc := by
  rintro ⟨front, hmem, hfront⟩
  obtain ⟨rest, rfl⟩ := (List.mem_inits _ _).mp hmem
  have hhead := length_entryHead_le tv identity severity
  rw [length_entryHead] at hhead
  rw [total_append] at h
  omega

/-- The formatter returns an entry exactly when the MDC section leaves room. -/
theorem format_pos_iff (buffer : Foundation.ByteBuffer.Buffer) {len : Nat} (tv : Timeval)
    (identity : Option CStr) (severity : Severity) (mdc : List (CStr × CStr))
    (contents : Nat → UInt8) (bytes : List UInt8) (hbytes : bytes.length ≤ intMax)
    (hlen : minBufferLength ≤ len) (hmax : len ≤ intMax) (hbuffer : len ≤ buffer.length) :
    (∃ result r, mdclogInternalFormatToJsonStr buffer len tv identity severity mdc (some contents)
      (.output bytes hbytes) = some (result, r) ∧ 0 < r) ↔
      ¬FillsRoom len tv identity severity mdc := by
  obtain ⟨rest, hformat⟩ := mdclogInternalFormatToJsonStr_eq buffer tv identity severity mdc
    contents bytes hbytes hlen hmax hbuffer
  rw [hformat, ← room_iff tv identity severity mdc hlen]
  by_cases hroom : (entryFront len tv identity severity mdc).length + 20 < len
  · refine iff_of_true ?_ hroom
    rw [if_pos hroom]
    exact ⟨_, _, rfl, by simp [entryText]; omega⟩
  · refine iff_of_false ?_ hroom
    rw [if_neg hroom]
    rintro ⟨result, r, hsome, hpos⟩
    obtain ⟨-, rfl⟩ := Prod.mk.inj (Option.some.inj hsome)
    omega

/-- A value of `count` letters. -/
def letters (count : Nat) : CStr :=
  ⟨List.replicate count 0x61, by
    intro h
    exact absurd (List.eq_of_mem_replicate h) (by decide)⟩

end Mdclog.EntryRoom
