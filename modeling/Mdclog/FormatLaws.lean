import Mdclog.EntryBytes
import Mdclog.EntryRoom

/-! What `format_message` and `format_mdc` write, to the byte, and when an entry
is written in full. -/
namespace Mdclog.FormatLaws
open Foundation.ByteBuffer Foundation.Fitting
open CString Escape JsonFormat Sections LogEntry EntryBytes EntryRoom

/-! The message. -/

/-- `kept` is the longest prefix of `text` whose escaped form leaves `reserve`
of `len` bytes. -/
def LongestPrefix (text : List UInt8) (reserve len : Nat) (kept : List UInt8) : Prop :=
  kept <+: text ∧ (escapeText kept).length + reserve ≤ len ∧
    ∀ other, other <+: text → (escapeText other).length + reserve ≤ len → other <+: kept

theorem longestPrefix_fitPrefix {text : List UInt8} {reserve len : Nat} (h : reserve ≤ len) :
    LongestPrefix text reserve len (fitPrefix (len - reserve) text) := by
  have hfit := length_escapeText_fitPrefix (len - reserve) text
  refine ⟨fitPrefix_isPrefix _ text, by omega, fun other hother hroom => ?_⟩
  apply isPrefix_fitting _ hother
  rw [← length_escapeText]
  omega

/-- The whole message, or the longest prefix that leaves room for the mark. -/
theorem formatMessage_law (front back : List UInt8) (contents : Nat → UInt8) {text : List UInt8}
    (htext : text.length ≤ intMax) (hnul : 0 ∉ text) {len : Nat} (hlen : 20 ≤ len)
    (hback : len ≤ back.length) :
    ∃ out rest, formatMessage (front ++ back) front.length len (some contents)
        (.output text htext) = some (front ++ out ++ 0 :: rest, out.length) ∧
      0 ∉ out ∧ out.length ≤ len - 1 ∧
      ((escapeText text).length + 9 ≤ len →
        out = ascii "\"msg\":\"" ++ escapeText text ++ ascii "\"") ∧
      (len < (escapeText text).length + 9 → ∃ kept, LongestPrefix text 20 len kept ∧
        out = ascii "\"msg\":\"" ++ escapeText kept ++ ascii "[truncated]" ++ ascii "\"") := by
  obtain ⟨rest, hformat, -⟩ := formatMessage_wrote front back contents text htext len (by omega)
    hback
  refine ⟨_, rest, hformat, nul_notMem_of_isprint (printable_messageMember _ _ _), ?_, ?_, ?_⟩
  · have hshort := length_messageMember_lt (CStr.ofMemory (text.take (len - 8))).bytes
      (decide (len ≤ text.length + 8)) (show 0 < len by omega)
    omega
  · intro hfit
    rw [messageMember_eq hlen hnul, if_pos hfit]
    rfl
  · intro hcut
    rw [messageMember_eq hlen hnul, if_neg (by omega)]
    exact ⟨_, longestPrefix_fitPrefix hlen, rfl⟩

/-- A quote at the cut is left out as a whole. -/
theorem formatMessage_law_cut :
    ∃ out rest, formatMessage (List.replicate 24 0) 0 24 (some fun _ => 0)
        (.output (ascii "abc\"defghijklmn") (by decide)) = some (out ++ 0 :: rest, out.length) ∧
      ∃ kept, LongestPrefix (ascii "abc\"defghijklmn") 20 24 kept ∧
        out = ascii "\"msg\":\"" ++ escapeText kept ++ ascii "[truncated]" ++ ascii "\"" := by
  obtain ⟨out, rest, hformat, -, -, -, hcut⟩ := @formatMessage_law [] (List.replicate 24 0)
    (fun _ => 0) (ascii "abc\"defghijklmn") (by decide) (by decide) 24 (by decide) (by decide)
  exact ⟨out, rest, hformat, hcut (by decide)⟩

/-! The MDC section. -/

def commaSeparated : List (List UInt8) → List UInt8
  | [] => []
  | [text] => text
  | text :: texts => text ++ comma :: commaSeparated texts

/-- `"key":"value"`. -/
def pairBody (pair : CStr × CStr) : List UInt8 :=
  ascii "\"" ++ pair.1.bytes ++ ascii "\":\"" ++ pair.2.bytes ++ ascii "\""

theorem pairText_eq (pair : CStr × CStr) : pairText pair = pairBody pair ++ [comma] := by
  have hquote : ascii "\"," = ascii "\"" ++ [comma] := by decide
  rw [pairText, pairBody, hquote, ← List.append_assoc]

/-- Taking back the last comma leaves the pairs with commas between them. -/
theorem dropLast_pairsText (pairs : List (CStr × CStr)) :
    (pairsText pairs).dropLast = commaSeparated (pairs.map pairBody) := by
  induction pairs with
  | nil => rfl
  | cons pair pairs ih =>
    cases pairs with
    | nil => simp [pairsText, pairText_eq, commaSeparated]
    | cons next pairs =>
      have hne : pairsText (next :: pairs) ≠ [] :=
        fun h => absurd (pairsText_eq_nil_iff.mp h) (List.cons_ne_nil _ _)
      rw [pairsText_cons, List.dropLast_append_of_ne_nil hne, ih, pairText_eq]
      simp [commaSeparated]

theorem nul_notMem_pairBody (pair : CStr × CStr) : 0 ∉ pairBody pair := by
  have h₁ : (0 : UInt8) ∉ ascii "\"" := by decide
  have h₂ : (0 : UInt8) ∉ ascii "\":\"" := by decide
  simp [pairBody, h₁, h₂, pair.1.nulFree, pair.2.nulFree]

theorem nul_notMem_commaSeparated {texts : List (List UInt8)} (h : ∀ text ∈ texts, 0 ∉ text) :
    0 ∉ commaSeparated texts := by
  induction texts with
  | nil => exact List.not_mem_nil
  | cons text texts ih =>
    have hrest := ih fun other hother => h other (List.mem_cons_of_mem _ hother)
    cases texts with
    | nil => exact h text (by simp)
    | cons next texts =>
      simp only [commaSeparated, List.mem_append, List.mem_cons, not_or]
      exact ⟨h text (by simp), by decide, hrest⟩

/-- The first pairs that fit, as many as possible, each of them whole. -/
theorem formatMdc_law (front back : List UInt8) (mdc : List (CStr × CStr)) {len : Nat}
    (hpos : 0 < back.length) (hback : len ≤ back.length) (hmax : len ≤ intMax) :
    ∃ out rest, formatMdc (front ++ back) front.length len mdc =
        some (front ++ out ++ 0 :: rest, out.length) ∧
      (len < 9 → out = []) ∧
      (9 ≤ len → 0 ∉ out ∧ out.length ≤ len - 1 ∧ ∃ j ≤ mdc.length,
        7 + total pairLength (mdc.take j) ≤ len - 1 ∧
        (∀ i ≤ mdc.length, 7 + total pairLength (mdc.take i) ≤ len - 1 → i ≤ j) ∧
        out = ascii "\"mdc\":\x7b" ++ commaSeparated ((mdc.take j).map pairBody) ++
          ascii "\x7d") := by
  obtain ⟨rest, hformat, -⟩ := formatMdc_wrote front back mdc hpos hback hmax
  have hcost : (fun pair => (pairText pair).length) = pairLength :=
    funext fun pair => length_pairText pair
  refine ⟨_, rest, hformat, fun hlen => ?_, fun hlen => ?_⟩
  · rw [mdcMember, if_neg (by omega)]
  · have hprefix := fitPairs_isPrefix (len - 8) mdc
    have htake : fitPairs (len - 8) mdc = mdc.take (fitPairs (len - 8) mdc).length :=
      List.prefix_iff_eq_take.mp hprefix
    have hshort : (mdcMember len mdc).length < len := by
      rcases mdcMember_short mdc len with hempty | hshort
      · rw [hempty, List.length_nil]
        omega
      · exact hshort
    have hout : mdcMember len mdc = ascii "\"mdc\":\x7b" ++
        commaSeparated ((fitPairs (len - 8) mdc).map pairBody) ++ ascii "\x7d" := by
      rw [mdcMember, if_pos (by omega), mdcText, dropLast_pairsText]
      rfl
    refine ⟨?_, by omega, (fitPairs (len - 8) mdc).length, hprefix.length_le, ?_, ?_, ?_⟩
    · have h₁ : (0 : UInt8) ∉ ascii "\"mdc\":\x7b" := by decide
      have h₂ : (0 : UInt8) ∉ ascii "\x7d" := by decide
      have h₃ : 0 ∉ commaSeparated ((fitPairs (len - 8) mdc).map pairBody) := by
        apply nul_notMem_commaSeparated
        intro text htext
        obtain ⟨pair, -, rfl⟩ := List.mem_map.mp htext
        exact nul_notMem_pairBody pair
      rw [hout]
      simp [h₁, h₂, h₃]
    · have hfit := length_pairsText_fitPairs (len - 8) mdc
      rw [← htake, total_pairLength]
      omega
    · intro i hi hroom
      have hlonger : mdc.take i <+: fitPairs (len - 8) mdc := by
        rw [fitPairs, hcost]
        exact isPrefix_fitting _ (List.take_prefix i mdc) (by omega)
      have hlength := hlonger.length_le
      rw [List.length_take] at hlength
      omega
    · rw [← htake]
      exact hout

/-- The second of two pairs does not fit. -/
theorem formatMdc_law_two :
    ∃ out rest, formatMdc (List.replicate 20 0) 0 20
        [(.ofString "a", .ofString "1"), (.ofString "b", .ofString "2")] =
        some (out ++ 0 :: rest, out.length) ∧ out = ascii "\"mdc\":\x7b\"a\":\"1\"\x7d" := by
  obtain ⟨out, rest, hformat, -, hlaw⟩ := @formatMdc_law [] (List.replicate 20 0)
    [(.ofString "a", .ofString "1"), (.ofString "b", .ofString "2")] 20 (by decide)
    (by decide) (by decide)
  obtain ⟨-, -, j, hj, hroom, hmost, rfl⟩ := hlaw (by decide)
  have hone : 1 ≤ j := hmost 1 (by decide) (by decide)
  have htwo : j ≠ 2 := by
    rintro rfl
    exact absurd hroom (by decide)
  have hlength : j ≤ 2 := hj
  obtain rfl : j = 1 := by omega
  exact ⟨_, rest, hformat, by decide⟩

/-! The complete entry. -/

/-- The four members in front of the message, with all pairs. -/
def completeFront (tv : Timeval) (crit : List UInt8) (identity : Option CStr)
    (mdc : List (CStr × CStr)) : List UInt8 :=
  ascii "\x7b" ++ commaSeparated [timestampText tv, severityText crit, identityText identity,
    ascii "\"mdc\":\x7b" ++ commaSeparated (mdc.map pairBody) ++ ascii "\x7d"] ++ ascii ","

/-- The entry with all pairs and the whole message. -/
def completeEntry (tv : Timeval) (crit : List UInt8) (identity : Option CStr)
    (mdc : List (CStr × CStr)) (text : List UInt8) : List UInt8 :=
  completeFront tv crit identity mdc ++ ascii "\"msg\":\"" ++ escapeText text ++ ascii "\"" ++
    ascii "\x7d"

theorem completeFront_eq (tv : Timeval) {severity : Severity} {crit : List UInt8}
    (hcrit : severity.val = some crit) (identity : Option CStr) (mdc : List (CStr × CStr)) :
    completeFront tv crit identity mdc =
      entryHead tv identity severity ++ mdcText mdc ++ [comma] := by
  have hts : timestampText tv ≠ [] := by simp [timestampText, show ascii "\"ts\":" ≠ [] by decide]
  have hlevel : severityText crit ≠ [] := by
    simp [severityText, show ascii "\"crit\":\"" ≠ [] by decide]
  have hid : identityText identity ≠ [] := by
    simp [identityText, show ascii "\"id\":\"" ≠ [] by decide]
  have hmember : severityMember severity = severityText crit := by rw [severityMember, hcrit]
  have hbrace : ascii "\x7b" = [0x7b] ∧ ascii "\x7d" = [0x7d] ∧ ascii "," = [comma] := by decide
  have hmdc : ascii "\"mdc\":\x7b" ++ commaSeparated (mdc.map pairBody) ++ ascii "\x7d" =
      mdcText mdc := by
    rw [mdcText, dropLast_pairsText, hbrace.2.1]
    rfl
  rw [completeFront, hmdc, entryHead, hmember, withComma, withComma, withComma, if_neg hts,
    if_neg hlevel, if_neg hid, hbrace.1, hbrace.2.2]
  simp [commaSeparated]

/-- An entry that fits is written in full when the other members leave room for the mark
that would stand for the message, as they do where the message is no shorter than it. -/
theorem fitting_entry_written (buffer : Buffer) {len : Nat} (hlen : minBufferLength ≤ len)
    (hmax : len ≤ intMax) (hbuffer : len ≤ buffer.length) (tv : Timeval) {severity : Severity}
    {crit : List UInt8} (hcrit : severity.val = some crit) (identity : Option CStr)
    (mdc : List (CStr × CStr)) (contents : Nat → UInt8) {text : List UInt8}
    (htext : text.length ≤ intMax) (hnul : 0 ∉ text)
    (hfits : (completeEntry tv crit identity mdc text).length + 1 ≤ len)
    (hreserve : (completeFront tv crit identity mdc).length + 21 ≤ len) :
    ∃ rest, mdclogInternalFormatToJsonStr buffer len tv identity severity mdc (some contents)
        (.output text htext) =
      some (completeEntry tv crit identity mdc text ++ 0 :: rest,
        ((completeEntry tv crit identity mdc text).length : Int)) := by
  have hmin : minBufferLength = 1000 := rfl
  have hmsg : (ascii "\"msg\":\"").length = 7 := by decide
  have hquote : (ascii "\"").length = 1 := by decide
  have hbrace : (ascii "\x7d").length = 1 := by decide
  have hfrontEq := completeFront_eq tv hcrit identity mdc
  have hhead := length_entryHead_le tv identity severity
  have hlength : (completeEntry tv crit identity mdc text).length =
      (completeFront tv crit identity mdc).length + (escapeText text).length + 9 := by
    simp only [completeEntry, List.length_append, hmsg, hquote, hbrace]
    omega
  have hfrontLength : (completeFront tv crit identity mdc).length =
      (entryHead tv identity severity).length + 9 + ((pairsText mdc).length - 1) := by
    rw [hfrontEq, List.length_append, List.length_append, length_mdcText, List.length_singleton]
    omega
  have hall : fitPairs (len - (entryHead tv identity severity).length - 28) mdc = mdc := by
    apply fitting_of_le
    rw [← length_pairsText]
    omega
  have hfront : entryFront len tv identity severity mdc = completeFront tv crit identity mdc := by
    rw [entryFront_eq tv identity severity mdc hlen, hall, hfrontEq]
  have hentry : entryText len tv identity severity mdc text =
      completeEntry tv crit identity mdc text := by
    rw [entryText, hfront, entryMessage, messageMember_eq (by omega) hnul, if_pos (by omega),
      completeEntry]
    simp only [List.append_assoc]
    rfl
  obtain ⟨rest, hformat⟩ := mdclogInternalFormatToJsonStr_eq buffer tv identity severity mdc
    contents text htext hlen hmax hbuffer
  rw [hfront, hentry, if_pos (by omega)] at hformat
  exact ⟨rest, hformat⟩

theorem fitting_entry_written_small :
    ∃ rest, mdclogInternalFormatToJsonStr (List.replicate 1000 0) 1000 ⟨0, 0⟩
        (some (.ofString "id")) .err [(.ofString "k", .ofString "v")] (some fun _ => 0)
        (.output (ascii "hello") (by decide)) =
      some (completeEntry ⟨0, 0⟩ (ascii "ERROR") (some (.ofString "id"))
        [(.ofString "k", .ofString "v")] (ascii "hello") ++ 0 :: rest, 63) :=
  fitting_entry_written (List.replicate 1000 0) (Nat.le_refl 1000) (by decide)
    (Nat.le_of_eq List.length_replicate.symm) ⟨0, 0⟩ rfl _ _ (fun _ => 0) (by decide) (by decide)
    (by decide) (by decide)

/-- With an empty message this entry has 994 bytes, but its pair is dropped. -/
theorem fitting_entry_cut :
    (completeEntry ⟨0, 0⟩ (ascii "ERROR") (some (.ofString "id")) [(.ofString "k", letters 937)]
      []).length = 994 ∧
    ∃ result, mdclogInternalFormatToJsonStr (List.replicate 1000 0) 1000 ⟨0, 0⟩
        (some (.ofString "id")) .err [(.ofString "k", letters 937)] (some fun _ => 0)
        (.output [] (by decide)) = some (result, 51) := by
  have hletters : (letters 937).bytes.length = 937 := List.length_replicate
  have hkey : (CStr.ofString "k").bytes.length = 1 := by decide
  have hhead : (entryHead ⟨0, 0⟩ (some (.ofString "id")) .err).length = 33 := by decide
  have hpair : (pairText (.ofString "k", letters 937)).length = 944 := by
    rw [length_pairText, hkey, hletters]
  constructor
  · have hfront : (completeFront ⟨0, 0⟩ (ascii "ERROR") (some (.ofString "id"))
        [(.ofString "k", letters 937)]).length = 985 := by
      rw [completeFront_eq ⟨0, 0⟩ (show Severity.err.val = some (ascii "ERROR") from rfl),
        List.length_append, List.length_append, length_mdcText, hhead]
      simp [pairsText, hpair]
    simp only [completeEntry, List.length_append, hfront]
    decide
  · have hdropped : fitPairs (1000 - 33 - 28) [(.ofString "k", letters 937)] = [] := by
      rw [fitPairs, fitting, if_neg]
      rw [hpair]
      decide
    have hfront : entryFront 1000 ⟨0, 0⟩ (some (.ofString "id")) .err
        [(.ofString "k", letters 937)] =
        entryHead ⟨0, 0⟩ (some (.ofString "id")) .err ++ mdcText [] ++ [comma] := by
      rw [entryFront_eq _ _ _ _ (Nat.le_refl 1000), hhead, hdropped]
    obtain ⟨rest, hresult⟩ := mdclogInternalFormatToJsonStr_eq (List.replicate 1000 0) ⟨0, 0⟩
      (some (.ofString "id")) .err [(.ofString "k", letters 937)] (fun _ => 0) [] (by decide)
      (Nat.le_refl 1000) (by decide) (Nat.le_of_eq List.length_replicate.symm)
    rw [entryText, hfront, if_pos (by decide)] at hresult
    exact ⟨_, hresult⟩

end Mdclog.FormatLaws
