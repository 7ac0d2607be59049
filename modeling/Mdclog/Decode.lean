import Mdclog.Foundation.Json
import Mdclog.LogEntry
import Mdclog.MdcStore

/-! What a JSON reader gets back from a log entry. -/
namespace Mdclog.Decode
open Foundation.Json CString Escape JsonFormat Sections LogEntry MdcStore

/-- ASCII text as the code units it decodes to. -/
def units (text : List UInt8) : List UInt16 := text.map UInt8.toUInt16

/-- Escaping and decoding give the text back, its non-printable bytes as spaces. -/
theorem parseString_escapeText (text rest : List UInt8) :
    parseString (escapeText text ++ 0x22 :: rest) = some (units (render text), rest) := by
  induction text with
  | nil => simp [units, render]
  | cons c text ih =>
    rw [escapeText_cons, List.append_assoc]
    by_cases hc : isEscaped c = true
    · have hunit : renderByte c = c ∧ escapeUnit c = some c.toUInt16 := by
        simp only [isEscaped, Bool.or_eq_true, decide_eq_true_eq] at hc
        rcases hc with rfl | rfl <;> decide
      simp only [escapeByte, if_pos hc, hunit.1, List.cons_append, List.nil_append]
      rw [parseString_escape _ hunit.2, ih]
      simp [units, render, hunit.1]
    · have hplain : renderByte c ≠ 0x22 ∧ renderByte c ≠ 0x5c := by
        rw [Bool.not_eq_true, ← isEscaped_renderByte, isEscaped_eq_false_iff] at hc
        exact ⟨hc.2, hc.1⟩
      have hrange : 0x20 ≤ renderByte c ∧ renderByte c < 0x80 := by
        have hprint := isprint_renderByte c
        simp only [isprint, Bool.and_eq_true, decide_eq_true_eq] at hprint
        exact ⟨hprint.1, UInt8.lt_of_le_of_lt hprint.2 (show (0x7e : UInt8) < 0x80 by decide)⟩
      simp only [escapeByte, if_neg hc, List.cons_append, List.nil_append]
      rw [parseString_plain _ hplain.1 hplain.2 hrange, ih]
      simp [units, render]

/-- Text without special characters stands for itself. -/
theorem parseString_clean {text : List UInt8} (rest : List UInt8)
    (h : ∀ c ∈ text, isprint c = true ∧ isEscaped c = false) :
    parseString (text ++ 0x22 :: rest) = some (units text, rest) := by
  have hparse := parseString_escapeText text rest
  rwa [escapeText_of_clean h, render_of_isprint fun c hc => (h c hc).1] at hparse

/-! Decimal numbers. -/

theorem decimal_ne_nil (n : Nat) : decimal n ≠ [] := by
  unfold decimal
  split
  · simp
  · simpa [Nat.digits_eq_nil_iff_eq_zero] using ‹¬n = 0›

theorem decimalDigit_isDigit {d : Nat} (h : d < 10) : isDigit (UInt8.ofNat (0x30 + d)) = true := by
  interval_cases d <;> decide

theorem decimal_isDigit (n : Nat) : ∀ c ∈ decimal n, isDigit c = true := by
  intro c hc
  unfold decimal at hc
  split at hc
  · simp only [List.mem_singleton] at hc
    rw [hc]
    decide
  · simp only [List.mem_reverse, List.mem_map] at hc
    obtain ⟨d, hd, rfl⟩ := hc
    exact decimalDigit_isDigit (Nat.digits_lt_base (by decide) hd)

theorem decimal_head (n : Nat) (h : 1 < (decimal n).length) :
    (decimal n).head? ≠ some 0x30 := by
  unfold decimal at h ⊢
  split at h
  · simp at h
  · rename_i hn
    have hne : Nat.digits 10 n ≠ [] := by simpa [Nat.digits_eq_nil_iff_eq_zero] using hn
    have hlast := Nat.getLast_digit_ne_zero 10 hn
    have hlt : (Nat.digits 10 n).getLast hne < 10 :=
      Nat.digits_lt_base (by decide) (List.getLast_mem hne)
    rw [if_neg hn, List.head?_reverse, List.getLast?_map, List.getLast?_eq_some_getLast hne]
    simp only [Option.map_some, ne_eq, Option.some.injEq]
    generalize (Nat.digits 10 n).getLast hne = d at hlast hlt
    interval_cases d
    · contradiction
    all_goals decide

theorem digitsValue_decimal (n : Nat) : digitsValue (decimal n) = n := by
  unfold decimal
  split
  · subst_vars
    rfl
  · have hfold : ∀ digits : List Nat, (∀ d ∈ digits, d < 10) →
        digitsValue ((digits.map fun d => UInt8.ofNat (0x30 + d)).reverse) =
          Nat.ofDigits 10 digits := by
      intro digits
      induction digits with
      | nil => intro _; rfl
      | cons d digits ih =>
        intro hlt
        have hd := hlt d (by simp)
        have hbyte : (UInt8.ofNat (0x30 + d)).toNat - 0x30 = d := by
          rw [UInt8.toNat_ofNat']
          omega
        rw [List.map_cons, List.reverse_cons, digitsValue, List.foldl_append, ← digitsValue,
          ih fun x hx => hlt x (by simp [hx]), Nat.ofDigits_cons]
        simp only [List.foldl_cons, List.foldl_nil, hbyte]
        ring
    rw [hfold _ fun d hd => Nat.digits_lt_base (by decide) hd, Nat.ofDigits_digits]

/-! The members of an entry. -/

/-- The member a pair decodes to. -/
def pairMember (pair : CStr × CStr) : List UInt16 × Value :=
  (units pair.1.bytes, .string (units (render pair.2.bytes)))

theorem pairText_stored (pair : CStr × CStr) : pairText (stored pair) =
    0x22 :: (pair.1.bytes ++ 0x22 :: 0x3a :: 0x22 :: (escapeText pair.2.bytes ++ [0x22])) ++
      [0x2c] := by
  have h₁ : ascii "\"" = [0x22] := by decide
  have h₂ : ascii "\":\"" = [0x22, 0x3a, 0x22] := by decide
  have h₃ : ascii "\"," = [0x22, 0x2c] := by decide
  simp [pairText, stored, CStr.escaped, h₁, h₂, h₃]

/-- The pairs of the MDC object, with the brace in the place of the last comma. -/
theorem parseMembers_pairs (pairs : List (CStr × CStr)) (rest : List UInt8) (fuel : Nat)
    (hne : pairs ≠ []) (hclean : ∀ pair ∈ pairs, Clean pair.1.bytes)
    (hfuel : pairs.length < fuel) :
    parseMembers fuel ((pairsText (pairs.map stored)).dropLast ++ 0x7d :: rest) =
      some (pairs.map pairMember, rest) := by
  induction pairs generalizing fuel with
  | nil => contradiction
  | cons pair pairs ih =>
    obtain ⟨fuel, rfl⟩ : ∃ n, fuel = n + 1 + 1 := ⟨fuel - 2, by
      rw [List.length_cons] at hfuel
      omega⟩
    rw [List.map_cons, pairsText_cons, pairText_stored]
    by_cases hlast : pairs = []
    · subst hlast
      have hname := parseString_clean (0x3a :: 0x22 :: (escapeText pair.2.bytes ++
        [0x22] ++ 0x7d :: rest)) (hclean pair (by simp))
      have hvalue := parseValue_string fuel (parseString_escapeText pair.2.bytes (0x7d :: rest))
      have hmember := parseMembers_last hname (by simpa using hvalue)
      rw [List.map_nil, show pairsText [] = [] from rfl, List.append_nil, List.dropLast_concat]
      simpa [pairMember] using hmember
    · have hrest : pairsText (pairs.map stored) ≠ [] := by
        rw [Ne, pairsText_eq_nil_iff, List.map_eq_nil_iff]
        exact hlast
      have hmore := ih (fuel + 1) hlast (fun p hp => hclean p (by simp [hp]))
        (by rw [List.length_cons] at hfuel; omega)
      have hname := parseString_clean (0x3a :: 0x22 :: (escapeText pair.2.bytes ++ [0x22] ++ 0x2c ::
        ((pairsText (pairs.map stored)).dropLast ++ 0x7d :: rest))) (hclean pair (by simp))
      have hvalue := parseValue_string fuel (parseString_escapeText pair.2.bytes (0x2c ::
        ((pairsText (pairs.map stored)).dropLast ++ 0x7d :: rest)))
      have hmember := parseMembers_cons hname (by simpa using hvalue) hmore
      rw [List.dropLast_append_of_ne_nil hrest]
      simpa [pairMember] using hmember

theorem parseValue_mdc (pairs : List (CStr × CStr)) (rest : List UInt8) (fuel : Nat)
    (hclean : ∀ pair ∈ pairs, Clean pair.1.bytes) (hfuel : pairs.length < fuel) :
    parseValue (fuel + 1) (0x7b :: ((pairsText (pairs.map stored)).dropLast ++ 0x7d :: rest)) =
      some (.object (pairs.map pairMember), rest) := by
  cases pairs with
  | nil => exact parseValue_emptyObject rest fuel
  | cons pair pairs =>
    apply parseValue_object
    · rw [List.map_cons, pairsText_cons, pairText_stored]
      simp only [List.cons_append, List.dropLast_cons_of_ne_nil, List.append_eq_nil_iff, ne_eq,
        reduceCtorEq, and_false, false_and, not_false_eq_true, List.head?_cons]
    · exact parseMembers_pairs (pair :: pairs) rest fuel (by simp) hclean hfuel

/-- The object an entry decodes to. -/
def entryValue (ts : Nat) (crit id : List UInt8) (pairs : List (CStr × CStr))
    (msg : List UInt8) : Value :=
  .object [
    (units (ascii "ts"), .number ⟨ts, 0⟩),
    (units (ascii "crit"), .string (units crit)),
    (units (ascii "id"), .string (units id)),
    (units (ascii "mdc"), .object (pairs.map pairMember)),
    (units (ascii "msg"), .string (units msg))]

theorem clean_ascii_names : Clean (ascii "ts") ∧ Clean (ascii "crit") ∧ Clean (ascii "id") ∧
    Clean (ascii "mdc") ∧ Clean (ascii "msg") := by
  refine ⟨?_, ?_, ?_, ?_, ?_⟩ <;>
    exact (containsSpecialLoop_eq_false_iff _).mp (by decide)

/-- A member whose value is a string, with more members behind it. -/
theorem parseMembers_stringMember {name : List UInt8} (text : List UInt8) (hname : Clean name)
    {more rest : List UInt8} {members : List (List UInt16 × Value)} {fuel : Nat}
    (hmore : parseMembers (fuel + 1) more = some (members, rest)) :
    parseMembers (fuel + 1 + 1)
        (0x22 :: (name ++ 0x22 :: 0x3a :: 0x22 :: (escapeText text ++ 0x22 :: 0x2c :: more))) =
      some ((units name, .string (units (render text))) :: members, rest) :=
  parseMembers_cons (parseString_clean _ hname)
    (parseValue_string fuel (parseString_escapeText text _)) hmore

theorem length_le_mdcText (pairs : List (CStr × CStr)) :
    pairs.length + 6 ≤ (mdcText (pairs.map stored)).length := by
  have hpairs : pairs.length ≤ (pairsText (pairs.map stored)).length := by
    induction pairs with
    | nil => exact Nat.zero_le _
    | cons pair pairs ih =>
      rw [List.map_cons, pairsText_cons, pairText_stored, List.length_append]
      simp only [List.length_cons, List.length_append]
      omega
  rw [length_mdcText]
  omega

/-- A string member as it is read, with more members behind it. -/
def stringOn (name text more : List UInt8) : List UInt8 :=
  0x22 :: (name ++ 0x22 :: 0x3a :: 0x22 :: (text ++ 0x22 :: 0x2c :: more))

/-- The members behind the identity. -/
def mdcOn (mdc msg : List UInt8) : List UInt8 :=
  0x22 :: (ascii "mdc" ++ 0x22 :: 0x3a :: 0x7b :: (mdc ++ 0x7d :: 0x2c ::
    0x22 :: (ascii "msg" ++ 0x22 :: 0x3a :: 0x22 :: (msg ++ 0x22 :: [0x7d]))))

/-- Members that end the text parse with enough fuel. -/
def Parses (more : List UInt8) (members : List (List UInt16 × Value)) : Prop :=
  ∀ fuel, more.length ≤ fuel → parseMembers fuel more = some (members, [])

theorem parses_stringOn {name text more : List UInt8} {members : List (List UInt16 × Value)}
    (hname : Clean name) (htext : Clean text) (h : Parses more members) :
    Parses (stringOn name text more) ((units name, .string (units text)) :: members) := by
  intro fuel hfuel
  obtain ⟨fuel, rfl⟩ : ∃ n, fuel = n + 1 + 1 := by
    refine ⟨fuel - 2, ?_⟩
    simp only [stringOn, List.length_append, List.length_cons] at hfuel
    omega
  have hmore := h (fuel + 1) (by
    simp only [stringOn, List.length_append, List.length_cons] at hfuel
    omega)
  have hmember := parseMembers_stringMember text hname hmore
  rw [escapeText_of_clean htext, render_of_isprint fun c hc => (htext c hc).1] at hmember
  exact hmember

theorem parses_mdcOn {pairs : List (CStr × CStr)} (hclean : ∀ pair ∈ pairs, Clean pair.1.bytes)
    (msg : List UInt8) :
    Parses (mdcOn (pairsText (pairs.map stored)).dropLast (escapeText msg))
      [(units (ascii "mdc"), .object (pairs.map pairMember)),
        (units (ascii "msg"), .string (units (render msg)))] := by
  intro fuel hfuel
  obtain ⟨-, -, -, hmdcName, hmsgName⟩ := clean_ascii_names
  obtain ⟨fuel, rfl⟩ : ∃ n, fuel = n + pairs.length + 3 := by
    have hmdcText := length_le_mdcText pairs
    refine ⟨fuel - pairs.length - 3, ?_⟩
    simp only [mdcText, length_mdcHeader, List.length_append, List.length_cons] at hmdcText
    simp only [mdcOn, List.length_append, List.length_cons] at hfuel
    omega
  have hmsg := parseMembers_last (parseString_clean _ hmsgName)
    (parseValue_string (fuel + pairs.length) (parseString_escapeText msg [0x7d]))
  exact parseMembers_cons (parseString_clean _ hmdcName)
    (parseValue_mdc pairs _ (fuel + pairs.length + 1) hclean (by omega)) hmsg

theorem decode_timestamp (ts : Nat) {more : List UInt8} {members : List (List UInt16 × Value)}
    (h : Parses more members) :
    decode (0x7b :: 0x22 :: (ascii "ts" ++ 0x22 :: 0x3a :: (decimal ts ++ 0x2c :: more))) =
      some (.object ((units (ascii "ts"), .number ⟨ts, 0⟩) :: members)) := by
  apply decode_eq_some
  obtain ⟨fuel, hfuel, hmore⟩ : ∃ fuel, List.length (0x7b :: 0x22 :: (ascii "ts" ++ 0x22 :: 0x3a ::
      (decimal ts ++ 0x2c :: more))) + 1 = fuel + 1 + 1 + 1 ∧ more.length ≤ fuel + 1 := by
    refine ⟨(ascii "ts" ++ 0x22 :: 0x3a :: (decimal ts ++ 0x2c :: more)).length, rfl, ?_⟩
    simp only [List.length_append, List.length_cons]
    omega
  have hts := parseMembers_cons (parseString_clean _ clean_ascii_names.1)
    (parseValue_digits fuel (decimal_ne_nil ts) (decimal_isDigit ts) (decimal_head ts)
      (by simp; decide)) (h (fuel + 1) hmore)
  rw [digitsValue_decimal] at hts
  rw [hfuel]
  exact parseValue_object (by simp) hts

/-- The texts of an entry as they are read. -/
theorem ascii_names : ascii "\"ts\":" = 0x22 :: (ascii "ts" ++ [0x22, 0x3a]) ∧
    ascii "\"crit\":\"" = 0x22 :: (ascii "crit" ++ [0x22, 0x3a, 0x22]) ∧
    ascii "\"id\":\"" = 0x22 :: (ascii "id" ++ [0x22, 0x3a, 0x22]) ∧
    mdcHeader = 0x22 :: (ascii "mdc" ++ [0x22, 0x3a, 0x7b]) ∧
    msgHeader = 0x22 :: (ascii "msg" ++ [0x22, 0x3a, 0x22]) ∧
    ascii "\"" = [0x22] ∧ comma = 0x2c := by decide

theorem decode_entry (ts : Nat) (crit id : List UInt8) (pairs : List (CStr × CStr))
    (msg : List UInt8) (hcrit : Clean crit) (hid : Clean id)
    (hclean : ∀ pair ∈ pairs, Clean pair.1.bytes) :
    decode ([0x7b] ++ (ascii "\"ts\":" ++ decimal ts) ++ [comma] ++
        (ascii "\"crit\":\"" ++ crit ++ ascii "\"") ++ [comma] ++
        (ascii "\"id\":\"" ++ id ++ ascii "\"") ++ [comma] ++
        mdcText (pairs.map stored) ++ [comma] ++
        (msgHeader ++ escapeText msg ++ ascii "\"") ++ [0x7d]) =
      some (entryValue ts crit id pairs (render msg)) := by
  obtain ⟨-, hcritName, hidName, -, -⟩ := clean_ascii_names
  have hmembers := parses_stringOn hcritName hcrit (parses_stringOn hidName hid
    (parses_mdcOn hclean msg))
  obtain ⟨hts, hcritText, hidText, hmdc, hmsg, hquote, hcomma⟩ := ascii_names
  rw [entryValue, ← decode_timestamp ts hmembers, stringOn, stringOn, mdcOn, mdcText, hts,
    hcritText, hidText, hmdc, hmsg, hquote, hcomma]
  simp only [List.append_assoc, List.cons_append, List.nil_append]

/-- An entry for a severity that has no name. -/
theorem decode_entry_unnamed (ts : Nat) (id : List UInt8) (pairs : List (CStr × CStr))
    (msg : List UInt8) (hid : Clean id) (hclean : ∀ pair ∈ pairs, Clean pair.1.bytes) :
    ∃ members, decode ([0x7b] ++ (ascii "\"ts\":" ++ decimal ts) ++ [comma] ++
        (ascii "\"id\":\"" ++ id ++ ascii "\"") ++ [comma] ++
        mdcText (pairs.map stored) ++ [comma] ++
        (msgHeader ++ escapeText msg ++ ascii "\"") ++ [0x7d]) = some (.object members) := by
  have hmembers := parses_stringOn clean_ascii_names.2.2.1 hid (parses_mdcOn hclean msg)
  obtain ⟨hts, -, hidText, hmdc, hmsg, hquote, hcomma⟩ := ascii_names
  refine ⟨_, Eq.trans ?_ (decode_timestamp ts hmembers)⟩
  rw [stringOn, mdcOn, mdcText, hts, hidText, hmdc, hmsg, hquote, hcomma]
  simp only [List.append_assoc, List.cons_append, List.nil_append]

end Mdclog.Decode
