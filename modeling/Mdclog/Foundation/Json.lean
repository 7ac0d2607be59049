import Mathlib.Data.Nat.Digits.Lemmas
import Mathlib.Data.List.TakeWhile

/-! A decoder for JSON texts (RFC 8259) written in ASCII. It accepts exactly the
grammar of the RFC restricted to ASCII bytes; a string decodes to its UTF-16
code units, which is what `\uXXXX` escapes denote, and a number to its decimal
mantissa and exponent. -/
namespace Foundation.Json

structure Number where
  mantissa : Int
  exponent : Int
  deriving DecidableEq

inductive Value where
  | null
  | bool (value : Bool)
  | number (value : Number)
  | string (units : List UInt16)
  | array (elements : List Value)
  | object (members : List (List UInt16 × Value))

def isSpace (c : UInt8) : Bool := c = 0x20 || c = 0x09 || c = 0x0a || c = 0x0d

def skipSpace (text : List UInt8) : List UInt8 := text.dropWhile isSpace

theorem skipSpace_cons {c : UInt8} (text : List UInt8) (h : isSpace c = false) :
    skipSpace (c :: text) = c :: text := by
  simp [skipSpace, h]

def hexDigit (c : UInt8) : Option UInt16 :=
  if 0x30 ≤ c ∧ c ≤ 0x39 then some (c - 0x30).toUInt16
  else if 0x41 ≤ c ∧ c ≤ 0x46 then some (c - 0x37).toUInt16
  else if 0x61 ≤ c ∧ c ≤ 0x66 then some (c - 0x57).toUInt16
  else none

/-- The two-character escapes. -/
def escapeUnit (c : UInt8) : Option UInt16 :=
  if c = 0x22 ∨ c = 0x5c ∨ c = 0x2f then some c.toUInt16
  else if c = 0x62 then some 0x08
  else if c = 0x66 then some 0x0c
  else if c = 0x6e then some 0x0a
  else if c = 0x72 then some 0x0d
  else if c = 0x74 then some 0x09
  else none

/-- The rest of a string literal whose opening quote has been read: its code
units and what follows the closing quote. -/
def parseString : List UInt8 → Option (List UInt16 × List UInt8)
  | [] => none
  | c :: text =>
      if c = 0x22 then some ([], text)
      else if c = 0x5c then
        match text with
        | [] => none
        | e :: text =>
            if e = 0x75 then
              match text with
              | a :: b :: c :: d :: text => do
                  let a ← hexDigit a
                  let b ← hexDigit b
                  let c ← hexDigit c
                  let d ← hexDigit d
                  let (units, rest) ← parseString text
                  return ((((a * 16 + b) * 16 + c) * 16 + d) :: units, rest)
              | _ => none
            else do
              let unit ← escapeUnit e
              let (units, rest) ← parseString text
              return (unit :: units, rest)
      else if 0x20 ≤ c ∧ c < 0x80 then do
        let (units, rest) ← parseString text
        return (c.toUInt16 :: units, rest)
      else none

@[simp] theorem parseString_quote (text : List UInt8) :
    parseString (0x22 :: text) = some ([], text) := by
  rw [parseString.eq_def]
  rfl

theorem parseString_plain {c : UInt8} (text : List UInt8) (hquote : c ≠ 0x22)
    (hbackslash : c ≠ 0x5c) (hrange : 0x20 ≤ c ∧ c < 0x80) :
    parseString (c :: text) =
      (parseString text).map fun parsed => (c.toUInt16 :: parsed.1, parsed.2) := by
  rw [parseString.eq_def]
  simp only [if_neg hquote, if_neg hbackslash, if_pos hrange]
  cases parseString text <;> rfl

theorem parseString_escape {e : UInt8} {unit : UInt16} (text : List UInt8)
    (h : escapeUnit e = some unit) :
    parseString (0x5c :: e :: text) =
      (parseString text).map fun parsed => (unit :: parsed.1, parsed.2) := by
  have hu : e ≠ 0x75 := by
    rintro rfl
    rw [show escapeUnit 0x75 = none by decide] at h
    contradiction
  rw [parseString.eq_def]
  simp only [if_neg hu, h]
  cases parseString text <;> rfl

def isDigit (c : UInt8) : Bool := 0x30 ≤ c && c ≤ 0x39

def digitsValue (digits : List UInt8) : Nat :=
  digits.foldl (fun value c => value * 10 + (c.toNat - 0x30)) 0

/-- A run of digits and what follows it. -/
def spanDigits (text : List UInt8) : List UInt8 × List UInt8 :=
  (text.takeWhile isDigit, text.dropWhile isDigit)

theorem spanDigits_append {digits rest : List UInt8} (hdigits : ∀ c ∈ digits, isDigit c = true)
    (hrest : ∀ c ∈ rest.head?, isDigit c = false) :
    spanDigits (digits ++ rest) = (digits, rest) := by
  unfold spanDigits
  rw [List.takeWhile_append_of_pos hdigits, List.dropWhile_append_of_pos hdigits]
  cases rest with
  | nil => simp
  | cons c rest =>
    have hc := hrest c (by simp)
    simp [hc]

/-- The fraction of a number, if there is one: its digits. -/
def parseFraction (text : List UInt8) : Option (List UInt8 × List UInt8) :=
  match text with
  | c :: rest =>
      if c = 0x2e then
        let (digits, rest) := spanDigits rest
        if digits = [] then none else some (digits, rest)
      else some ([], text)
  | [] => some ([], [])

/-- The exponent of a number, if there is one. -/
def parseExponent (text : List UInt8) : Option (Int × List UInt8) :=
  match text with
  | c :: rest =>
      if c = 0x65 ∨ c = 0x45 then
        let (negative, rest) := match rest with
          | sign :: rest =>
              if sign = 0x2d then (true, rest)
              else if sign = 0x2b then (false, rest)
              else (false, sign :: rest)
          | [] => (false, [])
        let (digits, rest) := spanDigits rest
        if digits = [] then none
        else some (if negative then -(digitsValue digits : Int) else digitsValue digits, rest)
      else some (0, text)
  | [] => some (0, [])

def parseNumber (text : List UInt8) : Option (Number × List UInt8) := do
  let (negative, text) := match text with
    | sign :: rest => if sign = 0x2d then (true, rest) else (false, sign :: rest)
    | [] => (false, [])
  let (whole, text) := spanDigits text
  -- no empty integer part, and no leading zero
  if whole = [] ∨ (1 < whole.length ∧ whole.head? = some 0x30) then none
  else
    let (fraction, text) ← parseFraction text
    let (exponent, text) ← parseExponent text
    let value : Int := digitsValue (whole ++ fraction)
    return (⟨if negative then -value else value, exponent - fraction.length⟩, text)

/-- The three literal names. -/
def parseName (text : List UInt8) : Option (Value × List UInt8) :=
  match text with
  | 0x6e :: 0x75 :: 0x6c :: 0x6c :: rest => some (.null, rest)
  | 0x74 :: 0x72 :: 0x75 :: 0x65 :: rest => some (.bool true, rest)
  | 0x66 :: 0x61 :: 0x6c :: 0x73 :: 0x65 :: rest => some (.bool false, rest)
  | _ => none

mutual

/-- One value. Every call below it has read a byte more, so fuel of the length
of the text is enough. -/
def parseValue : Nat → List UInt8 → Option (Value × List UInt8)
  | 0, _ => none
  | fuel + 1, text =>
      match skipSpace text with
      | [] => none
      | c :: text =>
          if c = 0x22 then do
            let (units, rest) ← parseString text
            return (.string units, rest)
          else if c = 0x7b then
            if (skipSpace text).head? = some 0x7d then
              some (.object [], (skipSpace text).drop 1)
            else do
              let (members, rest) ← parseMembers fuel text
              return (.object members, rest)
          else if c = 0x5b then
            if (skipSpace text).head? = some 0x5d then
              some (.array [], (skipSpace text).drop 1)
            else do
              let (elements, rest) ← parseElements fuel text
              return (.array elements, rest)
          else if c = 0x2d ∨ isDigit c then do
            let (number, rest) ← parseNumber (c :: text)
            return (.number number, rest)
          else parseName (c :: text)

/-- The members of an object up to its closing brace, at least one. -/
def parseMembers : Nat → List UInt8 → Option (List (List UInt16 × Value) × List UInt8)
  | 0, _ => none
  | fuel + 1, text =>
      match skipSpace text with
      | [] => none
      | c :: text =>
          if c = 0x22 then do
            let (name, text) ← parseString text
            if (skipSpace text).head? = some 0x3a then
              let (value, text) ← parseValue fuel ((skipSpace text).drop 1)
              match skipSpace text with
              | [] => none
              | c :: text =>
                  if c = 0x2c then
                    let (members, rest) ← parseMembers fuel text
                    return ((name, value) :: members, rest)
                  else if c = 0x7d then
                    return ([(name, value)], text)
                  else none
            else none
          else none

/-- The elements of an array up to its closing bracket, at least one. -/
def parseElements : Nat → List UInt8 → Option (List Value × List UInt8)
  | 0, _ => none
  | fuel + 1, text => do
      let (value, text) ← parseValue fuel text
      match skipSpace text with
      | [] => none
      | c :: text =>
          if c = 0x2c then
            let (elements, rest) ← parseElements fuel text
            return (value :: elements, rest)
          else if c = 0x5d then
            return ([value], text)
          else none

end

/-- The value of a whole JSON text. -/
def decode (text : List UInt8) : Option Value := do
  let (value, rest) ← parseValue (text.length + 1) text
  if skipSpace rest = [] then some value else none

/-! Rules for texts without white space. -/

/-- A natural number printed without leading zeros. -/
theorem parseNumber_digits {digits rest : List UInt8} (hne : digits ≠ [])
    (hdigits : ∀ c ∈ digits, isDigit c = true)
    (hzero : 1 < digits.length → digits.head? ≠ some 0x30)
    (hrest : ∀ c ∈ rest.head?, isDigit c = false ∧ c ≠ 0x2e ∧ c ≠ 0x65 ∧ c ≠ 0x45) :
    parseNumber (digits ++ rest) = some (⟨digitsValue digits, 0⟩, rest) := by
  have hspan := spanDigits_append hdigits fun c hc => (hrest c hc).1
  have hfraction : parseFraction rest = some ([], rest) := by
    cases rest with
    | nil => rfl
    | cons c rest =>
      have hc := hrest c (by simp)
      simp [parseFraction, hc.2.1]
  have hexponent : parseExponent rest = some (0, rest) := by
    cases rest with
    | nil => rfl
    | cons c rest =>
      have hc := hrest c (by simp)
      simp [parseExponent, hc.2.2]
  have hwhole : ¬(digits = [] ∨ (1 < digits.length ∧ digits.head? = some 0x30)) := by
    rintro (h | ⟨hlong, h⟩)
    · exact hne h
    · exact hzero hlong h
  cases digits with
  | nil => contradiction
  | cons c digits =>
    have hsign : c ≠ 0x2d := by
      rintro rfl
      exact absurd (hdigits 0x2d (by simp)) (by decide)
    unfold parseNumber
    rw [List.cons_append] at hspan ⊢
    simp only [if_neg hsign, hspan, if_neg hwhole, hfraction, hexponent, Option.bind_eq_bind,
      Option.bind_some]
    simp

theorem parseValue_string {body rest : List UInt8} {units : List UInt16} (fuel : Nat)
    (h : parseString body = some (units, rest)) :
    parseValue (fuel + 1) (0x22 :: body) = some (.string units, rest) := by
  rw [parseValue, skipSpace_cons _ (by decide)]
  simp [h]

theorem parseValue_digits {digits rest : List UInt8} (fuel : Nat) (hne : digits ≠ [])
    (hdigits : ∀ c ∈ digits, isDigit c = true)
    (hzero : 1 < digits.length → digits.head? ≠ some 0x30)
    (hrest : ∀ c ∈ rest.head?, isDigit c = false ∧ c ≠ 0x2e ∧ c ≠ 0x65 ∧ c ≠ 0x45) :
    parseValue (fuel + 1) (digits ++ rest) =
      some (.number ⟨digitsValue digits, 0⟩, rest) := by
  have hnumber := parseNumber_digits hne hdigits hzero hrest
  cases digits with
  | nil => contradiction
  | cons c digits =>
    have hc := hdigits c (by simp)
    have hspace : isSpace c = false := by
      cases hsp : isSpace c with
      | false => rfl
      | true =>
        simp only [isSpace, Bool.or_eq_true, decide_eq_true_eq] at hsp
        rcases hsp with ((rfl | rfl) | rfl) | rfl <;> exact absurd hc (by decide)
    have hother : c ≠ 0x22 ∧ c ≠ 0x7b ∧ c ≠ 0x5b := by
      refine ⟨?_, ?_, ?_⟩ <;>
        · rintro rfl
          exact absurd hc (by decide)
    rw [List.cons_append] at hnumber ⊢
    rw [parseValue, skipSpace_cons _ hspace]
    simp [hother, hc, hnumber]

theorem parseValue_emptyObject (rest : List UInt8) (fuel : Nat) :
    parseValue (fuel + 1) (0x7b :: 0x7d :: rest) = some (.object [], rest) := by
  rw [parseValue, skipSpace_cons _ (by decide)]
  simp [skipSpace_cons rest (show isSpace 0x7d = false by decide)]

theorem parseValue_object {text rest : List UInt8} {members : List (List UInt16 × Value)}
    {fuel : Nat} (hhead : text.head? = some 0x22)
    (h : parseMembers fuel text = some (members, rest)) :
    parseValue (fuel + 1) (0x7b :: text) = some (.object members, rest) := by
  have hopen : (skipSpace text).head? ≠ some 0x7d := by
    cases text with
    | nil => simp at hhead
    | cons c text =>
      simp only [List.head?_cons, Option.some.injEq] at hhead
      subst hhead
      rw [skipSpace_cons _ (by decide)]
      simp
  rw [parseValue, skipSpace_cons _ (by decide)]
  simp [hopen, h]

theorem parseMembers_cons {body text more rest : List UInt8} {name : List UInt16} {value : Value}
    {members : List (List UInt16 × Value)} {fuel : Nat}
    (hname : parseString body = some (name, 0x3a :: text))
    (hvalue : parseValue fuel text = some (value, 0x2c :: more))
    (hmore : parseMembers fuel more = some (members, rest)) :
    parseMembers (fuel + 1) (0x22 :: body) = some ((name, value) :: members, rest) := by
  rw [parseMembers, skipSpace_cons _ (by decide)]
  simp [hname, skipSpace_cons text (show isSpace 0x3a = false by decide), hvalue,
    skipSpace_cons more (show isSpace 0x2c = false by decide), hmore]

theorem parseMembers_last {body text rest : List UInt8} {name : List UInt16} {value : Value}
    {fuel : Nat} (hname : parseString body = some (name, 0x3a :: text))
    (hvalue : parseValue fuel text = some (value, 0x7d :: rest)) :
    parseMembers (fuel + 1) (0x22 :: body) = some ([(name, value)], rest) := by
  rw [parseMembers, skipSpace_cons _ (by decide)]
  simp [hname, skipSpace_cons text (show isSpace 0x3a = false by decide), hvalue,
    skipSpace_cons rest (show isSpace 0x7d = false by decide)]

theorem decode_eq_some {text : List UInt8} {value : Value}
    (h : parseValue (text.length + 1) text = some (value, [])) : decode text = some value := by
  simp [decode, h, skipSpace]

end Foundation.Json
