import Mdclog.JsonFormat

/-! `mdclog.c`, lines 270 to 345: the config map, a file that names the logging
level. -/
namespace Mdclog.ConfigMap
open CString JsonFormat

def newline : UInt8 := 0x0a

def fgetsLoop : Nat → List UInt8 → List UInt8 × List UInt8
  | 0, file => ([], file)
  | _ + 1, [] => ([], [])
  | room + 1, c :: file =>
      if c = newline then ([c], file)
      else
        let (line, rest) := fgetsLoop room file
        (c :: line, rest)

/-- `fgets(line, size, file)`: the bytes stored in front of the NUL and the rest
of the file, or nothing at its end. -/
def fgets (size : Nat) (file : List UInt8) : Option (List UInt8 × List UInt8) :=
  if file = [] then none else some (fgetsLoop (size - 1) file)

/-- `strtok`: the token, if there is one, and the text from which a call with a
null pointer goes on. -/
def strtok (delimiters text : List UInt8) : Option (List UInt8) × List UInt8 :=
  match text.dropWhile fun c => delimiters.contains c with
  | [] => (none, [])
  | c :: rest =>
      (some ((c :: rest).takeWhile fun c => !delimiters.contains c),
        ((c :: rest).dropWhile fun c => !delimiters.contains c).drop 1)

/-- What one call of `parse_file` finds: the content of the file, if `fopen` finds it,
and the string that is where `token` points when the block of `line` has ended. From
then on nobody keeps the bytes of `line` from being overwritten. -/
structure Reading where
  content : Option (List UInt8)
  leftover : CStr → CStr

/-- The loop of `parse_file`. No result means that a null pointer is passed to
`strcmp` or, after the loop, to `strdup`. -/
def parseLoop : Nat → List UInt8 → Option (Option (List UInt8))
  | 0, _ => some none
  | fuel + 1, file =>
      match fgets 128 file with
      | none => some none
      | some (line, file) =>
          let (token, saved) := strtok (ascii ": ") (CStr.ofMemory line).bytes
          match token with
          | none => none
          | some token =>
              if token = ascii "log-level" then
                let (token, saved) := strtok (ascii ": ") saved
                -- a null token makes this call go on where the last one stopped
                let (token, _) := strtok (ascii "\n") (token.getD saved)
                token.map some
              else parseLoop fuel file

/-- `strdup` copies what is left where the token was. -/
def parseFile (reading : Reading) : Option (Option CStr) :=
  match reading.content with
  | none => some none
  | some file =>
      (parseLoop file.length file).map
        (Option.map fun token => reading.leftover (CStr.ofMemory token))

theorem length_fgetsLoop_le (room : Nat) (file : List UInt8) :
    (fgetsLoop room file).2.length ≤ file.length := by
  induction file generalizing room with
  | nil => cases room <;> exact Nat.le_refl _
  | cons c file ih =>
    cases room with
    | zero => exact Nat.le_refl _
    | succ room =>
      rw [fgetsLoop]
      split
      · simp
      · exact Nat.le_succ_of_le (ih room)

/-- Every call of `fgets` in the loop takes at least one byte. -/
theorem length_fgets_lt {line file rest : List UInt8} (h : fgets 128 file = some (line, rest)) :
    rest.length < file.length := by
  unfold fgets at h
  cases file with
  | nil => simp at h
  | cons c file =>
    rw [if_neg (by simp), Option.some.injEq] at h
    have hrest : rest = (fgetsLoop 127 (c :: file)).2 := by rw [h]
    rw [hrest, fgetsLoop]
    split
    · simp
    · exact Nat.lt_succ_of_le (length_fgetsLoop_le 126 file)

/-- The loop ends at the end of the file: more fuel makes no difference. -/
theorem parseLoop_of_le {fuel : Nat} {file : List UInt8} (h : file.length ≤ fuel) :
    parseLoop fuel file = parseLoop file.length file := by
  induction fuel using Nat.strong_induction_on generalizing file with
  | h fuel ih =>
    cases fuel with
    | zero => rw [Nat.le_zero.mp h]
    | succ fuel =>
      cases hlength : file.length with
      | zero =>
        rw [List.length_eq_zero_iff.mp hlength]
        rfl
      | succ count =>
        rw [parseLoop, parseLoop]
        cases hline : fgets 128 file with
        | none => rfl
        | some read =>
          obtain ⟨line, rest⟩ := read
          have hshort := length_fgets_lt hline
          have hsame : parseLoop fuel rest = parseLoop count rest := by
            rw [ih fuel (Nat.lt_succ_self _) (by omega)]
            rcases Nat.lt_or_ge count (fuel + 1) with hcount | hcount
            · exact (ih count hcount (by omega)).symm
            · omega
          simp only [hsame]

def slash : UInt8 := 0x2f

/-- The name in front of its last slash, or the whole name: what a monitor watches. -/
def dname (fileName : CStr) : List UInt8 :=
  if slash ∈ fileName.bytes then
    (fileName.bytes.reverse.dropWhile fun c => c ≠ slash).tail.reverse
  else fileName.bytes

/-! The level. -/

def tolower (c : UInt8) : UInt8 := if 0x41 ≤ c ∧ c ≤ 0x5a then c + 0x20 else c

/-- `strcasecmp(left, right) == 0`. -/
def sameIgnoringCase (left right : List UInt8) : Bool := left.map tolower = right.map tolower

def levelMessage : List UInt8 :=
  ascii "### ERR ### Invalid Log-Level Configuration in ConfigMap, Default Log-Level Applied:   1\n"

/-- `update_mdc_log_level_severity`: the level it sets, and what it prints. -/
def updateMdcLogLevelSeverity (logLevel : Option CStr) : Severity × List UInt8 :=
  match logLevel with
  | none => (.err, levelMessage)
  | some text =>
      if sameIgnoringCase text.bytes (ascii "ERR") then (.err, [])
      else if sameIgnoringCase text.bytes (ascii "WARN") then (.warn, [])
      else if sameIgnoringCase text.bytes (ascii "INFO") then (.info, [])
      else if sameIgnoringCase text.bytes (ascii "DEBUG") then (.debug, [])
      else (.err, [])

example : parseFile ⟨some (ascii "a: b\nlog-level: INFO\n"), id⟩ =
    some (some (.ofString "INFO")) := by
  decide

example : parseFile ⟨some (ascii ": :"), id⟩ = none := by decide

end Mdclog.ConfigMap
