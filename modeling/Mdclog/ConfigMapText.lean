import Mdclog.ConfigMapLaws

/-! A config map as it is written, one `key: value` line for each entry, and what
`parse_file` and `update_mdc_log_level_severity` make of it. -/
namespace Mdclog.ConfigMapText
open CString JsonFormat ConfigMap ConfigMapLaws

def Word (text : List UInt8) : Prop :=
  text ≠ [] ∧ ∀ c ∈ text, delimiter c = false ∧ c ≠ newline ∧ c ≠ 0

instance (text : List UInt8) : Decidable (Word text) :=
  decidable_of_iff
    (text ≠ [] ∧ text.all (fun c => !delimiter c && c != newline && c != 0) = true)
    (by simp [Word, and_assoc])

/-- An entry whose line fits the buffer of `parse_file`. -/
structure Entry where
  key : List UInt8
  value : List UInt8
  key_word : Word key
  value_word : Word value
  short : key.length + value.length ≤ 124

def Entry.line (entry : Entry) : List UInt8 := entry.key ++ ascii ": " ++ entry.value

def mapText (entries : List Entry) : List UInt8 :=
  entries.flatMap fun entry => entry.line ++ [newline]

def Entry.text (entry : Entry) : CStr := ⟨entry.value, fun h => (entry.value_word.2 0 h).2.2 rfl⟩

/-- The value of the first entry that sets the level. -/
def levelEntry (entries : List Entry) : Option CStr :=
  (entries.find? fun entry => entry.key = logLevelKey).map Entry.text

/-- The name of a level in a config map. -/
def levelName : Severity → Option (List UInt8)
  | .err => some (ascii "ERR")
  | .warn => some (ascii "WARN")
  | .info => some (ascii "INFO")
  | .debug => some (ascii "DEBUG")
  | .other _ _ => none

theorem fgetsLoop_short {room : Nat} {line : List UInt8} (hline : newline ∉ line)
    (hroom : line.length < room) (file : List UInt8) :
    fgetsLoop room (line ++ newline :: file) = (line ++ [newline], file) := by
  induction line generalizing room with
  | nil =>
    obtain ⟨room, rfl⟩ := Nat.exists_eq_add_of_lt hroom
    simp [fgetsLoop]
  | cons c line ih =>
    cases room with
    | zero => cases hroom
    | succ room =>
      have hc : c ≠ newline := fun h => hline (by simp [h])
      have hrest := ih (fun h => hline (List.mem_cons_of_mem c h)) (Nat.lt_of_succ_lt_succ hroom)
      rw [List.cons_append, fgetsLoop, if_neg hc, hrest]
      rfl

theorem Entry.newline_notMem (entry : Entry) : newline ∉ entry.line := by
  simp only [Entry.line, List.mem_append, not_or]
  exact ⟨⟨fun h => (entry.key_word.2 _ h).2.1 rfl, by decide⟩,
    fun h => (entry.value_word.2 _ h).2.1 rfl⟩

/-- A word is a key when a delimiter or nothing follows it. -/
theorem key_of_word {word : List UInt8} (hword : Word word) {rest : List UInt8}
    (hrest : ∀ c ∈ rest.head?, delimiter c = true) :
    keyOf (word ++ rest) = word ∧ behindKey (word ++ rest) = rest := by
  have hnothing : ∀ c ∈ ([] : List UInt8), delimiter c = true := nofun
  exact key_between hnothing hword.1 (fun c hc => (hword.2 c hc).1) hrest

theorem Entry.line_key (entry : Entry) (rest : List UInt8) :
    keyOf (entry.line ++ rest) = entry.key ∧
      behindKey (entry.line ++ rest) = ascii ": " ++ entry.value ++ rest := by
  rw [Entry.line, List.append_assoc, List.append_assoc, List.append_assoc]
  refine key_of_word entry.key_word ?_
  intro c hc
  have hcolon : ascii ": " = [0x3a, 0x20] := by decide
  rw [hcolon] at hc
  cases hc
  decide

theorem Entry.line_value (entry : Entry) : valueOf entry.line = entry.value := by
  have hbehind := (entry.line_key []).2
  rw [List.append_nil, List.append_nil] at hbehind
  have hvalue : keyOf (entry.value ++ []) = entry.value :=
    (key_of_word entry.value_word (by simp)).1
  rw [List.append_nil] at hvalue
  have hcolon : ∀ c ∈ ascii ": ", delimiter c = true := List.all_eq_true.1 (by decide)
  rw [valueOf, hbehind, keyOf, List.dropWhile_append_of_pos hcolon]
  exact hvalue

theorem pieces_mapText (entries : List Entry) :
    pieces (mapText entries) = entries.map fun entry => entry.line ++ [newline] := by
  induction entries with
  | nil => rfl
  | cons entry entries ih =>
    have hlength : entry.line.length < 127 := by
      have hshort := entry.short
      have hcolon : (ascii ": ").length = 2 := by decide
      simp only [Entry.line, List.length_append]
      omega
    have htext : mapText (entry :: entries) = entry.line ++ newline :: mapText entries := by
      simp [mapText]
    rw [htext, pieces_eq (by simp), fgetsLoop_short entry.newline_notMem hlength, ih]
    rfl

theorem parsePieces_lines (entries : List Entry) :
    parsePieces (entries.map fun entry => entry.line ++ [newline]) =
      some ((levelEntry entries).map CStr.bytes) := by
  induction entries with
  | nil => rfl
  | cons entry entries ih =>
    have hbody : withoutNewline (entry.line ++ [newline]) = entry.line :=
      withoutNewline_append entry.newline_notMem (.inr rfl)
    rw [List.map_cons, parsePieces, (entry.line_key [newline]).1, if_neg entry.key_word.1, hbody,
      entry.line_value, if_neg entry.value_word.1, ih, levelEntry, levelEntry, List.find?_cons]
    by_cases hkey : entry.key = logLevelKey
    · simp [hkey, Entry.text]
    · simp [hkey]

theorem nul_notMem_mapText (entries : List Entry) : 0 ∉ mapText entries := by
  simp only [mapText, List.mem_flatMap, not_exists, not_and]
  intro entry _ hmem
  simp only [Entry.line, List.mem_append] at hmem
  rcases hmem with ((hkey | hcolon) | hvalue) | hnewline
  · exact (entry.key_word.2 0 hkey).2.2 rfl
  · exact absurd hcolon (by decide)
  · exact (entry.value_word.2 0 hvalue).2.2 rfl
  · exact absurd hnewline (by decide)

theorem level_of_name {severity : Severity} {name : List UInt8}
    (hname : levelName severity = some name) {text : CStr}
    (h : sameIgnoringCase text.bytes name = true) :
    updateMdcLogLevelSeverity (some text) = (severity, []) := by
  have hsame : text.bytes.map tolower = name.map tolower := of_decide_eq_true h
  simp only [updateMdcLogLevelSeverity, sameIgnoringCase, hsame]
  cases severity with
  | other code h => cases hname
  | _ =>
    cases hname
    rfl

/-- A config map that is written line by line is read back up to the copy of its level:
the first level entry is found, and it sets the level that it names in upper or lower
case, without a remark, if its bytes are still there when they are copied. If they are
not, any level may come out. -/
theorem config_map_read_back (entries : List Entry) :
    (∀ leftover, parseFile ⟨some (mapText entries), leftover⟩ =
      some ((levelEntry entries).map leftover)) ∧
    ∀ value, levelEntry entries = some value →
      (∀ severity name, levelName severity = some name →
        sameIgnoringCase value.bytes name = true → ∀ leftover : CStr → CStr,
        leftover value = value →
        updateMdcLogLevelSeverity ((levelEntry entries).map leftover) = (severity, [])) ∧
      ∀ severity name, levelName severity = some name → ∃ leftover : CStr → CStr,
        updateMdcLogLevelSeverity ((levelEntry entries).map leftover) = (severity, []) := by
  refine ⟨fun leftover => ?_, fun value hvalue => ⟨?_, ?_⟩⟩
  · rw [parseFile_eq (nul_notMem_mapText entries), pieces_mapText, parsePieces_lines]
    cases levelEntry entries with
    | none => rfl
    | some text =>
      have htext : CStr.ofMemory text.bytes = text :=
        CStr.ext (CStr.bytes_ofMemory_of_notMem text.nulFree)
      rw [Option.map_some, Option.map_some, Option.map_some, htext]
      rfl
  · intro severity name hname hsame leftover hkept
    rw [hvalue, Option.map_some, hkept]
    exact level_of_name hname hsame
  · intro severity name hname
    refine ⟨fun _ => CStr.ofMemory name, ?_⟩
    rw [hvalue, Option.map_some]
    refine level_of_name hname ?_
    cases severity with
    | other code h => cases hname
    | _ =>
      cases hname
      decide

def twoEntries : List Entry :=
  [⟨ascii "level", ascii "INFO", by decide, by decide, by decide⟩,
    ⟨ascii "log-level", ascii "debug", by decide, by decide, by decide⟩]

theorem config_map_read_back_debug :
    parseFile ⟨some (ascii "level: INFO\nlog-level: debug\n"), id⟩ =
        some (some (.ofString "debug")) ∧
      updateMdcLogLevelSeverity (some (.ofString "debug")) = (.debug, []) ∧
      ∃ leftover : CStr → CStr,
        updateMdcLogLevelSeverity (some (leftover (.ofString "debug"))) = (.err, []) := by
  obtain ⟨hparse, hlevel⟩ := config_map_read_back twoEntries
  obtain ⟨hkept, hlost⟩ := hlevel (.ofString "debug") (by decide)
  exact ⟨hparse id, hkept .debug _ rfl (by decide) id rfl, hlost .err _ rfl⟩

end Mdclog.ConfigMapText
