import Mdclog.ConfigMap

/-! Where `parse_file` is safe, and where it reads the config map line by line.
It works on what `fgets` returns: pieces of lines of at most 127 bytes. -/
namespace Mdclog.ConfigMapLaws
open CString JsonFormat ConfigMap

/-! Keys and values of a text. -/

def delimiter (c : UInt8) : Bool := (ascii ": ").contains c

/-- The first run of characters other than colon and space. -/
def keyOf (text : List UInt8) : List UInt8 :=
  (text.dropWhile delimiter).takeWhile fun c => !delimiter c

def behindKey (text : List UInt8) : List UInt8 :=
  (text.dropWhile delimiter).dropWhile fun c => !delimiter c

/-- The next such run. -/
def valueOf (text : List UInt8) : List UInt8 := keyOf (behindKey text)

def withoutNewline (text : List UInt8) : List UInt8 := text.takeWhile fun c => c ≠ newline

def logLevelKey : List UInt8 := ascii "log-level"

theorem of_dropWhile_eq_cons {p : UInt8 → Bool} {text rest : List UInt8} {c : UInt8}
    (h : text.dropWhile p = c :: rest) : p c = false := by
  have hhead := List.head_dropWhile_not p (l := text) (by simp [h])
  simpa [h] using hhead

theorem keyOf_eq_nil_iff (text : List UInt8) :
    keyOf text = [] ↔ text.dropWhile delimiter = [] := by
  unfold keyOf
  cases hdrop : text.dropWhile delimiter with
  | nil => simp
  | cons c rest =>
    simp [of_dropWhile_eq_cons hdrop]

/-- `strtok` with colon and space. -/
theorem strtok_key (text : List UInt8) :
    strtok (ascii ": ") text =
      if keyOf text = [] then (none, []) else (some (keyOf text), (behindKey text).drop 1) := by
  have hiff := keyOf_eq_nil_iff text
  have hsame : text.dropWhile (fun c => (ascii ": ").contains c) = text.dropWhile delimiter := rfl
  unfold strtok
  rw [hsame]
  cases hdrop : text.dropWhile delimiter with
  | nil => rw [if_pos (hiff.mpr hdrop)]
  | cons c rest =>
    have hne : keyOf text ≠ [] := fun h => absurd (hiff.mp h) (by simp [hdrop])
    rw [if_neg hne, keyOf, behindKey, hdrop]
    rfl

/-- `strtok` with a newline, on a text that has at most one, at its end. -/
theorem strtok_newline {text : List UInt8} (h : newline ∉ text) (back : List UInt8)
    (hback : back = [] ∨ back = [newline]) :
    (strtok (ascii "\n") (text ++ back)).1 = if text = [] then none else some text := by
  have hcontains : (fun c => (ascii "\n").contains c) = fun c => decide (c = newline) := by
    funext c
    exact Bool.or_false _
  have hplain : ∀ c ∈ text, (!decide (c = newline)) = true := by
    intro c hc
    simp only [Bool.not_eq_true', decide_eq_false_iff_not]
    rintro rfl
    exact h hc
  unfold strtok
  cases text with
  | nil =>
    rcases hback with rfl | rfl
    · rfl
    · rfl
  | cons c text =>
    have hc : c ≠ newline := by
      rintro rfl
      exact h (by simp)
    have htake : ((c :: text) ++ back).takeWhile (fun c => !decide (c = newline)) = c :: text := by
      rw [List.takeWhile_append_of_pos hplain]
      rcases hback with rfl | rfl
      · simp
      · simp
    have hdrop : ((c :: text) ++ back).dropWhile (fun c => decide (c = newline)) =
        (c :: text) ++ back := by simp [hc]
    have hnot : (fun c => !(ascii "\n").contains c) = fun c => !decide (c = newline) := by
      funext c
      rw [congrFun hcontains c]
    simp only [hcontains, hnot, hdrop]
    rw [List.cons_append] at htake ⊢
    simp only [htake, reduceCtorEq, if_false]

theorem delimiter_newline : delimiter newline = false := by decide

/-- A newline behind a text belongs to its last run. -/
theorem key_append_newline (text : List UInt8) :
    keyOf (text ++ [newline]) =
        (if behindKey text = [] then keyOf text ++ [newline] else keyOf text) ∧
      behindKey (text ++ [newline]) =
        if behindKey text = [] then [] else behindKey text ++ [newline] := by
  have hnot : (!delimiter newline) = true := by rw [delimiter_newline]; rfl
  unfold keyOf behindKey
  rw [List.dropWhile_append]
  cases hdrop : text.dropWhile delimiter with
  | nil => simp [delimiter_newline]
  | cons c rest =>
    simp only [List.isEmpty_cons, Bool.false_eq_true, if_false]
    rw [List.dropWhile_append, List.takeWhile_append]
    by_cases hrest : (c :: rest).dropWhile (fun c => !delimiter c) = []
    · have hall : (c :: rest).takeWhile (fun c => !delimiter c) = c :: rest := by
        have hsplit := List.takeWhile_append_dropWhile (p := fun c => !delimiter c) (l := c :: rest)
        rw [hrest, List.append_nil] at hsplit
        exact hsplit
      rw [hrest, hall]
      simp [hnot]
    · have hshort : ((c :: rest).takeWhile fun c => !delimiter c).length ≠ (c :: rest).length := by
        intro hlength
        have hsplit := congrArg List.length
          (List.takeWhile_append_dropWhile (p := fun c => !delimiter c) (l := c :: rest))
        rw [List.length_append] at hsplit
        exact hrest (List.length_eq_zero_iff.mp (by omega))
      rw [if_neg hshort]
      simp [hrest]

/-- The delimiter that `strtok` overwrites belongs to no value. -/
theorem keyOf_drop_behindKey (text : List UInt8) :
    keyOf ((behindKey text).drop 1) = valueOf text := by
  unfold valueOf
  cases hbehind : behindKey text with
  | nil => rfl
  | cons c rest =>
    have hc : delimiter c = true := by simpa using of_dropWhile_eq_cons hbehind
    simp [keyOf, hc]

/-- The two calls of `strtok` behind the key find the value of the piece. -/
theorem value_found {body back : List UInt8} (hbody : newline ∉ body)
    (hback : back = [] ∨ back = [newline]) (hkey : keyOf (body ++ back) = logLevelKey) :
    (strtok (ascii "\n") ((strtok (ascii ": ") ((behindKey (body ++ back)).drop 1)).1.getD
        (strtok (ascii ": ") ((behindKey (body ++ back)).drop 1)).2)).1 =
      if valueOf body = [] then none else some (valueOf body) := by
  have hrest : newline ∉ (behindKey body).drop 1 := fun h =>
    hbody ((List.dropWhile_sublist _).subset ((List.dropWhile_sublist _).subset
      (List.mem_of_mem_drop h)))
  have hvalue : newline ∉ valueOf body := by
    rw [← keyOf_drop_behindKey]
    exact fun h => hrest ((List.dropWhile_sublist _).subset ((List.takeWhile_sublist _).subset h))
  have hsame := keyOf_drop_behindKey body
  rw [strtok_key]
  rcases hback with rfl | rfl
  · rw [List.append_nil, hsame]
    by_cases hempty : valueOf body = []
    · rw [if_pos hempty, if_pos hempty]
      rfl
    · have hnewline := strtok_newline hvalue [] (.inl rfl)
      rw [List.append_nil] at hnewline
      rw [if_neg hempty]
      exact hnewline
  · obtain ⟨hkeyNewline, hbehind⟩ := key_append_newline body
    have hmore : behindKey body ≠ [] := by
      intro hend
      rw [hkeyNewline, if_pos hend] at hkey
      have hmem : newline ∈ logLevelKey := by
        rw [← hkey]
        simp
      exact absurd hmem (by decide)
    have hdrop : (behindKey body ++ [newline]).drop 1 = (behindKey body).drop 1 ++ [newline] := by
      cases hcases : behindKey body with
      | nil => contradiction
      | cons c rest => rfl
    rw [hbehind, if_neg hmore, hdrop, (key_append_newline _).1, hsame]
    by_cases hlast : behindKey ((behindKey body).drop 1) = []
    · rw [if_pos hlast, if_neg (by simp)]
      exact strtok_newline hvalue [newline] (.inr rfl)
    · have hne : valueOf body ≠ [] := by
        intro hempty
        rw [← hsame] at hempty
        apply hlast
        rw [behindKey, (keyOf_eq_nil_iff _).mp hempty]
        rfl
      have hnewline := strtok_newline hvalue [] (.inl rfl)
      rw [List.append_nil] at hnewline
      rw [if_neg hlast, if_neg hne]
      exact hnewline

/-! The pieces of a file. -/

/-- What successive calls of `fgets` return. -/
def readPieces : Nat → List UInt8 → List (List UInt8)
  | 0, _ => []
  | fuel + 1, file =>
      match fgets 128 file with
      | none => []
      | some (line, rest) => line :: readPieces fuel rest

/-- The pieces of a file: lines, with their newlines, cut after 127 bytes. -/
def pieces (file : List UInt8) : List (List UInt8) := readPieces file.length file

theorem fgetsLoop_append (room : Nat) (file : List UInt8) :
    (fgetsLoop room file).1 ++ (fgetsLoop room file).2 = file := by
  induction file generalizing room with
  | nil => cases room <;> rfl
  | cons c file ih =>
    cases room with
    | zero => rfl
    | succ room =>
      rw [fgetsLoop]
      split
      · rfl
      · exact congrArg (c :: ·) (ih room)

/-- Only the last byte of a piece can be a newline. -/
theorem fgetsLoop_form (room : Nat) (file : List UInt8) :
    ∃ body back, (fgetsLoop room file).1 = body ++ back ∧ newline ∉ body ∧
      (back = [] ∨ back = [newline]) := by
  induction file generalizing room with
  | nil => cases room <;> exact ⟨[], [], rfl, List.not_mem_nil, .inl rfl⟩
  | cons c file ih =>
    cases room with
    | zero => exact ⟨[], [], rfl, List.not_mem_nil, .inl rfl⟩
    | succ room =>
      rw [fgetsLoop]
      split
      · rename_i hc
        exact ⟨[], [c], rfl, List.not_mem_nil, .inr (by rw [hc])⟩
      · rename_i hc
        obtain ⟨body, back, hline, hbody, hback⟩ := ih room
        refine ⟨c :: body, back, congrArg (c :: ·) hline, ?_, hback⟩
        simp only [List.mem_cons, not_or]
        exact ⟨fun h => hc h.symm, hbody⟩

theorem withoutNewline_append {body back : List UInt8} (hbody : newline ∉ body)
    (hback : back = [] ∨ back = [newline]) : withoutNewline (body ++ back) = body := by
  have hall : ∀ c ∈ body, decide (c ≠ newline) = true := by
    intro c hc
    simp only [decide_eq_true_eq]
    rintro rfl
    exact hbody hc
  unfold withoutNewline
  rw [List.takeWhile_append_of_pos hall]
  rcases hback with rfl | rfl
  · simp
  · simp

/-- `parse_file` as a reader of pieces. -/
def parsePieces : List (List UInt8) → Option (Option (List UInt8))
  | [] => some none
  | piece :: pieces =>
      if keyOf piece = [] then none
      else if keyOf piece = logLevelKey then
        if valueOf (withoutNewline piece) = [] then none
        else some (some (valueOf (withoutNewline piece)))
      else parsePieces pieces

theorem parseLoop_eq (fuel : Nat) {file : List UInt8} (hnul : 0 ∉ file) :
    parseLoop fuel file = parsePieces (readPieces fuel file) := by
  induction fuel generalizing file with
  | zero => rfl
  | succ fuel ih =>
    rw [parseLoop, readPieces]
    cases hread : fgets 128 file with
    | none => rfl
    | some read =>
      obtain ⟨line, rest⟩ := read
      have hfgets : line = (fgetsLoop 127 file).1 ∧ rest = (fgetsLoop 127 file).2 := by
        unfold fgets at hread
        split at hread
        · contradiction
        · rw [Option.some.injEq] at hread
          exact ⟨by rw [hread], by rw [hread]⟩
      have hsplit : line ++ rest = file := by
        rw [hfgets.1, hfgets.2]
        exact fgetsLoop_append 127 file
      obtain ⟨body, back, hform, hbody, hback⟩ := fgetsLoop_form 127 file
      have hline : 0 ∉ line := fun h => hnul (hsplit ▸ List.mem_append_left rest h)
      have hrest : 0 ∉ rest := fun h => hnul (hsplit ▸ List.mem_append_right line h)
      rw [← hfgets.1] at hform
      dsimp only
      rw [CStr.bytes_ofMemory_of_notMem hline, strtok_key, parsePieces, ih hrest]
      by_cases hempty : keyOf line = []
      · rw [if_pos hempty, if_pos hempty]
      · rw [if_neg hempty, if_neg hempty]
        by_cases hkey : keyOf line = logLevelKey
        · have hvalue := value_found hbody hback (hform ▸ hkey)
          rw [← hform] at hvalue
          rw [if_pos hkey]
          dsimp only
          rw [if_pos (show keyOf line = ascii "log-level" from hkey), hvalue, hform,
            withoutNewline_append hbody hback]
          split <;> rfl
        · rw [if_neg hkey]
          dsimp only
          rw [if_neg (show ¬keyOf line = ascii "log-level" from hkey)]

theorem mem_of_mem_piece {fuel : Nat} {file piece : List UInt8}
    (hpiece : piece ∈ readPieces fuel file) {c : UInt8} (hc : c ∈ piece) : c ∈ file := by
  induction fuel generalizing file with
  | zero => exact absurd hpiece List.not_mem_nil
  | succ fuel ih =>
    rw [readPieces, fgets] at hpiece
    have happend := fgetsLoop_append 127 file
    split at hpiece
    · exact absurd hpiece List.not_mem_nil
    · rename_i line rest hread
      split at hread
      · contradiction
      · rw [Option.some.injEq] at hread
        rw [show fgetsLoop 127 file = (line, rest) from hread] at happend
        rw [← happend]
        rcases List.mem_cons.mp hpiece with rfl | hpiece
        · exact List.mem_append_left _ hc
        · exact List.mem_append_right _ (ih hpiece)

theorem parsePieces_value {pieces : List (List UInt8)} {value : List UInt8}
    (h : parsePieces pieces = some (some value)) :
    value ≠ [] ∧ ∃ piece ∈ pieces, value = valueOf (withoutNewline piece) := by
  induction pieces with
  | nil => simp [parsePieces] at h
  | cons piece pieces ih =>
    rw [parsePieces] at h
    split at h
    · contradiction
    · split at h
      · split at h
        · contradiction
        · rename_i hvalue
          cases h
          exact ⟨hvalue, piece, by simp, rfl⟩
      · obtain ⟨hne, other, hother, heq⟩ := ih h
        exact ⟨hne, other, List.mem_cons_of_mem _ hother, heq⟩

theorem mem_of_mem_value {text : List UInt8} {c : UInt8}
    (h : c ∈ valueOf (withoutNewline text)) : c ∈ text :=
  (List.takeWhile_sublist _).subset <| (List.dropWhile_sublist _).subset <|
    (List.dropWhile_sublist _).subset <| (List.dropWhile_sublist _).subset <|
    (List.takeWhile_sublist _).subset h

/-- What `parse_file` returns for a file without NUL bytes. -/
theorem parseFile_eq {file : List UInt8} (hnul : 0 ∉ file) (leftover : CStr → CStr) :
    parseFile ⟨some file, leftover⟩ =
      (parsePieces (pieces file)).map (Option.map fun value => leftover (CStr.ofMemory value)) := by
  change (parseLoop file.length file).map _ = _
  rw [parseLoop_eq _ hnul, ← pieces]

/-- The value that `token` points to at the end of the loop, in its own bytes. -/
theorem bytes_of_value {file value : List UInt8} (hnul : 0 ∉ file)
    (h : parsePieces (pieces file) = some (some value)) : (CStr.ofMemory value).bytes = value := by
  obtain ⟨-, piece, hpiece, rfl⟩ := parsePieces_value h
  exact CStr.bytes_ofMemory_of_notMem fun hmem =>
    hnul (mem_of_mem_piece hpiece (mem_of_mem_value hmem))

/-! Safety. -/

/-- Every text up to the first one with the key `log-level`, that one included, has `p`. -/
def UpToEntry (p : List UInt8 → Prop) (texts : List (List UInt8)) : Prop :=
  ∀ front text back, texts = front ++ text :: back →
    (∀ other ∈ front, keyOf other ≠ logLevelKey) → p text

theorem upToEntry_cons {p : List UInt8 → Prop} {text : List UInt8} {texts : List (List UInt8)} :
    UpToEntry p (text :: texts) ↔ p text ∧ (keyOf text ≠ logLevelKey → UpToEntry p texts) := by
  constructor
  · intro h
    refine ⟨h [] text texts rfl (by simp), fun hother front next back heq hfront => ?_⟩
    apply h (text :: front) next back (by rw [heq]; rfl)
    intro other hmem
    rcases List.mem_cons.mp hmem with rfl | hmem
    · exact hother
    · exact hfront other hmem
  · rintro ⟨hfirst, hrest⟩ front next back heq hfront
    cases front with
    | nil =>
      obtain ⟨rfl, rfl⟩ := List.cons.inj heq
      exact hfirst
    | cons first front =>
      obtain ⟨rfl, htexts⟩ := List.cons.inj heq
      exact hrest (hfront text (by simp)) front next back htexts fun other hmem =>
        hfront other (List.mem_cons_of_mem _ hmem)

theorem upToEntry_nil {p : List UInt8 → Prop} : UpToEntry p [] := by
  intro front text back heq
  simp at heq

/-- Every piece up to the first one with the key `log-level` has a character other
than colon and space, and that one has a value. -/
def Readable (pieces : List (List UInt8)) : Prop :=
  UpToEntry (fun piece => keyOf piece ≠ [] ∧
    (keyOf piece = logLevelKey → valueOf (withoutNewline piece) ≠ [])) pieces

theorem parsePieces_isSome_iff (pieces : List (List UInt8)) :
    (∃ result, parsePieces pieces = some result) ↔ Readable pieces := by
  induction pieces with
  | nil => exact iff_of_true ⟨none, rfl⟩ upToEntry_nil
  | cons piece pieces ih =>
    rw [Readable, upToEntry_cons, ← Readable, parsePieces]
    by_cases hempty : keyOf piece = []
    · simp [hempty]
    · by_cases hkey : keyOf piece = logLevelKey
      · have hne : logLevelKey ≠ [] := by decide
        by_cases hvalue : valueOf (withoutNewline piece) = []
        · simp [hkey, hne, hvalue]
        · simp [hkey, hne, hvalue]
      · simp [hempty, hkey, ih]

/-- Every piece has a character other than colon and space, and none the key
`log-level`. -/
def Plain (pieces : List (List UInt8)) : Prop :=
  ∀ piece ∈ pieces, keyOf piece ≠ [] ∧ keyOf piece ≠ logLevelKey

theorem parsePieces_none_iff (pieces : List (List UInt8)) :
    parsePieces pieces = some none ↔ Plain pieces := by
  induction pieces with
  | nil => exact iff_of_true rfl (by simp [Plain])
  | cons piece pieces ih =>
    rw [parsePieces, Plain, List.forall_mem_cons, ← Plain]
    by_cases hempty : keyOf piece = []
    · simp [hempty]
    · by_cases hkey : keyOf piece = logLevelKey
      · have hne : logLevelKey ≠ [] := by decide
        by_cases hvalue : valueOf (withoutNewline piece) = []
        · simp [hkey, hne, hvalue]
        · simp [hkey, hne, hvalue]
      · simp [hempty, hkey, ih]

/-- `parse_file` passes no null pointer on, and returns a string that is not empty, or
nothing. -/
def Safe (file : List UInt8) (leftover : CStr → CStr) : Prop :=
  ∃ result, parseFile ⟨some file, leftover⟩ = some result ∧ ∀ level ∈ result, level.bytes ≠ []

theorem parseFile_returns_iff {file : List UInt8} (hnul : 0 ∉ file) (leftover : CStr → CStr) :
    (∃ result, parseFile ⟨some file, leftover⟩ = some result) ↔ Readable (pieces file) := by
  rw [← parsePieces_isSome_iff, parseFile_eq hnul]
  cases parsePieces (pieces file) with
  | none => simp
  | some result => simp

/-- Whatever has become of the bytes of `line`, `parse_file` passes no null pointer on
exactly when the pieces are readable. What it returns is safe whatever has become of
them only where it finds no level, and with the bytes still there wherever the pieces
are readable. Its loop always ends. -/
theorem parseFile_safe_iff {file : List UInt8} (hnul : 0 ∉ file) :
    ((∀ leftover, Safe file leftover) ↔ Plain (pieces file)) ∧
    (∀ leftover, (∃ result, parseFile ⟨some file, leftover⟩ = some result) ↔
      Readable (pieces file)) ∧
    (Safe file id ↔ Readable (pieces file)) ∧
    ∀ fuel, file.length ≤ fuel → parseLoop fuel file = parseLoop file.length file := by
  refine ⟨?_, parseFile_returns_iff hnul, ?_, fun fuel hfuel => parseLoop_of_le hfuel⟩
  · rw [← parsePieces_none_iff]
    constructor
    · intro h
      -- an empty string where the token was
      obtain ⟨result, hresult, hlevel⟩ := h fun _ => .ofString ""
      rw [parseFile_eq hnul] at hresult
      obtain ⟨found, hfound, rfl⟩ := Option.map_eq_some_iff.mp hresult
      cases found with
      | none => exact hfound
      | some value => exact absurd rfl (hlevel _ rfl)
    · intro h leftover
      refine ⟨none, ?_, nofun⟩
      rw [parseFile_eq hnul, h]
      rfl
  · constructor
    · rintro ⟨result, hresult, -⟩
      exact (parseFile_returns_iff hnul id).mp ⟨result, hresult⟩
    · intro h
      obtain ⟨result, hresult⟩ := (parseFile_returns_iff hnul id).mpr h
      refine ⟨result, hresult, fun level hlevel => ?_⟩
      rw [parseFile_eq hnul] at hresult
      obtain ⟨found, hfound, rfl⟩ := Option.map_eq_some_iff.mp hresult
      obtain ⟨value, rfl, rfl⟩ := Option.map_eq_some_iff.mp hlevel
      rw [id_eq, bytes_of_value hnul hfound]
      exact (parsePieces_value hfound).1

theorem parseFile_safe_line :
    (∀ leftover, Safe (ascii "a\nlevel: INFO\n") leftover) ∧
      Safe (ascii "a\nlog-level: INFO\n") id := by
  have hnone : parsePieces (pieces (ascii "a\nlevel: INFO\n")) = some none := by decide
  have hsome : parsePieces (pieces (ascii "a\nlog-level: INFO\n")) =
      some (some (ascii "INFO")) := by
    decide
  exact ⟨(@parseFile_safe_iff (ascii "a\nlevel: INFO\n") (by decide)).1.mpr
      ((parsePieces_none_iff _).mp hnone),
    (@parseFile_safe_iff (ascii "a\nlog-level: INFO\n") (by decide)).2.2.1.mpr
      ((parsePieces_isSome_iff _).mp ⟨_, hsome⟩)⟩

/-- A key with an empty value, and a value whose bytes are gone when they are copied. -/
theorem parseFile_crash :
    0 ∉ ascii "log-level:\n" ∧
      (∀ leftover, parseFile ⟨some (ascii "log-level:\n"), leftover⟩ = none) ∧
      0 ∉ ascii "log-level: INFO\n" ∧
      parseFile ⟨some (ascii "log-level: INFO\n"), fun _ => .ofString ""⟩ =
        some (some (.ofString "")) := by
  refine ⟨by decide, fun leftover => ?_, by decide, by decide⟩
  rw [parseFile_eq (by decide), show parsePieces (pieces (ascii "log-level:\n")) = none by decide]
  rfl

/-! The config map read line by line. -/

/-- The lines of a file, each with its newline. -/
def rawLines : List UInt8 → List (List UInt8)
  | [] => []
  | c :: file =>
      if c = newline then [c] :: rawLines file
      else
        match rawLines file with
        | [] => [[c]]
        | line :: lines => (c :: line) :: lines

def lines (file : List UInt8) : List (List UInt8) := (rawLines file).map withoutNewline

/-- The value of the first line with the key `log-level`. -/
def referenceReader : List (List UInt8) → Option (List UInt8)
  | [] => none
  | line :: lines =>
      if keyOf line = logLevelKey then
        if valueOf line = [] then none else some (valueOf line)
      else referenceReader lines

theorem rawLines_of_notMem {file : List UInt8} (hne : file ≠ []) (h : newline ∉ file) :
    rawLines file = [file] := by
  induction file with
  | nil => contradiction
  | cons c file ih =>
    simp only [List.mem_cons, not_or] at h
    rw [rawLines, if_neg fun hc => h.1 hc.symm]
    cases file with
    | nil => rfl
    | cons next file => rw [ih (by simp) h.2]

theorem rawLines_append {line : List UInt8} (file : List UInt8) (h : newline ∉ line) :
    rawLines (line ++ newline :: file) = (line ++ [newline]) :: rawLines file := by
  induction line with
  | nil => rw [List.nil_append, rawLines, if_pos rfl, List.nil_append]
  | cons c line ih =>
    simp only [List.mem_cons, not_or] at h
    rw [List.cons_append, rawLines, if_neg fun hc => h.1 hc.symm, ih h.2]
    rfl

theorem readPieces_of_le {fuel : Nat} {file : List UInt8} (h : file.length ≤ fuel) :
    readPieces fuel file = pieces file := by
  induction fuel using Nat.strong_induction_on generalizing file with
  | h fuel ih =>
    cases fuel with
    | zero => rw [pieces, Nat.le_zero.mp h]
    | succ fuel =>
      cases hlength : file.length with
      | zero =>
        rw [List.length_eq_zero_iff.mp hlength]
        rfl
      | succ count =>
        rw [pieces, hlength, readPieces, readPieces]
        cases hline : fgets 128 file with
        | none => rfl
        | some read =>
          obtain ⟨line, rest⟩ := read
          have hshort := length_fgets_lt hline
          dsimp only
          rw [ih fuel (Nat.lt_succ_self _) (by omega), ih count (by omega) (by omega)]

theorem pieces_eq {file : List UInt8} (hne : file ≠ []) :
    pieces file = (fgetsLoop 127 file).1 :: pieces (fgetsLoop 127 file).2 := by
  have hread : fgets 128 file = some ((fgetsLoop 127 file).1, (fgetsLoop 127 file).2) := by
    rw [fgets, if_neg hne]
  have hshort := length_fgets_lt hread
  obtain ⟨count, hcount⟩ := Nat.exists_eq_succ_of_ne_zero (List.length_pos_of_ne_nil hne).ne'
  rw [pieces, hcount, readPieces, hread]
  dsimp only
  rw [readPieces_of_le (by omega)]

/-- The next piece does not reach behind the newline. -/
theorem fgetsLoop_line (room : Nat) {line : List UInt8} (h : newline ∉ line) (file : List UInt8) :
    fgetsLoop room (line ++ newline :: file) =
        ((fgetsLoop room (line ++ [newline])).1,
          (fgetsLoop room (line ++ [newline])).2 ++ file) ∧
      ((fgetsLoop room (line ++ [newline])).2 = [] ∨
        ∃ rest, (fgetsLoop room (line ++ [newline])).2 = rest ++ [newline] ∧ newline ∉ rest) := by
  induction line generalizing room with
  | nil =>
    cases room with
    | zero => exact ⟨rfl, .inr ⟨[], rfl, List.not_mem_nil⟩⟩
    | succ room => exact ⟨rfl, .inl rfl⟩
  | cons c line ih =>
    cases room with
    | zero =>
      refine ⟨?_, .inr ⟨c :: line, rfl, h⟩⟩
      simp [fgetsLoop]
    | succ room =>
      simp only [List.mem_cons, not_or] at h
      obtain ⟨hloop, hrest⟩ := ih room h.2
      simp only [List.cons_append, fgetsLoop, if_neg fun hc => h.1 (Eq.symm hc), hloop]
      exact ⟨trivial, hrest⟩

theorem pieces_append {line : List UInt8} (h : newline ∉ line) (file : List UInt8) :
    pieces (line ++ newline :: file) = pieces (line ++ [newline]) ++ pieces file := by
  induction hlength : line.length using Nat.strong_induction_on generalizing line with
  | h count ih =>
    obtain ⟨hloop, hrest⟩ := fgetsLoop_line 127 h file
    have hread : fgets 128 (line ++ [newline]) = some ((fgetsLoop 127 (line ++ [newline])).1,
        (fgetsLoop 127 (line ++ [newline])).2) := by
      rw [fgets, if_neg (by simp)]
    have hshort := length_fgets_lt hread
    rw [pieces_eq (by simp), @pieces_eq (line ++ [newline]) (by simp), hloop]
    dsimp only
    rcases hrest with hempty | ⟨rest, hrest, hnewline⟩
    · rw [hempty]
      rfl
    · rw [hrest] at hshort ⊢
      simp only [List.length_append, List.length_singleton] at hshort
      rw [List.append_assoc, List.singleton_append, ih rest.length (by omega) hnewline rfl,
        List.cons_append]

/-- The pieces of a file are the pieces of its lines. -/
theorem pieces_eq_flatMap (file : List UInt8) : pieces file = (rawLines file).flatMap pieces := by
  induction hlength : file.length using Nat.strong_induction_on generalizing file with
  | h count ih =>
    by_cases hmem : newline ∈ file
    · obtain ⟨line, rest, rfl, hline⟩ := List.eq_append_cons_of_mem hmem
      rw [List.length_append, List.length_cons] at hlength
      rw [pieces_append hline, rawLines_append rest hline, List.flatMap_cons,
        ih rest.length (by omega) rest rfl]
    · by_cases hne : file = []
      · rw [hne]
        rfl
      · rw [rawLines_of_notMem hne hmem]
        simp

/-- A key: characters other than colon and space behind some of these and in front of
one or of nothing. -/
theorem key_between {front word rest : List UInt8} (hfront : ∀ c ∈ front, delimiter c = true)
    (hne : word ≠ []) (hword : ∀ c ∈ word, delimiter c = false)
    (hrest : ∀ c ∈ rest.head?, delimiter c = true) :
    keyOf (front ++ (word ++ rest)) = word ∧ behindKey (front ++ (word ++ rest)) = rest := by
  have hplain : ∀ c ∈ word, (!delimiter c) = true := fun c hc => by simp [hword c hc]
  have hdrop : (front ++ (word ++ rest)).dropWhile delimiter = word ++ rest := by
    obtain ⟨c, word, rfl⟩ := List.exists_cons_of_ne_nil hne
    rw [List.dropWhile_append_of_pos hfront, List.cons_append, List.dropWhile_cons_of_neg]
    simp [hword c (by simp)]
  have hnone : rest.takeWhile (fun c => !delimiter c) = [] ∧
      rest.dropWhile (fun c => !delimiter c) = rest := by
    cases rest with
    | nil => exact ⟨rfl, rfl⟩
    | cons c rest => simp [hrest c rfl]
  rw [keyOf, behindKey, hdrop, List.takeWhile_append_of_pos hplain,
    List.dropWhile_append_of_pos hplain, hnone.1, hnone.2, List.append_nil]
  exact ⟨rfl, rfl⟩

theorem behindKey_head (text : List UInt8) : ∀ c ∈ (behindKey text).head?, delimiter c = true := by
  intro c hc
  unfold behindKey at hc
  cases hdrop : (text.dropWhile delimiter).dropWhile fun c => !delimiter c with
  | nil => simp [hdrop] at hc
  | cons b rest =>
    rw [hdrop] at hc
    cases hc
    simpa using of_dropWhile_eq_cons hdrop

theorem exists_key (text : List UInt8) : ∃ front, text = front ++ (keyOf text ++ behindKey text) ∧
    (∀ c ∈ front, delimiter c = true) ∧ ∀ c ∈ keyOf text, delimiter c = false := by
  refine ⟨text.takeWhile delimiter, ?_, fun c hc => List.mem_takeWhile_imp hc, fun c hc => ?_⟩
  · rw [keyOf, behindKey, List.takeWhile_append_dropWhile, List.takeWhile_append_dropWhile]
  · simpa using List.mem_takeWhile_imp hc

/-- Where the value of a line ends. -/
def entryEnd (line : List UInt8) : Nat := line.length - (behindKey (behindKey line)).length

/-- A line that is cut behind its value keeps its key and its value. -/
theorem entry_take {line : List UInt8} {room : Nat} (hkey : keyOf line ≠ [])
    (hvalue : valueOf line ≠ []) (hend : entryEnd line ≤ room) :
    keyOf (line.take room) = keyOf line ∧ valueOf (line.take room) = valueOf line ∧
      behindKey (line.take room) ≠ [] := by
  obtain ⟨front, hline, hfront, hword⟩ := exists_key line
  obtain ⟨gap, hbehind, hgap, hplain⟩ := exists_key (behindKey line)
  change ∀ c ∈ valueOf line, _ at hplain
  change behindKey line = gap ++ (valueOf line ++ behindKey (behindKey line)) at hbehind
  have hgapNe : gap ≠ [] := by
    rintro rfl
    obtain ⟨c, value, hcons⟩ := List.exists_cons_of_ne_nil hvalue
    have hhead := behindKey_head line c (by rw [hbehind, hcons]; rfl)
    rw [hplain c (by simp [hcons])] at hhead
    cases hhead
  have hsplit : line = (front ++ (keyOf line ++ (gap ++ valueOf line))) ++
      behindKey (behindKey line) := by
    simpa [← hbehind] using hline
  have hlength : (front ++ (keyOf line ++ (gap ++ valueOf line))).length ≤ room := by
    have htotal := congrArg List.length hsplit
    rw [List.length_append] at htotal
    rw [entryEnd] at hend
    omega
  obtain ⟨rest, htake, hrest⟩ : ∃ rest, line.take room =
      front ++ (keyOf line ++ (gap ++ (valueOf line ++ rest))) ∧
      ∀ c ∈ rest.head?, delimiter c = true := by
    refine ⟨(behindKey (behindKey line)).take
      (room - (front ++ (keyOf line ++ (gap ++ valueOf line))).length), ?_, fun c hc => ?_⟩
    · nth_rewrite 1 [hsplit]
      rw [List.take_append, List.take_of_length_le hlength]
      simp
    · rw [List.head?_take] at hc
      split at hc
      · cases hc
      · exact behindKey_head _ c hc
  have hnext : ∀ c ∈ (gap ++ (valueOf line ++ rest)).head?, delimiter c = true := by
    obtain ⟨b, gap, rfl⟩ := List.exists_cons_of_ne_nil hgapNe
    rintro c ⟨⟩
    exact hgap b (by simp)
  obtain ⟨hfirst, hsecond⟩ := key_between hfront hkey hword hnext
  rw [htake, hsecond]
  refine ⟨hfirst, ?_, by simp [hgapNe]⟩
  rw [valueOf, hsecond]
  exact (key_between hgap hvalue hplain hrest).1

/-- A line of a file and its newline, if it has one. -/
theorem rawLines_form {file raw : List UInt8} (h : raw ∈ rawLines file) :
    ∃ body back, raw = body ++ back ∧ newline ∉ body ∧ (back = [] ∨ back = [newline]) := by
  induction hlength : file.length using Nat.strong_induction_on generalizing file with
  | h count ih =>
    by_cases hmem : newline ∈ file
    · obtain ⟨line, rest, rfl, hline⟩ := List.eq_append_cons_of_mem hmem
      rw [rawLines_append rest hline] at h
      rw [List.length_append, List.length_cons] at hlength
      rcases List.mem_cons.mp h with rfl | h
      · exact ⟨line, [newline], rfl, hline, .inr rfl⟩
      · exact ih rest.length (by omega) h rfl
    · by_cases hne : file = []
      · rw [hne] at h
        cases h
      · rw [rawLines_of_notMem hne hmem, List.mem_singleton] at h
        exact ⟨raw, [], (List.append_nil raw).symm, h ▸ hmem, .inl rfl⟩

theorem fgetsLoop_take (room : Nat) {body back : List UInt8} (hbody : newline ∉ body)
    (hback : back = [] ∨ back = [newline]) :
    (fgetsLoop room (body ++ back)).1 = (body ++ back).take room := by
  induction body generalizing room with
  | nil =>
    cases room with
    | zero => rfl
    | succ room => rcases hback with rfl | rfl <;> simp [fgetsLoop]
  | cons c body ih =>
    cases room with
    | zero => rfl
    | succ room =>
      simp only [List.mem_cons, not_or] at hbody
      simp only [List.cons_append, fgetsLoop, if_neg fun hc => hbody.1 (Eq.symm hc),
        List.take_succ_cons]
      rw [← ih room hbody.2]

/-- What the first piece of a line holds if its value ends within 127 bytes. -/
theorem first_piece {body back : List UInt8} (hbody : newline ∉ body)
    (hback : back = [] ∨ back = [newline]) (hkey : keyOf body ≠ []) (hvalue : valueOf body ≠ [])
    (hend : entryEnd body ≤ 127) : ∃ first rest, pieces (body ++ back) = first :: rest ∧
      keyOf first = keyOf body ∧ valueOf (withoutNewline first) = valueOf body := by
  have hne : body ++ back ≠ [] := by
    intro hnil
    rw [List.append_eq_nil_iff] at hnil
    rw [hnil.1] at hkey
    exact hkey rfl
  obtain ⟨hkeyTake, hvalueTake, hmore⟩ := entry_take hkey hvalue hend
  have hcut : newline ∉ body.take 127 := fun h => hbody (List.mem_of_mem_take h)
  obtain ⟨rear, hfirst, hrear⟩ : ∃ rear, (fgetsLoop 127 (body ++ back)).1 =
      body.take 127 ++ rear ∧ (rear = [] ∨ rear = [newline]) := by
    refine ⟨back.take (127 - body.length), ?_, ?_⟩
    · rw [fgetsLoop_take 127 hbody hback, List.take_append]
    · rcases hback with rfl | rfl
      · exact .inl List.take_nil
      · cases 127 - body.length with
        | zero => exact .inl rfl
        | succ room => exact .inr (by simp)
  refine ⟨_, _, pieces_eq hne, ?_, ?_⟩
  · rw [hfirst]
    rcases hrear with rfl | rfl
    · rw [List.append_nil, hkeyTake]
    · rw [(key_append_newline _).1, if_neg hmore, hkeyTake]
  · rw [hfirst, withoutNewline_append hcut hrear, hvalueTake]

/-- The first line with the key ends its value within 127 bytes, or it has none and no
piece from there on has the key; no piece of a line in front of it has the key. -/
def Unsplit : List (List UInt8) → Prop
  | [] => True
  | raw :: raws =>
      if keyOf (withoutNewline raw) = logLevelKey then
        (valueOf (withoutNewline raw) ≠ [] ∧ entryEnd (withoutNewline raw) ≤ 127) ∨
          valueOf (withoutNewline raw) = [] ∧
            ∀ piece ∈ (raw :: raws).flatMap pieces, keyOf piece ≠ logLevelKey
      else (∀ piece ∈ pieces raw, keyOf piece ≠ logLevelKey) ∧ Unsplit raws

theorem parsePieces_append {front back : List (List UInt8)} {result : Option (List UInt8)}
    (hfront : ∀ piece ∈ front, keyOf piece ≠ logLevelKey)
    (h : parsePieces (front ++ back) = some result) : parsePieces back = some result := by
  induction front with
  | nil => exact h
  | cons piece front ih =>
    rw [List.cons_append, parsePieces, if_neg (hfront piece (by simp))] at h
    split at h
    · contradiction
    · exact ih (fun other hmem => hfront other (List.mem_cons_of_mem _ hmem)) h

theorem parsePieces_of_noKey {pieces : List (List UInt8)} {result : Option (List UInt8)}
    (hnone : ∀ piece ∈ pieces, keyOf piece ≠ logLevelKey)
    (h : parsePieces pieces = some result) : result = none := by
  have hempty : parsePieces [] = some result :=
    parsePieces_append hnone (by rwa [List.append_nil])
  exact (Option.some.inj hempty).symm

theorem parsePieces_eq_reference {raws : List (List UInt8)} {result : Option (List UInt8)}
    (hform : ∀ raw ∈ raws, ∃ body back, raw = body ++ back ∧ newline ∉ body ∧
      (back = [] ∨ back = [newline]))
    (hunsplit : Unsplit raws) (h : parsePieces (raws.flatMap pieces) = some result) :
    result = referenceReader (raws.map withoutNewline) := by
  induction raws with
  | nil =>
    cases h
    rfl
  | cons raw raws ih =>
    rw [List.map_cons, referenceReader]
    rw [Unsplit] at hunsplit
    obtain ⟨body, back, rfl, hbody, hback⟩ := hform _ List.mem_cons_self
    rw [withoutNewline_append hbody hback] at hunsplit ⊢
    split at hunsplit
    · rename_i hkey
      rw [if_pos hkey]
      rcases hunsplit with ⟨hvalue, hend⟩ | ⟨hvalue, hnone⟩
      · obtain ⟨first, rest, hpieces, hfirst, hsame⟩ :=
          first_piece hbody hback (by rw [hkey]; decide) hvalue hend
        rw [List.flatMap_cons, hpieces, List.cons_append, parsePieces, hfirst, hkey,
          if_neg (by decide), if_pos rfl, hsame, if_neg hvalue, Option.some.injEq] at h
        rw [if_neg hvalue, h]
      · rw [if_pos hvalue]
        exact parsePieces_of_noKey hnone h
    · rename_i hkey
      rw [if_neg hkey]
      rw [List.flatMap_cons] at h
      exact ih (fun other hmem => hform other (List.mem_cons_of_mem _ hmem)) hunsplit.2
        (parsePieces_append hunsplit.1 h)

/-- No piece has the key `log-level`, and the first line that has it, if there is one,
has no value. -/
def NoEntry (file : List UInt8) : Prop :=
  (∀ piece ∈ pieces file, keyOf piece ≠ logLevelKey) ∧
    UpToEntry (fun line => keyOf line = logLevelKey → valueOf line = []) (lines file)

theorem referenceReader_none_iff (lines : List (List UInt8)) : referenceReader lines = none ↔
    UpToEntry (fun line => keyOf line = logLevelKey → valueOf line = []) lines := by
  induction lines with
  | nil => exact iff_of_true rfl upToEntry_nil
  | cons line lines ih =>
    rw [upToEntry_cons, referenceReader]
    by_cases hkey : keyOf line = logLevelKey
    · simp [hkey]
    · simp [hkey, ih]

/-- Where `parse_file` returns, it returns what the reference reader finds, and the
level set is the one that reader's line names. -/
def LineByLine (file : List UInt8) (leftover : CStr → CStr) : Prop :=
  ∀ result, parseFile ⟨some file, leftover⟩ = some result →
    result.map CStr.bytes = referenceReader (lines file) ∧
      (updateMdcLogLevelSeverity result).1 =
        (updateMdcLogLevelSeverity ((referenceReader (lines file)).map CStr.ofMemory)).1

theorem lineByLine_of_eq {file : List UInt8} {leftover : CStr → CStr}
    (h : ∀ result, parseFile ⟨some file, leftover⟩ = some result →
      result.map CStr.bytes = referenceReader (lines file)) : LineByLine file leftover := by
  intro result hresult
  have hreference := h result hresult
  refine ⟨hreference, ?_⟩
  have hback : (result.map CStr.bytes).map CStr.ofMemory = result := by
    cases result with
    | none => rfl
    | some level => exact congrArg some (CStr.ext (CStr.bytes_ofMemory_of_notMem level.nulFree))
  rw [← hreference, hback]

/-- Without a level in the file nothing depends on the bytes of `line`; a level that is
found may be any string when it is copied. -/
theorem lineByLine_iff {file : List UInt8} (hnul : 0 ∉ file) :
    (∀ leftover, LineByLine file leftover) ↔ (Readable (pieces file) → NoEntry file) := by
  constructor
  · intro h hreadable
    obtain ⟨found, hfound⟩ := (parsePieces_isSome_iff _).mpr hreadable
    have hresult : ∀ leftover : CStr → CStr,
        (found.map fun value => leftover (CStr.ofMemory value)).map CStr.bytes =
          referenceReader (lines file) := by
      intro leftover
      refine (h leftover _ ?_).1
      rw [parseFile_eq hnul, hfound]
      rfl
    cases found with
    | none =>
      have hplain := (parsePieces_none_iff _).mp hfound
      exact ⟨fun piece hpiece => (hplain piece hpiece).2,
        (referenceReader_none_iff _).mp (hresult id).symm⟩
    | some value =>
      -- two strings that differ
      have hsame : some (CStr.ofString "").bytes = some (CStr.ofString "ERR").bytes :=
        (hresult fun _ => .ofString "").trans (hresult fun _ => .ofString "ERR").symm
      exact absurd hsame (by decide)
  · intro h leftover
    refine lineByLine_of_eq fun result hresult => ?_
    have hreadable := (parseFile_returns_iff hnul leftover).mp ⟨result, hresult⟩
    obtain ⟨hpieces, hlines⟩ := h hreadable
    obtain ⟨found, hfound⟩ := (parsePieces_isSome_iff _).mpr hreadable
    obtain rfl : found = none := parsePieces_of_noKey hpieces hfound
    rw [parseFile_eq hnul, hfound] at hresult
    cases hresult
    exact ((referenceReader_none_iff _).mpr hlines).symm

theorem lineByLine_of_unsplit {file : List UInt8} (hnul : 0 ∉ file)
    (h : Readable (pieces file) → Unsplit (rawLines file)) : LineByLine file id := by
  refine lineByLine_of_eq fun result hresult => ?_
  have hunsplit := h ((parseFile_returns_iff hnul id).mp ⟨result, hresult⟩)
  rw [parseFile_eq hnul] at hresult
  obtain ⟨found, hfound, rfl⟩ := Option.map_eq_some_iff.mp hresult
  have hbytes : (found.map fun value => id (CStr.ofMemory value)).map CStr.bytes = found := by
    cases found with
    | none => rfl
    | some value => exact congrArg some (bytes_of_value hnul hfound)
  rw [hbytes, lines]
  rw [pieces_eq_flatMap] at hfound
  exact parsePieces_eq_reference (fun raw hraw => rawLines_form hraw) hunsplit hfound

/-- Whatever has become of the bytes of `line`, `parse_file` reads line by line exactly
where neither it nor the reference reader finds a level; with the bytes still there it
does so on every file whose entry the pieces leave whole. -/
theorem parseFile_line_by_line {file : List UInt8} (hnul : 0 ∉ file) :
    ((∀ leftover, LineByLine file leftover) ↔ (Readable (pieces file) → NoEntry file)) ∧
      ((Readable (pieces file) → Unsplit (rawLines file)) → LineByLine file id) :=
  ⟨lineByLine_iff hnul, lineByLine_of_unsplit hnul⟩

theorem parseFile_line_by_line_info :
    (∀ leftover, LineByLine (ascii "log-level\n") leftover) ∧
      LineByLine (ascii "log-level: INFO\n") id := by
  have hlines : rawLines (ascii "log-level: INFO\n") = [ascii "log-level: INFO\n"] := by decide
  refine ⟨(@parseFile_line_by_line (ascii "log-level\n") (by decide)).1.mpr fun _ =>
      ⟨by decide, (referenceReader_none_iff _).mp (by decide)⟩,
    (@parseFile_line_by_line (ascii "log-level: INFO\n") (by decide)).2 fun _ => ?_⟩
  rw [hlines, Unsplit, if_pos (by decide)]
  exact .inl ⟨by decide, by decide⟩

/-- A line of 127 letters in front of the key: the second piece of the line reads
as an entry of its own. -/
def splitLine : List UInt8 := List.replicate 127 0x78 ++ ascii "log-level: DEBUG\n"

theorem parseFile_split_line :
    0 ∉ splitLine ∧ parseFile ⟨some splitLine, id⟩ = some (some (.ofString "DEBUG")) ∧
      referenceReader (lines splitLine) = none ∧ ¬LineByLine splitLine id ∧
      ¬LineByLine (ascii "log-level: INFO\n") fun _ => .ofString "" := by
  have hsplit : 0 ∉ splitLine ∧ parseFile ⟨some splitLine, id⟩ = some (some (.ofString "DEBUG")) ∧
      referenceReader (lines splitLine) = none := by
    decide +kernel
  obtain ⟨hnul, hparse, hnone⟩ := hsplit
  refine ⟨hnul, hparse, hnone, fun h => ?_, fun h => ?_⟩
  · have hfirst := (h _ hparse).1
    rw [hnone] at hfirst
    cases hfirst
  · have hlevel := (h (some (.ofString "")) (by decide)).2
    exact absurd hlevel (by decide)

end Mdclog.ConfigMapLaws
