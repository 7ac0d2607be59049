import Mdclog.Decode
import Mdclog.WriteRun

/-! The `id` member of a process that has not chosen its identity: the escaped program
name, cut by `format_identity`. -/
namespace Mdclog.DefaultIdentity
open Foundation.ByteBuffer Foundation.Fitting Foundation.Json
open CString Escape JsonFormat Sections Decode Api WriteRun

/-- The body of a string literal in which only a backslash and a quote are escaped. -/
def paired : List UInt8 → Bool
  | [] => true
  | c :: text =>
      if c = backslash then
        match text with
        | [] => false
        | e :: text => isEscaped e && paired text
      else c ≠ quote && paired text

/-- The member is `"id":"` and a literal that ends with its closing quote. -/
def IdMember (name text : List UInt8) : Prop :=
  ∃ literal shown, text = ascii "\"id\":\"" ++ literal ++ [quote] ∧ paired literal = true ∧
    parseString (literal ++ [quote]) = some (units shown, []) ∧ shown <+: render name

/-- A character that is escaped stands where its backslash is the last byte kept. -/
def SplitsPair (name : List UInt8) : Prop :=
  ∃ shown c, shown ++ [c] <+: name ∧ (escapeText shown).length = identityMaxLength - 1 ∧
    isEscaped c = true

theorem paired_escapeByte_append (c : UInt8) (rest : List UInt8) :
    paired (escapeByte c ++ rest) = paired rest := by
  unfold escapeByte
  by_cases hc : isEscaped c = true
  · rw [if_pos hc, renderByte_of_isprint (isprint_of_isEscaped hc)]
    simp [paired, hc]
  · have hplain : renderByte c ≠ backslash ∧ renderByte c ≠ quote := by
      rwa [← isEscaped_eq_false_iff, isEscaped_renderByte, ← Bool.not_eq_true]
    rw [if_neg hc, List.singleton_append, paired.eq_def]
    simp only [if_neg hplain.1, hplain.2, ne_eq, not_false_eq_true, decide_true, Bool.true_and]

theorem paired_escapeText_append (text rest : List UInt8) :
    paired (escapeText text ++ rest) = paired rest := by
  induction text with
  | nil => rfl
  | cons c text ih => rw [escapeText_cons, List.append_assoc, paired_escapeByte_append, ih]

/-- What the cut leaves, unless it splits a pair. -/
theorem take_escapeText {name : List UInt8} (h : ¬SplitsPair name) :
    ∃ shown, shown <+: name ∧ (escapeText name).take identityMaxLength = escapeText shown := by
  have hshort := length_escapeText_fitPrefix identityMaxLength name
  refine ⟨fitPrefix identityMaxLength name, fitPrefix_isPrefix _ _, ?_⟩
  by_cases hall : fitPrefix identityMaxLength name = name
  · rw [hall] at hshort ⊢
    exact List.take_of_length_le hshort
  · obtain ⟨c, rest, hname, hlong⟩ := exists_of_fitting_ne _ hall
    change name = fitPrefix identityMaxLength name ++ c :: rest at hname
    change _ < total _ (fitPrefix identityMaxLength name) + _ at hlong
    rw [← length_escapeText] at hlong
    have hsize := length_escapeByte c
    have hfull : (escapeText (fitPrefix identityMaxLength name)).length = identityMaxLength := by
      by_contra hne
      refine h ⟨fitPrefix identityMaxLength name, c, ⟨rest, by simpa using hname.symm⟩, ?_, ?_⟩
      · split at hsize <;> omega
      · by_contra hc
        rw [if_neg hc] at hsize
        omega
    have hescaped : escapeText name =
        escapeText (fitPrefix identityMaxLength name) ++ escapeText (c :: rest) := by
      rw [← escapeText_append, ← hname]
    rw [hescaped, List.take_append_of_le_length hfull.ge, List.take_of_length_le hshort]

theorem idMember_of_not_splitsPair {name : CStr} (h : ¬SplitsPair name.bytes) :
    IdMember name.bytes (identityText (some (CStr.escaped name))) := by
  obtain ⟨shown, hshown, htake⟩ := take_escapeText h
  refine ⟨escapeText shown, render shown, ?_, ?_, parseString_escapeText shown [],
    hshown.map renderByte⟩
  · rw [← htake]
    rfl
  · rw [← List.append_nil (escapeText shown), paired_escapeText_append]
    rfl

theorem not_idMember_of_splitsPair {name : CStr} (h : SplitsPair name.bytes) :
    ¬IdMember name.bytes (identityText (some (CStr.escaped name))) := by
  obtain ⟨shown, c, ⟨rest, hname⟩, hlength, hc⟩ := h
  rintro ⟨literal, _, htext, hpaired, -, -⟩
  have hfirst : escapeByte c = [backslash, renderByte c] := if_pos hc
  have htake : (escapeText name.bytes).take identityMaxLength =
      escapeText shown ++ [backslash] := by
    rw [← hname, escapeText_append, escapeText_append, escapeText_cons, hfirst, escapeText_nil,
      List.append_nil, List.append_assoc, List.take_append, List.take_of_length_le (by omega),
      hlength]
    rfl
  have hliteral : literal = (escapeText name.bytes).take identityMaxLength := by
    have hsame : ascii "\"id\":\"" ++ literal ++ [quote] =
      ascii "\"id\":\"" ++ (escapeText name.bytes).take identityMaxLength ++ [quote] := htext.symm
    exact List.append_cancel_left (List.append_cancel_right hsame)
  rw [hliteral, htake, paired_escapeText_append] at hpaired
  exact absurd hpaired (by decide)

theorem idMember_iff (name : CStr) :
    IdMember name.bytes (identityText (some (CStr.escaped name))) ↔ ¬SplitsPair name.bytes :=
  ⟨fun h hsplit => not_idMember_of_splitsPair hsplit h, idMember_of_not_splitsPair⟩

/-- With room for the longest member, `format_identity` writes it in full. -/
theorem formatIdentity_eq (front back : List UInt8) (identity : Option CStr) {len : Nat}
    (hroom : identityMaxLength + 7 < len) (hback : len ≤ back.length) (hmax : len ≤ intMax) :
    ∃ rest, formatIdentity (front ++ back) front.length len identity =
      some (front ++ identityText identity ++ 0 :: rest, (identityText identity).length) := by
  have hlength : (identityText identity).length < len := by
    have hlabel : (ascii "\"id\":\"").length = 6 := by decide
    have hclose : (ascii "\"").length = 1 := by decide
    simp only [identityText, List.length_append, hlabel, hclose, List.length_take]
    omega
  obtain ⟨rest, hwrote, -⟩ := formatIdentity_wrote front back identity (by omega) hback hmax
  rw [whole, if_pos hlength] at hwrote
  exact ⟨rest, hwrote⟩

variable {T : Type} {system : System}

/-- What `format_identity` writes, in any place with room for the longest member. -/
def WritesIdMember (name : List UInt8) (identity : Option CStr) : Prop :=
  ∀ (front back : List UInt8) (len : Nat), identityMaxLength + 7 < len → len ≤ back.length →
    len ≤ intMax → ∃ text rest, formatIdentity (front ++ back) front.length len identity =
      some (front ++ text ++ 0 :: rest, text.length) ∧ IdMember name text

theorem writesIdMember_iff (name : CStr) :
    WritesIdMember name.bytes (some (CStr.escaped name)) ↔ ¬SplitsPair name.bytes := by
  constructor
  · intro hwrites
    obtain ⟨text, rest, hwrote, hmember⟩ :=
      hwrites [] (List.replicate 128 0) 128 (by decide) (by simp) (by decide)
    obtain ⟨rest', hidentity⟩ := formatIdentity_eq [] (List.replicate 128 0)
      (some (CStr.escaped name)) (by decide : identityMaxLength + 7 < 128) (by simp) (by decide)
    rw [hidentity] at hwrote
    simp only [List.nil_append, Option.some.injEq, Prod.mk.injEq] at hwrote
    rw [← (List.append_inj hwrote.1 hwrote.2).1] at hmember
    exact (idMember_iff name).mp hmember
  · intro hsplit front back len hroom hback hmax
    obtain ⟨rest, hwrote⟩ :=
      formatIdentity_eq front back (some (CStr.escaped name)) hroom hback hmax
    exact ⟨_, rest, hwrote, (idMember_iff name).mpr hsplit⟩

/-- The identity that `mdclog_init(NULL)` leaves. -/
theorem mdclogInit_default (hmalloc : ∀ n, system.malloc n = true) (s : Library T) :
    ∃ s', (mdclogInit system none).run s = some (0, s') ∧
      s'.identity = some (CStr.escaped system.progname) := by
  obtain ⟨s', hrun, hidentity, -, -⟩ :=
    initLibrary_run hmalloc { s with initDone := false, logFormatInitDone := false }
  refine ⟨s', ?_, hidentity⟩
  unfold mdclogInit
  rw [StateT.run_bind]
  change ((initLibrary system none >>= fun _ => pure 0 : Program T Int).run
    { s with initDone := false, logFormatInitDone := false }) = _
  rw [StateT.run_bind, hrun]
  rfl

/-- After `mdclog_init(NULL)`, and after the first call without it, the `id` member is
well formed exactly if the cut does not split a pair of the escaped program name. -/
theorem default_identity_iff (hmalloc : ∀ n, system.malloc n = true) (s : Library T) :
    (∃ s', (mdclogInit system none).run s = some (0, s') ∧
      (WritesIdMember system.progname.bytes s'.identity ↔ ¬SplitsPair system.progname.bytes)) ∧
    (s.initDone = false → ∃ s', (initLibrary system none).run s = some ((), s') ∧
      (WritesIdMember system.progname.bytes s'.identity ↔ ¬SplitsPair system.progname.bytes)) := by
  have hwrites := writesIdMember_iff system.progname
  constructor
  · obtain ⟨s', hrun, hidentity⟩ := mdclogInit_default hmalloc s
    exact ⟨s', hrun, by rw [hidentity]; exact hwrites⟩
  · intro hdone
    obtain ⟨s', hrun, hidentity, -, -⟩ := initLibrary_run hmalloc s
    rw [usedIdentity, hdone] at hidentity
    exact ⟨s', hrun, by rw [hidentity]; exact hwrites⟩

theorem default_identity_short :
    ∃ s' : Library Unit, (mdclogInit ⟨.ofString "a\"b", fun _ => true⟩ none).run .initial =
      some (0, s') ∧ WritesIdMember (CStr.ofString "a\"b").bytes s'.identity := by
  obtain ⟨s', hrun, hwrites⟩ := (@default_identity_iff Unit ⟨.ofString "a\"b", fun _ => true⟩
    (fun _ => rfl) .initial).1
  refine ⟨s', hrun, hwrites.mpr ?_⟩
  rintro ⟨shown, c, ⟨rest, hname⟩, hlength, -⟩
  have hescaped : (escapeText (shown ++ [c] ++ rest)).length = 4 := by
    rw [hname]
    decide
  have hmax : identityMaxLength = 100 := rfl
  rw [escapeText_append, escapeText_append, List.length_append, List.length_append] at hescaped
  omega

/-- Ninety-nine letters and a quote. -/
def longName : CStr := CStr.ofMemory (List.replicate 99 0x61 ++ [quote])

theorem default_identity_split :
    ∃ s' : Library Unit, (mdclogInit ⟨longName, fun _ => true⟩ none).run .initial = some (0, s') ∧
      ¬WritesIdMember longName.bytes s'.identity := by
  obtain ⟨s', hrun, hidentity⟩ :=
    @mdclogInit_default Unit ⟨longName, fun _ => true⟩ (fun _ => rfl) .initial
  refine ⟨s', hrun, ?_⟩
  rw [hidentity, writesIdMember_iff longName, not_not]
  exact ⟨List.replicate 99 0x61, quote, by decide, by decide, by decide⟩

end Mdclog.DefaultIdentity
