import Mdclog.EscapeLaws
import Mdclog.FormatStore

/-! The test for special characters, and the places that rely on it to store a string
without escaping it. -/
namespace Mdclog.SpecialCharacters
open Foundation.OrderedMap Foundation.StateProgram
open CString Escape JsonFormat MdcStore Api ApiFrame FormatStore

theorem escapeText_eq_self_iff (text : List UInt8) : escapeText text = text ↔ Clean text := by
  refine ⟨fun h => ?_, escapeText_of_clean⟩
  induction text with
  | nil => exact fun c hc => absurd hc List.not_mem_nil
  | cons c text ih =>
    rw [escapeText_cons] at h
    have hlong := length_le_escapeText text
    cases hc : isEscaped c with
    | true =>
      -- the backslash has to be somewhere, and nothing gets shorter
      have hlength := congrArg List.length h
      simp only [List.length_append, length_escapeByte, hc, if_true, List.length_cons] at hlength
      omega
    | false =>
      have hbyte : escapeByte c = [renderByte c] := by simp [escapeByte, hc]
      rw [hbyte, List.singleton_append, List.cons.injEq] at h
      have hprint := isprint_renderByte c
      rw [h.1] at hprint
      intro b hb
      rcases List.mem_cons.mp hb with rfl | hb
      · exact ⟨hprint, hc⟩
      · exact ih h.2 b hb

/-- Escaping into a buffer of its escaped size reproduces a string exactly if the test
finds nothing. -/
theorem escapedCopy_eq_self_iff (contents : Nat → UInt8) (str : CStr) :
    escapedCopy contents str = some str ↔ mdclogInternalContainsSpecialCharacters str = false := by
  rw [escapedCopy_eq, Option.some.injEq, CStr.ext_iff, clean_iff]
  exact escapeText_eq_self_iff str.bytes

section calls
variable {T : Type} {system : System}

/-- The default identity if `init_library` escaped every program name. -/
def escapingIdentity (system : System) : Program T (Option CStr) := do
  let identity ← strdup system system.progname
  match identity with
  | none => return none
  | some identity =>
      let ok ← allocate system
      if ok then
        let copy ← liftM (escapedCopy (fun _ => 0) identity)
        return some copy
      else return none

theorem escapingIdentity_run (s : Library T) :
    ∃ always s', (escapingIdentity system).run s = some (always, s') ∧
      (always.isSome → always = some (CStr.escaped system.progname) ∧
        system.malloc s.allocations = true ∧ system.malloc (s.allocations + 1) = true) := by
  unfold escapingIdentity
  rw [StateT.run_bind, strdup_eq]
  cases system.malloc s.allocations with
  | false => exact ⟨none, _, rfl, by simp⟩
  | true =>
    simp only [if_true, Option.bind_eq_bind, Option.bind_some, escapedCopy_eq]
    rw [StateT.run_bind, allocate_eq]
    dsimp only
    cases system.malloc (s.allocations + 1) with
    | false => exact ⟨none, _, rfl, by simp⟩
    | true => exact ⟨_, _, rfl, fun _ => ⟨rfl, trivial, rfl⟩⟩

theorem attrIdentity_run {s : Library T} {attr : Nat} {given : Option CStr}
    (h : s.attrs attr = some given) : (attrIdentity attr).run s = some (given, s) := by
  unfold attrIdentity
  rw [StateT.run_bind, StateT.run_get, Option.pure_def, Option.bind_eq_bind, Option.bind_some, h,
    run_lift_some]

/-- `init_library` for a null `attr` or one without an identity. -/
theorem initLibrary_agrees {s : Library T} (hdone : s.initDone = false) {attr : Option Nat}
    (hattr : ∀ a ∈ attr, s.attrs a = some none) :
    ∃ s' always s'', (initLibrary system attr).run s = some ((), s') ∧
      (escapingIdentity system).run s = some (always, s'') ∧
      (always.isSome → s'.identity = always) ∧
      ∀ copy ∈ s'.identity, copy = CStr.escaped system.progname := by
  obtain ⟨identity, count, -, hdefault, hescaped, hsome⟩ := @defaultIdentity_result T system s
  obtain ⟨always, s'', halways, hcopied⟩ := @escapingIdentity_run T system s
  refine ⟨{ s with allocations := count, identity := identity, initDone := true }, always, s'', ?_,
    halways, fun hsome' => ?_, hescaped⟩
  · unfold initLibrary
    rw [StateT.run_bind, StateT.run_get, Option.pure_def, Option.bind_eq_bind, Option.bind_some,
      if_neg (by simp [hdone])]
    cases attr with
    | none =>
      rw [configure]
      simp only [pure_bind]
      rw [StateT.run_bind, hdefault]
      rfl
    | some attr =>
      rw [configure, StateT.run_bind, attrIdentity_run (hattr attr rfl), Option.bind_eq_bind,
        Option.bind_some]
      dsimp only
      rw [StateT.run_bind, hdefault]
      rfl
  · -- both allocations succeed, so the code has an identity too
    obtain ⟨hcopy, hfirst, hsecond⟩ := hcopied hsome'
    obtain ⟨id, rfl⟩ := Option.isSome_iff_exists.mp (hsome hfirst hsecond)
    rw [hcopy, hescaped id rfl]

/-- Which identities `mdclog_attr_set_ident` takes, and what it stores for them. -/
theorem mdclogAttrSetIdent_accepts {s : Library T} {attr : Nat} {old : Option CStr}
    (hlive : s.attrs attr = some old) {identity : CStr} (hclean : Clean identity.bytes)
    (hlength : identity.bytes.length ≤ identityMaxLength) :
    ∃ s', (mdclogAttrSetIdent system (some attr) (some identity)).run s = some (0, s') ∧
      (system.malloc s.allocations = true → s'.attrs attr = some (some identity)) := by
  have htest : ¬(mdclogInternalContainsSpecialCharacters identity ||
      decide (identityMaxLength < identity.bytes.length)) = true := by
    rw [(clean_iff identity).mpr hclean]
    simpa using hlength
  unfold mdclogAttrSetIdent
  simp only [if_neg htest, StateT.run_bind, attrIdentity_run hlive, Option.bind_eq_bind,
    Option.bind_some, strdup_eq]
  refine ⟨_, rfl, fun hmalloc => ?_⟩
  rw [hmalloc, if_pos rfl]
  exact Function.update_self ..

theorem mdclogAttrSetIdent_rejects (s : Library T) (attr : Nat) {identity : CStr}
    (h : ¬(Clean identity.bytes ∧ identity.bytes.length ≤ identityMaxLength)) :
    (mdclogAttrSetIdent system (some attr) (some identity)).run s = some (-1, s) := by
  have htest : (mdclogInternalContainsSpecialCharacters identity ||
      decide (identityMaxLength < identity.bytes.length)) = true := by
    rw [Bool.or_eq_true, decide_eq_true_iff]
    by_contra hneither
    rw [not_or, Bool.not_eq_true, clean_iff, Nat.not_lt] at hneither
    exact h hneither
  unfold mdclogAttrSetIdent
  simp only [if_pos htest]
  rfl

/-- The test and `mdclog_internal_escape` agree, and so do the places that use the test:
what they accept is what escaping leaves alone, and what they store unescaped is what
escaping would store. -/
theorem special_characters_agree [DecidableEq T] (contents : Nat → UInt8) (s : Library T) :
    (∀ str, mdclogInternalContainsSpecialCharacters str = false ↔
      escapedCopy contents str = some str) ∧
    (∀ t key value,
      (escapedCopy contents key ≠ some key →
        (mdclogMdcAdd system t (some key) (some value)).run s = some (-1, s)) ∧
      (escapedCopy contents key = some key → CStr.escaped key = key ∧
        ∀ store, storeOf s t = some store →
          (∀ n, s.allocations ≤ n → system.malloc n = true) →
          ∃ s' store', (mdclogMdcAdd system t (some key) (some value)).run s = some (0, s') ∧
            storeOf s' t = some store' ∧
            get? key store'.pairs = some (CStr.escaped value))) ∧
    (∀ attr identity,
      (¬(escapedCopy contents identity = some identity ∧
          identity.bytes.length ≤ identityMaxLength) →
        (mdclogAttrSetIdent system (some attr) (some identity)).run s = some (-1, s)) ∧
      (escapedCopy contents identity = some identity →
        identity.bytes.length ≤ identityMaxLength → CStr.escaped identity = identity ∧
        ∀ old, s.attrs attr = some old →
          ∃ s', (mdclogAttrSetIdent system (some attr) (some identity)).run s = some (0, s') ∧
            (system.malloc s.allocations = true → s'.attrs attr = some (some identity)))) ∧
    (∀ attr : Option Nat, s.initDone = false → (∀ a ∈ attr, s.attrs a = some none) →
      ∃ s' always s'', (initLibrary system attr).run s = some ((), s') ∧
        (escapingIdentity system).run s = some (always, s'') ∧
        (always.isSome → s'.identity = always) ∧
        ∀ copy ∈ s'.identity, copy = CStr.escaped system.progname) := by
  have hunchanged : ∀ str : CStr, escapedCopy contents str = some str ↔ Clean str.bytes :=
    fun str => (escapedCopy_eq_self_iff contents str).trans (clean_iff str)
  simp only [ne_eq, hunchanged]
  refine ⟨clean_iff, fun t key value => ⟨fun hkey => ?_, fun hkey => ?_⟩,
    fun attr identity => ⟨fun hidentity => ?_, fun hclean hlength => ?_⟩, ?_⟩
  · rw [mdclogMdcAdd_special system t hkey]
    rfl
  · refine ⟨escaped_of_clean hkey, fun store hstore hmalloc => ?_⟩
    have hbefore : Has s.allocations s.logFormatInitDone t store s := ⟨Nat.le_refl _, rfl, hstore⟩
    obtain ⟨_, s', hrun, rfl, hafter⟩ := mdclogMdcAdd_has hmalloc hbefore (some key) (some value)
    rw [add_status store hkey value] at hrun
    refine ⟨s', _, hrun, hafter.store, ?_⟩
    rw [(add_sets store hkey value).get key, if_pos rfl]
  · exact mdclogAttrSetIdent_rejects s attr hidentity
  · exact ⟨escaped_of_clean hclean, fun _ hlive => mdclogAttrSetIdent_accepts hlive hclean hlength⟩
  · exact fun attr hdone hattr => initLibrary_agrees hdone hattr

end calls

end Mdclog.SpecialCharacters
