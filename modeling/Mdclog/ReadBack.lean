import Mdclog.MdcRuns

/-! What a caller reads back from its MDCs. -/
namespace Mdclog.ReadBack
open Foundation.HeapProgram Foundation.Interleaving Foundation.OrderedMap
open CString Escape MdcList MdcStore MdcSpec MdcRefinement MdcRuns

/-- No character that is escaped with a backslash. -/
def Plain (text : CStr) : Prop := ∀ c ∈ text.bytes, isEscaped c = false

theorem escapeText_eq_render_iff (text : List UInt8) :
    escapeText text = render text ↔ ∀ c ∈ text, isEscaped c = false := by
  induction text with
  | nil => simp [escapeText, render]
  | cons c text ih =>
    rw [escapeText_cons, List.forall_mem_cons]
    cases hc : isEscaped c with
    | false => simp [escapeByte, hc, render, ← ih]
    | true =>
      have hlong := length_le_escapeText text
      have hne : escapeByte c ++ escapeText text ≠ render (c :: text) := by
        intro heq
        have hlength := congrArg List.length heq
        simp only [escapeByte, hc, if_true, render, List.length_append, List.length_cons,
          List.length_nil, List.length_map] at hlength
        omega
      simp [hne]

/-- The value as the caller meant it: only non-printable bytes are spaces. -/
def rendered (value : CStr) : CStr where
  bytes := render value.bytes
  nulFree hmem := by
    obtain ⟨c, -, hc⟩ := List.mem_map.mp hmem
    have hprint := isprint_renderByte c
    rw [hc] at hprint
    exact absurd hprint (by decide)

theorem escaped_eq_rendered_iff (value : CStr) :
    CStr.escaped value = rendered value ↔ Plain value := by
  rw [CStr.ext_iff]
  exact escapeText_eq_render_iff value.bytes

/-- A value in a store is escaped again unless it is plain. -/
theorem escaped_eq_self_iff {value : CStr} (h : ∃ v, value = CStr.escaped v) :
    CStr.escaped value = value ↔ Plain value := by
  obtain ⟨v, rfl⟩ := h
  have hrender : rendered (CStr.escaped v) = CStr.escaped v :=
    CStr.ext (render_of_isprint (isprint_escapeText v.bytes))
  rw [← escaped_eq_rendered_iff, hrender]

theorem put_get?_self {store : Store} {key value : CStr} (h : get? key store.pairs = some value) :
    put key value store.pairs = store.pairs := by
  obtain ⟨pair, hfind, rfl⟩ := Option.map_eq_some_iff.mp h
  obtain ⟨hkey, front, back, hsplit, -⟩ := List.find?_eq_some_iff_append.mp hfind
  obtain rfl : pair.1 = key := by simpa using hkey
  have hdistinct := store.distinct
  rw [hsplit] at hdistinct ⊢
  exact put_middle hdistinct

theorem add_get_self_iff {store : Store} {key value : CStr}
    (h : store.get (some key) = some value) :
    (store.add (some key) (some value)).1 = store ↔ Plain value := by
  have hget : get? key store.pairs = some value := h
  obtain ⟨pair, hfind, hvalue⟩ := Option.map_eq_some_iff.mp hget
  have hmem := List.mem_of_find?_eq_some hfind
  have hkey : pair.1 = key := by simpa using List.find?_some hfind
  have hclean : Clean key.bytes := hkey ▸ store.clean pair hmem
  have hescaped : ∃ v, value = CStr.escaped v := hvalue ▸ store.escaped pair hmem
  rw [← escaped_eq_self_iff hescaped]
  have hadd : (store.add (some key) (some value)).1 = store.put key value hclean := by
    simp [Store.add, hclean]
  rw [hadd, Store.ext_iff]
  change put key (CStr.escaped value) store.pairs = store.pairs ↔ _
  constructor
  · intro heq
    have hself := get?_put_self key (CStr.escaped value) store.pairs
    rw [heq, hget, Option.some.injEq] at hself
    exact hself.symm
  · intro heq
    rw [heq, put_get?_self hget]

/-- In every run: what `mdclog_mdc_get` returns right after `mdclog_mdc_add` is
the value that was added, and adding what it returned changes nothing, exactly
when the value needs no backslash. -/
theorem readBack_iff_plain {S : State Unit} (h : Reachable False prog (fun _ _ => True) S)
    {history later : List Entry} {first second : Entry}
    (hhistory : (S.thread ()).history = history ++ first :: second :: later)
    (key value : CStr) :
    (mdclogInternalContainsSpecialCharacters key = false →
      first.call = .add (some key) (some value) → second.call = .get (some key) →
      (second.result = .value (some (rendered value)) ↔ Plain value)) ∧
    (first.call = .get (some key) → first.result = .value (some value) →
      second.call = .add (some key) (some value) →
      ∃ cells cells', Represents first.before (after .empty (callsOf history)) cells ∧
        Represents second.after (after .empty (callsOf (history ++ [first, second]))) cells' ∧
        (cells'.map Cell.pair = cells.map Cell.pair ↔ Plain value)) := by
  have hexplained := reachable_explained contract_any h ()
  rw [hhistory, explained_middle] at hexplained
  obtain ⟨-, ⟨cells, hbefore, hfirst⟩, ⟨cells₁, -, hsecond⟩, -⟩ := hexplained
  set store := after .empty (callsOf history) with hstore
  refine ⟨fun hclean hadd hget => ?_, fun hget hvalue hadd => ?_⟩
  · have hput : (store.add (some key) (some value)).1 =
        store.put key value ((clean_iff key).mp hclean) := by
      simp [Store.add, (clean_iff key).mp hclean]
    rw [hsecond.1, hadd, hget, ← escaped_eq_rendered_iff]
    change Result.value (get? key (store.add (some key) (some value)).1.pairs) = _ ↔ _
    rw [hput]
    change Result.value (get? key (put key (CStr.escaped value) store.pairs)) = _ ↔ _
    rw [get?_put_self]
    simp
  · obtain ⟨-, -, cells', hafter, -⟩ := hsecond
    have hread : store.get (some key) = some value := by
      have hresult := hfirst.1
      rw [hvalue, hget] at hresult
      simpa [Call.run] using hresult.symm
    have hafter' : Represents second.after
        (after .empty (callsOf (history ++ [first, second]))) cells' := by
      have hcalls : after .empty (callsOf (history ++ [first, second])) =
          (second.call.run (first.call.run store).1).1 := by
        simp [hstore, after, callsOf]
      rw [hcalls]
      exact hafter
    refine ⟨cells, cells', hbefore, hafter', ?_⟩
    rw [hafter.pairs, hbefore.pairs, hadd, hget]
    change (store.add (some key) (some value)).1.pairs = store.pairs ↔ _
    rw [← Store.ext_iff]
    exact add_get_self_iff hread

/-- A plain value is read back. -/
theorem readBack_plain_run :
    ∃ (S : State Unit) (first second : Entry), Reachable False prog (fun _ _ => True) S ∧
      (S.thread ()).history = [first, second] ∧
      first.call = .add (some (.ofString "k")) (some (.ofString "a b")) ∧
      second.call = .get (some (.ofString "k")) ∧
      (second.result = .value (some (rendered (.ofString "a b"))) ↔ Plain (.ofString "a b")) := by
  obtain ⟨S, hreach, -, hcalls, -⟩ := exists_run contract_any (G := Config.initial) (t := ())
    .refl rfl [.add (some (.ofString "k")) (some (.ofString "a b")), .get (some (.ofString "k"))]
    fun _ _ _ _ => trivial
  obtain ⟨first, rest, hhistory, hfirst, hrest⟩ := List.map_eq_cons_iff.mp hcalls
  obtain ⟨second, tail, rfl, hsecond, htail⟩ := List.map_eq_cons_iff.mp hrest
  rw [List.map_eq_nil_iff] at htail
  subst htail
  exact ⟨S, first, second, hreach, hhistory, hfirst, hsecond,
    (readBack_iff_plain hreach (show (S.thread ()).history = [] ++ first :: second :: [] from
      hhistory) (.ofString "k") (.ofString "a b")).1 (by decide) hfirst hsecond⟩

/-- A quote is read back as a backslash and a quote. -/
theorem readBack_quote :
    ∃ S : State Unit, Reachable False prog (fun _ _ => True) S ∧
      callsOf (S.thread ()).history =
        [.add (some (.ofString "k")) (some (.ofString "\"")), .get (some (.ofString "k"))] ∧
      resultsOf (S.thread ()).history = [.status 0, .value (some (.ofString "\\\""))] ∧
      CStr.ofString "\\\"" ≠ rendered (.ofString "\"") := by
  obtain ⟨S, hreach, -, hcalls, -⟩ := exists_run contract_any (G := Config.initial) (t := ())
    .refl rfl [.add (some (.ofString "k")) (some (.ofString "\"")), .get (some (.ofString "k"))]
    fun _ _ _ _ => trivial
  refine ⟨S, hreach, hcalls, ?_, by decide⟩
  rw [(reachable_explained contract_any hreach ()).results, callsOf, hcalls]
  decide

end Mdclog.ReadBack
