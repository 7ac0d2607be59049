import Mdclog.Decode
import Mdclog.EntryRoom
import Mdclog.MdcRuns

/-! A log entry decodes to what was logged, for the MDCs of any run. -/
namespace Mdclog.EntryDecode
open Foundation.Json Foundation.OrderedMap Foundation.Interleaving
open CString Escape JsonFormat Sections LogEntry Decode MdcStore MdcSpec MdcRefinement MdcRuns

/-! The pairs as they were added, before `put_mdc` escapes the values. -/

def Call.added (call : Call) (pairs : List (CStr × CStr)) : List (CStr × CStr) :=
  match call with
  | .add (some key) (some value) => if Clean key.bytes then put key value pairs else pairs
  | .remove (some key) => erase key pairs
  | .clean | .exit | .destroy => []
  | _ => pairs

def added (calls : List Call) : List (CStr × CStr) :=
  calls.foldl (fun pairs call => Call.added call pairs) []

theorem keys_stored (pairs : List (CStr × CStr)) : keys (pairs.map stored) = keys pairs := by
  simp [keys, stored, Function.comp_def]

theorem put_stored (key value : CStr) (pairs : List (CStr × CStr)) :
    put key (CStr.escaped value) (pairs.map stored) = (put key value pairs).map stored := by
  unfold put
  rw [keys_stored]
  split
  · rw [List.map_map, List.map_map]
    apply List.map_congr_left
    intro pair _
    by_cases hkey : pair.1 = key <;> simp [stored, hkey]
  · rfl

theorem erase_stored (key : CStr) (pairs : List (CStr × CStr)) :
    erase key (pairs.map stored) = (erase key pairs).map stored := by
  unfold erase
  rw [List.filter_map]
  rfl

theorem run_stored (call : Call) {store : Store} {pairs : List (CStr × CStr)}
    (h : store.pairs = pairs.map stored) :
    (call.run store).1.pairs = (Call.added call pairs).map stored := by
  cases call with
  | add key value =>
    cases key with
    | none => exact h
    | some key =>
      cases value with
      | none => exact h
      | some value =>
        by_cases hclean : Clean key.bytes
        · simp only [Call.run, Store.add, hclean, dif_pos, Call.added, if_true]
          rw [← put_stored, ← h]
          rfl
        · simpa [Call.run, Store.add, hclean, Call.added] using h
  | remove key =>
    cases key with
    | none => exact h
    | some key =>
      simp only [Call.run, Store.remove, Call.added]
      rw [← erase_stored, ← h]
      rfl
  | get key => exact h
  | write fits => exact h
  | _ => rfl

theorem after_stored (calls : List Call) :
    (after .empty calls).pairs = (added calls).map stored := by
  unfold after added
  suffices h : ∀ (store : Store) (pairs : List (CStr × CStr)), store.pairs = pairs.map stored →
      (calls.foldl (fun store call => (call.run store).1) store).pairs =
        (calls.foldl (fun pairs call => Call.added call pairs) pairs).map stored from
    h .empty [] rfl
  intro store pairs h
  induction calls generalizing store pairs with
  | nil => exact h
  | cons call calls ih => exact ih _ _ (run_stored call h)

/-! The message. -/

/-- The text that the message member carries when it has `room` bytes. -/
def messageText (room : Nat) (text : List UInt8) : List UInt8 :=
  if (escapeText text).length + 9 ≤ room then text
  else fitPrefix (room - 20) text ++ truncatedText

theorem clean_truncatedText : Clean truncatedText :=
  (containsSpecialLoop_eq_false_iff _).mp (by decide)

theorem entryMessage_eq {len : Nat} {front text : List UInt8} (hroom : front.length + 20 < len)
    (hnul : 0 ∉ text) :
    entryMessage len front text =
      msgHeader ++ escapeText (messageText (len - front.length - 1) text) ++ ascii "\"" := by
  rw [entryMessage, messageMember_eq (by omega) hnul, messageText]
  split
  · rfl
  · rw [escapeText_append, escapeText_of_clean clean_truncatedText]
    simp only [List.append_assoc]

theorem messageText_cases (room : Nat) (text : List UInt8) :
    render (messageText room text) = render text ∨
      ∃ kept, kept <+: text ∧
        render (messageText room text) = render kept ++ ascii "[truncated]" := by
  unfold messageText
  split
  · exact .inl rfl
  · refine .inr ⟨fitPrefix (room - 20) text, fitPrefix_isPrefix _ _, ?_⟩
    rw [render, List.map_append, ← render, ← render,
      render_of_isprint fun c hc => (clean_truncatedText c hc).1]
    rfl

/-! The whole entry. -/

theorem timestamp_eq {tv : Timeval} (hsec : 0 ≤ tv.tvSec ∧ tv.tvSec ≤ 10 ^ 16)
    (husec : 0 ≤ tv.tvUsec ∧ tv.tvUsec < 10 ^ 6) :
    timestamp tv = tv.tvSec.toNat * 1000 + tv.tvUsec.toNat / 1000 := by
  obtain ⟨sec, hsecEq⟩ := Int.eq_ofNat_of_zero_le hsec.1
  obtain ⟨usec, husecEq⟩ := Int.eq_ofNat_of_zero_le husec.1
  have hmod : sizeModulus = 18446744073709551616 := by decide
  rw [hsecEq] at hsec
  rw [husecEq] at husec
  have hsecSize : sizeOfInt (sec : Int) = sec := sizeOfInt_natCast (by omega)
  have husecSize : sizeOfInt (usec : Int) = usec := sizeOfInt_natCast (by omega)
  rw [timestamp, hsecEq, husecEq, hsecSize, husecSize, Int.toNat_natCast, Int.toNat_natCast]
  exact Nat.mod_eq_of_lt (by omega)

def identityShown (identity : Option CStr) : List UInt8 :=
  (identity.getD (CStr.ofString "(null)")).bytes.take identityMaxLength

theorem clean_identityShown {identity : Option CStr}
    (h : ∀ id ∈ identity, mdclogInternalContainsSpecialCharacters id = false) :
    Clean (identityShown identity) := by
  intro c hc
  have hmem := List.mem_of_mem_take hc
  cases identity with
  | none => exact (clean_iff (CStr.ofString "(null)")).mp (by decide) c hmem
  | some id => exact (clean_iff id).mp (h id rfl) c hmem

theorem clean_severity {severity : Severity} {crit : List UInt8}
    (h : severity.val = some crit) : Clean crit := by
  cases severity with
  | other code hcode => simp [Severity.val] at h
  | _ =>
    simp only [Severity.val, Option.some.injEq] at h
    rw [← h]
    exact (containsSpecialLoop_eq_false_iff _).mp (by decide)

/-- With room for all of its parts, an entry is its five members. -/
theorem entry_eq {len : Nat} (tv : Timeval) {identity : Option CStr} {severity : Severity}
    {crit : List UInt8} (hcrit : severity.val = some crit) (mdc : List (CStr × CStr))
    {text : List UInt8} (hlen : minBufferLength ≤ len)
    (hroom : (entryFront len tv identity severity mdc).length + 20 < len) (hnul : 0 ∉ text) :
    entryText len tv identity severity mdc text =
      [0x7b] ++ (ascii "\"ts\":" ++ decimal (timestamp tv)) ++ [comma] ++
        (ascii "\"crit\":\"" ++ crit ++ ascii "\"") ++ [comma] ++
        (ascii "\"id\":\"" ++ identityShown identity ++ ascii "\"") ++ [comma] ++
        mdcText (fitPairs (len - (entryHead tv identity severity).length - 28) mdc) ++ [comma] ++
        (msgHeader ++ escapeText (messageText
          (len - (entryFront len tv identity severity mdc).length - 1) text) ++ ascii "\"") ++
        [0x7d] := by
  have hhead : entryHead tv identity severity =
      [0x7b] ++ (ascii "\"ts\":" ++ decimal (timestamp tv)) ++ [comma] ++
        (ascii "\"crit\":\"" ++ crit ++ ascii "\"") ++ [comma] ++
        (ascii "\"id\":\"" ++ identityShown identity ++ ascii "\"") ++ [comma] := by
    have hts : timestampText tv ≠ [] := by
      simp [timestampText, show ascii "\"ts\":" ≠ [] by decide]
    have hid : identityText identity ≠ [] := by
      simp [identityText, show ascii "\"id\":\"" ≠ [] by decide]
    have hsev : severityMember severity = severityText crit := by
      simp [severityMember, hcrit]
    have hsevNe : severityText crit ≠ [] := by
      simp [severityText, show ascii "\"crit\":\"" ≠ [] by decide]
    simp only [entryHead, hsev, withComma, if_neg hts, if_neg hid, if_neg hsevNe]
    simp only [timestampText, severityText, identityText, identityShown, List.append_assoc]
  have hmessage := entryMessage_eq hroom hnul
  rw [entryText]
  simp only [hmessage]
  rw [entryFront_eq tv identity severity mdc hlen, ← hhead]

theorem units_injective : Function.Injective units := by
  apply List.map_injective_iff.mpr
  intro a b h
  exact UInt8.toUInt16_inj.mp h

/-- The formatter on pairs with clean, distinct keys, stored with escaped values. -/
theorem format_decodes {pairs : List (CStr × CStr)} (hdistinct : (keys pairs).Nodup)
    (hclean : ∀ pair ∈ pairs, Clean pair.1.bytes) {buffer result : List UInt8} {len : Nat}
    (hlen : minBufferLength ≤ len) (hmax : len ≤ intMax) (hbuffer : len ≤ buffer.length)
    {tv : Timeval} (hsec : 0 ≤ tv.tvSec ∧ tv.tvSec ≤ 10 ^ 16)
    (husec : 0 ≤ tv.tvUsec ∧ tv.tvUsec < 10 ^ 6) {identity : Option CStr}
    (hidentity : ∀ id ∈ identity, mdclogInternalContainsSpecialCharacters id = false)
    {severity : Severity} {crit : List UInt8} (hcrit : severity.val = some crit)
    {malloc : Option (Nat → UInt8)} {text : List UInt8} (htext : text.length ≤ intMax)
    (hnul : 0 ∉ text) {r : Int}
    (hformat : mdclogInternalFormatToJsonStr buffer len tv identity severity
      (pairs.map stored) malloc (.output text htext) = some (result, r)) (hr : 0 < r) :
    ∃ (n : Nat) (kept : List (CStr × CStr)) (message : List UInt8),
      r = n ∧ n ≤ len - 1 ∧ result[n]? = some 0 ∧ kept <+: pairs ∧
      ((kept.map pairMember).map Prod.fst).Nodup ∧
      (message = render text ∨
        ∃ part, part <+: text ∧ message = render part ++ ascii "[truncated]") ∧
      decode (result.take n) = some (entryValue
        (tv.tvSec.toNat * 1000 + tv.tvUsec.toNat / 1000) crit (identityShown identity) kept
        message) := by
  cases malloc with
  | none =>
    have hmin : minBufferLength = 1000 := rfl
    rw [mdclogInternalFormatToJsonStr, if_neg (by omega)] at hformat
    rw [formatLogEntry_of_malloc_none hformat] at hr
    omega
  | some contents =>
    obtain ⟨rest, hresult⟩ := mdclogInternalFormatToJsonStr_eq buffer tv identity severity
      (pairs.map stored) contents text htext hlen hmax hbuffer
    rw [hformat] at hresult
    by_cases hroom : (entryFront len tv identity severity (pairs.map stored)).length + 20 < len
    · rw [if_pos hroom, Option.some.injEq, Prod.mk.injEq] at hresult
      obtain ⟨rfl, rfl⟩ := hresult
      have hshort := length_entryText_lt tv identity severity (pairs.map stored) text hroom
      obtain ⟨kept, hkept, hfit⟩ := List.prefix_map_iff.mp (fitPairs_isPrefix
        (len - (entryHead tv identity severity).length - 28) (pairs.map stored))
      refine ⟨_, kept, _, rfl, by omega, by simp, hkept, ?_, messageText_cases
        (len - (entryFront len tv identity severity (pairs.map stored)).length - 1) text, ?_⟩
      · have hkeys : (kept.map pairMember).map Prod.fst =
            ((keys kept).map CStr.bytes).map units := by
          simp [keys, pairMember, Function.comp_def]
        have hbytes : Function.Injective CStr.bytes := fun _ _ h => CStr.ext h
        rw [hkeys]
        exact ((hdistinct.sublist (hkept.sublist.map _)).map hbytes).map units_injective
      · rw [List.take_left', entry_eq tv hcrit (pairs.map stored) hlen hroom hnul, hfit,
          timestamp_eq hsec husec]
        · exact decode_entry _ _ _ _ _ (clean_severity hcrit) (clean_identityShown hidentity)
            fun pair hpair => hclean pair (hkept.subset hpair)
        · rfl
    · rw [if_neg hroom, Option.some.injEq, Prod.mk.injEq] at hresult
      omega

/-- Every entry the formatter returns is one JSON object with the five members,
in this order, for the MDC list that any run of the MDC calls has left. -/
theorem logEntry_decodes {S : State Unit} (hS : Reachable False prog (fun _ _ => True) S)
    (hidle : (S.thread ()).running = none) :
    ∃ cells, Represents (S.part ()) (after .empty (callsOf (S.thread ()).history)) cells ∧
      ∀ {buffer result : List UInt8} {len : Nat}, minBufferLength ≤ len → len ≤ intMax →
      len ≤ buffer.length → ∀ {tv : Timeval}, 0 ≤ tv.tvSec ∧ tv.tvSec ≤ 10 ^ 16 →
      0 ≤ tv.tvUsec ∧ tv.tvUsec < 10 ^ 6 → ∀ {identity : Option CStr},
      (∀ id ∈ identity, mdclogInternalContainsSpecialCharacters id = false) →
      ∀ {severity : Severity} {crit : List UInt8}, severity.val = some crit →
      ∀ {malloc : Option (Nat → UInt8)} {text : List UInt8} (htext : text.length ≤ intMax),
      0 ∉ text → ∀ {r : Int}, mdclogInternalFormatToJsonStr buffer len tv identity severity
        (cells.map Cell.pair) malloc (.output text htext) = some (result, r) → 0 < r →
      ∃ (n : Nat) (kept : List (CStr × CStr)) (message : List UInt8),
        r = n ∧ n ≤ len - 1 ∧ result[n]? = some 0 ∧
        kept <+: added (callsOf (S.thread ()).history) ∧
        ((kept.map pairMember).map Prod.fst).Nodup ∧
        (message = render text ∨
          ∃ part, part <+: text ∧ message = render part ++ ascii "[truncated]") ∧
        decode (result.take n) = some (entryValue
          (tv.tvSec.toNat * 1000 + tv.tvUsec.toNat / 1000) crit (identityShown identity) kept
          message) := by
  obtain ⟨-, cells, hrep⟩ := (reachable_sound contract_any hS ()).idle hidle
  have hstored := after_stored (callsOf (S.thread ()).history)
  have hdistinct : (keys (added (callsOf (S.thread ()).history))).Nodup := by
    rw [← keys_stored, ← hstored]
    exact Store.distinct _
  have hclean : ∀ pair ∈ added (callsOf (S.thread ()).history), Clean pair.1.bytes := by
    intro pair hpair
    have hmem : stored pair ∈ (after .empty (callsOf (S.thread ()).history)).pairs := by
      rw [hstored]
      exact List.mem_map_of_mem hpair
    exact Store.clean _ (stored pair) hmem
  refine ⟨cells, hrep, ?_⟩
  intro buffer result len hlen hmax hbuffer tv hsec husec identity hidentity severity crit hcrit
    malloc text htext hnul r hformat hr
  rw [hrep.pairs, hstored] at hformat
  exact format_decodes hdistinct hclean hlen hmax hbuffer hsec husec hidentity hcrit htext hnul
    hformat hr

theorem logEntry_decodes_run :
    ∃ (S : State Unit) (cells : List Cell) (result : List UInt8) (r : Int),
      Reachable False prog (fun _ _ => True) S ∧ (S.thread ()).running = none ∧
      callsOf (S.thread ()).history =
        [.add (some (.ofString "k")) (some (.ofString "say \"v\""))] ∧
      mdclogInternalFormatToJsonStr (List.replicate 1000 0) 1000 ⟨1, 2000⟩ none .info
        (cells.map Cell.pair) (some fun _ => 0) (.output (ascii "hello\n") (by decide)) =
        some (result, r) ∧
      ∃ (n : Nat) (kept : List (CStr × CStr)) (message : List UInt8), r = n ∧
        decode (result.take n) = some (entryValue 1002 (ascii "INFO") (identityShown none) kept
          message) := by
  obtain ⟨S, hreach, hidle, hcalls, -⟩ := exists_run contract_any (G := Config.initial) (t := ())
    .refl rfl [.add (some (.ofString "k")) (some (.ofString "say \"v\""))] fun _ _ _ _ => trivial
  replace hcalls : callsOf (S.thread ()).history = _ := hcalls
  obtain ⟨cells, hrep, hall⟩ := logEntry_decodes hreach hidle
  have hshort : Foundation.Fitting.total EntryRoom.pairLength (cells.map Cell.pair) = 16 := by
    rw [hrep.pairs, hcalls]
    decide
  have hbuffer : 1000 ≤ (List.replicate 1000 (0 : UInt8)).length :=
    Nat.le_of_eq List.length_replicate.symm
  obtain ⟨result, r, hformat, hpos⟩ := (EntryRoom.format_pos_iff (List.replicate 1000 0)
    ⟨1, 2000⟩ none .info (cells.map Cell.pair) (fun _ => 0) (ascii "hello\n") (by decide)
    (Nat.le_refl 1000) (by decide) hbuffer).mpr (EntryRoom.not_fillsRoom _ _ _ (by omega))
  obtain ⟨n, kept, message, hr, -, -, -, -, -, hdecode⟩ := hall (Nat.le_refl 1000) (by decide)
    hbuffer (by decide) (by decide) (by simp) rfl (by decide) (by decide) hformat hpos
  exact ⟨S, cells, result, r, hreach, hidle, hcalls, hformat, n, kept, message, hr, hdecode⟩

end Mdclog.EntryDecode
