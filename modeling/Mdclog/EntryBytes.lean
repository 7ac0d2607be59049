import Mdclog.Decode

/-! An entry consists of printable characters when the texts it is made of do. -/
namespace Mdclog.EntryBytes
open CString Escape JsonFormat Sections LogEntry MdcStore

def Printable (text : List UInt8) : Prop := ∀ b ∈ text, isprint b = true

theorem Printable.append {left right : List UInt8} (hleft : Printable left)
    (hright : Printable right) : Printable (left ++ right) :=
  List.forall_mem_append.mpr ⟨hleft, hright⟩

theorem printable_of_all {text : List UInt8} (h : text.all isprint = true) : Printable text :=
  List.all_eq_true.mp h

theorem printable_withComma {text : List UInt8} (h : Printable text) :
    Printable (withComma text) := by
  unfold withComma
  split
  · exact fun b hb => absurd hb List.not_mem_nil
  · exact h.append (printable_of_all (by decide))

theorem printable_decimal (n : Nat) : Printable (decimal n) := by
  intro b hb
  have hdigit := Decode.decimal_isDigit n b hb
  simp only [Foundation.Json.isDigit, Bool.and_eq_true, decide_eq_true_eq] at hdigit
  simp only [isprint, Bool.and_eq_true, decide_eq_true_eq, UInt8.le_iff_toNat_le] at hdigit ⊢
  exact ⟨Nat.le_trans (by decide) hdigit.1, Nat.le_trans hdigit.2 (by decide)⟩

theorem printable_severityMember (severity : Severity) : Printable (severityMember severity) := by
  apply printable_of_all
  cases severity with
  | other code h => rfl
  | _ => decide

theorem printable_identityText {identity : Option CStr}
    (h : ∀ id ∈ identity, Printable id.bytes) : Printable (identityText identity) := by
  have hshown : Printable (identity.getD (CStr.ofString "(null)")).bytes := by
    cases identity with
    | none => exact printable_of_all (by decide)
    | some id => exact h id rfl
  refine ((printable_of_all (by decide)).append fun b hb => ?_).append
    (printable_of_all (by decide))
  exact hshown b (List.mem_of_mem_take hb)

theorem printable_entryHead (tv : Timeval) {identity : Option CStr} (severity : Severity)
    (h : ∀ id ∈ identity, Printable id.bytes) : Printable (entryHead tv identity severity) := by
  have hstamp : Printable (timestampText tv) :=
    (printable_of_all (by decide)).append (printable_decimal _)
  exact (((printable_of_all (by decide)).append (printable_withComma hstamp)).append
    (printable_withComma (printable_severityMember severity))).append
    (printable_withComma (printable_identityText h))

def PrintablePairs (mdc : List (CStr × CStr)) : Prop :=
  ∀ pair ∈ mdc, Printable pair.1.bytes ∧ Printable pair.2.bytes

theorem printable_pairsText {mdc : List (CStr × CStr)} (h : PrintablePairs mdc) :
    Printable (pairsText mdc) := by
  intro b hb
  obtain ⟨pair, hpair, hb⟩ := List.mem_flatMap.mp hb
  have hprint : Printable (pairText pair) :=
    ((((printable_of_all (by decide)).append (h pair hpair).1).append
      (printable_of_all (by decide))).append (h pair hpair).2).append
      (printable_of_all (by decide))
  exact hprint b hb

theorem printable_mdcText {mdc : List (CStr × CStr)} (h : PrintablePairs mdc) :
    Printable (mdcText mdc) :=
  ((printable_of_all (by decide)).append fun b hb =>
    printable_pairsText h b (List.mem_of_mem_dropLast hb)).append (printable_of_all (by decide))

theorem printable_messageMember (len : Nat) (text : List UInt8) (cut : Bool) :
    Printable (messageMember len text cut) := by
  unfold messageMember
  have hheader : Printable msgHeader := printable_of_all (by decide)
  have hquote : Printable (ascii "\"") := printable_of_all (by decide)
  split
  · exact fun b hb => absurd hb List.not_mem_nil
  · split
    · exact ((hheader.append (isprint_escapeText _)).append (printable_of_all (by decide))).append
        hquote
    · exact (hheader.append (isprint_escapeText _)).append hquote

/-- Whatever the message, an entry from a clean configuration is printable. -/
theorem printable_entryText {len : Nat} (tv : Timeval) {identity : Option CStr}
    (severity : Severity) {mdc : List (CStr × CStr)} (bytes : List UInt8)
    (hlen : minBufferLength ≤ len) (hidentity : ∀ id ∈ identity, Printable id.bytes)
    (hmdc : PrintablePairs mdc) : Printable (entryText len tv identity severity mdc bytes) := by
  have hfront : Printable (entryFront len tv identity severity mdc) := by
    rw [entryFront_eq tv identity severity mdc hlen]
    refine ((printable_entryHead tv severity hidentity).append (printable_mdcText ?_)).append
      (printable_of_all (by decide))
    exact fun pair hpair => hmdc pair ((fitPairs_isPrefix _ mdc).subset hpair)
  exact (hfront.append (printable_messageMember _ _ _)).append (printable_of_all (by decide))

theorem printable_store (store : Store) : PrintablePairs store.pairs := by
  intro pair hpair
  refine ⟨fun b hb => (store.clean pair hpair b hb).1, ?_⟩
  obtain ⟨value, hvalue⟩ := store.escaped pair hpair
  rw [hvalue]
  exact isprint_escapeText value.bytes

end Mdclog.EntryBytes
