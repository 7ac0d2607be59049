import Mdclog.FormatLaws

/-! What `mdclog_internal_escape` stores, where it stores it and when it says that it
has cut the string. -/
namespace Mdclog.EscapeLaws
open Foundation.ByteBuffer CString Escape FormatLaws

/-! Nothing behind the buffer takes part. -/

theorem escapeLoop_behind (base len : Nat) (behind : List UInt8) {buffer : Buffer} {d : Nat}
    {str : List UInt8} {result : Buffer × Nat × List UInt8}
    (h : escapeLoop base len buffer d str = some result) :
    escapeLoop base len (buffer ++ behind) d str = some (result.1 ++ behind, result.2) := by
  induction str generalizing buffer d with
  | nil =>
    cases h
    rfl
  | cons c str ih =>
    rw [escapeLoop] at h ⊢
    split at h
    · rename_i hd
      rw [if_pos hd]
      by_cases hc : (decide (c = backslash) || decide (c = quote)) = true
      · simp only [hc, if_true] at h ⊢
        obtain ⟨first, hfirst, h⟩ := Option.bind_eq_some_iff.mp h
        obtain ⟨second, hsecond, h⟩ := Option.bind_eq_some_iff.mp h
        rw [store_behind hfirst behind, Option.bind_eq_bind, Option.bind_some,
          store_behind hsecond behind]
        exact ih h
      · simp only [hc, Bool.false_eq_true, if_false, Option.bind_eq_bind, Option.bind_some] at h ⊢
        obtain ⟨second, hsecond, h⟩ := Option.bind_eq_some_iff.mp h
        rw [store_behind hsecond behind]
        exact ih h
    · rename_i hd
      cases h
      rw [if_neg hd]

theorem mdclogInternalEscape_behind (base len : Nat) (behind : List UInt8) {buffer : Buffer}
    {str : CStr} {result : Buffer × Nat × Bool}
    (h : mdclogInternalEscape buffer base len str = some result) :
    mdclogInternalEscape (buffer ++ behind) base len str =
      some (result.1 ++ behind, result.2) := by
  unfold mdclogInternalEscape at h ⊢
  obtain ⟨⟨looped, d, unread⟩, hloop, h⟩ := Option.bind_eq_some_iff.mp h
  rw [escapeLoop_behind base len behind hloop, Option.bind_eq_bind, Option.bind_some]
  dsimp only at h ⊢
  split at h
  · rename_i hd
    rw [if_pos hd]
    obtain ⟨closed, hclosed, h⟩ := Option.bind_eq_some_iff.mp h
    cases h
    rw [store_behind hclosed behind]
    rfl
  · rename_i hd
    rw [if_neg hd]
    obtain ⟨closed, hclosed, h⟩ := Option.bind_eq_some_iff.mp h
    cases h
    rw [store_behind hclosed behind]
    rfl

/-- In a buffer of any size, with any bytes in front of it and behind it. -/
theorem mdclogInternalEscape_block (front block behind : List UInt8) (str : CStr)
    (hblock : 0 < block.length) :
    ∃ rest, mdclogInternalEscape (front ++ block ++ behind) front.length block.length str =
        some (front ++ (escapeText (fitPrefix (block.length - 1) str.bytes) ++ 0 :: rest) ++ behind,
          (escapeText (fitPrefix (block.length - 1) str.bytes)).length,
          decide (fitPrefix (block.length - 1) str.bytes ≠ str.bytes)) ∧
      (escapeText (fitPrefix (block.length - 1) str.bytes) ++ 0 :: rest).length =
        block.length := by
  obtain ⟨rest, hescape, hrest⟩ := mdclogInternalEscape_eq front block str hblock (Nat.le_refl _)
  refine ⟨rest, ?_, ?_⟩
  · rw [mdclogInternalEscape_behind _ _ behind hescape]
    simp only [List.append_assoc]
  · rw [List.length_append, List.length_cons]
    omega

theorem fitPrefix_ne_iff {len : Nat} (hlen : 0 < len) (str : CStr) :
    fitPrefix (len - 1) str.bytes ≠ str.bytes ↔ len < mdclogInternalEscapedSize str := by
  rw [Ne, fitPrefix_eq_self_iff, mdclogInternalEscapedSize_eq]
  omega

/-- The buffer is `block`: what is in front of it and behind it stays, and as the run
has a result with nothing there, every byte that is written lies in `block`. -/
theorem escape_longest_prefix (front block behind : List UInt8) (str : CStr)
    (hlen : 1 ≤ block.length) :
    (∃ kept rest truncated, LongestPrefix str.bytes 1 block.length kept ∧
      mdclogInternalEscape (front ++ block ++ behind) front.length block.length str =
        some (front ++ (escapeText kept ++ 0 :: rest) ++ behind, (escapeText kept).length,
          truncated) ∧
      (escapeText kept ++ 0 :: rest).length = block.length ∧
      (truncated = true ↔ kept ≠ str.bytes) ∧
      (truncated = true ↔ block.length < mdclogInternalEscapedSize str)) ∧
    ∀ contents : Nat → UInt8,
      mdclogInternalEscape (fresh contents (mdclogInternalEscapedSize str)) 0
          (mdclogInternalEscapedSize str) str =
        some (escapeText str.bytes ++ [0], mdclogInternalEscapedSize str - 1, false) := by
  constructor
  · obtain ⟨rest, hescape, hlength⟩ := mdclogInternalEscape_block front block behind str hlen
    refine ⟨_, rest, _, longestPrefix_fitPrefix hlen, hescape, hlength, decide_eq_true_iff, ?_⟩
    rw [decide_eq_true_iff]
    exact fitPrefix_ne_iff hlen str
  · intro contents
    exact mdclogInternalEscape_exact _ str (length_fresh contents _)

/-- A quote at the end of the room is left out as a whole. -/
theorem escape_longest_prefix_cut :
    ∃ kept rest truncated, LongestPrefix (ascii "ab\"c") 1 4 kept ∧
      mdclogInternalEscape (List.replicate 6 7) 1 4 (.ofString "ab\"c") =
        some ([7] ++ (escapeText kept ++ 0 :: rest) ++ [7], (escapeText kept).length, truncated) ∧
      (truncated = true ↔ 4 < mdclogInternalEscapedSize (.ofString "ab\"c")) := by
  obtain ⟨⟨kept, rest, truncated, hkept, hescape, -, -, hcut⟩, -⟩ :=
    escape_longest_prefix [7] [7, 7, 7, 7] [7] (.ofString "ab\"c") (by decide)
  exact ⟨kept, rest, truncated, hkept, hescape, hcut⟩

end Mdclog.EscapeLaws
