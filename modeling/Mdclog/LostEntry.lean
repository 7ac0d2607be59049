import Mdclog.Payload

/-! When the entry of a call of `mdclog_write` is written, and when it is lost. -/
namespace Mdclog.LostEntry
open Foundation.ByteBuffer Foundation.Fitting
open CString JsonFormat EntryRoom Api WriteRun Payload

variable {T : Type} [DecidableEq T] {system : System}

/-- With memory and a working `vsnprintf`, an entry is lost exactly when the first
MDC pairs fill their room to the last byte, for every buffer length, and in
`mdclog_write` for every call that passes the filter. -/
theorem entry_written_iff (hmalloc : ∀ n, system.malloc n = true) :
    (∀ {buffer : Buffer} {len : Nat}, minBufferLength ≤ len → len ≤ intMax → len ≤ buffer.length →
      ∀ (tv : Timeval) (identity : Option CStr) (severity : Severity) (mdc : List (CStr × CStr))
        (contents : Nat → UInt8) (bytes : List UInt8) (hbytes : bytes.length ≤ intMax),
        (∃ result r, mdclogInternalFormatToJsonStr buffer len tv identity severity mdc
          (some contents) (.output bytes hbytes) = some (result, r) ∧ 0 < r) ↔
          ¬FillsRoom len tv identity severity mdc) ∧
    ∀ {events : List (Event T)} {s : Library T},
      Run system (fun _ event => formats event) events s → ∀ (t : T) {severity : Severity},
      severity.code ≤ s.currentLevel.code → ∀ {message : Message} {bytes : List UInt8}
        {hbytes : bytes.length ≤ intMax}, message.call = .output bytes hbytes →
        ((∃ payload s', (mdclogWrite system t severity message).run s = some ((), s') ∧
          s'.output = s.output ++ [.write payload]) ↔
          ¬FillsRoom (pipeBuf - 1) message.tv (usedIdentity system s) severity (pairsOf s t)) := by
  constructor
  · intro buffer len hlen hmax hbuffer tv identity severity mdc contents bytes hbytes
    exact format_pos_iff buffer tv identity severity mdc contents bytes hbytes hlen hmax hbuffer
  · intro events s hrun t severity hlevel message bytes hbytes hcall
    obtain ⟨s', hwrite, houtput⟩ := mdclogWrite_run hmalloc
      (fun list hlist => (run_sane hrun).whole hmalloc t list hlist) hlevel hcall
    rw [hwrite]
    constructor
    · rintro ⟨payload, s'', heq, hadded⟩ hfills
      obtain ⟨-, rfl⟩ := Prod.mk.inj (Option.some.inj heq)
      rw [houtput, if_pos hfills] at hadded
      simp at hadded
    · intro hroom
      rw [if_neg hroom] at houtput
      exact ⟨_, s', rfl, houtput⟩

theorem entry_written_first :
    ∃ payload s', (mdclogWrite ⟨.ofString "prog", fun _ => true⟩ () .err
      ⟨⟨1, 0⟩, fun _ => 0, fun _ => 0, .output (ascii "hello") (by decide)⟩).run
        (Library.initial : Library Unit) = some ((), s') ∧ s'.output = [.write payload] :=
  ((@entry_written_iff Unit _ ⟨.ofString "prog", fun _ => true⟩ fun _ => rfl).2
    Run.start () (show Severity.err.code ≤ 1 from Nat.le_refl 1) rfl).mpr
    (not_fillsRoom _ _ _ (by decide))

/-- One pair that ends at the last byte its section may have. -/
theorem entry_lost :
    ¬∃ result r, mdclogInternalFormatToJsonStr (List.replicate 4095 0) 4095 ⟨0, 0⟩
      (some (.ofString "id")) .err [(.ofString "k", letters 4027)] (some fun _ => 0)
      (.output (ascii "hello") (by decide)) = some (result, r) ∧ 0 < r := by
  have hfills : FillsRoom 4095 ⟨0, 0⟩ (some (.ofString "id")) .err
      [(.ofString "k", letters 4027)] := by
    refine ⟨[(.ofString "k", letters 4027)], by simp, ?_⟩
    have hhead : headLength ⟨0, 0⟩ (some (.ofString "id")) .err = 33 := by decide
    have hkey : (CStr.ofString "k").bytes.length = 1 := by decide
    have hvalue : (letters 4027).bytes.length = 4027 := List.length_replicate
    rw [hhead, total_cons, total_nil, pairLength, hkey, hvalue]
  have hiff := format_pos_iff (List.replicate 4095 0) ⟨0, 0⟩ (some (.ofString "id")) .err
    [(.ofString "k", letters 4027)] (fun _ => 0) (ascii "hello") (by decide)
    (by decide : minBufferLength ≤ 4095) (by decide) (Nat.le_of_eq List.length_replicate.symm)
  exact fun h => hiff.mp h hfills

end Mdclog.LostEntry
