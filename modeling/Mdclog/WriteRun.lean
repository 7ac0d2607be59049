import Mdclog.ApiFrame

/-! The calls of the library when every allocation succeeds. -/
namespace Mdclog.WriteRun
open Foundation.ByteBuffer Foundation.StateProgram
open CString Escape JsonFormat LogEntry ConfigMap EntryRoom MdcStore Api ApiFrame

variable {T : Type} {system : System}

/-- The identity that a call finds once `init_library(NULL)` has run. -/
def usedIdentity (system : System) (s : Library T) : Option CStr :=
  if s.initDone then s.identity else some (CStr.escaped system.progname)

/-- The pairs of a thread. -/
def pairsOf (s : Library T) (t : T) : List (CStr × CStr) :=
  (s.mdcs t).elim [] fun list => list.store.pairs

theorem allocate_run (hmalloc : ∀ n, system.malloc n = true) (s : Library T) :
    (allocate system).run s = some (true, { s with allocations := s.allocations + 1 }) := by
  rw [allocate_eq, hmalloc]

theorem strdup_run (hmalloc : ∀ n, system.malloc n = true) (text : CStr) (s : Library T) :
    (strdup system text).run s =
      some (some text, { s with allocations := s.allocations + 1 }) := by
  rw [strdup_eq, hmalloc, if_pos rfl]

/-- The default identity is the escaped program name, copied or not. -/
theorem defaultIdentity_run (hmalloc : ∀ n, system.malloc n = true) (s : Library T) :
    ∃ count, (defaultIdentity system).run s =
      some (some (CStr.escaped system.progname), { s with allocations := count }) := by
  obtain ⟨identity, count, -, hrun, hescaped, hsome⟩ := @defaultIdentity_result T system s
  obtain ⟨id, rfl⟩ := Option.isSome_iff_exists.mp (hsome (hmalloc _) (hmalloc _))
  rw [hescaped id rfl] at hrun
  exact ⟨count, hrun⟩

theorem initLibrary_run (hmalloc : ∀ n, system.malloc n = true) (s : Library T) :
    ∃ s', (initLibrary system none).run s = some ((), s') ∧
      s'.identity = usedIdentity system s ∧ s'.mdcs = s.mdcs ∧ s'.output = s.output := by
  unfold initLibrary usedIdentity
  rw [StateT.run_bind, StateT.run_get, Option.pure_def, Option.bind_eq_bind, Option.bind_some]
  by_cases hdone : s.initDone = true
  · rw [if_pos hdone, if_pos hdone]
    exact ⟨s, rfl, rfl, rfl, rfl⟩
  · obtain ⟨count, hdefault⟩ := defaultIdentity_run hmalloc s
    rw [if_neg hdone, if_neg hdone, configure]
    simp only [pure_bind]
    rw [StateT.run_bind, hdefault]
    exact ⟨_, rfl, rfl, rfl, rfl⟩

theorem emit_run (s : Library T) (entry rest : List UInt8) (hentry : entry ≠ []) :
    (emit (entry ++ 0 :: rest) entry.length).run s =
      some ((), { s with output := s.output ++ [.write (entry ++ [newline])] }) := by
  have hpos : (0 : Int) < entry.length := by
    exact_mod_cast List.length_pos_of_ne_nil hentry
  unfold emit
  rw [if_pos hpos, Int.toNat_natCast, store_append]
  have htake : (entry ++ newline :: rest).take (entry.length + 1) = entry ++ [newline] := by
    rw [List.take_append]
    simp
  rw [← htake]
  rfl

variable [DecidableEq T]

theorem firstMdc_run (hmalloc : ∀ n, system.malloc n = true) {s : Library T} {t : T}
    (hwhole : ∀ list, s.mdcs t = some list → list.broken = false) (tv : Timeval)
    (severity : Severity) :
    ∃ s', (firstMdc system t tv severity).run s = some (pairsOf s t, s') ∧
      s'.identity = s.identity ∧ s'.output = s.output := by
  unfold firstMdc getList pairsOf
  simp only [StateT.run_bind, StateT.run_get, Option.pure_def, Option.bind_eq_bind,
    Option.bind_some]
  cases hlist : s.mdcs t with
  | none =>
    simp only [StateT.run_bind, allocate_run hmalloc, Option.bind_eq_bind, Option.bind_some,
      if_true]
    exact ⟨_, rfl, rfl, rfl⟩
  | some list =>
    simp only [StateT.run_pure, Option.pure_def, Option.bind_some, StateT.run_bind,
      StateT.run_get, Option.bind_eq_bind, hwhole list hlist, Bool.false_and,
      Bool.false_eq_true, if_false]
    exact ⟨_, rfl, rfl, rfl⟩

/-- What one call of `mdclog_write` that passes the filter adds to the output. -/
theorem mdclogWrite_run (hmalloc : ∀ n, system.malloc n = true) {s : Library T} {t : T}
    (hwhole : ∀ list, s.mdcs t = some list → list.broken = false) {severity : Severity}
    (hlevel : severity.code ≤ s.currentLevel.code) {message : Message} {bytes : List UInt8}
    {hbytes : bytes.length ≤ intMax} (hcall : message.call = .output bytes hbytes) :
    ∃ s', (mdclogWrite system t severity message).run s = some ((), s') ∧
      s'.output = s.output ++
        if FillsRoom (pipeBuf - 1) message.tv (usedIdentity system s) severity (pairsOf s t) then []
        else [.write (entryText (pipeBuf - 1) message.tv (usedIdentity system s) severity
          (pairsOf s t) bytes ++ [newline])] := by
  obtain ⟨s₁, hinit, hidentity, hmdcs, houtput⟩ := initLibrary_run hmalloc s
  obtain ⟨s₂, hfirst, hidentity₂, houtput₂⟩ := firstMdc_run hmalloc (s := s₁) (t := t)
    (by rwa [hmdcs]) message.tv severity
  have hpairs : pairsOf s₁ t = pairsOf s t := by rw [pairsOf, hmdcs, pairsOf]
  rw [hpairs] at hfirst
  obtain ⟨rest, hformat⟩ := mdclogInternalFormatToJsonStr_eq (fresh message.stack pipeBuf)
    message.tv (usedIdentity system s) severity (pairsOf s t) message.heap bytes hbytes
    (by decide : minBufferLength ≤ pipeBuf - 1) (by decide) (by rw [length_fresh]; decide)
  unfold mdclogWrite
  simp only [StateT.run_bind, StateT.run_get, Option.pure_def, Option.bind_eq_bind,
    Option.bind_some, if_neg (Nat.not_lt.mpr hlevel), hinit, hfirst, allocate_run hmalloc, if_true,
    hidentity₂, hidentity, hcall, hformat]
  by_cases hroom : (entryFront (pipeBuf - 1) message.tv (usedIdentity system s) severity
      (pairsOf s t)).length + 20 < pipeBuf - 1
  · rw [if_pos hroom, if_neg ((room_iff _ _ _ _ (by decide)).mp hroom), run_lift_some,
      Option.bind_some]
    exact ⟨_, emit_run _ _ rest (by simp [entryText]), by rw [houtput₂, houtput]⟩
  · have hfills := not_not.mp (mt (room_iff _ _ _ _ (by decide)).mpr hroom)
    rw [if_neg hroom, if_pos hfills, run_lift_some, Option.bind_some, List.append_nil]
    exact ⟨_, rfl, houtput₂.trans houtput⟩

end Mdclog.WriteRun
