import Mdclog.Escape
import Mdclog.Foundation.LockedProgress

/-! The identity strings of `mdclog.c` as heap blocks: `mdclog_configuration.identity`
under `config_mutex`, the attribute objects, and the calls that hand the blocks over. -/
namespace Mdclog.IdentityHeap
open Foundation Foundation.LockedHeap Foundation.Ownership
open CString Escape

/-- `strdup` writes the block it gets. -/
def strdup (next : Pointer → Code) : Code :=
  .malloc fun copy =>
    match copy with
    | some _ => .access copy (next copy)
    | none => next none

section programs
variable (progname : CStr)

/-- The branch of `init_library` for a null `attr` or one without an identity. -/
def defaultIdentity (next : Code) : Code :=
  strdup fun identity =>
    match identity with
    | none => next
    | some _ =>
        .access identity <|
        if mdclogInternalContainsSpecialCharacters progname then
          .access identity <|
          .malloc fun copy =>
          .writeShared copy <|
          .readShared fun copy =>
            match copy with
            | some _ =>
                .readShared fun copy => .access copy <| .access identity <| .free identity next
            | none => .free identity next
        else .writeShared identity next

/-- The new identity, and what stands behind it. -/
def assign (attr : Option Nat) (next : Code) : Code :=
  let finish := .writeFlag true <| .unlock next
  match attr with
  | none => defaultIdentity progname finish
  | some attr =>
      .readObject attr fun identity =>
        match identity with
        | some _ =>
            .readObject attr fun identity =>
            .writeShared identity <| .writeObject attr none finish
        | none => defaultIdentity progname finish

/-- The flag is `init_done`, which is tested before the lock is taken. -/
def initLibrary (attr : Option Nat) (next : Code) : Code :=
  .readFlag fun initDone =>
    if initDone then next
    else
      .wrlock <|
      .readShared fun identity =>
        match identity with
        | some _ =>
            .readShared fun identity =>
            .free identity <| .writeShared none <| assign progname attr next
        | none => assign progname attr next

/-- A call that is refused touches no identity. `mdc` is any of the MDC calls. -/
inductive Call where
  | attrInit
  | attrSetIdent (attr : Nat)
  | attrDestroy (attr : Nat)
  | init (attr : Option Nat)
  | write
  | mdc

def mdclogAttrDestroy (attr : Nat) : Code :=
  .readObject attr fun identity =>
    match identity with
    | some _ => .readObject attr fun identity => .free identity <| .freeObject attr .done
    | none => .freeObject attr .done

def mdclogWrite : Code :=
  initLibrary progname none <|
  .rdlock <|
  .readShared fun identity =>
    match identity with
    | some _ => .access identity <| .unlock .done
    | none => .unlock .done

def Call.program : Call → Code
  | .attrInit => .newObject fun _ => .done
  | .attrSetIdent attr => strdup fun identity => .writeObject attr identity .done
  | .attrDestroy attr => mdclogAttrDestroy attr
  | .init attr => .writeFlag false <| initLibrary progname attr .done
  | .write => mdclogWrite progname
  | .mdc => initLibrary progname none .done

def Call.object : Call → Option Nat
  | .attrSetIdent attr | .attrDestroy attr => some attr
  | .init attr => attr
  | .attrInit | .write | .mdc => none

def Call.ends : Call → Bool
  | .attrDestroy _ => true
  | _ => false

def calls : Calls Call := ⟨Call.program progname, Call.object, Call.ends⟩

end programs

/-! Every call keeps to what it owns. -/

section safe
variable {strict : Bool} {l : Local}

/-- Between two critical sections, with the object of the call. -/
structure Ready (attr : Option Nat) (l : Local) : Prop where
  out : l.mode = .out
  settled : l.Settled
  object : l.object.map Prod.fst = attr

theorem strdup_safe {next : Pointer → Code}
    (hkept : ∀ blocks, l.blocks ⊆ blocks → Local.Kept strict { l with blocks := blocks })
    (hreader : ∀ p, l.mode ≠ .reader p) (hnone : Safe strict (next none) l)
    (hsome : ∀ b, b ∉ l.blocks →
      Safe strict (next (some b)) { l with blocks := insert b l.blocks }) :
    Safe strict (strdup next) l := by
  refine ⟨hkept _ subset_rfl, hnone, fun b hb => ?_⟩
  exact ⟨hkept _ (Set.subset_insert b _), ⟨b, rfl, .inr ⟨hreader, Set.mem_insert b _⟩⟩, hsome b hb⟩

/-- What is behind the default identity gets a block for the shared pointer, and all the
blocks there were. -/
theorem defaultIdentity_safe (progname : CStr) {next : Code} (hmode : l.mode = .writer none)
    (hnext : ∀ p blocks, pointee p ⊆ blocks → l.blocks ⊆ blocks \ pointee p →
      Safe strict next { l with mode := .writer p, blocks := blocks }) :
    Safe strict (defaultIdentity progname next) l := by
  obtain ⟨mode, blocks, object⟩ := l
  obtain rfl : mode = .writer none := hmode
  have hkept : ∀ p blocks', Local.Kept strict ⟨.writer p, blocks', object⟩ :=
    fun p _ => kept_writer rfl
  have hnull : blocks ⊆ blocks \ pointee none := fun b hb => ⟨hb, nofun⟩
  refine strdup_safe (fun blocks' _ => hkept none blocks') nofun (hnext none blocks nofun hnull)
    fun b hb => ?_
  have haccess : ∀ (p : Pointer) (blocks' : Set Nat) (c : Nat), c ∈ blocks' →
      ∃ c', some c = some c' ∧
        (Mode.writer p = .reader (some c) ∨ (∀ q, Mode.writer p ≠ .reader q) ∧ c' ∈ blocks') :=
    fun p blocks' c hmem => ⟨c, rfl, .inr ⟨nofun, hmem⟩⟩
  have hb' : b ∈ insert b blocks := Set.mem_insert b blocks
  refine ⟨hkept _ _, haccess _ _ b hb', ?_⟩
  split
  · refine ⟨hkept _ _, haccess _ _ b hb', hkept _ _, ?_, fun c hc => ?_⟩
    · -- no memory for the copy
      refine ⟨hkept _ _, ⟨none, rfl⟩, hkept _ _, none, .inr rfl, hkept _ _, ?_, ?_⟩
      · rintro _ ⟨⟩
        exact hb'
      · refine hnext none _ nofun fun x hx => ⟨⟨Set.mem_insert_of_mem b hx, ?_⟩, nofun⟩
        rintro ⟨⟩
        exact hb hx
    · have hc' : c ∈ insert c (insert b blocks) := Set.mem_insert c _
      have hbc : b ∈ insert c (insert b blocks) := Set.mem_insert_of_mem c hb'
      refine ⟨hkept _ _, ⟨none, rfl⟩, hkept _ _, some c, .inr rfl, hkept _ _, some c, .inr rfl,
        hkept _ _, haccess _ _ c hc', hkept _ _, haccess _ _ b hbc, hkept _ _, ?_, ?_⟩
      · rintro _ ⟨⟩
        exact hbc
      · refine hnext (some c) _ ?_ fun x hx => ⟨⟨?_, ?_⟩, ?_⟩
        · rintro _ ⟨⟩
          refine ⟨hc', ?_⟩
          rintro ⟨⟩
          exact hc hb'
        · exact Set.mem_insert_of_mem c (Set.mem_insert_of_mem b hx)
        · rintro ⟨⟩
          exact hb hx
        · rintro ⟨⟩
          exact hc (Set.mem_insert_of_mem b hx)
  · refine ⟨hkept _ _, ⟨none, rfl⟩,
      hnext (some b) _ ?_ fun x hx => ⟨Set.mem_insert_of_mem b hx, ?_⟩⟩
    · rintro _ ⟨⟩
      exact hb'
    · rintro ⟨⟩
      exact hb hx

theorem assign_safe (progname : CStr) {attr : Option Nat} {next : Code}
    (hmode : l.mode = .writer none) (hsettled : l.Settled) (hobject : l.object.map Prod.fst = attr)
    (hnext : ∀ l', Ready attr l' → Safe strict next l') :
    Safe strict (assign progname attr next) l := by
  -- behind the new identity: the flag, the lock, and what is left of the blocks
  have hfinish : ∀ {l' : Local} {p : Pointer}, l'.mode = .writer p → pointee p ⊆ l'.blocks →
      l'.object.map Prod.fst = attr →
      Local.Settled { l' with mode := .out, blocks := l'.blocks \ pointee p } →
      Safe strict (.writeFlag true <| .unlock next) l' := by
    intro l' p hmode' hblocks hobject' hsettled'
    exact ⟨kept_writer hmode', kept_writer hmode',
      .inr ⟨p, hmode', hblocks, hnext _ ⟨rfl, hsettled', hobject'⟩⟩⟩
  have hdefault : Safe strict
      (defaultIdentity progname (.writeFlag true <| .unlock next)) l := by
    refine defaultIdentity_safe progname hmode fun p blocks hp hblocks => ?_
    exact hfinish rfl hp hobject (hsettled.mono hblocks .out)
  cases attr with
  | none => exact hdefault
  | some a =>
    obtain ⟨⟨_, p⟩, hl, rfl⟩ := Option.map_eq_some_iff.mp hobject
    refine ⟨kept_writer hmode, p, hl, ?_⟩
    cases p with
    | none => exact hdefault
    | some b =>
      refine ⟨kept_writer hmode, some b, hl, kept_writer hmode, ⟨none, hmode⟩, kept_writer rfl,
        ⟨some b, hl⟩, hfinish rfl (hsettled _ _ hl) rfl ?_⟩
      rintro _ _ ⟨⟩
      exact nofun

theorem initLibrary_safe (progname : CStr) {attr : Option Nat} {next : Code} (h : Ready attr l)
    (hnext : ∀ l', Ready attr l' → Safe strict next l') :
    Safe strict (initLibrary progname attr next) l := by
  refine ⟨kept_settled h.settled, fun initDone => ?_⟩
  cases initDone with
  | true => exact hnext l h
  | false =>
    refine ⟨kept_settled h.settled, h.out, fun p hdisjoint => ?_⟩
    refine ⟨kept_writer rfl, p, .inr rfl, ?_⟩
    cases p with
    | none => exact assign_safe progname rfl (h.settled.mono Set.subset_union_left _) h.object hnext
    | some b =>
      have hleft : l.blocks ⊆ (l.blocks ∪ pointee (some b)) \ pointee (some b) :=
        fun x hx => ⟨.inl hx, fun hxb => Set.disjoint_left.mp hdisjoint hxb hx⟩
      exact ⟨kept_writer rfl, some b, .inr rfl, kept_writer rfl, Set.subset_union_right,
        kept_writer rfl, ⟨some b, rfl⟩,
        assign_safe progname rfl (h.settled.mono hleft _) h.object hnext⟩

end safe

theorem entry_ready {object : Option Nat} {p : Pointer} : Ready object (entry object p) where
  out := rfl
  settled a q hq := by
    obtain ⟨_, -, heq⟩ := Option.map_eq_some_iff.mp hq
    cases heq
    exact subset_rfl
  object := by
    cases object <;> rfl

theorem calls_verified (progname : CStr) : (calls progname).Verified := by
  intro call p _
  have hready : Ready call.object (entry call.object p) := entry_ready
  have hdone : ∀ {strict : Bool} {attr : Option Nat} (l : Local), Ready attr l →
      Safe strict .done l := fun l hl => ⟨hl.out, hl.settled⟩
  cases call with
  | attrInit => exact ⟨kept_settled hready.settled, fun a => hdone _ hready⟩
  | attrSetIdent attr =>
    refine strdup_safe (fun blocks hblocks => kept_settled (hready.settled.mono hblocks _)) nofun
      ⟨kept_settled hready.settled, ⟨p, rfl⟩, rfl, ?_⟩ fun b hb => ?_
    · rintro _ _ ⟨⟩
      exact nofun
    · refine ⟨kept_settled (hready.settled.mono (Set.subset_insert b _) _), ⟨p, rfl⟩, rfl, ?_⟩
      rintro _ _ ⟨⟩ _ ⟨⟩
      exact Set.mem_insert b _
  | attrDestroy attr =>
    refine ⟨nofun, p, rfl, ?_⟩
    cases p with
    | none => exact ⟨nofun, ⟨none, rfl⟩, rfl, nofun⟩
    | some b => exact ⟨nofun, some b, rfl, nofun, subset_rfl, nofun, ⟨some b, rfl⟩, rfl, nofun⟩
  | init attr =>
    exact ⟨kept_settled hready.settled, initLibrary_safe progname hready hdone⟩
  | write =>
    refine initLibrary_safe progname hready fun l hl => ?_
    have hkept : ∀ mode, Local.Kept (!(calls progname).ends .write) { l with mode := mode } :=
      fun mode => kept_settled (hl.settled.mono subset_rfl mode)
    refine ⟨hkept l.mode, hl.out, fun q => ⟨hkept _, q, .inl rfl, ?_⟩⟩
    have hunlock : Safe (!(calls progname).ends .write) (.unlock .done)
        { l with mode := .reader q } :=
      ⟨hkept _, .inl ⟨q, rfl, rfl, hl.settled.mono subset_rfl _⟩⟩
    cases q with
    | none => exact hunlock
    | some b => exact ⟨hkept _, ⟨b, rfl, .inl rfl⟩, hunlock⟩
  | mdc => exact initLibrary_safe progname hready hdone

/-- In every state of every run: no step frees a block twice or touches one that is
freed; while nobody holds the write lock or is inside `mdclog_attr_destroy`, all identities
that are held are live and distinct; and while a `mdclog_write` holds its read lock, it
formats the configured identity, which no step replaces or frees. -/
theorem identities_safe {T : Type} [DecidableEq T] {progname : CStr}
    {labels : List (Label T Call)} {s : State T Call}
    (hrun : (machine (calls progname) T).Run (disciplined (calls progname)) labels s) :
    (∀ t, ¬Faults s t) ∧
    (s.writer = none → (∀ t attr code, s.thread t ≠ .running (.attrDestroy attr) code) →
      Sound (Holds s) fun b => s.life b = .live) ∧
    ∀ t ∈ s.readers,
      (∀ call p next, s.thread t = .running call (.access p next) → s.shared = p) ∧
      ∀ label s', disciplined (calls progname) s label → step (calls progname) s label = some s' →
        s'.shared = s.shared ∧ ∀ b, s.shared = some b → s'.life b = .live := by
  obtain ⟨locals, hfits⟩ := run_fits (calls_verified progname) hrun
  refine ⟨hfits.not_faults, fun hwriter hdestroy => hfits.valid hwriter ?_, fun t ht => ⟨?_, ?_⟩⟩
  · intro t call code hthread
    cases call with
    | attrDestroy attr => exact absurd hthread (hdestroy t attr code)
    | attrInit | attrSetIdent attr | init attr | write | mdc => rfl
  · exact fun call p next hrunning => hfits.reader_access ht hrunning
  · exact fun label s' hmay hstep => hfits.reader_kept (calls_verified progname) ht hmay hstep

/-- One thread configures an identity, another formats it. -/
def configuredWrite : List (Label Bool Call) :=
  let advance (t : Bool) (count : Nat) : List (Label Bool Call) :=
    .replicate count (.advance t none)
  [.start false .attrInit, .advance false (some 0), .finish false,
    .start false (.attrSetIdent 0), .advance false (some 7)] ++ advance false 2 ++
  [.finish false, .start false (.init (some 0))] ++ advance false 10 ++
  [.finish false, .start true .write] ++ advance true 3

theorem identities_safe_write :
    ∃ s : State Bool Call,
      (machine (calls (.ofString "prog")) Bool).Run (disciplined (calls (.ofString "prog")))
        configuredWrite s ∧
      s.shared = some 7 ∧ true ∈ s.readers ∧ (∀ t, ¬Faults s t) ∧
      ∀ label s', disciplined (calls (.ofString "prog")) s label →
        step (calls (.ofString "prog")) s label = some s' →
        s'.shared = some 7 ∧ s'.life 7 = .live := by
  have hexec : (configuredWrite.foldlM
      (fun s label => if disciplined (calls (.ofString "prog")) s label then
        (machine (calls (.ofString "prog")) Bool).step s label else none)
      (machine (calls (.ofString "prog")) Bool).init).map
        (fun s => (s.shared, decide (true ∈ s.readers))) = some (some 7, true) := by
    decide +kernel
  obtain ⟨s, hexec, hstate⟩ := Option.map_eq_some_iff.mp hexec
  simp only [Prod.mk.injEq, decide_eq_true_eq] at hstate
  obtain ⟨hshared, hreader⟩ := hstate
  have hrun := Machine.Run.of_steps hexec
  obtain ⟨hsafe, -, hkept⟩ := identities_safe hrun
  refine ⟨s, hrun, hshared, hreader, hsafe, fun label s' hmay hstep => ?_⟩
  obtain ⟨hsame, hlive⟩ := (hkept true hreader).2 label s' hmay hstep
  exact ⟨hsame.trans hshared, hlive 7 hshared⟩

/-- `config_mutex` never blocks the library for good: while a thread is in a call some
thread can take a step of its call, without new calls every run comes to its end, and
when no thread is in a call the lock is free. -/
theorem calls_return {T : Type} [DecidableEq T] {progname : CStr}
    {labels : List (Label T Call)} {s : State T Call}
    (hrun : (machine (calls progname) T).Run (disciplined (calls progname)) labels s) :
    (∀ t, s.thread t ≠ .idle → ∃ s', Goes (calls progname) s s') ∧
    Acc (fun s' s => Goes (calls progname) s s') s ∧
    ((∀ t, s.thread t = .idle) → s.writer = none ∧ s.readers = ∅) := by
  obtain ⟨locals, hfits⟩ := run_fits (calls_verified progname) hrun
  obtain ⟨busy, hbusy⟩ := run_busy hrun
  exact ⟨fun t ht => hfits.progress ht, acc_goes hbusy, hfits.unlocked⟩

/-- A call of `mdclog_init` waits while another thread formats its entry. -/
def waitingInit : List (Label Bool Call) :=
  configuredWrite ++ [.start false (.init none), .advance false none, .advance false none]

theorem calls_return_waiting :
    ∃ s : State Bool Call,
      (machine (calls (.ofString "prog")) Bool).Run (disciplined (calls (.ofString "prog")))
        waitingInit s ∧
      true ∈ s.readers ∧ step (calls (.ofString "prog")) s (.advance false none) = none ∧
      (∃ s', Goes (calls (.ofString "prog")) s s') ∧
      Acc (fun s' s => Goes (calls (.ofString "prog")) s s') s := by
  have hexec : (waitingInit.foldlM
      (fun s label => if disciplined (calls (.ofString "prog")) s label then
        (machine (calls (.ofString "prog")) Bool).step s label else none)
      (machine (calls (.ofString "prog")) Bool).init).map
        (fun s => (decide (true ∈ s.readers),
          (step (calls (.ofString "prog")) s (.advance false none)).isNone,
          match s.thread false with | .idle => true | .running _ _ => false)) =
        some (true, true, false) := by
    decide +kernel
  obtain ⟨s, hexec, hstate⟩ := Option.map_eq_some_iff.mp hexec
  simp only [Prod.mk.injEq, decide_eq_true_eq, Option.isNone_iff_eq_none] at hstate
  obtain ⟨hreader, hwaits, hbusy⟩ := hstate
  have hrun := Machine.Run.of_steps hexec
  obtain ⟨hgoes, hends, -⟩ := calls_return hrun
  refine ⟨s, hrun, hreader, hwaits, hgoes false fun hidle => ?_, hends⟩
  rw [hidle] at hbusy
  cases hbusy

end Mdclog.IdentityHeap
