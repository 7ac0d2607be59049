import Mathlib.Data.Set.Finite.Basic
import Mathlib.Logic.Relation
import Mdclog.Foundation.HeapTrace

/-! Threads that run programs on one heap, one command at a time in any order.
Every block remembers the thread that allocated it; no command looks at that. -/
namespace Foundation.Interleaving
open HeapProgram

/-- A heap with the owner of each block. -/
abbrev TaggedHeap (T B : Type) := Addr → Option (T × B)

def plain (heap : TaggedHeap T B) : Heap B := fun a => (heap a).map Prod.snd

/-- The blocks of one thread. -/
def owned [DecidableEq T] (t : T) (heap : TaggedHeap T B) : Heap B := fun a =>
  (heap a).bind fun block => if block.1 = t then some block.2 else none

/-- The heap after a command of thread `t`: a new block belongs to `t`. -/
def retag (t : T) (heap : TaggedHeap T B) (new : Heap B) : TaggedHeap T B := fun a =>
  (new a).map fun block => (((heap a).map Prod.fst).getD t, block)

/-- A finished call with the thread's own memory before and after it. -/
structure Record (B Call Result : Type) where
  call : Call
  result : Result
  before : Memory B
  after : Memory B

structure Running (B Call Result : Type) where
  call : Call
  before : Memory B
  rest : Prog B Result

/-- `freed` holds what the running or latest call has freed. -/
structure Thread (B Call Result : Type) where
  slot : Pointer
  freed : List Addr
  running : Option (Running B Call Result)
  history : List (Record B Call Result)

structure Config (T B Call Result : Type) where
  heap : TaggedHeap T B
  thread : T → Thread B Call Result

def Config.initial : Config T B Call Result := ⟨fun _ => none, fun _ => ⟨none, [], none, []⟩⟩

variable {T B Call Result : Type} [DecidableEq T]

/-- What the commands of a thread see. -/
def Config.view (G : Config T B Call Result) (t : T) : Memory B :=
  ⟨plain G.heap, (G.thread t).slot, (G.thread t).freed⟩

/-- The thread's own part of it. -/
def Config.part (G : Config T B Call Result) (t : T) : Memory B :=
  ⟨owned t G.heap, (G.thread t).slot, (G.thread t).freed⟩

def Config.setThread (G : Config T B Call Result) (t : T) (thread : Thread B Call Result) :
    Config T B Call Result :=
  { G with thread := Function.update G.thread t thread }

/-- One step of thread `t`: it starts a call it may make, runs one command of
it, turns a loop, or returns. -/
inductive Step (fails : Prop) (prog : Call → Prog B Result)
    (may : List (Record B Call Result) → Call → Prop) (G : Config T B Call Result) (t : T) :
    Config T B Call Result → Prop
  | call (call : Call) (hidle : (G.thread t).running = none)
      (hmay : may (G.thread t).history call) :
      Step fails prog may G t (G.setThread t { G.thread t with
        freed := []
        running := some ⟨call, { G.part t with freed := [] }, prog call⟩ })
  | act {β : Type} {run : Running B Call Result} {c : Cmd B β} {next : β → Prog B Result}
      {choice : Pointer} {result : β} {s : Memory B}
      (hrun : (G.thread t).running = some run) (hrest : run.rest = .act c next)
      (hlegal : c.Legal fails (plain G.heap) choice)
      (hexec : c.exec choice (G.view t) = some (result, s)) :
      Step fails prog may G t { heap := retag t G.heap s.heap
                                thread := Function.update G.thread t { G.thread t with
                                  slot := s.slot
                                  freed := s.freed
                                  running := some { run with rest := next result } } }
  | unroll {β σ : Type} {run : Running B Call Result} {body : σ → Prog B (σ ⊕ β)} {state : σ}
      {next : β → Prog B Result} (hrun : (G.thread t).running = some run)
      (hrest : run.rest = .iter body state next) :
      Step fails prog may G t (G.setThread t { G.thread t with
        running := some { run with rest := .unroll body state next } })
  | ret {run : Running B Call Result} {result : Result}
      (hrun : (G.thread t).running = some run) (hrest : run.rest = .ret result) :
      Step fails prog may G t (G.setThread t { G.thread t with
        running := none
        history := (G.thread t).history ++ [⟨run.call, result, run.before, G.part t⟩] })

/-- Some thread makes a step. -/
def Moves (fails : Prop) (prog : Call → Prog B Result)
    (may : List (Record B Call Result) → Call → Prop) (G G' : Config T B Call Result) : Prop :=
  ∃ t, Step fails prog may G t G'

def Reachable (fails : Prop) (prog : Call → Prog B Result)
    (may : List (Record B Call Result) → Call → Prop) (G : Config T B Call Result) : Prop :=
  Relation.ReflTransGen (Moves fails prog may) Config.initial G

/-- The next command of thread `t` can fault. -/
def Faults (fails : Prop) (G : Config T B Call Result) (t : T) : Prop :=
  ∃ (run : Running B Call Result) (β : Type) (c : Cmd B β) (next : β → Prog B Result)
    (choice : Pointer), (G.thread t).running = some run ∧ run.rest = .act c next ∧
      c.Legal fails (plain G.heap) choice ∧ c.exec choice (G.view t) = none

/-! Locality: a command that is safe on the thread's own part does there what it
does on the whole heap. -/

section locality
variable {heap : TaggedHeap T B} {t u : T} {a : Addr}

theorem plain_of_owned {block : B} (h : owned t heap a = some block) :
    heap a = some (t, block) := by
  unfold owned at h
  cases hblock : heap a with
  | none => simp [hblock] at h
  | some tagged =>
    rw [hblock, Option.bind_some] at h
    split at h
    · rename_i heq
      rw [Option.some.injEq] at h
      subst heq h
      rfl
    · simp at h

theorem owned_of_dead (h : plain heap a = none) : owned t heap a = none := by
  simp only [plain, Option.map_eq_none_iff] at h
  simp [owned, h]

omit [DecidableEq T] in
/-- A block that is free or belongs to `t` changes. -/
theorem retag_update (hmine : ∀ block, heap a = some block → block.1 = t) (new : Option B) :
    retag t heap (Function.update (plain heap) a new) =
      Function.update heap a (new.map fun block => (t, block)) := by
  funext c
  by_cases hc : c = a
  · subst hc
    simp only [retag, Function.update_self]
    cases hblock : heap c with
    | none => simp
    | some block => simp [hmine block hblock]
  · simp only [retag, Function.update_of_ne hc, plain]
    cases heap c <;> simp

omit [DecidableEq T] in
theorem retag_plain : retag t heap (plain heap) = heap := by
  funext c
  simp only [retag, plain]
  cases heap c <;> simp

theorem owned_update_self (new : Option B) :
    owned t (Function.update heap a (new.map fun block => (t, block))) =
      Function.update (owned t heap) a new := by
  funext c
  by_cases hc : c = a
  · subst hc
    cases new <;> simp [owned]
  · simp [owned, hc]

theorem owned_update_other (hne : u ≠ t) (hmine : ∀ block, heap a = some block → block.1 = t)
    (new : Option B) :
    owned u (Function.update heap a (new.map fun block => (t, block))) = owned u heap := by
  funext c
  by_cases hc : c = a
  · subst hc
    simp only [owned, Function.update_self]
    cases hblock : heap c with
    | none => cases new <;> simp [hne.symm]
    | some block =>
      have := hmine block hblock
      cases new <;> simp [this, hne.symm]
  · simp [owned, hc]

/-- The outcome of a command on the whole heap agrees with its outcome on the
thread's own part, and the parts of the others stay. -/
structure Local (t : T) (heap : TaggedHeap T B) (part whole : Memory B) : Prop where
  slot : whole.slot = part.slot
  freed : whole.freed = part.freed
  own : owned t (retag t heap whole.heap) = part.heap
  others : ∀ u, u ≠ t → owned u (retag t heap whole.heap) = owned u heap

theorem Local.update (hmine : ∀ block, heap a = some block → block.1 = t) (new : Option B)
    (slot : Pointer) (freed : List Addr) :
    Local t heap ⟨Function.update (owned t heap) a new, slot, freed⟩
      ⟨Function.update (plain heap) a new, slot, freed⟩ := by
  refine ⟨rfl, rfl, ?_, fun u hu => ?_⟩
  · rw [retag_update hmine, owned_update_self]
  · rw [retag_update hmine, owned_update_other hu hmine]

theorem Local.same (slot : Pointer) (freed : List Addr) :
    Local t heap ⟨owned t heap, slot, freed⟩ ⟨plain heap, slot, freed⟩ := by
  refine ⟨rfl, rfl, ?_, fun u _ => ?_⟩ <;> rw [retag_plain]

theorem legal_owned {c : Cmd B β} {fails : Prop} {choice : Pointer}
    (h : c.Legal fails (plain heap) choice) : c.Legal fails (owned t heap) choice := by
  cases c with
  | malloc block =>
    cases choice with
    | none => exact h
    | some a => exact owned_of_dead h
  | trySlot p =>
    cases choice with
    | none => exact h
    | some a => exact owned_of_dead h
  | _ => exact h

theorem exec_local {c : Cmd B β} {fails : Prop} {choice : Pointer} {slot : Pointer}
    {freed : List Addr} {result : β} {s : Memory B}
    (hlegal : c.Legal fails (plain heap) choice)
    (h : c.exec choice ⟨owned t heap, slot, freed⟩ = some (result, s)) :
    ∃ s', c.exec choice ⟨plain heap, slot, freed⟩ = some (result, s') ∧ Local t heap s s' := by
  have hlive : ∀ {a block}, owned t heap a = some block → plain heap a = some block ∧
      ∀ tagged, heap a = some tagged → tagged.1 = t := by
    intro a block hown
    have hheap := plain_of_owned hown
    exact ⟨by simp [plain, hheap], fun tagged htagged => by
      rw [hheap, Option.some.injEq] at htagged
      rw [← htagged]⟩
  cases c with
  | malloc block =>
    cases choice with
    | none =>
      cases h
      exact ⟨_, rfl, .same slot freed⟩
    | some a =>
      cases h
      refine ⟨_, rfl, .update (fun tagged htagged => ?_) _ slot freed⟩
      simp [Cmd.Legal, plain, htagged] at hlegal
  | load p field =>
    simp only [Cmd.exec, Option.bind_eq_bind, Option.bind_eq_some_iff] at h
    obtain ⟨a, rfl, block, hown, value, hfield, hs⟩ := h
    cases hs
    refine ⟨⟨plain heap, slot, freed⟩, ?_, .same slot freed⟩
    simp [Cmd.exec, (hlive hown).1, hfield]
  | store p field =>
    simp only [Cmd.exec, Option.bind_eq_bind, Option.bind_eq_some_iff] at h
    obtain ⟨a, rfl, block, hown, block', hfield, hs⟩ := h
    cases hs
    refine ⟨⟨Function.update (plain heap) a (some block'), slot, freed⟩, ?_,
      .update (hlive hown).2 _ slot freed⟩
    simp [Cmd.exec, (hlive hown).1, hfield, Memory.set]
  | free p =>
    cases p with
    | none =>
      cases h
      exact ⟨_, rfl, .same slot freed⟩
    | some a =>
      simp only [Cmd.exec, Option.bind_eq_bind, Option.bind_eq_some_iff] at h
      obtain ⟨block, hown, hs⟩ := h
      cases hs
      refine ⟨⟨Function.update (plain heap) a none, slot, a :: freed⟩, ?_,
        .update (hlive hown).2 _ slot (a :: freed)⟩
      simp [Cmd.exec, (hlive hown).1, Memory.release, Memory.set]
  | getSlot =>
    cases h
    exact ⟨_, rfl, .same slot freed⟩
  | setSlot p =>
    cases h
    exact ⟨_, rfl, .same p freed⟩
  | trySlot p =>
    cases choice with
    | none =>
      cases h
      exact ⟨_, rfl, .same slot freed⟩
    | some a =>
      cases h
      exact ⟨_, rfl, .same p freed⟩

end locality

/-! What holds of every run. `Good history s` is what the calls in `history`
have made of the memory `s` of their thread. -/

section runs
variable {fails : Prop} {prog : Call → Prog B Result}
  {may : List (Record B Call Result) → Call → Prop} {inv : Memory B → Prop}
  {Good : List (Record B Call Result) → Memory B → Prop}

/-- The local obligations: each call, run alone on the memory of its thread,
is safe, ends, and extends the history. -/
structure Contract (fails : Prop) (prog : Call → Prog B Result)
    (may : List (Record B Call Result) → Call → Prop) (inv : Memory B → Prop)
    (Good : List (Record B Call Result) → Memory B → Prop) : Prop where
  start : Good [] ⟨fun _ => none, none, []⟩
  good_inv : ∀ history s, Good history s → inv s
  call : ∀ history s call, Good history s → may history call →
    WP fails inv (fun result s' =>
        Good (history ++ [⟨call, result, { s with freed := [] }, s'⟩]) s')
      (prog call) { s with freed := [] }

/-- Between calls the history is good, within one the rest of it will keep it so. -/
def Sound (fails : Prop) (inv : Memory B → Prop)
    (Good : List (Record B Call Result) → Memory B → Prop) (thread : Thread B Call Result)
    (part : Memory B) : Prop :=
  match thread.running with
  | none => Good thread.history part
  | some run => WP fails inv (fun result s' =>
      Good (thread.history ++ [⟨run.call, result, run.before, s'⟩]) s') run.rest part

theorem Sound.idle {thread : Thread B Call Result} {part : Memory B}
    (h : Sound fails inv Good thread part) (hidle : thread.running = none) :
    Good thread.history part := by
  simpa only [Sound, hidle] using h

theorem Sound.busy {thread : Thread B Call Result} {part : Memory B}
    {run : Running B Call Result} (h : Sound fails inv Good thread part)
    (hrun : thread.running = some run) :
    WP fails inv (fun result s' =>
      Good (thread.history ++ [⟨run.call, result, run.before, s'⟩]) s') run.rest part := by
  simpa only [Sound, hrun] using h

theorem Sound.part_inv (hcontract : Contract fails prog may inv Good)
    {thread : Thread B Call Result} {part : Memory B} (h : Sound fails inv Good thread part) :
    inv part := by
  cases hrun : thread.running with
  | none => exact hcontract.good_inv _ _ (h.idle hrun)
  | some run => exact (h.busy hrun).step_inv

variable {G G' : Config T B Call Result} {t : T}

@[simp] theorem Config.setThread_self (thread : Thread B Call Result) :
    (G.setThread t thread).thread t = thread := by
  simp [Config.setThread]

theorem Config.setThread_other (thread : Thread B Call Result) {u : T} (hu : u ≠ t) :
    (G.setThread t thread).thread u = G.thread u := by
  simp [Config.setThread, hu]

/-- What a command does to the own part of its thread. -/
theorem Sound.command {run : Running B Call Result} {c : Cmd B β} {next : β → Prog B Result}
    {choice : Pointer} (h : Sound fails inv Good (G.thread t) (G.part t))
    (hrun : (G.thread t).running = some run) (hrest : run.rest = .act c next)
    (hlegal : c.Legal fails (plain G.heap) choice) :
    ∃ result s s', c.exec choice (G.part t) = some (result, s) ∧
      c.exec choice (G.view t) = some (result, s') ∧ Local t G.heap s s' ∧
      WP fails inv (fun result s' =>
        Good ((G.thread t).history ++ [⟨run.call, result, run.before, s'⟩]) s')
        (next result) s := by
  have hwp := h.busy hrun
  rw [hrest] at hwp
  have hown : c.Legal fails (G.part t).heap choice := legal_owned hlegal
  obtain ⟨⟨result, s⟩, hexec⟩ := Option.isSome_iff_exists.mp (hwp.act_safe hown)
  obtain ⟨s', hexec', hlocal⟩ := exec_local hlegal hexec
  exact ⟨result, s, s', hexec, hexec', hlocal, hwp.act_next hown hexec⟩

/-- A step of a thread keeps it sound and leaves the other threads alone. -/
theorem Sound.step (hcontract : Contract fails prog may inv Good)
    (h : Sound fails inv Good (G.thread t) (G.part t)) (hstep : Step fails prog may G t G') :
    Sound fails inv Good (G'.thread t) (G'.part t) ∧
      ∀ u, u ≠ t → G'.thread u = G.thread u ∧ owned u G'.heap = owned u G.heap := by
  cases hstep with
  | call call hidle hmay =>
    refine ⟨?_, fun u hu => ⟨Config.setThread_other _ hu, rfl⟩⟩
    have hpart : ∀ thread, (G.setThread t thread).part t =
        ⟨owned t G.heap, thread.slot, thread.freed⟩ := fun thread => by
      simp [Config.part, Config.setThread]
    rw [hpart, Config.setThread_self]
    exact hcontract.call _ _ call (h.idle hidle) hmay
  | act hrun hrest hlegal hexec =>
    obtain ⟨result', s, s', -, hexec', hlocal, hnext⟩ := h.command hrun hrest hlegal
    rw [hexec', Option.some.injEq, Prod.mk.injEq] at hexec
    obtain ⟨rfl, rfl⟩ := hexec
    refine ⟨?_, fun u hu => ⟨Function.update_of_ne hu _ _, hlocal.others u hu⟩⟩
    simp only [Sound, Config.part, Function.update_self, hlocal.slot, hlocal.freed, hlocal.own]
    exact hnext
  | unroll hrun hrest =>
    refine ⟨?_, fun u hu => ⟨Config.setThread_other _ hu, rfl⟩⟩
    have hwp := h.busy hrun
    rw [hrest] at hwp
    simp only [Sound, Config.part, Config.setThread_self]
    exact hwp.iter_next
  | ret hrun hrest =>
    refine ⟨?_, fun u hu => ⟨Config.setThread_other _ hu, rfl⟩⟩
    have hwp := h.busy hrun
    rw [hrest] at hwp
    simp only [Sound, Config.part, Config.setThread_self]
    exact hwp.ret_post

/-- Every thread of a reachable configuration is sound. -/
theorem reachable_sound (hcontract : Contract fails prog may inv Good)
    (h : Reachable fails prog may G) (t : T) : Sound fails inv Good (G.thread t) (G.part t) := by
  induction h generalizing t with
  | refl => exact hcontract.start
  | tail _ hmove ih =>
    obtain ⟨u, hstep⟩ := hmove
    obtain ⟨hself, hothers⟩ := (ih u).step hcontract hstep
    by_cases ht : t = u
    · rw [ht]
      exact hself
    · have hsound := ih t
      unfold Config.part at hsound ⊢
      rwa [(hothers t ht).1, (hothers t ht).2]

theorem reachable_safe (hcontract : Contract fails prog may inv Good)
    (h : Reachable fails prog may G) (t : T) : ¬Faults fails G t := by
  rintro ⟨run, β, c, next, choice, hrun, hrest, hlegal, hexec⟩
  obtain ⟨result, s, s', -, hexec', -⟩ :=
    (reachable_sound hcontract h t).command hrun hrest hlegal
  rw [hexec] at hexec'
  simp at hexec'

/-! A thread alone. -/

/-- What is left when all other threads are taken away. -/
def Config.solo (G : Config T B Call Result) (t : T) : Config Unit B Call Result :=
  ⟨fun a => (owned t G.heap a).map fun block => ((), block), fun _ => G.thread t⟩

theorem owned_solo : owned () (G.solo t).heap = owned t G.heap := by
  funext a
  simp only [Config.solo, owned]
  cases (G.heap a).bind fun block => if block.1 = t then some block.2 else none <;> rfl

theorem plain_solo : plain (G.solo t).heap = owned t G.heap := by
  funext a
  simp only [Config.solo, plain]
  cases owned t G.heap a <;> rfl

theorem part_solo : (G.solo t).part () = G.part t := by
  unfold Config.part
  rw [owned_solo]
  rfl

theorem view_solo : (G.solo t).view () = G.part t := by
  unfold Config.view
  rw [plain_solo]
  rfl

theorem solo_ext {S : Config Unit B Call Result} (hheap : plain S.heap = owned t G.heap)
    (hthread : S.thread () = G.thread t) : S = G.solo t := by
  obtain ⟨heap, thread⟩ := S
  have hheap' : heap = (G.solo t).heap := by
    funext a
    have ha := congrFun hheap a
    simp only [Config.solo, ← ha, plain]
    cases heap a <;> rfl
  have hthread' : thread = (G.solo t).thread := by
    funext u
    exact hthread
  rw [hheap', hthread']

/-- A step of the thread is a step it can make alone. -/
theorem Sound.solo_step (h : Sound fails inv Good (G.thread t) (G.part t))
    (hstep : Step fails prog may G t G') : Step fails prog may (G.solo t) () (G'.solo t) := by
  have hset : ∀ thread : Thread B Call Result,
      (G.setThread t thread).solo t = (G.solo t).setThread () thread := by
    intro thread
    refine (solo_ext ?_ ?_).symm
    · exact plain_solo
    · simp
  cases hstep with
  | call call hidle hmay =>
    rw [hset, ← part_solo]
    exact .call call hidle hmay
  | act hrun hrest hlegal hexec =>
    obtain ⟨result', s, s', hexec₁, hexec₂, hlocal, -⟩ := h.command hrun hrest hlegal
    rw [hexec₂, Option.some.injEq, Prod.mk.injEq] at hexec
    obtain ⟨rfl, rfl⟩ := hexec
    rw [← view_solo] at hexec₁
    have hlegal' := legal_owned (t := t) hlegal
    rw [← plain_solo] at hlegal'
    have hsolo : Step fails prog may (G.solo t) () _ := .act hrun hrest hlegal' hexec₁
    convert hsolo using 1
    refine (solo_ext ?_ ?_).symm
    · rw [hlocal.own]
      funext a
      simp only [plain, retag]
      cases s.heap a <;> rfl
    · simp only [Function.update_self, hlocal.slot, hlocal.freed]
      rfl
  | unroll hrun hrest =>
    rw [hset]
    exact .unroll hrun hrest
  | ret hrun hrest =>
    rw [hset, ← part_solo]
    exact .ret hrun hrest

/-- Whatever a thread does among others it can do alone, with the same results. -/
theorem reachable_solo (hcontract : Contract fails prog may inv Good)
    (h : Reachable fails prog may G) (t : T) : Reachable fails prog may (G.solo t) := by
  induction h with
  | refl => exact .refl
  | tail hreach hmove ih =>
    obtain ⟨u, hstep⟩ := hmove
    have hsound := reachable_sound hcontract hreach
    by_cases hu : t = u
    · subst hu
      exact ih.tail ⟨(), (hsound t).solo_step hstep⟩
    · obtain ⟨hthread, hheap⟩ := ((hsound u).step hcontract hstep).2 t hu
      convert ih using 1
      exact (solo_ext (plain_solo.trans hheap.symm) hthread.symm).symm

/-! Calls return. -/

/-- A step of thread `t` inside a call. -/
def Works (fails : Prop) (prog : Call → Prog B Result)
    (may : List (Record B Call Result) → Call → Prop) (t : T) (G G' : Config T B Call Result) :
    Prop :=
  (G.thread t).running ≠ none ∧ Step fails prog may G t G'

/-- The step that a running thread makes next. -/
theorem Step.next {run : Running B Call Result} (hrun : (G.thread t).running = some run)
    (h : Step fails prog may G t G') :
    match run.rest with
    | .ret _ => (G'.thread t).running = none
    | .act c next => ∃ choice result s, c.Legal fails (plain G.heap) choice ∧
        c.exec choice (G.view t) = some (result, s) ∧
        (G'.thread t).running = some { run with rest := next result } ∧
        G'.heap = retag t G.heap s.heap ∧ (G'.thread t).slot = s.slot ∧
        (G'.thread t).freed = s.freed
    | .iter body state next =>
        (G'.thread t).running = some { run with rest := .unroll body state next } ∧
        G'.part t = G.part t := by
  cases h with
  | call call hidle hmay =>
    rw [hidle] at hrun
    simp at hrun
  | act hrun' hrest hlegal hexec =>
    rw [hrun', Option.some.injEq] at hrun
    subst hrun
    rw [hrest]
    exact ⟨_, _, _, hlegal, hexec, by simp⟩
  | unroll hrun' hrest =>
    rw [hrun', Option.some.injEq] at hrun
    subst hrun
    rw [hrest]
    exact ⟨by simp, by simp [Config.part, Config.setThread]⟩
  | ret hrun' hrest =>
    rw [hrun', Option.some.injEq] at hrun
    subst hrun
    rw [hrest]
    simp

/-- A call in progress has finitely many steps left. -/
theorem halts_of_wp {post : Result → Memory B → Prop} {p : Prog B Result} {s : Memory B}
    (h : WP fails inv post p s) : ∀ (G : Config T B Call Result) (run : Running B Call Result),
    (G.thread t).running = some run → run.rest = p → G.part t = s →
    Acc (fun G' G => Works fails prog may t G G') G := by
  induction h with
  | ret hinv hvalue =>
    intro G run hrun hrest hpart
    refine ⟨_, fun G' hwork => ⟨_, fun G'' hwork' => absurd ?_ hwork'.1⟩⟩
    have hnext := hwork.2.next hrun
    rwa [hrest] at hnext
  | act hinv hsafe hnext ih =>
    intro G run hrun hrest hpart
    refine ⟨_, fun G' hwork => ?_⟩
    have hstep := hwork.2.next hrun
    rw [hrest] at hstep
    obtain ⟨choice, result, s', hlegal, hexec, hrun', hheap, hslot, hfreed⟩ := hstep
    have hown := legal_owned (t := t) hlegal
    have hheap₀ : owned t G.heap = (G.part t).heap := rfl
    rw [hheap₀, hpart] at hown
    obtain ⟨⟨result₁, s₁⟩, hexec₁⟩ := Option.isSome_iff_exists.mp (hsafe choice hown)
    have hexec₂ := hexec₁
    rw [← hpart] at hexec₂
    obtain ⟨s₂, hexec₃, hlocal⟩ := exec_local hlegal hexec₂
    rw [show (⟨plain G.heap, (G.thread t).slot, (G.thread t).freed⟩ : Memory B) = G.view t from rfl,
      hexec, Option.some.injEq, Prod.mk.injEq] at hexec₃
    obtain ⟨rfl, rfl⟩ := hexec₃
    refine ih choice result s₁ hown hexec₁ G' _ hrun' rfl ?_
    unfold Config.part
    rw [hheap, hlocal.own, hslot, hfreed, hlocal.slot, hlocal.freed]
  | iter hinv hnext ih =>
    intro G run hrun hrest hpart
    refine ⟨_, fun G' hwork => ?_⟩
    have hstep := hwork.2.next hrun
    rw [hrest] at hstep
    exact ih G' _ hstep.1 rfl (hstep.2.trans hpart)

theorem reachable_halts (hcontract : Contract fails prog may inv Good)
    (h : Reachable fails prog may G) (t : T) :
    Acc (fun G' G => Works fails prog may t G G') G := by
  cases hrun : (G.thread t).running with
  | none => exact ⟨_, fun G' hwork => absurd hrun hwork.1⟩
  | some run =>
    exact halts_of_wp ((reachable_sound hcontract h t).busy hrun) G run hrun rfl rfl

/-- The live blocks of a heap. -/
def live (heap : Addr → Option α) : Set Addr := {a | (heap a).isSome}

theorem live_update {heap : Addr → Option α} (h : (live heap).Finite) (a : Addr)
    (new : Option α) : (live (Function.update heap a new)).Finite := by
  refine (h.insert a).subset fun c hc => ?_
  by_cases heq : c = a
  · exact .inl heq
  · right
    simpa [live, heq] using hc

theorem live_exec {c : Cmd B β} {choice : Pointer} {s s' : Memory B} {result : β}
    (h : (live s.heap).Finite) (hexec : c.exec choice s = some (result, s')) :
    (live s'.heap).Finite := by
  cases c with
  | malloc block =>
    cases choice with
    | none => cases hexec; exact h
    | some a => cases hexec; exact live_update h a _
  | load p field =>
    simp only [Cmd.exec, Option.bind_eq_bind, Option.bind_eq_some_iff] at hexec
    obtain ⟨a, rfl, block, -, value, -, hs⟩ := hexec
    cases hs
    exact h
  | store p field =>
    simp only [Cmd.exec, Option.bind_eq_bind, Option.bind_eq_some_iff] at hexec
    obtain ⟨a, rfl, block, -, block', -, hs⟩ := hexec
    cases hs
    exact live_update h a _
  | free p =>
    cases p with
    | none => cases hexec; exact h
    | some a =>
      simp only [Cmd.exec, Option.bind_eq_bind, Option.bind_eq_some_iff] at hexec
      obtain ⟨block, -, hs⟩ := hexec
      cases hs
      exact live_update h a _
  | getSlot => cases hexec; exact h
  | setSlot p => cases hexec; exact h
  | trySlot p =>
    cases choice with
    | none => cases hexec; exact h
    | some a => cases hexec; exact h

/-- At every time only finitely many blocks are live. -/
theorem reachable_finite (h : Reachable fails prog may G) : (live (plain G.heap)).Finite := by
  induction h with
  | refl =>
    refine Set.finite_empty.subset fun a ha => ?_
    simp [live, plain, Config.initial] at ha
  | tail _ hmove ih =>
    obtain ⟨u, hstep⟩ := hmove
    cases hstep with
    | act hrun hrest hlegal hexec =>
      refine (live_exec ih hexec).subset fun a ha => ?_
      simpa [live, plain, retag] using ha
    | _ => exact ih

/-- A thread in a call can always go on. -/
theorem reachable_progress (hcontract : Contract fails prog may inv Good)
    (h : Reachable fails prog may G) {run : Running B Call Result}
    (hrun : (G.thread t).running = some run) : ∃ G', Works fails prog may t G G' := by
  have hbusy : (G.thread t).running ≠ none := by simp [hrun]
  cases hrest : run.rest with
  | ret value => exact ⟨_, hbusy, .ret hrun hrest⟩
  | iter body state next => exact ⟨_, hbusy, .unroll hrun hrest⟩
  | act c next =>
    have hchoice : ∃ choice, c.Legal fails (plain G.heap) choice := by
      cases c with
      | malloc block =>
        obtain ⟨a, ha⟩ := (reachable_finite h).infinite_compl.nonempty
        exact ⟨some a, by simpa [live, Cmd.Legal] using ha⟩
      | trySlot p =>
        obtain ⟨a, ha⟩ := (reachable_finite h).infinite_compl.nonempty
        exact ⟨some a, by simpa [live, Cmd.Legal] using ha⟩
      | _ => exact ⟨none, rfl⟩
    obtain ⟨choice, hlegal⟩ := hchoice
    obtain ⟨result, s, s', -, hexec, -⟩ :=
      (reachable_sound hcontract h t).command hrun hrest hlegal
    exact ⟨_, hbusy, .act hrun hrest hlegal hexec⟩

theorem Step.history {run : Running B Call Result} (hrun : (G.thread t).running = some run)
    (h : Step fails prog may G t G') :
    (∃ rest, (G'.thread t).running = some { run with rest := rest } ∧
      (G'.thread t).history = (G.thread t).history) ∨
    (G'.thread t).running = none ∧ ∃ record, record.call = run.call ∧
      (G'.thread t).history = (G.thread t).history ++ [record] := by
  cases h with
  | call call hidle hmay =>
    rw [hidle] at hrun
    simp at hrun
  | @act _ _ _ next _ result _ hrun' hrest hlegal hexec =>
    rw [hrun', Option.some.injEq] at hrun
    subst hrun
    exact .inl ⟨next result, by simp⟩
  | @unroll _ _ _ body state next hrun' hrest =>
    rw [hrun', Option.some.injEq] at hrun
    subst hrun
    exact .inl ⟨.unroll body state next, by simp⟩
  | @ret run' result hrun' hrest =>
    rw [hrun', Option.some.injEq] at hrun
    subst hrun
    exact .inr ⟨by simp, ⟨run'.call, result, run'.before, G.part t⟩, rfl, by simp⟩

/-- A call in progress can be brought to its end. -/
theorem reachable_completes (hcontract : Contract fails prog may inv Good)
    (h : Reachable fails prog may G) {run : Running B Call Result}
    (hrun : (G.thread t).running = some run) :
    ∃ G', Reachable fails prog may G' ∧ (G'.thread t).running = none ∧
      (∃ record, record.call = run.call ∧
        (G'.thread t).history = (G.thread t).history ++ [record]) ∧
      ∀ u, u ≠ t → G'.thread u = G.thread u := by
  have hacc := reachable_halts hcontract h t
  induction hacc generalizing run with
  | intro G _ ih =>
    obtain ⟨G₁, hwork⟩ := reachable_progress hcontract h hrun
    have hreach : Reachable fails prog may G₁ := h.tail ⟨t, hwork.2⟩
    have hothers := ((reachable_sound hcontract h t).step hcontract hwork.2).2
    rcases hwork.2.history hrun with ⟨rest, hrun₁, hhistory⟩ | ⟨hidle, hrecord⟩
    · obtain ⟨G₂, hreach₂, hidle₂, ⟨record, hcall, hhistory₂⟩, hothers₂⟩ :=
        ih G₁ hwork hreach hrun₁
      exact ⟨G₂, hreach₂, hidle₂, ⟨record, hcall, by rw [hhistory₂, hhistory]⟩,
        fun u hu => (hothers₂ u hu).trans (hothers u hu).1⟩
    · exact ⟨G₁, hreach, hidle, hrecord, fun u hu => (hothers u hu).1⟩

/-- Any calls that a thread may make have a run, from wherever it stands. -/
theorem exists_run (hcontract : Contract fails prog may inv Good)
    (h : Reachable fails prog may G) (hidle : (G.thread t).running = none) (calls : List Call)
    (hmay : ∀ (history : List (Record B Call Result)) (call : Call) (later : List Call),
      (G.thread t).history.map Record.call ++ calls =
        history.map Record.call ++ call :: later → may history call) :
    ∃ G' : Config T B Call Result, Reachable fails prog may G' ∧ (G'.thread t).running = none ∧
      (G'.thread t).history.map Record.call = (G.thread t).history.map Record.call ++ calls ∧
      ∀ u, u ≠ t → G'.thread u = G.thread u := by
  induction calls using List.reverseRecOn with
  | nil => exact ⟨G, h, hidle, by simp, fun _ _ => rfl⟩
  | append_singleton calls call ih =>
    obtain ⟨G₁, hreach, hidle₁, hcalls, hothers⟩ := ih fun history next later heq =>
      hmay history next (later ++ [call]) (by
        rw [← List.append_assoc, heq, List.append_assoc, List.cons_append])
    have hstep : Step fails prog may G₁ t _ :=
      .call call hidle₁ (hmay (G₁.thread t).history call [] (by rw [hcalls, List.append_assoc]))
    obtain ⟨G₂, hreach₂, hidle₂, ⟨record, hrecord, hhistory⟩, hothers₂⟩ :=
      reachable_completes hcontract (hreach.tail ⟨t, hstep⟩)
        (congrArg Thread.running (Config.setThread_self _))
    rw [Config.setThread_self] at hhistory
    refine ⟨G₂, hreach₂, hidle₂, ?_, fun u hu => ?_⟩
    · rw [hhistory, List.map_append, hcalls, List.map_singleton, hrecord, List.append_assoc]
    · rw [hothers₂ u hu, Config.setThread_other _ hu, hothers u hu]

omit [DecidableEq T] in
theorem plain_retag {heap : TaggedHeap T B} (new : Heap B) : plain (retag t heap new) = new := by
  funext a
  simp [plain, retag]

/-- A run of the program that a thread has begun is a run of the thread while the others
rest. -/
theorem reachable_run {s s' : Memory B} {p : Prog B Result} {answers : List Bool}
    {result : Result} (hruns : Runs p s answers result s') (h : Reachable True prog may G)
    {run : Running B Call Result} (hrun : (G.thread t).running = some run) (hrest : run.rest = p)
    (hview : G.view t = s) :
    ∃ G', Reachable True prog may G' ∧ (G'.thread t).running = none ∧ G'.view t = s' ∧
      (G'.thread t).history =
        (G.thread t).history ++ [⟨run.call, result, run.before, G'.part t⟩] ∧
      ∀ u, u ≠ t → G'.thread u = G.thread u := by
  induction hruns generalizing G run with
  | @ret result s =>
    refine ⟨_, h.tail ⟨t, .ret hrun hrest⟩, ?_, ?_, ?_, fun u hu =>
      Config.setThread_other _ hu⟩
    · rw [Config.setThread_self]
    · rw [← hview, Config.view, Config.view, Config.setThread_self]
      rfl
    · rw [Config.setThread_self, Config.part, Config.part, Config.setThread_self]
      rfl
  | @act β c next s s₁ s' choice value answers result hlegal hexec hrest' ih =>
    subst hview
    have hstep : Step True prog may G t _ := .act hrun hrest hlegal hexec
    generalize hnext : ({ heap := retag t G.heap s₁.heap, thread := Function.update G.thread t _ } :
      Config T B Call Result) = G₁ at hstep
    have hself : G₁.thread t = { G.thread t with
        slot := s₁.slot
        freed := s₁.freed
        running := some { run with rest := next value } } := by
      rw [← hnext]
      exact Function.update_self ..
    have hview₁ : G₁.view t = s₁ := by
      rw [Config.view, hself, ← hnext, plain_retag]
    obtain ⟨G', hreach, hidle, hview', hhistory, hothers⟩ :=
      ih (h.tail ⟨t, hstep⟩) (congrArg Thread.running hself) rfl hview₁
    refine ⟨G', hreach, hidle, hview', ?_, fun u hu => ?_⟩
    · rw [hhistory, hself]
    · rw [hothers u hu, ← hnext]
      exact Function.update_of_ne hu _ _
  | @iter β σ body state next s s' answers result hrest' ih =>
    obtain ⟨G', hreach, hidle, hview', hhistory, hothers⟩ := ih
      (h.tail ⟨t, .unroll hrun hrest⟩) (congrArg Thread.running (Config.setThread_self _)) rfl (by
        rw [← hview, Config.view, Config.view, Config.setThread_self]
        rfl)
    refine ⟨G', hreach, hidle, hview', ?_, fun u hu => ?_⟩
    · rw [hhistory, Config.setThread_self]
    · rw [hothers u hu, Config.setThread_other _ hu]

/-! All threads in one sequence. -/

/-- The finished calls of all threads in an order that keeps the order of each. -/
def Orders (G : Config T B Call Result) (trace : List (T × Record B Call Result)) : Prop :=
  ∀ t, (trace.filter fun item => item.1 = t).map Prod.snd = (G.thread t).history

theorem Orders.of_history {trace : List (T × Record B Call Result)} (h : Orders G trace)
    (hsame : ∀ u, (G'.thread u).history = (G.thread u).history) : Orders G' trace := by
  intro u
  rw [h u, hsame u]

/-- The order in which the calls returned is one. -/
theorem reachable_orders (h : Reachable fails prog may G) : ∃ trace, Orders G trace := by
  induction h with
  | refl => exact ⟨[], fun t => rfl⟩
  | @tail G G' _ hmove ih =>
    obtain ⟨trace, htrace⟩ := ih
    obtain ⟨t, hstep⟩ := hmove
    have hkeep : ∀ (thread : Thread B Call Result), thread.history = (G.thread t).history →
        ∀ u, (Function.update G.thread t thread u).history = (G.thread u).history := by
      intro thread hthread u
      by_cases hu : u = t
      · rw [hu, Function.update_self, hthread]
      · rw [Function.update_of_ne hu]
    cases hstep with
    | call call hidle hmay => exact ⟨trace, htrace.of_history (hkeep _ rfl)⟩
    | act hrun hrest hlegal hexec => exact ⟨trace, htrace.of_history (hkeep _ rfl)⟩
    | unroll hrun hrest => exact ⟨trace, htrace.of_history (hkeep _ rfl)⟩
    | @ret run result hrun hrest =>
      refine ⟨trace ++ [(t, ⟨run.call, result, run.before, G.part t⟩)], fun u => ?_⟩
      rw [List.filter_append, List.map_append, htrace u]
      by_cases hu : u = t
      · subst hu
        simp
      · rw [Config.setThread_other _ hu]
        simp [Ne.symm hu]

end runs

end Foundation.Interleaving
