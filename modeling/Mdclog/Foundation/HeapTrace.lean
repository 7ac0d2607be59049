import Mdclog.Foundation.HeapProgram

/-! Whole runs of a heap program with the answers its allocator gave. -/
namespace Foundation.HeapProgram

/-- Whether the allocator had memory, for each time it was asked. -/
def Cmd.answers : Cmd B β → Pointer → List Bool
  | .malloc _, choice | .trySlot _, choice => [choice.isSome]
  | _, _ => []

/-- The program runs from `s` to its end in `s'` with `value`; `answers` are what
its allocations got, in order. -/
inductive Runs {B α : Type} : Prog B α → Memory B → List Bool → α → Memory B → Prop
  | ret {value : α} {s : Memory B} : Runs (.ret value) s [] value s
  | act {β : Type} {c : Cmd B β} {next : β → Prog B α} {s s₁ s' : Memory B} {choice : Pointer}
      {result : β} {answers : List Bool} {value : α} (hlegal : c.Legal True s.heap choice)
      (hexec : c.exec choice s = some (result, s₁))
      (hrest : Runs (next result) s₁ answers value s') :
      Runs (.act c next) s (c.answers choice ++ answers) value s'
  | iter {β σ : Type} {body : σ → Prog B (σ ⊕ β)} {state : σ} {next : β → Prog B α}
      {s s' : Memory B} {answers : List Bool} {value : α}
      (hrest : Runs (.unroll body state next) s answers value s') :
      Runs (.iter body state next) s answers value s'

/-- What holds at the end of every run. -/
theorem WP.runs {inv : Memory B → Prop} {post : α → Memory B → Prop} {p : Prog B α}
    {s s' : Memory B} {answers : List Bool} {value : α} (hrun : Runs p s answers value s')
    (h : WP True inv post p s) : post value s' := by
  induction hrun with
  | ret => exact h.ret_post
  | act hlegal hexec _ ih => exact ih (h.act_next hlegal hexec)
  | iter _ ih => exact ih h.iter_next

theorem Cmd.legal_of_answers {c : Cmd B β} {heap : Heap B} {choice : Pointer}
    (hlegal : c.Legal True heap choice) (h : false ∉ c.answers choice) :
    c.Legal False heap choice := by
  cases c with
  | malloc block =>
    cases choice with
    | none => exact absurd (List.mem_singleton.mpr rfl) h
    | some a => exact hlegal
  | trySlot p =>
    cases choice with
    | none => exact absurd (List.mem_singleton.mpr rfl) h
    | some a => exact hlegal
  | _ => exact hlegal

/-- What holds at the end of every run whose allocations succeed. -/
theorem WP.runs_ok {inv : Memory B → Prop} {post : α → Memory B → Prop} {p : Prog B α}
    {s s' : Memory B} {answers : List Bool} {value : α} (hrun : Runs p s answers value s')
    (hok : false ∉ answers) (h : WP False inv post p s) : post value s' := by
  induction hrun with
  | ret => exact h.ret_post
  | act hlegal hexec _ ih =>
    rw [List.mem_append, not_or] at hok
    exact ih hok.2 (h.act_next (Cmd.legal_of_answers hlegal hok.1) hexec)
  | iter _ ih => exact ih hok h.iter_next

/-- A program that always ends does so in a run. -/
theorem WP.with_runs {inv : Memory B → Prop} {post : α → Memory B → Prop} {p : Prog B α}
    {s : Memory B} (h : WP True inv post p s) :
    WP True inv (fun value s' => post value s' ∧ ∃ answers, Runs p s answers value s') p s := by
  induction h with
  | ret hinv hpost => exact .ret hinv ⟨hpost, [], .ret⟩
  | act hinv hsafe _ ih =>
    refine .act hinv hsafe fun choice result s' hlegal hexec => ?_
    refine (ih choice result s' hlegal hexec).post ?_
    rintro value s₁ - ⟨hvalue, answers, hrun⟩
    exact ⟨hvalue, _, .act hlegal hexec hrun⟩
  | iter hinv _ ih =>
    refine .iter hinv (ih.post ?_)
    rintro value s₁ - ⟨hvalue, answers, hrun⟩
    exact ⟨hvalue, answers, .iter hrun⟩

/-- Whatever its allocator answers, the program runs from `s` to its end without a
fault. -/
abbrev Ends (p : Prog B α) (s : Memory B) : Prop := WP True (fun _ => True) (fun _ _ => True) p s

theorem Ends.bind {p : Prog B α} {f : α → Prog B β} {s : Memory B} (h : Ends p s)
    (hf : ∀ answers value s', Runs p s answers value s' → Ends (f value) s') :
    Ends (p >>= f) s := by
  apply WP.bind
  refine h.with_runs.post ?_
  rintro value s' - ⟨-, answers, hrun⟩
  exact hf answers value s' hrun

/-! Inversion: one rule for each way a program is built. -/

section inversion
variable {s s' : Memory B} {answers : List Bool}

theorem Runs.of_pure {value result : α} (h : Runs (pure value : Prog B α) s answers result s') :
    answers = [] ∧ result = value ∧ s' = s := by
  change Runs (.ret value) s answers result s' at h
  cases h
  exact ⟨rfl, rfl, rfl⟩

theorem Runs.of_bind {p : Prog B α} {f : α → Prog B β} {value : β}
    (h : Runs (p >>= f) s answers value s') : ∃ first result s₁ last, answers = first ++ last ∧
      Runs p s first result s₁ ∧ Runs (f result) s₁ last value s' := by
  change Runs (p.bind f) s answers value s' at h
  generalize hq : p.bind f = q at h
  induction h generalizing p with
  | @ret value s =>
    cases p with
    | ret result => exact ⟨[], result, s, [], rfl, .ret, (show f result = _ from hq) ▸ .ret⟩
    | act c next => cases hq
    | iter body state next => cases hq
  | @act β' c next s s₁ s' choice result answers value hlegal hexec hrest ih =>
    cases p with
    | ret result =>
      exact ⟨[], result, s, _, rfl, .ret,
        (show f result = _ from hq) ▸ .act hlegal hexec hrest⟩
    | act c' next' =>
      cases hq
      obtain ⟨first, result', s₂, last, rfl, hfirst, hlast⟩ := ih rfl
      exact ⟨_, result', s₂, last, (List.append_assoc _ _ _).symm, .act hlegal hexec hfirst, hlast⟩
    | iter body state next' => cases hq
  | @iter β' σ body state next s s' answers value hrest ih =>
    cases p with
    | ret result => exact ⟨[], result, s, _, rfl, .ret, (show f result = _ from hq) ▸ .iter hrest⟩
    | act c next' => cases hq
    | iter body' state' next' =>
      cases hq
      obtain ⟨first, result, s₁, last, rfl, hfirst, hlast⟩ := ih (Prog.unroll_bind _ _ _ _)
      exact ⟨_, result, s₁, last, rfl, .iter hfirst, hlast⟩

theorem Runs.of_act {c : Cmd B β} {value : β} (h : Runs (.act c .ret) s answers value s') :
    ∃ choice, c.Legal True s.heap choice ∧ c.exec choice s = some (value, s') ∧
      answers = c.answers choice := by
  cases h with
  | act hlegal hexec hrest =>
    cases hrest
    exact ⟨_, hlegal, hexec, List.append_nil _⟩

/-- An allocation fails and changes nothing, or takes a dead address. -/
theorem Runs.of_malloc {block : B} {p : Pointer} (h : Runs (malloc block) s answers p s') :
    (answers = [false] ∧ p = none ∧ s' = s) ∨
      ∃ a, s.heap a = none ∧ answers = [true] ∧ p = some a ∧ s' = s.set a (some block) := by
  obtain ⟨choice, hlegal, hexec, rfl⟩ := Runs.of_act h
  cases choice with
  | none =>
    cases hexec
    exact .inl ⟨rfl, rfl, rfl⟩
  | some a =>
    cases hexec
    exact .inr ⟨a, hlegal, rfl, rfl, rfl⟩

theorem Runs.of_load {p : Pointer} {field : B → Option β} {value : β}
    (h : Runs (load p field) s answers value s') : answers = [] ∧ s' = s ∧
      ∃ a block, p = some a ∧ s.heap a = some block ∧ field block = some value := by
  obtain ⟨choice, -, hexec, rfl⟩ := Runs.of_act h
  simp only [Cmd.exec, Option.bind_eq_bind, Option.bind_eq_some_iff, Option.pure_def,
    Option.some.injEq, Prod.mk.injEq] at hexec
  obtain ⟨a, rfl, block, hblock, _, hfield, rfl, rfl⟩ := hexec
  exact ⟨rfl, rfl, a, block, rfl, hblock, hfield⟩

theorem Runs.of_store {p : Pointer} {field : B → Option B} {value : Unit}
    (h : Runs (store p field) s answers value s') : answers = [] ∧
      ∃ a block block', p = some a ∧ s.heap a = some block ∧ field block = some block' ∧
        s' = s.set a (some block') := by
  obtain ⟨choice, -, hexec, rfl⟩ := Runs.of_act h
  simp only [Cmd.exec, Option.bind_eq_bind, Option.bind_eq_some_iff, Option.pure_def,
    Option.some.injEq, Prod.mk.injEq] at hexec
  obtain ⟨a, rfl, block, hblock, block', hfield, -, rfl⟩ := hexec
  exact ⟨rfl, a, block, block', rfl, hblock, hfield, rfl⟩

/-- Only the block behind `p` dies. -/
theorem Runs.of_free {p : Pointer} {value : Unit} (h : Runs (free p) s answers value s') :
    answers = [] ∧ s'.slot = s.slot ∧ (∀ a, p = some a → s'.heap a = none) ∧
      ∀ a, p ≠ some a → s'.heap a = s.heap a := by
  obtain ⟨choice, -, hexec, rfl⟩ := Runs.of_act h
  cases p with
  | none =>
    cases hexec
    exact ⟨rfl, rfl, by simp, fun _ _ => rfl⟩
  | some a =>
    simp only [Cmd.exec, Option.bind_eq_bind, Option.bind_eq_some_iff, Option.pure_def,
      Option.some.injEq, Prod.mk.injEq] at hexec
    obtain ⟨_, _, -, rfl⟩ := hexec
    refine ⟨rfl, rfl, ?_, ?_⟩
    · rintro _ ⟨rfl⟩
      exact s.release_heap_self _
    · intro c hc
      exact s.release_heap_of_ne fun heq => hc (congrArg some heq.symm)

theorem Runs.of_getSlot {p : Pointer} (h : Runs (getSlot : Prog B Pointer) s answers p s') :
    answers = [] ∧ p = s.slot ∧ s' = s := by
  obtain ⟨choice, -, hexec, rfl⟩ := Runs.of_act h
  cases hexec
  exact ⟨rfl, rfl, rfl⟩

/-- The slot is set, or there is no memory for that and nothing changes. -/
theorem Runs.of_trySlot {p : Pointer} {value : Bool} (h : Runs (trySlot p) s answers value s') :
    (answers = [false] ∧ value = false ∧ s' = s) ∨
      answers = [true] ∧ value = true ∧ s' = { s with slot := p } := by
  obtain ⟨choice, -, hexec, rfl⟩ := Runs.of_act h
  cases choice with
  | none =>
    cases hexec
    exact .inl ⟨rfl, rfl, rfl⟩
  | some a =>
    cases hexec
    exact .inr ⟨rfl, rfl, rfl⟩

end inversion

/-! Programs that never ask the allocator. -/

def Cmd.asks : Cmd B β → Bool
  | .malloc _ | .trySlot _ => true
  | _ => false

inductive Quiet {B : Type} : {α : Type} → Prog B α → Prop
  | ret {α : Type} {value : α} : Quiet (.ret value)
  | act {α β : Type} {c : Cmd B β} {next : β → Prog B α} (hc : c.asks = false)
      (hnext : ∀ result, Quiet (next result)) : Quiet (.act c next)
  | iter {α β σ : Type} {body : σ → Prog B (σ ⊕ β)} {state : σ} {next : β → Prog B α}
      (hbody : ∀ state, Quiet (body state)) (hnext : ∀ value, Quiet (next value)) :
      Quiet (.iter body state next)

theorem Quiet.pure {value : α} : Quiet (pure value : Prog B α) := .ret

theorem Quiet.load {p : Pointer} {field : B → Option β} : Quiet (load p field) :=
  .act rfl fun _ => .ret

theorem Quiet.store {p : Pointer} {field : B → Option B} : Quiet (store p field) :=
  .act rfl fun _ => .ret

theorem Quiet.bind {p : Prog B α} {f : α → Prog B β} (hp : Quiet p)
    (hf : ∀ value, Quiet (f value)) : Quiet (p >>= f) := by
  change Quiet (p.bind f)
  induction hp with
  | ret => exact hf _
  | act hc _ ih => exact .act hc fun result => ih result hf
  | iter hbody _ _ ih => exact .iter hbody fun value => ih value hf

theorem Quiet.loop {body : σ → Prog B (σ ⊕ β)} {state : σ} (h : ∀ state, Quiet (body state)) :
    Quiet (loop body state) := .iter h fun _ => .ret

theorem Runs.of_quiet {p : Prog B α} {s s' : Memory B} {answers : List Bool} {value : α}
    (h : Runs p s answers value s') (hp : Quiet p) : answers = [] := by
  induction h with
  | ret => rfl
  | @act _ c _ _ _ _ _ _ _ _ _ _ _ ih =>
    cases hp with
    | act hc hnext =>
      rw [ih (hnext _), List.append_nil]
      cases c with
      | malloc block => cases hc
      | trySlot p => cases hc
      | _ => rfl
  | iter _ ih =>
    cases hp with
    | iter hbody hnext =>
      refine ih (Quiet.bind (hbody _) fun result => ?_)
      cases result with
      | inl state => exact .iter hbody hnext
      | inr value => exact hnext value

/-! Running a program on given choices of its allocator. -/

def Prog.eval : Nat → List Pointer → Prog B α → Memory B → Option (List Bool × α × Memory B)
  | 0, _, _, _ => none
  | _ + 1, _, .ret value, s => some ([], value, s)
  | fuel + 1, choices, .act c next, s =>
      let choice := if c.asks then choices.head?.join else none
      if choice.all fun a => (s.heap a).isNone then do
        let (result, s₁) ← c.exec choice s
        let rest := if c.asks then choices.tail else choices
        let (answers, value, s') ← (next result).eval fuel rest s₁
        return (c.answers choice ++ answers, value, s')
      else none
  | fuel + 1, choices, .iter body state next, s =>
      (Prog.unroll body state next).eval fuel choices s

theorem Runs.of_eval {fuel : Nat} {choices : List Pointer} {p : Prog B α} {s s' : Memory B}
    {answers : List Bool} {value : α} (h : p.eval fuel choices s = some (answers, value, s')) :
    Runs p s answers value s' := by
  induction fuel generalizing choices p s answers with
  | zero => cases h
  | succ fuel ih =>
    cases p with
    | ret result =>
      cases h
      exact .ret
    | act c next =>
      simp only [Prog.eval, Option.bind_eq_bind, Option.bind_eq_some_iff,
        Option.ite_none_right_eq_some, Option.pure_def, Option.some.injEq, Prod.mk.injEq] at h
      obtain ⟨hlegal, ⟨result, s₁⟩, hexec, ⟨rest, value', s₂⟩, hrest, rfl, rfl, rfl⟩ := h
      refine .act ?_ hexec (ih hrest)
      cases c with
      | malloc block =>
        cases hchoice : choices.head?.join with
        | none => simp [Cmd.asks, Cmd.Legal]
        | some a => simpa [Cmd.asks, hchoice, Cmd.Legal] using hlegal
      | trySlot p =>
        cases hchoice : choices.head?.join with
        | none => simp [Cmd.asks, Cmd.Legal]
        | some a => simpa [Cmd.asks, hchoice, Cmd.Legal] using hlegal
      | _ => rfl
    | iter body state next => exact .iter (ih h)

end Foundation.HeapProgram
