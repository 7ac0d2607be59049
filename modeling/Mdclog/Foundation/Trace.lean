import Mathlib.Data.List.Induction

/-! What labelled steps with an output show, and how steps of one kind simulate
those of another. -/
namespace Foundation.Trace

variable {σ τ α β ω : Type}

/-- The steps of `trace`, each with its label and its output, lead from `s` to the
last state. -/
inductive Follows (step : σ → α → ω → σ → Prop) (s : σ) : List (α × ω) → σ → Prop where
  | start : Follows step s [] s
  | step {trace : List (α × ω)} {label : α} {out : ω} {s₁ s₂ : σ}
      (run : Follows step s trace s₁) (hstep : step s₁ label out s₂) :
      Follows step s (trace ++ [(label, out)]) s₂

/-- The items of a trace whose label is shown, under the label it is shown with. -/
def shown (label : α → Option β) (trace : List (α × ω)) : List (β × ω) :=
  trace.filterMap fun item => (label item.1).map fun shown => (shown, item.2)

theorem shown_append (label : α → Option β) (trace later : List (α × ω)) :
    shown label (trace ++ later) = shown label trace ++ shown label later :=
  List.filterMap_append

theorem shown_some (trace : List (α × ω)) : shown some trace = trace := by
  simp [shown]

/-- A step with a hidden label leaves the other side where it is; a step with a
shown label is matched there, with the same output. -/
def Simulates (step : σ → α → ω → σ → Prop) (step' : τ → β → ω → τ → Prop)
    (label : α → Option β) (R : σ → τ → Prop) : Prop :=
  ∀ (s s' : σ) (l : τ) (a : α) (out : ω), R s l → step s a out s' →
    match label a with
    | none => R s' l
    | some b => ∃ l', step' l b out l' ∧ R s' l'

theorem Follows.simulate {step : σ → α → ω → σ → Prop} {step' : τ → β → ω → τ → Prop}
    {label : α → Option β} {R : σ → τ → Prop} (hsim : Simulates step step' label R)
    {s s' : σ} {l : τ} {trace : List (α × ω)} (h : Follows step s trace s') (hR : R s l) :
    ∃ l', Follows step' l (shown label trace) l' ∧ R s' l' := by
  induction h with
  | start => exact ⟨l, .start, hR⟩
  | @step trace a out s₁ s₂ run hstep ih =>
    obtain ⟨l₁, hrun, hR₁⟩ := ih
    have hnext := hsim _ _ _ _ _ hR₁ hstep
    rw [shown_append]
    cases hlabel : label a with
    | none =>
      rw [hlabel] at hnext
      refine ⟨l₁, ?_, hnext⟩
      simpa [shown, hlabel] using hrun
    | some b =>
      rw [hlabel] at hnext
      obtain ⟨l₂, hstep', hR₂⟩ := hnext
      refine ⟨l₂, ?_, hR₂⟩
      simpa [shown, hlabel] using hrun.step hstep'

theorem follows_nil {step : σ → α → ω → σ → Prop} {s s' : σ} :
    Follows step s [] s' ↔ s' = s := by
  constructor
  · intro h
    generalize hwhole : ([] : List (α × ω)) = whole at h
    cases h with
    | start => rfl
    | step run hstep => simp at hwhole
  · rintro rfl
    exact .start

theorem follows_snoc {step : σ → α → ω → σ → Prop} {s s' : σ} {trace : List (α × ω)} {a : α}
    {out : ω} : Follows step s (trace ++ [(a, out)]) s' ↔
      ∃ s₁, Follows step s trace s₁ ∧ step s₁ a out s' := by
  constructor
  · intro h
    generalize hwhole : trace ++ [(a, out)] = whole at h
    cases h with
    | start => simp at hwhole
    | step run hstep =>
      obtain ⟨rfl, hlast⟩ := List.append_inj' hwhole rfl
      cases hlast
      exact ⟨_, run, hstep⟩
  · rintro ⟨s₁, run, hstep⟩
    exact run.step hstep

theorem follows_append {step : σ → α → ω → σ → Prop} {s s' : σ} {trace later : List (α × ω)} :
    Follows step s (trace ++ later) s' ↔
      ∃ s₁, Follows step s trace s₁ ∧ Follows step s₁ later s' := by
  induction later using List.reverseRecOn generalizing s' with
  | nil => simp [follows_nil]
  | append_singleton later item ih =>
    obtain ⟨a, out⟩ := item
    rw [← List.append_assoc, follows_snoc]
    simp only [ih, follows_snoc]
    constructor
    · rintro ⟨s₂, ⟨s₁, h, hlater⟩, hstep⟩
      exact ⟨s₁, h, s₂, hlater, hstep⟩
    · rintro ⟨s₁, h, s₂, hlater, hstep⟩
      exact ⟨s₂, ⟨s₁, h, hlater⟩, hstep⟩

/-- Labels that mean the same. -/
theorem follows_map {step : σ → α → ω → σ → Prop} {f : α → α}
    (hf : ∀ s a out s', step s (f a) out s' ↔ step s a out s') {s s' : σ}
    {trace : List (α × ω)} :
    Follows step s (trace.map fun item => (f item.1, item.2)) s' ↔ Follows step s trace s' := by
  induction trace using List.reverseRecOn generalizing s' with
  | nil => rfl
  | append_singleton trace item ih =>
    obtain ⟨a, out⟩ := item
    rw [List.map_append, List.map_singleton, follows_snoc, follows_snoc]
    simp only [ih, hf]

end Foundation.Trace
